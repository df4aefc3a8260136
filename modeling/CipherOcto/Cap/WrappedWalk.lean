import CipherOcto.Cap.Attenuation

/-!
# The walk turn by turn

`check_wrapped_chain` and `collect_chain_caveats` are one loop written out twice. The
loop has no bound of its own: what ends it is the depth, a `u8` that is counted up with
`checked_add`, and each turn asks the catalog at most once. Here it is with the turns and
the questions counted, so that a turn that is left to run shows.

> `walk_map`: what is gathered on the way decides nothing.
> `walk_collect`: eighteen turns less the depth are enough, and give what the recursive
> loop gives.
-/

namespace CipherOcto.Cap

open Machine Encoding

/-! ## The code -/

/-- The variables of the loop, `depth` a `u8`. -/
structure WalkState (β : Type) where
  visited : List Bytes32
  current : Macaroon
  depth : Nat
  out : β

/-- How a turn ends: the loop returns, or goes round. -/
inductive Turn (β : Type) where
  | stop (result : Run MacaroonError β)
  | again (next : WalkState β)

/-- `checked_add` on `u8`. -/
def checkedAddU8 (a b : Nat) : Option Nat := if a + b < 2 ^ 8 then some (a + b) else none

variable {β γ : Type}

/-- One turn of the loop, and the id it asked the catalog for. -/
def turn (gather : β → Macaroon → β) (catalog : CapabilityCatalog) (w : WalkState β) :
    Option Bytes32 × Turn β :=
  if w.depth > maxWrappedDepth then (none, .stop (.error (.err (.wrappedDepthExceeded w.depth))))
  else match w.current.parentCapability with
  | none => (none, .stop (.ok w.out))
  | some parentId =>
    if parentId ∈ w.visited then (none, .stop (.error (.err .wrappedCycle)))
    else match checkedAddU8 w.depth 1 with
    | none => (none, .stop (.error .panic))
    | some depth =>
      match catalog.lookup parentId with
      | none => (some parentId, .stop (.error (.err (.wrappedParentNotFound parentId))))
      | some parent =>
        (some parentId, .again ⟨parentId :: w.visited, parent, depth, gather w.out parent⟩)

/-- At most so many turns: the ids asked for, and the result if the loop has returned. -/
def walk (gather : β → Macaroon → β) (catalog : CapabilityCatalog) :
    Nat → WalkState β → List Bytes32 × Option (Run MacaroonError β)
  | 0, _ => ([], none)
  | n + 1, w =>
    match turn gather catalog w with
    | (asked, .stop result) => (asked.toList, some result)
    | (asked, .again next) =>
      (asked.toList ++ (walk gather catalog n next).1, (walk gather catalog n next).2)

/-- `check_wrapped_chain`, for as many turns. -/
def checkTurns (m : Macaroon) (catalog : CapabilityCatalog) (n : Nat) :
    List Bytes32 × Option (Run MacaroonError Unit) :=
  walk (fun _ _ => ()) catalog n ⟨[m.id], m, 1, ()⟩

/-- `collect_chain_caveats`, for as many turns. -/
def collectTurns (m : Macaroon) (catalog : CapabilityCatalog) (n : Nat) :
    List Bytes32 × Option (Run MacaroonError (List Caveat)) :=
  walk (fun out parent => out ++ parent.caveats) catalog n ⟨[m.id], m, 1, m.caveats⟩

/-! ## Two loops -/

def WalkState.map (φ : β → γ) (w : WalkState β) : WalkState γ :=
  ⟨w.visited, w.current, w.depth, φ w.out⟩

def Turn.map (φ : β → γ) : Turn β → Turn γ
  | stop result => .stop (result.map φ)
  | again next => .again (next.map φ)

theorem turn_map {gather : β → Macaroon → β} {gather' : γ → Macaroon → γ} {φ : β → γ}
    (h : ∀ out parent, gather' (φ out) parent = φ (gather out parent))
    (catalog : CapabilityCatalog) (w : WalkState β) :
    turn gather' catalog (w.map φ) =
      ((turn gather catalog w).1, (turn gather catalog w).2.map φ) := by
  unfold turn WalkState.map
  dsimp only
  split
  · rfl
  · cases w.current.parentCapability with
    | none => rfl
    | some parentId =>
      dsimp only
      split
      · rfl
      · cases checkedAddU8 w.depth 1 with
        | none => rfl
        | some depth =>
          dsimp only
          cases catalog.lookup parentId with
          | none => rfl
          | some parent =>
            dsimp only
            rw [h]
            rfl

/-- **What is gathered decides nothing**: the same ids are asked for, and the results are
the same but for it. -/
theorem walk_map {gather : β → Macaroon → β} {gather' : γ → Macaroon → γ} {φ : β → γ}
    (h : ∀ out parent, gather' (φ out) parent = φ (gather out parent))
    (catalog : CapabilityCatalog) (n : Nat) (w : WalkState β) :
    walk gather' catalog n (w.map φ) =
      ((walk gather catalog n w).1, (walk gather catalog n w).2.map (Except.map φ)) := by
  induction n generalizing w with
  | zero => rfl
  | succ n ih =>
    rw [walk, walk, turn_map h]
    obtain ⟨asked, next⟩ := turn gather catalog w
    cases next with
    | stop result => rfl
    | again next =>
      dsimp only [Turn.map]
      rw [ih]

/-! ## Enough turns -/

theorem checkedAddU8_depth {depth : Nat} (h : ¬depth > maxWrappedDepth) :
    checkedAddU8 depth 1 = some (depth + 1) := by
  unfold maxWrappedDepth at h
  exact if_pos (by omega)

/-- **Seventeen turns** from the first depth are enough, in which the catalog is asked once
for each depth at most. -/
theorem walk_collect (catalog : CapabilityCatalog) (n : Nat) (w : WalkState (List Caveat))
    (hdepth : w.depth ≤ 17) (hturns : 18 ≤ n + w.depth) :
    (walk (fun out parent => out ++ parent.caveats) catalog n w).2 =
        some (collectLoop catalog w.visited w.out w.current w.depth) ∧
      (walk (fun out parent => out ++ parent.caveats) catalog n w).1.length + w.depth ≤ 17 := by
  induction n generalizing w with
  | zero => omega
  | succ n ih =>
    -- a turn that returns asks for one id at most, and not at the last depth
    have hnone : (none : Option Bytes32).toList.length + w.depth ≤ 17 := by
      rw [Option.toList_none, List.length_nil, Nat.zero_add]
      exact hdepth
    rw [walk, collectLoop, turn]
    by_cases hlast : w.depth > maxWrappedDepth
    · rw [if_pos hlast, if_pos hlast]
      exact ⟨rfl, hnone⟩
    rw [if_neg hlast, if_neg hlast]
    have hlt : w.depth ≤ 16 := not_lt.mp hlast
    cases w.current.parentCapability with
    | none => exact ⟨rfl, hnone⟩
    | some parentId =>
      dsimp only
      by_cases hvisited : parentId ∈ w.visited
      · rw [if_pos hvisited, if_pos hvisited]
        exact ⟨rfl, hnone⟩
      rw [if_neg hvisited, if_neg hvisited, checkedAddU8_depth hlast]
      dsimp only
      cases catalog.lookup parentId with
      | none =>
        have hone : (some parentId).toList.length + w.depth ≤ 17 := by
          rw [Option.toList_some, List.length_singleton]
          omega
        exact ⟨rfl, hone⟩
      | some parent =>
        obtain ⟨hresult, hasked⟩ := ih
          ⟨parentId :: w.visited, parent, w.depth + 1, w.out ++ parent.caveats⟩
          (Nat.succ_le_succ hlt) (by dsimp only; omega)
        refine ⟨hresult, ?_⟩
        dsimp only at hasked ⊢
        rw [Option.toList_some, List.length_append, List.length_singleton]
        omega

theorem collectLoop_ne_panic (catalog : CapabilityCatalog) (visited : List Bytes32)
    (out : List Caveat) (m : Macaroon) (depth : Nat) :
    collectLoop catalog visited out m depth ≠ .error .panic := by
  fun_induction collectLoop catalog visited out m depth with
  | case5 visited out m depth hdepth p hp hvisited a hlookup ih => exact ih
  | _ =>
    intro h
    cases h

theorem collectTurns_eq (m : Macaroon) (catalog : CapabilityCatalog) (n : Nat) :
    (collectTurns m catalog (n + 17)).2 = some (collectChainCaveats m catalog) ∧
      (collectTurns m catalog (n + 17)).1.length ≤ 16 := by
  obtain ⟨hresult, hasked⟩ := walk_collect catalog (n + 17) ⟨[m.id], m, 1, m.caveats⟩
    (Nat.le_add_left 1 16) (by dsimp only; omega)
  exact ⟨hresult, Nat.le_of_succ_le_succ hasked⟩

/-- The two loops ask for the same ids and return alike. -/
theorem checkTurns_eq_map (m : Macaroon) (catalog : CapabilityCatalog) (n : Nat) :
    checkTurns m catalog n = ((collectTurns m catalog n).1,
      (collectTurns m catalog n).2.map (Except.map fun _ => ())) :=
  walk_map (φ := fun _ : List Caveat => ()) (fun _ _ => rfl) catalog n ⟨[m.id], m, 1, m.caveats⟩

theorem checkWrappedChain_eq_map (m : Macaroon) (catalog : CapabilityCatalog) :
    checkWrappedChain m catalog = (collectChainCaveats m catalog).map fun _ => () :=
  checkLoop_eq_map catalog [m.id] m.caveats m 1

/-- What the loops ask of the ids, as a path. -/
theorem walkable_iff_nodup {m : Macaroon} {links : List (Bytes32 × Macaroon)} :
    Walkable [m.id] 1 links ↔ links.length + 1 ≤ 16 ∧ (m.id :: links.map Prod.fst).Nodup := by
  rw [List.nodup_cons]
  constructor
  · intro h
    refine ⟨Nat.add_comm _ 1 ▸ h.depth_le, fun hmem => ?_, h.nodup⟩
    exact h.fresh _ hmem List.mem_cons_self
  · intro h
    obtain ⟨hlen, hroot, hnodup⟩ := h
    refine ⟨Nat.add_comm 1 _ ▸ hlen, fun p hp hmem => ?_, hnodup⟩
    exact hroot (List.mem_singleton.mp hmem ▸ hp)

/-- **The walk of the wrapped chain** returns within seventeen turns, with sixteen ids asked
for at most, and without a panic. It is well where the lineage ends within sixteen tokens
and repeats no id; and the caveats are collected where it is well, and else not, with the
same error. -/
theorem wrappedChain_walk (m : Macaroon) (catalog : CapabilityCatalog) :
    (∀ n, (checkTurns m catalog (n + 17)).2 = some (checkWrappedChain m catalog) ∧
      (checkTurns m catalog (n + 17)).1.length ≤ 16) ∧
    checkWrappedChain m catalog ≠ .error .panic ∧
    (checkWrappedChain m catalog = .ok () ↔ ∃ links, Lineage catalog m links ∧
      links.length + 1 ≤ 16 ∧ (m.id :: links.map Prod.fst).Nodup) ∧
    (∀ n, (collectTurns m catalog (n + 17)).2 = some (collectChainCaveats m catalog)) ∧
    checkWrappedChain m catalog = (collectChainCaveats m catalog).map fun _ => () := by
  have hmap := checkWrappedChain_eq_map m catalog
  refine ⟨fun n => ?_, ?_, ?_, fun n => (collectTurns_eq m catalog n).1, hmap⟩
  · obtain ⟨hresult, hasked⟩ := collectTurns_eq m catalog n
    rw [checkTurns_eq_map, hresult, hmap]
    exact ⟨rfl, hasked⟩
  · rw [hmap, collectChainCaveats]
    intro hpanic
    exact collectLoop_ne_panic _ _ _ _ _ (run_map_eq_error.mp hpanic)
  · rw [checkWrappedChain_eq_ok_iff]
    exact exists_congr fun links => and_congr_right fun _ => walkable_iff_nodup

end CipherOcto.Cap
