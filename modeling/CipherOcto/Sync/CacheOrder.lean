import CipherOcto.Sync.ReplayCache

/-!
# Which entries the cache gives up

`ReplayCache` is documented to evict the oldest entry by `first_seen`. Both `insert` and
`evict_oldest` take the first key of the map, which is the smallest id. After any sequence of
insertions the cache holds the largest ids it was given (`runInserts_entries`), each with the
time of its first insertion, whatever was evicted and inserted again in between.

> `holdsRecent_iff`: so it holds the most recent ids iff these are above all older ones, the
> id inserted last is one of them, and the smallest of them was seen first.
-/

namespace CipherOcto.Sync

open Encoding

/-- Insertions into a new cache. -/
def runInserts (maxEntries : Nat) (ops : List (Bytes32 × Nat)) : ReplayCache :=
  ops.foldl (fun c op => c.insert op.1 op.2) (.new maxEntries)

/-! ## The insertions of new ids -/

/-- One more insertion, if its id is new. -/
def noteInsert (seen : List (Bytes32 × Nat)) (op : Bytes32 × Nat) : List (Bytes32 × Nat) :=
  if op.1 ∈ seen.map Prod.fst then seen else seen ++ [op]

/-- The first insertion of each id, in order. -/
def firstInsertions (ops : List (Bytes32 × Nat)) : List (Bytes32 × Nat) := ops.foldl noteInsert []

/-- The last `m` of them, and those before. -/
def recent (m : Nat) (ops : List (Bytes32 × Nat)) : List (Bytes32 × Nat) :=
  (firstInsertions ops).drop ((firstInsertions ops).length - m)

def older (m : Nat) (ops : List (Bytes32 × Nat)) : List (Bytes32 × Nat) :=
  (firstInsertions ops).take ((firstInsertions ops).length - m)

theorem firstInsertions_snoc (ops : List (Bytes32 × Nat)) (op : Bytes32 × Nat) :
    firstInsertions (ops ++ [op]) = noteInsert (firstInsertions ops) op := by
  unfold firstInsertions
  rw [List.foldl_append]
  rfl

theorem firstInsertions_nodup (ops : List (Bytes32 × Nat)) :
    ((firstInsertions ops).map Prod.fst).Nodup := by
  induction ops using List.reverseRecOn with
  | nil => exact List.nodup_nil
  | append_singleton ops op ih =>
    rw [firstInsertions_snoc]
    unfold noteInsert
    split
    · exact ih
    next hnew =>
      rw [List.map_append, List.map_singleton, ← List.concat_eq_append]
      exact ih.concat hnew

/-- An id has one first insertion. -/
theorem firstInsertions_unique {ops : List (Bytes32 × Nat)} {x y : Bytes32 × Nat}
    (hx : x ∈ firstInsertions ops) (hy : y ∈ firstInsertions ops) (h : x.1 = y.1) : x = y :=
  List.inj_on_of_nodup_map (firstInsertions_nodup ops) hx hy h

theorem older_append_recent (m : Nat) (ops : List (Bytes32 × Nat)) :
    older m ops ++ recent m ops = firstInsertions ops :=
  List.take_append_drop _ _

theorem length_recent (m : Nat) (ops : List (Bytes32 × Nat)) :
    (recent m ops).length = min m (firstInsertions ops).length := by
  unfold recent
  rw [List.length_drop]
  omega

theorem mem_of_mem_recent {m : Nat} {ops : List (Bytes32 × Nat)} {x : Bytes32 × Nat}
    (h : x ∈ recent m ops) : x ∈ firstInsertions ops :=
  List.mem_of_mem_drop h

/-! ## What the cache holds -/

/-- The rank of an entry is that of its id. -/
abbrev entryRank (e : Bytes32 × Nat) : Nat := digestRank e.1

/-- One more insertion, in its place if its id is new. -/
def rankInsert (l : List (Bytes32 × Nat)) (op : Bytes32 × Nat) : List (Bytes32 × Nat) :=
  if op.1 ∈ l.map Prod.fst then l else Descending.insert entryRank op l

/-- The first insertions, the largest id first. -/
def ranked (ops : List (Bytes32 × Nat)) : List (Bytes32 × Nat) := ops.foldl rankInsert []

theorem ranked_snoc (ops : List (Bytes32 × Nat)) (op : Bytes32 × Nat) :
    ranked (ops ++ [op]) = rankInsert (ranked ops) op := by
  unfold ranked
  rw [List.foldl_append]
  rfl

theorem ranked_perm (ops : List (Bytes32 × Nat)) : (ranked ops).Perm (firstInsertions ops) := by
  induction ops using List.reverseRecOn with
  | nil => exact List.Perm.refl _
  | append_singleton ops op ih =>
    have hold : op.1 ∈ (ranked ops).map Prod.fst ↔ op.1 ∈ (firstInsertions ops).map Prod.fst :=
      (ih.map Prod.fst).mem_iff
    rw [ranked_snoc, firstInsertions_snoc]
    unfold rankInsert noteInsert
    split
    next h => rwa [if_pos (hold.mp h)]
    next h =>
      rw [if_neg (fun h' => h (hold.mpr h'))]
      exact (Descending.insert_perm op _).trans
        ((ih.cons op).trans (List.perm_append_singleton _ _).symm)

theorem ranked_sorted (ops : List (Bytes32 × Nat)) :
    Descending.Sorted entryRank (ranked ops) := by
  induction ops using List.reverseRecOn with
  | nil => exact List.Pairwise.nil
  | append_singleton ops op ih =>
    rw [ranked_snoc]
    unfold rankInsert
    split
    · exact ih
    next hnew =>
      refine ih.insert fun e he hrank => hnew ?_
      exact List.mem_map.mpr ⟨e, he, digestRank_inj hrank⟩

/-- **The cache holds the largest ids, each as it was inserted first.** -/
theorem runInserts_entries (m : Nat) (ops : List (Bytes32 × Nat)) :
    (runInserts m ops).maxEntries = m ∧ (runInserts m ops).entries = (ranked ops).take m := by
  induction ops using List.reverseRecOn with
  | nil => exact ⟨rfl, List.take_nil.symm⟩
  | append_singleton ops op ih =>
    obtain ⟨hmax, hentries⟩ := ih
    have hrun : runInserts m (ops ++ [op]) = (runInserts m ops).insert op.1 op.2 := by
      unfold runInserts
      rw [List.foldl_append]
      rfl
    rw [hrun, ranked_snoc]
    unfold ReplayCache.insert rankInsert
    by_cases hcached : (runInserts m ops).contains op.1 = true
    · have hold := of_decide_eq_true hcached
      rw [hentries, List.map_take] at hold
      rw [if_pos hcached, if_pos (List.mem_of_mem_take hold)]
      exact ⟨hmax, hentries⟩
    rw [if_neg hcached]
    refine ⟨hmax, ?_⟩
    dsimp only
    rw [ReplayCache.evictTo_eq_take, hentries, hmax]
    split
    next hold =>
      -- inserted before and evicted since: it is smaller than all that is held
      obtain ⟨e, he, hid⟩ := List.mem_map.mp hold
      refine Descending.take_insert_of_cut (ranked_sorted ops) he (fun hin => hcached ?_)
        (congrArg digestRank hid.symm)
      refine decide_eq_true ?_
      rw [hentries, ← hid]
      exact List.mem_map_of_mem hin
    · exact Descending.take_insert_take _ _ _

/-! ## When it holds the recent ones -/

/-- What the cache is documented to be: the ids are those of the last `m` first insertions,
the id inserted last is one of them, and an entry of minimal time is evicted. -/
structure HoldsRecent (m : Nat) (ops : List (Bytes32 × Nat)) : Prop where
  held : ∀ id, (runInserts m ops).contains id = true ↔ id ∈ (recent m ops).map Prod.fst
  inserted : ∀ op, ops.getLast? = some op → (runInserts m ops).contains op.1 = true
  evicted : ∀ e c, (runInserts m ops).evictOldest = (some e, c) →
    (∀ f ∈ (runInserts m ops).entries, e.2 ≤ f.2) ∧
      ∀ f, f ∈ c.entries ↔ f ∈ (runInserts m ops).entries ∧ f ≠ e

/-- The order of the ids is that of the times, as far as it matters. -/
structure OrderAgrees (m : Nat) (ops : List (Bytes32 × Nat)) : Prop where
  above : ∀ x ∈ older m ops, ∀ y ∈ recent m ops, digestRank x.1 < digestRank y.1
  last : ∀ op, ops.getLast? = some op → op.1 ∈ (recent m ops).map Prod.fst
  smallest : ∀ x ∈ recent m ops, (∀ y ∈ recent m ops, digestRank x.1 ≤ digestRank y.1) →
    ∀ y ∈ recent m ops, x.2 ≤ y.2

/-- `evict_oldest` takes out the smallest id. -/
theorem evictOldest_eq_some {c c' : ReplayCache} {e : Bytes32 × Nat}
    (hsorted : Descending.Sorted entryRank c.entries) (h : c.evictOldest = (some e, c')) :
    (e ∈ c.entries ∧ ∀ f ∈ c.entries, digestRank e.1 ≤ digestRank f.1) ∧
      ∀ f, f ∈ c'.entries ↔ f ∈ c.entries ∧ f ≠ e := by
  unfold ReplayCache.evictOldest at h
  split at h
  next e' hlast =>
    injection h with he hc
    injection he with he
    subst he hc
    obtain ⟨init, hinit⟩ := List.getLast?_eq_some_iff.mp hlast
    dsimp only
    rw [hinit] at hsorted ⊢
    obtain ⟨-, -, habove⟩ := List.pairwise_append.mp hsorted
    have habove : ∀ f ∈ init, digestRank e'.1 < digestRank f.1 := fun f hf =>
      habove f hf e' (List.mem_singleton.mpr rfl)
    rw [List.dropLast_concat]
    refine ⟨⟨List.mem_append_right _ (List.mem_singleton.mpr rfl), fun f hf => ?_⟩, fun f => ?_⟩
    · rcases List.mem_append.mp hf with hf | hf
      · exact (habove f hf).le
      · rw [List.mem_singleton.mp hf]
    · rw [List.mem_append, List.mem_singleton]
      constructor
      · intro hf
        refine ⟨.inl hf, ?_⟩
        rintro rfl
        exact lt_irrefl _ (habove f hf)
      · exact fun hf => hf.1.resolve_right hf.2
  next => cases h

section
variable {m : Nat} {ops : List (Bytes32 × Nat)}

theorem runInserts_sorted : Descending.Sorted entryRank (runInserts m ops).entries := by
  rw [(runInserts_entries m ops).2]
  exact List.Pairwise.sublist (List.take_sublist m _) (ranked_sorted ops)

/-- The ids determine the entries. -/
theorem held_iff : (∀ id, (runInserts m ops).contains id = true ↔ id ∈ (recent m ops).map Prod.fst) ↔
    ∀ x, x ∈ (runInserts m ops).entries ↔ x ∈ recent m ops := by
  have hfirst : ∀ x ∈ (runInserts m ops).entries, x ∈ firstInsertions ops := by
    intro x hx
    rw [(runInserts_entries m ops).2] at hx
    exact (ranked_perm ops).mem_iff.mp (List.mem_of_mem_take hx)
  have hcontains : ∀ id, (runInserts m ops).contains id = true ↔
      id ∈ (runInserts m ops).entries.map Prod.fst := fun id => decide_eq_true_iff
  constructor
  · intro h x
    have hx := (hcontains x.1).symm.trans (h x.1)
    constructor
    · intro hin
      obtain ⟨y, hy, hid⟩ := List.mem_map.mp (hx.mp (List.mem_map_of_mem hin))
      rwa [← firstInsertions_unique (mem_of_mem_recent hy) (hfirst x hin) hid]
    · intro hin
      obtain ⟨y, hy, hid⟩ := List.mem_map.mp (hx.mpr (List.mem_map_of_mem hin))
      rwa [← firstInsertions_unique (hfirst y hy) (mem_of_mem_recent hin) hid]
  · intro h id
    rw [hcontains, List.mem_map, List.mem_map]
    exact exists_congr fun x => and_congr_left fun _ => h x

/-- The recent entries are held iff their ids are the largest. -/
theorem held_iff_above : (∀ x, x ∈ (runInserts m ops).entries ↔ x ∈ recent m ops) ↔
    ∀ x ∈ older m ops, ∀ y ∈ recent m ops, digestRank x.1 < digestRank y.1 := by
  have hperm : (ranked ops).Perm (older m ops ++ recent m ops) := by
    rw [older_append_recent]
    exact ranked_perm ops
  rw [(runInserts_entries m ops).2]
  refine Descending.take_eq_iff (ranked_sorted ops) hperm ?_
  rw [length_recent, (ranked_perm ops).length_eq]

end

/-- **When the cache is what it is documented to be.** -/
theorem holdsRecent_iff (m : Nat) (ops : List (Bytes32 × Nat)) :
    HoldsRecent m ops ↔ OrderAgrees m ops := by
  constructor
  · intro h
    have hentries := held_iff.mp h.held
    refine ⟨held_iff_above.mp hentries, fun op hop => (h.held _).mp (h.inserted op hop), ?_⟩
    intro x hx hsmallest y hy
    -- the entry that is evicted is the smallest one
    have hxin := (hentries x).mpr hx
    cases hevict : (runInserts m ops).evictOldest with
    | mk r c =>
      cases r with
      | none =>
        unfold ReplayCache.evictOldest at hevict
        split at hevict
        · cases hevict
        next hnone =>
          rw [List.getLast?_eq_none_iff.mp hnone] at hxin
          exact absurd hxin List.not_mem_nil
      | some e =>
        obtain ⟨⟨he, hle⟩, -⟩ := evictOldest_eq_some runInserts_sorted hevict
        have hrank : digestRank e.1 = digestRank x.1 :=
          le_antisymm (hle x hxin) (hsmallest e ((hentries e).mp he))
        have hex : e = x := firstInsertions_unique (mem_of_mem_recent ((hentries e).mp he))
          (mem_of_mem_recent hx) (digestRank_inj hrank)
        rw [← hex]
        exact (h.evicted e c hevict).1 y ((hentries y).mpr hy)
  · intro h
    have hentries := held_iff_above.mpr h.above
    have hheld := held_iff.mpr hentries
    refine ⟨hheld, fun op hop => (hheld _).mpr (h.last op hop), fun e c hevict => ?_⟩
    obtain ⟨⟨he, hle⟩, hremoved⟩ := evictOldest_eq_some runInserts_sorted hevict
    refine ⟨fun f hf => ?_, hremoved⟩
    exact h.smallest e ((hentries e).mp he)
      (fun y hy => hle y ((hentries y).mpr hy)) f ((hentries f).mp hf)

/-- One entry, and the ids in falling order: the second is gone as soon as it is inserted. -/
theorem insertion_lost :
    let ops : List (Bytes32 × Nat) := [(Vector.replicate 32 2, 100), (Vector.replicate 32 1, 200)]
    (runInserts 1 ops).contains (Vector.replicate 32 1) = false ∧
      (runInserts 1 ops).contains (Vector.replicate 32 2) = true ∧ ¬ HoldsRecent 1 ops := by
  intro ops
  have hlost : (runInserts 1 ops).contains (Vector.replicate 32 1) = false := by decide +kernel
  refine ⟨hlost, by decide +kernel, fun h => ?_⟩
  have hin := h.inserted (Vector.replicate 32 1, 200) rfl
  exact Bool.false_ne_true (hlost.symm.trans hin)

end CipherOcto.Sync
