import Mathlib.Algebra.Group.Nat.Defs
import Mathlib.Data.List.Infix
import Mathlib.Data.Nat.Log
import Mathlib.Data.Set.Function

/-!
# Trees that repeat the last entry of an odd level

A binary tree over a list of leaves, level by level: neighbours are paired and a
last entry without one is paired with itself. `climb node k l` is the level `k`
over `l`, and `fill k l` is the list whose every level down to `k` is even and
that has the same tree: at each odd level the last subtree stands there twice.

> `climb_eq_climb_iff`: two lists have the same level `k` iff they have the same
> filling, if no two pairs hashed on the way collide.
> `eq_of_fill_eq`, `eq_of_fill_eq_of_nodup`: what the filling says of the list.
> `root_eq_iff`: the same of the roots of two trees, if no two messages that they
> hash collide.
-/

namespace CipherOcto.PairTree

variable {α β : Type}

/-- Neighbours paired, a last one left over with itself. -/
def pairs : List α → List (α × α)
  | [] => []
  | [a] => [(a, a)]
  | a :: b :: l => (a, b) :: pairs l

/-- The level above. -/
def up (node : α × α → α) (l : List α) : List α := (pairs l).map node

/-- The level `k`. -/
def climb (node : α × α → α) : Nat → List α → List α
  | 0, l => l
  | k + 1, l => climb node k (up node l)

/-- The pairs hashed on the way to the level `k`. -/
def hashedPairs (node : α × α → α) : Nat → List α → List (α × α)
  | 0, _ => []
  | k + 1, l => pairs l ++ hashedPairs node k (up node l)

def unpair (l : List (α × α)) : List α := l.flatMap fun p => [p.1, p.2]

/-- `l` filled up to whole subtrees of depth `k`, each level by its last subtree. -/
def fill : (k : Nat) → {α : Type} → List α → List α
  | 0, _, l => l
  | k + 1, _, l => unpair (fill k (pairs l))

/-! ## Pairs -/

theorem length_pairs : ∀ l : List α, (pairs l).length = (l.length + 1) / 2
  | [] => by simp [pairs]
  | [_] => by simp [pairs]
  | _ :: _ :: l => by
    simp only [pairs, List.length_cons, length_pairs l]
    omega

theorem pairs_map (f : α → β) : ∀ l : List α, pairs (l.map f) = (pairs l).map (Prod.map f f)
  | [] => rfl
  | [_] => rfl
  | _ :: _ :: l => by
    simp only [List.map_cons, pairs, Prod.map]
    exact congrArg _ (pairs_map f l)

theorem mem_of_mem_pairs {p : α × α} : ∀ {l : List α}, p ∈ pairs l → p.1 ∈ l ∧ p.2 ∈ l
  | [], h => absurd h List.not_mem_nil
  | [_], h => by
    obtain rfl := List.mem_singleton.mp h
    exact ⟨List.mem_singleton_self _, List.mem_singleton_self _⟩
  | a :: b :: l, h => by
    rcases List.mem_cons.mp h with rfl | hrest
    · exact ⟨List.mem_cons_self, List.mem_cons_of_mem _ List.mem_cons_self⟩
    · obtain ⟨h₁, h₂⟩ := mem_of_mem_pairs hrest
      exact ⟨List.mem_cons_of_mem _ (List.mem_cons_of_mem _ h₁),
        List.mem_cons_of_mem _ (List.mem_cons_of_mem _ h₂)⟩

@[simp] theorem unpair_cons (p : α × α) (l : List (α × α)) :
    unpair (p :: l) = p.1 :: p.2 :: unpair l := rfl

theorem length_unpair : ∀ l : List (α × α), (unpair l).length = 2 * l.length
  | [] => rfl
  | p :: l => by
    rw [unpair_cons, List.length_cons, List.length_cons, length_unpair l, List.length_cons]
    omega

theorem unpair_injective : ∀ l m : List (α × α), unpair l = unpair m → l = m
  | [], [], _ => rfl
  | [], _ :: _, h => by cases h
  | _ :: _, [], h => by cases h
  | p :: l, q :: m, h => by
    simp only [unpair_cons, List.cons.injEq] at h
    obtain ⟨hfst, hsnd, hrest⟩ := h
    rw [Prod.ext hfst hsnd, unpair_injective l m hrest]

theorem unpair_map (f : α → β) (l : List (α × α)) :
    unpair (l.map (Prod.map f f)) = (unpair l).map f := by
  induction l with
  | nil => rfl
  | cons p l ih => rw [List.map_cons, unpair_cons, unpair_cons, ih]; rfl

theorem mem_unpair {a : α} {l : List (α × α)} : a ∈ unpair l ↔ ∃ p ∈ l, a = p.1 ∨ a = p.2 := by
  simp [unpair]

/-- Pairing and taking apart only adds behind. -/
theorem prefix_unpair_pairs : ∀ l : List α, l <+: unpair (pairs l)
  | [] => List.nil_prefix
  | [a] => List.prefix_append [a] [a]
  | a :: b :: l => by
    obtain ⟨t, ht⟩ := prefix_unpair_pairs l
    exact ⟨t, by rw [pairs, unpair_cons, ← ht]; rfl⟩

theorem unpair_prefix_unpair {l m : List (α × α)} (h : l <+: m) : unpair l <+: unpair m := by
  obtain ⟨t, rfl⟩ := h
  exact ⟨unpair t, List.flatMap_append.symm⟩

/-! ## Filling up -/

theorem fill_map (f : α → β) (k : Nat) (l : List α) : fill k (l.map f) = (fill k l).map f := by
  induction k generalizing α β with
  | zero => rfl
  | succ k ih => rw [fill, pairs_map, ih, unpair_map, fill]

/-- The list stands at the front of its filling. -/
theorem prefix_fill (k : Nat) (l : List α) : l <+: fill k l := by
  induction k generalizing α with
  | zero => exact List.prefix_rfl
  | succ k ih => exact (prefix_unpair_pairs l).trans (unpair_prefix_unpair (ih (pairs l)))

theorem fill_subset (k : Nat) (l : List α) : fill k l ⊆ l := by
  induction k generalizing α with
  | zero => exact fun _ h => h
  | succ k ih =>
    intro a ha
    obtain ⟨p, hp, hside⟩ := mem_unpair.mp ha
    obtain ⟨hfst, hsnd⟩ := mem_of_mem_pairs (ih (pairs l) hp)
    rcases hside with rfl | rfl
    · exact hfst
    · exact hsnd

theorem length_fill (k : Nat) {l : List α} (hpos : 0 < l.length) (hle : l.length ≤ 2 ^ k) :
    (fill k l).length = 2 ^ k := by
  induction k generalizing α with
  | zero =>
    rw [Nat.pow_zero] at hle ⊢
    exact Nat.le_antisymm hle hpos
  | succ k ih =>
    rw [Nat.pow_succ] at hle ⊢
    rw [fill, length_unpair, ih (by rw [length_pairs]; omega) (by rw [length_pairs]; omega)]
    omega

/-- Lists of one length are told apart by their fillings. -/
theorem eq_of_fill_eq {k : Nat} {xs ys : List α} (h : fill k xs = fill k ys)
    (hlen : xs.length = ys.length) : xs = ys := by
  have hxs := List.prefix_iff_eq_take.mp (prefix_fill k xs)
  have hys := List.prefix_iff_eq_take.mp (prefix_fill k ys)
  rw [hxs, h, hlen, ← hys]

theorem length_le_of_fill_eq {k : Nat} {xs ys : List α} (h : fill k xs = fill k ys)
    (hys : ys.Nodup) : ys.length ≤ xs.length := by
  by_contra hlt
  -- `ys` runs on past `xs` with an entry that `xs`, its own front, already has
  have hpre : xs <+: ys := by
    refine List.prefix_of_prefix_length_le ?_ (prefix_fill k ys) (not_le.mp hlt).le
    rw [← h]
    exact prefix_fill k xs
  obtain ⟨t, rfl⟩ := hpre
  cases t with
  | nil => exact hlt (by rw [List.append_nil])
  | cons a t =>
    have hmem : a ∈ xs := by
      refine fill_subset k xs ?_
      rw [h]
      exact (prefix_fill k _).subset (List.mem_append_right _ List.mem_cons_self)
    exact (List.nodup_append.mp hys).2.2 a hmem a List.mem_cons_self rfl

/-- So are lists without repetitions. -/
theorem eq_of_fill_eq_of_nodup {k : Nat} {xs ys : List α} (h : fill k xs = fill k ys)
    (hxs : xs.Nodup) (hys : ys.Nodup) : xs = ys :=
  eq_of_fill_eq h (Nat.le_antisymm (length_le_of_fill_eq h.symm hxs) (length_le_of_fill_eq h hys))

/-! ## Levels -/

variable {node : α × α → α}

theorem length_up (l : List α) : (up node l).length = (l.length + 1) / 2 := by
  rw [up, List.length_map, length_pairs]

theorem length_climb (k : Nat) {l : List α} (hpos : 0 < l.length) (hle : l.length ≤ 2 ^ k) :
    (climb node k l).length = 1 := by
  induction k generalizing l with
  | zero => exact Nat.le_antisymm hle hpos
  | succ k ih =>
    rw [Nat.pow_succ] at hle
    exact ih (by rw [length_up]; omega) (by rw [length_up]; omega)

/-- What reads the nodes of one tree as those of another reads its levels as well. -/
theorem up_map {f : α → β} {below : β × β → β} (h : ∀ p, f (node p) = below (Prod.map f f p))
    (l : List α) : up below (l.map f) = (up node l).map f := by
  rw [up, up, pairs_map, List.map_map, List.map_map]
  exact List.map_congr_left fun p _ => (h p).symm

theorem climb_map {f : α → β} {below : β × β → β} (h : ∀ p, f (node p) = below (Prod.map f f p))
    (k : Nat) (l : List α) : climb below k (l.map f) = (climb node k l).map f := by
  induction k generalizing l with
  | zero => rfl
  | succ k ih => rw [climb, up_map h, ih, climb]

theorem climb_add (j k : Nat) (l : List α) :
    climb node (j + k) l = climb node k (climb node j l) := by
  induction j generalizing l with
  | zero => rw [Nat.zero_add, climb]
  | succ j ih => rw [Nat.succ_add, climb, ih, climb]

/-- Above the leaves stand hashes of pairs. -/
theorem exists_pair_of_mem_climb {a : α} (k : Nat) {l : List α} (h : a ∈ climb node (k + 1) l) :
    ∃ p ∈ hashedPairs node (k + 1) l, node p = a := by
  induction k generalizing l with
  | zero =>
    obtain ⟨p, hp, rfl⟩ := List.mem_map.mp h
    exact ⟨p, List.mem_append_left _ hp, rfl⟩
  | succ k ih =>
    obtain ⟨p, hp, rfl⟩ := ih h
    exact ⟨p, List.mem_append_right _ hp, rfl⟩

theorem hashedPairs_add (j k : Nat) (l : List α) :
    hashedPairs node (j + k) l = hashedPairs node j l ++ hashedPairs node k (climb node j l) := by
  induction j generalizing l with
  | zero => rw [Nat.zero_add, hashedPairs, climb, List.nil_append]
  | succ j ih => rw [Nat.succ_add, hashedPairs, ih, hashedPairs, climb, List.append_assoc]

theorem eq_of_map_eq {f : α → β} {s : Set α} (hinj : Set.InjOn f s) :
    ∀ {l m : List α}, (∀ a ∈ l, a ∈ s) → (∀ a ∈ m, a ∈ s) → l.map f = m.map f → l = m
  | [], [], _, _, _ => rfl
  | [], _ :: _, _, _, h => by cases h
  | _ :: _, [], _, _, h => by cases h
  | a :: l, b :: m, hl, hm, h => by
    rw [List.forall_mem_cons] at hl hm
    rw [List.map_cons, List.map_cons, List.cons.injEq] at h
    rw [hinj hl.1 hm.1 h.1, eq_of_map_eq hinj hl.2 hm.2 h.2]

/-- **Binding.** Two lists have the same level `k` iff they have the same filling. -/
theorem climb_eq_climb_iff (k : Nat) {xs ys : List α}
    (hinj : Set.InjOn node {p | p ∈ hashedPairs node k xs ∨ p ∈ hashedPairs node k ys}) :
    climb node k xs = climb node k ys ↔ fill k xs = fill k ys := by
  induction k generalizing xs ys with
  | zero => rfl
  | succ k ih =>
    have habove := ih (hinj.mono fun p hp =>
      hp.imp (List.mem_append_right _) (List.mem_append_right _))
    have hpairs : (fill k (pairs xs)).map node = (fill k (pairs ys)).map node ↔
        fill k (pairs xs) = fill k (pairs ys) := by
      refine ⟨eq_of_map_eq hinj ?_ ?_, congrArg _⟩
      · exact fun p hp => .inl (List.mem_append_left _ (fill_subset k _ hp))
      · exact fun p hp => .inr (List.mem_append_left _ (fill_subset k _ hp))
    -- the filling of the level above is the filling of the pairs, hashed
    rw [climb, climb, habove, up, up, fill_map, fill_map, hpairs, fill, fill]
    exact ⟨congrArg _, unpair_injective _ _⟩

/-! ## Roots -/

/-- The levels of the tree over `l`. -/
def depth (l : List α) : Nat := Nat.clog 2 l.length

/-- `l` filled up to a whole tree. -/
def complete (l : List α) : List α := fill (depth l) l

theorem length_complete {l : List α} (h : l ≠ []) : (complete l).length = 2 ^ depth l :=
  length_fill (depth l) (List.length_pos_of_ne_nil h) (Nat.le_pow_clog (by omega) l.length)

theorem prefix_complete (l : List α) : l <+: complete l := prefix_fill (depth l) l

theorem complete_eq_nil_iff {l : List α} : complete l = [] ↔ l = [] := by
  constructor
  · intro h
    exact List.prefix_nil.mp (h ▸ prefix_complete l)
  · intro h
    rw [h]
    rfl

@[simp] theorem depth_map (f : α → β) (l : List α) : depth (l.map f) = depth l := by
  rw [depth, List.length_map, depth]

theorem complete_map (f : α → β) (l : List α) : complete (l.map f) = (complete l).map f := by
  rw [complete, depth_map, fill_map, complete]

theorem complete_subset (l : List α) : complete l ⊆ l := fill_subset (depth l) l

theorem depth_eq_of_complete_eq {xs ys : List α} (h : complete xs = complete ys) :
    depth xs = depth ys := by
  by_cases hxs : xs = []
  · rw [complete_eq_nil_iff.mpr hxs, eq_comm, complete_eq_nil_iff] at h
    rw [hxs, h]
  · have hys : ys ≠ [] := by
      intro hnil
      rw [complete_eq_nil_iff.mpr hnil, complete_eq_nil_iff] at h
      exact hxs h
    have hlen := congrArg List.length h
    rw [length_complete hxs, length_complete hys] at hlen
    exact Nat.pow_right_injective (le_refl 2) hlen

/-- What the trees over `xs` and `ys` hash. -/
def HashedIn (node : α × α → α) (xs ys : List α) (p : α × α) : Prop :=
  p ∈ hashedPairs node (depth xs) xs ∨ p ∈ hashedPairs node (depth ys) ys

/-- A deeper tree has nodes where a shallower one has leaves. -/
theorem climb_ne_of_depth_lt {xs ys : List α} (hxs : xs ≠ []) (hlt : depth xs < depth ys)
    (hinj : Set.InjOn node {p | HashedIn node xs ys p})
    (hsep : ∀ p, HashedIn node xs ys p → node p ∉ xs) :
    climb node (depth xs) xs ≠ climb node (depth ys) ys := by
  intro heq
  obtain ⟨j, hj⟩ := Nat.exists_eq_add_of_lt hlt
  have hdepth : depth ys = j + 1 + depth xs := by omega
  have hfill : fill (depth xs) xs = fill (depth xs) (climb node (j + 1) ys) := by
    rw [hdepth, climb_add] at heq
    refine (climb_eq_climb_iff (depth xs) (hinj.mono ?_)).mp heq
    intro p hp
    refine hp.imp id fun hup => ?_
    rw [hdepth, hashedPairs_add]
    exact List.mem_append_right _ hup
  -- so a leaf of `xs` is a node over `ys`
  have hleaf : xs.head hxs ∈ climb node (j + 1) ys := by
    refine fill_subset (depth xs) _ ?_
    rw [← hfill]
    exact (prefix_fill _ xs).subset (List.head_mem hxs)
  obtain ⟨p, hp, hnode⟩ := exists_pair_of_mem_climb j hleaf
  refine hsep p (.inr ?_) (hnode ▸ List.head_mem hxs)
  rw [hdepth, hashedPairs_add]
  exact List.mem_append_left _ hp

theorem hashedIn_comm {xs ys : List α} {p : α × α} :
    HashedIn node xs ys p ↔ HashedIn node ys xs p := Or.comm

/-- **Roots.** Two trees whose leaves are told from their nodes have the same root iff
their lists have the same completion. -/
theorem climb_depth_eq_iff {xs ys : List α} (hxs : xs ≠ []) (hys : ys ≠ [])
    (hinj : Set.InjOn node {p | HashedIn node xs ys p})
    (hsep : ∀ p, HashedIn node xs ys p → node p ∉ xs ∧ node p ∉ ys) :
    climb node (depth xs) xs = climb node (depth ys) ys ↔ complete xs = complete ys := by
  rcases lt_trichotomy (depth xs) (depth ys) with hlt | heq | hgt
  · have hroot := climb_ne_of_depth_lt hxs hlt hinj fun p hp => (hsep p hp).1
    exact iff_of_false hroot fun h => hlt.ne (depth_eq_of_complete_eq h)
  · unfold HashedIn at hinj
    unfold complete
    rw [heq] at hinj ⊢
    exact climb_eq_climb_iff (depth ys) hinj
  · have hroot := climb_ne_of_depth_lt hys hgt (hinj.mono fun p hp => hashedIn_comm.mp hp)
      fun p hp => (hsep p (hashedIn_comm.mp hp)).2
    exact iff_of_false hroot.symm fun h => hgt.ne' (depth_eq_of_complete_eq h)

/-- The levels above the leaves are those of the level above them. -/
theorem climb_depth_of_one_lt {l : List α} (h : 1 < l.length) :
    climb node (depth l) l = climb node (depth (up node l)) (up node l) := by
  have hdepth : depth l = depth (up node l) + 1 := by
    unfold depth
    rw [length_up]
    exact Nat.clog_of_one_lt (by omega) h
  rw [hdepth, climb]

theorem climb_depth_of_le_one {l : List α} (h : l.length ≤ 1) : climb node (depth l) l = l := by
  rw [depth, Nat.clog_of_right_le_one h, climb]

theorem length_climb_depth {l : List α} (h : l ≠ []) : (climb node (depth l) l).length = 1 :=
  length_climb (depth l) (List.length_pos_of_ne_nil h) (Nat.le_pow_clog (by omega) l.length)

theorem eq_of_complete_eq {xs ys : List α} (h : complete xs = complete ys)
    (hlen : xs.length = ys.length) : xs = ys := by
  unfold complete depth at h
  rw [hlen] at h
  exact eq_of_fill_eq h hlen

theorem eq_of_complete_eq_of_nodup {xs ys : List α} (h : complete xs = complete ys)
    (hxs : xs.Nodup) (hys : ys.Nodup) : xs = ys := by
  have hdepth := depth_eq_of_complete_eq h
  unfold complete at h
  rw [hdepth] at h
  exact eq_of_fill_eq_of_nodup h hxs hys

/-! ## Hash trees -/

section Hashed

variable {μ : Type} (hash : μ → β) (leaf : α → μ) (inner : β × β → μ)

/-- The messages hashed on the way to the root over `l`. -/
def messages (l : List α) : List μ :=
  l.map leaf ++
    (hashedPairs (fun p => hash (inner p)) (depth l) (l.map fun a => hash (leaf a))).map inner

/-- What stands above the leaves. -/
def rootLevel (l : List α) : List β :=
  climb (fun p => hash (inner p)) (depth l) (l.map fun a => hash (leaf a))

variable {hash leaf inner} {xs ys : List α}

theorem leaf_mem_messages {l : List α} {a : α} (h : a ∈ l) : leaf a ∈ messages hash leaf inner l :=
  List.mem_append_left _ (List.mem_map_of_mem h)

theorem inner_mem_messages {p : β × β}
    (h : HashedIn (fun p => hash (inner p)) (xs.map fun a => hash (leaf a))
      (ys.map fun a => hash (leaf a)) p) :
    inner p ∈ messages hash leaf inner xs ++ messages hash leaf inner ys := by
  unfold HashedIn at h
  rw [depth_map, depth_map] at h
  refine List.mem_append.mpr (h.imp ?_ ?_)
  · exact fun hmem => List.mem_append_right _ (List.mem_map_of_mem hmem)
  · exact fun hmem => List.mem_append_right _ (List.mem_map_of_mem hmem)

/-- **Roots of hash trees.** If leaves are written otherwise than nodes and no two messages
collide, two roots are the same iff the lists have the same completion. -/
theorem root_eq_iff (hxs : xs ≠ []) (hys : ys ≠ [])
    (hleaf : Set.InjOn leaf {a | a ∈ xs ∨ a ∈ ys}) (hinner : Function.Injective inner)
    (hsep : ∀ a, a ∈ xs ∨ a ∈ ys → ∀ p, leaf a ≠ inner p)
    (hhash : Set.InjOn hash {m | m ∈ messages hash leaf inner xs ++ messages hash leaf inner ys}) :
    rootLevel hash leaf inner xs = rootLevel hash leaf inner ys ↔ complete xs = complete ys := by
  have hmem : ∀ a, a ∈ xs ∨ a ∈ ys →
      leaf a ∈ messages hash leaf inner xs ++ messages hash leaf inner ys := by
    intro a ha
    exact List.mem_append.mpr (ha.imp leaf_mem_messages leaf_mem_messages)
  have hnodes : Set.InjOn (fun p => hash (inner p))
      {p | HashedIn (fun p => hash (inner p)) (xs.map fun a => hash (leaf a))
        (ys.map fun a => hash (leaf a)) p} := by
    intro p hp q hq heq
    exact hinner (hhash (inner_mem_messages hp) (inner_mem_messages hq) heq)
  have hleaves : Set.InjOn (fun a => hash (leaf a)) {a | a ∈ xs ∨ a ∈ ys} := by
    intro a ha b hb heq
    exact hleaf ha hb (hhash (hmem a ha) (hmem b hb) heq)
  have hapart : ∀ p, HashedIn (fun p => hash (inner p)) (xs.map fun a => hash (leaf a))
      (ys.map fun a => hash (leaf a)) p → ∀ a, a ∈ xs ∨ a ∈ ys → hash (leaf a) ≠ hash (inner p) := by
    intro p hp a ha heq
    exact hsep a ha p (hhash (hmem a ha) (inner_mem_messages hp) heq)
  have hfill : (complete xs).map (fun a => hash (leaf a)) =
      (complete ys).map (fun a => hash (leaf a)) ↔ complete xs = complete ys := by
    refine ⟨eq_of_map_eq hleaves ?_ ?_, congrArg _⟩
    · exact fun a ha => .inl (complete_subset xs ha)
    · exact fun a ha => .inr (complete_subset ys ha)
  have hroots := climb_depth_eq_iff (List.map_eq_nil_iff.not.mpr hxs)
    (List.map_eq_nil_iff.not.mpr hys) hnodes ?_
  · rwa [depth_map, depth_map, complete_map, complete_map, hfill] at hroots
  · intro p hp
    refine ⟨fun hmap => ?_, fun hmap => ?_⟩
    · obtain ⟨a, ha, heq⟩ := List.mem_map.mp hmap
      exact hapart p hp a (.inl ha) heq
    · obtain ⟨a, ha, heq⟩ := List.mem_map.mp hmap
      exact hapart p hp a (.inr ha) heq

end Hashed

end CipherOcto.PairTree
