import Mathlib.Data.List.GetD
import Mathlib.Data.Nat.Log
import Mathlib.Tactic.Ring

/-!
# Padded trees

A tree of branching factor `k` over a list of leaves, read as a tree over
infinitely many: the ones past the end are the padding `z`. `node f ℓ i` is the
node `i` of level `ℓ` over the leaves `f`, and a list of nodes holds the prefix
of a level that is not all padding.

> `getD_nextLevel`: hashing a padded level block by block gives the level above.
> `node_eq_node_iff`: two trees with the same root have the same leaves, if the
> blocks they hash do not collide.
-/

namespace CipherOcto.PaddedTree

variable {α : Type} (combine : List α → α) (k : Nat)

/-- The node over padding only. -/
def zero (z : α) : Nat → α
  | 0 => z
  | ℓ + 1 => combine (List.replicate k (zero z ℓ))

/-- Node `i` of level `ℓ` over the leaves `f`. -/
def node (f : Nat → α) : Nat → Nat → α
  | 0, i => f i
  | ℓ + 1, i => combine ((List.range k).map fun j => node f ℓ (k * i + j))

/-- What is hashed for node `i` of level `ℓ + 1`. -/
def block (f : Nat → α) (ℓ i : Nat) : List α :=
  (List.range k).map fun j => node combine k f ℓ (k * i + j)

/-- `l` cut into blocks of `k`, the last of which may be shorter. -/
def chunks (l : List α) : List (List α) :=
  (List.range ((l.length + k - 1) / k)).map fun i => (l.drop (k * i)).take k

/-- `l` filled up with `x` to a multiple of `k`. -/
def pad (l : List α) (x : α) : List α :=
  l ++ List.replicate ((l.length + k - 1) / k * k - l.length) x

variable {combine k}

theorem node_succ (f : Nat → α) (ℓ i : Nat) :
    node combine k f (ℓ + 1) i = combine (block combine k f ℓ i) := rfl

theorem length_block (f : Nat → α) (ℓ i : Nat) : (block combine k f ℓ i).length = k := by
  rw [block, List.length_map, List.length_range]

theorem block_eq_block_iff {f g : Nat → α} {ℓ m i : Nat} :
    block combine k f ℓ i = block combine k g m i ↔
      ∀ j < k, node combine k f ℓ (k * i + j) = node combine k g m (k * i + j) := by
  unfold block
  rw [List.map_inj_left]
  exact forall_congr' fun j => by rw [List.mem_range]

/-! ## One level up -/

theorem length_le_ceil (hk : 0 < k) (n : Nat) : n ≤ (n + k - 1) / k * k := by
  have hdiv := Nat.div_add_mod (n + k - 1) k
  have hmod := Nat.mod_lt (n + k - 1) hk
  rw [Nat.mul_comm] at hdiv
  omega

theorem length_pad (hk : 0 < k) (l : List α) (x : α) :
    (pad k l x).length = (l.length + k - 1) / k * k := by
  have hle := length_le_ceil hk l.length
  rw [pad, List.length_append, List.length_replicate]
  omega

@[simp] theorem getD_pad (l : List α) (x : α) (i : Nat) : (pad k l x).getD i x = l.getD i x := by
  unfold pad
  by_cases h : i < l.length
  · exact List.getD_append _ _ _ _ h
  · rw [List.getD_append_right _ _ _ _ (not_lt.mp h), List.getD_eq_getElem?_getD,
      List.getElem?_getD_replicate_default_eq,
      List.getD_eq_default _ _ (not_lt.mp h)]

theorem length_chunks_pad (hk : 0 < k) (l : List α) (x : α) :
    (chunks k (pad k l x)).length = (l.length + k - 1) / k := by
  rw [chunks, List.length_map, List.length_range, length_pad hk, Nat.add_sub_assoc hk,
    Nat.add_comm, Nat.add_mul_div_right _ _ hk, Nat.div_eq_of_lt (Nat.sub_lt hk Nat.one_pos),
    Nat.zero_add]

theorem length_le_of_mem_chunks {l c : List α} (h : c ∈ chunks k l) : c.length ≤ k := by
  obtain ⟨i, -, rfl⟩ := List.mem_map.mp h
  exact List.length_take_le k _

theorem flatten_blocks (l : List α) (n : Nat) :
    ((List.range n).map fun i => (l.drop (k * i)).take k).flatten = l.take (k * n) := by
  induction n with
  | zero => rfl
  | succ n ih =>
    rw [List.range_succ, List.map_append, List.flatten_append, ih, Nat.mul_succ, List.take_add]
    exact congrArg (_ ++ ·) (List.append_nil _)

/-- The blocks of a list make it up. -/
theorem flatten_chunks (hk : 0 < k) (l : List α) : (chunks k l).flatten = l := by
  have hcover : l.length ≤ k * ((l.length + k - 1) / k) := by
    have hmod := Nat.div_add_mod (l.length + k - 1) k
    have hlt := Nat.mod_lt (l.length + k - 1) hk
    omega
  rw [chunks, flatten_blocks, List.take_of_length_le hcover]

theorem getElem?_chunks {l : List α} {i : Nat} (hi : i < (l.length + k - 1) / k) :
    (chunks k l)[i]? = some ((l.drop (k * i)).take k) := by
  rw [chunks, List.getElem?_map, List.getElem?_range hi, Option.map_some]

theorem take_drop_eq_map_getD {l : List α} {m n : Nat} (h : m + n ≤ l.length) (x : α) :
    (l.drop m).take n = (List.range n).map fun j => l.getD (m + j) x := by
  refine List.ext_getElem ?_ ?_
  · rw [List.length_take, List.length_drop, List.length_map, List.length_range]
    omega
  · intro j hj _
    rw [List.getElem_take, List.getElem_drop, List.getElem_map, List.getElem_range,
      List.getD_eq_getElem]

/-- A block of a padded level is full. -/
theorem getElem?_chunks_pad (hk : 0 < k) {l : List α} {x : α} {i : Nat}
    (hi : i < (l.length + k - 1) / k) :
    (chunks k (pad k l x))[i]? = some ((List.range k).map fun j => l.getD (k * i + j) x) := by
  have hlt : i < ((pad k l x).length + k - 1) / k := by
    have hlen := length_chunks_pad hk l x
    rw [chunks, List.length_map, List.length_range] at hlen
    exact hlen.symm ▸ hi
  have hfull : k * i + k ≤ (pad k l x).length := by
    rw [length_pad hk, ← Nat.mul_succ, Nat.mul_comm]
    exact Nat.mul_le_mul_right k hi
  rw [getElem?_chunks hlt, take_drop_eq_map_getD hfull x]
  exact congrArg some (List.map_congr_left fun j _ => getD_pad l x _)

/-- **One level up.** If `l` holds the level `g`, its blocks hash to the level above. -/
theorem getD_nextLevel (hk : 0 < k) {l : List α} {x : α} {g : Nat → α}
    (h : ∀ i, l.getD i x = g i) (i : Nat) :
    ((chunks k (pad k l x)).map combine).getD i (combine (List.replicate k x)) =
      combine ((List.range k).map fun j => g (k * i + j)) := by
  by_cases hi : i < (l.length + k - 1) / k
  · rw [List.getD_eq_getElem?_getD, List.getElem?_map, getElem?_chunks_pad hk hi]
    exact congrArg combine (List.map_congr_left fun j _ => h _)
  · -- past the last block everything is padding
    have hlen : ((chunks k (pad k l x)).map combine).length ≤ i := by
      rw [List.length_map, length_chunks_pad hk]
      exact not_lt.mp hi
    rw [List.getD_eq_default _ _ hlen]
    refine congrArg combine (List.eq_replicate_iff.mpr ⟨?_, ?_⟩).symm
    · rw [List.length_map, List.length_range]
    · intro b hb
      obtain ⟨j, -, rfl⟩ := List.mem_map.mp hb
      rw [← h]
      refine List.getD_eq_default _ _ ?_
      have hceil := length_le_ceil hk l.length
      have hmul := Nat.mul_le_mul_right k (not_lt.mp hi)
      rw [Nat.mul_comm i k] at hmul
      omega

theorem getD_nextLevel_node (hk : 0 < k) {z : α} {l : List α} {f : Nat → α} {ℓ : Nat}
    (h : ∀ i, l.getD i (zero combine k z ℓ) = node combine k f ℓ i) (i : Nat) :
    ((chunks k (pad k l (zero combine k z ℓ))).map combine).getD i (zero combine k z (ℓ + 1)) =
      node combine k f (ℓ + 1) i :=
  getD_nextLevel hk h i

/-! ## Equal roots, equal leaves -/

/-- A range of `k ^ (d + 1)` positions is `k` ranges of `k ^ d`. -/
theorem forall_lt_pow_succ (hk : 0 < k) {P : Nat → Prop} {d i : Nat} :
    (∀ j < k, ∀ j' < k ^ d, P (k ^ d * (k * i + j) + j')) ↔
      ∀ j < k ^ (d + 1), P (k ^ (d + 1) * i + j) := by
  have hpos : 0 < k ^ d := Nat.pow_pos hk
  constructor
  · intro h j hj
    have hq : j / k ^ d < k := by
      rw [Nat.div_lt_iff_lt_mul hpos, Nat.mul_comm, ← Nat.pow_succ]
      exact hj
    have hP := h _ hq _ (Nat.mod_lt j hpos)
    have heq : k ^ d * (k * i + j / k ^ d) + j % k ^ d = k ^ (d + 1) * i + j := by
      calc k ^ d * (k * i + j / k ^ d) + j % k ^ d
          = k ^ (d + 1) * i + (k ^ d * (j / k ^ d) + j % k ^ d) := by ring
        _ = k ^ (d + 1) * i + j := by rw [Nat.div_add_mod]
    rwa [heq] at hP
  · intro h j hj j' hj'
    have hlt : k ^ d * j + j' < k ^ (d + 1) := by
      calc k ^ d * j + j' < k ^ d * j + k ^ d := Nat.add_lt_add_left hj' _
        _ = k ^ d * (j + 1) := (Nat.mul_succ _ _).symm
        _ ≤ k ^ d * k := Nat.mul_le_mul_left _ hj
    have heq : k ^ d * (k * i + j) + j' = k ^ (d + 1) * i + (k ^ d * j + j') := by ring
    rw [heq]
    exact h _ hlt

/-- **Binding.** Node `i` of level `d` over `g` is node `i` of level `e + d` over `f` iff
the leaves under the one are the level-`e` nodes under the other, where no two blocks
hashed on the way, of a tree whose root is at level `D`, collide. -/
theorem node_eq_node_iff (hk : 0 < k) {f g : Nat → α} {e D : Nat}
    (hinj : ∀ ℓ < D, ∀ i < k ^ (D - (ℓ + 1)),
      combine (block combine k f (e + ℓ) i) = combine (block combine k g ℓ i) →
        block combine k f (e + ℓ) i = block combine k g ℓ i)
    {d : Nat} (hd : d ≤ D) {i : Nat} (hi : i < k ^ (D - d)) :
    node combine k f (e + d) i = node combine k g d i ↔
      ∀ j < k ^ d, node combine k f e (k ^ d * i + j) = g (k ^ d * i + j) := by
  induction d generalizing i with
  | zero => simp [node]
  | succ d ih =>
    have hchild : ∀ j < k, k * i + j < k ^ (D - d) := by
      intro j hj
      have hsucc : D - d = D - (d + 1) + 1 := by omega
      calc k * i + j < k * i + k := Nat.add_lt_add_left hj _
        _ = k * (i + 1) := (Nat.mul_succ _ _).symm
        _ ≤ k * k ^ (D - (d + 1)) := Nat.mul_le_mul_left k hi
        _ = k ^ (D - d) := by rw [hsucc, Nat.pow_succ, Nat.mul_comm]
    have hblocks : node combine k f (e + (d + 1)) i = node combine k g (d + 1) i ↔
        block combine k f (e + d) i = block combine k g d i :=
      ⟨hinj d hd i hi, fun h => congrArg combine h⟩
    rw [hblocks, block_eq_block_iff,
      ← forall_lt_pow_succ (P := fun p => node combine k f e p = g p) hk]
    exact forall_congr' fun j => forall_congr' fun hj => ih (Nat.le_of_succ_le hd) (hchild j hj)

end CipherOcto.PaddedTree
