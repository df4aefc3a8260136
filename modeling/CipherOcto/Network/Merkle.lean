import CipherOcto.Encoding.Constraint
import CipherOcto.Lib.PairTree

/-!
# The shared Merkle root

Leaves are hashed under the byte 0 and pairs of nodes under the byte 1; a level of
odd length repeats its last node. So a list and its completion, in which every last
subtree without a neighbour stands twice, have one root, and a root tells apart no
more than the completions.

> `computeMerkleRoot_eq_iff`: equal roots, equal completions.
> `eq_of_computeMerkleRoot_eq`: lists of one length, or without a repeated leaf, are
> told apart.

BLAKE3 is a parameter, `CollisionFree` on the strings that are hashed.
-/

namespace CipherOcto.Network

open Encoding PairTree

/-- The root of no leaves. -/
def zeroRoot : Bytes32 := Vector.replicate 32 0

/-- What `hash_leaf` feeds the hasher. -/
def leafInput (data : Bytes32) : List UInt8 := 0 :: data.toList

/-- What `hash_internal` feeds the hasher. -/
def internalInput (left right : Bytes32) : List UInt8 := 1 :: (left.toList ++ right.toList)

section

variable (blake3 : List UInt8 → Bytes32)

/-- `hash_leaf`. -/
def hashLeaf (data : Bytes32) : Bytes32 := blake3 (leafInput data)

/-- `hash_internal`. -/
def hashInternal (left right : Bytes32) : Bytes32 := blake3 (internalInput left right)

def hashPair (p : Bytes32 × Bytes32) : Bytes32 := hashInternal blake3 p.1 p.2

/-- The inner loop of `compute_merkle_root`. -/
def nextMerkleLevel : List Bytes32 → List Bytes32
  | [] => []
  -- the last entry of an odd level
  | [left] => [hashInternal blake3 left left]
  | left :: right :: level => hashInternal blake3 left right :: nextMerkleLevel level

theorem nextMerkleLevel_eq_up : ∀ level : List Bytes32,
    nextMerkleLevel blake3 level = up (hashPair blake3) level
  | [] => rfl
  | [_] => rfl
  | _ :: _ :: level => by
    rw [nextMerkleLevel, nextMerkleLevel_eq_up level]
    rfl

/-- The outer loop of `compute_merkle_root`. -/
def merkleLevelsFrom (level : List Bytes32) : List Bytes32 :=
  if 1 < level.length then merkleLevelsFrom (nextMerkleLevel blake3 level) else level
termination_by level.length
decreasing_by
  rw [nextMerkleLevel_eq_up, length_up]
  omega

/-- `compute_merkle_root`. The loop ends in a level of one entry. -/
def computeMerkleRoot (leaves : List Bytes32) : Bytes32 :=
  if leaves = [] then zeroRoot
  else (merkleLevelsFrom blake3 (leaves.map (hashLeaf blake3))).headD zeroRoot

/-- The strings hashed on the way to the root. -/
def merkleInputs (leaves : List Bytes32) : List (List UInt8) :=
  leaves.map leafInput ++
    (hashedPairs (hashPair blake3) (depth leaves)
      (leaves.map (hashLeaf blake3))).map fun p => internalInput p.1 p.2

/-- BLAKE3 as the tree relies on it, on the strings it hashes. -/
structure CollisionFree (inputs : List (List UInt8)) : Prop where
  injOn : Set.InjOn blake3 {m | m ∈ inputs}
  ne_zero : ∀ m ∈ inputs, blake3 m ≠ zeroRoot

instance (inputs : List (List UInt8)) : Decidable (CollisionFree blake3 inputs) :=
  decidable_of_iff ((∀ a ∈ inputs, ∀ b ∈ inputs, blake3 a = blake3 b → a = b) ∧
    ∀ m ∈ inputs, blake3 m ≠ zeroRoot)
    ⟨fun h => ⟨fun a ha b hb => h.1 a ha b hb, h.2⟩,
      fun h => ⟨fun _ ha _ hb => h.injOn ha hb, h.ne_zero⟩⟩

end

variable {blake3 : List UInt8 → Bytes32}

theorem CollisionFree.mono {inputs fewer : List (List UInt8)} (h : CollisionFree blake3 inputs)
    (hsub : fewer ⊆ inputs) : CollisionFree blake3 fewer :=
  ⟨h.injOn.mono fun _ hm => hsub hm, fun m hm => h.ne_zero m (hsub hm)⟩

theorem leafInput_injective {a b : Bytes32} (h : leafInput a = leafInput b) : a = b :=
  Vector.toList_inj.mp (List.cons.inj h).2

theorem internalInput_injective {p q : Bytes32 × Bytes32}
    (h : internalInput p.1 p.2 = internalInput q.1 q.2) : p = q := by
  obtain ⟨hleft, hright⟩ := Bytes.toList_append_inj (List.cons.inj h).2
  exact Prod.ext hleft (Vector.toList_inj.mp hright)

theorem leafInput_ne_internalInput (a left right : Bytes32) :
    leafInput a ≠ internalInput left right := by
  intro h
  exact absurd (List.cons.inj h).1 (by decide)

/-! ## The root as a level of the tree -/

/-- The loop climbs the whole tree. -/
theorem merkleLevelsFrom_eq_climb (level : List Bytes32) :
    merkleLevelsFrom blake3 level =
      climb (hashPair blake3) (depth level) level := by
  unfold merkleLevelsFrom
  split
  next hlong =>
    rw [merkleLevelsFrom_eq_climb (nextMerkleLevel blake3 level), nextMerkleLevel_eq_up,
      climb_depth_of_one_lt hlong]
  next hshort => rw [climb_depth_of_le_one (not_lt.mp hshort)]
termination_by level.length
decreasing_by
  rw [nextMerkleLevel_eq_up, length_up]
  omega

/-- The root stands alone in the last level. -/
theorem climb_eq_singleton {leaves : List Bytes32} (h : leaves ≠ []) :
    climb (hashPair blake3) (depth leaves) (leaves.map (hashLeaf blake3)) =
      [computeMerkleRoot blake3 leaves] := by
  have hmap : leaves.map (hashLeaf blake3) ≠ [] := fun hnil => h (List.map_eq_nil_iff.mp hnil)
  have hlen : (climb (hashPair blake3) (depth (leaves.map (hashLeaf blake3)))
      (leaves.map (hashLeaf blake3))).length = 1 := length_climb_depth hmap
  obtain ⟨root, hroot⟩ := List.length_eq_one_iff.mp hlen
  rw [computeMerkleRoot, if_neg h, merkleLevelsFrom_eq_climb, hroot, ← depth_map (hashLeaf blake3),
    hroot]
  rfl

/-- The root of a list with leaves is a hash. -/
theorem exists_input_of_root (blake3 : List UInt8 → Bytes32) {leaves : List Bytes32}
    (h : leaves ≠ []) :
    ∃ m ∈ merkleInputs blake3 leaves, blake3 m = computeMerkleRoot blake3 leaves := by
  have hmem : computeMerkleRoot blake3 leaves ∈
      climb (hashPair blake3) (depth leaves)
        (leaves.map (hashLeaf blake3)) := by
    rw [climb_eq_singleton h]
    exact List.mem_singleton_self _
  unfold merkleInputs
  cases hdepth : depth leaves with
  | zero =>
    rw [hdepth, climb] at hmem
    obtain ⟨x, hx, hleaf⟩ := List.mem_map.mp hmem
    exact ⟨leafInput x, List.mem_append_left _ (List.mem_map_of_mem hx), hleaf⟩
  | succ k =>
    rw [hdepth] at hmem
    obtain ⟨p, hp, hnode⟩ := exists_pair_of_mem_climb k hmem
    exact ⟨_, List.mem_append_right _ (List.mem_map_of_mem hp), hnode⟩

/-! ## Binding -/

section Binding

variable {xs ys : List Bytes32}

theorem computeMerkleRoot_eq_iff_of_ne_nil
    (hinj : Set.InjOn blake3 {m | m ∈ merkleInputs blake3 xs ++ merkleInputs blake3 ys})
    (hxs : xs ≠ []) (hys : ys ≠ []) :
    computeMerkleRoot blake3 xs = computeMerkleRoot blake3 ys ↔ complete xs = complete ys := by
  have hsingle : computeMerkleRoot blake3 xs = computeMerkleRoot blake3 ys ↔
      rootLevel blake3 leafInput (fun p => internalInput p.1 p.2) xs =
        rootLevel blake3 leafInput (fun p => internalInput p.1 p.2) ys := by
    rw [← List.singleton_inj, ← climb_eq_singleton hxs, ← climb_eq_singleton hys]
    rfl
  rw [hsingle]
  refine root_eq_iff hxs hys ?_ ?_ ?_ hinj
  · exact fun _ _ _ _ heq => leafInput_injective heq
  · exact fun _ _ heq => internalInput_injective heq
  · exact fun x _ p => leafInput_ne_internalInput x p.1 p.2

variable (h : CollisionFree blake3 (merkleInputs blake3 xs ++ merkleInputs blake3 ys))

include h

theorem computeMerkleRoot_ne_zero {leaves : List Bytes32} (hne : leaves ≠ [])
    (hmem : leaves = xs ∨ leaves = ys) : computeMerkleRoot blake3 leaves ≠ zeroRoot := by
  obtain ⟨m, hm, hroot⟩ := exists_input_of_root blake3 hne
  rw [← hroot]
  refine h.ne_zero m (List.mem_append.mpr ?_)
  rcases hmem with rfl | rfl
  · exact .inl hm
  · exact .inr hm

/-- **Equal roots, equal completions.** -/
theorem computeMerkleRoot_eq_iff :
    computeMerkleRoot blake3 xs = computeMerkleRoot blake3 ys ↔ complete xs = complete ys := by
  have hempty : ∀ leaves : List Bytes32, leaves = [] → computeMerkleRoot blake3 leaves = zeroRoot :=
    fun leaves hnil => if_pos hnil
  by_cases hxs : xs = []
  · by_cases hys : ys = []
    · rw [hxs, hys]
      exact iff_of_true rfl rfl
    · rw [hempty xs hxs, complete_eq_nil_iff.mpr hxs]
      refine iff_of_false (computeMerkleRoot_ne_zero h hys (.inr rfl)).symm fun hnil => ?_
      exact hys (complete_eq_nil_iff.mp hnil.symm)
  · by_cases hys : ys = []
    · rw [hempty ys hys, complete_eq_nil_iff.mpr hys]
      refine iff_of_false (computeMerkleRoot_ne_zero h hxs (.inl rfl)) fun hnil => ?_
      exact hxs (complete_eq_nil_iff.mp hnil)
    · exact computeMerkleRoot_eq_iff_of_ne_nil h.injOn hxs hys

/-- Lists without a repeated leaf are told apart. -/
theorem eq_of_computeMerkleRoot_eq (hxs : xs.Nodup) (hys : ys.Nodup)
    (hroot : computeMerkleRoot blake3 xs = computeMerkleRoot blake3 ys) : xs = ys :=
  eq_of_complete_eq_of_nodup ((computeMerkleRoot_eq_iff h).mp hroot) hxs hys

end Binding

/-- **What a root says of its leaves.** Two roots are equal iff the lists are completed to
the same one. Then one list is the front of the other, and they are equal if they have one
length or if neither repeats a leaf. -/
theorem merkle_root_binds_completion (blake3 : List UInt8 → Bytes32) (xs ys : List Bytes32)
    (h : CollisionFree blake3 (merkleInputs blake3 xs ++ merkleInputs blake3 ys)) :
    (computeMerkleRoot blake3 xs = computeMerkleRoot blake3 ys ↔ complete xs = complete ys) ∧
    (computeMerkleRoot blake3 xs = computeMerkleRoot blake3 ys →
      (xs <+: ys ∨ ys <+: xs) ∧ (xs.length = ys.length → xs = ys) ∧
        (xs.Nodup → ys.Nodup → xs = ys)) := by
  refine ⟨computeMerkleRoot_eq_iff h, fun hroot => ?_⟩
  have hcomplete := (computeMerkleRoot_eq_iff h).mp hroot
  have hfront : xs <+: complete ys := hcomplete ▸ prefix_complete xs
  refine ⟨List.prefix_or_prefix_of_prefix hfront (prefix_complete ys), ?_, ?_⟩
  · exact fun hlen => eq_of_complete_eq hcomplete hlen
  · exact fun hxs hys => eq_of_computeMerkleRoot_eq h hxs hys hroot

/-- BLAKE3 of the leaf of bytes `0xAA`. -/
def digestAA : Bytes32 :=
  #v[214, 165, 242, 192, 250, 91, 128, 57, 105, 205, 167, 151, 140, 49, 93, 9,
    98, 177, 204, 123, 175, 150, 255, 101, 247, 1, 184, 242, 209, 178, 90, 251]

/-- BLAKE3 of the leaf of bytes `0xBB`. -/
def digestBB : Bytes32 :=
  #v[146, 91, 207, 252, 119, 104, 4, 106, 69, 193, 202, 194, 152, 88, 184, 195,
    120, 125, 237, 27, 200, 169, 224, 122, 253, 177, 190, 6, 155, 112, 131, 121]

/-- BLAKE3 of the node over the two. -/
def digestNode : Bytes32 :=
  #v[116, 58, 73, 83, 213, 84, 239, 24, 220, 114, 148, 227, 141, 5, 103, 56,
    221, 85, 221, 240, 204, 153, 122, 45, 147, 109, 40, 11, 69, 0, 92, 111]

def leafAA : Bytes32 := Vector.replicate 32 0xAA

def leafBB : Bytes32 := Vector.replicate 32 0xBB

def leafCC : Bytes32 := Vector.replicate 32 0xCC

/-- BLAKE3 on what the trees over the first leaf and over both hash. -/
def sampleBlake3 (m : List UInt8) : Bytes32 :=
  (List.lookup m [(leafInput leafAA, digestAA), (leafInput leafBB, digestBB),
    (internalInput digestAA digestBB, digestNode)]).getD zeroRoot

theorem merkle_root_binds_completion_one_two :
    CollisionFree sampleBlake3
      (merkleInputs sampleBlake3 [leafAA] ++ merkleInputs sampleBlake3 [leafAA, leafBB]) ∧
    computeMerkleRoot sampleBlake3 [leafAA] ≠ computeMerkleRoot sampleBlake3 [leafAA, leafBB] := by
  have hfree : CollisionFree sampleBlake3
      (merkleInputs sampleBlake3 [leafAA] ++ merkleInputs sampleBlake3 [leafAA, leafBB]) := by
    decide +kernel
  refine ⟨hfree, fun hroot => ?_⟩
  have hcomplete := (merkle_root_binds_completion sampleBlake3 [leafAA] [leafAA, leafBB]
    hfree).1.mp hroot
  exact absurd hcomplete (by decide +kernel)

/-- The third leaf of three stands twice in the tree: four leaves have the same root. -/
theorem three_leaves_root_eq_four :
    [leafAA, leafBB, leafCC] ≠ [leafAA, leafBB, leafCC, leafCC] ∧
    ∀ blake3 : List UInt8 → Bytes32,
      computeMerkleRoot blake3 [leafAA, leafBB, leafCC] =
        computeMerkleRoot blake3 [leafAA, leafBB, leafCC, leafCC] := by
  refine ⟨by decide +kernel, fun blake3 => ?_⟩
  simp [computeMerkleRoot, merkleLevelsFrom, nextMerkleLevel]

end CipherOcto.Network
