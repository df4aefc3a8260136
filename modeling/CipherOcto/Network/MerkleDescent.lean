import CipherOcto.Network.Merkle

/-!
# Descending into what differs

`binary_merkle_descent` splits two lists of leaves at the middle of the longer one, compares
the roots of the halves and goes on where they differ. A root does not tell a list from its
completion, so halves of different lengths can be passed over that are not equal; but their
leaves are the same ones.

> `differing`: the leaves that are not those of the other list at the same place.
> `binaryMerkleDescent_complete`: of lists of one length it returns these, and of any lists
> every leaf that the other one lacks.
-/

namespace CipherOcto.Network

open Encoding PairTree

/-! ## The code -/

/-- One side split at `mid`. -/
def splitLeaves (mid : Nat) (leaves : List Bytes32) : List Bytes32 × List Bytes32 :=
  if mid ≥ leaves.length then (leaves, []) else leaves.splitAt mid

theorem splitLeaves_eq (mid : Nat) (leaves : List Bytes32) :
    splitLeaves mid leaves = (leaves.take mid, leaves.drop mid) := by
  unfold splitLeaves
  split
  next h => rw [List.take_of_length_le h, List.drop_eq_nil_of_le h]
  next => exact List.splitAt_eq

/-- Where both sides are split. -/
def midpoint (xs ys : List Bytes32) : Nat := max xs.length ys.length / 2

/-- The halves are shorter than the whole. -/
theorem length_halves_lt {xs ys : List Bytes32} (h : 1 < max xs.length ys.length) :
    max (xs.take (midpoint xs ys)).length (ys.take (midpoint xs ys)).length <
        max xs.length ys.length ∧
      max (xs.drop (midpoint xs ys)).length (ys.drop (midpoint xs ys)).length <
        max xs.length ys.length := by
  unfold midpoint
  simp only [List.length_take, List.length_drop]
  omega

theorem one_lt_of_split {xs ys : List Bytes32} (hne : ¬(xs = [] ∧ ys = []))
    (hone : max xs.length ys.length ≠ 1) : 1 < max xs.length ys.length := by
  by_contra hle
  exact hne ⟨List.eq_nil_of_length_eq_zero (by omega), List.eq_nil_of_length_eq_zero (by omega)⟩

section

variable (blake3 : List UInt8 → Bytes32)

/-- `binary_merkle_descent_inner`. -/
def binaryMerkleDescentInner (localLeaves remoteLeaves : List Bytes32) :
    List Bytes32 × List Bytes32 :=
  if localLeaves = [] ∧ remoteLeaves = [] then ([], [])
  else if max localLeaves.length remoteLeaves.length = 1 then
    let l := localLeaves.headD zeroRoot
    let r := remoteLeaves.headD zeroRoot
    if l ≠ r then
      (if localLeaves.length = 1 then [l] else [], if remoteLeaves.length = 1 then [r] else [])
    else ([], [])
  else
    let mid := midpoint localLeaves remoteLeaves
    let localHalves := splitLeaves mid localLeaves
    let remoteHalves := splitLeaves mid remoteLeaves
    let left :=
      if computeMerkleRoot blake3 localHalves.1 ≠ computeMerkleRoot blake3 remoteHalves.1 then
        binaryMerkleDescentInner localHalves.1 remoteHalves.1
      else ([], [])
    let right :=
      if computeMerkleRoot blake3 localHalves.2 ≠ computeMerkleRoot blake3 remoteHalves.2 then
        binaryMerkleDescentInner localHalves.2 remoteHalves.2
      else ([], [])
    (left.1 ++ right.1, left.2 ++ right.2)
termination_by max localLeaves.length remoteLeaves.length
decreasing_by
  all_goals
    rw [splitLeaves_eq, splitLeaves_eq]
    have hlt := length_halves_lt (one_lt_of_split (by assumption) (by assumption))
  · exact hlt.1
  · exact hlt.2

/-- `binary_merkle_descent`. -/
def binaryMerkleDescent (localLeaves remoteLeaves : List Bytes32) :
    List Bytes32 × List Bytes32 :=
  if computeMerkleRoot blake3 localLeaves = computeMerkleRoot blake3 remoteLeaves then ([], [])
  else binaryMerkleDescentInner blake3 localLeaves remoteLeaves

/-- The strings hashed for the roots that can come up. -/
def descentInputs (localLeaves remoteLeaves : List Bytes32) : List (List UInt8) :=
  merkleInputs blake3 localLeaves ++ merkleInputs blake3 remoteLeaves ++
    if localLeaves = [] ∧ remoteLeaves = [] then []
    else if max localLeaves.length remoteLeaves.length = 1 then []
    else
      let mid := midpoint localLeaves remoteLeaves
      let localHalves := splitLeaves mid localLeaves
      let remoteHalves := splitLeaves mid remoteLeaves
      descentInputs localHalves.1 remoteHalves.1 ++ descentInputs localHalves.2 remoteHalves.2
termination_by max localLeaves.length remoteLeaves.length
decreasing_by
  all_goals
    rw [splitLeaves_eq, splitLeaves_eq]
    have hlt := length_halves_lt (one_lt_of_split (by assumption) (by assumption))
  · exact hlt.1
  · exact hlt.2

end

/-! ## What differs -/

/-- The leaves of the first list that are not those of the second at the same place. -/
def differing (xs ys : List Bytes32) : List Bytes32 :=
  ((xs.zip ys).filter fun p => p.1 ≠ p.2).map Prod.fst

theorem differing_self : ∀ xs : List Bytes32, differing xs xs = []
  | [] => rfl
  | x :: xs => by
    have htail : differing xs xs = [] := differing_self xs
    unfold differing at htail ⊢
    rw [List.zip_cons_cons, List.filter_cons_of_neg (by simp), htail]

theorem differing_append {xs ys xs' ys' : List Bytes32} (h : xs.length = ys.length) :
    differing (xs ++ xs') (ys ++ ys') = differing xs ys ++ differing xs' ys' := by
  unfold differing
  rw [List.zip_append h, List.filter_append, List.map_append]

section

variable {blake3 : List UInt8 → Bytes32} {xs ys : List Bytes32}

theorem collisionFree_roots (h : CollisionFree blake3 (descentInputs blake3 xs ys)) :
    CollisionFree blake3 (merkleInputs blake3 xs ++ merkleInputs blake3 ys) := by
  rw [descentInputs] at h
  exact h.mono fun m hm => List.mem_append_left _ hm

/-- What is hashed for the halves is hashed for the whole. -/
theorem collisionFree_halves (h : CollisionFree blake3 (descentInputs blake3 xs ys))
    (hlong : 1 < max xs.length ys.length) :
    CollisionFree blake3
        (descentInputs blake3 (xs.take (midpoint xs ys)) (ys.take (midpoint xs ys))) ∧
      CollisionFree blake3
        (descentInputs blake3 (xs.drop (midpoint xs ys)) (ys.drop (midpoint xs ys))) := by
  have hne : ¬(xs = [] ∧ ys = []) := by
    rintro ⟨rfl, rfl⟩
    cases hlong
  rw [descentInputs, if_neg hne, if_neg hlong.ne'] at h
  dsimp only at h
  rw [splitLeaves_eq, splitLeaves_eq] at h
  exact ⟨h.mono fun m hm => List.mem_append_right _ (List.mem_append_left _ hm),
    h.mono fun m hm => List.mem_append_right _ (List.mem_append_right _ hm)⟩

/-- Past the root, a long list is the descents of its halves. -/
theorem descentInner_halves (hlong : 1 < max xs.length ys.length) :
    binaryMerkleDescentInner blake3 xs ys =
      (let left := binaryMerkleDescent blake3 (xs.take (midpoint xs ys)) (ys.take (midpoint xs ys))
       let right := binaryMerkleDescent blake3 (xs.drop (midpoint xs ys)) (ys.drop (midpoint xs ys))
       (left.1 ++ right.1, left.2 ++ right.2)) := by
  have hne : ¬(xs = [] ∧ ys = []) := by
    rintro ⟨rfl, rfl⟩
    cases hlong
  rw [binaryMerkleDescentInner, if_neg hne, if_neg hlong.ne']
  unfold binaryMerkleDescent
  dsimp only
  rw [splitLeaves_eq, splitLeaves_eq]
  simp only [ne_eq, ite_not]

/-- Past the root, all of a short list differs. -/
theorem descentInner_short : ∀ {xs ys : List Bytes32}, max xs.length ys.length ≤ 1 →
    zeroRoot ∉ xs → zeroRoot ∉ ys → computeMerkleRoot blake3 xs ≠ computeMerkleRoot blake3 ys →
    binaryMerkleDescentInner blake3 xs ys = (xs, ys)
  | [], [], _, _, _, hroot => absurd rfl hroot
  | [x], [], _, hx, _, _ => by
    have hzero : x ≠ zeroRoot := fun h => hx (h ▸ List.mem_singleton_self _)
    rw [binaryMerkleDescentInner, if_neg (by simp), if_pos (by rfl)]
    exact if_pos hzero
  | [], [y], _, _, hy, _ => by
    have hzero : zeroRoot ≠ y := fun h => hy (h ▸ List.mem_singleton_self _)
    rw [binaryMerkleDescentInner, if_neg (by simp), if_pos (by rfl)]
    exact if_pos hzero
  | [x], [y], _, _, _, hroot => by
    have hxy : x ≠ y := fun h => hroot (h ▸ rfl)
    rw [binaryMerkleDescentInner, if_neg (by simp), if_pos (by rfl)]
    exact if_pos hxy
  | _ :: _ :: _, _, hlong, _, _, _ => by
    simp only [List.length_cons] at hlong
    omega
  | _, _ :: _ :: _, hlong, _, _, _ => by
    simp only [List.length_cons] at hlong
    omega

/-- **What holds of a descent** holds where it stops, at one root or a short list, and of two
descents set side by side. -/
theorem descent_induct {motive : List Bytes32 → List Bytes32 → List Bytes32 × List Bytes32 → Prop}
    (same : ∀ xs ys, complete xs = complete ys → motive xs ys ([], []))
    (short : ∀ xs ys, max xs.length ys.length ≤ 1 → complete xs ≠ complete ys →
      motive xs ys (xs, ys))
    (split : ∀ xs ys m left right, motive (xs.take m) (ys.take m) left →
      motive (xs.drop m) (ys.drop m) right → motive xs ys (left.1 ++ right.1, left.2 ++ right.2))
    (xs ys : List Bytes32) (h : CollisionFree blake3 (descentInputs blake3 xs ys))
    (hxs : zeroRoot ∉ xs) (hys : zeroRoot ∉ ys) :
    motive xs ys (binaryMerkleDescent blake3 xs ys) := by
  have hiff := computeMerkleRoot_eq_iff (collisionFree_roots h)
  unfold binaryMerkleDescent
  split
  next hroot => exact same xs ys (hiff.mp hroot)
  next hroot =>
    by_cases hlong : 1 < max xs.length ys.length
    · have hlt := length_halves_lt hlong
      obtain ⟨hleft, hright⟩ := collisionFree_halves h hlong
      rw [descentInner_halves hlong]
      refine split xs ys (midpoint xs ys) _ _ ?_ ?_
      · exact descent_induct same short split _ _ hleft (fun hx => hxs (List.mem_of_mem_take hx))
          fun hy => hys (List.mem_of_mem_take hy)
      · exact descent_induct same short split _ _ hright (fun hx => hxs (List.mem_of_mem_drop hx))
          fun hy => hys (List.mem_of_mem_drop hy)
    · rw [descentInner_short (not_lt.mp hlong) hxs hys hroot]
      exact short xs ys (not_lt.mp hlong) fun hcomplete => hroot (hiff.mpr hcomplete)
termination_by max xs.length ys.length
decreasing_by
  · exact hlt.1
  · exact hlt.2

end

/-- The lists of one length that differ and cannot be split are two leaves. -/
theorem differing_short : ∀ {xs ys : List Bytes32}, max xs.length ys.length ≤ 1 →
    complete xs ≠ complete ys → xs.length = ys.length → differing xs ys = xs
  | [], [], _, hne, _ => absurd rfl hne
  | [x], [y], _, hne, _ => by
    have hxy : x ≠ y := fun h => hne (h ▸ rfl)
    simp [differing, hxy]
  | _ :: _ :: _, _, hlong, _, _ => by
    simp only [List.length_cons] at hlong
    omega
  | _, _ :: _ :: _, hlong, _, _ => by
    simp only [List.length_cons] at hlong
    omega

/-- What a list lacks, the half that would have it lacks. -/
theorem found_of_halves {m : Nat} {us vs found found' : List Bytes32}
    (htake : ∀ x ∈ us.take m, x ∉ vs.take m → x ∈ found)
    (hdrop : ∀ x ∈ us.drop m, x ∉ vs.drop m → x ∈ found') :
    ∀ x ∈ us, x ∉ vs → x ∈ found ++ found' := by
  intro x hx hnot
  rw [← List.take_append_drop m us] at hx
  rcases List.mem_append.mp hx with hfront | hback
  · exact List.mem_append_left _ (htake x hfront fun hmem => hnot (List.mem_of_mem_take hmem))
  · exact List.mem_append_right _ (hdrop x hback fun hmem => hnot (List.mem_of_mem_drop hmem))

/-- **The descent finds every divergence.** It returns, and gives for lists of one length what
differs at each place, and for any lists what either of them lacks. -/
theorem binaryMerkleDescent_complete (blake3 : List UInt8 → Bytes32) (xs ys : List Bytes32)
    (h : CollisionFree blake3 (descentInputs blake3 xs ys)) (hxs : zeroRoot ∉ xs)
    (hys : zeroRoot ∉ ys) :
    (xs.length = ys.length →
      binaryMerkleDescent blake3 xs ys = (differing xs ys, differing ys xs)) ∧
    (∀ x ∈ xs, x ∉ ys → x ∈ (binaryMerkleDescent blake3 xs ys).1) ∧
      ∀ y ∈ ys, y ∉ xs → y ∈ (binaryMerkleDescent blake3 xs ys).2 := by
  constructor
  · refine descent_induct (motive := fun xs ys out => xs.length = ys.length →
      out = (differing xs ys, differing ys xs)) ?_ ?_ ?_ xs ys h hxs hys
    · intro xs ys hcomplete hlen
      obtain rfl := eq_of_complete_eq hcomplete hlen
      rw [differing_self]
    · intro xs ys hshort hne hlen
      rw [differing_short hshort hne hlen,
        differing_short (max_comm xs.length ys.length ▸ hshort) hne.symm hlen.symm]
    · intro xs ys m left right hleft hright hlen
      have htake : (xs.take m).length = (ys.take m).length := by
        rw [List.length_take, List.length_take, hlen]
      have hdrop : (xs.drop m).length = (ys.drop m).length := by
        rw [List.length_drop, List.length_drop, hlen]
      rw [hleft htake, hright hdrop, ← differing_append htake, ← differing_append htake.symm,
        List.take_append_drop, List.take_append_drop]
  · refine descent_induct (motive := fun xs ys out => (∀ x ∈ xs, x ∉ ys → x ∈ out.1) ∧
      ∀ y ∈ ys, y ∉ xs → y ∈ out.2) ?_ ?_ ?_ xs ys h hxs hys
    · intro xs ys hcomplete
      -- what completes a list is in it already
      have hxy : xs ⊆ ys := fun x hx =>
        complete_subset ys (hcomplete ▸ (prefix_complete xs).subset hx)
      have hyx : ys ⊆ xs := fun y hy =>
        complete_subset xs (hcomplete ▸ (prefix_complete ys).subset hy)
      exact ⟨fun x hx hnot => absurd (hxy hx) hnot, fun y hy hnot => absurd (hyx hy) hnot⟩
    · intro xs ys _ _
      exact ⟨fun x hx _ => hx, fun y hy _ => hy⟩
    · intro xs ys m left right hleft hright
      exact ⟨found_of_halves hleft.1 hright.1, found_of_halves hleft.2 hright.2⟩

/-- One leaf against two: the second half is found. -/
theorem binaryMerkleDescent_complete_one_two :
    CollisionFree sampleBlake3 (descentInputs sampleBlake3 [leafAA] [leafAA, leafBB]) ∧
      leafBB ∈ (binaryMerkleDescent sampleBlake3 [leafAA] [leafAA, leafBB]).2 := by
  have hinputs : descentInputs sampleBlake3 [leafAA] [leafAA, leafBB] =
      merkleInputs sampleBlake3 [leafAA] ++ merkleInputs sampleBlake3 [leafAA, leafBB] ++
        (merkleInputs sampleBlake3 [leafAA] ++ merkleInputs sampleBlake3 [leafAA] ++ [] ++
          (merkleInputs sampleBlake3 [] ++ merkleInputs sampleBlake3 [leafBB] ++ [])) := by
    rw [descentInputs, if_neg (by decide), if_neg (by decide)]
    show _ ++ (descentInputs sampleBlake3 [leafAA] [leafAA] ++
      descentInputs sampleBlake3 [] [leafBB]) = _
    rw [descentInputs, if_neg (by decide), if_pos (by decide), descentInputs, if_neg (by decide),
      if_pos (by decide)]
  have hfree :
      CollisionFree sampleBlake3 (descentInputs sampleBlake3 [leafAA] [leafAA, leafBB]) := by
    rw [hinputs]
    decide +kernel
  obtain ⟨-, -, hremote⟩ := binaryMerkleDescent_complete sampleBlake3 [leafAA] [leafAA, leafBB]
    hfree (by decide) (by decide)
  exact ⟨hfree, hremote leafBB (by decide) (by decide)⟩

end CipherOcto.Network
