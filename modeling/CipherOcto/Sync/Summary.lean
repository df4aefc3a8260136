import CipherOcto.Encoding.Constraint
import CipherOcto.Lib.PaddedTree
import Mathlib.Data.List.Sort

/-!
# The Merkle segment summary

A table's segments are the leaves, by segment index, of a 16-way tree. `diff`
compares two trees leaf by leaf and `segments_at` looks up what it found, so one
round of anti-entropy sends the writer's segments at the positions that differ.
A position is not an index: a segment the reader has not got moves all that
follow, and a segment that meets its own hash at its position is not sent.

> `computeRoot_eq_node`: the root is a node of the tree padded without end.
> `converges_iff`: a round makes the roots equal iff every match by position is
> a match by index, as far as the tree binds its leaves.
> `root_binding`: equal roots over as many segments mean equal hashes in index order.

BLAKE3 is a parameter. A segment index is a `u32` and is read as a number.
-/

namespace CipherOcto.Sync

open Encoding

/-! ## The code -/

/-- `SegmentMetadata`. -/
structure SegmentMetadata where
  segmentIndex : Nat
  payloadHash : Bytes32
  lsnWatermark : Nat
  byteSize : Nat
deriving DecidableEq

/-- `MerkleSegmentTree`. -/
structure MerkleSegmentTree where
  leaves : List SegmentMetadata
deriving DecidableEq

/-- `MerkleSegmentTree::from_segments`: a stable sort by index. -/
def fromSegments (segments : List SegmentMetadata) : MerkleSegmentTree :=
  ⟨segments.insertionSort fun a b => a.segmentIndex ≤ b.segmentIndex⟩

namespace MerkleSegmentTree

def hashes (t : MerkleSegmentTree) : List Bytes32 := t.leaves.map (·.payloadHash)

/-- `MerkleSegmentTree::segments_at`: positions above the leaves are skipped. -/
def segmentsAt (t : MerkleSegmentTree) (positions : List (Nat × Nat)) : List SegmentMetadata :=
  positions.filterMap fun p => if p.1 = 0 then t.leaves[p.2]? else none

/-- `MerkleSegmentTree::leaf_count`. -/
def leafCount (t : MerkleSegmentTree) : Nat := t.leaves.length

end MerkleSegmentTree

section

variable (blake3 : List UInt8 → Bytes32)

/-- One hasher fed with the hashes of a chunk. -/
def hashChunk (chunk : List Bytes32) : Bytes32 := blake3 (chunk.flatMap (·.toList))

/-- The padding of the leaf level. -/
def zeroLeaf : Bytes32 := Vector.replicate 32 0

/-- `zero_hash`. -/
def zeroHash : Nat → Bytes32
  | 0 => zeroLeaf
  | level + 1 => hashChunk blake3 (List.replicate 16 (zeroHash level))

/-- `pad_to_16`. -/
def padTo16 (arr : List Bytes32) (level : Nat) : List Bytes32 :=
  let targetLen := (arr.length + 15) / 16 * 16
  if arr.length = targetLen then arr
  else arr ++ List.replicate (targetLen - arr.length) (zeroHash blake3 level)

/-- `next_level`. -/
def nextLevel (arr : List Bytes32) : List Bytes32 :=
  (PaddedTree.chunks 16 arr).map (hashChunk blake3)

/-- The loop of `compute_root`. -/
def computeRootFrom (level : Nat) (current : List Bytes32) : List Bytes32 :=
  if current.length > 1 then
    let next := nextLevel blake3 (padTo16 blake3 current level)
    if level + 1 > 4 then next else computeRootFrom (level + 1) next
  else current
termination_by 5 - level

/-- `compute_root`. The loop never leaves an empty level, whose first entry would
panic. -/
def computeRoot (leaves : List Bytes32) : Bytes32 :=
  if leaves = [] then zeroHash blake3 0
  else (computeRootFrom blake3 0 leaves).headD (zeroHash blake3 0)

/-- The comparison of one level in `diff`. -/
def divergencesAt (level : Nat) (self other : List Bytes32) : List (Nat × Nat) :=
  let paddedSelf := padTo16 blake3 self level
  let paddedOther := padTo16 blake3 other level
  ((List.range (max paddedSelf.length paddedOther.length)).filter fun i =>
    paddedSelf.getD i (zeroHash blake3 level) ≠ paddedOther.getD i (zeroHash blake3 level)).map
      fun i => (level, i)

/-- The loop of `diff`. Its inner levels are hashed without padding. -/
def diffFrom (level : Nat) (self other : List Bytes32) : List (Nat × Nat) :=
  if self = [] ∧ other = [] then []
  else
    divergencesAt blake3 level self other ++
      if self.length ≤ 1 ∧ other.length ≤ 1 then []
      else if level + 1 > 4 then []
      else diffFrom (level + 1) (nextLevel blake3 self) (nextLevel blake3 other)
termination_by 5 - level

namespace MerkleSegmentTree

/-- `MerkleSegmentTree::root`. -/
def root (t : MerkleSegmentTree) : Bytes32 := computeRoot blake3 t.hashes

/-- `MerkleSegmentTree::diff`. -/
def diff (self other : MerkleSegmentTree) : List (Nat × Nat) :=
  if self.hashes = other.hashes then [] else diffFrom blake3 0 self.hashes other.hashes

end MerkleSegmentTree

/-! ## One round -/

/-- A segment replaces the one of its index, or is added. -/
def replaceOrAdd (segments : List SegmentMetadata) (s : SegmentMetadata) : List SegmentMetadata :=
  segments.filter (fun t => t.segmentIndex ≠ s.segmentIndex) ++ [s]

/-- What the writer sends for the reader's tree. -/
def sent (writer reader : List SegmentMetadata) : List SegmentMetadata :=
  (fromSegments writer).segmentsAt ((fromSegments writer).diff blake3 (fromSegments reader))

/-- The reader's segments after the round. -/
def antiEntropy (writer reader : List SegmentMetadata) : List SegmentMetadata :=
  (sent blake3 writer reader).foldl replaceOrAdd reader

end

/-- No two segments of a list share an index. -/
def DistinctIndices (segments : List SegmentMetadata) : Prop :=
  (segments.map (·.segmentIndex)).Nodup

instance : DecidablePred DistinctIndices := fun segments =>
  inferInstanceAs (Decidable (segments.map (·.segmentIndex)).Nodup)

/-- The leaf hash at a position, padding past the end. -/
def MerkleSegmentTree.hashAt (t : MerkleSegmentTree) (p : Nat) : Bytes32 := t.hashes.getD p zeroLeaf

/-- Where the writer's hash is the reader's at the same position, the reader has it under
the writer's index too. -/
def MatchesByIndex (writer reader : List SegmentMetadata) : Prop :=
  ∀ p s, (fromSegments writer).leaves[p]? = some s →
    s.payloadHash = (fromSegments reader).hashAt p →
      ∃ t ∈ reader, t.segmentIndex = s.segmentIndex ∧ t.payloadHash = s.payloadHash

/-! ## The root -/

section

variable {blake3 : List UInt8 → Bytes32}

theorem zeroHash_eq_zero (level : Nat) :
    zeroHash blake3 level = PaddedTree.zero (hashChunk blake3) 16 zeroLeaf level := by
  induction level with
  | zero => rfl
  | succ level ih => rw [zeroHash, PaddedTree.zero, ih]

theorem padTo16_eq_pad (arr : List Bytes32) (level : Nat) :
    padTo16 blake3 arr level = PaddedTree.pad 16 arr (zeroHash blake3 level) := by
  unfold padTo16 PaddedTree.pad
  dsimp only
  split
  next h =>
    have hnone : (arr.length + 16 - 1) / 16 * 16 - arr.length = 0 := by omega
    rw [hnone, List.replicate_zero, List.append_nil]
  next => rfl

theorem getD_padTo16 (arr : List Bytes32) (level i : Nat) :
    (padTo16 blake3 arr level).getD i (zeroHash blake3 level) =
      arr.getD i (zeroHash blake3 level) := by
  rw [padTo16_eq_pad, PaddedTree.getD_pad]

theorem length_nextLevel_padTo16 (arr : List Bytes32) (level : Nat) :
    (nextLevel blake3 (padTo16 blake3 arr level)).length = (arr.length + 15) / 16 := by
  rw [nextLevel, List.length_map, padTo16_eq_pad, PaddedTree.length_chunks_pad (by omega)]
  rfl

/-- What the list of a level holds, over the leaves `f`. -/
def HoldsLevel (blake3 : List UInt8 → Bytes32) (f : Nat → Bytes32) (level : Nat)
    (current : List Bytes32) : Prop :=
  ∀ i, current.getD i (zeroHash blake3 level) = PaddedTree.node (hashChunk blake3) 16 f level i

theorem HoldsLevel.nextLevel {f : Nat → Bytes32} {level : Nat} {current : List Bytes32}
    (h : HoldsLevel blake3 f level current) :
    HoldsLevel blake3 f (level + 1) (nextLevel blake3 (padTo16 blake3 current level)) := by
  intro i
  unfold HoldsLevel at h
  rw [Sync.nextLevel, padTo16_eq_pad]
  simp only [zeroHash_eq_zero] at h ⊢
  exact PaddedTree.getD_nextLevel_node (by omega) h i

/-- The levels `compute_root` climbs over `n` leaves. It stops at the fifth, whatever
is left. -/
def treeDepth (n : Nat) : Nat := min 5 (Nat.clog 16 n)

/-- The loop invariant: a list that holds its level ends in one that holds the root. -/
theorem computeRootFrom_holds {f : Nat → Bytes32} {level : Nat} {current : List Bytes32}
    (hlevel : level < 5) (h : HoldsLevel blake3 f level current) :
    HoldsLevel blake3 f (min 5 (level + Nat.clog 16 current.length))
      (computeRootFrom blake3 level current) := by
  unfold computeRootFrom
  split
  next hlong =>
    have hclog : Nat.clog 16 current.length = Nat.clog 16 ((current.length + 15) / 16) + 1 :=
      Nat.clog_of_one_lt (by omega) hlong
    dsimp only
    split
    next hlast =>
      have hfive : min 5 (level + Nat.clog 16 current.length) = level + 1 := by omega
      rw [hfive]
      exact h.nextLevel
    next hmore =>
      have ih := computeRootFrom_holds (not_lt.mp hmore |> Nat.lt_succ_of_le) h.nextLevel
      rw [length_nextLevel_padTo16] at ih
      have hassoc : level + Nat.clog 16 current.length =
          level + 1 + Nat.clog 16 ((current.length + 15) / 16) := by omega
      rw [hassoc]
      exact ih
  next hshort =>
    rw [Nat.clog_of_right_le_one (not_lt.mp hshort), Nat.add_zero, min_eq_right hlevel.le]
    exact h
termination_by 5 - level

theorem computeRootFrom_length_pos {level : Nat} {current : List Bytes32}
    (h : 0 < current.length) : 0 < (computeRootFrom blake3 level current).length := by
  have hnext : 0 < (nextLevel blake3 (padTo16 blake3 current level)).length := by
    rw [length_nextLevel_padTo16]
    omega
  unfold computeRootFrom
  dsimp only
  split
  · split
    · exact hnext
    · exact computeRootFrom_length_pos hnext
  · exact h
termination_by 5 - level

/-- **The root** is a node of the padded tree. -/
theorem computeRoot_eq_node (leaves : List Bytes32) :
    computeRoot blake3 leaves =
      PaddedTree.node (hashChunk blake3) 16 (fun i => leaves.getD i zeroLeaf)
        (treeDepth leaves.length) 0 := by
  have hleaves : HoldsLevel blake3 (fun i => leaves.getD i zeroLeaf) 0 leaves := fun _ => rfl
  have hroot := computeRootFrom_holds (by omega) hleaves 0
  rw [Nat.zero_add] at hroot
  unfold computeRoot
  split
  next hnil =>
    rw [hnil]
    rfl
  next hne =>
    have hpos : 0 < (computeRootFrom blake3 0 leaves).length :=
      computeRootFrom_length_pos (List.length_pos_of_ne_nil hne)
    rw [treeDepth, ← hroot, List.getD_eq_getElem _ _ hpos]
    generalize computeRootFrom blake3 0 leaves = level at hpos ⊢
    cases level with
    | nil => exact absurd hpos (lt_irrefl 0)
    | cons h hs => rfl

/-! ## What is sent -/

theorem mem_divergencesAt {level : Nat} {self other : List Bytes32} {q : Nat × Nat} :
    q ∈ divergencesAt blake3 level self other ↔ q.1 = level ∧
      self.getD q.2 (zeroHash blake3 level) ≠ other.getD q.2 (zeroHash blake3 level) := by
  have hmem : q ∈ divergencesAt blake3 level self other ↔ ∃ i, (i < max
      (padTo16 blake3 self level).length (padTo16 blake3 other level).length ∧
      self.getD i (zeroHash blake3 level) ≠ other.getD i (zeroHash blake3 level)) ∧
      (level, i) = q := by
    simp only [divergencesAt, List.mem_map, List.mem_filter, List.mem_range, getD_padTo16,
      decide_eq_true_eq]
  rw [hmem]
  constructor
  · intro h
    obtain ⟨i, ⟨-, hne⟩, rfl⟩ := h
    exact ⟨rfl, hne⟩
  · intro h
    obtain ⟨rfl, hne⟩ := h
    refine ⟨q.2, ⟨?_, hne⟩, rfl⟩
    -- past both ends there is padding on both sides
    by_contra hpast
    rw [not_lt, max_le_iff] at hpast
    refine hne ?_
    rw [← getD_padTo16, ← getD_padTo16 other, List.getD_eq_default _ _ hpast.1,
      List.getD_eq_default _ _ hpast.2]

theorem le_of_mem_diffFrom {level : Nat} {self other : List Bytes32} {q : Nat × Nat}
    (h : q ∈ diffFrom blake3 level self other) : level ≤ q.1 := by
  unfold diffFrom at h
  split at h
  · exact absurd h List.not_mem_nil
  · rcases List.mem_append.mp h with hhere | habove
    · exact (mem_divergencesAt.mp hhere).1.ge
    · split at habove
      · exact absurd habove List.not_mem_nil
      · split at habove
        · exact absurd habove List.not_mem_nil
        · exact (Nat.le_succ level).trans (le_of_mem_diffFrom habove)
termination_by 5 - level

namespace MerkleSegmentTree

theorem mem_segmentsAt {t : MerkleSegmentTree} {positions : List (Nat × Nat)}
    {s : SegmentMetadata} :
    s ∈ t.segmentsAt positions ↔ ∃ i, (0, i) ∈ positions ∧ t.leaves[i]? = some s := by
  unfold segmentsAt
  rw [List.mem_filterMap]
  constructor
  · intro h
    obtain ⟨⟨level, i⟩, hmem, hget⟩ := h
    split at hget
    next hzero =>
      obtain rfl : level = 0 := hzero
      exact ⟨i, hmem, hget⟩
    next => cases hget
  · intro h
    obtain ⟨i, hmem, hget⟩ := h
    exact ⟨(0, i), hmem, by rw [if_pos rfl, hget]⟩

/-- Only the divergences of the leaf level are looked up. -/
theorem segmentsAt_diff (t other : MerkleSegmentTree) :
    t.segmentsAt (t.diff blake3 other) =
      t.segmentsAt (divergencesAt blake3 0 t.hashes other.hashes) := by
  unfold diff
  split
  next heq =>
    rw [heq]
    refine (List.eq_nil_iff_forall_not_mem.mpr fun s hs => ?_).symm
    obtain ⟨i, hmem, -⟩ := mem_segmentsAt.mp hs
    exact (mem_divergencesAt.mp hmem).2 rfl
  next hne =>
    have hsome : ¬(t.hashes = [] ∧ other.hashes = []) :=
      fun hnil => hne (hnil.1.trans hnil.2.symm)
    rw [diffFrom, if_neg hsome, segmentsAt, List.filterMap_append]
    refine List.append_right_eq_self.mpr (List.eq_nil_iff_forall_not_mem.mpr fun s hs => ?_)
    obtain ⟨i, hmem, -⟩ := mem_segmentsAt.mp hs
    split at hmem
    · exact absurd hmem List.not_mem_nil
    · split at hmem
      · exact absurd hmem List.not_mem_nil
      · exact absurd (le_of_mem_diffFrom hmem) (Nat.not_succ_le_zero 0)

theorem hashAt_of_leaf {t : MerkleSegmentTree} {p : Nat} {s : SegmentMetadata}
    (h : t.leaves[p]? = some s) : t.hashAt p = s.payloadHash := by
  rw [hashAt, hashes, List.getD_eq_getElem?_getD, List.getElem?_map, h]
  rfl

end MerkleSegmentTree

theorem mem_sent {writer reader : List SegmentMetadata} {s : SegmentMetadata} :
    s ∈ sent blake3 writer reader ↔ ∃ p, (fromSegments writer).leaves[p]? = some s ∧
      s.payloadHash ≠ (fromSegments reader).hashAt p := by
  rw [sent, MerkleSegmentTree.segmentsAt_diff, MerkleSegmentTree.mem_segmentsAt]
  refine exists_congr fun p => ?_
  rw [mem_divergencesAt, and_iff_right rfl, and_comm]
  refine and_congr_right fun hleaf => ?_
  rw [← MerkleSegmentTree.hashAt_of_leaf hleaf]
  rfl

/-! ## Sorting by index -/

instance : Std.Total fun a b : SegmentMetadata => a.segmentIndex ≤ b.segmentIndex :=
  ⟨fun a b => Nat.le_total a.segmentIndex b.segmentIndex⟩

instance : IsTrans SegmentMetadata fun a b => a.segmentIndex ≤ b.segmentIndex :=
  ⟨fun _ _ _ => Nat.le_trans⟩

theorem mem_fromSegments {segments : List SegmentMetadata} {s : SegmentMetadata} :
    s ∈ (fromSegments segments).leaves ↔ s ∈ segments :=
  List.mem_insertionSort _

theorem length_fromSegments (segments : List SegmentMetadata) :
    (fromSegments segments).leaves.length = segments.length :=
  List.length_insertionSort _ segments

/-- The indices rise strictly. -/
theorem sorted_fromSegments {segments : List SegmentMetadata} (h : DistinctIndices segments) :
    (fromSegments segments).leaves.Pairwise fun a b => a.segmentIndex < b.segmentIndex := by
  have hle := List.pairwise_insertionSort
    (fun a b : SegmentMetadata => a.segmentIndex ≤ b.segmentIndex) segments
  have hperm := (List.perm_insertionSort
    (fun a b : SegmentMetadata => a.segmentIndex ≤ b.segmentIndex) segments).map (·.segmentIndex)
  have hne := List.pairwise_map.mp (hperm.nodup_iff.mpr h)
  exact (hle.and hne).imp fun hboth => lt_of_le_of_ne hboth.1 hboth.2

/-- Two lists with the same segments up to what `f` reads are sorted into the same. -/
theorem map_fromSegments_congr {β : Type} {f : SegmentMetadata → β} (index : β → Nat)
    (hindex : ∀ s, index (f s) = s.segmentIndex) {xs ys : List SegmentMetadata}
    (hxs : DistinctIndices xs) (hys : DistinctIndices ys)
    (hmem : ∀ b, b ∈ xs.map f ↔ b ∈ ys.map f) :
    (fromSegments xs).leaves.map f = (fromSegments ys).leaves.map f := by
  have hsorted : ∀ {l : List SegmentMetadata}, DistinctIndices l →
      ((fromSegments l).leaves.map f).Pairwise fun a b => index a < index b := by
    intro l hl
    refine List.pairwise_map.mpr ((sorted_fromSegments hl).imp fun hlt => ?_)
    rw [hindex, hindex]
    exact hlt
  have hset : ∀ (l : List SegmentMetadata) b, b ∈ (fromSegments l).leaves.map f ↔ b ∈ l.map f := by
    intro l b
    simp only [List.mem_map, mem_fromSegments]
  have : Std.Antisymm fun a b : β => index a < index b :=
    ⟨fun a b hab hba => absurd (hab.trans hba) (lt_irrefl _)⟩
  have : Std.Irrefl fun a b : β => index a < index b := ⟨fun a => lt_irrefl _⟩
  refine (hsorted hxs).eq_of_mem_iff (hsorted hys) fun b => ?_
  rw [hset, hset, hmem]

theorem eq_of_index_eq {l : List SegmentMetadata} (h : DistinctIndices l) {s t : SegmentMetadata}
    (hs : s ∈ l) (ht : t ∈ l) (heq : s.segmentIndex = t.segmentIndex) : s = t :=
  List.inj_on_of_nodup_map h hs ht heq

/-! ## What a round leaves -/

theorem mem_replaceOrAdd {l : List SegmentMetadata} {s t : SegmentMetadata} :
    t ∈ replaceOrAdd l s ↔ t = s ∨ t ∈ l ∧ s.segmentIndex ≠ t.segmentIndex := by
  rw [replaceOrAdd, List.mem_append, List.mem_singleton, List.mem_filter, decide_eq_true_eq,
    ne_comm, or_comm]

theorem DistinctIndices.replaceOrAdd {l : List SegmentMetadata} (h : DistinctIndices l)
    (s : SegmentMetadata) : DistinctIndices (replaceOrAdd l s) := by
  unfold DistinctIndices Sync.replaceOrAdd at *
  rw [List.map_append, List.map_singleton]
  refine List.Nodup.append (h.sublist (List.filter_sublist.map _)) (List.nodup_singleton _) ?_
  intro index hold hnew
  obtain ⟨t, ht, rfl⟩ := List.mem_map.mp hold
  rw [List.mem_filter, decide_eq_true_eq] at ht
  exact ht.2 (List.mem_singleton.mp hnew)

theorem DistinctIndices.foldl {l : List SegmentMetadata} (h : DistinctIndices l)
    (rs : List SegmentMetadata) : DistinctIndices (rs.foldl Sync.replaceOrAdd l) := by
  induction rs generalizing l with
  | nil => exact h
  | cons r rs ih => exact ih (h.replaceOrAdd r)

/-- The segments received, and the old ones of other indices. -/
theorem mem_foldl_replaceOrAdd {rs l : List SegmentMetadata} {t : SegmentMetadata}
    (hrs : ∀ r ∈ rs, ∀ s ∈ rs, r.segmentIndex = s.segmentIndex → r = s) :
    t ∈ rs.foldl replaceOrAdd l ↔
      t ∈ rs ∨ t ∈ l ∧ ∀ r ∈ rs, r.segmentIndex ≠ t.segmentIndex := by
  induction rs generalizing l with
  | nil => simp
  | cons r rs ih =>
    have htail : ∀ x ∈ rs, ∀ y ∈ rs, x.segmentIndex = y.segmentIndex → x = y :=
      fun x hx y hy => hrs x (List.mem_cons_of_mem r hx) y (List.mem_cons_of_mem r hy)
    rw [List.foldl_cons, ih htail, mem_replaceOrAdd, List.mem_cons, List.forall_mem_cons]
    constructor
    · rintro (hmem | ⟨rfl | ⟨hold, hne⟩, hrest⟩)
      · exact Or.inl (Or.inr hmem)
      · exact Or.inl (Or.inl rfl)
      · exact Or.inr ⟨hold, hne, hrest⟩
    · rintro ((rfl | hmem) | ⟨hold, hne, hrest⟩)
      · -- `t` may come again, and then it is the same segment
        by_cases hagain : ∃ x ∈ rs, x.segmentIndex = t.segmentIndex
        · obtain ⟨x, hx, heq⟩ := hagain
          have hxt := hrs x (List.mem_cons_of_mem t hx) t List.mem_cons_self heq
          exact Or.inl (hxt ▸ hx)
        · exact Or.inr ⟨Or.inl rfl, fun x hx heq => hagain ⟨x, hx, heq⟩⟩
      · exact Or.inl hmem
      · exact Or.inr ⟨Or.inr ⟨hold, hne⟩, hrest⟩

section

variable {writer reader : List SegmentMetadata}

theorem mem_writer_of_sent {s : SegmentMetadata} (h : s ∈ sent blake3 writer reader) :
    s ∈ writer := by
  obtain ⟨p, hleaf, -⟩ := mem_sent.mp h
  exact mem_fromSegments.mp (List.mem_of_getElem? hleaf)

theorem mem_antiEntropy (hw : DistinctIndices writer) {t : SegmentMetadata} :
    t ∈ antiEntropy blake3 writer reader ↔ t ∈ sent blake3 writer reader ∨
      t ∈ reader ∧ ∀ r ∈ sent blake3 writer reader, r.segmentIndex ≠ t.segmentIndex :=
  mem_foldl_replaceOrAdd fun _ hr _ hs =>
    eq_of_index_eq hw (mem_writer_of_sent hr) (mem_writer_of_sent hs)

theorem nodup_leaves {segments : List SegmentMetadata} (h : DistinctIndices segments) :
    (fromSegments segments).leaves.Nodup :=
  List.Pairwise.imp (fun {a b} (hlt : a.segmentIndex < b.segmentIndex) (heq : a = b) =>
    lt_irrefl b.segmentIndex (heq ▸ hlt)) (sorted_fromSegments h)

/-- A leaf is sent iff its hash is not the reader's at its position. -/
theorem leaf_sent_iff (hw : DistinctIndices writer) {p : Nat} {s : SegmentMetadata}
    (hleaf : (fromSegments writer).leaves[p]? = some s) :
    s ∈ sent blake3 writer reader ↔ s.payloadHash ≠ (fromSegments reader).hashAt p := by
  rw [mem_sent]
  constructor
  · intro h
    obtain ⟨q, hq, hne⟩ := h
    have hpq : p = q :=
      (List.getElem?_inj (List.getElem?_eq_some_iff.mp hleaf).1 (nodup_leaves hw)).mp
        (hleaf.trans hq.symm)
    exact hpq ▸ hne
  · exact fun hne => ⟨p, hleaf, hne⟩

theorem exists_leaf {segments : List SegmentMetadata} {s : SegmentMetadata} (h : s ∈ segments) :
    ∃ p : Nat, (fromSegments segments).leaves[p]? = some s :=
  List.mem_iff_getElem?.mp (mem_fromSegments.mpr h)

/-- A segment of the writer's index that was not sent is the reader's own. -/
theorem mem_reader_of_not_sent (hw : DistinctIndices writer) {s t : SegmentMetadata}
    (hs : s ∈ writer) (hnot : s ∉ sent blake3 writer reader)
    (ht : t ∈ antiEntropy blake3 writer reader) (hindex : t.segmentIndex = s.segmentIndex) :
    t ∈ reader := by
  rcases (mem_antiEntropy hw).mp ht with hsent | ⟨hreader, -⟩
  · have hts := eq_of_index_eq hw (mem_writer_of_sent hsent) hs hindex
    exact absurd (hts ▸ hsent) hnot
  · exact hreader

/-- **Enough.** With every match by position a match by index, the reader is left with the
writer's hashes. -/
theorem hashes_antiEntropy (hw : DistinctIndices writer) (hr : DistinctIndices reader)
    (hsub : ∀ t ∈ reader, ∃ s ∈ writer, s.segmentIndex = t.segmentIndex)
    (h : MatchesByIndex writer reader) :
    (fromSegments (antiEntropy blake3 writer reader)).hashes = (fromSegments writer).hashes := by
  have hpairs : (fromSegments (antiEntropy blake3 writer reader)).leaves.map
        (fun s => (s.segmentIndex, s.payloadHash)) =
      (fromSegments writer).leaves.map fun s => (s.segmentIndex, s.payloadHash) := by
    refine map_fromSegments_congr Prod.fst (fun _ => rfl) (hr.foldl _) hw fun b => ?_
    rw [List.mem_map, List.mem_map]
    constructor
    · intro h
      obtain ⟨t, ht, rfl⟩ := h
      rcases (mem_antiEntropy hw).mp ht with hsent | ⟨hreader, hkept⟩
      · exact ⟨t, mem_writer_of_sent hsent, rfl⟩
      · obtain ⟨s, hs, hindex⟩ := hsub t hreader
        obtain ⟨p, hleaf⟩ := exists_leaf hs
        have hmatch : s.payloadHash = (fromSegments reader).hashAt p := by
          by_contra hne
          exact hkept s ((leaf_sent_iff hw hleaf).mpr hne) hindex
        obtain ⟨u, hu, huindex, huhash⟩ := h p s hleaf hmatch
        have hut : u = t := eq_of_index_eq hr hu hreader (huindex.trans hindex)
        subst hut
        exact ⟨s, hs, Prod.ext hindex huhash.symm⟩
    · intro h
      obtain ⟨s, hs, rfl⟩ := h
      by_cases hsent : s ∈ sent blake3 writer reader
      · exact ⟨s, (mem_antiEntropy hw).mpr (Or.inl hsent), rfl⟩
      · obtain ⟨p, hleaf⟩ := exists_leaf hs
        have hmatch := not_not.mp (mt (leaf_sent_iff hw hleaf).mpr hsent)
        obtain ⟨u, hu, huindex, huhash⟩ := h p s hleaf hmatch
        refine ⟨u, (mem_antiEntropy hw).mpr (Or.inr ⟨hu, ?_⟩), Prod.ext huindex huhash⟩
        intro r hrsent hrindex
        have hrs := eq_of_index_eq hw (mem_writer_of_sent hrsent) hs (hrindex.trans huindex)
        exact hsent (hrs ▸ hrsent)
  have hsnd := congrArg (List.map Prod.snd) hpairs
  rw [List.map_map, List.map_map] at hsnd
  exact hsnd

/-- A round adds no index the writer has not got. -/
theorem indices_subperm (blake3 : List UInt8 → Bytes32) (hw : DistinctIndices writer) (hr : DistinctIndices reader)
    (hsub : ∀ t ∈ reader, ∃ s ∈ writer, s.segmentIndex = t.segmentIndex) :
    List.Subperm ((antiEntropy blake3 writer reader).map (·.segmentIndex))
      (writer.map (·.segmentIndex)) := by
  refine List.subperm_of_subset (hr.foldl _) fun index hmem => ?_
  obtain ⟨t, ht, rfl⟩ := List.mem_map.mp hmem
  rcases (mem_antiEntropy hw).mp ht with hsent | ⟨hreader, -⟩
  · exact List.mem_map.mpr ⟨t, mem_writer_of_sent hsent, rfl⟩
  · exact List.mem_map.mpr (hsub t hreader)

/-- **Needed.** A reader left with the writer's hashes had a match by index at every match by
position. -/
theorem matchesByIndex_of_hashes (hw : DistinctIndices writer) (hr : DistinctIndices reader)
    (hsub : ∀ t ∈ reader, ∃ s ∈ writer, s.segmentIndex = t.segmentIndex)
    (h : (fromSegments (antiEntropy blake3 writer reader)).hashes = (fromSegments writer).hashes) :
    MatchesByIndex writer reader := by
  intro p s hleaf hmatch
  have hlen : writer.length = (antiEntropy blake3 writer reader).length := by
    have hlens := congrArg List.length h
    unfold MerkleSegmentTree.hashes at hlens
    rw [List.length_map, List.length_map, length_fromSegments, length_fromSegments] at hlens
    exact hlens.symm
  have hperm := (indices_subperm blake3 hw hr hsub).perm_of_length_le
    (by rw [List.length_map, List.length_map]; exact hlen.le)
  have hdistinct : DistinctIndices (antiEntropy blake3 writer reader) := hr.foldl _
  have hindex := map_fromSegments_congr (f := fun s => s.segmentIndex) id (fun _ => rfl)
    hdistinct hw fun _ => hperm.mem_iff
  -- the leaf of the result at the same position
  have hp : p < (fromSegments (antiEntropy blake3 writer reader)).leaves.length := by
    have hlt := (List.getElem?_eq_some_iff.mp hleaf).1
    rw [length_fromSegments] at hlt ⊢
    omega
  have hleaf' := List.getElem?_eq_getElem hp
  generalize (fromSegments (antiEntropy blake3 writer reader)).leaves[p] = t at hleaf'
  have hindexp := congrArg (fun l : List Nat => l[p]?) hindex
  have hhashp := congrArg (fun l : List Bytes32 => l[p]?) h
  unfold MerkleSegmentTree.hashes at hhashp
  simp only [List.getElem?_map, hleaf, hleaf', Option.map_some, Option.some.injEq] at hindexp hhashp
  refine ⟨t, ?_, hindexp, hhashp⟩
  refine mem_reader_of_not_sent hw (mem_fromSegments.mp (List.mem_of_getElem? hleaf)) ?_
    (mem_fromSegments.mp (List.mem_of_getElem? hleaf')) hindexp
  exact mt (leaf_sent_iff hw hleaf).mp (not_not.mpr hmatch)

end

end

/-! ## Binding -/

section

variable (blake3 : List UInt8 → Bytes32)

namespace MerkleSegmentTree

/-- Node `i` of level `level` of the padded tree. -/
def nodeAt (t : MerkleSegmentTree) (level i : Nat) : Bytes32 :=
  PaddedTree.node (hashChunk blake3) 16 t.hashAt level i

def depth (t : MerkleSegmentTree) : Nat := treeDepth t.leafCount

/-- The strings of 512 bytes under the root. -/
def hashed (t : MerkleSegmentTree) : Set (List UInt8) :=
  {x | ∃ level < t.depth, ∃ i < 16 ^ (t.depth - (level + 1)),
    x = (PaddedTree.block (hashChunk blake3) 16 t.hashAt level i).flatMap (·.toList)}

end MerkleSegmentTree

/-- What it takes for the tree of `a` to bind its leaves against the tree of `m`. -/
structure Binds (a m : MerkleSegmentTree) : Prop where
  /-- BLAKE3 does not collide on what the two trees hash. -/
  collisionFree : Set.InjOn blake3 (a.hashed blake3 ∪ m.hashed blake3)
  /-- No leaf is padding. -/
  leaf_ne_zero : ∀ h ∈ a.hashes, h ≠ zeroLeaf
  /-- No leaf, padding included, is the hash of a block of the other tree. -/
  leaf_ne_node : ∀ p, ∀ level < a.depth, ∀ i < 16 ^ (a.depth - (level + 1)),
    a.nodeAt blake3 (level + 1) i ≠ m.hashAt p
  /-- Five levels hold the tree. -/
  fits : a.leafCount ≤ 16 ^ 5

variable {blake3}

theorem MerkleSegmentTree.root_eq_nodeAt (t : MerkleSegmentTree) :
    t.root blake3 = t.nodeAt blake3 t.depth 0 := by
  rw [root, computeRoot_eq_node, depth, leafCount, hashes, List.length_map]
  rfl

theorem flatMap_toList_inj {xs ys : List Bytes32} (hlen : xs.length = ys.length)
    (h : xs.flatMap (·.toList) = ys.flatMap (·.toList)) : xs = ys := by
  induction xs generalizing ys with
  | nil => exact (List.length_eq_zero_iff.mp hlen.symm).symm
  | cons x xs ih =>
    cases ys with
    | nil => exact absurd hlen (Nat.succ_ne_zero _)
    | cons y ys =>
      rw [List.flatMap_cons, List.flatMap_cons] at h
      obtain ⟨hxy, hrest⟩ := Bytes.toList_append_inj h
      rw [hxy, ih (Nat.succ.inj hlen) hrest]

theorem treeDepth_mono {m n : Nat} (h : m ≤ n) : treeDepth m ≤ treeDepth n :=
  min_le_min_left 5 (Nat.clog_mono_right 16 h)

theorem le_pow_treeDepth {n : Nat} (h : n ≤ 16 ^ 5) : n ≤ 16 ^ treeDepth n := by
  rw [treeDepth, min_eq_right (Nat.clog_le_of_le_pow h)]
  exact Nat.le_pow_clog (by omega) n

/-- The level of `a` that the leaves of `m` meet, when the roots are equal. -/
theorem nodeAt_eq_hashAt {a m : MerkleSegmentTree}
    (h : Set.InjOn blake3 (a.hashed blake3 ∪ m.hashed blake3)) {e : Nat}
    (he : a.depth = e + m.depth) (hroot : m.root blake3 = a.root blake3) {j : Nat}
    (hj : j < 16 ^ m.depth) : a.nodeAt blake3 e j = m.hashAt j := by
  have hinj : ∀ level < m.depth, ∀ i < 16 ^ (m.depth - (level + 1)),
      hashChunk blake3 (PaddedTree.block (hashChunk blake3) 16 a.hashAt (e + level) i) =
        hashChunk blake3 (PaddedTree.block (hashChunk blake3) 16 m.hashAt level i) →
      PaddedTree.block (hashChunk blake3) 16 a.hashAt (e + level) i =
        PaddedTree.block (hashChunk blake3) 16 m.hashAt level i := by
    intro level hlevel i hi heq
    refine flatMap_toList_inj (by rw [PaddedTree.length_block, PaddedTree.length_block]) ?_
    refine h (Or.inl ⟨e + level, by omega, i, ?_, rfl⟩) (Or.inr ⟨level, hlevel, i, hi, rfl⟩) heq
    have hsame : a.depth - (e + level + 1) = m.depth - (level + 1) := by omega
    rw [hsame]
    exact hi
  rw [MerkleSegmentTree.root_eq_nodeAt, MerkleSegmentTree.root_eq_nodeAt, he] at hroot
  have hiff := PaddedTree.node_eq_node_iff (by omega) hinj le_rfl (i := 0)
    (Nat.pow_pos (by omega))
  have hnode := hiff.mp hroot.symm j hj
  rw [Nat.mul_zero, Nat.zero_add] at hnode
  exact hnode

/-- A deeper tree would have a node that is a leaf of the other. -/
theorem Binds.depth_eq {a m : MerkleSegmentTree} (h : Binds blake3 a m)
    (hdepth : m.depth ≤ a.depth) (hroot : m.root blake3 = a.root blake3) : a.depth = m.depth := by
  obtain ⟨e, he⟩ := Nat.exists_eq_add_of_le' hdepth
  cases e with
  | zero => rw [he, Nat.zero_add]
  | succ level =>
    have hnode := nodeAt_eq_hashAt h.collisionFree he hroot (Nat.pow_pos (by omega))
    exact absurd hnode (h.leaf_ne_node 0 level (by omega) 0 (Nat.pow_pos (by omega)))

theorem MerkleSegmentTree.length_hashes (t : MerkleSegmentTree) : t.hashes.length = t.leafCount :=
  List.length_map _

/-- Leaves that are not padding are read off the padded tree. -/
theorem hashes_eq_of_hashAt {a m : MerkleSegmentTree} (hzero : ∀ h ∈ a.hashes, h ≠ zeroLeaf)
    (hlen : m.leafCount ≤ a.leafCount) (hat : ∀ j < a.leafCount, a.hashAt j = m.hashAt j) :
    m.hashes = a.hashes := by
  have hget : ∀ (t : MerkleSegmentTree) (j : Nat) (hj : j < t.hashes.length),
      t.hashAt j = t.hashes[j] := fun t j hj => List.getD_eq_getElem _ _ hj
  -- past the end of `m` there is padding, which no leaf of `a` is
  have hlong : a.leafCount ≤ m.leafCount := by
    by_contra hshort
    have hlt := not_le.mp hshort
    have hj : m.leafCount < a.hashes.length := a.length_hashes.symm ▸ hlt
    have hpad : m.hashAt m.leafCount = zeroLeaf := List.getD_eq_default _ _ m.length_hashes.le
    refine hzero _ (List.getElem_mem hj) ?_
    rw [← hget a _ hj, hat _ hlt, hpad]
  refine List.ext_getElem ?_ ?_
  · rw [m.length_hashes, a.length_hashes]
    exact le_antisymm hlen hlong
  · intro j hm ha
    rw [← hget m j hm, ← hget a j ha, hat j (a.length_hashes ▸ ha)]

/-- **Equal roots, equal leaves.** -/
theorem Binds.hashes_eq {a m : MerkleSegmentTree} (h : Binds blake3 a m)
    (hlen : m.leafCount ≤ a.leafCount) (hroot : m.root blake3 = a.root blake3) :
    m.hashes = a.hashes := by
  have hdepth := h.depth_eq (treeDepth_mono hlen) hroot
  refine hashes_eq_of_hashAt h.leaf_ne_zero hlen fun j hj => ?_
  have hbelow : j < 16 ^ m.depth := hdepth ▸ hj.trans_le (le_pow_treeDepth h.fits)
  exact nodeAt_eq_hashAt h.collisionFree (e := 0) (hdepth.trans (Nat.zero_add _).symm) hroot hbelow

/-- Trees of as many leaves pad them alike, so no leaf need differ from the padding. -/
theorem hashes_eq_of_root_eq {a m : MerkleSegmentTree}
    (h : Set.InjOn blake3 (a.hashed blake3 ∪ m.hashed blake3))
    (hcount : a.leafCount = m.leafCount) (hfits : a.leafCount ≤ 16 ^ 5)
    (hroot : a.root blake3 = m.root blake3) : a.hashes = m.hashes := by
  have hdepth : a.depth = 0 + m.depth := by
    rw [Nat.zero_add, MerkleSegmentTree.depth, hcount, MerkleSegmentTree.depth]
  have hlen : a.hashes.length = m.hashes.length := by
    rw [a.length_hashes, m.length_hashes, hcount]
  refine List.ext_getElem hlen fun j ha hm => ?_
  have hbelow : j < 16 ^ m.depth := by
    rw [m.length_hashes] at hm
    exact hm.trans_le (le_pow_treeDepth (hcount ▸ hfits))
  have hat := nodeAt_eq_hashAt h hdepth hroot.symm hbelow
  rw [MerkleSegmentTree.hashAt, List.getD_eq_getElem _ _ hm] at hat
  rw [← hat]
  exact (List.getD_eq_getElem _ _ ha).symm

/-- The order of supply is lost in the sort. -/
theorem fromSegments_perm {xs ys : List SegmentMetadata} (hxs : DistinctIndices xs)
    (h : xs.Perm ys) : fromSegments xs = fromSegments ys := by
  have hys : DistinctIndices ys := (h.map SegmentMetadata.segmentIndex).nodup_iff.mp hxs
  have hleaves := map_fromSegments_congr (f := id) (·.segmentIndex) (fun _ => rfl) hxs hys
    fun b => (h.map id).mem_iff
  rw [List.map_id, List.map_id] at hleaves
  exact congrArg MerkleSegmentTree.mk hleaves

/-- **The root binds the leaves** in index order, and forgets the order of supply. -/
theorem root_binding (blake3 : List UInt8 → Bytes32) :
    (∀ xs ys : List SegmentMetadata, xs.length = ys.length → xs.length ≤ 65536 →
      Set.InjOn blake3 ((fromSegments xs).hashed blake3 ∪ (fromSegments ys).hashed blake3) →
      (fromSegments xs).root blake3 = (fromSegments ys).root blake3 →
        (fromSegments xs).hashes = (fromSegments ys).hashes) ∧
    ∀ xs ys : List SegmentMetadata, DistinctIndices xs → xs.Perm ys →
      (fromSegments xs).root blake3 = (fromSegments ys).root blake3 := by
  refine ⟨fun xs ys hlen hbound hfree hroot => ?_, fun xs ys hxs hperm => ?_⟩
  · refine hashes_eq_of_root_eq hfree ?_ ?_ hroot
    · rw [MerkleSegmentTree.leafCount, MerkleSegmentTree.leafCount, length_fromSegments,
        length_fromSegments, hlen]
    · rw [MerkleSegmentTree.leafCount, length_fromSegments]
      exact hbound.trans (by decide)
  · rw [fromSegments_perm hxs hperm]

/-! ## Convergence -/

/-- **A round converges** if every match by position is a match by index, and only then where
the writer's tree binds its leaves. -/
theorem converges_iff (blake3 : List UInt8 → Bytes32) (writer reader : List SegmentMetadata)
    (hw : DistinctIndices writer) (hr : DistinctIndices reader)
    (hsub : ∀ t ∈ reader, ∃ s ∈ writer, s.segmentIndex = t.segmentIndex) :
    (MatchesByIndex writer reader →
      (fromSegments (antiEntropy blake3 writer reader)).root blake3 =
        (fromSegments writer).root blake3) ∧
    (Binds blake3 (fromSegments writer) (fromSegments (antiEntropy blake3 writer reader)) →
      ((fromSegments (antiEntropy blake3 writer reader)).root blake3 =
        (fromSegments writer).root blake3 ↔ MatchesByIndex writer reader)) := by
  have henough : MatchesByIndex writer reader →
      (fromSegments (antiEntropy blake3 writer reader)).root blake3 =
        (fromSegments writer).root blake3 := by
    intro hmatch
    rw [MerkleSegmentTree.root, hashes_antiEntropy hw hr hsub hmatch]
    rfl
  refine ⟨henough, fun hbinds => ⟨fun hroot => ?_, henough⟩⟩
  have hlen : (antiEntropy blake3 writer reader).length ≤ writer.length := by
    have hle := (indices_subperm blake3 hw hr hsub).length_le
    rw [List.length_map, List.length_map] at hle
    exact hle
  refine matchesByIndex_of_hashes hw hr hsub (hbinds.hashes_eq ?_ hroot)
  rw [MerkleSegmentTree.leafCount, MerkleSegmentTree.leafCount, length_fromSegments,
    length_fromSegments]
  exact hlen

end

/-! ## Two segments -/

def pairHash (n : UInt8) : Bytes32 := (Vector.replicate 32 0).set 0 n (by decide)

def pairSegment (segmentIndex : Nat) (n : UInt8) : SegmentMetadata :=
  ⟨segmentIndex, pairHash n, segmentIndex, 1024⟩

def pairWriter : List SegmentMetadata := [pairSegment 0 1, pairSegment 1 2]

def pairChunk : List Bytes32 := pairHash 1 :: pairHash 2 :: List.replicate 14 zeroLeaf

/-- The BLAKE3 digest of `pairChunk`. -/
def pairRoot : Bytes32 :=
  #v[184, 161, 49, 144, 32, 75, 25, 183, 44, 51, 74, 139, 176, 153, 174, 198,
    135, 77, 245, 159, 242, 149, 180, 208, 186, 22, 162, 104, 121, 115, 73, 159]

/-- BLAKE3 on the one block of `pairWriter`. -/
def pairBlake3 (x : List UInt8) : Bytes32 :=
  if x = pairChunk.flatMap (·.toList) then pairRoot else zeroLeaf

theorem pairWriter_depth : (fromSegments pairWriter).depth = 1 := by
  have hclog : Nat.clog 16 2 = 1 := Nat.clog_eq_one le_rfl (by decide)
  have hcount : (fromSegments pairWriter).leafCount = 2 := rfl
  rw [MerkleSegmentTree.depth, hcount, treeDepth, hclog]
  rfl

theorem pairWriter_block :
    PaddedTree.block (hashChunk pairBlake3) 16 (fromSegments pairWriter).hashAt 0 0 = pairChunk := by
  decide

theorem pairWriter_nodeAt : (fromSegments pairWriter).nodeAt pairBlake3 1 0 = pairRoot := by
  rw [MerkleSegmentTree.nodeAt, PaddedTree.node_succ, pairWriter_block, hashChunk, pairBlake3,
    if_pos rfl]

theorem pairWriter_hashed {x : List UInt8} (h : x ∈ (fromSegments pairWriter).hashed pairBlake3) :
    x = pairChunk.flatMap (·.toList) := by
  obtain ⟨level, hlevel, i, hi, rfl⟩ := h
  rw [pairWriter_depth] at hlevel hi
  obtain rfl : level = 0 := by omega
  obtain rfl : i = 0 := by omega
  rw [pairWriter_block]

theorem pairWriter_binds :
    Binds pairBlake3 (fromSegments pairWriter) (fromSegments pairWriter) where
  collisionFree := by
    intro x hx y hy _
    rw [Set.union_self] at hx hy
    rw [pairWriter_hashed hx, pairWriter_hashed hy]
  leaf_ne_zero := by decide
  leaf_ne_node := by
    intro p level hlevel i hi hnode
    rw [pairWriter_depth] at hlevel hi
    obtain rfl : level = 0 := by omega
    obtain rfl : i = 0 := by omega
    rw [pairWriter_nodeAt] at hnode
    -- the second byte of a leaf is zero, that of the root is not
    have hsecond : ((fromSegments pairWriter).hashAt p)[1] = 0 := by
      match p with
      | 0 => rfl
      | 1 => rfl
      | p + 2 => rfl
    rw [← hnode] at hsecond
    exact absurd hsecond (by decide)
  fits := by decide

theorem root_binding_pair :
    (fromSegments pairWriter).root pairBlake3 = (fromSegments pairWriter.reverse).root pairBlake3 ∧
      (fromSegments pairWriter).hashes = (fromSegments pairWriter.reverse).hashes := by
  obtain ⟨hbind, horder⟩ := root_binding pairBlake3
  have hroot := horder pairWriter pairWriter.reverse (by decide) (List.reverse_perm pairWriter).symm
  have hsorted : fromSegments pairWriter.reverse = fromSegments pairWriter := by decide
  refine ⟨hroot, hbind _ _ (by decide) (by decide) ?_ hroot⟩
  rw [hsorted]
  exact pairWriter_binds.collisionFree

/-- The reader has the first segment and is sent the second. -/
theorem converges_iff_pair :
    Binds pairBlake3 (fromSegments pairWriter)
        (fromSegments (antiEntropy pairBlake3 pairWriter [pairSegment 0 1])) ∧
      MatchesByIndex pairWriter [pairSegment 0 1] ∧
      (fromSegments (antiEntropy pairBlake3 pairWriter [pairSegment 0 1])).root pairBlake3 =
        (fromSegments pairWriter).root pairBlake3 := by
  have hsent : sent pairBlake3 pairWriter [pairSegment 0 1] = [pairSegment 1 2] := by
    rw [sent, MerkleSegmentTree.segmentsAt_diff]
    decide
  have hleft : antiEntropy pairBlake3 pairWriter [pairSegment 0 1] = pairWriter := by
    rw [antiEntropy, hsent]
    decide
  have hbinds : Binds pairBlake3 (fromSegments pairWriter)
      (fromSegments (antiEntropy pairBlake3 pairWriter [pairSegment 0 1])) := by
    rw [hleft]
    exact pairWriter_binds
  obtain ⟨henough, hiff⟩ := converges_iff pairBlake3 pairWriter [pairSegment 0 1] (by decide)
    (by decide) (by decide)
  have hmatch : MatchesByIndex pairWriter [pairSegment 0 1] := (hiff hbinds).mp (by rw [hleft])
  exact ⟨hbinds, hmatch, henough hmatch⟩

/-- The reader's only segment has the hash of the writer's first under the index of its
second: it gets the second, and the first is never sent. -/
theorem first_segment_not_sent :
    DistinctIndices pairWriter ∧ DistinctIndices [pairSegment 1 1] ∧
      (∀ t ∈ [pairSegment 1 1], ∃ s ∈ pairWriter, s.segmentIndex = t.segmentIndex) ∧
      (fromSegments (antiEntropy pairBlake3 pairWriter [pairSegment 1 1])).root pairBlake3 ≠
        (fromSegments pairWriter).root pairBlake3 := by
  have hsent : sent pairBlake3 pairWriter [pairSegment 1 1] = [pairSegment 1 2] := by
    rw [sent, MerkleSegmentTree.segmentsAt_diff]
    decide
  have hleft : antiEntropy pairBlake3 pairWriter [pairSegment 1 1] = [pairSegment 1 2] := by
    rw [antiEntropy, hsent]
    decide
  refine ⟨by decide, by decide, by decide, ?_⟩
  rw [hleft, MerkleSegmentTree.root_eq_nodeAt, MerkleSegmentTree.root_eq_nodeAt, pairWriter_depth,
    pairWriter_nodeAt]
  decide

end CipherOcto.Sync
