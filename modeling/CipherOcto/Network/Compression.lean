import CipherOcto.Encoding.Constraint
import CipherOcto.Lib.Attempt
import CipherOcto.Lib.BitArray
import CipherOcto.Lib.Loop

/-!
# Compression summaries

A bitmap says which of a range of objects a node has. Its bits are counted from the start of
its own range, and `difference` asks the other bitmap for the bit of the same number: the
answer is about another object where the other range starts elsewhere. A Bloom filter marks
the bits of what is inserted, at the remainders of hashes by the number of its bits.

> `returnsMissing_iff`: `difference` returns the positions that are missing iff that other
> bit says the same as the bit of the position, and nothing panics or wraps on the way.
> `sound_iff`: a filter finds what was inserted, and never panics, iff it has a bit to mark
> where it marks any and its numbers fit.

A `usize` has 64 bits, and a summary may come from a peer, with any bytes in it. BLAKE3 is a
parameter, and for the bitmaps so is whether the build checks overflows.
-/

namespace CipherOcto.Network

open Encoding Machine

/-! ## Bitmaps -/

structure BitmapSummary where
  bits : List UInt8
  rangeStart : UInt64
  rangeCount : UInt64
deriving DecidableEq

namespace BitmapSummary

/-- `BitmapSummary::new`. -/
def new (rangeStart rangeCount : UInt64) : BitmapSummary where
  bits := List.replicate ((rangeCount.toNat + 7) / 8) 0
  rangeStart := rangeStart
  rangeCount := rangeCount

/-- `set`. -/
def set (s : BitmapSummary) (i : Nat) : Run Empty BitmapSummary := do
  if i < s.rangeCount.toNat then
    let bits ← BitArray.write s.bits i
    pure { s with bits }
  else pure s

/-- `is_set`. -/
def isSet (s : BitmapSummary) (i : Nat) : Run Empty Bool :=
  if i ≥ s.rangeCount.toNat then pure false else BitArray.read s.bits i

/-- One round of `difference`: the other bitmap is asked if the bit is set in this one. -/
def missingAt (checks : Bool) (s other : BitmapSummary) (i : Nat) : Run Empty (Option Nat) := do
  if ← s.isSet i then
    if ← other.isSet i then pure none
    else
      let position ← build checks (addU 64 s.rangeStart.toNat i)
      pure (some position)
  else pure none

/-- `difference`. -/
def difference (checks : Bool) (s other : BitmapSummary) : Run Empty (List Nat) :=
  Loop.gather (s.missingAt checks other) (List.range s.rangeCount.toNat)

/-! ### What a bitmap says -/

/-- Bit `i` is in the range, and set. -/
def SetAt (s : BitmapSummary) (i : Nat) : Prop :=
  i < s.rangeCount.toNat ∧ BitArray.bit s.bits i = true

instance (s : BitmapSummary) (i : Nat) : Decidable (s.SetAt i) :=
  inferInstanceAs (Decidable (_ ∧ _))

/-- The position is set, wherever the range starts. -/
def Holds (s : BitmapSummary) (p : Nat) : Prop := ∃ i, s.SetAt i ∧ p = s.rangeStart.toNat + i

theorem holds_add {s : BitmapSummary} {i : Nat} : s.Holds (s.rangeStart.toNat + i) ↔ s.SetAt i := by
  constructor
  · rintro ⟨j, hj, heq⟩
    rwa [Nat.add_left_cancel heq]
  · exact fun h => ⟨i, h, rfl⟩

/-- There is a byte for every bit of the range. -/
def Sized (s : BitmapSummary) : Prop := ∀ i < s.rangeCount.toNat, i / 8 < s.bits.length

theorem sized_new (rangeStart rangeCount : UInt64) : (new rangeStart rangeCount).Sized := by
  intro i hi
  have hlen : (new rangeStart rangeCount).bits.length = (rangeCount.toNat + 7) / 8 :=
    List.length_replicate
  have hi : i < rangeCount.toNat := hi
  omega

/-- Setting a bit of the range sets that bit, and one past the range changes nothing. -/
theorem set_of_sized {s : BitmapSummary} (h : s.Sized) (i : Nat) :
    ∃ s', s.set i = .ok s' ∧ s'.Sized ∧ s'.rangeStart = s.rangeStart ∧
      ∀ j, s'.SetAt j ↔ s.SetAt j ∨ j = i ∧ j < s.rangeCount.toNat := by
  unfold set
  split
  next hi =>
    rw [BitArray.write_of_lt (h i hi)]
    refine ⟨_, rfl, fun j hj => ?_, rfl, fun j => ?_⟩
    · exact BitArray.length_mark.symm ▸ h j hj
    · unfold SetAt
      rw [BitArray.bit_mark (h i hi), Bool.or_eq_true, decide_eq_true_eq, and_or_left,
        eq_comm (a := i), and_comm (b := j = i)]
  next hi =>
    refine ⟨s, rfl, h, rfl, fun j => ?_⟩
    rw [or_iff_left]
    rintro ⟨rfl, hj⟩
    exact hi hj

theorem isSet_eq_ok {s : BitmapSummary} {i : Nat} {b : Bool} :
    s.isSet i = .ok b ↔
      (i < s.rangeCount.toNat → i / 8 < s.bits.length) ∧ b = decide (s.SetAt i) := by
  unfold isSet
  split
  next hi =>
    have hi : ¬i < s.rangeCount.toNat := not_lt.mpr hi
    have hset : ¬s.SetAt i := fun h => hi h.1
    rw [decide_eq_false hset, and_iff_right fun h => absurd h hi]
    exact ⟨fun h => (Except.ok.inj h).symm, fun h => congrArg Except.ok h.symm⟩
  next hi =>
    have hi : i < s.rangeCount.toNat := not_le.mp hi
    have hset : decide (s.SetAt i) = BitArray.bit s.bits i :=
      Bool.eq_iff_iff.mpr (decide_eq_true_iff.trans (and_iff_right hi))
    rw [BitArray.read_eq_ok, imp_iff_right hi, hset]

/-- A run that goes on with the bit has found it. -/
theorem isSet_bind_eq_ok {α : Type} {s : BitmapSummary} {i : Nat} {f : Bool → Run Empty α} {x : α} :
    s.isSet i >>= f = .ok x ↔
      (i < s.rangeCount.toNat → i / 8 < s.bits.length) ∧ f (decide (s.SetAt i)) = .ok x := by
  rw [run_bind_eq_ok]
  simp only [isSet_eq_ok]
  constructor
  · rintro ⟨_, ⟨hlen, rfl⟩, h⟩
    exact ⟨hlen, h⟩
  · exact fun h => ⟨_, ⟨h.1, rfl⟩, h.2⟩

/-! ### The difference -/

section

variable {checks : Bool} {a b : BitmapSummary} {i : Nat}

/-- A round that returns has both bits to read, and what it pushes has wrapped where it can. -/
theorem missingAt_eq_ok {o : Option Nat} :
    a.missingAt checks b i = .ok o ↔
      (i < a.rangeCount.toNat → i / 8 < a.bits.length) ∧
      (a.SetAt i → i < b.rangeCount.toNat → i / 8 < b.bits.length) ∧
      (a.SetAt i → ¬b.SetAt i → checks = true → a.rangeStart.toNat + i < 2 ^ 64) ∧
      o = if a.SetAt i ∧ ¬b.SetAt i then some ((a.rangeStart.toNat + i) % 2 ^ 64) else none := by
  have hpure : ∀ x : Option Nat, (pure x : Run Empty (Option Nat)) = .ok o ↔ o = x :=
    fun x => ⟨fun h => (Except.ok.inj h).symm, fun h => congrArg Except.ok h.symm⟩
  unfold missingAt
  rw [isSet_bind_eq_ok]
  refine and_congr_right fun _ => ?_
  by_cases ha : a.SetAt i
  · rw [if_pos (decide_eq_true ha), isSet_bind_eq_ok, imp_iff_right ha]
    refine and_congr_right fun _ => ?_
    by_cases hb : b.SetAt i
    · rw [if_pos (decide_eq_true hb), hpure, if_neg fun h => h.2 hb]
      simp only [hb, not_true_eq_false, false_imp_iff, implies_true, true_and]
    · rw [if_neg (by rw [decide_eq_false hb]; decide), run_bind_eq_ok, if_pos ⟨ha, hb⟩,
        imp_iff_right ha, imp_iff_right hb]
      simp only [build_addU_eq_ok, hpure]
      constructor
      · rintro ⟨_, ⟨hfits, rfl⟩, ho⟩
        exact ⟨hfits, ho⟩
      · exact fun h => ⟨_, ⟨h.1, rfl⟩, h.2⟩
  · rw [if_neg (by rw [decide_eq_false ha]; decide), hpure, if_neg fun h => ha h.1]
    simp only [ha, false_imp_iff, true_and]

/-- What a difference that returns has pushed. -/
theorem mem_difference {diff : List Nat} (h : a.difference checks b = .ok diff) {p : Nat} :
    p ∈ diff ↔ ∃ i, a.SetAt i ∧ ¬b.SetAt i ∧ p = (a.rangeStart.toNat + i) % 2 ^ 64 := by
  obtain ⟨hall, -⟩ := Loop.gather_eq_ok.mp h
  rw [Loop.mem_gather h]
  constructor
  · rintro ⟨i, -, hi⟩
    obtain ⟨-, -, -, ho⟩ := missingAt_eq_ok.mp hi
    by_cases hset : a.SetAt i ∧ ¬b.SetAt i
    · rw [if_pos hset] at ho
      exact ⟨i, hset.1, hset.2, Option.some.inj ho⟩
    · rw [if_neg hset] at ho
      cases ho
  · rintro ⟨i, ha, hb, rfl⟩
    have hmem : i ∈ List.range a.rangeCount.toNat := List.mem_range.mpr ha.1
    obtain ⟨o, ho⟩ := hall i hmem
    obtain ⟨-, -, -, heq⟩ := missingAt_eq_ok.mp ho
    rw [if_pos ⟨ha, hb⟩] at heq
    exact ⟨i, hmem, heq ▸ ho⟩

/-- Where a difference returns. -/
theorem exists_difference_iff :
    (∃ diff, a.difference checks b = .ok diff) ↔
      a.Sized ∧ (∀ i, a.SetAt i → i < b.rangeCount.toNat → i / 8 < b.bits.length) ∧
      (checks = true → ∀ i, a.SetAt i → ¬b.SetAt i → a.rangeStart.toNat + i < 2 ^ 64) := by
  constructor
  · rintro ⟨diff, h⟩
    obtain ⟨hall, -⟩ := Loop.gather_eq_ok.mp h
    have hround : ∀ i < a.rangeCount.toNat, ∃ o, a.missingAt checks b i = .ok o :=
      fun i hi => hall i (List.mem_range.mpr hi)
    refine ⟨fun i hi => ?_, fun i ha => ?_, fun hchecks i ha hb => ?_⟩
    · obtain ⟨o, ho⟩ := hround i hi
      exact (missingAt_eq_ok.mp ho).1 hi
    · obtain ⟨o, ho⟩ := hround i ha.1
      exact (missingAt_eq_ok.mp ho).2.1 ha
    · obtain ⟨o, ho⟩ := hround i ha.1
      exact (missingAt_eq_ok.mp ho).2.2.1 ha hb hchecks
  · rintro ⟨hsized, hother, hfits⟩
    have hround : ∀ i, ∃ o, a.missingAt checks b i = .ok o := fun i =>
      ⟨_, missingAt_eq_ok.mpr
        ⟨hsized i, hother i, fun ha hb hchecks => hfits hchecks i ha hb, rfl⟩⟩
    exact ⟨_, Loop.gather_eq_ok.mpr ⟨fun i _ => hround i, rfl⟩⟩

variable (checks a b)

/-- The difference returns the positions that `a` has and `b` has not, and no others. -/
def ReturnsMissing : Prop :=
  ∃ diff, a.difference checks b = .ok diff ∧ ∀ p, p ∈ diff ↔ a.Holds p ∧ ¬b.Holds p

/-- The bits that are read are there, the bit of `b` that is asked for says what the bit of
the position says, and a position that is missing is a `u64`. -/
structure Comparable : Prop where
  sized : a.Sized
  sizedOther : ∀ i, a.SetAt i → i < b.rangeCount.toNat → i / 8 < b.bits.length
  agrees : ∀ i, a.SetAt i → (b.SetAt i ↔ b.Holds (a.rangeStart.toNat + i))
  fits : ∀ i, a.SetAt i → ¬b.SetAt i → a.rangeStart.toNat + i < 2 ^ 64

/-- **The difference is right iff the bits of one number are about one position**, among the
bits that `a` has set. -/
theorem returnsMissing_iff : ReturnsMissing checks a b ↔ Comparable a b := by
  constructor
  · rintro ⟨diff, hdiff, hall⟩
    obtain ⟨hsized, hother, -⟩ := exists_difference_iff.mp ⟨diff, hdiff⟩
    have hpushed : ∀ i, a.SetAt i → ¬b.SetAt i →
        a.rangeStart.toNat + i < 2 ^ 64 ∧ ¬b.Holds (a.rangeStart.toNat + i) := by
      intro i ha hb
      obtain ⟨⟨j, -, hj⟩, hmissing⟩ := (hall _).mp ((mem_difference hdiff).mpr ⟨i, ha, hb, rfl⟩)
      -- a position that wrapped is below the range
      have hfits : a.rangeStart.toNat + i < 2 ^ 64 := by
        have hstart := a.rangeStart.toNat_lt
        have hi := ha.1.trans a.rangeCount.toNat_lt
        omega
      rw [Nat.mod_eq_of_lt hfits] at hmissing
      exact ⟨hfits, hmissing⟩
    refine ⟨hsized, hother, fun i ha => ⟨fun hb => ?_, fun hb => ?_⟩, fun i ha hb => ?_⟩
    · by_contra hmissing
      obtain ⟨j, hja, hjb, hj⟩ := (mem_difference hdiff).mp
        ((hall _).mpr ⟨holds_add.mpr ha, hmissing⟩)
      rw [Nat.mod_eq_of_lt (hpushed j hja hjb).1] at hj
      exact hjb (Nat.add_left_cancel hj ▸ hb)
    · by_contra hnot
      exact (hpushed i ha hnot).2 hb
    · exact (hpushed i ha hb).1
  · intro h
    obtain ⟨diff, hdiff⟩ := exists_difference_iff.mpr ⟨h.sized, h.sizedOther, fun _ => h.fits⟩
    refine ⟨diff, hdiff, fun p => ?_⟩
    rw [mem_difference hdiff]
    constructor
    · rintro ⟨i, ha, hb, rfl⟩
      rw [Nat.mod_eq_of_lt (h.fits i ha hb), ← h.agrees i ha]
      exact ⟨holds_add.mpr ha, hb⟩
    · rintro ⟨⟨i, ha, rfl⟩, hmissing⟩
      have hb : ¬b.SetAt i := fun hb => hmissing ((h.agrees i ha).mp hb)
      exact ⟨i, ha, hb, (Nat.mod_eq_of_lt (h.fits i ha hb)).symm⟩

/-- Bitmaps of ranges with one start are compared position by position. -/
theorem comparable_of_start_eq (ha : a.Sized) (hb : b.Sized) (hstart : a.rangeStart = b.rangeStart)
    (hend : a.rangeStart.toNat + a.rangeCount.toNat ≤ 2 ^ 64) : Comparable a b where
  sized := ha
  sizedOther i _ hi := hb i hi
  agrees i _ := by rw [hstart, holds_add]
  fits i hi _ := by
    have hlt := hi.1
    omega

/-- Both have object 5, the second one at the start of its range. -/
theorem difference_of_other_start :
    let a : BitmapSummary := ⟨[0b00100000], 0, 8⟩
    let b : BitmapSummary := ⟨[0b00000001], 5, 8⟩
    a.difference true b = .ok [5] ∧ a.Holds 5 ∧ b.Holds 5 ∧ ¬ReturnsMissing true a b := by
  intro a b
  have hdiff : a.difference true b = .ok [5] := by decide
  have hb : b.Holds 5 := ⟨0, by decide, rfl⟩
  refine ⟨hdiff, ⟨5, by decide, rfl⟩, hb, ?_⟩
  rintro ⟨diff, hdiff', hall⟩
  cases hdiff.symm.trans hdiff'
  exact ((hall 5).mp List.mem_cons_self).2 hb

end

end BitmapSummary

/-! ## Bloom filters -/

structure BloomSummary where
  bits : List UInt8
  hashCount : UInt64
  itemCount : UInt32
deriving DecidableEq

namespace BloomSummary

/-- `BloomSummary::with_params`. -/
def withParams (sizeBytes : Nat) (hashCount : UInt64) : BloomSummary :=
  ⟨List.replicate sizeBytes 0, hashCount, 0⟩

def defaultBloomSize : Nat := 256
def defaultBloomHashCount : UInt64 := 3

/-- `BloomSummary::new`. -/
def new : BloomSummary := withParams defaultBloomSize defaultBloomHashCount

section

variable (blake3 : List UInt8 → Bytes32)

/-- `bloom_hash`: the first 8 bytes of the hash. -/
def bloomHash (objectHash : Bytes32) (iteration : Nat) : Nat :=
  Bytes.beNat ((blake3 (objectHash.toList ++ Bytes.toBe 8 iteration)).toList.take 8)

/-- `self.bloom_hash(object_hash, i) % total_bits`. -/
def bitIndex (objectHash : Bytes32) (totalBits i : Nat) : Run Empty Nat :=
  if totalBits = 0 then .error .panic else .ok (bloomHash blake3 objectHash i % totalBits)

/-- One round of the loop of `insert`. -/
def setRound (objectHash : Bytes32) (totalBits : Nat) (bits : List UInt8) (i : Nat) :
    Run Empty (List UInt8) := do
  let k ← bitIndex blake3 objectHash totalBits i
  BitArray.write bits k

/-- One round of the loop of `might_contain`. -/
def testRound (s : BloomSummary) (objectHash : Bytes32) (totalBits i : Nat) : Run Empty Bool := do
  let k ← bitIndex blake3 objectHash totalBits i
  BitArray.read s.bits k

/-- `insert`. -/
def insert (s : BloomSummary) (objectHash : Bytes32) : Attempt Empty BloomSummary := do
  let totalBits ← mulU 64 s.bits.length 8
  let bits ← Attempt.lift
    ((List.range s.hashCount.toNat).foldlM (setRound blake3 objectHash totalBits) s.bits)
  let itemCount ← addU 32 s.itemCount.toNat 1
  pure { s with bits, itemCount := UInt32.ofNat itemCount }

/-- `might_contain`: the first bit that is not set decides. -/
def mightContain (s : BloomSummary) (objectHash : Bytes32) : Attempt Empty Bool := do
  let totalBits ← mulU 64 s.bits.length 8
  Attempt.lift ((List.range s.hashCount.toNat).allM (s.testRound blake3 objectHash totalBits))

/-- One insert after the other. -/
def insertAll (s : BloomSummary) (objectHashes : List Bytes32) : Attempt Empty BloomSummary :=
  objectHashes.foldlM (insert blake3) s

end

/-! ### Rounds -/

section

variable {blake3 : List UInt8 → Bytes32} {objectHash : Bytes32} {totalBits : Nat}

theorem bitIndex_of_pos (h : 0 < totalBits) (i : Nat) :
    bitIndex blake3 objectHash totalBits i = .ok (bloomHash blake3 objectHash i % totalBits) :=
  if_neg h.ne'

/-- A filter that has any bytes has one for every bit. -/
theorem bitIndex_lt (n : Nat) (h : 0 < totalBits) (htotal : totalBits = n * 8) (x : Nat) :
    x % totalBits / 8 < n := by
  have hlt := Nat.mod_lt x h
  omega

theorem foldlM_setRound (h : 0 < totalBits) : ∀ (l : List Nat) (bits : List UInt8),
    totalBits = bits.length * 8 →
    l.foldlM (setRound blake3 objectHash totalBits) bits =
      .ok ((l.map fun i => bloomHash blake3 objectHash i % totalBits).foldl BitArray.mark bits)
  | [], bits, _ => rfl
  | i :: l, bits, htotal => by
    have hlt := bitIndex_lt bits.length h htotal (bloomHash blake3 objectHash i)
    rw [List.foldlM_cons, setRound, bitIndex_of_pos h, ok_bind, BitArray.write_of_lt hlt, ok_bind,
      foldlM_setRound h l _ (by rw [BitArray.length_mark, htotal])]
    rfl

theorem allM_testRound {s : BloomSummary} (h : 0 < totalBits)
    (htotal : totalBits = s.bits.length * 8) :
    ∀ l : List Nat, l.allM (s.testRound blake3 objectHash totalBits) =
      .ok ((l.map fun i => bloomHash blake3 objectHash i % totalBits).all (BitArray.bit s.bits))
  | [] => rfl
  | i :: l => by
    have hlt := bitIndex_lt s.bits.length h htotal (bloomHash blake3 objectHash i)
    have hround : s.testRound blake3 objectHash totalBits i =
        .ok (BitArray.bit s.bits (bloomHash blake3 objectHash i % totalBits)) := by
      rw [testRound, bitIndex_of_pos h, ok_bind]
      exact BitArray.read_eq_ok.mpr ⟨hlt, rfl⟩
    rw [List.allM_cons, hround, ok_bind, allM_testRound h htotal l, List.map_cons, List.all_cons]
    cases BitArray.bit s.bits (bloomHash blake3 objectHash i % totalBits) with
    | false => rfl
    | true => rfl

end

/-! ### Runs -/

section

variable (blake3 : List UInt8 → Bytes32)

/-- The bits of a hash. -/
def positions (s : BloomSummary) (objectHash : Bytes32) : List Nat :=
  (List.range s.hashCount.toNat).map fun i => bloomHash blake3 objectHash i % (s.bits.length * 8)

/-- The filter after an insert. -/
def marked (s : BloomSummary) (objectHash : Bytes32) : BloomSummary :=
  { s with bits := (s.positions blake3 objectHash).foldl BitArray.mark s.bits
           itemCount := s.itemCount + 1 }

/-- The number of bits is a word, and there are some where one is asked for. -/
structure Fit (s : BloomSummary) : Prop where
  totalBits : s.bits.length * 8 < 2 ^ 64
  nonempty : s.hashCount = 0 ∨ s.bits ≠ []

variable {blake3} {s : BloomSummary}

theorem totalBits_pos (h : s.bits ≠ []) : 0 < s.bits.length * 8 := by
  have hlen := List.length_pos_iff.mpr h
  omega

theorem length_marked (h : Bytes32) : (s.marked blake3 h).bits.length = s.bits.length :=
  BitArray.length_foldl_mark _ _

theorem positions_marked (h k : Bytes32) :
    (s.marked blake3 h).positions blake3 k = s.positions blake3 k := by
  rw [positions, length_marked]
  rfl

theorem Fit.marked (hfit : s.Fit) (h : Bytes32) : (s.marked blake3 h).Fit where
  totalBits := (length_marked h).symm ▸ hfit.totalBits
  nonempty := by
    rw [← List.length_pos_iff, length_marked, List.length_pos_iff]
    exact hfit.nonempty

theorem Fit.setRounds (hfit : s.Fit) (h : Bytes32) :
    (List.range s.hashCount.toNat).foldlM (setRound blake3 h (s.bits.length * 8)) s.bits =
      .ok (s.marked blake3 h).bits := by
  rcases hfit.nonempty with hzero | hne
  · rw [BloomSummary.marked, positions, hzero]
    rfl
  · exact foldlM_setRound (totalBits_pos hne) _ _ rfl

theorem Fit.testRounds (hfit : s.Fit) (h : Bytes32) :
    (List.range s.hashCount.toNat).allM (s.testRound blake3 h (s.bits.length * 8)) =
      .ok ((s.positions blake3 h).all (BitArray.bit s.bits)) := by
  rcases hfit.nonempty with hzero | hne
  · rw [positions, hzero]
    rfl
  · exact allM_testRound (totalBits_pos hne) rfl _

/-- A query of a filter that fits looks at the bits of the hash. -/
theorem Fit.mightContain_eq (hfit : s.Fit) (h : Bytes32) :
    s.mightContain blake3 h = pure ((s.positions blake3 h).all (BitArray.bit s.bits)) := by
  rw [mightContain, mulU_of_lt hfit.totalBits, Attempt.tracked_pure_bind, hfit.testRounds]
  rfl

/-- So does an insert, which counts it. -/
theorem Fit.insert_eq (hfit : s.Fit) (h : Bytes32) :
    s.insert blake3 h =
      ExceptT.mk ⟨.ok (s.marked blake3 h), decide (2 ^ 32 ≤ s.itemCount.toNat + 1)⟩ := by
  rw [insert, mulU_of_lt hfit.totalBits, Attempt.tracked_pure_bind, hfit.setRounds,
    Attempt.lift_ok_bind]
  have hcount : UInt32.ofNat ((s.itemCount.toNat + 1) % 2 ^ 32) = s.itemCount + 1 := by
    rw [← UInt32.toNat_inj, UInt32.toNat_ofNat', UInt32.toNat_add, Nat.mod_mod]
    rfl
  rw [BloomSummary.marked, ← hcount, addU]
  cases decide (2 ^ 32 ≤ s.itemCount.toNat + 1) with
  | false => rfl
  | true => rfl

/-- The filter after several inserts. -/
theorem Fit.insertAll_val : ∀ {hs : List Bytes32} {s : BloomSummary}, s.Fit →
    (s.insertAll blake3 hs).val = .ok (hs.foldl (BloomSummary.marked blake3) s)
  | [], _, _ => rfl
  | h :: hs, s, hfit => by
    rw [insertAll, List.foldlM_cons, Attempt.val_bind, hfit.insert_eq]
    exact (hfit.marked h).insertAll_val

/-- The count of a run overflows where the number of inserts does not fit. -/
theorem Fit.insertAll_ovf : ∀ {hs : List Bytes32} {s : BloomSummary}, s.Fit →
    ((s.insertAll blake3 hs).ovf = false ↔ s.itemCount.toNat + hs.length < 2 ^ 32)
  | [], s, _ => iff_of_true rfl s.itemCount.toNat_lt
  | h :: hs, s, hfit => by
    have hrest : ((s.marked blake3 h).insertAll blake3 hs).ovf = false ↔
        (s.itemCount + 1).toNat + hs.length < 2 ^ 32 := (hfit.marked h).insertAll_ovf
    have hadd : (s.itemCount + 1).toNat = (s.itemCount.toNat + 1) % 2 ^ 32 := UInt32.toNat_add ..
    have hstep : (s.insertAll blake3 (h :: hs)).ovf = false ↔
        s.itemCount.toNat + 1 < 2 ^ 32 ∧ ((s.marked blake3 h).insertAll blake3 hs).ovf = false := by
      rw [insertAll, List.foldlM_cons, Attempt.ovf_bind_eq_false, hfit.insert_eq]
      refine and_congr (decide_eq_false_iff_not.trans not_le) ⟨fun h => h _ rfl, ?_⟩
      intro hovf s' hs'
      cases hs'
      exact hovf
    have hcount := s.itemCount.toNat_lt
    rw [hstep, hrest, hadd, List.length_cons]
    omega

/-- The bits of a hash are in the filter. -/
theorem Fit.position_lt (hfit : s.Fit) {h : Bytes32} {k : Nat} (hk : k ∈ s.positions blake3 h) :
    k / 8 < s.bits.length := by
  obtain ⟨i, hi, rfl⟩ := List.mem_map.mp hk
  have hcount : s.hashCount ≠ 0 := by
    rintro hzero
    rw [hzero] at hi
    cases hi
  exact bitIndex_lt s.bits.length (totalBits_pos (hfit.nonempty.resolve_left hcount)) rfl _

theorem positions_foldl_marked (hs : List Bytes32) (s : BloomSummary) (k : Bytes32) :
    (hs.foldl (BloomSummary.marked blake3) s).positions blake3 k = s.positions blake3 k := by
  induction hs generalizing s with
  | nil => rfl
  | cons h hs ih => rw [List.foldl_cons, ih, positions_marked]

theorem Fit.foldl_marked (hfit : s.Fit) (hs : List Bytes32) :
    (hs.foldl (BloomSummary.marked blake3) s).Fit := by
  induction hs generalizing s with
  | nil => exact hfit
  | cons h hs ih => exact ih (hfit.marked h)

/-- **What a run sets**: the bits that were set, and those of the hashes. -/
theorem Fit.bit_foldl_marked (hfit : s.Fit) (hs : List Bytes32) (j : Nat) :
    BitArray.bit (hs.foldl (BloomSummary.marked blake3) s).bits j = true ↔
      BitArray.bit s.bits j = true ∨ ∃ h ∈ hs, j ∈ s.positions blake3 h := by
  induction hs generalizing s with
  | nil => exact (or_iff_left fun ⟨_, h, _⟩ => List.not_mem_nil h).symm
  | cons h hs ih =>
    have hmark : BitArray.bit (s.marked blake3 h).bits j = true ↔
        BitArray.bit s.bits j = true ∨ j ∈ s.positions blake3 h :=
      BitArray.bit_foldl_mark fun k => hfit.position_lt
    rw [List.foldl_cons, ih (hfit.marked h), hmark, List.exists_mem_cons_iff, or_assoc]
    simp only [positions_marked]

end

/-- A bit is looked for among none: the remainder panics. -/
theorem mightContain_of_nil {blake3 : List UInt8 → Bytes32} {s : BloomSummary}
    (hbits : s.bits = []) (hcount : s.hashCount ≠ 0) (k : Bytes32) :
    (s.mightContain blake3 k).val = .error .panic := by
  obtain ⟨n, hn⟩ : ∃ n, s.hashCount.toNat = n + 1 :=
    Nat.exists_eq_add_one_of_ne_zero fun h => hcount (UInt64.toNat_inj.mp h)
  rw [mightContain, hbits, mulU_of_lt (by decide), Attempt.tracked_pure_bind, Attempt.val_lift, hn,
    List.range_succ_eq_map, List.allM_cons]
  rfl

/-- Nothing panics or overflows, and what is inserted or was found before is found. -/
structure Sound (blake3 : List UInt8 → Bytes32) (s : BloomSummary) (hs : List Bytes32) : Prop where
  before : ∀ k, ∃ b, s.mightContain blake3 k = pure b
  after : ∃ s', s.insertAll blake3 hs = pure s' ∧ ∀ k, ∃ b, s'.mightContain blake3 k = pure b ∧
    (k ∈ hs ∨ s.mightContain blake3 k = pure true → b = true)

/-- **A filter has no false negatives iff it has a bit to set** and its numbers fit. -/
theorem sound_iff (blake3 : List UInt8 → Bytes32) (s : BloomSummary) (hs : List Bytes32) :
    Sound blake3 s hs ↔
      s.bits.length * 8 < 2 ^ 64 ∧ (s.hashCount = 0 ∨ s.bits ≠ []) ∧
        s.itemCount.toNat + hs.length < 2 ^ 32 := by
  constructor
  · intro h
    obtain ⟨b, hquery⟩ := h.before (Vector.replicate 32 0)
    obtain ⟨hval, hovf⟩ := Attempt.eq_pure_iff.mp hquery
    have htotal : s.bits.length * 8 < 2 ^ 64 :=
      not_le.mp (of_decide_eq_false
        ((Attempt.ovf_tracked _).symm.trans (Attempt.ovf_bind_eq_false.mp hovf).1))
    have hne : s.hashCount = 0 ∨ s.bits ≠ [] := by
      by_contra hnone
      obtain ⟨hcount, hbits⟩ := not_or.mp hnone
      rw [mightContain_of_nil (not_not.mp hbits) hcount] at hval
      cases hval
    obtain ⟨s', hrun, -⟩ := h.after
    have hfit : s.Fit := ⟨htotal, hne⟩
    exact ⟨htotal, hne, hfit.insertAll_ovf.mp (Attempt.eq_pure_iff.mp hrun).2⟩
  · rintro ⟨htotal, hne, hcount⟩
    have hfit : s.Fit := ⟨htotal, hne⟩
    refine ⟨fun k => ⟨_, hfit.mightContain_eq k⟩, _,
      Attempt.eq_pure_iff.mpr ⟨hfit.insertAll_val, hfit.insertAll_ovf.mpr hcount⟩, fun k => ?_⟩
    rw [(hfit.foldl_marked hs).mightContain_eq, positions_foldl_marked]
    refine ⟨_, rfl, fun hk => ?_⟩
    rw [List.all_eq_true]
    intro j hj
    rw [hfit.bit_foldl_marked]
    rcases hk with hmem | hbefore
    · exact Or.inr ⟨k, hmem, hj⟩
    · rw [hfit.mightContain_eq, Attempt.eq_pure_iff] at hbefore
      have hall := Except.ok.inj hbefore.1
      exact Or.inl (List.all_eq_true.mp hall j hj)

/-- A filter of no bytes, with three bits for every hash. -/
theorem withParams_zero_panics :
    let s := withParams 0 3
    let blake3 : List UInt8 → Bytes32 := fun _ => Vector.replicate 32 0
    (s.insertAll blake3 [Vector.replicate 32 0xAA]).val = .error .panic ∧
      (s.mightContain blake3 (Vector.replicate 32 0xAA)).val = .error .panic ∧
      ¬Sound blake3 s [Vector.replicate 32 0xAA] := by
  intro s blake3
  have hquery : (s.mightContain blake3 (Vector.replicate 32 0xAA)).val = .error .panic := by decide
  refine ⟨by decide, hquery, fun h => ?_⟩
  obtain ⟨b, hb⟩ := h.before (Vector.replicate 32 0xAA)
  rw [(Attempt.eq_pure_iff.mp hb).1] at hquery
  cases hquery

end BloomSummary
end CipherOcto.Network
