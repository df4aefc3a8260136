import CipherOcto.Lib.Bytes
import Mathlib.Data.Nat.Bitwise

/-!
# Cyclic redundancy checks

The reflected form: a register is shifted down a bit at a time, and the polynomial is added
when the bit that falls out differs from the message's. If the polynomial has its top bit, the
bit that fell out can be read off the result, so that a register as it is in the end tells how
it was, up to what was taken in:

> `agree_of_run_eq`: registers that end alike agree where they began, but for the messages.
> `eq_of_run_burst`: messages that differ within `w` bits have different checks.
> `run_complement`: a message followed by the complement of its check ends at one constant.
-/

namespace CipherOcto.Crc

variable {w : Nat} {poly : BitVec w}

/-! ## Registers -/

/-- A register takes in a bit. -/
def take (poly c : BitVec w) (b : Bool) : BitVec w :=
  if c.getLsbD 0 ^^ b then (c >>> 1) ^^^ poly else c >>> 1

/-- A register takes in a message. -/
def run (poly : BitVec w) : BitVec w → List Bool → BitVec w := List.foldl (take poly)

/-- A register is shifted without a message. -/
def shift (poly c : BitVec w) : BitVec w :=
  if c.getLsbD 0 then (c >>> 1) ^^^ poly else c >>> 1

/-- The low bits of a number, from the lowest. -/
def bits (k n : Nat) : List Bool := (List.range k).map n.testBit

@[simp] theorem length_bits (k n : Nat) : (bits k n).length = k := by
  rw [bits, List.length_map, List.length_range]

theorem run_append (c : BitVec w) (xs ys : List Bool) :
    run poly c (xs ++ ys) = run poly (run poly c xs) ys := List.foldl_append

theorem bits_succ (k n : Nat) : bits (k + 1) n = n.testBit 0 :: bits k (n >>> 1) := by
  unfold bits
  rw [List.range_succ_eq_map, List.map_cons, List.map_map]
  congr 1
  refine List.map_congr_left fun i _ => ?_
  rw [Function.comp_apply, Nat.testBit_shiftRight, Nat.succ_eq_one_add]

theorem bits_add (j k n : Nat) : bits (j + k) n = bits j n ++ bits k (n >>> j) := by
  unfold bits
  rw [List.range_add, List.map_append, List.map_map]
  congr 1
  refine List.map_congr_left fun i _ => ?_
  rw [Function.comp_apply, Nat.testBit_shiftRight]

/-- The low bits are those of the remainder. -/
theorem bits_mod (k n : Nat) : bits k (n % 2 ^ k) = bits k n := by
  refine List.map_congr_left fun i hi => ?_
  rw [Nat.testBit_mod_two_pow, decide_eq_true (List.mem_range.mp hi), Bool.true_and]

theorem bits_inj {k m n : Nat} (hm : m < 2 ^ k) (hn : n < 2 ^ k) (h : bits k m = bits k n) :
    m = n := by
  refine Nat.eq_of_testBit_eq fun i => ?_
  by_cases hi : i < k
  · exact List.map_inj_left.mp h i (List.mem_range.mpr hi)
  · have hle : 2 ^ k ≤ 2 ^ i := Nat.pow_le_pow_right Nat.two_pos (Nat.not_lt.mp hi)
    rw [Nat.testBit_lt_two_pow (hm.trans_le hle), Nat.testBit_lt_two_pow (hn.trans_le hle)]

/-- Shifting the sum takes in the low bit of one of them. -/
theorem shift_xor (c y : BitVec w) :
    shift poly (c ^^^ y) = take poly c (y.getLsbD 0) ^^^ (y >>> 1) := by
  unfold shift take
  rw [BitVec.getLsbD_xor, BitVec.ushiftRight_xor_distrib]
  split
  next => rw [BitVec.xor_assoc, BitVec.xor_comm (y >>> 1), ← BitVec.xor_assoc]
  next => rfl

/-- Shifts of a sum take in a word. -/
theorem iterate_shift_xor (k : Nat) (c y : BitVec w) :
    (shift poly)^[k] (c ^^^ y) = run poly c (bits k y.toNat) ^^^ (y >>> k) := by
  induction k generalizing c y with
  | zero => rfl
  | succ k ih =>
    rw [Function.iterate_succ_apply, shift_xor, ih, bits_succ, BitVec.toNat_ushiftRight,
      ← BitVec.shiftRight_add, Nat.add_comm 1 k]
    rfl

/-- **Followed by its complement**, a register ends at one constant. -/
theorem run_complement (c : BitVec w) :
    run poly c (bits w (~~~c).toNat) = (shift poly)^[w] (BitVec.allOnes w) := by
  have hword : (shift poly)^[w] (c ^^^ ~~~c) =
      run poly c (bits w (~~~c).toNat) ^^^ (~~~c >>> w) := iterate_shift_xor w c (~~~c)
  have hout : (~~~c) >>> w = 0#w := by
    refine BitVec.eq_of_toNat_eq ?_
    rw [BitVec.toNat_ushiftRight, BitVec.toNat_ofNat, Nat.zero_mod, Nat.shiftRight_eq_div_pow]
    exact Nat.div_eq_of_lt (~~~c).isLt
  rw [hout, BitVec.xor_zero, ← BitVec.not_xor_right, BitVec.xor_self, BitVec.not_zero] at hword
  exact hword.symm

/-! ## Bursts -/

/-- The top bit of the result is the bit that fell out, against the message's. -/
theorem getLsbD_take_top (hpoly : poly.getLsbD (w - 1) = true) (c : BitVec w) (b : Bool) :
    (take poly c b).getLsbD (w - 1) = (c.getLsbD 0 ^^ b) := by
  have hout : (c >>> 1).getLsbD (w - 1) = false := by
    rw [BitVec.getLsbD_ushiftRight]
    exact BitVec.getLsbD_of_ge _ _ (by omega)
  unfold take
  split
  next h => rw [BitVec.getLsbD_xor, hout, hpoly, h]; rfl
  next h => rw [hout, Bool.not_eq_true _ |>.mp h]

theorem getLsbD_take (c : BitVec w) (b : Bool) (i : Nat) :
    (take poly c b).getLsbD i =
      (c.getLsbD (i + 1) ^^ ((c.getLsbD 0 ^^ b) && poly.getLsbD i)) := by
  unfold take
  split
  next h => rw [BitVec.getLsbD_xor, BitVec.getLsbD_ushiftRight, h, Nat.add_comm, Bool.true_and]
  next h =>
    rw [BitVec.getLsbD_ushiftRight, Bool.not_eq_true _ |>.mp h, Nat.add_comm, Bool.false_and,
      Bool.xor_false]

/-- **Registers that end alike** agree where they began, but for what they took in. -/
theorem agree_of_run_eq (hw : 0 < w) (hpoly : poly.getLsbD (w - 1) = true) {c d : BitVec w}
    {xs ys : List Bool} (hlen : xs.length = ys.length) (hle : xs.length ≤ w)
    (h : run poly c xs = run poly d ys) (i : Nat) :
    (c.getLsbD i ^^ xs.getD i false) = (d.getLsbD i ^^ ys.getD i false) := by
  induction xs generalizing c d ys i with
  | nil =>
    obtain rfl := List.length_eq_zero_iff.mp hlen.symm
    rw [show c = d from h]
  | cons x xs ih =>
    obtain ⟨y, ys, rfl⟩ := List.exists_cons_of_length_eq_add_one hlen.symm
    rw [List.length_cons] at hle
    have hrest := ih (Nat.succ.inj hlen) (Nat.le_of_succ_le hle) h
    -- the top bit is past both messages, so the bits that fell out differ as the messages do
    have hfell : (c.getLsbD 0 ^^ x) = (d.getLsbD 0 ^^ y) := by
      have htop := hrest (w - 1)
      have hx : xs.getD (w - 1) false = false := List.getD_eq_default _ _ (by omega)
      have hy : ys.getD (w - 1) false = false := by
        refine List.getD_eq_default _ _ ?_
        have hlen' := Nat.succ.inj hlen
        omega
      rwa [hx, hy, getLsbD_take_top hpoly, getLsbD_take_top hpoly, Bool.xor_false,
        Bool.xor_false] at htop
    cases i with
    | zero => exact hfell
    | succ i =>
      have hi := hrest i
      rwa [getLsbD_take, getLsbD_take, hfell, Bool.xor_right_comm, Bool.xor_right_comm (d.getLsbD _),
        Bool.xor_left_inj] at hi

/-- What a register took in within its width is known from where it began and ended. -/
theorem eq_of_run_eq (hw : 0 < w) (hpoly : poly.getLsbD (w - 1) = true) {c : BitVec w}
    {xs ys : List Bool} (hlen : xs.length = ys.length) (hle : xs.length ≤ w)
    (h : run poly c xs = run poly c ys) : xs = ys := by
  refine List.ext_getElem hlen fun i hx hy => ?_
  have hi := agree_of_run_eq hw hpoly hlen hle h i
  rwa [Bool.xor_right_inj, List.getD_eq_getElem _ _ hx, List.getD_eq_getElem _ _ hy] at hi

/-- A register is known from where it ends. -/
theorem run_injective (hw : 0 < w) (hpoly : poly.getLsbD (w - 1) = true) (xs : List Bool) :
    Function.Injective fun c => run poly c xs := by
  induction xs with
  | nil => exact fun c d h => h
  | cons x xs ih =>
    intro c d h
    have hfirst : run poly c [x] = run poly d [x] := ih h
    refine BitVec.eq_of_getLsbD_eq fun i _ => ?_
    have hi := agree_of_run_eq hw hpoly rfl (show [x].length ≤ w from hw) hfirst i
    rwa [Bool.xor_left_inj] at hi

/-- **A burst** no longer than the register changes the check. -/
theorem eq_of_run_burst (hw : 0 < w) (hpoly : poly.getLsbD (w - 1) = true) {c : BitVec w}
    {front xs ys back : List Bool} (hlen : xs.length = ys.length) (hle : xs.length ≤ w)
    (h : run poly c (front ++ xs ++ back) = run poly c (front ++ ys ++ back)) : xs = ys := by
  rw [run_append, run_append, run_append, run_append] at h
  exact eq_of_run_eq hw hpoly hlen hle (run_injective hw hpoly back h)

/-! ## Bytes -/

/-- The bits of a byte string, each byte's from the lowest. -/
def bitsOf (bs : List UInt8) : List Bool := bs.flatMap fun b => bits 8 b.toNat

theorem length_bitsOf (bs : List UInt8) : (bitsOf bs).length = 8 * bs.length := by
  induction bs with
  | nil => rfl
  | cons b bs ih =>
    rw [bitsOf, List.flatMap_cons, List.length_append, length_bits, List.length_cons]
    rw [bitsOf] at ih
    omega

theorem bitsOf_append (xs ys : List UInt8) : bitsOf (xs ++ ys) = bitsOf xs ++ bitsOf ys :=
  List.flatMap_append

/-- The bits of a byte string are those of the number it is, the lowest byte first. -/
theorem bitsOf_eq_bits (bs : List UInt8) : bitsOf bs = bits (8 * bs.length) (Bytes.leNat bs) := by
  induction bs with
  | nil => rfl
  | cons b bs ih =>
    have hb : b.toNat < 2 ^ 8 := b.toNat_lt
    have hlow : (Bytes.leNat (b :: bs)) % 2 ^ 8 = b.toNat := by
      rw [Bytes.leNat]
      omega
    have hhigh : Bytes.leNat (b :: bs) >>> 8 = Bytes.leNat bs := by
      rw [Bytes.leNat, Nat.shiftRight_eq_div_pow]
      omega
    rw [List.length_cons, Nat.mul_add, Nat.add_comm, bits_add, hhigh, ← ih, ← bits_mod, hlow]
    rfl

theorem bitsOf_injective : Function.Injective bitsOf := by
  intro xs ys h
  have hlen : xs.length = ys.length := by
    have hbits := congrArg List.length h
    rw [length_bitsOf, length_bitsOf] at hbits
    omega
  induction xs generalizing ys with
  | nil => exact (List.length_eq_zero_iff.mp hlen.symm).symm
  | cons x xs ih =>
    obtain ⟨y, ys, rfl⟩ := List.exists_cons_of_length_eq_add_one hlen.symm
    have hsplit : bits 8 x.toNat ++ bitsOf xs = bits 8 y.toNat ++ bitsOf ys := h
    obtain ⟨hhead, htail⟩ := List.append_inj hsplit (by rw [length_bits, length_bits])
    rw [UInt8.toNat_inj.mp (bits_inj x.toNat_lt y.toNat_lt hhead), ih htail (Nat.succ.inj hlen)]

end CipherOcto.Crc
