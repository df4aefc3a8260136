import CipherOcto.Lib.Machine
import CipherOcto.Lib.Bytes
import CipherOcto.Lib.Scaled

/-!
# `Dqa`: deterministic quant arithmetic

`determin/src/dqa.rs` is fixed-point decimal arithmetic: an `i64` numerator
and a scale, standing for `value * 10^-scale`. This file has the type, the
four operations, the comparison and the storage record `DqaEncoding`, as the
source computes them: alignment and products in `i128`, one half-even
rounding, a range check back to `i64`, and a canonicalisation of every result.

The numerator carries its `i64` bounds and the scale its `u8` bound. Scales
above 18 are representable (the fields are public) and reach the power tables
out of bounds, so the operations run in `Run DqaError`, where that is a panic.
The products of two `i64` and every rounding intermediate fit in `i128`, so
these are plain integers; the one checked multiplication (`dqa_div`) is kept.

Every operation ends in `finish`: narrow to `i64`, then strip zeros. What it
returns depends on the number it was handed and not on the padding:

> `finish_of_rescale`: if `finish` accepts a padded mantissa, it accepts the
> unpadded one and returns the same record.

From this and the alignment and rounding equations (`dqaAdd_eq`, `dqaSub_eq`,
`dqaMul_eq`) follows the file's result: operands that went over the wire, and
were canonicalised on the way, compute what the originals did
(`canonicalize_operands`).
-/

namespace CipherOcto.Determin

open Machine

inductive DqaError where
  | overflow
  | divisionByZero
  | invalidScale
  | invalidInput
  | invalidEncoding
deriving Repr, DecidableEq

/-- `value * 10^-scale`, an `i64` and a `u8`. -/
@[ext]
structure Dqa where
  value : Int
  scale : Nat
  value_inI : InI 64 value
  scale_lt : scale < 256
deriving DecidableEq

theorem zero_scale_lt : 0 < 256 := by norm_num

theorem wrapped_scale_lt (scale : Nat) : scale % 256 < 256 := Nat.mod_lt scale (by norm_num)

def maxScale : Nat := 18

/-- `POW10`, the `i128` table. -/
def pow10 : List Int := [
  1,
  10,
  100,
  1000,
  10000,
  100000,
  1000000,
  10000000,
  100000000,
  1000000000,
  10000000000,
  100000000000,
  1000000000000,
  10000000000000,
  100000000000000,
  1000000000000000,
  10000000000000000,
  100000000000000000,
  1000000000000000000,
  10000000000000000000,
  100000000000000000000,
  1000000000000000000000,
  10000000000000000000000,
  100000000000000000000000,
  1000000000000000000000000,
  10000000000000000000000000,
  100000000000000000000000000,
  1000000000000000000000000000,
  10000000000000000000000000000,
  100000000000000000000000000000,
  1000000000000000000000000000000,
  10000000000000000000000000000000,
  100000000000000000000000000000000,
  1000000000000000000000000000000000,
  10000000000000000000000000000000000,
  100000000000000000000000000000000000,
  1000000000000000000000000000000000000]

/-- `POW10_I64`, the table for scale differences. -/
def pow10I64 : List Int := [
  1,
  10,
  100,
  1000,
  10000,
  100000,
  1000000,
  10000000,
  100000000,
  1000000000,
  10000000000,
  100000000000,
  1000000000000,
  10000000000000,
  100000000000000,
  1000000000000000,
  10000000000000000,
  100000000000000000,
  1000000000000000000]

theorem pow10_eq_map : pow10 = (List.range 37).map fun i => 10 ^ i := by decide +kernel

theorem pow10I64_eq_map : pow10I64 = (List.range 19).map fun i => 10 ^ i := by decide +kernel

theorem index_pow10 {ε : Type} {i : Nat} (h : i ≤ 36) :
    (index pow10 i : Run ε Int) = .ok (10 ^ i) := by
  unfold index
  rw [pow10_eq_map, List.getElem?_map, List.getElem?_range (by omega)]
  rfl

theorem index_pow10_panic {ε : Type} {i : Nat} (h : 36 < i) :
    (index pow10 i : Run ε Int) = .error .panic := by
  have hlen : pow10.length = 37 := by decide
  unfold index
  rw [List.getElem?_eq_none (by omega)]

theorem index_pow10I64 {ε : Type} {i : Nat} (h : i ≤ 18) :
    (index pow10I64 i : Run ε Int) = .ok (10 ^ i) := by
  unfold index
  rw [pow10I64_eq_map, List.getElem?_map, List.getElem?_range (by omega)]
  rfl

namespace Dqa

/-- The number the record stands for. -/
def val (d : Dqa) : ℚ := Scaled.val d.value d.scale

/-- `canonicalize`: `(0, 0)` for zero, else strip zeros while the scale lasts. -/
def canonicalize (d : Dqa) : Dqa where
  value := (Scaled.canon d.value d.scale).1
  scale := (Scaled.canon d.value d.scale).2
  value_inI := by
    obtain ⟨k, -, hm⟩ := Scaled.canon_spec d.value d.scale
    have h := d.value_inI
    rw [hm] at h
    exact InI.of_mul (Scaled.ten_pow_pos k) h
  scale_lt := lt_of_le_of_lt (Scaled.canon_scale_le d.value d.scale) d.scale_lt

theorem canonicalize_value_inI (d : Dqa) : InI 64 d.canonicalize.value := d.canonicalize.value_inI

theorem canonicalize_scale_lt (d : Dqa) : d.canonicalize.scale < 256 := d.canonicalize.scale_lt

/-- Canonical form, as a property of the record. -/
def Canonical (d : Dqa) : Prop := Scaled.Canonical d.value d.scale

instance (d : Dqa) : Decidable d.Canonical := inferInstanceAs (Decidable (Scaled.Canonical _ _))

theorem canonicalize_canonical (d : Dqa) : d.canonicalize.Canonical :=
  Scaled.canon_canonical d.value d.scale

theorem val_canonicalize (d : Dqa) : d.canonicalize.val = d.val :=
  Scaled.val_canon d.value d.scale

theorem canonicalize_scale_le (d : Dqa) : d.canonicalize.scale ≤ d.scale :=
  Scaled.canon_scale_le d.value d.scale

theorem canonicalize_canonicalize (d : Dqa) : d.canonicalize.canonicalize = d.canonicalize := by
  have h := Scaled.canon_canon d.value d.scale
  exact Dqa.ext (congrArg Prod.fst h) (congrArg Prod.snd h)

/-- The mantissa of `d` padded to scale `t`. -/
def padTo (d : Dqa) (t : Nat) : Int := d.value * 10 ^ (t - d.scale)

/-- Padding the canonical record to `t` and then to `T` pads the record to
`T`. -/
theorem padTo_canonicalize (d : Dqa) {t T : Nat} (ht : d.canonicalize.scale ≤ t)
    (hT : d.scale ≤ T) (htT : t ≤ T) : d.padTo T = d.canonicalize.padTo t * 10 ^ (T - t) := by
  obtain ⟨k, hs, hm⟩ := Scaled.canon_spec d.value d.scale
  have hs' : d.scale = d.canonicalize.scale + k := hs
  have hm' : d.value = d.canonicalize.value * 10 ^ k := hm
  unfold padTo
  rw [hm', mul_assoc, mul_assoc, ← pow_add, ← pow_add]
  congr 2
  omega

end Dqa

/-! ## Operations -/

/-- `sign`. -/
def sign (value : Int) : Int := if value > 0 then 1 else if value < 0 then -1 else 0

theorem sign_eq (v : Int) : sign v = v.sign := by
  unfold sign
  rcases lt_trichotomy v 0 with h | h | h
  · rw [if_neg (by omega), if_pos h, Int.sign_eq_neg_one_of_neg h]
  · rw [if_neg (by omega), if_neg (by omega), h, Int.sign_zero]
  · rw [if_pos h, Int.sign_eq_one_of_pos h]

/-- The `i64` range check that precedes every `as i64`. -/
def toI64 (x : Int) : Run DqaError {v : Int // InI 64 v} :=
  if h : x > maxI 64 ∨ x < minI 64 then .error (.err .overflow)
  else .ok ⟨x, ⟨not_lt.mp fun hlt => h (Or.inr hlt), not_lt.mp fun hlt => h (Or.inl hlt)⟩⟩

/-- `align_scales`: both values at the larger of the two scales. -/
def alignScales (a b : Dqa) : Run DqaError (Int × Int × Nat) :=
  let resultScale := max a.scale b.scale
  if a.scale = b.scale then .ok (a.value, b.value, resultScale)
  else do
    let power ← index pow10I64 ((a.scale : Int) - b.scale).natAbs
    if a.scale > b.scale then
      let intermediate ← toI64 (b.value * power)
      .ok (a.value, intermediate.1, resultScale)
    else
      let intermediate ← toI64 (a.value * power)
      .ok (intermediate.1, b.value, resultScale)

/-- `round_half_even_with_remainder`. -/
def roundHalfEvenWithRemainder (quotient remainder divisor resultSign : Int) : Int :=
  let doubleRem := |remainder| * 2
  let absDivisor := |divisor|
  if doubleRem < absDivisor then quotient
  else if doubleRem > absDivisor then quotient + resultSign
  else if |quotient| % 2 = 0 then quotient
  else quotient + resultSign

/-- The common tail of the operations: back to `i64`, then canonicalise. -/
def finish (x : Int) (scale : Nat) : Run DqaError Dqa := do
  let v ← toI64 x
  .ok (Dqa.canonicalize ⟨v.1, scale % 256, v.2, wrapped_scale_lt scale⟩)

/-- `dqa_add`. -/
def dqaAdd (a b : Dqa) : Run DqaError Dqa := do
  let (aVal, bVal, resultScale) ← alignScales a b
  finish (aVal + bVal) resultScale

/-- `dqa_sub`. -/
def dqaSub (a b : Dqa) : Run DqaError Dqa := do
  let (aVal, bVal, resultScale) ← alignScales a b
  finish (aVal - bVal) resultScale

/-- `dqa_mul`. The scale sum is taken in `u16` and cast to `u8`. -/
def dqaMul (a b : Dqa) : Run DqaError Dqa :=
  let intermediate := a.value * b.value
  let resultScale := (a.scale + b.scale) % 256
  if resultScale > maxScale then do
    let divisor ← index pow10 (resultScale - maxScale)
    finish (roundHalfEvenWithRemainder (intermediate.tdiv divisor) (intermediate.tmod divisor)
      divisor (sign a.value * sign b.value)) maxScale
  else finish intermediate resultScale

/-- `dqa_div`. The `u8` power wraps for scales far out of range; the `i128`
product is checked. -/
def dqaDiv (a b : Dqa) : Run DqaError Dqa :=
  if b.value = 0 then .error (.err .divisionByZero)
  else do
    let targetScale := max a.scale b.scale
    let power := (targetScale + b.scale + (256 - a.scale)) % 256
    let factor ← index pow10 power
    let scaled := a.value * factor
    if InI 128 scaled then
      finish (roundHalfEvenWithRemainder (scaled.tdiv b.value) (scaled.tmod b.value) |b.value|
        (sign a.value * sign b.value)) targetScale
    else .error (.err .overflow)

/-- `-1`, `0` or `1` as `x` is below, equal to or above `y`. -/
def threeWay (x y : Int) : Int := if x < y then -1 else if x > y then 1 else 0

theorem threeWay_pos_iff {x y : Int} : threeWay x y > 0 ↔ y < x := by
  unfold threeWay
  split <;> [omega; split <;> omega]

theorem threeWay_neg_iff {x y : Int} : threeWay x y < 0 ↔ x < y := by
  unfold threeWay
  split <;> [omega; split <;> omega]

theorem threeWay_self (x : Int) : threeWay x x = 0 := by
  unfold threeWay
  rw [if_neg (lt_irrefl x), if_neg (lt_irrefl x)]

/-- `dqa_cmp`. -/
def dqaCmp (a b : Dqa) : Run DqaError Int :=
  let a := a.canonicalize
  let b := b.canonicalize
  if a.scale = b.scale then .ok (threeWay a.value b.value)
  else do
    let scaleFactor ← index pow10 ((a.scale : Int) - b.scale).natAbs
    if a.scale > b.scale then .ok (threeWay a.value (b.value * scaleFactor))
    else .ok (threeWay (a.value * scaleFactor) b.value)

/-! ## The storage record -/

/-- `DqaEncoding`: `value` holds the numerator in big-endian byte order. -/
@[ext]
structure DqaEncoding where
  value : Int
  scale : Nat
  reserved : List UInt8
  value_inI : InI 64 value
  scale_lt : scale < 256
  reserved_length : reserved.length = 7
deriving DecidableEq

theorem hostToBe_inI {host : Bytes.Endian} {x : Int} (h : InI 64 x) :
    InI 64 (Bytes.hostToBe host 8 x) := by
  cases host with
  | big => exact h
  | little =>
    obtain ⟨hlo, hhi⟩ := Bytes.swapBytes_bounds (n := 8) (by norm_num) x
    exact ⟨hlo, Int.le_sub_one_of_lt hhi⟩

/-- `from_be` undoes `to_be`. -/
theorem hostToBe_hostToBe {host : Bytes.Endian} {x : Int} (h : InI 64 x) :
    Bytes.hostToBe host 8 (Bytes.hostToBe host 8 x) = x := by
  cases host with
  | big => rfl
  | little =>
    obtain ⟨hlo, hhi⟩ := h
    exact Bytes.swapBytes_swapBytes (by norm_num) hlo (Int.lt_of_le_sub_one hhi)

namespace DqaEncoding

/-- `DqaEncoding::from_dqa` on a given host. -/
def fromDqa (host : Bytes.Endian) (d : Dqa) : DqaEncoding where
  value := Bytes.hostToBe host 8 d.canonicalize.value
  scale := d.canonicalize.scale
  reserved := List.replicate 7 0
  value_inI := hostToBe_inI d.canonicalize_value_inI
  scale_lt := d.canonicalize_scale_lt
  reserved_length := rfl

/-- `DqaEncoding::to_dqa` on a given host. -/
def toDqa (host : Bytes.Endian) (e : DqaEncoding) : Run DqaError Dqa :=
  if e.scale > maxScale then .error (.err .invalidScale)
  else if e.reserved.any (· != 0) then .error (.err .invalidEncoding)
  else .ok ⟨Bytes.hostToBe host 8 e.value, e.scale, hostToBe_inI e.value_inI, e.scale_lt⟩

end DqaEncoding

/-! ## What the operations compute -/

theorem toI64_of_inI {x : Int} (h : InI 64 x) : toI64 x = .ok ⟨x, h⟩ := by
  unfold toI64
  rw [dif_neg]
  rintro (hgt | hlt)
  · exact absurd h.2 (not_le.mpr hgt)
  · exact absurd h.1 (not_le.mpr hlt)

theorem toI64_of_not_inI {x : Int} (h : ¬ InI 64 x) : toI64 x = .error (.err .overflow) := by
  unfold toI64
  rw [dif_pos]
  by_contra hin
  obtain ⟨hhi, hlo⟩ := not_or.mp hin
  exact h ⟨not_lt.mp hlo, not_lt.mp hhi⟩

theorem finish_of_not_inI {x : Int} (h : ¬ InI 64 x) (s : Nat) :
    finish x s = .error (.err .overflow) := by
  unfold finish
  rw [toI64_of_not_inI h]
  rfl

theorem finish_of_inI {x : Int} (h : InI 64 x) {s : Nat} (hs : s < 256) :
    finish x s = .ok (Dqa.canonicalize ⟨x, s, h, hs⟩) := by
  unfold finish
  rw [toI64_of_inI h]
  simp only [Nat.mod_eq_of_lt hs]
  rfl

/-- Padding can only lose a result to the range check, never change it. -/
theorem finish_of_rescale {x : Int} {s k : Nat} (hs : s + k < 256) {r : Dqa}
    (h : finish (x * 10 ^ k) (s + k) = .ok r) : finish x s = .ok r := by
  by_cases hpad : InI 64 (x * 10 ^ k)
  · have hx : InI 64 x := InI.of_mul (Scaled.ten_pow_pos k) hpad
    have hcanon := Scaled.canon_mul_pow x s k
    rw [finish_of_inI hpad hs] at h
    rw [finish_of_inI hx (by omega), ← h]
    congr 1
    exact Dqa.ext (congrArg Prod.fst hcanon.symm) (congrArg Prod.snd hcanon.symm)
  · rw [finish_of_not_inI hpad] at h
    cases h

/-- Alignment pads both values to the larger scale; only the padded one can
overflow. -/
theorem alignScales_eq {a b : Dqa} (ha : a.scale ≤ 18) (hb : b.scale ≤ 18) :
    alignScales a b =
      if InI 64 (a.padTo (max a.scale b.scale)) ∧ InI 64 (b.padTo (max a.scale b.scale))
      then .ok (a.padTo (max a.scale b.scale), b.padTo (max a.scale b.scale),
        max a.scale b.scale)
      else .error (.err .overflow) := by
  have hself : ∀ d : Dqa, d.padTo d.scale = d.value := by
    intro d
    rw [Dqa.padTo, Nat.sub_self, pow_zero, mul_one]
  unfold alignScales
  rcases lt_trichotomy a.scale b.scale with h | h | h
  · rw [if_neg h.ne, show ((a.scale : Int) - b.scale).natAbs = b.scale - a.scale by omega,
      index_pow10I64 (by omega), max_eq_right h.le, hself b]
    change (if a.scale > b.scale then _ else toI64 (a.padTo b.scale) >>= _) = _
    rw [if_neg (by omega)]
    by_cases hin : InI 64 (a.padTo b.scale)
    · rw [toI64_of_inI hin, if_pos ⟨hin, b.value_inI⟩]
      rfl
    · rw [toI64_of_not_inI hin, if_neg fun hand => hin hand.1]
      rfl
  · rw [if_pos h, ← h, max_self, hself a, Dqa.padTo, h, Nat.sub_self, pow_zero, mul_one,
      if_pos ⟨a.value_inI, b.value_inI⟩]
  · rw [if_neg h.ne', show ((a.scale : Int) - b.scale).natAbs = a.scale - b.scale by omega,
      index_pow10I64 (by omega), max_eq_left h.le, hself a]
    change (if a.scale > b.scale then toI64 (b.padTo a.scale) >>= _ else _) = _
    rw [if_pos h]
    by_cases hin : InI 64 (b.padTo a.scale)
    · rw [toI64_of_inI hin, if_pos ⟨a.value_inI, hin⟩]
      rfl
    · rw [toI64_of_not_inI hin, if_neg fun hand => hin hand.2]
      rfl

/-- `dqa_add` and `dqa_sub` are one function of the two padded values. -/
theorem align_finish_eq {a b : Dqa} (ha : a.scale ≤ 18) (hb : b.scale ≤ 18)
    (f : Int → Int → Int) :
    (alignScales a b >>= fun r => finish (f r.1 r.2.1) r.2.2) =
      if InI 64 (a.padTo (max a.scale b.scale)) ∧ InI 64 (b.padTo (max a.scale b.scale))
      then finish (f (a.padTo (max a.scale b.scale)) (b.padTo (max a.scale b.scale)))
        (max a.scale b.scale)
      else .error (.err .overflow) := by
  rw [alignScales_eq ha hb]
  split <;> rfl

theorem dqaAdd_eq {a b : Dqa} (ha : a.scale ≤ 18) (hb : b.scale ≤ 18) :
    dqaAdd a b =
      if InI 64 (a.padTo (max a.scale b.scale)) ∧ InI 64 (b.padTo (max a.scale b.scale))
      then finish (a.padTo (max a.scale b.scale) + b.padTo (max a.scale b.scale))
        (max a.scale b.scale)
      else .error (.err .overflow) :=
  align_finish_eq ha hb (· + ·)

theorem dqaSub_eq {a b : Dqa} (ha : a.scale ≤ 18) (hb : b.scale ≤ 18) :
    dqaSub a b =
      if InI 64 (a.padTo (max a.scale b.scale)) ∧ InI 64 (b.padTo (max a.scale b.scale))
      then finish (a.padTo (max a.scale b.scale) - b.padTo (max a.scale b.scale))
        (max a.scale b.scale)
      else .error (.err .overflow) :=
  align_finish_eq ha hb (· - ·)

theorem roundHalfEvenWithRemainder_eq (n : Int) {d : Int} (hd : d ≠ 0) :
    roundHalfEvenWithRemainder (n.tdiv d) (n.tmod d) d (n.sign * d.sign) =
      Rounding.roundHalfEven ((n : ℚ) / d) := by
  rw [Rounding.roundHalfEven_div n hd]
  unfold roundHalfEvenWithRemainder
  simp only [mul_comm |n.tmod d| 2]

/-- `dqa_mul` is the exact product, rounded half-even at the smaller of scale
18 and the sum of the scales. -/
theorem dqaMul_eq {a b : Dqa} (ha : a.scale ≤ 18) (hb : b.scale ≤ 18) :
    dqaMul a b = finish (Scaled.mantissaAt (min 18 (a.scale + b.scale)) (a.val * b.val))
      (min 18 (a.scale + b.scale)) := by
  have hprod : a.val * b.val = Scaled.val (a.value * b.value) (a.scale + b.scale) :=
    Scaled.val_mul_val _ _ _ _
  unfold dqaMul maxScale
  rw [Nat.mod_eq_of_lt (by omega), hprod]
  by_cases h : a.scale + b.scale > 18
  · have hsign : sign a.value * sign b.value
        = (a.value * b.value).sign * (10 ^ (a.scale + b.scale - 18) : Int).sign := by
      rw [sign_eq, sign_eq, Int.sign_mul, Int.sign_eq_one_of_pos (Scaled.ten_pow_pos _), mul_one]
    rw [if_pos h, index_pow10 (by omega), min_eq_left (by omega),
      Scaled.mantissaAt_val_of_ge _ (by omega),
      ← roundHalfEvenWithRemainder_eq _ (Scaled.ten_pow_ne_zero _), ← hsign]
    rfl
  · rw [if_neg h, min_eq_right (by omega), Scaled.mantissaAt_val_of_le _ le_rfl, Nat.sub_self,
      pow_zero, mul_one]

/-! ## Canonical operands give the same results -/

/-- A homogeneous combination of the aligned values does not see the padding
of its operands. -/
theorem align_finish_canonicalize {a b : Dqa} (ha : a.scale ≤ 18) (hb : b.scale ≤ 18)
    {f : Int → Int → Int} (hf : ∀ x y c, f (x * c) (y * c) = f x y * c) {r : Dqa}
    (h : (alignScales a b >>= fun r => finish (f r.1 r.2.1) r.2.2) = .ok r) :
    (alignScales a.canonicalize b.canonicalize >>= fun r => finish (f r.1 r.2.1) r.2.2)
      = .ok r := by
  have hca := a.canonicalize_scale_le
  have hcb := b.canonicalize_scale_le
  -- the canonical operands meet at a scale `t`, the originals `k` digits further out
  obtain ⟨t, ht⟩ : ∃ t, max a.canonicalize.scale b.canonicalize.scale = t := ⟨_, rfl⟩
  obtain ⟨k, hk⟩ : ∃ k, max a.scale b.scale = t + k := ⟨max a.scale b.scale - t, by omega⟩
  have hpada := a.padTo_canonicalize (t := t) (T := t + k) (by omega) (by omega) (by omega)
  have hpadb := b.padTo_canonicalize (t := t) (T := t + k) (by omega) (by omega) (by omega)
  rw [Nat.add_sub_cancel_left] at hpada hpadb
  rw [align_finish_eq ha hb, hk, hpada, hpadb, hf] at h
  rw [align_finish_eq (by omega) (by omega), ht]
  split at h
  next hin =>
    rw [if_pos ⟨InI.of_mul (Scaled.ten_pow_pos k) hin.1, InI.of_mul (Scaled.ten_pow_pos k) hin.2⟩]
    exact finish_of_rescale (by omega) h
  next => cases h

theorem dqaMul_canonicalize {a b : Dqa} (ha : a.scale ≤ 18) (hb : b.scale ≤ 18) {r : Dqa}
    (h : dqaMul a b = .ok r) : dqaMul a.canonicalize b.canonicalize = .ok r := by
  have hca := a.canonicalize_scale_le
  have hcb := b.canonicalize_scale_le
  rw [dqaMul_eq ha hb] at h
  rw [dqaMul_eq (by omega) (by omega), a.val_canonicalize, b.val_canonicalize]
  obtain ⟨k, hk⟩ : ∃ k, min 18 (a.scale + b.scale)
      = min 18 (a.canonicalize.scale + b.canonicalize.scale) + k :=
    ⟨min 18 (a.scale + b.scale) - min 18 (a.canonicalize.scale + b.canonicalize.scale), by omega⟩
  rw [hk] at h
  by_cases hround : a.canonicalize.scale + b.canonicalize.scale ≤ 18
  · -- the product is exact at the canonical scale, so the original only pads it
    have hval : a.val * b.val = Scaled.val (a.canonicalize.value * b.canonicalize.value)
        (a.canonicalize.scale + b.canonicalize.scale) := by
      rw [← a.val_canonicalize, ← b.val_canonicalize]
      exact Scaled.val_mul_val _ _ _ _
    rw [min_eq_right hround, hval] at h ⊢
    rw [Scaled.mantissaAt_val_of_le _ (Nat.le_add_right _ k), Nat.add_sub_cancel_left] at h
    rw [Scaled.mantissaAt_val_of_le _ le_rfl, Nat.sub_self, pow_zero, mul_one]
    exact finish_of_rescale (by omega) h
  · -- both products round at scale 18, and the rounding sees the number only
    obtain rfl : k = 0 := by omega
    exact h

theorem dqaCmp_canonicalize (a b : Dqa) : dqaCmp a b = dqaCmp a.canonicalize b.canonicalize := by
  unfold dqaCmp
  rw [a.canonicalize_canonicalize, b.canonicalize_canonicalize]

/-- What one host writes with `from_dqa` and reads back with `to_dqa` is the
canonical operand. -/
theorem DqaEncoding.toDqa_fromDqa (host : Bytes.Endian) {d : Dqa} (h : d.scale ≤ 18) :
    (fromDqa host d).toDqa host = .ok d.canonicalize := by
  have hscale : ¬ (fromDqa host d).scale > maxScale :=
    not_lt.mpr (d.canonicalize_scale_le.trans h)
  have hreserved : ¬ (fromDqa host d).reserved.any (· != 0) = true :=
    show ¬ (List.replicate 7 (0 : UInt8)).any (· != 0) = true by decide
  unfold toDqa
  rw [if_neg hscale, if_neg hreserved]
  exact congrArg Except.ok (Dqa.ext (hostToBe_hostToBe d.canonicalize.value_inI) rfl)

/-- **Serialization does not change later results**: whatever an operation
returns on two operands, it returns on what `DqaEncoding` makes of them, and
the comparison cannot tell the difference. -/
theorem canonicalize_operands (host : Bytes.Endian) {a b : Dqa} (ha : a.scale ≤ 18)
    (hb : b.scale ≤ 18) :
    ((DqaEncoding.fromDqa host a).toDqa host = .ok a.canonicalize ∧
      (DqaEncoding.fromDqa host b).toDqa host = .ok b.canonicalize) ∧
    (∀ r, dqaAdd a b = .ok r → dqaAdd a.canonicalize b.canonicalize = .ok r) ∧
    (∀ r, dqaSub a b = .ok r → dqaSub a.canonicalize b.canonicalize = .ok r) ∧
    (∀ r, dqaMul a b = .ok r → dqaMul a.canonicalize b.canonicalize = .ok r) ∧
    dqaCmp a b = dqaCmp a.canonicalize b.canonicalize := by
  refine ⟨⟨DqaEncoding.toDqa_fromDqa host ha, DqaEncoding.toDqa_fromDqa host hb⟩, ?_, ?_, ?_,
    dqaCmp_canonicalize a b⟩
  · intro r h
    exact align_finish_canonicalize (f := (· + ·)) ha hb (fun x y c => (add_mul x y c).symm) h
  · intro r h
    exact align_finish_canonicalize (f := (· - ·)) ha hb (fun x y c => (sub_mul x y c).symm) h
  · intro r h
    exact dqaMul_canonicalize ha hb h

/-- `1.5` with 17 digits times `0.2` with 18: the padded product is rounded at
scale 18, the canonical one is `15 * 2` at scale 2, and both give `0.3`. -/
theorem canonicalize_operands_padded :
    let a : Dqa := ⟨150000000000000000, 17, by decide, by decide⟩
    let b : Dqa := ⟨200000000000000000, 18, by decide, by decide⟩
    let r : Dqa := ⟨3, 1, by decide, by decide⟩
    dqaMul a b = .ok r ∧ dqaMul a.canonicalize b.canonicalize = .ok r := by
  intro a b r
  have h : dqaMul a b = .ok r := by decide +kernel
  exact ⟨h, (canonicalize_operands .little (by decide) (by decide)).2.2.2.1 r h⟩

end CipherOcto.Determin
