import CipherOcto.Determin.Decimal

/-!
# The second decimal back end

`determin/src/decimal_internal.rs` is `decimal.rs` once more, with the crate's
own `BigInt` (`bigint.rs`) where `decimal.rs` uses an arbitrary-precision
library. The two are meant to be interchangeable. On valid operands every
`BigInt` in it is canonical and far below 4096 bits, so each step rewrites to
integer arithmetic (`bigintAdd_ofInt` and its siblings) and the two back ends
can be compared operation by operation.

They agree except in two places:

> `decimalSubInternal_eq_iff`: subtracting zero. `bigint_sub` negates it into
> the non-canonical `-0` and fails, which comes out as an overflow.
> `decimalMulInternal_eq_iff`: a tie in the rounding of a product. The parity
> test asks whether half the quotient is zero, not whether it is odd.
-/

namespace CipherOcto.Determin

open Machine BigInt

/-! ## The code -/

/-- `i128_to_bigint`. -/
def i128ToBigint (n : Int) : BigInt := BigInt.fromI128 n

/-- `bigint_to_i128`. -/
def bigintToI128 (b : BigInt) : Run DecimalError Int := asOverflow b.toI128

/-- `bigint_in_range`. -/
def bigintInRange (b : BigInt) : Bool :=
  decide (b.compare (i128ToBigint maxDecimalMantissa) ≤ 0) &&
    decide (b.compare (i128ToBigint (-maxDecimalMantissa)) ≥ 0)

/-- `scale_mantissa`. -/
def scaleMantissa (mantissa : Int) (diff : Nat) : Run DecimalError BigInt :=
  if diff = 0 then .ok (i128ToBigint mantissa)
  else do
    let power ← index pow10 diff
    asOverflow (bigintMul (i128ToBigint mantissa) (i128ToBigint power))

/-- The common tail: range check, back to `i128`, `Decimal::new`. -/
def finishInternal (b : BigInt) (scale : Nat) : Run DecimalError Decimal :=
  if !bigintInRange b then .error (.err .overflow)
  else do
    let v ← bigintToI128 b
    Decimal.new v scale

/-- `decimal_add_internal`. -/
def decimalAddInternal (a b : Decimal) : Run DecimalError Decimal := do
  let aVal ← scaleMantissa a.mantissa (max a.scale b.scale - a.scale)
  let bVal ← scaleMantissa b.mantissa (max a.scale b.scale - b.scale)
  let sum ← asOverflow (bigintAdd aVal bVal)
  finishInternal sum (max a.scale b.scale)

/-- `decimal_sub_internal`. -/
def decimalSubInternal (a b : Decimal) : Run DecimalError Decimal := do
  let aVal ← scaleMantissa a.mantissa (max a.scale b.scale - a.scale)
  let bVal ← scaleMantissa b.mantissa (max a.scale b.scale - b.scale)
  let diff ← asOverflow (bigintSub aVal bVal)
  finishInternal diff (max a.scale b.scale)

/-- The absolute value of a remainder: subtract it from zero if negative. -/
def absRemainder (r : BigInt) : Run DecimalError BigInt :=
  if r.sign then asOverflow (bigintSub BigInt.zero r) else .ok r

/-- "Quotient is odd": whether the quotient halved is not zero. -/
def quotientIsOdd (q : BigInt) : Run DecimalError Bool := do
  let r ← asOverflow (bigintDivmod q (i128ToBigint 2))
  .ok (!r.1.isZero)

/-- The round-up condition: above half, or at half with an odd quotient. -/
def roundsUp (cmp : Int) (q : BigInt) : Run DecimalError Bool :=
  if cmp > 0 then .ok true
  else if cmp = 0 then quotientIsOdd q
  else .ok false

/-- One away from zero, by the sign bit. -/
def stepAway (q : BigInt) : Run DecimalError BigInt :=
  if q.sign then asOverflow (bigintSub q (i128ToBigint 1))
  else asOverflow (bigintAdd q (i128ToBigint 1))

/-- The rounding of `decimal_mul_internal`. -/
def mulRoundInternal (product : BigInt) (power : Int) : Run DecimalError BigInt := do
  let r ← asOverflow (bigintDivmod product (i128ToBigint power))
  let absRem ← absRemainder r.2
  let up ← roundsUp (absRem.compare (i128ToBigint (power.tdiv 2))) r.1
  if up then stepAway r.1 else .ok r.1

/-- `decimal_mul_internal`. -/
def decimalMulInternal (a b : Decimal) : Run DecimalError Decimal := do
  let product ← asOverflow (bigintMul (i128ToBigint a.mantissa) (i128ToBigint b.mantissa))
  if (a.scale + b.scale) % 256 > maxDecimalScale then do
    let power ← index pow10 ((a.scale + b.scale) % 256 - maxDecimalScale)
    let rounded ← mulRoundInternal product power
    finishInternal rounded maxDecimalScale
  else finishInternal product ((a.scale + b.scale) % 256)

/-- The scaled dividend of `decimal_div_internal`. -/
def scaleDividendInternal (absA scaleDiff : Int) : Run DecimalError Int :=
  if scaleDiff > 0 then do
    let power ← index pow10 scaleDiff.toNat
    let scaled ← asOverflow (bigintMul (i128ToBigint power) (i128ToBigint absA))
    bigintToI128 scaled
  else if scaleDiff < 0 then do
    let divisor ← index pow10 (-scaleDiff).toNat
    if absA.tmod divisor > divisor.tdiv 2 ∨
        (absA.tmod divisor = divisor.tdiv 2 ∧ (absA.tdiv divisor).tmod 2 ≠ 0) then
      .ok (wrapI 128 (absA.tdiv divisor + 1))
    else .ok (absA.tdiv divisor)
  else .ok absA

/-- `decimal_div_internal`. -/
def decimalDivInternal (a b : Decimal) (_targetScale : Nat) : Run DecimalError Decimal :=
  if b.mantissa = 0 then .error (.err .divisionByZero)
  else do
    let scaled ← scaleDividendInternal (absI128 a.mantissa) (divScaleDiff a b)
    let result := divRound (absI128 scaled) (absI128 b.mantissa)
    Decimal.new
      (if decide (a.mantissa < 0) != decide (b.mantissa < 0) then wrapI 128 (-result) else result)
      (divTargetScale a b)

/-- The Newton loop of `decimal_sqrt_internal`. -/
def newtonLoopInternal (scaledN : BigInt) : Nat → BigInt → Run DecimalError BigInt
  | 0, x => .ok x
  | k + 1, x =>
    if x.isZero then .ok x
    else do
      let r ← asOverflow (bigintDivmod scaledN x)
      let sum ← asOverflow (bigintAdd x r.1)
      let half ← asOverflow (bigintDiv sum (i128ToBigint 2))
      newtonLoopInternal scaledN k half

/-- The radicand of `decimal_sqrt_internal`. -/
def sqrtRadicandInternal (a : Decimal) : Run DecimalError BigInt :=
  if 2 * (sqrtScale a : Int) - a.scale > 36 then do
    let lo ← index pow10 (2 * (sqrtScale a : Int) - a.scale - 36).toNat
    let hi ← index pow10 36
    let part ← asOverflow (bigintMul (i128ToBigint a.mantissa) (i128ToBigint lo))
    asOverflow (bigintMul part (i128ToBigint hi))
  else if 2 * (sqrtScale a : Int) - a.scale ≥ 0 then do
    let power ← index pow10 (2 * (sqrtScale a : Int) - a.scale).toNat
    asOverflow (bigintMul (i128ToBigint a.mantissa) (i128ToBigint power))
  else .error (.err .overflow)

/-- The integer root of `decimal_sqrt_internal`. -/
def sqrtRootInternal (scaledN : BigInt) : Run DecimalError BigInt := do
  let bits ← asOverflow scaledN.bitLength
  let start ← asOverflow (bigintShl (i128ToBigint 1) ((bits + 1) / 2))
  let x ← newtonLoopInternal scaledN 40 start
  let square ← asOverflow (bigintMul x x)
  if square.compare scaledN > 0 then asOverflow (bigintSub x (i128ToBigint 1)) else .ok x

/-- `decimal_sqrt_internal`. -/
def decimalSqrtInternal (a : Decimal) : Run DecimalError Decimal :=
  if a.mantissa < 0 then .error (.err .invalidScale)
  else if a.mantissa = 0 then Decimal.new 0 0
  else do
    let scaledN ← sqrtRadicandInternal a
    let root ← sqrtRootInternal scaledN
    finishInternal root (sqrtScale a)

/-- `decimal_round_internal`: the `i128` code of `decimal_round`. -/
def decimalRoundInternal (d : Decimal) (targetScale : Nat) (mode : RoundingMode) :
    Run DecimalError Decimal :=
  if targetScale ≥ d.scale then .ok d
  else do
    let divisor ← index pow10 (d.scale - targetScale)
    Decimal.new (roundQuotient mode d.mantissa (d.mantissa.tdiv divisor)
      (d.mantissa.tmod divisor) divisor) targetScale

/-- A scaled mantissa, or `i128::MAX` where scaling failed. -/
def scaleOrMax (mantissa : Int) (diff : Nat) : Run DecimalError BigInt :=
  match scaleMantissa mantissa diff with
  | .ok b => .ok b
  | .error (.err _) => .ok (i128ToBigint (maxI 128))
  | .error .panic => .error .panic

/-- `decimal_cmp_internal`. -/
def decimalCmpInternal (a b : Decimal) : Run DecimalError Int :=
  if a.scale = b.scale then .ok (threeWay a.mantissa b.mantissa)
  else do
    let aBig ← scaleOrMax a.mantissa (max a.scale b.scale - a.scale)
    let bBig ← scaleOrMax b.mantissa (max a.scale b.scale - b.scale)
    match bigintSub aBig bBig with
    | .error .panic => .error .panic
    | .error (.err _) => .ok (if a.mantissa ≥ b.mantissa then 1 else -1)
    | .ok diff =>
      .ok (if diff.compare BigInt.zero < 0 then -1
        else if diff.compare BigInt.zero > 0 then 1 else 0)

/-! ## The helpers on integers -/

theorem inI128_of_le {m : Int} (h : |m| ≤ maxDecimalMantissa) : InI 128 m := by
  obtain ⟨hlo, hhi⟩ := abs_le.mp h
  rw [maxDecimalMantissa_eq] at hlo hhi
  rw [inI128_iff]
  omega

theorem inI128_pow {k : Nat} (hk : k ≤ 36) : InI 128 ((10 : Int) ^ k) := by
  have h1 : (10 : Int) ^ k ≤ 10 ^ 36 := pow_le_pow_right₀ (by norm_num) hk
  have h2 := Scaled.ten_pow_pos k
  rw [inI128_iff]
  omega

theorem i128ToBigint_eq {n : Int} (h : InI 128 n) : i128ToBigint n = ofInt n := fromI128_eq h

theorem asOverflow_ok {α : Type} (x : α) : asOverflow (.ok x) = .ok x := rfl

/-- A product of two `i128`, as the size bound the next operation asks for. -/
theorem mul_lt_maxBits {x y : Int} (hx : InI 128 x) (hy : InI 128 y) :
    (x * y).natAbs < 2 ^ 256 := by
  rw [Int.natAbs_mul]
  calc x.natAbs * y.natAbs < 2 ^ 128 * 2 ^ 128 :=
        Nat.mul_lt_mul_of_lt_of_lt (natAbs_lt_of_inI hx) (natAbs_lt_of_inI hy)
    _ = 2 ^ 256 := by rw [← pow_add]

theorem signOfOrdering_compare (x y : Int) : signOfOrdering (Ord.compare x y) = threeWay x y := by
  unfold threeWay
  rcases lt_trichotomy x y with h | h | h
  · rw [compare_lt_iff_lt.mpr h, if_pos h]
    rfl
  · rw [compare_eq_iff_eq.mpr h, if_neg h.not_lt, if_neg h.not_gt]
    rfl
  · rw [compare_gt_iff_gt.mpr h, if_neg h.not_gt, if_pos h]
    rfl

theorem compareInternal_ofInt (x y : Int) : (ofInt x).compare (ofInt y) = threeWay x y := by
  rw [compare_ofInt, signOfOrdering_compare]

theorem bigintInRange_ofInt (z : Int) :
    bigintInRange (ofInt z) = decide (|z| ≤ maxDecimalMantissa) := by
  unfold bigintInRange
  rw [i128ToBigint_eq (by decide), i128ToBigint_eq (by decide), compareInternal_ofInt,
    compareInternal_ofInt, ← Bool.decide_and, decide_eq_decide, abs_le, and_comm]
  refine and_congr ?_ ?_
  · rw [ge_iff_le, ← not_lt, threeWay_neg_iff, not_lt]
  · rw [← not_lt, ← gt_iff_lt, threeWay_pos_iff, not_lt]

/-- The two tails are the same function of the integer. -/
theorem finishInternal_ofInt (z : Int) (s : Nat) : finishInternal (ofInt z) s = checkedNew z s := by
  unfold finishInternal checkedNew
  rw [bigintInRange_ofInt]
  by_cases h : |z| ≤ maxDecimalMantissa
  · obtain ⟨hlo, hhi⟩ := abs_le.mp h
    have hin := inI128_of_le h
    rw [decide_eq_true h, if_neg (by decide), if_neg (not_or.mpr ⟨not_lt.mpr hhi, not_lt.mpr hlo⟩)]
    unfold bigintToI128 bigToI128
    rw [toI128_ofInt, if_pos hin, if_pos hin]
    rfl
  · rw [decide_eq_false h, if_pos (by decide), if_pos]
    by_contra hno
    obtain ⟨hhi, hlo⟩ := not_or.mp hno
    exact h (abs_le.mpr ⟨not_lt.mp hlo, not_lt.mp hhi⟩)

theorem scaleMantissa_eq {m : Int} (hm : InI 128 m) {k : Nat} (hk : k ≤ 36) :
    scaleMantissa m k = .ok (ofInt (m * 10 ^ k)) := by
  unfold scaleMantissa
  by_cases h0 : k = 0
  · rw [if_pos h0, h0, pow_zero, mul_one, i128ToBigint_eq hm]
  · rw [if_neg h0, index_pow10 hk, ok_bind]
    unfold i128ToBigint
    rw [bigintMul_fromI128 hm (inI128_pow hk)]
    rfl

theorem scaleUp_eq (m : Int) {k : Nat} (hk : k ≤ 36) : scaleUp m k = .ok (m * 10 ^ k) := by
  unfold scaleUp
  by_cases h0 : k > 0
  · rw [if_pos h0, index_pow10 hk, ok_bind]
  · rw [if_neg h0, show k = 0 by omega, pow_zero, mul_one]

/-! ## Addition and subtraction -/

theorem decimalAddInternal_eq {a b : Decimal} (ha : a.Valid) (hb : b.Valid) :
    decimalAddInternal a b = decimalAdd a b := by
  have hsa : a.scale ≤ 36 := ha.scale_le
  have hsb : b.scale ≤ 36 := hb.scale_le
  have hma := inI128_of_le ha.mantissa_le
  have hmb := inI128_of_le hb.mantissa_le
  have hka : max a.scale b.scale - a.scale ≤ 36 := by omega
  have hkb : max a.scale b.scale - b.scale ≤ 36 := by omega
  have hx := mul_lt_maxBits hma (inI128_pow hka)
  have hy := mul_lt_maxBits hmb (inI128_pow hkb)
  unfold decimalAddInternal decimalAdd
  rw [scaleMantissa_eq hma hka, ok_bind, scaleMantissa_eq hmb hkb, ok_bind, scaleUp_eq _ hka,
    ok_bind, scaleUp_eq _ hkb, ok_bind,
    bigintAdd_ofInt (lt_maxBits hx (by norm_num)) (lt_maxBits hy (by norm_num)),
    bounded_of_lt (lt_maxBits (k := 257) (by omega) (by norm_num)), asOverflow_ok, ok_bind,
    finishInternal_ofInt]

theorem checkedNew_eq_abs (x : Int) (s : Nat) :
    checkedNew x s = if |x| > maxDecimalMantissa then .error (.err .overflow)
      else bigToI128 x >>= fun v => Decimal.new v s := by
  have hiff : x > maxDecimalMantissa ∨ x < -maxDecimalMantissa ↔ |x| > maxDecimalMantissa := by
    rw [gt_iff_lt, gt_iff_lt, lt_abs]
    exact or_congr_right (by omega)
  unfold checkedNew
  exact if_congr hiff rfl rfl

/-- A valid value passes its own constructor. -/
theorem new_of_valid {d : Decimal} (h : d.Valid) : Decimal.new d.mantissa d.scale = .ok d := by
  have hcanon : Decimal.canonicalize ⟨d.mantissa, d.scale⟩ = d := by
    unfold Decimal.canonicalize
    rw [Scaled.canon_of_canonical h.canonical]
  have hin := inI128_of_le h.mantissa_le
  have hne : d.mantissa ≠ minI 128 := by
    intro hmin
    have hle := h.mantissa_le
    rw [hmin] at hle
    exact absurd hle (by decide)
  unfold Decimal.new
  rw [hcanon, if_neg (not_lt.mpr h.scale_le), absI128_of_ne hin hne,
    if_neg (not_lt.mpr h.mantissa_le)]

/-- **The back ends agree on a subtraction iff the subtrahend is not zero.** -/
theorem decimalSubInternal_eq_iff {a b : Decimal} (ha : a.Valid) (hb : b.Valid) :
    decimalSubInternal a b = decimalSub a b ↔ b.mantissa ≠ 0 := by
  have hsa : a.scale ≤ 36 := ha.scale_le
  have hsb : b.scale ≤ 36 := hb.scale_le
  have hma := inI128_of_le ha.mantissa_le
  have hmb := inI128_of_le hb.mantissa_le
  have hka : max a.scale b.scale - a.scale ≤ 36 := by omega
  have hkb : max a.scale b.scale - b.scale ≤ 36 := by omega
  have hx := mul_lt_maxBits hma (inI128_pow hka)
  have hy := mul_lt_maxBits hmb (inI128_pow hkb)
  unfold decimalSubInternal decimalSub
  rw [scaleMantissa_eq hma hka, ok_bind, scaleMantissa_eq hmb hkb, ok_bind, scaleUp_eq _ hka,
    ok_bind, scaleUp_eq _ hkb, ok_bind]
  by_cases h0 : b.mantissa = 0
  · -- the subtrahend is rejected, although the difference is the other operand
    refine iff_of_false ?_ (not_not_intro h0)
    have hscale : max a.scale b.scale = a.scale := by
      rw [hb.canonical.zero h0]
      omega
    have hle := ha.mantissa_le
    obtain ⟨hlo, hhi⟩ := abs_le.mp hle
    rw [h0, zero_mul, bigintSub_zero, hscale, Nat.sub_self, pow_zero, mul_one, sub_zero]
    unfold checkedNew bigToI128
    rw [if_neg (not_or.mpr ⟨not_lt.mpr hhi, not_lt.mpr hlo⟩), if_pos hma, ok_bind, new_of_valid ha]
    intro h
    cases h
  · refine iff_of_true ?_ h0
    have hne : b.mantissa * 10 ^ (max a.scale b.scale - b.scale) ≠ 0 :=
      mul_ne_zero h0 (Scaled.ten_pow_ne_zero _)
    rw [bigintSub_ofInt (lt_maxBits hx (by norm_num)) (lt_maxBits hy (by norm_num)) hne,
      bounded_of_lt (lt_maxBits (k := 257) (by omega) (by norm_num)), asOverflow_ok, ok_bind,
      finishInternal_ofInt]

/-! ## Multiplication -/

/-- The rounding of `decimal_mul_internal` on integers: at a tie it steps away
when the quotient halved is not zero. -/
def mulRoundHalved (q r divisor : Int) : Int :=
  if |r| > divisor.tdiv 2 then awayFromZero q
  else if |r| = divisor.tdiv 2 ∧ q.tdiv 2 ≠ 0 then awayFromZero q
  else q

theorem absRemainder_ofInt {r : Int} (h : r.natAbs < 2 ^ 256) :
    absRemainder (ofInt r) = .ok (ofInt |r|) := by
  have hr := lt_maxBits h (by norm_num)
  unfold absRemainder
  rw [ofInt_sign]
  by_cases hneg : r < 0
  · rw [decide_eq_true hneg, if_pos rfl, show BigInt.zero = ofInt 0 from rfl,
      bigintSub_ofInt (lt_of_le_of_lt (Nat.zero_le r.natAbs) hr) hr hneg.ne, zero_sub,
      bounded_of_lt (by rw [Int.natAbs_neg]; exact hr), asOverflow_ok, abs_of_neg hneg]
  · rw [decide_eq_false hneg, if_neg Bool.false_ne_true, abs_of_nonneg (not_lt.mp hneg)]

theorem quotientIsOdd_ofInt {q : Int} (h : q.natAbs < 2 ^ 256) :
    quotientIsOdd (ofInt q) = .ok (decide (q.tdiv 2 ≠ 0)) := by
  unfold quotientIsOdd
  rw [i128ToBigint_eq (by decide),
    bigintDivmod_ofInt (lt_maxBits h (by norm_num))
      (lt_maxBits (k := 2) (by decide) (by norm_num)) (by decide),
    asOverflow_ok, ok_bind, isZero_ofInt, decide_not]

theorem stepAway_ofInt {q : Int} (h : q.natAbs < 2 ^ 256) :
    stepAway (ofInt q) = .ok (ofInt (awayFromZero q)) := by
  have hq := lt_maxBits h (by norm_num)
  have h1 : (1 : Int).natAbs < 2 ^ 4096 := lt_maxBits (k := 1) (by decide) (by norm_num)
  unfold stepAway awayFromZero
  rw [ofInt_sign, i128ToBigint_eq (by decide)]
  by_cases hneg : q < 0
  · rw [decide_eq_true hneg, if_pos rfl, if_neg (not_le.mpr hneg),
      bigintSub_ofInt hq h1 (by decide),
      bounded_of_lt (lt_maxBits (k := 257) (by omega) (by norm_num)), asOverflow_ok]
  · rw [decide_eq_false hneg, if_neg Bool.false_ne_true, if_pos (not_lt.mp hneg),
      bigintAdd_ofInt hq h1,
      bounded_of_lt (lt_maxBits (k := 257) (by omega) (by norm_num)), asOverflow_ok]

theorem mulRoundInternal_ofInt {n : Int} (hn : n.natAbs < 2 ^ 256) {k : Nat} (hk : k ≤ 36) :
    mulRoundInternal (ofInt n) (10 ^ k)
      = .ok (ofInt (mulRoundHalved (n.tdiv (10 ^ k)) (n.tmod (10 ^ k)) (10 ^ k))) := by
  have hp := inI128_pow hk
  have hplt := natAbs_lt_of_inI hp
  have hhalf : InI 128 (((10 : Int) ^ k).tdiv 2) := by
    have h1 := Scaled.ten_pow_pos k
    have h2 := Int.tdiv_nonneg (b := 2) h1.le (by norm_num)
    have h3 := Int.tdiv_le_self 2 h1.le
    rw [inI128_iff] at hp ⊢
    omega
  have hq : (n.tdiv (10 ^ k)).natAbs < 2 ^ 256 := lt_of_le_of_lt (Int.natAbs_tdiv_le_natAbs _ _) hn
  have hr : (n.tmod (10 ^ k)).natAbs < 2 ^ 256 := by
    rw [Int.natAbs_tmod]
    exact lt_of_le_of_lt (Nat.mod_le _ _) hn
  unfold mulRoundInternal
  rw [i128ToBigint_eq hp, bigintDivmod_ofInt (lt_maxBits hn (by norm_num))
      (lt_maxBits hplt (by norm_num)) (Scaled.ten_pow_ne_zero k), asOverflow_ok, ok_bind,
    absRemainder_ofInt hr, ok_bind, i128ToBigint_eq hhalf, compareInternal_ofInt]
  unfold roundsUp mulRoundHalved
  by_cases hgt : |n.tmod (10 ^ k)| > ((10 : Int) ^ k).tdiv 2
  · rw [if_pos (threeWay_pos_iff.mpr hgt), ok_bind, if_pos rfl, stepAway_ofInt hq, if_pos hgt]
  rw [if_neg (mt threeWay_pos_iff.mp hgt), if_neg hgt]
  by_cases htie : |n.tmod (10 ^ k)| = ((10 : Int) ^ k).tdiv 2
  · rw [htie, if_pos (threeWay_self _),
      quotientIsOdd_ofInt hq, ok_bind]
    by_cases hz : (n.tdiv (10 ^ k)).tdiv 2 ≠ 0
    · rw [decide_eq_true hz, if_pos rfl, stepAway_ofInt hq, if_pos ⟨rfl, hz⟩]
    · rw [decide_eq_false hz, if_neg Bool.false_ne_true, if_neg fun hand => hz hand.2]
  · have hlt : threeWay |n.tmod (10 ^ k)| (((10 : Int) ^ k).tdiv 2) < 0 :=
      threeWay_neg_iff.mpr (lt_of_le_of_ne (not_lt.mp hgt) htie)
    rw [if_neg hlt.ne, ok_bind, if_neg Bool.false_ne_true, if_neg fun hand => htie hand.1]

/-- A product that is cut at scale 36 exactly half way, with a quotient on
which the parity test is wrong: one, or an even number that is in range. -/
def MulTie (a b : Decimal) : Prop :=
  36 < a.scale + b.scale ∧
  2 * ((a.mantissa * b.mantissa).natAbs % 10 ^ (a.scale + b.scale - 36))
    = 10 ^ (a.scale + b.scale - 36) ∧
  ((a.mantissa * b.mantissa).natAbs / 10 ^ (a.scale + b.scale - 36) = 1 ∨
    ((a.mantissa * b.mantissa).natAbs / 10 ^ (a.scale + b.scale - 36)) % 2 = 0 ∧
    2 ≤ (a.mantissa * b.mantissa).natAbs / 10 ^ (a.scale + b.scale - 36) ∧
    (a.mantissa * b.mantissa).natAbs / 10 ^ (a.scale + b.scale - 36) ≤ 10 ^ 36 - 1)

instance (a b : Decimal) : Decidable (MulTie a b) := inferInstanceAs (Decidable (_ ∧ _ ∧ _))

/-- Two mantissas that pass the range check give different results. -/
theorem checkedNew_inj {x y : Int} {s : Nat} (hs : s ≤ 36) (hx : |x| ≤ maxDecimalMantissa)
    (hy : |y| ≤ maxDecimalMantissa) (h : checkedNew x s = checkedNew y s) : x = y := by
  have heq : ∀ z : Int, |z| ≤ maxDecimalMantissa →
      checkedNew z s = .ok (Decimal.canonicalize ⟨z, s⟩) := by
    intro z hz
    obtain ⟨hlo, hhi⟩ := abs_le.mp hz
    have hcanon := Scaled.abs_canon_le z s
    have hin : InI 128 (Scaled.canon z s).1 := inI128_of_le (hcanon.trans hz)
    have hne : (Scaled.canon z s).1 ≠ minI 128 := by
      intro hmin
      rw [hmin] at hcanon
      exact absurd (hcanon.trans hz) (by decide)
    unfold checkedNew bigToI128 Decimal.new
    rw [if_neg (not_or.mpr ⟨not_lt.mpr hhi, not_lt.mpr hlo⟩), if_pos (inI128_of_le hz), ok_bind,
      if_neg (show ¬ s > maxDecimalScale from not_lt.mpr hs)]
    change (if absI128 (Scaled.canon z s).1 > maxDecimalMantissa then _ else _) = _
    rw [absI128_of_ne hin hne, if_neg (not_lt.mpr (hcanon.trans hz))]
  rw [heq x hx, heq y hy] at h
  injection h with h
  have h1 : (Scaled.canon x s).1 = (Scaled.canon y s).1 := congrArg Decimal.mantissa h
  have h2 : (Scaled.canon x s).2 = (Scaled.canon y s).2 := congrArg Decimal.scale h
  have hval : Scaled.val x s = Scaled.val y s := by
    rw [← Scaled.val_canon x s, ← Scaled.val_canon y s, h1, h2]
  rw [Scaled.val_eq_iff] at hval
  exact mul_right_cancel₀ (Scaled.ten_pow_ne_zero s) hval

theorem checkedNew_of_not_le {x : Int} (h : ¬ |x| ≤ maxDecimalMantissa) (s : Nat) :
    checkedNew x s = .error (.err .overflow) := by
  unfold checkedNew
  rw [if_pos]
  by_contra hno
  obtain ⟨hhi, hlo⟩ := not_or.mp hno
  exact h (abs_le.mpr ⟨not_lt.mp hlo, not_lt.mp hhi⟩)

theorem awayFromZero_natAbs (q : Int) : (awayFromZero q).natAbs = q.natAbs + 1 := by
  unfold awayFromZero
  split <;> omega

theorem mulRoundHalved_near (q r d : Int) :
    mulRoundHalved q r d = q ∨ (mulRoundHalved q r d).natAbs = q.natAbs + 1 := by
  unfold mulRoundHalved
  split
  · exact Or.inr (awayFromZero_natAbs q)
  · split
    · exact Or.inr (awayFromZero_natAbs q)
    · exact Or.inl rfl

theorem mulRound_near (q r d : Int) :
    mulRound q r d = q ∨ (mulRound q r d).natAbs = q.natAbs + 1 := by
  unfold mulRound
  split
  · exact Or.inr (awayFromZero_natAbs q)
  · split
    · split
      · exact Or.inr (awayFromZero_natAbs q)
      · exact Or.inl rfl
    · exact Or.inl rfl

/-- The two roundings differ exactly at a tie, on the quotients whose half is
zero or not where their parity says otherwise. -/
theorem mulRoundHalved_eq_iff (q r d : Int) :
    mulRoundHalved q r d = mulRound q r d ↔
      ¬ (|r| = d.tdiv 2 ∧ (q.natAbs = 1 ∨ q.natAbs % 2 = 0 ∧ 2 ≤ q.natAbs)) := by
  have haway : awayFromZero q ≠ q := by
    intro h
    have := awayFromZero_natAbs q
    omega
  have hq2 : (q.tdiv 2).natAbs = q.natAbs / 2 := Int.natAbs_tdiv q 2
  have hr2 : (q.tmod 2).natAbs = q.natAbs % 2 := Int.natAbs_tmod q 2
  unfold mulRoundHalved mulRound
  by_cases hgt : |r| > d.tdiv 2
  · rw [if_pos hgt, if_pos hgt]
    exact iff_of_true rfl fun h => absurd h.1 hgt.ne'
  · rw [if_neg hgt, if_neg hgt]
    by_cases htie : |r| = d.tdiv 2
    · by_cases hodd : q.tmod 2 ≠ 0
      · have hq : q ≠ 0 := by
          rintro rfl
          exact hodd rfl
        rw [if_pos (c := _ ∧ q ≠ 0) ⟨htie, hq⟩, if_pos hodd]
        by_cases hhalf : q.tdiv 2 ≠ 0
        · rw [if_pos ⟨htie, hhalf⟩]
          exact iff_of_true rfl fun h => by omega
        · rw [if_neg fun h => hhalf h.2]
          exact iff_of_false haway.symm (not_not_intro ⟨htie, by omega⟩)
      · have hmul : (if |r| = d.tdiv 2 ∧ q ≠ 0 then if q.tmod 2 ≠ 0 then awayFromZero q else q
            else q) = q := by
          rw [if_neg hodd, ite_self]
        rw [hmul]
        by_cases hhalf : q.tdiv 2 ≠ 0
        · rw [if_pos ⟨htie, hhalf⟩]
          exact iff_of_false haway (not_not_intro ⟨htie, by omega⟩)
        · rw [if_neg fun h => hhalf h.2]
          exact iff_of_true rfl fun h => by omega
    · rw [if_neg fun h => htie h.1, if_neg fun h => htie h.1]
      exact iff_of_true rfl fun h => htie h.1

/-- Out of range, the even quotient of a tie overflows either way; in range,
the two roundings give different decimals. -/
theorem roundings_agree_iff (q r d : Int) :
    checkedNew (mulRoundHalved q r d) maxDecimalScale = checkedNew (mulRound q r d) maxDecimalScale
      ↔ ¬ (|r| = d.tdiv 2 ∧ (q.natAbs = 1 ∨
          q.natAbs % 2 = 0 ∧ 2 ≤ q.natAbs ∧ q.natAbs ≤ 10 ^ 36 - 1)) := by
  have hiff := mulRoundHalved_eq_iff q r d
  have hmax := maxDecimalMantissa_eq
  by_cases heq : mulRoundHalved q r d = mulRound q r d
  · rw [heq]
    exact iff_of_true rfl fun h => hiff.mp heq ⟨h.1, h.2.imp_right fun h => ⟨h.1, h.2.1⟩⟩
  obtain ⟨htie, hq⟩ := not_not.mp (mt hiff.mpr heq)
  have hx := mulRoundHalved_near q r d
  have hy := mulRound_near q r d
  by_cases hbig : q.natAbs ≤ 10 ^ 36 - 1
  · refine iff_of_false ?_ (not_not_intro ⟨htie, by omega⟩)
    intro h
    -- an even quotient in range leaves room for the step
    refine heq (checkedNew_inj le_rfl ?_ ?_ h)
    · rw [Int.abs_eq_natAbs]
      omega
    · rw [Int.abs_eq_natAbs]
      omega
  · have hout : ∀ z : Int, z = q ∨ z.natAbs = q.natAbs + 1 → ¬ |z| ≤ maxDecimalMantissa := by
      intro z hz
      rw [Int.abs_eq_natAbs]
      omega
    rw [checkedNew_of_not_le (hout _ hx), checkedNew_of_not_le (hout _ hy)]
    exact iff_of_true rfl fun h => by omega

/-- **The back ends agree on a product iff it is not such a tie.** -/
theorem decimalMulInternal_eq_iff {a b : Decimal} (ha : a.Valid) (hb : b.Valid) :
    decimalMulInternal a b = decimalMul a b ↔ ¬ MulTie a b := by
  have hsa : a.scale ≤ 36 := ha.scale_le
  have hsb : b.scale ≤ 36 := hb.scale_le
  have hma := inI128_of_le ha.mantissa_le
  have hmb := inI128_of_le hb.mantissa_le
  have hn := mul_lt_maxBits hma hmb
  have hraw : (a.scale + b.scale) % 256 = a.scale + b.scale := Nat.mod_eq_of_lt (by omega)
  unfold decimalMulInternal decimalMul MulTie
  rw [show i128ToBigint = fromI128 from rfl, bigintMul_fromI128 hma hmb, asOverflow_ok, ok_bind,
    hraw]
  generalize a.mantissa * b.mantissa = n at hn
  by_cases hover : a.scale + b.scale > maxDecimalScale
  · -- digits are cut, and the two roundings decide
    have h36 : 36 < a.scale + b.scale := hover
    have hk : a.scale + b.scale - 36 ≤ 36 := by omega
    obtain ⟨j, hj⟩ : ∃ j, a.scale + b.scale - 36 = j + 1 := ⟨a.scale + b.scale - 37, by omega⟩
    rw [if_pos hover, if_pos hover, show a.scale + b.scale - maxDecimalScale
        = a.scale + b.scale - 36 from rfl, index_pow10 hk, ok_bind, ok_bind,
      mulRoundInternal_ofInt hn hk, ok_bind, finishInternal_ofInt]
    have hq : (n.tdiv (10 ^ (a.scale + b.scale - 36))).natAbs
        = n.natAbs / 10 ^ (a.scale + b.scale - 36) := by
      rw [Int.natAbs_tdiv, Int.natAbs_pow]
      rfl
    have hr : (n.tmod (10 ^ (a.scale + b.scale - 36))).natAbs
        = n.natAbs % 10 ^ (a.scale + b.scale - 36) := by
      rw [Int.natAbs_tmod, Int.natAbs_pow]
      rfl
    have htie : |n.tmod (10 ^ (a.scale + b.scale - 36))|
          = ((10 : Int) ^ (a.scale + b.scale - 36)).tdiv 2 ↔
        2 * (n.natAbs % 10 ^ (a.scale + b.scale - 36)) = 10 ^ (a.scale + b.scale - 36) := by
      have hcast : ((10 : Int) ^ (j + 1)).tdiv 2 = ((10 ^ (j + 1) / 2 : Nat) : Int) := by
        push_cast
        exact Int.tdiv_eq_ediv_of_nonneg (by positivity)
      rw [Int.abs_eq_natAbs, hr, hj, hcast, Nat.cast_inj, pow_succ]
      omega
    rw [← hq, ← htie, roundings_agree_iff, and_iff_right h36]
  · have hno : ¬ 36 < a.scale + b.scale := hover
    rw [if_neg hover, if_neg hover, finishInternal_ofInt, checkedNew_eq_abs]
    exact iff_of_true rfl fun h => hno h.1

/-! ## Square root -/

/-- The radicand of a valid operand is far below the size limit. -/
theorem sqrtRadicandInternal_eq {a : Decimal} (ha : a.Valid) (hpos : 0 < a.mantissa) :
    ∃ n : Int, 0 < n ∧ n.natAbs < 2 ^ 384 ∧ sqrtRadicand a = .ok n ∧
      sqrtRadicandInternal a = .ok (ofInt n) := by
  have hsa : a.scale ≤ 36 := ha.scale_le
  have hma := inI128_of_le ha.mantissa_le
  have hscale : sqrtScale a = min (a.scale + 6) 36 := rfl
  have h36 := inI128_pow (le_refl 36)
  unfold sqrtRadicand sqrtRadicandInternal
  by_cases hbig : 2 * (sqrtScale a : Int) - a.scale > 36
  · have hk : (2 * (sqrtScale a : Int) - a.scale - 36).toNat ≤ 36 := by omega
    have hlo := inI128_pow hk
    have hpart := mul_lt_maxBits hma hlo
    have hprod : (a.mantissa * 10 ^ (2 * (sqrtScale a : Int) - a.scale - 36).toNat
        * 10 ^ 36).natAbs < 2 ^ (256 + 128) := by
      rw [Int.natAbs_mul, pow_add]
      exact Nat.mul_lt_mul_of_lt_of_lt hpart (natAbs_lt_of_inI h36)
    refine ⟨a.mantissa * 10 ^ (2 * (sqrtScale a : Int) - a.scale - 36).toNat * 10 ^ 36,
      by positivity, hprod, ?_, ?_⟩
    · rw [if_pos hbig, index_pow10 hk, ok_bind, index_pow10 le_rfl, ok_bind]
    · rw [if_pos hbig, index_pow10 hk, ok_bind, index_pow10 le_rfl, ok_bind,
        show i128ToBigint = fromI128 from rfl, bigintMul_fromI128 hma hlo, asOverflow_ok, ok_bind,
        fromI128_eq h36, bigintMul_ofInt (lt_maxBits hpart (by norm_num))
          (lt_maxBits (natAbs_lt_of_inI h36) (by norm_num)),
        bounded_of_lt (lt_maxBits hprod (by norm_num)), asOverflow_ok]
  · have hnonneg : 2 * (sqrtScale a : Int) - a.scale ≥ 0 := by omega
    have hk : (2 * (sqrtScale a : Int) - a.scale).toNat ≤ 36 := by omega
    have hpow := inI128_pow hk
    refine ⟨a.mantissa * 10 ^ (2 * (sqrtScale a : Int) - a.scale).toNat, by positivity,
      lt_of_lt_of_le (mul_lt_maxBits hma hpow) (Nat.pow_le_pow_right (by norm_num) (by omega)),
      ?_, ?_⟩
    · rw [if_neg hbig, if_pos hnonneg, index_pow10 hk, ok_bind]
    · rw [if_neg hbig, if_pos hnonneg, index_pow10 hk, ok_bind,
        show i128ToBigint = fromI128 from rfl, bigintMul_fromI128 hma hpow, asOverflow_ok]

/-- The Newton loop on canonical values is the loop on integers; the iterate
stays below `2^400`. -/
theorem newtonLoopInternal_ofInt {n : Int} (hn : 0 < n) (hlt : n < 2 ^ 400) :
    ∀ (k : Nat) (x : Int), 0 ≤ x → x < 2 ^ 400 →
      newtonLoopInternal (ofInt n) k (ofInt x) = .ok (ofInt (newtonLoop n k x)) ∧
        newtonLoop n k x < 2 ^ 400 := by
  have hsize : ∀ z : Int, 0 ≤ z → z < 2 ^ 401 → z.natAbs < 2 ^ 4096 := by
    intro z hz hlt
    exact lt_maxBits (k := 401) (by omega) (by norm_num)
  intro k
  induction k with
  | zero =>
    intro x _ hx
    exact ⟨rfl, hx⟩
  | succ k ih =>
    intro x hx0 hx
    unfold newtonLoopInternal newtonLoop
    rw [isZero_ofInt]
    by_cases h0 : x = 0
    · rw [decide_eq_true h0, if_pos rfl, if_pos h0]
      exact ⟨rfl, hx⟩
    have hq0 : 0 ≤ n.tdiv x := Int.tdiv_nonneg hn.le hx0
    have hq : n.tdiv x ≤ n := Int.tdiv_le_self x hn.le
    have hsum : (x + n.tdiv x).tdiv 2 = (x + n.tdiv x) / 2 :=
      Int.tdiv_eq_ediv_of_nonneg (by omega)
    rw [decide_eq_false h0, if_neg Bool.false_ne_true, if_neg h0,
      bigintDivmod_ofInt (hsize n hn.le (by omega)) (hsize x hx0 (by omega)) h0, asOverflow_ok,
      ok_bind, bigintAdd_ofInt (hsize x hx0 (by omega)) (hsize _ hq0 (by omega)),
      bounded_of_lt (hsize _ (by omega) (by omega)), asOverflow_ok, ok_bind,
      i128ToBigint_eq (by decide),
      bigintDiv_ofInt (hsize _ (by omega) (by omega)) (hsize 2 (by decide) (by omega))
        (by decide), asOverflow_ok, ok_bind, hsum]
    exact ih _ (by omega) (by omega)

theorem sqrtRootInternal_ofInt {n : Int} (hn : 0 < n) (hlt : n.natAbs < 2 ^ 384) :
    sqrtRootInternal (ofInt n) = .ok (ofInt (sqrtRoot n)) := by
  have hbits : bitLen n.natAbs ≤ 384 := bitLen_le_iff.mpr hlt
  have hbits1 : max 1 (bitLen n.natAbs) = bitLen n.natAbs :=
    max_eq_right (bitLen_pos (by omega))
  have hpow : ((2 : Int) ^ ((bitLen n.natAbs + 1) / 2)) ≤ 2 ^ 192 :=
    pow_le_pow_right₀ (by norm_num) (by omega)
  have hloop := newtonLoopInternal_ofInt hn (by omega) 40 (2 ^ ((bitLen n.natAbs + 1) / 2))
    (by positivity) (by omega)
  have hnonneg := newtonLoop_nonneg hn.le 40 (2 ^ ((bitLen n.natAbs + 1) / 2)) (by positivity)
  unfold sqrtRootInternal sqrtRoot
  rw [bitLength_ofInt, asOverflow_ok, ok_bind, hbits1, i128ToBigint_eq (by decide),
    bigintShl_ofInt (by rw [show max 1 (bitLen (1 : Int).natAbs) = 1 by decide]; omega),
    asOverflow_ok, ok_bind, one_mul, hloop.1, ok_bind]
  generalize newtonLoop n 40 (2 ^ ((bitLen n.natAbs + 1) / 2)) = x at hloop hnonneg
  have hx : x.natAbs < 2 ^ 400 := by omega
  have hxx : (x * x).natAbs < 2 ^ (400 + 400) := by
    rw [Int.natAbs_mul, pow_add]
    exact Nat.mul_lt_mul_of_lt_of_lt hx hx
  have hxbits := lt_maxBits hx (by norm_num)
  rw [bigintMul_ofInt hxbits hxbits, bounded_of_lt (lt_maxBits hxx (by norm_num)), asOverflow_ok,
    ok_bind, compareInternal_ofInt]
  dsimp only
  by_cases hgt : x * x > n
  · rw [if_pos (threeWay_pos_iff.mpr hgt), if_pos hgt,
      bigintSub_ofInt hxbits (lt_maxBits (k := 1) (by decide) (by norm_num)) (by decide),
      bounded_of_lt (lt_maxBits (k := 401) (by omega) (by norm_num)), asOverflow_ok]
  · rw [if_neg (mt threeWay_pos_iff.mp hgt), if_neg hgt]

theorem decimalSqrtInternal_eq {a : Decimal} (ha : a.Valid) :
    decimalSqrtInternal a = decimalSqrt a := by
  unfold decimalSqrtInternal decimalSqrt
  by_cases hneg : a.mantissa < 0
  · rw [if_pos hneg, if_pos hneg]
  by_cases h0 : a.mantissa = 0
  · rw [if_neg hneg, if_neg hneg, if_pos h0, if_pos h0]
  obtain ⟨n, hn, hlt, heq, hint⟩ := sqrtRadicandInternal_eq ha (by omega)
  rw [if_neg hneg, if_neg hneg, if_neg h0, if_neg h0, heq, hint, ok_bind, ok_bind,
    sqrtRootInternal_ofInt hn hlt, ok_bind, finishInternal_ofInt, checkedNew_eq_abs,
    abs_of_nonneg (sqrtRoot_nonneg hn.le)]

/-! ## Comparison -/

theorem scaleOrMax_eq {m : Int} (hm : InI 128 m) {k : Nat} (hk : k ≤ 36) :
    scaleOrMax m k = .ok (ofInt (m * 10 ^ k)) := by
  unfold scaleOrMax
  rw [scaleMantissa_eq hm hk]

/-- Zero on the right makes the subtraction fail, and the fallback compares the
mantissas, which is right there: a canonical zero has scale zero. -/
theorem decimalCmpInternal_eq {a b : Decimal} (ha : a.Valid) (hb : b.Valid) :
    decimalCmpInternal a b = decimalCmp a b := by
  have hsa : a.scale ≤ 36 := ha.scale_le
  have hsb : b.scale ≤ 36 := hb.scale_le
  have hma := inI128_of_le ha.mantissa_le
  have hmb := inI128_of_le hb.mantissa_le
  have hka : max a.scale b.scale - a.scale ≤ 36 := by omega
  have hkb : max a.scale b.scale - b.scale ≤ 36 := by omega
  unfold decimalCmpInternal decimalCmp
  by_cases hs : a.scale = b.scale
  · rw [if_pos hs, if_pos hs]
  rw [if_neg hs, if_neg hs, scaleOrMax_eq hma hka, ok_bind, scaleOrMax_eq hmb hkb, ok_bind,
    index_pow10 hka, ok_bind, index_pow10 hkb, ok_bind]
  by_cases h0 : b.mantissa = 0
  · have hb0 := hb.canonical.zero h0
    have ha0 : a.mantissa ≠ 0 := by
      intro hzero
      exact hs ((ha.canonical.zero hzero).trans hb0.symm)
    have hscale : max a.scale b.scale - a.scale = 0 := by omega
    rw [h0, zero_mul, bigintSub_zero, hscale, pow_zero, mul_one]
    unfold threeWay
    rcases lt_or_gt_of_ne ha0 with h | h
    · rw [if_pos h, if_neg (not_le.mpr h)]
    · rw [if_neg h.not_gt, if_pos h, if_pos h.le]
  · have hx := mul_lt_maxBits hma (inI128_pow hka)
    have hy := mul_lt_maxBits hmb (inI128_pow hkb)
    have hne : b.mantissa * 10 ^ (max a.scale b.scale - b.scale) ≠ 0 :=
      mul_ne_zero h0 (Scaled.ten_pow_ne_zero _)
    rw [bigintSub_ofInt (lt_maxBits hx (by norm_num)) (lt_maxBits hy (by norm_num)) hne,
      bounded_of_lt (lt_maxBits (k := 257) (by omega) (by norm_num))]
    dsimp only
    rw [show BigInt.zero = ofInt 0 from rfl, compareInternal_ofInt]
    unfold threeWay
    generalize a.mantissa * 10 ^ (max a.scale b.scale - a.scale) = x
    generalize b.mantissa * 10 ^ (max a.scale b.scale - b.scale) = y
    rcases lt_trichotomy x y with h | h | h
    · rw [if_pos (show x - y < 0 by omega), if_pos h]
      rfl
    · rw [if_neg (show ¬ x - y < 0 by omega), if_neg (show ¬ x - y > 0 by omega), if_neg h.not_lt,
        if_neg h.not_gt]
      rfl
    · rw [if_neg (show ¬ x - y < 0 by omega), if_pos (show x - y > 0 by omega), if_neg h.not_gt,
        if_pos h]
      rfl

/-! ## The two back ends -/

/-- **The back ends agree on add, div, sqrt, round and cmp, on a subtraction
iff the subtrahend is not zero, and on a product iff it is not a tie the parity
test gets wrong.** Division and rounding are the same `i128` code. -/
theorem backEnds_agree_iff {a b : Decimal} (ha : a.Valid) (hb : b.Valid) (targetScale : Nat)
    (mode : RoundingMode) :
    decimalAddInternal a b = decimalAdd a b ∧
    (decimalSubInternal a b = decimalSub a b ↔ b.mantissa ≠ 0) ∧
    (decimalMulInternal a b = decimalMul a b ↔ ¬ MulTie a b) ∧
    decimalDivInternal a b targetScale = decimalDiv a b targetScale ∧
    decimalSqrtInternal a = decimalSqrt a ∧
    decimalRoundInternal a targetScale mode = decimalRound a targetScale mode ∧
    decimalCmpInternal a b = decimalCmp a b :=
  ⟨decimalAddInternal_eq ha hb, decimalSubInternal_eq_iff ha hb, decimalMulInternal_eq_iff ha hb,
    rfl, decimalSqrtInternal_eq ha, rfl, decimalCmpInternal_eq ha hb⟩

theorem backEnds_agree_iff_tie :
    (Decimal.mk 5 1).Valid ∧ (Decimal.mk 5 36).Valid ∧
      decimalMulInternal ⟨5, 1⟩ ⟨5, 36⟩ ≠ decimalMul ⟨5, 1⟩ ⟨5, 36⟩ :=
  ⟨by decide, by decide, fun h =>
    (backEnds_agree_iff (a := ⟨5, 1⟩) (b := ⟨5, 36⟩) (by decide) (by decide) 0
      .roundDown).2.2.1.mp h (by decide)⟩

/-- `1 - 0`: an overflow from one back end, `1` from the other. -/
theorem sub_zero_disagrees :
    (Decimal.mk 1 0).Valid ∧ (Decimal.mk 0 0).Valid ∧
      decimalSubInternal ⟨1, 0⟩ ⟨0, 0⟩ = .error (.err .overflow) ∧
      decimalSub ⟨1, 0⟩ ⟨0, 0⟩ = .ok ⟨1, 0⟩ :=
  ⟨by decide, by decide, by rfl, by rfl⟩

end CipherOcto.Determin
