import CipherOcto.Determin.BigIntDiv
import CipherOcto.Determin.Dqa

/-!
# `Decimal`: deterministic decimal arithmetic

`determin/src/decimal.rs` keeps an `i128` mantissa and a scale up to 36. A
`Decimal` is *valid* when its mantissa is below `10^36`, its scale at most 36,
and it has no trailing zero to strip. This file has the type, the operations,
the conversions, the byte form and the parser.

Intermediates of add, sub, mul, sqrt and cmp are arbitrary-precision in the
source, so they are integers here; the scaled dividend of `decimal_div` goes
through the `BigInt` of `bigint.rs`, and the rest of that function is `i128`
arithmetic in a wrapping build (`wrapI 128`). The power table of `decimal.rs`
is the one of `dqa.rs`.

`Decimal::new` is the gate every function ends in. It checks the mantissa with
`abs`, which returns `i128::MIN` unchanged, so that one mantissa passes:

> `new_allValid_iff`: `Decimal::new` returns only valid values iff it is not
> called with `i128::MIN` (at a scale it accepts).

`returned_valid_iff` has the exact condition for each function.
-/

namespace CipherOcto.Determin

open Machine

inductive DecimalError where
  | overflow
  | divisionByZero
  | invalidScale
  | nonCanonical
  | conversionLoss
  | parseError
deriving Repr, DecidableEq

inductive RoundingMode where
  | roundHalfEven
  | roundDown
  | roundUp
deriving Repr, DecidableEq

def maxDecimalScale : Nat := 36

def maxDecimalMantissa : Int := 10 ^ 36 - 1

@[ext]
structure Decimal where
  mantissa : Int
  scale : Nat
deriving Repr, DecidableEq

/-- `x.abs()` on an `i128`: the most negative value is its own. -/
def absI128 (x : Int) : Int := wrapI 128 |x|

namespace Decimal

/-- The fields really are an `i128` and a `u8`. -/
def WellTyped (d : Decimal) : Prop := InI 128 d.mantissa ∧ d.scale < 256

instance (d : Decimal) : Decidable d.WellTyped := inferInstanceAs (Decidable (_ ∧ _))

/-- In range and canonical. -/
structure Valid (d : Decimal) : Prop where
  mantissa_le : |d.mantissa| ≤ maxDecimalMantissa
  scale_le : d.scale ≤ maxDecimalScale
  canonical : Scaled.Canonical d.mantissa d.scale

instance (d : Decimal) : Decidable d.Valid :=
  decidable_of_iff (|d.mantissa| ≤ maxDecimalMantissa ∧ d.scale ≤ maxDecimalScale ∧
      Scaled.Canonical d.mantissa d.scale)
    ⟨fun h => ⟨h.1, h.2.1, h.2.2⟩, fun h => ⟨h.mantissa_le, h.scale_le, h.canonical⟩⟩

/-- `canonicalize`. -/
def canonicalize (d : Decimal) : Decimal :=
  ⟨(Scaled.canon d.mantissa d.scale).1, (Scaled.canon d.mantissa d.scale).2⟩

/-- `Decimal::new`. -/
def new (mantissa : Int) (scale : Nat) : Run DecimalError Decimal :=
  if scale > maxDecimalScale then .error (.err .invalidScale)
  else if absI128 (canonicalize ⟨mantissa, scale⟩).mantissa > maxDecimalMantissa then
    .error (.err .overflow)
  else .ok (canonicalize ⟨mantissa, scale⟩)

end Decimal

/-- `to_i128`, with the caller's `ok_or`. -/
def bigToI128 (x : Int) : Run DecimalError Int :=
  if InI 128 x then .ok x else .error (.err .overflow)

/-- The range check of the operations, and `Decimal::new`. -/
def checkedNew (x : Int) (scale : Nat) : Run DecimalError Decimal :=
  if x > maxDecimalMantissa ∨ x < -maxDecimalMantissa then .error (.err .overflow)
  else do
    let v ← bigToI128 x
    Decimal.new v scale

/-- A mantissa at a larger scale. -/
def scaleUp (mantissa : Int) (diff : Nat) : Run DecimalError Int :=
  if diff > 0 then do
    let power ← index pow10 diff
    .ok (mantissa * power)
  else .ok mantissa

/-- `decimal_add`. -/
def decimalAdd (a b : Decimal) : Run DecimalError Decimal := do
  let aVal ← scaleUp a.mantissa (max a.scale b.scale - a.scale)
  let bVal ← scaleUp b.mantissa (max a.scale b.scale - b.scale)
  checkedNew (aVal + bVal) (max a.scale b.scale)

/-- `decimal_sub`. -/
def decimalSub (a b : Decimal) : Run DecimalError Decimal := do
  let aVal ← scaleUp a.mantissa (max a.scale b.scale - a.scale)
  let bVal ← scaleUp b.mantissa (max a.scale b.scale - b.scale)
  checkedNew (aVal - bVal) (max a.scale b.scale)

/-- One away from zero, with zero counted as positive. -/
def awayFromZero (q : Int) : Int := if q ≥ 0 then q + 1 else q - 1

/-- The rounding of `decimal_mul`, on a truncated quotient. -/
def mulRound (q r divisor : Int) : Int :=
  if |r| > divisor.tdiv 2 then awayFromZero q
  else if |r| = divisor.tdiv 2 ∧ q ≠ 0 then
    if q.tmod 2 ≠ 0 then awayFromZero q else q
  else q

/-- `decimal_mul`; the raw scale is a wrapping `u8` sum. -/
def decimalMul (a b : Decimal) : Run DecimalError Decimal :=
  if (a.scale + b.scale) % 256 > maxDecimalScale then do
    let divisor ← index pow10 ((a.scale + b.scale) % 256 - maxDecimalScale)
    checkedNew (mulRound ((a.mantissa * b.mantissa).tdiv divisor)
      ((a.mantissa * b.mantissa).tmod divisor) divisor) maxDecimalScale
  else if |a.mantissa * b.mantissa| > maxDecimalMantissa then .error (.err .overflow)
  else do
    let product ← bigToI128 (a.mantissa * b.mantissa)
    Decimal.new product ((a.scale + b.scale) % 256)

/-! ## Division -/

/-- `map_err(|_| DecimalError::Overflow)`. -/
def asOverflow {α : Type} : Run BigIntError α → Run DecimalError α
  | .ok x => .ok x
  | .error (.err _) => .error (.err .overflow)
  | .error .panic => .error .panic

/-- The result scale of `decimal_div`: six more digits, at most 36. -/
def divTargetScale (a b : Decimal) : Nat := min ((max a.scale b.scale + 6) % 256) maxDecimalScale

/-- `scale_diff`. -/
def divScaleDiff (a b : Decimal) : Int := divTargetScale a b - a.scale + b.scale

/-- The dividend at the scale the quotient needs, from its absolute value. -/
def scaleDividend (absA scaleDiff : Int) : Run DecimalError Int :=
  if scaleDiff > 0 then do
    let power ← index pow10 scaleDiff.toNat
    let scaled ← asOverflow (bigintMul (BigInt.fromI128 power) (BigInt.fromI128 absA))
    asOverflow scaled.toI128
  else if scaleDiff < 0 then do
    let divisor ← index pow10 (-scaleDiff).toNat
    if absA.tmod divisor > divisor.tdiv 2 ∨
        (absA.tmod divisor = divisor.tdiv 2 ∧ (absA.tdiv divisor).tmod 2 ≠ 0) then
      .ok (wrapI 128 (absA.tdiv divisor + 1))
    else .ok (absA.tdiv divisor)
  else .ok absA

/-- The quotient of `decimal_div`, rounded on the magnitude. -/
def divRound (magnitude absB : Int) : Int :=
  if magnitude.tmod absB < absB.tdiv 2 then magnitude.tdiv absB
  else if magnitude.tmod absB > absB.tdiv 2 then wrapI 128 (magnitude.tdiv absB + 1)
  else if (magnitude.tdiv absB).tmod 2 = 0 then magnitude.tdiv absB
  else wrapI 128 (magnitude.tdiv absB + 1)

/-- `decimal_div`. The requested scale is not used. -/
def decimalDiv (a b : Decimal) (_targetScale : Nat) : Run DecimalError Decimal :=
  if b.mantissa = 0 then .error (.err .divisionByZero)
  else do
    let scaled ← scaleDividend (absI128 a.mantissa) (divScaleDiff a b)
    let result := divRound (absI128 scaled) (absI128 b.mantissa)
    Decimal.new
      (if decide (a.mantissa < 0) != decide (b.mantissa < 0) then wrapI 128 (-result) else result)
      (divTargetScale a b)

/-! ## Square root, rounding, comparison -/

/-- `for _ in 0..n { if x == 0 { break } x = (x + n / x) >> 1 }`. -/
def newtonLoop (scaledN : Int) : Nat → Int → Int
  | 0, x => x
  | k + 1, x => if x = 0 then x else newtonLoop scaledN k ((x + scaledN.tdiv x) / 2)

/-- The result scale of `decimal_sqrt`. -/
def sqrtScale (a : Decimal) : Nat := min (a.scale + 6) maxDecimalScale

/-- The radicand: the mantissa at twice the result scale, in two factors when
the power is past the table. -/
def sqrtRadicand (a : Decimal) : Run DecimalError Int :=
  if 2 * (sqrtScale a : Int) - a.scale > 36 then do
    let lo ← index pow10 (2 * (sqrtScale a : Int) - a.scale - 36).toNat
    let hi ← index pow10 36
    .ok (a.mantissa * lo * hi)
  else if 2 * (sqrtScale a : Int) - a.scale ≥ 0 then do
    let power ← index pow10 (2 * (sqrtScale a : Int) - a.scale).toNat
    .ok (a.mantissa * power)
  else .error (.err .overflow)

/-- The integer root: 40 Newton steps from `2^ceil(bits / 2)`, less one if the
square is too large. -/
def sqrtRoot (scaledN : Int) : Int :=
  let x := newtonLoop scaledN 40 (2 ^ ((bitLen scaledN.natAbs + 1) / 2))
  if x * x > scaledN then x - 1 else x

/-- `decimal_sqrt`. A negative operand is reported as `InvalidScale`. -/
def decimalSqrt (a : Decimal) : Run DecimalError Decimal :=
  if a.mantissa < 0 then .error (.err .invalidScale)
  else if a.mantissa = 0 then Decimal.new 0 0
  else do
    let scaledN ← sqrtRadicand a
    if sqrtRoot scaledN > maxDecimalMantissa then .error (.err .overflow)
    else do
      let mantissa ← bigToI128 (sqrtRoot scaledN)
      Decimal.new mantissa (sqrtScale a)

/-- The rounding of `decimal_round`, on a truncated quotient. -/
def roundQuotient (mode : RoundingMode) (mantissa q r divisor : Int) : Int :=
  match mode with
  | .roundHalfEven =>
    if |r| < divisor.tdiv 2 then q
    else if |r| > divisor.tdiv 2 then q + mantissa.sign
    else if q.tmod 2 = 0 then q
    else q + mantissa.sign
  | .roundDown => q
  | .roundUp =>
    if r > 0 ∧ mantissa > 0 then q + 1
    else if r < 0 ∧ mantissa < 0 then q - 1
    else q

/-- `decimal_round`. -/
def decimalRound (d : Decimal) (targetScale : Nat) (mode : RoundingMode) :
    Run DecimalError Decimal :=
  if targetScale ≥ d.scale then .ok d
  else do
    let divisor ← index pow10 (d.scale - targetScale)
    Decimal.new (roundQuotient mode d.mantissa (d.mantissa.tdiv divisor)
      (d.mantissa.tmod divisor) divisor) targetScale

/-- `decimal_cmp`. -/
def decimalCmp (a b : Decimal) : Run DecimalError Int :=
  if a.scale = b.scale then .ok (threeWay a.mantissa b.mantissa)
  else do
    let powerA ← index pow10 (max a.scale b.scale - a.scale)
    let powerB ← index pow10 (max a.scale b.scale - b.scale)
    .ok (threeWay (a.mantissa * powerA) (b.mantissa * powerB))

/-! ## Conversions -/

/-- `dqa_to_decimal`. -/
def dqaToDecimal (d : Dqa) : Run DecimalError Decimal := Decimal.new d.value d.scale

/-- `bigint_to_decimal`. -/
def bigintToDecimal (value : Int) : Run DecimalError Decimal := Decimal.new value 0

/-- `while temp % 10 == 0 { trailing_zeros += 1; temp /= 10 }`, for a non-zero
start. -/
def trailingZeros (temp : Int) : Nat :=
  if h : temp ≠ 0 ∧ temp.tmod 10 = 0 then trailingZeros (temp.tdiv 10) + 1 else 0
termination_by temp.natAbs
decreasing_by
  rw [Int.natAbs_tdiv]
  exact Nat.div_lt_self (Int.natAbs_pos.mpr h.1) (by norm_num)

/-- The scale field of the wire form. -/
def wireScale (bytes : List UInt8) : Nat := (bytes.getD 4 0).toNat

/-- The mantissa field, big-endian two's complement. -/
def wireMantissa (bytes : List UInt8) : Int :=
  Bytes.signed 128 (Bytes.beNat ((bytes.drop 8).take 16))

/-- The reserved bytes are not all zero. -/
def wireReservedSet (bytes : List UInt8) : Prop :=
  bytes.getD 1 0 ≠ 0 ∨ (bytes.drop 2).take 2 ≠ [0, 0] ∨ (bytes.drop 5).take 3 ≠ [0, 0, 0]

instance (bytes : List UInt8) : Decidable (wireReservedSet bytes) :=
  inferInstanceAs (Decidable (_ ∨ _ ∨ _))

/-- `decimal_from_bytes`, on 24 bytes. The zero count is compared with the
scale, so integers (scale zero) are rejected too. -/
def decimalFromBytes (bytes : List UInt8) : Run DecimalError Decimal :=
  if bytes.getD 0 0 ≠ 1 then .error (.err .nonCanonical)
  else if wireReservedSet bytes then .error (.err .nonCanonical)
  else if wireScale bytes > maxDecimalScale then .error (.err .invalidScale)
  else if wireMantissa bytes = 0 ∧ wireScale bytes ≠ 0 then .error (.err .nonCanonical)
  else if absI128 (wireMantissa bytes) ≠ 0 ∧
      trailingZeros (absI128 (wireMantissa bytes)) ≥ wireScale bytes then
    .error (.err .nonCanonical)
  else Decimal.new (wireMantissa bytes) (wireScale bytes)

/-! ## Parsing -/

/-- `char::is_whitespace`: the Unicode `White_Space` property. -/
def isWhitespace (c : Char) : Bool :=
  (0x9 ≤ c.toNat && c.toNat ≤ 0xd) || c.toNat == 0x20 || c.toNat == 0x85 || c.toNat == 0xa0 ||
    c.toNat == 0x1680 || (0x2000 ≤ c.toNat && c.toNat ≤ 0x200a) || c.toNat == 0x2028 ||
    c.toNat == 0x2029 || c.toNat == 0x202f || c.toNat == 0x205f || c.toNat == 0x3000

/-- `str::trim`. -/
def trimWhitespace (s : List Char) : List Char :=
  ((s.dropWhile isWhitespace).reverse.dropWhile isWhitespace).reverse

/-- The number a digit string denotes. -/
def digitsVal (ds : List Char) : Nat := ds.foldl (fun acc c => 10 * acc + (c.toNat - 48)) 0

/-- `parse::<i128>()` of a digit string. -/
def parseI128 (ds : List Char) : Run DecimalError Int :=
  if (digitsVal ds : Int) ≤ maxI 128 then .ok (digitsVal ds) else .error (.err .parseError)

/-- An optional leading sign. -/
def splitSign : List Char → Int × List Char
  | '+' :: body => (1, body)
  | '-' :: body => (-1, body)
  | body => (1, body)

/-- The parser below the sign: integer and fractional digits. -/
def parseParts (sign : Int) (intPart fracPart : List Char) : Run DecimalError Decimal :=
  if intPart.isEmpty then .error (.err .parseError)
  else if intPart.contains 'e' || intPart.contains 'E' || fracPart.contains 'e' ||
      fracPart.contains 'E' then .error (.err .parseError)
  else if !intPart.all Char.isDigit || !fracPart.all Char.isDigit then .error (.err .parseError)
  else if (intPart ++ fracPart).isEmpty then .error (.err .parseError)
  else if fracPart.length > maxDecimalScale then .error (.err .invalidScale)
  else do
    let mantissaAbs ← parseI128 (intPart ++ fracPart)
    let mantissa ← bigToI128 (sign * mantissaAbs)
    Decimal.new mantissa fracPart.length

/-- `Decimal::from_str`. -/
def decimalFromStr (s : String) : Run DecimalError Decimal :=
  let trimmed := trimWhitespace s.toList
  if trimmed.isEmpty then .error (.err .parseError)
  else if trimmed.any isWhitespace then .error (.err .parseError)
  else if (splitSign trimmed).2.isEmpty then .error (.err .parseError)
  else
    match (splitSign trimmed).2.splitOn '.' with
    | [intPart] => parseParts (splitSign trimmed).1 intPart []
    | [intPart, fracPart] => parseParts (splitSign trimmed).1 intPart fracPart
    | _ => .error (.err .parseError)

/-! ## What is returned is valid -/

/-- Every value the run returns is valid. -/
def AllValid (r : Run DecimalError Decimal) : Prop := ∀ d, r = .ok d → d.Valid

theorem allValid_error (e : Stop DecimalError) : AllValid (.error e) := by
  intro d h
  cases h

theorem allValid_bind {α : Type} {x : Run DecimalError α} {f : α → Run DecimalError Decimal}
    (h : ∀ a, x = .ok a → AllValid (f a)) : AllValid (x >>= f) := by
  intro d hd
  obtain ⟨a, ha, hf⟩ := run_bind_eq_ok.mp hd
  exact h a ha d hf

theorem minI128_eq : minI 128 = -170141183460469231731687303715884105728 := by decide

theorem maxI128_eq : maxI 128 = 170141183460469231731687303715884105727 := by decide

theorem maxDecimalMantissa_eq : maxDecimalMantissa = 999999999999999999999999999999999999 := by
  decide

theorem absI128_of_ne {x : Int} (h : InI 128 x) (hne : x ≠ minI 128) : absI128 x = |x| := by
  refine wrapI_of_inI ?_
  obtain ⟨hlo, hhi⟩ := h
  unfold InI
  rw [minI128_eq] at *
  rw [maxI128_eq] at *
  rcases abs_cases x with ⟨hx, _⟩ | ⟨hx, _⟩ <;> rw [hx] <;> omega

/-- `i128::MIN.abs()` is `i128::MIN`. -/
theorem absI128_min : absI128 (minI 128) = minI 128 := by decide

theorem canonical_min (s : Nat) : Scaled.Canonical (minI 128) s :=
  ⟨fun h => absurd h (by decide), fun _ => by decide⟩

/-- The one mantissa that slips through the range check. -/
theorem new_min {s : Nat} (hs : s ≤ 36) : Decimal.new (minI 128) s = .ok ⟨minI 128, s⟩ := by
  have hcanon : Decimal.canonicalize ⟨minI 128, s⟩ = ⟨minI 128, s⟩ := by
    unfold Decimal.canonicalize
    rw [Scaled.canon_of_canonical (canonical_min s)]
  unfold Decimal.new
  rw [if_neg (show ¬ s > maxDecimalScale from not_lt.mpr hs), hcanon, if_neg]
  rw [absI128_min]
  decide

theorem new_eq_ok {m : Int} {s : Nat} {d : Decimal} (h : Decimal.new m s = .ok d) :
    s ≤ 36 ∧ absI128 d.mantissa ≤ maxDecimalMantissa ∧ d = Decimal.canonicalize ⟨m, s⟩ := by
  unfold Decimal.new at h
  split at h
  · cases h
  · next hs =>
    split at h
    · cases h
    · next habs =>
      injection h with h
      rw [h] at habs
      exact ⟨not_lt.mp hs, not_lt.mp habs, h.symm⟩

/-- Stripping zeros does not reach `i128::MIN` from anywhere else. -/
theorem canonicalize_ne_min {m : Int} (hm : InI 128 m) (hne : m ≠ minI 128) (s : Nat) :
    InI 128 (Decimal.canonicalize ⟨m, s⟩).mantissa ∧
      (Decimal.canonicalize ⟨m, s⟩).mantissa ≠ minI 128 := by
  have hle : |(Decimal.canonicalize ⟨m, s⟩).mantissa| ≤ |m| := Scaled.abs_canon_le m s
  obtain ⟨hlo, hhi⟩ := hm
  unfold InI
  rw [minI128_eq] at *
  rw [maxI128_eq] at *
  rcases abs_cases m with ⟨h1, _⟩ | ⟨h1, _⟩ <;>
    rcases abs_cases (Decimal.canonicalize ⟨m, s⟩).mantissa with ⟨h2, _⟩ | ⟨h2, _⟩ <;>
    rw [h1, h2] at hle <;> omega

theorem new_allValid {m : Int} (hm : InI 128 m) (hne : m ≠ minI 128) (s : Nat) :
    AllValid (Decimal.new m s) := by
  intro d hd
  obtain ⟨hs, habs, rfl⟩ := new_eq_ok hd
  have hin := canonicalize_ne_min hm hne s
  refine ⟨?_, (Scaled.canon_scale_le m s).trans hs, Scaled.canon_canonical m s⟩
  rwa [absI128_of_ne hin.1 hin.2] at habs

/-- **When `Decimal::new` keeps its promise.** -/
theorem new_allValid_iff {m : Int} (hm : InI 128 m) (s : Nat) :
    AllValid (Decimal.new m s) ↔ m ≠ minI 128 ∨ 36 < s := by
  by_cases hne : m = minI 128
  · refine ⟨?_, ?_⟩
    · intro hall
      right
      by_contra hs
      rw [hne] at hall
      have hvalid := hall _ (new_min (not_lt.mp hs))
      exact absurd hvalid.mantissa_le (show ¬ |minI 128| ≤ maxDecimalMantissa by decide)
    · rintro (h | h)
      · exact absurd hne h
      · intro d hd
        obtain ⟨hs, -, -⟩ := new_eq_ok hd
        omega
  · exact iff_of_true (new_allValid hm hne s) (Or.inl hne)

/-- A mantissa that passed the operations' own range check is not `MIN`. -/
theorem new_allValid_of_le {m : Int} (h : |m| ≤ maxDecimalMantissa) (s : Nat) :
    AllValid (Decimal.new m s) := by
  obtain ⟨hlo, hhi⟩ := abs_le.mp h
  rw [maxDecimalMantissa_eq] at hlo hhi
  refine new_allValid ⟨?_, ?_⟩ ?_ s
  · rw [minI128_eq]; omega
  · rw [maxI128_eq]; omega
  · rw [minI128_eq]; omega

theorem bigToI128_eq_ok {x y : Int} (h : bigToI128 x = .ok y) : y = x := by
  unfold bigToI128 at h
  split at h
  · injection h with h; exact h.symm
  · cases h

theorem checkedNew_allValid (x : Int) (s : Nat) : AllValid (checkedNew x s) := by
  unfold checkedNew
  split
  · exact allValid_error _
  · next h =>
    obtain ⟨hhi, hlo⟩ := not_or.mp h
    refine allValid_bind ?_
    intro v hv
    rw [bigToI128_eq_ok hv]
    exact new_allValid_of_le (abs_le.mpr ⟨not_lt.mp hlo, not_lt.mp hhi⟩) s

theorem decimalAdd_allValid (a b : Decimal) : AllValid (decimalAdd a b) :=
  allValid_bind fun _ _ => allValid_bind fun _ _ => checkedNew_allValid _ _

theorem decimalSub_allValid (a b : Decimal) : AllValid (decimalSub a b) :=
  allValid_bind fun _ _ => allValid_bind fun _ _ => checkedNew_allValid _ _

theorem decimalMul_allValid (a b : Decimal) : AllValid (decimalMul a b) := by
  unfold decimalMul
  split
  · exact allValid_bind fun _ _ => checkedNew_allValid _ _
  · split
    · exact allValid_error _
    · next h =>
      refine allValid_bind ?_
      intro v hv
      rw [bigToI128_eq_ok hv]
      exact new_allValid_of_le (not_lt.mp h) _

/-! ### Square root -/

/-- The table holds the powers of ten and nothing else. -/
theorem index_pow10_eq_ok {ε : Type} {i : Nat} {p : Int}
    (h : (index pow10 i : Run ε Int) = .ok p) : i ≤ 36 ∧ p = 10 ^ i := by
  by_cases hi : i ≤ 36
  · rw [index_pow10 hi] at h
    injection h with h
    exact ⟨hi, h.symm⟩
  · rw [index_pow10_panic (not_le.mp hi)] at h
    cases h

theorem newtonLoop_nonneg {n : Int} (hn : 0 ≤ n) : ∀ (k : Nat) (x : Int), 0 ≤ x →
    0 ≤ newtonLoop n k x := by
  intro k
  induction k with
  | zero => intro x hx; exact hx
  | succ k ih =>
    intro x hx
    unfold newtonLoop
    split
    · exact hx
    · refine ih _ ?_
      have := Int.tdiv_nonneg hn hx
      omega

theorem sqrtRoot_nonneg {n : Int} (hn : 0 ≤ n) : 0 ≤ sqrtRoot n := by
  have hx := newtonLoop_nonneg hn 40 (2 ^ ((bitLen n.natAbs + 1) / 2)) (by positivity)
  unfold sqrtRoot
  generalize newtonLoop n 40 (2 ^ ((bitLen n.natAbs + 1) / 2)) = x at hx
  dsimp only
  split
  · next h =>
    -- a root of zero is never corrected
    rcases eq_or_lt_of_le hx with h0 | h0
    · rw [← h0] at h
      omega
    · omega
  · exact hx

theorem sqrtRadicand_nonneg {a : Decimal} (ha : 0 ≤ a.mantissa) {n : Int}
    (h : sqrtRadicand a = .ok n) : 0 ≤ n := by
  have hpow : ∀ i : Nat, (0 : Int) ≤ 10 ^ i := fun i => (Scaled.ten_pow_pos i).le
  unfold sqrtRadicand at h
  split at h
  · obtain ⟨lo, hlo, h⟩ := run_bind_eq_ok.mp h
    obtain ⟨hi, hhi, h⟩ := run_bind_eq_ok.mp h
    injection h with h
    rw [← h, (index_pow10_eq_ok hlo).2, (index_pow10_eq_ok hhi).2]
    exact mul_nonneg (mul_nonneg ha (hpow _)) (hpow _)
  · split at h
    · obtain ⟨p, hp, h⟩ := run_bind_eq_ok.mp h
      injection h with h
      rw [← h, (index_pow10_eq_ok hp).2]
      exact mul_nonneg ha (hpow _)
    · cases h

theorem decimalSqrt_allValid (a : Decimal) : AllValid (decimalSqrt a) := by
  unfold decimalSqrt
  split
  · exact allValid_error _
  · next hneg =>
    split
    · exact new_allValid_of_le (by decide) 0
    · refine allValid_bind ?_
      intro n hn
      have hroot := sqrtRoot_nonneg (sqrtRadicand_nonneg (not_lt.mp hneg) hn)
      split
      · exact allValid_error _
      · next hle =>
        refine allValid_bind ?_
        intro v hv
        rw [bigToI128_eq_ok hv]
        exact new_allValid_of_le (by rw [abs_of_nonneg hroot]; exact not_lt.mp hle) _

/-! ### Rounding -/

/-- A truncated quotient by a power of ten, plus or minus one, is far from the
ends of the range. -/
theorem tdiv_pow10_bound {m : Int} (hm : InI 128 m) {k : Nat} (hk : 0 < k) :
    10 * |m.tdiv (10 ^ k)| ≤ 2 ^ 127 := by
  have hle : 10 * (m.tdiv (10 ^ k)).natAbs ≤ m.natAbs := by
    rw [Int.natAbs_tdiv, Int.natAbs_pow]
    obtain ⟨j, rfl⟩ : ∃ j, k = j + 1 := ⟨k - 1, by omega⟩
    change 10 * (m.natAbs / 10 ^ (j + 1)) ≤ m.natAbs
    rw [pow_succ, ← Nat.div_div_eq_div_mul]
    have := Nat.div_le_self m.natAbs (10 ^ j)
    omega
  obtain ⟨hlo, hhi⟩ := hm
  rw [minI128_eq] at hlo
  rw [maxI128_eq] at hhi
  rw [Int.abs_eq_natAbs]
  omega

theorem abs_roundQuotient_le (mode : RoundingMode) (m q r d : Int) :
    |roundQuotient mode m q r d| ≤ |q| + 1 := by
  have hsign : |m.sign| ≤ 1 := by
    rcases lt_trichotomy m 0 with h | h | h
    · rw [Int.sign_eq_neg_one_of_neg h]; decide
    · rw [h]; decide
    · rw [Int.sign_eq_one_of_pos h]; decide
  have hstep : ∀ t : Int, |t| ≤ 1 → |q + t| ≤ |q| + 1 := by
    intro t ht
    exact le_trans (abs_add_le q t) (by omega)
  have hself : |q| ≤ |q| + 1 := by omega
  cases mode with
  | roundHalfEven =>
    unfold roundQuotient
    dsimp only
    split_ifs
    · exact hself
    · exact hstep _ hsign
    · exact hself
    · exact hstep _ hsign
  | roundDown => exact hself
  | roundUp =>
    unfold roundQuotient
    dsimp only
    split_ifs
    · exact hstep 1 (by decide)
    · exact hstep (-1) (by decide)
    · exact hself

/-- `decimal_round` returns its operand as it is when there is nothing to
round; a rounded value is always checked. -/
theorem decimalRound_allValid_iff {d : Decimal} (hd : d.WellTyped) (t : Nat) (mode : RoundingMode) :
    AllValid (decimalRound d t mode) ↔ t < d.scale ∨ d.Valid := by
  unfold decimalRound
  by_cases h : t ≥ d.scale
  · rw [if_pos h]
    refine ⟨fun hall => Or.inr (hall d rfl), ?_⟩
    rintro (hlt | hv) e he
    · omega
    · injection he with he
      rwa [← he]
  · rw [if_neg h]
    refine iff_of_true (allValid_bind ?_) (Or.inl (by omega))
    intro p hp
    obtain ⟨-, rfl⟩ := index_pow10_eq_ok hp
    have hq := tdiv_pow10_bound hd.1 (show 0 < d.scale - t by omega)
    have hr := abs_roundQuotient_le mode d.mantissa (d.mantissa.tdiv (10 ^ (d.scale - t)))
      (d.mantissa.tmod (10 ^ (d.scale - t))) (10 ^ (d.scale - t))
    obtain ⟨hlo, hhi⟩ := abs_le.mp hr
    refine new_allValid ⟨?_, ?_⟩ ?_ t
    · rw [minI128_eq]; omega
    · rw [maxI128_eq]; omega
    · rw [minI128_eq]; omega

/-! ### Division -/

/-- The bounds of an `i128`, as numbers. -/
theorem inI128_iff {x : Int} : InI 128 x ↔
    -170141183460469231731687303715884105728 ≤ x ∧
      x ≤ 170141183460469231731687303715884105727 := by
  unfold InI
  rw [minI128_eq, maxI128_eq]

/-- What `abs` can return: the magnitude, or `MIN`. -/
theorem absI128_cases {x : Int} (h : InI 128 x) :
    x = minI 128 ∧ absI128 x = minI 128 ∨ x ≠ minI 128 ∧ absI128 x = |x| := by
  by_cases hx : x = minI 128
  · exact Or.inl ⟨hx, by rw [hx]; exact absI128_min⟩
  · exact Or.inr ⟨hx, absI128_of_ne h hx⟩

theorem inI_absI128 {x : Int} (h : InI 128 x) : InI 128 (absI128 x) := by
  rcases absI128_cases h with ⟨hx, heq⟩ | ⟨hx, heq⟩
  · rw [heq, ← hx]; exact h
  · rw [heq, inI128_iff]
    rw [inI128_iff] at h
    rw [minI128_eq] at hx
    rcases abs_cases x with ⟨hx', _⟩ | ⟨hx', _⟩ <;> rw [hx'] <;> omega

/-- Scaling the dividend up is exact or an overflow. -/
theorem scaleDividend_of_pos {absA diff : Int} (hA : InI 128 absA) (hpos : 0 < diff) {x : Int}
    (h : scaleDividend absA diff = .ok x) :
    InI 128 x ∧ x = 10 ^ diff.toNat * absA := by
  unfold scaleDividend at h
  rw [if_pos hpos] at h
  obtain ⟨p, hp, h⟩ := run_bind_eq_ok.mp h
  obtain ⟨hle, rfl⟩ := index_pow10_eq_ok hp
  have hpow : InI 128 ((10 : Int) ^ diff.toNat) := by
    rw [inI128_iff]
    have h1 : (10 : Int) ^ diff.toNat ≤ 10 ^ 36 := pow_le_pow_right₀ (by norm_num) hle
    have h2 := Scaled.ten_pow_pos diff.toNat
    omega
  rw [bigintMul_fromI128 hpow hA] at h
  change asOverflow (BigInt.ofInt (10 ^ diff.toNat * absA)).toI128 = .ok x at h
  rw [BigInt.toI128_ofInt] at h
  split at h
  · next hin =>
    injection h with h
    rw [← h]
    exact ⟨hin, rfl⟩
  · cases h

/-- Scaling the dividend down leaves it far from the ends of the range. -/
theorem scaleDividend_of_neg {absA diff : Int} (hA : InI 128 absA) (hneg : diff < 0) {x : Int}
    (h : scaleDividend absA diff = .ok x) : 10 * |x| ≤ 2 ^ 127 + 10 := by
  unfold scaleDividend at h
  rw [if_neg (not_lt.mpr hneg.le), if_pos hneg] at h
  obtain ⟨p, hp, h⟩ := run_bind_eq_ok.mp h
  obtain ⟨-, rfl⟩ := index_pow10_eq_ok hp
  have hq := tdiv_pow10_bound hA (show 0 < (-diff).toNat by omega)
  obtain ⟨hlo, hhi⟩ := abs_le.mp (show |absA.tdiv (10 ^ (-diff).toNat)| ≤ 2 ^ 127 / 10 by omega)
  split at h
  · injection h with h
    rw [wrapI_of_inI (by rw [inI128_iff]; omega)] at h
    rw [← h]
    have := abs_add_le (absA.tdiv (10 ^ (-diff).toNat)) 1
    have h1 : |(1 : Int)| = 1 := rfl
    omega
  · injection h with h
    rw [← h]
    omega

/-- A divisor other than one halves the magnitude at least. -/
theorem abs_tdiv_le {m b : Int} (hm : InI 128 m) (h0 : b ≠ 0) (h1 : b ≠ 1) (hneg : b ≠ -1) :
    |m.tdiv b| ≤ 2 ^ 126 := by
  have hle : (m.tdiv b).natAbs ≤ m.natAbs / 2 := by
    rw [Int.natAbs_tdiv]
    exact Nat.div_le_div_left (by omega) (by norm_num)
  rw [inI128_iff] at hm
  rw [Int.abs_eq_natAbs]
  omega

/-- The rounded quotient is `MIN` only when nothing was divided: the divisor
is one, and the dividend is `MIN`, or `MAX` and rounded up past it. -/
theorem divRound_eq_min_iff {m b : Int} (hm : InI 128 m) (hb : b ≠ 0) (hb1 : b ≠ -1) :
    divRound m b = minI 128 ↔ b = 1 ∧ (m = minI 128 ∨ m = maxI 128) := by
  by_cases h1 : b = 1
  · subst h1
    rw [inI128_iff] at hm
    unfold divRound
    rw [Int.tmod_one, Int.tdiv_one, show Int.tdiv 1 2 = 0 from rfl, if_neg (lt_irrefl 0),
      if_neg (lt_irrefl 0)]
    have hdvd : (2 : Int) ∣ m ↔ m.tmod 2 = 0 := Int.dvd_iff_tmod_eq_zero
    rw [minI128_eq, maxI128_eq]
    by_cases hpar : m.tmod 2 = 0
    · rw [if_pos hpar]
      rw [← hdvd] at hpar
      omega
    · rw [if_neg hpar]
      rw [← hdvd] at hpar
      by_cases hmax : m = 170141183460469231731687303715884105727
      · rw [hmax]
        exact iff_of_true (by decide) ⟨rfl, Or.inr rfl⟩
      · rw [wrapI_of_inI (by rw [inI128_iff]; omega)]
        omega
  · obtain ⟨hlo, hhi⟩ := abs_le.mp (abs_tdiv_le hm hb h1 hb1)
    have hwrap : wrapI 128 (m.tdiv b + 1) = m.tdiv b + 1 :=
      wrapI_of_inI (by rw [inI128_iff]; omega)
    refine iff_of_false ?_ fun h => h1 h.1
    rw [minI128_eq]
    unfold divRound
    rw [hwrap]
    split_ifs <;> omega

/-- Negation keeps `MIN` and reaches it from nowhere else. -/
theorem wrapI_neg_eq_min_iff {x : Int} (h : InI 128 x) :
    wrapI 128 (-x) = minI 128 ↔ x = minI 128 := by
  by_cases hx : x = minI 128
  · rw [hx]
    exact iff_of_true (by decide) rfl
  · rw [inI128_iff] at h
    rw [minI128_eq] at hx ⊢
    rw [wrapI_of_inI (by rw [inI128_iff]; omega)]
    omega

theorem inI_divRound {m b : Int} (hm : InI 128 m) (h0 : b ≠ 0) (hneg : b ≠ -1) :
    InI 128 (divRound m b) := by
  have hq : InI 128 (m.tdiv b) := by
    by_cases h1 : b = 1
    · rw [h1, Int.tdiv_one]
      exact hm
    · obtain ⟨hlo, hhi⟩ := abs_le.mp (abs_tdiv_le hm h0 h1 hneg)
      rw [inI128_iff]
      omega
  unfold divRound
  split_ifs
  · exact hq
  · exact inI_wrapI _
  · exact hq
  · exact inI_wrapI _

/-- Which scaled dividends are at the very end of the range: only unscaled
ones. A power of ten divides neither `MIN` nor `MAX`. -/
theorem absI128_scaleDividend_iff {m diff x : Int} (hm : InI 128 m)
    (h : scaleDividend (absI128 m) diff = .ok x) :
    InI 128 x ∧ ((absI128 x = minI 128 ∨ absI128 x = maxI 128) ↔
      diff = 0 ∧ maxI 128 ≤ |m|) := by
  have hA := inI_absI128 hm
  rcases lt_trichotomy diff 0 with hd | hd | hd
  · have hx := scaleDividend_of_neg hA hd h
    obtain ⟨hlo, hhi⟩ := abs_le.mp (show |x| ≤ 2 ^ 127 / 10 + 1 by omega)
    have hin : InI 128 x := by rw [inI128_iff]; omega
    refine ⟨hin, iff_of_false ?_ fun hand => hd.ne hand.1⟩
    rw [absI128_of_ne hin (by rw [minI128_eq]; omega), minI128_eq, maxI128_eq]
    have := abs_nonneg x
    rintro (h | h) <;> rw [h] at hx <;> omega
  · subst hd
    have hx : absI128 m = x := by
      unfold scaleDividend at h
      rw [if_neg (lt_irrefl 0), if_neg (lt_irrefl 0)] at h
      injection h
    subst hx
    refine ⟨hA, ?_⟩
    rcases absI128_cases hm with ⟨hmin, heq⟩ | ⟨hmin, heq⟩
    · rw [heq, absI128_min, hmin]
      exact iff_of_true (Or.inl rfl) ⟨rfl, by decide⟩
    · have hne : |m| ≠ minI 128 := by
        have := abs_nonneg m
        rw [minI128_eq]
        omega
      rw [heq] at hA ⊢
      rw [absI128_of_ne hA hne, abs_abs]
      have hhi := hA.2
      have hnn := abs_nonneg m
      rw [minI128_eq] at *
      rw [maxI128_eq] at *
      omega
  · obtain ⟨hin, hx⟩ := scaleDividend_of_pos hA hd h
    refine ⟨hin, iff_of_false ?_ fun hand => hd.ne' hand.1⟩
    have hten : (10 : Int) ∣ x := by
      rw [hx]
      exact dvd_mul_of_dvd_left (dvd_pow_self 10 (by omega)) _
    have hne : x ≠ minI 128 := by
      rw [minI128_eq]
      omega
    rw [absI128_of_ne hin hne, minI128_eq, maxI128_eq]
    rcases abs_cases x with ⟨hx', _⟩ | ⟨hx', _⟩ <;> rw [hx'] <;> omega

/-- **When `decimal_div` returns only valid values**: unless the divisor is
`±1`, the dividend needs no scaling, and its mantissa is at the end of the
`i128` range. -/
theorem decimalDiv_allValid_iff {a b : Decimal} (ha : a.WellTyped) (hb : b.WellTyped) (t : Nat) :
    AllValid (decimalDiv a b t) ↔
      ¬ (|b.mantissa| = 1 ∧ divScaleDiff a b = 0 ∧ maxI 128 ≤ |a.mantissa|) := by
  unfold decimalDiv
  by_cases h0 : b.mantissa = 0
  · rw [if_pos h0]
    refine iff_of_true (allValid_error _) ?_
    rw [h0]
    intro h
    obtain ⟨h1, -⟩ := h
    exact absurd h1 (by decide)
  rw [if_neg h0]
  -- the divisor's absolute value: at least one, or `MIN`
  have hB : absI128 b.mantissa ≠ 0 ∧ absI128 b.mantissa ≠ -1 ∧
      (absI128 b.mantissa = 1 ↔ |b.mantissa| = 1) := by
    rcases absI128_cases hb.1 with ⟨hmin, heq⟩ | ⟨hmin, heq⟩
    · rw [heq, hmin]
      exact ⟨by decide, by decide, by decide⟩
    · rw [heq]
      have := abs_pos.mpr h0
      exact ⟨by omega, by omega, Iff.rfl⟩
  cases hrun : scaleDividend (absI128 a.mantissa) (divScaleDiff a b) with
  | error e =>
    refine iff_of_true (allValid_error e) ?_
    intro h
    obtain ⟨-, hdiff, -⟩ := h
    unfold scaleDividend at hrun
    rw [hdiff, if_neg (lt_irrefl 0), if_neg (lt_irrefl 0)] at hrun
    cases hrun
  | ok x =>
    rw [ok_bind]
    obtain ⟨hx, hends⟩ := absI128_scaleDividend_iff ha.1 hrun
    have hM := inI_absI128 hx
    have hR := inI_divRound hM hB.1 hB.2.1
    have hmin := divRound_eq_min_iff hM hB.1 hB.2.1
    have htarget : divTargetScale a b ≤ 36 := min_le_right _ _
    have hkey : (divRound (absI128 x) (absI128 b.mantissa) = minI 128) ↔
        |b.mantissa| = 1 ∧ divScaleDiff a b = 0 ∧ maxI 128 ≤ |a.mantissa| := by
      rw [hmin, hends, hB.2.2]
    rw [← hkey]
    dsimp only
    split
    · rw [new_allValid_iff (inI_wrapI _), or_iff_left (by omega), Ne, wrapI_neg_eq_min_iff hR]
    · rw [new_allValid_iff hR, or_iff_left (by omega)]

/-! ### Conversions -/

theorem inI_wireMantissa (bytes : List UInt8) : InI 128 (wireMantissa bytes) := by
  obtain ⟨hlo, hhi⟩ := Bytes.signed_bounds (w := 128) (by norm_num)
    (Bytes.beNat ((bytes.drop 8).take 16))
  exact ⟨hlo, Int.le_sub_one_of_lt hhi⟩

theorem trailingZeros_min : trailingZeros (minI 128) = 0 := by
  unfold trailingZeros
  rw [dif_neg]
  intro h
  obtain ⟨-, h⟩ := h
  exact absurd h (by decide)

/-- The wire form carries `i128::MIN` through at any scale from 1 to 36. -/
theorem decimalFromBytes_allValid_iff (bytes : List UInt8) :
    AllValid (decimalFromBytes bytes) ↔
      ¬ (bytes.getD 0 0 = 1 ∧ ¬ wireReservedSet bytes ∧ wireMantissa bytes = minI 128 ∧
        1 ≤ wireScale bytes ∧ wireScale bytes ≤ 36) := by
  have hin := inI_wireMantissa bytes
  unfold decimalFromBytes
  split
  · next h => exact iff_of_true (allValid_error _) fun hbad => h hbad.1
  · next hversion =>
    split
    · next h => exact iff_of_true (allValid_error _) fun hbad => hbad.2.1 h
    · next hreserved =>
      split
      · next h =>
        exact iff_of_true (allValid_error _) fun hbad => absurd hbad.2.2.2.2 (not_le.mpr h)
      · next hscale =>
        split
        · next h =>
          refine iff_of_true (allValid_error _) fun hbad => ?_
          rw [hbad.2.2.1] at h
          exact absurd h.1 (by decide)
        · split
          · next h =>
            refine iff_of_true (allValid_error _) fun hbad => ?_
            obtain ⟨-, -, hmin, hpos, -⟩ := hbad
            rw [hmin, absI128_min, trailingZeros_min] at h
            omega
          · next hzeros =>
            have hle : wireScale bytes ≤ 36 := not_lt.mp hscale
            rw [new_allValid_iff hin, or_iff_left (not_lt.mpr hle)]
            refine not_congr ⟨fun hmin => ?_, fun hbad => hbad.2.2.1⟩
            refine ⟨not_not.mp hversion, hreserved, hmin, ?_, hle⟩
            -- at scale zero the zero count already rejects it
            by_contra h0
            apply hzeros
            rw [hmin, absI128_min, trailingZeros_min]
            exact ⟨by decide, by omega⟩

theorem dqaToDecimal_allValid (d : Dqa) : AllValid (dqaToDecimal d) := by
  obtain ⟨hlo, hhi⟩ := d.value_inI
  have h64 : minI 64 = -9223372036854775808 ∧ maxI 64 = 9223372036854775807 := by decide
  rw [h64.1] at hlo
  rw [h64.2] at hhi
  refine new_allValid ?_ ?_ _
  · rw [inI128_iff]; omega
  · rw [minI128_eq]; omega

/-! ### Parsing -/

/-- The parsed mantissa is a sign times a number below `2^127`. -/
theorem parseParts_allValid {sign : Int} (hs : sign = 1 ∨ sign = -1) (intPart fracPart : List Char) :
    AllValid (parseParts sign intPart fracPart) := by
  unfold parseParts
  split_ifs
  iterate 5 exact allValid_error _
  refine allValid_bind ?_
  intro v hv
  refine allValid_bind ?_
  intro m hm
  have hv' : 0 ≤ v ∧ v ≤ maxI 128 := by
    unfold parseI128 at hv
    split at hv
    · next hle => injection hv with hv; rw [← hv]; exact ⟨Int.natCast_nonneg _, hle⟩
    · cases hv
  rw [bigToI128_eq_ok hm]
  rw [maxI128_eq] at hv'
  refine new_allValid ?_ ?_ _
  · rw [inI128_iff]
    rcases hs with rfl | rfl <;> omega
  · rw [minI128_eq]
    rcases hs with rfl | rfl <;> omega

theorem splitSign_sign (s : List Char) : (splitSign s).1 = 1 ∨ (splitSign s).1 = -1 := by
  unfold splitSign
  split
  · exact Or.inl rfl
  · exact Or.inr rfl
  · exact Or.inl rfl

theorem decimalFromStr_allValid (s : String) : AllValid (decimalFromStr s) := by
  unfold decimalFromStr
  dsimp only
  split_ifs
  iterate 3 exact allValid_error _
  split
  · exact parseParts_allValid (splitSign_sign _) _ _
  · exact parseParts_allValid (splitSign_sign _) _ _
  · exact allValid_error _

/-! ### All of them -/

/-- **Exactly when each function returns only valid values.** Add, sub, mul,
sqrt, the `Dqa` conversion and the parser always do, on any operands. -/
theorem returned_valid_iff {a b : Decimal} (ha : a.WellTyped) (hb : b.WellTyped) {m : Int}
    (hm : InI 128 m) (s t : Nat) (mode : RoundingMode) (bytes : List UInt8) (d : Dqa)
    (str : String) :
    (AllValid (Decimal.new m s) ↔ m ≠ minI 128 ∨ 36 < s) ∧
    AllValid (decimalAdd a b) ∧ AllValid (decimalSub a b) ∧ AllValid (decimalMul a b) ∧
    (AllValid (decimalDiv a b t) ↔
      ¬ (|b.mantissa| = 1 ∧ divScaleDiff a b = 0 ∧ maxI 128 ≤ |a.mantissa|)) ∧
    AllValid (decimalSqrt a) ∧
    (AllValid (decimalRound a t mode) ↔ t < a.scale ∨ a.Valid) ∧
    (AllValid (decimalFromBytes bytes) ↔
      ¬ (bytes.getD 0 0 = 1 ∧ ¬ wireReservedSet bytes ∧ wireMantissa bytes = minI 128 ∧
        1 ≤ wireScale bytes ∧ wireScale bytes ≤ 36)) ∧
    AllValid (dqaToDecimal d) ∧
    (AllValid (bigintToDecimal m) ↔ m ≠ minI 128) ∧
    AllValid (decimalFromStr str) := by
  refine ⟨new_allValid_iff hm s, decimalAdd_allValid a b, decimalSub_allValid a b,
    decimalMul_allValid a b, decimalDiv_allValid_iff ha hb t, decimalSqrt_allValid a,
    decimalRound_allValid_iff ha t mode, decimalFromBytes_allValid_iff bytes,
    dqaToDecimal_allValid d, ?_, decimalFromStr_allValid str⟩
  unfold bigintToDecimal
  rw [new_allValid_iff hm, or_iff_left (by omega)]

/-- Half of three, and the number fifteen at scale one, through the gate. -/
theorem returned_valid_iff_half :
    AllValid (decimalDiv ⟨3, 0⟩ ⟨2, 0⟩ 0) ∧ AllValid (Decimal.new 15 1) ∧
      Decimal.new 15 1 = .ok ⟨15, 1⟩ := by
  have h := returned_valid_iff (a := ⟨3, 0⟩) (b := ⟨2, 0⟩) (m := 15) (by decide) (by decide)
    (by decide) 1 0 .roundHalfEven [] ⟨0, 0, by decide, by decide⟩ ""
  refine ⟨h.2.2.2.2.1.mpr ?_, h.1.mpr (Or.inl (by decide)), by decide +kernel⟩
  intro h
  obtain ⟨h1, -⟩ := h
  exact absurd h1 (by decide)

/-- `Decimal::new(i128::MIN, 0)` is accepted. -/
theorem new_min_returned : ¬ ∀ (m : Int) (s : Nat), InI 128 m → s < 256 →
    ∀ d, Decimal.new m s = .ok d → d.Valid := by
  intro h
  have hvalid := h (minI 128) 0 (by decide) (by decide) _ (new_min (by decide))
  exact absurd hvalid.mantissa_le (show ¬ |minI 128| ≤ maxDecimalMantissa by decide)

end CipherOcto.Determin
