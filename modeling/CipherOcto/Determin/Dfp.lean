import CipherOcto.Lib.Machine
import CipherOcto.Lib.Bytes
import CipherOcto.Lib.Rounding

/-!
# `Dfp`: the deterministic floating-point value

`determin/src/lib.rs` represents a number as a tagged record: a `u128`
mantissa, an `i32` binary exponent, a class and a sign. This file has the
record, its constants and constructors, `normalize`, the 24-byte wire form
(`DfpEncoding`) and the `f64` bit-pattern conversion.

Machine integers are `Nat`/`Int`; the functions whose fixed-width arithmetic
could leave its range run in `Machine.Tracked`, which keeps the release-build
value and the debug-build verdict side by side. `Dfp.WellTyped` says that the
fields really are a `u128` and an `i32`; everything `DfpEncoding.toDfp`
returns is (`toDfp_wellTyped`).

The mathematical reading is `Dfp.value`, the rational `±mantissa * 2^exponent`;
`Dfp.Canonical` is the domain the arithmetic is meant for: zero, or an odd
mantissa below `2^113` with an exponent in range.
-/

namespace CipherOcto.Determin

open Machine

/-- The class tag. -/
inductive DfpClass where
  | normal
  | infinity
  | nan
  | zero
deriving Repr, DecidableEq

/-- The tagged record; `sign` is `true` for negative. -/
structure Dfp where
  mantissa : Nat
  exponent : Int
  cls : DfpClass
  sign : Bool
deriving Repr, DecidableEq

def dfpMaxExponent : Int := 1023
def dfpMinExponent : Int := -1074

/-- 113 bits set. -/
def dfpMaxMantissa : Nat := 2 ^ 113 - 1

namespace Dfp

def nan : Dfp := ⟨0, 0, .nan, false⟩
def zero : Dfp := ⟨0, 0, .zero, false⟩
def negZero : Dfp := ⟨0, 0, .zero, true⟩

/-- The zero of a given sign, as the arithmetic returns it. -/
def signedZero (sign : Bool) : Dfp := if sign then negZero else zero

end Dfp

def dfpMax : Dfp := ⟨dfpMaxMantissa, dfpMaxExponent, .normal, false⟩
def dfpMin : Dfp := ⟨dfpMaxMantissa, dfpMaxExponent, .normal, true⟩

/-- `if sign { DFP_MIN } else { DFP_MAX }`: where overflow saturates to. -/
def saturated (sign : Bool) : Dfp := if sign then dfpMin else dfpMax

namespace Dfp

/-- `Dfp::normalize`: strip the mantissa's trailing zeros into the exponent. -/
def normalize (d : Dfp) : Tracked Dfp :=
  if d.cls ≠ .normal then pure d
  else if d.mantissa = 0 then pure { d with cls := .zero }
  else
    let trailing := ctz 128 d.mantissa
    if 0 < trailing then do
      let m ← shrU 128 d.mantissa trailing
      pure { d with mantissa := m, exponent := saturate 32 (d.exponent + trailing) }
    else pure d

/-- The fields fit their machine types. -/
def WellTyped (d : Dfp) : Prop := d.mantissa < 2 ^ 128 ∧ InI 32 d.exponent

/-- The rational number a finite value stands for. -/
def value (d : Dfp) : ℚ :=
  match d.cls with
  | .normal => (if d.sign then -1 else 1) * d.mantissa * 2 ^ d.exponent
  | _ => 0

/-- Zero, or a Normal with an odd mantissa of at most 113 bits. -/
def FiniteOdd (d : Dfp) : Prop :=
  d.cls = .zero ∨ d.cls = .normal ∧ d.mantissa % 2 = 1 ∧ d.mantissa < 2 ^ 113

/-- The canonical domain: finite, odd, and with the exponent in range. -/
def Canonical (d : Dfp) : Prop :=
  d.cls = .zero ∨ d.cls = .normal ∧ d.mantissa % 2 = 1 ∧ d.mantissa < 2 ^ 113 ∧
    dfpMinExponent ≤ d.exponent ∧ d.exponent ≤ dfpMaxExponent

instance (d : Dfp) : Decidable d.FiniteOdd := inferInstanceAs (Decidable (_ ∨ _))

instance (d : Dfp) : Decidable d.Canonical := inferInstanceAs (Decidable (_ ∨ _))

/-- `is_structurally_canonical`, alias `is_valid`. -/
def isValid (d : Dfp) : Bool :=
  match d.cls with
  | .nan => false
  | .infinity => false
  | .zero => true
  | .normal => decide (d.mantissa ≠ 0 ∧ dfpMinExponent ≤ d.exponent ∧ d.exponent ≤ dfpMaxExponent)

/-- The canonical domain is `is_valid` plus the odd 113-bit mantissa. -/
theorem canonical_iff_isValid (d : Dfp) :
    d.Canonical ↔ d.isValid = true ∧ (d.cls = .normal → d.mantissa % 2 = 1 ∧ d.mantissa < 2 ^ 113) := by
  unfold Canonical isValid
  cases hc : d.cls <;> simp
  constructor
  · intro h
    obtain ⟨hodd, hlt, hexp⟩ := h
    exact ⟨⟨by omega, hexp⟩, hodd, hlt⟩
  · intro h
    obtain ⟨⟨-, hexp⟩, hodd, hlt⟩ := h
    exact ⟨hodd, hlt, hexp⟩

theorem value_zero {a : Dfp} (h : a.cls = .zero) : a.value = 0 := by
  unfold value
  rw [h]

theorem value_pos_normal {a : Dfp} (h : a.cls = .normal) (hs : a.sign = false) :
    a.value = a.mantissa * 2 ^ a.exponent := by
  unfold value
  rw [h, hs]
  simp

theorem value_neg_normal {a : Dfp} (h : a.cls = .normal) (hs : a.sign = true) :
    a.value = -(a.mantissa * 2 ^ a.exponent) := by
  unfold value
  rw [h, hs]
  simp

theorem magnitude_pos {a : Dfp} (hodd : a.mantissa % 2 = 1) : (0 : ℚ) < a.mantissa * 2 ^ a.exponent := by
  have hpos : 0 < a.mantissa := by omega
  have := Rounding.two_zpow_pos a.exponent
  positivity

theorem normalize_of_odd {d : Dfp} (h : d.mantissa % 2 = 1) : d.normalize = pure d := by
  unfold normalize
  split
  · rfl
  · rw [if_neg (by omega), ctz_eq_zero_of_odd h]
    rfl

/-- Normalising never shifts by the width, whatever the mantissa. -/
theorem normalize_ovf {d : Dfp} (h : d.mantissa < 2 ^ 128) : d.normalize.ovf = false := by
  unfold normalize
  split
  · rfl
  · split
    · rfl
    · next hm =>
      simp only
      split
      · rw [shrU_of_lt (ctz_lt hm h)]; rfl
      · rfl

end Dfp

/-! ## The 24-byte wire form -/

/-- `DfpEncoding`: native field values; byte order is applied at the boundary. -/
structure DfpEncoding where
  mantissa : Nat
  exponent : Int
  classSign : Nat
deriving Repr, DecidableEq

namespace DfpEncoding

/-- `DfpEncoding::from_bytes`: big-endian mantissa, exponent and tag word. -/
def fromBytes (bytes : Vector UInt8 24) : DfpEncoding :=
  { mantissa := Bytes.beNat (bytes.toList.take 16)
    exponent := Bytes.signed 32 (Bytes.beNat ((bytes.toList.drop 16).take 4))
    classSign := Bytes.beNat (bytes.toList.drop 20) }

/-- `DfpEncoding::to_dfp`: every class byte decodes, unknown ones as NaN. -/
def toDfp (e : DfpEncoding) : Dfp :=
  { cls := match e.classSign / 2 ^ 24 % 256 with
      | 0 => .normal
      | 1 => .infinity
      | 2 => .nan
      | 3 => .zero
      | _ => .nan
    sign := decide (e.classSign / 2 ^ 16 % 2 ≠ 0)
    mantissa := e.mantissa
    exponent := e.exponent }

theorem toDfp_wellTyped (bytes : Vector UInt8 24) : (fromBytes bytes).toDfp.WellTyped := by
  have hlen : bytes.toList.length = 24 := by simp
  constructor
  · have h := Bytes.beNat_lt (bytes.toList.take 16)
    rw [List.length_take, hlen, show (256 : Nat) ^ min 16 24 = 2 ^ 128 by norm_num] at h
    exact h
  · have h := Bytes.signed_bounds (w := 32) (by decide)
      (Bytes.beNat ((bytes.toList.drop 16).take 4))
    simp only [toDfp, fromBytes, InI, minI, maxI]
    omega

end DfpEncoding

/-! ## Conversion to an `f64` bit pattern -/

namespace Dfp

/-- `KEEP_MASK`, `EXP_MASK` and `SIGN_BIT` of the 64-bit pattern. -/
def keepMask : Nat := 0x000FFFFFFFFFFFFF
def expMask : Nat := 0x7FF0000000000000
def signBit (sign : Bool) : Nat := if sign then 0x8000000000000000 else 0

/-- Bring the most significant bit to bit 52, rounding half to even: the kept
bits and the exponent increment. The probes below the kept bits are guarded, so
they only shift when there is something to look at. -/
def keepTop53 (mantissa shift : Nat) : Tracked (Nat × Nat) := do
  let top ← shrU 128 mantissa shift
  let kept := top % 2 ^ 64
  let below ← (if 1 ≤ shift then shrU 128 mantissa (shift - 1) else pure 0)
  let lowMask ← (if 2 ≤ shift then do
      let one ← shlU 128 1 (shift - 1)
      subU 128 one 1
    else pure 0)
  if below % 2 ≠ 0 ∧ (mantissa &&& lowMask ≠ 0 ∨ kept % 2 = 1) then do
    let r ← addU 64 kept 1
    if 0x1fffffffffffff < r then pure (0, 1) else pure (r &&& keepMask, 0)
  else pure (kept &&& keepMask, 0)

/-- The pattern of a value in the normal range. -/
def normalBits (mantissa : Nat) (msb biasedExp : Int) (sign : Bool) : Tracked Nat := do
  let r ← (if 52 ≤ msb then keepTop53 mantissa (msb - 52).toNat
    else do
      let m ← shlU 64 (mantissa % 2 ^ 64) (52 - msb).toNat
      pure (m &&& keepMask, 0))
  let finalBiased ← addU 64 biasedExp.toNat r.2
  pure (signBit sign ||| (finalBiased * 2 ^ 52 % 2 ^ 64 &&& expMask) ||| r.1)

/-- The pattern below the normal range. -/
def subnormalBits (mantissa : Nat) (totalExp : Int) (sign : Bool) : Tracked Nat := do
  let shiftLeft ← addI 32 1074 totalExp
  if shiftLeft < 0 then pure (signBit sign)
  else do
    let m ← shlU 64 (mantissa % 2 ^ 64) shiftLeft.toNat
    pure (signBit sign ||| (m &&& keepMask))

/-- `u128_to_f64_bits`: the IEEE-754 pattern of `mantissa * 2^exponent`. -/
def u128ToF64Bits (mantissa : Nat) (exponent : Int) (sign : Bool) : Tracked Nat :=
  if mantissa = 0 then pure (signBit sign)
  else do
    let totalExp ← addI 32 (127 - (clz 128 mantissa : Int)) exponent
    let biasedExp ← addI 32 totalExp 1023
    if 2047 ≤ biasedExp then pure (signBit sign ||| expMask)
    else if 0 < biasedExp then normalBits mantissa (127 - (clz 128 mantissa : Int)) biasedExp sign
    else subnormalBits mantissa totalExp sign

/-- `to_f64`, as the bit pattern it builds; the NaN pattern is the canonical quiet one. -/
def toF64 (d : Dfp) : Tracked Nat :=
  match d.cls with
  | .zero => pure (if d.sign then 2 ^ 63 else 0)
  | .infinity => pure (if d.sign then 0xFFF0000000000000 else 0x7FF0000000000000)
  | .nan => pure 0x7FF8000000000000
  | .normal => u128ToF64Bits d.mantissa d.exponent d.sign

end Dfp

end CipherOcto.Determin
