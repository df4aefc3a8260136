import CipherOcto.Determin.Dfp
import CipherOcto.Determin.U256

/-!
# Addition, multiplication, division and square root

The five operations of `determin/src/arithmetic.rs` with their rounding and
alignment helpers, as the code computes them. Every plain `+`, `-`, `<<` and
`>>` whose operands depend on the input is a `Machine` operation, so `.val` is
the release build and `.ovf` tells whether the checked build stops; arithmetic
the source writes as saturating or wrapping is exactly that here.

After each helper stands the one equation the proofs use. Despite its name and
documentation `roundTo113` never rounds on the values it is handed: everything
below `2^113` passes through with its trailing zeros split off
(`roundTo113_of_lt`), and the callers have shifted the rest away.
-/

namespace CipherOcto.Determin

open Machine

/-- `debug_assert!`: only the checked build looks. -/
def debugAssert (p : Prop) [Decidable p] : Tracked Unit := ⟨(), !decide p⟩

/-- The triple `(sign, mantissa, exponent)` the addition paths hand back. -/
structure Parts where
  sign : Bool
  mantissa : Nat
  exponent : Int
deriving Repr, DecidableEq

/-! ## Rounding and alignment -/

/-- `round_to_113`: mantissa and exponent adjustment. -/
def roundTo113 (mantissa : Int) (preSticky : Bool) : Tracked (Nat × Int) :=
  if mantissa = 0 then pure (0, 0)
  else do
    let absMant := mantissa.natAbs
    let roundBitPos := 113
    let roundBit := decide (absMant / 2 ^ roundBitPos % 2 ≠ 0)
    let lostAboveRound := decide (absMant / 2 ^ (roundBitPos + 1) ≠ 0)
    let stickyBit := preSticky || lostAboveRound
    let keptBits := absMant &&& (2 ^ roundBitPos - 1)
    let lsb := keptBits % 2
    let rounded ← (if roundBit && (stickyBit || lsb == 1) then addU 128 keptBits 1
      else pure keptBits)
    if rounded = 0 then pure (0, 0)
    else do
      let trailing := ctz 128 rounded
      let normalized ← shrU 128 rounded trailing
      pure (normalized, (trailing : Int))

/-- What the rounding makes of a magnitude: odd part and trailing zeros. -/
def splitOdd (n : Nat) : Nat × Int := if n = 0 then (0, 0) else (oddPart 128 n, (ctz 128 n : Int))

theorem splitOdd_of_ne_zero {n : Nat} (h : n ≠ 0) :
    splitOdd n = (oddPart 128 n, (ctz 128 n : Int)) := if_neg h

/-- On at most 113 bits there is nothing to round, sticky or not. -/
theorem roundTo113_of_lt {n : Nat} (h : n < 2 ^ 113) (sticky : Bool) :
    roundTo113 (Bytes.signed 128 n) sticky = pure (splitOdd n) := by
  have hsigned : Bytes.signed 128 n = n := Bytes.signed_of_lt (by decide) (by omega)
  unfold roundTo113 splitOdd
  rw [hsigned]
  by_cases hn : n = 0
  · rw [if_pos (by omega), if_pos hn]
  · have hbit : n / 2 ^ 113 % 2 = 0 := by omega
    have hkept : n &&& (2 ^ 113 - 1) = n := by
      rw [Nat.and_two_pow_sub_one_eq_mod, Nat.mod_eq_of_lt h]
    rw [if_neg (by omega), if_neg hn]
    simp only [Int.natAbs_natCast, hbit, hkept, ne_eq, not_true_eq_false, decide_false,
      Bool.false_and, Bool.false_eq_true, if_false, pure_bind, hn]
    rw [shrU_of_lt (ctz_lt hn (by omega)), pure_bind]
    rfl

/-- Rounding itself never overflows, and its adjustment is a bit count. -/
theorem roundTo113_pure {n : Nat} (h : n < 2 ^ 127) (sticky : Bool) :
    ∃ m e, roundTo113 (Bytes.signed 128 n) sticky = pure (m, e) ∧ m < 2 ^ 128 ∧ 0 ≤ e ∧ e ≤ 128 := by
  have hsigned : Bytes.signed 128 n = n := Bytes.signed_of_lt (by decide) h
  have hkept : n &&& (2 ^ 113 - 1) < 2 ^ 113 := by
    rw [Nat.and_two_pow_sub_one_eq_mod]
    omega
  unfold roundTo113
  rw [hsigned]
  split
  · exact ⟨0, 0, rfl, by omega, by omega, by omega⟩
  · simp only [Int.natAbs_natCast]
    generalize hm : n &&& (2 ^ 113 - 1) = m at *
    have htail : ∀ r < 2 ^ 128, ∃ m e, (if r = 0 then pure (0, 0) else do
        let normalized ← shrU 128 r (ctz 128 r)
        pure (normalized, (ctz 128 r : Int)) : Tracked (Nat × Int)) = pure (m, e) ∧
          m < 2 ^ 128 ∧ 0 ≤ e ∧ e ≤ 128 := by
      intro r hr
      split
      · exact ⟨0, 0, rfl, by omega, by omega, by omega⟩
      · next hne =>
        have hctz := ctz_lt hne hr
        rw [shrU_of_lt hctz, pure_bind]
        exact ⟨_, _, rfl, lt_of_le_of_lt (Nat.div_le_self _ _) hr, by omega, by omega⟩
    split
    · rw [addU_of_lt (by omega), pure_bind]
      exact htail (m + 1) (by omega)
    · rw [pure_bind]
      exact htail m (by omega)

/-- `align_mantissa`: shift right by `diff`, reporting whether bits were lost. -/
def alignMantissa (dfp : Dfp) (diff : Int) : Tracked (Dfp × Bool) :=
  if diff ≤ 0 then pure (dfp, false)
  else do
    let shift := diff.toNat
    if 128 ≤ shift then do
      let e ← addI 32 dfp.exponent diff
      pure (⟨0, e, .normal, dfp.sign⟩, dfp.mantissa != 0)
    else do
      let lostMask ← (if shift = 128 then pure 0 else do
        let one ← shlU 128 1 shift
        subU 128 one 1)
      let lost := dfp.mantissa &&& lostMask
      let m ← shrU 128 dfp.mantissa shift
      let e ← addI 32 dfp.exponent diff
      pure (⟨m, e, dfp.cls, dfp.sign⟩, lost != 0)

/-- `round_u256_to_canonical`: odd mantissa, exponent shift, sticky. -/
def roundU256ToCanonical (hi lo : Nat) : Tracked (Nat × Int × Bool) :=
  if hi = 0 ∧ lo = 0 then pure (0, 0, false)
  else
    let msb : Int := if hi ≠ 0 then 127 - (clz 128 hi : Int) + 128 else 127 - (clz 128 lo : Int)
    if 112 < msb then do
      debugAssert (msb < 112 + 128)
      let shiftRight := (msb - 112).toNat
      let s ← U256.shr ⟨hi, lo⟩ shiftRight
      debugAssert (s.hi = 0)
      let lostLowMask ← (if shiftRight = 0 then pure 0 else do
        let one ← shlU 128 1 shiftRight
        subU 128 one 1)
      let sticky := (lo &&& lostLowMask) != 0
      let trailing := ctz 128 s.lo
      if s.lo = 0 then do
        let e ← addI 32 shiftRight trailing
        pure (0, e, sticky)
      else do
        let m ← shrU 128 s.lo trailing
        let e ← addI 32 shiftRight trailing
        pure (m, e, sticky)
    else do
      -- the source's last two branches, `msb < 112` and `msb == 112`, have one body
      let trailing := ctz 128 lo
      let m ← shrU 128 lo trailing
      pure (m, (trailing : Int), false)

/-- Shifting right by `diff` is division, at any distance. -/
theorem alignMantissa_eq {d : Dfp} (hm : d.mantissa < 2 ^ 128) (diff : Int) (hdiff : 0 ≤ diff)
    (he : InI 32 (d.exponent + diff)) :
    ∃ cls sticky, alignMantissa d diff =
      pure (⟨d.mantissa / 2 ^ diff.toNat, d.exponent + diff, cls, d.sign⟩, sticky) := by
  unfold alignMantissa
  split
  · next hle =>
    have h0 : diff = 0 := by omega
    refine ⟨d.cls, false, ?_⟩
    rw [h0, Int.toNat_zero, pow_zero, Nat.div_one, Int.add_zero]
  dsimp only
  split
  · next hge =>
    refine ⟨.normal, d.mantissa != 0, ?_⟩
    have hz : d.mantissa / 2 ^ diff.toNat = 0 :=
      Nat.div_eq_of_lt (lt_of_lt_of_le hm (Nat.pow_le_pow_right Nat.two_pos hge))
    rw [addI_of_inI he, pure_bind, hz]
  · next hlt =>
    have hone : 1 * 2 ^ diff.toNat < 2 ^ 128 :=
      lt_of_eq_of_lt (Nat.one_mul _) (Nat.pow_lt_pow_right Nat.one_lt_two (by omega))
    rw [if_neg (by omega), shlU_of_lt (by omega) hone, pure_bind,
      subU_of_le (by rw [Nat.one_mul]; exact Nat.two_pow_pos _) hone, pure_bind,
      shrU_of_lt (by omega), pure_bind, addI_of_inI he, pure_bind]
    exact ⟨_, _, rfl⟩

theorem debugAssert_of {p : Prop} [Decidable p] (h : p) : debugAssert p = pure () := by
  unfold debugAssert
  rw [decide_eq_true h]
  rfl

/-- The low-bit mask stops the checked build from 128 discarded bits on. -/
theorem lostLowMask_ovf {k : Nat} (hk : 0 < k) (hk' : k < 256) :
    (if k = 0 then pure 0 else do
      let one ← shlU 128 1 k
      subU 128 one 1 : Tracked Nat).ovf = decide (128 ≤ k) := by
  have hpow : 2 ^ (k % 128) < 2 ^ 128 :=
    Nat.pow_lt_pow_right Nat.one_lt_two (Nat.mod_lt _ (by decide))
  have hone := Nat.two_pow_pos (k % 128)
  rw [if_neg (by omega)]
  simp only [Tracked.ovf_bind, shlU, Nat.one_mul, Nat.mod_eq_of_lt hpow]
  rw [subU_of_le hone hpow, Tracked.ovf_pure, Bool.or_false]

/-- The magnitude is cut to its top 113 bits and its trailing zeros split off;
the checked build stops from 241 bits on. -/
theorem roundU256ToCanonical_eq {n : Nat} (hn : n ≠ 0) (hlt : n < 2 ^ 256) :
    ∃ sticky, roundU256ToCanonical (n / 2 ^ 128) (n % 2 ^ 128) =
      ⟨(oddPart 128 (n / 2 ^ (bitLen n - 113)),
        ((bitLen n - 113 + ctz 128 (n / 2 ^ (bitLen n - 113)) : Nat) : Int), sticky),
        decide (241 ≤ bitLen n)⟩ := by
  have hmsb : (if n / 2 ^ 128 ≠ 0 then 127 - (clz 128 (n / 2 ^ 128) : Int) + 128
      else 127 - (clz 128 (n % 2 ^ 128) : Int)) = (bitLen n : Int) - 1 := by
    split
    · next hhi =>
      have hlen := bitLen_eq_add hhi
      have hle : bitLen (n / 2 ^ 128) ≤ 128 := bitLen_le_iff.mpr (by omega)
      unfold clz
      omega
    · next hhi =>
      have hlo : n % 2 ^ 128 = n := by omega
      have hle : bitLen n ≤ 128 := bitLen_le_iff.mpr (by omega)
      rw [hlo]
      unfold clz
      omega
  have hlen : bitLen n ≤ 256 := bitLen_le_iff.mpr hlt
  unfold roundU256ToCanonical
  rw [if_neg (by omega)]
  simp only [hmsb]
  have htop := topBits_lt 113 n
  have hpos := topBits_ne_zero (p := 113) (by decide) hn
  generalize hk : bitLen n - 113 = k at *
  split
  · next hbig =>
    have hfits : (U256.ofNat n).Fits := U256.ofNat_fits hlt
    have hshr : U256.shr ⟨n / 2 ^ 128, n % 2 ^ 128⟩ k = pure (U256.ofNat (n / 2 ^ k)) := by
      have h := U256.shr_eq hfits (n := k) (by omega)
      rwa [U256.toNat_ofNat] at h
    have hofNat : U256.ofNat (n / 2 ^ k) = ⟨0, n / 2 ^ k⟩ := by
      unfold U256.ofNat
      rw [Nat.div_eq_of_lt (by omega), Nat.mod_eq_of_lt (by omega)]
    have hovf := lostLowMask_ovf (k := k) (by omega) (by omega)
    have hctz : ctz 128 (n / 2 ^ k) < 128 := ctz_lt hpos (by omega)
    have hin : InI 32 ((k : Int) + (ctz 128 (n / 2 ^ k) : Int)) := by
      simp only [InI, minI, maxI]
      omega
    rw [show ((bitLen n : Int) - 1 - 112).toNat = k by omega, hshr, hofNat]
    generalize (if k = 0 then pure 0 else do
      let one ← shlU 128 1 k
      subU 128 one 1 : Tracked Nat) = mask at hovf ⊢
    simp only [pure_bind, debugAssert_of, if_neg hpos, shrU_of_lt hctz,
      addI_of_inI hin]
    refine ⟨(n % 2 ^ 128 &&& mask.val) != 0, Tracked.ext ?_ ?_⟩
    · simp [oddPart]
    · simp only [Tracked.ovf_bind, Tracked.ovf_pure, hovf, debugAssert, Bool.or_false]
      rw [← decide_not, ← Bool.decide_or, decide_eq_decide]
      omega
  · next hsmall =>
    have hk0 : k = 0 := by omega
    have hn128 : n < 2 ^ 113 := bitLen_le_iff.mp (by omega)
    refine ⟨false, ?_⟩
    rw [hk0, pow_zero, Nat.div_one, Nat.mod_eq_of_lt (by omega), shrU_of_lt (ctz_lt hn (by omega)),
      pure_bind, decide_eq_false (by omega), Nat.zero_add]
    rfl

/-! ## Addition -/

/-- The rounding of the same-sign path: a carry into bit 113 is shifted out first. -/
def roundSum (sum : Nat) (sticky : Bool) : Tracked (Nat × Int) :=
  if 2 ^ 113 ≤ sum then do
    -- shifted one down, the dropped bit folded into sticky
    let r ← roundTo113 (Bytes.signed 128 (sum / 2)) (sticky || sum % 2 != 0)
    let e ← addI 32 r.2 1
    pure (r.1, e)
  else roundTo113 (Bytes.signed 128 sum) sticky

/-- `same_sign_path`: align to the larger exponent, add, round. -/
def sameSignPath (a b : Dfp) : Tracked Parts := do
  let diff := saturate 32 (a.exponent - b.exponent)
  let ((alignedA, aSticky), (alignedB, bSticky)) ← (if 0 ≤ diff then do
      let (bAligned, bStk) ← alignMantissa b diff
      pure ((a, false), (bAligned, bStk))
    else do
      let (aAligned, aStk) ← alignMantissa a (saturate 32 (-diff))
      pure ((aAligned, aStk), (b, false)))
  let sum ← addU 128 alignedA.mantissa alignedB.mantissa
  let (mantissa, expAdj) ← roundSum sum (aSticky || bSticky)
  pure ⟨alignedA.sign, mantissa, saturate 32 (alignedA.exponent + expAdj)⟩

/-- The operand with the larger exponent, `a` on a draw. -/
def largerExp (a b : Dfp) : Dfp := if b.exponent ≤ a.exponent then a else b

/-- The other one. -/
def smallerExp (a b : Dfp) : Dfp := if b.exponent ≤ a.exponent then b else a

/-- `a.exponent.saturating_sub(b.exponent)`, larger minus smaller. -/
def expDiff (a b : Dfp) : Int := saturate 32 ((largerExp a b).exponent - (smallerExp a b).exponent)

/-- Subtract the smaller magnitude from the larger; the sign follows the larger. -/
def magDiff (big small : U256) (bigSign : Bool) : Tracked (U256 × Bool) :=
  if small.hi < big.hi ∨ small.hi = big.hi ∧ small.lo ≤ big.lo then do
    let d ← big.sub small
    pure (d, bigSign)
  else do
    let d ← small.sub big
    pure (d, !bigSign)

/-- `different_sign_path`: shift the larger-exponent mantissa up, subtract. -/
def differentSignPath (a b : Dfp) : Tracked Parts :=
  if 143 < expDiff a b then
    pure ⟨(largerExp a b).sign, (largerExp a b).mantissa, (largerExp a b).exponent⟩
  else do
    let _expDiff ← subI 32 (smallerExp a b).exponent a.exponent
    let bigU256 ← U256.shl ⟨0, (largerExp a b).mantissa⟩ (expDiff a b).toNat
    let mag ← magDiff bigU256 ⟨0, (smallerExp a b).mantissa⟩ (largerExp a b).sign
    let r ← roundU256ToCanonical mag.1.hi mag.1.lo
    pure ⟨mag.2, r.1, saturate 32 ((smallerExp a b).exponent + r.2.1)⟩

/-- The common tail: zero, normalise, saturate. -/
def finishAdd (r : Parts) : Tracked Dfp :=
  if r.mantissa = 0 then pure (Dfp.signedZero r.sign)
  else do
    let result ← Dfp.normalize ⟨r.mantissa, r.exponent, .normal, r.sign⟩
    if dfpMaxExponent < result.exponent then pure (saturated result.sign) else pure result

/-- `dfp_add`. -/
def dfpAdd (a b : Dfp) : Tracked Dfp :=
  match a.cls, b.cls with
  | .nan, _ => pure Dfp.nan
  | _, .nan => pure Dfp.nan
  | .infinity, _ => pure Dfp.nan
  | _, .infinity => pure Dfp.nan
  | .zero, .zero => pure (Dfp.signedZero (if a.sign == b.sign then a.sign else false))
  | .zero, _ => pure b
  | _, .zero => pure a
  | .normal, .normal => do
    let r ← (if a.sign = b.sign then sameSignPath a b else differentSignPath a b)
    finishAdd r

/-- `dfp_sub`: add with the sign of `b` flipped. -/
def dfpSub (a b : Dfp) : Tracked Dfp := dfpAdd a { b with sign := !b.sign }

/-! ## Multiplication -/

/-- The tail of multiplication and division: saturate, then normalise. -/
def finishScaled (sign : Bool) (mantissa : Nat) (exponent : Int) : Tracked Dfp :=
  if dfpMaxExponent < exponent then pure (saturated sign)
  else Dfp.normalize ⟨mantissa, exponent, .normal, sign⟩

/-- The right shift that brings the most significant bit down to bit 112. -/
def cutShift (msb : Int) : Nat := if 112 ≤ msb then (msb - 112).toNat else 0

/-- `dfp_mul` past the special values. -/
def mulNormal (a b : Dfp) : Tracked Dfp := do
  let product := mulU128ToU256 a.mantissa b.mantissa
  let shiftRight := cutShift (255 - (product.leadingZeros : Int))
  let aligned ← product.shr shiftRight
  let r ← roundTo113 (Bytes.signed 128 aligned.lo) false
  let exponent ← addI 32 (saturate 32 (a.exponent + b.exponent)) r.2
  let exponent ← addI 32 exponent shiftRight
  if r.1 = 0 then pure (Dfp.signedZero (a.sign ^^ b.sign))
  else finishScaled (a.sign ^^ b.sign) r.1 exponent

/-- `dfp_mul`. -/
def dfpMul (a b : Dfp) : Tracked Dfp :=
  match a.cls, b.cls with
  | .nan, _ => pure Dfp.nan
  | _, .nan => pure Dfp.nan
  | .infinity, _ => pure Dfp.nan
  | _, .infinity => pure Dfp.nan
  | .zero, _ => pure (Dfp.signedZero (a.sign ^^ b.sign))
  | _, .zero => pure (Dfp.signedZero (a.sign ^^ b.sign))
  | .normal, .normal => mulNormal a b

/-! ## Division -/

/-- The pre-scaling loop: double the divisor until it exceeds `a`. The source
breaks out once `scale > 200`, so 201 rounds of fuel are never exhausted. -/
def prescale (a : Nat) : Nat → Nat → Int → Tracked (Nat × Int)
  | 0, bM, scale => pure (bM, scale)
  | fuel + 1, bM, scale =>
    if bM ≤ a then do
      let bM ← shlU 128 bM 1
      let scale ← addI 32 scale 1
      if 200 < scale then pure (bM, scale) else prescale a fuel bM scale
    else pure (bM, scale)

/-- The running state of the long division. -/
structure DivState where
  dividendHi : Nat
  dividendLo : Nat
  quotient : Nat
deriving Repr, DecidableEq

/-- One round of shift-and-subtract. -/
def divStep (bM : Nat) (s : DivState) : Tracked DivState := do
  let lo ← shlU 128 s.dividendLo 1
  let shifted ← shlU 128 s.dividendHi 1
  let hi := shifted ||| s.dividendLo / 2 ^ 127
  let quotient ← shlU 128 s.quotient 1
  if bM < hi ∨ hi = bM ∧ 0 < lo then do
    let hi ← subU 128 hi bM
    pure ⟨hi, lo, quotient ||| 1⟩
  else pure ⟨hi, lo, quotient⟩

def divLoop (bM : Nat) : Nat → DivState → Tracked DivState
  | 0, s => pure s
  | n + 1, s => do
    let s ← divStep bM s
    divLoop bM n s

/-- The exponent of a quotient, each step saturating. -/
def divExponent (ae be rescale expAdj shiftAmount : Int) : Int :=
  saturate 32 (saturate 32 (saturate 32 (saturate 32 (ae - be) + rescale) + expAdj) + shiftAmount)

/-- `dfp_div` past the special values. -/
def divNormal (a b : Dfp) : Tracked Dfp := do
  let scaled ← prescale a.mantissa 201 b.mantissa 0
  let s ← divLoop scaled.1 128 ⟨a.mantissa, 0, 0⟩
  if s.quotient = 0 then pure (Dfp.signedZero (a.sign ^^ b.sign))
  else do
    let shiftAmount := cutShift (127 - (clz 128 s.quotient : Int))
    let aligned ← shrU 128 s.quotient shiftAmount
    let r ← roundTo113 (Bytes.signed 128 aligned) false
    if r.1 = 0 then pure (Dfp.signedZero (a.sign ^^ b.sign))
    else do
      let rescale ← subI 32 scaled.2 128
      finishScaled (a.sign ^^ b.sign) r.1
        (divExponent a.exponent b.exponent rescale r.2 shiftAmount)

/-- `dfp_div`. -/
def dfpDiv (a b : Dfp) : Tracked Dfp :=
  match a.cls, b.cls with
  | .nan, _ => pure Dfp.nan
  | _, .nan => pure Dfp.nan
  | .infinity, _ => pure Dfp.nan
  | _, .infinity => pure Dfp.nan
  | _, .zero => pure (saturated (a.sign ^^ b.sign))
  | .zero, _ => pure (Dfp.signedZero (a.sign ^^ b.sign))
  | .normal, .normal => divNormal a b

/-! ## Square root -/

/-- The bit loop, from `bit - 1` down to `0`. -/
def sqrtLoop (scaledTop scaledMid : Nat) : Nat → U256 → Tracked U256
  | 0, r => pure r
  | bit + 1, r => do
    let c ← setBitU256 r.hi r.lo bit
    sqrtLoop scaledTop scaledMid bit (if u256SqLeU384 c.hi c.lo scaledTop scaledMid then c else r)

/-- `dfp_sqrt` of a positive Normal. -/
def sqrtNormal (a : Dfp) : Tracked Dfp := do
  let adjustedMantissa ← (if a.exponent % 2 ≠ 0 then shlU 128 a.mantissa 1 else pure a.mantissa)
  let _scaled ← u128ShlToU256 adjustedMantissa 226
  let scaledMid ← shlU 128 adjustedMantissa 98
  let scaledTop ← shrU 128 adjustedMantissa 30
  let r ← sqrtLoop scaledTop scaledMid 226 ⟨0, 0⟩
  let resultHi ← shlU 128 r.hi 15
  let resultLo ← shrU 128 r.lo 113
  if resultHi ||| resultLo = 0 then pure Dfp.zero
  else Dfp.normalize ⟨resultHi ||| resultLo, a.exponent / 2, .normal, false⟩

/-- `dfp_sqrt`. -/
def dfpSqrt (a : Dfp) : Tracked Dfp :=
  match a.cls with
  | .nan => pure Dfp.nan
  | .zero => pure Dfp.zero
  | .infinity => pure Dfp.nan
  | .normal => if a.sign then pure Dfp.nan else sqrtNormal a

end CipherOcto.Determin
