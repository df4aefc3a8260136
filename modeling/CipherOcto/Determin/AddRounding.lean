import CipherOcto.Determin.AddPaths
import CipherOcto.Lib.Rounding

/-!
# When addition rounds correctly

What `dfp_add` is for: the exact sum where it is representable, otherwise the
nearest 113-bit value, ties to even, clamped to `±DFP_MAX` (`SumCorrect`). The
code truncates instead. Equal signs discard every bit below the *larger*
exponent, so `2 + 1` is `2`; different signs discard what lies below the top 113
bits of the difference, or the whole smaller operand, or at a gap of exactly
128 the larger one.

`AddFaithful` says for which operands the truncation happens to be the rounding.
It only looks at the operands: `exactMag` is the exact sum as an integer at the
smaller exponent and `keptMag` the multiple of a power of two it is cut to.
-/

namespace CipherOcto.Determin

open Machine Rounding

/-! ## The specification -/

/-- The value of `DFP_MAX`. -/
def maxValue : ℚ := (2 ^ 113 - 1) * 2 ^ (1023 : ℤ)

/-- Nearest 113-bit value, ties to even, clamped. -/
def roundedSum (x : ℚ) : ℚ := max (-maxValue) (min maxValue (rne 113 x))

/-- `x` has an odd mantissa below `2^113` and an exponent in range, or is zero. -/
def Representable (x : ℚ) : Prop :=
  x = 0 ∨ ∃ (m : ℕ) (e : ℤ), m % 2 = 1 ∧ m < 2 ^ 113 ∧ dfpMinExponent ≤ e ∧ e ≤ dfpMaxExponent ∧
    |x| = m * 2 ^ e

/-- `r` is what a sum with exact value `x` must be. -/
def SumCorrect (r : Dfp) (x : ℚ) : Prop :=
  r.Canonical ∧ (Representable x → r.value = x) ∧ (¬ Representable x → r.value = roundedSum x)

theorem maxValue_pos : 0 < maxValue := mul_pos (by norm_num) (two_zpow_pos _)

theorem roundedSum_neg (x : ℚ) : roundedSum (-x) = -roundedSum x := by
  have hpos := maxValue_pos
  unfold roundedSum
  rw [rne_neg]
  rcases le_total maxValue (rne 113 x) with h | h <;>
    rcases le_total (-maxValue) (rne 113 x) with h' | h'
  · rw [min_eq_left h, min_eq_right (by linarith), max_eq_left (by linarith),
      max_eq_right (by linarith)]
  · linarith
  · rw [min_eq_right h, min_eq_right (by linarith), max_eq_right (by linarith), max_eq_right h']
  · rw [min_eq_right h, min_eq_left (by linarith), max_eq_left h', max_eq_right (by linarith),
      neg_neg]

theorem roundedSum_zero : roundedSum 0 = 0 := by
  have hpos := maxValue_pos
  unfold roundedSum
  rw [rne_zero, min_eq_right hpos.le, max_eq_right (by linarith)]

theorem rne_pos {p : ℕ} (hp : 1 ≤ p) {x : ℚ} (hx : 0 < x) : 0 < rne p x :=
  lt_of_lt_of_le (two_zpow_pos _) (le_rne_of_pos hp hx)

/-- A positive sum only meets the upper clamp. -/
theorem roundedSum_of_pos {x : ℚ} (hx : 0 < x) : roundedSum x = min maxValue (rne 113 x) := by
  have hpos := maxValue_pos
  have hr := rne_pos (p := 113) (by decide) hx
  unfold roundedSum
  exact max_eq_right ((neg_nonpos.mpr hpos.le).trans (le_min hpos.le hr.le))

theorem roundedSum_pos {x : ℚ} (hx : 0 < x) : 0 < roundedSum x := by
  rw [roundedSum_of_pos hx]
  exact lt_min maxValue_pos (rne_pos (by decide) hx)

/-- A 113-bit mantissa at an exponent in range stays below `DFP_MAX`. -/
theorem le_maxValue {m : ℕ} {e : ℤ} (hm : m < 2 ^ 113) (he : e ≤ 1023) :
    (m : ℚ) * 2 ^ e ≤ maxValue := by
  have hm' : (m : ℚ) ≤ 2 ^ 113 - 1 := by
    have h : m + 1 ≤ 2 ^ 113 := hm
    have h' : ((m + 1 : ℕ) : ℚ) ≤ ((2 ^ 113 : ℕ) : ℚ) := by exact_mod_cast h
    push_cast at h'
    linarith
  unfold maxValue
  exact mul_le_mul hm' (zpow_le_zpow_right₀ (by norm_num) he) (two_zpow_pos e).le
    (by norm_num)

theorem rne_of_lt {m : ℕ} (h0 : m ≠ 0) (h : m < 2 ^ 113) (e : ℤ) :
    rne 113 (m * 2 ^ e) = m * 2 ^ e := by
  have hlen : bitLen m - 113 = 0 := Nat.sub_eq_zero_of_le (bitLen_le_iff.mpr h)
  rw [rne_eq_iff e h0 (by rw [hlen]; exact one_dvd m)]
  left
  simp [hlen]

/-- Where the exact sum is representable, rounding and clamping keep it. -/
theorem roundedSum_of_representable {x : ℚ} (h : Representable x) : roundedSum x = x := by
  rcases h with rfl | ⟨m, e, hodd, hlt, -, hmax, habs⟩
  · exact roundedSum_zero
  · have hpos : (0 : ℚ) < m * 2 ^ e := by
      have hm : 0 < m := by omega
      have := two_zpow_pos e
      positivity
    have hround : roundedSum (m * 2 ^ e) = m * 2 ^ e := by
      rw [roundedSum_of_pos hpos, rne_of_lt (by omega) hlt, min_eq_right (le_maxValue hlt hmax)]
    rcases abs_choice x with hx | hx
    · rw [← hx, habs, hround]
    · rw [← neg_inj, ← roundedSum_neg, ← hx, habs, hround]

theorem sumCorrect_iff {r : Dfp} (hr : r.Canonical) (x : ℚ) :
    SumCorrect r x ↔ r.value = roundedSum x := by
  constructor
  · intro h
    obtain ⟨-, hrep, hround⟩ := h
    by_cases h : Representable x
    · rw [hrep h, roundedSum_of_representable h]
    · exact hround h
  · intro h
    refine ⟨hr, fun hrep => ?_, fun _ => h⟩
    rw [h, roundedSum_of_representable hrep]

/-! ## The condition on the operands -/

/-- The exact magnitude of the sum, as an integer at the smaller exponent. -/
def exactMag (a b : Dfp) : ℕ :=
  if a.sign = b.sign then (largerExp a b).mantissa * 2 ^ gap a b + (smallerExp a b).mantissa
  else absDiff ((largerExp a b).mantissa * 2 ^ gap a b) (smallerExp a b).mantissa

/-- How many low bits of the exact magnitude are cleared. -/
def clearedBits (a b : Dfp) : ℕ :=
  if a.sign = b.sign then max (gap a b) (bitLen (exactMag a b) - 113)
  else bitLen (exactMag a b) - 113

/-- The exact magnitude with those bits cleared; for different signs and a gap
above 143, the larger operand alone. -/
def keptMag (a b : Dfp) : ℕ :=
  if a.sign ≠ b.sign ∧ 143 < gap a b then (largerExp a b).mantissa * 2 ^ gap a b
  else exactMag a b / 2 ^ clearedBits a b * 2 ^ clearedBits a b

/-- Reading `kept * 2^e` for `exact * 2^e` is correct rounding: a kept magnitude
in units of `2^1024` saturates and must have been due to; `DFP_MAX` itself is
right; anything else must be within half a unit in the last place, ties even. -/
def FaithfulCut (exact kept : ℕ) (e : ℤ) : Prop :=
  if kept ≠ 0 ∧ 2 ^ (1024 - e).toNat ∣ kept then (2 ^ 114 - 3) * 2 ^ (1023 - e).toNat < 2 * exact
  else kept = (2 ^ 113 - 1) * 2 ^ (1023 - e).toNat ∨
    2 * |(exact : ℤ) - kept| < 2 ^ (bitLen exact - 113) ∨
    2 * |(exact : ℤ) - kept| = 2 ^ (bitLen exact - 113) ∧ kept / 2 ^ (bitLen exact - 113) % 2 = 0

/-- The operands on which addition rounds correctly. -/
def AddFaithful (a b : Dfp) : Prop :=
  a.cls = .zero ∨ b.cls = .zero ∨
    ¬ (a.sign ≠ b.sign ∧ gap a b = 128) ∧
      FaithfulCut (exactMag a b) (keptMag a b) (smallerExp a b).exponent

/-! ## The cut against the rounding -/

theorem assemble_value_neg (n : ℕ) (e : ℤ) :
    (assemble true n e).value = -(assemble false n e).value := by
  unfold assemble
  split
  · simp [Dfp.signedZero, Dfp.value, Dfp.zero, Dfp.negZero]
  split
  · simp only [saturated, if_true, Bool.false_eq_true, if_false]
    exact Dfp.flip_value dfpMax
  · exact Dfp.flip_value ⟨oddPart 128 n, e + ctz 128 n, .normal, false⟩

theorem dfpMax_value : dfpMax.value = maxValue := by
  rw [Dfp.value_pos_normal rfl rfl]
  unfold maxValue dfpMax dfpMaxMantissa dfpMaxExponent
  norm_num only [Nat.cast_sub]

theorem assemble_value_of_le {n : ℕ} {e : ℤ} (hn : n ≠ 0) (h : e + ctz 128 n ≤ 1023) :
    (assemble false n e).value = n * 2 ^ e := by
  unfold assemble
  rw [if_neg hn, if_neg (show ¬ dfpMaxExponent < _ from not_lt.mpr h), Dfp.value_pos_normal rfl rfl]
  simp only
  rw [zpow_add₀ (by norm_num), zpow_natCast, mul_comm (2 ^ e), ← mul_assoc]
  congr 1
  exact_mod_cast oddPart_mul_two_pow_ctz 128 n

/-- In odd form the exponent is in range, so the value is. -/
theorem dyadic_le_maxValue {n : ℕ} {e : ℤ} (hn : n ≠ 0) (hlt : n < 2 ^ 113)
    (h : e + ctz 128 n ≤ 1023) : (n : ℚ) * 2 ^ e ≤ maxValue := by
  have hodd : oddPart 128 n < 2 ^ 113 := lt_of_le_of_lt (oddPart_le _ _) hlt
  rw [← assemble_value_of_le hn h]
  unfold assemble
  rw [if_neg hn, if_neg (show ¬ dfpMaxExponent < _ from not_lt.mpr h), Dfp.value_pos_normal rfl rfl]
  exact le_maxValue hodd h

theorem assemble_value_pos {n : ℕ} (e : ℤ) (hn : n ≠ 0) : 0 < (assemble false n e).value := by
  rcases le_or_gt (e + ctz 128 n) 1023 with h | h
  · rw [assemble_value_of_le hn h]
    exact mul_pos (by exact_mod_cast Nat.pos_of_ne_zero hn) (two_zpow_pos e)
  · unfold assemble
    rw [if_neg hn, if_pos (show dfpMaxExponent < _ from h)]
    exact lt_of_lt_of_eq maxValue_pos dfpMax_value.symm

theorem maxValue_eq {e : ℤ} (he : e ≤ 1023) :
    maxValue = ((2 ^ 113 - 1) * 2 ^ (1023 - e).toNat : ℕ) * 2 ^ e := by
  unfold maxValue
  rw [two_zpow_eq_mul he, Nat.cast_mul, Nat.cast_sub (by norm_num)]
  push_cast
  ring

theorem eq_maxValue_iff {T : ℕ} {e : ℤ} (he : e ≤ 1023) :
    (T : ℚ) * 2 ^ e = maxValue ↔ T = (2 ^ 113 - 1) * 2 ^ (1023 - e).toNat := by
  rw [maxValue_eq he, mul_left_inj' (two_zpow_pos e).ne', Nat.cast_inj]

/-- From where on a positive sum rounds to `DFP_MAX` or beyond. -/
theorem maxValue_le_rne_iff {M : ℕ} {e : ℤ} (hM : M ≠ 0) (he : e ≤ 1023) :
    maxValue ≤ rne 113 (M * 2 ^ e) ↔ (2 ^ 114 - 3) * 2 ^ (1023 - e).toNat < 2 * M := by
  have hx : (0 : ℚ) < M * 2 ^ e :=
    mul_pos (by exact_mod_cast Nat.pos_of_ne_zero hM) (two_zpow_pos e)
  have hcast : ((2 ^ 114 - 3 : ℕ) : ℚ) = 2 ^ 114 - 3 := by
    rw [Nat.cast_sub (by norm_num)]
    norm_num
  unfold maxValue
  rw [maxFinite_le_rne_iff (by decide) hx, two_zpow_eq_mul he, ← mul_assoc,
    mul_lt_mul_iff_left₀ (two_zpow_pos e)]
  rw [← Nat.cast_lt (α := ℚ)]
  push_cast [hcast]
  constructor <;> intro h <;> linarith

/-- **The cut is the rounding** exactly under `FaithfulCut`. The hypothesis on
`DFP_MAX` says that a cut landing there came from a sum that rounds there. -/
theorem assemble_value_iff {M n t : ℕ} {e : ℤ} (hM : M ≠ 0) (hn : n ≠ 0) (hlt : n < 2 ^ 113)
    (he : e ≤ 1023) (hdvd : 2 ^ (bitLen M - 113) ∣ n * 2 ^ t)
    (hmax : n * 2 ^ t = (2 ^ 113 - 1) * 2 ^ (1023 - e).toNat →
      (2 ^ 114 - 3) * 2 ^ (1023 - e).toNat < 2 * M) :
    (assemble false n (e + t)).value = roundedSum (M * 2 ^ e) ↔ FaithfulCut M (n * 2 ^ t) e := by
  have hx : (0 : ℚ) < M * 2 ^ e :=
    mul_pos (by exact_mod_cast Nat.pos_of_ne_zero hM) (two_zpow_pos e)
  have hT : n * 2 ^ t ≠ 0 := Nat.mul_ne_zero hn (Nat.two_pow_pos t).ne'
  have hsat : 2 ^ (1024 - e).toNat ∣ n * 2 ^ t ↔ 1023 < e + t + ctz 128 n := by
    rw [two_pow_dvd_shifted_iff (w := 128) hn (by omega)]
    omega
  unfold FaithfulCut
  rw [roundedSum_of_pos hx]
  split
  · next hbig =>
    have hval : (assemble false n (e + t)).value = maxValue := by
      unfold assemble
      rw [if_neg hn, if_pos (show dfpMaxExponent < _ from hsat.mp hbig.2)]
      exact dfpMax_value
    rw [hval, ← maxValue_le_rne_iff hM he]
    constructor
    · intro h
      rw [h]
      exact min_le_right _ _
    · exact fun h => (min_eq_left h).symm
  · next hsmall =>
    have hle : e + t + ctz 128 n ≤ 1023 := by
      by_contra hgt
      exact hsmall ⟨hT, hsat.mpr (not_le.mp hgt)⟩
    have hval : (assemble false n (e + t)).value = ((n * 2 ^ t : ℕ) : ℚ) * 2 ^ e := by
      rw [assemble_value_of_le hn hle, zpow_add₀ (by norm_num), zpow_natCast]
      push_cast
      ring
    have hbound : ((n * 2 ^ t : ℕ) : ℚ) * 2 ^ e ≤ maxValue := by
      rw [← hval, assemble_value_of_le hn hle]
      exact dyadic_le_maxValue hn hlt hle
    rw [hval, ← eq_maxValue_iff he, ← rne_eq_iff e hM hdvd]
    constructor
    · intro h
      rcases le_total maxValue (rne 113 (M * 2 ^ e)) with hr | hr
      · exact Or.inl (h.trans (min_eq_left hr))
      · exact Or.inr (h.trans (min_eq_right hr)).symm
    · rintro (h | h)
      · rw [h, min_eq_left]
        exact (maxValue_le_rne_iff hM he).mpr (hmax ((eq_maxValue_iff he).mp h))
      · rw [h, min_eq_right hbound]

theorem assemble_signed_iff {n : ℕ} {e : ℤ} (sign : Bool) (x : ℚ) :
    (assemble sign n e).value = roundedSum (if sign then -x else x) ↔
      (assemble false n e).value = roundedSum x := by
  cases sign with
  | false => exact Iff.rfl
  | true => rw [assemble_value_neg, if_pos rfl, roundedSum_neg, neg_inj]

/-! ## The exact sum -/

section
variable {a b : Dfp}

theorem largerExp_exponent (a b : Dfp) :
    (largerExp a b).exponent = (smallerExp a b).exponent + gap a b := by
  have h := smallerExp_le a b
  unfold gap
  omega

theorem value_add_eq (a b : Dfp) :
    a.value + b.value = (largerExp a b).value + (smallerExp a b).value := by
  unfold largerExp smallerExp
  split
  · rfl
  · exact add_comm _ _

theorem sign_eq_iff (a b : Dfp) :
    (largerExp a b).sign = (smallerExp a b).sign ↔ a.sign = b.sign := by
  unfold largerExp smallerExp
  split
  · exact Iff.rfl
  · exact eq_comm

theorem largerExp_sign_same (hs : a.sign = b.sign) : (largerExp a b).sign = a.sign := by
  unfold largerExp
  split
  · rfl
  · exact hs.symm

theorem value_of_normal {d : Dfp} (h : d.cls = .normal) :
    d.value = if d.sign then -(d.mantissa * 2 ^ d.exponent : ℚ) else d.mantissa * 2 ^ d.exponent := by
  rcases Bool.eq_false_or_eq_true d.sign with hs | hs
  · rw [Dfp.value_neg_normal h hs, hs]
    rfl
  · rw [Dfp.value_pos_normal h hs, hs]
    rfl

theorem larger_magnitude (a b : Dfp) :
    ((largerExp a b).mantissa : ℚ) * 2 ^ (largerExp a b).exponent
      = ((largerExp a b).mantissa * 2 ^ gap a b : ℕ) * 2 ^ (smallerExp a b).exponent := by
  rw [largerExp_exponent, zpow_add₀ (by norm_num), zpow_natCast]
  push_cast
  ring

/-- Equal signs: magnitudes add. -/
theorem exact_sum_same (ha : a.CanonicalNormal) (hb : b.CanonicalNormal) (hs : a.sign = b.sign) :
    a.value + b.value = if a.sign then -(exactMag a b * 2 ^ (smallerExp a b).exponent : ℚ)
      else exactMag a b * 2 ^ (smallerExp a b).exponent := by
  have hbig := largerExp_canonical ha hb
  have hsmall := smallerExp_canonical ha hb
  have hsl : (smallerExp a b).sign = a.sign := by
    rw [← (sign_eq_iff a b).mpr hs, largerExp_sign_same hs]
  rw [value_add_eq, value_of_normal hbig.cls, value_of_normal hsmall.cls, larger_magnitude,
    largerExp_sign_same hs, hsl, exactMag, if_pos hs]
  split <;> push_cast <;> ring

/-- Different signs: magnitudes subtract, the larger one's sign wins. -/
theorem exact_sum_diff (ha : a.CanonicalNormal) (hb : b.CanonicalNormal) (hs : a.sign ≠ b.sign) :
    a.value + b.value =
      if (if (smallerExp a b).mantissa ≤ (largerExp a b).mantissa * 2 ^ gap a b
        then (largerExp a b).sign else !(largerExp a b).sign)
      then -(exactMag a b * 2 ^ (smallerExp a b).exponent : ℚ)
      else exactMag a b * 2 ^ (smallerExp a b).exponent := by
  have hbig := largerExp_canonical ha hb
  have hsmall := smallerExp_canonical ha hb
  have hsl : (smallerExp a b).sign = !(largerExp a b).sign := by
    have hne : ¬ (largerExp a b).sign = (smallerExp a b).sign := fun h => hs ((sign_eq_iff a b).mp h)
    revert hne
    cases (largerExp a b).sign <;> cases (smallerExp a b).sign <;> decide
  rw [value_add_eq, value_of_normal hbig.cls, value_of_normal hsmall.cls, larger_magnitude, hsl,
    exactMag, if_neg hs]
  generalize (largerExp a b).mantissa * 2 ^ gap a b = x
  generalize (smallerExp a b).mantissa = y
  generalize (2 : ℚ) ^ (smallerExp a b).exponent = u
  unfold absDiff
  rcases le_or_gt y x with hle | hgt
  · rw [if_pos hle, if_pos hle, Nat.cast_sub hle]
    cases (largerExp a b).sign <;> simp <;> ring
  · rw [if_neg (not_le.mpr hgt), if_neg (not_le.mpr hgt), Nat.cast_sub hgt.le]
    cases (largerExp a b).sign <;> simp <;> ring

/-! ## The three paths -/

/-- The same-sign cut in terms of the exact sum. -/
theorem alignedSum_eq (hs : a.sign = b.sign) :
    alignedLeft a b + alignedLeft b a = exactMag a b / 2 ^ gap a b := by
  have hdiv : (largerExp a b).mantissa + (smallerExp a b).mantissa / 2 ^ gap a b
      = exactMag a b / 2 ^ gap a b := by
    rw [exactMag, if_pos hs, Nat.add_comm (_ * _), Nat.add_mul_div_right _ _ (Nat.two_pow_pos _),
      Nat.add_comm]
  rw [← hdiv]
  unfold alignedLeft gap largerExp smallerExp
  split
  · next h => rw [show (b.exponent - a.exponent).toNat = 0 by omega, pow_zero, Nat.div_one]
  · next h =>
    rw [show (a.exponent - b.exponent).toNat = 0 by omega, pow_zero, Nat.div_one, Nat.add_comm]

variable (ha : a.CanonicalNormal) (hb : b.CanonicalNormal)
include ha hb

theorem smallerExp_exponent_le : (smallerExp a b).exponent ≤ 1023 :=
  (smallerExp_canonical ha hb).exp_le

theorem dfpAdd_same_value_iff (hs : a.sign = b.sign) :
    (dfpAdd a b).val.value = roundedSum (a.value + b.value) ↔
      FaithfulCut (exactMag a b) (keptMag a b) (smallerExp a b).exponent := by
  obtain ⟨hne, -⟩ := alignedSum_bounds ha hb
  rw [dfpAdd_same ha hb hs, Tracked.val_pure, exact_sum_same ha hb hs, assemble_signed_iff]
  rw [alignedSum_eq hs] at hne ⊢
  have hcut : gap a b + (bitLen (exactMag a b / 2 ^ gap a b) - 113) = clearedBits a b := by
    rw [clearedBits, if_pos hs, bitLen_div_two_pow]
    omega
  have hn : exactMag a b / 2 ^ gap a b / 2 ^ (bitLen (exactMag a b / 2 ^ gap a b) - 113)
      = exactMag a b / 2 ^ clearedBits a b := by
    rw [Nat.div_div_eq_div_mul, ← pow_add, hcut]
  have htop := topBits_lt 113 (exactMag a b / 2 ^ gap a b)
  have htop0 := topBits_ne_zero (p := 113) (by decide) hne
  rw [hn] at htop htop0
  rw [hn, largerExp_exponent, Int.add_assoc, ← Nat.cast_add, hcut, keptMag, if_neg (by simp [hs])]
  have hM : exactMag a b ≠ 0 := fun h0 => hne (by rw [h0, Nat.zero_div])
  apply assemble_value_iff hM htop0 htop (smallerExp_exponent_le ha hb)
  · apply dvd_mul_of_dvd_right
    apply Nat.pow_dvd_pow
    rw [clearedBits, if_pos hs]
    exact le_max_right _ _
  · intro hT
    have hle := Nat.div_mul_le_self (exactMag a b) (2 ^ clearedBits a b)
    have hpos := Nat.two_pow_pos (1023 - (smallerExp a b).exponent).toNat
    rw [hT] at hle
    omega

theorem shiftedUp_eq (hgap : gap a b ≤ 143) (h128 : gap a b ≠ 128) :
    shiftedUp (largerExp a b).mantissa (gap a b) = (largerExp a b).mantissa * 2 ^ gap a b := by
  have hlt := (largerExp_canonical ha hb).lt
  rw [shiftedUp, if_neg h128, Nat.mod_eq_of_lt]
  calc (largerExp a b).mantissa * 2 ^ gap a b
      < 2 ^ 113 * 2 ^ gap a b := Nat.mul_lt_mul_of_pos_right hlt (Nat.two_pow_pos _)
    _ ≤ 2 ^ 113 * 2 ^ 143 := Nat.mul_le_mul_left _ (Nat.pow_le_pow_right Nat.two_pos hgap)
    _ = 2 ^ 256 := by norm_num

theorem dfpAdd_near_value_iff (hs : a.sign ≠ b.sign) (hgap : gap a b ≤ 143)
    (h128 : gap a b ≠ 128) :
    (dfpAdd a b).val.value = roundedSum (a.value + b.value) ↔
      FaithfulCut (exactMag a b) (keptMag a b) (smallerExp a b).exponent := by
  have hmag : diffMag a b = exactMag a b := by
    rw [diffMag, shiftedUp_eq ha hb hgap h128, exactMag, if_neg hs]
  have hkept : keptMag a b = exactMag a b / 2 ^ (bitLen (exactMag a b) - 113)
      * 2 ^ (bitLen (exactMag a b) - 113) := by
    rw [keptMag, if_neg (by omega), clearedBits, if_neg hs]
  rw [dfpAdd_near ha hb hs hgap, exact_sum_diff ha hb hs, diffSign,
    shiftedUp_eq ha hb hgap h128, assemble_signed_iff, hmag, hkept]
  by_cases hM : exactMag a b = 0
  · -- the operands cancel
    rw [hM]
    refine iff_of_true ?_ ?_
    · simp [assemble, Dfp.signedZero, Dfp.value, Dfp.zero, roundedSum_zero]
    · simp [FaithfulCut]
  · apply assemble_value_iff hM (topBits_ne_zero (by decide) hM) (topBits_lt 113 _)
      (smallerExp_exponent_le ha hb) (dvd_mul_left _ _)
    intro hT
    have hle := Nat.div_mul_le_self (exactMag a b) (2 ^ (bitLen (exactMag a b) - 113))
    have hpos := Nat.two_pow_pos (1023 - (smallerExp a b).exponent).toNat
    rw [hT] at hle
    omega

/-- Across a gap above 143 the difference is within a half unit of the larger operand. -/
theorem exactMag_far (hs : a.sign ≠ b.sign) (hgap : 143 < gap a b) :
    exactMag a b + (smallerExp a b).mantissa = (largerExp a b).mantissa * 2 ^ gap a b ∧
      (smallerExp a b).mantissa * 2 ^ 31 ≤ 2 ^ gap a b := by
  have hlo := (smallerExp_canonical ha hb).lt
  have hodd := (largerExp_canonical ha hb).odd
  have hpow : 2 ^ 144 ≤ 2 ^ gap a b := Nat.pow_le_pow_right Nat.two_pos hgap
  have hbig : 2 ^ gap a b ≤ (largerExp a b).mantissa * 2 ^ gap a b :=
    Nat.le_mul_of_pos_left _ (by omega)
  constructor
  · rw [exactMag, if_neg hs, absDiff, if_pos (by omega)]
    omega
  · omega

theorem dfpAdd_far_value_iff (hs : a.sign ≠ b.sign) (hgap : 143 < gap a b) :
    (dfpAdd a b).val.value = roundedSum (a.value + b.value) ↔
      FaithfulCut (exactMag a b) (keptMag a b) (smallerExp a b).exponent := by
  obtain ⟨hM, hsmall⟩ := exactMag_far ha hb hs hgap
  have hbig := largerExp_canonical ha hb
  have hodd := hbig.odd
  have hlt := hbig.lt
  have hpow : 2 ^ 144 ≤ 2 ^ gap a b := Nat.pow_le_pow_right Nat.two_pos hgap
  have hge : 2 ^ gap a b ≤ (largerExp a b).mantissa * 2 ^ gap a b :=
    Nat.le_mul_of_pos_left _ (by omega)
  have hle : (smallerExp a b).mantissa ≤ (largerExp a b).mantissa * 2 ^ gap a b := by omega
  rw [dfpAdd_far ha hb hs hgap, Tracked.val_pure, exact_sum_diff ha hb hs, if_pos hle,
    assemble_signed_iff, largerExp_exponent, keptMag, if_pos ⟨hs, hgap⟩]
  apply assemble_value_iff (by omega) (by omega) hlt (smallerExp_exponent_le ha hb)
  · -- at most `113 + gap` bits, so the unit divides `2^gap`
    apply dvd_mul_of_dvd_right
    apply Nat.pow_dvd_pow
    have hlen : bitLen (exactMag a b) ≤ 113 + gap a b := by
      rw [bitLen_le_iff, pow_add]
      have := Nat.mul_lt_mul_of_pos_right hlt (Nat.two_pow_pos (gap a b))
      omega
    omega
  · intro hT
    have hexp := hbig.exp_le
    rw [largerExp_exponent] at hexp
    unfold dfpMaxExponent at hexp
    have hj : 2 ^ gap a b ≤ 2 ^ (1023 - (smallerExp a b).exponent).toNat :=
      Nat.pow_le_pow_right Nat.two_pos (by omega)
    omega

/-- At a gap of exactly 128 the larger operand is lost and the sign is wrong. -/
theorem dfpAdd_gap_128 (hs : a.sign ≠ b.sign) (hgap : gap a b = 128) :
    (dfpAdd a b).val.value ≠ roundedSum (a.value + b.value) := by
  have hlt := (smallerExp_canonical ha hb).lt
  have hodd := (smallerExp_canonical ha hb).odd
  have hodd' := (largerExp_canonical ha hb).odd
  have hup : shiftedUp (largerExp a b).mantissa (gap a b) = 0 := by rw [shiftedUp, if_pos hgap]
  have hmag : diffMag a b = (smallerExp a b).mantissa := by
    rw [diffMag, hup, absDiff, if_neg (by omega), Nat.sub_zero]
  have hsign : diffSign a b = !(largerExp a b).sign := by
    rw [diffSign, hup, if_neg (by omega)]
  have hpow : 2 ^ 128 ≤ (largerExp a b).mantissa * 2 ^ gap a b := by
    rw [hgap]
    exact Nat.le_mul_of_pos_left _ (by omega)
  have hle : (smallerExp a b).mantissa ≤ (largerExp a b).mantissa * 2 ^ gap a b := by omega
  have hM : exactMag a b ≠ 0 := by
    rw [exactMag, if_neg hs, absDiff, if_pos hle]
    omega
  have hx : (0 : ℚ) < exactMag a b * 2 ^ (smallerExp a b).exponent :=
    mul_pos (by exact_mod_cast Nat.pos_of_ne_zero hM) (two_zpow_pos _)
  have hround := roundedSum_pos hx
  have htop0 := topBits_ne_zero (p := 113) (n := (smallerExp a b).mantissa) (by decide) (by omega)
  rw [dfpAdd_near ha hb hs (by omega), exact_sum_diff ha hb hs, hmag, hsign, if_pos hle]
  have hval := assemble_value_pos
    ((smallerExp a b).exponent + (bitLen (smallerExp a b).mantissa - 113 : ℕ)) htop0
  cases (largerExp a b).sign with
  | false =>
    rw [if_neg (by decide), Bool.not_false, assemble_value_neg]
    linarith
  | true =>
    rw [if_pos rfl, Bool.not_true, roundedSum_neg]
    linarith

end

/-! ## The result -/

/-- Addition is correct exactly on faithful operands. -/
theorem dfpAdd_correct_iff {a b : Dfp} (ha : a.Canonical) (hb : b.Canonical) :
    SumCorrect (dfpAdd a b).val (a.value + b.value) ↔ AddFaithful a b := by
  have hcan := dfpAdd_canonical ha hb
  rw [sumCorrect_iff hcan]
  by_cases hz : a.cls = .zero ∨ b.cls = .zero
  · -- the sum is the other operand, which is representable
    obtain ⟨r, heq, hr, hval⟩ := dfpAdd_zero ha hb hz
    have hrep : Representable (a.value + b.value) := by
      rw [← hval]
      rcases (Dfp.canonical_iff r).mp hr with h | h
      · exact Or.inl (Dfp.value_zero h)
      · refine Or.inr ⟨r.mantissa, r.exponent, h.odd, h.lt, h.exp_ge, h.exp_le, ?_⟩
        have hpos := Dfp.magnitude_pos (a := r) h.odd
        rw [value_of_normal h.cls]
        split
        · rw [abs_neg, abs_of_pos hpos]
        · exact abs_of_pos hpos
    rw [heq, Tracked.val_pure, hval, roundedSum_of_representable hrep]
    exact iff_of_true rfl (by rw [AddFaithful, ← or_assoc]; exact Or.inl hz)
  · rw [not_or] at hz
    have hac := ((Dfp.canonical_iff a).mp ha).resolve_left hz.1
    have hbc := ((Dfp.canonical_iff b).mp hb).resolve_left hz.2
    simp only [AddFaithful, hz.1, hz.2, false_or]
    by_cases hs : a.sign = b.sign
    · rw [dfpAdd_same_value_iff hac hbc hs]
      simp [hs]
    · rcases Nat.lt_or_ge 143 (gap a b) with hgap | hgap
      · rw [dfpAdd_far_value_iff hac hbc hs hgap]
        exact (and_iff_right (by omega)).symm
      · by_cases h128 : gap a b = 128
        · exact iff_of_false (dfpAdd_gap_128 hac hbc hs h128) (fun h => h.1 ⟨hs, h128⟩)
        · rw [dfpAdd_near_value_iff hac hbc hs hgap h128]
          exact (and_iff_right (fun h => h128 h.2)).symm

/-- **When addition and subtraction round correctly**: exactly when the bits the
code clears from the exact sum are less than half a unit in the last place. -/
theorem dfpAdd_dfpSub_correct_iff {a b : Dfp} (ha : a.Canonical) (hb : b.Canonical) :
    (SumCorrect (dfpAdd a b).val (a.value + b.value) ↔ AddFaithful a b) ∧
      (SumCorrect (dfpSub a b).val (a.value - b.value) ↔ AddFaithful a b.flip) := by
  refine ⟨dfpAdd_correct_iff ha hb, ?_⟩
  have h := dfpAdd_correct_iff ha (Dfp.flip_canonical hb)
  rwa [Dfp.flip_value, ← sub_eq_add_neg] at h

/-- One plus one, one minus one. -/
theorem dfpAdd_dfpSub_correct_iff_one :
    (SumCorrect (dfpAdd ⟨1, 0, .normal, false⟩ ⟨1, 0, .normal, false⟩).val
        (Dfp.value ⟨1, 0, .normal, false⟩ + Dfp.value ⟨1, 0, .normal, false⟩) ↔
      AddFaithful ⟨1, 0, .normal, false⟩ ⟨1, 0, .normal, false⟩) ∧
    (SumCorrect (dfpSub ⟨1, 0, .normal, false⟩ ⟨1, 0, .normal, false⟩).val
        (Dfp.value ⟨1, 0, .normal, false⟩ - Dfp.value ⟨1, 0, .normal, false⟩) ↔
      AddFaithful ⟨1, 0, .normal, false⟩ (Dfp.flip ⟨1, 0, .normal, false⟩)) :=
  dfpAdd_dfpSub_correct_iff (by decide) (by decide)

/-- `2 + 1` comes out as `2`: the odd unit lies below the exponent of `2 = 1 * 2^1`. -/
theorem two_add_one_eq_two :
    ¬ ∀ a b : Dfp, a.Canonical → b.Canonical → SumCorrect (dfpAdd a b).val (a.value + b.value) := by
  intro h
  have hcode : (dfpAdd ⟨1, 1, .normal, false⟩ ⟨1, 0, .normal, false⟩).val
      = ⟨1, 1, .normal, false⟩ := by decide
  have hrep : Representable (Dfp.value ⟨1, 1, .normal, false⟩ + Dfp.value ⟨1, 0, .normal, false⟩) :=
    Or.inr ⟨3, 0, by decide, by decide, by decide, by decide, by norm_num [Dfp.value]⟩
  have hval := (h ⟨1, 1, .normal, false⟩ ⟨1, 0, .normal, false⟩ (by decide) (by decide)).2.1 hrep
  rw [hcode] at hval
  norm_num [Dfp.value] at hval

end CipherOcto.Determin
