import CipherOcto.Determin.AddRounding
import CipherOcto.Determin.ScaledOps

/-!
# The square root: what the bit loop finds

`dfp_sqrt` of a positive Normal scales the radicand `m` (the mantissa, doubled
at an odd exponent) by `2^226`, searches its root bit by bit from bit 225, and
keeps the bits from 113 up. The search decides each of these by an exact
comparison (`u256SqLeU384_iff`: the low half of the squaring loses no carry on a
candidate whose low 64 bits are clear), so

> `rootBits_eq`: what is kept is `Nat.sqrt m`.

The root of `m * 2^226` has its leading bit at 169 at most, not at 225: keeping
the bits from 113 up throws away all but 57. The result is the integer root of
the mantissa at half the exponent, exact on squares, never too large, and as
accurate as its 113 bits promise exactly when `RootResolves m`.
-/

namespace CipherOcto.Determin

open Machine
open Rounding (ulpExp ulpExp_dyadic odd_dyadic_inj two_zpow_pos)

/-! ## The comparison -/

theorem not_lostCarry_of_low {a b : Nat} (hb : b % 2 ^ 64 = 0) : ¬ LostCarry a b := by
  unfold LostCarry
  rw [hb]
  have hmod := Nat.mod_lt (a / 2 ^ 64 * 0 + a % 2 ^ 64 * (b / 2 ^ 64)) (Nat.two_pow_pos 64)
  omega

theorem not_lostCarry_of_high {a b : Nat} (ha : a < 2 ^ 64) (hb : b < 2 ^ 64) :
    ¬ LostCarry a b := by
  have hprod := mul_u64_le ha hb
  unfold LostCarry
  rw [Nat.div_eq_of_lt ha, Nat.div_eq_of_lt hb, Nat.mod_eq_of_lt ha, Nat.mod_eq_of_lt hb]
  omega

theorem mulU128ToU256_exact {a b : Nat} (ha : a < 2 ^ 128) (hb : b < 2 ^ 128)
    (h : ¬ LostCarry a b) : (mulU128ToU256 a b).hi * 2 ^ 128 + (mulU128ToU256 a b).lo = a * b := by
  have heq := mulU128ToU256_toNat ha hb
  rwa [if_neg h, Nat.add_zero] at heq

theorem overflowingAdd_eq {a b : Nat} (ha : a < 2 ^ 128) (hb : b < 2 ^ 128) :
    overflowingAdd a b = ((a + b) % 2 ^ 128, (a + b) / 2 ^ 128) := by
  unfold overflowingAdd wrappingAdd
  split
  · rw [show (a + b) / 2 ^ 128 = 1 by omega]
  · rw [show (a + b) / 2 ^ 128 = 0 by omega]

theorem mulU128ToU256_toNat_le {a b : Nat} (ha : a < 2 ^ 128) (hb : b < 2 ^ 128) :
    (mulU128ToU256 a b).toNat ≤ a * b := by
  have heq := mulU128ToU256_toNat ha hb
  omega

/-- The square that the comparison adds up from its three products. -/
def storedSquare (c : U256) : Nat :=
  (mulU128ToU256 c.hi c.hi).toNat * 2 ^ 256 + 2 * (mulU128ToU256 c.hi c.lo).toNat * 2 ^ 128 +
    (mulU128ToU256 c.lo c.lo).toNat

/-- Of a candidate of 226 bits the comparison loses nothing but what the products lose. -/
theorem u256SqLeU384_stored_iff {c : U256} {top mid : Nat} (hhi : c.hi < 2 ^ 98)
    (hlo : c.lo < 2 ^ 128) (htop : top < 2 ^ 128) (hmid : mid < 2 ^ 128) :
    u256SqLeU384 c.hi c.lo top mid = true ↔ storedSquare c ≤ top * 2 ^ 256 + mid * 2 ^ 128 := by
  have hcross := mulU128ToU256_toNat_le (a := c.hi) (by omega) hlo
  have hhiSq := mulU128ToU256_toNat_le (a := c.hi) (b := c.hi) (by omega) (by omega)
  obtain ⟨hlh, hll⟩ := mulU128ToU256_fits c.lo c.lo
  obtain ⟨hxh, hxl⟩ := mulU128ToU256_fits c.hi c.lo
  obtain ⟨hhh, hhl⟩ := mulU128ToU256_fits c.hi c.hi
  have hcrossLt : c.hi * c.lo < 2 ^ 98 * 2 ^ 128 := Nat.mul_lt_mul'' hhi hlo
  have hsqLt : c.hi * c.hi < 2 ^ 98 * 2 ^ 98 := Nat.mul_lt_mul'' hhi hhi
  unfold storedSquare
  unfold u256SqLeU384
  generalize mulU128ToU256 c.lo c.lo = loSq at *
  generalize mulU128ToU256 c.hi c.lo = cross at *
  generalize mulU128ToU256 c.hi c.hi = hiSq at *
  unfold U256.toNat at *
  have hcrossHi : cross.hi < 2 ^ 98 := by omega
  have hsqHi : hiSq.hi < 2 ^ 98 := by omega
  clear hcross hhiSq hcrossLt hsqLt
  -- the doubled cross product has its carry bit clear
  have hd2 : cross.hi * 2 % 2 ^ 128 ||| cross.lo / 2 ^ 127 = cross.hi * 2 + cross.lo / 2 ^ 127 := by
    rw [Nat.mod_eq_of_lt (by omega)]
    exact U256.or_eq_add (n := 1) (by omega)
  have hd3 : cross.hi / 2 ^ 127 = 0 := by omega
  dsimp only
  rw [hd2, hd3, overflowingAdd_eq hlh (by omega), overflowingAdd_eq (by omega) hhl]
  dsimp only
  rw [overflowingAdd_eq (by omega) (by omega)]
  dsimp only
  rw [overflowingAdd_eq (by omega) (by omega)]
  dsimp only
  unfold wrappingAdd
  split
  · simp only [Bool.false_eq_true, false_iff]
    omega
  split
  · simp only [true_iff]
    omega
  split
  · simp only [Bool.false_eq_true, false_iff]
    omega
  split
  · simp only [true_iff]
    omega
  split
  · simp only [Bool.false_eq_true, false_iff]
    omega
  · rw [beq_iff_eq]
    omega

/-- What the product stores too little. -/
def shortfall (a b : Nat) : Nat := if LostCarry a b then 2 ^ 128 else 0

/-- What the three products of a square store too little. -/
def squareShortfall (c : U256) : Nat :=
  shortfall c.hi c.hi * 2 ^ 256 + 2 * shortfall c.hi c.lo * 2 ^ 128 + shortfall c.lo c.lo

theorem storedSquare_add_shortfall {c : U256} (hhi : c.hi < 2 ^ 128) (hlo : c.lo < 2 ^ 128) :
    storedSquare c + squareShortfall c = c.toNat * c.toNat := by
  have hhiSq : _ + shortfall c.hi c.hi = _ := mulU128ToU256_toNat hhi hhi
  have hcross : _ + shortfall c.hi c.lo = _ := mulU128ToU256_toNat hhi hlo
  have hloSq : _ + shortfall c.lo c.lo = _ := mulU128ToU256_toNat hlo hlo
  calc storedSquare c + squareShortfall c
      = ((mulU128ToU256 c.hi c.hi).toNat + shortfall c.hi c.hi) * 2 ^ 256
        + 2 * ((mulU128ToU256 c.hi c.lo).toNat + shortfall c.hi c.lo) * 2 ^ 128
        + ((mulU128ToU256 c.lo c.lo).toNat + shortfall c.lo c.lo) := by
        unfold storedSquare squareShortfall
        ring
    _ = c.hi * c.hi * 2 ^ 256 + 2 * (c.hi * c.lo) * 2 ^ 128 + c.lo * c.lo := by
        rw [hhiSq, hcross, hloSq]
    _ = c.toNat * c.toNat := by
        unfold U256.toNat
        ring

/-- The comparison is exact on candidates whose low half has its low 64 bits
clear and whose high half squares without a lost carry. -/
theorem u256SqLeU384_iff {c : U256} {top mid : Nat} (hhi : c.hi < 2 ^ 98) (hlo : c.lo < 2 ^ 128)
    (hlow : c.lo % 2 ^ 64 = 0) (hhigh : ¬ LostCarry c.hi c.hi) (htop : top < 2 ^ 128)
    (hmid : mid < 2 ^ 128) :
    u256SqLeU384 c.hi c.lo top mid = true ↔
      c.toNat * c.toNat ≤ top * 2 ^ 256 + mid * 2 ^ 128 := by
  have hsquare : storedSquare c + squareShortfall c = _ :=
    storedSquare_add_shortfall (by omega) hlo
  have hnone : squareShortfall c = 0 := by
    unfold squareShortfall shortfall
    rw [if_neg hhigh, if_neg (not_lostCarry_of_low hlow), if_neg (not_lostCarry_of_low hlow),
      Nat.zero_mul, Nat.mul_zero, Nat.zero_mul]
  rw [hnone, Nat.add_zero] at hsquare
  rw [u256SqLeU384_stored_iff hhi hlo htop hmid, hsquare]

/-! ## The loop -/

theorem or_two_pow {x n : Nat} (h : 2 ^ (n + 1) ∣ x) : x ||| 2 ^ n = x + 2 ^ n := by
  obtain ⟨k, rfl⟩ := h
  rw [mul_comm, U256.or_eq_add (Nat.pow_lt_pow_right Nat.one_lt_two (by omega))]

/-- Setting a bit below which nothing is set yet adds it. -/
theorem setBitU256_toNat {r : U256} {bit : Nat} (hbit : bit < 226) (hlo : r.lo < 2 ^ 128)
    (h : 2 ^ (bit + 1) ∣ r.toNat) : (setBitU256 r.hi r.lo bit).val.toNat = r.toNat + 2 ^ bit := by
  unfold setBitU256
  split
  · next hge =>
    obtain ⟨k, rfl⟩ : ∃ k, bit = 128 + k := ⟨bit - 128, by omega⟩
    have hsplit : 2 ^ (128 + k + 1) = 2 ^ (k + 1) * 2 ^ 128 := by
      rw [← pow_add]
      congr 1
      omega
    rw [hsplit] at h
    have hlo0 : r.lo = 0 := by
      have hdvd : 2 ^ 128 ∣ r.toNat := (Nat.dvd_mul_left _ _).trans h
      unfold U256.toNat at hdvd
      omega
    have hdvd : 2 ^ (k + 1) ∣ r.hi := by
      simp only [U256.toNat, hlo0, add_zero] at h
      exact Nat.dvd_of_mul_dvd_mul_right (Nat.two_pow_pos 128) h
    have hone : 2 ^ k < 2 ^ 128 := Nat.pow_lt_pow_right Nat.one_lt_two (by omega)
    rw [Nat.add_sub_cancel_left, shlU_of_lt (by omega) (by rwa [Nat.one_mul]), pure_bind,
      Tracked.val_pure, Nat.one_mul, or_two_pow hdvd]
    simp only [U256.toNat]
    rw [Nat.add_mul, pow_add, mul_comm (2 ^ 128) (2 ^ k)]
    omega
  · next hlt =>
    have hdvd : 2 ^ (bit + 1) ∣ r.lo := by
      have hhi : 2 ^ (bit + 1) ∣ r.hi * 2 ^ 128 :=
        (Nat.pow_dvd_pow 2 (by omega)).trans (Nat.dvd_mul_left _ _)
      exact (Nat.dvd_add_right hhi).mp h
    have hone : 2 ^ bit < 2 ^ 128 := Nat.pow_lt_pow_right Nat.one_lt_two (by omega)
    rw [shlU_of_lt (by omega) (by rwa [Nat.one_mul]), pure_bind, Tracked.val_pure, Nat.one_mul,
      or_two_pow hdvd]
    simp only [U256.toNat]
    omega

/-- Down to bit `bit`, the loop has the leading bits `t` of the root of `S`. -/
structure RootInv (S bit : Nat) (r : U256) : Prop where
  hi : r.hi < 2 ^ 98
  lo : r.lo < 2 ^ 128
  cut : ∃ t, r.toNat = t * 2 ^ bit ∧ t * 2 ^ bit * (t * 2 ^ bit) ≤ S ∧
    S < (t + 1) * 2 ^ bit * ((t + 1) * 2 ^ bit)

/-- Until a bit is set the candidate is a power of two; from then on it is below `2^171`. -/
theorem candidate_not_lostCarry {c : U256} {t bit : Nat} (hlo : c.lo < 2 ^ 128)
    (hc : c.toNat = t * 2 ^ (bit + 1) + 2 ^ bit)
    (hsq : t * 2 ^ (bit + 1) * (t * 2 ^ (bit + 1)) < 2 ^ 340) : ¬ LostCarry c.hi c.hi := by
  have hhi : c.hi = c.toNat / 2 ^ 128 := by
    unfold U256.toNat
    omega
  rcases Nat.eq_zero_or_pos t with rfl | ht
  · rw [Nat.zero_mul, Nat.zero_add] at hc
    rw [hc] at hhi
    rcases Nat.lt_or_ge bit 192 with hlt | hge
    · have hpow : 2 ^ bit < 2 ^ 192 := Nat.pow_lt_pow_right Nat.one_lt_two hlt
      have hsmall : c.hi < 2 ^ 64 := by omega
      exact not_lostCarry_of_high hsmall hsmall
    · have hdvd : 2 ^ 192 ∣ 2 ^ bit := Nat.pow_dvd_pow 2 hge
      exact not_lostCarry_of_low (by omega)
  · have hlt : t * 2 ^ (bit + 1) < 2 ^ 170 := by
      by_contra hge
      have := Nat.mul_le_mul (not_lt.mp hge) (not_lt.mp hge)
      omega
    have hone : 2 ^ (bit + 1) ≤ t * 2 ^ (bit + 1) := Nat.le_mul_of_pos_left _ ht
    rw [pow_succ] at hone hlt hc
    have hsmall : c.hi < 2 ^ 64 := by omega
    exact not_lostCarry_of_high hsmall hsmall

/-- The two limbs the loop compares with are the scaled radicand. -/
theorem scaled_limbs (m : Nat) :
    m / 2 ^ 30 * 2 ^ 256 + m * 2 ^ 98 % 2 ^ 128 * 2 ^ 128 = m * 2 ^ 226 := by
  omega

/-- One round down to a bit the result keeps. -/
theorem rootInv_step {m bit : Nat} {r : U256} (hm : m < 2 ^ 114) (hbit : 113 ≤ bit)
    (hbit' : bit < 226) (h : RootInv (m * 2 ^ 226) (bit + 1) r) :
    RootInv (m * 2 ^ 226) bit
      (if u256SqLeU384 (setBitU256 r.hi r.lo bit).val.hi (setBitU256 r.hi r.lo bit).val.lo
          (m / 2 ^ 30) (m * 2 ^ 98 % 2 ^ 128)
        then (setBitU256 r.hi r.lo bit).val else r) := by
  obtain ⟨t, ht, hle, hlt⟩ := h.cut
  obtain ⟨hchi, hclo⟩ := setBitU256_val_lt h.hi h.lo hbit'
  have hc := setBitU256_toNat hbit' h.lo (Dvd.intro_left t ht.symm)
  rw [ht] at hc
  generalize (setBitU256 r.hi r.lo bit).val = c at *
  have hc' : c.toNat = (2 * t + 1) * 2 ^ bit := by
    rw [hc, pow_succ]
    ring
  have hlow : c.lo % 2 ^ 64 = 0 := by
    have hdvd : 2 ^ 64 ∣ c.toNat :=
      hc' ▸ (Nat.pow_dvd_pow 2 (by omega)).trans (Nat.dvd_mul_left _ _)
    unfold U256.toNat at hdvd
    omega
  have hhigh := candidate_not_lostCarry hclo hc (lt_of_le_of_lt hle (by omega))
  have htest := u256SqLeU384_iff hchi hclo hlow hhigh (show m / 2 ^ 30 < 2 ^ 128 by omega)
    (show m * 2 ^ 98 % 2 ^ 128 < 2 ^ 128 by omega)
  rw [scaled_limbs, hc'] at htest
  have hdouble : t * 2 ^ (bit + 1) = 2 * t * 2 ^ bit := by
    rw [pow_succ]
    ring
  have hnext : (t + 1) * 2 ^ (bit + 1) = (2 * t + 1 + 1) * 2 ^ bit := by
    rw [pow_succ]
    ring
  rw [hdouble] at ht hle
  rw [hnext] at hlt
  split
  · next hyes => exact ⟨hchi, hclo, 2 * t + 1, hc', htest.mp hyes, hlt⟩
  · next hno => exact ⟨h.hi, h.lo, 2 * t, ht, hle, not_le.mp (fun hle' => hno (htest.mpr hle'))⟩

/-- The bits the result drops do not reach the ones it keeps, whatever their tests answer. -/
theorem sqrtLoop_low (top mid : Nat) :
    ∀ (bit : Nat) (r : U256), bit ≤ 113 → r.hi < 2 ^ 98 → r.lo < 2 ^ 128 →
      (sqrtLoop top mid bit r).val.toNat / 2 ^ 113 = r.toNat / 2 ^ 113 := by
  intro bit
  induction bit with
  | zero => intro r _ _ _; rfl
  | succ bit ih =>
    intro r hbit hhi hlo
    have hc := setBitU256_val_lt hhi hlo (show bit < 226 by omega)
    have hkept : (setBitU256 r.hi r.lo bit).val.toNat / 2 ^ 113 = r.toNat / 2 ^ 113 := by
      have hone : 2 ^ bit < 2 ^ 113 := Nat.pow_lt_pow_right Nat.one_lt_two (by omega)
      have hor : (r.lo ||| 2 ^ bit) / 2 ^ 113 = r.lo / 2 ^ 113 := by
        rw [Nat.or_div_two_pow, Nat.div_eq_of_lt hone, Nat.or_zero]
      unfold setBitU256
      rw [if_neg (by omega), shlU_of_lt (by omega) (by omega), pure_bind, Tracked.val_pure,
        Nat.one_mul]
      simp only [U256.toNat]
      omega
    unfold sqrtLoop
    rw [Tracked.val_bind]
    split
    · rw [ih _ (by omega) hc.1 hc.2, hkept]
    · exact ih _ (by omega) hhi hlo

theorem sqrtLoop_high {m : Nat} (hm : m < 2 ^ 114) :
    ∀ (n : Nat) (r : U256), n ≤ 113 → RootInv (m * 2 ^ 226) (113 + n) r →
      (sqrtLoop (m / 2 ^ 30) (m * 2 ^ 98 % 2 ^ 128) (113 + n) r).val.toNat / 2 ^ 113
        = Nat.sqrt m := by
  intro n
  induction n with
  | zero =>
    intro r _ h
    obtain ⟨t, ht, hle, hlt⟩ := h.cut
    have hsq : ∀ x : Nat, x * 2 ^ 113 * (x * 2 ^ 113) = x * x * 2 ^ 226 := by
      intro x
      ring
    rw [Nat.add_zero, hsq] at hle hlt
    rw [Nat.add_zero, sqrtLoop_low _ _ 113 r le_rfl h.hi h.lo, ht, Nat.add_zero,
      Nat.mul_div_cancel _ (Nat.two_pow_pos 113), Nat.eq_sqrt]
    exact ⟨Nat.le_of_mul_le_mul_right hle (Nat.two_pow_pos 226), Nat.lt_of_mul_lt_mul_right hlt⟩
  | succ n ih =>
    intro r hn h
    show (sqrtLoop _ _ (113 + n + 1) r).val.toNat / 2 ^ 113 = _
    unfold sqrtLoop
    rw [Tracked.val_bind]
    exact ih _ (by omega) (rootInv_step hm (by omega) (by omega) h)

/-- **The kept bits** are the integer root of the radicand. -/
theorem rootBits_eq {m : Nat} (hm : m < 2 ^ 114) : rootBits m = Nat.sqrt m := by
  refine sqrtLoop_high hm 113 ⟨0, 0⟩ le_rfl ⟨by decide, by decide, 0, rfl, by omega, ?_⟩
  have hone : (0 + 1) * 2 ^ (113 + 113) * ((0 + 1) * 2 ^ (113 + 113)) = 2 ^ 226 * 2 ^ 226 := by
    norm_num
  rw [hone]
  exact Nat.mul_lt_mul_of_pos_right (by omega) (Nat.two_pow_pos 226)

/-! ## The root against the operand -/

/-- The mantissa under the root: doubled at an odd exponent. -/
def radicand (a : Dfp) : Nat := if a.exponent % 2 ≠ 0 then 2 * a.mantissa else a.mantissa

/-- `m` lies so little above a square that the root of that square is within one
unit of the 113th place of the root of `m`. -/
def RootResolves (m : Nat) : Prop :=
  ∃ s, s * s ≤ m ∧ (m - s * s) * 2 ^ (113 - bitLen s) ≤ 2 * s

/-- The square root as documented: not above the exact root, less than one unit
of the 113th place below it, and exact on the squares of canonical values. -/
def SqrtCorrect (a : Dfp) : Prop :=
  (dfpSqrt a).ovf = false ∧ (dfpSqrt a).val.value ^ 2 ≤ a.value ∧
    a.value < ((dfpSqrt a).val.value + 2 ^ ulpExp 113 (dfpSqrt a).val.value) ^ 2 ∧
    ∀ s : Dfp, s.Canonical → a.value = s.value ^ 2 → (dfpSqrt a).val.value = |s.value|

/-- No other square will do: the next one below is already too far. -/
theorem rootResolves_iff (m : Nat) :
    RootResolves m ↔ (m - m.sqrt * m.sqrt) * 2 ^ (113 - bitLen m.sqrt) ≤ 2 * m.sqrt := by
  constructor
  · intro h
    obtain ⟨s, hle, hnear⟩ := h
    have hlt : m < (s + 1) * (s + 1) := by
      have hone : m - s * s ≤ (m - s * s) * 2 ^ (113 - bitLen s) :=
        Nat.le_mul_of_pos_right _ (Nat.two_pow_pos _)
      have hexp : (s + 1) * (s + 1) = s * s + 2 * s + 1 := by ring
      omega
    rwa [← Nat.eq_sqrt.mpr ⟨hle, hlt⟩]
  · exact fun h => ⟨m.sqrt, Nat.sqrt_le m, h⟩

theorem radicand_bounds {a : Dfp} (ha : a.CanonicalNormal) :
    radicand a ≠ 0 ∧ radicand a < 2 ^ 114 := by
  have hodd := ha.odd
  have hlt := ha.lt
  unfold radicand
  split <;> omega

theorem next_place_iff (n t : Nat) {w : Nat} (hw : 0 < w) :
    (n * n + t) * (w * w) < (n * w + 1) ^ 2 ↔ t * w ≤ 2 * n := by
  have hleft : (n * n + t) * (w * w) = n * w * (n * w) + t * w * w := by ring
  have hright : (n * w + 1) ^ 2 = n * w * (n * w) + 2 * n * w + 1 := by ring
  rw [hleft, hright, Nat.lt_succ_iff, Nat.add_le_add_iff_left, Nat.mul_le_mul_right_iff hw]

section
variable {a : Dfp} (ha : a.CanonicalNormal) (hs : a.sign = false)
include ha hs

theorem value_eq_radicand : a.value = radicand a * (2 ^ (a.exponent / 2)) ^ 2 := by
  have hsq : ((2 : ℚ) ^ (a.exponent / 2)) ^ 2 = 2 ^ (2 * (a.exponent / 2)) := by
    rw [← zpow_natCast, ← zpow_mul, mul_comm]
    rfl
  rw [Dfp.value_pos_normal ha.cls hs, hsq]
  unfold radicand
  split
  · have hodd : a.exponent = 2 * (a.exponent / 2) + 1 := by omega
    nth_rewrite 1 [hodd]
    rw [zpow_add₀ (by norm_num), zpow_one]
    push_cast
    ring
  · have heven : a.exponent = 2 * (a.exponent / 2) := by omega
    nth_rewrite 1 [heven]
    rfl

/-- **The square root** of a positive canonical Normal: the integer root of the
radicand at half the exponent. -/
theorem dfpSqrt_normal : (dfpSqrt a).ovf = false ∧
    (dfpSqrt a).val.value = (radicand a).sqrt * 2 ^ (a.exponent / 2) := by
  have hlt := ha.lt
  have hge := ha.exp_ge
  have hle := ha.exp_le
  unfold dfpMinExponent at hge
  unfold dfpMaxExponent at hle
  obtain ⟨hm0, hm⟩ := radicand_bounds ha
  have hadj : (if a.exponent % 2 ≠ 0 then shlU 128 a.mantissa 1 else pure a.mantissa)
      = pure (radicand a) := by
    unfold radicand
    split
    · rw [shlU_of_lt (by decide) (by omega), pow_one, mul_comm]
    · rfl
  obtain ⟨hn, heq⟩ := sqrtNormal_of_radicand ha.wellTyped hadj
  have hdef : dfpSqrt a = sqrtNormal a := by
    unfold dfpSqrt
    rw [ha.cls, hs]
    rfl
  rw [rootBits_eq hm] at hn heq
  have hne : (radicand a).sqrt ≠ 0 := (Nat.sqrt_pos.mpr (Nat.pos_of_ne_zero hm0)).ne'
  rw [hdef, heq, if_neg hne]
  refine ⟨rfl, ?_⟩
  have hctz : ctz 128 (radicand a).sqrt < 128 := ctz_lt hne (by omega)
  rw [Tracked.val_pure, saturate_of_inI (by simp only [InI, minI, maxI]; omega),
    ← assemble_value_of_le hne (show a.exponent / 2 + ctz 128 (radicand a).sqrt ≤ 1023 by omega)]
  unfold assemble
  rw [if_neg hne, if_neg (by unfold dfpMaxExponent; omega)]

theorem dfpSqrt_sq_le : (dfpSqrt a).val.value ^ 2 ≤ a.value := by
  rw [(dfpSqrt_normal ha hs).2, value_eq_radicand ha hs, mul_pow]
  have hle : ((radicand a).sqrt : ℚ) ^ 2 ≤ radicand a := by
    exact_mod_cast Nat.sqrt_le' (radicand a)
  exact mul_le_mul_of_nonneg_right hle (sq_nonneg _)

/-- On the square of a canonical value the root is that value. -/
theorem dfpSqrt_of_square {s : Dfp} (hsc : s.Canonical) (h : a.value = s.value ^ 2) :
    (dfpSqrt a).val.value = |s.value| := by
  have hpos : 0 < a.value := by
    rw [Dfp.value_pos_normal ha.cls hs]
    exact Dfp.magnitude_pos ha.odd
  rcases (Dfp.canonical_iff s).mp hsc with hz | hn
  · rw [h, Dfp.value_zero hz] at hpos
    exact absurd hpos (by norm_num)
  have hmag : |s.value| = s.mantissa * 2 ^ s.exponent := by
    have hsp := Dfp.magnitude_pos hn.odd (a := s)
    rw [value_of_normal hn.cls]
    split
    · rw [abs_neg, abs_of_pos hsp]
    · rw [abs_of_pos hsp]
  have hsq : (a.mantissa : ℚ) * 2 ^ a.exponent
      = (s.mantissa * s.mantissa : ℕ) * 2 ^ (s.exponent + s.exponent) := by
    rw [← Dfp.value_pos_normal ha.cls hs, h, ← sq_abs, hmag, zpow_add₀ (by norm_num)]
    push_cast
    ring
  have hodd : s.mantissa * s.mantissa % 2 = 1 := by
    rw [Nat.mul_mod, hn.odd]
  obtain ⟨hm, he⟩ := odd_dyadic_inj ha.odd hodd hsq
  have hrad : radicand a = s.mantissa * s.mantissa := by
    unfold radicand
    rw [if_neg (by omega), hm]
  rw [(dfpSqrt_normal ha hs).2, hrad, Nat.sqrt_eq, hmag, show a.exponent / 2 = s.exponent by omega]

/-- One unit of the 113th place above the root squares past the operand exactly
when the radicand resolves. -/
theorem lt_dfpSqrt_sq_iff :
    a.value < ((dfpSqrt a).val.value + 2 ^ ulpExp 113 (dfpSqrt a).val.value) ^ 2 ↔
      RootResolves (radicand a) := by
  obtain ⟨hm0, hm⟩ := radicand_bounds ha
  have hne : (radicand a).sqrt ≠ 0 := (Nat.sqrt_pos.mpr (Nat.pos_of_ne_zero hm0)).ne'
  have hlen : bitLen (radicand a).sqrt ≤ 57 := by
    rw [bitLen_le_iff, Nat.sqrt_lt]
    omega
  have hulp : (2 : ℚ) ^ ulpExp 113 ((radicand a).sqrt * 2 ^ (a.exponent / 2))
      = 2 ^ (a.exponent / 2) / 2 ^ (113 - bitLen (radicand a).sqrt) := by
    rw [ulpExp_dyadic 113 _ hne, show ((bitLen (radicand a).sqrt : ℤ) - (113 : ℕ)
      + a.exponent / 2) = a.exponent / 2 - ((113 - bitLen (radicand a).sqrt : ℕ) : ℤ) by omega,
      zpow_sub₀ (by norm_num), zpow_natCast]
  rw [rootResolves_iff, (dfpSqrt_normal ha hs).2, hulp, value_eq_radicand ha hs]
  obtain ⟨t, ht⟩ := Nat.exists_eq_add_of_le (Nat.sqrt_le (radicand a))
  rw [show radicand a - (radicand a).sqrt * (radicand a).sqrt = t by omega]
  generalize (radicand a).sqrt = n at *
  generalize 113 - bitLen n = k
  have hq := two_zpow_pos (a.exponent / 2)
  generalize (2 : ℚ) ^ (a.exponent / 2) = q at *
  have hk : (0 : ℚ) < 2 ^ k := by positivity
  rw [ht, show (n * q + q / 2 ^ k : ℚ) = (n + 1 / 2 ^ k) * q by ring, mul_pow,
    mul_lt_mul_iff_left₀ (by positivity), ← mul_lt_mul_iff_left₀ (show (0 : ℚ) < 2 ^ k * 2 ^ k by
      positivity)]
  have hexp : ((n : ℚ) + 1 / 2 ^ k) ^ 2 * (2 ^ k * 2 ^ k) = (n * 2 ^ k + 1) ^ 2 := by
    field_simp
  rw [hexp, ← next_place_iff n t (Nat.two_pow_pos k), ← Nat.cast_lt (α := ℚ)]
  push_cast
  rfl

end

/-- **When the root carries 113 bits**: exactly when its radicand resolves. -/
theorem dfpSqrt_correct_iff {a : Dfp} (ha : a.CanonicalNormal) (hs : a.sign = false) :
    SqrtCorrect a ↔ RootResolves (radicand a) := by
  constructor
  · intro h
    exact (lt_dfpSqrt_sq_iff ha hs).mp h.2.2.1
  · intro h
    exact ⟨(dfpSqrt_normal ha hs).1, dfpSqrt_sq_le ha hs, (lt_dfpSqrt_sq_iff ha hs).mpr h,
      fun _ hsc hsq => dfpSqrt_of_square ha hs hsc hsq⟩

/-- Nine is a square. -/
theorem dfpSqrt_correct_nine : SqrtCorrect ⟨9, 0, .normal, false⟩ :=
  (dfpSqrt_correct_iff ⟨rfl, by decide, by decide, by decide, by decide⟩ rfl).mpr
    ⟨3, by decide, by decide⟩

/-- The root of two comes out as one. -/
theorem sqrt_two_eq_one :
    ¬ ∀ a : Dfp, a.CanonicalNormal → a.sign = false → SqrtCorrect a := by
  intro h
  have htwo : Dfp.CanonicalNormal ⟨1, 1, .normal, false⟩ :=
    ⟨rfl, by decide, by decide, by decide, by decide⟩
  obtain ⟨s, hle, hnear⟩ := (lt_dfpSqrt_sq_iff htwo rfl).mp (h _ htwo rfl).2.2.1
  have hs : s < 2 := by
    by_contra hge
    have := Nat.mul_le_mul (not_lt.mp hge) (not_lt.mp hge)
    exact absurd (this.trans hle) (by decide)
  interval_cases s
  · exact absurd hnear (by decide)
  · exact absurd hnear (by decide)

end CipherOcto.Determin
