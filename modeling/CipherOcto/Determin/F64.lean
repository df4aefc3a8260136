import CipherOcto.Determin.Overflow
import CipherOcto.Determin.AddRounding
import CipherOcto.Lib.Binary64

/-!
# `from_f64` and `to_f64`

Both conversions work on the raw bits. `fromF64` splits a pattern into its
fields and normalises; `toF64` packs `mantissa * 2^exponent` again, in three
ranges. In the normal range the packed pattern, before the rounding increment,
is the largest one whose value does not exceed the operand
(`toF64_normal`, `packed_bounds`), and the increment is what rounding to
nearest even asks for, carry into the next binade included:

> `toF64_nearest`: between two neighbouring finite values `toF64` returns the
> nearer one, the even one half-way.

Below the normal range the mantissa must move up by its exponent's distance
from `-1074`; the code moves it up by the leading bit's distance instead. The
two agree only if the odd mantissa is `1`:

> `fromF64_toF64_iff`: a pattern other than a NaN survives the round trip unless
> it is a `MissedSubnormal`.
-/

namespace CipherOcto.Determin

open Machine
open Binary64 (exponentField fractionField IsNan IsFinite magnitude Adjacent nearestEven)
open Rounding (two_zpow_pos)

namespace Dfp

def infinity : Dfp := ⟨0, 0, .infinity, false⟩
def negInfinity : Dfp := ⟨0, 0, .infinity, true⟩

/-- `Dfp::from_f64`, on `val.to_bits()`. -/
def fromF64 (bits : Nat) : Tracked Dfp :=
  let sign := decide (bits / 2 ^ 63 ≠ 0)
  let exp : Nat := bits / 2 ^ 52 &&& 0x7FF
  let mantissa : Nat := bits &&& 0xFFFFFFFFFFFFF
  if exp = 0x7FF then
    if mantissa ≠ 0 then pure nan
    else if sign then pure negInfinity else pure infinity
  else if exp = 0 then
    if mantissa = 0 then
      if sign then pure negZero else pure zero
    else normalize ⟨mantissa, -1074, .normal, sign⟩
  else do
    let exponent ← subI 32 (exp : Int) 1075
    normalize ⟨mantissa ||| 2 ^ 52, exponent, .normal, sign⟩

end Dfp

/-- A subnormal pattern whose fraction is not a power of two. -/
def MissedSubnormal (p : Nat) : Prop :=
  exponentField p = 0 ∧ fractionField p ≠ 0 ∧ ∀ k, fractionField p ≠ 2 ^ k

/-! ## Packing -/

/-- The rounding increment at a shift by `s`: more than half a unit is dropped,
or half a unit above an odd mantissa. -/
def roundUp (m s : Nat) : Nat :=
  if 2 ^ s < 2 * (m % 2 ^ s) ∨ 2 ^ s = 2 * (m % 2 ^ s) ∧ m / 2 ^ s % 2 = 1 then 1 else 0

/-- The pattern, unrounded and without its sign, of a magnitude in the normal range. -/
def packed (m : Nat) (e : Int) : Nat :=
  ((bitLen m : Int) - 1 + e + 1023).toNat * 2 ^ 52
    + (m / 2 ^ (bitLen m - 53) * 2 ^ (53 - bitLen m) - 2 ^ 52)

/-- Brought to bit 52, the leading bit is the implicit one. -/
theorem kept_bounds {m : Nat} (hm : m ≠ 0) :
    2 ^ 52 ≤ m / 2 ^ (bitLen m - 53) * 2 ^ (53 - bitLen m) ∧
      m / 2 ^ (bitLen m - 53) * 2 ^ (53 - bitLen m) < 2 ^ 53 := by
  rcases le_total (bitLen m) 53 with h | h
  · have hlo := two_pow_pred_bitLen_le hm
    have hhi := lt_two_pow_bitLen m
    have hpos := bitLen_pos hm
    have hsplit : 2 ^ 53 = 2 ^ bitLen m * 2 ^ (53 - bitLen m) := by
      rw [← pow_add, show bitLen m + (53 - bitLen m) = 53 by omega]
    have hsplit' : 2 ^ 52 = 2 ^ (bitLen m - 1) * 2 ^ (53 - bitLen m) := by
      rw [← pow_add, show bitLen m - 1 + (53 - bitLen m) = 52 by omega]
    rw [show bitLen m - 53 = 0 by omega, pow_zero, Nat.div_one, hsplit, hsplit']
    exact ⟨Nat.mul_le_mul_right _ hlo, Nat.mul_lt_mul_of_pos_right hhi (Nat.two_pow_pos _)⟩
  · rw [show 53 - bitLen m = 0 by omega, pow_zero, Nat.mul_one, ← lt_bitLen_iff, ← bitLen_le_iff,
      bitLen_div_two_pow]
    omega

theorem roundUp_le (m s : Nat) : roundUp m s ≤ 1 := by
  unfold roundUp
  split <;> omega

/-- Nothing is dropped, nothing is rounded. -/
theorem roundUp_zero (m : Nat) : roundUp m 0 = 0 := by
  unfold roundUp
  rw [if_neg (by omega)]

/-- The round and sticky bits of the code are the comparison with half a unit. -/
theorem roundUp_succ (m s : Nat) : roundUp m (s + 1) =
    if m / 2 ^ s % 2 ≠ 0 ∧ (m % 2 ^ s ≠ 0 ∨ m / 2 ^ (s + 1) % 2 = 1) then 1 else 0 := by
  have hmod : m % 2 ^ (s + 1) = m % 2 ^ s + 2 ^ s * (m / 2 ^ s % 2) := Nat.mod_pow_succ
  have hlt := Nat.mod_lt m (Nat.two_pow_pos s)
  have hbit := Nat.mod_lt (m / 2 ^ s) Nat.two_pos
  unfold roundUp
  rw [hmod, pow_succ]
  generalize m / (2 ^ s * 2) % 2 = odd
  generalize m / 2 ^ s % 2 = bit at *
  generalize m % 2 ^ s = r at *
  generalize 2 ^ s = w at *
  congr 1
  interval_cases bit <;> simp <;> omega

theorem keepMask_and (n : Nat) : n &&& Dfp.keepMask = n % 2 ^ 52 :=
  Nat.and_two_pow_sub_one_eq_mod n 52

/-- The guarded probes below the kept bits decide the increment. -/
theorem keepTop53_probes {m s : Nat} (hs : s ≤ 75) (hhi : m / 2 ^ s < 2 ^ 53) :
    Dfp.keepTop53 m s = if roundUp m s = 1 then
        (do
          let r ← addU 64 (m / 2 ^ s) 1
          if 0x1fffffffffffff < r then pure (0, 1) else pure (r &&& Dfp.keepMask, 0))
      else pure (m / 2 ^ s &&& Dfp.keepMask, 0) := by
  have hkept : m / 2 ^ s % 2 ^ 64 = m / 2 ^ s := Nat.mod_eq_of_lt (by omega)
  unfold Dfp.keepTop53
  rw [shrU_of_lt (by omega), pure_bind, hkept]
  cases s with
  | zero => simp [roundUp_zero, Pure.pure, Bind.bind]
  | succ t =>
    have hmask : (if 2 ≤ t + 1 then do
        let one ← shlU 128 1 t
        subU 128 one 1
      else pure 0 : Tracked Nat) = pure (2 ^ t - 1) := by
      split
      · have hpow : 1 * 2 ^ t < 2 ^ 128 :=
          lt_of_eq_of_lt (Nat.one_mul _) (Nat.pow_lt_pow_right Nat.one_lt_two (by omega))
        rw [shlU_of_lt (by omega) hpow, pure_bind, Nat.one_mul,
          subU_of_le (Nat.two_pow_pos t) (by omega)]
      · rw [show t = 0 by omega]
        rfl
    rw [if_pos (by omega), Nat.add_sub_cancel, shrU_of_lt (by omega), pure_bind, hmask, pure_bind,
      Nat.and_two_pow_sub_one_eq_mod, roundUp_succ]
    split
    · rw [if_pos rfl]
    · rw [if_neg (by decide)]

/-- The kept bits without the leading one, their increment and its carry. -/
theorem keepTop53_eq {m s : Nat} (hs : s ≤ 75) (hlo : 2 ^ 52 ≤ m / 2 ^ s)
    (hhi : m / 2 ^ s < 2 ^ 53) :
    ∃ r, Dfp.keepTop53 m s = pure r ∧ r.1 < 2 ^ 52 ∧ r.2 ≤ 1 ∧
      r.2 * 2 ^ 52 + r.1 = m / 2 ^ s - 2 ^ 52 + roundUp m s := by
  have hup := roundUp_le m s
  rw [keepTop53_probes hs hhi]
  generalize m / 2 ^ s = top at *
  split
  · next h =>
    rw [h, addU_of_lt (by omega), pure_bind]
    split
    · next hcarry => exact ⟨(0, 1), rfl, by norm_num, le_rfl, by omega⟩
    · next hfits =>
      rw [keepMask_and]
      exact ⟨_, rfl, by omega, Nat.zero_le _, by omega⟩
  · next h =>
    rw [keepMask_and]
    exact ⟨_, rfl, by omega, Nat.zero_le _, by omega⟩

theorem signBit_eq (sign : Bool) : ∃ b, Dfp.signBit sign = b * 2 ^ 63 := by
  cases sign
  · exact ⟨0, rfl⟩
  · exact ⟨1, rfl⟩

/-- Sign, exponent field and fraction occupy disjoint bits. -/
theorem fields_or (sign : Bool) {fb f : Nat} (hfb : fb < 2 ^ 11) (hf : f < 2 ^ 52) :
    (Dfp.signBit sign ||| (fb * 2 ^ 52 % 2 ^ 64 &&& Dfp.expMask) ||| f)
      = Dfp.signBit sign + fb * 2 ^ 52 + f := by
  have hexp : fb * 2 ^ 52 % 2 ^ 64 &&& Dfp.expMask = fb * 2 ^ 52 := by
    rw [Nat.mod_eq_of_lt (by omega), ← Nat.shiftLeft_eq,
      show Dfp.expMask = (2 ^ 11 - 1) <<< 52 from rfl, ← Nat.shiftLeft_and_distrib,
      Nat.and_two_pow_sub_one_eq_mod, Nat.mod_eq_of_lt hfb]
  obtain ⟨b, hb⟩ := signBit_eq sign
  rw [hexp, hb, U256.or_eq_add (by omega),
    show b * 2 ^ 63 + fb * 2 ^ 52 = (b * 2 ^ 11 + fb) * 2 ^ 52 by ring, U256.or_eq_add hf]

/-- In the normal range the pattern is the packed one plus the increment. -/
theorem normalBits_eq {m : Nat} {e : Int} (hm0 : m ≠ 0) (hm : m < 2 ^ 128) (sign : Bool)
    (hlo : -1023 < (bitLen m : Int) - 1 + e) (hhi : (bitLen m : Int) - 1 + e < 1024) :
    Dfp.normalBits m ((bitLen m : Int) - 1) ((bitLen m : Int) - 1 + e + 1023) sign =
      pure (Dfp.signBit sign + (packed m e + roundUp m (bitLen m - 53))) := by
  have hlen : bitLen m ≤ 128 := bitLen_le_iff.mpr hm
  have hpos := bitLen_pos hm0
  have hround : ∃ r, (if 52 ≤ (bitLen m : Int) - 1
      then Dfp.keepTop53 m ((bitLen m : Int) - 1 - 52).toNat
      else do
        let m ← shlU 64 (m % 2 ^ 64) (52 - ((bitLen m : Int) - 1)).toNat
        pure (m &&& Dfp.keepMask, 0) : Tracked (Nat × Nat)) = pure r ∧ r.1 < 2 ^ 52 ∧ r.2 ≤ 1 ∧
      r.2 * 2 ^ 52 + r.1 = m / 2 ^ (bitLen m - 53) * 2 ^ (53 - bitLen m) - 2 ^ 52
        + roundUp m (bitLen m - 53) := by
    split
    · next hge =>
      have hs : ((bitLen m : Int) - 1 - 52).toNat = bitLen m - 53 := by omega
      rw [hs, show 53 - bitLen m = 0 by omega, pow_zero, Nat.mul_one]
      have hk := kept_bounds hm0
      rw [show 53 - bitLen m = 0 by omega, pow_zero, Nat.mul_one] at hk
      exact keepTop53_eq (by omega) hk.1 hk.2
    · next hlt =>
      have hk := kept_bounds hm0
      have hmlt : m < 2 ^ 52 := bitLen_le_iff.mp (by omega)
      rw [show bitLen m - 53 = 0 by omega, pow_zero, Nat.div_one] at hk ⊢
      rw [show (52 - ((bitLen m : Int) - 1)).toNat = 53 - bitLen m by omega,
        Nat.mod_eq_of_lt (by omega), shlU_of_lt (by omega) (by omega), pure_bind,
        keepMask_and, roundUp_zero]
      exact ⟨_, rfl, by omega, by omega, by omega⟩
  obtain ⟨r, hr, hr1, hr2, hsum⟩ := hround
  unfold Dfp.normalBits packed
  rw [hr, pure_bind, addU_of_lt (by omega), pure_bind, fields_or sign (by omega) hr1]
  refine congrArg pure ?_
  generalize ((bitLen m : Int) - 1 + e + 1023).toNat = biased
  generalize m / 2 ^ (bitLen m - 53) * 2 ^ (53 - bitLen m) - 2 ^ 52 = f at *
  generalize roundUp m (bitLen m - 53) = up at *
  rw [Nat.add_mul]
  omega

section
variable {d : Dfp} (hd : d.CanonicalNormal)
include hd

/-- `to_f64` of a canonical Normal, up to the three ranges. -/
theorem toF64_ranges : d.toF64 =
    if 1024 ≤ (bitLen d.mantissa : Int) - 1 + d.exponent then
      pure (Dfp.signBit d.sign ||| Dfp.expMask)
    else if -1023 < (bitLen d.mantissa : Int) - 1 + d.exponent then
      pure (Dfp.signBit d.sign
        + (packed d.mantissa d.exponent + roundUp d.mantissa (bitLen d.mantissa - 53)))
    else Dfp.subnormalBits d.mantissa ((bitLen d.mantissa : Int) - 1 + d.exponent) d.sign := by
  have hne : d.mantissa ≠ 0 := by
    have := hd.odd
    omega
  have hm := hd.wellTyped.1
  have hge := hd.exp_ge
  have hle := hd.exp_le
  unfold dfpMinExponent at hge
  unfold dfpMaxExponent at hle
  have hlen : bitLen d.mantissa ≤ 113 := bitLen_le_iff.mpr hd.lt
  have hpos := bitLen_pos hne
  have hmsb : 127 - (clz 128 d.mantissa : Int) = (bitLen d.mantissa : Int) - 1 := by
    unfold clz
    omega
  have hdef : d.toF64 = Dfp.u128ToF64Bits d.mantissa d.exponent d.sign := by
    unfold Dfp.toF64
    rw [hd.cls]
  rw [hdef]
  unfold Dfp.u128ToF64Bits
  rw [if_neg hne, hmsb, addI_of_inI (by simp only [InI, minI, maxI]; omega), pure_bind,
    addI_of_inI (by simp only [InI, minI, maxI]; omega), pure_bind]
  rcases le_or_gt 1024 ((bitLen d.mantissa : Int) - 1 + d.exponent) with hbig | hsmall
  · rw [if_pos (by omega), if_pos hbig]
  rw [if_neg (show ¬ (2047 : Int) ≤ _ by omega), if_neg (not_le.mpr hsmall)]
  rcases le_or_gt ((bitLen d.mantissa : Int) - 1 + d.exponent) (-1023) with hsub | hnorm
  · rw [if_neg (show ¬ (0 : Int) < _ by omega), if_neg (not_lt.mpr hsub)]
  · rw [if_pos (show (0 : Int) < _ by omega), if_pos hnorm,
      normalBits_eq hne hm d.sign hnorm hsmall]

theorem toF64_normal (hlo : -1023 < (bitLen d.mantissa : Int) - 1 + d.exponent)
    (hhi : (bitLen d.mantissa : Int) - 1 + d.exponent < 1024) :
    d.toF64 = pure (Dfp.signBit d.sign
      + (packed d.mantissa d.exponent + roundUp d.mantissa (bitLen d.mantissa - 53))) := by
  rw [toF64_ranges hd, if_neg (not_le.mpr hhi), if_pos hlo]

/-- Below the normal range the mantissa moves up by its leading bit's distance from `-1074`. -/
theorem toF64_subnormal (hle : (bitLen d.mantissa : Int) - 1 + d.exponent ≤ -1023) :
    d.toF64 = pure (Dfp.signBit d.sign + d.mantissa
      * 2 ^ ((bitLen d.mantissa : Int) - 1 + d.exponent + 1074).toNat % 2 ^ 52) := by
  have hge := hd.exp_ge
  unfold dfpMinExponent at hge
  have hpos := bitLen_pos (n := d.mantissa) (by have := hd.odd; omega)
  have hm : d.mantissa < 2 ^ 52 := bitLen_le_iff.mp (by omega)
  obtain ⟨b, hb⟩ := signBit_eq d.sign
  rw [toF64_ranges hd, if_neg (by omega), if_neg (by omega)]
  unfold Dfp.subnormalBits
  rw [addI_of_inI (by simp only [InI, minI, maxI]; omega), pure_bind, if_neg (by omega),
    Nat.mod_eq_of_lt (show d.mantissa < 2 ^ 64 by omega), shlU_of_lt_width (by omega), pure_bind,
    keepMask_and, Nat.mod_mod_of_dvd _ (by norm_num), hb, U256.or_eq_add (by
      exact lt_trans (Nat.mod_lt _ (Nat.two_pow_pos 52)) (by norm_num)), Int.add_comm 1074]

end

/-! ## The round trip -/

theorem pattern_split {p : Nat} (hp : p < 2 ^ 64) :
    Dfp.signBit (decide (p / 2 ^ 63 ≠ 0)) + (exponentField p * 2 ^ 52 + fractionField p) = p := by
  unfold exponentField fractionField
  rcases Nat.lt_or_ge p (2 ^ 63) with h | h
  · rw [Nat.div_eq_of_lt h]
    show 0 + _ = p
    omega
  · rw [show p / 2 ^ 63 = 1 by omega]
    show 0x8000000000000000 + _ = p
    omega

/-- What a pattern's significand normalises to. -/
theorem normalize_canonical {n : Nat} {e : Int} (hn : n ≠ 0) (hlt : n < 2 ^ 53) (hge : -1074 ≤ e)
    (hle : e ≤ 971) (sign : Bool) :
    Dfp.normalize ⟨n, e, .normal, sign⟩
        = pure ⟨oddPart 128 n, e + ctz 128 n, .normal, sign⟩ ∧
      Dfp.CanonicalNormal ⟨oddPart 128 n, e + ctz 128 n, .normal, sign⟩ := by
  have hctz : ctz 128 n < 53 := by
    have hdvd := Nat.le_of_dvd (Nat.pos_of_ne_zero hn) (two_pow_ctz_dvd 128 n)
    exact (Nat.pow_lt_pow_iff_right Nat.one_lt_two).mp (lt_of_le_of_lt hdvd hlt)
  have hodd := oddPart_le 128 n
  constructor
  · rw [normalize_eq hn (by omega) (by simp only [InI, minI, maxI]; omega),
      saturate_of_inI (by simp only [InI, minI, maxI]; omega)]
  · refine ⟨rfl, oddPart_odd hn (by omega), lt_of_le_of_lt hodd (by omega), ?_, ?_⟩
    · simp only [dfpMinExponent]
      omega
    · simp only [dfpMaxExponent]
      omega

theorem bitLen_oddPart (n : Nat) : bitLen (oddPart 128 n) = bitLen n - ctz 128 n :=
  bitLen_div_two_pow n _

/-- Trailing zeros below the leading bit. -/
theorem ctz_lt_bitLen {n : Nat} (hn : n ≠ 0) : ctz 128 n < bitLen n := by
  rw [lt_bitLen_iff]
  exact Nat.le_of_dvd (Nat.pos_of_ne_zero hn) (two_pow_ctz_dvd 128 n)

/-- A normal pattern comes back: its significand is repacked as it was. -/
theorem toF64_of_normal {n E : Nat} (hlo : 2 ^ 52 ≤ n) (hhi : n < 2 ^ 53) (hE : 1 ≤ E)
    (hE' : E ≤ 2046) (sign : Bool) :
    Dfp.toF64 ⟨oddPart 128 n, (E : Int) - 1075 + ctz 128 n, .normal, sign⟩
      = pure (Dfp.signBit sign + (E * 2 ^ 52 + (n - 2 ^ 52))) := by
  have hn : n ≠ 0 := by omega
  have hlen : bitLen n = 53 := bitLen_eq_of_bounds hlo hhi
  have hctz := ctz_lt_bitLen hn
  have hodd := bitLen_oddPart n
  have hback := oddPart_mul_two_pow_ctz 128 n
  have hd := (normalize_canonical (e := (E : Int) - 1075) hn hhi (by omega) (by omega) sign).2
  rw [toF64_normal hd (by simp only; omega) (by simp only; omega)]
  unfold packed
  dsimp only
  rw [hodd, hlen, show 53 - ctz 128 n - 53 = 0 by omega, roundUp_zero, pow_zero, Nat.div_one,
    show 53 - (53 - ctz 128 n) = ctz 128 n by omega, hback,
    show (((53 - ctz 128 n : Nat) : Int) - 1 + ((E : Int) - 1075 + ctz 128 n) + 1023).toNat = E by
      omega, Nat.add_zero]

/-- Shifting the odd part by the leading bit's position restores a power of two only. -/
theorem leading_shift_iff {f : Nat} (hf0 : f ≠ 0) (hf : f < 2 ^ 52) :
    oddPart 128 f * 2 ^ (bitLen f - 1) % 2 ^ 52 = f ↔ ∃ k, f = 2 ^ k := by
  have hback := oddPart_mul_two_pow_ctz 128 f
  have hodd := oddPart_odd (w := 128) hf0 (by omega)
  constructor
  · intro h
    refine ⟨ctz 128 f, ?_⟩
    by_contra hne
    have hone : oddPart 128 f ≠ 1 := by
      intro h1
      rw [h1, Nat.one_mul] at hback
      exact hne hback.symm
    have htwo : 2 ^ (ctz 128 f + 1) ≤ f := by
      rw [pow_succ, mul_comm]
      calc 2 * 2 ^ ctz 128 f ≤ oddPart 128 f * 2 ^ ctz 128 f := Nat.mul_le_mul_right _ (by omega)
        _ = f := hback
    have hlen : ctz 128 f + 1 < bitLen f := lt_bitLen_iff.mpr htwo
    have hdvd : 2 ^ (ctz 128 f + 1) ∣ f := by
      have hwidth : ctz 128 f + 1 ≤ 52 :=
        ((Nat.pow_lt_pow_iff_right Nat.one_lt_two).mp (lt_of_le_of_lt htwo hf)).le
      have hmod : 2 ^ (ctz 128 f + 1) ∣ oddPart 128 f * 2 ^ (bitLen f - 1) % 2 ^ 52 :=
        (Nat.dvd_mod_iff (Nat.pow_dvd_pow 2 hwidth)).mpr
          ((Nat.pow_dvd_pow 2 (by omega)).trans (Nat.dvd_mul_left _ _))
      rwa [h] at hmod
    have heven : 2 ∣ oddPart 128 f := by
      rw [pow_succ, mul_comm] at hdvd
      nth_rewrite 2 [← hback] at hdvd
      exact Nat.dvd_of_mul_dvd_mul_right (Nat.two_pow_pos _) hdvd
    omega
  · rintro ⟨k, rfl⟩
    have hone : oddPart 128 (2 ^ k) = 1 := by
      have hcop : Nat.Coprime (oddPart 128 (2 ^ k)) (2 ^ k) :=
        (Nat.coprime_two_right.mpr (Nat.odd_iff.mpr hodd)).pow_right k
      exact hcop.eq_one_of_dvd (Dvd.intro _ hback)
    have hlen : bitLen (2 ^ k) = k + 1 :=
      bitLen_eq_of_bounds le_rfl (Nat.pow_lt_pow_right Nat.one_lt_two (by omega))
    rw [hone, hlen, Nat.one_mul, Nat.add_sub_cancel, Nat.mod_eq_of_lt hf]

/-- What a subnormal pattern comes back as. -/
theorem toF64_of_subnormal {f : Nat} (hf0 : f ≠ 0) (hf : f < 2 ^ 52) (sign : Bool) :
    Dfp.toF64 ⟨oddPart 128 f, -1074 + ctz 128 f, .normal, sign⟩
      = pure (Dfp.signBit sign + oddPart 128 f * 2 ^ (bitLen f - 1) % 2 ^ 52) := by
  have hctz := ctz_lt_bitLen hf0
  have hlen : bitLen f ≤ 52 := bitLen_le_iff.mpr hf
  have hodd := bitLen_oddPart f
  have hd := (normalize_canonical hf0 (by omega) le_rfl (by omega) sign).2
  rw [toF64_subnormal hd (by simp only; omega)]
  dsimp only
  rw [hodd, show (((bitLen f - ctz 128 f : Nat) : Int) - 1 + (-1074 + ctz 128 f) + 1074).toNat
    = bitLen f - 1 by omega]

theorem fromF64_fields (p : Nat) :
    (p / 2 ^ 52 &&& 0x7FF) = exponentField p ∧ (p &&& 0xFFFFFFFFFFFFF) = fractionField p :=
  ⟨Nat.and_two_pow_sub_one_eq_mod _ 11, Nat.and_two_pow_sub_one_eq_mod _ 52⟩

/-- A pattern other than a NaN survives the round trip unless it is a missed subnormal. -/
theorem fromF64_toF64_iff {p : Nat} (hp : p < 2 ^ 64) (hnan : ¬ IsNan p) :
    (do let d ← Dfp.fromF64 p; d.toF64) = pure p ↔ ¬ MissedSubnormal p := by
  have hsplit := pattern_split hp
  have hE : exponentField p < 2 ^ 11 := Nat.mod_lt _ (Nat.two_pow_pos 11)
  have hf : fractionField p < 2 ^ 52 := Nat.mod_lt _ (Nat.two_pow_pos 52)
  unfold IsNan at hnan
  unfold MissedSubnormal Dfp.fromF64
  simp only [(fromF64_fields p).1, (fromF64_fields p).2]
  generalize decide (p / 2 ^ 63 ≠ 0) = sign at *
  generalize exponentField p = E at *
  generalize fractionField p = f at *
  split
  · next hinf =>
    have hf0 : f = 0 := by
      by_contra hne
      exact hnan ⟨hinf, hne⟩
    refine iff_of_true ?_ (fun h => by omega)
    subst hf0 hinf
    rw [if_neg (not_not_intro rfl), ← hsplit]
    cases sign <;> rfl
  split
  · next hsub =>
    subst hsub
    split
    · next hf0 =>
      refine iff_of_true ?_ (fun h => h.2.1 hf0)
      subst hf0
      rw [← hsplit]
      cases sign <;> rfl
    · next hf0 =>
      rw [(normalize_canonical hf0 (by omega) le_rfl (by omega) sign).1, pure_bind,
        toF64_of_subnormal hf0 hf]
      have hiff := leading_shift_iff hf0 hf
      generalize oddPart 128 f * 2 ^ (bitLen f - 1) % 2 ^ 52 = x at *
      have hval : (pure (Dfp.signBit sign + x) : Tracked Nat) = pure p ↔ x = f := by
        constructor
        · intro h
          have := congrArg Tracked.val h
          simp only [Tracked.val_pure] at this
          omega
        · rintro rfl
          exact congrArg pure (by omega)
      rw [hval, hiff]
      simp [hf0]
  · next hne hzero =>
    refine iff_of_true ?_ (fun h => hzero h.1)
    have hor : (f ||| 2 ^ 52) = 2 ^ 52 + f := by
      rw [Nat.or_comm, ← Nat.one_mul (2 ^ 52), U256.or_eq_add hf]
    rw [subI_of_inI (by simp only [InI, minI, maxI]; omega), pure_bind, hor,
      (normalize_canonical (by omega) (by omega) (by omega) (by omega) sign).1, pure_bind,
      toF64_of_normal (by omega) (by omega) (by omega) (by omega), Nat.add_sub_cancel_left, hsplit]

/-! ## Rounding -/

theorem packed_lt {m : Nat} {e : Int} (hm : m ≠ 0) (hhi : (bitLen m : Int) - 1 + e < 1024) :
    packed m e < 2047 * 2 ^ 52 := by
  obtain ⟨hk, hk'⟩ := kept_bounds hm
  unfold packed
  omega

/-- The packed pattern stands for the kept bits. -/
theorem packed_magnitude {m : Nat} {e : Int} (hm : m ≠ 0)
    (hlo : -1023 < (bitLen m : Int) - 1 + e) :
    magnitude (packed m e) = (m / 2 ^ (bitLen m - 53) * 2 ^ (53 - bitLen m) : Nat)
      * 2 ^ ((bitLen m : Int) - 53 + e) ∧
    magnitude (packed m e + 1) = magnitude (packed m e) + 2 ^ ((bitLen m : Int) - 53 + e) := by
  obtain ⟨hk, hk'⟩ := kept_bounds hm
  have hdiv : packed m e / 2 ^ 52 = ((bitLen m : Int) - 1 + e + 1023).toNat := by
    unfold packed
    omega
  have hmod : packed m e % 2 ^ 52
      = m / 2 ^ (bitLen m - 53) * 2 ^ (53 - bitLen m) - 2 ^ 52 := by
    unfold packed
    omega
  have hexp : ((((bitLen m : Int) - 1 + e + 1023).toNat : Nat) : Int) - 1075
      = (bitLen m : Int) - 53 + e := by
    omega
  constructor
  · unfold magnitude
    rw [hdiv, hmod, if_neg (by omega), hexp, Nat.add_sub_cancel' hk]
  · rw [Binary64.magnitude_succ, hdiv, Nat.max_eq_left (by omega), hexp]

/-- At most 53 bits are packed exactly. -/
theorem packed_exact {m : Nat} {e : Int} (hm : m ≠ 0) (hlen : bitLen m ≤ 53)
    (hlo : -1023 < (bitLen m : Int) - 1 + e) : magnitude (packed m e) = m * 2 ^ e := by
  rw [(packed_magnitude hm hlo).1, show bitLen m - 53 = 0 by omega, pow_zero, Nat.div_one,
    show (bitLen m : Int) - 53 + e = e - (53 - bitLen m : Nat) by omega, zpow_sub₀ (by norm_num),
    zpow_natCast]
  push_cast
  field_simp

/-- More than 53 bits lie between the packed pattern and the next, nearer to
the one the dropped bits point to. -/
theorem packed_bounds {m : Nat} {e : Int} (hodd : m % 2 = 1) (hlen : 53 < bitLen m)
    (hlo : -1023 < (bitLen m : Int) - 1 + e) :
    magnitude (packed m e) < m * 2 ^ e ∧ m * 2 ^ e < magnitude (packed m e + 1) ∧
      magnitude (packed m e) + magnitude (packed m e + 1)
        = 2 * (m * 2 ^ e) + ((2 ^ (bitLen m - 53) : Nat) - 2 * (m % 2 ^ (bitLen m - 53) : Nat))
          * 2 ^ e := by
  obtain ⟨hmag, hsucc⟩ := packed_magnitude (by omega) hlo
  have hpos := two_zpow_pos e
  have hsplit := Nat.div_add_mod m (2 ^ (bitLen m - 53))
  have hlt := Nat.mod_lt m (Nat.two_pow_pos (bitLen m - 53))
  have hr0 : 0 < m % 2 ^ (bitLen m - 53) := by
    have hpar := Nat.mod_mod_of_dvd m (dvd_pow_self 2 (show bitLen m - 53 ≠ 0 by omega))
    omega
  rw [show 53 - bitLen m = 0 by omega, pow_zero, Nat.mul_one,
    show (bitLen m : Int) - 53 + e = (bitLen m - 53 : Nat) + e by omega, zpow_add₀ (by norm_num),
    zpow_natCast] at hmag
  rw [show (bitLen m : Int) - 53 + e = (bitLen m - 53 : Nat) + e by omega, zpow_add₀ (by norm_num),
    zpow_natCast] at hsucc
  generalize m / 2 ^ (bitLen m - 53) = k at *
  generalize m % 2 ^ (bitLen m - 53) = r at *
  generalize bitLen m - 53 = s at *
  have hm : (m : ℚ) = 2 ^ s * k + r := by exact_mod_cast hsplit.symm
  have hr : (0 : ℚ) < r := by exact_mod_cast hr0
  have hr' : (r : ℚ) < 2 ^ s := by exact_mod_cast hlt
  rw [hsucc, hmag, hm]
  refine ⟨?_, ?_, ?_⟩
  · calc (k : ℚ) * (2 ^ s * 2 ^ e) = 2 ^ s * k * 2 ^ e := by ring
      _ < (2 ^ s * k + r) * 2 ^ e := mul_lt_mul_of_pos_right (by linarith) hpos
  · calc ((2 : ℚ) ^ s * k + r) * 2 ^ e < (2 ^ s * k + 2 ^ s) * 2 ^ e :=
          mul_lt_mul_of_pos_right (by linarith) hpos
      _ = k * (2 ^ s * 2 ^ e) + 2 ^ s * 2 ^ e := by ring
  · push_cast
    ring

/-- The increment picks the nearer of the two patterns, the even one half-way. -/
theorem packed_nearest {m : Nat} {e : Int} (hodd : m % 2 = 1) (hlen : 53 < bitLen m)
    (hlo : -1023 < (bitLen m : Int) - 1 + e) (hhi : (bitLen m : Int) - 1 + e < 1024) :
    nearestEven (packed m e) (packed m e + 1) (m * 2 ^ e)
      = packed m e + roundUp m (bitLen m - 53) := by
  obtain ⟨hk, hk'⟩ := kept_bounds (m := m) (by omega)
  obtain ⟨-, -, hsum⟩ := packed_bounds hodd hlen hlo
  have hP : packed m e < 2047 * 2 ^ 52 := by
    unfold packed
    omega
  have hpar : packed m e % 2 = m / 2 ^ (bitLen m - 53) % 2 := by
    rw [show 53 - bitLen m = 0 by omega, pow_zero, Nat.mul_one] at hk
    unfold packed
    rw [show 53 - bitLen m = 0 by omega, pow_zero, Nat.mul_one]
    omega
  have hpos := two_zpow_pos e
  unfold nearestEven roundUp
  rw [Binary64.value_of_lt (by omega), Binary64.value_of_lt (by omega), hsum, hpar]
  generalize 2 ^ (bitLen m - 53) = w at *
  rcases lt_trichotomy w (2 * (m % w)) with h | h | h
  · have hneg : ((w : ℚ) - 2 * (m % w : Nat)) * 2 ^ e < 0 :=
      mul_neg_of_neg_of_pos (by rw [sub_neg]; exact_mod_cast h) hpos
    rw [if_neg (by linarith), if_pos (by linarith), if_pos (Or.inl h)]
  · have hzero : ((w : ℚ) - 2 * (m % w : Nat)) * 2 ^ e = 0 := by
      rw [mul_eq_zero, sub_eq_zero]
      exact Or.inl (by exact_mod_cast h)
    rw [if_neg (by linarith), if_neg (by linarith)]
    split
    · rw [if_neg (by omega), Nat.add_zero]
    · rw [if_pos (by omega)]
  · have hplus : 0 < ((w : ℚ) - 2 * (m % w : Nat)) * 2 ^ e :=
      mul_pos (by rw [sub_pos]; exact_mod_cast h) hpos
    rw [if_pos (by linarith), if_neg (by omega), Nat.add_zero]

section
variable {m lo hi : Nat} {e : Int} (hodd : m % 2 = 1) (hge : -1074 ≤ e) (h : Adjacent lo hi)
  (hlo : Binary64.value lo < m * 2 ^ e) (hhi : m * 2 ^ e < Binary64.value hi)
include hodd hge h hlo hhi

/-- Strictly between neighbours lie magnitudes of the normal range with more
than 53 bits only: the others are values themselves. -/
theorem between_range : -1023 < (bitLen m : Int) - 1 + e ∧ (bitLen m : Int) - 1 + e < 1024 ∧
    53 < bitLen m := by
  have hm : m ≠ 0 := by omega
  have hlead : (2 : ℚ) ^ ((bitLen m : Int) - 1 + e) ≤ m * 2 ^ e := by
    have hpos := bitLen_pos hm
    rw [show (bitLen m : Int) - 1 + e = (bitLen m - 1 : Nat) + e by omega,
      zpow_add₀ (by norm_num), zpow_natCast]
    exact mul_le_mul_of_nonneg_right (by exact_mod_cast two_pow_pred_bitLen_le hm)
      (two_zpow_pos e).le
  have hfin : (bitLen m : Int) - 1 + e < 1024 :=
    (zpow_lt_zpow_iff_right₀ (by norm_num : (1 : ℚ) < 2)).mp
      ((hlead.trans_lt hhi).trans h.hi_finite.value_lt)
  have hnorm : -1023 < (bitLen m : Int) - 1 + e := by
    by_contra hsub
    have hlt : m * 2 ^ (e + 1074).toNat < 2 ^ 52 := by
      calc m * 2 ^ (e + 1074).toNat < 2 ^ bitLen m * 2 ^ (e + 1074).toNat :=
            Nat.mul_lt_mul_of_pos_right (lt_two_pow_bitLen m) (Nat.two_pow_pos _)
        _ = 2 ^ (bitLen m + (e + 1074).toNat) := (pow_add 2 _ _).symm
        _ ≤ 2 ^ 52 := Nat.pow_le_pow_right Nat.two_pos (by omega)
    apply h.value_ne hlo hhi (Binary64.isFinite_of_lt (n := m * 2 ^ (e + 1074).toNat) (by omega))
    rw [Binary64.value_of_lt (by omega), Binary64.magnitude_of_lt hlt, Nat.cast_mul, mul_assoc,
      Nat.cast_pow, Nat.cast_ofNat, ← zpow_natCast, ← zpow_add₀ (by norm_num),
      show ((e + 1074).toNat : Int) + -1074 = e by omega]
  refine ⟨hnorm, hfin, ?_⟩
  by_contra hlen
  have hP : packed m e < 2047 * 2 ^ 52 := packed_lt hm hfin
  apply h.value_ne hlo hhi (Binary64.isFinite_of_lt hP)
  rw [Binary64.value_of_lt (by omega), packed_exact hm (by omega) hnorm]

/-- Around a positive value `to_f64` sees the neighbours as its packed pattern
and the next. -/
theorem between_packed : lo = packed m e ∧ hi = packed m e + 1 := by
  obtain ⟨hnorm, hfin, hlen⟩ := between_range hodd hge h hlo hhi
  obtain ⟨hbelow, habove, -⟩ := packed_bounds hodd hlen hnorm
  refine h.eq_of_between hlo hhi ?_ (packed_lt (by omega) hfin) hbelow habove
  unfold packed
  omega

end

/-- What `to_f64` packs around a positive value is the neighbour it rounds to,
and the neighbours are of different parity. -/
theorem packed_between {m lo hi : Nat} {e : Int} (hodd : m % 2 = 1) (hge : -1074 ≤ e)
    (h : Adjacent lo hi) (hlo : Binary64.value lo < m * 2 ^ e)
    (hhi : m * 2 ^ e < Binary64.value hi) :
    nearestEven lo hi (m * 2 ^ e) = packed m e + roundUp m (bitLen m - 53) ∧ lo % 2 ≠ hi % 2 := by
  obtain ⟨hnorm, hfin, hlen⟩ := between_range hodd hge h hlo hhi
  obtain ⟨hl, hh⟩ := between_packed hodd hge h hlo hhi
  rw [hl, hh]
  exact ⟨packed_nearest hodd hlen hnorm hfin, by omega⟩

/-- Between neighbouring finite values `to_f64` rounds to nearest even. -/
theorem toF64_nearest {d : Dfp} (hd : d.CanonicalNormal) {lo hi : Nat} (h : Adjacent lo hi)
    (hlo : Binary64.value lo < d.value) (hhi : d.value < Binary64.value hi) :
    d.toF64 = pure (nearestEven lo hi d.value) := by
  have hge := hd.exp_ge
  unfold dfpMinExponent at hge
  cases hs : d.sign
  · have hv : d.value = d.mantissa * 2 ^ d.exponent := by
      simp [Dfp.value, hd.cls, hs]
    rw [hv] at hlo hhi ⊢
    obtain ⟨hnorm, hfin, -⟩ := between_range hd.odd hge h hlo hhi
    rw [toF64_normal hd hnorm hfin, (packed_between hd.odd hge h hlo hhi).1, hs]
    exact congrArg pure (Nat.zero_add _)
  · -- the mirror image lies between the mirrored neighbours
    have hv : d.value = -(d.mantissa * 2 ^ d.exponent) := by
      simp [Dfp.value, hd.cls, hs]
    have hlo' : Binary64.value (Binary64.negate hi) < d.mantissa * 2 ^ d.exponent := by
      rw [Binary64.value_negate h.hi_finite.1]
      linarith
    have hhi' : d.mantissa * 2 ^ d.exponent < Binary64.value (Binary64.negate lo) := by
      rw [Binary64.value_negate h.lo_finite.1]
      linarith
    obtain ⟨hnorm, hfin, -⟩ := between_range hd.odd hge h.negate hlo' hhi'
    obtain ⟨hround, hpar⟩ := packed_between hd.odd hge h.negate hlo' hhi'
    have hP := packed_lt (m := d.mantissa) (by have := hd.odd; omega) hfin
    have hup := roundUp_le d.mantissa (bitLen d.mantissa - 53)
    have hback := Binary64.nearestEven_negate (d.mantissa * 2 ^ d.exponent)
      h.negate.lo_finite.1 h.negate.hi_finite.1 hpar
    rw [Binary64.negate_negate h.lo_finite.1, Binary64.negate_negate h.hi_finite.1, hround] at hback
    rw [toF64_normal hd hnorm hfin, hv, hback, hs]
    unfold Binary64.negate
    rw [if_neg (by omega)]
    exact congrArg pure (Nat.add_comm _ _)

/-- **When a pattern comes back**, and how any canonical Normal is rounded. -/
theorem f64_conversions_iff (p : UInt64) (d : Dfp) (lo hi : Nat) :
    (¬ IsNan p.toNat →
      ((do let d ← Dfp.fromF64 p.toNat; d.toF64) = pure p.toNat ↔ ¬ MissedSubnormal p.toNat)) ∧
    (d.CanonicalNormal → Adjacent lo hi → Binary64.value lo < d.value →
      d.value < Binary64.value hi → d.toF64 = pure (nearestEven lo hi d.value)) :=
  ⟨fun hnan => fromF64_toF64_iff p.toNat_lt hnan,
    fun hd h hlo hhi => toF64_nearest hd h hlo hhi⟩

/-- One comes back, and `2^53 + 1` lies half-way between two patterns. -/
theorem f64_conversions_sample :
    ((do let d ← Dfp.fromF64 0x3FF0000000000000; d.toF64) = pure 0x3FF0000000000000) ∧
    Dfp.toF64 ⟨2 ^ 53 + 1, 0, .normal, false⟩ = pure (nearestEven (1076 * 2 ^ 52)
      (1076 * 2 ^ 52 + 1) (Dfp.value ⟨2 ^ 53 + 1, 0, .normal, false⟩)) := by
  have hadj : Adjacent (1076 * 2 ^ 52) (1076 * 2 ^ 52 + 1) := Binary64.adjacent_succ (by norm_num)
  have hd : Dfp.CanonicalNormal ⟨2 ^ 53 + 1, 0, .normal, false⟩ :=
    ⟨rfl, by norm_num, by norm_num, by decide, by decide⟩
  obtain ⟨htrip, hround⟩ := f64_conversions_iff 0x3FF0000000000000 ⟨2 ^ 53 + 1, 0, .normal, false⟩
    (1076 * 2 ^ 52) (1076 * 2 ^ 52 + 1)
  refine ⟨(htrip (by decide)).mpr fun h => absurd h.1 (by decide), hround hd hadj ?_ ?_⟩
  · rw [Binary64.value_of_lt (by norm_num)]
    norm_num [Binary64.magnitude, Dfp.value]
  · rw [Binary64.value_of_lt (by norm_num)]
    norm_num [Binary64.magnitude, Dfp.value]

/-- Three times the smallest subnormal comes back as six times. -/
theorem three_comes_back_six :
    (do let d ← Dfp.fromF64 3; d.toF64) = pure 6 ∧
    ¬ ∀ p : UInt64, ¬ IsNan p.toNat →
      (do let d ← Dfp.fromF64 p.toNat; d.toF64) = pure p.toNat := by
  have h : (do let d ← Dfp.fromF64 3; d.toF64) = pure 6 := by decide
  refine ⟨h, fun hall => ?_⟩
  have h3 := (hall 3 (by decide)).symm.trans h
  exact absurd (congrArg Tracked.val h3) (by decide)

end CipherOcto.Determin
