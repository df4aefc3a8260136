import CipherOcto.Determin.DecimalWire
import CipherOcto.Lib.Attempt

/-!
# What `decimal_mul` and `decimal_div` return

Both are to return the exact product or quotient, rounded once, half to even, at
a stated scale. Each does it on an integer division, and each misses it for a
class of operands.

> `decimalMul_returns_iff`: a negative product of less than one unit in the last
> place is cut to zero before it is rounded up, and comes out as plus one.
> `decimalDiv_rounds_iff`: the tie is taken where the remainder is the floor of
> half the divisor; for an odd divisor that is below the tie, and an odd
> quotient is rounded up.
> `decimalDiv_safe_iff`: the power of ten that pads the dividend has to be in the
> table, which for small divisors it is not; no arithmetic overflows.
-/

namespace CipherOcto.Determin

open Machine

/-! ## Results -/

/-- The number it stands for. -/
def Decimal.val (d : Decimal) : ℚ := Scaled.val d.mantissa d.scale

/-- The valid decimal of `m * 10^-s` where `m` is in range, an overflow elsewhere. -/
structure Decimal.Returns (m : Int) (s : Nat) (r : Run DecimalError Decimal) : Prop where
  ok : |m| ≤ maxDecimalMantissa → ∃ d, r = .ok d ∧ d.Valid ∧ d.val = Scaled.val m s
  overflow : maxDecimalMantissa < |m| → r = .error (.err .overflow)

theorem Decimal.val_canonicalize (m : Int) (s : Nat) :
    (Decimal.canonicalize ⟨m, s⟩).val = Scaled.val m s :=
  Scaled.val_canon m s

theorem bigToI128_of_inI {x : Int} (h : InI 128 x) : bigToI128 x = .ok x := if_pos h

theorem bigToI128_of_not_inI {x : Int} (h : ¬ InI 128 x) : bigToI128 x = .error (.err .overflow) :=
  if_neg h

theorem canonicalize_mantissa_le {m : Int} (h : |m| ≤ maxDecimalMantissa) (s : Nat) :
    |(Decimal.canonicalize ⟨m, s⟩).mantissa| ≤ maxDecimalMantissa :=
  (Scaled.abs_canon_le m s).trans h

theorem checkedNew_of_le {m : Int} {s : Nat} (hs : s ≤ 36) (h : |m| ≤ maxDecimalMantissa) :
    checkedNew m s = .ok (Decimal.canonicalize ⟨m, s⟩) := by
  rw [checkedNew_eq_abs, if_neg (not_lt.mpr h), bigToI128_of_inI (inI128_of_le h), ok_bind]
  exact new_of_stripped_le hs (canonicalize_mantissa_le h s)

theorem checkedNew_returns (m : Int) {s : Nat} (hs : s ≤ 36) :
    Decimal.Returns m s (checkedNew m s) where
  ok h := ⟨_, checkedNew_of_le hs h,
    checkedNew_allValid m s _ (checkedNew_of_le hs h), Decimal.val_canonicalize m s⟩
  overflow h := checkedNew_of_not_le (not_le.mpr h) s

/-- A result in range has one mantissa. -/
theorem Decimal.Returns.unique {m n : Int} {s : Nat} {r : Run DecimalError Decimal}
    (hm : Decimal.Returns m s r) (hn : Decimal.Returns n s r) (hmle : |m| ≤ maxDecimalMantissa)
    (hnle : |n| ≤ maxDecimalMantissa) : m = n := by
  obtain ⟨d, hd, -, hval⟩ := hm.ok hmle
  obtain ⟨d', hd', -, hval'⟩ := hn.ok hnle
  rw [hd] at hd'
  injection hd' with heq
  rw [← heq, hval, Scaled.val_right_inj] at hval'
  exact hval'

/-! ## Products -/

theorem tdiv_eq_zero_iff_abs {n d : Int} (hd : 0 < d) : n.tdiv d = 0 ↔ |n| < d := by
  have habs : (n.tdiv d).natAbs = n.natAbs / d.natAbs := Int.natAbs_tdiv n d
  rw [← Int.natAbs_eq_zero, habs, Nat.div_eq_zero_iff, Int.abs_eq_natAbs]
  omega

/-- Away from zero is the dividend's side, unless a negative dividend was cut to
zero, which counts as positive. -/
theorem awayFromZero_tdiv_iff {n d : Int} (hd : 0 < d) (hn : n ≠ 0) :
    awayFromZero (n.tdiv d) = n.tdiv d + n.sign ↔ ¬ (n < 0 ∧ |n| < d) := by
  unfold awayFromZero
  rcases lt_or_gt_of_ne hn with hneg | hpos
  · have hle : 0 ≤ (-n).tdiv d := Int.tdiv_nonneg (by omega) hd.le
    rw [Int.neg_tdiv] at hle
    rw [← tdiv_eq_zero_iff_abs hd, Int.sign_eq_neg_one_of_neg hneg]
    split <;> omega
  · have hge : 0 ≤ n.tdiv d := Int.tdiv_nonneg hpos.le hd.le
    rw [if_pos hge, Int.sign_eq_one_of_pos hpos]
    exact iff_of_true rfl fun h => absurd h.1 hpos.not_gt

/-- The rounding of a product is half-even unless the product is negative, of
more than half a unit and less than one. -/
theorem mulRound_eq_iff (n : Int) {d : Int} (hd : 0 < d) (heven : (2 : Int) ∣ d) :
    mulRound (n.tdiv d) (n.tmod d) d = Rounding.roundHalfEven ((n : ℚ) / d) ↔
      ¬ (n < 0 ∧ d < 2 * |n| ∧ |n| < d) := by
  have hhalf : d.tdiv 2 * 2 = d := Int.tdiv_mul_cancel heven
  -- a quotient cut to zero leaves the product as the remainder
  have hsmall : |n| < d → |n.tmod d| = |n| := by
    intro h
    rw [Int.abs_eq_natAbs] at h
    have hlt : n.natAbs < d.natAbs := by omega
    rw [Int.abs_eq_natAbs, Int.natAbs_tmod, Nat.mod_eq_of_lt hlt, ← Int.abs_eq_natAbs]
  rw [Rounding.roundHalfEven_div n hd.ne', Int.sign_eq_one_of_pos hd, mul_one, abs_of_pos hd]
  unfold mulRound
  by_cases hgt : |n.tmod d| > d.tdiv 2
  · have hn : n ≠ 0 := by
      rintro rfl
      rw [Int.zero_tmod, abs_zero] at hgt
      omega
    rw [if_pos hgt, if_neg (by omega), if_pos (by omega), awayFromZero_tdiv_iff hd hn]
    refine not_congr ⟨fun h => ⟨h.1, ?_, h.2⟩, fun h => ⟨h.1, h.2.2⟩⟩
    rw [hsmall h.2] at hgt
    omega
  · refine iff_of_true ?_ fun h => ?_
    · rw [if_neg hgt]
      by_cases htie : |n.tmod d| = d.tdiv 2
      · have hn : n ≠ 0 := by
          rintro rfl
          rw [Int.zero_tmod, abs_zero] at htie
          omega
        have hq : ((n.tdiv d).tmod 2).natAbs = (n.tdiv d).natAbs % 2 := Int.natAbs_tmod _ 2
        have habs := Int.abs_eq_natAbs (n.tdiv d)
        rw [if_neg (c := 2 * |n.tmod d| < d) (by omega),
          if_neg (c := 2 * |n.tmod d| > d) (by omega)]
        by_cases hpar : |n.tdiv d| % 2 = 0
        · rw [if_pos hpar, if_neg (show ¬ (n.tdiv d).tmod 2 ≠ 0 by omega), ite_self]
        · have hne : n.tdiv d ≠ 0 := by
            intro h0
            rw [h0] at hpar
            exact hpar rfl
          have haway := (awayFromZero_tdiv_iff hd hn).mpr fun h =>
            hne ((tdiv_eq_zero_iff_abs hd).mpr h.2)
          rw [if_neg hpar, if_pos ⟨htie, hne⟩, if_pos (by omega), haway]
      · rw [if_neg fun h => htie h.1, if_pos (by omega)]
    · rw [hsmall h.2.2] at hgt
      omega

/-- Such a product is rounded to plus one instead of minus one. -/
theorem mulRound_of_sign_lost {n d : Int} (hneg : n < 0) (habove : d < 2 * |n|)
    (hbelow : |n| < d) :
    mulRound (n.tdiv d) (n.tmod d) d = 1 ∧ Rounding.roundHalfEven ((n : ℚ) / d) = -1 := by
  have hd : 0 < d := lt_of_le_of_lt (abs_nonneg n) hbelow
  have hq : n.tdiv d = 0 := (tdiv_eq_zero_iff_abs hd).mpr hbelow
  have hr : n.tmod d = n := by
    have hsum := Int.mul_tdiv_add_tmod n d
    rwa [hq, mul_zero, zero_add] at hsum
  have hhalf : d.tdiv 2 ≤ d / 2 := (Int.tdiv_eq_ediv_of_nonneg hd.le).le
  constructor
  · unfold mulRound
    rw [hq, hr, if_pos (by omega)]
    rfl
  · rw [Rounding.roundHalfEven_div n hd.ne', hq, hr, abs_of_pos hd, if_neg (by omega),
      if_pos (by omega), Int.sign_eq_neg_one_of_neg hneg, Int.sign_eq_one_of_pos hd]
    rfl

/-- A negative product that is cut at scale 36 to nothing, of more than half a
unit in the last place. -/
structure SignLost (a b : Decimal) : Prop where
  cut : 36 < a.scale + b.scale
  neg : a.mantissa * b.mantissa < 0
  above_half : 10 ^ (a.scale + b.scale - 36) < 2 * |a.mantissa * b.mantissa|
  below_one : |a.mantissa * b.mantissa| < 10 ^ (a.scale + b.scale - 36)

/-- **When a product is rounded as the exact product is.** -/
theorem decimalMul_returns_iff {a b : Decimal} (ha : a.Valid) (hb : b.Valid) :
    Decimal.Returns (Scaled.mantissaAt (min 36 (a.scale + b.scale)) (a.val * b.val))
      (min 36 (a.scale + b.scale)) (decimalMul a b) ↔ ¬ SignLost a b := by
  have hsa : a.scale ≤ 36 := ha.scale_le
  have hsb : b.scale ≤ 36 := hb.scale_le
  have hraw : (a.scale + b.scale) % 256 = a.scale + b.scale := Nat.mod_eq_of_lt (by omega)
  have hval : a.val * b.val = Scaled.val (a.mantissa * b.mantissa) (a.scale + b.scale) :=
    Scaled.val_mul_val _ _ _ _
  unfold decimalMul
  rw [hval, hraw]
  by_cases hcut : 36 < a.scale + b.scale
  · have hk : a.scale + b.scale - 36 ≤ 36 := by omega
    have hd := Scaled.ten_pow_pos (a.scale + b.scale - 36)
    have heven : (2 : Int) ∣ 10 ^ (a.scale + b.scale - 36) :=
      dvd_pow (by norm_num) (by omega)
    have hround := mulRound_eq_iff (a.mantissa * b.mantissa) hd heven
    rw [if_pos (show a.scale + b.scale > maxDecimalScale from hcut),
      show a.scale + b.scale - maxDecimalScale = a.scale + b.scale - 36 from rfl, index_pow10 hk,
      ok_bind, min_eq_left hcut.le, Scaled.mantissaAt_val_of_ge _ hcut.le]
    show Decimal.Returns _ 36 (checkedNew _ 36) ↔ _
    by_cases hlost : SignLost a b
    · obtain ⟨hplus, hminus⟩ := mulRound_of_sign_lost hlost.neg hlost.above_half hlost.below_one
      refine iff_of_false (fun h => ?_) (not_not_intro hlost)
      rw [hplus, hminus] at h
      exact absurd ((checkedNew_returns 1 le_rfl).unique h (by decide) (by decide)) (by decide)
    · refine iff_of_true ?_ hlost
      rw [← hround.mpr fun h => hlost ⟨hcut, h.1, h.2.1, h.2.2⟩]
      exact checkedNew_returns _ le_rfl
  · refine iff_of_true ?_ fun h => hcut h.cut
    have hle : a.scale + b.scale ≤ 36 := not_lt.mp hcut
    rw [if_neg (show ¬ a.scale + b.scale > maxDecimalScale from hcut), min_eq_right hle,
      Scaled.mantissaAt_val_of_le _ le_rfl, Nat.sub_self, pow_zero, mul_one, ← checkedNew_eq_abs]
    exact checkedNew_returns _ hle

/-- Minus two and a half times three is minus seven and a half. -/
theorem decimalMul_returns_seven_half :
    ∃ d, decimalMul ⟨-25, 1⟩ ⟨3, 0⟩ = .ok d ∧ d.Valid ∧ d.val = Scaled.val (-75) 1 := by
  have h := (decimalMul_returns_iff (a := ⟨-25, 1⟩) (b := ⟨3, 0⟩) (by decide) (by decide)).mpr
    fun hlost => absurd hlost.cut (by decide)
  have hm : Scaled.mantissaAt (min 36 (1 + 0)) (Decimal.val ⟨-25, 1⟩ * Decimal.val ⟨3, 0⟩) = -75 := by
    unfold Decimal.val
    rw [Scaled.val_mul_val, Scaled.mantissaAt_val_of_le _ (by decide)]
    decide
  rw [hm] at h
  exact h.ok (by decide)

/-- Minus six times ten to the minus 37 is rounded to plus ten to the minus 36. -/
theorem product_sign_lost :
    let a : Decimal := ⟨-6, 36⟩
    let b : Decimal := ⟨1, 1⟩
    a.Valid ∧ b.Valid ∧ a.val * b.val < 0 ∧ decimalMul a b = .ok ⟨1, 36⟩ ∧
      ¬ Decimal.Returns (Scaled.mantissaAt (min 36 (a.scale + b.scale)) (a.val * b.val))
        (min 36 (a.scale + b.scale)) (decimalMul a b) := by
  intro a b
  have ha : a.Valid := by decide
  have hb : b.Valid := by decide
  have hval : a.val * b.val = Scaled.val (-6) 37 := Scaled.val_mul_val _ _ _ _
  refine ⟨ha, hb, ?_, by decide +kernel, fun h => ?_⟩
  · rw [hval]
    unfold Scaled.val
    norm_num
  · exact (decimalMul_returns_iff ha hb).mp h ⟨by decide, by decide, by decide, by decide⟩

/-! ## Quotients -/

/-- The digits the dividend is padded with. -/
def divPadding (a b : Decimal) : Nat := min 36 (max a.scale b.scale + 6) + b.scale - a.scale

section
variable {a b : Decimal} (ha : a.Valid)
include ha

/-- The quotient at the result scale is that of the padded dividend. -/
theorem mantissaAt_decimal_quotient (h0 : b.mantissa ≠ 0) :
    Scaled.mantissaAt (min 36 (max a.scale b.scale + 6)) (a.val / b.val) =
      Rounding.roundHalfEven (((a.mantissa * 10 ^ divPadding a b : Int) : ℚ) / b.mantissa) := by
  have hsa : a.scale ≤ 36 := ha.scale_le
  refine Scaled.mantissaAt_val_div h0 ?_
  unfold divPadding
  omega

variable (hb : b.Valid)
include hb

theorem divTargetScale_eq : divTargetScale a b = min 36 (max a.scale b.scale + 6) := by
  have hsa : a.scale ≤ 36 := ha.scale_le
  have hsb : b.scale ≤ 36 := hb.scale_le
  unfold divTargetScale maxDecimalScale
  omega

theorem divScaleDiff_eq : divScaleDiff a b = divPadding a b := by
  have hsa : a.scale ≤ 36 := ha.scale_le
  have hsb : b.scale ≤ 36 := hb.scale_le
  unfold divScaleDiff divPadding
  rw [divTargetScale_eq ha hb]
  omega

end

theorem absI128_of_le {m : Int} (h : |m| ≤ maxDecimalMantissa) : absI128 m = |m| := by
  refine absI128_of_ne (inI128_of_le h) ?_
  rintro rfl
  exact absurd h (by decide)

/-- Padding is exact, or an overflow. -/
theorem scaleDividend_eq {x : Int} (hx : InI 128 x) {k : Nat} (hk : k ≤ 36) :
    scaleDividend x k = bigToI128 (x * 10 ^ k) := by
  unfold scaleDividend bigToI128
  by_cases h0 : k = 0
  · subst h0
    rw [Nat.cast_zero, if_neg (lt_irrefl 0), if_neg (lt_irrefl 0), pow_zero, mul_one, if_pos hx]
  · rw [if_pos (Int.natCast_pos.mpr (Nat.pos_of_ne_zero h0)), Int.toNat_natCast, index_pow10 hk,
      ok_bind, bigintMul_fromI128 (inI128_pow hk) hx, asOverflow_ok, ok_bind, BigInt.toI128_ofInt,
      mul_comm]
    split <;> rfl

/-- A padding past the table. -/
theorem scaleDividend_panic {k : Nat} (hk : 36 < k) (x : Int) :
    scaleDividend x k = .error .panic := by
  unfold scaleDividend
  rw [if_pos (by omega), Int.toNat_natCast, index_pow10_panic hk]
  rfl

/-- The remainder is the floor of half an odd divisor, which is below the tie,
and the quotient is odd. -/
structure TieTooLow (m b : Int) : Prop where
  odd_divisor : b % 2 = 1
  at_floor : m % b = b / 2
  odd_quotient : m / b % 2 = 1

/-- The rounding of a quotient is half-even, but for a step up from such a
remainder. -/
theorem divRound_cases {m b : Int} (hm : 0 ≤ m) (hb : 0 < b) (hfit : InI 128 (m / b + 1)) :
    (TieTooLow m b → divRound m b = m / b + 1 ∧ Rounding.roundHalfEven ((m : ℚ) / b) = m / b) ∧
      (¬ TieTooLow m b → divRound m b = Rounding.roundHalfEven ((m : ℚ) / b)) := by
  have hr := Int.emod_nonneg m hb.ne'
  have hq := Int.ediv_nonneg hm hb.le
  have hparity : (m / b).tmod 2 = m / b % 2 := Int.tmod_eq_emod_of_nonneg hq
  rw [Rounding.roundHalfEven_div m hb.ne', Int.tdiv_eq_ediv_of_nonneg hm,
    Int.tmod_eq_emod_of_nonneg hm, abs_of_nonneg hr, abs_of_pos hb, abs_of_nonneg hq]
  unfold divRound
  rw [Int.tdiv_eq_ediv_of_nonneg hm, Int.tmod_eq_emod_of_nonneg hm,
    Int.tdiv_eq_ediv_of_nonneg hb.le, wrapI_of_inI hfit, hparity]
  constructor
  · intro h
    obtain ⟨hodd, hfloor, hquot⟩ := h
    rw [if_neg (by omega), if_neg (by omega), if_neg (by omega), if_pos (by omega)]
    exact ⟨rfl, rfl⟩
  · intro h
    have hmod := Int.emod_lt_of_pos m hb
    have hsign : 0 < m % b → m.sign * b.sign = 1 := by
      intro hpos
      have hm0 : 0 < m := by
        refine lt_of_le_of_ne hm fun h0 => ?_
        rw [← h0, Int.zero_emod] at hpos
        exact lt_irrefl 0 hpos
      rw [Int.sign_eq_one_of_pos hm0, Int.sign_eq_one_of_pos hb, mul_one]
    by_cases hlow : m % b < b / 2
    · rw [if_pos hlow, if_pos (by omega)]
    rw [if_neg hlow]
    by_cases hhigh : m % b > b / 2
    · rw [if_pos hhigh, if_neg (by omega), if_pos (by omega), hsign (by omega)]
    rw [if_neg hhigh]
    by_cases heven : m / b % 2 = 0
    · rw [if_pos heven, if_neg (c := 2 * (m % b) > b) (by omega), if_pos heven, ite_self]
    · -- an odd divisor would have made this a step up from below the tie
      have hdiv : b % 2 ≠ 1 := fun hodd => h ⟨hodd, by omega, by omega⟩
      rw [if_neg heven, if_neg (by omega), if_neg (by omega), if_neg heven, hsign (by omega)]

theorem divRound_near {m b : Int} (hm : 0 ≤ m) (hfit : InI 128 (m / b + 1)) :
    divRound m b = m / b ∨ divRound m b = m / b + 1 := by
  unfold divRound
  rw [Int.tdiv_eq_ediv_of_nonneg hm, wrapI_of_inI hfit]
  split_ifs
  · exact Or.inl rfl
  · exact Or.inr rfl
  · exact Or.inl rfl
  · exact Or.inr rfl

/-- The dividend's magnitude at the scale the quotient needs. -/
def paddedDividend (a b : Decimal) : Int := |a.mantissa| * 10 ^ divPadding a b

/-- A magnitude with the quotient's sign. -/
def quotientSigned (a b : Decimal) (x : Int) : Int :=
  if decide (a.mantissa < 0) != decide (b.mantissa < 0) then -x else x

theorem paddedDividend_nonneg (a b : Decimal) : 0 ≤ paddedDividend a b :=
  mul_nonneg (abs_nonneg _) (Scaled.ten_pow_pos _).le

/-- No padded mantissa is `i128::MAX`, so a quotient can be stepped up. -/
theorem quotient_step_fits {a b : Decimal} (ha : a.Valid) (hfit : InI 128 (paddedDividend a b)) :
    InI 128 (paddedDividend a b / |b.mantissa| + 1) := by
  have hnn := paddedDividend_nonneg a b
  have hq := Int.ediv_nonneg hnn (abs_nonneg b.mantissa)
  have hle := Int.ediv_le_self |b.mantissa| hnn
  have hne : paddedDividend a b ≠ maxI 128 := by
    have hmantissa := ha.mantissa_le
    rw [maxDecimalMantissa_eq] at hmantissa
    rw [maxI128_eq]
    unfold paddedDividend
    intro hmax
    rcases Nat.eq_zero_or_pos (divPadding a b) with h0 | hpos
    · rw [h0, pow_zero, mul_one] at hmax
      omega
    · have hten : (10 : Int) ∣ |a.mantissa| * 10 ^ divPadding a b :=
        dvd_mul_of_dvd_right (dvd_pow_self 10 hpos.ne') _
      rw [hmax] at hten
      exact absurd hten (by decide)
  rw [maxI128_eq] at hne
  rw [inI128_iff] at hfit ⊢
  omega

section
variable {a b : Decimal} (ha : a.Valid) (hb : b.Valid) (h0 : b.mantissa ≠ 0)
include ha hb h0

/-- `decimal_div` on valid operands, with nothing wrapped. -/
theorem decimalDiv_eq (t : Nat) :
    decimalDiv a b t =
      if 36 < divPadding a b then .error .panic
      else if InI 128 (paddedDividend a b) then
        Decimal.new (quotientSigned a b (divRound (paddedDividend a b) |b.mantissa|))
          (min 36 (max a.scale b.scale + 6))
      else .error (.err .overflow) := by
  have hA := absI128_of_le ha.mantissa_le
  have hin := inI_absI128 (inI128_of_le ha.mantissa_le)
  have hnn := paddedDividend_nonneg a b
  unfold decimalDiv
  rw [if_neg h0, divScaleDiff_eq ha hb, absI128_of_le hb.mantissa_le, divTargetScale_eq ha hb]
  by_cases hpad : 36 < divPadding a b
  · rw [if_pos hpad, scaleDividend_panic hpad]
    rfl
  rw [if_neg hpad, scaleDividend_eq hin (not_lt.mp hpad), hA, ← paddedDividend]
  by_cases hfit : InI 128 (paddedDividend a b)
  · have hstep := quotient_step_fits ha hfit
    have hq := Int.ediv_nonneg hnn (abs_nonneg b.mantissa)
    have hnear := divRound_near hnn hstep
    have habs : absI128 (paddedDividend a b) = paddedDividend a b := by
      rw [absI128_of_ne hfit (by rw [minI128_eq]; omega), abs_of_nonneg hnn]
    have hneg : InI 128 (-divRound (paddedDividend a b) |b.mantissa|) := by
      rw [inI128_iff] at hstep ⊢
      omega
    rw [if_pos hfit, bigToI128_of_inI hfit, ok_bind, habs]
    dsimp only
    rw [wrapI_of_inI hneg]
    rfl
  · rw [if_neg hfit, bigToI128_of_not_inI hfit]
    rfl

end

/-- The exact quotient, rounded at the result scale. -/
theorem mantissaAt_quotientSigned {a b : Decimal} (ha : a.Valid) (h0 : b.mantissa ≠ 0) :
    Scaled.mantissaAt (min 36 (max a.scale b.scale + 6)) (a.val / b.val) =
      quotientSigned a b
        (Rounding.roundHalfEven ((paddedDividend a b : ℚ) / ((|b.mantissa| : Int) : ℚ))) := by
  have hpos := Scaled.ten_pow_pos (divPadding a b)
  have hneg : a.mantissa * 10 ^ divPadding a b < 0 ↔ a.mantissa < 0 := by
    rw [← neg_pos, ← neg_mul, mul_pos_iff_of_pos_right hpos, neg_pos]
  rw [mantissaAt_decimal_quotient ha h0, Rounding.roundHalfEven_div_abs, decide_eq_decide.mpr hneg,
    abs_mul, abs_of_pos hpos]
  rfl

theorem canonicalize_quotientSigned_le (a b : Decimal) (x : Int) (s : Nat) :
    |(Decimal.canonicalize ⟨quotientSigned a b x, s⟩).mantissa|
      = |(Decimal.canonicalize ⟨x, s⟩).mantissa| := by
  unfold quotientSigned
  split
  · unfold Decimal.canonicalize
    rw [Scaled.canon_neg, abs_neg]
  · rfl

theorem quotientSigned_inj {a b : Decimal} {x y : Int}
    (h : quotientSigned a b x = quotientSigned a b y) : x = y := by
  unfold quotientSigned at h
  split at h
  · exact neg_injective h
  · exact h

/-- The signed quotient is an `i128` other than the least. -/
theorem inI_quotientSigned {a b : Decimal} {m d : Int} (hm : 0 ≤ m) (hfit : InI 128 (m / |d| + 1)) :
    InI 128 (quotientSigned a b (divRound m |d|)) ∧
      quotientSigned a b (divRound m |d|) ≠ minI 128 := by
  have hq := Int.ediv_nonneg hm (abs_nonneg d)
  have hnear := divRound_near hm hfit
  unfold quotientSigned
  rw [minI128_eq]
  rw [inI128_iff] at hfit ⊢
  split <;> omega

/-- A quotient rounded once, half to even. -/
structure QuotientRounded (a b r : Decimal) : Prop where
  rounded : r.val = Scaled.val (Scaled.mantissaAt (min 36 (max a.scale b.scale + 6)) (a.val / b.val))
    (min 36 (max a.scale b.scale + 6))
  by_one : b.val = 1 → a.scale ≤ min 36 (max a.scale b.scale + 6) → r.val = a.val

/-- A quotient that is stepped up below the tie, and returned: the padded
dividend is computed, and the stepped quotient is in range. -/
structure SteppedBelowTie (a b : Decimal) : Prop where
  padding_le : divPadding a b ≤ 36
  fits : InI 128 (paddedDividend a b)
  low : TieTooLow (paddedDividend a b) |b.mantissa|
  in_range : |(Decimal.canonicalize ⟨paddedDividend a b / |b.mantissa| + 1,
    min 36 (max a.scale b.scale + 6)⟩).mantissa| ≤ maxDecimalMantissa

theorem quotientRounded_of_rounded {a b r : Decimal}
    (h : r.val = Scaled.val (Scaled.mantissaAt (min 36 (max a.scale b.scale + 6)) (a.val / b.val))
      (min 36 (max a.scale b.scale + 6))) : QuotientRounded a b r := by
  refine ⟨h, fun hone hle => ?_⟩
  have hpad := Scaled.val_mul_pow a.mantissa a.scale (min 36 (max a.scale b.scale + 6) - a.scale)
  rw [Nat.add_sub_cancel' hle] at hpad
  rw [h, hone, div_one]
  unfold Decimal.val
  rw [Scaled.mantissaAt_val_of_le _ hle, hpad]

/-- **When a quotient is rounded as the exact quotient is.** -/
theorem decimalDiv_rounds_iff {a b : Decimal} (ha : a.Valid) (hb : b.Valid) (h0 : b.mantissa ≠ 0)
    (t : Nat) :
    (∀ r, decimalDiv a b t = .ok r → QuotientRounded a b r) ↔ ¬ SteppedBelowTie a b := by
  have hT : min 36 (max a.scale b.scale + 6) ≤ 36 := min_le_left _ _
  have hnn := paddedDividend_nonneg a b
  have hpos : 0 < |b.mantissa| := abs_pos.mpr h0
  rw [decimalDiv_eq ha hb h0]
  constructor
  · intro h hstep
    obtain ⟨hstepped, hnearest⟩ :=
      (divRound_cases hnn hpos (quotient_step_fits ha hstep.fits)).1 hstep.low
    have hin := hstep.in_range
    rw [← canonicalize_quotientSigned_le a b] at hin
    rw [if_neg (not_lt.mpr hstep.padding_le), if_pos hstep.fits, hstepped,
      new_of_stripped_le hT hin] at h
    have hval := (h _ rfl).rounded
    rw [Decimal.val_canonicalize, mantissaAt_quotientSigned ha h0, hnearest,
      Scaled.val_eq_iff] at hval
    have := quotientSigned_inj (mul_right_cancel₀ (Scaled.ten_pow_ne_zero _) hval)
    omega
  · intro hstep r hr
    obtain ⟨hpad, hr⟩ := ite_error_eq_ok.mp hr
    by_cases hfit : InI 128 (paddedDividend a b)
    · rw [if_pos hfit] at hr
      have hfits := quotient_step_fits ha hfit
      obtain ⟨hup, heven⟩ := divRound_cases hnn hpos hfits
      have hle := (new_allValid (inI_quotientSigned hnn hfits).1 (inI_quotientSigned hnn hfits).2
        _ _ hr).mantissa_le
      obtain ⟨-, -, rfl⟩ := new_eq_ok hr
      by_cases hlow : TieTooLow (paddedDividend a b) |b.mantissa|
      · rw [(hup hlow).1, canonicalize_quotientSigned_le] at hle
        exact absurd ⟨not_lt.mp hpad, hfit, hlow, hle⟩ hstep
      · refine quotientRounded_of_rounded ?_
        rw [Decimal.val_canonicalize, mantissaAt_quotientSigned ha h0, heven hlow]
    · rw [if_neg hfit] at hr
      cases hr

/-- A third of two is rounded up. -/
theorem decimalDiv_rounds_two_thirds :
    ∃ r, decimalDiv ⟨2, 0⟩ ⟨3, 0⟩ 0 = .ok r ∧ QuotientRounded ⟨2, 0⟩ ⟨3, 0⟩ r := by
  refine ⟨⟨666667, 6⟩, by decide +kernel, ?_⟩
  refine (decimalDiv_rounds_iff (by decide) (by decide) (by decide) 0).mpr (fun h => ?_) _
    (by decide +kernel)
  exact absurd h.low.at_floor (by decide)

/-- Three units of the last place over one are four. -/
theorem three_over_one :
    let a : Decimal := ⟨3, 36⟩
    let b : Decimal := ⟨1, 0⟩
    a.Valid ∧ b.Valid ∧ b.val = 1 ∧ decimalDiv a b 36 = .ok ⟨4, 36⟩ ∧
      ¬ QuotientRounded a b ⟨4, 36⟩ := by
  intro a b
  have hone : b.val = 1 := by
    unfold Decimal.val Scaled.val
    norm_num [b]
  refine ⟨by decide, by decide, hone, by decide +kernel, fun h => ?_⟩
  have hval : Scaled.val 4 36 = Scaled.val 3 36 := h.by_one hone (by decide)
  exact absurd ((Scaled.val_eq_iff _ _ _ _).mp hval) (by decide)

/-! ## Panics of the division -/

/-- `x.abs()` on an `i128`, with its overflow. -/
def absTracked (x : Int) : Tracked Int := ⟨absI128 x, decide (x = minI 128)⟩

/-- `Decimal::new`, with `abs` as a build computes it. -/
def Decimal.newIn (overflowChecks : Bool) (mantissa : Int) (scale : Nat) :
    Run DecimalError Decimal :=
  if scale > maxDecimalScale then .error (.err .invalidScale)
  else do
    let magnitude ← build overflowChecks
      (absTracked (Decimal.canonicalize ⟨mantissa, scale⟩).mantissa)
    if magnitude > maxDecimalMantissa then .error (.err .overflow)
    else .ok (Decimal.canonicalize ⟨mantissa, scale⟩)

/-- `scaleDividend`, as a build computes it. -/
def scaleDividendIn (overflowChecks : Bool) (absA scaleDiff : Int) : Run DecimalError Int :=
  if scaleDiff > 0 then do
    let power ← index pow10 scaleDiff.toNat
    let scaled ← asOverflow (bigintMul (BigInt.fromI128 power) (BigInt.fromI128 absA))
    asOverflow scaled.toI128
  else if scaleDiff < 0 then do
    let divisor ← index pow10 (-scaleDiff).toNat
    if absA.tmod divisor > divisor.tdiv 2 ∨
        (absA.tmod divisor = divisor.tdiv 2 ∧ (absA.tdiv divisor).tmod 2 ≠ 0) then
      build overflowChecks (addI 128 (absA.tdiv divisor) 1)
    else .ok (absA.tdiv divisor)
  else .ok absA

/-- `divRound`, as a build computes it. The quotient `MIN / -1` panics in every
build. -/
def divRoundIn (overflowChecks : Bool) (magnitude absB : Int) : Run DecimalError Int :=
  if magnitude = minI 128 ∧ absB = -1 then .error .panic
  else if magnitude.tmod absB < absB.tdiv 2 then .ok (magnitude.tdiv absB)
  else if magnitude.tmod absB > absB.tdiv 2 then
    build overflowChecks (addI 128 (magnitude.tdiv absB) 1)
  else if (magnitude.tdiv absB).tmod 2 = 0 then .ok (magnitude.tdiv absB)
  else build overflowChecks (addI 128 (magnitude.tdiv absB) 1)

/-- `decimal_div`, as a build computes it; `decimalDiv` is the wrapping build.
The scale difference is an `i32` of three `u8`, which cannot overflow. -/
def decimalDivIn (overflowChecks : Bool) (a b : Decimal) (_targetScale : Nat) :
    Run DecimalError Decimal :=
  if b.mantissa = 0 then .error (.err .divisionByZero)
  else do
    let absA ← build overflowChecks (absTracked a.mantissa)
    let absB ← build overflowChecks (absTracked b.mantissa)
    let scaled ← scaleDividendIn overflowChecks absA (divScaleDiff a b)
    let magnitude ← build overflowChecks (absTracked scaled)
    let result ← divRoundIn overflowChecks magnitude absB
    let signed ←
      (if decide (a.mantissa < 0) != decide (b.mantissa < 0) then
        build overflowChecks (subI 128 0 result)
      else .ok result)
    Decimal.newIn overflowChecks signed (divTargetScale a b)

section
variable {overflowChecks : Bool}

theorem build_absTracked {ε : Type} {x : Int} (h : overflowChecks = true → x ≠ minI 128) :
    (build overflowChecks (absTracked x) : Run ε Int) = .ok (absI128 x) :=
  build_of_fits fun hchecks => decide_eq_false (h hchecks)

theorem new_ne_panic {m : Int} {s : Nat} : Decimal.new m s ≠ .error .panic := by
  unfold Decimal.new
  split_ifs <;> exact fun h => nomatch h

theorem newIn_eq {m : Int} {s : Nat}
    (h : overflowChecks = true → (Decimal.canonicalize ⟨m, s⟩).mantissa ≠ minI 128) :
    Decimal.newIn overflowChecks m s = Decimal.new m s := by
  unfold Decimal.newIn Decimal.new
  rw [build_absTracked h, ok_bind]

theorem divRoundIn_eq {m b : Int} (hdiv : ¬ (m = minI 128 ∧ b = -1))
    (h : overflowChecks = true → InI 128 (m.tdiv b + 1)) :
    divRoundIn overflowChecks m b = .ok (divRound m b) := by
  unfold divRoundIn divRound
  rw [if_neg hdiv, build_addI h]
  split_ifs <;> rfl

theorem scaleDividendIn_natCast (x : Int) (k : Nat) :
    scaleDividendIn overflowChecks x k = scaleDividend x k := by
  unfold scaleDividendIn scaleDividend
  rw [if_neg (c := (k : Int) < 0) (by omega), if_neg (c := (k : Int) < 0) (by omega)]

end

theorem absI128_ne_neg_one {m : Int} (hm : InI 128 m) : absI128 m ≠ -1 := by
  rcases absI128_cases hm with ⟨-, heq⟩ | ⟨-, heq⟩
  · rw [heq]
    decide
  · have := abs_nonneg m
    omega

/-- The build without overflow checks. -/
theorem decimalDivIn_wrapping (a : Decimal) {b : Decimal} (hb : b.WellTyped) (t : Nat) :
    decimalDivIn false a b t = decimalDiv a b t := by
  have hadd : ∀ x y : Int, (build false (addI 128 x y) : Run DecimalError Int)
      = .ok (wrapI 128 (x + y)) := fun x y => build_addI unchecked
  have hscale : ∀ x d, scaleDividendIn false x d = scaleDividend x d := by
    intro x d
    unfold scaleDividendIn scaleDividend
    simp only [hadd]
  unfold decimalDivIn decimalDiv
  refine if_congr Iff.rfl rfl ?_
  rw [build_absTracked unchecked, ok_bind, build_absTracked unchecked, ok_bind, hscale]
  cases scaleDividend (absI128 a.mantissa) (divScaleDiff a b) with
  | error e => rfl
  | ok scaled =>
    rw [ok_bind, ok_bind, build_absTracked unchecked, ok_bind,
      divRoundIn_eq (fun h => absI128_ne_neg_one hb.1 h.2) unchecked, ok_bind, build_subI unchecked,
      zero_sub]
    dsimp only
    split <;> rw [ok_bind, newIn_eq unchecked]

/-- No intermediate of a valid quotient leaves its range. -/
theorem decimalDivIn_eq {a b : Decimal} (ha : a.Valid) (hb : b.Valid) (t : Nat)
    (overflowChecks : Bool) : decimalDivIn overflowChecks a b t = decimalDiv a b t := by
  have hmin : ∀ {d : Decimal}, d.Valid → d.mantissa ≠ minI 128 := by
    intro d hd h
    have hle := hd.mantissa_le
    rw [h] at hle
    exact absurd hle (by decide)
  have hin := inI_absI128 (inI128_of_le ha.mantissa_le)
  have hnn := paddedDividend_nonneg a b
  by_cases h0 : b.mantissa = 0
  · unfold decimalDivIn decimalDiv
    rw [if_pos h0, if_pos h0]
  rw [decimalDiv_eq ha hb h0]
  unfold decimalDivIn
  rw [if_neg h0, build_absTracked fun _ => hmin ha, ok_bind, build_absTracked fun _ => hmin hb,
    ok_bind, absI128_of_le hb.mantissa_le, divScaleDiff_eq ha hb, scaleDividendIn_natCast]
  by_cases hpad : 36 < divPadding a b
  · rw [if_pos hpad, scaleDividend_panic hpad]
    rfl
  rw [if_neg hpad, scaleDividend_eq hin (not_lt.mp hpad), absI128_of_le ha.mantissa_le,
    ← paddedDividend]
  by_cases hfit : InI 128 (paddedDividend a b)
  · have hstep := quotient_step_fits ha hfit
    have hne : paddedDividend a b ≠ minI 128 := by
      rw [minI128_eq]
      omega
    have hsigned := inI_quotientSigned (a := a) (b := b) hnn hstep
    rw [if_pos hfit, bigToI128_of_inI hfit, ok_bind, build_absTracked fun _ => hne, ok_bind,
      absI128_of_ne hfit hne, abs_of_nonneg hnn,
      divRoundIn_eq (fun h => hne h.1) fun _ => by rwa [Int.tdiv_eq_ediv_of_nonneg hnn], ok_bind]
    have hcanon := (canonicalize_ne_min hsigned.1 hsigned.2 (divTargetScale a b)).2
    have hin128 := hsigned.1
    unfold quotientSigned at hcanon hin128 ⊢
    by_cases hsign : (decide (a.mantissa < 0) != decide (b.mantissa < 0)) = true
    · rw [if_pos hsign] at hcanon hin128 ⊢
      rw [if_pos hsign, build_subI fun _ => by rwa [zero_sub], zero_sub, wrapI_of_inI hin128,
        ok_bind, newIn_eq fun _ => hcanon, divTargetScale_eq ha hb]
    · rw [if_neg hsign] at hcanon ⊢
      rw [if_neg hsign, ok_bind, newIn_eq fun _ => hcanon, divTargetScale_eq ha hb]
  · rw [if_neg hfit, bigToI128_of_not_inI hfit]
    rfl

/-- **When a quotient of valid operands is computed without a panic**: the power
of ten is in the table. Nothing overflows either way. -/
theorem decimalDiv_safe_iff {a b : Decimal} (ha : a.Valid) (hb : b.Valid) (t : Nat)
    (overflowChecks : Bool) :
    decimalDivIn overflowChecks a b t ≠ .error .panic ↔
      b.mantissa = 0 ∨ min 36 (max a.scale b.scale + 6) + b.scale - a.scale ≤ 36 := by
  rw [decimalDivIn_eq ha hb]
  by_cases h0 : b.mantissa = 0
  · refine iff_of_true ?_ (Or.inl h0)
    unfold decimalDiv
    rw [if_pos h0]
    intro h
    cases h
  rw [or_iff_right h0, decimalDiv_eq ha hb h0]
  by_cases hpad : 36 < divPadding a b
  · rw [if_pos hpad]
    exact iff_of_false (not_not_intro rfl) (not_le.mpr hpad)
  rw [if_neg hpad]
  refine iff_of_true (fun h => ?_) (not_lt.mp hpad)
  split at h
  · exact new_ne_panic h
  · cases h

/-- One third, in a checked build. -/
theorem decimalDiv_safe_third : decimalDivIn true ⟨1, 0⟩ ⟨3, 0⟩ 0 ≠ .error .panic :=
  (decimalDiv_safe_iff (by decide) (by decide) 0 true).mpr (Or.inr (by decide))

/-- One over ten to the minus sixteen asks for the power 38. -/
theorem small_divisor_panics :
    let a : Decimal := ⟨1, 0⟩
    let b : Decimal := ⟨1, 16⟩
    a.Valid ∧ b.Valid ∧ divScaleDiff a b = 38 ∧ pow10.length = 37 ∧
      ∀ overflowChecks, decimalDivIn overflowChecks a b 0 = .error .panic := by
  intro a b
  refine ⟨by decide, by decide, by decide, by decide, fun overflowChecks => ?_⟩
  by_contra h
  rcases (decimalDiv_safe_iff (by decide) (by decide) 0 overflowChecks).mp h with h | h
  · exact absurd h (by decide)
  · exact absurd h (by decide)

end CipherOcto.Determin
