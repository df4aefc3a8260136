import CipherOcto.Determin.Dqa

/-!
# What the `Dqa` operations return

Each operation, on operands of at most 18 decimals, in terms of the numbers the
operands stand for. A result is the canonical record of its number
(`Dqa.Returns`), or an overflow where a stated mantissa leaves the word: the
aligned operands and their sum for `dqa_add` and `dqa_sub`, the rounded
mantissa for `dqa_mul` and `dqa_div`, and for `dqa_div` the padded dividend
too, which must fit an `i128`.

> `dqa_ring_exact`: sums and differences are exact, products are rounded once.
> `dqaDiv_exact`: quotients are rounded once, at the larger of the two scales.

`finish` is what they share, so `finish_returns` is the only place where a
result is looked at.
-/

namespace CipherOcto.Determin

open Machine Scaled

/-- The canonical record of `x` where `fits` holds, an overflow elsewhere. -/
structure Dqa.Returns (fits : Prop) (x : ℚ) (r : Run DqaError Dqa) : Prop where
  ok : fits → ∃ d, r = .ok d ∧ d.Canonical ∧ d.val = x
  overflow : ¬ fits → r = .error (.err .overflow)

theorem finish_returns (x : Int) {s : Nat} (hs : s < 256) :
    Dqa.Returns (InI 64 x) (Scaled.val x s) (finish x s) where
  ok h := ⟨_, finish_of_inI h hs, Dqa.canonicalize_canonical _, Dqa.val_canonicalize _⟩
  overflow h := finish_of_not_inI h s

/-- A guard in front of an operation. -/
theorem Dqa.Returns.guarded {fits : Prop} {x : ℚ} {r : Run DqaError Dqa} (h : Dqa.Returns fits x r)
    (c : Prop) [Decidable c] :
    Dqa.Returns (c ∧ fits) x (if c then r else .error (.err .overflow)) where
  ok hand := by
    rw [if_pos hand.1]
    exact h.ok hand.2
  overflow hnot := by
    by_cases hc : c
    · rw [if_pos hc]
      exact h.overflow fun hfits => hnot ⟨hc, hfits⟩
    · rw [if_neg hc]

/-! ## Sums, differences, products -/

/-- Padding does not change the number. -/
theorem Dqa.val_padTo (d : Dqa) {t : Nat} (h : d.scale ≤ t) : Scaled.val (d.padTo t) t = d.val := by
  have hpad := val_mul_pow d.value d.scale (t - d.scale)
  rw [Nat.add_sub_cancel' h] at hpad
  exact hpad

theorem val_le_iff_of_scale_eq {a b : Dqa} (h : a.scale = b.scale) :
    a.val ≤ b.val ↔ a.value ≤ b.value := by
  unfold Dqa.val
  rw [Scaled.val_le_iff, h]
  exact mul_le_mul_iff_of_pos_right (Scaled.ten_pow_pos b.scale)

section
variable {a b : Dqa} (ha : a.scale ≤ 18) (hb : b.scale ≤ 18)
include ha hb

theorem dqaAdd_returns :
    Dqa.Returns
      ((InI 64 (a.padTo (max a.scale b.scale)) ∧ InI 64 (b.padTo (max a.scale b.scale))) ∧
        InI 64 (a.padTo (max a.scale b.scale) + b.padTo (max a.scale b.scale)))
      (a.val + b.val) (dqaAdd a b) := by
  have hsum : Scaled.val (a.padTo (max a.scale b.scale) + b.padTo (max a.scale b.scale))
      (max a.scale b.scale) = a.val + b.val := by
    rw [← a.val_padTo (le_max_left a.scale b.scale), ← b.val_padTo (le_max_right a.scale b.scale)]
    unfold Scaled.val
    push_cast
    exact add_div _ _ _
  rw [dqaAdd_eq ha hb, ← hsum]
  exact (finish_returns _ (by omega)).guarded _

theorem dqaSub_returns :
    Dqa.Returns
      ((InI 64 (a.padTo (max a.scale b.scale)) ∧ InI 64 (b.padTo (max a.scale b.scale))) ∧
        InI 64 (a.padTo (max a.scale b.scale) - b.padTo (max a.scale b.scale)))
      (a.val - b.val) (dqaSub a b) := by
  have hdiff : Scaled.val (a.padTo (max a.scale b.scale) - b.padTo (max a.scale b.scale))
      (max a.scale b.scale) = a.val - b.val := by
    rw [← a.val_padTo (le_max_left a.scale b.scale), ← b.val_padTo (le_max_right a.scale b.scale)]
    unfold Scaled.val
    push_cast
    exact sub_div _ _ _
  rw [dqaSub_eq ha hb, ← hdiff]
  exact (finish_returns _ (by omega)).guarded _

theorem dqaMul_returns :
    Dqa.Returns (InI 64 (mantissaAt (min 18 (a.scale + b.scale)) (a.val * b.val)))
      (Scaled.val (mantissaAt (min 18 (a.scale + b.scale)) (a.val * b.val))
        (min 18 (a.scale + b.scale)))
      (dqaMul a b) := by
  rw [dqaMul_eq ha hb]
  exact finish_returns _ (by omega)

/-- **Sums and differences are exact, products are rounded once.** -/
theorem dqa_ring_exact :
    Dqa.Returns
        ((InI 64 (a.padTo (max a.scale b.scale)) ∧ InI 64 (b.padTo (max a.scale b.scale))) ∧
          InI 64 (a.padTo (max a.scale b.scale) + b.padTo (max a.scale b.scale)))
        (a.val + b.val) (dqaAdd a b) ∧
      Dqa.Returns
        ((InI 64 (a.padTo (max a.scale b.scale)) ∧ InI 64 (b.padTo (max a.scale b.scale))) ∧
          InI 64 (a.padTo (max a.scale b.scale) - b.padTo (max a.scale b.scale)))
        (a.val - b.val) (dqaSub a b) ∧
      Dqa.Returns (InI 64 (mantissaAt (min 18 (a.scale + b.scale)) (a.val * b.val)))
        (Scaled.val (mantissaAt (min 18 (a.scale + b.scale)) (a.val * b.val))
          (min 18 (a.scale + b.scale)))
        (dqaMul a b) :=
  ⟨dqaAdd_returns ha hb, dqaSub_returns ha hb, dqaMul_returns ha hb⟩

end

/-- A sum, a difference and an overflowing product. -/
theorem dqa_ring_exact_sample :
    let a : Dqa := ⟨15, 1, by decide, by decide⟩
    let b : Dqa := ⟨9223372036854775807, 1, by decide, by decide⟩
    dqaAdd a b = .error (.err .overflow) ∧
      (∃ d, dqaSub b a = .ok d ∧ d.Canonical ∧ d.val = b.val - a.val) ∧
      dqaMul a b = .error (.err .overflow) := by
  intro a b
  have hab := dqa_ring_exact (a := a) (b := b) (by decide) (by decide)
  have hba := dqa_ring_exact (a := b) (b := a) (by decide) (by decide)
  refine ⟨hab.1.overflow (by decide), hba.2.1.ok (by decide), hab.2.2.overflow ?_⟩
  have hprod : a.val * b.val = Scaled.val (a.value * b.value) 2 := val_mul_val _ _ _ _
  rw [hprod, mantissaAt_val_of_le _ (by decide)]
  decide

/-! ## Quotients -/

/-- The exponent `dqa_div` pads the dividend with. -/
def divPower (a b : Dqa) : Nat := max a.scale b.scale + b.scale - a.scale

theorem divPower_eq {a b : Dqa} (ha : a.scale ≤ 18) (hb : b.scale ≤ 18) :
    (max a.scale b.scale + b.scale + (256 - a.scale)) % 256 = divPower a b ∧ divPower a b ≤ 36 := by
  unfold divPower
  omega

/-- The padded dividend over the divisor is the quotient at the result's scale. -/
theorem mantissaAt_quotient {a b : Dqa} (h0 : b.value ≠ 0) :
    mantissaAt (max a.scale b.scale) (a.val / b.val) =
      Rounding.roundHalfEven (((a.value * 10 ^ divPower a b : Int) : ℚ) / b.value) := by
  refine mantissaAt_val_div h0 ?_
  unfold divPower
  omega

/-- The divisor is handed to the rounding without its sign. -/
theorem roundHalfEvenWithRemainder_abs (q r d s : Int) :
    roundHalfEvenWithRemainder q r |d| s = roundHalfEvenWithRemainder q r d s := by
  unfold roundHalfEvenWithRemainder
  simp only [abs_abs]

theorem dqaDiv_eq {a b : Dqa} (ha : a.scale ≤ 18) (hb : b.scale ≤ 18) (h0 : b.value ≠ 0) :
    dqaDiv a b =
      if InI 128 (a.value * 10 ^ divPower a b) then
        finish (mantissaAt (max a.scale b.scale) (a.val / b.val)) (max a.scale b.scale)
      else .error (.err .overflow) := by
  obtain ⟨hpower, hle⟩ := divPower_eq ha hb
  have hsign : sign a.value * sign b.value =
      (a.value * 10 ^ divPower a b).sign * b.value.sign := by
    rw [sign_eq, sign_eq, Int.sign_mul, Int.sign_eq_one_of_pos (ten_pow_pos _), mul_one]
  unfold dqaDiv
  rw [if_neg h0]
  show (index pow10 ((max a.scale b.scale + b.scale + (256 - a.scale)) % 256) >>= _) = _
  rw [hpower, index_pow10 hle, ok_bind]
  refine if_congr Iff.rfl ?_ rfl
  rw [roundHalfEvenWithRemainder_abs, hsign, roundHalfEvenWithRemainder_eq _ h0,
    mantissaAt_quotient h0]

/-- **Quotients are rounded once, half to even.** -/
theorem dqaDiv_exact {a b : Dqa} (ha : a.scale ≤ 18) (hb : b.scale ≤ 18) (h0 : b.value ≠ 0) :
    ((max a.scale b.scale + b.scale + (256 - a.scale)) % 256 = divPower a b ∧
        divPower a b < pow10.length) ∧
      Dqa.Returns
        (InI 128 (a.value * 10 ^ divPower a b) ∧
          InI 64 (mantissaAt (max a.scale b.scale) (a.val / b.val)))
        (Scaled.val (mantissaAt (max a.scale b.scale) (a.val / b.val)) (max a.scale b.scale))
        (dqaDiv a b) := by
  obtain ⟨hpower, hle⟩ := divPower_eq ha hb
  refine ⟨⟨hpower, Nat.lt_succ_of_le hle⟩, ?_⟩
  rw [dqaDiv_eq ha hb h0]
  exact (finish_returns _ (by omega)).guarded _

/-- Five over minus two is a tie. -/
theorem dqaDiv_exact_sample :
    let a : Dqa := ⟨5, 0, by decide, by decide⟩
    let b : Dqa := ⟨-2, 0, by decide, by decide⟩
    divPower a b < pow10.length ∧ ∃ d, dqaDiv a b = .ok d ∧ d.Canonical ∧ d.val = -2 := by
  intro a b
  obtain ⟨⟨-, hindex⟩, hreturns⟩ :=
    dqaDiv_exact (a := a) (b := b) (by decide) (by decide) (by decide)
  have hmantissa : mantissaAt (max a.scale b.scale) (a.val / b.val) = -2 := by
    rw [mantissaAt_quotient (by decide), Rounding.roundHalfEven_eq_iff]
    show Rounding.IsNearestEven (((5 * 10 ^ 0 : Int) : ℚ) / ((-2 : Int) : ℚ)) (-2)
    right
    norm_num [abs_div]
  rw [hmantissa] at hreturns
  obtain ⟨d, hd, hcanon, hval⟩ := hreturns.ok (by decide)
  refine ⟨hindex, d, hd, hcanon, hval.trans ?_⟩
  show ((-2 : Int) : ℚ) / 10 ^ 0 = -2
  norm_num

end CipherOcto.Determin
