import CipherOcto.Determin.AddRounding
import CipherOcto.Determin.Closure

/-!
# Where multiplication and division round correctly

Both operations cut a magnitude to its top 113 bits and drop the rest: what
`round_to_113` is handed never has a bit to round. Their common tail saturates
on the exponent of the odd form alone. `TruncationRounds` says when such a cut
is nevertheless the value rounded to nearest even and clamped:

> `assemble_cut_iff`: the saturated cut is right iff rounding reaches
> `DFP_MAX`; any other cut is right iff it is `DFP_MAX` or the rounding itself.

What is cut is not even the exact magnitude. The product may be short of a
carry (`LostCarry`), and then no cut of it is the rounding
(`rne_product_iff`). The quotient of an exact division is one too small, since
the long division compares strictly (`rne_quotient_iff`): `1 / 1` is not `1`.
Dividing a small mantissa by a large one leaves fewer than 113 bits, and the
dropped ones count.
-/

namespace CipherOcto.Determin

open Machine
open Rounding (rne rne_mono rne_eq_iff rne_eq_mul_iff ulpExp_of_floor isNearestEven_div_iff
  maxFinite_le_rne_iff two_zpow_pos)

/-! ## The conditions on the operands -/

/-- The top 113 bits of `n * 2^e` have, in odd form, an exponent above the maximum. -/
def CutSaturates (n : ℕ) (e : ℤ) : Prop :=
  1023 < e + (bitLen n - 113 : ℕ) + ctz 128 (n / 2 ^ (bitLen n - 113))

instance (n : ℕ) (e : ℤ) : Decidable (CutSaturates n e) := inferInstanceAs (Decidable (_ < _))

/-- The top 113 bits of `n * 2^e` are right for a magnitude `x`: a saturated cut
needs `x` in the reach of `DFP_MAX`, any other one is `DFP_MAX` or is `near`. -/
def TruncationRounds (n : ℕ) (e : ℤ) (x : ℚ) (near : Prop) : Prop :=
  if CutSaturates n e then (2 ^ 114 - 3) * 2 ^ (1023 : ℤ) < 2 * x
  else (cut113 n : ℚ) * 2 ^ e = maxValue ∨ near

/-- Less than half a unit below the top 113 bits, or half a unit below an even one. -/
def NearestCut (n : ℕ) : Prop :=
  2 * (n % 2 ^ (bitLen n - 113)) < 2 ^ (bitLen n - 113) ∨
    2 * (n % 2 ^ (bitLen n - 113)) = 2 ^ (bitLen n - 113) ∧ n / 2 ^ (bitLen n - 113) % 2 = 0

instance (n : ℕ) : Decidable (NearestCut n) := inferInstanceAs (Decidable (_ ∨ _))

/-- The operands on which multiplication rounds correctly. -/
def MulFaithful (a b : Dfp) : Prop :=
  TruncationRounds (storedProduct a.mantissa b.mantissa) (a.exponent + b.exponent)
    |a.value * b.value|
    (¬ LostCarry a.mantissa b.mantissa ∧ NearestCut (a.mantissa * b.mantissa))

/-- The quotient is not exact, and what is dropped of it, below its top 113 bits
or below the last bit computed, is less than half a unit of the 113th place. -/
def NearestQuotient (a b : ℕ) : Prop :=
  ¬ b ∣ a ∧ 2 * 2 ^ (113 - bitLen (strictQuotient a b)) *
    (a * 2 ^ 128 % (b * 2 ^ divScale a b * 2 ^ (bitLen (strictQuotient a b) - 113)))
      < b * 2 ^ divScale a b * 2 ^ (bitLen (strictQuotient a b) - 113)

instance (a b : ℕ) : Decidable (NearestQuotient a b) := inferInstanceAs (Decidable (_ ∧ _))

/-- The operands on which division rounds correctly. -/
def DivFaithful (a b : Dfp) : Prop :=
  TruncationRounds (strictQuotient a.mantissa b.mantissa)
    (a.exponent - b.exponent + ((divScale a.mantissa b.mantissa : ℤ) - 128))
    |a.value / b.value| (NearestQuotient a.mantissa b.mantissa)

/-! ## The cut against the rounding -/

theorem cut113_le (n : ℕ) : cut113 n ≤ n := Nat.div_mul_le_self _ _

theorem cut113_add_mod (n : ℕ) : cut113 n + n % 2 ^ (bitLen n - 113) = n := Nat.div_add_mod' _ _

theorem cut113_value (n : ℕ) (e : ℤ) : (cut113 n : ℚ) * 2 ^ e
    = (n / 2 ^ (bitLen n - 113) : ℕ) * 2 ^ (e + (bitLen n - 113 : ℕ)) := by
  unfold cut113
  rw [zpow_add₀ (by norm_num), zpow_natCast]
  push_cast
  ring

/-- A cut is its own rounding. -/
theorem rne_cut113 {n : ℕ} (hn : n ≠ 0) (e : ℤ) :
    rne 113 (cut113 n * 2 ^ e) = cut113 n * 2 ^ e := by
  rw [cut113_value]
  exact rne_of_lt (topBits_ne_zero (by decide) hn) (topBits_lt 113 n) _

/-- A magnitude of 128 bits without a positive exponent is far below `DFP_MAX`. -/
theorem cut113_lt_maxValue {n : ℕ} {e : ℤ} (hn : n < 2 ^ 128) (he : e ≤ 0) :
    (cut113 n : ℚ) * 2 ^ e < maxValue := by
  have hcut : (cut113 n : ℚ) < 2 ^ (128 : ℤ) := by
    have hlt : ((cut113 n : ℕ) : ℚ) < ((2 ^ 128 : ℕ) : ℚ) :=
      Nat.cast_lt.mpr (lt_of_le_of_lt (cut113_le n) hn)
    norm_num at hlt ⊢
    exact hlt
  have hscale : (2 : ℚ) ^ e ≤ 1 := zpow_le_one_of_nonpos₀ (by norm_num) he
  unfold maxValue
  calc (cut113 n : ℚ) * 2 ^ e ≤ cut113 n * 1 := mul_le_mul_of_nonneg_left hscale (Nat.cast_nonneg _)
    _ = cut113 n := mul_one _
    _ < 2 ^ (128 : ℤ) := hcut
    _ ≤ 2 ^ (1023 : ℤ) := zpow_le_zpow_right₀ (by norm_num) (by norm_num)
    _ ≤ (2 ^ 113 - 1) * 2 ^ (1023 : ℤ) := le_mul_of_one_le_left (two_zpow_pos _).le (by norm_num)

/-- Rounding does not fall below a cut. -/
theorem cut113_le_rne {n : ℕ} (hn : n ≠ 0) {e : ℤ} {x : ℚ} (h : (cut113 n : ℚ) * 2 ^ e ≤ x) :
    (cut113 n : ℚ) * 2 ^ e ≤ rne 113 x := by
  have hpos : (0 : ℚ) < cut113 n * 2 ^ e := by
    rw [cut113_value]
    exact mul_pos (by exact_mod_cast Nat.pos_of_ne_zero (topBits_ne_zero (by decide) hn))
      (two_zpow_pos _)
  rw [← rne_cut113 hn e]
  exact rne_mono (by decide) hpos h

/-- The saturated cut is right iff rounding reaches `DFP_MAX`; any other cut is
right iff it is `DFP_MAX` or the rounding itself. -/
theorem assemble_cut_iff {n : ℕ} {e : ℤ} {x : ℚ} (hn : n ≠ 0) (hx : 0 < x)
    (hle : (cut113 n : ℚ) * 2 ^ e ≤ x) :
    (assemble false (n / 2 ^ (bitLen n - 113)) (e + (bitLen n - 113 : ℕ))).value = roundedSum x ↔
      TruncationRounds n e x (rne 113 x = cut113 n * 2 ^ e) := by
  have htop := topBits_ne_zero (p := 113) (by decide) hn
  have hlt := topBits_lt 113 n
  have hrne := cut113_le_rne hn hle
  rw [roundedSum_of_pos hx]
  unfold TruncationRounds
  split
  · next hsat =>
    have hval : (assemble false (n / 2 ^ (bitLen n - 113)) (e + (bitLen n - 113 : ℕ))).value
        = maxValue := by
      unfold assemble
      rw [if_neg htop, if_pos (show dfpMaxExponent < _ from hsat)]
      exact dfpMax_value
    have hreach : maxValue ≤ rne 113 x ↔ (2 ^ 114 - 3) * 2 ^ (1023 : ℤ) < 2 * x := by
      unfold maxValue
      rw [maxFinite_le_rne_iff (by decide) hx]
      constructor <;> intro h <;> linarith
    rw [hval, ← hreach]
    exact eq_comm.trans min_eq_left_iff
  · next hfits =>
    have hexp : e + (bitLen n - 113 : ℕ) + ctz 128 (n / 2 ^ (bitLen n - 113)) ≤ 1023 :=
      not_lt.mp hfits
    rw [assemble_value_of_le htop hexp, ← cut113_value]
    have hbound : (cut113 n : ℚ) * 2 ^ e ≤ maxValue := by
      rw [cut113_value]
      exact dyadic_le_maxValue htop hlt hexp
    constructor
    · intro h
      rcases le_total maxValue (rne 113 x) with hr | hr
      · exact Or.inl (h.trans (min_eq_left hr))
      · exact Or.inr (h.trans (min_eq_right hr)).symm
    · rintro (h | h)
      · rw [h] at hrne ⊢
        exact (min_eq_left hrne).symm
      · rw [h, min_eq_right hbound]

/-! ## Multiplication -/

theorem double_cast_iff (r k : ℕ) :
    (2 * (r : ℤ) < 2 ^ k ↔ 2 * r < 2 ^ k) ∧ (2 * (r : ℤ) = 2 ^ k ↔ 2 * r = 2 ^ k) := by
  constructor <;> norm_cast

/-- The stored product, cut, is the rounding iff no carry was lost and the cut
of the exact product is. -/
theorem rne_product_iff {a b : ℕ} (ha : a < 2 ^ 113) (hb : b < 2 ^ 113) (hne : a * b ≠ 0) (e : ℤ) :
    rne 113 ((a * b : ℕ) * 2 ^ e) = cut113 (storedProduct a b) * 2 ^ e ↔
      ¬ LostCarry a b ∧ NearestCut (a * b) := by
  have hlt : a * b < 2 ^ 226 := by
    calc a * b < 2 ^ 113 * 2 ^ 113 := Nat.mul_lt_mul'' ha hb
      _ = 2 ^ 226 := by norm_num
  generalize hM : a * b = M at *
  have hlen : bitLen M - 113 ≤ 113 := by
    have := bitLen_le_iff.mpr hlt
    omega
  have hmod : M % 2 ^ (bitLen M - 113) < 2 ^ 113 :=
    lt_of_lt_of_le (Nat.mod_lt _ (Nat.two_pow_pos _)) (Nat.pow_le_pow_right Nat.two_pos hlen)
  have hsum := cut113_add_mod M
  by_cases hlost : LostCarry a b
  · -- short by a carry, hence below what rounding cannot fall below
    refine iff_of_false ?_ (fun h => h.1 hlost)
    have hcut := cut113_le (storedProduct a b)
    have hbig : 2 ^ 128 ≤ M := by
      have heq := mulU128ToU256_toNat (a := a) (b := b) (by omega) (by omega)
      rw [if_pos hlost, hM] at heq
      omega
    have hstored : storedProduct a b + 2 ^ 128 = M := by
      unfold storedProduct
      rw [if_pos hlost, hM]
      omega
    have hbelow : (cut113 (storedProduct a b) : ℚ) * 2 ^ e < cut113 M * 2 ^ e := by
      apply mul_lt_mul_of_pos_right _ (two_zpow_pos e)
      exact_mod_cast show cut113 (storedProduct a b) < cut113 M by omega
    have hrne := cut113_le_rne hne (mul_le_mul_of_nonneg_right
      (Nat.cast_le.mpr (cut113_le M)) (two_zpow_pos e).le)
    exact (hbelow.trans_le hrne).ne'
  · have hstored : storedProduct a b = M := by
      unfold storedProduct
      rw [if_neg hlost, hM, Nat.sub_zero]
    have hdiff : |(M : ℤ) - cut113 M| = (M % 2 ^ (bitLen M - 113) : ℕ) := by
      generalize M % 2 ^ (bitLen M - 113) = r at hsum ⊢
      rw [show (M : ℤ) - cut113 M = r by omega, Nat.abs_cast]
    have hdvd : 2 ^ (bitLen M - 113) ∣ cut113 M := Dvd.intro_left _ rfl
    have htop : cut113 M / 2 ^ (bitLen M - 113) = M / 2 ^ (bitLen M - 113) :=
      Nat.mul_div_cancel _ (Nat.two_pow_pos _)
    rw [hstored, rne_eq_iff e hne hdvd, hdiff, htop]
    unfold NearestCut
    rw [and_iff_right hlost, (double_cast_iff _ _).1, (double_cast_iff _ _).2]

/-! ## Division -/

/-- The division ends without a remainder iff the mantissas divide. -/
theorem scaledDivisor_dvd_iff {a b : ℕ} (ha : a < 2 ^ 113) (hb : b % 2 = 1) :
    b * 2 ^ divScale a b ∣ a * 2 ^ 128 ↔ b ∣ a := by
  constructor
  · intro h
    have hcop : Nat.Coprime b (2 ^ 128) :=
      (Nat.coprime_two_right.mpr (Nat.odd_iff.mpr hb)).pow_right 128
    exact hcop.dvd_of_dvd_mul_right ((Nat.dvd_mul_right _ _).trans h)
  · intro h
    exact Nat.mul_dvd_mul h (Nat.pow_dvd_pow 2 ((divScale_le ha).trans (by decide)))

/-- The strict comparison leaves one less than the quotient when that is exact. -/
theorem strictQuotient_add {a b : ℕ} (ha0 : 0 < a) (ha : a < 2 ^ 113) (hb : b % 2 = 1) :
    a * 2 ^ 128 / (b * 2 ^ divScale a b) = strictQuotient a b + if b ∣ a then 1 else 0 := by
  have hsucc := Nat.succ_div (a := a * 2 ^ 128 - 1) (b := b * 2 ^ divScale a b)
  rw [Nat.sub_add_cancel (by omega)] at hsucc
  rw [hsucc, strictQuotient]
  simp only [scaledDivisor_dvd_iff ha hb]

theorem strictQuotient_ne_zero {a b : ℕ} (ha0 : 0 < a) (ha : a < 2 ^ 113) (hb : 0 < b)
    (hb' : b < 2 ^ 113) : strictQuotient a b ≠ 0 := by
  have hlt : a < b * 2 ^ divScale a b := (lt_mul_two_pow_iff hb _).mpr le_rfl
  have hD := scaledDivisor_lt ha hb hb'
  have hpos : 0 < (a * 2 ^ 128 - 1) / (b * 2 ^ divScale a b) := Nat.div_pos (by omega) (by omega)
  exact hpos.ne'

/-- The exact quotient, in units of the last bit computed. -/
theorem quotient_eq (a : ℕ) {b : ℕ} (hb : 0 < b) (e : ℤ) :
    (a : ℚ) / b * 2 ^ e = (a * 2 ^ 128 : ℕ) / (b * 2 ^ divScale a b : ℕ)
      * 2 ^ (e + ((divScale a b : ℤ) - 128)) := by
  have hb0 : (b : ℚ) ≠ 0 := by exact_mod_cast hb.ne'
  rw [zpow_add₀ (by norm_num), zpow_sub₀ (by norm_num), zpow_natCast,
    show (2 : ℚ) ^ (128 : ℤ) = 2 ^ (128 : ℕ) from zpow_natCast 2 128]
  push_cast
  field_simp
  norm_num

theorem strictQuotient_le (a : ℕ) {b : ℕ} (hb : 0 < b) :
    (strictQuotient a b : ℚ) ≤ (a * 2 ^ 128 : ℕ) / (b * 2 ^ divScale a b : ℕ) := by
  have hD : (0 : ℚ) < (b * 2 ^ divScale a b : ℕ) := by
    exact_mod_cast Nat.mul_pos hb (Nat.two_pow_pos _)
  rw [le_div_iff₀ hD]
  exact_mod_cast (Nat.div_mul_le_self _ _).trans (Nat.sub_le _ _)

/-- An inexact quotient is never half a unit above a cut: the divisor is odd. -/
theorem quotient_no_tie {a b : ℕ} (hb : b % 2 = 1) (hdvd : ¬ b ∣ a) (s k j : ℕ) :
    2 * 2 ^ j * (a * 2 ^ 128 % (b * 2 ^ s * 2 ^ k)) ≠ b * 2 ^ s * 2 ^ k := by
  intro h
  have hcop : ∀ n, Nat.Coprime b (2 ^ n) := fun n =>
    (Nat.coprime_two_right.mpr (Nat.odd_iff.mpr hb)).pow_right n
  have hbD : b ∣ b * 2 ^ s * 2 ^ k := (Nat.dvd_mul_right _ _).trans (Nat.dvd_mul_right _ _)
  have hrem : b ∣ a * 2 ^ 128 % (b * 2 ^ s * 2 ^ k) := by
    have hmul : b ∣ 2 ^ (j + 1) * (a * 2 ^ 128 % (b * 2 ^ s * 2 ^ k)) := by
      rw [pow_succ, mul_comm (2 ^ j), h]
      exact hbD
    exact (hcop _).dvd_of_dvd_mul_left hmul
  have hall : b ∣ a * 2 ^ 128 := (Nat.dvd_mod_iff hbD).mp hrem
  exact hdvd ((hcop 128).dvd_of_dvd_mul_right hall)

/-- The dropped part of an inexact quotient, in units of the 113th place. -/
theorem nearest_quotient_iff {a b : ℕ} (ha0 : 0 < a) (ha : a < 2 ^ 113) (hb : b % 2 = 1)
    (hb' : b < 2 ^ 113) (hdvd : ¬ b ∣ a) (e : ℤ) :
    rne 113 ((a * 2 ^ 128 : ℕ) / (b * 2 ^ divScale a b : ℕ) * 2 ^ e)
        = cut113 (strictQuotient a b) * 2 ^ e ↔ NearestQuotient a b := by
  have hq0 := strictQuotient_ne_zero ha0 ha (by omega) hb'
  have hq := strictQuotient_add ha0 ha hb
  rw [if_neg hdvd, Nat.add_zero] at hq
  have htie := quotient_no_tie hb hdvd (divScale a b) (bitLen (strictQuotient a b) - 113)
    (113 - bitLen (strictQuotient a b))
  have hD : 0 < b * 2 ^ divScale a b := Nat.mul_pos (by omega) (Nat.two_pow_pos _)
  unfold NearestQuotient cut113
  rw [and_iff_right hdvd]
  generalize a * 2 ^ 128 = N at *
  generalize b * 2 ^ divScale a b = D at *
  generalize strictQuotient a b = q at *
  have hDq : (0 : ℚ) < D := by exact_mod_cast hD
  have hlo : (q : ℚ) ≤ N / D := hq ▸ Nat.cast_div_le
  have hhi : (N : ℚ) / D < q + 1 := by
    rw [div_lt_iff₀ hDq, mul_comm]
    exact_mod_cast hq ▸ Nat.lt_mul_div_succ N hD
  have hulp := ulpExp_of_floor 113 e hq0 hlo hhi
  generalize hk : bitLen q - 113 = k at htie ⊢
  generalize hj : 113 - bitLen q = j at htie ⊢
  -- one unit of the 113th place is `2^k / 2^j` of the last bit computed
  have hunit : (2 : ℚ) ^ ((bitLen q : ℤ) - (113 : ℕ) + e) = 2 ^ k / 2 ^ j * 2 ^ e := by
    rw [show (bitLen q : ℤ) - (113 : ℕ) = (k : ℤ) - j by omega, zpow_add₀ (by norm_num),
      zpow_sub₀ (by norm_num), zpow_natCast, zpow_natCast]
  have htop : q / 2 ^ k = N / (D * 2 ^ k) := by rw [← hq, Nat.div_div_eq_div_mul]
  have hsplit := Nat.div_add_mod N (D * 2 ^ k)
  rw [← htop] at hsplit
  generalize q / 2 ^ k = t at *
  generalize N % (D * 2 ^ k) = r at *
  have hcut : ((t * 2 ^ k : ℕ) : ℚ) * 2 ^ e
      = ((t * 2 ^ j : ℕ) : ℤ) * 2 ^ ((bitLen q : ℤ) - (113 : ℕ) + e) := by
    rw [hunit]
    push_cast
    field_simp
  have hquot : (N : ℚ) / D * 2 ^ e / 2 ^ ((bitLen q : ℤ) - (113 : ℕ) + e)
      = ((N * 2 ^ j : ℕ) : ℤ) / ((D * 2 ^ k : ℕ) : ℤ) := by
    have he := (two_zpow_pos e).ne'
    rw [hunit]
    push_cast
    field_simp
  have hrest : ((N * 2 ^ j : ℕ) : ℤ) - ((t * 2 ^ j : ℕ) : ℤ) * ((D * 2 ^ k : ℕ) : ℤ)
      = (2 ^ j * r : ℕ) := by
    rw [← hsplit]
    push_cast
    ring
  have hden : ((D * 2 ^ k : ℕ) : ℤ) ≠ 0 := by
    exact_mod_cast (Nat.mul_pos hD (Nat.two_pow_pos k)).ne'
  rw [hcut, rne_eq_mul_iff hulp, hquot, isNearestEven_div_iff hden, hrest, Nat.abs_cast,
    Nat.abs_cast, mul_assoc]
  constructor
  · rintro (h | ⟨h, -⟩)
    · exact_mod_cast h
    · exact absurd (by rw [mul_assoc]; exact_mod_cast h) htie
  · intro h
    exact Or.inl (by exact_mod_cast h)

/-- What the long division leaves, cut, is the rounding iff it is the nearest quotient. -/
theorem rne_quotient_iff {a b : ℕ} (ha0 : 0 < a) (ha : a < 2 ^ 113) (hb : b % 2 = 1)
    (hb' : b < 2 ^ 113) (e : ℤ) :
    rne 113 ((a : ℚ) / b * 2 ^ e)
        = cut113 (strictQuotient a b) * 2 ^ (e + ((divScale a b : ℤ) - 128)) ↔
      NearestQuotient a b := by
  by_cases hdvd : b ∣ a
  · -- an exact quotient is its own rounding, and what is left of it is smaller
    refine iff_of_false ?_ (fun h => h.1 hdvd)
    have hq := strictQuotient_add ha0 ha hb
    rw [if_pos hdvd] at hq
    have hcut := cut113_le (strictQuotient a b)
    have hbelow : (cut113 (strictQuotient a b) : ℚ)
        < (a * 2 ^ 128 : ℕ) / (b * 2 ^ divScale a b : ℕ) := by
      have hle : ((strictQuotient a b + 1 : ℕ) : ℚ)
          ≤ (a * 2 ^ 128 : ℕ) / (b * 2 ^ divScale a b : ℕ) := hq ▸ Nat.cast_div_le
      have hlt : ((cut113 (strictQuotient a b) : ℕ) : ℚ) < (strictQuotient a b + 1 : ℕ) :=
        Nat.cast_lt.mpr (by omega)
      exact hlt.trans_le hle
    have hexact : rne 113 ((a : ℚ) / b * 2 ^ e) = a / b * 2 ^ e := by
      obtain ⟨c, rfl⟩ := hdvd
      have hc0 : c ≠ 0 := by
        rintro rfl
        omega
      have hc : c < 2 ^ 113 := lt_of_le_of_lt (Nat.le_mul_of_pos_left c (by omega)) ha
      have hb0 : (b : ℚ) ≠ 0 := by exact_mod_cast show b ≠ 0 by omega
      rw [Nat.cast_mul, mul_div_cancel_left₀ _ hb0, rne_of_lt hc0 hc]
    rw [hexact, quotient_eq a (by omega)]
    exact (mul_lt_mul_of_pos_right hbelow (two_zpow_pos _)).ne'
  · rw [quotient_eq a (by omega)]
    exact nearest_quotient_iff ha0 ha hb hb' hdvd _

/-! ## The operations -/

theorem abs_signed {x : ℚ} (hx : 0 < x) (sign : Bool) : |if sign then -x else x| = x := by
  split
  · rw [abs_neg, abs_of_pos hx]
  · exact abs_of_pos hx

theorem abs_roundedSum (x : ℚ) : |roundedSum x| = min maxValue |rne 113 x| := by
  have hpos := maxValue_pos
  unfold roundedSum
  rcases le_total 0 (rne 113 x) with h | h
  · rw [max_eq_right (by linarith [le_min hpos.le h]), abs_of_nonneg (le_min hpos.le h),
      abs_of_nonneg h]
  · rw [min_eq_right (h.trans hpos.le), abs_of_nonpos (max_le (by linarith) h), abs_of_nonpos h,
      ← min_neg_neg, neg_neg]

/-- The clamp does nothing in range. -/
theorem roundedSum_of_abs_le {x : ℚ} (h : |rne 113 x| ≤ maxValue) : roundedSum x = rne 113 x := by
  obtain ⟨hlo, hhi⟩ := abs_le.mp h
  unfold roundedSum
  rw [min_eq_right hhi, max_eq_right hlo]

theorem abs_saturated (sign : Bool) : |(saturated sign).value| = maxValue := by
  have hmin : dfpMin.value = -dfpMax.value := Dfp.flip_value dfpMax
  cases sign with
  | false => rw [show saturated false = dfpMax from rfl, dfpMax_value, abs_of_pos maxValue_pos]
  | true => rw [show saturated true = dfpMin from rfl, hmin, abs_neg, dfpMax_value,
      abs_of_pos maxValue_pos]

theorem abs_assemble_le {n : ℕ} (sign : Bool) (e : ℤ) (hlt : n < 2 ^ 113) :
    |(assemble sign n e).value| ≤ maxValue := by
  have hpos : |(assemble false n e).value| ≤ maxValue := by
    by_cases hn : n = 0
    · rw [hn, show assemble false 0 e = Dfp.zero from rfl, Dfp.value_zero rfl, abs_zero]
      exact maxValue_pos.le
    rw [abs_of_pos (assemble_value_pos e hn)]
    by_cases h : e + ctz 128 n ≤ 1023
    · rw [assemble_value_of_le hn h]
      exact dyadic_le_maxValue hn hlt h
    · unfold assemble
      rw [if_neg hn, if_pos (show dfpMaxExponent < _ from not_le.mp h)]
      exact dfpMax_value.le
  cases sign with
  | false => exact hpos
  | true => rwa [assemble_value_neg, abs_neg]

section
variable {a b : Dfp} (ha : a.CanonicalNormal) (hb : b.CanonicalNormal)
include ha hb

theorem value_mul_eq : a.value * b.value = if a.sign ^^ b.sign then
    -((a.mantissa * b.mantissa : ℕ) * 2 ^ (a.exponent + b.exponent) : ℚ)
    else (a.mantissa * b.mantissa : ℕ) * 2 ^ (a.exponent + b.exponent) := by
  rw [value_of_normal ha.cls, value_of_normal hb.cls, zpow_add₀ (by norm_num), Nat.cast_mul]
  cases a.sign <;> cases b.sign <;> simp <;> ring

theorem value_div_eq : a.value / b.value = if a.sign ^^ b.sign then
    -((a.mantissa : ℚ) / b.mantissa * 2 ^ (a.exponent - b.exponent))
    else (a.mantissa : ℚ) / b.mantissa * 2 ^ (a.exponent - b.exponent) := by
  rw [value_of_normal ha.cls, value_of_normal hb.cls, zpow_sub₀ (by norm_num)]
  cases a.sign <;> cases b.sign <;> simp [neg_div, div_neg] <;> ring

theorem storedProduct_ne_zero : storedProduct a.mantissa b.mantissa ≠ 0 := by
  have hodd : a.mantissa * b.mantissa % 2 = 1 := by
    rw [Nat.mul_mod, ha.odd, hb.odd]
  have hlt := ha.wellTyped.1
  have hlt' := hb.wellTyped.1
  have heq := mulU128ToU256_toNat hlt hlt'
  rw [mulU128ToU256_toNat_eq hlt hlt'] at heq
  split at heq <;> omega

theorem dfpMul_value_iff :
    (dfpMul a b).val.value = roundedSum (a.value * b.value) ↔ MulFaithful a b := by
  have hodd : a.mantissa * b.mantissa % 2 = 1 := by
    rw [Nat.mul_mod, ha.odd, hb.odd]
  have hM : a.mantissa * b.mantissa ≠ 0 := by omega
  have hx : (0 : ℚ) < (a.mantissa * b.mantissa : ℕ) * 2 ^ (a.exponent + b.exponent) :=
    mul_pos (by exact_mod_cast Nat.pos_of_ne_zero hM) (two_zpow_pos _)
  have hle : cut113 (storedProduct a.mantissa b.mantissa) ≤ a.mantissa * b.mantissa :=
    (cut113_le _).trans (Nat.sub_le _ _)
  rw [dfpMul_normal ha hb, Tracked.val_pure]
  unfold MulFaithful
  rw [value_mul_eq ha hb, assemble_signed_iff, abs_signed hx,
    assemble_cut_iff (storedProduct_ne_zero ha hb) hx (mul_le_mul_of_nonneg_right
      (Nat.cast_le.mpr hle) (two_zpow_pos _).le), rne_product_iff ha.lt hb.lt hM]

theorem dfpDiv_value_iff :
    (dfpDiv a b).val.value = roundedSum (a.value / b.value) ↔ DivFaithful a b := by
  have ha0 := ha.odd
  have hb0 := hb.odd
  have hx : (0 : ℚ) < (a.mantissa : ℚ) / b.mantissa * 2 ^ (a.exponent - b.exponent) :=
    mul_pos (div_pos (by exact_mod_cast show 0 < a.mantissa by omega)
      (by exact_mod_cast show 0 < b.mantissa by omega)) (two_zpow_pos _)
  have hle : (cut113 (strictQuotient a.mantissa b.mantissa) : ℚ)
      * 2 ^ (a.exponent - b.exponent + ((divScale a.mantissa b.mantissa : ℤ) - 128))
      ≤ (a.mantissa : ℚ) / b.mantissa * 2 ^ (a.exponent - b.exponent) := by
    rw [quotient_eq a.mantissa (by omega)]
    exact mul_le_mul_of_nonneg_right ((Nat.cast_le.mpr (cut113_le _)).trans
      (strictQuotient_le a.mantissa (by omega))) (two_zpow_pos _).le
  rw [dfpDiv_normal ha hb, Tracked.val_pure]
  unfold DivFaithful
  rw [value_div_eq ha hb, assemble_signed_iff, abs_signed hx,
    assemble_cut_iff (strictQuotient_ne_zero (by omega) ha.lt (by omega) hb.lt) hx hle,
    rne_quotient_iff (by omega) ha.lt hb0 hb.lt]

/-- No result lies outside `DFP_MIN` to `DFP_MAX`. -/
theorem abs_dfpDiv_le : |(dfpDiv a b).val.value| ≤ maxValue := by
  have ha0 := ha.odd
  have hb0 := hb.odd
  rw [dfpDiv_normal ha hb, Tracked.val_pure]
  exact abs_assemble_le _ _ (topBits_lt 113 _)

end

/-- Multiplication as it should be: the product rounded to nearest even and
clamped; hence exact below `2^113`, and saturated only where rounding reaches `DFP_MAX`. -/
structure MulCorrect (a b : Dfp) : Prop where
  ovf : (dfpMul a b).ovf = false
  rounds : (dfpMul a b).val.value = roundedSum (a.value * b.value)
  exact : a.mantissa * b.mantissa < 2 ^ 113 → |a.value * b.value| ≤ maxValue →
    (dfpMul a b).val.value = a.value * b.value
  saturates : (dfpMul a b).val = saturated (a.sign ^^ b.sign) →
    maxValue ≤ |rne 113 (a.value * b.value)|

/-- **When a product is the rounded exact product.** -/
theorem dfpMul_correct_iff {a b : Dfp} (ha : a.CanonicalNormal) (hb : b.CanonicalNormal) :
    MulCorrect a b ↔ MulFaithful a b := by
  constructor
  · intro h
    exact (dfpMul_value_iff ha hb).mp h.rounds
  · intro h
    have hval := (dfpMul_value_iff ha hb).mpr h
    refine ⟨by rw [dfpMul_normal ha hb]; rfl, hval, ?_, ?_⟩
    · intro hlt habs
      have hodd : a.mantissa * b.mantissa % 2 = 1 := by
        rw [Nat.mul_mod, ha.odd, hb.odd]
      have hself : rne 113 (a.value * b.value) = a.value * b.value := by
        rw [value_mul_eq ha hb]
        split
        · rw [Rounding.rne_neg, rne_of_lt (by omega) hlt]
        · exact rne_of_lt (by omega) hlt _
      rw [hval, roundedSum_of_abs_le (by rwa [hself]), hself]
    · intro hsat
      rw [hsat] at hval
      have habs := abs_roundedSum (a.value * b.value)
      rw [← hval, abs_saturated] at habs
      exact min_eq_left_iff.mp habs.symm

/-- Three times five. -/
theorem dfpMul_correct_fifteen :
    MulCorrect ⟨3, 0, .normal, false⟩ ⟨5, 0, .normal, false⟩ := by
  refine (dfpMul_correct_iff ⟨rfl, by decide, by decide, by decide, by decide⟩
    ⟨rfl, by decide, by decide, by decide, by decide⟩).mpr ?_
  unfold MulFaithful TruncationRounds
  rw [if_neg (by decide)]
  exact Or.inr ⟨by decide, by decide⟩

/-- `(2^112 + 1) * 3` ends in half a unit above an odd mantissa, and is cut. -/
theorem odd_tie_cut :
    ¬ ∀ a b : Dfp, a.CanonicalNormal → b.CanonicalNormal → MulCorrect a b := by
  intro h
  have ha : Dfp.CanonicalNormal ⟨2 ^ 112 + 1, 0, .normal, false⟩ :=
    ⟨rfl, by decide, by decide, by decide, by decide⟩
  have hb : Dfp.CanonicalNormal ⟨3, 0, .normal, false⟩ :=
    ⟨rfl, by decide, by decide, by decide, by decide⟩
  have hcond := (dfpMul_value_iff ha hb).mp (h _ _ ha hb).rounds
  unfold MulFaithful TruncationRounds at hcond
  rw [if_neg (by decide)] at hcond
  rcases hcond with hmax | hnear
  · exact absurd hmax (cut113_lt_maxValue (by decide) (by decide)).ne
  · exact absurd hnear.2 (by decide)

/-- Division as it should be: exact where the quotient is representable, and
otherwise the quotient rounded to nearest even and clamped. -/
structure DivCorrect (a b : Dfp) : Prop where
  ovf : (dfpDiv a b).ovf = false
  exact : Representable (a.value / b.value) → (dfpDiv a b).val.value = a.value / b.value
  rounds : (dfpDiv a b).val.value = roundedSum (a.value / b.value)

/-- **When a quotient is the rounded exact quotient**, clamped or not. -/
theorem dfpDiv_correct_iff {a b : Dfp} (ha : a.CanonicalNormal) (hb : b.CanonicalNormal) :
    (DivCorrect a b ↔ DivFaithful a b) ∧
      ((dfpDiv a b).val.value = rne 113 (a.value / b.value) ↔
        DivFaithful a b ∧ |rne 113 (a.value / b.value)| ≤ maxValue) := by
  constructor
  · constructor
    · intro h
      exact (dfpDiv_value_iff ha hb).mp h.rounds
    · intro h
      have hval := (dfpDiv_value_iff ha hb).mpr h
      refine ⟨by rw [dfpDiv_normal ha hb]; rfl, fun hrep => ?_, hval⟩
      rw [hval, roundedSum_of_representable hrep]
  · rw [← dfpDiv_value_iff ha hb]
    constructor
    · intro h
      have habs : |rne 113 (a.value / b.value)| ≤ maxValue := h ▸ abs_dfpDiv_le ha hb
      exact ⟨h.trans (roundedSum_of_abs_le habs).symm, habs⟩
    · intro h
      rw [h.1, roundedSum_of_abs_le h.2]

/-- One third. -/
theorem dfpDiv_correct_third :
    DivCorrect ⟨1, 0, .normal, false⟩ ⟨3, 0, .normal, false⟩ := by
  refine (dfpDiv_correct_iff ⟨rfl, by decide, by decide, by decide, by decide⟩
    ⟨rfl, by decide, by decide, by decide, by decide⟩).1.mpr ?_
  unfold DivFaithful TruncationRounds
  rw [if_neg (by decide)]
  exact Or.inr (by decide)

/-- One divided by one falls one unit of the 113th place short. -/
theorem one_div_one_short :
    ¬ ∀ a b : Dfp, a.CanonicalNormal → b.CanonicalNormal → Representable (a.value / b.value) →
      (dfpDiv a b).val.value = a.value / b.value := by
  intro h
  have hone : Dfp.CanonicalNormal ⟨1, 0, .normal, false⟩ :=
    ⟨rfl, by decide, by decide, by decide, by decide⟩
  have hrep : Representable (Dfp.value ⟨1, 0, .normal, false⟩ / Dfp.value ⟨1, 0, .normal, false⟩) :=
    Or.inr ⟨1, 0, by norm_num, by norm_num, by norm_num [dfpMinExponent],
      by norm_num [dfpMaxExponent], by norm_num [Dfp.value]⟩
  have hval := h _ _ hone hone hrep
  rw [← roundedSum_of_representable hrep, dfpDiv_value_iff hone hone] at hval
  unfold DivFaithful TruncationRounds at hval
  rw [if_neg (by decide)] at hval
  rcases hval with hmax | hnear
  · exact absurd hmax (cut113_lt_maxValue (by decide) (by decide)).ne
  · exact absurd hnear (by decide)

end CipherOcto.Determin
