import CipherOcto.Determin.DecimalExact
import CipherOcto.Lib.Newton

/-!
# What `decimal_sqrt` returns

The radicand is the mantissa at twice the result scale, at least `10^12` and
below `10^78`. Newton's iteration starts between the root and its double, so
nine of its forty steps bring it to the root or one more (`Newton.newton_near`),
where the rest of them leave it, and the correction at the end decides.

> `decimalSqrt_exact`: the result is the floor of the exact root.
-/

namespace CipherOcto.Determin

open Machine
open Newton (newtonStep newton_near guess_bounds precision two_mul_precision)

/-! ## The loop -/

/-- The loop is the iteration; its test for zero changes nothing. -/
theorem newtonLoop_natCast (n : Nat) : ∀ k x : Nat,
    newtonLoop n k x = ((newtonStep n)^[k] x : Nat)
  | 0, x => rfl
  | k + 1, x => by
    have hstep : ((x : Int) + (n : Int).tdiv x) / 2 = newtonStep n x := by
      rw [Int.tdiv_eq_ediv_of_nonneg (Int.natCast_nonneg n)]
      unfold newtonStep
      push_cast
      rfl
    unfold newtonLoop
    by_cases h0 : x = 0
    · subst h0
      rw [if_pos Nat.cast_zero, Function.iterate_fixed (by simp [newtonStep])]
    · rw [if_neg (Int.natCast_ne_zero.mpr h0), hstep, newtonLoop_natCast n k,
        Function.iterate_succ_apply]

/-- **Forty steps and a correction find the floor of the root.** -/
theorem sqrtRoot_natCast {n : Nat} (hs : 4 ≤ n.sqrt) (hlt : n < 2 ^ 192 * 2 ^ 192) : sqrtRoot n = n.sqrt := by
  have hn : n ≠ 0 := by
    rintro rfl
    simp at hs
  obtain ⟨hlo, hhi⟩ := guess_bounds hn
  have hprecision : n.sqrt < precision 7 := by
    have hroot : n.sqrt < 2 ^ 192 := Nat.sqrt_lt.mpr hlt
    have htwo : 2 * 2 ^ 192 ≤ 2 * precision 7 := by
      rw [two_mul_precision, ← pow_succ']
      exact Nat.pow_le_pow_right (by norm_num) (by norm_num)
    omega
  obtain ⟨hge, hle⟩ := newton_near hs hlo hhi hprecision (j := 40) (by norm_num)
  unfold sqrtRoot
  have hguess : (2 : Int) ^ ((bitLen (n : Int).natAbs + 1) / 2)
      = ((2 ^ ((bitLen n + 1) / 2) : Nat) : Int) := by
    rw [Int.natAbs_natCast]
    push_cast
    rfl
  rw [hguess, newtonLoop_natCast]
  generalize (newtonStep n)^[40] (2 ^ ((bitLen n + 1) / 2)) = x at hge hle
  dsimp only
  rcases hge.eq_or_lt with heq | hgt
  · have hsq : ((x * x : Nat) : Int) ≤ n := Int.ofNat_le.mpr (heq ▸ Nat.sqrt_le n)
    rw [Nat.cast_mul] at hsq
    rw [if_neg (not_lt.mpr hsq), heq]
  · have hx : x = n.sqrt + 1 := by omega
    have hsq : (n : Int) < ((x * x : Nat) : Int) := Int.ofNat_lt.mpr (hx ▸ Nat.lt_succ_sqrt n)
    rw [Nat.cast_mul] at hsq
    rw [if_pos hsq, hx]
    push_cast
    exact add_sub_cancel_right _ _

/-! ## The result -/

/-- The radicand: the mantissa at twice the result scale. -/
theorem sqrtRadicand_eq {a : Decimal} (ha : a.Valid) :
    sqrtRadicand a = .ok (a.mantissa * 10 ^ (2 * min 36 (a.scale + 6) - a.scale)) := by
  have hsa : a.scale ≤ 36 := ha.scale_le
  have hdiff : 2 * (sqrtScale a : Int) - a.scale
      = (2 * min 36 (a.scale + 6) - a.scale : Nat) := by
    unfold sqrtScale maxDecimalScale
    omega
  unfold sqrtRadicand
  rw [hdiff]
  generalize hk : 2 * min 36 (a.scale + 6) - a.scale = k
  by_cases hbig : 36 < k
  · have hlo : ((k : Int) - 36).toNat = k - 36 := by omega
    rw [if_pos (by omega), hlo, index_pow10 (by omega), ok_bind, index_pow10 le_rfl, ok_bind,
      mul_assoc, ← pow_add, Nat.sub_add_cancel hbig.le]
  · rw [if_neg (by omega), if_pos (Int.natCast_nonneg k), Int.toNat_natCast,
      index_pow10 (not_lt.mp hbig), ok_bind]

/-- The radicand is in the range where the iteration converges in time. -/
theorem sqrtRadicand_bounds {a : Decimal} (ha : a.Valid) (h : 0 < a.mantissa) :
    4 ≤ (a.mantissa.toNat * 10 ^ (2 * min 36 (a.scale + 6) - a.scale)).sqrt ∧
      a.mantissa.toNat * 10 ^ (2 * min 36 (a.scale + 6) - a.scale)
        < 2 ^ 192 * 2 ^ 192 := by
  have hsa : a.scale ≤ 36 := ha.scale_le
  have hm := ha.mantissa_le
  rw [abs_of_pos h, maxDecimalMantissa_eq] at hm
  have hlow : 10 ^ 2 ≤ 10 ^ (2 * min 36 (a.scale + 6) - a.scale) :=
    Nat.pow_le_pow_right (by norm_num) (by omega)
  have hhigh : 10 ^ (2 * min 36 (a.scale + 6) - a.scale) ≤ 10 ^ 42 :=
    Nat.pow_le_pow_right (by norm_num) (by omega)
  generalize 10 ^ (2 * min 36 (a.scale + 6) - a.scale) = p at hlow hhigh
  constructor
  · rw [Nat.le_sqrt]
    calc 4 * 4 ≤ 1 * p := by omega
      _ ≤ a.mantissa.toNat * p := Nat.mul_le_mul_right p (by omega)
  · calc a.mantissa.toNat * p ≤ 10 ^ 36 * 10 ^ 42 := Nat.mul_le_mul (by omega) hhigh
      _ < 2 ^ 192 * 2 ^ 192 := by norm_num

/-- **The square root is rounded down, once.** -/
theorem decimalSqrt_exact {a : Decimal} (ha : a.Valid) (h : 0 ≤ a.mantissa) :
    decimalSqrt a =
      if ((a.mantissa.toNat * 10 ^ (2 * min 36 (a.scale + 6) - a.scale)).sqrt : Int)
          ≤ maxDecimalMantissa then
        .ok (Decimal.canonicalize
          ⟨(a.mantissa.toNat * 10 ^ (2 * min 36 (a.scale + 6) - a.scale)).sqrt,
            min 36 (a.scale + 6)⟩)
      else .error (.err .overflow) := by
  have hscale : sqrtScale a = min 36 (a.scale + 6) := min_comm _ _
  have hT : min 36 (a.scale + 6) ≤ 36 := min_le_left _ _
  unfold decimalSqrt
  rw [if_neg (not_lt.mpr h)]
  rcases h.eq_or_lt with h0 | hpos
  · rw [if_pos h0.symm, ← h0, Int.toNat_zero, Nat.zero_mul, Nat.sqrt_zero, if_pos (by decide)]
    rfl
  · have hcast : a.mantissa * 10 ^ (2 * min 36 (a.scale + 6) - a.scale)
        = ((a.mantissa.toNat * 10 ^ (2 * min 36 (a.scale + 6) - a.scale) : Nat) : Int) := by
      push_cast
      rw [Int.toNat_of_nonneg h]
    obtain ⟨hlow, hhigh⟩ := sqrtRadicand_bounds ha hpos
    rw [if_neg hpos.ne', sqrtRadicand_eq ha, ok_bind, hcast, sqrtRoot_natCast hlow hhigh, hscale]
    generalize (a.mantissa.toNat * 10 ^ (2 * min 36 (a.scale + 6) - a.scale)).sqrt = root
    by_cases hle : (root : Int) ≤ maxDecimalMantissa
    · have habs : |(root : Int)| ≤ maxDecimalMantissa := by rwa [Nat.abs_cast]
      rw [if_pos hle, if_neg (not_lt.mpr hle), bigToI128_of_inI (inI128_of_le habs), ok_bind,
        new_of_stripped_le hT (canonicalize_mantissa_le habs _)]
    · rw [if_neg hle, if_pos (not_le.mp hle)]

/-- The root of two, and one past the range. -/
theorem decimalSqrt_exact_sample :
    decimalSqrt ⟨2, 0⟩ = .ok ⟨1414213, 6⟩ ∧
      decimalSqrt ⟨10 ^ 30 + 1, 30⟩ = .error (.err .overflow) := by
  constructor
  · rw [decimalSqrt_exact (by decide) (by decide)]
    have hroot : ((2 : Int).toNat * 10 ^ (2 * min 36 (0 + 6) - 0)).sqrt = 1414213 :=
      (Nat.eq_sqrt.mpr (by decide)).symm
    rw [hroot]
    decide +kernel
  · rw [decimalSqrt_exact (by decide) (by decide)]
    have hroot : ((10 ^ 30 + 1 : Int).toNat * 10 ^ (2 * min 36 (30 + 6) - 30)).sqrt
        = 10 ^ 36 + 499999 :=
      (Nat.eq_sqrt.mpr (by decide)).symm
    rw [hroot]
    decide

end CipherOcto.Determin
