import CipherOcto.Lib.Rounding

/-!
# Scaled decimals

A pair `(m, s)` of an integer and a natural number stands for `m * 10^-s`.
The same number has one pair for each way of padding it with zeros, so a
wire format or a hash needs a representative: the one with no strippable zero
(`Canonical`). The facts here are about that representative:

> `canon_canonical`: stripping reaches it.
> `Canonical.unique`: it is determined by the number alone.
> `canon_mul_pow`: padding first makes no difference.

`mantissaAt` is the companion for rounding: the mantissa a decimal has at a
given scale depends on the number only, not on the scale it came from.
-/

namespace Scaled

open Rounding

/-- The number `m * 10^-s`. -/
def val (m : Int) (s : Nat) : ℚ := m / 10 ^ s

/-- Drop trailing decimal zeros for as long as the scale is positive. -/
def strip : Int → Nat → Int × Nat
  | m, 0 => (m, 0)
  | m, s + 1 => if m.tmod 10 = 0 then strip (m.tdiv 10) s else (m, s + 1)

/-- The stripped pair, with `(0, 0)` for zero. -/
def canon (m : Int) (s : Nat) : Int × Nat := if m = 0 then (0, 0) else strip m s

/-- Nothing left to strip, and zero has scale zero. -/
structure Canonical (m : Int) (s : Nat) : Prop where
  zero : m = 0 → s = 0
  reduced : 0 < s → ¬ (10 : Int) ∣ m

instance (m : Int) (s : Nat) : Decidable (Canonical m s) :=
  decidable_of_iff ((m = 0 → s = 0) ∧ (0 < s → ¬ (10 : Int) ∣ m))
    ⟨fun h => ⟨h.1, h.2⟩, fun h => ⟨h.zero, h.reduced⟩⟩

theorem ten_pow_ne_zero (s : Nat) : (10 : Int) ^ s ≠ 0 := pow_ne_zero s (by norm_num)

theorem ten_pow_pos (s : Nat) : (0 : Int) < 10 ^ s := pow_pos (by norm_num) s

theorem val_eq_iff (m n : Int) (s t : Nat) : val m s = val n t ↔ m * 10 ^ t = n * 10 ^ s := by
  have hs : (10 : ℚ) ^ s ≠ 0 := pow_ne_zero s (by norm_num)
  have ht : (10 : ℚ) ^ t ≠ 0 := pow_ne_zero t (by norm_num)
  unfold val
  rw [div_eq_div_iff hs ht]
  exact_mod_cast Iff.rfl

theorem val_le_iff (m n : Int) (s t : Nat) : val m s ≤ val n t ↔ m * 10 ^ t ≤ n * 10 ^ s := by
  have hs : (0 : ℚ) < 10 ^ s := pow_pos (by norm_num) s
  have ht : (0 : ℚ) < 10 ^ t := pow_pos (by norm_num) t
  unfold val
  rw [div_le_div_iff₀ hs ht]
  exact_mod_cast Iff.rfl

/-- Comparing two pairs needs only the power between their scales. -/
theorem val_le_iff_aligned (m n : Int) (s t : Nat) :
    val m s ≤ val n t ↔ m * 10 ^ (t - s) ≤ n * 10 ^ (s - t) := by
  rw [val_le_iff]
  have hsplit : (10 : Int) ^ t = 10 ^ (t - s) * 10 ^ min s t ∧
      (10 : Int) ^ s = 10 ^ (s - t) * 10 ^ min s t := by
    rw [← pow_add, ← pow_add]
    exact ⟨congrArg _ (by omega), congrArg _ (by omega)⟩
  rw [hsplit.1, hsplit.2, ← mul_assoc, ← mul_assoc]
  exact mul_le_mul_iff_of_pos_right (ten_pow_pos _)

theorem val_mul_pow (m : Int) (s k : Nat) : val (m * 10 ^ k) (s + k) = val m s := by
  rw [val_eq_iff, pow_add]
  ring

theorem val_mul_val (m n : Int) (s t : Nat) : val m s * val n t = val (m * n) (s + t) := by
  unfold val
  push_cast
  rw [pow_add, div_mul_div_comm]

theorem val_right_inj {m n : Int} {s : Nat} : val m s = val n s ↔ m = n := by
  rw [val_eq_iff]
  exact mul_left_inj' (ten_pow_ne_zero s)

theorem val_zero (s : Nat) : val 0 s = 0 := by
  unfold val
  rw [Int.cast_zero, zero_div]

theorem val_sum {ι : Type} (t : Finset ι) (f : ι → Int) (s : Nat) :
    val (∑ i ∈ t, f i) s = ∑ i ∈ t, val (f i) s := by
  unfold val
  rw [Int.cast_sum, Finset.sum_div]

/-- Stripping takes off `k` digits, all of them zeros, and stops at a digit
that is not. -/
theorem strip_spec : ∀ (s : Nat) (m : Int), ∃ k, s = (strip m s).2 + k ∧
    m = (strip m s).1 * 10 ^ k ∧ (0 < (strip m s).2 → ¬ (10 : Int) ∣ (strip m s).1)
  | 0, m => ⟨0, rfl, by simp [strip], fun h => absurd h (Nat.lt_irrefl 0)⟩
  | s + 1, m => by
    unfold strip
    split
    next h =>
      -- one zero comes off here, the others in the recursive call
      obtain ⟨k, hs, hm, hred⟩ := strip_spec s (m.tdiv 10)
      have hdvd : m.tdiv 10 * 10 = m := Int.tdiv_mul_cancel (Int.dvd_of_tmod_eq_zero h)
      refine ⟨k + 1, by omega, ?_, hred⟩
      rw [pow_succ, ← mul_assoc, ← hm, hdvd]
    next h =>
      refine ⟨0, rfl, by rw [pow_zero, mul_one], fun _ hdvd => h ?_⟩
      exact Int.tmod_eq_zero_of_dvd hdvd

theorem canon_spec (m : Int) (s : Nat) :
    ∃ k, s = (canon m s).2 + k ∧ m = (canon m s).1 * 10 ^ k := by
  unfold canon
  split
  next h => exact ⟨s, (Nat.zero_add s).symm, by rw [h, zero_mul]⟩
  next => exact (strip_spec s m).imp fun k h => ⟨h.1, h.2.1⟩

theorem canon_canonical (m : Int) (s : Nat) : Canonical (canon m s).1 (canon m s).2 := by
  unfold canon
  split
  next => exact ⟨fun _ => rfl, fun h => absurd h (Nat.lt_irrefl 0)⟩
  next h =>
    obtain ⟨k, -, hm, hred⟩ := strip_spec s m
    refine ⟨fun h0 => absurd ?_ h, hred⟩
    rw [hm, h0, zero_mul]

theorem val_canon (m : Int) (s : Nat) : val (canon m s).1 (canon m s).2 = val m s := by
  obtain ⟨k, hs, hm⟩ := canon_spec m s
  calc val (canon m s).1 (canon m s).2
      = val ((canon m s).1 * 10 ^ k) ((canon m s).2 + k) := (val_mul_pow _ _ k).symm
    _ = val m s := by rw [← hs, ← hm]

theorem canon_scale_le (m : Int) (s : Nat) : (canon m s).2 ≤ s := by
  obtain ⟨k, hs, -⟩ := canon_spec m s
  omega

theorem abs_le_abs_mul_pow (m : Int) (k : Nat) : |m| ≤ |m * 10 ^ k| := by
  rw [abs_mul, abs_of_pos (ten_pow_pos k)]
  exact le_mul_of_one_le_right (abs_nonneg m) (ten_pow_pos k)

theorem abs_canon_le (m : Int) (s : Nat) : |(canon m s).1| ≤ |m| := by
  obtain ⟨k, -, hm⟩ := canon_spec m s
  conv_rhs => rw [hm]
  exact abs_le_abs_mul_pow _ k

/-- A canonical pair cannot have a larger scale than another pair for the
same number: it would have a zero to strip. -/
theorem Canonical.scale_le {m n : Int} {s t : Nat} (h : Canonical m s)
    (heq : m * 10 ^ t = n * 10 ^ s) : s ≤ t := by
  by_contra hlt
  obtain ⟨k, hk⟩ : ∃ k, s = t + 1 + k := ⟨s - (t + 1), by omega⟩
  apply h.reduced (by omega)
  refine ⟨n * 10 ^ k, mul_right_cancel₀ (ten_pow_ne_zero t) ?_⟩
  rw [heq, hk, pow_add, pow_succ]
  ring

/-- **The canonical pair is determined by the number.** -/
theorem Canonical.unique {m n : Int} {s t : Nat} (hm : Canonical m s) (hn : Canonical n t)
    (h : val m s = val n t) : m = n ∧ s = t := by
  rw [val_eq_iff] at h
  have hst : s = t := le_antisymm (hm.scale_le h) (hn.scale_le h.symm)
  subst hst
  exact ⟨mul_right_cancel₀ (ten_pow_ne_zero s) h, rfl⟩

theorem canon_eq_of_val_eq {m n : Int} {s t : Nat} (h : val m s = val n t) :
    canon m s = canon n t := by
  have hval : val (canon m s).1 (canon m s).2 = val (canon n t).1 (canon n t).2 := by
    rw [val_canon, val_canon, h]
  obtain ⟨h1, h2⟩ := (canon_canonical m s).unique (canon_canonical n t) hval
  exact Prod.ext h1 h2

theorem canon_mul_pow (m : Int) (s k : Nat) : canon (m * 10 ^ k) (s + k) = canon m s :=
  canon_eq_of_val_eq (val_mul_pow m s k)

theorem canon_of_canonical {m : Int} {s : Nat} (h : Canonical m s) : canon m s = (m, s) := by
  obtain ⟨h1, h2⟩ := (canon_canonical m s).unique h (val_canon m s)
  exact Prod.ext h1 h2

theorem val_neg (m : Int) (s : Nat) : val (-m) s = -val m s := by
  unfold val
  push_cast
  exact neg_div _ _

theorem Canonical.neg {m : Int} {s : Nat} (h : Canonical m s) : Canonical (-m) s :=
  ⟨fun h0 => h.zero (neg_eq_zero.mp h0), fun hs hdvd => h.reduced hs (dvd_neg.mp hdvd)⟩

theorem canon_neg (m : Int) (s : Nat) : canon (-m) s = (-(canon m s).1, (canon m s).2) := by
  have hval : val (canon (-m) s).1 (canon (-m) s).2 = val (-(canon m s).1) (canon m s).2 := by
    rw [val_canon, val_neg, val_neg, val_canon]
  obtain ⟨h1, h2⟩ := (canon_canonical (-m) s).unique (canon_canonical m s).neg hval
  exact Prod.ext h1 h2

theorem canon_canon (m : Int) (s : Nat) : canon (canon m s).1 (canon m s).2 = canon m s :=
  canon_of_canonical (canon_canonical m s)

/-! ## Rounding to a scale -/

/-- The integer nearest to `x * 10^t`, ties to even. -/
def mantissaAt (t : Nat) (x : ℚ) : Int := roundHalfEven (x * 10 ^ t)

theorem mantissaAt_val_of_le {s t : Nat} (m : Int) (h : s ≤ t) :
    mantissaAt t (val m s) = m * 10 ^ (t - s) := by
  have hs : (10 : ℚ) ^ s ≠ 0 := pow_ne_zero s (by norm_num)
  have hexact : val m s * 10 ^ t = ((m * 10 ^ (t - s) : Int) : ℚ) := by
    unfold val
    push_cast
    rw [div_mul_eq_mul_div, div_eq_iff hs, mul_assoc, ← pow_add, Nat.sub_add_cancel h]
  unfold mantissaAt
  rw [hexact, roundHalfEven_intCast]

theorem mantissaAt_val_of_ge {s t : Nat} (m : Int) (h : t ≤ s) :
    mantissaAt t (val m s) = roundHalfEven ((m : ℚ) / ((10 ^ (s - t) : Int) : ℚ)) := by
  have ht : (10 : ℚ) ^ t ≠ 0 := pow_ne_zero t (by norm_num)
  have hst : (10 : ℚ) ^ s = 10 ^ (s - t) * 10 ^ t := by rw [← pow_add, Nat.sub_add_cancel h]
  unfold mantissaAt val
  push_cast
  rw [hst, div_mul_eq_mul_div, mul_div_mul_right _ _ ht]

/-- A quotient at scale `t` is that of the mantissas, the dividend padded to the
scale the divisor's takes away. -/
theorem mantissaAt_val_div {m n : Int} {s t u k : Nat} (hn : n ≠ 0) (hk : k + s = t + u) :
    mantissaAt t (val m s / val n u) = roundHalfEven (((m * 10 ^ k : Int) : ℚ) / n) := by
  have hten : ∀ k : Nat, (10 : ℚ) ^ k ≠ 0 := fun k => pow_ne_zero k (by norm_num)
  have hn0 : (n : ℚ) ≠ 0 := by exact_mod_cast hn
  have hpow : (10 : ℚ) ^ k * 10 ^ s = 10 ^ t * 10 ^ u := by rw [← pow_add, ← pow_add, hk]
  unfold mantissaAt val
  congr 1
  push_cast
  rw [div_div_div_eq, div_mul_eq_mul_div, div_eq_div_iff (mul_ne_zero (hten _) hn0) hn0]
  calc (m : ℚ) * 10 ^ u * 10 ^ t * n
      = m * (10 ^ t * 10 ^ u) * n := by ring
    _ = m * (10 ^ k * 10 ^ s) * n := by rw [hpow]
    _ = m * 10 ^ k * (10 ^ s * n) := by ring

end Scaled
