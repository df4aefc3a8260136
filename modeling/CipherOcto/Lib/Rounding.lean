import CipherOcto.Lib.Machine

/-!
# Rounding to nearest, ties to even

`roundHalfEven q` is the integer nearest to a rational `q`, with ties going to
the even neighbour; `rne p x` is the same at `p` significant bits: scale `x` so
that its leading bit lands just below `2^p`, round, scale back. The exponent is
unbounded in both directions, so range limits are the caller's business.

What a proof needs from `rne` is one criterion, `rne_eq_iff`: on a dyadic
`M * 2^e` the result is `T * 2^e` exactly when `T`, a multiple of the unit in
the last place, is within half a unit of `M` (evenness deciding the tie). The
other two facts locate the largest `p`-bit value `(2^p - 1) * 2^E`:
`maxFinite_le_rne_iff` says from where on rounding reaches it.
-/

namespace Rounding

open Machine (bitLen bitLen_pos bitLen_le_iff lt_bitLen_iff lt_two_pow_bitLen two_pow_pred_bitLen_le)

/-! ## Integers -/

/-- The integer nearest to `q`, ties to even. -/
def roundHalfEven (q : ℚ) : ℤ :=
  if 2 * Int.fract q < 1 then ⌊q⌋
  else if 1 < 2 * Int.fract q then ⌊q⌋ + 1
  else if ⌊q⌋ % 2 = 0 then ⌊q⌋ else ⌊q⌋ + 1

/-- `n` is a nearest integer to `q`, and the even one if there are two. -/
def IsNearestEven (q : ℚ) (n : ℤ) : Prop :=
  2 * |q - n| < 1 ∨ 2 * |q - n| = 1 ∧ n % 2 = 0

theorem roundHalfEven_isNearestEven (q : ℚ) : IsNearestEven q (roundHalfEven q) := by
  have hlo := Int.fract_nonneg q
  have hhi := Int.fract_lt_one q
  have hsub : q - (⌊q⌋ : ℚ) = Int.fract q := Int.self_sub_floor q
  have hup : q - ((⌊q⌋ + 1 : ℤ) : ℚ) = Int.fract q - 1 := by push_cast; linarith
  unfold roundHalfEven IsNearestEven
  split
  · next h => left; rw [hsub, abs_of_nonneg hlo]; exact h
  · split
    · next h => left; rw [hup, abs_of_neg (by linarith)]; linarith
    · next h1 h2 =>
      have htie : 2 * Int.fract q = 1 := le_antisymm (not_lt.mp h2) (not_lt.mp h1)
      right
      split
      · next heven => rw [hsub, abs_of_nonneg hlo]; exact ⟨htie, heven⟩
      · next hodd =>
        rw [hup, abs_of_neg (by linarith)]
        exact ⟨by linarith, by omega⟩

theorem IsNearestEven.unique {q : ℚ} {m n : ℤ} (hm : IsNearestEven q m)
    (hn : IsNearestEven q n) : m = n := by
  have htri : |(m : ℚ) - n| ≤ |q - m| + |q - n| := by
    have := abs_sub_le (m : ℚ) q n
    rwa [abs_sub_comm (m : ℚ) q] at this
  have hle : ∀ k : ℤ, IsNearestEven q k → 2 * |q - k| ≤ 1 := by
    intro k hk
    rcases hk with h | h
    · exact le_of_lt h
    · exact le_of_eq h.1
  have hone : |m - n| ≤ 1 := by
    have h1 := hle m hm
    have h2 := hle n hn
    have h3 : |(m : ℚ) - n| ≤ 1 := by linarith
    exact_mod_cast h3
  rcases hm with hm | ⟨hm, hme⟩
  · have h2 := hle n hn
    have h3 : |(m : ℚ) - n| < 1 := by linarith
    have h4 : |m - n| < 1 := by exact_mod_cast h3
    rw [Int.abs_lt_one_iff] at h4
    omega
  · rcases hn with hn | ⟨hn, hne⟩
    · have h3 : |(m : ℚ) - n| < 1 := by linarith
      have h4 : |m - n| < 1 := by exact_mod_cast h3
      rw [Int.abs_lt_one_iff] at h4
      omega
    · -- two ties one apart cannot both be even
      rw [abs_le] at hone
      omega

theorem roundHalfEven_eq_iff (q : ℚ) (n : ℤ) : roundHalfEven q = n ↔ IsNearestEven q n := by
  constructor
  · intro h; rw [← h]; exact roundHalfEven_isNearestEven q
  · exact fun h => (roundHalfEven_isNearestEven q).unique h

theorem roundHalfEven_intCast (n : ℤ) : roundHalfEven (n : ℚ) = n := by
  rw [roundHalfEven_eq_iff]
  left; simp

theorem roundHalfEven_neg (q : ℚ) : roundHalfEven (-q) = -roundHalfEven q := by
  rw [roundHalfEven_eq_iff]
  have habs : |-q - ((-roundHalfEven q : ℤ) : ℚ)| = |q - roundHalfEven q| := by
    rw [← abs_neg]; congr 1; push_cast; ring
  rcases roundHalfEven_isNearestEven q with h | ⟨h, heven⟩
  · left; rw [habs]; exact h
  · right; rw [habs]; exact ⟨h, by omega⟩

theorem roundHalfEven_mono {q r : ℚ} (h : q ≤ r) : roundHalfEven q ≤ roundHalfEven r := by
  by_contra hlt
  rw [not_le] at hlt
  have hq := roundHalfEven_isNearestEven q
  have hr := roundHalfEven_isNearestEven r
  have hstep : (roundHalfEven r : ℚ) + 1 ≤ roundHalfEven q := by exact_mod_cast hlt
  have hq1 := neg_abs_le (q - roundHalfEven q)
  have hr1 := le_abs_self (r - roundHalfEven r)
  have hle : ∀ (x : ℚ) (k : ℤ), IsNearestEven x k → 2 * |x - k| ≤ 1 := by
    intro x k hk
    rcases hk with h | h
    · exact le_of_lt h
    · exact le_of_eq h.1
  have hq2 := hle _ _ hq
  have hr2 := hle _ _ hr
  -- the two half-unit errors meet in the middle, so `q = r`
  have heq : q = r := by linarith
  rw [heq] at hlt
  exact lt_irrefl _ hlt

/-! ### Quotients -/

theorem isNearestEven_div_iff {n d : ℤ} (hd : d ≠ 0) (m : ℤ) :
    IsNearestEven ((n : ℚ) / d) m ↔ 2 * |n - m * d| < |d| ∨ 2 * |n - m * d| = |d| ∧ m % 2 = 0 := by
  have hdq : (d : ℚ) ≠ 0 := by exact_mod_cast hd
  have hpos : (0 : ℚ) < |(d : ℚ)| := abs_pos.mpr hdq
  have hdist : 2 * |(n : ℚ) / d - m| = ((2 * |n - m * d| : ℤ) : ℚ) / ((|d| : ℤ) : ℚ) := by
    rw [div_sub' hdq, abs_div]
    push_cast
    rw [mul_comm (d : ℚ), mul_div_assoc]
  unfold IsNearestEven
  rw [hdist, div_lt_one (by exact_mod_cast hpos), div_eq_one_iff_eq (by exact_mod_cast hpos.ne')]
  norm_cast

theorem abs_tmod_lt (n : ℤ) {d : ℤ} (hd : d ≠ 0) : |n.tmod d| < |d| := by
  have h := Nat.mod_lt n.natAbs (Int.natAbs_pos.mpr hd)
  rw [← Int.natAbs_tmod] at h
  rw [Int.abs_eq_natAbs, Int.abs_eq_natAbs]
  exact_mod_cast h

/-- The remainder of a truncating division leans to the side of the dividend,
so stepping the quotient away from zero leaves the complement. -/
theorem abs_tmod_sub {n d : ℤ} (hd : d ≠ 0) (hr : n.tmod d ≠ 0) :
    |n.tmod d - n.sign * d.sign * d| = |d| - |n.tmod d| := by
  have hlt := abs_tmod_lt n hd
  have hsign : n.sign = (n.tmod d).sign := by
    rw [Int.sign_tmod, if_neg fun h => hr (Int.tmod_eq_zero_of_dvd h)]
  rw [mul_assoc, Int.sign_mul_self_eq_abs, hsign]
  rcases lt_or_gt_of_ne hr with h | h
  · rw [abs_of_neg h] at hlt ⊢
    rw [Int.sign_eq_neg_one_of_neg h, abs_of_nonneg (by omega)]
    omega
  · rw [abs_of_pos h] at hlt ⊢
    rw [Int.sign_eq_one_of_pos h, abs_of_neg (by omega)]
    omega

/-- Half-even rounding of a quotient, read off a truncating division. -/
theorem roundHalfEven_div (n : ℤ) {d : ℤ} (hd : d ≠ 0) :
    roundHalfEven ((n : ℚ) / d) =
      if 2 * |n.tmod d| < |d| then n.tdiv d
      else if 2 * |n.tmod d| > |d| then n.tdiv d + n.sign * d.sign
      else if |n.tdiv d| % 2 = 0 then n.tdiv d else n.tdiv d + n.sign * d.sign := by
  have hdpos : 0 < |d| := abs_pos.mpr hd
  have hdown : n - n.tdiv d * d = n.tmod d := by
    have := Int.mul_tdiv_add_tmod n d
    rw [mul_comm]; omega
  have hup : n - (n.tdiv d + n.sign * d.sign) * d = n.tmod d - n.sign * d.sign * d := by
    rw [add_mul, ← hdown]; omega
  rw [roundHalfEven_eq_iff, isNearestEven_div_iff hd]
  by_cases hr : n.tmod d = 0
  · rw [hr, abs_zero, mul_zero, if_pos hdpos, hdown, hr, abs_zero, mul_zero]
    exact Or.inl hdpos
  have habs := abs_tmod_sub hd hr
  have hlt := abs_tmod_lt n hd
  split
  · next h => left; rw [hdown]; exact h
  split
  · next h => left; rw [hup, habs]; omega
  -- a tie: of the two candidates one is even, and they differ by one
  next h1 h2 =>
  have hne : n ≠ 0 := fun h => hr (by rw [h, Int.zero_tmod])
  have hq := abs_choice (n.tdiv d)
  right
  split
  · next heven => rw [hdown]; exact ⟨by omega, by omega⟩
  · next hodd =>
    rw [hup, habs]
    have hs : n.sign * d.sign = 1 ∨ n.sign * d.sign = -1 := by
      rcases lt_or_gt_of_ne hne with h | h <;> rcases lt_or_gt_of_ne hd with h' | h' <;>
        simp [Int.sign_eq_neg_one_of_neg, Int.sign_eq_one_of_pos, h, h']
    refine ⟨by omega, ?_⟩
    rcases hs with hs | hs <;> rw [hs] <;> omega

/-- A quotient is rounded on the magnitudes, the sign put on afterwards. -/
theorem roundHalfEven_div_abs (n d : ℤ) :
    roundHalfEven ((n : ℚ) / d) =
      if decide (n < 0) != decide (d < 0) then -roundHalfEven (((|n| : ℤ) : ℚ) / ((|d| : ℤ) : ℚ))
      else roundHalfEven (((|n| : ℤ) : ℚ) / ((|d| : ℤ) : ℚ)) := by
  rw [← roundHalfEven_neg]
  rcases lt_or_ge n 0 with hn | hn <;> rcases lt_or_ge d 0 with hd | hd
  · rw [decide_eq_true hn, decide_eq_true hd, abs_of_neg hn, abs_of_neg hd, Int.cast_neg,
      Int.cast_neg, neg_div_neg_eq]
    rfl
  · rw [decide_eq_true hn, decide_eq_false hd.not_gt, abs_of_neg hn, abs_of_nonneg hd,
      Int.cast_neg, neg_div, neg_neg]
    rfl
  · rw [decide_eq_false hn.not_gt, decide_eq_true hd, abs_of_nonneg hn, abs_of_neg hd,
      Int.cast_neg, div_neg, neg_neg]
    rfl
  · rw [decide_eq_false hn.not_gt, decide_eq_false hd.not_gt, abs_of_nonneg hn, abs_of_nonneg hd]
    rfl

/-! ## `p` significant bits -/

/-- The exponent of the unit in the last of `p` places of `x`. -/
def ulpExp (p : ℕ) (x : ℚ) : ℤ := Int.log 2 |x| - ((p : ℤ) - 1)

/-- `x` rounded to `p` significant bits, ties to even. -/
def rne (p : ℕ) (x : ℚ) : ℚ := roundHalfEven (x / 2 ^ ulpExp p x) * 2 ^ ulpExp p x

theorem two_zpow_pos (e : ℤ) : (0 : ℚ) < 2 ^ e := zpow_pos (by norm_num) e

theorem two_zpow_eq_mul {e f : ℤ} (h : f ≤ e) : (2 : ℚ) ^ e = 2 ^ (e - f).toNat * 2 ^ f := by
  rw [← zpow_natCast, ← zpow_add₀ (by norm_num)]
  congr 1
  omega

/-- Comparing two dyadics: scale the one with the larger exponent. -/
theorem dyadic_lt_iff (m n : ℕ) {e f : ℤ} (h : f ≤ e) :
    (m : ℚ) * 2 ^ e < n * 2 ^ f ↔ m * 2 ^ (e - f).toNat < n := by
  rw [two_zpow_eq_mul h, ← mul_assoc, mul_lt_mul_iff_left₀ (two_zpow_pos f)]
  norm_cast

theorem dyadic_eq_iff (m n : ℕ) {e f : ℤ} (h : f ≤ e) :
    (m : ℚ) * 2 ^ e = n * 2 ^ f ↔ m * 2 ^ (e - f).toNat = n := by
  rw [two_zpow_eq_mul h, ← mul_assoc, mul_left_inj' (two_zpow_pos f).ne']
  norm_cast

theorem dyadic_exponent_le {m n : ℕ} {e f : ℤ} (hn : n % 2 = 1)
    (h : (m : ℚ) * 2 ^ e = n * 2 ^ f) : e ≤ f := by
  by_contra hlt
  rw [not_le] at hlt
  have heq := (dyadic_eq_iff m n hlt.le).mp h
  obtain ⟨k, hk⟩ : ∃ k, (e - f).toNat = k + 1 := ⟨(e - f).toNat - 1, by omega⟩
  rw [hk, pow_succ, ← mul_assoc] at heq
  omega

/-- A dyadic has one odd representation. -/
theorem odd_dyadic_inj {m n : ℕ} {e f : ℤ} (hm : m % 2 = 1) (hn : n % 2 = 1)
    (h : (m : ℚ) * 2 ^ e = n * 2 ^ f) : m = n ∧ e = f := by
  have hef : e = f := le_antisymm (dyadic_exponent_le hn h) (dyadic_exponent_le hm h.symm)
  subst hef
  exact ⟨by simpa using (dyadic_eq_iff m n le_rfl).mp h, rfl⟩

theorem rne_zero (p : ℕ) : rne p 0 = 0 := by
  have h : roundHalfEven 0 = 0 := by simpa using roundHalfEven_intCast 0
  unfold rne
  rw [zero_div, h]
  simp

theorem rne_neg (p : ℕ) (x : ℚ) : rne p (-x) = -rne p x := by
  unfold rne ulpExp
  rw [abs_neg, neg_div, roundHalfEven_neg]
  push_cast
  ring

theorem ulpExp_eq_of_bounds {p : ℕ} {x : ℚ} {k : ℤ} (hlo : 2 ^ (k + ((p : ℤ) - 1)) ≤ x)
    (hhi : x < 2 ^ (k + p)) : ulpExp p x = k := by
  have hx : 0 < x := lt_of_lt_of_le (two_zpow_pos _) hlo
  have h1 : k + ((p : ℤ) - 1) ≤ Int.log 2 x :=
    (Int.zpow_le_iff_le_log (by norm_num) hx).mp (by exact_mod_cast hlo)
  have h2 : Int.log 2 x < k + p :=
    (Int.lt_zpow_iff_log_lt (by norm_num) hx).mp (by exact_mod_cast hhi)
  unfold ulpExp
  rw [abs_of_pos hx]
  omega

theorem rne_of_bounds {p : ℕ} {x : ℚ} {k : ℤ} (hlo : 2 ^ (k + ((p : ℤ) - 1)) ≤ x)
    (hhi : x < 2 ^ (k + p)) : rne p x = roundHalfEven (x / 2 ^ k) * 2 ^ k := by
  unfold rne
  rw [ulpExp_eq_of_bounds hlo hhi]

/-- The unit in the last place, from the integer part of the significand. -/
theorem ulpExp_of_floor (p : ℕ) {n : ℕ} {q : ℚ} (e : ℤ) (hn : n ≠ 0) (hlo : n ≤ q)
    (hhi : q < n + 1) : ulpExp p (q * 2 ^ e) = (bitLen n : ℤ) - p + e := by
  have hL := bitLen_pos hn
  have hlo' : (2 : ℚ) ^ ((bitLen n : ℤ) - 1) ≤ q := by
    have h : ((2 ^ (bitLen n - 1) : ℕ) : ℚ) ≤ n := by exact_mod_cast two_pow_pred_bitLen_le hn
    rw [Nat.cast_pow, Nat.cast_ofNat, ← zpow_natCast, Nat.cast_sub hL, Nat.cast_one] at h
    exact h.trans hlo
  have hhi' : q < 2 ^ (bitLen n : ℤ) := by
    have h : ((n + 1 : ℕ) : ℚ) ≤ ((2 ^ bitLen n : ℕ) : ℚ) := by exact_mod_cast lt_two_pow_bitLen n
    rw [zpow_natCast]
    push_cast at h
    exact lt_of_lt_of_le hhi h
  apply ulpExp_eq_of_bounds
  · rw [show (bitLen n : ℤ) - p + e + ((p : ℤ) - 1) = ((bitLen n : ℤ) - 1) + e by ring,
      zpow_add₀ (by norm_num)]
    exact mul_le_mul_of_nonneg_right hlo' (le_of_lt (two_zpow_pos e))
  · rw [show (bitLen n : ℤ) - p + e + p = (bitLen n : ℤ) + e by ring, zpow_add₀ (by norm_num)]
    exact mul_lt_mul_of_pos_right hhi' (two_zpow_pos e)

theorem ulpExp_dyadic (p : ℕ) {M : ℕ} (e : ℤ) (hM : M ≠ 0) :
    ulpExp p (M * 2 ^ e) = (bitLen M : ℤ) - p + e :=
  ulpExp_of_floor p e hM le_rfl (lt_add_one _)

/-- The rounding criterion, in units of the last place. -/
theorem rne_eq_mul_iff {p : ℕ} {x : ℚ} {u : ℤ} (hu : ulpExp p x = u) (t : ℤ) :
    rne p x = t * 2 ^ u ↔ IsNearestEven (x / 2 ^ u) t := by
  unfold rne
  rw [hu, mul_left_inj' (two_zpow_pos u).ne', Int.cast_inj, roundHalfEven_eq_iff]

/-- The rounding criterion on dyadic rationals. -/
theorem rne_eq_iff {p M T : ℕ} (e : ℤ) (hM : M ≠ 0) (hT : 2 ^ (bitLen M - p) ∣ T) :
    rne p (M * 2 ^ e) = T * 2 ^ e ↔
      2 * |(M : ℤ) - T| < 2 ^ (bitLen M - p) ∨
        2 * |(M : ℤ) - T| = 2 ^ (bitLen M - p) ∧ T / 2 ^ (bitLen M - p) % 2 = 0 := by
  have hbounds : rne p (M * 2 ^ e) =
      roundHalfEven ((M : ℚ) * 2 ^ e / 2 ^ ((bitLen M : ℤ) - p + e))
        * 2 ^ ((bitLen M : ℤ) - p + e) := by
    unfold rne
    rw [ulpExp_dyadic p e hM]
  have hquot : (M : ℚ) * 2 ^ e / 2 ^ ((bitLen M : ℤ) - p + e) = M / 2 ^ ((bitLen M : ℤ) - p) := by
    rw [zpow_add₀ (by norm_num), mul_div_mul_right _ _ (ne_of_gt (two_zpow_pos e))]
  rw [hbounds, hquot]
  rcases Nat.lt_or_ge (bitLen M) p with hlt | hge
  · -- fewer than `p` bits: the quotient is an integer and nothing is rounded
    have hk : bitLen M - p = 0 := by omega
    have hint : (M : ℚ) / 2 ^ ((bitLen M : ℤ) - p) = ((M * 2 ^ (p - bitLen M) : ℕ) : ℤ) := by
      rw [show (bitLen M : ℤ) - p = -((p - bitLen M : ℕ) : ℤ) by omega, zpow_neg, zpow_natCast,
        div_inv_eq_mul]
      push_cast
      ring
    have hback : (((M * 2 ^ (p - bitLen M) : ℕ) : ℤ) : ℚ) * 2 ^ ((bitLen M : ℤ) - p + e)
        = M * 2 ^ e := by
      rw [← hint, zpow_add₀ (by norm_num), ← mul_assoc,
        div_mul_cancel₀ _ (ne_of_gt (two_zpow_pos _))]
    rw [hint, roundHalfEven_intCast, hback, hk, mul_left_inj' (ne_of_gt (two_zpow_pos e))]
    rw [pow_zero]
    constructor
    · intro h
      have h' : M = T := by exact_mod_cast h
      left; rw [h']; simp
    · intro h
      have hnn := abs_nonneg ((M : ℤ) - T)
      have h0 : |(M : ℤ) - T| = 0 := by
        rcases h with h | ⟨h, -⟩ <;> omega
      rw [abs_eq_zero, sub_eq_zero] at h0
      exact_mod_cast h0
  · obtain ⟨t, rfl⟩ := hT
    set k := bitLen M - p with hk
    have hkz : (bitLen M : ℤ) - p = (k : ℤ) := by omega
    have hpk : (0 : ℚ) < 2 ^ k := by positivity
    rw [hkz, zpow_add₀ (by norm_num), zpow_natCast, Nat.mul_div_cancel_left _ (Nat.two_pow_pos k)]
    have hT : (((2 ^ k * t : ℕ) : ℚ)) * 2 ^ e = ((t : ℤ) : ℚ) * (2 ^ k * 2 ^ e) := by
      push_cast; ring
    rw [hT, mul_left_inj' (by positivity), Int.cast_inj, roundHalfEven_eq_iff]
    have habs : 2 * |(M : ℚ) / 2 ^ k - ((t : ℤ) : ℚ)| * 2 ^ k
        = ((2 * |(M : ℤ) - ((2 ^ k * t : ℕ) : ℤ)| : ℤ) : ℚ) := by
      push_cast
      rw [mul_assoc, ← abs_of_pos hpk, ← abs_mul, abs_of_pos hpk, sub_mul,
        div_mul_cancel₀ _ (ne_of_gt hpk), mul_comm (t : ℚ)]
    have hlt : 2 * |(M : ℚ) / 2 ^ k - ((t : ℤ) : ℚ)| < 1
        ↔ 2 * |(M : ℤ) - ((2 ^ k * t : ℕ) : ℤ)| < 2 ^ k := by
      rw [← mul_lt_mul_iff_left₀ hpk, habs, one_mul]
      norm_cast
    have heq : 2 * |(M : ℚ) / 2 ^ k - ((t : ℤ) : ℚ)| = 1
        ↔ 2 * |(M : ℤ) - ((2 ^ k * t : ℕ) : ℤ)| = 2 ^ k := by
      rw [← mul_left_inj' (ne_of_gt hpk), habs, one_mul]
      norm_cast
    unfold IsNearestEven
    rw [hlt, heq]
    have hpar : (t : ℤ) % 2 = 0 ↔ t % 2 = 0 := by omega
    rw [hpar]

/-! ## The largest `p`-bit value at an exponent -/

theorem le_rne_of_pos {p : ℕ} (hp : 1 ≤ p) {x : ℚ} (hx : 0 < x) : 2 ^ Int.log 2 x ≤ rne p x := by
  have hlog : (2 : ℚ) ^ Int.log 2 x ≤ x := by
    exact_mod_cast Int.zpow_log_le_self (b := 2) (by norm_num) hx
  unfold rne ulpExp
  rw [abs_of_pos hx]
  set u := Int.log 2 x - ((p : ℤ) - 1) with hu
  have hsplit : (2 : ℚ) ^ Int.log 2 x = ((2 ^ (p - 1) : ℕ) : ℤ) * 2 ^ u := by
    rw [show Int.log 2 x = ((p - 1 : ℕ) : ℤ) + u by omega, zpow_add₀ (by norm_num), zpow_natCast]
    push_cast
    ring
  rw [hsplit] at hlog ⊢
  rw [mul_le_mul_iff_left₀ (two_zpow_pos u), Int.cast_le,
    ← roundHalfEven_intCast (2 ^ (p - 1) : ℕ)]
  exact roundHalfEven_mono ((le_div_iff₀ (two_zpow_pos u)).mpr hlog)

theorem rne_le_of_pos {p : ℕ} {x : ℚ} (hx : 0 < x) : rne p x ≤ 2 ^ (Int.log 2 x + 1) := by
  have hlog : x < (2 : ℚ) ^ (Int.log 2 x + 1) := by
    exact_mod_cast Int.lt_zpow_succ_log_self (b := 2) (by norm_num) x
  unfold rne ulpExp
  rw [abs_of_pos hx]
  set u := Int.log 2 x - ((p : ℤ) - 1) with hu
  have hsplit : (2 : ℚ) ^ (Int.log 2 x + 1) = ((2 ^ p : ℕ) : ℤ) * 2 ^ u := by
    rw [show Int.log 2 x + 1 = (p : ℤ) + u by omega, zpow_add₀ (by norm_num), zpow_natCast]
    push_cast
    ring
  rw [hsplit] at hlog ⊢
  rw [mul_le_mul_iff_left₀ (two_zpow_pos u), Int.cast_le, ← roundHalfEven_intCast (2 ^ p : ℕ)]
  exact roundHalfEven_mono ((div_le_iff₀ (two_zpow_pos u)).mpr (le_of_lt hlog))

theorem rne_mono {p : ℕ} (hp : 1 ≤ p) {x y : ℚ} (hx : 0 < x) (hxy : x ≤ y) :
    rne p x ≤ rne p y := by
  have hy : 0 < y := lt_of_lt_of_le hx hxy
  rcases (Int.log_mono_right (b := 2) hx hxy).lt_or_eq with hlt | heq
  · calc rne p x ≤ 2 ^ (Int.log 2 x + 1) := rne_le_of_pos hx
      _ ≤ 2 ^ Int.log 2 y := zpow_le_zpow_right₀ (by norm_num) (by omega)
      _ ≤ rne p y := le_rne_of_pos hp hy
  · -- same binade, same unit in the last place
    unfold rne ulpExp
    rw [abs_of_pos hx, abs_of_pos hy, heq, mul_le_mul_iff_left₀ (two_zpow_pos _), Int.cast_le]
    exact roundHalfEven_mono (div_le_div_of_nonneg_right hxy (le_of_lt (two_zpow_pos _)))

/-- Rounding reaches the largest `p`-bit value at exponent `E` from half a unit below it on. -/
theorem maxFinite_le_rne_iff {p : ℕ} (hp : 2 ≤ p) {x : ℚ} (hx : 0 < x) (E : ℤ) :
    (2 ^ p - 1) * 2 ^ E ≤ rne p x ↔ (2 ^ p - 3 / 2) * 2 ^ E < x := by
  have hE := two_zpow_pos E
  have hp2 : (2 : ℚ) ^ p = 2 * 2 ^ (p - 1) := by rw [← pow_succ', Nat.sub_add_cancel (by omega)]
  have hhalf : (2 : ℚ) ≤ 2 ^ (p - 1) := by
    calc (2 : ℚ) = 2 ^ 1 := (pow_one 2).symm
      _ ≤ 2 ^ (p - 1) := pow_le_pow_right₀ (by norm_num) (by omega)
  have hlow : (2 : ℚ) ^ (E + ((p : ℤ) - 1)) = 2 ^ (p - 1) * 2 ^ E := by
    rw [show E + ((p : ℤ) - 1) = ((p - 1 : ℕ) : ℤ) + E by omega, zpow_add₀ (by norm_num),
      zpow_natCast]
  have htop : (2 : ℚ) ^ (E + (p : ℤ)) = 2 ^ p * 2 ^ E := by
    rw [add_comm, zpow_add₀ (by norm_num), zpow_natCast]
  -- the binade of the largest value, where the unit in the last place is `2^E`
  have hbinade : ∀ q : ℚ, 2 ^ (p - 1) ≤ q → q < 2 ^ p →
      rne p (q * 2 ^ E) = roundHalfEven q * 2 ^ E := by
    intro q hlo hhi
    rw [rne_of_bounds (k := E), mul_div_cancel_right₀ _ (ne_of_gt hE)]
    · rw [hlow]; exact mul_le_mul_of_nonneg_right hlo (le_of_lt hE)
    · rw [htop]; exact mul_lt_mul_of_pos_right hhi hE
  constructor
  · intro h
    by_contra hle
    rw [not_lt] at hle
    have htie : roundHalfEven (2 ^ p - 3 / 2) = 2 ^ p - 2 := by
      rw [roundHalfEven_eq_iff]
      right
      push_cast
      rw [show (2 : ℚ) ^ p - 3 / 2 - (2 ^ p - 2) = 1 / 2 by ring, abs_of_pos (by norm_num)]
      refine ⟨by norm_num, ?_⟩
      obtain ⟨n, rfl⟩ : ∃ n, p = n + 1 := ⟨p - 1, by omega⟩
      rw [pow_succ]
      omega
    have hmono := rne_mono (p := p) (by omega) hx hle
    rw [hbinade _ (by linarith) (by linarith), htie] at hmono
    have hgap : ((2 ^ p - 2 : ℤ) : ℚ) * 2 ^ E < (2 ^ p - 1) * 2 ^ E := by
      apply mul_lt_mul_of_pos_right _ hE
      push_cast
      linarith
    linarith
  · intro h
    have hmax : (roundHalfEven (2 ^ p - 1) : ℚ) = 2 ^ p - 1 := by
      have h1 := roundHalfEven_intCast (2 ^ p - 1)
      push_cast at h1
      rw [h1]
      push_cast
      ring
    rcases le_or_gt ((2 ^ p - 1) * 2 ^ E) x with hge | hlt
    · have hpos : (0 : ℚ) < (2 ^ p - 1) * 2 ^ E := mul_pos (by linarith) hE
      have hmono := rne_mono (p := p) (by omega) hpos hge
      rwa [hbinade _ (by linarith) (by linarith), hmax] at hmono
    · -- strictly inside the last half unit: the nearest integer is `2^p - 1`
      have hx' : x = x / 2 ^ E * 2 ^ E := (div_mul_cancel₀ _ (ne_of_gt hE)).symm
      have hq1 : (2 : ℚ) ^ p - 3 / 2 < x / 2 ^ E := (lt_div_iff₀ hE).mpr h
      have hq2 : x / 2 ^ E < 2 ^ p - 1 := (div_lt_iff₀ hE).mpr hlt
      have hround : roundHalfEven (x / 2 ^ E) = 2 ^ p - 1 := by
        rw [roundHalfEven_eq_iff]
        left
        push_cast
        rw [abs_of_neg (by linarith)]
        linarith
      rw [hx', hbinade _ (by linarith) (by linarith), hround]
      push_cast
      exact le_rfl

end Rounding
