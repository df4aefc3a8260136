import CipherOcto.Lib.Rounding

/-!
# Binary64 patterns and their values

A 64-bit pattern is a number: a sign bit, an 11-bit exponent field and a 52-bit
fraction. Without the sign bit the patterns are in the order of their values,

> `magnitude_succ`: the next pattern is one unit in the last place larger,

subnormal or normal, across binades and up to the pattern of infinity, whose
`magnitude` is the `2^1024` that the largest finite value would carry into. So
two finite values are `Adjacent` only if their patterns are consecutive
(`Adjacent.eq_of_between`), and rounding between them, ties to the even pattern,
is `nearestEven`. The sign is a symmetry of all this (`Adjacent.negate`).
-/

namespace Binary64

open Rounding (two_zpow_pos)

def exponentField (p : ℕ) : ℕ := p / 2 ^ 52 % 2 ^ 11

def fractionField (p : ℕ) : ℕ := p % 2 ^ 52

def IsNan (p : ℕ) : Prop := exponentField p = 2047 ∧ fractionField p ≠ 0

def IsFinite (p : ℕ) : Prop := p < 2 ^ 64 ∧ exponentField p ≠ 2047

instance (p : ℕ) : Decidable (IsNan p) := inferInstanceAs (Decidable (_ ∧ _))

instance (p : ℕ) : Decidable (IsFinite p) := inferInstanceAs (Decidable (_ ∧ _))

/-- The value of a pattern without its sign bit. -/
def magnitude (n : ℕ) : ℚ :=
  if n / 2 ^ 52 = 0 then n * 2 ^ (-1074 : ℤ)
  else (2 ^ 52 + n % 2 ^ 52 : ℕ) * 2 ^ ((n / 2 ^ 52 : ℕ) - 1075 : ℤ)

/-- The value of a finite pattern. -/
def value (p : ℕ) : ℚ := if 2 ^ 63 ≤ p then -magnitude (p - 2 ^ 63) else magnitude p

/-- Flip the sign bit. -/
def negate (p : ℕ) : ℕ := if 2 ^ 63 ≤ p then p - 2 ^ 63 else p + 2 ^ 63

/-! ## The order of the patterns -/

/-- The next pattern is one unit in the last place larger. -/
theorem magnitude_succ (n : ℕ) :
    magnitude (n + 1) = magnitude n + 2 ^ ((max (n / 2 ^ 52) 1 : ℕ) - 1075 : ℤ) := by
  have hdiv := Nat.div_add_mod n (2 ^ 52)
  have hmod := Nat.mod_lt n (Nat.two_pow_pos 52)
  unfold magnitude
  rcases Nat.lt_or_ge (n % 2 ^ 52 + 1) (2 ^ 52) with hlt | hge
  · have hE : (n + 1) / 2 ^ 52 = n / 2 ^ 52 := by omega
    have hf : (n + 1) % 2 ^ 52 = n % 2 ^ 52 + 1 := by omega
    rw [hE, hf]
    split
    · next h0 =>
      rw [h0, Nat.max_eq_right (by omega), Nat.cast_succ, add_mul, one_mul,
        show ((1 : ℕ) : ℤ) - 1075 = -1074 from rfl]
    · next h0 =>
      rw [Nat.max_eq_left (by omega)]
      push_cast
      ring
  · -- the fraction is full: the exponent field takes the carry
    have hE : (n + 1) / 2 ^ 52 = n / 2 ^ 52 + 1 := by omega
    have hf : (n + 1) % 2 ^ 52 = 0 := by omega
    have hf' : n % 2 ^ 52 = 2 ^ 52 - 1 := by omega
    rw [hE, hf, if_neg (by omega)]
    split
    · next h0 =>
      have hn : n = 2 ^ 52 - 1 := by omega
      rw [h0, Nat.max_eq_right (by omega), hn, show ((0 + 1 : ℕ) : ℤ) - 1075 = -1074 from rfl,
        ← add_one_mul]
      norm_num
    · next h0 =>
      rw [Nat.max_eq_left (by omega), hf', Nat.cast_add (n / 2 ^ 52),
        show ((n / 2 ^ 52 : ℕ) : ℤ) + (1 : ℕ) - 1075 = ((n / 2 ^ 52 : ℕ) - 1075 : ℤ) + 1 by
          push_cast; ring, zpow_add_one₀ (by norm_num)]
      norm_num
      ring

theorem magnitude_strictMono : StrictMono magnitude := by
  apply strictMono_nat_of_lt_succ
  intro n
  rw [magnitude_succ]
  exact lt_add_of_pos_right _ (two_zpow_pos _)

theorem magnitude_zero : magnitude 0 = 0 := by
  norm_num [magnitude]

theorem magnitude_nonneg (n : ℕ) : 0 ≤ magnitude n := by
  rw [← magnitude_zero]
  exact magnitude_strictMono.monotone (Nat.zero_le n)

theorem magnitude_of_lt {n : ℕ} (h : n < 2 ^ 52) : magnitude n = n * 2 ^ (-1074 : ℤ) :=
  if_pos (Nat.div_eq_of_lt h)

theorem value_of_lt {p : ℕ} (h : p < 2 ^ 63) : value p = magnitude p := if_neg (not_le.mpr h)

/-- A positive value has its sign bit clear. -/
theorem lt_of_value_pos {p : ℕ} (h : 0 < value p) : p < 2 ^ 63 := by
  by_contra hge
  unfold value at h
  rw [if_pos (not_lt.mp hge)] at h
  linarith [magnitude_nonneg (p - 2 ^ 63)]

theorem isFinite_of_lt {n : ℕ} (h : n < 2047 * 2 ^ 52) : IsFinite n := by
  unfold IsFinite exponentField
  omega

theorem IsFinite.lt {p : ℕ} (h : IsFinite p) (hp : p < 2 ^ 63) : p < 2047 * 2 ^ 52 := by
  obtain ⟨-, he⟩ := h
  unfold exponentField at he
  omega

/-- Every finite value lies below `2^1024`. -/
theorem IsFinite.value_lt {p : ℕ} (h : IsFinite p) : value p < 2 ^ (1024 : ℤ) := by
  rcases Nat.lt_or_ge p (2 ^ 63) with hp | hp
  · have hinf : magnitude (2047 * 2 ^ 52) = 2 ^ (1024 : ℤ) := by
      have hE : 2047 * 2 ^ 52 / 2 ^ 52 = 2047 := by norm_num
      unfold magnitude
      rw [hE, if_neg (by norm_num), Nat.mul_mod_left, Nat.add_zero, Nat.cast_pow, Nat.cast_ofNat,
        ← zpow_natCast, ← zpow_add₀ (by norm_num)]
      norm_num
    rw [value_of_lt hp, ← hinf]
    exact magnitude_strictMono (h.lt hp)
  · unfold value
    rw [if_pos hp]
    exact lt_of_le_of_lt (neg_nonpos.mpr (magnitude_nonneg _)) (two_zpow_pos _)

/-! ## Neighbours -/

/-- Two finite values with no finite value between them. -/
structure Adjacent (lo hi : ℕ) : Prop where
  lo_finite : IsFinite lo
  hi_finite : IsFinite hi
  lt : value lo < value hi
  gap : ∀ q, IsFinite q → value q ≤ value lo ∨ value hi ≤ value q

/-- The nearer of the two, or the even pattern if `x` is half-way. -/
def nearestEven (lo hi : ℕ) (x : ℚ) : ℕ :=
  if 2 * x < value lo + value hi then lo
  else if value lo + value hi < 2 * x then hi
  else if lo % 2 = 0 then lo else hi

/-- No finite value lies strictly between neighbours. -/
theorem Adjacent.value_ne {lo hi q : ℕ} {x : ℚ} (h : Adjacent lo hi) (hlo : value lo < x)
    (hhi : x < value hi) (hq : IsFinite q) : value q ≠ x := by
  rintro rfl
  rcases h.gap q hq with hle | hge
  · exact absurd hlo (not_lt.mpr hle)
  · exact absurd hhi (not_lt.mpr hge)

/-- Neighbours around a positive number between two consecutive patterns are these two. -/
theorem Adjacent.eq_of_between {lo hi n : ℕ} {x : ℚ} (h : Adjacent lo hi) (hlo : value lo < x)
    (hhi : x < value hi) (hn0 : 0 < n) (hn : n < 2047 * 2 ^ 52) (hx : magnitude n < x)
    (hx' : x < magnitude (n + 1)) : lo = n ∧ hi = n + 1 := by
  have hpos : 0 < magnitude n := by
    rw [← magnitude_zero]
    exact magnitude_strictMono hn0
  have hvn : value n = magnitude n := value_of_lt (by omega)
  -- the pattern `n` is finite, hence not inside the gap
  have hnlo : magnitude n ≤ value lo := by
    rcases h.gap n (isFinite_of_lt hn) with hle | hge
    · rwa [hvn] at hle
    · rw [hvn] at hge
      linarith
  have hlo63 := lt_of_value_pos (hpos.trans_le hnlo)
  have hhi63 := lt_of_value_pos (((hpos.trans_le hnlo).trans hlo).trans hhi)
  have hlt := h.hi_finite.lt hhi63
  rw [value_of_lt hlo63] at hlo hnlo
  rw [value_of_lt hhi63] at hhi
  have hlo1 : n ≤ lo := magnitude_strictMono.le_iff_le.mp hnlo
  have hlo2 : lo < n + 1 := magnitude_strictMono.lt_iff_lt.mp (hlo.trans hx')
  have hhi1 : n < hi := magnitude_strictMono.lt_iff_lt.mp (hx.trans hhi)
  have hhi2 : hi ≤ n + 1 := by
    have hv : value (n + 1) = magnitude (n + 1) := value_of_lt (by omega)
    rcases h.gap (n + 1) (isFinite_of_lt (by omega)) with hle | hge
    · rw [hv, value_of_lt hlo63] at hle
      linarith
    · rw [hv, value_of_lt hhi63] at hge
      exact magnitude_strictMono.le_iff_le.mp hge
  omega

/-- Consecutive finite patterns are neighbours. -/
theorem adjacent_succ {n : ℕ} (hn : n + 1 < 2047 * 2 ^ 52) : Adjacent n (n + 1) := by
  have hvn : value n = magnitude n := value_of_lt (by omega)
  have hvs : value (n + 1) = magnitude (n + 1) := value_of_lt (by omega)
  refine ⟨isFinite_of_lt (by omega), isFinite_of_lt hn, ?_, fun q hq => ?_⟩
  · rw [hvn, hvs]
    exact magnitude_strictMono (Nat.lt_succ_self n)
  · rw [hvn, hvs]
    rcases Nat.lt_or_ge q (2 ^ 63) with hq63 | hq63
    · rw [value_of_lt hq63, magnitude_strictMono.le_iff_le, magnitude_strictMono.le_iff_le]
      omega
    · left
      unfold value
      rw [if_pos hq63]
      linarith [magnitude_nonneg (q - 2 ^ 63), magnitude_nonneg n]

/-! ## The sign -/

theorem negate_negate {p : ℕ} (hp : p < 2 ^ 64) : negate (negate p) = p := by
  unfold negate
  split <;> split <;> omega

theorem value_negate {p : ℕ} (hp : p < 2 ^ 64) : value (negate p) = -value p := by
  unfold value negate
  rcases Nat.lt_or_ge p (2 ^ 63) with h | h
  · rw [if_neg (not_le.mpr h), if_pos (by omega), if_neg (not_le.mpr h), Nat.add_sub_cancel]
  · rw [if_pos h, if_neg (by omega), if_pos h, neg_neg]

theorem IsFinite.negate {p : ℕ} (h : IsFinite p) : IsFinite (negate p) := by
  obtain ⟨hp, he⟩ := h
  unfold IsFinite exponentField Binary64.negate at *
  split <;> omega

theorem Adjacent.negate {lo hi : ℕ} (h : Adjacent lo hi) :
    Adjacent (negate hi) (negate lo) := by
  have hl := value_negate h.lo_finite.1
  have hh := value_negate h.hi_finite.1
  refine ⟨h.hi_finite.negate, h.lo_finite.negate, ?_, fun q hq => ?_⟩
  · rw [hl, hh]
    exact neg_lt_neg h.lt
  · rw [hl, hh]
    rcases h.gap _ hq.negate with hle | hge
    · right
      rw [value_negate hq.1] at hle
      linarith
    · left
      rw [value_negate hq.1] at hge
      linarith

/-- Rounding commutes with the sign, one of the two patterns being odd. -/
theorem nearestEven_negate {lo hi : ℕ} (x : ℚ) (hlo : lo < 2 ^ 64) (hhi : hi < 2 ^ 64)
    (hpar : lo % 2 ≠ hi % 2) :
    nearestEven (negate hi) (negate lo) (-x) = negate (nearestEven lo hi x) := by
  have hmod : negate hi % 2 = hi % 2 := by
    unfold negate
    split <;> omega
  unfold nearestEven
  rw [value_negate hlo, value_negate hhi, hmod]
  rcases lt_trichotomy (2 * x) (value lo + value hi) with h | h | h
  · rw [if_neg (by linarith), if_pos (by linarith), if_pos h]
  · rw [if_neg (by linarith), if_neg (by linarith), if_neg (not_lt.mpr h.ge),
      if_neg (not_lt.mpr h.le)]
    split
    · rw [if_neg (by omega)]
    · rw [if_pos (by omega)]
  · rw [if_pos (by linarith), if_neg (by linarith), if_pos h]

end Binary64
