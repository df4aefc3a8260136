import CipherOcto.Determin.Dfp

/-!
# The total order on `Dfp`

`determin/src/dfp_compare.rs` orders values by class, then sign, then exponent,
then mantissa, and builds `min`, `max` and `clamp` on that order. Two things
keep it from being the numeric order:

* the class rank puts Zero below every Normal, the negative ones included;
* mantissas are normalised to odd form, so a larger exponent does not mean a
  larger magnitude: `2 = 1 * 2^1` sorts above `3 = 3 * 2^0`.

`Misordered a b` names exactly the pairs where this bites: `a` is numerically
below `b` and the code answers Greater (`dfpTotalCmp_of_value_lt`). Everything
else in the file is read off that lemma and the antisymmetry of the comparison.
-/

namespace CipherOcto.Determin

open Rounding (two_zpow_pos dyadic_lt_iff odd_dyadic_inj)

/-- `class_rank`. -/
def classRank : DfpClass → Nat
  | .nan => 3
  | .infinity => 2
  | .normal => 1
  | .zero => 0

/-- `dfp_total_cmp`. -/
def dfpTotalCmp (this other : Dfp) : Ordering :=
  if classRank this.cls ≠ classRank other.cls then
    compare (classRank this.cls) (classRank other.cls)
  else
    match this.cls with
    | .nan => .eq
    | .zero | .infinity => compare other.sign this.sign
    | .normal =>
      if this.sign ≠ other.sign then
        if this.sign then .lt else .gt
      else
        let expCmp := if this.sign then compare other.exponent this.exponent
          else compare this.exponent other.exponent
        let mantCmp := if this.sign then compare other.mantissa this.mantissa
          else compare this.mantissa other.mantissa
        expCmp.then mantCmp

/-- `dfp_cmp`, which is `Ord::cmp`. -/
def dfpCmp (a b : Dfp) : Ordering := dfpTotalCmp a b

namespace Dfp

def isNan (d : Dfp) : Bool := d.cls == .nan

/-- `Dfp::min`: `self` unless the order says Greater. -/
protected def min (self other : Dfp) : Dfp :=
  match dfpTotalCmp self other with
  | .gt => other
  | _ => self

/-- `Dfp::max`: `self` unless the order says Less. -/
protected def max (self other : Dfp) : Dfp :=
  match dfpTotalCmp self other with
  | .lt => other
  | _ => self

/-- `Dfp::clamp`: NaN and inverted bounds answer `lo`. -/
def clamp (self lo hi : Dfp) : Dfp :=
  if self.isNan then lo
  else if dfpTotalCmp lo hi = .gt then lo
  else
    let belowLo := dfpTotalCmp self lo = .lt
    let aboveHi := dfpTotalCmp self hi = .gt
    if belowLo then lo else if aboveHi then hi else self

/-- `a` is numerically below `b`, yet sorts above it: a negative Normal against
a Zero, or two Normals of one sign whose exponents compare the other way round
from their magnitudes. -/
def Misordered (a b : Dfp) : Prop :=
  a.cls = .normal ∧ a.sign = true ∧ b.cls = .zero ∨
  a.cls = .normal ∧ b.cls = .normal ∧ a.sign = false ∧ b.sign = false ∧
    b.exponent < a.exponent ∧ a.mantissa * 2 ^ (a.exponent - b.exponent).toNat < b.mantissa ∨
  a.cls = .normal ∧ b.cls = .normal ∧ a.sign = true ∧ b.sign = true ∧
    a.exponent < b.exponent ∧ b.mantissa * 2 ^ (b.exponent - a.exponent).toNat < a.mantissa

instance (a b : Dfp) : Decidable (a.Misordered b) := inferInstanceAs (Decidable (_ ∨ _))

end Dfp

/-! ## The comparison against the value -/

/-- Swapping the operands reverses the answer. -/
theorem dfpTotalCmp_swap (a b : Dfp) : dfpTotalCmp b a = (dfpTotalCmp a b).swap := by
  unfold dfpTotalCmp
  by_cases hr : classRank a.cls = classRank b.cls
  · have hc : a.cls = b.cls := by
      revert hr
      cases a.cls <;> cases b.cls <;> decide
    rw [if_neg (not_not_intro hr.symm), if_neg (not_not_intro hr), ← hc]
    cases a.cls with
    | nan => rfl
    | zero => cases a.sign <;> cases b.sign <;> rfl
    | infinity => cases a.sign <;> cases b.sign <;> rfl
    | normal =>
      cases a.sign <;> cases b.sign <;>
        simp [Ordering.swap_then, Std.OrientedOrd.eq_swap (a := a.exponent),
          Std.OrientedOrd.eq_swap (a := a.mantissa)]
  · rw [if_pos (Ne.symm hr), if_pos hr]
    exact Std.OrientedOrd.eq_swap

namespace Dfp

variable {a b : Dfp}

/-- Which of two positive magnitudes the exponent-first comparison prefers. -/
theorem expThenMant_of_lt {m n : Nat} {e f : Int} (h : (m : ℚ) * 2 ^ e < n * 2 ^ f) :
    (compare e f).then (compare m n) = if f < e then .gt else .lt := by
  rcases lt_trichotomy e f with hlt | heq | hgt
  · rw [compare_lt_iff_lt.mpr hlt, if_neg (by omega)]
    rfl
  · subst heq
    have hmn : m < n := by simpa using (dyadic_lt_iff m n le_rfl).mp h
    rw [compare_eq_iff_eq.mpr rfl, compare_lt_iff_lt.mpr hmn, if_neg (lt_irrefl e)]
    rfl
  · rw [compare_gt_iff_gt.mpr hgt, if_pos hgt]
    rfl

/-- **The comparison, on numerically ordered operands**: Less, except on the
misordered pairs, where it answers Greater. -/
theorem dfpTotalCmp_of_value_lt (ha : a.FiniteOdd) (hb : b.FiniteOdd) (h : a.value < b.value) :
    dfpTotalCmp a b = if a.Misordered b then .gt else .lt := by
  rcases ha with hac | ⟨hac, haodd, -⟩ <;> rcases hb with hbc | ⟨hbc, hbodd, -⟩
  · rw [value_zero hac, value_zero hbc] at h
    exact absurd h (lt_irrefl 0)
  · simp [dfpTotalCmp, Misordered, hac, hbc, classRank, compare_lt_iff_lt.mpr Nat.zero_lt_one]
  · -- a negative Normal against Zero
    have hs : a.sign = true := by
      by_contra hs
      rw [value_pos_normal hac (by simpa using hs), value_zero hbc] at h
      exact absurd h (not_lt.mpr (magnitude_pos haodd).le)
    simp [dfpTotalCmp, Misordered, hac, hbc, hs, classRank,
      compare_gt_iff_gt.mpr Nat.zero_lt_one]
  · have hapos := magnitude_pos haodd
    have hbpos := magnitude_pos hbodd
    rcases Bool.eq_false_or_eq_true a.sign with has | has <;>
      rcases Bool.eq_false_or_eq_true b.sign with hbs | hbs
    · rw [value_neg_normal hac has, value_neg_normal hbc hbs, neg_lt_neg_iff] at h
      have hmis : a.Misordered b ↔ a.exponent < b.exponent := by
        simp only [Misordered, hac, hbc, has, hbs, reduceCtorEq, Bool.true_eq_false, and_false,
          false_and, true_and, false_or, and_iff_left_iff_imp]
        exact fun hlt => (dyadic_lt_iff _ _ hlt.le).mp h
      simp only [dfpTotalCmp, hac, hbc, has, hbs, ne_eq, not_true_eq_false, if_false, if_true,
        expThenMant_of_lt h, hmis]
    · simp [dfpTotalCmp, Misordered, hac, hbc, has, hbs]
    · rw [value_pos_normal hac has, value_neg_normal hbc hbs] at h
      linarith
    · rw [value_pos_normal hac has, value_pos_normal hbc hbs] at h
      have hmis : a.Misordered b ↔ b.exponent < a.exponent := by
        simp only [Misordered, hac, hbc, has, hbs, reduceCtorEq, Bool.false_eq_true, and_false,
          false_and, true_and, false_or, or_false, and_iff_left_iff_imp]
        exact fun hlt => (dyadic_lt_iff _ _ hlt.le).mp h
      simp only [dfpTotalCmp, hac, hbc, has, hbs, ne_eq, not_true_eq_false, if_false,
        Bool.false_eq_true, expThenMant_of_lt h, hmis]

/-- A misordered pair is numerically ordered. -/
theorem Misordered.value_lt (ha : a.FiniteOdd) (h : a.Misordered b) : a.value < b.value := by
  rcases h with ⟨hac, has, hbc⟩ | ⟨hac, hbc, has, hbs, hexp, hlt⟩ | ⟨hac, hbc, has, hbs, hexp, hlt⟩
  · rcases ha with hac' | ⟨-, haodd, -⟩
    · rw [hac] at hac'
      cases hac'
    · rw [value_neg_normal hac has, value_zero hbc, neg_lt_zero]
      exact magnitude_pos haodd
  · rw [value_pos_normal hac has, value_pos_normal hbc hbs]
    exact (dyadic_lt_iff _ _ hexp.le).mpr hlt
  · rw [value_neg_normal hac has, value_neg_normal hbc hbs, neg_lt_neg_iff]
    exact (dyadic_lt_iff _ _ hexp.le).mpr hlt

theorem dfpTotalCmp_eq_lt_of_value_lt (ha : a.FiniteOdd) (hb : b.FiniteOdd)
    (h : a.value < b.value) (hm : ¬ a.Misordered b) : dfpTotalCmp a b = .lt := by
  rw [dfpTotalCmp_of_value_lt ha hb h, if_neg hm]

theorem dfpTotalCmp_eq_gt_of_value_lt (ha : a.FiniteOdd) (hb : b.FiniteOdd)
    (h : b.value < a.value) (hm : ¬ b.Misordered a) : dfpTotalCmp a b = .gt := by
  rw [dfpTotalCmp_swap, dfpTotalCmp_eq_lt_of_value_lt hb ha h hm]
  rfl

theorem Misordered.cmp_eq_gt (ha : a.FiniteOdd) (hb : b.FiniteOdd) (h : a.Misordered b) :
    dfpTotalCmp a b = .gt := by
  rw [dfpTotalCmp_of_value_lt ha hb (h.value_lt ha), if_pos h]

theorem Misordered.cmp_eq_lt (ha : a.FiniteOdd) (hb : b.FiniteOdd) (h : b.Misordered a) :
    dfpTotalCmp a b = .lt := by
  rw [dfpTotalCmp_swap, h.cmp_eq_gt hb ha]
  rfl

/-- A Normal's value determines its fields. -/
theorem normal_eq_of_value_eq (hac : a.cls = .normal) (hbc : b.cls = .normal)
    (hao : a.mantissa % 2 = 1) (hbo : b.mantissa % 2 = 1) (h : a.value = b.value) : a = b := by
  have hapos := magnitude_pos hao
  have hbpos := magnitude_pos hbo
  have hfields : a.sign = b.sign ∧ (a.mantissa : ℚ) * 2 ^ a.exponent = b.mantissa * 2 ^ b.exponent := by
    rcases Bool.eq_false_or_eq_true a.sign with has | has <;>
      rcases Bool.eq_false_or_eq_true b.sign with hbs | hbs
    · rw [value_neg_normal hac has, value_neg_normal hbc hbs, neg_inj] at h
      exact ⟨has.trans hbs.symm, h⟩
    · rw [value_neg_normal hac has, value_pos_normal hbc hbs] at h
      linarith
    · rw [value_pos_normal hac has, value_neg_normal hbc hbs] at h
      linarith
    · rw [value_pos_normal hac has, value_pos_normal hbc hbs] at h
      exact ⟨has.trans hbs.symm, h⟩
  obtain ⟨hm, he⟩ := odd_dyadic_inj hao hbo hfields.2
  cases a
  cases b
  simp_all

theorem value_ne_zero (hc : a.cls = .normal) (ho : a.mantissa % 2 = 1) : a.value ≠ 0 := by
  have hpos := magnitude_pos ho
  rcases Bool.eq_false_or_eq_true a.sign with hs | hs
  · rw [value_neg_normal hc hs]
    linarith
  · rw [value_pos_normal hc hs]
    linarith

/-- Numerically equal operands are the same Normal or both Zero. -/
theorem eq_or_zero_of_value_eq (ha : a.FiniteOdd) (hb : b.FiniteOdd) (h : a.value = b.value) :
    a = b ∨ a.cls = .zero ∧ b.cls = .zero := by
  rcases ha with hac | ⟨hac, hao, -⟩ <;> rcases hb with hbc | ⟨hbc, hbo, -⟩
  · exact Or.inr ⟨hac, hbc⟩
  · exact absurd (h.symm.trans (value_zero hac)) (value_ne_zero hbc hbo)
  · exact absurd (h.trans (value_zero hbc)) (value_ne_zero hac hao)
  · exact Or.inl (normal_eq_of_value_eq hac hbc hao hbo h)

/-- Misordering only looks at the numbers: equal bounds are interchangeable. -/
theorem misordered_congr (ha : a.FiniteOdd) (hb : b.FiniteOdd) (h : a.value = b.value) (d : Dfp) :
    (d.Misordered a ↔ d.Misordered b) ∧ (a.Misordered d ↔ b.Misordered d) := by
  rcases eq_or_zero_of_value_eq ha hb h with rfl | ⟨hac, hbc⟩
  · exact ⟨Iff.rfl, Iff.rfl⟩
  · simp [Misordered, hac, hbc]

/-! ## `min`, `max` and `clamp` -/

theorem min_of_cmp (a b : Dfp) : a.min b = if dfpTotalCmp a b = .gt then b else a := by
  unfold Dfp.min
  cases dfpTotalCmp a b <;> rfl

theorem max_of_cmp (a b : Dfp) : a.max b = if dfpTotalCmp a b = .lt then b else a := by
  unfold Dfp.max
  cases dfpTotalCmp a b <;> rfl

/-- The comparison and the two selections follow the numeric order. -/
def OrderAgrees (a b : Dfp) : Prop :=
  (a.value < b.value → dfpCmp a b = .lt) ∧ (b.value < a.value → dfpCmp a b = .gt) ∧
    (a.min b).value = min a.value b.value ∧ (a.max b).value = max a.value b.value

theorem orderAgrees_iff (ha : a.FiniteOdd) (hb : b.FiniteOdd) :
    OrderAgrees a b ↔ ¬ a.Misordered b ∧ ¬ b.Misordered a := by
  constructor
  · intro h
    obtain ⟨hlt, hgt, -⟩ := h
    constructor
    · intro hm
      have hcmp := hlt (hm.value_lt ha)
      rw [dfpCmp, hm.cmp_eq_gt ha hb] at hcmp
      cases hcmp
    · intro hm
      have hcmp := hgt (hm.value_lt hb)
      rw [dfpCmp, hm.cmp_eq_lt ha hb] at hcmp
      cases hcmp
  · intro h
    obtain ⟨hab, hba⟩ := h
    refine ⟨fun h => dfpTotalCmp_eq_lt_of_value_lt ha hb h hab,
      fun h => dfpTotalCmp_eq_gt_of_value_lt ha hb h hba, ?_, ?_⟩
    · rw [min_of_cmp]
      rcases lt_trichotomy a.value b.value with h | h | h
      · rw [dfpTotalCmp_eq_lt_of_value_lt ha hb h hab, if_neg (by decide), min_eq_left h.le]
      · split
        · rw [min_eq_right h.ge]
        · rw [min_eq_left h.le]
      · rw [dfpTotalCmp_eq_gt_of_value_lt ha hb h hba, if_pos rfl, min_eq_right h.le]
    · rw [max_of_cmp]
      rcases lt_trichotomy a.value b.value with h | h | h
      · rw [dfpTotalCmp_eq_lt_of_value_lt ha hb h hab, if_pos rfl, max_eq_right h.le]
      · split
        · rw [max_eq_right h.le]
        · rw [max_eq_left h.ge]
      · rw [dfpTotalCmp_eq_gt_of_value_lt ha hb h hba, if_neg (by decide), max_eq_left h.le]

/-- When `clamp` answers the clamped number: the bounds coincide, or, with the
bounds misordered, `d` lies at or below `lo` (which is then what the
inverted-bounds guard returns), or else every comparison that decides is sound. -/
def ClampSound (d lo hi : Dfp) : Prop :=
  lo.value = hi.value ∨
    if lo.Misordered hi then d.value ≤ lo.value
    else ¬ lo.Misordered d ∧ ¬ d.Misordered lo ∧
      (d.value < lo.value ∨ ¬ d.Misordered hi ∧ ¬ hi.Misordered d)

theorem clamp_of_finite {d : Dfp} (hd : d.FiniteOdd) (lo hi : Dfp) :
    d.clamp lo hi = if dfpTotalCmp lo hi = .gt then lo
      else if dfpTotalCmp d lo = .lt then lo else if dfpTotalCmp d hi = .gt then hi else d := by
  have hnan : d.isNan = false := by
    rcases hd with h | ⟨h, -⟩ <;> simp [isNan, h]
  unfold clamp
  rw [hnan]
  rfl

/-- Coinciding bounds: every branch returns that number. -/
theorem clamp_value_of_eq {d lo hi : Dfp} (hd : d.FiniteOdd) (hlo : lo.FiniteOdd)
    (hhi : hi.FiniteOdd) (h : lo.value = hi.value) : (d.clamp lo hi).value = lo.value := by
  rw [clamp_of_finite hd]
  split
  · rfl
  split
  · rfl
  next hbelow =>
    split
    · exact h.symm
    next habove =>
      -- neither below `lo` nor above `hi`, which are one number
      rcases lt_trichotomy d.value lo.value with hlt | heq | hgt
      · have hm : d.Misordered lo := by
          by_contra hm
          exact hbelow (dfpTotalCmp_eq_lt_of_value_lt hd hlo hlt hm)
        exact absurd (((misordered_congr hlo hhi h d).1.mp hm).cmp_eq_gt hd hhi) habove
      · exact heq
      · have hm : hi.Misordered d := by
          by_contra hm
          exact habove (dfpTotalCmp_eq_gt_of_value_lt hd hhi (h ▸ hgt) hm)
        exact absurd (((misordered_congr hlo hhi h d).2.mpr hm).cmp_eq_lt hd hlo) hbelow

/-- Distinct bounds the code orders correctly: the answer is the clamped number
iff the comparisons with `lo` are sound and, unless `d` is below `lo`, so are
those with `hi`. -/
theorem clamp_value_iff_of_lt {d lo hi : Dfp} (hd : d.FiniteOdd) (hlo : lo.FiniteOdd)
    (hhi : hi.FiniteOdd) (h : lo.value < hi.value) (hm : ¬ lo.Misordered hi) :
    (d.clamp lo hi).value = max lo.value (min d.value hi.value) ↔
      ¬ lo.Misordered d ∧ ¬ d.Misordered lo ∧
        (d.value < lo.value ∨ ¬ d.Misordered hi ∧ ¬ hi.Misordered d) := by
  rw [clamp_of_finite hd, dfpTotalCmp_eq_lt_of_value_lt hlo hhi h hm, if_neg (by decide)]
  rcases lt_trichotomy d.value lo.value with hlt | heq | hgt
  · -- below: `lo` is right, and anything else is too large or `d` itself
    have hnm : ¬ lo.Misordered d := fun hm' => lt_asymm hlt (hm'.value_lt hlo)
    have hclamp : max lo.value (min d.value hi.value) = lo.value :=
      max_eq_left ((min_le_left _ _).trans hlt.le)
    by_cases hml : d.Misordered lo
    · rw [hml.cmp_eq_gt hd hlo, if_neg (by decide), hclamp]
      refine iff_of_false ?_ (fun hs => hs.2.1 hml)
      split
      · exact h.ne'
      · exact hlt.ne
    · rw [dfpTotalCmp_eq_lt_of_value_lt hd hlo hlt hml, if_pos rfl, hclamp]
      exact iff_of_true rfl ⟨hnm, hml, Or.inl hlt⟩
  · -- on `lo`: `d` is below `hi` exactly as `lo` is
    have hdhi : d.value < hi.value := heq ▸ h
    have hmd : ¬ d.Misordered hi := fun hm' => hm ((misordered_congr hd hlo heq hi).2.mp hm')
    have hside : ¬ lo.Misordered d ∧ ¬ d.Misordered lo ∧
        (d.value < lo.value ∨ ¬ d.Misordered hi ∧ ¬ hi.Misordered d) :=
      ⟨fun hm' => (hm'.value_lt hlo).ne' heq, fun hm' => (hm'.value_lt hd).ne heq,
        Or.inr ⟨hmd, fun hm' => lt_asymm hdhi (hm'.value_lt hhi)⟩⟩
    simp only [dfpTotalCmp_eq_lt_of_value_lt hd hhi hdhi hmd, reduceCtorEq, if_false]
    rw [min_eq_left hdhi.le, max_eq_right heq.ge]
    refine iff_of_true ?_ hside
    split
    · exact heq.symm
    · rfl
  · have hnm : ¬ d.Misordered lo := fun hm' => lt_asymm hgt (hm'.value_lt hd)
    have hclamp : max lo.value (min d.value hi.value) = min d.value hi.value :=
      max_eq_right (le_min hgt.le h.le)
    rw [hclamp]
    by_cases hml : lo.Misordered d
    · rw [hml.cmp_eq_lt hd hlo, if_pos rfl]
      exact iff_of_false (lt_min hgt h).ne (fun hs => hs.1 hml)
    · rw [dfpTotalCmp_eq_gt_of_value_lt hd hlo hgt hml, if_neg (by decide)]
      rw [show (¬ lo.Misordered d ∧ ¬ d.Misordered lo ∧
          (d.value < lo.value ∨ ¬ d.Misordered hi ∧ ¬ hi.Misordered d)) ↔
          ¬ d.Misordered hi ∧ ¬ hi.Misordered d by simp [hml, hnm, hgt.not_gt]]
      rcases lt_trichotomy d.value hi.value with hlt' | heq' | hgt'
      · rw [min_eq_left hlt'.le]
        have hnh : ¬ hi.Misordered d := fun hm' => lt_asymm hlt' (hm'.value_lt hhi)
        by_cases hmh : d.Misordered hi
        · rw [hmh.cmp_eq_gt hd hhi, if_pos rfl]
          exact iff_of_false hlt'.ne' (fun hs => hs.1 hmh)
        · rw [dfpTotalCmp_eq_lt_of_value_lt hd hhi hlt' hmh, if_neg (by decide)]
          exact iff_of_true rfl ⟨hmh, hnh⟩
      · rw [min_eq_left heq'.le]
        refine iff_of_true ?_ ⟨fun hm' => (hm'.value_lt hd).ne heq',
          fun hm' => (hm'.value_lt hhi).ne' heq'⟩
        split
        · exact heq'.symm
        · rfl
      · rw [min_eq_right hgt'.le]
        have hnh : ¬ d.Misordered hi := fun hm' => lt_asymm hgt' (hm'.value_lt hd)
        by_cases hmh : hi.Misordered d
        · rw [hmh.cmp_eq_lt hd hhi, if_neg (by decide)]
          exact iff_of_false hgt'.ne' (fun hs => hs.2 hmh)
        · rw [dfpTotalCmp_eq_gt_of_value_lt hd hhi hgt' hmh, if_pos rfl]
          exact iff_of_true rfl ⟨hnh, hmh⟩

theorem clamp_value_iff {d lo hi : Dfp} (hd : d.FiniteOdd) (hlo : lo.FiniteOdd)
    (hhi : hi.FiniteOdd) (h : lo.value ≤ hi.value) :
    (d.clamp lo hi).value = max lo.value (min d.value hi.value) ↔ ClampSound d lo hi := by
  unfold ClampSound
  rcases h.lt_or_eq with hlt | heq
  · simp only [hlt.ne, false_or]
    split
    · next hm =>
      -- the inverted-bounds guard fires and answers `lo`
      rw [clamp_of_finite hd, hm.cmp_eq_gt hlo hhi, if_pos rfl]
      constructor
      · intro heq
        have hle : min d.value hi.value ≤ lo.value := heq ▸ le_max_right _ _
        exact (min_le_iff.mp hle).resolve_right hlt.not_ge
      · exact fun hle => (max_eq_left ((min_le_left _ _).trans hle)).symm
    · next hm => exact clamp_value_iff_of_lt hd hlo hhi hlt hm
  · rw [clamp_value_of_eq hd hlo hhi heq, max_eq_left (heq ▸ min_le_right _ _)]
    exact iff_of_true rfl (Or.inl heq)

/-- **When the order is numeric.** The comparison, `min` and `max` follow the
values iff the pair is not misordered, and `clamp` between ordered bounds
returns the clamped value iff its comparisons are sound. -/
theorem cmp_min_max_clamp_iff {a b : Dfp} (ha : a.FiniteOdd) (hb : b.FiniteOdd) :
    (OrderAgrees a b ↔ ¬ a.Misordered b ∧ ¬ b.Misordered a) ∧
      ∀ d : Dfp, d.FiniteOdd → a.value ≤ b.value →
        ((d.clamp a b).value = max a.value (min d.value b.value) ↔ ClampSound d a b) :=
  ⟨orderAgrees_iff ha hb, fun _ hd h => clamp_value_iff hd ha hb h⟩

/-- One and three, with two between them. -/
theorem cmp_min_max_clamp_iff_one_three :
    (OrderAgrees ⟨1, 0, .normal, false⟩ ⟨3, 0, .normal, false⟩ ↔
        ¬ Misordered ⟨1, 0, .normal, false⟩ ⟨3, 0, .normal, false⟩ ∧
          ¬ Misordered ⟨3, 0, .normal, false⟩ ⟨1, 0, .normal, false⟩) ∧
      ((clamp ⟨1, 1, .normal, false⟩ ⟨1, 0, .normal, false⟩ ⟨3, 0, .normal, false⟩).value =
          max (value ⟨1, 0, .normal, false⟩)
            (min (value ⟨1, 1, .normal, false⟩) (value ⟨3, 0, .normal, false⟩)) ↔
        ClampSound ⟨1, 1, .normal, false⟩ ⟨1, 0, .normal, false⟩ ⟨3, 0, .normal, false⟩) := by
  have h := cmp_min_max_clamp_iff (a := ⟨1, 0, .normal, false⟩) (b := ⟨3, 0, .normal, false⟩)
    (by decide) (by decide)
  exact ⟨h.1, h.2 ⟨1, 1, .normal, false⟩ (by decide) (by norm_num [value])⟩

/-- `2 = 1 * 2^1` sorts above `3 = 3 * 2^0`. -/
theorem cmp_two_three_greater :
    ¬ ∀ a b : Dfp, a.FiniteOdd → b.FiniteOdd → OrderAgrees a b := by
  intro h
  have hlt := (h ⟨1, 1, .normal, false⟩ ⟨3, 0, .normal, false⟩ (by decide) (by decide)).1
    (by norm_num [value])
  exact absurd hlt (by decide)

end Dfp

end CipherOcto.Determin
