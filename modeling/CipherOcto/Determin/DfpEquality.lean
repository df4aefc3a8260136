import Mathlib.Data.Prod.Lex
import CipherOcto.Determin.DfpCompare

/-!
# Equality, order and hash of `Dfp`

`determin/src/dfp_compare.rs` writes `PartialEq`, `PartialOrd`, `Ord` and `Hash`
by hand. Equality ignores a zero's sign and a NaN's payload; the order ranks the
classes, then looks at the sign, also of a zero. This file reconciles the four.

The order is read off one key, a lexicographic product of linear orders:

> `dfpCmp_eq_key`: `cmp` compares the keys.

so the order laws are those of the key's order (`Std.TransCmp dfpCmp`), and
`Equal` means equal keys. Against `==` the two differ on one pair only:

> `key_eq_iff`: equal keys are `==`, and `==` values have equal keys unless
> they are the two zeros (`ZerosApart`).

`+0` and `-0` are equal and yet ordered, `-0` first: the module's comments and
tests ask for both.
-/

namespace CipherOcto.Determin

/-- One call on the `Hasher`; `DfpClass` derives `Hash`, which feeds its tag. -/
inductive HashWrite where
  | cls (c : DfpClass)
  | u128 (n : Nat)
  | i32 (n : Int)
  | bool (b : Bool)
deriving Repr, DecidableEq

namespace Dfp

/-- `PartialEq::eq`. -/
protected def eq (self other : Dfp) : Bool :=
  if self.cls ≠ other.cls then false
  else
    match self.cls with
    | .normal => self.mantissa == other.mantissa && self.exponent == other.exponent &&
        self.sign == other.sign
    | .zero => true
    | .infinity => self.sign == other.sign
    | .nan => true

/-- `PartialOrd::partial_cmp`: a NaN is incomparable. -/
def partialCmp (self other : Dfp) : Option Ordering :=
  if self.isNan || other.isNan then none else some (dfpTotalCmp self other)

/-- `Hash::hash`, as what it feeds to the hasher, in order. -/
def hashInput (d : Dfp) : List HashWrite :=
  match d.cls with
  | .normal => [.cls d.cls, .u128 d.mantissa, .i32 d.exponent, .bool d.sign]
  | .zero | .nan => [.cls d.cls]
  | .infinity => [.cls d.cls, .bool d.sign]

/-- The two zeros of opposite sign: equal, yet ordered. -/
def ZerosApart (a b : Dfp) : Prop := a.cls = .zero ∧ b.cls = .zero ∧ a.sign ≠ b.sign

instance (a b : Dfp) : Decidable (a.ZerosApart b) := inferInstanceAs (Decidable (_ ∧ _))

/-! ## The key -/

/-- Rank, sign, exponent, mantissa: the fields the order looks at, with the
magnitude of a negative Normal turned round. -/
def key (d : Dfp) : ℕ ×ₗ Bool ×ₗ ℤ ×ₗ ℤ :=
  match d.cls with
  | .nan => toLex (classRank d.cls, toLex (false, toLex (0, 0)))
  | .zero | .infinity => toLex (classRank d.cls, toLex (!d.sign, toLex (0, 0)))
  | .normal => toLex (classRank d.cls, toLex (!d.sign,
      if d.sign then toLex (-d.exponent, -(d.mantissa : ℤ))
      else toLex (d.exponent, (d.mantissa : ℤ))))

theorem compare_neg_neg (m n : ℤ) : compare (-m) (-n) = compare n m := by
  rcases lt_trichotomy m n with h | h | h
  · rw [compare_gt_iff_gt.mpr h, compare_gt_iff_gt.mpr (neg_lt_neg h)]
  · rw [h, compare_eq_iff_eq.mpr rfl, compare_eq_iff_eq.mpr rfl]
  · rw [compare_lt_iff_lt.mpr h, compare_lt_iff_lt.mpr (neg_lt_neg h)]

theorem compare_natCast (m n : ℕ) : compare (m : ℤ) (n : ℤ) = compare m n := by
  rcases lt_trichotomy m n with h | h | h
  · rw [compare_lt_iff_lt.mpr h, compare_lt_iff_lt.mpr (Int.ofNat_lt.mpr h)]
  · rw [h, compare_eq_iff_eq.mpr rfl, compare_eq_iff_eq.mpr rfl]
  · rw [compare_gt_iff_gt.mpr h, compare_gt_iff_gt.mpr (Int.ofNat_lt.mpr h)]

theorem compare_toLex {α β : Type} [Ord α] [Ord β] (a c : α) (b d : β) :
    compare (toLex (a, b)) (toLex (c, d)) = (compare a c).then (compare b d) := rfl

/-- `cmp` compares the keys. -/
theorem dfpCmp_eq_key (a b : Dfp) : dfpCmp a b = compare a.key b.key := by
  unfold dfpCmp dfpTotalCmp
  by_cases hr : classRank a.cls = classRank b.cls
  · have hc : a.cls = b.cls := by
      revert hr
      cases a.cls <;> cases b.cls <;> decide
    rw [if_neg (not_not_intro hr)]
    unfold key
    rw [← hc]
    cases a.cls with
    | nan => rfl
    | zero => cases a.sign <;> cases b.sign <;> rfl
    | infinity => cases a.sign <;> cases b.sign <;> rfl
    | normal =>
      cases a.sign <;> cases b.sign <;>
        simp [compare_toLex, compare_neg_neg, compare_natCast] <;> rfl
  · have hkey : ∀ d : Dfp, ∃ k, d.key = toLex (classRank d.cls, k) := by
      intro d
      unfold key
      cases d.cls <;> exact ⟨_, rfl⟩
    obtain ⟨k, hk⟩ := hkey a
    obtain ⟨l, hl⟩ := hkey b
    rw [if_pos hr, hk, hl, compare_toLex]
    rcases Nat.lt_or_gt_of_ne hr with h | h
    · rw [compare_lt_iff_lt.mpr h]
      rfl
    · rw [compare_gt_iff_gt.mpr h]
      rfl

/-- Equal keys: equal values, and not the two zeros. -/
theorem key_eq_iff (a b : Dfp) : a.key = b.key ↔ a.eq b = true ∧ ¬ a.ZerosApart b := by
  unfold Dfp.eq ZerosApart key
  by_cases hc : a.cls = b.cls
  · rw [← hc]
    cases a.cls with
    | nan => simp
    | zero => cases a.sign <;> cases b.sign <;> simp
    | infinity => cases a.sign <;> cases b.sign <;> simp
    | normal =>
      cases a.sign <;> cases b.sign <;> simp [and_comm]
  · refine iff_of_false ?_ ?_
    · cases ha : a.cls <;> cases hb : b.cls <;> simp_all [classRank]
    · rw [if_pos hc]
      exact fun h => Bool.false_ne_true h.1

/-! ## The laws -/

instance : Std.TransCmp dfpCmp where
  eq_swap {a b} := by
    rw [dfpCmp_eq_key, dfpCmp_eq_key]
    exact Std.OrientedOrd.eq_swap
  isLE_trans {a b c} := by
    rw [dfpCmp_eq_key, dfpCmp_eq_key, dfpCmp_eq_key]
    exact Std.TransCmp.isLE_trans

theorem dfpCmp_eq_iff (a b : Dfp) : dfpCmp a b = .eq ↔ a.eq b = true ∧ ¬ a.ZerosApart b := by
  rw [dfpCmp_eq_key, compare_eq_iff_eq, key_eq_iff]

/-- Each outcome is transitive, as `Ord` asks. -/
theorem dfpCmp_trans (o : Ordering) {a b c : Dfp} (hab : dfpCmp a b = o) (hbc : dfpCmp b c = o) :
    dfpCmp a c = o := by
  cases o with
  | lt => exact Std.TransCmp.lt_trans hab hbc
  | eq => exact Std.TransCmp.eq_trans hab hbc
  | gt => exact Std.TransCmp.gt_trans hab hbc

theorem hashInput_of_eq {a b : Dfp} (h : a.eq b = true) : a.hashInput = b.hashInput := by
  unfold Dfp.eq at h
  unfold hashInput
  split at h
  · cases h
  · next hc =>
    rw [not_not.mp hc] at h ⊢
    cases hb : b.cls with
    | nan => rfl
    | zero => rfl
    | infinity => simp_all
    | normal => simp_all

theorem partialCmp_of_not_nan {a b : Dfp} (ha : a.isNan = false) (hb : b.isNan = false) :
    a.partialCmp b = some (dfpCmp a b) := by
  unfold partialCmp
  rw [ha, hb]
  rfl

/-- **`Eq`, `Ord` and `Hash` agree, the two zeros apart.** -/
theorem eq_ord_hash_coherent :
    (∀ a : Dfp, dfpCmp a a = .eq) ∧
    (∀ a b : Dfp, dfpCmp b a = (dfpCmp a b).swap) ∧
    (∀ (o : Ordering) (a b c : Dfp), dfpCmp a b = o → dfpCmp b c = o → dfpCmp a c = o) ∧
    (∀ a b c : Dfp, dfpCmp a b ≠ .gt → dfpCmp b c ≠ .gt → dfpCmp a c ≠ .gt) ∧
    (∀ a b : Dfp, dfpCmp a b = .eq ↔ a.eq b = true ∧ ¬ a.ZerosApart b) ∧
    (∀ a b : Dfp, a.eq b = true → a.hashInput = b.hashInput) ∧
    ∀ a b : Dfp, a.isNan = false → b.isNan = false →
      (a.partialCmp b = some .eq ↔ a.eq b = true ∧ ¬ a.ZerosApart b) := by
  refine ⟨fun a => Std.ReflCmp.compare_self, fun a b => Std.OrientedCmp.eq_swap,
    fun o a b c => dfpCmp_trans o, ?_, dfpCmp_eq_iff, fun a b => hashInput_of_eq, ?_⟩
  · intro a b c hab hbc
    exact Ordering.isLE_iff_ne_gt.mp (Std.TransCmp.isLE_trans
      (Ordering.isLE_iff_ne_gt.mpr hab) (Ordering.isLE_iff_ne_gt.mpr hbc))
  · intro a b ha hb
    rw [partialCmp_of_not_nan ha hb, Option.some_inj, dfpCmp_eq_iff]

/-- `+0 == -0`, while `cmp` and `partial_cmp` put `-0` first. -/
theorem zeros_equal_and_ordered :
    (¬ ∀ a b : Dfp, dfpCmp a b = .eq ↔ a.eq b = true) ∧
      ¬ ∀ a b : Dfp, a.isNan = false → b.isNan = false →
        (a.partialCmp b = some .eq ↔ a.eq b = true) := by
  constructor
  · intro h
    exact absurd ((h negZero zero).mpr (by decide)) (by decide)
  · intro h
    exact absurd ((h negZero zero (by decide) (by decide)).mpr (by decide)) (by decide)

end Dfp

end CipherOcto.Determin
