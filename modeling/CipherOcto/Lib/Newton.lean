import Mathlib.Data.Nat.Sqrt
import Mathlib.Logic.Function.Iterate
import Mathlib.Tactic.Linarith
import Mathlib.Tactic.Ring
import CipherOcto.Lib.Machine

/-!
# Newton's integer square root

The iteration `x ↦ (x + n / x) / 2` on natural numbers, against `Nat.sqrt n`.
It never falls below the root, and on its way down it squares its error; at the
end it may not settle, but stays within one of the root.

> `le_newtonStep`, `newtonStep_lt`: no step goes below the root, and from above it each one
> goes down.
> `Within.step`: the precision is squared, and doubled.
> `newton_near`: after `k + 2` steps or more, with `Nat.sqrt n` below
> `precision k`, the iterate is the root or one more.
-/

namespace Newton

open Machine (bitLen bitLen_pos lt_two_pow_bitLen two_pow_pred_bitLen_le)

/-- One step. -/
def newtonStep (n x : Nat) : Nat := (x + n / x) / 2

/-- The arithmetic mean is not below the geometric one. -/
theorem le_newtonStep {n x : Nat} (hx : 0 < x) : n.sqrt ≤ newtonStep n x := by
  have hmean : 2 * n.sqrt < x + (n / x + 1) := by
    by_contra hle
    have hsq : (x + (n / x + 1)) ^ 2 ≤ (2 * n.sqrt) ^ 2 := Nat.pow_le_pow_left (not_lt.mp hle) 2
    have : 4 * n < 4 * n := calc
      4 * n < 4 * (x * (n / x + 1)) := by
        have := Nat.lt_mul_div_succ n hx
        omega
      _ = 4 * x * (n / x + 1) := (mul_assoc _ _ _).symm
      _ ≤ (x + (n / x + 1)) ^ 2 := four_mul_le_sq_add _ _
      _ ≤ (2 * n.sqrt) ^ 2 := hsq
      _ = 4 * (n.sqrt * n.sqrt) := by ring
      _ ≤ 4 * n := Nat.mul_le_mul_left 4 (Nat.sqrt_le n)
    exact lt_irrefl _ this
  unfold newtonStep
  omega

/-- Above the root a step goes down. -/
theorem newtonStep_lt {n x : Nat} (h : n.sqrt < x) : newtonStep n x < x := by
  have hdiv : n / x < x := Nat.div_lt_of_lt_mul (Nat.sqrt_lt.mp h)
  unfold newtonStep
  omega

/-- How far one step leaves the iterate above the root: the error squared over
twice the iterate, and what the two divisions lose. -/
theorem newtonStep_gap {n d : Nat} (h : 0 < n.sqrt + d) :
    ∃ e, newtonStep n (n.sqrt + d) = n.sqrt + e ∧ 2 * (n.sqrt + d) * e ≤ d ^ 2 + 2 * n.sqrt := by
  obtain ⟨e, he⟩ : ∃ e, newtonStep n (n.sqrt + d) = n.sqrt + e :=
    Nat.exists_eq_add_of_le (le_newtonStep h)
  refine ⟨e, he, ?_⟩
  have hroot : n ≤ n.sqrt * n.sqrt + n.sqrt + n.sqrt := Nat.sqrt_le_add n
  have hdiv : (n.sqrt + d) * (n / (n.sqrt + d)) ≤ n := Nat.mul_div_le n _
  have htwice : 2 * (n.sqrt + e) ≤ n.sqrt + d + n / (n.sqrt + d) := by
    rw [← he]
    unfold newtonStep
    omega
  have hprod := Nat.mul_le_mul_left (n.sqrt + d) htwice
  generalize n / (n.sqrt + d) = q at hdiv hprod
  nlinarith

/-! ## Convergence -/

/-- Above the root by at most a `K`-th of it, and two. -/
structure Within (n K x : Nat) : Prop where
  root_le : n.sqrt ≤ x
  gap_le : K * (x - n.sqrt) ≤ n.sqrt + 2 * K

theorem within_add {n K d : Nat} : Within n K (n.sqrt + d) ↔ K * d ≤ n.sqrt + 2 * K := by
  constructor
  · intro h
    have hgap := h.gap_le
    rwa [Nat.add_sub_cancel_left] at hgap
  · intro h
    exact ⟨Nat.le_add_right _ _, by rwa [Nat.add_sub_cancel_left]⟩

/-- The first step from a guess between the root and its double. -/
theorem within_first {n x : Nat} (hs : 0 < n.sqrt) (hlo : n.sqrt ≤ x) (hhi : x ≤ 2 * n.sqrt) :
    Within n 4 (newtonStep n x) := by
  obtain ⟨d, rfl⟩ := Nat.exists_eq_add_of_le hlo
  obtain ⟨e, he, hgap⟩ := newtonStep_gap (n := n) (d := d) (by omega)
  rw [he, within_add]
  have hd : d ≤ n.sqrt := by omega
  by_contra hbig
  rw [not_le] at hbig
  nlinarith

/-- **The precision is squared, and doubled.** -/
theorem Within.step {n K x : Nat} (hK : 4 ≤ K) (hs : 4 ≤ n.sqrt) (h : Within n K x) :
    Within n (2 * K * K) (newtonStep n x) := by
  obtain ⟨d, rfl⟩ := Nat.exists_eq_add_of_le h.root_le
  obtain ⟨e, he, hgap⟩ := newtonStep_gap (n := n) (d := d) (by omega)
  rw [within_add] at h
  rw [he, within_add]
  have hd : (K * d) ^ 2 ≤ (n.sqrt + 2 * K) ^ 2 := Nat.pow_le_pow_left h 2
  have h1 : 4 * (K * n.sqrt) ≤ K * (K * n.sqrt) := Nat.mul_le_mul_right _ hK
  have h2 : 4 * (K * K) ≤ n.sqrt * (K * K) := Nat.mul_le_mul_right _ hs
  refine Nat.le_of_mul_le_mul_left (c := n.sqrt) ?_ (by omega)
  calc n.sqrt * (2 * K * K * e)
      ≤ K ^ 2 * (2 * (n.sqrt + d) * e) := by nlinarith [Nat.zero_le (K ^ 2 * d * e)]
    _ ≤ K ^ 2 * (d ^ 2 + 2 * n.sqrt) := Nat.mul_le_mul_left _ hgap
    _ = (K * d) ^ 2 + 2 * (n.sqrt * (K * K)) := by ring
    _ ≤ (n.sqrt + 2 * K) ^ 2 + 2 * (n.sqrt * (K * K)) := Nat.add_le_add_right hd _
    _ = n.sqrt * n.sqrt + 4 * (K * n.sqrt) + 4 * (K * K) + 2 * (n.sqrt * (K * K)) := by ring
    _ ≤ n.sqrt * n.sqrt + K * (K * n.sqrt) + n.sqrt * (K * K) + 2 * (n.sqrt * (K * K)) := by
        linarith only [h1, h2]
    _ = n.sqrt * (n.sqrt + 2 * (2 * K * K)) := by ring

/-- A precision above the root leaves at most two. -/
theorem Within.le_add_two {n K x : Nat} (hK : n.sqrt < K) (h : Within n K x) :
    x ≤ n.sqrt + 2 := by
  obtain ⟨d, rfl⟩ := Nat.exists_eq_add_of_le h.root_le
  rw [within_add] at h
  by_contra hbig
  have h3 : K * 3 ≤ K * d := Nat.mul_le_mul_left K (by omega)
  omega

/-- From within two of the root a step goes to within one. -/
theorem newtonStep_near {n x : Nat} (hs : 4 ≤ n.sqrt) (hlo : n.sqrt ≤ x) (hhi : x ≤ n.sqrt + 2) :
    n.sqrt ≤ newtonStep n x ∧ newtonStep n x ≤ n.sqrt + 1 := by
  obtain ⟨d, rfl⟩ := Nat.exists_eq_add_of_le hlo
  obtain ⟨e, he, hgap⟩ := newtonStep_gap (n := n) (d := d) (by omega)
  have hd : d ≤ 2 := by omega
  have he1 : e ≤ 1 := by
    by_contra hbig
    have hsq : d ^ 2 ≤ 2 ^ 2 := Nat.pow_le_pow_left hd 2
    have htwo := Nat.mul_le_mul_left (2 * (n.sqrt + d)) (show 2 ≤ e by omega)
    omega
  omega

/-- The precision after `k` steps more than one. -/
def precision : Nat → Nat
  | 0 => 4
  | k + 1 => 2 * precision k * precision k

theorem four_le_precision : ∀ k, 4 ≤ precision k
  | 0 => le_rfl
  | k + 1 => by
    have h := four_le_precision k
    exact h.trans (Nat.le_mul_of_pos_left _ (by omega))

theorem two_mul_precision : ∀ k, 2 * precision k = 2 ^ (3 * 2 ^ k)
  | 0 => rfl
  | k + 1 => by
    have h := two_mul_precision k
    calc 2 * precision (k + 1) = 2 * precision k * (2 * precision k) := by
          rw [precision]
          ring
      _ = 2 ^ (3 * 2 ^ (k + 1)) := by
          rw [h, ← pow_add]
          congr 1
          ring

section
variable {n x : Nat} (hs : 4 ≤ n.sqrt) (hlo : n.sqrt ≤ x) (hhi : x ≤ 2 * n.sqrt)
include hs hlo hhi

theorem within_iterate : ∀ k, Within n (precision k) ((newtonStep n)^[k + 1] x)
  | 0 => within_first (by omega) hlo hhi
  | k + 1 => by
    rw [Function.iterate_succ_apply']
    exact (within_iterate k).step (four_le_precision k) hs

/-- **Past enough steps the iterate is the root or one more.** -/
theorem newton_near {k j : Nat} (hk : n.sqrt < precision k) (hj : k + 2 ≤ j) :
    n.sqrt ≤ (newtonStep n)^[j] x ∧ (newtonStep n)^[j] x ≤ n.sqrt + 1 := by
  induction j, hj using Nat.le_induction with
  | base =>
    have hwithin := within_iterate hs hlo hhi k
    rw [Function.iterate_succ_apply']
    exact newtonStep_near hs hwithin.root_le (hwithin.le_add_two hk)
  | succ j _ ih =>
    rw [Function.iterate_succ_apply']
    exact newtonStep_near hs ih.1 (by omega)

end

/-! ## The starting guess -/

/-- The power of two at half the bit length, rounded up. -/
theorem guess_bounds {n : Nat} (h : n ≠ 0) :
    n.sqrt ≤ 2 ^ ((bitLen n + 1) / 2) ∧ 2 ^ ((bitLen n + 1) / 2) ≤ 2 * n.sqrt := by
  have hpos := bitLen_pos h
  obtain ⟨c, hc⟩ : ∃ c, (bitLen n + 1) / 2 = c + 1 := ⟨(bitLen n + 1) / 2 - 1, by omega⟩
  have hlow : 2 ^ c ≤ n.sqrt := by
    rw [Nat.le_sqrt, ← pow_add]
    exact le_trans (Nat.pow_le_pow_right (by norm_num) (by omega)) (two_pow_pred_bitLen_le h)
  have hhigh : n.sqrt < 2 ^ (c + 1) := by
    rw [Nat.sqrt_lt, ← pow_add]
    exact lt_of_lt_of_le (lt_two_pow_bitLen n) (Nat.pow_le_pow_right (by norm_num) (by omega))
  rw [hc]
  refine ⟨hhigh.le, ?_⟩
  rw [pow_succ']
  exact Nat.mul_le_mul_left 2 hlow

end Newton
