import Mathlib

/-!
# The trial quotient of long division

One digit of schoolbook division (Knuth, Algorithm D): the window `W` of the
running remainder is below `V * B`, and its quotient digit `W / V` is guessed
from the two top digits of `W` and the top digit of `V`, then corrected with
one more digit of each.

`Window` collects what the guess may rely on: `W` and `V` are bracketed by
their leading digits at the weight `P` of the digits that are not looked at,
and the top digit of `V` is at least half the base. The three facts of the
algorithm are about a candidate `q` and the residue `uTop * B + uMid - q * vTop`:

> `trial_ge`: the first guess is not too small.
> `lt_of_test`: a guess that fails the three-digit test is too large.
> `le_succ_of_test`: a guess that passes it is at most one too large.
-/

namespace Knuth

/-- A division window with its leading digits. -/
structure Window (B P uTop uMid uLow vTop vNext W V : Nat) : Prop where
  base_pos : 2 ≤ B
  weight_pos : 0 < P
  uMid_lt : uMid < B
  uLow_lt : uLow < B
  vNext_lt : vNext < B
  normalized : B ≤ 2 * vTop
  le_W : ((uTop * B + uMid) * B + uLow) * P ≤ W
  W_lt : W < ((uTop * B + uMid) * B + uLow + 1) * P
  le_V : (vTop * B + vNext) * P ≤ V
  V_lt : V < (vTop * B + vNext + 1) * P
  W_lt_V : W < V * B

namespace Window

variable {B P uTop uMid uLow vTop vNext W V : Nat}

theorem vTop_pos (h : Window B P uTop uMid uLow vTop vNext W V) : 0 < vTop := by
  have := h.base_pos
  have := h.normalized
  omega

theorem V_pos (h : Window B P uTop uMid uLow vTop vNext W V) : 0 < V := by
  have hlt := h.W_lt_V
  rcases Nat.eq_zero_or_pos V with h0 | h0
  · rw [h0, zero_mul] at hlt
    omega
  · exact h0

/-- The digit is a digit. -/
theorem quotient_lt (h : Window B P uTop uMid uLow vTop vNext W V) : W / V < B := by
  rw [Nat.div_lt_iff_lt_mul h.V_pos, mul_comm]
  exact h.W_lt_V

/-- The window cannot start above the divisor. -/
theorem uTop_le (h : Window B P uTop uMid uLow vTop vNext W V) : uTop ≤ vTop := by
  by_contra hlt
  have hstep : vTop + 1 ≤ uTop := by omega
  have hnext := h.vNext_lt
  have hV : V < (vTop + 1) * B * P := by
    refine lt_of_lt_of_le h.V_lt (Nat.mul_le_mul_right P ?_)
    rw [add_mul]
    omega
  have hW : uTop * B * B * P ≤ W := by
    refine le_trans (Nat.mul_le_mul_right P ?_) h.le_W
    rw [add_mul]
    omega
  have hchain : V * B < uTop * B * B * P := by
    calc V * B < (vTop + 1) * B * P * B := Nat.mul_lt_mul_of_pos_right hV (by have := h.base_pos; omega)
      _ ≤ uTop * B * P * B :=
        Nat.mul_le_mul_right B (Nat.mul_le_mul_right P (Nat.mul_le_mul_right B hstep))
      _ = uTop * B * B * P := by ring
  have := h.W_lt_V
  omega

/-- What the digit times the leading digit of the divisor can reach. -/
theorem quotient_mul_vTop_le (h : Window B P uTop uMid uLow vTop vNext W V) :
    W / V * vTop ≤ uTop * B + uMid := by
  have hmul : W / V * V ≤ W := Nat.div_mul_le_self W V
  have hlow := h.uLow_lt
  have hV : vTop * B * P ≤ V :=
    le_trans (Nat.mul_le_mul_right P (Nat.le_add_right _ _)) h.le_V
  have hW : W < (uTop * B + uMid + 1) * (B * P) := by
    refine lt_of_lt_of_le h.W_lt ?_
    rw [← mul_assoc]
    refine Nat.mul_le_mul_right P ?_
    rw [add_mul _ 1 B]
    omega
  have hlt : W / V * vTop * (B * P) < (uTop * B + uMid + 1) * (B * P) :=
    calc W / V * vTop * (B * P) = W / V * (vTop * B * P) := by ring
      _ ≤ W / V * V := Nat.mul_le_mul_left _ hV
      _ ≤ W := hmul
      _ < _ := hW
  have := Nat.lt_of_mul_lt_mul_right hlt
  omega

/-- **The first guess is not too small**, whether it is the two-digit quotient
or the largest digit. -/
theorem trial_ge (h : Window B P uTop uMid uLow vTop vNext W V) :
    W / V ≤ (if uTop = vTop then B - 1 else (uTop * B + uMid) / vTop) := by
  split
  next =>
    have := h.quotient_lt
    omega
  next =>
    rw [Nat.le_div_iff_mul_le h.vTop_pos]
    exact h.quotient_mul_vTop_le

theorem trial_lt (h : Window B P uTop uMid uLow vTop vNext W V) :
    (if uTop = vTop then B - 1 else (uTop * B + uMid) / vTop) < B := by
  have hbase := h.base_pos
  split
  next => omega
  next hne =>
    have hlt : uTop < vTop := lt_of_le_of_ne h.uTop_le hne
    have hmid := h.uMid_lt
    rw [Nat.div_lt_iff_lt_mul h.vTop_pos, mul_comm B]
    calc uTop * B + uMid < uTop * B + B := by omega
      _ = (uTop + 1) * B := by ring
      _ ≤ vTop * B := Nat.mul_le_mul_right B hlt

/-- The guess times the leading digit stays below the two leading digits, so
the residue is a natural number. -/
theorem trial_mul_le (B uTop uMid vTop : Nat) :
    (if uTop = vTop then B - 1 else (uTop * B + uMid) / vTop) * vTop ≤ uTop * B + uMid := by
  split
  next heq =>
    rw [heq, mul_comm]
    exact le_trans (Nat.mul_le_mul_left vTop (Nat.sub_le B 1)) (Nat.le_add_right _ _)
  next => exact Nat.div_mul_le_self _ _

variable {q : Nat}

/-- The three-digit test on the residue is a comparison of three digits with
two. -/
theorem test_iff (hq : q * vTop ≤ uTop * B + uMid) :
    q * vNext ≤ B * (uTop * B + uMid - q * vTop) + uLow ↔
      q * (vTop * B + vNext) ≤ (uTop * B + uMid) * B + uLow := by
  obtain ⟨r, hr⟩ : ∃ r, uTop * B + uMid = q * vTop + r := ⟨_, (Nat.add_sub_of_le hq).symm⟩
  rw [hr, Nat.add_sub_cancel_left, mul_add q, add_mul (q * vTop), ← mul_assoc, mul_comm B r]
  omega

/-- **A guess that fails the test is too large.** -/
theorem lt_of_test (h : Window B P uTop uMid uLow vTop vNext W V)
    (hq : q * vTop ≤ uTop * B + uMid)
    (htest : ¬ q * vNext ≤ B * (uTop * B + uMid - q * vTop) + uLow) : W / V < q := by
  rw [test_iff hq, not_le] at htest
  rw [Nat.div_lt_iff_lt_mul h.V_pos]
  calc W < ((uTop * B + uMid) * B + uLow + 1) * P := h.W_lt
    _ ≤ q * (vTop * B + vNext) * P := Nat.mul_le_mul_right P htest
    _ = q * ((vTop * B + vNext) * P) := by rw [mul_assoc]
    _ ≤ q * V := Nat.mul_le_mul_left q h.le_V

/-- A residue of at least one base digit passes the test without being asked. -/
theorem test_of_residue_ge (h : Window B P uTop uMid uLow vTop vNext W V) (hqB : q < B)
    (hr : B ≤ uTop * B + uMid - q * vTop) :
    q * vNext ≤ B * (uTop * B + uMid - q * vTop) + uLow := by
  have hnext := h.vNext_lt
  calc q * vNext ≤ B * B := Nat.mul_le_mul hqB.le hnext.le
    _ ≤ B * (uTop * B + uMid - q * vTop) := Nat.mul_le_mul_left B hr
    _ ≤ _ := Nat.le_add_right _ _

/-- **A guess that passes the test is at most one too large.** -/
theorem le_succ_of_test (h : Window B P uTop uMid uLow vTop vNext W V) (hqB : q < B)
    (hq : q * vTop ≤ uTop * B + uMid)
    (htest : q * vNext ≤ B * (uTop * B + uMid - q * vTop) + uLow) : q ≤ W / V + 1 := by
  rw [test_iff hq] at htest
  have hV : q * P ≤ V := by
    calc q * P ≤ B * P := Nat.mul_le_mul_right P hqB.le
      _ ≤ vTop * B * P := Nat.mul_le_mul_right P (Nat.le_mul_of_pos_left B h.vTop_pos)
      _ ≤ (vTop * B + vNext) * P := Nat.mul_le_mul_right P (Nat.le_add_right _ _)
      _ ≤ V := h.le_V
  -- the digits of `V` that were not looked at cost at most one more `V`
  have hbound : q * V ≤ W + V := by
    calc q * V ≤ q * ((vTop * B + vNext + 1) * P) := Nat.mul_le_mul_left q h.V_lt.le
      _ = q * (vTop * B + vNext) * P + q * P := by ring
      _ ≤ ((uTop * B + uMid) * B + uLow) * P + V :=
        Nat.add_le_add (Nat.mul_le_mul_right P htest) hV
      _ ≤ W + V := Nat.add_le_add_right h.le_W V
  rw [← Nat.add_div_right W h.V_pos, Nat.le_div_iff_mul_le h.V_pos]
  exact hbound

end Window

end Knuth
