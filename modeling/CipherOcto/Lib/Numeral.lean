import Mathlib

/-!
# Numerals in groups of digits

Long numerals are read and written in groups that fit a machine word. Digits
and groups are kept least significant first here, as `Nat.ofDigits` has them;
`chunks w` cuts a list into groups of `w`, the last one shorter.

> `ofDigits_chunks`: the groups of a numeral are its digits in the larger base.
> `toDigits_mul_pow_add`: a numeral is written as its leading group followed by
> the others, padded.
> `ofDigits_reverse_add_eq_iff`: what becomes of a numeral whose groups are
> taken in the wrong order.
-/

namespace Numeral

variable {α β : Type}

/-! ## Groups -/

/-- `slice::chunks`. -/
def chunks (w : Nat) (xs : List α) : List (List α) :=
  if 0 < w ∧ xs ≠ [] then xs.take w :: chunks w (xs.drop w) else []
termination_by xs.length
decreasing_by
  have hpos := List.length_pos_of_ne_nil ‹0 < w ∧ xs ≠ []›.2
  rw [List.length_drop]
  omega

@[simp] theorem chunks_nil (w : Nat) : chunks w ([] : List α) = [] := by
  unfold chunks
  rw [if_neg fun h => h.2 rfl]

theorem chunks_of_ne_nil {w : Nat} {xs : List α} (hw : 0 < w) (h : xs ≠ []) :
    chunks w xs = xs.take w :: chunks w (xs.drop w) := by
  conv_lhs => unfold chunks
  rw [if_pos ⟨hw, h⟩]

theorem chunks_eq_nil_iff {w : Nat} {xs : List α} (hw : 0 < w) : chunks w xs = [] ↔ xs = [] := by
  constructor
  · intro h
    by_contra hne
    rw [chunks_of_ne_nil hw hne] at h
    cases h
  · intro h
    rw [h, chunks_nil]

theorem chunks_map (w : Nat) (f : α → β) (xs : List α) :
    chunks w (xs.map f) = (chunks w xs).map (List.map f) := by
  fun_induction chunks w xs with
  | case1 xs h ih =>
    rw [chunks_of_ne_nil h.1 (by simpa using h.2), List.map_cons, ← List.map_take,
      ← List.map_drop, ih]
  | case2 xs h =>
    unfold chunks
    rw [if_neg (by simpa using h), List.map_nil]

/-- A group has at most `w` digits, all of the list. -/
theorem mem_chunks {w : Nat} {xs g : List α} (h : g ∈ chunks w xs) :
    g.length ≤ w ∧ ∀ x ∈ g, x ∈ xs := by
  fun_induction chunks w xs with
  | case1 xs _ ih =>
    rcases List.mem_cons.mp h with rfl | hrest
    · exact ⟨List.length_take_le w xs, fun x => List.mem_of_mem_take⟩
    · obtain ⟨hlen, hmem⟩ := ih hrest
      exact ⟨hlen, fun x hx => List.mem_of_mem_drop (hmem x hx)⟩
  | case2 => cases h

/-- More than one group needs more than `w` digits. -/
theorem length_chunks_le_one_iff {w : Nat} {xs : List α} (hw : 0 < w) :
    (chunks w xs).length ≤ 1 ↔ xs.length ≤ w := by
  by_cases h : xs = []
  · rw [h, chunks_nil]
    exact iff_of_true (Nat.zero_le _) (Nat.zero_le _)
  · rw [chunks_of_ne_nil hw h, List.length_cons, Nat.succ_le_succ_iff, Nat.le_zero,
      List.length_eq_zero_iff, chunks_eq_nil_iff hw, List.drop_eq_nil_iff]

/-- The last group ends where the list does. -/
theorem getLast?_chunks {w : Nat} {xs g : List α} (h : (chunks w xs).getLast? = some g) :
    g.getLast? = xs.getLast? := by
  fun_induction chunks w xs with
  | case1 xs hne ih =>
    by_cases hdrop : xs.drop w = []
    · rw [hdrop, chunks_nil, List.getLast?_singleton, Option.some.injEq] at h
      rw [← h, List.take_of_length_le (List.drop_eq_nil_iff.mp hdrop)]
    · have hchunks : chunks w (xs.drop w) ≠ [] := by rwa [Ne, chunks_eq_nil_iff hne.1]
      rw [List.getLast?_cons_of_ne_nil hchunks] at h
      rw [ih h, List.getLast?_drop, if_neg (by rwa [List.drop_eq_nil_iff] at hdrop)]
  | case2 => cases h

/-- **The groups are digits in the larger base.** -/
theorem ofDigits_chunks (b : Nat) {w : Nat} (hw : 0 < w) (ds : List Nat) :
    Nat.ofDigits (b ^ w) ((chunks w ds).map (Nat.ofDigits b)) = Nat.ofDigits b ds := by
  fun_induction chunks w ds with
  | case1 ds _ ih =>
    rw [List.map_cons, Nat.ofDigits_cons, ih]
    conv_rhs => rw [← List.take_append_drop w ds, Nat.ofDigits_append]
    rcases le_total w ds.length with hle | hle
    · rw [List.length_take, min_eq_left hle]
    · rw [List.drop_eq_nil_of_le hle]
      simp
  | case2 ds h =>
    obtain rfl : ds = [] := by_contra fun hne => h ⟨hw, hne⟩
    rfl

/-- Reading from the most significant digit on. -/
theorem foldl_eq_ofDigits (b : Nat) (digit : α → Nat) (xs : List α) :
    xs.foldl (fun acc x => b * acc + digit x) 0 = Nat.ofDigits b (xs.map digit).reverse := by
  induction xs using List.reverseRecOn with
  | nil => rfl
  | append_singleton xs x ih =>
    rw [List.foldl_append, ih, List.map_append, List.reverse_append]
    show b * _ + digit x = Nat.ofDigits b (digit x :: _)
    rw [Nat.ofDigits_cons, add_comm]
    rfl

/-! ## Groups in the wrong order -/

theorem ofDigits_eq_zero_reverse {b : Nat} (hb : 1 < b) {ds : List Nat} (hds : ∀ d ∈ ds, d < b)
    (h : Nat.ofDigits b ds = 0) : Nat.ofDigits b ds.reverse = 0 := by
  have hzero : ds = List.replicate ds.length 0 := by
    refine Nat.ofDigits_inj_of_len_eq hb (by rw [List.length_replicate]) hds ?_ ?_
    · intro d hd
      rw [List.eq_of_mem_replicate hd]
      omega
    · rw [h, Nat.ofDigits_replicate_zero]
  rw [hzero, List.reverse_replicate, Nat.ofDigits_replicate_zero]

/-- **Taking the groups below the leading one in the opposite order, and adding
the leading one**, gives the numeral's value only where there is nothing below
it, or where it is zero and the rest reads the same in both orders. -/
theorem ofDigits_reverse_add_eq_iff {b : Nat} (hb : 1 < b) {ds : List Nat}
    (hds : ∀ d ∈ ds, d < b) (t : Nat) :
    Nat.ofDigits b ds.reverse + t = Nat.ofDigits b (ds ++ [t]) ↔
      ds = [] ∨ t = 0 ∧ ds.reverse = ds := by
  rw [Nat.ofDigits_append, Nat.ofDigits_singleton]
  by_cases hnil : ds = []
  · rw [hnil]
    simp
  have hy := Nat.ofDigits_lt_base_pow_length hb hds
  have hx : Nat.ofDigits b ds.reverse < b ^ ds.length := by
    have hrev : ∀ d ∈ ds.reverse, d < b := fun d hd => hds d (List.mem_reverse.mp hd)
    have hlt := Nat.ofDigits_lt_base_pow_length hb hrev
    rwa [List.length_reverse] at hlt
  have hpow : 1 < b ^ ds.length :=
    Nat.one_lt_pow (by rwa [Ne, List.length_eq_zero_iff]) hb
  rw [or_iff_right hnil]
  constructor
  · intro h
    have ht : t = 0 := by
      by_contra hne
      -- the leading group can be at most one, over zeros
      have hone : t ≤ 1 := by
        by_contra htwo
        have hmul : 2 * (t - 1) ≤ b ^ ds.length * (t - 1) := Nat.mul_le_mul_right _ hpow
        have hsplit : b ^ ds.length * t = b ^ ds.length * (t - 1) + b ^ ds.length := by
          rw [← Nat.mul_succ, Nat.succ_eq_add_one, Nat.sub_add_cancel (by omega)]
        omega
      obtain rfl : t = 1 := by omega
      have hzero := ofDigits_eq_zero_reverse hb hds (by omega)
      omega
    refine ⟨ht, ?_⟩
    refine Nat.ofDigits_inj_of_len_eq hb List.length_reverse ?_ hds ?_
    · exact fun d hd => hds d (List.mem_reverse.mp hd)
    · rw [ht] at h
      simpa using h
  · intro h
    obtain ⟨rfl, hrev⟩ := h
    rw [hrev, Nat.mul_zero]

/-! ## Writing -/

/-- `format!("{:0w$}", n)`: at least `w` characters. -/
def padded (w n : Nat) : List Char :=
  List.replicate (w - (Nat.toDigits 10 n).length) '0' ++ Nat.toDigits 10 n

theorem padded_succ {w : Nat} (hw : 0 < w) (n : Nat) :
    padded (w + 1) n = padded w (n / 10) ++ [Nat.digitChar (n % 10)] := by
  unfold padded
  by_cases h : n < 10
  · have hrep : List.replicate w '0' = List.replicate (w - 1) '0' ++ ['0'] := by
      rw [← List.replicate_succ', Nat.sub_add_cancel hw]
    rw [Nat.div_eq_of_lt h, Nat.mod_eq_of_lt h, Nat.toDigits_of_lt_base h, Nat.toDigits_zero]
    show List.replicate w '0' ++ _ = (List.replicate (w - 1) '0' ++ ['0']) ++ _
    rw [← hrep]
  · rw [Nat.toDigits_of_base_le (b := 10) (n := n) (by norm_num) (not_lt.mp h),
      List.length_append, List.length_singleton, Nat.add_sub_add_right, List.append_assoc]

theorem toDigits_mul_ten_add {q d : Nat} (hq : 0 < q) (hd : d < 10) :
    Nat.toDigits 10 (q * 10 + d) = Nat.toDigits 10 q ++ [Nat.digitChar d] := by
  rw [mul_comm, ← Nat.toDigits_append_toDigits (by norm_num) hq hd, Nat.toDigits_of_lt_base hd]

/-- **A group below the leading one is written with all its digits.** -/
theorem toDigits_mul_pow_add {q : Nat} (hq : 0 < q) : ∀ {w : Nat}, 0 < w → ∀ {r : Nat},
    r < 10 ^ w → Nat.toDigits 10 (q * 10 ^ w + r) = Nat.toDigits 10 q ++ padded w r
  | 1, _, r, hr => by
    have hlt : r < 10 := hr
    rw [pow_one, toDigits_mul_ten_add hq hlt]
    unfold padded
    rw [Nat.toDigits_of_lt_base hlt]
    rfl
  | w + 2, _, r, hr => by
    have hdiv : r / 10 < 10 ^ (w + 1) := by
      rw [pow_succ] at hr
      omega
    have hsplit : q * 10 ^ (w + 2) + r = (q * 10 ^ (w + 1) + r / 10) * 10 + r % 10 := by
      rw [pow_succ 10 (w + 1), ← mul_assoc]
      omega
    rw [hsplit, toDigits_mul_ten_add (by positivity) (Nat.mod_lt _ (by norm_num)),
      toDigits_mul_pow_add hq (Nat.succ_pos w) hdiv, padded_succ (Nat.succ_pos w),
      List.append_assoc]

/-- A written number does not start with a zero. -/
theorem head_toDigits_ne_zero {n : Nat} (h : 0 < n) : (Nat.toDigits 10 n).head? ≠ some '0' := by
  induction n using Nat.strong_induction_on with
  | _ n ih =>
    rw [Nat.toDigits_eq_if (by norm_num)]
    split
    · intro h0
      rw [List.head?_cons, Option.some.injEq, Nat.digitChar_eq_zero] at h0
      omega
    · rw [List.head?_append_of_ne_nil _ Nat.toDigits_ne_nil]
      exact ih (n / 10) (by omega) (by omega)

/-- A written number ends with its last digit. -/
theorem getLast?_toDigits (n : Nat) :
    (Nat.toDigits 10 n).getLast? = some (Nat.digitChar (n % 10)) := by
  rw [Nat.toDigits_eq_if (by norm_num)]
  split
  · next h => rw [Nat.mod_eq_of_lt h, List.getLast?_singleton]
  · rw [List.getLast?_append, List.getLast?_singleton, Option.some_or]

end Numeral
