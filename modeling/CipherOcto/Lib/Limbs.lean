import CipherOcto.Lib.Machine

/-!
# Natural numbers as lists of 64-bit limbs

The value of a limb list, least significant limb first, and the facts every
multi-word algorithm needs: how the value splits (`val_append`), how large it
is (`val_lt`), what popping high zeros does (`trim`), and that comparing limbs
from the top compares values (`cmpTop_eq`).

A number has one *trimmed* list (`Trimmed.ext`): no high zero limb, and never
empty. It is `ofNat`.
-/

namespace Limbs

open Machine

/-- The number a limb list stands for. -/
def val : List UInt64 → Nat
  | [] => 0
  | l :: ls => l.toNat + 2 ^ 64 * val ls

@[simp] theorem val_nil : val [] = 0 := rfl

@[simp] theorem val_cons (l : UInt64) (ls : List UInt64) :
    val (l :: ls) = l.toNat + 2 ^ 64 * val ls := rfl

theorem val_append (xs ys : List UInt64) :
    val (xs ++ ys) = val xs + (2 ^ 64) ^ xs.length * val ys := by
  induction xs with
  | nil => simp
  | cons x xs ih =>
    rw [List.cons_append, val_cons, val_cons, ih, List.length_cons, pow_succ' (2 ^ 64) xs.length]
    ring

theorem val_concat (xs : List UInt64) (x : UInt64) :
    val (xs ++ [x]) = val xs + (2 ^ 64) ^ xs.length * x.toNat := by
  rw [val_append, val_cons, val_nil, mul_zero, add_zero]

theorem val_lt (xs : List UInt64) : val xs < (2 ^ 64) ^ xs.length := by
  induction xs with
  | nil => simp
  | cons x xs ih =>
    have hx := x.toNat_lt
    rw [val_cons, List.length_cons, pow_succ' (2 ^ 64) xs.length]
    omega

@[simp] theorem val_replicate_zero (n : Nat) : val (List.replicate n 0) = 0 := by
  induction n with
  | zero => rfl
  | succ n ih => simp [List.replicate_succ, ih]

theorem val_take_add_drop (n : Nat) (xs : List UInt64) (h : n ≤ xs.length) :
    val (xs.take n) + (2 ^ 64) ^ n * val (xs.drop n) = val xs := by
  have happ := val_append (xs.take n) (xs.drop n)
  rw [List.take_append_drop, List.length_take, min_eq_left h] at happ
  exact happ.symm

/-- What lies above the value is zero. -/
theorem val_take_of_lt {n : Nat} {xs : List UInt64} (h : n ≤ xs.length)
    (hlt : val xs < (2 ^ 64) ^ n) : val (xs.take n) = val xs := by
  have hsplit := val_take_add_drop n xs h
  have hzero : val (xs.drop n) = 0 := by
    by_contra hne
    have : (2 ^ 64) ^ n * 1 ≤ (2 ^ 64) ^ n * val (xs.drop n) :=
      Nat.mul_le_mul_left _ (Nat.pos_of_ne_zero hne)
    omega
  rw [hzero] at hsplit
  omega

/-- Dropping limbs divides. -/
theorem val_drop (n : Nat) (xs : List UInt64) : val (xs.drop n) = val xs / (2 ^ 64) ^ n := by
  rcases le_total n xs.length with h | h
  · have hlow := val_lt (xs.take n)
    rw [List.length_take, min_eq_left h] at hlow
    rw [← val_take_add_drop n xs h, Nat.add_mul_div_left _ _ (by positivity),
      Nat.div_eq_of_lt hlow, Nat.zero_add]
  · have hlt : val xs < (2 ^ 64) ^ n :=
      lt_of_lt_of_le (val_lt xs) (Nat.pow_le_pow_right (by norm_num) h)
    rw [List.drop_eq_nil_of_le h, val_nil, Nat.div_eq_of_lt hlt]

/-- Lists of one length are determined by their value. -/
theorem eq_of_val_eq : ∀ {xs ys : List UInt64}, xs.length = ys.length → val xs = val ys → xs = ys
  | [], [], _, _ => rfl
  | x :: xs, y :: ys, hlen, hval => by
    have hx := x.toNat_lt
    have hy := y.toNat_lt
    rw [val_cons, val_cons] at hval
    have hhead : x = y := UInt64.toNat_inj.mp (by omega)
    have htail : val xs = val ys := by omega
    rw [hhead, eq_of_val_eq (Nat.succ.inj hlen) htail]

/-! ## Words -/

/-- The low word of a double word, `n as u64`. -/
theorem toNat_ofNat (n : Nat) : (UInt64.ofNat n).toNat = n % 2 ^ 64 := UInt64.toNat_ofNat'

theorem toNat_ofNat_of_lt {n : Nat} (h : n < 2 ^ 64) : (UInt64.ofNat n).toNat = n := by
  rw [toNat_ofNat, Nat.mod_eq_of_lt h]

/-- Low and high word put a double word together again. -/
theorem ofNat_add_high (n : Nat) : (UInt64.ofNat n).toNat + 2 ^ 64 * (n / 2 ^ 64) = n := by
  rw [toNat_ofNat]
  exact Nat.mod_add_div n (2 ^ 64)

/-! ## High zeros -/

/-- Pop zero limbs off the top, keeping at least one limb. The argument is most
significant limb first. -/
def popZeros : List UInt64 → List UInt64
  | x :: y :: ls => if x = 0 then popZeros (y :: ls) else x :: y :: ls
  | ls => ls

/-- `while len > 1 && last == 0 { pop }`. -/
def trim (ls : List UInt64) : List UInt64 := (popZeros ls.reverse).reverse

/-- Not empty, and no zero limb on top unless it is the only one. -/
def Trimmed (ls : List UInt64) : Prop := ls ≠ [] ∧ (1 < ls.length → ls.getLast? ≠ some 0)

theorem val_popZeros (ls : List UInt64) : val (popZeros ls).reverse = val ls.reverse := by
  fun_induction popZeros ls with
  | case1 y ls ih => rw [ih, List.reverse_cons (a := 0), val_concat]; simp
  | case2 => rfl
  | case3 => rfl

theorem val_trim (ls : List UInt64) : val (trim ls) = val ls := by
  unfold trim
  rw [val_popZeros, List.reverse_reverse]

theorem popZeros_trimmed (ls : List UInt64) :
    ls ≠ [] → popZeros ls ≠ [] ∧ (1 < (popZeros ls).length → (popZeros ls).head? ≠ some 0) := by
  fun_induction popZeros ls with
  | case1 y ls ih => intro _; exact ih (List.cons_ne_nil _ _)
  | case2 x y ls h => intro _; exact ⟨List.cons_ne_nil _ _, fun _ => by simpa using h⟩
  | case3 ls h =>
    intro hne
    refine ⟨hne, ?_⟩
    intro hlen
    -- a list that is not covered by the first case has at most one limb
    match ls, h with
    | [], _ => simp at hlen
    | [x], _ => simp at hlen
    | x :: y :: ls, h => exact absurd rfl (h x y ls)

theorem trim_trimmed {ls : List UInt64} (h : ls ≠ []) : Trimmed (trim ls) := by
  obtain ⟨hne, hhead⟩ := popZeros_trimmed ls.reverse (by simpa using h)
  unfold Trimmed trim
  rw [List.length_reverse, List.getLast?_reverse]
  exact ⟨by simpa using hne, hhead⟩

/-- A trimmed list of more than one limb fills its top limb. -/
theorem Trimmed.le_val {ls : List UInt64} (h : Trimmed ls) (hlen : 1 < ls.length) :
    (2 ^ 64) ^ (ls.length - 1) ≤ val ls := by
  obtain ⟨xs, x, rfl⟩ : ∃ xs x, ls = xs ++ [x] :=
    ⟨_, _, (List.dropLast_append_getLast h.1).symm⟩
  have hx : x ≠ 0 := by
    intro h0
    exact h.2 hlen (by simp [h0])
  have hpos : 1 ≤ x.toNat := by
    rw [Nat.one_le_iff_ne_zero]
    intro h0
    exact hx (UInt64.toNat_inj.mp (by simpa using h0))
  rw [val_concat, List.length_append, List.length_singleton, Nat.add_sub_cancel]
  exact le_trans (Nat.le_mul_of_pos_right _ hpos) (Nat.le_add_left _ _)

/-- The length of a trimmed list can be read off its value. -/
theorem Trimmed.length_le {xs ys : List UInt64} (hx : Trimmed xs) (hy : ys ≠ [])
    (h : val xs ≤ val ys) : xs.length ≤ ys.length := by
  by_contra hlt
  have hypos := List.length_pos_of_ne_nil hy
  have hle := hx.le_val (by omega)
  have hpow : (2 ^ 64) ^ ys.length ≤ (2 ^ 64) ^ (xs.length - 1) :=
    Nat.pow_le_pow_right (by norm_num) (by omega)
  have hlt' := val_lt ys
  omega

theorem Trimmed.ext {xs ys : List UInt64} (hx : Trimmed xs) (hy : Trimmed ys)
    (h : val xs = val ys) : xs = ys :=
  eq_of_val_eq (le_antisymm (hx.length_le hy.1 h.le) (hy.length_le hx.1 h.ge)) h

theorem Trimmed.eq_zero_iff {ls : List UInt64} (h : Trimmed ls) : ls = [0] ↔ val ls = 0 := by
  refine ⟨fun h0 => by rw [h0]; rfl, fun h0 => ?_⟩
  exact h.ext ⟨List.cons_ne_nil _ _, fun hlt => absurd hlt (by simp)⟩ (by rw [h0]; rfl)

/-! ## The limbs of a number -/

/-- The trimmed limbs of `n`. -/
def ofNat (n : Nat) : List UInt64 :=
  if n = 0 then [0] else (Nat.digits (2 ^ 64) n).map UInt64.ofNat

theorem val_map_ofNat : ∀ {ds : List Nat}, (∀ d ∈ ds, d < 2 ^ 64) →
    val (ds.map UInt64.ofNat) = Nat.ofDigits (2 ^ 64) ds
  | [], _ => rfl
  | d :: ds, h => by
    rw [List.map_cons, val_cons, Nat.ofDigits_cons,
      val_map_ofNat fun x hx => h x (List.mem_cons_of_mem d hx),
      toNat_ofNat_of_lt (h d List.mem_cons_self)]

theorem val_ofNat (n : Nat) : val (ofNat n) = n := by
  unfold ofNat
  split
  next h => rw [h]; rfl
  next =>
    rw [val_map_ofNat fun d hd => Nat.digits_lt_base (by norm_num) hd]
    exact Nat.ofDigits_digits _ n

theorem ofNat_trimmed (n : Nat) : Trimmed (ofNat n) := by
  unfold ofNat
  split
  next => exact ⟨List.cons_ne_nil _ _, fun h => absurd h (by simp)⟩
  next h =>
    have hne : Nat.digits (2 ^ 64) n ≠ [] := Nat.digits_ne_nil_iff_ne_zero.mpr h
    refine ⟨by simpa using hne, fun _ h0 => ?_⟩
    rw [List.getLast?_map, List.getLast?_eq_some_getLast hne] at h0
    simp only [Option.map_some, Option.some.injEq] at h0
    -- the last digit is below the base, so the cast to a limb loses nothing
    have hlt := Nat.digits_lt_base (b := 2 ^ 64) (by norm_num) (List.getLast_mem hne)
    have hval := congrArg UInt64.toNat h0
    rw [toNat_ofNat_of_lt hlt] at hval
    exact Nat.getLast_digit_ne_zero (2 ^ 64) h hval

theorem Trimmed.eq_ofNat {ls : List UInt64} (h : Trimmed ls) : ls = ofNat (val ls) :=
  h.ext (ofNat_trimmed _) (val_ofNat _).symm

/-! ## Comparison -/

/-- Compare limb by limb, most significant limb first. -/
def cmpTop : List UInt64 → List UInt64 → Ordering
  | x :: xs, y :: ys => (compare x.toNat y.toNat).then (cmpTop xs ys)
  | _, _ => .eq

theorem cmpTop_eq : ∀ {xs ys : List UInt64}, xs.length = ys.length →
    cmpTop xs ys = compare (val xs.reverse) (val ys.reverse)
  | [], [], _ => rfl
  | x :: xs, y :: ys, hlen => by
    have hlen' : xs.length = ys.length := Nat.succ.inj hlen
    have hx := val_lt xs.reverse
    have hy := val_lt ys.reverse
    rw [List.length_reverse] at hx hy
    rw [cmpTop, cmpTop_eq hlen', List.reverse_cons, List.reverse_cons, val_concat, val_concat,
      List.length_reverse, List.length_reverse, ← hlen']
    rw [← hlen'] at hy
    -- the top limbs decide unless they are equal
    rcases lt_trichotomy x.toNat y.toNat with h | h | h
    · have hstep : (2 ^ 64) ^ xs.length * x.toNat + (2 ^ 64) ^ xs.length
          ≤ (2 ^ 64) ^ xs.length * y.toNat := by
        rw [← Nat.mul_succ]; exact Nat.mul_le_mul_left _ h
      rw [compare_lt_iff_lt.mpr h, Ordering.lt_then, compare_lt_iff_lt.mpr (by omega)]
    · rw [h, compare_eq_iff_eq.mpr rfl, Ordering.eq_then]
      rcases lt_trichotomy (val xs.reverse) (val ys.reverse) with h' | h' | h'
      · rw [compare_lt_iff_lt.mpr h', compare_lt_iff_lt.mpr (by omega)]
      · rw [h', compare_eq_iff_eq.mpr rfl, compare_eq_iff_eq.mpr rfl]
      · rw [compare_gt_iff_gt.mpr h', compare_gt_iff_gt.mpr (by omega)]
    · have hstep : (2 ^ 64) ^ xs.length * y.toNat + (2 ^ 64) ^ xs.length
          ≤ (2 ^ 64) ^ xs.length * x.toNat := by
        rw [← Nat.mul_succ]; exact Nat.mul_le_mul_left _ h
      rw [compare_gt_iff_gt.mpr h, Ordering.gt_then, compare_gt_iff_gt.mpr (by omega)]

end Limbs
