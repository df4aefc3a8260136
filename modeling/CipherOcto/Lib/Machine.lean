import Mathlib

/-!
# Fixed-width machine arithmetic with overflow tracking

Compiled integer code has two meanings that agree until something leaves its
range: a *wrapping* build reduces every result modulo the width, a *checked*
build stops at the first step that overflows, underflows or shifts by the
width or more. `Tracked α` carries both at once: `val` is what the wrapping
build computes, `ovf` records whether the checked build would have stopped.
A program is written once, in the monad, and both readings are projections:

> `checked_eq_some_iff`: the checked build returns the wrapping value iff the
> flag is clear.

Machine words are `Nat` (unsigned) and `Int` (signed) with explicit widths;
the operations below are the ones whose side conditions matter. The bit
counting functions (`bitLen`, `ctz`) follow the usual conventions:
`ctz w 0 = w`, `clz w 0 = w`.

Code that can fail runs in `Run ε`: it returns a value, an error of its own
type, or it panics (`index`, a table access out of bounds).
-/

namespace Machine

universe u v

/-- A wrapping computation together with the checked build's verdict on it. -/
@[ext]
structure Tracked (α : Type u) where
  val : α
  ovf : Bool
deriving Repr, DecidableEq

namespace Tracked

instance : Monad Tracked where
  pure a := ⟨a, false⟩
  bind x f := ⟨(f x.val).val, x.ovf || (f x.val).ovf⟩

theorem map_id_eq {α : Type u} (x : Tracked α) : id <$> x = x := by
  show (⟨x.val, x.ovf || false⟩ : Tracked α) = x
  rw [Bool.or_false]

theorem bind_bind_eq {α β γ : Type u} (x : Tracked α) (f : α → Tracked β) (g : β → Tracked γ) :
    x >>= f >>= g = x >>= fun a => f a >>= g := by
  show (⟨_, (x.ovf || (f x.val).ovf) || (g (f x.val).val).ovf⟩ : Tracked γ)
    = ⟨_, x.ovf || ((f x.val).ovf || (g (f x.val).val).ovf)⟩
  rw [Bool.or_assoc]
  rfl

instance : LawfulMonad Tracked :=
  LawfulMonad.mk' Tracked map_id_eq (fun _ _ => rfl) bind_bind_eq

variable {α : Type u} {β : Type u}

@[simp] theorem val_pure (a : α) : (pure a : Tracked α).val = a := rfl

@[simp] theorem ovf_pure (a : α) : (pure a : Tracked α).ovf = false := rfl

@[simp] theorem val_bind (x : Tracked α) (f : α → Tracked β) :
    (x >>= f).val = (f x.val).val := rfl

@[simp] theorem ovf_bind (x : Tracked α) (f : α → Tracked β) :
    (x >>= f).ovf = (x.ovf || (f x.val).ovf) := rfl

theorem eq_pure {x : Tracked α} (h : x.ovf = false) : x = pure x.val := Tracked.ext rfl h

theorem mk_bind (a : α) (b : Bool) (f : α → Tracked β) :
    (⟨a, b⟩ : Tracked α) >>= f = ⟨(f a).val, b || (f a).ovf⟩ := rfl

@[simp] theorem val_map (f : α → β) (x : Tracked α) : (f <$> x).val = f x.val := rfl

@[simp] theorem ovf_map (f : α → β) (x : Tracked α) : (f <$> x).ovf = x.ovf := Bool.or_false _

/-- What the checked build returns: nothing once a step has left its range. -/
def checked (x : Tracked α) : Option α := if x.ovf then none else some x.val

theorem checked_eq_some_iff (x : Tracked α) : x.checked = some x.val ↔ x.ovf = false := by
  unfold checked
  cases x.ovf <;> simp

end Tracked

/-! ## Unsigned words -/

/-- `a + b` at width `w`. -/
def addU (w a b : Nat) : Tracked Nat := ⟨(a + b) % 2 ^ w, decide (2 ^ w ≤ a + b)⟩

/-- `a - b` at width `w`. -/
def subU (w a b : Nat) : Tracked Nat := ⟨(a + (2 ^ w - b)) % 2 ^ w, decide (a < b)⟩

/-- `a * b` at width `w`. -/
def mulU (w a b : Nat) : Tracked Nat := ⟨a * b % 2 ^ w, decide (2 ^ w ≤ a * b)⟩

/-- `a << n` at width `w`: the wrapping build masks the shift amount, and
neither build reports the bits that fall off the top. -/
def shlU (w a n : Nat) : Tracked Nat := ⟨a * 2 ^ (n % w) % 2 ^ w, decide (w ≤ n)⟩

/-- `a >> n` at width `w`. -/
def shrU (w a n : Nat) : Tracked Nat := ⟨a / 2 ^ (n % w), decide (w ≤ n)⟩

/-- `a.wrapping_add(b)`. -/
def wrappingAdd (w a b : Nat) : Nat := (a + b) % 2 ^ w

/-- `a.wrapping_sub(b)`. -/
def wrappingSub (w a b : Nat) : Nat := (a + (2 ^ w - b)) % 2 ^ w

theorem addU_of_lt {w a b : Nat} (h : a + b < 2 ^ w) : addU w a b = pure (a + b) := by
  unfold addU
  rw [Nat.mod_eq_of_lt h, decide_eq_false (Nat.not_le.mpr h)]
  rfl

theorem mulU_of_lt {w a b : Nat} (h : a * b < 2 ^ w) : mulU w a b = pure (a * b) := by
  unfold mulU
  rw [Nat.mod_eq_of_lt h, decide_eq_false (Nat.not_le.mpr h)]
  rfl

theorem subU_of_le {w a b : Nat} (hba : b ≤ a) (ha : a < 2 ^ w) :
    subU w a b = pure (a - b) := by
  unfold subU
  rw [show a + (2 ^ w - b) = (a - b) + 2 ^ w by omega, Nat.add_mod_right,
    Nat.mod_eq_of_lt (by omega), decide_eq_false (Nat.not_lt.mpr hba)]
  rfl

/-- A shift by less than the width; the bits above it fall off unreported. -/
theorem shlU_of_lt_width {w a n : Nat} (hn : n < w) : shlU w a n = pure (a * 2 ^ n % 2 ^ w) := by
  unfold shlU
  rw [Nat.mod_eq_of_lt hn, decide_eq_false (Nat.not_le.mpr hn)]
  rfl

theorem shlU_of_lt {w a n : Nat} (hn : n < w) (h : a * 2 ^ n < 2 ^ w) :
    shlU w a n = pure (a * 2 ^ n) := by
  unfold shlU
  rw [Nat.mod_eq_of_lt hn, Nat.mod_eq_of_lt h, decide_eq_false (Nat.not_le.mpr hn)]
  rfl

theorem shrU_of_lt {w a n : Nat} (hn : n < w) : shrU w a n = pure (a / 2 ^ n) := by
  unfold shrU
  rw [Nat.mod_eq_of_lt hn, decide_eq_false (Nat.not_le.mpr hn)]
  rfl

/-! ## Signed words -/

/-- The smallest and largest values of a signed word. -/
def minI (w : Nat) : Int := -(2 ^ (w - 1) : Nat)
def maxI (w : Nat) : Int := (2 ^ (w - 1) : Nat) - 1

/-- The value is a signed word of width `w`. -/
def InI (w : Nat) (x : Int) : Prop := minI w ≤ x ∧ x ≤ maxI w

instance (w : Nat) (x : Int) : Decidable (InI w x) := inferInstanceAs (Decidable (_ ∧ _))

/-- `a + b` at signed width `w`. -/
def addI (w : Nat) (a b : Int) : Tracked Int :=
  ⟨(a + b).bmod (2 ^ w), decide (¬ InI w (a + b))⟩

/-- `a - b` at signed width `w`. -/
def subI (w : Nat) (a b : Int) : Tracked Int :=
  ⟨(a - b).bmod (2 ^ w), decide (¬ InI w (a - b))⟩

/-- `a * b` at signed width `w`. -/
def mulI (w : Nat) (a b : Int) : Tracked Int :=
  ⟨(a * b).bmod (2 ^ w), decide (¬ InI w (a * b))⟩

/-- A signed result as the wrapping build keeps it. -/
def wrapI (w : Nat) (x : Int) : Int := x.bmod (2 ^ w)

/-- Clamping to the signed range: the result of every saturating operation. -/
def saturate (w : Nat) (x : Int) : Int := max (minI w) (min (maxI w) x)

theorem bmod_of_inI {w : Nat} {x : Int} (hw : 0 < w) (h : InI w x) : x.bmod (2 ^ w) = x := by
  obtain ⟨hlo, hhi⟩ := h
  unfold minI at hlo
  unfold maxI at hhi
  have hpow : (2 ^ w : Nat) = 2 * 2 ^ (w - 1) := by
    rw [← pow_succ', Nat.sub_add_cancel hw]
  apply Int.bmod_eq_of_le <;> omega

theorem wrapI_of_inI {w : Nat} [NeZero w] {x : Int} (h : InI w x) : wrapI w x = x :=
  bmod_of_inI (Nat.pos_of_neZero w) h

/-- What the wrapping build keeps is a word. -/
theorem inI_wrapI {w : Nat} [NeZero w] (x : Int) : InI w (wrapI w x) := by
  have hpow : (2 ^ w : Nat) = 2 * 2 ^ (w - 1) := by
    rw [← pow_succ', Nat.sub_add_cancel (Nat.pos_of_neZero w)]
  have hlo := Int.le_bmod (x := x) (m := 2 ^ w) (Nat.two_pow_pos w)
  have hhi := Int.bmod_lt (x := x) (m := 2 ^ w) (Nat.two_pow_pos w)
  unfold InI minI maxI wrapI
  omega

theorem addI_of_inI {w : Nat} [NeZero w] {a b : Int} (h : InI w (a + b)) :
    addI w a b = pure (a + b) := by
  unfold addI
  rw [bmod_of_inI (Nat.pos_of_neZero w) h, decide_eq_false (not_not_intro h)]
  rfl

theorem subI_of_inI {w : Nat} [NeZero w] {a b : Int} (h : InI w (a - b)) :
    subI w a b = pure (a - b) := by
  unfold subI
  rw [bmod_of_inI (Nat.pos_of_neZero w) h, decide_eq_false (not_not_intro h)]
  rfl

/-- A word divided by a positive factor is still a word. -/
theorem InI.of_mul {w : Nat} {m c : Int} (hc : 1 ≤ c) (h : InI w (m * c)) : InI w m := by
  have hpow : (1 : Int) ≤ (2 ^ (w - 1) : Nat) := by exact_mod_cast Nat.one_le_two_pow
  unfold InI minI maxI at *
  rcases le_total 0 m with hm | hm
  · have := le_mul_of_one_le_right hm hc
    omega
  · have := mul_le_mul_of_nonpos_left hc hm
    omega

theorem saturate_of_inI {w : Nat} {x : Int} (h : InI w x) : saturate w x = x := by
  obtain ⟨hlo, hhi⟩ := h
  unfold saturate
  omega

/-! ## Fallible code -/

/-- How a run ends without a value: an error it returns, or a panic. -/
inductive Stop (ε : Type u) where
  | err (e : ε)
  | panic
deriving Repr, DecidableEq

abbrev Run (ε : Type u) (α : Type v) := Except (Stop ε) α

/-- `table[i]`. -/
def index {ε : Type u} {α : Type v} (table : List α) (i : Nat) : Run ε α :=
  match table[i]? with
  | some x => .ok x
  | none => .error .panic

theorem ok_bind {ε : Type u} {α β : Type v} (a : α) (f : α → Run ε β) :
    ((Except.ok a : Run ε α) >>= f) = f a := rfl

/-- The one rule for `?`: a computation that returned has run both halves. -/
theorem run_bind_eq_ok {ε : Type u} {α β : Type v} {x : Run ε α} {f : α → Run ε β} {b : β} :
    x >>= f = .ok b ↔ ∃ a, x = .ok a ∧ f a = .ok b := by
  cases x with
  | error e =>
    constructor
    · intro h; cases h
    · rintro ⟨_, h, _⟩; cases h
  | ok a =>
    constructor
    · intro h; exact ⟨a, rfl, h⟩
    · rintro ⟨_, h, hf⟩; cases h; exact hf

/-- A computation panics where one of its halves does. -/
theorem run_bind_eq_panic {ε : Type u} {α β : Type v} {x : Run ε α} {f : α → Run ε β} :
    x >>= f = .error .panic ↔ x = .error .panic ∨ ∃ a, x = .ok a ∧ f a = .error .panic := by
  cases x with
  | error stop =>
    constructor
    · exact fun h => .inl (congrArg _ (Except.error.inj h))
    · rintro (h | ⟨_, h, -⟩)
      · exact congrArg _ (Except.error.inj h)
      · cases h
  | ok a =>
    constructor
    · exact fun h => .inr ⟨a, rfl, h⟩
    · rintro (h | ⟨_, h, hf⟩)
      · cases h
      · cases h; exact hf

/-- What an early return of an error lets through. -/
theorem ite_error_eq_ok {ε : Type u} {α : Type v} {c : Prop} [Decidable c] {e : Stop ε}
    {x : Run ε α} {a : α} : (if c then .error e else x) = .ok a ↔ ¬c ∧ x = .ok a := by
  by_cases h : c
  · rw [if_pos h]
    exact iff_of_false (fun hok => nomatch hok) fun hok => hok.1 h
  · rw [if_neg h]
    exact (and_iff_right h).symm

theorem run_map_eq_ok {ε : Type u} {α β : Type v} {x : Run ε α} {f : α → β} {b : β} :
    x.map f = .ok b ↔ ∃ a, x = .ok a ∧ f a = b := by
  cases x with
  | error stop => exact iff_of_false (fun h => nomatch h) fun ⟨_, h, _⟩ => nomatch h
  | ok a =>
    constructor
    · exact fun h => ⟨a, rfl, Except.ok.inj h⟩
    · rintro ⟨_, h, rfl⟩
      cases h; rfl

theorem run_map_eq_error {ε : Type u} {α β : Type v} {x : Run ε α} {f : α → β} {stop : Stop ε} :
    x.map f = .error stop ↔ x = .error stop := by
  cases x with
  | error e =>
    exact ⟨fun h => congrArg _ (Except.error.inj h), fun h => congrArg _ (Except.error.inj h)⟩
  | ok a => exact iff_of_false (fun h => nomatch h) fun h => nomatch h

/-- An error that is returned, or the value. -/
def raise {ε : Type u} {α : Type v} (x : Except ε α) : Run ε α := x.mapError Stop.err

theorem raise_eq_ok {ε : Type u} {α : Type v} {x : Except ε α} {a : α} :
    raise x = .ok a ↔ x = .ok a := by
  cases x with
  | error e => exact iff_of_false (fun h => nomatch h) fun h => nomatch h
  | ok b => exact ⟨fun h => congrArg _ (Except.ok.inj h), fun h => congrArg _ (Except.ok.inj h)⟩

theorem raise_ne_panic {ε : Type u} {α : Type v} {x : Except ε α} : raise x ≠ .error .panic := by
  cases x with
  | error e => exact fun h => nomatch h
  | ok a => exact fun h => nomatch h

/-- `map_err`: another error, the same panic. -/
def mapErr {ε ε' : Type u} {α : Type v} (f : ε → ε') : Run ε α → Run ε' α
  | .ok a => .ok a
  | .error (.err e) => .error (.err (f e))
  | .error .panic => .error .panic

theorem mapErr_eq_ok {ε ε' : Type u} {α : Type v} {f : ε → ε'} {x : Run ε α} {a : α} :
    mapErr f x = .ok a ↔ x = .ok a := by
  match x with
  | .ok b => exact ⟨fun h => congrArg _ (Except.ok.inj h), fun h => congrArg _ (Except.ok.inj h)⟩
  | .error (.err e) => exact iff_of_false (fun h => nomatch h) fun h => nomatch h
  | .error .panic => exact iff_of_false (fun h => nomatch h) fun h => nomatch h

theorem index_eq_ok {ε : Type u} {α : Type v} {table : List α} {i : Nat} {x : α} :
    (index table i : Run ε α) = .ok x ↔ table[i]? = some x := by
  unfold index
  cases table[i]? with
  | none => exact iff_of_false (fun h => nomatch h) fun h => nomatch h
  | some y => exact ⟨fun h => congrArg _ (Except.ok.inj h), fun h => congrArg _ (Option.some.inj h)⟩

/-- An error where there is nothing. -/
theorem elim_error_eq_ok {ε : Type u} {α : Type v} {x : Option α} {e : ε} {a : α} :
    (x.elim (.error e) .ok : Except ε α) = .ok a ↔ x = some a := by
  cases x with
  | none => exact iff_of_false (fun h => nomatch h) fun h => nomatch h
  | some b => exact ⟨fun h => congrArg _ (Except.ok.inj h), fun h => congrArg _ (Option.some.inj h)⟩

/-! ## Counting bits -/

/-- Number of bits up to and including the most significant one. -/
def bitLen (n : Nat) : Nat := if n = 0 then 0 else n.log2 + 1

/-- `leading_zeros` at width `w`. -/
def clz (w n : Nat) : Nat := w - bitLen n

/-- `trailing_zeros` at width `w`: halve while even, at most `w` times. -/
def ctz : Nat → Nat → Nat
  | 0, _ => 0
  | w + 1, n => if n % 2 = 1 then 0 else ctz w (n / 2) + 1

/-- `n` with its trailing zeros shifted out. -/
def oddPart (w n : Nat) : Nat := n / 2 ^ ctz w n

@[simp] theorem bitLen_zero : bitLen 0 = 0 := rfl

theorem bitLen_le_iff {n k : Nat} : bitLen n ≤ k ↔ n < 2 ^ k := by
  unfold bitLen
  by_cases h : n = 0
  · simp [h]
  · rw [if_neg h, Nat.succ_le_iff, Nat.log2_lt h]

theorem lt_two_pow_bitLen (n : Nat) : n < 2 ^ bitLen n := bitLen_le_iff.mp le_rfl

theorem lt_bitLen_iff {n k : Nat} : k < bitLen n ↔ 2 ^ k ≤ n := by
  rw [← Nat.not_le, bitLen_le_iff, Nat.not_lt]

theorem bitLen_pos {n : Nat} (h : n ≠ 0) : 0 < bitLen n :=
  lt_bitLen_iff.mpr (by rw [pow_zero]; exact Nat.pos_of_ne_zero h)

theorem two_pow_pred_bitLen_le {n : Nat} (h : n ≠ 0) : 2 ^ (bitLen n - 1) ≤ n := by
  have hpos := bitLen_pos h
  exact lt_bitLen_iff.mp (by omega)

theorem bitLen_eq_of_bounds {n k : Nat} (hlo : 2 ^ k ≤ n) (hhi : n < 2 ^ (k + 1)) :
    bitLen n = k + 1 :=
  le_antisymm (bitLen_le_iff.mpr hhi) (lt_bitLen_iff.mpr hlo)

theorem bitLen_div_two_pow (n k : Nat) : bitLen (n / 2 ^ k) = bitLen n - k := by
  apply le_antisymm
  · rw [bitLen_le_iff, Nat.div_lt_iff_lt_mul (Nat.two_pow_pos k), ← pow_add]
    exact lt_of_lt_of_le (lt_two_pow_bitLen n) (Nat.pow_le_pow_right Nat.two_pos (by omega))
  · rw [Nat.sub_le_iff_le_add, bitLen_le_iff, pow_add,
      ← Nat.div_lt_iff_lt_mul (Nat.two_pow_pos k)]
    exact lt_two_pow_bitLen _

theorem bitLen_eq_add {n k : Nat} (h : n / 2 ^ k ≠ 0) : bitLen n = bitLen (n / 2 ^ k) + k := by
  have hdiv := bitLen_div_two_pow n k
  have hpos := bitLen_pos h
  omega

/-- Cutting to the top `p` bits leaves at most `p` bits, and not nothing. -/
theorem topBits_lt (p n : Nat) : n / 2 ^ (bitLen n - p) < 2 ^ p := by
  rw [← bitLen_le_iff, bitLen_div_two_pow]
  omega

theorem topBits_ne_zero {p n : Nat} (hp : 0 < p) (hn : n ≠ 0) : n / 2 ^ (bitLen n - p) ≠ 0 := by
  have hpos := bitLen_pos hn
  rw [← Nat.pos_iff_ne_zero, Nat.div_pos_iff]
  exact ⟨Nat.two_pow_pos _,
    (Nat.pow_le_pow_right Nat.two_pos (by omega)).trans (two_pow_pred_bitLen_le hn)⟩

theorem two_pow_ctz_dvd : ∀ (w n : Nat), 2 ^ ctz w n ∣ n
  | 0, n => by simp [ctz]
  | w + 1, n => by
    unfold ctz
    split
    · simp
    · next h =>
      have heven : 2 ∣ n := Nat.dvd_of_mod_eq_zero (by omega)
      have hrec := Nat.mul_dvd_mul_left 2 (two_pow_ctz_dvd w (n / 2))
      rwa [Nat.mul_div_cancel' heven, ← pow_succ'] at hrec

theorem oddPart_mul_two_pow_ctz (w n : Nat) : oddPart w n * 2 ^ ctz w n = n :=
  Nat.div_mul_cancel (two_pow_ctz_dvd w n)

theorem oddPart_odd : ∀ {w n : Nat}, n ≠ 0 → n < 2 ^ w → oddPart w n % 2 = 1
  | 0, n, hn, hlt => by simp at hlt; exact absurd hlt hn
  | w + 1, n, hn, hlt => by
    unfold oddPart ctz
    split
    · next h => simpa using h
    · next h =>
      have hrec := oddPart_odd (w := w) (n := n / 2) (by omega) (by rw [pow_succ] at hlt; omega)
      unfold oddPart at hrec
      rwa [Nat.div_div_eq_div_mul, ← pow_succ'] at hrec

theorem oddPart_le (w n : Nat) : oddPart w n ≤ n := Nat.div_le_self _ _

theorem oddPart_pos {w n : Nat} (hn : n ≠ 0) : 0 < oddPart w n := by
  have h := oddPart_mul_two_pow_ctz w n
  rcases Nat.eq_zero_or_pos (oddPart w n) with h0 | h0
  · rw [h0, Nat.zero_mul] at h; exact absurd h.symm hn
  · exact h0

theorem ctz_lt {w n : Nat} (hn : n ≠ 0) (hlt : n < 2 ^ w) : ctz w n < w := by
  have hle : 2 ^ ctz w n ≤ n := Nat.le_of_dvd (Nat.pos_of_ne_zero hn) (two_pow_ctz_dvd w n)
  exact (Nat.pow_lt_pow_iff_right Nat.one_lt_two).mp (lt_of_le_of_lt hle hlt)

theorem ctz_eq_zero_of_odd {w n : Nat} (h : n % 2 = 1) : ctz w n = 0 := by
  cases w with
  | zero => rfl
  | succ w => unfold ctz; rw [if_pos h]

theorem oddPart_of_odd {w n : Nat} (h : n % 2 = 1) : oddPart w n = n := by
  unfold oddPart
  rw [ctz_eq_zero_of_odd h, pow_zero, Nat.div_one]

/-- Divisibility by a power of two is read off the trailing zeros. -/
theorem two_pow_dvd_iff_le_ctz {w n k : Nat} (hn : n ≠ 0) (hlt : n < 2 ^ w) :
    2 ^ k ∣ n ↔ k ≤ ctz w n := by
  constructor
  · intro hk
    by_contra hlt'
    have hodd := oddPart_odd hn hlt
    have hdvd : 2 ^ (ctz w n + 1) ∣ oddPart w n * 2 ^ ctz w n := by
      rw [oddPart_mul_two_pow_ctz]
      exact dvd_trans (Nat.pow_dvd_pow 2 (by omega)) hk
    rw [pow_succ', Nat.mul_dvd_mul_iff_right (Nat.two_pow_pos _)] at hdvd
    omega
  · intro hk
    exact dvd_trans (Nat.pow_dvd_pow 2 hk) (two_pow_ctz_dvd w n)

/-- The same for a shifted number. -/
theorem two_pow_dvd_shifted_iff {w n t j : Nat} (hn : n ≠ 0) (hlt : n < 2 ^ w) :
    2 ^ j ∣ n * 2 ^ t ↔ j ≤ t + ctz w n := by
  rcases Nat.le_total j t with h | h
  · exact iff_of_true (dvd_mul_of_dvd_right (Nat.pow_dvd_pow 2 h) n) (by omega)
  · obtain ⟨i, rfl⟩ : ∃ i, j = i + t := ⟨j - t, by omega⟩
    rw [pow_add, Nat.mul_dvd_mul_iff_right (Nat.two_pow_pos t), two_pow_dvd_iff_le_ctz hn hlt]
    omega

end Machine
