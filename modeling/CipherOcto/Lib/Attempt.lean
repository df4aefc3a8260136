import CipherOcto.Lib.Machine

/-!
# Fallible code with overflow tracking

Code that returns a value, an error or a panic, and along the way does arithmetic that may
leave its range. A computation has a result, as `Run` has, and a flag, as `Tracked` has;
what runs after an error does nothing and flags nothing.

> `val_bind_eq_ok`: a computation that returned has run both halves.
> `ovf_bind_eq_false`: nothing overflowed iff nothing did in what was run.
-/

namespace Machine

universe u

/-- A tracked computation that may stop without a value. -/
abbrev Attempt (ε : Type u) (α : Type u) := ExceptT (Stop ε) Tracked α

namespace Attempt

variable {ε α β : Type u}

/-- How the computation ends. -/
def val (x : Attempt ε α) : Run ε α := (ExceptT.run x).val

/-- Whether some step left its range. -/
def ovf (x : Attempt ε α) : Bool := (ExceptT.run x).ovf

/-- A result that needed no arithmetic. -/
def lift (x : Run ε α) : Attempt ε α := ExceptT.mk (pure x)

/-- `?` on an error of the code. -/
def raise (x : Except ε α) : Attempt ε α := lift (x.mapError Stop.err)

@[simp] theorem val_pure (a : α) : (pure a : Attempt ε α).val = .ok a := rfl

@[simp] theorem ovf_pure (a : α) : (pure a : Attempt ε α).ovf = false := rfl

@[simp] theorem val_lift (x : Run ε α) : (lift x).val = x := rfl

@[simp] theorem ovf_raise (x : Except ε α) : (raise x).ovf = false := rfl

theorem val_raise_eq_ok {x : Except ε α} {a : α} : (raise x).val = .ok a ↔ x = .ok a :=
  Machine.raise_eq_ok

theorem val_bind (x : Attempt ε α) (f : α → Attempt ε β) :
    (x >>= f).val = x.val >>= fun a => (f a).val := by
  show (ExceptT.bindCont f (ExceptT.run x).val).val = _
  unfold val
  cases (ExceptT.run x).val <;> rfl

/-- Arithmetic overflows where it does by itself. -/
theorem ovf_tracked (x : Tracked α) : (monadLift x : Attempt ε α).ovf = x.ovf :=
  Tracked.ovf_map _ x

theorem tracked_pure_bind (a : α) (f : α → Attempt ε β) :
    (monadLift (pure a : Tracked α) >>= f : Attempt ε β) = f a := rfl

theorem lift_ok_bind (a : α) (f : α → Attempt ε β) : lift (.ok a) >>= f = f a := rfl

/-- A computation that returned with nothing out of its range. -/
theorem eq_pure_iff {x : Attempt ε α} {a : α} : x = pure a ↔ x.val = .ok a ∧ x.ovf = false :=
  Tracked.ext_iff

/-- A computation that returned has run both halves. -/
theorem val_bind_eq_ok {x : Attempt ε α} {f : α → Attempt ε β} {b : β} :
    (x >>= f).val = .ok b ↔ ∃ a, x.val = .ok a ∧ (f a).val = .ok b := by
  rw [val_bind]
  exact run_bind_eq_ok

/-- Nothing overflowed iff nothing did in what was run. -/
theorem ovf_bind_eq_false {x : Attempt ε α} {f : α → Attempt ε β} :
    (x >>= f).ovf = false ↔ x.ovf = false ∧ ∀ a, x.val = .ok a → (f a).ovf = false := by
  show (x.ovf || (ExceptT.bindCont f x.val).ovf) = false ↔ _
  rw [Bool.or_eq_false_iff]
  refine and_congr_right fun _ => ?_
  cases x.val with
  | error e => exact iff_of_true rfl fun a h => nomatch h
  | ok a =>
    constructor
    · intro h b hb
      cases hb
      exact h
    · exact fun h => h a rfl

end Attempt

/-- What a build makes of arithmetic: one that checks overflows panics where there is one. -/
def build {ε α : Type u} (checks : Bool) (x : Tracked α) : Run ε α :=
  if checks ∧ x.ovf then .error .panic else .ok x.val

section
variable {checks : Bool} {w : Nat} {x y : Int}

/-- Where the arithmetic stays in its range, or nobody looks, the wrapped value is used. -/
theorem build_of_fits {ε α : Type u} {x : Tracked α} (h : checks = true → x.ovf = false) :
    (build checks x : Run ε α) = .ok x.val := by
  unfold build
  rw [if_neg]
  rintro ⟨hchecks, hovf⟩
  rw [h hchecks] at hovf
  cases hovf

theorem build_of_overflow {ε α : Type u} {x : Tracked α} (h : x.ovf = true) :
    (build true x : Run ε α) = .error .panic :=
  if_pos ⟨rfl, h⟩

/-- A build without checks need not fit. -/
theorem unchecked {p : Prop} : false = true → p := fun h => Bool.noConfusion h

theorem build_addU_eq_ok {ε : Type} {a b c : Nat} :
    (build checks (addU w a b) : Run ε Nat) = .ok c ↔
      (checks = true → a + b < 2 ^ w) ∧ c = (a + b) % 2 ^ w := by
  unfold build
  rw [ite_error_eq_ok, addU, decide_eq_true_iff, not_and, not_le]
  exact and_congr_right fun _ => ⟨fun h => (Except.ok.inj h).symm, fun h => congrArg _ h.symm⟩

theorem build_addI {ε : Type} (h : checks = true → InI w (x + y)) :
    (build checks (addI w x y) : Run ε Int) = .ok (wrapI w (x + y)) :=
  build_of_fits fun hchecks => decide_eq_false (not_not_intro (h hchecks))

theorem build_subI {ε : Type} (h : checks = true → InI w (x - y)) :
    (build checks (subI w x y) : Run ε Int) = .ok (wrapI w (x - y)) :=
  build_of_fits fun hchecks => decide_eq_false (not_not_intro (h hchecks))

theorem build_mulI {ε : Type} (h : checks = true → InI w (x * y)) :
    (build checks (mulI w x y) : Run ε Int) = .ok (wrapI w (x * y)) :=
  build_of_fits fun hchecks => decide_eq_false (not_not_intro (h hchecks))

end

end Machine
