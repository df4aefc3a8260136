import Mathlib.Data.List.Basic

/-!
# Sequences that are run again

Steps that may fail are run one after the other up to the first that does. What has been
cut off, or has failed, is run again from its start.

> `redo`: where a step that has passed does nothing any more, whatever else is run, running
> a sequence again after any part of it is running it once.
-/

namespace CipherOcto.Redo

variable {σ ι ε : Type} (step : σ → ι → Except ε Unit × σ)

/-- The steps, up to the first that fails. -/
def runAll : σ → List ι → Except ε Unit × σ
  | s, [] => (.ok (), s)
  | s, i :: is =>
    match step s i with
    | (.ok _, s') => runAll s' is
    | (.error err, s') => (.error err, s')

/-- The steps that were taken: the one that failed is the last. -/
def performed : σ → List ι → List ι
  | _, [] => []
  | s, i :: is =>
    match step s i with
    | (.ok _, s') => i :: performed s' is
    | (.error _, _) => [i]

/-- The step passes, and changes nothing. -/
def Settled (s : σ) (i : ι) : Prop := step s i = (.ok (), s)

/-- Every step is settled once it has passed, is not unsettled by the others, and leaves the
state as it is where it fails. -/
structure Redoable (is : List ι) : Prop where
  settles : ∀ s, ∀ i ∈ is, (step s i).1 = .ok () → Settled step (step s i).2 i
  keeps : ∀ s, ∀ i ∈ is, ∀ j ∈ is, Settled step s i → Settled step (step s j).2 i
  atomic : ∀ s, ∀ i ∈ is, (step s i).1 ≠ .ok () → (step s i).2 = s

variable {step}

theorem runAll_cons_ok {s s' : σ} {i : ι} (h : step s i = (.ok (), s')) (is : List ι) :
    runAll step s (i :: is) = runAll step s' is := by
  rw [runAll, h]

theorem runAll_cons_error {s s' : σ} {i : ι} {err : ε} (h : step s i = (.error err, s'))
    (is : List ι) : runAll step s (i :: is) = (.error err, s') := by
  rw [runAll, h]

theorem runAll_singleton (s : σ) (i : ι) : runAll step s [i] = step s i := by
  rcases hstep : step s i with ⟨answer, s'⟩
  cases answer with
  | error err => exact runAll_cons_error hstep []
  | ok u => exact runAll_cons_ok hstep []

/-- What follows a sequence is run where it passed. -/
theorem runAll_append (s : σ) (is js : List ι) :
    runAll step s (is ++ js) =
      match runAll step s is with
      | (.ok _, s') => runAll step s' js
      | (.error err, s') => (.error err, s') := by
  induction is generalizing s with
  | nil => rfl
  | cons i is ih =>
    rw [List.cons_append]
    rcases hstep : step s i with ⟨answer, s'⟩
    cases answer with
    | error err => rw [runAll_cons_error hstep, runAll_cons_error hstep]
    | ok u => rw [runAll_cons_ok hstep, runAll_cons_ok hstep, ih]

theorem runAll_append_ok {s s' : σ} {is : List ι} (h : runAll step s is = (.ok (), s'))
    (js : List ι) : runAll step s (is ++ js) = runAll step s' js := by
  rw [runAll_append, h]

theorem runAll_append_error {s s' : σ} {is : List ι} {err : ε}
    (h : runAll step s is = (.error err, s')) (js : List ι) :
    runAll step s (is ++ js) = (.error err, s') := by
  rw [runAll_append, h]

/-- A sequence passes iff both its parts do. -/
theorem runAll_append_eq_ok {s s' : σ} {is js : List ι} :
    runAll step s (is ++ js) = (.ok (), s') ↔
      ∃ t, runAll step s is = (.ok (), t) ∧ runAll step t js = (.ok (), s') := by
  constructor
  · intro h
    rcases hrun : runAll step s is with ⟨answer, t⟩
    cases answer with
    | error err =>
      rw [runAll_append_error hrun] at h
      cases h
    | ok u => exact ⟨t, rfl, by rwa [runAll_append_ok hrun] at h⟩
  · rintro ⟨t, his, hjs⟩
    rwa [runAll_append_ok his]

theorem Redoable.tail {i : ι} {is : List ι} (h : Redoable step (i :: is)) : Redoable step is where
  settles s j hj := h.settles s j (List.mem_cons_of_mem _ hj)
  keeps s j hj k hk := h.keeps s j (List.mem_cons_of_mem _ hj) k (List.mem_cons_of_mem _ hk)
  atomic s j hj := h.atomic s j (List.mem_cons_of_mem _ hj)

/-- What is settled stays so while the others run. -/
theorem Redoable.settled_runAll {is : List ι} (h : Redoable step is) {i : ι} (hi : i ∈ is) :
    ∀ (js : List ι) (s : σ), (∀ j ∈ js, j ∈ is) → Settled step s i →
      Settled step (runAll step s js).2 i
  | [], _, _, hs => hs
  | j :: js, s, hmem, hs => by
    have hkept := h.keeps s i hi j (hmem j List.mem_cons_self) hs
    rcases hstep : step s j with ⟨answer, s'⟩
    rw [hstep] at hkept
    cases answer with
    | error err => rwa [runAll_cons_error hstep]
    | ok u =>
      rw [runAll_cons_ok hstep]
      exact h.settled_runAll hi js s' (fun k hk => hmem k (List.mem_cons_of_mem _ hk)) hkept

/-- **Running again.** After any part of it, cut off or failed, a sequence answers and ends as
it would have the first time. -/
theorem redo {is : List ι} (h : Redoable step is) (s : σ) (k : Nat) :
    runAll step (runAll step s (is.take k)).2 is = runAll step s is := by
  induction is generalizing s k with
  | nil => rw [List.take_nil]; rfl
  | cons i is ih =>
    cases k with
    | zero => rfl
    | succ k =>
      rw [List.take_succ_cons]
      rcases hstep : step s i with ⟨answer, s'⟩
      cases answer with
      -- the step failed and changed nothing, so it is as if none had been run
      | error err =>
        have hsame := h.atomic s i List.mem_cons_self (by rw [hstep]; intro hok; cases hok)
        rw [hstep] at hsame
        rw [runAll_cons_error hstep]
        exact congrArg (runAll step · (i :: is)) hsame
      | ok u =>
        -- the step is settled, and the part that was run after it has left it so
        have hsettled := h.settles s i List.mem_cons_self (by rw [hstep])
        rw [hstep] at hsettled
        have hstays := h.settled_runAll List.mem_cons_self (is.take k) s'
          (fun j hj => List.mem_cons_of_mem _ (List.mem_of_mem_take hj)) hsettled
        rw [runAll_cons_ok hstep, runAll_cons_ok hstep, runAll_cons_ok hstays, ih h.tail]

end CipherOcto.Redo
