import Mathlib.Data.List.Basic

/-!
# Transcripts

A step function reads an input, emits an output and moves on, or fails. `run`
is what a whole list of inputs emits. A checker who knows the step function can
replay a transcript, so what matters is how a run decomposes: `run_append` cuts
it, and `run_take` says that a run over fewer inputs emits a prefix. `Along` is a condition on every step of a
run, as far as the run goes.
-/

namespace CipherOcto.Transcript

variable {σ ι ο : Type} (step : σ → ι → Option (ο × σ))

/-- The outputs of a list of inputs, and the state after it. -/
def run : σ → List ι → Option (List ο × σ)
  | s, [] => some ([], s)
  | s, c :: cs =>
    (step s c).bind fun r => (run r.2 cs).map fun rest => (r.1 :: rest.1, rest.2)

/-- Every step of a run meets the condition in the state it is taken in. -/
def Along (good : σ → ι → Prop) : σ → List ι → Prop
  | _, [] => True
  | s, c :: cs => good s c ∧ ∀ o t, step s c = some (o, t) → Along good t cs

variable {step}

theorem run_nil_eq_some {s s' : σ} {out : List ο} :
    run step s [] = some (out, s') ↔ out = [] ∧ s' = s := by
  simp only [run, Option.some.injEq, Prod.mk.injEq]
  exact and_congr eq_comm eq_comm

theorem run_cons_eq_some {s s' : σ} {c : ι} {cs : List ι} {out : List ο} :
    run step s (c :: cs) = some (out, s') ↔
      ∃ o t rest, step s c = some (o, t) ∧ run step t cs = some (rest, s') ∧ out = o :: rest := by
  simp only [run, Option.bind_eq_some_iff, Option.map_eq_some_iff, Prod.mk.injEq]
  constructor
  · intro h
    obtain ⟨⟨o, t⟩, hstep, ⟨rest, u⟩, hrun, hout, hu⟩ := h
    exact ⟨o, t, rest, hstep, hu ▸ hrun, hout.symm⟩
  · intro h
    obtain ⟨o, t, rest, hstep, hrun, hout⟩ := h
    exact ⟨(o, t), hstep, (rest, s'), hrun, hout.symm, rfl⟩

theorem run_append {cs ds : List ι} {s u : σ} {out : List ο} :
    run step s (cs ++ ds) = some (out, u) ↔
      ∃ o₁ t o₂, run step s cs = some (o₁, t) ∧ run step t ds = some (o₂, u) ∧ out = o₁ ++ o₂ := by
  induction cs generalizing s out with
  | nil =>
    constructor
    · intro h
      exact ⟨[], s, out, rfl, h, rfl⟩
    · intro h
      obtain ⟨o₁, t, o₂, h₁, h₂, rfl⟩ := h
      obtain ⟨rfl, rfl⟩ := run_nil_eq_some.mp h₁
      exact h₂
  | cons c cs ih =>
    rw [List.cons_append]
    constructor
    · intro h
      obtain ⟨o, t, rest, hstep, hrun, rfl⟩ := run_cons_eq_some.mp h
      obtain ⟨o₁, v, o₂, h₁, h₂, rfl⟩ := ih.mp hrun
      exact ⟨o :: o₁, v, o₂, run_cons_eq_some.mpr ⟨o, t, o₁, hstep, h₁, rfl⟩, h₂, rfl⟩
    · intro h
      obtain ⟨o₁, v, o₂, h₁, h₂, rfl⟩ := h
      obtain ⟨o, t, rest, hstep, hrun, rfl⟩ := run_cons_eq_some.mp h₁
      exact run_cons_eq_some.mpr ⟨o, t, rest ++ o₂, hstep, ih.mpr ⟨rest, v, o₂, hrun, h₂, rfl⟩, rfl⟩

theorem run_length {cs : List ι} {s t : σ} {out : List ο} (h : run step s cs = some (out, t)) :
    out.length = cs.length := by
  induction cs generalizing s out with
  | nil =>
    obtain ⟨rfl, -⟩ := run_nil_eq_some.mp h
    rfl
  | cons c cs ih =>
    obtain ⟨o, u, rest, -, hrun, rfl⟩ := run_cons_eq_some.mp h
    rw [List.length_cons, List.length_cons, ih hrun]

/-- The run over the first `k` inputs emits the first `k` outputs. -/
theorem run_take {cs : List ι} {s t : σ} {out : List ο} (h : run step s cs = some (out, t))
    (k : Nat) : ∃ u, run step s (cs.take k) = some (out.take k, u) := by
  rw [← List.take_append_drop k cs] at h
  obtain ⟨o₁, u, o₂, h₁, h₂, rfl⟩ := run_append.mp h
  refine ⟨u, ?_⟩
  have hlen₁ := run_length h₁
  have hlen₂ := run_length h₂
  rw [List.length_take] at hlen₁
  rw [List.length_drop] at hlen₂
  have htake : (o₁ ++ o₂).take k = o₁ := by
    by_cases hk : k ≤ cs.length
    · exact List.take_left' (by omega)
    · have hnil : o₂ = [] := List.eq_nil_of_length_eq_zero (by omega)
      rw [hnil, List.append_nil, List.take_of_length_le (by omega)]
  rw [htake]
  exact h₁

/-- A translation that every step respects is respected by runs. -/
theorem run_map {σ' ι' ο' : Type} {step' : σ' → ι' → Option (ο' × σ')} {φ : σ → σ'} {α : ι → ι'}
    {β : ο → ο'} (h : ∀ s c, step' (φ s) (α c) = (step s c).map (Prod.map β φ)) (s : σ)
    (cs : List ι) :
    run step' (φ s) (cs.map α) = (run step s cs).map (Prod.map (List.map β) φ) := by
  induction cs generalizing s with
  | nil => rfl
  | cons c cs ih =>
    rw [List.map_cons, run, run, h]
    cases step s c with
    | none => rfl
    | some r =>
      simp only [Option.map_some, Option.bind_some, Prod.map_fst, Prod.map_snd, ih r.2]
      cases run step r.2 cs with
      | none => rfl
      | some rest => rfl

/-- The same of a condition on the steps of a run. -/
theorem along_map {σ' ι' ο' : Type} {step' : σ' → ι' → Option (ο' × σ')} {φ : σ → σ'} {α : ι → ι'}
    {β : ο → ο'} {good : σ → ι → Prop} {good' : σ' → ι' → Prop}
    (h : ∀ s c, step' (φ s) (α c) = (step s c).map (Prod.map β φ))
    (hgood : ∀ s c, good' (φ s) (α c) ↔ good s c) (s : σ) (cs : List ι) :
    Along step' good' (φ s) (cs.map α) ↔ Along step good s cs := by
  induction cs generalizing s with
  | nil => exact Iff.rfl
  | cons c cs ih =>
    refine and_congr (hgood s c) ?_
    rw [h]
    cases step s c with
    | none => exact iff_of_true (fun _ _ he => nomatch he) fun _ _ he => nomatch he
    | some r =>
      simp only [Option.map_some, Option.some.injEq]
      constructor
      · intro hrest o t he
        subst he
        exact (ih t).mp (hrest _ _ rfl)
      · intro hrest o t he
        cases he
        exact (ih r.2).mpr (hrest r.1 r.2 rfl)

/-- Where a step fails or not by its input alone, so does a run. -/
theorem run_isSome_iff {good : ι → Prop} (h : ∀ s c, (step s c).isSome ↔ good c) (s : σ)
    (cs : List ι) : (run step s cs).isSome ↔ ∀ c ∈ cs, good c := by
  induction cs generalizing s with
  | nil => exact iff_of_true rfl fun c hc => absurd hc List.not_mem_nil
  | cons c cs ih =>
    rw [List.forall_mem_cons, ← h s c]
    cases hstep : step s c with
    | none => simp [run, hstep]
    | some r => simp [run, hstep, ih r.2]

end CipherOcto.Transcript
