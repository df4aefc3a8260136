import CipherOcto.Lib.Trace

/-!
# Since

A property of the state that some steps bring about, some keep, and the others end:
it holds after a run iff it was brought about and every step since has kept it.

> `since_iff`: what holds now was so from the start, or has held since a step of the run.
-/

namespace CipherOcto.Trace

variable {σ ι ο : Type} {step : σ → ι → ο × σ} {holds : σ → Prop} {sets keeps : σ → ι → Prop}

/-- A step of the run brought it about, and the steps after it have kept it. -/
def Since (step : σ → ι → ο × σ) (sets keeps : σ → ι → Prop) (s : σ) (is : List ι) : Prop :=
  ∃ before i after, is = before ++ i :: after ∧ sets (final step s before) i ∧
    Along step keeps (step (final step s before) i).2 after

theorem not_since_nil {s : σ} : ¬Since step sets keeps s [] := by
  rintro ⟨before, i, after, hsplit, -, -⟩
  exact List.append_ne_nil_of_right_ne_nil before (List.cons_ne_nil i after) hsplit.symm

/-- One step more: it is the one, or it keeps what has held. -/
theorem since_concat {s : σ} {is : List ι} {j : ι} :
    Since step sets keeps s (is ++ [j]) ↔ sets (final step s is) j ∨
      Since step sets keeps s is ∧ keeps (final step s is) j := by
  constructor
  · rintro ⟨before, i, after, hsplit, hset, hkeep⟩
    cases after using List.reverseRecOn with
    | nil =>
      obtain ⟨rfl, hlast⟩ := List.append_inj' hsplit rfl
      cases hlast
      exact .inl hset
    | append_singleton after k =>
      rw [← List.cons_append, ← List.append_assoc] at hsplit
      obtain ⟨rfl, hlast⟩ := List.append_inj' hsplit rfl
      cases hlast
      obtain ⟨hkeep, hlast⟩ := along_append.mp hkeep
      refine .inr ⟨⟨before, i, after, rfl, hset, hkeep⟩, ?_⟩
      rw [final_append]
      exact hlast.1
  · rintro (hset | ⟨⟨before, i, after, rfl, hset, hkeep⟩, hlast⟩)
    · exact ⟨is, j, [], rfl, hset, trivial⟩
    · refine ⟨before, i, after ++ [j], by rw [List.append_assoc, List.cons_append], hset, ?_⟩
      rw [final_append] at hlast
      exact along_append.mpr ⟨hkeep, hlast, trivial⟩

/-- **What holds now** has held from the start, or since a step of the run. -/
theorem since_iff (hstep : ∀ s i, holds (step s i).2 ↔ sets s i ∨ holds s ∧ keeps s i) (s : σ)
    (is : List ι) :
    holds (final step s is) ↔ Since step sets keeps s is ∨ holds s ∧ Along step keeps s is := by
  induction is using List.reverseRecOn with
  | nil => exact ⟨fun h => .inr ⟨h, trivial⟩, fun h => (h.resolve_left not_since_nil).1⟩
  | append_singleton is j ih =>
    have hlast : holds (final step s (is ++ [j])) ↔
        sets (final step s is) j ∨ holds (final step s is) ∧ keeps (final step s is) j := by
      rw [final_append]
      exact hstep _ j
    have halong : Along step keeps s (is ++ [j]) ↔
        Along step keeps s is ∧ keeps (final step s is) j :=
      along_append.trans (and_congr_right fun _ => and_iff_left trivial)
    rw [hlast, ih, since_concat, halong, or_and_right, ← and_assoc, or_assoc]

/-- The same where it does not hold at the start. -/
theorem since_iff_of_not (hstep : ∀ s i, holds (step s i).2 ↔ sets s i ∨ holds s ∧ keeps s i)
    {s : σ} (hs : ¬holds s) (is : List ι) :
    holds (final step s is) ↔ Since step sets keeps s is :=
  (since_iff hstep s is).trans (or_iff_left fun h => hs h.1)

end CipherOcto.Trace
