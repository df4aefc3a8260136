import Mathlib.Data.List.Basic
import Mathlib.Data.List.Induction

/-!
# Machines that answer

A step takes a state and an input to an answer and a new state, and never
fails: a refusal is an answer. `trace` pairs every input of a run with what it
was answered, `final` is the state at its end.

> `run_induct`: what every step preserves, of the state and of the answers so far,
> holds at the end of a run.
> `along_induct`: what every step preserves holds along a run.
> `forall_prefix_iff_along`: an exact condition for one step is one for whole runs.
> `pairwise_of_spent_along`: what needs something unspent, and spends it, happens
> at most once while nothing brings it back.
-/

namespace CipherOcto.Trace

variable {σ ι ο : Type} (step : σ → ι → ο × σ)

/-- The inputs of a run, each with its answer. -/
def trace : σ → List ι → List (ι × ο)
  | _, [] => []
  | s, i :: is => (i, (step s i).1) :: trace (step s i).2 is

/-- The state at the end of a run. -/
def final : σ → List ι → σ
  | s, [] => s
  | s, i :: is => final (step s i).2 is

/-- Every step of a run meets the condition in the state it is taken in. -/
def Along (good : σ → ι → Prop) : σ → List ι → Prop
  | _, [] => True
  | s, i :: is => good s i ∧ Along good (step s i).2 is

variable {step}

theorem final_append (s : σ) (is js : List ι) :
    final step s (is ++ js) = final step (final step s is) js := by
  induction is generalizing s with
  | nil => rfl
  | cons i is ih => exact ih (step s i).2

theorem trace_append (s : σ) (is js : List ι) :
    trace step s (is ++ js) = trace step s is ++ trace step (final step s is) js := by
  induction is generalizing s with
  | nil => rfl
  | cons i is ih => exact congrArg (_ :: ·) (ih (step s i).2)

theorem map_fst_trace (s : σ) (is : List ι) : (trace step s is).map Prod.fst = is := by
  induction is generalizing s with
  | nil => rfl
  | cons i is ih => exact congrArg (i :: ·) (ih (step s i).2)

/-- What was answered was an input. -/
theorem mem_of_mem_trace {s : σ} {is : List ι} {e : ι × ο} (h : e ∈ trace step s is) : e.1 ∈ is := by
  have hmem := List.mem_map_of_mem (f := Prod.fst) h
  rwa [map_fst_trace] at hmem

/-- The answer at a position is that of the state the run has reached there. -/
theorem trace_getElem? (s : σ) (is : List ι) (n : Nat) :
    (trace step s is)[n]? = is[n]?.map fun i => (i, (step (final step s (is.take n)) i).1) := by
  induction is generalizing s n with
  | nil => rfl
  | cons i is ih =>
    cases n with
    | zero => rfl
    | succ n => exact ih (step s i).2 n

theorem take_trace (s : σ) (is : List ι) (n : Nat) :
    (trace step s is).take n = trace step s (is.take n) := by
  induction is generalizing s n with
  | nil => rw [trace, List.take_nil, List.take_nil, trace]
  | cons i is ih =>
    cases n with
    | zero => rfl
    | succ n => exact congrArg (_ :: ·) (ih (step s i).2 n)

/-- Invariants of the answers so far and the state they have led to. -/
theorem run_induct (inv : List (ι × ο) → σ → Prop) {s : σ} (hs : inv [] s)
    (hstep : ∀ es t i, inv es t → inv (es ++ [(i, (step t i).1)]) (step t i).2) (is : List ι) :
    inv (trace step s is) (final step s is) := by
  induction is using List.reverseRecOn with
  | nil => exact hs
  | append_singleton is i ih =>
    rw [trace_append, final_append]
    exact hstep _ _ i ih

/-- Invariants of the runs whose steps all meet a condition, with what each step
gives besides. -/
theorem along_induct {inv : σ → Prop} {good post : σ → ι → Prop}
    (hstep : ∀ s i, inv s → good s i → inv (step s i).2 ∧ post s i) {s : σ} (hs : inv s)
    {is : List ι} (his : Along step good s is) : Along step post s is := by
  induction is generalizing s with
  | nil => trivial
  | cons i is ih =>
    obtain ⟨hinv, hpost⟩ := hstep s i hs his.1
    exact ⟨hpost, ih hinv his.2⟩

/-- What follows from the condition step by step. -/
theorem along_mono {good post : σ → ι → Prop} (himp : ∀ s i, good s i → post s i) {s : σ}
    {is : List ι} (his : Along step good s is) : Along step post s is := by
  induction is generalizing s with
  | nil => trivial
  | cons i is ih => exact ⟨himp s i his.1, ih his.2⟩

/-- Conditions that are the same wherever an invariant holds are the same along a run. -/
theorem along_congr {inv : σ → Prop} {good post : σ → ι → Prop}
    (hkeep : ∀ s i, inv s → inv (step s i).2) (hiff : ∀ s i, inv s → (post s i ↔ good s i)) {s : σ}
    (hs : inv s) (is : List ι) : Along step post s is ↔ Along step good s is := by
  induction is generalizing s with
  | nil => exact Iff.rfl
  | cons i is ih => exact and_congr (hiff s i hs) (ih (hkeep s i hs))

theorem along_of_forall {post : σ → ι → Prop} (h : ∀ s i, post s i) (s : σ) (is : List ι) :
    Along step post s is := by
  induction is generalizing s with
  | nil => trivial
  | cons i is ih => exact ⟨h s i, ih _⟩

theorem along_append {good : σ → ι → Prop} {s : σ} {is js : List ι} :
    Along step good s (is ++ js) ↔ Along step good s is ∧ Along step good (final step s is) js := by
  induction is generalizing s with
  | nil => exact ⟨fun h => ⟨trivial, h⟩, fun h => h.2⟩
  | cons i is ih => exact (and_congr_right fun _ => ih).trans and_assoc.symm

/-- Along a run, as after each of its beginnings. -/
theorem along_iff_forall_prefix {good : σ → ι → Prop} {s : σ} {is : List ι} :
    Along step good s is ↔ ∀ past i, past ++ [i] <+: is → good (final step s past) i := by
  induction is using List.reverseRecOn with
  | nil =>
    refine iff_of_true trivial fun past i h => ?_
    have hnil := List.prefix_nil.mp h
    exact absurd hnil (List.append_ne_nil_of_right_ne_nil past (List.cons_ne_nil i []))
  | append_singleton is j ih =>
    rw [along_append, ih]
    constructor
    · intro h past i hprefix
      rcases List.prefix_concat_iff.mp hprefix with heq | hshorter
      · obtain ⟨rfl, hlast⟩ := List.append_inj' heq rfl
        cases hlast
        exact h.2.1
      · exact h.1 past i hshorter
    · intro h
      exact ⟨fun past i hprefix => h past i (List.prefix_concat_iff.mpr (Or.inr hprefix)),
        h is j List.prefix_rfl, trivial⟩

/-- The condition that a step keeps an invariant under, if it is exact, holds along a run iff
the invariant holds wherever the run has led to. -/
theorem forall_prefix_iff_along {good : σ → ι → Prop} (inv : List (ι × ο) → σ → Prop)
    (hstep : ∀ es s i, inv es s → (inv (es ++ [(i, (step s i).1)]) (step s i).2 ↔ good s i))
    {s : σ} (hs : inv [] s) (is : List ι) :
    (∀ js, js <+: is → inv (trace step s js) (final step s js)) ↔ Along step good s is := by
  induction is using List.reverseRecOn with
  | nil =>
    refine iff_of_true (fun js hjs => ?_) trivial
    rw [List.prefix_nil.mp hjs]
    exact hs
  | append_singleton is i ih =>
    rw [along_append, ← ih]
    constructor
    · intro h
      have hall : ∀ js, js <+: is → inv (trace step s js) (final step s js) :=
        fun js hjs => h js (List.prefix_concat_iff.mpr (Or.inr hjs))
      have hlast := h (is ++ [i]) List.prefix_rfl
      rw [trace_append, final_append] at hlast
      exact ⟨hall, (hstep _ _ i (hall is List.prefix_rfl)).mp hlast, trivial⟩
    · intro h js hjs
      obtain ⟨hall, hgood, -⟩ := h
      rcases List.prefix_concat_iff.mp hjs with rfl | hshorter
      · rw [trace_append, final_append]
        exact (hstep _ _ i (hall is List.prefix_rfl)).mpr hgood
      · exact hall js hshorter

/-- What the steps that meet the condition keep holds at the end. -/
theorem final_of_along {good : σ → ι → Prop} (kept : σ → Prop)
    (hkeep : ∀ s i, good s i → kept s → kept (step s i).2) {s : σ} (hs : kept s) {is : List ι}
    (his : Along step good s is) : kept (final step s is) := by
  induction is generalizing s with
  | nil => exact hs
  | cons i is ih => exact ih (hkeep s i his.1 hs) his.2

/-- An event is the answer of a step that meets the condition. -/
theorem exists_of_mem_trace {good : σ → ι → Prop} {s : σ} {is : List ι}
    (his : Along step good s is) {i : ι} {o : ο} (h : (i, o) ∈ trace step s is) :
    ∃ t, good t i ∧ (step t i).1 = o := by
  induction is generalizing s with
  | nil => exact absurd h List.not_mem_nil
  | cons j is ih =>
    rcases List.mem_cons.mp h with hhead | htail
    · cases hhead
      exact ⟨s, his.1, rfl⟩
    · exact ih his.2 htail

/-- What is spent stays spent while the condition holds, so the event does not
come back. -/
theorem not_event_of_spent_along {good : σ → ι → Prop} {spent : σ → Prop} {event : ι × ο → Prop}
    (hkeep : ∀ s i, good s i → spent s → spent (step s i).2)
    (hneed : ∀ s i, good s i → event (i, (step s i).1) → ¬spent s) {s : σ} (hs : spent s)
    {is : List ι} (his : Along step good s is) : ∀ e ∈ trace step s is, ¬event e := by
  induction is generalizing s with
  | nil => exact fun e he => absurd he List.not_mem_nil
  | cons i is ih =>
    intro e he
    rcases List.mem_cons.mp he with rfl | hlater
    · exact fun hevent => hneed s i his.1 hevent hs
    · exact ih (hkeep s i his.1 hs) his.2 e hlater

/-- **At most once**: along the runs that meet the condition, an event that needs a
token unspent, and spends it, happens at most once for each token. -/
theorem pairwise_of_spent_along {κ : Type} {good : σ → ι → Prop} (spent : κ → σ → Prop)
    (event : κ → ι × ο → Prop)
    (hkeep : ∀ k s i, good s i → spent k s → spent k (step s i).2)
    (hneed : ∀ k s i, good s i → event k (i, (step s i).1) → ¬spent k s)
    (hspend : ∀ k s i, good s i → event k (i, (step s i).1) → spent k (step s i).2) {s : σ}
    {is : List ι} (his : Along step good s is) :
    (trace step s is).Pairwise fun a b => ∀ k, ¬(event k a ∧ event k b) := by
  induction is generalizing s with
  | nil => exact List.Pairwise.nil
  | cons i is ih =>
    refine List.Pairwise.cons ?_ (ih his.2)
    intro e he k hboth
    obtain ⟨hnow, hlater⟩ := hboth
    exact not_event_of_spent_along (hkeep k) (hneed k) (hspend k s i his.1 hnow) his.2 e he hlater

/-- The same of one token that nothing brings back. -/
theorem pairwise_of_spent {spent : σ → Prop} {event : ι × ο → Prop}
    (hkeep : ∀ s i, spent s → spent (step s i).2)
    (hneed : ∀ s i, event (i, (step s i).1) → ¬spent s)
    (hspend : ∀ s i, event (i, (step s i).1) → spent (step s i).2) (s : σ) (is : List ι) :
    (trace step s is).Pairwise fun a b => ¬(event a ∧ event b) := by
  have hall := pairwise_of_spent_along (fun _ : Unit => spent) (fun _ => event)
    (fun _ s i _ => hkeep s i) (fun _ s i _ => hneed s i) (fun _ s i _ => hspend s i)
    (along_of_forall (fun _ _ => trivial) s is)
  exact hall.imp fun h => h ()

end CipherOcto.Trace
