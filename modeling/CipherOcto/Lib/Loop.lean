import Mathlib.Algebra.BigOperators.Group.Finset.Basic
import CipherOcto.Lib.Machine

/-!
# Loops that may stop

A loop over the items of a list, or over the indices below a bound, in `Run`. One lemma
for each kind says what a loop that returned has done.

> `forM_eq_ok`: a loop of checks returned iff every check did.
> `mapM_range_eq_ok`: a loop that collects has every item's result in its place.
> `grid_eq_ok`: so has a loop within a loop, in row-major order.
> `foldlM_range_sum`: a loop that adds up has the sum of what it added.
> `gather_eq_ok`: a loop that pushes what it finds has found it in the order of the list.
-/

namespace Loop

open Machine

variable {ε : Type} {α β : Type}

theorem forM_eq_ok {f : α → Run ε Unit} : ∀ {l : List α},
    l.forM f = .ok () ↔ ∀ x ∈ l, f x = .ok ()
  | [] => iff_of_true rfl fun x hx => nomatch hx
  | x :: l => by
    show (f x >>= fun _ => l.forM f) = .ok () ↔ _
    rw [run_bind_eq_ok, List.forall_mem_cons, ← forM_eq_ok]
    constructor
    · rintro ⟨⟨⟩, hx, hl⟩
      exact ⟨hx, hl⟩
    · rintro ⟨hx, hl⟩
      exact ⟨(), hx, hl⟩

theorem forM_range_eq_ok {f : Nat → Run ε Unit} {n : Nat} :
    (List.range n).forM f = .ok () ↔ ∀ i < n, f i = .ok () := by
  rw [forM_eq_ok]
  exact forall_congr' fun i => by rw [List.mem_range]

theorem mapM_eq_ok {f : α → Run ε β} : ∀ {l : List α} {ys : List β}, l.mapM f = .ok ys →
    List.Forall₂ (fun x y => f x = .ok y) l ys
  | [], ys, h => by
    rw [List.mapM_nil] at h
    injection h with h
    rw [← h]
    exact .nil
  | x :: l, ys, h => by
    rw [List.mapM_cons] at h
    obtain ⟨y, hy, h⟩ := run_bind_eq_ok.mp h
    obtain ⟨ys', hys, h⟩ := run_bind_eq_ok.mp h
    injection h with h
    rw [← h]
    exact .cons hy (mapM_eq_ok hys)

/-- A loop that collects has every item's result in its place. -/
theorem mapM_range_eq_ok {f : Nat → Run ε β} {n : Nat} {ys : List β}
    (h : (List.range n).mapM f = .ok ys) :
    ys.length = n ∧ ∀ i < n, ∃ y, ys[i]? = some y ∧ f i = .ok y := by
  have hall := mapM_eq_ok h
  have hlen : ys.length = n := by rw [← hall.length_eq, List.length_range]
  refine ⟨hlen, fun i hi => ?_⟩
  have hys : i < ys.length := by omega
  refine ⟨ys[i], List.getElem?_eq_getElem hys, ?_⟩
  have hi' := hall.get (i := i) (by rwa [List.length_range]) hys
  simpa using hi'

/-- A loop that adds up has the sum, whatever may stop it on the way. -/
theorem foldlM_range_sum {step : Int → Nat → Run ε Int} {g : Nat → Int} {n : Nat}
    (hstep : ∀ i < n, ∀ acc r, step acc i = .ok r → r = acc + g i) {r : Int}
    (h : (List.range n).foldlM step 0 = .ok r) : r = ∑ i ∈ Finset.range n, g i := by
  induction n generalizing r with
  | zero =>
    injection h with h
    exact h.symm
  | succ n ih =>
    rw [List.range_succ, List.foldlM_append] at h
    obtain ⟨acc, hacc, h⟩ := run_bind_eq_ok.mp h
    rw [List.foldlM_cons] at h
    obtain ⟨r', hr', h⟩ := run_bind_eq_ok.mp h
    rw [List.foldlM_nil] at h
    injection h with h
    rw [Finset.sum_range_succ, ← ih (fun i hi => hstep i (Nat.lt_succ_of_lt hi)) hacc, ← h]
    exact hstep n (Nat.lt_succ_self n) acc r' hr'

/-- A loop that pushes what it finds. -/
def gather (f : α → Run ε (Option β)) (l : List α) : Run ε (List β) :=
  l.foldlM (fun found x => (f x).map fun y => found ++ y.toList) []

/-- What there is to push for an item. -/
def pushed (f : α → Run ε (Option β)) (x : α) : Option β := (f x).toOption.join

theorem foldlM_push_eq_ok {f : α → Run ε (Option β)} : ∀ {l : List α} {found ys : List β},
    l.foldlM (fun found x => (f x).map fun y => found ++ y.toList) found = .ok ys ↔
      (∀ x ∈ l, ∃ y, f x = .ok y) ∧ ys = found ++ l.filterMap (pushed f)
  | [], found, ys => by
    rw [List.foldlM_nil, List.filterMap_nil, List.append_nil]
    constructor
    · intro h
      cases h
      exact ⟨List.forall_mem_nil _, rfl⟩
    · rintro ⟨-, rfl⟩
      rfl
  | x :: l, found, ys => by
    rw [List.foldlM_cons, run_bind_eq_ok, List.forall_mem_cons]
    cases hx : f x with
    | error stop =>
      refine iff_of_false ?_ ?_
      · rintro ⟨_, h, -⟩
        cases h
      · rintro ⟨⟨⟨_, h⟩, _⟩, _⟩
        cases h
    | ok y =>
      have hpushed : pushed f x = y := by rw [pushed, hx]; rfl
      have hcons : (x :: l).filterMap (pushed f) = y.toList ++ l.filterMap (pushed f) := by
        rw [List.filterMap_cons, hpushed]
        cases y with
        | none => rfl
        | some z => rfl
      rw [hcons, ← List.append_assoc]
      constructor
      · rintro ⟨_, ⟨⟩, h⟩
        obtain ⟨hl, hys⟩ := foldlM_push_eq_ok.mp h
        exact ⟨⟨⟨y, rfl⟩, hl⟩, hys⟩
      · rintro ⟨⟨-, hl⟩, hys⟩
        exact ⟨_, rfl, foldlM_push_eq_ok.mpr ⟨hl, hys⟩⟩

theorem gather_eq_ok {f : α → Run ε (Option β)} {l : List α} {ys : List β} :
    gather f l = .ok ys ↔ (∀ x ∈ l, ∃ y, f x = .ok y) ∧ ys = l.filterMap (pushed f) :=
  foldlM_push_eq_ok

/-- What a loop that returned has pushed. -/
theorem mem_gather {f : α → Run ε (Option β)} {l : List α} {ys : List β} {y : β}
    (h : gather f l = .ok ys) : y ∈ ys ↔ ∃ x ∈ l, f x = .ok (some y) := by
  obtain ⟨hall, rfl⟩ := gather_eq_ok.mp h
  rw [List.mem_filterMap]
  refine exists_congr fun x => and_congr_right fun hx => ?_
  obtain ⟨z, hz⟩ := hall x hx
  rw [pushed, hz]
  exact ⟨fun h => congrArg Except.ok h, fun h => Except.ok.inj h⟩

/-- Rows of one length, laid out one after the other. -/
theorem getElem?_flatten {n : Nat} : ∀ {rows : List (List α)}, (∀ row ∈ rows, row.length = n) →
    ∀ (i : Nat) {j : Nat}, j < n → rows.flatten[i * n + j]? = rows[i]?.bind (·[j]?)
  | [], _, i, j, _ => rfl
  | row :: rows, h, 0, j, hj => by
    have hrow := h row List.mem_cons_self
    rw [List.flatten_cons, Nat.zero_mul, Nat.zero_add, List.getElem?_append_left (by omega)]
    rfl
  | row :: rows, h, i + 1, j, hj => by
    have hrow := h row List.mem_cons_self
    rw [List.flatten_cons, List.getElem?_append_right (by rw [Nat.succ_mul]; omega),
      show (i + 1) * n + j - row.length = i * n + j by rw [Nat.succ_mul]; omega,
      getElem?_flatten (fun r hr => h r (List.mem_cons_of_mem _ hr)) i hj]
    rfl

/-- Two nested loops that collect fill a grid, row by row. -/
theorem grid_eq_ok {f : Nat → Nat → Run ε β} {m n : Nat} {rows : List (List β)}
    (h : ((List.range m).mapM fun i => (List.range n).mapM (f i)) = .ok rows) :
    rows.flatten.length = m * n ∧
      ∀ i < m, ∀ j < n, ∃ y, rows.flatten[i * n + j]? = some y ∧ f i j = .ok y := by
  obtain ⟨hm, hrows⟩ := mapM_range_eq_ok h
  have hn : ∀ row ∈ rows, row.length = n := by
    intro row hmem
    obtain ⟨i, hi, rfl⟩ := List.getElem_of_mem hmem
    obtain ⟨ys, hys, hrow⟩ := hrows i (by omega)
    rw [List.getElem?_eq_getElem hi] at hys
    injection hys with hys
    rw [hys]
    exact (mapM_range_eq_ok hrow).1
  constructor
  · have hmap : rows.map List.length = List.replicate m n := by
      refine List.eq_replicate_iff.mpr ⟨by rw [List.length_map, hm], fun l hl => ?_⟩
      obtain ⟨row, hmem, rfl⟩ := List.mem_map.mp hl
      exact hn row hmem
    rw [List.length_flatten, hmap, List.sum_replicate, smul_eq_mul]
  · intro i hi j hj
    obtain ⟨ys, hys, hrow⟩ := hrows i hi
    obtain ⟨y, hy, hcell⟩ := (mapM_range_eq_ok hrow).2 j hj
    refine ⟨y, ?_, hcell⟩
    rw [getElem?_flatten hn i hj, hys]
    exact hy

end Loop
