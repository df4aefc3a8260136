import Mathlib.Data.List.Basic
import Mathlib.Order.Nat

/-!
# Descending lists

An ordered table kept from its largest key down, so that a bound on its size
cuts a prefix. `insert` puts a key in its place, and the first `k` keys of a
table are the `k` largest it ever held:

> `take_insert_take`: cutting before an insertion changes nothing after the cut.
> `mem_take_iff`: a key is among the first `k` iff fewer than `k` are larger.
> `take_eq_iff`: the first `k` are a given part iff that part is above the rest.
-/

namespace CipherOcto.Descending

variable {α : Type} (rank : α → Nat)

/-- Insertion before the first smaller key. -/
def insert (x : α) : List α → List α
  | [] => [x]
  | y :: ys => if rank y < rank x then x :: y :: ys else y :: insert x ys

/-- The ranks fall from left to right. -/
def Sorted (l : List α) : Prop := l.Pairwise fun a b => rank b < rank a

variable {rank}

theorem mem_insert {x y : α} {l : List α} : y ∈ insert rank x l ↔ y = x ∨ y ∈ l := by
  induction l with
  | nil => simp [insert]
  | cons z zs ih =>
    unfold insert
    split
    · exact List.mem_cons
    · rw [List.mem_cons, ih, List.mem_cons]
      tauto

theorem insert_perm (x : α) (l : List α) : (insert rank x l).Perm (x :: l) := by
  induction l with
  | nil => exact List.Perm.refl _
  | cons y ys ih =>
    unfold insert
    split
    · exact List.Perm.refl _
    · exact (ih.cons y).trans (List.Perm.swap x y ys)

theorem Sorted.nodup {l : List α} (h : Sorted rank l) : l.Nodup :=
  List.Pairwise.imp (fun {a b} (hlt : rank b < rank a) (heq : a = b) =>
    lt_irrefl (rank b) (heq ▸ hlt)) h

theorem Sorted.insert {l : List α} (h : Sorted rank l) {x : α} (hx : ∀ y ∈ l, rank y ≠ rank x) :
    Sorted rank (insert rank x l) := by
  induction l with
  | nil => exact List.pairwise_singleton _ x
  | cons z zs ih =>
    obtain ⟨hz, hzs⟩ := List.pairwise_cons.mp h
    rw [List.forall_mem_cons] at hx
    unfold Descending.insert
    split
    next hlt =>
      refine List.pairwise_cons.mpr ⟨?_, h⟩
      rw [List.forall_mem_cons]
      exact ⟨hlt, fun y hy => (hz y hy).trans hlt⟩
    next hge =>
      refine List.pairwise_cons.mpr ⟨?_, ih hzs hx.2⟩
      intro y hy
      rcases mem_insert.mp hy with rfl | hmem
      · exact lt_of_le_of_ne (not_lt.mp hge) (Ne.symm hx.1)
      · exact hz y hmem

/-- **Cutting commutes with insertion.** -/
theorem take_insert_take (x : α) (l : List α) (k : Nat) :
    (insert rank x (l.take k)).take k = (insert rank x l).take k := by
  induction l generalizing k with
  | nil => rw [List.take_nil]
  | cons y ys ih =>
    cases k with
    | zero => rw [List.take_zero, List.take_zero]
    | succ k =>
      rw [List.take_succ_cons]
      unfold insert
      split
      · have hcut : (y :: ys.take k).take k = (y :: ys).take k := by
          rw [← List.take_succ_cons, List.take_take, min_eq_left (Nat.le_succ k)]
        rw [List.take_succ_cons, List.take_succ_cons, hcut]
      · rw [List.take_succ_cons, List.take_succ_cons, ih]

theorem insert_of_forall_lt {x : α} {l : List α} (h : ∀ y ∈ l, rank x < rank y) :
    insert rank x l = l ++ [x] := by
  induction l with
  | nil => rfl
  | cons y ys ih =>
    rw [List.forall_mem_cons] at h
    unfold insert
    rw [if_neg (not_lt.mpr h.1.le), ih h.2]
    rfl

/-- A key of the rank of one that was cut off is cut off too. -/
theorem take_insert_of_cut {x y : α} {l : List α} {k : Nat} (h : Sorted rank l) (hy : y ∈ l)
    (hcut : y ∉ l.take k) (hrank : rank x = rank y) :
    (insert rank x (l.take k)).take k = l.take k := by
  have hsplit := h
  unfold Sorted at hsplit
  rw [← List.take_append_drop k l] at hsplit hy
  have hdrop : y ∈ l.drop k := (List.mem_append.mp hy).resolve_left hcut
  rw [insert_of_forall_lt fun z hz => hrank ▸ (List.pairwise_append.mp hsplit).2.2 z hz y hdrop]
  -- something was cut, so the prefix is full
  have hlen : k < l.length := by
    by_contra hshort
    rw [List.drop_eq_nil_of_le (not_lt.mp hshort)] at hdrop
    exact absurd hdrop List.not_mem_nil
  refine List.take_left' ?_
  rw [List.length_take]
  omega

/-- **The first `k` keys are the `k` largest.** -/
theorem mem_take_iff {x : α} {l : List α} {k : Nat} (h : Sorted rank l) (hx : x ∈ l) :
    x ∈ l.take k ↔ (l.filter fun y => decide (rank x < rank y)).length < k := by
  induction l generalizing k with
  | nil => exact absurd hx List.not_mem_nil
  | cons y ys ih =>
    obtain ⟨hy, hys⟩ := List.pairwise_cons.mp h
    rcases List.mem_cons.mp hx with rfl | hmem
    · -- nothing is larger than the head
      have hnone : (x :: ys).filter (fun z => decide (rank x < rank z)) = [] := by
        rw [List.filter_eq_nil_iff, List.forall_mem_cons]
        refine ⟨by simp, fun z hz => ?_⟩
        simpa using (hy z hz).le
      rw [hnone]
      cases k with
      | zero => simp
      | succ k => simp
    · have hlarger : decide (rank x < rank y) = true := decide_eq_true (hy x hmem)
      have hne : x ≠ y := by
        rintro rfl
        exact lt_irrefl _ (hy x hmem)
      rw [List.filter_cons, if_pos hlarger, List.length_cons]
      cases k with
      | zero => simp
      | succ k =>
        rw [List.take_succ_cons, List.mem_cons, Nat.succ_lt_succ_iff, ← ih hys hmem]
        exact or_iff_right hne

/-- **The first `k` keys are some `k` others iff those are the larger ones.** -/
theorem take_eq_iff {l bottom top : List α} {k : Nat} (h : Sorted rank l)
    (hperm : l.Perm (bottom ++ top)) (hlen : top.length = min k l.length) :
    (∀ x, x ∈ l.take k ↔ x ∈ top) ↔ ∀ x ∈ bottom, ∀ y ∈ top, rank x < rank y := by
  have hmem : ∀ x, x ∈ l ↔ x ∈ bottom ∨ x ∈ top := fun x => hperm.mem_iff.trans List.mem_append
  have hcount : ∀ x, (l.filter fun y => decide (rank x < rank y)).length =
      bottom.countP (fun y => decide (rank x < rank y)) +
        top.countP (fun y => decide (rank x < rank y)) := by
    intro x
    rw [← List.countP_eq_length_filter, hperm.countP_eq, List.countP_append]
  constructor
  · intro htake x hx y hy
    have hdisjoint := (List.nodup_append.mp (hperm.nodup_iff.mp h.nodup)).2.2
    have hcut : x ∉ l.take k := fun hin => hdisjoint x hx x ((htake x).mp hin) rfl
    have hsplit := h
    unfold Sorted at hsplit
    have hxl := (hmem x).mpr (.inl hx)
    rw [← List.take_append_drop k l] at hsplit hxl
    exact (List.pairwise_append.mp hsplit).2.2 y ((htake y).mpr hy) x
      ((List.mem_append.mp hxl).resolve_left hcut)
  · intro habove x
    constructor
    · intro hin
      have hxl := List.mem_of_mem_take hin
      refine ((hmem x).mp hxl).resolve_left fun hx => ?_
      -- all of `top` is larger, and there is something else, so `top` fills the prefix
      have hlt := (mem_take_iff h hxl).mp hin
      have hall : top.countP (fun y => decide (rank x < rank y)) = top.length :=
        List.countP_eq_length.mpr fun y hy => decide_eq_true (habove x hx y hy)
      have hpos := List.length_pos_of_mem hx
      have htotal := hperm.length_eq
      rw [List.length_append] at htotal
      rw [hcount, hall] at hlt
      omega
    · intro hx
      rw [mem_take_iff h ((hmem x).mpr (.inr hx)), hcount]
      have hnone : bottom.countP (fun y => decide (rank x < rank y)) = 0 :=
        List.countP_eq_zero.mpr fun y hy hlt =>
          lt_asymm (habove y hy x hx) (of_decide_eq_true hlt)
      have hself : top.countP (fun y => decide (rank x < rank y)) < top.length := by
        refine lt_of_le_of_ne List.countP_le_length fun heq => ?_
        exact lt_irrefl _ (of_decide_eq_true (List.countP_eq_length.mp heq x hx))
      omega

theorem map_insert {β : Type} (f : β → α) (x : β) (l : List β) :
    (insert (fun b => rank (f b)) x l).map f = insert rank (f x) (l.map f) := by
  induction l with
  | nil => rfl
  | cons y ys ih =>
    rw [List.map_cons]
    unfold insert
    split
    · rfl
    · rw [List.map_cons, ih]

end CipherOcto.Descending
