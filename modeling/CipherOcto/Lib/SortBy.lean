import Mathlib.Data.List.Dedup
import Mathlib.Data.List.Sort
import Mathlib.Data.Set.Function

/-!
# Sorting by a key

The stable sort of a list by a key in a linear order. Entries that share a key keep
their order, so the result depends on the order of the list only through those.
-/

namespace CipherOcto

variable {α β κ : Type} [LinearOrder κ]

/-- The stable sort of `l` by `key`. -/
def sortBy (key : α → κ) (l : List α) : List α := l.insertionSort fun a b => key a ≤ key b

theorem sortBy_perm (key : α → κ) (l : List α) : (sortBy key l).Perm l :=
  List.perm_insertionSort _ l

@[simp] theorem mem_sortBy {key : α → κ} {l : List α} {a : α} : a ∈ sortBy key l ↔ a ∈ l :=
  (sortBy_perm key l).mem_iff

theorem pairwise_sortBy (key : α → κ) (l : List α) :
    (sortBy key l).Pairwise fun a b => key a ≤ key b := by
  have : Std.Total fun a b : α => key a ≤ key b := ⟨fun a b => le_total (key a) (key b)⟩
  have : IsTrans α fun a b => key a ≤ key b := ⟨fun _ _ _ => le_trans⟩
  exact List.pairwise_insertionSort _ l

/-- A key that is read off `f` sorts the values of `f`. -/
theorem map_sortBy (f : α → β) (key : β → κ) (l : List α) :
    (sortBy (fun a => key (f a)) l).map f = sortBy key (l.map f) :=
  List.map_insertionSort _ _ f l fun _ _ _ _ => Iff.rfl

/-- Where no two entries share a key, the order of the list is forgotten. -/
theorem sortBy_congr {key : α → κ} {xs ys : List α} (hkey : Set.InjOn key {a | a ∈ xs})
    (h : xs.Perm ys) : sortBy key xs = sortBy key ys := by
  refine List.Perm.eq_of_pairwise ?_ (pairwise_sortBy key xs) (pairwise_sortBy key ys)
    ((sortBy_perm key xs).trans (h.trans (sortBy_perm key ys).symm))
  intro a b ha hb hle hge
  exact hkey (mem_sortBy.mp ha) (h.mem_iff.mpr (mem_sortBy.mp hb)) (le_antisymm hle hge)

/-- What stands in front of two lists that are sorted alike does not tell them apart. -/
theorem sortBy_append_congr {key : α → κ} {xs ys : List α} (h : sortBy key xs = sortBy key ys) :
    ∀ front : List α, sortBy key (front ++ xs) = sortBy key (front ++ ys)
  | [] => h
  | a :: front => by
    have ih := sortBy_append_congr h front
    unfold sortBy at ih ⊢
    rw [List.cons_append, List.cons_append, List.insertionSort_cons, List.insertionSort_cons, ih]

/-- The entries of `l`, each once and in order, as a tree set lists them. -/
def sortedSet (l : List κ) : List κ := sortBy id l.dedup

@[simp] theorem mem_sortedSet {l : List κ} {a : κ} : a ∈ sortedSet l ↔ a ∈ l := by
  rw [sortedSet, mem_sortBy, List.mem_dedup]

end CipherOcto
