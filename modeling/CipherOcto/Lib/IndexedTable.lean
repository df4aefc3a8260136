import CipherOcto.Lib.SortedMap
import Mathlib.Data.Set.Defs

/-!
# Tables with a reverse index

Rows are kept under a key of their own, and a second map leads from another
attribute of the row, its index, to the key. `IndexedTable` says that the two maps
belong together: no two rows share a key or an index, and a lookup either way finds
the row of the table.

> `IndexedTable.insert`, `IndexedTable.erase`, `IndexedTable.update`: the three ways to write
> both maps.
> `IndexedTable.mem_rows_iff_index`: a lookup through the index finds the row that has it.
-/

namespace CipherOcto

variable {κ ι ρ : Type}

section

variable [LinearOrder κ] [LinearOrder ι]

/-- The rows of a table. -/
def rowsOf (rows : SortedMap κ ρ) : Set ρ := {row | ∃ k, rows.lookup k = some row}

theorem mem_rowsOf {rows : SortedMap κ ρ} {row : ρ} :
    row ∈ rowsOf rows ↔ ∃ k, rows.lookup k = some row := Iff.rfl

theorem mem_rowsOf_iff_mem_values {rows : SortedMap κ ρ} {row : ρ} :
    row ∈ rowsOf rows ↔ row ∈ rows.values := by
  rw [mem_rowsOf, SortedMap.values, List.mem_map]
  constructor
  · rintro ⟨k, hk⟩
    exact ⟨(k, row), SortedMap.lookup_eq_some_iff.mp hk, rfl⟩
  · rintro ⟨e, he, rfl⟩
    exact ⟨e.1, SortedMap.lookup_eq_some_iff.mpr he⟩

/-- Rows under their keys, and the reverse index with exactly their indices. -/
structure IndexedTable (key : ρ → κ) (index : ρ → ι) (rows : SortedMap κ ρ)
    (reverse : SortedMap ι κ) : Prop where
  key_eq : ∀ {k row}, rows.lookup k = some row → key row = k
  reverse_iff : ∀ {i k}, reverse.lookup i = some k ↔ ∃ row, rows.lookup k = some row ∧ index row = i

namespace IndexedTable

variable {key : ρ → κ} {index : ρ → ι} {rows : SortedMap κ ρ} {reverse : SortedMap ι κ}

theorem empty : IndexedTable key index SortedMap.empty SortedMap.empty where
  key_eq h := by cases h
  reverse_iff {i k} := by
    constructor
    · intro h
      cases h
    · rintro ⟨row, h, -⟩
      cases h

section

variable (h : IndexedTable key index rows reverse)
include h

/-! ## Reading -/

theorem mem_rows_iff {row : ρ} : row ∈ rowsOf rows ↔ rows.lookup (key row) = some row := by
  constructor
  · rintro ⟨k, hk⟩
    rwa [h.key_eq hk]
  · exact fun hrow => ⟨_, hrow⟩

theorem mem_rows_of_lookup {k : κ} {row : ρ} :
    rows.lookup k = some row ↔ row ∈ rowsOf rows ∧ key row = k := by
  rw [h.mem_rows_iff]
  constructor
  · intro hk
    rw [h.key_eq hk]
    exact ⟨hk, rfl⟩
  · rintro ⟨hrow, rfl⟩
    exact hrow

theorem reverse_index {row : ρ} (hrow : row ∈ rowsOf rows) :
    reverse.lookup (index row) = some (key row) :=
  h.reverse_iff.mpr ⟨row, h.mem_rows_iff.mp hrow, rfl⟩

/-- **A lookup through the index** finds the row that has it. -/
theorem mem_rows_iff_index {i : ι} {row : ρ} :
    ((reverse.lookup i).bind fun k => rows.lookup k) = some row ↔
      row ∈ rowsOf rows ∧ index row = i := by
  rw [Option.bind_eq_some_iff]
  constructor
  · rintro ⟨k, hk, hrow⟩
    obtain ⟨row', hrow', rfl⟩ := h.reverse_iff.mp hk
    rw [hrow, Option.some.injEq] at hrow'
    exact ⟨⟨k, hrow⟩, congrArg index hrow'⟩
  · rintro ⟨hrow, rfl⟩
    exact ⟨key row, h.reverse_index hrow, h.mem_rows_iff.mp hrow⟩

theorem reverse_eq_none_iff {i : ι} :
    reverse.lookup i = none ↔ ∀ row ∈ rowsOf rows, index row ≠ i := by
  constructor
  · rintro hnone row hrow rfl
    rw [h.reverse_index hrow] at hnone
    cases hnone
  · intro hfree
    refine Option.eq_none_iff_forall_ne_some.mpr fun k hk => ?_
    obtain ⟨row, hrow, heq⟩ := h.reverse_iff.mp hk
    exact hfree row ⟨k, hrow⟩ heq

theorem lookup_eq_none_iff {k : κ} :
    rows.lookup k = none ↔ ∀ row ∈ rowsOf rows, key row ≠ k := by
  rw [Option.eq_none_iff_forall_ne_some]
  refine forall_congr' fun row => ?_
  rw [ne_eq, h.mem_rows_of_lookup, not_and]

/-! ## Writing -/

/-- A row whose key and index are free is entered in both maps. -/
theorem insert {row : ρ} (hkey : rows.lookup (key row) = none)
    (hindex : reverse.lookup (index row) = none) :
    IndexedTable key index (rows.insert (key row) row) (reverse.insert (index row) (key row)) where
  key_eq {k row'} hk := by
    rw [SortedMap.lookup_insert] at hk
    split at hk
    next heq => rw [← Option.some.inj hk, heq]
    next => exact h.key_eq hk
  reverse_iff {i k} := by
    simp only [SortedMap.lookup_insert]
    constructor
    · intro hi
      split at hi
      next heq => exact ⟨row, by rw [if_pos (Option.some.inj hi).symm], heq.symm⟩
      next hne =>
        obtain ⟨row', hrow', hi'⟩ := h.reverse_iff.mp hi
        refine ⟨row', ?_, hi'⟩
        rw [if_neg fun heq => ?_, hrow']
        rw [heq, hkey] at hrow'
        cases hrow'
    · rintro ⟨row', hrow', rfl⟩
      split at hrow'
      next heq => rw [← Option.some.inj hrow', if_pos rfl, heq]
      next hne =>
        have hold := h.reverse_iff.mpr ⟨row', hrow', rfl⟩
        rw [if_neg fun heq => ?_, hold]
        rw [heq, hindex] at hold
        cases hold

/-- A row is taken out of both maps. -/
theorem erase {k : κ} {row : ρ} (hrow : rows.lookup k = some row) :
    IndexedTable key index (rows.erase k) (reverse.erase (index row)) where
  key_eq {k' row'} hk := by
    rw [SortedMap.lookup_erase] at hk
    split at hk
    next => cases hk
    next => exact h.key_eq hk
  reverse_iff {i k'} := by
    have hreverse := h.reverse_iff.mpr ⟨row, hrow, rfl⟩
    simp only [SortedMap.lookup_erase]
    constructor
    · intro hi
      split at hi
      next => cases hi
      next hne =>
        obtain ⟨row', hrow', hi'⟩ := h.reverse_iff.mp hi
        refine ⟨row', ?_, hi'⟩
        rw [if_neg fun heq => ?_, hrow']
        rw [heq, hrow, Option.some.injEq] at hrow'
        exact hne (hi'.symm.trans (congrArg index hrow'.symm))
    · rintro ⟨row', hrow', rfl⟩
      split at hrow'
      next => cases hrow'
      next hne =>
        have hold := h.reverse_iff.mpr ⟨row', hrow', rfl⟩
        rw [if_neg fun heq => ?_, hold]
        rw [heq, hreverse, Option.some.injEq] at hold
        exact hne hold.symm

/-- A row is rewritten in place, its key and index as before. -/
theorem update {k : κ} {row row' : ρ} (hrow : rows.lookup k = some row)
    (hkey : key row' = key row) (hindex : index row' = index row) :
    IndexedTable key index (rows.insert k row') reverse where
  key_eq {k' row''} hk := by
    rw [SortedMap.lookup_insert] at hk
    split at hk
    next heq => rw [← Option.some.inj hk, hkey, heq, h.key_eq hrow]
    next => exact h.key_eq hk
  reverse_iff {i k'} := by
    rw [h.reverse_iff]
    simp only [SortedMap.lookup_insert]
    constructor
    · rintro ⟨row'', hrow'', rfl⟩
      by_cases heq : k' = k
      · rw [heq, hrow, Option.some.injEq] at hrow''
        exact ⟨row', by rw [if_pos heq], by rw [hindex, hrow'']⟩
      · exact ⟨row'', by rw [if_neg heq, hrow''], rfl⟩
    · rintro ⟨row'', hrow'', rfl⟩
      split at hrow''
      next heq => exact ⟨row, by rw [heq, hrow], by rw [← Option.some.inj hrow'', hindex]⟩
      next => exact ⟨row'', hrow'', rfl⟩

end

end IndexedTable

end

end CipherOcto
