import CipherOcto.Lib.SortBy
import Mathlib.Data.List.AList

/-!
# Hash maps

The entries of a hash map have no order of their own: an iterator goes through them in
the one the hasher happens to give. A map is an association list of distinct keys, and
an iteration is given by a ranking of the keys; every order of the entries is that of
some ranking.

> `mem_iterate`: an iteration goes through the entries of the map.
> `exists_order_last`: some iteration ends in a given entry.
-/

namespace CipherOcto

abbrev HashMap (κ α : Type) := AList fun _ : κ => α

namespace HashMap

variable {κ α : Type}

/-- The entries, in the order they are kept in. -/
def pairs (m : HashMap κ α) : List (κ × α) := m.entries.map fun e => (e.1, e.2)

/-- The entries in the order of a ranking of the keys. -/
def iterate (order : κ → Nat) (m : HashMap κ α) : List (κ × α) :=
  sortBy (fun e => order e.1) m.pairs

/-- `retain`: the entries that meet a condition. -/
def retain (keep : κ → α → Bool) (m : HashMap κ α) : HashMap κ α where
  entries := m.entries.filter fun e => keep e.1 e.2
  nodupKeys := m.nodupKeys.sublist List.filter_sublist

theorem iterate_perm (order : κ → Nat) (m : HashMap κ α) : (iterate order m).Perm m.pairs :=
  sortBy_perm _ _

theorem map_fst_pairs (m : HashMap κ α) : m.pairs.map Prod.fst = m.keys := by
  rw [pairs, List.map_map]
  rfl

variable [DecidableEq κ]

theorem mem_pairs {m : HashMap κ α} {k : κ} {v : α} : (k, v) ∈ m.pairs ↔ m.lookup k = some v := by
  have hentry : m.lookup k = some v ↔ Sigma.mk k v ∈ m.entries := AList.mem_lookup_iff
  rw [hentry, pairs, List.mem_map]
  constructor
  · intro h
    obtain ⟨e, he, heq⟩ := h
    cases heq
    exact he
  · exact fun h => ⟨_, h, rfl⟩

theorem mem_iterate {order : κ → Nat} {m : HashMap κ α} {k : κ} {v : α} :
    (k, v) ∈ iterate order m ↔ m.lookup k = some v := by
  rw [(iterate_perm order m).mem_iff, mem_pairs]

/-- A key is read back where it was written, any other as before. -/
theorem lookup_insert (m : HashMap κ α) (k : κ) (v : α) (k' : κ) :
    (m.insert k v).lookup k' = if k' = k then some v else m.lookup k' := by
  split
  next h => rw [h, AList.lookup_insert]
  next h => exact AList.lookup_insert_ne h

theorem pairs_insert {m : HashMap κ α} {k : κ} (h : k ∉ m) (v : α) :
    pairs (m.insert k v) = (k, v) :: m.pairs := by
  rw [pairs, AList.entries_insert_of_notMem h]
  rfl

/-- Two entries of one key are one entry. -/
theorem eq_of_mem_pairs {m : HashMap κ α} {e f : κ × α} (he : e ∈ m.pairs) (hf : f ∈ m.pairs)
    (hkey : e.1 = f.1) : e = f := by
  refine Prod.ext hkey (Option.some.inj ?_)
  rw [← mem_pairs.mp he, hkey]
  exact mem_pairs.mp hf

/-- Some iteration ends in the entry. -/
theorem exists_order_last {m : HashMap κ α} {e : κ × α} (he : e ∈ m.pairs) :
    ∃ order front, iterate order m = front ++ [e] := by
  -- the ranking that puts the key after all others
  refine ⟨fun k => if k = e.1 then 1 else 0, ?_⟩
  generalize hl : iterate (fun k => if k = e.1 then 1 else 0) m = l
  have hperm : l.Perm m.pairs := hl ▸ iterate_perm _ m
  have hsorted : l.Pairwise fun a b : κ × α =>
      (if a.1 = e.1 then 1 else 0) ≤ if b.1 = e.1 then 1 else 0 := hl ▸ pairwise_sortBy _ _
  have hmem : e ∈ l := hperm.mem_iff.mpr he
  obtain rfl | ⟨front, last, rfl⟩ := l.eq_nil_or_concat'
  · exact absurd hmem List.not_mem_nil
  · refine ⟨front, ?_⟩
    rcases List.mem_append.mp hmem with hfront | hlast
    · have hle := (List.pairwise_append.mp hsorted).2.2 e hfront last List.mem_cons_self
      rw [if_pos rfl] at hle
      have hkey : last.1 = e.1 := by
        by_contra hne
        rw [if_neg hne] at hle
        omega
      rw [eq_of_mem_pairs (hperm.mem_iff.mp (List.mem_append_right _ List.mem_cons_self)) he hkey]
    · rw [List.mem_singleton.mp hlast]

end HashMap

end CipherOcto
