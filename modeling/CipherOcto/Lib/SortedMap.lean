import Mathlib.Algebra.Ring.Nat
import Mathlib.Data.Finset.Card
import Mathlib.Data.List.Sort
import Mathlib.Data.Prod.Lex

/-!
# Sorted maps

A map kept as the list of its entries in ascending order of their keys, which is
the order its iterators go through it. Order is part of the type, so two maps
with the same entries are equal (`ext_of_perm`), and what is done to a map is a
permutation of what is done to its entries:

> `insert_perm`: inserting a new key adds the entry.
> `ofList_eq`: the order of insertion does not matter.
-/

namespace CipherOcto

/-- Entries in ascending order of distinct keys. -/
@[ext]
structure SortedMap (κ α : Type) [LinearOrder κ] where
  entries : List (κ × α)
  sorted : entries.Pairwise fun a b => a.1 < b.1

namespace SortedMap

variable {κ α β : Type} [LinearOrder κ]

/-! ## Operations -/

def empty : SortedMap κ α := ⟨[], List.Pairwise.nil⟩

/-- Insertion into the entries: in place, replacing the value of an equal key. -/
def insertEntry (k : κ) (v : α) : List (κ × α) → List (κ × α)
  | [] => [(k, v)]
  | e :: es =>
    if k < e.1 then (k, v) :: e :: es
    else if e.1 < k then e :: insertEntry k v es
    else (k, v) :: es

theorem mem_insertEntry {k : κ} {v : α} {e : κ × α} {es : List (κ × α)}
    (h : e ∈ insertEntry k v es) : e = (k, v) ∨ e ∈ es := by
  induction es with
  | nil => exact Or.inl (List.mem_singleton.mp h)
  | cons e' es ih =>
    unfold insertEntry at h
    split at h
    next => exact List.mem_cons.mp h
    next =>
      split at h
      next =>
        rcases List.mem_cons.mp h with rfl | h
        · exact Or.inr List.mem_cons_self
        · exact (ih h).imp id (List.mem_cons_of_mem _)
      next => exact (List.mem_cons.mp h).imp id (List.mem_cons_of_mem _)

theorem pairwise_insertEntry {k : κ} {v : α} {es : List (κ × α)}
    (h : es.Pairwise fun a b => a.1 < b.1) :
    (insertEntry k v es).Pairwise fun a b => a.1 < b.1 := by
  induction es with
  | nil => exact List.pairwise_singleton _ _
  | cons e es ih =>
    obtain ⟨he, hes⟩ := List.pairwise_cons.mp h
    unfold insertEntry
    split
    next hlt =>
      refine List.pairwise_cons.mpr ⟨?_, h⟩
      rw [List.forall_mem_cons]
      exact ⟨hlt, fun e' he' => hlt.trans (he e' he')⟩
    next hge =>
      split
      next hgt =>
        refine List.pairwise_cons.mpr ⟨?_, ih hes⟩
        intro e' he'
        rcases mem_insertEntry he' with rfl | hmem
        · exact hgt
        · exact he e' hmem
      next hle =>
        have heq : k = e.1 := le_antisymm (not_lt.mp hle) (not_lt.mp hge)
        refine List.pairwise_cons.mpr ⟨?_, hes⟩
        intro e' he'
        rw [heq]
        exact he e' he'

def insert (m : SortedMap κ α) (k : κ) (v : α) : SortedMap κ α :=
  ⟨insertEntry k v m.entries, pairwise_insertEntry m.sorted⟩

def erase (m : SortedMap κ α) (k : κ) : SortedMap κ α :=
  ⟨m.entries.filter fun e => e.1 ≠ k, m.sorted.filter _⟩

def lookup (m : SortedMap κ α) (k : κ) : Option α :=
  (m.entries.find? fun e => e.1 = k).map Prod.snd

def keys (m : SortedMap κ α) : List κ := m.entries.map Prod.fst

def values (m : SortedMap κ α) : List α := m.entries.map Prod.snd

def map (f : α → β) (m : SortedMap κ α) : SortedMap κ β :=
  ⟨m.entries.map (Prod.map id f), List.pairwise_map.mpr m.sorted⟩

/-- Insertion of a list of entries, in its order. -/
def ofList (es : List (κ × α)) : SortedMap κ α := es.foldl (fun m e => m.insert e.1 e.2) empty

/-! ## Entries -/

/-- The order is determined by the entries. -/
theorem ext_of_perm {m m' : SortedMap κ α} (h : m.entries.Perm m'.entries) : m = m' :=
  SortedMap.ext (h.eq_of_pairwise (fun _ _ _ _ hab hba => absurd hba hab.asymm) m.sorted m'.sorted)

theorem nodup_keys (m : SortedMap κ α) : m.keys.Nodup := by
  refine List.pairwise_map.mpr (m.sorted.imp ?_)
  intro a b hlt
  exact hlt.ne

theorem insertEntry_perm {k : κ} {v : α} {es : List (κ × α)} (h : k ∉ es.map Prod.fst) :
    (insertEntry k v es).Perm ((k, v) :: es) := by
  induction es with
  | nil => exact List.Perm.refl _
  | cons e es ih =>
    rw [List.map_cons, List.mem_cons, not_or] at h
    unfold insertEntry
    split
    next => exact List.Perm.refl _
    next hge =>
      split
      next => exact ((ih h.2).cons e).trans (List.Perm.swap _ _ _)
      next hle => exact absurd (le_antisymm (not_lt.mp hle) (not_lt.mp hge)) h.1

/-- A new key adds its entry. -/
theorem insert_perm {m : SortedMap κ α} {k : κ} (v : α) (h : k ∉ m.keys) :
    (m.insert k v).entries.Perm ((k, v) :: m.entries) := insertEntry_perm h

theorem mem_keys_insert {m : SortedMap κ α} {k k' : κ} {v : α} (h : k' ∈ (m.insert k v).keys) :
    k' = k ∨ k' ∈ m.keys := by
  obtain ⟨e, he, rfl⟩ := List.mem_map.mp h
  rcases mem_insertEntry he with rfl | hmem
  · exact Or.inl rfl
  · exact Or.inr (List.mem_map_of_mem hmem)

/-- Erasing the first key drops the first entry. -/
theorem erase_first {m : SortedMap κ α} {e : κ × α} {es : List (κ × α)}
    (h : m.entries = e :: es) : (m.erase e.1).entries = es := by
  have hsorted := m.sorted
  rw [h] at hsorted
  show m.entries.filter (fun e' => e'.1 ≠ e.1) = es
  rw [h, List.filter_cons_of_neg (by simp)]
  refine List.filter_eq_self.mpr fun e' he' => ?_
  exact decide_eq_true ((List.pairwise_cons.mp hsorted).1 e' he').ne'

theorem lookup_first {m : SortedMap κ α} {e : κ × α} {es : List (κ × α)}
    (h : m.entries = e :: es) : m.lookup e.1 = some e.2 := by
  unfold lookup
  rw [h, List.find?_cons_of_pos (by simp)]
  rfl

/-! ## Lookup -/

theorem lookup_eq_some_iff {m : SortedMap κ α} {k : κ} {v : α} :
    m.lookup k = some v ↔ (k, v) ∈ m.entries := by
  unfold lookup
  rw [Option.map_eq_some_iff]
  have hkey : ∀ {e}, m.entries.find? (fun e => decide (e.1 = k)) = some e → e.1 = k := by
    intro e he
    have htrue := List.find?_some he
    exact of_decide_eq_true htrue
  constructor
  · intro h
    obtain ⟨e, he, rfl⟩ := h
    rw [← hkey he]
    exact List.mem_of_find?_eq_some he
  · intro h
    refine ⟨(k, v), ?_, rfl⟩
    have hfound : (m.entries.find? fun e => decide (e.1 = k)).isSome := by
      rw [List.find?_isSome]
      exact ⟨(k, v), h, decide_eq_true rfl⟩
    obtain ⟨e, he⟩ := Option.isSome_iff_exists.mp hfound
    -- distinct entries have distinct keys
    have heq : e = (k, v) :=
      List.inj_on_of_nodup_map m.nodup_keys (List.mem_of_find?_eq_some he) h (hkey he)
    rw [he, heq]

theorem mem_keys_iff {m : SortedMap κ α} {k : κ} : k ∈ m.keys ↔ (m.lookup k).isSome := by
  unfold keys
  rw [List.mem_map, Option.isSome_iff_exists]
  constructor
  · intro h
    obtain ⟨e, he, rfl⟩ := h
    exact ⟨e.2, lookup_eq_some_iff.mpr he⟩
  · intro h
    obtain ⟨v, hv⟩ := h
    exact ⟨(k, v), lookup_eq_some_iff.mp hv, rfl⟩

theorem mem_insertEntry_iff {k : κ} {v : α} {e : κ × α} {es : List (κ × α)}
    (h : es.Pairwise fun a b => a.1 < b.1) :
    e ∈ insertEntry k v es ↔ e = (k, v) ∨ e ∈ es ∧ e.1 ≠ k := by
  induction es with
  | nil => simp [insertEntry]
  | cons e' es ih =>
    obtain ⟨he', hes⟩ := List.pairwise_cons.mp h
    unfold insertEntry
    split
    next hlt =>
      have hall : ∀ a ∈ e' :: es, a.1 ≠ k := by
        intro a ha
        rcases List.mem_cons.mp ha with rfl | hlater
        · exact hlt.ne'
        · exact (hlt.trans (he' a hlater)).ne'
      rw [List.mem_cons]
      exact or_congr Iff.rfl ⟨fun hmem => ⟨hmem, hall e hmem⟩, fun hmem => hmem.1⟩
    next hge =>
      split
      next hgt =>
        rw [List.mem_cons, ih hes, List.mem_cons]
        constructor
        · intro hor
          rcases hor with rfl | hnew | hold
          · exact Or.inr ⟨Or.inl rfl, hgt.ne⟩
          · exact Or.inl hnew
          · exact Or.inr ⟨Or.inr hold.1, hold.2⟩
        · intro hor
          rcases hor with hnew | ⟨rfl | hold, hne⟩
          · exact Or.inr (Or.inl hnew)
          · exact Or.inl rfl
          · exact Or.inr (Or.inr ⟨hold, hne⟩)
      next hle =>
        have hkey : e'.1 = k := le_antisymm (not_lt.mp hge) (not_lt.mp hle)
        rw [List.mem_cons, List.mem_cons]
        constructor
        · intro hor
          rcases hor with hnew | hold
          · exact Or.inl hnew
          · exact Or.inr ⟨Or.inr hold, by rw [← hkey]; exact (he' e hold).ne'⟩
        · intro hor
          rcases hor with hnew | ⟨rfl | hold, hne⟩
          · exact Or.inl hnew
          · exact absurd hkey hne
          · exact Or.inr hold

theorem lookup_insert (m : SortedMap κ α) (k k' : κ) (v : α) :
    (m.insert k v).lookup k' = if k' = k then some v else m.lookup k' := by
  ext w
  rw [lookup_eq_some_iff, insert, mem_insertEntry_iff m.sorted]
  split
  next heq =>
    rw [heq]
    simp [eq_comm]
  next hne =>
    rw [lookup_eq_some_iff]
    simp [hne]

theorem lookup_erase (m : SortedMap κ α) (k k' : κ) :
    (m.erase k).lookup k' = if k' = k then none else m.lookup k' := by
  ext w
  rw [lookup_eq_some_iff, erase, List.mem_filter]
  split
  next heq => simp [heq]
  next hne =>
    rw [lookup_eq_some_iff]
    simp [hne]

theorem mem_insert {m : SortedMap κ α} {k : κ} {v : α} {e : κ × α} :
    e ∈ (m.insert k v).entries ↔ e = (k, v) ∨ e ∈ m.entries ∧ e.1 ≠ k :=
  mem_insertEntry_iff m.sorted

theorem mem_erase {m : SortedMap κ α} {k : κ} {e : κ × α} :
    e ∈ (m.erase k).entries ↔ e ∈ m.entries ∧ e.1 ≠ k := by
  rw [erase, List.mem_filter, decide_eq_true_eq]

theorem mem_keys_erase {m : SortedMap κ α} {k k' : κ} :
    k' ∈ (m.erase k).keys ↔ k' ∈ m.keys ∧ k' ≠ k := by
  rw [mem_keys_iff, mem_keys_iff, lookup_erase]
  split
  next heq => exact iff_of_false (by simp) fun h => h.2 heq
  next hne => exact (and_iff_left hne).symm

theorem mem_keys_insert_iff {m : SortedMap κ α} {k k' : κ} {v : α} :
    k' ∈ (m.insert k v).keys ↔ k' = k ∨ k' ∈ m.keys := by
  rw [mem_keys_iff, mem_keys_iff, lookup_insert]
  split
  next heq => exact iff_of_true rfl (.inl heq)
  next hne => exact (or_iff_right hne).symm

theorem nodup_entries (m : SortedMap κ α) : m.entries.Nodup := m.nodup_keys.of_map _

/-- A map is known by its entries. -/
theorem ext_of_mem {m m' : SortedMap κ α} (h : ∀ e, e ∈ m.entries ↔ e ∈ m'.entries) : m = m' :=
  ext_of_perm ((List.perm_ext_iff_of_nodup m.nodup_entries m'.nodup_entries).mpr h)

theorem erase_insert_self (m : SortedMap κ α) (k : κ) (v : α) :
    (m.erase k).insert k v = m.insert k v := by
  refine ext_of_mem fun e => ?_
  rw [mem_insert, mem_insert, mem_erase, and_assoc, and_self]

theorem erase_of_lookup_eq_none {m : SortedMap κ α} {k : κ} (h : m.lookup k = none) :
    m.erase k = m := by
  refine ext_of_mem fun e => ?_
  rw [mem_erase, and_iff_left_iff_imp]
  intro he hkey
  have hsome := lookup_eq_some_iff.mpr he
  rw [hkey, h] at hsome
  cases hsome

theorem insert_of_lookup_eq_some {m : SortedMap κ α} {k : κ} {v : α} (h : m.lookup k = some v) :
    m.insert k v = m := by
  refine ext_of_mem fun e => ?_
  rw [mem_insert]
  constructor
  · intro he
    rcases he with rfl | hold
    · exact lookup_eq_some_iff.mp h
    · exact hold.1
  · intro he
    by_cases hkey : e.1 = k
    · have hsome := lookup_eq_some_iff.mpr he
      rw [hkey, h, Option.some.injEq] at hsome
      exact .inl (Prod.ext hkey hsome.symm)
    · exact .inr ⟨he, hkey⟩

theorem insert_perm_erase (m : SortedMap κ α) (k : κ) (v : α) :
    (m.insert k v).entries.Perm ((k, v) :: (m.erase k).entries) := by
  rw [← erase_insert_self]
  refine insert_perm v fun hmem => ?_
  rw [mem_keys_iff, lookup_erase, if_pos rfl] at hmem
  cases hmem

/-- Erasing a key takes its entry out. -/
theorem perm_erase {m : SortedMap κ α} {k : κ} {v : α} (h : m.lookup k = some v) :
    m.entries.Perm ((k, v) :: (m.erase k).entries) := by
  have hperm := m.insert_perm_erase k v
  rwa [insert_of_lookup_eq_some h] at hperm

/-- A sum over the values, when one of them is put in the place of another. -/
theorem sum_values_insert (m : SortedMap κ α) (f : α → Nat) (k : κ) (v : α) :
    ((m.insert k v).values.map f).sum + (m.lookup k).elim 0 f = (m.values.map f).sum + f v := by
  have hsum : ∀ w, ((m.insert k w).values.map f).sum = f w + ((m.erase k).values.map f).sum := by
    intro w
    have hperm := ((m.insert_perm_erase k w).map Prod.snd).map f
    rw [List.map_cons, List.map_cons] at hperm
    exact hperm.sum_nat.trans List.sum_cons
  rw [hsum]
  cases hlookup : m.lookup k with
  | none =>
    rw [erase_of_lookup_eq_none hlookup]
    simp only [Option.elim_none]
    omega
  | some w =>
    have hself := hsum w
    rw [insert_of_lookup_eq_some hlookup] at hself
    simp only [Option.elim_some]
    omega

/-- A map has as many entries as there are keys it has a value for. -/
theorem length_eq_card {m : SortedMap κ α} {D : Finset κ} (h : ∀ k, (m.lookup k).isSome ↔ k ∈ D) :
    m.entries.length = D.card := by
  have hkeys : m.keys.toFinset = D := by
    ext k
    rw [List.mem_toFinset, mem_keys_iff, h]
  rw [← hkeys, List.toFinset_card_of_nodup m.nodup_keys, keys, List.length_map]

/-! ## Maps of values -/

theorem insertEntry_map (f : α → β) (k : κ) (v : α) (es : List (κ × α)) :
    insertEntry k (f v) (es.map (Prod.map id f)) = (insertEntry k v es).map (Prod.map id f) := by
  induction es with
  | nil => rfl
  | cons e es ih =>
    rw [List.map_cons]
    unfold insertEntry
    simp only [Prod.map_fst, id_eq, ih]
    split
    next => rfl
    next =>
      split
      next => rfl
      next => rfl

theorem map_insert (f : α → β) (m : SortedMap κ α) (k : κ) (v : α) :
    (m.insert k v).map f = (m.map f).insert k (f v) :=
  SortedMap.ext (insertEntry_map f k v m.entries).symm

theorem map_erase (f : α → β) (m : SortedMap κ α) (k : κ) :
    (m.erase k).map f = (m.map f).erase k := by
  refine SortedMap.ext ?_
  show (m.entries.filter _).map _ = (m.entries.map _).filter _
  rw [List.filter_map]
  rfl

theorem lookup_map (f : α → β) (m : SortedMap κ α) (k : κ) :
    (m.map f).lookup k = (m.lookup k).map f := by
  unfold lookup map
  rw [List.find?_map, Option.map_map, Option.map_map]
  rfl

theorem keys_map (f : α → β) (m : SortedMap κ α) : (m.map f).keys = m.keys := by
  unfold keys map
  rw [List.map_map]
  rfl

theorem values_map (f : α → β) (m : SortedMap κ α) : (m.map f).values = m.values.map f := by
  unfold values map
  rw [List.map_map, List.map_map]
  rfl

/-! ## Retained entries -/

/-- The entries that meet a test. -/
def retain (keep : κ → α → Bool) (m : SortedMap κ α) : SortedMap κ α :=
  ⟨m.entries.filter fun e => keep e.1 e.2, m.sorted.filter _⟩

theorem lookup_retain (keep : κ → α → Bool) (m : SortedMap κ α) (k : κ) :
    (m.retain keep).lookup k = (m.lookup k).filter (keep k) := by
  ext v
  rw [lookup_eq_some_iff, retain, List.mem_filter, Option.mem_def.symm, Option.mem_filter_iff,
    Option.mem_def, lookup_eq_some_iff]

theorem values_retain_sublist (keep : κ → α → Bool) (m : SortedMap κ α) :
    (m.retain keep).values.Sublist m.values := List.filter_sublist.map _

/-! ## Insertion of a list -/

theorem foldl_insert_perm {es : List (κ × α)} {m : SortedMap κ α}
    (hnodup : (es.map Prod.fst).Nodup) (hnew : ∀ k ∈ es.map Prod.fst, k ∉ m.keys) :
    (es.foldl (fun m e => m.insert e.1 e.2) m).entries.Perm (es ++ m.entries) := by
  induction es generalizing m with
  | nil => exact List.Perm.refl _
  | cons e es ih =>
    rw [List.map_cons, List.nodup_cons] at hnodup
    rw [List.map_cons, List.forall_mem_cons] at hnew
    have hrest : ∀ k ∈ es.map Prod.fst, k ∉ (m.insert e.1 e.2).keys := by
      intro k hk hmem
      rcases mem_keys_insert hmem with rfl | hold
      · exact hnodup.1 hk
      · exact hnew.2 k hk hold
    refine (ih hnodup.2 hrest).trans ?_
    refine ((insert_perm e.2 hnew.1).append_left es).trans ?_
    exact List.perm_middle

/-- **The order of insertion does not matter.** Entries with distinct keys, inserted
in any order, are the map that lists them in ascending order. -/
theorem ofList_eq {es : List (κ × α)} {m : SortedMap κ α} (h : es.Perm m.entries) :
    ofList es = m := by
  refine ext_of_perm ?_
  have hnodup : (es.map Prod.fst).Nodup := (h.map Prod.fst).nodup_iff.mpr m.nodup_keys
  have hperm := foldl_insert_perm (m := empty) hnodup fun _ _ hmem => absurd hmem List.not_mem_nil
  rw [show (empty : SortedMap κ α).entries = [] from rfl, List.append_nil] at hperm
  exact hperm.trans h

end SortedMap

end CipherOcto
