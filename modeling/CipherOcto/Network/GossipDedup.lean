import CipherOcto.Encoding.Codec
import CipherOcto.Lib.SortedMap
import CipherOcto.Lib.Trace
import Mathlib.Data.List.Dedup

/-!
# Deduplication of gossip objects

`GossipReplayCache` remembers when it first saw a hash. It forgets what has left the window,
and when it is full it makes room for a new hash by forgetting one entry. That entry is meant
to be the oldest. The map is ordered by hash, and the entry taken is its first one.

> `length_step_le`: the cache never outgrows its bound.
> `remembers_step`: while the entry taken is the oldest, a hash that was accepted is held, or
> has left the window, or enough others were accepted since.
> `dedups_iff`: the contract holds along a run iff every entry taken is the oldest.
-/

namespace CipherOcto.Network

open Encoding

/-! ## The code -/

/-- `GossipReplayCache`: each hash with its first timestamp. -/
structure GossipReplayCache where
  seen : SortedMap Bytes32 Nat
  maxEntries : Nat
  windowDuration : Nat

namespace GossipReplayCache

def new (maxEntries windowDuration : Nat) : GossipReplayCache := ⟨.empty, maxEntries, windowDuration⟩

/-- `purge_expired`, which `check_and_insert` begins with. -/
def purgeExpired (c : GossipReplayCache) (currentTimestamp : Nat) : GossipReplayCache :=
  let cutoff := currentTimestamp - c.windowDuration
  { c with seen := c.seen.retain fun _ ts => cutoff ≤ ts }

/-- `evict_one`. -/
def evictOne (c : GossipReplayCache) : GossipReplayCache :=
  match c.seen.keys.head? with
  | some key => { c with seen := c.seen.erase key }
  | none => c

/-- `check_and_insert`: `true` for a new hash. It has an error type and no error. -/
def checkAndInsert (c : GossipReplayCache) (object : Bytes32 × Nat) : Bool × GossipReplayCache :=
  let c := c.purgeExpired object.2
  if (c.seen.lookup object.1).isSome then (false, c)
  else
    let c := if c.maxEntries ≤ c.seen.entries.length then c.evictOne else c
    (true, { c with seen := c.seen.insert object.1 object.2 })

/-- The entry that a call takes to make room, if it does. -/
def evicted (c : GossipReplayCache) (object : Bytes32 × Nat) : Option (Bytes32 × Nat) :=
  let c := c.purgeExpired object.2
  if (c.seen.lookup object.1).isSome ∨ c.seen.entries.length < c.maxEntries then none
  else c.seen.entries.head?

end GossipReplayCache

/-! ## One call -/

namespace GossipReplayCache

variable {c : GossipReplayCache} {object e : Bytes32 × Nat}

theorem mem_purgeExpired {now : Nat} :
    e ∈ (c.purgeExpired now).seen.entries ↔ e ∈ c.seen.entries ∧ now - c.windowDuration ≤ e.2 := by
  show e ∈ c.seen.entries.filter _ ↔ _
  rw [List.mem_filter, decide_eq_true_iff]

/-- A hash that is held, and was so within the window, is a duplicate. -/
theorem checkAndInsert_fst_eq_false :
    (c.checkAndInsert object).1 = false ↔
      ∃ ts, (object.1, ts) ∈ (c.purgeExpired object.2).seen.entries := by
  have hsome : ((c.purgeExpired object.2).seen.lookup object.1).isSome ↔
      ∃ ts, (object.1, ts) ∈ (c.purgeExpired object.2).seen.entries := by
    rw [Option.isSome_iff_exists]
    exact exists_congr fun ts => SortedMap.lookup_eq_some_iff
  rw [← hsome, checkAndInsert]
  split
  next h => exact iff_of_true rfl h
  next h => exact iff_of_false Bool.noConfusion h

theorem checkAndInsert_of_dup (h : (c.checkAndInsert object).1 = false) :
    (c.checkAndInsert object).2 = c.purgeExpired object.2 := by
  rw [checkAndInsert] at h ⊢
  split
  next => rfl
  next hnew =>
    rw [if_neg hnew] at h
    exact nomatch h

theorem mem_evictOne : e ∈ c.evictOne.seen.entries ↔
    e ∈ c.seen.entries ∧ c.seen.entries.head? ≠ some e := by
  unfold evictOne SortedMap.keys
  rw [List.head?_map]
  cases hentries : c.seen.entries with
  | nil =>
    show e ∈ c.seen.entries ↔ _
    rw [hentries]
    exact iff_of_false List.not_mem_nil fun h => absurd h.1 List.not_mem_nil
  | cons first rest =>
    show e ∈ (c.seen.erase first.1).entries ↔ _
    rw [SortedMap.erase_first hentries, List.head?_cons, List.mem_cons, Ne, Option.some.injEq]
    have hfirst : first ∉ rest := by
      have hnodup := c.seen.nodup_entries
      rw [hentries] at hnodup
      exact (List.nodup_cons.mp hnodup).1
    constructor
    · intro he
      exact ⟨Or.inr he, fun heq => hfirst (heq ▸ he)⟩
    · rintro ⟨heq | hmem, hne⟩
      · exact absurd heq.symm hne
      · exact hmem

/-- **What a call that accepts leaves**: the new entry, and what was within the window but for the
entry taken. -/
theorem mem_checkAndInsert_of_new (h : (c.checkAndInsert object).1 = true) :
    e ∈ (c.checkAndInsert object).2.seen.entries ↔
      e = object ∨ e ∈ (c.purgeExpired object.2).seen.entries ∧ c.evicted object ≠ some e := by
  have hnew : ¬((c.purgeExpired object.2).seen.lookup object.1).isSome := by
    intro hdup
    rw [checkAndInsert, if_pos hdup] at h
    exact nomatch h
  have hkey : e ∈ (c.purgeExpired object.2).seen.entries → e.1 ≠ object.1 := by
    intro he hkey
    have hlookup := SortedMap.lookup_eq_some_iff.mpr he
    rw [hkey] at hlookup
    exact hnew (Option.isSome_iff_exists.mpr ⟨_, hlookup⟩)
  rw [checkAndInsert, if_neg hnew, evicted, SortedMap.mem_insert]
  refine or_congr Iff.rfl ?_
  by_cases hfull : (c.purgeExpired object.2).maxEntries ≤ (c.purgeExpired object.2).seen.entries.length
  · rw [if_pos hfull, if_neg (not_or.mpr ⟨hnew, Nat.not_lt.mpr hfull⟩), mem_evictOne]
    exact and_iff_left_of_imp fun he => hkey he.1
  · rw [if_neg hfull, if_pos (Or.inr (Nat.not_le.mp hfull))]
    exact and_congr_right fun he => iff_of_true (hkey he) nofun

theorem length_evictOne : c.evictOne.seen.entries.length = c.seen.entries.length - 1 := by
  unfold evictOne SortedMap.keys
  rw [List.head?_map]
  cases hentries : c.seen.entries with
  | nil =>
    show c.seen.entries.length = 0
    rw [hentries]
    rfl
  | cons first rest =>
    show (c.seen.erase first.1).entries.length = _
    rw [SortedMap.erase_first hentries]
    rfl

/-- **The cache never outgrows its bound.** -/
theorem length_checkAndInsert_le (hmax : 0 < c.maxEntries)
    (h : c.seen.entries.length ≤ c.maxEntries) :
    (c.checkAndInsert object).2.seen.entries.length ≤ c.maxEntries := by
  have hpurged : (c.purgeExpired object.2).seen.entries.length ≤ c.maxEntries :=
    (List.length_filter_le _ _).trans h
  have hinsert : ∀ d : GossipReplayCache,
      (d.seen.insert object.1 object.2).entries.length ≤ d.seen.entries.length + 1 := by
    intro d
    rw [(d.seen.insert_perm_erase object.1 object.2).length_eq]
    exact Nat.succ_le_succ (List.length_filter_le _ _)
  rw [checkAndInsert]
  split
  next => exact hpurged
  next =>
    refine (hinsert _).trans ?_
    split
    next hfull =>
      rw [length_evictOne]
      omega
    next hroom => exact Nat.not_le.mp hroom

theorem checkAndInsert_config : (c.checkAndInsert object).2.maxEntries = c.maxEntries ∧
    (c.checkAndInsert object).2.windowDuration = c.windowDuration := by
  have hevict : (c.purgeExpired object.2).evictOne.maxEntries = c.maxEntries ∧
      (c.purgeExpired object.2).evictOne.windowDuration = c.windowDuration := by
    unfold evictOne
    split <;> exact ⟨rfl, rfl⟩
  rw [checkAndInsert]
  split
  next => exact ⟨rfl, rfl⟩
  next =>
    split
    next => exact hevict
    next => exact ⟨rfl, rfl⟩

/-- What is taken was held, in a full cache that did not hold the new hash. -/
theorem evicted_eq_some (h : c.evicted object = some e) :
    e ∈ (c.purgeExpired object.2).seen.entries ∧
      c.maxEntries ≤ (c.purgeExpired object.2).seen.entries.length ∧
      object.1 ∉ (c.purgeExpired object.2).seen.keys := by
  rw [evicted] at h
  split at h
  next => exact nomatch h
  next hfull =>
    obtain ⟨hnew, hlen⟩ := not_or.mp hfull
    exact ⟨List.mem_of_mem_head? h, Nat.not_lt.mp hlen, mt SortedMap.mem_keys_iff.mp hnew⟩

/-- What is taken has the smallest hash. -/
theorem not_lt_evicted (h : c.evicted object = some e) {e' : Bytes32 × Nat}
    (he' : e' ∈ (c.purgeExpired object.2).seen.entries) : ¬e'.1 < e.1 := by
  rw [evicted] at h
  split at h
  next => exact nomatch h
  next =>
    have hsorted := (c.purgeExpired object.2).seen.sorted
    cases hentries : (c.purgeExpired object.2).seen.entries with
    | nil =>
      rw [hentries] at he'
      exact absurd he' List.not_mem_nil
    | cons first rest =>
      rw [hentries] at h he' hsorted
      cases h
      rcases List.mem_cons.mp he' with rfl | hmem
      · exact lt_irrefl e'.1
      · exact lt_asymm ((List.pairwise_cons.mp hsorted).1 e' hmem)

end GossipReplayCache

/-! ## Runs -/

/-- A call that takes an entry takes one that was first seen no later than any other. -/
def EvictsOldest (c : GossipReplayCache) (object : Bytes32 × Nat) : Prop :=
  ∀ e ∈ c.evicted object, ∀ e' ∈ (c.purgeExpired object.2).seen.entries, e.2 ≤ e'.2

instance (c : GossipReplayCache) (object : Bytes32 × Nat) : Decidable (EvictsOldest c object) :=
  inferInstanceAs (Decidable (∀ e ∈ c.evicted object, _))

/-- The hashes other than one that were accepted at a time or later. -/
def othersSince (answered : List ((Bytes32 × Nat) × Bool)) (hash : Bytes32) (t : Nat) :
    Finset Bytes32 :=
  ((answered.filter fun e => e.2 ∧ e.1.1 ≠ hash ∧ t ≤ e.1.2).map (·.1.1)).toFinset

/-- What the cache holds after the calls it has answered: only what was accepted, and of that all
but what has left the window and what enough others came after. -/
structure Remembers (m w : Nat) (answered : List ((Bytes32 × Nat) × Bool))
    (c : GossipReplayCache) : Prop where
  maxEntries : c.maxEntries = m
  window : c.windowDuration = w
  accepted : ∀ e ∈ c.seen.entries, (e, true) ∈ answered
  held : ∀ e, (e, true) ∈ answered → e ∈ c.seen.entries ∨
    (∃ x ∈ answered, e.2 + w < x.1.2) ∨ m ≤ (othersSince answered e.1 e.2).card

theorem mem_othersSince {answered : List ((Bytes32 × Nat) × Bool)} {hash h : Bytes32} {t : Nat} :
    h ∈ othersSince answered hash t ↔ h ≠ hash ∧ ∃ s, t ≤ s ∧ ((h, s), true) ∈ answered := by
  unfold othersSince
  simp only [List.mem_toFinset, List.mem_map, List.mem_filter, decide_eq_true_iff]
  constructor
  · rintro ⟨⟨⟨h', s⟩, b⟩, ⟨hmem, rfl, hne, hle⟩, rfl⟩
    exact ⟨hne, s, hle, hmem⟩
  · rintro ⟨hne, s, hle, hmem⟩
    exact ⟨((h, s), true), ⟨hmem, rfl, hne, hle⟩, rfl⟩

theorem othersSince_mono {answered answered' : List ((Bytes32 × Nat) × Bool)}
    (hsub : ∀ e ∈ answered, e ∈ answered') (hash : Bytes32) (t : Nat) :
    (othersSince answered hash t).card ≤ (othersSince answered' hash t).card := by
  refine Finset.card_le_card fun h hh => ?_
  obtain ⟨hne, s, hle, hmem⟩ := mem_othersSince.mp hh
  exact mem_othersSince.mpr ⟨hne, s, hle, hsub _ hmem⟩

/-- When the oldest entry is taken, the others that were held and the new one came after it. -/
theorem le_card_of_evicted {m w : Nat} {answered : List ((Bytes32 × Nat) × Bool)}
    {c : GossipReplayCache} {object e : Bytes32 × Nat} (h : Remembers m w answered c)
    (hevicted : c.evicted object = some e) (holdest : EvictsOldest c object)
    (htime : ∀ x ∈ answered, x.1.2 ≤ object.2) :
    m ≤ (othersSince (answered ++ [(object, true)]) e.1 e.2).card := by
  obtain ⟨hmem, hfull, hnew⟩ := GossipReplayCache.evicted_eq_some hevicted
  have haccepted : ∀ x ∈ (c.purgeExpired object.2).seen.entries, (x, true) ∈ answered :=
    fun x hx => h.accepted x (GossipReplayCache.mem_purgeExpired.mp hx).1
  have hkey : e.1 ∈ (c.purgeExpired object.2).seen.keys := List.mem_map_of_mem hmem
  have hcard : (insert object.1 ((c.purgeExpired object.2).seen.keys.toFinset.erase e.1)).card =
      (c.purgeExpired object.2).seen.entries.length := by
    have hpos : 0 < (c.purgeExpired object.2).seen.entries.length := List.length_pos_of_mem hmem
    rw [Finset.card_insert_of_notMem
        (fun hin => hnew (List.mem_toFinset.mp (Finset.mem_of_mem_erase hin))),
      Finset.card_erase_of_mem (List.mem_toFinset.mpr hkey),
      List.toFinset_card_of_nodup (c.purgeExpired object.2).seen.nodup_keys, SortedMap.keys,
      List.length_map]
    omega
  have hsub : insert object.1 ((c.purgeExpired object.2).seen.keys.toFinset.erase e.1) ⊆
      othersSince (answered ++ [(object, true)]) e.1 e.2 := by
    intro x hx
    rcases Finset.mem_insert.mp hx with rfl | hin
    · exact mem_othersSince.mpr ⟨fun heq => hnew (heq ▸ hkey), object.2,
        htime _ (haccepted e hmem), List.mem_append_right _ (List.mem_singleton.mpr rfl)⟩
    · obtain ⟨hne, hheld⟩ := Finset.mem_erase.mp hin
      obtain ⟨x', hx', rfl⟩ := List.mem_map.mp (List.mem_toFinset.mp hheld)
      exact mem_othersSince.mpr ⟨hne, x'.2, holdest e hevicted x' hx',
        List.mem_append_left _ (haccepted x' hx')⟩
  have := h.maxEntries
  calc m ≤ (c.purgeExpired object.2).seen.entries.length := by omega
    _ = _ := hcard.symm
    _ ≤ _ := Finset.card_le_card hsub

/-- **One call.** -/
theorem remembers_step {m w : Nat} {answered : List ((Bytes32 × Nat) × Bool)}
    {c : GossipReplayCache} {object : Bytes32 × Nat} (h : Remembers m w answered c)
    (holdest : EvictsOldest c object) (htime : ∀ x ∈ answered, x.1.2 ≤ object.2) :
    Remembers m w (answered ++ [(object, (c.checkAndInsert object).1)])
      (c.checkAndInsert object).2 := by
  have hconfig : (c.checkAndInsert object).2.maxEntries = c.maxEntries ∧
      (c.checkAndInsert object).2.windowDuration = c.windowDuration := c.checkAndInsert_config
  obtain ⟨hmax, hwindow⟩ := hconfig
  have hold : ∀ e, (e, true) ∈ answered →
      e ∈ (c.purgeExpired object.2).seen.entries ∨
        (∃ x ∈ answered ++ [(object, (c.checkAndInsert object).1)], e.2 + w < x.1.2) ∨
          m ≤ (othersSince (answered ++ [(object, (c.checkAndInsert object).1)]) e.1 e.2).card := by
    intro e he
    rcases h.held e he with hmem | ⟨x, hx, hlt⟩ | hothers
    · by_cases hlive : object.2 - c.windowDuration ≤ e.2
      · exact Or.inl (GossipReplayCache.mem_purgeExpired.mpr ⟨hmem, hlive⟩)
      · have := h.window
        refine Or.inr (Or.inl ⟨_, List.mem_append_right _ (List.mem_singleton.mpr rfl), ?_⟩)
        show e.2 + w < object.2
        omega
    · exact Or.inr (Or.inl ⟨x, List.mem_append_left _ hx, hlt⟩)
    · exact Or.inr (Or.inr (hothers.trans
        (othersSince_mono (fun x hx => List.mem_append_left _ hx) _ _)))
  cases hanswer : (c.checkAndInsert object).1 with
  | false =>
    rw [hanswer] at hold
    have hcache := GossipReplayCache.checkAndInsert_of_dup hanswer
    refine ⟨hmax.trans h.maxEntries, hwindow.trans h.window, ?_, ?_⟩
    · intro e he
      rw [hcache] at he
      exact List.mem_append_left _ (h.accepted e (GossipReplayCache.mem_purgeExpired.mp he).1)
    · intro e he
      rw [hcache]
      rcases List.mem_append.mp he with hpast | hnow
      · exact hold e hpast
      · exact nomatch List.mem_singleton.mp hnow
  | true =>
    rw [hanswer] at hold
    refine ⟨hmax.trans h.maxEntries, hwindow.trans h.window, ?_, ?_⟩
    · intro e he
      rcases (GossipReplayCache.mem_checkAndInsert_of_new hanswer).mp he with rfl | ⟨hmem, -⟩
      · exact List.mem_append_right _ (List.mem_singleton.mpr rfl)
      · exact List.mem_append_left _ (h.accepted e (GossipReplayCache.mem_purgeExpired.mp hmem).1)
    · intro e he
      rw [GossipReplayCache.mem_checkAndInsert_of_new hanswer]
      rcases List.mem_append.mp he with hpast | hnow
      · rcases hold e hpast with hmem | hrest
        · by_cases hevicted : c.evicted object = some e
          · exact Or.inr (Or.inr (le_card_of_evicted h hevicted holdest htime))
          · exact Or.inl (Or.inr ⟨hmem, hevicted⟩)
        · exact Or.inr hrest
      · cases List.mem_singleton.mp hnow
        exact Or.inl (Or.inl rfl)

/-- The contract, over the calls of a run: the cache stays within its bound, an entry that is taken
has the smallest first timestamp and hash, and a hash that was accepted is a duplicate within the
window unless `m` others were accepted since. -/
structure Dedups (m w : Nat) (calls : List (Bytes32 × Nat)) : Prop where
  bounded : ∀ past, past <+: calls →
    (Trace.final GossipReplayCache.checkAndInsert (.new m w) past).seen.entries.length ≤ m
  oldest : ∀ past object, past ++ [object] <+: calls →
    ∀ e ∈ (Trace.final GossipReplayCache.checkAndInsert (.new m w) past).evicted object,
      ∀ e' ∈ ((Trace.final GossipReplayCache.checkAndInsert (.new m w) past).purgeExpired
          object.2).seen.entries,
        ¬(e'.2 < e.2 ∨ e'.2 = e.2 ∧ e'.1 < e.1)
  retained : ∀ past hash t t', past ++ [(hash, t')] <+: calls →
    ((hash, t), true) ∈ Trace.trace GossipReplayCache.checkAndInsert (.new m w) past →
      t' ≤ t + w →
        ((Trace.final GossipReplayCache.checkAndInsert (.new m w) past).checkAndInsert (hash, t')).1 =
            false ∨
          m ≤ (othersSince (Trace.trace GossipReplayCache.checkAndInsert (.new m w) past) hash t).card

theorem length_final_le {m : Nat} (hm : 0 < m) (w : Nat) (calls : List (Bytes32 × Nat)) :
    (Trace.final GossipReplayCache.checkAndInsert (.new m w) calls).seen.entries.length ≤ m := by
  have hstep : ∀ (c : GossipReplayCache) (object : Bytes32 × Nat),
      c.maxEntries = m ∧ c.seen.entries.length ≤ m →
      (c.checkAndInsert object).2.maxEntries = m ∧
        (c.checkAndInsert object).2.seen.entries.length ≤ m := by
    intro c object h
    have hconfig := (c.checkAndInsert_config : (c.checkAndInsert object).2.maxEntries = _ ∧ _).1
    have hle : (c.checkAndInsert object).2.seen.entries.length ≤ c.maxEntries :=
      GossipReplayCache.length_checkAndInsert_le (h.1 ▸ hm) (h.1 ▸ h.2)
    exact ⟨hconfig.trans h.1, h.1 ▸ hle⟩
  exact (Trace.run_induct (s := .new m w) (fun _ c => c.maxEntries = m ∧ c.seen.entries.length ≤ m)
    ⟨rfl, Nat.zero_le m⟩ (fun _ c object h => hstep c object h) calls).2

/-- While every entry taken is the oldest, the cache remembers. -/
theorem remembers_run {m w : Nat} {calls : List (Bytes32 × Nat)}
    (htimes : calls.Pairwise fun a b => a.2 ≤ b.2)
    (holdest : Trace.Along GossipReplayCache.checkAndInsert EvictsOldest (.new m w) calls) :
    Remembers m w (Trace.trace GossipReplayCache.checkAndInsert (.new m w) calls)
      (Trace.final GossipReplayCache.checkAndInsert (.new m w) calls) := by
  induction calls using List.reverseRecOn with
  | nil => exact ⟨rfl, rfl, fun e he => absurd he List.not_mem_nil,
      fun e he => absurd he List.not_mem_nil⟩
  | append_singleton calls object ih =>
    obtain ⟨hpast, -, hlast⟩ := List.pairwise_append.mp htimes
    obtain ⟨halong, hstep, -⟩ := Trace.along_append.mp holdest
    rw [Trace.trace_append, Trace.final_append]
    refine remembers_step (ih hpast halong) hstep fun x hx => ?_
    exact hlast x.1 (Trace.mem_of_mem_trace hx) object (List.mem_singleton.mpr rfl)

/-- A hash that was accepted is a duplicate within the window, or enough others came after it. -/
theorem retained_of_remembers {m w : Nat} {answered : List ((Bytes32 × Nat) × Bool)}
    {c : GossipReplayCache} (h : Remembers m w answered c) {hash : Bytes32} {t t' : Nat}
    (haccepted : ((hash, t), true) ∈ answered) (htime : ∀ x ∈ answered, x.1.2 ≤ t')
    (hwindow : t' ≤ t + w) :
    (c.checkAndInsert (hash, t')).1 = false ∨ m ≤ (othersSince answered hash t).card := by
  rcases h.held (hash, t) haccepted with hmem | ⟨x, hx, hlt⟩ | hothers
  · refine Or.inl (GossipReplayCache.checkAndInsert_fst_eq_false.mpr
      ⟨t, GossipReplayCache.mem_purgeExpired.mpr ⟨hmem, ?_⟩⟩)
    have := h.window
    show t' - c.windowDuration ≤ t
    omega
  · have hle := htime x hx
    have hlt' : t + w < x.1.2 := hlt
    omega
  · exact Or.inr hothers

/-- **The contract holds along a run iff every entry taken is the oldest.** -/
theorem dedups_iff {m w : Nat} {calls : List (Bytes32 × Nat)} (hm : 0 < m)
    (htimes : calls.Pairwise fun a b => a.2 ≤ b.2) :
    Dedups m w calls ↔
      Trace.Along GossipReplayCache.checkAndInsert EvictsOldest (.new m w) calls := by
  constructor
  · intro h
    refine Trace.along_iff_forall_prefix.mpr fun past object hprefix e he e' he' => ?_
    exact Nat.not_lt.mp fun hlt => h.oldest past object hprefix e he e' he' (Or.inl hlt)
  · intro h
    refine ⟨fun past _ => length_final_le hm w past, ?_, ?_⟩
    · intro past object hprefix e he e' he' hold
      have hstep := Trace.along_iff_forall_prefix.mp h past object hprefix e he e' he'
      rcases hold with hlt | ⟨-, hlt⟩
      · omega
      · exact GossipReplayCache.not_lt_evicted he he' hlt
    · intro past hash t t' hprefix haccepted hwindow
      have htimes' := htimes.sublist hprefix.sublist
      obtain ⟨hpast, -, hlast⟩ := List.pairwise_append.mp htimes'
      obtain ⟨rest, rfl⟩ := hprefix
      have halong := (Trace.along_append.mp (Trace.along_append.mp h).1).1
      refine retained_of_remembers (remembers_run hpast halong) haccepted (fun x hx => ?_) hwindow
      exact hlast x.1 (Trace.mem_of_mem_trace hx) _ (List.mem_singleton.mpr rfl)

/-! ### Three hashes in a cache of two -/

def sampleHash (n : UInt8) : Bytes32 := Vector.replicate 32 n

theorem dedups_ascending :
    Dedups 2 1000 [(sampleHash 1, 100), (sampleHash 2, 200), (sampleHash 3, 300)] := by
  refine (dedups_iff (by decide) ?_).mpr ⟨?_, ?_, ?_, trivial⟩
  · decide
  · decide
  · decide
  · decide

/-- The first hash to come is the largest. The second makes room for the third, and is accepted
again one tick later. -/
theorem not_dedups_descending :
    ¬Dedups 2 1000 [(sampleHash 3, 100), (sampleHash 1, 200), (sampleHash 2, 300),
      (sampleHash 1, 301)] := by
  intro h
  rcases h.retained [(sampleHash 3, 100), (sampleHash 1, 200), (sampleHash 2, 300)] (sampleHash 1) 200
    301 List.prefix_rfl (by decide) (by decide) with hdup | hothers
  · exact absurd hdup (by decide)
  · exact absurd hothers (by decide)

end CipherOcto.Network
