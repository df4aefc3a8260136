import CipherOcto.Encoding.Constraint
import CipherOcto.Lib.SortedMap
import CipherOcto.Lib.Trace
import Mathlib.Data.List.Perm.Subperm

/-!
# The replay cache of the overlay

An envelope id is kept with the epoch it was first seen at, in two maps: by id, to
find it again, and by epoch and id, to forget what is out of the window and, when
the cache is full, what is oldest. `InStep` says that the two hold the same.

An id is forgotten early only if the whole cache is as young as it is. Every entry
of the cache is an acceptance of the run (`Remembers`), so by then `max_entries`
other ids were accepted since: `keeps_or_crowded` is one step of that, and
`guarded_run` is the run.

The clock is an epoch number that a caller passes in.
-/

namespace CipherOcto.Network

open Encoding Trace

/-! ## The code -/

/-- `DotError`, as far as `check_and_insert` returns it. -/
inductive DotError where
  | replayDetected (envelopeId : Bytes32) (firstSeen : Nat)
deriving DecidableEq

/-- `ReplayCache`. `new` asserts the bound. -/
structure ReplayCache where
  byId : SortedMap Bytes32 Nat
  byTime : SortedMap (Nat ×ₗ Bytes32) Unit
  windowDuration : Nat
  maxEntries : Nat
  maxEntries_pos : 0 < maxEntries

namespace ReplayCache

def new (windowDuration maxEntries : Nat) (h : 0 < maxEntries) : ReplayCache :=
  ⟨.empty, .empty, windowDuration, maxEntries, h⟩

/-- One key removed from both maps. -/
def remove (c : ReplayCache) (key : Nat ×ₗ Bytes32) : ReplayCache :=
  { c with byTime := c.byTime.erase key, byId := c.byId.erase (ofLex key).2 }

/-- The keys below the cutoff. -/
def expired (c : ReplayCache) (currentEpoch : Nat) : List (Nat ×ₗ Bytes32) :=
  let cutoff := currentEpoch - c.windowDuration
  c.byTime.keys.filter fun key => key < toLex (cutoff, (Vector.replicate 32 0 : Bytes32))

/-- `ReplayCache::purge_expired`. -/
def purgeExpired (c : ReplayCache) (currentEpoch : Nat) : ReplayCache :=
  (c.expired currentEpoch).foldl remove c

/-- `ReplayCache::evict_oldest`. -/
def evictOldest (c : ReplayCache) : ReplayCache :=
  match c.byTime.keys with
  | [] => c
  | key :: _ => c.remove key

def store (c : ReplayCache) (envelopeId : Bytes32) (currentEpoch : Nat) : ReplayCache :=
  { c with
    byId := c.byId.insert envelopeId currentEpoch
    byTime := c.byTime.insert (toLex (currentEpoch, envelopeId)) () }

/-- `ReplayCache::len`. -/
def len (c : ReplayCache) : Nat := c.byId.entries.length

/-- `ReplayCache::check_and_insert`, on an id and an epoch. -/
def checkAndInsert (c : ReplayCache) (call : Bytes32 × Nat) : Except DotError Unit × ReplayCache :=
  let purged := c.purgeExpired call.2
  match purged.byId.lookup call.1 with
  | some firstSeen => (.error (.replayDetected call.1 firstSeen), purged)
  | none =>
    let room := if purged.len ≥ c.maxEntries then purged.evictOldest else purged
    (.ok (), room.store call.1 call.2)

/-! ## The two maps -/

/-- The maps hold the same entries. -/
def InStep (c : ReplayCache) : Prop :=
  ∀ id firstSeen, (id, firstSeen) ∈ c.byId.entries ↔ toLex (firstSeen, id) ∈ c.byTime.keys

theorem inStep_new (w m : Nat) (h : 0 < m) : (new w m h).InStep :=
  fun _ _ => iff_of_false List.not_mem_nil List.not_mem_nil

theorem InStep.length_eq {c : ReplayCache} (h : c.InStep) :
    c.byTime.entries.length = c.byId.entries.length := by
  have hinj : Function.Injective fun p : Bytes32 × Nat => toLex (p.2, p.1) := by
    intro p q heq
    have hpair := toLex.injective heq
    exact Prod.ext (congrArg Prod.snd hpair) (congrArg Prod.fst hpair)
  have hperm : (c.byId.entries.map fun p => toLex (p.2, p.1)).Perm c.byTime.keys := by
    refine (List.perm_ext_iff_of_nodup (c.byId.nodup_entries.map hinj) c.byTime.nodup_keys).mpr ?_
    intro key
    rw [List.mem_map]
    constructor
    · intro hex
      obtain ⟨p, hp, rfl⟩ := hex
      exact (h p.1 p.2).mp hp
    · intro hkey
      exact ⟨((ofLex key).2, (ofLex key).1), (h _ _).mpr hkey, rfl⟩
  have hlen := hperm.length_eq
  rw [List.length_map, SortedMap.keys, List.length_map] at hlen
  exact hlen.symm

theorem InStep.lookup_iff {c : ReplayCache} (h : c.InStep) (id : Bytes32) (t : Nat) :
    c.byId.lookup id = some t ↔ c.byTime.lookup (toLex (t, id)) = some () := by
  rw [SortedMap.lookup_eq_some_iff, h, SortedMap.mem_keys_iff, Option.isSome_iff_exists]
  exact ⟨fun ⟨_, hu⟩ => hu, fun hu => ⟨(), hu⟩⟩

/-- `c'` is `c` with some entries removed from both maps. -/
structure ShrinksTo (c c' : ReplayCache) : Prop where
  inStep : c'.InStep
  sublist : c'.byId.entries.Sublist c.byId.entries
  window : c'.windowDuration = c.windowDuration
  max : c'.maxEntries = c.maxEntries

variable {c c' c'' : ReplayCache}

theorem ShrinksTo.refl (h : c.InStep) : ShrinksTo c c := ⟨h, List.Sublist.refl _, rfl, rfl⟩

theorem ShrinksTo.trans (h : ShrinksTo c c') (h' : ShrinksTo c' c'') : ShrinksTo c c'' :=
  ⟨h'.inStep, h'.sublist.trans h.sublist, h'.window.trans h.window, h'.max.trans h.max⟩

/-- An id is kept under one epoch. -/
theorem firstSeen_unique {id : Bytes32} {t t' : Nat} (h : (id, t) ∈ c.byId.entries)
    (h' : (id, t') ∈ c.byId.entries) : t = t' := by
  have hsome := SortedMap.lookup_eq_some_iff.mpr h
  rw [SortedMap.lookup_eq_some_iff.mpr h', Option.some.injEq] at hsome
  exact hsome.symm

theorem InStep.remove (h : c.InStep) {key : Nat ×ₗ Bytes32} (hkey : key ∈ c.byTime.keys) :
    ShrinksTo c (c.remove key) := by
  refine ⟨fun id t => ?_, List.filter_sublist, rfl, rfl⟩
  show (id, t) ∈ (c.byId.erase (ofLex key).2).entries ↔ toLex (t, id) ∈ (c.byTime.erase key).keys
  rw [SortedMap.mem_erase, SortedMap.mem_keys_erase, h]
  refine and_congr_right fun hmem => not_congr ?_
  constructor
  · intro hid
    -- the key's own epoch is the one its id is kept under
    have hkeep : ((ofLex key).2, (ofLex key).1) ∈ c.byId.entries := (h _ _).mpr hkey
    have hown : ((ofLex key).2, t) ∈ c.byId.entries := hid ▸ (h id t).mpr hmem
    rw [firstSeen_unique hown hkeep, show id = (ofLex key).2 from hid]
    rfl
  · intro heq
    rw [← heq]
    rfl

theorem mem_keys_remove {key k : Nat ×ₗ Bytes32} :
    k ∈ (c.remove key).byTime.keys ↔ k ∈ c.byTime.keys ∧ k ≠ key := SortedMap.mem_keys_erase

/-- The loop of `purge_expired`. -/
theorem foldl_remove : ∀ (keys : List (Nat ×ₗ Bytes32)) (c : ReplayCache), c.InStep →
    keys.Nodup → (∀ k ∈ keys, k ∈ c.byTime.keys) →
    ShrinksTo c (keys.foldl remove c) ∧
      ∀ k, k ∈ (keys.foldl remove c).byTime.keys ↔ k ∈ c.byTime.keys ∧ k ∉ keys
  | [], c, h, _, _ => ⟨.refl h, fun k => (and_iff_left List.not_mem_nil).symm⟩
  | key :: keys, c, h, hnodup, hmem => by
    obtain ⟨hnot, hrest⟩ := List.nodup_cons.mp hnodup
    obtain ⟨hkey, hkeys⟩ := List.forall_mem_cons.mp hmem
    have hone := h.remove hkey
    obtain ⟨hshrinks, hleft⟩ := foldl_remove keys (c.remove key) hone.inStep hrest fun k hk =>
      mem_keys_remove.mpr ⟨hkeys k hk, fun heq => hnot (heq ▸ hk)⟩
    refine ⟨hone.trans hshrinks, fun k => ?_⟩
    rw [List.foldl_cons, hleft, mem_keys_remove, List.mem_cons, not_or, and_assoc]

theorem mem_expired {epoch t : Nat} {id : Bytes32} :
    toLex (t, id) ∈ c.expired epoch ↔
      toLex (t, id) ∈ c.byTime.keys ∧ t < epoch - c.windowDuration := by
  unfold expired
  dsimp only
  rw [List.mem_filter, decide_eq_true_eq, Prod.Lex.toLex_lt_toLex]
  refine and_congr_right fun _ => ⟨fun hlt => ?_, .inl⟩
  rcases hlt with hlt | ⟨-, hid⟩
  · exact hlt
  · exact absurd hid (Bytes.not_lt_zero id)

/-- Purging keeps what is in the window. -/
theorem purgeExpired_spec (h : c.InStep) (epoch : Nat) :
    ShrinksTo c (c.purgeExpired epoch) ∧
      ∀ id t, (id, t) ∈ (c.purgeExpired epoch).byId.entries ↔
        (id, t) ∈ c.byId.entries ∧ epoch ≤ t + c.windowDuration := by
  obtain ⟨hshrinks, hleft⟩ := foldl_remove (c.expired epoch) c h (c.byTime.nodup_keys.filter _)
    fun k hk => (List.mem_filter.mp hk).1
  refine ⟨hshrinks, fun id t => ?_⟩
  have hstep : (id, t) ∈ (c.purgeExpired epoch).byId.entries ↔
      toLex (t, id) ∈ (c.purgeExpired epoch).byTime.keys := hshrinks.inStep id t
  rw [hstep, purgeExpired, hleft, mem_expired, h id t, not_and, not_lt, Nat.sub_le_iff_le_add]
  exact and_congr_right fun hmem => ⟨fun himp => himp hmem, fun hle _ => hle⟩

/-- Evicting takes out one entry, and none is older. -/
theorem evictOldest_spec (h : c.InStep) (hne : c.byId.entries ≠ []) :
    ShrinksTo c c.evictOldest ∧ c.evictOldest.len + 1 = c.len ∧
      ∀ x t, (x, t) ∈ c.byId.entries → (x, t) ∉ c.evictOldest.byId.entries →
        ∀ id t', (id, t') ∈ c.byId.entries → t ≤ t' := by
  unfold evictOldest
  cases hkeys : c.byTime.keys with
  | nil =>
    obtain ⟨e, he⟩ := List.exists_mem_of_ne_nil _ hne
    have hmem := (h e.1 e.2).mp he
    rw [hkeys] at hmem
    exact absurd hmem List.not_mem_nil
  | cons key rest =>
    have hkey : key ∈ c.byTime.keys := hkeys ▸ List.mem_cons_self
    have hlookup : c.byId.lookup (ofLex key).2 = some (ofLex key).1 :=
      SortedMap.lookup_eq_some_iff.mpr ((h _ _).mpr hkey)
    refine ⟨h.remove hkey, (SortedMap.perm_erase hlookup).length_eq.symm, ?_⟩
    intro x t hx hgone id t' hid
    -- what is gone is the key, and the keys are in order
    have hx' : toLex (t, x) = key := by
      by_contra hother
      have hkept := mem_keys_remove.mpr ⟨(h x t).mp hx, hother⟩
      exact hgone (((h.remove hkey).inStep x t).mpr hkept)
    have hsorted : c.byTime.keys.Pairwise (· < ·) := List.pairwise_map.mpr c.byTime.sorted
    rw [hkeys, List.pairwise_cons] at hsorted
    have hmem := (h id t').mp hid
    rw [hkeys] at hmem
    rcases List.mem_cons.mp hmem with heq | hlater
    · rw [← hx'] at heq
      exact (congrArg (fun k => (ofLex k).1) heq).ge
    · have hlt := hsorted.1 _ hlater
      rw [← hx', Prod.Lex.toLex_lt_toLex] at hlt
      rcases hlt with hlt | ⟨heq, -⟩
      · exact hlt.le
      · exact heq.le

theorem InStep.store (h : c.InStep) {id : Bytes32} (hnew : c.byId.lookup id = none) (epoch : Nat) :
    (c.store id epoch).InStep ∧ (c.store id epoch).byId.entries.Perm ((id, epoch) :: c.byId.entries) := by
  have habsent : ∀ t, (id, t) ∉ c.byId.entries := by
    intro t hmem
    rw [SortedMap.lookup_eq_some_iff.mpr hmem] at hnew
    cases hnew
  constructor
  · intro id' t
    show (id', t) ∈ (c.byId.insert id epoch).entries ↔
      toLex (t, id') ∈ (c.byTime.insert (toLex (epoch, id)) ()).keys
    rw [SortedMap.mem_insert, SortedMap.mem_keys_insert_iff, ← h, EmbeddingLike.apply_eq_iff_eq,
      Prod.mk.injEq, Prod.mk.injEq, and_comm]
    refine or_congr Iff.rfl (and_iff_left_of_imp fun hmem heq => ?_)
    obtain rfl : id' = id := heq
    exact habsent t hmem
  · refine SortedMap.insert_perm epoch fun hmem => ?_
    rw [SortedMap.mem_keys_iff, hnew] at hmem
    cases hmem

/-! ## One call -/

/-- What holds of every cache a run reaches. -/
structure Holds (c : ReplayCache) : Prop where
  inStep : c.InStep
  len_le : c.len ≤ c.maxEntries

/-- What a call can do: it finds the id in the window, or it stores it after making room. -/
theorem checkAndInsert_cases (h : c.Holds) (id : Bytes32) (epoch : Nat) :
    (∃ firstSeen, (id, firstSeen) ∈ c.byId.entries ∧
      c.checkAndInsert (id, epoch) =
        (.error (.replayDetected id firstSeen), c.purgeExpired epoch)) ∨
    (∃ room, ShrinksTo c room ∧ room.len < c.maxEntries ∧ room.byId.lookup id = none ∧
      c.checkAndInsert (id, epoch) = (.ok (), room.store id epoch) ∧
      ∀ x t, (x, t) ∈ c.byId.entries → epoch ≤ t + c.windowDuration →
        x ≠ id ∧ ((x, t) ∈ room.byId.entries ∨ room.len + 1 = c.maxEntries ∧
          ∀ y t', (y, t') ∈ room.byId.entries → t ≤ t')) := by
  obtain ⟨hpurged, hwindow⟩ := purgeExpired_spec h.inStep epoch
  unfold checkAndInsert
  dsimp only
  cases hlookup : (c.purgeExpired epoch).byId.lookup id with
  | some firstSeen =>
    have hmem := SortedMap.lookup_eq_some_iff.mp hlookup
    exact .inl ⟨firstSeen, ((hwindow id firstSeen).mp hmem).1, rfl⟩
  | none =>
    refine .inr ?_
    have hother : ∀ x t, (x, t) ∈ (c.purgeExpired epoch).byId.entries → x ≠ id := by
      intro x t hx heq
      rw [heq] at hx
      rw [SortedMap.lookup_eq_some_iff.mpr hx] at hlookup
      cases hlookup
    by_cases hfull : (c.purgeExpired epoch).len ≥ c.maxEntries
    · have hne : (c.purgeExpired epoch).byId.entries ≠ [] :=
        List.length_pos_iff.mp (c.maxEntries_pos.trans_le hfull)
      obtain ⟨hevict, hlen, holdest⟩ := evictOldest_spec hpurged.inStep hne
      have hmax : (c.purgeExpired epoch).len ≤ c.maxEntries :=
        hpurged.sublist.length_le.trans h.len_le
      refine ⟨(c.purgeExpired epoch).evictOldest, hpurged.trans hevict, by omega, ?_, ?_, ?_⟩
      · rw [Option.eq_none_iff_forall_ne_some]
        intro t ht
        exact hother id t (hevict.sublist.subset (SortedMap.lookup_eq_some_iff.mp ht)) rfl
      · rw [if_pos hfull]
      · intro x t hx hin
        have hx' := (hwindow x t).mpr ⟨hx, hin⟩
        refine ⟨hother x t hx', ?_⟩
        by_cases hkept : (x, t) ∈ (c.purgeExpired epoch).evictOldest.byId.entries
        · exact .inl hkept
        · exact .inr ⟨by omega, fun y t' hy => holdest x t hx' hkept y t' (hevict.sublist.subset hy)⟩
    · refine ⟨c.purgeExpired epoch, hpurged, not_le.mp hfull, hlookup, ?_, ?_⟩
      · rw [if_neg hfull]
      · intro x t hx hin
        have hx' := (hwindow x t).mpr ⟨hx, hin⟩
        exact ⟨hother x t hx', .inl hx'⟩

/-- The call, if it was accepted. -/
def acceptedCall (event : (Bytes32 × Nat) × Except DotError Unit) : List (Bytes32 × Nat) :=
  if event.2.isOk then [event.1] else []

/-- The accepted calls of a history. -/
def acceptances (events : List ((Bytes32 × Nat) × Except DotError Unit)) : List (Bytes32 × Nat) :=
  events.flatMap acceptedCall

/-- Every entry of the cache is an acceptance of the history. -/
def Remembers (c : ReplayCache) (history : List (Bytes32 × Nat)) : Prop :=
  c.byId.entries.Subperm history

/-- What a call preserves. -/
structure StepKeeps (c : ReplayCache) (call : Bytes32 × Nat) (c' : ReplayCache)
    (answer : Except DotError Unit) : Prop where
  holds : c'.Holds
  window : c'.windowDuration = c.windowDuration
  max : c'.maxEntries = c.maxEntries
  remembers : ∀ history, c.Remembers history →
    c'.Remembers (history ++ acceptedCall (call, answer))

theorem checkAndInsert_keeps (h : c.Holds) (call : Bytes32 × Nat) :
    StepKeeps c call (c.checkAndInsert call).2 (c.checkAndInsert call).1 := by
  obtain ⟨id, epoch⟩ := call
  rcases checkAndInsert_cases h id epoch with ⟨firstSeen, -, heq⟩ | ⟨room, hroom, hlen, hnew, heq, -⟩
  · have hpurged := (purgeExpired_spec h.inStep epoch).1
    rw [heq]
    refine ⟨⟨hpurged.inStep, ?_⟩, hpurged.window, hpurged.max, fun history hmem => ?_⟩
    · rw [hpurged.max]
      exact hpurged.sublist.length_le.trans h.len_le
    · refine (hpurged.sublist.subperm.trans hmem).trans ?_
      exact (List.sublist_append_left _ _).subperm
  · obtain ⟨hstore, hperm⟩ := hroom.inStep.store hnew epoch
    rw [heq]
    refine ⟨⟨hstore, ?_⟩, hroom.window, hroom.max, fun history hmem => ?_⟩
    · show (room.store id epoch).byId.entries.length ≤ room.maxEntries
      rw [hperm.length_eq, List.length_cons, hroom.max]
      exact hlen
    · have hall := hroom.sublist.subperm.trans hmem
      refine hperm.subperm.trans ?_
      refine List.Subperm.trans ?_ (List.perm_append_singleton (id, epoch) history).symm.subperm
      exact (List.subperm_cons _).mpr hall

/-- The acceptances of other ids at `t` or later. -/
def others (x : Bytes32) (t : Nat) (history : List (Bytes32 × Nat)) : List (Bytes32 × Nat) :=
  history.filter fun p => p.1 ≠ x ∧ t ≤ p.2

/-- The id is kept, or enough others came. -/
def Guarded (c : ReplayCache) (x : Bytes32) (t : Nat) (history : List (Bytes32 × Nat)) : Prop :=
  (x, t) ∈ c.byId.entries ∨ c.maxEntries ≤ (others x t history).length

/-- A cache of others that is full crowds the history. -/
theorem Remembers.crowded {history : List (Bytes32 × Nat)} (h : c.Remembers history) {x : Bytes32}
    {t : Nat} (hfull : c.maxEntries ≤ c.len)
    (hall : ∀ p ∈ c.byId.entries, p.1 ≠ x ∧ t ≤ p.2) :
    c.maxEntries ≤ (others x t history).length := by
  have hfilter : c.byId.entries.filter (fun p => p.1 ≠ x ∧ t ≤ p.2) = c.byId.entries :=
    List.filter_eq_self.mpr fun p hp => decide_eq_true (hall p hp)
  have hsub := List.Subperm.filter (fun p => p.1 ≠ x ∧ t ≤ p.2) h
  rw [hfilter] at hsub
  exact hfull.trans hsub.length_le

/-- An id in the window is kept, unless the cache is left full of others as young. -/
theorem keeps_or_crowded (h : c.Holds) {history : List (Bytes32 × Nat)} (hmem : c.Remembers history)
    {x : Bytes32} {t : Nat} (hguard : c.Guarded x t history) {call : Bytes32 × Nat}
    (hlater : t ≤ call.2) (hin : call.2 ≤ t + c.windowDuration) :
    (c.checkAndInsert call).2.Guarded x t
      (history ++ acceptedCall (call, (c.checkAndInsert call).1)) := by
  have hkeeps := checkAndInsert_keeps h call
  have hremembers := hkeeps.remembers history hmem
  rcases hguard with hx | hcrowd
  · obtain ⟨id, epoch⟩ := call
    rcases checkAndInsert_cases h id epoch with
      ⟨firstSeen, -, heq⟩ | ⟨room, hroom, -, hnew, heq, hkept⟩
    · refine .inl ?_
      rw [heq]
      exact ((purgeExpired_spec h.inStep epoch).2 x t).mpr ⟨hx, hin⟩
    · obtain ⟨hne, hroom' | ⟨hlen, hyoung⟩⟩ := hkept x t hx hin
      · refine .inl ?_
        rw [heq]
        exact (hroom.inStep.store hnew epoch).2.mem_iff.mpr (List.mem_cons_of_mem _ hroom')
      · by_cases hstill : (x, t) ∈ (c.checkAndInsert (id, epoch)).2.byId.entries
        · exact .inl hstill
        · refine .inr (hremembers.crowded ?_ ?_)
          · rw [heq]
            show room.maxEntries ≤ (room.store id epoch).byId.entries.length
            rw [(hroom.inStep.store hnew epoch).2.length_eq, List.length_cons, hroom.max]
            exact hlen.ge
          · rw [heq] at hstill ⊢
            intro p hp
            rcases List.mem_cons.mp ((hroom.inStep.store hnew epoch).2.mem_iff.mp hp) with
              rfl | hold
            · exact ⟨hne.symm, hlater⟩
            · refine ⟨fun hid => ?_, hyoung p.1 p.2 hold⟩
              -- the id would be kept under its own epoch
              have hpx : (x, p.2) ∈ c.byId.entries := hid ▸ hroom.sublist.subset hold
              have hpeq : p = (x, t) := Prod.ext hid (firstSeen_unique hpx hx)
              exact hstill (hpeq ▸ hp)
  · refine .inr (?_ : _ ≤ _)
    rw [hkeeps.max, others, List.filter_append, List.length_append]
    exact hcrowd.trans (Nat.le_add_right _ _)

/-! ## Runs -/

theorem acceptances_cons (c : ReplayCache) (call : Bytes32 × Nat) (calls : List (Bytes32 × Nat)) :
    acceptances (trace checkAndInsert c (call :: calls)) =
      acceptedCall (call, (c.checkAndInsert call).1) ++
        acceptances (trace checkAndInsert (c.checkAndInsert call).2 calls) := rfl

/-- What holds of the cache and the acceptances so far. -/
structure RunInv (windowDuration maxEntries : Nat)
    (events : List ((Bytes32 × Nat) × Except DotError Unit)) (c : ReplayCache) : Prop where
  holds : c.Holds
  window : c.windowDuration = windowDuration
  max : c.maxEntries = maxEntries
  remembers : c.Remembers (acceptances events)

theorem run_inv (w m : Nat) (hm : 0 < m) (calls : List (Bytes32 × Nat)) :
    RunInv w m (trace checkAndInsert (new w m hm) calls)
      (final checkAndInsert (new w m hm) calls) := by
  refine run_induct (RunInv w m) ?_ ?_ calls
  · exact ⟨⟨inStep_new w m hm, Nat.zero_le _⟩, rfl, rfl, List.Subperm.refl _⟩
  · intro events c call h
    have hkeeps := checkAndInsert_keeps h.holds call
    refine ⟨hkeeps.holds, hkeeps.window.trans h.window, hkeeps.max.trans h.max, ?_⟩
    have hremembers := hkeeps.remembers _ h.remembers
    rw [acceptances, List.flatMap_append, List.flatMap_singleton]
    exact hremembers

/-- The guard is carried through the calls in the window. -/
theorem guarded_run {x : Bytes32} {t : Nat} : ∀ (calls : List (Bytes32 × Nat)) (c : ReplayCache)
    (history : List (Bytes32 × Nat)), c.Holds → c.Remembers history → c.Guarded x t history →
    (∀ call ∈ calls, t ≤ call.2 ∧ call.2 ≤ t + c.windowDuration) →
    (final checkAndInsert c calls).Guarded x t
      (history ++ acceptances (trace checkAndInsert c calls))
  | [], c, history, _, _, hguard, _ => by
    rw [trace, acceptances, List.flatMap_nil, List.append_nil]
    exact hguard
  | call :: calls, c, history, h, hmem, hguard, hcalls => by
    obtain ⟨hcall, hrest⟩ := List.forall_mem_cons.mp hcalls
    have hkeeps := checkAndInsert_keeps h call
    rw [acceptances_cons, ← List.append_assoc]
    refine guarded_run calls _ _ hkeeps.holds (hkeeps.remembers history hmem)
      (keeps_or_crowded h hmem hguard hcall.1 hcall.2) ?_
    rw [hkeeps.window]
    exact hrest

/-- An id that is accepted is kept under the epoch of the call. -/
theorem mem_of_accepted (h : c.Holds) {x : Bytes32} {t : Nat}
    (hok : (c.checkAndInsert (x, t)).1 = .ok ()) :
    (x, t) ∈ (c.checkAndInsert (x, t)).2.byId.entries := by
  rcases checkAndInsert_cases h x t with ⟨firstSeen, -, heq⟩ | ⟨room, hroom, -, hnew, heq, -⟩
  · rw [heq] at hok
    cases hok
  · rw [heq]
    exact (hroom.inStep.store hnew t).2.mem_iff.mpr List.mem_cons_self

/-- An id that is kept is refused in its window. -/
theorem refused_of_mem (h : c.Holds) {x : Bytes32} {t epoch : Nat} (hx : (x, t) ∈ c.byId.entries)
    (hin : epoch ≤ t + c.windowDuration) :
    (c.checkAndInsert (x, epoch)).1 = .error (.replayDetected x t) := by
  rcases checkAndInsert_cases h x epoch with ⟨firstSeen, hmem, heq⟩ | ⟨room, -, -, -, -, hkept⟩
  · rw [heq, firstSeen_unique hx hmem]
  · exact absurd rfl (hkept x t hx hin).1

/-- The calls after a position and before another are at epochs between theirs. -/
theorem epochs_between {calls : List (Bytes32 × Nat)}
    (hmono : (calls.map Prod.snd).Pairwise (· ≤ ·)) {i j : Nat} {a b : Bytes32 × Nat}
    (hi : calls[i]? = some a) (hj : calls[j]? = some b) :
    ∀ call ∈ (calls.take j).drop (i + 1), a.2 ≤ call.2 ∧ call.2 ≤ b.2 := by
  have hle : ∀ {m n : Nat} {p q : Bytes32 × Nat}, m < n → calls[m]? = some p →
      calls[n]? = some q → p.2 ≤ q.2 := by
    intro m n p q hmn hp hq
    obtain ⟨hm, rfl⟩ := List.getElem?_eq_some_iff.mp hp
    obtain ⟨hn, rfl⟩ := List.getElem?_eq_some_iff.mp hq
    have hpair := List.pairwise_iff_getElem.mp (List.pairwise_map.mp hmono)
    exact hpair m n hm hn hmn
  intro call hcall
  obtain ⟨n, hn⟩ := List.mem_iff_getElem?.mp hcall
  rw [List.getElem?_drop, List.getElem?_take] at hn
  split at hn
  next hlt => exact ⟨hle (by omega) hi hn, hle hlt hn hj⟩
  next => cases hn

/-- From the acceptance of an id to a later call in its window. -/
theorem guarded_until (w m : Nat) (hm : 0 < m) {calls : List (Bytes32 × Nat)} {i j : Nat}
    (hij : i < j) {x : Bytes32} {t : Nat}
    (hi : (trace checkAndInsert (new w m hm) calls)[i]? = some ((x, t), .ok ()))
    (hbetween : ∀ call ∈ (calls.take j).drop (i + 1), t ≤ call.2 ∧ call.2 ≤ t + w) :
    (final checkAndInsert (new w m hm) (calls.take j)).Guarded x t
      (acceptances (trace checkAndInsert (new w m hm) (calls.take j))) := by
  rw [trace_getElem?, Option.map_eq_some_iff] at hi
  obtain ⟨call, hcall, heq⟩ := hi
  obtain ⟨rfl, hok⟩ := Prod.mk.inj heq
  have hsplit : calls.take j = calls.take (i + 1) ++ (calls.take j).drop (i + 1) := by
    have hfront : (calls.take j).take (i + 1) = calls.take (i + 1) := by
      rw [List.take_take, Nat.min_eq_left hij]
    rw [← hfront, List.take_append_drop]
  have hinv := run_inv w m hm (calls.take (i + 1))
  have hstored : (x, t) ∈
      (final checkAndInsert (new w m hm) (calls.take (i + 1))).byId.entries := by
    rw [List.take_add_one, hcall, final_append]
    exact mem_of_accepted (run_inv w m hm (calls.take i)).holds hok
  rw [hsplit, final_append, trace_append, acceptances, List.flatMap_append]
  refine guarded_run _ _ _ hinv.holds hinv.remembers (.inl hstored) ?_
  rw [hinv.window]
  exact hbetween

end ReplayCache

open ReplayCache in
/-- **The replay cache.** In every run the maps hold the same entries, no more than
`max_entries`, and, if the epochs do not decrease, an accepted id is refused again in its
window unless `max_entries` other ids were accepted at its epoch or later. -/
theorem replay_cache_guarantee (windowDuration maxEntries : Nat) (hmax : 0 < maxEntries)
    (calls : List (Bytes32 × Nat)) (hmono : (calls.map Prod.snd).Pairwise (· ≤ ·)) :
    (∀ c, c = final checkAndInsert (new windowDuration maxEntries hmax) calls →
      (∀ id t, c.byId.lookup id = some t ↔ c.byTime.lookup (toLex (t, id)) = some ()) ∧
      c.byTime.entries.length = c.byId.entries.length ∧ c.byId.entries.length ≤ maxEntries) ∧
    (∀ events, events = trace checkAndInsert (new windowDuration maxEntries hmax) calls →
      ∀ (i j : Nat) (x : Bytes32) (t e : Nat), i < j → events[i]? = some ((x, t), .ok ()) →
        calls[j]? = some (x, e) → e ≤ t + windowDuration →
        events[j]? = some ((x, e), .error (.replayDetected x t)) ∨
        maxEntries ≤ (others x t (acceptances (events.take j))).length) := by
  constructor
  · intro c hc
    have hinv := run_inv windowDuration maxEntries hmax calls
    rw [← hc] at hinv
    exact ⟨hinv.holds.inStep.lookup_iff, hinv.holds.inStep.length_eq,
      hinv.holds.len_le.trans_eq hinv.max⟩
  · intro events hevents i j x t e hij hi hj hin
    have hcall : calls[i]? = some (x, t) := by
      rw [hevents, trace_getElem?, Option.map_eq_some_iff] at hi
      obtain ⟨call, hcall, heq⟩ := hi
      rw [hcall, (Prod.mk.inj heq).1]
    have hbetween : ∀ call ∈ (calls.take j).drop (i + 1),
        t ≤ call.2 ∧ call.2 ≤ t + windowDuration := by
      intro call hmem
      obtain ⟨hlow, hhigh⟩ := epochs_between hmono hcall hj call hmem
      exact ⟨hlow, hhigh.trans hin⟩
    rw [hevents] at hi
    have hinv := run_inv windowDuration maxEntries hmax (calls.take j)
    rcases guarded_until windowDuration maxEntries hmax hij hi hbetween with hkept | hcrowd
    · have hrefused := refused_of_mem hinv.holds hkept (hin.trans_eq (by rw [hinv.window]))
      exact .inl (by rw [hevents, trace_getElem?, hj, Option.map_some, hrefused])
    · refine .inr (hinv.max.symm.le.trans ?_)
      rw [hevents, take_trace]
      exact hcrowd

def sampleCalls : List (Bytes32 × Nat) :=
  [(Vector.replicate 32 1, 100), (Vector.replicate 32 2, 100), (Vector.replicate 32 1, 101)]

open ReplayCache in
theorem replay_cache_guarantee_third :
    (trace checkAndInsert (new 3600 1000 (by decide)) sampleCalls)[2]? =
      some ((Vector.replicate 32 1, 101), .error (.replayDetected (Vector.replicate 32 1) 100)) := by
  have hall := replay_cache_guarantee 3600 1000 (by decide) sampleCalls (by decide)
  have hfirst : (trace checkAndInsert (new 3600 1000 (by decide)) sampleCalls)[0]? =
      some ((Vector.replicate 32 1, 100), .ok ()) := rfl
  rcases hall.2 _ rfl 0 2 _ 100 101 (by decide) hfirst rfl (by decide) with hrefused | hcrowd
  · exact hrefused
  · exact absurd hcrowd (by decide +kernel)

end CipherOcto.Network
