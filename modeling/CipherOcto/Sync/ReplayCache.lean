import CipherOcto.Lib.Descending
import CipherOcto.Sync.Stream
import Mathlib.Data.Finset.Card

/-!
# The replay cache

The reader's side: `apply_wal_tail` hands every entry of a chunk to the adapter
unless its digest is in the peer's cache or its checksum is wrong, and then
caches the digest. The cache is a bounded ordered map. When it is over its
bound it removes its first key, which is the smallest digest and not the oldest
entry, so that it holds the largest digests it was ever given.

> `handed_iff`: an entry is handed over iff it is valid, and new or below
> `max_entries` larger digests of the same peer.
> `appliedOnce_iff`: so a repetition is caught iff its digest is large enough,
> however soon it comes.

The map is kept from its largest key down. BLAKE3 and CRC-32 are parameters.
-/

namespace CipherOcto.Sync

open Encoding

/-! ## The code -/

/-- Ids are compared byte by byte, as the big-endian numbers they are. -/
def digestRank (id : Bytes32) : Nat := Bytes.beNat id.toList

theorem digestRank_inj {a b : Bytes32} (h : digestRank a = digestRank b) : a = b := by
  have hlist : a.toList = b.toList := by
    rw [← Bytes.toBe_beNat a.toList, ← Bytes.toBe_beNat b.toList, Vector.length_toList,
      Vector.length_toList]
    exact congrArg (Bytes.toBe 32) h
  exact Vector.toList_inj.mp hlist

/-- `ReplayCache`, the largest id first. -/
structure ReplayCache where
  entries : List (Bytes32 × Nat)
  maxEntries : Nat
deriving DecidableEq

def defaultMaxEntries : Nat := 10000

namespace ReplayCache

def new (maxEntries : Nat) : ReplayCache := ⟨[], maxEntries⟩

/-- `ReplayCache::contains`. -/
def contains (c : ReplayCache) (id : Bytes32) : Bool := decide (id ∈ c.entries.map Prod.fst)

/-- The eviction loop of `insert`: the smallest id goes first. -/
def evictTo (maxEntries : Nat) (entries : List (Bytes32 × Nat)) : List (Bytes32 × Nat) :=
  if entries.length > maxEntries then evictTo maxEntries entries.dropLast else entries
  termination_by entries.length
  decreasing_by rw [List.length_dropLast]; omega

/-- `ReplayCache::insert`. -/
def insert (c : ReplayCache) (id : Bytes32) (firstSeenMs : Nat) : ReplayCache :=
  if c.contains id then c
  else { c with
    entries := evictTo c.maxEntries
      (Descending.insert (fun e => digestRank e.1) (id, firstSeenMs) c.entries) }

/-- `ReplayCache::evict_oldest`: the first key of the map, and the cache without it. -/
def evictOldest (c : ReplayCache) : Option (Bytes32 × Nat) × ReplayCache :=
  match c.entries.getLast? with
  | some e => (some e, { c with entries := c.entries.dropLast })
  | none => (none, c)

end ReplayCache

section

variable (blake3 : List UInt8 → Bytes32) (crc32 : List UInt8 → Nat)

def walMagic : Nat := 0x454C4157

/-- `validate_wal_entry_crc32`. -/
def validateWalEntryCrc32 (entry : List UInt8) : Bool :=
  if entry.length < 36 then true
  else if Bytes.leNat (entry.take 4) ≠ walMagic then true
  else decide (Bytes.leNat (entry.drop (entry.length - 4)) = crc32 (entry.take (entry.length - 4)))

/-- The body of the loop of `apply_wal_tail`: whether the entry is handed to the
adapter, which does not fail. -/
def applyEntry (cache : ReplayCache) (entry : List UInt8) : Bool × ReplayCache :=
  if cache.contains (blake3 entry) then (false, cache)
  else if validateWalEntryCrc32 crc32 entry = false then (false, cache)
  else (true, cache.insert (blake3 entry) 0)

/-- The caches by peer; one that was not asked for yet is a default one. -/
abbrev ReplayCaches := PeerId → ReplayCache

/-- `apply_wal_tail`: the number of entries applied, and each entry with whether
it was handed over. -/
def applyWalTail (caches : ReplayCaches) (call : PeerId × WalTailChunk) :
    (Nat × List (List UInt8 × Bool)) × ReplayCaches :=
  ((((Trace.trace (applyEntry blake3 crc32) (caches call.1) call.2.entries).filter
        (·.2)).length % 2 ^ 32,
      Trace.trace (applyEntry blake3 crc32) (caches call.1) call.2.entries),
    Function.update caches call.1
      (Trace.final (applyEntry blake3 crc32) (caches call.1) call.2.entries))

/-- All entries of one peer's chunks, in order, each with whether it was handed
over. -/
def marksFor (caches : ReplayCaches) (calls : List (PeerId × WalTailChunk)) (p : PeerId) :
    List (List UInt8 × Bool) :=
  ((Trace.trace (applyWalTail blake3 crc32) caches calls).filter fun c => decide (c.1.1 = p)).flatMap
    (·.2.2)

end

/-- All entries of one peer's chunks, in order. -/
def entriesFor (calls : List (PeerId × WalTailChunk)) (p : PeerId) : List (List UInt8) :=
  (calls.filter fun c => decide (c.1 = p)).flatMap (·.2.entries)

/-! ## The cache and its past -/

theorem ReplayCache.evictTo_eq_take (maxEntries : Nat) (entries : List (Bytes32 × Nat)) :
    evictTo maxEntries entries = entries.take maxEntries := by
  fun_induction evictTo maxEntries entries with
  | case1 entries hover ih =>
    rw [ih, List.dropLast_eq_take, List.take_take, min_eq_left (by omega)]
  | case2 entries hle => rw [List.take_of_length_le (not_lt.mp hle)]

section

variable {blake3 : List UInt8 → Bytes32} {crc32 : List UInt8 → Nat}

variable (blake3 crc32) in
/-- One more entry seen. -/
def noteSeen (seen : List Bytes32) (entry : List UInt8) : List Bytes32 :=
  if validateWalEntryCrc32 crc32 entry = true ∧ blake3 entry ∉ seen then
    Descending.insert digestRank (blake3 entry) seen
  else seen

variable (blake3 crc32) in
/-- The digests of the valid entries so far, the largest first. -/
def seenIds (entries : List (List UInt8)) : List Bytes32 :=
  entries.foldl (noteSeen blake3 crc32) []

theorem seenIds_snoc (entries : List (List UInt8)) (e : List UInt8) :
    seenIds blake3 crc32 (entries ++ [e]) = noteSeen blake3 crc32 (seenIds blake3 crc32 entries) e := by
  unfold seenIds
  rw [List.foldl_append]
  rfl

theorem mem_seenIds {entries : List (List UInt8)} {id : Bytes32} :
    id ∈ seenIds blake3 crc32 entries ↔
      ∃ e ∈ entries, validateWalEntryCrc32 crc32 e = true ∧ blake3 e = id := by
  induction entries using List.reverseRecOn with
  | nil => exact iff_of_false List.not_mem_nil fun ⟨e, he, _⟩ => List.not_mem_nil he
  | append_singleton entries e ih =>
    rw [seenIds_snoc]
    unfold noteSeen
    constructor
    · intro h
      split at h
      next hnew =>
        rcases Descending.mem_insert.mp h with rfl | hold
        · exact ⟨e, List.mem_append_right _ (List.mem_singleton.mpr rfl), hnew.1, rfl⟩
        · obtain ⟨x, hx, hvalid, hid⟩ := ih.mp hold
          exact ⟨x, List.mem_append_left _ hx, hvalid, hid⟩
      · obtain ⟨x, hx, hvalid, hid⟩ := ih.mp h
        exact ⟨x, List.mem_append_left _ hx, hvalid, hid⟩
    · intro h
      obtain ⟨x, hx, hvalid, rfl⟩ := h
      rcases List.mem_append.mp hx with hold | hnew
      · have hmem := ih.mpr ⟨x, hold, hvalid, rfl⟩
        split
        · exact Descending.mem_insert.mpr (Or.inr hmem)
        · exact hmem
      · obtain rfl := List.mem_singleton.mp hnew
        split
        · exact Descending.mem_insert.mpr (Or.inl rfl)
        next hnot =>
          by_contra hmem
          exact hnot ⟨hvalid, hmem⟩

theorem seenIds_sorted (entries : List (List UInt8)) :
    Descending.Sorted digestRank (seenIds blake3 crc32 entries) := by
  induction entries using List.reverseRecOn with
  | nil => exact List.Pairwise.nil
  | append_singleton entries e ih =>
    rw [seenIds_snoc]
    unfold noteSeen
    split
    next hnew => exact ih.insert fun y hy heq => hnew.2 (digestRank_inj heq ▸ hy)
    · exact ih

/-- The cache holds the first digests of what was seen. -/
structure Remembers (blake3 : List UInt8 → Bytes32) (crc32 : List UInt8 → Nat)
    (cache : ReplayCache) (k : Nat) (entries : List (List UInt8)) : Prop where
  bound : cache.maxEntries = k
  ids : cache.entries.map Prod.fst = (seenIds blake3 crc32 entries).take k

/-- **One entry.** -/
theorem remembers_step {cache : ReplayCache} {k : Nat} {entries : List (List UInt8)}
    (h : Remembers blake3 crc32 cache k entries) (e : List UInt8) :
    Remembers blake3 crc32 (applyEntry blake3 crc32 cache e).2 k (entries ++ [e]) := by
  unfold applyEntry
  by_cases hcached : cache.contains (blake3 e) = true
  · -- cached, so seen
    rw [if_pos hcached]
    refine ⟨h.bound, ?_⟩
    have hmem : blake3 e ∈ seenIds blake3 crc32 entries := by
      have hcache := of_decide_eq_true hcached
      rw [h.ids] at hcache
      exact List.mem_of_mem_take hcache
    rw [seenIds_snoc, noteSeen, if_neg fun hnew => hnew.2 hmem, h.ids]
  rw [if_neg hcached]
  by_cases hvalid : validateWalEntryCrc32 crc32 e = false
  · rw [if_pos hvalid]
    refine ⟨h.bound, ?_⟩
    have hnot : ¬(validateWalEntryCrc32 crc32 e = true ∧ blake3 e ∉ seenIds blake3 crc32 entries) :=
      fun hnew => Bool.false_ne_true (hvalid.symm.trans hnew.1)
    rw [seenIds_snoc, noteSeen, if_neg hnot]
    exact h.ids
  rw [if_neg hvalid]
  refine ⟨?_, ?_⟩
  · unfold ReplayCache.insert
    rw [if_neg hcached]
    exact h.bound
  unfold ReplayCache.insert
  rw [if_neg hcached]
  dsimp only
  rw [ReplayCache.evictTo_eq_take, List.map_take, Descending.map_insert, h.ids, h.bound,
    seenIds_snoc, noteSeen]
  split
  · exact Descending.take_insert_take _ _ _
  next hold =>
    -- seen before, and evicted since
    have hmem : blake3 e ∈ seenIds blake3 crc32 entries := by
      by_contra hnew
      exact hold ⟨Bool.of_not_eq_false hvalid, hnew⟩
    refine Descending.take_insert_of_cut (seenIds_sorted entries) hmem ?_ rfl
    rw [← h.ids]
    exact fun hin => hcached (decide_eq_true hin)

variable (blake3 crc32) in
/-- **Every run.** -/
theorem remembers_run (k : Nat) (entries : List (List UInt8)) :
    Remembers blake3 crc32 (Trace.final (applyEntry blake3 crc32) (.new k) entries) k entries := by
  induction entries using List.reverseRecOn with
  | nil => exact ⟨rfl, List.take_nil.symm⟩
  | append_singleton entries e ih =>
    rw [Trace.final_append]
    exact remembers_step ih e

/-! ## What is handed over -/

variable (crc32) in
/-- The distinct valid entries of a list. -/
def validSet (entries : List (List UInt8)) : Finset (List UInt8) :=
  (entries.filter fun e => validateWalEntryCrc32 crc32 e).toFinset

variable (blake3 crc32) in
/-- How many distinct valid entries have a larger digest. -/
def larger (e : List UInt8) (entries : List (List UInt8)) : Nat :=
  ((validSet crc32 entries).filter fun x => digestRank (blake3 e) < digestRank (blake3 x)).card

theorem mem_validSet {entries : List (List UInt8)} {e : List UInt8} :
    e ∈ validSet crc32 entries ↔ e ∈ entries ∧ validateWalEntryCrc32 crc32 e = true := by
  rw [validSet, List.mem_toFinset, List.mem_filter]

/-- Without collisions, larger digests seen are larger entries. -/
theorem length_larger {entries : List (List UInt8)} (hinj : Set.InjOn blake3 {x | x ∈ entries})
    (e : List UInt8) :
    ((seenIds blake3 crc32 entries).filter fun y =>
      decide (digestRank (blake3 e) < digestRank y)).length = larger blake3 crc32 e entries := by
  have hnodup : ((seenIds blake3 crc32 entries).filter fun y =>
      decide (digestRank (blake3 e) < digestRank y)).Nodup := (seenIds_sorted entries).nodup.filter _
  have himage : ((seenIds blake3 crc32 entries).filter fun y =>
        decide (digestRank (blake3 e) < digestRank y)).toFinset
      = ((validSet crc32 entries).filter fun x =>
        digestRank (blake3 e) < digestRank (blake3 x)).image blake3 := by
    ext id
    simp only [List.mem_toFinset, List.mem_filter, mem_seenIds, decide_eq_true_eq, Finset.mem_image,
      Finset.mem_filter, mem_validSet]
    constructor
    · intro h
      obtain ⟨⟨x, hx, hvalid, rfl⟩, hlt⟩ := h
      exact ⟨x, ⟨⟨hx, hvalid⟩, hlt⟩, rfl⟩
    · intro h
      obtain ⟨x, ⟨⟨hx, hvalid⟩, hlt⟩, rfl⟩ := h
      exact ⟨⟨x, hx, hvalid, rfl⟩, hlt⟩
  rw [← List.toFinset_card_of_nodup hnodup, himage, larger]
  refine Finset.card_image_of_injOn fun x hx y hy heq => ?_
  rw [Finset.mem_coe, Finset.mem_filter, mem_validSet] at hx hy
  exact hinj hx.1.1 hy.1.1 heq

/-- **When an entry is handed over**: it is valid, and it is new or too many
larger digests have been seen. -/
theorem handed_iff {k : Nat} {past : List (List UInt8)} {e : List UInt8}
    (hinj : Set.InjOn blake3 {x | x ∈ past ++ [e]}) :
    (applyEntry blake3 crc32 (Trace.final (applyEntry blake3 crc32) (.new k) past) e).1 = true ↔
      validateWalEntryCrc32 crc32 e = true ∧ (e ∉ past ∨ k ≤ larger blake3 crc32 e past) := by
  have hpast : Set.InjOn blake3 {x | x ∈ past} := hinj.mono fun x hx => List.mem_append_left _ hx
  have hids := (remembers_run blake3 crc32 k past).ids
  generalize Trace.final (applyEntry blake3 crc32) (.new k) past = cache at hids
  unfold applyEntry
  by_cases hvalid : validateWalEntryCrc32 crc32 e = false
  · rw [hvalid]
    refine iff_of_false ?_ fun h => Bool.false_ne_true h.1
    split <;> simp
  have hvalid' := Bool.of_not_eq_false hvalid
  -- a valid entry is in the cache iff it was seen and is large enough
  have hseen : blake3 e ∈ seenIds blake3 crc32 past ↔ e ∈ past := by
    rw [mem_seenIds]
    constructor
    · intro h
      obtain ⟨x, hx, -, heq⟩ := h
      have hxe := hinj (List.mem_append_left _ hx)
        (List.mem_append_right _ (List.mem_singleton.mpr rfl)) heq
      exact hxe ▸ hx
    · intro he
      exact ⟨e, he, hvalid', rfl⟩
  have hcached : cache.contains (blake3 e) = true ↔ e ∈ past ∧ larger blake3 crc32 e past < k := by
    rw [ReplayCache.contains, decide_eq_true_iff, hids]
    constructor
    · intro hmem
      have hfull := List.mem_of_mem_take hmem
      refine ⟨hseen.mp hfull, ?_⟩
      rw [← length_larger hpast]
      exact (Descending.mem_take_iff (seenIds_sorted past) hfull).mp hmem
    · intro h
      obtain ⟨he, hlt⟩ := h
      rw [← length_larger hpast] at hlt
      exact (Descending.mem_take_iff (seenIds_sorted past) (hseen.mpr he)).mpr hlt
  rw [if_neg hvalid]
  by_cases hin : cache.contains (blake3 e) = true
  · rw [if_pos hin]
    obtain ⟨he, hlt⟩ := hcached.mp hin
    exact iff_of_false Bool.false_ne_true fun h => h.2.elim (fun hnew => hnew he) (by omega)
  · rw [if_neg hin]
    refine iff_of_true rfl ⟨hvalid', ?_⟩
    by_cases he : e ∈ past
    · exact Or.inr (not_lt.mp fun hlt => hin (hcached.mpr ⟨he, hlt⟩))
    · exact Or.inl he

/-! ## At most once -/

/-- A peer's entries are answered from its own cache alone, chunk by chunk. -/
theorem marksFor_eq (caches : ReplayCaches) (calls : List (PeerId × WalTailChunk)) (p : PeerId) :
    marksFor blake3 crc32 caches calls p
      = Trace.trace (applyEntry blake3 crc32) (caches p) (entriesFor calls p) := by
  induction calls generalizing caches with
  | nil => rfl
  | cons call calls ih =>
    unfold marksFor entriesFor at ih ⊢
    rw [Trace.trace]
    by_cases hp : call.1 = p
    · rw [List.filter_cons_of_pos (by simpa using hp), List.filter_cons_of_pos (by simpa using hp),
        List.flatMap_cons, List.flatMap_cons, ih, Trace.trace_append]
      dsimp only [applyWalTail]
      rw [hp, Function.update_self]
    · rw [List.filter_cons_of_neg (by simpa using hp), List.filter_cons_of_neg (by simpa using hp),
        ih]
      dsimp only [applyWalTail]
      rw [Function.update_of_ne (Ne.symm hp)]

variable (crc32) in
/-- How many distinct valid entries other than `e` lie strictly between two
positions. -/
def othersBetween (entries : List (List UInt8)) (i j : Nat) (e : List UInt8) : Nat :=
  ((validSet crc32 ((entries.take j).drop (i + 1))).erase e).card

variable (crc32) in
/-- No entry is handed over twice with fewer than `k` others between. -/
def AppliedOnce (k : Nat) (marks : List (List UInt8 × Bool)) : Prop :=
  ∀ i j e, i < j → marks[i]? = some (e, true) → marks[j]? = some (e, true) →
    k ≤ othersBetween crc32 (marks.map Prod.fst) i j e

variable (blake3 crc32) in
/-- The entry at a position is valid, and new there or outranked by `k` others. -/
def Exposed (k : Nat) (entries : List (List UInt8)) (i : Nat) (e : List UInt8) : Prop :=
  entries[i]? = some e ∧ validateWalEntryCrc32 crc32 e = true ∧
    (e ∉ entries.take i ∨ k ≤ larger blake3 crc32 e (entries.take i))

/-- A position and its past are among the entries. -/
theorem injOn_past {entries : List (List UInt8)} (hinj : Set.InjOn blake3 {x | x ∈ entries}) {i : Nat}
    {e : List UInt8} (he : entries[i]? = some e) :
    Set.InjOn blake3 {x | x ∈ entries.take i ++ [e]} := by
  refine hinj.mono fun y hy => ?_
  rcases List.mem_append.mp hy with hpast | hself
  · exact List.mem_of_mem_take hpast
  · exact List.mem_singleton.mp hself ▸ List.mem_of_getElem? he

theorem marks_iff {k : Nat} {entries : List (List UInt8)}
    (hinj : Set.InjOn blake3 {x | x ∈ entries}) (i : Nat) (e : List UInt8) :
    (Trace.trace (applyEntry blake3 crc32) (.new k) entries)[i]? = some (e, true) ↔
      Exposed blake3 crc32 k entries i e := by
  rw [Trace.trace_getElem?, Exposed]
  constructor
  · intro h
    obtain ⟨x, hx, hpair⟩ := Option.map_eq_some_iff.mp h
    obtain ⟨rfl, hhanded⟩ := Prod.mk.inj hpair
    exact ⟨hx, (handed_iff (injOn_past hinj hx)).mp hhanded⟩
  · intro h
    obtain ⟨hx, hexposed⟩ := h
    rw [hx, Option.map_some]
    exact congrArg some (Prod.ext rfl ((handed_iff (injOn_past hinj hx)).mpr hexposed))

variable (blake3 crc32) in
/-- **When every entry is applied at most once**: no entry, valid, is exposed at
two positions with fewer than `max_entries` others between. At the second one
that takes `max_entries` larger digests before it. -/
theorem appliedOnce_iff (calls : List (PeerId × WalTailChunk)) (p : PeerId)
    (hinj : Set.InjOn blake3 {x | x ∈ entriesFor calls p}) :
    AppliedOnce crc32 defaultMaxEntries
        (marksFor blake3 crc32 (fun _ => .new defaultMaxEntries) calls p) ↔
      ∀ i j e, i < j → Exposed blake3 crc32 defaultMaxEntries (entriesFor calls p) i e →
        (entriesFor calls p)[j]? = some e →
        defaultMaxEntries ≤ larger blake3 crc32 e ((entriesFor calls p).take j) →
        defaultMaxEntries ≤ othersBetween crc32 (entriesFor calls p) i j e := by
  rw [marksFor_eq]
  unfold AppliedOnce
  rw [Trace.map_fst_trace]
  constructor
  · intro h i j e hij hi hj hlarger
    refine h i j e hij ((marks_iff hinj i e).mpr hi) ((marks_iff hinj j e).mpr ?_)
    exact ⟨hj, hi.2.1, Or.inr hlarger⟩
  · intro h i j e hij hi hj
    have hexposed := (marks_iff hinj i e).mp hi
    obtain ⟨hget, -, hnew | hlarger⟩ := (marks_iff hinj j e).mp hj
    · -- the first occurrence is in the past of the second
      have hmem : e ∈ (entriesFor calls p).take j := by
        refine List.mem_of_getElem? (i := i) ?_
        rw [List.getElem?_take_of_lt hij]
        exact hexposed.1
      exact absurd hmem hnew
    · exact h i j e hij hexposed hget hlarger

end

/-! Two-byte entries under a digest that keeps their order: the zero entry, after
a cache full of others. -/

def sampleDigest (e : List UInt8) : Bytes32 :=
  ⟨(Bytes.toBe 32 (Bytes.beNat e)).toArray, by rw [List.size_toArray, Bytes.length_toBe]⟩

def sampleEntry (n : Nat) : List UInt8 := Bytes.toBe 2 n

/-- `k` entries, and then the zero entry twice. -/
def sampleEntries (k : Nat) : List (List UInt8) :=
  (List.range k).map (fun n => sampleEntry (n + 1)) ++ [sampleEntry 0, sampleEntry 0]

def sampleCalls (k : Nat) : List (PeerId × WalTailChunk) :=
  [(samplePeer, ⟨1, 1, sampleEntries k, true⟩)]

theorem entriesFor_sampleCalls (k : Nat) :
    entriesFor (sampleCalls k) samplePeer = sampleEntries k := by
  simp [entriesFor, sampleCalls]

theorem digestRank_sampleDigest (e : List UInt8) :
    digestRank (sampleDigest e) = Bytes.beNat e % 256 ^ 32 := by
  unfold digestRank sampleDigest
  rw [Vector.toList_mk, Bytes.beNat_toBe]

theorem rank_sampleEntry {n : Nat} (h : n < 65536) :
    digestRank (sampleDigest (sampleEntry n)) = n := by
  have hbyte : n % 256 ^ 2 = n := Nat.mod_eq_of_lt h
  have hdigest : n % 256 ^ 32 = n := Nat.mod_eq_of_lt (h.trans (by decide))
  rw [digestRank_sampleDigest, sampleEntry, Bytes.beNat_toBe, hbyte, hdigest]

theorem valid_sampleEntry (crc32 : List UInt8 → Nat) (n : Nat) :
    validateWalEntryCrc32 crc32 (sampleEntry n) = true :=
  if_pos (by rw [sampleEntry, Bytes.length_toBe]; decide)

theorem sampleDigest_injOn (k : Nat) : Set.InjOn sampleDigest {x | x ∈ sampleEntries k} := by
  intro x hx y hy heq
  have htwo : ∀ z ∈ sampleEntries k, z.length = 2 := by
    intro z hz
    simp only [sampleEntries, List.mem_append, List.mem_map, List.mem_cons, List.not_mem_nil,
      or_false, or_self] at hz
    rcases hz with ⟨n, -, rfl⟩ | rfl <;> exact Bytes.length_toBe 2 _
  have hlt : ∀ z ∈ sampleEntries k, Bytes.beNat z < 256 ^ 32 := by
    intro z hz
    refine (Bytes.beNat_lt z).trans_le ?_
    rw [htwo z hz]
    decide
  have hnat : Bytes.beNat x = Bytes.beNat y := by
    have hrank := congrArg digestRank heq
    rwa [digestRank_sampleDigest, digestRank_sampleDigest, Nat.mod_eq_of_lt (hlt x hx),
      Nat.mod_eq_of_lt (hlt y hy)] at hrank
  rw [← Bytes.toBe_beNat x, ← Bytes.toBe_beNat y, htwo x hx, htwo y hy, hnat]

theorem appliedOnce_iff_pair :
    Set.InjOn sampleDigest {x | x ∈ entriesFor (sampleCalls 0) samplePeer} ∧
      AppliedOnce (fun _ => 0) defaultMaxEntries
        (marksFor sampleDigest (fun _ => 0) (fun _ => .new defaultMaxEntries) (sampleCalls 0)
          samplePeer) := by
  have hinj : Set.InjOn sampleDigest {x | x ∈ entriesFor (sampleCalls 0) samplePeer} := by
    rw [entriesFor_sampleCalls]
    exact sampleDigest_injOn 0
  refine ⟨hinj, (appliedOnce_iff sampleDigest (fun _ => 0) _ _ hinj).mpr ?_⟩
  -- two entries cannot be outranked ten thousand times
  intro i j e _ _ _ hlarger
  have hcard : larger sampleDigest (fun _ => 0) e
      ((entriesFor (sampleCalls 0) samplePeer).take j) ≤ 2 := by
    refine (Finset.card_filter_le _ _).trans ?_
    refine (List.toFinset_card_le _).trans ?_
    refine (List.length_filter_le _ _).trans ?_
    rw [entriesFor_sampleCalls, List.length_take]
    exact min_le_right _ _
  exact absurd (hlarger.trans hcard) (by decide)

/-- With `k` larger digests in the cache, both copies are handed over. -/
theorem zero_entry_twice (crc32 : List UInt8 → Nat) {k : Nat} (hk : k < 65535) :
    Exposed sampleDigest crc32 k (sampleEntries k) k (sampleEntry 0) ∧
      Exposed sampleDigest crc32 k (sampleEntries k) (k + 1) (sampleEntry 0) ∧
      othersBetween crc32 (sampleEntries k) k (k + 1) (sampleEntry 0) = 0 := by
  have hlen : ((List.range k).map fun n => sampleEntry (n + 1)).length = k := by
    rw [List.length_map, List.length_range]
  have hget : ∀ d < 2, (sampleEntries k)[k + d]? = some (sampleEntry 0) := by
    intro d hd
    rw [sampleEntries, List.getElem?_append_right (by omega), hlen, Nat.add_sub_cancel_left]
    interval_cases d <;> rfl
  have hrank : ∀ n ∈ List.range k, 0 < digestRank (sampleDigest (sampleEntry (n + 1))) := by
    intro n hn
    have hn' := List.mem_range.mp hn
    rw [rank_sampleEntry (by omega)]
    exact Nat.succ_pos n
  refine ⟨⟨hget 0 (by omega), valid_sampleEntry crc32 0, Or.inl ?_⟩,
    ⟨hget 1 (by omega), valid_sampleEntry crc32 0, Or.inr ?_⟩, ?_⟩
  · rw [sampleEntries, List.take_left' hlen]
    intro hmem
    obtain ⟨n, hn, heq⟩ := List.mem_map.mp hmem
    have hpos := hrank n hn
    rw [heq, rank_sampleEntry (by omega)] at hpos
    exact lt_irrefl 0 hpos
  · -- the `k` entries before are distinct, valid and larger
    have hsub : (Finset.range k).image (fun n => sampleEntry (n + 1)) ⊆
        (validSet crc32 ((sampleEntries k).take (k + 1))).filter fun x =>
          digestRank (sampleDigest (sampleEntry 0)) < digestRank (sampleDigest x) := by
      intro x hx
      obtain ⟨n, hn, rfl⟩ := Finset.mem_image.mp hx
      have hn' := List.mem_range.mpr (Finset.mem_range.mp hn)
      refine Finset.mem_filter.mpr ⟨mem_validSet.mpr ⟨?_, valid_sampleEntry crc32 _⟩, ?_⟩
      · refine List.mem_of_mem_take (i := k) ?_
        rw [List.take_take, min_eq_left (Nat.le_succ k), sampleEntries, List.take_left' hlen]
        exact List.mem_map.mpr ⟨n, hn', rfl⟩
      · rw [rank_sampleEntry (show 0 < 65536 by omega)]
        exact hrank n hn'
    have hcard : ((Finset.range k).image fun n => sampleEntry (n + 1)).card = k := by
      rw [Finset.card_image_of_injOn, Finset.card_range]
      intro a ha b hb heq
      have ha' := Finset.mem_range.mp (Finset.mem_coe.mp ha)
      have hb' := Finset.mem_range.mp (Finset.mem_coe.mp hb)
      have hranks := congrArg (fun e => digestRank (sampleDigest e)) heq
      dsimp only at hranks
      rw [rank_sampleEntry (by omega), rank_sampleEntry (by omega)] at hranks
      exact Nat.succ.inj hranks
    have hle := Finset.card_le_card hsub
    rwa [hcard] at hle
  · rw [othersBetween, List.drop_eq_nil_of_le (by rw [List.length_take]; exact min_le_left _ _)]
    rfl

/-- Ten thousand other entries, then the zero entry twice in a row: it is applied
twice. -/
theorem zero_entry_applied_twice :
    ¬AppliedOnce (fun _ => 0) defaultMaxEntries
      (marksFor sampleDigest (fun _ => 0) (fun _ => .new defaultMaxEntries)
        (sampleCalls defaultMaxEntries) samplePeer) := by
  have hinj := sampleDigest_injOn defaultMaxEntries
  obtain ⟨hfirst, hsecond, hnone⟩ :=
    zero_entry_twice (fun _ => 0) (show defaultMaxEntries < 65535 by decide)
  intro h
  rw [marksFor_eq, entriesFor_sampleCalls] at h
  have hle := h _ _ _ (Nat.lt_succ_self _) ((marks_iff hinj _ _).mpr hfirst)
    ((marks_iff hinj _ _).mpr hsecond)
  rw [Trace.map_fst_trace, hnone] at hle
  exact absurd hle (by decide)

end CipherOcto.Sync
