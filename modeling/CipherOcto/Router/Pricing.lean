import CipherOcto.Encoding.Codec
import CipherOcto.Lib.HashMap
import CipherOcto.Lib.SortedMap
import CipherOcto.Lib.Trace

/-!
# Pricing tables

A registry keeps the tables of a provider and model with the newest in front, and every
table under the hash of its bytes. A table is taken in only if it is newer than the one in
front, so that the sort after it leaves it in front, and what is put under its hash is the
table itself.

The bytes are eight numbered fields, strings behind their lengths; they determine the table.

> `register_cases`: a call refuses the table and changes nothing, or puts it in front.
> `dcsBytes_inj`: tables with the same bytes are the same.
> `records_run`: the lists and the hashes are those of the calls that returned `Ok`.

SHA-256 is a parameter, injective on the bytes of the tables of a run.
-/

namespace CipherOcto.Router

open Encoding Trace

/-! ## The code -/

/-- `PricingTable`. -/
structure PricingTable where
  tableId : String
  version : UInt32
  provider : String
  model : String
  promptCostPer1k : UInt64
  completionCostPer1k : UInt64
  effectiveFrom : Int64
  metadata : SortedMap String String

/-- The number of a field and its value. -/
def dcsField (fieldId : Nat) (value : List UInt8) : List UInt8 := Bytes.toBe 4 fieldId ++ value

/-- One entry of the metadata. -/
def dcsEntry (e : String × String) : List UInt8 := stringWire e.1 ++ stringWire e.2

namespace PricingTable

/-- What `compute_pricing_hash` feeds the hasher. -/
def dcsBytes (t : PricingTable) : List UInt8 :=
  dcsField 1 (stringWire t.tableId) ++
  dcsField 2 (Bytes.toBe 4 t.version.toNat) ++
  dcsField 3 (stringWire t.provider) ++
  dcsField 4 (stringWire t.model) ++
  dcsField 5 (Bytes.toBe 8 t.promptCostPer1k.toNat) ++
  dcsField 6 (Bytes.toBe 8 t.completionCostPer1k.toNat) ++
  dcsField 7 (Bytes.toBe 8 t.effectiveFrom.toUInt64.toNat) ++
  dcsField 8 (listWire dcsEntry t.metadata.entries)

/-- `compute_pricing_hash`. -/
def computePricingHash (sha256 : List UInt8 → Bytes32) (t : PricingTable) : Bytes32 :=
  sha256 t.dcsBytes

/-- The key of the table in the registry. -/
def key (t : PricingTable) : String ×ₗ String := toLex (t.provider, t.model)

def metadataSize (t : PricingTable) : Nat :=
  (t.metadata.entries.map fun e => (asBytes e.1).length + (asBytes e.2).length).sum

end PricingTable

/-- `RegistryError`. -/
inductive RegistryError where
  | duplicateVersion (provider model : String) (version : UInt32)
  | versionNotIncrement (provider model : String) (existingVersion attemptedVersion : UInt32)
  | effectiveFromNotIncrement (provider model : String)
      (existingEffectiveFrom attemptedEffectiveFrom : Int64)
  | tableIdTooLong (tableId : String) (length : Nat)
  | metadataTooLarge (size max : Nat)
  | tooManyVersions (provider model : String) (currentCount max : Nat)

def maxTableIdLen : Nat := 128

def maxMetadataSize : Nat := 4096

def maxVersionsPerModel : Nat := 1000

/-- `PricingRegistry`. -/
structure PricingRegistry where
  tables : SortedMap (String ×ₗ String) (List PricingTable)
  byHash : HashMap Bytes32 PricingTable

namespace PricingRegistry

def default : PricingRegistry := ⟨.empty, ∅⟩

/-- The checks of `register` against the latest version. -/
def checkLatest (table : PricingTable) : List PricingTable → Except RegistryError Unit
  | [] => .ok ()
  | latest :: _ =>
    if latest.version = table.version then
      .error (.duplicateVersion table.provider table.model table.version)
    else if table.version < latest.version then
      .error (.versionNotIncrement table.provider table.model latest.version table.version)
    else if table.effectiveFrom < latest.effectiveFrom then
      .error (.effectiveFromNotIncrement table.provider table.model latest.effectiveFrom
        table.effectiveFrom)
    else .ok ()

/-- `entries.sort_by_key(|b| Reverse(b.version))`. -/
def sortByVersion (entries : List PricingTable) : List PricingTable :=
  sortBy (fun t => OrderDual.toDual t.version.toNat) entries

/-- `register`. -/
def register (sha256 : List UInt8 → Bytes32) (r : PricingRegistry) (table : PricingTable) :
    Except RegistryError Bytes32 × PricingRegistry :=
  let entries := (r.tables.lookup table.key).getD []
  if maxTableIdLen < (asBytes table.tableId).length then
    (.error (.tableIdTooLong table.tableId (asBytes table.tableId).length), r)
  else if maxMetadataSize < table.metadataSize then
    (.error (.metadataTooLarge table.metadataSize maxMetadataSize), r)
  else if maxVersionsPerModel ≤ entries.length then
    (.error (.tooManyVersions table.provider table.model entries.length maxVersionsPerModel), r)
  else
    match checkLatest table entries with
    -- `entry(key).or_default()` has come before the checks
    | .error e => (.error e, { r with tables := r.tables.insert table.key entries })
    | .ok () =>
      let sorted := sortByVersion (entries ++ [table])
      let hash := table.computePricingHash sha256
      (.ok hash,
        { tables := r.tables.insert table.key sorted
          byHash := r.byHash.insert hash (sorted.headD table) })

/-- `get_versions`. -/
def getVersions (r : PricingRegistry) (provider model : String) : List PricingTable :=
  (r.tables.lookup (toLex (provider, model))).getD []

/-- `get_pricing`. -/
def getPricing (r : PricingRegistry) (provider model : String) : Option PricingTable :=
  (r.tables.lookup (toLex (provider, model))).bind List.head?

/-- `get_by_hash`. -/
def getByHash (r : PricingRegistry) (hash : Bytes32) : Option PricingTable := r.byHash.lookup hash

end PricingRegistry

/-! ## The bytes of a table -/

namespace PricingTable

/-- Every length fits the four bytes it is written in. -/
structure WellSized (t : PricingTable) : Prop where
  tableId : IsLen (asBytes t.tableId).length
  provider : IsLen (asBytes t.provider).length
  model : IsLen (asBytes t.model).length
  count : IsLen t.metadata.entries.length
  entries : ∀ e ∈ t.metadata.entries, IsLen (asBytes e.1).length ∧ IsLen (asBytes e.2).length

theorem reads_dcsEntry :
    Reader.Reads (do let k ← readString; let v ← readString; pure (k, v)) dcsEntry
      fun e => IsLen (asBytes e.1).length ∧ IsLen (asBytes e.2).length := by
  intro bs e rest
  rw [reads_string.two reads_string]
  constructor
  · intro hok
    obtain ⟨k, v, hlen, rfl, rfl⟩ := hok
    exact ⟨hlen, rfl⟩
  · intro hand
    obtain ⟨hlen, rfl⟩ := hand
    exact ⟨e.1, e.2, hlen, rfl, rfl⟩

theorem listWire_dcsEntry_inj {xs ys : List (String × String)} (hx : IsLen xs.length)
    (hy : IsLen ys.length)
    (hxs : ∀ e ∈ xs, IsLen (asBytes e.1).length ∧ IsLen (asBytes e.2).length)
    (hys : ∀ e ∈ ys, IsLen (asBytes e.1).length ∧ IsLen (asBytes e.2).length)
    (h : listWire dcsEntry xs = listWire dcsEntry ys) : xs = ys := by
  have hlen : xs.length < 256 ^ 4 ∧ ys.length < 256 ^ 4 := by
    unfold IsLen at hx hy
    omega
  have hread := @Reader.Reads.prefixed _ _ _ _ 4 (fun got => EncodingError.truncated 4 got) _ _
    fun m => reads_dcsEntry.many m
  have heq : listWire dcsEntry xs ++ [] = listWire dcsEntry ys ++ [] := congrArg (· ++ []) h
  exact (hread.inj ⟨hlen.1, hxs⟩ ⟨hlen.2, hys⟩ heq).1

theorem dcsField_append_inj {n : Nat} {v w r s : List UInt8}
    (h : dcsField n v ++ r = dcsField n w ++ s) : v ++ r = w ++ s := by
  unfold dcsField at h
  rw [List.append_assoc, List.append_assoc] at h
  exact List.append_cancel_left h

theorem dcsField_string_inj {n : Nat} {a b : String} {r s : List UInt8}
    (ha : IsLen (asBytes a).length) (hb : IsLen (asBytes b).length)
    (h : dcsField n (stringWire a) ++ r = dcsField n (stringWire b) ++ s) : a = b ∧ r = s :=
  reads_string.inj ha hb (dcsField_append_inj h)

theorem dcsField_toBe_inj {n w x y : Nat} {r s : List UInt8} (hx : x < 256 ^ w) (hy : y < 256 ^ w)
    (h : dcsField n (Bytes.toBe w x) ++ r = dcsField n (Bytes.toBe w y) ++ s) : x = y ∧ r = s := by
  obtain ⟨hbytes, hrest⟩ := List.append_inj (dcsField_append_inj h) (by simp)
  exact ⟨Bytes.toBe_inj hx hy hbytes, hrest⟩

/-- **The bytes** determine the table. -/
theorem dcsBytes_inj {a b : PricingTable} (ha : a.WellSized) (hb : b.WellSized)
    (h : a.dcsBytes = b.dcsBytes) : a = b := by
  unfold dcsBytes at h
  simp only [List.append_assoc] at h
  obtain ⟨htableId, h⟩ := dcsField_string_inj ha.tableId hb.tableId h
  obtain ⟨hversion, h⟩ := dcsField_toBe_inj a.version.toNat_lt b.version.toNat_lt h
  obtain ⟨hprovider, h⟩ := dcsField_string_inj ha.provider hb.provider h
  obtain ⟨hmodel, h⟩ := dcsField_string_inj ha.model hb.model h
  obtain ⟨hprompt, h⟩ := dcsField_toBe_inj a.promptCostPer1k.toNat_lt b.promptCostPer1k.toNat_lt h
  obtain ⟨hcompletion, h⟩ :=
    dcsField_toBe_inj a.completionCostPer1k.toNat_lt b.completionCostPer1k.toNat_lt h
  obtain ⟨heffective, h⟩ :=
    dcsField_toBe_inj a.effectiveFrom.toUInt64.toNat_lt b.effectiveFrom.toUInt64.toNat_lt h
  have hmetadata := listWire_dcsEntry_inj ha.count hb.count ha.entries hb.entries
    (List.append_cancel_left h)
  obtain ⟨_, _, _, _, _, _, _, _⟩ := a
  obtain ⟨_, _, _, _, _, _, _, _⟩ := b
  dsimp only at htableId hversion hprovider hmodel hprompt hcompletion heffective hmetadata
  have heffective' := congrArg UInt64.toInt64 (UInt64.toNat_inj.mp heffective)
  rw [Int64.toInt64_toUInt64, Int64.toInt64_toUInt64] at heffective'
  rw [htableId, UInt32.toNat_inj.mp hversion, hprovider, hmodel, UInt64.toNat_inj.mp hprompt,
    UInt64.toNat_inj.mp hcompletion, heffective', SortedMap.ext hmetadata]

theorem asBytes_empty : asBytes "" = [] := by
  rw [asBytes, Bytes.byteArray_toList]
  rfl

/-- Of distinct strings one at most is empty. -/
theorem length_entries_le (m : SortedMap String String) :
    m.entries.length ≤
      (m.entries.map fun e => (asBytes e.1).length + (asBytes e.2).length).sum + 1 := by
  have hsorted := m.sorted
  cases hentries : m.entries with
  | nil => exact Nat.zero_le _
  | cons e es =>
    rw [hentries] at hsorted
    obtain ⟨hfirst, -⟩ := List.pairwise_cons.mp hsorted
    have hpos : ∀ e' ∈ es, 1 ≤ (asBytes e'.1).length + (asBytes e'.2).length := by
      intro e' he'
      have hne : asBytes e'.1 ≠ asBytes "" := by
        intro hempty
        have hlt := hfirst e' he'
        rw [Bytes.toUTF8_toList_inj hempty] at hlt
        exact absurd (String.lt_iff_toList_lt.mp hlt) (List.not_lt_nil _)
      have hlen : (asBytes e'.1).length ≠ 0 := fun hzero =>
        hne ((List.eq_nil_of_length_eq_zero hzero).trans asBytes_empty.symm)
      omega
    have hsizes : ∀ n ∈ es.map fun e => (asBytes e.1).length + (asBytes e.2).length, 1 ≤ n :=
      List.forall_mem_map.mpr hpos
    have hsum := List.card_nsmul_le_sum _ 1 hsizes
    rw [List.length_map, smul_eq_mul, mul_one] at hsum
    rw [List.length_cons, List.map_cons, List.sum_cons]
    omega

/-- What passes the checks on sizes fits, given the names do. -/
theorem wellSized_of_checks {t : PricingTable} (htableId : (asBytes t.tableId).length ≤ maxTableIdLen)
    (hmetadata : t.metadataSize ≤ maxMetadataSize) (hprovider : IsLen (asBytes t.provider).length)
    (hmodel : IsLen (asBytes t.model).length) : t.WellSized := by
  unfold maxTableIdLen at htableId
  unfold metadataSize maxMetadataSize at hmetadata
  have hcount := length_entries_le t.metadata
  refine ⟨?_, hprovider, hmodel, ?_, fun e he => ?_⟩
  · unfold IsLen
    omega
  · unfold IsLen
    omega
  · have hle := List.single_le_sum (fun _ _ => Nat.zero_le _) _ (List.mem_map_of_mem
      (f := fun e : String × String => (asBytes e.1).length + (asBytes e.2).length) he)
    unfold IsLen
    omega

end PricingTable

/-! ## One call -/

namespace PricingRegistry

variable {sha256 : List UInt8 → Bytes32} {r : PricingRegistry} {table : PricingTable}
  {entries : List PricingTable}

/-- Newer tables stand in front and take effect no earlier. -/
def Descending (entries : List PricingTable) : Prop :=
  entries.Pairwise fun newer older =>
    older.version < newer.version ∧ older.effectiveFrom ≤ newer.effectiveFrom

theorem descending_cons (h : Descending entries) (hok : checkLatest table entries = .ok ()) :
    Descending (table :: entries) := by
  refine List.pairwise_cons.mpr ⟨?_, h⟩
  cases entries with
  | nil => exact fun t ht => absurd ht List.not_mem_nil
  | cons latest rest =>
    rw [checkLatest] at hok
    split_ifs at hok with hdup hold heffective
    have hversion : latest.version < table.version :=
      UInt32.lt_of_le_of_ne (UInt32.not_lt.mp hold) hdup
    have heffective := Int64.not_lt.mp heffective
    obtain ⟨hlatest, -⟩ := List.pairwise_cons.mp h
    intro t ht
    rcases List.mem_cons.mp ht with rfl | hrest
    · exact ⟨hversion, heffective⟩
    · obtain ⟨hlt, hle⟩ := hlatest t hrest
      exact ⟨UInt32.lt_trans hlt hversion, Int64.le_trans hle heffective⟩

/-- The sort puts the newest in front. -/
theorem sortByVersion_concat (h : Descending (table :: entries)) :
    sortByVersion (entries ++ [table]) = table :: entries := by
  have hinj : Set.InjOn (fun t : PricingTable => OrderDual.toDual t.version.toNat)
      {t | t ∈ entries ++ [table]} := by
    have hnodup : ((table :: entries).map fun t => OrderDual.toDual t.version.toNat).Nodup :=
      List.pairwise_map.mpr (h.imp fun hlt heq => absurd heq (UInt32.lt_iff_toNat_lt.mp hlt.1).ne')
    intro a ha b hb heq
    have hperm := List.perm_append_singleton table entries
    exact List.inj_on_of_nodup_map hnodup (hperm.mem_iff.mp ha) (hperm.mem_iff.mp hb) heq
  rw [sortByVersion, sortBy_congr hinj (List.perm_append_singleton table entries)]
  have hle : (table :: entries).Pairwise fun a b =>
      OrderDual.toDual a.version.toNat ≤ OrderDual.toDual b.version.toNat :=
    h.imp fun hlt => (UInt32.lt_iff_toNat_lt.mp hlt.1).le
  exact hle.insertionSort_eq

/-- A call refuses the table and changes nothing, or puts it in front of its list and under
its hash. -/
theorem register_cases (sha256 : List UInt8 → Bytes32)
    (h : Descending (r.getVersions table.provider table.model)) :
    (∃ e, r.register sha256 table = (.error e, r)) ∨
    ((asBytes table.tableId).length ≤ maxTableIdLen ∧ table.metadataSize ≤ maxMetadataSize ∧
      Descending (table :: r.getVersions table.provider table.model) ∧
      r.register sha256 table = (.ok (table.computePricingHash sha256),
        { tables := r.tables.insert table.key (table :: r.getVersions table.provider table.model)
          byHash := r.byHash.insert (table.computePricingHash sha256) table })) := by
  unfold register
  dsimp only
  split
  · exact .inl ⟨_, rfl⟩
  next hid =>
    split
    · exact .inl ⟨_, rfl⟩
    next hsize =>
      split
      · exact .inl ⟨_, rfl⟩
      · split
        next e hcheck =>
          -- there is a latest version, and with it an entry
          cases hlookup : r.tables.lookup table.key with
          | none =>
            rw [hlookup] at hcheck
            cases hcheck
          | some entries =>
            rw [Option.getD_some, SortedMap.insert_of_lookup_eq_some hlookup]
            exact .inl ⟨e, rfl⟩
        next hcheck =>
          have hsorted : Descending (table :: r.getVersions table.provider table.model) :=
            descending_cons h hcheck
          refine .inr ⟨not_lt.mp hid, not_lt.mp hsize, hsorted, ?_⟩
          have hconcat := sortByVersion_concat hsorted
          unfold getVersions at hconcat
          simp only [PricingTable.key, hconcat, List.headD_cons, getVersions]

theorem getPricing_eq_head? (provider model : String) :
    r.getPricing provider model = (r.getVersions provider model).head? := by
  unfold getPricing getVersions
  cases r.tables.lookup (toLex (provider, model)) <;> rfl

/-! ## Runs -/

/-- The calls for a provider and model that returned `Ok`. -/
def registered (es : List (PricingTable × Except RegistryError Bytes32)) (provider model : String) :
    List (PricingTable × Except RegistryError Bytes32) :=
  es.filter fun call => call.2.isOk ∧ call.1.provider = provider ∧ call.1.model = model

/-- The registry holds what the calls have registered. -/
structure Records (sha256 : List UInt8 → Bytes32)
    (es : List (PricingTable × Except RegistryError Bytes32)) (r : PricingRegistry) : Prop where
  versions : ∀ provider model,
    r.getVersions provider model = ((registered es provider model).map Prod.fst).reverse
  descending : ∀ provider model, Descending (r.getVersions provider model)
  checked : ∀ t hash, (t, .ok hash) ∈ es → hash = t.computePricingHash sha256 ∧
    (asBytes t.tableId).length ≤ maxTableIdLen ∧ t.metadataSize ≤ maxMetadataSize
  sound : ∀ t hash, r.getByHash hash = some t → (t, .ok hash) ∈ es
  complete : ∀ t hash, (t, .ok hash) ∈ es → ∃ t', r.getByHash hash = some t'

variable {es : List (PricingTable × Except RegistryError Bytes32)}

theorem registered_concat (call : PricingTable × Except RegistryError Bytes32) (provider model : String) :
    registered (es ++ [call]) provider model =
      if call.2.isOk ∧ call.1.provider = provider ∧ call.1.model = model then
        registered es provider model ++ [call]
      else registered es provider model := by
  rw [registered, List.filter_append, List.filter_singleton]
  split
  next h => rw [decide_eq_true h, cond_true, ← registered]
  next h => rw [decide_eq_false h, cond_false, List.append_nil, ← registered]

theorem records_default : Records sha256 [] default where
  versions _ _ := rfl
  descending _ _ := List.Pairwise.nil
  checked _ _ h := absurd h List.not_mem_nil
  sound _ _ h := by cases h
  complete _ _ h := absurd h List.not_mem_nil

theorem records_refuse (hr : Records sha256 es r) (e : RegistryError) :
    Records sha256 (es ++ [(table, .error e)]) r := by
  have hmem : ∀ t hash, (t, .ok hash) ∈ es ++ [(table, .error e)] → (t, .ok hash) ∈ es := by
    intro t hash h
    rcases List.mem_append.mp h with hold | hnew
    · exact hold
    · cases List.mem_singleton.mp hnew
  refine ⟨fun provider model => ?_, hr.descending, fun t hash h => hr.checked t hash (hmem t hash h),
    fun t hash h => List.mem_append_left _ (hr.sound t hash h),
    fun t hash h => hr.complete t hash (hmem t hash h)⟩
  rw [registered_concat, if_neg (fun h => Bool.false_ne_true h.1)]
  exact hr.versions provider model

/-- A new list of versions is that of the model of its table. -/
theorem getVersions_insert (r : PricingRegistry) (table : PricingTable) (entries : List PricingTable)
    (byHash : HashMap Bytes32 PricingTable) (provider model : String) :
    getVersions ⟨r.tables.insert table.key entries, byHash⟩ provider model =
      if table.provider = provider ∧ table.model = model then entries
      else r.getVersions provider model := by
  have hkey : toLex (provider, model) = table.key ↔ table.provider = provider ∧ table.model = model := by
    rw [PricingTable.key, toLex_inj, Prod.mk.injEq, eq_comm, and_congr_right_iff]
    exact fun _ => eq_comm
  rw [getVersions, SortedMap.lookup_insert]
  split
  next h => rw [if_pos (hkey.mp h), Option.getD_some]
  next h => rw [if_neg (mt hkey.mpr h), getVersions]

theorem records_accept (hr : Records sha256 es r)
    (htableId : (asBytes table.tableId).length ≤ maxTableIdLen)
    (hsize : table.metadataSize ≤ maxMetadataSize)
    (hsorted : Descending (table :: r.getVersions table.provider table.model)) :
    Records sha256 (es ++ [(table, .ok (table.computePricingHash sha256))])
      { tables := r.tables.insert table.key (table :: r.getVersions table.provider table.model)
        byHash := r.byHash.insert (table.computePricingHash sha256) table } := by
  constructor
  case versions =>
    intro provider model
    rw [getVersions_insert, registered_concat]
    by_cases h : table.provider = provider ∧ table.model = model
    · obtain ⟨rfl, rfl⟩ := h
      rw [if_pos ⟨rfl, rfl⟩, if_pos ⟨rfl, rfl, rfl⟩, List.map_append, List.reverse_append,
        hr.versions]
      rfl
    · rw [if_neg h, if_neg fun hcall => h hcall.2]
      exact hr.versions provider model
  case descending =>
    intro provider model
    rw [getVersions_insert]
    split
    · exact hsorted
    · exact hr.descending provider model
  case checked =>
    intro t hash h
    rcases List.mem_append.mp h with hold | hnew
    · exact hr.checked t hash hold
    · cases List.mem_singleton.mp hnew
      exact ⟨rfl, htableId, hsize⟩
  case sound =>
    intro t hash h
    rw [getByHash, HashMap.lookup_insert] at h
    split at h
    next heq =>
      cases h
      exact heq ▸ List.mem_append_right _ List.mem_cons_self
    next => exact List.mem_append_left _ (hr.sound t hash h)
  case complete =>
    intro t hash h
    rw [getByHash, HashMap.lookup_insert]
    split
    · exact ⟨table, rfl⟩
    next hne =>
      rcases List.mem_append.mp h with hold | hnew
      · exact hr.complete t hash hold
      · cases List.mem_singleton.mp hnew
        exact absurd rfl hne

theorem records_step (hr : Records sha256 es r) (table : PricingTable) :
    Records sha256 (es ++ [(table, (r.register sha256 table).1)]) (r.register sha256 table).2 := by
  rcases register_cases sha256 (hr.descending table.provider table.model) with
    ⟨e, hrefuse⟩ | ⟨htableId, hsize, hsorted, haccept⟩
  · rw [hrefuse]
    exact records_refuse hr e
  · rw [haccept]
    exact records_accept hr htableId hsize hsorted

theorem records_run (tables : List PricingTable) :
    Records sha256 (trace (register sha256) default tables) (final (register sha256) default tables) :=
  run_induct (Records sha256) records_default (fun _ _ table hr => records_step hr table) tables

/-- The tables whose bytes are hashed have names that fit. -/
def NamesFit (tables : List PricingTable) : Prop :=
  ∀ t ∈ tables, IsLen (asBytes t.provider).length ∧ IsLen (asBytes t.model).length

/-- A hash is known by one table. -/
theorem eq_of_hash_eq {tables : List PricingTable} (hfit : NamesFit tables)
    (hinj : Set.InjOn sha256 (PricingTable.dcsBytes '' {t | t ∈ tables})) {t u : PricingTable}
    {hash : Bytes32} (ht : (t, .ok hash) ∈ trace (register sha256) default tables)
    (hu : (u, .ok hash) ∈ trace (register sha256) default tables) : t = u := by
  obtain ⟨hthash, htid, htsize⟩ := (records_run tables).checked t hash ht
  obtain ⟨huhash, huid, husize⟩ := (records_run tables).checked u hash hu
  have htmem := mem_of_mem_trace ht
  have humem := mem_of_mem_trace hu
  have hbytes : t.dcsBytes = u.dcsBytes :=
    hinj (Set.mem_image_of_mem _ htmem) (Set.mem_image_of_mem _ humem) (hthash.symm.trans huhash)
  exact PricingTable.dcsBytes_inj
    (PricingTable.wellSized_of_checks htid htsize (hfit t htmem).1 (hfit t htmem).2)
    (PricingTable.wellSized_of_checks huid husize (hfit u humem).1 (hfit u humem).2) hbytes

/-- The hash index is exact. -/
theorem getByHash_eq_some_iff {tables : List PricingTable} (hfit : NamesFit tables)
    (hinj : Set.InjOn sha256 (PricingTable.dcsBytes '' {t | t ∈ tables})) {t : PricingTable}
    {hash : Bytes32} :
    (final (register sha256) default tables).getByHash hash = some t ↔
      (t, .ok hash) ∈ trace (register sha256) default tables := by
  have hrun : Records sha256 _ _ := records_run tables
  refine ⟨hrun.sound t hash, fun h => ?_⟩
  obtain ⟨u, hu⟩ := hrun.complete t hash h
  rw [hu, eq_of_hash_eq hfit hinj (hrun.sound u hash hu) h]

end PricingRegistry

open PricingRegistry in
/-- **The registry keeps its records.** After every run of `register` the lists fall in
version and do not rise in time, and the active table is the last that was registered; the
hash index knows every registered table by its hash and never forgets it; and a call that is
refused changes nothing. -/
theorem pricing_registry_integrity (sha256 : List UInt8 → Bytes32) (tables : List PricingTable) :
    (∀ provider model,
      Descending ((final (register sha256) default tables).getVersions provider model) ∧
      (final (register sha256) default tables).getPricing provider model =
        (registered (trace (register sha256) default tables) provider model).getLast?.map Prod.fst) ∧
    (NamesFit tables → Set.InjOn sha256 (PricingTable.dcsBytes '' {t | t ∈ tables}) →
      (∀ hash t, ((final (register sha256) default tables).getByHash hash = some t ↔
          (t, .ok hash) ∈ trace (register sha256) default tables) ∧
        ((t, .ok hash) ∈ trace (register sha256) default tables →
          t.computePricingHash sha256 = hash)) ∧
      ∀ front, front <+: tables → ∀ hash t,
        (final (register sha256) default front).getByHash hash = some t →
          (final (register sha256) default tables).getByHash hash = some t) ∧
    ∀ table e, ((final (register sha256) default tables).register sha256 table).1 = .error e →
      let after := ((final (register sha256) default tables).register sha256 table).2
      (∀ provider model, after.getVersions provider model =
        (final (register sha256) default tables).getVersions provider model) ∧
      ∀ hash, after.getByHash hash = (final (register sha256) default tables).getByHash hash := by
  have hrun : Records sha256 _ _ := records_run tables
  refine ⟨fun provider model => ⟨hrun.descending provider model, ?_⟩,
    fun hfit hinj => ⟨fun hash t => ?_, ?_⟩, ?_⟩
  · rw [getPricing_eq_head?, hrun.versions, List.head?_reverse, List.getLast?_map]
  · exact ⟨getByHash_eq_some_iff hfit hinj, fun h => (hrun.checked t hash h).1.symm⟩
  · intro front hfront hash t h
    obtain ⟨rest, rfl⟩ := hfront
    have hregistered := (records_run front).sound t hash h
    refine (getByHash_eq_some_iff hfit hinj).mpr ?_
    rw [trace_append]
    exact List.mem_append_left _ hregistered
  · intro table e herror
    rcases register_cases sha256 (hrun.descending table.provider table.model) with
      ⟨e', hrefuse⟩ | ⟨-, -, -, haccept⟩
    · rw [hrefuse]
      exact ⟨fun _ _ => rfl, fun _ => rfl⟩
    · rw [haccept] at herror
      cases herror

def sampleTable (tableId : String) (version : UInt32) (effectiveFrom : Int64) : PricingTable where
  tableId := tableId
  version := version
  provider := "openai"
  model := "gpt-4"
  promptCostPer1k := 10000
  completionCostPer1k := 20000
  effectiveFrom := effectiveFrom
  metadata := .empty

def sampleTables : List PricingTable :=
  [sampleTable "openai-gpt-4-v1" 1 1700000000, sampleTable "openai-gpt-4-v2" 2 1700000100]

/-- SHA-256 of the bytes of the two tables. -/
def sampleSha256 (m : List UInt8) : Bytes32 :=
  if m = (sampleTable "openai-gpt-4-v1" 1 1700000000).dcsBytes then
    #v[81, 131, 4, 95, 110, 212, 48, 230, 181, 169, 219, 145, 210, 209, 125, 183,
    214, 5, 80, 37, 106, 225, 245, 175, 115, 203, 190, 142, 238, 162, 160, 150]
  else if m = (sampleTable "openai-gpt-4-v2" 2 1700000100).dcsBytes then
    #v[159, 144, 178, 61, 109, 253, 94, 174, 206, 187, 208, 121, 176, 117, 100, 111,
    196, 246, 69, 63, 176, 171, 137, 24, 251, 71, 89, 153, 123, 146, 0, 8]
  else Vector.replicate 32 0

theorem sampleSha256_injOn :
    Set.InjOn sampleSha256 (PricingTable.dcsBytes '' {t | t ∈ sampleTables}) := by
  have hdigests : ∀ m n : List UInt8, m ≠ n → m ∈ sampleTables.map PricingTable.dcsBytes →
      n ∈ sampleTables.map PricingTable.dcsBytes → sampleSha256 m ≠ sampleSha256 n := by
    intro m n hne hm hn
    simp only [sampleTables, List.map_cons, List.map_nil, List.mem_cons, List.not_mem_nil,
      or_false] at hm hn
    rcases hm with rfl | rfl <;> rcases hn with rfl | rfl
    · exact absurd rfl hne
    · rw [sampleSha256, sampleSha256, if_pos rfl, if_neg (Ne.symm hne), if_pos rfl]
      decide
    · rw [sampleSha256, sampleSha256, if_neg hne, if_pos rfl, if_pos rfl]
      decide
    · exact absurd rfl hne
  intro m hm n hn heq
  by_contra hne
  obtain ⟨t, ht, rfl⟩ := hm
  obtain ⟨u, hu, rfl⟩ := hn
  exact hdigests _ _ hne (List.mem_map_of_mem ht) (List.mem_map_of_mem hu) heq

theorem pricing_registry_integrity_two_versions :
    (final (PricingRegistry.register sampleSha256) .default sampleTables).getByHash
        (sampleSha256 (sampleTable "openai-gpt-4-v1" 1 1700000000).dcsBytes) =
      some (sampleTable "openai-gpt-4-v1" 1 1700000000) ↔
    (sampleTable "openai-gpt-4-v1" 1 1700000000,
        .ok (sampleSha256 (sampleTable "openai-gpt-4-v1" 1 1700000000).dcsBytes)) ∈
      trace (PricingRegistry.register sampleSha256) .default sampleTables := by
  have hprovider : (asBytes "openai").length < 2 ^ 32 := by decide +kernel
  have hmodel : (asBytes "gpt-4").length < 2 ^ 32 := by decide +kernel
  have hfit : PricingRegistry.NamesFit sampleTables := by
    intro t ht
    simp only [sampleTables, List.mem_cons, List.not_mem_nil, or_false] at ht
    rcases ht with rfl | rfl
    · exact ⟨hprovider, hmodel⟩
    · exact ⟨hprovider, hmodel⟩
  exact (((pricing_registry_integrity sampleSha256 sampleTables).2.1 hfit sampleSha256_injOn).1 _ _).1

end CipherOcto.Router
