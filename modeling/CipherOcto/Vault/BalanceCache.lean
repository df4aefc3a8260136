import CipherOcto.Determin.DqaWire
import CipherOcto.Encoding.Codec
import CipherOcto.Lib.Attempt
import CipherOcto.Lib.HashMap
import CipherOcto.Lib.Trace

/-!
# The cache of projected vault balances

`project_vault_balance` answers from a cache of the process where it can, and else from the
log. Producers insert into the log and emit an envelope; a subscriber verifies envelopes and
empties a cache. The cache it is handed is not the one that `project_vault_balance` reads,
which is private to its module, and the envelopes that `produce` emits carry a version that
the trust list refuses.

> `coherent_iff`: reads agree with the log iff every entry that a later read can be served
> is what the log gives now.
> `freshEntries_step_iff`: a step keeps that iff it inserts nothing that changes such an entry.
> `freshEntries_run`: so do the runs of such steps.
-/

namespace CipherOcto.Vault

open Determin Encoding Machine

abbrev ChainId := Bytes32
abbrev VaultId := Bytes32
abbrev AssetId := Bytes32

/-! ## The code -/

/-! ### Projection -/

inductive ProjectionSource where
  | cache | freshLogScan | epochRebuild
deriving DecidableEq

def ProjectionSource.asU8 : ProjectionSource → UInt8
  | .cache => 0
  | .freshLogScan => 1
  | .epochRebuild => 2

structure VaultBalanceProjection where
  chainId : ChainId
  vaultId : VaultId
  assetId : AssetId
  projectedBalance : Dqa
  projectedAtUnixSeconds : Option Int64
  registrySnapshotEpoch : UInt64
  sourceKind : ProjectionSource
deriving DecidableEq

inductive ProjectionError where
  | vaultUnknown (vaultId : VaultId)
  | logReadFailed (reason : String)
deriving DecidableEq

inductive TransferEventLogInsertError where
  | insertFailed
deriving DecidableEq

structure TransferEventRef where
  eventId : Bytes32
  chainId : ChainId
  fromVaultId : VaultId
  toVaultId : VaultId
  assetId : AssetId
  amount : Dqa
  occurredAtUnix : Int64
deriving DecidableEq

/-- `TransferEventLog`. -/
structure TransferEventLog (L : Type) where
  sumToVault : L → ChainId → VaultId → AssetId → Int64 → Except ProjectionError Dqa
  sumFromVault : L → ChainId → VaultId → AssetId → Int64 → Except ProjectionError Dqa
  maxOccurredAtUnix : L → ChainId → VaultId → AssetId → Except ProjectionError (Option Int64)
  insert : L → TransferEventRef → Except TransferEventLogInsertError Unit × L

inductive VaultAssetResolverError where
  | unknownVault (vaultId : VaultId)
deriving DecidableEq

abbrev VaultAssetResolver := ChainId → VaultId → Except VaultAssetResolverError AssetId

/-- `map_resolver_error`. -/
def mapResolverError : VaultAssetResolverError → ProjectionError
  | .unknownVault vaultId => .vaultUnknown vaultId

/-- `Dqa(0, 0)`. -/
def zeroDqa : Dqa := ⟨0, 0, by decide, zero_scale_lt⟩

/-- `Dqa::new(in_sum.value - out_sum.value, in_sum.scale)`, or zero where it refuses. -/
def difference (checks : Bool) (inSum outSum : Dqa) : Run ProjectionError Dqa :=
  if checks ∧ ¬InI 64 (inSum.value - outSum.value) then .error .panic
  else match Dqa.new (wrapI 64 (inSum.value - outSum.value)) inSum.scale (inI_wrapI _)
      inSum.scale_lt with
    | .ok balance => .ok balance
    | .error _ => .ok zeroDqa

section Project

variable {L : Type} (port : TransferEventLog L) (checks : Bool)

/-- `project`. -/
def project (chainId : ChainId) (vaultId : VaultId) (assetId : AssetId) (log : L)
    (nowUnixSeconds : Int64) : Run ProjectionError VaultBalanceProjection := do
  let inSum ← raise (port.sumToVault log chainId vaultId assetId Int64.minValue)
  let outSum ← raise (port.sumFromVault log chainId vaultId assetId Int64.minValue)
  let maxTs ← raise (port.maxOccurredAtUnix log chainId vaultId assetId)
  let projectedBalance ←
    (if inSum.scale = outSum.scale ∧ outSum.value ≤ inSum.value then difference checks inSum outSum
      else .ok zeroDqa)
  pure { chainId, vaultId, assetId, projectedBalance,
         projectedAtUnixSeconds := maxTs.or (some nowUnixSeconds)
         registrySnapshotEpoch := 0, sourceKind := .freshLogScan }

end Project

/-! ### The cache -/

structure CacheKey where
  chainId : ChainId
  vaultId : VaultId
  assetId : AssetId
deriving DecidableEq

structure CacheEntry where
  projection : VaultBalanceProjection
  cachedAtUnixSeconds : Int64
deriving DecidableEq

structure VaultBalanceCache where
  entries : HashMap CacheKey CacheEntry
  ttlSeconds : Int64

namespace VaultBalanceCache

/-- `VaultBalanceCache::new`. -/
def new (ttlSeconds : Int64) : VaultBalanceCache := ⟨∅, max ttlSeconds 1⟩

/-- `put`. -/
def put (c : VaultBalanceCache) (key : CacheKey) (projection : VaultBalanceProjection)
    (nowUnixSeconds : Int64) : VaultBalanceCache :=
  { c with entries := c.entries.insert key ⟨projection, nowUnixSeconds⟩ }

/-- `now.checked_sub(cached_at).unwrap_or(0)`. -/
def elapsed (nowUnixSeconds cachedAtUnixSeconds : Int64) : Int :=
  if InI 64 (nowUnixSeconds.toInt - cachedAtUnixSeconds.toInt) then
    nowUnixSeconds.toInt - cachedAtUnixSeconds.toInt
  else 0

/-- `get`. -/
def get (c : VaultBalanceCache) (key : CacheKey) (nowUnixSeconds : Int64) :
    Option VaultBalanceProjection × VaultBalanceCache :=
  let evicted := { c with entries := c.entries.erase key }
  match c.entries.lookup key with
  | none => (none, evicted)
  | some entry =>
    if elapsed nowUnixSeconds entry.cachedAtUnixSeconds ≤ c.ttlSeconds.toInt then
      (some entry.projection, c)
    else (none, evicted)

/-- `invalidate_all`. -/
def invalidateAll (c : VaultBalanceCache) : VaultBalanceCache := { c with entries := ∅ }

end VaultBalanceCache

section Read

variable {L : Type} (port : TransferEventLog L) (checks : Bool)

/-- `project_vault_balance`, with the cache of the process. -/
def projectVaultBalance (chainId : ChainId) (vaultId : VaultId)
    (assetResolver : VaultAssetResolver) (log : L) (currentRegistryEpoch : UInt64)
    (currentUnixSeconds : Int64) (cache : VaultBalanceCache) :
    Run ProjectionError VaultBalanceProjection × VaultBalanceCache :=
  match assetResolver chainId vaultId with
  | .error e => (.error (.err (mapResolverError e)), cache)
  | .ok assetId =>
    let cacheKey : CacheKey := ⟨chainId, vaultId, assetId⟩
    let (hit, cache) := cache.get cacheKey currentUnixSeconds
    match hit.filter fun cached => currentRegistryEpoch ≤ cached.registrySnapshotEpoch with
    | some cached => (.ok { cached with sourceKind := .cache }, cache)
    | none =>
      match project port checks chainId vaultId assetId log currentUnixSeconds with
      | .error stop => (.error stop, cache)
      | .ok fresh =>
        let projection :=
          { fresh with
            registrySnapshotEpoch := currentRegistryEpoch
            sourceKind := if fresh.sourceKind = .epochRebuild then .epochRebuild
              else .freshLogScan }
        (.ok projection, cache.put cacheKey projection currentUnixSeconds)

end Read

/-! ### Envelopes -/

structure VaultProjectionInvalidationEnvelope where
  version : UInt8
  chainId : ChainId
  vaultId : VaultId
  assetId : AssetId
  sourceKind : ProjectionSource
  producerDid : String
  sequence : UInt64
  producerSignature : Vector UInt8 64
deriving DecidableEq

def envelopeVersionV1 : UInt8 := 1
def envelopeVersionV2 : UInt8 := 2

namespace VaultProjectionInvalidationEnvelope

/-- `v1_legacy`. -/
def v1Legacy (chainId : ChainId) (vaultId : VaultId) (assetId : AssetId)
    (sourceKind : ProjectionSource) : VaultProjectionInvalidationEnvelope :=
  ⟨envelopeVersionV1, chainId, vaultId, assetId, sourceKind, "", 0, Vector.replicate 64 0⟩

/-- `preimage`, behind `CACHE_BUS_DOMAIN_SEPARATOR`. -/
def preimage (e : VaultProjectionInvalidationEnvelope) : List UInt8 :=
  "cipherocto/cache-bus/invalidation/v2\x00".toUTF8.toList ++ [e.version] ++ e.chainId.toList ++
    e.vaultId.toList ++ e.assetId.toList ++ [e.sourceKind.asU8] ++ e.producerDid.toUTF8.toList ++
    Bytes.toBe 8 e.sequence.toNat

end VaultProjectionInvalidationEnvelope

inductive EnvelopeVerificationError where
  | unknownProducer (producerDid : String)
  | invalidSignature (producerDid : String)
  | replay (producerDid : String) (observed lastSeen : UInt64)
  | unsupportedVersion (version : UInt8)
deriving DecidableEq

/-- `ProducerTrustList`. A trusted key is an algorithm and a verifying key. -/
structure ProducerTrustList (κ : Type) where
  trustKeys : HashMap String κ
  lastSeenSequence : HashMap String UInt64

section Verify

variable {κ : Type} (verifyDispatch : κ → List UInt8 → Vector UInt8 64 → Bool)

/-- `verify_and_update_sequence`. -/
def ProducerTrustList.verifyAndUpdateSequence (t : ProducerTrustList κ)
    (envelope : VaultProjectionInvalidationEnvelope) :
    Except EnvelopeVerificationError Unit × ProducerTrustList κ :=
  if envelope.version ≠ envelopeVersionV2 then
    (.error (.unsupportedVersion envelope.version), t)
  else
    match t.trustKeys.lookup envelope.producerDid with
    | none => (.error (.unknownProducer envelope.producerDid), t)
    | some trusted =>
      if verifyDispatch trusted envelope.preimage envelope.producerSignature = false then
        (.error (.invalidSignature envelope.producerDid), t)
      else
        let lastSeen := (t.lastSeenSequence.lookup envelope.producerDid).getD 0
        if envelope.sequence ≤ lastSeen then
          (.error (.replay envelope.producerDid envelope.sequence lastSeen),
            { t with
              lastSeenSequence := t.lastSeenSequence.insert envelope.producerDid lastSeen })
        else
          (.ok (), { t with lastSeenSequence :=
            t.lastSeenSequence.insert envelope.producerDid envelope.sequence })

end Verify

/-! ### Producers -/

inductive VaultAssetError where
  | vaultUnknown | vaultAssetMismatch
deriving DecidableEq

inductive ProducerError where
  | triInvariantViolation (reason : String)
  | logInsertFailed (error : TransferEventLogInsertError)
  | vaultAsset (error : VaultAssetError)
deriving DecidableEq

/-- The methods of `EventLogProducer` that an implementation supplies. -/
structure EventLogProducer (Input : Type) where
  validatePreInsert : Input → Except ProducerError Unit
  toTransferEvent : Input → Except ProducerError TransferEventRef

/-- `EventLogProducer::produce`, under the drain lock: the result, the log, what is emitted. -/
def EventLogProducer.produce {L Input : Type} (port : TransferEventLog L)
    (producer : EventLogProducer Input) (input : Input) (log : L) :
    Except ProducerError TransferEventRef × L × Option VaultProjectionInvalidationEnvelope :=
  match producer.validatePreInsert input with
  | .error e => (.error e, log, none)
  | .ok () =>
    match producer.toTransferEvent input with
    | .error e => (.error e, log, none)
    | .ok ev =>
      match port.insert log ev with
      | (.error e, log) => (.error (.logInsertFailed e), log, none)
      | (.ok (), log) =>
        (.ok ev, log, some (.v1Legacy ev.chainId ev.toVaultId ev.assetId .freshLogScan))

/-! ### A process -/

/-- What a process holds: the log, the cache that `project_vault_balance` reads, the cache that
the subscriber was handed, its trust list, the envelopes on their way to it, and the time and the
epoch of the last read. -/
structure State (L κ : Type) where
  log : L
  substrateCache : VaultBalanceCache
  subscriberCache : VaultBalanceCache
  trustList : ProducerTrustList κ
  pending : List VaultProjectionInvalidationEnvelope
  now : Int64
  epoch : UInt64

inductive Action (Input : Type) where
  | produce (producer : EventLogProducer Input) (input : Input)
  | deliver (i : Nat)
  | read (chainId : ChainId) (vaultId : VaultId) (assetResolver : VaultAssetResolver)
      (epoch : UInt64) (now : Int64)

section Process

variable {L κ Input : Type} (port : TransferEventLog L) (checks : Bool)
  (verifyDispatch : κ → List UInt8 → Vector UInt8 64 → Bool)

/-- One turn of the loop of `spawn_cache_subscriber_with_trust_list`. -/
def receive (s : State L κ) (envelope : VaultProjectionInvalidationEnvelope) : State L κ :=
  match s.trustList.verifyAndUpdateSequence verifyDispatch envelope with
  | (.ok (), trustList) =>
    { s with trustList, subscriberCache := s.subscriberCache.invalidateAll }
  | (.error _, trustList) => { s with trustList }

/-- A step, with the answer of a read. -/
def step (s : State L κ) : Action Input → Option (Run ProjectionError VaultBalanceProjection) × State L κ
  | .produce producer input =>
    let (_, log, envelope) := producer.produce port input s.log
    (none, { s with log, pending := s.pending ++ envelope.toList })
  | .deliver i =>
    match s.pending[i]? with
    | none => (none, s)
    | some envelope => (none, receive verifyDispatch { s with pending := s.pending.eraseIdx i } envelope)
  | .read chainId vaultId assetResolver epoch now =>
    let (answer, substrateCache) := projectVaultBalance port checks chainId vaultId assetResolver
      s.log epoch now s.substrateCache
    (some answer, { s with substrateCache, now, epoch })

/-- The process as it starts: no read has filled a cache. -/
def start (log : L) (trustKeys : HashMap String κ) (subscriberCache : VaultBalanceCache)
    (now : Int64) (epoch : UInt64) : State L κ :=
  ⟨log, VaultBalanceCache.new 60, subscriberCache, ⟨trustKeys, ∅⟩, [], now, epoch⟩

/-! ## Coherence -/

/-- The projected balance of an answer. -/
def balance (answer : Run ProjectionError VaultBalanceProjection) : Run ProjectionError Dqa :=
  answer.map (·.projectedBalance)

/-- What `project` gives on the log as it is. -/
def loggedBalance (log : L) (key : CacheKey) : Run ProjectionError Dqa :=
  balance (project port checks key.chainId key.vaultId key.assetId log 0)

/-- Whatever a later read answers, it is what `project` gives on the log. -/
def Coherent (s : State L κ) : Prop :=
  ∀ chainId vaultId assetResolver epoch now, s.now ≤ now → s.epoch ≤ epoch →
    balance (projectVaultBalance port checks chainId vaultId assetResolver s.log epoch now
        s.substrateCache).1 =
      match assetResolver chainId vaultId with
      | .error e => .error (.err (mapResolverError e))
      | .ok assetId => balance (project port checks chainId vaultId assetId s.log now)

/-- Some later read would be served the entry. -/
def Servable (s : State L κ) (entry : CacheEntry) : Prop :=
  ∃ epoch now, s.now ≤ now ∧ s.epoch ≤ epoch ∧
    VaultBalanceCache.elapsed now entry.cachedAtUnixSeconds ≤ s.substrateCache.ttlSeconds.toInt ∧
    epoch ≤ entry.projection.registrySnapshotEpoch

/-- Every entry that a later read can be served is what the log gives now. -/
def FreshEntries (s : State L κ) : Prop :=
  ∀ key entry, s.substrateCache.entries.lookup key = some entry → Servable s entry →
    loggedBalance port checks s.log key = .ok entry.projection.projectedBalance

theorem balance_project (key : CacheKey) (log : L) (now : Int64) :
    balance (project port checks key.chainId key.vaultId key.assetId log now) =
      loggedBalance port checks log key := by
  unfold loggedBalance balance project
  cases port.sumToVault log key.chainId key.vaultId key.assetId Int64.minValue with
  | error e => rfl
  | ok inSum =>
    cases port.sumFromVault log key.chainId key.vaultId key.assetId Int64.minValue with
    | error e => rfl
    | ok outSum =>
      cases port.maxOccurredAtUnix log key.chainId key.vaultId key.assetId with
      | error e => rfl
      | ok maxTs =>
        simp only [raise, Except.mapError, ok_bind]
        cases (if inSum.scale = outSum.scale ∧ outSum.value ≤ inSum.value then
            difference checks inSum outSum else .ok zeroDqa) <;> rfl

/-- What the cache serves a read. -/
def served (cache : VaultBalanceCache) (key : CacheKey) (epoch : UInt64) (now : Int64) :
    Option VaultBalanceProjection :=
  (cache.get key now).1.filter fun cached => epoch ≤ cached.registrySnapshotEpoch

theorem served_eq_some_iff {cache : VaultBalanceCache} {key : CacheKey} {epoch : UInt64}
    {now : Int64} {projection : VaultBalanceProjection} :
    served cache key epoch now = some projection ↔
      ∃ entry, cache.entries.lookup key = some entry ∧
        VaultBalanceCache.elapsed now entry.cachedAtUnixSeconds ≤ cache.ttlSeconds.toInt ∧
        epoch ≤ entry.projection.registrySnapshotEpoch ∧ entry.projection = projection := by
  unfold served VaultBalanceCache.get
  cases hlookup : cache.entries.lookup key with
  | none => simp
  | some entry =>
    by_cases hlive : VaultBalanceCache.elapsed now entry.cachedAtUnixSeconds ≤ cache.ttlSeconds.toInt
    · simp [hlive, Option.filter_some]
    · simp [hlive]

theorem lookup_get {cache : VaultBalanceCache} {key k : CacheKey} {now : Int64} {entry : CacheEntry}
    (h : (cache.get key now).2.entries.lookup k = some entry) :
    cache.entries.lookup k = some entry := by
  have herase : (cache.entries.erase key).lookup k = some entry →
      cache.entries.lookup k = some entry := by
    intro he
    by_cases hk : k = key
    · subst hk
      rw [AList.lookup_erase] at he
      exact nomatch he
    · rwa [AList.lookup_erase_ne hk] at he
  unfold VaultBalanceCache.get at h
  split at h
  next => exact herase h
  next =>
    split at h
    next => exact h
    next => exact herase h

theorem ttlSeconds_get (cache : VaultBalanceCache) (key : CacheKey) (now : Int64) :
    (cache.get key now).2.ttlSeconds = cache.ttlSeconds := by
  unfold VaultBalanceCache.get
  split
  next => rfl
  next => split <;> rfl

/-- A read that is served answers from the cache. -/
theorem projectVaultBalance_of_served {cache : VaultBalanceCache} {chainId : ChainId}
    {vaultId : VaultId} {assetResolver : VaultAssetResolver} {assetId : AssetId} {log : L}
    {epoch : UInt64} {now : Int64} {projection : VaultBalanceProjection}
    (hasset : assetResolver chainId vaultId = .ok assetId)
    (hserved : served cache ⟨chainId, vaultId, assetId⟩ epoch now = some projection) :
    projectVaultBalance port checks chainId vaultId assetResolver log epoch now cache =
      (.ok { projection with sourceKind := .cache },
        (cache.get ⟨chainId, vaultId, assetId⟩ now).2) := by
  unfold projectVaultBalance
  rw [hasset]
  unfold served at hserved
  simp only [hserved]

/-- A read that is not served answers from the log, and the cache holds what it answered. -/
theorem projectVaultBalance_of_not_served {cache : VaultBalanceCache} {chainId : ChainId}
    {vaultId : VaultId} {assetResolver : VaultAssetResolver} {assetId : AssetId} {log : L}
    {epoch : UInt64} {now : Int64} (hasset : assetResolver chainId vaultId = .ok assetId)
    (hserved : served cache ⟨chainId, vaultId, assetId⟩ epoch now = none) :
    ∃ answer, balance answer = loggedBalance port checks log ⟨chainId, vaultId, assetId⟩ ∧
      projectVaultBalance port checks chainId vaultId assetResolver log epoch now cache =
        (answer, answer.toOption.elim (cache.get ⟨chainId, vaultId, assetId⟩ now).2 fun projection =>
          (cache.get ⟨chainId, vaultId, assetId⟩ now).2.put ⟨chainId, vaultId, assetId⟩ projection
            now) := by
  have hlogged := balance_project port checks ⟨chainId, vaultId, assetId⟩ log now
  unfold projectVaultBalance
  rw [hasset]
  unfold served at hserved
  simp only [hserved]
  cases hproject : project port checks chainId vaultId assetId log now with
  | error stop =>
    rw [hproject] at hlogged
    exact ⟨_, hlogged, rfl⟩
  | ok fresh =>
    rw [hproject] at hlogged
    refine ⟨_, ?_, rfl⟩
    exact hlogged

/-- **Reads agree with the log iff** every entry that one can be served is what the log gives. -/
theorem coherent_iff {s : State L κ} : Coherent port checks s ↔ FreshEntries port checks s := by
  constructor
  · intro h key entry hlookup hservable
    obtain ⟨epoch, now, hnow, hepoch, helapsed, hsnapshot⟩ := hservable
    have hserved : served s.substrateCache key epoch now = some entry.projection :=
      served_eq_some_iff.mpr ⟨entry, hlookup, helapsed, hsnapshot, rfl⟩
    have hread := h key.chainId key.vaultId (fun _ _ => .ok key.assetId) epoch now hnow hepoch
    rw [projectVaultBalance_of_served port checks rfl hserved] at hread
    exact (hread.trans (balance_project port checks key s.log now)).symm
  · intro h chainId vaultId assetResolver epoch now hnow hepoch
    cases hasset : assetResolver chainId vaultId with
    | error e =>
      unfold projectVaultBalance
      rw [hasset]
      rfl
    | ok assetId =>
      have hlogged := balance_project port checks ⟨chainId, vaultId, assetId⟩ s.log now
      show _ = balance (project port checks chainId vaultId assetId s.log now)
      cases hserved : served s.substrateCache ⟨chainId, vaultId, assetId⟩ epoch now with
      | none =>
        obtain ⟨answer, hanswer, hread⟩ :=
          projectVaultBalance_of_not_served port checks hasset hserved
        rw [hread, hlogged]
        exact hanswer
      | some projection =>
        obtain ⟨entry, hlookup, helapsed, hsnapshot, rfl⟩ := served_eq_some_iff.mp hserved
        have hfresh := h _ entry hlookup ⟨epoch, now, hnow, hepoch, helapsed, hsnapshot⟩
        rw [projectVaultBalance_of_served port checks hasset hserved, hlogged, hfresh]
        rfl

/-! ## Runs -/

/-- Reads come at nondecreasing times and epochs. -/
def Ordered (s : State L κ) : Action Input → Prop
  | .read _ _ _ epoch now => s.now ≤ now ∧ s.epoch ≤ epoch
  | _ => True

/-- An insert changes no balance that a later read can be served from the cache. -/
def KeepsServable (s : State L κ) : Action Input → Prop
  | .produce producer input => ∀ key entry, s.substrateCache.entries.lookup key = some entry →
      Servable s entry →
        loggedBalance port checks (producer.produce port input s.log).2.1 key =
          loggedBalance port checks s.log key
  | _ => True

theorem receive_frame (s : State L κ) (envelope : VaultProjectionInvalidationEnvelope) :
    (receive verifyDispatch s envelope).log = s.log ∧
      (receive verifyDispatch s envelope).substrateCache = s.substrateCache ∧
      (receive verifyDispatch s envelope).pending = s.pending ∧
      (receive verifyDispatch s envelope).now = s.now ∧
      (receive verifyDispatch s envelope).epoch = s.epoch := by
  unfold receive
  split <;> exact ⟨rfl, rfl, rfl, rfl, rfl⟩

/-- Time and epochs only take entries out of reach. -/
theorem Servable.mono {s t : State L κ} {entry : CacheEntry}
    (httl : t.substrateCache.ttlSeconds = s.substrateCache.ttlSeconds) (hnow : s.now ≤ t.now)
    (hepoch : s.epoch ≤ t.epoch) (h : Servable t entry) : Servable s entry := by
  obtain ⟨epoch, now, hnow', hepoch', helapsed, hsnapshot⟩ := h
  exact ⟨epoch, now, Int64.le_trans hnow hnow', UInt64.le_trans hepoch hepoch', httl ▸ helapsed,
    hsnapshot⟩

theorem freshEntries_congr {s t : State L κ} (hlog : t.log = s.log)
    (hcache : t.substrateCache = s.substrateCache) (hnow : t.now = s.now)
    (hepoch : t.epoch = s.epoch) : FreshEntries port checks t ↔ FreshEntries port checks s := by
  unfold FreshEntries Servable
  rw [hlog, hcache, hnow, hepoch]

theorem freshEntries_deliver {s : State L κ} (i : Nat) :
    FreshEntries port checks (step port checks verifyDispatch s (.deliver i : Action Input)).2 ↔
      FreshEntries port checks s := by
  rw [step]
  cases s.pending[i]? with
  | none => exact Iff.rfl
  | some envelope =>
    obtain ⟨hlog, hcache, -, hnow, hepoch⟩ :=
      receive_frame verifyDispatch { s with pending := s.pending.eraseIdx i } envelope
    exact freshEntries_congr port checks hlog hcache hnow hepoch

theorem freshEntries_read {s : State L κ} {chainId : ChainId} {vaultId : VaultId}
    {assetResolver : VaultAssetResolver} {epoch : UInt64} {now : Int64}
    (h : FreshEntries port checks s) (hnow : s.now ≤ now) (hepoch : s.epoch ≤ epoch) :
    FreshEntries port checks (step port checks verifyDispatch s
      (.read chainId vaultId assetResolver epoch now : Action Input)).2 := by
  -- what is left of the old entries is as fresh as it was
  have hkept : ∀ cache : VaultBalanceCache, cache.ttlSeconds = s.substrateCache.ttlSeconds →
      ∀ key entry, s.substrateCache.entries.lookup key = some entry →
        Servable ({ s with substrateCache := cache, now, epoch } : State L κ) entry →
          loggedBalance port checks s.log key = .ok entry.projection.projectedBalance :=
    fun cache httl key entry hlookup hservable =>
      h key entry hlookup (hservable.mono httl hnow hepoch)
  show FreshEntries port checks { s with substrateCache := (projectVaultBalance port checks chainId
    vaultId assetResolver s.log epoch now s.substrateCache).2, now, epoch }
  cases hasset : assetResolver chainId vaultId with
  | error e =>
    have hcache : (projectVaultBalance port checks chainId vaultId assetResolver s.log epoch now
        s.substrateCache).2 = s.substrateCache := by
      unfold projectVaultBalance
      rw [hasset]
    intro key entry hlookup hservable
    rw [hcache] at hlookup hservable
    exact hkept _ rfl key entry hlookup hservable
  | ok assetId =>
    have httl := ttlSeconds_get s.substrateCache ⟨chainId, vaultId, assetId⟩ now
    intro key entry hlookup hservable
    cases hserved : served s.substrateCache ⟨chainId, vaultId, assetId⟩ epoch now with
    | some projection =>
      rw [projectVaultBalance_of_served port checks hasset hserved] at hlookup hservable
      exact hkept _ httl key entry (lookup_get hlookup) hservable
    | none =>
      obtain ⟨answer, hanswer, hread⟩ :=
        projectVaultBalance_of_not_served port checks hasset hserved
      rw [hread] at hlookup hservable
      cases answer with
      | error stop => exact hkept _ httl key entry (lookup_get hlookup) hservable
      | ok projection =>
        have hput := HashMap.lookup_insert
          (s.substrateCache.get ⟨chainId, vaultId, assetId⟩ now).2.entries
          ⟨chainId, vaultId, assetId⟩ ⟨projection, now⟩ key
        by_cases hkey : key = ⟨chainId, vaultId, assetId⟩
        · rw [if_pos hkey] at hput
          cases hput.symm.trans hlookup
          rw [hkey]
          exact hanswer.symm
        · rw [if_neg hkey] at hput
          exact hkept _ httl key entry (lookup_get (hput.symm.trans hlookup)) hservable

/-- **A step keeps the entries fresh iff** it changes no balance that can be served. -/
theorem freshEntries_step_iff {s : State L κ} {a : Action Input} (h : FreshEntries port checks s)
    (hordered : Ordered s a) :
    FreshEntries port checks (step port checks verifyDispatch s a).2 ↔ KeepsServable port checks s a := by
  cases a with
  | produce producer input =>
    constructor
    · intro hstep key entry hlookup hservable
      exact (hstep key entry hlookup hservable).trans (h key entry hlookup hservable).symm
    · intro hkeeps key entry hlookup hservable
      exact (hkeeps key entry hlookup hservable).trans (h key entry hlookup hservable)
  | deliver i => exact iff_of_true ((freshEntries_deliver port checks verifyDispatch i).mpr h) trivial
  | read chainId vaultId assetResolver epoch now =>
    exact iff_of_true (freshEntries_read port checks verifyDispatch h hordered.1 hordered.2) trivial

theorem freshEntries_start (log : L) (trustKeys : HashMap String κ)
    (subscriberCache : VaultBalanceCache) (now : Int64) (epoch : UInt64) :
    FreshEntries port checks (start log trustKeys subscriberCache now epoch) :=
  fun key _ hlookup _ => nomatch (AList.lookup_empty key).symm.trans hlookup

/-- Runs that change no balance that can be served keep the entries fresh. -/
theorem freshEntries_run {s : State L κ} (h : FreshEntries port checks s)
    {actions : List (Action Input)}
    (hrun : Trace.Along (step port checks verifyDispatch)
      (fun s a => Ordered s a ∧ KeepsServable port checks s a) s actions) :
    FreshEntries port checks (Trace.final (step port checks verifyDispatch) s actions) :=
  Trace.final_of_along (FreshEntries port checks)
    (fun _ _ hgood hs => (freshEntries_step_iff port checks verifyDispatch hs hgood.1).mpr hgood.2)
    h hrun

/-- The subscriber catches up, and that changes nothing of what reads are served. -/
theorem catch_up : ∀ (n : Nat) (s : State L κ), s.pending.length = n →
    (Trace.final (step port checks verifyDispatch) s
        (List.replicate n (.deliver 0 : Action Input))).pending = [] ∧
      (FreshEntries port checks (Trace.final (step port checks verifyDispatch) s
        (List.replicate n (.deliver 0 : Action Input))) ↔ FreshEntries port checks s)
  | 0, s, h => ⟨List.eq_nil_of_length_eq_zero h, Iff.rfl⟩
  | n + 1, s, h => by
    have hpending : (step port checks verifyDispatch s (.deliver 0 : Action Input)).2.pending.length =
        n := by
      rw [step]
      cases hs : s.pending with
      | nil =>
        rw [hs] at h
        exact nomatch h
      | cons envelope rest =>
        show (receive verifyDispatch { s with pending := rest } envelope).pending.length = n
        rw [(receive_frame verifyDispatch { s with pending := rest } envelope).2.2.1]
        rw [hs] at h
        exact Nat.succ.inj h
    obtain ⟨hnil, hiff⟩ := catch_up n _ hpending
    rw [List.replicate_succ, Trace.final]
    exact ⟨hnil, hiff.trans (freshEntries_deliver port checks verifyDispatch 0)⟩

/-- **Reads agree with the log along the runs that change no balance that can be served**, and
after an insert that changes one they disagree once the subscriber has caught up. -/
theorem coherent_run :
    (∀ log trustKeys subscriberCache now epoch (actions : List (Action Input)),
      Trace.Along (step port checks verifyDispatch)
          (fun s a => Ordered s a ∧ KeepsServable port checks s a)
          (start log trustKeys subscriberCache now epoch) actions →
        Coherent port checks (Trace.final (step port checks verifyDispatch)
          (start log trustKeys subscriberCache now epoch) actions)) ∧
      ∀ (s : State L κ) (a : Action Input), Coherent port checks s → Ordered s a →
        ¬KeepsServable port checks s a →
          ∃ deliveries : List (Action Input),
            (Trace.final (step port checks verifyDispatch) (step port checks verifyDispatch s a).2
                deliveries).pending = [] ∧
              ¬Coherent port checks (Trace.final (step port checks verifyDispatch)
                (step port checks verifyDispatch s a).2 deliveries) := by
  constructor
  · intro log trustKeys subscriberCache now epoch actions hrun
    exact (coherent_iff port checks).mpr (freshEntries_run port checks verifyDispatch
      (freshEntries_start port checks log trustKeys subscriberCache now epoch) hrun)
  · intro s a hcoherent hordered hstale
    have hfresh := (coherent_iff port checks).mp hcoherent
    obtain ⟨hnil, hiff⟩ := catch_up port checks verifyDispatch _
      (step port checks verifyDispatch s a).2 rfl
    refine ⟨_, hnil, fun h => hstale ?_⟩
    exact (freshEntries_step_iff port checks verifyDispatch hfresh hordered).mp
      (hiff.mp ((coherent_iff port checks).mp h))

end Process

/-! ### A log of whole amounts -/

/-- The exact sum of the amounts, where it is a word. -/
def exactSum (events : List TransferEventRef) : Except ProjectionError Dqa :=
  if h : InI 64 (events.map (·.amount.value)).sum then .ok ⟨_, 0, h, zero_scale_lt⟩
  else .error (.logReadFailed "sum out of range")

/-- A log that keeps its events and sums them exactly. -/
def eventLog : TransferEventLog (List TransferEventRef) where
  sumToVault log chainId vaultId assetId floor := exactSum (log.filter fun e =>
    e.chainId = chainId ∧ e.toVaultId = vaultId ∧ e.assetId = assetId ∧ floor ≤ e.occurredAtUnix)
  sumFromVault log chainId vaultId assetId floor := exactSum (log.filter fun e =>
    e.chainId = chainId ∧ e.fromVaultId = vaultId ∧ e.assetId = assetId ∧ floor ≤ e.occurredAtUnix)
  maxOccurredAtUnix log chainId vaultId assetId := .ok ((log.filter fun e =>
    e.chainId = chainId ∧ (e.toVaultId = vaultId ∨ e.fromVaultId = vaultId) ∧
      e.assetId = assetId).map (·.occurredAtUnix)).max?
  insert log event := (.ok (), log ++ [event])

def id32 (b : UInt8) : Bytes32 := Vector.replicate 32 b

/-- A producer whose inputs are the events. -/
def eventProducer : EventLogProducer TransferEventRef := ⟨fun _ => .ok (), .ok⟩

/-- Five units for vault 2, out of vault 1. -/
def sampleEvent : TransferEventRef :=
  ⟨id32 9, id32 0, id32 1, id32 2, id32 7, ⟨5, 0, by decide, zero_scale_lt⟩, 1000⟩

/-- A read of a vault that holds asset 7. -/
def sampleRead (vaultId : VaultId) : Action TransferEventRef :=
  .read (id32 0) vaultId (fun _ _ => .ok (id32 7)) 0 1000

/-- A process that trusts the producer of unsigned envelopes. -/
def sampleStart : State (List TransferEventRef) Unit :=
  start [] ((∅ : HashMap String Unit).insert "" ()) (VaultBalanceCache.new 60) 1000 0

theorem coherent_sample :
    Coherent eventLog true (Trace.final (step eventLog true fun _ _ _ => true) sampleStart
      [.produce eventProducer sampleEvent, sampleRead (id32 2)]) := by
  refine (coherent_run eventLog true fun _ _ _ => true).1 _ _ _ _ _ _ ⟨⟨trivial, ?_⟩, ⟨?_, trivial⟩, trivial⟩
  · intro key entry hlookup _
    exact nomatch (AList.lookup_empty key).symm.trans hlookup
  · exact ⟨Int64.le_refl _, UInt64.le_refl _⟩

/-- The subscriber has had every envelope, and the vault still reads as it did before. -/
theorem not_coherent_sample :
    (Trace.final (step eventLog true fun _ _ _ => true) sampleStart
        [sampleRead (id32 2), .produce eventProducer sampleEvent, .deliver 0]).pending = [] ∧
      ¬Coherent eventLog true (Trace.final (step eventLog true fun _ _ _ => true) sampleStart
        [sampleRead (id32 2), .produce eventProducer sampleEvent, .deliver 0]) := by
  refine ⟨rfl, fun h => ?_⟩
  have hread := h (id32 0) (id32 2) (fun _ _ => .ok (id32 7)) 0 1000 (Int64.le_refl _)
    (UInt64.le_refl _)
  exact absurd hread (by decide)

end CipherOcto.Vault
