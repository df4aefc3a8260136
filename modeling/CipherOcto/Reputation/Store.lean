import CipherOcto.Determin.Dfp
import CipherOcto.Lib.HashMap
import CipherOcto.Lib.Trace
import CipherOcto.Reputation.Auth

/-!
# The in-memory reputation store

Events, aggregates, recorders, attestors and attestations in hash maps behind one lock;
the ids of events and recorders come from two counters. Every operation holds the lock,
so a run is a list of operations. What goes through a map in an order takes the ranking
that gives it.

The mean of the scores is computed with `f64`s and is a parameter (`ewma`), like BLAKE3
and the signature algorithms. Operations that only read the store are in the module of
the property they are about, or left out.
-/

namespace CipherOcto.Reputation

open Determin Encoding

/-! ## Records -/

inductive SignalKind where
  | outcome | latency | slash | suspension | anchor | crossLayer
deriving DecidableEq

def SignalKind.discriminant : SignalKind → Nat
  | outcome => 1
  | latency => 2
  | slash => 3
  | suspension => 4
  | anchor => 5
  | crossLayer => 6

inductive ReputationLayer where
  | consensus | market | coordinator | slash | governance
deriving DecidableEq

def ReputationLayer.discriminant : ReputationLayer → Nat
  | consensus => 1
  | market => 2
  | coordinator => 3
  | slash => 4
  | governance => 5

structure RotationProvenance where
  newDid : RecorderDid
  consumedAtUnix : Nat
  rotationId : Nat
deriving DecidableEq

/-- An event. The id is given by the store. -/
structure SignalEvent where
  eventId : Nat
  recorderDid : RecorderDid
  controllerId : Bytes32
  signalKind : SignalKind
  layer : ReputationLayer
  scoreDelta : Dfp
  recordedAtUnix : Nat
  rotationProvenance : Option RotationProvenance
  auditRef : Option (List UInt8)
  anchorTxHash : Option Bytes32
deriving DecidableEq

/-- The event under the id it is given. -/
def SignalEvent.withId (e : SignalEvent) (id : Nat) : SignalEvent := { e with eventId := id }

structure ReputationAggregate where
  recorderDid : RecorderDid
  signalKind : SignalKind
  layer : ReputationLayer
  scoreEwma : Dfp
  samples : Nat
  severityTotal : Nat
  lastEventId : Nat
  lastEventUnix : Nat
  updatedAtUnix : Nat
deriving DecidableEq

structure AttestorRegistration where
  attestorDid : Vector UInt8 52
  pubkey : Bytes32
  peerSetId : Bytes32
  requestedAtUnix : Nat
  registeredAtUnix : Nat
deriving DecidableEq

structure Attestation where
  attestationId : Nat
  attestor : Vector UInt8 52
  recorderDid : RecorderDid
  eventId : Nat
  signature : List UInt8
  observedAtUnix : Nat
  receivedAtUnix : Nat
  sourceMission : String
  sourceDomain : String
deriving DecidableEq

structure EventKey where
  didHash : Bytes32
  eventId : Nat
deriving DecidableEq

structure AggregateKey where
  didHash : Bytes32
  kind : SignalKind
  layer : ReputationLayer
deriving DecidableEq

/-- A row of the recorder table. -/
structure RecorderRow where
  recorderId : Nat
  suspended : Bool
  slashed : Bool
deriving DecidableEq

structure Store where
  events : HashMap EventKey SignalEvent
  aggregates : HashMap AggregateKey ReputationAggregate
  recorders : HashMap Bytes32 RecorderRow
  attestors : HashMap (Vector UInt8 52) AttestorRegistration
  attestations : HashMap (Vector UInt8 52 × Nat) Attestation
  nextAttestationId : Nat
  nextEventId : Nat
  nextRecorderId : Nat

def Store.new : Store := ⟨∅, ∅, ∅, ∅, ∅, 0, 0, 0⟩

/-- `saturating_add(1)` of a `u64`. -/
def saturatingSucc (n : Nat) : Nat := min (n + 1) (2 ^ 64 - 1)

/-! ## Operations -/

/-- What the source is handed from outside: BLAKE3, the registered signature algorithms,
and the running mean of a score from its value, the samples in it and the next one. -/
structure Env where
  blake3 : List UInt8 → Bytes32
  verifyDispatch : VerifyDispatch
  ewma : Dfp → Nat → Dfp → Dfp

/-- `did_hash`. -/
def Env.didHash (env : Env) (did : RecorderDid) : Bytes32 := env.blake3 did.toList

/-- The BLAKE3 digest of 52 bytes 0xAA. -/
def sampleDidHash : Bytes32 :=
  #v[244, 229, 155, 46, 165, 170, 138, 27, 148, 237, 140, 102, 71, 78, 199, 170,
    30, 68, 120, 180, 104, 88, 49, 232, 60, 111, 19, 193, 68, 157, 234, 5]

def Env.eventKey (env : Env) (e : SignalEvent) : EventKey := ⟨env.didHash e.recorderDid, e.eventId⟩

def Env.aggregateKey (env : Env) (e : SignalEvent) : AggregateKey :=
  ⟨env.didHash e.recorderDid, e.signalKind, e.layer⟩

/-- The aggregate an event of a new key starts from. -/
def ReputationAggregate.start (e : SignalEvent) : ReputationAggregate where
  recorderDid := e.recorderDid
  signalKind := e.signalKind
  layer := e.layer
  scoreEwma := Dfp.zero
  samples := 0
  severityTotal := 0
  lastEventId := e.eventId
  lastEventUnix := e.recordedAtUnix
  updatedAtUnix := e.recordedAtUnix

/-- The aggregate with one more event. -/
def ReputationAggregate.update (env : Env) (agg : ReputationAggregate) (e : SignalEvent) :
    ReputationAggregate :=
  { agg with
    scoreEwma := env.ewma agg.scoreEwma agg.samples e.scoreDelta
    samples := (agg.samples + 1) % 2 ^ 64
    severityTotal :=
      if e.signalKind = .slash then saturatingSucc agg.severityTotal else agg.severityTotal
    lastEventId := e.eventId
    lastEventUnix := e.recordedAtUnix
    updatedAtUnix := e.recordedAtUnix }

inductive Reply where
  | eventId (id : Nat)
  | pruned (count : Nat)
  | recorderId (id : Nat)
  | attestorId (did : Vector UInt8 52)
  | attestationId (id : Nat)
  | done
deriving DecidableEq

abbrev Answer := Except ReputationError Reply

namespace Store

variable (env : Env)

/-- `record_signal`. The counter is a `u64` and wraps. -/
def recordSignal (s : Store) (event : SignalEvent) : Answer × Store :=
  let event := event.withId s.nextEventId
  let key := env.aggregateKey event
  let agg := (s.aggregates.lookup key).getD (.start event)
  (.ok (.eventId event.eventId),
    { s with
      events := s.events.insert (env.eventKey event) event
      aggregates := s.aggregates.insert key (agg.update env event)
      nextEventId := (s.nextEventId + 1) % 2 ^ 64 })

/-- `retention_prune`. -/
def retentionPrune (s : Store) (cutoffUnix nowUnix : Nat) : Answer × Store :=
  if cutoffUnix > nowUnix then (.error .retentionCutoffFuture, s)
  else
    let kept := s.events.retain fun _ e => cutoffUnix < e.recordedAtUnix
    (.ok (.pruned (s.events.entries.length - kept.entries.length)), { s with events := kept })

/-- `prune_event`. -/
def pruneEvent (s : Store) (eventId : Nat) : Answer × Store :=
  (.ok .done, { s with events := s.events.retain fun k _ => k.eventId ≠ eventId })

/-- `register_recorder`. The row of the DID is written anew. -/
def registerRecorder (s : Store) (cr : ChainRef) : Answer × Store :=
  match verifyRegistration cr with
  | .error e => (.error e, s)
  | .ok () =>
    (.ok (.recorderId s.nextRecorderId),
      { s with
        recorders := s.recorders.insert (env.didHash cr.recorderDid) ⟨s.nextRecorderId, false, false⟩
        nextRecorderId := (s.nextRecorderId + 1) % 2 ^ 64 })

/-- The row the loop of `suspend_recorder` stops at. -/
def findRecorder (s : Store) (order : Bytes32 → Nat) (recorderId : Nat) :
    Option (Bytes32 × RecorderRow) :=
  (s.recorders.iterate order).find? fun row => row.2.recorderId = recorderId

/-- `suspend_recorder`. -/
def suspendRecorder (s : Store) (order : Bytes32 → Nat) (recorderId : Nat) (auth : SuspensionAuth)
    (nowUnix : Nat) : Answer × Store :=
  match verifyGovernanceSuspension env.blake3 env.verifyDispatch auth auth.snapshot nowUnix with
  | .error e => (.error e, s)
  | .ok () =>
    match s.findRecorder order recorderId with
    | none => (.error (.recorderNotRegistered recorderId), s)
    | some (key, row) =>
      (.ok .done, { s with recorders := s.recorders.insert key { row with suspended := true } })

/-- `register_attestor`. -/
def registerAttestor (s : Store) (r : AttestorRegistration) : Answer × Store :=
  if r.attestorDid = Vector.replicate 52 0 then
    (.error (.recorderDidMalformed "attestor did must not be all-zero"), s)
  else if r.pubkey = Vector.replicate 32 0 then
    (.error (.gossipEnvelopeInvalid "attestor_pubkey_zero"), s)
  else
    (.ok (.attestorId r.attestorDid), { s with attestors := s.attestors.insert r.attestorDid r })

/-- `record_attestation`. -/
def recordAttestation (s : Store) (a : Attestation) : Answer × Store :=
  match s.attestations.lookup (a.attestor, a.eventId) with
  | some existing => (.ok (.attestationId existing.attestationId), s)
  | none =>
    let id := s.nextAttestationId
    (.ok (.attestationId id),
      { s with
        attestations :=
          s.attestations.insert (a.attestor, a.eventId) { a with attestationId := id }
        nextAttestationId := (id + 1) % 2 ^ 64 })

/-- `set_event_anchor_tx_hash`. -/
def setEventAnchorTxHash (s : Store) (eventId : Nat) (hash : Bytes32) : Answer × Store :=
  match s.events.pairs.filter fun e => e.1.eventId = eventId with
  | [] => (.error (.chainRefInvalid "set_event_anchor_tx_hash:event_not_found"), s)
  | [(key, event)] =>
    match event.anchorTxHash with
    | some existing =>
      if existing ≠ hash then
        (.error (.chainRefInvalid "set_event_anchor_tx_hash:anchor_already_set"), s)
      else (.ok .done, s)
    | none =>
      (.ok .done, { s with events := s.events.insert key { event with anchorTxHash := some hash } })
  | _ => (.error (.chainRefInvalid "set_event_anchor_tx_hash:ambiguous_event_id"), s)

end Store

/-- The operations that take the lock for writing, and `slash_recorder`. -/
inductive Op where
  | recordSignal (event : SignalEvent)
  | retentionPrune (cutoffUnix nowUnix : Nat)
  | pruneEvent (eventId : Nat)
  | registerRecorder (chainRef : ChainRef)
  | suspendRecorder (order : Bytes32 → Nat) (recorderId : Nat) (auth : SuspensionAuth)
      (nowUnix : Nat)
  | slashRecorder (proof : GovernanceProof) (nowUnix : Nat)
  | registerAttestor (registration : AttestorRegistration)
  | recordAttestation (attestation : Attestation)
  | setEventAnchorTxHash (eventId : Nat) (anchorTxHash : Bytes32)

/-- One operation of a run. -/
def Store.step (env : Env) (s : Store) : Op → Answer × Store
  | .recordSignal event => s.recordSignal env event
  | .retentionPrune cutoffUnix nowUnix => s.retentionPrune cutoffUnix nowUnix
  | .pruneEvent eventId => s.pruneEvent eventId
  | .registerRecorder chainRef => s.registerRecorder env chainRef
  | .suspendRecorder order recorderId auth nowUnix =>
    s.suspendRecorder env order recorderId auth nowUnix
  | .slashRecorder proof nowUnix =>
    ((slashRecorder env.blake3 env.verifyDispatch proof nowUnix).map fun () => .done, s)
  | .registerAttestor registration => s.registerAttestor registration
  | .recordAttestation attestation => s.recordAttestation attestation
  | .setEventAnchorTxHash eventId anchorTxHash => s.setEventAnchorTxHash eventId anchorTxHash

end CipherOcto.Reputation
