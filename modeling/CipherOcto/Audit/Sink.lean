import Mathlib.Data.List.Chain
import CipherOcto.Lib.Hex
import CipherOcto.Lib.Since
import CipherOcto.Audit.Chain

/-!
# The audit sink

Events are appended to one table, which outlives the processes that write to it. A caller
may append an event it has made itself; the transitions of agents are made into events here,
with the next id, and with the last hash that this process has appended. A store may fail at
any call.

> `verifyChain_log_iff`: which logs are accepted again, over all runs.
> `next_link_iff`: after which runs a transition names the hash of the event before it.
-/

namespace CipherOcto.Audit

open Machine Trace CipherOcto.Encoding

/-! ## The table -/

inductive AuditError where
  | sequenceGap (eventId prev : UInt64)
  | alreadyExists (eventId : UInt64)
  | sinkSpecific (message : String)
  | chainHashMismatch (eventId : UInt64)
  deriving DecidableEq, Repr

/-- A failure of the store, with its redacted text: of a query, or of an insert that found no
row in its place. -/
inductive Fault where
  | query (message : String)
  | insert (message : String)
  deriving DecidableEq, Repr

/-- The sink by the events it has inserted. -/
structure StoolapAuditSink where
  events : List AuditEvent

/-- `event_id as i64`, the primary key. -/
def storedId (event : AuditEvent) : Int := Bytes.signed 64 event.eventId.toNat

namespace StoolapAuditSink

/-- `SELECT MAX(event_id)`. -/
def maxEventId (sink : StoolapAuditSink) : Option Int := (sink.events.map storedId).max?

/-- A predecessor asks for its successor. -/
def checkSuccessor (lastId : Option Int) (event : AuditEvent) : Except AuditError Unit :=
  match lastId with
  | none => .ok ()
  | some prev =>
    -- `prev.max(0) as u64`
    if event.eventId.toNat = prev.toNat then .error (.alreadyExists event.eventId)
    else if event.eventId.toNat ≠ prev.toNat + 1 then
      .error (.sequenceGap event.eventId (UInt64.ofNat prev.toNat))
    else .ok ()

def insert (sink : StoolapAuditSink) (event : AuditEvent) (fault : Option Fault) :
    Except AuditError Unit × StoolapAuditSink :=
  if storedId event ∈ sink.events.map storedId then (.error (.alreadyExists event.eventId), sink)
  else
    match fault with
    | some (.insert message) => (.error (.sinkSpecific message), sink)
    | _ => (.ok (), ⟨sink.events ++ [event]⟩)

def append (blake3 : List UInt8 → Bytes32) (sink : StoolapAuditSink) (event : AuditEvent)
    (fault : Option Fault) : Except AuditError Unit × StoolapAuditSink :=
  match fault with
  | some (.query message) => (.error (.sinkSpecific message), sink)
  | _ =>
    match checkSuccessor sink.maxEventId event with
    | .error err => (.error err, sink)
    | .ok _ =>
      if event.chainHash ≠ computeChainHash blake3 event then
        (.error (.sinkSpecific s!"chain_hash mismatch at event_id {event.eventId}"), sink)
      else sink.insert event fault

def lastEventId (sink : StoolapAuditSink) (fault : Option Fault) :
    Except AuditError (Option UInt64) :=
  match fault with
  | some (.query message) => .error (.sinkSpecific message)
  | _ => .ok (sink.maxEventId.map UInt64.ofInt)

end StoolapAuditSink

/-! ## The processes -/

abbrev Uuid := Vector UInt8 16

/-- The hyphenated form, in groups of 8, 4, 4, 4 and 12 digits. -/
def Uuid.text (u : Uuid) : List Char :=
  let digits := Hex.encode u.toList
  digits.take 8 ++ '-' :: (digits.drop 8).take 4 ++ '-' :: (digits.drop 12).take 4 ++
    '-' :: (digits.drop 16).take 4 ++ '-' :: digits.drop 20

def Uuid.toString (u : Uuid) : String := String.ofList (Uuid.text u)

structure AgentTransitionPayload where
  agentId : Uuid
  fromState : String
  toState : String
  reason : Option String
  deriving DecidableEq

/-- The sink, and what the process holds: whether the sink is registered, the last hash it has
appended, and whether a panic has poisoned its lock. -/
structure AuditLog where
  sink : StoolapAuditSink
  registered : Bool
  lastChainHash : Option Bytes32
  poisoned : Bool

def zeroHash : Bytes32 := Vector.replicate 32 0

/-- `secs.saturating_mul(1000)`. -/
def millisOfSecs (secs : UInt64) : UInt64 := UInt64.ofNat (min (secs.toNat * 1000) (2 ^ 64 - 1))

namespace AuditLog

/-- No event, and no process. -/
def new : AuditLog := ⟨⟨[]⟩, false, none, false⟩

/-- The event of a transition: it is under the agent's identifier, and bound to no capability. -/
def transitionEvent (blake3 : List UInt8 → Bytes32) (log : AuditLog) (eventId : UInt64)
    (payload : AgentTransitionPayload) (secs : UInt64) : AuditEvent :=
  let event : AuditEvent :=
    { eventId
      nodeDid := payload.agentId.toString
      eventKind := .agentTransition payload.agentId.toString payload.fromState payload.toState
        payload.reason
      capRootHash := zeroHash
      atMillisUnix := millisOfSecs secs
      prevChainHash := log.lastChainHash.getD zeroHash
      chainHash := zeroHash }
  { event with chainHash := computeChainHash blake3 event }

/-- `id + 1` is arithmetic on `u64`. -/
def nextEventId (checks : Bool) (lastId : Option UInt64) : Run AuditError UInt64 :=
  match lastId with
  | none => .ok 0
  | some id => (build checks (addU 64 id.toNat 1)).map UInt64.ofNat

def appendAuditEvent (blake3 : List UInt8 → Bytes32) (log : AuditLog) (event : AuditEvent)
    (fault : Option Fault) : Run AuditError Bytes32 × AuditLog :=
  if event.chainHash ≠ computeChainHash blake3 event then
    (.error (.err (.chainHashMismatch event.eventId)), log)
  else
    match log.sink.append blake3 event fault with
    | (.error err, sink) => (.error (.err err), { log with sink })
    | (.ok _, sink) => (.ok (computeChainHash blake3 event), { log with sink })

/-- A panic between taking the lock and releasing it poisons it. -/
def appendAgentTransitionEvent (checks : Bool) (blake3 : List UInt8 → Bytes32) (log : AuditLog)
    (payload : AgentTransitionPayload) (secs : UInt64) (fault : Option Fault) :
    Run AuditError Bytes32 × AuditLog :=
  if !log.registered then
    (.error (.err (.sinkSpecific
      "audit chain sink not configured (call register_audit_sink at startup)")), log)
  else if log.poisoned then
    (.error (.err (.sinkSpecific "audit chain sink mutex poisoned")), log)
  else
    match log.sink.lastEventId fault with
    | .error err => (.error (.err err), log)
    | .ok lastId =>
      match nextEventId checks lastId with
      | .error (.err err) => (.error (.err err), log)
      | .error .panic => (.error .panic, { log with poisoned := true })
      | .ok eventId =>
        let event := log.transitionEvent blake3 eventId payload secs
        match log.sink.append blake3 event fault with
        | (.error err, sink) => (.error (.err err), { log with sink })
        | (.ok _, sink) =>
          (.ok event.chainHash, { log with sink, lastChainHash := some event.chainHash })

/-- Only the first registration of a process counts. -/
def registerAuditSink (log : AuditLog) : Bool × AuditLog :=
  (!log.registered, { log with registered := true })

/-- A new process, over the same table. -/
def restart (log : AuditLog) : AuditLog := ⟨log.sink, false, none, false⟩

end AuditLog

/-! ## Runs -/

inductive Call where
  | registerAuditSink
  | appendAuditEvent (event : AuditEvent) (fault : Option Fault)
  | appendAgentTransitionEvent (payload : AgentTransitionPayload) (secs : UInt64)
      (fault : Option Fault)
  | restart

inductive Answer where
  | registered (first : Bool)
  | appended (result : Run AuditError Bytes32)
  | restarted

def call (checks : Bool) (blake3 : List UInt8 → Bytes32) (log : AuditLog) :
    Call → Answer × AuditLog
  | .registerAuditSink => (.registered log.registerAuditSink.1, log.registerAuditSink.2)
  | .appendAuditEvent event fault =>
    (.appended (log.appendAuditEvent blake3 event fault).1,
      (log.appendAuditEvent blake3 event fault).2)
  | .appendAgentTransitionEvent payload secs fault =>
    (.appended (log.appendAgentTransitionEvent checks blake3 payload secs fault).1,
      (log.appendAgentTransitionEvent checks blake3 payload secs fault).2)
  | .restart => (.restarted, log.restart)

section

/-- What the table takes: a successor, under its own hash, and under an id of its own. -/
structure Fits (blake3 : List UInt8 → Bytes32) (sink : StoolapAuditSink) (event : AuditEvent) :
    Prop where
  successor : ∀ prev, sink.maxEventId = some prev → event.eventId.toNat = prev.toNat + 1
  hash : event.chainHash = computeChainHash blake3 event
  fresh : storedId event ∉ sink.events.map storedId

theorem checkSuccessor_eq_ok {lastId : Option Int} {event : AuditEvent} :
    StoolapAuditSink.checkSuccessor lastId event = .ok () ↔
      ∀ prev, lastId = some prev → event.eventId.toNat = prev.toNat + 1 := by
  cases lastId with
  | none => exact iff_of_true rfl fun prev h => by cases h
  | some prev =>
    unfold StoolapAuditSink.checkSuccessor
    simp only [Option.some.injEq, forall_eq']
    split_ifs with hsame hnext
    · exact iff_of_false (by intro h; cases h) (by omega)
    · exact iff_of_false (by intro h; cases h) hnext
    · exact iff_of_true rfl (not_not.mp hnext)

variable (checks : Bool) (blake3 : List UInt8 → Bytes32)

/-- An append inserts what fits, or fails and changes nothing. -/
theorem append_cases (sink : StoolapAuditSink) (event : AuditEvent) (fault : Option Fault) :
    (∃ err, sink.append blake3 event fault = (.error err, sink)) ∨
      sink.append blake3 event fault = (.ok (), ⟨sink.events ++ [event]⟩) ∧
        Fits blake3 sink event := by
  unfold StoolapAuditSink.append
  split
  next message => exact .inl ⟨_, rfl⟩
  next =>
    cases hcheck : StoolapAuditSink.checkSuccessor sink.maxEventId event with
    | error err => exact .inl ⟨err, rfl⟩
    | ok u =>
      by_cases hhash : event.chainHash ≠ computeChainHash blake3 event
      · exact .inl ⟨_, if_pos hhash⟩
      simp only [if_neg hhash]
      unfold StoolapAuditSink.insert
      -- an id that its successor check let through may still be a taken key
      by_cases htaken : storedId event ∈ sink.events.map storedId
      · exact .inl ⟨_, if_pos htaken⟩
      rw [if_neg htaken]
      split
      next => exact .inl ⟨_, rfl⟩
      next => exact .inr ⟨rfl, checkSuccessor_eq_ok.mp hcheck, not_not.mp hhash, htaken⟩

/-- What an event appended by its caller does to the log. -/
theorem appendAuditEvent_cases (log : AuditLog) (event : AuditEvent) (fault : Option Fault) :
    (∃ err, log.appendAuditEvent blake3 event fault = (.error err, log)) ∨
      log.appendAuditEvent blake3 event fault =
          (.ok event.chainHash, { log with sink := ⟨log.sink.events ++ [event]⟩ }) ∧
        Fits blake3 log.sink event := by
  unfold AuditLog.appendAuditEvent
  by_cases hhash : event.chainHash ≠ computeChainHash blake3 event
  · exact .inl ⟨_, if_pos hhash⟩
  rw [if_neg hhash]
  rcases append_cases blake3 log.sink event fault with ⟨err, herr⟩ | ⟨hok, hfits⟩
  · exact .inl ⟨.err err, by rw [herr]⟩
  · exact .inr ⟨by rw [hok, hfits.hash], hfits⟩

/-- What a transition does to the log: it poisons the lock, or appends its event, or nothing. -/
theorem appendAgentTransitionEvent_cases (log : AuditLog) (payload : AgentTransitionPayload)
    (secs : UInt64) (fault : Option Fault) :
    (∃ r poisoned, log.appendAgentTransitionEvent checks blake3 payload secs fault =
        (.error r, { log with poisoned })) ∨
      ∃ eventId, log.appendAgentTransitionEvent checks blake3 payload secs fault =
          (.ok (log.transitionEvent blake3 eventId payload secs).chainHash,
            { log with
              sink := ⟨log.sink.events ++ [log.transitionEvent blake3 eventId payload secs]⟩
              lastChainHash := some (log.transitionEvent blake3 eventId payload secs).chainHash }) ∧
        Fits blake3 log.sink (log.transitionEvent blake3 eventId payload secs) := by
  unfold AuditLog.appendAgentTransitionEvent
  split
  next => exact .inl ⟨_, log.poisoned, rfl⟩
  next =>
    split
    next => exact .inl ⟨_, log.poisoned, rfl⟩
    next =>
      split
      next => exact .inl ⟨_, log.poisoned, rfl⟩
      next lastId _ =>
        split
        next => exact .inl ⟨_, log.poisoned, rfl⟩
        next => exact .inl ⟨_, true, rfl⟩
        next eventId _ =>
          rcases append_cases blake3 log.sink
            (log.transitionEvent blake3 eventId payload secs) fault with
            ⟨err, herr⟩ | ⟨hok, hfits⟩
          · exact .inl ⟨.err err, log.poisoned, by simp only [herr]⟩
          · exact .inr ⟨eventId, by simp only [hok], hfits⟩

/-- What a call does to the table. -/
theorem call_cases (log : AuditLog) (c : Call) :
    (call checks blake3 log c).2.sink = log.sink ∨
      ∃ event, (call checks blake3 log c).2.sink = ⟨log.sink.events ++ [event]⟩ ∧
        Fits blake3 log.sink event := by
  cases c with
  | registerAuditSink => exact .inl rfl
  | restart => exact .inl rfl
  | appendAuditEvent event fault =>
    rcases appendAuditEvent_cases blake3 log event fault with ⟨err, herr⟩ | ⟨hok, hfits⟩
    · exact .inl (congrArg (fun x => x.2.sink) herr)
    · exact .inr ⟨event, congrArg (fun x => x.2.sink) hok, hfits⟩
  | appendAgentTransitionEvent payload secs fault =>
    rcases appendAgentTransitionEvent_cases checks blake3 log payload secs
      fault with ⟨r, poisoned, herr⟩ | ⟨eventId, hok, hfits⟩
    · exact .inl (congrArg (fun x => x.2.sink) herr)
    · exact .inr ⟨_, congrArg (fun x => x.2.sink) hok, hfits⟩

end

/-! ## The ids of a log -/

def ids (events : List AuditEvent) : List Nat := events.map (·.eventId.toNat)

theorem ids_cons (e : AuditEvent) (events : List AuditEvent) :
    ids (e :: events) = e.eventId.toNat :: ids events := rfl

/-- Ids count up from the first one. A first id that the key column holds as a negative number
counts as zero, and the last id of all is the first that it holds so. -/
def Numbered (events : List AuditEvent) : Prop :=
  ∃ pre a n, ids events = pre ++ List.range' a n ∧ a < 2 ^ 63 ∧ a + n ≤ 2 ^ 63 + 1 ∧
    (pre = [] ∨ a = 1 ∧ ∃ f, 2 ^ 63 ≤ f ∧ pre = [f])

theorem signed_of_ge {n : Nat} (h : 2 ^ 63 ≤ n) (h' : n < 2 ^ 64) :
    Bytes.signed 64 n = n - 2 ^ 64 := by
  have hmod : ((n : Int) % (2 ^ 64 : Nat)) = n := Int.emod_eq_of_lt (by omega) (by exact_mod_cast h')
  rw [Bytes.signed, Int.bmod_def, hmod, if_neg (by norm_num; omega)]
  norm_num

theorem map_storedId (events : List AuditEvent) :
    events.map storedId = (ids events).map (Bytes.signed 64) := by
  simp only [ids, List.map_map, Function.comp_def]
  unfold storedId
  rfl

/-- The highest key of a log that counts up. -/
theorem maxEventId_eq {events : List AuditEvent} {pre : List Nat} {a n : Nat}
    (hids : ids events = pre ++ List.range' a (n + 1)) (ha : a < 2 ^ 63)
    (hn : a + (n + 1) ≤ 2 ^ 63 + 1) (hpre : pre = [] ∨ a = 1 ∧ ∃ f, 2 ^ 63 ≤ f ∧ pre = [f]) :
    (⟨events⟩ : StoolapAuditSink).maxEventId = some ((min (a + n) (2 ^ 63 - 1) : Nat) : Int) := by
  rw [StoolapAuditSink.maxEventId, map_storedId, List.max?_eq_some_iff]
  constructor
  · refine List.mem_map.mpr ⟨min (a + n) (2 ^ 63 - 1), ?_, ?_⟩
    · rw [hids]
      refine List.mem_append_right _ (List.mem_range'_1.mpr ?_)
      omega
    · exact Bytes.signed_of_lt (by norm_num) (by omega)
  · intro x hx
    obtain ⟨i, hi, rfl⟩ := List.mem_map.mp hx
    have hlt : i < 2 ^ 64 := by
      obtain ⟨e, -, rfl⟩ := List.mem_map.mp hi
      exact e.eventId.toNat_lt
    -- an id from the upper half has a negative key, below all others
    rcases Nat.lt_or_ge i (2 ^ 63) with hsmall | hlarge
    · rw [Bytes.signed_of_lt (by norm_num) hsmall, Int.ofNat_le]
      rw [hids] at hi
      rcases List.mem_append.mp hi with hi | hi
      · rcases hpre with rfl | ⟨-, f, hf, rfl⟩
        · cases hi
        · rw [List.mem_singleton.mp hi] at hsmall
          omega
      · have hrange := List.mem_range'_1.mp hi
        omega
    · rw [signed_of_ge hlarge hlt]
      omega

theorem Numbered.append {blake3 : List UInt8 → Bytes32} {events : List AuditEvent}
    (h : Numbered events) {e : AuditEvent} (hfits : Fits blake3 ⟨events⟩ e) :
    Numbered (events ++ [e]) := by
  obtain ⟨pre, a, n, hids, ha, hn, hpre⟩ := h
  have happend : ids (events ++ [e]) = ids events ++ [e.eventId.toNat] := List.map_append
  cases n with
  | zero =>
    rw [List.range'_zero, List.append_nil] at hids
    rcases hpre with rfl | ⟨rfl, f, hf, rfl⟩
    · -- the first event of the log
      rw [hids] at happend
      rcases Nat.lt_or_ge e.eventId.toNat (2 ^ 63) with hsmall | hlarge
      · exact ⟨[], e.eventId.toNat, 1, by rw [happend, List.range'_one], hsmall, by omega, .inl rfl⟩
      · exact ⟨[e.eventId.toNat], 1, 0, by rw [happend]; rfl, by norm_num, by norm_num,
          .inr ⟨rfl, _, hlarge, rfl⟩⟩
    · -- the event after one whose key is negative
      have hlt : f < 2 ^ 64 := by
        have hmem : f ∈ ids events := by rw [hids]; exact List.mem_singleton_self f
        obtain ⟨e', -, rfl⟩ := List.mem_map.mp hmem
        exact e'.eventId.toNat_lt
      have hmax : (⟨events⟩ : StoolapAuditSink).maxEventId = some ((f : Int) - 2 ^ 64) := by
        rw [StoolapAuditSink.maxEventId, map_storedId, hids, List.map_singleton,
          signed_of_ge hf hlt, List.max?_singleton]
      have hnext := hfits.successor _ hmax
      rw [Int.toNat_of_nonpos (by omega)] at hnext
      exact ⟨[f], 1, 1, by rw [happend, hids, hnext]; rfl, by norm_num, by norm_num,
        .inr ⟨rfl, f, hf, rfl⟩⟩
  | succ n =>
    have hmax := maxEventId_eq hids ha hn hpre
    have hnext := hfits.successor _ hmax
    rw [Int.toNat_natCast] at hnext
    rcases Nat.lt_or_ge (a + n) (2 ^ 63) with hroom | hfull
    · refine ⟨pre, a, n + 2, ?_, ha, by omega, hpre⟩
      rw [happend, hids, hnext, List.append_assoc, List.range'_1_concat (n := n + 1)]
      congr 3
      omega
    · -- the key of the next id is taken
      refine absurd ?_ hfits.fresh
      rw [map_storedId, storedId, hids, hnext]
      refine List.mem_map_of_mem (List.mem_append_right _ (List.mem_range'_1.mpr ?_))
      omega

/-- One event is before another by its time. -/
def Earlier (e f : AuditEvent) : Prop := e.atMillisUnix < f.atMillisUnix

instance transEarlier : Trans Earlier Earlier Earlier := ⟨UInt64.lt_trans⟩

/-- Where the ids count up, only the times are left to check. -/
theorem isChain_iff_of_range {checks : Bool} {events : List AuditEvent} :
    ∀ {a n : Nat}, ids events = List.range' a n → a + n ≤ 2 ^ 63 + 1 →
      (events.IsChain (Follows checks) ↔ events.IsChain Earlier) := by
  induction events with
  | nil => exact fun _ _ => iff_of_true .nil .nil
  | cons e events ih =>
    intro a n hids hn
    cases n with
    | zero => cases hids
    | succ n =>
      rw [List.range'_succ, ids_cons] at hids
      obtain ⟨he, hrest⟩ := List.cons.inj hids
      cases events with
      | nil => exact iff_of_true (.singleton e) (.singleton e)
      | cons f events =>
        have hcount := ih hrest (by omega)
        cases n with
        | zero => cases hrest
        | succ n =>
          rw [List.range'_succ, ids_cons] at hrest
          obtain ⟨hf, -⟩ := List.cons.inj hrest
          rw [List.isChain_cons_cons, List.isChain_cons_cons, hcount]
          refine and_congr_left fun _ => ⟨fun h => h.2.2, fun h => ⟨fun _ => ?_, ?_, h⟩⟩
          · rw [he]
            omega
          · rw [hf, he, Nat.mod_eq_of_lt (by omega)]

/-- A log that counts up is accepted iff its times ascend, and its first id is no negative key
that another event came after. -/
theorem Numbered.isChain_iff {checks : Bool} {events : List AuditEvent} (h : Numbered events) :
    events.IsChain (Follows checks) ↔
      events.Pairwise Earlier ∧
        (events.length ≤ 1 ∨ ∀ e ∈ events.head?, e.eventId.toNat < 2 ^ 63) := by
  obtain ⟨pre, a, n, hids, ha, hn, hpre⟩ := h
  rcases hpre with rfl | ⟨rfl, f, hf, rfl⟩
  · rw [isChain_iff_of_range hids hn, List.isChain_iff_pairwise]
    refine (and_iff_left (.inr fun e he => ?_)).symm
    obtain ⟨rest, rfl⟩ := List.head?_eq_some_iff.mp he
    cases n with
    | zero => cases hids
    | succ n =>
      rw [List.nil_append, List.range'_succ, ids_cons] at hids
      rw [(List.cons.inj hids).1]
      exact ha
  · cases events with
    | nil => cases hids
    | cons e events =>
      rw [ids_cons, List.singleton_append] at hids
      obtain ⟨he, hrest⟩ := List.cons.inj hids
      cases events with
      | nil => exact iff_of_true (.singleton e) ⟨List.pairwise_singleton _ e, .inl le_rfl⟩
      | cons e' events =>
        cases n with
        | zero => cases hrest
        | succ n =>
          rw [List.range'_succ, ids_cons] at hrest
          obtain ⟨he', -⟩ := List.cons.inj hrest
          refine iff_of_false (fun hchain => ?_) ?_
          · -- the second id is one, whatever the first
            have hnext := (List.isChain_cons_cons.mp hchain).1.2.1
            have hlt := e.eventId.toNat_lt
            rw [he, he'] at hnext
            rw [he] at hlt
            omega
          · rintro ⟨-, hshort | hsmall⟩
            · exact absurd hshort (by simp)
            · exact absurd (hsmall e rfl) (by rw [he]; omega)

/-- The events of the table after a run. -/
def logOf (checks : Bool) (blake3 : List UInt8 → Bytes32) (calls : List Call) :
    List AuditEvent :=
  (final (call checks blake3) AuditLog.new calls).sink.events

theorem log_induct {checks : Bool} {blake3 : List UInt8 → Bytes32} {P : List AuditEvent → Prop}
    (hnil : P []) (hnext : ∀ events e, P events → Fits blake3 ⟨events⟩ e → P (events ++ [e]))
    (calls : List Call) : P (logOf checks blake3 calls) := by
  refine run_induct (fun (_ : List (Call × Answer)) (log : AuditLog) => P log.sink.events)
    hnil ?_ calls
  rintro - log c hlog
  rcases call_cases checks blake3 log c with hsame | ⟨e, happend, hfits⟩
  · rwa [hsame]
  · rw [happend]
    exact hnext _ e hlog hfits

/-- **What was appended is accepted again**, whoever appended it and whatever failed, iff the
times of its events ascend and its first id fits the key column, or has been the only one. The
table itself checks neither. -/
theorem verifyChain_log_iff (checks : Bool) (blake3 : List UInt8 → Bytes32) (calls : List Call) :
    verifyChain checks blake3 (logOf checks blake3 calls) = .ok () ↔
      (logOf checks blake3 calls).Pairwise Earlier ∧
        ((logOf checks blake3 calls).length ≤ 1 ∨
          ∀ e ∈ (logOf checks blake3 calls).head?, e.eventId.toNat < 2 ^ 63) := by
  have hnumbered : Numbered (logOf checks blake3 calls) :=
    log_induct ⟨[], 0, 0, rfl, by norm_num, by norm_num, .inl rfl⟩
      (fun events e h hfits => h.append hfits) calls
  have hhash : ∀ e ∈ logOf checks blake3 calls, e.chainHash = computeChainHash blake3 e := by
    refine log_induct (P := fun events => ∀ e ∈ events, e.chainHash = computeChainHash blake3 e)
      (fun e he => absurd he List.not_mem_nil) ?_ calls
    intro events e h hfits e' he'
    rcases List.mem_append.mp he' with he' | he'
    · exact h e' he'
    · rw [List.mem_singleton.mp he']
      exact hfits.hash
  rw [verifyChain_eq_ok_iff, and_iff_right hhash]
  exact hnumbered.isChain_iff

/-! ## Links -/

section

variable (checks : Bool) (blake3 : List UInt8 → Bytes32)

def hashes (events : List AuditEvent) : List Bytes32 := events.map (·.chainHash)

theorem hashes_append (events : List AuditEvent) (e : AuditEvent) :
    hashes (events ++ [e]) = hashes events ++ [e.chainHash] := List.map_append

/-- The hash that a log ends with, zero where it is empty. -/
def lastHash (events : List AuditEvent) : Bytes32 := (hashes events).getLast?.getD zeroHash

theorem lastHash_append (events : List AuditEvent) (e : AuditEvent) :
    lastHash (events ++ [e]) = e.chainHash := by
  rw [lastHash, hashes_append, List.getLast?_concat, Option.getD_some]

theorem lastHash_mem {events : List AuditEvent} (h : events ≠ []) :
    lastHash events ∈ hashes events := by
  have hne : hashes events ≠ [] := fun hnil => h (List.map_eq_nil_iff.mp hnil)
  rw [lastHash, List.getLast?_eq_some_getLast hne, Option.getD_some]
  exact List.getLast_mem hne

/-- The hash that the next transition names as that of the event before it. -/
def AuditLog.prevHash (log : AuditLog) : Bytes32 := log.lastChainHash.getD zeroHash

/-- There is a last event, and the next transition will name its hash. -/
def AuditLog.Linked (log : AuditLog) : Prop :=
  log.sink.events ≠ [] ∧ log.prevHash = lastHash log.sink.events

/-- The call appends a transition. -/
def Links (log : AuditLog) : Call → Prop
  | .appendAgentTransitionEvent payload secs fault =>
    ∃ hash, (log.appendAgentTransitionEvent checks blake3 payload secs fault).1 = .ok hash
  | _ => False

/-- The call is neither a new process nor an event that its caller appends. -/
def KeepsLink (log : AuditLog) : Call → Prop
  | .appendAuditEvent event fault => ∃ err, (log.appendAuditEvent blake3 event fault).1 = .error err
  | .restart => False
  | _ => True

/-- A process holds no hash but one of the log's. -/
theorem prevHash_mem (calls : List Call) :
    (final (call checks blake3) AuditLog.new calls).prevHash ∈
      zeroHash :: hashes (logOf checks blake3 calls) := by
  refine run_induct (fun (_ : List (Call × Answer)) (log : AuditLog) =>
    log.prevHash ∈ zeroHash :: hashes log.sink.events) List.mem_cons_self ?_ calls
  rintro - log c hmem
  cases c with
  | registerAuditSink => exact hmem
  | restart => exact List.mem_cons_self
  | appendAuditEvent event fault =>
    show (log.appendAuditEvent blake3 event fault).2.prevHash ∈
      zeroHash :: hashes (log.appendAuditEvent blake3 event fault).2.sink.events
    rcases appendAuditEvent_cases blake3 log event fault with ⟨err, herr⟩ | ⟨hok, -⟩
    · rwa [herr]
    · rw [hok, hashes_append, ← List.cons_append]
      exact List.mem_append_left _ hmem
  | appendAgentTransitionEvent payload secs fault =>
    show (log.appendAgentTransitionEvent checks blake3 payload secs fault).2.prevHash ∈ zeroHash ::
      hashes (log.appendAgentTransitionEvent checks blake3 payload secs fault).2.sink.events
    rcases appendAgentTransitionEvent_cases checks blake3 log payload secs fault with
      ⟨r, poisoned, herr⟩ | ⟨eventId, hok, -⟩
    · rwa [herr]
    · rw [hok, hashes_append]
      exact List.mem_cons_of_mem _ (List.mem_append_right _ (List.mem_singleton_self _))

/-- What a call does to the link. -/
theorem linked_call (log : AuditLog) (c : Call)
    (hmem : log.prevHash ∈ zeroHash :: hashes log.sink.events)
    (hdistinct : (zeroHash :: hashes (call checks blake3 log c).2.sink.events).Nodup) :
    (call checks blake3 log c).2.Linked ↔
      Links checks blake3 log c ∨ log.Linked ∧ KeepsLink blake3 log c := by
  cases c with
  | registerAuditSink =>
    exact ⟨fun h => .inr ⟨h, trivial⟩, fun h => h.elim False.elim And.left⟩
  | restart =>
    -- the new process holds no hash, and the log ends with one that is not zero
    refine iff_of_false ?_ fun h => h.elim id And.right
    rintro ⟨hne, hzero⟩
    refine (List.nodup_cons.mp hdistinct).1 ?_
    have hlast := lastHash_mem hne
    rwa [← hzero] at hlast
  | appendAuditEvent event fault =>
    show (log.appendAuditEvent blake3 event fault).2.Linked ↔
      False ∨ log.Linked ∧ ∃ err, (log.appendAuditEvent blake3 event fault).1 = .error err
    replace hdistinct : (zeroHash ::
        hashes (log.appendAuditEvent blake3 event fault).2.sink.events).Nodup := hdistinct
    rcases appendAuditEvent_cases blake3 log event fault with ⟨err, herr⟩ | ⟨hok, -⟩
    · rw [herr, false_or]
      exact (and_iff_left ⟨err, rfl⟩).symm
    · -- the event has a hash that the process does not hold
      rw [hok, hashes_append, ← List.cons_append] at hdistinct
      rw [hok]
      refine iff_of_false ?_ (by rintro (h | ⟨-, err, h⟩) <;> cases h)
      rintro ⟨-, hlink⟩
      replace hlink : log.prevHash = lastHash (log.sink.events ++ [event]) := hlink
      rw [lastHash_append] at hlink
      rw [hlink] at hmem
      exact (List.nodup_append.mp hdistinct).2.2 _ hmem _ (List.mem_singleton_self _) rfl
  | appendAgentTransitionEvent payload secs fault =>
    show (log.appendAgentTransitionEvent checks blake3 payload secs fault).2.Linked ↔
      (∃ hash, (log.appendAgentTransitionEvent checks blake3 payload secs fault).1 = .ok hash) ∨
        log.Linked ∧ True
    rcases appendAgentTransitionEvent_cases checks blake3 log payload secs fault with
      ⟨r, poisoned, herr⟩ | ⟨eventId, hok, -⟩
    · rw [herr]
      exact ⟨fun h => .inr ⟨h, trivial⟩, fun h => h.elim (fun ⟨_, h⟩ => by cases h) And.left⟩
    · rw [hok]
      refine iff_of_true ⟨List.append_ne_nil_of_right_ne_nil _ (List.cons_ne_nil _ _), ?_⟩
        (.inl ⟨_, rfl⟩)
      exact (lastHash_append _ _).symm

/-- While hashes are distinct, the last event is linked to iff it is a transition of the process
that asks. -/
theorem linked_final_iff (calls : List Call)
    (hdistinct : (zeroHash :: hashes (logOf checks blake3 calls)).Nodup) :
    (final (call checks blake3) AuditLog.new calls).Linked ↔
      Since (call checks blake3) (Links checks blake3) (KeepsLink blake3) AuditLog.new calls := by
  induction calls using List.reverseRecOn with
  | nil => exact iff_of_false (fun h => h.1 rfl) not_since_nil
  | append_singleton calls c ih =>
    have hnext : final (call checks blake3) AuditLog.new (calls ++ [c]) =
        (call checks blake3 (final (call checks blake3) AuditLog.new calls) c).2 := final_append ..
    rw [logOf, hnext] at hdistinct
    have hbefore : (zeroHash :: hashes (logOf checks blake3 calls)).Nodup := by
      rcases call_cases checks blake3 (final (call checks blake3) AuditLog.new calls) c with
        hsame | ⟨e, happend, -⟩
      · rwa [hsame] at hdistinct
      · rw [happend, hashes_append, ← List.cons_append] at hdistinct
        exact (List.nodup_append.mp hdistinct).1
    rw [hnext, linked_call checks blake3 _ c (prevHash_mem checks blake3 calls) hdistinct,
      ih hbefore, since_concat]

/-- **The link.** A transition names the hash of the event before it, while hashes are distinct,
iff there is none, or the last one to be appended was a transition too, and of this process: no
restart and no event of a caller's own has come since. -/
theorem next_link_iff (calls : List Call)
    (hdistinct : (zeroHash :: hashes (logOf checks blake3 calls)).Nodup) (eventId : UInt64)
    (payload : AgentTransitionPayload) (secs : UInt64) :
    ((final (call checks blake3) AuditLog.new calls).transitionEvent blake3 eventId payload
        secs).prevChainHash = lastHash (logOf checks blake3 calls) ↔
      logOf checks blake3 calls = [] ∨
        Since (call checks blake3) (Links checks blake3) (KeepsLink blake3) AuditLog.new calls := by
  rw [← linked_final_iff checks blake3 calls hdistinct]
  show (final (call checks blake3) AuditLog.new calls).prevHash = _ ↔ _
  by_cases hempty : logOf checks blake3 calls = []
  · have hmem := prevHash_mem checks blake3 calls
    rw [hempty] at hmem ⊢
    exact iff_of_true (List.mem_singleton.mp hmem) (.inl rfl)
  · exact ⟨fun h => .inr ⟨hempty, h⟩, fun h => (h.resolve_left hempty).2⟩

end

def sampleTransition : AgentTransitionPayload :=
  ⟨Vector.replicate 16 7, "idle", "running", none⟩

/-- BLAKE3, on the first event that the transition is made into. -/
def sampleBlake3 (_ : List UInt8) : Bytes32 :=
  Vector.ofFn fun i : Fin 32 => (Bytes.toBe 32
    0x77d1ae09208a2534d7bca4e4e20c983f7b8756020ef5013b5f3f71c7e0963f62).getD i 0

/-- A transition, and then a new process. -/
def sampleCalls : List Call :=
  [.registerAuditSink, .appendAgentTransitionEvent sampleTransition 0 none, .restart]

theorem next_link_sample :
    ((final (call true sampleBlake3) AuditLog.new sampleCalls).transitionEvent sampleBlake3 1
        sampleTransition 1).prevChainHash = lastHash (logOf true sampleBlake3 sampleCalls) ↔
      logOf true sampleBlake3 sampleCalls = [] ∨
        Since (call true sampleBlake3) (Links true sampleBlake3) (KeepsLink sampleBlake3)
          AuditLog.new sampleCalls :=
  next_link_iff true sampleBlake3 sampleCalls (by decide +kernel) 1 sampleTransition 1

end CipherOcto.Audit
