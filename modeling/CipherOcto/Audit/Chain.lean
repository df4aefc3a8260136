import Mathlib.Data.List.Chain
import CipherOcto.Lib.Attempt
import CipherOcto.Encoding.Constraint

/-!
# The audit chain

An audit event carries the hash of its other fields, and the hash of the event before it.
A log is verified in one pass: the ids count up, each hash is that of its event, and the
timestamps ascend. The pass keeps the last id and the last timestamp, and not the last hash.

> `canonicalBytes_eq_iff`: what the bytes under the hash tell.
> `verifyChain_eq_ok_iff`: which logs are accepted.
> `rewrite_accepted_iff`: what an accepted log lets an event be rewritten to.
-/

namespace CipherOcto.Audit

open Machine CipherOcto.Encoding

inductive AuditEventKind where
  | insert
  | revoke
  | sync
  | agentTransition (agentId fromState toState : String) (reason : Option String)
  deriving DecidableEq, Repr

structure AuditEvent where
  eventId : UInt64
  nodeDid : String
  eventKind : AuditEventKind
  capRootHash : Bytes32
  atMillisUnix : UInt64
  prevChainHash : Bytes32
  chainHash : Bytes32
  deriving DecidableEq

/-- The tag of a kind: what a transition carries is not in it. -/
def eventKindTag : AuditEventKind → UInt8
  | .insert => 0
  | .revoke => 1
  | .sync => 2
  | .agentTransition .. => 3

def canonicalBytes (event : AuditEvent) : List UInt8 :=
  Bytes.toBe 8 event.eventId.toNat ++ event.nodeDid.toUTF8.toList ++
    [eventKindTag event.eventKind] ++ event.capRootHash.toList ++
    Bytes.toBe 8 event.atMillisUnix.toNat ++ event.prevChainHash.toList

inductive AuditChainError where
  | sequenceGap (eventId prev : UInt64)
  | hashMismatch (eventId : UInt64)
  | timestampRegression (eventId prev current : UInt64)
  deriving DecidableEq, Repr

section
variable (checks : Bool) (blake3 : List UInt8 → Bytes32)

def computeChainHash (event : AuditEvent) : Bytes32 := blake3 (canonicalBytes event)

/-! ## Verifying -/

/-- Monotonicity: `prev + 1` is arithmetic on `u64`. -/
def checkEventId (lastEventId : Option UInt64) (event : AuditEvent) : Run AuditChainError Unit :=
  match lastEventId with
  | none => .ok ()
  | some prev =>
    build checks (addU 64 prev.toNat 1) >>= fun next =>
      if event.eventId.toNat ≠ next then .error (.err (.sequenceGap event.eventId prev))
      else .ok ()

def checkChainHash (event : AuditEvent) : Run AuditChainError Unit :=
  if event.chainHash ≠ computeChainHash blake3 event then
    .error (.err (.hashMismatch event.eventId))
  else .ok ()

def checkTimestamp (lastAtMillis : Option UInt64) (event : AuditEvent) : Run AuditChainError Unit :=
  match lastAtMillis with
  | none => .ok ()
  | some prev =>
    if event.atMillisUnix ≤ prev then
      .error (.err (.timestampRegression event.eventId prev event.atMillisUnix))
    else .ok ()

/-- The loop over the events that are left. -/
def verifyLoop : Option UInt64 → Option UInt64 → List AuditEvent → Run AuditChainError Unit
  | _, _, [] => .ok ()
  | lastEventId, lastAtMillis, event :: events => do
    checkEventId checks lastEventId event
    checkChainHash blake3 event
    checkTimestamp lastAtMillis event
    verifyLoop (some event.eventId) (some event.atMillisUnix) events

def verifyChain (events : List AuditEvent) : Run AuditChainError Unit :=
  verifyLoop checks blake3 none none events

end

/-! ## What is under the hash -/

/-- The bytes tell every field but the hash itself, and of the kind its tag. -/
theorem canonicalBytes_eq_iff {e f : AuditEvent} :
    canonicalBytes e = canonicalBytes f ↔
      e.eventId = f.eventId ∧ e.nodeDid = f.nodeDid ∧
        eventKindTag e.eventKind = eventKindTag f.eventKind ∧ e.capRootHash = f.capRootHash ∧
        e.atMillisUnix = f.atMillisUnix ∧ e.prevChainHash = f.prevChainHash := by
  constructor
  · intro h
    unfold canonicalBytes at h
    -- the fields behind the identifier are of fixed length
    obtain ⟨h, hprev⟩ := List.append_inj' h
      (by rw [Vector.length_toList, Vector.length_toList])
    obtain ⟨h, hat⟩ := List.append_inj' h (by rw [Bytes.length_toBe, Bytes.length_toBe])
    obtain ⟨h, hcap⟩ := List.append_inj' h
      (by rw [Vector.length_toList, Vector.length_toList])
    obtain ⟨h, htag⟩ := List.append_inj' h rfl
    obtain ⟨hid, hdid⟩ := List.append_inj h (by rw [Bytes.length_toBe, Bytes.length_toBe])
    exact ⟨Bytes.toBe8_inj hid, Bytes.toUTF8_toList_inj hdid, List.singleton_inj.mp htag,
      Vector.toList_inj.mp hcap, Bytes.toBe8_inj hat, Vector.toList_inj.mp hprev⟩
  · rintro ⟨hid, hdid, htag, hcap, hat, hprev⟩
    unfold canonicalBytes
    rw [hid, hdid, htag, hcap, hat, hprev]

/-! ## Which logs are accepted -/

section
variable {checks : Bool} {blake3 : List UInt8 → Bytes32}

/-- The next event, as far as the pass looks. -/
def Follows (checks : Bool) (prev event : AuditEvent) : Prop :=
  (checks = true → prev.eventId.toNat + 1 < 2 ^ 64) ∧
    event.eventId.toNat = (prev.eventId.toNat + 1) % 2 ^ 64 ∧
    prev.atMillisUnix < event.atMillisUnix

theorem checkChainHash_eq_ok {event : AuditEvent} :
    checkChainHash blake3 event = .ok () ↔ event.chainHash = computeChainHash blake3 event := by
  rw [checkChainHash, ite_error_eq_ok, not_not]
  exact and_iff_left rfl

theorem checkEventId_eq_ok {prev : UInt64} {event : AuditEvent} :
    checkEventId checks (some prev) event = .ok () ↔
      (checks = true → prev.toNat + 1 < 2 ^ 64) ∧
        event.eventId.toNat = (prev.toNat + 1) % 2 ^ 64 := by
  unfold checkEventId
  simp only [run_bind_eq_ok, build_addU_eq_ok, ite_error_eq_ok, not_not, and_true]
  constructor
  · rintro ⟨next, ⟨hfits, rfl⟩, hid⟩
    exact ⟨hfits, hid⟩
  · rintro ⟨hfits, hid⟩
    exact ⟨_, ⟨hfits, rfl⟩, hid⟩

theorem checkTimestamp_eq_ok {prev : UInt64} {event : AuditEvent} :
    checkTimestamp (some prev) event = .ok () ↔ prev < event.atMillisUnix := by
  unfold checkTimestamp
  rw [ite_error_eq_ok, UInt64.not_le]
  exact and_iff_left rfl

theorem verifyLoop_cons (lastEventId lastAtMillis : Option UInt64) (event : AuditEvent)
    (events : List AuditEvent) :
    verifyLoop checks blake3 lastEventId lastAtMillis (event :: events) = .ok () ↔
      checkEventId checks lastEventId event = .ok () ∧ checkChainHash blake3 event = .ok () ∧
        checkTimestamp lastAtMillis event = .ok () ∧
        verifyLoop checks blake3 (some event.eventId) (some event.atMillisUnix) events = .ok () := by
  rw [verifyLoop]
  simp only [run_bind_eq_ok]
  constructor
  · rintro ⟨⟨⟩, hid, ⟨⟩, hhash, ⟨⟩, hat, hrest⟩
    exact ⟨hid, hhash, hat, hrest⟩
  · rintro ⟨hid, hhash, hat, hrest⟩
    exact ⟨(), hid, (), hhash, (), hat, hrest⟩

theorem verifyLoop_eq_ok (prev : AuditEvent) (events : List AuditEvent) :
    verifyLoop checks blake3 (some prev.eventId) (some prev.atMillisUnix) events = .ok () ↔
      (∀ e ∈ events, e.chainHash = computeChainHash blake3 e) ∧
        (prev :: events).IsChain (Follows checks) := by
  induction events generalizing prev with
  | nil => exact iff_of_true rfl ⟨fun e he => absurd he List.not_mem_nil, .singleton prev⟩
  | cons event events ih =>
    rw [verifyLoop_cons, checkEventId_eq_ok, checkChainHash_eq_ok, checkTimestamp_eq_ok, ih event,
      List.forall_mem_cons, List.isChain_cons_cons, Follows]
    tauto

/-- Which logs are accepted. -/
theorem verifyChain_eq_ok_iff {events : List AuditEvent} :
    verifyChain checks blake3 events = .ok () ↔
      (∀ e ∈ events, e.chainHash = computeChainHash blake3 e) ∧ events.IsChain (Follows checks) := by
  cases events with
  | nil => exact iff_of_true rfl ⟨fun e he => absurd he List.not_mem_nil, .nil⟩
  | cons event events =>
    rw [verifyChain, verifyLoop_cons, checkChainHash_eq_ok, verifyLoop_eq_ok, List.forall_mem_cons,
      checkEventId, checkTimestamp]
    tauto

/-- An event between its neighbours. -/
theorem isChain_middle {before after : List AuditEvent} {e : AuditEvent} :
    (before ++ e :: after).IsChain (Follows checks) ↔
      before.IsChain (Follows checks) ∧ after.IsChain (Follows checks) ∧
        (∀ p ∈ before.getLast?, Follows checks p e) ∧ ∀ n ∈ after.head?, Follows checks e n := by
  rw [List.isChain_append, List.isChain_cons]
  constructor
  · rintro ⟨hbefore, ⟨hnext, hafter⟩, hprev⟩
    exact ⟨hbefore, hafter, fun p hp => hprev p hp e rfl, hnext⟩
  · rintro ⟨hbefore, hafter, hprev, hnext⟩
    refine ⟨hbefore, ⟨hnext, hafter⟩, fun p hp e' he' => ?_⟩
    cases he'
    exact hprev p hp

/-- Before an event that followed another, an event follows iff it has the other's id. -/
theorem follows_iff_left {p e e' : AuditEvent} (h : Follows checks p e) :
    Follows checks p e' ↔ e'.eventId = e.eventId ∧ p.atMillisUnix < e'.atMillisUnix := by
  rw [Follows, ← h.2.1, UInt64.toNat_inj]
  exact ⟨fun h' => h'.2, fun h' => ⟨h.1, h'⟩⟩

theorem follows_iff_right {e e' n : AuditEvent} (h : Follows checks e n) :
    Follows checks e' n ↔ e'.eventId = e.eventId ∧ e'.atMillisUnix < n.atMillisUnix := by
  have hid : e'.eventId = e.eventId ↔
      (e'.eventId.toNat + 1) % 2 ^ 64 = (e.eventId.toNat + 1) % 2 ^ 64 := by
    -- ids that wrap around to the same successor are the same
    have hlt := e.eventId.toNat_lt
    have hlt' := e'.eventId.toNat_lt
    rw [← UInt64.toNat_inj]
    omega
  constructor
  · rintro ⟨-, hnext, hat⟩
    exact ⟨hid.mpr (hnext.symm.trans h.2.1), hat⟩
  · rintro ⟨heq, hat⟩
    exact ⟨heq ▸ h.1, h.2.1.trans (hid.mp heq).symm, hat⟩

/-- **Rewriting.** An event of an accepted log may be rewritten to any other that has its own
hash, a time between its neighbours', and the id, if there is a neighbour. Neither the hash
that it names as its predecessor's, nor the one that its successor names, comes into it. -/
theorem rewrite_accepted_iff (checks : Bool) (blake3 : List UInt8 → Bytes32)
    (before after : List AuditEvent) (e e' : AuditEvent) :
    verifyChain checks blake3 (before ++ e :: after) = .ok () ∧
        verifyChain checks blake3 (before ++ e' :: after) = .ok () ↔
      verifyChain checks blake3 (before ++ e :: after) = .ok () ∧
        e'.chainHash = computeChainHash blake3 e' ∧
        (∀ p ∈ before.getLast?, p.atMillisUnix < e'.atMillisUnix) ∧
        (∀ n ∈ after.head?, e'.atMillisUnix < n.atMillisUnix) ∧
        (before ≠ [] ∨ after ≠ [] → e'.eventId = e.eventId) := by
  refine and_congr_right fun hok => ?_
  -- both logs are told by the event and its two neighbours
  rw [verifyChain_eq_ok_iff, isChain_middle, List.forall_mem_append, List.forall_mem_cons] at hok ⊢
  obtain ⟨⟨hbefore, -, hafter⟩, hchain, hchain', hprev, hnext⟩ := hok
  constructor
  · rintro ⟨⟨-, hhash, -⟩, -, -, hprev', hnext'⟩
    refine ⟨hhash, fun p hp => ((follows_iff_left (hprev p hp)).mp (hprev' p hp)).2,
      fun n hn => ((follows_iff_right (hnext n hn)).mp (hnext' n hn)).2, ?_⟩
    rintro (hne | hne)
    · have hp := List.getLast?_eq_some_getLast hne
      exact ((follows_iff_left (hprev _ hp)).mp (hprev' _ hp)).1
    · obtain ⟨n, rest, rfl⟩ := List.exists_cons_of_ne_nil hne
      exact ((follows_iff_right (hnext n rfl)).mp (hnext' n rfl)).1
  · rintro ⟨hhash, hat, hat', hid⟩
    refine ⟨⟨hbefore, hhash, hafter⟩, hchain, hchain', fun p hp => ?_, fun n hn => ?_⟩
    · refine (follows_iff_left (hprev p hp)).mpr ⟨hid (.inl ?_), hat p hp⟩
      rintro rfl
      cases hp
    · refine (follows_iff_right (hnext n hn)).mpr ⟨hid (.inr ?_), hat' n hn⟩
      rintro rfl
      cases hn

end

end CipherOcto.Audit
