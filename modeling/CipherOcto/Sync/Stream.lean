import CipherOcto.Lib.Trace
import CipherOcto.Encoding.Constraint
import Mathlib.Data.List.AList

/-!
# The WAL-tail streamer

`stream.rs` and `lsn.rs`: the writer's side of the log shipping. `on_commit`
checks the LSN range, moves `current_lsn`, and then offers the new chunk to the
subscribers one after the other, in whatever order the hash map yields them. An
offer can be refused, by an empty token bucket or a full outbox, and the first
refusal ends the loop with an error. By then the LSN has moved and some of the
subscribers have the chunk.

> `Covers a b chunks` says that the chunks are, in order, the LSNs from `a`
> (excluded) to `b`.
> `covered_of_ready`: a subscriber's chunks cover everything since it subscribed,
> along every run in which no accepted commit meets an empty bucket or a full
> outbox.

The limiter's clock is fixed at zero by `check`, so a bucket is never refilled
(`RateLimiter.check_eq`).
-/

namespace CipherOcto.Sync

open Encoding

/-! ## Errors and trackers -/

abbrev PeerId := Bytes32

/-- The errors of `SyncError` that these functions raise. -/
inductive SyncError where
  | invalidLsnRange (fromLsn toLsn : Nat)
  | lsnRegression (expected actual : Nat)
  | backendNotReady (reason : String)
  | unknownPeer (peer : PeerId)
deriving DecidableEq

/-- `LsnTracker`. -/
structure LsnTracker where
  watermark : Nat
deriving DecidableEq

def LsnTracker.new : LsnTracker := ⟨0⟩

/-- `LsnTracker::advance`. -/
def LsnTracker.advance (t : LsnTracker) (lsn : Nat) : Except SyncError Unit × LsnTracker :=
  if lsn < t.watermark then (.error (.lsnRegression t.watermark lsn), t) else (.ok (), ⟨lsn⟩)

/-! ## The token bucket -/

structure RateLimiter where
  ratePerSec : Nat
  burst : Nat
  tokens : Nat
  lastRefillMs : Nat
  prevNowMs : Option Nat
deriving DecidableEq

def RateLimiter.new (ratePerSec burst : Nat) : RateLimiter := ⟨ratePerSec, burst, burst, 0, none⟩

/-- The refill of `check_at`; the `u64` product wraps. -/
def RateLimiter.refill (r : RateLimiter) (now : Nat) : RateLimiter :=
  if now > r.lastRefillMs ∧ now > r.prevNowMs.getD 0 then
    { r with
      tokens := min (min (r.tokens +
        (now - r.lastRefillMs) * r.ratePerSec % 2 ^ 64 / 1000) (2 ^ 64 - 1)) r.burst
      lastRefillMs := now }
  else r

/-- `check_at`. -/
def RateLimiter.checkAt (r : RateLimiter) (now : Nat) : Except SyncError Unit × RateLimiter :=
  if (r.refill now).tokens = 0 then
    (.error (.backendNotReady "rate limit exhausted"), { r.refill now with prevNowMs := some now })
  else
    (.ok (), { r.refill now with
      prevNowMs := some now
      tokens := (r.refill now).tokens - 1 })

/-- `check`. -/
def RateLimiter.check (r : RateLimiter) : Except SyncError Unit × RateLimiter := r.checkAt 0

theorem RateLimiter.refill_zero (r : RateLimiter) : r.refill 0 = r :=
  if_neg fun h => Nat.not_lt_zero _ h.1

/-- A check takes a token or fails, and refills nothing. -/
theorem RateLimiter.check_eq (r : RateLimiter) :
    r.check = if r.tokens = 0 then
        (.error (.backendNotReady "rate limit exhausted"), { r with prevNowMs := some 0 })
      else (.ok (), { r with prevNowMs := some 0, tokens := r.tokens - 1 }) := by
  unfold check checkAt
  rw [r.refill_zero]

/-! ## The streamer -/

structure WalTailChunk where
  fromLsn : Nat
  toLsn : Nat
  entries : List (List UInt8)
  isLast : Bool
deriving DecidableEq

structure SubscriberChannel where
  rateLimiter : RateLimiter
  outbox : List WalTailChunk
deriving DecidableEq

def outboxCapacity : Nat := 1024

/-- `SubscriberChannel::send`. -/
def SubscriberChannel.send (ch : SubscriberChannel) (chunk : WalTailChunk) :
    Except SyncError Unit × SubscriberChannel :=
  if ch.outbox.length ≥ outboxCapacity then
    (.error (.backendNotReady
      ("outbox full (" ++ toString outboxCapacity ++ " chunks); peer not draining")), ch)
  else (.ok (), { ch with outbox := ch.outbox ++ [chunk] })

/-- The body of the fan-out loop for one channel. -/
def SubscriberChannel.offer (ch : SubscriberChannel) (chunk : WalTailChunk) :
    Except SyncError Unit × SubscriberChannel :=
  match ch.rateLimiter.check with
  | (.error e, limiter) => (.error e, { ch with rateLimiter := limiter })
  | (.ok (), limiter) => SubscriberChannel.send { ch with rateLimiter := limiter } chunk

abbrev Subscribers := AList fun _ : PeerId => SubscriberChannel

/-- An order in which a hash map may be iterated. -/
structure IterOrder where
  order : List PeerId → List PeerId
  perm : ∀ keys, (order keys).Perm keys

/-- The result of a fan-out: the subscribers as it left them, and those it
reached. -/
structure FanOut where
  result : Except SyncError Unit
  subscribers : Subscribers
  sent : List PeerId

/-- The fan-out loop; the first refusal ends it. -/
def fanOut (chunk : WalTailChunk) : List PeerId → Subscribers → FanOut
  | [], subs => ⟨.ok (), subs, []⟩
  | p :: ps, subs =>
    match subs.lookup p with
    | none => fanOut chunk ps subs
    | some ch =>
      match ch.offer chunk with
      | (.error e, ch') => ⟨.error e, subs.insert p ch', []⟩
      | (.ok (), ch') =>
        ⟨(fanOut chunk ps (subs.insert p ch')).result,
          (fanOut chunk ps (subs.insert p ch')).subscribers,
          p :: (fanOut chunk ps (subs.insert p ch')).sent⟩

/-- `WalTailStreamer`. The adapter is `readWalRange`, which does not fail. -/
structure WalTailStreamer where
  readWalRange : Nat → Nat → List (List UInt8)
  subscribers : Subscribers
  currentLsn : Nat
  peers : AList fun _ : PeerId => LsnTracker
  txnSubscribers : Nat → List PeerId
  paused : Bool

/-- `WalTailStreamer::new`, from the adapter's LSN. -/
def WalTailStreamer.new (readWalRange : Nat → Nat → List (List UInt8)) (initialLsn : Nat) :
    WalTailStreamer :=
  ⟨readWalRange, ∅, initialLsn, ∅, fun _ => [], false⟩

namespace WalTailStreamer

/-- `subscribe`, also for a peer that already is. -/
def subscribe (s : WalTailStreamer) (p : PeerId) (limiter : RateLimiter) : WalTailStreamer :=
  { s with
    subscribers := s.subscribers.insert p ⟨limiter, []⟩
    peers := s.peers.insert p LsnTracker.new }

/-- `unsubscribe`. -/
def unsubscribe (s : WalTailStreamer) (p : PeerId) : WalTailStreamer :=
  { s with subscribers := s.subscribers.erase p, peers := s.peers.erase p }

/-- The LSN a commit has to start at; `u64` wraps. -/
def nextLsn (s : WalTailStreamer) : Nat := (s.currentLsn + 1) % 2 ^ 64

/-- The chunk of a commit. -/
def chunk (s : WalTailStreamer) (fromLsn toLsn : Nat) : WalTailChunk :=
  ⟨fromLsn, toLsn, s.readWalRange fromLsn toLsn, true⟩

/-- The state after the fan-out of a commit. -/
def afterFanOut (s : WalTailStreamer) (txnId toLsn : Nat) (f : FanOut) : WalTailStreamer :=
  { s with
    currentLsn := toLsn
    subscribers := f.subscribers
    txnSubscribers := Function.update s.txnSubscribers txnId (s.txnSubscribers txnId ++ f.sent) }

/-- `on_commit`. -/
def onCommit (s : WalTailStreamer) (iter : IterOrder) (txnId fromLsn toLsn : Nat) :
    Except SyncError Unit × WalTailStreamer :=
  if fromLsn > toLsn then (.error (.invalidLsnRange fromLsn toLsn), s)
  else if fromLsn ≠ s.nextLsn then (.error (.lsnRegression s.nextLsn fromLsn), s)
  else if s.paused then (.ok (), { s with currentLsn := toLsn })
  else
    ((fanOut (s.chunk fromLsn toLsn) (iter.order s.subscribers.keys) s.subscribers).result,
      s.afterFanOut txnId toLsn
        (fanOut (s.chunk fromLsn toLsn) (iter.order s.subscribers.keys) s.subscribers))

/-- `on_lsn_ack`. -/
def onLsnAck (s : WalTailStreamer) (p : PeerId) (appliedLsn : Nat) :
    Except SyncError Unit × WalTailStreamer :=
  match s.subscribers.lookup p with
  | none => (.error (.unknownPeer p), s)
  | some _ =>
    match s.peers.lookup p with
    | none => (.ok (), s)
    | some t =>
      ((t.advance appliedLsn).1, { s with peers := s.peers.insert p (t.advance appliedLsn).2 })

/-- `drain_outbox`. -/
def drainOutbox (s : WalTailStreamer) (p : PeerId) : List WalTailChunk × WalTailStreamer :=
  match s.subscribers.lookup p with
  | none => ([], s)
  | some ch => (ch.outbox, { s with subscribers := s.subscribers.insert p { ch with outbox := [] } })

end WalTailStreamer

/-! ## Offers -/

/-- A token and a free place. -/
def SubscriberChannel.Ready (ch : SubscriberChannel) : Prop :=
  0 < ch.rateLimiter.tokens ∧ ch.outbox.length < outboxCapacity

/-- What a ready channel becomes. -/
def SubscriberChannel.received (ch : SubscriberChannel) (chunk : WalTailChunk) :
    SubscriberChannel where
  rateLimiter := { ch.rateLimiter with
    prevNowMs := some 0
    tokens := ch.rateLimiter.tokens - 1 }
  outbox := ch.outbox ++ [chunk]

theorem SubscriberChannel.offer_of_ready {ch : SubscriberChannel} (h : ch.Ready)
    (chunk : WalTailChunk) : ch.offer chunk = (.ok (), ch.received chunk) := by
  unfold offer
  rw [RateLimiter.check_eq, if_neg (by have := h.1; omega)]
  dsimp only
  unfold send
  rw [if_neg (by have := h.2; dsimp only; omega)]
  rfl

/-- A refused channel keeps its queue. -/
theorem SubscriberChannel.offer_of_not_ready {ch : SubscriberChannel} (h : ¬ch.Ready)
    (chunk : WalTailChunk) :
    ∃ e ch', ch.offer chunk = (.error e, ch') ∧ ch'.outbox = ch.outbox := by
  unfold offer
  rw [RateLimiter.check_eq]
  by_cases htokens : ch.rateLimiter.tokens = 0
  · rw [if_pos htokens]
    exact ⟨_, _, rfl, rfl⟩
  · rw [if_neg htokens]
    dsimp only
    unfold send
    have hfull : ch.outbox.length ≥ outboxCapacity := by
      by_contra hroom
      exact h ⟨Nat.pos_of_ne_zero htokens, Nat.lt_of_not_ge hroom⟩
    rw [if_pos hfull]
    exact ⟨_, _, rfl, rfl⟩

/-- **A fan-out over ready subscribers** reaches every one of them, once. -/
theorem fanOut_of_ready (chunk : WalTailChunk) {order : List PeerId} {subs : Subscribers}
    (hnodup : order.Nodup) (hready : ∀ p ∈ order, ∃ ch, subs.lookup p = some ch ∧ ch.Ready) :
    (fanOut chunk order subs).result = .ok () ∧
      ∀ p, (fanOut chunk order subs).subscribers.lookup p =
        if p ∈ order then (subs.lookup p).map (·.received chunk) else subs.lookup p := by
  induction order generalizing subs with
  | nil => exact ⟨rfl, fun p => (if_neg List.not_mem_nil).symm⟩
  | cons q order ih =>
    obtain ⟨hq, hnodup⟩ := List.nodup_cons.mp hnodup
    rw [List.forall_mem_cons] at hready
    obtain ⟨⟨ch, hch, hchReady⟩, hrest⟩ := hready
    -- the other channels are as they were
    have hothers : ∀ p ∈ order, ∃ ch', (subs.insert q (ch.received chunk)).lookup p = some ch' ∧
        ch'.Ready := by
      intro p hp
      have hpq : p ≠ q := fun h => hq (h ▸ hp)
      rw [AList.lookup_insert_ne hpq]
      exact hrest p hp
    obtain ⟨hok, hlookup⟩ := ih hnodup hothers
    unfold fanOut
    rw [hch]
    dsimp only
    rw [SubscriberChannel.offer_of_ready hchReady]
    refine ⟨hok, fun p => ?_⟩
    dsimp only
    rw [hlookup]
    by_cases hpq : p = q
    · subst hpq
      rw [if_neg hq, AList.lookup_insert, if_pos List.mem_cons_self, hch]
      rfl
    · rw [AList.lookup_insert_ne hpq]
      simp only [List.mem_cons, hpq, false_or]

/-! ## Coverage -/

/-- The chunks are the LSNs from `a` (excluded) to `b`, in order, without a gap
or an overlap. -/
def Covers : Nat → Nat → List WalTailChunk → Prop
  | a, b, [] => a = b
  | a, b, c :: cs => c.fromLsn = a + 1 ∧ c.fromLsn ≤ c.toLsn ∧ Covers c.toLsn b cs

theorem Covers.snoc {a b : Nat} {cs : List WalTailChunk} {c : WalTailChunk} (h : Covers a b cs)
    (hfrom : c.fromLsn = b + 1) (hle : c.fromLsn ≤ c.toLsn) : Covers a c.toLsn (cs ++ [c]) := by
  induction cs generalizing a with
  | nil =>
    obtain rfl : a = b := h
    exact ⟨hfrom, hle, rfl⟩
  | cons d cs ih => exact ⟨h.1, h.2.1, ih h.2.2⟩

theorem Covers.end_unique {a b b' : Nat} {cs : List WalTailChunk} (h : Covers a b cs)
    (h' : Covers a b' cs) : b = b' := by
  induction cs generalizing a with
  | nil => exact h.symm.trans h'
  | cons d cs ih => exact ih h.2.2 h'.2.2

/-- A streamer, with what its peers have drained since they subscribed, and the
LSN they subscribed at. -/
structure StreamRun where
  streamer : WalTailStreamer
  start : PeerId → Nat
  drained : PeerId → List WalTailChunk

def StreamRun.new (readWalRange : Nat → Nat → List (List UInt8)) (initialLsn : Nat) : StreamRun :=
  ⟨.new readWalRange initialLsn, fun _ => 0, fun _ => []⟩

inductive StreamOp where
  | subscribe (p : PeerId) (limiter : RateLimiter)
  | unsubscribe (p : PeerId)
  | commit (iter : IterOrder) (txnId fromLsn toLsn : Nat)
  | drain (p : PeerId)

def streamStep (r : StreamRun) : StreamOp → Except SyncError Unit × StreamRun
  | .subscribe p limiter => (.ok (), {
      streamer := r.streamer.subscribe p limiter
      start := Function.update r.start p r.streamer.currentLsn
      drained := Function.update r.drained p [] })
  | .unsubscribe p => (.ok (), { r with streamer := r.streamer.unsubscribe p })
  | .commit iter txnId fromLsn toLsn =>
    ((r.streamer.onCommit iter txnId fromLsn toLsn).1,
      { r with streamer := (r.streamer.onCommit iter txnId fromLsn toLsn).2 })
  | .drain p => (.ok (), { r with
      streamer := (r.streamer.drainOutbox p).2
      drained := Function.update r.drained p (r.drained p ++ (r.streamer.drainOutbox p).1) })

/-- Every subscriber has, drained or queued, what was committed since it
subscribed. -/
def Covered (r : StreamRun) : Prop :=
  ∀ p ch, r.streamer.subscribers.lookup p = some ch →
    Covers (r.start p) r.streamer.currentLsn (r.drained p ++ ch.outbox)

/-- An operation that answers with an error changed neither the LSN nor an
outbox. -/
def Atomic (r : StreamRun) (op : StreamOp) : Prop :=
  ∀ e, (streamStep r op).1 = .error e →
    (streamStep r op).2.streamer.currentLsn = r.streamer.currentLsn ∧
    ∀ p, ((streamStep r op).2.streamer.subscribers.lookup p).map (·.outbox)
      = (r.streamer.subscribers.lookup p).map (·.outbox)

/-- A commit is turned away by the LSN checks, or every subscriber is ready for
it (and the next LSN does not wrap). -/
def ReadyFor (r : StreamRun) : StreamOp → Prop
  | .commit _ _ fromLsn toLsn =>
    fromLsn > toLsn ∨ fromLsn ≠ r.streamer.nextLsn ∨
      (r.streamer.currentLsn + 1 < 2 ^ 64 ∧
        ∀ p ch, r.streamer.subscribers.lookup p = some ch → ch.Ready)
  | _ => True

/-- **A commit that every subscriber is ready for.** -/
theorem onCommit_of_ready {s : WalTailStreamer} (iter : IterOrder) (txnId : Nat)
    {fromLsn toLsn : Nat} (hpaused : s.paused = false) (hle : fromLsn ≤ toLsn) (hnext : fromLsn = s.nextLsn)
    (hready : ∀ p ch, s.subscribers.lookup p = some ch → ch.Ready) :
    (s.onCommit iter txnId fromLsn toLsn).1 = .ok () ∧
      (s.onCommit iter txnId fromLsn toLsn).2.currentLsn = toLsn ∧
      (s.onCommit iter txnId fromLsn toLsn).2.paused = false ∧
      ∀ p, (s.onCommit iter txnId fromLsn toLsn).2.subscribers.lookup p
        = (s.subscribers.lookup p).map (·.received (s.chunk fromLsn toLsn)) := by
  have hperm := iter.perm s.subscribers.keys
  have hall : ∀ p ∈ iter.order s.subscribers.keys,
      ∃ ch, s.subscribers.lookup p = some ch ∧ ch.Ready := by
    intro p hp
    have hmem : p ∈ s.subscribers := AList.mem_keys.mpr (hperm.mem_iff.mp hp)
    obtain ⟨ch, hch⟩ := Option.isSome_iff_exists.mp (AList.lookup_isSome.mpr hmem)
    exact ⟨ch, hch, hready p ch hch⟩
  obtain ⟨hok, hlookup⟩ := fanOut_of_ready (s.chunk fromLsn toLsn)
    (hperm.nodup_iff.mpr s.subscribers.keys_nodup) hall
  unfold WalTailStreamer.onCommit
  rw [if_neg (not_lt.mpr hle), if_neg (not_not_intro hnext), hpaused, if_neg Bool.false_ne_true]
  refine ⟨hok, rfl, hpaused, fun p => ?_⟩
  refine (hlookup p).trans ?_
  split
  · rfl
  next hnot =>
    -- a peer outside the order is not subscribed
    have hnone : s.subscribers.lookup p = none :=
      AList.lookup_eq_none.mpr fun hmem => hnot (hperm.mem_iff.mpr (AList.mem_keys.mp hmem))
    rw [hnone]
    rfl

theorem onCommit_of_rejected {s : WalTailStreamer} (iter : IterOrder) (txnId : Nat)
    {fromLsn toLsn : Nat} (h : fromLsn > toLsn ∨ fromLsn ≠ s.nextLsn) :
    (s.onCommit iter txnId fromLsn toLsn).2 = s := by
  unfold WalTailStreamer.onCommit
  by_cases hrange : fromLsn > toLsn
  · rw [if_pos hrange]
  · rw [if_neg hrange, if_pos (h.resolve_left hrange)]

theorem drainOutbox_paused (s : WalTailStreamer) (p : PeerId) :
    (s.drainOutbox p).2.paused = s.paused := by
  unfold WalTailStreamer.drainOutbox
  split <;> rfl

theorem drainOutbox_currentLsn (s : WalTailStreamer) (p : PeerId) :
    (s.drainOutbox p).2.currentLsn = s.currentLsn := by
  unfold WalTailStreamer.drainOutbox
  split <;> rfl

theorem lookup_drainOutbox_of_ne {s : WalTailStreamer} {p q : PeerId} (h : q ≠ p) :
    (s.drainOutbox p).2.subscribers.lookup q = s.subscribers.lookup q := by
  unfold WalTailStreamer.drainOutbox
  split
  · rfl
  · exact AList.lookup_insert_ne h

/-- Draining moves the queue out. -/
theorem lookup_drainOutbox_self {s : WalTailStreamer} {p : PeerId} {ch : SubscriberChannel}
    (h : (s.drainOutbox p).2.subscribers.lookup p = some ch) :
    ∃ ch₀, s.subscribers.lookup p = some ch₀ ∧ (s.drainOutbox p).1 = ch₀.outbox ∧
      ch.outbox = [] := by
  unfold WalTailStreamer.drainOutbox at h ⊢
  cases hp : s.subscribers.lookup p with
  | none =>
    rw [hp] at h
    dsimp only at h
    rw [hp] at h
    cases h
  | some ch₀ =>
    rw [hp] at h
    dsimp only at h
    rw [AList.lookup_insert] at h
    obtain rfl := Option.some.inj h
    exact ⟨ch₀, rfl, rfl, rfl⟩

/-- An operation on one peer: the others are covered as before. -/
theorem Covered.of_peer {r r' : StreamRun} (hcov : Covered r) (p : PeerId)
    (hlsn : r'.streamer.currentLsn = r.streamer.currentLsn)
    (hothers : ∀ q ≠ p, r'.streamer.subscribers.lookup q = r.streamer.subscribers.lookup q ∧
      r'.start q = r.start q ∧ r'.drained q = r.drained q)
    (hself : ∀ ch, r'.streamer.subscribers.lookup p = some ch →
      Covers (r'.start p) r.streamer.currentLsn (r'.drained p ++ ch.outbox)) : Covered r' := by
  intro q ch hq
  rw [hlsn]
  by_cases hqp : q = p
  · subst hqp
    exact hself ch hq
  · obtain ⟨hlookup, hstart, hdrained⟩ := hothers q hqp
    rw [hstart, hdrained]
    exact hcov q ch (hlookup ▸ hq)

theorem covered_subscribe {r : StreamRun} (hcov : Covered r) (p : PeerId) (limiter : RateLimiter) :
    Covered (streamStep r (.subscribe p limiter)).2 := by
  refine hcov.of_peer p rfl ?_ ?_
  · intro q hqp
    exact ⟨AList.lookup_insert_ne hqp, Function.update_of_ne hqp _ _, Function.update_of_ne hqp _ _⟩
  · intro ch hp
    dsimp only [streamStep, WalTailStreamer.subscribe] at hp ⊢
    rw [AList.lookup_insert] at hp
    obtain rfl := Option.some.inj hp
    rw [Function.update_self, Function.update_self]
    exact rfl

theorem covered_unsubscribe {r : StreamRun} (hcov : Covered r) (p : PeerId) :
    Covered (streamStep r (.unsubscribe p)).2 := by
  refine hcov.of_peer p rfl ?_ ?_
  · intro q hqp
    exact ⟨AList.lookup_erase_ne hqp, rfl, rfl⟩
  · intro ch hp
    dsimp only [streamStep, WalTailStreamer.unsubscribe] at hp
    rw [AList.lookup_erase] at hp
    cases hp

theorem covered_drain {r : StreamRun} (hcov : Covered r) (p : PeerId) :
    Covered (streamStep r (.drain p)).2 := by
  refine hcov.of_peer p (drainOutbox_currentLsn _ p) ?_ ?_
  · intro q hqp
    exact ⟨lookup_drainOutbox_of_ne hqp, rfl, Function.update_of_ne hqp _ _⟩
  · intro ch hp
    obtain ⟨ch₀, hch₀, hdrained, hempty⟩ := lookup_drainOutbox_self hp
    dsimp only [streamStep]
    rw [Function.update_self, hdrained, hempty, List.append_nil]
    exact hcov p ch₀ hch₀

/-- A commit that is turned away leaves the run as it was. -/
theorem streamStep_of_rejected {r : StreamRun} (iter : IterOrder) (txnId : Nat)
    {fromLsn toLsn : Nat} (h : fromLsn > toLsn ∨ fromLsn ≠ r.streamer.nextLsn) :
    (streamStep r (.commit iter txnId fromLsn toLsn)).2 = r := by
  dsimp only [streamStep]
  rw [onCommit_of_rejected iter txnId h]

/-- One that is accepted adds its chunk to every queue. -/
theorem covered_commit {r : StreamRun} (hpaused : r.streamer.paused = false) (hcov : Covered r)
    (iter : IterOrder) (txnId : Nat) {fromLsn toLsn : Nat} (hle : fromLsn ≤ toLsn)
    (hnext : fromLsn = r.streamer.nextLsn) (hlt : r.streamer.currentLsn + 1 < 2 ^ 64)
    (hready : ∀ p ch, r.streamer.subscribers.lookup p = some ch → ch.Ready) :
    Covered (streamStep r (.commit iter txnId fromLsn toLsn)).2 := by
  obtain ⟨-, hlsn, -, hlookup⟩ := onCommit_of_ready iter txnId hpaused hle hnext hready
  have hfrom : fromLsn = r.streamer.currentLsn + 1 := by
    rw [hnext, WalTailStreamer.nextLsn, Nat.mod_eq_of_lt hlt]
  intro p ch hp
  dsimp only [streamStep] at hp ⊢
  rw [hlookup] at hp
  obtain ⟨ch₀, hch₀, rfl⟩ := Option.map_eq_some_iff.mp hp
  rw [hlsn, SubscriberChannel.received, ← List.append_assoc]
  exact (hcov p ch₀ hch₀).snoc (c := r.streamer.chunk fromLsn toLsn) hfrom hle

/-- **One step** keeps coverage, and fails without a trace or not at all. -/
theorem covered_step {r : StreamRun} {op : StreamOp} (hpaused : r.streamer.paused = false)
    (hcov : Covered r) (hready : ReadyFor r op) :
    (streamStep r op).2.streamer.paused = false ∧ Covered (streamStep r op).2 ∧ Atomic r op := by
  cases op with
  | subscribe p limiter => exact ⟨hpaused, covered_subscribe hcov p limiter, fun e he => nomatch he⟩
  | unsubscribe p => exact ⟨hpaused, covered_unsubscribe hcov p, fun e he => nomatch he⟩
  | drain p =>
    refine ⟨?_, covered_drain hcov p, fun e he => nomatch he⟩
    exact (drainOutbox_paused r.streamer p).trans hpaused
  | commit iter txnId fromLsn toLsn =>
    by_cases hrejected : fromLsn > toLsn ∨ fromLsn ≠ r.streamer.nextLsn
    · have hsame := streamStep_of_rejected iter txnId hrejected
      unfold Atomic
      rw [hsame]
      exact ⟨hpaused, hcov, fun e _ => ⟨rfl, fun _ => rfl⟩⟩
    · obtain ⟨hnle, hnnext⟩ := not_or.mp hrejected
      obtain ⟨hlt, hall⟩ := (hready.resolve_left hnle).resolve_left hnnext
      have hle := not_lt.mp hnle
      have hnext := not_not.mp hnnext
      obtain ⟨hok, -, hpaused', -⟩ := onCommit_of_ready iter txnId hpaused hle hnext hall
      refine ⟨hpaused', covered_commit hpaused hcov iter txnId hle hnext hlt hall, ?_⟩
      intro e he
      exact absurd (he.symm.trans hok) (fun h => nomatch h)

/-- **No committed WAL is lost** along a run whose commits find their
subscribers ready. -/
theorem covered_of_ready (readWalRange : Nat → Nat → List (List UInt8)) (initialLsn : Nat)
    {ops : List StreamOp}
    (h : Trace.Along streamStep ReadyFor (.new readWalRange initialLsn) ops) :
    Trace.Along streamStep (fun r op => Covered (streamStep r op).2 ∧ Atomic r op)
      (.new readWalRange initialLsn) ops := by
  have hstep : ∀ r op, (r.streamer.paused = false ∧ Covered r) → ReadyFor r op →
      ((streamStep r op).2.streamer.paused = false ∧ Covered (streamStep r op).2) ∧
        (Covered (streamStep r op).2 ∧ Atomic r op) := by
    rintro r op ⟨hpaused, hcov⟩ hready
    obtain ⟨hpaused', hcov', hatomic⟩ := covered_step hpaused hcov hready
    exact ⟨⟨hpaused', hcov'⟩, hcov', hatomic⟩
  have hstart : (StreamRun.new readWalRange initialLsn).streamer.paused = false ∧
      Covered (.new readWalRange initialLsn) :=
    ⟨rfl, fun p ch hp => nomatch hp⟩
  exact Trace.along_induct hstep hstart h

/-- A subscriber that is not ready keeps its queue, wherever the loop ends. -/
theorem fanOut_of_not_ready (chunk : WalTailChunk) (order : List PeerId) {subs : Subscribers}
    {p : PeerId} {ch : SubscriberChannel} (hp : subs.lookup p = some ch) (hnot : ¬ch.Ready) :
    ∃ ch', (fanOut chunk order subs).subscribers.lookup p = some ch' ∧ ch'.outbox = ch.outbox := by
  induction order generalizing subs with
  | nil => exact ⟨ch, hp, rfl⟩
  | cons q order ih =>
    unfold fanOut
    by_cases hpq : p = q
    · subst hpq
      obtain ⟨e, ch', hoffer, hqueue⟩ := SubscriberChannel.offer_of_not_ready hnot chunk
      rw [hp]
      dsimp only
      rw [hoffer]
      exact ⟨ch', AList.lookup_insert _, hqueue⟩
    · cases hq : subs.lookup q with
      | none => exact ih hp
      | some chq =>
        have hkept : ∀ ch', (subs.insert q ch').lookup p = some ch := fun ch' =>
          (AList.lookup_insert_ne hpq).trans hp
        dsimp only
        cases hoffer : chq.offer chunk with
        | mk result ch' =>
          cases result with
          | error e => exact ⟨ch, hkept ch', rfl⟩
          | ok => exact ih (hkept ch')

/-- **A commit is lost** to a subscriber that was not ready for it. -/
theorem not_covered_of_not_ready {r : StreamRun} {iter : IterOrder} {txnId fromLsn toLsn : Nat}
    (hpaused : r.streamer.paused = false) (hcov : Covered r) (hle : fromLsn ≤ toLsn)
    (hnext : fromLsn = r.streamer.currentLsn + 1) (hlt : r.streamer.currentLsn + 1 < 2 ^ 64)
    {p : PeerId} {ch : SubscriberChannel} (hp : r.streamer.subscribers.lookup p = some ch)
    (hnot : ¬ch.Ready) : ¬Covered (streamStep r (.commit iter txnId fromLsn toLsn)).2 := by
  have haccepted : fromLsn = r.streamer.nextLsn := by
    rw [WalTailStreamer.nextLsn, Nat.mod_eq_of_lt hlt, hnext]
  obtain ⟨ch', hch', hqueue⟩ := fanOut_of_not_ready (r.streamer.chunk fromLsn toLsn)
    (iter.order r.streamer.subscribers.keys) hp hnot
  intro h
  dsimp only [streamStep, WalTailStreamer.onCommit] at h
  rw [if_neg (not_lt.mpr hle), if_neg (not_not_intro haccepted), hpaused,
    if_neg Bool.false_ne_true] at h
  -- the same chunks would have to end at both LSNs
  have hafter := h p ch' hch'
  rw [hqueue] at hafter
  have hend : r.streamer.currentLsn = toLsn := (hcov p ch hp).end_unique hafter
  omega

/-! A bucket of one token: the first commit spends it. -/

def samplePeer : PeerId := Vector.replicate 32 3

def anyOrder : IterOrder := ⟨id, fun keys => List.Perm.refl keys⟩

def sampleRun : StreamRun :=
  (streamStep (.new (fun _ _ => []) 0) (.subscribe samplePeer (.new 100 1))).2

theorem sampleRun_lookup {p : PeerId} {ch : SubscriberChannel}
    (h : sampleRun.streamer.subscribers.lookup p = some ch) : ch = ⟨.new 100 1, []⟩ := by
  change AList.lookup p (AList.insert samplePeer ⟨.new 100 1, []⟩ (∅ : Subscribers)) = _ at h
  by_cases hp : p = samplePeer
  · subst hp
    rw [AList.lookup_insert] at h
    exact (Option.some.inj h).symm
  · rw [AList.lookup_insert_ne hp] at h
    cases h

theorem covered_of_ready_one :
    Trace.Along streamStep ReadyFor (.new (fun _ _ => []) 0)
        [.subscribe samplePeer (.new 100 1), .commit anyOrder 1 1 1] ∧
      Trace.Along streamStep (fun r op => Covered (streamStep r op).2 ∧ Atomic r op)
        (.new (fun _ _ => []) 0)
        [.subscribe samplePeer (.new 100 1), .commit anyOrder 1 1 1] := by
  have hready : Trace.Along streamStep ReadyFor (.new (fun _ _ => []) 0)
      [.subscribe samplePeer (.new 100 1), .commit anyOrder 1 1 1] := by
    refine ⟨trivial, Or.inr (Or.inr ⟨by decide, ?_⟩), trivial⟩
    intro p ch hch
    rw [sampleRun_lookup hch]
    exact ⟨Nat.one_pos, by decide⟩
  exact ⟨hready, covered_of_ready _ _ hready⟩

/-- The second commit fails, and the LSN has moved past the subscriber. -/
theorem second_commit_lost : ∃ r,
    Trace.final streamStep (.new (fun _ _ => []) 0)
      [.subscribe samplePeer (.new 100 1), .commit anyOrder 1 1 1] = r ∧
    (streamStep r (.commit anyOrder 2 2 2)).1
      = .error (.backendNotReady "rate limit exhausted") ∧
    r.streamer.currentLsn = 1 ∧
    (streamStep r (.commit anyOrder 2 2 2)).2.streamer.currentLsn = 2 ∧
    ¬Covered (streamStep r (.commit anyOrder 2 2 2)).2 := by
  refine ⟨_, rfl, by decide, by decide, by decide, fun h => ?_⟩
  have hcov := h samplePeer ⟨⟨100, 1, 0, 0, some 0⟩, [⟨1, 1, [], true⟩]⟩ (by decide)
  have hend : (1 : Nat) = 2 := hcov.2.2
  exact absurd hend (by decide)

end CipherOcto.Sync
