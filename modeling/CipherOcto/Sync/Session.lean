import CipherOcto.Sync.Stream

/-!
# The session manager's watermarks

A peer's acknowledged LSN is kept twice: in the streamer's table, which
`on_lsn_ack` advances, and in the peer's session, which gossip scoring reads
through `peer_lsn_watermark`. Subscribing resets both. Nothing else writes the
second one.

> `Tracked` is what holds after every run: the streamer has the largest LSN
> acknowledged since the peer subscribed, the session has zero.
> `watermarks_agree_iff`: so the two agree exactly when nothing above zero was
> acknowledged.
-/

namespace CipherOcto.Sync

open Encoding

/-! ## The code -/

/-- `PeerSession`, as far as the watermark goes. -/
structure PeerSession where
  lsnTracker : LsnTracker
deriving DecidableEq

structure SyncConfig where
  rateLimitPerSec : Nat
  rateLimitBurst : Nat

/-- `SyncSessionManager`. -/
structure SyncSessionManager where
  config : SyncConfig
  streamer : WalTailStreamer
  peers : AList fun _ : PeerId => PeerSession

def SyncSessionManager.new (config : SyncConfig) (readWalRange : Nat → Nat → List (List UInt8))
    (initialLsn : Nat) : SyncSessionManager :=
  ⟨config, .new readWalRange initialLsn, ∅⟩

namespace SyncSessionManager

/-- `subscribe_peer`. The lifecycle transition it makes is always allowed. -/
def subscribePeer (m : SyncSessionManager) (p : PeerId) : SyncSessionManager :=
  { m with
    streamer := m.streamer.subscribe p (.new m.config.rateLimitPerSec m.config.rateLimitBurst)
    peers := m.peers.insert p ⟨LsnTracker.new⟩ }

/-- `unsubscribe_peer`. -/
def unsubscribePeer (m : SyncSessionManager) (p : PeerId) : SyncSessionManager :=
  { m with streamer := m.streamer.unsubscribe p, peers := m.peers.erase p }

/-- `on_commit`. -/
def onCommit (m : SyncSessionManager) (iter : IterOrder) (txnId fromLsn toLsn : Nat) :
    Except SyncError Unit × SyncSessionManager :=
  ((m.streamer.onCommit iter txnId fromLsn toLsn).1,
    { m with streamer := (m.streamer.onCommit iter txnId fromLsn toLsn).2 })

/-- `on_lsn_ack`. -/
def onLsnAck (m : SyncSessionManager) (p : PeerId) (appliedLsn : Nat) :
    Except SyncError Unit × SyncSessionManager :=
  ((m.streamer.onLsnAck p appliedLsn).1, { m with streamer := (m.streamer.onLsnAck p appliedLsn).2 })

/-- `peer_lsn_watermark`. -/
def peerLsnWatermark (m : SyncSessionManager) (p : PeerId) : Option Nat :=
  (m.peers.lookup p).map (·.lsnTracker.watermark)

/-- The streamer's watermark for a peer. -/
def streamWatermark (m : SyncSessionManager) (p : PeerId) : Option Nat :=
  (m.streamer.peers.lookup p).map (·.watermark)

end SyncSessionManager

inductive SessionOp where
  | subscribePeer (p : PeerId)
  | unsubscribePeer (p : PeerId)
  | onCommit (iter : IterOrder) (txnId fromLsn toLsn : Nat)
  | onLsnAck (p : PeerId) (appliedLsn : Nat)

def sessionStep (m : SyncSessionManager) : SessionOp → Except SyncError Unit × SyncSessionManager
  | .subscribePeer p => (.ok (), m.subscribePeer p)
  | .unsubscribePeer p => (.ok (), m.unsubscribePeer p)
  | .onCommit iter txnId fromLsn toLsn => m.onCommit iter txnId fromLsn toLsn
  | .onLsnAck p appliedLsn => m.onLsnAck p appliedLsn

/-! ## What was acknowledged -/

/-- Who is subscribed, and what each peer sent since it last subscribed. -/
structure History where
  live : PeerId → Bool
  acks : PeerId → List Nat

def History.note (h : History) : SessionOp → History
  | .subscribePeer p => ⟨Function.update h.live p true, Function.update h.acks p []⟩
  | .unsubscribePeer p => ⟨Function.update h.live p false, h.acks⟩
  | .onCommit .. => h
  | .onLsnAck p lsn => ⟨h.live, Function.update h.acks p (h.acks p ++ [lsn])⟩

/-- The history of a run, from its operations alone. -/
def history (ops : List SessionOp) : History := ops.foldl History.note ⟨fun _ => false, fun _ => []⟩

/-- The largest LSN of a list, and zero if there is none. -/
def largest (lsns : List Nat) : Nat := lsns.foldl max 0

theorem largest_snoc (lsns : List Nat) (lsn : Nat) :
    largest (lsns ++ [lsn]) = max (largest lsns) lsn := by
  unfold largest
  rw [List.foldl_append]
  rfl

theorem largest_eq_zero_iff (lsns : List Nat) : largest lsns = 0 ↔ ∀ a ∈ lsns, a = 0 := by
  induction lsns using List.reverseRecOn with
  | nil => exact iff_of_true rfl fun a ha => absurd ha List.not_mem_nil
  | append_singleton lsns lsn ih =>
    rw [largest_snoc, List.forall_mem_append, List.forall_mem_singleton, ← ih]
    omega

/-! ## The invariant -/

/-- **The state of both tables after a run.** -/
structure Tracked (m : SyncSessionManager) (h : History) : Prop where
  subscribed : ∀ p, (m.streamer.subscribers.lookup p).isSome = h.live p
  session : ∀ p, h.live p = true → m.peers.lookup p = some ⟨LsnTracker.new⟩
  stream : ∀ p, h.live p = true → m.streamer.peers.lookup p = some ⟨largest (h.acks p)⟩

/-- A fan-out keeps the set of subscribers. -/
theorem fanOut_isSome (chunk : WalTailChunk) (order : List PeerId) (subs : Subscribers) (p : PeerId) :
    ((fanOut chunk order subs).subscribers.lookup p).isSome = (subs.lookup p).isSome := by
  induction order generalizing subs with
  | nil => rfl
  | cons q order ih =>
    unfold fanOut
    cases hq : subs.lookup q with
    | none => exact ih subs
    | some ch =>
      have hinsert : ∀ ch', ((subs.insert q ch').lookup p).isSome = (subs.lookup p).isSome := by
        intro ch'
        by_cases hpq : p = q
        · rw [hpq, AList.lookup_insert, hq]
          rfl
        · rw [AList.lookup_insert_ne hpq]
      dsimp only
      cases ch.offer chunk with
      | mk result ch' =>
        cases result with
        | error e => exact hinsert ch'
        | ok => exact (ih _).trans (hinsert ch')

/-- A commit leaves the subscriptions and the watermarks alone. -/
theorem onCommit_frame (s : WalTailStreamer) (iter : IterOrder) (txnId fromLsn toLsn : Nat) :
    (s.onCommit iter txnId fromLsn toLsn).2.peers = s.peers ∧
      ∀ p, ((s.onCommit iter txnId fromLsn toLsn).2.subscribers.lookup p).isSome
        = (s.subscribers.lookup p).isSome := by
  unfold WalTailStreamer.onCommit
  split
  · exact ⟨rfl, fun _ => rfl⟩
  split
  · exact ⟨rfl, fun _ => rfl⟩
  split
  · exact ⟨rfl, fun _ => rfl⟩
  · exact ⟨rfl, fun p => fanOut_isSome _ _ _ p⟩

theorem advance_watermark (t : LsnTracker) (lsn : Nat) :
    (t.advance lsn).2 = ⟨max t.watermark lsn⟩ := by
  unfold LsnTracker.advance
  split
  next hlt => rw [max_eq_left hlt.le]
  next hge => rw [max_eq_right (not_lt.mp hge)]

/-- An acknowledgement moves the watermark of a live peer to the larger LSN, and
nothing else. -/
theorem onLsnAck_peers (s : WalTailStreamer) (p : PeerId) (lsn : Nat) {q : PeerId} {t : LsnTracker}
    (hq : (s.subscribers.lookup q).isSome) (ht : s.peers.lookup q = some t) :
    (s.onLsnAck p lsn).2.peers.lookup q
      = some (if q = p then ⟨max t.watermark lsn⟩ else t) := by
  unfold WalTailStreamer.onLsnAck
  by_cases hqp : q = p
  · subst hqp
    obtain ⟨ch, hch⟩ := Option.isSome_iff_exists.mp hq
    rw [hch, ht, if_pos rfl]
    dsimp only
    rw [AList.lookup_insert, advance_watermark]
  · rw [if_neg hqp]
    split
    · exact ht
    · split
      · exact ht
      · exact (AList.lookup_insert_ne hqp).trans ht

theorem onLsnAck_subscribers (s : WalTailStreamer) (p : PeerId) (lsn : Nat) :
    (s.onLsnAck p lsn).2.subscribers = s.subscribers := by
  unfold WalTailStreamer.onLsnAck
  split
  · rfl
  · split <;> rfl

namespace Tracked

variable {m : SyncSessionManager} {h : History}

/-- A peer that subscribes starts at zero on both sides. -/
theorem subscribePeer (ht : Tracked m h) (p : PeerId) :
    Tracked (m.subscribePeer p) (h.note (.subscribePeer p)) where
  subscribed q := by
    dsimp only [SyncSessionManager.subscribePeer, WalTailStreamer.subscribe, History.note]
    by_cases hqp : q = p
    · rw [hqp, AList.lookup_insert, Function.update_self]
      rfl
    · rw [AList.lookup_insert_ne hqp, Function.update_of_ne hqp]
      exact ht.subscribed q
  session q hq := by
    dsimp only [SyncSessionManager.subscribePeer, History.note] at hq ⊢
    by_cases hqp : q = p
    · rw [hqp, AList.lookup_insert]
    · rw [Function.update_of_ne hqp] at hq
      rw [AList.lookup_insert_ne hqp]
      exact ht.session q hq
  stream q hq := by
    dsimp only [SyncSessionManager.subscribePeer, WalTailStreamer.subscribe, History.note] at hq ⊢
    by_cases hqp : q = p
    · rw [hqp, AList.lookup_insert, Function.update_self]
      rfl
    · rw [Function.update_of_ne hqp] at hq ⊢
      rw [AList.lookup_insert_ne hqp]
      exact ht.stream q hq

/-- A live peer is not the one that left. -/
theorem live_of_unsubscribed {p q : PeerId} (hq : (h.note (.unsubscribePeer p)).live q = true) :
    q ≠ p ∧ h.live q = true := by
  dsimp only [History.note] at hq
  by_cases hqp : q = p
  · rw [hqp, Function.update_self] at hq
    cases hq
  · rw [Function.update_of_ne hqp] at hq
    exact ⟨hqp, hq⟩

theorem unsubscribePeer (ht : Tracked m h) (p : PeerId) :
    Tracked (m.unsubscribePeer p) (h.note (.unsubscribePeer p)) where
  subscribed q := by
    dsimp only [SyncSessionManager.unsubscribePeer, WalTailStreamer.unsubscribe, History.note]
    by_cases hqp : q = p
    · rw [hqp, AList.lookup_erase, Function.update_self]
      rfl
    · rw [AList.lookup_erase_ne hqp, Function.update_of_ne hqp]
      exact ht.subscribed q
  session q hq := by
    obtain ⟨hqp, hlive⟩ := live_of_unsubscribed hq
    exact (AList.lookup_erase_ne hqp).trans (ht.session q hlive)
  stream q hq := by
    obtain ⟨hqp, hlive⟩ := live_of_unsubscribed hq
    exact (AList.lookup_erase_ne hqp).trans (ht.stream q hlive)

theorem onCommit (ht : Tracked m h) (iter : IterOrder) (txnId fromLsn toLsn : Nat) :
    Tracked (m.onCommit iter txnId fromLsn toLsn).2 h := by
  obtain ⟨hpeers, hsubs⟩ := onCommit_frame m.streamer iter txnId fromLsn toLsn
  refine ⟨fun q => (hsubs q).trans (ht.subscribed q), ht.session, fun q hq => ?_⟩
  dsimp only [SyncSessionManager.onCommit]
  rw [hpeers]
  exact ht.stream q hq

/-- The acknowledgement reaches the streamer only. -/
theorem onLsnAck (ht : Tracked m h) (p : PeerId) (lsn : Nat) :
    Tracked (m.onLsnAck p lsn).2 (h.note (.onLsnAck p lsn)) := by
  refine ⟨fun q => ?_, ht.session, fun q hq => ?_⟩
  · dsimp only [SyncSessionManager.onLsnAck, History.note]
    rw [onLsnAck_subscribers]
    exact ht.subscribed q
  · dsimp only [SyncSessionManager.onLsnAck, History.note] at hq ⊢
    rw [onLsnAck_peers m.streamer p lsn ((ht.subscribed q).trans hq) (ht.stream q hq)]
    by_cases hqp : q = p
    · rw [if_pos hqp, hqp, Function.update_self, largest_snoc]
    · rw [if_neg hqp, Function.update_of_ne hqp]

end Tracked

/-- **One operation.** -/
theorem tracked_step {m : SyncSessionManager} {h : History} (ht : Tracked m h) (op : SessionOp) :
    Tracked (sessionStep m op).2 (h.note op) := by
  cases op with
  | subscribePeer p => exact ht.subscribePeer p
  | unsubscribePeer p => exact ht.unsubscribePeer p
  | onCommit iter txnId fromLsn toLsn => exact ht.onCommit iter txnId fromLsn toLsn
  | onLsnAck p lsn => exact ht.onLsnAck p lsn

/-- **Every run.** -/
theorem tracked_run {m : SyncSessionManager} {h : History} (ht : Tracked m h)
    (ops : List SessionOp) : Tracked (Trace.final sessionStep m ops) (ops.foldl History.note h) := by
  induction ops generalizing m h with
  | nil => exact ht
  | cons op ops ih => exact ih (tracked_step ht op)

theorem tracked_new (config : SyncConfig) (readWalRange : Nat → Nat → List (List UInt8))
    (initialLsn : Nat) :
    Tracked (.new config readWalRange initialLsn) ⟨fun _ => false, fun _ => []⟩ :=
  ⟨fun _ => rfl, (fun _ h => nomatch h), (fun _ h => nomatch h)⟩

/-! ## Agreement -/

/-- For every subscribed peer, both watermarks are the largest LSN it has
acknowledged since it subscribed. -/
def WatermarksAgree (m : SyncSessionManager) (h : History) : Prop :=
  ∀ p, (m.streamer.subscribers.lookup p).isSome →
    m.peerLsnWatermark p = m.streamWatermark p ∧ m.streamWatermark p = some (largest (h.acks p))

/-- **When the watermarks agree**: no live peer has acknowledged anything above
zero since it subscribed. -/
theorem watermarks_agree_iff (config : SyncConfig)
    (readWalRange : Nat → Nat → List (List UInt8)) (initialLsn : Nat) (ops : List SessionOp) :
    WatermarksAgree (Trace.final sessionStep (.new config readWalRange initialLsn) ops)
        (history ops) ↔
      ∀ p, (history ops).live p = true → ∀ a ∈ (history ops).acks p, a = 0 := by
  have ht : Tracked (Trace.final sessionStep (.new config readWalRange initialLsn) ops)
      (history ops) := tracked_run (tracked_new config readWalRange initialLsn) ops
  constructor
  · intro h p hlive
    have hagree := (h p ((ht.subscribed p).trans hlive)).1
    unfold SyncSessionManager.peerLsnWatermark SyncSessionManager.streamWatermark at hagree
    rw [ht.session p hlive, ht.stream p hlive] at hagree
    exact (largest_eq_zero_iff _).mp (Option.some.inj hagree).symm
  · intro h p hsub
    have hlive : (history ops).live p = true := (ht.subscribed p).symm.trans hsub
    have hzero := (largest_eq_zero_iff _).mpr (h p hlive)
    unfold SyncSessionManager.peerLsnWatermark SyncSessionManager.streamWatermark
    rw [ht.session p hlive, ht.stream p hlive, hzero]
    exact ⟨rfl, rfl⟩

/-- A peer that has acknowledged LSN 5 is scored as if at zero. -/
theorem acknowledged_not_scored :
    ¬WatermarksAgree
      (Trace.final sessionStep (.new ⟨100, 500⟩ (fun _ _ => []) 0)
        [.subscribePeer samplePeer, .onLsnAck samplePeer 5])
      (history [.subscribePeer samplePeer, .onLsnAck samplePeer 5]) := by
  intro h
  -- zero for the session, five for the streamer
  have hagree := (h samplePeer (by decide)).1
  exact absurd hagree (by decide)

end CipherOcto.Sync
