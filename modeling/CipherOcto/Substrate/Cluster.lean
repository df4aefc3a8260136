import CipherOcto.Substrate.Wal
import Mathlib.Data.List.AList

/-!
# Writer election

One cluster state is shared by all nodes: who leads each shard, the term it was
elected in, the last heartbeat, the nodes marked dead, and the log. Leader,
term and heartbeat live in three maps, and a release clears two of them.

The specification is the history of a shard, read off what the calls were
answered: `tenure` is the last successful acquire that no release has ended.

> `Tied` ties the three maps to the history and holds after every call.
> `writer_election_safe`: terms only grow, nobody takes over a running lease,
> and `current_leader` reports the tenure.

A term is a `u64` and an acquire past `u64::MAX` panics.
-/

namespace CipherOcto.Substrate

open Encoding Machine Trace

/-! ## The code -/

structure NonceRecord where
  shardKey : ShardKey
  term : UInt64
  nonce : Bytes32
deriving DecidableEq

inductive WriterElectionError where
  | writerUnavailable
  | walCorruption
  | walVersionTooNew
  | nonceReplayed
  | shardKeyMismatch
  | chainIdMismatch
  | thresholdMismatch
  | tooManySignatures (count max : Nat)
  | duplicateSigner
  | unauthorizedSigner
  | invalidSignature
  | insufficientSignatures
  | leaseExpired
  | relinquishPending
deriving DecidableEq

structure WriterIdentity where
  writerNodeId : WriterNodeId
  missionId : ShardMissionId
  term : Nat
  electedAtHlc : HlcTimestamp
  shardKey : ShardKey
deriving DecidableEq

/-- `DEFAULT_LEASE_DURATION_MS`. -/
def defaultLeaseDurationMs : UInt64 := 5000

/-- `ClusterState`. -/
structure Cluster where
  leaders : AList fun _ : ShardKey => WriterNodeId
  terms : AList fun _ : ShardKey => Nat
  lastHeartbeatMs : AList fun _ : ShardKey => UInt64
  leaseDurationMs : UInt64
  deadWriters : List WriterNodeId
  wal : List WalEntry
  nonces : List NonceRecord

def Cluster.new : Cluster := ⟨∅, ∅, ∅, defaultLeaseDurationMs, [], [], []⟩

/-- `saturating_sub`. -/
def saturatingSub (a b : UInt64) : UInt64 := if a < b then 0 else a - b

namespace Cluster

def setLeaseDurationMs (c : Cluster) (ms : UInt64) : Cluster := { c with leaseDurationMs := ms }

def kill (c : Cluster) (nodeId : WriterNodeId) : Cluster :=
  { c with deadWriters := c.deadWriters ++ [nodeId] }

def revive (c : Cluster) (nodeId : WriterNodeId) : Cluster :=
  { c with deadWriters := c.deadWriters.filter (· ≠ nodeId) }

/-- Another node leads and its lease still runs. -/
def leaseHeldByOther (c : Cluster) (nodeId : WriterNodeId) (shardKey : ShardKey)
    (nowMs : UInt64) : Bool :=
  match c.leaders.lookup shardKey with
  | none => false
  | some leader =>
    leader ≠ nodeId &&
      saturatingSub nowMs ((c.lastHeartbeatMs.lookup shardKey).getD 0) < c.leaseDurationMs

/-- The three inserts of an acquire. -/
def seat (c : Cluster) (nodeId : WriterNodeId) (shardKey : ShardKey) (term : Nat)
    (nowMs : UInt64) : Cluster :=
  { c with
    leaders := c.leaders.insert shardKey nodeId
    terms := c.terms.insert shardKey term
    lastHeartbeatMs := c.lastHeartbeatMs.insert shardKey nowMs }

/-- The two removals of a release. The term stays. -/
def unseat (c : Cluster) (shardKey : ShardKey) : Cluster :=
  { c with
    leaders := c.leaders.erase shardKey
    lastHeartbeatMs := c.lastHeartbeatMs.erase shardKey }

/-- `try_acquire_leader`. -/
def tryAcquireLeader (c : Cluster) (nodeId : WriterNodeId) (shardKey : ShardKey)
    (hlc : HlcTimestamp) : Run WriterElectionError WriterIdentity × Cluster :=
  if nodeId ∈ c.deadWriters then (.error (.err .writerUnavailable), c)
  else
    let currentTerm := (c.terms.lookup shardKey).getD 0
    if 2 ^ 64 ≤ currentTerm + 1 then (.error .panic, c)
    else
      let newTerm := currentTerm + 1
      if c.leaseHeldByOther nodeId shardKey hlc.physicalMs then
        (.error (.err .writerUnavailable), c)
      else
        (.ok ⟨nodeId, Vector.replicate 32 0, newTerm, hlc, shardKey⟩,
          c.seat nodeId shardKey newTerm hlc.physicalMs)

/-- `relinquish`. -/
def relinquish (c : Cluster) (nodeId : WriterNodeId) (shardKey : ShardKey) :
    Except WriterElectionError Unit × Cluster :=
  (.ok (), if c.leaders.lookup shardKey = some nodeId then c.unseat shardKey else c)

/-- `heartbeat`. -/
def heartbeat (c : Cluster) (nodeId : WriterNodeId) (shardKey : ShardKey) (hlc : HlcTimestamp) :
    Except WriterElectionError Unit × Cluster :=
  if nodeId ∈ c.deadWriters then (.error .writerUnavailable, c)
  else if c.leaders.lookup shardKey ≠ some nodeId then (.error .leaseExpired, c)
  else
    (.ok (), { c with lastHeartbeatMs := c.lastHeartbeatMs.insert shardKey hlc.physicalMs })

/-- `current_leader`. -/
def currentLeader (c : Cluster) (shardKey : ShardKey) : Option WriterIdentity := do
  let wid ← c.leaders.lookup shardKey
  let term ← c.terms.lookup shardKey
  let physicalMs ← c.lastHeartbeatMs.lookup shardKey
  pure ⟨wid, Vector.replicate 32 0, term, ⟨physicalMs, 0, wid⟩, shardKey⟩

/-- `force_relinquish`. -/
def forceRelinquish (c : Cluster) (shardKey : ShardKey) :
    Except WriterElectionError Unit × Cluster :=
  (.ok (), c.unseat shardKey)

/-- `append_wal_entry`; it returns the LSN it assigned. -/
def appendWalEntry (blake3 : List UInt8 → Bytes32) (c : Cluster) (entry : WalEntry) :
    Nat × Cluster :=
  let lsn := c.wal.length + 1
  let previousLsn := (c.wal.getLast?.map (·.lsn)).getD 0
  (lsn, { c with wal := c.wal ++ [entry.finalizeWithLsns blake3 lsn previousLsn] })

/-- `append_nonce_record`. -/
def appendNonceRecord (c : Cluster) (record : NonceRecord) : Cluster :=
  { c with nonces := c.nonces ++ [record] }

/-- `read_wal_range`. -/
def readWalRange (c : Cluster) (fromLsn : Nat) (toLsn : Option Nat) : List WalEntry :=
  let upto := toLsn.getD (c.wal.length + 1)
  c.wal.filter fun e => fromLsn ≤ e.lsn && e.lsn < upto

end Cluster

inductive ClusterOp where
  | setLeaseDurationMs (ms : UInt64)
  | kill (nodeId : WriterNodeId)
  | revive (nodeId : WriterNodeId)
  | tryAcquireLeader (nodeId : WriterNodeId) (shardKey : ShardKey) (hlc : HlcTimestamp)
  | relinquish (nodeId : WriterNodeId) (shardKey : ShardKey)
  | heartbeat (nodeId : WriterNodeId) (shardKey : ShardKey) (hlc : HlcTimestamp)
  | forceRelinquish (shardKey : ShardKey)
  | appendWalEntry (entry : WalEntry)
  | appendNonceRecord (record : NonceRecord)
deriving DecidableEq

inductive ClusterAnswer where
  | done
  | acquired (r : Run WriterElectionError WriterIdentity)
  | unit (r : Except WriterElectionError Unit)
  | lsn (n : Nat)
deriving DecidableEq

variable (blake3 : List UInt8 → Bytes32)

def clusterStep (c : Cluster) : ClusterOp → ClusterAnswer × Cluster
  | .setLeaseDurationMs ms => (.done, c.setLeaseDurationMs ms)
  | .kill n => (.done, c.kill n)
  | .revive n => (.done, c.revive n)
  | .tryAcquireLeader n k hlc => (.acquired (c.tryAcquireLeader n k hlc).1,
      (c.tryAcquireLeader n k hlc).2)
  | .relinquish n k => (.unit (c.relinquish n k).1, (c.relinquish n k).2)
  | .heartbeat n k hlc => (.unit (c.heartbeat n k hlc).1, (c.heartbeat n k hlc).2)
  | .forceRelinquish k => (.unit (c.forceRelinquish k).1, (c.forceRelinquish k).2)
  | .appendWalEntry e => (.lsn (c.appendWalEntry blake3 e).1, (c.appendWalEntry blake3 e).2)
  | .appendNonceRecord r => (.done, c.appendNonceRecord r)

/-! ## The history of a shard -/

/-- An unbroken lease: who acquired it last, in which term, and the last
heartbeat since. -/
structure Tenure where
  holder : WriterNodeId
  term : Nat
  heartbeatMs : UInt64
deriving DecidableEq

/-- What one answered call does to a shard's tenure. -/
def Tenure.note (k : ShardKey) (t : Option Tenure) : ClusterOp × ClusterAnswer → Option Tenure
  | (.tryAcquireLeader n k' hlc, .acquired (.ok id)) =>
    if k' = k then some ⟨n, id.term, hlc.physicalMs⟩ else t
  | (.heartbeat _ k' hlc, .unit (.ok ())) =>
    if k' = k then t.map fun t => { t with heartbeatMs := hlc.physicalMs } else t
  | (.relinquish n k', _) => if k' = k ∧ t.map (·.holder) = some n then none else t
  | (.forceRelinquish k', _) => if k' = k then none else t
  | _ => t

/-- A shard's tenure after the calls of a run. -/
def tenure (k : ShardKey) (events : List (ClusterOp × ClusterAnswer)) : Option Tenure :=
  events.foldl (Tenure.note k) none

/-- The term a successful acquire of the shard issues. -/
def issuedTerm? (k : ShardKey) : ClusterOp × ClusterAnswer → Option Nat
  | (.tryAcquireLeader _ k' _, .acquired (.ok id)) => if k' = k then some id.term else none
  | _ => none

/-- The terms a run issues for a shard, in order. -/
def issuedTerms (k : ShardKey) (events : List (ClusterOp × ClusterAnswer)) : List Nat :=
  events.filterMap (issuedTerm? k)

/-! ## One call -/

/-- The last term issued for a shard, zero at first. -/
def Cluster.termOf (c : Cluster) (k : ShardKey) : Nat := (c.terms.lookup k).getD 0

theorem toNat_saturatingSub (a b : UInt64) : (saturatingSub a b).toNat = a.toNat - b.toNat := by
  unfold saturatingSub
  split
  next h =>
    rw [UInt64.lt_iff_toNat_lt] at h
    rw [UInt64.toNat_zero]
    omega
  next h => exact UInt64.toNat_sub_of_le _ _ (UInt64.not_lt.mp h)

/-- When an acquire fails: the caller is dead, the terms have run out, or another
node's lease runs. -/
def Cluster.Refuses (c : Cluster) (n : WriterNodeId) (k : ShardKey) (nowMs : UInt64) : Prop :=
  n ∈ c.deadWriters ∨ 2 ^ 64 ≤ c.termOf k + 1 ∨ c.leaseHeldByOther n k nowMs = true

/-- An acquire either fails and changes nothing, or seats the caller in the next
term. -/
theorem tryAcquireLeader_cases (c : Cluster) (n : WriterNodeId) (k : ShardKey)
    (hlc : HlcTimestamp) :
    (∃ e, c.tryAcquireLeader n k hlc = (.error e, c)) ∨
    (¬c.Refuses n k hlc.physicalMs ∧
      c.tryAcquireLeader n k hlc =
        (.ok ⟨n, Vector.replicate 32 0, c.termOf k + 1, hlc, k⟩,
          c.seat n k (c.termOf k + 1) hlc.physicalMs)) := by
  unfold Cluster.tryAcquireLeader
  split
  next => exact Or.inl ⟨_, rfl⟩
  next halive =>
    dsimp only
    split
    next => exact Or.inl ⟨_, rfl⟩
    next hterm =>
      split
      next => exact Or.inl ⟨_, rfl⟩
      next hfree => exact Or.inr ⟨fun h => h.elim halive (Or.rec hterm hfree), rfl⟩

/-- A heartbeat either refuses and changes nothing, or comes from the leader. -/
theorem heartbeat_cases (c : Cluster) (n : WriterNodeId) (k : ShardKey) (hlc : HlcTimestamp) :
    (∃ e, c.heartbeat n k hlc = (.error e, c)) ∨
    (n ∉ c.deadWriters ∧ c.leaders.lookup k = some n ∧
      c.heartbeat n k hlc =
        (.ok (), { c with lastHeartbeatMs := c.lastHeartbeatMs.insert k hlc.physicalMs })) := by
  unfold Cluster.heartbeat
  split
  next => exact Or.inl ⟨_, rfl⟩
  next halive =>
    split
    next => exact Or.inl ⟨_, rfl⟩
    next hlead => exact Or.inr ⟨halive, not_not.mp hlead, rfl⟩

/-! ## The maps follow the history -/

/-- The three maps at a shard are what its tenure says. After a release only the
term is left, and nothing is said of it here. -/
structure Tied (k : ShardKey) (t : Option Tenure) (c : Cluster) : Prop where
  leader : c.leaders.lookup k = t.map (·.holder)
  heartbeat : c.lastHeartbeatMs.lookup k = t.map (·.heartbeatMs)
  term : ∀ u, t = some u → c.terms.lookup k = some u.term

theorem tied_new (k : ShardKey) : Tied k none .new :=
  ⟨AList.lookup_empty k, AList.lookup_empty k, fun _ h => nomatch h⟩

/-- Where the maps agree at a shard, so does what they are tied to. -/
theorem Tied.congr {k : ShardKey} {t : Option Tenure} {c c' : Cluster} (h : Tied k t c)
    (hleader : c'.leaders.lookup k = c.leaders.lookup k)
    (hheart : c'.lastHeartbeatMs.lookup k = c.lastHeartbeatMs.lookup k)
    (hterm : c'.terms.lookup k = c.terms.lookup k) : Tied k t c' :=
  ⟨hleader.trans h.leader, hheart.trans h.heartbeat, fun u hu => hterm.trans (h.term u hu)⟩

theorem tied_seat (k : ShardKey) (c : Cluster) (n : WriterNodeId) (term : Nat) (ms : UInt64) :
    Tied k (some ⟨n, term, ms⟩) (c.seat n k term ms) := by
  refine ⟨AList.lookup_insert _, AList.lookup_insert _, ?_⟩
  intro u hu
  rw [← Option.some.inj hu]
  exact AList.lookup_insert _

theorem tied_unseat (k : ShardKey) (c : Cluster) : Tied k none (c.unseat k) :=
  ⟨AList.lookup_erase _ _, AList.lookup_erase _ _, fun _ h => nomatch h⟩

theorem Tied.seat_ne {k k' : ShardKey} {t : Option Tenure} {c : Cluster} (h : Tied k t c)
    (hne : k ≠ k') (n : WriterNodeId) (term : Nat) (ms : UInt64) :
    Tied k t (c.seat n k' term ms) :=
  h.congr (AList.lookup_insert_ne hne) (AList.lookup_insert_ne hne) (AList.lookup_insert_ne hne)

theorem Tied.unseat_ne {k k' : ShardKey} {t : Option Tenure} {c : Cluster} (h : Tied k t c)
    (hne : k ≠ k') : Tied k t (c.unseat k') :=
  h.congr (AList.lookup_erase_ne hne) (AList.lookup_erase_ne hne) rfl

/-- A heartbeat of the leader moves the tenure's heartbeat and nothing else. -/
theorem Tied.beat {k : ShardKey} {t : Option Tenure} {c : Cluster} {n : WriterNodeId} {ms : UInt64}
    (h : Tied k t c) (hlead : c.leaders.lookup k = some n) :
    Tied k (t.map fun t => { t with heartbeatMs := ms })
      { c with lastHeartbeatMs := c.lastHeartbeatMs.insert k ms } := by
  cases t with
  | none =>
    have hnone := h.leader
    rw [hlead] at hnone
    cases hnone
  | some t =>
    refine ⟨h.leader, AList.lookup_insert _, ?_⟩
    intro u hu
    rw [← Option.some.inj hu]
    exact h.term t rfl

variable {blake3}

/-- Every call keeps the maps tied to the history it adds to. -/
theorem tied_step {k : ShardKey} {t : Option Tenure} {c : Cluster} (h : Tied k t c)
    (op : ClusterOp) :
    Tied k (Tenure.note k t (op, (clusterStep blake3 c op).1)) (clusterStep blake3 c op).2 := by
  cases op with
  | setLeaseDurationMs ms => exact h.congr rfl rfl rfl
  | kill n => exact h.congr rfl rfl rfl
  | revive n => exact h.congr rfl rfl rfl
  | appendWalEntry e => exact h.congr rfl rfl rfl
  | appendNonceRecord r => exact h.congr rfl rfl rfl
  | tryAcquireLeader n k' hlc =>
    obtain ⟨e, heq⟩ | ⟨-, heq⟩ := tryAcquireLeader_cases c n k' hlc
    · simp only [clusterStep, heq, Tenure.note]
      exact h
    · simp only [clusterStep, heq, Tenure.note]
      split
      next hk =>
        subst hk
        exact tied_seat k' c n _ _
      next hk => exact h.seat_ne (Ne.symm hk) n _ _
  | relinquish n k' =>
    simp only [clusterStep, Cluster.relinquish, Tenure.note]
    by_cases hk : k' = k
    · subst hk
      -- the code asks the map of leaders, the history asks the tenure
      simp only [true_and, h.leader]
      split
      · exact tied_unseat k' c
      · exact h
    · rw [if_neg fun hc => hk hc.1]
      split
      · exact h.unseat_ne (Ne.symm hk)
      · exact h
  | heartbeat n k' hlc =>
    obtain ⟨e, heq⟩ | ⟨-, hlead, heq⟩ := heartbeat_cases c n k' hlc
    · simp only [clusterStep, heq, Tenure.note]
      exact h
    · simp only [clusterStep, heq, Tenure.note]
      split
      next hk =>
        subst hk
        exact h.beat hlead
      next hk => exact h.congr rfl (AList.lookup_insert_ne (Ne.symm hk)) rfl
  | forceRelinquish k' =>
    simp only [clusterStep, Cluster.forceRelinquish, Tenure.note]
    split
    next hk =>
      subst hk
      exact tied_unseat k' c
    next hk => exact h.unseat_ne (Ne.symm hk)

/-! ## Terms -/

/-- A call that issues a term for a shard issues the next one; every other call
leaves the shard's term alone. -/
theorem termOf_step (c : Cluster) (k : ShardKey) (op : ClusterOp) :
    (issuedTerm? k (op, (clusterStep blake3 c op).1) = some (c.termOf k + 1) ∧
      (clusterStep blake3 c op).2.termOf k = c.termOf k + 1) ∨
    (issuedTerm? k (op, (clusterStep blake3 c op).1) = none ∧
      (clusterStep blake3 c op).2.termOf k = c.termOf k) := by
  cases op with
  | setLeaseDurationMs ms => exact Or.inr ⟨rfl, rfl⟩
  | kill n => exact Or.inr ⟨rfl, rfl⟩
  | revive n => exact Or.inr ⟨rfl, rfl⟩
  | forceRelinquish k' => exact Or.inr ⟨rfl, rfl⟩
  | appendWalEntry e => exact Or.inr ⟨rfl, rfl⟩
  | appendNonceRecord r => exact Or.inr ⟨rfl, rfl⟩
  | relinquish n k' =>
    refine Or.inr ⟨rfl, ?_⟩
    simp only [clusterStep, Cluster.relinquish]
    split
    · rfl
    · rfl
  | heartbeat n k' hlc =>
    refine Or.inr ⟨rfl, ?_⟩
    obtain ⟨e, heq⟩ | ⟨-, -, heq⟩ := heartbeat_cases c n k' hlc
    · simp only [clusterStep, heq]
    · simp only [clusterStep, heq]
      rfl
  | tryAcquireLeader n k' hlc =>
    obtain ⟨e, heq⟩ | ⟨-, heq⟩ := tryAcquireLeader_cases c n k' hlc
    · simp only [clusterStep, heq, issuedTerm?]
      exact Or.inr ⟨trivial, trivial⟩
    · simp only [clusterStep, heq, issuedTerm?]
      split
      next hk =>
        subst hk
        refine Or.inl ⟨rfl, ?_⟩
        show ((c.terms.insert k' _).lookup k').getD 0 = _
        rw [AList.lookup_insert]
        rfl
      next hk =>
        refine Or.inr ⟨rfl, ?_⟩
        show ((c.terms.insert k' _).lookup k).getD 0 = _
        rw [AList.lookup_insert_ne (Ne.symm hk)]
        rfl

/-- From any state on, the terms issued for a shard grow from its current one. -/
theorem issuedTerms_above (c : Cluster) (k : ShardKey) (ops : List ClusterOp) :
    (∀ n ∈ issuedTerms k (trace (clusterStep blake3) c ops), c.termOf k < n) ∧
      (issuedTerms k (trace (clusterStep blake3) c ops)).Pairwise (· < ·) := by
  induction ops generalizing c with
  | nil => exact ⟨fun n hn => absurd hn List.not_mem_nil, List.Pairwise.nil⟩
  | cons op ops ih =>
    obtain ⟨hfloor, hpair⟩ := ih (clusterStep blake3 c op).2
    simp only [trace, issuedTerms, List.filterMap_cons]
    obtain ⟨hissue, hterm⟩ | ⟨hissue, hterm⟩ := @termOf_step blake3 c k op
    -- later terms are above the one issued here, which is above the current one
    · rw [hterm] at hfloor
      rw [hissue]
      refine ⟨?_, List.pairwise_cons.mpr ⟨hfloor, hpair⟩⟩
      intro n hn
      rcases List.mem_cons.mp hn with rfl | hn
      · exact Nat.lt_succ_self _
      · exact Nat.lt_of_succ_lt (hfloor n hn)
    · rw [hterm] at hfloor
      rw [hissue]
      exact ⟨hfloor, hpair⟩

/-! ## Whole runs -/

/-- After a run, the maps are tied to its history. -/
theorem tied_run (k : ShardKey) (ops : List ClusterOp) :
    Tied k (tenure k (trace (clusterStep blake3) .new ops)) (final (clusterStep blake3) .new ops) := by
  refine run_induct (fun events c => Tied k (tenure k events) c) (tied_new k) ?_ ops
  intro events c op h
  rw [tenure, List.foldl_append]
  exact tied_step h op

/-- What `current_leader` reports of a tenure. -/
def Tenure.identity (k : ShardKey) (t : Tenure) : WriterIdentity :=
  ⟨t.holder, Vector.replicate 32 0, t.term, ⟨t.heartbeatMs, 0, t.holder⟩, k⟩

theorem Tied.currentLeader {k : ShardKey} {t : Option Tenure} {c : Cluster} (h : Tied k t c) :
    c.currentLeader k = t.map (Tenure.identity k) := by
  unfold Cluster.currentLeader
  rw [h.leader, h.heartbeat]
  cases t with
  | none => rfl
  | some t =>
    rw [h.term t rfl]
    rfl

/-- A successful acquire found the shard free, its own, or past its lease. -/
theorem Tied.acquired {k : ShardKey} {t : Tenure} {c : Cluster} (h : Tied k (some t) c)
    {n : WriterNodeId} {hlc : HlcTimestamp} {id : WriterIdentity}
    (hok : (c.tryAcquireLeader n k hlc).1 = .ok id) (hother : t.holder ≠ n) :
    c.leaseDurationMs = 0 ∨
      t.heartbeatMs.toNat + c.leaseDurationMs.toNat ≤ hlc.physicalMs.toNat := by
  obtain ⟨e, heq⟩ | ⟨hnot, heq⟩ := tryAcquireLeader_cases c n k hlc
  · rw [heq] at hok
    cases hok
  · have hleader : c.leaders.lookup k = some t.holder := h.leader
    have hheart : c.lastHeartbeatMs.lookup k = some t.heartbeatMs := h.heartbeat
    have hfree := Bool.eq_false_iff.mpr fun hheld => hnot (Or.inr (Or.inr hheld))
    simp only [Cluster.leaseHeldByOther, hleader, hheart, Option.getD_some, Bool.and_eq_false_iff,
      decide_eq_false_iff_not, UInt64.lt_iff_toNat_lt, toNat_saturatingSub] at hfree
    rcases hfree with hsame | hexpired
    · exact absurd hother hsame
    · rw [← UInt64.toNat_inj, UInt64.toNat_zero]
      omega

/-- The lease duration changes only where it is set. -/
theorem leaseDurationMs_step (c : Cluster) (op : ClusterOp) :
    op = .setLeaseDurationMs (clusterStep blake3 c op).2.leaseDurationMs ∨
      (clusterStep blake3 c op).2.leaseDurationMs = c.leaseDurationMs := by
  cases op with
  | setLeaseDurationMs ms => exact Or.inl rfl
  | kill n => exact Or.inr rfl
  | revive n => exact Or.inr rfl
  | forceRelinquish k => exact Or.inr rfl
  | appendWalEntry e => exact Or.inr rfl
  | appendNonceRecord r => exact Or.inr rfl
  | relinquish n k =>
    refine Or.inr ?_
    simp only [clusterStep, Cluster.relinquish]
    split
    · rfl
    · rfl
  | heartbeat n k hlc =>
    refine Or.inr ?_
    obtain ⟨e, heq⟩ | ⟨-, -, heq⟩ := heartbeat_cases c n k hlc
    · simp only [clusterStep, heq]
    · simp only [clusterStep, heq]
  | tryAcquireLeader n k hlc =>
    refine Or.inr ?_
    obtain ⟨e, heq⟩ | ⟨-, heq⟩ := tryAcquireLeader_cases c n k hlc
    · simp only [clusterStep, heq]
    · simp only [clusterStep, heq]
      rfl

/-- A lease of no duration was set so: a new cluster has another. -/
theorem set_of_leaseDurationMs_eq_zero (ops : List ClusterOp)
    (h : (final (clusterStep blake3) .new ops).leaseDurationMs = 0) :
    ClusterOp.setLeaseDurationMs 0 ∈ ops := by
  have hrun : ClusterOp.setLeaseDurationMs 0 ∈ (trace (clusterStep blake3) .new ops).map Prod.fst := by
    refine run_induct (fun events c => c.leaseDurationMs = 0 →
      ClusterOp.setLeaseDurationMs 0 ∈ events.map Prod.fst) ?_ ?_ ops h
    · intro hnew
      cases hnew
    · intro events c op ih hzero
      rw [List.map_append]
      rcases @leaseDurationMs_step blake3 c op with hset | hkept
      · rw [hzero] at hset
        exact List.mem_append_right _ (List.mem_singleton.mpr hset.symm)
      · exact List.mem_append_left _ (ih (hkept.symm.trans hzero))
  rwa [map_fst_trace] at hrun

/-- **Election safety.** Over any calls of any nodes on one cluster: the terms
issued for a shard grow strictly, also across releases; a node that takes over
from another without a release does so at least the lease duration after the
last heartbeat, unless the duration was set to zero; and `current_leader`
reports the last acquire, or nobody after a release. -/
theorem writer_election_safe (ops : List ClusterOp) (k : ShardKey) :
    (issuedTerms k (trace (clusterStep blake3) .new ops)).Pairwise (· < ·) ∧
    (∀ before n hlc after id t, ops = before ++ .tryAcquireLeader n k hlc :: after →
      (clusterStep blake3 (final (clusterStep blake3) .new before)
        (.tryAcquireLeader n k hlc)).1 = .acquired (.ok id) →
      tenure k (trace (clusterStep blake3) .new before) = some t → t.holder ≠ n →
      ((final (clusterStep blake3) .new before).leaseDurationMs = 0 ∧
        .setLeaseDurationMs 0 ∈ before) ∨
      t.heartbeatMs.toNat + (final (clusterStep blake3) .new before).leaseDurationMs.toNat
        ≤ hlc.physicalMs.toNat) ∧
    (final (clusterStep blake3) .new ops).currentLeader k
      = (tenure k (trace (clusterStep blake3) .new ops)).map (Tenure.identity k) := by
  refine ⟨(issuedTerms_above .new k ops).2, ?_, (tied_run k ops).currentLeader⟩
  intro before n hlc after id t _ hok ht hother
  have htied := @tied_run blake3 k before
  rw [ht] at htied
  rcases htied.acquired (ClusterAnswer.acquired.inj hok) hother with hzero | hpast
  · exact Or.inl ⟨hzero, set_of_leaseDurationMs_eq_zero before hzero⟩
  · exact Or.inr hpast

end CipherOcto.Substrate
