import CipherOcto.Substrate.Cluster
import CipherOcto.Cap.Chain

/-!
# Write coordinators

A coordinator accepts a register, a revoke or a drain in two steps: it asks
the cluster who leads the shard, and then it appends the entry. Each step takes
the cluster's lock once and nothing ties them together: the entry carries no
term and the append checks nothing. So between the two the lease may pass to
another node or be released, and the leader may be marked dead. Nor does the
leader check look at the dead nodes.

> `Undisturbed`: what must not happen to a shard while an entry for it waits.
> `no_stale_write`: along the runs that keep to it, every entry is appended by
> the current leader, alive.
-/

namespace CipherOcto.Substrate

open Encoding Machine Trace Cap

/-! ## The code -/

/-- `DidWriteCoordinatorError` and `DrainCoordinatorError`, as far as the
coordinators return them. -/
inductive CoordinatorError where
  | writerUnavailable
  | chainIdMismatch
  | walCorruption (text : String)
deriving DecidableEq

/-- `RaftLikeDidWriteCoordinator` and `RaftLikeDrainCoordinator`. The election
and the log they hold are those of the shared cluster. -/
structure Coordinator where
  nodeId : WriterNodeId
  chainId : String
  hlc : HlcClock
deriving DecidableEq

def Coordinator.new (chainId : String) (nodeId : WriterNodeId) : Coordinator :=
  ⟨nodeId, chainId, .new nodeId⟩

/-- Borsh of a byte string: its length on four bytes, then the bytes. -/
def borshBytes (bytes : List UInt8) : Option (List UInt8) :=
  if bytes.length < 2 ^ 32 then some (Bytes.toLe 4 bytes.length ++ bytes) else none

/-- `DrainWalPayload`, serialized. -/
def drainWalPayload (holderDid : String) (macaroonId : List UInt8) (requestedCost : Nat)
    (chainId : String) : Option (List UInt8) := do
  let did ← borshBytes (utf8 holderDid)
  let id ← borshBytes macaroonId
  let chain ← borshBytes (utf8 chainId)
  pure (did ++ id ++ Bytes.toLe 16 requestedCost ++ chain)

namespace Coordinator

/-- The leader check. -/
def checkLeader (co : Coordinator) (c : Cluster) (k : ShardKey) : Except CoordinatorError Unit :=
  match c.currentLeader k with
  | none => .error .writerUnavailable
  | some leader => if leader.writerNodeId ≠ co.nodeId then .error .writerUnavailable else .ok ()

variable (blake3 : List UInt8 → Bytes32)

/-- What the three submissions do before they append: check the leader, read the
clock, serialize, and build the entry. -/
def prepare (co : Coordinator) (c : Cluster) (observed : UInt64) (k : ShardKey)
    (clockFailed : CoordinatorError) (payload : Except CoordinatorError (List UInt8))
    (entryType : UInt8) : Except CoordinatorError WalEntry × Coordinator :=
  match co.checkLeader c k with
  | .error e => (.error e, co)
  | .ok () =>
    match (co.hlc.now observed).val with
    | (.error _, hlc) => (.error clockFailed, { co with hlc })
    | (.ok _, hlc) => (payload.map (WalEntry.buildV13 blake3 entryType k), { co with hlc })

/-- The clock's error as the DID coordinator reports it. -/
def hlcFailed : CoordinatorError := .walCorruption "hlc: logical counter overflow at u32::MAX"

/-- `submit_register_validated`, up to the append. `serialize` is Borsh of the
document, with the text of its error. -/
def submitRegisterValidated {Doc : Type} (serialize : Doc → Except String (List UInt8))
    (co : Coordinator) (c : Cluster) (observed : UInt64) (canonicalDidHash : Bytes32)
    (chainId : String) (document : Doc) : Except CoordinatorError WalEntry × Coordinator :=
  if chainId ≠ co.chainId then (.error .chainIdMismatch, co)
  else
    co.prepare blake3 c observed (deriveCanonical blake3 canonicalDidHash.toList) hlcFailed
      ((serialize document).mapError fun text => .walCorruption ("borsh: " ++ text))
      entryTypeDidRegister

/-- `submit_revoke`, up to the append. -/
def submitRevoke (co : Coordinator) (c : Cluster) (observed : UInt64) (canonicalDidHash : Bytes32)
    (chainId : String) : Except CoordinatorError WalEntry × Coordinator :=
  if chainId ≠ co.chainId then (.error .chainIdMismatch, co)
  else
    co.prepare blake3 c observed (deriveCanonical blake3 canonicalDidHash.toList) hlcFailed
      (.ok canonicalDidHash.toList) entryTypeDidRevoke

/-- `submit_drain`, up to the append. It has no chain to check: the chain of the
deployment goes into the payload. -/
def submitDrain (co : Coordinator) (c : Cluster) (observed : UInt64) (holderDid : String)
    (macaroonId : List UInt8) (requestedCost : Nat) :
    Except CoordinatorError WalEntry × Coordinator :=
  co.prepare blake3 c observed (deriveCanonical blake3 (utf8 holderDid)) .writerUnavailable
    (match drainWalPayload holderDid macaroonId requestedCost co.chainId with
      | some bytes => .ok bytes
      | none => .error .writerUnavailable)
    entryTypeDrain

end Coordinator

inductive Request (Doc : Type) where
  | register (canonicalDidHash : Bytes32) (chainId : String) (document : Doc)
  | revoke (canonicalDidHash : Bytes32) (chainId : String)
  | drain (holderDid : String) (macaroonId : List UInt8) (requestedCost : Nat)

/-- An entry whose leader check has passed and that is not appended yet. -/
structure Pending where
  nodeId : WriterNodeId
  entry : WalEntry

/-- A cluster, its coordinators, and what they are about to append. -/
structure System where
  cluster : Cluster
  coordinators : List Coordinator
  pending : List Pending

inductive SystemOp (Doc : Type) where
  | cluster (op : ClusterOp)
  | check (coordinator : Nat) (request : Request Doc) (observed : UInt64)
  | append (waiting : Nat)

inductive SystemAnswer where
  | none
  | cluster (answer : ClusterAnswer)
  | refused (e : CoordinatorError)
  | checked
  | appended (nodeId : WriterNodeId) (shardKey : ShardKey) (lsn : Nat)

section

variable {Doc : Type} (blake3 : List UInt8 → Bytes32)
  (serialize : Doc → Except String (List UInt8))

/-- The shard a request is for. -/
def Request.shardKey : Request Doc → ShardKey
  | .register canonicalDidHash _ _ => deriveCanonical blake3 canonicalDidHash.toList
  | .revoke canonicalDidHash _ => deriveCanonical blake3 canonicalDidHash.toList
  | .drain holderDid _ _ => deriveCanonical blake3 (utf8 holderDid)

def Coordinator.submit (co : Coordinator) (c : Cluster) (observed : UInt64) :
    Request Doc → Except CoordinatorError WalEntry × Coordinator
  | .register hash chainId document =>
    co.submitRegisterValidated blake3 serialize c observed hash chainId document
  | .revoke hash chainId => co.submitRevoke blake3 c observed hash chainId
  | .drain holderDid macaroonId cost => co.submitDrain blake3 c observed holderDid macaroonId cost

/-- One step of the whole: a cluster call of any node, a coordinator's check, or
one of the appends that wait. -/
def systemStep (s : System) : SystemOp Doc → SystemAnswer × System
  | .cluster op =>
    (.cluster (clusterStep blake3 s.cluster op).1,
      { s with cluster := (clusterStep blake3 s.cluster op).2 })
  | .check i request observed =>
    match s.coordinators[i]? with
    | none => (.none, s)
    | some co =>
      match co.submit blake3 serialize s.cluster observed request with
      | (.error e, co') => (.refused e, { s with coordinators := s.coordinators.set i co' })
      | (.ok entry, co') =>
        (.checked, { s with coordinators := s.coordinators.set i co'
                            pending := s.pending ++ [⟨co.nodeId, entry⟩] })
  | .append j =>
    match s.pending[j]? with
    | none => (.none, s)
    | some p =>
      (.appended p.nodeId p.entry.shardKey (s.cluster.appendWalEntry blake3 p.entry).1,
        { s with cluster := (s.cluster.appendWalEntry blake3 p.entry).2
                 pending := s.pending.eraseIdx j })

/-- A new cluster with its coordinators. -/
def System.new (coordinators : List Coordinator) : System := ⟨.new, coordinators, []⟩

/-! ## Stale writes -/

/-- The node leads the shard and is not marked dead. -/
def Writable (c : Cluster) (n : WriterNodeId) (k : ShardKey) : Prop :=
  (c.currentLeader k).map (·.writerNodeId) = some n ∧ n ∉ c.deadWriters

/-- Every append of a run is made while its node leads the shard, alive. -/
def NoStaleWrite (s : System) (ops : List (SystemOp Doc)) : Prop :=
  Along (systemStep blake3 serialize) (fun s op => ∀ j p, op = .append j → s.pending[j]? = some p →
    Writable s.cluster p.nodeId p.entry.shardKey) s ops

/-- A step that leaves the waiting entries their leaders: no other node acquires
a shard with an entry waiting, its lease is not released, its node is not
killed; and no check is made for a dead leader. -/
def Undisturbed (s : System) : SystemOp Doc → Prop
  | .cluster (.tryAcquireLeader n k hlc) => ∀ p ∈ s.pending, p.entry.shardKey = k →
      n = p.nodeId ∨ s.cluster.Refuses n k hlc.physicalMs
  | .cluster (.relinquish n k) => ∀ p ∈ s.pending, p.entry.shardKey = k → n ≠ p.nodeId
  | .cluster (.forceRelinquish k) => ∀ p ∈ s.pending, p.entry.shardKey ≠ k
  | .cluster (.kill n) => ∀ p ∈ s.pending, n ≠ p.nodeId
  | .cluster _ => True
  | .check i request _ => ∀ co, s.coordinators[i]? = some co →
      (s.cluster.currentLeader (request.shardKey blake3)).map (·.writerNodeId) = some co.nodeId →
      co.nodeId ∉ s.cluster.deadWriters
  | .append _ => True

/-! ## One step -/

/-- Everything that waits may still be written. -/
def AllWritable (s : System) : Prop :=
  ∀ p ∈ s.pending, Writable s.cluster p.nodeId p.entry.shardKey

variable {blake3 serialize}

/-- A node leads a shard when the map of leaders says so and the other two have
an entry. -/
theorem currentLeader_node_iff (c : Cluster) (n : WriterNodeId) (k : ShardKey) :
    (c.currentLeader k).map (·.writerNodeId) = some n ↔
      c.leaders.lookup k = some n ∧ (c.terms.lookup k).isSome ∧
        (c.lastHeartbeatMs.lookup k).isSome := by
  unfold Cluster.currentLeader
  cases c.leaders.lookup k with
  | none => simp
  | some m =>
    cases c.terms.lookup k with
    | none => simp
    | some t =>
      cases c.lastHeartbeatMs.lookup k with
      | none => simp
      | some ms => simp

/-- A cluster call that does not take a shard from its leader keeps it writable. -/
theorem Writable.step {c : Cluster} {n : WriterNodeId} {k : ShardKey} (h : Writable c n k)
    {op : ClusterOp}
    (hacquire : ∀ m hlc, op = .tryAcquireLeader m k hlc → m = n ∨ c.Refuses m k hlc.physicalMs)
    (hrelinquish : ∀ m, op = .relinquish m k → m ≠ n)
    (hforce : op ≠ .forceRelinquish k) (hkill : op ≠ .kill n) :
    Writable (clusterStep blake3 c op).2 n k := by
  obtain ⟨hlead, halive⟩ := h
  obtain ⟨hnode, hterm, hheart⟩ := (currentLeader_node_iff c n k).mp hlead
  cases op with
  | setLeaseDurationMs ms => exact ⟨hlead, halive⟩
  | appendWalEntry e => exact ⟨hlead, halive⟩
  | appendNonceRecord r => exact ⟨hlead, halive⟩
  | revive m => exact ⟨hlead, fun hmem => halive (List.mem_of_mem_filter hmem)⟩
  | kill m =>
    refine ⟨hlead, fun hmem => ?_⟩
    rcases List.mem_append.mp hmem with hold | hnew
    · exact halive hold
    · exact hkill (by rw [List.mem_singleton.mp hnew])
  | tryAcquireLeader m k' hlc =>
    obtain ⟨e, heq⟩ | ⟨hfree, heq⟩ := tryAcquireLeader_cases c m k' hlc
    · simp only [clusterStep, heq]
      exact ⟨hlead, halive⟩
    · simp only [clusterStep, heq]
      refine ⟨(currentLeader_node_iff _ n k).mpr ?_, halive⟩
      by_cases hk : k = k'
      -- only the leader itself gets the shard again, in a new term
      · subst hk
        have hm : m = n := (hacquire m hlc rfl).resolve_right hfree
        subst hm
        simp only [Cluster.seat, AList.lookup_insert, Option.isSome_some, and_self]
      · simp only [Cluster.seat, AList.lookup_insert_ne hk]
        exact ⟨hnode, hterm, hheart⟩
  | relinquish m k' =>
    simp only [clusterStep, Cluster.relinquish]
    split
    next hm =>
      have hk : k ≠ k' := by
        intro hk
        subst hk
        rw [hnode] at hm
        exact hrelinquish m rfl (Option.some.inj hm).symm
      refine ⟨(currentLeader_node_iff _ n k).mpr ?_, halive⟩
      simp only [Cluster.unseat, AList.lookup_erase_ne hk]
      exact ⟨hnode, hterm, hheart⟩
    next => exact ⟨hlead, halive⟩
  | heartbeat m k' hlc =>
    obtain ⟨e, heq⟩ | ⟨-, -, heq⟩ := heartbeat_cases c m k' hlc
    · simp only [clusterStep, heq]
      exact ⟨hlead, halive⟩
    · simp only [clusterStep, heq]
      refine ⟨(currentLeader_node_iff _ n k).mpr ⟨hnode, hterm, ?_⟩, halive⟩
      by_cases hk : k = k'
      · subst hk
        rw [AList.lookup_insert]
        rfl
      · rw [AList.lookup_insert_ne hk]
        exact hheart
  | forceRelinquish k' =>
    have hk : k ≠ k' := by
      intro hk
      exact hforce (by rw [hk])
    refine ⟨(currentLeader_node_iff _ n k).mpr ?_, halive⟩
    simp only [clusterStep, Cluster.forceRelinquish, Cluster.unseat, AList.lookup_erase_ne hk]
    exact ⟨hnode, hterm, hheart⟩

theorem prepare_ok {co : Coordinator} {c : Cluster} {observed : UInt64} {k : ShardKey}
    {clockFailed : CoordinatorError} {payload : Except CoordinatorError (List UInt8)}
    {entryType : UInt8} {entry : WalEntry}
    (h : (co.prepare blake3 c observed k clockFailed payload entryType).1 = .ok entry) :
    (c.currentLeader k).map (·.writerNodeId) = some co.nodeId ∧ entry.shardKey = k := by
  unfold Coordinator.prepare Coordinator.checkLeader at h
  cases hleader : c.currentLeader k with
  | none =>
    rw [hleader] at h
    cases h
  | some leader =>
    rw [hleader] at h
    by_cases hnode : leader.writerNodeId = co.nodeId
    · simp only [hnode, ne_eq, not_true_eq_false, if_false] at h
      split at h
      next => cases h
      next =>
        cases payload with
        | error e => cases h
        | ok bytes =>
          cases h
          exact ⟨congrArg some hnode, rfl⟩
    · simp only [ne_eq, hnode, not_false_eq_true, if_true] at h
      cases h

/-- A check that passes was made by the shard's leader, and its entry is for the
shard of the request. -/
theorem submit_ok {co : Coordinator} {c : Cluster} {observed : UInt64} {request : Request Doc}
    {entry : WalEntry} (h : (co.submit blake3 serialize c observed request).1 = .ok entry) :
    (c.currentLeader (request.shardKey blake3)).map (·.writerNodeId) = some co.nodeId ∧
      entry.shardKey = request.shardKey blake3 := by
  cases request with
  | register hash chainId document =>
    simp only [Coordinator.submit, Coordinator.submitRegisterValidated] at h
    split at h
    · cases h
    · exact prepare_ok h
  | revoke hash chainId =>
    simp only [Coordinator.submit, Coordinator.submitRevoke] at h
    split at h
    · cases h
    · exact prepare_ok h
  | drain holderDid macaroonId cost => exact prepare_ok h

/-- A step that disturbs nothing keeps everything that waits writable. -/
theorem allWritable_step (s : System) (op : SystemOp Doc) (h : AllWritable s)
    (hop : Undisturbed blake3 s op) : AllWritable (systemStep blake3 serialize s op).2 := by
  cases op with
  | cluster op =>
    intro p hp
    refine (h p hp).step ?_ ?_ ?_ ?_
    · intro m hlc heq
      subst heq
      exact hop p hp rfl
    · intro m heq
      subst heq
      exact hop p hp rfl
    · intro heq
      subst heq
      exact hop p hp rfl
    · intro heq
      subst heq
      exact hop p hp rfl
  | check i request observed =>
    cases hco : s.coordinators[i]? with
    | none =>
      simp only [systemStep, hco]
      exact h
    | some co =>
      simp only [systemStep, hco]
      cases hsub : co.submit blake3 serialize s.cluster observed request with
      | mk r co' =>
        cases r with
        | error e => exact h
        | ok entry =>
          -- the one entry that is new has just been checked
          obtain ⟨hlead, hkey⟩ := submit_ok (congrArg Prod.fst hsub)
          intro p hp
          rcases List.mem_append.mp hp with hold | hnew
          · exact h p hold
          · rw [List.mem_singleton.mp hnew]
            refine ⟨?_, hop co hco hlead⟩
            rw [hkey]
            exact hlead
  | append j =>
    cases hp : s.pending[j]? with
    | none =>
      simp only [systemStep, hp]
      exact h
    | some p =>
      simp only [systemStep, hp]
      intro q hq
      exact h q (List.mem_of_mem_eraseIdx hq)

/-- **No stale write.** However many nodes and coordinators there are and however
their steps interleave: along a run that never takes a shard from a leader whose
entry waits, never kills it, and never checks for a dead leader, every entry is
appended by the shard's current leader, alive. -/
theorem no_stale_write (coordinators : List Coordinator) (ops : List (SystemOp Doc))
    (h : Along (systemStep blake3 serialize) (Undisturbed blake3) (.new coordinators) ops) :
    NoStaleWrite blake3 serialize (.new coordinators) ops := by
  have hnew : AllWritable (.new coordinators) := fun p hp => absurd hp List.not_mem_nil
  refine along_induct (fun s op hall hop => ⟨allWritable_step s op hall hop, ?_⟩) hnew h
  intro j p _ hp
  exact hall p (List.mem_of_getElem? hp)

end

/-! One node, its coordinator, and a DID to revoke. -/

def sampleNode : WriterNodeId := Vector.replicate 32 1

def sampleDid : Bytes32 := Vector.replicate 32 7

def sampleCoordinator : Coordinator := .new "cipherocto-test" sampleNode

/-- Borsh of the empty document. -/
def sampleSerialize (_ : Unit) : Except String (List UInt8) := .ok []

section

variable (blake3 : List UInt8 → Bytes32)

def sampleShard : ShardKey := deriveCanonical blake3 sampleDid.toList

def sampleAcquire : SystemOp Unit :=
  .cluster (.tryAcquireLeader sampleNode (sampleShard blake3) ⟨1000, 0, sampleNode⟩)

def sampleCheck : SystemOp Unit := .check 0 (.revoke sampleDid "cipherocto-test") 1000

/-- Acquire, check, append. -/
def heldRun : List (SystemOp Unit) := [sampleAcquire blake3, sampleCheck, .append 0]

/-- The lease is released by force between the check and the append. -/
def releasedRun : List (SystemOp Unit) :=
  [sampleAcquire blake3, sampleCheck, .cluster (.forceRelinquish (sampleShard blake3)), .append 0]

/-- The leader is killed before the check. -/
def killedRun : List (SystemOp Unit) :=
  [sampleAcquire blake3, .cluster (.kill sampleNode), sampleCheck, .append 0]

/-- On a cluster the node leads, the check puts an entry for the shard on the
list of what waits. -/
theorem sampleCheck_passes {c : Cluster}
    (h : (c.currentLeader (sampleShard blake3)).map (·.writerNodeId) = some sampleNode) :
    ∃ e co, e.shardKey = sampleShard blake3 ∧
      (systemStep blake3 sampleSerialize ⟨c, [sampleCoordinator], []⟩ sampleCheck).2
        = ⟨c, [co], [⟨sampleNode, e⟩]⟩ := by
  obtain ⟨leader, hleader, hnode⟩ := Option.map_eq_some_iff.mp h
  refine ⟨.buildV13 blake3 entryTypeDidRevoke (sampleShard blake3) sampleDid.toList,
    { sampleCoordinator with hlc := ⟨1000, 0, sampleNode⟩ }, rfl, ?_⟩
  simp only [sampleShard] at hleader
  simp [systemStep, sampleCheck, Coordinator.submit, Coordinator.submitRevoke,
    Coordinator.prepare, Coordinator.checkLeader, hleader, hnode, sampleCoordinator,
    Coordinator.new, sampleShard]
  rfl

theorem sampleAcquire_seats :
    (systemStep blake3 sampleSerialize (.new [sampleCoordinator]) (sampleAcquire blake3)).2
      = ⟨Cluster.new.seat sampleNode (sampleShard blake3) 1 1000, [sampleCoordinator], []⟩ := rfl

theorem seat_leads (n : WriterNodeId) (k : ShardKey) (ms : UInt64) :
    ((Cluster.new.seat n k 1 ms).currentLeader k).map (·.writerNodeId) = some n := by
  rw [(tied_seat k .new n 1 ms).currentLeader]
  rfl

end

/-- BLAKE3 on what the run hashes: the DID, and its entry before and after it gets
its LSN. -/
def sampleBlake3 (bytes : List UInt8) : Bytes32 :=
  if bytes.length = 32 then
    #v[235, 175, 133, 180, 101, 160, 157, 226, 27, 57, 143, 177, 18, 193, 80, 15, 44, 190, 101,
      140, 66, 243, 121, 224, 192, 241, 141, 36, 184, 25, 246, 55]
  else if bytes.getD 47 0 = 0 then
    #v[83, 105, 249, 232, 160, 133, 120, 148, 0, 78, 82, 170, 87, 55, 12, 87, 249, 156, 193, 134,
      171, 75, 65, 183, 209, 247, 14, 57, 244, 65, 241, 115]
  else
    #v[139, 4, 29, 179, 173, 254, 52, 122, 84, 54, 122, 90, 74, 241, 17, 30, 116, 172, 212, 88,
      168, 147, 110, 250, 114, 50, 62, 145, 240, 141, 202, 158]

/-- A run in which nothing comes between. -/
theorem heldRun_no_stale_write :
    Along (systemStep sampleBlake3 sampleSerialize) (Undisturbed sampleBlake3)
      (.new [sampleCoordinator]) (heldRun sampleBlake3) ∧
    NoStaleWrite sampleBlake3 sampleSerialize (.new [sampleCoordinator]) (heldRun sampleBlake3) := by
  have hkeep : Along (systemStep sampleBlake3 sampleSerialize) (Undisturbed sampleBlake3)
      (.new [sampleCoordinator]) (heldRun sampleBlake3) := by
    refine ⟨fun p hp => absurd hp List.not_mem_nil, ?_, trivial, trivial⟩
    intro co _ _
    exact List.not_mem_nil
  exact ⟨hkeep, no_stale_write _ _ hkeep⟩

/-- Both runs append for a node that does not lead, alive, whatever the hash. -/
theorem stale_writes :
    ¬∃ blake3 : List UInt8 → Bytes32,
      NoStaleWrite blake3 sampleSerialize (.new [sampleCoordinator]) (releasedRun blake3) ∨
      NoStaleWrite blake3 sampleSerialize (.new [sampleCoordinator]) (killedRun blake3) := by
  intro h
  obtain ⟨blake3, h⟩ := h
  have hlead := seat_leads sampleNode (sampleShard blake3) 1000
  rcases h with hreleased | hkilled
  · obtain ⟨e, co, hkey, hstate⟩ := sampleCheck_passes blake3 hlead
    obtain ⟨-, -, -, hlast, -⟩ := hreleased
    rw [sampleAcquire_seats, hstate] at hlast
    obtain ⟨hleader, -⟩ := hlast 0 _ rfl rfl
    rw [hkey] at hleader
    have hnone := (tied_unseat (sampleShard blake3)
      (Cluster.new.seat sampleNode (sampleShard blake3) 1 1000)).currentLeader
    cases hleader.symm.trans (congrArg _ hnone)
  · have hstill : (((Cluster.new.seat sampleNode (sampleShard blake3) 1 1000).kill
        sampleNode).currentLeader (sampleShard blake3)).map (·.writerNodeId) = some sampleNode :=
      hlead
    obtain ⟨e, co, -, hstate⟩ := sampleCheck_passes blake3 hstill
    obtain ⟨-, -, -, hlast, -⟩ := hkilled
    have hkill : (systemStep blake3 sampleSerialize
        ⟨Cluster.new.seat sampleNode (sampleShard blake3) 1 1000, [sampleCoordinator], []⟩
        (.cluster (.kill sampleNode))).2
          = ⟨(Cluster.new.seat sampleNode (sampleShard blake3) 1 1000).kill sampleNode,
              [sampleCoordinator], []⟩ := rfl
    rw [sampleAcquire_seats, hkill, hstate] at hlast
    obtain ⟨-, halive⟩ := hlast 0 _ rfl rfl
    exact halive List.mem_cons_self

end CipherOcto.Substrate
