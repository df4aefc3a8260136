import CipherOcto.Lib.SortBy
import CipherOcto.Network.Merkle
import Mathlib.Data.List.Lex
import Mathlib.Data.Prod.Lex

/-!
# Anti-entropy between gossip peers

A peer sums up the objects of a domain by the Merkle root of their hashes, in
canonical order, and by their number. When two summaries do not match, the
differences of the two sets of hashes name what each side lacks.

The number keeps the root from meeting itself on a list that repeats its end, and
hashes do not repeat within a side: so the summaries match iff the hashes are the
same, and after one exchange they are.
-/

namespace CipherOcto.Network

open Encoding

/-! ## The code -/

inductive GossipScope where
  | global | regional | mission | private' | local' | consensus
deriving DecidableEq

/-- The `u16` of a scope. -/
def GossipScope.toNat : GossipScope → Nat
  | .global => 0x0001
  | .regional => 0x0002
  | .mission => 0x0003
  | .private' => 0x0004
  | .local' => 0x0005
  | .consensus => 0x0006

structure GossipDomainId where
  networkId : UInt32
  missionId : Bytes32
  scope : GossipScope
deriving DecidableEq

/-- `GossipDomainId::to_canonical_bytes`. -/
def GossipDomainId.toCanonicalBytes (d : GossipDomainId) : List UInt8 :=
  Bytes.toBe 4 d.networkId.toNat ++ d.missionId.toList ++ Bytes.toBe 2 d.scope.toNat

structure GossipObject where
  objectType : UInt16
  objectHash : Bytes32
  objectSize : UInt32
  domainId : GossipDomainId
  logicalTimestamp : Nat
  originGateway : Bytes32
  ttlHops : UInt16
  propagationFlags : UInt64
  payloadRoot : Bytes32
  signature : Vector UInt8 64
deriving DecidableEq

/-- `GossipObject::ordering_key`. -/
def GossipObject.orderingKey (o : GossipObject) : List UInt8 ×ₗ Nat ×ₗ Bytes32 :=
  toLex (o.domainId.toCanonicalBytes, toLex (o.logicalTimestamp, o.objectHash))

structure GossipStateSummary where
  domainId : GossipDomainId
  stateRoot : Bytes32
  objectCount : Nat
  watermark : Nat
deriving DecidableEq

/-- The objects of a domain in canonical order. -/
def domainObjects (domainId : GossipDomainId) (objects : List GossipObject) : List GossipObject :=
  sortBy GossipObject.orderingKey (objects.filter fun o => o.domainId = domainId)

/-- The hashes the root is made of. -/
def canonicalHashes (domainId : GossipDomainId) (objects : List GossipObject) : List Bytes32 :=
  (domainObjects domainId objects).map (·.objectHash)

namespace GossipStateSummary

/-- `GossipStateSummary::compute`. -/
def compute (blake3 : List UInt8 → Bytes32) (domainId : GossipDomainId)
    (objects : List GossipObject) : GossipStateSummary where
  domainId := domainId
  stateRoot := computeMerkleRoot blake3 (canonicalHashes domainId objects)
  objectCount := (domainObjects domainId objects).length
  watermark := ((domainObjects domainId objects).map (·.logicalTimestamp)).max?.getD 0

/-- `GossipStateSummary::matches`. -/
def «matches» (self other : GossipStateSummary) : Bool :=
  self.stateRoot = other.stateRoot && self.objectCount = other.objectCount

end GossipStateSummary

structure ReconciliationResult where
  missingFromPeer : List Bytes32
  missingFromUs : List Bytes32
deriving DecidableEq

/-- `AntiEntropyReconciler::reconcile`. No path of it fails. -/
def reconcile (localSummary remoteSummary : GossipStateSummary) (localObjects : List GossipObject)
    (remoteHashes : List Bytes32) : ReconciliationResult :=
  if localSummary.matches remoteSummary then ⟨[], []⟩
  else
    let localHashes := sortedSet
      ((localObjects.filter fun o => o.domainId = localSummary.domainId).map (·.objectHash))
    let remoteSet := sortedSet remoteHashes
    { missingFromPeer := localHashes.filter fun h => h ∉ remoteSet
      missingFromUs := remoteSet.filter fun h => h ∉ localHashes }

/-! ## One exchange -/

/-- `objects` with those of `theirs` that are named. -/
def addNamed (objects theirs : List GossipObject) (named : List Bytes32) : List GossipObject :=
  objects ++ theirs.filter fun o => o.objectHash ∈ named

/-- One side's objects: all of the domain, no hash twice. -/
structure ObjectSet (domainId : GossipDomainId) (objects : List GossipObject) : Prop where
  domain : ∀ o ∈ objects, o.domainId = domainId
  nodup : (objects.map (·.objectHash)).Nodup

/-! ## The canonical order -/

variable {d : GossipDomainId} {xs ys : List GossipObject}

namespace ObjectSet

theorem nodup_objects (h : ObjectSet d xs) : xs.Nodup := h.nodup.of_map _

theorem of_perm (h : ObjectSet d xs) (hperm : ys.Perm xs) : ObjectSet d ys :=
  ⟨fun o ho => h.domain o (hperm.mem_iff.mp ho), ((hperm.map _).nodup_iff).mpr h.nodup⟩

/-- The hash is the last part of the key. -/
theorem orderingKey_injOn (h : ObjectSet d xs) :
    Set.InjOn GossipObject.orderingKey {o | o ∈ xs} := by
  intro a ha b hb heq
  have hlast := congrArg (fun key => (ofLex (ofLex key).2).2) heq
  exact List.inj_on_of_nodup_map h.nodup ha hb hlast

theorem domainObjects_eq (h : ObjectSet d xs) :
    domainObjects d xs = sortBy GossipObject.orderingKey xs := by
  have hall : (xs.filter fun o => o.domainId = d) = xs :=
    List.filter_eq_self.mpr fun o ho => decide_eq_true (h.domain o ho)
  rw [domainObjects, hall]

theorem domainObjects_congr (h : ObjectSet d xs) (hperm : ys.Perm xs) :
    domainObjects d ys = domainObjects d xs := by
  rw [(h.of_perm hperm).domainObjects_eq, h.domainObjects_eq]
  exact (sortBy_congr h.orderingKey_injOn hperm.symm).symm

/-- The summary does not see the order of the objects. -/
theorem compute_congr (h : ObjectSet d xs) (hperm : ys.Perm xs) (blake3 : List UInt8 → Bytes32) :
    GossipStateSummary.compute blake3 d ys = GossipStateSummary.compute blake3 d xs := by
  unfold GossipStateSummary.compute canonicalHashes
  rw [h.domainObjects_congr hperm]

theorem canonicalHashes_perm (h : ObjectSet d xs) :
    (canonicalHashes d xs).Perm (xs.map (·.objectHash)) := by
  rw [canonicalHashes, h.domainObjects_eq]
  exact (sortBy_perm _ xs).map _

end ObjectSet

/-! ## Matching summaries -/

section

variable {blake3 : List UInt8 → Bytes32}

theorem length_canonicalHashes (d : GossipDomainId) (xs : List GossipObject) :
    (canonicalHashes d xs).length = (domainObjects d xs).length := List.length_map _

/-- The number of leaves takes the place of a zero root: it tells no objects from some. -/
theorem matches_iff_canonicalHashes
    (hinj : Set.InjOn blake3 {m | m ∈ merkleInputs blake3 (canonicalHashes d xs) ++
      merkleInputs blake3 (canonicalHashes d ys)}) :
    (GossipStateSummary.compute blake3 d xs).matches (GossipStateSummary.compute blake3 d ys) ↔
      canonicalHashes d xs = canonicalHashes d ys := by
  unfold GossipStateSummary.matches GossipStateSummary.compute
  simp only [Bool.and_eq_true, decide_eq_true_eq, ← length_canonicalHashes]
  constructor
  · intro hmatch
    obtain ⟨hroot, hlen⟩ := hmatch
    by_cases hxs : canonicalHashes d xs = []
    · rw [hxs, List.length_nil, eq_comm, List.length_eq_zero_iff] at hlen
      rw [hxs, hlen]
    · have hys : canonicalHashes d ys ≠ [] := by
        rw [← List.length_pos_iff, ← hlen]
        exact List.length_pos_of_ne_nil hxs
      exact PairTree.eq_of_complete_eq
        ((computeMerkleRoot_eq_iff_of_ne_nil hinj hxs hys).mp hroot) hlen
  · intro heq
    rw [heq]
    exact ⟨rfl, rfl⟩

/-- The same hashes are the same objects, where a hash has one object. -/
theorem perm_of_hashes (hxs : ObjectSet d xs) (hys : ObjectSet d ys)
    (hone : ∀ a ∈ xs, ∀ b ∈ ys, a.objectHash = b.objectHash → a = b)
    (hmem : ∀ h, h ∈ xs.map (·.objectHash) ↔ h ∈ ys.map (·.objectHash)) : xs.Perm ys := by
  refine (List.perm_ext_iff_of_nodup hxs.nodup_objects hys.nodup_objects).mpr fun o => ?_
  constructor
  · intro ho
    obtain ⟨b, hb, heq⟩ := List.mem_map.mp ((hmem _).mp (List.mem_map_of_mem ho))
    exact hone o ho b hb heq.symm ▸ hb
  · intro ho
    obtain ⟨a, ha, heq⟩ := List.mem_map.mp ((hmem _).mpr (List.mem_map_of_mem ho))
    exact hone a ha o ho heq ▸ ha

theorem matches_iff_hashes (hxs : ObjectSet d xs) (hys : ObjectSet d ys)
    (hone : ∀ a ∈ xs, ∀ b ∈ ys, a.objectHash = b.objectHash → a = b)
    (hinj : Set.InjOn blake3 {m | m ∈ merkleInputs blake3 (canonicalHashes d xs) ++
      merkleInputs blake3 (canonicalHashes d ys)}) :
    (GossipStateSummary.compute blake3 d xs).matches (GossipStateSummary.compute blake3 d ys) ↔
      ∀ h, h ∈ xs.map (·.objectHash) ↔ h ∈ ys.map (·.objectHash) := by
  rw [matches_iff_canonicalHashes hinj]
  constructor
  · intro heq h
    rw [← hxs.canonicalHashes_perm.mem_iff, heq, hys.canonicalHashes_perm.mem_iff]
  · intro hmem
    rw [canonicalHashes, hys.domainObjects_congr (perm_of_hashes hxs hys hone hmem)]
    rfl

/-! ## Convergence -/

theorem mem_addNamed {theirs : List GossipObject} {named : List Bytes32} {o : GossipObject} :
    o ∈ addNamed xs theirs named ↔ o ∈ xs ∨ o ∈ theirs ∧ o.objectHash ∈ named := by
  rw [addNamed, List.mem_append, List.mem_filter, decide_eq_true_eq]

/-- What a side lacks can be added to it. -/
theorem ObjectSet.addNamed (hxs : ObjectSet d xs) (hys : ObjectSet d ys) {named : List Bytes32}
    (hnew : ∀ h ∈ named, h ∉ xs.map (·.objectHash)) : ObjectSet d (addNamed xs ys named) := by
  constructor
  · intro o ho
    rcases mem_addNamed.mp ho with hown | htheirs
    · exact hxs.domain o hown
    · exact hys.domain o htheirs.1
  · rw [Network.addNamed, List.map_append]
    refine List.Nodup.append hxs.nodup (hys.nodup.sublist (List.filter_sublist.map _)) ?_
    intro h hown hadded
    obtain ⟨o, ho, rfl⟩ := List.mem_map.mp hadded
    exact hnew _ (decide_eq_true_eq.mp (List.mem_filter.mp ho).2) hown

theorem ObjectSet.reconcile_of_not_matches (hxs : ObjectSet d xs)
    (hmatch : ¬(GossipStateSummary.compute blake3 d xs).matches
      (GossipStateSummary.compute blake3 d ys)) :
    (∀ h, h ∈ (reconcile (.compute blake3 d xs) (.compute blake3 d ys) xs
        (ys.map (·.objectHash))).missingFromPeer ↔
      h ∈ xs.map (·.objectHash) ∧ h ∉ ys.map (·.objectHash)) ∧
    (∀ h, h ∈ (reconcile (.compute blake3 d xs) (.compute blake3 d ys) xs
        (ys.map (·.objectHash))).missingFromUs ↔
      h ∈ ys.map (·.objectHash) ∧ h ∉ xs.map (·.objectHash)) := by
  have hall : (xs.filter fun o => o.domainId = (GossipStateSummary.compute blake3 d xs).domainId)
      = xs := List.filter_eq_self.mpr fun o ho => decide_eq_true (hxs.domain o ho)
  unfold reconcile
  rw [if_neg hmatch]
  dsimp only
  rw [hall]
  constructor
  · intro h
    rw [List.mem_filter, mem_sortedSet, decide_eq_true_eq, mem_sortedSet]
  · intro h
    rw [List.mem_filter, mem_sortedSet, decide_eq_true_eq, mem_sortedSet]

theorem addNamed_nil (xs ys : List GossipObject) : addNamed xs ys [] = xs := by
  have hnone : (ys.filter fun o => o.objectHash ∈ ([] : List Bytes32)) = [] :=
    List.filter_eq_nil_iff.mpr fun o _ hmem => List.not_mem_nil (of_decide_eq_true hmem)
  rw [addNamed, hnone, List.append_nil]

/-- What one side lacks of the other, added on both sides, makes them the same. -/
theorem addNamed_perm (hxs : ObjectSet d xs) (hys : ObjectSet d ys)
    (hone : ∀ a ∈ xs, ∀ b ∈ ys, a.objectHash = b.objectHash → a = b)
    {fromPeer fromUs : List Bytes32}
    (hpeer : ∀ h, h ∈ fromPeer ↔ h ∈ xs.map (·.objectHash) ∧ h ∉ ys.map (·.objectHash))
    (hus : ∀ h, h ∈ fromUs ↔ h ∈ ys.map (·.objectHash) ∧ h ∉ xs.map (·.objectHash)) :
    ObjectSet d (addNamed xs ys fromUs) ∧ (addNamed ys xs fromPeer).Perm (addNamed xs ys fromUs) := by
  have hlocal := hxs.addNamed hys fun h hh => ((hus h).mp hh).2
  have hremote := hys.addNamed hxs fun h hh => ((hpeer h).mp hh).2
  refine ⟨hlocal, ?_⟩
  refine (List.perm_ext_iff_of_nodup hremote.nodup_objects hlocal.nodup_objects).mpr fun o => ?_
  rw [mem_addNamed, mem_addNamed, hpeer, hus]
  constructor
  · intro ho
    rcases ho with hyo | hxo
    · by_cases hshared : o.objectHash ∈ xs.map (·.objectHash)
      · obtain ⟨a, ha, heq⟩ := List.mem_map.mp hshared
        exact .inl (hone a ha o hyo heq ▸ ha)
      · exact .inr ⟨hyo, List.mem_map_of_mem hyo, hshared⟩
    · exact .inl hxo.1
  · intro ho
    rcases ho with hxo | hyo
    · by_cases hshared : o.objectHash ∈ ys.map (·.objectHash)
      · obtain ⟨b, hb, heq⟩ := List.mem_map.mp hshared
        exact .inl (hone o hxo b hb heq.symm ▸ hb)
      · exact .inr ⟨hxo, List.mem_map_of_mem hxo, hshared⟩
    · exact .inl hyo.1

/-- The exchange that `reconcile` names leaves both sides the same objects. -/
theorem exchange_perm (hxs : ObjectSet d xs) (hys : ObjectSet d ys)
    (hone : ∀ a ∈ xs, ∀ b ∈ ys, a.objectHash = b.objectHash → a = b)
    (hinj : Set.InjOn blake3 {m | m ∈ merkleInputs blake3 (canonicalHashes d xs) ++
      merkleInputs blake3 (canonicalHashes d ys)}) {result : ReconciliationResult}
    (hresult : result = reconcile (.compute blake3 d xs) (.compute blake3 d ys) xs
      (ys.map (·.objectHash))) :
    ObjectSet d (addNamed xs ys result.missingFromUs) ∧
      (addNamed ys xs result.missingFromPeer).Perm (addNamed xs ys result.missingFromUs) := by
  by_cases hmatch : (GossipStateSummary.compute blake3 d xs).matches
      (GossipStateSummary.compute blake3 d ys)
  · -- nothing is named, and the objects are the same already
    have hmem := (matches_iff_hashes hxs hys hone hinj).mp hmatch
    rw [reconcile, if_pos hmatch] at hresult
    rw [hresult, addNamed_nil, addNamed_nil]
    exact ⟨hxs, (perm_of_hashes hxs hys hone hmem).symm⟩
  · obtain ⟨hpeer, hus⟩ := hxs.reconcile_of_not_matches hmatch
    rw [hresult]
    exact addNamed_perm hxs hys hone hpeer hus

/-- **Anti-entropy** is sound and converges in one exchange, in whatever order a side keeps
its objects. -/
theorem anti_entropy_converges (blake3 : List UInt8 → Bytes32) (d : GossipDomainId)
    (xs ys : List GossipObject) (hxs : ObjectSet d xs) (hys : ObjectSet d ys)
    (hone : ∀ a ∈ xs, ∀ b ∈ ys, a.objectHash = b.objectHash → a = b)
    (hinj : Set.InjOn blake3 {m | m ∈ merkleInputs blake3 (canonicalHashes d xs) ++
      merkleInputs blake3 (canonicalHashes d ys)}) :
    (∀ objects : List GossipObject, objects.Perm xs →
      GossipStateSummary.compute blake3 d objects = GossipStateSummary.compute blake3 d xs) ∧
    (∀ objects : List GossipObject, objects.Perm ys →
      GossipStateSummary.compute blake3 d objects = GossipStateSummary.compute blake3 d ys) ∧
    ((GossipStateSummary.compute blake3 d xs).matches (GossipStateSummary.compute blake3 d ys) ↔
      ∀ h, h ∈ xs.map (·.objectHash) ↔ h ∈ ys.map (·.objectHash)) ∧
    (∀ result, result = reconcile (.compute blake3 d xs) (.compute blake3 d ys) xs
        (ys.map (·.objectHash)) →
      ∀ xs' ys' : List GossipObject, xs'.Perm (addNamed xs ys result.missingFromUs) →
        ys'.Perm (addNamed ys xs result.missingFromPeer) →
        (GossipStateSummary.compute blake3 d xs').matches
          (GossipStateSummary.compute blake3 d ys')) := by
  refine ⟨?_, ?_, matches_iff_hashes hxs hys hone hinj, ?_⟩
  · intro objects hperm
    exact hxs.compute_congr hperm blake3
  · intro objects hperm
    exact hys.compute_congr hperm blake3
  · intro result hresult xs' ys' hx hy
    obtain ⟨hset, hperm⟩ := exchange_perm hxs hys hone hinj hresult
    rw [hset.compute_congr hx blake3, hset.compute_congr (hy.trans hperm) blake3]
    simp [GossipStateSummary.matches]

end

def sampleDomain : GossipDomainId := ⟨1, zeroRoot, .global⟩

def sampleObject (logicalTimestamp : Nat) (objectHash : Bytes32) : GossipObject where
  objectType := 1
  objectHash := objectHash
  objectSize := 100
  domainId := sampleDomain
  logicalTimestamp := logicalTimestamp
  originGateway := Vector.replicate 32 1
  ttlHops := 20
  propagationFlags := 4
  payloadRoot := zeroRoot
  signature := Vector.replicate 64 0

theorem anti_entropy_converges_pair :
    ¬(GossipStateSummary.compute sampleBlake3 sampleDomain [sampleObject 100 leafAA]).matches
        (GossipStateSummary.compute sampleBlake3 sampleDomain [sampleObject 200 leafBB]) ∧
    ∀ result, result = reconcile
        (.compute sampleBlake3 sampleDomain [sampleObject 100 leafAA])
        (.compute sampleBlake3 sampleDomain [sampleObject 200 leafBB])
        [sampleObject 100 leafAA] [leafBB] →
      (GossipStateSummary.compute sampleBlake3 sampleDomain
        (addNamed [sampleObject 100 leafAA] [sampleObject 200 leafBB] result.missingFromUs)).matches
      (GossipStateSummary.compute sampleBlake3 sampleDomain
        (addNamed [sampleObject 200 leafBB] [sampleObject 100 leafAA] result.missingFromPeer)) := by
  have hset : ∀ t h, ObjectSet sampleDomain [sampleObject t h] := fun t h =>
    ⟨fun o ho => List.mem_singleton.mp ho ▸ rfl, List.nodup_singleton _⟩
  have hfree : CollisionFree sampleBlake3
      (merkleInputs sampleBlake3 (canonicalHashes sampleDomain [sampleObject 100 leafAA]) ++
        merkleInputs sampleBlake3 (canonicalHashes sampleDomain [sampleObject 200 leafBB])) := by
    decide +kernel
  have hall := anti_entropy_converges sampleBlake3 sampleDomain [sampleObject 100 leafAA]
    [sampleObject 200 leafBB] (hset 100 leafAA) (hset 200 leafBB) (by decide +kernel) hfree.injOn
  refine ⟨fun hmatch => ?_, fun result hresult => ?_⟩
  · exact absurd ((hall.2.2.1.mp hmatch leafAA).mp List.mem_cons_self) (by decide +kernel)
  · exact hall.2.2.2 result hresult _ _ (List.Perm.refl _) (List.Perm.refl _)

end CipherOcto.Network
