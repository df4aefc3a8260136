import CipherOcto.Substrate.Cluster
import CipherOcto.Cap.Chain

/-!
# Governance attestations

An attestation is accepted when enough configured operators signed its message
and its nonce has not been used in its term. Used nonces are kept twice: in
memory, where acceptance looks, and in the log, from which a restart rebuilds
the memory. `gc_expired_nonces` drops from memory the nonces of terms far
behind the current one. Nothing compares the term of an attestation with the
current one, so an attestation whose nonce was dropped is accepted again.

> `verify_ok`: what acceptance needs, the threshold half included.
> `Retains`: a collection that drops nothing.
> `attestations_single_use`: along the runs whose collections drop nothing, no
> nonce is accepted twice in its term; and a collection that drops one opens it
> to a second acceptance.

Signature verification and the hash are parameters.
-/

namespace CipherOcto.Substrate

open Encoding Machine Trace Cap

/-! ## The code -/

/-- `OperatorId`: the operator's public key. -/
abbrev OperatorId := Bytes32

structure OperatorSet where
  operators : List OperatorId
  threshold : Nat
deriving DecidableEq

structure OperatorSignature where
  operatorId : OperatorId
  signature : Vector UInt8 64
deriving DecidableEq

structure GovernanceAttestation where
  shardKey : ShardKey
  chainId : String
  term : UInt64
  operators : List OperatorId
  signatures : List OperatorSignature
  threshold : Nat
  nonce : Bytes32
deriving DecidableEq

/-- `MAX_GOVERNANCE_SIGNATURES`. -/
def maxGovernanceSignatures : Nat := 32

/-- The bytes `governance_signature_message` hashes. -/
def governanceInput (shardKey : ShardKey) (chainId : String) (term : UInt64) (nonce : Bytes32) :
    List UInt8 :=
  utf8 "cipherocto/governance/v1" ++ shardKey.toList ++ utf8 chainId ++ Bytes.toBe 8 term.toNat ++
    nonce.toList

/-- The nonces used, by shard and term. -/
abbrev UsedNonces := AList fun _ : ShardKey => Finset (UInt64 × Bytes32)

/-- `NonceTracker`, with the records of the log it writes to. -/
structure NonceTracker where
  usedNonces : UsedNonces
  wal : List NonceRecord

/-- The nonces used in a shard. -/
def UsedNonces.of (m : UsedNonces) (k : ShardKey) : Finset (UInt64 × Bytes32) :=
  (m.lookup k).getD ∅

/-- `entry(shard_key).or_default().insert(key)`. -/
def UsedNonces.add (m : UsedNonces) (k : ShardKey) (key : UInt64 × Bytes32) : UsedNonces :=
  m.insert k (insert key (m.of k))

/-- `MAX_NONCE_RETENTION_TERMS`. -/
def maxNonceRetentionTerms : UInt64 := 1000

namespace NonceTracker

/-- `replay_from_wal`. -/
def replayFromWal (wal : List NonceRecord) : UsedNonces :=
  wal.foldl (fun m r => m.add r.shardKey (r.term, r.nonce)) ∅

def new (wal : List NonceRecord) : NonceTracker := ⟨replayFromWal wal, wal⟩

/-- `consume`, with what the log answers to the append. An append that fails
rolls the insertion back. -/
def consume (t : NonceTracker) (append : Except WriterElectionError Unit) (shardKey : ShardKey)
    (term : UInt64) (nonce : Bytes32) : Except WriterElectionError Unit × NonceTracker :=
  if (term, nonce) ∈ t.usedNonces.of shardKey then (.error .nonceReplayed, t)
  else
    match append with
    | .error e => (.error e, t)
    | .ok () => (.ok (), ⟨t.usedNonces.add shardKey (term, nonce), t.wal ++ [⟨shardKey, term, nonce⟩]⟩)

/-- What `gc_expired_nonces` keeps; the sum wraps. -/
def retained (currentTerm : UInt64) (key : UInt64 × Bytes32) : Bool :=
  key.1 + maxNonceRetentionTerms ≥ currentTerm

/-- `retain` on one shard's set. -/
def prune (currentTerm : UInt64) (nonces : Finset (UInt64 × Bytes32)) :
    Finset (UInt64 × Bytes32) :=
  nonces.filter fun key => retained currentTerm key

/-- `gc_expired_nonces`: every shard's set is pruned, the log is not touched. -/
def gcExpiredNonces (t : NonceTracker) (currentTerm : UInt64) : NonceTracker :=
  { t with usedNonces := ⟨t.usedNonces.entries.map (Sigma.map id fun _ => prune currentTerm), by
      have h := t.usedNonces.nodupKeys
      unfold List.NodupKeys List.keys at h ⊢
      rwa [List.map_map]⟩ }

end NonceTracker

section

variable (blake3 : List UInt8 → Bytes32)
  (ed25519Verify : Bytes32 → List UInt8 → Vector UInt8 64 → Bool)

/-- `governance_signature_message`. -/
def governanceSignatureMessage (shardKey : ShardKey) (chainId : String) (term : UInt64)
    (nonce : Bytes32) : Bytes32 :=
  blake3 (governanceInput shardKey chainId term nonce)

/-- The loop over the signatures: it counts the valid ones and leaves at the
first that is repeated, foreign or wrong. -/
def countValid (message : Bytes32) (configured : List OperatorId) :
    List OperatorId → Nat → List OperatorSignature → Except WriterElectionError Nat
  | _, validCount, [] => .ok validCount
  | uniqueSigners, validCount, sig :: sigs =>
    if sig.operatorId ∈ uniqueSigners then .error .duplicateSigner
    else if sig.operatorId ∉ configured then .error .unauthorizedSigner
    else if ¬ed25519Verify sig.operatorId message.toList sig.signature then .error .invalidSignature
    else countValid message configured (sig.operatorId :: uniqueSigners) (validCount + 1) sigs

/-- `verify_governance_attestation`. -/
def verifyGovernanceAttestation (t : NonceTracker) (append : Except WriterElectionError Unit)
    (shardKey : ShardKey) (chainId : String) (att : GovernanceAttestation) (set : OperatorSet) :
    Except WriterElectionError Unit × NonceTracker :=
  if att.shardKey ≠ shardKey then (.error .shardKeyMismatch, t)
  else if att.chainId ≠ chainId then (.error .chainIdMismatch, t)
  else if att.threshold ≠ set.threshold then (.error .thresholdMismatch, t)
  else if att.signatures.length > maxGovernanceSignatures then
    (.error (.tooManySignatures att.signatures.length maxGovernanceSignatures), t)
  else
    let message := governanceSignatureMessage blake3 att.shardKey chainId att.term att.nonce
    match countValid ed25519Verify message set.operators [] 0 att.signatures with
    | .error e => (.error e, t)
    | .ok validCount =>
      if validCount < att.threshold then (.error .insufficientSignatures, t)
      else t.consume append att.shardKey att.term att.nonce

inductive GovernanceOp where
  | verify (append : Except WriterElectionError Unit) (shardKey : ShardKey) (chainId : String)
      (att : GovernanceAttestation) (set : OperatorSet)
  | gcExpiredNonces (currentTerm : UInt64)
  | restart

/-- One call; a restart is `NonceTracker::new` on the log as it stands. -/
def governanceStep (t : NonceTracker) : GovernanceOp → Option (Except WriterElectionError Unit) ×
    NonceTracker
  | .verify append shardKey chainId att set =>
    (some (verifyGovernanceAttestation blake3 ed25519Verify t append shardKey chainId att set).1,
      (verifyGovernanceAttestation blake3 ed25519Verify t append shardKey chainId att set).2)
  | .gcExpiredNonces currentTerm => (none, t.gcExpiredNonces currentTerm)
  | .restart => (none, .new t.wal)

/-! ## What acceptance needs -/

variable {ed25519Verify}

/-- The loop counts every signature it passes: all of distinct configured
operators, all valid. -/
theorem countValid_ok {message : Bytes32} {configured seen : List OperatorId} {count n : Nat}
    {sigs : List OperatorSignature}
    (h : countValid ed25519Verify message configured seen count sigs = .ok n) :
    n = count + sigs.length ∧ (sigs.map (·.operatorId)).Nodup ∧
      ∀ sig ∈ sigs, sig.operatorId ∉ seen ∧ sig.operatorId ∈ configured ∧
        ed25519Verify sig.operatorId message.toList sig.signature = true := by
  induction sigs generalizing seen count with
  | nil =>
    cases h
    exact ⟨rfl, List.nodup_nil, fun sig hsig => absurd hsig List.not_mem_nil⟩
  | cons sig sigs ih =>
    unfold countValid at h
    split at h
    next => cases h
    next hnew =>
      split at h
      next => cases h
      next hconf =>
        split at h
        next => cases h
        next hvalid =>
          obtain ⟨hn, hnodup, hall⟩ := ih h
          refine ⟨by rw [hn, List.length_cons]; omega, ?_, ?_⟩
          · rw [List.map_cons, List.nodup_cons]
            refine ⟨?_, hnodup⟩
            intro hmem
            obtain ⟨sig', hsig', heq⟩ := List.mem_map.mp hmem
            exact (hall sig' hsig').1 (by rw [heq]; exact List.mem_cons_self)
          · intro sig' hsig'
            rcases List.mem_cons.mp hsig' with rfl | hlater
            · exact ⟨hnew, not_not.mp hconf, not_not.mp hvalid⟩
            · obtain ⟨hunseen, hrest⟩ := hall sig' hlater
              exact ⟨fun hmem => hunseen (List.mem_cons_of_mem _ hmem), hrest⟩

theorem consume_ok {t : NonceTracker} {append : Except WriterElectionError Unit} {k : ShardKey}
    {term : UInt64} {nonce : Bytes32} (h : (t.consume append k term nonce).1 = .ok ()) :
    (term, nonce) ∉ t.usedNonces.of k ∧ append = .ok () ∧
      (t.consume append k term nonce).2
        = ⟨t.usedNonces.add k (term, nonce), t.wal ++ [⟨k, term, nonce⟩]⟩ := by
  unfold NonceTracker.consume at h ⊢
  split at h
  next => cases h
  next hnew =>
    cases append with
    | error e => cases h
    | ok u =>
      rw [if_neg hnew]
      exact ⟨hnew, rfl, rfl⟩

theorem consume_error {t : NonceTracker} {append : Except WriterElectionError Unit} {k : ShardKey}
    {term : UInt64} {nonce : Bytes32} {e : WriterElectionError}
    (h : (t.consume append k term nonce).1 = .error e) :
    (t.consume append k term nonce).2 = t := by
  unfold NonceTracker.consume at h ⊢
  split
  next => rfl
  next hnew =>
    rw [if_neg hnew] at h
    cases append with
    | error e => rfl
    | ok u => cases h

/-- At least the configured threshold of distinct configured operators signed the
message. -/
def Quorum (message : Bytes32) (set : OperatorSet) (att : GovernanceAttestation)
    (ed25519Verify : Bytes32 → List UInt8 → Vector UInt8 64 → Bool) : Prop :=
  ∃ signers : Finset OperatorId, set.threshold ≤ signers.card ∧
    ∀ o ∈ signers, o ∈ set.operators ∧ ∃ signature, ⟨o, signature⟩ ∈ att.signatures ∧
      ed25519Verify o message.toList signature = true

variable {blake3}

/-- The checks before the nonce. -/
def Attested (blake3 : List UInt8 → Bytes32)
    (ed25519Verify : Bytes32 → List UInt8 → Vector UInt8 64 → Bool) (shardKey : ShardKey)
    (chainId : String) (att : GovernanceAttestation) (set : OperatorSet) : Prop :=
  att.shardKey = shardKey ∧ att.chainId = chainId ∧ att.threshold = set.threshold ∧
    att.signatures.length ≤ maxGovernanceSignatures ∧
    ∃ n, countValid ed25519Verify
      (governanceSignatureMessage blake3 att.shardKey chainId att.term att.nonce) set.operators [] 0
        att.signatures = .ok n ∧ att.threshold ≤ n

/-- A call passes its checks and is left to the nonce, or it is refused and
changes nothing. -/
theorem verify_cases (t : NonceTracker) (append : Except WriterElectionError Unit)
    (shardKey : ShardKey) (chainId : String) (att : GovernanceAttestation) (set : OperatorSet) :
    (Attested blake3 ed25519Verify shardKey chainId att set ∧
      verifyGovernanceAttestation blake3 ed25519Verify t append shardKey chainId att set
        = t.consume append att.shardKey att.term att.nonce) ∨
    (∃ e, verifyGovernanceAttestation blake3 ed25519Verify t append shardKey chainId att set
        = (.error e, t)) := by
  unfold verifyGovernanceAttestation
  split
  next => exact Or.inr ⟨_, rfl⟩
  next hshard =>
    split
    next => exact Or.inr ⟨_, rfl⟩
    next hchain =>
      split
      next => exact Or.inr ⟨_, rfl⟩
      next hthr =>
        split
        next => exact Or.inr ⟨_, rfl⟩
        next hlen =>
          dsimp only
          split
          next => exact Or.inr ⟨_, rfl⟩
          next n hcount =>
            split
            next => exact Or.inr ⟨_, rfl⟩
            next henough =>
              exact Or.inl ⟨⟨not_not.mp hshard, not_not.mp hchain, not_not.mp hthr,
                Nat.not_lt.mp hlen, n, hcount, Nat.not_lt.mp henough⟩, rfl⟩

theorem Attested.quorum {shardKey : ShardKey} {chainId : String} {att : GovernanceAttestation}
    {set : OperatorSet} (h : Attested blake3 ed25519Verify shardKey chainId att set) :
    Quorum (governanceSignatureMessage blake3 shardKey chainId att.term att.nonce) set att
      ed25519Verify := by
  obtain ⟨hshard, -, hthr, -, n, hcount, henough⟩ := h
  obtain ⟨hn, hnodup, hall⟩ := countValid_ok hcount
  rw [hshard] at hall
  refine ⟨(att.signatures.map (·.operatorId)).toFinset, ?_, ?_⟩
  · rw [List.toFinset_card_of_nodup hnodup, List.length_map]
    omega
  · intro o ho
    obtain ⟨sig, hsig, rfl⟩ := List.mem_map.mp (List.mem_toFinset.mp ho)
    obtain ⟨-, hconf, hvalid⟩ := hall sig hsig
    exact ⟨hconf, sig.signature, hsig, hvalid⟩

/-- The signed bytes determine what they bind: only the chain id has no fixed
length. -/
theorem governanceInput_inj {k k' : ShardKey} {chain chain' : String} {term term' : UInt64}
    {nonce nonce' : Bytes32}
    (h : governanceInput k chain term nonce = governanceInput k' chain' term' nonce') :
    k = k' ∧ chain = chain' ∧ term = term' ∧ nonce = nonce' := by
  unfold governanceInput at h
  -- from the end: nonce and term have fixed lengths, and so has the shard key in front
  obtain ⟨h, hnonce⟩ := List.append_inj' h (by rw [Vector.length_toList, Vector.length_toList])
  obtain ⟨h, hterm⟩ := List.append_inj' h (by rw [Bytes.length_toBe, Bytes.length_toBe])
  rw [List.append_assoc, List.append_assoc] at h
  have h := List.append_cancel_left h
  obtain ⟨hkey, hchain⟩ := Bytes.toList_append_inj h
  exact ⟨hkey, Bytes.toUTF8_toList_inj hchain, Bytes.toBe8_inj hterm, Vector.toList_inj.mp hnonce⟩

/-! ## The nonces in memory and in the log -/

theorem UsedNonces.mem_of_add {m : UsedNonces} {k k' : ShardKey} {key key' : UInt64 × Bytes32} :
    key ∈ (m.add k' key').of k ↔ (k = k' ∧ key = key') ∨ key ∈ m.of k := by
  unfold UsedNonces.add UsedNonces.of
  by_cases hk : k = k'
  · subst hk
    rw [AList.lookup_insert, Option.getD_some, Finset.mem_insert]
    simp only [true_and]
  · rw [AList.lookup_insert_ne hk]
    simp only [hk, false_and, false_or]

/-- The memory after a restart is the log. -/
theorem mem_replayFromWal {wal : List NonceRecord} {k : ShardKey} {key : UInt64 × Bytes32} :
    key ∈ (NonceTracker.replayFromWal wal).of k ↔ ⟨k, key.1, key.2⟩ ∈ wal := by
  induction wal using List.reverseRecOn with
  | nil =>
    refine iff_of_false ?_ List.not_mem_nil
    exact Finset.notMem_empty key
  | append_singleton wal r ih =>
    unfold NonceTracker.replayFromWal at ih ⊢
    rw [List.foldl_append, List.foldl_cons, List.foldl_nil, UsedNonces.mem_of_add, ih,
      List.mem_append, List.mem_singleton]
    cases r
    simp only [NonceRecord.mk.injEq, Prod.ext_iff]
    exact or_comm

theorem mem_gcExpiredNonces {t : NonceTracker} {currentTerm : UInt64} {k : ShardKey}
    {key : UInt64 × Bytes32} :
    key ∈ (t.gcExpiredNonces currentTerm).usedNonces.of k ↔
      key ∈ t.usedNonces.of k ∧ NonceTracker.retained currentTerm key = true := by
  have hlookup : (t.gcExpiredNonces currentTerm).usedNonces.lookup k
      = (t.usedNonces.lookup k).map (NonceTracker.prune currentTerm) := List.dlookup_map₂ k
  unfold UsedNonces.of
  rw [hlookup]
  cases t.usedNonces.lookup k with
  | none => exact iff_of_false (Finset.notMem_empty key) fun h => Finset.notMem_empty key h.1
  | some set => exact Finset.mem_filter

/-- A collection that drops nothing: every nonce in memory is of a term at most
the retention behind, and the sum stays within 64 bits. -/
def Retains (t : NonceTracker) : GovernanceOp → Prop
  | .gcExpiredNonces currentTerm => ∀ k key, key ∈ t.usedNonces.of k →
      currentTerm.toNat ≤ key.1.toNat + 1000 ∧ key.1.toNat + 1000 < 2 ^ 64
  | _ => True

/-- What an attestation uses up. -/
def GovernanceAttestation.nonceKey (att : GovernanceAttestation) : ShardKey × UInt64 × Bytes32 :=
  (att.shardKey, att.term, att.nonce)

/-- A nonce that is used up: in memory and in the log. -/
def Used (key : ShardKey × UInt64 × Bytes32) (t : NonceTracker) : Prop :=
  key.2 ∈ t.usedNonces.of key.1 ∧ ⟨key.1, key.2.1, key.2.2⟩ ∈ t.wal

/-- The attestation a call accepts. -/
def accepted? : GovernanceOp × Option (Except WriterElectionError Unit) →
    Option GovernanceAttestation
  | (.verify _ _ _ att _, some (.ok ())) => some att
  | _ => none

theorem retained_of_le {currentTerm : UInt64} {key : UInt64 × Bytes32}
    (hle : currentTerm.toNat ≤ key.1.toNat + 1000) (hlt : key.1.toNat + 1000 < 2 ^ 64) :
    NonceTracker.retained currentTerm key = true := by
  have hk : maxNonceRetentionTerms.toNat = 1000 := rfl
  refine decide_eq_true ?_
  show currentTerm ≤ key.1 + maxNonceRetentionTerms
  rw [UInt64.le_iff_toNat_le, UInt64.toNat_add, hk, Nat.mod_eq_of_lt hlt]
  exact hle

/-- A used nonce stays used while nothing is dropped. -/
theorem used_step (key : ShardKey × UInt64 × Bytes32) (t : NonceTracker) (op : GovernanceOp)
    (hop : Retains t op) (h : Used key t) :
    Used key (governanceStep blake3 ed25519Verify t op).2 := by
  obtain ⟨hmem, hlog⟩ := h
  cases op with
  | restart => exact ⟨mem_replayFromWal.mpr hlog, hlog⟩
  | gcExpiredNonces currentTerm =>
    obtain ⟨hle, hlt⟩ := hop key.1 key.2 hmem
    exact ⟨mem_gcExpiredNonces.mpr ⟨hmem, retained_of_le hle hlt⟩, hlog⟩
  | verify append shardKey chainId att set =>
    simp only [governanceStep]
    obtain ⟨-, heq⟩ | ⟨e, heq⟩ :=
      @verify_cases blake3 ed25519Verify t append shardKey chainId att set
    · rw [heq]
      cases hans : (t.consume append att.shardKey att.term att.nonce).1 with
      | error e =>
        rw [consume_error hans]
        exact ⟨hmem, hlog⟩
      | ok u =>
        rw [(consume_ok hans).2.2]
        exact ⟨UsedNonces.mem_of_add.mpr (Or.inr hmem), List.mem_append_left _ hlog⟩
    · rw [heq]
      exact ⟨hmem, hlog⟩

/-- An acceptance found its nonce unused and its checks passed, and leaves the
nonce used. -/
theorem accepted_step {t : NonceTracker} {op : GovernanceOp} {att : GovernanceAttestation}
    (h : accepted? (op, (governanceStep blake3 ed25519Verify t op).1) = some att) :
    ∃ append shardKey chainId set, op = .verify append shardKey chainId att set ∧
      Attested blake3 ed25519Verify shardKey chainId att set ∧
      (att.term, att.nonce) ∉ t.usedNonces.of att.shardKey ∧
      (governanceStep blake3 ed25519Verify t op).2
        = ⟨t.usedNonces.add att.shardKey (att.term, att.nonce),
            t.wal ++ [⟨att.shardKey, att.term, att.nonce⟩]⟩ := by
  cases op with
  | restart => cases h
  | gcExpiredNonces currentTerm => cases h
  | verify append shardKey chainId att' set =>
    simp only [governanceStep] at h ⊢
    obtain ⟨hatt, heq⟩ | ⟨e, heq⟩ :=
      @verify_cases blake3 ed25519Verify t append shardKey chainId att' set
    · rw [heq] at h ⊢
      cases hans : (t.consume append att'.shardKey att'.term att'.nonce).1 with
      | error e =>
        rw [hans] at h
        cases h
      | ok u =>
        rw [hans] at h
        cases h
        obtain ⟨hnew, -, hstate⟩ := consume_ok hans
        exact ⟨append, shardKey, chainId, set, rfl, hatt, hnew, hstate⟩
    · rw [heq] at h
      cases h

/-! ## Whole runs -/

/-- The attestations a run accepts, in order. -/
def acceptedAttestations
    (events : List (GovernanceOp × Option (Except WriterElectionError Unit))) :
    List GovernanceAttestation := events.filterMap accepted?

theorem accepted_nonces_distinct {t : NonceTracker} {ops : List GovernanceOp}
    (h : Along (governanceStep blake3 ed25519Verify) Retains t ops) :
    (acceptedAttestations (trace (governanceStep blake3 ed25519Verify) t ops)).Pairwise
      fun a b => a.nonceKey ≠ b.nonceKey := by
  -- a nonce is spent once it is used, and an acceptance spends the one it names
  have honce := pairwise_of_spent_along Used
    (fun key e => ∃ att, accepted? e = some att ∧ att.nonceKey = key) used_step ?_ ?_ h
  · unfold acceptedAttestations
    rw [List.pairwise_filterMap]
    refine honce.imp ?_
    intro e e' hne a ha b hb heq
    exact hne b.nonceKey ⟨⟨a, ha, heq⟩, b, hb, rfl⟩
  · intro key s op _ hacc hused
    obtain ⟨att, hatt, rfl⟩ := hacc
    obtain ⟨_, _, _, _, _, _, hnew, _⟩ := accepted_step hatt
    exact hnew hused.1
  · intro key s op _ hacc
    obtain ⟨att, hatt, rfl⟩ := hacc
    obtain ⟨_, _, _, _, _, _, _, hstate⟩ := accepted_step hatt
    rw [hstate]
    exact ⟨UsedNonces.mem_of_add.mpr (Or.inl ⟨rfl, rfl⟩),
      List.mem_append_right _ (List.mem_singleton_self _)⟩

/-- An acceptance anywhere in a run has a quorum behind it, and no other shard,
chain, term or nonce gives the message the quorum signed, as far as the hash
separates the two inputs. -/
theorem accepted_quorum {t : NonceTracker} {ops : List GovernanceOp} {append shardKey chainId att set}
    (h : (GovernanceOp.verify append shardKey chainId att set, some (Except.ok ())) ∈
      trace (governanceStep blake3 ed25519Verify) t ops) :
    att.shardKey = shardKey ∧ att.chainId = chainId ∧
    Quorum (governanceSignatureMessage blake3 shardKey chainId att.term att.nonce) set att
      ed25519Verify ∧
    ∀ k chain term nonce,
      (blake3 (governanceInput k chain term nonce)
          = blake3 (governanceInput shardKey chainId att.term att.nonce) →
        governanceInput k chain term nonce
          = governanceInput shardKey chainId att.term att.nonce) →
      governanceSignatureMessage blake3 k chain term nonce
        = governanceSignatureMessage blake3 shardKey chainId att.term att.nonce →
      k = shardKey ∧ chain = chainId ∧ term = att.term ∧ nonce = att.nonce := by
  obtain ⟨s, -, hs⟩ := exists_of_mem_trace (along_of_forall (fun _ _ => trivial) t ops) h
  have hacc : accepted? (GovernanceOp.verify append shardKey chainId att set,
      (governanceStep blake3 ed25519Verify s (.verify append shardKey chainId att set)).1)
        = some att := by
    rw [hs]
    rfl
  obtain ⟨_, _, _, _, hop, hatt, -⟩ := accepted_step hacc
  cases hop
  refine ⟨hatt.1, hatt.2.1, hatt.quorum, ?_⟩
  intro k chain term nonce hinj hmsg
  exact governanceInput_inj (hinj hmsg)

/-- A call whose checks pass and whose nonce is not in memory is accepted. -/
theorem verify_of_attested {t : NonceTracker} {shardKey : ShardKey} {chainId : String}
    {att : GovernanceAttestation} {set : OperatorSet}
    (h : Attested blake3 ed25519Verify shardKey chainId att set)
    (hnew : (att.term, att.nonce) ∉ t.usedNonces.of att.shardKey) :
    (verifyGovernanceAttestation blake3 ed25519Verify t (.ok ()) shardKey chainId att set).1
      = .ok () := by
  obtain ⟨hshard, hchain, hthr, hlen, n, hcount, henough⟩ := h
  unfold verifyGovernanceAttestation NonceTracker.consume
  rw [if_neg (not_not.mpr hshard), if_neg (not_not.mpr hchain), if_neg (not_not.mpr hthr),
    if_neg (Nat.not_lt.mpr hlen)]
  simp only [hcount, if_neg (Nat.not_lt.mpr henough), if_neg hnew]

/-- **Single use.** Over any calls, collections and restarts, from the log as it
stands: while the collections drop nothing, no two accepted attestations share
shard, term and nonce; where one drops the nonce of an attestation that passes
its checks, the attestation is accepted again; and every acceptance has the
configured threshold of distinct configured operators behind its message. -/
theorem attestations_single_use (wal : List NonceRecord) (ops : List GovernanceOp) :
    (Along (governanceStep blake3 ed25519Verify) Retains (.new wal) ops →
      (acceptedAttestations
        (trace (governanceStep blake3 ed25519Verify) (.new wal) ops)).Pairwise
          fun a b => a.nonceKey ≠ b.nonceKey) ∧
    (∀ currentTerm shardKey chainId att set,
      Attested blake3 ed25519Verify shardKey chainId att set →
      NonceTracker.retained currentTerm (att.term, att.nonce) = false →
      (verifyGovernanceAttestation blake3 ed25519Verify
        ((final (governanceStep blake3 ed25519Verify) (.new wal) ops).gcExpiredNonces currentTerm)
        (.ok ()) shardKey chainId att set).1 = .ok ()) ∧
    ∀ append shardKey chainId att set,
      (GovernanceOp.verify append shardKey chainId att set, some (Except.ok ())) ∈
        trace (governanceStep blake3 ed25519Verify) (.new wal) ops →
      att.shardKey = shardKey ∧ att.chainId = chainId ∧
      Quorum (governanceSignatureMessage blake3 shardKey chainId att.term att.nonce) set att
        ed25519Verify ∧
      ∀ k chain term nonce,
        (blake3 (governanceInput k chain term nonce)
            = blake3 (governanceInput shardKey chainId att.term att.nonce) →
          governanceInput k chain term nonce
            = governanceInput shardKey chainId att.term att.nonce) →
        governanceSignatureMessage blake3 k chain term nonce
          = governanceSignatureMessage blake3 shardKey chainId att.term att.nonce →
        k = shardKey ∧ chain = chainId ∧ term = att.term ∧ nonce = att.nonce := by
  refine ⟨accepted_nonces_distinct, ?_, fun _ _ _ _ _ => accepted_quorum⟩
  intro currentTerm shardKey chainId att set hatt hdrop
  refine verify_of_attested hatt ?_
  intro hmem
  rw [(mem_gcExpiredNonces.mp hmem).2] at hdrop
  cases hdrop

end

/-! One operator, who signed the release of a shard in term 5. -/

/-- BLAKE3 of the one message below. -/
def sampleMessage : Bytes32 :=
  #v[117, 143, 116, 226, 143, 244, 18, 228, 26, 93, 121, 44, 80, 140, 54, 75, 112, 20, 179, 27,
    197, 206, 39, 25, 90, 33, 107, 251, 0, 226, 45, 231]

def sampleOperator : OperatorId :=
  #v[253, 23, 36, 56, 90, 160, 199, 91, 100, 251, 120, 205, 96, 47, 161, 217, 145, 253, 235, 247,
    107, 19, 197, 142, 215, 2, 234, 200, 53, 233, 246, 24]

/-- The operator's Ed25519 signature of the message. -/
def sampleSignature : Vector UInt8 64 :=
  #v[255, 174, 82, 49, 173, 45, 11, 90, 226, 201, 232, 186, 101, 75, 120, 191, 34, 110, 4, 125,
    143, 45, 229, 140, 223, 136, 99, 16, 161, 123, 169, 206, 115, 69, 10, 71, 27, 171, 254, 78,
    178, 201, 40, 198, 241, 98, 119, 121, 171, 193, 69, 225, 230, 110, 136, 194, 128, 52, 156,
    113, 101, 101, 51, 13]

def sampleVerify (pk : Bytes32) (msg : List UInt8) (sig : Vector UInt8 64) : Bool :=
  pk = sampleOperator && msg = sampleMessage.toList && sig = sampleSignature

def sampleSet : OperatorSet := ⟨[sampleOperator], 1⟩

def sampleAttestation : GovernanceAttestation where
  shardKey := Vector.replicate 32 1
  chainId := "cipherocto-mainnet"
  term := 5
  operators := [sampleOperator]
  signatures := [⟨sampleOperator, sampleSignature⟩]
  threshold := 1
  nonce := Vector.replicate 32 7

def sampleVerifyOp : GovernanceOp :=
  .verify (.ok ()) (Vector.replicate 32 1) "cipherocto-mainnet" sampleAttestation sampleSet

/-- In term 2000 the nonce of term 5 is dropped, and its attestation accepted
again. -/
theorem attestation_accepted_twice :
    acceptedAttestations (trace (governanceStep (fun _ => sampleMessage) sampleVerify) (.new [])
      [sampleVerifyOp, .gcExpiredNonces 2000, sampleVerifyOp])
        = [sampleAttestation, sampleAttestation] := by
  decide

end CipherOcto.Substrate
