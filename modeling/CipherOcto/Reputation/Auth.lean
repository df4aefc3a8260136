import CipherOcto.Encoding.Constraint
import CipherOcto.Lib.SortBy

/-!
# Governance of recorders

The checks that stand between a caller and the recorder table: the chain reference of a
registration, and the snapshot and signature of a suspension or a slash. A suspension is
signed over the id of the recorder it is for (`governanceSuspensionPreimage`), next to
the reason, the key and the time.

BLAKE3 and the dispatch to the registered signature algorithm are parameters; numbers
are natural, and the sum of the two stakes is that of `u64`s.
-/

namespace CipherOcto.Reputation

open Encoding

/-! ## Records -/

abbrev RecorderDid := Vector UInt8 52

/-- The id of a signature algorithm. -/
abbrev AlgorithmId := Vector UInt8 16

inductive StakeComponent where
  | octo | role | aggregate
deriving DecidableEq

/-- `ReputationError`, as far as the store returns it. -/
inductive ReputationError where
  | recorderDidMalformed (what : String)
  | recorderNotRegistered (id : Nat)
  | aggregateNotFound (did kind layer : Nat)
  | slidingWindowZero
  | retentionCutoffFuture
  | governanceSnapshotStale (ageSecs max : Nat)
  | governanceSignatureInvalid
  | governanceQuorumNotMet (signatures quorum : Nat)
  | governanceSetHashMismatch
  | slashDestinationMismatch (expected actual : Nat)
  | chainRefInvalid (field : String)
  | stakeBelowMinimum (component : StakeComponent)
  | gossipEnvelopeInvalid (what : String)
deriving DecidableEq

structure GovernanceSnapshot where
  finalizedAtUnix : Nat
  governanceSetHash : Bytes32
  members : List Bytes32
deriving DecidableEq

structure SuspensionAuth where
  governanceAlgorithmId : AlgorithmId
  governancePubkey : List UInt8
  recorderId : Nat
  reasonHash : Bytes32
  signature : List UInt8
  snapshot : GovernanceSnapshot
  governanceSetHash : Bytes32
deriving DecidableEq

inductive SlashDestination where
  | treasury
  | burn
  | rewardValidator (did : RecorderDid)
deriving DecidableEq

inductive AssetTag where
  | none | octo | roleToken
deriving DecidableEq

structure GovernanceProof where
  governanceAlgorithmId : AlgorithmId
  governancePubkey : List UInt8
  recorderId : Nat
  reasonHash : Bytes32
  signature : List UInt8
  snapshot : GovernanceSnapshot
  governanceSetHash : Bytes32
  slashDestination : Option SlashDestination
  slashAmount : Nat
  slashAsset : AssetTag
deriving DecidableEq

structure ChainRef where
  chainId : Nat
  blockHeight : Nat
  txHash : Bytes32
  recorderDid : RecorderDid
  octoStake : Nat
  roleStake : Nat
  roleTokenKind : Nat
  lockUntilUnix : Nat
deriving DecidableEq

/-! ## Registration -/

def minRecorderOctoStake : Nat := 4000
def minRecorderRoleStake : Nat := 1000
def minRecorderDualStake : Nat := 5000

/-- `ChainRef::verify`. -/
def ChainRef.verify (cr : ChainRef) : Except ReputationError Unit :=
  if cr.chainId = 0 then .error (.chainRefInvalid "chain_id")
  else if cr.blockHeight = 0 then .error (.chainRefInvalid "block_height")
  else if cr.txHash = Vector.replicate 32 0 then .error (.chainRefInvalid "tx_hash")
  else if cr.octoStake = 0 then .error (.chainRefInvalid "octo_stake")
  else if cr.roleStake = 0 then .error (.chainRefInvalid "role_stake")
  else if cr.roleTokenKind = 0 then .error (.chainRefInvalid "role_token_kind")
  else if cr.lockUntilUnix = 0 then .error (.chainRefInvalid "lock_until_unix")
  else .ok ()

/-- `check_stake`: the component that is too low. -/
def checkStake (cr : ChainRef) : Option StakeComponent :=
  if cr.octoStake < minRecorderOctoStake then some .octo
  else if cr.roleStake < minRecorderRoleStake then some .role
  else if (cr.octoStake + cr.roleStake) % 2 ^ 64 < minRecorderDualStake then some .aggregate
  else none

/-- `verify_registration`. -/
def verifyRegistration (cr : ChainRef) : Except ReputationError Unit := do
  cr.verify
  match checkStake cr with
  | none => .ok ()
  | some component => .error (.stakeBelowMinimum component)

/-! ## Snapshots -/

def maxGovernanceSnapshotAgeSecs : Nat := 600
def governanceQuorum : Nat := 3

/-- `b"cipherocto/governance/set/v1"`. -/
def governanceSetDomain : List UInt8 := "cipherocto/governance/set/v1".toUTF8.toList

/-- `b"cipherocto/reputation/suspension/v1"`. -/
def suspensionDomain : List UInt8 := "cipherocto/reputation/suspension/v1".toUTF8.toList

section

variable (blake3 : List UInt8 → Bytes32)

/-- `governance_set_hash`: the members in ascending order. -/
def governanceSetHash (members : List Bytes32) : Bytes32 :=
  blake3 (governanceSetDomain ++ (sortBy (fun m => m.toList) members).flatMap fun m => m.toList)

namespace GovernanceSnapshot

def ageSecs (s : GovernanceSnapshot) (nowUnix : Nat) : Nat := nowUnix - s.finalizedAtUnix

def isFresh (s : GovernanceSnapshot) (nowUnix : Nat) : Bool :=
  s.ageSecs nowUnix ≤ maxGovernanceSnapshotAgeSecs

def setHashMatchesMembers (s : GovernanceSnapshot) : Bool :=
  Reputation.governanceSetHash blake3 s.members = s.governanceSetHash

/-- `meets_quorum`: enough members, no two alike. -/
def meetsQuorum (s : GovernanceSnapshot) : Bool :=
  s.members.Nodup ∧ governanceQuorum ≤ s.members.length

end GovernanceSnapshot

/-- `verify_governance_snapshot`. -/
def verifyGovernanceSnapshot (snapshot : GovernanceSnapshot) (claimedSetHash : Bytes32)
    (nowUnix : Nat) : Except ReputationError Unit :=
  if ¬snapshot.isFresh nowUnix then
    .error (.governanceSnapshotStale (snapshot.ageSecs nowUnix) maxGovernanceSnapshotAgeSecs)
  else if snapshot.governanceSetHash ≠ claimedSetHash ∨
      ¬snapshot.setHashMatchesMembers blake3 then
    .error .governanceSetHashMismatch
  else if ¬snapshot.meetsQuorum then
    .error (.governanceQuorumNotMet snapshot.members.length governanceQuorum)
  else .ok ()

end

/-! ## Signatures -/

/-- `governance_suspension_preimage`. -/
def governanceSuspensionPreimage (recorderId : Nat) (reasonHash : Bytes32)
    (governancePubkey : List UInt8) (nowUnix : Nat) : List UInt8 :=
  suspensionDomain ++ Bytes.toBe 8 recorderId ++ reasonHash.toList ++ governancePubkey ++
    Bytes.toBe 8 nowUnix

/-- `SlashDestination::canonical_bytes`. -/
def SlashDestination.canonicalBytes : SlashDestination → List UInt8
  | treasury => [1]
  | burn => [2]
  | rewardValidator did => 3 :: did.toList

/-- The asset as it is signed. -/
def AssetTag.byte : AssetTag → UInt8
  | none => 0
  | octo => 1
  | roleToken => 2

/-- `slash_signature_preimage`, of a proof with a destination. -/
def GovernanceProof.slashSignaturePreimage (p : GovernanceProof) (dest : SlashDestination)
    (nowUnix : Nat) : List UInt8 :=
  suspensionDomain ++ Bytes.toBe 8 p.recorderId ++ p.reasonHash.toList ++ dest.canonicalBytes ++
    Bytes.toBe 8 p.slashAmount ++ [p.slashAsset.byte] ++ p.governancePubkey ++
    Bytes.toBe 8 nowUnix

/-- `octo_algo_ed25519::verify_dispatch`: algorithm, key, message, signature. -/
abbrev VerifyDispatch := AlgorithmId → List UInt8 → Bytes32 → List UInt8 → Bool

section

variable (blake3 : List UInt8 → Bytes32) (verifyDispatch : VerifyDispatch)

/-- What both kinds of signature go through: a key that is not all zeros, and the
dispatch. -/
def dispatchGovernanceCheck (algorithmId : AlgorithmId) (governancePubkey : List UInt8)
    (message : Bytes32) (signature : List UInt8) : Except ReputationError Unit :=
  if governancePubkey.all (· = 0) then .error .governanceSignatureInvalid
  else if verifyDispatch algorithmId governancePubkey message signature then .ok ()
  else .error .governanceSignatureInvalid

/-- `verify_governance_signature`. -/
def verifyGovernanceSignature (algorithmId : AlgorithmId) (governancePubkey : List UInt8)
    (recorderId : Nat) (reasonHash : Bytes32) (signature : List UInt8) (nowUnix : Nat) :
    Except ReputationError Unit :=
  dispatchGovernanceCheck verifyDispatch algorithmId governancePubkey
    (blake3 (governanceSuspensionPreimage recorderId reasonHash governancePubkey nowUnix)) signature

/-- `verify_governance_suspension`. -/
def verifyGovernanceSuspension (auth : SuspensionAuth) (snapshot : GovernanceSnapshot)
    (nowUnix : Nat) : Except ReputationError Unit := do
  verifyGovernanceSnapshot blake3 snapshot auth.governanceSetHash nowUnix
  verifyGovernanceSignature blake3 verifyDispatch auth.governanceAlgorithmId auth.governancePubkey
    auth.recorderId auth.reasonHash auth.signature nowUnix

/-- `GovernanceProof::verify_signature`: the destination decides what is signed. -/
def GovernanceProof.verifySignature (p : GovernanceProof) (nowUnix : Nat) :
    Except ReputationError Unit :=
  let preimage := match p.slashDestination with
    | some dest => p.slashSignaturePreimage dest nowUnix
    | none => governanceSuspensionPreimage p.recorderId p.reasonHash p.governancePubkey nowUnix
  dispatchGovernanceCheck verifyDispatch p.governanceAlgorithmId p.governancePubkey
    (blake3 preimage) p.signature

/-- `slash_recorder`. It checks the proof and writes nothing. -/
def slashRecorder (p : GovernanceProof) (nowUnix : Nat) : Except ReputationError Unit := do
  verifyGovernanceSnapshot blake3 p.snapshot p.governanceSetHash nowUnix
  if p.slashDestination.isNone then throw (.slashDestinationMismatch 0 0)
  p.verifySignature blake3 verifyDispatch nowUnix
  if p.slashAsset = .none then throw (.chainRefInvalid "slash_asset")
  if p.slashAmount = 0 then throw (.chainRefInvalid "slash_amount")

/-- The auth passes the checks of a suspension, and is for the recorder with the id. -/
def SuspensionAuth.VerifiedFor (auth : SuspensionAuth) (nowUnix recorderId : Nat) : Prop :=
  verifyGovernanceSuspension blake3 verifyDispatch auth auth.snapshot nowUnix = .ok () ∧
    auth.recorderId = recorderId

end

end CipherOcto.Reputation
