import CipherOcto.Lib.Bytes

/-!
# Constraints

The constraint type of `cipherocto-encoding`, the pre-conditions a factory
caveat carries.
-/

namespace CipherOcto.Encoding

/-- A 32-byte id or digest. -/
abbrev Bytes32 := Vector UInt8 32

instance lawfulBEqBytes32 : LawfulBEq Bytes32 := inferInstance

inductive Constraint where
  | validRange (validAfterUnix validUntilUnix : Nat)
  | notBefore (t : Nat)
  | unlockAfter (t : Nat)
  | period (maxPerPeriod periodDurationSecs : Nat)
  | maxPerTx (amountMicro : Nat) (assetId : Bytes32)
  | perAssetSpendingCap (caps : List (Bytes32 × Nat))
  | rateLimit (maxPerWindow windowDurationSecs : Nat) (assetId : Bytes32)
  | allowedDestinations (dids : List String)
  | deniedDestinations (dids : List String)
  | intentBound (messageTemplate : List UInt8)
  | multiSig (n : Nat) (signers : List String)
  | requireReceiptSignatureBy (did : String)
  | callerBound (did : String)
  | maxUses (count : Nat)
  | singleUse
  | allowIf (predicate : List UInt8) (stepBudget : Nat)
  | verifierRequired (circuitId : Bytes32)
  | wrappedOnly
  | sponsoredBy (vault : Bytes32)
  | coordinatorCanSubmit (coordinator : String)
  | linearRelease (start stop cliff : Nat)
  | cliffVesting (till pct period : Nat)
  | liquidityLock (till : Nat)
  | governanceLock (whileVoteActive : Bool)
  | complianceHold (threshold delaySecs : Nat)
deriving DecidableEq

end CipherOcto.Encoding
