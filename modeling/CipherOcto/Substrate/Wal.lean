import CipherOcto.Substrate.Hlc

/-!
# Write-ahead log entries

A v1.3 entry carries its 60-byte header twice: as fields and as the bytes the
checksum covers. `build_v13` leaves the two LSN fields blank; the appender
fills them in, in both places, and hashes again.

> `Sound`: the checksum of an entry is the hash of its header and payload. It
> holds of whatever was finalized, whatever it held before.

LSNs are `Nat`: they count the entries of one in-memory log.
-/

namespace CipherOcto.Substrate

open Encoding

/-- `ShardKey`. -/
abbrev ShardKey := Bytes32

/-- `ShardMissionId`. -/
abbrev ShardMissionId := Bytes32

def walMagicV13 : UInt32 := 0x57414C33

def entryTypeNonceRecord : UInt8 := 0x10
def entryTypeDrain : UInt8 := 0x20
def entryTypeDidRegister : UInt8 := 0x21
def entryTypeDidRevoke : UInt8 := 0x22

structure WalEntry where
  magic : UInt32
  entryType : UInt8
  entryVersion : UInt8
  reserved : Vector UInt8 2
  shardKey : ShardKey
  lsn : Nat
  previousLsn : Nat
  payloadLength : UInt32
  payload : List UInt8
  prefixBytes : Vector UInt8 60
  checksum : Bytes32
deriving DecidableEq

/-- `copy_from_slice` into a buffer, from a position on. -/
def copyFromSlice {n : Nat} (buf : Vector UInt8 n) (pos : Nat) (bytes : List UInt8) :
    Vector UInt8 n :=
  Vector.ofFn fun i =>
    if pos ≤ i.val ∧ i.val < pos + bytes.length then bytes.getD (i.val - pos) 0 else buf.get i

section

variable (blake3 : List UInt8 → Bytes32)

/-- `ShardKey::derive_canonical`. -/
def deriveCanonical (recordKeyCanonical : List UInt8) : ShardKey := blake3 recordKeyCanonical

namespace WalEntry

/-- What the checksum covers. -/
def checksumInput (e : WalEntry) : List UInt8 := e.prefixBytes.toList ++ e.payload

/-- `build_v13`. -/
def buildV13 (entryType : UInt8) (shardKey : ShardKey) (payload : List UInt8) : WalEntry :=
  let payloadLength := UInt32.ofNat payload.length
  let header := copyFromSlice (Vector.replicate 60 0) 0 (Bytes.toBe 4 walMagicV13.toNat)
  let header := copyFromSlice header 4 [entryType]
  let header := copyFromSlice header 5 [1]
  let header := copyFromSlice header 8 shardKey.toList
  let header := copyFromSlice header 56 (Bytes.toBe 4 payloadLength.toNat)
  { magic := walMagicV13, entryType, entryVersion := 1, reserved := Vector.replicate 2 0, shardKey,
    lsn := 0, previousLsn := 0, payloadLength, payload, prefixBytes := header,
    checksum := blake3 (header.toList ++ payload) }

/-- `finalize_with_lsns`. -/
def finalizeWithLsns (e : WalEntry) (lsn previousLsn : Nat) : WalEntry :=
  let header := copyFromSlice e.prefixBytes 40 (Bytes.toBe 8 lsn)
  let header := copyFromSlice header 48 (Bytes.toBe 8 previousLsn)
  { e with lsn, previousLsn, prefixBytes := header,
           checksum := blake3 (header.toList ++ e.payload) }

/-- The checksum is the hash of what it covers. -/
def Sound (e : WalEntry) : Prop := e.checksum = blake3 e.checksumInput

variable {blake3}

theorem finalizeWithLsns_sound (e : WalEntry) (lsn previousLsn : Nat) :
    (e.finalizeWithLsns blake3 lsn previousLsn).Sound blake3 := rfl

@[simp] theorem finalizeWithLsns_lsn (e : WalEntry) (lsn previousLsn : Nat) :
    (e.finalizeWithLsns blake3 lsn previousLsn).lsn = lsn := rfl

end WalEntry

end

end CipherOcto.Substrate
