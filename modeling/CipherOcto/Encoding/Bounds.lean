import CipherOcto.Encoding.Canonical
import CipherOcto.Lib.Cursor

/-!
# The header's length

A header is seven bytes: two tags, the kind and a length of four. The encoder's size check
and the decoder's length check both count six.

`decodeAt` is `decode` with every index and slice of the source checked as the language
checks it, so that an index out of range is a panic, in the header and in the `Reader`. The
reader's own checks keep its slices in range (`follows_body`), so what is left is the
header:

> `decodeAt_eq`: the two decoders agree, and `decode` names the only panic.
> `header_length_iff`: decoding panics on six bytes that start with the tags and nowhere else,
> and what is encoded is above the maximum for fields of 250 bytes and no others.
-/

namespace CipherOcto.Encoding

open Machine

/-! ## The decoder, index by index -/

abbrev readBytesAt (n : Nat) : Cursor EncodingError (List UInt8) := Cursor.take (short n) n

abbrev readUintAt (n : Nat) : Cursor EncodingError Nat := Cursor.uint (short n) n

/-- `read_bytes32`. -/
def readBytes32At : Cursor EncodingError Bytes32 := do
  let bs ← readBytesAt 32
  pure (Vector.ofFn fun i => bs.getD i 0)

/-- `read_u32` and `read_bytes` of as many. -/
def readSizedAt : Cursor EncodingError (List UInt8) := do
  let n ← readUintAt 4
  readBytesAt n

/-- `read_string`. -/
def readStringAt : Cursor EncodingError String := do
  let n ← readUintAt 4
  let bs ← readBytesAt n
  match String.fromUTF8? ⟨bs.toArray⟩ with
  | some s => pure s
  | none => Cursor.fail (.truncated n 0)

/-- `read_string_set`. -/
def readStringSetAt : Cursor EncodingError (List String) := do
  let n ← readUintAt 4
  Cursor.many readStringAt n

/-- One entry of `PerAssetSpendingCap`. -/
def readCapAt : Cursor EncodingError (Bytes32 × Nat) := do
  let assetId ← readBytes32At
  let amount ← readUintAt 16
  pure (assetId, amount)

def readCapsAt : Cursor EncodingError Constraint := do
  let count ← readUintAt 4
  if count > 5 then Cursor.fail (.tooManyCaps count)
  else
    let caps ← Cursor.many readCapAt count
    if capsSorted caps then pure (.perAssetSpendingCap caps) else Cursor.fail .capsNotSorted

/-- `decode_body`. -/
def readBodyAt (disc : UInt8) : Cursor EncodingError Constraint :=
  match disc with
  | 0x01 => do
    let validAfterUnix ← readUintAt 8
    let validUntilUnix ← readUintAt 8
    pure (.validRange validAfterUnix validUntilUnix)
  | 0x02 => do
    let t ← readUintAt 8
    pure (.notBefore t)
  | 0x03 => do
    let t ← readUintAt 8
    pure (.unlockAfter t)
  | 0x04 => do
    let maxPerPeriod ← readUintAt 16
    let periodDurationSecs ← readUintAt 8
    pure (.period maxPerPeriod periodDurationSecs)
  | 0x05 => do
    let amountMicro ← readUintAt 16
    let assetId ← readBytes32At
    pure (.maxPerTx amountMicro assetId)
  | 0x06 => readCapsAt
  | 0x07 => do
    let maxPerWindow ← readUintAt 16
    let windowDurationSecs ← readUintAt 8
    let assetId ← readBytes32At
    pure (.rateLimit maxPerWindow windowDurationSecs assetId)
  | 0x08 => do
    let dids ← readStringSetAt
    pure (.allowedDestinations dids)
  | 0x09 => do
    let dids ← readStringSetAt
    pure (.deniedDestinations dids)
  | 0x0A => do
    let messageTemplate ← readSizedAt
    pure (.intentBound messageTemplate)
  | 0x0B => do
    let n ← readUintAt 4
    let signers ← readStringSetAt
    pure (.multiSig n signers)
  | 0x0C => do
    let did ← readStringAt
    pure (.requireReceiptSignatureBy did)
  | 0x0D => do
    let did ← readStringAt
    pure (.callerBound did)
  | 0x0E => do
    let count ← readUintAt 4
    pure (.maxUses count)
  | 0x0F => pure .singleUse
  | 0x10 => do
    let stepBudget ← readUintAt 4
    let predicate ← readSizedAt
    pure (.allowIf predicate stepBudget)
  | 0x11 => do
    let circuitId ← readBytes32At
    pure (.verifierRequired circuitId)
  | 0x12 => pure .wrappedOnly
  | 0x13 => do
    let vault ← readBytes32At
    pure (.sponsoredBy vault)
  | 0x14 => do
    let coordinator ← readStringAt
    pure (.coordinatorCanSubmit coordinator)
  | 0x15 => do
    let start ← readUintAt 8
    let stop ← readUintAt 8
    let cliff ← readUintAt 8
    pure (.linearRelease start stop cliff)
  | 0x16 => do
    let till ← readUintAt 8
    let pct ← readUintAt 1
    let period ← readUintAt 8
    pure (.cliffVesting till pct period)
  | 0x17 => do
    let till ← readUintAt 8
    pure (.liquidityLock till)
  | 0x18 => do
    let flag ← readUintAt 1
    pure (.governanceLock (flag ≠ 0))
  | 0x19 => do
    let threshold ← readUintAt 16
    let delaySecs ← readUintAt 8
    pure (.complianceHold threshold delaySecs)
  | disc => Cursor.fail (.unknownDiscriminator disc)

/-- `decode`. -/
def decodeAt (bytes : List UInt8) : Run EncodingError Constraint :=
  if bytes.length < 6 then .error (.err (.truncated 6 bytes.length))
  else do
    let namespaceByte ← index bytes 0
    if namespaceByte ≠ namespaceTag then .error (.err (.invalidNamespaceTag namespaceByte))
    else do
      let versionByte ← index bytes 1
      if versionByte ≠ versionTag then .error (.err (.invalidVersionTag versionByte))
      else do
        let disc ← index bytes 2
        let len0 ← index bytes 3
        let len1 ← index bytes 4
        let len2 ← index bytes 5
        let len3 ← index bytes 6
        let len := Bytes.beNat [len0, len1, len2, len3]
        let body ← Cursor.slice bytes 7 bytes.length
        if body.length < len then .error (.err (.truncated len body.length))
        else do
          let body ← Cursor.slice body 0 len
          (readBodyAt disc body 0).map Prod.fst

/-! ## The reader -/

section Follows

open Cursor

theorem follows_bytes (n : Nat) : Follows (readBytesAt n) (readBytes n) := follows_take _ n

theorem follows_int (n : Nat) : Follows (readUintAt n) (readUint n) := follows_uint _ n

theorem follows_bytes32 : Follows readBytes32At readBytes32 :=
  (follows_bytes 32).bind fun _ => follows_pure _

theorem follows_sized : Follows readSizedAt readSized :=
  (follows_int 4).bind fun n => follows_bytes n

theorem follows_string : Follows readStringAt readString := by
  refine (follows_int 4).bind fun n => (follows_bytes n).bind fun bs => ?_
  cases String.fromUTF8? ⟨bs.toArray⟩ with
  | some s => exact follows_pure s
  | none => exact follows_fail _

theorem follows_stringSet : Follows readStringSetAt readStringSet :=
  (follows_int 4).bind fun n => follows_string.many n

theorem follows_cap : Follows readCapAt readCap :=
  follows_bytes32.bind fun _ => (follows_int 16).bind fun _ => follows_pure _

theorem follows_caps : Follows readCapsAt readCaps := by
  refine (follows_int 4).bind fun count => ?_
  by_cases hmany : count > 5
  · rw [if_pos hmany, if_pos hmany]
    exact follows_fail _
  · rw [if_neg hmany, if_neg hmany]
    exact (follows_cap.many count).bind fun caps => (follows_pure _).ite (follows_fail _)

/-- The reader stays inside the payload, whatever the kind. -/
theorem follows_body (disc : UInt8) : Follows (readBodyAt disc) (readBody disc) := by
  unfold readBodyAt
  split
  next => exact (follows_int 8).bind fun _ => (follows_int 8).bind fun _ => follows_pure _
  next => exact (follows_int 8).bind fun _ => follows_pure _
  next => exact (follows_int 8).bind fun _ => follows_pure _
  next => exact (follows_int 16).bind fun _ => (follows_int 8).bind fun _ => follows_pure _
  next => exact (follows_int 16).bind fun _ => follows_bytes32.bind fun _ => follows_pure _
  next => exact follows_caps
  next =>
    exact (follows_int 16).bind fun _ => (follows_int 8).bind fun _ =>
      follows_bytes32.bind fun _ => follows_pure _
  next => exact follows_stringSet.bind fun _ => follows_pure _
  next => exact follows_stringSet.bind fun _ => follows_pure _
  next => exact follows_sized.bind fun _ => follows_pure _
  next => exact (follows_int 4).bind fun _ => follows_stringSet.bind fun _ => follows_pure _
  next => exact follows_string.bind fun _ => follows_pure _
  next => exact follows_string.bind fun _ => follows_pure _
  next => exact (follows_int 4).bind fun _ => follows_pure _
  next => exact follows_pure _
  next => exact (follows_int 4).bind fun _ => follows_sized.bind fun _ => follows_pure _
  next => exact follows_bytes32.bind fun _ => follows_pure _
  next => exact follows_pure _
  next => exact follows_bytes32.bind fun _ => follows_pure _
  next => exact follows_string.bind fun _ => follows_pure _
  next =>
    exact (follows_int 8).bind fun _ => (follows_int 8).bind fun _ =>
      (follows_int 8).bind fun _ => follows_pure _
  next =>
    exact (follows_int 8).bind fun _ => (follows_int 1).bind fun _ =>
      (follows_int 8).bind fun _ => follows_pure _
  next => exact (follows_int 8).bind fun _ => follows_pure _
  next => exact (follows_int 1).bind fun _ => follows_pure _
  next => exact (follows_int 16).bind fun _ => (follows_int 8).bind fun _ => follows_pure _
  next =>
    -- no kind of the other list is left either
    have hunknown : readBody disc = throw (.unknownDiscriminator disc) := by
      unfold readBody
      split
      case h_26 => rfl
      all_goals contradiction
    rw [hunknown]
    exact follows_fail _

end Follows

/-! ## The header -/

/-- **The two decoders agree.** -/
theorem decodeAt_eq (x : List UInt8) : decodeAt x = (decode x).elim (.error .panic) raise := by
  unfold decodeAt decode
  by_cases hsix : x.length < 6
  · rw [if_pos hsix, if_pos hsix]
    rfl
  rw [if_neg hsix, if_neg hsix]
  match x, Nat.not_lt.mp hsix with
  | n :: v :: d :: b3 :: b4 :: b5 :: rest, _ =>
    change (if n ≠ namespaceTag then _ else if v ≠ versionTag then _ else _) =
      (if n ≠ namespaceTag then _ else if v ≠ versionTag then _ else _ : Option _).elim _ _
    by_cases hn : n ≠ namespaceTag
    · rw [if_pos hn, if_pos hn]
      rfl
    rw [if_neg hn, if_neg hn]
    by_cases hv : v ≠ versionTag
    · rw [if_pos hv, if_pos hv]
      rfl
    rw [if_neg hv, if_neg hv]
    cases rest with
    | nil => rfl
    | cons b6 body =>
      have hslice : (Cursor.slice (n :: v :: d :: b3 :: b4 :: b5 :: b6 :: body) 7
          (n :: v :: d :: b3 :: b4 :: b5 :: b6 :: body).length : Run EncodingError _) = .ok body :=
        Cursor.slice_length (by simp)
      have hlong : ¬(n :: v :: d :: b3 :: b4 :: b5 :: b6 :: body).length < 7 := by simp
      rw [if_neg hlong]
      change (Cursor.slice _ 7 _ >>= fun body' : List UInt8 => _) = _
      rw [hslice]
      change (if body.length < Bytes.beNat [b3, b4, b5, b6] then _ else _) =
        (if body.length < Bytes.beNat [b3, b4, b5, b6] then _ else _ : Option _).elim _ _
      by_cases hshort : body.length < Bytes.beNat [b3, b4, b5, b6]
      · rw [if_pos hshort, if_pos hshort]
        rfl
      rw [if_neg hshort, if_neg hshort, Cursor.slice_zero (not_lt.mp hshort)]
      exact (follows_body d).run _

/-- **Where decoding panics**: on six bytes that start with the tags, and nowhere else. -/
theorem decodeAt_panics_iff (x : List UInt8) :
    decodeAt x = .error .panic ↔
      x.length = 6 ∧ x.getD 0 0 = namespaceTag ∧ x.getD 1 0 = versionTag := by
  have hnone : decodeAt x = .error .panic ↔ decode x = none := by
    rw [decodeAt_eq]
    cases decode x with
    | none => exact iff_of_true rfl rfl
    | some r => exact iff_of_false raise_ne_panic fun h => nomatch h
  rw [hnone]
  unfold decode
  split
  next hsix => exact iff_of_false nofun fun h => by omega
  next hsix =>
    split
    next hn => exact iff_of_false nofun fun h => hn h.2.1
    next hn =>
      split
      next hv => exact iff_of_false nofun fun h => hv h.2.2
      next hv =>
        split
        next hseven => exact iff_of_true rfl ⟨by omega, not_not.mp hn, not_not.mp hv⟩
        next hseven =>
          refine iff_of_false (fun h => ?_) fun h => by omega
          dsimp only at h
          split at h
          · cases h
          · cases h

/-! ## The size -/

/-- How many bytes the fields of a constraint take. -/
def Constraint.bodyLength : Constraint → Nat
  | .validRange .. => 16
  | .notBefore _ => 8
  | .unlockAfter _ => 8
  | .period .. => 24
  | .maxPerTx .. => 48
  | .perAssetSpendingCap caps => 4 + 48 * min 5 caps.length
  | .rateLimit .. => 56
  | .allowedDestinations dids => setLength (dids.map asBytes)
  | .deniedDestinations dids => setLength (dids.map asBytes)
  | .intentBound messageTemplate => 4 + messageTemplate.length
  | .multiSig _ signers => 4 + setLength (signers.map asBytes)
  | .requireReceiptSignatureBy did => 4 + (asBytes did).length
  | .callerBound did => 4 + (asBytes did).length
  | .maxUses _ => 4
  | .singleUse => 0
  | .allowIf predicate _ => 8 + predicate.length
  | .verifierRequired _ => 32
  | .wrappedOnly => 0
  | .sponsoredBy _ => 32
  | .coordinatorCanSubmit coordinator => 4 + (asBytes coordinator).length
  | .linearRelease .. => 24
  | .cliffVesting .. => 17
  | .liquidityLock _ => 8
  | .governanceLock _ => 1
  | .complianceHold .. => 24

theorem length_stringWire (s : String) : (stringWire s).length = 4 + (asBytes s).length := by
  rw [stringWire, List.length_append, Bytes.length_toBe]

theorem length_canonical_wire (c : Constraint) : c.canonical.wire.length = c.bodyLength := by
  have hset : ∀ ss : List String,
      (listWire stringWire (sortStrings ss)).length = setLength (ss.map asBytes) := fun ss =>
    (length_listWire_sort ss).trans (length_setWire ss)
  cases c with
  | perAssetSpendingCap caps =>
    show (listWire capBytes ((sortCaps caps).take 5)).length = 4 + 48 * min 5 caps.length
    rw [length_capsWire, List.length_take, (sortCaps_perm caps).length_eq]
  | allowedDestinations dids => exact hset dids
  | deniedDestinations dids => exact hset dids
  | intentBound template =>
    show (Bytes.toBe 4 template.length ++ template).length = 4 + template.length
    rw [List.length_append, Bytes.length_toBe]
  | multiSig n signers =>
    show (Bytes.toBe 4 n ++ listWire stringWire (sortStrings signers)).length
      = 4 + setLength (signers.map asBytes)
    rw [List.length_append, Bytes.length_toBe, hset]
  | requireReceiptSignatureBy did => exact length_stringWire did
  | callerBound did => exact length_stringWire did
  | allowIf predicate budget =>
    show (Bytes.toBe 4 budget ++ (Bytes.toBe 4 predicate.length ++ predicate)).length
      = 8 + predicate.length
    rw [List.length_append, List.length_append, Bytes.length_toBe, Bytes.length_toBe]
    omega
  | coordinatorCanSubmit did => exact length_stringWire did
  -- every other kind is of a fixed size
  | _ =>
    simp only [Constraint.canonical, Constraint.wire, List.length_append, Bytes.length_toBe,
      Vector.length_toList]
    rfl

/-- A set takes more bytes than it has strings, and than any of them has bytes. -/
theorem le_setLength (ss : List String) :
    ss.length ≤ setLength (ss.map asBytes) ∧
      ∀ s ∈ ss, (asBytes s).length ≤ setLength (ss.map asBytes) := by
  unfold setLength
  rw [List.map_map]
  induction ss with
  | nil => exact ⟨Nat.zero_le _, fun s hs => absurd hs List.not_mem_nil⟩
  | cons t ss ih =>
    obtain ⟨hlength, hmem⟩ := ih
    rw [List.map_cons, List.sum_cons, List.length_cons, Function.comp_apply]
    refine ⟨by omega, fun s hs => ?_⟩
    rcases List.mem_cons.mp hs with rfl | hs
    · omega
    · have hle := hmem s hs
      omega

/-- Lengths that are written into 250 bytes fit a `u32`. -/
theorem sized_of_bodyLength {c : Constraint} (h : c.bodyLength ≤ 250) : c.canonical.Sized := by
  have hset : ∀ ss : List String, setLength (ss.map asBytes) ≤ 250 →
      IsLen (sortStrings ss).length ∧ ∀ s ∈ sortStrings ss, IsLen (asBytes s).length := by
    intro ss hss
    obtain ⟨hlength, hmem⟩ := le_setLength ss
    have hperm := sortStrings_perm ss
    unfold IsLen
    rw [hperm.length_eq]
    refine ⟨by omega, fun s hs => ?_⟩
    have hle := hmem s (hperm.mem_iff.mp hs)
    omega
  cases c with
  | perAssetSpendingCap caps =>
    have hfive : ((sortCaps caps).take 5).length ≤ 5 := List.length_take_le 5 _
    show ((sortCaps caps).take 5).length < 2 ^ 32
    omega
  | allowedDestinations dids => exact hset dids h
  | deniedDestinations dids => exact hset dids h
  | intentBound template => exact lt_of_le_of_lt (le_of_add_le_right h) (by decide)
  | multiSig n signers => exact hset signers (le_of_add_le_right h)
  | requireReceiptSignatureBy did => exact lt_of_le_of_lt (le_of_add_le_right h) (by decide)
  | callerBound did => exact lt_of_le_of_lt (le_of_add_le_right h) (by decide)
  | allowIf predicate budget => exact lt_of_le_of_lt (le_of_add_le_right h) (by decide)
  | coordinatorCanSubmit did => exact lt_of_le_of_lt (le_of_add_le_right h) (by decide)
  | _ => trivial

theorem length_frame {disc : UInt8} {body : List UInt8} : (frame disc body).length = 7 + body.length := by
  unfold frame
  rw [List.length_cons, List.length_cons, List.length_cons, List.length_append, Bytes.length_toBe]
  omega

/-- What is encoded exceeds the maximum by a byte where the fields take 250. -/
theorem encode_small_iff (c : Constraint) :
    (∀ b, encode c = some (.ok b) → b.length ≤ maxEncodedSize) ↔ c.bodyLength ≠ 250 := by
  unfold maxEncodedSize
  constructor
  · intro hsmall hbody
    have hok := encode_eq_ok.mpr ⟨sized_of_bodyLength hbody.le,
      (length_canonical_wire c).trans_le hbody.le, rfl⟩
    have hlength := hsmall _ hok
    rw [length_frame, length_canonical_wire, hbody] at hlength
    omega
  · intro hbody b hb
    obtain ⟨-, hwire, rfl⟩ := encode_eq_ok.mp hb
    rw [length_canonical_wire] at hwire
    rw [length_frame, length_canonical_wire]
    omega

/-- **The seventh byte of the header** is missed on both sides: by the decoder for six bytes
of which two are the tags, by the encoder for fields of 250 bytes. -/
theorem header_length_iff (x : List UInt8) (c : Constraint) :
    (decodeAt x ≠ .error .panic ↔
      ¬(x.length = 6 ∧ x.getD 0 0 = namespaceTag ∧ x.getD 1 0 = versionTag)) ∧
    ((∀ b, encode c = some (.ok b) → b.length ≤ maxEncodedSize) ↔ c.bodyLength ≠ 250) :=
  ⟨not_congr (decodeAt_panics_iff x), encode_small_iff c⟩

/-- Six bytes that panic, and a message of 246 bytes that takes 257. -/
theorem header_length_missed :
    ¬(∀ x, decodeAt x ≠ .error .panic) ∧
      ¬∀ c b, encode c = some (.ok b) → b.length ≤ maxEncodedSize := by
  constructor
  · intro h
    exact h [0x01, 0xA0, 0x0F, 0, 0, 0] (by decide)
  · intro h
    have hbody : (Constraint.intentBound (List.replicate 246 0)).bodyLength = 250 := by
      rw [Constraint.bodyLength, List.length_replicate]
    exact (encode_small_iff _).mp (h _) hbody

end CipherOcto.Encoding
