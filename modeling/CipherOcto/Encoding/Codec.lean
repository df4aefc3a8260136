import CipherOcto.Lib.Reader
import CipherOcto.Encoding.Constraint

/-!
# The wire form of a constraint

`encode` sorts the list fields of a constraint, cuts its spending caps to five
and writes the fields in order behind a header. `decode` reads the fields back
and ignores whatever follows them.

`wire` is the fields of a constraint as they stand, its lists neither sorted nor
cut. `decode` reads a `wire` and a rest (`wire_of_readBody`), but for the flag of
a governance lock, which it reads from any byte, and reads every `wire` back
(`readBody_wire`), so that a constraint is determined by it (`wire_inj`).

`none` is a panic: a length that does not fit a `u32`, or the header read of a
list of six bytes.
-/

namespace CipherOcto.Encoding

/-! ## The code -/

def namespaceTag : UInt8 := 0x01

def versionTag : UInt8 := 0xA0

def constraintHashPrefix : UInt8 := 0xA1

def maxEncodedSize : Nat := 256

inductive EncodingError where
  | constraintOverflow
  | invalidNamespaceTag (tag : UInt8)
  | invalidVersionTag (tag : UInt8)
  | unknownDiscriminator (disc : UInt8)
  | truncated (expected got : Nat)
  | tooManyCaps (count : Nat)
  | capsNotSorted
deriving DecidableEq

/-- `discriminator`. -/
def Constraint.discriminator : Constraint → UInt8
  | .validRange .. => 0x01
  | .notBefore .. => 0x02
  | .unlockAfter .. => 0x03
  | .period .. => 0x04
  | .maxPerTx .. => 0x05
  | .perAssetSpendingCap .. => 0x06
  | .rateLimit .. => 0x07
  | .allowedDestinations .. => 0x08
  | .deniedDestinations .. => 0x09
  | .intentBound .. => 0x0A
  | .multiSig .. => 0x0B
  | .requireReceiptSignatureBy .. => 0x0C
  | .callerBound .. => 0x0D
  | .maxUses .. => 0x0E
  | .singleUse => 0x0F
  | .allowIf .. => 0x10
  | .verifierRequired .. => 0x11
  | .wrappedOnly => 0x12
  | .sponsoredBy .. => 0x13
  | .coordinatorCanSubmit .. => 0x14
  | .linearRelease .. => 0x15
  | .cliffVesting .. => 0x16
  | .liquidityLock .. => 0x17
  | .governanceLock .. => 0x18
  | .complianceHold .. => 0x19

/-- `as_bytes`. -/
def asBytes (s : String) : List UInt8 := s.toUTF8.toList

/-- `len_as_u32`, in big-endian bytes. -/
def lenAsU32 (len : Nat) : Option (List UInt8) :=
  if len < 2 ^ 32 then some (Bytes.toBe 4 len) else none

/-- `encode_string`. -/
def encodeString (s : String) : Option (List UInt8) := do
  let len ← lenAsU32 (asBytes s).length
  pure (len ++ asBytes s)

/-- Strings are sorted by their bytes. -/
def sortStrings (items : List String) : List String :=
  items.insertionSort fun s t => asBytes s ≤ asBytes t

/-- `encode_string_set`. -/
def encodeStringSet (items : List String) : Option (List UInt8) := do
  let sorted := sortStrings items
  let len ← lenAsU32 sorted.length
  let strings ← sorted.mapM encodeString
  pure (len ++ strings.flatten)

/-- Caps are sorted by their asset ids, and those with one id keep their order. -/
def sortCaps (caps : List (Bytes32 × Nat)) : List (Bytes32 × Nat) :=
  caps.insertionSort fun c d => c.1.toList ≤ d.1.toList

/-- One entry of `PerAssetSpendingCap`. -/
def capBytes (cap : Bytes32 × Nat) : List UInt8 := cap.1.toList ++ Bytes.toBe 16 cap.2

/-- `encode_body`. -/
def encodeBody : Constraint → Option (List UInt8)
  | .validRange validAfterUnix validUntilUnix =>
    some (Bytes.toBe 8 validAfterUnix ++ Bytes.toBe 8 validUntilUnix)
  | .notBefore t => some (Bytes.toBe 8 t)
  | .unlockAfter t => some (Bytes.toBe 8 t)
  | .period maxPerPeriod periodDurationSecs =>
    some (Bytes.toBe 16 maxPerPeriod ++ Bytes.toBe 8 periodDurationSecs)
  | .maxPerTx amountMicro assetId => some (Bytes.toBe 16 amountMicro ++ assetId.toList)
  | .perAssetSpendingCap caps => do
    let sorted := (sortCaps caps).take 5
    let len ← lenAsU32 sorted.length
    pure (len ++ sorted.flatMap capBytes)
  | .rateLimit maxPerWindow windowDurationSecs assetId =>
    some (Bytes.toBe 16 maxPerWindow ++ Bytes.toBe 8 windowDurationSecs ++ assetId.toList)
  | .allowedDestinations dids => encodeStringSet dids
  | .deniedDestinations dids => encodeStringSet dids
  | .intentBound messageTemplate => do
    let len ← lenAsU32 messageTemplate.length
    pure (len ++ messageTemplate)
  | .multiSig n signers => do
    let set ← encodeStringSet signers
    pure (Bytes.toBe 4 n ++ set)
  | .requireReceiptSignatureBy did => encodeString did
  | .callerBound did => encodeString did
  | .maxUses count => some (Bytes.toBe 4 count)
  | .singleUse => some []
  | .allowIf predicate stepBudget => do
    let len ← lenAsU32 predicate.length
    pure (Bytes.toBe 4 stepBudget ++ (len ++ predicate))
  | .verifierRequired circuitId => some circuitId.toList
  | .wrappedOnly => some []
  | .sponsoredBy vault => some vault.toList
  | .coordinatorCanSubmit coordinator => encodeString coordinator
  | .linearRelease start stop cliff =>
    some (Bytes.toBe 8 start ++ Bytes.toBe 8 stop ++ Bytes.toBe 8 cliff)
  | .cliffVesting till pct period =>
    some (Bytes.toBe 8 till ++ Bytes.toBe 1 pct ++ Bytes.toBe 8 period)
  | .liquidityLock till => some (Bytes.toBe 8 till)
  | .governanceLock whileVoteActive => some [if whileVoteActive then 1 else 0]
  | .complianceHold threshold delaySecs => some (Bytes.toBe 16 threshold ++ Bytes.toBe 8 delaySecs)

/-- The header and the payload. -/
def frame (disc : UInt8) (body : List UInt8) : List UInt8 :=
  namespaceTag :: versionTag :: disc :: (Bytes.toBe 4 body.length ++ body)

/-- `encode`. -/
def encode (c : Constraint) : Option (Except EncodingError (List UInt8)) := do
  let body ← encodeBody c
  if 6 + body.length > maxEncodedSize then return .error .constraintOverflow
  let _ ← lenAsU32 body.length
  return .ok (frame c.discriminator body)

/-! ### The reader -/

/-- A read of `n` bytes fails where fewer are left. -/
abbrev short (n got : Nat) : EncodingError := .truncated n got

abbrev readBytes (n : Nat) : Reader EncodingError (List UInt8) := Reader.take (short n) n

abbrev readUint (n : Nat) : Reader EncodingError Nat := Reader.uint (short n) n

/-- `read_bytes32`. -/
def readBytes32 : Reader EncodingError Bytes32 := do
  let bs ← readBytes 32
  pure (Vector.ofFn fun i => bs.getD i 0)

/-- `read_u32` and `read_bytes` of as many. -/
def readSized : Reader EncodingError (List UInt8) := do
  let n ← readUint 4
  readBytes n

/-- `read_string`. -/
def readString : Reader EncodingError String := do
  let n ← readUint 4
  let bs ← readBytes n
  match String.fromUTF8? ⟨bs.toArray⟩ with
  | some s => pure s
  | none => throw (.truncated n 0)

/-- `read_string_set`. -/
def readStringSet : Reader EncodingError (List String) := do
  let n ← readUint 4
  Reader.many readString n

/-- One entry of `PerAssetSpendingCap`. -/
def readCap : Reader EncodingError (Bytes32 × Nat) := do
  let assetId ← readBytes32
  let amount ← readUint 16
  pure (assetId, amount)

/-- The check of `windows(2)`. -/
def capsSorted (caps : List (Bytes32 × Nat)) : Bool :=
  (caps.zip caps.tail).all fun w => decide (w.1.1.toList < w.2.1.toList)

def readCaps : Reader EncodingError Constraint := do
  let count ← readUint 4
  if count > 5 then throw (.tooManyCaps count)
  let caps ← Reader.many readCap count
  if capsSorted caps then pure (.perAssetSpendingCap caps) else throw .capsNotSorted

/-- `decode_body`, with what it leaves unread. -/
def readBody (disc : UInt8) : Reader EncodingError Constraint :=
  match disc with
  | 0x01 => do
    let validAfterUnix ← readUint 8
    let validUntilUnix ← readUint 8
    pure (.validRange validAfterUnix validUntilUnix)
  | 0x02 => do
    let t ← readUint 8
    pure (.notBefore t)
  | 0x03 => do
    let t ← readUint 8
    pure (.unlockAfter t)
  | 0x04 => do
    let maxPerPeriod ← readUint 16
    let periodDurationSecs ← readUint 8
    pure (.period maxPerPeriod periodDurationSecs)
  | 0x05 => do
    let amountMicro ← readUint 16
    let assetId ← readBytes32
    pure (.maxPerTx amountMicro assetId)
  | 0x06 => readCaps
  | 0x07 => do
    let maxPerWindow ← readUint 16
    let windowDurationSecs ← readUint 8
    let assetId ← readBytes32
    pure (.rateLimit maxPerWindow windowDurationSecs assetId)
  | 0x08 => do
    let dids ← readStringSet
    pure (.allowedDestinations dids)
  | 0x09 => do
    let dids ← readStringSet
    pure (.deniedDestinations dids)
  | 0x0A => do
    let messageTemplate ← readSized
    pure (.intentBound messageTemplate)
  | 0x0B => do
    let n ← readUint 4
    let signers ← readStringSet
    pure (.multiSig n signers)
  | 0x0C => do
    let did ← readString
    pure (.requireReceiptSignatureBy did)
  | 0x0D => do
    let did ← readString
    pure (.callerBound did)
  | 0x0E => do
    let count ← readUint 4
    pure (.maxUses count)
  | 0x0F => pure .singleUse
  | 0x10 => do
    let stepBudget ← readUint 4
    let predicate ← readSized
    pure (.allowIf predicate stepBudget)
  | 0x11 => do
    let circuitId ← readBytes32
    pure (.verifierRequired circuitId)
  | 0x12 => pure .wrappedOnly
  | 0x13 => do
    let vault ← readBytes32
    pure (.sponsoredBy vault)
  | 0x14 => do
    let coordinator ← readString
    pure (.coordinatorCanSubmit coordinator)
  | 0x15 => do
    let start ← readUint 8
    let stop ← readUint 8
    let cliff ← readUint 8
    pure (.linearRelease start stop cliff)
  | 0x16 => do
    let till ← readUint 8
    let pct ← readUint 1
    let period ← readUint 8
    pure (.cliffVesting till pct period)
  | 0x17 => do
    let till ← readUint 8
    pure (.liquidityLock till)
  | 0x18 => do
    let flag ← readUint 1
    pure (.governanceLock (flag ≠ 0))
  | 0x19 => do
    let threshold ← readUint 16
    let delaySecs ← readUint 8
    pure (.complianceHold threshold delaySecs)
  | disc => throw (.unknownDiscriminator disc)

/-- The length a header declares. -/
def declared (bytes : List UInt8) : Nat := Bytes.beNat ((bytes.drop 3).take 4)

/-- `decode`. Six bytes pass the length check, and then `bytes[6]` is out of bounds. -/
def decode (bytes : List UInt8) : Option (Except EncodingError Constraint) :=
  if bytes.length < 6 then some (.error (.truncated 6 bytes.length))
  else if bytes.getD 0 0 ≠ namespaceTag then some (.error (.invalidNamespaceTag (bytes.getD 0 0)))
  else if bytes.getD 1 0 ≠ versionTag then some (.error (.invalidVersionTag (bytes.getD 1 0)))
  else if bytes.length < 7 then none
  else
    let body := bytes.drop 7
    if body.length < declared bytes then some (.error (.truncated (declared bytes) body.length))
    else some ((readBody (bytes.getD 2 0) (body.take (declared bytes))).map Prod.fst)

/-- `constraint_hash`; `none` where the constraint does not encode. -/
def constraintHash (blake3 : List UInt8 → Bytes32) (c : Constraint) : Option Bytes32 :=
  match encode c with
  | some (.ok bytes) => some (blake3 (constraintHashPrefix :: bytes))
  | _ => none

/-! ## Fields -/

/-- A string as it is written. -/
def stringWire (s : String) : List UInt8 := Bytes.toBe 4 (asBytes s).length ++ asBytes s

/-- A list of items as it is written: their number, then each. -/
def listWire {α : Type} (item : α → List UInt8) (items : List α) : List UInt8 :=
  Bytes.toBe 4 items.length ++ items.flatMap item

/-- A length that fits a `u32`. -/
def IsLen (n : Nat) : Prop := n < 2 ^ 32

section Fields

open Reader

theorem reads_u8 : Reads (readUint 1) (Bytes.toBe 1) fun v => v < 2 ^ 8 := reads_uint _ 1

theorem reads_u32 : Reads (readUint 4) (Bytes.toBe 4) fun v => v < 2 ^ 32 :=
  (reads_uint _ 4).congr fun v => by norm_num

theorem reads_u64 : Reads (readUint 8) (Bytes.toBe 8) fun v => v < 2 ^ 64 :=
  (reads_uint _ 8).congr fun v => by norm_num

theorem reads_u128 : Reads (readUint 16) (Bytes.toBe 16) fun v => v < 2 ^ 128 :=
  (reads_uint _ 16).congr fun v => by norm_num

theorem reads_bytes32 : Reads readBytes32 Vector.toList fun _ => True := by
  have htoList : ∀ bs : List UInt8, bs.length = 32 →
      (Vector.ofFn fun i : Fin 32 => bs.getD i 0).toList = bs := by
    intro bs hbs
    refine List.ext_getElem (by rw [Vector.length_toList, hbs]) fun i hi hi' => ?_
    rw [Vector.getElem_toList, Vector.getElem_ofFn, List.getD_eq_getElem _ _ hi']
  refine (reads_take _ 32).convert (fun bs hbs => ⟨trivial, htoList bs hbs⟩) fun v _ => ?_
  have hlen : v.toList.length = 32 := Vector.length_toList
  exact ⟨v.toList, hlen, Vector.toList_inj.mp (htoList _ hlen)⟩

/-- Bytes behind their number. -/
theorem reads_sized :
    Reads readSized (fun bs => Bytes.toBe 4 bs.length ++ bs) fun bs => IsLen bs.length := by
  have hbody : ∀ m, Reads (readBytes m) id fun bs => bs.length = m ∧ True := fun m =>
    (reads_take _ m).congr fun bs => (iff_of_eq (and_true _)).symm
  exact (Reads.prefixed hbody).congr fun bs => by
    rw [and_true]
    norm_num [IsLen]

theorem reads_string : Reads readString stringWire fun s => IsLen (asBytes s).length := by
  have hbody : ∀ m, Reads (do
      let bs ← readBytes m
      match String.fromUTF8? ⟨bs.toArray⟩ with
      | some s => pure s
      | none => throw (.truncated m 0)) asBytes fun s => (asBytes s).length = m ∧ True := by
    intro m bs s rest
    dsimp only
    rw [bind_eq_ok, and_true]
    constructor
    · intro hok
      obtain ⟨taken, mid, hread, hnext⟩ := hok
      obtain ⟨hlen, rfl⟩ := (reads_take _ m bs taken mid).mp hread
      cases hs : String.fromUTF8? ⟨taken.toArray⟩ with
      | some s' =>
        rw [hs] at hnext
        obtain ⟨rfl, rfl⟩ := pure_eq_ok.mp hnext
        have htaken : asBytes s = taken := Bytes.fromUTF8_eq_some_iff.mp hs
        rw [htaken]
        exact ⟨hlen, rfl⟩
      | none =>
        rw [hs] at hnext
        cases hnext
    · intro hand
      obtain ⟨hlen, rfl⟩ := hand
      refine ⟨asBytes s, rest, (reads_take _ m _ _ _).mpr ⟨hlen, rfl⟩, ?_⟩
      have hs : String.fromUTF8? ⟨(asBytes s).toArray⟩ = some s :=
        Bytes.fromUTF8_eq_some_iff.mpr rfl
      rw [hs]
      rfl
  exact (Reads.prefixed hbody).congr fun s => by
    rw [and_true]
    norm_num [IsLen]

theorem reads_stringSet :
    Reads readStringSet (listWire stringWire)
      fun ss => IsLen ss.length ∧ ∀ s ∈ ss, IsLen (asBytes s).length := by
  exact (Reads.prefixed fun m => reads_string.many m).congr fun ss => by norm_num [IsLen]

theorem reads_cap : Reads readCap capBytes fun cap => cap.2 < 2 ^ 128 := by
  intro bs cap rest
  unfold readCap
  rw [reads_bytes32.two reads_u128]
  constructor
  · intro hok
    obtain ⟨id, amount, ⟨-, hamount⟩, rfl, rfl⟩ := hok
    exact ⟨hamount, rfl⟩
  · intro hand
    obtain ⟨hamount, rfl⟩ := hand
    exact ⟨cap.1, cap.2, ⟨trivial, hamount⟩, rfl, rfl⟩

/-- Caps behind their number, checked neither for it nor for their order. -/
theorem reads_capList :
    Reads (do let n ← readUint 4; many readCap n) (listWire capBytes)
      fun caps => IsLen caps.length ∧ ∀ cap ∈ caps, cap.2 < 2 ^ 128 := by
  exact (Reads.prefixed fun m => reads_cap.many m).congr fun caps => by norm_num [IsLen]

end Fields

/-! ## Constraints as they stand -/

/-- The fields of a constraint in order, its lists as they stand. -/
def Constraint.wire : Constraint → List UInt8
  | .validRange a b => Bytes.toBe 8 a ++ Bytes.toBe 8 b
  | .notBefore t => Bytes.toBe 8 t
  | .unlockAfter t => Bytes.toBe 8 t
  | .period max secs => Bytes.toBe 16 max ++ Bytes.toBe 8 secs
  | .maxPerTx amount id => Bytes.toBe 16 amount ++ id.toList
  | .perAssetSpendingCap caps => listWire capBytes caps
  | .rateLimit max secs id => Bytes.toBe 16 max ++ Bytes.toBe 8 secs ++ id.toList
  | .allowedDestinations dids => listWire stringWire dids
  | .deniedDestinations dids => listWire stringWire dids
  | .intentBound template => Bytes.toBe 4 template.length ++ template
  | .multiSig n signers => Bytes.toBe 4 n ++ listWire stringWire signers
  | .requireReceiptSignatureBy did => stringWire did
  | .callerBound did => stringWire did
  | .maxUses count => Bytes.toBe 4 count
  | .singleUse => []
  | .allowIf predicate budget =>
    Bytes.toBe 4 budget ++ (Bytes.toBe 4 predicate.length ++ predicate)
  | .verifierRequired id => id.toList
  | .wrappedOnly => []
  | .sponsoredBy vault => vault.toList
  | .coordinatorCanSubmit coordinator => stringWire coordinator
  | .linearRelease start stop cliff => Bytes.toBe 8 start ++ Bytes.toBe 8 stop ++ Bytes.toBe 8 cliff
  | .cliffVesting till pct secs => Bytes.toBe 8 till ++ Bytes.toBe 1 pct ++ Bytes.toBe 8 secs
  | .liquidityLock till => Bytes.toBe 8 till
  | .governanceLock flag => [if flag then 1 else 0]
  | .complianceHold threshold secs => Bytes.toBe 16 threshold ++ Bytes.toBe 8 secs

/-- The numbers of a constraint are of its types. -/
def Constraint.Fits : Constraint → Prop
  | .validRange a b => a < 2 ^ 64 ∧ b < 2 ^ 64
  | .notBefore t => t < 2 ^ 64
  | .unlockAfter t => t < 2 ^ 64
  | .period max secs => max < 2 ^ 128 ∧ secs < 2 ^ 64
  | .maxPerTx amount _ => amount < 2 ^ 128
  | .perAssetSpendingCap caps => ∀ cap ∈ caps, cap.2 < 2 ^ 128
  | .rateLimit max secs _ => max < 2 ^ 128 ∧ secs < 2 ^ 64
  | .multiSig n _ => n < 2 ^ 32
  | .maxUses count => count < 2 ^ 32
  | .allowIf _ budget => budget < 2 ^ 32
  | .linearRelease start stop cliff => start < 2 ^ 64 ∧ stop < 2 ^ 64 ∧ cliff < 2 ^ 64
  | .cliffVesting till pct secs => till < 2 ^ 64 ∧ pct < 2 ^ 8 ∧ secs < 2 ^ 64
  | .liquidityLock till => till < 2 ^ 64
  | .complianceHold threshold secs => threshold < 2 ^ 128 ∧ secs < 2 ^ 64
  | _ => True

/-- The string set of a constraint. -/
def Constraint.strings : Constraint → List String
  | .allowedDestinations dids => dids
  | .deniedDestinations dids => dids
  | .multiSig _ signers => signers
  | _ => []

/-- The lengths that are written fit a `u32`. -/
def Constraint.Sized : Constraint → Prop
  | .perAssetSpendingCap caps => IsLen caps.length
  | .allowedDestinations dids => IsLen dids.length ∧ ∀ s ∈ dids, IsLen (asBytes s).length
  | .deniedDestinations dids => IsLen dids.length ∧ ∀ s ∈ dids, IsLen (asBytes s).length
  | .intentBound template => IsLen template.length
  | .multiSig _ signers => IsLen signers.length ∧ ∀ s ∈ signers, IsLen (asBytes s).length
  | .requireReceiptSignatureBy did => IsLen (asBytes did).length
  | .callerBound did => IsLen (asBytes did).length
  | .allowIf predicate _ => IsLen predicate.length
  | .coordinatorCanSubmit coordinator => IsLen (asBytes coordinator).length
  | _ => True

/-- What the decoder asks of caps. -/
def Constraint.Checked : Constraint → Prop
  | .perAssetSpendingCap caps => caps.length ≤ 5 ∧ capsSorted caps
  | _ => True

section Body

open Reader

theorem readCaps_iff {bs rest : List UInt8} {c : Constraint} :
    readCaps bs = .ok (c, rest) ↔
      ∃ caps, (IsLen caps.length ∧ ∀ cap ∈ caps, cap.2 < 2 ^ 128) ∧
        (caps.length ≤ 5 ∧ capsSorted caps) ∧ bs = listWire capBytes caps ++ rest ∧
        c = .perAssetSpendingCap caps := by
  unfold readCaps
  rw [bind_eq_ok]
  constructor
  · intro hok
    obtain ⟨n, mid, hread, hnext⟩ := hok
    split at hnext
    next => cases hnext
    next hfew =>
      obtain ⟨caps, mid', hmany, hlast⟩ := bind_eq_ok.mp hnext
      have hlist := (reads_capList bs caps mid').mp (bind_eq_ok.mpr ⟨n, mid, hread, hmany⟩)
      obtain ⟨hlen, -⟩ := ((reads_cap.many n) mid caps mid').mp hmany
      split at hlast
      next hsorted =>
        obtain ⟨rfl, rfl⟩ := pure_eq_ok.mp hlast
        exact ⟨caps, hlist.1, ⟨by omega, hsorted⟩, hlist.2, rfl⟩
      next => cases hlast
  · intro hok
    obtain ⟨caps, hgood, ⟨hfew, hsorted⟩, hbs, rfl⟩ := hok
    obtain ⟨n, mid, hread, hmany⟩ := bind_eq_ok.mp ((reads_capList bs caps rest).mpr ⟨hgood, hbs⟩)
    obtain ⟨hlen, -⟩ := ((reads_cap.many n) mid caps rest).mp hmany
    refine ⟨n, mid, hread, ?_⟩
    rw [if_neg (by omega)]
    refine bind_eq_ok.mpr ⟨caps, rest, hmany, ?_⟩
    rw [if_pos hsorted]
    rfl

/-- What `decode_body` reads is a constraint as it stands, and a rest. -/
theorem wire_of_readBody {disc : UInt8} {bs rest : List UInt8} {c : Constraint}
    (hdisc : disc ≠ 0x18) (h : readBody disc bs = .ok (c, rest)) :
    c.discriminator = disc ∧ c.Fits ∧ c.Sized ∧ c.Checked ∧ bs = c.wire ++ rest := by
  unfold readBody at h
  split at h
  next =>
    obtain ⟨_, _, hfits, rfl, rfl⟩ := (reads_u64.two reads_u64).mp h
    exact ⟨rfl, hfits, trivial, trivial, rfl⟩
  next =>
    obtain ⟨_, hfits, rfl, rfl⟩ := reads_u64.one.mp h
    exact ⟨rfl, hfits, trivial, trivial, rfl⟩
  next =>
    obtain ⟨_, hfits, rfl, rfl⟩ := reads_u64.one.mp h
    exact ⟨rfl, hfits, trivial, trivial, rfl⟩
  next =>
    obtain ⟨_, _, hfits, rfl, rfl⟩ := (reads_u128.two reads_u64).mp h
    exact ⟨rfl, hfits, trivial, trivial, rfl⟩
  next =>
    obtain ⟨_, _, ⟨hfits, -⟩, rfl, rfl⟩ := (reads_u128.two reads_bytes32).mp h
    exact ⟨rfl, hfits, trivial, trivial, rfl⟩
  next =>
    obtain ⟨_, ⟨hsized, hfits⟩, hchecked, rfl, rfl⟩ := readCaps_iff.mp h
    exact ⟨rfl, hfits, hsized, hchecked, rfl⟩
  next =>
    obtain ⟨_, _, _, ⟨hmax, hsecs, -⟩, rfl, rfl⟩ :=
      (reads_u128.three reads_u64 reads_bytes32).mp h
    exact ⟨rfl, ⟨hmax, hsecs⟩, trivial, trivial, rfl⟩
  next =>
    obtain ⟨_, hsized, rfl, rfl⟩ := reads_stringSet.one.mp h
    exact ⟨rfl, trivial, hsized, trivial, rfl⟩
  next =>
    obtain ⟨_, hsized, rfl, rfl⟩ := reads_stringSet.one.mp h
    exact ⟨rfl, trivial, hsized, trivial, rfl⟩
  next =>
    obtain ⟨_, hsized, rfl, rfl⟩ := reads_sized.one.mp h
    exact ⟨rfl, trivial, hsized, trivial, rfl⟩
  next =>
    obtain ⟨_, _, ⟨hfits, hsized⟩, rfl, rfl⟩ := (reads_u32.two reads_stringSet).mp h
    exact ⟨rfl, hfits, hsized, trivial, rfl⟩
  next =>
    obtain ⟨_, hsized, rfl, rfl⟩ := reads_string.one.mp h
    exact ⟨rfl, trivial, hsized, trivial, rfl⟩
  next =>
    obtain ⟨_, hsized, rfl, rfl⟩ := reads_string.one.mp h
    exact ⟨rfl, trivial, hsized, trivial, rfl⟩
  next =>
    obtain ⟨_, hfits, rfl, rfl⟩ := reads_u32.one.mp h
    exact ⟨rfl, hfits, trivial, trivial, rfl⟩
  next =>
    obtain ⟨rfl, rfl⟩ := pure_eq_ok.mp h
    exact ⟨rfl, trivial, trivial, trivial, rfl⟩
  next =>
    obtain ⟨_, _, ⟨hfits, hsized⟩, rfl, rfl⟩ := (reads_u32.two reads_sized).mp h
    exact ⟨rfl, hfits, hsized, trivial, rfl⟩
  next =>
    obtain ⟨_, -, rfl, rfl⟩ := reads_bytes32.one.mp h
    exact ⟨rfl, trivial, trivial, trivial, rfl⟩
  next =>
    obtain ⟨rfl, rfl⟩ := pure_eq_ok.mp h
    exact ⟨rfl, trivial, trivial, trivial, rfl⟩
  next =>
    obtain ⟨_, -, rfl, rfl⟩ := reads_bytes32.one.mp h
    exact ⟨rfl, trivial, trivial, trivial, rfl⟩
  next =>
    obtain ⟨_, hsized, rfl, rfl⟩ := reads_string.one.mp h
    exact ⟨rfl, trivial, hsized, trivial, rfl⟩
  next =>
    obtain ⟨_, _, _, hfits, rfl, rfl⟩ := (reads_u64.three reads_u64 reads_u64).mp h
    exact ⟨rfl, hfits, trivial, trivial, rfl⟩
  next =>
    obtain ⟨_, _, _, hfits, rfl, rfl⟩ := (reads_u64.three reads_u8 reads_u64).mp h
    exact ⟨rfl, hfits, trivial, trivial, rfl⟩
  next =>
    obtain ⟨_, hfits, rfl, rfl⟩ := reads_u64.one.mp h
    exact ⟨rfl, hfits, trivial, trivial, rfl⟩
  next => exact absurd rfl hdisc
  next =>
    obtain ⟨_, _, hfits, rfl, rfl⟩ := (reads_u128.two reads_u64).mp h
    exact ⟨rfl, hfits, trivial, trivial, rfl⟩
  next => cases h

/-- A flag is read from any byte. -/
theorem readBody_flag {bs rest : List UInt8} {c : Constraint} :
    readBody 0x18 bs = .ok (c, rest) ↔
      ∃ flag : UInt8, bs = flag :: rest ∧ c = .governanceLock (flag ≠ 0) := by
  have hbyte : ∀ n, n < 2 ^ 8 → Bytes.toBe 1 n = [UInt8.ofNat n] ∧ (UInt8.ofNat n ≠ 0 ↔ n ≠ 0) := by
    intro n hn
    have hmod : n % 256 = n := Nat.mod_eq_of_lt hn
    refine ⟨by rw [Bytes.toBe, Bytes.toLe, Bytes.toLe, hmod]; rfl, not_congr ?_⟩
    rw [← UInt8.toNat_inj, UInt8.toNat_ofNat', hmod]
    rfl
  show (do let flag ← readUint 1; pure (.governanceLock (flag ≠ 0)) : Reader EncodingError Constraint)
    bs = _ ↔ _
  rw [reads_u8.one]
  constructor
  · intro hok
    obtain ⟨n, hn, rfl, rfl⟩ := hok
    refine ⟨UInt8.ofNat n, by rw [(hbyte n hn).1]; rfl, ?_⟩
    simp only [(hbyte n hn).2]
  · intro hok
    obtain ⟨flag, rfl, rfl⟩ := hok
    have hlt : flag.toNat < 2 ^ 8 := flag.toNat_lt
    have hself : UInt8.ofNat flag.toNat = flag := UInt8.ofNat_toNat
    refine ⟨flag.toNat, hlt, by rw [(hbyte _ hlt).1, hself]; rfl, ?_⟩
    simp only [← (hbyte _ hlt).2, hself]

/-- A constraint as it stands is read back. -/
theorem readBody_wire {c : Constraint} (hfits : c.Fits) (hsized : c.Sized) (hchecked : c.Checked)
    (rest : List UInt8) : readBody c.discriminator (c.wire ++ rest) = .ok (c, rest) := by
  cases c with
  | validRange a b => exact (reads_u64.two reads_u64).mpr ⟨a, b, hfits, rfl, rfl⟩
  | notBefore t => exact reads_u64.one.mpr ⟨t, hfits, rfl, rfl⟩
  | unlockAfter t => exact reads_u64.one.mpr ⟨t, hfits, rfl, rfl⟩
  | period max secs => exact (reads_u128.two reads_u64).mpr ⟨max, secs, hfits, rfl, rfl⟩
  | maxPerTx amount id =>
    exact (reads_u128.two reads_bytes32).mpr ⟨amount, id, ⟨hfits, trivial⟩, rfl, rfl⟩
  | perAssetSpendingCap caps =>
    exact readCaps_iff.mpr ⟨caps, ⟨hsized, hfits⟩, hchecked, rfl, rfl⟩
  | rateLimit max secs id =>
    exact (reads_u128.three reads_u64 reads_bytes32).mpr
      ⟨max, secs, id, ⟨hfits.1, hfits.2, trivial⟩, rfl, rfl⟩
  | allowedDestinations dids => exact reads_stringSet.one.mpr ⟨dids, hsized, rfl, rfl⟩
  | deniedDestinations dids => exact reads_stringSet.one.mpr ⟨dids, hsized, rfl, rfl⟩
  | intentBound template => exact reads_sized.one.mpr ⟨template, hsized, rfl, rfl⟩
  | multiSig n signers =>
    exact (reads_u32.two reads_stringSet).mpr ⟨n, signers, ⟨hfits, hsized⟩, rfl, rfl⟩
  | requireReceiptSignatureBy did => exact reads_string.one.mpr ⟨did, hsized, rfl, rfl⟩
  | callerBound did => exact reads_string.one.mpr ⟨did, hsized, rfl, rfl⟩
  | maxUses count => exact reads_u32.one.mpr ⟨count, hfits, rfl, rfl⟩
  | singleUse => rfl
  | allowIf predicate budget =>
    exact (reads_u32.two reads_sized).mpr ⟨budget, predicate, ⟨hfits, hsized⟩, rfl, rfl⟩
  | verifierRequired id => exact reads_bytes32.one.mpr ⟨id, trivial, rfl, rfl⟩
  | wrappedOnly => rfl
  | sponsoredBy vault => exact reads_bytes32.one.mpr ⟨vault, trivial, rfl, rfl⟩
  | coordinatorCanSubmit coordinator =>
    exact reads_string.one.mpr ⟨coordinator, hsized, rfl, rfl⟩
  | linearRelease start stop cliff =>
    exact (reads_u64.three reads_u64 reads_u64).mpr ⟨start, stop, cliff, hfits, rfl, rfl⟩
  | cliffVesting till pct secs =>
    exact (reads_u64.three reads_u8 reads_u64).mpr ⟨till, pct, secs, hfits, rfl, rfl⟩
  | liquidityLock till => exact reads_u64.one.mpr ⟨till, hfits, rfl, rfl⟩
  | governanceLock flag =>
    cases flag with
    | false => exact readBody_flag.mpr ⟨0, rfl, rfl⟩
    | true => exact readBody_flag.mpr ⟨1, rfl, rfl⟩
  | complianceHold threshold secs =>
    exact (reads_u128.two reads_u64).mpr ⟨threshold, secs, hfits, rfl, rfl⟩

theorem caps_of_discriminator {c : Constraint} (h : c.discriminator = 0x06) :
    ∃ caps, c = .perAssetSpendingCap caps := by
  cases c with
  | perAssetSpendingCap caps => exact ⟨caps, rfl⟩
  | _ => simp [Constraint.discriminator] at h

/-- A constraint is determined by its discriminator and its fields. -/
theorem wire_inj {c d : Constraint} (hc : c.Fits ∧ c.Sized) (hd : d.Fits ∧ d.Sized)
    (hdisc : c.discriminator = d.discriminator) (hwire : c.wire = d.wire) : c = d := by
  by_cases hcaps : c.discriminator = 0x06
  · -- caps are read back in any order and number
    obtain ⟨caps, rfl⟩ := caps_of_discriminator hcaps
    obtain ⟨caps', rfl⟩ := caps_of_discriminator (hdisc.symm.trans hcaps)
    have happend := congrArg (· ++ []) hwire
    rw [(reads_capList.inj ⟨hc.2, hc.1⟩ ⟨hd.2, hd.1⟩ happend).1]
  · have hchecked : ∀ {e : Constraint}, e.discriminator ≠ 0x06 → e.Checked := by
      intro e he
      cases e with
      | perAssetSpendingCap caps => exact absurd rfl he
      | _ => trivial
    have hread := readBody_wire hc.1 hc.2 (hchecked hcaps) []
    rw [hdisc, hwire, readBody_wire hd.1 hd.2 (hchecked (hdisc ▸ hcaps)) []] at hread
    cases hread
    rfl

end Body

end CipherOcto.Encoding
