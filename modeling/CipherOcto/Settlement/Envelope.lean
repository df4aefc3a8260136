import CipherOcto.Encoding.Codec
import CipherOcto.Lib.Layout
import Mathlib.Data.Set.Function

/-!
# Execution envelopes

An envelope holds what a session executes: SQL statements, calls of stored
procedures and changes of the schema. Its holder signs `unsigned_canonical_ser`,
and the envelope's id is the hash of the same bytes. The fields of those bytes are
of fixed width or follow their length, so the bytes determine every field they are
made of; the procedure calls and the schema changes are not among them.

> `unsignedCanonicalSer_eq_iff`: the bytes are those of the ten fields.
> `build_binds`: the sizes that takes hold for every envelope that is built.

The JSON of the statements, BLAKE3 and the verification of a signature are
parameters.
-/

namespace CipherOcto.Settlement

open Encoding

/-! ## The code -/

def maxStatements : Nat := 1000

def maxEnvelopeBytes : Nat := 1048576

def versionTag : UInt8 := 2

def sqlStatementsHashPrefix : UInt8 := 0xA3

inductive EnvelopeMode where
  | deterministic | offChain | auditOnly
deriving DecidableEq

/-- `mode as u8`. -/
def EnvelopeMode.toUInt8 : EnvelopeMode → UInt8
  | .deterministic => 0
  | .offChain => 1
  | .auditOnly => 2

structure ProcInvocation where
  procName : String
  args : List String
deriving DecidableEq

inductive DdlOperation where
  | createTable (name : String) (columns : List String)
  | dropTable (name : String)
  | alterTable (name alteration : String)
deriving DecidableEq

structure ExecutionEnvelope where
  version : UInt8
  sessionId : Bytes32
  capability : Bytes32
  capabilityHolder : String
  sqlStatements : List String
  storedProcs : List ProcInvocation
  ddlChanges : List DdlOperation
  walSegmentHash : Bytes32
  blockHeight : UInt64
  nonce : Bytes32
  mode : EnvelopeMode
  timestamp : UInt64
  signature : List UInt8
deriving DecidableEq

/-- `EnvelopeError`, as far as the functions here return it. -/
inductive EnvelopeError where
  | tooManyStatements (count : Nat)
  | tooLarge (size : Nat)
  | signatureInvalid
deriving DecidableEq

/-- Bytes after their length as a big-endian `u32`. -/
def lengthPrefixed (bytes : List UInt8) : List UInt8 := Bytes.toBe 4 bytes.length ++ bytes

section

-- `serde_json::to_string` of a list of strings, as bytes
variable (json : List String → List UInt8)

/-- `unsigned_canonical_ser`. -/
def unsignedCanonicalSer (e : ExecutionEnvelope) : List UInt8 :=
  [e.version] ++ (e.sessionId.toList ++ (e.capability.toList ++
    (lengthPrefixed (asBytes e.capabilityHolder) ++ (lengthPrefixed (json e.sqlStatements) ++
      (e.walSegmentHash.toList ++ (Bytes.toBe 8 e.blockHeight.toNat ++ (e.nonce.toList ++
        ([e.mode.toUInt8] ++ Bytes.toBe 8 e.timestamp.toNat))))))))

/-- `serialize_envelope`. -/
def serializeEnvelope (e : ExecutionEnvelope) : List UInt8 :=
  unsignedCanonicalSer json e ++ e.signature

/-- `build_envelope`, on the fields of an envelope but for its version. -/
def buildEnvelope (fields : ExecutionEnvelope) : Except EnvelopeError ExecutionEnvelope :=
  if fields.sqlStatements.length > maxStatements then
    .error (.tooManyStatements fields.sqlStatements.length)
  else
    let envelope := { fields with version := versionTag }
    let bytes := serializeEnvelope json envelope
    if bytes.length > maxEnvelopeBytes then .error (.tooLarge bytes.length) else .ok envelope

/-- What is hashed for an id. -/
def envelopeIdInput (e : ExecutionEnvelope) : List UInt8 :=
  sqlStatementsHashPrefix :: unsignedCanonicalSer json e

/-- `tentative_envelope_id`. -/
def tentativeEnvelopeId (blake3 : List UInt8 → Bytes32) (e : ExecutionEnvelope) : Bytes32 :=
  blake3 (envelopeIdInput json e)

/-- `finalize_envelope_id`. -/
def finalizeEnvelopeId (blake3 : List UInt8 → Bytes32) (e : ExecutionEnvelope) : Bytes32 :=
  tentativeEnvelopeId json blake3 e

/-- `verify_envelope_signature`. `verify` is `verify_dispatch`: algorithm, key, message and
signature. -/
def verifyEnvelopeSignature {α : Type} (verify : α → List UInt8 → List UInt8 → List UInt8 → Bool)
    (algorithmId : α) (e : ExecutionEnvelope) (holderPub : List UInt8) :
    Except EnvelopeError Unit :=
  if verify algorithmId holderPub (unsignedCanonicalSer json e) e.signature then .ok ()
  else .error .signatureInvalid

end

/-! ## What the bytes determine -/

/-- The fields the bytes are made of. -/
structure SameSerialized (a b : ExecutionEnvelope) : Prop where
  version : a.version = b.version
  sessionId : a.sessionId = b.sessionId
  capability : a.capability = b.capability
  capabilityHolder : a.capabilityHolder = b.capabilityHolder
  sqlStatements : a.sqlStatements = b.sqlStatements
  walSegmentHash : a.walSegmentHash = b.walSegmentHash
  blockHeight : a.blockHeight = b.blockHeight
  nonce : a.nonce = b.nonce
  mode : a.mode = b.mode
  timestamp : a.timestamp = b.timestamp

/-- Everything but the signature. -/
def SameUnsigned (a b : ExecutionEnvelope) : Prop := { a with signature := b.signature } = b

instance (a b : ExecutionEnvelope) : Decidable (SameUnsigned a b) :=
  inferInstanceAs (Decidable (_ = _))

/-- The lengths that fit their prefix. -/
structure WithinPrefix (json : List String → List UInt8) (e : ExecutionEnvelope) : Prop where
  holder : (asBytes e.capabilityHolder).length < 2 ^ 32
  statements : (json e.sqlStatements).length < 2 ^ 32

theorem lengthPrefixed_append_inj {xs ys r s : List UInt8} (hx : xs.length < 2 ^ 32)
    (hy : ys.length < 2 ^ 32) (h : lengthPrefixed xs ++ r = lengthPrefixed ys ++ s) :
    xs = ys ∧ r = s := by
  unfold lengthPrefixed at h
  rw [List.append_assoc, List.append_assoc] at h
  exact Bytes.sized_append_inj hx hy h

theorem EnvelopeMode.toUInt8_injective {a b : EnvelopeMode} (h : a.toUInt8 = b.toUInt8) :
    a = b := by
  cases a <;> cases b <;> first | rfl | exact absurd h (by decide)

theorem asBytes_injective {s t : String} (h : asBytes s = asBytes t) : s = t :=
  Bytes.toUTF8_toList_inj h

section

variable {json : List String → List UInt8} {a b : ExecutionEnvelope}

theorem SameSerialized.ser_eq (h : SameSerialized a b) :
    unsignedCanonicalSer json a = unsignedCanonicalSer json b := by
  obtain ⟨h₁, h₂, h₃, h₄, h₅, h₆, h₇, h₈, h₉, h₁₀⟩ := h
  rw [unsignedCanonicalSer, unsignedCanonicalSer, h₁, h₂, h₃, h₄, h₅, h₆, h₇, h₈, h₉, h₁₀]

/-- **The bytes** determine the fields they are made of. -/
theorem unsignedCanonicalSer_eq_iff (ha : WithinPrefix json a) (hb : WithinPrefix json b)
    (hjson : json a.sqlStatements = json b.sqlStatements → a.sqlStatements = b.sqlStatements) :
    unsignedCanonicalSer json a = unsignedCanonicalSer json b ↔ SameSerialized a b := by
  refine ⟨fun h => ?_, SameSerialized.ser_eq⟩
  unfold unsignedCanonicalSer at h
  obtain ⟨hversion, h⟩ := List.append_inj h (by simp)
  obtain ⟨hsession, h⟩ := List.append_inj h (by simp)
  obtain ⟨hcapability, h⟩ := List.append_inj h (by simp)
  obtain ⟨hholder, h⟩ := lengthPrefixed_append_inj ha.holder hb.holder h
  obtain ⟨hstatements, h⟩ := lengthPrefixed_append_inj ha.statements hb.statements h
  obtain ⟨hwal, h⟩ := List.append_inj h (by simp)
  obtain ⟨hheight, h⟩ := List.append_inj h (by simp)
  obtain ⟨hnonce, h⟩ := List.append_inj h (by simp)
  obtain ⟨hmode, htimestamp⟩ := List.append_inj h (by simp)
  exact {
    version := List.singleton_inj.mp hversion
    sessionId := Vector.toList_inj.mp hsession
    capability := Vector.toList_inj.mp hcapability
    capabilityHolder := asBytes_injective hholder
    sqlStatements := hjson hstatements
    walSegmentHash := Vector.toList_inj.mp hwal
    blockHeight := Bytes.toBe8_inj hheight
    nonce := Vector.toList_inj.mp hnonce
    mode := EnvelopeMode.toUInt8_injective (List.singleton_inj.mp hmode)
    timestamp := Bytes.toBe8_inj htimestamp }

theorem sameUnsigned_iff : SameUnsigned a b ↔
    SameSerialized a b ∧ a.storedProcs = b.storedProcs ∧ a.ddlChanges = b.ddlChanges := by
  obtain ⟨_, _, _, _, _, _, _, _, _, _, _, _, _⟩ := a
  obtain ⟨_, _, _, _, _, _, _, _, _, _, _, _, _⟩ := b
  constructor
  · intro h
    cases h
    exact ⟨⟨rfl, rfl, rfl, rfl, rfl, rfl, rfl, rfl, rfl, rfl⟩, rfl, rfl⟩
  · intro h
    obtain ⟨⟨h₁, h₂, h₃, h₄, h₅, h₆, h₇, h₈, h₉, h₁₀⟩, h₁₁, h₁₂⟩ := h
    dsimp only at h₁ h₂ h₃ h₄ h₅ h₆ h₇ h₈ h₉ h₁₀ h₁₁ h₁₂
    subst h₁ h₂ h₃ h₄ h₅ h₆ h₇ h₈ h₉ h₁₀ h₁₁ h₁₂
    rfl

/-- The envelopes differ in more than procedure calls and schema changes, or not in these. -/
def DifferElsewhere (a b : ExecutionEnvelope) : Prop :=
  SameSerialized a b → a.storedProcs = b.storedProcs ∧ a.ddlChanges = b.ddlChanges

/-- What has the same bytes exactly where the bytes are the same is bound where these are. -/
theorem binding_iff_of_eq_iff {P : Prop} (h : P ↔ SameSerialized a b) :
    (P → SameUnsigned a b) ↔ DifferElsewhere a b := by
  rw [h, sameUnsigned_iff]
  exact ⟨fun hbind hsame => (hbind hsame).2, fun helse hsame => ⟨hsame, helse hsame⟩⟩

/-- An id is known by its bytes. -/
theorem finalizeEnvelopeId_eq_iff {blake3 : List UInt8 → Bytes32}
    (hinj : Set.InjOn blake3 {envelopeIdInput json a, envelopeIdInput json b}) :
    finalizeEnvelopeId json blake3 a = finalizeEnvelopeId json blake3 b ↔
      unsignedCanonicalSer json a = unsignedCanonicalSer json b := by
  constructor
  · intro h
    have hinput := hinj (Set.mem_insert _ _) (Set.mem_insert_of_mem _ rfl) h
    exact (List.cons.inj hinput).2
  · intro h
    rw [finalizeEnvelopeId, tentativeEnvelopeId, envelopeIdInput, h]
    rfl

theorem verifyEnvelopeSignature_eq_ok_iff {α : Type}
    {verify : α → List UInt8 → List UInt8 → List UInt8 → Bool} {algorithmId : α}
    {e : ExecutionEnvelope} {holderPub : List UInt8} :
    verifyEnvelopeSignature json verify algorithmId e holderPub = .ok () ↔
      verify algorithmId holderPub (unsignedCanonicalSer json e) e.signature := by
  unfold verifyEnvelopeSignature
  split
  next h => exact iff_of_true rfl h
  next h => exact iff_of_false (fun hok => nomatch hok) h

/-- An envelope that is built is short enough for its prefixes. -/
theorem build_binds {fields : ExecutionEnvelope} (h : buildEnvelope json fields = .ok a) :
    WithinPrefix json a := by
  unfold buildEnvelope at h
  dsimp only at h
  split at h
  · cases h
  · split at h
    · cases h
    next hsize =>
      obtain rfl := Except.ok.inj h
      have hlen := not_lt.mp hsize
      simp only [serializeEnvelope, unsignedCanonicalSer, lengthPrefixed, List.length_append,
        Bytes.length_toBe, Vector.length_toList, List.length_singleton, maxEnvelopeBytes] at hlen
      refine ⟨?_, ?_⟩
      · show (asBytes fields.capabilityHolder).length < 2 ^ 32
        omega
      · show (json fields.sqlStatements).length < 2 ^ 32
        omega

end

/-! ## Binding -/

/-- **The signature covers** the ten fields: bytes, id and signature bind an envelope against
another iff the two do not differ in procedure calls and schema changes alone. -/
theorem envelope_binding_iff {α : Type} (json : List String → List UInt8)
    (blake3 : List UInt8 → Bytes32) (verify : α → List UInt8 → List UInt8 → List UInt8 → Bool)
    (a b : ExecutionEnvelope) (ha : WithinPrefix json a) (hb : WithinPrefix json b)
    (hjson : Set.InjOn json {a.sqlStatements, b.sqlStatements}) :
    ((unsignedCanonicalSer json a = unsignedCanonicalSer json b → SameUnsigned a b) ↔
      DifferElsewhere a b) ∧
    (Set.InjOn blake3 {envelopeIdInput json a, envelopeIdInput json b} →
      ((finalizeEnvelopeId json blake3 a = finalizeEnvelopeId json blake3 b → SameUnsigned a b) ↔
        DifferElsewhere a b)) ∧
    (∀ (algorithmId : α) (holderPub : List UInt8),
      -- a signature is one message's
      (verify algorithmId holderPub (unsignedCanonicalSer json a) a.signature →
        verify algorithmId holderPub (unsignedCanonicalSer json b) a.signature →
        unsignedCanonicalSer json a = unsignedCanonicalSer json b) →
      verifyEnvelopeSignature json verify algorithmId a holderPub = .ok () →
      ((verifyEnvelopeSignature json verify algorithmId { b with signature := a.signature }
          holderPub = .ok () → a.storedProcs = b.storedProcs ∧ a.ddlChanges = b.ddlChanges) ↔
        DifferElsewhere a b)) := by
  have hser := unsignedCanonicalSer_eq_iff ha hb fun h =>
    hjson (Set.mem_insert _ _) (Set.mem_insert_of_mem _ rfl) h
  refine ⟨binding_iff_of_eq_iff hser, fun hinj => ?_, fun algorithmId holderPub hone hvalid => ?_⟩
  · exact binding_iff_of_eq_iff ((finalizeEnvelopeId_eq_iff hinj).trans hser)
  · rw [verifyEnvelopeSignature_eq_ok_iff] at hvalid ⊢
    have hother : verify algorithmId holderPub
        (unsignedCanonicalSer json { b with signature := a.signature }) a.signature ↔
        SameSerialized a b := by
      rw [← hser]
      refine ⟨hone hvalid, fun heq => ?_⟩
      rw [heq] at hvalid
      exact hvalid
    rw [hother]
    exact Iff.rfl

def sampleEnvelope : ExecutionEnvelope where
  version := versionTag
  sessionId := Vector.replicate 32 1
  capability := Vector.replicate 32 2
  capabilityHolder := "did:octo:alice"
  sqlStatements := ["SELECT 1"]
  storedProcs := []
  ddlChanges := []
  walSegmentHash := Vector.replicate 32 3
  blockHeight := 100
  nonce := Vector.replicate 32 4
  mode := .deterministic
  timestamp := 1000000
  signature := List.replicate 64 0

/-- The JSON of strings with nothing to escape. -/
def plainJson (strings : List String) : List UInt8 :=
  asBytes ("[" ++ ",".intercalate (strings.map fun s => "\"" ++ s ++ "\"") ++ "]")

def tamperedEnvelope : ExecutionEnvelope := { sampleEnvelope with blockHeight := 999 }

/-- BLAKE3 for the sample at height 100. -/
def sampleId : Bytes32 :=
  #v[61, 145, 155, 5, 221, 214, 179, 115, 226, 97, 141, 186, 13, 130, 60, 54,
    37, 149, 221, 93, 56, 82, 44, 50, 210, 58, 146, 237, 188, 157, 207, 199]

/-- BLAKE3 for the sample at height 999. -/
def tamperedId : Bytes32 :=
  #v[163, 115, 110, 172, 47, 16, 33, 83, 191, 37, 168, 158, 210, 66, 225, 119,
    6, 169, 75, 247, 196, 176, 180, 172, 79, 9, 4, 7, 143, 83, 175, 82]

def envelopeBlake3 (m : List UInt8) : Bytes32 :=
  (List.lookup m [(envelopeIdInput plainJson sampleEnvelope, sampleId),
    (envelopeIdInput plainJson tamperedEnvelope, tamperedId)]).getD (Vector.replicate 32 0)

/-- Another height is another id. -/
theorem envelope_binding_iff_tampered :
    finalizeEnvelopeId plainJson envelopeBlake3 sampleEnvelope ≠
      finalizeEnvelopeId plainJson envelopeBlake3 tamperedEnvelope := by
  have hall := envelope_binding_iff plainJson envelopeBlake3
    (fun (_ : Unit) _ _ _ => false) sampleEnvelope tamperedEnvelope
    ⟨by decide +kernel, by decide +kernel⟩ ⟨by decide +kernel, by decide +kernel⟩
    (Set.injOn_pair.mpr fun _ => rfl)
  have helse : DifferElsewhere sampleEnvelope tamperedEnvelope :=
    fun hsame => absurd hsame.blockHeight (by decide +kernel)
  have hne : envelopeBlake3 (envelopeIdInput plainJson sampleEnvelope) ≠
      envelopeBlake3 (envelopeIdInput plainJson tamperedEnvelope) := by
    decide +kernel
  have hinj : Set.InjOn envelopeBlake3 {envelopeIdInput plainJson sampleEnvelope,
      envelopeIdInput plainJson tamperedEnvelope} :=
    Set.injOn_pair.mpr fun h => absurd h hne
  intro hid
  exact absurd ((hall.2.1 hinj).mpr helse hid) (by decide +kernel)

def droppingEnvelope : ExecutionEnvelope :=
  { sampleEnvelope with ddlChanges := [.dropTable "users"] }

/-- An envelope that drops a table has the bytes, the id and the signature of one that does
not. -/
theorem dropped_table_is_not_signed :
    ¬SameUnsigned sampleEnvelope droppingEnvelope ∧
    (∀ json, unsignedCanonicalSer json sampleEnvelope = unsignedCanonicalSer json droppingEnvelope) ∧
    (∀ json blake3, finalizeEnvelopeId json blake3 sampleEnvelope =
      finalizeEnvelopeId json blake3 droppingEnvelope) ∧
    (∀ json (verify : Unit → List UInt8 → List UInt8 → List UInt8 → Bool) holderPub,
      verifyEnvelopeSignature json verify () sampleEnvelope holderPub =
        verifyEnvelopeSignature json verify () droppingEnvelope holderPub) := by
  refine ⟨by decide +kernel, fun _ => rfl, fun _ _ => rfl, fun _ _ _ => rfl⟩

end CipherOcto.Settlement
