import CipherOcto.Encoding.Codec
import CipherOcto.Lib.Layout

/-!
# Onion routing

`construct_onion` wraps a payload in one layer per relay, the exit's innermost, and
`peel_layer` takes one off. A relay and the sender agree on a key because X25519 commutes:
the sender combines an ephemeral secret with the relay's public key, the relay its secret
with the ephemeral public key that travels in the hop.

> `constructLayers_run`: what construction returns, and what it has encrypted on the way.
> `peelLayer_sealedHop`: a relay undoes the layer that was put on for it.
> `peelRoute_sealedHops`: so do all relays of a route, one after the other.

The curve, the cipher and BLAKE3 are parameters. Every encryption is recorded, whether or not
what follows it succeeds.
-/

namespace CipherOcto.Network

open Encoding

/-! ## The code -/

structure TransportVector where
  transportType : UInt16
  domainId : Bytes32
  priority : UInt16
  bandwidthClass : UInt8
  censorshipScore : UInt8
deriving DecidableEq

structure OnionRoute where
  hopCount : UInt16
deriving DecidableEq

structure HopConstructionParams where
  relayPublicKey : Bytes32
  relayGatewayId : Bytes32
  nextGateway : Bytes32
  transportVector : TransportVector
deriving DecidableEq

structure OnionHop where
  hopIndex : UInt16
  relayGateway : Bytes32
  transportVectorRoot : Bytes32
  encryptedNextHop : Vector UInt8 128
  encryptedPayloadFragment : List UInt8
  hopMac : Bytes32
  ephemeralPublicKey : Bytes32
deriving DecidableEq

structure PeeledLayer where
  nextGateway : Bytes32
  transport : TransportVector
  innerPayload : List UInt8
  hopIndex : UInt16
deriving DecidableEq

/-- `OrrError`, as building and peeling raise it. -/
inductive OrrError where
  | macVerificationFailed (hopIndex : UInt16)
  | decryptionFailed (hopIndex : UInt16)
  | invalidRouteCount (expected actual : UInt16)
deriving DecidableEq

abbrev Nonce := Vector UInt8 12

def tagSize : Nat := 16

def nextHopInstructionsSize : Nat := 96

def encryptedInstructionsSize : Nat := 128

/-- What stands outside the code: BLAKE3 and its keyed mode, X25519, ChaCha20-Poly1305. -/
structure Primitives where
  blake3 : List UInt8 → Bytes32
  keyedHash : Bytes32 → List UInt8 → Bytes32
  publicKey : Bytes32 → Bytes32
  diffieHellman : Bytes32 → Bytes32 → Bytes32
  encrypt : Bytes32 → Nonce → List UInt8 → List UInt8 → Option (List UInt8)
  decrypt : Bytes32 → Nonce → List UInt8 → List UInt8 → Option (List UInt8)

/-- One call of the cipher's encryption. -/
structure Invocation where
  key : Bytes32
  nonce : Nonce
  plaintext : List UInt8
deriving DecidableEq

/-- Code that encrypts, and keeps a record of it. -/
abbrev Sealing := ExceptT OrrError (StateM (List Invocation))

/-- How the code ends, and the record then. -/
def Sealing.outcome {α : Type} (x : Sealing α) (record : List Invocation) :
    Except OrrError α × List Invocation :=
  (ExceptT.run x).run record

/-- `vec.resize(n, 0)`. -/
def resize (bytes : List UInt8) (n : Nat) : List UInt8 :=
  bytes.take n ++ List.replicate (n - bytes.length) 0

/-- `build_next_hop_instructions`. -/
def buildNextHopInstructions (nextGateway : Bytes32) (transport : TransportVector) : List UInt8 :=
  resize (nextGateway.toList ++ (Bytes.toBe 2 transport.transportType.toNat ++
    (transport.domainId.toList ++ (Bytes.toBe 2 transport.priority.toNat ++
      ([transport.bandwidthClass] ++ [transport.censorshipScore]))))) nextHopInstructionsSize

/-- `parse_next_hop_instructions`. -/
def parseNextHopInstructions (data : List UInt8) : Except OrrError (Bytes32 × TransportVector) :=
  if data.length < nextHopInstructionsSize then .error (.decryptionFailed 0)
  else .ok (Bytes.slice 32 data 0,
    { transportType := UInt16.ofNat (Bytes.wordAt data 32 2)
      domainId := Bytes.slice 32 data 34
      priority := UInt16.ofNat (Bytes.wordAt data 66 2)
      bandwidthClass := data.getD 68 0
      censorshipScore := data.getD 69 0 })

namespace Primitives

variable (C : Primitives)

/-- `hkdf_blake3`, for an output of 32 bytes: one block of the expansion. -/
def hkdfBlake3 (salt ikm info : List UInt8) : Bytes32 :=
  C.keyedHash (C.keyedHash (Bytes.slice 32 salt 0) ikm) (info ++ [1])

/-- `derive_hop_session_key`. -/
def deriveHopSessionKey (sharedSecret routeId : Bytes32) (hopIndex : UInt16) : Bytes32 :=
  C.hkdfBlake3 "orr:hop_session:v1".toUTF8.toList sharedSecret.toList
    (routeId.toList ++ Bytes.toBe 2 hopIndex.toNat)

/-- `derive_hop_nonce`. -/
def deriveHopNonce (sessionKey routeId : Bytes32) (hopIndex : UInt16) : Nonce :=
  let full := C.hkdfBlake3 "orr:hop_nonce:v1".toUTF8.toList sessionKey.toList
    (routeId.toList ++ Bytes.toBe 2 hopIndex.toNat)
  Bytes.slice 12 full.toList 0

/-- `compute_hop_mac`. -/
def computeHopMac (sessionKey : Bytes32) (encryptedFragment encryptedInstructions : List UInt8) :
    Bytes32 :=
  C.blake3 ("orr:hop_mac:v1".toUTF8.toList ++ sessionKey.toList ++ encryptedFragment ++
    encryptedInstructions)

/-- `derive_ephemeral_private`. -/
def deriveEphemeralPrivate (routeId : Bytes32) (hopIndex : UInt16) : Bytes32 :=
  C.blake3 (routeId.toList ++ Bytes.toBe 2 hopIndex.toNat ++ "orr:ephemeral:v1".toUTF8.toList)

/-- `compute_transport_vector_root`. -/
def computeTransportVectorRoot (tv : TransportVector) : Bytes32 :=
  C.blake3 (Bytes.toBe 2 tv.transportType.toNat ++ tv.domainId.toList ++
    Bytes.toBe 2 tv.priority.toNat ++ [tv.bandwidthClass] ++ [tv.censorshipScore])

/-- `ocrypt::encrypt`, without associated data, where an error becomes that of the hop. -/
def sealWith (hopIndex : UInt16) (key : Bytes32) (nonce : Nonce) (plaintext : List UInt8) :
    Sealing (List UInt8) := do
  modify (· ++ [⟨key, nonce, plaintext⟩])
  match C.encrypt key nonce plaintext [] with
  | some sealed => pure sealed
  | none => throw (.decryptionFailed hopIndex)

/-- The body of the loop of `construct_onion`: the hop, and the payload of the next layer. -/
def constructLayer (routeId : Bytes32) (hopIndex : UInt16) (hop : HopConstructionParams)
    (currentPayload : List UInt8) : Sealing (OnionHop × List UInt8) := do
  let ephemeralPrivate := C.deriveEphemeralPrivate routeId hopIndex
  let sharedSecret := C.diffieHellman ephemeralPrivate hop.relayPublicKey
  let sessionKey := C.deriveHopSessionKey sharedSecret routeId hopIndex
  let nonce := C.deriveHopNonce sessionKey routeId hopIndex
  let instructions := buildNextHopInstructions hop.nextGateway hop.transportVector
  let encryptedInstructions ← C.sealWith hopIndex sessionKey nonce instructions
  -- what is resized fits the block, so `try_into` succeeds
  let encryptedNextHop := Bytes.slice 128 (resize encryptedInstructions encryptedInstructionsSize) 0
  let encryptedPayload ← C.sealWith hopIndex sessionKey nonce currentPayload
  pure
    ({ hopIndex := hopIndex
       relayGateway := hop.relayGatewayId
       transportVectorRoot := C.computeTransportVectorRoot hop.transportVector
       encryptedNextHop := encryptedNextHop
       encryptedPayloadFragment := []
       hopMac := C.computeHopMac sessionKey encryptedPayload encryptedNextHop.toList
       ephemeralPublicKey := C.publicKey ephemeralPrivate }, encryptedPayload)

/-- The loop of `construct_onion`, from the exit inward: the layers behind a hop come first. -/
def constructLayers (routeId : Bytes32) (payload : List UInt8) :
    Nat → List HopConstructionParams → Sealing (List OnionHop × List UInt8)
  | _, [] => pure ([], payload)
  | i, hop :: rest => do
    let (onionHops, currentPayload) ← constructLayers routeId payload (i + 1) rest
    let (onionHop, encryptedPayload) ←
      C.constructLayer routeId (UInt16.ofNat i) hop currentPayload
    pure (onionHop :: onionHops, encryptedPayload)

/-- `construct_onion`. -/
def constructOnion (route : OnionRoute) (hops : List HopConstructionParams) (payload : List UInt8)
    (routeId : Bytes32) : Sealing (List OnionHop × List UInt8) :=
  if hops = [] then throw (.invalidRouteCount route.hopCount 0)
  else if hops.length ≠ route.hopCount.toNat then
    throw (.invalidRouteCount route.hopCount (UInt16.ofNat hops.length))
  else C.constructLayers routeId payload 0 hops

/-- `ocrypt::decrypt`, without associated data. -/
def openWith (hopIndex : UInt16) (key : Bytes32) (nonce : Nonce) (ciphertext : List UInt8) :
    Except OrrError (List UInt8) :=
  (C.decrypt key nonce ciphertext []).elim (.error (.decryptionFailed hopIndex)) .ok

/-- `peel_layer`. -/
def peelLayer (hop : OnionHop) (relayPrivateKey routeId : Bytes32) (layeredPayload : List UInt8) :
    Except OrrError PeeledLayer :=
  let sharedSecret := C.diffieHellman relayPrivateKey hop.ephemeralPublicKey
  let sessionKey := C.deriveHopSessionKey sharedSecret routeId hop.hopIndex
  let nonce := C.deriveHopNonce sessionKey routeId hop.hopIndex
  if C.computeHopMac sessionKey layeredPayload hop.encryptedNextHop.toList ≠ hop.hopMac then
    .error (.macVerificationFailed hop.hopIndex)
  else do
    let instructionsBytes ← C.openWith hop.hopIndex sessionKey nonce
      (hop.encryptedNextHop.toList.take (96 + tagSize))
    let (nextGateway, transport) ← parseNextHopInstructions instructionsBytes
    let innerPayload ← C.openWith hop.hopIndex sessionKey nonce layeredPayload
    pure ⟨nextGateway, transport, innerPayload, hop.hopIndex⟩

/-- The relays of a route peel in turn, each what the one before it handed on. -/
def peelRoute (routeId : Bytes32) :
    List (OnionHop × Bytes32) → List UInt8 → Except OrrError (List PeeledLayer × List UInt8)
  | [], payload => .ok ([], payload)
  | (hop, relayPrivateKey) :: rest, payload => do
    let layer ← C.peelLayer hop relayPrivateKey routeId payload
    let (layers, delivered) ← peelRoute routeId rest layer.innerPayload
    pure (layer :: layers, delivered)

end Primitives

/-! ## Instruction blocks -/

theorem resize_of_length {bytes : List UInt8} {n : Nat} (h : bytes.length ≤ n) :
    resize bytes n = bytes ++ List.replicate (n - bytes.length) 0 := by
  rw [resize, List.take_of_length_le h]

theorem length_resize (bytes : List UInt8) (n : Nat) : (resize bytes n).length = n := by
  rw [resize, List.length_append, List.length_take, List.length_replicate]
  omega

theorem length_buildNextHopInstructions (nextGateway : Bytes32) (transport : TransportVector) :
    (buildNextHopInstructions nextGateway transport).length = nextHopInstructionsSize :=
  length_resize _ _

theorem parse_buildNextHopInstructions (nextGateway : Bytes32) (transport : TransportVector) :
    parseNextHopInstructions (buildNextHopInstructions nextGateway transport) =
      .ok (nextGateway, transport) := by
  have htype : transport.transportType.toNat < 256 ^ 2 := transport.transportType.toNat_lt
  have hpriority : transport.priority.toNat < 256 ^ 2 := transport.priority.toNat_lt
  rw [parseNextHopInstructions, length_buildNextHopInstructions, if_neg (Nat.lt_irrefl _),
    buildNextHopInstructions, resize_of_length (by simp [nextHopInstructionsSize])]
  simp (disch := first | assumption | simp) only [List.append_assoc, Bytes.wordAt_skip,
    Bytes.slice_skip, List.getD_append_right, Bytes.length_toBe, Vector.length_toList,
    List.length_singleton, Nat.reduceSub, Bytes.wordAt_append, Bytes.slice_append]
  simp

/-! ## Construction -/

section Outcome

variable {α β : Type} {record record' : List Invocation}

@[simp] theorem Sealing.outcome_pure (a : α) : (pure a : Sealing α).outcome record = (.ok a, record) :=
  rfl

theorem Sealing.outcome_bind_of_ok {x : Sealing α} {f : α → Sealing β} {a : α}
    (h : x.outcome record = (.ok a, record')) :
    (x >>= f).outcome record = (f a).outcome record' := by
  show StateT.run (ExceptT.run x >>= ExceptT.bindCont f) record = _
  rw [StateT.run_bind]
  show (ExceptT.bindCont f (x.outcome record).1).run (x.outcome record).2 = _
  rw [h]
  rfl

end Outcome

namespace Primitives

/-- The cipher as it is documented: encryption adds a tag, and decryption undoes it. -/
def LawfulCipher (C : Primitives) : Prop :=
  ∀ key nonce plaintext, ∃ ciphertext, C.encrypt key nonce plaintext [] = some ciphertext ∧
    ciphertext.length = plaintext.length + tagSize ∧
    C.decrypt key nonce ciphertext [] = some plaintext

variable {C : Primitives}

/-- What encrypting yields. -/
def ciphertext (C : Primitives) (key : Bytes32) (nonce : Nonce) (plaintext : List UInt8) :
    List UInt8 := (C.encrypt key nonce plaintext []).getD []

section Cipher

variable (h : C.LawfulCipher) (key : Bytes32) (nonce : Nonce) (plaintext : List UInt8)

include h

theorem LawfulCipher.encrypt_eq :
    C.encrypt key nonce plaintext [] = some (C.ciphertext key nonce plaintext) := by
  obtain ⟨c, hc, -⟩ := h key nonce plaintext
  rw [ciphertext, hc]
  rfl

theorem LawfulCipher.length_ciphertext :
    (C.ciphertext key nonce plaintext).length = plaintext.length + tagSize := by
  obtain ⟨c, hc, hlen, -⟩ := h key nonce plaintext
  rw [ciphertext, hc]
  exact hlen

theorem LawfulCipher.decrypt_ciphertext :
    C.decrypt key nonce (C.ciphertext key nonce plaintext) [] = some plaintext := by
  obtain ⟨c, hc, -, hdec⟩ := h key nonce plaintext
  rw [ciphertext, hc]
  exact hdec

theorem sealWith_outcome (hopIndex : UInt16) (record : List Invocation) :
    (C.sealWith hopIndex key nonce plaintext).outcome record =
      (.ok (C.ciphertext key nonce plaintext), record ++ [⟨key, nonce, plaintext⟩]) := by
  rw [sealWith, h.encrypt_eq]
  rfl

end Cipher

section Layers

variable (C) (routeId : Bytes32)

/-- The secret the sender shares with the relay of a hop. -/
def layerSecret (hopIndex : UInt16) (hop : HopConstructionParams) : Bytes32 :=
  C.diffieHellman (C.deriveEphemeralPrivate routeId hopIndex) hop.relayPublicKey

def layerKey (hopIndex : UInt16) (hop : HopConstructionParams) : Bytes32 :=
  C.deriveHopSessionKey (C.layerSecret routeId hopIndex hop) routeId hopIndex

def layerNonce (hopIndex : UInt16) (hop : HopConstructionParams) : Nonce :=
  C.deriveHopNonce (C.layerKey routeId hopIndex hop) routeId hopIndex

def instructionsOf (hop : HopConstructionParams) : List UInt8 :=
  buildNextHopInstructions hop.nextGateway hop.transportVector

/-- What a layer encrypts, under the key and the nonce of its hop. -/
def layerCiphertext (hopIndex : UInt16) (hop : HopConstructionParams) (plaintext : List UInt8) :
    List UInt8 :=
  C.ciphertext (C.layerKey routeId hopIndex hop) (C.layerNonce routeId hopIndex hop) plaintext

/-- The hop of a layer that is put on a payload. -/
def sealedHop (hopIndex : UInt16) (hop : HopConstructionParams) (payload : List UInt8) : OnionHop :=
  let encryptedNextHop := Bytes.slice 128 (resize (C.layerCiphertext routeId hopIndex hop
    (instructionsOf hop)) encryptedInstructionsSize) 0
  { hopIndex := hopIndex
    relayGateway := hop.relayGatewayId
    transportVectorRoot := C.computeTransportVectorRoot hop.transportVector
    encryptedNextHop := encryptedNextHop
    encryptedPayloadFragment := []
    hopMac := C.computeHopMac (C.layerKey routeId hopIndex hop)
      (C.layerCiphertext routeId hopIndex hop payload) encryptedNextHop.toList
    ephemeralPublicKey := C.publicKey (C.deriveEphemeralPrivate routeId hopIndex) }

/-- The two encryptions of a layer. -/
def layerInvocations (hopIndex : UInt16) (hop : HopConstructionParams) (payload : List UInt8) :
    List Invocation :=
  [⟨C.layerKey routeId hopIndex hop, C.layerNonce routeId hopIndex hop, instructionsOf hop⟩,
    ⟨C.layerKey routeId hopIndex hop, C.layerNonce routeId hopIndex hop, payload⟩]

variable (payload : List UInt8)

/-- The payload under the layers of the hops from the `i`-th on. -/
def layered : Nat → List HopConstructionParams → List UInt8
  | _, [] => payload
  | i, hop :: rest => C.layerCiphertext routeId (UInt16.ofNat i) hop (layered (i + 1) rest)

def sealedHops : Nat → List HopConstructionParams → List OnionHop
  | _, [] => []
  | i, hop :: rest =>
    C.sealedHop routeId (UInt16.ofNat i) hop (C.layered routeId payload (i + 1) rest) ::
      sealedHops (i + 1) rest

/-- What is encrypted, in that order. -/
def invocations : Nat → List HopConstructionParams → List Invocation
  | _, [] => []
  | i, hop :: rest => invocations (i + 1) rest ++
    C.layerInvocations routeId (UInt16.ofNat i) hop (C.layered routeId payload (i + 1) rest)

end Layers

theorem constructLayer_outcome (h : C.LawfulCipher) (routeId : Bytes32) (hopIndex : UInt16)
    (hop : HopConstructionParams) (payload : List UInt8) (record : List Invocation) :
    (C.constructLayer routeId hopIndex hop payload).outcome record =
      (.ok (C.sealedHop routeId hopIndex hop payload,
          C.layerCiphertext routeId hopIndex hop payload),
        record ++ C.layerInvocations routeId hopIndex hop payload) := by
  rw [constructLayer, Sealing.outcome_bind_of_ok (sealWith_outcome h _ _ _ _ _),
    Sealing.outcome_bind_of_ok (sealWith_outcome h _ _ _ _ _), Sealing.outcome_pure,
    List.append_assoc]
  rfl

/-- **What construction returns**, and what it has encrypted on the way. -/
theorem constructLayers_outcome (h : C.LawfulCipher) (routeId : Bytes32) (payload : List UInt8) :
    ∀ (hops : List HopConstructionParams) (i : Nat) (record : List Invocation),
      (C.constructLayers routeId payload i hops).outcome record =
        (.ok (C.sealedHops routeId payload i hops, C.layered routeId payload i hops),
          record ++ C.invocations routeId payload i hops)
  | [], i, record => by
    rw [constructLayers, Sealing.outcome_pure, invocations, List.append_nil]
    rfl
  | hop :: rest, i, record => by
    rw [constructLayers,
      Sealing.outcome_bind_of_ok (constructLayers_outcome h routeId payload rest (i + 1) record),
      Sealing.outcome_bind_of_ok (constructLayer_outcome h _ _ _ _ _), Sealing.outcome_pure,
      invocations, List.append_assoc]
    rfl

/-- A call that passes the checks of `construct_onion`. -/
def Accepts (route : OnionRoute) (hops : List HopConstructionParams) : Prop :=
  hops ≠ [] ∧ hops.length = route.hopCount.toNat

instance (route : OnionRoute) (hops : List HopConstructionParams) :
    Decidable (Accepts route hops) := inferInstanceAs (Decidable (_ ∧ _))

theorem constructOnion_of_accepts {route : OnionRoute} {hops : List HopConstructionParams}
    (h : Accepts route hops) (payload : List UInt8) (routeId : Bytes32) :
    C.constructOnion route hops payload routeId = C.constructLayers routeId payload 0 hops := by
  rw [constructOnion, if_neg h.1, if_neg (not_not.mpr h.2)]

/-! ## Peeling -/

/-- What is resized to the size of the block and cut back to its own is unchanged. -/
theorem take_resize {bytes : List UInt8} (h : bytes.length = 96 + tagSize) :
    (Bytes.slice 128 (resize bytes encryptedInstructionsSize) 0).toList.take (96 + tagSize) =
      bytes := by
  have hle : bytes.length ≤ encryptedInstructionsSize := by
    rw [h]
    decide
  have hlen : (resize bytes encryptedInstructionsSize).length = 128 := length_resize _ _
  rw [Bytes.toList_slice hlen, resize_of_length hle]
  exact List.take_left' h

theorem openWith_ciphertext (h : C.LawfulCipher) (hopIndex : UInt16) (key : Bytes32) (nonce : Nonce)
    (plaintext : List UInt8) :
    C.openWith hopIndex key nonce (C.ciphertext key nonce plaintext) = .ok plaintext := by
  rw [openWith, h.decrypt_ciphertext]
  rfl

/-- **A relay undoes the layer that was put on for it.** -/
theorem peelLayer_sealedHop (h : C.LawfulCipher)
    (hcomm : ∀ a b, C.diffieHellman a (C.publicKey b) = C.diffieHellman b (C.publicKey a))
    {hop : HopConstructionParams} {relayPrivateKey : Bytes32}
    (hkey : hop.relayPublicKey = C.publicKey relayPrivateKey) (routeId : Bytes32)
    (hopIndex : UInt16) (payload : List UInt8) :
    C.peelLayer (C.sealedHop routeId hopIndex hop payload) relayPrivateKey routeId
        (C.layerCiphertext routeId hopIndex hop payload) =
      .ok ⟨hop.nextGateway, hop.transportVector, payload, hopIndex⟩ := by
  have hsecret : C.diffieHellman relayPrivateKey
      (C.sealedHop routeId hopIndex hop payload).ephemeralPublicKey =
        C.layerSecret routeId hopIndex hop := by
    rw [layerSecret, hkey, hcomm]
    rfl
  have hinstructions : (C.sealedHop routeId hopIndex hop payload).encryptedNextHop.toList.take
      (96 + tagSize) = C.layerCiphertext routeId hopIndex hop (instructionsOf hop) := by
    refine take_resize ?_
    rw [layerCiphertext, h.length_ciphertext, instructionsOf, length_buildNextHopInstructions]
    rfl
  rw [peelLayer, hsecret, hinstructions, if_neg (fun hne => hne rfl)]
  show (C.openWith hopIndex (C.layerKey routeId hopIndex hop) (C.layerNonce routeId hopIndex hop)
    (C.layerCiphertext routeId hopIndex hop (instructionsOf hop)) >>= _) = _
  rw [layerCiphertext, layerCiphertext, openWith_ciphertext h]
  show (parseNextHopInstructions (instructionsOf hop) >>= _) = _
  rw [instructionsOf, parse_buildNextHopInstructions]
  show (C.openWith hopIndex (C.layerKey routeId hopIndex hop) (C.layerNonce routeId hopIndex hop)
    (C.ciphertext (C.layerKey routeId hopIndex hop) (C.layerNonce routeId hopIndex hop) payload)
      >>= _) = _
  rw [openWith_ciphertext h]
  rfl

/-- What the relay of each hop hands on: the next gateway, the transport and the layers that
are left. -/
def peeledLayers (C : Primitives) (routeId : Bytes32) (payload : List UInt8) :
    Nat → List HopConstructionParams → List PeeledLayer
  | _, [] => []
  | i, hop :: rest =>
    ⟨hop.nextGateway, hop.transportVector, C.layered routeId payload (i + 1) rest, UInt16.ofNat i⟩ ::
      peeledLayers C routeId payload (i + 1) rest

/-- **All relays of a route undo the layers that were put on for them.** -/
theorem peelRoute_sealedHops (h : C.LawfulCipher)
    (hcomm : ∀ a b, C.diffieHellman a (C.publicKey b) = C.diffieHellman b (C.publicKey a))
    (routeId : Bytes32) (payload : List UInt8) {hops : List HopConstructionParams}
    {relayKeys : List Bytes32}
    (hkeys : List.Forall₂ (fun hop key => hop.relayPublicKey = C.publicKey key) hops relayKeys) :
    ∀ i, C.peelRoute routeId ((C.sealedHops routeId payload i hops).zip relayKeys)
        (C.layered routeId payload i hops) =
      .ok (C.peeledLayers routeId payload i hops, payload) := by
  induction hkeys with
  | nil => exact fun i => rfl
  | @cons hop key hops keys hkey _ ih =>
    intro i
    rw [sealedHops, List.zip_cons_cons, layered, peelRoute, peelLayer_sealedHop h hcomm hkey]
    show (C.peelRoute routeId ((C.sealedHops routeId payload (i + 1) hops).zip keys)
      (C.layered routeId payload (i + 1) hops) >>= _) = _
    rw [ih]
    rfl

theorem length_sealedHops (C : Primitives) (routeId : Bytes32) (payload : List UInt8) :
    ∀ (hops : List HopConstructionParams) (i : Nat),
      (C.sealedHops routeId payload i hops).length = hops.length
  | [], _ => rfl
  | _ :: rest, i => congrArg (· + 1) (length_sealedHops C routeId payload rest (i + 1))

theorem map_peeledLayers (C : Primitives) (routeId : Bytes32) (payload : List UInt8) :
    ∀ (hops : List HopConstructionParams) (i : Nat),
      (C.peeledLayers routeId payload i hops).map (fun layer => (layer.nextGateway, layer.transport)) =
        hops.map fun hop => (hop.nextGateway, hop.transportVector)
  | [], _ => rfl
  | _ :: rest, i => congrArg (_ :: ·) (map_peeledLayers C routeId payload rest (i + 1))

/-- **An onion is delivered.** Construction returns, every relay of the route peels its layer, is
handed the gateway and the transport given for its hop, and the last is left with the payload. -/
theorem onion_delivered (h : C.LawfulCipher)
    (hcomm : ∀ a b, C.diffieHellman a (C.publicKey b) = C.diffieHellman b (C.publicKey a))
    {route : OnionRoute} {hops : List HopConstructionParams} {relayKeys : List Bytes32}
    (haccepts : Accepts route hops)
    (hkeys : List.Forall₂ (fun hop key => hop.relayPublicKey = C.publicKey key) hops relayKeys)
    (payload : List UInt8) (routeId : Bytes32) (record : List Invocation) :
    ∃ onionHops blob layers,
      ((C.constructOnion route hops payload routeId).outcome record).1 = .ok (onionHops, blob) ∧
        onionHops.length = hops.length ∧
        C.peelRoute routeId (onionHops.zip relayKeys) blob = .ok (layers, payload) ∧
        layers.map (fun layer => (layer.nextGateway, layer.transport)) =
          hops.map fun hop => (hop.nextGateway, hop.transportVector) := by
  refine ⟨C.sealedHops routeId payload 0 hops, C.layered routeId payload 0 hops,
    C.peeledLayers routeId payload 0 hops, ?_, ?_,
    peelRoute_sealedHops h hcomm routeId payload hkeys 0, map_peeledLayers C routeId payload hops 0⟩
  · rw [constructOnion_of_accepts haccepts, constructLayers_outcome h]
  · exact length_sealedHops C routeId payload hops 0

end Primitives

/-! ### A cipher that only tags -/

/-- A curve where keys are their own public keys and a secret is the sum of two, and a cipher
that appends a tag of zeros. -/
def plainPrimitives (blake3 : List UInt8 → Bytes32) (keyedHash : Bytes32 → List UInt8 → Bytes32) :
    Primitives where
  blake3 := blake3
  keyedHash := keyedHash
  publicKey key := key
  diffieHellman a b := Vector.zipWith (· ^^^ ·) a b
  encrypt _ _ plaintext _ := some (plaintext ++ List.replicate tagSize 0)
  decrypt _ _ ciphertext _ := some (ciphertext.take (ciphertext.length - tagSize))

section Sample

variable (blake3 : List UInt8 → Bytes32) (keyedHash : Bytes32 → List UInt8 → Bytes32)

theorem lawfulCipher_plainPrimitives : (plainPrimitives blake3 keyedHash).LawfulCipher := by
  intro key nonce plaintext
  have hlen : (plaintext ++ List.replicate tagSize 0).length = plaintext.length + tagSize := by
    rw [List.length_append, List.length_replicate]
  refine ⟨_, rfl, hlen, ?_⟩
  show some (List.take (_ - tagSize) _) = _
  rw [hlen, Nat.add_sub_cancel, List.take_left]

theorem diffieHellman_plainPrimitives (a b : Bytes32) :
    (plainPrimitives blake3 keyedHash).diffieHellman a b =
      (plainPrimitives blake3 keyedHash).diffieHellman b a :=
  Vector.zipWith_comm_of_comm UInt8.xor_comm

end Sample

def sampleHop : HopConstructionParams :=
  ⟨Vector.replicate 32 1, Vector.replicate 32 1, Vector.replicate 32 0xFF,
    ⟨1, Vector.replicate 32 0xAA, 1, 100, 50⟩⟩

theorem onion_delivered_three :
    ∃ onionHops blob layers,
      (((plainPrimitives (fun _ => Vector.replicate 32 0) fun key _ => key).constructOnion ⟨3⟩
          [sampleHop, sampleHop, sampleHop] [1, 2, 3] (Vector.replicate 32 0x42)).outcome []).1 =
        .ok (onionHops, blob) ∧
      onionHops.length = 3 ∧
      (plainPrimitives (fun _ => Vector.replicate 32 0) fun key _ => key).peelRoute
          (Vector.replicate 32 0x42)
          (onionHops.zip [sampleHop.relayPublicKey, sampleHop.relayPublicKey,
            sampleHop.relayPublicKey]) blob = .ok (layers, [1, 2, 3]) ∧
      layers.map (fun layer => (layer.nextGateway, layer.transport)) =
        [sampleHop, sampleHop, sampleHop].map fun hop => (hop.nextGateway, hop.transportVector) :=
  Primitives.onion_delivered (lawfulCipher_plainPrimitives _ _) (diffieHellman_plainPrimitives _ _)
    ⟨List.cons_ne_nil _ _, rfl⟩
    (.cons rfl (.cons rfl (.cons rfl .nil))) _ _ _

end CipherOcto.Network
