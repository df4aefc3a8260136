import CipherOcto.Lib.Transcript
import CipherOcto.Cap.Caveat

/-!
# The macaroon and its chain

`macaroon.rs` and `substrate_poseidon.rs`: minting, extending the chain by a
caveat, the canonical byte form, and the verifier. BLAKE3 and Poseidon are
parameters (`Primitives`); an incremental hasher is the list of bytes fed to it.
Field elements, their byte form and the packing are concrete.

The issuer re-serialises the whole token for every id, the verifier feeds one
hasher, and the circuit only folds the chain. All three are the same transcript:

> `chainLink` makes one chain entry from the running state (the bytes hashed so
> far, the last entry as a field element, the last id).
> `extendChain_eq` is the issuer's step, `verifySignature_eq_ok_iff` the
> verifier's whole run, and `deriveChainTip_eq` the circuit's.
-/

namespace CipherOcto.Cap

open Machine Encoding

/-! ## Field elements -/

/-- The Stark field prime. -/
def feltPrime : Nat := 2 ^ 251 + 17 * 2 ^ 192 + 1

abbrev Felt := Fin feltPrime

theorem feltPrime_pos : 0 < feltPrime := by decide

def Felt.ofNat (n : Nat) : Felt := ⟨n % feltPrime, Nat.mod_lt n feltPrime_pos⟩

/-- A fixed-width byte string from a list of that length. -/
def ofBytes {n : Nat} (bytes : List UInt8) (h : bytes.length = n) : Vector UInt8 n :=
  ⟨bytes.toArray, by rw [List.size_toArray]; exact h⟩

@[simp] theorem toList_ofBytes {n : Nat} (bytes : List UInt8) (h : bytes.length = n) :
    (ofBytes bytes h).toList = bytes := by
  unfold ofBytes
  rw [Vector.toList_mk]

/-- `from_bytes_be`, which reduces. -/
def feltFromBytes (bytes : List UInt8) : Felt := Felt.ofNat (Bytes.beNat bytes)

/-- `felt_to_chain_bytes`. -/
def feltToChainBytes (f : Felt) : Bytes32 := ofBytes (Bytes.toBe 32 f.val) (Bytes.length_toBe 32 _)

/-- `chain_bytes_to_felt`: refuses bytes that reduction would change. -/
def chainBytesToFelt (bytes : Bytes32) : Option Felt :=
  if feltToChainBytes (feltFromBytes bytes.toList) = bytes then some (feltFromBytes bytes.toList)
  else none

/-- `split_felts`: each half right-aligned in a field element's bytes. -/
def splitFelts (bytes : Bytes32) : Felt × Felt :=
  (feltFromBytes (List.replicate 16 0 ++ bytes.toList.take 16),
    feltFromBytes (List.replicate 16 0 ++ bytes.toList.drop 16))

def bytesPerFelt : Nat := 31

/-- `bytes_to_felts`: the length, then 31 bytes to an element. -/
def bytesToFelts (bytes : List UInt8) : List Felt :=
  Felt.ofNat (bytes.length % 2 ^ 64) ::
    (bytes.toChunks bytesPerFelt).map fun chunk =>
      feltFromBytes (List.replicate (32 - chunk.length) 0 ++ chunk)

/-- `MAC_DOMAIN`. -/
def macDomain : Felt := Felt.ofNat 0x4d41432d434841494e

/-- The hashes, and what the caveat form calls. -/
structure Primitives extends Writers where
  blake3 : List UInt8 → Bytes32
  /-- `blake3::keyed_hash`. -/
  keyedHash : Bytes32 → List UInt8 → Bytes32
  poseidonHashMany : List Felt → Felt

variable (P : Primitives)

/-- `poseidon_mac`. -/
def poseidonMac (key : Felt) (msg : List Felt) : Felt :=
  P.poseidonHashMany (macDomain :: key :: msg)

/-- `chain_seed`. -/
def chainSeed (lo hi : Felt) (mintFelts : List Felt) : Felt :=
  P.poseidonHashMany (macDomain :: lo :: hi :: mintFelts)

/-- `chain_step`. -/
def chainStep (state : Felt) (prevId : Bytes32) (msgFelts : List Felt) : Felt :=
  poseidonMac P state ((splitFelts prevId).1 :: (splitFelts prevId).2 :: msgFelts)

/-- `derive_chain_tip`; `none` is the length assertion. -/
def deriveChainTip (lo hi : Felt) (mintFelts : List Felt) (caveatMsgs : List (List UInt8))
    (prevIds : List Bytes32) : Option Felt :=
  if prevIds.length = caveatMsgs.length then
    some ((prevIds.zip caveatMsgs).foldl
      (fun state link => chainStep P state link.1 (bytesToFelts link.2))
      (chainSeed P lo hi mintFelts))
  else none

/-! ## The token -/

structure AttestationEnvelope where
  typeId : Vector UInt8 16
  payload : List UInt8
deriving DecidableEq

structure Macaroon where
  rootId : Vector UInt8 16
  mintNonce : Vector UInt8 16
  rootSecretHash : Bytes32
  id : Bytes32
  chain : List Bytes32
  caveats : List Caveat
  attestation : Option AttestationEnvelope
deriving DecidableEq

inductive MacaroonError where
  | chainMismatch (i : Nat)
  | chainEntryNotCanonical (i : Nat)
  | chainEntryMismatch (i : Nat)
  | rootSecretMismatch
  | wrappedCycle
  | wrappedDepthExceeded (depth : Nat)
  | wrappedParentNotFound (parentId : Bytes32)
  | unknownRawName (name : String)
  | attenuationViolation
  | capabilityIdMismatch
deriving DecidableEq

/-- A panic where there is no value. -/
def orPanic {ε α : Type} : Option α → Run ε α
  | some a => .ok a
  | none => .error .panic

def capabilityIdDomain : UInt8 := 0x05

def macarIdDomain : String := "cipherocto/macaroon/v1/id"

def utf8 (s : String) : List UInt8 := s.toUTF8.toList

/-- `macaroon_id`: half of the keyed hash of the nonce. -/
def macaroonId (secret : Bytes32) (nonce : Vector UInt8 16) : Vector UInt8 16 :=
  ofBytes ((P.keyedHash secret nonce.toList).toList.take 16) (by
    rw [List.length_take, Vector.length_toList]
    rfl)

/-- `u32_len`; panics past 32 bits. -/
def u32Len (n : Nat) : Option (List UInt8) := if n < 2 ^ 32 then some (Bytes.toBe 4 n) else none

/-- A caveat in the canonical form, with its length before it. -/
def lengthPrefixed (c : Caveat) : Option (List UInt8) :=
  (c.canonicalSer P.toWriters).bind fun ser => (u32Len ser.length).map fun len => len ++ ser

/-- The chain entries after the first, each with the caveat that produced it. -/
def interleave : List Bytes32 → List Caveat → Option (List UInt8)
  | [], _ => some []
  | e :: es, c :: cs =>
    (lengthPrefixed P c).bind fun ser => (interleave es cs).map fun rest => e.toList ++ ser ++ rest
  | e :: es, [] => (interleave es []).map fun rest => e.toList ++ rest

/-- The fields before the chain. -/
def Macaroon.header (m : Macaroon) : List UInt8 :=
  Bytes.toBe 4 16 ++ m.rootId.toList ++ Bytes.toBe 4 32 ++ m.rootSecretHash.toList ++
    Bytes.toBe 4 16 ++ m.mintNonce.toList

/-- `write_envelope`; the payload length is cast to `u32`. -/
def writeEnvelope : Option AttestationEnvelope → List UInt8
  | none => []
  | some env => 0xA8 :: (Bytes.toBe 4 16 ++ env.typeId.toList ++
      Bytes.toBe 4 (env.payload.length % 2 ^ 32) ++ env.payload)

/-- `canonical_ser_unsigned`. -/
def Macaroon.canonicalSerUnsigned (m : Macaroon) : Option (List UInt8) :=
  match m.chain with
  | [] => some (m.header ++ writeEnvelope m.attestation)
  | c0 :: es => (interleave P es m.caveats).map fun body =>
      m.header ++ c0.toList ++ Bytes.toBe 4 0 ++ body ++ writeEnvelope m.attestation

/-- `compute_capability_id`. -/
def computeCapabilityId (m : Macaroon) : Option Bytes32 :=
  (m.canonicalSerUnsigned P).map fun ser => P.blake3 (capabilityIdDomain :: ser)

/-- The mint seed, packed. -/
def mintFelts (nonce : Vector UInt8 16) : List Felt :=
  bytesToFelts (utf8 macarIdDomain ++ nonce.toList)

/-- The first chain entry as a field element. -/
def rootFelt (secret : Bytes32) (nonce : Vector UInt8 16) : Felt :=
  chainSeed P (splitFelts secret).1 (splitFelts secret).2 (mintFelts nonce)

/-- A token as `mint` fills it in, with the id still zero. -/
def mintFields (secret : Bytes32) (nonce : Vector UInt8 16) : Macaroon where
  rootId := macaroonId P secret nonce
  mintNonce := nonce
  rootSecretHash := P.blake3 secret.toList
  id := Vector.replicate 32 0
  chain := [feltToChainBytes (rootFelt P secret nonce)]
  caveats := []
  attestation := none

/-- The last step of `mint` and `extend_chain`: the id of what was built. -/
def withId (m : Macaroon) : Run MacaroonError Macaroon := do
  let id ← orPanic (computeCapabilityId P m)
  .ok { m with id := id }

/-- `Macaroon::mint`, from the nonce it draws. -/
def mint (secret : Bytes32) (nonce : Vector UInt8 16) : Run MacaroonError Macaroon :=
  withId P (mintFields P secret nonce)

/-- The message of a chain step: the caveat's name and canonical form. -/
def caveatMsg (c : Caveat) : Option (List UInt8) :=
  (c.canonicalSer P.toWriters).map fun ser => utf8 c.name.asStr ++ ser

/-- A caveat and the chain entry it produced, appended. -/
def Macaroon.push (m : Macaroon) (c : Caveat) (entry : Bytes32) : Macaroon :=
  { m with caveats := m.caveats ++ [c], chain := m.chain ++ [entry] }

/-- `extend_chain`. -/
def extendChain (m : Macaroon) (c : Caveat) : Run MacaroonError Macaroon := do
  let last ← orPanic m.chain.getLast?
  let prev ← orPanic (chainBytesToFelt last)
  let msg ← orPanic (caveatMsg P c)
  withId P (m.push c (feltToChainBytes (chainStep P prev m.id (bytesToFelts msg))))

/-- The bytes hashed for the mint-time id: the fields, the first entry, and an
empty producer. -/
def Macaroon.mintHashed (m : Macaroon) (c0 : Bytes32) : List UInt8 :=
  capabilityIdDomain :: (m.header ++ c0.toList ++ Bytes.toBe 4 0)

/-- The loop of `verify_signature`: the bytes hashed so far, the last entry and
the last id, over the remaining entries and caveats. -/
def verifyLoop : Nat → List UInt8 → Felt → Bytes32 → List Bytes32 → List Caveat →
    Run MacaroonError Bytes32
  | _, _, _, prevId, _, [] => .ok prevId
  | i, hashed, prev, prevId, es, c :: cs => do
    let msg ← orPanic (caveatMsg P c)
    match es with
    | [] => .error .panic
    | e :: es =>
      if feltToChainBytes (chainStep P prev prevId (bytesToFelts msg)) ≠ e then
        .error (.err (.chainMismatch i))
      else do
        let ser ← orPanic (lengthPrefixed P c)
        match chainBytesToFelt e with
        | none => .error (.err (.chainEntryNotCanonical (i + 1)))
        | some f =>
          verifyLoop (i + 1) (hashed ++ (e.toList ++ ser)) f
            (P.blake3 (hashed ++ (e.toList ++ ser))) es cs

/-- `verify_signature`. -/
def verifySignature (m : Macaroon) (secret : Bytes32) : Run MacaroonError Unit :=
  if P.blake3 secret.toList ≠ m.rootSecretHash then .error (.err .rootSecretMismatch)
  else match m.chain with
  | [] => .error .panic
  | c0 :: es =>
    if feltToChainBytes (rootFelt P secret m.mintNonce) ≠ c0 then
      .error (.err (.chainEntryMismatch 0))
    else match chainBytesToFelt c0 with
    | none => .error (.err (.chainEntryNotCanonical 0))
    | some f => do
      let id ← verifyLoop P 0 (m.mintHashed c0) f (P.blake3 (m.mintHashed c0)) es m.caveats
      if id ≠ m.id then .error (.err .capabilityIdMismatch) else .ok ()

/-- `signature`. -/
def Macaroon.signature (m : Macaroon) : Option Bytes32 := m.chain.getLast?

/-! ## The transcript -/

theorem feltPrime_lt : feltPrime < 256 ^ 32 := by decide

theorem feltFromBytes_toChainBytes (f : Felt) :
    feltFromBytes (feltToChainBytes f).toList = f := by
  unfold feltToChainBytes feltFromBytes Felt.ofNat
  apply Fin.ext
  rw [toList_ofBytes, Bytes.beNat_toBe, Nat.mod_eq_of_lt (f.isLt.trans feltPrime_lt)]
  exact Nat.mod_eq_of_lt f.isLt

/-- An entry the chain produced always decodes. -/
theorem chainBytesToFelt_toChainBytes (f : Felt) :
    chainBytesToFelt (feltToChainBytes f) = some f := by
  unfold chainBytesToFelt
  rw [feltFromBytes_toChainBytes, if_pos rfl]

/-- The running state of a chain. -/
@[ext]
structure ChainState where
  hashed : List UInt8
  felt : Felt
  id : Bytes32

/-- One caveat: the entry it produces, and the state after it. -/
def chainLink (s : ChainState) (c : Caveat) : Option (Bytes32 × ChainState) :=
  (caveatMsg P c).bind fun msg => (lengthPrefixed P c).map fun ser =>
    let f := chainStep P s.felt s.id (bytesToFelts msg)
    let hashed := s.hashed ++ ((feltToChainBytes f).toList ++ ser)
    (feltToChainBytes f, ⟨hashed, f, P.blake3 hashed⟩)

/-- The state of a token's fields at mint time. -/
def chainStart (m : Macaroon) (secret : Bytes32) : ChainState where
  hashed := m.mintHashed (feltToChainBytes (rootFelt P secret m.mintNonce))
  felt := rootFelt P secret m.mintNonce
  id := P.blake3 (m.mintHashed (feltToChainBytes (rootFelt P secret m.mintNonce)))

variable {P}

theorem chainStart_felt (m : Macaroon) (secret : Bytes32) :
    (chainStart P m secret).felt = rootFelt P secret m.mintNonce := rfl

theorem chainStart_id (m : Macaroon) (secret : Bytes32) :
    (chainStart P m secret).id = P.blake3 (chainStart P m secret).hashed := rfl

theorem caveatMsg_eq_some {c : Caveat} {ser : List UInt8} (h : lengthPrefixed P c = some ser) :
    ∃ msg, caveatMsg P c = some msg := by
  unfold lengthPrefixed at h
  obtain ⟨bytes, hbytes, -⟩ := Option.bind_eq_some_iff.mp h
  exact ⟨_, by rw [caveatMsg, hbytes]; rfl⟩

theorem chainLink_eq_some {s t : ChainState} {c : Caveat} {e : Bytes32} :
    chainLink P s c = some (e, t) ↔ ∃ msg ser, caveatMsg P c = some msg ∧
      lengthPrefixed P c = some ser ∧ t.felt = chainStep P s.felt s.id (bytesToFelts msg) ∧
      e = feltToChainBytes t.felt ∧ t.hashed = s.hashed ++ (e.toList ++ ser) ∧
      t.id = P.blake3 t.hashed := by
  unfold chainLink
  rw [Option.bind_eq_some_iff]
  constructor
  · intro h
    obtain ⟨msg, hmsg, h⟩ := h
    obtain ⟨ser, hser, h⟩ := Option.map_eq_some_iff.mp h
    obtain ⟨rfl, rfl⟩ := Prod.mk.inj h
    exact ⟨msg, ser, hmsg, hser, rfl, rfl, rfl, rfl⟩
  · intro h
    obtain ⟨msg, ser, hmsg, hser, hfelt, he, hhashed, hid⟩ := h
    refine ⟨msg, hmsg, Option.map_eq_some_iff.mpr ⟨ser, hser, ?_⟩⟩
    subst he
    rw [Prod.mk.injEq]
    refine ⟨by rw [hfelt], ?_⟩
    obtain ⟨hashed, felt, id⟩ := t
    dsimp only at hfelt hhashed hid ⊢
    rw [hid, hhashed, hfelt]

/-- The link of a caveat that serialises. -/
theorem chainLink_of_eq_some {c : Caveat} {msg ser : List UInt8} (hmsg : caveatMsg P c = some msg)
    (hser : lengthPrefixed P c = some ser) (s : ChainState) :
    chainLink P s c = some (feltToChainBytes (chainStep P s.felt s.id (bytesToFelts msg)),
      ⟨s.hashed ++ ((feltToChainBytes (chainStep P s.felt s.id (bytesToFelts msg))).toList ++ ser),
        chainStep P s.felt s.id (bytesToFelts msg),
        P.blake3 (s.hashed ++
          ((feltToChainBytes (chainStep P s.felt s.id (bytesToFelts msg))).toList ++ ser))⟩) := by
  unfold chainLink
  rw [hmsg, hser]
  rfl

theorem orPanic_eq_ok {ε α : Type} {x : Option α} {a : α} :
    (orPanic x : Run ε α) = .ok a ↔ x = some a := by
  cases x with
  | none => exact iff_of_false (fun h => nomatch h) (fun h => nomatch h)
  | some b => exact ⟨fun h => congrArg some (Except.ok.inj h), fun h => congrArg _ (Option.some.inj h)⟩

theorem orPanic_some {ε α : Type} (a : α) : (orPanic (some a) : Run ε α) = .ok a := rfl

/-- What a run hashes is what the issuer serialises for those entries, with any
surplus entries after them. -/
theorem interleave_of_run {cs : List Caveat} {s t : ChainState} {tail : List Bytes32}
    (h : Transcript.run (chainLink P) s cs = some (tail, t)) (surplus : List Bytes32) :
    ∃ body, t.hashed = s.hashed ++ body ∧
      interleave P (tail ++ surplus) cs = some (body ++ surplus.flatMap (·.toList)) := by
  induction cs generalizing s tail with
  | nil =>
    obtain ⟨rfl, rfl⟩ := Transcript.run_nil_eq_some.mp h
    refine ⟨[], by rw [List.append_nil], ?_⟩
    clear h
    induction surplus with
    | nil => rfl
    | cons e es ih =>
      rw [List.nil_append] at ih ⊢
      rw [interleave, ih, Option.map_some, List.flatMap_cons, List.nil_append, List.nil_append]
  | cons c cs ih =>
    obtain ⟨e, u, rest, hlink, hrun, rfl⟩ := Transcript.run_cons_eq_some.mp h
    obtain ⟨msg, ser, -, hser, -, -, hhashed, -⟩ := chainLink_eq_some.mp hlink
    obtain ⟨body, hbody, hinter⟩ := ih hrun
    refine ⟨e.toList ++ ser ++ body, ?_, ?_⟩
    · rw [hbody, hhashed, List.append_assoc, List.append_assoc]
    · rw [List.cons_append, interleave, hser, Option.bind_some, hinter, Option.map_some,
        List.append_assoc (e.toList ++ ser)]

theorem interleave_eq_none {c : Caveat} (hc : lengthPrefixed P c = none) {cs : List Caveat}
    {tail : List Bytes32} (h : tail.length = cs.length) (e : Bytes32) :
    interleave P (tail ++ [e]) (cs ++ [c]) = none := by
  induction cs generalizing tail with
  | nil =>
    rw [List.eq_nil_of_length_eq_zero h, List.nil_append, List.nil_append, interleave, hc]
    rfl
  | cons d ds ih =>
    cases tail with
    | nil => cases h
    | cons x xs =>
      rw [List.cons_append, List.cons_append, interleave, ih (Nat.succ.inj h)]
      cases lengthPrefixed P d <;> rfl

/-- **The verifier's loop replays the transcript.** -/
theorem verifyLoop_eq_ok_iff {cs : List Caveat} {i : Nat} {s : ChainState} {es : List Bytes32}
    {id : Bytes32} :
    verifyLoop P i s.hashed s.felt s.id es cs = .ok id ↔
      ∃ tail t, Transcript.run (chainLink P) s cs = some (tail, t) ∧ tail <+: es ∧ id = t.id := by
  induction cs generalizing i s es with
  | nil =>
    unfold verifyLoop
    constructor
    · intro h
      exact ⟨[], s, rfl, List.nil_prefix, (Except.ok.inj h).symm⟩
    · intro h
      obtain ⟨tail, t, hrun, -, rfl⟩ := h
      obtain ⟨-, rfl⟩ := Transcript.run_nil_eq_some.mp hrun
      rfl
  | cons c cs ih =>
    rw [verifyLoop.eq_def]
    dsimp only
    rw [run_bind_eq_ok]
    constructor
    · intro h
      obtain ⟨msg, hmsg, h⟩ := h
      rw [orPanic_eq_ok] at hmsg
      cases es with
      | nil => cases h
      | cons e es =>
        dsimp only at h
        split at h
        · cases h
        next heq =>
        obtain ⟨ser, hser, h⟩ := run_bind_eq_ok.mp h
        rw [orPanic_eq_ok] at hser
        rw [← not_not.mp heq, chainBytesToFelt_toChainBytes] at h
        -- the next state is the one the issuer moves to
        obtain ⟨tail, t, hrun, hpre, hid⟩ := (ih (s := ⟨_, _, _⟩)).mp h
        refine ⟨e :: tail, t, Transcript.run_cons_eq_some.mpr ⟨e, _, tail, ?_, hrun, rfl⟩,
          List.cons_prefix_cons.mpr ⟨rfl, hpre⟩, hid⟩
        rw [← not_not.mp heq]
        exact chainLink_of_eq_some hmsg hser s
    · intro h
      obtain ⟨tail, t, hall, hpre, hid⟩ := h
      obtain ⟨e, u, rest, hlink, hrun, rfl⟩ := Transcript.run_cons_eq_some.mp hall
      obtain ⟨msg, ser, hmsg, hser, hfelt, he, hhashed, huid⟩ := chainLink_eq_some.mp hlink
      obtain ⟨es', rfl⟩ := hpre
      refine ⟨msg, orPanic_eq_ok.mpr hmsg, ?_⟩
      rw [List.cons_append]
      dsimp only
      rw [← hfelt, ← he, if_neg (not_not_intro rfl), hser, orPanic_some, ok_bind]
      rw [he, chainBytesToFelt_toChainBytes, ← he, ← hhashed, ← huid]
      exact ih.mpr ⟨rest, t, hrun, List.prefix_append rest es', hid⟩

/-! ## Derived tokens -/

/-- The token's secret hash, and its chain up to the surplus entries, are what
the secret and the token's own fields give; `t` is the state at the end. -/
structure Derived (P : Primitives) (m : Macaroon) (secret : Bytes32) (t : ChainState)
    (surplus : List Bytes32) : Prop where
  secretHash : m.rootSecretHash = P.blake3 secret.toList
  chain : ∃ tail, Transcript.run (chainLink P) (chainStart P m secret) m.caveats = some (tail, t) ∧
    m.chain = feltToChainBytes (rootFelt P secret m.mintNonce) :: (tail ++ surplus)

/-- **What the verifier accepts**: a derived token, surplus entries or not, with
the id of its chain alone. -/
theorem verifySignature_eq_ok_iff {m : Macaroon} {secret : Bytes32} :
    verifySignature P m secret = .ok () ↔ ∃ t surplus, Derived P m secret t surplus ∧ m.id = t.id := by
  unfold verifySignature
  by_cases hsecret : P.blake3 secret.toList = m.rootSecretHash
  swap
  · rw [if_pos hsecret]
    refine iff_of_false (fun h => nomatch h) ?_
    intro h
    obtain ⟨t, surplus, hd, -⟩ := h
    exact hsecret hd.secretHash.symm
  rw [if_neg (not_not_intro hsecret)]
  cases hchain : m.chain with
  | nil =>
    refine iff_of_false (fun h => nomatch h) ?_
    intro h
    obtain ⟨t, surplus, hd, -⟩ := h
    obtain ⟨tail, -, heq⟩ := hd.chain
    rw [hchain] at heq
    cases heq
  | cons c0 es =>
    dsimp only
    by_cases hroot : feltToChainBytes (rootFelt P secret m.mintNonce) = c0
    swap
    · rw [if_pos hroot]
      refine iff_of_false (fun h => nomatch h) ?_
      intro h
      obtain ⟨t, surplus, hd, -⟩ := h
      obtain ⟨tail, -, heq⟩ := hd.chain
      rw [hchain] at heq
      exact hroot (List.cons.inj heq).1.symm
    rw [if_neg (not_not_intro hroot), ← hroot, chainBytesToFelt_toChainBytes]
    dsimp only
    rw [run_bind_eq_ok]
    constructor
    · intro h
      obtain ⟨id, hloop, h⟩ := h
      split at h
      · cases h
      next hid =>
      obtain ⟨tail, t, hrun, ⟨surplus, hsurplus⟩, rfl⟩ :=
        (verifyLoop_eq_ok_iff (s := chainStart P m secret)).mp hloop
      refine ⟨t, surplus, ⟨hsecret.symm, tail, hrun, ?_⟩, (not_not.mp hid).symm⟩
      rw [hchain, hsurplus, hroot]
    · intro h
      obtain ⟨t, surplus, hd, hid⟩ := h
      obtain ⟨tail, hrun, heq⟩ := hd.chain
      rw [hchain] at heq
      refine ⟨t.id, (verifyLoop_eq_ok_iff (s := chainStart P m secret)).mpr
        ⟨tail, t, hrun, ?_, rfl⟩, ?_⟩
      · rw [(List.cons.inj heq).2]
        exact List.prefix_append tail surplus
      · rw [if_neg (not_not_intro hid.symm)]

/-- The id of a derived token covers the surplus entries and the envelope too. -/
theorem Derived.computeCapabilityId_eq {m : Macaroon} {secret : Bytes32} {t : ChainState}
    {surplus : List Bytes32} (h : Derived P m secret t surplus) :
    computeCapabilityId P m = some (P.blake3
      (t.hashed ++ (surplus.flatMap (·.toList) ++ writeEnvelope m.attestation))) := by
  obtain ⟨tail, hrun, hchain⟩ := h.chain
  obtain ⟨body, hhashed, hinter⟩ := interleave_of_run hrun surplus
  unfold computeCapabilityId Macaroon.canonicalSerUnsigned
  rw [hchain]
  dsimp only
  rw [hinter, Option.map_some, Option.map_some, hhashed]
  refine congrArg some (congrArg P.blake3 ?_)
  change _ = (capabilityIdDomain :: _) ++ body ++ _
  simp only [List.cons_append, List.append_assoc]

/-! ## Issuing -/

/-- An issued token: derived, with nothing surplus, no envelope and its own id. -/
structure Issued (P : Primitives) (m : Macaroon) (secret : Bytes32) (t : ChainState) : Prop where
  derived : Derived P m secret t []
  attestation : m.attestation = none
  id : m.id = t.id

theorem run_last {cs : List Caveat} {s t : ChainState} {tail : List Bytes32}
    (h : Transcript.run (chainLink P) s cs = some (tail, t)) :
    (feltToChainBytes s.felt :: tail).getLast? = some (feltToChainBytes t.felt) := by
  induction cs generalizing s tail with
  | nil =>
    obtain ⟨rfl, rfl⟩ := Transcript.run_nil_eq_some.mp h
    rfl
  | cons c cs ih =>
    obtain ⟨e, u, rest, hlink, hrun, rfl⟩ := Transcript.run_cons_eq_some.mp h
    obtain ⟨-, -, -, -, -, he, -, -⟩ := chainLink_eq_some.mp hlink
    rw [List.getLast?_cons_cons, he]
    exact ih hrun

theorem run_id {cs : List Caveat} {s t : ChainState} {tail : List Bytes32}
    (h : Transcript.run (chainLink P) s cs = some (tail, t)) (hs : s.id = P.blake3 s.hashed) :
    t.id = P.blake3 t.hashed := by
  induction cs generalizing s tail with
  | nil =>
    obtain ⟨-, rfl⟩ := Transcript.run_nil_eq_some.mp h
    exact hs
  | cons c cs ih =>
    obtain ⟨e, u, rest, hlink, hrun, rfl⟩ := Transcript.run_cons_eq_some.mp h
    obtain ⟨-, -, -, -, -, -, -, hid⟩ := chainLink_eq_some.mp hlink
    exact ih hrun hid

theorem Derived.id_eq {m : Macaroon} {secret : Bytes32} {t : ChainState} {surplus : List Bytes32}
    (h : Derived P m secret t surplus) : t.id = P.blake3 t.hashed := by
  obtain ⟨tail, hrun, -⟩ := h.chain
  exact run_id hrun (chainStart_id m secret)

/-- With nothing surplus and no envelope, the two ways to the id agree. -/
theorem Derived.computeCapabilityId_eq_id {m : Macaroon} {secret : Bytes32} {t : ChainState}
    (h : Derived P m secret t []) (hatt : m.attestation = none) :
    computeCapabilityId P m = some t.id := by
  rw [h.computeCapabilityId_eq, hatt, h.id_eq]
  exact congrArg some (congrArg P.blake3 (List.append_nil t.hashed))

theorem Derived.chain_length {m : Macaroon} {secret : Bytes32} {t : ChainState}
    {surplus : List Bytes32} (h : Derived P m secret t surplus) :
    m.chain.length = m.caveats.length + 1 + surplus.length := by
  obtain ⟨tail, hrun, hchain⟩ := h.chain
  rw [hchain, List.length_cons, List.length_append, Transcript.run_length hrun]
  omega

theorem Derived.signature_eq {m : Macaroon} {secret : Bytes32} {t : ChainState}
    (h : Derived P m secret t []) : m.signature = some (feltToChainBytes t.felt) := by
  obtain ⟨tail, hrun, hchain⟩ := h.chain
  have hlast := run_last hrun
  rw [chainStart_felt] at hlast
  unfold Macaroon.signature
  rw [hchain, List.append_nil, hlast]

theorem Issued.verifies {m : Macaroon} {secret : Bytes32} {t : ChainState}
    (h : Issued P m secret t) : verifySignature P m secret = .ok () :=
  verifySignature_eq_ok_iff.mpr ⟨t, [], h.derived, h.id⟩

theorem Issued.computed_id {m : Macaroon} {secret : Bytes32} {t : ChainState}
    (h : Issued P m secret t) : computeCapabilityId P m = some m.id := by
  rw [h.id]
  exact h.derived.computeCapabilityId_eq_id h.attestation

/-- A derived prefix with a fresh id is an issued token. -/
theorem withId_of_derived {m : Macaroon} {secret : Bytes32} {t : ChainState}
    (h : Derived P m secret t []) (hatt : m.attestation = none) :
    withId P m = .ok { m with id := t.id } ∧ Issued P { m with id := t.id } secret t := by
  unfold withId
  rw [h.computeCapabilityId_eq_id hatt]
  exact ⟨rfl, ⟨h.secretHash, h.chain⟩, hatt, rfl⟩

theorem mint_eq (P : Primitives) (secret : Bytes32) (nonce : Vector UInt8 16) :
    ∃ m t, mint P secret nonce = .ok m ∧ Issued P m secret t ∧ m.caveats = [] ∧
      m.mintNonce = nonce ∧ m.rootId = macaroonId P secret nonce ∧
      t = chainStart P (mintFields P secret nonce) secret := by
  have hd : Derived P (mintFields P secret nonce) secret
      (chainStart P (mintFields P secret nonce) secret) [] := by
    refine ⟨rfl, [], ?_, ?_⟩
    · rw [show (mintFields P secret nonce).caveats = [] from rfl]
      rfl
    · rw [List.append_nil]
      rfl
  obtain ⟨heq, hissued⟩ := withId_of_derived hd rfl
  exact ⟨_, _, heq, hissued, rfl, rfl, rfl, rfl⟩

/-- Pushing what the chain link says keeps a token derived. -/
theorem Derived.push {m : Macaroon} {secret : Bytes32} {t t' : ChainState} {c : Caveat}
    {e : Bytes32} (h : Derived P m secret t []) (hlink : chainLink P t c = some (e, t')) :
    Derived P (m.push c e) secret t' [] := by
  obtain ⟨tail, hrun, hchain⟩ := h.chain
  refine ⟨h.secretHash, tail ++ [e], ?_, ?_⟩
  · refine Transcript.run_append.mpr ⟨tail, t, [e], hrun, ?_, rfl⟩
    exact Transcript.run_cons_eq_some.mpr ⟨e, t', [], hlink, rfl, rfl⟩
  · change m.chain ++ [e] = _
    rw [hchain, List.append_nil, List.append_nil]
    rfl

/-- **The issuer's step is the chain link**: it succeeds exactly when the link
does, and the token stays issued. -/
theorem Issued.extendChain_eq_ok {m m' : Macaroon} {secret : Bytes32} {t : ChainState} {c : Caveat}
    (h : Issued P m secret t) : extendChain P m c = .ok m' ↔
      ∃ e t', chainLink P t c = some (e, t') ∧ m' = { m.push c e with id := t'.id } := by
  have hlast : m.chain.getLast? = some (feltToChainBytes t.felt) := h.derived.signature_eq
  unfold extendChain
  rw [hlast, orPanic_some, ok_bind, chainBytesToFelt_toChainBytes, orPanic_some, ok_bind,
    run_bind_eq_ok, h.id]
  constructor
  · intro h
    obtain ⟨msg, hmsg, hid⟩ := h
    rw [orPanic_eq_ok] at hmsg
    cases hser : lengthPrefixed P c with
    | none =>
      -- the caveat has a message but no length prefix, so the new id panics
      obtain ⟨tail, hrun, hchain⟩ := h.derived.chain
      have hnone := interleave_eq_none hser (Transcript.run_length hrun)
        (feltToChainBytes (chainStep P t.felt t.id (bytesToFelts msg)))
      unfold withId computeCapabilityId Macaroon.canonicalSerUnsigned at hid
      rw [show (m.push c _).chain = m.chain ++ [_] from rfl, hchain, List.append_nil] at hid
      dsimp only [List.cons_append] at hid
      rw [show (m.push c _).caveats = m.caveats ++ [c] from rfl, hnone] at hid
      cases hid
    | some ser =>
      have hlink := chainLink_of_eq_some hmsg hser t
      rw [(withId_of_derived (h.derived.push hlink) h.attestation).1] at hid
      exact ⟨_, _, hlink, (Except.ok.inj hid).symm⟩
  · intro h
    obtain ⟨e, t', hlink, rfl⟩ := h
    obtain ⟨msg, ser, hmsg, -, hfelt, he, -, -⟩ := chainLink_eq_some.mp hlink
    refine ⟨msg, orPanic_eq_ok.mpr hmsg, ?_⟩
    rw [← hfelt, ← he]
    exact (withId_of_derived (h.derived.push hlink) h.attestation).1

theorem Issued.extend {m m' : Macaroon} {secret : Bytes32} {t : ChainState} {c : Caveat}
    (h : Issued P m secret t) (heq : extendChain P m c = .ok m') :
    ∃ e t', chainLink P t c = some (e, t') ∧ m' = { m.push c e with id := t'.id } ∧
      Issued P m' secret t' := by
  obtain ⟨e, t', hlink, rfl⟩ := h.extendChain_eq_ok.mp heq
  exact ⟨e, t', hlink, rfl, (withId_of_derived (h.derived.push hlink) h.attestation).2⟩

/-- `mint`, then `extend_chain` for each caveat. -/
def build (P : Primitives) (secret : Bytes32) (nonce : Vector UInt8 16) (cs : List Caveat) :
    Run MacaroonError Macaroon :=
  mint P secret nonce >>= fun m => cs.foldlM (extendChain P) m

theorem build_nil (P : Primitives) (secret : Bytes32) (nonce : Vector UInt8 16) :
    build P secret nonce [] = mint P secret nonce := by
  unfold build
  obtain ⟨m, -, hmint, -⟩ := mint_eq P secret nonce
  rw [hmint, ok_bind]
  rfl

theorem build_snoc (P : Primitives) (secret : Bytes32) (nonce : Vector UInt8 16)
    (cs : List Caveat) (c : Caveat) :
    build P secret nonce (cs ++ [c]) = build P secret nonce cs >>= fun m => extendChain P m c := by
  unfold build
  obtain ⟨m, -, hmint, -⟩ := mint_eq P secret nonce
  rw [hmint, ok_bind, ok_bind, List.foldlM_append]
  simp only [List.foldlM_cons, List.foldlM_nil, bind_pure]

/-- Every built token is issued, under the secret and nonce it was built with. -/
theorem build_issued {secret : Bytes32} {nonce : Vector UInt8 16} {cs : List Caveat} {m : Macaroon}
    (h : build P secret nonce cs = .ok m) :
    (∃ t, Issued P m secret t) ∧ m.caveats = cs ∧ m.mintNonce = nonce ∧
      m.rootId = macaroonId P secret nonce := by
  induction cs using List.reverseRecOn generalizing m with
  | nil =>
    rw [build_nil] at h
    obtain ⟨m₀, t, hmint, hissued, hcav, hnonce, hroot, -⟩ := mint_eq P secret nonce
    obtain rfl : m₀ = m := Except.ok.inj (hmint.symm.trans h)
    exact ⟨⟨t, hissued⟩, hcav, hnonce, hroot⟩
  | append_singleton cs c ih =>
    rw [build_snoc] at h
    obtain ⟨m₀, hbuild, hext⟩ := run_bind_eq_ok.mp h
    obtain ⟨⟨t, hissued⟩, hcav, hnonce, hroot⟩ := ih hbuild
    obtain ⟨e, t', -, heq, hissued'⟩ := hissued.extend hext
    rw [heq]
    exact ⟨⟨t', heq ▸ hissued'⟩, congrArg (· ++ [c]) hcav, hnonce, hroot⟩

/-- Building fails only where a caveat has no length-prefixed form. -/
theorem build_isOk_iff (P : Primitives) (secret : Bytes32) (nonce : Vector UInt8 16)
    (cs : List Caveat) :
    (∃ m, build P secret nonce cs = .ok m) ↔ ∀ c ∈ cs, (lengthPrefixed P c).isSome := by
  induction cs using List.reverseRecOn with
  | nil =>
    obtain ⟨m, -, hmint, -⟩ := mint_eq P secret nonce
    exact iff_of_true ⟨m, (build_nil P secret nonce).trans hmint⟩ fun c hc =>
      absurd hc List.not_mem_nil
  | append_singleton cs c ih =>
    rw [List.forall_mem_append, List.forall_mem_singleton, ← ih, build_snoc]
    constructor
    · intro h
      obtain ⟨m, h⟩ := h
      obtain ⟨m₀, hbuild, hext⟩ := run_bind_eq_ok.mp h
      obtain ⟨⟨t, hissued⟩, -⟩ := build_issued hbuild
      obtain ⟨e, t', hlink, -⟩ := hissued.extend hext
      obtain ⟨msg, ser, -, hser, -⟩ := chainLink_eq_some.mp hlink
      exact ⟨⟨m₀, hbuild⟩, by rw [hser]; rfl⟩
    · intro h
      obtain ⟨⟨m₀, hbuild⟩, hsome⟩ := h
      obtain ⟨ser, hser⟩ := Option.isSome_iff_exists.mp hsome
      obtain ⟨msg, hmsg⟩ := caveatMsg_eq_some hser
      obtain ⟨⟨t, hissued⟩, -⟩ := build_issued hbuild
      exact ⟨_, run_bind_eq_ok.mpr ⟨m₀, hbuild, hissued.extendChain_eq_ok.mpr
        ⟨_, _, chainLink_of_eq_some hmsg hser t, rfl⟩⟩⟩

/-! ## The circuit's route -/

theorem deriveChainTip_snoc {lo hi tip : Felt} {felts : List Felt} {msgs : List (List UInt8)}
    {ids : List Bytes32} (h : deriveChainTip P lo hi felts msgs ids = some tip) (msg : List UInt8)
    (id : Bytes32) :
    deriveChainTip P lo hi felts (msgs ++ [msg]) (ids ++ [id])
      = some (chainStep P tip id (bytesToFelts msg)) := by
  unfold deriveChainTip at h ⊢
  split at h
  next hlen =>
    rw [if_pos (by rw [List.length_append, List.length_append, hlen]; rfl),
      List.zip_append hlen, List.foldl_append, Option.some.inj h]
    rfl
  · cases h

theorem feltToChainBytes_inj {f g : Felt} (h : feltToChainBytes f = feltToChainBytes g) : f = g := by
  have hf := chainBytesToFelt_toChainBytes f
  rw [h, chainBytesToFelt_toChainBytes] at hf
  exact (Option.some.inj hf).symm

/-- The tip of a built chain, from the messages and the ids of the tokens on
the way. -/
theorem build_tip {secret : Bytes32} {nonce : Vector UInt8 16} {cs : List Caveat} {m : Macaroon}
    (h : build P secret nonce cs = .ok m) :
    ∃ (ms : List Macaroon) (msgs : List (List UInt8)) (tip : Felt),
      ms.length = cs.length ∧
      (∀ i (hi : i < ms.length), build P secret nonce (cs.take i) = .ok (ms.get ⟨i, hi⟩)) ∧
      cs.mapM (caveatMsg P) = some msgs ∧
      deriveChainTip P (splitFelts secret).1 (splitFelts secret).2 (mintFelts nonce) msgs
        (ms.map (·.id)) = some tip ∧
      m.signature = some (feltToChainBytes tip) := by
  induction cs using List.reverseRecOn generalizing m with
  | nil =>
    rw [build_nil] at h
    obtain ⟨m₀, t, hmint, hissued, -, hnonce, -, ht⟩ := mint_eq P secret nonce
    obtain rfl : m₀ = m := Except.ok.inj (hmint.symm.trans h)
    refine ⟨[], [], rootFelt P secret nonce, rfl, ?_, rfl, rfl, ?_⟩
    · intro i hi
      exact absurd hi (Nat.not_lt_zero i)
    · rw [hissued.derived.signature_eq, ht, chainStart_felt]
      rfl
  | append_singleton cs c ih =>
    rw [build_snoc] at h
    obtain ⟨m₀, hbuild, hext⟩ := run_bind_eq_ok.mp h
    obtain ⟨ms, msgs, tip, hlen, hms, hmsgs, htip, hsig⟩ := ih hbuild
    obtain ⟨⟨t, hissued⟩, -⟩ := build_issued hbuild
    obtain ⟨e, t', hlink, -, hissued'⟩ := hissued.extend hext
    obtain ⟨msg, -, hmsg, -, hfelt, -⟩ := chainLink_eq_some.mp hlink
    -- the circuit's state so far is the issuer's
    have hstate : t.felt = tip :=
      feltToChainBytes_inj (Option.some.inj (hissued.derived.signature_eq.symm.trans hsig))
    refine ⟨ms ++ [m₀], msgs ++ [msg], chainStep P tip m₀.id (bytesToFelts msg), ?_, ?_, ?_, ?_, ?_⟩
    · rw [List.length_append, List.length_append, hlen]
      rfl
    · intro i hi
      rw [List.get_eq_getElem]
      rw [List.length_append, List.length_singleton] at hi
      rcases Nat.lt_or_ge i ms.length with hlt | hge
      · rw [List.take_append_of_le_length (by omega), List.getElem_append_left hlt]
        exact hms i hlt
      · obtain rfl : i = cs.length := by omega
        rw [List.take_left, List.getElem_append_right (by omega)]
        simpa only [hlen, Nat.sub_self, List.getElem_singleton] using hbuild
    · rw [List.mapM_append, hmsgs]
      simp [hmsg]
    · rw [List.map_append]
      exact deriveChainTip_snoc htip msg m₀.id
    · rw [hissued'.derived.signature_eq, hfelt, hstate, hissued.id]

theorem lengthPrefixed_isSome_iff {c : Caveat} : (lengthPrefixed P c).isSome ↔
    ∃ ser, c.canonicalSer P.toWriters = some ser ∧ ser.length < 2 ^ 32 := by
  unfold lengthPrefixed u32Len
  cases hser : c.canonicalSer P.toWriters with
  | none => simp
  | some ser => simp

/-- **The three routes meet.** Where every caveat serialises (to a length that
fits its prefix) the token is built; and every token built has one chain entry
more than caveats, is its own content address, verifies, and ends in the tip
the circuit derives from the messages and the ids of the tokens on the way. -/
theorem build_complete (P : Primitives) (secret : Bytes32) (nonce : Vector UInt8 16)
    (cs : List Caveat) :
    ((∃ m, build P secret nonce cs = .ok m) ↔
      ∀ c ∈ cs, ∃ ser, c.canonicalSer P.toWriters = some ser ∧ ser.length < 2 ^ 32) ∧
    ∀ m, build P secret nonce cs = .ok m →
      m.caveats = cs ∧ m.chain.length = m.caveats.length + 1 ∧
      computeCapabilityId P m = some m.id ∧ verifySignature P m secret = .ok () ∧
      ∃ (ms : List Macaroon) (msgs : List (List UInt8)) (tip : Felt),
        ms.length = cs.length ∧
        (∀ i (hi : i < ms.length), build P secret nonce (cs.take i) = .ok (ms.get ⟨i, hi⟩)) ∧
        cs.mapM (caveatMsg P) = some msgs ∧
        deriveChainTip P (splitFelts secret).1 (splitFelts secret).2 (mintFelts nonce) msgs
          (ms.map (·.id)) = some tip ∧
        m.signature = some (feltToChainBytes tip) := by
  refine ⟨?_, ?_⟩
  · rw [build_isOk_iff]
    exact forall₂_congr fun c _ => lengthPrefixed_isSome_iff
  · intro m h
    obtain ⟨⟨t, hissued⟩, hcav, -⟩ := build_issued h
    exact ⟨hcav, hissued.derived.chain_length, hissued.computed_id, hissued.verifies, build_tip h⟩

end CipherOcto.Cap
