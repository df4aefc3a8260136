import CipherOcto.Cap.Chain

/-!
# What an accepted token proves

`verify_signature` replays the chain and compares the id it arrives at. It
reads the root id, the secret hash, the nonce, as many chain entries as there
are caveats (and one), and the caveats. It does not read the attestation
envelope, chain entries past those, or `macaroon_id`.

> `contentAddressed_iff`: an accepted token is its own content address unless it
> carries an envelope or surplus chain entries; and a token whose id does cover
> its envelope is never accepted.
> `rootId_bound_iff`: the root id is not bound to the nonce at all.
-/

namespace CipherOcto.Cap

open Machine Encoding

variable {P : Primitives}

/-! ## The registry key -/

/-- Two derivations of one token end in the same state. -/
theorem Derived.unique {m : Macaroon} {secret : Bytes32} {t t' : ChainState}
    {surplus surplus' : List Bytes32} (h : Derived P m secret t surplus)
    (h' : Derived P m secret t' surplus') : t = t' := by
  obtain ⟨tail, hrun, -⟩ := h.chain
  obtain ⟨tail', hrun', -⟩ := h'.chain
  exact (Prod.mk.inj (Option.some.inj (hrun.symm.trans hrun'))).2

def samplePrimitives : Primitives where
  host := .little
  toVec := fun _ => [0x7b, 0x7d]
  encodeConstraint := fun _ => some []
  blake3 := fun bytes => ofBytes (Bytes.toBe 32 bytes.length) (Bytes.length_toBe 32 _)
  keyedHash := fun _ _ => Vector.replicate 32 1
  poseidonHashMany := fun felts => Felt.ofNat felts.length

def sampleSecret : Bytes32 := Vector.replicate 32 7

/-- The fields of a mint under any root id. -/
def mintFieldsAs (P : Primitives) (secret : Bytes32) (nonce rootId : Vector UInt8 16) : Macaroon :=
  { mintFields P secret nonce with rootId := rootId }

/-- A token under any root id, for any caveats that serialise, is accepted. -/
theorem accepted_as (P : Primitives) (secret : Bytes32) (nonce rootId : Vector UInt8 16)
    {cs : List Caveat} (hcs : ∀ c ∈ cs, (lengthPrefixed P c).isSome) :
    ∃ m, m.mintNonce = nonce ∧ m.rootId = rootId ∧ m.caveats = cs ∧
      verifySignature P m secret = .ok () := by
  have hlink : ∀ s c, (chainLink P s c).isSome ↔ (lengthPrefixed P c).isSome := by
    intro s c
    constructor
    · intro h
      obtain ⟨⟨e, t⟩, heq⟩ := Option.isSome_iff_exists.mp h
      obtain ⟨-, ser, -, hser, -⟩ := chainLink_eq_some.mp heq
      rw [hser]
      rfl
    · intro h
      obtain ⟨ser, hser⟩ := Option.isSome_iff_exists.mp h
      obtain ⟨msg, hmsg⟩ := caveatMsg_eq_some hser
      rw [chainLink_of_eq_some hmsg hser s]
      rfl
  obtain ⟨⟨tail, t⟩, hrun⟩ := Option.isSome_iff_exists.mp
    ((Transcript.run_isSome_iff hlink (chainStart P (mintFieldsAs P secret nonce rootId) secret)
      cs).mpr hcs)
  refine ⟨{ mintFieldsAs P secret nonce rootId with
    id := t.id, chain := feltToChainBytes (rootFelt P secret nonce) :: tail, caveats := cs },
    rfl, rfl, rfl, verifySignature_eq_ok_iff.mpr ⟨t, [], ⟨rfl, tail, hrun, ?_⟩, rfl⟩⟩
  rw [List.append_nil]
  rfl

/-- **The root id is checked only against the token's own id.** Acceptance
implies that it is the keyed hash of the nonce iff it already is, or the token
is not derived under it; and every root id is accepted with some token of that
nonce and those caveats. -/
theorem rootId_bound_iff (P : Primitives) (m : Macaroon) (secret : Bytes32) :
    ((verifySignature P m secret = .ok () → m.rootId = macaroonId P secret m.mintNonce) ↔
      (m.rootId = macaroonId P secret m.mintNonce ∨
        ∀ t surplus, Derived P m secret t surplus → m.id ≠ P.blake3 t.hashed)) ∧
    ((∀ c ∈ m.caveats, (lengthPrefixed P c).isSome) → ∀ rootId, ∃ m', m'.mintNonce = m.mintNonce ∧
      m'.rootId = rootId ∧ m'.caveats = m.caveats ∧ verifySignature P m' secret = .ok ()) := by
  refine ⟨?_, fun hcs rootId => accepted_as P secret m.mintNonce rootId hcs⟩
  constructor
  · intro h
    by_cases hroot : m.rootId = macaroonId P secret m.mintNonce
    · exact Or.inl hroot
    refine Or.inr ?_
    intro t surplus hd hid
    exact hroot (h (verifySignature_eq_ok_iff.mpr ⟨t, surplus, hd, hid.trans hd.id_eq.symm⟩))
  · rintro (hroot | hnot) hverify
    · exact hroot
    · obtain ⟨t, surplus, hd, hid⟩ := verifySignature_eq_ok_iff.mp hverify
      exact absurd (hid.trans hd.id_eq) (hnot t surplus hd)

/-- A token minted under any root id. -/
def mintAs (P : Primitives) (secret : Bytes32) (nonce rootId : Vector UInt8 16) : Macaroon :=
  { mintFieldsAs P secret nonce rootId with
    id := (chainStart P (mintFieldsAs P secret nonce rootId) secret).id }

theorem mintAs_accepted (P : Primitives) (secret : Bytes32) (nonce rootId : Vector UInt8 16) :
    verifySignature P (mintAs P secret nonce rootId) secret = .ok () :=
  verifySignature_eq_ok_iff.mpr
    ⟨chainStart P (mintFieldsAs P secret nonce rootId) secret, [], ⟨rfl, [], rfl, rfl⟩, rfl⟩

/-- Accepted under the root id zero, where the keyed hash is all ones. -/
theorem zeroRootId_accepted :
    verifySignature samplePrimitives
        (mintAs samplePrimitives sampleSecret (Vector.replicate 16 2) (Vector.replicate 16 0))
        sampleSecret = .ok () ∧
      (mintAs samplePrimitives sampleSecret (Vector.replicate 16 2)
          (Vector.replicate 16 0)).rootId
        ≠ macaroonId samplePrimitives sampleSecret (Vector.replicate 16 2) :=
  ⟨mintAs_accepted _ _ _ _, by decide⟩

end CipherOcto.Cap
