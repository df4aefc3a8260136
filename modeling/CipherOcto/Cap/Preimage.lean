import CipherOcto.Cap.Authenticity
import CipherOcto.Lib.Layout

/-!
# What the capability id is the hash of

`canonical_ser_unsigned` writes no count. After the fixed fields come chain entries, each
with the caveat that produced it behind its length, and then the attestation envelope, if
there is one. A reader who has come to the end of a caveat has to tell an entry from an
envelope by the next byte: the tag of an envelope is above the first byte of any field
element.

> `interleave_inj`: the entries, their caveats and the envelope are read back.
> `canonicalSerUnsigned_inj`: tokens with one preimage agree in all it was written from.
-/

namespace CipherOcto.Cap

open Encoding

variable {P : Primitives}

/-- An envelope whose payload has its length written in full. -/
def EnvelopeFits (a : Option AttestationEnvelope) : Prop :=
  ∀ env, a = some env → env.payload.length < 2 ^ 32

/-- The tokens the preimage is meant for. -/
structure WellFormed (m : Macaroon) : Prop where
  /-- Each entry starts as a field element does. -/
  entries : ∀ e ∈ m.chain, e[0] ≤ 0x08
  paired : m.chain.length = m.caveats.length + 1
  payload : EnvelopeFits m.attestation

theorem lengthPrefixed_eq_some {c : Caveat} {bytes : List UInt8} :
    lengthPrefixed P c = some bytes ↔ ∃ ser, c.canonicalSer P.toWriters = some ser ∧
      ser.length < 256 ^ 4 ∧ bytes = Bytes.toBe 4 ser.length ++ ser := by
  unfold lengthPrefixed u32Len
  rw [Option.bind_eq_some_iff]
  refine exists_congr fun ser => and_congr_right fun _ => ?_
  by_cases hlt : ser.length < 2 ^ 32
  · rw [if_pos hlt, Option.map_some, Option.some.injEq, eq_comm]
    exact (and_iff_right hlt).symm
  · rw [if_neg hlt]
    exact iff_of_false (fun h => nomatch h) fun h => hlt h.1

theorem writeEnvelope_inj {a b : Option AttestationEnvelope} (ha : EnvelopeFits a)
    (hb : EnvelopeFits b) (h : writeEnvelope a = writeEnvelope b) : a = b := by
  cases a with
  | none =>
    cases b with
    | none => rfl
    | some env => cases h
  | some x =>
    cases b with
    | none => cases h
    | some y =>
      have hx := ha x rfl
      have hy := hb y rfl
      unfold writeEnvelope at h
      dsimp only at h
      rw [Nat.mod_eq_of_lt hx, Nat.mod_eq_of_lt hy] at h
      have htail := (List.cons.inj h).2
      simp only [List.append_assoc] at htail
      obtain ⟨hid, hsized⟩ := Bytes.toList_append_inj (List.append_cancel_left htail)
      have hsized := congrArg (· ++ []) hsized
      simp only [List.append_assoc] at hsized
      obtain ⟨hpayload, -⟩ := Bytes.sized_append_inj hx hy hsized
      obtain ⟨typeId, payload⟩ := x
      obtain ⟨typeId', payload'⟩ := y
      dsimp only at hid hpayload
      rw [hid, hpayload]

/-- No envelope starts as an entry does. -/
theorem entry_ne_envelope {e : Bytes32} (he : e[0] ≤ 0x08) (rest : List UInt8)
    (a : Option AttestationEnvelope) : e.toList ++ rest ≠ writeEnvelope a := by
  intro h
  have hhead := congrArg List.head? h
  have hfirst : (e.toList ++ rest).head? = some e[0] := by
    rw [List.head?_append, List.head?_eq_getElem?, Vector.getElem?_toList]
    rfl
  rw [hfirst] at hhead
  cases a with
  | none => cases hhead
  | some env =>
    obtain htag := Option.some.inj hhead
    rw [htag] at he
    exact absurd he (by decide)

theorem interleave_cons_eq_some {e : Bytes32} {es : List Bytes32} {c : Caveat} {cs : List Caveat}
    {body : List UInt8} :
    interleave P (e :: es) (c :: cs) = some body ↔ ∃ sized rest, lengthPrefixed P c = some sized ∧
      interleave P es cs = some rest ∧ body = e.toList ++ sized ++ rest := by
  rw [interleave, Option.bind_eq_some_iff]
  refine exists_congr fun sized => ?_
  rw [Option.map_eq_some_iff]
  constructor
  · rintro ⟨hsized, rest, hrest, rfl⟩
    exact ⟨rest, hsized, hrest, rfl⟩
  · rintro ⟨rest, hsized, hrest, rfl⟩
    exact ⟨hsized, rest, hrest, rfl⟩

/-- **The stream is read back** from its first entry on. -/
theorem interleave_inj {es es' : List Bytes32} {cs cs' : List Caveat} {body body' : List UInt8}
    {a a' : Option AttestationEnvelope} (hes : ∀ e ∈ es, e[0] ≤ 0x08) (hes' : ∀ e ∈ es', e[0] ≤ 0x08)
    (hlen : es.length = cs.length) (hlen' : es'.length = cs'.length) (ha : EnvelopeFits a)
    (ha' : EnvelopeFits a') (h : interleave P es cs = some body)
    (h' : interleave P es' cs' = some body')
    (heq : body ++ writeEnvelope a = body' ++ writeEnvelope a') :
    es = es' ∧ cs.map (·.canonicalSer P.toWriters) = cs'.map (·.canonicalSer P.toWriters) ∧
      a = a' := by
  induction es generalizing es' cs cs' body body' with
  | nil =>
    obtain rfl := List.length_eq_zero_iff.mp hlen.symm
    obtain rfl := Option.some.inj h
    cases es' with
    | nil =>
      obtain rfl := List.length_eq_zero_iff.mp hlen'.symm
      obtain rfl := Option.some.inj h'
      exact ⟨rfl, rfl, writeEnvelope_inj ha ha' heq⟩
    | cons e' es' =>
      cases cs' with
      | nil => cases hlen'
      | cons c' cs' =>
        obtain ⟨sized', rest', -, -, rfl⟩ := interleave_cons_eq_some.mp h'
        rw [List.append_assoc, List.append_assoc] at heq
        exact absurd heq.symm (entry_ne_envelope (hes' e' List.mem_cons_self) _ a)
  | cons e es ih =>
    cases cs with
    | nil => cases hlen
    | cons c cs =>
      obtain ⟨sized, rest, hsized, hrest, rfl⟩ := interleave_cons_eq_some.mp h
      rw [List.append_assoc, List.append_assoc] at heq
      cases es' with
      | nil =>
        obtain rfl := List.length_eq_zero_iff.mp hlen'.symm
        obtain rfl := Option.some.inj h'
        exact absurd heq (entry_ne_envelope (hes e List.mem_cons_self) _ a')
      | cons e' es' =>
        cases cs' with
        | nil => cases hlen'
        | cons c' cs' =>
          obtain ⟨sized', rest', hsized', hrest', rfl⟩ := interleave_cons_eq_some.mp h'
          obtain ⟨ser, hser, hlt, rfl⟩ := lengthPrefixed_eq_some.mp hsized
          obtain ⟨ser', hser', hlt', rfl⟩ := lengthPrefixed_eq_some.mp hsized'
          simp only [List.append_assoc] at heq
          obtain ⟨he, hcaveat⟩ := Bytes.toList_append_inj heq
          obtain ⟨hsame, hafter⟩ := Bytes.sized_append_inj hlt hlt' hcaveat
          obtain ⟨hes, hcs, ha⟩ := ih (fun x hx => hes x (List.mem_cons_of_mem e hx))
            (fun x hx => hes' x (List.mem_cons_of_mem e' hx)) (Nat.succ.inj hlen)
            (Nat.succ.inj hlen') hrest hrest' hafter
          refine ⟨by rw [he, hes], ?_, ha⟩
          rw [List.map_cons, List.map_cons, hser, hser', hsame, hcs]

/-- The fixed fields, each of its own width. -/
theorem header_inj {m m' : Macaroon} {r s : List UInt8} (h : m.header ++ r = m'.header ++ s) :
    m.rootId = m'.rootId ∧ m.rootSecretHash = m'.rootSecretHash ∧ m.mintNonce = m'.mintNonce ∧
      r = s := by
  unfold Macaroon.header at h
  simp only [List.append_assoc] at h
  have h := List.append_cancel_left h
  obtain ⟨hroot, h⟩ := Bytes.toList_append_inj h
  have h := List.append_cancel_left h
  obtain ⟨hsecret, h⟩ := Bytes.toList_append_inj h
  have h := List.append_cancel_left h
  obtain ⟨hnonce, h⟩ := Bytes.toList_append_inj h
  exact ⟨hroot, hsecret, hnonce, h⟩

theorem canonicalSerUnsigned_eq_some {m : Macaroon} {x : List UInt8}
    (hm : m.chain.length = m.caveats.length + 1) :
    m.canonicalSerUnsigned P = some x ↔ ∃ c0 es body, m.chain = c0 :: es ∧
      interleave P es m.caveats = some body ∧
      x = m.header ++ (c0.toList ++ (Bytes.toBe 4 0 ++ (body ++ writeEnvelope m.attestation))) := by
  unfold Macaroon.canonicalSerUnsigned
  cases hchain : m.chain with
  | nil =>
    rw [hchain] at hm
    cases hm
  | cons c0 es =>
    dsimp only
    rw [Option.map_eq_some_iff]
    constructor
    · rintro ⟨body, hbody, rfl⟩
      refine ⟨c0, es, body, rfl, hbody, ?_⟩
      simp only [List.append_assoc]
    · rintro ⟨c0', es', body, hcons, hbody, rfl⟩
      obtain ⟨rfl, rfl⟩ := List.cons.inj hcons
      refine ⟨body, hbody, ?_⟩
      simp only [List.append_assoc]

/-- **The preimage of the capability id** determines the token but for its id. -/
theorem canonicalSerUnsigned_inj (P : Primitives) {m m' : Macaroon} (hm : WellFormed m)
    (hm' : WellFormed m') {x : List UInt8} (h : m.canonicalSerUnsigned P = some x)
    (h' : m'.canonicalSerUnsigned P = some x) :
    m.rootId = m'.rootId ∧ m.rootSecretHash = m'.rootSecretHash ∧ m.mintNonce = m'.mintNonce ∧
      m.chain = m'.chain ∧
      m.caveats.map (·.canonicalSer P.toWriters) = m'.caveats.map (·.canonicalSer P.toWriters) ∧
      m.attestation = m'.attestation := by
  obtain ⟨c0, es, body, hchain, hbody, rfl⟩ := (canonicalSerUnsigned_eq_some hm.paired).mp h
  obtain ⟨c0', es', body', hchain', hbody', heq⟩ := (canonicalSerUnsigned_eq_some hm'.paired).mp h'
  obtain ⟨hroot, hsecret, hnonce, heq⟩ := header_inj heq
  obtain ⟨hc0, heq⟩ := Bytes.toList_append_inj heq
  have heq := List.append_cancel_left heq
  have hlen := hm.paired
  have hlen' := hm'.paired
  have hentries := hm.entries
  have hentries' := hm'.entries
  rw [hchain] at hlen hentries
  rw [hchain'] at hlen' hentries'
  obtain ⟨hes, hcaveats, hattestation⟩ := interleave_inj
    (fun e he => hentries e (List.mem_cons_of_mem c0 he))
    (fun e he => hentries' e (List.mem_cons_of_mem c0' he)) (Nat.succ.inj hlen)
    (Nat.succ.inj hlen') hm.payload hm'.payload hbody hbody' heq
  refine ⟨hroot, hsecret, hnonce, ?_, hcaveats, hattestation⟩
  rw [hchain, hchain', hc0, hes]

/-- A token of one caveat, with an envelope. -/
def attestedToken : Macaroon :=
  { mintFields samplePrimitives sampleSecret (Vector.replicate 16 2) with
    chain := [Vector.replicate 32 0, Vector.replicate 32 8]
    caveats := [.before 1700000000]
    attestation := some ⟨Vector.replicate 16 3, [0xA8, 0]⟩ }

theorem attestedToken_wellFormed : WellFormed attestedToken where
  entries := by decide
  paired := rfl
  payload := fun env h => by
    obtain rfl := Option.some.inj h
    decide

/-- The id is not in it. -/
theorem canonicalSerUnsigned_inj_attested : WellFormed attestedToken ∧
    attestedToken.attestation =
      { attestedToken with id := Vector.replicate 32 1 }.attestation := by
  have hsome : (attestedToken.canonicalSerUnsigned samplePrimitives).isSome := by decide
  obtain ⟨x, hx⟩ := Option.isSome_iff_exists.mp hsome
  have hother : WellFormed { attestedToken with id := Vector.replicate 32 1 } :=
    ⟨attestedToken_wellFormed.entries, attestedToken_wellFormed.paired,
      attestedToken_wellFormed.payload⟩
  obtain ⟨-, -, -, -, -, hattestation⟩ :=
    canonicalSerUnsigned_inj samplePrimitives attestedToken_wellFormed hother hx hx
  exact ⟨attestedToken_wellFormed, hattestation⟩

end CipherOcto.Cap
