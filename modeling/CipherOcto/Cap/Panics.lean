import CipherOcto.Cap.Authenticity
import CipherOcto.Encoding.Canonical

/-!
# Where the verifier panics

`verify_signature` indexes the chain, one entry for the root and one for each caveat,
and writes every caveat it comes to. The parser asks nothing of the two lengths, and the
writer unwraps: the encoding of a factory's pre-conditions, which has a size limit, and
the JSON number of a `MaxPerTx`, which has to be a `u64`. What saves a forged token is
only that the verifier stops at the first entry that is not the derived one.

> `canonicalSer_isSome_iff`: the caveats that can be written.
> `verifyLoop_eq_panic_iff`: the loop panics at the first caveat it cannot answer for, if
> it gets there.
-/

namespace CipherOcto.Cap

open Machine Encoding Transcript

/-! ## Writing a caveat -/

/-- `encode_constraint(c).expect(..)`. -/
def expectEncoded (c : Constraint) : Option (List UInt8) :=
  (encode c).bind Except.toOption

/-- The primitives, with the constraint encoding of the repository. -/
def Primitives.encoding (P : Primitives) : Primitives := { P with encodeConstraint := expectEncoded }

/-- The canonical constraint is small enough for its encoding. -/
def Encodable (c : Constraint) : Prop := c.canonical.Sized ∧ c.canonical.wire.length ≤ 250

/-- What can be written: all but large pre-conditions and large amounts. -/
def Caveat.Writable : Caveat → Prop
  | maxPerTx amount => amount < 2 ^ 64
  | factory vet => ∀ c ∈ vet.preConditions, Encodable c
  | _ => True

theorem expectEncoded_isSome_iff (c : Constraint) : (expectEncoded c).isSome ↔ Encodable c := by
  rw [expectEncoded, Option.isSome_iff_exists]
  constructor
  · intro h
    obtain ⟨x, hx⟩ := h
    obtain ⟨out, hout, hok⟩ := Option.bind_eq_some_iff.mp hx
    cases out with
    | error e => cases hok
    | ok y =>
      obtain ⟨hsized, hsmall, -⟩ := encode_eq_ok.mp hout
      exact ⟨hsized, hsmall⟩
  · intro h
    have hok := encode_eq_ok.mpr ⟨h.1, h.2, rfl⟩
    exact ⟨_, Option.bind_eq_some_iff.mpr ⟨_, hok, rfl⟩⟩

theorem mapM_isSome_iff {α β : Type} (f : α → Option β) (as : List α) :
    (as.mapM f).isSome ↔ ∀ a ∈ as, (f a).isSome := by
  induction as with
  | nil => exact iff_of_true rfl fun a ha => absurd ha List.not_mem_nil
  | cons a as ih =>
    rw [List.mapM_cons, List.forall_mem_cons, ← ih]
    cases f a with
    | none => exact iff_of_false Bool.false_ne_true fun h => Bool.false_ne_true h.1
    | some b =>
      cases as.mapM f with
      | none => exact iff_of_false Bool.false_ne_true fun h => Bool.false_ne_true h.2
      | some bs => exact iff_of_true rfl ⟨rfl, rfl⟩

/-- **A caveat is written** unless a number or a pre-condition in it is too large. -/
theorem canonicalSer_isSome_iff {w : Writers} (hw : w.encodeConstraint = expectEncoded)
    (c : Caveat) : (c.canonicalSer w).isSome ↔ c.Writable := by
  rw [Caveat.canonicalSer, Option.isSome_map]
  cases c with
  | maxPerTx amount =>
    change (u128Json amount).isSome ↔ amount < 2 ^ 64
    unfold u128Json
    split
    next hfits => exact iff_of_true rfl hfits
    next hlarge => exact iff_of_false Bool.false_ne_true hlarge
  | factory vet =>
    have hpre := mapM_isSome_iff expectEncoded vet.preConditions
    simp only [expectEncoded_isSome_iff] at hpre
    have hpayload : ((Caveat.factory vet).payload w).isSome =
        (vet.preConditions.mapM expectEncoded).isSome := by
      rw [← hw]
      unfold Caveat.payload
      dsimp only
      cases vet.preConditions.mapM w.encodeConstraint <;> rfl
    rw [hpayload, hpre]
    exact Iff.rfl
  | _ => exact iff_of_true rfl trivial

/-! ## The loop -/

variable {P : Primitives}

/-- The entry that the loop expects for a caveat, written as `ser`. -/
def expectedEntry (P : Primitives) (s : ChainState) (c : Caveat) (ser : List UInt8) : Bytes32 :=
  feltToChainBytes (chainStep P s.felt s.id (bytesToFelts (utf8 c.name.asStr ++ ser)))

/-- What the loop needs, to answer for a caveat. -/
structure Answers (P : Primitives) (s : ChainState) (c : Caveat) (entry : Option Bytes32) :
    Prop where
  writable : c.Writable
  entry_ne_none : entry ≠ none
  /-- The length of the caveat is written only behind the entry that is expected. -/
  length_lt : ∀ ser, c.canonicalSer P.toWriters = some ser →
    entry = some (expectedEntry P s c ser) → ser.length < 2 ^ 32

theorem caveatMsg_eq_of_ser {c : Caveat} {ser : List UInt8}
    (h : c.canonicalSer P.toWriters = some ser) :
    caveatMsg P c = some (utf8 c.name.asStr ++ ser) := by
  rw [caveatMsg, h]
  rfl

theorem lengthPrefixed_eq_none_iff {c : Caveat} {ser : List UInt8}
    (h : c.canonicalSer P.toWriters = some ser) :
    lengthPrefixed P c = none ↔ ¬ser.length < 2 ^ 32 := by
  rw [lengthPrefixed, h, Option.bind_some, Option.map_eq_none_iff, u32Len]
  split
  next hlt => exact iff_of_false (fun hnone => nomatch hnone) (not_not_intro hlt)
  next hge => exact iff_of_true rfl hge

/-- The turn of a caveat that has a link. -/
theorem verifyLoop_cons_of_link {i : Nat} {s s' : ChainState} {e : Bytes32} {c : Caveat}
    (h : chainLink P s c = some (e, s')) (es : List Bytes32) (cs : List Caveat) :
    verifyLoop P i s.hashed s.felt s.id (e :: es) (c :: cs) =
      verifyLoop P (i + 1) s'.hashed s'.felt s'.id es cs := by
  obtain ⟨msg, ser, hmsg, hser, hfelt, he, hhashed, hid⟩ := chainLink_eq_some.mp h
  rw [verifyLoop.eq_def]
  dsimp only
  rw [hmsg, orPanic_some, ok_bind, ← hfelt, ← he, if_neg (not_not_intro rfl), hser, orPanic_some,
    ok_bind]
  have hfelt' : chainBytesToFelt e = some s'.felt := he ▸ chainBytesToFelt_toChainBytes s'.felt
  rw [hfelt']
  dsimp only
  rw [← hhashed, ← hid]

/-- The turn of a caveat that is written, up to the comparison of the entry. -/
theorem verifyLoop_cons_of_ser {c : Caveat} {ser : List UInt8}
    (h : c.canonicalSer P.toWriters = some ser) (i : Nat) (s : ChainState) (e : Bytes32)
    (es : List Bytes32) (cs : List Caveat) :
    verifyLoop P i s.hashed s.felt s.id (e :: es) (c :: cs) =
      if expectedEntry P s c ser ≠ e then .error (.err (.chainMismatch i))
      else orPanic (lengthPrefixed P c) >>= fun ser => match chainBytesToFelt e with
        | none => .error (.err (.chainEntryNotCanonical (i + 1)))
        | some f => verifyLoop P (i + 1) (s.hashed ++ (e.toList ++ ser)) f
            (P.blake3 (s.hashed ++ (e.toList ++ ser))) es cs := by
  rw [verifyLoop.eq_def]
  dsimp only
  rw [caveatMsg_eq_of_ser h, orPanic_some, ok_bind]
  rfl

/-- One turn: it panics for want of an answer, or goes on and panics later. -/
theorem verifyLoop_cons_eq_panic_iff (hP : P.encodeConstraint = expectEncoded) {i : Nat}
    {s : ChainState} {es : List Bytes32} {c : Caveat} {cs : List Caveat} :
    verifyLoop P i s.hashed s.felt s.id es (c :: cs) = .error .panic ↔
      ¬Answers P s c es.head? ∨ ∃ e s' es', es = e :: es' ∧ chainLink P s c = some (e, s') ∧
        verifyLoop P (i + 1) s'.hashed s'.felt s'.id es' cs = .error .panic := by
  have hwritable := canonicalSer_isSome_iff (w := P.toWriters) hP c
  cases hser : c.canonicalSer P.toWriters with
  | none =>
    rw [hser] at hwritable
    have hmsg : caveatMsg P c = none := by
      rw [caveatMsg, hser]
      rfl
    rw [verifyLoop.eq_def]
    dsimp only
    rw [hmsg]
    exact iff_of_true rfl (Or.inl fun h => Bool.false_ne_true (hwritable.mpr h.writable))
  | some ser =>
    rw [hser] at hwritable
    have hmsg := caveatMsg_eq_of_ser hser
    cases es with
    | nil =>
      rw [verifyLoop.eq_def]
      dsimp only
      rw [hmsg]
      exact iff_of_true rfl (Or.inl fun h => h.entry_ne_none rfl)
    | cons e es =>
      rw [List.head?_cons]
      have hanswers : Answers P s c (some e) ↔ (e = expectedEntry P s c ser → ser.length < 2 ^ 32) := by
        constructor
        · exact fun h heq => h.length_lt ser hser (congrArg some heq)
        · refine fun h => ⟨hwritable.mp rfl, Option.some_ne_none e, fun ser' hser' heq => ?_⟩
          obtain rfl := Option.some.inj (hser.symm.trans hser')
          exact h (Option.some.inj heq)
      rw [hanswers]
      by_cases hentry : e = expectedEntry P s c ser
      swap
      · -- it stops at an entry that is not the expected one
        rw [verifyLoop_cons_of_ser hser, if_pos (Ne.symm hentry)]
        refine iff_of_false (fun h => by cases h) ?_
        rintro (hno | ⟨e', s', es', heq, hlink, -⟩)
        · exact hno fun h => absurd h hentry
        · obtain ⟨rfl, rfl⟩ := List.cons.inj heq
          obtain ⟨msg, -, hmsg', -, hfelt, he, -⟩ := chainLink_eq_some.mp hlink
          obtain rfl := Option.some.inj (hmsg.symm.trans hmsg')
          exact hentry (by rw [he, hfelt]; rfl)
      · by_cases hlt : ser.length < 2 ^ 32
        · have hprefixed : ∃ bytes, lengthPrefixed P c = some bytes := by
            refine Option.ne_none_iff_exists'.mp fun hnone => ?_
            exact (lengthPrefixed_eq_none_iff hser).mp hnone hlt
          obtain ⟨bytes, hbytes⟩ := hprefixed
          have hlink := chainLink_of_eq_some hmsg hbytes s
          change chainLink P s c = some (expectedEntry P s c ser, _) at hlink
          rw [← hentry] at hlink
          rw [verifyLoop_cons_of_link hlink]
          constructor
          · exact fun h => Or.inr ⟨e, _, es, rfl, hlink, h⟩
          · rintro (hno | ⟨e', s', es', heq, hlink', h⟩)
            · exact absurd (fun _ => hlt) hno
            · obtain ⟨-, rfl⟩ := List.cons.inj heq
              obtain ⟨-, rfl⟩ := Prod.mk.inj (Option.some.inj (hlink.symm.trans hlink'))
              exact h
        · have hnone := (lengthPrefixed_eq_none_iff hser).mpr hlt
          rw [verifyLoop_cons_of_ser hser, if_neg (not_not_intro hentry.symm), hnone]
          exact iff_of_true rfl (Or.inl fun h => hlt (h hentry))

/-- **The loop panics** at a caveat it cannot answer for, if the entries before are the
expected ones. -/
theorem verifyLoop_eq_panic_iff (hP : P.encodeConstraint = expectEncoded) {i : Nat}
    {s : ChainState} {es : List Bytes32} {cs : List Caveat} :
    verifyLoop P i s.hashed s.felt s.id es cs = .error .panic ↔
      ∃ k c t, cs[k]? = some c ∧ run (chainLink P) s (cs.take k) = some (es.take k, t) ∧
        ¬Answers P t c es[k]? := by
  induction cs generalizing i s es with
  | nil =>
    rw [verifyLoop.eq_def]
    refine iff_of_false (fun h => by cases h) ?_
    rintro ⟨k, c, t, hc, -⟩
    cases hc
  | cons c cs ih =>
    rw [verifyLoop_cons_eq_panic_iff hP]
    constructor
    · rintro (hno | ⟨e, s', es', rfl, hlink, hlater⟩)
      · exact ⟨0, c, s, rfl, rfl, List.head?_eq_getElem? ▸ hno⟩
      · obtain ⟨k, d, t, hd, hrun, hno⟩ := ih.mp hlater
        exact ⟨k + 1, d, t, hd, run_cons_eq_some.mpr ⟨e, s', es'.take k, hlink, hrun, rfl⟩, hno⟩
    · rintro ⟨k, d, t, hd, hrun, hno⟩
      cases k with
      | zero =>
        obtain rfl := Option.some.inj hd
        obtain ⟨-, rfl⟩ := run_nil_eq_some.mp hrun
        exact Or.inl (List.head?_eq_getElem? ▸ hno)
      | succ k =>
        obtain ⟨e, s', rest, hlink, hrest, htake⟩ := run_cons_eq_some.mp hrun
        cases es with
        | nil => cases htake
        | cons e' es =>
          obtain ⟨rfl, rfl⟩ := List.cons.inj htake
          exact Or.inr ⟨e', s', es, rfl, hlink, ih.mpr ⟨k, d, t, hd, hrest, hno⟩⟩

/-! ## The verifier -/

/-- The entries of the token are the expected ones, from the root's to that of caveat `k`
(excluded); `t` is the state there. -/
def DerivedTo (P : Primitives) (m : Macaroon) (secret : Bytes32) (k : Nat) (t : ChainState) :
    Prop :=
  ∃ tail, run (chainLink P) (chainStart P m secret) (m.caveats.take k) = some (tail, t) ∧
    m.chain.take (k + 1) = feltToChainBytes (rootFelt P secret m.mintNonce) :: tail

theorem verifySignature_eq_panic_iff (hP : P.encodeConstraint = expectEncoded) {m : Macaroon}
    {secret : Bytes32} :
    verifySignature P m secret = .error .panic ↔
      P.blake3 secret.toList = m.rootSecretHash ∧ (m.chain = [] ∨ ∃ k c t,
        m.caveats[k]? = some c ∧ DerivedTo P m secret k t ∧ ¬Answers P t c m.chain[k + 1]?) := by
  unfold verifySignature DerivedTo
  by_cases hsecret : P.blake3 secret.toList = m.rootSecretHash
  swap
  · rw [if_pos hsecret]
    exact iff_of_false (fun h => nomatch h) fun h => hsecret h.1
  rw [if_neg (not_not_intro hsecret), and_iff_right hsecret]
  cases hchain : m.chain with
  | nil => exact iff_of_true rfl (Or.inl rfl)
  | cons c0 es =>
    dsimp only
    by_cases hroot : feltToChainBytes (rootFelt P secret m.mintNonce) = c0
    swap
    · rw [if_pos hroot]
      refine iff_of_false (fun h => by cases h) ?_
      rintro (hnil | ⟨k, c, t, -, ⟨tail, -, htake⟩, -⟩)
      · cases hnil
      · exact hroot (List.cons.inj htake).1.symm
    rw [if_neg (not_not_intro hroot), ← hroot, chainBytesToFelt_toChainBytes]
    dsimp only
    rw [run_bind_eq_panic]
    constructor
    · rintro (hloop | ⟨id, -, hlast⟩)
      · obtain ⟨k, c, t, hc, hrun, hno⟩ :=
          (verifyLoop_eq_panic_iff hP (s := chainStart P m secret)).mp hloop
        exact Or.inr ⟨k, c, t, hc, ⟨_, hrun, rfl⟩, hno⟩
      · split at hlast <;> cases hlast
    · rintro (hnil | ⟨k, c, t, hc, ⟨tail, hrun, htake⟩, hno⟩)
      · cases hnil
      · rw [List.take_succ_cons] at htake
        obtain rfl := (List.cons.inj htake).2
        exact Or.inl ((verifyLoop_eq_panic_iff hP (s := chainStart P m secret)).mpr
          ⟨k, c, t, hc, hrun, hno⟩)

/-- **The verifier answers** iff the chain is as long as it is derived, and one entry more
for a caveat that can be written, wherever the secret is the token's. -/
theorem verifySignature_total_iff (P : Primitives) (m : Macaroon) (secret : Bytes32) :
    (∀ c : Caveat, c.canonicalSer P.encoding.toWriters ≠ none ↔ c.Writable) ∧
    (verifySignature P.encoding m secret ≠ .error .panic ↔
      (P.blake3 secret.toList = m.rootSecretHash → m.chain ≠ [] ∧ ∀ k c t,
        m.caveats[k]? = some c → DerivedTo P.encoding m secret k t →
          Answers P.encoding t c m.chain[k + 1]?)) := by
  refine ⟨fun c => ?_, ?_⟩
  · rw [← canonicalSer_isSome_iff (w := P.encoding.toWriters) rfl c, Option.isSome_iff_ne_none]
  · rw [ne_eq, verifySignature_eq_panic_iff rfl, not_and, not_or]
    refine imp_congr_right fun _ => and_congr_right fun _ => ?_
    constructor
    · intro h k c t hc hderived
      by_contra hno
      exact h ⟨k, c, t, hc, hderived, hno⟩
    · rintro h ⟨k, c, t, hc, hderived, hno⟩
      exact hno (h k c t hc hderived)

/-- A token with no entries. -/
def emptied (P : Primitives) (secret : Bytes32) : Macaroon :=
  { mintFields P secret (Vector.replicate 16 0) with chain := [] }

/-- Under the token's own secret, whatever the hashes are. -/
theorem verifySignature_emptied (P : Primitives) (secret : Bytes32) :
    verifySignature P.encoding (emptied P secret) secret = .error .panic :=
  (verifySignature_eq_panic_iff rfl).mpr ⟨rfl, Or.inl rfl⟩

/-- No entries, and an amount that is no `u64`. -/
theorem verify_panics :
    verifySignature samplePrimitives.encoding (emptied samplePrimitives (Vector.replicate 32 0))
        (Vector.replicate 32 0) = .error .panic ∧
      (Caveat.maxPerTx (2 ^ 64)).canonicalSer samplePrimitives.encoding.toWriters = none :=
  ⟨verifySignature_emptied samplePrimitives (Vector.replicate 32 0), rfl⟩

end CipherOcto.Cap
