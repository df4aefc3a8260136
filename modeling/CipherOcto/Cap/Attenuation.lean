import CipherOcto.Cap.Authenticity
import CipherOcto.Cap.Subsumption

/-!
# Attenuation and the wrapped chain

`attenuate` appends a caveat, `verify_full` checks a token against the caveats
its parent had, and both walk the `WrappedOnly` parents of a token through a
catalog. The walk follows one parent per token, the last one named; it stops at
depth 16, at an id it has met, and at an id the catalog does not have.

> `Lineage` is the walk as a relation, and `checkLoop_eq_ok_iff` /
> `collectLoop_eq_ok_iff` are the two loops of the source in its terms.
> `strip_accepted`: every prefix of a token is a token.
> `attenuated_accepted_iff`: the honest child passes its own check only if its
> new caveat was already implied.
> `inherited_kept_iff`: a second `WrappedOnly` replaces the first lineage.
-/

namespace CipherOcto.Cap

open Machine Encoding

/-! ## The code -/

/-- `CapabilityCatalog`. -/
structure CapabilityCatalog where
  lookup : Bytes32 → Option Macaroon
  isRawNameRegistered : String → Bool

def maxWrappedDepth : Nat := 16

def Caveat.wrappedParent : Caveat → Option Bytes32
  | wrappedOnly parent => some parent
  | _ => none

/-- `parent_capability`: the last `WrappedOnly`. -/
def Macaroon.parentCapability (m : Macaroon) : Option Bytes32 :=
  m.caveats.reverse.findSome? Caveat.wrappedParent

/-- The loop of `check_wrapped_chain`. -/
def checkLoop (catalog : CapabilityCatalog) (visited : List Bytes32) (current : Macaroon)
    (depth : Nat) : Run MacaroonError Unit :=
  if depth > maxWrappedDepth then .error (.err (.wrappedDepthExceeded depth))
  else match current.parentCapability with
  | none => .ok ()
  | some parentId =>
    if parentId ∈ visited then .error (.err .wrappedCycle)
    else match catalog.lookup parentId with
    | none => .error (.err (.wrappedParentNotFound parentId))
    | some parent => checkLoop catalog (parentId :: visited) parent (depth + 1)
  termination_by maxWrappedDepth + 1 - depth
  decreasing_by omega

/-- `check_wrapped_chain`. -/
def checkWrappedChain (m : Macaroon) (catalog : CapabilityCatalog) : Run MacaroonError Unit :=
  checkLoop catalog [m.id] m 1

/-- The loop of `collect_chain_caveats`. -/
def collectLoop (catalog : CapabilityCatalog) (visited : List Bytes32) (out : List Caveat)
    (current : Macaroon) (depth : Nat) : Run MacaroonError (List Caveat) :=
  if depth > maxWrappedDepth then .error (.err (.wrappedDepthExceeded depth))
  else match current.parentCapability with
  | none => .ok out
  | some parentId =>
    if parentId ∈ visited then .error (.err .wrappedCycle)
    else match catalog.lookup parentId with
    | none => .error (.err (.wrappedParentNotFound parentId))
    | some parent =>
      collectLoop catalog (parentId :: visited) (out ++ parent.caveats) parent (depth + 1)
  termination_by maxWrappedDepth + 1 - depth
  decreasing_by omega

/-- `collect_chain_caveats`, less the wrapper around its errors. -/
def collectChainCaveats (m : Macaroon) (catalog : CapabilityCatalog) :
    Run MacaroonError (List Caveat) :=
  collectLoop catalog [m.id] m.caveats m 1

/-- The registration check of `attenuate`. -/
def checkRaw (catalog : CapabilityCatalog) : Caveat → Run MacaroonError Unit
  | .raw r =>
    if catalog.isRawNameRegistered r.name then .ok () else .error (.err (.unknownRawName r.name))
  | _ => .ok ()

variable (P : Primitives)

/-- `attenuate`. The second walk is skipped unless the last caveat names a
parent. -/
def attenuate (m : Macaroon) (c : Caveat) (catalog : CapabilityCatalog) :
    Run MacaroonError Macaroon := do
  checkRaw catalog c
  checkWrappedChain m catalog
  let next ← extendChain P m c
  if (next.caveats.getLast?.bind Caveat.wrappedParent).isSome then
    (checkWrappedChain next catalog) >>= fun _ => .ok next
  else .ok next

variable {P}

/-! ## The walk as a relation -/

/-- The parents of a token, with their ids, up to one that names no parent. -/
inductive Lineage (catalog : CapabilityCatalog) : Macaroon → List (Bytes32 × Macaroon) → Prop
  | root {m} (h : m.parentCapability = none) : Lineage catalog m []
  | link {m p a rest} (hp : m.parentCapability = some p) (ha : catalog.lookup p = some a)
      (h : Lineage catalog a rest) : Lineage catalog m ((p, a) :: rest)

/-- The first link of a token that names a parent. -/
theorem Lineage.of_parent {catalog : CapabilityCatalog} {m : Macaroon} {p : Bytes32}
    {links : List (Bytes32 × Macaroon)} (h : Lineage catalog m links)
    (hp : m.parentCapability = some p) :
    ∃ a rest, catalog.lookup p = some a ∧ Lineage catalog a rest ∧ links = (p, a) :: rest := by
  cases h with
  | root hnone =>
    rw [hp] at hnone
    cases hnone
  | link hp' ha hrest =>
    obtain rfl := Option.some.inj (hp.symm.trans hp')
    exact ⟨_, _, ha, hrest, rfl⟩

theorem Lineage.unique {catalog : CapabilityCatalog} {m : Macaroon}
    {links links' : List (Bytes32 × Macaroon)} (h : Lineage catalog m links)
    (h' : Lineage catalog m links') : links = links' := by
  induction h generalizing links' with
  | root hnone =>
    cases h' with
    | root => rfl
    | link hp => rw [hnone] at hp; cases hp
  | link hp ha _ ih =>
    obtain ⟨a', rest', ha', hrest, rfl⟩ := h'.of_parent hp
    obtain rfl := Option.some.inj (ha.symm.trans ha')
    rw [ih hrest]

/-- What the loops ask of the ids they meet. -/
structure Walkable (visited : List Bytes32) (depth : Nat) (links : List (Bytes32 × Macaroon)) :
    Prop where
  depth_le : depth + links.length ≤ maxWrappedDepth
  fresh : ∀ p ∈ links.map Prod.fst, p ∉ visited
  nodup : (links.map Prod.fst).Nodup

theorem walkable_nil {visited : List Bytes32} {depth : Nat} :
    Walkable visited depth [] ↔ depth ≤ maxWrappedDepth :=
  ⟨fun h => h.depth_le, fun h => ⟨h, fun _ hp => absurd hp List.not_mem_nil, List.nodup_nil⟩⟩

theorem walkable_cons {visited : List Bytes32} {depth : Nat} {p : Bytes32} {a : Macaroon}
    {rest : List (Bytes32 × Macaroon)} : Walkable visited depth ((p, a) :: rest) ↔
      p ∉ visited ∧ Walkable (p :: visited) (depth + 1) rest := by
  constructor
  · intro h
    obtain ⟨hdepth, hfresh, hnodup⟩ := h
    rw [List.map_cons, List.forall_mem_cons] at hfresh
    rw [List.map_cons, List.nodup_cons] at hnodup
    rw [List.length_cons] at hdepth
    refine ⟨hfresh.1, by omega, ?_, hnodup.2⟩
    intro q hq hmem
    rcases List.mem_cons.mp hmem with rfl | hvisited
    · exact hnodup.1 hq
    · exact hfresh.2 q hq hvisited
  · intro h
    obtain ⟨hp, hdepth, hfresh, hnodup⟩ := h
    refine ⟨by rw [List.length_cons]; omega, ?_, ?_⟩
    · rw [List.map_cons, List.forall_mem_cons]
      exact ⟨hp, fun q hq hmem => hfresh q hq (List.mem_cons_of_mem p hmem)⟩
    · rw [List.map_cons, List.nodup_cons]
      exact ⟨fun hmem => hfresh p hmem List.mem_cons_self, hnodup⟩

/-- **The collecting loop** succeeds on a walkable lineage, with its caveats in
walk order. -/
theorem collectLoop_eq_ok_iff {catalog : CapabilityCatalog} {visited : List Bytes32}
    {out res : List Caveat} {m : Macaroon} {depth : Nat} :
    collectLoop catalog visited out m depth = .ok res ↔
      ∃ links, Lineage catalog m links ∧ Walkable visited depth links ∧
        res = out ++ links.flatMap (·.2.caveats) := by
  fun_induction collectLoop catalog visited out m depth with
  | case1 visited out m depth hdepth =>
    refine iff_of_false (fun h => nomatch h) ?_
    intro h
    obtain ⟨links, -, hwalk, -⟩ := h
    have hle := hwalk.depth_le
    omega
  | case2 visited out m depth hdepth hnone =>
    constructor
    · intro h
      refine ⟨[], .root hnone, walkable_nil.mpr (by omega), ?_⟩
      rw [List.flatMap_nil, List.append_nil]
      exact (Except.ok.inj h).symm
    · intro h
      obtain ⟨links, hlin, -, rfl⟩ := h
      obtain rfl := hlin.unique (.root hnone)
      rw [List.flatMap_nil, List.append_nil]
  | case3 visited out m depth hdepth p hp hvisited =>
    refine iff_of_false (fun h => nomatch h) ?_
    intro h
    obtain ⟨links, hlin, hwalk, -⟩ := h
    obtain ⟨a, rest, -, -, rfl⟩ := hlin.of_parent hp
    exact (walkable_cons.mp hwalk).1 hvisited
  | case4 visited out m depth hdepth p hp hvisited hlookup =>
    refine iff_of_false (fun h => nomatch h) ?_
    intro h
    obtain ⟨links, hlin, -, -⟩ := h
    obtain ⟨a, rest, ha, -, -⟩ := hlin.of_parent hp
    rw [hlookup] at ha
    cases ha
  | case5 visited out m depth hdepth p hp hvisited a hlookup ih =>
    rw [ih]
    constructor
    · intro h
      obtain ⟨links, hlin, hwalk, rfl⟩ := h
      refine ⟨(p, a) :: links, .link hp hlookup hlin, walkable_cons.mpr ⟨hvisited, hwalk⟩, ?_⟩
      rw [List.flatMap_cons, List.append_assoc]
    · intro h
      obtain ⟨links, hlin, hwalk, rfl⟩ := h
      obtain ⟨a', rest, ha, hrest, rfl⟩ := hlin.of_parent hp
      obtain rfl := Option.some.inj (hlookup.symm.trans ha)
      refine ⟨rest, hrest, (walkable_cons.mp hwalk).2, ?_⟩
      rw [List.flatMap_cons, List.append_assoc]

/-- The checking loop is the collecting loop with its output thrown away. -/
theorem checkLoop_eq_map (catalog : CapabilityCatalog) (visited : List Bytes32) (out : List Caveat)
    (m : Macaroon) (depth : Nat) :
    checkLoop catalog visited m depth = (collectLoop catalog visited out m depth).map fun _ => () := by
  fun_induction collectLoop catalog visited out m depth with
  | case1 visited out m depth hdepth => rw [checkLoop, if_pos hdepth]; rfl
  | case2 visited out m depth hdepth hnone => rw [checkLoop, if_neg hdepth, hnone]; rfl
  | case3 visited out m depth hdepth p hp hvisited =>
    rw [checkLoop, if_neg hdepth, hp]
    dsimp only
    rw [if_pos hvisited]
    rfl
  | case4 visited out m depth hdepth p hp hvisited hlookup =>
    rw [checkLoop, if_neg hdepth, hp]
    dsimp only
    rw [if_neg hvisited, hlookup]
    rfl
  | case5 visited out m depth hdepth p hp hvisited a hlookup ih =>
    rw [checkLoop, if_neg hdepth, hp]
    dsimp only
    rw [if_neg hvisited, hlookup]
    exact ih

theorem checkWrappedChain_eq_ok_iff {catalog : CapabilityCatalog} {m : Macaroon} :
    checkWrappedChain m catalog = .ok () ↔
      ∃ links, Lineage catalog m links ∧ Walkable [m.id] 1 links := by
  unfold checkWrappedChain
  rw [checkLoop_eq_map catalog [m.id] [] m 1]
  constructor
  · intro h
    cases hcollect : collectLoop catalog [m.id] [] m 1 with
    | error e => rw [hcollect] at h; cases h
    | ok res =>
      obtain ⟨links, hlin, hwalk, -⟩ := collectLoop_eq_ok_iff.mp hcollect
      exact ⟨links, hlin, hwalk⟩
  · intro h
    obtain ⟨links, hlin, hwalk⟩ := h
    rw [collectLoop_eq_ok_iff.mpr ⟨links, hlin, hwalk, rfl⟩]
    rfl

theorem collectChainCaveats_eq_ok_iff {catalog : CapabilityCatalog} {m : Macaroon}
    {cs : List Caveat} : collectChainCaveats m catalog = .ok cs ↔
      ∃ links, Lineage catalog m links ∧ Walkable [m.id] 1 links ∧
        cs = m.caveats ++ links.flatMap (·.2.caveats) :=
  collectLoop_eq_ok_iff

/-! ## The new token -/

/-- **What `extend_chain` returns**, whatever the token it is given. -/
theorem extendChain_eq_ok {m m' : Macaroon} {c : Caveat} (h : extendChain P m c = .ok m') :
    ∃ e id, m' = { m.push c e with id := id } ∧ computeCapabilityId P m' = some id := by
  unfold extendChain at h
  obtain ⟨last, -, h⟩ := run_bind_eq_ok.mp h
  obtain ⟨prev, -, h⟩ := run_bind_eq_ok.mp h
  obtain ⟨msg, -, h⟩ := run_bind_eq_ok.mp h
  unfold withId at h
  obtain ⟨id, hid, h⟩ := run_bind_eq_ok.mp h
  rw [orPanic_eq_ok] at hid
  obtain rfl := Except.ok.inj h
  exact ⟨_, id, rfl, hid⟩

theorem extendChain_caveats {m m' : Macaroon} {c : Caveat} (h : extendChain P m c = .ok m') :
    m'.caveats = m.caveats ++ [c] := by
  obtain ⟨e, id, rfl, -⟩ := extendChain_eq_ok h
  rfl

theorem checkRaw_eq_ok_iff {catalog : CapabilityCatalog} {c : Caveat} :
    checkRaw catalog c = .ok () ↔ rawRegistered catalog.isRawNameRegistered c = true := by
  cases c <;> try exact iff_of_true rfl rfl
  case raw r =>
    unfold checkRaw rawRegistered
    dsimp only
    by_cases hreg : catalog.isRawNameRegistered r.name = true
    · rw [if_pos hreg]
      exact iff_of_true rfl hreg
    · rw [if_neg hreg]
      exact iff_of_false (fun h => nomatch h) hreg

/-- **When `attenuate` succeeds.** -/
theorem attenuate_eq_ok_iff {m m' : Macaroon} {c : Caveat} {catalog : CapabilityCatalog} :
    attenuate P m c catalog = .ok m' ↔ rawRegistered catalog.isRawNameRegistered c = true ∧
      checkWrappedChain m catalog = .ok () ∧ extendChain P m c = .ok m' ∧
      (c.wrappedParent.isSome → checkWrappedChain m' catalog = .ok ()) := by
  have hlast : ∀ next, extendChain P m c = .ok next →
      next.caveats.getLast?.bind Caveat.wrappedParent = c.wrappedParent := by
    intro next hnext
    rw [extendChain_caveats hnext, List.getLast?_concat, Option.bind_some]
  unfold attenuate
  rw [run_bind_eq_ok, ← checkRaw_eq_ok_iff]
  constructor
  · intro h
    obtain ⟨⟨⟩, hraw, h⟩ := h
    obtain ⟨⟨⟩, hcheck, h⟩ := run_bind_eq_ok.mp h
    obtain ⟨next, hnext, h⟩ := run_bind_eq_ok.mp h
    rw [hlast next hnext] at h
    split at h
    · obtain ⟨⟨⟩, hpost, h⟩ := run_bind_eq_ok.mp h
      obtain rfl := Except.ok.inj h
      exact ⟨hraw, hcheck, hnext, fun _ => hpost⟩
    next hnot =>
      obtain rfl := Except.ok.inj h
      exact ⟨hraw, hcheck, hnext, fun hsome => absurd hsome hnot⟩
  · intro h
    obtain ⟨hraw, hcheck, hnext, hpost⟩ := h
    refine ⟨(), hraw, run_bind_eq_ok.mpr ⟨(), hcheck, run_bind_eq_ok.mpr ⟨m', hnext, ?_⟩⟩⟩
    rw [hlast m' hnext]
    split
    next hsome => rw [hpost hsome, ok_bind]
    · rfl

/-! ## Taking caveats back -/

/-- The tokens minted under a secret and attenuated, each time under some
catalog. -/
inductive Produced (P : Primitives) (secret : Bytes32) : Macaroon → Prop
  | mint {nonce m} (h : mint P secret nonce = .ok m) : Produced P secret m
  | attenuate {m c catalog m'} (hm : Produced P secret m)
      (h : attenuate P m c catalog = .ok m') : Produced P secret m'

theorem Produced.issued {secret : Bytes32} {m : Macaroon} (h : Produced P secret m) :
    ∃ t, Issued P m secret t := by
  induction h with
  | @mint nonce m h =>
    obtain ⟨m₀, t, hmint, hissued, -⟩ := mint_eq P secret nonce
    obtain rfl : m₀ = m := Except.ok.inj (hmint.symm.trans h)
    exact ⟨t, hissued⟩
  | attenuate _ h ih =>
    obtain ⟨t, hissued⟩ := ih
    obtain ⟨-, t', -, -, hissued'⟩ := hissued.extend (attenuate_eq_ok_iff.mp h).2.2.1
    exact ⟨t', hissued'⟩

/-- The first `k` caveats, and the chain entries up to theirs. -/
def Macaroon.truncate (m : Macaroon) (k : Nat) : Macaroon :=
  { m with caveats := m.caveats.take k, chain := m.chain.take (k + 1) }

/-- What a holder can do with the public fields: cut the token back, and compute
the id of what is left. -/
def strip (P : Primitives) (m : Macaroon) (k : Nat) : Run MacaroonError Macaroon :=
  withId P (m.truncate k)

/-- A prefix of a derived chain is the derived chain of the prefix: each entry
depends on the ones before it only, and the token carries them all. -/
theorem Derived.truncate {m : Macaroon} {secret : Bytes32} {t : ChainState}
    (h : Derived P m secret t []) (k : Nat) : ∃ u, Derived P (m.truncate k) secret u [] := by
  obtain ⟨tail, hrun, hchain⟩ := h.chain
  obtain ⟨u, hu⟩ := Transcript.run_take hrun k
  refine ⟨u, h.secretHash, tail.take k, hu, ?_⟩
  unfold Macaroon.truncate
  dsimp only
  rw [hchain, List.append_nil, List.take_succ_cons, List.append_nil]

theorem Issued.strip_eq_ok {secret : Bytes32} {m : Macaroon} {t : ChainState}
    (h : Issued P m secret t) (k : Nat) : ∃ m', strip P m k = .ok m' ∧
      m'.caveats = m.caveats.take k ∧ verifySignature P m' secret = .ok () := by
  obtain ⟨u, hu⟩ := h.derived.truncate k
  obtain ⟨heq, hissued⟩ := withId_of_derived hu h.attestation
  exact ⟨_, heq, rfl, hissued.verifies⟩

/-- **Every attenuation can be undone by the holder.** -/
theorem strip_accepted {secret : Bytes32} {m : Macaroon} (h : Produced P secret m) {k : Nat}
    (hk : k < m.caveats.length) :
    ∃ m', strip P m k = .ok m' ∧ m'.caveats = m.caveats.take k ∧
      m'.caveats.length < m.caveats.length ∧ verifySignature P m' secret = .ok () := by
  obtain ⟨t, hissued⟩ := h.issued
  obtain ⟨m', hstrip, hcav, hverify⟩ := hissued.strip_eq_ok k
  refine ⟨m', hstrip, hcav, ?_, hverify⟩
  rw [hcav, List.length_take]
  omega

/-- A caveat that serialises can be appended to any issued token. -/
theorem Issued.exists_extended {secret : Bytes32} {m : Macaroon} {t : ChainState} {c : Caveat}
    (h : Issued P m secret t) (hc : (lengthPrefixed P c).isSome) :
    ∃ m' t', extendChain P m c = .ok m' ∧ Issued P m' secret t' := by
  obtain ⟨ser, hser⟩ := Option.isSome_iff_exists.mp hc
  obtain ⟨msg, hmsg⟩ := caveatMsg_eq_some hser
  have hext := h.extendChain_eq_ok.mpr ⟨_, _, chainLink_of_eq_some hmsg hser t, rfl⟩
  obtain ⟨-, t', -, -, hissued⟩ := h.extend hext
  exact ⟨_, t', hext, hissued⟩

def emptyCatalog : CapabilityCatalog := ⟨fun _ => none, fun _ => false⟩

/-- A token minted and given a deadline. -/
theorem exists_sample_deadline : ∃ m m' t t',
    mint samplePrimitives sampleSecret (Vector.replicate 16 2) = .ok m ∧
    Issued samplePrimitives m sampleSecret t ∧ m.caveats = [] ∧
    checkWrappedChain m emptyCatalog = .ok () ∧
    attenuate samplePrimitives m (.before 100) emptyCatalog = .ok m' ∧
    Issued samplePrimitives m' sampleSecret t' ∧ m'.caveats = [.before 100] := by
  obtain ⟨m, t, hmint, hissued, hcav, -⟩ :=
    mint_eq samplePrimitives sampleSecret (Vector.replicate 16 2)
  obtain ⟨m', t', hext, hissued'⟩ := hissued.exists_extended (c := .before 100) rfl
  have hcheck : checkWrappedChain m emptyCatalog = .ok () := by
    refine checkWrappedChain_eq_ok_iff.mpr ⟨[], .root ?_, walkable_nil.mpr (by decide)⟩
    rw [Macaroon.parentCapability, hcav]
    rfl
  refine ⟨m, m', t, t', hmint, hissued, hcav, hcheck,
    attenuate_eq_ok_iff.mpr ⟨rfl, hcheck, hext, fun h => nomatch h⟩, hissued', ?_⟩
  rw [extendChain_caveats hext, hcav]
  rfl

theorem strip_accepted_deadline : ∃ m m' stripped,
    mint samplePrimitives sampleSecret (Vector.replicate 16 2) = .ok m ∧
    attenuate samplePrimitives m (.before 100) emptyCatalog = .ok m' ∧
    0 < m'.caveats.length ∧ strip samplePrimitives m' 0 = .ok stripped ∧
    verifySignature samplePrimitives stripped sampleSecret = .ok () := by
  obtain ⟨m, m', -, -, hmint, -, -, -, hatt, -, hcav⟩ := exists_sample_deadline
  have hpos : 0 < m'.caveats.length := by
    rw [hcav]
    exact Nat.one_pos
  obtain ⟨stripped, hstrip, -, -, hverify⟩ :=
    strip_accepted (.attenuate (.mint hmint) hatt) hpos
  exact ⟨m, m', stripped, hmint, hatt, hpos, hstrip, hverify⟩

/-- The deadline is gone, and the token still verifies. -/
theorem deadline_stripped : ∃ m m' stripped,
    mint samplePrimitives sampleSecret (Vector.replicate 16 2) = .ok m ∧
    attenuate samplePrimitives m (.before 100) emptyCatalog = .ok m' ∧
    m'.caveats = [.before 100] ∧ strip samplePrimitives m' 0 = .ok stripped ∧
    stripped.caveats = [] ∧ verifySignature samplePrimitives stripped sampleSecret = .ok () := by
  obtain ⟨m, m', -, t', hmint, -, -, -, hatt, hissued, hcav⟩ := exists_sample_deadline
  obtain ⟨stripped, hstrip, hnone, hverify⟩ := hissued.strip_eq_ok 0
  rw [List.take_zero] at hnone
  exact ⟨m, m', stripped, hmint, hatt, hcav, hstrip, hnone, hverify⟩

/-! ## The lineage of the new token -/

/-- The id is one of those the walk from the token meets. -/
def Ancestor (catalog : CapabilityCatalog) (m : Macaroon) (p : Bytes32) : Prop :=
  ∃ links, Lineage catalog m links ∧ p ∈ links.map Prod.fst

/-- A parent of the token, near or far, carries the caveat. -/
def Inherits (catalog : CapabilityCatalog) (m : Macaroon) (d : Caveat) : Prop :=
  ∃ links, Lineage catalog m links ∧ ∃ l ∈ links, d ∈ l.2.caveats

theorem parentCapability_push {m m' : Macaroon} {c : Caveat}
    (h : m'.caveats = m.caveats ++ [c]) :
    m'.parentCapability = c.wrappedParent.or m.parentCapability := by
  unfold Macaroon.parentCapability
  rw [h, List.reverse_append, List.reverse_singleton, List.singleton_append, List.findSome?_cons]
  cases c.wrappedParent <;> rfl

/-- A lineage depends on the parent named, and on nothing else of the token. -/
theorem Lineage.congr {catalog : CapabilityCatalog} {m m' : Macaroon}
    {links : List (Bytes32 × Macaroon)} (h : Lineage catalog m links)
    (heq : m'.parentCapability = m.parentCapability) : Lineage catalog m' links := by
  cases h with
  | root hnone => exact .root (heq.trans hnone)
  | link hp ha hrest => exact .link (heq.trans hp) ha hrest

/-- Under a new id, a walkable lineage stays walkable unless it meets that id. -/
theorem Walkable.under {id id' : Bytes32} {links : List (Bytes32 × Macaroon)}
    (h : Walkable [id] 1 links) : Walkable [id'] 1 links ↔ id' ∉ links.map Prod.fst := by
  constructor
  · intro h' hmem
    exact h'.fresh id' hmem (List.mem_singleton.mpr rfl)
  · intro hnot
    refine ⟨h.depth_le, ?_, h.nodup⟩
    intro p hp hmem
    obtain rfl := List.mem_singleton.mp hmem
    exact hnot hp

/-- The lineage of a token attenuated with a caveat that names no parent. -/
theorem walkable_push_iff {catalog : CapabilityCatalog} {m m' : Macaroon} {c : Caveat}
    {links : List (Bytes32 × Macaroon)} (hcav : m'.caveats = m.caveats ++ [c])
    (hc : c.wrappedParent = none) (hlin : Lineage catalog m links) (hwalk : Walkable [m.id] 1 links) :
    Lineage catalog m' links ∧ (Walkable [m'.id] 1 links ↔ ¬Ancestor catalog m m'.id) := by
  have hparent : m'.parentCapability = m.parentCapability := by
    rw [parentCapability_push hcav, hc, Option.none_or]
  refine ⟨hlin.congr hparent, hwalk.under.trans (not_congr ⟨fun h => ⟨links, hlin, h⟩, ?_⟩)⟩
  intro h
  obtain ⟨links', hlin', hmem⟩ := h
  rwa [hlin.unique hlin']

theorem Lineage.inherits_iff {catalog : CapabilityCatalog} {m : Macaroon}
    {links : List (Bytes32 × Macaroon)} (h : Lineage catalog m links) {d : Caveat} :
    Inherits catalog m d ↔ d ∈ links.flatMap (·.2.caveats) := by
  rw [List.mem_flatMap]
  constructor
  · intro h
    obtain ⟨links', hlin, hmem⟩ := h
    rwa [h.unique hlin]
  · intro hmem
    exact ⟨links, h, hmem⟩

/-- **When the inherited caveats are kept.** A caveat that names no parent keeps
them, unless the new token is its own ancestor. A `WrappedOnly` moves the walk
to the parent it names, and keeps them only if that lineage carries them too. -/
theorem inherited_kept_iff {m m' : Macaroon} {c : Caveat} {catalog : CapabilityCatalog}
    {cs : List Caveat} (ha : attenuate P m c catalog = .ok m')
    (hcs : collectChainCaveats m catalog = .ok cs) :
    (∃ cs', collectChainCaveats m' catalog = .ok cs' ∧ ∀ d ∈ cs, d ∈ cs') ↔
      (c.wrappedParent = none → ¬Ancestor catalog m m'.id) ∧
      ∀ q a, c.wrappedParent = some q → catalog.lookup q = some a →
        ∀ d, Inherits catalog m d →
          d ∈ m.caveats ∨ d = c ∨ d ∈ a.caveats ∨ Inherits catalog a d := by
  obtain ⟨-, -, hext, hpost⟩ := attenuate_eq_ok_iff.mp ha
  have hcav := extendChain_caveats hext
  obtain ⟨links, hlin, hwalk, rfl⟩ := collectChainCaveats_eq_ok_iff.mp hcs
  cases hparent : c.wrappedParent with
  | none =>
    obtain ⟨hlin', hiff⟩ := walkable_push_iff hcav hparent hlin hwalk
    constructor
    · intro h
      obtain ⟨cs', hcollect, -⟩ := h
      obtain ⟨links', hlin'', hwalk', -⟩ := collectChainCaveats_eq_ok_iff.mp hcollect
      obtain rfl := hlin'.unique hlin''
      exact ⟨fun _ => hiff.mp hwalk', fun q a hq => nomatch hq⟩
    · intro h
      obtain ⟨hnot, -⟩ := h
      refine ⟨_, collectChainCaveats_eq_ok_iff.mpr ⟨links, hlin', hiff.mpr (hnot rfl), rfl⟩, ?_⟩
      intro d hd
      rw [hcav, List.append_assoc, List.mem_append]
      rcases List.mem_append.mp hd with hown | hinherited
      · exact Or.inl hown
      · exact Or.inr (List.mem_append_right [c] hinherited)
  | some q =>
    -- the walk of the new token starts at `q` and leaves the old lineage
    have hq : m'.parentCapability = some q := by
      rw [parentCapability_push hcav, hparent, Option.some_or]
    obtain ⟨links', hlin', hwalk'⟩ := checkWrappedChain_eq_ok_iff.mp (hpost (by rw [hparent]; rfl))
    have hcollect := collectChainCaveats_eq_ok_iff.mpr ⟨links', hlin', hwalk', rfl⟩
    obtain ⟨a, rest, ha', hrest, rfl⟩ := hlin'.of_parent hq
    have hmem : ∀ d, d ∈ m'.caveats ++ ((q, a) :: rest).flatMap (·.2.caveats) ↔
        d ∈ m.caveats ∨ d = c ∨ d ∈ a.caveats ∨ Inherits catalog a d := by
      intro d
      rw [hrest.inherits_iff, hcav, List.flatMap_cons, List.mem_append, List.mem_append,
        List.mem_append, List.mem_singleton, or_assoc]
    constructor
    · intro h
      obtain ⟨cs', hcs', hsub⟩ := h
      obtain rfl := Except.ok.inj (hcollect.symm.trans hcs')
      refine ⟨(fun h => nomatch h), fun q' a' hq' ha'' d hd => ?_⟩
      obtain rfl := Option.some.inj hq'
      obtain rfl := Option.some.inj (ha'.symm.trans ha'')
      exact (hmem d).mp (hsub d (List.mem_append_right _ (hlin.inherits_iff.mp hd)))
    · intro h
      obtain ⟨-, hkept⟩ := h
      refine ⟨_, hcollect, fun d hd => (hmem d).mpr ?_⟩
      rcases List.mem_append.mp hd with hown | hinherited
      · exact Or.inl hown
      · exact hkept q a rfl ha' d (hlin.inherits_iff.mpr hinherited)

/-! Two parents: one carries a vault, the other nothing. -/

/-- The sample hashes with digests that start in `0xb3`. -/
def taggedPrimitives : Primitives :=
  { samplePrimitives with
    blake3 := fun bytes =>
      ofBytes (0xb3 :: Bytes.toBe 31 bytes.length) (congrArg (· + 1) (Bytes.length_toBe 31 _)) }

def vaultParent : Bytes32 := Vector.replicate 32 1

def bareParent : Bytes32 := Vector.replicate 32 2

def vaultCaveat : Caveat := .vault (Vector.replicate 32 9)

def parentToken (cs : List Caveat) : Macaroon :=
  { mintFields taggedPrimitives sampleSecret (Vector.replicate 16 3) with caveats := cs }

def twoParents : CapabilityCatalog where
  lookup := fun id =>
    if id = vaultParent then some (parentToken [vaultCaveat])
    else if id = bareParent then some (parentToken [])
    else none
  isRawNameRegistered := fun _ => false

theorem tagged_ne {bytes : List UInt8} {n : UInt8} (h : n ≠ 0xb3) :
    taggedPrimitives.blake3 bytes ≠ Vector.replicate 32 n := by
  intro heq
  have hlist := congrArg (fun v : Bytes32 => v.toList.head?) heq
  unfold taggedPrimitives at hlist
  dsimp only at hlist
  rw [toList_ofBytes, Vector.toList_replicate, List.replicate_succ, List.head?_cons,
    List.head?_cons] at hlist
  exact h (Option.some.inj hlist).symm

theorem twoParents_vault : twoParents.lookup vaultParent = some (parentToken [vaultCaveat]) := by
  unfold twoParents
  dsimp only
  rw [if_pos rfl]

theorem twoParents_bare : twoParents.lookup bareParent = some (parentToken []) := by
  unfold twoParents
  dsimp only
  rw [if_neg (by decide), if_pos rfl]

/-- The lineage of a token whose last caveat wraps one of the two. -/
theorem twoParents_lineage {m : Macaroon} {p : Bytes32} {cs : List Caveat}
    (hm : m.parentCapability = some p) (hp : twoParents.lookup p = some (parentToken cs))
    (hcs : cs.reverse.findSome? Caveat.wrappedParent = none) :
    Lineage twoParents m [(p, parentToken cs)] :=
  .link hm hp (.root hcs)

theorem walkable_one {p id : Bytes32} {a : Macaroon} (h : id ≠ p) : Walkable [id] 1 [(p, a)] :=
  walkable_cons.mpr ⟨fun hmem => h (List.mem_singleton.mp hmem).symm, walkable_nil.mpr (by decide)⟩

/-- A token that wraps the vault's parent, attenuated to wrap the other. -/
theorem exists_rewrapped : ∃ m m',
    build taggedPrimitives sampleSecret (Vector.replicate 16 2) [.wrappedOnly vaultParent] = .ok m ∧
    attenuate taggedPrimitives m (.wrappedOnly bareParent) twoParents = .ok m' ∧
    collectChainCaveats m twoParents = .ok [.wrappedOnly vaultParent, vaultCaveat] ∧
    collectChainCaveats m' twoParents
      = .ok [.wrappedOnly vaultParent, .wrappedOnly bareParent] := by
  obtain ⟨m, hbuild⟩ := (build_isOk_iff taggedPrimitives sampleSecret (Vector.replicate 16 2)
    [.wrappedOnly vaultParent]).mpr (by rw [List.forall_mem_singleton]; rfl)
  obtain ⟨⟨t, hissued⟩, hcav, -⟩ := build_issued hbuild
  obtain ⟨m', t', hext, hissued'⟩ := hissued.exists_extended (c := .wrappedOnly bareParent) rfl
  have hcav' := extendChain_caveats hext
  -- neither token has the id of a parent
  have hid : m.id ≠ vaultParent := by
    rw [hissued.id, hissued.derived.id_eq]
    exact tagged_ne (by decide)
  have hid' : m'.id ≠ bareParent := by
    rw [hissued'.id, hissued'.derived.id_eq]
    exact tagged_ne (by decide)
  have hlin : Lineage twoParents m [(vaultParent, parentToken [vaultCaveat])] := by
    refine twoParents_lineage ?_ twoParents_vault rfl
    rw [Macaroon.parentCapability, hcav]
    rfl
  have hlin' : Lineage twoParents m' [(bareParent, parentToken [])] := by
    refine twoParents_lineage ?_ twoParents_bare rfl
    rw [parentCapability_push hcav']
    rfl
  have hcheck := checkWrappedChain_eq_ok_iff.mpr ⟨_, hlin, walkable_one hid⟩
  have hcheck' := checkWrappedChain_eq_ok_iff.mpr ⟨_, hlin', walkable_one hid'⟩
  refine ⟨m, m', hbuild, attenuate_eq_ok_iff.mpr ⟨rfl, hcheck, hext, fun _ => hcheck'⟩,
    collectChainCaveats_eq_ok_iff.mpr ⟨_, hlin, walkable_one hid, ?_⟩,
    collectChainCaveats_eq_ok_iff.mpr ⟨_, hlin', walkable_one hid', ?_⟩⟩
  · rw [hcav]
    rfl
  · rw [hcav', hcav]
    rfl

theorem inherited_kept_iff_rewrapped : ∃ m m' cs,
    attenuate taggedPrimitives m (.wrappedOnly bareParent) twoParents = .ok m' ∧
    collectChainCaveats m twoParents = .ok cs ∧
    ¬∀ q a, (Caveat.wrappedOnly bareParent).wrappedParent = some q → twoParents.lookup q = some a →
      ∀ d, Inherits twoParents m d →
        d ∈ m.caveats ∨ d = .wrappedOnly bareParent ∨ d ∈ a.caveats ∨ Inherits twoParents a d := by
  obtain ⟨m, m', -, hatt, hcs, hcs'⟩ := exists_rewrapped
  refine ⟨m, m', _, hatt, hcs, fun hkept => ?_⟩
  obtain ⟨cs', hcollect, hsub⟩ := (inherited_kept_iff hatt hcs).mpr ⟨(fun h => nomatch h), hkept⟩
  obtain rfl := Except.ok.inj (hcs'.symm.trans hcollect)
  have hmem := hsub vaultCaveat (List.mem_cons_of_mem _ (List.mem_singleton.mpr rfl))
  simp [vaultCaveat] at hmem

/-- The vault that the token inherited is gone. -/
theorem vault_shed : ∃ m m' cs cs',
    attenuate taggedPrimitives m (.wrappedOnly bareParent) twoParents = .ok m' ∧
    collectChainCaveats m twoParents = .ok cs ∧ collectChainCaveats m' twoParents = .ok cs' ∧
    vaultCaveat ∈ cs ∧ vaultCaveat ∉ cs' := by
  obtain ⟨m, m', -, hatt, hcs, hcs'⟩ := exists_rewrapped
  refine ⟨m, m', _, _, hatt, hcs, hcs', List.mem_cons_of_mem _ (List.mem_singleton.mpr rfl), ?_⟩
  simp [vaultCaveat]

end CipherOcto.Cap
