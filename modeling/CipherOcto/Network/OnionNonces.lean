import CipherOcto.Network.Onion

/-!
# Nonces of the onion layers

`construct_onion` derives the key and the nonce of a layer from the route, the position and the
relay, and uses the pair twice: for the instruction block and for the payload of the layer. Two
plaintexts under one pair are harmless only if they are the same.

> `mem_recordOf`: what a sequence of calls encrypts.
> `instructionsOf_eq_layered`: no reuse inside a layer means that the layer wraps its own
> instruction block.
> `noncesOnce_iff`: over a sequence of calls, pairs are used once iff every onion has a single
> layer around its own instruction block, and onions under one key are equal.
-/

namespace CipherOcto.Network

open Encoding

/-- A call of `construct_onion`. -/
structure OnionCall where
  route : OnionRoute
  hops : List HopConstructionParams
  payload : List UInt8
  routeId : Bytes32

namespace Primitives

variable (C : Primitives)

/-- What is encrypted by a sequence of calls, whether they return or fail. -/
def recordOf : List OnionCall → List Invocation → List Invocation
  | [], record => record
  | call :: calls, record => recordOf calls
      ((C.constructOnion call.route call.hops call.payload call.routeId).outcome record).2

/-- No pair of key and nonce is used for two plaintexts. -/
def NoncesOnce (calls : List OnionCall) : Prop :=
  ∀ x ∈ C.recordOf calls [], ∀ y ∈ C.recordOf calls [],
    x.key = y.key → x.nonce = y.nonce → x.plaintext = y.plaintext

/-- What session keys are derived from in a sequence of calls. -/
def keyInputs (calls : List OnionCall) : Set (Bytes32 × Bytes32 × UInt16) :=
  {x | ∃ call ∈ calls, ∃ i hop, call.hops[i]? = some hop ∧
    x = (C.layerSecret call.routeId (UInt16.ofNat i) hop, call.routeId, UInt16.ofNat i)}

/-- Every onion is one layer around its own instruction block, and two onions of one route and
one shared secret carry the same. -/
structure SealsOneBlock (calls : List OnionCall) : Prop where
  single : ∀ call ∈ calls, Accepts call.route call.hops →
    ∃ hop, call.hops = [hop] ∧ call.payload = instructionsOf hop
  apart : ∀ c ∈ calls, ∀ d ∈ calls, Accepts c.route c.hops → Accepts d.route d.hops →
    ∀ hop hop', c.hops = [hop] → d.hops = [hop'] → c.routeId = d.routeId →
      C.layerSecret c.routeId 0 hop = C.layerSecret d.routeId 0 hop' → c.payload = d.payload

variable {C}

theorem constructOnion_record (h : C.LawfulCipher) (call : OnionCall) (record : List Invocation) :
    ((C.constructOnion call.route call.hops call.payload call.routeId).outcome record).2 =
      record ++ if Accepts call.route call.hops then
        C.invocations call.routeId call.payload 0 call.hops else [] := by
  by_cases haccepts : Accepts call.route call.hops
  · rw [if_pos haccepts, constructOnion_of_accepts haccepts, constructLayers_outcome h]
  · rw [if_neg haccepts, List.append_nil, constructOnion]
    split
    next => rfl
    next hne =>
      rw [if_pos fun hlen => haccepts ⟨hne, hlen⟩]
      rfl

/-- What a sequence of calls encrypts. -/
theorem mem_recordOf (h : C.LawfulCipher) {x : Invocation} :
    ∀ {calls : List OnionCall} {record : List Invocation}, x ∈ C.recordOf calls record ↔
      x ∈ record ∨ ∃ call ∈ calls, Accepts call.route call.hops ∧
        x ∈ C.invocations call.routeId call.payload 0 call.hops
  | [], record => by simp [recordOf]
  | call :: calls, record => by
    rw [recordOf, constructOnion_record h, mem_recordOf h, List.mem_append, or_assoc]
    by_cases haccepts : Accepts call.route call.hops
    · simp [haccepts]
    · simp [haccepts]

/-- No reuse inside a layer means that the layer wraps its own instruction block. -/
theorem instructionsOf_eq_layered {calls : List OnionCall} (h : C.LawfulCipher)
    (honce : C.NoncesOnce calls) {call : OnionCall} (hcall : call ∈ calls)
    (haccepts : Accepts call.route call.hops) (i : Nat) (hop : HopConstructionParams)
    (rest : List HopConstructionParams)
    (hlayer : ∀ x ∈ C.layerInvocations call.routeId (UInt16.ofNat i) hop
        (C.layered call.routeId call.payload (i + 1) rest),
      x ∈ C.invocations call.routeId call.payload 0 call.hops) :
    instructionsOf hop = C.layered call.routeId call.payload (i + 1) rest := by
  have hmem : ∀ x ∈ C.layerInvocations call.routeId (UInt16.ofNat i) hop
      (C.layered call.routeId call.payload (i + 1) rest), x ∈ C.recordOf calls [] :=
    fun x hx => (mem_recordOf h).mpr (Or.inr ⟨call, hcall, haccepts, hlayer x hx⟩)
  exact honce _ (hmem _ List.mem_cons_self) _ (hmem _ (List.mem_cons_of_mem _ List.mem_cons_self))
    rfl rfl

/-- An onion that reuses nothing has a single layer: the ciphertext that the entry layer wraps is
longer than an instruction block. -/
theorem single_of_noncesOnce {calls : List OnionCall} (h : C.LawfulCipher)
    (honce : C.NoncesOnce calls) {call : OnionCall} (hcall : call ∈ calls)
    (haccepts : Accepts call.route call.hops) :
    ∃ hop, call.hops = [hop] ∧ call.payload = instructionsOf hop := by
  obtain ⟨route, hops, payload, routeId⟩ := call
  have hblock : ∀ hop, (instructionsOf hop).length = nextHopInstructionsSize :=
    fun hop => length_buildNextHopInstructions _ _
  match hops with
  | [] => exact absurd rfl haccepts.1
  | [hop] =>
    refine ⟨hop, rfl, ?_⟩
    exact (instructionsOf_eq_layered h honce hcall haccepts 0 hop [] fun x hx =>
      List.mem_append_right _ hx).symm
  | entry :: second :: rest =>
    exfalso
    have houter := instructionsOf_eq_layered h honce hcall haccepts 0 entry (second :: rest)
      fun x hx => List.mem_append_right _ hx
    have hinner := instructionsOf_eq_layered h honce hcall haccepts 1 second rest
      fun x hx => List.mem_append_left _ (List.mem_append_right _ hx)
    have hlen := hblock entry
    rw [houter, layered, layerCiphertext, h.length_ciphertext, ← hinner, hblock] at hlen
    exact absurd hlen (by decide)

/-- The payload of a single layer is encrypted under the key of its hop. -/
theorem payload_mem_recordOf {calls : List OnionCall} (h : C.LawfulCipher) {call : OnionCall}
    (hcall : call ∈ calls) (haccepts : Accepts call.route call.hops) {hop : HopConstructionParams}
    (hhops : call.hops = [hop]) :
    ⟨C.layerKey call.routeId 0 hop, C.layerNonce call.routeId 0 hop, call.payload⟩ ∈
      C.recordOf calls [] := by
  refine (mem_recordOf h).mpr (Or.inr ⟨call, hcall, haccepts, ?_⟩)
  rw [hhops]
  exact List.mem_append_right _ (List.mem_cons_of_mem _ List.mem_cons_self)

/-- What a single layer around its own instruction block encrypts. -/
theorem mem_invocations_single {routeId : Bytes32} {hop : HopConstructionParams} {x : Invocation}
    (hx : x ∈ C.invocations routeId (instructionsOf hop) 0 [hop]) :
    x = ⟨C.layerKey routeId 0 hop, C.layerNonce routeId 0 hop, instructionsOf hop⟩ := by
  rcases List.mem_cons.mp hx with hfirst | hsecond
  · exact hfirst
  · exact List.mem_singleton.mp hsecond

theorem SealsOneBlock.noncesOnce {calls : List OnionCall} (h : C.LawfulCipher)
    (hkdf : Set.InjOn (fun x : Bytes32 × Bytes32 × UInt16 =>
      C.deriveHopSessionKey x.1 x.2.1 x.2.2) (C.keyInputs calls))
    (hseals : C.SealsOneBlock calls) : C.NoncesOnce calls := by
  intro x hx y hy hkey _
  rcases (mem_recordOf h).mp hx with hnil | ⟨c, hc, hcaccepts, hxc⟩
  · exact absurd hnil List.not_mem_nil
  rcases (mem_recordOf h).mp hy with hnil | ⟨d, hd, hdaccepts, hyd⟩
  · exact absurd hnil List.not_mem_nil
  obtain ⟨hop, hchops, hcpayload⟩ := hseals.single c hc hcaccepts
  obtain ⟨hop', hdhops, hdpayload⟩ := hseals.single d hd hdaccepts
  rw [hchops, hcpayload] at hxc
  rw [hdhops, hdpayload] at hyd
  have hxeq := mem_invocations_single hxc
  have hyeq := mem_invocations_single hyd
  rw [hxeq, hyeq] at hkey
  have hinput := hkdf ⟨c, hc, 0, hop, by rw [hchops]; rfl, rfl⟩
    ⟨d, hd, 0, hop', by rw [hdhops]; rfl, rfl⟩ hkey
  obtain ⟨hsecret, hrest⟩ := Prod.mk.inj hinput
  rw [hxeq, hyeq]
  show instructionsOf hop = instructionsOf hop'
  rw [← hcpayload, ← hdpayload]
  exact hseals.apart c hc d hd hcaccepts hdaccepts hop hop' hchops hdhops (Prod.mk.inj hrest).1
    hsecret

/-- **Pairs of key and nonce are used once iff** every onion is one layer around its own
instruction block, and onions of one route and one secret carry the same. -/
theorem noncesOnce_iff {calls : List OnionCall} (h : C.LawfulCipher)
    (hkdf : Set.InjOn (fun x : Bytes32 × Bytes32 × UInt16 =>
      C.deriveHopSessionKey x.1 x.2.1 x.2.2) (C.keyInputs calls)) :
    C.NoncesOnce calls ↔ C.SealsOneBlock calls := by
  refine ⟨fun honce => ⟨fun call hcall haccepts => single_of_noncesOnce h honce hcall haccepts, ?_⟩,
    fun hseals => hseals.noncesOnce h hkdf⟩
  intro c hc d hd hcaccepts hdaccepts hop hop' hchops hdhops hroute hsecret
  have hkey : C.layerKey c.routeId 0 hop = C.layerKey d.routeId 0 hop' := by
    rw [layerKey, layerKey, hsecret, hroute]
  refine honce _ (payload_mem_recordOf h hc hcaccepts hchops) _
    (payload_mem_recordOf h hd hdaccepts hdhops) hkey ?_
  show C.layerNonce c.routeId 0 hop = C.layerNonce d.routeId 0 hop'
  rw [layerNonce, layerNonce, hkey, hroute]

end Primitives

/-! ### Single layers -/

/-- The session keys of one call with one hop are derived from one input. -/
theorem keyInputs_subsingleton (C : Primitives) (route : OnionRoute) (hop : HopConstructionParams)
    (payload : List UInt8) (routeId : Bytes32) :
    (C.keyInputs [⟨route, [hop], payload, routeId⟩]).Subsingleton := by
  have hinput : ∀ x ∈ C.keyInputs [⟨route, [hop], payload, routeId⟩],
      x = (C.layerSecret routeId 0 hop, routeId, 0) := by
    rintro x ⟨call, hcall, i, hop', hi, rfl⟩
    obtain rfl := List.mem_singleton.mp hcall
    obtain ⟨rfl, rfl⟩ : i = 0 ∧ hop = hop' := by
      simpa [List.getElem?_singleton] using hi
    rfl
  intro x hx y hy
  rw [hinput x hx, hinput y hy]

/-- BLAKE3 and its keyed mode stand for nothing here, the rest does as it is documented. -/
def samplePrimitives : Primitives :=
  plainPrimitives (fun _ => Vector.replicate 32 0) fun key _ => key

def sampleCall (payload : List UInt8) : OnionCall :=
  ⟨⟨1⟩, [sampleHop], payload, Vector.replicate 32 0x42⟩

theorem noncesOnce_block :
    samplePrimitives.NoncesOnce [sampleCall (Primitives.instructionsOf sampleHop)] := by
  refine (Primitives.noncesOnce_iff (lawfulCipher_plainPrimitives _ _)
    ((keyInputs_subsingleton _ _ _ _ _).injOn _)).mpr ⟨?_, ?_⟩
  · intro call hcall _
    obtain rfl := List.mem_singleton.mp hcall
    exact ⟨sampleHop, rfl, rfl⟩
  · intro c hc d hd _ _ _ _ _ _ _ _
    rw [List.mem_singleton.mp hc, List.mem_singleton.mp hd]

/-- An empty payload is encrypted under the pair that the instruction block is. -/
theorem not_noncesOnce_empty :
    (Set.InjOn (fun x : Bytes32 × Bytes32 × UInt16 =>
        samplePrimitives.deriveHopSessionKey x.1 x.2.1 x.2.2)
      (samplePrimitives.keyInputs [sampleCall []])) ∧
      ¬samplePrimitives.NoncesOnce [sampleCall []] := by
  refine ⟨(keyInputs_subsingleton _ _ _ _ _).injOn _, fun honce => ?_⟩
  have haccepts : Primitives.Accepts (sampleCall []).route (sampleCall []).hops :=
    ⟨List.cons_ne_nil _ _, rfl⟩
  obtain ⟨hop, hhops, hpayload⟩ := Primitives.single_of_noncesOnce
    (lawfulCipher_plainPrimitives _ _) honce List.mem_cons_self haccepts
  have hlen := length_buildNextHopInstructions hop.nextGateway hop.transportVector
  rw [← Primitives.instructionsOf, ← hpayload] at hlen
  exact absurd hlen (by decide)

end CipherOcto.Network
