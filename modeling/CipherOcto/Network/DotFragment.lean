import CipherOcto.Lib.SortedMap
import CipherOcto.Lib.PaddedTree
import CipherOcto.Encoding.Constraint

/-!
# Envelope fragments

`fragment_envelope` cuts a payload into blocks of what a platform's message
leaves beside a header, and numbers them. `reassemble_fragments` puts fragments
into a map by number and takes its values in order, so the order of arrival does
not matter, and it asks for as many fragments as the first of them says there
are, so a part of the fragments is never taken for the whole.

`Numbered` is what the fragments of one payload have in common: the envelope, and
the numbers of their positions. What is said of reassembly is said of such lists.
-/

namespace CipherOcto.Network

open Encoding

/-! ## The code -/

inductive PlatformLimit where
  | irc
  | lora
  | telegram
  | custom (n : Nat)

/-- `max_bytes`. -/
def PlatformLimit.maxBytes : PlatformLimit → Nat
  | .irc => 512
  | .lora => 256
  | .telegram => 4096
  | .custom n => n

structure EnvelopeFragment where
  envelopeHash : Bytes32
  envelopeId : Bytes32
  fragmentIndex : Nat
  fragmentTotal : Nat
  payload : List UInt8
deriving DecidableEq

/-- `FRAGMENT_HEADER_BYTES`. -/
def fragmentHeaderBytes : Nat := 68

inductive FragmentError where
  | payloadTooLarge (payloadSize maxAllowed : Nat)
  | indexOutOfRange (index total : Nat)
  | zeroFragmentTotal
  | integrityMismatch (expected actual : Bytes32)
  | reassemblyTimeout (received total : Nat)
  | payloadHashMismatch (envelopeHash computedHash : Bytes32)
  | totalMismatch (expected actual : Nat)
deriving DecidableEq

/-- `u16::MAX`. -/
def u16Max : Nat := 65535

/-- The ceiling division of `fragment_envelope`, with its overflow check. -/
def fragmentTotal (payload : List UInt8) (maxPayload : Nat) : Except FragmentError Nat :=
  if payload.isEmpty then .ok 1
  else
    let rawCount := (payload.length + maxPayload - 1) / maxPayload
    if rawCount > u16Max then
      .error (.payloadTooLarge payload.length (maxPayload * u16Max))
    else .ok (rawCount % 2 ^ 16)

/-- `fragment_envelope`. -/
def fragmentEnvelope (envelopeHash envelopeId : Bytes32) (payload : List UInt8)
    (platform : PlatformLimit) : Except FragmentError (List EnvelopeFragment) :=
  let maxTotal := platform.maxBytes
  if maxTotal ≤ fragmentHeaderBytes then .error (.payloadTooLarge payload.length 0)
  else
    let maxPayload := maxTotal - fragmentHeaderBytes
    match fragmentTotal payload maxPayload with
    | .error e => .error e
    | .ok total =>
      if total = 0 then .error .zeroFragmentTotal
      else if payload.isEmpty then .ok [⟨envelopeHash, envelopeId, 0, total, []⟩]
      else
        .ok ((PaddedTree.chunks maxPayload payload).mapIdx fun i chunk =>
          ⟨envelopeHash, envelopeId, i % 2 ^ 16, total, chunk⟩)

/-- What the validation loop of `reassemble_fragments` finds wrong with a fragment. -/
def invalid (total : Nat) (envelopeHash envelopeId : Bytes32) (f : EnvelopeFragment) :
    Option FragmentError :=
  if f.fragmentIndex ≥ total then some (.indexOutOfRange f.fragmentIndex total)
  else if f.envelopeHash ≠ envelopeHash then
    some (.integrityMismatch envelopeHash f.envelopeHash)
  else if f.envelopeId ≠ envelopeId then some (.integrityMismatch envelopeId f.envelopeId)
  else none

/-- `reassemble_fragments`. -/
def reassembleFragments (blake3 : List UInt8 → Bytes32) (fragments : List EnvelopeFragment) :
    Except FragmentError (List UInt8) :=
  match fragments with
  | [] => .error .zeroFragmentTotal
  | first :: _ =>
    let total := first.fragmentTotal
    if total = 0 then .error .zeroFragmentTotal
    else
      match fragments.findSome? (invalid total first.envelopeHash first.envelopeId) with
      | some e => .error e
      | none =>
        if fragments.length ≠ total then .error (.reassemblyTimeout fragments.length total)
        else
          let map := SortedMap.ofList (fragments.map fun f => (f.fragmentIndex, f.payload))
          let result := map.values.flatten
          let computed := blake3 result
          if computed ≠ first.envelopeHash then
            .error (.payloadHashMismatch first.envelopeHash computed)
          else .ok result

/-- The marks `fragments_complete` sets, in the order of the fragments. -/
def markSeen (total : Nat) (seen : List Bool) (fragments : List EnvelopeFragment) : List Bool :=
  fragments.foldl
    (fun seen f => if f.fragmentIndex < total then seen.set f.fragmentIndex true else seen) seen

/-- `fragments_complete`. -/
def fragmentsComplete (fragments : List EnvelopeFragment) : Bool :=
  match fragments with
  | [] => false
  | first :: _ =>
    let total := first.fragmentTotal
    if fragments.length ≠ total then false
    else (markSeen total (List.replicate total false) fragments).all id

/-! ## Fragments of one payload -/

section Number

variable (hash id : Bytes32)

/-- The fragments of the parts of a payload, by position. -/
def number (parts : List (List UInt8)) : List EnvelopeFragment :=
  parts.mapIdx fun i part => ⟨hash, id, i, parts.length, part⟩

/-- The parts of a payload: the blocks that fit, or one empty part. -/
def pieces (maxPayload : Nat) (payload : List UInt8) : List (List UInt8) :=
  if payload.isEmpty then [[]] else PaddedTree.chunks maxPayload payload

/-- How many fragments a payload needs. -/
def needed (maxPayload : Nat) (payload : List UInt8) : Nat :=
  max 1 ((payload.length + maxPayload - 1) / maxPayload)

variable {hash id} {parts : List (List UInt8)}

theorem length_number : (number hash id parts).length = parts.length := List.length_mapIdx

theorem mem_number {f : EnvelopeFragment} (h : f ∈ number hash id parts) :
    f.envelopeHash = hash ∧ f.envelopeId = id ∧ f.fragmentIndex < parts.length ∧
      f.fragmentTotal = parts.length ∧ f.payload ∈ parts := by
  obtain ⟨i, hi, rfl⟩ := List.mem_mapIdx.mp h
  exact ⟨rfl, rfl, hi, rfl, List.getElem_mem hi⟩

theorem map_index_number :
    (number hash id parts).map (·.fragmentIndex) = List.range parts.length := by
  refine List.ext_getElem ?_ fun i _ _ => ?_
  · rw [List.length_map, length_number, List.length_range]
  · simp only [number, List.getElem_map, List.getElem_mapIdx, List.getElem_range]

/-- A ceiling division of something is at least one. -/
theorem one_le_ceil {a m : Nat} (hm : 0 < m) (ha : a ≠ 0) : 1 ≤ (a + m - 1) / m :=
  (Nat.one_le_div_iff hm).mpr (by omega)

theorem length_pieces {m : Nat} (hm : 0 < m) (payload : List UInt8) :
    (pieces m payload).length = needed m payload := by
  unfold pieces needed
  split
  next hempty =>
    rw [List.isEmpty_iff.mp hempty]
    have hzero : (0 + m - 1) / m = 0 := Nat.div_eq_of_lt (by omega)
    rw [List.length_nil, hzero]
    rfl
  next hsome =>
    have hne : payload.length ≠ 0 := fun h => hsome (List.isEmpty_iff_length_eq_zero.mpr h)
    rw [PaddedTree.chunks, List.length_map, List.length_range,
      Nat.max_eq_right (one_le_ceil hm hne)]

theorem flatten_pieces {m : Nat} (hm : 0 < m) (payload : List UInt8) :
    (pieces m payload).flatten = payload := by
  unfold pieces
  split
  next hempty => exact (List.isEmpty_iff.mp hempty).symm
  next => exact PaddedTree.flatten_chunks hm payload

theorem length_le_of_mem_pieces {m : Nat} {payload part : List UInt8}
    (h : part ∈ pieces m payload) : part.length ≤ m := by
  unfold pieces at h
  split at h
  next =>
    rw [List.mem_singleton.mp h]
    exact Nat.zero_le m
  next => exact PaddedTree.length_le_of_mem_chunks h

theorem fragmentTotal_eq {m : Nat} (hm : 0 < m) (payload : List UInt8) :
    fragmentTotal payload m
      = if needed m payload > u16Max then .error (.payloadTooLarge payload.length (m * u16Max))
        else .ok (needed m payload) := by
  unfold fragmentTotal needed
  split
  next hempty =>
    rw [List.isEmpty_iff.mp hempty, List.length_nil, Nat.div_eq_of_lt (by omega)]
    rfl
  next hsome =>
    have hne : payload.length ≠ 0 := fun h => hsome (List.isEmpty_iff_length_eq_zero.mpr h)
    rw [Nat.max_eq_right (one_le_ceil hm hne)]
    dsimp only
    split
    next => rfl
    next hfits =>
      unfold u16Max at hfits
      rw [Nat.mod_eq_of_lt (by omega)]

/-- **Fragmentation** numbers the parts of the payload, where a message has room for
more than a header and the numbers fit. -/
theorem fragmentEnvelope_eq (hash id : Bytes32) (payload : List UInt8) (platform : PlatformLimit) :
    fragmentEnvelope hash id payload platform
      = if platform.maxBytes ≤ 68 then .error (.payloadTooLarge payload.length 0)
        else if needed (platform.maxBytes - 68) payload > u16Max then
          .error (.payloadTooLarge payload.length ((platform.maxBytes - 68) * u16Max))
        else .ok (number hash id (pieces (platform.maxBytes - 68) payload)) := by
  unfold fragmentEnvelope fragmentHeaderBytes
  dsimp only
  by_cases hroom : platform.maxBytes ≤ 68
  · rw [if_pos hroom, if_pos hroom]
  · have hm : 0 < platform.maxBytes - 68 := by omega
    rw [if_neg hroom, if_neg hroom]
    generalize platform.maxBytes - 68 = m at hm
    rw [fragmentTotal_eq hm]
    by_cases hlarge : needed m payload > u16Max
    · rw [if_pos hlarge, if_pos hlarge]
    · have hlen := length_pieces hm payload
      have hone : needed m payload ≠ 0 := by
        unfold needed
        omega
      rw [if_neg hlarge, if_neg hlarge]
      dsimp only
      rw [if_neg hone, ← hlen]
      unfold pieces at hlen ⊢
      split
      next => rfl
      next hsome =>
        rw [if_neg hsome] at hlen
        refine congrArg Except.ok (List.mapIdx_eq_mapIdx_iff.mpr fun i hi => ?_)
        -- below the limit the cast of an index is the index
        have hcast : i % 2 ^ 16 = i := Nat.mod_eq_of_lt (by unfold u16Max at hlarge; omega)
        rw [hcast]

end Number

/-! ## Completeness -/

theorem markSeen_cons (total : Nat) (seen : List Bool) (f : EnvelopeFragment)
    (fs : List EnvelopeFragment) :
    markSeen total seen (f :: fs)
      = markSeen total (if f.fragmentIndex < total then seen.set f.fragmentIndex true else seen) fs :=
  rfl

/-- A place is marked at the end if it was, or if a fragment has its number. -/
theorem markSeen_getElem? {total i : Nat} {seen : List Bool} (hlen : seen.length = total)
    (hi : i < total) (fs : List EnvelopeFragment) :
    (markSeen total seen fs)[i]? = some true ↔
      seen[i]? = some true ∨ ∃ f ∈ fs, f.fragmentIndex = i := by
  induction fs generalizing seen with
  | nil => simp [markSeen]
  | cons f fs ih =>
    rw [markSeen_cons]
    by_cases hf : f.fragmentIndex < total
    · rw [if_pos hf, ih ((List.length_set ..).trans hlen), List.exists_mem_cons_iff]
      by_cases heq : f.fragmentIndex = i
      · rw [heq, List.getElem?_set_self (by omega)]
        simp
      · rw [List.getElem?_set_ne heq]
        simp [heq]
    · have hne : f.fragmentIndex ≠ i := by omega
      rw [if_neg hf, ih hlen, List.exists_mem_cons_iff]
      simp [hne]

theorem length_markSeen (total : Nat) (seen : List Bool) (fs : List EnvelopeFragment) :
    (markSeen total seen fs).length = seen.length := by
  induction fs generalizing seen with
  | nil => rfl
  | cons f fs ih =>
    rw [markSeen_cons, ih]
    split
    next => exact List.length_set ..
    next => rfl

/-- Fragments are complete when there are as many as the first says there are, and
every number below that is there. -/
theorem fragmentsComplete_cons {f : EnvelopeFragment} {fs : List EnvelopeFragment} :
    fragmentsComplete (f :: fs) = true ↔
      (f :: fs).length = f.fragmentTotal ∧
        ∀ i < f.fragmentTotal, ∃ g ∈ f :: fs, g.fragmentIndex = i := by
  unfold fragmentsComplete
  dsimp only
  split
  next hlen => exact iff_of_false (fun h => nomatch h) fun h => hlen h.1
  next hlen =>
    rw [not_not] at hlen
    rw [List.all_eq_true, and_iff_right hlen]
    generalize hseen : List.replicate f.fragmentTotal false = seen
    have hlength : seen.length = f.fragmentTotal := by rw [← hseen, List.length_replicate]
    have hfalse : ∀ i : Nat, seen[i]? ≠ some true := by
      intro i h
      have hmem := List.mem_of_getElem? h
      rw [← hseen] at hmem
      cases List.eq_of_mem_replicate hmem
    constructor
    · intro hall i hi
      have hget : (markSeen f.fragmentTotal seen (f :: fs))[i]? = some true := by
        have hlt : i < (markSeen f.fragmentTotal seen (f :: fs)).length := by
          rw [length_markSeen, hlength]
          exact hi
        rw [List.getElem?_eq_getElem hlt]
        exact congrArg some (hall _ (List.getElem_mem hlt))
      exact ((markSeen_getElem? hlength hi _).mp hget).resolve_left (hfalse i)
    · intro hall x hx
      obtain ⟨i, hlt, rfl⟩ := List.mem_iff_getElem.mp hx
      have hi : i < f.fragmentTotal := by
        rw [length_markSeen, hlength] at hlt
        exact hlt
      have hget := (markSeen_getElem? hlength hi _).mpr (Or.inr (hall i hi))
      rw [List.getElem?_eq_getElem hlt, Option.some.injEq] at hget
      exact hget

/-! ## Reassembly -/

section Reassemble

variable {blake3 : List UInt8 → Bytes32} {hash id : Bytes32} {parts : List (List UInt8)}

/-- The map the parts of a payload make. -/
def partsMap (parts : List (List UInt8)) : SortedMap Nat (List UInt8) where
  entries := parts.mapIdx fun i part => (i, part)
  sorted := by
    refine List.pairwise_iff_getElem.mpr fun i j hi hj hlt => ?_
    simp only [List.getElem_mapIdx]
    exact hlt

theorem values_partsMap : (partsMap parts).values = parts := by
  unfold SortedMap.values partsMap
  refine List.ext_getElem ?_ fun i _ _ => ?_
  · rw [List.length_map, List.length_mapIdx]
  · rw [List.getElem_map, List.getElem_mapIdx]

theorem map_entry_number :
    (number hash id parts).map (fun f => (f.fragmentIndex, f.payload))
      = (partsMap parts).entries := by
  unfold number partsMap
  refine List.ext_getElem ?_ fun i _ _ => ?_
  · rw [List.length_map, List.length_mapIdx, List.length_mapIdx]
  · simp only [List.getElem_map, List.getElem_mapIdx]

theorem invalid_of_mem_number {f : EnvelopeFragment} (h : f ∈ number hash id parts) :
    invalid parts.length hash id f = none := by
  obtain ⟨hhash, hid, hindex, -, -⟩ := mem_number h
  unfold invalid
  rw [if_neg (by omega), if_neg (not_not.mpr hhash), if_neg (not_not.mpr hid)]

/-- Of fragments of one payload, reassembly asks for as many as it has parts, and
for the right hash. -/
theorem reassemble_of_subset {f : EnvelopeFragment} {fs : List EnvelopeFragment}
    (hsub : ∀ g ∈ f :: fs, g ∈ number hash id parts) :
    reassembleFragments blake3 (f :: fs)
      = if (f :: fs).length ≠ parts.length then
          .error (.reassemblyTimeout (f :: fs).length parts.length)
        else
          let result := (SortedMap.ofList
            ((f :: fs).map fun g => (g.fragmentIndex, g.payload))).values.flatten
          if blake3 result ≠ hash then .error (.payloadHashMismatch hash (blake3 result))
          else .ok result := by
  obtain ⟨hhash, hid, hindex, htotal, -⟩ := mem_number (hsub f List.mem_cons_self)
  have hvalid : (f :: fs).findSome? (invalid parts.length hash id) = none := by
    rw [List.findSome?_eq_none_iff]
    exact fun g hg => invalid_of_mem_number (hsub g hg)
  unfold reassembleFragments
  dsimp only
  rw [hhash, hid, htotal, hvalid, if_neg (by omega)]

/-- Any order of the fragments gives the payload. -/
theorem reassemble_perm {gs : List EnvelopeFragment} (hne : parts ≠ [])
    (hperm : gs.Perm (number (blake3 parts.flatten) id parts)) :
    reassembleFragments blake3 gs = .ok parts.flatten := by
  have hlen : gs.length = parts.length := hperm.length_eq.trans length_number
  cases gs with
  | nil => exact absurd (List.eq_nil_of_length_eq_zero hlen.symm) hne
  | cons f fs =>
    -- the map is that of the parts, in whatever order they were put in
    have hmap : SortedMap.ofList ((f :: fs).map fun g => (g.fragmentIndex, g.payload))
        = partsMap parts := by
      refine SortedMap.ofList_eq ?_
      rw [← @map_entry_number (blake3 parts.flatten) id parts]
      exact hperm.map _
    rw [reassemble_of_subset fun g hg => hperm.mem_iff.mp hg, if_neg (not_not.mpr hlen), hmap,
      values_partsMap]
    exact if_neg (not_not.mpr rfl)

theorem complete_perm {gs : List EnvelopeFragment} (hne : parts ≠ [])
    (hperm : gs.Perm (number hash id parts)) : fragmentsComplete gs = true := by
  have hlen : gs.length = parts.length := hperm.length_eq.trans length_number
  cases gs with
  | nil => exact absurd (List.eq_nil_of_length_eq_zero hlen.symm) hne
  | cons f fs =>
    obtain ⟨-, -, -, htotal, -⟩ := mem_number (hperm.mem_iff.mp List.mem_cons_self)
    rw [fragmentsComplete_cons, htotal]
    refine ⟨hlen, fun i hi => ?_⟩
    have hmem : i ∈ (number hash id parts).map (·.fragmentIndex) := by
      rw [map_index_number]
      exact List.mem_range.mpr hi
    obtain ⟨g, hg, rfl⟩ := List.mem_map.mp hmem
    exact ⟨g, hperm.mem_iff.mpr hg, rfl⟩

/-- A part of the fragments is never taken for the whole. -/
theorem incomplete_of_subperm {gs : List EnvelopeFragment} (hsub : gs.Subperm (number hash id parts))
    (hproper : ¬gs.Perm (number hash id parts)) :
    fragmentsComplete gs = false ∧ ∃ e, reassembleFragments blake3 gs = .error e := by
  have hshort : gs.length ≠ parts.length := by
    intro hlen
    exact hproper (hsub.perm_of_length_le (by rw [length_number, hlen]))
  cases gs with
  | nil => exact ⟨rfl, .zeroFragmentTotal, rfl⟩
  | cons f fs =>
    obtain ⟨-, -, -, htotal, -⟩ := mem_number (hsub.subset List.mem_cons_self)
    constructor
    · rw [← Bool.not_eq_true, fragmentsComplete_cons, htotal]
      exact fun h => hshort h.1
    · rw [reassemble_of_subset fun g hg => hsub.subset hg, if_pos hshort]
      exact ⟨_, rfl⟩

end Reassemble

/-- **Fragments make up their payload.** Fragmenting fails exactly where a message
has no room beside the header or more than `65535` fragments would be needed.
Otherwise every fragment fits, the fragments are numbered by their positions,
any order of them is complete and reassembles to the payload, and no proper part
of them is complete or reassembles to anything. -/
theorem fragment_roundtrip (blake3 : List UInt8 → Bytes32) (id : Bytes32) (payload : List UInt8)
    (platform : PlatformLimit) :
    ((∃ e, fragmentEnvelope (blake3 payload) id payload platform = .error e) ↔
      platform.maxBytes ≤ 68 ∨ 65535 < needed (platform.maxBytes - 68) payload) ∧
    ∀ fs, fragmentEnvelope (blake3 payload) id payload platform = .ok fs →
      (∀ f ∈ fs, f.payload.length ≤ platform.maxBytes - 68 ∧ f.fragmentTotal = fs.length) ∧
      fs.map (·.fragmentIndex) = List.range fs.length ∧
      (∀ gs, gs.Perm fs →
        fragmentsComplete gs = true ∧ reassembleFragments blake3 gs = .ok payload) ∧
      (∀ gs, gs.Subperm fs → ¬gs.Perm fs →
        fragmentsComplete gs = false ∧ ∃ e, reassembleFragments blake3 gs = .error e) := by
  rw [fragmentEnvelope_eq]
  by_cases hroom : platform.maxBytes ≤ 68
  · rw [if_pos hroom]
    exact ⟨iff_of_true ⟨_, rfl⟩ (Or.inl hroom), fun fs h => nomatch h⟩
  · rw [if_neg hroom]
    have hm : 0 < platform.maxBytes - 68 := by omega
    generalize platform.maxBytes - 68 = m at hm
    by_cases hlarge : needed m payload > u16Max
    · rw [if_pos hlarge]
      exact ⟨iff_of_true ⟨_, rfl⟩ (Or.inr hlarge), fun fs h => nomatch h⟩
    · rw [if_neg hlarge]
      refine ⟨iff_of_false (fun h => ?_) (fun h => ?_), ?_⟩
      · obtain ⟨e, he⟩ := h
        cases he
      · exact h.elim hroom hlarge
      · intro fs hfs
        cases hfs
        -- even an empty payload has a fragment
        have hne : pieces m payload ≠ [] := by
          intro hnil
          have hlen := length_pieces hm payload
          unfold needed at hlen
          rw [hnil, List.length_nil] at hlen
          omega
        have hflat := flatten_pieces hm payload
        refine ⟨fun f hf => ?_, ?_, fun gs hperm => ?_, fun gs => incomplete_of_subperm⟩
        · obtain ⟨-, -, -, htotal, hpart⟩ := mem_number hf
          exact ⟨length_le_of_mem_pieces hpart, htotal.trans length_number.symm⟩
        · rw [map_index_number, length_number]
        · refine ⟨complete_perm hne hperm, ?_⟩
          have hok := @reassemble_perm blake3 id (pieces m payload) gs hne
          rw [hflat] at hok
          exact hok hperm

end CipherOcto.Network
