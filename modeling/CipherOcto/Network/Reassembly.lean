import CipherOcto.Network.DotFragment
import CipherOcto.Lib.Machine
import CipherOcto.Lib.Trace

/-!
# Reassembly as the fragments arrive

`ReassemblyState` is made from the first fragment that arrives and takes the others one by
one. Each of these is compared with fragment 0, which is read out of the map by an index
expression, so that a state that was not made from fragment 0 panics at the next arrival,
whichever fragment that is.

`Collects` says that the map holds what has arrived. Among fragments of one payload that is
all there is to know of the state.

> `reassembles_iff`: any order of arrivals is reassembled iff it starts with fragment 0, or
> has nothing after the first.
-/

namespace CipherOcto.Network

open Encoding Machine Trace

/-! ## The code -/

structure ReassemblyState where
  fragments : SortedMap Nat EnvelopeFragment
  fragmentTotal : Nat
  startedAt : Nat

namespace ReassemblyState

/-- `ReassemblyState::new`. -/
def new (fragment : EnvelopeFragment) (now : Nat) : ReassemblyState where
  fragments := SortedMap.empty.insert fragment.fragmentIndex fragment
  fragmentTotal := fragment.fragmentTotal
  startedAt := now

/-- `add_fragment`. -/
def addFragment (s : ReassemblyState) (fragment : EnvelopeFragment) :
    Run FragmentError Bool × ReassemblyState :=
  if fragment.fragmentTotal ≠ s.fragmentTotal then
    (.error (.err (.totalMismatch s.fragmentTotal fragment.fragmentTotal)), s)
  else if fragment.fragmentIndex ≥ s.fragmentTotal then
    (.error (.err (.indexOutOfRange fragment.fragmentIndex s.fragmentTotal)), s)
  else
    -- `self.fragments[&0]`
    match s.fragments.lookup 0 with
    | none => (.error .panic, s)
    | some zeroth =>
      if fragment.envelopeHash ≠ zeroth.envelopeHash then
        (.error (.err (.integrityMismatch zeroth.envelopeHash fragment.envelopeHash)), s)
      else if fragment.envelopeId ≠ zeroth.envelopeId then
        (.error (.err (.integrityMismatch zeroth.envelopeId fragment.envelopeId)), s)
      else
        let fragments := s.fragments.insert fragment.fragmentIndex fragment
        (.ok (decide (fragments.entries.length = s.fragmentTotal)), { s with fragments })

/-- `is_expired`; the timeout in seconds. -/
def isExpired (s : ReassemblyState) (now timeout : Nat) : Bool :=
  now - s.startedAt ≥ timeout

/-- `finalize`. -/
def finalize (blake3 : List UInt8 → Bytes32) (s : ReassemblyState) :
    Except FragmentError (List UInt8) :=
  reassembleFragments blake3 s.fragments.values

end ReassemblyState

/-! ## What has arrived -/

/-- Every number below `total` has arrived. -/
def HasAll (total : Nat) (arrived : List EnvelopeFragment) : Prop :=
  ∀ i < total, ∃ f ∈ arrived, f.fragmentIndex = i

instance (total : Nat) (arrived : List EnvelopeFragment) : Decidable (HasAll total arrived) :=
  inferInstanceAs (Decidable (∀ i < total, ∃ f ∈ arrived, f.fragmentIndex = i))

/-- Without a panic, each arrival is told whether it was the last one missing, and from then
on the payload is there. -/
structure Reassembles (blake3 : List UInt8 → Bytes32) (payload : List UInt8) (total now : Nat)
    (first : EnvelopeFragment) (rest : List EnvelopeFragment) : Prop where
  noPanic : ∀ answer ∈ trace ReassemblyState.addFragment (.new first now) rest,
    answer.2 ≠ .error .panic
  reports : ∀ past f, past ++ [f] <+: rest →
    ((final ReassemblyState.addFragment (.new first now) past).addFragment f).1 =
      .ok (decide (HasAll total (first :: past ++ [f])))
  finalize : ∀ past, past <+: rest → HasAll total (first :: past) →
    (final ReassemblyState.addFragment (.new first now) past).finalize blake3 = .ok payload

section

variable {hash id : Bytes32} {parts : List (List UInt8)} {arrived : List EnvelopeFragment}
  {s : ReassemblyState} {f : EnvelopeFragment}

/-- A fragment of a payload is known by its number. -/
theorem eq_of_index_eq {g : EnvelopeFragment} (hf : f ∈ number hash id parts)
    (hg : g ∈ number hash id parts) (h : f.fragmentIndex = g.fragmentIndex) : f = g := by
  obtain ⟨i, hi, rfl⟩ := List.mem_mapIdx.mp hf
  obtain ⟨j, hj, rfl⟩ := List.mem_mapIdx.mp hg
  obtain rfl : i = j := h
  rfl

/-- The state holds the fragments that have arrived, each under its number. -/
structure Collects (total : Nat) (arrived : List EnvelopeFragment) (s : ReassemblyState) :
    Prop where
  total : s.fragmentTotal = total
  entries : ∀ i g, (i, g) ∈ s.fragments.entries ↔ g ∈ arrived ∧ i = g.fragmentIndex

theorem collects_new (hf : f ∈ number hash id parts) (now : Nat) :
    Collects parts.length [f] (.new f now) where
  total := (mem_number hf).2.2.2.1
  entries i g := by
    show (i, g) ∈ [(f.fragmentIndex, f)] ↔ g ∈ [f] ∧ i = g.fragmentIndex
    rw [List.mem_singleton, List.mem_singleton, Prod.mk.injEq]
    constructor
    · rintro ⟨rfl, rfl⟩
      exact ⟨rfl, rfl⟩
    · rintro ⟨rfl, rfl⟩
      exact ⟨rfl, rfl⟩

/-- What has arrived, and one more. -/
theorem Collects.insert (h : Collects parts.length arrived s)
    (hsub : ∀ g ∈ arrived ++ [f], g ∈ number hash id parts) :
    Collects parts.length (arrived ++ [f])
      { s with fragments := s.fragments.insert f.fragmentIndex f } where
  total := h.total
  entries i g := by
    rw [SortedMap.mem_insert, h.entries, List.mem_append, List.mem_singleton, Prod.mk.injEq]
    constructor
    · rintro (⟨rfl, rfl⟩ | ⟨⟨hg, rfl⟩, -⟩)
      · exact ⟨Or.inr rfl, rfl⟩
      · exact ⟨Or.inl hg, rfl⟩
    · rintro ⟨hg | rfl, rfl⟩
      · by_cases heq : g.fragmentIndex = f.fragmentIndex
        · -- what is overwritten was the same fragment
          have hsame : g = f := eq_of_index_eq (hsub g (List.mem_append_left _ hg))
            (hsub f (List.mem_append_right _ (List.mem_singleton_self f))) heq
          exact Or.inl ⟨heq, hsame⟩
        · exact Or.inr ⟨⟨hg, rfl⟩, heq⟩
      · exact Or.inl ⟨rfl, rfl⟩

/-- There are as many entries as parts iff every number has arrived. -/
theorem Collects.length_eq_iff (h : Collects parts.length arrived s)
    (hsub : ∀ g ∈ arrived, g ∈ number hash id parts) :
    s.fragments.entries.length = parts.length ↔ HasAll parts.length arrived := by
  have hlookup : ∀ k, (s.fragments.lookup k).isSome ↔
      k ∈ (arrived.map (·.fragmentIndex)).toFinset := by
    intro k
    rw [List.mem_toFinset, List.mem_map, Option.isSome_iff_exists]
    constructor
    · rintro ⟨g, hg⟩
      obtain ⟨hmem, rfl⟩ := (h.entries _ _).mp (SortedMap.lookup_eq_some_iff.mp hg)
      exact ⟨g, hmem, rfl⟩
    · rintro ⟨g, hmem, rfl⟩
      exact ⟨g, SortedMap.lookup_eq_some_iff.mpr ((h.entries _ _).mpr ⟨hmem, rfl⟩)⟩
  have hrange : (arrived.map (·.fragmentIndex)).toFinset ⊆ Finset.range parts.length := by
    intro k hk
    obtain ⟨g, hmem, rfl⟩ := List.mem_map.mp (List.mem_toFinset.mp hk)
    exact Finset.mem_range.mpr (mem_number (hsub g hmem)).2.2.1
  rw [SortedMap.length_eq_card hlookup]
  constructor
  · intro hcard i hi
    have heq := Finset.eq_of_subset_of_card_le hrange (by rw [Finset.card_range, hcard])
    have hmem : i ∈ (arrived.map (·.fragmentIndex)).toFinset := heq ▸ Finset.mem_range.mpr hi
    exact List.mem_map.mp (List.mem_toFinset.mp hmem)
  · intro hall
    have heq : (arrived.map (·.fragmentIndex)).toFinset = Finset.range parts.length := by
      refine Finset.Subset.antisymm hrange fun i hi => ?_
      exact List.mem_toFinset.mpr (List.mem_map.mpr (hall i (Finset.mem_range.mp hi)))
    rw [heq, Finset.card_range]

theorem Collects.values_subset (h : Collects parts.length arrived s)
    (hsub : ∀ g ∈ arrived, g ∈ number hash id parts) :
    ∀ g ∈ s.fragments.values, g ∈ number hash id parts := by
  intro g hg
  obtain ⟨e, he, rfl⟩ := List.mem_map.mp hg
  exact hsub _ ((h.entries e.1 e.2).mp he).1

/-- When every number has arrived, the map's values are the fragments. -/
theorem Collects.values_perm (h : Collects parts.length arrived s)
    (hsub : ∀ g ∈ arrived, g ∈ number hash id parts) (hall : HasAll parts.length arrived) :
    s.fragments.values.Perm (number hash id parts) := by
  have hkeys : s.fragments.values.map (·.fragmentIndex) = s.fragments.keys := by
    unfold SortedMap.values SortedMap.keys
    rw [List.map_map]
    exact List.map_congr_left fun e he => (((h.entries e.1 e.2).mp he).2).symm
  have hvalues : s.fragments.values.Nodup := by
    have hnodup := s.fragments.nodup_keys
    rw [← hkeys] at hnodup
    exact hnodup.of_map _
  have hnumber : (number hash id parts).Nodup := by
    have hnodup := List.nodup_range (n := parts.length)
    have hindices : (number hash id parts).map (·.fragmentIndex) = List.range parts.length :=
      map_index_number
    rw [← hindices] at hnodup
    exact hnodup.of_map _
  refine (List.perm_ext_iff_of_nodup hvalues hnumber).mpr fun g => ?_
  constructor
  · exact h.values_subset hsub g
  · intro hg
    obtain ⟨g', hg', hindex⟩ := hall _ (mem_number hg).2.2.1
    obtain rfl : g' = g := eq_of_index_eq (hsub g' hg') hg hindex
    exact List.mem_map.mpr ⟨(g'.fragmentIndex, g'), (h.entries _ _).mpr ⟨hg', rfl⟩, rfl⟩

/-- With fragment 0 among the arrivals, one more is taken in. -/
theorem Collects.addFragment (h : Collects parts.length arrived s) (hzero : HasAll 1 arrived)
    (hsub : ∀ g ∈ arrived ++ [f], g ∈ number hash id parts) :
    (s.addFragment f).1 = .ok (decide (HasAll parts.length (arrived ++ [f]))) ∧
      Collects parts.length (arrived ++ [f]) (s.addFragment f).2 := by
  obtain ⟨zeroth, hmem, hindex⟩ := hzero 0 Nat.one_pos
  obtain ⟨hhash, hid, hlt, htotal, -⟩ :=
    mem_number (hsub f (List.mem_append_right _ (List.mem_singleton_self f)))
  obtain ⟨hhash', hid', -⟩ := mem_number (hsub zeroth (List.mem_append_left _ hmem))
  have hlookup : s.fragments.lookup 0 = some zeroth :=
    SortedMap.lookup_eq_some_iff.mpr ((h.entries _ _).mpr ⟨hmem, hindex.symm⟩)
  have hnext := h.insert hsub
  have hstep : s.addFragment f =
      (.ok (decide ((s.fragments.insert f.fragmentIndex f).entries.length = s.fragmentTotal)),
        { s with fragments := s.fragments.insert f.fragmentIndex f }) := by
    unfold ReassemblyState.addFragment
    rw [h.total, if_neg (not_not.mpr htotal), if_neg (by omega), hlookup]
    dsimp only
    rw [if_neg (not_not.mpr (hhash.trans hhash'.symm)), if_neg (not_not.mpr (hid.trans hid'.symm))]
  rw [hstep]
  refine ⟨?_, hnext⟩
  rw [h.total]
  exact congrArg Except.ok (decide_eq_decide.mpr (hnext.length_eq_iff hsub))

/-- Without it, one more is a panic. -/
theorem addFragment_panics {first : EnvelopeFragment} (hfirst : first ∈ number hash id parts)
    (hindex : first.fragmentIndex ≠ 0) (hf : f ∈ number hash id parts) (now : Nat) :
    ((ReassemblyState.new first now).addFragment f).1 = .error .panic := by
  obtain ⟨-, -, hlt, htotal, -⟩ := mem_number hf
  have hcollects := collects_new hfirst now
  have hlookup : (ReassemblyState.new first now).fragments.lookup 0 = none := by
    refine Option.eq_none_iff_forall_ne_some.mpr fun g hg => ?_
    obtain ⟨hmem, hzero⟩ := (hcollects.entries _ _).mp (SortedMap.lookup_eq_some_iff.mp hg)
    rw [List.mem_singleton.mp hmem] at hzero
    exact hindex hzero.symm
  unfold ReassemblyState.addFragment
  rw [hcollects.total, if_neg (not_not.mpr htotal), if_neg (by omega), hlookup]

theorem hasAll_one {first : EnvelopeFragment} (h : first.fragmentIndex = 0)
    (past : List EnvelopeFragment) : HasAll 1 (first :: past) :=
  fun i hi => ⟨first, List.mem_cons_self, by omega⟩

/-- From fragment 0 on, the state collects what arrives. -/
theorem collects_run {first : EnvelopeFragment} {rest : List EnvelopeFragment}
    (hstart : first.fragmentIndex = 0 ∨ rest = []) (now : Nat)
    (hsub : ∀ g ∈ first :: rest, g ∈ number hash id parts) :
    Collects parts.length (first :: rest)
      (final ReassemblyState.addFragment (.new first now) rest) := by
  induction rest using List.reverseRecOn with
  | nil => exact collects_new (hsub first (List.mem_singleton_self first)) now
  | append_singleton past f ih =>
    have hindex : first.fragmentIndex = 0 :=
      hstart.resolve_right (List.append_ne_nil_of_right_ne_nil past (List.cons_ne_nil f []))
    have hpast : Collects parts.length (first :: past) _ :=
      ih (Or.inl hindex) fun g hg => hsub g (List.mem_append_left [f] hg)
    rw [final_append]
    exact (hpast.addFragment (hasAll_one hindex past) hsub).2

/-- From fragment 0 on, an arrival is answered by whether it was the last one missing. -/
theorem report_of_run {first : EnvelopeFragment} {past : List EnvelopeFragment}
    (hstart : first.fragmentIndex = 0 ∨ past ++ [f] = []) (now : Nat)
    (hsub : ∀ g ∈ first :: past ++ [f], g ∈ number hash id parts) :
    ((final ReassemblyState.addFragment (.new first now) past).addFragment f).1 =
      .ok (decide (HasAll parts.length (first :: past ++ [f]))) := by
  have hindex : first.fragmentIndex = 0 :=
    hstart.resolve_right (List.append_ne_nil_of_right_ne_nil past (List.cons_ne_nil f []))
  have hcollects := collects_run (Or.inl hindex) now
    fun g hg => hsub g (List.mem_append_left [f] hg)
  exact (hcollects.addFragment (hasAll_one hindex past) hsub).1

/-- What is reassembled has the hash that its fragments carry. -/
theorem hash_of_reassemble {blake3 : List UInt8 → Bytes32} {gs : List EnvelopeFragment}
    {payload : List UInt8} (hsub : ∀ g ∈ gs, g ∈ number hash id parts)
    (h : reassembleFragments blake3 gs = .ok payload) : blake3 payload = hash := by
  cases gs with
  | nil => cases h
  | cons f fs =>
    rw [reassemble_of_subset hsub] at h
    split at h
    next => cases h
    next =>
      dsimp only at h
      split at h
      next => cases h
      next hhash =>
        obtain rfl := Except.ok.inj h
        exact not_not.mp hhash

/-- Fragments are those of one part or more that make up the payload. -/
theorem fragmentEnvelope_eq_ok {payload : List UInt8} {platform : PlatformLimit}
    {fs : List EnvelopeFragment} (h : fragmentEnvelope hash id payload platform = .ok fs) :
    ∃ parts, parts ≠ [] ∧ parts.flatten = payload ∧ fs = number hash id parts := by
  rw [fragmentEnvelope_eq] at h
  split at h
  next => cases h
  next hroom =>
    split at h
    next => cases h
    next =>
      have hm : 0 < platform.maxBytes - 68 := by omega
      refine ⟨_, fun hnil => ?_, flatten_pieces hm payload, (Except.ok.inj h).symm⟩
      have hlen := length_pieces hm payload
      unfold needed at hlen
      rw [hnil, List.length_nil] at hlen
      omega

end

/-- **The order of arrival** does not matter after fragment 0: arrivals are reassembled iff
that is the first of them, or the only one is not, and the envelope was hashed right. -/
theorem reassembles_iff (blake3 : List UInt8 → Bytes32) (hash id : Bytes32) (payload : List UInt8)
    (platform : PlatformLimit) (now : Nat) {fs : List EnvelopeFragment}
    (hfs : fragmentEnvelope hash id payload platform = .ok fs) {first : EnvelopeFragment}
    {rest : List EnvelopeFragment} (hsub : ∀ f ∈ first :: rest, f ∈ fs) :
    Reassembles blake3 payload fs.length now first rest ↔
      (first.fragmentIndex = 0 ∨ rest = []) ∧
        (HasAll fs.length (first :: rest) → blake3 payload = hash) := by
  obtain ⟨parts, hne, hflat, rfl⟩ := fragmentEnvelope_eq_ok hfs
  rw [length_number]
  have hfirst := hsub first List.mem_cons_self
  constructor
  · intro h
    have hstart : first.fragmentIndex = 0 ∨ rest = [] := by
      by_contra hnot
      obtain ⟨hindex, hsome⟩ := not_or.mp hnot
      obtain ⟨f, later, rfl⟩ := List.exists_cons_of_ne_nil hsome
      refine h.noPanic _ List.mem_cons_self ?_
      exact addFragment_panics hfirst hindex
        (hsub f (List.mem_cons_of_mem _ List.mem_cons_self)) now
    refine ⟨hstart, fun hall => ?_⟩
    have hvalues := (collects_run hstart now hsub).values_subset hsub
    exact hash_of_reassemble hvalues (h.finalize rest List.prefix_rfl hall)
  · rintro ⟨hstart, hhash⟩
    have hpast : ∀ past, past <+: rest → (first.fragmentIndex = 0 ∨ past = []) ∧
        ∀ g ∈ first :: past, g ∈ number hash id parts := by
      intro past hprefix
      refine ⟨hstart.imp_right fun hnil => ?_, fun g hg => hsub g ?_⟩
      · rw [hnil] at hprefix
        exact List.prefix_nil.mp hprefix
      · exact ((List.prefix_cons_inj first).mpr hprefix).subset hg
    have hreports : ∀ past f, past ++ [f] <+: rest →
        ((final ReassemblyState.addFragment (.new first now) past).addFragment f).1 =
          .ok (decide (HasAll parts.length (first :: past ++ [f]))) := by
      intro past f hprefix
      obtain ⟨hbegin, hmem⟩ := hpast _ hprefix
      exact report_of_run hbegin now hmem
    -- every step is answered by a report, which is not a panic
    have hanswered : Along ReassemblyState.addFragment
        (fun s f => (s.addFragment f).1 ≠ .error .panic) (.new first now) rest := by
      refine along_iff_forall_prefix.mpr fun past f hprefix => ?_
      rw [hreports past f hprefix]
      exact fun h => by cases h
    refine ⟨fun answer hanswer => ?_, hreports, fun past hprefix hall => ?_⟩
    · obtain ⟨s, hne, heq⟩ := exists_of_mem_trace hanswered hanswer
      rwa [← heq]
    · obtain ⟨hbegin, hmem⟩ := hpast _ hprefix
      have hcollects := collects_run hbegin now hmem
      have heq : hash = blake3 parts.flatten := by
        rw [hflat]
        refine (hhash fun i hi => ?_).symm
        obtain ⟨f, hf, hindex⟩ := hall i hi
        exact ⟨f, ((List.prefix_cons_inj first).mpr hprefix).subset hf, hindex⟩
      subst heq
      have hok := reassemble_perm hne (hcollects.values_perm hmem hall)
      rwa [hflat] at hok

/-- One of the two fragments of two bytes, under a hash that is all zeros. -/
def sampleFragment (index : Nat) (payload : List UInt8) : EnvelopeFragment :=
  ⟨Vector.replicate 32 0, Vector.replicate 32 0xAB, index, 2, payload⟩

/-- In order, and the second one twice. -/
theorem reassembles_in_order :
    Reassembles (fun _ => Vector.replicate 32 0) [1, 2] 2 0 (sampleFragment 0 [1])
      [sampleFragment 1 [2], sampleFragment 1 [2]] := by
  have hfs : fragmentEnvelope (Vector.replicate 32 0) (Vector.replicate 32 0xAB) [1, 2]
      (.custom 69) = .ok [sampleFragment 0 [1], sampleFragment 1 [2]] := by rfl
  exact (reassembles_iff (fun _ => Vector.replicate 32 0) _ _ _ _ 0 hfs (by decide)).mpr
    ⟨Or.inl rfl, fun _ => rfl⟩

/-- The second fragment first: the first one panics. -/
theorem second_first_panics :
    fragmentEnvelope (Vector.replicate 32 0) (Vector.replicate 32 0xAB) [1, 2] (.custom 69) =
        .ok [sampleFragment 0 [1], sampleFragment 1 [2]] ∧
      trace ReassemblyState.addFragment (.new (sampleFragment 1 [2]) 0) [sampleFragment 0 [1]] =
        [(sampleFragment 0 [1], .error .panic)] ∧
      ¬Reassembles (fun _ => Vector.replicate 32 0) [1, 2] 2 0 (sampleFragment 1 [2])
        [sampleFragment 0 [1]] := by
  have htrace : trace ReassemblyState.addFragment (.new (sampleFragment 1 [2]) 0)
      [sampleFragment 0 [1]] = [(sampleFragment 0 [1], .error .panic)] := by rfl
  refine ⟨by rfl, htrace, fun h => ?_⟩
  exact h.noPanic (sampleFragment 0 [1], .error .panic)
    (htrace ▸ List.mem_singleton_self _) rfl

end CipherOcto.Network
