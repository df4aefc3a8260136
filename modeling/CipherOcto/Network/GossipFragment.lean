import CipherOcto.Lib.SortedMap
import CipherOcto.Lib.Trace
import CipherOcto.Encoding.Constraint

/-!
# Gossip fragments

The assembler keeps, for each object of which some but not all fragments have
come, the fragments it has. A fragment that completes its object takes the
assembly out and returns the payload; the first fragment of a new object is let
in only below a limit, which is asked before it is known whether the object is
complete at once.

A run is a list of deliveries of fragments of given objects. `delivered` is the
history of one object, and `Holds` says that the assemblies are what the history
says they are: `deliver_holds` carries it from one delivery to the next and gives
the answer to each from the history alone.
-/

namespace CipherOcto.Network

open Encoding

/-! ## The code -/

structure GossipFragment where
  objectHash : Bytes32
  fragmentIndex : Nat
  fragmentTotal : Nat
  payload : List UInt8

structure FragmentAssembly where
  total : Nat
  fragments : SortedMap Nat (List UInt8)
  startedAt : Nat
  payloadRoot : Bytes32

structure FragmentAssembler where
  assemblies : SortedMap Bytes32 FragmentAssembly
  maxAssemblies : Nat

/-- The errors of `add_fragment`. -/
inductive DgpError where
  | fragmentAssemblyFailed (objectHash : Bytes32) (reason : String)
  | payloadRootMismatch (objectHash expected actual : Bytes32)
  | duplicateFragment (objectHash : Bytes32) (index : Nat)
  | assemblerFull (maxAssemblies : Nat)
deriving DecidableEq

def indexReason (index total : Nat) : String :=
  s!"fragment_index {index} >= fragment_total {total}"

def totalReason (expected got : Nat) : String :=
  s!"fragment_total mismatch: expected {expected}, got {got}"

/-- The payload of a complete assembly, its fragments removed one by one. -/
def drain (fragments : SortedMap Nat (List UInt8)) (indices : List Nat) : List UInt8 :=
  match indices with
  | [] => []
  | i :: is =>
    match fragments.lookup i with
    | some payload => payload ++ drain (fragments.erase i) is
    | none => drain fragments is

namespace FragmentAssembler

/-- `new` and `with_max_assemblies`. -/
def new (maxAssemblies : Nat) : FragmentAssembler := ⟨.empty, maxAssemblies⟩

/-- `pending_count`. -/
def pendingCount (s : FragmentAssembler) : Nat := s.assemblies.entries.length

section

variable (blake3 : List UInt8 → Bytes32)

/-- The last check of `add_fragment`. -/
def verifyRoot (objectHash expected : Bytes32) (result : List UInt8) :
    Except DgpError (Option (List UInt8)) :=
  let actual := blake3 result
  if actual ≠ expected then .error (.payloadRootMismatch objectHash expected actual)
  else .ok (some result)

/-- `add_fragment`. -/
def addFragment (s : FragmentAssembler) (fragment : GossipFragment) (payloadRoot : Bytes32)
    (currentTime : Nat) : Except DgpError (Option (List UInt8)) × FragmentAssembler :=
  let hash := fragment.objectHash
  let index := fragment.fragmentIndex
  if index ≥ fragment.fragmentTotal then
    (.error (.fragmentAssemblyFailed hash (indexReason index fragment.fragmentTotal)), s)
  else
    match s.assemblies.lookup hash with
    | some assembly =>
      if assembly.total ≠ fragment.fragmentTotal then
        (.error (.fragmentAssemblyFailed hash (totalReason assembly.total fragment.fragmentTotal)), s)
      else if (assembly.fragments.lookup index).isSome then
        (.error (.duplicateFragment hash index), s)
      else
        let fragments := assembly.fragments.insert index fragment.payload
        if fragments.entries.length % 2 ^ 32 = assembly.total then
          (verifyRoot blake3 hash assembly.payloadRoot (drain fragments (List.range assembly.total)),
            { s with assemblies := s.assemblies.erase hash })
        else
          (.ok none,
            { s with assemblies := s.assemblies.insert hash { assembly with fragments := fragments } })
    | none =>
      if s.assemblies.entries.length ≥ s.maxAssemblies then
        (.error (.assemblerFull s.maxAssemblies), s)
      else
        let fragments := SortedMap.empty.insert index fragment.payload
        if fragments.entries.length % 2 ^ 32 = fragment.fragmentTotal then
          (verifyRoot blake3 hash payloadRoot (drain fragments (List.range fragment.fragmentTotal)), s)
        else
          (.ok none,
            { s with assemblies := s.assemblies.insert hash
                      ⟨fragment.fragmentTotal, fragments, currentTime, payloadRoot⟩ })

end

end FragmentAssembler

/-! ## Deliveries -/

structure Delivery where
  objectHash : Bytes32
  index : Nat
  time : Nat
deriving DecidableEq

section History

/-- The indices of one object that have been delivered. -/
def delivered (ds : List Delivery) (h : Bytes32) : Finset Nat :=
  ((ds.filter fun d => d.objectHash = h).map (·.index)).toFinset

variable (parts : Bytes32 → List (List UInt8))

/-- The indices of an object. -/
def indices (h : Bytes32) : Finset Nat := Finset.range (parts h).length

/-- The objects of which some but not all fragments have been delivered. -/
def pending (ds : List Delivery) : Finset Bytes32 :=
  (ds.map (·.objectHash)).toFinset.filter fun h => delivered ds h ≠ indices parts h

/-- A delivery after others: of a fragment of an object whose indices fit a `u32`,
which is new or which a pending assembly holds already. -/
structure Legal (before : List Delivery) (d : Delivery) : Prop where
  fits : (parts d.objectHash).length < 2 ^ 32
  index : d.index ∈ indices parts d.objectHash
  once : d.index ∈ delivered before d.objectHash → d.objectHash ∈ pending parts before

/-- Each delivery of a run meets the condition after the ones before it. -/
def AfterEach (P : List Delivery → Delivery → Prop) (ds : List Delivery) : Prop :=
  ∀ n d, ds[n]? = some d → P (ds.take n) d

/-- There is room for the first fragment of an object. -/
def HasRoom (maxAssemblies : Nat) (before : List Delivery) (d : Delivery) : Prop :=
  delivered before d.objectHash = ∅ → (pending parts before).card < maxAssemblies

/-- The call that delivers a fragment. -/
def deliver (blake3 : List UInt8 → Bytes32) (s : FragmentAssembler) (d : Delivery) :
    Except DgpError (Option (List UInt8)) × FragmentAssembler :=
  s.addFragment blake3
    ⟨d.objectHash, d.index, (parts d.objectHash).length, (parts d.objectHash).getD d.index []⟩
    (blake3 (parts d.objectHash).flatten) d.time

/-- What a delivery is answered, from the history. -/
def answerOf (before : List Delivery) (d : Delivery) : Except DgpError (Option (List UInt8)) :=
  if d.index ∈ delivered before d.objectHash then .error (.duplicateFragment d.objectHash d.index)
  else if insert d.index (delivered before d.objectHash) = indices parts d.objectHash then
    .ok (some (parts d.objectHash).flatten)
  else .ok none

end History

/-! ## One call -/

theorem drain_eq (fragments : SortedMap Nat (List UInt8)) {is : List Nat} (his : is.Nodup) :
    drain fragments is = is.flatMap fun i => (fragments.lookup i).getD [] := by
  induction is generalizing fragments with
  | nil => rfl
  | cons i is ih =>
    obtain ⟨hi, his⟩ := List.nodup_cons.mp his
    rw [drain, List.flatMap_cons]
    cases hlookup : fragments.lookup i with
    | none =>
      dsimp only
      rw [ih fragments his]
      rfl
    | some payload =>
      dsimp only
      rw [ih (fragments.erase i) his]
      refine congrArg (payload ++ ·) (List.flatMap_congr fun j hj => ?_)
      have hne : j ≠ i := fun h => hi (h ▸ hj)
      rw [SortedMap.lookup_erase, if_neg hne]

/-- A call that fails leaves the assemblies alone, unless a payload was put together
that has another root. -/
theorem addFragment_error {blake3 : List UInt8 → Bytes32} {s : FragmentAssembler}
    {fragment : GossipFragment} {payloadRoot : Bytes32} {currentTime : Nat} {e : DgpError}
    (h : (s.addFragment blake3 fragment payloadRoot currentTime).1 = .error e)
    (he : ∀ hash expected actual, e ≠ .payloadRootMismatch hash expected actual) :
    (s.addFragment blake3 fragment payloadRoot currentTime).2 = s := by
  have hroot : ∀ {hash expected : Bytes32} {result : List UInt8},
      FragmentAssembler.verifyRoot blake3 hash expected result ≠ .error e := by
    intro hash expected result hverify
    unfold FragmentAssembler.verifyRoot at hverify
    dsimp only at hverify
    split at hverify
    next => cases hverify; exact he _ _ _ rfl
    next => cases hverify
  unfold FragmentAssembler.addFragment at h ⊢
  dsimp only at h ⊢
  split
  next => rfl
  next hindex =>
    rw [if_neg hindex] at h
    split
    next assembly hlookup =>
      rw [hlookup] at h
      dsimp only at h
      split
      next => rfl
      next htotal =>
        rw [if_neg htotal] at h
        split
        next => rfl
        next hdup =>
          rw [if_neg hdup] at h
          split
          -- the assembly is gone here, but the only error left is the root's
          next hdone =>
            rw [if_pos hdone] at h
            exact absurd h hroot
          next hmore =>
            rw [if_neg hmore] at h
            cases h
    next hlookup =>
      rw [hlookup] at h
      dsimp only at h
      split
      next => rfl
      next hfull =>
        rw [if_neg hfull] at h
        split
        next => rfl
        next hmore =>
          rw [if_neg hmore] at h
          cases h

/-! ## Histories -/

section Holds

variable {blake3 : List UInt8 → Bytes32} {parts : Bytes32 → List (List UInt8)} {maxAssemblies : Nat}

theorem delivered_append (before : List Delivery) (d : Delivery) :
    delivered (before ++ [d])
      = Function.update (delivered before) d.objectHash
          (insert d.index (delivered before d.objectHash)) := by
  funext h
  unfold delivered
  rw [List.filter_append, List.map_append, List.toFinset_append]
  by_cases heq : h = d.objectHash
  · subst heq
    rw [Function.update_self, List.filter_cons_of_pos (by simp)]
    ext i
    simp
  · rw [Function.update_of_ne heq, List.filter_cons_of_neg (by simpa using Ne.symm heq)]
    simp

theorem mem_pending {ds : List Delivery} {h : Bytes32} :
    h ∈ pending parts ds ↔ (delivered ds h).Nonempty ∧ delivered ds h ≠ indices parts h := by
  unfold pending
  rw [Finset.mem_filter]
  refine and_congr ?_ Iff.rfl
  unfold delivered
  rw [List.mem_toFinset, List.mem_map, List.toFinset_nonempty_iff, Ne, List.map_eq_nil_iff,
    List.filter_eq_nil_iff]
  simp only [decide_eq_true_eq, not_forall, not_not, exists_prop]

/-- What an assembly of an object has when some of its indices have come. -/
structure Assembles (blake3 : List UInt8 → Bytes32) (parts : Bytes32 → List (List UInt8))
    (h : Bytes32) (D : Finset Nat) (a : FragmentAssembly) : Prop where
  total : a.total = (parts h).length
  root : a.payloadRoot = blake3 (parts h).flatten
  fragments : ∀ i, a.fragments.lookup i = if i ∈ D then some ((parts h).getD i []) else none

/-- The assemblies are those of the objects with some but not all indices, and hold
what has come. -/
structure Holds (blake3 : List UInt8 → Bytes32) (parts : Bytes32 → List (List UInt8))
    (maxAssemblies : Nat) (D : Bytes32 → Finset Nat) (s : FragmentAssembler) : Prop where
  limit : s.maxAssemblies = maxAssemblies
  subset : ∀ h, D h ⊆ indices parts h
  pending : ∀ h, (s.assemblies.lookup h).isSome ↔ (D h).Nonempty ∧ D h ≠ indices parts h
  assembly : ∀ h a, s.assemblies.lookup h = some a → Assembles blake3 parts h (D h) a

/-- A change at one object. -/
theorem Holds.update {D : Bytes32 → Finset Nat} {s s' : FragmentAssembler} {h : Bytes32}
    {D' : Finset Nat} (hs : Holds blake3 parts maxAssemblies D s)
    (hlimit : s'.maxAssemblies = s.maxAssemblies) (hsub : D' ⊆ indices parts h)
    (hother : ∀ h', h' ≠ h → s'.assemblies.lookup h' = s.assemblies.lookup h')
    (hpending : (s'.assemblies.lookup h).isSome ↔ D'.Nonempty ∧ D' ≠ indices parts h)
    (hassembly : ∀ a, s'.assemblies.lookup h = some a → Assembles blake3 parts h D' a) :
    Holds blake3 parts maxAssemblies (Function.update D h D') s' := by
  refine ⟨hlimit.trans hs.limit, fun h' => ?_, fun h' => ?_, fun h' a => ?_⟩
  · by_cases heq : h' = h
    · rw [heq, Function.update_self]
      exact hsub
    · rw [Function.update_of_ne heq]
      exact hs.subset h'
  · by_cases heq : h' = h
    · rw [heq, Function.update_self]
      exact hpending
    · rw [Function.update_of_ne heq, hother h' heq]
      exact hs.pending h'
  · by_cases heq : h' = h
    · rw [heq, Function.update_self]
      exact hassembly a
    · rw [Function.update_of_ne heq, hother h' heq]
      exact hs.assembly h' a

/-- An object with all its indices has no assembly. -/
theorem Holds.complete {D : Bytes32 → Finset Nat} {s s' : FragmentAssembler} {h : Bytes32}
    {D' : Finset Nat} (hs : Holds blake3 parts maxAssemblies D s)
    (hlimit : s'.maxAssemblies = s.maxAssemblies) (hall : D' = indices parts h)
    (hother : ∀ h', h' ≠ h → s'.assemblies.lookup h' = s.assemblies.lookup h')
    (hgone : s'.assemblies.lookup h = none) :
    Holds blake3 parts maxAssemblies (Function.update D h D') s' := by
  refine hs.update hlimit hall.le hother ?_ ?_
  · rw [hgone]
    exact iff_of_false (fun hfalse => nomatch hfalse) fun hand => hand.2 hall
  · intro a ha
    rw [hgone] at ha
    cases ha

/-- An object that still misses some has the assembly that is stored for it. -/
theorem Holds.store {D : Bytes32 → Finset Nat} {s : FragmentAssembler} {h : Bytes32}
    {D' : Finset Nat} {a : FragmentAssembly} (hs : Holds blake3 parts maxAssemblies D s)
    (hsub : D' ⊆ indices parts h) (hsome : D'.Nonempty) (hmiss : D' ≠ indices parts h)
    (ha : Assembles blake3 parts h D' a) :
    Holds blake3 parts maxAssemblies (Function.update D h D')
      { s with assemblies := s.assemblies.insert h a } := by
  have hstored : (s.assemblies.insert h a).lookup h = some a :=
    (SortedMap.lookup_insert ..).trans (if_pos rfl)
  refine hs.update rfl hsub (fun h' hne => (SortedMap.lookup_insert ..).trans (if_neg hne)) ?_ ?_
  · dsimp only
    rw [hstored]
    exact iff_of_true rfl ⟨hsome, hmiss⟩
  · intro a' ha'
    dsimp only at ha'
    rw [hstored] at ha'
    cases ha'
    exact ha

theorem Assembles.length {h : Bytes32} {D : Finset Nat} {a : FragmentAssembly}
    (ha : Assembles blake3 parts h D a) : a.fragments.entries.length = D.card := by
  refine SortedMap.length_eq_card fun i => ?_
  rw [ha.fragments i]
  split
  next hi => exact iff_of_true rfl hi
  next hi => exact iff_of_false (fun hfalse => nomatch hfalse) hi

/-- One more fragment. -/
theorem Assembles.insert {h : Bytes32} {D : Finset Nat} {a : FragmentAssembly}
    (ha : Assembles blake3 parts h D a) (i : Nat) :
    Assembles blake3 parts h (insert i D)
      { a with fragments := a.fragments.insert i ((parts h).getD i []) } := by
  refine ⟨ha.total, ha.root, fun j => ?_⟩
  rw [SortedMap.lookup_insert]
  by_cases heq : j = i
  · rw [if_pos heq, if_pos (by rw [heq]; exact Finset.mem_insert_self i D), heq]
  · rw [if_neg heq, ha.fragments j]
    simp only [Finset.mem_insert, heq, false_or]

/-- A set of indices is complete when it has as many as there are. -/
theorem eq_indices_iff {h : Bytes32} {D : Finset Nat} (hsub : D ⊆ indices parts h) :
    D = indices parts h ↔ D.card = (parts h).length := by
  have hcard : (indices parts h).card = (parts h).length := Finset.card_range _
  constructor
  · intro heq
    rw [heq, hcard]
  · intro heq
    exact Finset.eq_of_subset_of_card_le hsub (by omega)

/-- A complete assembly is drained to the payload. -/
theorem Assembles.drain {h : Bytes32} {a : FragmentAssembly}
    (ha : Assembles blake3 parts h (indices parts h) a) :
    Network.drain a.fragments (List.range a.total) = (parts h).flatten := by
  rw [drain_eq _ List.nodup_range, ha.total, List.flatMap_def]
  refine congrArg List.flatten (List.ext_getElem ?_ fun i hi _ => ?_)
  · rw [List.length_map, List.length_range]
  · rw [List.length_map, List.length_range] at hi
    rw [List.getElem_map, List.getElem_range, ha.fragments i,
      if_pos (show i ∈ indices parts h from Finset.mem_range.mpr hi), Option.getD_some, List.getD_eq_getElem _ _ hi]

theorem verifyRoot_self (h : Bytes32) (result : List UInt8) :
    FragmentAssembler.verifyRoot blake3 h (blake3 result) result = .ok (some result) :=
  if_neg (not_not.mpr rfl)

/-- The completion test of `add_fragment`, where its cast loses nothing. -/
theorem Assembles.complete_iff {h : Bytes32} {D : Finset Nat} {a : FragmentAssembly}
    (ha : Assembles blake3 parts h D a) (hsub : D ⊆ indices parts h)
    (hfits : (parts h).length < 2 ^ 32) :
    a.fragments.entries.length % 2 ^ 32 = a.total ↔ D = indices parts h := by
  have hle : D.card ≤ (parts h).length := by
    have hcard := Finset.card_le_card hsub
    rw [indices, Finset.card_range] at hcard
    exact hcard
  rw [ha.length, ha.total, Nat.mod_eq_of_lt (by omega), eq_indices_iff hsub]

/-- A delivery to a pending assembly. -/
theorem deliver_held {s : FragmentAssembler} {d : Delivery} {D : Finset Nat} {a : FragmentAssembly}
    (hlookup : s.assemblies.lookup d.objectHash = some a)
    (ha : Assembles blake3 parts d.objectHash D a) (hsub : D ⊆ indices parts d.objectHash)
    (hfits : (parts d.objectHash).length < 2 ^ 32) (hindex : d.index ∈ indices parts d.objectHash) :
    deliver parts blake3 s d
      = if d.index ∈ D then (.error (.duplicateFragment d.objectHash d.index), s)
        else if insert d.index D = indices parts d.objectHash then
          (.ok (some (parts d.objectHash).flatten),
            { s with assemblies := s.assemblies.erase d.objectHash })
        else
          (.ok none, { s with
            assemblies := s.assemblies.insert d.objectHash { a with
              fragments := a.fragments.insert d.index ((parts d.objectHash).getD d.index []) } }) := by
  have hlt : d.index < (parts d.objectHash).length := Finset.mem_range.mp hindex
  have hins := ha.insert d.index
  have hiff := hins.complete_iff (Finset.insert_subset hindex hsub) hfits
  unfold deliver FragmentAssembler.addFragment
  dsimp only at hiff ⊢
  rw [if_neg (by omega), hlookup]
  dsimp only
  rw [if_neg (not_not.mpr ha.total), ha.fragments d.index]
  by_cases hdup : d.index ∈ D
  · rw [if_pos hdup, if_pos hdup]
    rfl
  · rw [if_neg hdup, if_neg (by simp), if_neg hdup]
    by_cases hdone : insert d.index D = indices parts d.objectHash
    · rw [if_pos (hiff.mpr hdone), if_pos hdone]
      rw [hdone] at hins
      have hdrain := hins.drain
      dsimp only at hdrain
      rw [hdrain, ha.root, verifyRoot_self]
    · rw [if_neg (mt hiff.mp hdone), if_neg hdone]

/-- The first delivery of an object, where there is room. -/
theorem deliver_first {s : FragmentAssembler} {d : Delivery}
    (hlookup : s.assemblies.lookup d.objectHash = none)
    (hroom : s.assemblies.entries.length < s.maxAssemblies)
    (hfits : (parts d.objectHash).length < 2 ^ 32) (hindex : d.index ∈ indices parts d.objectHash) :
    ∃ a, Assembles blake3 parts d.objectHash {d.index} a ∧
      deliver parts blake3 s d
        = if {d.index} = indices parts d.objectHash then
            (.ok (some (parts d.objectHash).flatten), s)
          else (.ok none, { s with assemblies := s.assemblies.insert d.objectHash a }) := by
  have hlt : d.index < (parts d.objectHash).length := Finset.mem_range.mp hindex
  have hempty : Assembles blake3 parts d.objectHash ∅
      ⟨(parts d.objectHash).length, .empty, d.time, blake3 (parts d.objectHash).flatten⟩ :=
    ⟨rfl, rfl, fun i => rfl⟩
  have hins := hempty.insert d.index
  refine ⟨_, hins, ?_⟩
  have hiff := hins.complete_iff (Finset.insert_subset hindex (Finset.empty_subset _)) hfits
  unfold deliver FragmentAssembler.addFragment
  dsimp only at hiff ⊢
  rw [if_neg (by omega), hlookup]
  dsimp only
  rw [if_neg (by omega)]
  by_cases hdone : insert d.index ∅ = indices parts d.objectHash
  · rw [if_pos (hiff.mpr hdone)]
    rw [hdone] at hins
    have hdrain := hins.drain
    dsimp only at hdrain
    rw [hdrain, verifyRoot_self]
    exact (if_pos hdone).symm
  · rw [if_neg (mt hiff.mp hdone)]
    exact (if_neg hdone).symm

/-- **One delivery**: it is answered as its history says, and the assemblies hold the
history with it. -/
theorem deliver_holds {before : List Delivery} {d : Delivery} {s : FragmentAssembler}
    (hs : Holds blake3 parts maxAssemblies (delivered before) s) (hlegal : Legal parts before d)
    (hroom : HasRoom parts maxAssemblies before d) :
    (deliver parts blake3 s d).1 = answerOf parts before d ∧
      Holds blake3 parts maxAssemblies (delivered (before ++ [d])) (deliver parts blake3 s d).2 := by
  rw [delivered_append]
  unfold answerOf
  have hsub := hs.subset d.objectHash
  have hsub' := Finset.insert_subset hlegal.index hsub
  cases hlookup : s.assemblies.lookup d.objectHash with
  | some a =>
    have ha := hs.assembly _ a hlookup
    rw [deliver_held hlookup ha hsub hlegal.fits hlegal.index]
    by_cases hdup : d.index ∈ delivered before d.objectHash
    · rw [if_pos hdup, if_pos hdup, Finset.insert_eq_of_mem hdup, Function.update_eq_self]
      exact ⟨rfl, hs⟩
    · rw [if_neg hdup, if_neg hdup]
      by_cases hdone : insert d.index (delivered before d.objectHash) = indices parts d.objectHash
      · rw [if_pos hdone, if_pos hdone]
        refine ⟨rfl, hs.complete rfl hdone (fun h' hne => ?_) ?_⟩
        · exact (SortedMap.lookup_erase ..).trans (if_neg hne)
        · exact (SortedMap.lookup_erase ..).trans (if_pos rfl)
      · rw [if_neg hdone, if_neg hdone]
        exact ⟨rfl, hs.store hsub' (Finset.insert_nonempty _ _) hdone (ha.insert d.index)⟩
  | none =>
    -- the index is missing, so nothing of the object has come yet
    have hnot : ¬((delivered before d.objectHash).Nonempty ∧
        delivered before d.objectHash ≠ indices parts d.objectHash) := by
      rw [← hs.pending, hlookup]
      exact fun hfalse => nomatch hfalse
    have hnew : d.index ∉ delivered before d.objectHash := by
      intro hmem
      exact hnot (mem_pending.mp (hlegal.once hmem))
    have hnone : delivered before d.objectHash = ∅ := by
      by_contra hne
      refine hnot ⟨Finset.nonempty_iff_ne_empty.mpr hne, fun hall => hnew ?_⟩
      rw [hall]
      exact hlegal.index
    have hcount : s.assemblies.entries.length = (pending parts before).card :=
      SortedMap.length_eq_card fun h => (hs.pending h).trans mem_pending.symm
    have hfree : s.assemblies.entries.length < s.maxAssemblies := by
      rw [hcount, hs.limit]
      exact hroom hnone
    obtain ⟨a, ha, hdeliver⟩ := @deliver_first blake3 parts s d hlookup hfree hlegal.fits
      hlegal.index
    rw [hdeliver, if_neg hnew]
    rw [hnone] at hsub' ⊢
    rw [insert_empty_eq] at hsub' ⊢
    by_cases hdone : {d.index} = indices parts d.objectHash
    · rw [if_pos hdone, if_pos hdone]
      exact ⟨rfl, hs.complete rfl hdone (fun _ _ => rfl) hlookup⟩
    · rw [if_neg hdone, if_neg hdone]
      exact ⟨rfl, hs.store hsub' (Finset.singleton_nonempty _) hdone ha⟩

/-! ## Runs -/

theorem afterEach_append {P : List Delivery → Delivery → Prop} {ds : List Delivery} {d : Delivery}
    (h : AfterEach P (ds ++ [d])) : AfterEach P ds ∧ P ds d := by
  constructor
  · intro n e hn
    have hlt : n < ds.length := (List.getElem?_eq_some_iff.mp hn).1
    have hlast := h n e (by rw [List.getElem?_append_left hlt]; exact hn)
    rw [List.take_append_of_le_length hlt.le] at hlast
    exact hlast
  · have hlast := h ds.length d List.getElem?_concat_length
    rw [List.take_left] at hlast
    exact hlast

theorem holds_run {ds : List Delivery} (hlegal : AfterEach (Legal parts) ds)
    (hroom : AfterEach (HasRoom parts maxAssemblies) ds) :
    Holds blake3 parts maxAssemblies (delivered ds)
      (Trace.final (deliver parts blake3) (.new maxAssemblies) ds) := by
  induction ds using List.reverseRecOn with
  | nil =>
    refine ⟨rfl, fun h => Finset.empty_subset _, fun h => ?_, fun h a ha => by cases ha⟩
    exact iff_of_false (fun hfalse => nomatch hfalse) fun hand => Finset.not_nonempty_empty hand.1
  | append_singleton ds d ih =>
    obtain ⟨hlegals, hlegal⟩ := afterEach_append hlegal
    obtain ⟨hrooms, hroom⟩ := afterEach_append hroom
    rw [Trace.final_append]
    exact (deliver_holds (ih hlegals hrooms) hlegal hroom).2

/-- The payloads a run returns for an object. -/
def returned (h : Bytes32) (answers : List (Delivery × Except DgpError (Option (List UInt8)))) :
    List (List UInt8) :=
  answers.filterMap fun e => if e.1.objectHash = h then e.2.toOption.join else none

theorem returned_run {ds : List Delivery} (hlegal : AfterEach (Legal parts) ds)
    (hroom : AfterEach (HasRoom parts maxAssemblies) ds) {h : Bytes32} (hparts : parts h ≠ []) :
    returned h (Trace.trace (deliver parts blake3) (.new maxAssemblies) ds)
      = if delivered ds h = indices parts h then [(parts h).flatten] else [] := by
  induction ds using List.reverseRecOn with
  | nil =>
    refine (if_neg fun hall => hparts ?_).symm
    have hzero := congrArg Finset.card hall
    rw [indices, Finset.card_range] at hzero
    exact List.eq_nil_of_length_eq_zero hzero.symm
  | append_singleton ds d ih =>
    obtain ⟨hlegals, hlegal⟩ := afterEach_append hlegal
    obtain ⟨hrooms, hroom⟩ := afterEach_append hroom
    have hanswer := (deliver_holds (@holds_run blake3 _ _ _ hlegals hrooms) hlegal hroom).1
    rw [Trace.trace_append, returned, List.filterMap_append]
    rw [← returned, ih hlegals hrooms, delivered_append]
    simp only [Trace.trace, List.filterMap_cons, List.filterMap_nil, hanswer]
    by_cases hobj : d.objectHash = h
    · subst hobj
      rw [Function.update_self, if_pos rfl]
      unfold answerOf
      by_cases hdup : d.index ∈ delivered ds d.objectHash
      · rw [if_pos hdup, Finset.insert_eq_of_mem hdup]
        exact List.append_nil _
      · -- the index was missing, so nothing had been returned
        have hmissing : delivered ds d.objectHash ≠ indices parts d.objectHash := by
          intro hall
          rw [hall] at hdup
          exact hdup hlegal.index
        rw [if_neg hdup, if_neg hmissing, List.nil_append]
        by_cases hdone : insert d.index (delivered ds d.objectHash) = indices parts d.objectHash
        · rw [if_pos hdone, if_pos hdone]
          rfl
        · rw [if_neg hdone, if_neg hdone]
          rfl
    · rw [if_neg hobj, Function.update_of_ne (Ne.symm hobj)]
      exact List.append_nil _

theorem Holds.proper {D : Bytes32 → Finset Nat} {s : FragmentAssembler}
    (hs : Holds blake3 parts maxAssemblies D s) {h : Bytes32} {a : FragmentAssembly}
    (ha : (h, a) ∈ s.assemblies.entries) :
    a.fragments.keys ≠ [] ∧ (∀ i ∈ a.fragments.keys, i < a.total) ∧
      ∃ i < a.total, i ∉ a.fragments.keys := by
  have hlookup := SortedMap.lookup_eq_some_iff.mpr ha
  have hassembles := hs.assembly h a hlookup
  obtain ⟨hsome, hproper⟩ := (hs.pending h).mp (by rw [hlookup]; rfl)
  have hmem : ∀ i, i ∈ a.fragments.keys ↔ i ∈ D h := by
    intro i
    rw [SortedMap.mem_keys_iff, hassembles.fragments i]
    split
    next hi => exact iff_of_true rfl hi
    next hi => exact iff_of_false (fun hfalse => nomatch hfalse) hi
  rw [hassembles.total]
  refine ⟨?_, fun i hi => ?_, ?_⟩
  · obtain ⟨i, hi⟩ := hsome
    exact List.ne_nil_of_mem ((hmem i).mpr hi)
  · exact Finset.mem_range.mp (hs.subset h ((hmem i).mp hi))
  · obtain ⟨i, hi, hmissing⟩ := Finset.exists_of_ssubset (hs.subset h |>.ssubset_of_ne hproper)
    exact ⟨i, Finset.mem_range.mp hi, fun hkey => hmissing ((hmem i).mp hkey)⟩

/-- **The assembler.** Whatever the state, a call that fails for another reason than a
wrong root leaves the assemblies alone. Over any run of deliveries in which each
fragment comes once, or again while its object is pending, and the first fragment
of every object finds fewer than the limit pending: each delivery is answered by
its history, a payload on the last missing fragment; each object returns its
payload once, when all its fragments have come, and nothing before; and every
pending assembly holds some but not all of its indices. -/
theorem assembler_returns_once (blake3 : List UInt8 → Bytes32)
    (parts : Bytes32 → List (List UInt8)) (maxAssemblies : Nat) :
    (∀ (s : FragmentAssembler) fragment payloadRoot currentTime e,
      (s.addFragment blake3 fragment payloadRoot currentTime).1 = .error e →
      (∀ hash expected actual, e ≠ .payloadRootMismatch hash expected actual) →
      (s.addFragment blake3 fragment payloadRoot currentTime).2 = s) ∧
    ∀ ds, AfterEach (Legal parts) ds → AfterEach (HasRoom parts maxAssemblies) ds →
      (∀ n d, ds[n]? = some d →
        (Trace.trace (deliver parts blake3) (.new maxAssemblies) ds)[n]?
          = some (d, answerOf parts (ds.take n) d)) ∧
      (∀ h, parts h ≠ [] →
        returned h (Trace.trace (deliver parts blake3) (.new maxAssemblies) ds)
          = if delivered ds h = indices parts h then [(parts h).flatten] else []) ∧
      ∀ h a, (h, a) ∈ (Trace.final (deliver parts blake3) (.new maxAssemblies) ds).assemblies.entries →
        a.fragments.keys ≠ [] ∧ (∀ i ∈ a.fragments.keys, i < a.total) ∧
          ∃ i < a.total, i ∉ a.fragments.keys := by
  refine ⟨fun s fragment payloadRoot currentTime e => addFragment_error, fun ds hlegal hroom => ?_⟩
  refine ⟨fun n d hn => ?_, fun h => returned_run hlegal hroom, fun h a => ?_⟩
  · have hbefore : ∀ {P : List Delivery → Delivery → Prop}, AfterEach P ds → AfterEach P (ds.take n) := by
      intro P hP m e hm
      have hlt : m < n := by
        have hlen := (List.getElem?_eq_some_iff.mp hm).1
        rw [List.length_take] at hlen
        omega
      rw [List.getElem?_take_of_lt hlt] at hm
      rw [List.take_take, Nat.min_eq_left hlt.le]
      exact hP m e hm
    have hholds := @holds_run blake3 _ _ _ (hbefore hlegal) (hbefore hroom)
    rw [Trace.trace_getElem?, hn, Option.map_some,
      (deliver_holds hholds (hlegal n d hn) (hroom n d hn)).1]
  · exact (holds_run hlegal hroom).proper

end Holds

/-! ## A limit that is asked too early -/

/-- An object of two fragments and one of one fragment. -/
def twoObjects (h : Bytes32) : List (List UInt8) :=
  if h = Vector.replicate 32 1 then [[1], [2]]
  else if h = Vector.replicate 32 2 then [[3]]
  else []

def twoObjectsRun : List Delivery :=
  [⟨Vector.replicate 32 1, 0, 0⟩, ⟨Vector.replicate 32 2, 0, 0⟩, ⟨Vector.replicate 32 1, 1, 0⟩]

/-- With one object pending at most, and room for one, the object of one fragment is
refused. -/
theorem oneFragment_refused :
    AfterEach (Legal twoObjects) twoObjectsRun ∧
    (∀ n, (pending twoObjects (twoObjectsRun.take n)).card ≤ 1) ∧
    ¬∃ blake3, (Trace.trace (deliver twoObjects blake3) (.new 1) twoObjectsRun)[1]?
      = some (⟨Vector.replicate 32 2, 0, 0⟩, .ok (some [3])) := by
  refine ⟨fun n d hn => ?_, fun n => ?_, fun h => ?_⟩
  · match n, hn with
    | 0, hn => cases hn; exact ⟨by decide, by decide, by decide⟩
    | 1, hn => cases hn; exact ⟨by decide, by decide, by decide⟩
    | 2, hn => cases hn; exact ⟨by decide, by decide, by decide⟩
  · rcases Nat.lt_or_ge n 3 with hlt | hge
    · exact (show ∀ n < 3, (pending twoObjects (twoObjectsRun.take n)).card ≤ 1 by decide) n hlt
    · rw [List.take_of_length_le hge]
      decide
  · obtain ⟨blake3, hanswer⟩ := h
    have hfull : (Trace.trace (deliver twoObjects blake3) (.new 1) twoObjectsRun)[1]?
        = some (⟨Vector.replicate 32 2, 0, 0⟩, .error (.assemblerFull 1)) := rfl
    rw [hfull] at hanswer
    cases hanswer

end CipherOcto.Network
