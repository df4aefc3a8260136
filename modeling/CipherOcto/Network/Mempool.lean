import CipherOcto.Lib.SortBy
import CipherOcto.Lib.SortedMap
import CipherOcto.Lib.Trace
import CipherOcto.Network.Merkle
import Mathlib.Algebra.BigOperators.Group.List.Basic
import Mathlib.Data.Prod.Lex

/-!
# The overlay mempool

Intents are kept by mission, in the order they came, as long as a global and a
mission's capacity last. They are read in canonical order, and a Merkle root over
their ids, sequence numbers and missions is their fingerprint.

> `stateRoot_eq_iff`: the roots are equal iff the ids, sequences and missions are.
> `getOrdered_insertAll`: what is read is what was accepted, sorted.

Past its capacity the pool keeps what came first, so what it keeps depends on the
order; of what it keeps, the order is forgotten.
-/

namespace CipherOcto.Network

open Encoding Trace

/-! ## The code -/

structure OverlayIntent where
  intentId : Bytes32
  intentType : UInt16
  missionId : Bytes32
  senderId : Bytes32
  sequence : UInt64
  logicalTimestamp : UInt64
  expiration : UInt64
  payloadRoot : Bytes32
  economicWeight : UInt64
  executionClass : UInt16
  signature : Vector UInt8 64
deriving DecidableEq

/-- `CanonicalOrderKey`: class, inverted weight, timestamp, sequence, id. -/
abbrev CanonicalOrderKey := Nat ×ₗ Nat ×ₗ Nat ×ₗ Nat ×ₗ Bytes32

/-- `CanonicalOrderKey::from_intent`. -/
def CanonicalOrderKey.fromIntent (i : OverlayIntent) : CanonicalOrderKey :=
  toLex (i.executionClass.toNat, toLex (2 ^ 64 - 1 - i.economicWeight.toNat,
    toLex (i.logicalTimestamp.toNat, toLex (i.sequence.toNat, i.intentId))))

/-- `canonical_sort`. -/
def canonicalSort (intents : List OverlayIntent) : List OverlayIntent :=
  sortBy CanonicalOrderKey.fromIntent intents

/-- `DomError`, as far as `insert` returns it. -/
inductive DomError where
  | capacityExceeded (scope : Nat) (maxEntries : Nat)
deriving DecidableEq

structure MempoolPool where
  pools : SortedMap Bytes32 (List OverlayIntent)
  scopes : SortedMap Bytes32 Nat
  maxGlobal : UInt32
  maxPerMission : UInt32

namespace MempoolPool

def new (maxGlobal maxPerMission : UInt32) : MempoolPool := ⟨.empty, .empty, maxGlobal, maxPerMission⟩

/-- `MempoolPool::register_mission`. -/
def registerMission (p : MempoolPool) (missionId : Bytes32) (scope : Nat) : MempoolPool :=
  { p with
    pools := p.pools.insert missionId ((p.pools.lookup missionId).getD [])
    scopes := p.scopes.insert missionId scope }

/-- `MempoolPool::total_count`. -/
def totalCount (p : MempoolPool) : Nat := (p.pools.values.map List.length).sum

/-- The intents of a mission. -/
def mission (p : MempoolPool) (missionId : Bytes32) : List OverlayIntent :=
  (p.pools.lookup missionId).getD []

def setMission (p : MempoolPool) (missionId : Bytes32) (intents : List OverlayIntent) :
    MempoolPool :=
  { p with pools := p.pools.insert missionId intents }

/-- `MempoolPool::insert`. A mission that is full is entered all the same. -/
def insert (p : MempoolPool) (intent : OverlayIntent) : Except DomError Unit × MempoolPool :=
  if p.totalCount % 2 ^ 32 ≥ p.maxGlobal.toNat then
    (.error (.capacityExceeded 0x0001 p.maxGlobal.toNat), p)
  else
    let scope := (p.scopes.lookup intent.missionId).getD 0x0003
    let pool := p.mission intent.missionId
    if pool.length % 2 ^ 32 ≥ p.maxPerMission.toNat then
      (.error (.capacityExceeded scope p.maxPerMission.toNat),
        p.setMission intent.missionId pool)
    else (.ok (), p.setMission intent.missionId (pool ++ [intent]))

/-- `MempoolPool::get_ordered`. -/
def getOrdered (p : MempoolPool) (missionId : Bytes32) : List OverlayIntent :=
  match p.pools.lookup missionId with
  | some pool => canonicalSort pool
  | none => []

/-- `MempoolPool::evict_expired`. A mission left empty is forgotten with its scope. -/
def evictExpired (p : MempoolPool) (currentTimestamp : Nat) : MempoolPool :=
  let retained := p.pools.map fun pool =>
    pool.filter fun i => currentTimestamp < i.expiration.toNat
  let pools := retained.retain fun _ pool => !pool.isEmpty
  { p with
    pools := pools
    scopes := p.scopes.retain fun missionId _ => (pools.lookup missionId).isSome }

end MempoolPool

/-- What is hashed for an intent. -/
def intentInput (i : OverlayIntent) : List UInt8 :=
  i.intentId.toList ++ Bytes.toBe 8 i.sequence.toNat ++ i.missionId.toList

section

variable (blake3 : List UInt8 → Bytes32)

def intentLeaves (intents : List OverlayIntent) : List Bytes32 :=
  (sortBy (·.intentId) intents).map fun i => blake3 (intentInput i)

/-- `MempoolStateRoot::compute`. -/
def stateRoot (intents : List OverlayIntent) : Bytes32 :=
  if intents = [] then zeroRoot else computeMerkleRoot blake3 (intentLeaves blake3 intents)

/-- The strings hashed for a root. -/
def stateRootInputs (intents : List OverlayIntent) : List (List UInt8) :=
  intents.map intentInput ++ merkleInputs blake3 (intentLeaves blake3 intents)

end

/-! ## The fingerprint -/

/-- What the fingerprint is taken of. -/
abbrev Triple := Bytes32 × UInt64 × Bytes32

def OverlayIntent.triple (i : OverlayIntent) : Triple := (i.intentId, i.sequence, i.missionId)

def tripleInput (t : Triple) : List UInt8 :=
  t.1.toList ++ Bytes.toBe 8 t.2.1.toNat ++ t.2.2.toList

theorem tripleInput_injective {t u : Triple} (h : tripleInput t = tripleInput u) : t = u := by
  unfold tripleInput at h
  obtain ⟨hfront, hmission⟩ := List.append_inj h (by simp)
  obtain ⟨hid, hseq⟩ := List.append_inj hfront (by simp)
  exact Prod.ext (Vector.toList_inj.mp hid)
    (Prod.ext (Bytes.toBe8_inj hseq) (Vector.toList_inj.mp hmission))

/-- No id twice. -/
def DistinctIds (intents : List OverlayIntent) : Prop := (intents.map (·.intentId)).Nodup

instance : DecidablePred DistinctIds := fun intents =>
  inferInstanceAs (Decidable (intents.map (·.intentId)).Nodup)

section

variable {blake3 : List UInt8 → Bytes32} {xs ys : List OverlayIntent}

theorem stateRoot_eq (blake3 : List UInt8 → Bytes32) (xs : List OverlayIntent) :
    stateRoot blake3 xs = computeMerkleRoot blake3 (intentLeaves blake3 xs) := by
  unfold stateRoot
  split
  next hnil =>
    rw [hnil]
    rfl
  next => rfl

theorem intentLeaves_eq (blake3 : List UInt8 → Bytes32) (xs : List OverlayIntent) :
    intentLeaves blake3 xs =
      (sortBy Prod.fst (xs.map OverlayIntent.triple)).map fun t => blake3 (tripleInput t) := by
  rw [← map_sortBy, List.map_map]
  rfl

theorem DistinctIds.nodup_fst (h : DistinctIds xs) :
    ((xs.map OverlayIntent.triple).map Prod.fst).Nodup := by
  rw [List.map_map]
  exact h

/-- Sorted by their ids, the triples are known by their set. -/
theorem sorted_triples_eq_iff (hxs : DistinctIds xs) (hys : DistinctIds ys) :
    sortBy Prod.fst (xs.map OverlayIntent.triple) = sortBy Prod.fst (ys.map OverlayIntent.triple) ↔
      ∀ t, t ∈ xs.map OverlayIntent.triple ↔ t ∈ ys.map OverlayIntent.triple := by
  constructor
  · intro heq t
    have hmem : t ∈ sortBy Prod.fst (xs.map OverlayIntent.triple) ↔
        t ∈ sortBy Prod.fst (ys.map OverlayIntent.triple) := by rw [heq]
    rwa [mem_sortBy, mem_sortBy] at hmem
  · intro hmem
    refine sortBy_congr (List.inj_on_of_nodup_map hxs.nodup_fst) ?_
    exact (List.perm_ext_iff_of_nodup (hxs.nodup_fst.of_map _) (hys.nodup_fst.of_map _)).mpr hmem

section Binding

variable (h : CollisionFree blake3 (stateRootInputs blake3 xs ++ stateRootInputs blake3 ys))

include h

theorem tripleDigest_injOn : Set.InjOn (fun t => blake3 (tripleInput t))
    {t | t ∈ xs.map OverlayIntent.triple ∨ t ∈ ys.map OverlayIntent.triple} := by
  have hmem : ∀ t, t ∈ xs.map OverlayIntent.triple ∨ t ∈ ys.map OverlayIntent.triple →
      tripleInput t ∈ stateRootInputs blake3 xs ++ stateRootInputs blake3 ys := by
    intro t ht
    rcases ht with hside | hside
    · obtain ⟨i, hi, rfl⟩ := List.mem_map.mp hside
      exact List.mem_append_left _ (List.mem_append_left _ (List.mem_map.mpr ⟨i, hi, rfl⟩))
    · obtain ⟨i, hi, rfl⟩ := List.mem_map.mp hside
      exact List.mem_append_right _ (List.mem_append_left _ (List.mem_map.mpr ⟨i, hi, rfl⟩))
  intro t ht u hu heq
  exact tripleInput_injective (h.injOn (hmem t ht) (hmem u hu) heq)

theorem intentLeaves_eq_iff :
    intentLeaves blake3 xs = intentLeaves blake3 ys ↔
      sortBy Prod.fst (xs.map OverlayIntent.triple) =
        sortBy Prod.fst (ys.map OverlayIntent.triple) := by
  rw [intentLeaves_eq, intentLeaves_eq]
  refine ⟨PairTree.eq_of_map_eq (tripleDigest_injOn h) ?_ ?_, congrArg _⟩
  · exact fun t ht => .inl (mem_sortBy.mp ht)
  · exact fun t ht => .inr (mem_sortBy.mp ht)

theorem nodup_intentLeaves {zs : List OverlayIntent} (hzs : DistinctIds zs)
    (hside : zs = xs ∨ zs = ys) : (intentLeaves blake3 zs).Nodup := by
  rw [intentLeaves_eq]
  refine List.Nodup.map_on ?_ ((sortBy_perm _ _).nodup_iff.mpr (hzs.nodup_fst.of_map _))
  intro t ht u hu heq
  have hmem : ∀ v, v ∈ sortBy Prod.fst (zs.map OverlayIntent.triple) →
      v ∈ xs.map OverlayIntent.triple ∨ v ∈ ys.map OverlayIntent.triple := by
    intro v hv
    rw [mem_sortBy] at hv
    rcases hside with rfl | rfl
    · exact .inl hv
    · exact .inr hv
  exact tripleDigest_injOn h (hmem t ht) (hmem u hu) heq

/-- **The fingerprint.** -/
theorem stateRoot_eq_iff (hxs : DistinctIds xs) (hys : DistinctIds ys) :
    stateRoot blake3 xs = stateRoot blake3 ys ↔
      ∀ t, t ∈ xs.map OverlayIntent.triple ↔ t ∈ ys.map OverlayIntent.triple := by
  have hfree : CollisionFree blake3 (merkleInputs blake3 (intentLeaves blake3 xs) ++
      merkleInputs blake3 (intentLeaves blake3 ys)) := by
    refine h.mono ?_
    exact List.append_subset.mpr ⟨fun m hm => List.mem_append_left _ (List.mem_append_right _ hm),
      fun m hm => List.mem_append_right _ (List.mem_append_right _ hm)⟩
  rw [stateRoot_eq, stateRoot_eq, ← sorted_triples_eq_iff hxs hys, ← intentLeaves_eq_iff h]
  constructor
  · exact eq_of_computeMerkleRoot_eq hfree (nodup_intentLeaves h hxs (.inl rfl))
      (nodup_intentLeaves h hys (.inr rfl))
  · exact congrArg _

end Binding

end

/-! ## The pool -/

namespace MempoolPool

/-- The intents of `xs` that are accepted, offered one after the other. -/
def accepted (p : MempoolPool) (xs : List OverlayIntent) : List OverlayIntent :=
  ((trace insert p xs).filter fun e => e.2.isOk).map Prod.fst

/-- The pool after all of `xs` were offered. -/
def insertAll (p : MempoolPool) (xs : List OverlayIntent) : MempoolPool := final insert p xs

theorem accepted_cons (p : MempoolPool) (i : OverlayIntent) (xs : List OverlayIntent) :
    p.accepted (i :: xs) = (if (p.insert i).1.isOk then [i] else []) ++
      (p.insert i).2.accepted xs := by
  unfold accepted
  rw [trace, List.filter_cons]
  split
  · rfl
  · rfl

theorem accepted_sublist (p : MempoolPool) (xs : List OverlayIntent) :
    (p.accepted xs).Sublist xs := by
  have hsub := (List.filter_sublist (l := trace insert p xs) (p := fun e => e.2.isOk)).map Prod.fst
  rw [map_fst_trace] at hsub
  exact hsub

/-- What `insert` can do. -/
theorem insert_cases (p : MempoolPool) (i : OverlayIntent) :
    (∃ e, (p.insert i = (.error e, p) ∨
        p.insert i = (.error e, p.setMission i.missionId (p.mission i.missionId))) ∧
      (p.maxGlobal.toNat ≤ p.totalCount % 2 ^ 32 ∨
        p.maxPerMission.toNat ≤ (p.mission i.missionId).length % 2 ^ 32)) ∨
    (p.insert i = (.ok (), p.setMission i.missionId (p.mission i.missionId ++ [i])) ∧
      p.totalCount % 2 ^ 32 < p.maxGlobal.toNat ∧
      (p.mission i.missionId).length % 2 ^ 32 < p.maxPerMission.toNat) := by
  unfold insert
  split
  next hglobal => exact .inl ⟨_, .inl rfl, .inl hglobal⟩
  next hglobal =>
    dsimp only
    split
    next hmission => exact .inl ⟨_, .inr rfl, .inr hmission⟩
    next hmission => exact .inr ⟨rfl, not_le.mp hglobal, not_le.mp hmission⟩

theorem mission_setMission (p : MempoolPool) (m m' : Bytes32) (l : List OverlayIntent) :
    (p.setMission m l).mission m' = if m' = m then l else p.mission m' := by
  unfold mission setMission
  dsimp only
  rw [SortedMap.lookup_insert]
  split
  · rfl
  · rfl

/-- Entering a mission again changes no mission. -/
theorem mission_setMission_self (p : MempoolPool) (m m' : Bytes32) :
    (p.setMission m (p.mission m)).mission m' = p.mission m' := by
  rw [mission_setMission]
  split
  next h => rw [h]
  next => rfl

theorem getOrdered_eq (p : MempoolPool) (m : Bytes32) :
    p.getOrdered m = canonicalSort (p.mission m) := by
  unfold getOrdered mission
  cases p.pools.lookup m with
  | none => rfl
  | some pool => rfl

/-- A mission holds what was accepted for it, in the order it came. -/
theorem mission_insertAll (m : Bytes32) : ∀ (xs : List OverlayIntent) (p : MempoolPool),
    (p.insertAll xs).mission m = p.mission m ++ (p.accepted xs).filter fun i => i.missionId = m
  | [], p => (List.append_nil _).symm
  | i :: xs, p => by
    have ih := mission_insertAll m xs (p.insert i).2
    have hstep : p.insertAll (i :: xs) = (p.insert i).2.insertAll xs := rfl
    rw [hstep, ih, accepted_cons, List.filter_append, ← List.append_assoc]
    refine congrArg (· ++ _) ?_
    rcases insert_cases p i with ⟨e, hrefused, -⟩ | ⟨haccepted, -⟩
    · rcases hrefused with heq | heq
      · rw [heq]
        exact (List.append_nil _).symm
      · rw [heq, mission_setMission_self]
        exact (List.append_nil _).symm
    · rw [haccepted, mission_setMission]
      show _ = p.mission m ++ [i].filter fun i => i.missionId = m
      rw [List.filter_singleton]
      split
      next hm => rw [hm, decide_eq_true rfl, cond_true]
      next hm => rw [decide_eq_false (Ne.symm hm), cond_false, List.append_nil]

theorem fromIntent_injOn {xs : List OverlayIntent} (h : DistinctIds xs) :
    Set.InjOn CanonicalOrderKey.fromIntent {i | i ∈ xs} := by
  intro i hi j hj heq
  have hlast := congrArg (fun key => (ofLex (ofLex (ofLex (ofLex key).2).2).2).2) heq
  exact List.inj_on_of_nodup_map h hi hj hlast

/-- **What is read** is what was accepted, whatever the order it came in. -/
theorem getOrdered_congr {p : MempoolPool} {xs ys : List OverlayIntent} {m : Bytes32}
    (hperm : ((p.accepted xs).filter fun i => i.missionId = m).Perm
      ((p.accepted ys).filter fun i => i.missionId = m))
    (hids : DistinctIds ((p.accepted xs).filter fun i => i.missionId = m)) :
    (p.insertAll xs).getOrdered m = (p.insertAll ys).getOrdered m := by
  rw [getOrdered_eq, getOrdered_eq, mission_insertAll, mission_insertAll]
  exact sortBy_append_congr (sortBy_congr (fromIntent_injOn hids) hperm) _

/-! ## Capacities -/

/-- `xs` fits what is left of the capacities. -/
structure Fits (p : MempoolPool) (xs : List OverlayIntent) : Prop where
  total : p.totalCount + xs.length ≤ p.maxGlobal.toNat
  mission : ∀ m, (p.mission m).length + (xs.filter fun i => i.missionId = m).length ≤
    p.maxPerMission.toNat

theorem Fits.of_perm {p : MempoolPool} {xs ys : List OverlayIntent} (h : p.Fits xs)
    (hperm : xs.Perm ys) : p.Fits ys := by
  constructor
  · rw [← hperm.length_eq]
    exact h.total
  · intro m
    rw [← (hperm.filter _).length_eq]
    exact h.mission m

theorem totalCount_setMission (p : MempoolPool) (m : Bytes32) (l : List OverlayIntent) :
    (p.setMission m l).totalCount + (p.mission m).length = p.totalCount + l.length := by
  have hsum := p.pools.sum_values_insert List.length m l
  have hmission : (p.mission m).length = (p.pools.lookup m).elim 0 List.length := by
    unfold mission
    cases p.pools.lookup m with
    | none => rfl
    | some pool => rfl
  rw [hmission]
  exact hsum

theorem insert_of_fits {p : MempoolPool} {i : OverlayIntent} {xs : List OverlayIntent}
    (h : p.Fits (i :: xs)) :
    p.insert i = (.ok (), p.setMission i.missionId (p.mission i.missionId ++ [i])) := by
  have htotal := h.total
  have hmission := h.mission i.missionId
  rw [List.length_cons] at htotal
  rw [List.filter_cons, if_pos (decide_eq_true rfl), List.length_cons] at hmission
  -- the capacities are `u32`s, so the counts below them are not cut
  have hglobal := p.maxGlobal.toNat_lt
  have hper := p.maxPerMission.toNat_lt
  rcases insert_cases p i with ⟨e, -, hfull⟩ | ⟨haccepted, -⟩
  · rw [Nat.mod_eq_of_lt (by omega), Nat.mod_eq_of_lt (by omega)] at hfull
    omega
  · exact haccepted

theorem Fits.step {p : MempoolPool} {i : OverlayIntent} {xs : List OverlayIntent}
    (h : p.Fits (i :: xs)) : (p.insert i).2.Fits xs := by
  rw [insert_of_fits h]
  constructor
  · have htotal := h.total
    have hcount := p.totalCount_setMission i.missionId (p.mission i.missionId ++ [i])
    rw [List.length_append, List.length_singleton] at hcount
    rw [List.length_cons] at htotal
    show (p.setMission i.missionId (p.mission i.missionId ++ [i])).totalCount + xs.length ≤
      p.maxGlobal.toNat
    omega
  · intro m
    have hmission := h.mission m
    rw [List.filter_cons] at hmission
    show ((p.setMission i.missionId (p.mission i.missionId ++ [i])).mission m).length +
      (xs.filter fun i => i.missionId = m).length ≤ p.maxPerMission.toNat
    rw [mission_setMission]
    split
    next hm =>
      rw [if_pos (decide_eq_true hm.symm), List.length_cons, hm] at hmission
      rw [List.length_append, List.length_singleton, hm]
      omega
    next hm =>
      rw [if_neg fun heq => hm (of_decide_eq_true heq).symm] at hmission
      exact hmission

/-- What fits is accepted, in whatever order it comes. -/
theorem accepted_of_fits : ∀ {xs : List OverlayIntent} {p : MempoolPool}, p.Fits xs →
    p.accepted xs = xs
  | [], _, _ => rfl
  | i :: xs, p, h => by
    have ih := accepted_of_fits h.step
    have hok : (p.insert i).1.isOk := by
      rw [insert_of_fits h]
      rfl
    rw [accepted_cons, if_pos hok, ih]
    rfl

/-- What fits is read alike, in whatever order it came. -/
theorem getOrdered_of_fits {p : MempoolPool} {xs ys : List OverlayIntent} (h : p.Fits xs)
    (hperm : xs.Perm ys) (hids : DistinctIds xs) (m : Bytes32) :
    (p.insertAll xs).getOrdered m = (p.insertAll ys).getOrdered m := by
  refine getOrdered_congr ?_ ?_
  · rw [accepted_of_fits h, accepted_of_fits (h.of_perm hperm)]
    exact hperm.filter _
  · rw [accepted_of_fits h]
    exact hids.sublist (List.filter_sublist.map _)

end MempoolPool

/-! ## Runs of the pool -/

inductive PoolOp where
  | registerMission (missionId : Bytes32) (scope : Nat)
  | insert (intent : OverlayIntent)
  | evictExpired (currentTimestamp : Nat)

namespace MempoolPool

def step (p : MempoolPool) : PoolOp → Except DomError Unit × MempoolPool
  | .registerMission missionId scope => (.ok (), p.registerMission missionId scope)
  | .insert intent => p.insert intent
  | .evictExpired currentTimestamp => (.ok (), p.evictExpired currentTimestamp)

/-- No more intents than the capacities allow. -/
structure WithinCapacity (p : MempoolPool) : Prop where
  total : p.totalCount ≤ p.maxGlobal.toNat
  mission : ∀ m, (p.mission m).length ≤ p.maxPerMission.toNat

theorem WithinCapacity.of_setMission {p : MempoolPool} (h : p.WithinCapacity) {m : Bytes32}
    {l : List OverlayIntent} (htotal : p.totalCount + l.length ≤
      p.maxGlobal.toNat + (p.mission m).length) (hm : l.length ≤ p.maxPerMission.toNat) :
    (p.setMission m l).WithinCapacity := by
  constructor
  · have hcount := p.totalCount_setMission m l
    show (p.setMission m l).totalCount ≤ p.maxGlobal.toNat
    omega
  · intro m'
    show ((p.setMission m l).mission m').length ≤ p.maxPerMission.toNat
    rw [mission_setMission]
    split
    · exact hm
    · exact h.mission m'

theorem insert_withinCapacity {p : MempoolPool} (h : p.WithinCapacity) (i : OverlayIntent) :
    (p.insert i).2.WithinCapacity := by
  have htotal := h.total
  have hmission := h.mission i.missionId
  rcases insert_cases p i with ⟨e, hrefused, -⟩ | ⟨haccepted, hglobal, hper⟩
  · rcases hrefused with heq | heq
    · rw [heq]
      exact h
    · rw [heq]
      exact h.of_setMission (Nat.add_le_add_right htotal _) hmission
  · -- below the capacities the counts are not cut to a `u32`
    have hglobal' := p.maxGlobal.toNat_lt
    have hper' := p.maxPerMission.toNat_lt
    rw [Nat.mod_eq_of_lt (by omega)] at hglobal hper
    rw [haccepted]
    refine h.of_setMission ?_ ?_
    · rw [List.length_append, List.length_singleton]
      omega
    · rw [List.length_append, List.length_singleton]
      omega

theorem totalCount_evictExpired (p : MempoolPool) (now : Nat) :
    (p.evictExpired now).totalCount ≤ p.totalCount := by
  refine (((SortedMap.values_retain_sublist _ _).map List.length).sum_le_sum fun _ _ =>
    Nat.zero_le _).trans ?_
  rw [SortedMap.values_map, List.map_map]
  exact List.sum_le_sum fun pool _ => List.length_filter_le _ pool

theorem mission_evictExpired (p : MempoolPool) (now : Nat) (m : Bytes32) :
    (p.evictExpired now).mission m =
      (p.mission m).filter fun i => now < i.expiration.toNat := by
  unfold mission evictExpired
  dsimp only
  rw [SortedMap.lookup_retain, SortedMap.lookup_map]
  cases p.pools.lookup m with
  | none => rfl
  | some pool =>
    rw [Option.map_some, Option.getD_some, Option.filter_some]
    split
    · rfl
    next hempty =>
      rw [Bool.not_eq_true', Bool.not_eq_false, List.isEmpty_iff] at hempty
      rw [hempty]
      rfl

theorem step_withinCapacity {p : MempoolPool} (h : p.WithinCapacity) (op : PoolOp) :
    (p.step op).2.WithinCapacity := by
  cases op with
  | registerMission m scope =>
    have hset := h.of_setMission (m := m) (Nat.add_le_add_right h.total _) (h.mission m)
    exact ⟨hset.total, hset.mission⟩
  | insert i => exact insert_withinCapacity h i
  | evictExpired now =>
    refine ⟨(p.totalCount_evictExpired now).trans h.total, fun m => ?_⟩
    rw [step, mission_evictExpired]
    exact (List.length_filter_le _ _).trans (h.mission m)

/-- **The capacities hold** along every run, so no count is ever cut to a `u32`. -/
theorem run_withinCapacity (maxGlobal maxPerMission : UInt32) (ops : List PoolOp) :
    (final step (new maxGlobal maxPerMission) ops).WithinCapacity := by
  refine run_induct (fun _ => WithinCapacity) ?_ ?_ ops
  · exact ⟨Nat.zero_le _, fun _ => Nat.zero_le _⟩
  · intro _ p op h
    exact step_withinCapacity h op

end MempoolPool

/-! ## Agreement -/

/-- **Agreement.** Two fingerprints are equal iff the ids, sequences and missions are; and
the order in which intents were inserted is not seen in what is read for a mission, as far as
the same intents of it were accepted, which they all are where they fit the capacities. -/
theorem mempool_agreement (blake3 : List UInt8 → Bytes32) (xs ys : List OverlayIntent)
    (hxs : DistinctIds xs) (hys : DistinctIds ys) :
    (CollisionFree blake3 (stateRootInputs blake3 xs ++ stateRootInputs blake3 ys) →
      (stateRoot blake3 xs = stateRoot blake3 ys ↔
        ∀ t, t ∈ xs.map OverlayIntent.triple ↔ t ∈ ys.map OverlayIntent.triple)) ∧
    (xs.Perm ys → ∀ (p : MempoolPool) (m : Bytes32),
      (((p.accepted xs).filter fun i => i.missionId = m).Perm
          ((p.accepted ys).filter fun i => i.missionId = m) →
        (p.insertAll xs).getOrdered m = (p.insertAll ys).getOrdered m) ∧
      (p.Fits xs → p.accepted xs = xs ∧ p.accepted ys = ys ∧
        (p.insertAll xs).getOrdered m = (p.insertAll ys).getOrdered m)) := by
  refine ⟨fun h => stateRoot_eq_iff h hxs hys, fun hperm p m => ⟨fun hsame => ?_, fun hfits => ?_⟩⟩
  · have hids : DistinctIds ((p.accepted xs).filter fun i => i.missionId = m) :=
      hxs.sublist ((List.filter_sublist.trans (p.accepted_sublist xs)).map _)
    exact MempoolPool.getOrdered_congr hsame hids
  · exact ⟨MempoolPool.accepted_of_fits hfits,
      MempoolPool.accepted_of_fits (hfits.of_perm hperm),
      MempoolPool.getOrdered_of_fits hfits hperm hxs m⟩

def sampleIntent (id : Bytes32) (sequence : UInt64) : OverlayIntent where
  intentId := id
  intentType := 1
  missionId := zeroRoot
  senderId := zeroRoot
  sequence := sequence
  logicalTimestamp := 1
  expiration := 100
  payloadRoot := zeroRoot
  economicWeight := 10
  executionClass := 3
  signature := Vector.replicate 64 0

def intent1 : OverlayIntent := sampleIntent leafAA 1

def intent2 : OverlayIntent := sampleIntent leafBB 2

/-- BLAKE3 for the first intent. -/
def digestIntent1 : Bytes32 :=
  #v[134, 37, 100, 197, 34, 57, 154, 135, 59, 160, 115, 234, 213, 176, 222, 162,
    205, 53, 19, 205, 115, 77, 65, 66, 170, 25, 173, 167, 155, 138, 211, 232]

/-- BLAKE3 for the second intent. -/
def digestIntent2 : Bytes32 :=
  #v[49, 69, 151, 103, 27, 208, 102, 27, 31, 219, 89, 5, 23, 139, 211, 247,
    39, 132, 233, 114, 11, 25, 195, 196, 252, 221, 35, 252, 70, 44, 225, 74]

/-- BLAKE3 of the first leaf. -/
def digestLeaf1 : Bytes32 :=
  #v[130, 208, 36, 11, 144, 71, 165, 7, 33, 4, 188, 171, 43, 66, 184, 33,
    166, 7, 244, 244, 168, 107, 5, 187, 71, 230, 198, 2, 151, 200, 247, 244]

/-- BLAKE3 of the second leaf. -/
def digestLeaf2 : Bytes32 :=
  #v[228, 43, 181, 48, 252, 207, 3, 88, 197, 29, 1, 184, 199, 230, 150, 44,
    179, 165, 113, 121, 112, 26, 80, 126, 168, 189, 34, 246, 3, 130, 81, 65]

/-- BLAKE3 of the node over the two leaves. -/
def digestRoot : Bytes32 :=
  #v[90, 166, 229, 143, 89, 112, 31, 47, 155, 50, 119, 79, 189, 232, 87, 158,
    48, 109, 119, 239, 246, 217, 112, 249, 240, 20, 45, 47, 31, 62, 193, 166]

/-- BLAKE3 on what the root over the two intents hashes. -/
def intentBlake3 (m : List UInt8) : Bytes32 :=
  (List.lookup m [(intentInput intent1, digestIntent1), (intentInput intent2, digestIntent2),
    (leafInput digestIntent1, digestLeaf1), (leafInput digestIntent2, digestLeaf2),
    (internalInput digestLeaf1 digestLeaf2, digestRoot)]).getD zeroRoot

theorem mempool_agreement_pair :
    stateRoot intentBlake3 [intent1, intent2] = stateRoot intentBlake3 [intent2, intent1] ∧
    ((MempoolPool.new 100000 10000).insertAll [intent1, intent2]).getOrdered zeroRoot =
      ((MempoolPool.new 100000 10000).insertAll [intent2, intent1]).getOrdered zeroRoot := by
  have hall := mempool_agreement intentBlake3 [intent1, intent2] [intent2, intent1]
    (by decide +kernel) (by decide +kernel)
  have hfree : CollisionFree intentBlake3 (stateRootInputs intentBlake3 [intent1, intent2] ++
      stateRootInputs intentBlake3 [intent2, intent1]) := by
    decide +kernel
  have hpool := hall.2 (List.Perm.swap _ _ _) (MempoolPool.new 100000 10000) zeroRoot
  refine ⟨(hall.1 hfree).mpr fun t => ?_, hpool.1 ?_⟩
  · exact ((List.Perm.swap intent2 intent1 []).map OverlayIntent.triple).mem_iff
  · decide +kernel

/-- A mission of capacity one keeps the first of two intents, whichever it is. -/
theorem full_mission_keeps_the_first :
    DistinctIds [intent1, intent2] ∧
    ((MempoolPool.new 100000 1).insertAll [intent1, intent2]).getOrdered zeroRoot ≠
      ((MempoolPool.new 100000 1).insertAll [intent2, intent1]).getOrdered zeroRoot := by
  decide +kernel

end CipherOcto.Network
