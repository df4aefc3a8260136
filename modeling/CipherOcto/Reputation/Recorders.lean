import CipherOcto.Reputation.Store

/-!
# Suspensions

A suspension is signed for a recorder id. `suspend_recorder` takes the id of the row it
writes to beside the signed record and does not compare the two, and `register_recorder`
writes the row of a DID anew, so a suspension can hit another recorder than the one it
was signed for and can be lifted by registering again.

> `suspensionLaw_iff`: an operation keeps to its target, and leaves what is suspended
> suspended, iff it is `OnTarget`.
> `step_recorders` says what an operation does to the table; the rest follows from it.
-/

namespace CipherOcto.Reputation

open Encoding Trace

variable (env : Env)

/-! ## What an operation does to the table -/

namespace Store

/-- The DID has a row, and it is suspended. -/
def suspended (s : Store) (did : RecorderDid) : Bool :=
  (s.recorders.lookup (env.didHash did)).any RecorderRow.suspended

/-- An operation suspends who it is signed for, and lifts no suspension. -/
structure SuspensionLaw (s : Store) (op : Op) : Prop where
  signed : ∀ did, s.suspended env did = false → (s.step env op).2.suspended env did = true →
    ∃ order recorderId auth nowUnix row, op = .suspendRecorder order recorderId auth nowUnix ∧
      (s.step env op).2.recorders.lookup (env.didHash did) = some row ∧
      auth.VerifiedFor env.blake3 env.verifyDispatch nowUnix row.recorderId
  lasts : ∀ did, s.suspended env did = true → (s.step env op).2.suspended env did = true

/-- A DID that is registered is not suspended, and a suspension that passes the checks
and finds a row to suspend is signed for the id it is called with. -/
def OnTarget (s : Store) : Op → Prop
  | .registerRecorder cr => verifyRegistration cr = .ok () → s.suspended env cr.recorderDid = false
  | .suspendRecorder order recorderId auth nowUnix =>
    verifyGovernanceSuspension env.blake3 env.verifyDispatch auth auth.snapshot nowUnix = .ok () →
      ∀ key row, s.findRecorder order recorderId = some (key, row) → row.suspended = false →
        auth.recorderId = recorderId
  | _ => True

/-- The rows are those of DIDs. -/
def Keyed (s : Store) : Prop := ∀ key ∈ s.recorders, ∃ did, env.didHash did = key

theorem findRecorder_eq_some {s : Store} {order : Bytes32 → Nat} {recorderId : Nat} {key : Bytes32}
    {row : RecorderRow} (h : s.findRecorder order recorderId = some (key, row)) :
    s.recorders.lookup key = some row ∧ row.recorderId = recorderId := by
  refine ⟨HashMap.mem_iterate.mp (List.mem_of_find?_eq_some h), ?_⟩
  simpa using List.find?_some h

variable {env}

/-- Registrations and suspensions. -/
def OnRecorders : Op → Prop
  | .registerRecorder _ => True
  | .suspendRecorder .. => True
  | _ => False

/-- The others leave the table alone. -/
theorem recorders_step_of_other (env : Env) (s : Store) {op : Op} (h : ¬ OnRecorders op) :
    (s.step env op).2.recorders = s.recorders := by
  cases op with
  | registerRecorder cr => exact absurd trivial h
  | suspendRecorder order recorderId auth nowUnix => exact absurd trivial h
  | recordSignal event => rfl
  | pruneEvent eventId => rfl
  | slashRecorder proof nowUnix => rfl
  | retentionPrune cutoffUnix nowUnix =>
    simp only [step, retentionPrune]
    split
    · rfl
    · rfl
  | registerAttestor registration =>
    simp only [step, registerAttestor]
    split
    · rfl
    · split
      · rfl
      · rfl
  | recordAttestation attestation =>
    simp only [step, recordAttestation]
    split
    · rfl
    · rfl
  | setEventAnchorTxHash eventId anchorTxHash =>
    simp only [step, setEventAnchorTxHash]
    split
    · rfl
    · split
      · split
        · rfl
        · rfl
      · rfl
    · rfl

/-- A registration that passes the checks writes a fresh row, a suspension that does marks
the row it finds, and nothing else touches the table. -/
theorem step_recorders (env : Env) (s : Store) (op : Op) :
    (∃ cr, op = .registerRecorder cr ∧ verifyRegistration cr = .ok () ∧
      (s.step env op).2.recorders =
        s.recorders.insert (env.didHash cr.recorderDid) ⟨s.nextRecorderId, false, false⟩) ∨
    (∃ order recorderId auth nowUnix key row,
      op = .suspendRecorder order recorderId auth nowUnix ∧
      verifyGovernanceSuspension env.blake3 env.verifyDispatch auth auth.snapshot nowUnix = .ok () ∧
      s.findRecorder order recorderId = some (key, row) ∧
      (s.step env op).2.recorders = s.recorders.insert key { row with suspended := true }) ∨
    ((s.step env op).2.recorders = s.recorders ∧ s.OnTarget env op) := by
  cases op with
  | registerRecorder cr =>
    cases hverify : verifyRegistration cr with
    | error e =>
      refine .inr (.inr ⟨?_, fun hok => absurd (hok.symm.trans hverify) (by simp)⟩)
      simp only [step, registerRecorder, hverify]
    | ok u =>
      refine .inl ⟨cr, rfl, hverify, ?_⟩
      simp only [step, registerRecorder, hverify]
  | suspendRecorder order recorderId auth nowUnix =>
    cases hverify : verifyGovernanceSuspension env.blake3 env.verifyDispatch auth auth.snapshot
        nowUnix with
    | error e =>
      refine .inr (.inr ⟨?_, fun hok => absurd (hok.symm.trans hverify) (by simp)⟩)
      simp only [step, suspendRecorder, hverify]
    | ok u =>
      cases hfind : s.findRecorder order recorderId with
      | none =>
        refine .inr (.inr ⟨?_, fun _ key row hsome => absurd (hfind.symm.trans hsome) (by simp)⟩)
        simp only [step, suspendRecorder, hverify, hfind]
      | some found =>
        obtain ⟨key, row⟩ := found
        refine .inr (.inl ⟨order, recorderId, auth, nowUnix, key, row, rfl, hverify, hfind, ?_⟩)
        simp only [step, suspendRecorder, hverify, hfind]
  | _ => exact .inr (.inr ⟨recorders_step_of_other env s id, trivial⟩)

theorem suspended_of_recorders_eq {s t : Store} (h : t.recorders = s.recorders)
    (did : RecorderDid) : t.suspended env did = s.suspended env did := by
  rw [suspended, suspended, h]

/-- The flag of a DID after its row, or another, is written. -/
theorem suspended_insert {s t : Store} {key : Bytes32} {row : RecorderRow}
    (h : t.recorders = s.recorders.insert key row) (did : RecorderDid) :
    t.suspended env did = if env.didHash did = key then row.suspended else s.suspended env did := by
  unfold suspended
  rw [h, HashMap.lookup_insert]
  split
  · rfl
  · rfl

theorem keyed_step {s : Store} (hs : s.Keyed env) (op : Op) : (s.step env op).2.Keyed env := by
  intro key hkey
  rcases step_recorders env s op with
    ⟨cr, -, -, hwrite⟩ | ⟨order, recorderId, auth, nowUnix, k, row, -, -, hfind, hwrite⟩ |
    ⟨hsame, -⟩
  · rw [hwrite, AList.mem_insert] at hkey
    rcases hkey with rfl | hold
    · exact ⟨cr.recorderDid, rfl⟩
    · exact hs key hold
  · rw [hwrite, AList.mem_insert] at hkey
    rcases hkey with rfl | hold
    · exact hs key (AList.lookup_isSome.mp (by rw [(findRecorder_eq_some hfind).1]; rfl))
    · exact hs key hold
  · exact hs key (hsame ▸ hkey)

/-! ## One operation -/

theorem suspensionLaw_of_onTarget {s : Store} {op : Op} (h : s.OnTarget env op) :
    s.SuspensionLaw env op := by
  rcases step_recorders env s op with
    ⟨cr, rfl, hverify, hwrite⟩ |
    ⟨order, recorderId, auth, nowUnix, key, row, rfl, hverify, hfind, hwrite⟩ | ⟨hsame, -⟩
  · -- the fresh row is not suspended, and takes the place of none that is
    have hnot : s.suspended env cr.recorderDid = false := h hverify
    refine ⟨fun did hbefore hafter => ?_, fun did hbefore => ?_⟩
    · rw [suspended_insert hwrite] at hafter
      split at hafter
      · exact absurd hafter (by simp)
      · exact absurd (hbefore.symm.trans hafter) (by simp)
    · rw [suspended_insert hwrite]
      split
      next hsame =>
        have hsuspended : s.suspended env cr.recorderDid = true := by
          rw [← hbefore, suspended, suspended, hsame]
        exact absurd (hnot.symm.trans hsuspended) (by simp)
      next => exact hbefore
  · obtain ⟨hrow, hid⟩ := findRecorder_eq_some hfind
    refine ⟨fun did hbefore hafter => ?_, fun did hbefore => ?_⟩
    · rw [suspended_insert hwrite] at hafter
      split at hafter
      next hkey =>
        have hfresh : row.suspended = false := by
          rw [suspended, hkey, hrow] at hbefore
          exact hbefore
        refine ⟨order, recorderId, auth, nowUnix, { row with suspended := true }, rfl, ?_, hverify, ?_⟩
        · rw [hwrite, hkey, AList.lookup_insert]
        · exact (h hverify key row hfind hfresh).trans hid.symm
      next => exact absurd (hbefore.symm.trans hafter) (by simp)
    · rw [suspended_insert hwrite]
      split
      · rfl
      · exact hbefore
  · refine ⟨fun did hbefore hafter => ?_, fun did hbefore => ?_⟩
    · rw [suspended_of_recorders_eq hsame, hbefore] at hafter
      exact absurd hafter (by simp)
    · rw [suspended_of_recorders_eq hsame, hbefore]

theorem onTarget_of_suspensionLaw {s : Store} {op : Op} (hs : s.Keyed env)
    (h : s.SuspensionLaw env op) : s.OnTarget env op := by
  rcases step_recorders env s op with
    ⟨cr, rfl, hverify, hwrite⟩ |
    ⟨order, recorderId, auth, nowUnix, key, row, rfl, hverify, hfind, hwrite⟩ | ⟨-, hon⟩
  · intro _
    by_contra hsuspended
    have hafter := h.lasts cr.recorderDid (Bool.eq_true_of_not_eq_false hsuspended)
    rw [suspended_insert hwrite, if_pos rfl] at hafter
    exact absurd hafter (by simp)
  · intro _ k r hk hfresh
    obtain ⟨rfl, rfl⟩ := Prod.mk.inj (Option.some.inj (hfind.symm.trans hk))
    obtain ⟨hrow, hid⟩ := findRecorder_eq_some hfind
    -- the row belongs to a DID, whose flag the call sets
    obtain ⟨did, hdid⟩ := hs key (AList.lookup_isSome.mp (by rw [hrow]; rfl))
    have hbefore : s.suspended env did = false := by
      rw [suspended, hdid, hrow]
      exact hfresh
    have hafter : (s.step env (.suspendRecorder order recorderId auth nowUnix)).2.suspended env did
        = true := by
      rw [suspended_insert hwrite, if_pos hdid]
    obtain ⟨_, _, auth', _, row', hop, hrow', -, hsigned⟩ := h.signed did hbefore hafter
    cases hop
    rw [hwrite, hdid, AList.lookup_insert] at hrow'
    cases hrow'
    exact hsigned.trans hid
  · exact hon

theorem suspensionLaw_iff {s : Store} (hs : s.Keyed env) (op : Op) :
    s.SuspensionLaw env op ↔ s.OnTarget env op :=
  ⟨onTarget_of_suspensionLaw hs, suspensionLaw_of_onTarget⟩

theorem keyed_new : Store.new.Keyed env := fun key hkey => absurd hkey (AList.notMem_empty key)

end Store

/-! ## Runs -/

/-- **Suspensions hit their target and last.** From a new store, every operation of a run
suspends only who it is signed for and lifts no suspension iff every operation is
`OnTarget` in the state it finds. -/
theorem suspension_on_target_iff (env : Env) (ops : List Op) :
    Along (Store.step env) (Store.SuspensionLaw env) .new ops ↔
      Along (Store.step env) (Store.OnTarget env) .new ops := by
  have hkeep : ∀ (s : Store) op, s.Keyed env → (s.step env op).2.Keyed env :=
    fun _ op hs => Store.keyed_step hs op
  have hiff : ∀ (s : Store) op, s.Keyed env → (s.SuspensionLaw env op ↔ s.OnTarget env op) :=
    fun _ op hs => Store.suspensionLaw_iff hs op
  exact along_congr hkeep hiff Store.keyed_new ops

/-! A recorder registers as number 0. A suspension signed for number 7 is passed with
number 0; or one signed for number 0, and the recorder registers again. -/

def sampleDid : RecorderDid := Vector.replicate 52 0xAA

def sampleMembers : List Bytes32 :=
  [Vector.replicate 32 1, Vector.replicate 32 2, Vector.replicate 32 3]

/-- BLAKE3 of the set of the three members. -/
def sampleSetHash : Bytes32 :=
  #v[251, 202, 26, 156, 71, 201, 167, 49, 66, 111, 136, 69, 226, 200, 164, 64,
    2, 181, 180, 178, 80, 27, 112, 77, 75, 103, 178, 57, 180, 235, 43, 21]

/-- `AlgorithmId::derive("ed25519")`. -/
def ed25519 : AlgorithmId := #v[202, 38, 148, 1, 58, 103, 90, 57, 152, 111, 96, 39, 0, 151, 213, 185]

def sampleChainRef : ChainRef :=
  ⟨7, 100, Vector.replicate 32 1, sampleDid, 4000, 1000, 1, 9999999999⟩

def sampleAuth (recorderId : Nat) (signature : List UInt8) : SuspensionAuth where
  governanceAlgorithmId := ed25519
  governancePubkey := List.replicate 32 9
  recorderId := recorderId
  reasonHash := Vector.replicate 32 4
  signature := signature
  snapshot := ⟨900, sampleSetHash, sampleMembers⟩
  governanceSetHash := sampleSetHash

/-- The digests signed for recorders 0 and 7 at time 1000. -/
def sampleDigest0 : Bytes32 :=
  #v[183, 3, 23, 121, 105, 43, 233, 33, 228, 228, 134, 118, 205, 74, 131, 49,
    236, 161, 132, 226, 16, 65, 171, 165, 94, 183, 177, 90, 46, 61, 172, 234]
def sampleDigest7 : Bytes32 :=
  #v[226, 40, 41, 15, 80, 206, 119, 182, 220, 35, 233, 92, 106, 133, 181, 249,
    104, 189, 93, 132, 206, 149, 17, 87, 253, 202, 166, 77, 29, 35, 201, 237]

/-- BLAKE3 on the four strings the runs hash. -/
def sampleBlake3 (m : List UInt8) : Bytes32 :=
  let digest (recorderId : Nat) : List UInt8 :=
    governanceSuspensionPreimage recorderId (Vector.replicate 32 4) (List.replicate 32 9) 1000
  if m = governanceSetDomain ++ sampleMembers.flatMap Vector.toList then sampleSetHash
  else if m = digest 0 then sampleDigest0
  else if m = digest 7 then sampleDigest7
  else sampleDidHash

/-- Two signatures of one key, one for recorder 0 and one for recorder 7. -/
def sampleEnv : Env where
  blake3 := sampleBlake3
  verifyDispatch algorithmId key message signature :=
    algorithmId = ed25519 ∧ key = List.replicate 32 9 ∧
      (message = sampleDigest0 ∧ signature = List.replicate 64 10 ∨
        message = sampleDigest7 ∧ signature = List.replicate 64 17)
  ewma cur _ _ := cur

/-- The suspension signed for recorder 7, for recorder 0. -/
def mistargetedRun : List Op :=
  [.registerRecorder sampleChainRef,
    .suspendRecorder (fun _ => 0) 0 (sampleAuth 7 (List.replicate 64 17)) 1000]

/-- The suspension of recorder 0, and the recorder again. -/
def reregisteredRun : List Op :=
  [.registerRecorder sampleChainRef,
    .suspendRecorder (fun _ => 0) 0 (sampleAuth 0 (List.replicate 64 10)) 1000,
    .registerRecorder sampleChainRef]

theorem suspension_mistargeted_and_lifted :
    ¬Along (Store.step sampleEnv) (Store.SuspensionLaw sampleEnv) .new mistargetedRun ∧
    ¬Along (Store.step sampleEnv) (Store.SuspensionLaw sampleEnv) .new reregisteredRun := by
  refine ⟨fun h => ?_, fun h => ?_⟩
  · obtain ⟨-, hlaw, -⟩ := h
    obtain ⟨_, _, _, _, row, hop, hrow, -, hsigned⟩ :=
      hlaw.signed sampleDid (by decide +kernel) (by decide +kernel)
    cases hop
    have hid : row.recorderId = 0 := by
      have hstored : (((Store.new.step sampleEnv (.registerRecorder sampleChainRef)).2.step sampleEnv
          (.suspendRecorder (fun _ => 0) 0 (sampleAuth 7 (List.replicate 64 17)) 1000)).2.recorders.lookup
          (sampleEnv.didHash sampleDid)) = some ⟨0, true, false⟩ := by decide +kernel
      cases hstored.symm.trans hrow
      rfl
    exact absurd (hsigned.trans hid) (by decide)
  · obtain ⟨-, -, hlaw, -⟩ := h
    exact absurd (hlaw.lasts sampleDid (by decide +kernel)) (by decide +kernel)

end CipherOcto.Reputation
