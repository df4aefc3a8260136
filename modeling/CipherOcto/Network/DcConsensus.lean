import CipherOcto.Lib.Since
import CipherOcto.Lib.SortBy
import Mathlib.Data.Finset.Card
import Mathlib.Data.List.Destutter
import Mathlib.Data.String.Basic

/-!
# Consensus of the domain coordinators

A coordinator collects the votes of the participants on a rebind or an unbind, and commits
when enough of them are prepared: the one there is, both of two, two thirds of more. A
refusal, or a vote of a stranger, aborts; what is not decided at the deadline times out.

> `committing_iff`: what a coordinator commits on, in any run of votes and deadline checks.
> `agree_iff`: coordinators that get the same votes in different orders end alike, for every
> two orders, iff no vote is a refusal or a stranger's, or the prepared ones are too few.

A single participant is not waited for: the deadline commits without its vote.
-/

namespace CipherOcto.Network.DcConsensus

open Trace

/-! ## The code -/

inductive ConsensusVote where
  | prepared | rejected
deriving DecidableEq

inductive ConsensusState where
  | idle | preparing | committing | committed | aborted | timedOut
deriving DecidableEq

inductive Quorum where
  | unilateral | unanimous | twoThirds
deriving DecidableEq

/-- `Quorum::for_n`. -/
def Quorum.forN : Nat → Quorum
  | 0 | 1 => .unilateral
  | 2 => .unanimous
  | _ => .twoThirds

/-- `Quorum::is_met`. -/
def Quorum.isMet (q : Quorum) (prepared n : Nat) : Bool :=
  if n = 0 then false
  else match q with
    | .unilateral => true
    | .unanimous => prepared == n
    | .twoThirds => prepared * 3 ≥ n * 2

structure DcConsensusCoordinator where
  participants : List String
  state : ConsensusState
  responses : List (String × ConsensusVote)
  initAtEpoch : Nat
  deadlineEpoch : Nat
  abortReason : Option String
deriving DecidableEq

inductive ConsensusOutcome where
  | committed
  | aborted (reason : String)
  | timedOut
  | inProgress
deriving DecidableEq

/-- `participants.sort(); participants.dedup()`. -/
def sortDedup (participants : List String) : List String :=
  (sortBy id participants).destutter (· ≠ ·)

namespace DcConsensusCoordinator

/-- `DcConsensusCoordinator::new`, at a time in seconds. -/
def new (participants : List String) (now : Nat) : DcConsensusCoordinator where
  participants := sortDedup participants
  state := .preparing
  responses := []
  initAtEpoch := now
  deadlineEpoch := now + 1
  abortReason := none

/-- `DcConsensusCoordinator::quorum`. -/
def quorum (c : DcConsensusCoordinator) : Quorum := .forN c.participants.length

/-- `DcConsensusCoordinator::abort`. -/
def abort (c : DcConsensusCoordinator) (reason : String) :
    ConsensusState × DcConsensusCoordinator :=
  match c.state with
  | .idle | .committed | .aborted | .timedOut => (c.state, c)
  | .preparing | .committing =>
    (.aborted, { c with state := .aborted, abortReason := some reason })

/-- The responses that are prepared. -/
def prepared (c : DcConsensusCoordinator) : Nat :=
  (c.responses.filter fun r => r.2 = .prepared).length

/-- Enough of the participants are prepared. -/
def isMet (c : DcConsensusCoordinator) : Bool :=
  c.quorum.isMet c.prepared c.participants.length

def setState (c : DcConsensusCoordinator) (state : ConsensusState) :
    ConsensusState × DcConsensusCoordinator :=
  (state, { c with state := state })

/-- A response in the place of the sender's last one. -/
def record (c : DcConsensusCoordinator) (dcPubkey : String) (vote : ConsensusVote) :
    DcConsensusCoordinator :=
  { c with responses :=
      (c.responses.filter fun r : String × ConsensusVote => r.1 ≠ dcPubkey) ++ [(dcPubkey, vote)] }

/-- `DcConsensusCoordinator::record_vote`. -/
def recordVote (c : DcConsensusCoordinator) (dcPubkey : String) (vote : ConsensusVote) :
    ConsensusState × DcConsensusCoordinator :=
  if c.state ≠ .preparing then (c.state, c)
  else if c.participants = [] then c.abort "no participants configured"
  else if dcPubkey ∉ c.participants then c.abort ("unknown dc " ++ dcPubkey)
  else
    let recorded := c.record dcPubkey vote
    if vote = .rejected then recorded.abort (dcPubkey ++ " voted rejected")
    else if recorded.isMet then recorded.setState .committing
    else (recorded.state, recorded)

/-- `DcConsensusCoordinator::check_deadline`. -/
def checkDeadline (c : DcConsensusCoordinator) (currentEpoch : Nat) :
    ConsensusState × DcConsensusCoordinator :=
  if c.state ≠ .preparing then (c.state, c)
  else if c.participants = [] then c.abort "no participants configured"
  else if currentEpoch < c.deadlineEpoch then (c.state, c)
  else if c.isMet then c.setState .committing
  else
    (.timedOut, { c with
      state := .timedOut
      abortReason := some ("deadline elapsed with " ++ toString c.prepared ++ "/" ++
        toString c.participants.length ++ " prepared") })

/-- `DcConsensusCoordinator::mark_committed`. -/
def markCommitted (c : DcConsensusCoordinator) : DcConsensusCoordinator :=
  if c.state = .committing then { c with state := .committed } else c

/-- `DcConsensusCoordinator::outcome`. -/
def outcome (c : DcConsensusCoordinator) : ConsensusOutcome :=
  match c.state with
  | .committed => .committed
  | .aborted => .aborted (c.abortReason.getD "abort")
  | .timedOut => .timedOut
  | .idle | .preparing | .committing => .inProgress

/-! ## Runs -/

inductive Call where
  | vote (dcPubkey : String) (vote : ConsensusVote)
  | deadline (currentEpoch : Nat)
  | commit
deriving DecidableEq

def call (c : DcConsensusCoordinator) : Call → ConsensusState × DcConsensusCoordinator
  | .vote dcPubkey vote => c.recordVote dcPubkey vote
  | .deadline currentEpoch => c.checkDeadline currentEpoch
  | .commit => (c.markCommitted.state, c.markCommitted)

/-- Where a run from a fresh coordinator leads. -/
def after (participants : List String) (now : Nat) (calls : List Call) : DcConsensusCoordinator :=
  final call (new participants now) calls

/-- The participants that have voted that they are prepared. -/
def voters (participants : List String) (calls : List Call) : Finset String :=
  (participants.filter fun dc => .vote dc .prepared ∈ calls).toFinset

/-- The call is no reason to decide: a vote of a participant that is prepared, or a look at the
deadline before it. -/
def Quiet (participants : List String) (deadline : Nat) : Call → Prop
  | .vote dc vote => vote = .prepared ∧ dc ∈ participants
  | .deadline epoch => participants ≠ [] ∧ epoch < deadline
  | .commit => True

/-- The prepared votes are enough. -/
def Enough (participants : List String) (calls : List Call) : Prop :=
  (voters participants calls).Nonempty ∧
    (Quorum.forN participants.length).isMet (voters participants calls).card
      participants.length = true

/-- On the way to commit. -/
def Commits (c : DcConsensusCoordinator) : Prop := c.state = .committing ∨ c.state = .committed

/-! ## Quorums -/

theorem sortDedup_eq_dedup (participants : List String) :
    sortDedup participants = (sortBy id participants).dedup :=
  List.Pairwise.destutter_eq_dedup (r := fun a b : String => a ≤ b) (pairwise_sortBy id participants)

/-- More prepared votes are as good, up to all. -/
theorem isMet_mono {k l n : Nat} (hkl : k ≤ l) (hl : l ≤ n)
    (h : (Quorum.forN n).isMet k n = true) : (Quorum.forN n).isMet l n = true := by
  unfold Quorum.isMet at h ⊢
  split at h
  next => cases h
  next hn =>
    rw [if_neg hn]
    match n, hn with
    -- a single participant is not asked how many are prepared
    | 1, _ => rfl
    | 2, _ =>
      simp only [Quorum.forN, beq_iff_eq] at h ⊢
      omega
    | n + 3, _ =>
      simp only [Quorum.forN, decide_eq_true_eq] at h ⊢
      omega

section

variable {participants : List String} {calls more : List Call} {dc : String}

theorem mem_voters :
    dc ∈ voters participants calls ↔ dc ∈ participants ∧ .vote dc .prepared ∈ calls := by
  rw [voters, List.mem_toFinset, List.mem_filter, decide_eq_true_eq]

theorem card_voters_le (participants : List String) (calls : List Call) :
    (voters participants calls).card ≤ participants.length :=
  (List.toFinset_card_le _).trans (List.length_filter_le _ _)

theorem voters_mono (h : ∀ dc, .vote dc .prepared ∈ calls → .vote dc .prepared ∈ more) :
    voters participants calls ⊆ voters participants more := by
  intro dc hdc
  rw [mem_voters] at hdc ⊢
  exact ⟨hdc.1, h dc hdc.2⟩

/-- Votes that are enough stay so. -/
theorem Enough.mono (h : Enough participants calls)
    (hsub : voters participants calls ⊆ voters participants more) : Enough participants more :=
  ⟨h.1.mono hsub, isMet_mono (Finset.card_le_card hsub) (card_voters_le participants more) h.2⟩

theorem voters_concat_vote (hdc : dc ∈ participants) :
    voters participants (calls ++ [.vote dc .prepared]) =
      insert dc (voters participants calls) := by
  ext dc'
  rw [Finset.mem_insert, mem_voters, mem_voters, List.mem_append, List.mem_singleton,
    Call.vote.injEq, and_iff_left rfl, and_or_left]
  constructor
  · rintro (hold | ⟨-, rfl⟩)
    · exact .inr hold
    · exact .inl rfl
  · rintro (rfl | hold)
    · exact .inr ⟨hdc, rfl⟩
    · exact .inl hold

theorem voters_concat_of_ne {x : Call} (hx : ∀ dc, x ≠ .vote dc .prepared) :
    voters participants (calls ++ [x]) = voters participants calls := by
  ext dc
  rw [mem_voters, mem_voters, List.mem_append, List.mem_singleton]
  exact and_congr_right fun _ => or_iff_left fun heq => hx dc heq.symm

end

/-! ## Steps -/

section

variable {c : DcConsensusCoordinator}

@[simp] theorem state_record (c : DcConsensusCoordinator) (dc : String) (vote : ConsensusVote) :
    (c.record dc vote).state = c.state := rfl

theorem responses_record (c : DcConsensusCoordinator) (dc : String) (vote : ConsensusVote) :
    (c.record dc vote).responses =
      (c.responses.filter fun r => r.1 ≠ dc) ++ [(dc, vote)] := rfl

@[simp] theorem participants_record (c : DcConsensusCoordinator) (dc : String)
    (vote : ConsensusVote) : (c.record dc vote).participants = c.participants := rfl

@[simp] theorem deadlineEpoch_record (c : DcConsensusCoordinator) (dc : String)
    (vote : ConsensusVote) : (c.record dc vote).deadlineEpoch = c.deadlineEpoch := rfl

@[simp] theorem participants_setState (c : DcConsensusCoordinator) (state : ConsensusState) :
    (c.setState state).2.participants = c.participants := rfl

@[simp] theorem deadlineEpoch_setState (c : DcConsensusCoordinator) (state : ConsensusState) :
    (c.setState state).2.deadlineEpoch = c.deadlineEpoch := rfl

@[simp] theorem participants_abort (c : DcConsensusCoordinator) (reason : String) :
    (c.abort reason).2.participants = c.participants := by
  unfold abort
  split
  all_goals rfl

@[simp] theorem deadlineEpoch_abort (c : DcConsensusCoordinator) (reason : String) :
    (c.abort reason).2.deadlineEpoch = c.deadlineEpoch := by
  unfold abort
  split
  all_goals rfl

theorem state_abort (h : c.state = .preparing) (reason : String) :
    (c.abort reason).2.state = .aborted := by
  unfold abort
  rw [h]

/-- The participants and the deadline stay. -/
theorem call_keeps (c : DcConsensusCoordinator) (x : Call) :
    (c.call x).2.participants = c.participants ∧
      (c.call x).2.deadlineEpoch = c.deadlineEpoch := by
  cases x with
  | vote dc vote =>
    show (c.recordVote dc vote).2.participants = _ ∧ (c.recordVote dc vote).2.deadlineEpoch = _
    unfold recordVote
    simp only
    split_ifs
    all_goals simp
  | deadline epoch =>
    show (c.checkDeadline epoch).2.participants = _ ∧ (c.checkDeadline epoch).2.deadlineEpoch = _
    unfold checkDeadline
    split_ifs
    all_goals simp
  | commit =>
    show c.markCommitted.participants = _ ∧ c.markCommitted.deadlineEpoch = _
    unfold markCommitted
    split_ifs
    all_goals exact ⟨rfl, rfl⟩

/-- What is decided is not decided again. -/
theorem call_of_decided (h : c.state ≠ .preparing) (x : Call) :
    (c.call x).2 = c ∨ x = .commit ∧ c.state = .committing ∧
      (c.call x).2 = { c with state := .committed } := by
  cases x with
  | vote dc vote => exact .inl (congrArg Prod.snd (if_pos h))
  | deadline epoch => exact .inl (congrArg Prod.snd (if_pos h))
  | commit =>
    by_cases hcommitting : c.state = .committing
    · exact .inr ⟨rfl, hcommitting, if_pos hcommitting⟩
    · exact .inl (if_neg hcommitting)

/-- A look before the deadline changes nothing. -/
theorem call_deadline_early (h : c.state = .preparing) (hsome : c.participants ≠ []) {epoch : Nat}
    (hepoch : epoch < c.deadlineEpoch) : (c.call (.deadline epoch)).2 = c := by
  show (c.checkDeadline epoch).2 = c
  unfold checkDeadline
  rw [if_neg (not_not_intro h), if_neg hsome, if_pos hepoch]

/-- Only what is being committed is marked as committed. -/
theorem call_commit_early (h : c.state = .preparing) : (c.call .commit).2 = c := by
  show c.markCommitted = c
  unfold markCommitted
  rw [h, if_neg (by decide)]

theorem commits_call (h : c.Commits) (x : Call) : (c.call x).2.Commits := by
  have hstate : c.state ≠ .preparing := by
    rcases h with h | h
    · simp [h]
    · simp [h]
  rcases call_of_decided hstate x with heq | ⟨-, -, heq⟩
  · rw [heq]
    exact h
  · rw [heq]
    exact .inr rfl

/-- A vote that is a refusal, or a stranger's. -/
def Bad (participants : List String) (dc : String) (vote : ConsensusVote) : Prop :=
  vote = .rejected ∨ dc ∉ participants

theorem recordVote_bad (h : c.state = .preparing) {dc : String} {vote : ConsensusVote}
    (hbad : Bad c.participants dc vote) : (c.recordVote dc vote).2.state = .aborted := by
  unfold recordVote
  rw [if_neg (not_not_intro h)]
  split
  next => exact state_abort h _
  next =>
    split
    next => exact state_abort h _
    next hmem =>
      have hrejected : vote = .rejected := hbad.resolve_right (not_not_intro (not_not.mp hmem))
      simp only [if_pos hrejected]
      exact state_abort (c := c.record dc vote) h _

/-- The coordinator waits, with the voters' responses. -/
structure Waiting (c : DcConsensusCoordinator) (calls : List Call) : Prop where
  state : c.state = .preparing
  nodup : (c.responses.map Prod.fst).Nodup
  prepared : ∀ r ∈ c.responses, r.2 = .prepared
  voters : (c.responses.map Prod.fst).toFinset = voters c.participants calls

section

variable {calls : List Call} (h : c.Waiting calls)
include h

theorem Waiting.card_eq : c.prepared = (DcConsensusCoordinator.voters c.participants calls).card := by
  have hall : c.responses.filter (fun r => r.2 = .prepared) = c.responses :=
    List.filter_eq_self.mpr fun r hr => decide_eq_true (h.prepared r hr)
  rw [DcConsensusCoordinator.prepared, hall, ← h.voters, List.toFinset_card_of_nodup h.nodup,
    List.length_map]

theorem Waiting.congr {more : List Call}
    (hsame : DcConsensusCoordinator.voters c.participants more =
      DcConsensusCoordinator.voters c.participants calls) : c.Waiting more :=
  ⟨h.state, h.nodup, h.prepared, h.voters.trans hsame.symm⟩

/-- The responses after a prepared vote. -/
theorem Waiting.record {dc : String} (hdc : dc ∈ c.participants) :
    (c.record dc .prepared).Waiting (calls ++ [.vote dc .prepared]) where
  state := h.state
  nodup := by
    rw [responses_record, List.map_append, List.map_cons, List.map_nil]
    refine List.nodup_append.mpr ⟨?_, List.nodup_singleton dc, ?_⟩
    · exact h.nodup.sublist (List.filter_sublist.map _)
    · intro dc' hmem dc'' hlast
      obtain ⟨r, hr, rfl⟩ := List.mem_map.mp hmem
      rw [List.mem_singleton.mp hlast]
      exact of_decide_eq_true (List.mem_filter.mp hr).2
  prepared r hr := by
    rcases List.mem_append.mp hr with hold | hnew
    · exact h.prepared r (List.mem_of_mem_filter hold)
    · rw [List.mem_singleton.mp hnew]
  voters := by
    rw [participants_record, voters_concat_vote hdc, ← h.voters]
    ext dc'
    simp only [responses_record, List.map_append, List.mem_toFinset, List.mem_append, List.mem_map,
      Finset.mem_insert, List.mem_filter, decide_eq_true_eq, List.mem_singleton]
    constructor
    · rintro (⟨r, ⟨hr, -⟩, rfl⟩ | ⟨r, rfl, rfl⟩)
      · exact .inr ⟨r, hr, rfl⟩
      · exact .inl rfl
    · rintro (rfl | ⟨r, hr, rfl⟩)
      · exact .inr ⟨_, rfl, rfl⟩
      · by_cases heq : r.1 = dc
        -- a second vote takes the place of the first
        · exact .inr ⟨_, rfl, heq.symm⟩
        · exact .inl ⟨r, ⟨hr, heq⟩, rfl⟩

/-- A prepared vote of a participant: enough now, or waiting still. -/
theorem Waiting.call_vote {dc : String} (hdc : dc ∈ c.participants) :
    Enough c.participants (calls ++ [.vote dc .prepared]) ∧
        (c.call (.vote dc .prepared)).2.state = .committing ∨
      ¬Enough c.participants (calls ++ [.vote dc .prepared]) ∧
        (c.call (.vote dc .prepared)).2.Waiting (calls ++ [.vote dc .prepared]) := by
  have hrecord := h.record hdc
  have hmet : (c.record dc .prepared).isMet = true ↔
      Enough c.participants (calls ++ [.vote dc .prepared]) := by
    rw [isMet, quorum, hrecord.card_eq, participants_record, Enough,
      and_iff_right ⟨dc, mem_voters.mpr ⟨hdc, List.mem_append_right _ List.mem_cons_self⟩⟩]
  show _ ∧ (c.recordVote dc .prepared).2.state = _ ∨ _ ∧ (c.recordVote dc .prepared).2.Waiting _
  unfold recordVote
  rw [if_neg (not_not_intro h.state), if_neg (List.ne_nil_of_mem hdc),
    if_neg (not_not_intro hdc)]
  simp only [if_neg (show ¬ConsensusVote.prepared = .rejected by decide)]
  rw [← hmet]
  split
  next henough => exact .inl ⟨henough, rfl⟩
  next hfew => exact .inr ⟨hfew, hrecord⟩

/-- What happens at the deadline. -/
theorem Waiting.call_deadline {epoch : Nat} (hsome : c.participants ≠ [])
    (hepoch : c.deadlineEpoch ≤ epoch) :
    (c.call (.deadline epoch)).2.state =
      if (Quorum.forN c.participants.length).isMet
          (DcConsensusCoordinator.voters c.participants calls).card c.participants.length
      then .committing else .timedOut := by
  show (c.checkDeadline epoch).2.state = _
  unfold checkDeadline
  rw [if_neg (not_not_intro h.state), if_neg hsome, if_neg (Nat.not_lt.mpr hepoch), isMet, quorum,
    h.card_eq]
  split
  next => rfl
  next => rfl

/-- A quiet call: enough now, or waiting still. -/
theorem Waiting.call_quiet {x : Call} (hx : Quiet c.participants c.deadlineEpoch x)
    (hfew : ¬Enough c.participants calls) :
    Enough c.participants (calls ++ [x]) ∧ (c.call x).2.Commits ∨
      ¬Enough c.participants (calls ++ [x]) ∧ (c.call x).2.Waiting (calls ++ [x]) := by
  -- a call that is no prepared vote adds no voter
  have hstill : ∀ {y : Call}, (∀ dc, y ≠ .vote dc .prepared) → (c.call y).2 = c →
      ¬Enough c.participants (calls ++ [y]) ∧ (c.call y).2.Waiting (calls ++ [y]) := by
    intro y hy hsame
    have hvoters : DcConsensusCoordinator.voters c.participants (calls ++ [y]) =
        DcConsensusCoordinator.voters c.participants calls := voters_concat_of_ne hy
    rw [hsame, Enough, hvoters]
    exact ⟨hfew, h.congr hvoters⟩
  cases x with
  | vote dc vote =>
    obtain ⟨rfl, hdc⟩ := hx
    exact (h.call_vote hdc).imp (fun hyes => ⟨hyes.1, .inl hyes.2⟩) id
  | deadline epoch =>
    exact .inr (hstill (fun dc heq => nomatch heq) (call_deadline_early h.state hx.1 hx.2))
  | commit => exact .inr (hstill (fun dc heq => nomatch heq) (call_commit_early h.state))

end

/-- A coordinator that prepares still has had no reason to decide. -/
theorem quiet_of_preparing {x : Call} (h : (c.call x).2.state = .preparing) :
    c.state = .preparing ∧ Quiet c.participants c.deadlineEpoch x := by
  -- no call leads back from a decision
  have hstate : c.state = .preparing := by
    by_contra hdecided
    rcases call_of_decided hdecided x with heq | ⟨-, -, heq⟩
    · rw [heq] at h
      exact hdecided h
    · rw [heq] at h
      cases h
  refine ⟨hstate, ?_⟩
  cases x with
  | vote dc vote =>
    by_contra hquiet
    have hbad : Bad c.participants dc vote := by
      rcases not_and_or.mp hquiet with hvote | hdc
      · cases vote with
        | prepared => exact absurd rfl hvote
        | rejected => exact .inl rfl
      · exact .inr hdc
    have haborted : (c.call (.vote dc vote)).2.state = .aborted := recordVote_bad hstate hbad
    rw [haborted] at h
    cases h
  | deadline epoch =>
    replace h : (c.checkDeadline epoch).2.state = .preparing := h
    unfold checkDeadline at h
    rw [if_neg (not_not_intro hstate)] at h
    split at h
    next =>
      rw [state_abort hstate] at h
      cases h
    next hsome =>
      split at h
      next hepoch => exact ⟨hsome, hepoch⟩
      next =>
        split at h
        next => cases h
        next => cases h
  | commit => trivial

end

/-! ## Runs -/

section

variable {ps : List String} {now : Nat} {calls : List Call}

theorem after_concat (ps : List String) (now : Nat) (calls : List Call) (x : Call) :
    after ps now (calls ++ [x]) = ((after ps now calls).call x).2 := final_append ..

theorem after_append (ps : List String) (now : Nat) (xs ys : List Call) :
    after ps now (xs ++ ys) = final call (after ps now xs) ys := final_append ..

@[simp] theorem participants_after (ps : List String) (now : Nat) (calls : List Call) :
    (after ps now calls).participants = sortDedup ps := by
  induction calls using List.reverseRecOn with
  | nil => rfl
  | append_singleton calls x ih => rw [after_concat, (call_keeps _ x).1, ih]

@[simp] theorem deadlineEpoch_after (ps : List String) (now : Nat) (calls : List Call) :
    (after ps now calls).deadlineEpoch = now + 1 := by
  induction calls using List.reverseRecOn with
  | nil => rfl
  | append_singleton calls x ih => rw [after_concat, (call_keeps _ x).2, ih]

theorem commits_final {c : DcConsensusCoordinator} (h : c.Commits) (calls : List Call) :
    (final call c calls).Commits := by
  induction calls generalizing c with
  | nil => exact h
  | cons x calls ih => exact ih (commits_call h x)

/-- After quiet calls, enough votes commit and fewer wait. -/
theorem after_quiet (hquiet : ∀ x ∈ calls, Quiet (sortDedup ps) (now + 1) x) :
    Enough (sortDedup ps) calls ∧ (after ps now calls).Commits ∨
      ¬Enough (sortDedup ps) calls ∧ (after ps now calls).Waiting calls := by
  induction calls using List.reverseRecOn with
  | nil =>
    have hnone : voters (sortDedup ps) [] = ∅ := by
      ext dc
      rw [mem_voters]
      exact iff_of_false (fun hdc => absurd hdc.2 List.not_mem_nil) (Finset.notMem_empty dc)
    refine .inr ⟨fun henough => ?_, ⟨rfl, List.nodup_nil, fun r hr => absurd hr List.not_mem_nil, ?_⟩⟩
    · exact henough.1.ne_empty hnone
    · exact hnone.symm
  | append_singleton calls x ih =>
    rw [after_concat]
    rcases ih fun y hy => hquiet y (List.mem_append_left _ hy) with
      ⟨henough, hcommits⟩ | ⟨hfew, hwaiting⟩
    · refine .inl ⟨henough.mono (voters_mono fun dc hdc => List.mem_append_left _ hdc), ?_⟩
      exact commits_call hcommits x
    · have hx := hquiet x (List.mem_append_right _ List.mem_cons_self)
      have hstep := hwaiting.call_quiet (x := x) (by simpa using hx) (by simpa using hfew)
      simpa using hstep

/-- A coordinator that prepares still has had quiet calls only. -/
theorem quiet_of_after_preparing (h : (after ps now calls).state = .preparing) :
    ∀ x ∈ calls, Quiet (sortDedup ps) (now + 1) x := by
  induction calls using List.reverseRecOn with
  | nil => exact fun x hx => absurd hx List.not_mem_nil
  | append_singleton calls x ih =>
    rw [after_concat] at h
    obtain ⟨hbefore, hquiet⟩ := quiet_of_preparing h
    rw [participants_after, deadlineEpoch_after] at hquiet
    intro y hy
    rcases List.mem_append.mp hy with hold | hnew
    · exact ih hbefore y hold
    · rw [List.mem_singleton.mp hnew]
      exact hquiet

theorem waiting_of_after_preparing (h : (after ps now calls).state = .preparing) :
    ¬Enough (sortDedup ps) calls ∧ (after ps now calls).Waiting calls := by
  refine (after_quiet (quiet_of_after_preparing h)).resolve_left fun hcommits => ?_
  rcases hcommits.2 with hstate | hstate
  · rw [h] at hstate
    cases hstate
  · rw [h] at hstate
    cases hstate

/-- The call makes a coordinator commit that has had the calls before: the prepared votes are
enough with it, or it finds them enough at the deadline. -/
def DecidesFor (participants : List String) (deadline : Nat) (before : List Call) : Call → Prop
  | .vote dc vote =>
    vote = .prepared ∧ dc ∈ participants ∧ Enough participants (before ++ [.vote dc .prepared])
  | .deadline epoch =>
    deadline ≤ epoch ∧ participants ≠ [] ∧
      (Quorum.forN participants.length).isMet (voters participants before).card
        participants.length = true
  | .commit => False

theorem commits_call_iff (h : (after ps now calls).state = .preparing) (x : Call) :
    ((after ps now calls).call x).2.Commits ↔
      DecidesFor (sortDedup ps) (now + 1) calls x := by
  have hwaiting := (waiting_of_after_preparing h).2
  -- the three ends of a call that does not commit
  have hnot : ∀ {c : DcConsensusCoordinator}, c.state = .preparing ∨ c.state = .aborted ∨
      c.state = .timedOut → ¬c.Commits := by
    rintro c hstate (hc | hc)
    · simp [hc] at hstate
    · simp [hc] at hstate
  cases x with
  | vote dc vote =>
    by_cases hbad : Bad (sortDedup ps) dc vote
    · have hstate : ((after ps now calls).call (.vote dc vote)).2.state = .aborted :=
        recordVote_bad h (by simpa using hbad)
      refine iff_of_false (hnot (.inr (.inl hstate))) ?_
      rintro ⟨rfl, hdc, -⟩
      rcases hbad with hrejected | hstranger
      · cases hrejected
      · exact hstranger hdc
    · obtain ⟨hvote, hdc⟩ := not_or.mp hbad
      obtain rfl : vote = .prepared := by
        cases vote with
        | prepared => rfl
        | rejected => exact absurd rfl hvote
      rw [not_not] at hdc
      rcases hwaiting.call_vote (show dc ∈ _ by simpa using hdc) with
        ⟨henough, hstate⟩ | ⟨hfew, hstill⟩
      · rw [participants_after] at henough
        exact iff_of_true (.inl hstate) ⟨rfl, hdc, henough⟩
      · rw [participants_after] at hfew
        exact iff_of_false (hnot (.inl hstill.state)) fun hdecides => hfew hdecides.2.2
  | deadline epoch =>
    by_cases hsome : sortDedup ps = []
    -- without participants the deadline aborts, at any epoch
    · have hstate : ((after ps now calls).call (.deadline epoch)).2.state = .aborted := by
        show ((after ps now calls).checkDeadline epoch).2.state = .aborted
        unfold checkDeadline
        rw [if_neg (not_not_intro h), if_pos (by simpa using hsome), state_abort h]
      exact iff_of_false (hnot (.inr (.inl hstate))) fun hdecides => hdecides.2.1 hsome
    · by_cases hepoch : now + 1 ≤ epoch
      · have hstate := hwaiting.call_deadline (by simpa using hsome)
          (show _ ≤ epoch by simpa using hepoch)
        rw [participants_after] at hstate
        split at hstate
        next hmet => exact iff_of_true (.inl hstate) ⟨hepoch, hsome, hmet⟩
        next hfew =>
          exact iff_of_false (hnot (.inr (.inr hstate))) fun hdecides => hfew hdecides.2.2
      · have hsame : ((after ps now calls).call (.deadline epoch)).2 = after ps now calls :=
          call_deadline_early h (by simpa using hsome) (by simpa using hepoch)
        rw [hsame]
        exact iff_of_false (hnot (.inl h)) fun hdecides => hepoch hdecides.1
  | commit =>
    rw [call_commit_early h]
    exact iff_of_false (hnot (.inl h)) id

/-- **What is committed.** A coordinator commits iff, with no refusal, no stranger's vote and no
look at a passed deadline before, a vote brought the prepared participants up to the quorum, or
the deadline found them there. -/
theorem committing_iff (ps : List String) (now : Nat) (calls : List Call) :
    (after ps now calls).Commits ↔ ∃ before x rest, calls = before ++ x :: rest ∧
      (∀ y ∈ before, Quiet (sortDedup ps) (now + 1) y) ∧
      DecidesFor (sortDedup ps) (now + 1) before x := by
  constructor
  · intro hcommits
    -- once it commits it does so for good: the call that began it is the witness
    have hstep : ∀ (c : DcConsensusCoordinator) x, (c.call x).2.Commits ↔
        (c.state = .preparing ∧ (c.call x).2.Commits) ∨ c.Commits ∧ True := by
      intro c x
      constructor
      · intro hnext
        by_cases hstate : c.state = .preparing
        · exact .inl ⟨hstate, hnext⟩
        · rcases call_of_decided hstate x with heq | ⟨-, hcommitting, -⟩
          · rw [heq] at hnext
            exact .inr ⟨hnext, trivial⟩
          · exact .inr ⟨.inl hcommitting, trivial⟩
      · rintro (⟨-, hnext⟩ | ⟨hc, -⟩)
        · exact hnext
        · exact commits_call hc x
    have hnew : ¬(new ps now).Commits := by
      rintro (hstate | hstate)
      · cases hstate
      · cases hstate
    obtain ⟨before, x, rest, hsplit, ⟨hstate, hnext⟩, -⟩ :=
      (since_iff_of_not hstep hnew calls).mp hcommits
    exact ⟨before, x, rest, hsplit, quiet_of_after_preparing hstate,
      (commits_call_iff hstate x).mp hnext⟩
  · rintro ⟨before, x, rest, rfl, hquiet, hdecides⟩
    rw [after_append]
    rcases after_quiet hquiet with ⟨-, hcommits⟩ | ⟨-, hwaiting⟩
    · exact commits_final hcommits _
    · exact commits_final ((commits_call_iff hwaiting.state x).mpr hdecides) rest

/-! ## Votes in any order -/

/-- The calls of a list of votes. -/
def votesOf (votes : List (String × ConsensusVote)) : List Call :=
  votes.map fun v => .vote v.1 v.2

/-- The state that votes lead to, before any deadline. -/
def stateOf (ps : List String) (now : Nat) (votes : List (String × ConsensusVote)) :
    ConsensusState := (after ps now (votesOf votes)).state

section

variable {votes : List (String × ConsensusVote)}

theorem mem_votesOf {dc : String} {vote : ConsensusVote} :
    .vote dc vote ∈ votesOf votes ↔ (dc, vote) ∈ votes := by
  rw [votesOf, List.mem_map]
  constructor
  · rintro ⟨v, hv, heq⟩
    cases heq
    exact hv
  · exact fun hv => ⟨_, hv, rfl⟩

theorem stateOf_concat (ps : List String) (now : Nat) (votes : List (String × ConsensusVote))
    (v : String × ConsensusVote) : stateOf ps now (votes ++ [v]) =
      ((after ps now (votesOf votes)).recordVote v.1 v.2).2.state := by
  rw [stateOf, votesOf, List.map_append, List.map_singleton, after_concat]
  rfl

/-- Votes alone wait, commit or abort. -/
theorem stateOf_cases (ps : List String) (now : Nat) (votes : List (String × ConsensusVote)) :
    stateOf ps now votes = .preparing ∨ stateOf ps now votes = .committing ∨
      stateOf ps now votes = .aborted := by
  induction votes using List.reverseRecOn with
  | nil => exact .inl rfl
  | append_singleton votes v ih =>
    rw [stateOf_concat]
    unfold stateOf at ih
    by_cases hstate : (after ps now (votesOf votes)).state = .preparing
    · unfold recordVote
      rw [if_neg (not_not_intro hstate)]
      split
      next => exact .inr (.inr (state_abort hstate _))
      next =>
        split
        next => exact .inr (.inr (state_abort hstate _))
        next =>
          simp only
          split
          next =>
            exact .inr (.inr (state_abort (c := (after ps now (votesOf votes)).record v.1 v.2)
              hstate _))
          next =>
            split
            next => exact .inr (.inl rfl)
            next => exact .inl hstate
    · have hsame : ((after ps now (votesOf votes)).recordVote v.1 v.2).2 =
          after ps now (votesOf votes) := congrArg Prod.snd (if_pos hstate)
      rw [hsame]
      exact ih

/-- With a vote that is bad, enough prepared ones may commit, and fewer abort. -/
theorem stateOf_of_bad {v : String × ConsensusVote} (hv : v ∈ votes)
    (hbad : Bad (sortDedup ps) v.1 v.2) (hfew : ¬Enough (sortDedup ps) (votesOf votes)) :
    stateOf ps now votes = .aborted := by
  rcases stateOf_cases ps now votes with hstate | hstate | hstate
  -- it cannot wait: the bad vote was no quiet call
  · have hquiet := quiet_of_after_preparing hstate _ (mem_votesOf.mpr hv)
    rcases hbad with hrejected | hstranger
    · rw [hquiet.1] at hrejected
      cases hrejected
    · exact absurd hquiet.2 hstranger
  -- it cannot commit: what it had by then was not enough
  · obtain ⟨before, x, rest, hsplit, -, hdecides⟩ :=
      (committing_iff ps now (votesOf votes)).mp (.inl hstate)
    have hmem : ∀ y ∈ before ++ [x], y ∈ votesOf votes := by
      intro y hy
      rw [hsplit, List.append_cons]
      exact List.mem_append_left _ hy
    obtain ⟨w, -, rfl⟩ := List.mem_map.mp (hmem x (List.mem_append_right _ List.mem_cons_self))
    obtain ⟨hprepared, -, henough⟩ := hdecides
    rw [← hprepared] at henough
    exact absurd (henough.mono (voters_mono fun dc hdc => hmem _ hdc)) hfew
  · exact hstate

/-- Without one, it is the set of the voters that decides. -/
theorem stateOf_of_good (hgood : ∀ v ∈ votes, ¬Bad (sortDedup ps) v.1 v.2) :
    Enough (sortDedup ps) (votesOf votes) ∧ stateOf ps now votes = .committing ∨
      ¬Enough (sortDedup ps) (votesOf votes) ∧ stateOf ps now votes = .preparing := by
  have hquiet : ∀ x ∈ votesOf votes, Quiet (sortDedup ps) (now + 1) x := by
    intro x hx
    obtain ⟨v, hv, rfl⟩ := List.mem_map.mp hx
    obtain ⟨hvote, hdc⟩ := not_or.mp (hgood v hv)
    refine ⟨?_, not_not.mp hdc⟩
    cases hcase : v.2 with
    | prepared => rfl
    | rejected => exact absurd hcase hvote
  refine (after_quiet hquiet).imp (fun hyes => ⟨hyes.1, ?_⟩) fun hno => ⟨hno.1, hno.2.state⟩
  rcases stateOf_cases ps now votes with hstate | hstate | hstate
  · exact absurd hyes.1 (waiting_of_after_preparing hstate).1
  · exact hstate
  · rcases hyes.2 with hcommits | hcommits
    · exact hcommits
    · rw [stateOf, hcommits] at hstate
      cases hstate

theorem aborted_final {c : DcConsensusCoordinator} (h : c.state = .aborted) (calls : List Call) :
    (final call c calls).state = .aborted := by
  induction calls generalizing c with
  | nil => exact h
  | cons x calls ih =>
    refine ih ?_
    rcases call_of_decided (x := x) (by rw [h]; decide) with heq | ⟨-, hcommitting, -⟩
    · show (c.call x).2.state = _
      rw [heq]
      exact h
    · rw [h] at hcommitting
      cases hcommitting

/-- **Agreement.** Coordinators of the same participants that get the same votes, each in an
order of its own, end in the same state whatever the orders, iff there is no refusal and no
stranger's vote among them, or the prepared participants are too few to commit. -/
theorem agree_iff (ps : List String) (now : Nat) (votes : List (String × ConsensusVote)) :
    (∀ xs ys, xs.Perm votes → ys.Perm votes → stateOf ps now xs = stateOf ps now ys) ↔
      ¬((∃ v ∈ votes, Bad (sortDedup ps) v.1 v.2) ∧ Enough (sortDedup ps) (votesOf votes)) := by
  have hvoters : ∀ {xs zs : List (String × ConsensusVote)}, (∀ v ∈ zs, v ∈ xs) →
      voters (sortDedup ps) (votesOf zs) ⊆ voters (sortDedup ps) (votesOf xs) := fun hsub =>
    voters_mono fun dc hdc => mem_votesOf.mpr (hsub _ (mem_votesOf.mp hdc))
  constructor
  · rintro hagree ⟨⟨v, hv, hbad⟩, henough⟩
    classical
    generalize hgood : (fun w : String × ConsensusVote => decide ¬Bad (sortDedup ps) w.1 w.2) = good
    have hiff : ∀ w, good w = true ↔ ¬Bad (sortDedup ps) w.1 w.2 := by
      intro w
      rw [← hgood, decide_eq_true_eq]
    have hfirst := hagree (votes.filter good ++ votes.filter fun w => !good w)
      (v :: votes.erase v) (List.filter_append_perm good votes) (List.perm_cons_erase hv).symm
    -- the good votes first: they commit
    have hsub : Enough (sortDedup ps) (votesOf (votes.filter good)) := by
      refine henough.mono fun dc hdc => ?_
      rw [mem_voters] at hdc ⊢
      refine ⟨hdc.1, mem_votesOf.mpr (List.mem_filter.mpr ⟨mem_votesOf.mp hdc.2, ?_⟩)⟩
      rw [hiff]
      rintro (hrejected | hstranger)
      · cases hrejected
      · exact hstranger hdc.1
    have hcommits : (after ps now (votesOf (votes.filter good))).Commits := by
      rcases @stateOf_of_good ps now (votes.filter good)
        (fun w hw => (hiff w).mp (List.mem_filter.mp hw).2) with hyes | hno
      · exact .inl hyes.2
      · exact absurd hsub hno.1
    -- the bad vote first: it aborts
    have haborted : stateOf ps now (v :: votes.erase v) = .aborted :=
      aborted_final (recordVote_bad (c := new ps now) rfl hbad) _
    rw [haborted, stateOf, votesOf, List.map_append, after_append] at hfirst
    rcases commits_final hcommits (votesOf (votes.filter fun w => !good w)) with hstate | hstate
    · cases hfirst.symm.trans hstate
    · cases hfirst.symm.trans hstate
  · intro hnot xs ys hxs hys
    -- who is prepared does not depend on the order
    have hsame : ∀ {zs : List (String × ConsensusVote)}, zs.Perm votes →
        (Enough (sortDedup ps) (votesOf zs) ↔ Enough (sortDedup ps) (votesOf votes)) := fun hzs =>
      ⟨fun h => h.mono (hvoters fun v hv => hzs.mem_iff.mp hv),
        fun h => h.mono (hvoters fun v hv => hzs.mem_iff.mpr hv)⟩
    by_cases hbad : ∃ v ∈ votes, Bad (sortDedup ps) v.1 v.2
    · have hfew : ¬Enough (sortDedup ps) (votesOf votes) := fun h => hnot ⟨hbad, h⟩
      obtain ⟨v, hv, hvbad⟩ := hbad
      rw [stateOf_of_bad (hxs.mem_iff.mpr hv) hvbad fun h => hfew ((hsame hxs).mp h),
        stateOf_of_bad (hys.mem_iff.mpr hv) hvbad fun h => hfew ((hsame hys).mp h)]
    · have hgood : ∀ {zs : List (String × ConsensusVote)}, zs.Perm votes →
          ∀ v ∈ zs, ¬Bad (sortDedup ps) v.1 v.2 :=
        fun hzs v hv hvbad => hbad ⟨v, hzs.mem_iff.mp hv, hvbad⟩
      rcases @stateOf_of_good _ now _ (hgood hxs) with ⟨henough, hx⟩ | ⟨hfew, hx⟩
      · rcases @stateOf_of_good _ now _ (hgood hys) with ⟨-, hy⟩ | ⟨hno, -⟩
        · rw [hx, hy]
        · exact absurd ((hsame hys).mpr ((hsame hxs).mp henough)) hno
      · rcases @stateOf_of_good _ now _ (hgood hys) with ⟨hyes, -⟩ | ⟨-, hy⟩
        · exact absurd ((hsame hxs).mpr ((hsame hys).mp hyes)) hfew
        · rw [hx, hy]

end

end

end DcConsensusCoordinator

end CipherOcto.Network.DcConsensus
