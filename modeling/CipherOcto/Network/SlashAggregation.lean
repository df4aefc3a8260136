import Mathlib.Algebra.Group.Nat.Defs
import Mathlib.Data.List.Dedup
import Mathlib.Data.List.Induction
import Mathlib.Data.List.Perm.Basic

/-!
# Slash votes

Votes for a slash are collected from witnesses. A vote takes the place of the one
its witness cast before, so the last to arrive counts, whatever the times they were
cast at; the result is made of the numbers of yes and no votes that are left.

> `aggregate_order_independent_iff`: the order of arrival does not matter iff no
> witness has voted both ways.
-/

namespace CipherOcto.Network

/-! ## The code -/

inductive Vote where
  | yes | no
deriving DecidableEq

structure SlashVote where
  domainId : String
  slashId : String
  platform : String
  witness : String
  vote : Vote
  castAt : Nat
  signature : List UInt8
deriving DecidableEq

inductive RejectionReason where
  | insufficientYesVotes | noVotes
deriving DecidableEq

inductive AggregationResult where
  | finalizedYes (yes no total : Nat)
  | rejected (yes no total : Nat) (reason : RejectionReason)
deriving DecidableEq

structure SlashAggregator where
  domainId : String
  slashId : String
  totalWitnesses : Nat
  votes : List SlashVote
  windowStarted : Nat
  windowDeadline : Nat
deriving DecidableEq

def slashVoteWindowSecs : Nat := 60

/-- The votes cast one way. -/
def countVotes (vote : Vote) (votes : List SlashVote) : Nat :=
  (votes.filter fun v => v.vote = vote).length

namespace SlashAggregator

/-- `SlashAggregator::new`, at the time `now`. -/
def new (domainId slashId : String) (totalWitnesses now : Nat) : SlashAggregator where
  domainId := domainId
  slashId := slashId
  totalWitnesses := totalWitnesses
  votes := []
  windowStarted := now
  windowDeadline := now + slashVoteWindowSecs

/-- Two thirds of the witnesses. The products are of `usize`s and wrap. -/
def twoThirds (a : SlashAggregator) (yes : Nat) : Bool :=
  yes * 3 % 2 ^ 64 ≥ a.totalWitnesses * 2 % 2 ^ 64

/-- `SlashAggregator::is_finalized`. -/
def isFinalized (a : SlashAggregator) : Bool :=
  if a.totalWitnesses = 0 then false else a.twoThirds (countVotes .yes a.votes)

/-- `SlashAggregator::add_vote`. -/
def addVote (a : SlashAggregator) (vote : SlashVote) : Bool × SlashAggregator :=
  if vote.domainId ≠ a.domainId ∨ vote.slashId ≠ a.slashId then (false, a)
  else if vote.witness = "" then (false, a)
  else
    let a' := { a with votes := a.votes.filter (fun v => v.witness ≠ vote.witness) ++ [vote] }
    (a'.isFinalized, a')

/-- `SlashAggregator::aggregate`. -/
def aggregate (a : SlashAggregator) : AggregationResult :=
  let yes := countVotes .yes a.votes
  let no := countVotes .no a.votes
  if a.totalWitnesses = 0 then .rejected yes no 0 .noVotes
  else if a.votes.isEmpty then .rejected yes no a.totalWitnesses .noVotes
  else if a.twoThirds yes then .finalizedYes yes no a.totalWitnesses
  else .rejected yes no a.totalWitnesses .insufficientYesVotes

/-- The votes of a delivery, one after the other. -/
def addAll (a : SlashAggregator) (votes : List SlashVote) : SlashAggregator :=
  votes.foldl (fun a v => (a.addVote v).2) a

/-! ## What is kept -/

/-- A vote that `add_vote` takes. -/
def Counts (a : SlashAggregator) (v : SlashVote) : Prop :=
  v.domainId = a.domainId ∧ v.slashId = a.slashId ∧ v.witness ≠ ""

instance (a : SlashAggregator) : DecidablePred a.Counts := fun v =>
  inferInstanceAs (Decidable (v.domainId = a.domainId ∧ v.slashId = a.slashId ∧ v.witness ≠ ""))

def setVotes (a : SlashAggregator) (votes : List SlashVote) : SlashAggregator :=
  { a with votes := votes }

/-- `kept` with `v` in the place of its witness's vote. -/
def replaceVote (kept : List SlashVote) (v : SlashVote) : List SlashVote :=
  kept.filter (fun u => u.witness ≠ v.witness) ++ [v]

theorem addVote_of_counts {a : SlashAggregator} {v : SlashVote} (h : a.Counts v) :
    (a.addVote v).2 = a.setVotes (replaceVote a.votes v) := by
  obtain ⟨hdomain, hslash, hwitness⟩ := h
  rw [addVote, if_neg (not_or.mpr ⟨not_not.mpr hdomain, not_not.mpr hslash⟩), if_neg hwitness]
  rfl

theorem addVote_of_not_counts {a : SlashAggregator} {v : SlashVote} (h : ¬a.Counts v) :
    (a.addVote v).2 = a := by
  unfold addVote
  split
  · rfl
  next hmatch =>
    obtain ⟨hdomain, hslash⟩ := not_or.mp hmatch
    split
    · rfl
    next hwitness => exact absurd ⟨not_not.mp hdomain, not_not.mp hslash, hwitness⟩ h

/-- The votes left of those counted. -/
def keptOf (counted : List SlashVote) : List SlashVote := counted.foldl replaceVote []

theorem keptOf_concat (l : List SlashVote) (v : SlashVote) :
    keptOf (l ++ [v]) = replaceVote (keptOf l) v := by
  rw [keptOf, List.foldl_append]
  rfl

theorem addAll_eq : ∀ (votes : List SlashVote) (a : SlashAggregator),
    a.addAll votes = a.setVotes ((votes.filter fun v => a.Counts v).foldl replaceVote a.votes)
  | [], _ => rfl
  | v :: votes, a => by
    have hstep : a.addAll (v :: votes) = (a.addVote v).2.addAll votes := rfl
    rw [hstep, List.filter_cons]
    by_cases hv : a.Counts v
    · rw [addVote_of_counts hv, addAll_eq votes, if_pos (decide_eq_true hv)]
      rfl
    · rw [addVote_of_not_counts hv, addAll_eq votes, if_neg fun h => hv (of_decide_eq_true h)]

theorem addAll_new (domainId slashId : String) (total now : Nat) (votes : List SlashVote) :
    (new domainId slashId total now).addAll votes =
      (new domainId slashId total now).setVotes
        (keptOf (votes.filter fun v => (new domainId slashId total now).Counts v)) :=
  addAll_eq votes _

/-- A witness is left one vote of those it cast. -/
structure KeptSpec (l kept : List SlashVote) : Prop where
  nodup : (kept.map (·.witness)).Nodup
  mem : ∀ v ∈ kept, v ∈ l
  exists_kept : ∀ v ∈ l, ∃ u ∈ kept, u.witness = v.witness

theorem keptOf_spec (l : List SlashVote) : KeptSpec l (keptOf l) := by
  induction l using List.reverseRecOn with
  | nil => exact ⟨List.nodup_nil, fun v hv => hv, fun v hv => absurd hv List.not_mem_nil⟩
  | append_singleton l v ih =>
    rw [keptOf_concat]
    refine ⟨?_, ?_, ?_⟩
    · rw [replaceVote, List.map_append, List.map_singleton]
      refine List.Nodup.append (ih.nodup.sublist (List.filter_sublist.map _))
        (List.nodup_singleton _) ?_
      intro x hold hnew
      obtain ⟨u, hu, rfl⟩ := List.mem_map.mp hold
      exact of_decide_eq_true (List.mem_filter.mp hu).2 (List.mem_singleton.mp hnew)
    · intro u hu
      rcases List.mem_append.mp hu with hold | hnew
      · exact List.mem_append_left _ (ih.mem u (List.mem_filter.mp hold).1)
      · exact List.mem_append_right _ hnew
    · intro w hw
      by_cases hsame : w.witness = v.witness
      · exact ⟨v, List.mem_append_right _ (List.mem_singleton_self v), hsame.symm⟩
      · rcases List.mem_append.mp hw with hold | hnew
        · obtain ⟨u, hu, heq⟩ := ih.exists_kept w hold
          refine ⟨u, List.mem_append_left _ (List.mem_filter.mpr ⟨hu, ?_⟩), heq⟩
          exact decide_eq_true (heq ▸ hsame)
        · exact absurd (congrArg _ (List.mem_singleton.mp hnew)) hsame

/-! ## The order of arrival -/

/-- No witness votes both ways. -/
def Consistent (l : List SlashVote) : Prop :=
  ∀ v ∈ l, ∀ w ∈ l, v.witness = w.witness → v.vote = w.vote

theorem Consistent.of_perm {l m : List SlashVote} (h : Consistent l) (hperm : l.Perm m) :
    Consistent m :=
  fun v hv w hw => h v (hperm.mem_iff.mpr hv) w (hperm.mem_iff.mpr hw)

/-- The witnesses left on one side are those that voted for it. -/
theorem mem_witnesses_iff {l : List SlashVote} (h : Consistent l) (vote : Vote) (x : String) :
    x ∈ ((keptOf l).filter fun v => v.vote = vote).map (·.witness) ↔
      ∃ v ∈ l, v.witness = x ∧ v.vote = vote := by
  have hspec := keptOf_spec l
  rw [List.mem_map]
  constructor
  · intro hex
    obtain ⟨v, hv, hx⟩ := hex
    obtain ⟨hkept, hvote⟩ := List.mem_filter.mp hv
    exact ⟨v, hspec.mem v hkept, hx, of_decide_eq_true hvote⟩
  · intro hex
    obtain ⟨v, hv, hx, hvote⟩ := hex
    obtain ⟨u, hu, heq⟩ := hspec.exists_kept v hv
    have huvote : u.vote = vote := (h u (hspec.mem u hu) v hv heq).trans hvote
    exact ⟨u, List.mem_filter.mpr ⟨hu, decide_eq_true huvote⟩, heq.trans hx⟩

theorem countVotes_keptOf_congr {l m : List SlashVote} (h : Consistent l) (hperm : l.Perm m)
    (vote : Vote) : countVotes vote (keptOf l) = countVotes vote (keptOf m) := by
  have hnodup : ∀ l : List SlashVote,
      (((keptOf l).filter fun v => v.vote = vote).map (·.witness)).Nodup :=
    fun l => (keptOf_spec l).nodup.sublist (List.filter_sublist.map _)
  have hwitnesses := (List.perm_ext_iff_of_nodup (hnodup l) (hnodup m)).mpr fun x => by
    rw [mem_witnesses_iff h, mem_witnesses_iff (h.of_perm hperm)]
    exact exists_congr fun v => and_congr_left fun _ => hperm.mem_iff
  have hlen := hwitnesses.length_eq
  rwa [List.length_map, List.length_map] at hlen

theorem isEmpty_keptOf (l : List SlashVote) : (keptOf l).isEmpty = l.isEmpty := by
  rw [Bool.eq_iff_iff, List.isEmpty_iff, List.isEmpty_iff]
  constructor
  · intro h
    refine List.eq_nil_iff_forall_not_mem.mpr fun v hv => ?_
    obtain ⟨u, hu, -⟩ := (keptOf_spec l).exists_kept v hv
    rw [h] at hu
    exact List.not_mem_nil hu
  · intro h
    rw [h]
    rfl

theorem aggregate_congr {a : SlashAggregator} {l m : List SlashVote} (h : Consistent l)
    (hperm : l.Perm m) :
    (a.setVotes (keptOf l)).aggregate = (a.setVotes (keptOf m)).aggregate := by
  unfold aggregate setVotes twoThirds
  dsimp only
  rw [countVotes_keptOf_congr h hperm .yes, countVotes_keptOf_congr h hperm .no, isEmpty_keptOf,
    isEmpty_keptOf, hperm.isEmpty_eq]

/-- The yes votes of a result. -/
def yesOf : AggregationResult → Nat
  | .finalizedYes yes _ _ => yes
  | .rejected yes _ _ _ => yes

theorem yesOf_aggregate (a : SlashAggregator) : yesOf a.aggregate = countVotes .yes a.votes := by
  unfold aggregate
  dsimp only
  split
  · rfl
  · split
    · rfl
    · split
      · rfl
      · rfl

/-- The last of a witness's votes is the one that is left. -/
theorem keptOf_concat_concat (l : List SlashVote) {v w : SlashVote} (h : v.witness = w.witness) :
    keptOf (l ++ [v] ++ [w]) = (keptOf l).filter (fun u => u.witness ≠ w.witness) ++ [w] := by
  have hgone : [v].filter (fun u => u.witness ≠ w.witness) = [] :=
    List.filter_eq_nil_iff.mpr fun u hu => by
      rw [List.mem_singleton.mp hu, h]
      exact fun hne => of_decide_eq_true hne rfl
  rw [keptOf_concat, keptOf_concat, replaceVote, replaceVote, List.filter_append, hgone,
    List.append_nil, List.filter_filter, h]
  simp only [Bool.and_self]

theorem countVotes_append_singleton (vote : Vote) (l : List SlashVote) (v : SlashVote) :
    countVotes vote (l ++ [v]) = countVotes vote l + if v.vote = vote then 1 else 0 := by
  unfold countVotes
  rw [List.filter_append, List.length_append, List.filter_singleton]
  by_cases h : v.vote = vote
  · rw [decide_eq_true h, if_pos h]
    rfl
  · rw [decide_eq_false h, if_neg h]
    rfl

theorem yesOf_last {domainId slashId : String} {total now : Nat} {v w : SlashVote}
    (hv : (new domainId slashId total now).Counts v)
    (hw : (new domainId slashId total now).Counts w) (h : v.witness = w.witness)
    (rest : List SlashVote) :
    yesOf ((new domainId slashId total now).addAll (rest ++ [v] ++ [w])).aggregate =
      countVotes .yes ((keptOf (rest.filter fun u => (new domainId slashId total now).Counts u)).filter
        fun u => u.witness ≠ w.witness) + if w.vote = .yes then 1 else 0 := by
  have hone : ∀ u, (new domainId slashId total now).Counts u →
      [u].filter (fun u => (new domainId slashId total now).Counts u) = [u] :=
    fun u hu => List.filter_cons_of_pos (decide_eq_true hu)
  rw [yesOf_aggregate, addAll_new]
  show countVotes .yes (keptOf _) = _
  rw [List.filter_append, List.filter_append, hone v hv, hone w hw, keptOf_concat_concat _ h,
    countVotes_append_singleton]

/-- Two votes of a list, brought to its end. -/
theorem exists_perm_concat {votes : List SlashVote} {v w : SlashVote} (hv : v ∈ votes)
    (hw : w ∈ votes) (hne : w ≠ v) : ∃ rest, (rest ++ [v] ++ [w]).Perm votes := by
  have hw' : w ∈ votes.erase v := (List.mem_erase_of_ne hne).mpr hw
  refine ⟨(votes.erase v).erase w, ?_⟩
  calc ((votes.erase v).erase w ++ [v] ++ [w]).Perm (w :: ((votes.erase v).erase w ++ [v])) :=
        List.perm_append_singleton _ _
    _ = (w :: (votes.erase v).erase w) ++ [v] := rfl
    List.Perm _ (votes.erase v ++ [v]) := (List.perm_cons_erase hw').symm.append_right [v]
    List.Perm _ (v :: votes.erase v) := List.perm_append_singleton _ _
    List.Perm _ votes := (List.perm_cons_erase hv).symm

end SlashAggregator

open SlashAggregator in
/-- **The order of arrival** does not matter iff no witness voted both ways. -/
theorem aggregate_order_independent_iff (domainId slashId : String) (total now : Nat)
    (votes : List SlashVote) :
    (∀ o o' : List SlashVote, o.Perm votes → o'.Perm votes →
      ((new domainId slashId total now).addAll o).aggregate =
        ((new domainId slashId total now).addAll o').aggregate) ↔
    ∀ v ∈ votes, ∀ w ∈ votes, (new domainId slashId total now).Counts v →
      (new domainId slashId total now).Counts w → v.witness = w.witness → v.vote = w.vote := by
  constructor
  · intro hsame v hv w hw hcv hcw hwitness
    by_cases heq : w = v
    · rw [heq]
    · -- the two votes last, once in each order
      obtain ⟨rest, hperm⟩ := exists_perm_concat hv hw heq
      have hswap : (rest ++ [w] ++ [v]).Perm votes := by
        refine List.Perm.trans ?_ hperm
        rw [List.append_assoc, List.append_assoc]
        exact (List.Perm.swap v w []).append_left rest
      have hyes := congrArg yesOf (hsame _ _ hperm hswap)
      rw [yesOf_last hcv hcw hwitness, yesOf_last hcw hcv hwitness.symm, hwitness,
        Nat.add_left_cancel_iff] at hyes
      cases hvote : v.vote <;> cases hvote' : w.vote <;> simp_all
  · intro hboth o o' ho ho'
    have hconsistent : Consistent (o.filter fun v => (new domainId slashId total now).Counts v) := by
      intro v hv w hw hwitness
      rw [List.mem_filter, decide_eq_true_eq] at hv hw
      exact hboth v (ho.mem_iff.mp hv.1) w (ho.mem_iff.mp hw.1) hv.2 hw.2 hwitness
    rw [addAll_new, addAll_new]
    exact aggregate_congr hconsistent ((ho.trans ho'.symm).filter _)

def sampleVote (vote : Vote) (castAt : Nat) : SlashVote where
  domainId := "d1"
  slashId := "s1"
  platform := "whatsapp"
  witness := "w1"
  vote := vote
  castAt := castAt
  signature := []

open SlashAggregator in
/-- A witness that votes yes and then no: the slash is final iff the votes arrive the
other way round. -/
theorem two_votes_of_one_witness :
    ((new "d1" "s1" 1 0).addAll [sampleVote .yes 1, sampleVote .no 2]).aggregate ≠
      ((new "d1" "s1" 1 0).addAll [sampleVote .no 2, sampleVote .yes 1]).aggregate := by
  decide +kernel

end CipherOcto.Network
