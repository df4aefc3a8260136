import CipherOcto.Lib.Attempt
import CipherOcto.Lib.Newton
import Mathlib.Data.List.MinMax
import Mathlib.Data.Prod.Lex
import Mathlib.Data.String.Basic

/-!
# Coordinator elections

A candidate has the square root of its stake as many times as it has cosigners. The heaviest
candidate wins, and among those of one weight the one with the smallest key: the greatest in
the order of `rank`.

> `isqrt_eq`: the Newton loop stops, at the root, and nothing overflows on the way.
> `rawVotingWeight_eq`: neither does the weight.
> `elect_best`: the winner is the greatest candidate, whatever the order of the list.

Keys are compared as text, which is the order of their UTF-8.
-/

namespace CipherOcto.Network

open Machine Newton

/-! ## The code -/

inductive GovernanceModel where
  | centralized | dao | federated | aiAssisted | autonomous
deriving DecidableEq

structure CoordinatorCandidate where
  pubkey : String
  stake : UInt64
  cosigners : UInt32
deriving DecidableEq

structure ElectionResult where
  winner : CoordinatorCandidate
  votingWeight : Nat
  model : GovernanceModel
deriving DecidableEq

/-- `n / x`. -/
def quotient (n x : Nat) : Run Empty Nat := if x = 0 then .error .panic else .ok (n / x)

/-- The loop of `isqrt`. -/
def isqrtLoop (n x y : Nat) : Attempt Empty Nat :=
  if y < x then do
    let q ← Attempt.lift (quotient n y)
    let sum ← addU 128 y q
    isqrtLoop n y (sum / 2)
  else pure x
termination_by x

/-- `isqrt`. -/
def isqrt (n : Nat) : Attempt Empty Nat :=
  if n = 0 then pure 0 else isqrtLoop n n ((n + 1) / 2)

/-- `raw_voting_weight`. -/
def CoordinatorCandidate.rawVotingWeight (c : CoordinatorCandidate) : Attempt Empty Nat := do
  let root ← isqrt c.stake.toNat
  let product ← mulU 128 (root % 2 ^ 64) c.cosigners.toNat
  pure (min product (2 ^ 64 - 1))

/-- The better of the best one so far and a candidate of weight `w`. -/
def better (c : CoordinatorCandidate) (w : Nat) :
    Option (CoordinatorCandidate × Nat) → Option (CoordinatorCandidate × Nat)
  | none => some (c, w)
  | some (bc, bw) =>
    if w > bw then some (c, w)
    else if w = bw then
      if c.pubkey < bc.pubkey then some (c, w) else some (bc, bw)
    else some (bc, bw)

/-- One round of the loop of `elect`. -/
def consider (best : Option (CoordinatorCandidate × Nat)) (c : CoordinatorCandidate) :
    Attempt Empty (Option (CoordinatorCandidate × Nat)) := do
  let w ← c.rawVotingWeight
  pure (better c w best)

/-- `elect`. -/
def elect (candidates : List CoordinatorCandidate) (model : GovernanceModel) :
    Attempt Empty (Option ElectionResult) :=
  match candidates with
  | [] => pure none
  | first :: _ =>
    match model with
    | .centralized => pure (some ⟨first, 0, model⟩)
    | _ => do
      let best ← candidates.foldlM consider none
      -- `best.unwrap()`
      let (winner, weight) ← Attempt.lift (best.elim (.error .panic) .ok)
      pure (some ⟨winner, weight, model⟩)

/-! ## The square root -/

theorem isqrtLoop_eq {n : Nat} (hn : 0 < n) (hn64 : n < 2 ^ 64) {x : Nat} (hx : x ≤ n)
    (hroot : n.sqrt ≤ x) : isqrtLoop n x (newtonStep n x) = pure n.sqrt := by
  induction x using Nat.strong_induction_on with
  | _ x ih =>
    have hpos : 0 < n.sqrt := Nat.sqrt_pos.mpr hn
    have hstep : n.sqrt ≤ newtonStep n x := le_newtonStep (by omega)
    rw [isqrtLoop]
    split
    next hlt =>
      have hq : newtonStep n x ≠ 0 := by omega
      have hdiv : n / newtonStep n x ≤ n := Nat.div_le_self ..
      rw [quotient, if_neg hq, Attempt.lift_ok_bind, addU_of_lt (by omega),
        Attempt.tracked_pure_bind]
      exact ih _ hlt (by omega) hstep
    next hge =>
      have hle : x ≤ n.sqrt := by
        by_contra hgt
        exact hge (newtonStep_lt (not_le.mp hgt))
      rw [le_antisymm hle hroot]

/-- **The loop of `isqrt` ends at the root.** -/
theorem isqrt_eq {n : Nat} (hn : n < 2 ^ 64) : isqrt n = pure n.sqrt := by
  unfold isqrt
  split
  next hzero => rw [hzero, Nat.sqrt_zero]
  next hne =>
    have hpos : 0 < n := Nat.pos_of_ne_zero hne
    have hfirst : (n + 1) / 2 = newtonStep n n := by rw [newtonStep, Nat.div_self hpos]
    rw [hfirst]
    exact isqrtLoop_eq hpos hn le_rfl (Nat.sqrt_le_self n)

/-! ## Weights -/

namespace CoordinatorCandidate

def weight (c : CoordinatorCandidate) : Nat := c.stake.toNat.sqrt * c.cosigners.toNat

theorem weight_lt (c : CoordinatorCandidate) : c.weight < 2 ^ 64 := by
  have hroot : c.stake.toNat.sqrt < 2 ^ 32 := Nat.sqrt_lt.mpr c.stake.toNat_lt
  have hcosigners := c.cosigners.toNat_lt
  calc c.weight ≤ (2 ^ 32 - 1) * (2 ^ 32 - 1) := Nat.mul_le_mul (by omega) (by omega)
    _ < 2 ^ 64 := by decide

/-- **The weight is the root times the cosigners**, without clamping. -/
theorem rawVotingWeight_eq (c : CoordinatorCandidate) : c.rawVotingWeight = pure c.weight := by
  have hroot : c.stake.toNat.sqrt < 2 ^ 32 := Nat.sqrt_lt.mpr c.stake.toNat_lt
  have hlt := c.weight_lt
  rw [rawVotingWeight, isqrt_eq c.stake.toNat_lt, pure_bind, Nat.mod_eq_of_lt (by omega),
    mulU_of_lt (hlt.trans (by decide)), Attempt.tracked_pure_bind]
  exact congrArg pure (Nat.min_eq_left (Nat.le_sub_one_of_lt hlt))

/-- What the candidates are compared by: the weight, and the smaller key. -/
def rank (c : CoordinatorCandidate) : Lex (Nat × OrderDual String) :=
  toLex (c.weight, OrderDual.toDual c.pubkey)

theorem rank_lt_rank {b c : CoordinatorCandidate} :
    b.rank < c.rank ↔ b.weight < c.weight ∨ b.weight = c.weight ∧ c.pubkey < b.pubkey :=
  Prod.Lex.toLex_lt_toLex

theorem rank_le_rank {b c : CoordinatorCandidate} :
    b.rank ≤ c.rank ↔ b.weight < c.weight ∨ b.weight = c.weight ∧ c.pubkey ≤ b.pubkey :=
  Prod.Lex.toLex_le_toLex

theorem pubkey_eq_of_rank_eq {b c : CoordinatorCandidate} (h : b.rank = c.rank) :
    b.pubkey = c.pubkey :=
  OrderDual.toDual_inj.mp (Prod.ext_iff.mp (toLex_inj.mp h)).2

end CoordinatorCandidate

/-! ## The winner -/

open CoordinatorCandidate

/-- A round keeps the greater of the two. -/
theorem better_map (best : Option CoordinatorCandidate) (c : CoordinatorCandidate) :
    better c c.weight (best.map fun b => (b, b.weight)) =
      (List.argAux (fun c b => rank b < rank c) best c).map fun b => (b, b.weight) := by
  cases best with
  | none => rfl
  | some b =>
    show better c c.weight (some (b, b.weight)) =
      (if rank b < rank c then some c else some b).map _
    rw [better, apply_ite (Option.map fun b : CoordinatorCandidate => (b, b.weight))]
    rcases lt_trichotomy b.weight c.weight with hlt | heq | hgt
    · rw [if_pos hlt, if_pos (rank_lt_rank.mpr (Or.inl hlt))]
      rfl
    · rw [if_neg (not_lt.mpr heq.ge), if_pos heq.symm]
      refine if_congr ?_ rfl rfl
      rw [rank_lt_rank, or_iff_right heq.not_lt, and_iff_right heq]
    · rw [if_neg hgt.not_gt, if_neg hgt.ne, if_neg]
      · rfl
      · rw [rank_lt_rank]
        rintro (hlt | ⟨heq, -⟩)
        · exact hgt.not_gt hlt
        · exact hgt.ne' heq

theorem foldlM_consider (cs : List CoordinatorCandidate) :
    (cs.foldlM consider none : Attempt Empty _) =
      pure ((cs.argmax rank).map fun b => (b, b.weight)) := by
  have hconsider : consider = fun best c => pure (better c c.weight best) := by
    funext best c
    rw [consider, rawVotingWeight_eq, pure_bind]
  rw [hconsider, List.foldlM_pure]
  have hfold : cs.foldl (fun best c => better c c.weight best)
      (Option.map (fun b => (b, b.weight)) none) =
      (cs.argmax rank).map fun b => (b, b.weight) := List.foldl_hom _ better_map
  exact congrArg pure hfold

theorem exists_argmax {cs : List CoordinatorCandidate} (h : cs ≠ []) :
    ∃ c, cs.argmax rank = some c :=
  Option.ne_none_iff_exists'.mp fun hnone => h (List.argmax_eq_none.mp hnone)

/-- The election of a model that counts votes is that of the greatest candidate. -/
theorem elect_of_ne_centralized {cs : List CoordinatorCandidate} {model : GovernanceModel}
    (h : model ≠ .centralized) :
    elect cs model = pure ((cs.argmax rank).map fun c => ⟨c, c.weight, model⟩) := by
  cases cs with
  | nil => rfl
  | cons first cs =>
    have hmodel : elect (first :: cs) model = (do
        let best ← (first :: cs).foldlM consider none
        let (winner, weight) ← Attempt.lift (best.elim (.error .panic) .ok)
        pure (some ⟨winner, weight, model⟩)) := by
      cases model with
      | centralized => exact absurd rfl h
      | _ => rfl
    obtain ⟨c, hc⟩ := exists_argmax (List.cons_ne_nil first cs)
    rw [hmodel, foldlM_consider, hc, pure_bind]
    rfl

/-- **The winner is the best candidate**, whatever the order they are listed in. -/
theorem elect_best (c : CoordinatorCandidate) (cs : List CoordinatorCandidate)
    (model : GovernanceModel) (hmodel : model ≠ .centralized) (hne : cs ≠ [])
    (hkeys : (cs.map (·.pubkey)).Nodup) :
    isqrt c.stake.toNat = pure c.stake.toNat.sqrt ∧
    c.rawVotingWeight = pure (c.stake.toNat.sqrt * c.cosigners.toNat) ∧
    ∃ r, elect cs model = pure (some r) ∧ r.winner ∈ cs ∧ r.votingWeight = r.winner.weight ∧
      (∀ d ∈ cs, d.weight ≤ r.winner.weight ∧
        (d.weight = r.winner.weight → r.winner.pubkey ≤ d.pubkey)) ∧
      ∀ ds, ds.Perm cs → elect ds model = pure (some r) := by
  refine ⟨isqrt_eq c.stake.toNat_lt, c.rawVotingWeight_eq, ?_⟩
  obtain ⟨w, hw⟩ := exists_argmax hne
  have hmem : w ∈ cs := List.argmax_mem hw
  refine ⟨⟨w, w.weight, model⟩, ?_, hmem, rfl, fun d hd => ?_, fun ds hperm => ?_⟩
  · rw [elect_of_ne_centralized hmodel, hw]
    rfl
  · rcases rank_le_rank.mp (List.le_of_mem_argmax hd hw) with hlt | ⟨heq, hle⟩
    · exact ⟨hlt.le, fun heq => absurd heq hlt.ne⟩
    · exact ⟨heq.le, fun _ => hle⟩
  · have hds : ds ≠ [] := by
      rintro rfl
      exact hne hperm.symm.eq_nil
    obtain ⟨w', hw'⟩ := exists_argmax hds
    have hmem' : w' ∈ cs := hperm.mem_iff.mp (List.argmax_mem hw')
    have hrank : w'.rank = w.rank := le_antisymm (List.le_of_mem_argmax hmem' hw)
      (List.le_of_mem_argmax (hperm.mem_iff.mpr hmem) hw')
    have hsame : w' = w := List.inj_on_of_nodup_map hkeys hmem' hmem (pubkey_eq_of_rank_eq hrank)
    rw [elect_of_ne_centralized hmodel, hw', hsame]
    rfl

/-- Two candidates of weight 10, the one with the smaller key last. -/
theorem elect_best_of_tie :
    let cs : List CoordinatorCandidate := [⟨"z", 100, 1⟩, ⟨"a", 104, 1⟩]
    ∃ r, elect cs .dao = pure (some r) ∧ r.winner ∈ cs ∧ r.votingWeight = r.winner.weight ∧
      (∀ d ∈ cs, d.weight ≤ r.winner.weight ∧
        (d.weight = r.winner.weight → r.winner.pubkey ≤ d.pubkey)) ∧
      ∀ ds, ds.Perm cs → elect ds .dao = pure (some r) := by
  intro cs
  have hkeys : (cs.map (·.pubkey)).Nodup := by decide
  exact (elect_best ⟨"z", 100, 1⟩ cs .dao (by decide) (List.cons_ne_nil _ _) hkeys).2.2

/-- Nobody is elected where nobody stands. -/
theorem elect_of_nobody :
    (([] : List CoordinatorCandidate).map (·.pubkey)).Nodup ∧ elect [] .dao = pure none ∧
      ¬∃ r, elect [] .dao = pure (some r) ∧ r.winner ∈ ([] : List CoordinatorCandidate) := by
  refine ⟨List.nodup_nil, rfl, ?_⟩
  rintro ⟨r, -, hmem⟩
  exact List.not_mem_nil hmem

end CipherOcto.Network
