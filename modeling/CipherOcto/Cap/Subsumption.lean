import CipherOcto.Cap.Caveat
import Mathlib.Data.Fintype.EquivFin

/-!
# Subsumption

`set_subsumes` is meant to say that a child caveat list is at least as
restrictive as its parent. It asks, of every caveat of the *child*, whether some
caveat of the parent is as loose. Nothing is asked of the parent's caveats, so a
child that drops one passes, and so does a child that keeps the loosest of
several.

> `setSubsumes_sound_iff`: the test is sound on a pair of lists iff it fails, or
> the same comparison also succeeds from the parent's side (and the child's time
> window, if it is not empty, lies inside the parent's).
-/

namespace CipherOcto.Cap

open Machine Determin Encoding

/-! ## The code -/

/-- `cache_policy_subsumes`. -/
def cachePolicySubsumes : CachePolicy → CachePolicy → Bool
  | .off, .off => true
  | .always p, .always c => decide (c ≤ p)
  | .optIn none, .optIn _ => true
  | .optIn (some p), .optIn (some c) => p == c
  | .optIn (some _), .optIn none => false
  | .always _, .optIn _ => true
  | .always _, .off => true
  | .optIn _, .off => true
  | .off, .optIn _ => false
  | .off, .always _ => false
  | .optIn _, .always _ => false

/-- The test one arm of `parent_caveat_implies` makes of one parent caveat. -/
def impliedByOne : Caveat → Caveat → Bool
  | .amountMax c, .amountMax p => c.le p
  | .perAxisMax c, .perAxisMax p => p.axis == c.axis && c.maxPer1k.le p.maxPer1k
  | .model c, .model p => p == c
  | .provider c, .provider p => c.all fun x => p.contains x
  | .before c, .before p => decide (c ≤ p)
  | .audience c, .audience p => p == c
  | .rateLimit c, .rateLimit p => decide (c.rpm ≤ p.rpm) && decide (c.tpm ≤ p.tpm)
  | .cacheStrategy c, .cacheStrategy p => cachePolicySubsumes p c
  | .jurisdiction c, .jurisdiction p => decide (c ⊆ p)
  | .invocationHashBind c, .invocationHashBind p => p == c
  | .askBinding c, .askBinding p => p == c
  | .thirdParty c, .thirdParty p => p == c
  | .raw c, .raw p => p.name == c.name && p.value == c.value
  | .vault c, .vault p => p == c
  | .assetBinding c, .assetBinding p => p.assetId == c.assetId
  | .assetBinding c, .payment p => p.assetId == c.assetId
  | .permission c, .permission p => p == c
  | .validRange cAfter cUntil, .validRange pAfter pUntil =>
    decide (cAfter ≥ pAfter) && decide (cUntil ≤ pUntil)
  | .maxPerTx c, .maxPerTx p => decide (c ≤ p)
  | .auditWindow c, .auditWindow p => decide (c ≥ p)
  | .maxUses c, .maxUses p => if p = 0 then true else if c = 0 then false else decide (c ≤ p)
  | .wrappedOnly c, .wrappedOnly p => p == c
  | .factory c, .factory p => p.targetVaultId == c.targetVaultId &&
      p.actionTemplate == c.actionTemplate && p.requiredCaller == c.requiredCaller &&
      p.preConditions == c.preConditions && p.expiryForDeployUnix == c.expiryForDeployUnix
  | .policyReference cId cSeq cWit, .policyReference pId pSeq pWit =>
    pId == cId && pSeq == cSeq && pWit == cWit
  | .validAfter c, .validAfter p => decide (c ≥ p)
  | .redemptionContext c, .redemptionContext p => p == c
  | .sharded c, .sharded p => p == c
  | .payment c, .payment p => c.budget.le p.budget &&
      decide (c.expiresAtUnixMs ≤ p.expiresAtUnixMs) && (p.model.isEmpty || p.model == c.model)
  | _, _ => false

/-- `parent_caveat_implies`. -/
def parentCaveatImplies (parent : List Caveat) (child : Caveat) : Bool :=
  parent.any (impliedByOne child)

/-- `set_subsumes`. -/
def setSubsumes (parent child : List Caveat) : Bool := child.all (parentCaveatImplies parent)

/-- A raw caveat needs a registered name. -/
def rawRegistered (isRawRegistered : String → Bool) : Caveat → Bool
  | .raw r => isRawRegistered r.name
  | _ => true

/-- The uses of a capability that these caveats are about. -/
inductive Use where
  | amount (total : ℚ)
  | perTx (amount : Nat)
  | rate (rpm tpm : Nat)
  | vault (vaultId : Bytes32)
  | provider (name : String)
  | audience (did : String)

/-- A caveat allows every use it is not about. -/
def Caveat.Allows : Caveat → Use → Prop
  | .amountMax cap, .amount total => total ≤ cap.dqa.val
  | .maxPerTx cap, .perTx amount => amount ≤ cap
  | .rateLimit r, .rate rpm tpm => rpm ≤ r.rpm ∧ tpm ≤ r.tpm
  | .vault v, .vault w => w = v
  | .provider ps, .provider p => p ∈ ps
  | .audience d, .audience e => e = d
  | _, _ => True

/-- The kinds of caveat that restrict a `Use`. -/
def Caveat.Restricts : Caveat → Prop
  | .amountMax _ | .maxPerTx _ | .rateLimit _ | .vault _ | .provider _ | .audience _ => True
  | _ => False

/-- Every time-bearing caveat of the list admits the instant. -/
def AdmitsTime (cs : List Caveat) (now : Nat) : Prop :=
  ∀ c ∈ cs, ∀ w, c.timeBounds = some w → w.admits now = true

/-- **At least as restrictive**: no instant is gained, and every restriction of
the parent is implied by a caveat of the child. -/
structure Narrower (parent child : List Caveat) : Prop where
  time : ∀ now < 2 ^ 64, AdmitsTime child now → AdmitsTime parent now
  use : ∀ p ∈ parent, p.Restricts → ∃ c ∈ child, ∀ u, c.Allows u → p.Allows u

/-! ## Time windows as intervals -/

def TimeBounds.start : TimeBounds → Nat
  | notAfter _ => 0
  | range lo _ => lo
  | notBefore start => start

def TimeBounds.deadline : TimeBounds → Nat
  | notAfter deadline => deadline
  | range _ hi => hi
  | notBefore _ => 2 ^ 64 - 1

theorem TimeBounds.admits_iff (w : TimeBounds) {now : Nat} (h : now < 2 ^ 64) :
    w.admits now = true ↔ w.start ≤ now ∧ now ≤ w.deadline := by
  cases w with
  | notAfter d => simp [admits, start, deadline]
  | range lo hi =>
    unfold admits start deadline
    dsimp only
    by_cases h1 : lo > hi
    · rw [if_pos h1]
      exact iff_of_false Bool.false_ne_true (by omega)
    rw [if_neg h1]
    by_cases h2 : now < lo
    · rw [if_pos h2]
      exact iff_of_false Bool.false_ne_true (by omega)
    rw [if_neg h2]
    by_cases h3 : now > hi
    · rw [if_pos h3]
      exact iff_of_false Bool.false_ne_true (by omega)
    · rw [if_neg h3]
      exact iff_of_true rfl (by omega)
  | notBefore s =>
    simp only [admits, start, deadline, Bool.not_eq_true', decide_eq_false_iff_not, not_lt]
    omega

/-- The latest start of the list. -/
def windowStart (cs : List Caveat) : Nat :=
  (cs.filterMap Caveat.timeBounds).foldr (fun w acc => max w.start acc) 0

/-- The earliest deadline of the list. -/
def windowEnd (cs : List Caveat) : Nat :=
  (cs.filterMap Caveat.timeBounds).foldr (fun w acc => min w.deadline acc) (2 ^ 64 - 1)

theorem admitsTime_iff (cs : List Caveat) {now : Nat} (h : now < 2 ^ 64) :
    AdmitsTime cs now ↔ windowStart cs ≤ now ∧ now ≤ windowEnd cs := by
  have hmem : AdmitsTime cs now ↔ ∀ w ∈ cs.filterMap Caveat.timeBounds, w.admits now = true := by
    simp only [AdmitsTime, List.mem_filterMap]
    constructor
    · rintro hall w ⟨c, hc, hw⟩
      exact hall c hc w hw
    · intro hall c hc w hw
      exact hall w ⟨c, hc, hw⟩
  rw [hmem]
  unfold windowStart windowEnd
  generalize cs.filterMap Caveat.timeBounds = ws
  induction ws with
  | nil =>
    refine iff_of_true (fun w hw => absurd hw List.not_mem_nil) ⟨Nat.zero_le _, ?_⟩
    rw [List.foldr_nil]
    omega
  | cons w ws ih =>
    rw [List.forall_mem_cons, w.admits_iff h, List.foldr_cons, List.foldr_cons, max_le_iff,
      le_min_iff]
    exact (and_congr_right' ih).trans (by tauto)

theorem windowEnd_lt (cs : List Caveat) : windowEnd cs < 2 ^ 64 := by
  unfold windowEnd
  induction cs.filterMap Caveat.timeBounds with
  | nil => exact Nat.sub_lt (by norm_num) (by norm_num)
  | cons w ws ih =>
    rw [List.foldr_cons]
    omega

/-- No instant is gained iff the child's window is empty or inside. -/
theorem time_covered_iff (parent child : List Caveat) :
    (∀ now < 2 ^ 64, AdmitsTime child now → AdmitsTime parent now) ↔
      (windowEnd child < windowStart child ∨
        windowStart parent ≤ windowStart child ∧ windowEnd child ≤ windowEnd parent) := by
  constructor
  · intro h
    by_cases hempty : windowEnd child < windowStart child
    · exact Or.inl hempty
    -- both ends of the child's window are instants it admits
    have hend := windowEnd_lt child
    have hs := h (windowStart child) (by omega) ((admitsTime_iff child (by omega)).mpr (by omega))
    have he := h (windowEnd child) hend ((admitsTime_iff child hend).mpr (by omega))
    rw [admitsTime_iff parent (by omega)] at hs
    rw [admitsTime_iff parent hend] at he
    exact Or.inr ⟨hs.1, he.2⟩
  · intro h now hnow hchild
    rw [admitsTime_iff _ hnow] at hchild ⊢
    omega

/-! ## One restriction against another -/

theorem exists_ne_string (s : String) : ∃ t : String, t ≠ s := by
  obtain ⟨t, ht⟩ := Infinite.exists_notMem_finset {s}
  exact ⟨t, fun h => ht (Finset.mem_singleton.mpr h)⟩

theorem exists_ne_bytes32 (v : Bytes32) : ∃ w : Bytes32, w ≠ v := by
  by_cases h : v = Vector.replicate 32 0
  · refine ⟨Vector.replicate 32 1, fun heq => ?_⟩
    have h0 := congrArg (fun u : Bytes32 => u[0]) (heq.trans h)
    simp at h0
  · exact ⟨Vector.replicate 32 0, fun heq => h heq.symm⟩

/-- A caveat of another kind allows every use the restriction is about. -/
theorem implies_iff_of_other {p c : Caveat} {u : Use} (hp : ¬p.Allows u) (hc : c.Allows u)
    (hcode : impliedByOne c p = false) :
    (∀ u, c.Allows u → p.Allows u) ↔ impliedByOne c p = true := by
  rw [hcode]
  exact iff_of_false (fun hall => hp (hall u hc)) Bool.false_ne_true

theorem amountMax_implies_iff (cap cap' : Amount) :
    (∀ u, Caveat.Allows (.amountMax cap') u → Caveat.Allows (.amountMax cap) u) ↔
      impliedByOne (.amountMax cap') (.amountMax cap) = true := by
  rw [impliedByOne, Amount.le_iff]
  constructor
  · intro hall
    exact hall (.amount cap'.dqa.val) le_rfl
  · intro hle u hu
    cases u <;> try trivial
    exact le_trans hu hle

theorem provider_implies_iff (ps cs : List String) :
    (∀ u, Caveat.Allows (.provider cs) u → Caveat.Allows (.provider ps) u) ↔
      impliedByOne (.provider cs) (.provider ps) = true := by
  rw [impliedByOne, List.all_eq_true]
  constructor
  · intro hall x hx
    exact List.contains_iff_mem.mpr (hall (.provider x) hx)
  · intro hsub u hu
    cases u <;> try trivial
    exact List.contains_iff_mem.mp (hsub _ hu)

theorem audience_implies_iff (d e : String) :
    (∀ u, Caveat.Allows (.audience e) u → Caveat.Allows (.audience d) u) ↔
      impliedByOne (.audience e) (.audience d) = true := by
  rw [impliedByOne, beq_iff_eq]
  constructor
  · intro hall
    exact (hall (.audience e) rfl).symm
  · rintro rfl u hu
    exact hu

theorem rateLimit_implies_iff (r r' : RateLimit) :
    (∀ u, Caveat.Allows (.rateLimit r') u → Caveat.Allows (.rateLimit r) u) ↔
      impliedByOne (.rateLimit r') (.rateLimit r) = true := by
  rw [impliedByOne, Bool.and_eq_true, decide_eq_true_iff, decide_eq_true_iff]
  constructor
  · intro hall
    exact hall (.rate r'.rpm r'.tpm) ⟨le_rfl, le_rfl⟩
  · intro hle u hu
    cases u <;> try trivial
    exact ⟨le_trans hu.1 hle.1, le_trans hu.2 hle.2⟩

theorem vault_implies_iff (v w : Bytes32) :
    (∀ u, Caveat.Allows (.vault w) u → Caveat.Allows (.vault v) u) ↔
      impliedByOne (.vault w) (.vault v) = true := by
  rw [impliedByOne, beq_iff_eq]
  constructor
  · intro hall
    exact (hall (.vault w) rfl).symm
  · rintro rfl u hu
    exact hu

theorem maxPerTx_implies_iff (cap cap' : Nat) :
    (∀ u, Caveat.Allows (.maxPerTx cap') u → Caveat.Allows (.maxPerTx cap) u) ↔
      impliedByOne (.maxPerTx cap') (.maxPerTx cap) = true := by
  rw [impliedByOne, decide_eq_true_iff]
  constructor
  · intro hall
    exact hall (.perTx cap') le_rfl
  · intro hle u hu
    cases u <;> try trivial
    exact le_trans hu hle

/-- Implication between restrictions is the comparison of the code, kind by
kind. -/
theorem implies_iff {p : Caveat} (h : p.Restricts) (c : Caveat) :
    (∀ u, c.Allows u → p.Allows u) ↔ impliedByOne c p = true := by
  cases p <;> try exact h.elim
  -- each restriction refuses some use that all the other kinds allow
  case amountMax cap =>
    have hrefused : ¬Caveat.Allows (.amountMax cap) (.amount (cap.dqa.val + 1)) := by
      simp [Caveat.Allows]
    cases c <;> try exact implies_iff_of_other hrefused trivial rfl
    case amountMax cap' => exact amountMax_implies_iff cap cap'
  case provider ps =>
    obtain ⟨name, hname⟩ := Infinite.exists_notMem_finset ps.toFinset
    have hrefused : ¬Caveat.Allows (.provider ps) (.provider name) := by
      simpa [Caveat.Allows] using hname
    cases c <;> try exact implies_iff_of_other hrefused trivial rfl
    case provider cs => exact provider_implies_iff ps cs
  case audience d =>
    obtain ⟨t, ht⟩ := exists_ne_string d
    have hrefused : ¬Caveat.Allows (.audience d) (.audience t) := ht
    cases c <;> try exact implies_iff_of_other hrefused trivial rfl
    case audience e => exact audience_implies_iff d e
  case rateLimit r =>
    have hrefused : ¬Caveat.Allows (.rateLimit r) (.rate (r.rpm + 1) 0) := by
      simp [Caveat.Allows]
    cases c <;> try exact implies_iff_of_other hrefused trivial rfl
    case rateLimit r' => exact rateLimit_implies_iff r r'
  case vault v =>
    obtain ⟨w, hw⟩ := exists_ne_bytes32 v
    have hrefused : ¬Caveat.Allows (.vault v) (.vault w) := hw
    cases c <;> try exact implies_iff_of_other hrefused trivial rfl
    case vault w' => exact vault_implies_iff v w'
  case maxPerTx cap =>
    have hrefused : ¬Caveat.Allows (.maxPerTx cap) (.perTx (cap + 1)) := by
      simp [Caveat.Allows]
    cases c <;> try exact implies_iff_of_other hrefused trivial rfl
    case maxPerTx cap' => exact maxPerTx_implies_iff cap cap'

/-! ## Soundness -/

theorem setSubsumes_eq_false_iff (parent child : List Caveat) :
    setSubsumes parent child = false ↔ ∃ c ∈ child, ∀ p ∈ parent, impliedByOne c p = false := by
  unfold setSubsumes parentCaveatImplies
  rw [List.all_eq_false]
  simp only [List.any_eq_true, not_exists, not_and, Bool.not_eq_true]

/-- **When the test can be trusted.** -/
theorem setSubsumes_sound_iff (parent child : List Caveat) :
    (setSubsumes parent child = true → Narrower parent child) ↔
      (∃ c ∈ child, ∀ p ∈ parent, impliedByOne c p = false) ∨
        (windowEnd child < windowStart child ∨
          windowStart parent ≤ windowStart child ∧ windowEnd child ≤ windowEnd parent) ∧
        ∀ p ∈ parent, p.Restricts → ∃ c ∈ child, impliedByOne c p = true := by
  have hnarrower : Narrower parent child ↔
      (windowEnd child < windowStart child ∨
        windowStart parent ≤ windowStart child ∧ windowEnd child ≤ windowEnd parent) ∧
      ∀ p ∈ parent, p.Restricts → ∃ c ∈ child, impliedByOne c p = true := by
    rw [← time_covered_iff]
    constructor
    · intro h
      refine ⟨h.time, fun p hp hr => ?_⟩
      obtain ⟨c, hc, himp⟩ := h.use p hp hr
      exact ⟨c, hc, (implies_iff hr c).mp himp⟩
    · intro h
      obtain ⟨htime, huse⟩ := h
      refine ⟨htime, fun p hp hr => ?_⟩
      obtain ⟨c, hc, himp⟩ := huse p hp hr
      exact ⟨c, hc, (implies_iff hr c).mpr himp⟩
  rw [← setSubsumes_eq_false_iff, hnarrower]
  cases setSubsumes parent child <;> simp

/-- A child that drops its parent's deadline passes, and lives on after it. -/
theorem setSubsumes_dropped_deadline :
    setSubsumes [.before 100] [] = true ∧ ¬Narrower [.before 100] [] := by
  refine ⟨rfl, fun h => ?_⟩
  have hlate := h.time 200 (by norm_num) (fun c hc => absurd hc List.not_mem_nil)
  have hrefused := hlate (.before 100) (List.mem_singleton.mpr rfl) (.notAfter 100) rfl
  exact absurd hrefused (by decide)

end CipherOcto.Cap
