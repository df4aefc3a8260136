import CipherOcto.Lib.Trace
import CipherOcto.Cap.Chain
import CipherOcto.Cap.Subsumption

/-!
# Payments

A payment caveat binds a budget to an asset, a model and an expiry. It is
narrowed by `attenuate`, compared by the payment arm of `parent_caveat_implies`,
and spent by `verify`, which takes its nonce out of a registry.

> `paymentRules_agree_iff`: the comparison never looks at the asset, so the two
> narrowing rules disagree exactly on pairs of different assets it accepts. What
> `attenuate` returns is always accepted by it, and a whole attenuation tree is
> spent at most once.
-/

namespace CipherOcto.Cap

open Machine Determin Encoding

/-! ## The code -/

def paidQueryCaveatName : String := "paid-query/v1"

/-- `AssetMetadata`, as far as payments read it. -/
structure AssetMetadata where
  wireScale : Nat
  governancePubkey : Option Bytes32
deriving DecidableEq

/-- `AssetRegistry::metadata`. -/
abbrev AssetRegistry := Bytes32 → Option AssetMetadata

inductive AttenuationError where
  | assetUnknown (assetId : Bytes32)
  | assetMismatch (current proposed : Bytes32)
  | scaleMismatch (current proposed : Nat)
  | budgetWidened (current proposed : Amount)
  | expiryWidened (current proposed : Nat)
deriving DecidableEq

def neverExpires : Nat := 2 ^ 64 - 1

/-- `PaymentCaveat::attenuate`. -/
def PaymentCaveat.attenuate (p : PaymentCaveat) (newBudget : Amount) (newExpiresAtUnixMs : Nat)
    (newAssetId : Bytes32) (registry : AssetRegistry) : Except AttenuationError PaymentCaveat :=
  match registry p.assetId with
  | none => .error (.assetUnknown p.assetId)
  | some data =>
    if newAssetId ≠ p.assetId then .error (.assetMismatch p.assetId newAssetId)
    else if newBudget.dqa.scale ≠ p.budget.dqa.scale ∨ newBudget.dqa.scale ≠ data.wireScale then
      .error (.scaleMismatch p.budget.dqa.scale newBudget.dqa.scale)
    else if newBudget.le p.budget = false then .error (.budgetWidened p.budget newBudget)
    else if ¬(p.expiresAtUnixMs = neverExpires ∧ newExpiresAtUnixMs = neverExpires) ∧
        newExpiresAtUnixMs > p.expiresAtUnixMs then
      .error (.expiryWidened p.expiresAtUnixMs newExpiresAtUnixMs)
    else .ok { p with
      caveatName := paidQueryCaveatName
      budget := newBudget
      expiresAtUnixMs := newExpiresAtUnixMs }

/-- `is_expired`. -/
def PaymentCaveat.isExpired (p : PaymentCaveat) (now : Nat) : Bool :=
  p.expiresAtUnixMs != neverExpires && decide (now > p.expiresAtUnixMs)

/-- `matches_model`. -/
def PaymentCaveat.matchesModel (p : PaymentCaveat) (model : String) : Bool :=
  p.model.isEmpty || p.model == model

inductive NonceEventKind where
  | burn
  | settlement
  | payment
deriving DecidableEq

/-- `InMemoryNonceRegistry`: the triples seen. -/
abbrev NonceRegistry := List (NonceEventKind × Bytes32 × Bytes32)

instance lawfulBEqNonceKey : LawfulBEq (NonceEventKind × Bytes32 × Bytes32) := inferInstance

/-- `observe`; `false` is `AlreadyObserved`. -/
def NonceRegistry.observe (seen : NonceRegistry) (key : NonceEventKind × Bytes32 × Bytes32) :
    Bool × NonceRegistry :=
  if key ∈ seen then (false, seen) else (true, key :: seen)

inductive PaymentRejectionReason where
  | budgetExhausted
  | expired
  | modelMismatch
  | costExceedsBudget
  | scaleMismatch (caveatScale queryCostScale : Nat)
  | assetUnknown
  | staleSnapshot (snapshot live : Nat)
  | replay
deriving DecidableEq

inductive PaymentDecision where
  | proceed (remainingBudget : Dqa)
  | reject (reason : PaymentRejectionReason)
deriving DecidableEq

/-- The arguments of a `verify` call, less the registries. -/
structure Query where
  cost : Amount
  model : String
  nowUnixMs : Nat
  currentEpoch : Nat

section

variable (blake3 : List UInt8 → Bytes32) (registry : AssetRegistry)

/-- `sovereign_nonce_namespace`. -/
def sovereignNonceNamespace (assetId : Bytes32) : Bytes32 :=
  blake3 (utf8 "octo:sovereign-nonce-ns:v1" ++ assetId.toList)

/-- The triple a payment is observed under. -/
def PaymentCaveat.nonceKey (p : PaymentCaveat) (data : AssetMetadata) :
    NonceEventKind × Bytes32 × Bytes32 :=
  (.payment, data.governancePubkey.getD (sovereignNonceNamespace blake3 p.assetId), p.nonce)

/-- The gates after the nonce. The subtraction is unwrapped. -/
def PaymentCaveat.charge (p : PaymentCaveat) (q : Query) : Run Empty PaymentDecision :=
  if p.isExpired q.nowUnixMs then .ok (.reject .expired)
  else if p.matchesModel q.model = false then .ok (.reject .modelMismatch)
  else if p.budget.dqa.value = 0 then .ok (.reject .budgetExhausted)
  else if q.cost.le p.budget = false then .ok (.reject .costExceedsBudget)
  else match dqaSub p.budget.dqa q.cost.dqa with
  | .ok remaining => .ok (.proceed remaining)
  | .error _ => .error .panic

/-- `PaymentCaveat::verify`. The nonce is taken before the later gates. -/
def PaymentCaveat.verify (p : PaymentCaveat) (q : Query) (seen : NonceRegistry) :
    Run Empty PaymentDecision × NonceRegistry :=
  match registry p.assetId with
  | none => (.ok (.reject .assetUnknown), seen)
  | some data =>
    if q.cost.dqa.scale ≠ p.budget.dqa.scale ∨ q.cost.dqa.scale ≠ data.wireScale then
      (.ok (.reject (.scaleMismatch p.budget.dqa.scale q.cost.dqa.scale)), seen)
    else if q.currentEpoch < p.registrySnapshotEpoch then
      (.ok (.reject (.staleSnapshot p.registrySnapshotEpoch q.currentEpoch)), seen)
    else
      match seen.observe (p.nonceKey blake3 data) with
      | (false, seen) => (.ok (.reject .replay), seen)
      | (true, seen) => (p.charge q, seen)

end

/-! ## The tree and its runs -/

/-- What repeated attenuation makes of a payment. -/
inductive Attenuated (registry : AssetRegistry) (p : PaymentCaveat) : PaymentCaveat → Prop
  | self : Attenuated registry p p
  | step {c c' budget expires asset} (hc : Attenuated registry p c)
      (h : c.attenuate budget expires asset registry = .ok c') : Attenuated registry p c'

/-- What happens to a nonce registry that is only observed. -/
inductive NonceOp where
  | verify (p : PaymentCaveat) (q : Query)
  | observe (key : NonceEventKind × Bytes32 × Bytes32)

/-- One operation; a bare observation has no decision. -/
def nonceStep (blake3 : List UInt8 → Bytes32) (registry : AssetRegistry) (seen : NonceRegistry) :
    NonceOp → Option (Run Empty PaymentDecision) × NonceRegistry
  | .verify p q => (some (p.verify blake3 registry q seen).1, (p.verify blake3 registry q seen).2)
  | .observe key => (none, (seen.observe key).2)

/-- A call on the tree of `p` that was answered `Proceed`. -/
def SpendsTree (registry : AssetRegistry) (p : PaymentCaveat) :
    NonceOp × Option (Run Empty PaymentDecision) → Prop
  | (.verify c _, some (.ok (.proceed _))) => Attenuated registry p c
  | _ => False

/-- The two rules agree on `p` and `c`, and the tree of `p` is spent once. -/
structure PaymentRulesAgree (blake3 : List UInt8 → Bytes32) (registry : AssetRegistry)
    (p c : PaymentCaveat) : Prop where
  asset : setSubsumes [.payment p] [.payment c] = true → c.assetId = p.assetId
  attenuated : ∀ budget expires asset c', p.attenuate budget expires asset registry = .ok c' →
    setSubsumes [.payment p] [.payment c'] = true
  once : ∀ seen ops, (Trace.trace (nonceStep blake3 registry) seen ops).Pairwise
    fun a b => ¬(SpendsTree registry p a ∧ SpendsTree registry p b)

/-! ## Attenuation -/

/-- **What `attenuate` keeps and narrows.** -/
theorem PaymentCaveat.attenuate_eq_ok {p c : PaymentCaveat} {budget : Amount} {expires : Nat}
    {asset : Bytes32} {registry : AssetRegistry}
    (h : p.attenuate budget expires asset registry = .ok c) :
    c.assetId = p.assetId ∧ c.nonce = p.nonce ∧ c.model = p.model ∧
      c.budget.le p.budget = true ∧ c.expiresAtUnixMs ≤ p.expiresAtUnixMs := by
  unfold attenuate at h
  split at h
  · cases h
  split at h
  · cases h
  split at h
  · cases h
  split at h
  · cases h
  next hbudget =>
  split at h
  · cases h
  next hexpiry =>
  obtain rfl := Except.ok.inj h
  refine ⟨rfl, rfl, rfl, Bool.of_not_eq_false hbudget, ?_⟩
  dsimp only
  omega

theorem Attenuated.assetId_eq {registry : AssetRegistry} {p c : PaymentCaveat}
    (h : Attenuated registry p c) : c.assetId = p.assetId := by
  induction h with
  | self => rfl
  | step _ h ih => exact (PaymentCaveat.attenuate_eq_ok h).1.trans ih

theorem Attenuated.nonce_eq {registry : AssetRegistry} {p c : PaymentCaveat}
    (h : Attenuated registry p c) : c.nonce = p.nonce := by
  induction h with
  | self => rfl
  | step _ h ih => exact (PaymentCaveat.attenuate_eq_ok h).2.1.trans ih

/-- The whole tree is observed under one triple. -/
theorem Attenuated.nonceKey_eq {blake3 : List UInt8 → Bytes32} {registry : AssetRegistry}
    {p c : PaymentCaveat} (h : Attenuated registry p c) (data : AssetMetadata) :
    c.nonceKey blake3 data = p.nonceKey blake3 data := by
  unfold PaymentCaveat.nonceKey
  rw [h.assetId_eq, h.nonce_eq]

theorem setSubsumes_payment (p c : PaymentCaveat) :
    setSubsumes [.payment p] [.payment c] = impliedByOne (.payment c) (.payment p) := by
  simp [setSubsumes, parentCaveatImplies]

theorem PaymentCaveat.attenuate_subsumed {p c : PaymentCaveat} {budget : Amount} {expires : Nat}
    {asset : Bytes32} {registry : AssetRegistry}
    (h : p.attenuate budget expires asset registry = .ok c) :
    setSubsumes [.payment p] [.payment c] = true := by
  obtain ⟨-, -, hmodel, hbudget, hexpiry⟩ := attenuate_eq_ok h
  rw [setSubsumes_payment, impliedByOne, hbudget, hmodel]
  simp [hexpiry]

/-! ## Spending -/

theorem NonceRegistry.subset_observe (seen : NonceRegistry)
    (key : NonceEventKind × Bytes32 × Bytes32) : ∀ k ∈ seen, k ∈ (seen.observe key).2 := by
  unfold observe
  intro k hk
  split
  · exact hk
  · exact List.mem_cons_of_mem key hk

/-- A call that is answered `Proceed` found its triple free, and took it. -/
theorem PaymentCaveat.verify_proceed {blake3 : List UInt8 → Bytes32} {registry : AssetRegistry}
    {p : PaymentCaveat} {q : Query} {seen : NonceRegistry} {remaining : Dqa}
    (h : (p.verify blake3 registry q seen).1 = .ok (.proceed remaining)) :
    ∃ data, registry p.assetId = some data ∧ p.nonceKey blake3 data ∉ seen ∧
      (p.verify blake3 registry q seen).2 = p.nonceKey blake3 data :: seen := by
  unfold verify at h ⊢
  cases hdata : registry p.assetId with
  | none =>
    rw [hdata] at h
    cases h
  | some data =>
    rw [hdata] at h
    dsimp only at h ⊢
    split at h
    · cases h
    next hscale =>
    split at h
    · cases h
    next hepoch =>
    rw [if_neg hscale, if_neg hepoch]
    by_cases hseen : p.nonceKey blake3 data ∈ seen
    · rw [NonceRegistry.observe, if_pos hseen] at h
      cases h
    · rw [NonceRegistry.observe, if_neg hseen]
      exact ⟨data, rfl, hseen, rfl⟩

theorem PaymentCaveat.subset_verify {blake3 : List UInt8 → Bytes32} {registry : AssetRegistry}
    (p : PaymentCaveat) (q : Query) (seen : NonceRegistry) :
    ∀ k ∈ seen, k ∈ (p.verify blake3 registry q seen).2 := by
  intro k hk
  unfold verify
  split
  · exact hk
  next data hdata =>
  split
  · exact hk
  split
  · exact hk
  have hsub := seen.subset_observe (p.nonceKey blake3 data) k hk
  split
  next heq => rwa [heq] at hsub
  next heq => rwa [heq] at hsub

/-- The triple of the tree is taken. -/
def TreeSpent (blake3 : List UInt8 → Bytes32) (registry : AssetRegistry) (p : PaymentCaveat)
    (seen : NonceRegistry) : Prop :=
  ∃ data, registry p.assetId = some data ∧ p.nonceKey blake3 data ∈ seen

theorem SpendsTree.verify_eq {blake3 : List UInt8 → Bytes32} {registry : AssetRegistry}
    {p : PaymentCaveat} {seen : NonceRegistry} {op : NonceOp}
    (h : SpendsTree registry p (op, (nonceStep blake3 registry seen op).1)) :
    ∃ data, registry p.assetId = some data ∧ p.nonceKey blake3 data ∉ seen ∧
      (nonceStep blake3 registry seen op).2 = p.nonceKey blake3 data :: seen := by
  cases op with
  | observe key => exact h.elim
  | verify c q =>
    dsimp only [nonceStep] at h ⊢
    unfold SpendsTree at h
    split at h
    next c' q' remaining heq =>
      obtain ⟨hop, hanswer⟩ := Prod.mk.inj heq
      obtain ⟨rfl, rfl⟩ := NonceOp.verify.inj hop
      obtain ⟨data, hdata, hfree, htaken⟩ := PaymentCaveat.verify_proceed (Option.some.inj hanswer)
      rw [h.assetId_eq] at hdata
      rw [h.nonceKey_eq] at hfree htaken
      exact ⟨data, hdata, hfree, htaken⟩
    · exact h.elim

/-- **A tree is spent at most once**, whatever else is observed between. -/
theorem spent_once (blake3 : List UInt8 → Bytes32) (registry : AssetRegistry) (p : PaymentCaveat)
    (seen : NonceRegistry) (ops : List NonceOp) :
    (Trace.trace (nonceStep blake3 registry) seen ops).Pairwise
      fun a b => ¬(SpendsTree registry p a ∧ SpendsTree registry p b) := by
  have hkeep : ∀ s op, TreeSpent blake3 registry p s →
      TreeSpent blake3 registry p (nonceStep blake3 registry s op).2 := by
    rintro s op ⟨data, hdata, hmem⟩
    refine ⟨data, hdata, ?_⟩
    cases op with
    | verify c q => exact c.subset_verify q s _ hmem
    | observe key => exact s.subset_observe key _ hmem
  have hneed : ∀ s op, SpendsTree registry p (op, (nonceStep blake3 registry s op).1) →
      ¬TreeSpent blake3 registry p s := by
    rintro s op hspends ⟨data, hdata, hmem⟩
    obtain ⟨data', hdata', hfree, -⟩ := hspends.verify_eq
    obtain rfl := Option.some.inj (hdata.symm.trans hdata')
    exact hfree hmem
  have hspend : ∀ s op, SpendsTree registry p (op, (nonceStep blake3 registry s op).1) →
      TreeSpent blake3 registry p (nonceStep blake3 registry s op).2 := by
    intro s op hspends
    obtain ⟨data, hdata, -, htaken⟩ := hspends.verify_eq
    exact ⟨data, hdata, htaken ▸ List.mem_cons_self⟩
  exact Trace.pairwise_of_spent hkeep hneed hspend seen ops

/-! ## The two rules -/

/-- The payment arm, by what it compares. -/
theorem payment_implied_iff (p c : PaymentCaveat) :
    impliedByOne (.payment c) (.payment p) = true ↔
      c.budget.dqa.val ≤ p.budget.dqa.val ∧ c.expiresAtUnixMs ≤ p.expiresAtUnixMs ∧
        (p.model = "" ∨ p.model = c.model) := by
  rw [impliedByOne, Bool.and_eq_true, Bool.and_eq_true, Bool.or_eq_true, Amount.le_iff,
    decide_eq_true_iff, beq_iff_eq, String.isEmpty_iff, and_assoc]

/-- **When the rules agree**: the assets are the same, or the comparison refuses
for another reason. -/
theorem paymentRules_agree_iff (blake3 : List UInt8 → Bytes32) (registry : AssetRegistry)
    (p c : PaymentCaveat) :
    PaymentRulesAgree blake3 registry p c ↔
      c.assetId = p.assetId ∨ p.budget.dqa.val < c.budget.dqa.val ∨
        p.expiresAtUnixMs < c.expiresAtUnixMs ∨ (p.model ≠ "" ∧ p.model ≠ c.model) := by
  constructor
  · intro h
    have hasset := h.asset
    rw [setSubsumes_payment, payment_implied_iff] at hasset
    by_cases hbudget : c.budget.dqa.val ≤ p.budget.dqa.val
    swap
    · exact Or.inr (Or.inl (not_le.mp hbudget))
    by_cases hexpiry : c.expiresAtUnixMs ≤ p.expiresAtUnixMs
    swap
    · exact Or.inr (Or.inr (Or.inl (not_le.mp hexpiry)))
    by_cases hmodel : p.model = "" ∨ p.model = c.model
    · exact Or.inl (hasset ⟨hbudget, hexpiry, hmodel⟩)
    · exact Or.inr (Or.inr (Or.inr (not_or.mp hmodel)))
  · intro h
    refine ⟨?_, fun budget expires asset c' hc' => PaymentCaveat.attenuate_subsumed hc',
      spent_once blake3 registry p⟩
    rw [setSubsumes_payment, payment_implied_iff]
    intro h
    obtain ⟨hbudget, hexpiry, hmodel⟩ := h
    rcases h with hasset | hwide | hlate | ⟨hany, hother⟩
    · exact hasset
    · exact absurd hbudget (not_le.mpr hwide)
    · exact absurd hexpiry (not_le.mpr hlate)
    · exact absurd hmodel (not_or.mpr ⟨hany, hother⟩)

/-- A payment of budget ten in the asset whose id repeats the byte. -/
def samplePayment (asset : UInt8) : PaymentCaveat where
  caveatName := paidQueryCaveatName
  assetId := Vector.replicate 32 asset
  budget := ⟨⟨10, 0, by decide, zero_scale_lt⟩, by decide⟩
  model := ""
  expiresAtUnixMs := 1000
  registrySnapshotEpoch := 0
  nonce := Vector.replicate 32 5

/-- A payment in one asset subsumes the same payment in another. -/
theorem payment_asset_switched :
    setSubsumes [.payment (samplePayment 1)] [.payment (samplePayment 2)] = true ∧
      (samplePayment 2).assetId ≠ (samplePayment 1).assetId := by
  refine ⟨?_, by decide⟩
  rw [setSubsumes_payment, payment_implied_iff]
  exact ⟨le_rfl, le_rfl, Or.inl rfl⟩

end CipherOcto.Cap
