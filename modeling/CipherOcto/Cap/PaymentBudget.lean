import CipherOcto.Cap.Payment
import CipherOcto.Determin.DqaExact
import CipherOcto.Determin.DqaOrder

/-!
# What a payment leaves of its budget

`PaymentCaveat::verify` again, over a nonce registry of any kind and over amounts as the
public fields of `Dqa` allow them, of either sign and of any scale.

The last gate compares the cost with the budget as numbers and the code then subtracts,
taking the comparison as the guard of the subtraction. The gate on the scales makes the two
amounts agree on one, so the subtraction aligns nothing and the difference of the numerators
is exact. What the comparison does not look at is the sign of the cost:

> `spend_conserved_iff`: for amounts of one scale, the answer conserves the budget exactly
> if the cost is not negative or above the budget, and the comparison stays in its table.
> `verify_conserved_iff`: a call conserves the budget exactly if an earlier gate stops it or
> its amounts are such.
-/

namespace CipherOcto.Cap

open Machine Determin Encoding

/-! ## The code -/

inductive NonceError where
  | alreadyObserved (eventKind : NonceEventKind) (pk nonce : Bytes32)
  | notObserved (eventKind : NonceEventKind) (pk nonce : Bytes32)
  | persistenceFailure
  | walRecovering
deriving DecidableEq

/-- What `verify` reads of a payment caveat, the budget being any amount. -/
structure OpenPayment where
  assetId : Bytes32
  budget : Dqa
  model : String
  expiresAtUnixMs : Nat
  registrySnapshotEpoch : Nat
  nonce : Bytes32

/-- The arguments of a `verify` call, less the registries. -/
structure OpenQuery where
  cost : Dqa
  model : String
  nowUnixMs : Nat
  currentEpoch : Nat

namespace OpenPayment

/-- `is_expired`. -/
def isExpired (p : OpenPayment) (now : Nat) : Bool :=
  p.expiresAtUnixMs != neverExpires && decide (now > p.expiresAtUnixMs)

/-- `matches_model`. -/
def matchesModel (p : OpenPayment) (model : String) : Bool :=
  p.model.isEmpty || p.model == model

/-- The last gate and what follows it. The subtraction is unwrapped. -/
def spend (budget cost : Dqa) : Run Empty PaymentDecision :=
  match dqaCmp cost budget with
  | .error _ => .error .panic
  | .ok order =>
    if order > 0 then .ok (.reject .costExceedsBudget)
    else match dqaSub budget cost with
    | .ok remaining => .ok (.proceed remaining)
    | .error _ => .error .panic

/-- The gates after the nonce. -/
def charge (p : OpenPayment) (q : OpenQuery) : Run Empty PaymentDecision :=
  if p.isExpired q.nowUnixMs then .ok (.reject .expired)
  else if p.matchesModel q.model = false then .ok (.reject .modelMismatch)
  else if p.budget.value = 0 then .ok (.reject .budgetExhausted)
  else spend p.budget q.cost

section

variable {σ : Type} (blake3 : List UInt8 → Bytes32) (registry : AssetRegistry)
  (observe : σ → NonceEventKind × Bytes32 × Bytes32 → Except NonceError Unit × σ)

/-- The triple a payment is observed under. -/
def nonceKey (p : OpenPayment) (data : AssetMetadata) : NonceEventKind × Bytes32 × Bytes32 :=
  (.payment, data.governancePubkey.getD (sovereignNonceNamespace blake3 p.assetId), p.nonce)

/-- `PaymentCaveat::verify`. Every error of `observe` is answered as a replay. -/
def verify (p : OpenPayment) (q : OpenQuery) (s : σ) : Run Empty PaymentDecision × σ :=
  match registry p.assetId with
  | none => (.ok (.reject .assetUnknown), s)
  | some data =>
    if q.cost.scale ≠ p.budget.scale ∨ q.cost.scale ≠ data.wireScale then
      (.ok (.reject (.scaleMismatch p.budget.scale q.cost.scale)), s)
    else if q.currentEpoch < p.registrySnapshotEpoch then
      (.ok (.reject (.staleSnapshot p.registrySnapshotEpoch q.currentEpoch)), s)
    else
      match observe s (p.nonceKey blake3 data) with
      | (.error _, s) => (.ok (.reject .replay), s)
      | (.ok _, s) => (p.charge q, s)

end

end OpenPayment

/-! ## The caveats that were built by a constructor -/

def PaymentCaveat.toOpen (p : PaymentCaveat) : OpenPayment :=
  { assetId := p.assetId, budget := p.budget.dqa, model := p.model,
    expiresAtUnixMs := p.expiresAtUnixMs, registrySnapshotEpoch := p.registrySnapshotEpoch,
    nonce := p.nonce }

def Query.toOpen (q : Query) : OpenQuery :=
  { cost := q.cost.dqa, model := q.model, nowUnixMs := q.nowUnixMs,
    currentEpoch := q.currentEpoch }

/-- `InMemoryNonceRegistry::observe`. -/
def NonceRegistry.tryObserve (seen : NonceRegistry) (key : NonceEventKind × Bytes32 × Bytes32) :
    Except NonceError Unit × NonceRegistry :=
  if key ∈ seen then (.error (.alreadyObserved key.1 key.2.1 key.2.2), seen)
  else (.ok (), key :: seen)

theorem PaymentCaveat.charge_toOpen (p : PaymentCaveat) (q : Query) :
    p.toOpen.charge q.toOpen = p.charge q := by
  have hcmp : ∃ order, dqaCmp q.cost.dqa p.budget.dqa = .ok order ∧
      (order > 0 ↔ q.cost.le p.budget = false) := by
    refine ⟨_, dqaCmp_eq q.cost.scale_le p.budget.scale_le, ?_⟩
    unfold Amount.le
    rw [dqaCmp_eq q.cost.scale_le p.budget.scale_le]
    dsimp only
    rw [decide_eq_false_iff_not, not_le]
  obtain ⟨order, hcmp, hle⟩ := hcmp
  unfold OpenPayment.charge PaymentCaveat.charge OpenPayment.spend
  dsimp only [toOpen, Query.toOpen]
  rw [hcmp]
  dsimp only
  simp only [hle]
  rfl

theorem PaymentCaveat.nonceKey_toOpen (blake3 : List UInt8 → Bytes32) (p : PaymentCaveat)
    (data : AssetMetadata) : p.toOpen.nonceKey blake3 data = p.nonceKey blake3 data := rfl

/-- The two models of `verify` agree. -/
theorem PaymentCaveat.verify_toOpen (blake3 : List UInt8 → Bytes32) (registry : AssetRegistry)
    (p : PaymentCaveat) (q : Query) (seen : NonceRegistry) :
    p.toOpen.verify blake3 registry NonceRegistry.tryObserve q.toOpen seen =
      p.verify blake3 registry q seen := by
  have hasset : p.toOpen.assetId = p.assetId := rfl
  unfold OpenPayment.verify PaymentCaveat.verify
  rw [p.charge_toOpen q, hasset]
  cases registry p.assetId with
  | none => rfl
  | some data =>
    refine if_congr Iff.rfl rfl (if_congr Iff.rfl rfl ?_)
    rw [p.nonceKey_toOpen blake3 data]
    unfold NonceRegistry.tryObserve NonceRegistry.observe
    by_cases hseen : p.nonceKey blake3 data ∈ seen
    · rw [if_pos hseen, if_pos hseen]
    · rw [if_neg hseen, if_neg hseen]

/-! ## The budget -/

/-- No panic, and what is answered as left over, together with the cost, is the budget. -/
structure Conserved (budget cost : Dqa) (r : Run Empty PaymentDecision) : Prop where
  returns : r ≠ .error .panic
  spent : ∀ remaining, r = .ok (.proceed remaining) →
    0 ≤ remaining.val ∧ remaining.val ≤ budget.val ∧ remaining.val + cost.val = budget.val

theorem Conserved.of_reject (budget cost : Dqa) (reason : PaymentRejectionReason) :
    Conserved budget cost (.ok (.reject reason)) :=
  ⟨nofun, fun _ h => by cases h⟩

theorem not_conserved_panic (budget cost : Dqa) : ¬Conserved budget cost (.error .panic) :=
  fun h => h.returns rfl

/-- Amounts of one scale are subtracted as they stand. -/
theorem dqaSub_of_scale_eq {a b : Dqa} (h : a.scale = b.scale) :
    Dqa.Returns (InI 64 (a.value - b.value)) (a.val - b.val) (dqaSub a b) := by
  have hdiff : Scaled.val (a.value - b.value) a.scale = a.val - b.val := by
    unfold Dqa.val Scaled.val
    rw [← h]
    push_cast
    exact sub_div _ _ _
  have hsub : dqaSub a b = finish (a.value - b.value) (max a.scale b.scale) := by
    unfold dqaSub alignScales
    rw [if_pos h]
    rfl
  rw [hsub, ← h, max_self, ← hdiff]
  exact finish_returns _ a.scale_lt

theorem val_nonneg_iff (d : Dqa) : 0 ≤ d.val ↔ 0 ≤ d.value := by
  unfold Dqa.val
  rw [← Scaled.val_zero d.scale, Scaled.val_le_iff]
  exact mul_le_mul_iff_of_pos_right (Scaled.ten_pow_pos d.scale)

/-- **The last gate** conserves the budget exactly if the comparison has its power of ten
and the cost is not negative, or else refused. -/
theorem spend_conserved_iff {budget cost : Dqa} (hscale : cost.scale = budget.scale) :
    Conserved budget cost (OpenPayment.spend budget cost) ↔
      cost.Comparable budget ∧ (0 ≤ cost.value ∨ budget.value < cost.value) := by
  unfold OpenPayment.spend
  by_cases hnear : cost.Comparable budget
  swap
  · rw [dqaCmp_of_not_comparable hnear]
    exact iff_of_false (not_conserved_panic budget cost) fun h => hnear h.1
  rw [dqaCmp_of_comparable hnear, and_iff_right hnear]
  dsimp only
  have horder : (SignType.sign (cost.val - budget.val) : Int) > 0 ↔
      budget.value < cost.value := by
    have hpos : ∀ s : SignType, (s : Int) > 0 ↔ s = 1 := by decide
    rw [hpos, sign_eq_one_iff, sub_pos, ← not_le, val_le_iff_of_scale_eq hscale, not_le]
  by_cases hover : budget.value < cost.value
  · rw [if_pos (horder.mpr hover)]
    exact iff_of_true (Conserved.of_reject budget cost _) (Or.inr hover)
  rw [if_neg fun h => hover (horder.mp h), or_iff_left hover]
  have hsub := dqaSub_of_scale_eq hscale.symm
  constructor
  · intro h
    by_cases hfits : InI 64 (budget.value - cost.value)
    · obtain ⟨remaining, heq, -, hval⟩ := hsub.ok hfits
      rw [heq] at h
      obtain ⟨-, hle, hsum⟩ := h.spent remaining rfl
      exact (val_nonneg_iff cost).mp (by linarith only [hle, hsum])
    · rw [hsub.overflow hfits] at h
      exact absurd h (not_conserved_panic budget cost)
  · intro hcost
    -- the difference lies between zero and the budget, which is an `i64`
    have hfits : InI 64 (budget.value - cost.value) := by
      have hbudget := budget.value_inI
      unfold InI minI maxI at hbudget ⊢
      omega
    obtain ⟨remaining, heq, -, hval⟩ := hsub.ok hfits
    rw [heq]
    refine ⟨nofun, fun left hleft => ?_⟩
    obtain rfl := PaymentDecision.proceed.inj (Except.ok.inj hleft)
    have hcost' := (val_nonneg_iff cost).mpr hcost
    have hle := (val_le_iff_of_scale_eq hscale).mpr (not_lt.mp hover)
    rw [hval]
    exact ⟨by linarith only [hle], by linarith only [hcost'], by ring⟩

/-! ## The whole call -/

section

variable {σ : Type} (blake3 : List UInt8 → Bytes32) (registry : AssetRegistry)
  (observe : σ → NonceEventKind × Bytes32 × Bytes32 → Except NonceError Unit × σ)

/-- No gate before the comparison of the amounts stops the call. -/
structure OpenPayment.Reaches (p : OpenPayment) (q : OpenQuery) (s : σ) : Prop where
  observed : ∃ data, registry p.assetId = some data ∧ q.cost.scale = data.wireScale ∧
    (observe s (p.nonceKey blake3 data)).1 = .ok ()
  scale : q.cost.scale = p.budget.scale
  fresh : p.registrySnapshotEpoch ≤ q.currentEpoch
  unexpired : p.isExpired q.nowUnixMs = false
  model : p.matchesModel q.model = true
  funded : p.budget.value ≠ 0

variable {blake3 registry observe}

theorem OpenPayment.charge_eq_or (p : OpenPayment) (q : OpenQuery) :
    (p.isExpired q.nowUnixMs = false ∧ p.matchesModel q.model = true ∧ p.budget.value ≠ 0 ∧
        p.charge q = spend p.budget q.cost) ∨
      (¬(p.isExpired q.nowUnixMs = false ∧ p.matchesModel q.model = true ∧
          p.budget.value ≠ 0) ∧ ∃ reason, p.charge q = .ok (.reject reason)) := by
  unfold charge
  split
  next hexpired =>
    refine Or.inr ⟨fun h => ?_, _, rfl⟩
    rw [h.1] at hexpired
    cases hexpired
  next hexpired =>
  split
  next hmodel =>
    refine Or.inr ⟨fun h => ?_, _, rfl⟩
    rw [h.2.1] at hmodel
    cases hmodel
  next hmodel =>
  split
  next hzero => exact Or.inr ⟨fun h => h.2.2 hzero, _, rfl⟩
  next hzero =>
    exact Or.inl ⟨Bool.eq_false_of_not_eq_true hexpired, Bool.of_not_eq_false hmodel, hzero, rfl⟩

/-- Either every gate lets the call pass, or one of them rejects it. -/
theorem OpenPayment.verify_eq_or (p : OpenPayment) (q : OpenQuery) (s : σ) :
    (p.Reaches blake3 registry observe q s ∧
        (p.verify blake3 registry observe q s).1 = spend p.budget q.cost) ∨
      (¬p.Reaches blake3 registry observe q s ∧
        ∃ reason, (p.verify blake3 registry observe q s).1 = .ok (.reject reason)) := by
  unfold verify
  cases hdata : registry p.assetId with
  | none =>
    refine Or.inr ⟨fun h => ?_, _, rfl⟩
    obtain ⟨data, hsome, -⟩ := h.observed
    rw [hdata] at hsome
    cases hsome
  | some data =>
    have hunique : ∀ h : p.Reaches blake3 registry observe q s, q.cost.scale = data.wireScale ∧
        (observe s (p.nonceKey blake3 data)).1 = .ok () := by
      intro h
      obtain ⟨other, hother, hobserved⟩ := h.observed
      obtain rfl := Option.some.inj (hdata.symm.trans hother)
      exact hobserved
    dsimp only
    split
    next hscale => exact Or.inr ⟨fun h => hscale.elim (· h.scale) (· (hunique h).1), _, rfl⟩
    next hscale =>
    obtain ⟨hbudget, hwire⟩ := not_or.mp hscale
    split
    next hstale => exact Or.inr ⟨fun h => absurd h.fresh (not_le.mpr hstale), _, rfl⟩
    next hfresh =>
    split
    next heq =>
      refine Or.inr ⟨fun h => ?_, _, rfl⟩
      have hok := (hunique h).2
      rw [heq] at hok
      cases hok
    next heq =>
      rcases p.charge_eq_or q with ⟨hunexpired, hmodel, hfunded, hcharge⟩ | ⟨hstop, hreject⟩
      · refine Or.inl ⟨⟨⟨data, hdata, not_not.mp hwire, ?_⟩, not_not.mp hbudget,
          not_lt.mp hfresh, hunexpired, hmodel, hfunded⟩, hcharge⟩
        rw [heq]
      · exact Or.inr ⟨fun h => hstop ⟨h.unexpired, h.model, h.funded⟩, hreject⟩

variable (blake3 registry observe) in
/-- **When a call conserves the budget**: a gate stops it before the amounts are compared,
or the comparison stays in its table and the cost is not negative unless it is refused. -/
theorem OpenPayment.verify_conserved_iff (p : OpenPayment) (q : OpenQuery) (s : σ) :
    Conserved p.budget q.cost (p.verify blake3 registry observe q s).1 ↔
      (p.Reaches blake3 registry observe q s →
        q.cost.Comparable p.budget ∧ (0 ≤ q.cost.value ∨ p.budget.value < q.cost.value)) := by
  rcases p.verify_eq_or q s with ⟨hreaches, heq⟩ | ⟨hstop, reason, heq⟩
  · rw [heq, spend_conserved_iff hreaches.scale]
    exact ⟨fun h _ => h, fun h => h hreaches⟩
  · rw [heq]
    exact iff_of_true (Conserved.of_reject p.budget q.cost reason) fun h => absurd h hstop

end

/-! ## A negative cost -/

/-- Every asset is registered, at scale zero. -/
def zeroScaleRegistry : AssetRegistry := fun _ => some ⟨0, none⟩

/-- A whole number of units. -/
def unscaled (value : Int) (h : InI 64 value) : Dqa := ⟨value, 0, h, zero_scale_lt⟩

/-- A budget of ten of which minus five were spent: fifteen are left. -/
theorem negative_cost_adds_budget :
    ¬∀ (σ : Type) (blake3 : List UInt8 → Bytes32) (registry : AssetRegistry)
      (observe : σ → NonceEventKind × Bytes32 × Bytes32 → Except NonceError Unit × σ)
      (p : OpenPayment) (q : OpenQuery) (s : σ),
      Conserved p.budget q.cost (p.verify blake3 registry observe q s).1 := by
  intro h
  have hfive := h NonceRegistry (fun _ => Vector.replicate 32 0) zeroScaleRegistry
    NonceRegistry.tryObserve (samplePayment 1).toOpen
    ⟨unscaled (-5) (by decide), "", 0, 0⟩ []
  obtain ⟨-, hle, -⟩ := hfive.spent (unscaled 15 (by decide)) (by decide +kernel)
  have hfifteen : (15 : Int) ≤ 10 := (val_le_iff_of_scale_eq (by rfl)).mp hle
  exact absurd hfifteen (by decide)

end CipherOcto.Cap
