import CipherOcto.Determin.DqaInt
import CipherOcto.Encoding.Constraint
import CipherOcto.Lib.HashMap
import CipherOcto.Lib.Trace

/-!
# The slashing ledger

Stakes in memory, written through to a store. Three calls change an entry; each changes the
map first and writes the row then, and where the write fails it puts the entry back by hand.
The penalty is a product and a quotient of fixed-point numbers, and the product has to fit
an `i64`: it is not the `u128` that the comment on it speaks of, and where it does not fit
the call panics.

The `f64` of the cumulative loss is a parameter, with the ban test on it; a write fails with
a message or succeeds, as the run says.

> `penalty_cases`: a penalty is refused, or at most the stake, or its product does not fit.
> `step_err`, `step_ok`, `step_eq_panic_iff`: what a call does.
> `sound_step_iff`: a call keeps the books iff it `Fits`.
-/

namespace CipherOcto.Router

open Determin Encoding Machine Trace

/-! ## The code -/

/-- `SlashReason`. -/
structure SlashReason where
  typeId : Vector UInt8 16
  payload : List UInt8
  deriving DecidableEq

/-- The variants of `SlashError` that are returned here. -/
inductive SlashError where
  | unknownProvider (providerId : String)
  | bannedProvider (providerId : String) (cumulativeLossPctBits : UInt64)
  | invalidAmount (amount : Dqa)
  | insufficientStake (available requested : Dqa)
  | nonIntegerScale (param : String) (scale : Nat)
  | store (message : String)
  deriving DecidableEq

/-- `ProviderStake`. -/
structure ProviderStake (F : Type) where
  chainId : Bytes32
  providerId : String
  stakeMicroOctoW : Dqa
  initialStakeMicroOctoW : Dqa
  offenseCount : UInt32
  cumulativeLossPct : F
  deriving DecidableEq

/-- `SlashLedgerRow`. -/
structure SlashLedgerRow where
  chainId : Bytes32
  providerId : String
  stakeMicroOctoW : Dqa
  initialStakeMicroOctoW : Dqa
  offenseCount : UInt32
  cumulativeLossPctMicro : UInt64
  lastUpdatedUnix : UInt64
  deriving DecidableEq

/-- `SlashOutcome`. -/
structure SlashOutcome (F : Type) where
  chainId : Bytes32
  providerId : String
  reason : SlashReason
  amountMicroOctoW : Dqa
  newStakeMicroOctoW : Dqa
  cumulativeLossPct : F
  banned : Bool
  deriving DecidableEq

/-- The `f64` side of the ledger under its rules, and whether the build checks overflows. -/
structure LossRules (F : Type) where
  zero : F
  add : F → F → F
  /-- The amount lost, over the initial stake. -/
  ratio : Int → Int → F
  isBanned : F → Bool
  /-- In millionths, rounded. -/
  micro : F → UInt64
  overflowChecks : Bool

/-- `DEFAULT_CHAIN_ID`. -/
def defaultChainId : Bytes32 := Vector.replicate 32 0

/-- `stake_key`. -/
def stakeKey (providerId : String) : Bytes32 × String := (defaultChainId, providerId)

/-- The ledger and the store behind it. -/
structure SlashingLedger (F : Type) where
  stakes : HashMap (Bytes32 × String) (ProviderStake F)
  rows : HashMap (Bytes32 × String) SlashLedgerRow

/-- A micro-percentage, as `apply_penalty` rounds its percentage to. -/
abbrev PctMicro := { p : Nat // p ≤ 1000000 }

/-- `require_integer_scale`. -/
def requireIntegerScale (d : Dqa) (param : String) : Except SlashError Unit :=
  if d.scale ≠ 0 then .error (.nonIntegerScale param d.scale) else .ok ()

/-- `require_non_negative_integer`. -/
def requireNonNegativeInteger (d : Dqa) (param : String) : Except SlashError Unit := do
  requireIntegerScale d param
  if d.value < 0 then .error (.invalidAmount d) else .ok ()

/-- `require_positive_integer`. -/
def requirePositiveInteger (d : Dqa) (param : String) : Except SlashError Unit := do
  requireIntegerScale d param
  if d.value ≤ 0 then .error (.invalidAmount d) else .ok ()

/-- `expect` on a result of the arithmetic. -/
def expect {α : Type} (x : Run DqaError α) : Run SlashError α := x.mapError fun _ => .panic

theorem PctMicro.inI (p : PctMicro) : InI 64 p.1 := by
  have hp := p.2
  rw [InI, minI, maxI]
  omega

def PctMicro.toDqa (p : PctMicro) : Dqa := Dqa.ofInt p.1 p.inI

/-- The denominator of the penalty. -/
def million : Dqa := Dqa.ofInt 1000000 (by decide)

inductive SlashOp where
  | register (providerId : String) (initialStake : Dqa)
  | withdrawStake (providerId : String) (amount : Dqa)
  | slashWithPct (providerId : String) (reason : SlashReason) (pctMicro : PctMicro)

def SlashOp.providerId : SlashOp → String
  | .register providerId _ => providerId
  | .withdrawStake providerId _ => providerId
  | .slashWithPct providerId _ _ => providerId

/-- A call, at a time, and how its write to the store ends. -/
structure SlashCall where
  op : SlashOp
  now : UInt64
  write : Except String Unit

/-- What the calls return. -/
inductive SlashReply (F : Type) where
  | registered (stake : ProviderStake F)
  | withdrawn (newStake : Dqa)
  | slashed (outcome : SlashOutcome F)
  deriving DecidableEq

namespace SlashingLedger

variable {F : Type}

/-- `SlashingLedger::stake`. -/
def stake (s : SlashingLedger F) (providerId : String) : Option (ProviderStake F) :=
  s.stakes.lookup (stakeKey providerId)

/-- The row of a provider. -/
def row (s : SlashingLedger F) (providerId : String) : Option SlashLedgerRow :=
  s.rows.lookup (stakeKey providerId)

/-- The entry of a provider is inserted or changed. -/
def setStake (s : SlashingLedger F) (providerId : String) (p : ProviderStake F) :
    SlashingLedger F := { s with stakes := s.stakes.insert (stakeKey providerId) p }

/-- `upsert_stake`, where it succeeds. -/
def upsertStake (s : SlashingLedger F) (row : SlashLedgerRow) : SlashingLedger F :=
  { s with rows := s.rows.insert (row.chainId, row.providerId) row }

/-- The entry of a provider, where there is one. -/
def found (s : SlashingLedger F) (providerId : String) : Except SlashError (ProviderStake F) :=
  (s.stake providerId).elim (.error (.unknownProvider providerId)) .ok

end SlashingLedger

namespace LossRules

variable {F : Type} (l : LossRules F)

/-- The row of an entry. -/
def row (providerId : String) (p : ProviderStake F) (now : UInt64) : SlashLedgerRow where
  chainId := defaultChainId
  providerId := providerId
  stakeMicroOctoW := p.stakeMicroOctoW
  initialStakeMicroOctoW := p.initialStakeMicroOctoW
  offenseCount := p.offenseCount
  cumulativeLossPctMicro := l.micro p.cumulativeLossPct
  lastUpdatedUnix := now

/-- The gate on banned providers. -/
def checkBanned (providerId : String) (p : ProviderStake F) : Except SlashError Unit :=
  if l.isBanned p.cumulativeLossPct then
    .error (.bannedProvider providerId (l.micro p.cumulativeLossPct))
  else .ok ()

/-- The entry `register` inserts. -/
def newStake (providerId : String) (initialStake : Dqa) : ProviderStake F where
  chainId := defaultChainId
  providerId := providerId
  stakeMicroOctoW := initialStake
  initialStakeMicroOctoW := initialStake
  offenseCount := 0
  cumulativeLossPct := l.zero

/-- `register`. -/
def register (s : SlashingLedger F) (providerId : String) (initialStake : Dqa) (now : UInt64)
    (write : Except String Unit) : Run SlashError (ProviderStake F) × SlashingLedger F :=
  match requireNonNegativeInteger initialStake "initial_stake_micro_octo_w" with
  | .error e => (.error (.err e), s)
  | .ok () =>
    let created := (s.stake providerId).isNone
    -- `entry(key).or_insert_with`
    let entry := (s.stake providerId).getD (l.newStake providerId initialStake)
    let entered := if created then s.setStake providerId entry else s
    match write with
    | .ok () => (.ok entry, entered.upsertStake (l.row providerId entry now))
    | .error message =>
      (.error (.err (.store message)),
        if created then { entered with stakes := entered.stakes.erase (stakeKey providerId) }
        else entered)

/-- `withdraw_stake`, up to the mutation: the entry and its new stake. -/
def withdrawal (s : SlashingLedger F) (providerId : String) (amount : Dqa) :
    Run SlashError (ProviderStake F × Dqa) := do
  raise (requirePositiveInteger amount "amount")
  let p ← raise (s.found providerId)
  raise (l.checkBanned providerId p)
  let order ← expect (dqaCmp amount p.stakeMicroOctoW)
  if order > 0 then raise (.error (.insufficientStake p.stakeMicroOctoW amount))
  else
    let newStake ← expect (dqaSub p.stakeMicroOctoW amount)
    .ok (p, newStake)

/-- `withdraw_stake`. -/
def withdrawStake (s : SlashingLedger F) (providerId : String) (amount : Dqa) (now : UInt64)
    (write : Except String Unit) : Run SlashError Dqa × SlashingLedger F :=
  match l.withdrawal s providerId amount with
  | .error stop => (.error stop, s)
  | .ok (p, newStake) =>
    let entry := { p with stakeMicroOctoW := newStake }
    let changed := s.setStake providerId entry
    match write with
    | .ok () => (.ok newStake, changed.upsertStake (l.row providerId entry now))
    | .error message =>
      (.error (.err (.store message)),
        changed.setStake providerId { entry with stakeMicroOctoW := p.stakeMicroOctoW })

/-- The amount of a penalty: the part of the stake, capped at the stake. -/
def penaltyAmount (stake : Dqa) (pctMicro : PctMicro) : Run SlashError Dqa := do
  let rawAmount ← expect (dqaMul stake pctMicro.toDqa)
  let amount ← expect (dqaDiv rawAmount million)
  let order ← expect (dqaCmp amount stake)
  if order > 0 then .ok stake else .ok amount

/-- `apply_penalty`, up to the mutation: the entry, the amount and the new stake. -/
def penalty (s : SlashingLedger F) (providerId : String) (pctMicro : PctMicro) :
    Run SlashError (ProviderStake F × Dqa × Dqa) := do
  let prior ← raise (s.found providerId)
  raise (l.checkBanned providerId prior)
  let amount ← penaltyAmount prior.stakeMicroOctoW pctMicro
  let newStake ← expect (dqaSub prior.stakeMicroOctoW amount)
  .ok (prior, amount, newStake)

/-- The part of the initial stake that is lost. -/
def lossDelta (amount initialStake : Dqa) : F :=
  if initialStake.value = 0 then l.zero else l.ratio amount.value initialStake.value

/-- The entry after a penalty. -/
def penalized (prior : ProviderStake F) (amount newStake : Dqa) : ProviderStake F :=
  { prior with
    stakeMicroOctoW := newStake
    offenseCount := prior.offenseCount + 1
    cumulativeLossPct :=
      l.add prior.cumulativeLossPct (l.lossDelta amount prior.initialStakeMicroOctoW) }

/-- `apply_penalty`. -/
def applyPenalty (s : SlashingLedger F) (providerId : String) (reason : SlashReason)
    (pctMicro : PctMicro) (now : UInt64) (write : Except String Unit) :
    Run SlashError (SlashOutcome F) × SlashingLedger F :=
  match l.penalty s providerId pctMicro with
  | .error stop => (.error stop, s)
  | .ok (prior, amount, newStake) =>
    if l.overflowChecks ∧ prior.offenseCount.toNat + 1 = 2 ^ 32 then
      -- the stake is changed already when the count overflows
      (.error .panic, s.setStake providerId { prior with stakeMicroOctoW := newStake })
    else
      let entry := l.penalized prior amount newStake
      let changed := s.setStake providerId entry
      match write with
      | .ok () =>
        (.ok {
            chainId := entry.chainId
            providerId := providerId
            reason := reason
            amountMicroOctoW := amount
            newStakeMicroOctoW := newStake
            cumulativeLossPct := entry.cumulativeLossPct
            banned := l.isBanned entry.cumulativeLossPct },
          changed.upsertStake (l.row providerId entry now))
      | .error message => (.error (.err (.store message)), changed.setStake providerId prior)

/-- One call. -/
def step (s : SlashingLedger F) (call : SlashCall) :
    Run SlashError (SlashReply F) × SlashingLedger F :=
  match call.op with
  | .register providerId initialStake =>
    (l.register s providerId initialStake call.now call.write).map (.map .registered) id
  | .withdrawStake providerId amount =>
    (l.withdrawStake s providerId amount call.now call.write).map (.map .withdrawn) id
  | .slashWithPct providerId reason pctMicro =>
    (l.applyPenalty s providerId reason pctMicro call.now call.write).map (.map .slashed) id

end LossRules

/-! ## The maps -/

namespace SlashingLedger

variable {F : Type} (s : SlashingLedger F)

theorem stakeKey_inj {id id' : String} : stakeKey id = stakeKey id' ↔ id = id' :=
  ⟨congrArg Prod.snd, congrArg stakeKey⟩

theorem stake_setStake (id' : String) (p : ProviderStake F) (id : String) :
    (s.setStake id' p).stake id = if id = id' then some p else s.stake id := by
  rw [stake, setStake, HashMap.lookup_insert]
  exact if_congr stakeKey_inj rfl rfl

theorem row_upsertStake {row : SlashLedgerRow} (hchain : row.chainId = defaultChainId)
    (id : String) :
    (s.upsertStake row).row id = if id = row.providerId then some row else s.row id := by
  rw [SlashingLedger.row, upsertStake, hchain, HashMap.lookup_insert]
  exact if_congr stakeKey_inj rfl rfl

/-- A created entry is taken out again. -/
theorem stake_erase_setStake {id' : String} (p : ProviderStake F) (h : s.stake id' = none)
    (id : String) :
    SlashingLedger.stake
      { s.setStake id' p with stakes := (s.setStake id' p).stakes.erase (stakeKey id') } id =
      s.stake id := by
  by_cases hid : id = id'
  · rw [hid, h]
    exact AList.lookup_erase _ _
  · have hkey : stakeKey id ≠ stakeKey id' := mt stakeKey_inj.mp hid
    exact (AList.lookup_erase_ne hkey).trans (AList.lookup_insert_ne hkey)

/-- An entry is put back. -/
theorem stake_setStake_prior {id' : String} {prior : ProviderStake F} (p : ProviderStake F)
    (h : s.stake id' = some prior) (id : String) :
    ((s.setStake id' p).setStake id' prior).stake id = s.stake id := by
  rw [stake_setStake, stake_setStake]
  split
  next hid => rw [hid, h]
  next => rfl

end SlashingLedger

/-! ## Errors -/

namespace LossRules

variable {F : Type} {l : LossRules F} {s : SlashingLedger F}

theorem found_eq_ok {providerId : String} {p : ProviderStake F} :
    s.found providerId = .ok p ↔ s.stake providerId = some p := elim_error_eq_ok

/-- The entry of a withdrawal is that of the map. -/
theorem stake_of_withdrawal {providerId : String} {amount newStake : Dqa} {p : ProviderStake F}
    (h : l.withdrawal s providerId amount = .ok (p, newStake)) : s.stake providerId = some p := by
  simp only [withdrawal, run_bind_eq_ok, raise_eq_ok, found_eq_ok] at h
  obtain ⟨_, -, q, hq, _, -, order, -, h⟩ := h
  split at h
  next => exact nomatch h
  next =>
    obtain ⟨_, -, heq⟩ := run_bind_eq_ok.mp h
    cases heq
    exact hq

/-- The entry of a penalty is that of the map. -/
theorem stake_of_penalty {providerId : String} {pctMicro : PctMicro} {prior : ProviderStake F}
    {amount newStake : Dqa} (h : l.penalty s providerId pctMicro = .ok (prior, amount, newStake)) :
    s.stake providerId = some prior := by
  simp only [penalty, run_bind_eq_ok, raise_eq_ok, found_eq_ok] at h
  obtain ⟨q, hq, _, -, a, -, n, -, heq⟩ := h
  cases heq
  exact hq

/-- Memory and store as they were. -/
def Unchanged (s s' : SlashingLedger F) : Prop :=
  (∀ id, s'.stake id = s.stake id) ∧ ∀ id, s'.row id = s.row id

theorem register_err {providerId : String} {initialStake : Dqa} {now : UInt64}
    {write : Except String Unit} {e : SlashError}
    (h : (l.register s providerId initialStake now write).1 = .error (.err e)) :
    Unchanged s (l.register s providerId initialStake now write).2 := by
  unfold register at h ⊢
  split
  next => exact ⟨fun _ => rfl, fun _ => rfl⟩
  next hok =>
    rw [hok] at h
    cases write with
    | ok _ => exact absurd h (by simp)
    | error message =>
      cases hstake : s.stake providerId with
      | none => exact ⟨s.stake_erase_setStake _ hstake, fun _ => rfl⟩
      | some p => exact ⟨fun _ => rfl, fun _ => rfl⟩

theorem withdrawStake_err {providerId : String} {amount : Dqa} {now : UInt64}
    {write : Except String Unit} {e : SlashError}
    (h : (l.withdrawStake s providerId amount now write).1 = .error (.err e)) :
    Unchanged s (l.withdrawStake s providerId amount now write).2 := by
  unfold withdrawStake at h ⊢
  split
  next => exact ⟨fun _ => rfl, fun _ => rfl⟩
  next p newStake hok =>
    rw [hok] at h
    cases write with
    | ok _ => exact nomatch h
    | error message =>
      exact ⟨s.stake_setStake_prior { p with stakeMicroOctoW := newStake } (stake_of_withdrawal hok),
        fun _ => rfl⟩

theorem applyPenalty_err {providerId : String} {reason : SlashReason} {pctMicro : PctMicro}
    {now : UInt64} {write : Except String Unit} {e : SlashError}
    (h : (l.applyPenalty s providerId reason pctMicro now write).1 = .error (.err e)) :
    Unchanged s (l.applyPenalty s providerId reason pctMicro now write).2 := by
  unfold applyPenalty at h ⊢
  split
  next => exact ⟨fun _ => rfl, fun _ => rfl⟩
  next prior amount newStake hok =>
    rw [hok] at h
    dsimp only at h ⊢
    split at h
    next => exact nomatch h
    next hcount =>
      rw [if_neg hcount]
      cases write with
      | ok _ => exact nomatch h
      | error message =>
        exact ⟨s.stake_setStake_prior (l.penalized prior amount newStake) (stake_of_penalty hok),
          fun _ => rfl⟩

/-- **A call that returns an error changes nothing.** -/
theorem step_err {call : SlashCall} {e : SlashError}
    (h : (l.step s call).1 = .error (.err e)) : Unchanged s (l.step s call).2 := by
  obtain ⟨op, now, write⟩ := call
  cases op with
  | register providerId initialStake => exact register_err (run_map_eq_error.mp h)
  | withdrawStake providerId amount => exact withdrawStake_err (run_map_eq_error.mp h)
  | slashWithPct providerId reason pctMicro => exact applyPenalty_err (run_map_eq_error.mp h)

/-! ## Amounts -/

/-- What `register` accepts. -/
structure Accepted (d : Dqa) : Prop where
  scale : d.scale = 0
  nonneg : 0 ≤ d.value

theorem requireNonNegativeInteger_eq_ok {d : Dqa} {param : String} {u : Unit} :
    requireNonNegativeInteger d param = .ok u ↔ Accepted d := by
  unfold requireNonNegativeInteger requireIntegerScale
  split
  next h => exact iff_of_false (fun hok => nomatch hok) fun hacc => h hacc.scale
  next h =>
    show (if d.value < 0 then _ else _) = _ ↔ _
    split
    next hneg => exact iff_of_false (fun hok => nomatch hok) fun hacc => not_lt.mpr hacc.nonneg hneg
    next hpos => exact iff_of_true rfl ⟨not_not.mp h, not_lt.mp hpos⟩

theorem requirePositiveInteger_eq_ok {d : Dqa} {param : String} {u : Unit} :
    requirePositiveInteger d param = .ok u ↔ d.scale = 0 ∧ 0 < d.value := by
  unfold requirePositiveInteger requireIntegerScale
  split
  next h => exact iff_of_false (fun hok => nomatch hok) fun hacc => h hacc.1
  next h =>
    show (if d.value ≤ 0 then _ else _) = _ ↔ _
    split
    next hneg => exact iff_of_false (fun hok => nomatch hok) fun hacc => not_lt.mpr hneg hacc.2
    next hpos => exact iff_of_true rfl ⟨not_not.mp h, not_le.mp hpos⟩

/-- What is taken from a stake leaves the rest. -/
theorem sub_accepted {stake amount : Dqa} (hstake : Accepted stake) (hscale : amount.scale = 0)
    (hpos : 0 ≤ amount.value) (hle : amount.value ≤ stake.value) :
    ∃ newStake, expect (dqaSub stake amount) = .ok newStake ∧ newStake.scale = 0 ∧
      newStake.value = stake.value - amount.value := by
  have hin : InI 64 (stake.value - amount.value) := by
    obtain ⟨hlo, hhi⟩ := stake.value_inI
    rw [minI] at hlo
    rw [maxI] at hhi
    rw [InI, minI, maxI]
    omega
  refine ⟨Dqa.ofInt _ hin, ?_, rfl, rfl⟩
  rw [dqaSub_of_integers hstake.scale hscale, finish_zero_of_inI hin]
  rfl

/-- The product fits an `i64`. -/
def ProductFits (stake : Dqa) (pctMicro : PctMicro) : Prop := stake.value * pctMicro.1 ≤ maxI 64

instance (stake : Dqa) (pctMicro : PctMicro) : Decidable (ProductFits stake pctMicro) :=
  inferInstanceAs (Decidable (_ ≤ _))

/-- A part of a number, rounded, is at most the number. -/
theorem roundHalfEven_part {value : Int} {p : Nat} (hvalue : 0 ≤ value) (hp : p ≤ 1000000) :
    0 ≤ Rounding.roundHalfEven (((value * p : Int) : ℚ) / 1000000) ∧
      Rounding.roundHalfEven (((value * p : Int) : ℚ) / 1000000) ≤ value := by
  have hnonneg : (0 : Int) ≤ value * p := mul_nonneg hvalue (Int.natCast_nonneg p)
  have hlow : ((0 : Int) : ℚ) ≤ ((value * p : Int) : ℚ) / 1000000 := by
    rw [Int.cast_zero]
    exact div_nonneg (Int.cast_nonneg hnonneg) (by norm_num)
  have hhigh : ((value * p : Int) : ℚ) / 1000000 ≤ (value : ℚ) := by
    rw [div_le_iff₀ (by norm_num)]
    exact_mod_cast mul_le_mul_of_nonneg_left (by exact_mod_cast hp) hvalue
  -- the rounded part lies between the integers that the part lies between
  constructor
  · calc (0 : Int) = Rounding.roundHalfEven ((0 : Int) : ℚ) := (Rounding.roundHalfEven_intCast 0).symm
      _ ≤ _ := Rounding.roundHalfEven_mono hlow
  · calc _ ≤ Rounding.roundHalfEven (value : ℚ) := Rounding.roundHalfEven_mono hhigh
      _ = value := Rounding.roundHalfEven_intCast value

theorem penaltyAmount_of_fits {stake : Dqa} {pctMicro : PctMicro} (hstake : Accepted stake)
    (hfits : ProductFits stake pctMicro) :
    ∃ amount, penaltyAmount stake pctMicro = .ok amount ∧ amount.scale = 0 ∧ 0 ≤ amount.value ∧
      amount.value ≤ stake.value := by
  have hzero : minI 64 ≤ 0 := by decide
  have hraw : InI 64 (stake.value * pctMicro.1) :=
    ⟨hzero.trans (mul_nonneg hstake.nonneg (Int.natCast_nonneg _)), hfits⟩
  obtain ⟨hge, hle⟩ := roundHalfEven_part hstake.nonneg pctMicro.2
  have hin : InI 64 (Rounding.roundHalfEven (((stake.value * pctMicro.1 : Int) : ℚ) / 1000000)) :=
    ⟨hzero.trans hge, hle.trans stake.value_inI.2⟩
  refine ⟨Dqa.ofInt _ hin, ?_, rfl, hge, hle⟩
  have hmul : dqaMul stake pctMicro.toDqa = .ok (Dqa.ofInt _ hraw) := by
    rw [dqaMul_of_integers hstake.scale rfl]
    exact finish_zero_of_inI hraw
  have hdiv : dqaDiv (Dqa.ofInt _ hraw) million = .ok (Dqa.ofInt _ hin) := by
    rw [dqaDiv_of_integers rfl rfl (by decide)]
    exact finish_zero_of_inI hin
  have hcmp : dqaCmp (Dqa.ofInt _ hin) stake = .ok (threeWay (Dqa.ofInt _ hin).value stake.value) :=
    dqaCmp_of_integers rfl hstake.scale
  rw [penaltyAmount, hmul]
  show (expect (dqaDiv (Dqa.ofInt _ hraw) million) >>= fun amount => _) = _
  rw [hdiv]
  show (expect (dqaCmp (Dqa.ofInt _ hin) stake) >>= fun order => _) = _
  rw [hcmp]
  exact if_neg (mt threeWay_pos_iff.mp (not_lt.mpr hle))

theorem penaltyAmount_of_not_fits {stake : Dqa} {pctMicro : PctMicro} (hstake : Accepted stake)
    (hfits : ¬ ProductFits stake pctMicro) : penaltyAmount stake pctMicro = .error .panic := by
  have hmul : dqaMul stake pctMicro.toDqa = .error (.err .overflow) := by
    rw [dqaMul_of_integers hstake.scale rfl]
    exact finish_of_not_inI (fun hin => hfits hin.2) 0
  rw [penaltyAmount, hmul]
  rfl

/-! ## What a call does -/

/-- A call and its answer. -/
abbrev SlashEntry (F : Type) := SlashCall × Run SlashError (SlashReply F)

/-- What an answered call took from the stake. -/
def taken (e : SlashEntry F) : Int :=
  match e.1.op, e.2 with
  | .withdrawStake _ amount, .ok _ => amount.value
  | _, .ok (.slashed outcome) => outcome.amountMicroOctoW.value
  | _, _ => 0

/-- An entry that a call may leave, with its answer. -/
inductive Entered (l : LossRules F) (s : SlashingLedger F) (call : SlashCall)
    (reply : SlashReply F) : ProviderStake F → Prop
  | created (initialStake : Dqa) (hop : call.op = .register call.op.providerId initialStake)
      (hreply : reply = .registered (l.newStake call.op.providerId initialStake))
      (hnew : s.stake call.op.providerId = none) (haccepted : Accepted initialStake) :
      Entered l s call reply (l.newStake call.op.providerId initialStake)
  | changed (prior p : ProviderStake F) (hprior : s.stake call.op.providerId = some prior)
      (hinitial : p.initialStakeMicroOctoW = prior.initialStakeMicroOctoW)
      (hscale : p.stakeMicroOctoW.scale = 0)
      (hstake : p.stakeMicroOctoW.value = prior.stakeMicroOctoW.value - taken (call, .ok reply))
      (hpos : 0 ≤ taken (call, .ok (reply : SlashReply F)))
      (hle : taken (call, .ok reply) ≤ prior.stakeMicroOctoW.value) : Entered l s call reply p

/-- The entry is in memory and its row in the store, and nothing else has changed. -/
def Posted (l : LossRules F) (s : SlashingLedger F) (call : SlashCall) (p : ProviderStake F)
    (s' : SlashingLedger F) : Prop :=
  (∀ id, s'.stake id = if id = call.op.providerId then some p else s.stake id) ∧
  ∀ id, s'.row id =
    if id = call.op.providerId then some (l.row call.op.providerId p call.now) else s.row id

/-- The stakes of the map are integers. -/
def Integral (s : SlashingLedger F) : Prop :=
  ∀ id p, s.stake id = some p → Accepted p.stakeMicroOctoW

theorem posted_setStake_upsertStake (l : LossRules F) (s : SlashingLedger F) (call : SlashCall)
    (p : ProviderStake F) :
    Posted l s call p ((s.setStake call.op.providerId p).upsertStake
      (l.row call.op.providerId p call.now)) :=
  ⟨s.stake_setStake _ p, fun id => SlashingLedger.row_upsertStake _ rfl id⟩

theorem register_ok (hs : Integral s) {providerId : String} {initialStake : Dqa} {now : UInt64}
    {write : Except String Unit} {p : ProviderStake F}
    (h : (l.register s providerId initialStake now write).1 = .ok p) :
    Entered l s ⟨.register providerId initialStake, now, write⟩ (.registered p) p ∧
      Posted l s ⟨.register providerId initialStake, now, write⟩ p
        (l.register s providerId initialStake now write).2 := by
  unfold register at h ⊢
  split at h
  next => exact nomatch h
  next hok =>
    have haccepted := requireNonNegativeInteger_eq_ok.mp hok
    cases write with
    | error message => exact nomatch h
    | ok _ =>
      cases h
      cases hstake : s.stake providerId with
      | none => exact ⟨.created initialStake rfl rfl hstake haccepted, posted_setStake_upsertStake l s _ _⟩
      | some prior =>
        refine ⟨.changed prior prior hstake rfl (hs _ _ hstake).scale (Int.sub_zero _).symm le_rfl
          (hs _ _ hstake).nonneg, ?_, fun id => SlashingLedger.row_upsertStake _ rfl id⟩
        intro id
        show s.stake id = if id = providerId then some prior else s.stake id
        split
        next hid => rw [hid, hstake]
        next => rfl

/-- A withdrawal takes at most the stake. -/
theorem withdrawal_ok (hs : Integral s) {providerId : String} {amount newStake : Dqa}
    {p : ProviderStake F} (h : l.withdrawal s providerId amount = .ok (p, newStake)) :
    0 ≤ amount.value ∧ amount.value ≤ p.stakeMicroOctoW.value ∧ newStake.scale = 0 ∧
      newStake.value = p.stakeMicroOctoW.value - amount.value := by
  have haccepted := hs providerId p (stake_of_withdrawal h)
  simp only [withdrawal, run_bind_eq_ok, raise_eq_ok, requirePositiveInteger_eq_ok] at h
  obtain ⟨_, ⟨hscale, hpos⟩, q, -, _, -, order, horder, h⟩ := h
  split at h
  next => exact nomatch h
  next hle =>
    obtain ⟨n, hsub, heq⟩ := run_bind_eq_ok.mp h
    cases heq
    rw [dqaCmp_of_integers hscale haccepted.scale] at horder
    cases horder
    have hamount : amount.value ≤ p.stakeMicroOctoW.value := not_lt.mp (mt threeWay_pos_iff.mpr hle)
    obtain ⟨_, hrest, hnewScale, hnew⟩ := sub_accepted haccepted hscale hpos.le hamount
    cases hrest.symm.trans hsub
    exact ⟨hpos.le, hamount, hnewScale, hnew⟩

theorem withdrawal_ne_panic (hs : Integral s) (providerId : String) (amount : Dqa) :
    l.withdrawal s providerId amount ≠ .error .panic := by
  intro h
  simp only [withdrawal, run_bind_eq_panic, raise_ne_panic, raise_eq_ok, requirePositiveInteger_eq_ok,
    found_eq_ok, false_or] at h
  obtain ⟨_, ⟨hscale, hpos⟩, p, hp, _, -, h⟩ := h
  have haccepted := hs providerId p hp
  rw [dqaCmp_of_integers hscale haccepted.scale] at h
  obtain h | ⟨order, horder, h⟩ := h
  · exact nomatch h
  · cases horder
    split at h
    next => exact raise_ne_panic h
    next hle =>
      have hamount : amount.value ≤ p.stakeMicroOctoW.value :=
        not_lt.mp (mt threeWay_pos_iff.mpr hle)
      obtain ⟨_, hrest, -, -⟩ := sub_accepted haccepted hscale hpos.le hamount
      rw [hrest] at h
      exact nomatch h

theorem withdrawStake_ok (hs : Integral s) {providerId : String} {amount newStake : Dqa}
    {now : UInt64} {write : Except String Unit}
    (h : (l.withdrawStake s providerId amount now write).1 = .ok newStake) :
    ∃ p, Entered l s ⟨.withdrawStake providerId amount, now, write⟩ (.withdrawn newStake) p ∧
      Posted l s ⟨.withdrawStake providerId amount, now, write⟩ p
        (l.withdrawStake s providerId amount now write).2 := by
  unfold withdrawStake at h ⊢
  split at h
  next => exact nomatch h
  next prior rest hok =>
    obtain ⟨hpos, hle, hscale, hrest⟩ := withdrawal_ok hs hok
    cases write with
    | error message => exact nomatch h
    | ok _ =>
      cases h
      exact ⟨{ prior with stakeMicroOctoW := newStake },
        .changed prior _ (stake_of_withdrawal hok) rfl hscale hrest hpos hle,
        posted_setStake_upsertStake l s _ _⟩

/-- A call that is not refused has a product that fits and a count that has room. -/
def Fits (l : LossRules F) (s : SlashingLedger F) (call : SlashCall) : Prop :=
  match call.op with
  | .slashWithPct providerId _ pctMicro => ∀ p, s.stake providerId = some p →
      l.isBanned p.cumulativeLossPct = false →
        ProductFits p.stakeMicroOctoW pctMicro ∧
          (l.overflowChecks → p.offenseCount.toNat + 1 < 2 ^ 32)
  | _ => True

theorem checkBanned_eq_ok {providerId : String} {p : ProviderStake F} {u : Unit} :
    l.checkBanned providerId p = .ok u ↔ l.isBanned p.cumulativeLossPct = false := by
  unfold checkBanned
  split
  next h => exact iff_of_false (fun hok => nomatch hok) (Bool.not_eq_false _ ▸ h)
  next h => exact iff_of_true rfl (Bool.not_eq_true _ ▸ h)

/-- A penalty is refused, or its product does not fit, or it is a part of the stake. -/
theorem penalty_cases (hs : Integral s) (providerId : String) (pctMicro : PctMicro) :
    (∃ e, l.penalty s providerId pctMicro = .error (.err e) ∧
      ∀ p, s.stake providerId = some p → l.isBanned p.cumulativeLossPct = true) ∨
    ∃ prior, s.stake providerId = some prior ∧ l.isBanned prior.cumulativeLossPct = false ∧
      if ProductFits prior.stakeMicroOctoW pctMicro then
        ∃ amount newStake, l.penalty s providerId pctMicro = .ok (prior, amount, newStake) ∧
          0 ≤ amount.value ∧ amount.value ≤ prior.stakeMicroOctoW.value ∧ newStake.scale = 0 ∧
          newStake.value = prior.stakeMicroOctoW.value - amount.value
      else l.penalty s providerId pctMicro = .error .panic := by
  unfold penalty SlashingLedger.found
  cases hprior : s.stake providerId with
  | none => exact .inl ⟨_, rfl, fun p hp => nomatch hp⟩
  | some prior =>
    have haccepted := hs providerId prior hprior
    show (∃ e, (raise (l.checkBanned providerId prior) >>= fun _ => _) = _ ∧ _) ∨ _
    cases hbanned : l.isBanned prior.cumulativeLossPct with
    | true =>
      have hcheck : l.checkBanned providerId prior =
          .error (.bannedProvider providerId (l.micro prior.cumulativeLossPct)) := if_pos hbanned
      refine .inl ⟨_, by rw [hcheck]; rfl, fun p hp => ?_⟩
      rw [← Option.some.inj hp, hbanned]
    | false =>
      refine .inr ⟨prior, rfl, hbanned, ?_⟩
      show if _ then ∃ amount newStake, (raise (l.checkBanned providerId prior) >>= fun _ => _) = _ ∧ _
        else (raise (l.checkBanned providerId prior) >>= fun _ => _) = _
      rw [(checkBanned_eq_ok (u := ())).mpr hbanned]
      show if _ then ∃ amount newStake, (penaltyAmount _ _ >>= fun _ => _) = _ ∧ _
        else (penaltyAmount _ _ >>= fun _ => _) = _
      split
      next hfits =>
        obtain ⟨amount, hamount, hscale, hpos, hle⟩ := penaltyAmount_of_fits haccepted hfits
        obtain ⟨newStake, hrest, hnewScale, hnew⟩ := sub_accepted haccepted hscale hpos hle
        refine ⟨amount, newStake, ?_, hpos, hle, hnewScale, hnew⟩
        rw [hamount]
        show (expect (dqaSub prior.stakeMicroOctoW amount) >>= fun _ => _) = _
        rw [hrest]
        rfl
      next hfits =>
        rw [penaltyAmount_of_not_fits haccepted hfits]
        rfl

theorem penalty_ok (hs : Integral s) {providerId : String} {pctMicro : PctMicro}
    {prior : ProviderStake F} {amount newStake : Dqa}
    (h : l.penalty s providerId pctMicro = .ok (prior, amount, newStake)) :
    0 ≤ amount.value ∧ amount.value ≤ prior.stakeMicroOctoW.value ∧ newStake.scale = 0 ∧
      newStake.value = prior.stakeMicroOctoW.value - amount.value := by
  obtain ⟨_, herr, -⟩ | ⟨_, -, -, hpart⟩ := penalty_cases (l := l) hs providerId pctMicro
  · exact nomatch herr.symm.trans h
  · split at hpart
    next =>
      obtain ⟨_, _, hok, hrest⟩ := hpart
      cases hok.symm.trans h
      exact hrest
    next => exact nomatch hpart.symm.trans h

theorem applyPenalty_ok (hs : Integral s) {providerId : String} {reason : SlashReason}
    {pctMicro : PctMicro} {now : UInt64} {write : Except String Unit} {outcome : SlashOutcome F}
    (h : (l.applyPenalty s providerId reason pctMicro now write).1 = .ok outcome) :
    ∃ p, Entered l s ⟨.slashWithPct providerId reason pctMicro, now, write⟩ (.slashed outcome) p ∧
      Posted l s ⟨.slashWithPct providerId reason pctMicro, now, write⟩ p
        (l.applyPenalty s providerId reason pctMicro now write).2 := by
  unfold applyPenalty at h ⊢
  split at h
  next => exact nomatch h
  next prior amount newStake hok =>
    obtain ⟨hpos, hle, hscale, hrest⟩ := penalty_ok hs hok
    dsimp only at h ⊢
    split at h
    next => exact nomatch h
    next hcount =>
      rw [if_neg hcount]
      cases write with
      | error message => exact nomatch h
      | ok _ =>
        cases h
        exact ⟨l.penalized prior amount newStake,
          .changed prior _ (stake_of_penalty hok) rfl hscale hrest hpos hle,
          posted_setStake_upsertStake l s _ _⟩

theorem register_ne_panic (providerId : String) (initialStake : Dqa) (now : UInt64)
    (write : Except String Unit) :
    (l.register s providerId initialStake now write).1 ≠ .error .panic := by
  unfold register
  split
  next => exact fun h => nomatch h
  next =>
    cases write with
    | error message => exact fun h => nomatch h
    | ok _ => exact fun h => nomatch h

theorem withdrawStake_ne_panic (hs : Integral s) (providerId : String) (amount : Dqa) (now : UInt64)
    (write : Except String Unit) :
    (l.withdrawStake s providerId amount now write).1 ≠ .error .panic := by
  unfold withdrawStake
  split
  next stop hstop =>
    intro h
    exact withdrawal_ne_panic hs providerId amount (hstop.trans (congrArg _ (Except.error.inj h)))
  next =>
    cases write with
    | error message => exact fun h => nomatch h
    | ok _ => exact fun h => nomatch h

theorem applyPenalty_eq_panic_iff (hs : Integral s) {providerId : String} {reason : SlashReason}
    {pctMicro : PctMicro} {now : UInt64} {write : Except String Unit} :
    (l.applyPenalty s providerId reason pctMicro now write).1 = .error .panic ↔
      ¬ Fits l s ⟨.slashWithPct providerId reason pctMicro, now, write⟩ := by
  show _ ↔ ¬ ∀ p, s.stake providerId = some p → l.isBanned p.cumulativeLossPct = false →
    ProductFits p.stakeMicroOctoW pctMicro ∧ (l.overflowChecks → p.offenseCount.toNat + 1 < 2 ^ 32)
  unfold applyPenalty
  obtain ⟨e, herr, hbanned⟩ | ⟨prior, hprior, hbanned, hpart⟩ :=
    penalty_cases (l := l) hs providerId pctMicro
  · rw [herr]
    refine iff_of_false (fun h => nomatch h) (not_not.mpr fun p hp hnot => ?_)
    exact absurd ((hbanned p hp).symm.trans hnot) Bool.noConfusion
  · have honly : (∀ p, s.stake providerId = some p → l.isBanned p.cumulativeLossPct = false →
        ProductFits p.stakeMicroOctoW pctMicro ∧
          (l.overflowChecks → p.offenseCount.toNat + 1 < 2 ^ 32)) ↔
        ProductFits prior.stakeMicroOctoW pctMicro ∧
          (l.overflowChecks → prior.offenseCount.toNat + 1 < 2 ^ 32) := by
      refine ⟨fun h => h prior hprior hbanned, fun h p hp _ => ?_⟩
      rwa [← Option.some.inj (hprior.symm.trans hp)]
    rw [honly]
    split at hpart
    next hfits =>
      obtain ⟨amount, newStake, hok, -⟩ := hpart
      rw [hok]
      dsimp only
      have hcount := prior.offenseCount.toNat_lt
      split
      next hfull =>
        refine iff_of_true rfl fun h => ?_
        have hroom := h.2 hfull.1
        omega
      next hfull =>
        refine iff_of_false ?_ (not_not.mpr ⟨hfits, fun hchecks => ?_⟩)
        · cases write with
          | error message => exact fun h => nomatch h
          | ok _ => exact fun h => nomatch h
        · have hne : prior.offenseCount.toNat + 1 ≠ 2 ^ 32 := fun heq => hfull ⟨hchecks, heq⟩
          omega
    next hfits =>
      rw [hpart]
      exact iff_of_true rfl fun h => hfits h.1

/-- **A call that returns posts one entry.** -/
theorem step_ok (hs : Integral s) {call : SlashCall} {reply : SlashReply F}
    (h : (l.step s call).1 = .ok reply) :
    ∃ p, Entered l s call reply p ∧ Posted l s call p (l.step s call).2 := by
  obtain ⟨op, now, write⟩ := call
  cases op with
  | register providerId initialStake =>
    obtain ⟨p, hp, rfl⟩ := run_map_eq_ok.mp h
    exact ⟨p, register_ok hs hp⟩
  | withdrawStake providerId amount =>
    obtain ⟨newStake, hnew, rfl⟩ := run_map_eq_ok.mp h
    exact withdrawStake_ok hs hnew
  | slashWithPct providerId reason pctMicro =>
    obtain ⟨outcome, houtcome, rfl⟩ := run_map_eq_ok.mp h
    exact applyPenalty_ok hs houtcome

/-- **A call panics exactly where it does not fit.** -/
theorem step_eq_panic_iff (hs : Integral s) (call : SlashCall) :
    (l.step s call).1 = .error .panic ↔ ¬ Fits l s call := by
  obtain ⟨op, now, write⟩ := call
  cases op with
  | register providerId initialStake =>
    refine iff_of_false (fun h => ?_) (not_not.mpr trivial)
    exact register_ne_panic providerId initialStake now write (run_map_eq_error.mp h)
  | withdrawStake providerId amount =>
    refine iff_of_false (fun h => ?_) (not_not.mpr trivial)
    exact withdrawStake_ne_panic hs providerId amount now write (run_map_eq_error.mp h)
  | slashWithPct providerId reason pctMicro =>
    exact run_map_eq_error.trans (applyPenalty_eq_panic_iff hs)

/-! ## The books -/

/-- The calls for a provider. -/
def ofProvider (es : List (SlashEntry F)) (providerId : String) : List (SlashEntry F) :=
  es.filter fun e => e.1.op.providerId = providerId

/-- The stake that an answered call registered. -/
def registration (e : SlashEntry F) : Option Dqa :=
  match e.1.op, e.2 with
  | .register _ initialStake, .ok _ => some initialStake
  | _, _ => none

/-- The initial stake of a provider: that of the first call that registered it. -/
def registered (es : List (SlashEntry F)) (providerId : String) : Option Dqa :=
  (ofProvider es providerId).findSome? registration

/-- What withdrawals and slashes have taken from a provider. -/
def deducted (es : List (SlashEntry F)) (providerId : String) : Int :=
  ((ofProvider es providerId).map taken).sum

/-- Some call has returned for the provider. -/
def Answered (es : List (SlashEntry F)) (providerId : String) : Prop :=
  ∃ e ∈ ofProvider es providerId, ∃ reply, e.2 = .ok reply

/-- An entry between zero and its initial stake, which it falls short of by what was taken. -/
structure Balanced (p : ProviderStake F) (initialStake : Option Dqa) (taken : Int) : Prop where
  initial : initialStake = some p.initialStakeMicroOctoW
  initialAccepted : Accepted p.initialStakeMicroOctoW
  accepted : Accepted p.stakeMicroOctoW
  le : p.stakeMicroOctoW.value ≤ p.initialStakeMicroOctoW.value
  balance : p.stakeMicroOctoW.value = p.initialStakeMicroOctoW.value - taken

/-- A row with the stake and the count of an entry. -/
structure Carries (row : SlashLedgerRow) (p : ProviderStake F) : Prop where
  stake : row.stakeMicroOctoW = p.stakeMicroOctoW
  offenses : row.offenseCount = p.offenseCount

/-- The books, of the answers so far and the state. -/
structure Sound (es : List (SlashEntry F)) (s : SlashingLedger F) : Prop where
  /-- No call has panicked. -/
  quiet : ∀ e ∈ es, e.2 ≠ .error .panic
  /-- Entries come from calls that returned. -/
  answered : ∀ id p, s.stake id = some p → Answered es id
  balanced : ∀ id p, s.stake id = some p → Balanced p (registered es id) (deducted es id)
  /-- Once a call has returned, the row carries what is in memory. -/
  stored : ∀ id, Answered es id → ∃ p row, s.stake id = some p ∧ s.row id = some row ∧ Carries row p

theorem Sound.integral {es : List (SlashEntry F)} (h : Sound es s) : Integral s :=
  fun id p hp => (h.balanced id p hp).accepted

section History

variable {es : List (SlashEntry F)} {e : SlashEntry F} {id : String}

theorem ofProvider_concat_of_eq (h : e.1.op.providerId = id) :
    ofProvider (es ++ [e]) id = ofProvider es id ++ [e] := by
  rw [ofProvider, List.filter_append, List.filter_singleton, decide_eq_true h]
  rfl

theorem ofProvider_concat_of_ne (h : e.1.op.providerId ≠ id) :
    ofProvider (es ++ [e]) id = ofProvider es id := by
  rw [ofProvider, List.filter_append, List.filter_singleton, decide_eq_false h]
  exact List.append_nil _

theorem registered_concat_of_eq (h : e.1.op.providerId = id) :
    registered (es ++ [e]) id = (registered es id).or (registration e) := by
  rw [registered, ofProvider_concat_of_eq h, List.findSome?_append]
  cases hreg : registration e <;> simp [registered, hreg]

theorem deducted_concat_of_eq (h : e.1.op.providerId = id) :
    deducted (es ++ [e]) id = deducted es id + taken e := by
  rw [deducted, ofProvider_concat_of_eq h, List.map_append, List.sum_append, List.map_singleton,
    List.sum_singleton, deducted]

theorem answered_concat_of_eq (h : e.1.op.providerId = id) :
    Answered (es ++ [e]) id ↔ Answered es id ∨ ∃ reply, e.2 = .ok reply := by
  unfold Answered
  rw [ofProvider_concat_of_eq h]
  simp only [List.mem_append, List.mem_singleton, or_and_right, exists_or, exists_eq_left]

theorem taken_of_not_ok (h : ∀ reply, e.2 ≠ .ok reply) : taken e = 0 := by
  obtain ⟨⟨op, now, write⟩, answer⟩ := e
  cases answer with
  | error stop => cases op <;> rfl
  | ok reply => exact absurd rfl (h reply)

theorem registration_of_not_ok (h : ∀ reply, e.2 ≠ .ok reply) : registration e = none := by
  obtain ⟨⟨op, now, write⟩, answer⟩ := e
  cases answer with
  | error stop => cases op <;> rfl
  | ok reply => exact absurd rfl (h reply)

/-- A provider without an answer has no history. -/
theorem history_of_not_answered (h : ¬ Answered es id) :
    registered es id = none ∧ deducted es id = 0 := by
  have hno : ∀ e ∈ ofProvider es id, ∀ reply, e.2 ≠ .ok reply :=
    fun e he reply hok => h ⟨e, he, reply, hok⟩
  constructor
  · exact List.findSome?_eq_none_iff.mpr fun e he => registration_of_not_ok (hno e he)
  · refine List.sum_eq_zero fun x hx => ?_
    obtain ⟨e, he, rfl⟩ := List.mem_map.mp hx
    exact taken_of_not_ok (hno e he)

/-- A call without an answer leaves no trace in the books. -/
theorem history_of_not_ok (h : ∀ reply, e.2 ≠ .ok reply) :
    registered (es ++ [e]) id = registered es id ∧ deducted (es ++ [e]) id = deducted es id ∧
      (Answered (es ++ [e]) id ↔ Answered es id) := by
  by_cases hid : e.1.op.providerId = id
  · rw [registered_concat_of_eq hid, deducted_concat_of_eq hid, answered_concat_of_eq hid,
      registration_of_not_ok h, taken_of_not_ok h, Option.or_none, add_zero]
    exact ⟨rfl, rfl, or_iff_left fun ⟨reply, hok⟩ => h reply hok⟩
  · unfold registered deducted Answered
    rw [ofProvider_concat_of_ne hid]
    exact ⟨rfl, rfl, Iff.rfl⟩

end History

variable {es : List (SlashEntry F)}

theorem sound_of_err (hs : Sound es s) {call : SlashCall} {e : SlashError}
    (h : (l.step s call).1 = .error (.err e)) :
    Sound (es ++ [(call, (l.step s call).1)]) (l.step s call).2 := by
  obtain ⟨hstake, hrow⟩ := step_err h
  have hhistory : ∀ id,
      registered (es ++ [(call, (l.step s call).1)]) id = registered es id ∧
      deducted (es ++ [(call, (l.step s call).1)]) id = deducted es id ∧
      (Answered (es ++ [(call, (l.step s call).1)]) id ↔ Answered es id) :=
    fun id => history_of_not_ok fun reply hok => nomatch h.symm.trans hok
  refine ⟨fun e' he' => ?_, fun id p hp => ?_, fun id p hp => ?_, fun id hanswered => ?_⟩
  · rcases List.mem_append.mp he' with hold | hnew
    · exact hs.quiet e' hold
    · rw [List.mem_singleton.mp hnew, h]
      exact fun heq => nomatch heq
  · rw [hstake] at hp
    exact (hhistory id).2.2.mpr (hs.answered id p hp)
  · rw [hstake] at hp
    rw [(hhistory id).1, (hhistory id).2.1]
    exact hs.balanced id p hp
  · rw [hstake, hrow]
    exact hs.stored id ((hhistory id).2.2.mp hanswered)

/-- The entry of an answered call is balanced against the history with the call. -/
theorem balanced_of_entered (hs : Sound es s) {call : SlashCall} {reply : SlashReply F}
    {p : ProviderStake F} (h : Entered l s call reply p) :
    Balanced p (registered (es ++ [(call, .ok reply)]) call.op.providerId)
      (deducted (es ++ [(call, .ok reply)]) call.op.providerId) := by
  rw [registered_concat_of_eq rfl, deducted_concat_of_eq rfl]
  show Balanced p ((registered es call.op.providerId).or (registration (call, .ok reply)))
    (deducted es call.op.providerId + taken (call, .ok reply))
  cases h with
  | created initialStake hop hreply hnew haccepted =>
    have hunanswered : ¬ Answered es call.op.providerId := by
      intro hanswered
      obtain ⟨q, _, hq, -⟩ := hs.stored _ hanswered
      exact nomatch hnew.symm.trans hq
    obtain ⟨hregistered, hdeducted⟩ := history_of_not_answered hunanswered
    have htaken : taken (call, .ok reply) = 0 := by
      unfold taken
      rw [hop, hreply]
    have hregistration : registration (call, .ok reply) = some initialStake := by
      unfold registration
      rw [hop]
    rw [hregistered, hdeducted, htaken, hregistration]
    exact ⟨rfl, haccepted, haccepted, le_rfl, (Int.sub_zero _).symm⟩
  | changed prior p hprior hinitial hscale hstake hpos hle =>
    have hbalanced := hs.balanced _ _ hprior
    have hbalance := hbalanced.balance
    have hbelow := hbalanced.le
    refine ⟨?_, hinitial ▸ hbalanced.initialAccepted, ⟨hscale, by omega⟩, ?_, ?_⟩
    · rw [hbalanced.initial, hinitial]
      rfl
    · rw [hinitial]
      omega
    · rw [hinitial]
      omega

theorem sound_of_ok (hs : Sound es s) {call : SlashCall} {reply : SlashReply F}
    (h : (l.step s call).1 = .ok reply) :
    Sound (es ++ [(call, (l.step s call).1)]) (l.step s call).2 := by
  obtain ⟨p, hentered, hstake, hrow⟩ := step_ok hs.integral h
  have hbalanced := balanced_of_entered hs hentered
  rw [h]
  have hother : ∀ id, call.op.providerId ≠ id →
      ofProvider (es ++ [(call, .ok reply)]) id = ofProvider es id :=
    fun id hid => ofProvider_concat_of_ne hid
  have hanswer : Answered (es ++ [(call, .ok reply)]) call.op.providerId :=
    (answered_concat_of_eq rfl).mpr (.inr ⟨reply, rfl⟩)
  refine ⟨fun e he => ?_, fun id q hq => ?_, fun id q hq => ?_, fun id hanswered => ?_⟩
  · rcases List.mem_append.mp he with hold | hnew
    · exact hs.quiet e hold
    · rw [List.mem_singleton.mp hnew]
      exact fun heq => nomatch heq
  · by_cases hid : call.op.providerId = id
    · exact hid ▸ hanswer
    · rw [hstake, if_neg (Ne.symm hid)] at hq
      unfold Answered
      rw [hother id hid]
      exact hs.answered id q hq
  · by_cases hid : call.op.providerId = id
    · rw [hstake, if_pos hid.symm] at hq
      cases hq
      exact hid ▸ hbalanced
    · rw [hstake, if_neg (Ne.symm hid)] at hq
      unfold registered deducted
      rw [hother id hid]
      exact hs.balanced id q hq
  · by_cases hid : call.op.providerId = id
    · rw [hstake, hrow, if_pos hid.symm, if_pos hid.symm]
      exact ⟨p, _, rfl, rfl, rfl, rfl⟩
    · unfold Answered at hanswered
      rw [hother id hid] at hanswered
      rw [hstake, hrow, if_neg (Ne.symm hid), if_neg (Ne.symm hid)]
      exact hs.stored id hanswered

/-- **One call**: it keeps the books iff it fits. -/
theorem sound_step_iff (hs : Sound es s) (call : SlashCall) :
    Sound (es ++ [(call, (l.step s call).1)]) (l.step s call).2 ↔ Fits l s call := by
  have hpanic := step_eq_panic_iff (l := l) hs.integral call
  rcases hanswer : (l.step s call).1 with (e | _) | reply
  · rw [← hanswer]
    refine iff_of_true (sound_of_err hs hanswer) (not_not.mp fun hno => ?_)
    exact nomatch hanswer.symm.trans (hpanic.mpr hno)
  · refine iff_of_false (fun hsound => ?_) (hpanic.mp hanswer)
    exact hsound.quiet _ (List.mem_append_right _ (List.mem_singleton_self _)) rfl
  · rw [← hanswer]
    refine iff_of_true (sound_of_ok hs hanswer) (not_not.mp fun hno => ?_)
    exact nomatch hanswer.symm.trans (hpanic.mpr hno)

theorem sound_empty : Sound [] (⟨∅, ∅⟩ : SlashingLedger F) where
  quiet _ he := absurd he List.not_mem_nil
  answered _ _ hp := nomatch hp
  balanced _ _ hp := nomatch hp
  stored _ hanswered := by
    obtain ⟨_, he, -⟩ := hanswered
    exact absurd he List.not_mem_nil

/-- **The slashing ledger.** A call that returns an error leaves memory and store as they were,
in every run; and the books are kept in every state of a run, without a panic, iff no call of it
slashes a provider whose product does not fit or whose count is full. -/
theorem slashing_ledger_keeps_books_iff (l : LossRules F) (calls : List SlashCall) :
    Along l.step (fun s call => ∀ e, (l.step s call).1 = .error (.err e) →
      Unchanged s (l.step s call).2) ⟨∅, ∅⟩ calls ∧
    ((∀ run, run <+: calls → Sound (trace l.step ⟨∅, ∅⟩ run) (final l.step ⟨∅, ∅⟩ run)) ↔
      Along l.step (Fits l) ⟨∅, ∅⟩ calls) := by
  constructor
  · exact along_of_forall (fun s call e h => step_err h) _ calls
  · exact forall_prefix_iff_along Sound (fun es s call hs => sound_step_iff hs call) sound_empty calls

end LossRules

/-- The default ban at half of the stake, with fractions for the `f64`. -/
def defaultRules : LossRules ℚ where
  zero := 0
  add := (· + ·)
  ratio amount initial := amount / initial
  isBanned loss := decide (1 / 2 ≤ loss)
  micro loss := UInt64.ofNat (round (loss * 1000000)).toNat
  overflowChecks := false

/-- Ten million OCTO-W. -/
def tenTrillion : Dqa := Dqa.ofInt 10000000000000 (by decide)

/-- Alice registers, and is slashed by all of her stake. -/
def aliceCalls : List SlashCall :=
  [⟨.register "alice" tenTrillion, 1000, .ok ()⟩,
    ⟨.slashWithPct "alice" ⟨Vector.replicate 16 0, []⟩ ⟨1000000, le_rfl⟩, 2000, .ok ()⟩]

/-- The stake is accepted, and the product of the penalty is more than an `i64`. -/
theorem slash_product_panics :
    requireNonNegativeInteger tenTrillion "initial_stake_micro_octo_w" = .ok () ∧
    ¬ ∀ e ∈ trace defaultRules.step ⟨∅, ∅⟩ aliceCalls, e.2 ≠ .error .panic := by
  refine ⟨rfl, fun h => ?_⟩
  have hpanic : ((trace defaultRules.step ⟨∅, ∅⟩ aliceCalls)[1]?).map Prod.snd =
      some (.error .panic) := by decide +kernel
  obtain ⟨e, he, heq⟩ := Option.map_eq_some_iff.mp hpanic
  exact h e (List.mem_of_getElem? he) heq

end CipherOcto.Router
