import CipherOcto.Lib.Attempt
import CipherOcto.Lib.Trace
import CipherOcto.Router.Keys

/-!
# The spend ledger

Two calls write rows. `record_spend_ledger` checks the budget of the key and writes the
team of the event without looking at the budget of the team; `record_spend_ledger_with_team`
checks both. Each is one transaction: it reads the budgets and the sums of the rows, adds
the cost in `i64` and compares, and inserts a row unless one with the same unique columns
is there.

The engine is a parameter: which columns are unique, and what `SUM` gives when the sum is
not an `i64`. So are the hashes, the parser of ids and whether the build checks overflows.

> `ovf_attemptRecord`, `ovf_attemptRecordWithTeam`: what a call does when it adds.
> `withinBudgets_insert_iff`: what a row must fit into.
> `step_iff_fits`: a call keeps to the budgets and the range iff it `Fits`.
-/

namespace CipherOcto.Router

open Encoding Machine Trace

/-! ## The code -/

/-- A row of `spend_ledger`. -/
structure LedgerRow where
  eventId : Bytes32
  requestId : Bytes32
  keyId : Uuid
  teamId : Option Uuid
  provider : String
  model : String
  inputTokens : UInt32
  outputTokens : UInt32
  costAmount : Amount
  pricingHash : Bytes32
  tokenSource : String
  tokenizerId : Option (Vector UInt8 16)
  tokenizerVersion : Option String
  providerUsageJson : Option String
  timestamp : Int64
  createdAt : Int64

/-- What the calls rely on. -/
structure Backend (κ : Type) where
  /-- The unique columns, of an event id, a request id and a key id. -/
  unique : Bytes32 → Bytes32 → Uuid → κ
  /-- `SUM` of a column, where it is not an `i64`. -/
  sumOutside : Nat → Except KeyError Int
  sha256 : List UInt8 → Bytes32
  tokenizerVersionToId : String → Vector UInt8 16
  parseUuid : String → Option Uuid
  overflowChecks : Bool

/-- The tables. The budgets are those of `api_keys` and `teams`. -/
structure Ledger where
  keyBudget : Uuid → Option Amount
  teamBudget : Uuid → Option Amount
  rows : List LedgerRow

namespace Ledger

/-- The cost of the rows of a key. -/
def keySpend (s : Ledger) (keyId : Uuid) : Nat :=
  ((s.rows.filter fun row => row.keyId = keyId).map fun row => row.costAmount.1).sum

/-- The cost of the rows that carry a team. -/
def teamSpend (s : Ledger) (teamId : Uuid) : Nat :=
  ((s.rows.filter fun row => row.teamId = some teamId).map fun row => row.costAmount.1).sum

end Ledger

namespace Backend

variable {κ : Type} (b : Backend κ)

/-- `COALESCE(SUM(cost_amount), 0)`. -/
def sum (total : Nat) : Except KeyError Int :=
  if total < 2 ^ 63 then .ok total else b.sumOutside total

/-- `current + cost_i64 > budget`. -/
def checkBudget (current : Int) (cost budget : Amount) (exceeded : Nat → Nat → KeyError) :
    Attempt KeyError Unit :=
  let total := addI 64 current cost.1
  ExceptT.mk ⟨
    if b.overflowChecks ∧ total.ovf then .error .panic
    else if budget.1 < total.val then .error (.err (exceeded (Bytes.unsigned 64 current) budget.1))
    else .ok (), total.ovf⟩

/-- The guard on the token source. -/
def checkTokenSource (event : SpendEvent) : Except KeyError Unit :=
  if event.tokenSource.toDbStr ≠ "provider_usage" ∧
      event.tokenSource.toDbStr ≠ "canonical_tokenizer" then .error .invalidFormat
  else .ok ()

/-- A row of `api_keys` or `teams`. -/
def found (budget : Option Amount) : Except KeyError Amount := budget.elim (.error .notFound) .ok

/-- An id in text. -/
def parseId (text : String) : Except KeyError Uuid :=
  (b.parseUuid text).elim (.error .invalidFormat) .ok

/-- The row of an event, for a key and a team. -/
def row (event : SpendEvent) (keyId : Uuid) (teamId : Option Uuid) (cost : Amount) (now : Int64)
    (eventId : Bytes32) : LedgerRow where
  eventId := eventId
  requestId := encodeRequestId b.sha256 event.requestId
  keyId := keyId
  teamId := teamId
  provider := event.provider
  model := event.model
  inputTokens := event.inputTokens
  outputTokens := event.outputTokens
  costAmount := cost
  pricingHash := event.pricingHash
  tokenSource := event.tokenSource.toDbStr
  tokenizerId := event.tokenizerVersion.map b.tokenizerVersionToId
  tokenizerVersion := event.tokenizerVersion
  providerUsageJson := event.providerUsageJson
  timestamp := event.timestamp
  createdAt := now

/-- The parameters of the insert; an event id that is not hex panics. -/
def buildRow (event : SpendEvent) (keyId : Uuid) (teamId : Option Uuid) (cost : Amount)
    (now : Int64) : Attempt KeyError LedgerRow :=
  Attempt.lift ((hexToBlob32 event.eventId).elim (.error .panic) fun eventId =>
    .ok (b.row event keyId teamId cost now eventId))

/-- `record_spend_ledger`, up to the insert. -/
def attemptRecord (s : Ledger) (event : SpendEvent) (now : Int64) : Attempt KeyError LedgerRow := do
  Attempt.raise (checkTokenSource event)
  let budget ← Attempt.raise (found (s.keyBudget event.keyId))
  let current ← Attempt.raise (b.sum (s.keySpend event.keyId))
  let cost ← Attempt.raise ((costU64ToI64 event.costAmount).mapError .spendEvent)
  b.checkBudget current cost budget .budgetExceeded
  b.buildRow event event.keyId event.teamId cost now

/-- `record_spend_ledger_with_team`, up to the insert. -/
def attemptRecordWithTeam (s : Ledger) (keyId teamId : String) (event : SpendEvent) (now : Int64) :
    Attempt KeyError LedgerRow := do
  Attempt.raise (checkTokenSource event)
  let key ← Attempt.raise (b.parseId keyId)
  let team ← Attempt.raise (b.parseId teamId)
  let teamBudget ← Attempt.raise (found (s.teamBudget team))
  let keyBudget ← Attempt.raise (found (s.keyBudget key))
  let keyCurrent ← Attempt.raise (b.sum (s.keySpend key))
  let teamCurrent ← Attempt.raise (b.sum (s.teamSpend team))
  let cost ← Attempt.raise ((costU64ToI64 event.costAmount).mapError .spendEvent)
  b.checkBudget keyCurrent cost keyBudget .budgetExceeded
  b.checkBudget teamCurrent cost teamBudget .teamBudgetExceeded
  b.buildRow event key (some team) cost now

variable [DecidableEq κ]

/-- No row has the same unique columns. -/
def fresh (s : Ledger) (eventId requestId : Bytes32) (keyId : Uuid) : Bool :=
  s.rows.all fun row =>
    b.unique row.eventId row.requestId row.keyId ≠ b.unique eventId requestId keyId

/-- The insert. A violation of the unique constraint is taken for success. -/
def insert (s : Ledger) (row : LedgerRow) : Ledger :=
  if b.fresh s row.eventId row.requestId row.keyId then { s with rows := s.rows ++ [row] } else s

/-- The end of the transaction: without a row it is rolled back. -/
def commit (s : Ledger) (attempt : Attempt KeyError LedgerRow) :
    Tracked (Run KeyError Unit) × Ledger :=
  match attempt.val with
  | .ok row => (⟨.ok (), attempt.ovf⟩, b.insert s row)
  | .error stop => (⟨.error stop, attempt.ovf⟩, s)

/-- `record_spend_ledger`, at a time. -/
def recordSpendLedger (s : Ledger) (call : SpendEvent × Int64) :
    Tracked (Run KeyError Unit) × Ledger :=
  b.commit s (b.attemptRecord s call.1 call.2)

inductive Op where
  | recordSpendLedger (event : SpendEvent) (now : Int64)
  | recordSpendLedgerWithTeam (keyId teamId : String) (event : SpendEvent) (now : Int64)

/-- One call. The answer is how it ends and whether a comparison overflowed. -/
def step (s : Ledger) : Op → Tracked (Run KeyError Unit) × Ledger
  | .recordSpendLedger event now => b.recordSpendLedger s (event, now)
  | .recordSpendLedgerWithTeam keyId teamId event now =>
    b.commit s (b.attemptRecordWithTeam s keyId teamId event now)

/-! ## What a call adds and inserts -/

section Attempts

omit [DecidableEq κ]

variable {b}

theorem checkTokenSource_eq_ok (event : SpendEvent) : checkTokenSource event = .ok () := by
  unfold checkTokenSource
  cases event.tokenSource <;> rfl

theorem found_eq_ok {budget : Option Amount} {a : Amount} :
    found budget = .ok a ↔ budget = some a := elim_error_eq_ok

theorem parseId_eq_ok {text : String} {id : Uuid} :
    b.parseId text = .ok id ↔ b.parseUuid text = some id := elim_error_eq_ok

theorem cost_eq_ok {event : SpendEvent} {cost : Amount} :
    (costU64ToI64 event.costAmount).mapError KeyError.spendEvent = .ok cost ↔
      event.costAmount.toNat = cost.1 := by
  unfold costU64ToI64
  split
  next h =>
    constructor
    · intro hok
      cases hok
      rfl
    · intro heq
      exact congrArg Except.ok (Subtype.ext heq)
  next h => exact iff_of_false (fun hok => nomatch hok) fun heq => h (heq ▸ cost.2)

theorem sum_of_lt {total : Nat} (h : total < 2 ^ 63) : b.sum total = .ok (total : Int) := if_pos h

/-- Adding to a sum in range overflows where the result is out of it. -/
theorem ovf_addI {current : Nat} (hcurrent : current < 2 ^ 63) (cost : Amount) :
    (addI 64 current cost.1).ovf = false ↔ current + cost.1 < 2 ^ 63 := by
  have hcost := cost.2
  rw [addI, decide_eq_false_iff_not, not_not, InI, minI, maxI]
  norm_num
  omega

theorem ovf_checkBudget {current : Nat} (hcurrent : current < 2 ^ 63) (cost budget : Amount)
    (exceeded : Nat → Nat → KeyError) :
    (b.checkBudget current cost budget exceeded).ovf = false ↔ current + cost.1 < 2 ^ 63 :=
  ovf_addI hcurrent cost

theorem val_checkBudget {current : Nat} {cost : Amount} (h : current + cost.1 < 2 ^ 63)
    (budget : Amount) (exceeded : Nat → Nat → KeyError) :
    (b.checkBudget current cost budget exceeded).val = .ok () ↔ current + cost.1 ≤ budget.1 := by
  have hovf : (addI 64 current cost.1).ovf = false := (ovf_addI (by omega) cost).mpr h
  have hval : (addI 64 current cost.1).val = ((current + cost.1 : Nat) : Int) := by
    rw [addI_of_inI (of_not_not (of_decide_eq_false hovf)), Tracked.val_pure, Nat.cast_add]
  show (if b.overflowChecks ∧ (addI 64 current cost.1).ovf then _
    else if (budget.1 : Int) < (addI 64 current cost.1).val then _ else _ : Run KeyError Unit) = _ ↔ _
  rw [hovf, hval, if_neg (by simp)]
  split
  next hlt => exact iff_of_false (fun hok => nomatch hok) (by omega)
  next hle => exact iff_of_true rfl (by omega)

theorem val_buildRow_eq_ok {event : SpendEvent} {keyId : Uuid} {teamId : Option Uuid} {cost : Amount}
    {now : Int64} {row : LedgerRow} :
    (b.buildRow event keyId teamId cost now).val = .ok row ↔
      ∃ eventId, hexToBlob32 event.eventId = some eventId ∧
        row = b.row event keyId teamId cost now eventId := by
  rw [buildRow, Attempt.val_lift]
  cases hexToBlob32 event.eventId with
  | none => exact iff_of_false (fun h => nomatch h) fun ⟨_, h, _⟩ => nomatch h
  | some eventId =>
    constructor
    · intro h
      exact ⟨eventId, rfl, (Except.ok.inj h).symm⟩
    · intro h
      obtain ⟨_, heq, rfl⟩ := h
      cases heq
      rfl

/-- `record_spend_ledger` has a row to insert. -/
theorem val_attemptRecord_eq_ok {s : Ledger} {event : SpendEvent} {now : Int64} {row : LedgerRow} :
    (b.attemptRecord s event now).val = .ok row ↔
      ∃ budget current cost eventId, s.keyBudget event.keyId = some budget ∧
        b.sum (s.keySpend event.keyId) = .ok current ∧ event.costAmount.toNat = cost.1 ∧
        (b.checkBudget current cost budget .budgetExceeded).val = .ok () ∧
        hexToBlob32 event.eventId = some eventId ∧
        row = b.row event event.keyId event.teamId cost now eventId := by
  simp only [attemptRecord, Attempt.val_bind_eq_ok, Attempt.val_raise_eq_ok, found_eq_ok, cost_eq_ok,
    checkTokenSource_eq_ok, val_buildRow_eq_ok]
  constructor
  · intro h
    obtain ⟨_, -, budget, hbudget, current, hsum, cost, hcost, _, hcheck, eventId, hhex, hrow⟩ := h
    exact ⟨budget, current, cost, eventId, hbudget, hsum, hcost, hcheck, hhex, hrow⟩
  · intro h
    obtain ⟨budget, current, cost, eventId, hbudget, hsum, hcost, hcheck, hhex, hrow⟩ := h
    exact ⟨(), trivial, budget, hbudget, current, hsum, cost, hcost, (), hcheck, eventId, hhex, hrow⟩

/-- `record_spend_ledger` compares without overflow. -/
theorem ovf_attemptRecord {s : Ledger} {event : SpendEvent} (now : Int64)
    (hspend : ∀ budget, s.keyBudget event.keyId = some budget → s.keySpend event.keyId < 2 ^ 63) :
    (b.attemptRecord s event now).ovf = false ↔
      ∀ budget (cost : Amount), s.keyBudget event.keyId = some budget →
        event.costAmount.toNat = cost.1 → s.keySpend event.keyId + cost.1 < 2 ^ 63 := by
  simp only [attemptRecord, Attempt.ovf_bind_eq_false, Attempt.val_raise_eq_ok, found_eq_ok, cost_eq_ok,
    checkTokenSource_eq_ok, Attempt.ovf_raise, true_and]
  constructor
  · intro h budget cost hbudget hcost
    have hlt := hspend budget hbudget
    exact (ovf_checkBudget hlt cost budget _).mp
      (h () trivial budget hbudget _ (sum_of_lt hlt) cost hcost).1
  · intro h _ _ budget hbudget current hcurrent cost hcost
    have hlt := hspend budget hbudget
    cases (sum_of_lt hlt).symm.trans hcurrent
    exact ⟨(ovf_checkBudget hlt cost budget _).mpr (h budget cost hbudget hcost), fun _ _ => rfl⟩

/-- `record_spend_ledger_with_team` has a row to insert. -/
theorem val_attemptRecordWithTeam_eq_ok {s : Ledger} {keyId teamId : String} {event : SpendEvent}
    {now : Int64} {row : LedgerRow} :
    (b.attemptRecordWithTeam s keyId teamId event now).val = .ok row ↔
      ∃ key team teamBudget keyBudget keyCurrent teamCurrent cost eventId,
        b.parseUuid keyId = some key ∧ b.parseUuid teamId = some team ∧
        s.teamBudget team = some teamBudget ∧ s.keyBudget key = some keyBudget ∧
        b.sum (s.keySpend key) = .ok keyCurrent ∧ b.sum (s.teamSpend team) = .ok teamCurrent ∧
        event.costAmount.toNat = cost.1 ∧
        (b.checkBudget keyCurrent cost keyBudget .budgetExceeded).val = .ok () ∧
        (b.checkBudget teamCurrent cost teamBudget .teamBudgetExceeded).val = .ok () ∧
        hexToBlob32 event.eventId = some eventId ∧ row = b.row event key (some team) cost now eventId := by
  simp only [attemptRecordWithTeam, Attempt.val_bind_eq_ok, Attempt.val_raise_eq_ok, found_eq_ok,
    cost_eq_ok, parseId_eq_ok, checkTokenSource_eq_ok, val_buildRow_eq_ok]
  constructor
  · intro h
    obtain ⟨_, -, key, hkey, team, hteam, teamBudget, hteamBudget, keyBudget, hkeyBudget, keyCurrent,
      hkeySum, teamCurrent, hteamSum, cost, hcost, _, hkeyCheck, _, hteamCheck, eventId, hhex, hrow⟩ := h
    exact ⟨key, team, teamBudget, keyBudget, keyCurrent, teamCurrent, cost, eventId, hkey, hteam,
      hteamBudget, hkeyBudget, hkeySum, hteamSum, hcost, hkeyCheck, hteamCheck, hhex, hrow⟩
  · intro h
    obtain ⟨key, team, teamBudget, keyBudget, keyCurrent, teamCurrent, cost, eventId, hkey, hteam,
      hteamBudget, hkeyBudget, hkeySum, hteamSum, hcost, hkeyCheck, hteamCheck, hhex, hrow⟩ := h
    exact ⟨(), trivial, key, hkey, team, hteam, teamBudget, hteamBudget, keyBudget, hkeyBudget,
      keyCurrent, hkeySum, teamCurrent, hteamSum, cost, hcost, (), hkeyCheck, (), hteamCheck, eventId,
      hhex, hrow⟩

/-- `record_spend_ledger_with_team` compares without overflow. -/
theorem ovf_attemptRecordWithTeam {s : Ledger} {keyId teamId : String} {event : SpendEvent}
    (now : Int64)
    (hkeySpend : ∀ key budget, s.keyBudget key = some budget → s.keySpend key < 2 ^ 63)
    (hteamSpend : ∀ team budget, s.teamBudget team = some budget → s.teamSpend team < 2 ^ 63) :
    (b.attemptRecordWithTeam s keyId teamId event now).ovf = false ↔
      ∀ key team teamBudget keyBudget (cost : Amount),
        b.parseUuid keyId = some key → b.parseUuid teamId = some team →
        s.teamBudget team = some teamBudget → s.keyBudget key = some keyBudget →
        event.costAmount.toNat = cost.1 →
        s.keySpend key + cost.1 < 2 ^ 63 ∧
          (s.keySpend key + cost.1 ≤ keyBudget.1 → s.teamSpend team + cost.1 < 2 ^ 63) := by
  simp only [attemptRecordWithTeam, Attempt.ovf_bind_eq_false, Attempt.val_raise_eq_ok, found_eq_ok,
    cost_eq_ok, parseId_eq_ok, checkTokenSource_eq_ok, Attempt.ovf_raise, true_and]
  constructor
  · intro h key team teamBudget keyBudget cost hkey hteam hteamBudget hkeyBudget hcost
    have hkeyLt := hkeySpend key keyBudget hkeyBudget
    have hteamLt := hteamSpend team teamBudget hteamBudget
    obtain ⟨hkeyCheck, hrest⟩ := h () trivial key hkey team hteam teamBudget hteamBudget keyBudget
      hkeyBudget _ (sum_of_lt hkeyLt) _ (sum_of_lt hteamLt) cost hcost
    have hfits := (ovf_checkBudget hkeyLt cost keyBudget _).mp hkeyCheck
    refine ⟨hfits, fun hle => ?_⟩
    exact (ovf_checkBudget hteamLt cost teamBudget _).mp
      (hrest () ((val_checkBudget hfits keyBudget _).mpr hle)).1
  · intro h _ _ key hkey team hteam teamBudget hteamBudget keyBudget hkeyBudget keyCurrent hkeySum
      teamCurrent hteamSum cost hcost
    have hkeyLt := hkeySpend key keyBudget hkeyBudget
    have hteamLt := hteamSpend team teamBudget hteamBudget
    cases (sum_of_lt hkeyLt).symm.trans hkeySum
    cases (sum_of_lt hteamLt).symm.trans hteamSum
    obtain ⟨hfits, hteamFits⟩ := h key team teamBudget keyBudget cost hkey hteam hteamBudget hkeyBudget
      hcost
    refine ⟨(ovf_checkBudget hkeyLt cost keyBudget _).mpr hfits, fun _ hcheck => ?_⟩
    have hle := (val_checkBudget hfits keyBudget _).mp hcheck
    exact ⟨(ovf_checkBudget hteamLt cost teamBudget _).mpr (hteamFits hle), fun _ _ => rfl⟩

end Attempts

end Backend

/-! ## Budgets -/

namespace Ledger

/-- The rows of every key and of every team stay within its budget. -/
structure WithinBudgets (s : Ledger) : Prop where
  keys : ∀ key budget, s.keyBudget key = some budget → s.keySpend key ≤ budget.1
  teams : ∀ team budget, s.teamBudget team = some budget → s.teamSpend team ≤ budget.1

/-- The budgets have room for the row. -/
def Takes (s : Ledger) (row : LedgerRow) : Prop :=
  (∀ budget, s.keyBudget row.keyId = some budget →
    s.keySpend row.keyId + row.costAmount.1 ≤ budget.1) ∧
  ∀ team, row.teamId = some team → ∀ budget, s.teamBudget team = some budget →
    s.teamSpend team + row.costAmount.1 ≤ budget.1

variable {s : Ledger}

theorem WithinBudgets.keySpend_lt (hs : s.WithinBudgets) (key : Uuid) (budget : Amount)
    (h : s.keyBudget key = some budget) : s.keySpend key < 2 ^ 63 :=
  lt_of_le_of_lt (hs.keys key budget h) budget.2

theorem WithinBudgets.teamSpend_lt (hs : s.WithinBudgets) (team : Uuid) (budget : Amount)
    (h : s.teamBudget team = some budget) : s.teamSpend team < 2 ^ 63 :=
  lt_of_le_of_lt (hs.teams team budget h) budget.2

theorem keySpend_concat (row : LedgerRow) (key : Uuid) :
    keySpend { s with rows := s.rows ++ [row] } key =
      s.keySpend key + if row.keyId = key then row.costAmount.1 else 0 := by
  rw [keySpend, List.filter_append, List.filter_singleton, List.map_append, List.sum_append]
  split
  next h => rw [decide_eq_true h]; rfl
  next h => rw [decide_eq_false h]; rfl

theorem teamSpend_concat (row : LedgerRow) (team : Uuid) :
    teamSpend { s with rows := s.rows ++ [row] } team =
      s.teamSpend team + if row.teamId = some team then row.costAmount.1 else 0 := by
  rw [teamSpend, List.filter_append, List.filter_singleton, List.map_append, List.sum_append]
  split
  next h => rw [decide_eq_true h]; rfl
  next h => rw [decide_eq_false h]; rfl

/-- What a row must fit into. -/
theorem withinBudgets_concat_iff (hs : s.WithinBudgets) (row : LedgerRow) :
    WithinBudgets { s with rows := s.rows ++ [row] } ↔ s.Takes row := by
  constructor
  · intro h
    refine ⟨fun budget hbudget => ?_, fun team hteam budget hbudget => ?_⟩
    · have hle := h.keys row.keyId budget hbudget
      rwa [keySpend_concat, if_pos rfl] at hle
    · have hle := h.teams team budget hbudget
      rwa [teamSpend_concat, if_pos hteam] at hle
  · intro h
    refine ⟨fun key budget hbudget => ?_, fun team budget hbudget => ?_⟩
    · rw [keySpend_concat]
      split
      next hkey => exact hkey ▸ h.1 budget (hkey ▸ hbudget)
      next => exact hs.keys key budget hbudget
    · rw [teamSpend_concat]
      split
      next hteam => exact h.2 team hteam budget hbudget
      next => exact hs.teams team budget hbudget

end Ledger

namespace Backend

variable {κ : Type} {b : Backend κ} [DecidableEq κ] {s : Ledger}

theorem commit_ovf (attempt : Attempt KeyError LedgerRow) :
    (b.commit s attempt).1.ovf = attempt.ovf := by
  unfold commit
  cases attempt.val <;> rfl

/-- A transaction keeps to the budgets iff they have room for the row it inserts. -/
theorem withinBudgets_commit_iff (hs : s.WithinBudgets) (attempt : Attempt KeyError LedgerRow) :
    (b.commit s attempt).2.WithinBudgets ↔ ∀ row, attempt.val = .ok row →
      b.fresh s row.eventId row.requestId row.keyId = true → s.Takes row := by
  unfold commit
  cases attempt.val with
  | error stop => exact iff_of_true hs fun row h => nomatch h
  | ok row =>
    show (b.insert s row).WithinBudgets ↔ _
    unfold insert
    split
    next hfresh =>
      rw [Ledger.withinBudgets_concat_iff hs]
      constructor
      · intro h row' hrow _
        cases hrow
        exact h
      · exact fun h => h row rfl hfresh
    next hstale =>
      refine iff_of_true hs fun row' hrow hfresh => ?_
      cases hrow
      exact absurd hfresh hstale

/-- The call adds within `i64`, and `record_spend_ledger` inserts nothing that the budget of
a team has no room for. -/
def Fits (b : Backend κ) (s : Ledger) : Op → Prop
  | .recordSpendLedger event _ =>
    ∀ budget (cost : Amount), s.keyBudget event.keyId = some budget →
      event.costAmount.toNat = cost.1 →
      s.keySpend event.keyId + cost.1 < 2 ^ 63 ∧
      (s.keySpend event.keyId + cost.1 ≤ budget.1 →
        ∀ eventId, hexToBlob32 event.eventId = some eventId →
          b.fresh s eventId (encodeRequestId b.sha256 event.requestId) event.keyId = true →
          ∀ team, event.teamId = some team → ∀ teamBudget, s.teamBudget team = some teamBudget →
            s.teamSpend team + cost.1 ≤ teamBudget.1)
  | .recordSpendLedgerWithTeam keyId teamId event _ =>
    ∀ key team teamBudget keyBudget (cost : Amount),
      b.parseUuid keyId = some key → b.parseUuid teamId = some team →
      s.teamBudget team = some teamBudget → s.keyBudget key = some keyBudget →
      event.costAmount.toNat = cost.1 →
      s.keySpend key + cost.1 < 2 ^ 63 ∧
        (s.keySpend key + cost.1 ≤ keyBudget.1 → s.teamSpend team + cost.1 < 2 ^ 63)

theorem recordSpendLedger_iff_fits (hs : s.WithinBudgets) (event : SpendEvent) (now : Int64) :
    (b.step s (.recordSpendLedger event now)).2.WithinBudgets ∧
      (b.step s (.recordSpendLedger event now)).1.ovf = false ↔
      b.Fits s (.recordSpendLedger event now) := by
  have hspend := hs.keySpend_lt event.keyId
  rw [step, recordSpendLedger, withinBudgets_commit_iff hs, commit_ovf, ovf_attemptRecord now hspend]
  constructor
  · intro h budget cost hbudget hcost
    obtain ⟨htakes, hfits⟩ := h
    refine ⟨hfits budget cost hbudget hcost, fun hle eventId hhex hfresh => ?_⟩
    have hcheck := (val_checkBudget (b := b) (hfits budget cost hbudget hcost) budget
      .budgetExceeded).mpr hle
    exact (htakes _ (val_attemptRecord_eq_ok.mpr ⟨budget, _, cost, eventId, hbudget,
      sum_of_lt (hspend budget hbudget), hcost, hcheck, hhex, rfl⟩) hfresh).2
  · intro h
    refine ⟨fun row hrow hfresh => ?_, fun budget cost hbudget hcost => (h budget cost hbudget hcost).1⟩
    obtain ⟨budget, current, cost, eventId, hbudget, hsum, hcost, hcheck, hhex, rfl⟩ :=
      val_attemptRecord_eq_ok.mp hrow
    cases (sum_of_lt (hspend budget hbudget)).symm.trans hsum
    obtain ⟨hfits, hteam⟩ := h budget cost hbudget hcost
    have hle := (val_checkBudget hfits budget .budgetExceeded).mp hcheck
    refine ⟨fun budget' hbudget' => ?_, hteam hle eventId hhex hfresh⟩
    cases hbudget.symm.trans hbudget'
    exact hle

theorem recordSpendLedgerWithTeam_iff_fits (hs : s.WithinBudgets) (keyId teamId : String)
    (event : SpendEvent) (now : Int64) :
    (b.step s (.recordSpendLedgerWithTeam keyId teamId event now)).2.WithinBudgets ∧
      (b.step s (.recordSpendLedgerWithTeam keyId teamId event now)).1.ovf = false ↔
      b.Fits s (.recordSpendLedgerWithTeam keyId teamId event now) := by
  have hkeys := hs.keySpend_lt
  have hteams := hs.teamSpend_lt
  rw [step, withinBudgets_commit_iff hs, commit_ovf, ovf_attemptRecordWithTeam now hkeys hteams]
  refine and_iff_right_of_imp fun h row hrow _ => ?_
  -- both budgets have been checked
  obtain ⟨key, team, teamBudget, keyBudget, keyCurrent, teamCurrent, cost, eventId, hkey, hteam,
    hteamBudget, hkeyBudget, hkeySum, hteamSum, hcost, hkeyCheck, hteamCheck, -, rfl⟩ :=
    val_attemptRecordWithTeam_eq_ok.mp hrow
  cases (sum_of_lt (hkeys key keyBudget hkeyBudget)).symm.trans hkeySum
  cases (sum_of_lt (hteams team teamBudget hteamBudget)).symm.trans hteamSum
  obtain ⟨hfits, hteamFits⟩ := h key team teamBudget keyBudget cost hkey hteam hteamBudget hkeyBudget
    hcost
  have hkeyLe := (val_checkBudget hfits keyBudget .budgetExceeded).mp hkeyCheck
  have hteamLe := (val_checkBudget (hteamFits hkeyLe) teamBudget .teamBudgetExceeded).mp hteamCheck
  refine ⟨fun budget hbudget => ?_, fun team' hteam' budget hbudget => ?_⟩
  · cases hkeyBudget.symm.trans hbudget
    exact hkeyLe
  · cases hteam'
    cases hteamBudget.symm.trans hbudget
    exact hteamLe

/-- A call keeps to the budgets and the range iff it `Fits`. -/
theorem step_iff_fits (hs : s.WithinBudgets) (op : Op) :
    (b.step s op).2.WithinBudgets ∧ (b.step s op).1.ovf = false ↔ b.Fits s op := by
  cases op with
  | recordSpendLedger event now => exact recordSpendLedger_iff_fits hs event now
  | recordSpendLedgerWithTeam keyId teamId event now =>
    exact recordSpendLedgerWithTeam_iff_fits hs keyId teamId event now

end Backend

/-- **The ledger stays within its budgets.** From an empty ledger, every state of a run is
within the budgets of all keys and teams and no comparison has overflowed, iff every call
`Fits` in the state it finds. -/
theorem ledger_within_budgets_iff {κ : Type} [DecidableEq κ] (b : Backend κ)
    (keyBudget teamBudget : Uuid → Option Amount) (ops : List Backend.Op) :
    (∀ front, front <+: ops →
      (final b.step ⟨keyBudget, teamBudget, []⟩ front).WithinBudgets ∧
      ∀ call ∈ trace b.step ⟨keyBudget, teamBudget, []⟩ front, call.2.ovf = false) ↔
    Along b.step b.Fits ⟨keyBudget, teamBudget, []⟩ ops := by
  let inv (es : List (Backend.Op × Tracked (Run KeyError Unit))) (s : Ledger) : Prop :=
    s.WithinBudgets ∧ ∀ call ∈ es, call.2.ovf = false
  refine forall_prefix_iff_along inv ?_ ?_ ops
  · intro es s op h
    obtain ⟨hs, hes⟩ := h
    show (b.step s op).2.WithinBudgets ∧
      (∀ call ∈ es ++ [(op, (b.step s op).1)], call.2.ovf = false) ↔ b.Fits s op
    rw [← Backend.step_iff_fits hs op, List.forall_mem_append, List.forall_mem_singleton]
    exact and_congr_right fun _ => and_iff_right hes
  · exact ⟨⟨fun _ _ _ => Nat.zero_le _, fun _ _ _ => Nat.zero_le _⟩,
      fun call h => absurd h List.not_mem_nil⟩

def sampleSpend (requestId : String) (idDigit : Char) (teamId : Option Uuid) (costAmount : UInt64) :
    SpendEvent where
  requestId := requestId
  keyId := Vector.replicate 16 1
  provider := "openai"
  model := "gpt-4"
  inputTokens := 100
  outputTokens := 50
  pricingHash := Vector.replicate 32 0
  tokenSource := .providerUsage
  eventId := String.ofList (List.replicate 64 idDigit)
  teamId := teamId
  costAmount := costAmount
  tokenizerVersion := none
  providerUsageJson := none
  timestamp := 1000

/-- The SHA-256 digest of `req-1`. -/
def sampleRequestHash : Bytes32 :=
  #v[148, 86, 189, 250, 18, 234, 118, 149, 156, 148, 163, 87, 47, 93, 145, 199,
    61, 131, 134, 34, 223, 10, 141, 155, 78, 129, 92, 39, 108, 107, 120, 128]

/-- Unique event ids, and SHA-256 of the two request ids. -/
def sampleBackend : Backend Bytes32 where
  unique eventId _ _ := eventId
  sumOutside _ := .error (.storage "integer overflow")
  sha256 m :=
    if m = asBytes "req-1" then sampleRequestHash
    else
      #v[166, 151, 248, 185, 154, 70, 200, 70, 91, 154, 112, 231, 175, 68, 228, 154,
        118, 101, 207, 28, 232, 230, 44, 59, 66, 103, 143, 28, 38, 178, 24, 20]
  tokenizerVersionToId _ := Vector.replicate 16 0
  parseUuid _ := none
  overflowChecks := true

/-- A cost of 200 on a team with a budget of 100; and the largest cost, then a cost of 1. -/
theorem ledger_exceeds_budgets :
    ¬(final sampleBackend.step ⟨fun _ => some ⟨1000, by decide⟩, fun _ => some ⟨100, by decide⟩, []⟩
      [.recordSpendLedger (sampleSpend "req-1" '1' (some (Vector.replicate 16 2)) 200) 2000]
      ).WithinBudgets ∧
    ((sampleBackend.step
      (final sampleBackend.step ⟨fun _ => some ⟨2 ^ 63 - 1, by decide⟩, fun _ => none, []⟩
        [.recordSpendLedger (sampleSpend "req-1" '1' none (2 ^ 63 - 1)) 2000])
      (.recordSpendLedger (sampleSpend "req-2" '2' none 1) 2000)).1.ovf = true) := by
  refine ⟨fun h => ?_, by decide +kernel⟩
  have hle := h.teams (Vector.replicate 16 2) ⟨100, by decide⟩ rfl
  exact absurd hle (by decide +kernel)

end CipherOcto.Router
