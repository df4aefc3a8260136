import CipherOcto.Router.Ledger

/-!
# Recording a spend again

The insert takes a violation of the unique constraint for a spend that is already recorded.
The check of the budget comes before it and adds the cost to a sum that contains it, so a
spend is recorded again without an error only where the budget has room for it twice.

Whether a spend counts as recorded is up to the unique columns: those of the schema are the
key and the hash of the request id. The event id is not among them, and it does not tell
apart requests whose texts run together to the same bytes.

> `retry_iff_affords`: what recording a spend again depends on.
> `fresh_iff`: the rows are those of the calls that returned `Ok`.
-/

namespace CipherOcto.Router

open Encoding Machine Trace

namespace Backend

variable {κ : Type} [DecidableEq κ] {b : Backend κ} {s : Ledger}

/-! ## What a call leaves -/

/-- The event has a row, or one with its unique columns, and a cost that is an `i64`. -/
def Recorded (b : Backend κ) (s : Ledger) (event : SpendEvent) : Prop :=
  event.costAmount.toNat < 2 ^ 63 ∧ ∃ eventId, hexToBlob32 event.eventId = some eventId ∧
    b.fresh s eventId (encodeRequestId b.sha256 event.requestId) event.keyId = false

theorem fresh_eq_false_iff {eventId requestId : Bytes32} {keyId : Uuid} :
    b.fresh s eventId requestId keyId = false ↔
      ∃ row ∈ s.rows, b.unique row.eventId row.requestId row.keyId = b.unique eventId requestId keyId := by
  simp [fresh]

/-- A call returns `Ok` and inserts the row of its event, or fails and changes nothing. -/
theorem recordSpendLedger_cases (s : Ledger) (call : SpendEvent × Int64) :
    (∃ cost eventId, call.1.costAmount.toNat = (cost : Amount).1 ∧
      hexToBlob32 call.1.eventId = some eventId ∧ (b.recordSpendLedger s call).1.val = .ok () ∧
      (b.recordSpendLedger s call).2 =
        b.insert s (b.row call.1 call.1.keyId call.1.teamId cost call.2 eventId)) ∨
    (∃ stop, (b.recordSpendLedger s call).1.val = .error stop ∧
      (b.recordSpendLedger s call).2 = s) := by
  rw [recordSpendLedger, commit]
  cases hval : (b.attemptRecord s call.1 call.2).val with
  | error stop => exact .inr ⟨stop, rfl, rfl⟩
  | ok row =>
    obtain ⟨_, _, cost, eventId, -, -, hcost, -, hhex, rfl⟩ := val_attemptRecord_eq_ok.mp hval
    exact .inl ⟨cost, eventId, hcost, hhex, rfl, rfl⟩

theorem mem_rows_insert (row : LedgerRow) {r : LedgerRow} (h : r ∈ s.rows) :
    r ∈ (b.insert s row).rows := by
  unfold insert
  split
  · exact List.mem_append_left _ h
  · exact h

/-- After an insert there is a row with the unique columns. -/
theorem fresh_insert (row : LedgerRow) :
    b.fresh (b.insert s row) row.eventId row.requestId row.keyId = false := by
  unfold insert
  split
  next h =>
    rw [fresh_eq_false_iff]
    exact ⟨row, List.mem_append_right _ List.mem_cons_self, rfl⟩
  next h => exact Bool.eq_false_of_not_eq_true h

theorem insert_of_stale {row : LedgerRow}
    (h : b.fresh s row.eventId row.requestId row.keyId = false) : b.insert s row = s :=
  if_neg (Bool.eq_false_iff.mp h)

theorem recorded_of_ok {call : SpendEvent × Int64} (h : (b.recordSpendLedger s call).1.val = .ok ()) :
    b.Recorded (b.recordSpendLedger s call).2 call.1 := by
  rcases recordSpendLedger_cases (b := b) s call with
    ⟨cost, eventId, hcost, hhex, -, hstate⟩ | ⟨stop, hstop, -⟩
  · rw [hstate]
    exact ⟨hcost ▸ cost.2, eventId, hhex, fresh_insert _⟩
  · cases h.symm.trans hstop

theorem recorded_step {event : SpendEvent} (h : b.Recorded s event) (call : SpendEvent × Int64) :
    b.Recorded (b.recordSpendLedger s call).2 event := by
  obtain ⟨hcost, eventId, hhex, hstale⟩ := h
  refine ⟨hcost, eventId, hhex, ?_⟩
  rcases recordSpendLedger_cases (b := b) s call with ⟨_, _, -, -, -, hstate⟩ | ⟨_, -, hstate⟩
  · obtain ⟨row, hrow, hsame⟩ := fresh_eq_false_iff.mp hstale
    rw [hstate, fresh_eq_false_iff]
    exact ⟨row, mem_rows_insert _ hrow, hsame⟩
  · rw [hstate]
    exact hstale

theorem recorded_of_mem_trace {calls : List (SpendEvent × Int64)} {call : SpendEvent × Int64}
    {answer : Tracked (Run KeyError Unit)} {start : Ledger}
    (h : (call, answer) ∈ trace b.recordSpendLedger start calls) (hok : answer.val = .ok ()) :
    b.Recorded (final b.recordSpendLedger start calls) call.1 := by
  induction calls using List.reverseRecOn with
  | nil => exact absurd h List.not_mem_nil
  | append_singleton calls last ih =>
    rw [trace_append, List.mem_append] at h
    rw [final_append]
    rcases h with hbefore | hlast
    · exact recorded_step (ih hbefore) last
    · cases List.mem_singleton.mp hlast
      exact recorded_of_ok hok

/-! ## Retries -/

/-- The check lets the cost pass once more: `SUM` of the rows of the key, plus the cost as
the build adds, is at most the budget. -/
def Affords (b : Backend κ) (s : Ledger) (event : SpendEvent) : Prop :=
  ∃ budget current, s.keyBudget event.keyId = some budget ∧
    b.sum (s.keySpend event.keyId) = .ok current ∧
    (b.overflowChecks = true → InI 64 (current + event.costAmount.toNat)) ∧
    (current + event.costAmount.toNat).bmod (2 ^ 64) ≤ budget.1

omit [DecidableEq κ] in
theorem val_checkBudget_eq_ok {current : Int} {cost budget : Amount}
    {exceeded : Nat → Nat → KeyError} :
    (b.checkBudget current cost budget exceeded).val = .ok () ↔
      (b.overflowChecks = true → InI 64 (current + cost.1)) ∧
        (current + cost.1).bmod (2 ^ 64) ≤ budget.1 := by
  show (if b.overflowChecks = true ∧ (decide (¬InI 64 (current + cost.1))) = true then _
    else if (budget.1 : Int) < (current + cost.1).bmod (2 ^ 64) then _ else _ : Run KeyError Unit) =
      _ ↔ _
  split
  next h =>
    exact iff_of_false (fun hok => nomatch hok) fun hand => of_decide_eq_true h.2 (hand.1 h.1)
  next h =>
    rw [decide_eq_true_eq, not_and, not_not] at h
    split
    next hlt => exact iff_of_false (fun hok => nomatch hok) fun hand => absurd hand.2 (not_le.mpr hlt)
    next hle => exact iff_of_true rfl ⟨h, not_lt.mp hle⟩

omit [DecidableEq κ] in
/-- While the sum is an `i64`, the budget has to have room for the cost once more. -/
theorem affords_iff_of_lt {event : SpendEvent}
    (h : s.keySpend event.keyId + event.costAmount.toNat < 2 ^ 63) :
    b.Affords s event ↔ ∃ budget, s.keyBudget event.keyId = some budget ∧
      s.keySpend event.keyId + event.costAmount.toNat ≤ budget.1 := by
  have hin : InI 64 ((s.keySpend event.keyId : Int) + event.costAmount.toNat) := by
    rw [InI, minI, maxI]
    norm_num
    omega
  have hbmod := bmod_of_inI (by norm_num) hin
  constructor
  · intro haffords
    obtain ⟨budget, current, hbudget, hsum, -, hle⟩ := haffords
    cases (sum_of_lt (b := b) (by omega)).symm.trans hsum
    rw [hbmod] at hle
    exact ⟨budget, hbudget, by omega⟩
  · intro hroom
    obtain ⟨budget, hbudget, hle⟩ := hroom
    refine ⟨budget, _, hbudget, sum_of_lt (by omega), fun _ => hin, ?_⟩
    rw [hbmod]
    omega

/-- What recording a spend again depends on. It changes nothing in any case. -/
theorem retry_iff_affords {event : SpendEvent} (h : b.Recorded s event) (now : Int64) :
    ((b.recordSpendLedger s (event, now)).1.val = .ok () ↔ b.Affords s event) ∧
      (b.recordSpendLedger s (event, now)).2 = s := by
  obtain ⟨hlt, eventId, hhex, hstale⟩ := h
  have hok : (b.recordSpendLedger s (event, now)).1.val = .ok () ↔
      ∃ row, (b.attemptRecord s event now).val = .ok row := by
    rw [recordSpendLedger, commit]
    cases (b.attemptRecord s event now).val with
    | error stop =>
      refine iff_of_false (fun h => ?_) fun h => ?_
      · cases h
      · obtain ⟨row, hrow⟩ := h
        cases hrow
    | ok row => exact iff_of_true rfl ⟨row, rfl⟩
  constructor
  · rw [hok]
    constructor
    · intro hrow
      obtain ⟨row, hrow⟩ := hrow
      obtain ⟨budget, current, cost, _, hbudget, hsum, hcost, hcheck, -, -⟩ :=
        val_attemptRecord_eq_ok.mp hrow
      rw [val_checkBudget_eq_ok, ← hcost] at hcheck
      exact ⟨budget, current, hbudget, hsum, hcheck⟩
    · intro haffords
      obtain ⟨budget, current, hbudget, hsum, hcheck⟩ := haffords
      refine ⟨_, val_attemptRecord_eq_ok.mpr ⟨budget, current, ⟨_, hlt⟩, eventId, hbudget, hsum, rfl,
        val_checkBudget_eq_ok.mpr hcheck, hhex, rfl⟩⟩
  · rcases recordSpendLedger_cases (b := b) s (event, now) with
      ⟨_, eventId', -, hhex', -, hstate⟩ | ⟨_, -, hstate⟩
    · cases hhex.symm.trans hhex'
      rw [hstate]
      exact insert_of_stale hstale
    · exact hstate

end Backend

/-- **A retry needs room for the cost twice.** In every ledger a run leads to, recording an
event again that a call of the run has recorded returns `Ok` and leaves the ledger as it is
iff the check lets its cost pass once more; as long as the sum is an `i64`, iff the rows of
the key, the event's among them, and its cost are within the budget of the key. -/
theorem retry_ok_iff {κ : Type} [DecidableEq κ] (b : Backend κ)
    (keyBudget teamBudget : Uuid → Option Amount) (calls : List (SpendEvent × Int64)) :
    ∀ call ∈ trace b.recordSpendLedger ⟨keyBudget, teamBudget, []⟩ calls, call.2.val = .ok () →
      let s := final b.recordSpendLedger ⟨keyBudget, teamBudget, []⟩ calls
      let event := call.1.1
      ∀ now, ((b.recordSpendLedger s (event, now)).1.val = .ok () ∧
          (b.recordSpendLedger s (event, now)).2 = s ↔ b.Affords s event) ∧
        (s.keySpend event.keyId + event.costAmount.toNat < 2 ^ 63 →
          (b.Affords s event ↔ ∃ budget, s.keyBudget event.keyId = some budget ∧
            s.keySpend event.keyId + event.costAmount.toNat ≤ budget.1)) := by
  intro call hcall hok s event now
  obtain ⟨hiff, hsame⟩ := Backend.retry_iff_affords (Backend.recorded_of_mem_trace hcall hok) now
  exact ⟨(and_iff_left hsame).trans hiff, Backend.affords_iff_of_lt⟩

theorem retry_ok_iff_twice_in_budget :
    (sampleBackend.recordSpendLedger
      (final sampleBackend.recordSpendLedger ⟨fun _ => some ⟨200, by decide⟩, fun _ => none, []⟩
        [(sampleSpend "req-1" '1' none 60, 2000)])
      (sampleSpend "req-1" '1' none 60, 2001)).1.val = .ok () := by
  obtain ⟨hretry, hroom⟩ := retry_ok_iff sampleBackend (fun _ => some ⟨200, by decide⟩)
    (fun _ => none) [(sampleSpend "req-1" '1' none 60, 2000)]
    ((sampleSpend "req-1" '1' none 60, 2000),
      (sampleBackend.recordSpendLedger ⟨fun _ => some ⟨200, by decide⟩, fun _ => none, []⟩
        (sampleSpend "req-1" '1' none 60, 2000)).1)
    (List.mem_singleton_self _) (by decide +kernel) 2001
  refine (hretry.mpr ((hroom (by decide +kernel)).mpr ⟨⟨200, by decide⟩, rfl, ?_⟩)).1
  decide +kernel

/-- A cost of 60 on a budget of 100, recorded twice. -/
theorem retry_exceeds_budget :
    (sampleBackend.recordSpendLedger ⟨fun _ => some ⟨100, by decide⟩, fun _ => none, []⟩
      (sampleSpend "req-1" '1' none 60, 2000)).1.val = .ok () ∧
    (sampleBackend.recordSpendLedger
      (sampleBackend.recordSpendLedger ⟨fun _ => some ⟨100, by decide⟩, fun _ => none, []⟩
        (sampleSpend "req-1" '1' none 60, 2000)).2
      (sampleSpend "req-1" '1' none 60, 2001)).1.val = .error (.err (.budgetExceeded 60 100)) := by
  decide +kernel

/-! ## Ids and rows -/

namespace Backend

variable {κ : Type} [DecidableEq κ] {b : Backend κ} {s : Ledger}

theorem fresh_insert_iff {row : LedgerRow} {eventId requestId : Bytes32} {keyId : Uuid} :
    b.fresh (b.insert s row) eventId requestId keyId = true ↔
      b.fresh s eventId requestId keyId = true ∧
        b.unique row.eventId row.requestId row.keyId ≠ b.unique eventId requestId keyId := by
  unfold insert
  split
  next => simp [fresh]
  next hstale =>
    refine (and_iff_left_of_imp fun hfresh hsame => hstale ?_).symm
    rw [fresh] at hfresh ⊢
    rw [hsame]
    exact hfresh

/-- No call that returned `Ok` has the unique columns. -/
def Apart (b : Backend κ) (es : List ((SpendEvent × Int64) × Tracked (Run KeyError Unit)))
    (eventId requestId : Bytes32) (keyId : Uuid) : Prop :=
  ∀ call ∈ es, call.2.val = .ok () → ∀ id, hexToBlob32 call.1.1.eventId = some id →
    b.unique id (encodeRequestId b.sha256 call.1.1.requestId) call.1.1.keyId ≠
      b.unique eventId requestId keyId

/-- The rows are those of the calls that returned `Ok`. -/
theorem fresh_iff (keyBudget teamBudget : Uuid → Option Amount) (calls : List (SpendEvent × Int64)) :
    ∀ eventId requestId keyId,
      b.fresh (final b.recordSpendLedger ⟨keyBudget, teamBudget, []⟩ calls) eventId requestId keyId =
        true ↔
      b.Apart (trace b.recordSpendLedger ⟨keyBudget, teamBudget, []⟩ calls) eventId requestId keyId := by
  refine run_induct (fun es s => ∀ eventId requestId keyId,
    b.fresh s eventId requestId keyId = true ↔ b.Apart es eventId requestId keyId) ?_ ?_ calls
  · exact fun _ _ _ => iff_of_true rfl fun call h => absurd h List.not_mem_nil
  · intro es s call ih eventId requestId keyId
    rw [Apart, List.forall_mem_append, List.forall_mem_singleton, ← Apart, ← ih]
    rcases recordSpendLedger_cases (b := b) s call with
      ⟨cost, id, -, hhex, hok, hstate⟩ | ⟨stop, hstop, hstate⟩
    · rw [hstate, fresh_insert_iff]
      refine and_congr_right fun _ => ⟨fun hne _ id' hid' => ?_, fun h => h hok id hhex⟩
      cases hhex.symm.trans hid'
      exact hne
    · rw [hstate]
      refine (and_iff_left fun hok => ?_).symm
      cases hok.symm.trans hstop

/-- A call that returns `Ok` adds a row iff its unique columns are fresh. -/
theorem adds_row_iff_fresh {call : SpendEvent × Int64} {eventId : Bytes32}
    (hhex : hexToBlob32 call.1.eventId = some eventId)
    (hok : (b.recordSpendLedger s call).1.val = .ok ()) :
    (∃ row, (b.recordSpendLedger s call).2.rows = s.rows ++ [row]) ↔
      b.fresh s eventId (encodeRequestId b.sha256 call.1.requestId) call.1.keyId = true := by
  rcases recordSpendLedger_cases (b := b) s call with
    ⟨cost, id, -, hhex', -, hstate⟩ | ⟨stop, hstop, -⟩
  · cases hhex.symm.trans hhex'
    rw [hstate]
    constructor
    · intro h
      by_contra hstale
      obtain ⟨row, hrow⟩ := h
      rw [insert_of_stale (Bool.eq_false_of_not_eq_true hstale)] at hrow
      have hlength := congrArg List.length hrow
      rw [List.length_append, List.length_singleton] at hlength
      omega
    · intro hfresh
      exact ⟨_, congrArg Ledger.rows (if_pos hfresh)⟩
  · cases hok.symm.trans hstop

end Backend

/-- `UNIQUE(key_id, request_id)`. -/
def schemaColumns (_eventId requestId : Bytes32) (keyId : Uuid) : Uuid × Bytes32 := (keyId, requestId)

/-- Equal columns are equal keys and, by the hash, equal request ids. -/
theorem schemaColumns_eq_iff {sha256 : List UInt8 → Bytes32} {ids : Set (List UInt8)}
    (hinj : Set.InjOn sha256 ids) {id id' : Bytes32} {requestId requestId' : String}
    (h : asBytes requestId ∈ ids) (h' : asBytes requestId' ∈ ids) {keyId keyId' : Uuid} :
    schemaColumns id (encodeRequestId sha256 requestId) keyId =
        schemaColumns id' (encodeRequestId sha256 requestId') keyId' ↔
      keyId = keyId' ∧ requestId = requestId' := by
  rw [schemaColumns, schemaColumns, Prod.mk.injEq]
  refine and_congr_right fun _ => ⟨fun heq => ?_, fun heq => by rw [heq]⟩
  exact Bytes.toUTF8_toList_inj (hinj h h' heq)

/-- **Ids and rows.** Two requests have one id iff they agree in the token counts, the pricing
hash and the token source and their texts run together to the same bytes; cut at the same
places, iff they are the same. A spend is recorded as a row of its own iff no earlier one is
recorded for its key and request id. -/
theorem spend_ids_and_rows (b : Backend (Uuid × Bytes32)) :
    (∀ x y : SpendRequest, Set.InjOn b.sha256 {x.eventIdInput, y.eventIdInput} →
      (computeEventId b.sha256 x = computeEventId b.sha256 y ↔
        x.text = y.text ∧ x.inputTokens = y.inputTokens ∧ x.outputTokens = y.outputTokens ∧
          x.pricingHash = y.pricingHash ∧ x.tokenSource = y.tokenSource) ∧
      ((asBytes x.requestId).length = (asBytes y.requestId).length →
        (asBytes x.provider).length = (asBytes y.provider).length →
        (computeEventId b.sha256 x = computeEventId b.sha256 y ↔ x = y))) ∧
    (b.unique = schemaColumns → ∀ keyBudget teamBudget calls event now,
      (∀ call ∈ calls ++ [(event, now)],
        call.1.eventId = computeEventId b.sha256 call.1.toSpendRequest) →
      Set.InjOn b.sha256 {m | ∃ call ∈ calls ++ [(event, now)], m = asBytes call.1.requestId} →
      let s := final b.recordSpendLedger ⟨keyBudget, teamBudget, []⟩ calls
      (b.recordSpendLedger s (event, now)).1.val = .ok () →
      ((∃ row, (b.recordSpendLedger s (event, now)).2.rows = s.rows ++ [row]) ↔
        ∀ call ∈ trace b.recordSpendLedger ⟨keyBudget, teamBudget, []⟩ calls, call.2.val = .ok () →
          ¬(call.1.1.keyId = event.keyId ∧ call.1.1.requestId = event.requestId))) := by
  constructor
  · intro x y hinj
    have hid : computeEventId b.sha256 x = computeEventId b.sha256 y ↔
        x.eventIdInput = y.eventIdInput := by
      rw [computeEventId_eq_iff]
      exact hinj.eq_iff (Set.mem_insert _ _) (Set.mem_insert_of_mem _ rfl)
    exact ⟨hid.trans eventIdInput_eq_iff,
      fun hrequest hprovider => hid.trans (eventIdInput_inj hrequest hprovider)⟩
  · intro hschema keyBudget teamBudget calls event now hids hinj s hok
    have hhex : ∀ call ∈ calls ++ [(event, now)],
        hexToBlob32 call.1.eventId = some (b.sha256 call.1.eventIdInput) := by
      intro call hcall
      rw [hids call hcall]
      exact hexToBlob32_encode _
    have hevent : (event, now) ∈ calls ++ [(event, now)] :=
      List.mem_append_right _ List.mem_cons_self
    rw [Backend.adds_row_iff_fresh (hhex _ hevent) hok, Backend.fresh_iff]
    refine forall₂_congr fun call hcall => imp_congr_right fun _ => ?_
    have hmem : call.1 ∈ calls ++ [(event, now)] := List.mem_append_left _ (mem_of_mem_trace hcall)
    have hcolumns : ∀ id, b.unique id (encodeRequestId b.sha256 call.1.1.requestId) call.1.1.keyId =
        b.unique (b.sha256 event.eventIdInput) (encodeRequestId b.sha256 event.requestId)
          event.keyId ↔
        call.1.1.keyId = event.keyId ∧ call.1.1.requestId = event.requestId := by
      intro id
      rw [hschema]
      exact schemaColumns_eq_iff hinj ⟨_, hmem, rfl⟩ ⟨_, hevent, rfl⟩
    constructor
    · exact fun h hsame => h _ (hhex _ hmem) ((hcolumns _).mpr hsame)
    · exact fun h id _ hsame => h ((hcolumns id).mp hsame)

def sampleRequest (requestId provider model : String) : SpendRequest where
  requestId := requestId
  keyId := Vector.replicate 16 1
  provider := provider
  model := model
  inputTokens := 100
  outputTokens := 50
  pricingHash := Vector.replicate 32 0
  tokenSource := .providerUsage

/-- The columns of the schema, and SHA-256 of a request id and of what two ids are made of. -/
def schemaBackend : Backend (Uuid × Bytes32) where
  unique := schemaColumns
  sumOutside _ := .error (.storage "integer overflow")
  sha256 m :=
    if m = (sampleRequest "req-1" "ab" "c").eventIdInput then
      #v[34, 24, 98, 8, 33, 40, 155, 105, 43, 49, 30, 150, 79, 109, 15, 181,
        18, 137, 19, 194, 35, 103, 196, 24, 10, 254, 168, 224, 16, 249, 56, 218]
    else if m = (sampleRequest "req-2" "ab" "c").eventIdInput then
      #v[171, 243, 138, 185, 192, 244, 12, 57, 183, 163, 240, 89, 136, 129, 19, 156,
        184, 252, 19, 241, 37, 34, 126, 100, 235, 72, 1, 160, 18, 79, 235, 139]
    else sampleRequestHash
  tokenizerVersionToId _ := Vector.replicate 16 0
  parseUuid _ := none
  overflowChecks := true

theorem spend_ids_and_rows_two_requests :
    computeEventId schemaBackend.sha256 (sampleRequest "req-1" "ab" "c") =
        computeEventId schemaBackend.sha256 (sampleRequest "req-2" "ab" "c") ↔
      sampleRequest "req-1" "ab" "c" = sampleRequest "req-2" "ab" "c" := by
  have hinj : Set.InjOn schemaBackend.sha256 {(sampleRequest "req-1" "ab" "c").eventIdInput,
      (sampleRequest "req-2" "ab" "c").eventIdInput} := by
    rw [Set.injOn_pair]
    intro h
    exact absurd h (by decide +kernel)
  exact ((spend_ids_and_rows schemaBackend).1 _ _ hinj).2 (by decide +kernel) (by decide +kernel)

/-- The event of a request, with its id. -/
def schemaEvent (r : SpendRequest) : SpendEvent where
  toSpendRequest := r
  eventId := computeEventId schemaBackend.sha256 r
  teamId := none
  costAmount := 10
  tokenizerVersion := none
  providerUsageJson := none
  timestamp := 1000

/-- Model `c` of provider `ab`, and model `bc` of provider `a`: both calls return `Ok`, and
there is one row. -/
theorem distinct_requests_share_a_row :
    sampleRequest "req-1" "ab" "c" ≠ sampleRequest "req-1" "a" "bc" ∧
    computeEventId schemaBackend.sha256 (sampleRequest "req-1" "ab" "c") =
      computeEventId schemaBackend.sha256 (sampleRequest "req-1" "a" "bc") ∧
    (∀ call ∈ trace schemaBackend.recordSpendLedger
        ⟨fun _ => some ⟨100, by decide⟩, fun _ => none, []⟩
        [(schemaEvent (sampleRequest "req-1" "ab" "c"), 2000),
          (schemaEvent (sampleRequest "req-1" "a" "bc"), 2000)], call.2.val = .ok ()) ∧
    (final schemaBackend.recordSpendLedger ⟨fun _ => some ⟨100, by decide⟩, fun _ => none, []⟩
      [(schemaEvent (sampleRequest "req-1" "ab" "c"), 2000),
        (schemaEvent (sampleRequest "req-1" "a" "bc"), 2000)]).rows.length = 1 := by
  refine ⟨fun h => absurd (congrArg SpendRequest.provider h) (by decide), by decide +kernel, ?_,
    by decide +kernel⟩
  simp only [trace, List.forall_mem_cons]
  exact ⟨by decide +kernel, by decide +kernel, fun call h => absurd h List.not_mem_nil⟩

end CipherOcto.Router
