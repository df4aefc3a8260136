import CipherOcto.Encoding.Codec
import CipherOcto.Lib.Trace

/-!
# The settlement store

Asks are minted, settled and consumed in two tables behind one mutex. `mint` and
`consume` hold the mutex from the first statement to the last; `settle` reads the ask
under it and updates the ask under it again, so anything can run in between. A run is
a list of such sections, in the order they get the mutex, by any number of threads.

The update of `settle` has no condition on the state, and the placeholder for the
hash of an ask that is not settled is a receipt id like any other. Where neither is
met (`Undisturbed`), an ask is settled once and consumed once. `step_effect` says what
a section can do to the tables, `Inv` what they keep, and `settled_step`,
`consumed_step` and `consumed_stays_step` are one section of it each.

BLAKE3 and the JSON of an ask and a receipt are parameters. The times a row carries
are written and never read, and are left out.
-/

namespace CipherOcto.Settlement

open Encoding Trace

/-! ## The tables -/

structure Ask where
  askId : Bytes32
  holderDid : String
  axesConsumed : List (String × Nat)
  capRootHash : Bytes32
  invocationHash : Bytes32
  currentUnixTime : Nat
  outputHash : Option Bytes32
deriving DecidableEq

structure Receipt where
  receiptId : Bytes32
  askId : Bytes32
  settlementHash : Bytes32
  routerId : String
  routerSig : List UInt8
  timestampUnix : Nat
deriving DecidableEq

inductive AskState where
  | minted | settled | consumed
deriving DecidableEq

/-- `SettlementError`, as far as the store returns it. The message of a storage error is
the database's. -/
inductive SettlementError where
  | askNotFound (id : Bytes32)
  | alreadyConsumed (id : Bytes32)
  | invalidTransition (source target : AskState)
  | settlementHashMismatch (expected got : Bytes32)
  | storage
deriving DecidableEq

/-- A row of `asks`. -/
structure AskRow where
  ask : Ask
  settlementHash : Bytes32
  state : AskState
deriving DecidableEq

/-- A row of `consumed_receipt_index`. -/
structure ConsumedReceipt where
  receiptId : Bytes32
  askId : Bytes32
deriving DecidableEq

/-- A `settle` between its two sections. -/
structure PendingSettle where
  askId : Bytes32
  settlementHash : Bytes32
deriving DecidableEq

/-- The tables, in the order of insertion, and the calls in flight. -/
structure Store where
  asks : List AskRow
  consumedReceiptIndex : List ConsumedReceipt
  pending : List PendingSettle
deriving DecidableEq

def Store.new : Store := ⟨[], [], []⟩

/-- The placeholder of `mint`. -/
def zeroHash : Bytes32 := Vector.replicate 32 0

/-! ## The sections -/

/-- One section under the mutex. A `settle` in flight is named by its place. -/
inductive Section where
  | mint (ask : Ask)
  | settleRead (askId : Bytes32) (receipt : Receipt)
  | settleWrite (call : Nat)
  | consume (receiptId : Bytes32)

/-- What a call returns at the end of a section. An `Ok` names the ask it is for. -/
inductive Answer where
  | minted
  | settled (askId : Bytes32) (settlementHash : Bytes32)
  | consumed (askId : Bytes32)
  | failed (error : SettlementError)
  -- the call goes on, or there is none
  | running
deriving DecidableEq

/-- `UPDATE asks SET state = 'Settled', settlement_hash = ? WHERE ask_id = ?`. -/
def settleRow (askId settlementHash : Bytes32) (r : AskRow) : AskRow :=
  if r.ask.askId = askId then { r with settlementHash := settlementHash, state := .settled } else r

/-- `UPDATE asks SET state = 'Consumed' WHERE ask_id = ? AND state = 'Settled'`. -/
def consumeRow (askId : Bytes32) (r : AskRow) : AskRow :=
  if r.ask.askId = askId ∧ r.state = .settled then { r with state := .consumed } else r

namespace Store

/-- `SELECT … FROM asks WHERE ask_id = ?`. -/
def rowOf (s : Store) (askId : Bytes32) : Option AskRow :=
  s.asks.find? fun r => r.ask.askId = askId

def stateOf (s : Store) (askId : Bytes32) : Option AskState := (s.rowOf askId).map (·.state)

/-- `mint`: an ask id is unique. -/
def mint (s : Store) (ask : Ask) : Answer × Store :=
  if (s.rowOf ask.askId).isSome then (.failed .storage, s)
  else (.minted, { s with asks := s.asks ++ [⟨ask, zeroHash, .minted⟩] })

section

variable (blake3 : List UInt8 → Bytes32) (jsonAsk : Ask → List UInt8)
  (jsonReceipt : Receipt → List UInt8)

/-- `settle` up to its second section. -/
def settleRead (s : Store) (askId : Bytes32) (receipt : Receipt) : Answer × Store :=
  match s.rowOf askId with
  | none => (.failed (.askNotFound askId), s)
  | some stored =>
    let settlementHash := blake3 (jsonAsk stored.ask ++ jsonReceipt receipt)
    if receipt.askId ≠ askId then (.failed (.settlementHashMismatch askId receipt.askId), s)
    else if stored.state ≠ .minted then (.failed (.invalidTransition stored.state .settled), s)
    else (.running, { s with pending := s.pending ++ [⟨askId, settlementHash⟩] })

end

/-- The second section of `settle`. -/
def settleWrite (s : Store) (call : Nat) : Answer × Store :=
  match s.pending[call]? with
  | none => (.running, s)
  | some p =>
    (.settled p.askId p.settlementHash,
      { s with
        asks := s.asks.map (settleRow p.askId p.settlementHash)
        pending := s.pending.eraseIdx call })

/-- `consume`. -/
def consume (s : Store) (receiptId : Bytes32) : Answer × Store :=
  if s.consumedReceiptIndex.any (fun c => c.receiptId = receiptId) then
    (.failed (.alreadyConsumed receiptId), s)
  else
    match s.asks.find? fun r => r.settlementHash = receiptId with
    | none => (.failed (.askNotFound receiptId), s)
    | some row =>
      (.consumed row.ask.askId,
        { s with
          asks := s.asks.map (consumeRow row.ask.askId)
          consumedReceiptIndex := s.consumedReceiptIndex ++ [⟨receiptId, row.ask.askId⟩] })

/-- One section of a run. -/
def step (blake3 : List UInt8 → Bytes32) (jsonAsk : Ask → List UInt8)
    (jsonReceipt : Receipt → List UInt8) (s : Store) : Section → Answer × Store
  | .mint ask => s.mint ask
  | .settleRead askId receipt => s.settleRead blake3 jsonAsk jsonReceipt askId receipt
  | .settleWrite call => s.settleWrite call
  | .consume receiptId => s.consume receiptId

/-- The sections that go by the state they were started in: a `settle` writes to an ask
that is still minted, and the placeholder is not consumed while an ask has it. -/
def Undisturbed (s : Store) : Section → Prop
  | .settleWrite call => ∀ p, s.pending[call]? = some p → s.stateOf p.askId = some .minted
  | .consume receiptId => receiptId = zeroHash → ∀ r ∈ s.asks, r.state ≠ .minted
  | _ => True

/-! ## Rows -/

@[simp] theorem askId_settleRow (askId settlementHash : Bytes32) (r : AskRow) :
    (settleRow askId settlementHash r).ask.askId = r.ask.askId := by
  unfold settleRow
  split
  · rfl
  · rfl

@[simp] theorem askId_consumeRow (askId : Bytes32) (r : AskRow) :
    (consumeRow askId r).ask.askId = r.ask.askId := by
  unfold consumeRow
  split
  · rfl
  · rfl

@[simp] theorem settlementHash_consumeRow (askId : Bytes32) (r : AskRow) :
    (consumeRow askId r).settlementHash = r.settlementHash := by
  unfold consumeRow
  split
  · rfl
  · rfl

/-- Consuming takes no ask back to minted and leaves no minted one. -/
theorem state_consumeRow_eq_minted_iff {askId : Bytes32} {r : AskRow} :
    (consumeRow askId r).state = .minted ↔ r.state = .minted := by
  unfold consumeRow
  split
  next h =>
    rw [h.2]
    exact iff_of_false (by simp) (by simp)
  next => rfl

theorem settleRow_of_ne {askId settlementHash : Bytes32} {r : AskRow} (h : r.ask.askId ≠ askId) :
    settleRow askId settlementHash r = r := if_neg h

/-- An ask id is one row's. -/
theorem row_unique {asks : List AskRow} (h : (asks.map (·.ask.askId)).Nodup) {r r' : AskRow}
    (hr : r ∈ asks) (hr' : r' ∈ asks) (heq : r.ask.askId = r'.ask.askId) : r = r' :=
  List.inj_on_of_nodup_map h hr hr' heq

theorem rowOf_eq_some_iff {s : Store} (h : (s.asks.map (·.ask.askId)).Nodup) {askId : Bytes32}
    {r : AskRow} : s.rowOf askId = some r ↔ r ∈ s.asks ∧ r.ask.askId = askId := by
  constructor
  · intro hr
    exact ⟨List.mem_of_find?_eq_some hr, by simpa using List.find?_some hr⟩
  · intro hr
    obtain ⟨hmem, rfl⟩ := hr
    unfold rowOf
    cases hfind : s.asks.find? fun r' => r'.ask.askId = r.ask.askId with
    | none => exact absurd (decide_eq_true rfl) (List.find?_eq_none.mp hfind r hmem)
    | some r' =>
      have hsame : r'.ask.askId = r.ask.askId := by simpa using List.find?_some hfind
      rw [row_unique h (List.mem_of_find?_eq_some hfind) hmem hsame]

theorem stateOf_eq_some_iff {s : Store} (h : (s.asks.map (·.ask.askId)).Nodup) {askId : Bytes32}
    {state : AskState} :
    s.stateOf askId = some state ↔ ∃ r ∈ s.asks, r.ask.askId = askId ∧ r.state = state := by
  rw [stateOf, Option.map_eq_some_iff]
  refine exists_congr fun r => ?_
  rw [rowOf_eq_some_iff h, and_assoc]

/-! ## The invariant -/

/-- What holds of the tables while no section is disturbed. -/
structure Inv (s : Store) : Prop where
  unique : (s.asks.map (·.ask.askId)).Nodup
  /-- A minted ask has the placeholder. -/
  minted : ∀ r ∈ s.asks, r.state = .minted → r.settlementHash = zeroHash
  /-- A receipt is consumed for the ask that has its hash, which is not minted. -/
  indexed : ∀ c ∈ s.consumedReceiptIndex, ∃ r ∈ s.asks, r.ask.askId = c.askId ∧
    r.settlementHash = c.receiptId ∧ r.state ≠ .minted

theorem inv_new : new.Inv :=
  ⟨List.nodup_nil, fun _ hr => absurd hr List.not_mem_nil, fun _ hc => absurd hc List.not_mem_nil⟩

variable {blake3 : List UInt8 → Bytes32} {jsonAsk : Ask → List UInt8}
  {jsonReceipt : Receipt → List UInt8} {s : Store}

/-! ## What a section does -/

/-- What a section answers and does to the tables: nothing, or one of the three writes. -/
inductive Effect (s : Store) : Section → Answer × Store → Prop
  | idle {sec : Section} {answer : Answer} {s' : Store} (hasks : s'.asks = s.asks)
      (hindex : s'.consumedReceiptIndex = s.consumedReceiptIndex)
      (hanswer : ∀ askId, (∀ hash, answer ≠ .settled askId hash) ∧ answer ≠ .consumed askId) :
      Effect s sec (answer, s')
  | minted {ask : Ask} {s' : Store} (hnew : ∀ r ∈ s.asks, r.ask.askId ≠ ask.askId)
      (hasks : s'.asks = s.asks ++ [⟨ask, zeroHash, .minted⟩])
      (hindex : s'.consumedReceiptIndex = s.consumedReceiptIndex) :
      Effect s (.mint ask) (.minted, s')
  | settled {call : Nat} {s' : Store} (p : PendingSettle) (hp : s.pending[call]? = some p)
      (hasks : s'.asks = s.asks.map (settleRow p.askId p.settlementHash))
      (hindex : s'.consumedReceiptIndex = s.consumedReceiptIndex) :
      Effect s (.settleWrite call) (.settled p.askId p.settlementHash, s')
  | consumed {receiptId : Bytes32} {s' : Store} (row : AskRow) (hrow : row ∈ s.asks)
      (hhash : row.settlementHash = receiptId)
      (hnew : ∀ c ∈ s.consumedReceiptIndex, c.receiptId ≠ receiptId)
      (hasks : s'.asks = s.asks.map (consumeRow row.ask.askId))
      (hindex : s'.consumedReceiptIndex =
        s.consumedReceiptIndex ++ [⟨receiptId, row.ask.askId⟩]) :
      Effect s (.consume receiptId) (.consumed row.ask.askId, s')

theorem Effect.failed (s : Store) (sec : Section) (e : SettlementError) :
    s.Effect sec (.failed e, s) :=
  .idle rfl rfl fun _ => ⟨fun _ h => (nomatch h), fun h => nomatch h⟩

theorem Effect.running {s' : Store} (sec : Section) (hasks : s'.asks = s.asks)
    (hindex : s'.consumedReceiptIndex = s.consumedReceiptIndex) : s.Effect sec (.running, s') :=
  .idle hasks hindex fun _ => ⟨fun _ h => (nomatch h), fun h => nomatch h⟩

theorem mint_effect (s : Store) (ask : Ask) : s.Effect (.mint ask) (s.mint ask) := by
  unfold mint
  split
  next => exact .failed s _ _
  next h =>
    refine .minted (fun r hr heq => h ?_) rfl rfl
    exact List.find?_isSome.mpr ⟨r, hr, decide_eq_true heq⟩

theorem settleRead_effect (s : Store) (askId : Bytes32) (receipt : Receipt) :
    s.Effect (.settleRead askId receipt)
      (s.settleRead blake3 jsonAsk jsonReceipt askId receipt) := by
  unfold settleRead
  split
  · exact .failed s _ _
  · dsimp only
    split
    · exact .failed s _ _
    · split
      · exact .failed s _ _
      · exact .running _ rfl rfl

theorem settleWrite_effect (s : Store) (call : Nat) :
    s.Effect (.settleWrite call) (s.settleWrite call) := by
  unfold settleWrite
  split
  · exact .running _ rfl rfl
  next p hp => exact .settled p hp rfl rfl

theorem consume_effect (s : Store) (receiptId : Bytes32) :
    s.Effect (.consume receiptId) (s.consume receiptId) := by
  unfold consume
  split
  · exact .failed s _ _
  next hnew =>
    split
    · exact .failed s _ _
    next row hrow =>
      have hhash : row.settlementHash = receiptId := by simpa using List.find?_some hrow
      refine .consumed row (List.mem_of_find?_eq_some hrow) hhash (fun c hc heq => hnew ?_) rfl rfl
      exact List.any_eq_true.mpr ⟨c, hc, decide_eq_true heq⟩

theorem step_effect (s : Store) (sec : Section) :
    s.Effect sec (s.step blake3 jsonAsk jsonReceipt sec) := by
  cases sec with
  | mint ask => exact mint_effect s ask
  | settleRead askId receipt => exact settleRead_effect s askId receipt
  | settleWrite call => exact settleWrite_effect s call
  | consume receiptId => exact consume_effect s receiptId

/-- A write that finds its ask minted touches no other row and none that is not minted. -/
theorem settleRow_of_not_minted (h : (s.asks.map (·.ask.askId)).Nodup) {askId : Bytes32}
    (hminted : s.stateOf askId = some .minted) (settlementHash : Bytes32) {r : AskRow}
    (hr : r ∈ s.asks) (hstate : r.state ≠ .minted) : settleRow askId settlementHash r = r := by
  refine settleRow_of_ne fun heq => hstate ?_
  obtain ⟨r', hr', hid, hminted'⟩ := (stateOf_eq_some_iff h).mp hminted
  rw [row_unique h hr hr' (heq.trans hid.symm)]
  exact hminted'

/-- What a row keeps through a section that is not disturbed, once it is past minted. -/
theorem Effect.past {sec : Section} {result : Answer × Store} (heffect : s.Effect sec result)
    (hunique : (s.asks.map (·.ask.askId)).Nodup) (hgood : s.Undisturbed sec) {r : AskRow}
    (hr : r ∈ s.asks) (hstate : r.state ≠ .minted) :
    r ∈ result.2.asks ∨ r.state = .settled ∧ { r with state := .consumed } ∈ result.2.asks := by
  cases heffect with
  | idle hasks _ _ =>
    rw [hasks]
    exact .inl hr
  | minted _ hasks _ =>
    rw [hasks]
    exact .inl (List.mem_append_left _ hr)
  | settled p hp hasks _ =>
    rw [hasks]
    exact .inl (List.mem_map.mpr
      ⟨r, hr, settleRow_of_not_minted hunique (hgood p hp) _ hr hstate⟩)
  | consumed row _ _ _ hasks _ =>
    rw [hasks]
    have hmem := List.mem_map_of_mem (f := consumeRow row.ask.askId) hr
    unfold consumeRow at hmem
    split at hmem
    next hcond => exact .inr ⟨hcond.2, hmem⟩
    next => exact .inl hmem

/-! ## The invariant is kept -/

theorem Effect.unique {sec : Section} {result : Answer × Store} (heffect : s.Effect sec result)
    (h : s.Inv) : (result.2.asks.map (·.ask.askId)).Nodup := by
  cases heffect with
  | idle hasks _ _ =>
    rw [hasks]
    exact h.unique
  | minted hnew hasks _ =>
    rw [hasks, List.map_append]
    refine List.Nodup.append h.unique (List.nodup_singleton _) ?_
    intro x hold hlast
    obtain ⟨r, hr, rfl⟩ := List.mem_map.mp hold
    exact hnew r hr (List.mem_singleton.mp hlast)
  | settled p _ hasks _ =>
    have hids : s.asks.map ((·.ask.askId) ∘ settleRow p.askId p.settlementHash) =
        s.asks.map (·.ask.askId) := List.map_congr_left fun r _ => askId_settleRow _ _ r
    rw [hasks, List.map_map, hids]
    exact h.unique
  | consumed row _ _ _ hasks _ =>
    have hids : s.asks.map ((·.ask.askId) ∘ consumeRow row.ask.askId) =
        s.asks.map (·.ask.askId) := List.map_congr_left fun r _ => askId_consumeRow _ r
    rw [hasks, List.map_map, hids]
    exact h.unique

theorem Effect.placeholder {sec : Section} {result : Answer × Store}
    (heffect : s.Effect sec result) (h : s.Inv) :
    ∀ r ∈ result.2.asks, r.state = .minted → r.settlementHash = zeroHash := by
  intro r hr hstate
  cases heffect with
  | idle hasks _ _ =>
    rw [hasks] at hr
    exact h.minted r hr hstate
  | minted _ hasks _ =>
    rw [hasks] at hr
    rcases List.mem_append.mp hr with hold | hlast
    · exact h.minted r hold hstate
    · rw [List.mem_singleton.mp hlast]
  | settled _ _ hasks _ =>
    rw [hasks] at hr
    obtain ⟨r', hr', rfl⟩ := List.mem_map.mp hr
    unfold settleRow at hstate ⊢
    split at hstate
    · cases hstate
    next hne =>
      rw [if_neg hne]
      exact h.minted r' hr' hstate
  | consumed _ _ _ _ hasks _ =>
    rw [hasks] at hr
    obtain ⟨r', hr', rfl⟩ := List.mem_map.mp hr
    rw [settlementHash_consumeRow]
    exact h.minted r' hr' (state_consumeRow_eq_minted_iff.mp hstate)

/-- A row past minted keeps its hash. -/
theorem Effect.keeps_hash {sec : Section} {result : Answer × Store}
    (heffect : s.Effect sec result) (hunique : (s.asks.map (·.ask.askId)).Nodup)
    (hgood : s.Undisturbed sec) {r : AskRow} (hr : r ∈ s.asks) (hstate : r.state ≠ .minted) :
    ∃ r' ∈ result.2.asks, r'.ask.askId = r.ask.askId ∧
      r'.settlementHash = r.settlementHash ∧ r'.state ≠ .minted := by
  rcases heffect.past hunique hgood hr hstate with hsame | ⟨-, hconsumed⟩
  · exact ⟨r, hsame, rfl, rfl, hstate⟩
  · exact ⟨_, hconsumed, rfl, rfl, by simp⟩

/-- An entry of the index is one of before, or that of the receipt of a `consume`. -/
theorem Effect.index_cases {sec : Section} {result : Answer × Store}
    (heffect : s.Effect sec result) {c : ConsumedReceipt}
    (hc : c ∈ result.2.consumedReceiptIndex) :
    c ∈ s.consumedReceiptIndex ∨
    ∃ row ∈ s.asks, c = ⟨row.settlementHash, row.ask.askId⟩ ∧ sec = .consume row.settlementHash := by
  cases heffect with
  | idle _ hindex _ => exact .inl (hindex ▸ hc)
  | minted _ _ hindex => exact .inl (hindex ▸ hc)
  | settled _ _ _ hindex => exact .inl (hindex ▸ hc)
  | consumed row hrow hhash _ _ hindex =>
    rw [hindex] at hc
    rcases List.mem_append.mp hc with hold | hnew
    · exact .inl hold
    · obtain rfl := List.mem_singleton.mp hnew
      exact .inr ⟨row, hrow, by rw [hhash], by rw [hhash]⟩

theorem step_inv (h : s.Inv) {sec : Section} (hgood : s.Undisturbed sec) :
    (s.step blake3 jsonAsk jsonReceipt sec).2.Inv := by
  have heffect : s.Effect sec (s.step blake3 jsonAsk jsonReceipt sec) := step_effect s sec
  refine ⟨heffect.unique h, heffect.placeholder h, fun c hc => ?_⟩
  -- an entry of before has its row still, and a new one is for a row that is not minted
  have hkept : ∀ r ∈ s.asks, r.ask.askId = c.askId → r.settlementHash = c.receiptId →
      r.state ≠ .minted → ∃ r' ∈ (s.step blake3 jsonAsk jsonReceipt sec).2.asks,
        r'.ask.askId = c.askId ∧ r'.settlementHash = c.receiptId ∧ r'.state ≠ .minted := by
    intro r hr hid hhash hstate
    obtain ⟨r', hr', hid', hhash', hstate'⟩ := heffect.keeps_hash h.unique hgood hr hstate
    exact ⟨r', hr', hid'.trans hid, hhash'.trans hhash, hstate'⟩
  rcases heffect.index_cases hc with hmem | ⟨row, hrow, rfl, hsec⟩
  · obtain ⟨r, hr, hid, hhash, hstate⟩ := h.indexed c hmem
    exact hkept r hr hid hhash hstate
  · subst hsec
    exact hkept row hrow rfl rfl fun hminted => hgood (h.minted row hrow hminted) row hrow hminted

/-- The invariant holds along a run that is not disturbed. -/
theorem along_inv {secs : List Section}
    (h : Along (step blake3 jsonAsk jsonReceipt) Undisturbed new secs) :
    Along (step blake3 jsonAsk jsonReceipt) (fun s sec => s.Inv ∧ s.Undisturbed sec) new secs := by
  have hstep : ∀ (s : Store) (sec : Section), s.Inv → s.Undisturbed sec →
      (s.step blake3 jsonAsk jsonReceipt sec).2.Inv ∧ s.Inv ∧ s.Undisturbed sec :=
    fun s sec hinv hgood => ⟨step_inv hinv hgood, hinv, hgood⟩
  exact along_induct hstep inv_new h

/-! ## Once -/

/-- The ask is past minted. -/
def Past (askId : Bytes32) (s : Store) : Prop :=
  ∃ r ∈ s.asks, r.ask.askId = askId ∧ r.state ≠ .minted

theorem past_step {askId : Bytes32} (h : s.Inv) {sec : Section} (hgood : s.Undisturbed sec)
    (hpast : Past askId s) : Past askId (s.step blake3 jsonAsk jsonReceipt sec).2 := by
  obtain ⟨r, hr, hid, hstate⟩ := hpast
  obtain ⟨r', hr', hid', -, hstate'⟩ := (step_effect s sec).keeps_hash h.unique hgood hr hstate
  exact ⟨r', hr', hid'.trans hid, hstate'⟩

/-- A `settle` that returns `Ok` takes its ask past minted. -/
theorem settled_step (h : s.Inv) {sec : Section} (hgood : s.Undisturbed sec) {askId : Bytes32}
    {settlementHash : Bytes32}
    (hans : (s.step blake3 jsonAsk jsonReceipt sec).1 = .settled askId settlementHash) :
    ¬Past askId s ∧ Past askId (s.step blake3 jsonAsk jsonReceipt sec).2 := by
  have heffect : s.Effect sec (s.step blake3 jsonAsk jsonReceipt sec) := step_effect s sec
  generalize s.step blake3 jsonAsk jsonReceipt sec = result at heffect hans ⊢
  cases heffect with
  | idle _ _ hanswer => exact absurd hans ((hanswer askId).1 settlementHash)
  | minted _ _ _ => cases hans
  | consumed _ _ _ _ _ _ => cases hans
  | settled p hp hasks _ =>
    obtain ⟨rfl, -⟩ := Answer.settled.inj hans
    obtain ⟨row, hrow, hid, hminted⟩ := (stateOf_eq_some_iff h.unique).mp (hgood p hp)
    refine ⟨fun hpast => ?_, settleRow p.askId p.settlementHash row, ?_, ?_, ?_⟩
    · obtain ⟨r, hr, hid', hstate⟩ := hpast
      rw [row_unique h.unique hr hrow (hid'.trans hid.symm)] at hstate
      exact hstate hminted
    · rw [hasks]
      exact List.mem_map_of_mem hrow
    · rw [askId_settleRow, hid]
    · rw [settleRow, if_pos hid]
      simp

/-- Some receipt is consumed for the ask. -/
def Indexed (askId : Bytes32) (s : Store) : Prop := ∃ c ∈ s.consumedReceiptIndex, c.askId = askId

/-- A `consume` that returns `Ok` is the first for its ask. -/
theorem consumed_step (h : s.Inv) {sec : Section} {askId : Bytes32}
    (hans : (s.step blake3 jsonAsk jsonReceipt sec).1 = .consumed askId) :
    ¬Indexed askId s ∧ Indexed askId (s.step blake3 jsonAsk jsonReceipt sec).2 := by
  have heffect : s.Effect sec (s.step blake3 jsonAsk jsonReceipt sec) := step_effect s sec
  generalize s.step blake3 jsonAsk jsonReceipt sec = result at heffect hans ⊢
  cases heffect with
  | idle _ _ hanswer => exact absurd hans (hanswer askId).2
  | minted _ _ _ => cases hans
  | settled _ _ _ _ => cases hans
  | @consumed receiptId _ row hrow hhash hnew _ hindex =>
    obtain rfl := Answer.consumed.inj hans
    refine ⟨fun hindexed => ?_, ⟨receiptId, row.ask.askId⟩, ?_, rfl⟩
    · -- the ask's hash has not changed since its receipt was consumed
      obtain ⟨c, hc, hid⟩ := hindexed
      obtain ⟨r, hr, hrid, hrhash, -⟩ := h.indexed c hc
      have hrow' := row_unique h.unique hr hrow (hrid.trans hid)
      exact hnew c hc (by rw [← hrhash, hrow', hhash])
    · rw [hindex]
      exact List.mem_append_right _ (List.mem_singleton_self _)

theorem indexed_step {askId : Bytes32} (s : Store) (sec : Section) (h : Indexed askId s) :
    Indexed askId (s.step blake3 jsonAsk jsonReceipt sec).2 := by
  obtain ⟨c, hc, hid⟩ := h
  have heffect : s.Effect sec (s.step blake3 jsonAsk jsonReceipt sec) := step_effect s sec
  generalize s.step blake3 jsonAsk jsonReceipt sec = result at heffect ⊢
  refine ⟨c, ?_, hid⟩
  cases heffect with
  | idle _ hindex _ => rwa [hindex]
  | minted _ _ hindex => rwa [hindex]
  | settled _ _ _ hindex => rwa [hindex]
  | consumed _ _ _ _ _ hindex =>
    rw [hindex]
    exact List.mem_append_left _ hc

theorem consumed_stays_step (h : s.Inv) {sec : Section} (hgood : s.Undisturbed sec)
    {askId : Bytes32} (hstate : s.stateOf askId = some .consumed) :
    (s.step blake3 jsonAsk jsonReceipt sec).2.stateOf askId = some .consumed := by
  obtain ⟨r, hr, hid, hconsumed⟩ := (stateOf_eq_some_iff h.unique).mp hstate
  refine (stateOf_eq_some_iff (step_inv h hgood).unique).mpr ⟨r, ?_, hid, hconsumed⟩
  have hpast : r.state ≠ .minted := by
    rw [hconsumed]
    simp
  rcases (step_effect s sec).past h.unique hgood hr hpast with hsame | ⟨hsettled, -⟩
  · exact hsame
  · rw [hconsumed] at hsettled
    cases hsettled

end Store

open Store in
/-- **Once.** In a run in which every `settle` writes to an ask that is still minted and the
placeholder is not consumed while an ask has it, an ask is settled at most once and consumed at
most once, and what is consumed stays so. -/
theorem settled_and_consumed_once (blake3 : List UInt8 → Bytes32) (jsonAsk : Ask → List UInt8)
    (jsonReceipt : Receipt → List UInt8) (secs : List Section)
    (h : Along (step blake3 jsonAsk jsonReceipt) Undisturbed new secs) :
    ((trace (step blake3 jsonAsk jsonReceipt) new secs).Pairwise fun a b =>
      ∀ askId, ¬((∃ hash, a.2 = .settled askId hash) ∧ ∃ hash, b.2 = .settled askId hash)) ∧
    ((trace (step blake3 jsonAsk jsonReceipt) new secs).Pairwise fun a b =>
      ∀ askId, ¬(a.2 = .consumed askId ∧ b.2 = .consumed askId)) ∧
    (∀ before after, secs = before ++ after → ∀ askId,
      (final (step blake3 jsonAsk jsonReceipt) new before).stateOf askId = some .consumed →
      (final (step blake3 jsonAsk jsonReceipt) new secs).stateOf askId = some .consumed) := by
  have hinv := along_inv h
  refine ⟨?_, ?_, ?_⟩
  · refine pairwise_of_spent_along Past (fun askId e => ∃ hash, e.2 = .settled askId hash)
      ?_ ?_ ?_ hinv
    · exact fun askId s sec hgood hpast => past_step hgood.1 hgood.2 hpast
    · intro askId s sec hgood hevent
      obtain ⟨hash, hans⟩ := hevent
      exact (settled_step hgood.1 hgood.2 hans).1
    · intro askId s sec hgood hevent
      obtain ⟨hash, hans⟩ := hevent
      exact (settled_step hgood.1 hgood.2 hans).2
  · refine pairwise_of_spent_along Indexed (fun askId e => e.2 = .consumed askId) ?_ ?_ ?_ hinv
    · exact fun askId s sec _ hindexed => indexed_step s sec hindexed
    · exact fun askId s sec hgood hans => (consumed_step hgood.1 hans).1
    · exact fun askId s sec hgood hans => (consumed_step hgood.1 hans).2
  · intro before after hsplit askId hconsumed
    rw [hsplit] at hinv ⊢
    rw [final_append]
    exact final_of_along (fun s => s.stateOf askId = some .consumed)
      (fun s sec hgood hstate => consumed_stays_step hgood.1 hgood.2 hstate) hconsumed
      (along_append.mp hinv).2

def sampleAsk : Ask where
  askId := Vector.replicate 32 1
  holderDid := "did:octo:holder-001"
  axesConsumed := [("input_tokens_per_1k", 100)]
  capRootHash := Vector.replicate 32 0x11
  invocationHash := Vector.replicate 32 0x22
  currentUnixTime := 1700000000
  outputHash := none

def sampleReceipt : Receipt where
  receiptId := zeroHash
  askId := sampleAsk.askId
  settlementHash := zeroHash
  routerId := "router-alpha"
  routerSig := []
  timestampUnix := 1700000010

def jsonList (items : List String) : String := "[" ++ ",".intercalate items ++ "]"

def jsonBytes (bytes : List UInt8) : String := jsonList (bytes.map fun b => toString b.toNat)

/-- The JSON of an ask whose strings have nothing to escape. -/
def plainJsonAsk (a : Ask) : List UInt8 :=
  asBytes ("\x7b\"ask_id\":" ++ jsonBytes a.askId.toList ++
    ",\"holder_did\":\"" ++ a.holderDid ++ "\",\"axes_consumed\":" ++
    jsonList (a.axesConsumed.map fun axis => jsonList ["\"" ++ axis.1 ++ "\"", toString axis.2]) ++
    ",\"cap_root_hash\":" ++ jsonBytes a.capRootHash.toList ++
    ",\"invocation_hash\":" ++ jsonBytes a.invocationHash.toList ++
    ",\"current_unix_time\":" ++ toString a.currentUnixTime ++
    ",\"output_hash\":" ++ ((a.outputHash.map fun h => jsonBytes h.toList).getD "null") ++ "\x7d")

/-- The JSON of a receipt whose strings have nothing to escape. -/
def plainJsonReceipt (r : Receipt) : List UInt8 :=
  asBytes ("\x7b\"receipt_id\":" ++ jsonBytes r.receiptId.toList ++
    ",\"ask_id\":" ++ jsonBytes r.askId.toList ++
    ",\"settlement_hash\":" ++ jsonBytes r.settlementHash.toList ++
    ",\"router_id\":\"" ++ r.routerId ++ "\",\"router_sig\":" ++ jsonBytes r.routerSig ++
    ",\"timestamp_unix\":" ++ toString r.timestampUnix ++ "\x7d")

/-- BLAKE3 of the JSON of the ask and the receipt. -/
def sampleHash : Bytes32 :=
  #v[86, 52, 164, 165, 227, 165, 182, 183, 65, 81, 1, 4, 178, 209, 87, 152,
    163, 150, 53, 182, 149, 58, 12, 171, 139, 143, 250, 255, 123, 243, 239, 233]

def sampleStep : Store → Section → Answer × Store :=
  Store.step (fun _ => sampleHash) plainJsonAsk plainJsonReceipt

/-- One thread mints, settles and consumes. -/
def sampleRun : List Section :=
  [.mint sampleAsk, .settleRead sampleAsk.askId sampleReceipt, .settleWrite 0, .consume sampleHash]

theorem settled_and_consumed_once_run :
    (trace sampleStep .new sampleRun).map Prod.snd =
      [.minted, .running, .settled sampleAsk.askId sampleHash, .consumed sampleAsk.askId] ∧
    (trace sampleStep .new sampleRun).Pairwise fun a b =>
      ∀ askId, ¬(a.2 = .consumed askId ∧ b.2 = .consumed askId) := by
  have hgood : Along sampleStep Store.Undisturbed .new sampleRun := by
    have hne : sampleHash ≠ zeroHash := by decide +kernel
    refine ⟨trivial, trivial, fun p hp => ?_, fun hzero => absurd hzero hne, trivial⟩
    obtain rfl := Option.some.inj hp
    rfl
  refine ⟨by decide +kernel, ?_⟩
  exact (settled_and_consumed_once (fun _ => sampleHash) plainJsonAsk plainJsonReceipt sampleRun
    hgood).2.1

/-- Two threads read a minted ask before either writes. -/
def racingSettles : List Section :=
  [.mint sampleAsk, .settleRead sampleAsk.askId sampleReceipt,
    .settleRead sampleAsk.askId sampleReceipt, .settleWrite 0]

/-- The second write settles the ask again, even when it is consumed; and the placeholder is
consumed for an ask that is consumed again when it is settled. -/
theorem racing_settles_and_placeholder :
    (trace sampleStep .new (racingSettles ++ [.settleWrite 0])).map Prod.snd =
      [.minted, .running, .running, .settled sampleAsk.askId sampleHash,
        .settled sampleAsk.askId sampleHash] ∧
    (final sampleStep .new (racingSettles ++ [.consume sampleHash])).stateOf sampleAsk.askId =
      some .consumed ∧
    (final sampleStep .new (racingSettles ++ [.consume sampleHash, .settleWrite 0])).stateOf
      sampleAsk.askId = some .settled ∧
    (trace sampleStep .new [.mint sampleAsk, .consume zeroHash,
        .settleRead sampleAsk.askId sampleReceipt, .settleWrite 0, .consume sampleHash]).map
        Prod.snd =
      [.minted, .consumed sampleAsk.askId, .running, .settled sampleAsk.askId sampleHash,
        .consumed sampleAsk.askId] := by
  decide +kernel

end CipherOcto.Settlement
