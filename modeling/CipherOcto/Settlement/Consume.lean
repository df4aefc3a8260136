import CipherOcto.Settlement.Store

/-!
# What a consume answers

One thread at a time, a call runs from end to end. `consume` finds the ask by its settlement
hash, and an ask that is not settled yet has the hash of zeros: the receipt of zeros is
consumed for an ask that is minted, which stays so.

`Consistent` is what the tables keep over any run, the receipt of zeros consumed or not.

> `consumes_settled_iff`: `consume` returns `Ok` exactly for the receipt of a settled ask, and
> consumes that ask, unless it is for the receipt of zeros, not consumed yet, while some ask
> is minted.

BLAKE3 is injective and never zero on the strings that the calls of a run may hash, and those
strings tell the asks apart.
-/

namespace CipherOcto.Settlement

open Encoding Trace

/-! ## The calls -/

/-- A call, by the only thread. -/
inductive Call where
  | mint (ask : Ask)
  | settle (askId : Bytes32) (receipt : Receipt)
  | consume (receiptId : Bytes32)

namespace Store

section

variable (blake3 : List UInt8 → Bytes32) (jsonAsk : Ask → List UInt8)
  (jsonReceipt : Receipt → List UInt8)

/-- `settle`: its two sections, nothing in between. -/
def settle (s : Store) (askId : Bytes32) (receipt : Receipt) : Answer × Store :=
  match s.settleRead blake3 jsonAsk jsonReceipt askId receipt with
  | (.running, read) => read.settleWrite s.pending.length
  | refused => refused

/-- One call of a run. -/
def call (s : Store) : Call → Answer × Store
  | .mint ask => s.mint ask
  | .settle askId receipt => s.settle blake3 jsonAsk jsonReceipt askId receipt
  | .consume receiptId => s.consume receiptId

end

end Store

/-! ## What is hashed -/

/-- The asks that a run mints. -/
def asksOf (calls : List Call) : List Ask :=
  calls.filterMap fun
    | .mint ask => some ask
    | _ => none

/-- The receipts that a run settles with. -/
def receiptsOf (calls : List Call) : List Receipt :=
  calls.filterMap fun
    | .settle _ receipt => some receipt
    | _ => none

section

variable (blake3 : List UInt8 → Bytes32) (jsonAsk : Ask → List UInt8)
  (jsonReceipt : Receipt → List UInt8) (calls : List Call)

/-- The strings that a run may hash. -/
def hashedStrings : List (List UInt8) :=
  (asksOf calls).flatMap fun a => (receiptsOf calls).map fun r => jsonAsk a ++ jsonReceipt r

/-- What the settlement hash relies on. -/
structure Binding : Prop where
  injOn : Set.InjOn blake3 {m | m ∈ hashedStrings jsonAsk jsonReceipt calls}
  ne_zero : ∀ m ∈ hashedStrings jsonAsk jsonReceipt calls, blake3 m ≠ zeroHash
  json : ∀ a ∈ asksOf calls, ∀ b ∈ asksOf calls, ∀ r ∈ receiptsOf calls, ∀ q ∈ receiptsOf calls,
    jsonAsk a ++ jsonReceipt r = jsonAsk b ++ jsonReceipt q → a.askId = b.askId

end

namespace Store

/-! ## What a consume is for -/

/-- The ask of the receipt is the one that is settled with it, and no other row changes. -/
structure ConsumesSettled (s : Store) (receiptId : Bytes32) : Prop where
  ok_iff : (∃ askId, (s.consume receiptId).1 = .consumed askId) ↔
    ∃! r, r ∈ s.asks ∧ r.state = .settled ∧ r.settlementHash = receiptId
  effect : ∀ askId, (s.consume receiptId).1 = .consumed askId →
    ∃ before r after, s.asks = before ++ r :: after ∧ r.ask.askId = askId ∧
      r.state = .settled ∧ r.settlementHash = receiptId ∧
      (s.consume receiptId).2.asks = before ++ { r with state := .consumed } :: after ∧
      (s.consume receiptId).2.consumedReceiptIndex =
        s.consumedReceiptIndex ++ [⟨receiptId, askId⟩]
  unchanged : ∀ e, (s.consume receiptId).1 = .failed e → (s.consume receiptId).2 = s

/-- The receipt of zeros, while it is not consumed and some ask has its hash. -/
def ForPlaceholder (s : Store) (receiptId : Bytes32) : Prop :=
  receiptId = zeroHash ∧ (∀ c ∈ s.consumedReceiptIndex, c.receiptId ≠ zeroHash) ∧
    ∃ r ∈ s.asks, r.state = .minted

section

variable {s : Store} {receiptId : Bytes32}

/-- How a consume ends: the receipt is consumed, nobody has it, or the first row that has it. -/
theorem consume_cases (s : Store) (receiptId : Bytes32) :
    ((∃ c ∈ s.consumedReceiptIndex, c.receiptId = receiptId) ∧
      s.consume receiptId = (.failed (.alreadyConsumed receiptId), s)) ∨
    (∀ c ∈ s.consumedReceiptIndex, c.receiptId ≠ receiptId) ∧
      ((∀ r ∈ s.asks, r.settlementHash ≠ receiptId) ∧
          s.consume receiptId = (.failed (.askNotFound receiptId), s) ∨
        ∃ row ∈ s.asks, row.settlementHash = receiptId ∧
          s.consume receiptId = (.consumed row.ask.askId, { s with
            asks := s.asks.map (consumeRow row.ask.askId)
            consumedReceiptIndex := s.consumedReceiptIndex ++ [⟨receiptId, row.ask.askId⟩] })) := by
  unfold consume
  split
  next hdup =>
    obtain ⟨c, hc, heq⟩ := List.any_eq_true.mp hdup
    exact .inl ⟨⟨c, hc, of_decide_eq_true heq⟩, rfl⟩
  next hnew =>
    refine .inr ⟨fun c hc heq => hnew (List.any_eq_true.mpr ⟨c, hc, decide_eq_true heq⟩), ?_⟩
    split
    next hnone =>
      exact .inl ⟨fun r hr heq => List.find?_eq_none.mp hnone r hr (decide_eq_true heq), rfl⟩
    next row hrow =>
      have hhash : row.settlementHash = receiptId := by simpa using List.find?_some hrow
      exact .inr ⟨row, List.mem_of_find?_eq_some hrow, hhash, rfl⟩

/-- A refusal is right where no settled ask has the receipt. -/
theorem consumesSettled_of_failed {e : SettlementError}
    (hconsume : s.consume receiptId = (.failed e, s))
    (hnone : ∀ r ∈ s.asks, r.state = .settled → r.settlementHash ≠ receiptId) :
    s.ConsumesSettled receiptId where
  ok_iff := by
    refine iff_of_false ?_ ?_
    · rintro ⟨askId, hok⟩
      rw [hconsume] at hok
      cases hok
    · rintro ⟨r, ⟨hr, hsettled, hhash⟩, -⟩
      exact hnone r hr hsettled hhash
  effect askId hok := by
    rw [hconsume] at hok
    cases hok
  unchanged _ _ := congrArg Prod.snd hconsume

/-- Consuming an ask changes its row, and no other one. -/
theorem map_consumeRow {before after : List AskRow} {r : AskRow}
    (h : ((before ++ r :: after).map (·.ask.askId)).Nodup) (hr : r.state = .settled) :
    (before ++ r :: after).map (consumeRow r.ask.askId) =
      before ++ { r with state := .consumed } :: after := by
  have hothers : ∀ q ∈ before ++ after, consumeRow r.ask.askId q = q := by
    intro q hq
    refine if_neg fun hcond => ?_
    rw [List.map_append, List.map_cons, List.nodup_middle] at h
    refine (List.nodup_cons.mp h).1 ?_
    rw [← hcond.1, ← List.map_append]
    exact List.mem_map_of_mem hq
  have hbefore : before.map (consumeRow r.ask.askId) = before :=
    (List.map_congr_left fun q hq => hothers q (List.mem_append_left _ hq)).trans (List.map_id _)
  have hafter : after.map (consumeRow r.ask.askId) = after :=
    (List.map_congr_left fun q hq => hothers q (List.mem_append_right _ hq)).trans (List.map_id _)
  rw [List.map_append, List.map_cons, hbefore, hafter, consumeRow, if_pos ⟨rfl, hr⟩]

end

/-! ## What a run keeps -/

/-- The tables, and nothing in flight, as some of the calls leave them. -/
structure Consistent (blake3 : List UInt8 → Bytes32) (jsonAsk : Ask → List UInt8)
    (jsonReceipt : Receipt → List UInt8) (calls : List Call) (s : Store) : Prop where
  idle : s.pending = []
  unique : (s.asks.map (·.ask.askId)).Nodup
  known : ∀ r ∈ s.asks, r.ask ∈ asksOf calls
  minted : ∀ r ∈ s.asks, r.state = .minted → r.settlementHash = zeroHash
  hashed : ∀ r ∈ s.asks, r.state ≠ .minted → ∃ q ∈ receiptsOf calls,
    r.settlementHash = blake3 (jsonAsk r.ask ++ jsonReceipt q)
  /-- But for the receipt of zeros, a receipt is consumed with its ask. -/
  indexed : ∀ c ∈ s.consumedReceiptIndex, c.receiptId ≠ zeroHash →
    ∃ r ∈ s.asks, r.settlementHash = c.receiptId ∧ r.state = .consumed
  consumed : ∀ r ∈ s.asks, r.state = .consumed →
    ∃ c ∈ s.consumedReceiptIndex, c.receiptId = r.settlementHash

section

variable {blake3 : List UInt8 → Bytes32} {jsonAsk : Ask → List UInt8}
  {jsonReceipt : Receipt → List UInt8} {calls : List Call} {s : Store}

theorem consistent_new : Consistent blake3 jsonAsk jsonReceipt calls new where
  idle := rfl
  unique := List.nodup_nil
  known _ hr := absurd hr List.not_mem_nil
  minted _ hr := absurd hr List.not_mem_nil
  hashed _ hr := absurd hr List.not_mem_nil
  indexed _ hc := absurd hc List.not_mem_nil
  consumed _ hr := absurd hr List.not_mem_nil

section

variable (h : Consistent blake3 jsonAsk jsonReceipt calls s)
  (hbinding : Binding blake3 jsonAsk jsonReceipt calls)
include h hbinding

/-- An ask that is not minted has one of the hashes. -/
theorem Consistent.hash_ne_zero {r : AskRow} (hr : r ∈ s.asks) (hstate : r.state ≠ .minted) :
    r.settlementHash ≠ zeroHash := by
  obtain ⟨q, hq, heq⟩ := h.hashed r hr hstate
  rw [heq]
  exact hbinding.ne_zero _ (List.mem_flatMap.mpr ⟨_, h.known r hr, List.mem_map_of_mem hq⟩)

theorem Consistent.minted_iff {r : AskRow} (hr : r ∈ s.asks) :
    r.state = .minted ↔ r.settlementHash = zeroHash := by
  refine ⟨h.minted r hr, fun hzero => ?_⟩
  by_contra hstate
  exact h.hash_ne_zero hbinding hr hstate hzero

/-- A hash is one ask's. -/
theorem Consistent.row_of_hash {r q : AskRow} (hr : r ∈ s.asks) (hq : q ∈ s.asks)
    (hstate : r.state ≠ .minted) (heq : r.settlementHash = q.settlementHash) : r = q := by
  have hstate' : q.state ≠ .minted := by
    rw [ne_eq, h.minted_iff hbinding hq, ← heq]
    exact h.hash_ne_zero hbinding hr hstate
  obtain ⟨x, hx, hrx⟩ := h.hashed r hr hstate
  obtain ⟨y, hy, hqy⟩ := h.hashed q hq hstate'
  have hstrings := hbinding.injOn
    (List.mem_flatMap.mpr ⟨_, h.known r hr, List.mem_map_of_mem hx⟩)
    (List.mem_flatMap.mpr ⟨_, h.known q hq, List.mem_map_of_mem hy⟩) (hrx ▸ hqy ▸ heq)
  exact row_unique h.unique hr hq
    (hbinding.json _ (h.known r hr) _ (h.known q hq) _ hx _ hy hstrings)

/-- The first row that has the hash of a settled ask is that ask's. -/
theorem Consistent.consumesSettled_of_row {row : AskRow} (hrow : row ∈ s.asks)
    (hsettled : row.state = .settled)
    (hconsume : s.consume row.settlementHash = (.consumed row.ask.askId, { s with
      asks := s.asks.map (consumeRow row.ask.askId)
      consumedReceiptIndex :=
        s.consumedReceiptIndex ++ [⟨row.settlementHash, row.ask.askId⟩] })) :
    s.ConsumesSettled row.settlementHash := by
  have hpast : row.state ≠ .minted := by simp [hsettled]
  refine ⟨iff_of_true ⟨_, congrArg Prod.fst hconsume⟩ ⟨row, ⟨hrow, hsettled, rfl⟩, ?_⟩,
    fun askId hok => ?_, fun e herr => ?_⟩
  · rintro q ⟨hq, -, hhash⟩
    exact (h.row_of_hash hbinding hrow hq hpast hhash.symm).symm
  · rw [hconsume] at hok ⊢
    obtain rfl := Answer.consumed.inj hok
    obtain ⟨before, after, hsplit⟩ := List.append_of_mem hrow
    have hunique := h.unique
    rw [hsplit] at hunique
    refine ⟨before, row, after, hsplit, rfl, hsettled, rfl, ?_, rfl⟩
    show s.asks.map (consumeRow row.ask.askId) = _
    rw [hsplit, map_consumeRow hunique hsettled]
  · rw [hconsume] at herr
    cases herr

/-- **A consume where the tables are consistent** is right, but for the receipt of zeros. -/
theorem Consistent.consumesSettled_iff (receiptId : Bytes32) :
    s.ConsumesSettled receiptId ↔ ¬s.ForPlaceholder receiptId := by
  rcases consume_cases s receiptId with ⟨⟨c, hc, rfl⟩, hconsume⟩ |
    ⟨hnew, ⟨hnone, hconsume⟩ | ⟨row, hrow, rfl, hconsume⟩⟩
  · refine iff_of_true (consumesSettled_of_failed hconsume fun r hr hsettled hhash => ?_)
      fun hzero => hzero.2.1 c hc hzero.1
    have hpast : r.state ≠ .minted := by simp [hsettled]
    -- the receipt was consumed with the ask, which cannot be settled still
    obtain ⟨q, hq, hqhash, hconsumed⟩ :=
      h.indexed c hc (hhash ▸ h.hash_ne_zero hbinding hr hpast)
    rw [h.row_of_hash hbinding hr hq hpast (hhash.trans hqhash.symm), hconsumed] at hsettled
    cases hsettled
  · refine iff_of_true (consumesSettled_of_failed hconsume fun r hr _ => hnone r hr) ?_
    rintro ⟨rfl, -, r, hr, hminted⟩
    exact hnone r hr (h.minted r hr hminted)
  · by_cases hminted : row.state = .minted
    · have hzero := h.minted row hrow hminted
      refine iff_of_false (fun hright => ?_)
        (not_not_intro ⟨hzero, hzero ▸ hnew, row, hrow, hminted⟩)
      obtain ⟨r, ⟨hr, hsettled, hhash⟩, -⟩ := hright.ok_iff.mp ⟨_, congrArg Prod.fst hconsume⟩
      rw [(h.minted_iff hbinding hr).mpr (hhash.trans hzero)] at hsettled
      cases hsettled
    · have hsettled : row.state = .settled := by
        cases hstate : row.state with
        | minted => exact absurd hstate hminted
        | settled => rfl
        | consumed =>
          obtain ⟨c, hc, heq⟩ := h.consumed row hrow hstate
          exact absurd heq (hnew c hc)
      exact iff_of_true (h.consumesSettled_of_row hbinding hrow hsettled hconsume)
        fun hzero => h.hash_ne_zero hbinding hrow hminted hzero.1

end

/-! ### Calls -/

@[simp] theorem ask_settleRow (askId settlementHash : Bytes32) (r : AskRow) :
    (settleRow askId settlementHash r).ask = r.ask := by
  unfold settleRow
  split
  · rfl
  · rfl

@[simp] theorem ask_consumeRow (askId : Bytes32) (r : AskRow) :
    (consumeRow askId r).ask = r.ask := by
  unfold consumeRow
  split
  · rfl
  · rfl

/-- What is consumed was so before, or is the settled ask. -/
theorem state_consumeRow_eq_consumed_iff {askId : Bytes32} {r : AskRow} :
    (consumeRow askId r).state = .consumed ↔
      r.state = .consumed ∨ r.ask.askId = askId ∧ r.state = .settled := by
  unfold consumeRow
  split
  next hcond => exact iff_of_true rfl (Or.inr hcond)
  next hcond => exact (or_iff_left hcond).symm

/-- Rows that keep their asks keep them unique. -/
theorem unique_map {asks : List AskRow} {f : AskRow → AskRow}
    (hf : ∀ r, (f r).ask.askId = r.ask.askId) (h : (asks.map (·.ask.askId)).Nodup) :
    ((asks.map f).map (·.ask.askId)).Nodup := by
  have hids : asks.map ((·.ask.askId) ∘ f) = asks.map (·.ask.askId) :=
    List.map_congr_left fun r _ => hf r
  rw [List.map_map, hids]
  exact h

/-- A settle is refused, or writes the hash to the row of a minted ask. -/
theorem settle_cases (hidle : s.pending = []) (askId : Bytes32) (receipt : Receipt) :
    (s.settle blake3 jsonAsk jsonReceipt askId receipt).2 = s ∨
    ∃ row ∈ s.asks, row.ask.askId = askId ∧ row.state = .minted ∧
      (s.settle blake3 jsonAsk jsonReceipt askId receipt).2 = { s with
        asks := s.asks.map
          (settleRow askId (blake3 (jsonAsk row.ask ++ jsonReceipt receipt))) } := by
  unfold settle settleRead
  cases hrow : s.rowOf askId with
  | none => exact .inl rfl
  | some stored =>
    have hmem : stored ∈ s.asks := List.mem_of_find?_eq_some hrow
    have hid : stored.ask.askId = askId := by simpa using List.find?_some hrow
    by_cases hreceipt : receipt.askId = askId
    · by_cases hminted : stored.state = .minted
      · refine .inr ⟨stored, hmem, hid, hminted, ?_⟩
        simp only [hreceipt, hminted, ne_eq, not_true_eq_false, if_false, hidle]
        rw [settleWrite]
        simp
      · left
        simp only [hreceipt, hminted, ne_eq, not_true_eq_false, not_false_eq_true, if_true,
          if_false]
    · left
      simp only [hreceipt, ne_eq, not_false_eq_true, if_true]

section

variable (h : Consistent blake3 jsonAsk jsonReceipt calls s)
include h

theorem Consistent.mint {ask : Ask} (hask : ask ∈ asksOf calls) :
    Consistent blake3 jsonAsk jsonReceipt calls (s.mint ask).2 := by
  unfold Store.mint
  split
  next => exact h
  next hfresh =>
    have hnew : ask.askId ∉ s.asks.map (·.ask.askId) := by
      intro hmem
      obtain ⟨r, hr, heq⟩ := List.mem_map.mp hmem
      exact hfresh (List.find?_isSome.mpr ⟨r, hr, decide_eq_true heq⟩)
    -- a row is one of before, or the new one, which is minted
    have hold : ∀ r ∈ s.asks ++ [⟨ask, zeroHash, .minted⟩], r.state ≠ .minted → r ∈ s.asks := by
      intro r hr hstate
      rcases List.mem_append.mp hr with hmem | hlast
      · exact hmem
      · rw [List.mem_singleton.mp hlast] at hstate
        exact absurd rfl hstate
    refine ⟨h.idle, ?_, fun r hr => ?_, fun r hr hminted => ?_, fun r hr hstate => ?_,
      fun c hc hne => ?_, fun r hr hconsumed => ?_⟩
    · rw [List.map_append, List.map_singleton, ← List.concat_eq_append]
      exact List.Nodup.concat hnew h.unique
    · rcases List.mem_append.mp hr with hmem | hlast
      · exact h.known r hmem
      · rw [List.mem_singleton.mp hlast]
        exact hask
    · rcases List.mem_append.mp hr with hmem | hlast
      · exact h.minted r hmem hminted
      · rw [List.mem_singleton.mp hlast]
    · exact h.hashed r (hold r hr hstate) hstate
    · obtain ⟨r, hr, hhash, hconsumed⟩ := h.indexed c hc hne
      exact ⟨r, List.mem_append_left _ hr, hhash, hconsumed⟩
    · exact h.consumed r (hold r hr (by simp [hconsumed])) hconsumed

/-- Rows that are rewritten in place keep their asks, so these stay unique and known. -/
theorem Consistent.map {f : AskRow → AskRow} (index : List ConsumedReceipt)
    (hask : ∀ r, (f r).ask = r.ask)
    (hminted : ∀ r ∈ s.asks, (f r).state = .minted → (f r).settlementHash = zeroHash)
    (hhashed : ∀ r ∈ s.asks, (f r).state ≠ .minted → ∃ q ∈ receiptsOf calls,
      (f r).settlementHash = blake3 (jsonAsk r.ask ++ jsonReceipt q))
    (hindexed : ∀ c ∈ index, c.receiptId ≠ zeroHash →
      ∃ r ∈ s.asks, (f r).settlementHash = c.receiptId ∧ (f r).state = .consumed)
    (hconsumed : ∀ r ∈ s.asks, (f r).state = .consumed →
      ∃ c ∈ index, c.receiptId = (f r).settlementHash) :
    Consistent blake3 jsonAsk jsonReceipt calls
      { s with asks := s.asks.map f, consumedReceiptIndex := index } where
  idle := h.idle
  unique := unique_map (fun r => by rw [hask]) h.unique
  known := List.forall_mem_map.mpr fun r hr => by
    rw [hask]
    exact h.known r hr
  minted := List.forall_mem_map.mpr hminted
  hashed := List.forall_mem_map.mpr fun r hr => by
    rw [hask]
    exact hhashed r hr
  indexed c hc hne := by
    obtain ⟨r, hr, hkept⟩ := hindexed c hc hne
    exact ⟨f r, List.mem_map_of_mem hr, hkept⟩
  consumed := List.forall_mem_map.mpr hconsumed

theorem Consistent.settle {askId : Bytes32} {receipt : Receipt}
    (hreceipt : receipt ∈ receiptsOf calls) :
    Consistent blake3 jsonAsk jsonReceipt calls
      (s.settle blake3 jsonAsk jsonReceipt askId receipt).2 := by
  rcases settle_cases h.idle askId receipt with hsame | ⟨row, hrow, hid, hminted, hset⟩
  · rw [hsame]
    exact h
  · rw [hset]
    generalize hhash : blake3 (jsonAsk row.ask ++ jsonReceipt receipt) = settlementHash
    have hstate : s.stateOf askId = some .minted :=
      (stateOf_eq_some_iff h.unique).mpr ⟨row, hrow, hid, hminted⟩
    have hpast : ∀ r ∈ s.asks, r.state ≠ .minted → settleRow askId settlementHash r = r :=
      fun r hr => settleRow_of_not_minted h.unique hstate settlementHash hr
    refine h.map s.consumedReceiptIndex (ask_settleRow askId settlementHash) (fun r hr hm => ?_)
      (fun r hr hm => ?_) (fun c hc hne => ?_) (fun r hr hconsumed => ?_)
    · unfold settleRow at hm ⊢
      split at hm
      · cases hm
      next hne =>
        rw [if_neg hne]
        exact h.minted r hr hm
    · by_cases htarget : r.ask.askId = askId
      · refine ⟨receipt, hreceipt, ?_⟩
        rw [row_unique h.unique hr hrow (htarget.trans hid.symm), hhash, settleRow, if_pos hid]
      · rw [settleRow_of_ne htarget] at hm ⊢
        exact h.hashed r hr hm
    · obtain ⟨r, hr, hrhash, hconsumed⟩ := h.indexed c hc hne
      refine ⟨r, hr, ?_⟩
      rw [hpast r hr (by simp [hconsumed])]
      exact ⟨hrhash, hconsumed⟩
    · unfold settleRow at hconsumed ⊢
      split at hconsumed
      · cases hconsumed
      next hne =>
        rw [if_neg hne]
        exact h.consumed r hr hconsumed

theorem Consistent.consume (receiptId : Bytes32) :
    Consistent blake3 jsonAsk jsonReceipt calls (s.consume receiptId).2 := by
  rcases consume_cases s receiptId with ⟨-, hconsume⟩ |
    ⟨-, ⟨-, hconsume⟩ | ⟨row, hrow, rfl, hconsume⟩⟩
  · rw [hconsume]
    exact h
  · rw [hconsume]
    exact h
  · rw [hconsume]
    refine h.map _ (ask_consumeRow row.ask.askId) (fun r hr hm => ?_) (fun r hr hm => ?_)
      (fun c hc hne => ?_) (fun r hr hconsumed => ?_)
    · rw [settlementHash_consumeRow]
      exact h.minted r hr (state_consumeRow_eq_minted_iff.mp hm)
    · rw [settlementHash_consumeRow]
      exact h.hashed r hr fun hminted => hm (state_consumeRow_eq_minted_iff.mpr hminted)
    · rcases List.mem_append.mp hc with hold | hlast
      · obtain ⟨r, hr, hhash, hconsumed⟩ := h.indexed c hold hne
        refine ⟨r, hr, ?_, state_consumeRow_eq_consumed_iff.mpr (Or.inl hconsumed)⟩
        rw [settlementHash_consumeRow, hhash]
      · obtain rfl := List.mem_singleton.mp hlast
        refine ⟨row, hrow, settlementHash_consumeRow _ _,
          state_consumeRow_eq_consumed_iff.mpr ?_⟩
        -- a row of the hash of zeros is left out, so the consumed one is past its minting
        cases hstate : row.state with
        | minted => exact absurd (h.minted row hrow hstate) hne
        | settled => exact Or.inr ⟨rfl, rfl⟩
        | consumed => exact Or.inl rfl
    · rw [settlementHash_consumeRow]
      rcases state_consumeRow_eq_consumed_iff.mp hconsumed with hbefore | ⟨hid, -⟩
      · obtain ⟨c, hc, heq⟩ := h.consumed r hr hbefore
        exact ⟨c, List.mem_append_left _ hc, heq⟩
      · rw [row_unique h.unique hr hrow hid]
        exact ⟨_, List.mem_append_right _ (List.mem_singleton_self _), rfl⟩

end

theorem consistent_call (h : Consistent blake3 jsonAsk jsonReceipt calls s) {c : Call}
    (hc : c ∈ calls) :
    Consistent blake3 jsonAsk jsonReceipt calls (s.call blake3 jsonAsk jsonReceipt c).2 := by
  cases c with
  | mint ask => exact h.mint (List.mem_filterMap.mpr ⟨_, hc, rfl⟩)
  | settle askId receipt => exact h.settle (List.mem_filterMap.mpr ⟨_, hc, rfl⟩)
  | consume receiptId => exact h.consume receiptId

/-- A run of known calls keeps the tables consistent. -/
theorem consistent_final (h : Consistent blake3 jsonAsk jsonReceipt calls s) {run : List Call}
    (hrun : ∀ c ∈ run, c ∈ calls) :
    Consistent blake3 jsonAsk jsonReceipt calls
      (final (call blake3 jsonAsk jsonReceipt) s run) := by
  induction run generalizing s with
  | nil => exact h
  | cons c run ih =>
    exact ih (consistent_call h (hrun c List.mem_cons_self))
      fun d hd => hrun d (List.mem_cons_of_mem _ hd)

end

end Store

open Store in
/-- **A consume is for a settled ask**, which it consumes, in every state that calls lead to and
for every receipt, but for the receipt of zeros while it is not consumed and some ask is
minted. -/
theorem consumes_settled_iff (blake3 : List UInt8 → Bytes32) (jsonAsk : Ask → List UInt8)
    (jsonReceipt : Receipt → List UInt8) (calls : List Call)
    (h : Binding blake3 jsonAsk jsonReceipt calls) (receiptId : Bytes32) :
    (final (call blake3 jsonAsk jsonReceipt) new calls).ConsumesSettled receiptId ↔
      ¬(final (call blake3 jsonAsk jsonReceipt) new calls).ForPlaceholder receiptId :=
  (consistent_final consistent_new fun _ hc => hc).consumesSettled_iff h receiptId

def sampleCall : Store → Call → Answer × Store :=
  Store.call (fun _ => sampleHash) plainJsonAsk plainJsonReceipt

def sampleCalls : List Call := [.mint sampleAsk, .settle sampleAsk.askId sampleReceipt]

/-- One ask is settled and nothing is minted. -/
theorem consumes_settled_iff_sample :
    (final sampleCall .new sampleCalls).ConsumesSettled sampleHash ∧
    ((final sampleCall .new sampleCalls).consume sampleHash).1 = .consumed sampleAsk.askId := by
  have hne : sampleHash ≠ zeroHash := by decide +kernel
  have hone : ∀ m ∈ hashedStrings plainJsonAsk plainJsonReceipt sampleCalls,
      m = plainJsonAsk sampleAsk ++ plainJsonReceipt sampleReceipt :=
    fun m hm => List.mem_singleton.mp hm
  have hbinding : Binding (fun _ => sampleHash) plainJsonAsk plainJsonReceipt sampleCalls := by
    refine ⟨fun m hm q hq _ => (hone m hm).trans (hone q hq).symm, fun _ _ => hne, ?_⟩
    intro a ha b hb _ _ _ _ _
    rw [List.mem_singleton.mp ha, List.mem_singleton.mp hb]
  refine ⟨?_, by decide +kernel⟩
  exact (consumes_settled_iff (fun _ => sampleHash) plainJsonAsk plainJsonReceipt sampleCalls
    hbinding sampleHash).mpr fun hzero => hne hzero.1

/-- The receipt of zeros is consumed for an ask that is minted, and stays so. -/
theorem placeholder_is_consumed :
    (final sampleCall .new [.mint sampleAsk, .consume zeroHash]).stateOf sampleAsk.askId =
      some .minted ∧
    ((final sampleCall .new [.mint sampleAsk]).consume zeroHash).1 = .consumed sampleAsk.askId ∧
    ¬(final sampleCall .new [.mint sampleAsk]).ConsumesSettled zeroHash := by
  refine ⟨by decide +kernel, by decide +kernel, fun h => ?_⟩
  obtain ⟨r, ⟨hr, hsettled, -⟩, -⟩ := h.ok_iff.mp ⟨sampleAsk.askId, by decide +kernel⟩
  rw [List.mem_singleton.mp hr] at hsettled
  cases hsettled

end CipherOcto.Settlement
