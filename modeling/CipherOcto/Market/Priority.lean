import CipherOcto.Market.OrderBook

/-!
# Price-time priority

At a price the book goes by sequence numbers, and an order that a match leaves a
rest of goes back under a fresh one. So it goes behind every other order that
rests at its price, however much later that one was placed.

Over the labelled runs of `OrderBook`, `InTurn` says that at every price the
orders stand in the order of their placements. A step keeps it exactly when it
meets `KeepsPlace` (`inTurn_step`): a match that leaves a rest of an order finds
no other order at its price. `price_time_priority` carries this over whole runs.
-/

namespace CipherOcto.Market

open Encoding Cap

/-! ## One ladder -/

section Ladder

variable {ρ Spec : Type} [LinearOrder ρ] {rank : ℕ ≃ ρ}

/-- At a price, orders stand in the order of their placements. -/
def Ladder.InTurn (m : Ladder ρ (Nat × Spec)) : Prop :=
  ∀ e ∈ m.entries, ∀ e' ∈ m.entries, e.2.price = e'.2.price → e.1 < e'.1 →
    e.2.spec.1 < e'.2.spec.1

/-- All orders are of placements before `n`. -/
def Ladder.LabelledBelow (n : Nat) (m : Ladder ρ (Nat × Spec)) : Prop :=
  ∀ e ∈ m.entries, e.2.spec.1 < n

theorem KeptBelow.lt_key {n price : Nat} {m : Ladder ρ Spec} (h : KeptBelow rank n m)
    {e : (ρ ×ₗ ℕ) × Order Spec} (he : e ∈ m.entries) (hprice : e.2.price = price) :
    e.1 < key rank price n := by
  obtain ⟨hrank, hseq⟩ := h e he
  refine Prod.Lex.lt_iff.mpr (Or.inr ⟨?_, hseq⟩)
  rw [hrank, hprice]
  rfl

/-- An order put in at its price goes behind the others there. -/
theorem inTurn_insert {n : Nat} {m : Ladder ρ (Nat × Spec)} (hkept : KeptBelow rank n m)
    (hturn : m.InTurn) (o : Order (Nat × Spec)) :
    Ladder.InTurn (m.insert (key rank o.price n) o) ↔
      ∀ e ∈ m.entries, e.2.price = o.price → e.2.spec.1 < o.spec.1 := by
  have hmem : ∀ {e}, e = (key rank o.price n, o) ∨ e ∈ m.entries →
      e ∈ (m.insert (key rank o.price n) o).entries := by
    intro e he
    exact (SortedMap.insert_perm o (hkept.fresh o.price)).mem_iff.mpr (List.mem_cons.mpr he)
  constructor
  · intro h e he hprice
    exact h e (hmem (Or.inr he)) _ (hmem (Or.inl rfl)) hprice (hkept.lt_key he hprice)
  · intro h e he e' he' hprice hlt
    rcases SortedMap.mem_insertEntry he with rfl | hold
    · rcases SortedMap.mem_insertEntry he' with rfl | hold'
      · exact absurd hlt (lt_irrefl _)
      · exact absurd hlt (hkept.lt_key hold' hprice.symm).asymm
    · rcases SortedMap.mem_insertEntry he' with rfl | hold'
      · exact h e hold hprice
      · exact hturn e hold e' hold' hprice hlt

/-- The first order was placed before all others at its price. -/
theorem Ladder.InTurn.first {m : Ladder ρ (Nat × Spec)} (hturn : m.InTurn) {k : ρ ×ₗ ℕ}
    {o : Order (Nat × Spec)} {es : List ((ρ ×ₗ ℕ) × Order (Nat × Spec))}
    (hes : m.entries = (k, o) :: es) {e : (ρ ×ₗ ℕ) × Order (Nat × Spec)} (he : e ∈ es)
    (hprice : e.2.price = o.price) : o.spec.1 < e.2.spec.1 := by
  have hsorted := m.sorted
  unfold Ladder.InTurn at hturn
  rw [hes] at hsorted hturn
  exact hturn (k, o) List.mem_cons_self e (List.mem_cons_of_mem _ he) hprice.symm
    ((List.pairwise_cons.mp hsorted).1 e he)

/-- Taking out the first order and putting back its residual keeps the turns
exactly when there is no residual or no other order at its price. -/
theorem inTurn_refill {n n' r : Nat} {m m' : Ladder ρ (Nat × Spec)} {k : ρ ×ₗ ℕ}
    {o : Order (Nat × Spec)} {es : List ((ρ ×ₗ ℕ) × Order (Nat × Spec))}
    (hkept : KeptBelow rank n m) (hturn : m.InTurn) (hes : m.entries = (k, o) :: es)
    (h : putBack rank (m.erase k) o r n = some (m', n')) :
    m'.InTurn ↔ (0 < r → ∀ e ∈ es, e.2.price ≠ o.price) := by
  have herase : (m.erase k).entries = es := SortedMap.erase_first hes
  have hrest : Ladder.InTurn (m.erase k) := by
    intro e he e' he'
    exact hturn e (List.mem_of_mem_filter he) e' (List.mem_of_mem_filter he')
  obtain ⟨hzero, rfl, -⟩ | ⟨hpos, rfl, -⟩ := putBack_cases h
  · exact iff_of_true hrest fun hpos => absurd hzero hpos.ne'
  · rw [inTurn_insert (hkept.erase k) hrest { o with qty := r }, herase]
    constructor
    · intro hearlier _ e he hprice
      exact absurd (hearlier e he hprice) (hturn.first hes he hprice).asymm
    · intro hnone e he hprice
      exact absurd hprice (hnone hpos e he)

theorem labelledBelow_refill {n s s' r : Nat} {m m' : Ladder ρ (Nat × Spec)} {k : ρ ×ₗ ℕ}
    {o : Order (Nat × Spec)} (hlabels : m.LabelledBelow n) (hes : ∃ es, m.entries = (k, o) :: es)
    (h : putBack rank (m.erase k) o r s = some (m', s')) : m'.LabelledBelow n := by
  obtain ⟨es, hes⟩ := hes
  have hfirst : o.spec.1 < n := hlabels (k, o) (by rw [hes]; exact List.mem_cons_self)
  obtain ⟨-, rfl, -⟩ | ⟨-, rfl, -⟩ := putBack_cases h
  · exact fun e he => hlabels e (List.mem_of_mem_filter he)
  · intro e he
    rcases SortedMap.mem_insertEntry he with rfl | hold
    · exact hfirst
    · exact hlabels e (List.mem_of_mem_filter hold)

end Ladder

/-! ## One step -/

section Step

variable {Spec : Type}

structure OrderBook.InTurn (b : OrderBook (Nat × Spec)) : Prop where
  bids : b.bids.InTurn
  asks : b.asks.InTurn

structure OrderBook.LabelledBelow (n : Nat) (b : OrderBook (Nat × Spec)) : Prop where
  bids : b.bids.LabelledBelow n
  asks : b.asks.LabelledBelow n

/-- A match that leaves a rest of an order finds no other order at its price. -/
def KeepsPlace (b : OrderBook Spec) : BookOp Spec → Prop
  | .matchTop =>
    ∀ bid ask, b.bestBid = some bid → b.bestAsk = some ask → ask.price ≤ bid.price →
      (ask.qty < bid.qty → ∀ o ∈ b.bids.values.tail, o.price ≠ bid.price) ∧
      (bid.qty < ask.qty → ∀ o ∈ b.asks.values.tail, o.price ≠ ask.price)
  | _ => True

/-- The orders of a match were placed before all others that have a quantity left at
their prices. -/
def FirstPlaced (b : OrderBook (Nat × Spec)) (op : BookOp (Nat × Spec)) : Prop :=
  ∀ m b', op = .matchTop → b.matchTop = some (some m, b') →
    (∀ o ∈ b.bids.values, o.price = m.bid.price → 0 < o.qty → m.bid.spec.1 ≤ o.spec.1) ∧
    ∀ o ∈ b.asks.values, o.price = m.ask.price → 0 < o.qty → m.ask.spec.1 ≤ o.spec.1

theorem inTurn_new : (OrderBook.new : OrderBook (Nat × Spec)).InTurn :=
  ⟨fun _ he => absurd he List.not_mem_nil, fun _ he => absurd he List.not_mem_nil⟩

theorem labelledBelow_new : (OrderBook.new : OrderBook (Nat × Spec)).LabelledBelow 0 :=
  ⟨fun _ he => absurd he List.not_mem_nil, fun _ he => absurd he List.not_mem_nil⟩

theorem Matches.keepsPlace_iff {b b' : OrderBook Spec} {m : MatchPair Spec} {kb : ℕᵒᵈ ×ₗ ℕ}
    {ka : ℕ ×ₗ ℕ} {seq : Nat} (h : Matches b b' m kb ka seq)
    {bes : List ((ℕᵒᵈ ×ₗ ℕ) × Order Spec)} (hbes : b.bids.entries = (kb, m.bid) :: bes)
    {aes : List ((ℕ ×ₗ ℕ) × Order Spec)} (haes : b.asks.entries = (ka, m.ask) :: aes) :
    KeepsPlace b .matchTop ↔
      (0 < m.bid.qty - m.qty → ∀ e ∈ bes, e.2.price ≠ m.bid.price) ∧
      (0 < m.ask.qty - m.qty → ∀ e ∈ aes, e.2.price ≠ m.ask.price) := by
  have hbid : b.bestBid = some m.bid := by
    unfold OrderBook.bestBid SortedMap.values
    rw [hbes]
    rfl
  have hask : b.bestAsk = some m.ask := by
    unfold OrderBook.bestAsk SortedMap.values
    rw [haes]
    rfl
  have hqty : ∀ p q : Nat, 0 < p - min p q ↔ q < p := by
    intro p q
    omega
  rw [h.qty, hqty, Nat.min_comm, hqty]
  unfold KeepsPlace SortedMap.values
  simp only [hbid, hask, Option.some.injEq, hbes, haes, List.map_cons, List.tail_cons,
    List.forall_mem_map]
  constructor
  · intro hall
    exact hall m.bid m.ask rfl rfl h.crosses
  · intro hall bid ask hbid' hask' _
    subst hbid' hask'
    exact hall

theorem Matches.inTurn_iff {b b' : OrderBook (Nat × Spec)} {m : MatchPair (Nat × Spec)}
    {kb : ℕᵒᵈ ×ₗ ℕ} {ka : ℕ ×ₗ ℕ} {seq : Nat} (h : Matches b b' m kb ka seq) (hkept : Kept b)
    (hturn : b.InTurn) : b'.InTurn ↔ KeepsPlace b .matchTop := by
  obtain ⟨bes, hbes⟩ := h.bid
  obtain ⟨aes, haes⟩ := h.ask
  rw [h.keepsPlace_iff hbes haes, ← inTurn_refill hkept.bids hturn.bids hbes h.bids,
    ← inTurn_refill (h.asks_kept hkept) hturn.asks haes h.asks]
  exact ⟨fun ht => ⟨ht.bids, ht.asks⟩, fun ht => ⟨ht.1, ht.2⟩⟩

theorem Ladder.LabelledBelow.mono {ρ : Type} [LinearOrder ρ] {n n' : Nat}
    {m : Ladder ρ (Nat × Spec)} (h : m.LabelledBelow n) (hle : n ≤ n') : m.LabelledBelow n' :=
  fun e he => (h e he).trans_le hle

/-- A new order is of the newest placement, so it belongs behind the others. -/
theorem inTurn_place {ρ : Type} [LinearOrder ρ] {rank : ℕ ≃ ρ} {n seq : Nat}
    {m : Ladder ρ (Nat × Spec)} (hkept : KeptBelow rank seq m) (hlabels : m.LabelledBelow n)
    (hturn : m.InTurn) (o : Order (Nat × Spec)) (ho : o.spec.1 = n) :
    Ladder.InTurn (m.insert (key rank o.price seq) o) ∧
      Ladder.LabelledBelow (n + 1) (m.insert (key rank o.price seq) o) := by
  constructor
  · refine (inTurn_insert hkept hturn o).mpr fun e he _ => ?_
    rw [ho]
    exact hlabels e he
  · intro e he
    rcases SortedMap.mem_insertEntry he with rfl | hold
    · rw [ho]
      exact Nat.lt_succ_self n
    · exact hlabels.mono (Nat.le_succ n) e hold

variable {blake3 : List UInt8 → Bytes32}

/-- A step of a labelled run keeps the turns exactly when it keeps places. -/
theorem inTurn_step {n : Nat} {b b' : OrderBook (Nat × Spec)} {op : BookOp Spec}
    {a : BookAnswer (Nat × Spec)} (hkept : Kept b) (hlabels : b.LabelledBelow n)
    (hturn : b.InTurn) (h : bookStep blake3 b (op.map fun spec => (n, spec)) = some (a, b')) :
    (b'.InTurn ↔ KeepsPlace b (op.map fun spec => (n, spec))) ∧ b'.LabelledBelow (n + 1) := by
  cases op with
  | placeBid spec price qty owner ts =>
    obtain ⟨⟨id, c⟩, hplace, heq⟩ := Option.map_eq_some_iff.mp h
    cases heq
    rw [placeBid_some hplace]
    obtain ⟨hnew, hbelow⟩ :=
      inTurn_place hkept.bids hlabels.bids hturn.bids ⟨id, (n, spec), price, qty, owner, ts⟩ rfl
    exact ⟨iff_of_true ⟨hnew, hturn.asks⟩ trivial, hbelow, hlabels.asks.mono (Nat.le_succ n)⟩
  | placeAsk spec price qty owner ts =>
    obtain ⟨⟨id, c⟩, hplace, heq⟩ := Option.map_eq_some_iff.mp h
    cases heq
    rw [placeAsk_some hplace]
    obtain ⟨hnew, hbelow⟩ :=
      inTurn_place hkept.asks hlabels.asks hturn.asks ⟨id, (n, spec), price, qty, owner, ts⟩ rfl
    exact ⟨iff_of_true ⟨hturn.bids, hnew⟩ trivial, hlabels.bids.mono (Nat.le_succ n), hbelow⟩
  | matchTop =>
    obtain ⟨⟨pair, c⟩, hmatch, heq⟩ := Option.map_eq_some_iff.mp h
    cases heq
    obtain ⟨rfl, rfl, hapart⟩ | ⟨m, kb, ka, seq, rfl, hm⟩ := matchTop_cases hkept hmatch
    · refine ⟨iff_of_true hturn ?_, hlabels.bids.mono (Nat.le_succ n),
        hlabels.asks.mono (Nat.le_succ n)⟩
      intro bid ask hbid hask hcross
      exact absurd (hapart bid ask hbid hask) (Nat.not_lt.mpr hcross)
    · exact ⟨hm.inTurn_iff hkept hturn,
        (labelledBelow_refill hlabels.bids hm.bid hm.bids).mono (Nat.le_succ n),
        (labelledBelow_refill hlabels.asks hm.ask hm.asks).mono (Nat.le_succ n)⟩

/-- Where the turns are kept, a match takes the first placed. -/
theorem firstPlaced_of_inTurn {b : OrderBook (Nat × Spec)} (hkept : Kept b) (hturn : b.InTurn)
    (op : BookOp (Nat × Spec)) : FirstPlaced b op := by
  have hfirst : ∀ {ρ : Type} [LinearOrder ρ] {l : Ladder ρ (Nat × Spec)} {k : ρ ×ₗ ℕ}
      {o : Order (Nat × Spec)}, l.InTurn → (∃ es, l.entries = (k, o) :: es) →
      ∀ o' ∈ l.values, o'.price = o.price → 0 < o'.qty → o.spec.1 ≤ o'.spec.1 := by
    intro ρ _ l k o hl hes o' ho' hprice _
    obtain ⟨es, hes⟩ := hes
    obtain ⟨e, he, rfl⟩ := List.mem_map.mp ho'
    rw [hes] at he
    rcases List.mem_cons.mp he with rfl | hlater
    · exact le_rfl
    · exact (hl.first hes hlater hprice).le
  intro m b' _ hmatch
  obtain ⟨hnone, -⟩ | ⟨m', kb, ka, seq, hsome, hm⟩ := matchTop_cases hkept hmatch
  · cases hnone
  · cases hsome
    exact ⟨hfirst hturn.bids hm.bid, hfirst hturn.asks hm.ask⟩

end Step

/-! ## Whole runs -/

section Run

variable {Spec : Type} {blake3 : List UInt8 → Bytes32}

theorem keepsPlace_map {Spec' : Type} (f : Spec → Spec') (b : OrderBook Spec) (op : BookOp Spec) :
    KeepsPlace (b.map f) (op.map f) ↔ KeepsPlace b op := by
  cases op with
  | placeBid spec price qty owner ts => exact Iff.rfl
  | placeAsk spec price qty owner ts => exact Iff.rfl
  | matchTop =>
    unfold KeepsPlace OrderBook.bestBid OrderBook.bestAsk
    simp only [BookOp.map, OrderBook.map, SortedMap.values_map, List.head?_map, ← List.map_tail,
      List.forall_mem_map, Option.map_eq_some_iff]
    constructor
    · intro hall bid ask hbid hask
      exact hall (bid.map f) (ask.map f) ⟨bid, hbid, rfl⟩ ⟨ask, hask, rfl⟩
    · intro hall bid ask hbid hask
      obtain ⟨bid, hbid, rfl⟩ := hbid
      obtain ⟨ask, hask, rfl⟩ := hask
      exact hall bid ask hbid hask

/-- The turns after a step. -/
def LeavesInTurn (blake3 : List UInt8 → Bytes32) (b : OrderBook (Nat × Spec))
    (op : BookOp (Nat × Spec)) : Prop :=
  ∀ a b', bookStep blake3 b op = some (a, b') → b'.InTurn

/-- Along a labelled run that does not fail, keeping places is keeping turns, and it
is enough for every match to take the first placed. -/
theorem along_labelFrom {n : Nat} {b b' : OrderBook (Nat × Spec)} {ops : List (BookOp Spec)}
    {answers : List (BookAnswer (Nat × Spec))} (hkept : Kept b) (hlabels : b.LabelledBelow n)
    (hturn : b.InTurn)
    (hrun : Transcript.run (bookStep blake3) b (labelFrom n ops) = some (answers, b')) :
    (Transcript.Along (bookStep blake3) KeepsPlace b (labelFrom n ops) ↔
      Transcript.Along (bookStep blake3) (LeavesInTurn blake3) b (labelFrom n ops)) ∧
    (Transcript.Along (bookStep blake3) KeepsPlace b (labelFrom n ops) →
      Transcript.Along (bookStep blake3) FirstPlaced b (labelFrom n ops)) := by
  induction ops generalizing n b answers with
  | nil => exact ⟨Iff.rfl, fun _ => trivial⟩
  | cons op ops ih =>
    obtain ⟨a, c, rest, hstep, hrest, rfl⟩ := Transcript.run_cons_eq_some.mp hrun
    obtain ⟨hiff, hbelow⟩ := inTurn_step hkept hlabels hturn hstep
    have hleaves : LeavesInTurn blake3 b (op.map fun spec => (n, spec)) ↔ c.InTurn := by
      constructor
      · intro hall
        exact hall a c hstep
      · intro hc a' c' hstep'
        rw [hstep] at hstep'
        cases hstep'
        exact hc
    have hnext : ∀ good : OrderBook (Nat × Spec) → BookOp (Nat × Spec) → Prop,
        Transcript.Along (bookStep blake3) good b (labelFrom n (op :: ops)) ↔
          good b (op.map fun spec => (n, spec)) ∧
            Transcript.Along (bookStep blake3) good c (labelFrom (n + 1) ops) := by
      intro good
      refine and_congr Iff.rfl ⟨fun hall => hall a c hstep, ?_⟩
      intro hall a' c' hstep'
      rw [hstep] at hstep'
      cases hstep'
      exact hall
    -- the turns carry the induction: they hold of the next book when this step keeps them
    rw [hnext, hnext, hnext, hleaves, hiff]
    constructor
    · refine and_congr_right fun hkeeps => ?_
      exact (ih (kept_step hkept hstep) hbelow (hiff.mpr hkeeps) hrest).1
    · intro hall
      exact ⟨firstPlaced_of_inTurn hkept hturn _,
        (ih (kept_step hkept hstep) hbelow (hiff.mpr hall.1) hrest).2 hall.2⟩

/-- **Price-time priority.** A run and the same run labelled by position differ in
the labels alone. Along a run that does not fail the book stands in turn after
every step exactly when every match that leaves a rest of an order finds no other
order at its price, and then no order takes part in a match while an order placed
before it rests at its price on its side. -/
theorem price_time_priority (ops : List (BookOp Spec)) :
    Transcript.run (bookStep blake3) .new ops
      = (Transcript.run (bookStep blake3) .new (labelled ops)).map
          (Prod.map (List.map (BookAnswer.map Prod.snd)) (OrderBook.map Prod.snd)) ∧
    ((Transcript.run (bookStep blake3) .new ops).isSome →
      (Transcript.Along (bookStep blake3) KeepsPlace .new ops ↔
        Transcript.Along (bookStep blake3) (LeavesInTurn blake3) .new (labelled ops)) ∧
      (Transcript.Along (bookStep blake3) KeepsPlace .new ops →
        Transcript.Along (bookStep blake3) FirstPlaced .new (labelled ops))) := by
  refine ⟨run_labelled blake3 ops, ?_⟩
  rw [run_labelled, Option.isSome_map]
  intro hrun
  obtain ⟨⟨answers, b⟩, hrun⟩ := Option.isSome_iff_exists.mp hrun
  -- the condition does not look at the labels
  have hplace := Transcript.along_map (bookStep_map (Prod.snd : Nat × Spec → Spec) blake3)
    (keepsPlace_map Prod.snd) .new (labelled ops)
  rw [labelled, labelFrom_erase] at hplace
  obtain ⟨hiff, hfirst⟩ := along_labelFrom kept_new labelledBelow_new inTurn_new hrun
  exact ⟨hplace.trans hiff, fun hall => hfirst (hplace.mp hall)⟩

end Run

/-- Two asks at one price, and two bids that each take part of one. -/
def overtakenRun : List (BookOp Unit) :=
  [.placeAsk () 100 5 "a" 0, .placeAsk () 100 5 "b" 1, .placeBid () 100 3 "c" 2, .matchTop,
    .placeBid () 100 3 "d" 3, .matchTop]

theorem overtakenRun_not_firstPlaced :
    ¬∃ blake3, Transcript.Along (bookStep blake3) FirstPlaced .new (labelled overtakenRun) := by
  intro h
  obtain ⟨blake3, h⟩ := h
  -- three placements, the first match, and the second bid
  have k₃ := kept_run kept_new (show Transcript.run (bookStep blake3) .new
    ((labelled overtakenRun).take 3) = some (_, _) from rfl)
  have h₃ := ((h.2 _ _ rfl).2 _ _ rfl).2 _ _ rfl
  have hmatch := matchTop_crossing k₃ rfl rfl (Nat.le_refl 100)
  have hstep := congrArg (Option.map fun r => (BookAnswer.matched r.1, r.2)) hmatch
  have h₄ := h₃.2 _ _ hstep
  have k₄ := kept_step k₃ (show bookStep blake3 _ .matchTop = some (_, _) from hstep)
  have k₅ := kept_run k₄ (show Transcript.run (bookStep blake3) _
    (((labelled overtakenRun).drop 4).take 1) = some (_, _) from rfl)
  have h₅ := h₄.2 _ _ rfl
  have hfirst := (h₅.1 _ _ rfl (matchTop_crossing k₅ rfl rfl (Nat.le_refl 100))).2
  -- the rest of the first ask stands behind the second
  have hle := hfirst _ (List.mem_cons_of_mem _ List.mem_cons_self) rfl Nat.two_pos
  exact absurd hle (Nat.not_succ_le_zero 0)

end CipherOcto.Market
