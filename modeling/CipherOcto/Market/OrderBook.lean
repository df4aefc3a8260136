import CipherOcto.Lib.SortedMap
import CipherOcto.Lib.Transcript
import CipherOcto.Cap.Chain

/-!
# The order book

Two ladders of resting orders, each sorted by price and, at a price, by a
sequence number taken when an order is put in. `match_top` takes the two first
orders out, finding their keys again by price and content id, and puts what is
left of them back under fresh sequence numbers.

The book never looks into an order's `Spec`, so the orders of a run can be told
apart by what is written there. `labelled` puts the position of each placement
next to its spec, and `bookStep_map` says that the labels change nothing.

> `Kept` is what every step keeps: keys carry the price of their order, and
> sequence numbers are below the next.
> `run_conserves`: for any weighing of the specs, what is filled and what rests
> at the end is what rested at the start and what was placed.
> `order_book_conserves`: so every order's fills and residual add up to its
> quantity.

A sequence number is a `u64`; `none` is the panic when there is no next one, or
where a key is not found.
-/

namespace CipherOcto.Market

open Encoding Cap

/-! ## The code -/

/-- `OrderId`. -/
abbrev OrderId := Bytes32

inductive Side where
  | bid
  | ask
deriving DecidableEq

structure Order (Spec : Type) where
  id : OrderId
  spec : Spec
  price : Nat
  qty : Nat
  owner : String
  tsUnix : Nat
deriving DecidableEq

structure MatchPair (Spec : Type) where
  bid : Order Spec
  ask : Order Spec
  price : Nat
  qty : Nat
deriving DecidableEq

/-- `order_id`. -/
def orderId (blake3 : List UInt8 → Bytes32) (price qty : Nat) (owner : List UInt8) (ts : Nat) :
    Side → OrderId
  | .bid => blake3 (Bytes.toLe 16 price ++ Bytes.toLe 8 qty ++ owner ++ Bytes.toLe 8 ts ++ [0])
  | .ask => blake3 (Bytes.toLe 16 price ++ Bytes.toLe 8 qty ++ owner ++ Bytes.toLe 8 ts ++ [1])

/-- One side: orders by price rank, then by sequence number. -/
abbrev Ladder (ρ Spec : Type) [LinearOrder ρ] := SortedMap (ρ ×ₗ ℕ) (Order Spec)

/-- `OrderBook`. Bids are ranked by `Reverse` of the price. -/
@[ext]
structure OrderBook (Spec : Type) where
  bids : Ladder ℕᵒᵈ Spec
  asks : Ladder ℕ Spec
  nextSeq : Nat

/-- `next_seq += 1`. -/
def incSeq (n : Nat) : Option Nat := if n + 1 < 2 ^ 64 then some (n + 1) else none

section Ladder

variable {ρ Spec : Type} [LinearOrder ρ] (rank : ℕ ≃ ρ)

/-- The key of an order put in at a sequence number. -/
def key (price seq : Nat) : ρ ×ₗ ℕ := toLex (rank price, seq)

/-- The scan for a key by the price and the content of its order. -/
def findKey (m : Ladder ρ Spec) (order : Order Spec) : Option (ρ ×ₗ ℕ) :=
  m.keys.find? fun k =>
    (ofLex k).1 = rank order.price ∧ (m.lookup k).map (·.id) = some order.id

/-- What is left of an order goes back under a fresh number. -/
def putBack (m : Ladder ρ Spec) (order : Order Spec) (residual seq : Nat) :
    Option (Ladder ρ Spec × Nat) :=
  if residual > 0 then
    (incSeq seq).map fun next =>
      (m.insert (key rank order.price seq) { order with qty := residual }, next)
  else some (m, seq)

end Ladder

/-- Prices rank bids from the highest down. -/
def bidRank : ℕ ≃ ℕᵒᵈ := OrderDual.toDual

/-- Prices rank asks from the lowest up. -/
def askRank : ℕ ≃ ℕ := Equiv.refl ℕ

namespace OrderBook

variable {Spec : Type}

def new : OrderBook Spec := ⟨.empty, .empty, 0⟩

/-- `place_bid`. -/
def placeBid (blake3 : List UInt8 → Bytes32) (b : OrderBook Spec) (spec : Spec) (price qty : Nat)
    (owner : String) (tsUnix : Nat) : Option (OrderId × OrderBook Spec) :=
  let id := orderId blake3 price qty (utf8 owner) tsUnix .bid
  (incSeq b.nextSeq).map fun next =>
    (id, { b with bids := b.bids.insert (key bidRank price b.nextSeq)
                    ⟨id, spec, price, qty, owner, tsUnix⟩
                  nextSeq := next })

/-- `place_ask`. -/
def placeAsk (blake3 : List UInt8 → Bytes32) (b : OrderBook Spec) (spec : Spec) (price qty : Nat)
    (owner : String) (tsUnix : Nat) : Option (OrderId × OrderBook Spec) :=
  let id := orderId blake3 price qty (utf8 owner) tsUnix .ask
  (incSeq b.nextSeq).map fun next =>
    (id, { b with asks := b.asks.insert (key askRank price b.nextSeq)
                    ⟨id, spec, price, qty, owner, tsUnix⟩
                  nextSeq := next })

/-- `best_bid`. -/
def bestBid (b : OrderBook Spec) : Option (Order Spec) := b.bids.values.head?

/-- `best_ask`. -/
def bestAsk (b : OrderBook Spec) : Option (Order Spec) := b.asks.values.head?

/-- `bid_count`. -/
def bidCount (b : OrderBook Spec) : Nat := b.bids.entries.length

/-- `ask_count`. -/
def askCount (b : OrderBook Spec) : Nat := b.asks.entries.length

/-- `match_top`. -/
def matchTop (b : OrderBook Spec) : Option (Option (MatchPair Spec) × OrderBook Spec) :=
  match b.bestBid, b.bestAsk with
  | some bid, some ask =>
    if bid.price < ask.price then some (none, b)
    else do
      let bidKey ← findKey bidRank b.bids bid
      let askKey ← findKey askRank b.asks ask
      let qty := min bid.qty ask.qty
      let (bids, seq) ← putBack bidRank (b.bids.erase bidKey) bid (bid.qty - qty) b.nextSeq
      let (asks, seq) ← putBack askRank (b.asks.erase askKey) ask (ask.qty - qty) seq
      pure (some ⟨bid, ask, ask.price, qty⟩, ⟨bids, asks, seq⟩)
  | _, _ => some (none, b)

end OrderBook

inductive BookOp (Spec : Type) where
  | placeBid (spec : Spec) (price qty : Nat) (owner : String) (tsUnix : Nat)
  | placeAsk (spec : Spec) (price qty : Nat) (owner : String) (tsUnix : Nat)
  | matchTop

inductive BookAnswer (Spec : Type) where
  | placed (id : OrderId)
  | matched (pair : Option (MatchPair Spec))
deriving DecidableEq

def bookStep {Spec : Type} (blake3 : List UInt8 → Bytes32) (b : OrderBook Spec) :
    BookOp Spec → Option (BookAnswer Spec × OrderBook Spec)
  | .placeBid spec price qty owner ts =>
    (b.placeBid blake3 spec price qty owner ts).map fun r => (.placed r.1, r.2)
  | .placeAsk spec price qty owner ts =>
    (b.placeAsk blake3 spec price qty owner ts).map fun r => (.placed r.1, r.2)
  | .matchTop => b.matchTop.map fun r => (.matched r.1, r.2)

/-! ## One ladder -/

theorem incSeq_eq_some {n m : Nat} : incSeq n = some m ↔ n + 1 < 2 ^ 64 ∧ m = n + 1 := by
  unfold incSeq
  split
  next h =>
    rw [Option.some.injEq]
    exact ⟨fun he => ⟨h, he.symm⟩, fun he => he.2.symm⟩
  next h => exact iff_of_false (fun he => nomatch he) fun he => h he.1

section Ladder

variable {ρ Spec : Type} [LinearOrder ρ] {rank : ℕ ≃ ρ}

/-- Keys carry the price of their order, and numbers below `n`. -/
def KeptBelow (rank : ℕ ≃ ρ) (n : Nat) (m : Ladder ρ Spec) : Prop :=
  ∀ e ∈ m.entries, (ofLex e.1).1 = rank e.2.price ∧ (ofLex e.1).2 < n

theorem KeptBelow.mono {n n' : Nat} {m : Ladder ρ Spec} (h : KeptBelow rank n m) (hle : n ≤ n') :
    KeptBelow rank n' m := fun e he => ⟨(h e he).1, (h e he).2.trans_le hle⟩

theorem KeptBelow.erase {n : Nat} {m : Ladder ρ Spec} (h : KeptBelow rank n m) (k : ρ ×ₗ ℕ) :
    KeptBelow rank n (m.erase k) := fun e he => h e (List.mem_of_mem_filter he)

theorem KeptBelow.insert {n : Nat} {m : Ladder ρ Spec} (h : KeptBelow rank n m) (o : Order Spec) :
    KeptBelow rank (n + 1) (m.insert (key rank o.price n) o) := by
  intro e he
  rcases SortedMap.mem_insertEntry he with rfl | hmem
  · exact ⟨rfl, Nat.lt_succ_self n⟩
  · exact h.mono (Nat.le_succ n) e hmem

/-- The next number makes a new key. -/
theorem KeptBelow.fresh {n : Nat} {m : Ladder ρ Spec} (h : KeptBelow rank n m) (price : Nat) :
    key rank price n ∉ m.keys := by
  intro hmem
  obtain ⟨e, he, heq⟩ := List.mem_map.mp hmem
  have hlt := (h e he).2
  rw [heq] at hlt
  exact absurd hlt (Nat.lt_irrefl n)

/-- The scan finds the first order at the first key, whatever else has its id. -/
theorem KeptBelow.findKey_first {n : Nat} {m : Ladder ρ Spec} (h : KeptBelow rank n m)
    {e : (ρ ×ₗ ℕ) × Order Spec} {es : List ((ρ ×ₗ ℕ) × Order Spec)} (hes : m.entries = e :: es) :
    findKey rank m e.2 = some e.1 := by
  have hprice : (ofLex e.1).1 = rank e.2.price := (h e (by rw [hes]; exact List.mem_cons_self)).1
  have hid : (m.lookup e.1).map (·.id) = some e.2.id := by
    rw [SortedMap.lookup_first hes]
    rfl
  unfold findKey SortedMap.keys
  rw [hes, List.map_cons, List.find?_cons_of_pos]
  exact decide_eq_true ⟨hprice, hid⟩

/-- What an order's weight adds up to over a ladder. -/
def total (f : Order Spec → Nat) (m : Ladder ρ Spec) : Nat := (m.values.map f).sum

theorem total_insert (f : Order Spec → Nat) {m : Ladder ρ Spec} {k : ρ ×ₗ ℕ} (o : Order Spec)
    (h : k ∉ m.keys) : total f (m.insert k o) = f o + total f m := by
  unfold total SortedMap.values
  rw [(((SortedMap.insert_perm o h).map Prod.snd).map f).sum_eq, List.map_cons, List.map_cons,
    List.sum_cons]

theorem total_erase_first (f : Order Spec → Nat) {m : Ladder ρ Spec}
    {e : (ρ ×ₗ ℕ) × Order Spec} {es : List ((ρ ×ₗ ℕ) × Order Spec)} (hes : m.entries = e :: es) :
    total f m = f e.2 + total f (m.erase e.1) := by
  unfold total SortedMap.values
  rw [SortedMap.erase_first hes, hes, List.map_cons, List.map_cons, List.sum_cons]

/-- Putting back: nothing where nothing is left, and else the order with what is
left of it, under the next number. -/
theorem putBack_cases {m m' : Ladder ρ Spec} {o : Order Spec} {residual n n' : Nat}
    (h : putBack rank m o residual n = some (m', n')) :
    (residual = 0 ∧ m' = m ∧ n' = n) ∨
    (0 < residual ∧ m' = m.insert (key rank o.price n) { o with qty := residual } ∧
      n' = n + 1) := by
  unfold putBack at h
  split at h
  next hpos =>
    obtain ⟨next, hnext, heq⟩ := Option.map_eq_some_iff.mp h
    obtain ⟨-, rfl⟩ := incSeq_eq_some.mp hnext
    cases heq
    exact Or.inr ⟨hpos, rfl, rfl⟩
  next hzero =>
    cases h
    exact Or.inl ⟨Nat.eq_zero_of_not_pos hzero, rfl, rfl⟩

theorem putBack_kept {m m' : Ladder ρ Spec} {o : Order Spec} {residual n n' : Nat}
    (hkept : KeptBelow rank n m) (h : putBack rank m o residual n = some (m', n')) :
    n ≤ n' ∧ KeptBelow rank n' m' := by
  obtain ⟨-, rfl, rfl⟩ | ⟨-, rfl, rfl⟩ := putBack_cases h
  · exact ⟨le_rfl, hkept⟩
  · exact ⟨Nat.le_succ n, hkept.insert { o with qty := residual }⟩

/-- A measure that counts nothing for an empty order grows by what is put back. -/
theorem putBack_total {f : Order Spec → Nat} {m m' : Ladder ρ Spec} {o : Order Spec}
    {residual n n' : Nat} (hkept : KeptBelow rank n m)
    (hzero : residual = 0 → f { o with qty := residual } = 0)
    (h : putBack rank m o residual n = some (m', n')) :
    total f m' = f { o with qty := residual } + total f m := by
  obtain ⟨hres, rfl, rfl⟩ | ⟨-, rfl, rfl⟩ := putBack_cases h
  · rw [hzero hres, Nat.zero_add]
  · exact total_insert f _ (hkept.fresh o.price)

end Ladder

/-! ## One step -/

section Step

variable {Spec : Type}

/-- What every step keeps. -/
structure Kept (b : OrderBook Spec) : Prop where
  bids : KeptBelow bidRank b.nextSeq b.bids
  asks : KeptBelow askRank b.nextSeq b.asks

theorem kept_new : Kept (OrderBook.new : OrderBook Spec) :=
  ⟨fun _ he => absurd he List.not_mem_nil, fun _ he => absurd he List.not_mem_nil⟩

/-- What a match is: the two first orders, crossing, and their residuals put
back. -/
structure Matches (b b' : OrderBook Spec) (m : MatchPair Spec) (kb : ℕᵒᵈ ×ₗ ℕ) (ka : ℕ ×ₗ ℕ)
    (seq : Nat) : Prop where
  bid : ∃ bes, b.bids.entries = (kb, m.bid) :: bes
  ask : ∃ aes, b.asks.entries = (ka, m.ask) :: aes
  crosses : m.ask.price ≤ m.bid.price
  price : m.price = m.ask.price
  qty : m.qty = min m.bid.qty m.ask.qty
  bids : putBack bidRank (b.bids.erase kb) m.bid (m.bid.qty - m.qty) b.nextSeq = some (b'.bids, seq)
  asks : putBack askRank (b.asks.erase ka) m.ask (m.ask.qty - m.qty) seq = some (b'.asks, b'.nextSeq)

/-- The scans of a crossing `match_top` find the first keys. -/
theorem matchTop_crossing {b : OrderBook Spec} (hkept : Kept b)
    {eb : (ℕᵒᵈ ×ₗ ℕ) × Order Spec} {bes : List ((ℕᵒᵈ ×ₗ ℕ) × Order Spec)}
    (hbids : b.bids.entries = eb :: bes) {ea : (ℕ ×ₗ ℕ) × Order Spec}
    {aes : List ((ℕ ×ₗ ℕ) × Order Spec)} (hasks : b.asks.entries = ea :: aes)
    (hcross : ea.2.price ≤ eb.2.price) :
    b.matchTop = (do
      let qty := min eb.2.qty ea.2.qty
      let (bids, seq) ← putBack bidRank (b.bids.erase eb.1) eb.2 (eb.2.qty - qty) b.nextSeq
      let (asks, seq) ← putBack askRank (b.asks.erase ea.1) ea.2 (ea.2.qty - qty) seq
      pure (some ⟨eb.2, ea.2, ea.2.price, qty⟩, ⟨bids, asks, seq⟩)) := by
  unfold OrderBook.matchTop OrderBook.bestBid OrderBook.bestAsk SortedMap.values
  rw [hbids, hasks]
  simp only [List.map_cons, List.head?_cons]
  rw [if_neg (Nat.not_lt.mpr hcross), hkept.bids.findKey_first hbids,
    hkept.asks.findKey_first hasks]
  rfl

/-- Without two orders that cross there is no match. -/
theorem matchTop_apart {b : OrderBook Spec}
    (h : ∀ bid ask, b.bestBid = some bid → b.bestAsk = some ask → bid.price < ask.price) :
    b.matchTop = some (none, b) := by
  unfold OrderBook.matchTop
  split
  next bid ask hbid hask => exact if_pos (h bid ask hbid hask)
  next => rfl

/-- Either two orders are first and cross, or there is no match. -/
theorem crossing_or_apart (b : OrderBook Spec) :
    (∃ eb bes ea aes, b.bids.entries = eb :: bes ∧ b.asks.entries = ea :: aes ∧
      ea.2.price ≤ eb.2.price) ∨
    ∀ bid ask, b.bestBid = some bid → b.bestAsk = some ask → bid.price < ask.price := by
  unfold OrderBook.bestBid OrderBook.bestAsk SortedMap.values
  cases b.bids.entries with
  | nil => exact Or.inr fun _ _ hbid => nomatch hbid
  | cons eb bes =>
    cases b.asks.entries with
    | nil => exact Or.inr fun _ _ _ hask => nomatch hask
    | cons ea aes =>
      rcases Nat.lt_or_ge eb.2.price ea.2.price with hlt | hge
      · refine Or.inr fun bid ask hbid hask => ?_
        cases hbid
        cases hask
        exact hlt
      · exact Or.inl ⟨eb, bes, ea, aes, rfl, rfl, hge⟩

/-- `match_top` leaves the book alone or makes a match. -/
theorem matchTop_cases {b b' : OrderBook Spec} (hkept : Kept b) {a : Option (MatchPair Spec)}
    (h : b.matchTop = some (a, b')) :
    (a = none ∧ b' = b ∧
      ∀ bid ask, b.bestBid = some bid → b.bestAsk = some ask → bid.price < ask.price) ∨
    ∃ m kb ka seq, a = some m ∧ Matches b b' m kb ka seq := by
  obtain ⟨eb, bes, ea, aes, hbids, hasks, hcross⟩ | hapart := crossing_or_apart b
  · rw [matchTop_crossing hkept hbids hasks hcross] at h
    simp only [Option.bind_eq_bind, Option.bind_eq_some_iff] at h
    obtain ⟨⟨bids, seq⟩, hbid, ⟨asks, next⟩, hask, hout⟩ := h
    cases hout
    exact Or.inr ⟨_, eb.1, ea.1, seq, rfl, ⟨bes, hbids⟩, ⟨aes, hasks⟩, hcross, rfl, rfl, hbid, hask⟩
  · rw [matchTop_apart hapart] at h
    cases h
    exact Or.inl ⟨rfl, rfl, hapart⟩

/-- The bid's residual takes a number of its own, and the asks are below that too. -/
theorem Matches.asks_kept {b b' : OrderBook Spec} {m : MatchPair Spec} {kb : ℕᵒᵈ ×ₗ ℕ}
    {ka : ℕ ×ₗ ℕ} {seq : Nat} (h : Matches b b' m kb ka seq) (hkept : Kept b) :
    KeptBelow askRank seq b.asks :=
  hkept.asks.mono (putBack_kept (hkept.bids.erase kb) h.bids).1

theorem Matches.qty_le {b b' : OrderBook Spec} {m : MatchPair Spec} {kb : ℕᵒᵈ ×ₗ ℕ} {ka : ℕ ×ₗ ℕ}
    {seq : Nat} (h : Matches b b' m kb ka seq) : m.qty ≤ m.bid.qty ∧ m.qty ≤ m.ask.qty := by
  rw [h.qty]
  exact ⟨Nat.min_le_left _ _, Nat.min_le_right _ _⟩

theorem Matches.kept {b b' : OrderBook Spec} {m : MatchPair Spec} {kb : ℕᵒᵈ ×ₗ ℕ} {ka : ℕ ×ₗ ℕ}
    {seq : Nat} (h : Matches b b' m kb ka seq) (hkept : Kept b) : Kept b' := by
  obtain ⟨-, hbids⟩ := putBack_kept (hkept.bids.erase kb) h.bids
  obtain ⟨hle, hasks⟩ := putBack_kept ((h.asks_kept hkept).erase ka) h.asks
  exact ⟨hbids.mono hle, hasks⟩

variable {blake3 : List UInt8 → Bytes32}

theorem placeBid_some {b b' : OrderBook Spec} {spec : Spec} {price qty : Nat} {owner : String}
    {ts : Nat} {id : OrderId} (h : b.placeBid blake3 spec price qty owner ts = some (id, b')) :
    b' = { b with bids := b.bids.insert (key bidRank price b.nextSeq) ⟨id, spec, price, qty, owner, ts⟩
                  nextSeq := b.nextSeq + 1 } := by
  obtain ⟨next, hnext, heq⟩ := Option.map_eq_some_iff.mp h
  obtain ⟨-, rfl⟩ := incSeq_eq_some.mp hnext
  cases heq
  rfl

theorem placeAsk_some {b b' : OrderBook Spec} {spec : Spec} {price qty : Nat} {owner : String}
    {ts : Nat} {id : OrderId} (h : b.placeAsk blake3 spec price qty owner ts = some (id, b')) :
    b' = { b with asks := b.asks.insert (key askRank price b.nextSeq) ⟨id, spec, price, qty, owner, ts⟩
                  nextSeq := b.nextSeq + 1 } := by
  obtain ⟨next, hnext, heq⟩ := Option.map_eq_some_iff.mp h
  obtain ⟨-, rfl⟩ := incSeq_eq_some.mp hnext
  cases heq
  rfl

/-- The three things a step can do. -/
theorem bookStep_cases {b b' : OrderBook Spec} {op : BookOp Spec} {a : BookAnswer Spec}
    (h : bookStep blake3 b op = some (a, b')) :
    (∃ spec price qty owner ts id, op = .placeBid spec price qty owner ts ∧ a = .placed id ∧
      b' = { b with bids := b.bids.insert (key bidRank price b.nextSeq)
                      ⟨id, spec, price, qty, owner, ts⟩
                    nextSeq := b.nextSeq + 1 }) ∨
    (∃ spec price qty owner ts id, op = .placeAsk spec price qty owner ts ∧ a = .placed id ∧
      b' = { b with asks := b.asks.insert (key askRank price b.nextSeq)
                      ⟨id, spec, price, qty, owner, ts⟩
                    nextSeq := b.nextSeq + 1 }) ∨
    (∃ pair, op = .matchTop ∧ a = .matched pair ∧ b.matchTop = some (pair, b')) := by
  cases op with
  | placeBid spec price qty owner ts =>
    obtain ⟨⟨id, c⟩, hplace, heq⟩ := Option.map_eq_some_iff.mp h
    cases heq
    exact Or.inl ⟨spec, price, qty, owner, ts, id, rfl, rfl, placeBid_some hplace⟩
  | placeAsk spec price qty owner ts =>
    obtain ⟨⟨id, c⟩, hplace, heq⟩ := Option.map_eq_some_iff.mp h
    cases heq
    exact Or.inr (Or.inl ⟨spec, price, qty, owner, ts, id, rfl, rfl, placeAsk_some hplace⟩)
  | matchTop =>
    obtain ⟨⟨pair, c⟩, hmatch, heq⟩ := Option.map_eq_some_iff.mp h
    cases heq
    exact Or.inr (Or.inr ⟨pair, rfl, rfl, hmatch⟩)

theorem kept_step {b b' : OrderBook Spec} {op : BookOp Spec} {a : BookAnswer Spec} (hkept : Kept b)
    (h : bookStep blake3 b op = some (a, b')) : Kept b' := by
  obtain ⟨spec, price, qty, owner, ts, id, -, -, rfl⟩ |
    ⟨spec, price, qty, owner, ts, id, -, -, rfl⟩ | ⟨pair, -, -, hmatch⟩ := bookStep_cases h
  · exact ⟨hkept.bids.insert ⟨id, spec, price, qty, owner, ts⟩, hkept.asks.mono (Nat.le_succ _)⟩
  · exact ⟨hkept.bids.mono (Nat.le_succ _), hkept.asks.insert ⟨id, spec, price, qty, owner, ts⟩⟩
  · obtain ⟨-, rfl, -⟩ | ⟨m, kb, ka, seq, -, hm⟩ := matchTop_cases hkept hmatch
    · exact hkept
    · exact hm.kept hkept

/-! ## Conservation -/

/-- The quantity an order has, by the weight of its spec. -/
def weigh (w : Spec → Nat) (o : Order Spec) : Nat := w o.spec * o.qty

/-- The quantity that rests in a book. -/
def resting (w : Spec → Nat) (b : OrderBook Spec) : Nat :=
  total (weigh w) b.bids + total (weigh w) b.asks

/-- The number of orders that rest in a book. -/
def restingOrders (w : Spec → Nat) (b : OrderBook Spec) : Nat :=
  total (fun o => w o.spec) b.bids + total (fun o => w o.spec) b.asks

/-- The quantity a match fills, once for each of its orders. -/
def BookAnswer.filled (w : Spec → Nat) : BookAnswer Spec → Nat
  | .matched (some m) => w m.bid.spec * m.qty + w m.ask.spec * m.qty
  | _ => 0

/-- The spec an operation places, with its quantity. -/
def BookOp.placement : BookOp Spec → Option (Spec × Nat)
  | .placeBid spec _ qty _ _ => some (spec, qty)
  | .placeAsk spec _ qty _ _ => some (spec, qty)
  | .matchTop => none

/-- The quantity an operation places. -/
def BookOp.placed (w : Spec → Nat) (op : BookOp Spec) : Nat :=
  (op.placement.map fun p => w p.1 * p.2).getD 0

/-- The number of orders an operation places. -/
def BookOp.orders (w : Spec → Nat) (op : BookOp Spec) : Nat :=
  (op.placement.map fun p => w p.1).getD 0

section Ladder

variable {ρ : Type} [LinearOrder ρ] {rank : ℕ ≃ ρ}

/-- Taking out the first order and putting back its residual fills the rest. -/
theorem refill_weigh {m m' : Ladder ρ Spec} {k : ρ ×ₗ ℕ} {o : Order Spec} {qty n n' : Nat}
    (w : Spec → Nat) (hkept : KeptBelow rank n m) (hes : ∃ es, m.entries = (k, o) :: es)
    (hqty : qty ≤ o.qty) (h : putBack rank (m.erase k) o (o.qty - qty) n = some (m', n')) :
    w o.spec * qty + total (weigh w) m' = total (weigh w) m := by
  obtain ⟨es, hes⟩ := hes
  have hzero : o.qty - qty = 0 → weigh w { o with qty := o.qty - qty } = 0 := by
    intro hres
    show w o.spec * (o.qty - qty) = 0
    rw [hres, Nat.mul_zero]
  have hsum : w o.spec * qty + w o.spec * (o.qty - qty) = w o.spec * o.qty := by
    rw [← Nat.mul_add, Nat.add_sub_cancel' hqty]
  rw [putBack_total (hkept.erase k) hzero h, total_erase_first (weigh w) hes, ← Nat.add_assoc]
  exact congrArg (· + _) hsum

/-- It never adds an order. -/
theorem refill_orders {m m' : Ladder ρ Spec} {k : ρ ×ₗ ℕ} {o : Order Spec} {r n n' : Nat}
    (w : Spec → Nat) (hkept : KeptBelow rank n m) (hes : ∃ es, m.entries = (k, o) :: es)
    (h : putBack rank (m.erase k) o r n = some (m', n')) :
    total (fun o => w o.spec) m' ≤ total (fun o => w o.spec) m := by
  obtain ⟨es, hes⟩ := hes
  rw [total_erase_first (fun o => w o.spec) hes]
  obtain ⟨-, rfl, -⟩ | ⟨-, rfl, -⟩ := putBack_cases h
  · exact Nat.le_add_left _ _
  · rw [total_insert _ _ ((hkept.erase k).fresh o.price)]

/-- It takes an order away exactly when nothing is left of it. -/
theorem refill_length {m m' : Ladder ρ Spec} {k : ρ ×ₗ ℕ} {o : Order Spec} {qty n n' : Nat}
    (hkept : KeptBelow rank n m) (hes : ∃ es, m.entries = (k, o) :: es) (hqty : qty ≤ o.qty)
    (h : putBack rank (m.erase k) o (o.qty - qty) n = some (m', n')) :
    m'.entries.length + (if o.qty = qty then 1 else 0) = m.entries.length := by
  obtain ⟨es, hes⟩ := hes
  have herase := SortedMap.erase_first hes
  obtain ⟨hres, rfl, -⟩ | ⟨hres, rfl, -⟩ := putBack_cases h
  · rw [if_pos (by omega), hes, herase, List.length_cons]
  · rw [if_neg (by omega), (SortedMap.insert_perm _ ((hkept.erase k).fresh o.price)).length_eq,
      herase, hes]
    rfl

end Ladder

theorem Matches.weigh {b b' : OrderBook Spec} {m : MatchPair Spec} {kb : ℕᵒᵈ ×ₗ ℕ} {ka : ℕ ×ₗ ℕ}
    {seq : Nat} (h : Matches b b' m kb ka seq) (hkept : Kept b) (w : Spec → Nat) :
    w m.bid.spec * m.qty + w m.ask.spec * m.qty + resting w b' = resting w b := by
  have hbid := refill_weigh w hkept.bids h.bid h.qty_le.1 h.bids
  have hask := refill_weigh w (h.asks_kept hkept) h.ask h.qty_le.2 h.asks
  unfold resting
  omega

theorem Matches.orders {b b' : OrderBook Spec} {m : MatchPair Spec} {kb : ℕᵒᵈ ×ₗ ℕ} {ka : ℕ ×ₗ ℕ}
    {seq : Nat} (h : Matches b b' m kb ka seq) (hkept : Kept b) (w : Spec → Nat) :
    restingOrders w b' ≤ restingOrders w b := by
  have hbid := refill_orders w hkept.bids h.bid h.bids
  have hask := refill_orders w (h.asks_kept hkept) h.ask h.asks
  unfold restingOrders
  omega

/-- A step fills what it takes from the book, and adds what it places. -/
theorem step_conserves {b b' : OrderBook Spec} {op : BookOp Spec} {a : BookAnswer Spec}
    (hkept : Kept b) (h : bookStep blake3 b op = some (a, b')) (w : Spec → Nat) :
    a.filled w + resting w b' = resting w b + op.placed w ∧
      restingOrders w b' ≤ restingOrders w b + op.orders w := by
  obtain ⟨spec, price, qty, owner, ts, id, rfl, rfl, rfl⟩ |
    ⟨spec, price, qty, owner, ts, id, rfl, rfl, rfl⟩ | ⟨pair, rfl, rfl, hmatch⟩ := bookStep_cases h
  · have hfresh := hkept.bids.fresh price
    simp only [BookAnswer.filled, BookOp.placed, BookOp.orders, BookOp.placement, resting,
      restingOrders, total_insert _ _ hfresh, Option.map_some, Option.getD_some, Market.weigh]
    omega
  · have hfresh := hkept.asks.fresh price
    simp only [BookAnswer.filled, BookOp.placed, BookOp.orders, BookOp.placement, resting,
      restingOrders, total_insert _ _ hfresh, Option.map_some, Option.getD_some, Market.weigh]
    omega
  · obtain ⟨rfl, rfl, -⟩ | ⟨m, kb, ka, seq, rfl, hm⟩ := matchTop_cases hkept hmatch
    · exact ⟨Nat.add_comm _ _, Nat.le_add_right _ _⟩
    · exact ⟨hm.weigh hkept w, (hm.orders hkept w).trans (Nat.le_add_right _ _)⟩

theorem kept_run {b b' : OrderBook Spec} {ops : List (BookOp Spec)}
    {answers : List (BookAnswer Spec)} (hkept : Kept b)
    (h : Transcript.run (bookStep blake3) b ops = some (answers, b')) : Kept b' := by
  induction ops generalizing b answers with
  | nil =>
    obtain ⟨-, rfl⟩ := Transcript.run_nil_eq_some.mp h
    exact hkept
  | cons op ops ih =>
    obtain ⟨a, c, rest, hstep, hrun, -⟩ := Transcript.run_cons_eq_some.mp h
    exact ih (kept_step hkept hstep) hrun

/-- **Conservation.** Over a run, what is filled and what rests at the end is what
rested at the start and what was placed, however the specs are weighed. -/
theorem run_conserves {b b' : OrderBook Spec} {ops : List (BookOp Spec)}
    {answers : List (BookAnswer Spec)} (hkept : Kept b)
    (h : Transcript.run (bookStep blake3) b ops = some (answers, b')) (w : Spec → Nat) :
    (answers.map (·.filled w)).sum + resting w b' = resting w b + (ops.map (·.placed w)).sum ∧
      restingOrders w b' ≤ restingOrders w b + (ops.map (·.orders w)).sum := by
  induction ops generalizing b answers with
  | nil =>
    obtain ⟨rfl, rfl⟩ := Transcript.run_nil_eq_some.mp h
    exact ⟨Nat.add_comm _ _, le_rfl⟩
  | cons op ops ih =>
    obtain ⟨a, c, rest, hstep, hrun, rfl⟩ := Transcript.run_cons_eq_some.mp h
    obtain ⟨hfill, horders⟩ := step_conserves hkept hstep w
    obtain ⟨hfill', horders'⟩ := ih (kept_step hkept hstep) hrun
    -- the books in the middle cancel
    simp only [List.map_cons, List.sum_cons]
    omega

/-! ## No step fails while there are numbers left -/

theorem putBack_isSome {ρ : Type} [LinearOrder ρ] (rank : ℕ ≃ ρ) (m : Ladder ρ Spec)
    (o : Order Spec) (residual : Nat) {n : Nat} (hn : n + 1 < 2 ^ 64) :
    ∃ m' n', putBack rank m o residual n = some (m', n') ∧ n' ≤ n + 1 := by
  unfold putBack
  split
  next =>
    rw [incSeq_eq_some.mpr ⟨hn, rfl⟩]
    exact ⟨_, _, rfl, le_rfl⟩
  next => exact ⟨_, _, rfl, Nat.le_succ n⟩

theorem bookStep_isSome {b : OrderBook Spec} (hkept : Kept b) (hn : b.nextSeq + 2 < 2 ^ 64)
    (op : BookOp Spec) :
    ∃ a b', bookStep blake3 b op = some (a, b') ∧ b'.nextSeq ≤ b.nextSeq + 2 := by
  have hinc : incSeq b.nextSeq = some (b.nextSeq + 1) := incSeq_eq_some.mpr ⟨by omega, rfl⟩
  cases op with
  | placeBid spec price qty owner ts =>
    simp only [bookStep, OrderBook.placeBid, hinc, Option.map_some]
    exact ⟨_, _, rfl, Nat.le_succ _⟩
  | placeAsk spec price qty owner ts =>
    simp only [bookStep, OrderBook.placeAsk, hinc, Option.map_some]
    exact ⟨_, _, rfl, Nat.le_succ _⟩
  | matchTop =>
    unfold bookStep
    obtain ⟨eb, bes, ea, aes, hbids, hasks, hcross⟩ | hapart := crossing_or_apart b
    · obtain ⟨bids, seq, hbid, hseq⟩ := putBack_isSome bidRank (b.bids.erase eb.1) eb.2
        (eb.2.qty - min eb.2.qty ea.2.qty) (show b.nextSeq + 1 < 2 ^ 64 by omega)
      obtain ⟨asks, next, hask, hnext⟩ := putBack_isSome askRank (b.asks.erase ea.1) ea.2
        (ea.2.qty - min eb.2.qty ea.2.qty) (show seq + 1 < 2 ^ 64 by omega)
      rw [matchTop_crossing hkept hbids hasks hcross]
      simp only [Option.bind_eq_bind, Option.bind_some, hbid, hask, Option.pure_def,
        Option.map_some]
      exact ⟨_, _, rfl, by show next ≤ _; omega⟩
    · rw [matchTop_apart hapart]
      exact ⟨_, _, rfl, Nat.le_add_right _ _⟩

/-- Each operation takes at most two numbers. -/
theorem run_isSome {b : OrderBook Spec} {ops : List (BookOp Spec)} (hkept : Kept b)
    (hn : b.nextSeq + 2 * ops.length < 2 ^ 64) :
    (Transcript.run (bookStep blake3) b ops).isSome := by
  induction ops generalizing b with
  | nil => rfl
  | cons op ops ih =>
    rw [List.length_cons] at hn
    obtain ⟨a, c, hstep, hnext⟩ := @bookStep_isSome Spec blake3 b hkept (by omega) op
    have hrest := ih (kept_step hkept hstep) (by omega)
    rw [Transcript.run, hstep, Option.bind_some, Option.isSome_map]
    exact hrest

end Step

/-! ## Specs are not looked into -/

section Relabel

variable {Spec Spec' : Type} (f : Spec → Spec')

def Order.map (o : Order Spec) : Order Spec' := ⟨o.id, f o.spec, o.price, o.qty, o.owner, o.tsUnix⟩

def MatchPair.map (m : MatchPair Spec) : MatchPair Spec' :=
  ⟨m.bid.map f, m.ask.map f, m.price, m.qty⟩

def OrderBook.map (b : OrderBook Spec) : OrderBook Spec' :=
  ⟨SortedMap.map (Order.map f) b.bids, SortedMap.map (Order.map f) b.asks, b.nextSeq⟩

def BookOp.map : BookOp Spec → BookOp Spec'
  | .placeBid spec price qty owner ts => .placeBid (f spec) price qty owner ts
  | .placeAsk spec price qty owner ts => .placeAsk (f spec) price qty owner ts
  | .matchTop => .matchTop

def BookAnswer.map : BookAnswer Spec → BookAnswer Spec'
  | .placed id => .placed id
  | .matched pair => .matched (pair.map (MatchPair.map f))

section Ladder

variable {ρ : Type} [LinearOrder ρ] {rank : ℕ ≃ ρ}

theorem findKey_map (m : Ladder ρ Spec) (o : Order Spec) :
    findKey rank (SortedMap.map (Order.map f) m) (o.map f) = findKey rank m o := by
  unfold findKey
  simp only [SortedMap.keys_map, SortedMap.lookup_map, Option.map_map]
  rfl

theorem putBack_map (m : Ladder ρ Spec) (o : Order Spec) (residual n : Nat) :
    putBack rank (SortedMap.map (Order.map f) m) (o.map f) residual n
      = (putBack rank m o residual n).map (Prod.map (SortedMap.map (Order.map f)) id) := by
  unfold putBack
  split
  next =>
    rw [Option.map_map]
    congr 1
    funext next
    exact Prod.ext (SortedMap.map_insert (Order.map f) m _ { o with qty := residual }).symm rfl
  next => rfl

theorem head?_values_map (m : Ladder ρ Spec) :
    (SortedMap.map (Order.map f) m).values.head? = m.values.head?.map (Order.map f) := by
  rw [SortedMap.values_map, List.head?_map]

end Ladder

theorem matchTop_map (b : OrderBook Spec) :
    (b.map f).matchTop
      = b.matchTop.map (Prod.map (Option.map (MatchPair.map f)) (OrderBook.map f)) := by
  unfold OrderBook.matchTop OrderBook.bestBid OrderBook.bestAsk
  simp only [OrderBook.map, head?_values_map]
  cases b.bids.values.head? with
  | none => rfl
  | some bid =>
    cases b.asks.values.head? with
    | none => rfl
    | some ask =>
      simp only [Option.map_some]
      show (if bid.price < ask.price then _ else _) = _
      split
      next => rfl
      next =>
        simp only [findKey_map]
        cases findKey bidRank b.bids bid with
        | none => rfl
        | some kb =>
          cases findKey askRank b.asks ask with
          | none => rfl
          | some ka =>
            simp only [Option.bind_eq_bind, Option.bind_some, ← SortedMap.map_erase]
            rw [show (bid.map f).qty = bid.qty from rfl, show (ask.map f).qty = ask.qty from rfl,
              putBack_map]
            cases putBack bidRank (b.bids.erase kb) bid (bid.qty - min bid.qty ask.qty) b.nextSeq with
            | none => rfl
            | some r =>
              simp only [Option.map_some, Option.bind_some, Prod.map_fst, Prod.map_snd, id_eq]
              rw [putBack_map]
              cases putBack askRank (b.asks.erase ka) ask (ask.qty - min bid.qty ask.qty) r.2 with
              | none => rfl
              | some r' => rfl

/-- The book does not look into specs: changing them commutes with every step. -/
theorem bookStep_map (blake3 : List UInt8 → Bytes32) (b : OrderBook Spec) (op : BookOp Spec) :
    bookStep blake3 (b.map f) (op.map f)
      = (bookStep blake3 b op).map (Prod.map (BookAnswer.map f) (OrderBook.map f)) := by
  cases op with
  | placeBid spec price qty owner ts =>
    simp only [BookOp.map, bookStep, OrderBook.placeBid, Option.map_map]
    congr 1
    funext next
    have hinsert := SortedMap.map_insert (Order.map f) b.bids (key bidRank price b.nextSeq)
      ⟨orderId blake3 price qty (utf8 owner) ts .bid, spec, price, qty, owner, ts⟩
    exact Prod.ext rfl (OrderBook.ext hinsert.symm rfl rfl)
  | placeAsk spec price qty owner ts =>
    simp only [BookOp.map, bookStep, OrderBook.placeAsk, Option.map_map]
    congr 1
    funext next
    have hinsert := SortedMap.map_insert (Order.map f) b.asks (key askRank price b.nextSeq)
      ⟨orderId blake3 price qty (utf8 owner) ts .ask, spec, price, qty, owner, ts⟩
    exact Prod.ext rfl (OrderBook.ext rfl hinsert.symm rfl)
  | matchTop =>
    simp only [BookOp.map, bookStep, matchTop_map, Option.map_map]
    rfl

end Relabel

/-! ## Orders by the position of their placement -/

section Label

variable {Spec : Type}

/-- Every placement of a run labelled by its position, counted from `n`. -/
def labelFrom : Nat → List (BookOp Spec) → List (BookOp (Nat × Spec))
  | _, [] => []
  | n, op :: ops => op.map (fun spec => (n, spec)) :: labelFrom (n + 1) ops

def labelled (ops : List (BookOp Spec)) : List (BookOp (Nat × Spec)) := labelFrom 0 ops

/-- The weight of the order placed at position `i`. -/
def only (i : Nat) (spec : Nat × Spec) : Nat := if spec.1 = i then 1 else 0

theorem labelFrom_erase (n : Nat) (ops : List (BookOp Spec)) :
    (labelFrom n ops).map (BookOp.map Prod.snd) = ops := by
  induction ops generalizing n with
  | nil => rfl
  | cons op ops ih =>
    rw [labelFrom, List.map_cons, ih]
    congr 1
    cases op with
    | placeBid spec price qty owner ts => rfl
    | placeAsk spec price qty owner ts => rfl
    | matchTop => rfl

/-- Labels do not change a run. -/
theorem run_labelled (blake3 : List UInt8 → Bytes32) (ops : List (BookOp Spec)) :
    Transcript.run (bookStep blake3) .new ops
      = (Transcript.run (bookStep blake3) .new (labelled ops)).map
          (Prod.map (List.map (BookAnswer.map Prod.snd)) (OrderBook.map Prod.snd)) := by
  have hmap := Transcript.run_map (bookStep_map (Prod.snd : Nat × Spec → Spec) blake3) .new
    (labelled ops)
  rw [labelled, labelFrom_erase] at hmap
  exact hmap

/-- A sum over a labelled run that only the label `i` adds to is its term at
position `i`. -/
theorem sum_labelFrom {h : BookOp (Nat × Spec) → Nat} {i : Nat}
    (hzero : ∀ (n : Nat) (op : BookOp Spec), n ≠ i → h (op.map fun spec => (n, spec)) = 0) (n : Nat)
    (ops : List (BookOp Spec)) :
    ((labelFrom n ops).map h).sum
      = if n ≤ i then (ops[i - n]?.map fun op => h (op.map fun spec => (i, spec))).getD 0
        else 0 := by
  induction ops generalizing n with
  | nil =>
    rw [List.getElem?_nil]
    exact (ite_self 0).symm
  | cons op ops ih =>
    rw [labelFrom, List.map_cons, List.sum_cons, ih]
    rcases Nat.lt_trichotomy n i with hlt | heq | hgt
    · rw [hzero n op hlt.ne, if_pos (by omega), if_pos hlt.le, Nat.zero_add,
        show i - n = (i - (n + 1)) + 1 by omega, List.getElem?_cons_succ]
    · rw [heq, if_neg (by omega), if_pos le_rfl, Nat.sub_self, List.getElem?_cons_zero]
      rfl
    · rw [hzero n op hgt.ne', if_neg (by omega), if_neg (by omega)]

theorem placed_only {n i : Nat} (hne : n ≠ i) (op : BookOp Spec) :
    (op.map fun spec => (n, spec)).placed (only i) = 0 ∧
      (op.map fun spec => (n, spec)).orders (only i) = 0 := by
  cases op with
  | placeBid spec price qty owner ts =>
    simp [BookOp.map, BookOp.placed, BookOp.orders, BookOp.placement, only, hne]
  | placeAsk spec price qty owner ts =>
    simp [BookOp.map, BookOp.placed, BookOp.orders, BookOp.placement, only, hne]
  | matchTop => exact ⟨rfl, rfl⟩

theorem placed_self {i : Nat} {op : BookOp Spec} {spec : Spec} {qty : Nat}
    (h : op.placement = some (spec, qty)) :
    (op.map fun spec => (i, spec)).placed (only i) = qty ∧
      (op.map fun spec => (i, spec)).orders (only i) = 1 := by
  cases op with
  | placeBid spec price qty owner ts =>
    cases h
    simp [BookOp.map, BookOp.placed, BookOp.orders, BookOp.placement, only]
  | placeAsk spec price qty owner ts =>
    cases h
    simp [BookOp.map, BookOp.placed, BookOp.orders, BookOp.placement, only]
  | matchTop => cases h

/-- What is placed under a label, and how often. -/
theorem sum_placed_labelled {ops : List (BookOp Spec)} {i : Nat} {op : BookOp Spec} {spec : Spec}
    {qty : Nat} (hop : ops[i]? = some op) (hplace : op.placement = some (spec, qty)) :
    ((labelled ops).map (·.placed (only i))).sum = qty ∧
      ((labelled ops).map (·.orders (only i))).sum = 1 := by
  obtain ⟨hqty, hone⟩ := placed_self (i := i) hplace
  constructor
  · rw [labelled, sum_labelFrom (fun n op hne => (placed_only hne op).1), if_pos (Nat.zero_le i),
      Nat.sub_zero, hop]
    exact hqty
  · rw [labelled, sum_labelFrom (fun n op hne => (placed_only hne op).2), if_pos (Nat.zero_le i),
      Nat.sub_zero, hop]
    exact hone

end Label

/-! ## The book over whole runs -/

section Claim

variable {Spec : Type} {blake3 : List UInt8 → Bytes32}

/-- Every answer of a run comes from a book a run reaches. -/
theorem answer_of_run {b b' : OrderBook Spec} {ops : List (BookOp Spec)}
    {answers : List (BookAnswer Spec)} (hkept : Kept b)
    (h : Transcript.run (bookStep blake3) b ops = some (answers, b')) {a : BookAnswer Spec}
    (ha : a ∈ answers) : ∃ op c c', Kept c ∧ bookStep blake3 c op = some (a, c') := by
  induction ops generalizing b answers with
  | nil =>
    obtain ⟨rfl, -⟩ := Transcript.run_nil_eq_some.mp h
    exact absurd ha List.not_mem_nil
  | cons op ops ih =>
    obtain ⟨a', c, rest, hstep, hrun, rfl⟩ := Transcript.run_cons_eq_some.mp h
    rcases List.mem_cons.mp ha with rfl | hlater
    · exact ⟨op, b, c, hkept, hstep⟩
    · exact ih (kept_step hkept hstep) hrun hlater

theorem matched_price {b b' : OrderBook Spec} {op : BookOp Spec} {m : MatchPair Spec}
    (hkept : Kept b) (h : bookStep blake3 b op = some (.matched (some m), b')) :
    m.price = m.ask.price ∧ m.price ≤ m.bid.price := by
  obtain ⟨_, _, _, _, _, _, -, ha, -⟩ | ⟨_, _, _, _, _, _, -, ha, -⟩ | ⟨pair, -, ha, hmatch⟩ :=
    bookStep_cases h
  · cases ha
  · cases ha
  · cases ha
    obtain ⟨hnone, -⟩ | ⟨m', kb, ka, seq, hsome, hm⟩ := matchTop_cases hkept hmatch
    · cases hnone
    · cases hsome
      rw [hm.price]
      exact ⟨rfl, hm.crosses⟩

/-- How many orders a step may leave: a placement adds one, a match takes away the
orders it fills, and without a match the book is left alone. -/
def Counted (b b' : OrderBook Spec) : BookOp Spec → BookAnswer Spec → Prop
  | .placeBid .., _ => b'.bidCount = b.bidCount + 1 ∧ b'.askCount = b.askCount
  | .placeAsk .., _ => b'.bidCount = b.bidCount ∧ b'.askCount = b.askCount + 1
  | .matchTop, .matched (some m) =>
    b'.bidCount + (if m.bid.qty = m.qty then 1 else 0) = b.bidCount ∧
      b'.askCount + (if m.ask.qty = m.qty then 1 else 0) = b.askCount
  | .matchTop, .matched none => b' = b
  | .matchTop, .placed _ => False

theorem counted_step {b b' : OrderBook Spec} {op : BookOp Spec} {a : BookAnswer Spec}
    (hkept : Kept b) (h : bookStep blake3 b op = some (a, b')) : Counted b b' op a := by
  obtain ⟨spec, price, qty, owner, ts, id, rfl, rfl, rfl⟩ |
    ⟨spec, price, qty, owner, ts, id, rfl, rfl, rfl⟩ | ⟨pair, rfl, rfl, hmatch⟩ := bookStep_cases h
  · exact ⟨(SortedMap.insert_perm _ (hkept.bids.fresh price)).length_eq, rfl⟩
  · exact ⟨rfl, (SortedMap.insert_perm _ (hkept.asks.fresh price)).length_eq⟩
  · obtain ⟨rfl, rfl, -⟩ | ⟨m, kb, ka, seq, rfl, hm⟩ := matchTop_cases hkept hmatch
    · rfl
    · exact ⟨refill_length hkept.bids hm.bid hm.qty_le.1 hm.bids,
        refill_length (hm.asks_kept hkept) hm.ask hm.qty_le.2 hm.asks⟩

/-- **The order book conserves.** Over any run that stays within the sequence
numbers, as every run of fewer than `2 ^ 63` operations does: there is a run of
the same operations, labelled by position, that differs in the labels alone, and
in it the fills of the order placed at each position and what rests of it add up
to the quantity placed, at one place in the book at most; every match is at the
ask's price and at most at the bid's; and from the book reached, a step without
a match leaves the book alone, a placement adds one order, and a match takes
away the orders it fills. -/
theorem order_book_conserves (ops : List (BookOp Spec)) :
    (2 * ops.length < 2 ^ 64 → (Transcript.run (bookStep blake3) .new ops).isSome) ∧
    ∀ answers b, Transcript.run (bookStep blake3) .new ops = some (answers, b) →
      (∃ answers' b', Transcript.run (bookStep blake3) .new (labelled ops) = some (answers', b') ∧
        answers'.map (BookAnswer.map Prod.snd) = answers ∧ b'.map Prod.snd = b ∧
        ∀ i op spec qty, ops[i]? = some op → op.placement = some (spec, qty) →
          (answers'.map (·.filled (only i))).sum + resting (only i) b' = qty ∧
          restingOrders (only i) b' ≤ 1) ∧
      (∀ m, .matched (some m) ∈ answers → m.price = m.ask.price ∧ m.price ≤ m.bid.price) ∧
      ∀ op a b', bookStep blake3 b op = some (a, b') → Counted b b' op a := by
  have hzero : (OrderBook.new : OrderBook Spec).nextSeq = 0 := rfl
  refine ⟨fun hlen => run_isSome kept_new (by omega), ?_⟩
  intro answers b hrun
  refine ⟨?_, ?_, fun op a b' hstep => counted_step (kept_run kept_new hrun) hstep⟩
  · rw [run_labelled] at hrun
    obtain ⟨⟨answers', b'⟩, hrun', heq⟩ := Option.map_eq_some_iff.mp hrun
    cases heq
    refine ⟨answers', b', hrun', rfl, rfl, ?_⟩
    intro i op spec qty hop hplace
    obtain ⟨hfill, horders⟩ := run_conserves kept_new hrun' (only i)
    -- of all that was placed, the label picks out the one order
    obtain ⟨hqty, hone⟩ := sum_placed_labelled hop hplace
    rw [hqty] at hfill
    rw [hone] at horders
    have hnew : resting (only i) (OrderBook.new : OrderBook (Nat × Spec)) = 0 := rfl
    have hnew' : restingOrders (only i) (OrderBook.new : OrderBook (Nat × Spec)) = 0 := rfl
    omega
  · intro m hm
    obtain ⟨op, c, c', hkept, hstep⟩ := answer_of_run kept_new hrun hm
    exact matched_price hkept hstep

end Claim

end CipherOcto.Market
