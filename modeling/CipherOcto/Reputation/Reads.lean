import CipherOcto.Reputation.Store

/-!
# Reading the events back

A peer catches up by asking for the events above the largest id it has. The ids start
at 0 and the first question is about the ids above 0, so the first event is never
delivered; from the second on every event is, once and in order.

An aggregate is kept as the events come in and can be computed again from the map. The
first takes the last event by the order of the calls; the second takes the latest by
its time for the last event, and the last it happens to come across for the time of the
update. So the two agree in every iteration only where there is one event.

> `pairs_events_recordAll`: the map holds the events as they were stored.
> `lookup_aggregates_recordAll`: the aggregate is that of the events of its key.
> `gossipCatchUp_recordAll`: a catch-up cuts the events off at the id it is given.
-/

namespace CipherOcto.Reputation

open Determin Encoding Trace

variable (env : Env)

/-! ## The code -/

namespace Store

/-- `read_aggregate`. -/
def readAggregate (s : Store) (did : RecorderDid) (kind : SignalKind) (layer : ReputationLayer) :
    Except ReputationError ReputationAggregate :=
  match s.aggregates.lookup ⟨env.didHash did, kind, layer⟩ with
  | some agg => .ok agg
  | none => .error (.aggregateNotFound 0 kind.discriminant layer.discriminant)

/-- What the loop of `sliding_window` carries. -/
structure Window where
  score : Dfp
  samples : Nat
  severityTotal : Nat
  lastEventId : Nat
  lastEventUnix : Nat
  updatedAtUnix : Nat

def Window.start : Window := ⟨Dfp.zero, 0, 0, 0, 0, 0⟩

/-- One event of the loop. -/
def Window.add (w : Window) (e : SignalEvent) : Window where
  score := env.ewma w.score w.samples e.scoreDelta
  samples := (w.samples + 1) % 2 ^ 64
  severityTotal := if e.signalKind = .slash then saturatingSucc w.severityTotal else w.severityTotal
  lastEventId := if w.lastEventUnix ≤ e.recordedAtUnix then e.eventId else w.lastEventId
  lastEventUnix := if w.lastEventUnix ≤ e.recordedAtUnix then e.recordedAtUnix else w.lastEventUnix
  updatedAtUnix := e.recordedAtUnix

/-- The events the loop does not skip. -/
def inWindow (key : AggregateKey) (cutoff nowUnix : Nat) (entry : EventKey × SignalEvent) : Bool :=
  entry.1.didHash = key.didHash ∧ entry.2.signalKind = key.kind ∧ entry.2.layer = key.layer ∧
    cutoff ≤ entry.2.recordedAtUnix ∧ entry.2.recordedAtUnix ≤ nowUnix

/-- `sliding_window`, which goes through the events in the order it is given. -/
def slidingWindow (s : Store) (order : EventKey → Nat) (did : RecorderDid) (kind : SignalKind)
    (layer : ReputationLayer) (windowSecs nowUnix : Nat) :
    Except ReputationError ReputationAggregate :=
  if windowSecs = 0 then .error .slidingWindowZero
  else
    let seen := (s.events.iterate order).filter
      (inWindow ⟨env.didHash did, kind, layer⟩ (nowUnix - windowSecs) nowUnix)
    let w := (seen.map Prod.snd).foldl (Window.add env) .start
    .ok ⟨did, kind, layer, w.score, w.samples, w.severityTotal, w.lastEventId, w.lastEventUnix,
      w.updatedAtUnix⟩

/-- `gossip_catch_up`. -/
def gossipCatchUp (s : Store) (order : EventKey → Nat) (sinceEventId : Nat) : List SignalEvent :=
  sortBy SignalEvent.eventId
    (((s.events.iterate order).map Prod.snd).filter fun e => sinceEventId < e.eventId)

end Store

/-! ## Recorded events -/

/-- The store after the events have been recorded. -/
def recordAll (es : List SignalEvent) : Store :=
  es.foldl (fun s e => (s.recordSignal env e).2) .new

/-- The events as they are stored, with their ids. -/
def stored (es : List SignalEvent) : List SignalEvent :=
  es.mapIdx fun i e => e.withId (i % 2 ^ 64)

theorem stored_concat (es : List SignalEvent) (e : SignalEvent) :
    stored (es ++ [e]) = stored es ++ [e.withId (es.length % 2 ^ 64)] :=
  List.mapIdx_concat

@[simp] theorem length_stored (es : List SignalEvent) : (stored es).length = es.length :=
  List.length_mapIdx

/-- As long as the counter does not wrap, the ids are the places. -/
theorem map_eventId_stored {es : List SignalEvent} (h : es.length ≤ 2 ^ 64) :
    (stored es).map SignalEvent.eventId = List.range es.length := by
  refine List.ext_getElem (by simp) fun i hi _ => ?_
  have hlt : i < 2 ^ 64 := lt_of_lt_of_le (by simpa using hi) h
  simp only [stored, List.getElem_map, List.getElem_mapIdx, List.getElem_range]
  exact Nat.mod_eq_of_lt hlt

variable {env}

theorem recordAll_concat (es : List SignalEvent) (e : SignalEvent) :
    recordAll env (es ++ [e]) = ((recordAll env es).recordSignal env e).2 := by
  rw [recordAll, List.foldl_append]
  rfl

theorem nextEventId_recordAll (es : List SignalEvent) :
    (recordAll env es).nextEventId = es.length % 2 ^ 64 := by
  induction es using List.reverseRecOn with
  | nil => rfl
  | append_singleton es e ih =>
    rw [recordAll_concat, Store.recordSignal, ih, List.length_append, List.length_singleton,
      Nat.mod_add_mod]

/-- The map holds the events as they were stored, each under its own key. -/
theorem pairs_events_recordAll {es : List SignalEvent} (h : es.length ≤ 2 ^ 64) :
    (recordAll env es).events.pairs.Perm ((stored es).map fun e => (env.eventKey e, e)) := by
  induction es using List.reverseRecOn with
  | nil => exact List.Perm.nil
  | append_singleton es e ih =>
    rw [List.length_append, List.length_singleton] at h
    have hlt : es.length < 2 ^ 64 := by omega
    have hperm := ih (by omega)
    rw [recordAll_concat, Store.recordSignal, nextEventId_recordAll, stored_concat]
    -- the id is new, and the key with it
    have hfresh : env.eventKey (e.withId (es.length % 2 ^ 64)) ∉ (recordAll env es).events := by
      intro hmem
      rw [AList.mem_keys, ← HashMap.map_fst_pairs, (hperm.map Prod.fst).mem_iff, List.map_map] at hmem
      obtain ⟨e', he', hkey⟩ := List.mem_map.mp hmem
      have hid : e'.eventId = es.length % 2 ^ 64 := congrArg EventKey.eventId hkey
      have hrange := List.mem_map_of_mem (f := SignalEvent.eventId) he'
      rw [map_eventId_stored (by omega), List.mem_range, hid, Nat.mod_eq_of_lt hlt] at hrange
      exact absurd hrange (lt_irrefl _)
    simp only [HashMap.pairs_insert hfresh, List.map_append, List.map_cons, List.map_nil]
    exact (hperm.cons _).trans (List.perm_append_singleton _ _).symm

/-- The events of an iteration are those that were stored. -/
theorem iterate_recordAll_perm (env : Env) {es : List SignalEvent} (h : es.length ≤ 2 ^ 64)
    (order : EventKey → Nat) :
    ((recordAll env es).events.iterate order).Perm ((stored es).map fun e => (env.eventKey e, e)) :=
  (HashMap.iterate_perm order _).trans (pairs_events_recordAll h)

/-! ## Catching up -/

/-- A catch-up cuts the events off at the id it is given. -/
theorem gossipCatchUp_recordAll {es : List SignalEvent} (h : es.length ≤ 2 ^ 64)
    (order : EventKey → Nat) (since : Nat) :
    (recordAll env es).gossipCatchUp order since = (stored es).drop (since + 1) := by
  have hids := map_eventId_stored h
  have hsorted : (stored es).Pairwise fun a b => a.eventId < b.eventId := by
    rw [← List.pairwise_map, hids]
    exact List.pairwise_lt_range
  -- ids are places, so those above an id are those after a place
  have hdrop : ((stored es).filter fun e => since < e.eventId) = (stored es).drop (since + 1) := by
    rw [← List.take_append_drop (since + 1) (stored es), List.filter_append,
      List.filter_eq_nil_iff.mpr, List.filter_eq_self.mpr, List.nil_append,
      List.take_append_drop]
    · intro e he
      have hmem := List.mem_map_of_mem (f := SignalEvent.eventId) he
      rw [List.map_drop, hids, List.mem_drop_iff_getElem] at hmem
      obtain ⟨i, hi, hget⟩ := hmem
      rw [List.getElem_range] at hget
      simp only [decide_eq_true_eq]
      omega
    · intro e he
      have hmem := List.mem_map_of_mem (f := SignalEvent.eventId) he
      rw [List.map_take, hids, List.mem_take_iff_getElem] at hmem
      obtain ⟨i, hi, hget⟩ := hmem
      rw [List.getElem_range] at hget
      simp only [decide_eq_true_eq]
      omega
  have hperm : (((recordAll env es).events.iterate order).map Prod.snd).Perm (stored es) := by
    have hmap := (iterate_recordAll_perm env h order).map Prod.snd
    rw [List.map_map] at hmap
    exact hmap.trans (List.Perm.of_eq (List.map_id _))
  have hinj : Set.InjOn SignalEvent.eventId
      {e | e ∈ (((recordAll env es).events.iterate order).map Prod.snd).filter
        fun e => since < e.eventId} := by
    intro a ha b hb heq
    have hnodup : ((stored es).map SignalEvent.eventId).Nodup := hids ▸ List.nodup_range
    exact List.inj_on_of_nodup_map hnodup (hperm.mem_iff.mp (List.mem_of_mem_filter ha))
      (hperm.mem_iff.mp (List.mem_of_mem_filter hb)) heq
  rw [Store.gossipCatchUp, sortBy_congr hinj (hperm.filter _), hdrop]
  have hle : ((stored es).drop (since + 1)).Pairwise fun a b => a.eventId ≤ b.eventId :=
    (hsorted.imp fun hlt => hlt.le).drop
  exact hle.insertionSort_eq

/-- A store and a peer that catches up from it. -/
structure Exchange where
  store : Store
  received : List SignalEvent

def Exchange.new : Exchange := ⟨.new, []⟩

/-- The largest event id the peer has received, 0 before the first. -/
def Exchange.since (x : Exchange) : Nat := x.received.foldl (fun m e => max m e.eventId) 0

inductive ExchangeOp where
  | record (event : SignalEvent)
  | catchUp (order : EventKey → Nat)

/-- One call. The answer is what it hands to the peer. -/
def Exchange.step (env : Env) (x : Exchange) : ExchangeOp → List SignalEvent × Exchange
  | .record event => ([], { x with store := (x.store.recordSignal env event).2 })
  | .catchUp order =>
    let events := x.store.gossipCatchUp order x.since
    (events, { x with received := x.received ++ events })

/-- The events recorded in a run. -/
def recordsOf (ops : List ExchangeOp) : List SignalEvent :=
  ops.filterMap fun
    | .record event => some event
    | .catchUp _ => none

/-- What the peer has received so far. -/
def delivered (env : Env) (ops : List ExchangeOp) : List SignalEvent :=
  (trace (Exchange.step env) .new ops).flatMap Prod.snd

/-- Every event recorded so far, once, in the order of the ids. -/
def DeliversAll (env : Env) (ops : List ExchangeOp) : Prop :=
  (delivered env ops).Perm (stored (recordsOf ops)) ∧
    (delivered env ops).Pairwise fun a b => a.eventId < b.eventId

theorem recordsOf_record (ops : List ExchangeOp) (event : SignalEvent) :
    recordsOf (ops ++ [.record event]) = recordsOf ops ++ [event] := List.filterMap_append

theorem recordsOf_catchUp (ops : List ExchangeOp) (order : EventKey → Nat) :
    recordsOf (ops ++ [.catchUp order]) = recordsOf ops :=
  List.filterMap_append.trans (List.append_nil _)

theorem delivered_concat (ops : List ExchangeOp) (op : ExchangeOp) :
    delivered env (ops ++ [op]) =
      delivered env ops ++ ((final (Exchange.step env) .new ops).step env op).1 := by
  rw [delivered, trace_append, List.flatMap_append, ← delivered]
  exact congrArg _ (List.append_nil _)

/-- Where a run has led to: the store of the recorded events, and a peer with what it was
handed. -/
theorem final_exchange (ops : List ExchangeOp) :
    final (Exchange.step env) .new ops = ⟨recordAll env (recordsOf ops), delivered env ops⟩ := by
  induction ops using List.reverseRecOn with
  | nil => rfl
  | append_singleton ops op ih =>
    rw [final_append, delivered_concat, ih]
    cases op with
    | record event =>
      rw [recordsOf_record, recordAll_concat]
      show Exchange.mk _ _ = Exchange.mk _ (delivered env ops ++ [])
      rw [List.append_nil]
    | catchUp order =>
      rw [recordsOf_catchUp]
      rfl

/-- Nothing with the id 0 is ever handed out. -/
theorem eventId_pos_of_delivered (env : Env) (ops : List ExchangeOp) : ∀ e ∈ delivered env ops, 0 < e.eventId := by
  induction ops using List.reverseRecOn with
  | nil => exact fun e he => absurd he List.not_mem_nil
  | append_singleton ops op ih =>
    intro e he
    rw [delivered_concat] at he
    rcases List.mem_append.mp he with hbefore | hnow
    · exact ih e hbefore
    · cases op with
      | record event => exact absurd hnow List.not_mem_nil
      | catchUp order =>
        have hfilter := List.of_mem_filter (mem_sortBy.mp hnow)
        exact lt_of_le_of_lt (Nat.zero_le _) (of_decide_eq_true hfilter)

theorem foldl_max_tail_range : ∀ n : Nat, (List.range n).tail.foldl max 0 = n - 1
  | 0 => rfl
  | 1 => rfl
  | n + 2 => by
    rw [List.range_succ, List.tail_append_of_ne_nil (by simp), List.foldl_append,
      foldl_max_tail_range (n + 1)]
    show max n (n + 1) = n + 1
    omega

/-- A peer that has the events up to some place, but for the first, has all but the first
after a catch-up. -/
theorem delivered_catchUp {ops : List ExchangeOp} (h : (recordsOf ops).length ≤ 2 ^ 64) {n : Nat}
    (hn : n ≤ (recordsOf ops).length)
    (hbefore : delivered env ops = ((stored (recordsOf ops)).take n).tail)
    (order : EventKey → Nat) :
    delivered env (ops ++ [.catchUp order]) = (stored (recordsOf ops)).tail := by
  have hsince : (final (Exchange.step env) .new ops).since = n - 1 := by
    rw [final_exchange]
    show (delivered env ops).foldl (fun m e => max m e.eventId) 0 = n - 1
    rw [hbefore, ← List.foldl_map (f := SignalEvent.eventId), List.map_tail, List.map_take,
      map_eventId_stored h, List.take_range, min_eq_left hn, foldl_max_tail_range]
  rw [delivered_concat]
  show delivered env ops ++ (final (Exchange.step env) .new ops).store.gossipCatchUp order
    (final (Exchange.step env) .new ops).since = _
  rw [hsince, final_exchange, hbefore]
  show _ ++ (recordAll env (recordsOf ops)).gossipCatchUp order (n - 1) = _
  rw [gossipCatchUp_recordAll h]
  cases n with
  | zero => rw [List.take_zero, List.tail_nil, List.nil_append, List.drop_one]
  | succ n =>
    rw [Nat.add_sub_cancel, ← List.drop_one, ← List.drop_one]
    cases hevents : stored (recordsOf ops) with
    | nil => simp
    | cons e rest => simp

theorem exists_delivered_eq (env : Env) (ops : List ExchangeOp) (h : (recordsOf ops).length ≤ 2 ^ 64) :
    ∃ n ≤ (recordsOf ops).length,
      delivered env ops = ((stored (recordsOf ops)).take n).tail := by
  induction ops using List.reverseRecOn with
  | nil => exact ⟨0, le_rfl, rfl⟩
  | append_singleton ops op ih =>
    cases op with
    | record event =>
      rw [recordsOf_record, List.length_append] at h
      obtain ⟨n, hn, hbefore⟩ := ih (by omega)
      refine ⟨n, ?_, ?_⟩
      · rw [recordsOf_record, List.length_append]
        omega
      · rw [recordsOf_record, stored_concat, List.take_append_of_le_length (by simpa using hn),
          delivered_concat, ← hbefore]
        exact List.append_nil _
    | catchUp order =>
      rw [recordsOf_catchUp] at h ⊢
      obtain ⟨n, hn, hbefore⟩ := ih h
      refine ⟨_, le_rfl, ?_⟩
      rw [delivered_catchUp h hn hbefore order, List.take_of_length_le (by simp)]

/-- The first event has the id 0. -/
theorem exists_stored_eventId_zero {es : List SignalEvent} (h : es ≠ []) :
    ∃ e ∈ stored es, e.eventId = 0 := by
  cases es with
  | nil => exact absurd rfl h
  | cons e es =>
    rw [stored, List.mapIdx_cons]
    exact ⟨_, List.mem_cons_self, rfl⟩

/-- **A catch-up delivers everything only where there is nothing.** However records and
catch-ups are interleaved, what the peer has received up to a catch-up is every event
recorded before it, once and in order, iff none was recorded. As long as the ids do not
wrap, it is every event but the first. -/
theorem catch_up_misses_first (env : Env) (ops : List ExchangeOp) (order : EventKey → Nat) :
    (DeliversAll env (ops ++ [.catchUp order]) ↔ ∀ event, .record event ∉ ops) ∧
    ((recordsOf ops).length ≤ 2 ^ 64 →
      delivered env (ops ++ [.catchUp order]) = (stored (recordsOf ops)).tail) := by
  have hnone : (∀ event, .record event ∉ ops) ↔ recordsOf ops = [] := by
    rw [recordsOf, List.filterMap_eq_nil_iff]
    constructor
    · intro h op hop
      cases op with
      | record event => exact absurd hop (h event)
      | catchUp order => rfl
    · intro h event hmem
      exact absurd (h _ hmem) (by simp)
  have htail (h : (recordsOf ops).length ≤ 2 ^ 64) :
      delivered env (ops ++ [.catchUp order]) = (stored (recordsOf ops)).tail := by
    obtain ⟨n, hn, hbefore⟩ := exists_delivered_eq env ops h
    exact delivered_catchUp h hn hbefore order
  refine ⟨?_, htail⟩
  rw [hnone, DeliversAll, recordsOf_catchUp]
  constructor
  · intro h
    by_contra hne
    obtain ⟨e, he, hid⟩ := exists_stored_eventId_zero hne
    have hpos := eventId_pos_of_delivered env _ e (h.1.mem_iff.mpr he)
    omega
  · intro hnil
    rw [htail (by rw [hnil]; exact Nat.zero_le _), hnil]
    exact ⟨List.Perm.nil, List.Pairwise.nil⟩

def sampleEvent (recordedAtUnix : Nat) : SignalEvent where
  eventId := 0
  recorderDid := Vector.replicate 52 0xAA
  controllerId := Vector.replicate 32 1
  signalKind := .outcome
  layer := .market
  scoreDelta := Dfp.zero
  recordedAtUnix := recordedAtUnix
  rotationProvenance := none
  auditRef := none
  anchorTxHash := none

/-- One event, and a catch-up that returns nothing. -/
theorem catch_up_misses_first_one_event :
    ¬∃ env, DeliversAll env [.record (sampleEvent 1000), .catchUp fun _ => 0] := by
  intro h
  obtain ⟨env, hperm, -⟩ := h
  obtain ⟨e, he, hid⟩ := exists_stored_eventId_zero (List.cons_ne_nil (sampleEvent 1000) [])
  have hpos := eventId_pos_of_delivered env _ e (hperm.mem_iff.mpr he)
  omega

/-! ## The two aggregates -/

/-- The events stored under a key. -/
def keyEvents (env : Env) (es : List SignalEvent) (key : AggregateKey) : List SignalEvent :=
  (stored es).filter fun e => env.aggregateKey e = key

/-- What `record_signal` makes of the events of one key. -/
def aggregateOf (env : Env) (es : List SignalEvent) : Option ReputationAggregate :=
  es.foldl (fun agg e => some ((agg.getD (.start e)).update env e)) none

/-- What the two reads are compared in. -/
def ReputationAggregate.counters (a : ReputationAggregate) : Nat × Nat × Nat × Nat × Nat :=
  (a.samples, a.severityTotal, a.lastEventId, a.lastEventUnix, a.updatedAtUnix)

theorem aggregateKey_withId (e : SignalEvent) (id : Nat) :
    env.aggregateKey (e.withId id) = env.aggregateKey e := rfl

theorem keyEvents_concat (es : List SignalEvent) (e : SignalEvent) (key : AggregateKey) :
    keyEvents env (es ++ [e]) key =
      if env.aggregateKey e = key then
        keyEvents env es key ++ [e.withId (es.length % 2 ^ 64)]
      else keyEvents env es key := by
  rw [keyEvents, stored_concat, List.filter_append, ← keyEvents, List.filter_singleton,
    aggregateKey_withId]
  split
  next h => rw [decide_eq_true h, cond_true]
  next h => rw [decide_eq_false h, cond_false, List.append_nil]

/-- The aggregate is that of the events of its key. -/
theorem lookup_aggregates_recordAll (es : List SignalEvent) (key : AggregateKey) :
    (recordAll env es).aggregates.lookup key = aggregateOf env (keyEvents env es key) := by
  induction es using List.reverseRecOn with
  | nil => rfl
  | append_singleton es e ih =>
    rw [recordAll_concat, keyEvents_concat, Store.recordSignal, nextEventId_recordAll]
    simp only [aggregateKey_withId]
    split
    next h =>
      rw [h, AList.lookup_insert, ih, aggregateOf, aggregateOf, List.foldl_append]
      rfl
    next h => rw [AList.lookup_insert_ne (Ne.symm h), ih]

/-- `severity_total` after events of one kind. -/
def severityOf (kind : SignalKind) (count : Nat) : Nat :=
  if kind = .slash then min count (2 ^ 64 - 1) else 0

theorem severityOf_succ {kind : SignalKind} {e : SignalEvent} (h : e.signalKind = kind) (n : Nat) :
    (if e.signalKind = .slash then saturatingSucc (severityOf kind n) else severityOf kind n) =
      severityOf kind (n + 1) := by
  rw [h]
  unfold severityOf saturatingSucc
  split
  · omega
  · rfl

/-- The aggregate counts the events of its key and keeps the last to come in. -/
theorem aggregateOf_concat (env : Env) {kind : SignalKind} {es : List SignalEvent} {e : SignalEvent}
    (h : ∀ x ∈ es ++ [e], x.signalKind = kind) :
    ∃ agg, aggregateOf env (es ++ [e]) = some agg ∧
      agg.counters = ((es.length + 1) % 2 ^ 64, severityOf kind (es.length + 1), e.eventId,
        e.recordedAtUnix, e.recordedAtUnix) := by
  have hstep : ∀ (es : List SignalEvent) e, aggregateOf env (es ++ [e]) =
      some (((aggregateOf env es).getD (.start e)).update env e) :=
    fun es e => List.foldl_append
  rw [hstep]
  refine ⟨_, rfl, ?_⟩
  have hcount : ((aggregateOf env es).getD (.start e)).samples = es.length % 2 ^ 64 ∧
      ((aggregateOf env es).getD (.start e)).severityTotal = severityOf kind es.length := by
    induction es using List.reverseRecOn generalizing e with
    | nil => exact ⟨rfl, by unfold severityOf; split <;> rfl⟩
    | append_singleton es e' ih =>
      have hkind : ∀ x ∈ es ++ [e'], x.signalKind = kind :=
        fun x hx => h x (List.mem_append_left _ hx)
      obtain ⟨hsamples, hseverity⟩ := ih hkind
      rw [hstep, Option.getD_some, List.length_append, List.length_singleton]
      refine ⟨?_, ?_⟩
      · show (_ + 1) % 2 ^ 64 = _
        rw [hsamples, Nat.mod_add_mod]
      · show (if e'.signalKind = .slash then saturatingSucc _ else _) = _
        rw [hseverity]
        exact severityOf_succ (hkind e' (List.mem_append_right _ List.mem_cons_self)) es.length
  obtain ⟨hsamples, hseverity⟩ := hcount
  show ((_ + 1) % 2 ^ 64, (if e.signalKind = .slash then saturatingSucc _ else _), _) = _
  rw [hsamples, hseverity, Nat.mod_add_mod,
    severityOf_succ (h e (List.mem_append_right _ List.mem_cons_self))]
  rfl

/-- What the loop has at its end. -/
def windowOf (env : Env) (es : List SignalEvent) : Store.Window :=
  es.foldl (Store.Window.add env) .start

theorem windowOf_concat (es : List SignalEvent) (e : SignalEvent) :
    windowOf env (es ++ [e]) = (windowOf env es).add env e := List.foldl_append

theorem windowOf_counts (env : Env) {kind : SignalKind} {es : List SignalEvent}
    (h : ∀ x ∈ es, x.signalKind = kind) :
    (windowOf env es).samples = es.length % 2 ^ 64 ∧
      (windowOf env es).severityTotal = severityOf kind es.length := by
  induction es using List.reverseRecOn with
  | nil => exact ⟨rfl, by unfold severityOf; split <;> rfl⟩
  | append_singleton es e ih =>
    obtain ⟨hsamples, hseverity⟩ := ih fun x hx => h x (List.mem_append_left _ hx)
    rw [windowOf_concat, List.length_append, List.length_singleton]
    refine ⟨?_, ?_⟩
    · show (_ + 1) % 2 ^ 64 = _
      rw [hsamples, Nat.mod_add_mod]
    · show (if e.signalKind = .slash then saturatingSucc _ else _) = _
      rw [hseverity]
      exact severityOf_succ (h e (List.mem_append_right _ List.mem_cons_self)) es.length

theorem windowOf_lastEventUnix_le {es : List SignalEvent} {t : Nat}
    (h : ∀ x ∈ es, x.recordedAtUnix ≤ t) : (windowOf env es).lastEventUnix ≤ t := by
  induction es using List.reverseRecOn with
  | nil => exact Nat.zero_le t
  | append_singleton es e ih =>
    rw [windowOf_concat]
    show (if _ ≤ e.recordedAtUnix then e.recordedAtUnix else _) ≤ t
    split
    · exact h e (List.mem_append_right _ List.mem_cons_self)
    · exact ih fun x hx => h x (List.mem_append_left _ hx)

/-- The fields that depend on the order, at those of the event recorded last. -/
def Store.Window.EndsAt (w : Store.Window) (last : SignalEvent) : Prop :=
  w.lastEventId = last.eventId ∧ w.lastEventUnix = last.recordedAtUnix ∧
    w.updatedAtUnix = last.recordedAtUnix

theorem windowOf_singleton_endsAt (e : SignalEvent) : (windowOf env [e]).EndsAt e := by
  simp [Store.Window.EndsAt, windowOf, Store.Window.add, Store.Window.start]

/-- The window reaches over the events of the key. -/
def Covers (env : Env) (es : List SignalEvent) (key : AggregateKey) (windowSecs nowUnix : Nat) :
    Prop :=
  ∀ e ∈ keyEvents env es key, nowUnix - windowSecs ≤ e.recordedAtUnix ∧ e.recordedAtUnix ≤ nowUnix

/-- The events the loop comes across, in its order. -/
def seenEvents (env : Env) (es : List SignalEvent) (order : EventKey → Nat) (key : AggregateKey)
    (windowSecs nowUnix : Nat) : List SignalEvent :=
  (((recordAll env es).events.iterate order).filter
    (Store.inWindow key (nowUnix - windowSecs) nowUnix)).map Prod.snd

section Covered

variable {es : List SignalEvent} {key : AggregateKey} {windowSecs nowUnix : Nat}

theorem inWindow_of_covers (hcover : Covers env es key windowSecs nowUnix) {e : SignalEvent}
    (he : e ∈ stored es) :
    Store.inWindow key (nowUnix - windowSecs) nowUnix (env.eventKey e, e) =
      decide (env.aggregateKey e = key) := by
  rw [Store.inWindow, decide_eq_decide]
  constructor
  · intro h
    obtain ⟨hdid, hkind, hlayer, -⟩ := h
    cases key
    exact congr (congr (congrArg _ hdid) hkind) hlayer
  · intro h
    have hin := hcover e (List.mem_filter.mpr ⟨he, decide_eq_true h⟩)
    rw [← h]
    exact ⟨rfl, rfl, rfl, hin⟩

theorem seenEvents_perm (hlen : es.length ≤ 2 ^ 64) (hcover : Covers env es key windowSecs nowUnix)
    (order : EventKey → Nat) :
    (seenEvents env es order key windowSecs nowUnix).Perm (keyEvents env es key) := by
  have hperm := ((iterate_recordAll_perm env hlen order).filter
    (Store.inWindow key (nowUnix - windowSecs) nowUnix)).map Prod.snd
  rw [List.filter_map, List.map_map] at hperm
  refine hperm.trans (List.Perm.of_eq ?_)
  rw [keyEvents, ← List.filter_congr fun e he => inWindow_of_covers hcover he]
  exact List.map_id _

/-- Every event of the key is the last the loop comes across in some order. -/
theorem exists_seenEvents_last (hlen : es.length ≤ 2 ^ 64)
    (hcover : Covers env es key windowSecs nowUnix) {e : SignalEvent}
    (he : e ∈ keyEvents env es key) :
    ∃ order front, seenEvents env es order key windowSecs nowUnix = front ++ [e] := by
  obtain ⟨hstored, hkey⟩ := List.mem_filter.mp he
  have hmem : (env.eventKey e, e) ∈ (recordAll env es).events.pairs :=
    (pairs_events_recordAll hlen).mem_iff.mpr (List.mem_map.mpr ⟨e, hstored, rfl⟩)
  obtain ⟨order, front, hlast⟩ := HashMap.exists_order_last hmem
  refine ⟨order, (front.filter (Store.inWindow key (nowUnix - windowSecs) nowUnix)).map Prod.snd, ?_⟩
  rw [seenEvents, hlast, List.filter_append, List.filter_singleton, inWindow_of_covers hcover hstored,
    hkey, cond_true, List.map_append]
  rfl

end Covered

/-- The two reads agree, in whatever order the map is gone through. -/
def ReadsAgree (env : Env) (es : List SignalEvent) (did : RecorderDid) (kind : SignalKind)
    (layer : ReputationLayer) (windowSecs nowUnix : Nat) : Prop :=
  ∀ order, ∃ agg window, (recordAll env es).readAggregate env did kind layer = .ok agg ∧
    (recordAll env es).slidingWindow env order did kind layer windowSecs nowUnix = .ok window ∧
    window.counters = agg.counters

section Agreement

variable {es front : List SignalEvent} {last : SignalEvent} {did : RecorderDid} {kind : SignalKind}
  {layer : ReputationLayer} {windowSecs nowUnix : Nat}

theorem signalKind_of_mem_keyEvents {e : SignalEvent}
    (he : e ∈ keyEvents env es ⟨env.didHash did, kind, layer⟩) : e.signalKind = kind :=
  congrArg AggregateKey.kind (of_decide_eq_true (List.mem_filter.mp he).2)

/-- The counts are the same in every order, so the reads agree where the rest does. -/
theorem readsAgree_iff_windows (hlen : es.length ≤ 2 ^ 64)
    (hcover : Covers env es ⟨env.didHash did, kind, layer⟩ windowSecs nowUnix)
    (hkeys : keyEvents env es ⟨env.didHash did, kind, layer⟩ = front ++ [last])
    (hwindow : windowSecs ≠ 0) :
    ReadsAgree env es did kind layer windowSecs nowUnix ↔
      ∀ order, (windowOf env
        (seenEvents env es order ⟨env.didHash did, kind, layer⟩ windowSecs nowUnix)).EndsAt last := by
  refine forall_congr' fun order => ?_
  generalize hseen : seenEvents env es order ⟨env.didHash did, kind, layer⟩ windowSecs nowUnix = seen
  have hperm : seen.Perm (front ++ [last]) := hseen ▸ hkeys ▸ seenEvents_perm hlen hcover order
  have hkind : ∀ x ∈ front ++ [last], x.signalKind = kind :=
    fun x hx => signalKind_of_mem_keyEvents (hkeys ▸ hx)
  obtain ⟨agg, hagg, hcounters⟩ := aggregateOf_concat env hkind
  have hseenKind : ∀ x ∈ seen, x.signalKind = kind := fun x hx => hkind x (hperm.mem_iff.mp hx)
  obtain ⟨hsamples, hseverity⟩ := windowOf_counts env hseenKind
  have hread : (recordAll env es).readAggregate env did kind layer = .ok agg := by
    rw [Store.readAggregate, lookup_aggregates_recordAll, hkeys, hagg]
  have hslide : (recordAll env es).slidingWindow env order did kind layer windowSecs nowUnix =
      .ok ⟨did, kind, layer, (windowOf env seen).score, (windowOf env seen).samples,
        (windowOf env seen).severityTotal, (windowOf env seen).lastEventId,
        (windowOf env seen).lastEventUnix, (windowOf env seen).updatedAtUnix⟩ := by
    rw [Store.slidingWindow, if_neg hwindow, ← hseen]
    rfl
  have hlength : seen.length = front.length + 1 := by
    rw [hperm.length_eq, List.length_append, List.length_singleton]
  rw [hread, hslide]
  constructor
  · intro h
    obtain ⟨agg', window, hagg', hwindow', heq⟩ := h
    cases hagg'
    cases hwindow'
    rw [hcounters] at heq
    obtain ⟨-, -, hid, hunix, hupdated⟩ := by simpa [ReputationAggregate.counters] using heq
    exact ⟨hid, hunix, hupdated⟩
  · intro h
    obtain ⟨hid, hunix, hupdated⟩ := h
    refine ⟨agg, _, rfl, rfl, ?_⟩
    rw [hcounters, ReputationAggregate.counters, hsamples, hseverity, hid, hunix, hupdated, hlength]

/-- Another event of the key can be the last in the order of the loop, and then the times
have to be the same and the ids are not. -/
theorem not_readsAgree_of_two (hlen : es.length ≤ 2 ^ 64)
    (hcover : Covers env es ⟨env.didHash did, kind, layer⟩ windowSecs nowUnix)
    (hkeys : keyEvents env es ⟨env.didHash did, kind, layer⟩ = front ++ [last])
    (hwindow : windowSecs ≠ 0) {other : SignalEvent} (hother : other ∈ front) :
    ¬ReadsAgree env es did kind layer windowSecs nowUnix := by
  intro hagree
  have hall := (readsAgree_iff_windows hlen hcover hkeys hwindow).mp hagree
  have htime : ∀ x ∈ front ++ [last], x.recordedAtUnix = last.recordedAtUnix := by
    intro x hx
    obtain ⟨order, rest, hlast⟩ := exists_seenEvents_last hlen hcover (hkeys ▸ hx)
    obtain ⟨-, -, hupdated⟩ := hall order
    rw [hlast, windowOf_concat] at hupdated
    exact hupdated
  obtain ⟨order, rest, hlast⟩ := exists_seenEvents_last hlen hcover
    (hkeys ▸ List.mem_append_left _ hother)
  have hrest : ∀ x ∈ rest, x.recordedAtUnix ≤ other.recordedAtUnix := by
    intro x hx
    have hmem : x ∈ front ++ [last] := by
      rw [← hkeys, ← (seenEvents_perm hlen hcover order).mem_iff, hlast]
      exact List.mem_append_left _ hx
    rw [htime x hmem, htime other (List.mem_append_left _ hother)]
  obtain ⟨hid, -, -⟩ := hall order
  rw [hlast, windowOf_concat] at hid
  have hlate : (windowOf env rest).lastEventUnix ≤ other.recordedAtUnix :=
    windowOf_lastEventUnix_le hrest
  have hsame : other.eventId = last.eventId := by
    rw [← hid]
    exact (if_pos hlate).symm
  -- the ids of stored events are all different
  have hnodup : ((front ++ [last]).map SignalEvent.eventId).Nodup := by
    rw [← hkeys]
    exact (map_eventId_stored hlen ▸ List.nodup_range).sublist (List.filter_sublist.map _)
  rw [List.map_append, List.nodup_append] at hnodup
  exact hnodup.2.2 _ (List.mem_map_of_mem hother) _ List.mem_cons_self hsame

end Agreement

/-- **Two reads, one event.** Where the window reaches over the events of a DID, kind and
layer, of which there are some, the reads agree in every order the map is gone through
iff the window is not empty and there is one event. -/
theorem reads_agree_iff_one_event (env : Env) (es : List SignalEvent) (did : RecorderDid)
    (kind : SignalKind) (layer : ReputationLayer) (windowSecs nowUnix : Nat)
    (hlen : es.length ≤ 2 ^ 64) (hne : keyEvents env es ⟨env.didHash did, kind, layer⟩ ≠ [])
    (hcover : Covers env es ⟨env.didHash did, kind, layer⟩ windowSecs nowUnix) :
    ReadsAgree env es did kind layer windowSecs nowUnix ↔
      0 < windowSecs ∧ (keyEvents env es ⟨env.didHash did, kind, layer⟩).length = 1 := by
  obtain ⟨front, last, hkeys⟩ := (List.eq_nil_or_concat' _).resolve_left hne
  rcases Nat.eq_zero_or_pos windowSecs with hzero | hpos
  · refine iff_of_false (fun h => ?_) (fun h => absurd hzero h.1.ne')
    obtain ⟨_, _, -, hslide, -⟩ := h fun _ => 0
    rw [Store.slidingWindow, if_pos hzero] at hslide
    cases hslide
  · rw [hkeys]
    cases front with
    | cons other rest =>
      refine iff_of_false ?_ (fun h => ?_)
      · exact not_readsAgree_of_two hlen hcover hkeys hpos.ne' List.mem_cons_self
      · have hlength := h.2
        rw [List.length_append, List.length_cons, List.length_singleton] at hlength
        omega
    | nil =>
      refine iff_of_true ((readsAgree_iff_windows hlen hcover hkeys hpos.ne').mpr fun order => ?_)
        ⟨hpos, rfl⟩
      have hseen := (seenEvents_perm hlen hcover order).trans (List.Perm.of_eq hkeys)
      rw [List.nil_append, List.perm_singleton] at hseen
      rw [hseen]
      exact windowOf_singleton_endsAt last

/-- A key of one recorder, with the score left where it is. -/
def sampleReads : Env where
  blake3 _ := sampleDidHash
  verifyDispatch _ _ _ _ := false
  ewma cur _ _ := cur

theorem reads_agree_iff_one_event_sample :
    ReadsAgree sampleReads [sampleEvent 1000] (Vector.replicate 52 0xAA) .outcome .market 10 1000 ↔
      0 < 10 ∧ (keyEvents sampleReads [sampleEvent 1000]
        ⟨sampleReads.didHash (Vector.replicate 52 0xAA), .outcome, .market⟩).length = 1 := by
  refine reads_agree_iff_one_event _ _ _ _ _ 10 1000 (by decide) ?_ ?_
  · decide +kernel
  · intro e he
    cases List.mem_singleton.mp (List.mem_of_mem_filter he)
    decide

/-- Two events, the later one recorded first. -/
theorem reads_disagree_two_events :
    ¬∃ env, ReadsAgree env [sampleEvent 1001, sampleEvent 1000] (Vector.replicate 52 0xAA) .outcome
      .market 10 1001 := by
  intro h
  obtain ⟨env, hagree⟩ := h
  have hkeys : keyEvents env [sampleEvent 1001, sampleEvent 1000]
      ⟨env.didHash (Vector.replicate 52 0xAA), .outcome, .market⟩ =
        [(sampleEvent 1001).withId 0] ++ [(sampleEvent 1000).withId 1] := by
    refine List.filter_eq_self.mpr fun e he => decide_eq_true ?_
    rcases List.mem_cons.mp he with rfl | he
    · rfl
    · cases List.mem_singleton.mp he
      rfl
  refine not_readsAgree_of_two (by decide) ?_ hkeys (by decide) List.mem_cons_self hagree
  intro e he
  rw [hkeys] at he
  rcases List.mem_cons.mp he with rfl | he
  · decide
  · cases List.mem_singleton.mp he
    decide

end CipherOcto.Reputation
