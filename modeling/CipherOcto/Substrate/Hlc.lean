import CipherOcto.Lib.Machine
import CipherOcto.Lib.Trace
import CipherOcto.Encoding.Constraint

/-!
# The hybrid logical clock

A clock keeps the largest physical time it has issued and, at that time, the
last logical counter. `now` and `observe` advance the pair; `observe` also
passes the remote pair. Where the counter is carried on rather than reset, the
code adds one first and tests for `u32::MAX` afterwards, so a counter already
at `u32::MAX` overflows before the test is reached.

> `monotonic_iff`: a run is monotonic exactly when none of its steps carries on
> a counter at `u32::MAX`.

`Tracked` gives both builds at once: `val` is the wrapping one, `ovf` says
where the checked one panics.
-/

namespace CipherOcto.Substrate

open Encoding Machine Trace

/-! ## The code -/

/-- `WriterNodeId`: a 32-byte node identity. -/
abbrev WriterNodeId := Bytes32

structure HlcTimestamp where
  physicalMs : UInt64
  logical : UInt32
  writerNodeId : WriterNodeId
deriving DecidableEq

inductive HlcError where
  | logicalOverflow
  | remoteSkewExceedsCap (observed remote capMs : UInt64)
deriving DecidableEq

/-- `HlcClock`. The clock source is not part of the state: each call is given
the reading it makes. -/
structure HlcClock where
  lastPhysicalMs : UInt64
  lastLogical : UInt32
  writerNodeId : WriterNodeId
deriving DecidableEq

def HlcClock.new (writerNodeId : WriterNodeId) : HlcClock := ⟨0, 0, writerNodeId⟩

/-- `u32::MAX`. -/
def u32Max : UInt32 := 0xFFFFFFFF

/-- `a + b` on `u32`. -/
def addU32 (a b : UInt32) : Tracked UInt32 := ⟨a + b, decide (2 ^ 32 ≤ a.toNat + b.toNat)⟩

/-- The increment every carrying branch makes: add, then test. -/
def nextLogical (last : UInt32) : Tracked (Except HlcError UInt32) := do
  let next ← addU32 last 1
  pure (if next = u32Max then .error .logicalOverflow else .ok next)

/-- `abs_diff`. -/
def absDiff (a b : UInt64) : UInt64 := if a < b then b - a else a - b

def maxSkewMs : UInt64 := 1000

namespace HlcClock

/-- The two stores at the end of a call, or the early return. -/
def store (c : HlcClock) (physicalMs : UInt64) :
    Except HlcError UInt32 → Except HlcError HlcTimestamp × HlcClock
  | .error e => (.error e, c)
  | .ok logical =>
    (.ok ⟨physicalMs, logical, c.writerNodeId⟩,
      { c with lastPhysicalMs := physicalMs, lastLogical := logical })

/-- The counter `now` gives a timestamp at `physicalMs`. -/
def nowLogical (c : HlcClock) (physicalMs : UInt64) : Tracked (Except HlcError UInt32) :=
  if physicalMs = c.lastPhysicalMs then nextLogical c.lastLogical else pure (.ok 0)

/-- `HlcClock::now`. -/
def now (c : HlcClock) (observed : UInt64) :
    Tracked (Except HlcError HlcTimestamp × HlcClock) := do
  let physicalMs := max observed c.lastPhysicalMs
  let logical ← c.nowLogical physicalMs
  pure (c.store physicalMs logical)

/-- The counter `observe` gives a timestamp at `physicalMs`. -/
def observeLogical (c : HlcClock) (remote : HlcTimestamp) (physicalMs : UInt64) :
    Tracked (Except HlcError UInt32) :=
  if physicalMs = c.lastPhysicalMs ∧ physicalMs = remote.physicalMs then
    nextLogical (max c.lastLogical remote.logical)
  else if physicalMs = c.lastPhysicalMs then nextLogical c.lastLogical
  else if physicalMs = remote.physicalMs then nextLogical remote.logical
  else pure (.ok 0)

/-- `HlcClock::observe`. -/
def observe (c : HlcClock) (remote : HlcTimestamp) (observed : UInt64) :
    Tracked (Except HlcError HlcTimestamp × HlcClock) :=
  if absDiff remote.physicalMs observed > maxSkewMs then
    pure (.error (.remoteSkewExceedsCap observed remote.physicalMs maxSkewMs), c)
  else do
    let physicalMs := max (max observed c.lastPhysicalMs) remote.physicalMs
    let logical ← c.observeLogical remote physicalMs
    pure (c.store physicalMs logical)

end HlcClock

inductive ClockOp where
  | now (observed : UInt64)
  | observe (remote : HlcTimestamp) (observed : UInt64)
deriving DecidableEq

def trackedStep (c : HlcClock) : ClockOp → Tracked (Except HlcError HlcTimestamp × HlcClock)
  | .now observed => c.now observed
  | .observe remote observed => c.observe remote observed

/-- One call in the wrapping build. -/
def clockStep (c : HlcClock) (op : ClockOp) : Except HlcError HlcTimestamp × HlcClock :=
  (trackedStep c op).val

/-! ## What a run should give -/

/-- The order the timestamps are issued in. -/
def Earlier (p : UInt64) (l : UInt32) (t : HlcTimestamp) : Prop :=
  p < t.physicalMs ∨ p = t.physicalMs ∧ l < t.logical

/-- The timestamps a run returns, in order. -/
def issued (c : HlcClock) (ops : List ClockOp) : List HlcTimestamp :=
  (trace clockStep c ops).filterMap fun e => e.2.toOption

/-- What the clock promises of a run. -/
structure Monotonic (c : HlcClock) (ops : List ClockOp) : Prop where
  noOverflow : Along clockStep (fun c op => (trackedStep c op).ovf = false) c ops
  increasing : (issued c ops).Pairwise fun t u => Earlier t.physicalMs t.logical u
  pastRemote : ∀ remote observed t, (ClockOp.observe remote observed, Except.ok t) ∈
    trace clockStep c ops → Earlier remote.physicalMs remote.logical t
  failedUnchanged : Along clockStep
    (fun c op => ∀ e, (clockStep c op).1 = .error e → (clockStep c op).2 = c) c ops

/-- No counter at `u32::MAX` is carried on: neither the clock's own, when the
physical time stays where it is, nor the remote's, when its physical time is
taken over. -/
def CounterHasRoom (c : HlcClock) : ClockOp → Prop
  | .now observed => ¬(observed ≤ c.lastPhysicalMs ∧ c.lastLogical = u32Max)
  | .observe remote observed =>
    absDiff remote.physicalMs observed ≤ maxSkewMs →
      ¬(observed ≤ c.lastPhysicalMs ∧ remote.physicalMs ≤ c.lastPhysicalMs ∧
          c.lastLogical = u32Max) ∧
      ¬(observed ≤ remote.physicalMs ∧ c.lastPhysicalMs ≤ remote.physicalMs ∧
          remote.logical = u32Max)

/-! ## One call -/

theorem addU32_one_ovf (last : UInt32) : (addU32 last 1).ovf = false ↔ last ≠ u32Max := by
  have hlt := last.toNat_lt
  rw [addU32, decide_eq_false_iff_not, ne_eq, ← UInt32.toNat_inj]
  simp only [u32Max, UInt32.reduceToNat]
  omega

theorem nextLogical_ovf (last : UInt32) : (nextLogical last).ovf = false ↔ last ≠ u32Max := by
  rw [← addU32_one_ovf, nextLogical, Tracked.ovf_bind, Tracked.ovf_pure, Bool.or_false]

theorem nextLogical_ok {last v : UInt32} (hroom : last ≠ u32Max)
    (h : (nextLogical last).val = .ok v) : v.toNat = last.toNat + 1 := by
  have hlt := last.toNat_lt
  have hne : last.toNat ≠ 4294967295 := by
    intro he
    exact hroom (UInt32.toNat_inj.mp he)
  rw [nextLogical, Tracked.val_bind, Tracked.val_pure] at h
  split at h
  · cases h
  · cases h
    show (last + 1).toNat = last.toNat + 1
    rw [UInt32.toNat_add, UInt32.toNat_one]
    omega

theorem store_ok {c : HlcClock} {p : UInt64} {r : Except HlcError UInt32} {t : HlcTimestamp}
    (h : (c.store p r).1 = .ok t) :
    r = .ok t.logical ∧ p = t.physicalMs ∧
      (c.store p r).2 = ⟨t.physicalMs, t.logical, c.writerNodeId⟩ := by
  cases r with
  | error e => cases h
  | ok l =>
    cases h
    exact ⟨rfl, rfl, rfl⟩

theorem store_error {c : HlcClock} {p : UInt64} {r : Except HlcError UInt32} {e : HlcError}
    (h : (c.store p r).1 = .error e) : (c.store p r).2 = c := by
  cases r with
  | error e' => rfl
  | ok l => cases h

/-- The counter a call carries on, if it carries one on. -/
def advance : Option UInt32 → Tracked (Except HlcError UInt32)
  | none => pure (.ok 0)
  | some last => nextLogical last

/-- A pair `(p, l)` is reached by a new physical time, or by carrying on a
counter no smaller than `l` at `p` itself. -/
def Reached (p : UInt64) (l : UInt32) (physicalMs : UInt64) : Option UInt32 → Prop
  | none => p < physicalMs
  | some last => p < physicalMs ∨ p = physicalMs ∧ l ≤ last

theorem earlier_of_advance {p : UInt64} {l : UInt32} {src : Option UInt32} {t : HlcTimestamp}
    (hreach : Reached p l t.physicalMs src) (hroom : src ≠ some u32Max)
    (hok : (advance src).val = .ok t.logical) : Earlier p l t := by
  cases src with
  | none => exact Or.inl hreach
  | some last =>
    refine hreach.imp id fun h => ⟨h.1, ?_⟩
    have hnext := nextLogical_ok (fun he => hroom (congrArg some he)) hok
    have hle := UInt32.le_iff_toNat_le.mp h.2
    rw [UInt32.lt_iff_toNat_lt]
    omega

theorem advance_ovf (src : Option UInt32) : (advance src).ovf = false ↔ src ≠ some u32Max := by
  cases src with
  | none => exact iff_of_true rfl (fun h => nomatch h)
  | some last => rw [advance, nextLogical_ovf, ne_eq, ne_eq, Option.some.injEq]

theorem max_eq_u32Max_iff (a b : UInt32) : max a b = u32Max ↔ a = u32Max ∨ b = u32Max := by
  have ha := a.toNat_lt
  have hb := b.toNat_lt
  simp only [← UInt32.toNat_inj, UInt32.toNat_max, u32Max, UInt32.reduceToNat]
  omega

theorem nowLogical_cases {c : HlcClock} {p : UInt64} (hc : c.lastPhysicalMs ≤ p) :
    ∃ src, c.nowLogical p = advance src ∧ Reached c.lastPhysicalMs c.lastLogical p src ∧
      (src = some u32Max ↔ p = c.lastPhysicalMs ∧ c.lastLogical = u32Max) := by
  unfold HlcClock.nowLogical
  split
  next hp =>
    refine ⟨some c.lastLogical, rfl, Or.inr ⟨hp.symm, UInt32.le_refl _⟩, ?_⟩
    rw [Option.some.injEq, and_iff_right hp]
  next hp =>
    refine ⟨none, rfl, UInt64.lt_of_le_of_ne hc (Ne.symm hp), ?_⟩
    exact iff_of_false (fun h => nomatch h) fun h => hp h.1

theorem observeLogical_cases {c : HlcClock} {remote : HlcTimestamp} {p : UInt64}
    (hc : c.lastPhysicalMs ≤ p) (hr : remote.physicalMs ≤ p) :
    ∃ src, c.observeLogical remote p = advance src ∧
      Reached c.lastPhysicalMs c.lastLogical p src ∧
      Reached remote.physicalMs remote.logical p src ∧
      (src = some u32Max ↔ p = c.lastPhysicalMs ∧ c.lastLogical = u32Max ∨
        p = remote.physicalMs ∧ remote.logical = u32Max) := by
  unfold HlcClock.observeLogical
  have hlt : ∀ {q : UInt64}, q ≤ p → ¬p = q → q < p := fun hle hne =>
    UInt64.lt_of_le_of_ne hle (Ne.symm hne)
  split
  next hboth =>
    refine ⟨some (max c.lastLogical remote.logical), rfl, Or.inr ⟨hboth.1.symm, ?_⟩,
      Or.inr ⟨hboth.2.symm, ?_⟩, ?_⟩
    · rw [UInt32.le_iff_toNat_le, UInt32.toNat_max]
      omega
    · rw [UInt32.le_iff_toNat_le, UInt32.toNat_max]
      omega
    · rw [Option.some.injEq, max_eq_u32Max_iff, and_iff_right hboth.1, and_iff_right hboth.2]
  next hboth =>
    split
    next hp =>
      have hne : ¬p = remote.physicalMs := fun h => hboth ⟨hp, h⟩
      refine ⟨some c.lastLogical, rfl, Or.inr ⟨hp.symm, UInt32.le_refl _⟩, Or.inl (hlt hr hne), ?_⟩
      rw [Option.some.injEq, and_iff_right hp]
      exact ⟨Or.inl, fun h => h.resolve_right fun h => hne h.1⟩
    next hp =>
      split
      next hpr =>
        refine ⟨some remote.logical, rfl, Or.inl (hlt hc hp),
          Or.inr ⟨hpr.symm, UInt32.le_refl _⟩, ?_⟩
        rw [Option.some.injEq, and_iff_right hpr]
        exact ⟨Or.inr, fun h => h.resolve_left fun h => hp h.1⟩
      next hpr =>
        refine ⟨none, rfl, hlt hc hp, hlt hr hpr, ?_⟩
        exact iff_of_false (fun h => nomatch h) fun h => h.elim (fun h => hp h.1) fun h => hpr h.1

/-- A call's remote pair is reached; `now` has none. -/
def RemoteReached (physicalMs : UInt64) (src : Option UInt32) : ClockOp → Prop
  | .now _ => True
  | .observe remote _ => Reached remote.physicalMs remote.logical physicalMs src

/-- What a call can do: refuse the remote, or advance past the clock's pair and
the remote's, from a counter that has room exactly when the condition says so. -/
theorem trackedStep_cases (c : HlcClock) (op : ClockOp) :
    (∃ e, trackedStep c op = pure (.error e, c) ∧ CounterHasRoom c op) ∨
    ∃ p src, trackedStep c op = (advance src >>= fun r => pure (c.store p r)) ∧
      Reached c.lastPhysicalMs c.lastLogical p src ∧ RemoteReached p src op ∧
      (src ≠ some u32Max ↔ CounterHasRoom c op) := by
  cases op with
  | now observed =>
    have hc : c.lastPhysicalMs ≤ max observed c.lastPhysicalMs := by
      rw [UInt64.le_iff_toNat_le, UInt64.toNat_max]
      omega
    -- the physical time stays where it is exactly when the reading is not ahead
    have hkeep : max observed c.lastPhysicalMs = c.lastPhysicalMs ↔
        observed ≤ c.lastPhysicalMs := by
      rw [← UInt64.toNat_inj, UInt64.toNat_max, UInt64.le_iff_toNat_le]
      omega
    obtain ⟨src, heq, hreach, hfull⟩ := nowLogical_cases hc
    refine Or.inr ⟨_, src, ?_, hreach, trivial, ?_⟩
    · rw [← heq]
      rfl
    · rw [ne_eq, hfull, hkeep, CounterHasRoom]
  | observe remote observed =>
    by_cases hskew : absDiff remote.physicalMs observed > maxSkewMs
    · refine Or.inl ⟨.remoteSkewExceedsCap observed remote.physicalMs maxSkewMs, if_pos hskew, ?_⟩
      intro hle
      exact absurd hskew (UInt64.not_lt.mpr hle)
    · have hc : c.lastPhysicalMs ≤
          max (max observed c.lastPhysicalMs) remote.physicalMs := by
        rw [UInt64.le_iff_toNat_le, UInt64.toNat_max, UInt64.toNat_max]
        omega
      have hr : remote.physicalMs ≤ max (max observed c.lastPhysicalMs) remote.physicalMs := by
        rw [UInt64.le_iff_toNat_le, UInt64.toNat_max, UInt64.toNat_max]
        omega
      have hkeep : max (max observed c.lastPhysicalMs) remote.physicalMs = c.lastPhysicalMs ↔
          observed ≤ c.lastPhysicalMs ∧ remote.physicalMs ≤ c.lastPhysicalMs := by
        simp only [← UInt64.toNat_inj, UInt64.toNat_max, UInt64.le_iff_toNat_le]
        omega
      have htake : max (max observed c.lastPhysicalMs) remote.physicalMs = remote.physicalMs ↔
          observed ≤ remote.physicalMs ∧ c.lastPhysicalMs ≤ remote.physicalMs := by
        simp only [← UInt64.toNat_inj, UInt64.toNat_max, UInt64.le_iff_toNat_le]
        omega
      obtain ⟨src, heq, hreach, hremote, hfull⟩ := observeLogical_cases hc hr
      refine Or.inr ⟨_, src, ?_, hreach, hremote, ?_⟩
      · rw [← heq]
        exact if_neg hskew
      · rw [ne_eq, hfull, hkeep, htake, not_or, and_assoc, and_assoc, CounterHasRoom]
        exact ⟨fun h _ => h, fun h => h (UInt64.not_lt.mp hskew)⟩

/-- The overflow flag of a call is the condition read off its arguments. -/
theorem trackedStep_ovf (c : HlcClock) (op : ClockOp) :
    (trackedStep c op).ovf = false ↔ CounterHasRoom c op := by
  obtain ⟨e, heq, hroom⟩ | ⟨p, src, heq, _, _, hroom⟩ := trackedStep_cases c op
  · rw [heq]
    exact iff_of_true rfl hroom
  · rw [heq, Tracked.ovf_bind, Tracked.ovf_pure, Bool.or_false, advance_ovf, hroom]

/-- A failing call leaves the clock as it was, overflow or not. -/
theorem clockStep_error {c : HlcClock} {op : ClockOp} {e : HlcError}
    (h : (clockStep c op).1 = .error e) : (clockStep c op).2 = c := by
  unfold clockStep at h ⊢
  obtain ⟨e', heq, _⟩ | ⟨p, src, heq, _⟩ := trackedStep_cases c op
  · rw [heq]
    rfl
  · rw [heq] at h ⊢
    exact store_error h

/-- A call with room that returns a timestamp passes the clock's pair and the
remote's, and leaves the clock at the timestamp. -/
theorem clockStep_ok {c : HlcClock} {op : ClockOp} {t : HlcTimestamp}
    (hroom : CounterHasRoom c op) (h : (clockStep c op).1 = .ok t) :
    Earlier c.lastPhysicalMs c.lastLogical t ∧
      (∀ remote observed, op = .observe remote observed →
        Earlier remote.physicalMs remote.logical t) ∧
      (clockStep c op).2 = ⟨t.physicalMs, t.logical, c.writerNodeId⟩ := by
  unfold clockStep at h ⊢
  obtain ⟨e, heq, _⟩ | ⟨p, src, heq, hreach, hremote, hfree⟩ := trackedStep_cases c op
  · rw [heq] at h
    cases h
  · rw [heq] at h ⊢
    obtain ⟨hadv, hp, hstate⟩ := store_ok h
    subst hp
    have hne := hfree.mpr hroom
    refine ⟨earlier_of_advance hreach hne hadv, ?_, hstate⟩
    intro remote observed hop
    subst hop
    exact earlier_of_advance hremote hne hadv

/-! ## Whole runs -/

theorem Earlier.trans {p : UInt64} {l : UInt32} {t u : HlcTimestamp} (h : Earlier p l t)
    (h' : Earlier t.physicalMs t.logical u) : Earlier p l u := by
  simp only [Earlier, UInt64.lt_iff_toNat_lt, UInt32.lt_iff_toNat_lt,
    ← UInt64.toNat_inj] at *
  omega

theorem issued_cons (c : HlcClock) (op : ClockOp) (ops : List ClockOp) :
    issued c (op :: ops)
      = (clockStep c op).1.toOption.toList ++ issued (clockStep c op).2 ops := by
  unfold issued
  cases h : (clockStep c op).1 with
  | error e => simp [trace, h, Except.toOption]
  | ok t => simp [trace, h, Except.toOption]

/-- The clock's own pair is the floor of everything issued from it on. -/
theorem issued_above {c : HlcClock} {ops : List ClockOp} (h : Along clockStep CounterHasRoom c ops) :
    (∀ t ∈ issued c ops, Earlier c.lastPhysicalMs c.lastLogical t) ∧
      (issued c ops).Pairwise fun t u => Earlier t.physicalMs t.logical u := by
  induction ops generalizing c with
  | nil => exact ⟨fun t ht => absurd ht List.not_mem_nil, List.Pairwise.nil⟩
  | cons op ops ih =>
    obtain ⟨hroom, hrest⟩ := h
    obtain ⟨hfloor, hpair⟩ := ih hrest
    rw [issued_cons]
    cases hans : (clockStep c op).1 with
    -- nothing is issued and the floor stays
    | error e =>
      rw [clockStep_error hans] at hfloor hpair ⊢
      exact ⟨hfloor, hpair⟩
    -- the timestamp is above the floor and is the next one
    | ok t =>
      obtain ⟨hnow, -, hstate⟩ := clockStep_ok hroom hans
      rw [hstate] at hfloor hpair ⊢
      refine ⟨?_, List.pairwise_cons.mpr ⟨hfloor, hpair⟩⟩
      intro u hu
      rcases List.mem_cons.mp hu with rfl | hu
      · exact hnow
      · exact hnow.trans (hfloor u hu)

theorem past_remote {c : HlcClock} {ops : List ClockOp} (h : Along clockStep CounterHasRoom c ops)
    {remote : HlcTimestamp} {observed : UInt64} {t : HlcTimestamp}
    (ht : (ClockOp.observe remote observed, Except.ok t) ∈ trace clockStep c ops) :
    Earlier remote.physicalMs remote.logical t := by
  obtain ⟨c', hroom, hans⟩ := exists_of_mem_trace h ht
  exact (clockStep_ok hroom hans).2.1 remote observed rfl

/-- **Monotonicity.** From any clock and over any calls, readings and remote
timestamps, a run is monotonic exactly when no step carries on a counter at
`u32::MAX`. -/
theorem monotonic_iff (c : HlcClock) (ops : List ClockOp) :
    Monotonic c ops ↔ Along clockStep CounterHasRoom c ops := by
  constructor
  · intro h
    exact along_mono (fun c op => (trackedStep_ovf c op).mp) h.noOverflow
  · intro h
    refine ⟨?_, (issued_above h).2, fun _ _ _ => past_remote h, ?_⟩
    · exact along_mono (fun c op => (trackedStep_ovf c op).mpr) h
    · exact along_mono (fun _ _ _ _ => clockStep_error) h

/-- A remote that has used up its counter within the millisecond, seen by a clock
just made: the checked build panics, the wrapping one answers with counter 0. -/
def spentRemote : HlcTimestamp := ⟨1000000, u32Max, Vector.replicate 32 1⟩

theorem observe_spentRemote_not_monotonic :
    (trackedStep (.new (Vector.replicate 32 0)) (.observe spentRemote 1000000)).ovf = true ∧
    (clockStep (.new (Vector.replicate 32 0)) (.observe spentRemote 1000000)).1
      = .ok ⟨1000000, 0, Vector.replicate 32 0⟩ ∧
    ¬Monotonic (.new (Vector.replicate 32 0)) [.observe spentRemote 1000000] := by
  refine ⟨by decide, by decide, ?_⟩
  intro h
  exact absurd h.noOverflow.1 (by decide)

end CipherOcto.Substrate
