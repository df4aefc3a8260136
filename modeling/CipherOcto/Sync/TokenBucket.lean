import CipherOcto.Sync.Stream

/-!
# The rate of the streamer's limiter

`check_at` refills a bucket by the milliseconds since the last check, times the rate,
over a thousand and rounded down, and the check is the last refill from then on. What is
rounded away is lost. So the limiter never lets more through than its rate, and may let
through less: below one token a millisecond, a caller that asks each millisecond is
never served again once the burst is gone.

> `checkAt_eq`: a check, while the clock does not run backwards.
> `withinRate`: what passes in a window is the burst and what the window has brought.
> `tokenBucket_iff`: rejected checks cost nothing iff each millisecond brings a token or
> none ever comes.
-/

namespace CipherOcto.Sync

open Trace

/-- A check. What was inserted is not in the sequence it is compared with. -/
structure Poll where
  now : Nat
  inserted : Bool

namespace RateLimiter

def pollAt (r : RateLimiter) (p : Poll) : Except SyncError Unit × RateLimiter := r.checkAt p.now

/-- Times in milliseconds that do not run backwards. -/
def Nondecreasing (nows : List Nat) : Prop := nows.Pairwise (· ≤ ·) ∧ ∀ now ∈ nows, now < 2 ^ 32

/-- What was accepted from `s` to `t`. -/
def accepted (s t : Nat) (log : List (Nat × Except SyncError Unit)) : Nat :=
  log.countP fun e => e.2.isOk && decide (s ≤ e.1 ∧ e.1 ≤ t)

/-- No window sees more than the burst, one more, and what the rate brings in it. -/
def WithinRate (ratePerSec burst : Nat) : Prop :=
  ∀ nows, Nondecreasing nows → ∀ s t, s ≤ t →
    accepted s t (trace checkAt (new ratePerSec burst) nows) ≤
      burst + 1 + ratePerSec * (t - s) / 1000

/-- Inserted checks, all of them rejected, do not take a check from the caller. -/
def NeverServedLess (ratePerSec burst : Nat) : Prop :=
  ∀ polls now, Nondecreasing (polls.map Poll.now ++ [now]) →
    Along pollAt (fun r p => p.inserted = true → (r.pollAt p).1.isOk = false)
      (new ratePerSec burst) polls →
    ((final pollAt (new ratePerSec burst) (polls.filter (!·.inserted))).checkAt now).1.isOk = true →
      ((final pollAt (new ratePerSec burst) polls).checkAt now).1.isOk = true

/-! ## One check -/

/-- The tokens a check finds. -/
def due (r : RateLimiter) (now : Nat) : Nat :=
  min (r.tokens + (now - r.lastRefillMs) * r.ratePerSec / 1000) r.burst

/-- The states a run reaches while the clock does not run backwards. -/
structure Steady (r : RateLimiter) : Prop where
  rate_lt : r.ratePerSec < 2 ^ 32
  burst_lt : r.burst < 2 ^ 32
  tokens_le : r.tokens ≤ r.burst
  last_eq : r.lastRefillMs = r.prevNowMs.getD 0

theorem steady_new {ratePerSec burst : Nat} (hrate : ratePerSec < 2 ^ 32)
    (hburst : burst < 2 ^ 32) : (new ratePerSec burst).Steady :=
  ⟨hrate, hburst, le_rfl, rfl⟩

variable {r : RateLimiter} {now : Nat}

/-- The state after a check. -/
def checked (r : RateLimiter) (now : Nat) : RateLimiter :=
  { r with tokens := r.due now - 1, lastRefillMs := now, prevNowMs := some now }

/-- The product fits, so the refill is what the time has brought. -/
theorem Steady.refill_eq (h : r.Steady) (hlast : r.lastRefillMs ≤ now) (hnow : now < 2 ^ 32) :
    r.refill now = { r with tokens := r.due now, lastRefillMs := now } := by
  have hburst := h.burst_lt
  have htokens := h.tokens_le
  unfold refill due
  rw [← h.last_eq]
  split
  next hlater =>
    have hfits : (now - r.lastRefillMs) * r.ratePerSec < 2 ^ 64 := by
      have helapsed : now - r.lastRefillMs < 2 ^ 32 := by omega
      exact (Nat.mul_lt_mul'' helapsed h.rate_lt).trans_eq (by decide)
    rw [Nat.mod_eq_of_lt hfits, min_assoc, min_eq_right (by omega : r.burst ≤ 2 ^ 64 - 1)]
  next hsame =>
    obtain rfl : now = r.lastRefillMs := by omega
    rw [Nat.sub_self, Nat.zero_mul, Nat.zero_div, Nat.add_zero, min_eq_left htokens]

theorem Steady.checkAt_eq (h : r.Steady) (hlast : r.lastRefillMs ≤ now) (hnow : now < 2 ^ 32) :
    r.checkAt now =
      (if r.due now = 0 then .error (.backendNotReady "rate limit exhausted") else .ok (),
        r.checked now) := by
  unfold checkAt checked
  rw [h.refill_eq hlast hnow]
  dsimp only
  split
  next hnone => rw [hnone]
  next => rfl

theorem due_le_burst (r : RateLimiter) (now : Nat) : r.due now ≤ r.burst := Nat.min_le_right _ _

theorem Steady.checked (h : r.Steady) (now : Nat) : (r.checked now).Steady :=
  ⟨h.rate_lt, h.burst_lt, (Nat.sub_le _ _).trans (r.due_le_burst now), rfl⟩

/-! ## What passes in a window -/

/-- The times of a run that are yet to come. -/
structure Ahead (r : RateLimiter) (nows : List Nat) : Prop where
  steady : r.Steady
  times : Nondecreasing nows
  last_le : ∀ now ∈ nows, r.lastRefillMs ≤ now

theorem Ahead.checkAt_eq {nows : List Nat} (h : r.Ahead (now :: nows)) :
    r.checkAt now =
      (if r.due now = 0 then .error (.backendNotReady "rate limit exhausted") else .ok (),
        r.checked now) :=
  h.steady.checkAt_eq (h.last_le now List.mem_cons_self) (h.times.2 now List.mem_cons_self)

theorem Ahead.tail {nows : List Nat} (h : r.Ahead (now :: nows)) : (r.checked now).Ahead nows := by
  obtain ⟨hfirst, hrest⟩ := List.pairwise_cons.mp h.times.1
  exact ⟨h.steady.checked now, ⟨hrest, fun n hn => h.times.2 n (List.mem_cons_of_mem now hn)⟩,
    hfirst⟩

theorem Ahead.skip {nows : List Nat} (h : r.Ahead (now :: nows)) : r.Ahead nows :=
  ⟨h.steady, ⟨h.times.1.tail, fun n hn => h.times.2 n (List.mem_cons_of_mem now hn)⟩,
    fun n hn => h.last_le n (List.mem_cons_of_mem now hn)⟩

theorem Ahead.isOk_iff {nows : List Nat} (h : r.Ahead (now :: nows)) :
    (r.checkAt now).1.isOk = true ↔ 0 < r.due now := by
  rw [h.checkAt_eq]
  dsimp only
  split
  next hnone =>
    rw [hnone]
    exact iff_of_false Bool.false_ne_true (lt_irrefl 0)
  next hsome => exact iff_of_true rfl (Nat.pos_of_ne_zero hsome)

theorem Ahead.final {polls : List Poll} {nows : List Nat}
    (h : r.Ahead (polls.map Poll.now ++ nows)) : (Trace.final pollAt r polls).Ahead nows := by
  induction polls generalizing r with
  | nil => exact h
  | cons p polls ih =>
    have hstep : r.pollAt p = _ := h.checkAt_eq
    rw [Trace.final, hstep]
    exact ih h.tail

theorem ahead_new {ratePerSec burst : Nat} (hrate : ratePerSec < 2 ^ 32)
    (hburst : burst < 2 ^ 32) {nows : List Nat} (hnows : Nondecreasing nows) :
    (new ratePerSec burst).Ahead nows :=
  ⟨steady_new hrate hburst, hnows, fun now _ => Nat.zero_le now⟩

/-- A check that counts has taken a token. -/
theorem Ahead.accepted_cons_le (s t : Nat) {nows : List Nat} (h : r.Ahead (now :: nows)) :
    accepted s t (trace RateLimiter.checkAt r (now :: nows)) + (r.checked now).tokens ≤
      accepted s t (trace RateLimiter.checkAt (r.checked now) nows) + r.due now := by
  have htokens : (r.checked now).tokens = r.due now - 1 := rfl
  rw [trace, h.checkAt_eq, accepted, List.countP_cons, ← accepted, htokens]
  by_cases hnone : r.due now = 0
  · rw [if_pos hnone, hnone]
    exact le_rfl
  · rw [if_neg hnone]
    dsimp only
    split <;> omega

/-- A check that does not count. -/
theorem Ahead.accepted_cons_of_lt {s t : Nat} {nows : List Nat} (h : r.Ahead (now :: nows))
    (hbefore : now < s) : accepted s t (trace RateLimiter.checkAt r (now :: nows)) =
      accepted s t (trace RateLimiter.checkAt (r.checked now) nows) := by
  have hout : ¬(s ≤ now ∧ now ≤ t) := by omega
  rw [trace, h.checkAt_eq, accepted, List.countP_cons, ← accepted, decide_eq_false hout,
    Bool.and_false, if_neg Bool.false_ne_true, Nat.add_zero]

/-- Past the window nothing counts. -/
theorem accepted_eq_zero {s t : Nat} {nows : List Nat} (h : ∀ now ∈ nows, t < now) :
    accepted s t (trace checkAt r nows) = 0 := by
  refine List.countP_eq_zero.mpr fun e he hcount => ?_
  obtain ⟨-, hin⟩ := Bool.and_eq_true_iff.mp hcount
  have hlater := h e.1 (mem_of_mem_trace he)
  exact absurd (of_decide_eq_true hin).2 (not_le.mpr hlater)

/-- The floor of a sum is no less than the sum of the floors. -/
theorem brought_add_le (rate : Nat) {a b c : Nat} (hab : a ≤ b) (hbc : b ≤ c) :
    (b - a) * rate / 1000 + rate * (c - b) / 1000 ≤ rate * (c - a) / 1000 := by
  have hsplit : rate * (c - a) = (b - a) * rate + rate * (c - b) := by
    rw [Nat.mul_comm _ rate, ← Nat.mul_add]
    congr 1
    omega
  rw [hsplit]
  exact Nat.div_add_div_le_add_div

/-- The tokens there are pay for what passes, with what the time up to `t` brings. -/
theorem Ahead.accepted_le (s t : Nat) {nows : List Nat} (h : r.Ahead nows) :
    accepted s t (trace RateLimiter.checkAt r nows) ≤
      r.tokens + r.ratePerSec * (t - r.lastRefillMs) / 1000 := by
  induction nows generalizing r with
  | nil => exact Nat.zero_le _
  | cons now nows ih =>
    by_cases hpast : t < now
    · have hlater : ∀ n ∈ now :: nows, t < n := by
        refine List.forall_mem_cons.mpr ⟨hpast, fun n hn => ?_⟩
        exact hpast.trans_le ((List.pairwise_cons.mp h.times.1).1 n hn)
      rw [accepted_eq_zero hlater]
      exact Nat.zero_le _
    · have htaken := h.accepted_cons_le s t
      have hrest : accepted s t (trace RateLimiter.checkAt (r.checked now) nows) ≤
          (r.checked now).tokens + r.ratePerSec * (t - now) / 1000 := ih h.tail
      have hdue : r.due now ≤ r.tokens + (now - r.lastRefillMs) * r.ratePerSec / 1000 :=
        Nat.min_le_left _ _
      have hbrought := brought_add_le r.ratePerSec (h.last_le now List.mem_cons_self)
        (not_lt.mp hpast)
      omega

/-- **The bound**: the first check of the window finds a burst at most. -/
theorem Ahead.accepted_le_burst (s t : Nat) {nows : List Nat} (h : r.Ahead nows) :
    accepted s t (trace RateLimiter.checkAt r nows) ≤
      r.burst + r.ratePerSec * (t - s) / 1000 := by
  induction nows generalizing r with
  | nil => exact Nat.zero_le _
  | cons now nows ih =>
    by_cases hbefore : now < s
    · rw [h.accepted_cons_of_lt hbefore]
      exact ih h.tail
    · have htaken := h.accepted_cons_le s t
      have hrest : accepted s t (trace RateLimiter.checkAt (r.checked now) nows) ≤
          (r.checked now).tokens + r.ratePerSec * (t - now) / 1000 := h.tail.accepted_le s t
      have hdue := r.due_le_burst now
      have hbrought : r.ratePerSec * (t - now) / 1000 ≤ r.ratePerSec * (t - s) / 1000 :=
        Nat.div_le_div_right (Nat.mul_le_mul_left _ (by omega))
      omega

theorem withinRate {ratePerSec burst : Nat} (hrate : ratePerSec < 2 ^ 32)
    (hburst : burst < 2 ^ 32) : WithinRate ratePerSec burst := by
  intro nows hnows s t _
  have hle := (ahead_new hrate hburst hnows).accepted_le_burst s t
  dsimp only [new] at hle
  exact hle.trans (Nat.add_le_add_right (Nat.le_succ burst) _)

/-! ## What rejected checks cost -/

/-- A limiter, and the same after some checks that were rejected. -/
structure Agrees (r r' : RateLimiter) (nows : List Nat) : Prop where
  ahead : r.Ahead nows
  ahead' : r'.Ahead nows
  rate_eq : r'.ratePerSec = r.ratePerSec
  burst_eq : r'.burst = r.burst
  tokens_eq : r'.tokens = r.tokens
  last_eq : r.ratePerSec = 0 ∨ r.burst = 0 ∨ r'.lastRefillMs = r.lastRefillMs

variable {r' : RateLimiter} {nows : List Nat}

theorem Agrees.due_eq (h : r.Agrees r' nows) (now : Nat) : r'.due now = r.due now := by
  unfold due
  rw [h.rate_eq, h.burst_eq, h.tokens_eq]
  rcases h.last_eq with hrate | hburst | hlast
  · rw [hrate, Nat.mul_zero, Nat.mul_zero]
  · rw [hburst, Nat.min_zero, Nat.min_zero]
  · rw [hlast]

theorem Agrees.refl (h : r.Ahead nows) : r.Agrees r nows :=
  ⟨h, h, rfl, rfl, rfl, Or.inr (Or.inr rfl)⟩

/-- A check of the caller's, in both. -/
theorem Agrees.checked (h : r.Agrees r' (now :: nows)) :
    (r.checked now).Agrees (r'.checked now) nows where
  ahead := h.ahead.tail
  ahead' := h.ahead'.tail
  rate_eq := h.rate_eq
  burst_eq := h.burst_eq
  tokens_eq := congrArg (· - 1) (h.due_eq now)
  last_eq := Or.inr (Or.inr rfl)

/-- A millisecond that brings a token would not be rejected. -/
theorem eq_last_of_due_eq_zero (hrate : 1000 ≤ r.ratePerSec) (hburst : r.burst ≠ 0)
    (hlast : r.lastRefillMs ≤ now) (hdue : r.due now = 0) : now = r.lastRefillMs := by
  by_contra hne
  have hone : 1 * 1000 ≤ (now - r.lastRefillMs) * r.ratePerSec :=
    Nat.mul_le_mul (by omega) hrate
  unfold due at hdue
  omega

/-- An inserted check that is rejected. -/
theorem Agrees.rejected (h : r.Agrees r' (now :: nows))
    (hcond : r.ratePerSec = 0 ∨ r.burst = 0 ∨ 1000 ≤ r.ratePerSec) (hdue : r'.due now = 0) :
    r.Agrees (r'.checked now) nows where
  ahead := h.ahead.skip
  ahead' := h.ahead'.tail
  rate_eq := h.rate_eq
  burst_eq := h.burst_eq
  tokens_eq := by
    have hnone : (r'.checked now).tokens = r'.due now - 1 := rfl
    have htokens := h.ahead.steady.tokens_le
    have hsame := h.tokens_eq
    have hburst := h.burst_eq
    rw [hnone, hdue]
    unfold due at hdue
    omega
  last_eq := by
    by_cases hburst : r.burst = 0
    · exact Or.inr (Or.inl hburst)
    · rcases hcond with hrate | hzero | hrate
      · exact Or.inl hrate
      · exact absurd hzero hburst
      · have hnow := eq_last_of_due_eq_zero (h.rate_eq.symm ▸ hrate) (h.burst_eq.symm ▸ hburst)
          (h.ahead'.last_le now List.mem_cons_self) hdue
        rcases h.last_eq with hzero | hzero | hlast
        · exact Or.inl hzero
        · exact absurd hzero hburst
        · exact Or.inr (Or.inr (hnow.trans hlast))

theorem Agrees.final {polls : List Poll} (h : r.Agrees r' (polls.map Poll.now ++ nows))
    (hcond : r.ratePerSec = 0 ∨ r.burst = 0 ∨ 1000 ≤ r.ratePerSec)
    (hrejected : Along pollAt (fun r p => p.inserted = true → (r.pollAt p).1.isOk = false) r' polls) :
    (Trace.final pollAt r (polls.filter (!·.inserted))).Agrees (Trace.final pollAt r' polls) nows := by
  induction polls generalizing r r' with
  | nil => exact h
  | cons p polls ih =>
    obtain ⟨hnow, hlater⟩ := hrejected
    rw [List.map_cons, List.cons_append] at h
    have hstep' : r'.pollAt p = _ := h.ahead'.checkAt_eq
    rw [Trace.final, hstep']
    rw [hstep'] at hnow hlater
    by_cases hinserted : p.inserted = true
    · rw [List.filter_cons_of_neg (by rw [hinserted]; decide)]
      refine ih (h.rejected hcond ?_) hcond hlater
      by_contra hdue
      have hno := hnow hinserted
      rw [if_neg hdue] at hno
      exact absurd hno.symm Bool.false_ne_true
    · have hstep : r.pollAt p = _ := h.ahead.checkAt_eq
      rw [List.filter_cons_of_pos (by rw [Bool.not_eq_true] at hinserted; rw [hinserted]; rfl),
        Trace.final, hstep]
      exact ih h.checked hcond hlater

theorem neverServedLess {ratePerSec burst : Nat} (hrate : ratePerSec < 2 ^ 32)
    (hburst : burst < 2 ^ 32) (hcond : ratePerSec = 0 ∨ burst = 0 ∨ 1000 ≤ ratePerSec) :
    NeverServedLess ratePerSec burst := by
  intro polls now htimes hrejected hbase
  have hagrees := (Agrees.refl (ahead_new hrate hburst htimes)).final hcond hrejected
  have hdue := (hagrees.ahead.isOk_iff).mp hbase
  rw [← hagrees.due_eq] at hdue
  exact hagrees.ahead'.isOk_iff.mpr hdue

/-! ## What a rejected check can cost -/

/-- The burst, all at once. -/
def drain (burst : Nat) : List Poll := List.replicate burst ⟨0, false⟩

theorem final_drain (n : Nat) (h : r.Steady) (hlast : r.lastRefillMs = 0) :
    ∃ prev, Trace.final pollAt r (drain n) = ⟨r.ratePerSec, r.burst, r.tokens - n, 0, prev⟩ := by
  induction n generalizing r with
  | zero =>
    refine ⟨r.prevNowMs, ?_⟩
    have hself : Trace.final pollAt r (drain 0) =
        ⟨r.ratePerSec, r.burst, r.tokens, r.lastRefillMs, r.prevNowMs⟩ := rfl
    rw [hself, hlast, Nat.sub_zero]
  | succ n ih =>
    have hstep : r.pollAt ⟨0, false⟩ = _ := h.checkAt_eq hlast.le (by decide)
    have hdue : r.due 0 = r.tokens := by
      rw [due, Nat.zero_sub, Nat.zero_mul, Nat.zero_div, Nat.add_zero, min_eq_left h.tokens_le]
    obtain ⟨prev, heq⟩ := ih (h.checked 0) rfl
    rw [drain, List.replicate_succ, Trace.final, hstep]
    refine ⟨prev, heq.trans ?_⟩
    rw [RateLimiter.checked, hdue, Nat.sub_sub, Nat.add_comm 1 n]

theorem final_drain_new {ratePerSec burst : Nat} (hrate : ratePerSec < 2 ^ 32)
    (hburst : burst < 2 ^ 32) :
    ∃ prev, Trace.final pollAt (new ratePerSec burst) (drain burst) =
      ⟨ratePerSec, burst, 0, 0, prev⟩ := by
  obtain ⟨prev, heq⟩ := final_drain burst (steady_new hrate hburst) rfl
  have hempty : (new ratePerSec burst).tokens - burst = 0 := Nat.sub_self burst
  rw [hempty] at heq
  exact ⟨prev, heq⟩

theorem along_drain (n : Nat) : Along pollAt
    (fun r p => p.inserted = true → (r.pollAt p).1.isOk = false) r (drain n) := by
  induction n generalizing r with
  | zero => trivial
  | succ n ih => exact ⟨fun h => absurd h Bool.false_ne_true, ih⟩

theorem filter_drain (n : Nat) : (drain n).filter (!·.inserted) = drain n :=
  List.filter_eq_self.mpr fun p hp => by rw [List.eq_of_mem_replicate hp]; rfl

theorem nondecreasing_drain (n : Nat) {nows : List Nat} (h : Nondecreasing nows) :
    Nondecreasing ((drain n).map Poll.now ++ nows) := by
  rw [drain, List.map_replicate]
  constructor
  · refine List.pairwise_append.mpr ⟨List.pairwise_replicate.mpr (Or.inr le_rfl), h.1, ?_⟩
    intro a ha b _
    rw [List.eq_of_mem_replicate ha]
    exact Nat.zero_le b
  · intro now hnow
    rcases List.mem_append.mp hnow with hdrain | hlater
    · rw [List.eq_of_mem_replicate hdrain]
      decide
    · exact h.2 now hlater

/-- The millisecond of the first token. -/
theorem exists_first_token {rate : Nat} (hpos : 0 < rate) (hlt : rate < 1000) :
    ∃ now, 1 < now ∧ now < 2 ^ 32 ∧ 1000 ≤ now * rate ∧ (now - 1) * rate < 1000 := by
  have hle : (rate + 999) / rate * rate ≤ rate + 999 := Nat.div_mul_le_self _ _
  have hnext : rate + 999 < ((rate + 999) / rate + 1) * rate :=
    Nat.lt_mul_of_div_lt (Nat.lt_succ_self _) hpos
  have hself : (rate + 999) / rate ≤ rate + 999 := Nat.div_le_self _ _
  generalize (rate + 999) / rate = now at hle hnext hself
  rw [Nat.add_mul, Nat.one_mul] at hnext
  refine ⟨now, ?_, by omega, by omega, ?_⟩
  · by_contra hnot
    have hsmall : now * rate ≤ 1 * rate := Nat.mul_le_mul_right _ (by omega)
    omega
  · rw [Nat.sub_mul, Nat.one_mul]
    omega

/-- The burst at once, a check that is rejected a millisecond later, and a check when the
first token is there. -/
theorem exists_served_less {ratePerSec burst : Nat} (hrate : ratePerSec ≠ 0)
    (hthousand : ratePerSec < 1000) (hroom : burst ≠ 0) (hburst : burst < 2 ^ 32) :
    ¬NeverServedLess ratePerSec burst := by
  intro h
  obtain ⟨now, hafter, hbound, hthere, hlost⟩ :=
    exists_first_token (Nat.pos_of_ne_zero hrate) hthousand
  have hnows : Nondecreasing [1, now] := by
    refine ⟨List.pairwise_pair.mpr hafter.le, ?_⟩
    simp only [List.forall_mem_cons]
    exact ⟨by decide, hbound, fun n hn => absurd hn List.not_mem_nil⟩
  have hrate32 : ratePerSec < 2 ^ 32 := hthousand.trans (by decide)
  obtain ⟨prev, hdrained⟩ := final_drain_new hrate32 hburst
  have hahead := (ahead_new hrate32 hburst (nondecreasing_drain burst hnows)).final
  rw [hdrained] at hahead
  obtain ⟨d, hd⟩ : ∃ d : RateLimiter, d = ⟨ratePerSec, burst, 0, 0, prev⟩ := ⟨_, rfl⟩
  rw [← hd] at hdrained hahead
  have hdue : ∀ n, d.due n = min (n * ratePerSec / 1000) burst := by
    intro n
    rw [hd, due, Nat.zero_add, Nat.sub_zero]
  -- the millisecond before the inserted check brings nothing, and the next count without it
  have hinserted : d.due 1 = 0 := by
    rw [hdue, Nat.one_mul, Nat.div_eq_of_lt hthousand, Nat.zero_min]
  have hafterwards : (d.checked 1).due now = 0 := by
    rw [due, checked, hinserted, hd]
    dsimp only
    rw [Nat.zero_sub, Nat.zero_add, Nat.div_eq_of_lt hlost, Nat.zero_min]
  have hwithout : 0 < d.due now := by
    rw [hdue]
    omega
  have hstep : d.pollAt ⟨1, true⟩ = _ := hahead.checkAt_eq
  have hfinal : Trace.final pollAt (new ratePerSec burst) (drain burst ++ [⟨1, true⟩]) =
      d.checked 1 := by
    rw [final_append, hdrained, Trace.final, hstep]
    rfl
  have hserved := h (drain burst ++ [⟨1, true⟩]) now ?_ ?_ ?_
  · rw [hfinal, hahead.tail.isOk_iff, hafterwards] at hserved
    exact absurd hserved (lt_irrefl 0)
  · rw [List.map_append, List.append_assoc]
    exact nondecreasing_drain burst hnows
  · refine along_append.mpr ⟨along_drain burst, fun _ => ?_, trivial⟩
    rw [hdrained, hstep, if_pos hinserted]
    rfl
  · have hfilter : List.filter (!·.inserted) (drain burst ++ [⟨1, true⟩]) = drain burst := by
      rw [List.filter_append, filter_drain, List.filter_cons_of_neg (by decide), List.filter_nil,
        List.append_nil]
    rw [hfilter, hdrained]
    exact hahead.skip.isOk_iff.mpr hwithout

/-- **The limiter** keeps to its rate, and serves a caller no less for its rejected checks
iff a millisecond brings a token, or nothing ever does. -/
theorem tokenBucket_iff (ratePerSec burst : Nat) (hrate : ratePerSec < 2 ^ 32)
    (hburst : burst < 2 ^ 32) :
    WithinRate ratePerSec burst ∧
      (NeverServedLess ratePerSec burst ↔ ratePerSec = 0 ∨ burst = 0 ∨ 1000 ≤ ratePerSec) := by
  refine ⟨withinRate hrate hburst, fun h => ?_, neverServedLess hrate hburst⟩
  by_contra hnot
  rw [not_or, not_or, not_le] at hnot
  obtain ⟨hone, hroom, hthousand⟩ := hnot
  exact exists_served_less hone hthousand hroom hburst h

/-- A token for every millisecond. -/
theorem tokenBucket_thousand : WithinRate 1000 500 ∧ NeverServedLess 1000 500 :=
  ⟨(tokenBucket_iff 1000 500 (by decide) (by decide)).1,
    (tokenBucket_iff 1000 500 (by decide) (by decide)).2.mpr (Or.inr (Or.inr le_rfl))⟩

/-- At 100 a second and a burst of 5: a token is there at 10 ms, and not if the bucket
was asked at 1 ms. -/
theorem poll_costs_token : ¬NeverServedLess 100 5 := by
  intro h
  have hserved := h (drain 5 ++ [⟨1, true⟩]) 10 ⟨by decide, by decide⟩
    (along_append.mpr ⟨along_drain 5, by decide +kernel, trivial⟩) (by decide +kernel)
  exact absurd hserved (by decide +kernel)

end RateLimiter

end CipherOcto.Sync
