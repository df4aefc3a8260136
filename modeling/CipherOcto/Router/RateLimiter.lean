import CipherOcto.Lib.HashMap
import CipherOcto.Lib.Trace
import CipherOcto.Router.Keys

/-!
# Rate limits per key

A token bucket is refilled, whenever it is tried, by the whole seconds since it was last
tried. So a bucket that is tried more often than once a second is never refilled, and
every try throws away what has run up towards the next token. The store makes all its
buckets with a refill rate of 0: the limit of a key is a limit for good.

Times are nanoseconds of the monotonic clock, which is read once in a call.

> `noRefill_step`: no bucket of the store has a refill rate.
> `rpmLeft_step`: what an operation leaves of the requests of a key.
> `keepsPace_iff`: no refill is lost to rejected tries iff there is none to lose.
-/

namespace CipherOcto.Router

open Trace

/-! ## The code -/

/-- `TokenBucket`. -/
structure TokenBucket where
  capacity : Nat
  tokens : Nat
  refillRatePerMinute : Nat
  lastRefill : Nat
  lastAccess : Nat
  capacity_lt : capacity < 2 ^ 32
  tokens_le : tokens ≤ capacity

def saturatingMul64 (a b : Nat) : Nat := min (a * b) (2 ^ 64 - 1)

def saturatingAdd64 (a b : Nat) : Nat := min (a + b) (2 ^ 64 - 1)

namespace TokenBucket

def new (capacity refillPerMinute : UInt32) (now : Nat) : TokenBucket where
  capacity := capacity.toNat
  tokens := capacity.toNat
  refillRatePerMinute := refillPerMinute.toNat
  lastRefill := now
  lastAccess := now
  capacity_lt := capacity.toNat_lt
  tokens_le := le_rfl

/-- The whole seconds since the last refill. -/
def deltaSecs (b : TokenBucket) (now : Nat) : Nat := (now - b.lastRefill) / 10 ^ 9

/-- `refill`. -/
def refill (b : TokenBucket) (now : Nat) : TokenBucket :=
  let newTokens := saturatingMul64 (b.deltaSecs now) b.refillRatePerMinute / 60
  { b with
    tokens := min (saturatingAdd64 b.tokens newTokens) b.capacity
    lastRefill := now
    tokens_le := Nat.min_le_right _ _ }

/-- The tokens are taken, `self.tokens.saturating_sub(tokens_needed)`. -/
def take (b : TokenBucket) (tokensNeeded now : Nat) : TokenBucket :=
  { b with
    tokens := b.tokens - tokensNeeded
    lastAccess := now
    tokens_le := (Nat.sub_le _ _).trans b.tokens_le }

/-- `try_consume`. -/
def tryConsume (b : TokenBucket) (tokensToConsume : UInt32) (now : Nat) : Bool × TokenBucket :=
  if tokensToConsume.toNat ≤ (b.refill now).tokens then
    (true, (b.refill now).take tokensToConsume.toNat now)
  else (false, b.refill now)

/-- `retry_after`. -/
def retryAfter (b : TokenBucket) : Nat :=
  if 1 ≤ b.tokens then 0
  else max (if 0 < b.refillRatePerMinute then 60 ⌈/⌉ b.refillRatePerMinute else 60) 1

end TokenBucket

/-- `RateLimitStatus`. -/
structure RateLimitStatus where
  limit : Nat
  remaining : Nat
  reset : Nat

/-- The fields of an `ApiKey` that `check_rate_limit` reads. -/
structure RateLimitedKey where
  keyId : String
  rpmLimit : Option Int32
  tpmLimit : Option Int32

/-- `RateLimiterStore`: the buckets of a key for its requests and for its tokens. -/
structure RateLimiterStore where
  buckets : HashMap String (TokenBucket × TokenBucket)

namespace RateLimiterStore

def new : RateLimiterStore := ⟨∅⟩

/-- `entry(key_id).or_insert_with(..)`. -/
def entry (s : RateLimiterStore) (keyId : String) (fresh : TokenBucket × TokenBucket) :
    TokenBucket × TokenBucket :=
  (s.buckets.lookup keyId).getD fresh

/-- `check_rate_limit`. -/
def checkRateLimit (s : RateLimiterStore) (key : RateLimitedKey) (tokens : UInt32) (now : Nat) :
    Except KeyError Unit × RateLimiterStore :=
  let entry := s.entry key.keyId
    (.new (key.rpmLimit.getD 100).toUInt32 0 now, .new (key.tpmLimit.getD 1000).toUInt32 0 now)
  let (rpmOk, rpm) := entry.1.tryConsume 1 now
  if !rpmOk then
    (.error (.rateLimited rpm.retryAfter), ⟨s.buckets.insert key.keyId (rpm, entry.2)⟩)
  else
    let (tpmOk, tpm) := entry.2.tryConsume tokens now
    (if tpmOk then .ok () else .error (.rateLimited tpm.retryAfter),
      ⟨s.buckets.insert key.keyId (rpm, tpm)⟩)

/-- A placeholder that the other check has made gives way to a bucket. -/
def replacePlaceholder (b : TokenBucket) (limit : UInt32) (now : Nat) : TokenBucket :=
  if b.capacity = 0 ∧ 0 < limit then .new limit 0 now else b

/-- `check_rpm_only`. -/
def checkRpmOnly (s : RateLimiterStore) (keyId : String) (rpmLimit : UInt32) (now unixNow : Nat) :
    Except KeyError RateLimitStatus × RateLimiterStore :=
  let entry := s.entry keyId (.new rpmLimit 0 now, .new 0 0 now)
  let rpmBucket := replacePlaceholder entry.1 rpmLimit now
  let (ok, rpm) := rpmBucket.tryConsume 1 now
  (if !ok then .error (.rateLimited rpm.retryAfter)
    else .ok ⟨rpmBucket.capacity, rpmBucket.tokens - 1, unixNow + max rpm.retryAfter 1⟩,
    ⟨s.buckets.insert keyId (rpm, entry.2)⟩)

/-- `check_tpm_only`. -/
def checkTpmOnly (s : RateLimiterStore) (keyId : String) (tokens tpmLimit : UInt32) (now : Nat) :
    Except KeyError Unit × RateLimiterStore :=
  let entry := s.entry keyId (.new 0 0 now, .new tpmLimit 0 now)
  let tpmBucket := replacePlaceholder entry.2 tpmLimit now
  let (ok, tpm) := tpmBucket.tryConsume tokens now
  (if !ok then .error (.rateLimited tpm.retryAfter) else .ok (),
    ⟨s.buckets.insert keyId (entry.1, tpm)⟩)

/-- `invalidate`. -/
def invalidate (s : RateLimiterStore) (keyId : String) : RateLimiterStore :=
  ⟨s.buckets.erase keyId⟩

inductive Op where
  | checkRateLimit (key : RateLimitedKey) (tokens : UInt32) (now : Nat)
  | checkRpmOnly (keyId : String) (rpmLimit : UInt32) (now unixNow : Nat)
  | checkTpmOnly (keyId : String) (tokens tpmLimit : UInt32) (now : Nat)
  | invalidate (keyId : String)

def Op.keyId : Op → String
  | .checkRateLimit key _ _ => key.keyId
  | .checkRpmOnly keyId _ _ _ | .checkTpmOnly keyId _ _ _ | .invalidate keyId => keyId

/-- One call. The answer is whether it returned `Ok`. -/
def step (s : RateLimiterStore) : Op → Bool × RateLimiterStore
  | .checkRateLimit key tokens now => (s.checkRateLimit key tokens now).map Except.isOk id
  | .checkRpmOnly keyId rpmLimit now unixNow =>
    (s.checkRpmOnly keyId rpmLimit now unixNow).map Except.isOk id
  | .checkTpmOnly keyId tokens tpmLimit now =>
    (s.checkTpmOnly keyId tokens tpmLimit now).map Except.isOk id
  | .invalidate keyId => (true, s.invalidate keyId)

end RateLimiterStore

/-! ## Buckets -/

namespace TokenBucket

variable {b : TokenBucket} {n : UInt32} {now : Nat}

@[simp] theorem new_tokens (capacity rate : UInt32) (now : Nat) :
    (new capacity rate now).tokens = capacity.toNat := rfl

@[simp] theorem new_capacity (capacity rate : UInt32) (now : Nat) :
    (new capacity rate now).capacity = capacity.toNat := rfl

/-- A refill that brings nothing. -/
theorem refill_tokens_of_nothing (h : saturatingMul64 (b.deltaSecs now) b.refillRatePerMinute / 60 = 0) :
    (b.refill now).tokens = b.tokens := by
  have hle := b.tokens_le
  have hlt := b.capacity_lt
  show min (saturatingAdd64 b.tokens (saturatingMul64 _ _ / 60)) b.capacity = b.tokens
  rw [h, saturatingAdd64]
  omega

theorem refill_tokens_of_rate_zero (h : b.refillRatePerMinute = 0) :
    (b.refill now).tokens = b.tokens := by
  refine refill_tokens_of_nothing ?_
  rw [h, saturatingMul64, Nat.mul_zero, Nat.zero_min, Nat.zero_div]

theorem refill_tokens_of_lt_second (h : now < b.lastRefill + 10 ^ 9) :
    (b.refill now).tokens = b.tokens := by
  have hzero : b.deltaSecs now = 0 := Nat.div_eq_of_lt (by omega)
  refine refill_tokens_of_nothing ?_
  rw [hzero, saturatingMul64, Nat.zero_mul, Nat.zero_min, Nat.zero_div]

theorem refill_tokens_of_full (h : b.tokens = b.capacity) : (b.refill now).tokens = b.capacity := by
  have hlt := b.capacity_lt
  show min (saturatingAdd64 b.tokens (saturatingMul64 _ _ / 60)) b.capacity = b.capacity
  rw [h, saturatingAdd64]
  omega

/-- A try takes the tokens if they are there after the refill. -/
theorem tryConsume_fst : (b.tryConsume n now).1 = true ↔ n.toNat ≤ (b.refill now).tokens := by
  unfold tryConsume
  split
  next h => exact iff_of_true rfl h
  next h => exact iff_of_false Bool.false_ne_true h

/-- A try that is rejected leaves the bucket refilled. -/
theorem tryConsume_snd_of_rejected (h : (b.tryConsume n now).1 = false) :
    (b.tryConsume n now).2 = b.refill now := by
  unfold tryConsume at h ⊢
  split at h
  · cases h
  next hlt => exact congrArg Prod.snd (if_neg hlt)

@[simp] theorem tryConsume_capacity : (b.tryConsume n now).2.capacity = b.capacity := by
  unfold tryConsume
  split <;> rfl

@[simp] theorem tryConsume_rate :
    (b.tryConsume n now).2.refillRatePerMinute = b.refillRatePerMinute := by
  unfold tryConsume
  split <;> rfl

@[simp] theorem tryConsume_lastRefill : (b.tryConsume n now).2.lastRefill = now := by
  unfold tryConsume
  split <;> rfl

/-- What is left after a try, when the bucket is not refilled. -/
theorem tryConsume_one_tokens (h : b.refillRatePerMinute = 0) :
    (b.tryConsume 1 now).2.tokens = b.tokens - 1 := by
  have hsame : (b.refill now).tokens = b.tokens := refill_tokens_of_rate_zero h
  unfold tryConsume
  split
  next => exact congrArg (· - 1) hsame
  next hlt =>
    have hone : (1 : UInt32).toNat = 1 := rfl
    show (b.refill now).tokens = _
    omega

/-! ## Rejected tries -/

/-- One try of a bucket, of an amount at a time. -/
def poll (b : TokenBucket) (try' : UInt32 × Nat) : Bool × TokenBucket := b.tryConsume try'.1 try'.2

/-- The clock has not gone back, and the try is rejected. -/
def Rejected (b : TokenBucket) (try' : UInt32 × Nat) : Prop :=
  b.lastRefill ≤ try'.2 ∧ (b.poll try').1 = false

/-- Whatever rejected tries lie between, a try finds what the rate has brought since the
last refill of `b`. -/
def KeepsPace (b : TokenBucket) : Prop :=
  ∀ tries now, Along poll Rejected b tries → (final poll b tries).lastRefill ≤ now →
    min b.capacity ((now - b.lastRefill) * b.refillRatePerMinute / (60 * 10 ^ 9)) ≤
      ((final poll b tries).refill now).tokens

theorem keepsPace_of_full (h : b.tokens = b.capacity) : b.KeepsPace := by
  intro tries now hrejected _
  have hfull : (final poll b tries).tokens = b.capacity ∧ (final poll b tries).capacity = b.capacity := by
    refine final_of_along (fun b' => b'.tokens = b.capacity ∧ b'.capacity = b.capacity) ?_ ⟨h, rfl⟩
      hrejected
    intro b' try' hreject hb'
    obtain ⟨htokens, hcapacity⟩ := hb'
    show (tryConsume _ _ _).2.tokens = _ ∧ (tryConsume _ _ _).2.capacity = _
    rw [tryConsume_snd_of_rejected hreject.2]
    exact ⟨(refill_tokens_of_full (htokens.trans hcapacity.symm)).trans hcapacity, hcapacity⟩
  rw [refill_tokens_of_full (hfull.1.trans hfull.2.symm), hfull.2]
  exact Nat.min_le_left _ _

/-- Tries every half second, of one token more than there are, bring nothing. -/
theorem exists_idle_tries (h : b.tokens < b.capacity) (m : Nat) :
    ∃ tries, Along poll Rejected b tries ∧ (final poll b tries).tokens = b.tokens ∧
      (final poll b tries).lastRefill = b.lastRefill + m * (5 * 10 ^ 8) := by
  induction m generalizing b with
  | zero => exact ⟨[], trivial, rfl, by rw [Nat.zero_mul]; rfl⟩
  | succ m ih =>
    have hlt := b.capacity_lt
    obtain ⟨next, hnext⟩ : ∃ next, next = b.lastRefill + 5 * 10 ^ 8 := ⟨_, rfl⟩
    have htokens : (b.refill next).tokens = b.tokens := refill_tokens_of_lt_second (by omega)
    have hreject : (b.tryConsume (UInt32.ofNat (b.tokens + 1)) next).1 = false := by
      rw [← Bool.not_eq_true, tryConsume_fst, htokens, UInt32.toNat_ofNat_of_lt' (by show _ < 2 ^ 32; omega)]
      omega
    have hroom : (b.refill next).tokens < (b.refill next).capacity := htokens ▸ h
    obtain ⟨tries, hrejected, htokens', hlast⟩ := ih hroom
    have hrefill : (b.poll (UInt32.ofNat (b.tokens + 1), next)).2 = b.refill next :=
      tryConsume_snd_of_rejected hreject
    have hclock : (b.refill next).lastRefill = next := rfl
    refine ⟨(UInt32.ofNat (b.tokens + 1), next) :: tries,
      ⟨⟨by omega, hreject⟩, hrefill ▸ hrejected⟩, ?_, ?_⟩
    · rw [final, hrefill, htokens', htokens]
    · rw [final, hrefill, hlast, hclock]
      omega

/-- No refill is lost to rejected tries iff there is none to lose. -/
theorem keepsPace_iff : b.KeepsPace ↔ b.refillRatePerMinute = 0 ∨ b.tokens = b.capacity := by
  constructor
  · intro h
    by_contra hne
    rw [not_or] at hne
    obtain ⟨hrate, hroom⟩ := hne
    have hlt : b.tokens < b.capacity := lt_of_le_of_ne b.tokens_le hroom
    obtain ⟨tries, hrejected, htokens, hlast⟩ := exists_idle_tries hlt (120 * (b.tokens + 1))
    -- a minute of tries for each token, and one to spare
    have hfound := h tries _ hrejected le_rfl
    rw [refill_tokens_of_lt_second (by omega), htokens, hlast, Nat.add_sub_cancel_left] at hfound
    have hdue : b.tokens + 1 ≤
        120 * (b.tokens + 1) * (5 * 10 ^ 8) * b.refillRatePerMinute / (60 * 10 ^ 9) := by
      rw [Nat.le_div_iff_mul_le (by norm_num)]
      have hone : 1 ≤ b.refillRatePerMinute := Nat.one_le_iff_ne_zero.mpr hrate
      calc (b.tokens + 1) * (60 * 10 ^ 9) = 120 * (b.tokens + 1) * (5 * 10 ^ 8) * 1 := by omega
        _ ≤ _ := Nat.mul_le_mul_left _ hone
    omega
  · intro h
    rcases h with hrate | hfull
    · intro tries now _ _
      rw [hrate, Nat.mul_zero, Nat.zero_div, Nat.min_zero]
      exact Nat.zero_le _
    · exact keepsPace_of_full hfull

end TokenBucket

/-! ## The store -/

namespace RateLimiterStore

variable {s : RateLimiterStore} {keyId : String} {rpmLimit : UInt32}

/-- No bucket of the store is ever refilled. -/
def NoRefill (s : RateLimiterStore) : Prop :=
  ∀ k entry, s.buckets.lookup k = some entry →
    entry.1.refillRatePerMinute = 0 ∧ entry.2.refillRatePerMinute = 0

theorem noRefill_new : NoRefill new := fun _ _ h => by cases h

theorem noRefill_insert (hs : s.NoRefill) {rpm tpm : TokenBucket}
    (hrpm : rpm.refillRatePerMinute = 0) (htpm : tpm.refillRatePerMinute = 0) (keyId : String) :
    NoRefill ⟨s.buckets.insert keyId (rpm, tpm)⟩ := by
  intro k e he
  by_cases hk : k = keyId
  · rw [hk, AList.lookup_insert] at he
    cases he
    exact ⟨hrpm, htpm⟩
  · rw [AList.lookup_insert_ne hk] at he
    exact hs k e he

/-- An entry is one of the store or one that is made for it. -/
theorem noRefill_entry (hs : s.NoRefill) (keyId : String) (rpmLimit tpmLimit : UInt32) (now : Nat) :
    (s.entry keyId (.new rpmLimit 0 now, .new tpmLimit 0 now)).1.refillRatePerMinute = 0 ∧
      (s.entry keyId (.new rpmLimit 0 now, .new tpmLimit 0 now)).2.refillRatePerMinute = 0 := by
  rw [entry]
  cases hlookup : s.buckets.lookup keyId with
  | none => exact ⟨rfl, rfl⟩
  | some e => exact hs keyId e hlookup

theorem replacePlaceholder_rate {b : TokenBucket} (h : b.refillRatePerMinute = 0) (limit : UInt32)
    (now : Nat) : (replacePlaceholder b limit now).refillRatePerMinute = 0 := by
  unfold replacePlaceholder
  split
  · rfl
  · exact h

/-- Every constructor call of the store passes a refill rate of 0. -/
theorem noRefill_step (hs : s.NoRefill) (op : Op) : (s.step op).2.NoRefill := by
  cases op with
  | checkRateLimit key tokens now =>
    obtain ⟨hrpm, htpm⟩ := noRefill_entry hs key.keyId (key.rpmLimit.getD 100).toUInt32
      (key.tpmLimit.getD 1000).toUInt32 now
    simp only [step, checkRateLimit, Prod.map_snd, id]
    split
    · exact noRefill_insert hs (TokenBucket.tryConsume_rate.trans hrpm) htpm _
    · exact noRefill_insert hs (TokenBucket.tryConsume_rate.trans hrpm)
        (TokenBucket.tryConsume_rate.trans htpm) _
  | checkRpmOnly k limit now unixNow =>
    obtain ⟨hrpm, htpm⟩ := noRefill_entry hs k limit 0 now
    have hrate := replacePlaceholder_rate hrpm limit now
    exact noRefill_insert hs (TokenBucket.tryConsume_rate.trans hrate) htpm k
  | checkTpmOnly k tokens limit now =>
    obtain ⟨hrpm, htpm⟩ := noRefill_entry hs k 0 limit now
    have hrate := replacePlaceholder_rate htpm limit now
    exact noRefill_insert hs hrpm (TokenBucket.tryConsume_rate.trans hrate) k
  | invalidate k =>
    intro k' e he
    by_cases hk : k' = k
    · rw [hk] at he
      exact absurd he (by simp [step, invalidate])
    · refine hs k' e ?_
      rw [← he]
      exact (AList.lookup_erase_ne hk).symm

/-- The bucket that `check_rpm_only` tries. -/
def rpmBucket (s : RateLimiterStore) (keyId : String) (rpmLimit : UInt32) (now : Nat) : TokenBucket :=
  replacePlaceholder (s.entry keyId (.new rpmLimit 0 now, .new 0 0 now)).1 rpmLimit now

/-- The requests a key has left. -/
def rpmLeft (s : RateLimiterStore) (keyId : String) (rpmLimit : UInt32) : Nat :=
  (s.rpmBucket keyId rpmLimit 0).tokens

theorem replacePlaceholder_tokens_congr {b b' : TokenBucket} (hcapacity : b.capacity = b'.capacity)
    (htokens : b.tokens = b'.tokens) (limit : UInt32) (now now' : Nat) :
    (replacePlaceholder b limit now).tokens = (replacePlaceholder b' limit now').tokens := by
  unfold replacePlaceholder
  rw [hcapacity]
  split
  · rfl
  · exact htokens

theorem rpmBucket_tokens (now : Nat) :
    (s.rpmBucket keyId rpmLimit now).tokens = s.rpmLeft keyId rpmLimit := by
  rw [rpmLeft, rpmBucket, rpmBucket, entry, entry]
  cases s.buckets.lookup keyId with
  | none =>
    show (replacePlaceholder (.new rpmLimit 0 now) rpmLimit now).tokens =
      (replacePlaceholder (.new rpmLimit 0 0) rpmLimit 0).tokens
    exact replacePlaceholder_tokens_congr (by simp) (by simp) _ _ _
  | some e => exact replacePlaceholder_tokens_congr rfl rfl _ _ _

theorem rpmBucket_rate (hs : s.NoRefill) (now : Nat) :
    (s.rpmBucket keyId rpmLimit now).refillRatePerMinute = 0 :=
  replacePlaceholder_rate (noRefill_entry hs keyId rpmLimit 0 now).1 rpmLimit now

theorem rpmLeft_new : new.rpmLeft keyId rpmLimit = rpmLimit.toNat := by
  show (replacePlaceholder (.new rpmLimit 0 0) rpmLimit 0).tokens = _
  unfold replacePlaceholder
  split <;> rfl

theorem rpmLeft_insert (entry : TokenBucket × TokenBucket) :
    rpmLeft ⟨s.buckets.insert keyId entry⟩ keyId rpmLimit =
      (replacePlaceholder entry.1 rpmLimit 0).tokens := by
  rw [rpmLeft, rpmBucket, RateLimiterStore.entry, AList.lookup_insert, Option.getD_some]

theorem rpmLeft_congr {s' : RateLimiterStore} (h : s'.buckets.lookup keyId = s.buckets.lookup keyId) :
    s'.rpmLeft keyId rpmLimit = s.rpmLeft keyId rpmLimit := by
  rw [rpmLeft, rpmLeft, rpmBucket, rpmBucket, entry, entry, h]

/-- Once replaced, a bucket stays. -/
theorem replacePlaceholder_of_capacity {b b' : TokenBucket} {limit : UInt32} {now now' : Nat}
    (h : b'.capacity = (replacePlaceholder b limit now).capacity) :
    replacePlaceholder b' limit now' = b' := by
  refine if_neg fun hplaceholder => ?_
  obtain ⟨hzero, hpos⟩ := hplaceholder
  rw [h] at hzero
  unfold replacePlaceholder at hzero
  split at hzero
  · exact absurd (show limit.toNat = 0 from hzero) (UInt32.lt_iff_toNat_lt.mp hpos).ne'
  next hkept => exact hkept ⟨hzero, hpos⟩

/-- A `check_rpm_only` of the key. -/
def Op.isRpmCall (keyId : String) : Op → Bool
  | .checkRpmOnly k _ _ _ => k = keyId
  | _ => false

/-- The requests of the key are counted by `check_rpm_only` alone, with one limit. -/
def Op.Fixed (keyId : String) (rpmLimit : UInt32) : Op → Prop
  | .checkRpmOnly k limit _ _ => k = keyId → limit = rpmLimit
  | .checkTpmOnly _ _ _ _ => True
  | .checkRateLimit key _ _ => key.keyId ≠ keyId
  | .invalidate k => k ≠ keyId

theorem rpmOnly_ok_iff (hs : s.NoRefill) (now unixNow : Nat) :
    (s.step (.checkRpmOnly keyId rpmLimit now unixNow)).1 = true ↔ 0 < s.rpmLeft keyId rpmLimit := by
  have htry : (s.step (.checkRpmOnly keyId rpmLimit now unixNow)).1 =
      ((s.rpmBucket keyId rpmLimit now).tryConsume 1 now).1 := by
    simp only [step, checkRpmOnly, Prod.map_fst]
    rw [rpmBucket]
    cases ((replacePlaceholder _ rpmLimit now).tryConsume 1 now).1 <;> rfl
  rw [htry, TokenBucket.tryConsume_fst, TokenBucket.refill_tokens_of_rate_zero (rpmBucket_rate hs now),
    rpmBucket_tokens]
  exact Iff.rfl

/-- What an operation leaves of the requests of a key: a call takes one, and nothing else
takes or brings any. -/
theorem rpmLeft_step (hs : s.NoRefill) {op : Op} (hop : op.Fixed keyId rpmLimit) :
    (s.step op).2.rpmLeft keyId rpmLimit =
      if op.isRpmCall keyId then s.rpmLeft keyId rpmLimit - 1 else s.rpmLeft keyId rpmLimit := by
  cases op with
  | checkRateLimit key tokens now =>
    have hne : keyId ≠ key.keyId := fun h => hop h.symm
    simp only [step, checkRateLimit, Prod.map_snd, id, Op.isRpmCall, Bool.false_eq_true, if_false]
    split <;> exact rpmLeft_congr (AList.lookup_insert_ne hne)
  | checkRpmOnly k limit now unixNow =>
    by_cases hk : k = keyId
    · have hcall : (Op.checkRpmOnly k limit now unixNow).isRpmCall keyId = true := decide_eq_true hk
      rw [if_pos hcall, hk, hop hk]
      refine (rpmLeft_insert _).trans ?_
      -- the bucket that was tried is not replaced again
      have hcapacity : ((s.rpmBucket keyId rpmLimit now).tryConsume 1 now).2.capacity =
          (s.rpmBucket keyId rpmLimit now).capacity := TokenBucket.tryConsume_capacity
      refine (congrArg TokenBucket.tokens (replacePlaceholder_of_capacity hcapacity)).trans ?_
      rw [TokenBucket.tryConsume_one_tokens (rpmBucket_rate hs now), rpmBucket_tokens]
    · rw [if_neg (by simp [Op.isRpmCall, hk])]
      exact rpmLeft_congr (AList.lookup_insert_ne (Ne.symm hk))
  | checkTpmOnly k tokens limit now =>
    rw [if_neg (by simp [Op.isRpmCall])]
    by_cases hk : k = keyId
    · rw [hk]
      refine (rpmLeft_insert _).trans ?_
      show (replacePlaceholder (s.entry keyId (.new 0 0 now, _)).1 rpmLimit 0).tokens = _
      rw [rpmLeft, rpmBucket, entry, entry]
      cases s.buckets.lookup keyId with
      | none =>
        -- the placeholder gives way to what would have been made at once
        rw [Option.getD_none, Option.getD_none]
        unfold replacePlaceholder
        by_cases hpos : 0 < rpmLimit
        · rw [if_pos ⟨rfl, hpos⟩]
          split <;> rfl
        · have hzero : rpmLimit = 0 := UInt32.le_zero_iff.mp (UInt32.not_lt.mp hpos)
          rw [if_neg (fun h => hpos h.2), if_neg (fun h => hpos h.2), hzero]
          rfl
      | some e => rfl
    · exact rpmLeft_congr (AList.lookup_insert_ne (Ne.symm hk))
  | invalidate k =>
    rw [if_neg (by simp [Op.isRpmCall])]
    exact rpmLeft_congr (AList.lookup_erase_ne (Ne.symm hop))

/-! ## Runs of calls -/

/-- The requests that are left are the limit less the calls made. -/
theorem rpmLeft_final {ops : List Op} (h : ∀ op ∈ ops, op.Fixed keyId rpmLimit) :
    (final step new ops).NoRefill ∧ (final step new ops).rpmLeft keyId rpmLimit =
      rpmLimit.toNat - ops.countP (·.isRpmCall keyId) := by
  induction ops using List.reverseRecOn with
  | nil => exact ⟨noRefill_new, rpmLeft_new⟩
  | append_singleton ops op ih =>
    obtain ⟨hs, hleft⟩ := ih fun o ho => h o (List.mem_append_left _ ho)
    have hop : op.Fixed keyId rpmLimit := h op (List.mem_append_right _ List.mem_cons_self)
    rw [final_append]
    refine ⟨noRefill_step hs op, (rpmLeft_step hs hop).trans ?_⟩
    rw [hleft, List.countP_append, List.countP_singleton]
    split <;> omega

/-- A call that returned `Ok`. -/
def succeeded (keyId : String) (call : Op × Bool) : Bool := call.1.isRpmCall keyId && call.2

/-- The successful calls are no more than the limit. -/
theorem countP_succeeded_le {ops : List Op} (h : ∀ op ∈ ops, op.Fixed keyId rpmLimit) :
    (trace step new ops).countP (succeeded keyId) +
      (final step new ops).rpmLeft keyId rpmLimit = rpmLimit.toNat := by
  induction ops using List.reverseRecOn with
  | nil => exact (Nat.zero_add _).trans rpmLeft_new
  | append_singleton ops op ih =>
    have hops : ∀ o ∈ ops, o.Fixed keyId rpmLimit := fun o ho => h o (List.mem_append_left _ ho)
    have hop : op.Fixed keyId rpmLimit := h op (List.mem_append_right _ List.mem_cons_self)
    have hs := (rpmLeft_final hops).1
    have hcount := ih hops
    rw [trace_append, final_append, List.countP_append]
    show _ + List.countP _ [(op, _)] + (step _ op).2.rpmLeft keyId rpmLimit = _
    rw [List.countP_singleton, rpmLeft_step hs hop]
    by_cases hcall : op.isRpmCall keyId = true
    · rw [if_pos hcall, succeeded, hcall, Bool.true_and]
      cases op with
      | checkRpmOnly k limit now unixNow =>
        have hk : k = keyId := of_decide_eq_true hcall
        rw [hk, hop hk]
        split
        next h =>
          have hpos := (rpmOnly_ok_iff hs now unixNow).mp h
          omega
        next h =>
          have hzero := mt (rpmOnly_ok_iff hs now unixNow).mpr h
          omega
      | checkRateLimit key tokens now => cases hcall
      | checkTpmOnly k tokens limit now => cases hcall
      | invalidate k => cases hcall
    · rw [if_neg hcall, succeeded, Bool.not_eq_true] at *
      rw [hcall, Bool.false_and, if_neg Bool.false_ne_true]
      omega

end RateLimiterStore

/-- A call made by a time. -/
def RateLimiterStore.Op.madeBy (time : Nat) : Op → Bool
  | .checkRpmOnly _ _ now _ => now ≤ time
  | _ => false

open RateLimiterStore in
/-- **A limit for good.** However the calls for a key with one limit are spread and mixed
with other calls, no more succeed by any time than the limit allows; a call succeeds, how
long ever the last is past, iff fewer calls than the limit were made before it; and a
bucket loses no refill to rejected tries iff it has no rate or has nothing to refill. -/
theorem rate_limits_iff (keyId : String) (rpmLimit : UInt32) :
    (∀ ops : List Op, (∀ op ∈ ops, op.Fixed keyId rpmLimit) →
      (∀ createdAt T, ((trace step new ops).countP fun call =>
          succeeded keyId call && call.1.madeBy (createdAt + T)) ≤
        rpmLimit.toNat + rpmLimit.toNat * T ⌈/⌉ (60 * 10 ^ 9)) ∧
      ∀ now unixNow, (step (final step new ops) (.checkRpmOnly keyId rpmLimit now unixNow)).1 = true ↔
        ops.countP (·.isRpmCall keyId) < rpmLimit.toNat) ∧
    ∀ (b : TokenBucket) n now, (b.tryConsume n now).1 = true →
      ((b.tryConsume n now).2.KeepsPace ↔ (b.tryConsume n now).2.refillRatePerMinute = 0 ∨
        (b.tryConsume n now).2.tokens = (b.tryConsume n now).2.capacity) := by
  refine ⟨fun ops hops => ⟨fun createdAt T => ?_, fun now unixNow => ?_⟩,
    fun b n now _ => TokenBucket.keepsPace_iff⟩
  · have hcount := countP_succeeded_le hops
    have hle : ((trace step new ops).countP fun call =>
        succeeded keyId call && call.1.madeBy (createdAt + T)) ≤
        (trace step new ops).countP (succeeded keyId) :=
      List.countP_mono_left fun call _ h => (Bool.and_eq_true_iff.mp h).1
    omega
  · obtain ⟨hs, hleft⟩ := rpmLeft_final hops
    rw [rpmOnly_ok_iff hs, hleft]
    exact Nat.sub_pos_iff_lt

/-- The second request of a key with a limit of one, a minute after the first; and a
bucket of 10 a second after the 10 were taken, with a try half a second before. -/
theorem rate_limits_never_refill :
    (RateLimiterStore.step (final RateLimiterStore.step .new [.checkRpmOnly "key" 1 0 0])
      (.checkRpmOnly "key" 1 60000000000 60)).1 = false ∧
    (((TokenBucket.new 10 60 0).tryConsume 10 0).1 = true ∧
      ¬((TokenBucket.new 10 60 0).tryConsume 10 0).2.KeepsPace) := by
  refine ⟨by decide +kernel, by decide +kernel, fun h => ?_⟩
  have hfound := h [(1, 500000000)] 1000000000 ⟨⟨by decide +kernel, by decide +kernel⟩, trivial⟩
    (by decide +kernel)
  exact absurd hfound (by decide +kernel)

end CipherOcto.Router
