import CipherOcto.Lib.Knuth
import CipherOcto.Determin.BigIntOps

/-!
# Division: `bigint_divmod`

Division by one limb runs down the dividend (`knuth_single_limb_div`). Division
by more is Algorithm D (`knuth_d`): both operands are shifted until the top
limb of the divisor has its top bit set, and each quotient limb is guessed,
corrected by the three-digit test, multiplied back and, if the subtraction
borrows, reduced by one with the divisor added back.

`knuthStep` works on the window of `n + 1` limbs at offset `j`. One step of it:

> `knuthStep_spec`: if the window is below `B` times the divisor, the step
> returns its quotient limb and leaves its remainder in the window.

The run of the loop carries "everything from offset `j` on is below the
divisor" (`knuthLoop_spec`). No intermediate leaves `u128`, no index leaves its
vector, and the correction loop ends by structural recursion on the guess.
-/

namespace CipherOcto.Determin

open Machine Limbs BigInt

/-! ## The code -/

/-- A `u128` intermediate. -/
def u128 (n : Nat) : Run BigIntError Nat := if n < 2 ^ 128 then .ok n else .error .panic

/-- A `u128` or `usize` difference. -/
def subChecked (a b : Nat) : Run BigIntError Nat := if b ≤ a then .ok (a - b) else .error .panic

/-- The loop of `knuth_single_limb_div`, most significant limb first: the
quotient limbs and the remainder. -/
def singleLimbLoop (divisor : UInt64) : List UInt64 → Nat → List UInt64 × Nat
  | [], remainder => ([], remainder)
  | d :: ds, remainder =>
    let current := remainder <<< 64 % 2 ^ 128 ||| d.toNat
    let rest := singleLimbLoop divisor ds (current % divisor.toNat)
    (UInt64.ofNat (current / divisor.toNat) :: rest.1, rest.2)

/-- `knuth_single_limb_div`. -/
def knuthSingleLimbDiv (dividend : List UInt64) (divisor : UInt64) : List UInt64 × List UInt64 :=
  let run := singleLimbLoop divisor dividend.reverse 0
  (trim run.1.reverse, if run.2 = 0 then [0] else [UInt64.ofNat run.2])

/-- `shl_limbs_n`: the shifted limbs in exactly `outputLen` slots. -/
def shlLimbsN (limbs : List UInt64) (shift outputLen : Nat) : List UInt64 :=
  if shift = 0 then
    limbs.take outputLen ++ List.replicate (outputLen - limbs.length) 0
  else shlLoop shift outputLen limbs 0

/-- The loop of `shr_limbs_n`. -/
def shrLoop (shift : Nat) : List UInt64 → List UInt64
  | [] => []
  | v :: vs =>
    UInt64.ofNat (v.toNat >>> shift ||| (vs.headD 0).toNat <<< (64 - shift) % 2 ^ 64) ::
      shrLoop shift vs

/-- `shr_limbs_n`. -/
def shrLimbsN (limbs : List UInt64) (shift : Nat) : List UInt64 :=
  if shift = 0 then trim limbs
  else if trim (shrLoop shift limbs) = [] then [0]
  else trim (shrLoop shift limbs)

/-- The test of the correction loop of step D3: is the guess too large? A
residue of a base digit or more ends the loop. -/
def trialTooLarge (uTop uMid uLow vTop vNext qHat : Nat) : Run BigIntError Bool := do
  let num ← u128 (uTop * 2 ^ 64 + uMid)
  let prod ← u128 (qHat * vTop)
  let rhat ← subChecked num prod
  if rhat ≥ 2 ^ 64 then .ok false
  else do
    let left ← u128 (qHat * vNext)
    let right ← u128 (2 ^ 64 * rhat + uLow)
    .ok (decide (left > right))

/-- The correction loop of step D3. -/
def refineTrial (uTop uMid uLow vTop vNext : Nat) : Nat → Run BigIntError Nat
  | 0 => do
    let tooLarge ← trialTooLarge uTop uMid uLow vTop vNext 0
    if tooLarge then .error .panic else .ok 0
  | q + 1 => do
    let tooLarge ← trialTooLarge uTop uMid uLow vTop vNext (q + 1)
    if tooLarge then refineTrial uTop uMid uLow vTop vNext q else .ok (q + 1)

/-- Step D4, pass 1: `q_hat * v` in one limb more than `v`. -/
def mulLimb (qHat : Nat) : List UInt64 → Nat → Run BigIntError (List UInt64)
  | [], carry => .ok [UInt64.ofNat carry]
  | v :: vs, carry => do
    let prod ← u128 (qHat * v.toNat + carry)
    let rest ← mulLimb qHat vs (prod / 2 ^ 64)
    .ok (UInt64.ofNat prod :: rest)

/-- Step D6: add the divisor back; the limb above it takes the carry wrapping. -/
def addBack : List UInt64 → List UInt64 → Nat → List UInt64
  | u :: us, v :: vs, carry =>
    let s := u.toNat + v.toNat + carry
    UInt64.ofNat s :: addBack us vs (s / 2 ^ 64)
  | u :: us, [], carry => (u + UInt64.ofNat carry) :: us
  | [], _, _ => []

/-- Steps D4 to D6 on a window: the final quotient limb and the window. -/
def multiplySubtract (qHat : Nat) (v window : List UInt64) :
    Run BigIntError (Nat × List UInt64) := do
  let qv ← mulLimb qHat v 0
  let sub := subBorrow window qv false
  if sub.2 then do
    let q ← subChecked qHat 1
    .ok (q, addBack sub.1 v 0)
  else .ok (qHat, sub.1)

/-- The first guess of step D3. -/
def trialDigit (uTop vTop : UInt64) (num : Nat) : Nat :=
  if uTop = vTop then 2 ^ 64 - 1 else num / vTop.toNat

/-- One iteration of the main loop at offset `j`: the quotient limb and `u`.
The divisor has at least two limbs. -/
def knuthStep (v : List UInt64) (j : Nat) (u : List UInt64) :
    Run BigIntError (UInt64 × List UInt64) := do
  let uTop ← index u (j + v.length)
  let uMid ← index u (j + v.length - 1)
  let vTop ← index v (v.length - 1)
  let vNext ← index v (v.length - 2)
  let num ← u128 (uTop.toNat * 2 ^ 64 + uMid.toNat)
  let uLow ← index u (j + v.length - 2)
  let qHat ← refineTrial uTop.toNat uMid.toNat uLow.toNat vTop.toNat vNext.toNat
    (trialDigit uTop vTop num)
  let r ← multiplySubtract qHat v ((u.drop j).take (v.length + 1))
  .ok (UInt64.ofNat r.1, u.take j ++ r.2 ++ u.drop (j + v.length + 1))

/-- The main loop: `k` offsets left, quotient limbs above them in `q`. -/
def knuthLoop (v : List UInt64) :
    Nat → List UInt64 → List UInt64 → Run BigIntError (List UInt64 × List UInt64)
  | 0, u, q => .ok (q, u)
  | k + 1, u, q => do
    let r ← knuthStep v k u
    knuthLoop v k r.2 (r.1 :: q)

/-- `knuth_d`. -/
def knuthD (dividend divisor : List UInt64) : Run BigIntError (List UInt64 × List UInt64) := do
  let n := divisor.length
  let m ← subChecked dividend.length n
  let top ← index divisor (n - 1)
  let dShift := clz 64 top.toNat
  let r ← knuthLoop (shlLimbsN divisor dShift n) (m + 1)
    (shlLimbsN dividend dShift (n + m + 1)) []
  .ok (trim r.1, shrLimbsN (r.2.take n) dShift)

/-- Single-limb fast path or Algorithm D. -/
def divideLimbs (a b : List UInt64) : Run BigIntError (List UInt64 × List UInt64) :=
  if b.length = 1 then .ok (knuthSingleLimbDiv a (b.headD 0)) else knuthD a b

/-- `bigint_divmod`. -/
def bigintDivmod (a b : BigInt) : Run BigIntError (BigInt × BigInt) :=
  if !a.isCanonical || !b.isCanonical then .error (.err .nonCanonicalInput)
  else if b.isZero then .error (.err .divisionByZero)
  else do
    let aBits ← a.bitLength
    let bBits ← b.bitLength
    if aBits > maxBigintBits ∨ bBits > maxBigintBits then .error (.err .overflow)
    else if a.magnitudeCmp b < 0 then .ok (BigInt.zero, a)
    else do
      let r ← divideLimbs a.limbs b.limbs
      .ok (BigInt.canonicalize ⟨r.1, a.sign != b.sign⟩, BigInt.canonicalize ⟨r.2, a.sign⟩)

/-- `bigint_div`. -/
def bigintDiv (a b : BigInt) : Run BigIntError BigInt := do
  let r ← bigintDivmod a b
  .ok r.1

/-! ## One limb -/

/-- Running down the dividend keeps "quotient so far times divisor plus
remainder". -/
theorem singleLimbLoop_spec {divisor : UInt64} (hd : divisor.toNat ≠ 0) :
    ∀ (ds : List UInt64) (remainder : Nat), remainder < divisor.toNat →
    (singleLimbLoop divisor ds remainder).1.length = ds.length ∧
    (singleLimbLoop divisor ds remainder).2 < divisor.toNat ∧
    val (singleLimbLoop divisor ds remainder).1.reverse * divisor.toNat
        + (singleLimbLoop divisor ds remainder).2
      = remainder * (2 ^ 64) ^ ds.length + val ds.reverse
  | [], remainder, h => ⟨rfl, h, by simp [singleLimbLoop]⟩
  | d :: ds, remainder, h => by
    have hdlt := divisor.toNat_lt
    have hcurrent : remainder <<< 64 % 2 ^ 128 ||| d.toNat = 2 ^ 64 * remainder + d.toNat := by
      rw [Nat.shiftLeft_eq, mul_comm, Nat.mod_eq_of_lt (by omega),
        ← Nat.two_pow_add_eq_or_of_lt d.toNat_lt]
    rw [singleLimbLoop]
    simp only [hcurrent]
    generalize hc : 2 ^ 64 * remainder + d.toNat = current
    have hmod := Nat.mod_lt current (Nat.pos_of_ne_zero hd)
    obtain ⟨hlen, hlt, hval⟩ := singleLimbLoop_spec hd ds (current % divisor.toNat) hmod
    have hq : current / divisor.toNat < 2 ^ 64 := by
      rw [Nat.div_lt_iff_lt_mul (Nat.pos_of_ne_zero hd)]
      have := d.toNat_lt
      omega
    have hdm := Nat.div_add_mod current divisor.toNat
    refine ⟨by simp [hlen], hlt, ?_⟩
    rw [List.reverse_cons, List.reverse_cons, val_concat, val_concat, List.length_reverse,
      List.length_reverse, hlen, toNat_ofNat_of_lt hq, List.length_cons, pow_succ (2 ^ 64) ds.length]
    calc (val (singleLimbLoop divisor ds (current % divisor.toNat)).1.reverse
          + (2 ^ 64) ^ ds.length * (current / divisor.toNat)) * divisor.toNat
          + (singleLimbLoop divisor ds (current % divisor.toNat)).2
        = (val (singleLimbLoop divisor ds (current % divisor.toNat)).1.reverse * divisor.toNat
            + (singleLimbLoop divisor ds (current % divisor.toNat)).2)
          + (2 ^ 64) ^ ds.length * (divisor.toNat * (current / divisor.toNat)) := by ring
      _ = (2 ^ 64) ^ ds.length
            * (divisor.toNat * (current / divisor.toNat) + current % divisor.toNat)
          + val ds.reverse := by rw [hval]; ring
      _ = remainder * ((2 ^ 64) ^ ds.length * 2 ^ 64)
          + (val ds.reverse + (2 ^ 64) ^ ds.length * d.toNat) := by rw [hdm, ← hc]; ring

/-- A quotient and a remainder are determined by the division equation. -/
theorem div_mod_of_eq {a b q r : Nat} (h : q * b + r = a) (hr : r < b) :
    q = a / b ∧ r = a % b := by
  have hb : 0 < b := by omega
  rw [← h, mul_comm, Nat.mul_add_div hb, Nat.div_eq_of_lt hr, Nat.mul_add_mod,
    Nat.mod_eq_of_lt hr]
  exact ⟨rfl, rfl⟩

theorem knuthSingleLimbDiv_spec {dividend : List UInt64} {divisor : UInt64}
    (hne : dividend ≠ []) (hd : divisor.toNat ≠ 0) :
    (knuthSingleLimbDiv dividend divisor).1 ≠ [] ∧ (knuthSingleLimbDiv dividend divisor).2 ≠ [] ∧
    val (knuthSingleLimbDiv dividend divisor).1 = val dividend / divisor.toNat ∧
    val (knuthSingleLimbDiv dividend divisor).2 = val dividend % divisor.toNat := by
  obtain ⟨hlen, hlt, hval⟩ :=
    singleLimbLoop_spec hd dividend.reverse 0 (Nat.pos_of_ne_zero hd)
  rw [Nat.zero_mul, Nat.zero_add, List.reverse_reverse] at hval
  obtain ⟨hq, hr⟩ := div_mod_of_eq hval hlt
  have hqne : (singleLimbLoop divisor dividend.reverse 0).1.reverse ≠ [] := by
    apply List.ne_nil_of_length_pos
    rw [List.length_reverse, hlen, List.length_reverse]
    exact List.length_pos_of_ne_nil hne
  unfold knuthSingleLimbDiv
  refine ⟨(trim_trimmed hqne).1, ?_, ?_, ?_⟩
  · dsimp only
    split <;> exact List.cons_ne_nil _ _
  · rw [val_trim, hq]
  · rw [← hr]
    have hrlt : (singleLimbLoop divisor dividend.reverse 0).2 < 2 ^ 64 :=
      lt_trans hlt divisor.toNat_lt
    dsimp only
    split
    next h0 => rw [h0]; rfl
    next => rw [val_cons, val_nil, mul_zero, add_zero, toNat_ofNat_of_lt hrlt]

/-! ## Shifts of limb vectors -/

theorem length_shlLoop (shift : Nat) : ∀ (n : Nat) (limbs : List UInt64) (low : Nat),
    (shlLoop shift n limbs low).length = n
  | 0, _, _ => rfl
  | n + 1, limbs, low => by rw [shlLoop, List.length_cons, length_shlLoop shift n]

theorem length_shlLimbsN {limbs : List UInt64} {n : Nat} (h : limbs.length ≤ n) (shift : Nat) :
    (shlLimbsN limbs shift n).length = n := by
  unfold shlLimbsN
  split
  · rw [List.length_append, List.length_take, List.length_replicate]
    omega
  · exact length_shlLoop shift n limbs 0

theorem val_shlLimbsN {limbs : List UInt64} {shift n : Nat} (hs : shift < 64)
    (h : limbs.length ≤ n) (hfits : val limbs * 2 ^ shift < (2 ^ 64) ^ n) :
    val (shlLimbsN limbs shift n) = val limbs * 2 ^ shift := by
  unfold shlLimbsN
  split
  next h0 =>
    rw [h0, pow_zero, mul_one, val_append, val_replicate_zero, mul_zero, add_zero,
      List.take_of_length_le h]
  next => rw [val_shlLoop hs n limbs 0 (by positivity), add_zero, Nat.mod_eq_of_lt hfits]

theorem length_shrLoop (shift : Nat) (limbs : List UInt64) :
    (shrLoop shift limbs).length = limbs.length := by
  induction limbs with
  | nil => rfl
  | cons v vs ih => rw [shrLoop, List.length_cons, List.length_cons, ih]

/-- A right shift divides: the bits a limb loses are the ones the limb below
gains. -/
theorem val_shrLoop {shift : Nat} (h0 : 0 < shift) (hs : shift < 64) (limbs : List UInt64) :
    val (shrLoop shift limbs) = val limbs / 2 ^ shift := by
  have hsplit : 2 ^ 64 = 2 ^ shift * 2 ^ (64 - shift) := by rw [← pow_add]; congr 1; omega
  induction limbs with
  | nil => simp [shrLoop]
  | cons v vs ih =>
    have hv := v.toNat_lt
    have hnext : (vs.headD 0).toNat % 2 ^ shift = val vs % 2 ^ shift := by
      rw [← val_headD_tail vs, hsplit, mul_assoc, Nat.add_mul_mod_self_left]
    have hhigh : (vs.headD 0).toNat <<< (64 - shift) % 2 ^ 64
        = 2 ^ (64 - shift) * (val vs % 2 ^ shift) := by
      rw [Nat.shiftLeft_eq, mul_comm, hsplit, mul_comm (2 ^ shift), Nat.mul_mod_mul_left, hnext]
    have hlow : v.toNat >>> shift < 2 ^ (64 - shift) := by
      rw [Nat.shiftRight_eq_div_pow, Nat.div_lt_iff_lt_mul (by positivity), mul_comm, ← hsplit]
      exact hv
    have hword : v.toNat >>> shift ||| (vs.headD 0).toNat <<< (64 - shift) % 2 ^ 64
        = v.toNat / 2 ^ shift + 2 ^ (64 - shift) * (val vs % 2 ^ shift) := by
      rw [hhigh, Nat.lor_comm, ← Nat.two_pow_add_eq_or_of_lt hlow, Nat.shiftRight_eq_div_pow,
        Nat.add_comm]
    have hlt : v.toNat / 2 ^ shift + 2 ^ (64 - shift) * (val vs % 2 ^ shift) < 2 ^ 64 := by
      have hmod : val vs % 2 ^ shift + 1 ≤ 2 ^ shift := Nat.mod_lt _ (by positivity)
      rw [← Nat.shiftRight_eq_div_pow]
      calc v.toNat >>> shift + 2 ^ (64 - shift) * (val vs % 2 ^ shift)
          < 2 ^ (64 - shift) + 2 ^ (64 - shift) * (val vs % 2 ^ shift) := by omega
        _ = 2 ^ (64 - shift) * (val vs % 2 ^ shift + 1) := by ring
        _ ≤ 2 ^ (64 - shift) * 2 ^ shift := Nat.mul_le_mul_left _ hmod
        _ = 2 ^ 64 := by rw [mul_comm, ← hsplit]
    rw [shrLoop, val_cons, val_cons, hword, toNat_ofNat_of_lt hlt, ih]
    have hdm := Nat.mod_add_div (val vs) (2 ^ shift)
    calc v.toNat / 2 ^ shift + 2 ^ (64 - shift) * (val vs % 2 ^ shift)
          + 2 ^ 64 * (val vs / 2 ^ shift)
        = v.toNat / 2 ^ shift
          + 2 ^ (64 - shift) * (val vs % 2 ^ shift + 2 ^ shift * (val vs / 2 ^ shift)) := by
          rw [hsplit]; ring
      _ = (v.toNat + 2 ^ 64 * val vs) / 2 ^ shift := by
          rw [hdm, hsplit, mul_assoc, Nat.add_mul_div_left _ _ (by positivity)]

theorem shrLimbsN_spec {limbs : List UInt64} {shift : Nat} (hne : limbs ≠ []) (hs : shift < 64) :
    shrLimbsN limbs shift ≠ [] ∧ val (shrLimbsN limbs shift) = val limbs / 2 ^ shift := by
  unfold shrLimbsN
  by_cases h0 : shift = 0
  · rw [if_pos h0, h0, pow_zero, Nat.div_one, val_trim]
    exact ⟨(trim_trimmed hne).1, rfl⟩
  · have hout : shrLoop shift limbs ≠ [] := by
      apply List.ne_nil_of_length_pos
      rw [length_shrLoop]
      exact List.length_pos_of_ne_nil hne
    have htrim := (trim_trimmed hout).1
    rw [if_neg h0, if_neg htrim, val_trim, val_shrLoop (Nat.pos_of_ne_zero h0) hs]
    exact ⟨htrim, rfl⟩

/-! ## Algorithm D: one window -/

theorem u128_of_lt {n : Nat} (h : n < 2 ^ 128) : u128 n = .ok n := if_pos h

theorem subChecked_of_le {a b : Nat} (h : b ≤ a) : subChecked a b = .ok (a - b) := if_pos h

theorem mul_lt_u128 {a b c : Nat} (ha : a < 2 ^ 64) (hb : b < 2 ^ 64) (hc : c < 2 ^ 64) :
    a * b + c < 2 ^ 128 := by
  have h := Nat.mul_le_mul (show a ≤ 2 ^ 64 - 1 by omega) (show b ≤ 2 ^ 64 - 1 by omega)
  omega

section Trial

variable {P uTop uMid uLow vTop vNext W V : Nat}

/-- The test of the correction loop, with every intermediate in range. -/
theorem trialTooLarge_eq (h : Knuth.Window (2 ^ 64) P uTop uMid uLow vTop vNext W V)
    (hTop : uTop < 2 ^ 64) {q : Nat} (hq : q < 2 ^ 64)
    (hle : q * vTop ≤ uTop * 2 ^ 64 + uMid) :
    trialTooLarge uTop uMid uLow vTop vNext q
      = .ok (decide (¬ q * vNext ≤ 2 ^ 64 * (uTop * 2 ^ 64 + uMid - q * vTop) + uLow)) := by
  have hnum : uTop * 2 ^ 64 + uMid < 2 ^ 128 := by
    have := h.uMid_lt
    omega
  unfold trialTooLarge
  rw [u128_of_lt hnum, ok_bind, u128_of_lt (lt_of_le_of_lt hle hnum), ok_bind,
    subChecked_of_le hle, ok_bind]
  by_cases hr : uTop * 2 ^ 64 + uMid - q * vTop ≥ 2 ^ 64
  · rw [if_pos hr, decide_eq_false (not_not_intro (h.test_of_residue_ge hq hr))]
  · rw [if_neg hr]
    have hleft : q * vNext < 2 ^ 128 := mul_lt_u128 (c := 0) hq h.vNext_lt (by norm_num)
    have hright : 2 ^ 64 * (uTop * 2 ^ 64 + uMid - q * vTop) + uLow < 2 ^ 128 := by
      have := h.uLow_lt
      omega
    rw [u128_of_lt hleft, ok_bind, u128_of_lt hright, ok_bind]
    simp only [gt_iff_lt, not_le]

/-- The correction loop ends at the quotient digit or one above it. -/
theorem refineTrial_spec (h : Knuth.Window (2 ^ 64) P uTop uMid uLow vTop vNext W V)
    (hTop : uTop < 2 ^ 64) : ∀ q, q < 2 ^ 64 → W / V ≤ q →
    q * vTop ≤ uTop * 2 ^ 64 + uMid →
    ∃ qHat, refineTrial uTop uMid uLow vTop vNext q = .ok qHat ∧ qHat < 2 ^ 64 ∧
      W / V ≤ qHat ∧ qHat ≤ W / V + 1 := by
  intro q
  induction q with
  | zero =>
    intro hq hge hle
    refine ⟨0, ?_, hq, hge, Nat.zero_le _⟩
    rw [refineTrial, trialTooLarge_eq h hTop hq hle, ok_bind, Nat.zero_mul,
      decide_eq_false (not_not_intro (Nat.zero_le _)), if_neg Bool.false_ne_true]
  | succ q ih =>
    intro hq hge hle
    rw [refineTrial, trialTooLarge_eq h hTop hq hle, ok_bind]
    by_cases htest : (q + 1) * vNext ≤ 2 ^ 64 * (uTop * 2 ^ 64 + uMid - (q + 1) * vTop) + uLow
    · rw [decide_eq_false (not_not_intro htest), if_neg Bool.false_ne_true]
      exact ⟨q + 1, rfl, hq, hge, h.le_succ_of_test hq hle htest⟩
    · -- the guess is too large, so the next one is still not too small
      rw [decide_eq_true htest, if_pos rfl]
      have hlt := h.lt_of_test hle htest
      have hle' : q * vTop ≤ uTop * 2 ^ 64 + uMid :=
        le_trans (Nat.mul_le_mul_right vTop (Nat.le_succ q)) hle
      exact ih (by omega) (by omega) hle'

end Trial

theorem mulLimb_spec {qHat : Nat} (hq : qHat < 2 ^ 64) : ∀ (v : List UInt64) (carry : Nat),
    carry < 2 ^ 64 →
    ∃ out, mulLimb qHat v carry = .ok out ∧ out.length = v.length + 1 ∧
      val out = qHat * val v + carry
  | [], carry, hc => by
    refine ⟨[UInt64.ofNat carry], rfl, rfl, ?_⟩
    rw [val_cons, val_nil, toNat_ofNat_of_lt hc]
    omega
  | v :: vs, carry, hc => by
    have hprod := mul_lt_u128 hq v.toNat_lt hc
    obtain ⟨rest, hrun, hlen, hval⟩ :=
      mulLimb_spec hq vs ((qHat * v.toNat + carry) / 2 ^ 64) (by omega)
    have hsplit := ofNat_add_high (qHat * v.toNat + carry)
    refine ⟨UInt64.ofNat (qHat * v.toNat + carry) :: rest, ?_, by simp [hlen], ?_⟩
    · rw [mulLimb, u128_of_lt hprod, ok_bind, hrun, ok_bind]
    · have hdistrib : qHat * val (v :: vs) = qHat * v.toNat + 2 ^ 64 * (qHat * val vs) := by
        rw [val_cons]
        ring
      rw [hdistrib, val_cons, hval]
      omega

/-- Adding the divisor back is addition modulo the window. -/
theorem addBack_spec : ∀ (w v : List UInt64) (carry : Nat), w.length = v.length + 1 →
    (addBack w v carry).length = w.length ∧
    val (addBack w v carry) = (val w + val v + carry) % (2 ^ 64) ^ w.length
  | [u], [], carry, _ => by
    refine ⟨rfl, ?_⟩
    rw [addBack, val_cons, UInt64.toNat_add, toNat_ofNat, List.length_singleton, pow_one]
    simp only [val_cons, val_nil]
    omega
  | _ :: _ :: _, [], _, h => by simp at h
  | u :: us, v :: vs, carry, h => by
    obtain ⟨hlen, hval⟩ := addBack_spec us vs ((u.toNat + v.toNat + carry) / 2 ^ 64)
      (Nat.succ.inj h)
    rw [addBack]
    refine ⟨congrArg (· + 1) hlen, ?_⟩
    rw [val_cons, hval, toNat_ofNat, List.length_cons, pow_succ' (2 ^ 64) us.length, Nat.mod_mul,
      val_cons, val_cons]
    congr 1
    · omega
    · congr 2
      omega

/-- Multiply, subtract and add back: a guess that is right or one too large
becomes the quotient digit, and the window its remainder. -/
theorem multiplySubtract_spec {qHat : Nat} {v w : List UInt64} (hq : qHat < 2 ^ 64)
    (hlen : w.length = v.length + 1) (hV : 0 < val v) (hge : val w / val v ≤ qHat)
    (hle : qHat ≤ val w / val v + 1) :
    ∃ w', multiplySubtract qHat v w = .ok (val w / val v, w') ∧ w'.length = w.length ∧
      val w' = val w % val v := by
  obtain ⟨qv, hrun, hqlen, hqval⟩ := mulLimb_spec hq v 0 (by norm_num)
  rw [add_zero] at hqval
  obtain ⟨hslen, hsval⟩ := subBorrow_spec w qv false (by rw [hqlen, hlen])
  have hslt := val_lt (subBorrow w qv false).1
  have hdm := Nat.div_add_mod' (val w) (val v)
  have hmod := Nat.mod_lt (val w) hV
  rw [hslen] at hslt
  rw [hqval, Bool.toNat_false, add_zero] at hsval
  unfold multiplySubtract
  rw [hrun]
  rw [ok_bind]
  dsimp only
  cases hborrow : (subBorrow w qv false).2 with
  | false =>
    -- no borrow: the product fits, so the guess was right
    rw [hborrow, Bool.toNat_false, mul_zero, add_zero] at hsval
    have hexact : qHat = val w / val v := by
      refine le_antisymm ?_ hge
      rw [Nat.le_div_iff_mul_le hV]
      omega
    rw [if_neg Bool.false_ne_true]
    refine ⟨_, by rw [hexact], hslen, ?_⟩
    rw [hexact] at hsval
    omega
  | true =>
    -- a borrow: the guess was one too large, and the window is off by one divisor
    rw [hborrow, Bool.toNat_true, mul_one] at hsval
    have hexact : qHat = val w / val v + 1 := by
      refine le_antisymm hle ?_
      by_contra hlt
      have : qHat * val v ≤ val w / val v * val v := Nat.mul_le_mul_right _ (by omega)
      omega
    have hpos : 1 ≤ qHat := by rw [hexact]; exact Nat.le_add_left 1 _
    obtain ⟨halen, haval⟩ := addBack_spec (subBorrow w qv false).1 v 0 (by rw [hslen, hlen])
    rw [if_pos rfl, subChecked_of_le hpos, ok_bind, hexact, Nat.add_sub_cancel]
    refine ⟨_, rfl, by rw [halen, hslen], ?_⟩
    have hvlt := val_lt v
    have hpow : (2 ^ 64) ^ w.length = 2 ^ 64 * (2 ^ 64) ^ v.length := by
      rw [hlen, pow_succ' (2 ^ 64) v.length]
    rw [hexact, add_mul, one_mul] at hsval
    have hsum : val (subBorrow w qv false).1 + val v + 0
        = val w % val v + (2 ^ 64) ^ w.length := by omega
    rw [haval, hslen, hsum, Nat.add_mod_right, Nat.mod_eq_of_lt (by omega)]

theorem index_append_cons {xs ys : List UInt64} {y : UInt64} {i : Nat} (h : i = xs.length) :
    (index (xs ++ y :: ys) i : Run BigIntError UInt64) = .ok y := by
  unfold index
  rw [h, List.getElem?_append_right le_rfl, Nat.sub_self]
  rfl

/-- The last two limbs of a vector. -/
theorem exists_top_two {v : List UInt64} (h : 2 ≤ v.length) :
    ∃ vr vNext vTop, v = vr ++ [vNext, vTop] := by
  obtain ⟨xs, vTop, rfl⟩ : ∃ xs x, v = xs ++ [x] :=
    ⟨_, _, (List.dropLast_append_getLast (List.ne_nil_of_length_pos (by omega))).symm⟩
  obtain ⟨vr, vNext, rfl⟩ : ∃ ys y, xs = ys ++ [y] := by
    refine ⟨_, _, (List.dropLast_append_getLast (List.ne_nil_of_length_pos ?_)).symm⟩
    simp only [List.length_append, List.length_singleton] at h
    omega
  exact ⟨vr, vNext, vTop, by simp⟩

/-- The digits the guess looks at, as limbs of the window and the divisor. -/
theorem window_of_limbs {wr vr : List UInt64} {uLow uMid uTop vNext vTop : UInt64}
    (hlen : wr.length = vr.length) (hnorm : 2 ^ 63 ≤ vTop.toNat)
    (hlt : val (wr ++ [uLow, uMid, uTop]) < 2 ^ 64 * val (vr ++ [vNext, vTop])) :
    Knuth.Window (2 ^ 64) ((2 ^ 64) ^ vr.length) uTop.toNat uMid.toNat uLow.toNat vTop.toNat
      vNext.toNat (val (wr ++ [uLow, uMid, uTop])) (val (vr ++ [vNext, vTop])) := by
  have hwr := val_lt wr
  have hvr := val_lt vr
  rw [hlen] at hwr
  have hW : val (wr ++ [uLow, uMid, uTop]) = val wr + (2 ^ 64) ^ vr.length
      * ((uTop.toNat * 2 ^ 64 + uMid.toNat) * 2 ^ 64 + uLow.toNat) := by
    rw [val_append, hlen]
    simp only [val_cons, val_nil]
    ring
  have hV : val (vr ++ [vNext, vTop]) = val vr + (2 ^ 64) ^ vr.length
      * (vTop.toNat * 2 ^ 64 + vNext.toNat) := by
    rw [val_append]
    simp only [val_cons, val_nil]
    ring
  refine
    { base_pos := by norm_num
      weight_pos := by positivity
      uMid_lt := uMid.toNat_lt
      uLow_lt := uLow.toNat_lt
      vNext_lt := vNext.toNat_lt
      normalized := by omega
      le_W := ?_
      W_lt := ?_
      le_V := ?_
      V_lt := ?_
      W_lt_V := by rw [mul_comm]; exact hlt }
  · rw [hW, mul_comm]; exact Nat.le_add_left _ _
  · rw [hW, add_mul _ 1, one_mul, mul_comm]; omega
  · rw [hV, mul_comm]; exact Nat.le_add_left _ _
  · rw [hV, add_mul _ 1, one_mul, mul_comm]; omega

theorem exists_top_three {v : List UInt64} (h : 3 ≤ v.length) :
    ∃ vr a b c, v = vr ++ [a, b, c] := by
  obtain ⟨xs, b, c, rfl⟩ := exists_top_two (v := v) (by omega)
  rw [List.length_append, List.length_cons, List.length_singleton] at h
  have hne : xs ≠ [] := List.ne_nil_of_length_pos (by omega)
  refine ⟨xs.dropLast, xs.getLast hne, b, c, ?_⟩
  conv_lhs => rw [← List.dropLast_append_getLast hne]
  rw [List.append_assoc]
  rfl

/-- The top limb has its top bit set, or the divisor would be below the bound. -/
theorem top_limb_ge {vr : List UInt64} {vNext vTop : UInt64}
    (h : 2 ^ 63 * (2 ^ 64) ^ (vr.length + 2 - 1) ≤ val (vr ++ [vNext, vTop])) :
    2 ^ 63 ≤ vTop.toNat := by
  have hvr := val_lt vr
  have hn := vNext.toNat_lt
  rw [val_append, show vr.length + 2 - 1 = vr.length + 1 by omega,
    pow_succ (2 ^ 64) vr.length] at h
  simp only [val_cons, val_nil] at h
  by_contra hsmall
  have hstep : (2 ^ 64) ^ vr.length * (vNext.toNat + 2 ^ 64 * (vTop.toNat + 2 ^ 64 * 0))
      + (2 ^ 64) ^ vr.length ≤ (2 ^ 64) ^ vr.length * (2 ^ 64 * 2 ^ 63) := by
    rw [← Nat.mul_succ]
    exact Nat.mul_le_mul_left _ (by omega)
  have hcomm : 2 ^ 63 * ((2 ^ 64) ^ vr.length * 2 ^ 64)
      = (2 ^ 64) ^ vr.length * (2 ^ 64 * 2 ^ 63) := by ring
  omega

/-- A limb of the window, read from the whole dividend. -/
theorem index_window (lo hi : List UInt64) {w pre post : List UInt64} {x : UInt64} {i : Nat}
    (hw : w = pre ++ x :: post) (hi' : i = lo.length + pre.length) :
    (index (lo ++ (w ++ hi)) i : Run BigIntError UInt64) = .ok x := by
  rw [hw, show lo ++ (pre ++ x :: post ++ hi) = (lo ++ pre) ++ x :: (post ++ hi) by simp]
  exact index_append_cons (by rw [List.length_append, hi'])

/-- **One step of the main loop** divides its window. -/
theorem knuthStep_spec {v w : List UInt64} (lo hi : List UInt64) (hv : 2 ≤ v.length)
    (hnorm : 2 ^ 63 * (2 ^ 64) ^ (v.length - 1) ≤ val v) (hlen : w.length = v.length + 1)
    (hlt : val w < 2 ^ 64 * val v) :
    ∃ w', knuthStep v lo.length (lo ++ (w ++ hi))
        = .ok (UInt64.ofNat (val w / val v), lo ++ (w' ++ hi)) ∧
      w'.length = w.length ∧ val w' = val w % val v := by
  have hwindow : ((lo ++ (w ++ hi)).drop lo.length).take (v.length + 1) = w := by
    rw [List.drop_left, ← hlen, List.take_left]
  have htake : (lo ++ (w ++ hi)).take lo.length = lo := List.take_left
  have hrest : (lo ++ (w ++ hi)).drop (lo.length + v.length + 1) = hi := by
    rw [add_assoc, ← hlen, ← List.drop_drop, List.drop_left, List.drop_left]
  obtain ⟨vr, vNext, vTop, rfl⟩ := exists_top_two hv
  obtain ⟨wr, uLow, uMid, uTop, rfl⟩ := exists_top_three (v := w) (by omega)
  simp only [List.length_append, List.length_cons, List.length_nil] at hlen
  have hwr : wr.length = vr.length := by omega
  have hvlen : (vr ++ [vNext, vTop]).length = vr.length + 2 := by simp
  have htop : 2 ^ 63 ≤ vTop.toNat := by
    rw [hvlen] at hnorm
    exact top_limb_ge hnorm
  have hW := window_of_limbs hwr htop hlt
  have huTop := index_window lo hi (show wr ++ [uLow, uMid, uTop] = (wr ++ [uLow, uMid]) ++ [uTop]
    by simp) (i := lo.length + (vr.length + 2)) (by simp [hwr])
  have huMid := index_window lo hi (show wr ++ [uLow, uMid, uTop] = (wr ++ [uLow]) ++ [uMid, uTop]
    by simp) (i := lo.length + (vr.length + 2) - 1) (by simp [hwr])
  have huLow := index_window lo hi (show wr ++ [uLow, uMid, uTop] = wr ++ [uLow, uMid, uTop] from rfl)
    (i := lo.length + (vr.length + 2) - 2) (by omega)
  have hvTop : (index (vr ++ [vNext, vTop]) (vr.length + 2 - 1) : Run BigIntError UInt64)
      = .ok vTop := by
    rw [show vr ++ [vNext, vTop] = (vr ++ [vNext]) ++ vTop :: [] by simp]
    exact index_append_cons (by simp)
  have hvNext : (index (vr ++ [vNext, vTop]) (vr.length + 2 - 2) : Run BigIntError UInt64)
      = .ok vNext := index_append_cons (by omega)
  have hnum : uTop.toNat * 2 ^ 64 + uMid.toNat < 2 ^ 128 := by
    have := uTop.toNat_lt
    have := uMid.toNat_lt
    omega
  have htrial : trialDigit uTop vTop (uTop.toNat * 2 ^ 64 + uMid.toNat)
      = if uTop.toNat = vTop.toNat then 2 ^ 64 - 1
        else (uTop.toNat * 2 ^ 64 + uMid.toNat) / vTop.toNat := by
    unfold trialDigit
    simp only [UInt64.toNat_inj]
  obtain ⟨qHat, hrun, hqlt, hqge, hqle⟩ := refineTrial_spec hW uTop.toNat_lt _ hW.trial_lt
    hW.trial_ge (Knuth.Window.trial_mul_le _ _ _ _)
  obtain ⟨w', hms, hwlen, hwval⟩ := multiplySubtract_spec hqlt
    (w := wr ++ [uLow, uMid, uTop]) (by simp [hwr]) hW.V_pos hqge hqle
  refine ⟨w', ?_, hwlen, hwval⟩
  unfold knuthStep
  rw [hvlen] at hwindow hrest ⊢
  rw [huTop, ok_bind, huMid, ok_bind, hvTop, ok_bind, hvNext, ok_bind, u128_of_lt hnum, ok_bind,
    huLow, ok_bind, htrial, hrun, ok_bind, hwindow, hms, ok_bind, htake, hrest, List.append_assoc]

/-- The main loop, from a dividend whose part above the offset is below the
divisor: the quotient limbs in front of those already found, and the
remainder. -/
theorem knuthLoop_spec {v : List UInt64} (hv : 2 ≤ v.length)
    (hnorm : 2 ^ 63 * (2 ^ 64) ^ (v.length - 1) ≤ val v) : ∀ (k : Nat) (u q : List UInt64),
    k + v.length ≤ u.length → val (u.drop k) < val v →
    ∃ qs u', knuthLoop v k u q = .ok (qs ++ q, u') ∧ qs.length = k ∧ u'.length = u.length ∧
      val u = val qs * val v + val u' ∧ val u' < val v := by
  intro k
  induction k with
  | zero =>
    intro u q _ hlt
    exact ⟨[], u, rfl, rfl, rfl, by simp, hlt⟩
  | succ k ih =>
    intro u q hlen hlt
    -- cut `u` into the limbs below the window, the window, and zeros above it
    obtain ⟨lo, w, hi, rfl, rfl, hwlen⟩ : ∃ lo w hi, u = lo ++ (w ++ hi) ∧ lo.length = k ∧
        w.length = v.length + 1 := by
      refine ⟨u.take k, (u.drop k).take (v.length + 1), (u.drop k).drop (v.length + 1), ?_, ?_, ?_⟩
      · rw [List.take_append_drop, List.take_append_drop]
      · rw [List.length_take]; omega
      · rw [List.length_take, List.length_drop]; omega
    have hvlt := val_lt v
    obtain ⟨x, ws, rfl⟩ : ∃ x ws, w = x :: ws := by
      match w, hwlen with
      | x :: ws, _ => exact ⟨x, ws, rfl⟩
    have hws : ws.length = v.length := Nat.succ.inj hwlen
    have habove : val (ws ++ hi) < val v := by
      rw [← List.drop_drop, List.drop_left] at hlt
      exact hlt
    rw [val_append, hws] at habove
    have hhi : val hi = 0 := by
      by_contra hne
      have : (2 ^ 64) ^ v.length * 1 ≤ (2 ^ 64) ^ v.length * val hi :=
        Nat.mul_le_mul_left _ (Nat.pos_of_ne_zero hne)
      omega
    have hwin : val (x :: ws) < 2 ^ 64 * val v := by
      have hx := x.toNat_lt
      rw [val_cons]
      omega
    obtain ⟨w', hstep, hwlen', hwval⟩ := knuthStep_spec lo hi hv hnorm hwlen hwin
    have hVpos : 0 < val v := by omega
    have hnext : val ((lo ++ (w' ++ hi)).drop lo.length) < val v := by
      rw [List.drop_left, val_append, hhi, mul_zero, add_zero, hwval]
      exact Nat.mod_lt _ hVpos
    have hsame : (lo ++ (w' ++ hi)).length = (lo ++ (x :: ws ++ hi)).length := by
      rw [List.length_append, List.length_append, List.length_append, List.length_append, hwlen']
    obtain ⟨qs, u', hrun, hqlen, hulen, huval, hult⟩ := ih (lo ++ (w' ++ hi))
      (UInt64.ofNat (val (x :: ws) / val v) :: q) (by rw [hsame]; omega) hnext
    refine ⟨qs ++ [UInt64.ofNat (val (x :: ws) / val v)], u', ?_, by simp [hqlen],
      by rw [hulen, hsame], ?_, hult⟩
    · rw [knuthLoop, hstep, ok_bind, hrun, List.append_assoc]
      rfl
    · have hdigit : val (x :: ws) / val v < 2 ^ 64 := by
        rw [Nat.div_lt_iff_lt_mul hVpos]
        exact hwin
      have hdm := Nat.div_add_mod' (val (x :: ws)) (val v)
      rw [val_append, val_append, hhi, mul_zero, add_zero, hwval] at huval
      rw [val_append, val_append, hhi, mul_zero, add_zero, val_concat, toNat_ofNat_of_lt hdigit,
        hqlen]
      calc val lo + (2 ^ 64) ^ lo.length * val (x :: ws)
          = val lo + (2 ^ 64) ^ lo.length * (val (x :: ws) % val v)
            + (2 ^ 64) ^ lo.length * (val (x :: ws) / val v) * val v := by
            conv_lhs => rw [← hdm]
            ring
        _ = (val qs + (2 ^ 64) ^ lo.length * (val (x :: ws) / val v)) * val v + val u' := by
            rw [huval]; ring

/-! ## Algorithm D and the operation -/

/-- The shift that gives a limb its top bit. -/
theorem clz_shift {top : Nat} (h0 : top ≠ 0) (hlt : top < 2 ^ 64) :
    clz 64 top < 64 ∧ 2 ^ 63 ≤ top * 2 ^ clz 64 top ∧ (top + 1) * 2 ^ clz 64 top ≤ 2 ^ 64 := by
  have hpos := bitLen_pos h0
  have hle : bitLen top ≤ 64 := bitLen_le_iff.mpr hlt
  have hclz : clz 64 top = 64 - bitLen top := rfl
  rw [hclz]
  refine ⟨by omega, ?_, ?_⟩
  · calc 2 ^ 63 = 2 ^ (bitLen top - 1) * 2 ^ (64 - bitLen top) := by
          rw [← pow_add]; congr 1; omega
      _ ≤ top * 2 ^ (64 - bitLen top) := Nat.mul_le_mul_right _ (two_pow_pred_bitLen_le h0)
  · calc (top + 1) * 2 ^ (64 - bitLen top)
        ≤ 2 ^ bitLen top * 2 ^ (64 - bitLen top) :=
          Nat.mul_le_mul_right _ (lt_two_pow_bitLen top)
      _ = 2 ^ 64 := by rw [← pow_add]; congr 1; omega

/-- A divisor shifted so that its top limb is normalised keeps its length. -/
theorem normalized_bounds (xs : List UInt64) {top : UInt64} {s : Nat}
    (hlo : 2 ^ 63 ≤ top.toNat * 2 ^ s) (hhi : (top.toNat + 1) * 2 ^ s ≤ 2 ^ 64) :
    val (xs ++ [top]) * 2 ^ s < (2 ^ 64) ^ (xs.length + 1) ∧
      2 ^ 63 * (2 ^ 64) ^ xs.length ≤ val (xs ++ [top]) * 2 ^ s := by
  have hxs := val_lt xs
  rw [val_concat, pow_succ (2 ^ 64) xs.length, add_mul, mul_assoc]
  refine ⟨?_, ?_⟩
  · calc val xs * 2 ^ s + (2 ^ 64) ^ xs.length * (top.toNat * 2 ^ s)
        < (2 ^ 64) ^ xs.length * 2 ^ s + (2 ^ 64) ^ xs.length * (top.toNat * 2 ^ s) :=
          Nat.add_lt_add_right (Nat.mul_lt_mul_of_pos_right hxs (by positivity)) _
      _ = (2 ^ 64) ^ xs.length * ((top.toNat + 1) * 2 ^ s) := by ring
      _ ≤ (2 ^ 64) ^ xs.length * 2 ^ 64 := Nat.mul_le_mul_left _ hhi
  · rw [mul_comm]
    exact le_trans (Nat.mul_le_mul_left _ hlo) (Nat.le_add_left _ _)

/-- The division equation of the shifted operands, shifted back. -/
theorem unshift_division {a b q r s : Nat} (h : a * 2 ^ s = q * (b * 2 ^ s) + r)
    (hr : r < b * 2 ^ s) : q = a / b ∧ r / 2 ^ s = a % b := by
  have hpos : 0 < 2 ^ s := by positivity
  have hdvd : 2 ^ s ∣ r := by
    rw [← mul_assoc] at h
    exact (Nat.dvd_add_right (dvd_mul_left _ _)).mp (h ▸ dvd_mul_left _ _)
  obtain ⟨t, rfl⟩ := hdvd
  rw [Nat.mul_div_cancel_left _ hpos]
  refine div_mod_of_eq (Nat.eq_of_mul_eq_mul_right hpos ?_) ?_
  · rw [add_mul, mul_assoc, mul_comm t, h]
  · rw [mul_comm] at hr
    exact Nat.lt_of_mul_lt_mul_right hr

/-- What the dividend has above the first offset is below the divisor. -/
theorem drop_lt_divisor {u : List UInt64} {a b s m n : Nat} (hlen : m + 1 ≤ u.length)
    (hu : val u = a * 2 ^ s) (ha : a < (2 ^ 64) ^ (n + 1 + m)) (hb : (2 ^ 64) ^ n ≤ b) :
    val (u.drop (m + 1)) < b * 2 ^ s := by
  have hcut := val_take_add_drop (m + 1) u hlen
  have hbound : (2 ^ 64) ^ (m + 1) * val (u.drop (m + 1))
      < (2 ^ 64) ^ (m + 1) * ((2 ^ 64) ^ n * 2 ^ s) := by
    calc (2 ^ 64) ^ (m + 1) * val (u.drop (m + 1)) ≤ val u := by omega
      _ = a * 2 ^ s := hu
      _ < (2 ^ 64) ^ (n + 1 + m) * 2 ^ s := Nat.mul_lt_mul_of_pos_right ha (by positivity)
      _ = (2 ^ 64) ^ (m + 1) * ((2 ^ 64) ^ n * 2 ^ s) := by
        rw [show n + 1 + m = (m + 1) + n by omega, pow_add]; ring
  exact lt_of_lt_of_le (Nat.lt_of_mul_lt_mul_left hbound) (Nat.mul_le_mul_right _ hb)

/-- **`knuth_d` divides**, without a panic. -/
theorem knuthD_spec {a b : List UInt64} (hb : Trimmed b) (hblen : 2 ≤ b.length)
    (hlen : b.length ≤ a.length) :
    ∃ q r, knuthD a b = .ok (q, r) ∧ q ≠ [] ∧ r ≠ [] ∧ val q = val a / val b ∧
      val r = val a % val b := by
  have hble := hb.le_val (by omega)
  obtain ⟨xs, top, rfl⟩ : ∃ xs x, b = xs ++ [x] :=
    ⟨_, _, (List.dropLast_append_getLast hb.1).symm⟩
  have hxs : (xs ++ [top]).length = xs.length + 1 := by simp
  rw [hxs, Nat.add_sub_cancel] at hble
  have htop : top.toNat ≠ 0 := by
    intro h0
    refine hb.2 (by omega) ?_
    rw [List.getLast?_concat]
    exact congrArg some (UInt64.toNat_inj.mp h0)
  obtain ⟨hs, hlo, hhi⟩ := clz_shift htop top.toNat_lt
  generalize hshift : clz 64 top.toNat = s at hs hlo hhi
  obtain ⟨hVfits, hVnorm⟩ := normalized_bounds xs hlo hhi
  obtain ⟨m, hm⟩ : ∃ m, a.length = xs.length + 1 + m := ⟨a.length - (xs.length + 1), by omega⟩
  have halt := val_lt a
  rw [hm] at halt
  have hUfits : val a * 2 ^ s < (2 ^ 64) ^ (xs.length + 1 + m + 1) := by
    rw [pow_succ (2 ^ 64) (xs.length + 1 + m)]
    exact Nat.mul_lt_mul_of_lt_of_le halt (Nat.pow_le_pow_right (by norm_num) hs.le)
      (by positivity)
  -- the shifted operands
  have hvlen := length_shlLimbsN hxs.le s
  have hulen := length_shlLimbsN (n := xs.length + 1 + m + 1) (show a.length ≤ _ by omega) s
  have hvval := val_shlLimbsN hs hxs.le hVfits
  have huval := val_shlLimbsN hs (show a.length ≤ xs.length + 1 + m + 1 by omega) hUfits
  generalize hvdef : shlLimbsN (xs ++ [top]) s (xs.length + 1) = v at hvlen hvval
  generalize hudef : shlLimbsN a s (xs.length + 1 + m + 1) = u at hulen huval
  have habove : val (u.drop (m + 1)) < val v := by
    rw [hvval]
    exact drop_lt_divisor (by omega) huval halt hble
  obtain ⟨qs, u', hrun, hqlen, hulen', hdiv, hult⟩ :=
    knuthLoop_spec (by omega) (by rw [hvlen, Nat.add_sub_cancel, hvval]; exact hVnorm) (m + 1) u []
      (by omega) habove
  rw [huval, hvval] at hdiv
  rw [hvval] at hult
  obtain ⟨hq, hr⟩ := unshift_division hdiv hult
  have hcut : val (u'.take (xs.length + 1)) = val u' :=
    val_take_of_lt (by omega) (lt_trans hult hVfits)
  have hremne : u'.take (xs.length + 1) ≠ [] := by
    apply List.ne_nil_of_length_pos
    rw [List.length_take]
    omega
  obtain ⟨hrne, hrval⟩ := shrLimbsN_spec hremne hs
  have hqne : qs ≠ [] := List.ne_nil_of_length_pos (by omega)
  refine ⟨trim qs, shrLimbsN (u'.take (xs.length + 1)) s, ?_, (trim_trimmed hqne).1, hrne, ?_, ?_⟩
  · unfold knuthD
    rw [hxs, hm]
    simp only [subChecked_of_le (Nat.le_add_right _ _), ok_bind, Nat.add_sub_cancel_left]
    rw [Nat.add_sub_cancel, index_append_cons rfl, ok_bind, hshift, hvdef, hudef, hrun, ok_bind,
      List.append_nil]
  · rw [val_trim, hq]
  · rw [hrval, hcut, hr]

theorem divideLimbs_spec {a b : List UInt64} (ha : Trimmed a) (hb : Trimmed b) (h0 : val b ≠ 0)
    (hle : val b ≤ val a) :
    ∃ q r, divideLimbs a b = .ok (q, r) ∧ q ≠ [] ∧ r ≠ [] ∧ val q = val a / val b ∧
      val r = val a % val b := by
  unfold divideLimbs
  by_cases hone : b.length = 1
  · obtain ⟨d, rfl⟩ := List.length_eq_one_iff.mp hone
    have hd : val [d] = d.toNat := by rw [val_cons, val_nil, mul_zero, add_zero]
    rw [hd] at h0 ⊢
    rw [if_pos hone]
    exact ⟨_, _, rfl, knuthSingleLimbDiv_spec ha.1 h0⟩
  · have hpos := List.length_pos_of_ne_nil hb.1
    rw [if_neg hone]
    exact knuthD_spec hb (by omega) (hb.length_le ha.1 hle)

/-- Truncating division by magnitudes and signs. -/
theorem toInt_tdiv {x y : Int} {q : List UInt64} (h : val q = x.natAbs / y.natAbs) :
    toInt ⟨q, decide (x < 0) != decide (y < 0)⟩ = x.tdiv y := by
  unfold toInt
  rw [h]
  by_cases hx : x < 0 <;> by_cases hy : y < 0 <;> simp only [hx, hy, decide_true, decide_false]
  · rw [← Int.neg_tdiv_neg, ← Int.ofNat_natAbs_of_nonpos hx.le, ← Int.ofNat_natAbs_of_nonpos hy.le]
    rfl
  · rw [← Int.neg_neg (x.tdiv y), ← Int.neg_tdiv, ← Int.ofNat_natAbs_of_nonpos hx.le]
    conv_rhs => rw [← Int.natAbs_of_nonneg (not_lt.mp hy)]
    rfl
  · rw [← Int.neg_neg (x.tdiv y), ← Int.tdiv_neg, ← Int.ofNat_natAbs_of_nonpos hy.le]
    conv_rhs => rw [← Int.natAbs_of_nonneg (not_lt.mp hx)]
    rfl
  · conv_rhs => rw [← Int.natAbs_of_nonneg (not_lt.mp hx), ← Int.natAbs_of_nonneg (not_lt.mp hy)]
    rfl

theorem toInt_tmod {x y : Int} {r : List UInt64} (h : val r = x.natAbs % y.natAbs) :
    toInt ⟨r, decide (x < 0)⟩ = x.tmod y := by
  have habs : ((x.natAbs % y.natAbs : Nat) : Int) = (x.tmod y).natAbs := by rw [Int.natAbs_tmod]
  unfold toInt
  rw [h, habs]
  refine signed_eq (fun hx => ?_) (fun hx => ?_)
  · have hneg := Int.tmod_nonneg y (show 0 ≤ -x by omega)
    rw [Int.neg_tmod] at hneg
    omega
  · have hpos := Int.tmod_nonneg y hx
    omega

/-- **`bigint_divmod` is truncating division.** -/
theorem bigintDivmod_ofInt {x y : Int} (hx : x.natAbs < 2 ^ 4096) (hy : y.natAbs < 2 ^ 4096)
    (h0 : y ≠ 0) :
    bigintDivmod (ofInt x) (ofInt y) = .ok (ofInt (x.tdiv y), ofInt (x.tmod y)) := by
  have hxt := ofInt_limbs_trimmed x
  have hyt := ofInt_limbs_trimmed y
  unfold bigintDivmod
  rw [isCanonical_ofInt, isCanonical_ofInt, if_neg (by decide), isZero_ofInt_of_ne h0,
    if_neg Bool.false_ne_true, bitLength_ofInt, ok_bind, bitLength_ofInt, ok_bind,
    if_neg (not_or.mpr ⟨bitLength_le_of_lt hx, bitLength_le_of_lt hy⟩),
    magnitudeCmp_ofInt]
  by_cases hlt : x.natAbs < y.natAbs
  · -- the dividend is its own remainder
    have hq : x.tdiv y = 0 := by
      rw [← toInt_tdiv (q := [0]) (by rw [Nat.div_eq_of_lt hlt]; rfl)]
      cases decide (x < 0) != decide (y < 0) <;> rfl
    have hr : x.tmod y = x := by
      have := Int.mul_tdiv_add_tmod x y
      rw [hq] at this
      omega
    rw [compare_lt_iff_lt.mpr hlt, if_pos (by decide), hq, hr]
    rfl
  · have hge : y.natAbs ≤ x.natAbs := not_lt.mp hlt
    have hcmp : ¬ signOfOrdering (Ord.compare x.natAbs y.natAbs) < 0 := by
      rcases lt_or_eq_of_le hge with h | h
      · rw [compare_gt_iff_gt.mpr h]; decide
      · rw [compare_eq_iff_eq.mpr h.symm]; decide
    rw [if_neg hcmp]
    obtain ⟨q, r, hrun, hqne, hrne, hq, hr⟩ := divideLimbs_spec hxt hyt
      (by rw [val_ofInt_limbs]; omega) (by rw [val_ofInt_limbs, val_ofInt_limbs]; exact hge)
    rw [val_ofInt_limbs, val_ofInt_limbs] at hq hr
    rw [hrun, ok_bind, canonicalize_eq hqne, canonicalize_eq hrne, ofInt_sign, ofInt_sign,
      toInt_tdiv hq, toInt_tmod hr]

theorem bigintDiv_ofInt {x y : Int} (hx : x.natAbs < 2 ^ 4096) (hy : y.natAbs < 2 ^ 4096)
    (h0 : y ≠ 0) : bigintDiv (ofInt x) (ofInt y) = .ok (ofInt (x.tdiv y)) := by
  unfold bigintDiv
  rw [bigintDivmod_ofInt hx hy h0, ok_bind]

end CipherOcto.Determin
