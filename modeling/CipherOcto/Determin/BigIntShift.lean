import CipherOcto.Lib.Attempt
import CipherOcto.Determin.BigIntExact

/-!
# Shifts by every amount

`bigint_shl` rejects a shift whose result has more than 4096 bits by comparing
`bit_length() + shift` with the bound. The sum is a `usize` sum: a build that
checks overflows panics where it leaves the word, another wraps it to a small
number and goes on to build a vector of `shift / 64` limbs. `bigintShl` is the
wrapping build; `bigintShlIn` has both.

`bigint_shr` drops limbs and shifts the rest down. It has no such guard and is
right for every shift:

> `shifts_exact_iff`: both shifts are exact, or an overflow, unless the sum of
> bit length and shift leaves the word.
-/

namespace CipherOcto.Determin

open Machine Limbs BigInt

/-- `bigint_shl`, with the guard's sum as a build computes it. -/
def bigintShlIn (overflowChecks : Bool) (a : BigInt) (shift : Nat) : Run BigIntError BigInt :=
  if !a.isCanonical then .error (.err .nonCanonicalInput)
  else if shift = 0 then .ok a
  else do
    let bits ← a.bitLength
    let total ← build overflowChecks (addU 64 bits shift)
    if total > maxBigintBits then .error (.err .overflow)
    else .ok (BigInt.canonicalize
      ⟨List.replicate (shift / 64) 0 ++ shlLoop (shift % 64) (a.limbs.length + 1) a.limbs 0,
        a.sign⟩)

/-- `bigint_shr`: whole limbs first, then the bits that cross limbs. -/
def bigintShr (a : BigInt) (shift : Nat) : Run BigIntError BigInt :=
  if !a.isCanonical then .error (.err .nonCanonicalInput)
  else if shift = 0 then .ok a
  else if a.isZero then .ok BigInt.zero
  else if shift / 64 ≥ a.limbs.length then .ok BigInt.zero
  else
    let limbs := a.limbs.drop (shift / 64)
    .ok (BigInt.canonicalize
      ⟨if shift % 64 = 0 then limbs else shrLoop (shift % 64) limbs, a.sign⟩)

theorem bigintShl_eq_in (a : BigInt) (shift : Nat) :
    bigintShl a shift = bigintShlIn false a shift := by
  unfold bigintShl bigintShlIn
  congr 2

/-! ## The right shift -/

theorem toInt_tdiv_two_pow {x : Int} {q : List UInt64} {shift : Nat}
    (h : val q = x.natAbs / 2 ^ shift) : toInt ⟨q, decide (x < 0)⟩ = x.tdiv (2 ^ shift) := by
  have hpos : ¬ (2 : Int) ^ shift < 0 := not_lt.mpr (by positivity)
  have hq := toInt_tdiv (x := x) (y := 2 ^ shift) (q := q) (by rw [h, Int.natAbs_pow]; rfl)
  rwa [decide_eq_false hpos, Bool.bne_false] at hq

/-- Where every limb is shifted out, the quotient is zero. -/
theorem tdiv_two_pow_eq_zero {x : Int} {shift : Nat}
    (h : (ofInt x).limbs.length ≤ shift / 64) : x.tdiv (2 ^ shift) = 0 := by
  have hval := val_lt (ofInt x).limbs
  rw [val_ofInt_limbs] at hval
  have hlt : x.natAbs < 2 ^ shift := by
    calc x.natAbs < (2 ^ 64) ^ (ofInt x).limbs.length := hval
      _ ≤ (2 ^ 64) ^ (shift / 64) := Nat.pow_le_pow_right (by norm_num) h
      _ = 2 ^ (64 * (shift / 64)) := (pow_mul _ _ _).symm
      _ ≤ 2 ^ shift := Nat.pow_le_pow_right (by norm_num) (Nat.mul_div_le _ _)
  rw [← Int.natAbs_eq_zero, Int.natAbs_tdiv, Int.natAbs_pow]
  exact Nat.div_eq_of_lt hlt

/-- **`bigint_shr` is truncating division by a power of two.** -/
theorem bigintShr_eq {a : BigInt} (ha : a.Canonical) (shift : Nat) :
    bigintShr a shift = .ok (ofInt (a.toInt.tdiv (2 ^ shift))) := by
  generalize hx : a.toInt = x
  obtain rfl : a = ofInt x := hx ▸ ha.eq_ofInt
  have hpow : 2 ^ shift = (2 ^ 64) ^ (shift / 64) * 2 ^ (shift % 64) := by
    rw [← pow_mul, ← pow_add, Nat.div_add_mod]
  unfold bigintShr
  rw [isCanonical_ofInt, if_neg (by decide), isZero_ofInt]
  by_cases h0 : shift = 0
  · rw [if_pos h0, h0, pow_zero, Int.tdiv_one]
  rw [if_neg h0]
  by_cases hzero : x = 0
  · rw [if_pos (decide_eq_true hzero), hzero, Int.zero_tdiv]
    rfl
  rw [if_neg (by simpa using hzero)]
  by_cases hlen : shift / 64 ≥ (ofInt x).limbs.length
  · rw [if_pos hlen, tdiv_two_pow_eq_zero hlen]
    rfl
  rw [if_neg hlen]
  have hdrop := val_drop (shift / 64) (ofInt x).limbs
  rw [val_ofInt_limbs] at hdrop
  have hne : (ofInt x).limbs.drop (shift / 64) ≠ [] := by
    rw [Ne, List.drop_eq_nil_iff]
    exact hlen
  refine congrArg Except.ok ?_
  show canonicalize _ = _
  split
  · next hrem =>
    rw [canonicalize_eq hne, ofInt_sign, toInt_tdiv_two_pow]
    rw [hdrop, hpow, hrem, pow_zero, Nat.mul_one]
  · next hrem =>
    have hne' : shrLoop (shift % 64) ((ofInt x).limbs.drop (shift / 64)) ≠ [] := by
      rw [Ne, ← List.length_eq_zero_iff, length_shrLoop, List.length_eq_zero_iff]
      exact hne
    rw [canonicalize_eq hne', ofInt_sign, toInt_tdiv_two_pow]
    rw [val_shrLoop (Nat.pos_of_ne_zero hrem) (Nat.mod_lt _ (by norm_num)), hdrop,
      Nat.div_div_eq_div_mul, ← hpow]

/-- A quotient by a power of two is zero or on the dividend's side. -/
theorem tdiv_two_pow_eq_zero_or_sign (x : Int) (shift : Nat) :
    x.tdiv (2 ^ shift) = 0 ∨ (x.tdiv (2 ^ shift) < 0 ↔ x < 0) := by
  have hpos : (0 : Int) ≤ 2 ^ shift := by positivity
  rcases lt_or_ge x 0 with hx | hx
  · have hle := Int.tdiv_nonneg (show 0 ≤ -x by omega) hpos
    rw [Int.neg_tdiv] at hle
    omega
  · have hge := Int.tdiv_nonneg hx hpos
    omega

/-! ## Both shifts -/

/-- What `bit_length` returns on a canonical value. -/
def BigInt.bits (b : BigInt) : Nat := max 1 (bitLen b.toInt.natAbs)

theorem bitLength_eq {a : BigInt} (ha : a.Canonical) : a.bitLength = .ok a.bits := by
  have h := bitLength_ofInt a.toInt
  rwa [← ha.eq_ofInt] at h

/-- The shifts of `a` by `shift`, as a build computes them. -/
structure ShiftsExact (overflowChecks : Bool) (a : BigInt) (shift : Nat) : Prop where
  shl_fits : shift = 0 ∨ a.bits + shift ≤ maxBigintBits →
    ∃ r, bigintShlIn overflowChecks a shift = .ok r ∧ r.Canonical ∧ r.toInt = a.toInt * 2 ^ shift
  shl_overflows : ¬ (shift = 0 ∨ a.bits + shift ≤ maxBigintBits) →
    bigintShlIn overflowChecks a shift = .error (.err .overflow)
  shr : ∃ r, bigintShr a shift = .ok r ∧ r.Canonical ∧
    r.toInt.natAbs = a.toInt.natAbs / 2 ^ shift ∧ (r.toInt = 0 ∨ r.sign = a.sign)

section
variable {a : BigInt} (ha : a.Canonical) {shift : Nat}
include ha

/-- The guard of the left shift, in either build. -/
theorem bigintShlIn_eq (overflowChecks : Bool) (h0 : shift ≠ 0) :
    bigintShlIn overflowChecks a shift =
      if overflowChecks ∧ 2 ^ 64 ≤ a.bits + shift then .error .panic
      else if (a.bits + shift) % 2 ^ 64 > maxBigintBits then .error (.err .overflow)
      else .ok (BigInt.canonicalize
        ⟨List.replicate (shift / 64) 0 ++ shlLoop (shift % 64) (a.limbs.length + 1) a.limbs 0,
          a.sign⟩) := by
  have hguard : (build overflowChecks (addU 64 a.bits shift) : Run BigIntError Nat) =
      if overflowChecks ∧ 2 ^ 64 ≤ a.bits + shift then .error .panic
      else .ok ((a.bits + shift) % 2 ^ 64) := by
    unfold build addU
    simp only [decide_eq_true_eq]
  unfold bigintShlIn
  rw [ha.isCanonical, if_neg (by decide), if_neg h0, bitLength_eq ha, ok_bind, hguard]
  split <;> rfl

theorem shl_fits (overflowChecks : Bool) (hfits : shift = 0 ∨ a.bits + shift ≤ maxBigintBits) :
    ∃ r, bigintShlIn overflowChecks a shift = .ok r ∧ r.Canonical ∧
      r.toInt = a.toInt * 2 ^ shift := by
  by_cases h0 : shift = 0
  · refine ⟨a, ?_, ha, by rw [h0, pow_zero, mul_one]⟩
    unfold bigintShlIn
    rw [ha.isCanonical, if_neg (by decide), if_pos h0]
  have hle : a.bits + shift ≤ 4096 := hfits.resolve_left h0
  have hshl := bigintShl_ofInt hle
  rw [← ha.eq_ofInt, bigintShl_eq_in] at hshl
  refine ⟨_, ?_, ofInt_canonical _, toInt_ofInt _⟩
  -- where the sum fits, the builds agree
  rw [bigintShlIn_eq ha false h0, if_neg (by omega)] at hshl
  rw [bigintShlIn_eq ha overflowChecks h0, if_neg (by omega), hshl]

/-- **When both shifts are exact.** -/
theorem shifts_exact_iff (overflowChecks : Bool) (hal : a.toInt.natAbs < 2 ^ 4096)
    (hshift : shift < 2 ^ 64) :
    ShiftsExact overflowChecks a shift ↔ a.bits + shift < 2 ^ 64 := by
  have hbits : a.bits ≤ 4096 := by
    have hlen := bitLen_le_iff.mpr hal
    unfold BigInt.bits
    omega
  constructor
  · intro h
    by_contra hwrap
    have hover := h.shl_overflows (by unfold maxBigintBits; omega)
    rw [bigintShlIn_eq ha overflowChecks (by omega)] at hover
    split at hover
    · cases hover
    · -- the wrapped sum is below the bound
      rw [if_neg (by unfold maxBigintBits; omega)] at hover
      cases hover
  · intro hword
    refine ⟨shl_fits ha overflowChecks, fun hnot => ?_, ?_⟩
    · rw [bigintShlIn_eq ha overflowChecks (fun h0 => hnot (Or.inl h0)), if_neg (by omega),
        Nat.mod_eq_of_lt hword, if_pos (not_le.mp fun hle => hnot (Or.inr hle))]
    · refine ⟨_, bigintShr_eq ha shift, ofInt_canonical _, ?_, ?_⟩
      · rw [toInt_ofInt, Int.natAbs_tdiv, Int.natAbs_pow]
        rfl
      · rw [toInt_ofInt, ofInt_sign, ha.sign_eq, decide_eq_decide]
        exact tdiv_two_pow_eq_zero_or_sign a.toInt shift

end

theorem one_canonical : (⟨[1], false⟩ : BigInt).Canonical :=
  ⟨⟨List.cons_ne_nil _ _, by decide⟩, by decide⟩

/-- One, moved up by as much as fits and down again, in a checked build. -/
theorem shifts_exact_one : ShiftsExact true ⟨[1], false⟩ 4095 :=
  (shifts_exact_iff one_canonical true (lt_maxBits (k := 1) (by decide) (by norm_num))
    (by norm_num)).mpr (by decide)

/-- One, moved up by the largest `usize`. -/
theorem one_shl_word_max :
    bigintShlIn true ⟨[1], false⟩ (2 ^ 64 - 1) = .error .panic ∧
      bigintShlIn false ⟨[1], false⟩ (2 ^ 64 - 1) ≠ .error (.err .overflow) ∧
      ∀ overflowChecks, ¬ ∀ (a : BigInt) (shift : Nat), a.Canonical →
        a.toInt.natAbs < 2 ^ 4096 → shift < 2 ^ 64 → ShiftsExact overflowChecks a shift := by
  have hbits : (⟨[1], false⟩ : BigInt).bits = 1 := by decide
  have hne : 2 ^ 64 - 1 ≠ 0 := by norm_num
  have hchecked : bigintShlIn true ⟨[1], false⟩ (2 ^ 64 - 1) = .error .panic := by
    rw [bigintShlIn_eq one_canonical true hne, hbits, if_pos (by norm_num)]
  have hwrapped : bigintShlIn false ⟨[1], false⟩ (2 ^ 64 - 1) ≠ .error (.err .overflow) := by
    rw [bigintShlIn_eq one_canonical false hne, hbits, if_neg (by norm_num), if_neg (by decide)]
    exact fun h => nomatch h
  refine ⟨hchecked, hwrapped, fun overflowChecks h => ?_⟩
  have hover := (h ⟨[1], false⟩ (2 ^ 64 - 1) one_canonical
    (lt_maxBits (k := 1) (by decide) (by norm_num)) (by norm_num)).shl_overflows
    (by rw [hbits]; decide)
  cases overflowChecks with
  | false => exact hwrapped hover
  | true =>
    rw [hchecked] at hover
    cases hover

end CipherOcto.Determin
