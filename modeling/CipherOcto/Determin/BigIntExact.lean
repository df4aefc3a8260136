import CipherOcto.Determin.BigIntDiv

/-!
# What the operations return

The operations as their callers see them: on canonical operands of at most 4096
bits, in terms of the integers the operands stand for. A canonical operand *is*
the `ofInt` of its integer, so each statement is the corresponding equation on
`ofInt`, read through `Returns`.

> `bigint_add_mul_exact`: sums and products are exact, or `overflow` past 4096
> bits, and the carry loops stay inside their vectors.
> `bigintSub_exact_iff`: a difference is exact unless the subtrahend is zero.
> `bigintDivmod_exact`: quotient and remainder satisfy the division equation.

The one exception comes from `bigint_sub` negating before it adds: the negated
zero is not canonical, and `bigint_add` turns it away.
-/

namespace CipherOcto.Determin

open Machine Limbs BigInt

/-- The canonical value for `z`, or `overflow` if `z` has more than 4096 bits. -/
structure Returns (z : Int) (r : Run BigIntError BigInt) : Prop where
  fits : z.natAbs < 2 ^ 4096 → ∃ v, r = .ok v ∧ v.Canonical ∧ v.toInt = z
  overflows : ¬ z.natAbs < 2 ^ 4096 → r = .error (.err .overflow)

theorem returns_bounded (z : Int) : Returns z (bounded z) where
  fits h := ⟨ofInt z, bounded_of_lt h, ofInt_canonical z, toInt_ofInt z⟩
  overflows h := if_neg h

section
variable {a b : BigInt} (ha : a.Canonical) (hb : b.Canonical)
  (hal : a.toInt.natAbs < 2 ^ 4096) (hbl : b.toInt.natAbs < 2 ^ 4096)
include ha hb hal hbl

/-! ## Sums and products -/

theorem bigintAdd_eq : bigintAdd a b = bounded (a.toInt + b.toInt) := by
  have h := bigintAdd_ofInt hal hbl
  rwa [← ha.eq_ofInt, ← hb.eq_ofInt] at h

theorem bigintMul_eq : bigintMul a b = bounded (a.toInt * b.toInt) := by
  have h := bigintMul_ofInt hal hbl
  rwa [← ha.eq_ofInt, ← hb.eq_ofInt] at h

/-- **Sums and products are exact or an overflow**, and the carries of
`limb_mul` do not run off the result. -/
theorem bigint_add_mul_exact :
    Returns (a.toInt + b.toInt) (bigintAdd a b) ∧ Returns (a.toInt * b.toInt) (bigintMul a b) ∧
      ∃ limbs, limbMul a.limbs b.limbs = .ok limbs := by
  refine ⟨?_, ?_, ?_⟩
  · rw [bigintAdd_eq ha hb hal hbl]
    exact returns_bounded _
  · rw [bigintMul_eq ha hb hal hbl]
    exact returns_bounded _
  · obtain ⟨limbs, hrun, -⟩ := limbMul_spec a.limbs b.limbs
    exact ⟨limbs, hrun⟩

end

/-- Two limbs times two limbs, of opposite signs. -/
theorem bigint_add_mul_exact_sample :
    Returns ((ofInt (2 ^ 64 + 1)).toInt + (ofInt (-(2 ^ 64))).toInt)
        (bigintAdd (ofInt (2 ^ 64 + 1)) (ofInt (-(2 ^ 64)))) ∧
      Returns ((ofInt (2 ^ 64 + 1)).toInt * (ofInt (-(2 ^ 64))).toInt)
        (bigintMul (ofInt (2 ^ 64 + 1)) (ofInt (-(2 ^ 64)))) ∧
      ∃ limbs, limbMul (ofInt (2 ^ 64 + 1)).limbs (ofInt (-(2 ^ 64))).limbs = .ok limbs := by
  refine bigint_add_mul_exact (ofInt_canonical _) (ofInt_canonical _) ?_ ?_
  · rw [toInt_ofInt]
    exact lt_maxBits (k := 65) (by norm_num) (by norm_num)
  · rw [toInt_ofInt]
    exact lt_maxBits (k := 65) (by norm_num) (by norm_num)

/-! ## Differences -/

/-- A difference of at most 4096 bits is returned. -/
def SubExact (a b : BigInt) : Prop :=
  (a.toInt - b.toInt).natAbs < 2 ^ 4096 →
    ∃ r, bigintSub a b = .ok r ∧ r.Canonical ∧ r.toInt = a.toInt - b.toInt

section
variable {a b : BigInt} (ha : a.Canonical) (hb : b.Canonical)
  (hal : a.toInt.natAbs < 2 ^ 4096) (hbl : b.toInt.natAbs < 2 ^ 4096)
include ha hb hal hbl

theorem bigintSub_eq (h0 : b.toInt ≠ 0) : bigintSub a b = bounded (a.toInt - b.toInt) := by
  have h := bigintSub_ofInt hal hbl h0
  rwa [← ha.eq_ofInt, ← hb.eq_ofInt] at h

/-- **When a difference is exact.** -/
theorem bigintSub_exact_iff : SubExact a b ↔ b.toInt ≠ 0 := by
  constructor
  · intro h h0
    have hzero := bigintSub_zero a
    rw [← h0, ← hb.eq_ofInt] at hzero
    obtain ⟨r, hrun, -⟩ := h (by rwa [h0, Int.sub_zero])
    rw [hzero] at hrun
    cases hrun
  · intro h0 hfits
    rw [bigintSub_eq ha hb hal hbl h0]
    exact (returns_bounded _).fits hfits

end

/-- Three less five. -/
theorem bigintSub_exact_three_five : SubExact (ofInt 3) (ofInt 5) := by
  refine (bigintSub_exact_iff (ofInt_canonical 3) (ofInt_canonical 5) ?_ ?_).mpr ?_
  · rw [toInt_ofInt]
    exact lt_maxBits (k := 2) (by norm_num) (by norm_num)
  · rw [toInt_ofInt]
    exact lt_maxBits (k := 3) (by norm_num) (by norm_num)
  · rw [toInt_ofInt]
    norm_num

/-- Five less zero is an error. -/
theorem five_sub_zero :
    bigintSub ⟨[5], false⟩ BigInt.zero = .error (.err .nonCanonicalInput) ∧
      ¬ ∀ a b : BigInt, a.Canonical → b.Canonical → a.toInt.natAbs < 2 ^ 4096 →
        b.toInt.natAbs < 2 ^ 4096 → SubExact a b := by
  have herr : bigintSub ⟨[5], false⟩ BigInt.zero = .error (.err .nonCanonicalInput) := by decide
  have hfive : (5 : Int).natAbs < 2 ^ 4096 := lt_maxBits (k := 3) (by norm_num) (by norm_num)
  refine ⟨herr, fun h => ?_⟩
  have hzero : (0 : Int).natAbs < 2 ^ 4096 := lt_maxBits (k := 1) (by norm_num) (by norm_num)
  obtain ⟨r, hrun, -⟩ := h ⟨[5], false⟩ BigInt.zero ⟨⟨List.cons_ne_nil _ _, by decide⟩, by decide⟩
    (ofInt_canonical 0) hfive hzero hfive
  rw [herr] at hrun
  cases hrun

/-! ## Quotients -/

section
variable {a b : BigInt} (ha : a.Canonical) (hb : b.Canonical)
  (hal : a.toInt.natAbs < 2 ^ 4096) (hbl : b.toInt.natAbs < 2 ^ 4096) (h0 : b.toInt ≠ 0)
include ha hb hal hbl h0

theorem bigintDivmod_eq :
    bigintDivmod a b = .ok (ofInt (a.toInt.tdiv b.toInt), ofInt (a.toInt.tmod b.toInt)) := by
  have h := bigintDivmod_ofInt hal hbl h0
  rwa [← ha.eq_ofInt, ← hb.eq_ofInt] at h

end

/-- The remainder of a truncating division is zero or on the dividend's side. -/
theorem tmod_eq_zero_or_sign (x y : Int) : x.tmod y = 0 ∨ (x.tmod y < 0 ↔ x < 0) := by
  have hsign := Int.sign_tmod x y
  split at hsign
  · exact Or.inl (Int.sign_eq_zero_iff_zero.mp hsign)
  · right
    rw [← Int.sign_eq_neg_one_iff_neg, hsign, Int.sign_eq_neg_one_iff_neg]

/-- **The division equation**, and no `u128` of `knuth_d` overflows. -/
theorem bigintDivmod_exact {a b : BigInt} (ha : a.Canonical) (hb : b.Canonical)
    (hal : a.toInt.natAbs < 2 ^ 4096) (hbl : b.toInt.natAbs < 2 ^ 4096) (h0 : b.toInt ≠ 0) :
    (∃ q r, bigintDivmod a b = .ok (q, r) ∧ q.Canonical ∧ r.Canonical ∧
      a.toInt = q.toInt * b.toInt + r.toInt ∧ r.toInt.natAbs < b.toInt.natAbs ∧
      (r.toInt = 0 ∨ r.sign = a.sign)) ∧
    (2 ≤ b.limbs.length → b.limbs.length ≤ a.limbs.length →
      ∃ limbs, knuthD a.limbs b.limbs = .ok limbs) := by
  refine ⟨⟨ofInt (a.toInt.tdiv b.toInt), ofInt (a.toInt.tmod b.toInt),
    bigintDivmod_eq ha hb hal hbl h0, ofInt_canonical _, ofInt_canonical _, ?_, ?_, ?_⟩, ?_⟩
  · rw [toInt_ofInt, toInt_ofInt, Int.tdiv_mul_add_tmod]
  · rw [toInt_ofInt, Int.natAbs_tmod]
    exact Nat.mod_lt _ (Int.natAbs_pos.mpr h0)
  · rw [toInt_ofInt, ofInt_sign, ha.sign_eq, decide_eq_decide]
    exact tmod_eq_zero_or_sign _ _
  · intro hlen hle
    obtain ⟨q, r, hrun, -⟩ := knuthD_spec hb.1 hlen hle
    exact ⟨(q, r), hrun⟩

/-- Three limbs by two, and a negative dividend. -/
theorem bigintDivmod_exact_sample :
    (∃ q r, bigintDivmod (ofInt (-(2 ^ 130))) (ofInt (2 ^ 64 + 1)) = .ok (q, r) ∧ q.Canonical ∧
      r.Canonical ∧ (ofInt (-(2 ^ 130))).toInt = q.toInt * (ofInt (2 ^ 64 + 1)).toInt + r.toInt ∧
      r.toInt.natAbs < (ofInt (2 ^ 64 + 1)).toInt.natAbs ∧
      (r.toInt = 0 ∨ r.sign = (ofInt (-(2 ^ 130))).sign)) ∧
    (2 ≤ (ofInt (2 ^ 64 + 1)).limbs.length →
      (ofInt (2 ^ 64 + 1)).limbs.length ≤ (ofInt (-(2 ^ 130))).limbs.length →
      ∃ limbs, knuthD (ofInt (-(2 ^ 130))).limbs (ofInt (2 ^ 64 + 1)).limbs = .ok limbs) := by
  refine bigintDivmod_exact (ofInt_canonical _) (ofInt_canonical _) ?_ ?_ ?_
  · rw [toInt_ofInt]
    exact lt_maxBits (k := 131) (by norm_num) (by norm_num)
  · rw [toInt_ofInt]
    exact lt_maxBits (k := 65) (by norm_num) (by norm_num)
  · rw [toInt_ofInt]
    norm_num

end CipherOcto.Determin
