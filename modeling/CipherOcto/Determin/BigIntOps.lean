import CipherOcto.Determin.BigInt

/-!
# Addition, subtraction, multiplication and left shift are exact

Each limb loop has one equation for the value of the vector it builds, proved
by walking the loop: `val_limbAddLoop`, `subBorrow_spec`, `mulRows_spec`,
`val_shlLoop`. The carry propagation of `limb_mul` never leaves its vector,
because the total it is part of fits (`propagateCarry_spec`).

On canonical operands the operations are then functions on `Int`, which is how
the decimal code uses them.
-/

namespace CipherOcto.Determin

open Machine Limbs BigInt

/-- The result an operation returns for the integer `z`. -/
def bounded (z : Int) : Run BigIntError BigInt :=
  if z.natAbs < 2 ^ 4096 then .ok (ofInt z) else .error (.err .overflow)

theorem bounded_of_lt {z : Int} (h : z.natAbs < 2 ^ 4096) : bounded z = .ok (ofInt z) := if_pos h

/-- The final size check of an operation. -/
theorem bitLength_check (z : Int) :
    ((ofInt z).bitLength >>= fun bits =>
      if bits > maxBigintBits then .error (.err .overflow) else .ok (ofInt z)) = bounded z := by
  rw [bitLength_ofInt]
  show (if max 1 (bitLen z.natAbs) > 4096 then _ else _) = _
  have hiff : max 1 (bitLen z.natAbs) > 4096 ↔ ¬ z.natAbs < 2 ^ 4096 := by
    rw [← bitLen_le_iff]
    omega
  unfold bounded
  by_cases h : z.natAbs < 2 ^ 4096
  · rw [if_neg (fun hgt => hiff.mp hgt h), if_pos h]
  · rw [if_pos (hiff.mpr h), if_neg h]

theorem bitLength_le_of_lt {z : Int} (h : z.natAbs < 2 ^ 4096) :
    ¬ max 1 (bitLen z.natAbs) > maxBigintBits := by
  have := bitLen_le_iff.mpr h
  unfold maxBigintBits
  omega

/-! ## Addition -/

theorem val_headD_tail (xs : List UInt64) :
    (xs.headD 0).toNat + 2 ^ 64 * val xs.tail = val xs := by
  cases xs with
  | nil => rfl
  | cons x xs => rfl

/-- `n` slots of a sum are the sum modulo `n` limbs. -/
theorem val_limbAddLoop : ∀ (n : Nat) (a b : List UInt64) (carry : Nat),
    val (limbAddLoop n a b carry) = (val a + val b + carry) % (2 ^ 64) ^ n
  | 0, a, b, carry => by rw [pow_zero, Nat.mod_one]; rfl
  | n + 1, a, b, carry => by
    have ha := val_headD_tail a
    have hb := val_headD_tail b
    rw [limbAddLoop, val_cons, val_limbAddLoop n, toNat_ofNat, pow_succ' (2 ^ 64) n,
      Nat.mod_mul, ← ha, ← hb]
    congr 1
    · omega
    · congr 2
      omega

theorem val_limbAdd (a b : List UInt64) : val (limbAdd a b) = val a + val b := by
  have ha := val_lt a
  have hb := val_lt b
  have hpa : (2 ^ 64) ^ a.length ≤ (2 ^ 64) ^ max a.length b.length :=
    Nat.pow_le_pow_right (by norm_num) (le_max_left _ _)
  have hpb : (2 ^ 64) ^ b.length ≤ (2 ^ 64) ^ max a.length b.length :=
    Nat.pow_le_pow_right (by norm_num) (le_max_right _ _)
  unfold limbAdd
  rw [val_limbAddLoop, Nat.add_zero, Nat.mod_eq_of_lt]
  rw [pow_succ' (2 ^ 64) (max a.length b.length)]
  omega

theorem limbAdd_ne_nil (a b : List UInt64) : limbAdd a b ≠ [] := List.cons_ne_nil _ _

/-- One position of a subtraction: limb, then borrow. -/
theorem sub_step (a b : UInt64) (borrow : Bool) :
    (a - b - borrow.toUInt64).toNat + b.toNat + borrow.toNat
      = a.toNat + 2 ^ 64 * (decide (a < b) || decide (a - b < borrow.toUInt64)).toNat := by
  have ha := a.toNat_lt
  have hb := b.toNat_lt
  have hborrow : borrow.toUInt64.toNat = borrow.toNat := by cases borrow <;> rfl
  have hbit : borrow.toNat ≤ 1 := Bool.toNat_le borrow
  have hd1 : (a - b).toNat = (2 ^ 64 - b.toNat + a.toNat) % 2 ^ 64 := UInt64.toNat_sub a b
  have hd2 : (a - b - borrow.toUInt64).toNat
      = (2 ^ 64 - borrow.toNat + (a - b).toNat) % 2 ^ 64 := by
    rw [UInt64.toNat_sub, hborrow]
  rw [hd2]
  by_cases h1 : a < b
  · have h1' := UInt64.lt_iff_toNat_lt.mp h1
    rw [decide_eq_true h1, Bool.true_or, Bool.toNat_true]
    omega
  · have h1' := mt UInt64.lt_iff_toNat_lt.mpr h1
    rw [decide_eq_false h1, Bool.false_or]
    by_cases h2 : a - b < borrow.toUInt64
    · have h2' := UInt64.lt_iff_toNat_lt.mp h2
      rw [hborrow] at h2'
      rw [decide_eq_true h2, Bool.toNat_true]
      omega
    · have h2' := mt UInt64.lt_iff_toNat_lt.mpr h2
      rw [hborrow] at h2'
      rw [decide_eq_false h2, Bool.toNat_false]
      omega

/-- A subtraction along a vector is exact up to the borrow it ends with. -/
theorem subBorrow_spec : ∀ (a b : List UInt64) (borrow : Bool), b.length ≤ a.length →
    (subBorrow a b borrow).1.length = a.length ∧
    val (subBorrow a b borrow).1 + val b + borrow.toNat
      = val a + (2 ^ 64) ^ a.length * (subBorrow a b borrow).2.toNat
  | [], b, borrow, hlen => by
    obtain rfl : b = [] := List.length_eq_zero_iff.mp (Nat.le_zero.mp hlen)
    exact ⟨rfl, by simp [subBorrow]⟩
  | a :: as, b, borrow, hlen => by
    have htail : b.tail.length ≤ as.length := by
      rw [List.length_tail]
      simp only [List.length_cons] at hlen
      omega
    obtain ⟨hl, hv⟩ := subBorrow_spec as b.tail
      (decide (a < b.headD 0) || decide (a - b.headD 0 < borrow.toUInt64)) htail
    have hstep := sub_step a (b.headD 0) borrow
    have hb := val_headD_tail b
    rw [subBorrow]
    refine ⟨congrArg (· + 1) hl, ?_⟩
    simp only [val_cons, List.length_cons]
    rw [pow_succ' (2 ^ 64) as.length, mul_assoc]
    omega

theorem val_limbSub {a b : List UInt64} (hlen : b.length ≤ a.length) (hle : val b ≤ val a) :
    val (limbSub a b) = val a - val b := by
  obtain ⟨hl, hv⟩ := subBorrow_spec a b false hlen
  have hlt := val_lt (subBorrow a b false).1
  rw [hl] at hlt
  unfold limbSub
  -- a last borrow would put the difference past the vector
  cases hb : (subBorrow a b false).2 with
  | false =>
    rw [hb, Bool.toNat_false, Nat.mul_zero] at hv
    omega
  | true =>
    rw [hb, Bool.toNat_true, Nat.mul_one, Bool.toNat_false] at hv
    omega

theorem limbSub_ne_nil {a b : List UInt64} (hlen : b.length ≤ a.length) (ha : a ≠ []) :
    limbSub a b ≠ [] := by
  obtain ⟨hl, -⟩ := subBorrow_spec a b false hlen
  have hpos := List.length_pos_of_ne_nil ha
  exact List.ne_nil_of_length_pos (by rw [limbSub, hl]; exact hpos)

/-- The difference of two magnitudes, larger first. -/
theorem canonicalize_limbSub {x y : Int} (h : y.natAbs ≤ x.natAbs) (sign : Bool) :
    canonicalize ⟨limbSub (ofInt x).limbs (ofInt y).limbs, sign⟩
      = ofInt (if sign then -((x.natAbs : Int) - y.natAbs) else (x.natAbs : Int) - y.natAbs) := by
  have hlen : (ofInt y).limbs.length ≤ (ofInt x).limbs.length :=
    (ofInt_limbs_trimmed y).length_le (ofInt_limbs_trimmed x).1
      (by rw [val_ofInt_limbs, val_ofInt_limbs]; exact h)
  have hval := val_limbSub hlen (by rw [val_ofInt_limbs, val_ofInt_limbs]; exact h)
  rw [val_ofInt_limbs, val_ofInt_limbs] at hval
  rw [canonicalize_eq (limbSub_ne_nil hlen (ofInt_limbs_trimmed x).1), toInt, hval]
  refine congrArg ofInt ?_
  rw [Int.ofNat_sub h]

/-- **`bigint_add` is exact.** -/
theorem bigintAdd_ofInt {x y : Int} (hx : x.natAbs < 2 ^ 4096) (hy : y.natAbs < 2 ^ 4096) :
    bigintAdd (ofInt x) (ofInt y) = bounded (x + y) := by
  unfold bigintAdd
  rw [isCanonical_ofInt, isCanonical_ofInt, if_neg (by decide), ofInt_sign, ofInt_sign]
  by_cases hs : decide (x < 0) = decide (y < 0)
  · rw [if_pos hs]
    have hsum : canonicalize ⟨limbAdd (ofInt x).limbs (ofInt y).limbs, decide (x < 0)⟩
        = ofInt (x + y) := by
      rw [canonicalize_eq (limbAdd_ne_nil _ _), toInt, val_limbAdd, val_ofInt_limbs,
        val_ofInt_limbs]
      refine congrArg ofInt ?_
      rw [decide_eq_decide] at hs
      exact signed_eq (fun h => by omega) (fun h => by omega)
    simp only [hsum]
    exact bitLength_check (x + y)
  · rw [if_neg hs, magnitudeCmp_ofInt]
    rw [decide_eq_decide] at hs
    have hfits : (x + y).natAbs < 2 ^ 4096 := by omega
    rw [bounded_of_lt hfits]
    -- different signs: the larger magnitude keeps its sign
    rcases lt_trichotomy x.natAbs y.natAbs with h | h | h
    · rw [compare_lt_iff_lt.mpr h, if_neg (by decide), if_neg (by decide),
        canonicalize_limbSub h.le]
      refine congrArg (fun z => Except.ok (ofInt z)) ?_
      exact signed_eq (fun h => by omega) (fun h => by omega)
    · rw [compare_eq_iff_eq.mpr h, if_pos (by decide), show x + y = 0 by omega]
      rfl
    · rw [compare_gt_iff_gt.mpr h, if_neg (by decide), if_pos (by decide),
        canonicalize_limbSub h.le]
      refine congrArg (fun z => Except.ok (ofInt z)) ?_
      exact signed_eq (fun h => by omega) (fun h => by omega)

/-- A negated non-zero value is canonical. -/
theorem negate_ofInt {y : Int} (h : y ≠ 0) :
    (⟨(ofInt y).limbs, !(ofInt y).sign⟩ : BigInt) = ofInt (-y) := by
  unfold ofInt
  rw [Int.natAbs_neg]
  refine BigInt.ext rfl ?_
  show (!decide (y < 0)) = decide (-y < 0)
  by_cases hneg : y < 0
  · rw [decide_eq_true hneg, decide_eq_false (by omega)]; rfl
  · rw [decide_eq_false hneg, decide_eq_true (by omega)]; rfl

theorem bigintSub_ofInt {x y : Int} (hx : x.natAbs < 2 ^ 4096) (hy : y.natAbs < 2 ^ 4096)
    (h0 : y ≠ 0) : bigintSub (ofInt x) (ofInt y) = bounded (x - y) := by
  unfold bigintSub
  rw [negate_ofInt h0, bigintAdd_ofInt hx (by rw [Int.natAbs_neg]; exact hy), Int.sub_eq_add_neg]

/-- Zero is negated to `-0`, which the addition rejects. -/
theorem bigintSub_zero (a : BigInt) : bigintSub a (ofInt 0) = .error (.err .nonCanonicalInput) := by
  have hneg : (⟨(ofInt 0).limbs, !(ofInt 0).sign⟩ : BigInt).isCanonical = false := rfl
  unfold bigintSub bigintAdd
  rw [hneg, Bool.not_false, Bool.or_true, if_pos rfl]

/-! ## Multiplication -/

/-- A carry stays inside the vector if the total does. -/
theorem propagateCarry_spec : ∀ (rs : List UInt64) (carry : Nat),
    val rs + carry < (2 ^ 64) ^ rs.length →
    ∃ out, propagateCarry rs carry = .ok out ∧ out.length = rs.length ∧
      val out = val rs + carry
  | rs, 0, _ => ⟨rs, by cases rs <;> rfl, rfl, rfl⟩
  | [], carry + 1, h => by simp at h
  | r :: rs, carry + 1, h => by
    rw [val_cons, List.length_cons, pow_succ' (2 ^ 64) rs.length] at h
    obtain ⟨rest, hrun, hlen, hval⟩ :=
      propagateCarry_spec rs ((r.toNat + (carry + 1)) / 2 ^ 64) (by omega)
    have hsplit := ofNat_add_high (r.toNat + (carry + 1))
    refine ⟨UInt64.ofNat (r.toNat + (carry + 1)) :: rest, ?_, by simp [hlen], ?_⟩
    · rw [propagateCarry, hrun]
      rfl
    · rw [val_cons, val_cons, hval]
      omega

theorem addProduct_spec (ai bj : UInt64) {result : List UInt64} (hne : result ≠ [])
    (h : val result + ai.toNat * bj.toNat < (2 ^ 64) ^ result.length) :
    ∃ out, addProduct ai bj result = .ok out ∧ out.length = result.length ∧
      val out = val result + ai.toNat * bj.toNat := by
  match result, hne with
  | r :: rs, _ =>
    generalize hp : ai.toNat * bj.toNat = product at *
    rw [val_cons, List.length_cons, pow_succ' (2 ^ 64) rs.length] at h
    obtain ⟨rest, hrun, hlen, hval⟩ := propagateCarry_spec rs
      ((r.toNat + product % 2 ^ 64) / 2 ^ 64 + product / 2 ^ 64) (by omega)
    have hsplit := ofNat_add_high (r.toNat + product % 2 ^ 64)
    refine ⟨UInt64.ofNat (r.toNat + product % 2 ^ 64) :: rest, ?_, by simp [hlen], ?_⟩
    · simp only [addProduct, hp]
      rw [hrun]
      rfl
    · rw [val_cons, val_cons, hval]
      omega

/-- One row adds `ai * b` to the vector from position `i` on. -/
theorem mulRow_spec (ai : UInt64) : ∀ (b result : List UInt64), b.length ≤ result.length →
    val result + ai.toNat * val b < (2 ^ 64) ^ result.length →
    ∃ out, mulRow ai b result = .ok out ∧ out.length = result.length ∧
      val out = val result + ai.toNat * val b
  | [], result, _, _ => ⟨result, by cases result <;> rfl, rfl, by simp⟩
  | bj :: bs, result, hlen, h => by
    have hdistrib : ai.toNat * val (bj :: bs)
        = ai.toNat * bj.toNat + 2 ^ 64 * (ai.toNat * val bs) := by
      rw [val_cons]
      ring
    rw [hdistrib] at h ⊢
    have hne : result ≠ [] := by
      rintro rfl
      simp at hlen
    obtain ⟨s, hrun, hslen, hsval⟩ := addProduct_spec ai bj hne (by omega)
    rw [mulRow, hrun]
    -- position `i + j` is final for this row; the rest of the row works above it
    match s, hslen, hsval with
    | [], hslen, _ => exact absurd (List.length_eq_zero_iff.mp hslen.symm) hne
    | r :: rs, hslen, hsval =>
      rw [val_cons] at hsval
      rw [← hslen, List.length_cons, pow_succ' (2 ^ 64) rs.length] at h
      rw [← hslen, List.length_cons, List.length_cons] at hlen
      obtain ⟨rest, hrest, hrlen, hrval⟩ := mulRow_spec ai bs rs (by omega) (by omega)
      refine ⟨r :: rest, ?_, by simp [hrlen, ← hslen], ?_⟩
      · show (mulRow ai bs rs >>= fun rest => .ok (r :: rest)) = _
        rw [hrest]
        rfl
      · rw [val_cons, hrval]
        omega

/-- The rows add up to the product. -/
theorem mulRows_spec (b : List UInt64) : ∀ (a result : List UInt64),
    a.length + b.length ≤ result.length →
    val result + val a * val b < (2 ^ 64) ^ result.length →
    ∃ out, mulRows a b result = .ok out ∧ out.length = result.length ∧
      val out = val result + val a * val b
  | [], result, _, _ => ⟨result, by cases result <;> rfl, rfl, by simp⟩
  | ai :: as, result, hlen, h => by
    have hdistrib : val (ai :: as) * val b
        = ai.toNat * val b + 2 ^ 64 * (val as * val b) := by
      rw [val_cons]
      ring
    rw [hdistrib] at h ⊢
    rw [List.length_cons] at hlen
    obtain ⟨s, hrun, hslen, hsval⟩ := mulRow_spec ai b result (by omega) (by omega)
    rw [mulRows, hrun]
    match s, hslen, hsval with
    | [], hslen, _ => rw [List.length_nil] at hslen; omega
    | r :: rs, hslen, hsval =>
      rw [val_cons] at hsval
      rw [← hslen, List.length_cons, pow_succ' (2 ^ 64) rs.length] at h
      rw [← hslen, List.length_cons] at hlen
      obtain ⟨rest, hrest, hrlen, hrval⟩ := mulRows_spec b as rs (by omega) (by omega)
      refine ⟨r :: rest, ?_, by simp [hrlen, ← hslen], ?_⟩
      · show (mulRows as b rs >>= fun rest => .ok (r :: rest)) = _
        rw [hrest]
        rfl
      · rw [val_cons, hrval]
        omega

theorem limbMul_spec (a b : List UInt64) :
    ∃ out, limbMul a b = .ok out ∧ out.length = a.length + b.length ∧
      val out = val a * val b := by
  have hfits : val a * val b < (2 ^ 64) ^ (a.length + b.length) := by
    rw [pow_add]
    exact Nat.mul_lt_mul_of_lt_of_lt (val_lt a) (val_lt b)
  obtain ⟨out, hrun, hlen, hval⟩ := mulRows_spec b a (List.replicate (a.length + b.length) 0)
    (by rw [List.length_replicate]) (by rw [val_replicate_zero, List.length_replicate]; omega)
  rw [val_replicate_zero, Nat.zero_add] at hval
  rw [List.length_replicate] at hlen
  exact ⟨out, hrun, hlen, hval⟩

/-- **`bigint_mul` is exact.** -/
theorem bigintMul_ofInt {x y : Int} (hx : x.natAbs < 2 ^ 4096) (hy : y.natAbs < 2 ^ 4096) :
    bigintMul (ofInt x) (ofInt y) = bounded (x * y) := by
  unfold bigintMul
  rw [isCanonical_ofInt, isCanonical_ofInt, if_neg (by decide), isZero_ofInt, isZero_ofInt]
  by_cases h0 : x = 0 ∨ y = 0
  · have hzero : x * y = 0 := mul_eq_zero.mpr h0
    rw [if_pos (by simpa using h0), hzero,
      bounded_of_lt (lt_of_le_of_lt (Nat.zero_le x.natAbs) hx)]
    rfl
  rw [if_neg (by simpa using h0), bitLength_ofInt, bitLength_ofInt]
  show (if max 1 (bitLen x.natAbs) > maxBigintBits ∨ max 1 (bitLen y.natAbs) > maxBigintBits
    then _ else _) = _
  rw [if_neg (not_or.mpr ⟨bitLength_le_of_lt hx, bitLength_le_of_lt hy⟩)]
  obtain ⟨out, hrun, hlen, hval⟩ := limbMul_spec (ofInt x).limbs (ofInt y).limbs
  have hne : out ≠ [] := by
    apply List.ne_nil_of_length_pos
    have := List.length_pos_of_ne_nil (ofInt_limbs_trimmed x).1
    omega
  have hprod : canonicalize ⟨out, (ofInt x).sign != (ofInt y).sign⟩ = ofInt (x * y) := by
    rw [canonicalize_eq hne, toInt, hval, val_ofInt_limbs, val_ofInt_limbs, ofInt_sign, ofInt_sign]
    refine congrArg ofInt ?_
    have habs : ((x.natAbs * y.natAbs : Nat) : Int) = (x * y).natAbs := by rw [Int.natAbs_mul]
    rw [habs]
    by_cases hxn : x < 0 <;> by_cases hyn : y < 0 <;> simp only [hxn, hyn, decide_true, decide_false]
    · have := mul_pos_of_neg_of_neg hxn hyn
      show ((x * y).natAbs : Int) = x * y
      omega
    · have := mul_nonpos_of_nonpos_of_nonneg hxn.le (not_lt.mp hyn)
      show -((x * y).natAbs : Int) = x * y
      omega
    · have := mul_nonpos_of_nonneg_of_nonpos (not_lt.mp hxn) hyn.le
      show -((x * y).natAbs : Int) = x * y
      omega
    · have := mul_nonneg (not_lt.mp hxn) (not_lt.mp hyn)
      show ((x * y).natAbs : Int) = x * y
      omega
  rw [hrun]
  show ((canonicalize ⟨out, (ofInt x).sign != (ofInt y).sign⟩).bitLength >>= _) = _
  rw [hprod]
  exact bitLength_check (x * y)

/-! ## Left shift -/

/-- One limb of a shift: the part that stays and the part that is pushed up. -/
theorem shl_step (v shift low : Nat) (hs : shift < 64) (hlow : low < 2 ^ shift) :
    (v <<< shift % 2 ^ 64 ||| low) + 2 ^ 64 * (v >>> (64 - shift)) = v * 2 ^ shift + low := by
  have hsplit : 2 ^ 64 = 2 ^ shift * 2 ^ (64 - shift) := by rw [← pow_add]; congr 1; omega
  have hstay : v <<< shift % 2 ^ 64 = 2 ^ shift * (v % 2 ^ (64 - shift)) := by
    rw [Nat.shiftLeft_eq, mul_comm, hsplit, Nat.mul_mod_mul_left]
  have hdm := Nat.mod_add_div v (2 ^ (64 - shift))
  rw [hstay, ← Nat.two_pow_add_eq_or_of_lt hlow, Nat.shiftRight_eq_div_pow, hsplit]
  calc 2 ^ shift * (v % 2 ^ (64 - shift)) + low
        + 2 ^ shift * 2 ^ (64 - shift) * (v / 2 ^ (64 - shift))
      = 2 ^ shift * (v % 2 ^ (64 - shift) + 2 ^ (64 - shift) * (v / 2 ^ (64 - shift))) + low := by
        ring
    _ = v * 2 ^ shift + low := by rw [hdm, mul_comm]

theorem val_shlLoop {shift : Nat} (hs : shift < 64) : ∀ (n : Nat) (limbs : List UInt64) (low : Nat),
    low < 2 ^ shift →
    val (shlLoop shift n limbs low) = (val limbs * 2 ^ shift + low) % (2 ^ 64) ^ n
  | 0, limbs, low, _ => by rw [pow_zero, Nat.mod_one]; rfl
  | n + 1, limbs, low, hlow => by
    have hstep := shl_step (limbs.headD 0).toNat shift low hs hlow
    have hword : ((limbs.headD 0).toNat <<< shift % 2 ^ 64 ||| low) < 2 ^ 64 := by
      apply Nat.or_lt_two_pow
      · exact Nat.mod_lt _ (by norm_num)
      · exact lt_of_lt_of_le hlow (Nat.pow_le_pow_right (by norm_num) hs.le)
    have hnext : (limbs.headD 0).toNat >>> (64 - shift) < 2 ^ shift := by
      have hv := (limbs.headD 0).toNat_lt
      rw [Nat.shiftRight_eq_div_pow, Nat.div_lt_iff_lt_mul (by positivity), ← pow_add]
      rwa [show shift + (64 - shift) = 64 by omega]
    have hval := val_headD_tail limbs
    rw [shlLoop, val_cons, val_shlLoop hs n _ _ hnext, toNat_ofNat_of_lt hword,
      pow_succ' (2 ^ 64) n, Nat.mod_mul, ← hval]
    have hsum : ((limbs.headD 0).toNat + 2 ^ 64 * val limbs.tail) * 2 ^ shift + low
        = ((limbs.headD 0).toNat <<< shift % 2 ^ 64 ||| low)
          + 2 ^ 64 * (val limbs.tail * 2 ^ shift + (limbs.headD 0).toNat >>> (64 - shift)) := by
      rw [mul_add, ← add_assoc, add_right_comm, hstep]
      ring
    rw [hsum]
    generalize ((limbs.headD 0).toNat <<< shift % 2 ^ 64 ||| low) = w at *
    generalize (val limbs.tail * 2 ^ shift + (limbs.headD 0).toNat >>> (64 - shift)) = t at *
    congr 1
    · omega
    · congr 2
      omega

/-- **`bigint_shl` is exact** for the shifts that fit. -/
theorem bigintShl_ofInt {x : Int} {shift : Nat} (h : max 1 (bitLen x.natAbs) + shift ≤ 4096) :
    bigintShl (ofInt x) shift = .ok (ofInt (x * 2 ^ shift)) := by
  unfold bigintShl
  rw [isCanonical_ofInt, if_neg (by decide)]
  by_cases h0 : shift = 0
  · rw [if_pos h0, h0, pow_zero, mul_one]
  rw [if_neg h0, bitLength_ofInt]
  show (if (max 1 (bitLen x.natAbs) + shift) % 2 ^ 64 > maxBigintBits then _ else _) = _
  rw [Nat.mod_eq_of_lt (by omega), if_neg (by unfold maxBigintBits; omega)]
  have hrem : shift % 64 < 64 := Nat.mod_lt _ (by norm_num)
  have hloop := val_shlLoop hrem ((ofInt x).limbs.length + 1) (ofInt x).limbs 0 (by positivity)
  have hfits : val (ofInt x).limbs * 2 ^ (shift % 64)
      < (2 ^ 64) ^ ((ofInt x).limbs.length + 1) := by
    rw [pow_succ (2 ^ 64) (ofInt x).limbs.length]
    exact Nat.mul_lt_mul_of_lt_of_le (val_lt _)
      (Nat.pow_le_pow_right (by norm_num) hrem.le) (by positivity)
  rw [add_zero, Nat.mod_eq_of_lt hfits, val_ofInt_limbs] at hloop
  refine congrArg Except.ok ?_
  rw [canonicalize_eq (by simp [shlLoop]), toInt, val_append, val_replicate_zero,
    List.length_replicate, hloop, ofInt_sign, Nat.zero_add, ← pow_mul]
  refine congrArg ofInt ?_
  have hpow : 2 ^ (64 * (shift / 64)) * (x.natAbs * 2 ^ (shift % 64)) = x.natAbs * 2 ^ shift := by
    rw [mul_left_comm, ← pow_add, Nat.div_add_mod]
  rw [hpow]
  push_cast
  by_cases hneg : x < 0
  · rw [decide_eq_true hneg, if_pos rfl, abs_of_neg hneg]
    ring
  · rw [decide_eq_false hneg, if_neg Bool.false_ne_true, abs_of_nonneg (not_lt.mp hneg)]

/-! ## Operands that come from an `i128` -/

theorem lt_maxBits {n k : Nat} (h : n < 2 ^ k) (hk : k ≤ 4096) : n < 2 ^ 4096 :=
  lt_of_lt_of_le h (Nat.pow_le_pow_right (by norm_num) hk)

theorem natAbs_lt_of_inI {x : Int} (h : InI 128 x) : x.natAbs < 2 ^ 128 := by
  obtain ⟨hlo, hhi⟩ := h
  unfold minI at hlo
  unfold maxI at hhi
  omega

/-- The product of two `i128` fits easily. -/
theorem bigintMul_fromI128 {x y : Int} (hx : InI 128 x) (hy : InI 128 y) :
    bigintMul (fromI128 x) (fromI128 y) = .ok (ofInt (x * y)) := by
  have hxlt := natAbs_lt_of_inI hx
  have hylt := natAbs_lt_of_inI hy
  have hprod : (x * y).natAbs < 2 ^ (128 + 128) := by
    rw [Int.natAbs_mul, pow_add]
    exact Nat.mul_lt_mul_of_lt_of_lt hxlt hylt
  rw [fromI128_eq hx, fromI128_eq hy,
    bigintMul_ofInt (lt_maxBits hxlt (by norm_num)) (lt_maxBits hylt (by norm_num)),
    bounded_of_lt (lt_maxBits hprod (by norm_num))]

end CipherOcto.Determin
