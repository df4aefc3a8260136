import CipherOcto.Determin.AddPaths

/-!
# What multiplication, division and square root compute

The multiplicative operations as equations on the mantissas:

* the product is the stored 256-bit product (a lost carry included) cut to its
  top 113 bits;
* the quotient is what 128 rounds of shift-and-subtract with a *strict*
  comparison leave: `(a * 2^128 - 1) / b'` for the pre-scaled divisor `b'`, one
  short of the quotient when the division is exact;
* the square root is some number below `2^113`, whatever its squaring test answers
  (`SquareRoot` says which).
-/

namespace CipherOcto.Determin

open Machine

theorem cutShift_bitLen (n : Nat) : cutShift ((bitLen n : Int) - 1) = bitLen n - 113 := by
  unfold cutShift
  split <;> omega

/-! ## Multiplication -/

theorem storedProduct_lt {a b : Nat} (ha : a < 2 ^ 128) (hb : b < 2 ^ 128) :
    storedProduct a b < 2 ^ 256 := by
  rw [← mulU128ToU256_toNat_eq ha hb]
  exact U256.toNat_lt (mulU128ToU256_fits a b)

/-- The exponent arithmetic of the product and what follows it. -/
def mulTail (sign : Bool) (e : Int) (r : Nat × Int) (shift : Nat) : Tracked Dfp := do
  let exponent ← addI 32 e r.2
  let exponent ← addI 32 exponent shift
  if r.1 = 0 then pure (Dfp.signedZero sign) else finishScaled sign r.1 exponent

/-- The multiplication up to its exponent arithmetic. -/
theorem mulNormal_eq {a b : Dfp} (ha : a.mantissa < 2 ^ 128) (hb : b.mantissa < 2 ^ 128) :
    mulNormal a b = mulTail (a.sign ^^ b.sign) (saturate 32 (a.exponent + b.exponent))
      (splitOdd (storedProduct a.mantissa b.mantissa
        / 2 ^ (bitLen (storedProduct a.mantissa b.mantissa) - 113)))
      (bitLen (storedProduct a.mantissa b.mantissa) - 113) := by
  have hfits := mulU128ToU256_fits a.mantissa b.mantissa
  have hlt := storedProduct_lt ha hb
  have htop := topBits_lt 113 (storedProduct a.mantissa b.mantissa)
  have hlen : bitLen (storedProduct a.mantissa b.mantissa) ≤ 256 := bitLen_le_iff.mpr hlt
  have hcut : cutShift (255 - ((mulU128ToU256 a.mantissa b.mantissa).leadingZeros : Int))
      = bitLen (storedProduct a.mantissa b.mantissa) - 113 := by
    rw [U256.leadingZeros_eq hfits, mulU128ToU256_toNat_eq ha hb, ← cutShift_bitLen]
    congr 1
    omega
  have hshr := U256.shr_eq hfits
    (n := bitLen (storedProduct a.mantissa b.mantissa) - 113) (by omega)
  rw [mulU128ToU256_toNat_eq ha hb] at hshr
  unfold mulNormal
  simp only [hcut, hshr, pure_bind]
  generalize storedProduct a.mantissa b.mantissa = n at *
  have hlo : (U256.ofNat (n / 2 ^ (bitLen n - 113))).lo = n / 2 ^ (bitLen n - 113) := by
    unfold U256.ofNat
    exact Nat.mod_eq_of_lt (by omega)
  rw [hlo, roundTo113_of_lt htop, pure_bind]
  rfl

/-- **Multiplication** of canonical Normals: the stored product cut to 113 bits. -/
theorem dfpMul_normal {a b : Dfp} (ha : a.CanonicalNormal) (hb : b.CanonicalNormal) :
    dfpMul a b = pure (assemble (a.sign ^^ b.sign)
      (storedProduct a.mantissa b.mantissa
        / 2 ^ (bitLen (storedProduct a.mantissa b.mantissa) - 113))
      (a.exponent + b.exponent + (bitLen (storedProduct a.mantissa b.mantissa) - 113 : Nat))) := by
  have hat := ha.wellTyped
  have hbt := hb.wellTyped
  have h1 := ha.exp_ge
  have h2 := ha.exp_le
  have h3 := hb.exp_ge
  have h4 := hb.exp_le
  unfold dfpMinExponent at h1 h3
  unfold dfpMaxExponent at h2 h4
  have hlt := storedProduct_lt hat.1 hbt.1
  have htop := topBits_lt 113 (storedProduct a.mantissa b.mantissa)
  have hlen : bitLen (storedProduct a.mantissa b.mantissa) ≤ 256 := bitLen_le_iff.mpr hlt
  have hdef : dfpMul a b = mulNormal a b := by
    unfold dfpMul
    rw [ha.cls, hb.cls]
  rw [hdef, mulNormal_eq hat.1 hbt.1]
  generalize storedProduct a.mantissa b.mantissa = n at *
  have hsum : InI 32 (a.exponent + b.exponent) := by
    simp only [InI, minI, maxI]
    omega
  rw [saturate_of_inI hsum]
  unfold mulTail
  by_cases h0 : n / 2 ^ (bitLen n - 113) = 0
  · rw [h0, splitOdd, if_pos rfl, addI_of_inI (by rwa [Int.add_zero]), pure_bind,
      addI_of_inI (by simp only [InI, minI, maxI]; omega), pure_bind]
    rfl
  · have hctz : ctz 128 (n / 2 ^ (bitLen n - 113)) < 128 := ctz_lt h0 (by omega)
    have hpos := oddPart_pos (w := 128) h0
    rw [splitOdd_of_ne_zero h0, addI_of_inI (by simp only [InI, minI, maxI]; omega), pure_bind,
      addI_of_inI (by simp only [InI, minI, maxI]; omega), pure_bind,
      if_neg hpos.ne', Int.add_right_comm]
    exact finishScaled_assemble _ _ h0 (by omega)

/-! ## Division -/

/-- How often the divisor is doubled: the least `s` with `a < b * 2^s`. -/
def divScale (a b : Nat) : Nat := bitLen (a / b)

/-- The quotient the strict long division leaves. -/
def strictQuotient (a b : Nat) : Nat := (a * 2 ^ 128 - 1) / (b * 2 ^ divScale a b)

theorem lt_mul_two_pow_iff {a b : Nat} (hb : 0 < b) (i : Nat) :
    a < b * 2 ^ i ↔ divScale a b ≤ i := by
  rw [divScale, bitLen_le_iff, Nat.div_lt_iff_lt_mul hb, mul_comm]

theorem divScale_le {a b : Nat} (ha : a < 2 ^ 113) : divScale a b ≤ 113 := by
  rw [divScale, bitLen_le_iff]
  exact lt_of_le_of_lt (Nat.div_le_self _ _) ha

/-- The pre-scaling loop stops at the first power that exceeds `a`. -/
theorem prescale_eq {a b : Nat} (ha : a < 2 ^ 113) (hb : 0 < b) :
    ∀ (fuel i : Nat), i ≤ divScale a b → divScale a b < i + fuel →
      prescale a fuel (b * 2 ^ i) i = pure (b * 2 ^ divScale a b, (divScale a b : Int)) := by
  have hs := divScale_le (b := b) ha
  intro fuel
  induction fuel with
  | zero => intro i hi hfuel; omega
  | succ fuel ih =>
    intro i hi hfuel
    unfold prescale
    rcases hi.lt_or_eq with hlt | heq
    · have hle : b * 2 ^ i ≤ a := not_lt.mp (fun h => absurd ((lt_mul_two_pow_iff hb i).mp h) (by omega))
      have hdouble : b * 2 ^ i * 2 ^ 1 = b * 2 ^ (i + 1) := by rw [mul_assoc, ← pow_add]
      have hin : InI 32 ((i : Int) + 1) := by
        simp only [InI, minI, maxI]
        omega
      rw [if_pos hle, shlU_of_lt (by decide) (by omega), pure_bind, addI_of_inI hin,
        pure_bind, if_neg (by omega), hdouble]
      exact_mod_cast ih (i + 1) (by omega) (by omega)
    · have hgt : ¬ b * 2 ^ i ≤ a := not_le.mpr ((lt_mul_two_pow_iff hb i).mpr heq.ge)
      rw [if_neg hgt, heq]

/-- After `i` rounds: `a * 2^i` is the quotient times the divisor plus a
remainder in `[1, bM]`, the strict comparison keeping it positive. -/
structure DivInv (a bM i : Nat) (s : DivState) : Prop where
  lo : s.dividendLo = 0
  pos : 0 < s.dividendHi
  le : s.dividendHi ≤ bM
  split : a * 2 ^ i = s.quotient * bM + s.dividendHi
  lt : s.quotient < 2 ^ i

theorem divStep_inv {a bM i : Nat} {s : DivState} (hbM : bM < 2 ^ 127) (hi : i < 128)
    (h : DivInv a bM i s) : ∃ s', divStep bM s = pure s' ∧ DivInv a bM (i + 1) s' := by
  have hpos := h.pos
  have hle := h.le
  have hlt := h.lt
  have hpow : 2 ^ (i + 1) = 2 * 2 ^ i := pow_succ' 2 i
  have hmax : 2 ^ (i + 1) ≤ 2 ^ 128 := Nat.pow_le_pow_right Nat.two_pos hi
  have hsplit : a * 2 ^ (i + 1) = 2 * s.quotient * bM + 2 * s.dividendHi := by
    rw [pow_succ, ← mul_assoc, h.split]
    ring
  have hor : (s.quotient * 2 ^ 1 ||| 1) = s.quotient * 2 + 1 := by
    have h1 := U256.or_eq_add (a := s.quotient) (b := 1) (n := 1) (by decide)
    rwa [pow_one] at h1
  unfold divStep
  rw [h.lo, shlU_of_lt (by decide) (by decide), pure_bind, shlU_of_lt (by decide) (by omega),
    pure_bind, shlU_of_lt (by decide) (by omega), pure_bind, Nat.zero_mul, Nat.zero_div,
    Nat.or_zero, hor, pow_one]
  split
  · next hbig =>
    rw [subU_of_le (by omega) (by omega), pure_bind]
    refine ⟨_, rfl, rfl, ?_, ?_, ?_, ?_⟩
    · simp only
      omega
    · simp only
      omega
    · simp only
      rw [hsplit]
      have hexp : (s.quotient * 2 + 1) * bM = 2 * s.quotient * bM + bM := by ring
      omega
    · simp only
      omega
  · next hsmall =>
    refine ⟨_, rfl, rfl, ?_, ?_, ?_, ?_⟩
    · simp only
      omega
    · simp only
      omega
    · simp only
      rw [hsplit, mul_comm 2 s.quotient, mul_comm 2 s.dividendHi]
    · simp only
      omega

theorem divLoop_inv {a bM : Nat} (hbM : bM < 2 ^ 127) :
    ∀ (n i : Nat) (s : DivState), i + n ≤ 128 → DivInv a bM i s →
      ∃ s', divLoop bM n s = pure s' ∧ DivInv a bM (i + n) s' := by
  intro n
  induction n with
  | zero => intro i s _ h; exact ⟨s, rfl, h⟩
  | succ n ih =>
    intro i s hi h
    obtain ⟨s₁, hstep, h₁⟩ := divStep_inv hbM (by omega) h
    obtain ⟨s₂, hloop, h₂⟩ := ih (i + 1) s₁ (by omega) h₁
    refine ⟨s₂, ?_, by rwa [Nat.add_right_comm, Nat.add_assoc] at h₂⟩
    unfold divLoop
    rw [hstep, pure_bind, hloop]

theorem scaledDivisor_lt {a b : Nat} (ha : a < 2 ^ 113) (hb : 0 < b) (hb' : b < 2 ^ 113) :
    b * 2 ^ divScale a b < 2 ^ 114 := by
  rcases Nat.eq_zero_or_pos (divScale a b) with h0 | hpos
  · rw [h0, pow_zero]
    omega
  · -- one doubling less does not exceed `a`
    have hprev : b * 2 ^ (divScale a b - 1) ≤ a :=
      not_lt.mp (fun h => absurd ((lt_mul_two_pow_iff hb _).mp h) (by omega))
    have hstep : b * 2 ^ divScale a b = 2 * (b * 2 ^ (divScale a b - 1)) := by
      rw [mul_left_comm, ← pow_succ', Nat.sub_add_cancel hpos]
    omega

/-- The long division, from the operands to the quotient. -/
theorem divLoop_eq {a b : Nat} (ha0 : 0 < a) (ha : a < 2 ^ 113) (hb : 0 < b) (hb' : b < 2 ^ 113) :
    ∃ s, divLoop (b * 2 ^ divScale a b) 128 ⟨a, 0, 0⟩ = pure s ∧
      s.quotient = strictQuotient a b ∧ s.quotient < 2 ^ 128 := by
  have hbM := scaledDivisor_lt ha hb hb'
  have hlt : a < b * 2 ^ divScale a b := (lt_mul_two_pow_iff hb _).mpr le_rfl
  have hinit : DivInv a (b * 2 ^ divScale a b) 0 ⟨a, 0, 0⟩ :=
    ⟨rfl, ha0, hlt.le, by simp, by simp⟩
  obtain ⟨s, hloop, hinv⟩ := divLoop_inv (by omega) 128 0 ⟨a, 0, 0⟩ le_rfl hinit
  rw [Nat.zero_add] at hinv
  refine ⟨s, hloop, ?_, hinv.lt⟩
  have hsplit := hinv.split
  have hpos := hinv.pos
  have hle := hinv.le
  unfold strictQuotient
  generalize b * 2 ^ divScale a b = bM at *
  rw [hsplit, show s.quotient * bM + s.dividendHi - 1 = (s.dividendHi - 1) + s.quotient * bM by omega,
    Nat.add_mul_div_right _ _ (by omega), Nat.div_eq_of_lt (by omega), Nat.zero_add]

theorem divExponent_of_small {ae be rescale expAdj shiftAmount : Int} (h1 : |ae - be| ≤ 2 ^ 20)
    (h2 : |rescale| ≤ 2 ^ 20) (h3 : |expAdj| ≤ 2 ^ 20) (h4 : |shiftAmount| ≤ 2 ^ 20) :
    divExponent ae be rescale expAdj shiftAmount = ae - be + rescale + expAdj + shiftAmount := by
  rw [abs_le] at h1 h2 h3 h4
  unfold divExponent
  rw [saturate_of_inI (x := ae - be) (by simp only [InI, minI, maxI]; omega),
    saturate_of_inI (x := ae - be + rescale) (by simp only [InI, minI, maxI]; omega),
    saturate_of_inI (x := ae - be + rescale + expAdj) (by simp only [InI, minI, maxI]; omega),
    saturate_of_inI (by simp only [InI, minI, maxI]; omega)]

/-- **Division** of canonical Normals: the strict quotient cut to 113 bits. -/
theorem dfpDiv_normal {a b : Dfp} (ha : a.CanonicalNormal) (hb : b.CanonicalNormal) :
    dfpDiv a b = pure (assemble (a.sign ^^ b.sign)
      (strictQuotient a.mantissa b.mantissa
        / 2 ^ (bitLen (strictQuotient a.mantissa b.mantissa) - 113))
      (a.exponent - b.exponent + ((divScale a.mantissa b.mantissa : Int) - 128)
        + (bitLen (strictQuotient a.mantissa b.mantissa) - 113 : Nat))) := by
  have hao := ha.odd
  have hbo := hb.odd
  have h1 := ha.exp_ge
  have h2 := ha.exp_le
  have h3 := hb.exp_ge
  have h4 := hb.exp_le
  unfold dfpMinExponent at h1 h3
  unfold dfpMaxExponent at h2 h4
  have hs := divScale_le (b := b.mantissa) ha.lt
  have hpre := prescale_eq (b := b.mantissa) ha.lt (by omega) 201 0 (by omega) (by omega)
  rw [pow_zero, Nat.mul_one, Nat.cast_zero] at hpre
  obtain ⟨s, hloop, hq, hqlt⟩ := divLoop_eq (b := b.mantissa) (by omega) ha.lt (by omega) hb.lt
  have hdef : dfpDiv a b = divNormal a b := by
    unfold dfpDiv
    rw [ha.cls, hb.cls]
  rw [hdef]
  unfold divNormal
  rw [hpre, pure_bind, hloop, pure_bind, ← hq]
  have htop := topBits_lt 113 s.quotient
  have hlen : bitLen s.quotient ≤ 128 := bitLen_le_iff.mpr hqlt
  have hcut : cutShift (127 - (clz 128 s.quotient : Int)) = bitLen s.quotient - 113 := by
    rw [← cutShift_bitLen]
    congr 1
    unfold clz
    omega
  split
  · next h0 => rw [h0, Nat.zero_div]; rfl
  next hne =>
  have htop0 := topBits_ne_zero (p := 113) (by decide) hne
  have hctz : ctz 128 (s.quotient / 2 ^ (bitLen s.quotient - 113)) < 128 := ctz_lt htop0 (by omega)
  simp only [hcut]
  rw [shrU_of_lt (by omega), pure_bind, roundTo113_of_lt htop, pure_bind, splitOdd, if_neg htop0,
    if_neg (oddPart_pos htop0).ne', subI_of_inI (by simp only [InI, minI, maxI]; omega),
    pure_bind, divExponent_of_small (by rw [abs_le]; omega) (by rw [abs_le]; omega)
      (by rw [abs_le]; omega) (by rw [abs_le]; omega), Int.add_right_comm]
  exact finishScaled_assemble _ _ htop0 (by omega)

/-! ## Square root -/

theorem normalize_eq {n : Nat} (hn : n ≠ 0) (hlt : n < 2 ^ 128) {e : Int} (he : InI 32 e)
    (sign : Bool) : Dfp.normalize ⟨n, e, .normal, sign⟩
      = pure ⟨oddPart 128 n, saturate 32 (e + ctz 128 n), .normal, sign⟩ := by
  unfold Dfp.normalize
  rw [if_neg (by simp), if_neg hn]
  dsimp only
  split
  · next hpos => rw [shrU_of_lt (ctz_lt hn hlt), pure_bind]; rfl
  · next h0 =>
    have hc : ctz 128 n = 0 := by omega
    rw [oddPart, hc, pow_zero, Nat.div_one, Nat.cast_zero, Int.add_zero, saturate_of_inI he]

/-- The bit loop stays below `2^226` and never overflows. -/
theorem sqrtLoop_bounds (top mid : Nat) :
    ∀ (bit : Nat) (r : U256), bit ≤ 226 → r.hi < 2 ^ 98 → r.lo < 2 ^ 128 →
      (sqrtLoop top mid bit r).ovf = false ∧ (sqrtLoop top mid bit r).val.hi < 2 ^ 98 ∧
        (sqrtLoop top mid bit r).val.lo < 2 ^ 128 := by
  intro bit
  induction bit with
  | zero => intro r _ hhi hlo; exact ⟨rfl, hhi, hlo⟩
  | succ bit ih =>
    intro r hbit hhi hlo
    have hc := setBitU256_val_lt hhi hlo (show bit < 226 by omega)
    have hovf := setBitU256_ovf r.hi r.lo (show bit < 256 by omega)
    unfold sqrtLoop
    rw [Tracked.ovf_bind, Tracked.val_bind, hovf, Bool.false_or]
    split
    · exact ih _ (by omega) hc.1 hc.2
    · exact ih _ (by omega) hhi hlo

/-- The number the bit loop arrives at for the radicand `m`, less its low 113 bits. -/
def rootBits (m : Nat) : Nat :=
  (sqrtLoop (m / 2 ^ 30) (m * 2 ^ 98 % 2 ^ 128) 226 ⟨0, 0⟩).val.toNat / 2 ^ 113

theorem sqrtNormal_of_radicand {a : Dfp} {m : Nat} (ha : a.WellTyped)
    (hm : (if a.exponent % 2 ≠ 0 then shlU 128 a.mantissa 1 else pure a.mantissa) = pure m) :
    rootBits m < 2 ^ 113 ∧ sqrtNormal a = pure (if rootBits m = 0 then Dfp.zero
      else ⟨oddPart 128 (rootBits m), saturate 32 (a.exponent / 2 + ctz 128 (rootBits m)),
        .normal, false⟩) := by
  have hin : InI 32 (a.exponent / 2) := by
    have h := ha.2
    simp only [InI, minI, maxI] at h ⊢
    omega
  have hscaled : ∃ x, u128ShlToU256 m 226 = pure x := ⟨_, rfl⟩
  obtain ⟨x, hx⟩ := hscaled
  obtain ⟨hovf, hhi, hlo⟩ := sqrtLoop_bounds (m / 2 ^ 30) (m * 2 ^ 98 % 2 ^ 128) 226 ⟨0, 0⟩ le_rfl
    (by decide) (by decide)
  unfold sqrtNormal rootBits
  rw [hm, pure_bind, hx, pure_bind, shlU_of_lt_width (by decide), pure_bind, shrU_of_lt (by decide),
    pure_bind, Tracked.eq_pure hovf, pure_bind, Tracked.val_pure]
  generalize (sqrtLoop (m / 2 ^ 30) (m * 2 ^ 98 % 2 ^ 128) 226 ⟨0, 0⟩).val = r at hhi hlo ⊢
  rw [shlU_of_lt (by decide) (by omega), pure_bind, shrU_of_lt (by decide), pure_bind,
    U256.or_eq_add (by omega), show r.hi * 2 ^ 15 + r.lo / 2 ^ 113 = r.toNat / 2 ^ 113 by
      unfold U256.toNat; omega]
  have hlt : r.toNat / 2 ^ 113 < 2 ^ 113 := by
    unfold U256.toNat
    omega
  generalize r.toNat / 2 ^ 113 = n at hlt ⊢
  refine ⟨hlt, ?_⟩
  split
  · rfl
  · next hne => exact normalize_eq hne (by omega) hin false

/-- **Square root** of a positive Normal: zero, or some root below `2^113` at half the exponent. -/
theorem sqrtNormal_eq {a : Dfp} (ha : a.WellTyped) :
    (sqrtNormal a).ovf = false ∧ ∃ n < 2 ^ 113, (sqrtNormal a).val =
      if n = 0 then Dfp.zero
      else ⟨oddPart 128 n, saturate 32 (a.exponent / 2 + ctz 128 n), .normal, false⟩ := by
  have hadj : ∃ m, (if a.exponent % 2 ≠ 0 then shlU 128 a.mantissa 1 else pure a.mantissa)
      = pure m := by
    split
    · exact ⟨_, shlU_of_lt_width (by decide)⟩
    · exact ⟨_, rfl⟩
  obtain ⟨m, hm⟩ := hadj
  obtain ⟨hlt, heq⟩ := sqrtNormal_of_radicand ha hm
  rw [heq]
  exact ⟨rfl, rootBits m, hlt, rfl⟩

end CipherOcto.Determin
