import CipherOcto.Determin.ScaledOps

/-!
# Where checked and wrapping builds part ways

`DfpEncoding` decodes every 24-byte string, so the operations meet mantissas up
to `2^128` and exponents across all of `i32`. Division and square root never
leave their machine ranges. The others do, at four places:

* adding mantissas of equal sign in a `u128`;
* the full-width shift behind a difference at a gap of 128, and the low-bit mask
  on differences of 241 bits or more;
* the two unsaturated exponent additions of the product;
* the exponent additions of the `f64` conversion.

`AddSafe`, `MulSafe` and `F64Safe` are the exact conditions on the operands.
-/

namespace CipherOcto.Determin

open Machine

/-- No step leaves its range, and both builds return the same value. -/
def BuildsAgree {α : Type} (x : Tracked α) : Prop := x.ovf = false ∧ x.checked = some x.val

theorem buildsAgree_iff {α : Type} (x : Tracked α) : BuildsAgree x ↔ x.ovf = false := by
  unfold BuildsAgree
  rw [Tracked.checked_eq_some_iff, and_self_iff]

/-! ## Addition -/

/-- Equal signs: the aligned sum fits a `u128`. Different signs: the smaller
operand is dropped, or the gap is not 128 and the difference has at most 240 bits. -/
def AddSafe (a b : Dfp) : Prop :=
  a.cls = .normal → b.cls = .normal →
    if a.sign = b.sign then alignedLeft a b + alignedLeft b a < 2 ^ 128
    else 143 < gap a b ∨ gap a b ≠ 128 ∧ diffMag a b < 2 ^ 240

theorem finishAdd_ovf {r : Parts} (h : r.mantissa < 2 ^ 128) : (finishAdd r).ovf = false := by
  unfold finishAdd
  split
  · rfl
  · rw [Tracked.ovf_bind, Dfp.normalize_ovf h, Bool.false_or]
    split <;> rfl

theorem sameSign_ovf {a b : Dfp} (ha : a.WellTyped) (hb : b.WellTyped) :
    (sameSignPath a b >>= finishAdd).ovf = decide (2 ^ 128 ≤ alignedLeft a b + alignedLeft b a) := by
  obtain ⟨sticky, hpath⟩ := sameSignPath_eq ha hb
  obtain ⟨m, e, hround, hm⟩ := roundSum_pure
    (Nat.mod_lt (alignedLeft a b + alignedLeft b a) (Nat.two_pow_pos 128)) sticky
  rw [hpath, bind_assoc]
  unfold addU
  rw [Tracked.mk_bind, hround, pure_bind, pure_bind, finishAdd_ovf hm, Bool.or_false]

theorem differentSign_ovf {a b : Dfp} (ha : a.WellTyped) (hb : b.WellTyped) :
    (differentSignPath a b >>= finishAdd).ovf =
      decide (gap a b ≤ 143 ∧ (gap a b = 128 ∨ 2 ^ 240 ≤ diffMag a b)) := by
  rcases Nat.lt_or_ge 143 (gap a b) with hgap | hgap
  · rw [differentSignPath_far hgap, pure_bind, finishAdd_ovf (largerExp_wellTyped ha hb).1,
      decide_eq_false (by omega)]
  rw [differentSignPath_near ha hb hgap]
  split
  · next h0 =>
    rw [Tracked.mk_bind, finishAdd_ovf (Nat.two_pow_pos 128), Bool.or_false, h0, decide_eq_decide]
    omega
  · next hne =>
    have htop := topBits_lt 113 (diffMag a b)
    have hodd := oddPart_le 128 (diffMag a b / 2 ^ (bitLen (diffMag a b) - 113))
    rw [Tracked.mk_bind, finishAdd_ovf (by simp only; omega), Bool.or_false, ← Bool.decide_or,
      decide_eq_decide, ← lt_bitLen_iff]
    omega

theorem dfpAdd_ovf_iff {a b : Dfp} (ha : a.WellTyped) (hb : b.WellTyped) :
    (dfpAdd a b).ovf = false ↔ AddSafe a b := by
  by_cases hn : a.cls = .normal ∧ b.cls = .normal
  · rw [dfpAdd_of_normal hn.1 hn.2]
    simp only [AddSafe, hn.1, hn.2, true_imp_iff]
    split
    · rw [sameSign_ovf ha hb, decide_eq_false_iff_not, Nat.not_le]
    · rw [differentSign_ovf ha hb, decide_eq_false_iff_not]
      omega
  · refine iff_of_true ?_ (fun hac hbc => absurd ⟨hac, hbc⟩ hn)
    unfold dfpAdd
    cases hac : a.cls <;> cases hbc : b.cls <;> first | rfl | exact absurd ⟨hac, hbc⟩ hn

/-! ## Multiplication -/

/-- The exponent sum plus the trailing zeros of the cut product stays an `i32`. -/
def MulSafe (a b : Dfp) : Prop :=
  a.cls = .normal → b.cls = .normal → storedProduct a.mantissa b.mantissa ≠ 0 →
    saturate 32 (a.exponent + b.exponent)
      + (bitLen (storedProduct a.mantissa b.mantissa) - 113 : Nat)
      + ctz 128 (storedProduct a.mantissa b.mantissa
          / 2 ^ (bitLen (storedProduct a.mantissa b.mantissa) - 113)) ≤ 2 ^ 31 - 1

theorem finishScaled_ovf {m : Nat} (h : m < 2 ^ 128) (sign : Bool) (e : Int) :
    (finishScaled sign m e).ovf = false := by
  unfold finishScaled
  split
  · rfl
  · exact Dfp.normalize_ovf h

/-- Adding two counts to an `i32` overflows iff the total does. -/
theorem mulTail_ovf {e : Int} (he : InI 32 e) {m : Nat} (hm : m < 2 ^ 128) (sign : Bool) (x y : Nat) :
    (mulTail sign e (m, x) y).ovf = decide (2 ^ 31 - 1 < e + x + y) := by
  have hf : ∀ e, (if m = 0 then pure (Dfp.signedZero sign) else finishScaled sign m e).ovf = false := by
    intro e
    split
    · rfl
    · exact finishScaled_ovf hm sign e
  unfold mulTail
  simp only [InI, minI, maxI] at he
  rcases le_or_gt (e + x) (2 ^ 31 - 1) with hx | hx
  · have hovf : (addI 32 (e + x) y).ovf = decide (¬ InI 32 (e + x + y)) := rfl
    rw [addI_of_inI (by simp only [InI, minI, maxI]; omega), pure_bind,
      Tracked.ovf_bind, hf, Bool.or_false, hovf, decide_eq_decide]
    simp only [InI, minI, maxI]
    omega
  · -- the first addition is already out of range
    have hovf : (addI 32 e x).ovf = true := by
      apply decide_eq_true
      simp only [InI, minI, maxI]
      omega
    rw [Tracked.ovf_bind, hovf, Bool.true_or, decide_eq_true (by omega)]

theorem inI_saturate (x : Int) : InI 32 (saturate 32 x) := by
  simp only [InI, saturate, minI, maxI]
  omega

theorem dfpMul_ovf_iff {a b : Dfp} (ha : a.WellTyped) (hb : b.WellTyped) :
    (dfpMul a b).ovf = false ↔ MulSafe a b := by
  by_cases hn : a.cls = .normal ∧ b.cls = .normal
  · have hdef : dfpMul a b = mulNormal a b := by
      unfold dfpMul
      rw [hn.1, hn.2]
    rw [hdef, mulNormal_eq ha.1 hb.1]
    simp only [MulSafe, hn.1, hn.2, true_imp_iff]
    have htop := topBits_lt 113 (storedProduct a.mantissa b.mantissa)
    have htop0 := topBits_ne_zero (p := 113) (n := storedProduct a.mantissa b.mantissa) (by decide)
    have hin := inI_saturate (a.exponent + b.exponent)
    generalize storedProduct a.mantissa b.mantissa = n at *
    by_cases h0 : n = 0
    · have h := mulTail_ovf hin (Nat.two_pow_pos 128) (a.sign ^^ b.sign) 0 0
      simp only [InI, minI, maxI] at hin
      rw [h0, Nat.zero_div, bitLen_zero, splitOdd, if_pos rfl]
      refine iff_of_true (h.trans (decide_eq_false (by omega))) (fun hne => absurd rfl hne)
    · have hodd := oddPart_le 128 (n / 2 ^ (bitLen n - 113))
      rw [splitOdd_of_ne_zero (htop0 h0), mulTail_ovf hin (by omega), decide_eq_false_iff_not]
      simp only [ne_eq, h0, not_false_eq_true, true_imp_iff]
      omega
  · refine iff_of_true ?_ (fun hac hbc => absurd ⟨hac, hbc⟩ hn)
    unfold dfpMul
    cases hac : a.cls <;> cases hbc : b.cls <;> first | rfl | exact absurd ⟨hac, hbc⟩ hn

/-! ## Division and square root never overflow -/

theorem prescale_ovf (a : Nat) :
    ∀ (fuel bM : Nat) (scale : Int), 0 ≤ scale → scale ≤ 200 →
      (prescale a fuel bM scale).ovf = false ∧ 0 ≤ (prescale a fuel bM scale).val.2 ∧
        (prescale a fuel bM scale).val.2 ≤ 201 := by
  intro fuel
  induction fuel with
  | zero =>
    intro bM scale h0 h1
    exact ⟨rfl, h0, by show scale ≤ 201; omega⟩
  | succ fuel ih =>
    intro bM scale h0 h1
    unfold prescale
    split
    · rw [shlU_of_lt_width (by decide), pure_bind,
        addI_of_inI (by simp only [InI, minI, maxI]; omega), pure_bind]
      split
      · exact ⟨rfl, by show 0 ≤ scale + 1; omega, by show scale + 1 ≤ 201; omega⟩
      · exact ih _ _ (by omega) (by omega)
    · exact ⟨rfl, h0, by show scale ≤ 201; omega⟩

theorem divStep_ovf (bM : Nat) (s : DivState) :
    (divStep bM s).ovf = false ∧ (divStep bM s).val.quotient < 2 ^ 128 := by
  unfold divStep
  rw [shlU_of_lt_width (by decide), pure_bind, shlU_of_lt_width (by decide), pure_bind,
    shlU_of_lt_width (by decide), pure_bind]
  have hq : s.quotient * 2 ^ 1 % 2 ^ 128 < 2 ^ 128 := Nat.mod_lt _ (Nat.two_pow_pos 128)
  generalize s.quotient * 2 ^ 1 % 2 ^ 128 = q at hq ⊢
  generalize (s.dividendHi * 2 ^ 1 % 2 ^ 128 ||| s.dividendLo / 2 ^ 127) = hi
  split
  · next hge =>
    have hsub : (subU 128 hi bM).ovf = false := decide_eq_false (by omega)
    rw [Tracked.eq_pure hsub, pure_bind]
    exact ⟨rfl, Nat.or_lt_two_pow hq (by decide)⟩
  · exact ⟨rfl, hq⟩

theorem divLoop_ovf (bM : Nat) :
    ∀ (n : Nat) (s : DivState), s.quotient < 2 ^ 128 →
      (divLoop bM n s).ovf = false ∧ (divLoop bM n s).val.quotient < 2 ^ 128 := by
  intro n
  induction n with
  | zero => intro s hs; exact ⟨rfl, hs⟩
  | succ n ih =>
    intro s hs
    obtain ⟨hovf, hq⟩ := divStep_ovf bM s
    unfold divLoop
    rw [Tracked.eq_pure hovf, pure_bind]
    exact ih _ hq

theorem dfpDiv_ovf (a b : Dfp) : (dfpDiv a b).ovf = false := by
  have hnormal : (divNormal a b).ovf = false := by
    obtain ⟨hpre, hlo, hhi⟩ := prescale_ovf a.mantissa 201 b.mantissa 0 le_rfl (by decide)
    unfold divNormal
    rw [Tracked.eq_pure hpre, pure_bind]
    generalize (prescale a.mantissa 201 b.mantissa 0).val = scaled at hlo hhi ⊢
    obtain ⟨hloop, hq⟩ := divLoop_ovf scaled.1 128 ⟨a.mantissa, 0, 0⟩ (Nat.two_pow_pos 128)
    rw [Tracked.eq_pure hloop, pure_bind]
    generalize (divLoop scaled.1 128 ⟨a.mantissa, 0, 0⟩).val = s at hq ⊢
    have htop := topBits_lt 113 s.quotient
    have hodd := oddPart_le 128 (s.quotient / 2 ^ (bitLen s.quotient - 113))
    have hlen : bitLen s.quotient ≤ 128 := bitLen_le_iff.mpr hq
    have hcut : cutShift (127 - (clz 128 s.quotient : Int)) = bitLen s.quotient - 113 := by
      rw [← cutShift_bitLen]
      congr 1
      unfold clz
      omega
    split
    · rfl
    next hne =>
    simp only [hcut]
    rw [shrU_of_lt (by omega), pure_bind, roundTo113_of_lt htop, pure_bind,
      splitOdd_of_ne_zero (topBits_ne_zero (by decide) hne)]
    split
    · rfl
    · rw [subI_of_inI (by simp only [InI, minI, maxI]; omega), pure_bind]
      exact finishScaled_ovf (by simp only; omega) _ _
  unfold dfpDiv
  cases a.cls <;> cases b.cls <;> first | rfl | exact hnormal

theorem dfpSqrt_ovf {a : Dfp} (ha : a.WellTyped) : (dfpSqrt a).ovf = false := by
  unfold dfpSqrt
  cases a.cls with
  | normal =>
    dsimp only
    split
    · rfl
    · exact (sqrtNormal_eq ha).1
  | nan => rfl
  | infinity => rfl
  | zero => rfl

/-! ## Conversion to `f64` -/

/-- The biased exponent of the leading bit stays an `i32`. -/
def F64Safe (d : Dfp) : Prop :=
  d.cls = .normal → d.mantissa ≠ 0 → (bitLen d.mantissa : Int) - 1 + d.exponent + 1023 ≤ 2 ^ 31 - 1

theorem keepTop53_ovf {m shift : Nat} (hs : shift ≤ 75)
    (hkept : m / 2 ^ shift < 2 ^ 53) : ∃ r, Dfp.keepTop53 m shift = pure r ∧ r.2 ≤ 1 := by
  have hbelow : ∃ x, (if 1 ≤ shift then shrU 128 m (shift - 1) else pure 0) = pure x := by
    split
    · exact ⟨_, shrU_of_lt (by omega)⟩
    · exact ⟨_, rfl⟩
  have hmask : ∃ x, (if 2 ≤ shift then do
      let one ← shlU 128 1 (shift - 1)
      subU 128 one 1
    else pure 0 : Tracked Nat) = pure x := by
    split
    · have hpow : 1 * 2 ^ (shift - 1) < 2 ^ 128 :=
        lt_of_eq_of_lt (Nat.one_mul _) (Nat.pow_lt_pow_right Nat.one_lt_two (by omega))
      have hpos : 1 ≤ 1 * 2 ^ (shift - 1) := by
        rw [Nat.one_mul]
        exact Nat.two_pow_pos _
      rw [shlU_of_lt (by omega) hpow, pure_bind]
      exact ⟨_, subU_of_le hpos hpow⟩
    · exact ⟨_, rfl⟩
  obtain ⟨x, hx⟩ := hbelow
  obtain ⟨y, hy⟩ := hmask
  unfold Dfp.keepTop53
  rw [shrU_of_lt (by omega), pure_bind, hx, pure_bind, hy, pure_bind]
  generalize m / 2 ^ shift = top at hkept ⊢
  split
  · rw [addU_of_lt (by omega), pure_bind]
    split
    · exact ⟨_, rfl, le_rfl⟩
    · exact ⟨_, rfl, Nat.zero_le _⟩
  · exact ⟨_, rfl, Nat.zero_le _⟩

theorem normalBits_ovf {m : Nat} (hm0 : m ≠ 0) (hm : m < 2 ^ 128) {biased : Int}
    (hlt : biased < 2047) (sign : Bool) :
    (Dfp.normalBits m ((bitLen m : Int) - 1) biased sign).ovf = false := by
  have hlen : bitLen m ≤ 128 := bitLen_le_iff.mpr hm
  have hpos := bitLen_pos hm0
  have hround : ∃ r, (if 52 ≤ (bitLen m : Int) - 1
      then Dfp.keepTop53 m ((bitLen m : Int) - 1 - 52).toNat
      else do
        let m ← shlU 64 (m % 2 ^ 64) (52 - ((bitLen m : Int) - 1)).toNat
        pure (m &&& Dfp.keepMask, 0) : Tracked (Nat × Nat)) = pure r ∧ r.2 ≤ 1 := by
    split
    · apply keepTop53_ovf (by omega)
      rw [← bitLen_le_iff, bitLen_div_two_pow]
      omega
    · rw [shlU_of_lt_width (by omega), pure_bind]
      exact ⟨_, rfl, Nat.zero_le _⟩
  obtain ⟨r, hr, hr2⟩ := hround
  unfold Dfp.normalBits
  rw [hr, pure_bind, addU_of_lt (by omega), pure_bind]
  rfl

theorem subnormalBits_ovf (m : Nat) {totalExp : Int} (hin : InI 32 totalExp)
    (hle : totalExp ≤ -1023) (sign : Bool) : (Dfp.subnormalBits m totalExp sign).ovf = false := by
  simp only [InI, minI, maxI] at hin
  unfold Dfp.subnormalBits
  rw [addI_of_inI (by simp only [InI, minI, maxI]; omega), pure_bind]
  split
  · rfl
  · rw [shlU_of_lt_width (by omega), pure_bind]
    rfl

theorem toF64_ovf_iff {d : Dfp} (hd : d.WellTyped) : d.toF64.ovf = false ↔ F64Safe d := by
  obtain ⟨hm, he⟩ := hd
  unfold Dfp.toF64 F64Safe
  cases d.cls with
  | zero => exact iff_of_true rfl (fun h => by cases h)
  | infinity => exact iff_of_true rfl (fun h => by cases h)
  | nan => exact iff_of_true rfl (fun h => by cases h)
  | normal =>
    simp only [true_imp_iff]
    unfold Dfp.u128ToF64Bits
    split
    · next h0 => exact iff_of_true rfl (fun h => absurd h0 h)
    next hne =>
    have hlen : bitLen d.mantissa ≤ 128 := bitLen_le_iff.mpr hm
    have hpos := bitLen_pos hne
    have hmsb : 127 - (clz 128 d.mantissa : Int) = (bitLen d.mantissa : Int) - 1 := by
      unfold clz
      omega
    simp only [ne_eq, hne, not_false_eq_true, true_imp_iff, hmsb]
    simp only [InI, minI, maxI] at he
    rcases le_or_gt ((bitLen d.mantissa : Int) - 1 + d.exponent) (2 ^ 31 - 1) with h1 | h1
    · have hin : InI 32 ((bitLen d.mantissa : Int) - 1 + d.exponent) := by
        simp only [InI, minI, maxI]
        omega
      rw [addI_of_inI hin, pure_bind]
      rcases le_or_gt ((bitLen d.mantissa : Int) - 1 + d.exponent + 1023) (2 ^ 31 - 1) with h2 | h2
      · rw [addI_of_inI (by simp only [InI, minI, maxI]; omega), pure_bind]
        refine iff_of_true ?_ h2
        split
        · rfl
        split
        · exact normalBits_ovf hne hm (by omega) d.sign
        · exact subnormalBits_ovf _ hin (by omega) d.sign
      · have hovf : (addI 32 ((bitLen d.mantissa : Int) - 1 + d.exponent) 1023).ovf = true := by
          apply decide_eq_true
          simp only [InI, minI, maxI]
          omega
        rw [Tracked.ovf_bind, hovf, Bool.true_or]
        exact iff_of_false (by decide) (by omega)
    · have hovf : (addI 32 ((bitLen d.mantissa : Int) - 1) d.exponent).ovf = true := by
        apply decide_eq_true
        simp only [InI, minI, maxI]
        omega
      rw [Tracked.ovf_bind, hovf, Bool.true_or]
      exact iff_of_false (by decide) (by omega)

/-! ## All decoded operands -/

/-- The operand a 24-byte string decodes to. -/
def decode (bytes : Vector UInt8 24) : Dfp := (DfpEncoding.fromBytes bytes).toDfp

/-- **When the two builds agree**, for every pair of 24-byte strings. -/
theorem buildsAgree_decoded_iff (x y : Vector UInt8 24) :
    (BuildsAgree (dfpAdd (decode x) (decode y)) ↔ AddSafe (decode x) (decode y)) ∧
      (BuildsAgree (dfpSub (decode x) (decode y)) ↔ AddSafe (decode x) (decode y).flip) ∧
      (BuildsAgree (dfpMul (decode x) (decode y)) ↔ MulSafe (decode x) (decode y)) ∧
      BuildsAgree (dfpDiv (decode x) (decode y)) ∧
      BuildsAgree (dfpSqrt (decode x)) ∧
      (BuildsAgree (decode x).toF64 ↔ F64Safe (decode x)) := by
  have hx : (decode x).WellTyped := DfpEncoding.toDfp_wellTyped x
  have hy : (decode y).WellTyped := DfpEncoding.toDfp_wellTyped y
  have hflip : (decode y).flip.WellTyped := Dfp.flip_wellTyped hy
  simp only [buildsAgree_iff, dfpSub_eq]
  exact ⟨dfpAdd_ovf_iff hx hy, dfpAdd_ovf_iff hx hflip, dfpMul_ovf_iff hx hy, dfpDiv_ovf _ _,
    dfpSqrt_ovf hx, toF64_ovf_iff hx⟩

/-- A Normal with every mantissa bit set, added to itself: the `u128` sum overflows. -/
theorem allOnes_add_overflows :
    ¬ ∀ x y : Vector UInt8 24, BuildsAgree (dfpAdd (decode x) (decode y)) := by
  intro h
  have hovf := (h (Vector.mk #[255, 255, 255, 255, 255, 255, 255, 255, 255, 255, 255, 255, 255,
      255, 255, 255, 0, 0, 0, 0, 0, 0, 0, 0] rfl)
    (Vector.mk #[255, 255, 255, 255, 255, 255, 255, 255, 255, 255, 255, 255, 255,
      255, 255, 255, 0, 0, 0, 0, 0, 0, 0, 0] rfl)).1
  exact absurd hovf (by decide)

end CipherOcto.Determin
