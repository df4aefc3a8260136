import CipherOcto.Determin.Arithmetic

/-!
# What the two addition paths compute

One equation per path, for operands of the machine types:

* same signs (`sameSignPath_eq`): the mantissas, each shifted right by how much
  the other's exponent exceeds its own, are added in a `u128` and the sum is cut
  to 113 bits;
* different signs (`differentSignPath_eq`): the larger-exponent mantissa is
  shifted up, the other subtracted, and the magnitude cut to 113 bits. A gap
  above 143 drops the smaller operand, and at a gap of exactly 128 the shift
  loses the *larger* one (`shiftedUp`).

`assemble` is the shape all results share: a magnitude `n * 2^e` brought to odd
form and saturated.
-/

namespace CipherOcto.Determin

open Machine

/-- The result with magnitude `n * 2^e`: odd mantissa, saturating above. -/
def assemble (sign : Bool) (n : Nat) (e : Int) : Dfp :=
  if n = 0 then Dfp.signedZero sign
  else if dfpMaxExponent < e + ctz 128 n then saturated sign
  else ⟨oddPart 128 n, e + ctz 128 n, .normal, sign⟩

theorem finishAdd_assemble {n : Nat} (sign : Bool) (e : Int) (hn : n ≠ 0) (hlt : n < 2 ^ 128) :
    finishAdd ⟨sign, oddPart 128 n, e + ctz 128 n⟩ = pure (assemble sign n e) := by
  have hodd := oddPart_odd hn hlt
  unfold finishAdd assemble
  rw [if_neg (oddPart_pos hn).ne', Dfp.normalize_of_odd hodd, pure_bind, if_neg hn]
  split <;> rfl

theorem finishScaled_assemble {n : Nat} (sign : Bool) (e : Int) (hn : n ≠ 0) (hlt : n < 2 ^ 128) :
    finishScaled sign (oddPart 128 n) (e + ctz 128 n) = pure (assemble sign n e) := by
  have hodd := oddPart_odd hn hlt
  unfold finishScaled assemble
  rw [Dfp.normalize_of_odd hodd, if_neg hn]
  split <;> rfl

theorem signedZero_cls (sign : Bool) : (Dfp.signedZero sign).cls = .zero := by
  cases sign <;> rfl

theorem saturated_canonical (sign : Bool) : (saturated sign).Canonical := by
  cases sign <;> decide

/-- Oddness and the upper bounds always hold; only the lower exponent bound can fail. -/
theorem assemble_canonical_iff {n : Nat} (h : n < 2 ^ 113) (sign : Bool) (e : Int) :
    (assemble sign n e).Canonical ↔ n = 0 ∨ dfpMinExponent ≤ e + ctz 128 n := by
  unfold assemble
  split
  · next h0 => exact iff_of_true (Or.inl (signedZero_cls sign)) (Or.inl h0)
  next hn =>
  split
  · next hbig =>
    refine iff_of_true (saturated_canonical sign) (Or.inr ?_)
    unfold dfpMaxExponent at hbig
    unfold dfpMinExponent
    omega
  · next hle =>
    have hodd := oddPart_odd hn (w := 128) (by omega)
    have hlt : oddPart 128 n < 2 ^ 113 := lt_of_le_of_lt (oddPart_le _ _) h
    simp only [Dfp.Canonical, reduceCtorEq, true_and, false_or, hodd, hlt, hn, and_iff_left_iff_imp]
    exact fun _ => not_lt.mp hle

/-! ## Same signs -/

/-- Saturating the shift distance changes nothing: from 128 on everything is gone. -/
theorem div_two_pow_min {m : Nat} (hm : m < 2 ^ 128) (d : Nat) :
    m / 2 ^ min d (2 ^ 31 - 1) = m / 2 ^ d := by
  rcases Nat.le_total d (2 ^ 31 - 1) with h | h
  · rw [Nat.min_eq_left h]
  · rw [Nat.min_eq_right h, Nat.div_eq_of_lt, Nat.div_eq_of_lt]
    · exact lt_of_lt_of_le hm (Nat.pow_le_pow_right Nat.two_pos (by omega))
    · exact lt_of_lt_of_le hm (Nat.pow_le_pow_right Nat.two_pos (by omega))

/-- The exponent the same-sign path works at. -/
def alignedExp (a b : Dfp) : Int :=
  if b.exponent ≤ a.exponent then a.exponent
  else a.exponent + (min (b.exponent - a.exponent).toNat (2 ^ 31 - 1) : Nat)

/-- `a`'s mantissa at the common exponent. -/
def alignedLeft (a b : Dfp) : Nat := a.mantissa / 2 ^ (b.exponent - a.exponent).toNat

theorem sameSignPath_eq {a b : Dfp} (ha : a.WellTyped) (hb : b.WellTyped) :
    ∃ sticky, sameSignPath a b = (do
      let sum ← addU 128 (alignedLeft a b) (alignedLeft b a)
      let r ← roundSum sum sticky
      pure ⟨a.sign, r.1, saturate 32 (alignedExp a b + r.2)⟩) := by
  obtain ⟨ham, hae⟩ := ha
  obtain ⟨hbm, hbe⟩ := hb
  simp only [InI, minI, maxI] at hae hbe
  unfold sameSignPath alignedLeft alignedExp
  dsimp only
  rcases le_or_gt b.exponent a.exponent with h | h
  · -- `b` is shifted down
    have hsat : saturate 32 (a.exponent - b.exponent)
        = ((min (a.exponent - b.exponent).toNat (2 ^ 31 - 1) : Nat) : Int) := by
      simp only [saturate, minI, maxI]
      omega
    obtain ⟨cls, sticky, heq⟩ := alignMantissa_eq hbm (saturate 32 (a.exponent - b.exponent))
      (by omega) (by simp only [hsat, InI, minI, maxI]; omega)
    refine ⟨sticky, ?_⟩
    rw [if_pos (by omega), heq, if_pos h, hsat, Int.toNat_natCast, div_two_pow_min hbm,
      show (b.exponent - a.exponent).toNat = 0 by omega, pow_zero, Nat.div_one]
    simp only [pure_bind, Bool.false_or]
  · have hsat : saturate 32 (-saturate 32 (a.exponent - b.exponent))
        = ((min (b.exponent - a.exponent).toNat (2 ^ 31 - 1) : Nat) : Int) := by
      simp only [saturate, minI, maxI]
      omega
    have hneg : ¬ 0 ≤ saturate 32 (a.exponent - b.exponent) := by
      simp only [saturate, minI, maxI]
      omega
    obtain ⟨cls, sticky, heq⟩ := alignMantissa_eq ham
      (saturate 32 (-saturate 32 (a.exponent - b.exponent)))
      (by omega) (by simp only [hsat, InI, minI, maxI]; omega)
    refine ⟨sticky, ?_⟩
    rw [if_neg hneg, heq, if_neg (by omega), hsat, Int.toNat_natCast, div_two_pow_min ham,
      show (a.exponent - b.exponent).toNat = 0 by omega, pow_zero, Nat.div_one]
    simp only [pure_bind, Bool.or_false]

/-- A sum of two 113-bit mantissas is cut to 113 bits, carry included. -/
theorem roundSum_of_lt {n : Nat} (hn : n ≠ 0) (h : n < 2 ^ 114) (sticky : Bool) :
    roundSum n sticky = pure (oddPart 128 (n / 2 ^ (bitLen n - 113)),
      ((bitLen n - 113 : Nat) : Int) + ctz 128 (n / 2 ^ (bitLen n - 113))) := by
  unfold roundSum
  split
  · next hge =>
    have hlen : bitLen n = 113 + 1 := bitLen_eq_of_bounds hge (lt_of_lt_of_eq h (by norm_num))
    have hhalf : n / 2 ≠ 0 := by omega
    have hctz : ctz 128 (n / 2) < 128 := ctz_lt hhalf (by omega)
    have hround := roundTo113_of_lt (show n / 2 < 2 ^ 113 by omega) (sticky || n % 2 != 0)
    rw [splitOdd, if_neg hhalf] at hround
    rw [hlen, show 113 + 1 - 113 = 1 by omega, pow_one]
    rw [hround, pure_bind, addI_of_inI (by simp only [InI, minI, maxI]; omega), pure_bind, Int.add_comm,
      Nat.cast_one]
  · next hlt =>
    have hlen : bitLen n - 113 = 0 := Nat.sub_eq_zero_of_le (bitLen_le_iff.mpr (by omega))
    rw [roundTo113_of_lt (by omega), hlen, splitOdd, if_neg hn]
    simp

theorem roundSum_pure {n : Nat} (h : n < 2 ^ 128) (sticky : Bool) :
    ∃ m e, roundSum n sticky = pure (m, e) ∧ m < 2 ^ 128 := by
  unfold roundSum
  split
  · obtain ⟨m, e, heq, hm, he0, he⟩ :=
      roundTo113_pure (show n / 2 < 2 ^ 127 by omega) (sticky || n % 2 != 0)
    refine ⟨m, e + 1, ?_, hm⟩
    rw [heq, pure_bind, addI_of_inI (by simp only [InI, minI, maxI]; omega), pure_bind]
  · obtain ⟨m, e, heq, hm, -⟩ := roundTo113_pure (show n < 2 ^ 127 by omega) sticky
    exact ⟨m, e, heq, hm⟩

/-! ## Different signs -/

/-- How far apart the exponents are. -/
def gap (a b : Dfp) : Nat := ((largerExp a b).exponent - (smallerExp a b).exponent).toNat

/-- The larger-exponent mantissa at the smaller exponent, as the 256-bit shift
leaves it: a shift by 128 clears it. -/
def shiftedUp (m d : Nat) : Nat := if d = 128 then 0 else m * 2 ^ d % 2 ^ 256

/-- The magnitude of a difference. -/
def absDiff (x y : Nat) : Nat := if y ≤ x then x - y else y - x

theorem shl_shiftedUp {m : Nat} (hm : m < 2 ^ 128) {d : Nat} (hd : d < 256) :
    U256.shl ⟨0, m⟩ d = ⟨U256.ofNat (shiftedUp m d), decide (d = 128)⟩ := by
  unfold shiftedUp
  split
  · next h =>
    rw [h, U256.shl_128, decide_eq_true rfl]
    rfl
  · next h =>
    rw [U256.shl_eq hm hd h, decide_eq_false h]
    rfl

theorem magDiff_eq {x y : Nat} (hx : x < 2 ^ 256) (hy : y < 2 ^ 128) (sign : Bool) :
    magDiff (U256.ofNat x) ⟨0, y⟩ sign =
      pure (U256.ofNat (absDiff x y), if y ≤ x then sign else !sign) := by
  have hxf := U256.ofNat_fits hx
  have hyf : U256.Fits ⟨0, y⟩ := ⟨Nat.two_pow_pos 128, hy⟩
  have hyn : U256.toNat ⟨0, y⟩ = y := by simp [U256.toNat]
  have hlex : (0 < (U256.ofNat x).hi ∨ 0 = (U256.ofNat x).hi ∧ y ≤ (U256.ofNat x).lo) ↔ y ≤ x := by
    simp only [U256.ofNat]
    omega
  unfold magDiff absDiff
  simp only [hlex]
  split
  · next h =>
    rw [U256.sub_eq hxf hyf (by rw [hyn, U256.toNat_ofNat]; exact h), pure_bind, hyn,
      U256.toNat_ofNat]
  · next h =>
    rw [U256.sub_eq hyf hxf (by rw [hyn, U256.toNat_ofNat]; omega), pure_bind, hyn,
      U256.toNat_ofNat]

/-- The exact integer the subtraction leaves, at the smaller exponent. -/
def diffMag (a b : Dfp) : Nat :=
  absDiff (shiftedUp (largerExp a b).mantissa (gap a b)) (smallerExp a b).mantissa

/-- The sign of the larger magnitude. -/
def diffSign (a b : Dfp) : Bool :=
  if (smallerExp a b).mantissa ≤ shiftedUp (largerExp a b).mantissa (gap a b)
    then (largerExp a b).sign else !(largerExp a b).sign

theorem largerExp_wellTyped {a b : Dfp} (ha : a.WellTyped) (hb : b.WellTyped) :
    (largerExp a b).WellTyped := by
  unfold largerExp
  split
  · exact ha
  · exact hb

theorem smallerExp_wellTyped {a b : Dfp} (ha : a.WellTyped) (hb : b.WellTyped) :
    (smallerExp a b).WellTyped := by
  unfold smallerExp
  split
  · exact hb
  · exact ha

theorem smallerExp_le (a b : Dfp) : (smallerExp a b).exponent ≤ (largerExp a b).exponent := by
  unfold smallerExp largerExp
  split <;> omega

theorem absDiff_lt {x y n : Nat} (hx : x < n) (hy : y < n) : absDiff x y < n := by
  unfold absDiff
  split <;> omega

theorem shiftedUp_lt (m d : Nat) : shiftedUp m d < 2 ^ 256 := by
  unfold shiftedUp
  split
  · exact Nat.two_pow_pos 256
  · exact Nat.mod_lt _ (Nat.two_pow_pos 256)

theorem diffMag_lt {a b : Dfp} (ha : a.WellTyped) (hb : b.WellTyped) : diffMag a b < 2 ^ 256 := by
  have hsm := (smallerExp_wellTyped ha hb).1
  exact absDiff_lt (shiftedUp_lt _ _) (by omega)

theorem cutMag_eq {n : Nat} (hlt : n < 2 ^ 256) (sign : Bool) (e : Int) :
    (do
      let r ← roundU256ToCanonical (U256.ofNat n).hi (U256.ofNat n).lo
      pure ⟨sign, r.1, saturate 32 (e + r.2.1)⟩ : Tracked Parts) =
      if n = 0 then pure ⟨sign, 0, saturate 32 e⟩
      else ⟨⟨sign, oddPart 128 (n / 2 ^ (bitLen n - 113)),
        saturate 32 (e + ((bitLen n - 113 + ctz 128 (n / 2 ^ (bitLen n - 113)) : Nat) : Int))⟩,
        decide (241 ≤ bitLen n)⟩ := by
  split
  · next h0 =>
    subst h0
    simp [U256.ofNat, roundU256ToCanonical]
  · next hne =>
    obtain ⟨sticky, hround⟩ := roundU256ToCanonical_eq hne hlt
    simp only [U256.ofNat]
    rw [hround, Tracked.mk_bind, Tracked.val_pure, Tracked.ovf_pure, Bool.or_false]

/-- Above a gap of 143 the smaller operand is dropped. -/
theorem differentSignPath_far {a b : Dfp} (h : 143 < gap a b) :
    differentSignPath a b =
      pure ⟨(largerExp a b).sign, (largerExp a b).mantissa, (largerExp a b).exponent⟩ := by
  have hdiff : 143 < expDiff a b := by
    unfold gap at h
    simp only [expDiff, saturate, minI, maxI]
    omega
  unfold differentSignPath
  rw [if_pos hdiff]

/-- Up to 143 the difference is cut to 113 bits; the checked build stops at a
gap of 128 and on magnitudes of 241 bits or more. -/
theorem differentSignPath_near {a b : Dfp} (ha : a.WellTyped) (hb : b.WellTyped)
    (h : gap a b ≤ 143) :
    differentSignPath a b =
      if diffMag a b = 0 then
        ⟨⟨diffSign a b, 0, saturate 32 (smallerExp a b).exponent⟩, decide (gap a b = 128)⟩
      else
        ⟨⟨diffSign a b, oddPart 128 (diffMag a b / 2 ^ (bitLen (diffMag a b) - 113)),
          saturate 32 ((smallerExp a b).exponent + ((bitLen (diffMag a b) - 113
            + ctz 128 (diffMag a b / 2 ^ (bitLen (diffMag a b) - 113)) : Nat) : Int))⟩,
          decide (gap a b = 128) || decide (241 ≤ bitLen (diffMag a b))⟩ := by
  have hle := smallerExp_le a b
  have hbig := largerExp_wellTyped ha hb
  have hsm := smallerExp_wellTyped ha hb
  have hdiff : expDiff a b = (gap a b : Int) := by
    unfold gap at h ⊢
    simp only [expDiff, saturate, minI, maxI]
    omega
  have hsub : subI 32 (smallerExp a b).exponent a.exponent
      = pure ((smallerExp a b).exponent - a.exponent) := by
    apply subI_of_inI
    unfold gap smallerExp largerExp at h
    unfold smallerExp
    simp only [InI, minI, maxI]
    split at h <;> split <;> omega
  have hmag : magDiff (U256.ofNat (shiftedUp (largerExp a b).mantissa (gap a b)))
      ⟨0, (smallerExp a b).mantissa⟩ (largerExp a b).sign
      = pure (U256.ofNat (diffMag a b), diffSign a b) := magDiff_eq (shiftedUp_lt _ _) hsm.1 _
  unfold differentSignPath
  rw [if_neg (by omega), hsub, pure_bind, hdiff, Int.toNat_natCast,
    shl_shiftedUp hbig.1 (by omega), Tracked.mk_bind, hmag]
  simp only [pure_bind, cutMag_eq (diffMag_lt ha hb)]
  split
  · rw [Tracked.val_pure, Tracked.ovf_pure, Bool.or_false]
  · rfl

/-! ## Addition of canonical Normals -/

/-- A canonical Normal, field by field. -/
structure Dfp.CanonicalNormal (d : Dfp) : Prop where
  cls : d.cls = .normal
  odd : d.mantissa % 2 = 1
  lt : d.mantissa < 2 ^ 113
  exp_ge : dfpMinExponent ≤ d.exponent
  exp_le : d.exponent ≤ dfpMaxExponent

theorem Dfp.canonical_iff (d : Dfp) : d.Canonical ↔ d.cls = .zero ∨ d.CanonicalNormal := by
  constructor
  · rintro (h | ⟨hc, ho, hl, h1, h2⟩)
    · exact Or.inl h
    · exact Or.inr ⟨hc, ho, hl, h1, h2⟩
  · rintro (h | h)
    · exact Or.inl h
    · exact Or.inr ⟨h.cls, h.odd, h.lt, h.exp_ge, h.exp_le⟩

theorem Dfp.CanonicalNormal.wellTyped {d : Dfp} (h : d.CanonicalNormal) : d.WellTyped := by
  have h1 := h.lt
  have h2 := h.exp_ge
  have h3 := h.exp_le
  unfold dfpMinExponent at h2
  unfold dfpMaxExponent at h3
  refine ⟨by omega, ?_⟩
  simp only [InI, minI, maxI]
  omega

theorem dfpAdd_of_normal {a b : Dfp} (ha : a.cls = .normal) (hb : b.cls = .normal) :
    dfpAdd a b = (do
      let r ← (if a.sign = b.sign then sameSignPath a b else differentSignPath a b)
      finishAdd r) := by
  unfold dfpAdd
  rw [ha, hb]

section
variable {a b : Dfp} (ha : a.CanonicalNormal) (hb : b.CanonicalNormal)
include ha hb

theorem largerExp_canonical : (largerExp a b).CanonicalNormal := by
  unfold largerExp
  split
  · exact ha
  · exact hb

theorem smallerExp_canonical : (smallerExp a b).CanonicalNormal := by
  unfold smallerExp
  split
  · exact hb
  · exact ha

/-- The sum at the larger exponent: at least the unshifted mantissa, at most 114 bits. -/
theorem alignedSum_bounds :
    alignedLeft a b + alignedLeft b a ≠ 0 ∧ alignedLeft a b + alignedLeft b a < 2 ^ 114 := by
  have hao := ha.odd
  have hbo := hb.odd
  have hal : alignedLeft a b ≤ a.mantissa := Nat.div_le_self _ _
  have hbl : alignedLeft b a ≤ b.mantissa := Nat.div_le_self _ _
  have h1 := ha.lt
  have h2 := hb.lt
  refine ⟨?_, by omega⟩
  unfold alignedLeft
  rcases le_total a.exponent b.exponent with h | h
  · rw [show (a.exponent - b.exponent).toNat = 0 by omega, pow_zero, Nat.div_one]
    exact Nat.ne_of_gt (Nat.add_pos_right _ (by omega))
  · rw [show (b.exponent - a.exponent).toNat = 0 by omega, pow_zero, Nat.div_one]
    exact Nat.ne_of_gt (Nat.add_pos_left (by omega) _)

/-- **Equal signs**: the aligned sum cut to 113 bits. -/
theorem dfpAdd_same (hs : a.sign = b.sign) :
    dfpAdd a b = pure (assemble a.sign
      ((alignedLeft a b + alignedLeft b a) / 2 ^ (bitLen (alignedLeft a b + alignedLeft b a) - 113))
      ((largerExp a b).exponent + (bitLen (alignedLeft a b + alignedLeft b a) - 113 : Nat))) := by
  obtain ⟨hne, hlt⟩ := alignedSum_bounds ha hb
  obtain ⟨sticky, hpath⟩ := sameSignPath_eq ha.wellTyped hb.wellTyped
  have hexp : alignedExp a b = (largerExp a b).exponent := by
    have h1 := ha.exp_ge
    have h2 := hb.exp_le
    unfold dfpMinExponent at h1
    unfold dfpMaxExponent at h2
    unfold alignedExp largerExp
    split <;> omega
  have hbig := largerExp_canonical ha hb
  have hle := hbig.exp_le
  have hge := hbig.exp_ge
  unfold dfpMaxExponent at hle
  unfold dfpMinExponent at hge
  rw [dfpAdd_of_normal ha.cls hb.cls, if_pos hs, hpath, addU_of_lt (by omega), pure_bind,
    roundSum_of_lt hne hlt, pure_bind, pure_bind, hexp]
  generalize hn : alignedLeft a b + alignedLeft b a = n at *
  have hlen : bitLen n ≤ 114 := bitLen_le_iff.mpr hlt
  have htop := topBits_lt 113 n
  have htop0 := topBits_ne_zero (p := 113) (by decide) hne
  have hctz : ctz 128 (n / 2 ^ (bitLen n - 113)) < 128 := ctz_lt htop0 (by omega)
  have hin : InI 32 ((largerExp a b).exponent + (((bitLen n - 113 : Nat) : Int)
      + ctz 128 (n / 2 ^ (bitLen n - 113)))) := by
    simp only [InI, minI, maxI]
    omega
  rw [saturate_of_inI hin, ← Int.add_assoc]
  exact finishAdd_assemble a.sign _ htop0 (by omega)

/-- **Different signs, exponents within 143**: the difference cut to 113 bits. -/
theorem dfpAdd_near (hs : a.sign ≠ b.sign) (hgap : gap a b ≤ 143) :
    (dfpAdd a b).val = assemble (diffSign a b)
      (diffMag a b / 2 ^ (bitLen (diffMag a b) - 113))
      ((smallerExp a b).exponent + (bitLen (diffMag a b) - 113 : Nat)) := by
  have hsmall := smallerExp_canonical ha hb
  have hle := hsmall.exp_le
  have hge := hsmall.exp_ge
  unfold dfpMaxExponent at hle
  unfold dfpMinExponent at hge
  have hlt := diffMag_lt ha.wellTyped hb.wellTyped
  rw [dfpAdd_of_normal ha.cls hb.cls, if_neg hs,
    differentSignPath_near ha.wellTyped hb.wellTyped hgap]
  split
  · next h0 =>
    rw [h0, Nat.zero_div]
    rfl
  · next hne =>
    have hlen : bitLen (diffMag a b) ≤ 256 := bitLen_le_iff.mpr hlt
    have htop := topBits_lt 113 (diffMag a b)
    have htop0 := topBits_ne_zero (p := 113) (by decide) hne
    generalize diffMag a b = n at *
    have hctz : ctz 128 (n / 2 ^ (bitLen n - 113)) < 128 := ctz_lt htop0 (by omega)
    rw [Tracked.mk_bind, saturate_of_inI (by simp only [InI, minI, maxI]; omega), Nat.cast_add,
      ← Int.add_assoc, finishAdd_assemble _ _ htop0 (by omega), Tracked.val_pure]

/-- **Different signs, exponents further apart**: the larger operand. -/
theorem dfpAdd_far (hs : a.sign ≠ b.sign) (hgap : 143 < gap a b) :
    dfpAdd a b = pure (assemble (largerExp a b).sign (largerExp a b).mantissa
      (largerExp a b).exponent) := by
  have hbig := largerExp_canonical ha hb
  have hodd := hbig.odd
  have hlt := hbig.lt
  have hfin := finishAdd_assemble (n := (largerExp a b).mantissa) (largerExp a b).sign
    (largerExp a b).exponent (by omega) (by omega)
  rw [oddPart_of_odd hodd, ctz_eq_zero_of_odd hodd, Nat.cast_zero, Int.add_zero] at hfin
  rw [dfpAdd_of_normal ha.cls hb.cls, if_neg hs, differentSignPath_far hgap, pure_bind, hfin]

/-- Addition never leaves the canonical domain. -/
theorem dfpAdd_normal_canonical : (dfpAdd a b).val.Canonical := by
  have hbig := (largerExp_canonical ha hb)
  have hsmall := (smallerExp_canonical ha hb)
  by_cases hs : a.sign = b.sign
  · rw [dfpAdd_same ha hb hs, Tracked.val_pure, assemble_canonical_iff (topBits_lt 113 _)]
    have hge := hbig.exp_ge
    exact Or.inr (by omega)
  · rcases Nat.lt_or_ge 143 (gap a b) with hgap | hgap
    · rw [dfpAdd_far ha hb hs hgap, Tracked.val_pure, assemble_canonical_iff hbig.lt]
      have hge := hbig.exp_ge
      exact Or.inr (by omega)
    · rw [dfpAdd_near ha hb hs hgap, assemble_canonical_iff (topBits_lt 113 _)]
      have hge := hsmall.exp_ge
      exact Or.inr (by omega)

end

/-- A Zero operand hands back the other one. -/
theorem dfpAdd_zero {a b : Dfp} (ha : a.Canonical) (hb : b.Canonical)
    (hz : a.cls = .zero ∨ b.cls = .zero) :
    ∃ r, dfpAdd a b = pure r ∧ r.Canonical ∧ r.value = a.value + b.value := by
  unfold dfpAdd
  rcases (Dfp.canonical_iff a).mp ha with hac | hac <;>
    rcases (Dfp.canonical_iff b).mp hb with hbc | hbc
  · rw [hac, hbc]
    refine ⟨_, rfl, Or.inl (signedZero_cls _), ?_⟩
    rw [Dfp.value_zero (signedZero_cls _), Dfp.value_zero hac, Dfp.value_zero hbc, add_zero]
  · rw [hac, hbc.cls]
    exact ⟨b, rfl, hb, by rw [Dfp.value_zero hac, zero_add]⟩
  · rw [hac.cls, hbc]
    exact ⟨a, rfl, ha, by rw [Dfp.value_zero hbc, add_zero]⟩
  · rw [hac.cls, hbc.cls] at hz
    rcases hz with h | h <;> cases h

theorem dfpAdd_canonical {a b : Dfp} (ha : a.Canonical) (hb : b.Canonical) :
    (dfpAdd a b).val.Canonical := by
  rcases (Dfp.canonical_iff a).mp ha with hac | hac
  · obtain ⟨r, heq, hr, -⟩ := dfpAdd_zero ha hb (Or.inl hac)
    rwa [heq]
  rcases (Dfp.canonical_iff b).mp hb with hbc | hbc
  · obtain ⟨r, heq, hr, -⟩ := dfpAdd_zero ha hb (Or.inr hbc)
    rwa [heq]
  · exact dfpAdd_normal_canonical hac hbc

/-- The operand `dfp_sub` passes on. -/
def Dfp.flip (d : Dfp) : Dfp := { d with sign := !d.sign }

theorem dfpSub_eq (a b : Dfp) : dfpSub a b = dfpAdd a b.flip := rfl

theorem Dfp.flip_canonical {d : Dfp} (h : d.Canonical) : d.flip.Canonical := h

theorem Dfp.flip_wellTyped {d : Dfp} (h : d.WellTyped) : d.flip.WellTyped := h

theorem Dfp.flip_value (d : Dfp) : d.flip.value = -d.value := by
  unfold Dfp.value Dfp.flip
  cases d.cls <;> cases d.sign <;> simp

end CipherOcto.Determin
