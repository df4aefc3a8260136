import CipherOcto.Determin.ScaledOps

/-!
# Closure of the canonical domain

Addition, subtraction and square root map canonical operands to canonical
results. Multiplication and division check the exponent against its maximum
only: a result below `2^-1074` is neither flushed to zero nor rejected, it is a
Normal whose exponent has left the range. They stay inside exactly when the
113-bit result is a multiple of `2^-1074` (`MulInRange`, `DivInRange`).

`Chain` builds values by any number of operations; one step lemma per operation
and an induction give the whole-run statement.
-/

namespace CipherOcto.Determin

open Machine

/-- `n` with everything below its top 113 bits cleared. -/
def cut113 (n : Nat) : Nat := n / 2 ^ (bitLen n - 113) * 2 ^ (bitLen n - 113)

/-- The cut product is a multiple of the smallest unit. -/
def MulInRange (a b : Dfp) : Prop :=
  a.cls = .normal → b.cls = .normal →
    2 ^ (dfpMinExponent - (a.exponent + b.exponent)).toNat
      ∣ cut113 (storedProduct a.mantissa b.mantissa)

/-- The cut quotient is a multiple of the smallest unit. -/
def DivInRange (a b : Dfp) : Prop :=
  a.cls = .normal → b.cls = .normal →
    2 ^ (dfpMinExponent - (a.exponent - b.exponent
        + ((divScale a.mantissa b.mantissa : Int) - 128))).toNat
      ∣ cut113 (strictQuotient a.mantissa b.mantissa)

/-- A Normal result is in the canonical domain. -/
def StaysCanonical (r : Dfp) : Prop := r.cls = .normal → r.Canonical

theorem assemble_cls (sign : Bool) (n : Nat) (e : Int) :
    (assemble sign n e).cls = .zero ∨ (assemble sign n e).cls = .normal := by
  unfold assemble
  split
  · exact Or.inl (signedZero_cls sign)
  split
  · right; cases sign <;> rfl
  · exact Or.inr rfl

theorem saturated_cls (sign : Bool) : (saturated sign).cls = .normal := by
  cases sign <;> rfl

theorem staysCanonical_iff {r : Dfp} (h : r.cls = .zero ∨ r.cls = .normal) :
    StaysCanonical r ↔ r.Canonical := by
  constructor
  · intro hs
    rcases h with hc | hc
    · exact Or.inl hc
    · exact hs hc
  · exact fun hc _ => hc

/-- A cut magnitude at exponent `e` is canonical iff it is a multiple of `2^-1074`. -/
theorem assemble_cut_canonical_iff (sign : Bool) (n : Nat) (e : Int) :
    (assemble sign (n / 2 ^ (bitLen n - 113)) (e + (bitLen n - 113 : Nat))).Canonical ↔
      2 ^ (dfpMinExponent - e).toNat ∣ cut113 n := by
  have htop := topBits_lt 113 n
  rw [assemble_canonical_iff htop, cut113]
  by_cases h0 : n / 2 ^ (bitLen n - 113) = 0
  · rw [h0, Nat.zero_mul]
    exact iff_of_true (Or.inl rfl) (dvd_zero _)
  · rw [two_pow_dvd_shifted_iff (w := 128) h0 (by omega)]
    simp only [h0, false_or]
    omega

/-! ## One step -/

section
variable {a b : Dfp} (ha : a.Canonical) (hb : b.Canonical)
include ha hb

theorem dfpMul_of_zero (hz : a.cls = .zero ∨ b.cls = .zero) :
    dfpMul a b = pure (Dfp.signedZero (a.sign ^^ b.sign)) := by
  unfold dfpMul
  rcases (Dfp.canonical_iff a).mp ha with hac | hac <;>
    rcases (Dfp.canonical_iff b).mp hb with hbc | hbc
  · rw [hac, hbc]
  · rw [hac, hbc.cls]
  · rw [hac.cls, hbc]
  · rw [hac.cls, hbc.cls] at hz
    rcases hz with h | h <;> cases h

/-- Division with a Zero operand: zero over a Normal, `±DFP_MAX` over a Zero. -/
theorem dfpDiv_of_zero (hz : a.cls = .zero ∨ b.cls = .zero) :
    dfpDiv a b = pure (if b.cls = .zero then saturated (a.sign ^^ b.sign)
      else Dfp.signedZero (a.sign ^^ b.sign)) := by
  unfold dfpDiv
  rcases (Dfp.canonical_iff a).mp ha with hac | hac <;>
    rcases (Dfp.canonical_iff b).mp hb with hbc | hbc
  · rw [hac, hbc, if_pos rfl]
  · rw [hac, hbc.cls, if_neg (by decide)]
  · rw [hac.cls, hbc, if_pos rfl]
  · rw [hac.cls, hbc.cls] at hz
    rcases hz with h | h <;> cases h

/-- Multiplication is finite, and canonical exactly when it does not underflow. -/
theorem dfpMul_canonical_iff :
    ((dfpMul a b).val.cls = .zero ∨ (dfpMul a b).val.cls = .normal) ∧
      ((dfpMul a b).val.Canonical ↔ MulInRange a b) := by
  by_cases hz : a.cls = .zero ∨ b.cls = .zero
  · rw [dfpMul_of_zero ha hb hz, Tracked.val_pure]
    have hcls := signedZero_cls (a.sign ^^ b.sign)
    refine ⟨Or.inl hcls, iff_of_true (Or.inl hcls) (fun hac hbc => ?_)⟩
    rw [hac, hbc] at hz
    rcases hz with h | h <;> cases h
  · rw [not_or] at hz
    have hac := ((Dfp.canonical_iff a).mp ha).resolve_left hz.1
    have hbc := ((Dfp.canonical_iff b).mp hb).resolve_left hz.2
    rw [dfpMul_normal hac hbc, Tracked.val_pure, assemble_cut_canonical_iff]
    refine ⟨assemble_cls _ _ _, ?_⟩
    simp only [MulInRange, hac.cls, hbc.cls, true_imp_iff]

/-- So is division. -/
theorem dfpDiv_canonical_iff :
    ((dfpDiv a b).val.cls = .zero ∨ (dfpDiv a b).val.cls = .normal) ∧
      ((dfpDiv a b).val.Canonical ↔ DivInRange a b) := by
  by_cases hz : a.cls = .zero ∨ b.cls = .zero
  · have hrange : DivInRange a b := fun hac hbc => by
      rw [hac, hbc] at hz
      rcases hz with h | h <;> cases h
    rw [dfpDiv_of_zero ha hb hz, Tracked.val_pure]
    split
    · exact ⟨Or.inr (saturated_cls _), iff_of_true (saturated_canonical _) hrange⟩
    · exact ⟨Or.inl (signedZero_cls _), iff_of_true (Or.inl (signedZero_cls _)) hrange⟩
  · rw [not_or] at hz
    have hac := ((Dfp.canonical_iff a).mp ha).resolve_left hz.1
    have hbc := ((Dfp.canonical_iff b).mp hb).resolve_left hz.2
    rw [dfpDiv_normal hac hbc, Tracked.val_pure, assemble_cut_canonical_iff]
    refine ⟨assemble_cls _ _ _, ?_⟩
    simp only [DivInRange, hac.cls, hbc.cls, true_imp_iff]

end

theorem dfpSub_canonical {a b : Dfp} (ha : a.Canonical) (hb : b.Canonical) :
    (dfpSub a b).val.Canonical := by
  rw [dfpSub_eq]
  exact dfpAdd_canonical ha (Dfp.flip_canonical hb)

/-- A square root is canonical, or NaN for a negative operand. -/
theorem dfpSqrt_canonical {a : Dfp} (ha : a.Canonical) :
    (dfpSqrt a).val.Canonical ∨ (dfpSqrt a).val = Dfp.nan := by
  unfold dfpSqrt
  rcases (Dfp.canonical_iff a).mp ha with hac | hac
  · rw [hac]
    exact Or.inl (Or.inl rfl)
  rw [hac.cls]
  dsimp only
  split
  · exact Or.inr rfl
  left
  obtain ⟨-, n, hlt, hval⟩ := sqrtNormal_eq hac.wellTyped
  have hge := hac.exp_ge
  have hle := hac.exp_le
  unfold dfpMinExponent at hge
  unfold dfpMaxExponent at hle
  rw [hval]
  split
  · exact Or.inl rfl
  · next hne =>
    have hctz : ctz 128 n < 113 := by
      have hdvd := Nat.le_of_dvd (Nat.pos_of_ne_zero hne) (two_pow_ctz_dvd 128 n)
      exact (Nat.pow_lt_pow_iff_right Nat.one_lt_two).mp (lt_of_le_of_lt hdvd hlt)
    rw [saturate_of_inI (by simp only [InI, minI, maxI]; omega)]
    refine Or.inr ⟨rfl, oddPart_odd hne (by omega), lt_of_le_of_lt (oddPart_le _ _) hlt, ?_, ?_⟩
    · simp only [dfpMinExponent]
      omega
    · simp only [dfpMaxExponent]
      omega

/-! ## Whole chains -/

/-- Values reached from `S` by finitely many operations whose products and
quotients do not underflow. -/
inductive Chain (S : Dfp → Prop) : Dfp → Prop
  | operand {d : Dfp} : S d → Chain S d
  | add {a b : Dfp} : Chain S a → Chain S b → Chain S (dfpAdd a b).val
  | sub {a b : Dfp} : Chain S a → Chain S b → Chain S (dfpSub a b).val
  | mul {a b : Dfp} : Chain S a → Chain S b → MulInRange a b → Chain S (dfpMul a b).val
  | div {a b : Dfp} : Chain S a → Chain S b → DivInRange a b → Chain S (dfpDiv a b).val
  | sqrt {a : Dfp} : Chain S a → Chain S (dfpSqrt a).val

/-- What every operation preserves. -/
def CanonicalOrNan (d : Dfp) : Prop := d.Canonical ∨ d = Dfp.nan

theorem CanonicalOrNan.stays {d : Dfp} (h : CanonicalOrNan d) : StaysCanonical d := by
  intro hc
  rcases h with h | rfl
  · exact h
  · cases hc

/-- NaN absorbs in every binary operation. -/
theorem nan_absorbs {a b : Dfp} (h : a = Dfp.nan ∨ b = Dfp.nan) :
    dfpAdd a b = pure Dfp.nan ∧ dfpSub a b = pure Dfp.nan ∧ dfpMul a b = pure Dfp.nan ∧
      dfpDiv a b = pure Dfp.nan := by
  have hcls : a.cls = .nan ∨ b.cls = .nan := h.imp (fun h => by rw [h]; rfl) (fun h => by rw [h]; rfl)
  unfold dfpSub dfpAdd dfpMul dfpDiv
  rcases hcls with hc | hc
  · rw [hc]
    exact ⟨rfl, rfl, rfl, rfl⟩
  · rw [hc]
    cases a.cls <;> exact ⟨rfl, rfl, rfl, rfl⟩

/-- A binary operation preserves the invariant once it does so on canonical operands. -/
theorem canonicalOrNan_of_binary {a b r : Dfp} (ha : CanonicalOrNan a) (hb : CanonicalOrNan b)
    (hnan : a = Dfp.nan ∨ b = Dfp.nan → r = Dfp.nan)
    (hcan : a.Canonical → b.Canonical → CanonicalOrNan r) : CanonicalOrNan r := by
  rcases ha with ha | ha
  · rcases hb with hb | hb
    · exact hcan ha hb
    · exact Or.inr (hnan (Or.inr hb))
  · exact Or.inr (hnan (Or.inl ha))

theorem chain_canonicalOrNan {S : Dfp → Prop} (hS : ∀ d, S d → d.Canonical) {d : Dfp}
    (h : Chain S d) : CanonicalOrNan d := by
  induction h with
  | operand h => exact Or.inl (hS _ h)
  | add _ _ iha ihb =>
    exact canonicalOrNan_of_binary iha ihb (fun h => by rw [(nan_absorbs h).1]; rfl)
      (fun ha hb => Or.inl (dfpAdd_canonical ha hb))
  | sub _ _ iha ihb =>
    exact canonicalOrNan_of_binary iha ihb (fun h => by rw [(nan_absorbs h).2.1]; rfl)
      (fun ha hb => Or.inl (dfpSub_canonical ha hb))
  | mul _ _ hr iha ihb =>
    exact canonicalOrNan_of_binary iha ihb (fun h => by rw [(nan_absorbs h).2.2.1]; rfl)
      (fun ha hb => Or.inl ((dfpMul_canonical_iff ha hb).2.mpr hr))
  | div _ _ hr iha ihb =>
    exact canonicalOrNan_of_binary iha ihb (fun h => by rw [(nan_absorbs h).2.2.2]; rfl)
      (fun ha hb => Or.inl ((dfpDiv_canonical_iff ha hb).2.mpr hr))
  | sqrt _ ih =>
    rcases ih with ih | rfl
    · exact dfpSqrt_canonical ih
    · exact Or.inr rfl

/-- **Closure.** Addition, subtraction and square root keep the canonical
domain; multiplication and division keep it exactly when the result is a
multiple of `2^-1074`; and so does any chain whose products and quotients are. -/
theorem canonical_closure {a b : Dfp} (ha : a.Canonical) (hb : b.Canonical) :
    StaysCanonical (dfpAdd a b).val ∧ StaysCanonical (dfpSub a b).val ∧
      StaysCanonical (dfpSqrt a).val ∧
      (StaysCanonical (dfpMul a b).val ↔ MulInRange a b) ∧
      (StaysCanonical (dfpDiv a b).val ↔ DivInRange a b) ∧
      ∀ S : Dfp → Prop, (∀ d, S d → d.Canonical) → ∀ d, Chain S d → StaysCanonical d := by
  obtain ⟨hmul, hmuliff⟩ := dfpMul_canonical_iff ha hb
  obtain ⟨hdiv, hdiviff⟩ := dfpDiv_canonical_iff ha hb
  refine ⟨fun _ => dfpAdd_canonical ha hb, fun _ => dfpSub_canonical ha hb,
    CanonicalOrNan.stays (dfpSqrt_canonical ha), ?_, ?_, ?_⟩
  · rw [staysCanonical_iff hmul, hmuliff]
  · rw [staysCanonical_iff hdiv, hdiviff]
  · intro S hS d h
    exact (chain_canonicalOrNan hS h).stays

/-- One half squared: a chain of one in-range step. -/
theorem canonical_closure_half :
    (StaysCanonical (dfpMul ⟨1, -1, .normal, false⟩ ⟨1, -1, .normal, false⟩).val ↔
        MulInRange ⟨1, -1, .normal, false⟩ ⟨1, -1, .normal, false⟩) ∧
      StaysCanonical (dfpMul ⟨1, -1, .normal, false⟩ ⟨1, -1, .normal, false⟩).val := by
  have hhalf : Dfp.Canonical ⟨1, -1, .normal, false⟩ := by decide
  obtain ⟨-, -, -, hmul, -, hchain⟩ := canonical_closure hhalf hhalf
  have hrange : MulInRange ⟨1, -1, .normal, false⟩ ⟨1, -1, .normal, false⟩ := fun _ _ => by decide
  refine ⟨hmul, hchain (fun d => d = ⟨1, -1, .normal, false⟩) ?_ _
    (Chain.mul (Chain.operand rfl) (Chain.operand rfl) hrange)⟩
  intro d hd
  rw [hd]
  exact hhalf

/-- `2^-600` squared is a Normal with exponent `-1200`. -/
theorem square_underflows :
    ¬ ∀ a b : Dfp, a.Canonical → b.Canonical → StaysCanonical (dfpMul a b).val := by
  intro h
  have hcan := h ⟨1, -600, .normal, false⟩ ⟨1, -600, .normal, false⟩ (by decide) (by decide)
    (by decide)
  exact absurd hcan (by decide)

end CipherOcto.Determin
