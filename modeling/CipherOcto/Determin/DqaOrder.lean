import CipherOcto.Determin.DqaWire

/-!
# Comparing a `Dqa`, and comparing its bytes

`dqa_cmp` canonicalises both operands and compares the numerators at the larger
scale, in `i128`. It is the order of the numbers, and it agrees with the Borsh
bytes: the writer canonicalises too, so equal numbers have equal bytes.

The reader does not. `to_dqa` checks the scale and the reserved bytes, and
takes any numerator, so bytes that no writer produces are accepted and come
back as other bytes.

> `dqaCmp_eq`: the comparison is the sign of the difference.
> `borshSerialize_eq_iff_val`: equal bytes, equal numbers.
> `wire_unique_iff`: accepted bytes are written back unless they hold a
> numerator with a zero to strip.
-/

namespace CipherOcto.Determin

open Machine

/-! ## The comparison -/

theorem threeWay_eq_sign {x y : Int} {p q : ℚ} (hle : x ≤ y ↔ p ≤ q) (hge : y ≤ x ↔ q ≤ p) :
    threeWay x y = (SignType.sign (p - q) : Int) := by
  unfold threeWay
  rcases lt_trichotomy x y with h | h | h
  · have hlt : p < q := lt_of_not_ge fun hqp => absurd (hge.mpr hqp) (not_le.mpr h)
    rw [if_pos h, sign_neg (sub_neg.mpr hlt)]
    rfl
  · have heq : p = q := le_antisymm (hle.mp h.le) (hge.mp h.ge)
    rw [if_neg (by omega), if_neg (by omega), heq, sub_self, sign_zero]
    rfl
  · have hlt : q < p := lt_of_not_ge fun hpq => absurd (hle.mpr hpq) (not_le.mpr h)
    rw [if_neg (by omega), if_pos h, sign_pos (sub_pos.mpr hlt)]
    rfl

/-- The power between the canonical scales is in the table. -/
def Dqa.Comparable (a b : Dqa) : Prop :=
  ((a.canonicalize.scale : Int) - b.canonicalize.scale).natAbs ≤ 36

theorem Dqa.comparable_of_scale_le {a b : Dqa} (ha : a.scale ≤ 18) (hb : b.scale ≤ 18) :
    a.Comparable b := by
  have hca := a.canonicalize_scale_le
  have hcb := b.canonicalize_scale_le
  unfold Comparable
  omega

/-- **The comparison is the order of the numbers**, as far as the table goes. -/
theorem dqaCmp_of_comparable {a b : Dqa} (hnear : a.Comparable b) :
    dqaCmp a b = .ok (SignType.sign (a.val - b.val) : Int) := by
  unfold Dqa.Comparable at hnear
  rw [← a.val_canonicalize, ← b.val_canonicalize]
  have hle := Scaled.val_le_iff_aligned a.canonicalize.value b.canonicalize.value
    a.canonicalize.scale b.canonicalize.scale
  have hge := Scaled.val_le_iff_aligned b.canonicalize.value a.canonicalize.value
    b.canonicalize.scale a.canonicalize.scale
  unfold dqaCmp
  rcases lt_trichotomy a.canonicalize.scale b.canonicalize.scale with h | h | h
  · rw [Nat.sub_eq_zero_of_le h.le, pow_zero, mul_one] at hle hge
    dsimp only
    rw [if_neg h.ne, index_pow10 (by omega), ok_bind, if_neg (by omega),
      show ((a.canonicalize.scale : Int) - b.canonicalize.scale).natAbs
        = b.canonicalize.scale - a.canonicalize.scale by omega]
    exact congrArg _ (threeWay_eq_sign hle.symm hge.symm)
  · rw [Nat.sub_eq_zero_of_le h.le, Nat.sub_eq_zero_of_le h.ge, pow_zero, mul_one,
      mul_one] at hle hge
    dsimp only
    rw [if_pos h]
    exact congrArg _ (threeWay_eq_sign hle.symm hge.symm)
  · rw [Nat.sub_eq_zero_of_le h.le, pow_zero, mul_one] at hle hge
    dsimp only
    rw [if_neg h.ne', index_pow10 (by omega), ok_bind, if_pos h,
      show ((a.canonicalize.scale : Int) - b.canonicalize.scale).natAbs
        = a.canonicalize.scale - b.canonicalize.scale by omega]
    exact congrArg _ (threeWay_eq_sign hle.symm hge.symm)

theorem dqaCmp_eq {a b : Dqa} (ha : a.scale ≤ 18) (hb : b.scale ≤ 18) :
    dqaCmp a b = .ok (SignType.sign (a.val - b.val) : Int) :=
  dqaCmp_of_comparable (Dqa.comparable_of_scale_le ha hb)

theorem dqaCmp_of_not_comparable {a b : Dqa} (hfar : ¬a.Comparable b) :
    dqaCmp a b = .error .panic := by
  unfold Dqa.Comparable at hfar
  have hne : a.canonicalize.scale ≠ b.canonicalize.scale := by omega
  unfold dqaCmp
  dsimp only
  rw [if_neg hne, index_pow10_panic (by omega)]
  rfl

theorem dqaCmp_eq_zero_iff {a b : Dqa} (ha : a.scale ≤ 18) (hb : b.scale ≤ 18) :
    dqaCmp a b = .ok 0 ↔ a.val = b.val := by
  have hsign : ∀ s : SignType, (s : Int) = 0 ↔ s = 0 := by decide
  rw [dqaCmp_eq ha hb, Except.ok.injEq, hsign, sign_eq_zero_iff, sub_eq_zero]

/-! ## The bytes -/

theorem i64ToBeBytes_fromBeBytes {bytes : List UInt8} (h : bytes.length = 8) :
    i64ToBeBytes (i64FromBeBytes bytes) = bytes := by
  have hlt := Bytes.beNat_lt bytes
  have hback := Bytes.toBe_beNat bytes
  rw [h] at hlt hback
  unfold i64ToBeBytes i64FromBeBytes
  rw [Bytes.unsigned_signed hlt, hback]

namespace Dqa

theorem canonicalize_eq_of_val_eq {a b : Dqa} (h : a.val = b.val) :
    a.canonicalize = b.canonicalize := by
  have hcanon := Scaled.canon_eq_of_val_eq h
  exact Dqa.ext (congrArg Prod.fst hcanon) (congrArg Prod.snd hcanon)

theorem borshSerialize_eq_iff_val (host : Bytes.Endian) {a b : Dqa} (ha : a.scale ≤ 18)
    (hb : b.scale ≤ 18) : a.borshSerialize host = b.borshSerialize host ↔ a.val = b.val := by
  constructor
  · intro h
    have hread := borsh_roundTrip host ha []
    rw [h, borsh_roundTrip host hb] at hread
    have hcanon : b.canonicalize = a.canonicalize := congrArg Prod.fst (Except.ok.inj hread)
    rw [← a.val_canonicalize, ← hcanon, b.val_canonicalize]
  · intro h
    rw [borshSerialize_eq, borshSerialize_eq, canonicalize_eq_of_val_eq h]

/-- What the reader makes of sixteen bytes: it looks at the scale and the
reserved bytes, and takes any numerator. -/
theorem borshDeserialize_sixteen (host : Bytes.Endian) {x : List UInt8} (hx : x.length = 16) :
    borshDeserialize host x =
      if (x.getD 8 0).toNat > maxScale then .error (.err (.invalidData .invalidScale))
      else if (x.drop 9).any (· != 0) then .error (.err (.invalidData .invalidEncoding))
      else .ok (⟨Bytes.hostToBe host 8 (i64FromBeBytes (x.take 8)), (x.getD 8 0).toNat,
        hostToBe_inI (i64FromBeBytes_inI _), UInt8.toNat_lt _⟩, []) := by
  have hreserved : (x.drop 9).take 7 = x.drop 9 :=
    List.take_of_length_le (by rw [List.length_drop, hx])
  have hrest : x.drop 16 = [] := List.drop_eq_nil_of_le hx.le
  unfold borshDeserialize DqaEncoding.borshDeserialize DqaEncoding.toDqa
  rw [dif_pos hx.ge, ok_bind]
  simp only [hreserved, hrest]
  split
  · rfl
  split
  · rfl
  · rfl

theorem borshDeserialize_eq_ok {host : Bytes.Endian} {x : List UInt8} (hx : x.length = 16)
    {d : Dqa} {rest : List UInt8} :
    borshDeserialize host x = .ok (d, rest) ↔
      ((x.getD 8 0).toNat ≤ 18 ∧ ∀ r ∈ x.drop 9, r = 0) ∧
        d.value = Bytes.hostToBe host 8 (i64FromBeBytes (x.take 8)) ∧
        d.scale = (x.getD 8 0).toNat ∧ rest = [] := by
  have hreserved : ¬ (x.drop 9).any (· != 0) = true ↔ ∀ r ∈ x.drop 9, r = 0 := by simp
  rw [borshDeserialize_sixteen host hx, ite_error_eq_ok, ite_error_eq_ok, hreserved, ← and_assoc,
    Except.ok.injEq, Prod.mk.injEq]
  refine and_congr (and_congr_left' not_lt) ?_
  constructor
  · intro h
    obtain ⟨rfl, rfl⟩ := h
    exact ⟨rfl, rfl, rfl⟩
  · intro h
    obtain ⟨hvalue, hscale, rfl⟩ := h
    exact ⟨(Dqa.ext hvalue hscale).symm, rfl⟩

theorem canonicalize_of_canonical {d : Dqa} (h : d.Canonical) : d.canonicalize = d := by
  have hcanon := Scaled.canon_of_canonical h
  exact Dqa.ext (congrArg Prod.fst hcanon) (congrArg Prod.snd hcanon)

/-- Accepted bytes in canonical form are written back. -/
theorem borshSerialize_of_canonical {host : Bytes.Endian} {x : List UInt8} (hx : x.length = 16)
    {d : Dqa} {rest : List UInt8} (h : borshDeserialize host x = .ok (d, rest))
    (hcanon : d.Canonical) : d.borshSerialize host = x := by
  obtain ⟨⟨-, hreserved⟩, hvalue, hscale, -⟩ := (borshDeserialize_eq_ok hx).mp h
  have htake : (x.take 8).length = 8 := by rw [List.length_take, hx]; rfl
  have hzeros : x.drop 9 = List.replicate 7 0 := by
    rw [List.eq_replicate_iff, List.length_drop, hx]
    exact ⟨rfl, hreserved⟩
  have hbyte : x.drop 8 = x.getD 8 0 :: x.drop 9 := by
    rw [List.drop_eq_getElem_cons (by omega), List.getD_eq_getElem _ _ (by omega)]
  rw [borshSerialize_eq, canonicalize_of_canonical hcanon, hvalue,
    hostToBe_hostToBe (i64FromBeBytes_inI _), i64ToBeBytes_fromBeBytes htake, hscale,
    UInt8.ofNat_toNat, ← hzeros, List.append_assoc, List.singleton_append, ← hbyte,
    List.take_append_drop]

end Dqa

/-- Comparison and bytes of two records, and what a host makes of sixteen
bytes. -/
structure WireUnique (host : Bytes.Endian) (a b : Dqa) (x : List UInt8) : Prop where
  cmp : dqaCmp a b = .ok (SignType.sign (a.val - b.val) : Int)
  equal : dqaCmp a b = .ok 0 ↔ a.borshSerialize host = b.borshSerialize host
  rewritten : ∀ d rest, Dqa.borshDeserialize host x = .ok (d, rest) → d.borshSerialize host = x

/-- Sixteen bytes whose numerator has no zero to strip, if they are accepted. -/
def CanonicalIfAccepted (host : Bytes.Endian) (x : List UInt8) : Prop :=
  (x.getD 8 0).toNat ≤ 18 → (∀ r ∈ x.drop 9, r = 0) →
    Scaled.Canonical (Bytes.hostToBe host 8 (i64FromBeBytes (x.take 8))) (x.getD 8 0).toNat

/-- Reading and writing back gives the canonical record. -/
theorem rewritten_iff {host : Bytes.Endian} {x : List UInt8} (hx : x.length = 16) :
    (∀ d rest, Dqa.borshDeserialize host x = .ok (d, rest) → d.borshSerialize host = x) ↔
      CanonicalIfAccepted host x := by
  constructor
  · intro h hscale hreserved
    obtain ⟨d, hd⟩ : ∃ d : Dqa,
        d.value = Bytes.hostToBe host 8 (i64FromBeBytes (x.take 8)) ∧
          d.scale = (x.getD 8 0).toNat :=
      ⟨⟨_, _, hostToBe_inI (i64FromBeBytes_inI _), UInt8.toNat_lt _⟩, rfl, rfl⟩
    have hread := (Dqa.borshDeserialize_eq_ok hx).mpr ⟨⟨hscale, hreserved⟩, hd.1, hd.2, rfl⟩
    have hback := Dqa.borsh_roundTrip host (d := d) (by omega) []
    rw [h d [] hread, List.append_nil, hread] at hback
    have hcanon : d = d.canonicalize := congrArg Prod.fst (Except.ok.inj hback)
    rw [← hd.1, ← hd.2]
    have hcanonical := d.canonicalize_canonical
    rwa [← hcanon] at hcanonical
  · intro h d rest hread
    obtain ⟨⟨hscale, hreserved⟩, hvalue, hscale', -⟩ := (Dqa.borshDeserialize_eq_ok hx).mp hread
    refine Dqa.borshSerialize_of_canonical hx hread ?_
    unfold Dqa.Canonical
    rw [hvalue, hscale']
    exact h hscale hreserved

/-- **When equal numbers have one encoding.** -/
theorem wire_unique_iff (host : Bytes.Endian) {a b : Dqa} (ha : a.scale ≤ 18) (hb : b.scale ≤ 18)
    {x : List UInt8} (hx : x.length = 16) :
    WireUnique host a b x ↔ CanonicalIfAccepted host x := by
  rw [← rewritten_iff hx]
  constructor
  · intro h
    exact h.rewritten
  · intro h
    refine ⟨dqaCmp_eq ha hb, ?_, h⟩
    rw [dqaCmp_eq_zero_iff ha hb, Dqa.borshSerialize_eq_iff_val host ha hb]

/-- Three halves, the same with a zero, and the bytes of the first. -/
theorem wire_unique_three_halves :
    let a : Dqa := ⟨15, 1, by decide, by decide⟩
    let b : Dqa := ⟨150, 2, by decide, by decide⟩
    WireUnique .little a b [15, 0, 0, 0, 0, 0, 0, 0, 1, 0, 0, 0, 0, 0, 0, 0] := by
  intro a b
  refine (wire_unique_iff .little (by decide) (by decide) rfl).mpr fun _ _ => ?_
  decide +kernel

/-- The bytes of ten tenths are accepted, and written back as those of one. -/
theorem ten_tenths_rewritten :
    ∃ d : Dqa, Dqa.borshDeserialize .little [10, 0, 0, 0, 0, 0, 0, 0, 1, 0, 0, 0, 0, 0, 0, 0]
        = .ok (d, []) ∧
      d.borshSerialize .little = [1, 0, 0, 0, 0, 0, 0, 0, 0, 0, 0, 0, 0, 0, 0, 0] ∧
      ∀ a b, ¬ WireUnique .little a b [10, 0, 0, 0, 0, 0, 0, 0, 1, 0, 0, 0, 0, 0, 0, 0] := by
  have hread : Dqa.borshDeserialize .little [10, 0, 0, 0, 0, 0, 0, 0, 1, 0, 0, 0, 0, 0, 0, 0]
      = .ok (⟨10, 1, by decide, by decide⟩, []) := by decide +kernel
  have hwrite : Dqa.borshSerialize .little ⟨10, 1, by decide, by decide⟩
      = [1, 0, 0, 0, 0, 0, 0, 0, 0, 0, 0, 0, 0, 0, 0, 0] := by decide +kernel
  refine ⟨_, hread, hwrite, fun a b h => ?_⟩
  have hsame := h.rewritten _ _ hread
  rw [hwrite] at hsame
  exact absurd hsame (by decide)

end CipherOcto.Determin
