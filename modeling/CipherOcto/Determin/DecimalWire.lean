import CipherOcto.Determin.DecimalInternal

/-!
# The bytes of a `Decimal`

Twenty-four bytes: a version, the scale between reserved zeros, and the mantissa
in big-endian two's complement. The writer writes what it is given. The reader
is to take canonical forms only, and counts the mantissa's trailing zeros for
it, but compares the count with the scale: a count of at least the scale is
rejected, which takes every integer with it, and a smaller one passes, although
those zeros could be stripped. `Decimal::new` strips them afterwards, so such
bytes come back as other bytes.

> `decimalFromBytes_eq_ok`: what the reader accepts, and what it makes of it.
> `decimal_wire_iff`: reading and writing are inverse except at integers and at
> accepted mantissas with a zero to strip.
-/

namespace CipherOcto.Determin

open Machine

/-- `decimal_to_bytes`. -/
def decimalToBytes (d : Decimal) : List UInt8 :=
  [1, 0, 0, 0, UInt8.ofNat d.scale, 0, 0, 0] ++ Bytes.toBe 16 (Bytes.unsigned 128 d.mantissa)

/-! ## The fields -/

/-- The version and the reserved bytes. -/
structure WireHeader (bytes : List UInt8) : Prop where
  version : bytes.getD 0 0 = 1
  reserved : ¬ wireReservedSet bytes

theorem length_decimalToBytes (d : Decimal) : (decimalToBytes d).length = 24 := by
  unfold decimalToBytes
  rw [List.length_append, Bytes.length_toBe]
  rfl

theorem wireHeader_decimalToBytes (d : Decimal) : WireHeader (decimalToBytes d) := by
  refine ⟨rfl, ?_⟩
  rintro (h | h | h)
  · exact h rfl
  · exact h rfl
  · exact h rfl

theorem wireScale_decimalToBytes {d : Decimal} (h : d.scale < 256) :
    wireScale (decimalToBytes d) = d.scale :=
  UInt8.toNat_ofNat_of_lt' h

theorem wireMantissa_decimalToBytes {d : Decimal} (h : InI 128 d.mantissa) :
    wireMantissa (decimalToBytes d) = d.mantissa := by
  obtain ⟨hlo, hhi⟩ := h
  have hlt : Bytes.unsigned 128 d.mantissa < 256 ^ 16 := Bytes.unsigned_lt 128 _
  have hbody : ((decimalToBytes d).drop 8).take 16
      = Bytes.toBe 16 (Bytes.unsigned 128 d.mantissa) :=
    List.take_of_length_le (Bytes.length_toBe _ _).le
  unfold wireMantissa
  rw [hbody, Bytes.beNat_toBe, Nat.mod_eq_of_lt hlt]
  exact Bytes.signed_unsigned (by norm_num) hlo (Int.lt_of_le_sub_one hhi)

/-- The fields determine the bytes. -/
theorem decimalToBytes_wire {x : List UInt8} (hx : x.length = 24) (h : WireHeader x) :
    decimalToBytes ⟨wireMantissa x, wireScale x⟩ = x := by
  obtain ⟨b0, b1, b2, b3, b4, b5, b6, b7, body, rfl⟩ : ∃ b0 b1 b2 b3 b4 b5 b6 b7 body,
      x = b0 :: b1 :: b2 :: b3 :: b4 :: b5 :: b6 :: b7 :: body := by
    match x, hx with
    | b0 :: b1 :: b2 :: b3 :: b4 :: b5 :: b6 :: b7 :: body, _ =>
      exact ⟨b0, b1, b2, b3, b4, b5, b6, b7, body, rfl⟩
  obtain ⟨hversion, hreserved⟩ := h
  obtain ⟨h1, h23, h567⟩ : b1 = 0 ∧ [b2, b3] = [0, 0] ∧ [b5, b6, b7] = [0, 0, 0] := by
    unfold wireReservedSet at hreserved
    rw [not_or, not_or, not_not, not_not, not_not] at hreserved
    exact hreserved
  obtain rfl : b0 = 1 := hversion
  subst h1
  cases h23
  cases h567
  have hbody : body.length = 16 := by
    simp only [List.length_cons] at hx
    omega
  have hlt := Bytes.beNat_lt body
  have hback := Bytes.toBe_beNat body
  rw [hbody] at hlt hback
  have hmantissa : Bytes.unsigned 128 (Bytes.signed 128 (Bytes.beNat body)) = Bytes.beNat body :=
    Bytes.unsigned_signed hlt
  have htake : body.take 16 = body := List.take_of_length_le hbody.le
  unfold decimalToBytes wireMantissa wireScale
  simp only [List.drop_succ_cons, List.drop_zero, htake, hmantissa, hback, List.getD_cons_succ,
    List.getD_cons_zero, UInt8.ofNat_toNat]
  rfl

/-! ## What the reader accepts -/

namespace Decimal
variable {m : Int} {s : Nat}

theorem canonicalize_canonical : Scaled.Canonical (canonicalize ⟨m, s⟩).mantissa
    (canonicalize ⟨m, s⟩).scale :=
  Scaled.canon_canonical m s

theorem canonicalize_scale_le : (canonicalize ⟨m, s⟩).scale ≤ s := Scaled.canon_scale_le m s

theorem canonicalize_of_canonical (h : Scaled.Canonical m s) : canonicalize ⟨m, s⟩ = ⟨m, s⟩ := by
  unfold canonicalize
  rw [Scaled.canon_of_canonical h]

end Decimal

theorem trailingZeros_of_not_dvd {m : Int} (h : ¬ (10 : Int) ∣ m) : trailingZeros m = 0 := by
  unfold trailingZeros
  exact dif_neg fun hand => h (Int.dvd_of_tmod_eq_zero hand.2)

theorem trailingZeros_absI128 {m : Int} (hm : InI 128 m) (h : ¬ (10 : Int) ∣ m) :
    trailingZeros (absI128 m) = 0 := by
  rcases absI128_cases hm with ⟨-, heq⟩ | ⟨-, heq⟩
  · rw [heq, trailingZeros_min]
  · rw [heq]
    exact trailingZeros_of_not_dvd (mt (dvd_abs 10 m).mp h)

theorem absI128_eq_zero_iff {m : Int} (hm : InI 128 m) : absI128 m = 0 ↔ m = 0 := by
  rcases absI128_cases hm with ⟨hmin, heq⟩ | ⟨-, heq⟩
  · rw [heq, hmin]
  · rw [heq, abs_eq_zero]

/-- The bytes get as far as `Decimal::new`: zero at scale zero, or fewer
trailing zeros than decimals. -/
structure WireChecked (x : List UInt8) : Prop where
  header : WireHeader x
  scale_le : wireScale x ≤ 36
  zero : wireMantissa x = 0 → wireScale x = 0
  fewer : wireMantissa x ≠ 0 → trailingZeros (absI128 (wireMantissa x)) < wireScale x

theorem decimalFromBytes_eq_ok {x : List UInt8} {d : Decimal} :
    decimalFromBytes x = .ok d ↔
      WireChecked x ∧ Decimal.new (wireMantissa x) (wireScale x) = .ok d := by
  have hzero := not_congr (absI128_eq_zero_iff (inI_wireMantissa x))
  unfold decimalFromBytes
  rw [ite_error_eq_ok, ite_error_eq_ok, ite_error_eq_ok, ite_error_eq_ok, ite_error_eq_ok, not_not,
    not_lt, Ne.eq_def (absI128 _), hzero]
  constructor
  · intro h
    obtain ⟨hversion, hreserved, hscale, hcanon, hzeros, hnew⟩ := h
    exact ⟨⟨⟨hversion, hreserved⟩, hscale, fun h0 => not_not.mp fun hs => hcanon ⟨h0, hs⟩,
      fun h0 => not_le.mp fun hle => hzeros ⟨h0, hle⟩⟩, hnew⟩
  · intro h
    obtain ⟨⟨⟨hversion, hreserved⟩, hscale, hzero, hfewer⟩, hnew⟩ := h
    exact ⟨hversion, hreserved, hscale, fun hbad => hbad.2 (hzero hbad.1),
      fun hbad => absurd hbad.2 (not_le.mpr (hfewer hbad.1)), hnew⟩

/-- What `Decimal::new` returned, it returns again. -/
theorem new_idem {m : Int} {s : Nat} {d : Decimal} (h : Decimal.new m s = .ok d) :
    Decimal.new d.mantissa d.scale = .ok d ∧ Scaled.Canonical d.mantissa d.scale ∧ d.scale ≤ 36 := by
  obtain ⟨hs, habs, rfl⟩ := new_eq_ok h
  have hcanon := Decimal.canonicalize_canonical (m := m) (s := s)
  have hle := Decimal.canonicalize_scale_le (m := m) (s := s)
  generalize Decimal.canonicalize ⟨m, s⟩ = c at habs hcanon hle
  have hc : ¬ c.scale > maxDecimalScale := not_lt.mpr (hle.trans hs)
  refine ⟨?_, hcanon, hle.trans hs⟩
  unfold Decimal.new
  rw [if_neg hc, Decimal.canonicalize_of_canonical hcanon, if_neg (not_lt.mpr habs)]

/-! ## Both directions -/

/-- A decimal and its bytes, and bytes and what is read from them. -/
structure WireInverse (d : Decimal) (x : List UInt8) : Prop where
  reads : decimalFromBytes (decimalToBytes d) = .ok d
  writes : ∀ d', decimalFromBytes x = .ok d' → decimalToBytes d' = x

/-- Bytes that are accepted with a zero to strip: fewer of them than decimals,
and in range without them. -/
structure ZeroLeft (x : List UInt8) : Prop where
  header : WireHeader x
  scale_le : wireScale x ≤ 36
  ne_zero : wireMantissa x ≠ 0
  dvd : (10 : Int) ∣ wireMantissa x
  fewer : trailingZeros |wireMantissa x| < wireScale x
  stripped_le :
    |(Decimal.canonicalize ⟨wireMantissa x, wireScale x⟩).mantissa| ≤ maxDecimalMantissa

/-- A canonical record is read back unless it is an integer other than zero. -/
theorem reads_iff {m : Int} {s : Nat} (hm : InI 128 m) {d : Decimal}
    (hd : Decimal.new m s = .ok d) :
    decimalFromBytes (decimalToBytes d) = .ok d ↔ d.mantissa = 0 ∨ d.scale ≠ 0 := by
  obtain ⟨hagain, hcanon, hle⟩ := new_idem hd
  have hin : InI 128 d.mantissa := by
    obtain ⟨-, -, rfl⟩ := new_eq_ok hd
    obtain ⟨k, -, hmk⟩ := Scaled.canon_spec m s
    rw [hmk] at hm
    exact InI.of_mul (Scaled.ten_pow_pos k) hm
  have hmantissa := wireMantissa_decimalToBytes hin
  have hscale := wireScale_decimalToBytes (d := d) (by omega)
  rw [decimalFromBytes_eq_ok, hmantissa, hscale, and_iff_left hagain]
  constructor
  · intro h
    have hfewer := h.fewer
    rw [hmantissa, hscale] at hfewer
    by_cases h0 : d.mantissa = 0
    · exact Or.inl h0
    · exact Or.inr fun hs => absurd (hfewer h0) (by rw [hs]; exact Nat.not_lt_zero _)
  · intro h
    refine ⟨wireHeader_decimalToBytes d, by rwa [hscale], ?_, ?_⟩
    · rw [hmantissa, hscale]
      exact hcanon.zero
    · rw [hmantissa, hscale]
      intro h0
      have hpos : 0 < d.scale := Nat.pos_of_ne_zero (h.resolve_left h0)
      rwa [trailingZeros_absI128 hin (hcanon.reduced hpos)]

theorem new_of_stripped_le {m : Int} {s : Nat} (hs : s ≤ 36)
    (h : |(Decimal.canonicalize ⟨m, s⟩).mantissa| ≤ maxDecimalMantissa) :
    Decimal.new m s = .ok (Decimal.canonicalize ⟨m, s⟩) := by
  have hne : (Decimal.canonicalize ⟨m, s⟩).mantissa ≠ minI 128 := by
    intro heq
    rw [heq] at h
    exact absurd h (by decide)
  unfold Decimal.new
  rw [if_neg (show ¬ s > maxDecimalScale from not_lt.mpr hs),
    absI128_of_ne (inI128_of_le h) hne, if_neg (not_lt.mpr h)]

/-- Accepted bytes are written back unless they hold a zero to strip. -/
theorem writes_iff {x : List UInt8} (hx : x.length = 24) :
    (∀ d, decimalFromBytes x = .ok d → decimalToBytes d = x) ↔ ¬ ZeroLeft x := by
  have hin := inI_wireMantissa x
  constructor
  · intro h hleft
    obtain ⟨hheader, hscale, hne, hdvd, hfewer, hle⟩ := hleft
    have hmin : wireMantissa x ≠ minI 128 := by
      intro heq
      rw [heq] at hdvd
      exact absurd hdvd (by decide)
    have hchecked : WireChecked x := by
      refine ⟨hheader, hscale, fun h0 => absurd h0 hne, fun _ => ?_⟩
      rwa [absI128_of_ne hin hmin]
    have hback := h _ (decimalFromBytes_eq_ok.mpr ⟨hchecked, new_of_stripped_le hscale hle⟩)
    -- the same bytes, so the same fields, of which one pair is canonical
    have hmantissa := wireMantissa_decimalToBytes (inI128_of_le hle)
    have hlt : (Decimal.canonicalize ⟨wireMantissa x, wireScale x⟩).scale < 256 :=
      lt_of_le_of_lt (Decimal.canonicalize_scale_le.trans hscale) (by norm_num)
    have hscale' := wireScale_decimalToBytes hlt
    have hcanon := Decimal.canonicalize_canonical (m := wireMantissa x) (s := wireScale x)
    rw [hback] at hmantissa hscale'
    rw [← hmantissa, ← hscale'] at hcanon
    exact hcanon.reduced (Nat.zero_lt_of_lt hfewer) hdvd
  · intro hleft d hd
    obtain ⟨hchecked, hnew⟩ := decimalFromBytes_eq_ok.mp hd
    have hcanon : Scaled.Canonical (wireMantissa x) (wireScale x) := by
      refine ⟨hchecked.zero, fun hpos hdvd => hleft ?_⟩
      have hne : wireMantissa x ≠ 0 := fun h0 => hpos.ne' (hchecked.zero h0)
      have hmin : wireMantissa x ≠ minI 128 := by
        intro heq
        rw [heq] at hdvd
        exact absurd hdvd (by decide)
      have hfewer := hchecked.fewer hne
      rw [absI128_of_ne hin hmin] at hfewer
      have hvalid := new_allValid hin hmin _ d hnew
      obtain ⟨-, -, rfl⟩ := new_eq_ok hnew
      exact ⟨hchecked.header, hchecked.scale_le, hne, hdvd, hfewer, hvalid.mantissa_le⟩
    obtain ⟨-, -, rfl⟩ := new_eq_ok hnew
    rw [Decimal.canonicalize_of_canonical hcanon]
    exact decimalToBytes_wire hx hchecked.header

/-- **When the bytes of a `Decimal` are read back.** -/
theorem decimal_wire_iff {m : Int} {s : Nat} (hm : InI 128 m) {d : Decimal}
    (hd : Decimal.new m s = .ok d) {x : List UInt8} (hx : x.length = 24) :
    WireInverse d x ↔ (d.mantissa = 0 ∨ d.scale ≠ 0) ∧ ¬ ZeroLeft x := by
  rw [← reads_iff hm hd, ← writes_iff hx]
  constructor
  · intro h
    exact ⟨h.reads, h.writes⟩
  · intro h
    exact ⟨h.1, h.2⟩

/-- Three halves. -/
theorem decimal_wire_three_halves :
    WireInverse ⟨15, 1⟩ (decimalToBytes ⟨15, 1⟩) := by
  refine (decimal_wire_iff (m := 15) (s := 1) (by decide) (by decide +kernel)
    (length_decimalToBytes _)).mpr ⟨Or.inr (by decide), fun h => ?_⟩
  exact absurd h.dvd (by decide +kernel)

/-- Five is not read back, and a tenth with a zero is read as a tenth without. -/
theorem five_not_read :
    Decimal.new 5 0 = .ok ⟨5, 0⟩ ∧
      decimalFromBytes (decimalToBytes ⟨5, 0⟩) = .error (.err .nonCanonical) ∧
      decimalFromBytes (decimalToBytes ⟨10, 2⟩) = .ok ⟨1, 1⟩ ∧
      decimalToBytes ⟨1, 1⟩ ≠ decimalToBytes ⟨10, 2⟩ ∧
      (∀ x, ¬ WireInverse ⟨5, 0⟩ x) ∧ ∀ d, ¬ WireInverse d (decimalToBytes ⟨10, 2⟩) := by
  have hread : decimalFromBytes (decimalToBytes ⟨5, 0⟩) = .error (.err .nonCanonical) := by
    decide +kernel
  have hten : decimalFromBytes (decimalToBytes ⟨10, 2⟩) = .ok ⟨1, 1⟩ := by decide +kernel
  have hne : decimalToBytes ⟨1, 1⟩ ≠ decimalToBytes ⟨10, 2⟩ := by decide
  refine ⟨by decide +kernel, hread, hten, hne, fun x h => ?_, fun d h => hne (h.writes _ hten)⟩
  have hback := h.reads
  rw [hread] at hback
  cases hback

end CipherOcto.Determin
