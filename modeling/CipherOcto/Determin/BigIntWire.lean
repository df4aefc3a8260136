import CipherOcto.Lib.Attempt
import CipherOcto.Lib.Bytes
import CipherOcto.Determin.BigIntOps

/-!
# The byte forms of a `BigInt`

`BigIntEncoding` is eight header bytes (version, sign, two zeros, the number of
limbs, three zeros) and the limbs, each little-endian. `deserialize` checks all
of the header, the length, and that the limbs and sign are canonical, so
nothing is left to choose:

> `bigint_wire_iff`: what `deserialize` returns for a byte string is canonical,
> and the byte string is what `serialize` writes for it.

`bigint_to_i128_bytes` writes sixteen big-endian bytes in two's complement. Its
range check looks at the high limb alone. That is enough above zero. Below, the
high limb of `-2^127` is shared by the numbers under it, which pass and come
out positive; `i128::try_from` compares the whole magnitude and rejects them.
In a build with overflow checks it also panics at `-2^127`, negating a number
that is its own negation:

> `i128_bytes_exact_iff`: at every other value the bytes are right, and the two
> conversions accept the same.
-/

namespace CipherOcto.Determin

open Machine Limbs BigInt

/-! ## The encoding -/

structure BigIntEncoding where
  version : UInt8
  /-- `0x00` for positive, `0xFF` for negative. -/
  sign : UInt8
  numLimbs : UInt8
  limbs : List UInt64
deriving Repr, DecidableEq

/-- `limb.to_le_bytes()`. -/
def limbToLeBytes (limb : UInt64) : List UInt8 := Bytes.toLe 8 limb.toNat

/-- `u64::from_le_bytes`. -/
def limbFromLeBytes (bytes : List UInt8) : UInt64 := UInt64.ofNat (Bytes.leNat bytes)

/-- `to_bytes`. -/
def BigIntEncoding.toBytes (e : BigIntEncoding) : List UInt8 :=
  [e.version, e.sign, 0, 0, e.numLimbs, 0, 0, 0] ++ e.limbs.flatMap limbToLeBytes

/-- The limb loop of `deserialize`, over what follows the header. -/
def readLimbs : Nat → List UInt8 → List UInt64
  | 0, _ => []
  | n + 1, bytes => limbFromLeBytes (bytes.take 8) :: readLimbs n (bytes.drop 8)

namespace BigInt

/-- `serialize`. -/
def serialize (b : BigInt) : BigIntEncoding :=
  { version := 0x01
    sign := if b.sign then 0xFF else 0x00
    numLimbs := UInt8.ofNat b.limbs.length
    limbs := b.limbs }

/-- `deserialize`: fewer than eight bytes fall to the last case, and a header
with a wrong byte is refused whatever the byte. -/
def deserialize : List UInt8 → Run BigIntError BigInt
  | version :: signByte :: r2 :: r3 :: numLimbs :: r5 :: r6 :: r7 :: body =>
    if version ≠ 0x01 then .error (.err .nonCanonicalInput)
    else if signByte ≠ 0x00 ∧ signByte ≠ 0xFF then .error (.err .nonCanonicalInput)
    else if r2 ≠ 0 ∨ r3 ≠ 0 then .error (.err .nonCanonicalInput)
    else if numLimbs.toNat = 0 ∨ numLimbs.toNat > 64 then .error (.err .nonCanonicalInput)
    else if r5 ≠ 0 ∨ r6 ≠ 0 ∨ r7 ≠ 0 then .error (.err .nonCanonicalInput)
    else if 8 + body.length ≠ 8 + numLimbs.toNat * 8 then .error (.err .nonCanonicalInput)
    else
      let b : BigInt := ⟨readLimbs numLimbs.toNat body, signByte = 0xFF⟩
      if !b.isCanonical then .error (.err .nonCanonicalInput) else .ok b
  | _ => .error (.err .nonCanonicalInput)

end BigInt

/-! ## Sixteen bytes -/

/-- The two low limbs, `((hi as u128) << 64) | (lo as u128)`. -/
def BigInt.lowU128 (b : BigInt) : Nat :=
  (b.limbs.getD 1 0).toNat <<< 64 ||| (b.limbs.getD 0 0).toNat

/-- The range check of `bigint_to_i128_bytes`. -/
def outOfI128Bytes (b : BigInt) : Bool :=
  if b.limbs.length > 2 then true
  else if b.limbs.length = 2 then
    let hi := b.limbs.getD 1 0
    if b.sign then hi > 0x8000000000000000 else hi ≥ 0x8000000000000000
  else false

/-- `bigint_to_i128_bytes`. -/
def bigintToI128Bytes (b : BigInt) : Run BigIntError (List UInt8) :=
  if outOfI128Bytes b then .error (.err .outOfI128Range)
  else if b.isZero then .ok (List.replicate 16 0)
  else
    -- `(!magnitude).wrapping_add(1)` for a negative number
    let val :=
      if !b.sign then b.lowU128 else wrappingAdd 128 (2 ^ 128 - 1 - b.lowU128) 1
    .ok ((List.range 16).map fun i => UInt8.ofNat (val >>> (120 - i * 8) &&& 0xFF))

/-- `TryFrom<BigInt> for i128`, with the negation as a build computes it:
`BigInt.toI128` is the wrapping build. -/
def BigInt.toI128In (overflowChecks : Bool) (b : BigInt) : Run BigIntError Int :=
  if b.limbs.length > 2 then .error (.err .outOfI128Range)
  else if b.sign then
    if b.lowU128 > 2 ^ 127 then .error (.err .outOfI128Range)
    else build overflowChecks (subI 128 0 (wrapI 128 b.lowU128))
  else if b.lowU128 > 2 ^ 127 - 1 then .error (.err .outOfI128Range)
  else .ok (wrapI 128 b.lowU128)

/-! ## Limbs as bytes -/

theorem length_limbToLeBytes (limb : UInt64) : (limbToLeBytes limb).length = 8 :=
  Bytes.length_toLe 8 _

theorem limbFromLeBytes_toLeBytes (limb : UInt64) :
    limbFromLeBytes (limbToLeBytes limb) = limb := by
  unfold limbFromLeBytes limbToLeBytes
  rw [Bytes.leNat_toLe, Nat.mod_eq_of_lt (show limb.toNat < 256 ^ 8 from limb.toNat_lt),
    UInt64.ofNat_toNat]

theorem limbToLeBytes_fromLeBytes {bytes : List UInt8} (h : bytes.length = 8) :
    limbToLeBytes (limbFromLeBytes bytes) = bytes := by
  have hlt := Bytes.leNat_lt bytes
  rw [h] at hlt
  have hread := Bytes.toLe_leNat bytes
  rw [h] at hread
  unfold limbFromLeBytes limbToLeBytes
  rw [toNat_ofNat_of_lt hlt, hread]

theorem length_flatMap_limbs : ∀ limbs : List UInt64,
    (limbs.flatMap limbToLeBytes).length = limbs.length * 8
  | [] => rfl
  | l :: ls => by
    rw [List.flatMap_cons, List.length_append, length_limbToLeBytes, length_flatMap_limbs ls,
      List.length_cons]
    omega

theorem length_readLimbs : ∀ (n : Nat) (bytes : List UInt8), (readLimbs n bytes).length = n
  | 0, _ => rfl
  | n + 1, bytes => by rw [readLimbs, List.length_cons, length_readLimbs n]

/-- Reading limbs undoes writing them. -/
theorem readLimbs_flatMap : ∀ limbs : List UInt64,
    readLimbs limbs.length (limbs.flatMap limbToLeBytes) = limbs
  | [] => rfl
  | l :: ls => by
    have h8 := length_limbToLeBytes l
    rw [List.flatMap_cons, List.length_cons, readLimbs, List.take_left' h8, List.drop_left' h8,
      limbFromLeBytes_toLeBytes, readLimbs_flatMap ls]

/-- Writing limbs undoes reading them. -/
theorem flatMap_readLimbs : ∀ (n : Nat) (bytes : List UInt8), bytes.length = n * 8 →
    (readLimbs n bytes).flatMap limbToLeBytes = bytes
  | 0, bytes, h => by
    rw [List.eq_nil_of_length_eq_zero (by omega : bytes.length = 0)]
    rfl
  | n + 1, bytes, h => by
    have htake : (bytes.take 8).length = 8 := by rw [List.length_take]; omega
    have hdrop : (bytes.drop 8).length = n * 8 := by rw [List.length_drop]; omega
    rw [readLimbs, List.flatMap_cons, limbToLeBytes_fromLeBytes htake,
      flatMap_readLimbs n _ hdrop, List.take_append_drop]

/-! ## One byte string for each number -/

/-- The code's test for the canonical form. -/
theorem BigInt.canonical_iff {b : BigInt} :
    b.Canonical ↔ b.isCanonical = true ∧ b.limbs ≠ [] := by
  constructor
  · intro h
    exact ⟨h.isCanonical, h.1.1⟩
  · intro h
    obtain ⟨hcanon, hne⟩ := h
    unfold BigInt.isCanonical at hcanon
    split at hcanon
    · cases hcanon
    · next htop =>
      have htrim : Trimmed b.limbs := ⟨hne, fun hlen hlast => htop ⟨hlen, hlast⟩⟩
      refine ⟨htrim, fun hzero => ?_⟩
      split at hcanon
      · cases hcanon
      · next hneg =>
        rw [← htrim.eq_zero_iff] at hzero
        exact Bool.eq_false_of_not_eq_true fun hsign => hneg ⟨hzero, hsign⟩

/-- What `deserialize` checks, field by field. -/
theorem deserialize_cons_iff {version signByte r2 r3 numLimbs r5 r6 r7 : UInt8} {body : List UInt8}
    {b : BigInt} :
    BigInt.deserialize (version :: signByte :: r2 :: r3 :: numLimbs :: r5 :: r6 :: r7 :: body)
        = .ok b ↔
      version = 1 ∧ (signByte = 0 ∨ signByte = 0xFF) ∧ (r2 = 0 ∧ r3 = 0) ∧
        (1 ≤ numLimbs.toNat ∧ numLimbs.toNat ≤ 64) ∧ (r5 = 0 ∧ r6 = 0 ∧ r7 = 0) ∧
        body.length = numLimbs.toNat * 8 ∧ b.isCanonical = true ∧
        b = ⟨readLimbs numLimbs.toNat body, signByte = 0xFF⟩ := by
  unfold BigInt.deserialize
  simp only [ite_error_eq_ok, Except.ok.injEq]
  have hsign : ¬ (signByte ≠ 0x00 ∧ signByte ≠ 0xFF) ↔ signByte = 0 ∨ signByte = 0xFF := by
    rw [not_and_or, not_not, not_not]
  have hr23 : ¬ (r2 ≠ 0 ∨ r3 ≠ 0) ↔ r2 = 0 ∧ r3 = 0 := by simp
  have hcount : ¬ (numLimbs.toNat = 0 ∨ numLimbs.toNat > 64) ↔
      1 ≤ numLimbs.toNat ∧ numLimbs.toNat ≤ 64 := by omega
  have hr567 : ¬ (r5 ≠ 0 ∨ r6 ≠ 0 ∨ r7 ≠ 0) ↔ r5 = 0 ∧ r6 = 0 ∧ r7 = 0 := by simp
  have hlength : ¬ 8 + body.length ≠ 8 + numLimbs.toNat * 8 ↔
      body.length = numLimbs.toNat * 8 := by omega
  rw [not_not, hsign, hr23, hcount, hr567, hlength]
  -- the canonical form is checked on what is returned
  have hcanon : ∀ c : BigInt, (¬ (!c.isCanonical) = true ∧ c = b) ↔
      b.isCanonical = true ∧ b = c := by
    intro c
    rw [Bool.not_eq_true, Bool.not_eq_false', @eq_comm _ c]
    exact and_congr_left fun h => by rw [h]
  rw [hcanon]

/-- **Canonical values and accepted byte strings correspond one to one.** -/
theorem bigint_wire_iff (b : BigInt) (x : List UInt8) :
    BigInt.deserialize x = .ok b ↔
      b.isCanonical = true ∧ 1 ≤ b.limbs.length ∧ b.limbs.length ≤ 64 ∧
        b.serialize.toBytes = x := by
  constructor
  · intro h
    match x with
    | version :: signByte :: r2 :: r3 :: numLimbs :: r5 :: r6 :: r7 :: body =>
      obtain ⟨rfl, hsign, ⟨rfl, rfl⟩, hcount, ⟨rfl, rfl, rfl⟩, hlength, hcanon, rfl⟩ :=
        deserialize_cons_iff.mp h
      have hlen := length_readLimbs numLimbs.toNat body
      have hsignByte : (if decide (signByte = 0xFF) then 0xFF else 0x00) = signByte := by
        rcases hsign with rfl | rfl <;> rfl
      refine ⟨hcanon, by rw [hlen]; exact hcount.1, by rw [hlen]; exact hcount.2, ?_⟩
      show [1, if decide (signByte = 0xFF) then 0xFF else 0x00, 0, 0,
        UInt8.ofNat (readLimbs numLimbs.toNat body).length, 0, 0, 0]
          ++ (readLimbs numLimbs.toNat body).flatMap limbToLeBytes = _
      rw [hsignByte, hlen, UInt8.ofNat_toNat, flatMap_readLimbs _ _ hlength]
      rfl
  · intro h
    obtain ⟨hcanon, hpos, hle, rfl⟩ := h
    have hcount : (UInt8.ofNat b.limbs.length).toNat = b.limbs.length :=
      UInt8.toNat_ofNat_of_lt' (lt_of_le_of_lt hle (by decide))
    refine deserialize_cons_iff.mpr ⟨rfl, ?_, ⟨rfl, rfl⟩, ?_, ⟨rfl, rfl, rfl⟩, ?_, hcanon, ?_⟩
    · show (if b.sign then 0xFF else 0x00) = (0 : UInt8) ∨ (if b.sign then 0xFF else 0x00) = 0xFF
      cases b.sign <;> simp
    · show 1 ≤ (UInt8.ofNat b.limbs.length).toNat ∧ (UInt8.ofNat b.limbs.length).toNat ≤ 64
      rw [hcount]
      exact ⟨hpos, hle⟩
    · show (b.limbs.flatMap limbToLeBytes).length = (UInt8.ofNat b.limbs.length).toNat * 8
      rw [length_flatMap_limbs, hcount]
    · refine BigInt.ext ?_ ?_
      · show b.limbs = readLimbs (UInt8.ofNat b.limbs.length).toNat (b.limbs.flatMap limbToLeBytes)
        rw [hcount, readLimbs_flatMap]
      · show b.sign = decide ((if b.sign then (0xFF : UInt8) else 0x00) = 0xFF)
        cases b.sign <;> rfl

/-! ## The range check -/

theorem lowU128_eq (b : BigInt) :
    b.lowU128 = (b.limbs.getD 0 0).toNat + 2 ^ 64 * (b.limbs.getD 1 0).toNat :=
  joined_limbs b.limbs

theorem lowU128_lt (b : BigInt) : b.lowU128 < 2 ^ 128 := by
  have hlo := (b.limbs.getD 0 0).toNat_lt
  have hhi := (b.limbs.getD 1 0).toNat_lt
  rw [lowU128_eq]
  omega

/-- A number of one limb has no high limb. -/
theorem high_eq_zero {b : BigInt} (h : b.limbs.length < 2) : (b.limbs.getD 1 0).toNat = 0 := by
  rw [List.getD_eq_default _ _ (by omega)]
  rfl

/-- What the check of the high limb lets through. -/
theorem outOfI128Bytes_eq_false_iff {b : BigInt} :
    outOfI128Bytes b = false ↔ ¬ b.limbs.length > 2 ∧
      if b.sign then (b.limbs.getD 1 0).toNat ≤ 2 ^ 63 else (b.limbs.getD 1 0).toNat < 2 ^ 63 := by
  unfold outOfI128Bytes
  by_cases hlen : b.limbs.length > 2
  · rw [if_pos hlen]
    simp [hlen]
  rw [if_neg hlen]
  by_cases htwo : b.limbs.length = 2
  · rw [if_pos htwo]
    cases b.sign <;> simp [hlen, UInt64.le_iff_toNat_le, UInt64.lt_iff_toNat_lt]
  · have hzero := high_eq_zero (b := b) (by omega)
    rw [if_neg htwo, hzero]
    simp [hlen]

/-- One magnitude of the range, cast to an `i128`, cannot be negated. -/
theorem negate_ovf_iff {mag : Nat} (h : mag ≤ 2 ^ 127) :
    (subI 128 0 (wrapI 128 mag)).ovf = true ↔ mag = 2 ^ 127 := by
  rcases h.lt_or_eq with hlt | rfl
  · have hmag : InI 128 (mag : Int) := ⟨by unfold minI; omega, by unfold maxI; omega⟩
    have hneg : InI 128 (0 - mag : Int) := ⟨by unfold minI; omega, by unfold maxI; omega⟩
    rw [wrapI_of_inI hmag, subI_of_inI hneg]
    exact iff_of_false Bool.false_ne_true hlt.ne
  · exact iff_of_true (by decide) rfl

theorem negate_val {mag : Nat} (h : mag ≤ 2 ^ 127) :
    (subI 128 0 (wrapI 128 mag)).val = -(mag : Int) := by
  rcases h.lt_or_eq with hlt | rfl
  · have hmag : InI 128 (mag : Int) := ⟨by unfold minI; omega, by unfold maxI; omega⟩
    have hneg : InI 128 (0 - mag : Int) := ⟨by unfold minI; omega, by unfold maxI; omega⟩
    rw [wrapI_of_inI hmag, subI_of_inI hneg, zero_sub]
    rfl
  · decide

/-- `i128::try_from` returns where the magnitude fits, and, checked, where it
can also be negated. -/
theorem toI128In_ok_iff {overflowChecks : Bool} {b : BigInt} :
    (∃ n, b.toI128In overflowChecks = .ok n) ↔ ¬ b.limbs.length > 2 ∧
      if b.sign then b.lowU128 ≤ 2 ^ 127 ∧ (b.lowU128 = 2 ^ 127 → overflowChecks = false)
      else b.lowU128 < 2 ^ 127 := by
  have hlt := lowU128_lt b
  unfold BigInt.toI128In
  by_cases hlen : b.limbs.length > 2
  · rw [if_pos hlen]
    exact iff_of_false (fun ⟨_, h⟩ => nomatch h) fun h => h.1 hlen
  rw [if_neg hlen, and_iff_right hlen]
  cases b.sign with
  | false =>
    simp only [Bool.false_eq_true, if_false]
    by_cases hbig : b.lowU128 > 2 ^ 127 - 1
    · rw [if_pos hbig]
      exact iff_of_false (fun ⟨_, h⟩ => nomatch h) (by omega)
    · rw [if_neg hbig]
      exact iff_of_true ⟨_, rfl⟩ (by omega)
  | true =>
    simp only [if_true]
    by_cases hbig : b.lowU128 > 2 ^ 127
    · rw [if_pos hbig]
      exact iff_of_false (fun ⟨_, h⟩ => nomatch h) (by omega)
    rw [if_neg hbig, and_iff_right (not_lt.mp hbig)]
    have hovf := negate_ovf_iff (not_lt.mp hbig)
    unfold build
    split
    · next hpanic =>
      rw [hovf] at hpanic
      exact iff_of_false (fun ⟨_, h⟩ => nomatch h) fun h => by simp [h hpanic.2] at hpanic
    · next hok =>
      rw [hovf] at hok
      exact iff_of_true ⟨_, rfl⟩ fun h => Bool.eq_false_of_not_eq_true fun hc => hok ⟨hc, h⟩

/-! ## The bytes -/

/-- The value the two low limbs stand for. -/
def BigInt.lowInt (b : BigInt) : Int := if b.sign then -(b.lowU128 : Int) else b.lowU128

theorem shiftRight_and_255 (n k : Nat) : n >>> k &&& 0xFF = n / 2 ^ k % 256 := by
  rw [Nat.shiftRight_eq_div_pow]
  exact Nat.and_two_pow_sub_one_eq_mod _ 8

theorem getElem_toLe : ∀ (w x i : Nat) (h : i < (Bytes.toLe w x).length),
    (Bytes.toLe w x)[i] = UInt8.ofNat (x / 256 ^ i % 256)
  | 0, _, _, h => absurd h (Nat.not_lt_zero _)
  | w + 1, x, 0, _ => by rw [pow_zero, Nat.div_one]; rfl
  | w + 1, x, i + 1, h => by
    have hstep := getElem_toLe w (x / 256) i (by simpa [Bytes.toLe] using h)
    rw [Nat.div_div_eq_div_mul, ← pow_succ'] at hstep
    exact hstep

/-- Shift and mask, most significant byte first. -/
theorem shifted_bytes (n : Nat) :
    ((List.range 16).map fun i => UInt8.ofNat (n >>> (120 - i * 8) &&& 0xFF)) =
      Bytes.toBe 16 n := by
  refine List.ext_getElem (by rw [List.length_map, List.length_range, Bytes.length_toBe]) ?_
  intro i hi hi'
  rw [List.length_map, List.length_range] at hi
  have hpow : 256 ^ (16 - 1 - i) = 2 ^ (120 - i * 8) := by
    rw [Bytes.pow_256]
    congr 1
    omega
  simp only [Bytes.toBe, List.getElem_map, List.getElem_range, List.getElem_reverse,
    Bytes.length_toLe, getElem_toLe, shiftRight_and_255, hpow]

/-- Complement and add one, which is what storing a negative number is. -/
theorem stored_eq (b : BigInt) :
    (if !b.sign then b.lowU128 else wrappingAdd 128 (2 ^ 128 - 1 - b.lowU128) 1) =
      Bytes.unsigned 128 b.lowInt := by
  have hlt := lowU128_lt b
  unfold wrappingAdd Bytes.unsigned BigInt.lowInt
  cases b.sign <;> simp <;> omega

/-- The bytes of a number that passes the range check. -/
theorem bigintToI128Bytes_eq_ok {b : BigInt} {bytes : List UInt8} :
    bigintToI128Bytes b = .ok bytes ↔
      outOfI128Bytes b = false ∧ bytes = Bytes.toBe 16 (Bytes.unsigned 128 b.lowInt) := by
  unfold bigintToI128Bytes
  rw [ite_error_eq_ok, Bool.not_eq_true]
  refine and_congr_right fun _ => ?_
  by_cases hzero : b.isZero
  · have hz : b = BigInt.zero := by
      unfold BigInt.isZero at hzero
      simp at hzero
      exact BigInt.ext hzero.1 hzero.2
    rw [if_pos hzero, hz, Except.ok.injEq, eq_comm]
    rfl
  · rw [if_neg hzero, Except.ok.injEq, eq_comm, stored_eq, shifted_bytes]

/-! ## What goes wrong -/

/-- The conversions of `b`, as a build computes them. -/
structure I128BytesExact (overflowChecks : Bool) (b : BigInt) : Prop where
  accepts : b.Canonical → ((∃ bytes, bigintToI128Bytes b = .ok bytes) ↔ InI 128 b.toInt)
  exact : b.Canonical → ∀ bytes, bigintToI128Bytes b = .ok bytes →
    bytes.length = 16 ∧ Bytes.signed 128 (Bytes.beNat bytes) = b.toInt
  agrees : (∃ bytes, bigintToI128Bytes b = .ok bytes) ↔ ∃ n, b.toI128In overflowChecks = .ok n

theorem bigintToI128Bytes_ok_iff {b : BigInt} :
    (∃ bytes, bigintToI128Bytes b = .ok bytes) ↔ outOfI128Bytes b = false := by
  constructor
  · intro h
    obtain ⟨bytes, h⟩ := h
    exact (bigintToI128Bytes_eq_ok.mp h).1
  · intro h
    exact ⟨_, bigintToI128Bytes_eq_ok.mpr ⟨h, rfl⟩⟩

/-- The wrapping build is the model the decimal code uses. -/
theorem toI128In_false (b : BigInt) : b.toI128In false = b.toI128 := by
  unfold BigInt.toI128In BigInt.toI128
  refine ite_congr rfl (fun _ => rfl) fun _ => ?_
  refine ite_congr rfl (fun _ => ?_) fun _ => ?_
  · refine ite_congr rfl (fun _ => rfl) fun hle => ?_
    exact congrArg Except.ok (negate_val (not_lt.mp hle))
  · refine ite_congr rfl (fun _ => rfl) fun hle => ?_
    have hsmall : b.lowU128 ≤ 2 ^ 127 - 1 := not_lt.mp hle
    have hmag : InI 128 (b.lowU128 : Int) := ⟨by unfold minI; omega, by unfold maxI; omega⟩
    exact congrArg Except.ok (wrapI_of_inI hmag)

theorem eq_top_limb_iff {lo hi : UInt64} {overflowChecks : Bool} :
    (∀ lo', (⟨[lo, hi], true⟩ : BigInt) = ⟨[lo', 0x8000000000000000], true⟩ →
        lo' = 0 ∧ overflowChecks = false) ↔
      (hi.toNat = 2 ^ 63 → lo.toNat = 0 ∧ overflowChecks = false) := by
  constructor
  · intro h htop
    obtain rfl : hi = 0x8000000000000000 := UInt64.toNat_inj.mp htop
    obtain ⟨rfl, hoff⟩ := h lo rfl
    exact ⟨rfl, hoff⟩
  · intro h lo' heq
    cases heq
    obtain ⟨hzero, hoff⟩ := h rfl
    exact ⟨UInt64.toNat_inj.mp hzero, hoff⟩

/-- Comparing the high limb and comparing the magnitude, below zero. -/
theorem two_limbs_agree_iff {lo hi : Nat} (hlo : lo < 2 ^ 64) (overflowChecks : Bool) :
    (hi ≤ 2 ^ 63 ↔ lo + 2 ^ 64 * hi ≤ 2 ^ 127 ∧
        (lo + 2 ^ 64 * hi = 2 ^ 127 → overflowChecks = false)) ↔
      (hi = 2 ^ 63 → lo = 0 ∧ overflowChecks = false) := by
  cases overflowChecks with
  | false =>
    simp only [implies_true, and_true]
    omega
  | true =>
    simp only [reduceCtorEq, imp_false, and_false]
    omega

/-- The two range checks differ where the high limb is the one of `-2^127`. -/
theorem checks_agree_iff {overflowChecks : Bool} {b : BigInt} :
    (outOfI128Bytes b = false ↔ ∃ n, b.toI128In overflowChecks = .ok n) ↔
      ∀ lo, b = ⟨[lo, 0x8000000000000000], true⟩ → lo = 0 ∧ overflowChecks = false := by
  rw [outOfI128Bytes_eq_false_iff, toI128In_ok_iff, lowU128_eq]
  obtain ⟨limbs, sign⟩ := b
  cases sign with
  | false =>
    refine iff_of_true ?_ fun lo h => nomatch congrArg BigInt.sign h
    refine and_congr_right fun _ => ?_
    have hlo := (limbs.getD 0 0).toNat_lt
    show (limbs.getD 1 0).toNat < 2 ^ 63 ↔
      (limbs.getD 0 0).toNat + 2 ^ 64 * (limbs.getD 1 0).toNat < 2 ^ 127
    omega
  | true =>
    match limbs with
    | [] => exact iff_of_true (by simp) fun lo h => nomatch congrArg BigInt.limbs h
    | [lo] =>
      have hlo := lo.toNat_lt
      refine iff_of_true (and_congr_right fun _ => ?_) fun lo h => nomatch congrArg BigInt.limbs h
      show 0 ≤ 2 ^ 63 ↔ lo.toNat + 2 ^ 64 * 0 ≤ 2 ^ 127 ∧
        (lo.toNat + 2 ^ 64 * 0 = 2 ^ 127 → overflowChecks = false)
      exact iff_of_true (Nat.zero_le _) ⟨by omega, fun _ => by omega⟩
    | [lo, hi] =>
      have hlen : ¬ [lo, hi].length > 2 := by simp
      rw [eq_top_limb_iff, and_iff_right hlen, and_iff_right hlen]
      exact two_limbs_agree_iff lo.toNat_lt overflowChecks
    | _ :: _ :: _ :: _ => exact iff_of_true (by simp) fun lo h => nomatch congrArg BigInt.limbs h

/-- **When the sixteen bytes are right.** -/
theorem i128_bytes_exact_iff (overflowChecks : Bool) (b : BigInt) :
    I128BytesExact overflowChecks b ↔
      ∀ lo, b = ⟨[lo, 0x8000000000000000], true⟩ → lo = 0 ∧ overflowChecks = false := by
  constructor
  · intro h
    rw [← checks_agree_iff, ← bigintToI128Bytes_ok_iff]
    exact h.agrees
  · intro h
    have hagrees := checks_agree_iff.mpr h
    have haccepts : b.Canonical → (outOfI128Bytes b = false ↔ InI 128 b.toInt) := by
      intro hb
      rw [checks_agree_iff.mpr fun lo hlo => ⟨(h lo hlo).1, rfl⟩, toI128In_false, hb.eq_ofInt,
        toI128_ofInt, toInt_ofInt]
      split <;> simp [*]
    refine ⟨fun hb => ?_, fun hb bytes hbytes => ?_, ?_⟩
    · rw [bigintToI128Bytes_ok_iff]
      exact haccepts hb
    · obtain ⟨hpass, rfl⟩ := bigintToI128Bytes_eq_ok.mp hbytes
      have hin := (haccepts hb).mp hpass
      have hlow : b.lowInt = b.toInt := by
        have hval : b.lowU128 = val b.limbs :=
          joined_limbs_eq_val (outOfI128Bytes_eq_false_iff.mp hpass).1
        unfold BigInt.lowInt BigInt.toInt
        rw [hval]
      obtain ⟨hlo, hhi⟩ := hin
      have hstored : Bytes.unsigned 128 b.toInt < 256 ^ 16 := Bytes.unsigned_lt 128 _
      rw [hlow, Bytes.length_toBe, Bytes.beNat_toBe, Nat.mod_eq_of_lt hstored]
      exact ⟨rfl, Bytes.signed_unsigned (by norm_num) hlo (Int.lt_of_le_sub_one hhi)⟩
    · rw [bigintToI128Bytes_ok_iff]
      exact hagrees

/-- `-2^127 - 1` comes out as `2^127 - 1`. -/
theorem below_i128_min :
    bigintToI128Bytes ⟨[1, 0x8000000000000000], true⟩ = .ok (0x7F :: List.replicate 15 0xFF) ∧
      (∀ overflowChecks, BigInt.toI128In overflowChecks ⟨[1, 0x8000000000000000], true⟩
        = .error (.err .outOfI128Range)) ∧
      ∀ overflowChecks, ¬ I128BytesExact overflowChecks ⟨[1, 0x8000000000000000], true⟩ := by
  have hbytes : bigintToI128Bytes ⟨[1, 0x8000000000000000], true⟩
      = .ok (0x7F :: List.replicate 15 0xFF) := by decide
  have hreject : ∀ overflowChecks, BigInt.toI128In overflowChecks
      ⟨[1, 0x8000000000000000], true⟩ = .error (.err .outOfI128Range) := by decide
  refine ⟨hbytes, hreject, fun overflowChecks h => ?_⟩
  obtain ⟨n, hn⟩ := h.agrees.mp ⟨_, hbytes⟩
  rw [hreject overflowChecks] at hn
  cases hn

end CipherOcto.Determin
