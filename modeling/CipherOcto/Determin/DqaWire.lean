import CipherOcto.Determin.Dqa

/-!
# The two byte encodings of a `Dqa`

A `Dqa` is written in two places. `dqa.rs` implements Borsh by way of the
storage record: `from_dqa` puts the canonical numerator into the record *in
big-endian order* (`to_be`), and the record's own Borsh implementation writes
that field with `to_be_bytes`. `dcs.rs` strips the zeros itself and writes the
numerator with `to_be_bytes` directly. Both are documented as the same sixteen
bytes (`canonicalBytes`): eight big-endian bytes, the scale, seven zeros.

On a big-endian host `to_be` is the identity and they are. On a little-endian
host the Borsh path swaps twice, which writes the numerator little-endian:

> `encoders_agree_iff`: the encoders agree iff the host is big-endian or the
> numerator reads the same in both byte orders.

A host reads its own Borsh bytes back correctly (`borsh_roundTrip`), because
`to_dqa` undoes the extra swap: a test on one host cannot see the difference.
-/

namespace CipherOcto.Determin

open Machine

/-- Big-endian bytes of an `i64`. -/
def i64ToBeBytes (x : Int) : List UInt8 := Bytes.toBe 8 (Bytes.unsigned 64 x)

def i64FromBeBytes (bytes : List UInt8) : Int := Bytes.signed 64 (Bytes.beNat bytes)

theorem i64FromBeBytes_inI (bytes : List UInt8) : InI 64 (i64FromBeBytes bytes) := by
  obtain ⟨hlo, hhi⟩ := Bytes.signed_bounds (w := 64) (by norm_num) (Bytes.beNat bytes)
  exact ⟨hlo, Int.le_sub_one_of_lt hhi⟩

theorem i64FromBeBytes_toBeBytes {x : Int} (h : InI 64 x) :
    i64FromBeBytes (i64ToBeBytes x) = x := by
  obtain ⟨hlo, hhi⟩ := h
  have hu : Bytes.unsigned 64 x < 256 ^ 8 := Bytes.unsigned_lt 64 x
  unfold i64FromBeBytes i64ToBeBytes
  rw [Bytes.beNat_toBe, Nat.mod_eq_of_lt hu]
  exact Bytes.signed_unsigned (by norm_num) hlo (Int.lt_of_le_sub_one hhi)

/-! ## Borsh -/

/-- `BorshSerialize for DqaEncoding`. -/
def DqaEncoding.borshSerialize (e : DqaEncoding) : List UInt8 :=
  i64ToBeBytes e.value ++ [UInt8.ofNat e.scale] ++ e.reserved

/-- What a Borsh reader fails with: a short buffer, or the error `to_dqa`
returned, wrapped as invalid data. -/
inductive BorshError where
  | unexpectedEof
  | invalidData (e : DqaError)
deriving Repr, DecidableEq

/-- `BorshDeserialize for DqaEncoding`: the record and the unread bytes. -/
def DqaEncoding.borshDeserialize (buf : List UInt8) :
    Run BorshError (DqaEncoding × List UInt8) :=
  if h : 16 ≤ buf.length then
    .ok ({ value := i64FromBeBytes (buf.take 8)
           scale := (buf.getD 8 0).toNat
           reserved := (buf.drop 9).take 7
           value_inI := i64FromBeBytes_inI _
           scale_lt := UInt8.toNat_lt _
           reserved_length := by rw [List.length_take, List.length_drop]; omega }, buf.drop 16)
  else .error (.err .unexpectedEof)

/-- The record reader inverts the record writer, whatever follows it. -/
theorem DqaEncoding.borshDeserialize_serialize (e : DqaEncoding) (rest : List UInt8) :
    DqaEncoding.borshDeserialize (e.borshSerialize ++ rest) = .ok (e, rest) := by
  have hbuf : e.borshSerialize ++ rest
      = i64ToBeBytes e.value ++ (UInt8.ofNat e.scale :: (e.reserved ++ rest)) := by
    simp [DqaEncoding.borshSerialize]
  have hlen : (i64ToBeBytes e.value).length = 8 := Bytes.length_toBe _ _
  have hres := e.reserved_length
  have hvalue := i64FromBeBytes_toBeBytes e.value_inI
  have hscale : (UInt8.ofNat e.scale).toNat = e.scale := UInt8.toNat_ofNat_of_lt' e.scale_lt
  have htake : (e.borshSerialize ++ rest).take 8 = i64ToBeBytes e.value := by
    rw [hbuf, List.take_left' hlen]
  have htail : (e.borshSerialize ++ rest).drop 8 = UInt8.ofNat e.scale :: (e.reserved ++ rest) := by
    rw [hbuf, List.drop_left' hlen]
  have hbyte : (e.borshSerialize ++ rest).getD 8 0 = UInt8.ofNat e.scale := by
    have h0 := congrArg List.head? htail
    rw [List.head?_drop] at h0
    rw [List.getD_eq_getElem?_getD, h0]
    rfl
  have hdrop : (e.borshSerialize ++ rest).drop 9 = e.reserved ++ rest := by
    rw [show 9 = 8 + 1 from rfl, ← List.drop_drop, htail]
    rfl
  have hend : (e.borshSerialize ++ rest).drop 16 = rest := by
    rw [show 16 = 9 + 7 from rfl, ← List.drop_drop, hdrop, List.drop_left' hres]
  have hsize : 16 ≤ (e.borshSerialize ++ rest).length := by
    rw [hbuf, List.length_append, List.length_cons, List.length_append, hlen, hres]
    omega
  unfold DqaEncoding.borshDeserialize
  rw [dif_pos hsize]
  simp only [htake, hvalue, hbyte, hscale, hdrop, List.take_left' hres, hend]

namespace Dqa

/-- `BorshSerialize for Dqa`. -/
def borshSerialize (host : Bytes.Endian) (d : Dqa) : List UInt8 :=
  (DqaEncoding.fromDqa host d).borshSerialize

/-- `map_err` of `BorshDeserialize for Dqa`. -/
def wrapError : Stop DqaError → Stop BorshError
  | .err e => .err (.invalidData e)
  | .panic => .panic

/-- `BorshDeserialize for Dqa`. -/
def borshDeserialize (host : Bytes.Endian) (buf : List UInt8) :
    Run BorshError (Dqa × List UInt8) := do
  let r ← DqaEncoding.borshDeserialize buf
  let d ← (r.1.toDqa host).mapError wrapError
  .ok (d, r.2)

/-! ## DCS -/

/-- `Dqa::new`. -/
def new (value : Int) (scale : Nat) (hv : InI 64 value) (hs : scale < 256) : Run DqaError Dqa :=
  if scale > maxScale then .error (.err .invalidScale) else .ok ⟨value, scale, hv, hs⟩

/-- `DcsSerializable for Dqa`: the zero-stripping loop written out again, then
`Dqa::new(..).unwrap()`. -/
def dcsSerialize (d : Dqa) : Run DqaError (List UInt8) :=
  match new d.canonicalize.value d.canonicalize.scale d.canonicalize_value_inI
    d.canonicalize_scale_lt with
  | .ok canonical =>
    .ok (i64ToBeBytes canonical.value ++ [UInt8.ofNat canonical.scale] ++ List.replicate 7 0)
  | .error _ => .error .panic

/-- The documented wire form of a `Dqa`. -/
def canonicalBytes (d : Dqa) : List UInt8 :=
  i64ToBeBytes d.canonicalize.value ++ [UInt8.ofNat d.canonicalize.scale] ++ List.replicate 7 0

/-- The numerator has the same eight bytes in both byte orders. -/
def ByteSymmetric (d : Dqa) : Prop :=
  (i64ToBeBytes d.canonicalize.value).reverse = i64ToBeBytes d.canonicalize.value

instance (d : Dqa) : Decidable d.ByteSymmetric := inferInstanceAs (Decidable (_ = _))

theorem dcsSerialize_eq {d : Dqa} (h : d.scale ≤ 18) : d.dcsSerialize = .ok d.canonicalBytes := by
  have hscale : ¬ d.canonicalize.scale > maxScale := not_lt.mpr (d.canonicalize_scale_le.trans h)
  unfold dcsSerialize new
  rw [if_neg hscale]
  rfl

theorem borshSerialize_eq (host : Bytes.Endian) (d : Dqa) :
    d.borshSerialize host = i64ToBeBytes (Bytes.hostToBe host 8 d.canonicalize.value)
      ++ [UInt8.ofNat d.canonicalize.scale] ++ List.replicate 7 0 := rfl

/-- The double swap: on a little-endian host the numerator comes out least
significant byte first. -/
theorem i64ToBeBytes_hostToBe (host : Bytes.Endian) (x : Int) :
    i64ToBeBytes (Bytes.hostToBe host 8 x) =
      match host with
      | .little => (i64ToBeBytes x).reverse
      | .big => i64ToBeBytes x := by
  cases host with
  | big => rfl
  | little =>
    have hswap := Bytes.toBe_swapBytes 8 x
    unfold i64ToBeBytes Bytes.hostToBe
    rw [hswap, Bytes.toBe, List.reverse_reverse]

theorem borshSerialize_eq_iff (host : Bytes.Endian) (d : Dqa) :
    d.borshSerialize host = d.canonicalBytes ↔ host = .big ∨ d.ByteSymmetric := by
  rw [borshSerialize_eq, canonicalBytes, List.append_left_inj, List.append_left_inj,
    i64ToBeBytes_hostToBe]
  cases host with
  | big => exact iff_of_true rfl (Or.inl rfl)
  | little =>
    show d.ByteSymmetric ↔ _
    simp

/-- **When the three encodings are one**: for every `Dqa` the code can encode
and every host. -/
theorem encoders_agree_iff (host : Bytes.Endian) {d : Dqa} (h : d.scale ≤ 18) :
    (d.borshSerialize host = d.canonicalBytes ∧ d.dcsSerialize = .ok d.canonicalBytes) ↔
      host = .big ∨ d.ByteSymmetric := by
  rw [borshSerialize_eq_iff, and_iff_left (dcsSerialize_eq h)]

/-- A numerator whose first and last byte are one and the others zero. -/
theorem encoders_agree_iff_symmetric :
    let d : Dqa := ⟨72057594037927937, 3, by decide, by decide⟩
    d.borshSerialize .little = d.canonicalBytes ∧ d.dcsSerialize = .ok d.canonicalBytes := by
  intro d
  exact (encoders_agree_iff .little (by decide)).mpr (Or.inr (by decide +kernel))

/-- The number one on a little-endian host. -/
theorem borshSerialize_one_little :
    ¬ ∀ (host : Bytes.Endian) (d : Dqa), d.scale ≤ 18 →
      d.borshSerialize host = d.canonicalBytes ∧ d.dcsSerialize = .ok d.canonicalBytes := by
  intro h
  have hone := (h .little ⟨1, 0, by decide, by decide⟩ (by decide)).1
  revert hone
  decide +kernel

/-! ## Reading back -/

/-- A host reads back the canonical form of what it wrote. -/
theorem borsh_roundTrip (host : Bytes.Endian) {d : Dqa} (h : d.scale ≤ 18) (rest : List UInt8) :
    borshDeserialize host (d.borshSerialize host ++ rest) = .ok (d.canonicalize, rest) := by
  unfold borshDeserialize borshSerialize
  rw [DqaEncoding.borshDeserialize_serialize]
  change ((DqaEncoding.fromDqa host d).toDqa host).mapError wrapError >>= _ = _
  rw [DqaEncoding.toDqa_fromDqa host h]
  rfl

end Dqa

end CipherOcto.Determin
