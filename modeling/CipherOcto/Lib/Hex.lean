import CipherOcto.Lib.Bytes

/-!
# Hexadecimal text

A byte is written as two digits, the high half first, in lower case; either case is read
back. Text of ASCII characters has one byte for each of them.

> `decode_encode`: what is written is read back.
> `length_toUTF8_of_ascii`: the bytes of ASCII text are as many as its characters.
-/

namespace CipherOcto.Hex

def digit (n : Nat) : Char := if n < 10 then Char.ofNat (48 + n) else Char.ofNat (87 + n)

/-- The value of a digit of either case. -/
def value (c : Char) : Option Nat :=
  if 48 ≤ c.toNat ∧ c.toNat < 58 then some (c.toNat - 48)
  else if 97 ≤ c.toNat ∧ c.toNat < 103 then some (c.toNat - 87)
  else if 65 ≤ c.toNat ∧ c.toNat < 71 then some (c.toNat - 55)
  else none

def encode (bytes : List UInt8) : List Char :=
  bytes.flatMap fun b => [digit (b.toNat / 16), digit (b.toNat % 16)]

def decode : List Char → Option (List UInt8)
  | [] => some []
  | [_] => none
  | hi :: lo :: cs => do
    let h ← value hi
    let l ← value lo
    let rest ← decode cs
    pure (UInt8.ofNat (16 * h + l) :: rest)

theorem value_digit : ∀ n < 16, value (digit n) = some n := by decide

theorem digit_ascii : ∀ n < 16, (digit n).toNat < 128 := by decide

theorem encode_cons (b : UInt8) (bytes : List UInt8) :
    encode (b :: bytes) = digit (b.toNat / 16) :: digit (b.toNat % 16) :: encode bytes := rfl

@[simp] theorem length_encode (bytes : List UInt8) : (encode bytes).length = 2 * bytes.length := by
  induction bytes with
  | nil => rfl
  | cons b bytes ih =>
    rw [encode_cons, List.length_cons, List.length_cons, List.length_cons, ih]
    omega

theorem encode_ascii {bytes : List UInt8} : ∀ c ∈ encode bytes, c.toNat < 128 := by
  induction bytes with
  | nil => exact fun c hc => absurd hc List.not_mem_nil
  | cons b bytes ih =>
    have hlt := b.toNat_lt
    rw [encode_cons, List.forall_mem_cons, List.forall_mem_cons]
    exact ⟨digit_ascii _ (by omega), digit_ascii _ (by omega), ih⟩

/-- What is written is read back. -/
theorem decode_encode (bytes : List UInt8) : decode (encode bytes) = some bytes := by
  induction bytes with
  | nil => rfl
  | cons b bytes ih =>
    have hlt := b.toNat_lt
    have hbyte : UInt8.ofNat (16 * (b.toNat / 16) + b.toNat % 16) = b := by
      rw [Nat.div_add_mod, UInt8.ofNat_toNat]
    rw [encode_cons, decode, value_digit _ (by omega), value_digit _ (by omega), ih]
    show some (_ :: bytes) = _
    rw [hbyte]

theorem encode_injective {a b : List UInt8} (h : encode a = encode b) : a = b := by
  have hread := decode_encode a
  rw [h, decode_encode] at hread
  exact (Option.some.inj hread).symm

/-! ## ASCII -/

theorem utf8EncodeChar_length_of_ascii {c : Char} (h : c.toNat < 128) :
    (String.utf8EncodeChar c).length = 1 := by
  rw [String.length_utf8EncodeChar, Char.utf8Size, if_pos]
  exact Nat.le_of_lt_succ h

/-- The bytes of ASCII text are as many as its characters. -/
theorem length_toUTF8_of_ascii {cs : List Char} (h : ∀ c ∈ cs, c.toNat < 128) :
    (String.ofList cs).toUTF8.toList.length = cs.length := by
  rw [Bytes.byteArray_toList, String.toUTF8_eq_toByteArray, String.toByteArray_ofList]
  induction cs with
  | nil => rfl
  | cons c cs ih =>
    rw [List.forall_mem_cons] at h
    rw [List.utf8Encode_cons, List.utf8Encode_singleton, ByteArray.data_append, Array.toList_append,
      List.length_append, ih h.2, List.length_cons, Nat.add_comm]
    have hsize : (String.utf8EncodeChar c).toByteArray.size = 1 := by
      rw [List.size_toByteArray, utf8EncodeChar_length_of_ascii h.1]
    exact congrArg (cs.length + ·) hsize

end CipherOcto.Hex
