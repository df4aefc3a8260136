import CipherOcto.Lib.Machine

/-!
# Bits packed into bytes

Bit `i` of a byte string is bit `i % 8` of its byte `i / 8`, the least significant one first.
Reading or marking a bit of a byte that is not there is an index out of range.

> `bit_mark`: a bit that is marked is set, and the others are what they were.
> `read_eq_ok`, `write_of_lt`: the two accesses, where they do not panic.
-/

namespace BitArray

open Machine

/-- The bit alone in its byte. -/
def mask (i : Nat) : UInt8 := 1 <<< UInt8.ofNat (i % 8)

/-- Bit `i`; there is none set past the end. -/
def bit (bits : List UInt8) (i : Nat) : Bool := bits.getD (i / 8) 0 &&& mask i != 0

/-- The bytes with bit `i` set. -/
def mark (bits : List UInt8) (i : Nat) : List UInt8 :=
  bits.set (i / 8) (bits.getD (i / 8) 0 ||| mask i)

/-- `bits[i / 8] & (1 << (i % 8)) != 0`. -/
def read {ε : Type} (bits : List UInt8) (i : Nat) : Run ε Bool := do
  let byte ← index bits (i / 8)
  pure (byte &&& mask i != 0)

/-- `bits[i / 8] |= 1 << (i % 8)`. -/
def write {ε : Type} (bits : List UInt8) (i : Nat) : Run ε (List UInt8) := do
  let byte ← index bits (i / 8)
  pure (bits.set (i / 8) (byte ||| mask i))

theorem toNat_mask (i : Nat) : (mask i).toNat = 2 ^ (i % 8) := by
  have hall : ∀ k : Fin 8, (1 <<< UInt8.ofNat k.1 : UInt8).toNat = 2 ^ k.1 := by decide
  exact hall ⟨i % 8, Nat.mod_lt i (by decide)⟩

theorem and_mask_ne_zero (byte : UInt8) (i : Nat) :
    (byte &&& mask i != 0) = byte.toNat.testBit (i % 8) := by
  rw [Bool.eq_iff_iff, bne_iff_ne, ne_eq, ← UInt8.toNat_inj, UInt8.toNat_and, toNat_mask,
    Nat.and_two_pow]
  cases byte.toNat.testBit (i % 8) with
  | false => simp
  | true => simp

theorem testBit_or_mask (byte : UInt8) (i j : Nat) :
    (byte ||| mask i).toNat.testBit (j % 8) =
      (byte.toNat.testBit (j % 8) || decide (i % 8 = j % 8)) := by
  rw [UInt8.toNat_or, Nat.testBit_or, toNat_mask, Nat.testBit_two_pow]

variable {bits : List UInt8} {i j : Nat}

theorem length_mark : (mark bits i).length = bits.length := List.length_set ..

/-- **A bit that is marked is set**, and the others are what they were. -/
theorem bit_mark (h : i / 8 < bits.length) :
    bit (mark bits i) j = (bit bits j || decide (i = j)) := by
  unfold bit
  rw [and_mask_ne_zero, and_mask_ne_zero, mark, List.getD_eq_getElem?_getD, List.getElem?_set]
  by_cases hbyte : i / 8 = j / 8
  · have hbit : i % 8 = j % 8 ↔ i = j := by omega
    rw [if_pos hbyte, if_pos h, Option.getD_some, testBit_or_mask, decide_eq_decide.mpr hbit, hbyte]
  · have hne : i ≠ j := fun heq => hbyte (congrArg (· / 8) heq)
    rw [if_neg hbyte, decide_eq_false hne, Bool.or_false, ← List.getD_eq_getElem?_getD]

theorem read_eq_ok {ε : Type} {b : Bool} :
    (read bits i : Run ε Bool) = .ok b ↔ i / 8 < bits.length ∧ b = bit bits i := by
  unfold read index bit
  rw [List.getD_eq_getElem?_getD]
  by_cases h : i / 8 < bits.length
  · rw [List.getElem?_eq_getElem h, and_iff_right h]
    exact ⟨fun hok => (Except.ok.inj hok).symm, fun heq => congrArg Except.ok heq.symm⟩
  · rw [List.getElem?_eq_none (not_lt.mp h)]
    exact iff_of_false (fun hok => nomatch hok) fun hok => h hok.1

theorem write_of_lt {ε : Type} (h : i / 8 < bits.length) :
    (write bits i : Run ε (List UInt8)) = .ok (mark bits i) := by
  unfold write index mark
  rw [List.getD_eq_getElem?_getD, List.getElem?_eq_getElem h]
  rfl

/-- What marking several bits sets. -/
theorem bit_foldl_mark {js : List Nat} (h : ∀ k ∈ js, k / 8 < bits.length) :
    bit (js.foldl mark bits) j = true ↔ bit bits j = true ∨ j ∈ js := by
  induction js generalizing bits with
  | nil => exact (or_iff_left List.not_mem_nil).symm
  | cons k js ih =>
    rw [List.foldl_cons, ih fun l hl => length_mark.symm ▸ h l (List.mem_cons_of_mem k hl),
      bit_mark (h k List.mem_cons_self), Bool.or_eq_true, decide_eq_true_eq, List.mem_cons,
      or_assoc, eq_comm (a := j)]

theorem length_foldl_mark (js : List Nat) (bits : List UInt8) :
    (js.foldl mark bits).length = bits.length := by
  induction js generalizing bits with
  | nil => rfl
  | cons k js ih => rw [List.foldl_cons, ih, length_mark]

end BitArray
