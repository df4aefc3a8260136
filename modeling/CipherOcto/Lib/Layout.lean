import CipherOcto.Lib.Bytes

/-!
# Fields at fixed offsets

A wire format that puts its fields at fixed offsets is written by appending them and read by
slicing. Both readings skip what stands in front of the offset, so a field is found by
walking past the fields before it.

> `slice_skip`, `wordAt_skip`: what stands in front of the offset plays no part.
> `slice_append`, `wordAt_append`: a field is read back from where it starts.
-/

namespace Bytes

/-- `data[start..start + n]`, as `copy_from_slice` takes it. -/
def slice (n : Nat) (data : List UInt8) (start : Nat) : Vector UInt8 n :=
  Vector.ofFn fun i => data.getD (start + i) 0

/-- The big-endian word of the `n` bytes at `start`. -/
def wordAt (data : List UInt8) (start n : Nat) : Nat := beNat ((data.drop start).take n)

/-- The same, the smallest byte first. -/
def leWordAt (data : List UInt8) (start n : Nat) : Nat := leNat ((data.drop start).take n)

theorem slice_append {n : Nat} (v : Vector UInt8 n) (back : List UInt8) :
    slice n (v.toList ++ back) 0 = v := by
  refine Vector.ext fun i hi => ?_
  rw [slice, Vector.getElem_ofFn, List.getD_eq_getElem?_getD, Nat.zero_add,
    List.getElem?_append_left (by rwa [Vector.length_toList]), Vector.getElem?_toList,
    Vector.getElem?_eq_getElem hi]
  rfl

theorem toList_slice {n : Nat} {data : List UInt8} (h : data.length = n) :
    (slice n data 0).toList = data := by
  have hsplit := slice_append ⟨data.toArray, h⟩ []
  rw [List.append_nil] at hsplit
  exact congrArg Vector.toList hsplit

theorem slice_skip {n start : Nat} {front : List UInt8} (h : front.length ≤ start)
    (back : List UInt8) : slice n (front ++ back) start = slice n back (start - front.length) := by
  refine Vector.ext fun i hi => ?_
  rw [slice, slice, Vector.getElem_ofFn, Vector.getElem_ofFn, List.getD_eq_getElem?_getD,
    List.getD_eq_getElem?_getD, List.getElem?_append_right (by omega)]
  congr 2
  omega

theorem wordAt_append {n x : Nat} (h : x < 256 ^ n) (back : List UInt8) :
    wordAt (toBe n x ++ back) 0 n = x := by
  rw [wordAt, List.drop_zero, List.take_left' (length_toBe n x), beNat_toBe, Nat.mod_eq_of_lt h]

theorem wordAt_skip {front : List UInt8} {start : Nat} (h : front.length ≤ start)
    (back : List UInt8) (n : Nat) :
    wordAt (front ++ back) start n = wordAt back (start - front.length) n := by
  rw [wordAt, wordAt, List.drop_append, List.drop_eq_nil_of_le h, List.nil_append]

theorem leWordAt_append (n x : Nat) (front back : List UInt8) :
    leWordAt (front ++ toLe n x ++ back) front.length n = x % 256 ^ n := by
  rw [leWordAt, List.append_assoc, List.drop_left, List.take_left' (length_toLe n x), leNat_toLe]

/-- A word is read from any prefix that has it. -/
theorem leWordAt_take {data : List UInt8} {start n k : Nat} (h : start + n ≤ k) :
    leWordAt (data.take k) start n = leWordAt data start n := by
  rw [leWordAt, leWordAt, List.drop_take, List.take_take, min_eq_left (by omega)]

/-- A field behind its length ends where the length says. -/
theorem sized_append_inj {w : Nat} {xs ys r s : List UInt8} (hx : xs.length < 256 ^ w)
    (hy : ys.length < 256 ^ w)
    (h : toBe w xs.length ++ (xs ++ r) = toBe w ys.length ++ (ys ++ s)) : xs = ys ∧ r = s := by
  obtain ⟨hlen, hrest⟩ := List.append_inj h (by rw [length_toBe, length_toBe])
  exact List.append_inj hrest (toBe_inj hx hy hlen)

/-! ## Left padding -/

theorem leNat_append_zeros (bs : List UInt8) (k : Nat) :
    leNat (bs ++ List.replicate k 0) = leNat bs := by
  induction bs with
  | nil =>
    induction k with
    | zero => rfl
    | succ k ih =>
      rw [List.nil_append] at ih
      change (0 : UInt8).toNat + 256 * leNat (List.replicate k 0) = 0
      rw [ih]
      rfl
  | cons b bs ih => rw [List.cons_append, leNat, ih, leNat]

/-- Leading zeros weigh nothing. -/
theorem beNat_zeros_append (k : Nat) (bs : List UInt8) :
    beNat (List.replicate k 0 ++ bs) = beNat bs := by
  rw [beNat, List.reverse_append, List.reverse_replicate, leNat_append_zeros, beNat]

end Bytes
