import Mathlib

/-!
# Fixed-width byte strings

Little- and big-endian readings of byte lists and the two's-complement view of
a signed word. The little-endian form is the structural one (head first); the
big-endian form is its reversal, so every fact about `toBe`/`beNat` is a fact
about `toLe`/`leNat` read backwards.
-/

namespace Bytes

/-- The number a byte list denotes, least significant byte first. -/
def leNat : List UInt8 → Nat
  | [] => 0
  | b :: bs => b.toNat + 256 * leNat bs

/-- The `w` low bytes of `x`, least significant first. -/
def toLe : Nat → Nat → List UInt8
  | 0, _ => []
  | w + 1, x => UInt8.ofNat (x % 256) :: toLe w (x / 256)

/-- The number a byte list denotes, most significant byte first. -/
def beNat (bs : List UInt8) : Nat := leNat bs.reverse

/-- The `w` low bytes of `x`, most significant first. -/
def toBe (w x : Nat) : List UInt8 := (toLe w x).reverse

@[simp] theorem length_toLe : ∀ (w x : Nat), (toLe w x).length = w
  | 0, _ => rfl
  | w + 1, x => by simp [toLe, length_toLe w]

@[simp] theorem length_toBe (w x : Nat) : (toBe w x).length = w := by simp [toBe]

theorem leNat_lt : ∀ bs : List UInt8, leNat bs < 256 ^ bs.length
  | [] => by simp [leNat]
  | b :: bs => by
    have hb := b.toNat_lt
    have hrec := leNat_lt bs
    simp only [leNat, List.length_cons, pow_succ']
    omega

theorem beNat_lt (bs : List UInt8) : beNat bs < 256 ^ bs.length := by
  simpa [beNat] using leNat_lt bs.reverse

theorem leNat_toLe : ∀ (w x : Nat), leNat (toLe w x) = x % 256 ^ w
  | 0, x => by simp [toLe, leNat, Nat.mod_one]
  | w + 1, x => by
    have hb : (UInt8.ofNat (x % 256)).toNat = x % 256 := by
      simp
    rw [toLe, leNat, hb, leNat_toLe w, pow_succ', Nat.mod_mul]

theorem toLe_leNat : ∀ bs : List UInt8, toLe bs.length (leNat bs) = bs
  | [] => rfl
  | b :: bs => by
    have hb := b.toNat_lt
    have hmod : (b.toNat + 256 * leNat bs) % 256 = b.toNat := by omega
    have hdiv : (b.toNat + 256 * leNat bs) / 256 = leNat bs := by omega
    rw [List.length_cons, toLe, leNat, hmod, hdiv, toLe_leNat bs, UInt8.ofNat_toNat]

theorem beNat_toBe (w x : Nat) : beNat (toBe w x) = x % 256 ^ w := by
  rw [beNat, toBe, List.reverse_reverse, leNat_toLe]

theorem toBe_beNat (bs : List UInt8) : toBe bs.length (beNat bs) = bs := by
  have h := toLe_leNat bs.reverse
  rw [List.length_reverse] at h
  rw [toBe, beNat, h, List.reverse_reverse]

/-! ## Two's complement -/

/-- The signed word of `w` bits stored as the unsigned word `n`. -/
def signed (w n : Nat) : Int := (n : Int).bmod (2 ^ w)

/-- The unsigned word storing the signed value `x`. -/
def unsigned (w : Nat) (x : Int) : Nat := (x % (2 ^ w : Nat)).toNat

theorem unsigned_lt (w : Nat) (x : Int) : unsigned w x < 2 ^ w := by
  have hpos : (0 : Int) < (2 ^ w : Nat) := by exact_mod_cast Nat.two_pow_pos w
  have h1 := Int.emod_nonneg x (ne_of_gt hpos)
  have h2 := Int.emod_lt_of_pos x hpos
  unfold unsigned
  omega

theorem signed_bounds {w : Nat} (hw : 0 < w) (n : Nat) :
    -(2 ^ (w - 1) : Nat) ≤ signed w n ∧ signed w n < (2 ^ (w - 1) : Nat) := by
  have hpow : (2 ^ w : Nat) = 2 * 2 ^ (w - 1) := by rw [← pow_succ', Nat.sub_add_cancel hw]
  have h1 := Int.le_bmod (x := (n : Int)) (m := 2 ^ w) (Nat.two_pow_pos w)
  have h2 := Int.bmod_lt (x := (n : Int)) (m := 2 ^ w) (Nat.two_pow_pos w)
  unfold signed
  constructor <;> omega

theorem signed_of_lt {w n : Nat} (hw : 0 < w) (h : n < 2 ^ (w - 1)) : signed w n = n := by
  have hpow : (2 ^ w : Nat) = 2 * 2 ^ (w - 1) := by rw [← pow_succ', Nat.sub_add_cancel hw]
  unfold signed
  apply Int.bmod_eq_of_le <;> omega

theorem signed_unsigned {w : Nat} (hw : 0 < w) {x : Int} (hlo : -(2 ^ (w - 1) : Nat) ≤ x)
    (hhi : x < (2 ^ (w - 1) : Nat)) : signed w (unsigned w x) = x := by
  have hpow : (2 ^ w : Nat) = 2 * 2 ^ (w - 1) := by rw [← pow_succ', Nat.sub_add_cancel hw]
  have hpos : (0 : Int) < (2 ^ w : Nat) := by exact_mod_cast Nat.two_pow_pos w
  have hcast : ((unsigned w x : Nat) : Int) = x % (2 ^ w : Nat) :=
    Int.toNat_of_nonneg (Int.emod_nonneg x (ne_of_gt hpos))
  unfold signed
  rw [hcast, Int.emod_bmod]
  apply Int.bmod_eq_of_le <;> omega

theorem unsigned_signed {w n : Nat} (hn : n < 2 ^ w) : unsigned w (signed w n) = n := by
  unfold unsigned signed
  rw [Int.bmod_emod, Int.emod_eq_of_lt (by omega) (by exact_mod_cast hn), Int.toNat_natCast]

/-! ## Byte order -/

/-- The byte order of a host. -/
inductive Endian where
  | little
  | big
deriving Repr, DecidableEq

/-- `x.swap_bytes()` on a signed word of `n` bytes. -/
def swapBytes (n : Nat) (x : Int) : Int := signed (8 * n) (leNat (toBe n (unsigned (8 * n) x)))

/-- `x.to_be()`, which is also `from_be(x)`: a swap on little-endian hosts. -/
def hostToBe (host : Endian) (n : Nat) (x : Int) : Int :=
  match host with
  | .little => swapBytes n x
  | .big => x

theorem pow_256 (n : Nat) : 256 ^ n = 2 ^ (8 * n) := by rw [pow_mul]; rfl

theorem unsigned_swapBytes (n : Nat) (x : Int) :
    unsigned (8 * n) (swapBytes n x) = leNat (toBe n (unsigned (8 * n) x)) := by
  apply unsigned_signed
  have h := leNat_lt (toBe n (unsigned (8 * n) x))
  rwa [length_toBe, pow_256] at h

/-- The bytes of a swapped word, most significant first, are the bytes of the
word, least significant first. -/
theorem toBe_swapBytes (n : Nat) (x : Int) :
    toBe n (unsigned (8 * n) (swapBytes n x)) = toLe n (unsigned (8 * n) x) := by
  have h := toLe_leNat (toBe n (unsigned (8 * n) x))
  rw [length_toBe] at h
  rw [unsigned_swapBytes, toBe, h, toBe, List.reverse_reverse]

theorem swapBytes_swapBytes {n : Nat} (hn : 0 < n) {x : Int}
    (hlo : -(2 ^ (8 * n - 1) : Nat) ≤ x) (hhi : x < (2 ^ (8 * n - 1) : Nat)) :
    swapBytes n (swapBytes n x) = x := by
  have hu : unsigned (8 * n) x < 256 ^ n := by rw [pow_256]; exact unsigned_lt _ x
  conv_lhs => rw [swapBytes, toBe_swapBytes, leNat_toLe, Nat.mod_eq_of_lt hu]
  exact signed_unsigned (by omega) hlo hhi

theorem swapBytes_bounds {n : Nat} (hn : 0 < n) (x : Int) :
    -(2 ^ (8 * n - 1) : Nat) ≤ swapBytes n x ∧ swapBytes n x < (2 ^ (8 * n - 1) : Nat) :=
  signed_bounds (by omega) _

/-! ## Byte arrays and strings -/

theorem byteArray_loop (bs : ByteArray) (i : Nat) (r : List UInt8) :
    ByteArray.toList.loop bs i r = r.reverse ++ bs.data.toList.drop i := by
  unfold ByteArray.toList.loop
  split
  next h =>
    have hlt : i < bs.data.toList.length := h
    have hget : bs.get! i = bs.data.toList[i] := by
      show bs.data[i]! = _
      rw [getElem!_pos bs.data i h, Array.getElem_toList]
    rw [byteArray_loop bs (i + 1) (bs.get! i :: r), List.drop_eq_getElem_cons hlt,
      List.reverse_cons, List.append_assoc, hget]
    rfl
  next h => rw [List.drop_eq_nil_of_le (Nat.not_lt.mp h), List.append_nil]
termination_by bs.size - i

theorem byteArray_toList (bs : ByteArray) : bs.toList = bs.data.toList := byteArray_loop bs 0 []

/-- A string is determined by its UTF-8 bytes. -/
theorem toUTF8_toList_inj {s t : String} (h : s.toUTF8.toList = t.toUTF8.toList) : s = t := by
  rw [byteArray_toList, byteArray_toList] at h
  exact String.toByteArray_inj.mp (ByteArray.ext (Array.ext' h))

/-- What decodes to a string is its UTF-8 bytes. -/
theorem fromUTF8_eq_some_iff {bs : List UInt8} {s : String} :
    String.fromUTF8? ⟨bs.toArray⟩ = some s ↔ s.toUTF8.toList = bs := by
  rw [byteArray_toList]
  unfold String.fromUTF8?
  constructor
  · intro h
    split at h
    next =>
      cases h
      rfl
    next => cases h
  · intro h
    subst h
    have hvalid : ByteArray.IsValidUTF8 ⟨s.toUTF8.data.toList.toArray⟩ := s.isValidUTF8
    rw [dif_pos hvalid]
    rfl

theorem toBe_inj {w x y : Nat} (hx : x < 256 ^ w) (hy : y < 256 ^ w) (h : toBe w x = toBe w y) :
    x = y := by
  have hval := congrArg beNat h
  rwa [beNat_toBe, beNat_toBe, Nat.mod_eq_of_lt hx, Nat.mod_eq_of_lt hy] at hval

/-- A word is what its eight bytes say. -/
theorem toBe8_inj {a b : UInt64} (h : toBe 8 a.toNat = toBe 8 b.toNat) : a = b :=
  UInt64.toNat_inj.mp (toBe_inj a.toNat_lt b.toNat_lt h)

/-- A string of fixed length is told from what stands behind it. -/
theorem toList_append_inj {n : Nat} {a b : Vector UInt8 n} {xs ys : List UInt8}
    (h : a.toList ++ xs = b.toList ++ ys) : a = b ∧ xs = ys := by
  obtain ⟨hfront, hrest⟩ := List.append_inj h (by rw [Vector.length_toList, Vector.length_toList])
  exact ⟨Vector.toList_inj.mp hfront, hrest⟩

/-! ## Order -/

instance linearOrderUInt8 : LinearOrder UInt8 where
  le_refl := UInt8.le_refl
  le_trans _ _ _ := UInt8.le_trans
  lt_iff_le_not_ge a b := by
    rw [UInt8.lt_iff_toNat_lt, UInt8.le_iff_toNat_le, UInt8.le_iff_toNat_le]
    omega
  le_antisymm _ _ := UInt8.le_antisymm
  le_total := UInt8.le_total
  toDecidableLE := inferInstance

/-- Byte arrays are compared byte by byte, as their lists are. -/
instance linearOrderVector (n : Nat) : LinearOrder (Vector UInt8 n) :=
  LinearOrder.lift' Vector.toList fun _ _ h => Vector.toList_inj.mp h

/-- The zero bytes come first. -/
theorem not_lt_replicate_zero : ∀ l : List UInt8, ¬l < List.replicate l.length 0
  | [] => List.not_lt_nil []
  | a :: l => by
    rw [List.length_cons, List.replicate_succ, List.cons_lt_cons_iff]
    intro h
    rcases h with hfirst | ⟨-, hrest⟩
    · exact absurd (UInt8.lt_iff_toNat_lt.mp hfirst) (Nat.not_lt_zero _)
    · exact not_lt_replicate_zero l hrest

theorem not_lt_zero {n : Nat} (v : Vector UInt8 n) : ¬v < Vector.replicate n 0 := by
  intro h
  have hlist : v.toList < (Vector.replicate n (0 : UInt8)).toList := h
  rw [Vector.toList_replicate] at hlist
  have hlen := v.length_toList
  exact not_lt_replicate_zero v.toList (by rwa [hlen])

end Bytes
