import CipherOcto.Cap.Chain
import CipherOcto.Lib.Chunks
import CipherOcto.Lib.Layout

/-!
# Bytes packed into field elements

`bytes_to_felts` and `felts_to_bytes` of `substrate_poseidon.rs`. A packing is the number of
bytes followed by 31 bytes to an element; the unpacker reads the number, counts the groups,
and takes from every group its low bytes after looking at the ones in front of them.

The groups leave no room for a second reading: 31 bytes are below the prime, so an element
whose leading bytes are zero is the element of its other bytes, and only the last group may
be short.

> `feltsToBytes_eq_some_iff`: what an accepted packing is, element by element.

The number in front does leave room. Of its four limbs the unpacker reads the lowest, and
an element that differs in the others unpacks to the same bytes.

> `feltsToBytes_inverse_iff`: the unpacker inverts the packer, and what it accepts is what
> the packer made exactly if the number in front is below `2 ^ 64`.
-/

namespace CipherOcto.Cap

/-- `to_le_digits()[0]`. -/
def lowDigit (f : Felt) : Nat := f.val % 2 ^ 64

/-- `to_bytes_be`. -/
def toBytesBe (f : Felt) : List UInt8 := Bytes.toBe 32 f.val

/-- How wide the last group of `len` bytes is. -/
def lastWidth (len : Nat) : Nat :=
  if len % bytesPerFelt = 0 then bytesPerFelt else len % bytesPerFelt

/-- The loop of `felts_to_bytes` over the groups. -/
def unpackGroups (len : Nat) : List Felt → List UInt8 → Option (List UInt8)
  | [], out => some out
  | f :: rest, out =>
    let be := toBytesBe f
    let width := if rest.isEmpty then lastWidth len else bytesPerFelt
    if (be.take (32 - width)).any (· ≠ 0) then none
    else unpackGroups len rest (out ++ be.drop (32 - width))

def feltsToBytes : List Felt → Option (List UInt8)
  | [] => none
  | head :: body =>
    let len := lowDigit head
    let expectedGroups := (len + (bytesPerFelt - 1)) / bytesPerFelt
    if body.length ≠ expectedGroups then none
    else if expectedGroups = 0 then (if len = 0 then some [] else none)
    else unpackGroups len body []

/-! ## One group -/

/-- A group of at most 31 bytes, right-aligned in an element's bytes. -/
def group (chunk : List UInt8) : Felt :=
  feltFromBytes (List.replicate (32 - chunk.length) 0 ++ chunk)

theorem bytesToFelts_eq (bytes : List UInt8) :
    bytesToFelts bytes =
      Felt.ofNat (bytes.length % 2 ^ 64) :: (bytes.toChunks bytesPerFelt).map group := rfl

theorem toBytesBe_inj {f g : Felt} (h : toBytesBe f = toBytesBe g) : f = g :=
  Fin.ext (Bytes.toBe_inj (f.isLt.trans feltPrime_lt) (g.isLt.trans feltPrime_lt) h)

/-- 31 bytes stay below the prime, so nothing is reduced. -/
theorem toBytesBe_group {chunk : List UInt8} (h : chunk.length ≤ bytesPerFelt) :
    toBytesBe (group chunk) = List.replicate (32 - chunk.length) 0 ++ chunk := by
  have hsmall : Bytes.beNat chunk < feltPrime := by
    calc Bytes.beNat chunk < 256 ^ chunk.length := Bytes.beNat_lt chunk
      _ ≤ 256 ^ bytesPerFelt := Nat.pow_le_pow_right (by decide) h
      _ < feltPrime := by decide
  have hval : (group chunk).val = Bytes.beNat (List.replicate (32 - chunk.length) 0 ++ chunk) := by
    unfold group feltFromBytes Felt.ofNat
    rw [Bytes.beNat_zeros_append]
    exact Nat.mod_eq_of_lt hsmall
  have hlen : (List.replicate (32 - chunk.length) (0 : UInt8) ++ chunk).length = 32 := by
    rw [List.length_append, List.length_replicate]
    unfold bytesPerFelt at h
    omega
  have hbytes := Bytes.toBe_beNat (List.replicate (32 - chunk.length) (0 : UInt8) ++ chunk)
  rw [hlen] at hbytes
  rw [toBytesBe, hval, hbytes]

/-- The bytes taken from a group whose leading bytes are zero are the ones it was made of. -/
theorem group_iff {w : Nat} (hw : w ≤ bytesPerFelt) (f : Felt) (chunk : List UInt8) :
    ((toBytesBe f).take (32 - w)).any (· ≠ 0) = false ∧ (toBytesBe f).drop (32 - w) = chunk ↔
      chunk.length = w ∧ f = group chunk := by
  have hlen : (toBytesBe f).length = 32 := Bytes.length_toBe 32 f.val
  have hwidth : w ≤ 31 := hw
  constructor
  · rintro ⟨hzero, rfl⟩
    have hdrop : ((toBytesBe f).drop (32 - w)).length = w := by
      rw [List.length_drop, hlen]
      omega
    refine ⟨hdrop, toBytesBe_inj ?_⟩
    have htake : (toBytesBe f).take (32 - w) = List.replicate (32 - w) 0 := by
      rw [List.eq_replicate_iff, List.length_take, hlen]
      refine ⟨by omega, fun b hb => ?_⟩
      have hb' := List.any_eq_false.mp hzero b hb
      simpa using hb'
    rw [toBytesBe_group (by rwa [hdrop]), hdrop, ← htake, List.take_append_drop]
  · rintro ⟨rfl, rfl⟩
    have hsplit := List.length_replicate (n := 32 - chunk.length) (a := (0 : UInt8))
    rw [toBytesBe_group hw, List.take_left' hsplit, List.drop_left' hsplit]
    exact ⟨by simp, rfl⟩

/-! ## The groups -/

theorem lastWidth_bounds (len : Nat) : 0 < lastWidth len ∧ lastWidth len ≤ bytesPerFelt := by
  unfold lastWidth bytesPerFelt
  split <;> omega

theorem unpackGroups_single (len : Nat) (f : Felt) (out : List UInt8) (bytes : List UInt8) :
    unpackGroups len [f] out = some bytes ↔
      ∃ chunk, bytes = out ++ chunk ∧ chunk.length = lastWidth len ∧ f = group chunk := by
  have hgroup := group_iff (lastWidth_bounds len).2 f
  unfold unpackGroups
  simp only [List.isEmpty_nil, if_true]
  split
  next hbad =>
    refine ⟨nofun, fun ⟨chunk, _, hchunk⟩ => ?_⟩
    rw [((hgroup chunk).mpr hchunk).1] at hbad
    cases hbad
  next hgood =>
    rw [unpackGroups, Option.some_inj]
    constructor
    · rintro rfl
      exact ⟨_, rfl, (hgroup _).mp ⟨Bool.not_eq_true _ ▸ hgood, rfl⟩⟩
    · rintro ⟨chunk, rfl, hchunk⟩
      rw [((hgroup chunk).mpr hchunk).2]

theorem unpackGroups_cons (len : Nat) (f g : Felt) (rest : List Felt) (out bytes : List UInt8) :
    unpackGroups len (f :: g :: rest) out = some bytes ↔
      ∃ chunk, chunk.length = bytesPerFelt ∧ f = group chunk ∧
        unpackGroups len (g :: rest) (out ++ chunk) = some bytes := by
  have hgroup := group_iff (le_refl bytesPerFelt) f
  rw [unpackGroups]
  simp only [List.isEmpty_cons, Bool.false_eq_true, if_false]
  split
  next hbad =>
    refine ⟨nofun, fun ⟨chunk, hlen, hchunk, _⟩ => ?_⟩
    rw [((hgroup chunk).mpr ⟨hlen, hchunk⟩).1] at hbad
    cases hbad
  next hgood =>
    constructor
    · intro hrest
      have hchunk := (hgroup _).mp ⟨Bool.not_eq_true _ ▸ hgood, rfl⟩
      exact ⟨_, hchunk.1, hchunk.2, hrest⟩
    · rintro ⟨chunk, hlen, hchunk, hrest⟩
      rw [((hgroup chunk).mpr ⟨hlen, hchunk⟩).2]
      exact hrest

/-- **The groups unpack to the bytes they are the groups of**, and to no others. -/
theorem unpackGroups_eq_some_iff (len : Nat) (body : List Felt) (f : Felt)
    (out bytes : List UInt8) :
    unpackGroups len (f :: body) out = some bytes ↔
      ∃ data, bytes = out ++ data ∧ data.length = bytesPerFelt * body.length + lastWidth len ∧
        f :: body = (data.toChunks bytesPerFelt).map group := by
  induction body generalizing f out with
  | nil =>
    rw [unpackGroups_single]
    refine exists_congr fun chunk => and_congr_right fun _ => ?_
    rw [List.length_nil, Nat.mul_zero, Nat.zero_add]
    refine and_congr_right fun hlen => ?_
    obtain ⟨hpos, hle⟩ := lastWidth_bounds len
    rw [List.toChunks_of_length_le (List.ne_nil_of_length_pos (hlen ▸ hpos)) (hlen ▸ hle)]
    simp
  | cons g rest ih =>
    rw [unpackGroups_cons]
    constructor
    · rintro ⟨chunk, hlen, hf, hrest⟩
      obtain ⟨data, hbytes, hdata, hgroups⟩ := (ih g (out ++ chunk)).mp hrest
      have hne : data ≠ [] := by
        rintro rfl
        cases hgroups
      refine ⟨chunk ++ data, by rw [hbytes, List.append_assoc], ?_, ?_⟩
      · rw [List.length_append, hlen, hdata, List.length_cons]
        ring
      · rw [List.toChunks_append (by decide) hlen hne, List.map_cons, ← hf, ← hgroups]
    · rintro ⟨data, hbytes, hdata, hgroups⟩
      rw [List.length_cons] at hdata
      obtain ⟨hpos, -⟩ := lastWidth_bounds len
      have htake : (data.take bytesPerFelt).length = bytesPerFelt := by
        rw [List.length_take]
        unfold bytesPerFelt at hdata ⊢
        omega
      have hdrop : (data.drop bytesPerFelt).length =
          bytesPerFelt * rest.length + lastWidth len := by
        rw [List.length_drop]
        unfold bytesPerFelt at hdata ⊢
        omega
      have hne : data.drop bytesPerFelt ≠ [] :=
        List.ne_nil_of_length_pos (by rw [hdrop]; omega)
      rw [← List.take_append_drop bytesPerFelt data,
        List.toChunks_append (by decide) htake hne, List.map_cons] at hgroups
      obtain ⟨hf, hrest⟩ := List.cons.inj hgroups
      refine ⟨data.take bytesPerFelt, htake, hf,
        (ih g _).mpr ⟨data.drop bytesPerFelt, ?_, hdrop, hrest⟩⟩
      rw [hbytes, List.append_assoc, List.take_append_drop]

/-! ## The whole packing -/

theorem width_of_groups {len n : Nat} (h : n + 1 = (len + (bytesPerFelt - 1)) / bytesPerFelt) :
    bytesPerFelt * n + lastWidth len = len := by
  unfold lastWidth
  unfold bytesPerFelt at h ⊢
  split <;> omega

/-- **What an accepted packing is**: as many bytes as the low limb in front says, cut into
groups. -/
theorem feltsToBytes_eq_some_iff {fs : List Felt} {bytes : List UInt8} :
    feltsToBytes fs = some bytes ↔
      ∃ head body, fs = head :: body ∧ bytes.length = lowDigit head ∧
        body = (bytes.toChunks bytesPerFelt).map group := by
  cases fs with
  | nil => exact ⟨nofun, fun ⟨_, _, h, _⟩ => by cases h⟩
  | cons head body =>
    have hheads : (∃ head' body', head :: body = head' :: body' ∧
          bytes.length = lowDigit head' ∧ body' = (bytes.toChunks bytesPerFelt).map group) ↔
        bytes.length = lowDigit head ∧ body = (bytes.toChunks bytesPerFelt).map group := by
      constructor
      · rintro ⟨head', body', h, hrest⟩
        obtain ⟨rfl, rfl⟩ := List.cons.inj h
        exact hrest
      · exact fun h => ⟨head, body, rfl, h⟩
    rw [hheads]
    have hcount : (bytes.toChunks bytesPerFelt).length =
        (bytes.length + bytesPerFelt - 1) / bytesPerFelt :=
      List.length_toChunks (by decide) bytes
    unfold feltsToBytes
    dsimp only
    split
    next hbad =>
      refine ⟨nofun, fun ⟨hlen, hbody⟩ => absurd ?_ hbad⟩
      rw [hbody, List.length_map, hcount, hlen]
      rfl
    next hgood =>
      rw [not_not] at hgood
      cases body with
      | nil =>
        have hzero : lowDigit head = 0 := by
          rw [List.length_nil] at hgood
          unfold bytesPerFelt at hgood
          omega
        rw [← hgood, hzero]
        simp only [List.length_nil, if_true, Option.some_inj]
        constructor
        · rintro rfl
          exact ⟨rfl, rfl⟩
        · exact fun ⟨hlen, _⟩ => (List.length_eq_zero_iff.mp hlen).symm
      | cons f rest =>
        rw [List.length_cons] at hgood
        rw [if_neg (by omega), unpackGroups_eq_some_iff, width_of_groups hgood]
        constructor
        · rintro ⟨data, rfl, hdata, hgroups⟩
          exact ⟨hdata, hgroups⟩
        · exact fun ⟨hlen, hgroups⟩ => ⟨bytes, rfl, hlen, hgroups⟩

theorem feltsToBytes_bytesToFelts {bytes : List UInt8} (h : bytes.length < 2 ^ 64) :
    feltsToBytes (bytesToFelts bytes) = some bytes := by
  refine feltsToBytes_eq_some_iff.mpr ⟨_, _, bytesToFelts_eq bytes, ?_, rfl⟩
  have hprime : bytes.length < feltPrime := h.trans (by decide)
  have hval : (Felt.ofNat (bytes.length % 2 ^ 64)).val = bytes.length := by
    rw [Nat.mod_eq_of_lt h]
    exact Nat.mod_eq_of_lt hprime
  rw [lowDigit, hval, Nat.mod_eq_of_lt h]

/-- **Unpacking inverts packing**, and packing inverts unpacking as far as the number in
front fits the limb that is read of it. -/
theorem feltsToBytes_inverse_iff (bytes : List UInt8) (fs : List Felt) :
    (bytes.length < 2 ^ 64 → feltsToBytes (bytesToFelts bytes) = some bytes) ∧
    (feltsToBytes fs = some bytes →
      (fs = bytesToFelts bytes ↔ ∀ head ∈ fs.head?, head.val < 2 ^ 64)) := by
  refine ⟨feltsToBytes_bytesToFelts, fun hfs => ?_⟩
  obtain ⟨head, body, rfl, hlen, hbody⟩ := feltsToBytes_eq_some_iff.mp hfs
  have hhead : (∀ f ∈ (head :: body).head?, f.val < 2 ^ 64) ↔ head.val < 2 ^ 64 := by
    simp
  have hlow : lowDigit head < 2 ^ 64 := Nat.mod_lt _ (by decide)
  have hpacked : (Felt.ofNat (bytes.length % 2 ^ 64)).val = lowDigit head := by
    rw [hlen, Nat.mod_eq_of_lt hlow]
    exact Nat.mod_eq_of_lt (hlow.trans (by decide))
  rw [hhead, bytesToFelts_eq, ← hbody, List.cons.injEq, and_iff_left rfl, Fin.ext_iff, hpacked]
  unfold lowDigit
  constructor
  · intro heq
    rw [heq]
    exact hlow
  · exact fun hlt => (Nat.mod_eq_of_lt hlt).symm

/-- Two bytes, both ways. -/
theorem feltsToBytes_inverse_pair :
    feltsToBytes (bytesToFelts [1, 2]) = some [1, 2] ∧
      ([Felt.ofNat 2, Felt.ofNat 258] = bytesToFelts [1, 2] ↔
        ∀ head ∈ [Felt.ofNat 2, Felt.ofNat 258].head?, head.val < 2 ^ 64) := by
  obtain ⟨hpack, hunpack⟩ := feltsToBytes_inverse_iff [1, 2] [Felt.ofNat 2, Felt.ofNat 258]
  exact ⟨hpack (by decide), hunpack (by decide +kernel)⟩

/-- An element no packing starts with, and it unpacks. -/
theorem high_limbs_ignored :
    ¬((∀ bytes : List UInt8, bytes.length < 2 ^ 64 →
        feltsToBytes (bytesToFelts bytes) = some bytes) ∧
      ∀ (fs : List Felt) (bytes : List UInt8), feltsToBytes fs = some bytes →
        fs = bytesToFelts bytes) := by
  intro h
  have hback := h.2 [Felt.ofNat (2 ^ 64)] [] (by decide +kernel)
  exact absurd hback (by decide +kernel)

end CipherOcto.Cap
