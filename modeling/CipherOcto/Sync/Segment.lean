import CipherOcto.Lib.Crc
import CipherOcto.Lib.Layout
import CipherOcto.Sync.ReplayCache

/-!
# Snapshot segments and checksums

`octo-sync/src/segment.rs` ships a table's segments under a header of 57 bytes, with a
CRC-32 that is computed a bit at a time. The same polynomial guards the entries of the
write-ahead log, where the checksum is the entry's last four bytes.

> `decode_eq_ok_iff`: an input is read as a segment iff it starts with the segment's
> encoding; what follows is not looked at.
> `damaged_accepted_iff`: a log entry that was valid and is damaged within 32 bits is
> let through iff the damage reached its magic number.

The check is skipped for an entry without the magic number.
-/

namespace CipherOcto.Sync

open Encoding

/-! ## Segments -/

/-- `SyncError`, as far as the decoder returns it. -/
inductive SegmentError where
  | backendNotReady (reason : String)
deriving DecidableEq

structure SyncSegment where
  tableId : UInt32
  segmentIndex : UInt32
  segmentRoot : Bytes32
  payload : List UInt8
  compression : UInt8
  crc32 : UInt32
  lsnWatermark : UInt64
deriving DecidableEq

namespace SyncSegment

/-- `SyncSegment::encode`. The length is cut to a `u32`. -/
def encode (s : SyncSegment) : List UInt8 :=
  Bytes.toLe 4 s.tableId.toNat ++ Bytes.toLe 4 s.segmentIndex.toNat ++ s.segmentRoot.toList ++
    [s.compression] ++ Bytes.toLe 4 s.crc32.toNat ++ Bytes.toLe 8 s.lsnWatermark.toNat ++
    Bytes.toLe 4 s.payload.length ++ s.payload

/-- `SyncSegment::decode`. -/
def decode (data : List UInt8) : Except SegmentError SyncSegment :=
  if data.length < 57 then .error (.backendNotReady "SyncSegment too short")
  else
    let payloadLen := Bytes.leWordAt data 53 4
    if data.length < 57 + payloadLen then
      .error (.backendNotReady "SyncSegment payload truncated")
    else .ok {
      tableId := UInt32.ofNat (Bytes.leWordAt data 0 4)
      segmentIndex := UInt32.ofNat (Bytes.leWordAt data 4 4)
      segmentRoot := Bytes.slice 32 data 8
      payload := (data.drop 57).take payloadLen
      compression := data.getD 40 0
      crc32 := UInt32.ofNat (Bytes.leWordAt data 41 4)
      lsnWatermark := UInt64.ofNat (Bytes.leWordAt data 45 8) }

/-! ### Fields -/

theorem take_leWordAt {data : List UInt8} {start n : Nat} (h : start + n ≤ data.length) :
    (data.drop start).take n = Bytes.toLe n (Bytes.leWordAt data start n) := by
  have hlen : ((data.drop start).take n).length = n := by
    rw [List.length_take, List.length_drop]
    omega
  have hword := Bytes.toLe_leNat ((data.drop start).take n)
  rw [hlen] at hword
  exact hword.symm

theorem leWordAt_lt (data : List UInt8) (start n : Nat) :
    Bytes.leWordAt data start n < 256 ^ n := by
  refine (Bytes.leNat_lt _).trans_le (Nat.pow_le_pow_right (by omega) ?_)
  rw [List.length_take]
  omega

theorem toNat_leWordAt4 (data : List UInt8) (start : Nat) :
    (UInt32.ofNat (Bytes.leWordAt data start 4)).toNat = Bytes.leWordAt data start 4 := by
  rw [UInt32.toNat_ofNat']
  exact Nat.mod_eq_of_lt (leWordAt_lt data start 4)

theorem toNat_leWordAt8 (data : List UInt8) (start : Nat) :
    (UInt64.ofNat (Bytes.leWordAt data start 8)).toNat = Bytes.leWordAt data start 8 := by
  rw [UInt64.toNat_ofNat']
  exact Nat.mod_eq_of_lt (leWordAt_lt data start 8)

theorem take_slice {n : Nat} {data : List UInt8} {start : Nat} (h : start + n ≤ data.length) :
    (data.drop start).take n = (Bytes.slice n data start).toList := by
  refine List.ext_getElem ?_ fun i hi hi' => ?_
  · rw [List.length_take, List.length_drop, Vector.length_toList]
    omega
  · rw [Vector.length_toList] at hi'
    have hread : (Bytes.slice n data start)[i] = data.getD (start + i) 0 := Vector.getElem_ofFn _
    rw [Vector.getElem_toList, hread, List.getElem_take, List.getElem_drop,
      List.getD_eq_getElem _ _ (by omega)]

theorem take_byte {data : List UInt8} {start : Nat} (h : start < data.length) :
    (data.drop start).take 1 = [data.getD start 0] := by
  rw [List.drop_eq_getElem_cons h, List.take_succ_cons, List.take_zero,
    List.getD_eq_getElem _ _ h]

/-! ### The wire form -/

/-- The header up to the length. -/
def head (s : SyncSegment) : List UInt8 :=
  Bytes.toLe 4 s.tableId.toNat ++ Bytes.toLe 4 s.segmentIndex.toNat ++ s.segmentRoot.toList ++
    [s.compression] ++ Bytes.toLe 4 s.crc32.toNat ++ Bytes.toLe 8 s.lsnWatermark.toNat

theorem encode_eq (s : SyncSegment) :
    s.encode = s.head ++ Bytes.toLe 4 s.payload.length ++ s.payload := rfl

@[simp] theorem length_head (s : SyncSegment) : s.head.length = 53 := by
  simp only [head, List.length_append, Bytes.length_toLe, Vector.length_toList, List.length_cons,
    List.length_nil]

theorem length_encode (s : SyncSegment) : s.encode.length = 57 + s.payload.length := by
  rw [encode_eq, List.length_append, List.length_append, length_head, Bytes.length_toLe]

theorem toLe_inj {w x y : Nat} (hx : x < 256 ^ w) (hy : y < 256 ^ w)
    (h : Bytes.toLe w x = Bytes.toLe w y) : x = y := by
  have hnat := congrArg Bytes.leNat h
  rwa [Bytes.leNat_toLe, Bytes.leNat_toLe, Nat.mod_eq_of_lt hx, Nat.mod_eq_of_lt hy] at hnat

theorem toLe4_inj {x y : UInt32} (h : Bytes.toLe 4 x.toNat = Bytes.toLe 4 y.toNat) : x = y :=
  UInt32.toNat_inj.mp (toLe_inj x.toNat_lt y.toNat_lt h)

theorem head_inj {s t : SyncSegment} (h : s.head = t.head) :
    { s with payload := t.payload } = t := by
  unfold head at h
  obtain ⟨h, hlsn⟩ := List.append_inj' h (by rw [Bytes.length_toLe, Bytes.length_toLe])
  obtain ⟨h, hcrc⟩ := List.append_inj' h (by rw [Bytes.length_toLe, Bytes.length_toLe])
  obtain ⟨h, hcompression⟩ := List.append_inj' h rfl
  obtain ⟨h, hroot⟩ := List.append_inj' h (by rw [Vector.length_toList, Vector.length_toList])
  obtain ⟨htable, hindex⟩ := List.append_inj' h (by rw [Bytes.length_toLe, Bytes.length_toLe])
  have hwatermark : s.lsnWatermark = t.lsnWatermark :=
    UInt64.toNat_inj.mp (toLe_inj s.lsnWatermark.toNat_lt t.lsnWatermark.toNat_lt hlsn)
  rw [toLe4_inj htable, toLe4_inj hindex, Vector.toList_inj.mp hroot,
    List.singleton_inj.mp hcompression, toLe4_inj hcrc, hwatermark]

/-- What is decoded was written at the start of the input. -/
theorem encode_of_decode {data : List UInt8} {s : SyncSegment} (hs : decode data = .ok s) :
    s.payload.length < 2 ^ 32 ∧ s.encode = data.take (57 + s.payload.length) := by
  unfold decode at hs
  split at hs
  next => cases hs
  next hlen =>
    simp only at hs
    split at hs
    next => cases hs
    next hpayload =>
      rw [Except.ok.injEq] at hs
      subst hs
      have hshipped : ((data.drop 57).take (Bytes.leWordAt data 53 4)).length =
          Bytes.leWordAt data 53 4 := by
        rw [List.length_take, List.length_drop]
        omega
      rw [hshipped]
      refine ⟨leWordAt_lt data 53 4, ?_⟩
      -- the fields are read back to back, from the start
      unfold encode
      simp only [toNat_leWordAt4, toNat_leWordAt8, hshipped]
      rw [← take_leWordAt (by omega), ← take_leWordAt (by omega), ← take_slice (by omega),
        ← take_byte (by omega), ← take_leWordAt (by omega), ← take_leWordAt (by omega),
        ← take_leWordAt (by omega), List.drop_zero, ← List.take_add, ← List.take_add,
        ← List.take_add, ← List.take_add, ← List.take_add, ← List.take_add, ← List.take_add]

/-- **What is read.** The decoder returns a segment iff the input starts with its encoding and
its length fits the field. -/
theorem decode_eq_ok_iff (data : List UInt8) (s : SyncSegment) :
    decode data = .ok s ↔ s.payload.length < 2 ^ 32 ∧ s.encode <+: data := by
  constructor
  · intro hs
    obtain ⟨hfits, henc⟩ := encode_of_decode hs
    exact ⟨hfits, henc ▸ List.take_prefix _ _⟩
  · rintro ⟨hfits, rest, rfl⟩
    have hlen : Bytes.leWordAt (s.encode ++ rest) 53 4 = s.payload.length := by
      have hword := Bytes.leWordAt_append 4 s.payload.length s.head (s.payload ++ rest)
      rw [length_head, ← List.append_assoc, ← encode_eq] at hword
      exact hword.trans (Nat.mod_eq_of_lt hfits)
    have hroom : 57 + s.payload.length ≤ (s.encode ++ rest).length := by
      rw [List.length_append, length_encode]
      omega
    obtain ⟨t, ht⟩ : ∃ t, decode (s.encode ++ rest) = .ok t := by
      unfold decode
      rw [if_neg (by omega), hlen]
      simp only
      rw [if_neg (by omega)]
      exact ⟨_, rfl⟩
    obtain ⟨htfits, htenc⟩ := encode_of_decode ht
    -- both are written at the start of the input, with the same length field
    have hsame : t.payload.length = s.payload.length := by
      have hword := Bytes.leWordAt_append 4 t.payload.length t.head t.payload
      rw [length_head, ← encode_eq, htenc, Bytes.leWordAt_take (by omega), hlen] at hword
      exact (hword.trans (Nat.mod_eq_of_lt htfits)).symm
    rw [hsame, ← length_encode, List.take_left] at htenc
    rw [encode_eq, encode_eq, hsame] at htenc
    obtain ⟨hfront, hpayload⟩ := List.append_inj' htenc hsame
    have hhead := head_inj (List.append_inj' hfront rfl).1
    rw [ht, ← hhead, ← hpayload]

end SyncSegment

/-! ## The checksum -/

def crcPolynomial : BitVec 32 := 0xEDB88320#32

/-- The body of the inner loop of `crc32`. -/
def crcBit (crc : BitVec 32) : BitVec 32 :=
  if crc &&& 1#32 ≠ 0#32 then (crc >>> 1) ^^^ crcPolynomial else crc >>> 1

/-- The body of the outer loop. -/
def crcByte (crc : BitVec 32) (byte : UInt8) : BitVec 32 :=
  crcBit^[8] (crc ^^^ BitVec.ofNat 32 byte.toNat)

/-- The register after all bytes. -/
def crcRegister (data : List UInt8) : BitVec 32 := data.foldl crcByte 0xFFFFFFFF#32

/-- `crc32`; `crc32fast::hash`, which checks the log, computes the same. -/
def crc32 (data : List UInt8) : Nat := (~~~crcRegister data).toNat

theorem crcBit_eq_shift : crcBit = Crc.shift crcPolynomial := by
  funext c
  have hbit : c &&& 1#32 ≠ 0#32 ↔ c.getLsbD 0 = true := by
    rw [BitVec.and_one_eq_setWidth_ofBool_getLsbD]
    cases c.getLsbD 0
    · decide
    · decide
  unfold crcBit Crc.shift
  exact if_congr hbit rfl rfl

/-- A byte is taken in bit by bit. -/
theorem crcByte_eq_run (c : BitVec 32) (b : UInt8) :
    crcByte c b = Crc.run crcPolynomial c (Crc.bits 8 b.toNat) := by
  have hb : b.toNat < 2 ^ 8 := b.toNat_lt
  have hout : BitVec.ofNat 32 b.toNat >>> 8 = 0#32 := by
    refine BitVec.eq_of_toNat_eq ?_
    rw [BitVec.toNat_ushiftRight, BitVec.toNat_ofNat, BitVec.toNat_ofNat,
      Nat.shiftRight_eq_div_pow]
    omega
  rw [crcByte, crcBit_eq_shift, Crc.iterate_shift_xor, hout, BitVec.xor_zero, BitVec.toNat_ofNat,
    Nat.mod_eq_of_lt (by omega)]

theorem crcRegister_eq_run (data : List UInt8) :
    crcRegister data = Crc.run crcPolynomial 0xFFFFFFFF#32 (Crc.bitsOf data) := by
  have hfold : ∀ c, data.foldl crcByte c = Crc.run crcPolynomial c (Crc.bitsOf data) := by
    induction data with
    | nil => exact fun c => rfl
    | cons b bs ih =>
      intro c
      rw [List.foldl_cons, ih, crcByte_eq_run, ← Crc.run_append]
      rfl
  exact hfold _

/-- What the register ends at, whatever is followed by its own checksum. -/
def crcResidue : BitVec 32 := (Crc.shift crcPolynomial)^[32] (BitVec.allOnes 32)

/-- **The residue.** A body with its checksum behind it ends at the same register as any other. -/
theorem crcRegister_of_trailer {body trailer : List UInt8} (hlen : trailer.length = 4)
    (hcrc : Bytes.leNat trailer = crc32 body) : crcRegister (body ++ trailer) = crcResidue := by
  rw [crcRegister_eq_run, Crc.bitsOf_append, Crc.run_append, ← crcRegister_eq_run,
    Crc.bitsOf_eq_bits trailer, hlen, hcrc]
  exact Crc.run_complement _

/-! ## Damaged entries -/

/-- The two have as many bits, and differ within `n` of them in a row. -/
def WithinBurst (n : Nat) (xs ys : List UInt8) : Prop :=
  ∃ front m m' back, Crc.bitsOf xs = front ++ m ++ back ∧ Crc.bitsOf ys = front ++ m' ++ back ∧
    m.length = m'.length ∧ m.length ≤ n

theorem WithinBurst.length_eq {n : Nat} {xs ys : List UInt8} (h : WithinBurst n xs ys) :
    xs.length = ys.length := by
  obtain ⟨front, m, m', back, hxs, hys, hlen, -⟩ := h
  have hbits : (Crc.bitsOf xs).length = (Crc.bitsOf ys).length := by
    rw [hxs, hys]
    simp only [List.length_append, hlen]
  rw [Crc.length_bitsOf, Crc.length_bitsOf] at hbits
  omega

/-- A burst that leaves the register as it was is none. -/
theorem WithinBurst.eq_of_crcRegister_eq {xs ys : List UInt8} (h : WithinBurst 32 xs ys)
    (hregister : crcRegister xs = crcRegister ys) : xs = ys := by
  obtain ⟨front, m, m', back, hxs, hys, hlen, hle⟩ := h
  rw [crcRegister_eq_run, crcRegister_eq_run, hxs, hys] at hregister
  have hsame := Crc.eq_of_run_burst (by decide) (by decide) hlen hle hregister
  exact Crc.bitsOf_injective (by rw [hxs, hys, hsame])

/-- An entry the check is made of. -/
def IsWalV2 (entry : List UInt8) : Prop :=
  36 ≤ entry.length ∧ Bytes.leNat (entry.take 4) = walMagic

instance : DecidablePred IsWalV2 := fun entry =>
  inferInstanceAs (Decidable (36 ≤ entry.length ∧ Bytes.leNat (entry.take 4) = walMagic))

/-- The first bytes are known from the number they are. -/
theorem take_eq_of_leNat_eq {n : Nat} {xs ys : List UInt8} (hxs : n ≤ xs.length)
    (hys : n ≤ ys.length) (h : Bytes.leNat (xs.take n) = Bytes.leNat (ys.take n)) :
    xs.take n = ys.take n := by
  have hx := Bytes.toLe_leNat (xs.take n)
  have hy := Bytes.toLe_leNat (ys.take n)
  rw [List.length_take_of_le hxs] at hx
  rw [List.length_take_of_le hys] at hy
  rw [← hx, ← hy, h]

/-- A checked entry is valid with its checksum behind it. -/
theorem crcRegister_of_valid {e : List UInt8} (he : IsWalV2 e)
    (hvalid : validateWalEntryCrc32 crc32 e = true) : crcRegister e = crcResidue := by
  unfold validateWalEntryCrc32 at hvalid
  rw [if_neg (Nat.not_lt.mpr he.1), if_neg (not_not_intro he.2), decide_eq_true_eq] at hvalid
  have hlen : (e.drop (e.length - 4)).length = 4 := by
    rw [List.length_drop]
    have hlong := he.1
    omega
  have hregister := crcRegister_of_trailer hlen hvalid
  rwa [List.take_append_drop] at hregister

/-- **Damage.** A valid log entry of which up to 32 bits in a row have changed, in its body, in
its checksum or across both, is handed to the database iff its magic number is among what
changed and it was not seen before. -/
theorem damaged_accepted_iff (blake3 : List UInt8 → Bytes32) (cache : ReplayCache)
    {e e' : List UInt8} (he : IsWalV2 e) (hvalid : validateWalEntryCrc32 crc32 e = true)
    (hburst : WithinBurst 32 e e') (hne : e ≠ e') :
    (applyEntry blake3 crc32 cache e').1 = true ↔
      cache.contains (blake3 e') = false ∧ e'.take 4 ≠ e.take 4 := by
  have hlen := hburst.length_eq
  have haccept : validateWalEntryCrc32 crc32 e' = true ↔ e'.take 4 ≠ e.take 4 := by
    constructor
    · intro hvalid' hmagic
      -- both end at the residue, so the burst between them is none
      have he' : IsWalV2 e' := ⟨hlen ▸ he.1, by rw [hmagic]; exact he.2⟩
      have hsame := (crcRegister_of_valid he hvalid).trans (crcRegister_of_valid he' hvalid').symm
      exact hne (hburst.eq_of_crcRegister_eq hsame)
    · intro hmagic
      have hother : Bytes.leNat (e'.take 4) ≠ walMagic := by
        intro heq
        have hlong := he.1
        exact hmagic (take_eq_of_leNat_eq (by omega) (by omega) (heq.trans he.2.symm))
      unfold validateWalEntryCrc32
      rw [if_neg (by rw [← hlen]; exact Nat.not_lt.mpr he.1), if_pos hother]
  rw [← haccept]
  unfold applyEntry
  cases hseen : cache.contains (blake3 e') with
  | true => simp
  | false =>
    cases validateWalEntryCrc32 crc32 e' with
    | true => simp
    | false => simp

/-- An entry of the magic number, 28 zeros and their checksum. -/
def walSample : List UInt8 :=
  [0x57, 0x41, 0x4C, 0x45] ++ List.replicate 28 0 ++ Bytes.toLe 4 0x5BB0A32C

/-- The same with one bit of the body turned. -/
def walDamaged : List UInt8 :=
  [0x57, 0x41, 0x4C, 0x45, 1] ++ List.replicate 27 0 ++ Bytes.toLe 4 0x5BB0A32C

theorem withinBurst_walSample : WithinBurst 32 walSample walDamaged :=
  ⟨(Crc.bitsOf walSample).take 32, Crc.bits 8 0, Crc.bits 8 1, (Crc.bitsOf walSample).drop 40,
    by decide +kernel, by decide +kernel, by decide, by decide⟩

theorem damaged_accepted_sample :
    (applyEntry (fun _ => Vector.replicate 32 0) crc32 (.new 4) walDamaged).1 = true ↔
      (ReplayCache.new 4).contains (Vector.replicate 32 0) = false ∧
        walDamaged.take 4 ≠ walSample.take 4 :=
  damaged_accepted_iff _ _ (by decide +kernel) (by decide +kernel) withinBurst_walSample
    (by decide)

end CipherOcto.Sync
