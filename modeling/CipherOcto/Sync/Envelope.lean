import CipherOcto.Lib.Layout
import CipherOcto.Lib.Reader
import CipherOcto.Sync.Stream

/-!
# The wire form of the sync envelopes

`octo-sync/src/envelope.rs` writes a `WalTailChunk` and a `SummaryResponse` as a header that
ends in a count, and as many items. Before it loops, a decoder cuts the announced count to
what the bytes left could hold if every item were as short as possible. An input that ends
where a few items do is therefore read as those items, whatever the count says:

> `truncation_iff`: when a cut encoding is refused, and when the decoded items are as many as
> the count announces.

A summary has a fixed size, so that a cut `SummaryResponse` is refused within the header only.
-/

namespace CipherOcto.Sync

open Encoding

/-! ## The code -/

namespace WalTailChunk

/-- An entry on the wire; the length is cut to a `u32`. -/
def frame (entry : List UInt8) : List UInt8 := Bytes.toLe 4 entry.length ++ entry

/-- `WalTailChunk::encode`. -/
def encode (c : WalTailChunk) : List UInt8 :=
  Bytes.toLe 8 c.fromLsn ++ Bytes.toLe 8 c.toLsn ++ [if c.isLast then 1 else 0] ++
    Bytes.toLe 4 c.entries.length ++ c.entries.flatMap frame

/-- The body of the loop of `WalTailChunk::decode`. -/
def readEntry : Reader SyncError (List UInt8) := do
  let len ← Reader.uintLe (fun _ => .backendNotReady "WalTailChunk entry length truncated") 4
  Reader.take (fun _ => .backendNotReady "WalTailChunk entry data truncated") len

/-- The count field. -/
def countField (data : List UInt8) : Nat := Bytes.leWordAt data 17 4

/-- The count, cut to what the rest has room for: an entry takes four bytes at least. -/
def cappedCount (data : List UInt8) : Nat := min (countField data) ((data.length - 21) / 4)

/-- `WalTailChunk::decode`. What is left after the last entry is not looked at. -/
def decode (data : List UInt8) : Except SyncError WalTailChunk :=
  if data.length < 21 then .error (.backendNotReady "WalTailChunk too short")
  else do
    let read ← Reader.many readEntry (cappedCount data) (data.drop 21)
    .ok {
      fromLsn := Bytes.leWordAt data 0 8
      toLsn := Bytes.leWordAt data 8 8
      entries := read.1
      isLast := data.getD 16 0 != 0 }

end WalTailChunk

structure SyncSummary where
  tableId : Nat
  segmentCount : Nat
  segmentRoot : Bytes32
  lsnWatermark : Nat
  hmac : Bytes32
deriving DecidableEq

structure SummaryResponse where
  writerLsn : Nat
  summaries : List SyncSummary
deriving DecidableEq

/-- The 80 bytes of a summary. -/
def SyncSummary.encode (s : SyncSummary) : List UInt8 :=
  Bytes.toLe 4 s.tableId ++ Bytes.toLe 4 s.segmentCount ++ s.segmentRoot.toList ++
    Bytes.toLe 8 s.lsnWatermark ++ s.hmac.toList

namespace SummaryResponse

/-- `SummaryResponse::encode`. -/
def encode (r : SummaryResponse) : List UInt8 :=
  Bytes.toLe 8 r.writerLsn ++ Bytes.toLe 4 r.summaries.length ++
    r.summaries.flatMap SyncSummary.encode

/-- The body of the loop of `SummaryResponse::decode`. -/
def readSummary : Reader SyncError SyncSummary := do
  let data ← Reader.take (fun _ => .backendNotReady "SummaryResponse truncated") 80
  pure {
    tableId := Bytes.leWordAt data 0 4
    segmentCount := Bytes.leWordAt data 4 4
    segmentRoot := Bytes.slice 32 data 8
    lsnWatermark := Bytes.leWordAt data 40 8
    hmac := Bytes.slice 32 data 48 }

def countField (data : List UInt8) : Nat := Bytes.leWordAt data 8 4

/-- A summary takes 80 bytes. -/
def cappedCount (data : List UInt8) : Nat := min (countField data) ((data.length - 12) / 80)

/-- `SummaryResponse::decode`. -/
def decode (data : List UInt8) : Except SyncError SummaryResponse :=
  if data.length < 12 then .error (.backendNotReady "SummaryResponse too short")
  else do
    let read ← Reader.many readSummary (cappedCount data) (data.drop 12)
    .ok { writerLsn := Bytes.leWordAt data 0 8, summaries := read.1 }

end SummaryResponse

/-! ## What the decoders accept -/

def IsError {α : Type} (r : Except SyncError α) : Prop := ∃ e, r = .error e

/-- The decoders' shape: a header, then items, of which the rest is dropped. -/
theorem isError_readAll {α β : Type} {r : Reader SyncError α} {bs : List UInt8} {f : α → β} :
    IsError (r bs >>= fun read => .ok (f read.1)) ↔ ¬ ∃ v rest, r bs = .ok (v, rest) := by
  cases r bs with
  | error e => exact iff_of_true ⟨e, rfl⟩ fun ⟨_, _, h⟩ => nomatch h
  | ok p => exact iff_of_false (fun ⟨_, h⟩ => nomatch h) (not_not_intro ⟨p.1, p.2, rfl⟩)

theorem readAll_eq_ok {α β : Type} {r : Reader SyncError α} {bs : List UInt8} {f : α → β} {b : β}
    (h : (r bs >>= fun read => .ok (f read.1)) = .ok b) :
    ∃ v rest, r bs = .ok (v, rest) ∧ f v = b := by
  cases hr : r bs with
  | error e => rw [hr] at h; cases h
  | ok p =>
    rw [hr] at h
    injection h with h
    exact ⟨p.1, p.2, rfl, h⟩

namespace WalTailChunk

theorem reads_entry : Reader.Reads readEntry frame fun entry => entry.length < 2 ^ 32 := by
  have hbody : ∀ m, Reader.Reads
      (Reader.take (fun _ => SyncError.backendNotReady "WalTailChunk entry data truncated") m)
      id fun entry : List UInt8 => entry.length = m ∧ True :=
    fun m => (Reader.reads_take _ m).congr fun _ => (and_iff_left trivial).symm
  exact ((Reader.reads_uintLe _ 4).measured hbody).congr fun _ => and_iff_left trivial

/-- The bytes start with `n` entries. -/
def StartsWith (n : Nat) (bytes : List UInt8) : Prop :=
  ∃ (entries : List (List UInt8)) (rest : List UInt8),
    (entries.length = n ∧ ∀ e ∈ entries, e.length < 2 ^ 32) ∧ bytes = entries.flatMap frame ++ rest

theorem startsWith_iff {n : Nat} {bytes : List UInt8} :
    StartsWith n bytes ↔ ∃ entries rest, Reader.many readEntry n bytes = .ok (entries, rest) :=
  exists_congr fun entries => exists_congr fun rest =>
    (reads_entry.many n bytes entries rest).symm

theorem decode_isError_iff (data : List UInt8) :
    IsError (decode data) ↔ data.length < 21 ∨ ¬ StartsWith (cappedCount data) (data.drop 21) := by
  unfold decode
  by_cases hlen : data.length < 21
  · rw [if_pos hlen]
    exact iff_of_true ⟨_, rfl⟩ (.inl hlen)
  · rw [if_neg hlen, or_iff_right hlen, startsWith_iff]
    exact isError_readAll (f := fun entries => WalTailChunk.mk _ _ entries _)

theorem decode_length {data : List UInt8} {c : WalTailChunk} (h : decode data = .ok c) :
    c.entries.length = cappedCount data := by
  unfold decode at h
  split at h
  · cases h
  · obtain ⟨entries, rest, hread, rfl⟩ :=
      readAll_eq_ok (f := fun entries => WalTailChunk.mk _ _ entries _) h
    exact ((reads_entry.many _ _ _ _).mp hread).1.1

/-! ### Cut encodings -/

theorem length_frames (entries : List (List UInt8)) :
    (entries.flatMap frame).length = 4 * entries.length + (entries.map List.length).sum := by
  induction entries with
  | nil => rfl
  | cons e entries ih =>
    rw [List.flatMap_cons, List.length_append, ih, List.map_cons, List.sum_cons, List.length_cons]
    unfold frame
    rw [List.length_append, Bytes.length_toLe]
    omega

/-- A cut list of entries starts with the first `n` iff these fit in what is left. -/
theorem startsWith_take_iff {entries : List (List UInt8)} (hsize : ∀ e ∈ entries, e.length < 2 ^ 32)
    {n : Nat} (hn : n ≤ entries.length) (k : Nat) :
    StartsWith n ((entries.flatMap frame).take k) ↔
      ((entries.take n).flatMap frame).length ≤ k := by
  have hmany := reads_entry.many n
  have hgood : (entries.take n).length = n ∧ ∀ e ∈ entries.take n, e.length < 2 ^ 32 :=
    ⟨List.length_take_of_le hn, fun e he => hsize e (List.mem_of_mem_take he)⟩
  have hsplit : entries.flatMap frame =
      (entries.take n).flatMap frame ++ (entries.drop n).flatMap frame := by
    rw [← List.flatMap_append, List.take_append_drop]
  constructor
  · intro hstarts
    obtain ⟨es, rest, hes, hbytes⟩ := hstarts
    -- the entries read are the first ones
    have hwhole : es.flatMap frame ++ (rest ++ (entries.flatMap frame).drop k) =
        (entries.take n).flatMap frame ++ (entries.drop n).flatMap frame := by
      rw [← List.append_assoc, ← hbytes, List.take_append_drop, hsplit]
    obtain ⟨rfl, -⟩ := hmany.inj hes hgood hwhole
    have hlen := congrArg List.length hbytes
    rw [List.length_take, List.length_append] at hlen
    omega
  · intro hfits
    refine ⟨entries.take n, ((entries.drop n).flatMap frame).take
      (k - ((entries.take n).flatMap frame).length), hgood, ?_⟩
    rw [hsplit, List.take_append, List.take_of_length_le hfits]

/-- The header, its count field, and the entries. -/
theorem encode_eq (c : WalTailChunk) :
    ∃ header : List UInt8, header.length = 17 ∧
      c.encode = header ++ Bytes.toLe 4 c.entries.length ++ c.entries.flatMap frame := by
  refine ⟨Bytes.toLe 8 c.fromLsn ++ Bytes.toLe 8 c.toLsn ++ [if c.isLast then 1 else 0], ?_, rfl⟩
  simp

theorem countField_encode_take {c : WalTailChunk} (hcount : c.entries.length < 2 ^ 32) {k : Nat}
    (hk : 21 ≤ k) : countField (c.encode.take k) = c.entries.length := by
  obtain ⟨header, hheader, hencode⟩ := encode_eq c
  unfold countField
  rw [Bytes.leWordAt_take (by omega), hencode, ← hheader, Bytes.leWordAt_append]
  exact Nat.mod_eq_of_lt hcount

theorem drop_encode_take (c : WalTailChunk) (k : Nat) :
    (c.encode.take k).drop 21 = (c.entries.flatMap frame).take (k - 21) := by
  obtain ⟨header, hheader, hencode⟩ := encode_eq c
  rw [hencode, List.drop_take, List.drop_left' (by
    rw [List.length_append, hheader, Bytes.length_toLe])]

/-- **When a cut chunk is refused.** -/
theorem decode_take_isError_iff {c : WalTailChunk} (hcount : c.entries.length < 2 ^ 32)
    (hsize : ∀ e ∈ c.entries, e.length < 2 ^ 32) {k : Nat} (hk : k < c.encode.length) :
    IsError (decode (c.encode.take k)) ↔
      k < 21 ∨ (k - 21) % 4 < ((c.entries.take ((k - 21) / 4)).map List.length).sum := by
  have hlen : (c.encode.take k).length = k := List.length_take_of_le hk.le
  rw [decode_isError_iff, hlen]
  by_cases hshort : k < 21
  · exact iff_of_true (.inl hshort) (.inl hshort)
  rw [or_iff_right hshort, or_iff_right hshort, drop_encode_take]
  unfold cappedCount
  rw [countField_encode_take hcount (not_lt.mp hshort), hlen]
  have hbody : k - 21 < (c.entries.flatMap frame).length := by
    have hwhole := congrArg List.length (drop_encode_take c c.encode.length)
    rw [List.take_length, List.length_drop] at hwhole
    rw [List.length_take] at hwhole
    omega
  rw [startsWith_take_iff hsize (min_le_left _ _), length_frames,
    List.length_take_of_le (min_le_left _ _)]
  rw [length_frames] at hbody
  rcases le_total ((k - 21) / 4) c.entries.length with hle | hle
  · rw [min_eq_right hle]
    omega
  · rw [min_eq_left hle, List.take_of_length_le hle, List.take_length]
    omega

end WalTailChunk

namespace SummaryResponse

/-- 80 bytes are a summary. -/
theorem many_readSummary {n : Nat} {bytes : List UInt8} (h : 80 * n ≤ bytes.length) :
    ∃ summaries rest, Reader.many readSummary n bytes = .ok (summaries, rest) ∧
      summaries.length = n := by
  induction n generalizing bytes with
  | zero => exact ⟨[], bytes, rfl, rfl⟩
  | succ n ih =>
    have hlater : 80 * n ≤ (bytes.drop 80).length := by
      rw [List.length_drop]
      omega
    obtain ⟨summaries, rest, hread, hlen⟩ := ih hlater
    have hfirst : ∃ s, readSummary bytes = .ok (s, bytes.drop 80) := by
      refine ⟨_, Reader.bind_eq_ok.mpr ⟨bytes.take 80, bytes.drop 80, ?_, rfl⟩⟩
      unfold Reader.take
      rw [if_neg (by omega)]
    obtain ⟨s, hs⟩ := hfirst
    refine ⟨s :: summaries, rest, ?_, congrArg (· + 1) hlen⟩
    exact Reader.bind_eq_ok.mpr ⟨s, _, hs, Reader.bind_eq_ok.mpr ⟨summaries, rest, hread, rfl⟩⟩

/-- With a header there is always a result, of as many summaries as there is room for. -/
theorem decode_eq_ok {data : List UInt8} (hlen : 12 ≤ data.length) :
    ∃ r, decode data = .ok r ∧ r.summaries.length = cappedCount data := by
  have hroom : 80 * cappedCount data ≤ (data.drop 12).length := by
    unfold cappedCount
    rw [List.length_drop]
    omega
  obtain ⟨summaries, rest, hread, hcount⟩ := many_readSummary hroom
  refine ⟨⟨Bytes.leWordAt data 0 8, summaries⟩, ?_, hcount⟩
  unfold decode
  rw [if_neg (not_lt.mpr hlen), hread]
  rfl

theorem decode_isError_iff (data : List UInt8) : IsError (decode data) ↔ data.length < 12 := by
  constructor
  · intro herr
    by_contra hlen
    obtain ⟨e, he⟩ := herr
    obtain ⟨r, hr, -⟩ := decode_eq_ok (not_lt.mp hlen)
    rw [hr] at he
    cases he
  · exact fun hlen => ⟨_, if_pos hlen⟩

end SummaryResponse

/-! ## The count -/

theorem WalTailChunk.count_iff (data : List UInt8) :
    (∀ c, decode data = .ok c → c.entries.length = countField data) ↔
      data.length < 21 ∨ countField data ≤ (data.length - 21) / 4 ∨
        ¬ StartsWith ((data.length - 21) / 4) (data.drop 21) := by
  by_cases hcount : countField data ≤ (data.length - 21) / 4
  · refine iff_of_true (fun c hc => ?_) (.inr (.inl hcount))
    rw [decode_length hc]
    exact min_eq_left hcount
  · have hcapped : cappedCount data = (data.length - 21) / 4 := min_eq_right (not_le.mp hcount).le
    rw [or_iff_right hcount, ← hcapped, ← decode_isError_iff]
    constructor
    · intro h
      cases hdecode : decode data with
      | error e => exact ⟨e, rfl⟩
      | ok c =>
        have hlen := h c hdecode
        rw [decode_length hdecode, hcapped] at hlen
        omega
    · intro herr c hc
      obtain ⟨e, he⟩ := herr
      rw [hc] at he
      cases he

theorem SummaryResponse.count_iff (data : List UInt8) :
    (∀ r, decode data = .ok r → r.summaries.length = countField data) ↔
      data.length < 12 ∨ 80 * countField data ≤ data.length - 12 := by
  by_cases hlen : data.length < 12
  · refine iff_of_true (fun r hr => ?_) (.inl hlen)
    obtain ⟨e, he⟩ := (decode_isError_iff data).mpr hlen
    rw [hr] at he
    cases he
  · rw [or_iff_right hlen]
    obtain ⟨r, hr, hcount⟩ := decode_eq_ok (not_lt.mp hlen)
    have hall : (∀ r, decode data = .ok r → r.summaries.length = countField data) ↔
        cappedCount data = countField data := by
      constructor
      · exact fun h => hcount.symm.trans (h r hr)
      · intro h r' hr'
        rw [hr] at hr'
        injection hr' with hr'
        rw [← hr', hcount, h]
    rw [hall]
    unfold cappedCount
    omega

/-- **When a cut encoding is refused, and when the count is that of the items.** -/
theorem truncation_iff (c : WalTailChunk) (r : SummaryResponse) (data : List UInt8) :
    (c.entries.length < 2 ^ 32 → (∀ e ∈ c.entries, e.length < 2 ^ 32) →
      ∀ k < c.encode.length, IsError (WalTailChunk.decode (c.encode.take k)) ↔
        k < 21 ∨ (k - 21) % 4 < ((c.entries.take ((k - 21) / 4)).map List.length).sum) ∧
    (∀ k < r.encode.length, IsError (SummaryResponse.decode (r.encode.take k)) ↔ k < 12) ∧
    ((∀ d, WalTailChunk.decode data = .ok d →
        d.entries.length = WalTailChunk.countField data) ↔
      data.length < 21 ∨ WalTailChunk.countField data ≤ (data.length - 21) / 4 ∨
        ¬ WalTailChunk.StartsWith ((data.length - 21) / 4) (data.drop 21)) ∧
    ((∀ s, SummaryResponse.decode data = .ok s →
        s.summaries.length = SummaryResponse.countField data) ↔
      data.length < 12 ∨ 80 * SummaryResponse.countField data ≤ data.length - 12) := by
  refine ⟨fun hcount hsize k hk => WalTailChunk.decode_take_isError_iff hcount hsize hk,
    fun k hk => ?_, WalTailChunk.count_iff data, SummaryResponse.count_iff data⟩
  rw [SummaryResponse.decode_isError_iff, List.length_take_of_le hk.le]

/-- A chunk of one entry of one byte, without its last byte. -/
theorem truncation_of_last_byte :
    let c : WalTailChunk := ⟨1, 1, [[7]], true⟩
    IsError (WalTailChunk.decode (c.encode.take 25)) := by
  intro c
  obtain ⟨hchunk, -⟩ := truncation_iff c ⟨0, []⟩ []
  exact (hchunk (by decide) (by decide) 25 (by decide)).mpr (.inr (by decide))

/-- The same chunk cut after its header is a chunk without entries. -/
theorem truncation_after_header :
    let c : WalTailChunk := ⟨1, 1, [[7]], true⟩
    21 < c.encode.length ∧ WalTailChunk.decode (c.encode.take 21) = .ok ⟨1, 1, [], true⟩ ∧
      WalTailChunk.countField (c.encode.take 21) = 1 ∧
      ¬ IsError (WalTailChunk.decode (c.encode.take 21)) := by
  intro c
  have hok : WalTailChunk.decode (c.encode.take 21) = .ok ⟨1, 1, [], true⟩ := by decide +kernel
  refine ⟨by decide, hok, by decide +kernel, fun ⟨e, he⟩ => ?_⟩
  rw [hok] at he
  cases he

end CipherOcto.Sync
