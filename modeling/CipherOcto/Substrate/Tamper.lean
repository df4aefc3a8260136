import CipherOcto.Substrate.Replay

/-!
# Changed entries

What a replay from the first LSN makes of a log in which one field of one entry was changed,
its checksum left as it is. Every header field is there twice, as a field and in the prefix
that is hashed, and the replay takes each check from one copy alone: the LSN and the shard
key from the fields, everything the checksum covers from the prefix. The type, the previous
LSN and the payload length of an entry are read from neither, so changing the fields goes
unnoticed.

The LSN is looked at once before, by the reader: an entry whose LSN is out of the range that
is read is left out. That leaves a gap behind it, unless it was the last.

> `replayWal_replaced_iff`: with one entry replaced by any other, the replay fails exactly if
> the other is read and rejected, or not read and missed.
> `tamper_detected_iff`: the same for a change of one field.
-/

namespace CipherOcto.Substrate

open Encoding Machine Trace

/-- A change of one field of an entry. -/
inductive Tamper where
  | entryType (v : UInt8)
  | shardKey (v : ShardKey)
  | lsn (v : Nat)
  | previousLsn (v : Nat)
  | payloadLength (v : UInt32)
  | payload (v : List UInt8)
deriving DecidableEq

def Tamper.apply (e : WalEntry) : Tamper → WalEntry
  | .entryType v => { e with entryType := v }
  | .shardKey v => { e with shardKey := v }
  | .lsn v => { e with lsn := v }
  | .previousLsn v => { e with previousLsn := v }
  | .payloadLength v => { e with payloadLength := v }
  | .payload v => { e with payload := v }

/-- The changes a replay notices, in the entry that has `after` behind it in a log of `len`. -/
def Tamper.Detected (len : Nat) (after : List WalEntry) : Tamper → Prop
  | .shardKey _ => True
  | .payload _ => True
  | .lsn v => after ≠ [] ∨ (1 ≤ v ∧ v ≤ len)
  | .entryType _ => False
  | .previousLsn _ => False
  | .payloadLength _ => False

variable {blake3 : List UInt8 → Bytes32}

/-! ## One entry -/

/-- What the replay refuses of an entry that comes after LSN `prev`. -/
def WalEntry.Rejected (blake3 : List UInt8 → Bytes32) (k : ShardKey) (prev : Nat)
    (e : WalEntry) : Prop :=
  e.lsn ≠ prev + 1 ∨ ¬e.Sound blake3 ∨ e.shardKey ≠ k

instance (k : ShardKey) (prev : Nat) (e : WalEntry) : Decidable (e.Rejected blake3 k prev) :=
  inferInstanceAs (Decidable (e.lsn ≠ prev + 1 ∨ ¬e.checksum = blake3 e.checksumInput ∨
    e.shardKey ≠ k))

theorem replayLoop_cons_rejected {start last prev : Nat} {k : ShardKey} {attempted : UInt32}
    {e : WalEntry} (h : e.Rejected blake3 k prev) (log : List WalEntry) :
    ∃ state, (replayLoop blake3 start k last attempted prev (e :: log)).val
      = (.error .walCorruption, state) := by
  unfold replayLoop
  rw [Tracked.val_bind]
  by_cases hlsn : e.lsn ≠ prev + 1
  · rw [if_pos hlsn]
    exact ⟨_, rfl⟩
  rw [if_neg hlsn]
  by_cases hsum : e.checksum ≠ blake3 e.checksumInput
  · rw [if_pos hsum]
    exact ⟨_, rfl⟩
  rw [if_neg hsum]
  have hforeign : e.shardKey ≠ k :=
    (h.resolve_left hlsn).resolve_left fun hsound => hsound (not_not.mp hsum)
  rw [if_pos hforeign]
  exact ⟨_, rfl⟩

/-- The shard's own entries in front are consumed. -/
theorem replayLoop_append_own {start last n : Nat} {k : ShardKey} {attempted : UInt32}
    {front : List WalEntry} (h : Chained blake3 n front) (hown : ∀ e ∈ front, e.shardKey = k)
    (log : List WalEntry) :
    ∃ l a, (replayLoop blake3 start k last attempted n (front ++ log)).val
      = (replayLoop blake3 start k l a (n + front.length) log).val := by
  induction front generalizing last n attempted with
  | nil => exact ⟨last, attempted, rfl⟩
  | cons e front ih =>
    obtain ⟨hlsn, hsound⟩ := h 0 e rfl
    have hlen : n + (e :: front).length = n + 1 + front.length := by
      rw [List.length_cons]
      omega
    rw [List.cons_append, replayLoop_cons_own hlsn hsound (hown e List.mem_cons_self),
      Tracked.val_bind, hlen]
    exact ih h.tail fun e' he' => hown e' (List.mem_cons_of_mem _ he')

/-- Behind the shard's own entries, one that is rejected fails the replay. -/
theorem replayLoop_rejected {start last n : Nat} {k : ShardKey} {attempted : UInt32}
    {front : List WalEntry} {e : WalEntry} (h : Chained blake3 n front)
    (hown : ∀ x ∈ front, x.shardKey = k) (hbad : e.Rejected blake3 k (n + front.length))
    (log : List WalEntry) :
    ∃ err state, (replayLoop blake3 start k last attempted n (front ++ e :: log)).val
      = (.error err, state) := by
  obtain ⟨l, a, heq⟩ : ∃ l a, (replayLoop blake3 start k last attempted n (front ++ e :: log)).val
      = (replayLoop blake3 start k l a (n + front.length) (e :: log)).val :=
    replayLoop_append_own h hown (e :: log)
  obtain ⟨state, hfail⟩ : ∃ state,
      (replayLoop blake3 start k l a (n + front.length) (e :: log)).val
        = (.error .walCorruption, state) := replayLoop_cons_rejected hbad log
  exact ⟨.walCorruption, state, heq.trans hfail⟩

/-- The shard's own entries fail no replay. -/
theorem replayLoop_own_ne_error {start last n : Nat} {k : ShardKey} {attempted : UInt32}
    {log : List WalEntry} (h : Chained blake3 n log) (hown : ∀ e ∈ log, e.shardKey = k) :
    ¬∃ err state, (replayLoop blake3 start k last attempted n log).val = (.error err, state) := by
  rintro ⟨err, state, hfail⟩
  exact absurd (congrArg Prod.fst ((replayLoop_own h hown).symm.trans hfail)) nofun

theorem chained_append {n : Nat} {front log : List WalEntry} :
    Chained blake3 n (front ++ log) ↔
      Chained blake3 n front ∧ Chained blake3 (n + front.length) log := by
  constructor
  · intro h
    refine ⟨fun i e he => ?_, ?_⟩
    · have hi := (List.getElem?_eq_some_iff.mp he).1
      exact h i e (by rw [List.getElem?_append_left hi, he])
    · have hdrop := h.drop front.length
      rwa [List.drop_left] at hdrop
  · rintro ⟨hfront, hlog⟩ i e he
    rcases Nat.lt_or_ge i front.length with hi | hi
    · rw [List.getElem?_append_left hi] at he
      exact hfront i e he
    · rw [List.getElem?_append_right hi] at he
      obtain ⟨hlsn, hsound⟩ := hlog _ e he
      exact ⟨by omega, hsound⟩

/-! ## One entry replaced -/

section Replaced

variable {c : Cluster} {k : ShardKey} {before after : List WalEntry} {e : WalEntry}

/-- What is read of the log: all of it, the replaced entry only if its LSN is in range. -/
theorem readWalRange_replaced (h : Chained blake3 0 (before ++ e :: after)) (e' : WalEntry) :
    Cluster.readWalRange { c with wal := before ++ e' :: after } 1 none =
      before ++ (if 1 ≤ e'.lsn ∧ e'.lsn ≤ (before ++ e :: after).length then e' :: after
        else after) := by
  have hlen : (before ++ e' :: after).length = (before ++ e :: after).length := by
    rw [List.length_append, List.length_append, List.length_cons, List.length_cons]
  have hin : ∀ x ∈ before ++ e :: after,
      (decide (1 ≤ x.lsn) && decide (x.lsn < (before ++ e :: after).length + 1)) = true := by
    intro x hx
    have hlt := h.lsn_lt hx
    obtain ⟨i, hi, hget⟩ := List.getElem_of_mem hx
    have hlsn := (h i x (by rw [List.getElem?_eq_getElem hi, hget])).1
    rw [Bool.and_eq_true, decide_eq_true_iff, decide_eq_true_iff]
    omega
  have hbefore := List.filter_eq_self.mpr fun x hx => hin x (List.mem_append_left _ hx)
  have hafter := List.filter_eq_self.mpr fun x hx =>
    hin x (List.mem_append_right _ (List.mem_cons_of_mem e hx))
  unfold Cluster.readWalRange
  dsimp only
  rw [Option.getD_none, hlen, List.filter_append, hbefore, List.filter_cons, hafter]
  simp only [Bool.and_eq_true, decide_eq_true_eq, Nat.lt_succ_iff]

/-- **With one entry replaced** by any other, the replay fails exactly if the other is read
and rejected, or not read and missed. -/
theorem replayWal_replaced_iff (h : Chained blake3 0 (before ++ e :: after))
    (hown : ∀ x ∈ before ++ e :: after, x.shardKey = k) (e' : WalEntry) :
    (∃ err state, (replayWal blake3 { c with wal := before ++ e' :: after } 1 k).val
        = (.error err, state)) ↔
      if 1 ≤ e'.lsn ∧ e'.lsn ≤ (before ++ e :: after).length
      then e'.Rejected blake3 k before.length else after ≠ [] := by
  obtain ⟨hbefore, hrest⟩ := chained_append.mp h
  have hafter := hrest.tail
  rw [Nat.zero_add] at hrest hafter
  have hownBefore : ∀ x ∈ before, x.shardKey = k := fun x hx => hown x (List.mem_append_left _ hx)
  have hownAfter : ∀ x ∈ after, x.shardKey = k := fun x hx =>
    hown x (List.mem_append_right _ (List.mem_cons_of_mem e hx))
  unfold replayWal
  rw [readWalRange_replaced h e']
  split
  next hread =>
    by_cases hrejected : e'.Rejected blake3 k before.length
    · rw [← Nat.zero_add before.length] at hrejected
      exact iff_of_true (replayLoop_rejected hbefore hownBefore hrejected after)
        (Nat.zero_add before.length ▸ hrejected)
    · -- an entry that passes in its place leaves the log as a log should be
      obtain ⟨hlsn, hsound, hkey⟩ : e'.lsn = before.length + 1 ∧ e'.Sound blake3 ∧
          e'.shardKey = k := by
        unfold WalEntry.Rejected at hrejected
        simpa only [not_or, not_not] using hrejected
      have hone : Chained blake3 before.length [e'] := by
        intro i x hx
        cases i with
        | zero =>
          obtain rfl := Option.some.inj hx
          exact ⟨hlsn, hsound⟩
        | succ i => cases hx
      have hchain : Chained blake3 0 (before ++ e' :: after) := by
        refine chained_append.mpr ⟨hbefore, ?_⟩
        rw [Nat.zero_add]
        show Chained blake3 before.length ([e'] ++ after)
        exact chained_append.mpr ⟨hone, hafter⟩
      have hall : ∀ x ∈ before ++ e' :: after, x.shardKey = k := by
        intro x hx
        rcases List.mem_append.mp hx with hx | hx
        · exact hownBefore x hx
        · rcases List.mem_cons.mp hx with rfl | hx
          · exact hkey
          · exact hownAfter x hx
      exact iff_of_false (replayLoop_own_ne_error hchain hall) hrejected
  next hmissed =>
    cases after with
    | nil =>
      rw [List.append_nil]
      exact iff_of_false (replayLoop_own_ne_error hbefore hownBefore) fun hne => hne rfl
    | cons f after =>
      -- the entry behind the one that is missing does not follow the one before it
      have hgap : f.Rejected blake3 k (0 + before.length) := by
        have hlsn := (hafter 0 f rfl).1
        exact Or.inl (by omega)
      exact iff_of_true (replayLoop_rejected hbefore hownBefore hgap after)
        (List.cons_ne_nil f after)

end Replaced

/-! ## One field changed -/

/-- A change that leaves the LSN, the shard key and what is hashed alone goes unnoticed. -/
theorem not_rejected_of_same {k : ShardKey} {prev : Nat} {e e' : WalEntry}
    (h : ¬e.Rejected blake3 k prev) (hlsn : e'.lsn = e.lsn) (hkey : e'.shardKey = e.shardKey)
    (hsum : e'.checksum = e.checksum) (hinput : e'.checksumInput = e.checksumInput) :
    ¬e'.Rejected blake3 k prev := by
  unfold WalEntry.Rejected WalEntry.Sound at h ⊢
  rwa [hlsn, hkey, hsum, hinput]

/-- **A change of one field** of one entry of a log of one shard fails the replay exactly if
it is a change of the shard key, of the payload, or of the LSN; of the last entry's LSN only
if the new one is still in range. The hash is to tell the two payloads apart. -/
theorem tamper_detected_iff {ops : List ClusterOp} {k : ShardKey} {before after : List WalEntry}
    {e : WalEntry} {t : Tamper}
    (hwal : (final (clusterStep blake3) .new ops).wal = before ++ e :: after)
    (hshard : ∀ x ∈ (final (clusterStep blake3) .new ops).wal, x.shardKey = k)
    (hchange : t.apply e ≠ e)
    (hinj : blake3 (t.apply e).checksumInput = blake3 e.checksumInput →
      (t.apply e).checksumInput = e.checksumInput) :
    (∃ err state, (replayWal blake3
        { final (clusterStep blake3) .new ops with wal := before ++ t.apply e :: after } 1 k).val
        = (.error err, state)) ↔
      t.Detected (final (clusterStep blake3) .new ops).wal.length after := by
  have hchain := @chained_run blake3 ops
  rw [hwal] at hchain hshard ⊢
  obtain ⟨-, hrest⟩ := chained_append.mp hchain
  obtain ⟨hlsn, hsound⟩ := hrest 0 e rfl
  rw [Nat.zero_add, Nat.add_zero] at hlsn
  have hkey : e.shardKey = k := hshard e (List.mem_append_right _ List.mem_cons_self)
  have hpasses : ¬e.Rejected blake3 k before.length := by
    rintro (hbad | hbad | hbad)
    · exact hbad hlsn
    · exact hbad hsound
    · exact hbad hkey
  have hrange : 1 ≤ e.lsn ∧ e.lsn ≤ (before ++ e :: after).length := by
    rw [List.length_append, List.length_cons]
    omega
  -- with the LSN left alone the entry is read, and the checks decide
  have hread : ∀ e' : WalEntry, e'.lsn = e.lsn →
      ((∃ err state, (replayWal blake3
          { final (clusterStep blake3) .new ops with wal := before ++ e' :: after } 1 k).val
          = (.error err, state)) ↔ e'.Rejected blake3 k before.length) := by
    intro e' hsame
    rw [replayWal_replaced_iff hchain hshard, if_pos (hsame.symm ▸ hrange)]
  cases t with
  | entryType v =>
    rw [hread ((Tamper.entryType v).apply e) rfl]
    exact iff_false_intro (not_rejected_of_same hpasses rfl rfl rfl rfl)
  | previousLsn v =>
    rw [hread ((Tamper.previousLsn v).apply e) rfl]
    exact iff_false_intro (not_rejected_of_same hpasses rfl rfl rfl rfl)
  | payloadLength v =>
    rw [hread ((Tamper.payloadLength v).apply e) rfl]
    exact iff_false_intro (not_rejected_of_same hpasses rfl rfl rfl rfl)
  | shardKey v =>
    rw [hread ((Tamper.shardKey v).apply e) rfl]
    refine iff_true_intro (Or.inr (Or.inr fun hsame => hchange ?_))
    have hv : v = e.shardKey := hsame.trans hkey.symm
    rw [hv]
    rfl
  | payload v =>
    rw [hread ((Tamper.payload v).apply e) rfl]
    refine iff_true_intro (Or.inr (Or.inl fun hsame => hchange ?_))
    have hinput := hinj (hsame.symm.trans hsound)
    have hv : v = e.payload := List.append_cancel_left hinput
    rw [hv]
    rfl
  | lsn v =>
    rw [replayWal_replaced_iff hchain hshard]
    change (if 1 ≤ v ∧ v ≤ (before ++ e :: after).length then _ else _) ↔
      after ≠ [] ∨ (1 ≤ v ∧ v ≤ (before ++ e :: after).length)
    have hne : v ≠ before.length + 1 := by
      rintro rfl
      rw [← hlsn] at hchange
      exact hchange rfl
    split
    next hin => exact iff_of_true (Or.inl hne) (Or.inr hin)
    next hmissed => exact (or_iff_left hmissed).symm

/-! ## A log of one entry -/

/-- A hash by the last byte. -/
def lastByte (bytes : List UInt8) : Bytes32 := Vector.replicate 32 (bytes.getLastD 0)

/-- One register entry. -/
def oneEntry (blake3 : List UInt8 → Bytes32) : List ClusterOp :=
  [.appendWalEntry (.buildV13 blake3 entryTypeDidRegister (Vector.replicate 32 1) [1])]

/-- Its payload is changed from one byte to another. -/
theorem tamper_payload_detected :
    ∃ err state, (replayWal lastByte
      { final (clusterStep lastByte) .new (oneEntry lastByte) with
        wal := [] ++ (Tamper.payload [2]).apply
          ((WalEntry.buildV13 lastByte entryTypeDidRegister (Vector.replicate 32 1)
            [1]).finalizeWithLsns lastByte 1 0) :: [] } 1 (Vector.replicate 32 1)).val
      = (.error err, state) := by
  refine (@tamper_detected_iff lastByte (oneEntry lastByte) (Vector.replicate 32 1) [] [] _
    (.payload [2]) rfl ?_ ?_ ?_).mpr trivial
  · intro x hx
    rw [List.mem_singleton.mp hx]
    rfl
  · decide +kernel
  · intro hsame
    exact absurd hsame (by decide +kernel)

/-- Its type is changed to that of a revocation. -/
theorem tamper_type_unnoticed :
    ¬∀ (blake3 : List UInt8 → Bytes32) (ops : List ClusterOp) (k : ShardKey)
      (before after : List WalEntry) (e : WalEntry) (t : Tamper),
      (final (clusterStep blake3) .new ops).wal = before ++ e :: after →
      (∀ x ∈ (final (clusterStep blake3) .new ops).wal, x.shardKey = k) →
      t.apply e ≠ e →
      (blake3 (t.apply e).checksumInput = blake3 e.checksumInput →
        (t.apply e).checksumInput = e.checksumInput) →
      ∃ err state, (replayWal blake3
        { final (clusterStep blake3) .new ops with wal := before ++ t.apply e :: after } 1 k).val
        = (.error err, state) := by
  intro h
  have hown : ∀ x ∈ (final (clusterStep lastByte) .new (oneEntry lastByte)).wal,
      x.shardKey = Vector.replicate 32 1 := by
    intro x hx
    rw [List.mem_singleton.mp hx]
    rfl
  have hchain := @chained_run lastByte (oneEntry lastByte)
  have hfail := h lastByte (oneEntry lastByte) (Vector.replicate 32 1) [] [] _
    (.entryType entryTypeDidRevoke) rfl hown (by decide +kernel) fun _ => rfl
  have hrejected := (@replayWal_replaced_iff lastByte _ _ [] [] _ hchain hown _).mp hfail
  revert hrejected
  decide +kernel

end CipherOcto.Substrate
