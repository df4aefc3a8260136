import CipherOcto.Substrate.Cluster

/-!
# Replaying the log

`replay_wal` reads the log from an LSN on and checks of every entry that it
follows the one before, that its checksum is right and that it is of the shard
that is replayed. The appender keeps one log for all shards, so the first two
checks always pass, and the third stops the replay at the first entry of
another shard: a log is replayed for a shard only when everything from the
start LSN on belongs to it.

> `Chained`: entry `i` has LSN `i + 1` and a right checksum. Every run of the
> cluster keeps it.
> `replayLoop_chained`: on a chained stretch the loop is a search for the first
> foreign entry.
-/

namespace CipherOcto.Substrate

open Encoding Machine Trace

/-! ## The code -/

inductive ReplayState where
  | idle
  | inProgress (startLsn lastAppliedLsn : Nat) (attemptedEntries : UInt32)
  | failed (startLsn lastAppliedLsn : Nat) (attemptedEntries : UInt32) (reason : String)
  | complete (tipLsn : Nat) (totalEntries : UInt32)
deriving DecidableEq

/-- `apply_entry`: a stub that accepts every entry. -/
def applyEntry (_entry : WalEntry) (_shardKey : ShardKey) : Except WriterElectionError Unit := .ok ()

variable (blake3 : List UInt8 → Bytes32)

/-- The loop of `replay_wal`, with the state it leaves in the context. -/
def replayLoop (startLsn : Nat) (shardKey : ShardKey) :
    Nat → UInt32 → Nat → List WalEntry → Tracked (Except WriterElectionError Nat × ReplayState)
  | lastApplied, attempted, _, [] => pure (.ok lastApplied, .complete lastApplied attempted)
  | lastApplied, attempted, prevLsn, entry :: entries => do
    let attempted ← addU32 attempted 1
    if entry.lsn ≠ prevLsn + 1 then
      pure (.error .walCorruption,
        .failed startLsn lastApplied attempted "WAL LSN gap or non-monotonic")
    else if entry.checksum ≠ blake3 entry.checksumInput then
      pure (.error .walCorruption, .failed startLsn lastApplied attempted "WAL checksum mismatch")
    else if entry.shardKey ≠ shardKey then
      pure (.error .walCorruption,
        .failed startLsn lastApplied attempted "WAL entry shard_key mismatch")
    else
      match applyEntry entry shardKey with
      | .error e => pure (.error e, .failed startLsn lastApplied attempted "apply failed")
      | .ok () => replayLoop startLsn shardKey entry.lsn attempted entry.lsn entries

/-- `replay_wal` over `InMemoryWal`. -/
def replayWal (c : Cluster) (startLsn : Nat) (shardKey : ShardKey) :
    Tracked (Except WriterElectionError Nat × ReplayState) :=
  replayLoop blake3 startLsn shardKey startLsn 0 (startLsn - 1) (c.readWalRange startLsn none)

/-! ## The log a cluster writes -/

/-- A stretch of a log after `n` entries: LSNs count on from `n` and every
checksum is right. -/
def Chained (n : Nat) (log : List WalEntry) : Prop :=
  ∀ i e, log[i]? = some e → e.lsn = n + i + 1 ∧ e.Sound blake3

variable {blake3}

theorem Chained.tail {n : Nat} {e : WalEntry} {log : List WalEntry}
    (h : Chained blake3 n (e :: log)) : Chained blake3 (n + 1) log := by
  intro i e' he'
  obtain ⟨hlsn, hsound⟩ := h (i + 1) e' he'
  exact ⟨by omega, hsound⟩

theorem Chained.drop {n : Nat} {log : List WalEntry} (h : Chained blake3 n log) (k : Nat) :
    Chained blake3 (n + k) (log.drop k) := by
  intro i e he
  rw [List.getElem?_drop] at he
  obtain ⟨hlsn, hsound⟩ := h (k + i) e he
  exact ⟨by omega, hsound⟩

theorem Chained.snoc {log : List WalEntry} (h : Chained blake3 0 log) (e : WalEntry)
    (previousLsn : Nat) :
    Chained blake3 0 (log ++ [e.finalizeWithLsns blake3 (log.length + 1) previousLsn]) := by
  intro i e' he'
  rcases Nat.lt_trichotomy i log.length with hlt | heq | hgt
  · rw [List.getElem?_append_left hlt] at he'
    exact h i e' he'
  · rw [heq, List.getElem?_concat_length] at he'
    cases he'
    exact ⟨by rw [heq, WalEntry.finalizeWithLsns_lsn]; omega, WalEntry.finalizeWithLsns_sound ..⟩
  · rw [List.getElem?_append_right hgt.le, List.getElem?_eq_none (by simp; omega)] at he'
    cases he'

/-- Only `append_wal_entry` writes the log, and it writes the next entry. -/
theorem chained_step {c : Cluster} (h : Chained blake3 0 c.wal) (op : ClusterOp) :
    Chained blake3 0 (clusterStep blake3 c op).2.wal := by
  cases op with
  | appendWalEntry e => exact h.snoc e _
  | tryAcquireLeader n k hlc =>
    obtain ⟨e, heq⟩ | ⟨-, heq⟩ := tryAcquireLeader_cases c n k hlc
    · simpa only [clusterStep, heq] using h
    · simp only [clusterStep, heq]
      exact h
  | heartbeat n k hlc =>
    obtain ⟨e, heq⟩ | ⟨-, -, heq⟩ := heartbeat_cases c n k hlc
    · simpa only [clusterStep, heq] using h
    · simpa only [clusterStep, heq] using h
  | relinquish n k =>
    simp only [clusterStep, Cluster.relinquish]
    split
    · exact h
    · exact h
  | setLeaseDurationMs ms => exact h
  | kill n => exact h
  | revive n => exact h
  | forceRelinquish k => exact h
  | appendNonceRecord r => exact h

theorem chained_run (ops : List ClusterOp) :
    Chained blake3 0 (final (clusterStep blake3) .new ops).wal := by
  refine run_induct (fun _ (c : Cluster) => Chained blake3 0 c.wal) ?_ ?_ ops
  · intro i e he
    cases he
  · intro _ c op h
    exact chained_step h op

theorem Chained.lsn_lt {n : Nat} {log : List WalEntry} (h : Chained blake3 n log) {e : WalEntry}
    (he : e ∈ log) : e.lsn < n + log.length + 1 := by
  obtain ⟨i, hi, hget⟩ := List.getElem_of_mem he
  have hlsn := (h i e (by rw [List.getElem?_eq_getElem hi, hget])).1
  omega

/-- On a chained log, the entries from an LSN on are a suffix. -/
theorem Chained.filter_from {n : Nat} {log : List WalEntry} (h : Chained blake3 n log)
    (fromLsn : Nat) : (log.filter fun e => fromLsn ≤ e.lsn) = log.drop (fromLsn - 1 - n) := by
  induction log generalizing n with
  | nil => rw [List.filter_nil, List.drop_nil]
  | cons e log ih =>
    have hlsn : e.lsn = n + 1 := (h 0 e rfl).1
    rw [List.filter_cons, ih h.tail, hlsn]
    simp only [decide_eq_true_eq]
    split
    next hfrom =>
      rw [show fromLsn - 1 - n = 0 by omega, show fromLsn - 1 - (n + 1) = 0 by omega]
      rfl
    next hfrom =>
      rw [show fromLsn - 1 - n = (fromLsn - 1 - (n + 1)) + 1 by omega]
      rfl

/-- What a replay reads: the entries from the start LSN on, chained again. -/
theorem readWalRange_of_chained {c : Cluster} (h : Chained blake3 0 c.wal) (fromLsn : Nat) :
    c.readWalRange fromLsn none = c.wal.filter (fun e => fromLsn ≤ e.lsn) ∧
      Chained blake3 (fromLsn - 1) (c.wal.filter fun e => fromLsn ≤ e.lsn) := by
  constructor
  · refine List.filter_congr fun e he => ?_
    have hlt := h.lsn_lt he
    rw [show (none : Option Nat).getD (c.wal.length + 1) = c.wal.length + 1 from rfl,
      decide_eq_true (show e.lsn < c.wal.length + 1 by omega), Bool.and_true]
  · have hdrop := h.drop (fromLsn - 1)
    rw [Nat.zero_add] at hdrop
    rw [h.filter_from, Nat.sub_zero]
    exact hdrop

/-! ## The loop -/

/-- An entry that passes all checks is consumed. -/
theorem replayLoop_cons_own {start last prev : Nat} {k : ShardKey} {attempted : UInt32}
    {e : WalEntry} {log : List WalEntry} (hlsn : e.lsn = prev + 1) (hsound : e.Sound blake3)
    (hown : e.shardKey = k) :
    replayLoop blake3 start k last attempted prev (e :: log)
      = addU32 attempted 1 >>= fun a => replayLoop blake3 start k (prev + 1) a (prev + 1) log := by
  have hsum : ¬e.checksum ≠ blake3 e.checksumInput := not_not.mpr hsound
  simp only [replayLoop, hlsn, hown, ne_eq, not_true_eq_false, if_false, if_neg hsum, applyEntry]

/-- An entry of another shard ends the replay. -/
theorem replayLoop_cons_foreign {start last prev : Nat} {k : ShardKey} {attempted : UInt32}
    {e : WalEntry} {log : List WalEntry} (hlsn : e.lsn = prev + 1) (hsound : e.Sound blake3)
    (hforeign : e.shardKey ≠ k) :
    replayLoop blake3 start k last attempted prev (e :: log)
      = addU32 attempted 1 >>= fun a => pure (.error .walCorruption,
          .failed start last a "WAL entry shard_key mismatch") := by
  have hsum : ¬e.checksum ≠ blake3 e.checksumInput := not_not.mpr hsound
  simp only [replayLoop, hlsn, ne_eq, not_true_eq_false, if_false, if_neg hsum, hforeign,
    not_false_eq_true, if_true]

/-- A chained stretch of the shard's own entries is replayed to its end. -/
theorem replayLoop_own {start last n : Nat} {k : ShardKey} {attempted : UInt32}
    {log : List WalEntry} (h : Chained blake3 n log) (hown : ∀ e ∈ log, e.shardKey = k) :
    (replayLoop blake3 start k last attempted n log).val
      = (.ok ((log.getLast?.map (·.lsn)).getD last),
          .complete ((log.getLast?.map (·.lsn)).getD last)
            (attempted + UInt32.ofNat log.length)) := by
  induction log generalizing last n attempted with
  | nil =>
    show (_, ReplayState.complete last attempted) = (_, ReplayState.complete last (attempted + 0))
    rw [UInt32.add_zero]
    rfl
  | cons e log ih =>
    obtain ⟨hlsn, hsound⟩ := h 0 e rfl
    rw [replayLoop_cons_own hlsn hsound (hown e List.mem_cons_self), Tracked.val_bind,
      ih h.tail fun e' he' => hown e' (List.mem_cons_of_mem _ he')]
    have hcount : (addU32 attempted 1).val + UInt32.ofNat log.length
        = attempted + UInt32.ofNat (e :: log).length := by
      show attempted + 1 + UInt32.ofNat log.length = _
      rw [List.length_cons, UInt32.ofNat_add, UInt32.add_assoc, UInt32.add_comm 1]
      rfl
    -- the tip so far is the LSN of the entry before, which is the last one if no other comes
    have hlast : (log.getLast?.map (·.lsn)).getD (n + 1)
        = ((e :: log).getLast?.map (·.lsn)).getD last := by
      cases log with
      | nil => exact hlsn.symm
      | cons e' log =>
        rw [List.getLast?_cons_cons]
        cases hget : (e' :: log).getLast? with
        | none => exact absurd (List.getLast?_eq_none_iff.mp hget) (List.cons_ne_nil _ _)
        | some x => rfl
    rw [hcount, hlast]

/-- A foreign entry anywhere in a chained stretch fails the replay. -/
theorem replayLoop_foreign {start last n : Nat} {k : ShardKey} {attempted : UInt32}
    {log : List WalEntry} (h : Chained blake3 n log) (hforeign : ∃ e ∈ log, e.shardKey ≠ k) :
    ∃ l a, (replayLoop blake3 start k last attempted n log).val
      = (.error .walCorruption, .failed start l a "WAL entry shard_key mismatch") := by
  induction log generalizing last n attempted with
  | nil =>
    obtain ⟨e, he, -⟩ := hforeign
    exact absurd he List.not_mem_nil
  | cons e log ih =>
    obtain ⟨hlsn, hsound⟩ := h 0 e rfl
    by_cases hown : e.shardKey = k
    · rw [replayLoop_cons_own hlsn hsound hown, Tracked.val_bind]
      refine ih h.tail ?_
      obtain ⟨e', he', hne⟩ := hforeign
      rcases List.mem_cons.mp he' with rfl | he'
      · exact absurd hown hne
      · exact ⟨e', he', hne⟩
    · rw [replayLoop_cons_foreign hlsn hsound hown]
      exact ⟨_, _, rfl⟩

/-- The attempt counter stays within 32 bits on a log that does. -/
theorem replayLoop_no_overflow {start last n : Nat} {k : ShardKey} {attempted : UInt32}
    {log : List WalEntry} (hlen : attempted.toNat + log.length < 2 ^ 32) :
    (replayLoop blake3 start k last attempted n log).ovf = false := by
  induction log generalizing last n attempted with
  | nil => rfl
  | cons e log ih =>
    rw [List.length_cons] at hlen
    have hadd : (addU32 attempted 1).ovf = false :=
      decide_eq_false (by rw [UInt32.toNat_one]; omega)
    have hval : (addU32 attempted 1).val.toNat = attempted.toNat + 1 := by
      show (attempted + 1).toNat = _
      rw [UInt32.toNat_add, UInt32.toNat_one]
      omega
    unfold replayLoop
    rw [Tracked.ovf_bind, hadd, Bool.false_or]
    split
    · rfl
    · split
      · rfl
      · split
        · rfl
        · exact ih (by omega)

/-! ## Replaying what was written -/

/-- The LSN of the shard's last entry at or after the start, or the start. -/
def shardTip (c : Cluster) (startLsn : Nat) (shardKey : ShardKey) : Nat :=
  ((c.wal.filter fun e => startLsn ≤ e.lsn && e.shardKey = shardKey).getLast?.map (·.lsn)).getD
    startLsn

theorem replayWal_own {c : Cluster} (h : Chained blake3 0 c.wal) {startLsn : Nat} {k : ShardKey}
    (hown : ∀ e ∈ c.wal, startLsn ≤ e.lsn → e.shardKey = k) :
    ∃ total, (replayWal blake3 c startLsn k).val
      = (.ok (shardTip c startLsn k), .complete (shardTip c startLsn k) total) := by
  obtain ⟨hread, hchain⟩ := readWalRange_of_chained h startLsn
  have htip : (c.wal.filter fun e => startLsn ≤ e.lsn && e.shardKey = k)
      = c.wal.filter fun e => startLsn ≤ e.lsn := by
    refine List.filter_congr fun e he => ?_
    by_cases hle : startLsn ≤ e.lsn
    · simp [hle, hown e he hle]
    · simp [hle]
  have hall : ∀ e ∈ c.wal.filter (fun e => startLsn ≤ e.lsn), e.shardKey = k := by
    intro e he
    obtain ⟨hmem, hle⟩ := List.mem_filter.mp he
    exact hown e hmem (of_decide_eq_true hle)
  unfold replayWal shardTip
  rw [hread, htip, replayLoop_own hchain hall]
  exact ⟨_, rfl⟩

theorem replayWal_foreign {c : Cluster} (h : Chained blake3 0 c.wal) {startLsn : Nat}
    {k : ShardKey} (hforeign : ∃ e ∈ c.wal, startLsn ≤ e.lsn ∧ e.shardKey ≠ k) :
    ∃ last attempted, (replayWal blake3 c startLsn k).val
      = (.error .walCorruption,
          .failed startLsn last attempted "WAL entry shard_key mismatch") := by
  obtain ⟨hread, hchain⟩ := readWalRange_of_chained h startLsn
  obtain ⟨e, hmem, hle, hne⟩ := hforeign
  unfold replayWal
  rw [hread]
  exact replayLoop_foreign hchain ⟨e, List.mem_filter.mpr ⟨hmem, decide_eq_true hle⟩, hne⟩

theorem replayWal_no_overflow {c : Cluster} (hlen : c.wal.length < 2 ^ 32) (startLsn : Nat)
    (k : ShardKey) : (replayWal blake3 c startLsn k).ovf = false := by
  refine replayLoop_no_overflow ?_
  have hread : (c.readWalRange startLsn none).length ≤ c.wal.length := List.length_filter_le _ _
  rw [UInt32.toNat_zero]
  omega

/-- **Replay.** Whatever was appended, in any order and for any shards: where
every entry from the start LSN on is of the shard, the replay completes at the
shard's tip; where one is not, it fails as corrupt. Its counter fits while the
log has fewer than `2 ^ 32` entries. -/
theorem replay_of_appended (ops : List ClusterOp) (startLsn : Nat) (k : ShardKey) :
    ((∀ e ∈ (final (clusterStep blake3) .new ops).wal, startLsn ≤ e.lsn → e.shardKey = k) →
      ∃ total, (replayWal blake3 (final (clusterStep blake3) .new ops) startLsn k).val
        = (.ok (shardTip (final (clusterStep blake3) .new ops) startLsn k),
            .complete (shardTip (final (clusterStep blake3) .new ops) startLsn k) total)) ∧
    ((∃ e ∈ (final (clusterStep blake3) .new ops).wal, startLsn ≤ e.lsn ∧ e.shardKey ≠ k) →
      ∃ last attempted, (replayWal blake3 (final (clusterStep blake3) .new ops) startLsn k).val
        = (.error .walCorruption,
            .failed startLsn last attempted "WAL entry shard_key mismatch")) ∧
    ((final (clusterStep blake3) .new ops).wal.length < 2 ^ 32 →
      (replayWal blake3 (final (clusterStep blake3) .new ops) startLsn k).ovf = false) :=
  ⟨replayWal_own (chained_run ops), replayWal_foreign (chained_run ops),
    fun hlen => replayWal_no_overflow hlen startLsn k⟩

/-- A register entry of one shard, then one of another. -/
def twoShards (blake3 : List UInt8 → Bytes32) : List ClusterOp :=
  [.appendWalEntry (.buildV13 blake3 entryTypeDidRegister (Vector.replicate 32 1) [1]),
    .appendWalEntry (.buildV13 blake3 entryTypeDidRegister (Vector.replicate 32 2) [2])]

/-- The first shard of such a log cannot be replayed, whatever the hash. -/
theorem twoShards_not_replayed :
    ¬∃ (blake3 : List UInt8 → Bytes32) (tip : Nat) (state : ReplayState),
      (replayWal blake3 (final (clusterStep blake3) .new (twoShards blake3)) 1
        (Vector.replicate 32 1)).val = (.ok tip, state) := by
  intro h
  obtain ⟨blake3, tip, state, hok⟩ := h
  have hlsn : (1 : Nat) ≤ 2 := by omega
  have hkey : (Vector.replicate 32 2 : ShardKey) ≠ Vector.replicate 32 1 := by decide
  have hchain := @chained_run blake3 (twoShards blake3)
  obtain ⟨last, attempted, herr⟩ :=
    replayWal_foreign hchain ⟨_, List.mem_cons_of_mem _ List.mem_cons_self, hlsn, hkey⟩
  rw [hok] at herr
  cases herr

end CipherOcto.Substrate
