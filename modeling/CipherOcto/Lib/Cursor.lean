import CipherOcto.Lib.Machine
import CipherOcto.Lib.Reader

/-!
# Cursors

A reader that keeps the whole buffer and a position indexes into the buffer, and an index
out of range panics. As long as the position stays inside, it does what the `Reader` of the
bytes that are left does:

> `Follows`: from any position inside, the same value and the same error, a position inside
> again, and no panic. `Follows.bind`, `follows_take`, `Follows.many`: the readers that are
> put together from checked slices.
-/

namespace CipherOcto

open Machine

/-- A reader over a buffer and a position in it. -/
abbrev Cursor (ε α : Type) := ReaderT (List UInt8) (StateT Nat (Run ε)) α

namespace Cursor

variable {ε α β : Type}

/-- `buf[i..j]`. -/
def slice (buf : List UInt8) (i j : Nat) : Run ε (List UInt8) :=
  if i ≤ j ∧ j ≤ buf.length then .ok ((buf.take j).drop i) else .error .panic

/-- `&buf[i..]`. -/
theorem slice_length {buf : List UInt8} {i : Nat} (h : i ≤ buf.length) :
    (slice buf i buf.length : Run ε (List UInt8)) = .ok (buf.drop i) := by
  unfold slice
  rw [if_pos ⟨h, le_rfl⟩, List.take_length]

/-- `&buf[..j]`. -/
theorem slice_zero {buf : List UInt8} {j : Nat} (h : j ≤ buf.length) :
    (slice buf 0 j : Run ε (List UInt8)) = .ok (buf.take j) := by
  unfold slice
  rw [if_pos ⟨Nat.zero_le j, h⟩, List.drop_zero]

/-- The next `n` bytes, after the check that they are there. The error says how many are. -/
def take (short : Nat → ε) (n : Nat) : Cursor ε (List UInt8) := fun buf pos =>
  if pos + n > buf.length then
    if pos ≤ buf.length then .error (.err (short (buf.length - pos))) else .error .panic
  else
    (slice buf pos (pos + n)).map fun bytes => (bytes, pos + n)

/-- The next `n` bytes as a number. -/
def uint (short : Nat → ε) (n : Nat) : Cursor ε Nat := do
  let bs ← take short n
  pure (Bytes.beNat bs)

/-- An error that is returned. -/
def fail (e : ε) : Cursor ε α := fun _ _ => .error (.err e)

/-- `n` items. -/
def many (c : Cursor ε α) : Nat → Cursor ε (List α)
  | 0 => pure []
  | n + 1 => do
    let v ← c
    let vs ← many c n
    pure (v :: vs)

/-- Inside the buffer, the cursor does what the reader does. -/
structure Follows (c : Cursor ε α) (r : Reader ε α) : Prop where
  error : ∀ buf pos, pos ≤ buf.length → ∀ e, r (buf.drop pos) = .error e →
    c buf pos = .error (.err e)
  ok : ∀ buf pos, pos ≤ buf.length → ∀ v rest, r (buf.drop pos) = .ok (v, rest) →
    ∃ next ≤ buf.length, rest = buf.drop next ∧ c buf pos = .ok (v, next)

theorem follows_pure (v : α) : Follows (pure v : Cursor ε α) (pure v) where
  error _ _ _ _ h := by cases h
  ok buf pos hpos w rest h := by
    obtain ⟨rfl, rfl⟩ := Reader.pure_eq_ok.mp h
    exact ⟨pos, hpos, rfl, rfl⟩

theorem follows_fail (e : ε) : Follows (fail e : Cursor ε α) (throw e) where
  error _ _ _ _ h := by
    cases h
    rfl
  ok _ _ _ _ _ h := by cases h

theorem Follows.bind {c : Cursor ε α} {r : Reader ε α} {f : α → Cursor ε β} {g : α → Reader ε β}
    (h : Follows c r) (hnext : ∀ v, Follows (f v) (g v)) : Follows (c >>= f) (r >>= g) where
  error buf pos hpos e he := by
    change (r (buf.drop pos) >>= fun p => g p.1 p.2) = _ at he
    show (c buf pos >>= fun p => f p.1 buf p.2) = _
    cases hread : r (buf.drop pos) with
    | error e' =>
      rw [hread] at he
      cases he
      rw [h.error buf pos hpos e hread]
      rfl
    | ok p =>
      obtain ⟨v, rest⟩ := p
      obtain ⟨next, hnextle, rfl, hc⟩ := h.ok buf pos hpos v rest hread
      rw [hread] at he
      rw [hc]
      exact (hnext v).error buf next hnextle e he
  ok buf pos hpos w rest hok := by
    obtain ⟨v, mid, hread, hrest⟩ := Reader.bind_eq_ok.mp hok
    obtain ⟨next, hnextle, rfl, hc⟩ := h.ok buf pos hpos v mid hread
    obtain ⟨last, hlast, hdrop, hf⟩ := (hnext v).ok buf next hnextle w rest hrest
    refine ⟨last, hlast, hdrop, ?_⟩
    show (c buf pos >>= fun p => f p.1 buf p.2) = _
    rw [hc]
    exact hf

theorem Follows.ite {p : Prop} [Decidable p] {c d : Cursor ε α} {r s : Reader ε α}
    (hc : Follows c r) (hd : Follows d s) :
    Follows (if p then c else d) (if p then r else s) := by
  by_cases h : p
  · rw [if_pos h, if_pos h]
    exact hc
  · rw [if_neg h, if_neg h]
    exact hd

/-- The check in front of the slice keeps it in range. -/
theorem follows_take (short : Nat → ε) (n : Nat) : Follows (take short n) (Reader.take short n) where
  error buf pos hpos e he := by
    unfold Reader.take at he
    rw [List.length_drop] at he
    split at he
    next hshort =>
      cases he
      unfold take
      rw [if_pos (by omega), if_pos hpos]
    next => cases he
  ok buf pos hpos v rest hok := by
    unfold Reader.take at hok
    rw [List.length_drop] at hok
    split at hok
    next => cases hok
    next hlong =>
      obtain ⟨rfl, rfl⟩ := Prod.mk.inj (Except.ok.inj hok)
      have hend : pos + n ≤ buf.length := by omega
      refine ⟨pos + n, hend, List.drop_drop, ?_⟩
      have htake : (buf.take (pos + n)).drop pos = (buf.drop pos).take n := by
        rw [List.drop_take, Nat.add_sub_cancel_left]
      unfold take slice
      rw [if_neg (by omega), if_pos ⟨Nat.le_add_right pos n, hend⟩, htake]
      rfl

theorem follows_uint (short : Nat → ε) (n : Nat) : Follows (uint short n) (Reader.uint short n) :=
  (follows_take short n).bind fun _ => follows_pure _

theorem Follows.many {c : Cursor ε α} {r : Reader ε α} (h : Follows c r) (n : Nat) :
    Follows (many c n) (Reader.many r n) := by
  induction n with
  | zero => exact follows_pure []
  | succ n ih => exact h.bind fun v => ih.bind fun vs => follows_pure (v :: vs)

/-- A whole run from the front of a buffer. -/
theorem Follows.run {c : Cursor ε α} {r : Reader ε α} (h : Follows c r) (buf : List UInt8) :
    (c buf 0).map Prod.fst = raise ((r buf).map Prod.fst) := by
  have hdrop : buf.drop 0 = buf := List.drop_zero
  cases hread : r buf with
  | error e =>
    rw [h.error buf 0 (Nat.zero_le _) e (hdrop.symm ▸ hread)]
    rfl
  | ok p =>
    obtain ⟨next, -, -, hc⟩ := h.ok buf 0 (Nat.zero_le _) p.1 p.2 (hdrop.symm ▸ hread)
    rw [hc]
    rfl

end Cursor

end CipherOcto
