import Mathlib.Data.List.Basic

/-!
# Lists in chunks

`List.toChunks` cuts a list into chunks of `n`, the last of which may be shorter. It fills
an array and starts a new one when it is full; here is what that comes to.

> `toChunks_append`: the first `n` are a chunk, and the rest is cut on its own.
-/

namespace List

variable {α : Type} {n : Nat}

theorem toChunks_go_eq_append (xs : List α) (acc : Array α) (done : Array (List α)) :
    toChunks.go n xs acc done = done.toList ++ toChunks.go n xs acc #[] := by
  induction xs generalizing acc done with
  | nil => simp [toChunks.go]
  | cons x xs ih =>
    unfold toChunks.go
    split
    · rw [ih _ (done.push acc.toList), ih _ (#[].push acc.toList)]
      simp
    · exact ih _ done

/-- What there is room for is pushed. -/
theorem toChunks_go_fill (xs ys : List α) (acc : Array α) (h : acc.size + xs.length ≤ n) :
    toChunks.go n (xs ++ ys) acc #[] = toChunks.go n ys (acc ++ xs.toArray) #[] := by
  induction xs generalizing acc with
  | nil => simp
  | cons x xs ih =>
    rw [length_cons] at h
    have hroom : ¬(acc.size == n) = true := by
      rw [beq_iff_eq]
      omega
    rw [cons_append, toChunks.go, if_neg hroom, ih (acc.push x) (by rw [Array.size_push]; omega)]
    simp

theorem toChunks_of_length_le {xs : List α} (hne : xs ≠ []) (h : xs.length ≤ n) :
    xs.toChunks n = [xs] := by
  cases xs with
  | nil => exact absurd rfl hne
  | cons x xs =>
    cases n with
    | zero => cases h
    | succ n =>
      have hroom : #[x].size + xs.length ≤ n + 1 := by
        rw [Array.size_singleton, Nat.add_comm]
        exact h
      have hfill := toChunks_go_fill xs [] #[x] hroom
      rw [append_nil] at hfill
      change toChunks.go (n + 1) xs #[x] #[] = _
      rw [hfill, toChunks.go]
      simp

/-- **A full chunk** is cut off in front of what there is. -/
theorem toChunks_append {xs ys : List α} (hn : 0 < n) (hxs : xs.length = n) (hys : ys ≠ []) :
    (xs ++ ys).toChunks n = xs :: ys.toChunks n := by
  obtain ⟨m, rfl⟩ := Nat.exists_eq_add_one.mpr hn
  cases xs with
  | nil => cases hxs
  | cons x xs =>
    cases ys with
    | nil => exact absurd rfl hys
    | cons y ys =>
      have hroom : #[x].size + xs.length ≤ m + 1 := by
        rw [Array.size_singleton, Nat.add_comm]
        exact Nat.le_of_eq hxs
      have hfill := toChunks_go_fill xs (y :: ys) #[x] hroom
      have hfull : ((#[x] ++ xs.toArray).size == m + 1) = true := by
        simpa [Nat.add_comm] using hxs
      change toChunks.go (m + 1) (xs ++ y :: ys) #[x] #[] = _ :: toChunks.go (m + 1) ys #[y] #[]
      rw [hfill, toChunks.go, if_pos hfull, toChunks_go_eq_append]
      simp

theorem length_toChunks (hn : 0 < n) (xs : List α) :
    (xs.toChunks n).length = (xs.length + n - 1) / n := by
  by_cases hlen : xs.length ≤ n
  · cases xs with
    | nil =>
      rw [length_nil, Nat.zero_add, Nat.div_eq_of_lt (by omega)]
      rfl
    | cons x xs =>
      rw [toChunks_of_length_le (cons_ne_nil x xs) hlen, length_singleton]
      rw [length_cons] at hlen ⊢
      have hone : xs.length + 1 + n - 1 = xs.length + n := by omega
      rw [hone, Nat.add_div_right _ hn, Nat.div_eq_of_lt hlen]
  · have hdrop : xs.drop n ≠ [] := by
      rw [ne_eq, drop_eq_nil_iff]
      exact hlen
    have htake : (xs.take n).length = n := by
      rw [length_take]
      omega
    have ih := length_toChunks hn (xs.drop n)
    rw [← take_append_drop n xs, toChunks_append hn htake hdrop, length_cons, ih, length_append,
      htake]
    have hsum : n + (xs.drop n).length + n - 1 = (xs.drop n).length + n - 1 + n := by omega
    rw [hsum, Nat.add_div_right _ hn]
termination_by xs.length
decreasing_by
  rw [length_drop]
  omega

end List
