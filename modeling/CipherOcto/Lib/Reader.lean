import CipherOcto.Lib.Bytes

/-!
# Byte readers

A reader takes what it needs from the front of a byte list, or fails. `Reads`
says of a reader what it takes: it returns a value exactly where the list starts
with what a writer writes for that value, and leaves the rest. Readers are put
together as their writers are:

> `Reads.one`, `Reads.two`, `Reads.three`: fields one after the other.
> `Reads.many`, `Reads.measured`: items of a known number, or of one that is read.
> `Reads.inj`: what is read back is what was written.
-/

namespace CipherOcto

/-- A reader over the bytes that are left. -/
abbrev Reader (ε α : Type) := StateT (List UInt8) (Except ε) α

namespace Reader

variable {ε α β γ δ : Type}

theorem bind_eq_ok {r : Reader ε α} {f : α → Reader ε β} {bs rest : List UInt8} {v : β} :
    (r >>= f) bs = .ok (v, rest) ↔ ∃ a mid, r bs = .ok (a, mid) ∧ f a mid = .ok (v, rest) := by
  show (r bs >>= fun p => f p.1 p.2) = _ ↔ _
  cases h : r bs with
  | error e => exact iff_of_false (fun hok => nomatch hok) fun ⟨_, _, hok, _⟩ => nomatch hok
  | ok p =>
    constructor
    · intro hok
      exact ⟨p.1, p.2, rfl, hok⟩
    · intro hok
      obtain ⟨a, mid, hp, hf⟩ := hok
      cases hp
      exact hf

theorem pure_eq_ok {a v : α} {bs rest : List UInt8} :
    (pure a : Reader ε α) bs = .ok (v, rest) ↔ v = a ∧ rest = bs := by
  show Except.ok (a, bs) = _ ↔ _
  rw [Except.ok.injEq, Prod.mk.injEq]
  exact and_congr eq_comm eq_comm

/-- The next `n` bytes; `short` is the error when only so many are left. -/
def take (short : Nat → ε) (n : Nat) : Reader ε (List UInt8) := fun bs =>
  if bs.length < n then .error (short bs.length) else .ok (bs.take n, bs.drop n)

/-- The next `n` bytes as a number. -/
def uint (short : Nat → ε) (n : Nat) : Reader ε Nat := do
  let bs ← take short n
  pure (Bytes.beNat bs)

/-- The same, the smallest byte first. -/
def uintLe (short : Nat → ε) (n : Nat) : Reader ε Nat := do
  let bs ← take short n
  pure (Bytes.leNat bs)

/-- `n` items. -/
def many (r : Reader ε α) : Nat → Reader ε (List α)
  | 0 => pure []
  | n + 1 => do
    let v ← r
    let vs ← many r n
    pure (v :: vs)

/-- The reader returns the values that are `good`, from what `write` writes for
them. -/
def Reads (r : Reader ε α) (write : α → List UInt8) (good : α → Prop) : Prop :=
  ∀ bs v rest, r bs = .ok (v, rest) ↔ good v ∧ bs = write v ++ rest

variable {r : Reader ε α} {s : Reader ε β} {t : Reader ε γ} {w : α → List UInt8}
  {x : β → List UInt8} {y : γ → List UInt8} {g : α → Prop} {h : β → Prop} {k : γ → Prop}

theorem Reads.inj (hr : Reads r w g) {a b : α} (ha : g a) (hb : g b) {u v : List UInt8}
    (heq : w a ++ u = w b ++ v) : a = b ∧ u = v := by
  have hread := (hr (w a ++ u) a u).mpr ⟨ha, rfl⟩
  rw [(hr (w a ++ u) b v).mpr ⟨hb, heq⟩] at hread
  cases hread
  exact ⟨rfl, rfl⟩

theorem Reads.congr (hr : Reads r w g) {g' : α → Prop} (hg : ∀ v, g v ↔ g' v) : Reads r w g' := by
  intro bs v rest
  rw [hr bs v rest, hg]

theorem reads_take (short : Nat → ε) (n : Nat) :
    Reads (take short n) id fun v => v.length = n := by
  intro bs v rest
  unfold take
  split
  next hshort =>
    refine iff_of_false (fun hok => nomatch hok) fun hand => ?_
    rw [hand.2, List.length_append] at hshort
    have hlen := hand.1
    rw [id_eq] at hshort
    omega
  next hlong =>
    rw [Except.ok.injEq, Prod.mk.injEq]
    constructor
    · intro hand
      obtain ⟨rfl, rfl⟩ := hand
      exact ⟨List.length_take_of_le (by omega), (List.take_append_drop n bs).symm⟩
    · intro hand
      obtain ⟨hlen, rfl⟩ := hand
      exact ⟨List.take_left' hlen, List.drop_left' hlen⟩

/-- A value read and then converted. -/
theorem Reads.convert (hr : Reads r w g) {f : α → β} (hto : ∀ a, g a → h (f a) ∧ x (f a) = w a)
    (hfrom : ∀ b, h b → ∃ a, g a ∧ f a = b) : Reads (do let a ← r; pure (f a)) x h := by
  intro bs v rest
  rw [bind_eq_ok]
  constructor
  · intro hok
    obtain ⟨a, mid, hread, hpure⟩ := hok
    obtain ⟨rfl, rfl⟩ := pure_eq_ok.mp hpure
    obtain ⟨ha, rfl⟩ := (hr bs a rest).mp hread
    rw [(hto a ha).2]
    exact ⟨(hto a ha).1, rfl⟩
  · intro hand
    obtain ⟨hv, rfl⟩ := hand
    obtain ⟨a, ha, rfl⟩ := hfrom v hv
    refine ⟨a, rest, (hr _ a rest).mpr ⟨ha, ?_⟩, pure_eq_ok.mpr ⟨rfl, rfl⟩⟩
    rw [(hto a ha).2]

theorem reads_uint (short : Nat → ε) (n : Nat) :
    Reads (uint short n) (Bytes.toBe n) fun v => v < 256 ^ n := by
  refine (reads_take short n).convert (fun bs hbs => ?_) fun v hv => ?_
  · have hlt := Bytes.beNat_lt bs
    rw [hbs] at hlt
    refine ⟨hlt, ?_⟩
    have hback := Bytes.toBe_beNat bs
    rw [hbs] at hback
    exact hback
  · exact ⟨Bytes.toBe n v, Bytes.length_toBe n v, by rw [Bytes.beNat_toBe, Nat.mod_eq_of_lt hv]⟩

theorem reads_uintLe (short : Nat → ε) (n : Nat) :
    Reads (uintLe short n) (Bytes.toLe n) fun v => v < 256 ^ n := by
  refine (reads_take short n).convert (fun bs hbs => ?_) fun v hv => ?_
  · have hlt := Bytes.leNat_lt bs
    rw [hbs] at hlt
    refine ⟨hlt, ?_⟩
    have hback := Bytes.toLe_leNat bs
    rw [hbs] at hback
    exact hback
  · exact ⟨Bytes.toLe n v, Bytes.length_toLe n v, by rw [Bytes.leNat_toLe, Nat.mod_eq_of_lt hv]⟩

/-- One field. -/
theorem Reads.one (hr : Reads r w g) {f : α → δ} {bs rest : List UInt8} {v : δ} :
    (do let a ← r; pure (f a) : Reader ε δ) bs = .ok (v, rest) ↔
      ∃ a, g a ∧ bs = w a ++ rest ∧ v = f a := by
  rw [bind_eq_ok]
  constructor
  · intro hok
    obtain ⟨a, mid, hread, hpure⟩ := hok
    obtain ⟨rfl, rfl⟩ := pure_eq_ok.mp hpure
    obtain ⟨ha, hbs⟩ := (hr bs a rest).mp hread
    exact ⟨a, ha, hbs, rfl⟩
  · intro hok
    obtain ⟨a, ha, hbs, rfl⟩ := hok
    exact ⟨a, rest, (hr bs a rest).mpr ⟨ha, hbs⟩, pure_eq_ok.mpr ⟨rfl, rfl⟩⟩

/-- Two fields. -/
theorem Reads.two (hr : Reads r w g) (hs : Reads s x h) {f : α → β → δ} {bs rest : List UInt8}
    {v : δ} :
    (do let a ← r; let b ← s; pure (f a b) : Reader ε δ) bs = .ok (v, rest) ↔
      ∃ a b, (g a ∧ h b) ∧ bs = w a ++ x b ++ rest ∧ v = f a b := by
  rw [bind_eq_ok]
  constructor
  · intro hok
    obtain ⟨a, mid, hread, hnext⟩ := hok
    obtain ⟨ha, rfl⟩ := (hr bs a mid).mp hread
    obtain ⟨b, hb, rfl, rfl⟩ := hs.one.mp hnext
    exact ⟨a, b, ⟨ha, hb⟩, (List.append_assoc ..).symm, rfl⟩
  · intro hok
    obtain ⟨a, b, ⟨ha, hb⟩, rfl, rfl⟩ := hok
    refine ⟨a, x b ++ rest, (hr _ a _).mpr ⟨ha, List.append_assoc ..⟩, ?_⟩
    exact hs.one.mpr ⟨b, hb, rfl, rfl⟩

/-- Three fields. -/
theorem Reads.three (hr : Reads r w g) (hs : Reads s x h) (ht : Reads t y k)
    {f : α → β → γ → δ} {bs rest : List UInt8} {v : δ} :
    (do let a ← r; let b ← s; let c ← t; pure (f a b c) : Reader ε δ) bs = .ok (v, rest) ↔
      ∃ a b c, (g a ∧ h b ∧ k c) ∧ bs = w a ++ x b ++ y c ++ rest ∧ v = f a b c := by
  rw [bind_eq_ok]
  constructor
  · intro hok
    obtain ⟨a, mid, hread, hnext⟩ := hok
    obtain ⟨ha, rfl⟩ := (hr bs a mid).mp hread
    obtain ⟨b, c, ⟨hb, hc⟩, rfl, rfl⟩ := (hs.two ht).mp hnext
    refine ⟨a, b, c, ⟨ha, hb, hc⟩, ?_, rfl⟩
    simp only [List.append_assoc]
  · intro hok
    obtain ⟨a, b, c, ⟨ha, hb, hc⟩, rfl, rfl⟩ := hok
    refine ⟨a, x b ++ y c ++ rest, (hr _ a _).mpr ⟨ha, ?_⟩, ?_⟩
    · simp only [List.append_assoc]
    · exact (hs.two ht).mpr ⟨b, c, ⟨hb, hc⟩, rfl, rfl⟩

theorem Reads.many (hr : Reads r w g) (n : Nat) :
    Reads (many r n) (fun vs => vs.flatMap w) fun vs => vs.length = n ∧ ∀ v ∈ vs, g v := by
  induction n with
  | zero =>
    intro bs vs rest
    rw [Reader.many, pure_eq_ok]
    constructor
    · intro hand
      obtain ⟨rfl, rfl⟩ := hand
      exact ⟨⟨rfl, fun v hv => absurd hv List.not_mem_nil⟩, rfl⟩
    · intro hand
      obtain ⟨⟨hlen, -⟩, rfl⟩ := hand
      rw [List.eq_nil_of_length_eq_zero hlen]
      exact ⟨rfl, rfl⟩
  | succ n ih =>
    intro bs vs rest
    rw [Reader.many, hr.two ih]
    constructor
    · intro hok
      obtain ⟨v, vs, ⟨hv, hlen, hvs⟩, rfl, rfl⟩ := hok
      refine ⟨⟨congrArg (· + 1) hlen, List.forall_mem_cons.mpr ⟨hv, hvs⟩⟩, ?_⟩
      dsimp only
      rw [List.flatMap_cons]
    · intro hand
      obtain ⟨⟨hlen, hall⟩, rfl⟩ := hand
      cases vs with
      | nil => cases hlen
      | cons v vs =>
        obtain ⟨hv, hvs⟩ := List.forall_mem_cons.mp hall
        refine ⟨v, vs, ⟨hv, Nat.succ.inj hlen, hvs⟩, ?_, rfl⟩
        dsimp only
        rw [List.flatMap_cons]

/-- A length, read one way or another, and then as much of something. -/
theorem Reads.measured {len : Reader ε Nat} {lw : Nat → List UInt8} {lg : Nat → Prop}
    {body : Nat → Reader ε α} {size : α → Nat} (hlen : Reads len lw lg)
    (hbody : ∀ m, Reads (body m) w fun v => size v = m ∧ g v) :
    Reads (do let m ← len; body m) (fun v => lw (size v) ++ w v) fun v => lg (size v) ∧ g v := by
  intro bs v rest
  rw [bind_eq_ok]
  constructor
  · intro hok
    obtain ⟨m, mid, hread, hnext⟩ := hok
    obtain ⟨hm, rfl⟩ := (hlen bs m mid).mp hread
    obtain ⟨⟨rfl, hv⟩, rfl⟩ := (hbody m mid v rest).mp hnext
    exact ⟨⟨hm, hv⟩, (List.append_assoc ..).symm⟩
  · intro hand
    obtain ⟨⟨hm, hv⟩, rfl⟩ := hand
    refine ⟨size v, w v ++ rest, (hlen _ _ _).mpr ⟨hm, List.append_assoc ..⟩, ?_⟩
    exact (hbody (size v) _ v rest).mpr ⟨⟨rfl, hv⟩, rfl⟩

theorem Reads.prefixed {n : Nat} {short : Nat → ε} {body : Nat → Reader ε α} {size : α → Nat}
    (hbody : ∀ m, Reads (body m) w fun v => size v = m ∧ g v) :
    Reads (do let m ← uint short n; body m) (fun v => Bytes.toBe n (size v) ++ w v)
      fun v => size v < 256 ^ n ∧ g v :=
  (reads_uint short n).measured hbody

end Reader

end CipherOcto
