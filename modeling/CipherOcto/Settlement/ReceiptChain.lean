import CipherOcto.Lib.Machine
import CipherOcto.Lib.Trace
import CipherOcto.Encoding.Codec

/-!
# The chain of canonical receipts

Receipts are numbered one after the other. `append` stores a receipt that follows
the largest stored id, `verify_receipt_chain` walks a list and asks of every
receipt that it follows the one before. Ids are `u64`, and their column is an
`i64`: the upper half of the ids is stored below the lower half.

> `verifyReceiptChain_eq_ok_iff`: the verifier accepts the chains, and no chain
> makes it overflow.
> `append_agrees_iff`: an `append` keeps the store in agreement with the verifier
> unless it crosses the sign.

The keyed BLAKE3 is a parameter. The store's own failures are left out.
-/

namespace CipherOcto.Settlement

open Encoding Machine

/-! ## The code -/

def chainDomainSeparator : List UInt8 := asBytes "cipherocto/reservation/v1/"

/-- `Receipt`, as far as the chain reads it. -/
structure CanonicalReceipt where
  receiptId : UInt64
  askId : Bytes32
  settlementHash : Bytes32
  routerId : String
  routerSig : List UInt8
  timestampUnix : UInt64
deriving DecidableEq

inductive ChainError where
  | sequenceGap (receiptId prev : Nat)
  | chainIntegrity (receiptId : Nat)
  | alreadyExists (receiptId : Nat)
deriving DecidableEq

/-- What is hashed for a receipt. -/
def receiptIdInput (r : CanonicalReceipt) : List UInt8 :=
  chainDomainSeparator ++ Bytes.toBe 8 r.receiptId.toNat ++ r.askId.toList ++ asBytes r.routerId ++
    r.routerSig ++ Bytes.toBe 8 r.timestampUnix.toNat

/-- A row of `canonical_receipts`. -/
structure ReceiptRow where
  receiptId : Int
  askId : Bytes32
  settlementHash : Bytes32
  routerId : String
  routerSig : List UInt8
  timestampUnix : Int
  receiptId_inI : InI 64 receiptId
  timestampUnix_inI : InI 64 timestampUnix

/-- The table `canonical_receipts`, its rows in the order they were inserted in. -/
structure CanonicalReceipts where
  rows : List ReceiptRow

def CanonicalReceipts.ids (t : CanonicalReceipts) : List Int := t.rows.map ReceiptRow.receiptId

/-- `SELECT MAX(receipt_id) FROM canonical_receipts`. -/
def CanonicalReceipts.maxReceiptId (t : CanonicalReceipts) : Option Int := t.ids.max?

/-- `last_receipt_id`. -/
def CanonicalReceipts.lastReceiptId (t : CanonicalReceipts) : Option Nat :=
  t.maxReceiptId.map (Bytes.unsigned 64)

/-- A number `as i64` is an `i64`. -/
theorem signed_inI (n : Nat) : InI 64 (Bytes.signed 64 n) :=
  ⟨(Bytes.signed_bounds (by decide) n).1, Int.le_sub_one_of_lt (Bytes.signed_bounds (by decide) n).2⟩

/-- The row of a receipt, its numbers `as i64`. -/
def CanonicalReceipt.row (r : CanonicalReceipt) : ReceiptRow where
  receiptId := Bytes.signed 64 r.receiptId.toNat
  askId := r.askId
  settlementHash := r.settlementHash
  routerId := r.routerId
  routerSig := r.routerSig
  timestampUnix := Bytes.signed 64 r.timestampUnix.toNat
  receiptId_inI := signed_inI _
  timestampUnix_inI := signed_inI _

section

-- BLAKE3 under the zero key
variable (keyed : List UInt8 → Bytes32)

/-- `receipt_id_for`. -/
def receiptIdFor (r : CanonicalReceipt) : Bytes32 := keyed (receiptIdInput r)

/-- The loop of `verify_receipt_chain` after the id `last_receipt_id`. -/
def verifyReceiptChainFrom : Option Nat → List CanonicalReceipt → Tracked (Except ChainError Unit)
  | _, [] => pure (.ok ())
  | none, r :: rs =>
    if r.settlementHash ≠ receiptIdFor keyed r then
      pure (.error (.chainIntegrity r.receiptId.toNat))
    else verifyReceiptChainFrom (some r.receiptId.toNat) rs
  | some prev, r :: rs => do
    let next ← addU 64 prev 1
    if r.receiptId.toNat ≠ next then pure (.error (.sequenceGap r.receiptId.toNat prev))
    else if r.settlementHash ≠ receiptIdFor keyed r then
      pure (.error (.chainIntegrity r.receiptId.toNat))
    else verifyReceiptChainFrom (some r.receiptId.toNat) rs

/-- `verify_receipt_chain`. -/
def verifyReceiptChain (receipts : List CanonicalReceipt) : Tracked (Except ChainError Unit) :=
  verifyReceiptChainFrom keyed none receipts

/-- The checks of `append` against the largest id. `prev` is an `i64`, so that its successor is a
`u64`. -/
def checkSuccessor (r : CanonicalReceipt) : Option Int → Except ChainError Unit
  | none => .ok ()
  | some prev =>
    let prevU64 := (max prev 0).toNat
    if r.receiptId.toNat = prevU64 then .error (.alreadyExists r.receiptId.toNat)
    else if r.receiptId.toNat ≠ prevU64 + 1 then
      .error (.sequenceGap r.receiptId.toNat prevU64)
    else .ok ()

/-- `append`. The id is the primary key. -/
def CanonicalReceipts.append (t : CanonicalReceipts) (r : CanonicalReceipt) :
    Except ChainError Unit × CanonicalReceipts :=
  match checkSuccessor r t.maxReceiptId with
  | .error e => (.error e, t)
  | .ok () =>
    if r.settlementHash ≠ receiptIdFor keyed r then
      (.error (.chainIntegrity r.receiptId.toNat), t)
    else if r.row.receiptId ∈ t.ids then (.error (.alreadyExists r.receiptId.toNat), t)
    else (.ok (), ⟨t.rows ++ [r.row]⟩)

end

/-! ## The verifier -/

/-- The id of `b` is the successor of that of `a`, as numbers. -/
def Follows (a b : CanonicalReceipt) : Prop := b.receiptId.toNat = a.receiptId.toNat + 1

/-- The id that has no successor. -/
def topReceiptId : Nat := 2 ^ 64 - 1

section

variable (keyed : List UInt8 → Bytes32)

/-- The receipt's hash is its own. -/
def Hashed (r : CanonicalReceipt) : Prop := r.settlementHash = receiptIdFor keyed r

structure IsReceiptChain (rs : List CanonicalReceipt) : Prop where
  consecutive : rs.IsChain Follows
  hashed : ∀ r ∈ rs, Hashed keyed r

/-- A chain up to the last id, and something after it. -/
def TopFollowed (rs : List CanonicalReceipt) : Prop :=
  ∃ front, front <+: rs ∧ front ≠ rs ∧ IsReceiptChain keyed front ∧
    front.getLast?.map (·.receiptId.toNat) = some topReceiptId

end

section

variable {keyed : List UInt8 → Bytes32}

theorem isReceiptChain_nil : IsReceiptChain keyed [] := ⟨.nil, fun _ h => absurd h List.not_mem_nil⟩

theorem isReceiptChain_singleton {r : CanonicalReceipt} :
    IsReceiptChain keyed [r] ↔ Hashed keyed r :=
  ⟨fun h => h.hashed r List.mem_cons_self, fun h => ⟨.singleton r, fun _ hq =>
    List.mem_singleton.mp hq ▸ h⟩⟩

theorem isReceiptChain_cons_cons {p r : CanonicalReceipt} {rs : List CanonicalReceipt} :
    IsReceiptChain keyed (p :: r :: rs) ↔
      Hashed keyed p ∧ Follows p r ∧ IsReceiptChain keyed (r :: rs) := by
  constructor
  · intro h
    obtain ⟨hfollows, hchain⟩ := List.isChain_cons_cons.mp h.consecutive
    obtain ⟨hp, hrest⟩ := List.forall_mem_cons.mp h.hashed
    exact ⟨hp, hfollows, hchain, hrest⟩
  · intro h
    obtain ⟨hp, hfollows, hchain, hrest⟩ := h
    exact ⟨List.isChain_cons_cons.mpr ⟨hfollows, hchain⟩, List.forall_mem_cons.mpr ⟨hp, hrest⟩⟩

/-- The loop goes on past a receipt that follows and is hashed. -/
theorem verifyFrom_follows {p r : CanonicalReceipt} {rs : List CanonicalReceipt}
    (hfollows : Follows p r) (hhashed : Hashed keyed r) :
    verifyReceiptChainFrom keyed (some p.receiptId.toNat) (r :: rs) =
      verifyReceiptChainFrom keyed (some r.receiptId.toNat) rs := by
  have hid : r.receiptId.toNat = p.receiptId.toNat + 1 := hfollows
  have hhash : r.settlementHash = receiptIdFor keyed r := hhashed
  have hlt : p.receiptId.toNat + 1 < 2 ^ 64 := hid ▸ r.receiptId.toNat_lt
  rw [verifyReceiptChainFrom, addU_of_lt hlt, pure_bind, if_neg (not_not.mpr hid),
    if_neg (not_not.mpr hhash)]

/-- It stops at any other, without an overflow if there is a successor to compare with. -/
theorem verifyFrom_stops {p r : CanonicalReceipt} (rs : List CanonicalReceipt)
    (htop : p.receiptId.toNat ≠ topReceiptId) (hstop : ¬(Follows p r ∧ Hashed keyed r)) :
    ∃ e, verifyReceiptChainFrom keyed (some p.receiptId.toNat) (r :: rs) = pure (.error e) := by
  have hlt : p.receiptId.toNat + 1 < 2 ^ 64 := by
    have := p.receiptId.toNat_lt
    unfold topReceiptId at htop
    omega
  rw [verifyReceiptChainFrom, addU_of_lt hlt, pure_bind]
  by_cases hfollows : r.receiptId.toNat = p.receiptId.toNat + 1
  · have hhash : r.settlementHash ≠ receiptIdFor keyed r :=
      fun hhashed => hstop ⟨hfollows, hhashed⟩
    rw [if_neg (not_not.mpr hfollows), if_pos hhash]
    exact ⟨_, rfl⟩
  · rw [if_pos hfollows]
    exact ⟨_, rfl⟩

theorem verifyFrom_top {p : CanonicalReceipt} (r : CanonicalReceipt) (rs : List CanonicalReceipt)
    (htop : p.receiptId.toNat = topReceiptId) :
    (verifyReceiptChainFrom keyed (some p.receiptId.toNat) (r :: rs)).ovf = true := by
  rw [verifyReceiptChainFrom, Tracked.ovf_bind, htop]
  rfl

/-- The rest of a chain is accepted. -/
theorem verifyFrom_eq_ok_iff {p : CanonicalReceipt} (hp : Hashed keyed p)
    (rs : List CanonicalReceipt) :
    verifyReceiptChainFrom keyed (some p.receiptId.toNat) rs = pure (.ok ()) ↔
      IsReceiptChain keyed (p :: rs) := by
  induction rs generalizing p with
  | nil => exact iff_of_true rfl (isReceiptChain_singleton.mpr hp)
  | cons r rs ih =>
    rw [isReceiptChain_cons_cons, and_iff_right hp]
    by_cases hnext : Follows p r ∧ Hashed keyed r
    · rw [verifyFrom_follows hnext.1 hnext.2, ih hnext.2, and_iff_right hnext.1]
    · refine iff_of_false (fun hok => ?_) fun h => hnext ⟨h.1, h.2.hashed r List.mem_cons_self⟩
      by_cases htop : p.receiptId.toNat = topReceiptId
      · exact absurd (congrArg Tracked.ovf hok) (ne_of_eq_of_ne (verifyFrom_top r rs htop) (by decide))
      · obtain ⟨e, he⟩ := verifyFrom_stops rs htop hnext
        rw [he] at hok
        cases congrArg Tracked.val hok

/-- A front of a list of two and more is the first, or goes on to the second. -/
theorem topFollowed_cons_cons {p r : CanonicalReceipt} {rs : List CanonicalReceipt} :
    TopFollowed keyed (p :: r :: rs) ↔
      Hashed keyed p ∧
        (p.receiptId.toNat = topReceiptId ∨ Follows p r ∧ TopFollowed keyed (r :: rs)) := by
  constructor
  · intro h
    obtain ⟨front, hprefix, hne, hchain, hlast⟩ := h
    match front, hprefix with
    | [], _ => cases hlast
    | [q], hprefix =>
      obtain ⟨rfl, -⟩ := List.cons_prefix_cons.mp hprefix
      exact ⟨isReceiptChain_singleton.mp hchain, Or.inl (Option.some.inj hlast)⟩
    | q :: q' :: front, hprefix =>
      obtain ⟨rfl, hrest⟩ := List.cons_prefix_cons.mp hprefix
      obtain ⟨rfl, -⟩ := List.cons_prefix_cons.mp hrest
      obtain ⟨hp, hfollows, hchain⟩ := isReceiptChain_cons_cons.mp hchain
      exact ⟨hp, Or.inr ⟨hfollows, _, hrest, fun heq => hne (congrArg _ heq), hchain, hlast⟩⟩
  · intro h
    obtain ⟨hp, htop | ⟨hfollows, front, hprefix, hne, hchain, hlast⟩⟩ := h
    · exact ⟨[p], List.cons_prefix_cons.mpr ⟨rfl, List.nil_prefix⟩, by simp,
        isReceiptChain_singleton.mpr hp, congrArg some htop⟩
    · match front, hprefix with
      | [], _ => cases hlast
      | q :: front, hprefix =>
        obtain ⟨rfl, -⟩ := List.cons_prefix_cons.mp hprefix
        refine ⟨p :: q :: front, List.cons_prefix_cons.mpr ⟨rfl, hprefix⟩, ?_,
          isReceiptChain_cons_cons.mpr ⟨hp, hfollows, hchain⟩, hlast⟩
        exact fun heq => hne (List.cons.inj heq).2

theorem not_topFollowed_singleton {p : CanonicalReceipt} : ¬TopFollowed keyed [p] := by
  intro h
  obtain ⟨front, hprefix, hne, -, hlast⟩ := h
  rcases List.prefix_cons_iff.mp hprefix with rfl | ⟨front, rfl, hnil⟩
  · cases hlast
  · exact hne (congrArg _ (List.prefix_nil.mp hnil))

theorem TopFollowed.hashed_head {r : CanonicalReceipt} {rs : List CanonicalReceipt}
    (h : TopFollowed keyed (r :: rs)) : Hashed keyed r := by
  obtain ⟨front, hprefix, -, hchain, hlast⟩ := h
  rcases List.prefix_cons_iff.mp hprefix with rfl | ⟨front, rfl, -⟩
  · cases hlast
  · exact hchain.hashed r List.mem_cons_self

/-- The rest overflows where a chain goes on past the last id. -/
theorem verifyFrom_ovf_iff {p : CanonicalReceipt} (hp : Hashed keyed p)
    (rs : List CanonicalReceipt) :
    (verifyReceiptChainFrom keyed (some p.receiptId.toNat) rs).ovf = true ↔
      TopFollowed keyed (p :: rs) := by
  induction rs generalizing p with
  | nil => exact iff_of_false (fun h => nomatch h) not_topFollowed_singleton
  | cons r rs ih =>
    rw [topFollowed_cons_cons, and_iff_right hp]
    by_cases htop : p.receiptId.toNat = topReceiptId
    · exact iff_of_true (verifyFrom_top r rs htop) (Or.inl htop)
    · rw [or_iff_right htop]
      by_cases hnext : Follows p r ∧ Hashed keyed r
      · rw [verifyFrom_follows hnext.1 hnext.2, ih hnext.2, and_iff_right hnext.1]
      · obtain ⟨e, he⟩ := verifyFrom_stops rs htop hnext
        rw [he]
        exact iff_of_false (fun h => nomatch h) fun h => hnext ⟨h.1, h.2.hashed_head⟩

/-- **What the verifier accepts**: the chains. -/
theorem verifyReceiptChain_eq_ok_iff (rs : List CanonicalReceipt) :
    verifyReceiptChain keyed rs = pure (.ok ()) ↔ IsReceiptChain keyed rs := by
  cases rs with
  | nil => exact iff_of_true rfl isReceiptChain_nil
  | cons r rs =>
    unfold verifyReceiptChain verifyReceiptChainFrom
    by_cases hhashed : r.settlementHash = receiptIdFor keyed r
    · rw [if_neg (not_not.mpr hhashed), verifyFrom_eq_ok_iff hhashed]
    · rw [if_pos hhashed]
      exact iff_of_false (fun h => nomatch congrArg Tracked.val h)
        fun h => hhashed (h.hashed r List.mem_cons_self)

/-- **Where it overflows**. -/
theorem verifyReceiptChain_ovf_iff (rs : List CanonicalReceipt) :
    (verifyReceiptChain keyed rs).ovf = true ↔ TopFollowed keyed rs := by
  cases rs with
  | nil =>
    refine iff_of_false (fun h => nomatch h) fun h => ?_
    obtain ⟨front, hprefix, hne, -⟩ := h
    exact hne (List.prefix_nil.mp hprefix)
  | cons r rs =>
    unfold verifyReceiptChain verifyReceiptChainFrom
    by_cases hhashed : r.settlementHash = receiptIdFor keyed r
    · rw [if_neg (not_not.mpr hhashed), verifyFrom_ovf_iff hhashed]
    · rw [if_pos hhashed]
      exact iff_of_false (fun h => nomatch h) fun h => hhashed h.hashed_head

end

/-! ## The store -/

/-- The receipts a run of `append` has accepted, in order. -/
def acceptedReceipts (events : List (CanonicalReceipt × Except ChainError Unit)) :
    List CanonicalReceipt :=
  events.filterMap fun e =>
    match e.2 with
    | .ok () => some e.1
    | .error _ => none

section

variable (keyed : List UInt8 → Bytes32)

/-- The store and the receipts it has accepted are as the verifier would have them. -/
structure SinkAgrees (t : CanonicalReceipts) (rs : List CanonicalReceipt) : Prop where
  consecutive : rs.IsChain Follows
  verified : verifyReceiptChain keyed rs = pure (.ok ())
  last : t.lastReceiptId = rs.getLast?.map (·.receiptId.toNat)

/-- The receipt takes the store from an id of the upper half back to one, or from the last id of
the lower half into the upper. -/
def CrossesSign (t : CanonicalReceipts) (r : CanonicalReceipt) : Prop :=
  ∃ prev, t.maxReceiptId = some prev ∧ Hashed keyed r ∧
    (prev < 0 ∧ r.receiptId.toNat = 1 ∨ prev = 2 ^ 63 - 1 ∧ r.receiptId.toNat = 2 ^ 63)

/-- What `append` asks of a receipt. -/
structure Accepts (t : CanonicalReceipts) (r : CanonicalReceipt) : Prop where
  successor : ∀ prev, t.maxReceiptId = some prev → r.receiptId.toNat = (max prev 0).toNat + 1
  hashed : Hashed keyed r
  fresh : r.row.receiptId ∉ t.ids

end

section

variable {keyed : List UInt8 → Bytes32} {t : CanonicalReceipts} {r : CanonicalReceipt}

theorem row_receiptId : r.row.receiptId = Bytes.signed 64 r.receiptId.toNat := by
  simp only [CanonicalReceipt.row]

theorem checkSuccessor_eq_ok_iff {last : Option Int} :
    checkSuccessor r last = .ok () ↔
      ∀ prev, last = some prev → r.receiptId.toNat = (max prev 0).toNat + 1 := by
  cases last with
  | none => exact iff_of_true rfl fun _ h => nomatch h
  | some prev =>
    simp only [Option.some.injEq, forall_eq']
    unfold checkSuccessor
    dsimp only
    split
    next hsame => exact iff_of_false (fun h => nomatch h) (by omega)
    · split
      next hgap => exact iff_of_false (fun h => nomatch h) hgap
      next hnext => exact iff_of_true rfl (not_not.mp hnext)

theorem append_of_accepts (h : Accepts keyed t r) :
    t.append keyed r = (.ok (), ⟨t.rows ++ [r.row]⟩) := by
  have hhash : r.settlementHash = receiptIdFor keyed r := h.hashed
  unfold CanonicalReceipts.append
  rw [checkSuccessor_eq_ok_iff.mpr h.successor]
  dsimp only
  rw [if_neg (not_not.mpr hhash), if_neg h.fresh]

theorem append_of_not_accepts (h : ¬Accepts keyed t r) : ∃ e, t.append keyed r = (.error e, t) := by
  unfold CanonicalReceipts.append
  split
  · exact ⟨_, rfl⟩
  next hsuccessor =>
    by_cases hhash : r.settlementHash = receiptIdFor keyed r
    · rw [if_neg (not_not.mpr hhash)]
      by_cases hfresh : r.row.receiptId ∈ t.ids
      · rw [if_pos hfresh]
        exact ⟨_, rfl⟩
      · exact absurd ⟨checkSuccessor_eq_ok_iff.mp hsuccessor, hhash, hfresh⟩ h
    · rw [if_pos hhash]
      exact ⟨_, rfl⟩

/-- The largest id after an insert. -/
theorem maxReceiptId_insert (row : ReceiptRow) :
    (CanonicalReceipts.mk (t.rows ++ [row])).maxReceiptId =
      some (t.maxReceiptId.elim row.receiptId (max · row.receiptId)) := by
  unfold CanonicalReceipts.maxReceiptId CanonicalReceipts.ids
  cases t.rows with
  | nil => rfl
  | cons first rows =>
    simp only [List.cons_append, List.map_cons, List.map_append, List.max?_cons', List.map_nil,
      List.foldl_append, List.foldl_cons, List.foldl_nil, Option.elim_some]

theorem isReceiptChain_concat {rs : List CanonicalReceipt} :
    IsReceiptChain keyed (rs ++ [r]) ↔
      IsReceiptChain keyed rs ∧ Hashed keyed r ∧ ∀ q ∈ rs.getLast?, Follows q r := by
  constructor
  · intro h
    obtain ⟨hfront, -, hlink⟩ := List.isChain_append.mp h.consecutive
    obtain ⟨hall, hlast⟩ := List.forall_mem_append.mp h.hashed
    exact ⟨⟨hfront, hall⟩, hlast r List.mem_cons_self, fun q hq => hlink q hq r rfl⟩
  · intro h
    obtain ⟨hfront, hhashed, hlink⟩ := h
    refine ⟨List.isChain_append.mpr ⟨hfront.consecutive, .singleton r, ?_⟩,
      List.forall_mem_append.mpr ⟨hfront.hashed, List.forall_mem_singleton.mpr hhashed⟩⟩
    intro q hq r' hr'
    obtain rfl := Option.some.inj hr'
    exact hlink q hq

/-- The last id of consecutive ones is the largest. -/
theorem receiptId_le_last {rs : List CanonicalReceipt} (h : rs.IsChain Follows)
    {q : CanonicalReceipt} (hq : rs.getLast? = some q) :
    ∀ x ∈ rs, x.receiptId.toNat ≤ q.receiptId.toNat := by
  obtain ⟨front, rfl⟩ := List.getLast?_eq_some_iff.mp hq
  have hlt : (front ++ [q]).IsChain (InvImage (· < ·) fun x => x.receiptId.toNat) :=
    h.imp fun a b hfollows => by
      show a.receiptId.toNat < b.receiptId.toNat
      rw [hfollows]
      exact Nat.lt_succ_self _
  obtain ⟨-, -, hlast⟩ := List.pairwise_append.mp hlt.pairwise
  intro x hx
  rcases List.mem_append.mp hx with hfront | hself
  · exact Nat.le_of_lt (hlast x hfront q List.mem_cons_self)
  · rw [List.mem_singleton.mp hself]

/-- The largest id is an `i64`. -/
theorem maxReceiptId_inI {prev : Int} (h : t.maxReceiptId = some prev) : InI 64 prev := by
  obtain ⟨row, -, rfl⟩ := List.mem_map.mp (List.max?_eq_some_iff.mp h).1
  exact row.receiptId_inI

/-- An `i64` read `as u64`. -/
theorem unsigned_eq {x : Int} (h : InI 64 x) :
    (Bytes.unsigned 64 x : Int) = if x < 0 then x + 2 ^ 64 else x := by
  obtain ⟨hlo, hhi⟩ := h
  simp only [minI, maxI] at hlo hhi
  unfold Bytes.unsigned
  split <;> omega

/-- A store that agrees knows the last id, as its largest. -/
theorem SinkAgrees.last_of_max {rs : List CanonicalReceipt} (h : SinkAgrees keyed t rs) {prev : Int}
    (hmax : t.maxReceiptId = some prev) :
    ∃ q, rs.getLast? = some q ∧ q.receiptId.toNat = Bytes.unsigned 64 prev := by
  have hlast := h.last
  rw [CanonicalReceipts.lastReceiptId, hmax] at hlast
  obtain ⟨q, hq, hid⟩ := Option.map_eq_some_iff.mp hlast.symm
  exact ⟨q, hq, hid⟩

/-- Away from the sign, an accepted receipt follows the last one. -/
theorem follows_of_accepts (haccepts : Accepts keyed t r) (hstay : ¬CrossesSign keyed t r)
    {prev : Int} (hmax : t.maxReceiptId = some prev) :
    0 ≤ prev ∧ prev < 2 ^ 63 - 1 ∧ (r.receiptId.toNat : Int) = prev + 1 := by
  have hsucc := haccepts.successor prev hmax
  obtain ⟨-, hhi⟩ := maxReceiptId_inI hmax
  simp only [maxI] at hhi
  have hpos : 0 ≤ prev := by
    by_contra hneg
    exact hstay ⟨prev, hmax, haccepts.hashed, Or.inl ⟨by omega, by omega⟩⟩
  have hroom : prev ≠ 2 ^ 63 - 1 := by
    intro htop
    exact hstay ⟨prev, hmax, haccepts.hashed, Or.inr ⟨htop, by omega⟩⟩
  omega

theorem lastReceiptId_insert (hid : t.maxReceiptId.elim r.row.receiptId (max · r.row.receiptId) =
      Bytes.signed 64 r.receiptId.toNat) :
    (CanonicalReceipts.mk (t.rows ++ [r.row])).lastReceiptId = some r.receiptId.toNat := by
  rw [CanonicalReceipts.lastReceiptId, maxReceiptId_insert, hid, Option.map_some,
    Bytes.unsigned_signed r.receiptId.toNat_lt]

/-- Away from the sign, an accepted receipt keeps the agreement. -/
theorem SinkAgrees.insert {rs : List CanonicalReceipt} (hagrees : SinkAgrees keyed t rs)
    (haccepts : Accepts keyed t r) (hstay : ¬CrossesSign keyed t r) :
    SinkAgrees keyed ⟨t.rows ++ [r.row]⟩ (rs ++ [r]) := by
  have hfront := (verifyReceiptChain_eq_ok_iff rs).mp hagrees.verified
  have hlinks : ∀ q ∈ rs.getLast?, Follows q r := by
    intro q hq
    cases hmax : t.maxReceiptId with
    | none =>
      have hlast := hagrees.last
      rw [CanonicalReceipts.lastReceiptId, hmax, Option.mem_def.mp hq] at hlast
      cases hlast
    | some prev =>
      obtain ⟨q', hq', hid⟩ := hagrees.last_of_max hmax
      obtain rfl := Option.some.inj (hq'.symm.trans hq)
      obtain ⟨hpos, hroom, hnext⟩ := follows_of_accepts haccepts hstay hmax
      have hprev := unsigned_eq (maxReceiptId_inI hmax)
      rw [if_neg (by omega)] at hprev
      show r.receiptId.toNat = q'.receiptId.toNat + 1
      omega
  have hchain : IsReceiptChain keyed (rs ++ [r]) :=
    isReceiptChain_concat.mpr ⟨hfront, haccepts.hashed, hlinks⟩
  refine ⟨hchain.consecutive, (verifyReceiptChain_eq_ok_iff _).mpr hchain, ?_⟩
  rw [List.getLast?_concat, Option.map_some]
  apply lastReceiptId_insert
  cases hmax : t.maxReceiptId with
  | none => rw [Option.elim_none, row_receiptId]
  | some prev =>
    -- the new id is stored above the largest one
    obtain ⟨hpos, hroom, hnext⟩ := follows_of_accepts haccepts hstay hmax
    have hstored : Bytes.signed 64 r.receiptId.toNat = r.receiptId.toNat :=
      Bytes.signed_of_lt (by decide) (by omega)
    rw [Option.elim_some, row_receiptId, hstored]
    omega

/-- From the upper half, the store goes back to one. -/
theorem SinkAgrees.breaks_at_one {rs : List CanonicalReceipt} (hagrees : SinkAgrees keyed t rs)
    {prev : Int} (hmax : t.maxReceiptId = some prev) (hhashed : Hashed keyed r) (hneg : prev < 0)
    (hone : r.receiptId.toNat = 1) :
    Accepts keyed t r ∧ ¬SinkAgrees keyed ⟨t.rows ++ [r.row]⟩ (rs ++ [r]) := by
  obtain ⟨q, hq, hid⟩ := hagrees.last_of_max hmax
  have hprev := unsigned_eq (maxReceiptId_inI hmax)
  rw [if_pos hneg] at hprev
  obtain ⟨hlo, -⟩ := maxReceiptId_inI hmax
  simp only [minI] at hlo
  refine ⟨⟨fun prev' hprev' => ?_, hhashed, fun hmem => ?_⟩, fun hafter => ?_⟩
  · obtain rfl := Option.some.inj (hmax.symm.trans hprev')
    omega
  · have hle := (List.max?_eq_some_iff.mp hmax).2 _ hmem
    have hstored : r.row.receiptId = 1 := by
      rw [row_receiptId, hone]
      decide +kernel
    omega
  · obtain ⟨-, -, hlink⟩ := List.isChain_append.mp hafter.consecutive
    have hfollows : r.receiptId.toNat = q.receiptId.toNat + 1 := hlink q hq r rfl
    omega

/-- From the lower half, the store goes on into the upper and does not find the id again. -/
theorem SinkAgrees.breaks_at_half {rs : List CanonicalReceipt} (hagrees : SinkAgrees keyed t rs)
    (hrows : t.rows = rs.map CanonicalReceipt.row) (hmax : t.maxReceiptId = some (2 ^ 63 - 1))
    (hhashed : Hashed keyed r) (hhalf : r.receiptId.toNat = 2 ^ 63) :
    Accepts keyed t r ∧ ¬SinkAgrees keyed ⟨t.rows ++ [r.row]⟩ (rs ++ [r]) := by
  obtain ⟨q, hq, hid⟩ := hagrees.last_of_max hmax
  have hstored : r.row.receiptId = -2 ^ 63 := by
    rw [row_receiptId, hhalf]
    decide +kernel
  have htop := unsigned_eq (maxReceiptId_inI hmax)
  rw [if_neg (by decide)] at htop
  refine ⟨⟨fun prev' hprev' => ?_, hhashed, fun hmem => ?_⟩, fun hafter => ?_⟩
  · have hprev := Option.some.inj (hmax.symm.trans hprev')
    omega
  · -- all ids stored so far are of the lower half
    rw [CanonicalReceipts.ids, hrows, List.map_map] at hmem
    obtain ⟨x, hx, hxid⟩ := List.mem_map.mp hmem
    have hxlast := receiptId_le_last hagrees.consecutive hq x hx
    have hxstored : Bytes.signed 64 x.receiptId.toNat = x.receiptId.toNat :=
      Bytes.signed_of_lt (by decide) (by omega)
    rw [Function.comp_apply, row_receiptId, hxstored, hstored] at hxid
    omega
  · have hlast := hafter.last
    rw [CanonicalReceipts.lastReceiptId, maxReceiptId_insert, hmax, hstored,
      List.getLast?_concat, Option.map_some, Option.map_some, hhalf] at hlast
    have hstuck : max (2 ^ 63 - 1 : Int) (-2 ^ 63) = 2 ^ 63 - 1 := by omega
    have hsame := Option.some.inj hlast
    rw [Option.elim_some, hstuck] at hsame
    omega

/-- Crossing the sign is accepted, and ends the agreement. -/
theorem SinkAgrees.breaks {rs : List CanonicalReceipt} (hagrees : SinkAgrees keyed t rs)
    (hrows : t.rows = rs.map CanonicalReceipt.row) (hcross : CrossesSign keyed t r) :
    Accepts keyed t r ∧ ¬SinkAgrees keyed ⟨t.rows ++ [r.row]⟩ (rs ++ [r]) := by
  obtain ⟨prev, hmax, hhashed, ⟨hneg, hone⟩ | ⟨rfl, hhalf⟩⟩ := hcross
  · exact hagrees.breaks_at_one hmax hhashed hneg hone
  · exact hagrees.breaks_at_half hrows hmax hhashed hhalf

variable (keyed) in
/-- The rows are those of the accepted receipts, and the two agree. -/
structure SinkInv (events : List (CanonicalReceipt × Except ChainError Unit))
    (t : CanonicalReceipts) : Prop where
  rows : t.rows = (acceptedReceipts events).map CanonicalReceipt.row
  agrees : SinkAgrees keyed t (acceptedReceipts events)

theorem acceptedReceipts_ok (events : List (CanonicalReceipt × Except ChainError Unit)) :
    acceptedReceipts (events ++ [(r, .ok ())]) = acceptedReceipts events ++ [r] := by
  rw [acceptedReceipts, List.filterMap_append]
  rfl

theorem acceptedReceipts_error (events : List (CanonicalReceipt × Except ChainError Unit))
    (e : ChainError) : acceptedReceipts (events ++ [(r, .error e)]) = acceptedReceipts events := by
  rw [acceptedReceipts, List.filterMap_append]
  exact List.append_nil _

/-- The rows of a table are those of the accepted receipts, call by call. -/
theorem append_rows (keyed : List UInt8 → Bytes32)
    (events : List (CanonicalReceipt × Except ChainError Unit))
    (t : CanonicalReceipts) (r : CanonicalReceipt)
    (h : t.rows = (acceptedReceipts events).map CanonicalReceipt.row) :
    (t.append keyed r).2.rows =
      (acceptedReceipts (events ++ [(r, (t.append keyed r).1)])).map CanonicalReceipt.row := by
  by_cases haccepts : Accepts keyed t r
  · rw [append_of_accepts haccepts, acceptedReceipts_ok, h, List.map_append, List.map_singleton]
  · obtain ⟨e, he⟩ := append_of_not_accepts haccepts
    rw [he, acceptedReceipts_error]
    exact h

/-- **One `append`** keeps store and verifier in agreement unless it crosses the sign. -/
theorem append_agrees_iff (events : List (CanonicalReceipt × Except ChainError Unit))
    (t : CanonicalReceipts) (r : CanonicalReceipt) (h : SinkInv keyed events t) :
    SinkInv keyed (events ++ [(r, (t.append keyed r).1)]) (t.append keyed r).2 ↔
      ¬CrossesSign keyed t r := by
  have hrows := append_rows keyed events t r h.rows
  by_cases haccepts : Accepts keyed t r
  · rw [append_of_accepts haccepts] at hrows ⊢
    constructor
    · intro hafter hcross
      have hagrees := hafter.agrees
      rw [acceptedReceipts_ok] at hagrees
      exact (h.agrees.breaks h.rows hcross).2 hagrees
    · intro hstay
      refine ⟨hrows, ?_⟩
      rw [acceptedReceipts_ok]
      exact h.agrees.insert haccepts hstay
  · have hstay : ¬CrossesSign keyed t r :=
      fun hcross => haccepts (h.agrees.breaks h.rows hcross).1
    obtain ⟨e, he⟩ := append_of_not_accepts haccepts
    rw [he] at hrows ⊢
    refine iff_of_true ⟨hrows, ?_⟩ hstay
    rw [acceptedReceipts_error]
    exact h.agrees

theorem sinkInv_empty : SinkInv keyed [] ⟨[]⟩ :=
  ⟨rfl, .nil, rfl, rfl⟩

end

/-! ## Store and verifier -/

/-- **Store and verifier agree** in every state of a run from the empty table iff no `append` of
it crosses the sign; and the verifier accepts only consecutive ids, without overflow, iff no chain
goes on past the last id. -/
theorem receipt_sink_and_verifier_agree_iff (keyed : List UInt8 → Bytes32) :
    (∀ calls : List CanonicalReceipt,
      (∀ done, done <+: calls →
        SinkAgrees keyed (Trace.final (CanonicalReceipts.append keyed) ⟨[]⟩ done)
          (acceptedReceipts (Trace.trace (CanonicalReceipts.append keyed) ⟨[]⟩ done))) ↔
      Trace.Along (CanonicalReceipts.append keyed) (fun t r => ¬CrossesSign keyed t r) ⟨[]⟩
        calls) ∧
    ∀ receipts : List CanonicalReceipt,
      ((verifyReceiptChain keyed receipts).ovf = false ∧
        ((verifyReceiptChain keyed receipts).val = .ok () → receipts.IsChain Follows)) ↔
      ¬TopFollowed keyed receipts := by
  constructor
  · intro calls
    rw [← Trace.forall_prefix_iff_along (SinkInv keyed) append_agrees_iff sinkInv_empty]
    refine forall₂_congr fun done _ => ⟨fun hagrees => ⟨?_, hagrees⟩, SinkInv.agrees⟩
    exact Trace.run_induct
      (fun events (t : CanonicalReceipts) =>
        t.rows = (acceptedReceipts events).map CanonicalReceipt.row)
      rfl (append_rows keyed) done
  · intro receipts
    rw [← verifyReceiptChain_ovf_iff, Bool.not_eq_true, and_iff_left_iff_imp]
    intro hovf hok
    have hpure : verifyReceiptChain keyed receipts = pure (.ok ()) :=
      Tracked.ext hok hovf
    exact ((verifyReceiptChain_eq_ok_iff receipts).mp hpure).consecutive

/-- A receipt of the id, with its own hash. -/
def makeReceipt (keyed : List UInt8 → Bytes32) (id : UInt64) : CanonicalReceipt :=
  let r : CanonicalReceipt := {
    receiptId := id
    askId := Vector.replicate 32 1
    settlementHash := Vector.replicate 32 0
    routerId := "did:oct:router"
    routerSig := [0xaa, 0xbb]
    timestampUnix := 1000 }
  { r with settlementHash := receiptIdFor keyed r }

@[simp] theorem makeReceipt_receiptId (keyed : List UInt8 → Bytes32) (id : UInt64) :
    (makeReceipt keyed id).receiptId = id := rfl

theorem makeReceipt_hashed (keyed : List UInt8 → Bytes32) (id : UInt64) :
    Hashed keyed (makeReceipt keyed id) := rfl

/-- The store takes one after `2^63`; and the verifier overflows on the last id, after which a
wrapping build takes zero. -/
theorem receipts_cross_the_sign :
    (∀ keyed, acceptedReceipts (Trace.trace (CanonicalReceipts.append keyed) ⟨[]⟩
        [makeReceipt keyed (2 ^ 63), makeReceipt keyed 1]) =
        [makeReceipt keyed (2 ^ 63), makeReceipt keyed 1] ∧
      ¬Follows (makeReceipt keyed (2 ^ 63)) (makeReceipt keyed 1)) ∧
    ∀ keyed, verifyReceiptChain keyed [makeReceipt keyed (2 ^ 64 - 1), makeReceipt keyed 0] =
      ⟨.ok (), true⟩ := by
  refine ⟨fun keyed => ⟨?_, ?_⟩, fun keyed => ?_⟩
  · have hstored : (makeReceipt keyed (2 ^ 63)).row.receiptId = -2 ^ 63 := by
      rw [row_receiptId, makeReceipt_receiptId]
      decide +kernel
    have hone : (makeReceipt keyed 1).row.receiptId = 1 := by
      rw [row_receiptId, makeReceipt_receiptId]
      decide +kernel
    have hfirst : Accepts keyed ⟨[]⟩ (makeReceipt keyed (2 ^ 63)) :=
      ⟨fun _ h => (nomatch h), makeReceipt_hashed _ _, List.not_mem_nil⟩
    have hnext : Accepts keyed ⟨[] ++ [(makeReceipt keyed (2 ^ 63)).row]⟩ (makeReceipt keyed 1) := by
      refine ⟨fun prev hprev => ?_, makeReceipt_hashed _ _, ?_⟩
      · have hmax : -2 ^ 63 = prev := hstored.symm.trans (Option.some.inj hprev)
        rw [← hmax]
        rfl
      · rw [CanonicalReceipts.ids, List.nil_append, List.map_singleton, hstored, hone]
        decide
    rw [Trace.trace, append_of_accepts hfirst, Trace.trace, append_of_accepts hnext, Trace.trace]
    simp only [acceptedReceipts, List.filterMap_cons, List.filterMap_nil]
  · show ¬(1 : UInt64).toNat = (2 ^ 63 : UInt64).toNat + 1
    decide +kernel
  · have htop := makeReceipt_hashed keyed (2 ^ 64 - 1)
    have hzero := makeReceipt_hashed keyed 0
    unfold Hashed at htop hzero
    have hwrap : addU 64 (2 ^ 64 - 1 : UInt64).toNat 1 = ⟨(0 : UInt64).toNat, true⟩ := by
      decide +kernel
    rw [verifyReceiptChain, verifyReceiptChainFrom, if_neg (not_not.mpr htop),
      verifyReceiptChainFrom, if_neg (not_not.mpr hzero), makeReceipt_receiptId,
      makeReceipt_receiptId, hwrap, Tracked.mk_bind, if_neg (not_not.mpr rfl),
      verifyReceiptChainFrom]
    rfl

end CipherOcto.Settlement
