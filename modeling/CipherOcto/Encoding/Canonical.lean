import CipherOcto.Encoding.Codec

/-!
# Canonical encodings

The encoder writes the `canonical` constraint: lists sorted, caps cut to five.
Two constraints have one encoding when they have one canonical constraint, so
they can differ in the caps that were cut off alone (`sameContent_iff`).

The decoder passes over what follows the payload and what follows the fields in
it, takes strings in any order and any byte for a flag, and has no bound on the
length. `Exact` is the bytes that have nothing of that, by their layout alone;
they are the ones the encoder writes (`encode_of_decode_iff`).
-/

namespace CipherOcto.Encoding

/-! ## The canonical constraint -/

/-- What the encoder writes of a constraint. -/
def Constraint.canonical : Constraint → Constraint
  | .perAssetSpendingCap caps => .perAssetSpendingCap ((sortCaps caps).take 5)
  | .allowedDestinations dids => .allowedDestinations (sortStrings dids)
  | .deniedDestinations dids => .deniedDestinations (sortStrings dids)
  | .multiSig n signers => .multiSig n (sortStrings signers)
  | c => c

/-- What it leaves out. -/
def Constraint.surplus : Constraint → List (Bytes32 × Nat)
  | .perAssetSpendingCap caps => (sortCaps caps).drop 5
  | _ => []

/-- Constraints that are equal up to the order of their lists. -/
def Constraint.SameContent : Constraint → Constraint → Prop
  | .perAssetSpendingCap caps, .perAssetSpendingCap caps' => caps.Perm caps'
  | .allowedDestinations dids, .allowedDestinations dids' => dids.Perm dids'
  | .deniedDestinations dids, .deniedDestinations dids' => dids.Perm dids'
  | .multiSig n signers, .multiSig n' signers' => n = n' ∧ signers.Perm signers'
  | c, d => c = d

section Canonical

theorem sortStrings_perm (items : List String) : (sortStrings items).Perm items :=
  List.perm_insertionSort _ _

theorem sortCaps_perm (caps : List (Bytes32 × Nat)) : (sortCaps caps).Perm caps :=
  List.perm_insertionSort _ _

theorem lenAsU32_eq_some {n : Nat} {bs : List UInt8} :
    lenAsU32 n = some bs ↔ IsLen n ∧ bs = Bytes.toBe 4 n := by
  unfold lenAsU32
  split
  next hlen =>
    rw [Option.some.injEq]
    exact ⟨fun h => ⟨hlen, h.symm⟩, fun h => h.2.symm⟩
  next hlen => exact iff_of_false (fun h => nomatch h) fun h => hlen h.1

/-- A length and what follows it. -/
theorem lenAsU32_bind {n : Nat} {rest bs : List UInt8} :
    ((lenAsU32 n).bind fun len => some (len ++ rest)) = some bs ↔
      IsLen n ∧ bs = Bytes.toBe 4 n ++ rest := by
  rw [Option.bind_eq_some_iff]
  constructor
  · intro h
    obtain ⟨len, hlen, heq⟩ := h
    obtain ⟨hn, rfl⟩ := lenAsU32_eq_some.mp hlen
    exact ⟨hn, (Option.some.inj heq).symm⟩
  · intro h
    exact ⟨Bytes.toBe 4 n, lenAsU32_eq_some.mpr ⟨h.1, rfl⟩, congrArg some h.2.symm⟩

theorem encodeString_eq_some {s : String} {bs : List UInt8} :
    encodeString s = some bs ↔ IsLen (asBytes s).length ∧ bs = stringWire s := lenAsU32_bind

theorem mapM_encodeString {ss : List String} {bss : List (List UInt8)} :
    ss.mapM encodeString = some bss ↔
      (∀ s ∈ ss, IsLen (asBytes s).length) ∧ bss = ss.map stringWire := by
  induction ss generalizing bss with
  | nil => simp [eq_comm]
  | cons s ss ih =>
    rw [List.mapM_cons, List.forall_mem_cons, List.map_cons]
    simp only [Option.bind_eq_bind, Option.bind_eq_some_iff, encodeString_eq_some, ih,
      Option.pure_def, Option.some.injEq]
    constructor
    · intro h
      obtain ⟨_, ⟨hs, rfl⟩, _, ⟨hss, rfl⟩, rfl⟩ := h
      exact ⟨⟨hs, hss⟩, rfl⟩
    · intro h
      obtain ⟨⟨hs, hss⟩, rfl⟩ := h
      exact ⟨_, ⟨hs, rfl⟩, _, ⟨hss, rfl⟩, rfl⟩

theorem encodeStringSet_eq_some {ss : List String} {bs : List UInt8} :
    encodeStringSet ss = some bs ↔
      (IsLen (sortStrings ss).length ∧ ∀ s ∈ sortStrings ss, IsLen (asBytes s).length) ∧
        bs = listWire stringWire (sortStrings ss) := by
  unfold encodeStringSet
  simp only [Option.bind_eq_bind, Option.bind_eq_some_iff, lenAsU32_eq_some, mapM_encodeString,
    Option.pure_def, Option.some.injEq]
  constructor
  · intro h
    obtain ⟨_, ⟨hlen, rfl⟩, _, ⟨hss, rfl⟩, rfl⟩ := h
    exact ⟨⟨hlen, hss⟩, rfl⟩
  · intro h
    obtain ⟨⟨hlen, hss⟩, rfl⟩ := h
    exact ⟨_, ⟨hlen, rfl⟩, _, ⟨hss, rfl⟩, rfl⟩

/-- The encoder writes the canonical constraint as it stands. -/
theorem encodeBody_eq_some {c : Constraint} {body : List UInt8} :
    encodeBody c = some body ↔ c.canonical.Sized ∧ body = c.canonical.wire := by
  have hplain : ∀ {bs : List UInt8}, some bs = some body ↔ True ∧ body = bs := by
    intro bs
    rw [Option.some.injEq, eq_comm]
    exact (iff_of_eq (true_and _)).symm
  cases c with
  | perAssetSpendingCap caps => exact lenAsU32_bind
  | allowedDestinations dids => exact encodeStringSet_eq_some
  | deniedDestinations dids => exact encodeStringSet_eq_some
  | intentBound template => exact lenAsU32_bind
  | multiSig n signers =>
    show ((encodeStringSet signers).bind fun set => some (Bytes.toBe 4 n ++ set)) = _ ↔ _
    rw [Option.bind_eq_some_iff]
    constructor
    · intro h
      obtain ⟨set, hset, heq⟩ := h
      obtain ⟨hsized, rfl⟩ := encodeStringSet_eq_some.mp hset
      exact ⟨hsized, (Option.some.inj heq).symm⟩
    · intro h
      exact ⟨_, encodeStringSet_eq_some.mpr ⟨h.1, rfl⟩, congrArg some h.2.symm⟩
  | requireReceiptSignatureBy did => exact encodeString_eq_some
  | callerBound did => exact encodeString_eq_some
  | allowIf predicate budget =>
    show ((lenAsU32 predicate.length).bind fun len =>
      some (Bytes.toBe 4 budget ++ (len ++ predicate))) = _ ↔ _
    rw [Option.bind_eq_some_iff]
    constructor
    · intro h
      obtain ⟨len, hlen, heq⟩ := h
      obtain ⟨hsized, rfl⟩ := lenAsU32_eq_some.mp hlen
      exact ⟨hsized, (Option.some.inj heq).symm⟩
    · intro h
      exact ⟨_, lenAsU32_eq_some.mpr ⟨h.1, rfl⟩, congrArg some h.2.symm⟩
  | coordinatorCanSubmit coordinator => exact encodeString_eq_some
  | _ => exact hplain

/-- A constraint has caps, has a set of strings, or has no list to sort. -/
theorem listed_or_plain (c : Constraint) :
    (∃ caps, c = .perAssetSpendingCap caps) ∨ (∃ dids, c = .allowedDestinations dids) ∨
    (∃ dids, c = .deniedDestinations dids) ∨ (∃ n signers, c = .multiSig n signers) ∨
    (c.canonical = c ∧ c.surplus = [] ∧ c.strings = [] ∧ (∀ d, c.SameContent d ↔ c = d) ∧
      c.discriminator ∉ [0x06, 0x08, 0x09, 0x0B]) := by
  cases c with
  | perAssetSpendingCap caps => exact Or.inl ⟨caps, rfl⟩
  | allowedDestinations dids => exact Or.inr (Or.inl ⟨dids, rfl⟩)
  | deniedDestinations dids => exact Or.inr (Or.inr (Or.inl ⟨dids, rfl⟩))
  | multiSig n signers => exact Or.inr (Or.inr (Or.inr (Or.inl ⟨n, signers, rfl⟩)))
  | _ =>
    refine Or.inr (Or.inr (Or.inr (Or.inr ⟨rfl, rfl, rfl, fun d => Iff.rfl, ?_⟩)))
    simp [Constraint.discriminator]

theorem canonical_discriminator (c : Constraint) : c.canonical.discriminator = c.discriminator := by
  obtain ⟨_, rfl⟩ | ⟨_, rfl⟩ | ⟨_, rfl⟩ | ⟨_, _, rfl⟩ | hplain := listed_or_plain c
  · rfl
  · rfl
  · rfl
  · rfl
  · rw [hplain.1]

theorem canonical_fits {c : Constraint} (h : c.Fits) : c.canonical.Fits := by
  obtain ⟨caps, rfl⟩ | ⟨_, rfl⟩ | ⟨_, rfl⟩ | ⟨_, _, rfl⟩ | hplain := listed_or_plain c
  · intro cap hcap
    exact h cap ((sortCaps_perm caps).subset (List.mem_of_mem_take hcap))
  · trivial
  · trivial
  · exact h
  · rw [hplain.1]
    exact h

theorem perm_of_sortStrings_eq {ss ss' : List String} (h : sortStrings ss = sortStrings ss') :
    ss.Perm ss' :=
  (sortStrings_perm ss).symm.trans (h ▸ sortStrings_perm ss')

/-- Constraints that are written alike differ in what is left out alone. -/
theorem sameContent_iff {a b : Constraint} (h : a.canonical = b.canonical) :
    a.SameContent b ↔ a.surplus.Perm b.surplus := by
  have hdisc : a.discriminator = b.discriminator := by
    rw [← canonical_discriminator a, h, canonical_discriminator]
  obtain ⟨caps, rfl⟩ | ⟨dids, rfl⟩ | ⟨dids, rfl⟩ | ⟨n, signers, rfl⟩ | hplain := listed_or_plain a
  · obtain ⟨caps', rfl⟩ := caps_of_discriminator hdisc.symm
    have htake : (sortCaps caps).take 5 = (sortCaps caps').take 5 :=
      Constraint.perAssetSpendingCap.inj h
    have hcut : ∀ cs : List (Bytes32 × Nat),
        ((sortCaps cs).take 5 ++ (sortCaps cs).drop 5).Perm cs := by
      intro cs
      rw [List.take_append_drop]
      exact sortCaps_perm cs
    show caps.Perm caps' ↔ ((sortCaps caps).drop 5).Perm ((sortCaps caps').drop 5)
    rw [← (hcut caps).congr_left, ← (hcut caps').congr_right, htake]
    exact List.perm_append_left_iff _
  · cases b with
    | allowedDestinations dids' =>
      exact iff_of_true (perm_of_sortStrings_eq (Constraint.allowedDestinations.inj h))
        (List.Perm.refl _)
    | _ => simp [Constraint.discriminator] at hdisc
  · cases b with
    | deniedDestinations dids' =>
      exact iff_of_true (perm_of_sortStrings_eq (Constraint.deniedDestinations.inj h))
        (List.Perm.refl _)
    | _ => simp [Constraint.discriminator] at hdisc
  · cases b with
    | multiSig n' signers' =>
      obtain ⟨hn, hsigners⟩ := Constraint.multiSig.inj h
      exact iff_of_true ⟨hn, perm_of_sortStrings_eq hsigners⟩ (List.Perm.refl _)
    | _ => simp [Constraint.discriminator] at hdisc
  · obtain ⟨hcanon, hsurplus, -, hsame, hkind⟩ := hplain
    rw [hdisc] at hkind
    obtain ⟨_, rfl⟩ | ⟨_, rfl⟩ | ⟨_, rfl⟩ | ⟨_, _, rfl⟩ | hplain' := listed_or_plain b
    · simp [Constraint.discriminator] at hkind
    · simp [Constraint.discriminator] at hkind
    · simp [Constraint.discriminator] at hkind
    · simp [Constraint.discriminator] at hkind
    · have heq : a = b := by
        rw [← hcanon, h, hplain'.1]
      rw [hsame, hsurplus, hplain'.2.1]
      exact iff_of_true heq (List.Perm.refl _)

/-- **Encoding**: the canonical constraint behind its header, where it is small
enough. -/
theorem encode_eq_ok {c : Constraint} {x : List UInt8} :
    encode c = some (.ok x) ↔
      c.canonical.Sized ∧ c.canonical.wire.length ≤ 250 ∧
        x = frame c.discriminator c.canonical.wire := by
  unfold encode
  simp only [Option.bind_eq_bind, Option.bind_eq_some_iff, encodeBody_eq_some]
  constructor
  · intro h
    obtain ⟨body, ⟨hsized, rfl⟩, hrest⟩ := h
    split at hrest
    next => cases hrest
    next hsmall =>
      obtain ⟨_, -, hout⟩ := Option.bind_eq_some_iff.mp hrest
      cases hout
      unfold maxEncodedSize at hsmall
      exact ⟨hsized, by omega, rfl⟩
  · intro h
    obtain ⟨hsized, hsmall, rfl⟩ := h
    refine ⟨_, ⟨hsized, rfl⟩, ?_⟩
    rw [if_neg (by unfold maxEncodedSize; omega),
      lenAsU32_eq_some.mpr ⟨by unfold IsLen; omega, rfl⟩]
    rfl

/-- The header and payload of a frame are determined by it. -/
theorem frame_inj {d d' : UInt8} {body body' : List UInt8} (h : frame d body = frame d' body') :
    d = d' ∧ body = body' := by
  unfold frame at h
  simp only [List.cons.injEq, true_and] at h
  obtain ⟨hdisc, hrest⟩ := h
  exact ⟨hdisc, (List.append_inj hrest (by rw [Bytes.length_toBe, Bytes.length_toBe])).2⟩

/-- Constraints with one encoding have one canonical constraint. -/
theorem canonical_eq_of_encode {a b : Constraint} (ha : a.Fits) (hb : b.Fits) {x : List UInt8}
    (hax : encode a = some (.ok x)) (hbx : encode b = some (.ok x)) :
    a.canonical = b.canonical := by
  obtain ⟨hsized, hsmall, rfl⟩ := encode_eq_ok.mp hax
  obtain ⟨hsized', hsmall', hframe⟩ := encode_eq_ok.mp hbx
  obtain ⟨hdisc, hwire⟩ := frame_inj hframe
  refine wire_inj ⟨canonical_fits ha, hsized⟩ ⟨canonical_fits hb, hsized'⟩ ?_ hwire
  rw [canonical_discriminator, canonical_discriminator, hdisc]

end Canonical

/-! ## What sorting does -/

section Sorting

instance : Std.Total fun s t : String => asBytes s ≤ asBytes t := ⟨fun _ _ => le_total _ _⟩

instance : IsTrans String fun s t => asBytes s ≤ asBytes t := ⟨fun _ _ _ => le_trans⟩

theorem sortStrings_pairwise (items : List String) :
    (sortStrings items).Pairwise fun s t => asBytes s ≤ asBytes t :=
  List.pairwise_insertionSort _ _

theorem pairwise_of_capsSorted {caps : List (Bytes32 × Nat)} (h : capsSorted caps = true) :
    caps.Pairwise fun c d => c.1.toList < d.1.toList := by
  have hchain : caps.IsChain fun c d => c.1.toList < d.1.toList := by
    induction caps with
    | nil => exact List.IsChain.nil
    | cons c cs ih =>
      cases cs with
      | nil => exact List.IsChain.singleton c
      | cons d ds =>
        unfold capsSorted at h
        rw [List.tail_cons, List.zip_cons_cons, List.all_cons, Bool.and_eq_true] at h
        exact List.isChain_cons_cons.mpr ⟨of_decide_eq_true h.1, ih h.2⟩
  have : IsTrans (Bytes32 × Nat) fun c d => c.1.toList < d.1.toList := ⟨fun _ _ _ => lt_trans⟩
  exact List.isChain_iff_pairwise.mp hchain

/-- A constraint the decoder can have read is canonical if its strings are sorted. -/
theorem canonical_eq_self {c : Constraint} (hchecked : c.Checked)
    (hsorted : c.strings.Pairwise fun s t => asBytes s ≤ asBytes t) : c.canonical = c := by
  obtain ⟨caps, rfl⟩ | ⟨dids, rfl⟩ | ⟨dids, rfl⟩ | ⟨n, signers, rfl⟩ | hplain := listed_or_plain c
  · have hsort : sortCaps caps = caps :=
      ((pairwise_of_capsSorted hchecked.2).imp fun h => h.le).insertionSort_eq
    show Constraint.perAssetSpendingCap ((sortCaps caps).take 5) = _
    rw [hsort, List.take_of_length_le hchecked.1]
  · exact congrArg _ hsorted.insertionSort_eq
  · exact congrArg _ hsorted.insertionSort_eq
  · exact congrArg _ hsorted.insertionSort_eq
  · exact hplain.1

theorem canonical_strings_pairwise (c : Constraint) :
    c.canonical.strings.Pairwise fun s t => asBytes s ≤ asBytes t := by
  obtain ⟨caps, rfl⟩ | ⟨dids, rfl⟩ | ⟨dids, rfl⟩ | ⟨n, signers, rfl⟩ | hplain := listed_or_plain c
  · exact List.Pairwise.nil
  · exact sortStrings_pairwise dids
  · exact sortStrings_pairwise dids
  · exact sortStrings_pairwise signers
  · rw [hplain.1, hplain.2.2.1]
    exact List.Pairwise.nil

theorem length_listWire_sort (ss : List String) :
    (listWire stringWire (sortStrings ss)).length = (listWire stringWire ss).length := by
  have hperm := sortStrings_perm ss
  unfold listWire
  rw [List.length_append, List.length_append, hperm.length_eq, (hperm.flatMap_right _).length_eq]

/-- Sorting does not change how much is written. -/
theorem length_wire_canonical {c : Constraint} (hchecked : c.Checked) :
    c.canonical.wire.length = c.wire.length := by
  obtain ⟨caps, rfl⟩ | ⟨dids, rfl⟩ | ⟨dids, rfl⟩ | ⟨n, signers, rfl⟩ | hplain := listed_or_plain c
  · rw [canonical_eq_self hchecked List.Pairwise.nil]
  · exact length_listWire_sort dids
  · exact length_listWire_sort dids
  · show (Bytes.toBe 4 n ++ _).length = (Bytes.toBe 4 n ++ _).length
    rw [List.length_append, List.length_append, length_listWire_sort]
  · rw [hplain.1]

/-! ### A cap that is always last -/

/-- The largest asset id. -/
def lastId : Bytes32 := Vector.replicate 32 255

theorem le_replicate_max (l : List UInt8) : l ≤ List.replicate l.length 255 := by
  induction l with
  | nil => exact le_rfl
  | cons b l ih =>
    rw [List.length_cons, List.replicate_succ]
    have hmax : b ≤ 255 := UInt8.le_iff_toNat_le.mpr (Nat.le_of_lt_succ b.toNat_lt)
    rcases lt_or_eq_of_le hmax with hlt | heq
    · exact le_of_lt (List.Lex.rel hlt)
    · rw [heq]
      exact List.cons_le_cons 255 ih

theorem le_lastId (id : Bytes32) : id.toList ≤ lastId.toList := by
  have hle := le_replicate_max id.toList
  rw [Vector.length_toList] at hle
  exact hle

theorem sortCaps_append_last (caps : List (Bytes32 × Nat)) (amount : Nat) :
    sortCaps (caps ++ [(lastId, amount)]) = sortCaps caps ++ [(lastId, amount)] := by
  have hinsert : ∀ (c : Bytes32 × Nat) (cs : List (Bytes32 × Nat)),
      (cs ++ [(lastId, amount)]).orderedInsert (fun c d => c.1.toList ≤ d.1.toList) c
        = cs.orderedInsert (fun c d => c.1.toList ≤ d.1.toList) c ++ [(lastId, amount)] := by
    intro c cs
    induction cs with
    | nil =>
      rw [List.nil_append, List.orderedInsert_cons, if_pos (le_lastId c.1)]
      rfl
    | cons d ds ih =>
      rw [List.cons_append, List.orderedInsert_cons, List.orderedInsert_cons]
      split
      next => rfl
      next => rw [ih, List.cons_append]
  induction caps with
  | nil => rfl
  | cons c cs ih =>
    unfold sortCaps at ih ⊢
    rw [List.cons_append, List.insertionSort_cons, ih, hinsert, List.insertionSort_cons]

end Sorting

/-! ## Encodings of more than one constraint -/

/-- The number of caps of a constraint. -/
def Constraint.capCount : Constraint → Nat
  | .perAssetSpendingCap caps => caps.length
  | _ => 0

section CapCount

theorem capCount_canonical (c : Constraint) : c.canonical.capCount = min 5 c.capCount := by
  cases c with
  | perAssetSpendingCap caps =>
    show ((sortCaps caps).take 5).length = min 5 caps.length
    rw [List.length_take, (sortCaps_perm caps).length_eq]
  | _ => rfl

theorem surplus_eq_nil {c : Constraint} (h : c.capCount ≤ 5) : c.surplus = [] := by
  cases c with
  | perAssetSpendingCap caps =>
    refine List.drop_eq_nil_of_le ?_
    rw [(sortCaps_perm caps).length_eq]
    exact h
  | _ => rfl

theorem length_capsWire (caps : List (Bytes32 × Nat)) :
    (listWire capBytes caps).length = 4 + 48 * caps.length := by
  unfold listWire
  rw [List.length_append, Bytes.length_toBe]
  induction caps with
  | nil => rfl
  | cons cap caps ih =>
    have hcap : (capBytes cap).length = 48 := by
      rw [capBytes, List.length_append, Vector.length_toList, Bytes.length_toBe]
    rw [List.flatMap_cons, List.length_append, List.length_cons, hcap]
    omega

/-- Any number of caps encodes: five of them fit. -/
theorem encode_caps (caps : List (Bytes32 × Nat)) :
    ∃ x, encode (.perAssetSpendingCap caps) = some (.ok x) := by
  have hfive : ((sortCaps caps).take 5).length ≤ 5 := List.length_take_le 5 _
  refine ⟨_, encode_eq_ok.mpr ⟨?_, ?_, rfl⟩⟩
  · show ((sortCaps caps).take 5).length < 2 ^ 32
    omega
  · show (listWire capBytes ((sortCaps caps).take 5)).length ≤ 250
    rw [length_capsWire]
    omega

/-- One more cap, with the largest id. -/
theorem encode_more {caps : List (Bytes32 × Nat)} (h : 5 ≤ caps.length) :
    encode (.perAssetSpendingCap (caps ++ [(lastId, 0)])) = encode (.perAssetSpendingCap caps) := by
  have htake : (sortCaps (caps ++ [(lastId, 0)])).take 5 = (sortCaps caps).take 5 := by
    rw [sortCaps_append_last, List.take_append_of_le_length]
    rw [(sortCaps_perm caps).length_eq]
    exact h
  unfold encode encodeBody
  dsimp only
  rw [htake]
  rfl

/-- A constraint is the only one with its encoding, up to order, exactly when it has
fewer than five caps. -/
theorem unique_iff {a : Constraint} (ha : a.Fits) {x : List UInt8} (hx : encode a = some (.ok x)) :
    (∀ b, b.Fits → encode b = some (.ok x) → a.SameContent b) ↔ a.capCount < 5 := by
  constructor
  · intro hall
    by_contra hmany
    have hfive : 5 ≤ a.capCount := Nat.not_lt.mp hmany
    cases a with
    | perAssetSpendingCap caps =>
      have hfits : (Constraint.perAssetSpendingCap (caps ++ [(lastId, 0)])).Fits := by
        intro cap hcap
        rcases List.mem_append.mp hcap with hold | hnew
        · exact ha cap hold
        · rw [List.mem_singleton.mp hnew]
          exact Nat.two_pow_pos 128
      have hperm : caps.Perm (caps ++ [(lastId, 0)]) :=
        hall _ hfits ((encode_more hfive).trans hx)
      have hlen := hperm.length_eq
      rw [List.length_append, List.length_singleton] at hlen
      omega
    | _ => exact absurd hfive (show ¬5 ≤ 0 by omega)
  · intro hfew b hb hbx
    have hcanon := canonical_eq_of_encode ha hb hx hbx
    have hcount := congrArg Constraint.capCount hcanon
    rw [capCount_canonical, capCount_canonical] at hcount
    rw [sameContent_iff hcanon, surplus_eq_nil (show a.capCount ≤ 5 by omega),
      surplus_eq_nil (show b.capCount ≤ 5 by omega)]

end CapCount

/-! ## Exact encodings -/

/-- The discriminator of an encoding. -/
def kind (x : List UInt8) : UInt8 := x.getD 2 0

/-- The payload of an encoding, of the length its header declares. -/
def payload (x : List UInt8) : List UInt8 := (x.drop 7).take (declared x)

/-- The number in the first four bytes. -/
def size (bs : List UInt8) : Nat := Bytes.beNat (bs.take 4)

/-- So many blocks of bytes, each behind its length. -/
def blocks : Nat → List UInt8 → List (List UInt8)
  | 0, _ => []
  | n + 1, bs => (bs.drop 4).take (size bs) :: blocks n ((bs.drop 4).drop (size bs))

/-- The strings of a string set, as bytes: the set starts a list of destinations, and
stands behind the threshold of a multi-signature. -/
def setBlocks (kind : UInt8) (payload : List UInt8) : List (List UInt8) :=
  match kind with
  | 0x08 => blocks (size payload) (payload.drop 4)
  | 0x09 => blocks (size payload) (payload.drop 4)
  | 0x0B => blocks (size (payload.drop 4)) (payload.drop 8)
  | _ => []

/-- The bytes a string set takes. -/
def setLength (strings : List (List UInt8)) : Nat := 4 + (strings.map fun s => 4 + s.length).sum

/-- The bytes that the fields of a kind take of a payload. -/
def fieldsLength (kind : UInt8) (payload : List UInt8) : Nat :=
  match kind with
  | 0x01 => 16
  | 0x02 => 8
  | 0x03 => 8
  | 0x04 => 24
  | 0x05 => 48
  | 0x06 => 4 + 48 * size payload
  | 0x07 => 56
  | 0x08 => setLength (setBlocks kind payload)
  | 0x09 => setLength (setBlocks kind payload)
  | 0x0A => 4 + size payload
  | 0x0B => 4 + setLength (setBlocks kind payload)
  | 0x0C => 4 + size payload
  | 0x0D => 4 + size payload
  | 0x0E => 4
  | 0x10 => 8 + size (payload.drop 4)
  | 0x11 => 32
  | 0x13 => 32
  | 0x14 => 4 + size payload
  | 0x15 => 24
  | 0x16 => 17
  | 0x17 => 8
  | 0x18 => 1
  | 0x19 => 24
  | _ => 0

/-- Bytes that end with the payload, which is small enough and ends with the fields,
whose flag is a bit and whose strings are in order. -/
structure Exact (x : List UInt8) : Prop where
  whole : x.length = 7 + declared x
  small : declared x ≤ 250
  full : declared x = fieldsLength (kind x) (payload x)
  flag : kind x = 0x18 → (payload x).head? = some 0 ∨ (payload x).head? = some 1
  order : (setBlocks (kind x) (payload x)).Pairwise (· ≤ ·)

section Layout

theorem size_toBe {n : Nat} (h : IsLen n) (bs : List UInt8) : size (Bytes.toBe 4 n ++ bs) = n := by
  unfold size
  rw [List.take_left' (Bytes.length_toBe 4 n), Bytes.beNat_toBe]
  exact Nat.mod_eq_of_lt (by norm_num [IsLen] at h ⊢; exact h)

theorem drop_toBe (w n : Nat) (bs : List UInt8) : (Bytes.toBe w n ++ bs).drop w = bs :=
  List.drop_left' (Bytes.length_toBe w n)

theorem blocks_wire {ss : List String} (h : ∀ s ∈ ss, IsLen (asBytes s).length) (rest : List UInt8) :
    blocks ss.length (ss.flatMap stringWire ++ rest) = ss.map asBytes := by
  induction ss with
  | nil => rfl
  | cons s ss ih =>
    obtain ⟨hs, hss⟩ := List.forall_mem_cons.mp h
    have hbs : (s :: ss).flatMap stringWire ++ rest
        = Bytes.toBe 4 (asBytes s).length ++ (asBytes s ++ (ss.flatMap stringWire ++ rest)) := by
      rw [List.flatMap_cons, stringWire]
      simp only [List.append_assoc]
    rw [hbs, List.length_cons, blocks, size_toBe hs, drop_toBe, List.take_left, List.drop_left,
      ih hss, List.map_cons]

theorem setBlocks_wire {ss : List String}
    (h : IsLen ss.length ∧ ∀ s ∈ ss, IsLen (asBytes s).length) (rest : List UInt8) :
    blocks (size (listWire stringWire ss ++ rest)) ((listWire stringWire ss ++ rest).drop 4)
      = ss.map asBytes := by
  unfold listWire
  rw [List.append_assoc, size_toBe h.1, drop_toBe]
  exact blocks_wire h.2 rest

theorem length_setWire (ss : List String) :
    (listWire stringWire ss).length = setLength (ss.map asBytes) := by
  unfold listWire setLength
  rw [List.length_append, Bytes.length_toBe, List.length_flatMap, List.map_map]
  congr 2
  refine List.map_congr_left fun s _ => ?_
  rw [stringWire, List.length_append, Bytes.length_toBe]
  rfl

theorem setLength_wire {ss : List String}
    (h : IsLen ss.length ∧ ∀ s ∈ ss, IsLen (asBytes s).length) (rest : List UInt8) :
    setLength (blocks (size (listWire stringWire ss ++ rest)) ((listWire stringWire ss ++ rest).drop 4))
      = (listWire stringWire ss).length := by
  rw [setBlocks_wire h, length_setWire]

theorem layout_string {s : String} (h : IsLen (asBytes s).length) (rest : List UInt8) :
    4 + size (stringWire s ++ rest) = (stringWire s).length := by
  unfold stringWire
  rw [List.append_assoc, size_toBe h, List.length_append, Bytes.length_toBe]

/-- The layout of a constraint as it stands, whatever follows it. -/
theorem layout_wire {c : Constraint} (hsized : c.Sized) (rest : List UInt8) :
    fieldsLength c.discriminator (c.wire ++ rest) = c.wire.length ∧
      setBlocks c.discriminator (c.wire ++ rest) = c.strings.map asBytes := by
  cases c with
  | perAssetSpendingCap caps =>
    refine ⟨?_, rfl⟩
    show 4 + 48 * size (listWire capBytes caps ++ rest) = (listWire capBytes caps).length
    rw [length_capsWire, listWire, List.append_assoc, size_toBe hsized]
  | allowedDestinations dids => exact ⟨setLength_wire hsized rest, setBlocks_wire hsized rest⟩
  | deniedDestinations dids => exact ⟨setLength_wire hsized rest, setBlocks_wire hsized rest⟩
  | multiSig n signers =>
    have hblocks : setBlocks 0x0B ((Bytes.toBe 4 n ++ listWire stringWire signers) ++ rest)
        = signers.map asBytes := by
      -- the threshold comes first, and then a set as above
      show blocks (size (List.drop 4 _)) (List.drop (4 + 4) _) = _
      rw [← List.drop_drop, List.append_assoc, drop_toBe]
      exact setBlocks_wire hsized rest
    refine ⟨?_, hblocks⟩
    show 4 + setLength (setBlocks 0x0B ((Bytes.toBe 4 n ++ listWire stringWire signers) ++ rest))
      = (Bytes.toBe 4 n ++ listWire stringWire signers).length
    rw [hblocks, List.length_append, Bytes.length_toBe, length_setWire]
  | intentBound template =>
    refine ⟨?_, rfl⟩
    show 4 + size ((Bytes.toBe 4 template.length ++ template) ++ rest)
      = (Bytes.toBe 4 template.length ++ template).length
    rw [List.append_assoc, size_toBe hsized, List.length_append, Bytes.length_toBe]
  | allowIf predicate budget =>
    refine ⟨?_, rfl⟩
    show 8 + size (((Bytes.toBe 4 budget ++ (Bytes.toBe 4 predicate.length ++ predicate)) ++ rest).drop 4)
      = (Bytes.toBe 4 budget ++ (Bytes.toBe 4 predicate.length ++ predicate)).length
    rw [List.append_assoc, drop_toBe, List.append_assoc, size_toBe hsized, List.length_append,
      List.length_append, Bytes.length_toBe, Bytes.length_toBe]
    omega
  | requireReceiptSignatureBy did => exact ⟨layout_string hsized rest, rfl⟩
  | callerBound did => exact ⟨layout_string hsized rest, rfl⟩
  | coordinatorCanSubmit did => exact ⟨layout_string hsized rest, rfl⟩
  -- every other kind is of a fixed size
  | _ =>
    refine ⟨?_, rfl⟩
    simp only [Constraint.wire, List.length_append, Bytes.length_toBe, Vector.length_toList]
    rfl

/-- Where a payload is read, its layout says how much of it, and which strings. -/
theorem layout_of_readBody {disc : UInt8} {body rest : List UInt8} {c : Constraint}
    (hread : readBody disc body = .ok (c, rest)) :
    body.length = fieldsLength disc body + rest.length ∧
      setBlocks disc body = c.strings.map asBytes := by
  by_cases hdisc : disc = 0x18
  · subst hdisc
    obtain ⟨flag, rfl, rfl⟩ := readBody_flag.mp hread
    exact ⟨Nat.add_comm _ 1, rfl⟩
  · obtain ⟨rfl, -, hsized, -, rfl⟩ := wire_of_readBody hdisc hread
    obtain ⟨hlength, hblocks⟩ := layout_wire hsized rest
    exact ⟨by rw [hlength, List.length_append], hblocks⟩

end Layout

section Decode

theorem frame_append (disc : UInt8) (body tail : List UInt8) (hlen : body.length < 2 ^ 32) :
    kind (frame disc body ++ tail) = disc ∧
      declared (frame disc body ++ tail) = body.length ∧
      payload (frame disc body ++ tail) = body ∧
      (frame disc body ++ tail).length = 7 + body.length + tail.length := by
  have hheader : ((frame disc body ++ tail).drop 3).take 4 = Bytes.toBe 4 body.length := by
    unfold frame
    rw [List.cons_append, List.cons_append, List.cons_append, List.drop_succ_cons,
      List.drop_succ_cons, List.drop_succ_cons, List.drop_zero, List.append_assoc]
    exact List.take_left' (Bytes.length_toBe 4 _)
  have hdeclared : declared (frame disc body ++ tail) = body.length := by
    rw [declared, hheader, Bytes.beNat_toBe, Nat.mod_eq_of_lt (by norm_num at hlen ⊢; exact hlen)]
  have hdrop : (frame disc body ++ tail).drop 7 = body ++ tail := by
    unfold frame
    rw [List.cons_append, List.cons_append, List.cons_append, List.drop_succ_cons,
      List.drop_succ_cons, List.drop_succ_cons, List.append_assoc]
    exact List.drop_left' (Bytes.length_toBe 4 _)
  refine ⟨rfl, hdeclared, ?_, ?_⟩
  · rw [payload, hdeclared, hdrop, List.take_left]
  · unfold frame
    simp only [List.length_append, List.length_cons, Bytes.length_toBe]
    omega

/-- A header that is long enough makes a frame and a tail. -/
theorem eq_frame_append {x : List UInt8} (hlen : 7 ≤ x.length)
    (hnamespace : x.getD 0 0 = namespaceTag) (hversion : x.getD 1 0 = versionTag)
    (hdeclared : declared x ≤ (x.drop 7).length) :
    x = frame (kind x) (payload x) ++ (x.drop 7).drop (declared x) := by
  match x, hlen with
  | a :: b :: d :: l, hlen =>
    rw [List.getD_cons_zero] at hnamespace
    rw [List.getD_cons_succ, List.getD_cons_zero] at hversion
    subst hnamespace hversion
    have hpayload : (payload (namespaceTag :: versionTag :: d :: l)).length
        = declared (namespaceTag :: versionTag :: d :: l) := by
      rw [payload, List.length_take_of_le hdeclared]
    have hheader : Bytes.toBe 4 (declared (namespaceTag :: versionTag :: d :: l)) = l.take 4 := by
      have hfour : (l.take 4).length = 4 := List.length_take_of_le (by
        rw [List.length_cons, List.length_cons, List.length_cons] at hlen
        omega)
      have hback := Bytes.toBe_beNat (l.take 4)
      rw [hfour] at hback
      exact hback
    unfold frame
    rw [hpayload, hheader, List.cons_append, List.cons_append, List.cons_append, List.append_assoc,
      payload, List.take_append_drop]
    show _ = namespaceTag :: versionTag :: d :: (l.take 4 ++ l.drop 4)
    rw [List.take_append_drop]

/-- What decodes is a frame and a tail. -/
theorem frame_of_decode {x : List UInt8} {c : Constraint} (h : decode x = some (.ok c)) :
    ∃ disc body tail rest, x = frame disc body ++ tail ∧ body.length < 2 ^ 32 ∧
      readBody disc body = .ok (c, rest) := by
  unfold decode at h
  split at h
  next => cases h
  next =>
    split at h
    next => cases h
    next hnamespace =>
      split at h
      next => cases h
      next hversion =>
        split at h
        next => cases h
        next hseven =>
          dsimp only at h
          split at h
          next => cases h
          next hlong =>
            rw [not_not] at hnamespace hversion
            have hx := eq_frame_append (Nat.not_lt.mp hseven) hnamespace hversion
              (Nat.not_lt.mp hlong)
            have hbound : (payload x).length < 2 ^ 32 := by
              have hlt := Bytes.beNat_lt ((x.drop 3).take 4)
              have hfour : ((x.drop 3).take 4).length ≤ 4 := List.length_take_le 4 _
              have hle := List.length_take_le (declared x) (x.drop 7)
              have hpow : 256 ^ ((x.drop 3).take 4).length ≤ 256 ^ 4 :=
                Nat.pow_le_pow_right (by omega) hfour
              have hnum : (256 : Nat) ^ 4 = 2 ^ 32 := by norm_num
              unfold payload declared at *
              omega
            cases hread : readBody (kind x) (payload x) with
            | error e =>
              unfold kind payload at hread
              rw [hread] at h
              cases h
            | ok p =>
              have hread' := hread
              unfold kind payload at hread'
              rw [hread'] at h
              cases h
              exact ⟨kind x, payload x, _, p.2, hx, hbound, hread⟩

theorem frame_append_inj {disc disc' : UInt8} {body body' tail : List UInt8}
    (hlen : body.length < 2 ^ 32) (hlen' : body'.length < 2 ^ 32)
    (h : frame disc body ++ tail = frame disc' body') : disc = disc' ∧ body = body' ∧ tail = [] := by
  obtain ⟨hkind, -, hpayload, hlength⟩ := frame_append disc body tail hlen
  obtain ⟨hkind', -, hpayload', hlength'⟩ := frame_append disc' body' [] hlen'
  rw [List.append_nil] at hkind' hpayload' hlength'
  rw [h, hkind'] at hkind
  rw [h, hpayload'] at hpayload
  rw [h, hlength', hpayload, List.length_nil] at hlength
  exact ⟨hkind.symm, hpayload.symm, List.eq_nil_of_length_eq_zero (by omega)⟩

/-- The conditions of `Exact` on a frame and a tail. -/
theorem exact_frame_iff {disc : UInt8} {body tail rest : List UInt8} {c : Constraint}
    (hlen : body.length < 2 ^ 32) (hread : readBody disc body = .ok (c, rest)) :
    Exact (frame disc body ++ tail) ↔
      tail = [] ∧ body.length ≤ 250 ∧ rest = [] ∧
        (disc = 0x18 → body.head? = some 0 ∨ body.head? = some 1) ∧
        c.strings.Pairwise fun s t => asBytes s ≤ asBytes t := by
  obtain ⟨hkind, hdeclared, hpayload, hlength⟩ := frame_append disc body tail hlen
  obtain ⟨hfields, hblocks⟩ := layout_of_readBody hread
  constructor
  · intro h
    obtain ⟨hwhole, hsmall, hfull, hflag, horder⟩ := h
    rw [hlength, hdeclared] at hwhole
    rw [hdeclared] at hsmall
    rw [hdeclared, hkind, hpayload] at hfull
    rw [hkind, hpayload] at hflag
    rw [hkind, hpayload, hblocks] at horder
    exact ⟨List.eq_nil_of_length_eq_zero (by omega), hsmall,
      List.eq_nil_of_length_eq_zero (by omega), hflag, List.pairwise_map.mp horder⟩
  · intro h
    obtain ⟨rfl, hsmall, rfl, hflag, horder⟩ := h
    refine ⟨?_, ?_, ?_, ?_, ?_⟩
    · rw [hlength, hdeclared]
      rfl
    · rw [hdeclared]
      exact hsmall
    · rw [hdeclared, hkind, hpayload]
      exact hfields
    · rw [hkind, hpayload]
      exact hflag
    · rw [hkind, hpayload, hblocks]
      exact List.pairwise_map.mpr horder

/-- What the encoder writes for what was read, where it was no flag. -/
theorem encode_of_wire_iff {disc : UInt8} {body tail rest : List UInt8} {c : Constraint}
    (hdisc : disc ≠ 0x18) (hlen : body.length < 2 ^ 32) (hread : readBody disc body = .ok (c, rest)) :
    encode c = some (.ok (frame disc body ++ tail)) ↔
      tail = [] ∧ body.length ≤ 250 ∧ rest = [] ∧
        c.strings.Pairwise fun s t => asBytes s ≤ asBytes t := by
  obtain ⟨rfl, hfits, hsized, hchecked, rfl⟩ := wire_of_readBody hdisc hread
  rw [encode_eq_ok]
  constructor
  · intro h
    obtain ⟨hsized', hsmall, hframe⟩ := h
    obtain ⟨-, hwire, rfl⟩ := frame_append_inj hlen (by omega) hframe
    -- sorting keeps the length, so there is no rest, and then changes nothing
    have hlength := congrArg List.length hwire
    rw [List.length_append, length_wire_canonical hchecked] at hlength
    have hrest : rest = [] := List.eq_nil_of_length_eq_zero (by omega)
    subst hrest
    rw [List.append_nil] at hwire
    have heq : c = c.canonical :=
      wire_inj ⟨hfits, hsized⟩ ⟨canonical_fits hfits, hsized'⟩ (canonical_discriminator c).symm hwire
    have horder := canonical_strings_pairwise c
    rw [← heq] at horder hsmall
    exact ⟨rfl, by rw [List.append_nil]; exact hsmall, rfl, horder⟩
  · intro h
    obtain ⟨rfl, hsmall, rfl, horder⟩ := h
    rw [List.append_nil] at hsmall ⊢
    rw [canonical_eq_self hchecked horder, List.append_nil]
    exact ⟨hsized, hsmall, rfl⟩

theorem encode_of_flag_iff {flag : UInt8} {tail rest : List UInt8}
    (hlen : (flag :: rest).length < 2 ^ 32) :
    encode (.governanceLock (flag ≠ 0)) = some (.ok (frame 0x18 (flag :: rest) ++ tail)) ↔
      tail = [] ∧ (flag :: rest).length ≤ 250 ∧ rest = [] ∧ (flag = 0 ∨ flag = 1) := by
  have hbit : [if (decide (flag ≠ 0)) = true then (1 : UInt8) else 0] = [flag] ↔ flag = 0 ∨ flag = 1 := by
    by_cases hzero : flag = 0
    · subst hzero
      simp
    · simp [hzero, eq_comm]
  rw [encode_eq_ok]
  constructor
  · intro h
    obtain ⟨-, -, hframe⟩ := h
    have hone : (Constraint.governanceLock (flag ≠ 0)).canonical.wire.length < 2 ^ 32 :=
      show 1 < 2 ^ 32 by omega
    obtain ⟨-, hbody, rfl⟩ := frame_append_inj hlen hone hframe
    have hrest : rest = [] := (List.cons.inj hbody).2
    subst hrest
    exact ⟨rfl, by rw [List.length_singleton]; omega, rfl, hbit.mp hbody.symm⟩
  · intro h
    obtain ⟨rfl, -, rfl, hflag⟩ := h
    refine ⟨trivial, ?_, ?_⟩
    · show 1 ≤ 250
      omega
    · rw [List.append_nil]
      exact congrArg (frame 0x18) (hbit.mpr hflag).symm

/-- **Decoding** is undone by encoding exactly on the exact encodings. -/
theorem encode_of_decode_iff {x : List UInt8} {c : Constraint} (h : decode x = some (.ok c)) :
    encode c = some (.ok x) ↔ Exact x := by
  obtain ⟨disc, body, tail, rest, rfl, hlen, hread⟩ := frame_of_decode h
  rw [exact_frame_iff hlen hread]
  by_cases hdisc : disc = 0x18
  · subst hdisc
    obtain ⟨flag, rfl, rfl⟩ := readBody_flag.mp hread
    rw [encode_of_flag_iff hlen]
    simp [Constraint.strings]
  · rw [encode_of_wire_iff hdisc hlen hread]
    simp only [hdisc, false_implies, true_and]

end Decode

/-! ## Uniqueness and faithfulness -/

/-- **Canonical encodings.** Of constraints with one encoding, or with one hash where
BLAKE3 does not collide on what is hashed for them, the contents are the same
exactly when the caps beyond the first five are; a constraint is the only one
with its encoding exactly when it has fewer than five caps; and what decodes is
the encoding of what it decodes to exactly when it is exact. -/
theorem canonical_encoding_iff (blake3 : List UInt8 → Bytes32) :
    (∀ a b : Constraint, a.Fits → b.Fits → ∀ x, encode a = some (.ok x) → encode b = some (.ok x) →
      (a.SameContent b ↔ a.surplus.Perm b.surplus)) ∧
    (∀ a b : Constraint, a.Fits → b.Fits → ∀ x y, encode a = some (.ok x) → encode b = some (.ok y) →
      (blake3 (constraintHashPrefix :: x) = blake3 (constraintHashPrefix :: y) → x = y) →
      constraintHash blake3 a = constraintHash blake3 b →
      (a.SameContent b ↔ a.surplus.Perm b.surplus)) ∧
    (∀ a : Constraint, a.Fits → ∀ x, encode a = some (.ok x) →
      ((∀ b, b.Fits → encode b = some (.ok x) → a.SameContent b) ↔ a.capCount < 5)) ∧
    ∀ x c, decode x = some (.ok c) → (encode c = some (.ok x) ↔ Exact x) := by
  have hsame : ∀ a b : Constraint, a.Fits → b.Fits → ∀ x, encode a = some (.ok x) →
      encode b = some (.ok x) → (a.SameContent b ↔ a.surplus.Perm b.surplus) := by
    intro a b ha hb x hax hbx
    exact sameContent_iff (canonical_eq_of_encode ha hb hax hbx)
  refine ⟨hsame, ?_, fun a ha x hx => unique_iff ha hx, fun x c => encode_of_decode_iff⟩
  intro a b ha hb x y hax hby hinj hhash
  unfold constraintHash at hhash
  rw [hax, hby] at hhash
  have hxy : x = y := hinj (Option.some.inj (show some _ = some _ from hhash))
  exact hsame a b ha hb x hax (hxy ▸ hby)

/-- `n` caps of one micro-unit each, by ascending ids. -/
def someCaps (n : Nat) : Constraint :=
  .perAssetSpendingCap ((List.range n).map fun i => (Vector.replicate 32 (UInt8.ofNat i), 1))

theorem encoding_not_canonical :
    ((someCaps 6).Fits ∧ (someCaps 5).Fits ∧ encode (someCaps 6) = encode (someCaps 5) ∧
      (∃ x, encode (someCaps 5) = some (.ok x)) ∧ ¬(someCaps 6).SameContent (someCaps 5)) ∧
    decode [0x01, 0xA0, 0x0F, 0, 0, 0, 0, 0] = some (.ok .singleUse) ∧
      encode .singleUse ≠ some (.ok [0x01, 0xA0, 0x0F, 0, 0, 0, 0, 0]) := by
  have hfits : ∀ n, (someCaps n).Fits := by
    intro n cap hcap
    obtain ⟨i, -, rfl⟩ := List.mem_map.mp hcap
    exact Nat.one_lt_two_pow (by omega)
  refine ⟨⟨hfits 6, hfits 5, rfl, encode_caps _, ?_⟩, rfl, ?_⟩
  · intro hperm
    cases hperm.length_eq
  · intro h
    have hx := (encode_eq_ok.mp h).2.2
    revert hx
    decide

end CipherOcto.Encoding
