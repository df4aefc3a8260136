import CipherOcto.Encoding.Canonical

/-!
# Decoding what was encoded

The encoder sorts a constraint's lists and keeps five caps; the decoder reads the lists as
they come and refuses caps that are too many or do not ascend strictly. With at most five
caps the encoder cuts nothing, and with distinct ids what it sorted ascends strictly, so the
decoder takes it:

> `decode_of_encode`: what decodes is the constraint with its lists sorted.
-/

namespace CipherOcto.Encoding

/-- The spending caps of a constraint. -/
def Constraint.caps : Constraint → List (Bytes32 × Nat)
  | .perAssetSpendingCap caps => caps
  | _ => []

/-- A constraint with its lists sorted. -/
def Constraint.sorted : Constraint → Constraint
  | .perAssetSpendingCap caps => .perAssetSpendingCap (sortCaps caps)
  | .allowedDestinations dids => .allowedDestinations (sortStrings dids)
  | .deniedDestinations dids => .deniedDestinations (sortStrings dids)
  | .multiSig n signers => .multiSig n (sortStrings signers)
  | c => c

/-- A constraint whose lists are in order. -/
structure Constraint.Sorted (c : Constraint) : Prop where
  caps : c.caps.Pairwise fun x y => x.1.toList ≤ y.1.toList
  strings : c.strings.Pairwise fun s t => asBytes s ≤ asBytes t

theorem Constraint.Sorted.sorted_eq {c : Constraint} (h : c.Sorted) : c.sorted = c := by
  cases c with
  | perAssetSpendingCap caps => exact congrArg _ h.caps.insertionSort_eq
  | allowedDestinations dids => exact congrArg _ h.strings.insertionSort_eq
  | deniedDestinations dids => exact congrArg _ h.strings.insertionSort_eq
  | multiSig n signers => exact congrArg _ h.strings.insertionSort_eq
  | _ => rfl

/-! ## What the decoder asks -/

instance : Std.Total fun x y : Bytes32 × Nat => x.1.toList ≤ y.1.toList :=
  ⟨fun _ _ => le_total _ _⟩

instance : IsTrans (Bytes32 × Nat) fun x y => x.1.toList ≤ y.1.toList := ⟨fun _ _ _ => le_trans⟩

theorem capsSorted_of_pairwise {caps : List (Bytes32 × Nat)}
    (h : caps.Pairwise fun x y => x.1.toList < y.1.toList) : capsSorted caps = true := by
  induction caps with
  | nil => rfl
  | cons c cs ih =>
    cases cs with
    | nil => rfl
    | cons d ds =>
      obtain ⟨hhead, htail⟩ := List.pairwise_cons.mp h
      have hnext := ih htail
      unfold capsSorted at hnext ⊢
      rw [List.tail_cons, List.zip_cons_cons, List.all_cons, Bool.and_eq_true]
      exact ⟨decide_eq_true (hhead d List.mem_cons_self), hnext⟩

/-- Sorted caps of distinct ids ascend strictly. -/
theorem sortCaps_ascend {caps : List (Bytes32 × Nat)} (h : (caps.map Prod.fst).Nodup) :
    (sortCaps caps).Pairwise fun x y => x.1.toList < y.1.toList := by
  have hle : (sortCaps caps).Pairwise fun x y => x.1.toList ≤ y.1.toList :=
    List.pairwise_insertionSort _ _
  have hne : (sortCaps caps).Pairwise fun x y => x.1 ≠ y.1 := by
    have hperm := (sortCaps_perm caps).map Prod.fst
    exact List.pairwise_map.mp (hperm.nodup_iff.mpr h)
  refine (hle.and hne).imp fun hboth => ?_
  exact lt_of_le_of_ne hboth.1 fun heq => hboth.2 (Vector.toList_inj.mp heq)

theorem canonical_eq_sorted {c : Constraint} (h : c.caps.length ≤ 5) : c.canonical = c.sorted := by
  cases c with
  | perAssetSpendingCap caps =>
    have hlength : (sortCaps caps).length ≤ 5 := by
      rw [(sortCaps_perm caps).length_eq]
      exact h
    exact congrArg _ (List.take_of_length_le hlength)
  | _ => rfl

theorem canonical_checked {c : Constraint} (h : (c.caps.map Prod.fst).Nodup) :
    c.canonical.Checked := by
  obtain ⟨caps, rfl⟩ | ⟨_, rfl⟩ | ⟨_, rfl⟩ | ⟨_, _, rfl⟩ | hplain := listed_or_plain c
  · exact ⟨List.length_take_le 5 _,
      capsSorted_of_pairwise ((sortCaps_ascend h).sublist (List.take_sublist 5 _))⟩
  · trivial
  · trivial
  · trivial
  · rw [hplain.1]
    cases c with
    | perAssetSpendingCap caps => exact absurd hplain.2.2.2.2 (by simp [Constraint.discriminator])
    | _ => trivial

/-! ## The round trip -/

/-- A frame decodes to what its body reads as. -/
theorem decode_frame {disc : UInt8} {body rest : List UInt8} {c : Constraint}
    (hlen : body.length < 2 ^ 32) (hread : readBody disc body = .ok (c, rest)) :
    decode (frame disc body) = some (.ok c) := by
  obtain ⟨hkind, hdeclared, hpayload, hlength⟩ := frame_append disc body [] hlen
  rw [List.append_nil] at hkind hdeclared hpayload hlength
  rw [List.length_nil] at hlength
  have hlong : ((frame disc body).drop 7).length = body.length := by
    rw [List.length_drop, hlength]
    omega
  have hnamespace : ¬(frame disc body).getD 0 0 ≠ namespaceTag := not_not.mpr rfl
  have hversion : ¬(frame disc body).getD 1 0 ≠ versionTag := not_not.mpr rfl
  unfold payload at hpayload
  unfold kind at hkind
  unfold decode
  rw [if_neg (by omega), if_neg hnamespace, if_neg hversion, if_neg (by omega)]
  dsimp only
  rw [hdeclared, if_neg (by omega), ← hdeclared, hpayload, hkind, hread]
  rfl

/-- **Decoding after encoding** sorts the lists of a constraint, and so is the identity
where they are sorted. -/
theorem decode_of_encode {c : Constraint} (hfits : c.Fits) (hfew : c.caps.length ≤ 5)
    (hids : (c.caps.map Prod.fst).Nodup) {b : List UInt8} (h : encode c = some (.ok b)) :
    decode b = some (.ok c.sorted) ∧ (c.Sorted → decode b = some (.ok c)) := by
  obtain ⟨hsized, hsmall, rfl⟩ := encode_eq_ok.mp h
  have hread := readBody_wire (canonical_fits hfits) hsized (canonical_checked hids) []
  rw [List.append_nil, canonical_discriminator] at hread
  have hdecode := decode_frame (by omega) hread
  rw [hdecode, canonical_eq_sorted hfew]
  exact ⟨rfl, fun hsorted => by rw [hsorted.sorted_eq]⟩

/-- Two caps, in descending order. -/
def descendingCaps : Constraint :=
  .perAssetSpendingCap [(Vector.replicate 32 2, 9), (Vector.replicate 32 1, 7)]

/-- They come back in ascending order. -/
theorem decode_of_encode_descending :
    ∃ b, encode descendingCaps = some (.ok b) ∧
      decode b = some (.ok (.perAssetSpendingCap
        [(Vector.replicate 32 1, 7), (Vector.replicate 32 2, 9)])) := by
  obtain ⟨b, hb⟩ := encode_caps [(Vector.replicate 32 2, 9), (Vector.replicate 32 1, 7)]
  have hfits : descendingCaps.Fits := by
    intro cap hcap
    have hall : ∀ d ∈ descendingCaps.caps, d.2 < 2 ^ 128 := by decide
    exact hall cap hcap
  exact ⟨b, hb, (decode_of_encode hfits (by decide) (by decide) hb).1⟩

end CipherOcto.Encoding
