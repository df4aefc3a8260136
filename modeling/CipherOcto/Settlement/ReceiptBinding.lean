import CipherOcto.Lib.Layout
import CipherOcto.Settlement.ReceiptChain

/-!
# What a receipt's hash binds

The hash of a receipt is over the router's id and the router's signature, one behind the
other and without a length. The preimage of that signature has the length of the id in front
of it.

> `receipt_binds_iff`: two receipts of one hash are alike, unless they cut one string at two
> places into an id and a signature; two of one preimage are alike as far as it goes.
-/

namespace CipherOcto.Settlement

open Encoding

def routerSigDomainSeparator : List UInt8 := asBytes "cipherocto/settlement/router-sig/v1"

/-- `router_signature_preimage`: the length is cut to a `u32`. -/
def routerSignaturePreimage (r : CanonicalReceipt) : List UInt8 :=
  routerSigDomainSeparator ++ Bytes.toBe 8 r.receiptId.toNat ++ r.askId.toList ++
    Bytes.toBe 4 ((asBytes r.routerId).length % 2 ^ 32) ++ asBytes r.routerId ++
    Bytes.toBe 8 r.timestampUnix.toNat

/-- Everything that is hashed is the same. -/
structure SameContent (a b : CanonicalReceipt) : Prop where
  receiptId : a.receiptId = b.receiptId
  askId : a.askId = b.askId
  routerId : a.routerId = b.routerId
  routerSig : a.routerSig = b.routerSig
  timestampUnix : a.timestampUnix = b.timestampUnix

/-- The hash binds what it is over, and the preimage of the signature what that is over. -/
structure ReceiptBinds (keyed : List UInt8 → Bytes32) (a b : CanonicalReceipt) : Prop where
  hash : receiptIdFor keyed a = receiptIdFor keyed b → SameContent a b
  signature : (asBytes a.routerId).length < 2 ^ 32 → (asBytes b.routerId).length < 2 ^ 32 →
    routerSignaturePreimage a = routerSignaturePreimage b →
    a.receiptId = b.receiptId ∧ a.askId = b.askId ∧ a.routerId = b.routerId ∧
      a.timestampUnix = b.timestampUnix

/-- One id, ask and time, and one string that is cut into the router's id and its signature at
two places. -/
structure Recut (a b : CanonicalReceipt) : Prop where
  receiptId : a.receiptId = b.receiptId
  askId : a.askId = b.askId
  timestampUnix : a.timestampUnix = b.timestampUnix
  joined : asBytes a.routerId ++ a.routerSig = asBytes b.routerId ++ b.routerSig
  cut : (asBytes a.routerId).length ≠ (asBytes b.routerId).length

section

variable {a b : CanonicalReceipt}

/-- The strings of two receipts are the same where the joined parts are. -/
theorem receiptIdInput_eq_iff :
    receiptIdInput a = receiptIdInput b ↔
      a.receiptId = b.receiptId ∧ a.askId = b.askId ∧
      asBytes a.routerId ++ a.routerSig = asBytes b.routerId ++ b.routerSig ∧
      a.timestampUnix = b.timestampUnix := by
  unfold receiptIdInput
  constructor
  · intro h
    simp only [List.append_assoc] at h
    obtain ⟨hid, h⟩ := List.append_inj (List.append_cancel_left h)
      (by simp only [Bytes.length_toBe])
    obtain ⟨hask, h⟩ := Bytes.toList_append_inj h
    rw [← List.append_assoc, ← List.append_assoc] at h
    obtain ⟨hjoined, htime⟩ := List.append_inj' h (by simp only [Bytes.length_toBe])
    exact ⟨Bytes.toBe8_inj hid, hask, hjoined, Bytes.toBe8_inj htime⟩
  · rintro ⟨hid, hask, hjoined, htime⟩
    simp only [List.append_assoc, hid, hask, htime]
    rw [← List.append_assoc (asBytes a.routerId), ← List.append_assoc (asBytes b.routerId), hjoined]

/-- **The preimage of the signature binds**, by the length in front of the router's id. -/
theorem routerSignaturePreimage_inj (ha : (asBytes a.routerId).length < 2 ^ 32)
    (hb : (asBytes b.routerId).length < 2 ^ 32)
    (h : routerSignaturePreimage a = routerSignaturePreimage b) :
    a.receiptId = b.receiptId ∧ a.askId = b.askId ∧ a.routerId = b.routerId ∧
      a.timestampUnix = b.timestampUnix := by
  unfold routerSignaturePreimage at h
  rw [Nat.mod_eq_of_lt ha, Nat.mod_eq_of_lt hb] at h
  simp only [List.append_assoc] at h
  obtain ⟨hid, h⟩ := List.append_inj (List.append_cancel_left h) (by simp only [Bytes.length_toBe])
  obtain ⟨hask, h⟩ := Bytes.toList_append_inj h
  obtain ⟨hrouter, htime⟩ := Bytes.sized_append_inj ha hb h
  exact ⟨Bytes.toBe8_inj hid, hask, Bytes.toUTF8_toList_inj hrouter, Bytes.toBe8_inj htime⟩

end

/-- **A receipt's hash binds what it is over iff the joined parts are cut in one way.** -/
theorem receipt_binds_iff (keyed : List UInt8 → Bytes32) (a b : CanonicalReceipt)
    (hkeyed : Set.InjOn keyed {receiptIdInput a, receiptIdInput b}) :
    ReceiptBinds keyed a b ↔ ¬Recut a b := by
  have hhash : receiptIdFor keyed a = receiptIdFor keyed b ↔ receiptIdInput a = receiptIdInput b :=
    ⟨fun h => hkeyed (Or.inl rfl) (Or.inr rfl) h, fun h => congrArg keyed h⟩
  constructor
  · intro h hrecut
    have hsame := h.hash (hhash.mpr (receiptIdInput_eq_iff.mpr
      ⟨hrecut.receiptId, hrecut.askId, hrecut.joined, hrecut.timestampUnix⟩))
    exact hrecut.cut (by rw [hsame.routerId])
  · intro h
    refine ⟨fun heq => ?_, routerSignaturePreimage_inj⟩
    obtain ⟨hid, hask, hjoined, htime⟩ := receiptIdInput_eq_iff.mp (hhash.mp heq)
    have hcut : (asBytes a.routerId).length = (asBytes b.routerId).length := by
      by_contra hcut
      exact h ⟨hid, hask, htime, hjoined, hcut⟩
    obtain ⟨hrouter, hsig⟩ := List.append_inj hjoined hcut
    exact ⟨hid, hask, Bytes.toUTF8_toList_inj hrouter, hsig, htime⟩

/-- A receipt for one ask, at one time. -/
def receiptOfRouter (receiptId : UInt64) (routerId : String) (routerSig : List UInt8) :
    CanonicalReceipt where
  receiptId := receiptId
  askId := Vector.replicate 32 1
  settlementHash := Vector.replicate 32 0
  routerId := routerId
  routerSig := routerSig
  timestampUnix := 1000

/-- BLAKE3 under the zero key of the first two receipts of router `ab`. -/
def sampleKeyed (m : List UInt8) : Bytes32 :=
  if m = receiptIdInput (receiptOfRouter 1 "ab" []) then
    #v[84, 204, 115, 45, 248, 21, 248, 37, 109, 221, 183, 36, 71, 93, 174, 75,
    101, 10, 59, 234, 62, 224, 31, 78, 236, 57, 106, 63, 45, 240, 67, 121]
  else
    #v[152, 106, 123, 191, 169, 47, 112, 223, 203, 59, 243, 140, 112, 134, 158, 243,
    62, 95, 33, 126, 193, 249, 0, 41, 38, 89, 49, 118, 114, 74, 207, 178]

theorem receipt_binds_iff_two_ids :
    ReceiptBinds sampleKeyed (receiptOfRouter 1 "ab" []) (receiptOfRouter 2 "ab" []) := by
  have hne : sampleKeyed (receiptIdInput (receiptOfRouter 1 "ab" [])) ≠
      sampleKeyed (receiptIdInput (receiptOfRouter 2 "ab" [])) := by decide +kernel
  have hkeyed : Set.InjOn sampleKeyed {receiptIdInput (receiptOfRouter 1 "ab" []),
      receiptIdInput (receiptOfRouter 2 "ab" [])} :=
    Set.injOn_pair.mpr fun heq => absurd heq hne
  refine (receipt_binds_iff sampleKeyed _ _ hkeyed).mpr fun hrecut => ?_
  exact absurd hrecut.receiptId (by decide)

/-- Router `ab` without a signature, and router `a` with the signature `b`. -/
theorem receipts_recut :
    let a := receiptOfRouter 1 "ab" []
    let b := receiptOfRouter 1 "a" [98]
    receiptIdFor sampleKeyed a = receiptIdFor sampleKeyed b ∧ a.routerId ≠ b.routerId ∧
      ¬ReceiptBinds sampleKeyed a b := by
  intro a b
  have hhash : receiptIdFor sampleKeyed a = receiptIdFor sampleKeyed b := by decide +kernel
  have hrouter : a.routerId ≠ b.routerId := by decide
  exact ⟨hhash, hrouter, fun h => hrouter (h.hash hhash).routerId⟩

end CipherOcto.Settlement
