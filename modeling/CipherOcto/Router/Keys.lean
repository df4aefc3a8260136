import CipherOcto.Encoding.Codec
import CipherOcto.Lib.Hex

/-!
# Keys and spend events

What the storage of the router and its audit share: the errors, the record of a spend,
and the id that two routers compute for one request.

The id is the hash of the texts of a request, one behind the other, and fields of fixed
width. So the fields are determined by what is hashed and the texts are not, only what they
make together (`eventIdInput_eq_iff`).
-/

namespace CipherOcto.Router

open Encoding

/-! ## The code -/

/-- `SpendEventError`. -/
inductive SpendEventError where
  | costOverflow (cost : Nat) (max : Int)
  deriving DecidableEq, Repr

/-- The variants of `KeyError` that are returned here. -/
inductive KeyError where
  | notFound
  | budgetExceeded (current limit : Nat)
  | teamBudgetExceeded (current limit : Nat)
  | rateLimited (retryAfter : Nat)
  | storage (message : String)
  | invalidFormat
  | spendEvent (e : SpendEventError)
  deriving DecidableEq, Repr

abbrev Uuid := Vector UInt8 16

/-- `Uuid::to_string`: hyphenated, in lower case. -/
def Uuid.toString (id : Uuid) : String :=
  let bytes := id.toList
  String.ofList (Hex.encode (bytes.take 4) ++ '-' :: (Hex.encode ((bytes.drop 4).take 2) ++
    '-' :: (Hex.encode ((bytes.drop 6).take 2) ++ '-' :: (Hex.encode ((bytes.drop 8).take 2) ++
      '-' :: Hex.encode (bytes.drop 10)))))

/-- `TokenSource`. -/
inductive TokenSource where
  | providerUsage
  | canonicalTokenizer
  deriving DecidableEq, Repr

/-- `to_hash_str`. -/
def TokenSource.toHashStr : TokenSource → String
  | .providerUsage => "provider"
  | .canonicalTokenizer => "tokenizer"

/-- `to_db_str`. -/
def TokenSource.toDbStr : TokenSource → String
  | .providerUsage => "provider_usage"
  | .canonicalTokenizer => "canonical_tokenizer"

/-- What a request is identified by. -/
structure SpendRequest where
  requestId : String
  keyId : Uuid
  provider : String
  model : String
  inputTokens : UInt32
  outputTokens : UInt32
  pricingHash : Bytes32
  tokenSource : TokenSource

/-- `SpendEvent`. -/
structure SpendEvent extends SpendRequest where
  eventId : String
  teamId : Option Uuid
  costAmount : UInt64
  tokenizerVersion : Option String
  providerUsageJson : Option String
  timestamp : Int64

/-- The texts of a request, one behind the other. -/
def SpendRequest.text (r : SpendRequest) : List UInt8 :=
  asBytes r.requestId ++ asBytes r.keyId.toString ++ asBytes r.provider ++ asBytes r.model

/-- What `compute_event_id` feeds the hasher. -/
def SpendRequest.eventIdInput (r : SpendRequest) : List UInt8 :=
  r.text ++ Bytes.toLe 4 r.inputTokens.toNat ++ Bytes.toLe 4 r.outputTokens.toNat ++
    r.pricingHash.toList ++ asBytes r.tokenSource.toHashStr

/-- `compute_event_id`. -/
def computeEventId (sha256 : List UInt8 → Bytes32) (r : SpendRequest) : String :=
  String.ofList (Hex.encode (sha256 r.eventIdInput).toList)

/-- `validate_request_id`. -/
def validateRequestId (requestId : String) : Except KeyError Unit :=
  if 1 ≤ (asBytes requestId).length ∧ (asBytes requestId).length ≤ 1024 then .ok ()
  else .error .invalidFormat

/-- `encode_request_id`. -/
def encodeRequestId (sha256 : List UInt8 → Bytes32) (requestId : String) : Bytes32 :=
  sha256 (asBytes requestId)

/-- `hex_to_blob_32`; `none` is a panic. -/
def hexToBlob32 (hex : String) : Option Bytes32 := do
  let bytes ← Hex.decode hex.toList
  if h : bytes.length = 32 then some ⟨bytes.toArray, h⟩ else none

/-- A value of an `i64` column that is not negative. -/
abbrev Amount := { n : Nat // n < 2 ^ 63 }

/-- `cost_u64_to_i64`. -/
def costU64ToI64 (cost : UInt64) : Except SpendEventError Amount :=
  if h : cost.toNat < 2 ^ 63 then .ok ⟨cost.toNat, h⟩
  else .error (.costOverflow cost.toNat (2 ^ 63 - 1))

/-! ## Ids -/

theorem hexToBlob32_encode (digest : Bytes32) :
    hexToBlob32 (String.ofList (Hex.encode digest.toList)) = some digest := by
  rw [hexToBlob32, String.toList_ofList, Hex.decode_encode, Option.bind_eq_bind, Option.bind_some,
    dif_pos Vector.length_toList]
  rfl

theorem computeEventId_eq_iff {sha256 : List UInt8 → Bytes32} {a b : SpendRequest} :
    computeEventId sha256 a = computeEventId sha256 b ↔
      sha256 a.eventIdInput = sha256 b.eventIdInput := by
  refine ⟨fun h => ?_, fun h => ?_⟩
  · exact Vector.toList_inj.mp (Hex.encode_injective (String.ofList_injective h))
  · rw [computeEventId, computeEventId, h]

/-- An id is 36 bytes of text. -/
theorem length_asBytes_toString (id : Uuid) : (asBytes id.toString).length = 36 := by
  have hlen : id.toList.length = 16 := Vector.length_toList
  refine (Hex.length_toUTF8_of_ascii ?_).trans ?_
  · simp only [List.forall_mem_append, List.forall_mem_cons]
    have hhyphen : '-'.toNat < 128 := by decide
    exact ⟨Hex.encode_ascii, hhyphen, Hex.encode_ascii, hhyphen, Hex.encode_ascii, hhyphen,
      Hex.encode_ascii, hhyphen, Hex.encode_ascii⟩
  · simp [hlen]

theorem toString_injective {a b : Uuid} (h : a.toString = b.toString) : a = b := by
  have hcut : ∀ (n : Nat) (bs : List UInt8), bs.take n ++ bs.drop n = bs := List.take_append_drop
  have ha : a.toList.length = 16 := Vector.length_toList
  have hb : b.toList.length = 16 := Vector.length_toList
  have h := String.ofList_injective h
  obtain ⟨h₁, h⟩ := List.append_inj h (by simp [ha, hb])
  obtain ⟨h₂, h⟩ := List.append_inj (List.cons.inj h).2 (by simp [ha, hb])
  obtain ⟨h₃, h⟩ := List.append_inj (List.cons.inj h).2 (by simp [ha, hb])
  obtain ⟨h₄, h⟩ := List.append_inj (List.cons.inj h).2 (by simp [ha, hb])
  have h₅ := Hex.encode_injective (List.cons.inj h).2
  refine Vector.toList_inj.mp ?_
  rw [← hcut 4 a.toList, ← hcut 4 b.toList, Hex.encode_injective h₁, ← hcut 2 (a.toList.drop 4),
    ← hcut 2 (b.toList.drop 4), Hex.encode_injective h₂, List.drop_drop, List.drop_drop,
    ← hcut 2 (a.toList.drop (4 + 2)), ← hcut 2 (b.toList.drop (4 + 2)), Hex.encode_injective h₃,
    List.drop_drop, List.drop_drop, ← hcut 2 (a.toList.drop (4 + 2 + 2)),
    ← hcut 2 (b.toList.drop (4 + 2 + 2)), Hex.encode_injective h₄, List.drop_drop, List.drop_drop,
    h₅]

theorem toLe_inj {w x y : Nat} (hx : x < 256 ^ w) (hy : y < 256 ^ w)
    (h : Bytes.toLe w x = Bytes.toLe w y) : x = y := by
  have hread := congrArg Bytes.leNat h
  rwa [Bytes.leNat_toLe, Bytes.leNat_toLe, Nat.mod_eq_of_lt hx, Nat.mod_eq_of_lt hy] at hread

/-- The two sources are told apart by their ends. -/
theorem append_toHashStr_inj {xs ys : List UInt8} {s t : TokenSource}
    (h : xs ++ asBytes s.toHashStr = ys ++ asBytes t.toHashStr) : xs = ys ∧ s = t := by
  have htokenizer : asBytes "tokenizer" = [116] ++ asBytes "okenizer" := by decide +kernel
  have hlength : (asBytes "provider").length = (asBytes "okenizer").length := by decide +kernel
  have hdiffer : asBytes "provider" ≠ asBytes "okenizer" := by decide +kernel
  cases s <;> cases t
  · exact ⟨List.append_cancel_right h, rfl⟩
  · rw [TokenSource.toHashStr, TokenSource.toHashStr, htokenizer, ← List.append_assoc] at h
    exact absurd (List.append_inj' h hlength).2 hdiffer
  · rw [TokenSource.toHashStr, TokenSource.toHashStr, htokenizer, ← List.append_assoc] at h
    exact absurd (List.append_inj' h hlength.symm).2.symm hdiffer
  · exact ⟨List.append_cancel_right h, rfl⟩

/-- What is hashed determines the fields and what the texts make together. -/
theorem eventIdInput_eq_iff {a b : SpendRequest} :
    a.eventIdInput = b.eventIdInput ↔ a.text = b.text ∧ a.inputTokens = b.inputTokens ∧
      a.outputTokens = b.outputTokens ∧ a.pricingHash = b.pricingHash ∧
      a.tokenSource = b.tokenSource := by
  constructor
  · intro h
    obtain ⟨h, hsource⟩ := append_toHashStr_inj h
    obtain ⟨h, hpricing⟩ := List.append_inj' h (by simp)
    obtain ⟨h, houtput⟩ := List.append_inj' h (by simp)
    obtain ⟨htext, hinput⟩ := List.append_inj' h (by simp)
    exact ⟨htext, UInt32.toNat_inj.mp (toLe_inj a.inputTokens.toNat_lt b.inputTokens.toNat_lt hinput),
      UInt32.toNat_inj.mp (toLe_inj a.outputTokens.toNat_lt b.outputTokens.toNat_lt houtput),
      Vector.toList_inj.mp hpricing, hsource⟩
  · intro h
    obtain ⟨htext, hinput, houtput, hpricing, hsource⟩ := h
    rw [SpendRequest.eventIdInput, SpendRequest.eventIdInput, htext, hinput, houtput, hpricing,
      hsource]

/-- Texts cut at the same places are determined by what they make together. -/
theorem text_inj {a b : SpendRequest}
    (hrequest : (asBytes a.requestId).length = (asBytes b.requestId).length)
    (hprovider : (asBytes a.provider).length = (asBytes b.provider).length)
    (h : a.text = b.text) :
    a.requestId = b.requestId ∧ a.keyId = b.keyId ∧ a.provider = b.provider ∧ a.model = b.model := by
  unfold SpendRequest.text at h
  rw [List.append_assoc, List.append_assoc, List.append_assoc, List.append_assoc] at h
  obtain ⟨hreq, h⟩ := List.append_inj h hrequest
  obtain ⟨hkey, h⟩ := List.append_inj h (by rw [length_asBytes_toString, length_asBytes_toString])
  obtain ⟨hprov, hmodel⟩ := List.append_inj h hprovider
  exact ⟨Bytes.toUTF8_toList_inj hreq, toString_injective (Bytes.toUTF8_toList_inj hkey),
    Bytes.toUTF8_toList_inj hprov, Bytes.toUTF8_toList_inj hmodel⟩

/-- Texts cut at the same places determine the request. -/
theorem eventIdInput_inj {a b : SpendRequest}
    (hrequest : (asBytes a.requestId).length = (asBytes b.requestId).length)
    (hprovider : (asBytes a.provider).length = (asBytes b.provider).length) :
    a.eventIdInput = b.eventIdInput ↔ a = b := by
  refine ⟨fun h => ?_, congrArg SpendRequest.eventIdInput⟩
  obtain ⟨htext, hinput, houtput, hpricing, hsource⟩ := eventIdInput_eq_iff.mp h
  obtain ⟨hreq, hkey, hprov, hmodel⟩ := text_inj hrequest hprovider htext
  obtain ⟨_, _, _, _, _, _, _, _⟩ := a
  obtain ⟨_, _, _, _, _, _, _, _⟩ := b
  dsimp only at hreq hkey hprov hmodel hinput houtput hpricing hsource
  rw [hreq, hkey, hprov, hmodel, hinput, houtput, hpricing, hsource]

end CipherOcto.Router
