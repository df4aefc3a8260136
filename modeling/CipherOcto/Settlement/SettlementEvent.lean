import CipherOcto.Cap.Payment
import Mathlib.Data.Set.Function

/-!
# Settlement events

A settlement event charges a cost to a vault. `new` builds one through eight gates
and takes its nonce out of a registry; `validate` checks one that was deserialised
against the same registries. Both verify the governance signature of an asset that
has a governance key over `compute_settlement_body_hash`.

`Admitted` is what the two check alike.

> `validate_eq_ok_iff`: `validate` asks for it, a live epoch and a free nonce.
> `new_eq_ok_iff`: `new` asks for it, the bound on the scale and a free nonce, and
> takes the kind and the epoch from its surroundings.

So an event that validates is one that `new` returns, but for its kind and for the
bound on its scale. BLAKE3, the verification of a signature and the registries are
parameters.
-/

namespace CipherOcto.Settlement

open Encoding Determin

/-! ## The code -/

def settlementBodyHashDomain : List UInt8 := Cap.utf8 "cipherocto/settlement/v1/"

inductive AssetKind where
  | octoW | managedAsset | bridgedExternalAsset | wrappedCrossChainAsset | sovereignRoleToken
deriving DecidableEq

/-- `asset_kind as u8`. -/
def AssetKind.toUInt8 : AssetKind → UInt8
  | .octoW => 0
  | .managedAsset => 1
  | .bridgedExternalAsset => 2
  | .wrappedCrossChainAsset => 3
  | .sovereignRoleToken => 4

inductive SettlementDecision where
  | consumed | alreadyConsumed | insufficientEvidence | budgetExhausted
deriving DecidableEq

/-- The fields of an event that `new` is given. -/
structure SettlementFields where
  settlementId : Bytes32
  askId : Bytes32
  costVaultId : Bytes32
  costAssetId : Bytes32
  cost : Dqa
  evidenceRef : Bytes32
  ledgerHeight : UInt64
  createdAtUnixMs : UInt64
  settlementDecision : SettlementDecision
  governanceSignature : Vector UInt8 64
  nonce : Bytes32
deriving DecidableEq

structure SettlementEvent extends SettlementFields where
  assetKind : AssetKind
  registrySnapshotEpoch : UInt64
deriving DecidableEq

inductive SettlementEventError where
  | assetUnknown
  | scaleMismatch (costScale vaultScale : Nat)
  | scaleOutOfRange (scale : Nat)
  | invalidSignature
  | replay
  | staleSnapshot (snapshot live : UInt64)
  | vaultAssetMismatch (vaultId assetId : Bytes32)
  | vaultUnknown (vaultId : Bytes32)
deriving DecidableEq

/-- `AssetMetadata`, as far as settlements read it. -/
structure SettlementAsset extends Cap.AssetMetadata where
  kind : AssetKind

inductive VaultAssetError where
  | vaultUnknown | vaultAssetMismatch

/-- Event kind, key and nonce. -/
abbrev NonceKey := Cap.NonceEventKind × Bytes32 × Bytes32

inductive NonceError where
  | alreadyObserved (key : NonceKey)
  | notObserved (key : NonceKey)
  | persistenceFailure
  | walRecovering

/-- The trait `NonceRegistry`, for registries of type `σ`. -/
structure NonceRegistry (σ : Type) where
  observe : σ → NonceKey → Except NonceError Unit × σ
  observeReadonly : σ → NonceKey → Except NonceError Unit

/-- `InMemoryNonceRegistry`. -/
def inMemoryNonceRegistry : NonceRegistry Cap.NonceRegistry where
  observe seen key :=
    match seen.observe key with
    | (true, seen) => (.ok (), seen)
    | (false, seen) => (.error (.alreadyObserved key), seen)
  observeReadonly seen key :=
    if key ∈ seen then .error (.alreadyObserved key) else .ok ()

/-- What is hashed for an event. The slot of the governance key holds the first half of the
signature. -/
def settlementBodyHashInput (s : SettlementEvent) : List UInt8 :=
  settlementBodyHashDomain ++ (s.settlementId.toList ++ (s.askId.toList ++
    (s.costVaultId.toList ++ (s.costAssetId.toList ++ ([s.assetKind.toUInt8] ++
      ([UInt8.ofNat s.cost.scale] ++ (Bytes.toLe 8 (Bytes.unsigned 64 s.cost.value) ++
        (Bytes.toLe 8 s.ledgerHeight.toNat ++ (s.evidenceRef.toList ++
          (s.governanceSignature.toList.take 32 ++ s.nonce.toList))))))))))

section

variable (blake3 : List UInt8 → Bytes32)

/-- `compute_settlement_body_hash`. -/
def computeSettlementBodyHash (s : SettlementEvent) : Bytes32 := blake3 (settlementBodyHashInput s)

-- `verify_governance_signature`: signature, hash and key
variable (verify : Vector UInt8 64 → Bytes32 → Bytes32 → Bool)
-- `AssetRegistry::metadata` and `VaultRegistry::contains_asset`
variable (registry : Bytes32 → Option SettlementAsset)
variable (containsAsset : Bytes32 → Bytes32 → Except VaultAssetError Unit)

/-- The signature of an asset with a governance key is verified. -/
def verifySettlementSignature (data : SettlementAsset) (s : SettlementEvent) :
    Except SettlementEventError Unit :=
  match data.governancePubkey with
  | none => .ok ()
  | some pk =>
    if verify s.governanceSignature (computeSettlementBodyHash blake3 s) pk then .ok ()
    else .error .invalidSignature

/-- `contains_asset`, with its errors as an event's. -/
def vaultContains (s : SettlementEvent) : Except SettlementEventError Unit :=
  match containsAsset s.costVaultId s.costAssetId with
  | .ok () => .ok ()
  | .error .vaultUnknown => .error (.vaultUnknown s.costVaultId)
  | .error .vaultAssetMismatch => .error (.vaultAssetMismatch s.costVaultId s.costAssetId)

/-- The triple an event is observed under. -/
def SettlementFields.nonceKey (f : SettlementFields) (data : SettlementAsset) : NonceKey :=
  (.settlement, data.governancePubkey.getD (Cap.sovereignNonceNamespace blake3 f.costAssetId),
    f.nonce)

/-- Gates 0 to 6 of `new`. -/
def SettlementFields.build (f : SettlementFields) (currentEpoch : UInt64) :
    Except SettlementEventError (SettlementAsset × SettlementEvent) :=
  match registry f.costAssetId with
  | none => .error .assetUnknown
  | some data =>
    if f.cost.scale > maxScale then .error (.scaleOutOfRange f.cost.scale)
    else if f.cost.scale ≠ data.wireScale then
      .error (.scaleMismatch f.cost.scale data.wireScale)
    else do
      let settlement : SettlementEvent :=
        { f with assetKind := data.kind, registrySnapshotEpoch := currentEpoch }
      verifySettlementSignature blake3 verify data settlement
      vaultContains containsAsset settlement
      pure (data, settlement)

variable {σ : Type} (nonces : NonceRegistry σ)

/-- `new`. -/
def SettlementFields.new (f : SettlementFields) (seen : σ) (currentEpoch : UInt64) :
    Except SettlementEventError SettlementEvent × σ :=
  match f.build blake3 verify registry containsAsset currentEpoch with
  | .error e => (.error e, seen)
  | .ok (data, settlement) =>
    match nonces.observe seen (f.nonceKey blake3 data) with
    | (.ok (), seen) => (.ok settlement, seen)
    | (.error (.alreadyObserved _), seen) => (.error .replay, seen)
    | (.error _, seen) => (.error .invalidSignature, seen)

/-- `validate`. Neither the kind nor the bound on the scale is looked at. -/
def SettlementEvent.validate (s : SettlementEvent) (seen : σ) (currentEpoch : UInt64) :
    Except SettlementEventError Unit :=
  match registry s.costAssetId with
  | none => .error .assetUnknown
  | some data =>
    if s.cost.scale ≠ data.wireScale then .error (.scaleMismatch s.cost.scale data.wireScale)
    else do
      vaultContains containsAsset s
      verifySettlementSignature blake3 verify data s
      if currentEpoch < s.registrySnapshotEpoch then
        .error (.staleSnapshot s.registrySnapshotEpoch currentEpoch)
      else
        match nonces.observeReadonly seen (s.nonceKey blake3 data) with
        | .ok () => .ok ()
        | .error _ => .error .replay

end

/-! ## What the two check alike -/

section

variable {blake3 : List UInt8 → Bytes32} {verify : Vector UInt8 64 → Bytes32 → Bytes32 → Bool}
variable {registry : Bytes32 → Option SettlementAsset}
variable {containsAsset : Bytes32 → Bytes32 → Except VaultAssetError Unit}

variable (blake3 verify registry containsAsset) in
/-- The event passes the gates `new` and `validate` share, with `data` for its asset. -/
structure Admitted (data : SettlementAsset) (s : SettlementEvent) : Prop where
  registered : registry s.costAssetId = some data
  scale : s.cost.scale = data.wireScale
  signature : verifySettlementSignature blake3 verify data s = .ok ()
  vault : vaultContains containsAsset s = .ok ()

/-- The asset of an admitted event is the registered one. -/
theorem Admitted.eq_of_registered {data other : SettlementAsset} {s : SettlementEvent}
    (h : Admitted blake3 verify registry containsAsset data s)
    (hother : registry s.costAssetId = some other) : data = other :=
  Option.some.inj (h.registered.symm.trans hother)

/-- A check, and what follows it. -/
theorem check_bind_eq_ok {ε α : Type} {check : Except ε Unit} {next : Except ε α} {v : α} :
    (check >>= fun _ => next) = .ok v ↔ check = .ok () ∧ next = .ok v := by
  cases check with
  | error e => exact iff_of_false (fun h => nomatch h) fun h => nomatch h.1
  | ok u => exact ⟨fun h => ⟨rfl, h⟩, fun h => h.2⟩

theorem build_eq_ok_iff {f : SettlementFields} {currentEpoch : UInt64} {data : SettlementAsset}
    {s : SettlementEvent} :
    f.build blake3 verify registry containsAsset currentEpoch = .ok (data, s) ↔
      s = { f with assetKind := data.kind, registrySnapshotEpoch := currentEpoch } ∧
      Admitted blake3 verify registry containsAsset data s ∧ f.cost.scale ≤ maxScale := by
  unfold SettlementFields.build
  constructor
  · intro h
    split at h
    · cases h
    next hregistered =>
      split at h
      · cases h
      next hbound =>
        split at h
        · cases h
        next hscale =>
          obtain ⟨hsignature, h⟩ := check_bind_eq_ok.mp h
          obtain ⟨hvault, h⟩ := check_bind_eq_ok.mp h
          cases h
          exact ⟨rfl, ⟨hregistered, not_not.mp hscale, hsignature, hvault⟩, not_lt.mp hbound⟩
  · intro h
    obtain ⟨rfl, hadmitted, hbound⟩ := h
    have hregistered : registry f.costAssetId = some data := hadmitted.registered
    rw [hregistered]
    dsimp only
    rw [if_neg (not_lt.mpr hbound), if_neg (not_not.mpr hadmitted.scale)]
    exact check_bind_eq_ok.mpr
      ⟨hadmitted.signature, check_bind_eq_ok.mpr ⟨hadmitted.vault, rfl⟩⟩

variable {σ : Type} {nonces : NonceRegistry σ} {seen : σ} {currentEpoch : UInt64}

/-- **What `new` returns**. -/
theorem new_eq_ok_iff {f : SettlementFields} {s : SettlementEvent} :
    (f.new blake3 verify registry containsAsset nonces seen currentEpoch).1 = .ok s ↔
      ∃ data, s = { f with assetKind := data.kind, registrySnapshotEpoch := currentEpoch } ∧
        Admitted blake3 verify registry containsAsset data s ∧ f.cost.scale ≤ maxScale ∧
        (nonces.observe seen (f.nonceKey blake3 data)).1 = .ok () := by
  unfold SettlementFields.new
  constructor
  · intro h
    split at h
    · cases h
    next data settlement hbuild =>
      split at h
      next hobserve =>
        cases h
        obtain ⟨heq, hadmitted, hbound⟩ := build_eq_ok_iff.mp hbuild
        exact ⟨data, heq, hadmitted, hbound, congrArg Prod.fst hobserve⟩
      · cases h
      · cases h
  · intro h
    obtain ⟨data, heq, hadmitted, hbound, hobserve⟩ := h
    rw [build_eq_ok_iff.mpr ⟨heq, hadmitted, hbound⟩]
    dsimp only
    split
    · rfl
    next hother => rw [hother] at hobserve; cases hobserve
    next hother => rw [hother] at hobserve; cases hobserve

/-- **What validates**. -/
theorem validate_eq_ok_iff {s : SettlementEvent} :
    s.validate blake3 verify registry containsAsset nonces seen currentEpoch = .ok () ↔
      ∃ data, Admitted blake3 verify registry containsAsset data s ∧
        s.registrySnapshotEpoch ≤ currentEpoch ∧
        nonces.observeReadonly seen (s.nonceKey blake3 data) = .ok () := by
  unfold SettlementEvent.validate
  constructor
  · intro h
    split at h
    · cases h
    next data hregistered =>
      split at h
      · cases h
      next hscale =>
        obtain ⟨hvault, h⟩ := check_bind_eq_ok.mp h
        obtain ⟨hsignature, h⟩ := check_bind_eq_ok.mp h
        split at h
        · cases h
        next hlive =>
          split at h
          next hfree =>
            exact ⟨data, ⟨hregistered, not_not.mp hscale, hsignature, hvault⟩,
              UInt64.not_lt.mp hlive, hfree⟩
          · cases h
  · intro h
    obtain ⟨data, hadmitted, hlive, hfree⟩ := h
    rw [hadmitted.registered]
    dsimp only
    rw [if_neg (not_not.mpr hadmitted.scale), if_neg (UInt64.not_lt.mpr hlive), hfree]
    exact check_bind_eq_ok.mpr ⟨hadmitted.vault, check_bind_eq_ok.mpr ⟨hadmitted.signature, rfl⟩⟩

end

/-! ## The signed message -/

/-- The fields of the signed message, its signature slot apart. -/
structure SameBody (a b : SettlementEvent) : Prop where
  settlementId : a.settlementId = b.settlementId
  askId : a.askId = b.askId
  costVaultId : a.costVaultId = b.costVaultId
  costAssetId : a.costAssetId = b.costAssetId
  assetKind : a.assetKind = b.assetKind
  cost : a.cost = b.cost
  evidenceRef : a.evidenceRef = b.evidenceRef
  ledgerHeight : a.ledgerHeight = b.ledgerHeight
  nonce : a.nonce = b.nonce

theorem AssetKind.toUInt8_injective {a b : AssetKind} (h : a.toUInt8 = b.toUInt8) : a = b := by
  cases a <;> cases b <;> first | rfl | exact absurd h (by decide)

theorem toLe8_inj {x y : Nat} (hx : x < 2 ^ 64) (hy : y < 2 ^ 64)
    (h : Bytes.toLe 8 x = Bytes.toLe 8 y) : x = y := by
  have hval := congrArg Bytes.leNat h
  rwa [Bytes.leNat_toLe, Bytes.leNat_toLe, Nat.mod_eq_of_lt (by omega),
    Nat.mod_eq_of_lt (by omega)] at hval

theorem unsigned64_inj {x y : Int} (hx : Machine.InI 64 x) (hy : Machine.InI 64 y)
    (h : Bytes.unsigned 64 x = Bytes.unsigned 64 y) : x = y := by
  have hback {z : Int} (hz : Machine.InI 64 z) : Bytes.signed 64 (Bytes.unsigned 64 z) = z :=
    Bytes.signed_unsigned (by decide) hz.1 (Int.lt_of_le_sub_one hz.2)
  rw [← hback hx, ← hback hy, h]

/-- **The bytes** that are hashed determine the fields they are made of. -/
theorem sameBody_of_input_eq {a b : SettlementEvent}
    (h : settlementBodyHashInput a = settlementBodyHashInput b) : SameBody a b := by
  unfold settlementBodyHashInput at h
  obtain ⟨-, h⟩ := List.append_inj h rfl
  obtain ⟨hid, h⟩ := List.append_inj h (by simp)
  obtain ⟨hask, h⟩ := List.append_inj h (by simp)
  obtain ⟨hvault, h⟩ := List.append_inj h (by simp)
  obtain ⟨hasset, h⟩ := List.append_inj h (by simp)
  obtain ⟨hkind, h⟩ := List.append_inj h (by simp)
  obtain ⟨hscale, h⟩ := List.append_inj h (by simp)
  obtain ⟨hvalue, h⟩ := List.append_inj h (by simp)
  obtain ⟨hheight, h⟩ := List.append_inj h (by simp)
  obtain ⟨hevidence, h⟩ := List.append_inj h (by simp)
  obtain ⟨-, hnonce⟩ := List.append_inj h (by simp)
  have hscale := congrArg UInt8.toNat (List.singleton_inj.mp hscale)
  rw [UInt8.toNat_ofNat_of_lt' a.cost.scale_lt, UInt8.toNat_ofNat_of_lt' b.cost.scale_lt] at hscale
  have hvalue := toLe8_inj (Bytes.unsigned_lt 64 _) (Bytes.unsigned_lt 64 _) hvalue
  exact {
    settlementId := Vector.toList_inj.mp hid
    askId := Vector.toList_inj.mp hask
    costVaultId := Vector.toList_inj.mp hvault
    costAssetId := Vector.toList_inj.mp hasset
    assetKind := AssetKind.toUInt8_injective (List.singleton_inj.mp hkind)
    cost := Dqa.ext (unsigned64_inj a.cost.value_inI b.cost.value_inI hvalue) hscale
    evidenceRef := Vector.toList_inj.mp hevidence
    ledgerHeight := UInt64.toNat_inj.mp (toLe8_inj a.ledgerHeight.toNat_lt b.ledgerHeight.toNat_lt
      hheight)
    nonce := Vector.toList_inj.mp hnonce }

/-- **The signed message binds** nine fields of an event, and neither its time nor the epoch of
its registry. -/
theorem settlement_body_hash_binds (blake3 : List UInt8 → Bytes32) (a b : SettlementEvent)
    (hinj : Set.InjOn blake3 {settlementBodyHashInput a, settlementBodyHashInput b}) :
    (computeSettlementBodyHash blake3 a = computeSettlementBodyHash blake3 b → SameBody a b) ∧
    ∀ createdAtUnixMs registrySnapshotEpoch,
      computeSettlementBodyHash blake3
          { a with createdAtUnixMs, registrySnapshotEpoch } =
        computeSettlementBodyHash blake3 a := by
  refine ⟨fun h => ?_, fun _ _ => rfl⟩
  exact sameBody_of_input_eq (hinj (Set.mem_insert _ _) (Set.mem_insert_of_mem _ rfl) h)

def sampleSettlement : SettlementEvent where
  settlementId := Vector.replicate 32 1
  askId := Vector.replicate 32 2
  costVaultId := Vector.replicate 32 0xbb
  costAssetId := Vector.replicate 32 0xaa
  assetKind := .sovereignRoleToken
  cost := ⟨1000, 0, by decide, zero_scale_lt⟩
  evidenceRef := Vector.replicate 32 3
  ledgerHeight := 100
  createdAtUnixMs := 1700000000000
  settlementDecision := .consumed
  governanceSignature := Vector.replicate 64 0
  registrySnapshotEpoch := 0
  nonce := Vector.replicate 32 4

def laterSettlement : SettlementEvent := { sampleSettlement with ledgerHeight := 101 }

/-- BLAKE3 for the samples at heights 100 and 101. -/
def settlementBlake3 (m : List UInt8) : Bytes32 :=
  (List.lookup m [
    (settlementBodyHashInput sampleSettlement,
      #v[99, 75, 2, 140, 129, 98, 3, 180, 221, 143, 176, 135, 242, 196, 198, 5,
        37, 211, 120, 251, 52, 246, 108, 127, 191, 252, 230, 37, 160, 216, 58, 122]),
    (settlementBodyHashInput laterSettlement,
      #v[176, 37, 220, 223, 96, 57, 58, 245, 201, 238, 184, 194, 190, 208, 40, 122,
        121, 44, 214, 45, 219, 53, 238, 232, 12, 184, 35, 28, 185, 0, 2, 213])]).getD
    (Vector.replicate 32 0)

/-- Another height is another message. -/
theorem settlement_body_hash_binds_height :
    computeSettlementBodyHash settlementBlake3 sampleSettlement ≠
      computeSettlementBodyHash settlementBlake3 laterSettlement := by
  have hne : settlementBlake3 (settlementBodyHashInput sampleSettlement) ≠
      settlementBlake3 (settlementBodyHashInput laterSettlement) := by
    decide +kernel
  have hall := settlement_body_hash_binds settlementBlake3 sampleSettlement laterSettlement
    (Set.injOn_pair.mpr fun h => absurd h hne)
  intro h
  exact absurd (hall.1 h).ledgerHeight (by decide)

/-- An event of another time and another epoch. -/
def redatedSettlement : SettlementEvent :=
  { sampleSettlement with createdAtUnixMs := 0, registrySnapshotEpoch := 1 }

/-- The time and the epoch of an event are not signed. -/
theorem redated_settlement_is_signed :
    (∀ blake3, computeSettlementBodyHash blake3 sampleSettlement =
      computeSettlementBodyHash blake3 redatedSettlement) ∧
    sampleSettlement.createdAtUnixMs ≠ redatedSettlement.createdAtUnixMs ∧
    sampleSettlement.registrySnapshotEpoch ≠ redatedSettlement.registrySnapshotEpoch := by
  exact ⟨fun _ => rfl, by decide, by decide⟩

/-! ## Constructor and validator -/

/-- `observe` takes the nonce. -/
def NonceRegistry.Takes {σ : Type} (nonces : NonceRegistry σ) (seen : σ) (key : NonceKey) : Prop :=
  (nonces.observe seen key).1 = .ok ()

/-- `observe_readonly` has nothing against the nonce. -/
def NonceRegistry.Passes {σ : Type} (nonces : NonceRegistry σ) (seen : σ) (key : NonceKey) :
    Prop :=
  nonces.observeReadonly seen key = .ok ()

/-- What `validate` leaves out: the kind is that of the asset, and the scale is within bounds. -/
structure Rebuildable (registry : Bytes32 → Option SettlementAsset) (s : SettlementEvent) :
    Prop where
  kind : ∀ data, registry s.costAssetId = some data → s.assetKind = data.kind
  scale : s.cost.scale ≤ maxScale

/-- The two reads of the registry in memory agree. -/
theorem inMemory_takes_iff {seen : Cap.NonceRegistry} {key : NonceKey} :
    inMemoryNonceRegistry.Takes seen key ↔ inMemoryNonceRegistry.Passes seen key := by
  unfold NonceRegistry.Takes NonceRegistry.Passes inMemoryNonceRegistry Cap.NonceRegistry.observe
  dsimp only
  by_cases hseen : key ∈ seen
  · rw [if_pos hseen, if_pos hseen]
  · rw [if_neg hseen, if_neg hseen]

section

variable {blake3 : List UInt8 → Bytes32} {verify : Vector UInt8 64 → Bytes32 → Bytes32 → Bool}
variable {registry : Bytes32 → Option SettlementAsset}
variable {containsAsset : Bytes32 → Bytes32 → Except VaultAssetError Unit}
variable {σ : Type} {nonces : NonceRegistry σ} {seen : σ} {s : SettlementEvent} {epoch : UInt64}

/-- An event that validates is rebuilt iff it passes what `validate` leaves out. -/
theorem new_of_validate
    (h : s.validate blake3 verify registry containsAsset nonces seen epoch = .ok ()) :
    (s.toSettlementFields.new blake3 verify registry containsAsset nonces seen
        s.registrySnapshotEpoch).1 = .ok s ↔
      Rebuildable registry s ∧ ∀ data, registry s.costAssetId = some data →
        nonces.Takes seen (s.nonceKey blake3 data) := by
  obtain ⟨data, hadmitted, -, -⟩ := validate_eq_ok_iff.mp h
  rw [new_eq_ok_iff]
  constructor
  · intro hnew
    obtain ⟨data', heq, hadmitted', hbound, htakes⟩ := hnew
    have hkind : s.assetKind = data'.kind := congrArg SettlementEvent.assetKind heq
    refine ⟨⟨fun other hother => ?_, hbound⟩, fun other hother => ?_⟩ <;>
      obtain rfl := hadmitted'.eq_of_registered hother
    · exact hkind
    · exact htakes
  · intro hcond
    obtain ⟨⟨hkind, hbound⟩, htakes⟩ := hcond
    refine ⟨data, ?_, hadmitted, hbound, htakes data hadmitted.registered⟩
    rw [← hkind data hadmitted.registered]

/-- An event that `new` returns validates iff its nonce is free to a reader. -/
theorem validate_of_new {fields : SettlementFields}
    (h : (fields.new blake3 verify registry containsAsset nonces seen epoch).1 = .ok s) :
    s.validate blake3 verify registry containsAsset nonces seen epoch = .ok () ↔
      ∀ data, registry s.costAssetId = some data → nonces.Passes seen (s.nonceKey blake3 data) := by
  obtain ⟨data, heq, hadmitted, -, -⟩ := new_eq_ok_iff.mp h
  have hepoch : s.registrySnapshotEpoch = epoch := congrArg SettlementEvent.registrySnapshotEpoch heq
  rw [validate_eq_ok_iff]
  constructor
  · intro hvalid other hother
    obtain ⟨data', hadmitted', -, hfree⟩ := hvalid
    obtain rfl := hadmitted'.eq_of_registered hother
    exact hfree
  · intro hfree
    exact ⟨data, hadmitted, UInt64.le_of_eq hepoch, hfree data hadmitted.registered⟩

end

/-- **`validate` and `new` agree** on the events of the registered kind whose scale is within
bounds, as far as the two reads of the nonce registry do; those in memory do. -/
theorem validate_new_agree_iff {σ : Type} (blake3 : List UInt8 → Bytes32)
    (verify : Vector UInt8 64 → Bytes32 → Bytes32 → Bool)
    (registry : Bytes32 → Option SettlementAsset)
    (containsAsset : Bytes32 → Bytes32 → Except VaultAssetError Unit) (nonces : NonceRegistry σ)
    (seen : σ) (s : SettlementEvent) (epoch : UInt64) :
    (s.validate blake3 verify registry containsAsset nonces seen epoch = .ok () →
      ((s.toSettlementFields.new blake3 verify registry containsAsset nonces seen
          s.registrySnapshotEpoch).1 = .ok s ↔
        Rebuildable registry s ∧ ∀ data, registry s.costAssetId = some data →
          nonces.Takes seen (s.nonceKey blake3 data))) ∧
    (∀ fields : SettlementFields,
      (fields.new blake3 verify registry containsAsset nonces seen epoch).1 = .ok s →
        (s.validate blake3 verify registry containsAsset nonces seen epoch = .ok () ↔
          ∀ data, registry s.costAssetId = some data →
            nonces.Passes seen (s.nonceKey blake3 data))) ∧
    -- in memory
    ∀ seen : Cap.NonceRegistry,
      (s.validate blake3 verify registry containsAsset inMemoryNonceRegistry seen epoch = .ok () →
        ((s.toSettlementFields.new blake3 verify registry containsAsset inMemoryNonceRegistry seen
            s.registrySnapshotEpoch).1 = .ok s ↔ Rebuildable registry s)) ∧
      ∀ fields : SettlementFields,
        (fields.new blake3 verify registry containsAsset inMemoryNonceRegistry seen epoch).1 =
          .ok s →
        s.validate blake3 verify registry containsAsset inMemoryNonceRegistry seen epoch =
          .ok () := by
  refine ⟨new_of_validate, fun _ => validate_of_new, fun seen => ⟨fun hvalid => ?_, ?_⟩⟩
  · obtain ⟨data, hadmitted, -, hfree⟩ := validate_eq_ok_iff.mp hvalid
    rw [new_of_validate hvalid, and_iff_left]
    intro other hother
    obtain rfl := hadmitted.eq_of_registered hother
    exact inMemory_takes_iff.mpr hfree
  · intro fields hnew
    obtain ⟨data, heq, hadmitted, -, htakes⟩ := new_eq_ok_iff.mp hnew
    refine (validate_of_new hnew).mpr fun other hother => ?_
    obtain rfl := hadmitted.eq_of_registered hother
    subst heq
    exact inMemory_takes_iff.mp htakes

/-- The asset of the sample, a sovereign role token. -/
def sampleAssets (assetId : Bytes32) : Option SettlementAsset :=
  if assetId = sampleSettlement.costAssetId then
    some { wireScale := 0, governancePubkey := none, kind := .sovereignRoleToken }
  else none

def sampleVaults (vaultId assetId : Bytes32) : Except VaultAssetError Unit :=
  if vaultId ≠ sampleSettlement.costVaultId then .error .vaultUnknown
  else if assetId ≠ sampleSettlement.costAssetId then .error .vaultAssetMismatch
  else .ok ()

/-- The sample as an event of the governance token. -/
def relabelledSettlement : SettlementEvent := { sampleSettlement with assetKind := .octoW }

/-- An event of a kind its asset is not of validates, and `new` does not return it. -/
theorem relabelled_settlement_validates :
    (∀ blake3 verify, relabelledSettlement.validate blake3 verify sampleAssets sampleVaults
      inMemoryNonceRegistry [] 0 = .ok ()) ∧
    ∀ blake3 verify, (relabelledSettlement.toSettlementFields.new blake3 verify sampleAssets
      sampleVaults inMemoryNonceRegistry [] relabelledSettlement.registrySnapshotEpoch).1 ≠
        .ok relabelledSettlement := by
  refine ⟨fun _ _ => rfl, fun blake3 verify hnew => ?_⟩
  have hkind : sampleSettlement.assetKind = relabelledSettlement.assetKind :=
    congrArg SettlementEvent.assetKind (Except.ok.inj hnew)
  cases hkind

end CipherOcto.Settlement
