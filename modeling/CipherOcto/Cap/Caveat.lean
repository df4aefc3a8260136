import CipherOcto.Determin.Dqa
import CipherOcto.Encoding.Constraint

/-!
# Caveats

The caveat type of `octo-cap-macaroon` (`caveat/mod.rs`, `caveat/payment.rs`),
its names and its canonical JSON form. The JSON writer itself (`serde_json`)
and the constraint encoding stay parameters; what the crate hands to them is
here, arm by arm.

Amounts are `Dqa` values as `Dqa::new` and the wire decoder build them, with a
scale of at most 18, so that comparing two never runs off the power table
(`Amount.le_iff`).
-/

namespace CipherOcto.Cap

open Machine Determin Encoding

/-- A `Dqa` with a scale its own constructor accepts. -/
@[ext]
structure Amount where
  dqa : Dqa
  scale_le : dqa.scale ≤ maxScale
deriving DecidableEq

/-- `dqa_cmp(a, b) <= 0`. -/
def Amount.le (a b : Amount) : Bool :=
  match dqaCmp a.dqa b.dqa with
  | .ok r => decide (r ≤ 0)
  | .error _ => false

inductive CachePolicy where
  | off
  | optIn (cacheKeyHash : Option Bytes32)
  | always (ttlSecs : Nat)
deriving DecidableEq

structure PerAxisMax where
  axis : String
  maxPer1k : Amount
deriving DecidableEq

structure RateLimit where
  rpm : Nat
  tpm : Nat
deriving DecidableEq

inductive PermissionKind where
  | nativeTokenTransfer
  | erc20TokenTransfer
  | contractCall
  | reservation
  | vaultMutation
deriving DecidableEq

structure ActionTemplate where
  selector : String
  args : List String
deriving DecidableEq

structure FactoryVet where
  targetVaultId : Bytes32
  actionTemplate : ActionTemplate
  requiredCaller : Option String
  preConditions : List Constraint
  expiryForDeployUnix : Nat
deriving DecidableEq

structure RawCaveat where
  name : String
  value : List UInt8
deriving DecidableEq

structure AssetBinding where
  assetId : Bytes32
deriving DecidableEq

structure PaymentCaveat where
  caveatName : String
  assetId : Bytes32
  budget : Amount
  model : String
  expiresAtUnixMs : Nat
  registrySnapshotEpoch : Nat
  nonce : Bytes32
deriving DecidableEq

inductive Caveat where
  | amountMax (v : Amount)
  | perAxisMax (p : PerAxisMax)
  | model (m : String)
  | provider (ps : List String)
  | before (deadline : Nat)
  | audience (did : String)
  | rateLimit (r : RateLimit)
  | invocationHashBind (h : Bytes32)
  | jurisdiction (set : Finset String)
  | cacheStrategy (c : CachePolicy)
  | askBinding (ask : Bytes32)
  | thirdParty (channel : String)
  | raw (r : RawCaveat)
  | vault (vaultId : Bytes32)
  | permission (k : PermissionKind)
  | validRange (validAfterUnix validUntilUnix : Nat)
  | maxPerTx (amount : Nat)
  | auditWindow (durationSecs : Nat)
  | maxUses (count : Nat)
  | wrappedOnly (parentCapability : Bytes32)
  | factory (vet : FactoryVet)
  | policyReference (policyId : Bytes32) (policyVersionSeq : Nat)
      (attenuationWitness : Vector UInt8 64)
  | validAfter (notBeforeUnix : Nat)
  | redemptionContext (contextHash : Bytes32)
  | sharded (shardId : Nat)
  | payment (p : PaymentCaveat)
  | assetBinding (b : AssetBinding)
deriving DecidableEq

/-! ## Time windows -/

inductive TimeBounds where
  | notAfter (deadlineUnix : Nat)
  | range (validAfterUnix validUntilUnix : Nat)
  | notBefore (notBeforeUnix : Nat)
deriving DecidableEq

/-- `admit`, less the refusal texts. An inverted range refuses every instant. -/
def TimeBounds.admits : TimeBounds → Nat → Bool
  | notAfter deadline, now => !decide (now > deadline)
  | range lo hi, now =>
    if lo > hi then false
    else if now < lo then false
    else if now > hi then false
    else true
  | notBefore start, now => !decide (now < start)

/-- `time_bounds`. -/
def Caveat.timeBounds : Caveat → Option TimeBounds
  | before deadline => some (.notAfter deadline)
  | validRange lo hi => some (.range lo hi)
  | validAfter start => some (.notBefore start)
  | _ => none

/-! ## Names -/

inductive CaveatName where
  | amountMax
  | perAxisMax
  | model
  | provider
  | before
  | audience
  | rateLimit
  | invocationHashBind
  | jurisdiction
  | cacheStrategy
  | askBinding
  | thirdParty
  | raw
  | vault
  | permission
  | validRange
  | maxPerTx
  | auditWindow
  | maxUses
  | wrappedOnly
  | factory
  | policyReference
  | validAfter
  | redemptionContext
  | sharded
  | payment
  | assetBinding
deriving DecidableEq

/-- `short_name`, also the `type` tag of the canonical form. -/
def CaveatName.shortName : CaveatName → String
  | amountMax => "amount_max"
  | perAxisMax => "per_axis_max"
  | model => "model"
  | provider => "provider"
  | before => "before"
  | audience => "audience"
  | rateLimit => "rate_limit"
  | invocationHashBind => "invocation_hash_bind"
  | jurisdiction => "jurisdiction"
  | cacheStrategy => "cache_strategy"
  | askBinding => "ask_binding"
  | thirdParty => "third_party"
  | raw => "raw"
  | vault => "vault"
  | permission => "permission"
  | validRange => "valid_range"
  | maxPerTx => "max_per_tx"
  | auditWindow => "audit_window"
  | maxUses => "max_uses"
  | wrappedOnly => "wrapped_only"
  | factory => "factory"
  | policyReference => "policy_reference"
  | validAfter => "valid_after"
  | redemptionContext => "redemption_context"
  | sharded => "sharded"
  | payment => "payment"
  | assetBinding => "asset_binding"

/-- `CaveatName::as_str`: the MAC info string, the short name under one path. -/
def CaveatName.asStr (n : CaveatName) : String := "cipherocto/cap/v1/caveat/" ++ n.shortName

/-- `Caveat::name`. -/
def Caveat.name : Caveat → CaveatName
  | amountMax _ => .amountMax
  | perAxisMax _ => .perAxisMax
  | model _ => .model
  | provider _ => .provider
  | before _ => .before
  | audience _ => .audience
  | rateLimit _ => .rateLimit
  | invocationHashBind _ => .invocationHashBind
  | jurisdiction _ => .jurisdiction
  | cacheStrategy _ => .cacheStrategy
  | askBinding _ => .askBinding
  | thirdParty _ => .thirdParty
  | raw _ => .raw
  | vault _ => .vault
  | permission _ => .permission
  | validRange .. => .validRange
  | maxPerTx _ => .maxPerTx
  | auditWindow _ => .auditWindow
  | maxUses _ => .maxUses
  | wrappedOnly _ => .wrappedOnly
  | factory _ => .factory
  | policyReference .. => .policyReference
  | validAfter _ => .validAfter
  | redemptionContext _ => .redemptionContext
  | sharded _ => .sharded
  | payment _ => .payment
  | assetBinding _ => .assetBinding

/-! ## The canonical form -/

/-- A JSON value, objects as the fields the code writes in that order. -/
inductive Json where
  | null
  | num (n : Nat)
  | str (s : String)
  | arr (items : List Json)
  | obj (fields : List (String × Json))

def hexDigit (n : Nat) : Char := "0123456789abcdef".toList.getD n '0'

/-- `hex::encode`. -/
def hexEncode (bytes : List UInt8) : String :=
  String.ofList (bytes.flatMap fun b => [hexDigit (b.toNat / 16), hexDigit (b.toNat % 16)])

/-- Bytes as the derived serialisers write them: an array of numbers. -/
def bytesJson (bytes : List UInt8) : Json := .arr (bytes.map fun b => .num b.toNat)

/-- `Vec<String>`, sorted. -/
def sortedJson (items : List String) : Json :=
  .arr ((items.mergeSort fun a b => decide (a ≤ b)).map .str)

/-- `dqa_to_bytes`. -/
def dqaToBytes (host : Bytes.Endian) (d : Dqa) : List UInt8 :=
  Bytes.toLe 8 (Bytes.unsigned 64 (DqaEncoding.fromDqa host d).value) ++
    [UInt8.ofNat (DqaEncoding.fromDqa host d).scale] ++ (DqaEncoding.fromDqa host d).reserved

def PermissionKind.tag : PermissionKind → String
  | nativeTokenTransfer => "native_token_transfer"
  | erc20TokenTransfer => "erc20_token_transfer"
  | contractCall => "contract_call"
  | reservation => "reservation"
  | vaultMutation => "vault_mutation"

def CachePolicy.json : CachePolicy → Json
  | off => .obj [("policy", .str "off")]
  | optIn none => .obj [("policy", .str "opt-in"), ("cache_key_hash", .null)]
  | optIn (some key) => .obj [("policy", .str "opt-in"), ("cache_key_hash", bytesJson key.toList)]
  | always ttl => .obj [("policy", .str "always"), ("ttl_secs", .num ttl)]

/-- `to_value` of a `u128`: the writer's numbers stop at `u64`, and the macro
unwraps. -/
def u128Json (n : Nat) : Option Json := if n < 2 ^ 64 then some (.num n) else none

/-- The third-party and foreign code the token layer calls. -/
structure Writers where
  host : Bytes.Endian
  /-- `serde_json::to_vec`. -/
  toVec : Json → List UInt8
  /-- `cipherocto_encoding::encode`, where an error is unwrapped. -/
  encodeConstraint : Constraint → Option (List UInt8)

/-- The `value` of the canonical form, or `none` where building it panics. -/
def Caveat.payload (w : Writers) : Caveat → Option Json
  | amountMax v => some (.str (hexEncode (dqaToBytes w.host v.dqa)))
  | perAxisMax p => some (.obj [("axis", .str p.axis),
      ("max_per_1k", bytesJson (dqaToBytes w.host p.maxPer1k.dqa))])
  | model m => some (.str m)
  | provider ps => some (sortedJson ps)
  | before t => some (.num t)
  | audience a => some (.str a)
  | rateLimit r => some (.obj [("rpm", .num r.rpm), ("tpm", .num r.tpm)])
  | invocationHashBind h => some (.str (hexEncode h.toList))
  | jurisdiction set => some (.arr ((set.sort (· ≤ ·)).map .str))
  | cacheStrategy c => some c.json
  | askBinding ask => some (.str (hexEncode ask.toList))
  | thirdParty channel => some (.str channel)
  | raw r => some (.obj [("name", .str r.name), ("value", .str (hexEncode r.value))])
  | vault v => some (.str (hexEncode v.toList))
  | permission k => some (.str k.tag)
  | validRange lo hi => some (.obj [("valid_after_unix", .num lo), ("valid_until_unix", .num hi)])
  | maxPerTx amount => u128Json amount
  | auditWindow secs => some (.num secs)
  | maxUses count => some (.num count)
  | wrappedOnly parent => some (.obj [("parent_capability", .str (hexEncode parent.toList))])
  | factory vet => do
    let pre ← vet.preConditions.mapM w.encodeConstraint
    some (.obj [
      ("target_vault_id", .str (hexEncode vet.targetVaultId.toList)),
      ("action_template", .obj [("selector", .str vet.actionTemplate.selector),
        ("args", .arr (vet.actionTemplate.args.map .str))]),
      ("required_caller", match vet.requiredCaller with
        | some who => .str who
        | none => .null),
      ("pre_conditions", .arr (pre.map fun bytes => .str (hexEncode bytes))),
      ("expiry_for_deploy_unix", .num vet.expiryForDeployUnix)])
  | policyReference policyId seq witness => some (.obj [
      ("policy_id", .str (hexEncode policyId.toList)), ("policy_version_seq", .num seq),
      ("attenuation_witness", .str (hexEncode witness.toList))])
  | validAfter t => some (.num t)
  | redemptionContext h => some (.obj [("context_hash", .str (hexEncode h.toList))])
  | sharded shard => some (.num shard)
  | payment p => some (.obj [
      ("caveat_name", .str p.caveatName), ("asset_id", .str (hexEncode p.assetId.toList)),
      ("budget", .str (hexEncode (dqaToBytes w.host p.budget.dqa))), ("model", .str p.model),
      ("expires_at_unix_ms", .num p.expiresAtUnixMs),
      ("registry_snapshot_epoch", .str (toString p.registrySnapshotEpoch)),
      ("nonce", .str (hexEncode p.nonce.toList))])
  | assetBinding b => some (.obj [("asset_id", .str (hexEncode b.assetId.toList))])

/-- `canonical_ser`; `none` is a panic. -/
def Caveat.canonicalSer (w : Writers) (c : Caveat) : Option (List UInt8) :=
  (c.payload w).map fun v => w.toVec (.obj [("type", .str c.name.shortName), ("value", v)])

/-! ## Comparing amounts -/

theorem threeWay_le_zero_iff {x y : Int} : threeWay x y ≤ 0 ↔ x ≤ y := by
  unfold threeWay
  split <;> [omega; split <;> omega]

/-- The comparison of two amounts, at the larger of their canonical scales. -/
theorem dqaCmp_eq {a b : Dqa} (ha : a.scale ≤ 18) (hb : b.scale ≤ 18) :
    dqaCmp a b = .ok (threeWay
      (a.canonicalize.value * 10 ^ (b.canonicalize.scale - a.canonicalize.scale))
      (b.canonicalize.value * 10 ^ (a.canonicalize.scale - b.canonicalize.scale))) := by
  have ha' := a.canonicalize_scale_le.trans ha
  have hb' := b.canonicalize_scale_le.trans hb
  unfold dqaCmp
  generalize a.canonicalize = x at ha'
  generalize b.canonicalize = y at hb'
  dsimp only
  by_cases heq : x.scale = y.scale
  · rw [if_pos heq, heq, Nat.sub_self, pow_zero, mul_one, mul_one]
  rw [if_neg heq, index_pow10 (by omega), ok_bind]
  by_cases hgt : x.scale > y.scale
  · rw [if_pos hgt, show y.scale - x.scale = 0 by omega, pow_zero, mul_one,
      show ((x.scale : Int) - y.scale).natAbs = x.scale - y.scale by omega]
  · rw [if_neg hgt, show x.scale - y.scale = 0 by omega, pow_zero, mul_one,
      show ((x.scale : Int) - y.scale).natAbs = y.scale - x.scale by omega]

/-- **`dqa_cmp` orders amounts by value**, whatever their scales. -/
theorem Amount.le_iff (a b : Amount) : a.le b = true ↔ a.dqa.val ≤ b.dqa.val := by
  unfold Amount.le
  rw [dqaCmp_eq a.scale_le b.scale_le, ← a.dqa.val_canonicalize, ← b.dqa.val_canonicalize]
  simp only [decide_eq_true_eq, threeWay_le_zero_iff]
  exact (Scaled.val_le_iff_aligned _ _ _ _).symm

theorem Amount.le_refl (a : Amount) : a.le a = true := (a.le_iff a).mpr le_rfl

end CipherOcto.Cap
