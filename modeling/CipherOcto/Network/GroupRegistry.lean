import CipherOcto.Encoding.Constraint
import CipherOcto.Lib.IndexedTable
import CipherOcto.Lib.Since
import Mathlib.Data.String.Basic

/-!
# The registry of transport groups

Groups are bound to missions: a binding is found by its group, and by the mission,
domain and platform it serves, of which there is to be one group at most. A kicked
group's binding is kept in quarantine for some epochs, and a kicked node has so many
attempts to come back.

> `directory_consistent`: in any run the two maps are one directory of bindings, and a
> registration is refused exactly for what it clashes with.
> `restore_ok_iff`: what a rejoin restores is what the last quarantine of the triple put
> there, within its window, if the group and the triple are free; any other rejoin loses it.
> `rejoin_granted_iff`: the attempts since the last reset are counted, up to 65535.
-/

namespace CipherOcto.Network

open Encoding Trace

/-! ## Data -/

inductive GroupState where
  | unbound | bound | reBinding | unboundQuarantined | creating | inviting
  | unboundAllPending | unboundAllDone
deriving DecidableEq

inductive UnbindAuthority where
  | coordinatorResign | slashVote | missionTerminated
deriving DecidableEq

structure GroupBinding where
  groupJid : String
  platform : String
  missionId : Bytes32
  domainId : Bytes32
  domainCoordinatorId : Bytes32
  boundAtEpoch : UInt64
  renewedAtEpoch : UInt64
  state : GroupState
  bindingHash : Bytes32
deriving DecidableEq

structure UnbindEnvelope where
  domainId : Bytes32
  groupJid : String
  platform : String
  authority : UnbindAuthority
  reason : String
  currentEpoch : UInt64
  nonce : Bytes32
  unbindHash : Bytes32
  signature : Vector UInt8 64
deriving DecidableEq

structure InviteEnvelope where
  domainId : Bytes32
  groupJid : String
  platform : String
  inviteePubkey : Bytes32
  nonce : Bytes32
  inviteToken : Bytes32
  missionId : Bytes32
  currentEpoch : UInt64
  expiresAtEpoch : UInt64
  inviteHash : Bytes32
  signature : Vector UInt8 64
deriving DecidableEq

/-- `BindingError`, as far as the registry returns it. -/
inductive BindingError where
  | alreadyBound (platform groupJid : String)
  | multiPlatformViolation (missionId domainId : Bytes32) (platform : String)
  | invalidTransition (source target : GroupState)
  | notFound (platform groupJid : String)
  | rejoinBudgetExceeded (nodeId : Bytes32)
  | quarantineExpired (platform groupJid : String)
deriving DecidableEq

structure UnboundQuarantineEntry where
  unboundAtEpoch : UInt64
  recoveryWindowEpochs : UInt64
  originalBinding : GroupBinding
  unbindAuthority : UnbindAuthority
deriving DecidableEq

/-- The first epoch too late, `unbound_at_epoch.saturating_add(recovery_window_epochs)`. -/
def UnboundQuarantineEntry.expiry (e : UnboundQuarantineEntry) : Nat :=
  min (e.unboundAtEpoch.toNat + e.recoveryWindowEpochs.toNat) (2 ^ 64 - 1)

/-- The binding as it is restored. -/
def UnboundQuarantineEntry.restored (e : UnboundQuarantineEntry) (currentEpoch : UInt64) :
    GroupBinding :=
  { e.originalBinding with state := .bound, renewedAtEpoch := currentEpoch }

/-- `(platform, group_jid)`. -/
abbrev GroupKey := String ×ₗ String

/-- `(mission_id, domain_id, platform)`. -/
abbrev DomainKey := Bytes32 ×ₗ Bytes32 ×ₗ String

def groupKeyOf (platform groupJid : String) : GroupKey := toLex (platform, groupJid)

def domainKeyOf (missionId domainId : Bytes32) (platform : String) : DomainKey :=
  toLex (missionId, toLex (domainId, platform))

namespace GroupBinding

def groupKey (b : GroupBinding) : GroupKey := groupKeyOf b.platform b.groupJid

def domainKey (b : GroupBinding) : DomainKey := domainKeyOf b.missionId b.domainId b.platform

end GroupBinding

structure GroupRegistry where
  bindings : SortedMap GroupKey GroupBinding
  domainIndex : SortedMap DomainKey GroupKey
  unboundQuarantine : SortedMap DomainKey UnboundQuarantineEntry
  rejoinAttempts : SortedMap Bytes32 Nat
  pendingInvites : SortedMap Bytes32 InviteEnvelope

namespace GroupRegistry

/-! ## The code -/

def new : GroupRegistry := ⟨.empty, .empty, .empty, .empty, .empty⟩

/-- `GroupRegistry::register_binding`. -/
def registerBinding (r : GroupRegistry) (binding : GroupBinding) :
    Except BindingError Unit × GroupRegistry :=
  if (r.bindings.lookup binding.groupKey).isSome then
    (.error (.alreadyBound binding.platform binding.groupJid), r)
  else if (r.domainIndex.lookup binding.domainKey).isSome then
    (.error (.multiPlatformViolation binding.missionId binding.domainId binding.platform), r)
  else
    (.ok (), { r with
      domainIndex := r.domainIndex.insert binding.domainKey binding.groupKey
      bindings := r.bindings.insert binding.groupKey binding })

/-- `GroupRegistry::lookup_by_group`. -/
def lookupByGroup (r : GroupRegistry) (platform groupJid : String) : Option GroupBinding :=
  r.bindings.lookup (groupKeyOf platform groupJid)

/-- `GroupRegistry::lookup_by_domain`. -/
def lookupByDomain (r : GroupRegistry) (missionId domainId : Bytes32) (platform : String) :
    Option GroupBinding :=
  (r.domainIndex.lookup (domainKeyOf missionId domainId platform)).bind fun key =>
    r.bindings.lookup key

/-- The transitions in place: the binding is rewritten if it may leave its state. -/
def transition (r : GroupRegistry) (platform groupJid : String) (mayLeave : GroupState → Bool)
    (target : GroupState) (write : GroupBinding → GroupBinding) :
    Except BindingError Unit × GroupRegistry :=
  match r.lookupByGroup platform groupJid with
  | none => (.error (.notFound platform groupJid), r)
  | some binding =>
    if mayLeave binding.state then
      (.ok (), { r with
        bindings :=
          r.bindings.insert (groupKeyOf platform groupJid) { write binding with state := target } })
    else (.error (.invalidTransition binding.state target), r)

/-- `GroupRegistry::transition_to_bound`. -/
def transitionToBound (r : GroupRegistry) (platform groupJid : String) (renewedAtEpoch : UInt64)
    (bindingHash : Bytes32) : Except BindingError Unit × GroupRegistry :=
  r.transition platform groupJid
    (fun
      | .unbound | .reBinding | .unboundQuarantined | .bound | .creating | .inviting
      | .unboundAllPending => true
      | .unboundAllDone => false)
    .bound fun b => { b with renewedAtEpoch := renewedAtEpoch, bindingHash := bindingHash }

/-- `GroupRegistry::transition_to_rebinding`. -/
def transitionToRebinding (r : GroupRegistry) (platform groupJid : String) :
    Except BindingError Unit × GroupRegistry :=
  r.transition platform groupJid
    (fun
      | .bound | .reBinding | .unboundQuarantined | .inviting | .unboundAllPending => true
      | .unbound | .creating | .unboundAllDone => false)
    .reBinding id

/-- `GroupRegistry::transition_to_creating`. -/
def transitionToCreating (r : GroupRegistry) (platform groupJid : String) :
    Except BindingError Unit × GroupRegistry :=
  r.transition platform groupJid
    (fun
      | .unbound | .reBinding | .creating => true
      | _ => false)
    .creating id

/-- `GroupRegistry::transition_to_inviting`. -/
def transitionToInviting (r : GroupRegistry) (platform groupJid : String) :
    Except BindingError Unit × GroupRegistry :=
  r.transition platform groupJid
    (fun
      | .bound | .inviting => true
      | _ => false)
    .inviting id

/-- `GroupRegistry::transition_inviting_to_bound`. -/
def transitionInvitingToBound (r : GroupRegistry) (platform groupJid : String) :
    Except BindingError Unit × GroupRegistry :=
  r.transition platform groupJid
    (fun
      | .inviting | .bound => true
      | _ => false)
    .bound id

/-- `GroupRegistry::transition_to_unbound_all_pending`. -/
def transitionToUnboundAllPending (r : GroupRegistry) (platform groupJid : String) :
    Except BindingError Unit × GroupRegistry :=
  r.transition platform groupJid
    (fun
      | .bound | .inviting | .reBinding | .unboundAllPending => true
      | _ => false)
    .unboundAllPending id

/-- Taking a binding out of both maps. -/
def remove (r : GroupRegistry) (binding : GroupBinding) (platform groupJid : String) :
    GroupRegistry :=
  { r with
    bindings := r.bindings.erase (groupKeyOf platform groupJid)
    domainIndex := r.domainIndex.erase binding.domainKey }

/-- `GroupRegistry::transition_to_unbound_quarantined`. -/
def transitionToUnboundQuarantined (r : GroupRegistry) (platform groupJid : String)
    (unboundAtEpoch : UInt64) (authority : UnbindAuthority) (recoveryWindowEpochs : UInt64) :
    Except BindingError Unit × GroupRegistry :=
  match r.lookupByGroup platform groupJid with
  | none => (.error (.notFound platform groupJid), r)
  | some binding =>
    let removed := r.remove binding platform groupJid
    (.ok (), { removed with
      unboundQuarantine := removed.unboundQuarantine.insert binding.domainKey
        ⟨unboundAtEpoch, recoveryWindowEpochs, binding, authority⟩ })

/-- `GroupRegistry::transition_to_unbound`. The envelope is for the caller to sign. -/
def transitionToUnbound (r : GroupRegistry) (platform groupJid : String) :
    Except BindingError UnbindEnvelope × GroupRegistry :=
  match r.lookupByGroup platform groupJid with
  | none => (.error (.notFound platform groupJid), r)
  | some binding =>
    (.ok {
      domainId := binding.domainId
      groupJid := binding.groupJid
      platform := binding.platform
      authority := .coordinatorResign
      reason := ""
      currentEpoch := binding.renewedAtEpoch
      nonce := Vector.replicate 32 0
      unbindHash := Vector.replicate 32 0
      signature := Vector.replicate 64 0 },
      r.remove binding platform groupJid)

/-- `GroupRegistry::transition_to_unbound_all_done`, the same body. -/
def transitionToUnboundAllDone (r : GroupRegistry) (platform groupJid : String) :
    Except BindingError UnbindEnvelope × GroupRegistry :=
  r.transitionToUnbound platform groupJid

/-- `GroupRegistry::lookup_quarantine`. -/
def lookupQuarantine (r : GroupRegistry) (missionId domainId : Bytes32) (platform : String) :
    Option UnboundQuarantineEntry :=
  r.unboundQuarantine.lookup (domainKeyOf missionId domainId platform)

def takeQuarantined (r : GroupRegistry) (key : DomainKey) : GroupRegistry :=
  { r with unboundQuarantine := r.unboundQuarantine.erase key }

/-- `GroupRegistry::restore_from_quarantine`. The entry is taken out before it is looked at. -/
def restoreFromQuarantine (r : GroupRegistry) (missionId domainId : Bytes32) (platform : String)
    (currentEpoch : UInt64) : Except BindingError GroupBinding × GroupRegistry :=
  match r.lookupQuarantine missionId domainId platform with
  | none => (.error (.notFound platform "<quarantine>"), r)
  | some entry =>
    let taken := r.takeQuarantined (domainKeyOf missionId domainId platform)
    if entry.expiry ≤ currentEpoch.toNat then
      (.error (.quarantineExpired platform entry.originalBinding.groupJid), taken)
    else
      match taken.registerBinding (entry.restored currentEpoch) with
      | (.ok (), restored) => (.ok (entry.restored currentEpoch), restored)
      | (.error e, refused) => (.error e, refused)

/-- `GroupRegistry::gc_quarantine`. -/
def gcQuarantine (r : GroupRegistry) (currentEpoch : UInt64) : Nat × GroupRegistry :=
  let kept := r.unboundQuarantine.retain fun _ entry => currentEpoch.toNat < entry.expiry
  (r.unboundQuarantine.entries.length - kept.entries.length, { r with unboundQuarantine := kept })

/-- `GroupRegistry::try_increment_rejoin`. -/
def tryIncrementRejoin (r : GroupRegistry) (nodeId : Bytes32) (maxAttempts : UInt16) :
    Except BindingError Nat × GroupRegistry :=
  let count := min ((r.rejoinAttempts.lookup nodeId).getD 0 + 1) (2 ^ 16 - 1)
  let counted := { r with rejoinAttempts := r.rejoinAttempts.insert nodeId count }
  if maxAttempts.toNat < count then (.error (.rejoinBudgetExceeded nodeId), counted)
  else (.ok count, counted)

/-- `GroupRegistry::reset_rejoin`. -/
def resetRejoin (r : GroupRegistry) (nodeId : Bytes32) : GroupRegistry :=
  { r with rejoinAttempts := r.rejoinAttempts.erase nodeId }

/-- `GroupRegistry::register_pending_invite`. -/
def registerPendingInvite (r : GroupRegistry) (invite : InviteEnvelope) : Bool × GroupRegistry :=
  ((r.pendingInvites.lookup invite.inviteePubkey).isNone,
    { r with pendingInvites := r.pendingInvites.insert invite.inviteePubkey invite })

/-- `GroupRegistry::remove_pending_invite`. -/
def removePendingInvite (r : GroupRegistry) (invitee : Bytes32) :
    Option InviteEnvelope × GroupRegistry :=
  (r.pendingInvites.lookup invitee, { r with pendingInvites := r.pendingInvites.erase invitee })

/-- `GroupRegistry::gc_pending_invites`. -/
def gcPendingInvites (r : GroupRegistry) (currentEpoch : UInt64) : Nat × GroupRegistry :=
  let expired := (r.pendingInvites.entries.filter fun e => e.2.expiresAtEpoch ≤ currentEpoch).map
    Prod.fst
  (expired.length, { r with pendingInvites := expired.foldl SortedMap.erase r.pendingInvites })

/-! ## Runs -/

/-- The methods that write. -/
inductive Call where
  | register (binding : GroupBinding)
  | toBound (platform groupJid : String) (renewedAtEpoch : UInt64) (bindingHash : Bytes32)
  | toRebinding (platform groupJid : String)
  | toCreating (platform groupJid : String)
  | toInviting (platform groupJid : String)
  | invitingToBound (platform groupJid : String)
  | toUnboundAllPending (platform groupJid : String)
  | toUnboundQuarantined (platform groupJid : String) (unboundAtEpoch : UInt64)
      (authority : UnbindAuthority) (recoveryWindowEpochs : UInt64)
  | toUnbound (platform groupJid : String)
  | toUnboundAllDone (platform groupJid : String)
  | restore (missionId domainId : Bytes32) (platform : String) (currentEpoch : UInt64)
  | gcQuarantine (currentEpoch : UInt64)
  | tryIncrementRejoin (nodeId : Bytes32) (maxAttempts : UInt16)
  | resetRejoin (nodeId : Bytes32)
  | registerPendingInvite (invite : InviteEnvelope)
  | removePendingInvite (invitee : Bytes32)
  | gcPendingInvites (currentEpoch : UInt64)

inductive Answer where
  | done (result : Except BindingError Unit)
  | unbind (result : Except BindingError UnbindEnvelope)
  | restored (result : Except BindingError GroupBinding)
  | attempt (result : Except BindingError Nat)
  | count (n : Nat)
  | isNew (new : Bool)
  | invite (removed : Option InviteEnvelope)
  | unit

def call (r : GroupRegistry) : Call → Answer × GroupRegistry
  | .register b => (r.registerBinding b).map .done id
  | .toBound p g epoch hash => (r.transitionToBound p g epoch hash).map .done id
  | .toRebinding p g => (r.transitionToRebinding p g).map .done id
  | .toCreating p g => (r.transitionToCreating p g).map .done id
  | .toInviting p g => (r.transitionToInviting p g).map .done id
  | .invitingToBound p g => (r.transitionInvitingToBound p g).map .done id
  | .toUnboundAllPending p g => (r.transitionToUnboundAllPending p g).map .done id
  | .toUnboundQuarantined p g epoch authority window =>
    (r.transitionToUnboundQuarantined p g epoch authority window).map .done id
  | .toUnbound p g => (r.transitionToUnbound p g).map .unbind id
  | .toUnboundAllDone p g => (r.transitionToUnboundAllDone p g).map .unbind id
  | .restore m d p epoch => (r.restoreFromQuarantine m d p epoch).map .restored id
  | .gcQuarantine epoch => (r.gcQuarantine epoch).map .count id
  | .tryIncrementRejoin n max => (r.tryIncrementRejoin n max).map .attempt id
  | .resetRejoin n => (.unit, r.resetRejoin n)
  | .registerPendingInvite i => (r.registerPendingInvite i).map .isNew id
  | .removePendingInvite i => (r.removePendingInvite i).map .invite id
  | .gcPendingInvites epoch => (r.gcPendingInvites epoch).map .count id

/-! ## The two maps -/

/-- The maps belong together. -/
abbrev IsIndexed (r : GroupRegistry) : Prop :=
  IndexedTable GroupBinding.groupKey GroupBinding.domainKey r.bindings r.domainIndex

theorem groupKeyOf_eq_iff {p g p' g' : String} :
    groupKeyOf p g = groupKeyOf p' g' ↔ p = p' ∧ g = g' := by
  rw [groupKeyOf, groupKeyOf, EmbeddingLike.apply_eq_iff_eq, Prod.mk.injEq]

theorem domainKeyOf_eq_iff {m d m' d' : Bytes32} {p p' : String} :
    domainKeyOf m d p = domainKeyOf m' d' p' ↔ m = m' ∧ d = d' ∧ p = p' := by
  rw [domainKeyOf, domainKeyOf, EmbeddingLike.apply_eq_iff_eq, Prod.mk.injEq,
    EmbeddingLike.apply_eq_iff_eq, Prod.mk.injEq]

section

variable {r : GroupRegistry}

/-- Neither the group nor the triple is taken. -/
def Free (r : GroupRegistry) (b : GroupBinding) : Prop :=
  r.bindings.lookup b.groupKey = none ∧ r.domainIndex.lookup b.domainKey = none

/-- How a registration ends. -/
theorem registerBinding_cases (r : GroupRegistry) (b : GroupBinding) :
    (∃ e, r.registerBinding b = (.error e, r)) ∧ ¬r.Free b ∨
      r.Free b ∧ r.registerBinding b = (.ok (), { r with
        domainIndex := r.domainIndex.insert b.domainKey b.groupKey
        bindings := r.bindings.insert b.groupKey b }) := by
  unfold registerBinding
  split
  next hgroup =>
    refine .inl ⟨⟨_, rfl⟩, fun hfree => ?_⟩
    rw [hfree.1] at hgroup
    cases hgroup
  next hgroup =>
    split
    next hdomain =>
      refine .inl ⟨⟨_, rfl⟩, fun hfree => ?_⟩
      rw [hfree.2] at hdomain
      cases hdomain
    next hdomain =>
      rw [Option.not_isSome_iff_eq_none] at hgroup hdomain
      exact .inr ⟨⟨hgroup, hdomain⟩, rfl⟩

/-- How a transition in place ends. -/
theorem transition_cases (r : GroupRegistry) (p g : String) (mayLeave : GroupState → Bool)
    (target : GroupState) (write : GroupBinding → GroupBinding) :
    (∃ e, r.transition p g mayLeave target write = (.error e, r)) ∨
      ∃ b, r.lookupByGroup p g = some b ∧
        r.transition p g mayLeave target write = (.ok (), { r with
          bindings := r.bindings.insert (groupKeyOf p g) { write b with state := target } }) := by
  unfold transition
  split
  next => exact .inl ⟨_, rfl⟩
  next b hb =>
    split
    next => exact .inr ⟨b, hb, rfl⟩
    next => exact .inl ⟨_, rfl⟩

/-- How a restoration ends. -/
theorem restoreFromQuarantine_cases (r : GroupRegistry) (m d : Bytes32) (p : String)
    (epoch : UInt64) :
    r.lookupQuarantine m d p = none ∧
        r.restoreFromQuarantine m d p epoch = (.error (.notFound p "<quarantine>"), r) ∨
      ∃ entry, r.lookupQuarantine m d p = some entry ∧
        ((∃ e, r.restoreFromQuarantine m d p epoch =
              (.error e, r.takeQuarantined (domainKeyOf m d p))) ∧
            ¬(epoch.toNat < entry.expiry ∧ r.Free (entry.restored epoch)) ∨
          (epoch.toNat < entry.expiry ∧ r.Free (entry.restored epoch)) ∧
            r.restoreFromQuarantine m d p epoch = (.ok (entry.restored epoch),
              ((r.takeQuarantined (domainKeyOf m d p)).registerBinding (entry.restored epoch)).2)) := by
  unfold restoreFromQuarantine
  split
  next hnone => exact .inl ⟨hnone, rfl⟩
  next entry hentry =>
    refine .inr ⟨entry, hentry, ?_⟩
    simp only
    split
    next hexpired =>
      exact .inl ⟨⟨_, rfl⟩, fun hgood => absurd hgood.1 (Nat.not_lt.mpr hexpired)⟩
    next hlive =>
      -- the entry has been taken out, so it does not clash with itself
      rcases registerBinding_cases (r.takeQuarantined (domainKeyOf m d p)) (entry.restored epoch)
        with ⟨⟨e, heq⟩, hclash⟩ | ⟨hfree, heq⟩
      · rw [heq]
        exact .inl ⟨⟨e, rfl⟩, fun hgood => hclash hgood.2⟩
      · rw [heq]
        exact .inr ⟨⟨Nat.not_le.mp hlive, hfree⟩, rfl⟩

theorem tryIncrementRejoin_snd (r : GroupRegistry) (n : Bytes32) (max : UInt16) :
    (r.tryIncrementRejoin n max).2 = { r with
      rejoinAttempts := r.rejoinAttempts.insert n
        (min ((r.rejoinAttempts.lookup n).getD 0 + 1) (2 ^ 16 - 1)) } := by
  unfold tryIncrementRejoin
  simp only
  split
  next => rfl
  next => rfl

/-- The calls that are transitions in place. -/
def Call.InPlace : Call → Prop
  | .toBound _ _ _ _ | .toRebinding _ _ | .toCreating _ _ | .toInviting _ _
  | .invitingToBound _ _ | .toUnboundAllPending _ _ => True
  | _ => False

/-- They rewrite neither the group nor the triple. -/
theorem call_of_inPlace (r : GroupRegistry) {c : Call} (hc : c.InPlace) :
    ∃ p g mayLeave target write, (∀ b : GroupBinding, (write b).groupKey = b.groupKey) ∧
      (∀ b, (write b).domainKey = b.domainKey) ∧
      (r.call c).2 = (r.transition p g mayLeave target write).2 := by
  cases c with
  | toBound p g epoch hash =>
    show ∃ p g mayLeave target write, _ ∧ _ ∧ (r.transitionToBound _ _ _ _).2 = _
    refine ⟨p, g, _, _, _, ?_, ?_, rfl⟩
    · exact fun _ => rfl
    · exact fun _ => rfl
  | toRebinding p g =>
    show ∃ p g mayLeave target write, _ ∧ _ ∧ (r.transitionToRebinding _ _).2 = _
    refine ⟨p, g, _, _, _, ?_, ?_, rfl⟩
    · exact fun _ => rfl
    · exact fun _ => rfl
  | toCreating p g =>
    show ∃ p g mayLeave target write, _ ∧ _ ∧ (r.transitionToCreating _ _).2 = _
    refine ⟨p, g, _, _, _, ?_, ?_, rfl⟩
    · exact fun _ => rfl
    · exact fun _ => rfl
  | toInviting p g =>
    show ∃ p g mayLeave target write, _ ∧ _ ∧ (r.transitionToInviting _ _).2 = _
    refine ⟨p, g, _, _, _, ?_, ?_, rfl⟩
    · exact fun _ => rfl
    · exact fun _ => rfl
  | invitingToBound p g =>
    show ∃ p g mayLeave target write, _ ∧ _ ∧ (r.transitionInvitingToBound _ _).2 = _
    refine ⟨p, g, _, _, _, ?_, ?_, rfl⟩
    · exact fun _ => rfl
    · exact fun _ => rfl
  | toUnboundAllPending p g =>
    show ∃ p g mayLeave target write, _ ∧ _ ∧ (r.transitionToUnboundAllPending _ _).2 = _
    refine ⟨p, g, _, _, _, ?_, ?_, rfl⟩
    · exact fun _ => rfl
    · exact fun _ => rfl
  | _ => exact hc.elim

section

variable (h : r.IsIndexed)
include h

theorem IsIndexed.registerBinding (b : GroupBinding) : (r.registerBinding b).2.IsIndexed := by
  rcases registerBinding_cases r b with ⟨⟨e, heq⟩, -⟩ | ⟨⟨hgroup, hdomain⟩, heq⟩
  · rw [heq]
    exact h
  · rw [heq]
    exact h.insert hgroup hdomain

theorem IsIndexed.transition {p g : String} {mayLeave : GroupState → Bool} {target : GroupState}
    {write : GroupBinding → GroupBinding}
    (hgroup : ∀ b, (write b).groupKey = b.groupKey)
    (hdomain : ∀ b, (write b).domainKey = b.domainKey) :
    (r.transition p g mayLeave target write).2.IsIndexed := by
  rcases transition_cases r p g mayLeave target write with ⟨e, heq⟩ | ⟨b, hb, heq⟩
  · rw [heq]
    exact h
  · rw [heq]
    exact h.update hb (hgroup b) (hdomain b)

theorem IsIndexed.remove {p g : String} {b : GroupBinding} (hb : r.lookupByGroup p g = some b) :
    (r.remove b p g).IsIndexed := h.erase hb

theorem IsIndexed.transitionToUnboundQuarantined (p g : String) (epoch : UInt64)
    (authority : UnbindAuthority) (window : UInt64) :
    (r.transitionToUnboundQuarantined p g epoch authority window).2.IsIndexed := by
  unfold GroupRegistry.transitionToUnboundQuarantined
  split
  next => exact h
  next b hb => exact h.remove hb

theorem IsIndexed.transitionToUnbound (p g : String) :
    (r.transitionToUnbound p g).2.IsIndexed := by
  unfold GroupRegistry.transitionToUnbound
  split
  next => exact h
  next b hb => exact h.remove hb

theorem IsIndexed.restoreFromQuarantine (m d : Bytes32) (p : String) (epoch : UInt64) :
    (r.restoreFromQuarantine m d p epoch).2.IsIndexed := by
  have htaken : (r.takeQuarantined (domainKeyOf m d p)).IsIndexed := h
  rcases restoreFromQuarantine_cases r m d p epoch with ⟨-, heq⟩ | ⟨entry, -, ⟨⟨e, heq⟩, -⟩ | ⟨-, heq⟩⟩
  · rw [heq]
    exact h
  · rw [heq]
    exact htaken
  · rw [heq]
    exact htaken.registerBinding _

theorem IsIndexed.call_of_inPlace {c : Call} (hc : c.InPlace) : (r.call c).2.IsIndexed := by
  obtain ⟨p, g, mayLeave, target, write, hgroup, hdomain, heq⟩ :=
    GroupRegistry.call_of_inPlace r hc
  rw [heq]
  exact h.transition hgroup hdomain

/-- Every call keeps the maps together. -/
theorem IsIndexed.call (c : Call) : (r.call c).2.IsIndexed := by
  cases c with
  | register b => exact h.registerBinding b
  | toUnboundQuarantined p g epoch authority window =>
    exact h.transitionToUnboundQuarantined p g epoch authority window
  | toUnbound p g => exact h.transitionToUnbound p g
  | toUnboundAllDone p g => exact h.transitionToUnbound p g
  | restore m d p epoch => exact h.restoreFromQuarantine m d p epoch
  -- the others write neither map
  | gcQuarantine epoch => exact h
  | tryIncrementRejoin n max =>
    show (r.tryIncrementRejoin n max).2.IsIndexed
    rw [tryIncrementRejoin_snd]
    exact h
  | resetRejoin n => exact h
  | registerPendingInvite i => exact h
  | removePendingInvite i => exact h
  | gcPendingInvites epoch => exact h
  | _ => exact h.call_of_inPlace trivial

end

theorem isIndexed_final (calls : List Call) : (final call new calls).IsIndexed :=
  run_induct (fun _ (r : GroupRegistry) => r.IsIndexed) IndexedTable.empty
    (fun _ _ c hs => hs.call c) calls

/-- What the registry says of its bindings: both lookups find them, no two share a group or a
triple, and what is registered clashes with none. -/
structure Consistent (r : GroupRegistry) : Prop where
  byGroup : ∀ p g b, r.lookupByGroup p g = some b ↔
    b ∈ r.bindings.values ∧ b.platform = p ∧ b.groupJid = g
  byDomain : ∀ m d p b, r.lookupByDomain m d p = some b ↔
    b ∈ r.bindings.values ∧ b.missionId = m ∧ b.domainId = d ∧ b.platform = p
  noDangling : ∀ m d p, (r.domainIndex.lookup (domainKeyOf m d p)).isSome →
    (r.lookupByDomain m d p).isSome
  registers : ∀ b, (r.registerBinding b).1 = .ok () ↔
    ∀ b' ∈ r.bindings.values, b'.groupKey ≠ b.groupKey ∧ b'.domainKey ≠ b.domainKey
  alreadyBound : ∀ b, (r.registerBinding b).1 = .error (.alreadyBound b.platform b.groupJid) ↔
    ∃ b' ∈ r.bindings.values, b'.groupKey = b.groupKey

/-- What a binding has to be free of. -/
theorem IsIndexed.free_iff (h : r.IsIndexed) (b : GroupBinding) :
    r.Free b ↔
      ∀ b' ∈ r.bindings.values, b'.groupKey ≠ b.groupKey ∧ b'.domainKey ≠ b.domainKey := by
  rw [Free, h.lookup_eq_none_iff, h.reverse_eq_none_iff]
  simp only [mem_rowsOf_iff_mem_values]
  exact ⟨fun hfree b' hb' => ⟨hfree.1 b' hb', hfree.2 b' hb'⟩,
    fun hfree => ⟨fun b' hb' => (hfree b' hb').1, fun b' hb' => (hfree b' hb').2⟩⟩

theorem IsIndexed.consistent (h : r.IsIndexed) : r.Consistent where
  byGroup p g b := by
    rw [← groupKeyOf_eq_iff, ← mem_rowsOf_iff_mem_values]
    exact h.mem_rows_of_lookup
  byDomain m d p b := by
    rw [← domainKeyOf_eq_iff, ← mem_rowsOf_iff_mem_values]
    exact h.mem_rows_iff_index
  noDangling m d p hsome := by
    obtain ⟨k, hk⟩ := Option.isSome_iff_exists.mp hsome
    obtain ⟨b, hb, -⟩ := h.reverse_iff.mp hk
    have hlookup : r.lookupByDomain m d p = some b := Option.bind_eq_some_iff.mpr ⟨k, hk, hb⟩
    rw [hlookup]
    rfl
  registers b := by
    rw [← h.free_iff]
    rcases registerBinding_cases r b with ⟨⟨e, heq⟩, hclash⟩ | ⟨hfree, heq⟩
    · rw [heq]
      exact iff_of_false (fun hok => nomatch hok) hclash
    · rw [heq]
      exact iff_of_true rfl hfree
  alreadyBound b := by
    unfold GroupRegistry.registerBinding
    have htaken : (r.bindings.lookup b.groupKey).isSome ↔
        ∃ b' ∈ r.bindings.values, b'.groupKey = b.groupKey := by
      rw [Option.isSome_iff_exists]
      refine exists_congr fun b' => ?_
      rw [← mem_rowsOf_iff_mem_values]
      exact h.mem_rows_of_lookup
    rw [← htaken]
    split
    -- the group is looked at before the triple
    next hsome => exact iff_of_true rfl hsome
    next hnone =>
      refine iff_of_false (fun heq => ?_) hnone
      split at heq
      next => cases heq
      next => cases heq

/-- **The directory.** After any calls, a binding is found by its group and by its triple, and
by no other; a registration is accepted iff it clashes with no binding in either. -/
theorem directory_consistent (calls : List Call) : (final call new calls).Consistent :=
  (isIndexed_final calls).consistent

end

/-! ## Quarantine -/

/-- The call moves a binding into the entry. -/
def Quarantines (key : DomainKey) (entry : UnboundQuarantineEntry) (r : GroupRegistry) :
    Call → Prop
  | .toUnboundQuarantined p g epoch authority window =>
    ∃ b, r.lookupByGroup p g = some b ∧ b.domainKey = key ∧ entry = ⟨epoch, window, b, authority⟩
  | _ => False

/-- The call leaves the entry in quarantine: it restores another triple, is not too late for it,
and quarantines no other group of its triple. -/
def Spares (key : DomainKey) (entry : UnboundQuarantineEntry) (r : GroupRegistry) : Call → Prop
  | .toUnboundQuarantined p g _ _ _ => ∀ b, r.lookupByGroup p g = some b → b.domainKey ≠ key
  | .restore m d p _ => domainKeyOf m d p ≠ key
  | .gcQuarantine epoch => epoch.toNat < entry.expiry
  | _ => True

section

variable {r : GroupRegistry} {key : DomainKey} {entry : UnboundQuarantineEntry}

/-- A registration writes nothing but the two maps. -/
theorem registerBinding_eq (r : GroupRegistry) (b : GroupBinding) :
    ∃ bindings index, (r.registerBinding b).2 =
      { r with bindings := bindings, domainIndex := index } := by
  rcases registerBinding_cases r b with ⟨⟨e, heq⟩, -⟩ | ⟨-, heq⟩
  · exact ⟨_, _, congrArg Prod.snd heq⟩
  · exact ⟨_, _, congrArg Prod.snd heq⟩

/-- The calls that write nothing but the two maps. -/
def Call.OnlyMaps (c : Call) : Prop :=
  c.InPlace ∨ match c with
    | .register _ | .toUnbound _ _ | .toUnboundAllDone _ _ => True
    | _ => False

theorem call_of_onlyMaps (r : GroupRegistry) {c : Call} (hc : c.OnlyMaps) :
    ∃ bindings index, (r.call c).2 = { r with bindings := bindings, domainIndex := index } := by
  have hunbound : ∀ p g, ∃ bindings index,
      (r.transitionToUnbound p g).2 = { r with bindings := bindings, domainIndex := index } := by
    intro p g
    unfold transitionToUnbound
    split
    next => exact ⟨_, _, rfl⟩
    next => exact ⟨_, _, rfl⟩
  rcases hc with hplace | hother
  · obtain ⟨p, g, mayLeave, target, write, -, -, heq⟩ := call_of_inPlace r hplace
    rw [heq]
    rcases transition_cases r p g mayLeave target write with ⟨e, heq⟩ | ⟨b, -, heq⟩
    · exact ⟨_, _, congrArg Prod.snd heq⟩
    · exact ⟨_, _, congrArg Prod.snd heq⟩
  · cases c with
    | register b => exact registerBinding_eq r b
    | toUnbound p g => exact hunbound p g
    | toUnboundAllDone p g => exact hunbound p g
    | _ => exact hother.elim

theorem unboundQuarantine_call_of_onlyMaps (r : GroupRegistry) {c : Call} (hc : c.OnlyMaps) :
    (r.call c).2.unboundQuarantine = r.unboundQuarantine := by
  obtain ⟨bindings, index, heq⟩ := call_of_onlyMaps r hc
  rw [heq]

theorem rejoinAttempts_call_of_onlyMaps (r : GroupRegistry) {c : Call} (hc : c.OnlyMaps) :
    (r.call c).2.rejoinAttempts = r.rejoinAttempts := by
  obtain ⟨bindings, index, heq⟩ := call_of_onlyMaps r hc
  rw [heq]

/-- A restoration, whatever its answer, takes the entry out and no other. -/
theorem unboundQuarantine_restoreFromQuarantine (r : GroupRegistry) (m d : Bytes32) (p : String)
    (epoch : UInt64) :
    (r.restoreFromQuarantine m d p epoch).2.unboundQuarantine =
      r.unboundQuarantine.erase (domainKeyOf m d p) := by
  rcases restoreFromQuarantine_cases r m d p epoch with
    ⟨hnone, heq⟩ | ⟨entry, -, ⟨⟨e, heq⟩, -⟩ | ⟨-, heq⟩⟩
  · rw [heq]
    exact (SortedMap.erase_of_lookup_eq_none hnone).symm
  · rw [heq]
    rfl
  · obtain ⟨bindings, index, hregister⟩ :=
      registerBinding_eq (r.takeQuarantined (domainKeyOf m d p)) (entry.restored epoch)
    rw [heq, hregister]
    rfl

theorem lookup_transitionToUnboundQuarantined {p g : String} {epoch : UInt64}
    {authority : UnbindAuthority} {window : UInt64} :
    (r.transitionToUnboundQuarantined p g epoch authority window).2.unboundQuarantine.lookup key =
        some entry ↔
      Quarantines key entry r (.toUnboundQuarantined p g epoch authority window) ∨
        r.unboundQuarantine.lookup key = some entry ∧
          Spares key entry r (.toUnboundQuarantined p g epoch authority window) := by
  unfold transitionToUnboundQuarantined Quarantines Spares
  split
  next hnone => simp [hnone]
  next b hb =>
    simp only [hb, Option.some.injEq, exists_eq_left', forall_eq']
    rw [SortedMap.lookup_insert]
    split
    -- a second quarantine of the triple takes the place of the first
    next heq =>
      rw [Option.some.injEq]
      constructor
      · intro hentry
        exact .inl ⟨heq.symm, hentry.symm⟩
      · rintro (⟨-, hentry⟩ | ⟨-, hne⟩)
        · exact hentry.symm
        · exact absurd heq.symm hne
    next hne =>
      constructor
      · intro hold
        exact .inr ⟨hold, fun heq => hne heq.symm⟩
      · rintro (⟨heq, -⟩ | ⟨hold, -⟩)
        · exact absurd heq.symm hne
        · exact hold

/-- What a call does to an entry in quarantine. -/
theorem lookup_call (r : GroupRegistry) (c : Call) :
    (r.call c).2.unboundQuarantine.lookup key = some entry ↔
      Quarantines key entry r c ∨
        r.unboundQuarantine.lookup key = some entry ∧ Spares key entry r c := by
  -- a call that leaves the quarantine alone neither moves nor takes an entry
  have hframe : ∀ {next : GroupRegistry}, next.unboundQuarantine = r.unboundQuarantine →
      (next.unboundQuarantine.lookup key = some entry ↔
        False ∨ r.unboundQuarantine.lookup key = some entry ∧ True) := by
    intro next heq
    rw [heq, false_or, and_true]
  cases c with
  | toUnboundQuarantined p g epoch authority window => exact lookup_transitionToUnboundQuarantined
  | restore m d p epoch =>
    show (r.restoreFromQuarantine m d p epoch).2.unboundQuarantine.lookup key = some entry ↔
      False ∨ r.unboundQuarantine.lookup key = some entry ∧ domainKeyOf m d p ≠ key
    rw [unboundQuarantine_restoreFromQuarantine, SortedMap.lookup_erase, false_or]
    split
    next heq => exact iff_of_false (by simp) fun hboth => hboth.2 heq.symm
    next hne => exact (and_iff_left fun heq => hne heq.symm).symm
  | gcQuarantine epoch =>
    show (r.unboundQuarantine.retain _).lookup key = some entry ↔
      False ∨ r.unboundQuarantine.lookup key = some entry ∧ epoch.toNat < entry.expiry
    rw [SortedMap.lookup_retain, Option.filter_eq_some_iff, false_or, decide_eq_true_eq]
  | tryIncrementRejoin n max =>
    refine hframe ?_
    show (r.tryIncrementRejoin n max).2.unboundQuarantine = _
    rw [tryIncrementRejoin_snd]
  | resetRejoin n => exact hframe rfl
  | registerPendingInvite i => exact hframe rfl
  | removePendingInvite i => exact hframe rfl
  | gcPendingInvites epoch => exact hframe rfl
  | register b => exact hframe (unboundQuarantine_call_of_onlyMaps r (.inr trivial))
  | toUnbound p g => exact hframe (unboundQuarantine_call_of_onlyMaps r (.inr trivial))
  | toUnboundAllDone p g => exact hframe (unboundQuarantine_call_of_onlyMaps r (.inr trivial))
  | _ => exact hframe (unboundQuarantine_call_of_onlyMaps r (.inl trivial))

/-- What is in quarantine was moved there, and has been spared since. -/
theorem lookup_final_iff (past : List Call) :
    (final call new past).unboundQuarantine.lookup key = some entry ↔
      Since call (Quarantines key entry) (Spares key entry) new past :=
  @since_iff_of_not _ _ _ _ (fun r : GroupRegistry => r.unboundQuarantine.lookup key = some entry)
    _ _ lookup_call _ (by intro hnew; cases hnew) past

/-- An entry is under the triple of its binding. -/
theorem domainKey_of_since {past : List Call}
    (h : Since call (Quarantines key entry) (Spares key entry) new past) :
    entry.originalBinding.domainKey = key := by
  obtain ⟨before, c, after, -, hmoves, -⟩ := h
  cases c with
  | toUnboundQuarantined p g epoch authority window =>
    obtain ⟨b, -, hkey, rfl⟩ := hmoves
    exact hkey
  | _ => exact hmoves.elim

end

/-- **Restoring.** A rejoin restores a binding iff a quarantine moved it out of the registry,
every call since has spared it, its window has not passed, and neither its group nor its triple
has been taken meanwhile. Whatever the answer, the next rejoin finds no entry. -/
theorem restore_ok_iff (past : List Call) (m d : Bytes32) (p : String) (epoch : UInt64)
    (b : GroupBinding) :
    (((final call new past).restoreFromQuarantine m d p epoch).1 = .ok b ↔
      ∃ entry, Since call (Quarantines (domainKeyOf m d p) entry)
          (Spares (domainKeyOf m d p) entry) new past ∧
        epoch.toNat < entry.expiry ∧ b = entry.restored epoch ∧
        ∀ b' ∈ (final call new past).bindings.values,
          b'.groupKey ≠ b.groupKey ∧ b'.domainKey ≠ domainKeyOf m d p) ∧
    ((final call new past).restoreFromQuarantine m d p epoch).2.lookupQuarantine m d p = none := by
  have hindexed := isIndexed_final past
  have hheld : ∀ entry, (final call new past).unboundQuarantine.lookup (domainKeyOf m d p) =
      some entry ↔ Since call (Quarantines (domainKeyOf m d p) entry)
        (Spares (domainKeyOf m d p) entry) new past := fun entry => lookup_final_iff past
  -- from here on the run matters only through what it has left
  generalize final call new past = r at hindexed hheld ⊢
  constructor
  · constructor
    · intro hok
      rcases restoreFromQuarantine_cases r m d p epoch with
        ⟨-, heq⟩ | ⟨entry, hentry, ⟨⟨e, heq⟩, -⟩ | ⟨⟨hlive, hfree⟩, heq⟩⟩
      · rw [heq] at hok
        cases hok
      · rw [heq] at hok
        cases hok
      · rw [heq] at hok
        cases hok
        have hsince := (hheld entry).mp hentry
        refine ⟨entry, hsince, hlive, rfl, ?_⟩
        rw [← domainKey_of_since hsince]
        exact (hindexed.free_iff _).mp hfree
    · rintro ⟨entry, hsince, hlive, rfl, hfree⟩
      rw [← domainKey_of_since hsince] at hfree
      rcases restoreFromQuarantine_cases r m d p epoch with
        ⟨hnone, -⟩ | ⟨entry', hentry, ⟨-, hbad⟩ | ⟨-, heq⟩⟩
      · rw [lookupQuarantine, (hheld entry).mpr hsince] at hnone
        cases hnone
      · rw [lookupQuarantine, (hheld entry).mpr hsince, Option.some.injEq] at hentry
        rw [← hentry] at hbad
        exact absurd ⟨hlive, (hindexed.free_iff _).mpr hfree⟩ hbad
      · rw [lookupQuarantine, (hheld entry).mpr hsince, Option.some.injEq] at hentry
        rw [heq, hentry]
  · rw [lookupQuarantine, unboundQuarantine_restoreFromQuarantine, SortedMap.lookup_erase,
      if_pos rfl]

/-! ## Attempts to rejoin -/

/-- The attempts of a node since its last reset. -/
def attemptsSinceReset (nodeId : Bytes32) (past : List Call) : Nat :=
  past.foldl (fun k c => match c with
    | .tryIncrementRejoin n _ => if n = nodeId then k + 1 else k
    | .resetRejoin n => if n = nodeId then 0 else k
    | _ => k) 0

theorem attemptsSinceReset_concat (n : Bytes32) (past : List Call) (c : Call) :
    attemptsSinceReset n (past ++ [c]) = match c with
      | .tryIncrementRejoin n' _ =>
        if n' = n then attemptsSinceReset n past + 1 else attemptsSinceReset n past
      | .resetRejoin n' => if n' = n then 0 else attemptsSinceReset n past
      | _ => attemptsSinceReset n past := List.foldl_concat ..

/-- The counter of a node. -/
def rejoinCount (r : GroupRegistry) (nodeId : Bytes32) : Nat :=
  (r.rejoinAttempts.lookup nodeId).getD 0

/-- What a call does to the counter of a node. -/
theorem rejoinCount_call (r : GroupRegistry) (n : Bytes32) (c : Call) :
    (r.call c).2.rejoinCount n = match c with
      | .tryIncrementRejoin n' _ =>
        if n' = n then min (r.rejoinCount n + 1) (2 ^ 16 - 1) else r.rejoinCount n
      | .resetRejoin n' => if n' = n then 0 else r.rejoinCount n
      | _ => r.rejoinCount n := by
  have hframe : ∀ {next : GroupRegistry}, next.rejoinAttempts = r.rejoinAttempts →
      next.rejoinCount n = r.rejoinCount n := by
    intro next heq
    rw [rejoinCount, heq, rejoinCount]
  cases c with
  | tryIncrementRejoin n' max =>
    show (r.tryIncrementRejoin n' max).2.rejoinCount n = _
    rw [tryIncrementRejoin_snd, rejoinCount]
    simp only [SortedMap.lookup_insert, eq_comm (a := n)]
    split
    next heq =>
      rw [Option.getD_some, heq]
      rfl
    next => rfl
  | resetRejoin n' =>
    show ((r.rejoinAttempts.erase n').lookup n).getD 0 = _
    simp only [SortedMap.lookup_erase, eq_comm (a := n)]
    split
    next => rfl
    next => rfl
  | restore m d p epoch =>
    refine hframe ?_
    show (r.restoreFromQuarantine m d p epoch).2.rejoinAttempts = r.rejoinAttempts
    rcases restoreFromQuarantine_cases r m d p epoch with
      ⟨-, heq⟩ | ⟨entry, -, ⟨⟨e, heq⟩, -⟩ | ⟨-, heq⟩⟩
    · rw [heq]
    · rw [heq]
      rfl
    · obtain ⟨bindings, index, hregister⟩ :=
        registerBinding_eq (r.takeQuarantined (domainKeyOf m d p)) (entry.restored epoch)
      rw [heq, hregister]
      rfl
  | toUnboundQuarantined p g epoch authority window =>
    refine hframe ?_
    show (r.transitionToUnboundQuarantined p g epoch authority window).2.rejoinAttempts = _
    unfold transitionToUnboundQuarantined
    split
    next => rfl
    next => rfl
  | gcQuarantine epoch => exact hframe rfl
  | registerPendingInvite i => exact hframe rfl
  | removePendingInvite i => exact hframe rfl
  | gcPendingInvites epoch => exact hframe rfl
  | register b => exact hframe (rejoinAttempts_call_of_onlyMaps r (.inr trivial))
  | toUnbound p g => exact hframe (rejoinAttempts_call_of_onlyMaps r (.inr trivial))
  | toUnboundAllDone p g => exact hframe (rejoinAttempts_call_of_onlyMaps r (.inr trivial))
  | _ => exact hframe (rejoinAttempts_call_of_onlyMaps r (.inl trivial))

/-- The counter is the number of attempts, as far as sixteen bits go. -/
theorem rejoinCount_final (n : Bytes32) (past : List Call) :
    (final call new past).rejoinCount n = min (attemptsSinceReset n past) (2 ^ 16 - 1) := by
  induction past using List.reverseRecOn with
  | nil => rfl
  | append_singleton past c ih =>
    rw [final_append, attemptsSinceReset_concat]
    show ((final call new past).call c).2.rejoinCount n = _
    rw [rejoinCount_call]
    cases c with
    | tryIncrementRejoin n' max =>
      simp only
      split
      next =>
        rw [ih]
        omega
      next => exact ih
    | resetRejoin n' =>
      simp only
      split
      next => rfl
      next => exact ih
    | _ => exact ih

/-- **The budget.** An attempt to rejoin is granted iff the attempts since the node's last reset,
granted or not and this one included, are within its budget, counted up to 65535; nothing else
that happens to the registry is counted or forgives. -/
theorem rejoin_granted_iff (past : List Call) (n : Bytes32) (max : UInt16) (k : Nat) :
    ((final call new past).tryIncrementRejoin n max).1 = .ok k ↔
      k = min (attemptsSinceReset n past + 1) (2 ^ 16 - 1) ∧ k ≤ max.toNat := by
  have hcount := rejoinCount_final n past
  rw [rejoinCount] at hcount
  unfold tryIncrementRejoin
  rw [hcount]
  -- the counter saturates, and so does its successor
  have hmin : min (min (attemptsSinceReset n past) (2 ^ 16 - 1) + 1) (2 ^ 16 - 1) =
      min (attemptsSinceReset n past + 1) (2 ^ 16 - 1) := by omega
  rw [hmin]
  simp only
  split
  next hover =>
    refine iff_of_false (fun heq => nomatch heq) ?_
    rintro ⟨rfl, hle⟩
    omega
  next hwithin =>
    rw [Except.ok.injEq]
    constructor
    · rintro rfl
      exact ⟨rfl, Nat.not_lt.mp hwithin⟩
    · rintro ⟨rfl, -⟩
      rfl

end GroupRegistry

end CipherOcto.Network
