import CipherOcto.Lib.PairTree
import CipherOcto.Lib.SortBy
import CipherOcto.Router.Keys
import Mathlib.Data.String.Basic

/-!
# The Merkle tree over spend events

The events of a tenant are sorted by their ids; a leaf is the hash of an id and a cost,
a node the hash of two hashes, and a level of odd length has its last node twice. Leaves
and nodes have no tag. But an id of 64 characters makes a leaf of 72 bytes, and a node is
hashed over 64, so where SHA-256 does not collide the root is that of a hash tree whose
leaves are told from its nodes:

> `spend_root_binds_events`: equal roots, equal sets of ids and costs.

The order of the list is forgotten by the sort, whatever the hash is
(`buildMerkleTree_of_perm`).
-/

namespace CipherOcto.Router

open Encoding PairTree

/-! ## The code -/

/-- `MerkleNode`. -/
structure MerkleNode where
  hash : Bytes32
  left : Option MerkleNode
  right : Option MerkleNode

/-- What a leaf is the hash of. -/
def leafInput (eventId : String) (costAmount : UInt64) : List UInt8 :=
  asBytes eventId ++ Bytes.toLe 8 costAmount.toNat

/-- What a node is the hash of. -/
def parentInput (left right : Bytes32) : List UInt8 := left.toList ++ right.toList

section

variable (sha256 : List UInt8 → Bytes32)

def leafNode (e : SpendEvent) : MerkleNode := ⟨sha256 (leafInput e.eventId e.costAmount), none, none⟩

def parentNode (pair : MerkleNode × MerkleNode) : MerkleNode :=
  ⟨sha256 (parentInput pair.1.hash pair.2.hash), some pair.1, some pair.2⟩

/-- An odd level gets its last node once more. -/
def padLevel (nodes : List MerkleNode) : List MerkleNode :=
  if nodes.length % 2 ≠ 0 then nodes ++ nodes.getLast?.toList else nodes

/-- The parents of `nodes.chunks(2)`. -/
def pairLevel : List MerkleNode → List MerkleNode
  | left :: right :: nodes => parentNode sha256 (left, right) :: pairLevel nodes
  -- not reached: a padded level is even
  | _ => []

theorem pairLevel_padLevel : ∀ nodes : List MerkleNode,
    pairLevel sha256 (padLevel nodes) = up (parentNode sha256) nodes
  | [] => rfl
  | [_] => rfl
  | left :: right :: nodes => by
    have ih := pairLevel_padLevel nodes
    have hpad : padLevel (left :: right :: nodes) = left :: right :: padLevel nodes := by
      unfold padLevel
      rw [List.length_cons, List.length_cons, Nat.add_assoc, Nat.add_mod_right]
      split
      next hodd =>
        have hne : nodes ≠ [] := fun hnil => hodd (by rw [hnil]; rfl)
        rw [List.cons_append, List.cons_append, List.getLast?_cons_cons,
          List.getLast?_cons_of_ne_nil hne]
      next => rfl
    rw [hpad, pairLevel, ih]
    rfl

/-- The loop of `build_merkle_tree`. Its levels are never empty. -/
def buildLevels (nodes : List MerkleNode) : Option MerkleNode :=
  if 1 < nodes.length then buildLevels (pairLevel sha256 (padLevel nodes)) else nodes.head?
termination_by nodes.length
decreasing_by
  rw [pairLevel_padLevel, length_up]
  omega

/-- `build_merkle_tree`. -/
def buildMerkleTree (events : List SpendEvent) : Option MerkleNode :=
  if events = [] then none
  else buildLevels sha256 ((sortBy (fun e => e.eventId) events).map (leafNode sha256))

/-- What the audit says of an event. -/
def SpendEvent.audited (e : SpendEvent) : String × UInt64 := (e.eventId, e.costAmount)

/-- The leaves of the tree, in order. -/
def auditedLeaves (events : List SpendEvent) : List (String × UInt64) :=
  sortBy Prod.fst (events.map SpendEvent.audited)

/-- The strings hashed on the way to the root. -/
def treeInputs (events : List SpendEvent) : List (List UInt8) :=
  messages sha256 (fun a => leafInput a.1 a.2) (fun p => parentInput p.1 p.2) (auditedLeaves events)

end

/-- An id of 64 hexadecimal digits. -/
def IsHexId (id : String) : Prop :=
  id.toList.length = 64 ∧ ∀ c ∈ id.toList, (Hex.value c).isSome

instance (id : String) : Decidable (IsHexId id) := inferInstanceAs (Decidable (_ ∧ _))

/-- Ids of 64 digits, none of them twice. -/
structure DistinctHexIds (events : List SpendEvent) : Prop where
  hex : ∀ e ∈ events, IsHexId e.eventId
  nodup : (events.map fun e => e.eventId).Nodup

variable {sha256 : List UInt8 → Bytes32}

/-! ## The tree and its hashes -/

/-- The loop climbs the whole tree. -/
theorem buildLevels_eq_climb (nodes : List MerkleNode) :
    buildLevels sha256 nodes = (climb (parentNode sha256) (depth nodes) nodes).head? := by
  unfold buildLevels
  split
  next hlong =>
    rw [buildLevels_eq_climb (pairLevel sha256 (padLevel nodes)), pairLevel_padLevel,
      climb_depth_of_one_lt hlong]
  next hshort => rw [climb_depth_of_le_one (not_lt.mp hshort)]
termination_by nodes.length
decreasing_by
  rw [pairLevel_padLevel, length_up]
  omega

theorem map_audited_sortBy (events : List SpendEvent) :
    (sortBy (fun e => e.eventId) events).map SpendEvent.audited = auditedLeaves events :=
  map_sortBy SpendEvent.audited Prod.fst events

/-- The root carries the hash that stands above the audited leaves. -/
theorem exists_root (sha256 : List UInt8 → Bytes32) {events : List SpendEvent} (h : events ≠ []) :
    ∃ root, buildMerkleTree sha256 events = some root ∧
      rootLevel sha256 (fun a => leafInput a.1 a.2) (fun p => parentInput p.1 p.2)
        (auditedLeaves events) = [root.hash] := by
  let sorted := sortBy (fun e => e.eventId) events
  let nodes := sorted.map (leafNode sha256)
  have hsorted : sorted ≠ [] := by
    intro hnil
    have hlen := (sortBy_perm (fun e : SpendEvent => e.eventId) events).length_eq
    rw [show sortBy (fun e => e.eventId) events = [] from hnil] at hlen
    exact h (List.eq_nil_of_length_eq_zero hlen.symm)
  have hnodes : nodes ≠ [] := List.map_eq_nil_iff.not.mpr hsorted
  obtain ⟨root, hroot⟩ := List.length_eq_one_iff.mp
    (length_climb_depth hnodes : (climb (parentNode sha256) (depth nodes) nodes).length = 1)
  refine ⟨root, ?_, ?_⟩
  · rw [buildMerkleTree, if_neg h, buildLevels_eq_climb, hroot]
    rfl
  · have hhash : nodes.map MerkleNode.hash =
        (auditedLeaves events).map fun a => sha256 (leafInput a.1 a.2) := by
      rw [← map_audited_sortBy, List.map_map, List.map_map]
      rfl
    have hdepth : depth nodes = depth (auditedLeaves events) := by
      rw [← depth_map MerkleNode.hash nodes, hhash, depth_map]
    rw [rootLevel, ← hhash, ← hdepth,
      climb_map (fun p => rfl : ∀ p, (parentNode sha256 p).hash = _), hroot]
    rfl

/-- Events that share no id are told apart by them, and the order of the list is forgotten. -/
theorem buildMerkleTree_of_perm {xs ys : List SpendEvent}
    (hnodup : (xs.map fun e => e.eventId).Nodup) (h : xs.Perm ys) :
    buildMerkleTree sha256 xs = buildMerkleTree sha256 ys := by
  have hids : Set.InjOn (fun e : SpendEvent => e.eventId) {e | e ∈ xs} :=
    fun _ ha _ hb heq => List.inj_on_of_nodup_map hnodup ha hb heq
  have hnil : xs = [] ↔ ys = [] := by
    rw [← List.length_eq_zero_iff, h.length_eq, List.length_eq_zero_iff]
  rw [buildMerkleTree, buildMerkleTree, sortBy_congr hids h]
  simp only [hnil]

/-! ## Binding -/

theorem IsHexId.length_asBytes {id : String} (h : IsHexId id) : (asBytes id).length = 64 := by
  have hascii : ∀ c ∈ id.toList, c.toNat < 128 := by
    intro c hc
    have hdigit := h.2 c hc
    unfold Hex.value at hdigit
    split_ifs at hdigit <;> first | omega | exact absurd hdigit (by simp)
  have hlen := Hex.length_toUTF8_of_ascii hascii
  rwa [String.ofList_toList, h.1] at hlen

/-- A leaf is hashed over 72 bytes. -/
theorem length_leafInput {id : String} (h : IsHexId id) (cost : UInt64) :
    (leafInput id cost).length = 72 := by
  rw [leafInput, List.length_append, h.length_asBytes, Bytes.length_toLe]

/-- A node is hashed over 64 bytes. -/
theorem length_parentInput (left right : Bytes32) : (parentInput left right).length = 64 := by
  rw [parentInput, List.length_append, Vector.length_toList, Vector.length_toList]

theorem leafInput_inj {a b : String × UInt64} (ha : IsHexId a.1) (hb : IsHexId b.1)
    (h : leafInput a.1 a.2 = leafInput b.1 b.2) : a = b := by
  obtain ⟨hid, hcost⟩ := List.append_inj h (by rw [ha.length_asBytes, hb.length_asBytes])
  exact Prod.ext (Bytes.toUTF8_toList_inj hid)
    (UInt64.toNat_inj.mp (toLe_inj a.2.toNat_lt b.2.toNat_lt hcost))

theorem parentInput_inj {p q : Bytes32 × Bytes32} (h : parentInput p.1 p.2 = parentInput q.1 q.2) :
    p = q := by
  obtain ⟨hleft, hright⟩ := Bytes.toList_append_inj h
  exact Prod.ext hleft (Vector.toList_inj.mp hright)

theorem mem_auditedLeaves {events : List SpendEvent} {a : String × UInt64} :
    a ∈ auditedLeaves events ↔ a ∈ events.map SpendEvent.audited := mem_sortBy

namespace DistinctHexIds

variable {xs ys : List SpendEvent}

theorem hex_of_mem {events : List SpendEvent} (h : DistinctHexIds events) {a : String × UInt64}
    (ha : a ∈ auditedLeaves events) : IsHexId a.1 := by
  obtain ⟨e, he, rfl⟩ := List.mem_map.mp (mem_auditedLeaves.mp ha)
  exact h.hex e he

theorem nodup_ids {events : List SpendEvent} (h : DistinctHexIds events) :
    ((events.map SpendEvent.audited).map Prod.fst).Nodup := by
  rw [List.map_map]
  exact h.nodup

theorem nodup_audited {events : List SpendEvent} (h : DistinctHexIds events) :
    (events.map SpendEvent.audited).Nodup := h.nodup_ids.of_map Prod.fst

/-- The sorted leaves are determined by their set. -/
theorem auditedLeaves_eq_iff (hxs : DistinctHexIds xs) (hys : DistinctHexIds ys) :
    auditedLeaves xs = auditedLeaves ys ↔
      ∀ a, a ∈ xs.map SpendEvent.audited ↔ a ∈ ys.map SpendEvent.audited := by
  refine ⟨fun h a => ?_, fun h => ?_⟩
  · rw [← mem_auditedLeaves, h, mem_auditedLeaves]
  · refine sortBy_congr ?_ ((List.perm_ext_iff_of_nodup hxs.nodup_audited hys.nodup_audited).mpr h)
    exact fun _ ha _ hb heq => List.inj_on_of_nodup_map hxs.nodup_ids ha hb heq

theorem nodup_auditedLeaves {events : List SpendEvent} (h : DistinctHexIds events) :
    (auditedLeaves events).Nodup := (sortBy_perm _ _).nodup_iff.mpr h.nodup_audited

end DistinctHexIds

theorem auditedLeaves_ne_nil {events : List SpendEvent} (h : events ≠ []) :
    auditedLeaves events ≠ [] := by
  obtain ⟨e, he⟩ := List.exists_mem_of_ne_nil _ h
  exact List.ne_nil_of_mem (mem_auditedLeaves.mpr (List.mem_map_of_mem he))

/-- **The root commits to the audited events.** Lists of distinct ids have equal roots iff they
hold the same ids with the same costs, in whatever order. -/
theorem spend_root_binds_events (sha256 : List UInt8 → Bytes32) (xs ys : List SpendEvent)
    (hxs : xs ≠ []) (hys : ys ≠ []) (hxids : DistinctHexIds xs) (hyids : DistinctHexIds ys)
    (hinj : Set.InjOn sha256 {m | m ∈ treeInputs sha256 xs ++ treeInputs sha256 ys}) :
    (∃ r s, buildMerkleTree sha256 xs = some r ∧ buildMerkleTree sha256 ys = some s ∧
      (r.hash = s.hash ↔
        ∀ a, a ∈ xs.map SpendEvent.audited ↔ a ∈ ys.map SpendEvent.audited)) ∧
    (xs.Perm ys → buildMerkleTree sha256 xs = buildMerkleTree sha256 ys) := by
  obtain ⟨r, hr, hrlevel⟩ := exists_root sha256 hxs
  obtain ⟨s, hs, hslevel⟩ := exists_root sha256 hys
  refine ⟨⟨r, s, hr, hs, ?_⟩, buildMerkleTree_of_perm hxids.nodup⟩
  have hhex : ∀ a, a ∈ auditedLeaves xs ∨ a ∈ auditedLeaves ys → IsHexId a.1 :=
    fun a ha => ha.elim hxids.hex_of_mem hyids.hex_of_mem
  have hbind : rootLevel sha256 (fun a => leafInput a.1 a.2) (fun p => parentInput p.1 p.2)
        (auditedLeaves xs) =
      rootLevel sha256 (fun a => leafInput a.1 a.2) (fun p => parentInput p.1 p.2)
        (auditedLeaves ys) ↔ complete (auditedLeaves xs) = complete (auditedLeaves ys) := by
    refine root_eq_iff (auditedLeaves_ne_nil hxs) (auditedLeaves_ne_nil hys) ?_ ?_ ?_ hinj
    · exact fun a ha b hb heq => leafInput_inj (hhex a ha) (hhex b hb) heq
    · exact fun _ _ heq => parentInput_inj heq
    · -- a leaf is eight bytes longer than a node
      intro a ha p heq
      have hlen := congrArg List.length heq
      rw [length_leafInput (hhex a ha), length_parentInput] at hlen
      omega
  have hcomplete : complete (auditedLeaves xs) = complete (auditedLeaves ys) ↔
      auditedLeaves xs = auditedLeaves ys := by
    refine ⟨fun h => ?_, congrArg _⟩
    exact eq_of_complete_eq_of_nodup h hxids.nodup_auditedLeaves hyids.nodup_auditedLeaves
  rw [← List.singleton_inj, ← hrlevel, ← hslevel, hbind, hcomplete,
    hxids.auditedLeaves_eq_iff hyids]

/-- An event of the sample audit: an id of one digit, written 64 times. -/
def auditEvent (digit : Char) (cost : UInt64) : SpendEvent where
  requestId := "req-001"
  keyId := Vector.replicate 16 0
  provider := "openai"
  model := "gpt-4"
  inputTokens := 100
  outputTokens := 50
  pricingHash := Vector.replicate 32 0
  tokenSource := .providerUsage
  eventId := String.ofList (List.replicate 64 digit)
  teamId := none
  costAmount := cost
  tokenizerVersion := none
  providerUsageJson := none
  timestamp := 0

def digestA : Bytes32 :=
  #v[31, 21, 238, 114, 76, 202, 22, 132, 130, 114, 207, 210, 139, 223, 64, 226,
    167, 111, 5, 82, 206, 170, 96, 161, 193, 177, 90, 8, 145, 36, 50, 237]

def digestB : Bytes32 :=
  #v[145, 153, 29, 119, 224, 182, 129, 200, 85, 203, 133, 25, 56, 200, 142, 174,
    163, 36, 170, 243, 223, 201, 157, 29, 208, 13, 100, 255, 241, 25, 5, 30]

def digestAB : Bytes32 :=
  #v[66, 108, 86, 113, 213, 189, 144, 187, 96, 191, 191, 73, 28, 23, 78, 181,
    181, 22, 103, 94, 203, 92, 126, 68, 135, 141, 240, 17, 46, 180, 159, 147]

/-- SHA-256 on the two leaves of the sample audit and on the node over them. -/
def auditSha256 (m : List UInt8) : Bytes32 :=
  (List.lookup m [(leafInput (auditEvent 'a' 7).eventId 7, digestA),
    (leafInput (auditEvent 'b' 9).eventId 9, digestB),
    (parentInput digestA digestB, digestAB)]).getD (Vector.replicate 32 0)

theorem isHexId_auditEvent {digit : Char} (h : (Hex.value digit).isSome) (cost : UInt64) :
    IsHexId (auditEvent digit cost).eventId := by
  refine ⟨?_, fun c hc => ?_⟩
  · rw [auditEvent, String.toList_ofList, List.length_replicate]
  · rw [auditEvent, String.toList_ofList] at hc
    rwa [List.eq_of_mem_replicate hc]

theorem spend_root_binds_events_one_two :
    ∃ r s, buildMerkleTree auditSha256 [auditEvent 'b' 9, auditEvent 'a' 7] = some r ∧
      buildMerkleTree auditSha256 [auditEvent 'a' 7] = some s ∧ r.hash ≠ s.hash := by
  have hinputs : treeInputs auditSha256 [auditEvent 'b' 9, auditEvent 'a' 7] ++
        treeInputs auditSha256 [auditEvent 'a' 7] ⊆
      [leafInput (auditEvent 'a' 7).eventId 7, leafInput (auditEvent 'b' 9).eventId 9,
        parentInput digestA digestB] := by decide +kernel
  have hfree : ∀ m ∈ [leafInput (auditEvent 'a' 7).eventId 7, leafInput (auditEvent 'b' 9).eventId 9,
        parentInput digestA digestB], ∀ m' ∈ [leafInput (auditEvent 'a' 7).eventId 7,
        leafInput (auditEvent 'b' 9).eventId 9, parentInput digestA digestB],
      auditSha256 m = auditSha256 m' → m = m' := by decide +kernel
  have hidA : IsHexId (auditEvent 'a' 7).eventId := isHexId_auditEvent (by decide) 7
  have hidB : IsHexId (auditEvent 'b' 9).eventId := isHexId_auditEvent (by decide) 9
  obtain ⟨⟨r, s, hr, hs, hroots⟩, -⟩ := spend_root_binds_events auditSha256
    [auditEvent 'b' 9, auditEvent 'a' 7] [auditEvent 'a' 7] (List.cons_ne_nil _ _)
    (List.cons_ne_nil _ _)
    ⟨List.forall_mem_cons.mpr ⟨hidB, List.forall_mem_singleton.mpr hidA⟩, by decide +kernel⟩
    ⟨List.forall_mem_singleton.mpr hidA, List.nodup_singleton _⟩
    fun m hm m' hm' => hfree m (hinputs hm) m' (hinputs hm')
  refine ⟨r, s, hr, hs, fun heq => ?_⟩
  have hsame := (hroots.mp heq (auditEvent 'b' 9).audited).mp (List.mem_cons_self ..)
  exact absurd hsame (by decide +kernel)

end CipherOcto.Router
