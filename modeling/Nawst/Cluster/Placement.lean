import Nawst.Lib.FiniteMap
import Nawst.Core.Store

/-! Placements of vnodes on nodes and the lookups the request path makes in them.
The hash function is a parameter. -/
namespace Nawst.Cluster
open Lib.FiniteMap Nawst.Core

def vnodeCount : Nat := 1024

abbrev NodeID := String

structure VNode where
  id : UInt16
  token : UInt64
  primary : NodeID
  replicas : List NodeID
  deriving DecidableEq

structure Placement where
  epoch : UInt64
  vnodes : List VNode
  deriving DecidableEq

/-- A node with its score, lower being better, in exact arithmetic. -/
structure NodeInfo where
  id : NodeID
  score : Rat
  deriving DecidableEq

/-- A placement together with the nodes it was computed for. -/
structure ScoredPlacement extends Placement where
  nodes : List NodeInfo
  deriving DecidableEq

section Lookup
variable (hashKey : Key → UInt64)

/-- The high word of the product, which scales a hash to an index. -/
def vnodeIdx (token : UInt64) : Nat := token.toNat*vnodeCount/2^64

theorem vnodeIdx_lt (token : UInt64) : vnodeIdx token < vnodeCount := by
  have h := token.toNat_lt
  unfold vnodeIdx vnodeCount
  omega

namespace Placement

/-- The vnode of a key, in a placement that has all of them. -/
def vnodeForKey (p : Placement) (key : Key) : Option VNode :=
  if p.vnodes.length ≠ vnodeCount then none else p.vnodes[vnodeIdx (hashKey key)]?

def getNodesForKey (p : Placement) (key : Key) : NodeID × List NodeID :=
  match p.vnodeForKey hashKey key with
  | none => ("",[])
  | some v => (v.primary,v.replicas)

def getVNodeIDForKey (p : Placement) (key : Key) : UInt16 :=
  match p.vnodeForKey hashKey key with
  | none => 0
  | some v => v.id

end Placement

/-- Owner, replica and owner's name, for a node that may have no placement yet. -/
def checkOwnership (self : NodeID) (pl : Option Placement) (key : Key) : Bool × Bool × NodeID :=
  match pl with
  | none => (true,false,"")
  | some p =>
    let (owner,replicas) := p.getNodesForKey hashKey key
    (owner = self,replicas.contains self,owner)

def getVNodeForKey (pl : Option Placement) (key : Key) : UInt16 :=
  match pl with
  | none => 0
  | some p => p.getVNodeIDForKey hashKey key

/-- The vnode that a key hashes to. -/
def keyVNode (key : Key) : UInt16 := UInt16.ofNat (vnodeIdx (hashKey key))

end Lookup

/-- The ids of all vnodes in order. -/
def ringIDs : List UInt16 := (List.range vnodeCount).map UInt16.ofNat

theorem ringIDs_getElem? {i : Nat} (h : i < vnodeCount) : ringIDs[i]? = some (UInt16.ofNat i) := by
  simp [ringIDs, List.getElem?_range h]

/-- Indexes of vnodes fit into an id. -/
theorem toNat_vnodeID {i : Nat} (h : i < vnodeCount) : (UInt16.ofNat i).toNat = i := by
  unfold vnodeCount at h
  rw [UInt16.toNat_ofNat', Nat.mod_eq_of_lt (by omega)]

theorem mem_ringIDs {v : UInt16} : v ∈ ringIDs ↔ v.toNat < vnodeCount := by
  constructor
  · intro hv
    obtain ⟨i,hi,rfl⟩ := List.mem_map.mp hv
    rw [toNat_vnodeID (List.mem_range.mp hi)]
    exact List.mem_range.mp hi
  · exact fun hv => List.mem_map.mpr ⟨v.toNat,List.mem_range.mpr hv,UInt16.ofNat_toNat⟩

theorem ringIDs_head : ringIDs.head? = some 0 := by
  rw [ringIDs, List.head?_map, List.head?_range]
  rfl

theorem ringIDs_nodup : ringIDs.Nodup := by
  refine List.Nodup.map_on (fun i hi j hj hij => ?_) List.nodup_range
  have heq := congrArg UInt16.toNat hij
  rwa [toNat_vnodeID (List.mem_range.mp hi), toNat_vnodeID (List.mem_range.mp hj)] at heq

section Ring
variable {vs : List VNode} (h : vs.map VNode.id = ringIDs)
include h

theorem ring_length : vs.length = vnodeCount := by
  simpa [ringIDs] using congrArg List.length h

/-- In a ring each vnode is at the index of its id. -/
theorem ring_vnode {i : Nat} (hi : i < vnodeCount) : ∃ v, vs[i]? = some v ∧ v.id = UInt16.ofNat i := by
  have hget := congrArg (fun l => l[i]?) h
  simpa only [List.getElem?_map, ringIDs_getElem? hi, Option.map_eq_some_iff] using hget

theorem ring_id {i : Nat} {v : VNode} (hi : vs[i]? = some v) : i < vnodeCount ∧ v.id = UInt16.ofNat i := by
  have hlt : i < vnodeCount := ring_length h ▸ (List.getElem?_eq_some_iff.mp hi).1
  obtain ⟨v',hv',hid⟩ := ring_vnode h hlt
  exact ⟨hlt,Option.some.inj (hi.symm.trans hv') ▸ hid⟩

end Ring

namespace Placement

/-- The placement has all vnodes, each at the index of its id. -/
def IsRing (p : Placement) : Prop := p.vnodes.map VNode.id = ringIDs

instance (p : Placement) : Decidable p.IsRing := inferInstanceAs (Decidable (_ = _))

theorem IsRing.length_eq {p : Placement} (h : p.IsRing) : p.vnodes.length = vnodeCount := ring_length h

/-- In such a placement a lookup finds the vnode that the key hashes to. -/
theorem IsRing.getVNodeIDForKey {p : Placement} (h : p.IsRing) (hashKey : Key → UInt64) (key : Key) :
    p.getVNodeIDForKey hashKey key = keyVNode hashKey key := by
  obtain ⟨v,hv,hid⟩ := ring_vnode h (vnodeIdx_lt (hashKey key))
  simp only [Placement.getVNodeIDForKey, vnodeForKey, h.length_eq, ne_eq, not_true, if_false, hv]
  exact hid

/-- The map from vnode ids to primaries; a later entry replaces an earlier one. -/
def primaries (p : Placement) : FMap UInt16 NodeID := p.vnodes.foldl (fun m v => m.insert v.id v.primary) ∅

/-- The primary of a vnode, empty for a vnode the placement does not have. -/
def primaryOf (p : Placement) (v : UInt16) : NodeID := (p.primaries.lookup v).getD ""

/-- The placement names the node as primary of the vnode. -/
def Names (p : Placement) (node : NodeID) (v : UInt16) : Prop := p.primaries.lookup v = some node

instance (p : Placement) (node : NodeID) (v : UInt16) : Decidable (p.Names node v) :=
  inferInstanceAs (Decidable (_ = _))

section Ring
variable {p : Placement} (h : p.IsRing) {v : UInt16} {x : VNode}
include h

theorem IsRing.id_eq {i : Nat} (hx : p.vnodes[i]? = some x) : i < vnodeCount ∧ x.id = UInt16.ofNat i := ring_id h hx

theorem IsRing.lookup (hx : p.vnodes[v.toNat]? = some x) : p.primaries.lookup v = some x.primary := by
  have hsame : ∀ y ∈ p.vnodes, y.id = v → y.primary = x.primary := by
    intro y hy hid
    obtain ⟨i,hi⟩ := List.mem_iff_getElem?.mp hy
    obtain ⟨hlt,hidx⟩ := h.id_eq hi
    have hv : v.toNat = i := by rw [← hid, hidx, toNat_vnodeID hlt]
    rw [hv, hi] at hx
    cases hx
    rfl
  have hmem : v ∈ p.vnodes.map VNode.id := by
    rw [h, mem_ringIDs]
    exact (h.id_eq hx).1
  have hlookup := lookup_foldl_insert VNode.id VNode.primary hsame ∅
  rwa [if_pos hmem] at hlookup

/-- In a ring the map of primaries says what the vnodes say. -/
theorem IsRing.primaryOf (hx : p.vnodes[v.toNat]? = some x) : p.primaryOf v = x.primary := by
  simp [Placement.primaryOf, h.lookup hx]

theorem IsRing.keys : p.primaries.keys = ringIDs.toFinset := by
  ext v
  rw [Finmap.mem_keys, List.mem_toFinset, ← h]
  exact (mem_foldl_insert VNode.id VNode.primary p.vnodes ∅).trans (or_iff_right Finmap.notMem_empty)

end Ring
end Placement

/-- All vnodes are held by the same nodes. -/
def heldBy (epoch : UInt64) (primary : NodeID) (replicas : List NodeID) : Placement :=
  ⟨epoch,ringIDs.map (fun v => ⟨v,0,primary,replicas⟩)⟩

section HeldBy
variable (epoch : UInt64) {primary : NodeID} {replicas : List NodeID}

theorem heldBy_getElem? {v : UInt16} (hv : v.toNat < vnodeCount) :
    (heldBy epoch primary replicas).vnodes[v.toNat]? = some ⟨v,0,primary,replicas⟩ := by
  simp only [heldBy, List.getElem?_map, ringIDs_getElem? hv, UInt16.ofNat_toNat, Option.map_some]

theorem mem_heldBy {x : VNode} (hx : x ∈ (heldBy epoch primary replicas).vnodes) : ∃ v, x = ⟨v,0,primary,replicas⟩ := by
  simp only [heldBy, List.mem_map] at hx
  obtain ⟨v,_,rfl⟩ := hx
  exact ⟨v,rfl⟩

theorem heldBy_ring : (heldBy epoch primary replicas).IsRing := by
  simp only [Placement.IsRing, heldBy, List.map_map, Function.comp_def, List.map_id']

theorem heldBy_getNodesForKey (hashKey : Key → UInt64) (key : Key) :
    (heldBy epoch primary replicas).getNodesForKey hashKey key = (primary,replicas) := by
  obtain ⟨x,hx,-⟩ := ring_vnode (show (heldBy epoch primary replicas).IsRing from heldBy_ring epoch) (vnodeIdx_lt (hashKey key))
  obtain ⟨v,rfl⟩ := mem_heldBy epoch (List.mem_of_getElem? hx)
  simp only [Placement.getNodesForKey, Placement.vnodeForKey, (heldBy_ring epoch).length_eq, ne_eq, not_true, if_false, hx]

theorem heldBy_lookup {v : UInt16} (hv : v ∈ ringIDs) : (heldBy epoch primary replicas).primaries.lookup v = some primary :=
  (heldBy_ring epoch).lookup (heldBy_getElem? epoch (mem_ringIDs.mp hv))

theorem heldBy_primaryOf {v : UInt16} (hv : v ∈ ringIDs) : (heldBy epoch primary replicas).primaryOf v = primary :=
  (heldBy_ring epoch).primaryOf (heldBy_getElem? epoch (mem_ringIDs.mp hv))

end HeldBy
end Nawst.Cluster
