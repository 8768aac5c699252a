import Mathlib.Data.List.Rotate
import Nawst.Core.GetCall
import Nawst.Cluster.Metadata
import Nawst.Cluster.Replicas

/-! A client that routes requests by the placement it has fetched: the state a node
publishes, the targets for a key and the attempts to reach one of them. -/
namespace Nawst.Cluster
open Lib Lib.FiniteMap Nawst.Core

structure ClusterVNode where
  id : UInt32
  primary : NodeID
  replicas : List NodeID
  deriving DecidableEq

structure ClusterNode where
  id : NodeID
  rpcAddr : Addr
  score : Rat
  deriving DecidableEq

structure ClusterState where
  epoch : UInt64
  vnodes : List ClusterVNode
  nodes : List ClusterNode
  deriving DecidableEq

section Snapshot
variable (nodeRPCAddrs : FMap NodeID Addr)

/-- The address of a node, empty when it is not known. -/
def nodeRPCAddr (id : NodeID) : Addr := (nodeRPCAddrs.lookup id).getD ""

/-- What a placement contributes to the published state. -/
def placementState : Option ScoredPlacement → ClusterState
  | none => ⟨0,[],[]⟩
  | some p => {
      epoch := p.epoch
      vnodes := p.vnodes.map (fun v => ⟨v.id.toUInt32,v.primary,v.replicas⟩)
      nodes := p.nodes.map (fun n => ⟨n.id,nodeRPCAddr nodeRPCAddrs n.id,n.score⟩) }

/-- The placement, followed by the nodes that only the address table knows. -/
def snapshotClusterState (pl : Option ScoredPlacement) : ClusterState :=
  let state := placementState nodeRPCAddrs pl
  let ids := sortedIDs (nodeRPCAddrs.keys.filter (fun id => id ∉ state.nodes.map ClusterNode.id))
  { state with nodes := state.nodes ++ ids.map (fun id => ⟨id,nodeRPCAddr nodeRPCAddrs id,0⟩) }

end Snapshot

structure RouteTarget where
  nodeID : NodeID
  rpcAddr : Addr
  deriving DecidableEq

/-- The part of a router that routing depends on. -/
structure PlacementRouter where
  state : Option ClusterState
  readCursor : UInt64
  deriving DecidableEq

/-- The addresses of the published nodes; a later node replaces an earlier one. -/
def addrByNode (nodes : List ClusterNode) : FMap NodeID Addr :=
  nodes.foldl (fun m n => m.insert n.id (trimSpace n.rpcAddr)) ∅

/-- A node with an address is a target. -/
def targetFor (addrs : FMap NodeID Addr) (id : NodeID) : Option RouteTarget :=
  let addr := (addrs.lookup id).getD ""
  if addr ≠ "" then some ⟨id,addr⟩ else none

section Route
variable (hashKey : Key → UInt64)

def vnodeIDForKey (key : Key) : UInt16 := keyVNode hashKey key

/-- The targets before they are rotated; none while there is no usable vnode. -/
def ClusterState.targets (state : ClusterState) (key : Key) (readAnyNode : Bool) : Option (List RouteTarget) :=
  if state.vnodes.length ≠ vnodeCount then none
  else match state.vnodes[(vnodeIDForKey hashKey key).toNat]? with
    | none => none
    | some vnode =>
      if vnode.primary = "" then none
      else
        let addrs := addrByNode state.nodes
        let targets := (targetFor addrs vnode.primary).toList
        some (if readAnyNode then targets ++ vnode.replicas.filterMap (targetFor addrs) else targets)

namespace PlacementRouter

def targets (r : PlacementRouter) (key : Key) (readAnyNode : Bool) : Option (List RouteTarget) :=
  r.state.bind (fun state => state.targets hashKey key readAnyNode)

def routeForKey (r : PlacementRouter) (key : Key) (readAnyNode : Bool) : PlacementRouter × Option (List RouteTarget) :=
  match r.targets hashKey key readAnyNode with
  | none => (r,none)
  | some targets =>
    if readAnyNode ∧ 1 < targets.length then
      let cursor := r.readCursor+1
      let offset := cursor.toNat%targets.length
      ({ r with readCursor := cursor },some (targets.drop offset ++ targets.take offset))
    else (r,some targets)

end PlacementRouter
end Route

/-- An error of a call, or one that the client itself makes. -/
inductive RPCError where
  | status (st : Status)
  | plain (message : Err)
  deriving DecidableEq

/-- After these the next target is tried. -/
def RPCError.retryable : RPCError → Bool
  | .status st => st.code = .unavailable ∨ st.code = .deadlineExceeded ∨ st.code = .failedPrecondition
  | .plain _ => false

def RPCError.notFound : RPCError → Bool
  | .status st => st.code = .notFound
  | .plain _ => false

/-- What the targets of an attempt do: there may be no client for a target, and a call
returns a result or an error. -/
structure Attempt (α : Type) where
  client : RouteTarget → Option Err
  call : RouteTarget → Except RPCError α

section Invoke
variable {α : Type}

/-- Call the targets in order, keeping the first error to be reported at the end. -/
def invokeTargets (a : Attempt α) : List RouteTarget → Option RPCError → Except RPCError α
  | [], firstErr => .error (firstErr.getD (.plain "no route candidates available"))
  | t::ts, firstErr => match a.client t with
    | some e => invokeTargets a ts (firstErr.or (some (.plain e)))
    | none => match a.call t with
      | .ok res => .ok res
      | .error e => if e.retryable then invokeTargets a ts (firstErr.or (some e)) else .error e

namespace PlacementRouter
variable (hashKey : Key → UInt64)

def invoke (r : PlacementRouter) (key : Key) (readAnyNode : Bool) (a : Attempt α) : PlacementRouter × Except RPCError α :=
  let (r,targets) := r.routeForKey hashKey key readAnyNode
  match targets with
  | none | some [] => (r,.error (.plain "placement not ready for key routing"))
  | some targets => (r,invokeTargets a targets none)

/-- After a failed attempt the state is fetched again, which may fail, and there is a second
attempt. In between other requests may have moved the cursor. -/
def rpcWithPlacement (r : PlacementRouter) (key : Key) (readAnyNode : Bool) (first : Attempt α)
    (refreshed : Option ClusterState) (cursor : UInt64) (second : Attempt α) : PlacementRouter × Except RPCError α :=
  match r.invoke hashKey key readAnyNode first with
  | (r,.ok res) => (r,.ok res)
  | (r,.error _) => PlacementRouter.invoke hashKey ⟨refreshed.or r.state,cursor⟩ key readAnyNode second

end PlacementRouter
end Invoke

section Snapshot
variable (nodeRPCAddrs : FMap NodeID Addr) (pl : Option ScoredPlacement)

private theorem snapshot_rpcAddr {node : ClusterNode} (h : node ∈ (snapshotClusterState nodeRPCAddrs pl).nodes) :
    node.rpcAddr = nodeRPCAddr nodeRPCAddrs node.id := by
  simp only [snapshotClusterState, List.mem_append, List.mem_map] at h
  rcases h with h | ⟨_,_,rfl⟩
  · cases pl with
    | none => simp [placementState] at h
    | some p =>
      simp only [placementState, List.mem_map] at h
      obtain ⟨_,_,rfl⟩ := h
      rfl
  · rfl

private theorem mem_snapshot {id : NodeID} (h : id ∈ nodeRPCAddrs) :
    id ∈ (snapshotClusterState nodeRPCAddrs pl).nodes.map ClusterNode.id := by
  simp only [snapshotClusterState, List.map_append, List.map_map, List.mem_append]
  by_cases hmem : id ∈ (placementState nodeRPCAddrs pl).nodes.map ClusterNode.id
  · exact .inl hmem
  · refine .inr (List.mem_map.mpr ⟨id,?_,rfl⟩)
    rw [mem_sortedIDs, Finset.mem_filter, Finmap.mem_keys]
    exact ⟨h,hmem⟩

/-- The published state has the address of every node, from whichever source. -/
theorem lookup_addrByNode (id : NodeID) :
    ((addrByNode (snapshotClusterState nodeRPCAddrs pl).nodes).lookup id).getD "" =
      trimSpace (nodeRPCAddr nodeRPCAddrs id) := by
  have hsame : ∀ node ∈ (snapshotClusterState nodeRPCAddrs pl).nodes, node.id = id →
      trimSpace node.rpcAddr = trimSpace (nodeRPCAddr nodeRPCAddrs id) :=
    fun node hnode hid => by rw [snapshot_rpcAddr nodeRPCAddrs pl hnode, hid]
  have hlookup := lookup_foldl_insert ClusterNode.id (fun node => trimSpace node.rpcAddr) hsame ∅
  unfold addrByNode
  rw [hlookup]
  split
  · rfl
  · rename_i hmem
    have habsent : nodeRPCAddrs.lookup id = none :=
      Finmap.lookup_eq_none.mpr (fun h => hmem (mem_snapshot nodeRPCAddrs pl h))
    simp [nodeRPCAddr, habsent]

end Snapshot

section Agree
variable (hashKey : Key → UInt64) (nodeRPCAddrs : FMap NodeID Addr) (p : ScoredPlacement)

/-- The nodes with a known address. -/
def known (id : NodeID) : Bool := trimSpace (nodeRPCAddr nodeRPCAddrs id) ≠ ""

theorem vnodeIDForKey_toNat (key : Key) : (vnodeIDForKey hashKey key).toNat = vnodeIdx (hashKey key) :=
  toNat_vnodeID (vnodeIdx_lt (hashKey key))

private theorem toList_append_filterMap {α β : Type} (f : α → Option β) (a : α) (l : List α) :
    (f a).toList ++ l.filterMap f = (a::l).filterMap f := by
  cases h : f a <;> simp [h]

private theorem map_nodeID_filterMap (addrs : FMap NodeID Addr) (ids : List NodeID) :
    (ids.filterMap (targetFor addrs)).map RouteTarget.nodeID = ids.filter (fun id => (addrs.lookup id).getD "" ≠ "") := by
  induction ids with
  | nil => rfl
  | cons id ids ih =>
    by_cases h : (addrs.lookup id).getD "" = ""
    · simpa [targetFor, h] using ih
    · simpa [targetFor, h] using ih

section Vnode
variable {key : Key} {x : VNode} (hlen : p.vnodes.length = vnodeCount)
  (hx : p.vnodes[(vnodeIDForKey hashKey key).toNat]? = some x)
include hlen hx

/-- The targets of a key are the nodes of its vnode with a known address. -/
theorem snapshot_targets (readAnyNode : Bool) :
    ((snapshotClusterState nodeRPCAddrs (some p)).targets hashKey key readAnyNode).map (List.map RouteTarget.nodeID) =
      if x.primary = "" then none
      else some ((if readAnyNode then x.holders else [x.primary]).filter (known nodeRPCAddrs)) := by
  have hvnodes : (snapshotClusterState nodeRPCAddrs (some p)).vnodes =
      p.vnodes.map (fun v => ⟨v.id.toUInt32,v.primary,v.replicas⟩) := rfl
  have hknown : (fun id => decide (((addrByNode (snapshotClusterState nodeRPCAddrs (some p)).nodes).lookup id).getD "" ≠ "")) =
      known nodeRPCAddrs := by
    funext id
    rw [lookup_addrByNode, known]
  have hids := map_nodeID_filterMap (addrByNode (snapshotClusterState nodeRPCAddrs (some p)).nodes)
  rw [hknown] at hids
  simp only [ClusterState.targets, hvnodes, List.length_map, hlen, ne_eq, not_true, if_false, List.getElem?_map, hx,
    Option.map_some]
  split
  · rfl
  · cases readAnyNode with
    | true => simp only [if_true, Option.map_some, toList_append_filterMap, hids, VNode.holders]
    | false =>
      have hone := toList_append_filterMap (targetFor (addrByNode (snapshotClusterState nodeRPCAddrs (some p)).nodes)) x.primary []
      rw [List.filterMap_nil, List.append_nil] at hone
      simp only [Bool.false_eq_true, if_false, Option.map_some, hone, hids]

/-- The only target of a write is the primary. -/
theorem snapshot_write_target : ∀ targets, (snapshotClusterState nodeRPCAddrs (some p)).targets hashKey key false = some targets →
    (targets.map RouteTarget.nodeID).Sublist [x.primary] := by
  intro targets htargets
  have hids := snapshot_targets hashKey nodeRPCAddrs p hlen hx false
  rw [htargets] at hids
  split at hids
  · cases hids
  · rw [Option.map_some, Option.some.injEq] at hids
    rw [hids]
    exact List.filter_sublist

/-- Every lookup uses the same vnode. -/
theorem lookups_agree : p.getNodesForKey hashKey key = (x.primary,x.replicas) ∧ p.getVNodeIDForKey hashKey key = x.id := by
  rw [vnodeIDForKey_toNat] at hx
  simp [Placement.getNodesForKey, Placement.getVNodeIDForKey, Placement.vnodeForKey, hlen, hx]

end Vnode

/-- Routing for a write leaves the targets as they are. -/
theorem PlacementRouter.routeForKey_write (r : PlacementRouter) (key : Key) :
    r.routeForKey hashKey key false = (r,r.targets hashKey key false) := by
  unfold routeForKey
  cases r.targets hashKey key false <;> simp

/-- Routing for a read rotates them. -/
theorem PlacementRouter.routeForKey_read (r : PlacementRouter) (key : Key) :
    ∃ n, (r.routeForKey hashKey key true).2 = (r.targets hashKey key true).map (fun targets => targets.rotate n) := by
  unfold routeForKey
  cases r.targets hashKey key true with
  | none => exact ⟨0,rfl⟩
  | some targets =>
    by_cases hlen : 1 < targets.length
    · refine ⟨(r.readCursor+1).toNat%targets.length,?_⟩
      have hle : (r.readCursor+1).toNat%targets.length ≤ targets.length := (Nat.mod_lt _ (by omega)).le
      simp only [hlen, and_self, if_true, Option.map_some, List.rotate_eq_drop_append_take hle]
    · exact ⟨0,by simp [hlen]⟩

theorem PlacementRouter.routeForKey_state (r : PlacementRouter) (key : Key) (readAnyNode : Bool) :
    (r.routeForKey hashKey key readAnyNode).1.state = r.state := by
  unfold routeForKey
  split
  · rfl
  · split <;> rfl

/-- Client routing agrees with ownership: for a write only the owner is a target, for a read
the targets are a rotation of the nodes of the vnode that have an address, and the router and
the lookups of the nodes use the same vnode. Without a primary there is no target. -/
theorem routing_agrees (hlen : p.vnodes.length = vnodeCount) (key : Key) (cursor : UInt64) :
    let r : PlacementRouter := ⟨some (snapshotClusterState nodeRPCAddrs (some p)),cursor⟩
    let writes := (r.routeForKey hashKey key false).2.getD []
    (vnodeIDForKey hashKey key).toNat = vnodeIdx (hashKey key) ∧ vnodeIdx (hashKey key) < vnodeCount ∧
    ∃ x, p.vnodes[(vnodeIDForKey hashKey key).toNat]? = some x ∧
      p.getNodesForKey hashKey key = (x.primary,x.replicas) ∧ p.getVNodeIDForKey hashKey key = x.id ∧
      (writes.length ≤ 1 ∧ ∀ t ∈ writes, ∀ n, (checkOwnership hashKey n (some p.toPlacement) key).1 = true ↔ n = t.nodeID) ∧
      (x.primary = "" → ∀ readAnyNode, (r.routeForKey hashKey key readAnyNode).2 = none) ∧
      (x.primary ≠ "" → ∃ reads, (r.routeForKey hashKey key true).2 = some reads ∧
        (reads.map RouteTarget.nodeID).IsRotated (x.holders.filter (known nodeRPCAddrs))) := by
  intro r writes
  have hlt : (vnodeIDForKey hashKey key).toNat < p.vnodes.length := by
    rw [vnodeIDForKey_toNat, hlen]
    exact vnodeIdx_lt _
  have hx : p.vnodes[(vnodeIDForKey hashKey key).toNat]? = some _ := List.getElem?_eq_getElem hlt
  generalize p.vnodes[(vnodeIDForKey hashKey key).toNat] = x at hx
  obtain ⟨hnodes,hid⟩ := lookups_agree hashKey p hlen hx
  refine ⟨vnodeIDForKey_toNat hashKey key,vnodeIdx_lt _,x,hx,hnodes,hid,?_,?_,?_⟩
  · have hids : (writes.map RouteTarget.nodeID).Sublist [x.primary] := by
      have hroute : writes = ((snapshotClusterState nodeRPCAddrs (some p)).targets hashKey key false).getD [] := by
        simp only [writes, r.routeForKey_write]
        rfl
      rw [hroute]
      cases htargets : (snapshotClusterState nodeRPCAddrs (some p)).targets hashKey key false with
      | none => exact List.nil_sublist _
      | some targets => exact snapshot_write_target hashKey nodeRPCAddrs p hlen hx targets htargets
    refine ⟨by simpa using hids.length_le,fun t ht n => ?_⟩
    have howner : t.nodeID = x.primary := by simpa using hids.subset (List.mem_map_of_mem ht)
    simp [checkOwnership, hnodes, howner, eq_comm]
  · intro hempty readAnyNode
    have htargets := snapshot_targets hashKey nodeRPCAddrs p hlen hx readAnyNode
    rw [if_pos hempty, Option.map_eq_none_iff] at htargets
    cases readAnyNode with
    | false =>
      rw [r.routeForKey_write]
      exact htargets
    | true =>
      obtain ⟨n,hread⟩ := r.routeForKey_read hashKey key
      rw [hread, Option.map_eq_none_iff]
      exact htargets
  · intro hprim
    obtain ⟨n,hread⟩ := r.routeForKey_read hashKey key
    have htargets := snapshot_targets hashKey nodeRPCAddrs p hlen hx true
    rw [if_neg hprim, if_pos rfl, Option.map_eq_some_iff] at htargets
    obtain ⟨targets,htargets,hids⟩ := htargets
    refine ⟨targets.rotate n,?_,?_⟩
    · rw [hread, Option.map_eq_some_iff]
      exact ⟨targets,htargets,rfl⟩
    · rw [← hids]
      exact (List.IsRotated.forall targets n).map _

end Agree

section Invoke
variable {α : Type} {a : Attempt α} {ts : List RouteTarget} {firstErr : Option RPCError} {e : RPCError}

/-- A target has answered that there is no such key, if that is what is reported. -/
theorem invokeTargets_notFound (hfirst : ∀ f ∈ firstErr, f.notFound = false) (h : invokeTargets a ts firstErr = .error e)
    (he : e.notFound = true) : ∃ t ∈ ts, a.client t = none ∧ a.call t = .error e := by
  induction ts generalizing firstErr with
  | nil =>
    cases h
    cases firstErr with
    | none => cases he
    | some f => exact absurd he (by simp [hfirst f rfl])
  | cons t ts ih =>
    -- an error that is kept is not of this kind
    have hkeep : ∀ d : RPCError, d.notFound = false → ∀ f ∈ firstErr.or (some d), f.notFound = false := by
      intro d hd f hf
      cases firstErr with
      | none =>
        cases hf
        exact hd
      | some g => exact hfirst f hf
    simp only [invokeTargets] at h
    split at h
    · obtain ⟨u,hu,hcall⟩ := ih (hkeep _ rfl) h
      exact ⟨u,List.mem_cons_of_mem t hu,hcall⟩
    · rename_i hclient
      split at h
      · cases h
      · rename_i d hcall
        split at h
        · rename_i hretry
          have hd : d.notFound = false := by
            cases d with
            | status st => cases hc : st.code <;> simp_all [RPCError.retryable, RPCError.notFound]
            | plain m => rfl
          obtain ⟨u,hu,hcall⟩ := ih (hkeep d hd) h
          exact ⟨u,List.mem_cons_of_mem t hu,hcall⟩
        · cases h
          exact ⟨t,List.mem_cons_self,hclient,hcall⟩

/-- When all others are passed over, a target that ends the attempt is reached. -/
theorem invokeTargets_reaches (hclient : ∀ t ∈ ts, a.client t = none)
    (hcall : ∀ t ∈ ts, (∃ f, a.call t = .error f ∧ f.retryable = true) ∨ a.call t = .error e)
    (hmem : ∃ t ∈ ts, a.call t = .error e) (he : e.retryable = false) : invokeTargets a ts firstErr = .error e := by
  induction ts generalizing firstErr with
  | nil => simp at hmem
  | cons t ts ih =>
    obtain ⟨hct,hcts⟩ := List.forall_mem_cons.mp hclient
    obtain ⟨ht,hts⟩ := List.forall_mem_cons.mp hcall
    simp only [invokeTargets, hct]
    rcases ht with ⟨f,hf,hretry⟩ | hf
    · have hne : f ≠ e := fun h => by simp [h, he] at hretry
      simp only [hf, hretry, if_true]
      refine ih hcts hts ?_
      obtain ⟨u,hu,hcu⟩ := hmem
      rcases List.mem_cons.mp hu with rfl | hu
      · exact absurd (Except.error.inj (hf.symm.trans hcu)) hne
      · exact ⟨u,hu,hcu⟩
    · simp [hf, he]

theorem invokeTargets_noClient (hclient : ∀ t, a.client t ≠ none) : ∃ f, invokeTargets a ts firstErr = .error f := by
  induction ts generalizing firstErr with
  | nil => exact ⟨_,rfl⟩
  | cons t ts ih =>
    obtain ⟨m,hm⟩ := Option.ne_none_iff_exists'.mp (hclient t)
    simpa only [invokeTargets, hm] using ih

namespace PlacementRouter
variable (hashKey : Key → UInt64) (r : PlacementRouter) (key : Key)

/-- An attempt at a read calls the targets in a rotated order. -/
theorem invoke_read (a : Attempt α) : ∃ n, (r.invoke hashKey key true a).2 =
    if (r.targets hashKey key true).getD [] = [] then .error (.plain "placement not ready for key routing")
    else invokeTargets a (((r.targets hashKey key true).getD []).rotate n) none := by
  obtain ⟨n,hread⟩ := r.routeForKey_read hashKey key
  refine ⟨n,?_⟩
  simp only [invoke, hread]
  cases r.targets hashKey key true with
  | none => rfl
  | some targets =>
    simp only [Option.map_some, Option.getD_some]
    cases htargets : targets.rotate n with
    | nil => rw [if_pos (List.rotate_eq_nil_iff.mp htargets)]
    | cons t ts => rw [if_neg (fun h => by simp [h] at htargets)]

theorem invoke_state (readAnyNode : Bool) (a : Attempt α) : (r.invoke hashKey key readAnyNode a).1.state = r.state := by
  have h := r.routeForKey_state hashKey key readAnyNode
  simp only [invoke]
  split <;> exact h

section Attempts
variable {first second : Attempt α} (refreshed : Option ClusterState) (cursor : UInt64)

/-- The call returns what the first attempt that succeeds returns, or what the second does. -/
theorem rpcWithPlacement_eq (readAnyNode : Bool) : (r.rpcWithPlacement hashKey key readAnyNode first refreshed cursor second).2 =
    match (r.invoke hashKey key readAnyNode first).2 with
    | .ok res => .ok res
    | .error _ => (PlacementRouter.invoke hashKey ⟨refreshed.or r.state,cursor⟩ key readAnyNode second).2 := by
  have hstate := r.invoke_state hashKey key readAnyNode first
  unfold rpcWithPlacement
  split
  · rename_i h
    rw [h]
  · rename_i h
    rw [h] at hstate ⊢
    rw [show _ = r.state from hstate]

/-- A read that reports a missing key has been told so in its second attempt. -/
theorem rpcWithPlacement_notFound (h : (r.rpcWithPlacement hashKey key true first refreshed cursor second).2 = .error e)
    (he : e.notFound = true) :
    ∃ t ∈ ((PlacementRouter.mk (refreshed.or r.state) cursor).targets hashKey key true).getD [],
      second.client t = none ∧ second.call t = .error e := by
  rw [rpcWithPlacement_eq] at h
  split at h
  · cases h
  · obtain ⟨n,hread⟩ := (PlacementRouter.mk (refreshed.or r.state) cursor).invoke_read hashKey key second
    rw [hread] at h
    split at h
    · cases h
      cases he
    · obtain ⟨t,ht,hcall⟩ := invokeTargets_notFound (by simp) h he
      exact ⟨t,List.mem_rotate.mp ht,hcall⟩

/-- When there is no client in the first attempt and in the second all other targets are
passed over, a target that ends the attempt is reached. -/
theorem rpcWithPlacement_reaches (hfirst : ∀ t, first.client t ≠ none) (hclient : ∀ t, second.client t = none)
    (hcall : ∀ t, (∃ f, second.call t = .error f ∧ f.retryable = true) ∨ second.call t = .error e)
    (hmem : ∃ t ∈ ((PlacementRouter.mk (refreshed.or r.state) cursor).targets hashKey key true).getD [],
      second.call t = .error e) (he : e.retryable = false) :
    (r.rpcWithPlacement hashKey key true first refreshed cursor second).2 = .error e := by
  obtain ⟨t,ht,hct⟩ := hmem
  rw [rpcWithPlacement_eq]
  obtain ⟨n,hread⟩ := r.invoke_read hashKey key first
  have hfail : ∃ f, (r.invoke hashKey key true first).2 = .error f := by
    rw [hread]
    split
    · exact ⟨_,rfl⟩
    · exact invokeTargets_noClient hfirst
  obtain ⟨f,hf⟩ := hfail
  obtain ⟨k,hread'⟩ := (PlacementRouter.mk (refreshed.or r.state) cursor).invoke_read hashKey key second
  rw [hf, hread', if_neg (List.ne_nil_of_mem ht)]
  exact invokeTargets_reaches (fun t _ => hclient t) (fun t _ => hcall t) ⟨t,List.mem_rotate.mpr ht,hct⟩ he

end Attempts
end PlacementRouter

end Invoke

/-- Two nodes hold every vnode, and the addresses of both are known. -/
def sampleAddrs : FMap NodeID Addr := (Finmap.singleton "a" "10.0.0.1:7000").insert "b" "10.0.0.2:7000"

theorem routing_agrees_sample : ∃ x : VNode,
    (heldBy 1 "a" ["b"]).vnodes[(vnodeIDForKey (fun _ => 0) (.singleton 107)).toNat]? = some x ∧
    ∃ reads, (PlacementRouter.routeForKey (fun _ => 0) ⟨some (snapshotClusterState sampleAddrs (some ⟨heldBy 1 "a" ["b"],[]⟩)),7⟩
      (.singleton 107) true).2 = some reads ∧
      (reads.map RouteTarget.nodeID).IsRotated (x.holders.filter (known sampleAddrs)) := by
  obtain ⟨_,_,x,hx,_,_,_,_,hreads⟩ := routing_agrees (fun _ => 0) sampleAddrs ⟨heldBy 1 "a" ["b"],[]⟩
    (heldBy_ring 1).length_eq (.singleton 107) 7
  refine ⟨x,hx,hreads ?_⟩
  have hzero : (vnodeIDForKey (fun _ => 0) (.singleton 107)).toNat < vnodeCount := by decide
  rw [heldBy_getElem? 1 hzero, Option.some.injEq] at hx
  rw [← hx]
  decide

/-- Without a primary there is no target for a read, although a replica has an address. -/
theorem no_primary_no_target :
    let p : ScoredPlacement := ⟨heldBy 1 "" ["b"],[]⟩
    let r : PlacementRouter := ⟨some (snapshotClusterState sampleAddrs (some p)),7⟩
    p.vnodes.length = vnodeCount ∧ (r.routeForKey (fun _ => 0) (.singleton 107) true).2 = none ∧
    ∃ x, p.vnodes[(vnodeIDForKey (fun _ => 0) (.singleton 107)).toNat]? = some x ∧
      x.holders.filter (known sampleAddrs) = ["b"] := by
  refine ⟨(heldBy_ring 1).length_eq,by decide +kernel,_,heldBy_getElem? 1 (by decide),by decide +kernel⟩

end Nawst.Cluster
