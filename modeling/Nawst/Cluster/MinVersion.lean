import Nawst.Cluster.Router

/-! Reads through a client's router that ask for a minimum version, in a cluster where the
nodes have seen different parts of what was written. -/
namespace Nawst.Cluster
open Lib Nawst.Core

/-- How a call to a target goes: there is no client, the transport fails, the request is
given up, or the loop of the node answers. -/
inductive Reach where
  | noClient (e : Err)
  | unavailable | deadlineExceeded | broken
  | cancelled
  | served
  deriving DecidableEq

/-- The writes of the primary, and for each node those that it has received, in its order. -/
structure Deliveries where
  writes : List Command
  received : NodeID → List Command
  lagging : ∀ n, ∀ c ∈ received n, c ∈ writes

namespace Deliveries

def store (d : Deliveries) (n : NodeID) : Store := newStore.applyAll (d.received n)

/-- An attempt to read a key, by how the calls to the targets go. -/
def attempt (d : Deliveries) (key : Key) (minVersion : UInt64) (reach : RouteTarget → Reach) : Attempt (Value × UInt64) where
  client t := match reach t with
    | .noClient e => some e
    | _ => none
  call t := match reach t with
    | .noClient e => .error (.plain e)
    | .unavailable => .error (.status ⟨.unavailable,""⟩)
    | .deadlineExceeded => .error (.status ⟨.deadlineExceeded,""⟩)
    | .broken => .error (.status ⟨.other,""⟩)
    | .cancelled => (getReply cancelledResponse minVersion).mapError .status
    | .served => ((d.store t.nodeID).serveGet key minVersion).mapError .status

/-- A read through the router. The first attempt may go in any way; the second finds what
the nodes have received. -/
def getWithMinVersion (d : Deliveries) (hashKey : Key → UInt64) (r : PlacementRouter) (key : Key) (minVersion : UInt64)
    (first : Attempt (Value × UInt64)) (refreshed : Option ClusterState) (cursor : UInt64) (reach : RouteTarget → Reach) :
    Except RPCError (Value × UInt64) :=
  (r.rpcWithPlacement hashKey key true first refreshed cursor (d.attempt key minVersion reach)).2

variable {d : Deliveries} {key : Key} {m : UInt64} {reach : RouteTarget → Reach} {t : RouteTarget} {e : RPCError}

/-- Only a node that does not have the key says that it is missing. -/
theorem missing_of_notFound (hm : m ≠ 0) (h : (d.attempt key m reach).call t = .error e) (he : e.notFound = true) :
    ¬ (d.store t.nodeID).Live key := by
  simp only [attempt] at h
  cases hreach : reach t with
  | noClient | unavailable | deadlineExceeded | broken | cancelled =>
    rw [hreach] at h
    cases h
    cases he
  | served =>
    rw [hreach] at h
    intro hlive
    rcases Store.serveGet_live hlive hm with ⟨_,hreply⟩ | ⟨_,_,hreply⟩
    · simp only [hreply, Except.mapError, Except.error.injEq] at h
      cases h
      cases he
    · simp only [hreply, Except.mapError] at h
      cases h

/-- Where the key is not deleted, knowing it is having it. -/
theorem live_of_knows (hdel : ∀ c ∈ d.writes, c.key = key → c.op ≠ opDelete) (hm : m ≠ 0) {n : NodeID}
    (h : (d.store n).Knows key m) : (d.store n).Live key := by
  have hstart : newStore.Live key ∨ newStore.versionOf key = 0 := .inr rfl
  rcases Store.live_or_unwritten (fun c hc => hdel c (d.lagging n c hc)) hstart with hlive | hzero
  · exact hlive
  · refine h.resolve_right (fun hle => hm ?_)
    rw [show (d.store n).versionOf key = 0 from hzero] at hle
    exact UInt64.le_zero_iff.mp hle

/-- Only the node answers, and all others are unavailable. -/
def only (n : NodeID) (t : RouteTarget) : Reach := if t.nodeID = n then .served else .unavailable

/-- Reads with a minimum version answer from knowledge that is new enough, except where a
node does not have the key: exactly then its call answers too early, and while the key is
never deleted the router can then report that there is none. -/
theorem minVersion_iff (d : Deliveries) (hashKey : Key → UInt64) (key : Key) {m : UInt64} (hm : m ≠ 0)
    (r : PlacementRouter) (refreshed : Option ClusterState) :
    (∀ n, (d.store n).InTime key m ↔ (d.store n).Knows key m) ∧
    ((∀ c ∈ d.writes, c.key = key → c.op ≠ opDelete) →
      ((∀ first cursor reach e, d.getWithMinVersion hashKey r key m first refreshed cursor reach = .error e → e.notFound = false) ↔
        ∀ t ∈ ((refreshed.or r.state).bind (fun state => state.targets hashKey key true)).getD [],
          (d.store t.nodeID).Knows key m)) := by
  refine ⟨fun n => Store.inTime_iff hm,fun hdel => ⟨fun h t ht => ?_,fun h first cursor reach e hres => ?_⟩⟩
  · by_contra hknows
    have hmiss := ((d.store t.nodeID).live_or_missing key).resolve_left (fun hlive => hknows (.inl hlive))
    -- the first attempt fails, and in the second only this node is up
    have hres : d.getWithMinVersion hashKey r key m ⟨fun _ => some "",fun _ => .error (.plain "")⟩ refreshed 0 (only t.nodeID) =
        .error (.status ⟨.notFound,"key not found"⟩) := by
      have hserved : ∀ u : RouteTarget, u.nodeID = t.nodeID →
          (d.attempt key m (only t.nodeID)).call u = .error (.status ⟨.notFound,"key not found"⟩) := by
        intro u hu
        simp [attempt, only, hu, Store.serveGet_missing hmiss, Except.mapError]
      refine r.rpcWithPlacement_reaches hashKey key refreshed 0 (by simp) (fun u => ?_) (fun u => ?_) ⟨t,ht,hserved t rfl⟩ rfl
      · by_cases hu : u.nodeID = t.nodeID <;> simp [attempt, only, hu]
      · by_cases hu : u.nodeID = t.nodeID
        · exact .inr (hserved u hu)
        · exact .inl ⟨.status ⟨.unavailable,""⟩,by simp [attempt, only, hu],rfl⟩
    exact nomatch h _ _ _ _ hres
  · by_contra he
    obtain ⟨t,ht,_,hcall⟩ := r.rpcWithPlacement_notFound hashKey key refreshed cursor hres (Bool.eq_true_of_not_eq_false he)
    exact missing_of_notFound hm hcall (Bool.eq_true_of_not_eq_false he) (live_of_knows hdel hm (h t ht))

def samplePut : Command := ⟨opPut,sampleKey,.singleton 1,0,5⟩

/-- Three nodes hold every vnode, and their addresses are known. -/
def sampleState : ClusterState where
  epoch := 1
  vnodes := ringIDs.map (fun v => ⟨v.toUInt32,"a",["b","c"]⟩)
  nodes := [⟨"a","10.0.0.1:7000",0⟩,⟨"b","10.0.0.2:7000",0⟩,⟨"c","10.0.0.3:7000",0⟩]

/-- One put, received by the nodes of a list. -/
def receivedBy (ids : List NodeID) : Deliveries where
  writes := [samplePut]
  received n := if n ∈ ids then [samplePut] else []
  lagging n c hc := by split at hc <;> simp_all

theorem minVersion_iff_sample : ((receivedBy ["a","b","c"]).store "b").InTime sampleKey 5 ∧ ∀ first cursor reach e,
    (receivedBy ["a","b","c"]).getWithMinVersion (fun _ => 0) ⟨some sampleState,0⟩ sampleKey 5 first none cursor reach = .error e →
      e.notFound = false := by
  have hknows (n : NodeID) (hn : n ∈ ["a","b","c"]) : ((receivedBy ["a","b","c"]).store n).Knows sampleKey 5 := by
    have hreceived : (receivedBy ["a","b","c"]).received n = [samplePut] := if_pos hn
    refine .inl ⟨.singleton 1,?_⟩
    rw [store, hreceived]
    decide
  have htargets : ∀ t ∈ (((none : Option ClusterState).or (some sampleState)).bind
      (fun state => state.targets (fun _ => 0) sampleKey true)).getD [], t.nodeID ∈ ["a","b","c"] := by
    decide +kernel
  obtain ⟨htime,hrouted⟩ :=
    minVersion_iff (receivedBy ["a","b","c"]) (fun _ => 0) sampleKey (m := 5) (by decide) ⟨some sampleState,0⟩ none
  exact ⟨(htime "b").mpr (hknows "b" (by decide)),(hrouted (by decide)).mpr (fun t ht => hknows t.nodeID (htargets t ht))⟩

/-- The put is acknowledged by the primary. A read that asks for its version is turned by the
cursor to the two replicas that have not received it, and reports that there is no key. -/
theorem lagging_replica_notFound :
    (receivedBy ["a"]).received "a" = (receivedBy ["a"]).writes ∧ samplePut ∈ (receivedBy ["a"]).writes ∧
    samplePut.op = opPut ∧ samplePut.key = sampleKey ∧ 5 ≤ samplePut.version ∧
    (∀ c ∈ (receivedBy ["a"]).writes, c.key = sampleKey → c.op ≠ opDelete) ∧
    (receivedBy ["a"]).getWithMinVersion (fun _ => 0) ⟨some sampleState,0⟩ sampleKey 5
      ((receivedBy ["a"]).attempt sampleKey 5 (fun _ => .served)) (some sampleState) 1 (fun _ => .served) =
        .error (.status ⟨.notFound,"key not found"⟩) ∧
    ¬ ((receivedBy ["a"]).store "b").InTime sampleKey 5 := by
  refine ⟨by decide,by decide,rfl,rfl,by decide,by decide,by decide +kernel,fun h => ?_⟩
  have hle : (5 : UInt64) ≤ 0 := h.answer (fun st hst => by cases hst; rfl)
  exact absurd hle (by decide)

end Deliveries
end Nawst.Cluster
