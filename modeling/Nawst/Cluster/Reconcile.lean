import Nawst.Lib.Machine
import Nawst.Cluster.Metadata

/-! The leader compares the raft configuration with the gossip membership: it adds new
nodes, and removes those that have been missing for longer than a grace period. -/
namespace Nawst.Cluster.Reconcile
open Lib Lib.FiniteMap Nawst.Core

inductive Suffrage where
  | voter | nonvoter | staging
  deriving DecidableEq, Repr

structure Server where
  id : NodeID
  suffrage : Suffrage
  deriving DecidableEq

/-- Times are in nanoseconds on the node's clock. -/
def minute : Int := 60*1000000000

/-- For how long a server may be missing. -/
def graceFor (gracePeriod : Int) (server : Server) : Int :=
  if server.suffrage = .nonvoter then minute
  else if gracePeriod = 0 then 5*minute else gracePeriod

/-- What a call finds: whether the node leads, the configuration unless it cannot be read,
the metadata of the members, the clock, the order in which the map of servers is visited and
which removals go through. -/
structure Call where
  leader : Bool
  config : Option (List Server)
  members : List String
  now : Int
  order : List Server
  removed : NodeID → Bool

namespace Call

/-- The members with metadata that can be parsed and a raft address. -/
def gossip (c : Call) : List (NodeID × Addr × Addr) :=
  c.members.filterMap (fun text => match parseMetaWithRaft id text with
    | .error _ => none
    | .ok m => if m.2.2 = "" then none else some m)

def seenInGossip (c : Call) : List NodeID := c.gossip.map Prod.fst

end Call

/-- The servers by id; a later one replaces an earlier one. -/
def existingInRaft (servers : List Server) : FMap NodeID Server := servers.foldl (fun m s => m.insert s.id s) ∅

/-- The order visits each server of the map once. -/
structure Call.Visits (c : Call) (servers : List Server) : Prop where
  distinct : (c.order.map Server.id).Nodup
  all : (c.order.map Server.id).toFinset = (existingInRaft servers).keys
  found : ∀ s ∈ c.order, (existingInRaft servers).lookup s.id = some s

instance (c : Call) (servers : List Server) : Decidable (c.Visits servers) :=
  decidable_of_iff ((c.order.map Server.id).Nodup ∧ (c.order.map Server.id).toFinset = (existingInRaft servers).keys ∧
    ∀ s ∈ c.order, (existingInRaft servers).lookup s.id = some s)
    ⟨fun h => ⟨h.1,h.2.1,h.2.2⟩,fun h => ⟨h.distinct,h.all,h.found⟩⟩

inductive RaftRequest where
  | addVoter (id : NodeID) (addr : Addr)
  | removeServer (id : NodeID)
  deriving DecidableEq

inductive Verdict where
  | pass | pardon | track | remove
  deriving DecidableEq, Repr

structure Node where
  id : NodeID
  gracePeriod : Int
  nodeRPCAddrs : FMap NodeID Addr
  deadRow : FMap NodeID Int
  clock : Int
  deriving DecidableEq

def init (id : NodeID) (gracePeriod clock : Int) : Node := ⟨id,gracePeriod,∅,∅,clock⟩

def setNodeRPCAddr (addrs : FMap NodeID Addr) (id : NodeID) (rpcAddr : Addr) : FMap NodeID Addr :=
  if trimSpace id = "" ∨ trimSpace rpcAddr = "" then addrs else addrs.insert id rpcAddr

/-- Death row while a call goes through the servers, and the removals it has asked for. -/
structure Sweep where
  row : FMap NodeID Int
  removals : List NodeID
  deriving DecidableEq

section Visit
variable (n : Node) (c : Call)

/-- What becomes of a server, by when it was first seen missing. -/
def verdict (first : Option Int) (server : Server) : Verdict :=
  if server.id = n.id then .pass
  else if server.id ∈ c.seenInGossip then .pardon
  else match first with
    | none => .track
    | some t => if graceFor n.gracePeriod server < c.now-t then .remove else .pass

def Sweep.visit (w : Sweep) (server : Server) : Sweep :=
  match verdict n c (w.row.lookup server.id) server with
  | .pass => w
  | .pardon => { w with row := w.row.erase server.id }
  | .track => { w with row := w.row.insert server.id c.now }
  | .remove => {
      row := if c.removed server.id then w.row.erase server.id else w.row
      removals := w.removals ++ [server.id] }

def sweep : Sweep := c.order.foldl (Sweep.visit n c) ⟨n.deadRow,[]⟩

end Visit

namespace Node

/-- One execution, with what it asks of raft. -/
def reconcile (n : Node) (c : Call) : Node × List RaftRequest :=
  if ¬ c.leader then (n,[])
  else match c.config with
    | none => (n,[])
    | some servers =>
      let joining := c.gossip.filter (fun m => m.1 ∉ existingInRaft servers)
      ({ n with
          nodeRPCAddrs := c.gossip.foldl (fun addrs m => setNodeRPCAddr addrs m.1 m.2.1) n.nodeRPCAddrs
          deadRow := (sweep n c).row },
       joining.map (fun m => .addVoter m.1 m.2.2) ++ (sweep n c).removals.map .removeServer)

/-- Executions follow one another on a clock that does not go back. -/
def step (n : Node) (c : Call) : Option Node :=
  if n.clock ≤ c.now ∧ ∀ servers ∈ c.config, c.Visits servers then some { (n.reconcile c).1 with clock := c.now }
  else none

end Node

section Sweep
variable {n : Node} {c : Call}

/-- The entry of a server after the visit. -/
def entryAfter (n : Node) (c : Call) (first : Option Int) (server : Server) : Option Int :=
  match verdict n c first server with
  | .pass => first
  | .pardon => none
  | .track => some c.now
  | .remove => if c.removed server.id then none else first

theorem Sweep.lookup_visit (w : Sweep) (server : Server) (id : NodeID) : (w.visit n c server).row.lookup id =
    if id = server.id then entryAfter n c (w.row.lookup id) server else w.row.lookup id := by
  unfold visit entryAfter
  by_cases hid : id = server.id
  · subst hid
    cases verdict n c (w.row.lookup server.id) server with
    | pass | pardon | track => simp
    | remove => by_cases hr : c.removed server.id <;> simp [hr]
  · cases verdict n c (w.row.lookup server.id) server with
    | pass | pardon | track => simp [hid]
    | remove => by_cases hr : c.removed server.id <;> simp [hr, hid]

theorem Sweep.mem_removals_visit (w : Sweep) (server : Server) (id : NodeID) : id ∈ (w.visit n c server).removals ↔
    id ∈ w.removals ∨ id = server.id ∧ verdict n c (w.row.lookup server.id) server = .remove := by
  unfold visit
  cases verdict n c (w.row.lookup server.id) server <;> simp

/-- Every server is judged by its own entry alone. -/
theorem foldl_visit {order : List Server} (hnd : (order.map Server.id).Nodup) (w : Sweep) :
    (∀ server ∈ order, (order.foldl (Sweep.visit n c) w).row.lookup server.id =
      entryAfter n c (w.row.lookup server.id) server) ∧
    (∀ id, id ∉ order.map Server.id → (order.foldl (Sweep.visit n c) w).row.lookup id = w.row.lookup id) ∧
    (∀ id ∈ (order.foldl (Sweep.visit n c) w).removals, id ∈ w.removals ∨
      ∃ server ∈ order, server.id = id ∧ verdict n c (w.row.lookup id) server = .remove) := by
  induction order generalizing w with
  | nil => simp
  | cons s order ih =>
    obtain ⟨hs,hnd⟩ := List.nodup_cons.mp hnd
    obtain ⟨hvisited,hother,hremovals⟩ := ih hnd (w.visit n c s)
    have hne : ∀ server ∈ order, server.id ≠ s.id := fun server hserver h => hs (h ▸ List.mem_map_of_mem hserver)
    simp only [List.foldl_cons]
    refine ⟨?_,?_,?_⟩
    · intro server hserver
      rcases List.mem_cons.mp hserver with rfl | hserver
      · rw [hother _ hs, Sweep.lookup_visit, if_pos rfl]
      · rw [hvisited server hserver, Sweep.lookup_visit, if_neg (hne server hserver)]
    · intro id hid
      rw [List.map_cons, List.mem_cons, not_or] at hid
      rw [hother id hid.2, Sweep.lookup_visit, if_neg hid.1]
    · intro id hid
      rcases hremovals id hid with hid | ⟨server,hserver,rfl,hv⟩
      · rcases (w.mem_removals_visit s id).mp hid with hid | ⟨rfl,hv⟩
        · exact .inl hid
        · exact .inr ⟨s,List.mem_cons_self,rfl,hv⟩
      · rw [Sweep.lookup_visit, if_neg (hne server hserver)] at hv
        exact .inr ⟨server,List.mem_cons_of_mem s hserver,rfl,hv⟩

end Sweep

section Verdict
variable {n : Node} {c : Call} {first : Option Int} {server : Server}

/-- A server is removed only if it is another one, missing, and has been so for long enough. -/
theorem verdict_remove (h : verdict n c first server = .remove) : server.id ≠ n.id ∧ server.id ∉ c.seenInGossip ∧
    ∃ t, first = some t ∧ graceFor n.gracePeriod server < c.now-t := by
  unfold verdict at h
  split at h
  · cases h
  · rename_i hself
    split at h
    · cases h
    · rename_i hseen
      split at h
      · cases h
      · rename_i t
        split at h
        · exact ⟨hself,hseen,t,rfl,‹_›⟩
        · cases h

/-- A server that is seen leaves death row. -/
theorem entryAfter_seen (hself : server.id ≠ n.id) (hseen : server.id ∈ c.seenInGossip) : entryAfter n c first server = none := by
  simp [entryAfter, verdict, hself, hseen]

theorem entryAfter_self (hself : server.id = n.id) : entryAfter n c first server = first := by
  simp [entryAfter, verdict, hself]

/-- One that is there afterwards was there before or is new. -/
theorem entryAfter_some {t : Int} (h : entryAfter n c first server = some t) : first = some t ∨ t = c.now := by
  unfold entryAfter at h
  split at h
  · exact .inl h
  · cases h
  · cases h
    exact .inr rfl
  · split at h
    · cases h
    · exact .inl h

end Verdict

namespace Node

/-- Whenever a member on death row is seen, the node leads, the configuration can be read and
it lists the member. -/
def Pardons (n : Node) (c : Call) : Prop :=
  ∀ id ∈ c.seenInGossip, id ∈ n.deadRow → c.leader = true ∧ ∃ servers ∈ c.config, id ∈ servers.map Server.id

instance (n : Node) (c : Call) : Decidable (n.Pardons c) :=
  inferInstanceAs (Decidable (∀ id ∈ c.seenInGossip, id ∈ n.deadRow → c.leader = true ∧ ∃ servers ∈ c.config, _))

/-- What is known after some calls: an entry on death row is not earlier than any call that
has seen the member. -/
structure Inv (node : NodeID) (gracePeriod : Int) (calls : List Call) (n : Node) : Prop where
  id_eq : n.id = node
  grace_eq : n.gracePeriod = gracePeriod
  past : ∀ c ∈ calls, c.now ≤ n.clock
  own : n.deadRow.lookup node = none
  row : ∀ id t, n.deadRow.lookup id = some t → ∀ c ∈ calls, id ∈ c.seenInGossip → c.now ≤ t

theorem init_inv (node : NodeID) (gracePeriod clock : Int) : Inv node gracePeriod [] (init node gracePeriod clock) where
  id_eq := rfl
  grace_eq := rfl
  past c hc := absurd hc List.not_mem_nil
  own := by simp [init]
  row id t _ c hc := absurd hc List.not_mem_nil

section Step
variable {n : Node} {c : Call}

theorem visits_mem {servers : List Server} (h : c.Visits servers) {id : NodeID} :
    id ∈ c.order.map Server.id ↔ id ∈ servers.map Server.id := by
  rw [← List.mem_toFinset, h.all, Finmap.mem_keys]
  exact (mem_foldl_insert Server.id (fun s => s) servers ∅).trans (or_iff_right Finmap.notMem_empty)

/-- A call reaches a server when the node leads and reads a configuration that lists it. Only
then its entry is judged. -/
theorem lookup_reconcile (hvisits : ∀ servers ∈ c.config, c.Visits servers) (id : NodeID) :
    (∃ server, server.id = id ∧ (n.reconcile c).1.deadRow.lookup id = entryAfter n c (n.deadRow.lookup id) server) ∨
    ¬ (c.leader = true ∧ ∃ servers ∈ c.config, id ∈ servers.map Server.id) ∧
      (n.reconcile c).1.deadRow.lookup id = n.deadRow.lookup id := by
  unfold reconcile
  split
  · rename_i hleader
    exact .inr ⟨fun h => hleader h.1,rfl⟩
  · split
    · rename_i hconfig
      exact .inr ⟨fun ⟨_,_,hs,_⟩ => absurd (hconfig.symm.trans hs) (by simp),rfl⟩
    · rename_i servers hconfig
      have hv := hvisits servers hconfig
      obtain ⟨hvisited,hother,_⟩ := foldl_visit (n := n) (c := c) hv.distinct ⟨n.deadRow,[]⟩
      by_cases hid : id ∈ c.order.map Server.id
      · obtain ⟨server,hserver,rfl⟩ := List.mem_map.mp hid
        exact .inl ⟨server,rfl,hvisited server hserver⟩
      · refine .inr ⟨fun ⟨_,servers',hs,hmem⟩ => hid ?_,hother id hid⟩
        cases hconfig.symm.trans hs
        exact (visits_mem hv).mpr hmem

theorem reconcile_fields : (n.reconcile c).1.id = n.id ∧ (n.reconcile c).1.gracePeriod = n.gracePeriod := by
  unfold reconcile
  split
  · exact ⟨rfl,rfl⟩
  · split <;> exact ⟨rfl,rfl⟩

theorem step_inv {node : NodeID} {gracePeriod : Int} {calls : List Call} {n' : Node} (h : Inv node gracePeriod calls n)
    (hg : n.Pardons c) (hs : n.step c = some n') : Inv node gracePeriod (calls ++ [c]) n' := by
  unfold step at hs
  split at hs
  swap
  · cases hs
  rename_i hcan
  obtain ⟨hclock,hvisits⟩ := hcan
  cases hs
  have hpast : ∀ d ∈ calls, d.now ≤ c.now := fun d hd => (h.past d hd).trans hclock
  have hown : (n.reconcile c).1.deadRow.lookup node = none := by
    rcases lookup_reconcile hvisits node with ⟨server,hid,hentry⟩ | ⟨_,hentry⟩
    · rw [hentry, entryAfter_self (hid.trans h.id_eq.symm), h.own]
    · rw [hentry, h.own]
  refine ⟨reconcile_fields.1.trans h.id_eq,reconcile_fields.2.trans h.grace_eq,
    Machine.forall_mem_concat hpast le_rfl,hown,fun id t ht => ?_⟩
  change (n.reconcile c).1.deadRow.lookup id = some t at ht
  have hself : id ≠ n.id := by
    rintro rfl
    rw [h.id_eq, hown] at ht
    cases ht
  have hentry := lookup_reconcile (n := n) hvisits id
  rw [ht] at hentry
  refine Machine.forall_mem_concat (fun d hd hseen => ?_) (fun hseen => ?_)
  · -- an earlier call: the entry is the old one, or it is made now
    rcases hentry with ⟨server,_,hentry⟩ | ⟨_,hentry⟩
    · rcases entryAfter_some hentry.symm with hold | rfl
      · exact h.row id t hold d hd hseen
      · exact hpast d hd
    · exact h.row id t hentry.symm d hd hseen
  · -- this call has seen the member, so there is no entry left
    rcases hentry with ⟨server,rfl,hentry⟩ | ⟨hmiss,hentry⟩
    · rw [entryAfter_seen hself hseen] at hentry
      cases hentry
    · have hmem : id ∈ n.deadRow := Finmap.lookup_isSome.mp (by rw [← hentry]; rfl)
      exact absurd (hg id hseen hmem) hmiss

/-- A removal that is asked for is of a listed server whose entry says so. -/
theorem mem_removals (hvisits : ∀ servers ∈ c.config, c.Visits servers) {id : NodeID}
    (h : .removeServer id ∈ (n.reconcile c).2) : ∃ servers ∈ c.config, ∃ server,
      (existingInRaft servers).lookup id = some server ∧ server.id = id ∧
      verdict n c (n.deadRow.lookup id) server = .remove := by
  unfold reconcile at h
  split at h
  · cases h
  · split at h
    · cases h
    · rename_i servers hconfig
      have hv := hvisits servers hconfig
      simp only [List.mem_append, List.mem_map, reduceCtorEq, and_false, exists_false, false_or,
        RaftRequest.removeServer.injEq, exists_eq_right] at h
      rcases (foldl_visit hv.distinct _).2.2 id h with h | ⟨server,hserver,rfl,hverdict⟩
      · cases h
      · exact ⟨servers,hconfig,server,hv.found server hserver,rfl,hverdict⟩

end Step

/-- Death row respects the grace period, when a member on it that is seen again is always
pardoned: a server whose removal is asked for is not the node itself, and no call within its
grace period has seen it. -/
theorem removal_respects_grace (node : NodeID) (gracePeriod clock : Int) (calls : List Call) (n n' : Node)
    (hg : Machine.Meets step Pardons (init node gracePeriod clock) calls)
    (hr : Machine.run step (init node gracePeriod clock) calls = some n) (c : Call) (hs : n.step c = some n')
    (id : NodeID) (hrem : .removeServer id ∈ (n.reconcile c).2) :
    id ≠ node ∧ ∃ servers ∈ c.config, ∃ server, (existingInRaft servers).lookup id = some server ∧
      ∀ d ∈ calls ++ [c], c.now-graceFor gracePeriod server ≤ d.now → id ∉ d.seenInGossip := by
  have hinv : Inv node gracePeriod calls n :=
    Machine.run_history_of_meets (fun _ _ _ _ hi hg hs => step_inv hi hg hs) (init_inv node gracePeriod clock) hg hr
  have hvisits : ∀ servers ∈ c.config, c.Visits servers := by
    unfold step at hs
    split at hs
    · rename_i hcan
      exact hcan.2
    · cases hs
  obtain ⟨servers,hconfig,server,hfound,rfl,hverdict⟩ := mem_removals hvisits hrem
  obtain ⟨hself,hmissing,t,hrow,hlong⟩ := verdict_remove hverdict
  rw [hinv.grace_eq] at hlong
  refine ⟨fun h => hself (h.trans hinv.id_eq.symm),servers,hconfig,server,hfound,?_⟩
  refine Machine.forall_mem_concat (fun d hd hin hseen => ?_) (fun _ => hmissing)
  have hle : d.now ≤ t := hinv.row server.id t hrow d hd hseen
  omega

/-- A call of the leader: the nodes in raft, the members and the time in milliseconds. -/
def sampleCall (inRaft : List NodeID) (members : List String) (ms : Int) : Call where
  leader := true
  config := some (inRaft.map (fun id => ⟨id,.voter⟩))
  members := members
  now := ms*1000000
  order := inRaft.map (fun id => ⟨id,.voter⟩)
  removed _ := true

/-- The node itself, and another one. -/
def memberA : String := "a,10.0.0.1:7000,10.0.0.1:7001"
def memberB : String := "b,10.0.0.2:7000,10.0.0.2:7001"

/-- The node with what it knows of the other one. -/
def sampleNode (addrs : FMap NodeID Addr) (deadRow : FMap NodeID Int) (ms : Int) : Node :=
  ⟨"a",2000000000,addrs,deadRow,ms*1000000⟩

def addrA : FMap NodeID Addr := Finmap.singleton "a" "10.0.0.1:7000"

theorem removal_respects_grace_sample : ∃ servers ∈ (sampleCall ["a","b"] [memberA] 3000).config, ∃ server,
    (existingInRaft servers).lookup "b" = some server ∧
    ∀ d ∈ [sampleCall ["a","b"] [memberA] 0,sampleCall ["a","b"] [memberA] 3000],
      (sampleCall ["a","b"] [memberA] 3000).now-graceFor 2000000000 server ≤ d.now → "b" ∉ d.seenInGossip :=
  (removal_respects_grace "a" 2000000000 0 [sampleCall ["a","b"] [memberA] 0] (sampleNode addrA (Finmap.singleton "b" 0) 0)
    (sampleNode addrA ∅ 3000) (by decide +kernel) (by decide +kernel) (sampleCall ["a","b"] [memberA] 3000) (by decide +kernel)
    "b" (by decide +kernel)).2

/-- The other node goes missing and is removed by another leader. It comes back and is seen,
but is not in the configuration yet, and when it is missing again it is removed at once. -/
theorem flapping_member_removed : ∃ n n',
    Machine.run step (init "a" 2000000000 0)
      [sampleCall ["a","b"] [memberA] 0,sampleCall ["a"] [memberA,memberB] 3000] = some n ∧
    n.step (sampleCall ["a","b"] [memberA] 3001) = some n' ∧
    .removeServer "b" ∈ (n.reconcile (sampleCall ["a","b"] [memberA] 3001)).2 ∧
    "b" ∈ (sampleCall ["a"] [memberA,memberB] 3000).seenInGossip ∧
    (sampleCall ["a","b"] [memberA] 3001).now-graceFor 2000000000 ⟨"b",.voter⟩ ≤ (sampleCall ["a"] [memberA,memberB] 3000).now :=
  ⟨sampleNode (addrA.insert "b" "10.0.0.2:7000") (Finmap.singleton "b" 0) 3000,
    sampleNode ((addrA.insert "b" "10.0.0.2:7000").insert "a" "10.0.0.1:7000") ∅ 3001,
    by decide +kernel,by decide +kernel,by decide +kernel,by decide +kernel,by decide +kernel⟩

end Node
end Nawst.Cluster.Reconcile
