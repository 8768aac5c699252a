import Nawst.Cluster.Reconcile

/-! The connections of a node to its peers: clients are created on demand, replication
workers keep the client they were created with, and the removal of a server closes its
connection. A connection, and the client on it, is named by the call that dials it. -/
namespace Nawst.Cluster.Connections
open Lib Lib.FiniteMap Nawst.Core

/-- Where a call to get or create a client is. -/
inductive Phase where
  | byNodeID
  | resolving
  | byAddr
  | dialing
  | dialed
  | found (client : Nat)
  | returned
  deriving DecidableEq, Repr

/-- A call, which may be made for a replication worker. -/
structure Call where
  nodeID : NodeID
  worker : Bool
  phase : Phase
  deriving DecidableEq

structure Pool where
  node : Reconcile.Node
  peers : FMap NodeID Nat
  conns : FMap NodeID Nat
  replicationWorkers : FMap NodeID Nat
  closed : Finset Nat
  calls : List Call
  deriving DecidableEq

def init (node : Reconcile.Node) : Pool := ⟨node,∅,∅,∅,∅,[]⟩

inductive Event where
  | getOrCreateClientByAddr (id : NodeID)
  | getOrCreateClientByNodeID (id : NodeID)
  | getOrCreateReplicationWorker (id : NodeID)
  | lookup (i : Nat)
  | resolve (i : Nat) (ok : Bool)
  | dial (i : Nat) (ok : Bool)
  | save (i : Nat)
  | attach (i : Nat)
  | reconcile (c : Reconcile.Call) (server : Reconcile.Server)

/-- What a lookup in the peers leads to. -/
def orElse (peers : FMap NodeID Nat) (id : NodeID) (miss : Phase) : Phase :=
  match peers.lookup id with
  | some c => .found c
  | none => miss

namespace Pool

def start (s : Pool) (call : Call) : Pool := { s with calls := s.calls ++ [call] }

def setPhase (s : Pool) (i : Nat) (call : Call) (phase : Phase) : Pool :=
  { s with calls := s.calls.set i { call with phase := phase } }

/-- After dialing: another call may have been faster, and then the connection is thrown away. -/
def save (s : Pool) (i : Nat) (call : Call) : Pool :=
  match s.peers.lookup call.nodeID with
  | some c => { s with closed := insert i s.closed }.setPhase i call (.found c)
  | none => { s with
      peers := s.peers.insert call.nodeID i
      conns := s.conns.insert call.nodeID i }.setPhase i call (.found i)

/-- A worker is created with the client that was found, unless there is one already. -/
def attach (s : Pool) (i : Nat) (call : Call) (client : Nat) : Pool :=
  match s.replicationWorkers.lookup call.nodeID with
  | some _ => s.setPhase i call .returned
  | none => { s with replicationWorkers := s.replicationWorkers.insert call.nodeID client }.setPhase i call .returned

/-- The connection of a server that was removed is closed. -/
def disconnect (s : Pool) (id : NodeID) : Pool :=
  match s.conns.lookup id with
  | some c => { s with closed := insert c s.closed, conns := s.conns.erase id, peers := s.peers.erase id }
  | none => s

/-- The visit of the server removes it. -/
def Removes (s : Pool) (c : Reconcile.Call) (server : Reconcile.Server) : Prop :=
  server.id ∈ (Reconcile.Sweep.visit s.node c ⟨s.node.deadRow,[]⟩ server).removals ∧ c.removed server.id = true

instance (s : Pool) (c : Reconcile.Call) (server : Reconcile.Server) : Decidable (s.Removes c server) :=
  inferInstanceAs (Decidable (_ ∧ _))

/-- The leader comes to the server when it goes through the configuration. -/
def Comes (c : Reconcile.Call) (server : Reconcile.Server) : Prop :=
  c.leader = true ∧ ∃ servers ∈ c.config, (Reconcile.existingInRaft servers).lookup server.id = some server

instance (c : Reconcile.Call) (server : Reconcile.Server) : Decidable (Comes c server) :=
  inferInstanceAs (Decidable (_ ∧ ∃ servers ∈ c.config, (Reconcile.existingInRaft servers).lookup server.id = some server))

/-- One server is visited by a reconciliation. -/
def visit (s : Pool) (c : Reconcile.Call) (server : Reconcile.Server) : Pool :=
  let s' := { s with node := { s.node with deadRow := (Reconcile.Sweep.visit s.node c ⟨s.node.deadRow,[]⟩ server).row } }
  if s.Removes c server then s'.disconnect server.id else s'

def step (s : Pool) : Event → Option Pool
  | .getOrCreateClientByAddr id => some (s.start ⟨id,false,.byAddr⟩)
  | .getOrCreateClientByNodeID id => some (s.start ⟨id,false,.byNodeID⟩)
  | .getOrCreateReplicationWorker id => some (s.start ⟨id,true,.byNodeID⟩)
  | .lookup i => do
    let call ← s.calls[i]?
    match call.phase with
    | .byNodeID => some (s.setPhase i call (orElse s.peers call.nodeID .resolving))
    | .byAddr => some (s.setPhase i call (orElse s.peers call.nodeID .dialing))
    | _ => none
  | .resolve i ok => do
    let call ← s.calls[i]?
    if call.phase = .resolving then some (s.setPhase i call (if ok then .byAddr else .returned)) else none
  | .dial i ok => do
    let call ← s.calls[i]?
    if call.phase = .dialing then some (s.setPhase i call (if ok then .dialed else .returned)) else none
  | .save i => do
    let call ← s.calls[i]?
    if call.phase = .dialed then some (s.save i call) else none
  | .attach i => do
    let call ← s.calls[i]?
    match call.phase, call.worker with
    | .found client, true => some (s.attach i call client)
    | _, _ => none
  | .reconcile c server => if Comes c server then some (s.visit c server) else none

/-- What a step can do. -/
inductive Fires (s : Pool) : Event → Pool → Prop where
  | start {e : Event} (call : Call) (hp : call.phase = .byAddr ∨ call.phase = .byNodeID) : Fires s e (s.start call)
  | lookup {i : Nat} {call : Call} (hc : s.calls[i]? = some call) (miss : Phase)
      (hp : call.phase = .byNodeID ∧ miss = .resolving ∨ call.phase = .byAddr ∧ miss = .dialing) :
      Fires s (.lookup i) (s.setPhase i call (orElse s.peers call.nodeID miss))
  | resolve {i : Nat} {call : Call} (hc : s.calls[i]? = some call) (hp : call.phase = .resolving) (ok : Bool) :
      Fires s (.resolve i ok) (s.setPhase i call (if ok then .byAddr else .returned))
  | dial {i : Nat} {call : Call} (hc : s.calls[i]? = some call) (hp : call.phase = .dialing) (ok : Bool) :
      Fires s (.dial i ok) (s.setPhase i call (if ok then .dialed else .returned))
  | save {i : Nat} {call : Call} (hc : s.calls[i]? = some call) (hp : call.phase = .dialed) : Fires s (.save i) (s.save i call)
  | attach {i : Nat} {call : Call} {client : Nat} (hc : s.calls[i]? = some call) (hp : call.phase = .found client)
      (hw : call.worker = true) : Fires s (.attach i) (s.attach i call client)
  | reconcile (c : Reconcile.Call) (server : Reconcile.Server) : Fires s (.reconcile c server) (s.visit c server)

theorem step_fires {s s' : Pool} {e : Event} (h : s.step e = some s') : Fires s e s' := by
  cases e with
  | getOrCreateClientByAddr id =>
    cases h
    exact .start _ (.inl rfl)
  | getOrCreateClientByNodeID id =>
    cases h
    exact .start _ (.inr rfl)
  | getOrCreateReplicationWorker id =>
    cases h
    exact .start _ (.inr rfl)
  | lookup i =>
    simp only [step, Option.bind_eq_bind, Option.bind_eq_some_iff] at h
    obtain ⟨call,hc,h⟩ := h
    split at h
    · cases h
      exact .lookup hc _ (.inl ⟨‹_›,rfl⟩)
    · cases h
      exact .lookup hc _ (.inr ⟨‹_›,rfl⟩)
    · cases h
  | resolve i ok =>
    simp only [step, Option.bind_eq_bind, Option.bind_eq_some_iff] at h
    obtain ⟨call,hc,h⟩ := h
    split at h
    · cases h
      exact .resolve hc ‹_› ok
    · cases h
  | dial i ok =>
    simp only [step, Option.bind_eq_bind, Option.bind_eq_some_iff] at h
    obtain ⟨call,hc,h⟩ := h
    split at h
    · cases h
      exact .dial hc ‹_› ok
    · cases h
  | save i =>
    simp only [step, Option.bind_eq_bind, Option.bind_eq_some_iff] at h
    obtain ⟨call,hc,h⟩ := h
    split at h
    · cases h
      exact .save hc ‹_›
    · cases h
  | attach i =>
    simp only [step, Option.bind_eq_bind, Option.bind_eq_some_iff] at h
    obtain ⟨call,hc,h⟩ := h
    split at h
    · cases h
      exact .attach hc ‹_› ‹_›
    · cases h
  | reconcile c server =>
    simp only [step] at h
    split at h
    · cases h
      exact .reconcile c server
    · cases h

/-- The call has not saved a connection yet. -/
def Early : Phase → Prop
  | .found _ | .returned => False
  | _ => True

instance (p : Phase) : Decidable (Early p) :=
  match p with
  | .found _ | .returned => isFalse (fun h => h)
  | .byNodeID | .resolving | .byAddr | .dialing | .dialed => isTrue trivial

/-- The connection named by the number is in no table yet. -/
def Unsaved (s : Pool) (i : Nat) : Prop := ∀ call ∈ s.calls[i]?, Early call.phase

/-- Every worker uses the client that is stored for its node, on the stored connection, which
is open. -/
def Connected (s : Pool) : Prop := ∀ id c, s.replicationWorkers.lookup id = some c →
  s.peers.lookup id = some c ∧ s.conns.lookup id = some c ∧ c ∉ s.closed

/-- A server is removed only while it has no worker, and no call that has found a client is
about to make it one. -/
def Unused (s : Pool) : Event → Prop
  | .reconcile c server => s.Removes c server → s.replicationWorkers.lookup server.id = none ∧
      ∀ call ∈ s.calls, call.nodeID = server.id → call.worker = true → Early call.phase ∨ call.phase = .returned
  | _ => True

instance (s : Pool) (e : Event) : Decidable (s.Unused e) :=
  match e with
  | .reconcile c server => inferInstanceAs (Decidable (s.Removes c server → _ ∧ ∀ call ∈ s.calls, _ → _ → _ ∨ _))
  | .getOrCreateClientByAddr _ | .getOrCreateClientByNodeID _ | .getOrCreateReplicationWorker _ | .lookup _ | .resolve _ _
  | .dial _ _ | .save _ | .attach _ => isTrue trivial

structure Inv (s : Pool) : Prop where
  conns : ∀ id, s.conns.lookup id = s.peers.lookup id
  opened : ∀ id c, s.peers.lookup id = some c → c ∉ s.closed
  unshared : ∀ id id' c, s.peers.lookup id = some c → s.peers.lookup id' = some c → id = id'
  unsaved : ∀ i, s.Unsaved i → i ∉ s.closed ∧ ∀ id, s.peers.lookup id ≠ some i
  pending : ∀ call ∈ s.calls, call.worker = true → ∀ c, call.phase = .found c → s.peers.lookup call.nodeID = some c
  workers : ∀ id c, s.replicationWorkers.lookup id = some c → s.peers.lookup id = some c

theorem Inv.connected {s : Pool} (h : s.Inv) : s.Connected := fun id c hw =>
  ⟨h.workers id c hw,(h.conns id).trans (h.workers id c hw),h.opened id c (h.workers id c hw)⟩

theorem init_inv (node : Reconcile.Node) : (init node).Inv where
  conns id := by simp [init]
  opened id c h := by simp [init] at h
  unshared id id' c h := by simp [init] at h
  unsaved i _ := ⟨by simp [init],by simp [init]⟩
  pending call h := by simp [init] at h
  workers id c h := by simp [init] at h

section Step
variable {s : Pool} {i : Nat} {call : Call}

theorem unsaved_of_start {j : Nat} (h : (s.start call).Unsaved j) : s.Unsaved j := by
  intro c hc
  refine h c ?_
  obtain ⟨hlt,_⟩ := List.getElem?_eq_some_iff.mp hc
  exact (List.getElem?_append_left hlt).trans hc

/-- A call that goes on does not take back a connection. -/
theorem unsaved_of_setPhase {j : Nat} {phase : Phase} (hc : s.calls[i]? = some call)
    (hearly : Early call.phase ∨ ¬ Early phase) (h : (s.setPhase i call phase).Unsaved j) :
    s.Unsaved j ∧ (¬ Early phase → j ≠ i) := by
  obtain ⟨hlt,_⟩ := List.getElem?_eq_some_iff.mp hc
  have hself : j = i → Early phase := by
    rintro rfl
    exact h _ (List.getElem?_set_self hlt)
  refine ⟨fun c hcj => ?_,fun hlate hj => hlate (hself hj)⟩
  by_cases hj : j = i
  · subst hj
    cases hc.symm.trans hcj
    exact hearly.resolve_right (not_not_intro (hself rfl))
  · exact h c ((List.getElem?_set_ne (Ne.symm hj)).trans hcj)

theorem Inv.start (h : s.Inv) (hp : call.phase = .byAddr ∨ call.phase = .byNodeID) : (s.start call).Inv where
  conns := h.conns
  opened := h.opened
  unshared := h.unshared
  unsaved j hj := h.unsaved j (unsaved_of_start hj)
  pending := Machine.forall_mem_concat h.pending (fun _ c hc => by rcases hp with hp | hp <;> cases hp.symm.trans hc)
  workers := h.workers

/-- The tables stay as they are while a call goes on, as long as what it has found is stored. -/
theorem Inv.setPhase (h : s.Inv) (hc : s.calls[i]? = some call) {phase : Phase}
    (hearly : Early call.phase ∨ ¬ Early phase) (hfound : ∀ c, phase = .found c → s.peers.lookup call.nodeID = some c) :
    (s.setPhase i call phase).Inv where
  conns := h.conns
  opened := h.opened
  unshared := h.unshared
  unsaved j hj := h.unsaved j (unsaved_of_setPhase hc hearly hj).1
  pending := Machine.forall_mem_set h.pending (fun _ c hphase => hfound c hphase)
  workers := h.workers

theorem orElse_found {peers : FMap NodeID Nat} {id : NodeID} {miss : Phase} (hmiss : Early miss) {c : Nat}
    (h : orElse peers id miss = .found c) : peers.lookup id = some c := by
  unfold orElse at h
  split at h
  · cases h
    assumption
  · rw [h] at hmiss
    exact hmiss.elim

section Save
variable (h : s.Inv) (hc : s.calls[i]? = some call) (hp : call.phase = .dialed)
include h hc hp

theorem Inv.own : i ∉ s.closed ∧ ∀ id, s.peers.lookup id ≠ some i :=
  h.unsaved i (fun c hci => by cases hc.symm.trans hci; rw [hp]; trivial)

/-- Another call was faster, and the connection is thrown away. -/
theorem Inv.discard {client : Nat} (hpeer : s.peers.lookup call.nodeID = some client) :
    ({ s with closed := insert i s.closed }.setPhase i call (.found client)).Inv where
  conns := h.conns
  opened id c hid hmem := by
    rcases Finset.mem_insert.mp hmem with rfl | hmem
    · exact (h.own hc hp).2 id hid
    · exact h.opened id c hid hmem
  unshared := h.unshared
  unsaved j hj := by
    obtain ⟨hj,hne⟩ := unsaved_of_setPhase hc (.inl (hp ▸ trivial)) hj
    obtain ⟨hclosed,hpeers⟩ := h.unsaved j hj
    exact ⟨fun hmem => (Finset.mem_insert.mp hmem).elim (hne (fun h => h)) hclosed,hpeers⟩
  pending := Machine.forall_mem_set h.pending (fun _ c hphase => by cases hphase; exact hpeer)
  workers := h.workers

/-- The connection is saved for its node, which had none. -/
theorem Inv.saved (hpeer : s.peers.lookup call.nodeID = none) : ({ s with
    peers := s.peers.insert call.nodeID i, conns := s.conns.insert call.nodeID i }.setPhase i call (.found i)).Inv := by
  have hkeep : ∀ id c, s.peers.lookup id = some c → (s.peers.insert call.nodeID i).lookup id = some c := by
    intro id c hid
    rw [lookup_insert_ite, if_neg (fun heq => by rw [heq, hpeer] at hid; cases hid)]
    exact hid
  have hnew : ∀ id c, (s.peers.insert call.nodeID i).lookup id = some c →
      id = call.nodeID ∧ c = i ∨ s.peers.lookup id = some c ∧ c ≠ i := by
    intro id c hid
    rw [lookup_insert_ite] at hid
    split at hid
    · cases hid
      exact .inl ⟨‹_›,rfl⟩
    · exact .inr ⟨hid,fun hci => (h.own hc hp).2 id (hci ▸ hid)⟩
  refine ⟨fun id => ?_,fun id c hid => ?_,fun id id' c hid hid' => ?_,fun j hj => ?_,?_,
    fun id c hid => hkeep id c (h.workers id c hid)⟩
  · exact (lookup_insert_ite _ _ _ _).trans ((congrArg _ (h.conns id)).trans (lookup_insert_ite _ _ _ _).symm)
  · rcases hnew id c hid with ⟨_,rfl⟩ | ⟨hid,_⟩
    · exact (h.own hc hp).1
    · exact h.opened id c hid
  · rcases hnew id c hid with ⟨rfl,rfl⟩ | ⟨hid,hne⟩
    · rcases hnew id' c hid' with ⟨rfl,_⟩ | ⟨_,hne⟩
      · rfl
      · exact absurd rfl hne
    · rcases hnew id' c hid' with ⟨_,rfl⟩ | ⟨hid',_⟩
      · exact absurd rfl hne
      · exact h.unshared id id' c hid hid'
  · obtain ⟨hj,hne⟩ := unsaved_of_setPhase hc (.inl (hp ▸ trivial)) hj
    obtain ⟨hclosed,hpeers⟩ := h.unsaved j hj
    refine ⟨hclosed,fun id hid => ?_⟩
    rcases hnew id j hid with ⟨_,rfl⟩ | ⟨hid,_⟩
    · exact hne (fun h => h) rfl
    · exact hpeers id hid
  · refine Machine.forall_mem_set (fun other hother hw c hphase => hkeep _ c (h.pending other hother hw c hphase)) ?_
    intro _ c hphase
    cases hphase
    exact Finmap.lookup_insert _

theorem Inv.save : (s.save i call).Inv := by
  unfold Pool.save
  split
  · exact h.discard hc hp ‹_›
  · exact h.saved hc hp ‹_›

end Save

theorem Inv.attach (h : s.Inv) {client : Nat} (hc : s.calls[i]? = some call) (hp : call.phase = .found client)
    (hw : call.worker = true) : (s.attach i call client).Inv := by
  have hlate : ¬ Early .returned := fun h => h
  unfold Pool.attach
  split
  · exact h.setPhase hc (.inr hlate) (fun c hc => by cases hc)
  · have hpeer := h.pending call (List.mem_of_getElem? hc) hw client hp
    have hnext : (s.setPhase i call .returned).Inv := h.setPhase hc (.inr hlate) (fun c hc => by cases hc)
    refine ⟨hnext.conns,hnext.opened,hnext.unshared,hnext.unsaved,hnext.pending,fun id c hid => ?_⟩
    change (s.replicationWorkers.insert call.nodeID client).lookup id = some c at hid
    rw [lookup_insert_ite] at hid
    split at hid
    · rename_i heq
      cases hid
      exact heq ▸ hpeer
    · exact h.workers id c hid

/-- A connection is closed that no worker uses or is about to use. -/
theorem Inv.disconnect (h : s.Inv) {id : NodeID} (hworker : s.replicationWorkers.lookup id = none)
    (hcalls : ∀ call ∈ s.calls, call.nodeID = id → call.worker = true → Early call.phase ∨ call.phase = .returned) :
    (s.disconnect id).Inv := by
  unfold Pool.disconnect
  split
  swap
  · exact h
  rename_i c hconn
  have hpeer : s.peers.lookup id = some c := (h.conns id).symm.trans hconn
  have hkeep : ∀ id' d, s.peers.lookup id' = some d → id' ≠ id → (s.peers.erase id).lookup id' = some d := by
    intro id' d hd hne
    rwa [lookup_erase_ite, if_neg hne]
  have hold : ∀ id' d, (s.peers.erase id).lookup id' = some d → id' ≠ id ∧ s.peers.lookup id' = some d := by
    intro id' d hd
    rw [lookup_erase_ite] at hd
    split at hd
    · cases hd
    · exact ⟨‹_›,hd⟩
  refine ⟨fun id' => ?_,fun id' d hd hmem => ?_,fun id' id'' d hd hd' => ?_,fun j hj => ?_,fun call hcall hw d hd => ?_,
    fun id' d hd => ?_⟩
  · exact (lookup_erase_ite _ _ _).trans ((congrArg _ (h.conns id')).trans (lookup_erase_ite _ _ _).symm)
  · obtain ⟨hne,hbefore⟩ := hold id' d hd
    rcases Finset.mem_insert.mp hmem with rfl | hmem
    · exact hne (h.unshared id' id d hbefore hpeer)
    · exact h.opened id' d hbefore hmem
  · exact h.unshared id' id'' d (hold id' d hd).2 (hold id'' d hd').2
  · obtain ⟨hclosed,hpeers⟩ := h.unsaved j hj
    refine ⟨fun hmem => ?_,fun id' hd => hpeers id' (hold id' j hd).2⟩
    rcases Finset.mem_insert.mp hmem with rfl | hmem
    · exact hpeers id hpeer
    · exact hclosed hmem
  · refine hkeep _ d (h.pending call hcall hw d hd) (fun hid => ?_)
    rcases hcalls call hcall hid hw with hearly | hret
    · rw [hd] at hearly
      exact hearly
    · cases hret.symm.trans hd
  · refine hkeep id' d (h.workers id' d hd) (fun hid => ?_)
    cases hworker.symm.trans (hid ▸ hd)

theorem step_inv {s' : Pool} {e : Event} (h : s.Inv) (hg : s.Unused e) (hs : s.step e = some s') : s'.Inv := by
  cases step_fires hs with
  | start call hp => exact h.start hp
  | lookup hc miss hp =>
    have hearly : Early miss := by rcases hp with ⟨_,rfl⟩ | ⟨_,rfl⟩ <;> trivial
    refine h.setPhase hc (.inl ?_) (fun c hfound => orElse_found hearly hfound)
    rcases hp with ⟨hp,_⟩ | ⟨hp,_⟩ <;> rw [hp] <;> trivial
  | resolve hc hp ok => exact h.setPhase hc (.inl (by rw [hp]; trivial)) (fun c hfound => by cases ok <;> cases hfound)
  | dial hc hp ok => exact h.setPhase hc (.inl (by rw [hp]; trivial)) (fun c hfound => by cases ok <;> cases hfound)
  | save hc hp => exact h.save hc hp
  | attach hc hp hw => exact h.attach hc hp hw
  | reconcile c server =>
    have hnode : ∀ node, ({ s with node := node } : Pool).Inv := fun node =>
      ⟨h.conns,h.opened,h.unshared,h.unsaved,h.pending,h.workers⟩
    unfold Pool.visit
    split
    · rename_i hrem
      exact (hnode _).disconnect (hg hrem).1 (hg hrem).2
    · exact hnode _

end Step

/-- Replication workers use the stored connection of their node, and it is open, when a server
is removed only while it has no worker and none is being created. -/
theorem workers_connected (node : Reconcile.Node) (es : List Event) (s : Pool)
    (hg : Machine.Meets step Unused (init node) es) (hr : Machine.run step (init node) es = some s) : s.Connected :=
  (Machine.run_invariant_of_meets (I := Inv) (fun _ _ _ hi hg hs => step_inv hi hg hs) (init_inv node) hg hr).connected

/-- A worker for another node is created, with a connection of its own. -/
def createWorker : List Event :=
  [.getOrCreateReplicationWorker "b",.lookup 0,.resolve 0 true,.lookup 0,.dial 0 true,.save 0,.attach 0]

/-- A round of the leader that finds the other node missing. -/
def missing (ms : Int) : Event := .reconcile (Reconcile.Node.sampleCall ["a","b"] [Reconcile.Node.memberA] ms) ⟨"b",.voter⟩

/-- The other node goes missing before it has a worker, and is removed. -/
theorem workers_connected_sample : ∃ s, Machine.run step (init (Reconcile.init "a" 2000000000 0))
    (missing 0::missing 3000::createWorker) = some s ∧ s.Connected := by
  have hrun : (Machine.run step (init (Reconcile.init "a" 2000000000 0)) (missing 0::missing 3000::createWorker)).isSome := by
    decide +kernel
  obtain ⟨s,hs⟩ := Option.isSome_iff_exists.mp hrun
  exact ⟨s,hs,workers_connected _ _ s (by decide +kernel) hs⟩

/-- The other node has a worker when it is removed. It comes back with a new connection, and
the worker goes on with the closed one. -/
def rejoin : List Event :=
  createWorker ++ [missing 0,missing 3000,.getOrCreateClientByAddr "b",.lookup 1,.dial 1 true,.save 1]

theorem worker_left_behind : ∃ s, Machine.run step (init (Reconcile.init "a" 2000000000 0)) rejoin = some s ∧
    s.replicationWorkers.lookup "b" = some 0 ∧ s.peers.lookup "b" = some 1 ∧ 0 ∈ s.closed ∧ ¬ s.Connected := by
  have hrun : (Machine.run step (init (Reconcile.init "a" 2000000000 0)) rejoin).map
      (fun s => (s.replicationWorkers.lookup "b",s.peers.lookup "b",decide (0 ∈ s.closed))) = some (some 0,some 1,true) := by
    decide +kernel
  obtain ⟨s,hs,hfacts⟩ := Option.map_eq_some_iff.mp hrun
  simp only [Prod.mk.injEq, decide_eq_true_eq] at hfacts
  obtain ⟨hworker,hpeer,hclosed⟩ := hfacts
  exact ⟨s,hs,hworker,hpeer,hclosed,fun h => (h "b" 0 hworker).2.2 hclosed⟩

end Pool
end Nawst.Cluster.Connections
