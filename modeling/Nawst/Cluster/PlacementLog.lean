import Nawst.Lib.EpochLog
import Nawst.Cluster.Migration
import Nawst.Cluster.Update

/-! The placements of a whole cluster. Any node may compute a placement from the one it
has at the time; raft orders what is proposed in one log, loses some of it, and feeds the
log to every node at a pace of its own, from snapshots as well and anew after a restart.
A node whose callback panics does nothing more until it is restarted. -/
namespace Nawst.Cluster
open Lib Nawst.Core

namespace PlacementLog
open Update EpochLog
open PlacementFSM (zero)

/-- An entry of the raft log, with the placement it was computed from. -/
abbrev Entry := EpochLog.Entry ScoredPlacement

def epochOf (p : ScoredPlacement) : Nat := p.epoch.toNat

/-- A node: its state machine, how much of the log that has been fed, the replicator that
the machine calls back, and whether the process has gone down in the callback. -/
structure Node where
  self : NodeID
  fsm : PlacementFSM
  fed : Nat
  replicator : Replicator
  crashed : Bool

/-- An index is out of range when a vnode of the new placement is looked up in the old one. For
a vnode that the node gains this is done by the migration that it starts. -/
def vnodePanics (self : NodeID) (old new : Placement) (v : UInt16) : Bool :=
  match Migration.classify self old new v with
  | none => true
  | some .gained => (Migration.gainedCandidates self old new v).isNone
  | some .lost | some .changedReplicas | some .addedReplica | some .unaffected => false

def migrationPanics (self : NodeID) (old new : Placement) : Bool := (new.vnodes.map VNode.id).any (vnodePanics self old new)

namespace Node

def start (self : NodeID) : Node := ⟨self,newPlacementFSM true,0,newReplicator,false⟩

/-- The placement is set before it is compared with the one before, if there was one. -/
def applyPlacementFromRaft (n : Node) (p : ScoredPlacement) : Node :=
  { n with
    replicator := { n.replicator with placement := some p }
    crashed := n.crashed || n.replicator.placement.any (fun old => migrationPanics n.self old.toPlacement p.toPlacement) }

/-- The machine has moved on and calls back with what it installed. -/
def notify (n : Node) (fsm : PlacementFSM) (fed : Nat) : Node :=
  (fsm.notified.drop n.fsm.notified.length).foldl applyPlacementFromRaft { n with fsm := fsm, fed := fed }

def apply (n : Node) (next : ScoredPlacement) : Node := n.notify (n.fsm.offer next) (n.fed+1)

def restore (n : Node) (fed : Nat) (p : ScoredPlacement) : Node := n.notify (n.fsm.install p) fed

end Node

/-- The log that raft agrees on, the proposals on their way there, the snapshots taken and
the nodes. All proposals ever made are recorded. -/
structure Group where
  log : List Entry
  pending : List Entry
  proposals : List Proposal
  snapshots : List (Nat × ScoredPlacement)
  nodes : List Node

def init : Group := ⟨[],[],[],[],[]⟩

/-- A proposal is handed to raft. -/
def Group.propose (s : Group) (placement : Option ScoredPlacement) : Option Proposal → Group
  | none => s
  | some q => { s with pending := s.pending ++ [⟨base placement,q.next⟩], proposals := s.proposals ++ [q] }

/-- A node whose process is up. -/
def Group.running (s : Group) (i : Nat) : Option Node := s.nodes[i]?.filter (fun n => n.crashed = false)

theorem Group.running_eq_some {s : Group} {i : Nat} {n : Node} :
    s.running i = some n ↔ s.nodes[i]? = some n ∧ n.crashed = false := by
  simp [Group.running, Option.filter_eq_some_iff]

inductive Event where
  | start (self : NodeID)
  | metrics (i : Nat) (msg : Option GossipMetricsMessage)
  | updatePlacement (i : Nat) (view : View)
  | updatePlacementShortTerm (i : Nat) (view : View)
  | commit (k : Nat)
  | lose (k : Nat)
  | feed (i : Nat)
  | snapshot (i : Nat)
  | installSnapshot (i k : Nat)
  | restart (i : Nat) (k : Option Nat)

/-- A panic in an update ends the run. -/
def step (cfg : Config) (s : Group) : Event → Option Group
  | .start self => some { s with nodes := s.nodes ++ [.start self] }
  | .metrics i msg => do
    let n ← s.running i
    some { s with nodes := s.nodes.set i { n with replicator := n.replicator.handleMetricsMessage msg } }
  | .updatePlacement i view => do
    let n ← s.running i
    let q ← (n.replicator.longProposal cfg view).toOption
    some (s.propose n.replicator.placement q)
  | .updatePlacementShortTerm i view => do
    let n ← s.running i
    let (r,q) := n.replicator.shortProposal cfg view
    some (Group.propose { s with nodes := s.nodes.set i { n with replicator := r } } n.replicator.placement q)
  | .commit k => do
    let e ← s.pending[k]?
    some { s with log := s.log ++ [e], pending := s.pending.eraseIdx k }
  | .lose k => some { s with pending := s.pending.eraseIdx k }
  | .feed i => do
    let n ← s.running i
    let e ← s.log[n.fed]?
    some { s with nodes := s.nodes.set i (n.apply e.next) }
  | .snapshot i => do
    let n ← s.running i
    some { s with snapshots := s.snapshots ++ [(n.fed,n.fsm.snapshot)] }
  | .installSnapshot i k => do
    let n ← s.running i
    let (fed,p) ← s.snapshots[k]?
    if n.fed ≤ fed then some { s with nodes := s.nodes.set i (n.restore fed p) } else none
  | .restart i none => do
    let n ← s.nodes[i]?
    some { s with nodes := s.nodes.set i (.start n.self) }
  | .restart i (some k) => do
    let n ← s.nodes[i]?
    let (fed,p) ← s.snapshots[k]?
    some { s with nodes := s.nodes.set i ((Node.start n.self).restore fed p) }

/-- Everything a step can do. -/
inductive Fires (cfg : Config) (s : Group) : Event → Group → Prop where
  | start (self : NodeID) : Fires cfg s (.start self) { s with nodes := s.nodes ++ [.start self] }
  | metrics {i : Nat} {n : Node} (msg : Option GossipMetricsMessage) (hi : s.nodes[i]? = some n) (hup : n.crashed = false) :
      Fires cfg s (.metrics i msg)
        { s with nodes := s.nodes.set i { n with replicator := n.replicator.handleMetricsMessage msg } }
  | long {i : Nat} {n : Node} {view : View} {q : Option Proposal} (hi : s.nodes[i]? = some n) (hup : n.crashed = false)
      (hq : n.replicator.longProposal cfg view = .ok q) :
      Fires cfg s (.updatePlacement i view) (s.propose n.replicator.placement q)
  | short {i : Nat} {n : Node} (view : View) (hi : s.nodes[i]? = some n) (hup : n.crashed = false) :
      Fires cfg s (.updatePlacementShortTerm i view) (Group.propose
        { s with nodes := s.nodes.set i { n with replicator := (n.replicator.shortProposal cfg view).1 } }
        n.replicator.placement (n.replicator.shortProposal cfg view).2)
  | commit {k : Nat} {e : Entry} (hk : s.pending[k]? = some e) :
      Fires cfg s (.commit k) { s with log := s.log ++ [e], pending := s.pending.eraseIdx k }
  | lose (k : Nat) : Fires cfg s (.lose k) { s with pending := s.pending.eraseIdx k }
  | feed {i : Nat} {n : Node} {e : Entry} (hi : s.nodes[i]? = some n) (hup : n.crashed = false) (he : s.log[n.fed]? = some e) :
      Fires cfg s (.feed i) { s with nodes := s.nodes.set i (n.apply e.next) }
  | snapshot {i : Nat} {n : Node} (hi : s.nodes[i]? = some n) (hup : n.crashed = false) :
      Fires cfg s (.snapshot i) { s with snapshots := s.snapshots ++ [(n.fed,n.fsm.snapshot)] }
  | installSnapshot {i k fed : Nat} {n : Node} {p : ScoredPlacement} (hi : s.nodes[i]? = some n) (hup : n.crashed = false)
      (hk : s.snapshots[k]? = some (fed,p)) (hle : n.fed ≤ fed) :
      Fires cfg s (.installSnapshot i k) { s with nodes := s.nodes.set i (n.restore fed p) }
  | restart {i : Nat} {n : Node} (hi : s.nodes[i]? = some n) :
      Fires cfg s (.restart i none) { s with nodes := s.nodes.set i (.start n.self) }
  | restartFrom {i k fed : Nat} {n : Node} {p : ScoredPlacement} (hi : s.nodes[i]? = some n)
      (hk : s.snapshots[k]? = some (fed,p)) :
      Fires cfg s (.restart i (some k)) { s with nodes := s.nodes.set i ((Node.start n.self).restore fed p) }

theorem step_fires {cfg : Config} {s s' : Group} {e : Event} (hs : step cfg s e = some s') : Fires cfg s e s' := by
  cases e with
  | start self =>
    cases hs
    exact .start self
  | metrics i msg =>
    simp only [step, Option.bind_eq_bind, Option.bind_eq_some_iff, Option.some.injEq,
      Group.running_eq_some] at hs
    obtain ⟨n,⟨hi,hup⟩,rfl⟩ := hs
    exact .metrics msg hi hup
  | updatePlacement i view =>
    simp only [step, Option.bind_eq_bind, Option.bind_eq_some_iff, Option.some.injEq,
      Group.running_eq_some] at hs
    obtain ⟨n,⟨hi,hup⟩,q,hq,rfl⟩ := hs
    cases hok : n.replicator.longProposal cfg view with
    | error e => simp [hok, Except.toOption] at hq
    | ok q' =>
      obtain rfl : q' = q := by simpa [hok, Except.toOption] using hq
      exact .long hi hup hok
  | updatePlacementShortTerm i view =>
    simp only [step, Option.bind_eq_bind, Option.bind_eq_some_iff, Option.some.injEq,
      Group.running_eq_some] at hs
    obtain ⟨n,⟨hi,hup⟩,rfl⟩ := hs
    exact .short view hi hup
  | commit k =>
    simp only [step, Option.bind_eq_bind, Option.bind_eq_some_iff, Option.some.injEq] at hs
    obtain ⟨e,hk,rfl⟩ := hs
    exact .commit hk
  | lose k =>
    cases hs
    exact .lose k
  | feed i =>
    simp only [step, Option.bind_eq_bind, Option.bind_eq_some_iff, Option.some.injEq,
      Group.running_eq_some] at hs
    obtain ⟨n,⟨hi,hup⟩,e,he,rfl⟩ := hs
    exact .feed hi hup he
  | snapshot i =>
    simp only [step, Option.bind_eq_bind, Option.bind_eq_some_iff, Option.some.injEq,
      Group.running_eq_some] at hs
    obtain ⟨n,⟨hi,hup⟩,rfl⟩ := hs
    exact .snapshot hi hup
  | installSnapshot i k =>
    simp only [step, Option.bind_eq_bind, Option.bind_eq_some_iff, Prod.exists, Option.ite_none_right_eq_some,
      Option.some.injEq, Group.running_eq_some] at hs
    obtain ⟨n,⟨hi,hup⟩,fed,p,hk,hle,rfl⟩ := hs
    exact .installSnapshot hi hup hk hle
  | restart i k =>
    cases k with
    | none =>
      simp only [step, Option.bind_eq_bind, Option.bind_eq_some_iff, Option.some.injEq] at hs
      obtain ⟨n,hi,rfl⟩ := hs
      exact .restart hi
    | some k =>
      simp only [step, Option.bind_eq_bind, Option.bind_eq_some_iff, Prod.exists, Option.some.injEq] at hs
      obtain ⟨n,hi,fed,p,hk,rfl⟩ := hs
      exact .restartFrom hi hk

theorem step_long {cfg : Config} {s : Group} {i : Nat} {n : Node} {view : View} {q : Option Proposal}
    (hi : s.nodes[i]? = some n) (hup : n.crashed = false) (hq : n.replicator.longProposal cfg view = .ok q) :
    step cfg s (.updatePlacement i view) = some (s.propose n.replicator.placement q) := by
  have hrun := Group.running_eq_some.mpr ⟨hi,hup⟩
  simp only [step, hrun, hq, Option.bind_eq_bind, Option.bind_some, Except.toOption]

/-- A machine holds the value of the log, or the placement that stands for none. -/
def Holds (v placement : Option ScoredPlacement) : Prop := placement = v ∨ v = none ∧ placement = some zero

theorem Holds.getD {v placement : Option ScoredPlacement} (h : Holds v placement) : placement.getD zero = v.getD zero := by
  rcases h with rfl | ⟨rfl,rfl⟩
  · rfl
  · rfl

theorem holds_getD (v : Option ScoredPlacement) : Holds v (some (v.getD zero)) := by
  cases v with
  | none => exact .inr ⟨rfl,rfl⟩
  | some p => exact .inl rfl

section Offer
variable {log : List Entry} {e : Entry} {f : PlacementFSM} (h : Holds (value epochOf log) f.placement)
  (hfirst : value epochOf log = none → 0 < epochOf e.next)
include h hfirst

/-- A machine that holds what the log comes to installs an entry when that takes effect. -/
theorem Holds.offer_eq :
    (f.offer e.next).placement = if Takes epochOf (accepted epochOf log).getLast? e then some e.next else f.placement := by
  rw [PlacementFSM.placement_offer]
  simp only [takes_iff]
  rcases h with h | ⟨hnone,hzero⟩
  · rw [h]
    cases value epochOf log with
    | none => simp
    | some p =>
      simp only [Option.mem_def, Option.some.injEq, forall_eq']
      rfl
  · rw [hnone, hzero]
    simp only [Option.mem_def, reduceCtorEq, false_implies, implies_true, if_true]
    exact if_pos (hfirst hnone)

/-- So it goes along with the log. -/
theorem Holds.offer : Holds (value epochOf (log ++ [e])) (f.offer e.next).placement := by
  rw [value_concat, h.offer_eq hfirst]
  split
  · exact .inl rfl
  · exact h

end Offer

/-- A node holds what its part of the log comes to, and its replicator knows of it. -/
structure Node.Inv (log : List Entry) (n : Node) : Prop where
  fed : n.fed ≤ log.length
  holds : Holds (value epochOf (log.take n.fed)) n.fsm.placement
  installed : n.replicator.placement = n.fsm.placement
  callback : n.fsm.onApply = true
  metrics : Table n.replicator.metrics

section Node
variable {log : List Entry} {n : Node}

theorem Node.start_inv (log : List Entry) (self : NodeID) : (Node.start self).Inv log where
  fed := Nat.zero_le _
  holds := .inl rfl
  installed := rfl
  callback := rfl
  metrics := ⟨by simp [Node.start, newReplicator],by simp [Node.start, newReplicator]⟩

/-- The log only grows beyond what the node has been fed. -/
theorem Node.Inv.grow (h : n.Inv log) (e : Entry) : n.Inv (log ++ [e]) where
  fed := by
    rw [List.length_append]
    exact Nat.le_add_right_of_le h.fed
  holds := by
    rw [List.take_append_of_le_length h.fed]
    exact h.holds
  installed := h.installed
  callback := h.callback
  metrics := h.metrics

/-- A machine that installs a placement calls back with it. -/
theorem Node.notify_install (h : n.fsm.onApply = true) (fed : Nat) (p : ScoredPlacement) :
    n.notify (n.fsm.install p) fed = Node.applyPlacementFromRaft { n with fsm := n.fsm.install p, fed := fed } p := by
  simp [Node.notify, PlacementFSM.install, h]

theorem Node.notify_same (fed : Nat) : n.notify n.fsm fed = { n with fed := fed } := by
  simp [Node.notify]

/-- A placement that is offered is ignored or installed. -/
theorem Node.apply_cases (h : n.fsm.onApply = true) (p : ScoredPlacement) :
    ((∃ cur, n.fsm.placement = some cur ∧ p.epoch ≤ cur.epoch) ∧ n.fsm.offer p = n.fsm ∧
      n.apply p = { n with fed := n.fed+1 }) ∨
    n.fsm.offer p = n.fsm.install p ∧
      n.apply p = Node.applyPlacementFromRaft { n with fsm := n.fsm.install p, fed := n.fed+1 } p := by
  unfold Node.apply PlacementFSM.offer
  cases hcur : n.fsm.placement with
  | none => exact .inr ⟨rfl,Node.notify_install h _ _⟩
  | some cur =>
    dsimp only
    split
    · rename_i hle
      exact .inl ⟨⟨cur,rfl,hle⟩,rfl,Node.notify_same _⟩
    · exact .inr ⟨rfl,Node.notify_install h _ _⟩

theorem Node.Inv.apply (h : n.Inv log) {e : Entry} (he : log[n.fed]? = some e)
    (hfirst : value epochOf (log.take n.fed) = none → 0 < epochOf e.next) : (n.apply e.next).Inv log := by
  have hfed := (List.getElem?_eq_some_iff.mp he).1
  have hnext : log.take (n.fed+1) = log.take n.fed ++ [e] := by rw [List.take_add_one, he, Option.toList_some]
  have hholds := h.holds.offer hfirst
  rw [← hnext] at hholds
  rcases Node.apply_cases h.callback e.next with ⟨-,hoffer,happly⟩ | ⟨hoffer,happly⟩
  · rw [hoffer] at hholds
    rw [happly]
    exact ⟨hfed,hholds,h.installed,h.callback,h.metrics⟩
  · rw [hoffer] at hholds
    rw [happly]
    exact ⟨hfed,hholds,rfl,h.callback,h.metrics⟩

theorem Node.Inv.metrics_message (h : n.Inv log) (msg : Option GossipMetricsMessage) :
    Node.Inv log { n with replicator := n.replicator.handleMetricsMessage msg } := by
  cases msg with
  | none => exact h
  | some msg =>
    simp only [Replicator.handleMetricsMessage]
    split
    · exact h
    · rename_i hname
      exact { h with metrics := h.metrics.record (by simpa using hname) }

theorem Node.Inv.restore (h : n.Inv log) {fed : Nat} (hfed : fed ≤ log.length) :
    (n.restore fed ((value epochOf (log.take fed)).getD zero)).Inv log := by
  rw [Node.restore, Node.notify_install h.callback]
  exact ⟨hfed,holds_getD _,rfl,h.callback,h.metrics⟩

end Node

/-- What holds of the cluster between its steps. -/
structure Inv (cfg : Config) (s : Group) : Prop where
  consecutive : Consecutive epochOf (accepted epochOf s.log)
  built : ∀ e ∈ s.pending, Built epochOf s.log e
  sound : ∀ q ∈ s.proposals, q.Sound cfg.replicationFactor
  proposed : ∀ e ∈ s.log ++ s.pending, ∃ q ∈ s.proposals, q.next = e.next
  snapshots : ∀ x ∈ s.snapshots, x.1 ≤ s.log.length ∧ x.2 = (value epochOf (s.log.take x.1)).getD zero
  nodes : ∀ n ∈ s.nodes, n.Inv s.log

theorem init_inv (cfg : Config) : Inv cfg init where
  consecutive := .nil epochOf
  built := by simp [init]
  sound := by simp [init]
  proposed := by simp [init]
  snapshots := by simp [init]
  nodes := by simp [init]

section Steps
variable {cfg : Config} {s : Group}

/-- What takes effect in a part of the log takes effect in the log. -/
theorem mem_accepted_of_value {log : List Entry} {k : Nat} {p : ScoredPlacement} (h : value epochOf (log.take k) = some p) :
    ∃ a ∈ accepted epochOf log, a.next = p := by
  obtain ⟨a,ha,rfl⟩ := (value_eq_some epochOf).mp h
  exact ⟨a,(accepted_mono epochOf ( List.take_prefix k log)).subset (List.mem_of_getLast? ha),rfl⟩

/-- Every placement in the log was proposed. -/
theorem Inv.logged_wellFormed (h : Inv cfg s) {a : Entry} (ha : a ∈ s.log) :
    a.next.toPlacement.WellFormed cfg.replicationFactor := by
  obtain ⟨q,hq,hnext⟩ := h.proposed a (List.mem_append_left _ ha)
  rw [← hnext]
  exact (h.sound q hq).wellFormed

theorem Inv.accepted_wellFormed (h : Inv cfg s) {a : Entry} (ha : a ∈ accepted epochOf s.log) :
    a.next.toPlacement.WellFormed cfg.replicationFactor :=
  h.logged_wellFormed (accepted_subset epochOf s.log a ha)

/-- A node has no placement, the one that stands for none, or one that took effect. -/
theorem Inv.node_placement (h : Inv cfg s) {n : Node} (hn : n ∈ s.nodes) {p : ScoredPlacement}
    (hp : n.replicator.placement = some p) : p = zero ∨ ∃ a ∈ accepted epochOf s.log, a.next = p := by
  have hinv := h.nodes n hn
  rw [hinv.installed] at hp
  rcases hinv.holds with hv | ⟨_,hz⟩
  · exact .inr (mem_accepted_of_value (hv.symm.trans hp))
  · exact .inl (Option.some.inj (hp.symm.trans hz))

/-- What an update builds upon has taken effect. -/
theorem Inv.node_base (h : Inv cfg s) {n : Node} (hn : n ∈ s.nodes) :
    ∀ p ∈ base n.replicator.placement, ∃ a ∈ accepted epochOf s.log, a.next = p := by
  intro p hp
  obtain ⟨hplacement,hfull⟩ := base_eq_some.mp hp
  rcases h.node_placement hn hplacement with rfl | ha
  · exact absurd hfull (by decide)
  · exact ha

theorem Inv.node_base_wellFormed (h : Inv cfg s) {n : Node} (hn : n ∈ s.nodes) :
    ∀ p ∈ base n.replicator.placement, p.toPlacement.WellFormed cfg.replicationFactor := by
  intro p hp
  obtain ⟨a,ha,rfl⟩ := h.node_base hn p hp
  exact h.accepted_wellFormed ha

/-- A placement computed by a node is built on one that took effect. -/
theorem Inv.built_of_next (h : Inv cfg s) {n : Node} (hn : n ∈ s.nodes) {next : ScoredPlacement}
    (hnext : next.epoch = nextEpoch n.replicator.placement) :
    Built epochOf s.log ⟨base n.replicator.placement,next⟩ where
  base := h.node_base hn
  step b hb := by
    have hb' : base n.replicator.placement = some b := hb
    rw [epochOf, hnext, nextEpoch, hb']
    -- The epoch is a machine integer: where it wraps around, it falls.
    exact (UInt64.toNat_add b.epoch 1).trans_le (Nat.mod_le _ _)
  first hb := by
    have hb' : base n.replicator.placement = none := hb
    rw [epochOf, hnext, nextEpoch, hb']
    rfl

theorem Inv.propose (h : Inv cfg s) {placement : Option ScoredPlacement} {q : Option Proposal}
    (hq : ∀ x ∈ q, x.Sound cfg.replicationFactor ∧ Built epochOf s.log ⟨base placement,x.next⟩) :
    Inv cfg (s.propose placement q) := by
  cases q with
  | none => exact h
  | some x =>
    obtain ⟨hsound,hbuilt⟩ := hq x rfl
    exact {
      consecutive := h.consecutive
      built := Machine.forall_mem_concat h.built hbuilt
      sound := Machine.forall_mem_concat h.sound hsound
      proposed := by
        intro e he
        change e ∈ s.log ++ (s.pending ++ [_]) at he
        rw [← List.append_assoc] at he
        rcases List.mem_append.mp he with he | he
        · obtain ⟨y,hy,hnext⟩ := h.proposed e he
          exact ⟨y,List.mem_append_left _ hy,hnext⟩
        · rw [List.mem_singleton.mp he]
          exact ⟨x,List.mem_append_right _ List.mem_cons_self,rfl⟩
      snapshots := h.snapshots
      nodes := h.nodes }

/-- A step of one node. -/
theorem Inv.set_node (h : Inv cfg s) (i : Nat) {n : Node} (hn : n.Inv s.log) :
    Inv cfg { s with nodes := s.nodes.set i n } :=
  { h with nodes := Machine.forall_mem_set h.nodes hn }

/-- Once something is fed to a node that has no placement, it is a first epoch or a later one. -/
theorem Inv.epoch_pos (h : Inv cfg s) {k : Nat} {e : Entry} (he : s.log[k]? = some e)
    (hnone : value epochOf (s.log.take k) = none) : 0 < epochOf e.next := by
  have hempty : accepted epochOf (s.log.take k) = [] := by simpa [value] using hnone
  have hnext : s.log.take (k+1) = s.log.take k ++ [e] := by rw [List.take_add_one, he, Option.toList_some]
  have hacc : accepted epochOf (s.log.take (k+1)) = [e] := by
    rw [hnext, accepted_concat, hempty]
    simp [push, Takes]
  refine h.consecutive.pos epochOf e ((accepted_mono epochOf ( List.take_prefix (k+1) s.log)).subset ?_)
  rw [hacc]
  exact List.mem_cons_self

theorem Inv.commit (h : Inv cfg s) {k : Nat} {e : Entry} (hk : s.pending[k]? = some e) :
    Inv cfg { s with log := s.log ++ [e], pending := s.pending.eraseIdx k } where
  consecutive := (h.built e (List.mem_of_getElem? hk)).consecutive epochOf h.consecutive
  built a ha := (h.built a (List.mem_of_mem_eraseIdx ha)).mono epochOf (List.prefix_append _ _)
  sound := h.sound
  proposed a ha := by
    refine h.proposed a ?_
    rcases List.mem_append.mp ha with ha | ha
    · rcases List.mem_append.mp ha with ha | ha
      · exact List.mem_append_left _ ha
      · rw [List.mem_singleton.mp ha]
        exact List.mem_append_right _ (List.mem_of_getElem? hk)
    · exact List.mem_append_right _ (List.mem_of_mem_eraseIdx ha)
  snapshots x hx := by
    obtain ⟨hle,hx⟩ := h.snapshots x hx
    refine ⟨?_,?_⟩
    · rw [List.length_append]
      exact Nat.le_add_right_of_le hle
    · rw [List.take_append_of_le_length hle]
      exact hx
  nodes n hn := (h.nodes n hn).grow e

theorem step_inv {s' : Group} {e : Event} (h : Inv cfg s) (hs : step cfg s e = some s') : Inv cfg s' := by
  cases step_fires hs with
  | start self => exact { h with nodes := Machine.forall_mem_concat h.nodes (Node.start_inv s.log self) }
  | metrics msg hi hup => exact h.set_node _ ((h.nodes _ (List.mem_of_getElem? hi)).metrics_message msg)
  | @long i n view q hi hup hq =>
    have hmem := List.mem_of_getElem? hi
    obtain ⟨q',hok,hspec⟩ := Replicator.longProposal_spec cfg (h.nodes n hmem).metrics
      (fun p hp => (h.node_base_wellFormed hmem p hp).ring) view
    cases hq.symm.trans hok
    exact h.propose (fun x hx => ⟨(hspec x hx).1,h.built_of_next hmem (hspec x hx).2⟩)
  | @short i n view hi hup =>
    have hmem := List.mem_of_getElem? hi
    have hn := h.nodes n hmem
    obtain ⟨⟨streak,hstreak⟩,hspec⟩ := Replicator.shortProposal_spec cfg hn.metrics (h.node_base_wellFormed hmem) view
    refine Inv.propose (h.set_node i ?_) (fun x hx => ⟨(hspec x hx).1,h.built_of_next hmem (hspec x hx).2⟩)
    rw [hstreak]
    exact ⟨hn.fed,hn.holds,hn.installed,hn.callback,hn.metrics⟩
  | commit hk => exact h.commit hk
  | lose k =>
    exact { h with
      built := fun a ha => h.built a (List.mem_of_mem_eraseIdx ha)
      proposed := fun a ha => h.proposed a (by
        rcases List.mem_append.mp ha with ha | ha
        · exact List.mem_append_left _ ha
        · exact List.mem_append_right _ (List.mem_of_mem_eraseIdx ha)) }
  | feed hi hup he => exact h.set_node _ ((h.nodes _ (List.mem_of_getElem? hi)).apply he (h.epoch_pos he))
  | @snapshot i n hi hup =>
    have hn := h.nodes n (List.mem_of_getElem? hi)
    exact { h with snapshots := Machine.forall_mem_concat h.snapshots ⟨hn.fed,hn.holds.getD⟩ }
  | installSnapshot hi hup hk hle =>
    obtain ⟨hfed,hp⟩ := h.snapshots _ (List.mem_of_getElem? hk)
    dsimp only at hfed hp
    subst hp
    exact h.set_node _ ((h.nodes _ (List.mem_of_getElem? hi)).restore hfed)
  | restart hi => exact h.set_node _ (Node.start_inv s.log _)
  | restartFrom hi hk =>
    obtain ⟨hfed,hp⟩ := h.snapshots _ (List.mem_of_getElem? hk)
    dsimp only at hfed hp
    subst hp
    exact h.set_node _ ((Node.start_inv s.log _).restore hfed)

theorem run_inv {es : List Event} (hr : Machine.run (step cfg) init es = some s) : Inv cfg s :=
  Machine.run_invariant (fun _ _ _ h hs => step_inv h hs) (init_inv cfg) hr

/-- The log is never rewritten. -/
theorem run_log {t : Group} {es : List Event} (hr : Machine.run (step cfg) s es = some t) : s.log <+: t.log := by
  refine Machine.run_invariant (I := fun u => s.log <+: u.log) (fun u e u' h hs => ?_) List.prefix_rfl hr
  cases step_fires hs with
  | commit hk => exact h.trans (List.prefix_append _ _)
  | @long i n view q hi hup hq => cases q <;> exact h
  | @short i n view hi hup =>
    cases (n.replicator.shortProposal cfg view).2 <;> exact h
  | _ => exact h

/-- What a node builds upon is what its part of the log comes to. -/
theorem Inv.base_eq (h : Inv cfg s) {n : Node} (hn : n ∈ s.nodes) :
    base n.replicator.placement = value epochOf (s.log.take n.fed) := by
  have hinv := h.nodes n hn
  rw [hinv.installed]
  rcases hinv.holds with hv | ⟨hnone,hz⟩
  · rw [hv]
    cases hval : value epochOf (s.log.take n.fed) with
    | none => rfl
    | some p =>
      obtain ⟨a,ha,rfl⟩ := mem_accepted_of_value hval
      exact base_eq_some.mpr ⟨rfl,(h.accepted_wellFormed ha).ring.length_eq⟩
  · rw [hnone, hz]
    rfl

/-- An entry that takes effect where it stands in the log was built on what was in force
there. -/
theorem Inv.takes (h : Inv cfg s) {k : Nat} {e : Entry} (he : s.log[k]? = some e)
    (ht : Takes epochOf (accepted epochOf (s.log.take k)).getLast? e) :
    e.base = value epochOf (s.log.take k) ∧
      epochOf e.next = (value epochOf (s.log.take k)).elim 1 (fun p => epochOf p+1) := by
  have hpre : accepted epochOf (s.log.take k) ++ [e] <+: accepted epochOf s.log := by
    have hnext : s.log.take (k+1) = s.log.take k ++ [e] := by rw [List.take_add_one, he, Option.toList_some]
    have hmono := accepted_mono epochOf ( List.take_prefix (k+1) s.log)
    rwa [hnext, accepted_concat, push, if_pos ht] at hmono
  obtain ⟨hbase,hlen⟩ := (h.consecutive.of_initial epochOf hpre).concat epochOf
  refine ⟨hbase,hlen.trans ?_⟩
  rw [value]
  cases hlast : (accepted epochOf (s.log.take k)).getLast? with
  | none => rw [List.getLast?_eq_none_iff.mp hlast]; rfl
  | some c =>
    have hc := (h.consecutive.of_initial epochOf (accepted_mono epochOf ( List.take_prefix k s.log))).last epochOf hlast
    rw [Option.map_some, Option.elim_some, hc]

end Steps

section Sample
open Update.Replicator

/-- The first of two nodes has metrics of a member, proposes a placement and is fed it. -/
def sampleBefore : List Event :=
  [.start "a",.start "b",.metrics 0 (some ⟨sampleMetrics "a",∅⟩),.updatePlacement 0 sampleView,.commit 0,.feed 0]

/-- The second node is fed it as well. -/
def sampleAfter : List Event := [.feed 1]

def sampleNode : Node := { Node.start "a" with replicator := sampleStart }

/-- The placement has been committed and fed to the given nodes. -/
def sampleGroup (q : Proposal) (nodes : List Node) : Group := ⟨[⟨none,q.next⟩],[],[q],[],nodes⟩

theorem sample_run : ∃ q : Proposal, q.next.epoch = 1 ∧
    Machine.run (step sampleConfig) init sampleBefore = some (sampleGroup q [sampleNode.apply q.next,.start "b"]) ∧
    Machine.run (step sampleConfig) (sampleGroup q [sampleNode.apply q.next,.start "b"]) sampleAfter =
      some (sampleGroup q [sampleNode.apply q.next,(Node.start "b").apply q.next]) := by
  obtain ⟨q,-,hepoch,hq⟩ := sampleStart_proposes
  have hstart : Machine.run (step sampleConfig) init [.start "a",.start "b",.metrics 0 (some ⟨sampleMetrics "a",∅⟩)] =
      some ⟨[],[],[],[],[sampleNode,.start "b"]⟩ := rfl
  have hupdate : step sampleConfig ⟨[],[],[],[],[sampleNode,.start "b"]⟩ (.updatePlacement 0 sampleView) =
      some ⟨[],[⟨none,q.next⟩],[q],[],[sampleNode,.start "b"]⟩ := 
    PlacementLog.step_long (n := sampleNode) rfl rfl hq
  have hfeed : Machine.run (step sampleConfig) ⟨[],[⟨none,q.next⟩],[q],[],[sampleNode,.start "b"]⟩ [.commit 0,.feed 0] =
      some (sampleGroup q [sampleNode.apply q.next,.start "b"]) := rfl
  exact ⟨q,hepoch,Machine.run_append.mpr ⟨_,hstart,Machine.run_cons.mpr ⟨_,hupdate,hfeed⟩⟩,rfl⟩

theorem sample_fst (q : Proposal) (rest : List Node) :
    sampleNode.apply q.next ∈ (sampleGroup q (sampleNode.apply q.next::rest)).nodes := List.mem_cons_self

theorem sample_snd (q : Proposal) :
    (Node.start "b").apply q.next ∈ (sampleGroup q [sampleNode.apply q.next,(Node.start "b").apply q.next]).nodes :=
  List.mem_cons_of_mem _ List.mem_cons_self

theorem sample_ne (p : ScoredPlacement) : (sampleNode.apply p).self ≠ ((Node.start "b").apply p).self := by
  change "a" ≠ "b"
  decide

end Sample

section Runs
variable {cfg : Config} {before after : List Event} {s t : Group}

/-- What a node has at some time is still known in the log later. -/
private theorem earlier_placement (hs : Machine.run (step cfg) init before = some s)
    (ht : Machine.run (step cfg) s after = some t) {n : Node} (hn : n ∈ s.nodes) {p : ScoredPlacement}
    (hp : n.replicator.placement = some p) : p = zero ∨ ∃ a ∈ accepted epochOf t.log, a.next = p := by
  refine ((run_inv hs).node_placement hn hp).imp_right ?_
  rintro ⟨a,ha,hnext⟩
  exact ⟨a,(accepted_mono epochOf (run_log ht)).subset ha,hnext⟩

/-- Of the placements known in the log an epoch has one. -/
private theorem Inv.eq_of_epoch (hinv : Inv cfg s) {p q : ScoredPlacement}
    (hp : p = zero ∨ ∃ a ∈ accepted epochOf s.log, a.next = p) (hq : q = zero ∨ ∃ b ∈ accepted epochOf s.log, b.next = q)
    (h : p.epoch = q.epoch) : p = q := by
  have hpos := hinv.consecutive.pos
  have hepoch : epochOf p = epochOf q := congrArg UInt64.toNat h
  rcases hp, hq with ⟨rfl | ⟨a,ha,rfl⟩,rfl | ⟨b,hb,rfl⟩⟩
  · rfl
  · exact absurd hepoch (hpos b hb).ne
  · exact absurd hepoch (hpos a ha).ne'
  · rw [accepted_unique epochOf ha hb hepoch]

/-- Nodes agree: whatever was proposed, lost, replayed or restored, two nodes that ever
have placements with the same epoch have the same placement. -/
theorem placements_agree (hs : Machine.run (step cfg) init before = some s) (ht : Machine.run (step cfg) s after = some t)
    {n m : Node} (hn : n ∈ s.nodes) (hm : m ∈ t.nodes) {p q : ScoredPlacement} (hp : n.replicator.placement = some p)
    (hq : m.replicator.placement = some q) (h : p.epoch = q.epoch) : p = q := by
  have hinv := run_inv (Machine.run_append.mpr ⟨s,hs,ht⟩)
  exact hinv.eq_of_epoch (earlier_placement hs ht hn hp) (hinv.node_placement hm hq) h

theorem placements_agree_sample : ∃ s t n m p q, Machine.run (step Replicator.sampleConfig) init sampleBefore = some s ∧
    Machine.run (step Replicator.sampleConfig) s sampleAfter = some t ∧ n ∈ s.nodes ∧ m ∈ t.nodes ∧ n.self ≠ m.self ∧
    n.replicator.placement = some p ∧ m.replicator.placement = some q ∧ p = q := by
  obtain ⟨q,-,hs,ht⟩ := sample_run
  have hn := sample_fst q [Node.start "b"]
  have hm := sample_snd q
  exact ⟨_,_,_,_,q.next,q.next,hs,ht,hn,hm,sample_ne q.next,rfl,rfl,placements_agree hs ht hn hm rfl rfl rfl⟩

/-- Of the nodes that have placements with the same epoch at most one accepts a key as its
owner. -/
theorem owner_unique (hashKey : Key → UInt64) (hs : Machine.run (step cfg) init before = some s)
    (ht : Machine.run (step cfg) s after = some t) {n m : Node} (hn : n ∈ s.nodes) (hm : m ∈ t.nodes)
    {p q : ScoredPlacement} (hp : n.replicator.placement = some p) (hq : m.replicator.placement = some q)
    (h : p.epoch = q.epoch) {key : Key}
    (hnOwns : (checkOwnership hashKey n.self (n.replicator.placement.map (·.toPlacement)) key).1 = true)
    (hmOwns : (checkOwnership hashKey m.self (m.replicator.placement.map (·.toPlacement)) key).1 = true) :
    n.self = m.self := by
  have hinv := run_inv (Machine.run_append.mpr ⟨s,hs,ht⟩)
  obtain rfl := hinv.eq_of_epoch (earlier_placement hs ht hn hp) (hinv.node_placement hm hq) h
  rw [hp] at hnOwns
  rw [hq] at hmOwns
  simp only [checkOwnership, Option.map_some, decide_eq_true_eq] at hnOwns hmOwns
  exact hnOwns.symm.trans hmOwns

theorem owner_unique_sample : ∃ s t n m p, Machine.run (step Replicator.sampleConfig) init sampleBefore = some s ∧
    Machine.run (step Replicator.sampleConfig) s sampleAfter = some t ∧ n ∈ s.nodes ∧ m ∈ t.nodes ∧ n.self ≠ m.self ∧
    n.replicator.placement = some p ∧ m.replicator.placement = some p ∧ ∀ hashKey key,
      (checkOwnership hashKey n.self (n.replicator.placement.map (·.toPlacement)) key).1 = true →
      (checkOwnership hashKey m.self (m.replicator.placement.map (·.toPlacement)) key).1 = false := by
  obtain ⟨q,-,hs,ht⟩ := sample_run
  have hn := sample_fst q [Node.start "b"]
  have hm := sample_snd q
  have hne := sample_ne q.next
  refine ⟨_,_,_,_,q.next,hs,ht,hn,hm,hne,rfl,rfl,fun hashKey key hown => ?_⟩
  exact Bool.eq_false_iff.mpr (fun hown' => hne (owner_unique hashKey hs ht hn hm rfl rfl rfl hown hown'))

section Panics
variable {self : NodeID} {old new : Placement} {v : UInt16}

theorem vnodePanics_found {x y : VNode} (hx : old.vnodes[v.toNat]? = some x) (hy : new.vnodes[v.toNat]? = some y) :
    vnodePanics self old new v = false := by
  have hgained : Migration.gainedCandidates self old new v ≠ none := by simp [Migration.gainedCandidates, hx, hy]
  have hclassify : Migration.classify self old new v ≠ none := by
    simp only [Migration.classify, hx, hy, Option.map_some, Option.bind_eq_bind, Option.bind_some]
    split_ifs <;> simp
  unfold vnodePanics
  split
  · rename_i h
    exact absurd h hclassify
  · exact Option.isNone_eq_false_iff.mpr (Option.isSome_iff_ne_none.mpr hgained)
  all_goals rfl

/-- The empty placement has no owner to lose a vnode, and no replicas to compare. -/
theorem vnodePanics_zero (hself : self ≠ "") : vnodePanics self zero.toPlacement new v = true := by
  have howner : zero.toPlacement.primaryOf v = "" := rfl
  by_cases hnew : new.primaryOf v = self
  · have hclassify : Migration.classify self zero.toPlacement new v = some .gained := by
      simp [Migration.classify, howner, hself.symm, hnew]
    rw [vnodePanics, hclassify]
    rfl
  · have hclassify : Migration.classify self zero.toPlacement new v = none := by
      simp only [Migration.classify, howner, hself.symm, hnew, false_and, and_false, if_false]
      rfl
    rw [vnodePanics, hclassify]

/-- Between rings every vnode is found. -/
theorem migrationPanics_ring (ho : old.IsRing) (hn : new.IsRing) : migrationPanics self old new = false := by
  refine List.any_eq_false.mpr (fun v hv => ?_)
  rw [hn] at hv
  obtain ⟨x,hx,-⟩ := ring_vnode ho (mem_ringIDs.mp hv)
  obtain ⟨y,hy,-⟩ := ring_vnode hn (mem_ringIDs.mp hv)
  rw [vnodePanics_found hx hy]
  exact Bool.false_ne_true

theorem migrationPanics_zero (hself : self ≠ "") (hn : new.IsRing) : migrationPanics self zero.toPlacement new = true := by
  refine List.any_eq_true.mpr ⟨0,?_,vnodePanics_zero hself⟩
  rw [hn]
  exact mem_ringIDs.mpr (by decide)

theorem ring_ne_zero {p : ScoredPlacement} (h : p.IsRing) : p ≠ zero := by
  rintro rfl
  exact absurd h.length_eq (by decide)

/-- Of what a node may have, only the placement that stands for none makes a ring panic. -/
theorem Inv.panics_iff (hinv : Inv cfg s) {n : Node} (hn : n ∈ s.nodes) (hself : n.self ≠ "") {p : ScoredPlacement}
    (hp : p.IsRing) : n.replicator.placement.any (fun old => migrationPanics n.self old.toPlacement p.toPlacement) = true ↔
      n.replicator.placement = some zero := by
  cases hold : n.replicator.placement with
  | none => simp
  | some q =>
    rw [Option.any_some, Option.some.injEq]
    rcases hinv.node_placement hn hold with rfl | ⟨a,ha,rfl⟩
    · simp [migrationPanics_zero hself hp]
    · have hring := (hinv.accepted_wellFormed ha).ring
      rw [migrationPanics_ring hring hp]
      exact iff_of_false Bool.false_ne_true (ring_ne_zero hring)

section Node
variable {n : Node} (hinv : Inv cfg s) (hn : n ∈ s.nodes) (hself : n.self ≠ "") (hup : n.crashed = false)
include hinv hn hself hup

theorem Inv.feed_panics_iff {e : Entry} (he : s.log[n.fed]? = some e) :
    (n.apply e.next).crashed = true ↔ n.replicator.placement = some zero := by
  have hnode := hinv.nodes n hn
  rcases Node.apply_cases hnode.callback e.next with ⟨⟨cur,hcur,hle⟩,-,happly⟩ | ⟨-,happly⟩
  · rw [happly]
    refine iff_of_false (by simp [hup]) (fun hz => ?_)
    -- An entry that is fed to a node without a placement has a first epoch or a later one.
    have hnone : value epochOf (s.log.take n.fed) = none := by
      rw [← hinv.base_eq hn, hz]
      rfl
    rw [hnode.installed, hcur, Option.some.injEq] at hz
    rw [hz] at hle
    exact absurd (UInt64.le_iff_toNat_le.mp hle) (not_le.mpr (hinv.epoch_pos he hnone))
  · rw [happly, Node.applyPlacementFromRaft]
    simp only [hup, Bool.false_or]
    exact hinv.panics_iff hn hself (hinv.logged_wellFormed (List.mem_of_getElem? he)).ring

theorem Inv.restore_panics_iff {x : Nat × ScoredPlacement} (hx : x ∈ s.snapshots) :
    (n.restore x.1 x.2).crashed = true ↔ n.replicator.placement = some zero ∧ x.2 ≠ zero := by
  rw [Node.restore, Node.notify_install (hinv.nodes n hn).callback, Node.applyPlacementFromRaft]
  simp only [hup, Bool.false_or]
  obtain ⟨-,hvalue⟩ := hinv.snapshots x hx
  cases hv : value epochOf (s.log.take x.1) with
  | none =>
    rw [hv, Option.getD_none] at hvalue
    rw [hvalue]
    refine iff_of_false ?_ (fun h => h.2 rfl)
    cases n.replicator.placement <;> simp [migrationPanics, zero]
  | some p =>
    rw [hv, Option.getD_some] at hvalue
    obtain ⟨a,ha,rfl⟩ := mem_accepted_of_value hv
    have hring := (hinv.accepted_wellFormed ha).ring
    rw [hvalue, hinv.panics_iff hn hself hring, and_iff_left (ring_ne_zero hring)]

end Node
end Panics

/-- Every placement that a node has is well formed or the one that stands for none, and
computing a long-term update never panics. A node goes down in its callback exactly when it
is given vnodes and has the placement that stands for none. -/
theorem placements_wellFormed (hs : Machine.run (step cfg) init before = some s) :
    (∀ n ∈ s.nodes, ∀ p ∈ n.replicator.placement, p = zero ∨ p.toPlacement.WellFormed cfg.replicationFactor) ∧
    (∀ i n, s.nodes[i]? = some n → n.crashed = false → ∀ view, (step cfg s (.updatePlacement i view)).isSome) ∧
    ∀ n ∈ s.nodes, n.self ≠ "" → n.crashed = false →
      (∀ e, s.log[n.fed]? = some e → ((n.apply e.next).crashed = true ↔ n.replicator.placement = some zero)) ∧
      ∀ x ∈ s.snapshots, ((n.restore x.1 x.2).crashed = true ↔ n.replicator.placement = some zero ∧ x.2 ≠ zero) := by
  have hinv := run_inv hs
  refine ⟨fun n hn p hp => ?_,fun i n hi hup view => ?_,fun n hn hself hup => ⟨fun e he => ?_,fun x hx => ?_⟩⟩
  · refine (hinv.node_placement hn hp).imp_right ?_
    rintro ⟨a,ha,rfl⟩
    exact hinv.accepted_wellFormed ha
  · have hmem := List.mem_of_getElem? hi
    obtain ⟨q,hq,-⟩ := Replicator.longProposal_spec cfg (hinv.nodes _ hmem).metrics
      (fun p hp => (hinv.node_base_wellFormed hmem p hp).ring) view
    rw [step_long hi hup hq]
    rfl
  · exact hinv.feed_panics_iff hn hself hup he
  · exact hinv.restore_panics_iff hn hself hup hx

/-- The second node restores a snapshot that was taken before there was a placement. -/
def sampleDown : List Event :=
  [.start "a",.start "b",.snapshot 1,.installSnapshot 1 0,.metrics 0 (some ⟨Replicator.sampleMetrics "a",∅⟩),
    .updatePlacement 0 Replicator.sampleView,.commit 0]

theorem placements_wellFormed_sample : ∃ s n e, Machine.run (step Replicator.sampleConfig) init sampleDown = some s ∧
    n ∈ s.nodes ∧ n.replicator.placement = some zero ∧ s.log[n.fed]? = some e ∧ (n.apply e.next).crashed = true := by
  obtain ⟨q,-,-,hq⟩ := Replicator.sampleStart_proposes
  have hstart : Machine.run (step Replicator.sampleConfig) init (sampleDown.take 5) =
      some ⟨[],[],[],[(0,zero)],[sampleNode,(Node.start "b").restore 0 zero]⟩ := rfl
  have hupdate : step Replicator.sampleConfig ⟨[],[],[],[(0,zero)],[sampleNode,(Node.start "b").restore 0 zero]⟩
      (.updatePlacement 0 Replicator.sampleView) = some _ := PlacementLog.step_long (n := sampleNode) rfl rfl hq
  have hr : Machine.run (step Replicator.sampleConfig) init sampleDown =
      some ⟨[⟨none,q.next⟩],[],[q],[(0,zero)],[sampleNode,(Node.start "b").restore 0 zero]⟩ :=
    Machine.run_append.mpr ⟨_,hstart,Machine.run_cons.mpr ⟨_,hupdate,rfl⟩⟩
  have hmem : (Node.start "b").restore 0 zero ∈ [sampleNode,(Node.start "b").restore 0 zero] :=
    List.mem_cons_of_mem _ List.mem_cons_self
  obtain ⟨-,-,hdown⟩ := placements_wellFormed hr
  exact ⟨_,_,_,hr,hmem,rfl,rfl,((hdown _ hmem (by decide) rfl).1 _ rfl).mpr rfl⟩

/-- Nodes that have been fed the same part of the log have the same placement, by whatever way
they came to it, unless nothing has taken effect there: then one that was restored from a
snapshot has the empty placement where another has none. -/
theorem placements_converge (hs : Machine.run (step cfg) init before = some s) {n m : Node} (hn : n ∈ s.nodes)
    (hm : m ∈ s.nodes) (h : n.fed = m.fed) :
    n.replicator.placement = m.replicator.placement ∨
      n.replicator.placement = none ∧ m.replicator.placement = some zero ∨
      n.replicator.placement = some zero ∧ m.replicator.placement = none := by
  have hnInv := (run_inv hs).nodes n hn
  have hmInv := (run_inv hs).nodes m hm
  have hnHolds := hnInv.holds
  have hmHolds := hmInv.holds
  rw [← h] at hmHolds
  rw [hnInv.installed, hmInv.installed]
  rcases hnHolds with hv | ⟨hnone,hz⟩
  · rcases hmHolds with hv' | ⟨hnone',hz'⟩
    · exact .inl (hv.trans hv'.symm)
    · exact .inr (.inl ⟨hv.trans hnone',hz'⟩)
  · rcases hmHolds with hv' | ⟨-,hz'⟩
    · exact .inr (.inr ⟨hz,hv'.trans hnone⟩)
    · exact .inl (hz.trans hz'.symm)

theorem placements_converge_sample : ∃ s n m p,
    Machine.run (step Replicator.sampleConfig) init (sampleBefore ++ sampleAfter) = some s ∧ n ∈ s.nodes ∧ m ∈ s.nodes ∧
    n.self ≠ m.self ∧ n.fed = m.fed ∧ n.replicator.placement = some p ∧ p.epoch = 1 ∧
    m.replicator.placement = some p := by
  obtain ⟨q,hepoch,hs,ht⟩ := sample_run
  have hn := sample_fst q [(Node.start "b").apply q.next]
  have hm := sample_snd q
  have hrun := Machine.run_append.mpr ⟨_,hs,ht⟩
  refine ⟨_,_,_,q.next,hrun,hn,hm,sample_ne q.next,rfl,rfl,hepoch,?_⟩
  rcases placements_converge hrun hn hm rfl with heq | ⟨hnone,-⟩ | ⟨-,hnone⟩
  · exact heq.symm
  · cases hnone
  · cases hnone

/-- No update is lost: an entry that changes the placement of a node was computed from the
placement it replaces, and its epoch is the next one. -/
theorem feed_replaces_base (hs : Machine.run (step cfg) init before = some s) {i : Nat} {n n' : Node} {s' : Group}
    (hstep : step cfg s (.feed i) = some s') (hn : s.nodes[i]? = some n) (hn' : s'.nodes[i]? = some n')
    (hne : n'.replicator.placement ≠ n.replicator.placement) :
    ∃ e ∈ s.log, n'.replicator.placement = some e.next ∧ e.base = base n.replicator.placement ∧
      epochOf e.next = (base n.replicator.placement).elim 1 (fun p => epochOf p+1) := by
  have hinv := run_inv hs
  have hmem := List.mem_of_getElem? hn
  have hnode := hinv.nodes n hmem
  cases step_fires hstep with
  | @feed j n0 e hi hup he =>
    cases hn.symm.trans hi
    have hlt := (List.getElem?_eq_some_iff.mp hn).1
    rw [List.getElem?_set_self hlt] at hn'
    cases hn'
    have hplaced : (n.apply e.next).replicator.placement =
        if Takes epochOf (accepted epochOf (s.log.take n.fed)).getLast? e then some e.next else n.replicator.placement := by
      rw [(hnode.apply he (hinv.epoch_pos he)).installed, hnode.installed, ← hnode.holds.offer_eq (hinv.epoch_pos he)]
      rcases Node.apply_cases hnode.callback e.next with ⟨-,hoffer,happly⟩ | ⟨hoffer,happly⟩
      · rw [hoffer, happly]
      · rw [hoffer, happly]
        rfl
    rw [hplaced] at hne ⊢
    by_cases ht : Takes epochOf (accepted epochOf (s.log.take n.fed)).getLast? e
    · rw [hinv.base_eq hmem, if_pos ht]
      obtain ⟨hbase,hstep⟩ := hinv.takes he ht
      exact ⟨e,List.mem_of_getElem? he,rfl,hbase,hstep⟩
    · rw [if_neg ht] at hne
      exact absurd rfl hne

theorem feed_replaces_base_sample : ∃ s s' n n', Machine.run (step Replicator.sampleConfig) init sampleBefore = some s ∧
    step Replicator.sampleConfig s (.feed 1) = some s' ∧ s.nodes[1]? = some n ∧ s'.nodes[1]? = some n' ∧
    n.replicator.placement = none ∧ ∃ e ∈ s.log, n'.replicator.placement = some e.next ∧ e.base = none ∧ epochOf e.next = 1 := by
  obtain ⟨q,-,hs,ht⟩ := sample_run
  obtain ⟨s',hfeed,hr⟩ := Machine.run_cons.mp ht
  cases hr
  exact ⟨_,_,_,_,hs,hfeed,rfl,rfl,rfl,feed_replaces_base hs hfeed rfl rfl (Option.some_ne_none q.next)⟩

end Runs

section Epochs
variable {cfg : Config} {s : Group} {epoch : UInt64}

/-- The node has a placement with at least the given epoch. -/
def Node.Reached (epoch : UInt64) (n : Node) : Prop := ∃ p, n.replicator.placement = some p ∧ epoch ≤ p.epoch

/-- A longer part of the log comes to an epoch that is at least as high. -/
private theorem epoch_le_of_fed {log : List Entry} {k l : Nat} (h : k ≤ l) {p : ScoredPlacement}
    (hp : value epochOf (log.take k) = some p) : ∃ q, value epochOf (log.take l) = some q ∧ p.epoch ≤ q.epoch := by
  obtain ⟨a,ha,rfl⟩ := (value_eq_some epochOf).mp hp
  have hmem := (accepted_mono epochOf (List.take_prefix_take_left h)).subset (List.mem_of_getLast? ha)
  obtain ⟨c,hc,hle⟩ := exists_last epochOf (accepted_rising epochOf _) hmem
  exact ⟨c.next,(value_eq_some epochOf).mpr ⟨c,hc,rfl⟩,UInt64.le_iff_toNat_le.mpr hle⟩

theorem Node.Reached.metrics_message {n : Node} (h : n.Reached epoch) (msg : Option GossipMetricsMessage) :
    Node.Reached epoch { n with replicator := n.replicator.handleMetricsMessage msg } := by
  cases msg with
  | none => exact h
  | some msg =>
    simp only [Replicator.handleMetricsMessage]
    split
    · exact h
    · exact h

theorem Node.Reached.apply {n : Node} (h : n.Reached epoch) {log : List Entry} (hn : n.Inv log) (p : ScoredPlacement) :
    (n.apply p).Reached epoch := by
  obtain ⟨q,hq,hle⟩ := h
  rcases Node.apply_cases hn.callback p with ⟨-,-,happly⟩ | ⟨hoffer,happly⟩
  · rw [happly]
    exact ⟨q,hq,hle⟩
  · rw [happly]
    rw [hn.installed] at hq
    -- What is installed has a higher epoch.
    have hlt : ¬ p.epoch ≤ q.epoch := by
      intro hle'
      have hsame : n.fsm.offer p = n.fsm := by simp [PlacementFSM.offer, hq, hle']
      have hgrown := congrArg (fun f => f.notified.length) (hoffer.symm.trans hsame)
      simp [PlacementFSM.install, hn.callback] at hgrown
    exact ⟨p,rfl,UInt64.le_trans hle (UInt64.le_of_lt (UInt64.not_le.mp hlt))⟩

theorem Node.Reached.restore {n : Node} (h : n.Reached epoch) {log : List Entry} (hn : n.Inv log) {fed : Nat}
    (hfed : n.fed ≤ fed) : (n.restore fed ((value epochOf (log.take fed)).getD zero)).Reached epoch := by
  obtain ⟨q,hq,hle⟩ := h
  rw [Node.restore, Node.notify_install hn.callback]
  refine ⟨_,rfl,UInt64.le_trans hle ?_⟩
  rw [hn.installed] at hq
  rcases hn.holds with hv | ⟨_,hz⟩
  · obtain ⟨q',hq',hle'⟩ := epoch_le_of_fed hfed (hv.symm.trans hq)
    rw [hq']
    exact hle'
  · rw [Option.some.inj (hq.symm.trans hz)]
    exact UInt64.zero_le

/-- What a step does to the node at an index. -/
private theorem reached_set {i j : Nat} {n m : Node} (h : ∃ n, s.nodes[i]? = some n ∧ n.Reached epoch)
    (hj : s.nodes[j]? = some n) (hm : j = i → n.Reached epoch → m.Reached epoch) :
    ∃ n', (s.nodes.set j m)[i]? = some n' ∧ n'.Reached epoch := by
  obtain ⟨n',hn',hr⟩ := h
  by_cases hij : j = i
  · subst hij
    cases hj.symm.trans hn'
    exact ⟨m,List.getElem?_set_self (List.getElem?_eq_some_iff.mp hj).1,hm rfl hr⟩
  · exact ⟨n',(List.getElem?_set_ne hij).trans hn',hr⟩

theorem step_reached {i : Nat} {e : Event} {s' : Group} (hinv : Inv cfg s) (h : ∃ n, s.nodes[i]? = some n ∧ n.Reached epoch)
    (he : ∀ k, e ≠ .restart i k) (hs : step cfg s e = some s') : ∃ n, s'.nodes[i]? = some n ∧ n.Reached epoch := by
  cases step_fires hs with
  | start self =>
    obtain ⟨n,hn,hr⟩ := h
    exact ⟨n,(List.getElem?_append_left (List.getElem?_eq_some_iff.mp hn).1).trans hn,hr⟩
  | metrics msg hi hup => exact reached_set h hi (fun _ hr => hr.metrics_message msg)
  | @long j n view q hi hup hq => cases q <;> exact h
  | @short j n view hi hup =>
    have hset : ∃ n', (s.nodes.set j { n with replicator := (n.replicator.shortProposal cfg view).1 })[i]? = some n' ∧
        n'.Reached epoch := by
      refine reached_set h hi (fun _ hr => ?_)
      have hmem := List.mem_of_getElem? hi
      obtain ⟨⟨streak,hstreak⟩,-⟩ := Replicator.shortProposal_spec cfg (hinv.nodes n hmem).metrics (hinv.node_base_wellFormed hmem) view
      rw [hstreak]
      exact hr
    cases (n.replicator.shortProposal cfg view).2 <;> exact hset
  | commit hk => exact h
  | lose k => exact h
  | feed hi hup hlog => exact reached_set h hi (fun _ hr => hr.apply (hinv.nodes _ (List.mem_of_getElem? hi)) _)
  | snapshot hi hup => exact h
  | installSnapshot hi hup hk hle =>
    obtain ⟨-,hp⟩ := hinv.snapshots _ (List.mem_of_getElem? hk)
    dsimp only at hp
    rw [hp]
    exact reached_set h hi (fun _ hr => hr.restore (hinv.nodes _ (List.mem_of_getElem? hi)) hle)
  | restart hi => exact reached_set h hi (fun hij => absurd (hij ▸ rfl) (he none))
  | @restartFrom j k fed n p hi hk => exact reached_set h hi (fun hij => absurd (hij ▸ rfl) (he (some k)))

/-- A node never goes back to an older placement while it is not restarted. -/
theorem epoch_never_falls {before after : List Event} {t : Group} (hs : Machine.run (step cfg) init before = some s)
    (ht : Machine.run (step cfg) s after = some t) {i : Nat} (hrestart : ∀ k, Event.restart i k ∉ after) {n : Node}
    (hn : s.nodes[i]? = some n) {p : ScoredPlacement} (hp : n.replicator.placement = some p) :
    ∃ m q, t.nodes[i]? = some m ∧ m.replicator.placement = some q ∧ p.epoch ≤ q.epoch := by
  have hmeets : Machine.Meets (step cfg) (fun _ e => ∀ k, e ≠ .restart i k) s after :=
    Machine.meets_of_forall s (fun e he k hk => hrestart k (hk ▸ he))
  obtain ⟨-,m,hm,q,hq,hle⟩ := Machine.run_invariant_of_meets
    (I := fun u => Inv cfg u ∧ ∃ n, u.nodes[i]? = some n ∧ n.Reached p.epoch)
    (fun u e u' h he hs => ⟨step_inv h.1 hs,step_reached h.1 h.2 he hs⟩)
    ⟨run_inv hs,n,hn,p,hp,UInt64.le_refl _⟩ hmeets ht
  exact ⟨m,q,hm,hq,hle⟩

theorem epoch_never_falls_sample : ∃ s t n p, Machine.run (step Replicator.sampleConfig) init sampleBefore = some s ∧
    Machine.run (step Replicator.sampleConfig) s sampleAfter = some t ∧ s.nodes[0]? = some n ∧
    n.replicator.placement = some p ∧
    ∃ m q, t.nodes[0]? = some m ∧ m.replicator.placement = some q ∧ p.epoch ≤ q.epoch := by
  obtain ⟨q,-,hs,ht⟩ := sample_run
  exact ⟨_,_,_,q.next,hs,ht,rfl,rfl,epoch_never_falls hs ht (by simp [sampleAfter]) rfl rfl⟩

end Epochs

end PlacementLog
end Nawst.Cluster
