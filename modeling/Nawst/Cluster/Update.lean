import Nawst.Lib.Machine
import Nawst.Cluster.Raft
import Nawst.Cluster.Replicas

/-! A node that keeps the metrics of the cluster and proposes placements: long-term ones
computed anew, and short-term ones that only exchange roles. A panic ends the run. -/
namespace Nawst.Cluster.Update
open Lib Lib.FiniteMap Nawst.Core

/-- The part of an update that computes with fractions: the scores of the nodes, their
targets, and the replicas of a vnode. The source has floating-point numbers there. What is
assumed of them, whatever their rounding, is that every node is scored under its id, that
the targets of the nodes add up to the ring, and that the replicas of a vnode are the first
of the other nodes in some order, in which the replicas that it has play no role. -/
structure Weighing where
  scores : List NodeMetrics → List NodeInfo
  targets : List NodeInfo → Option Counts
  replicas : List NodeInfo → List NodeMetrics → RTTMatrix → Int → VNode → List NodeID
  scores_ids : ∀ metrics, (scores metrics).map NodeInfo.id = metrics.map NodeMetrics.nodeID
  targets_spec : ∀ {nodes}, nodes ≠ [] → (nodes.map NodeInfo.id).Nodup →
    ∃ counts, targets nodes = some counts ∧ counts.sum = vnodeCount ∧ counts.For (nodes.map NodeInfo.id)
  replicas_spec : ∀ {nodes metrics} rttMatrix rf {v}, (nodes.map NodeInfo.id).Nodup →
    (∀ n ∈ nodes, n.id ∈ metrics.map NodeMetrics.nodeID) → v.primary ∈ nodes.map NodeInfo.id →
    ∃ others, (v.primary::others).Perm (nodes.map NodeInfo.id) ∧
      replicas nodes metrics rttMatrix rf v = others.take (rf-1).toNat
  replicas_congr : ∀ nodes metrics rttMatrix rf v rs,
    replicas nodes metrics rttMatrix rf { v with replicas := rs } = replicas nodes metrics rttMatrix rf v

/-- Exact arithmetic. -/
def Weighing.exact (hash : String → UInt64) : Weighing where
  scores := calculateScores
  targets := getTargetVNodeCount
  replicas := chooseReplicas hash
  scores_ids := calculateScores_ids
  targets_spec := getTargetVNodeCount_spec
  replicas_spec rttMatrix rf _ hnodup hstats hv := chooseReplicas_spec hash rttMatrix hnodup hstats rf hv
  replicas_congr _ _ _ _ _ _ := rfl

/-- What is fixed for a node; without raft it installs its placements itself. -/
structure Config where
  hash : String → UInt64
  replicationFactor : Int
  raft : Bool
  weighing : Weighing

/-- A member with the id from its metadata, when that can be parsed. -/
structure Member where
  name : NodeID
  peerID : Option NodeID

def Member.id (m : Member) : NodeID := m.peerID.getD m.name

/-- What an update finds: another one that is running, whether the node leads, and the
members, when there is a member list. -/
structure View where
  updating : Bool
  leader : Bool
  members : Option (List Member)

/-- The members that an update goes on with. -/
def View.ready (cfg : Config) (view : View) : Option (List Member) :=
  if view.updating then none
  else if cfg.raft ∧ ¬ view.leader then none
  else match view.members with
    | none => none
    | some members => if members.length = 0 then none else some members

structure GossipMetricsMessage where
  metrics : NodeMetrics
  rttData : FMap NodeID Rat

/-- A placement that was proposed, with the nodes that were active then. -/
structure Proposal where
  long : Bool
  active : List NodeID
  next : ScoredPlacement

/-- The node's tables, the placement it has, and a record of what it has proposed. -/
structure Replicator where
  metrics : List NodeMetrics
  metricEMA : FMap NodeID NodeMetrics
  rttMatrix : RTTMatrix
  degradedStreak : Counts
  placement : Option ScoredPlacement
  proposals : List Proposal

def newReplicator : Replicator := ⟨[],∅,∅,∅,none,[]⟩

/-- Replace what is known of a node, or add it. -/
def record (m : NodeMetrics) : List NodeMetrics → List NodeMetrics
  | [] => [m]
  | x::xs => if x.nodeID = m.nodeID then m::xs else x::record m xs

def Replicator.handleMetricsMessage (r : Replicator) : Option GossipMetricsMessage → Replicator
  | none => r
  | some msg =>
    if msg.metrics.nodeID = "" then r
    else
      let smoothed := smoothMetrics (r.metricEMA.lookup msg.metrics.nodeID) msg.metrics
      { r with
        metrics := record smoothed r.metrics
        metricEMA := r.metricEMA.insert msg.metrics.nodeID smoothed
        rttMatrix := r.rttMatrix.insert smoothed.nodeID (msg.rttData ∪ (r.rttMatrix.lookup smoothed.nodeID).getD ∅) }

/-- The nodes with metrics, in the order in which they came up. -/
abbrev nodeIDs (metrics : List NodeMetrics) : List NodeID := metrics.map NodeMetrics.nodeID

/-- The metrics of the members. -/
def activeMetrics (members : List Member) (metrics : List NodeMetrics) : List NodeMetrics :=
  metrics.filter (fun m => m.nodeID ∈ members.map Member.id)

section Long
variable (cfg : Config) (prev : Option ScoredPlacement) (rttMatrix : RTTMatrix) (active : List NodeMetrics)

/-- The vnodes that are built upon: not those of a placement that does not have all. -/
def prevVNodes : List VNode :=
  match prev with
  | none => []
  | some p => if p.vnodes.length = vnodeCount then p.vnodes else []

/-- The vnodes computed for the active nodes. -/
def rebuild : Except Err (List VNode) :=
  match cfg.weighing.targets (cfg.weighing.scores active) with
  | none => .error "index out of range"
  | some counts =>
    match assignVNodes cfg.hash (prevVNodes prev) counts with
    | .error e => .error e
    | .ok vs => .ok (assignReplicas
        (cfg.weighing.replicas (cfg.weighing.scores active) active rttMatrix cfg.replicationFactor) cfg.replicationFactor vs)

/-- Old and new vnodes, index by index; none is an index out of range. -/
def compared (old new : List VNode) : Option (List (VNode × VNode)) :=
  (List.range vnodeCount).mapM (fun i => do
    let o ← old[i]?
    let n ← new[i]?
    some (o,n))

def sortedCopy (l : List NodeID) : List NodeID := sortSlice (· < ·) l

def movedPrimaryCount (pairs : List (VNode × VNode)) : Nat := pairs.countP (fun p => p.2.primary ≠ p.1.primary)

def movedReplicaCount (pairs : List (VNode × VNode)) : Nat :=
  pairs.countP (fun p => sortedCopy p.1.replicas ≠ sortedCopy p.2.replicas)

def primaryThreshold : Nat := vnodeCount*12/100

/-- A machine integer, so the product wraps around. -/
def replicaThreshold (rf : Int) : Int := (Int.bmod (vnodeCount*(rf-1)) (2^64)).tdiv 5

/-- Too few vnodes change for a new placement. -/
def Negligible (rf : Int) (pairs : List (VNode × VNode)) : Prop :=
  movedPrimaryCount pairs < primaryThreshold ∧ (movedReplicaCount pairs : Int) < replicaThreshold rf

instance (rf : Int) (pairs : List (VNode × VNode)) : Decidable (Negligible rf pairs) := inferInstanceAs (Decidable (_ ∧ _))

/-- The placement that a long-term update proposes, if any. -/
def proposeLong : Except Err (Option ScoredPlacement) :=
  if active.length = 0 then .ok none
  else match rebuild cfg prev rttMatrix active with
    | .error e => .error e
    | .ok vs =>
      match prev with
      | some p =>
        if p.vnodes.length = vnodeCount then
          match compared p.vnodes vs with
          | none => .error "index out of range"
          | some pairs =>
            if Negligible cfg.replicationFactor pairs then .ok none
            else .ok (some ⟨⟨p.epoch+1,vs⟩,cfg.weighing.scores active⟩)
        else .ok (some ⟨⟨1,vs⟩,cfg.weighing.scores active⟩)
      | none => .ok (some ⟨⟨1,vs⟩,cfg.weighing.scores active⟩)

end Long

/-- For how long nodes have been degraded, which are so now and which have long been. -/
structure Watch where
  streak : Counts
  degradedNow : Finset NodeID
  sustained : Finset NodeID

def Watch.observe (avgRTT : Rat) (w : Watch) (m : NodeMetrics) : Watch :=
  let now := isSeverelyDegraded m avgRTT
  let streak := if now then w.streak.add m.nodeID 1 else w.streak.insert m.nodeID 0
  { streak := streak
    degradedNow := if now then insert m.nodeID w.degradedNow else w.degradedNow.erase m.nodeID
    sustained := if 6 ≤ streak.get m.nodeID then insert m.nodeID w.sustained else w.sustained }

def watch (streak : Counts) (active : List NodeMetrics) : Watch :=
  active.foldl (Watch.observe (averageRTT active)) ⟨streak,∅,∅⟩

def scoreByID (scores : List NodeInfo) : FMap NodeID Rat := scores.foldl (fun m s => m.insert s.id s.score) ∅

def shortThreshold : Nat := if vnodeCount*1/100 < 1 then 1 else vnodeCount*1/100

section Short
variable (w : Watch) (scores : List NodeInfo)

def swapped (v : VNode) : Option VNode := swapRoles (scoreByID scores) (· ∈ w.degradedNow) (· ∈ w.sustained) v

/-- The placement that a short-term update proposes, if any. -/
def proposeShort (prev : ScoredPlacement) : Option ScoredPlacement :=
  let swaps := prev.vnodes.countP (fun v => (swapped w scores v).isSome)
  if swaps = 0 then none
  else if swaps < shortThreshold then none
  else some ⟨⟨prev.epoch+1,prev.vnodes.map (fun v => (swapped w scores v).getD v)⟩,scores⟩

end Short

namespace Replicator
variable (cfg : Config)

/-- Propose a placement: the log decides on it, or it is installed at once. -/
def commit (r : Replicator) (q : Proposal) : Replicator :=
  { r with
    placement := if cfg.raft then ((PlacementFSM.mk r.placement true []).offer q.next).placement else some q.next
    proposals := r.proposals ++ [q] }

/-- What a long-term update of the node proposes. -/
def longProposal (r : Replicator) (view : View) : Except Err (Option Proposal) :=
  match view.ready cfg with
  | none => .ok none
  | some members =>
    let active := activeMetrics members r.metrics
    (proposeLong cfg r.placement r.rttMatrix active).map (Option.map (fun next => ⟨true,nodeIDs active,next⟩))

/-- A proposal is committed at once. -/
def updatePlacement (r : Replicator) (view : View) : Except Err Replicator :=
  (r.longProposal cfg view).map (fun q => q.elim r (r.commit cfg))

/-- What a short-term update proposes, and the node with its streaks counted on. -/
def shortProposal (r : Replicator) (view : View) : Replicator × Option Proposal :=
  match view.ready cfg, r.placement with
  | some members, some prev =>
    let active := activeMetrics members r.metrics
    if prev.vnodes.length ≠ vnodeCount ∨ active.length = 0 then (r,none)
    else
      let w := watch r.degradedStreak active
      ({ r with degradedStreak := w.streak },
        (proposeShort w (cfg.weighing.scores active) prev).map (fun next => ⟨false,nodeIDs active,next⟩))
  | _, _ => (r,none)

def updatePlacementShortTerm (r : Replicator) (view : View) : Replicator :=
  let (r,q) := r.shortProposal cfg view
  q.elim r (r.commit cfg)

end Replicator

inductive Event where
  | metrics (msg : Option GossipMetricsMessage)
  | updatePlacement (view : View)
  | updatePlacementShortTerm (view : View)

namespace Replicator

def step (cfg : Config) (r : Replicator) : Event → Option Replicator
  | .metrics msg => some (r.handleMetricsMessage msg)
  | .updatePlacement view => (r.updatePlacement cfg view).toOption
  | .updatePlacementShortTerm view => some (r.updatePlacementShortTerm cfg view)

end Replicator

section Metrics
variable {metrics : List NodeMetrics}

theorem nodeIDs_record (m : NodeMetrics) (metrics : List NodeMetrics) :
    nodeIDs (record m metrics) = if m.nodeID ∈ nodeIDs metrics then nodeIDs metrics else nodeIDs metrics ++ [m.nodeID] := by
  induction metrics with
  | nil => simp [record]
  | cons x metrics ih =>
    unfold record
    split
    · rename_i h
      simp [h]
    · rename_i h
      by_cases hm : m.nodeID ∈ nodeIDs metrics
      · simp_all
      · simp_all [Ne.symm h]

/-- A table of metrics: one entry for each node, under its name. -/
structure Table (metrics : List NodeMetrics) : Prop where
  nodup : (nodeIDs metrics).Nodup
  named : "" ∉ nodeIDs metrics

theorem Table.record (h : Table metrics) {m : NodeMetrics} (hm : m.nodeID ≠ "") : Table (record m metrics) := by
  refine ⟨?_,?_⟩
  · rw [nodeIDs_record]
    split
    · exact h.nodup
    · rename_i hnew
      exact List.concat_eq_append ▸ h.nodup.concat hnew
  · rw [nodeIDs_record]
    split
    · exact h.named
    · simpa [hm.symm] using h.named

theorem Table.active (h : Table metrics) (members : List Member) : Table (activeMetrics members metrics) := by
  have hsub : (nodeIDs (activeMetrics members metrics)).Sublist (nodeIDs metrics) := List.filter_sublist.map _
  exact ⟨hsub.nodup h.nodup,fun hn => h.named (hsub.subset hn)⟩

end Metrics

/-- The placement that an update builds upon: one that does not have all vnodes is ignored. -/
def base : Option ScoredPlacement → Option ScoredPlacement
  | none => none
  | some p => if p.vnodes.length = vnodeCount then some p else none

theorem base_eq_some {prev : Option ScoredPlacement} {p : ScoredPlacement} :
    base prev = some p ↔ prev = some p ∧ p.vnodes.length = vnodeCount := by
  cases prev with
  | none => simp [base]
  | some q =>
    simp only [base, Option.ite_none_right_eq_some, Option.some.injEq]
    constructor
    · rintro ⟨hq,rfl⟩
      exact ⟨rfl,hq⟩
    · rintro ⟨rfl,hq⟩
      exact ⟨hq,rfl⟩

/-- The epoch that follows what an update builds upon. -/
def nextEpoch (prev : Option ScoredPlacement) : UInt64 := (base prev).elim 1 (fun p => p.epoch+1)

section Propose
variable (cfg : Config) {prev : Option ScoredPlacement} (rttMatrix : RTTMatrix) {active : List NodeMetrics}

theorem prevVNodes_ring (hprev : ∀ p ∈ base prev, p.IsRing) :
    prevVNodes prev = [] ∨ (prevVNodes prev).map VNode.id = ringIDs := by
  cases prev with
  | none => exact .inl rfl
  | some p =>
    by_cases hfull : p.vnodes.length = vnodeCount
    · rw [prevVNodes, if_pos hfull]
      exact .inr (hprev p (if_pos hfull))
    · exact .inl (if_neg hfull)

/-- The vnodes that primaries are assigned to. -/
def startVNodes (prev : Option ScoredPlacement) : List VNode :=
  if (prevVNodes prev).length = 0 then initializeVNodes else prevVNodes prev

/-- What surplus owners have been left with. -/
def stripped (counts : Counts) (prev : Option ScoredPlacement) : Revoked :=
  revoke counts (startVNodes prev) (currentCounts (startVNodes prev))

/-- Computing vnodes for active nodes never panics: surplus owners give up vnodes, nodes below
their targets get them, and then replicas are chosen. -/
theorem rebuild_filled (hprev : ∀ p ∈ base prev, p.IsRing) (hne : active ≠ []) (htable : Table active) :
    ∃ counts us, cfg.weighing.targets (cfg.weighing.scores active) = some counts ∧ counts.For (nodeIDs active) ∧
      "" ∉ counts.keys ∧ us.map VNode.id = ringIDs ∧
      Settled counts (stripped counts prev) ∧
      Filled (deficitIDs counts (stripped counts prev).counts) (stripped counts prev).orphans
        (deficits counts (stripped counts prev).counts) (stripped counts prev).vnodes us ∧
      rebuild cfg prev rttMatrix active = .ok (assignReplicas
        (cfg.weighing.replicas (cfg.weighing.scores active) active rttMatrix cfg.replicationFactor) cfg.replicationFactor us) := by
  have hids : (cfg.weighing.scores active).map NodeInfo.id = nodeIDs active := cfg.weighing.scores_ids active
  have hscores : cfg.weighing.scores active ≠ [] := by
    intro h
    rw [h] at hids
    exact hne (List.map_eq_nil_iff.mp hids.symm)
  obtain ⟨counts,hcounts,hsum,hfor⟩ := cfg.weighing.targets_spec hscores (hids ▸ htable.nodup)
  rw [hids] at hfor
  have hempty : "" ∉ counts.keys := by
    rw [Finmap.mem_keys, hfor.keys]
    exact htable.named
  have hstart : (startVNodes prev).map VNode.id = ringIDs := start_ids (prevVNodes_ring hprev)
  obtain ⟨hsettled,us,hassign,hfilled⟩ := assignVNodes_filled cfg.hash rfl hstart hsum hempty hfor.nonneg
  have hbare := congrArg (List.map VNode.id) (hfilled.bare.trans (revoke_bare _ _ _))
  simp only [List.map_map] at hbare
  refine ⟨counts,us,hcounts,hfor,hempty,hbare.trans hstart,hsettled,hfilled,?_⟩
  simp only [rebuild, hcounts, hassign]

/-- The vnodes are spread over the active nodes. -/
theorem rebuild_spec (hprev : ∀ p ∈ base prev, p.IsRing) (hne : active ≠ []) (htable : Table active) :
    ∃ vs, rebuild cfg prev rttMatrix active = .ok vs ∧ vs.map VNode.id = ringIDs ∧
      ∀ v ∈ vs, v.Spread cfg.replicationFactor (nodeIDs active) := by
  have hids : (cfg.weighing.scores active).map NodeInfo.id = nodeIDs active := cfg.weighing.scores_ids active
  obtain ⟨counts,us,-,hfor,-,hring,hsettled,hfilled,hok⟩ := rebuild_filled cfg rttMatrix hprev hne htable
  refine ⟨_,hok,?_,assignReplicas_spread htable.nodup htable.named (fun v hv => ?_) (fun v hv => ?_)⟩
  · rw [assignReplicas_map VNode.id (fun _ _ => rfl), hring]
  · rw [← hids] at hv ⊢
    refine cfg.weighing.replicas_spec rttMatrix _ (hids ▸ htable.nodup) (fun n hn => ?_) hv
    rw [← nodeIDs, ← hids]
    exact List.mem_map_of_mem hn
  · exact (hfor.keys _).mp (Finmap.mem_keys.mp (hsettled.primary_mem hfilled v hv))

private theorem mapM_getElem? {α : Type} (l : List α) {n : Nat} (h : n ≤ l.length) :
    (List.range n).mapM (fun i => l[i]?) = some (l.take n) := by
  induction n with
  | zero => rfl
  | succ n ih =>
    rw [List.range_succ, List.mapM_append, ih (Nat.le_of_lt h), List.take_add_one]
    simp [List.getElem?_eq_getElem (show n < l.length from h)]

/-- In rings no index is out of range. -/
theorem compared_eq {old new : List VNode} (ho : old.length = vnodeCount) (hn : new.length = vnodeCount) :
    compared old new = some (old.zip new) := by
  have hlen : (old.zip new).length = vnodeCount := by simp [ho, hn]
  have hpair (i : Nat) : (do let o ← old[i]?; let n ← new[i]?; some (o,n)) = (old.zip new)[i]? := by
    rw [List.zip, List.getElem?_zipWith]
    cases old[i]? <;> cases new[i]? <;> rfl
  rw [compared, funext hpair, mapM_getElem? _ hlen.ge, List.take_of_length_le hlen.le]

/-- With nothing to build upon a long-term update proposes what it computes. -/
theorem proposeLong_first (hbase : base prev = none) (hne : active ≠ []) {vs : List VNode}
    (hrebuild : rebuild cfg prev rttMatrix active = .ok vs) :
    proposeLong cfg prev rttMatrix active = .ok (some ⟨⟨1,vs⟩,cfg.weighing.scores active⟩) := by
  have hlen : active.length ≠ 0 := by simpa using hne
  simp only [proposeLong, if_neg hlen, hrebuild]
  cases prev with
  | none => rfl
  | some p =>
    have hfull : p.vnodes.length ≠ vnodeCount := fun h => by simp [base, h] at hbase
    simp only [if_neg hfull]

/-- A later one does so unless too little would change. -/
theorem proposeLong_some {p : ScoredPlacement} (hp : p.IsRing) (hne : active ≠ []) {vs : List VNode}
    (hrebuild : rebuild cfg (some p) rttMatrix active = .ok vs) (hring : vs.map VNode.id = ringIDs) :
    proposeLong cfg (some p) rttMatrix active = .ok (
      if Negligible cfg.replicationFactor (p.vnodes.zip vs) then none
      else some ⟨⟨p.epoch+1,vs⟩,cfg.weighing.scores active⟩) := by
  have hlen : active.length ≠ 0 := by simpa using hne
  simp only [proposeLong, if_neg hlen, hrebuild, if_pos hp.length_eq, compared_eq hp.length_eq (ring_length hring)]
  split <;> rfl

theorem proposeLong_spec (hprev : ∀ p ∈ base prev, p.IsRing) (htable : Table active) :
    ∃ next, proposeLong cfg prev rttMatrix active = .ok next ∧
      ∀ p ∈ next, p.IsRing ∧ p.epoch = nextEpoch prev ∧ ∀ v ∈ p.vnodes, v.Spread cfg.replicationFactor (nodeIDs active) := by
  by_cases hne : active = []
  · exact ⟨none,by simp [proposeLong, hne],by simp⟩
  obtain ⟨vs,hrebuild,hring,hspread⟩ := rebuild_spec cfg rttMatrix hprev hne htable
  cases hbase : base prev with
  | none =>
    refine ⟨_,proposeLong_first cfg rttMatrix hbase hne hrebuild,fun p hp => ?_⟩
    cases hp
    exact ⟨hring,by rw [nextEpoch, hbase]; rfl,hspread⟩
  | some q =>
    obtain ⟨rfl,-⟩ := base_eq_some.mp hbase
    refine ⟨_,proposeLong_some cfg rttMatrix (hprev q hbase) hne hrebuild hring,fun p hp => ?_⟩
    split at hp
    · cases hp
    · cases hp
      exact ⟨hring,by rw [nextEpoch, hbase]; rfl,hspread⟩

variable {rf : Int}

/-- Exchanging roles keeps a placement well formed. -/
theorem proposeShort_wellFormed {w : Watch} {scores : List NodeInfo} {prev next : ScoredPlacement}
    (hprev : prev.toPlacement.WellFormed rf) (h : proposeShort w scores prev = some next) : next.toPlacement.WellFormed rf := by
  have hswap (v : VNode) : ((swapped w scores v).getD v).id = v.id ∧
      ((swapped w scores v).getD v).holders.Perm v.holders := by
    cases hs : swapped w scores v with
    | none => exact ⟨rfl,.refl _⟩
    | some v' => exact swapRoles_holders hs
  simp only [proposeShort] at h
  split at h
  · cases h
  split at h
  · cases h
  cases h
  refine ⟨?_,fun v' hv' => ?_⟩
  · simp only [Placement.IsRing, List.map_map, Function.comp_def, (hswap _).1]
    exact hprev.ring
  · obtain ⟨v,hv,rfl⟩ := List.mem_map.mp hv'
    exact (hprev.vnodes v hv).of_perm (hswap v).2

theorem proposeShort_epoch {w : Watch} {scores : List NodeInfo} {prev next : ScoredPlacement}
    (h : proposeShort w scores prev = some next) : next.epoch = prev.epoch+1 := by
  simp only [proposeShort] at h
  split at h
  · cases h
  · split at h
    · cases h
    · cases h
      rfl

/-- When all vnodes are held alike, all change roles alike. -/
theorem proposeShort_heldBy {w : Watch} {scores nodes : List NodeInfo} {epoch : UInt64} {primary primary' : NodeID}
    {replicas replicas' : List NodeID} (h : ∀ v, swapped w scores ⟨v,0,primary,replicas⟩ = some ⟨v,0,primary',replicas'⟩) :
    proposeShort w scores ⟨heldBy epoch primary replicas,nodes⟩ = some ⟨heldBy (epoch+1) primary' replicas',scores⟩ := by
  have hlength : ringIDs.length = vnodeCount := by simp [ringIDs]
  simp only [proposeShort, heldBy, List.countP_map, Function.comp_def, h, Option.isSome_some,
    List.countP_true, List.map_map, Option.getD_some, hlength]
  rw [if_neg (by decide), if_neg (by decide)]

end Propose

/-- What is proposed is well formed; a long-term proposal is spread over the nodes that
were active. -/
structure Proposal.Sound (rf : Int) (q : Proposal) : Prop where
  wellFormed : q.next.toPlacement.WellFormed rf
  active : q.active.Nodup
  spread : q.long = true → ∀ v ∈ q.next.vnodes, v.Spread rf q.active

namespace Replicator
variable (cfg : Config) {r : Replicator}

structure Inv (rf : Int) (r : Replicator) : Prop where
  metrics : Table r.metrics
  proposals : ∀ q ∈ r.proposals, q.Sound rf
  installed : ∀ p ∈ r.placement, ∃ q ∈ r.proposals, q.next = p

theorem Inv.base {rf : Int} (h : Inv rf r) : ∀ p ∈ base r.placement, p.toPlacement.WellFormed rf := by
  intro p hp
  obtain ⟨q,hq,rfl⟩ := h.installed p (base_eq_some.mp hp).1
  exact (h.proposals q hq).wellFormed

/-- A long-term update never panics; what it proposes is sound and follows what it builds
upon. -/
theorem longProposal_spec (htable : Table r.metrics) (hring : ∀ p ∈ base r.placement, p.IsRing) (view : View) :
    ∃ q, r.longProposal cfg view = .ok q ∧
      ∀ x ∈ q, x.Sound cfg.replicationFactor ∧ x.next.epoch = nextEpoch r.placement := by
  unfold longProposal
  cases view.ready cfg with
  | none => exact ⟨none,rfl,by simp⟩
  | some members =>
    have hactive := htable.active members
    obtain ⟨next,hok,hnext⟩ := proposeLong_spec cfg r.rttMatrix hring hactive
    dsimp only
    rw [hok]
    refine ⟨_,rfl,fun x hx => ?_⟩
    obtain ⟨p,rfl,rfl⟩ := Option.map_eq_some_iff.mp hx
    obtain ⟨hp,hepoch,hspread⟩ := hnext p rfl
    exact ⟨⟨⟨hp,fun v hv => (hspread v hv).wellFormed hactive.named⟩,hactive.nodup,fun _ => hspread⟩,hepoch⟩

/-- A short-term update counts streaks; what it proposes is sound and follows what it builds
upon. -/
theorem shortProposal_spec (htable : Table r.metrics)
    (hprev : ∀ p ∈ base r.placement, p.toPlacement.WellFormed cfg.replicationFactor) (view : View) :
    (∃ streak, (r.shortProposal cfg view).1 = { r with degradedStreak := streak }) ∧
      ∀ x ∈ (r.shortProposal cfg view).2, x.Sound cfg.replicationFactor ∧ x.next.epoch = nextEpoch r.placement := by
  unfold shortProposal
  split
  · rename_i members prev _ hp
    dsimp only
    split
    · exact ⟨⟨r.degradedStreak,rfl⟩,by simp⟩
    · rename_i hfull
      have hbase : base r.placement = some prev := base_eq_some.mpr ⟨hp,not_not.mp (not_or.mp hfull).1⟩
      refine ⟨⟨_,rfl⟩,fun x hx => ?_⟩
      obtain ⟨next,hnext,rfl⟩ := Option.map_eq_some_iff.mp hx
      refine ⟨⟨proposeShort_wellFormed (hprev prev hbase) hnext,(htable.active members).nodup,by simp⟩,?_⟩
      rw [nextEpoch, hbase]
      exact proposeShort_epoch hnext
  · exact ⟨⟨r.degradedStreak,rfl⟩,by simp⟩

/-- A proposal is installed or leaves the placement as it is. -/
theorem commit_placement (r : Replicator) (q : Proposal) :
    (r.commit cfg q).placement = some q.next ∨ (r.commit cfg q).placement = r.placement := by
  unfold commit PlacementFSM.offer PlacementFSM.install
  dsimp only
  split
  · split
    · split
      · exact .inr rfl
      · exact .inl rfl
    · exact .inl rfl
  · exact .inl rfl

theorem Inv.commit {rf : Int} (h : Inv rf r) {q : Proposal} (hq : q.Sound rf) : Inv rf (r.commit cfg q) where
  metrics := h.metrics
  proposals := Machine.forall_mem_concat h.proposals hq
  installed p hp := by
    have hmem {q' : Proposal} (hq' : q' ∈ r.proposals ++ [q]) (he : q'.next = p) :
        ∃ q' ∈ (r.commit cfg q).proposals, q'.next = p := ⟨q',hq',he⟩
    rcases commit_placement cfg r q with he | he
    · rw [he] at hp
      exact hmem (by simp) (Option.some.inj hp)
    · rw [he] at hp
      obtain ⟨q',hq',hn⟩ := h.installed p hp
      exact hmem (List.mem_append_left _ hq') hn

theorem Inv.handleMetricsMessage {rf : Int} (h : Inv rf r) (msg : Option GossipMetricsMessage) :
    Inv rf (r.handleMetricsMessage msg) := by
  cases msg with
  | none => exact h
  | some msg =>
    simp only [Replicator.handleMetricsMessage]
    split
    · exact h
    · rename_i hname
      exact ⟨h.metrics.record (by simpa using hname),h.proposals,h.installed⟩

theorem Inv.updatePlacement (h : Inv cfg.replicationFactor r) (view : View) :
    ∃ r', r.updatePlacement cfg view = .ok r' ∧ Inv cfg.replicationFactor r' := by
  obtain ⟨q,hok,hq⟩ := longProposal_spec cfg h.metrics (fun p hp => (h.base p hp).ring) view
  refine ⟨q.elim r (r.commit cfg),by rw [Replicator.updatePlacement, hok]; rfl,?_⟩
  cases q with
  | none => exact h
  | some x => exact h.commit cfg (hq x rfl).1

theorem Inv.updatePlacementShortTerm (h : Inv cfg.replicationFactor r) (view : View) :
    Inv cfg.replicationFactor (r.updatePlacementShortTerm cfg view) := by
  obtain ⟨⟨streak,hstreak⟩,hq⟩ := shortProposal_spec cfg h.metrics h.base view
  have hr : Inv cfg.replicationFactor (r.shortProposal cfg view).1 := by
    rw [hstreak]
    exact ⟨h.metrics,h.proposals,h.installed⟩
  unfold Replicator.updatePlacementShortTerm
  dsimp only
  cases hnext : (r.shortProposal cfg view).2 with
  | none => exact hr
  | some x => exact hr.commit cfg (hq x hnext).1

theorem step_inv (h : Inv cfg.replicationFactor r) (e : Event) :
    ∃ r', r.step cfg e = some r' ∧ Inv cfg.replicationFactor r' := by
  cases e with
  | metrics msg => exact ⟨_,rfl,h.handleMetricsMessage msg⟩
  | updatePlacement view =>
    obtain ⟨r',hok,hr'⟩ := h.updatePlacement cfg view
    exact ⟨r',by simp [step, hok, Except.toOption],hr'⟩
  | updatePlacementShortTerm view => exact ⟨_,rfl,h.updatePlacementShortTerm cfg view⟩

/-- From a node without a placement no sequence of metrics and updates panics; what is
proposed on the way is well formed, and the installed placement is one of the proposals. -/
theorem proposals_sound (cfg : Config) (es : List Event) :
    ∃ r, Machine.run (step cfg) newReplicator es = some r ∧ (∀ q ∈ r.proposals, q.Sound cfg.replicationFactor) ∧
      ∀ p ∈ r.placement, ∃ q ∈ r.proposals, q.next = p := by
  have hinit : Inv cfg.replicationFactor newReplicator :=
    ⟨⟨by simp [newReplicator],by simp [newReplicator]⟩,by simp [newReplicator],by simp [newReplicator]⟩
  obtain ⟨r,hr,h⟩ := Machine.run_total (fun r e h => step_inv cfg h e) hinit es
  exact ⟨r,hr,h.proposals,h.installed⟩

section Step
variable {view : View}

/-- A long-term update commits what it proposes. -/
theorem step_proposal {q : Option Proposal} (hq : r.longProposal cfg view = .ok q) :
    r.step cfg (.updatePlacement view) = some (q.elim r (r.commit cfg)) := by
  simp only [step, updatePlacement, hq, Except.map, Except.toOption]

variable {members : List Member} (hview : view.ready cfg = some members)
include hview

theorem longProposal_eq {next : Option ScoredPlacement}
    (hlong : proposeLong cfg r.placement r.rttMatrix (activeMetrics members r.metrics) = .ok next) :
    r.longProposal cfg view =
      .ok (next.map (fun p => ⟨true,nodeIDs (activeMetrics members r.metrics),p⟩)) := by
  simp only [longProposal, hview, hlong, Except.map]

theorem step_long {next : Option ScoredPlacement}
    (hlong : proposeLong cfg r.placement r.rttMatrix (activeMetrics members r.metrics) = .ok next) :
    r.step cfg (.updatePlacement view) =
      some (next.elim r (fun p => r.commit cfg ⟨true,nodeIDs (activeMetrics members r.metrics),p⟩)) := by
  rw [step_proposal cfg (longProposal_eq cfg hview hlong)]
  cases next <;> rfl

variable (hactive : activeMetrics members r.metrics ≠ []) {prev : ScoredPlacement} (hprev : r.placement = some prev)
  (hring : prev.IsRing) {vs : List VNode} (hvs : vs.map VNode.id = ringIDs)
  (hrebuild : rebuild cfg (some prev) r.rttMatrix (activeMetrics members r.metrics) = .ok vs)
include hactive hprev hring hvs hrebuild

theorem step_negligible (hneg : Negligible cfg.replicationFactor (prev.vnodes.zip vs)) :
    r.step cfg (.updatePlacement view) = some r := by
  have hlong := proposeLong_some cfg r.rttMatrix hring hactive hrebuild hvs
  rw [if_pos hneg, ← hprev] at hlong
  exact step_long cfg hview hlong

end Step

def sampleConfig : Config := ⟨fun _ => 0,2,true,.exact (fun _ => 0)⟩

def sampleMetrics (n : NodeID) : NodeMetrics := ⟨n,1,1,1,1,1,0,0,0,0⟩

/-- Three nodes hold every vnode twice; the third is primary of the first vnode only. -/
def sampleVNode (v : VNode) : VNode :=
  if v.id = 0 then { v with primary := "c", replicas := ["a"] }
  else if v.id < 512 then { v with primary := "a", replicas := ["b"] }
  else { v with primary := "b", replicas := ["a"] }

def samplePlacement : ScoredPlacement := ⟨⟨1,initializeVNodes.map sampleVNode⟩,[]⟩

/-- The third node is not a member any more. -/
def sampleMembers : List Member := [⟨"a",some "a"⟩,⟨"b",some "b"⟩]

def sampleView : View := ⟨false,true,some sampleMembers⟩

/-- A node that has heard of one member. -/
def sampleStart : Replicator := newReplicator.handleMetricsMessage (some ⟨sampleMetrics "a",∅⟩)

theorem sampleStart_table : Table sampleStart.metrics := ⟨by decide +kernel,by decide +kernel⟩

theorem sampleStart_active : activeMetrics sampleMembers sampleStart.metrics ≠ [] := by decide +kernel

/-- Its first update proposes a placement. -/
theorem sampleStart_proposes : ∃ q : Proposal, q.long = true ∧ q.next.epoch = 1 ∧
    sampleStart.longProposal sampleConfig sampleView = .ok (some q) := by
  have hview : sampleView.ready sampleConfig = some sampleMembers := rfl
  have hnone : ∀ p ∈ base sampleStart.placement, p.IsRing := fun p hp => by cases hp
  obtain ⟨vs,hrebuild,-⟩ := rebuild_spec sampleConfig sampleStart.rttMatrix hnone sampleStart_active
    (sampleStart_table.active sampleMembers)
  exact ⟨_,rfl,rfl,longProposal_eq sampleConfig hview (proposeLong_first sampleConfig _ rfl sampleStart_active hrebuild)⟩

theorem proposals_sound_sample : ∃ r q, Machine.run (step sampleConfig) newReplicator
    [.metrics (some ⟨sampleMetrics "a",∅⟩),.updatePlacement sampleView] = some r ∧ q ∈ r.proposals ∧ q.long = true ∧
    q.Sound 2 := by
  obtain ⟨q,hlong,-,hq⟩ := sampleStart_proposes
  obtain ⟨r,hr,hsound,-⟩ := proposals_sound sampleConfig [.metrics (some ⟨sampleMetrics "a",∅⟩),.updatePlacement sampleView]
  obtain ⟨_,hmetrics,hrest⟩ := Machine.run_cons.mp hr
  cases hmetrics
  cases hrest.symm.trans (Machine.run_cons.mpr ⟨_,step_proposal sampleConfig hq,rfl⟩)
  exact ⟨_,q,hr,List.mem_concat_self,hlong,hsound q List.mem_concat_self⟩

end Replicator
end Nawst.Cluster.Update
