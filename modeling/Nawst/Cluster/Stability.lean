import Nawst.Cluster.Rebalance

/-! Computing a placement from itself changes nothing, so long-term updates come to rest when
members and metrics do, unless the replication factor leaves no room for it. -/
namespace Nawst.Cluster
open Lib Lib.FiniteMap Nawst.Core

section Assign
variable {nodeCounts : Counts}

/-- Nothing is taken from owners that are within their targets. -/
theorem revoke_within {vs : List VNode} {current : Counts} (hnamed : ∀ v ∈ vs, v.primary ≠ "")
    (h : ∀ v ∈ vs, revoked nodeCounts current v.primary = false) : revoke nodeCounts vs current = ⟨vs,[],current⟩ := by
  induction vs with
  | nil => rfl
  | cons v vs ih =>
    obtain ⟨hn,hnamed⟩ := List.forall_mem_cons.mp hnamed
    obtain ⟨hv,hvs⟩ := List.forall_mem_cons.mp h
    simp [revoke, hn, hv, ih hnamed hvs]

/-- Vnodes that meet the targets stay as they are. -/
theorem assignVNodes_onTarget (hash : String → UInt64) {vs : List VNode} (hne : vs ≠ []) (hempty : "" ∉ nodeCounts.keys)
    (h : OnTarget nodeCounts vs) : assignVNodes hash vs nodeCounts = .ok vs := by
  have hnamed : ∀ v ∈ vs, v.primary ≠ "" := fun v hv he => hempty (he ▸ h.only v hv)
  have hcount {n : NodeID} (hn : n ≠ "") : (currentCounts vs).get n = nodeCounts.get n := by
    rw [get_currentCounts hn, h.owned_eq]
  have hrevoke : revoke nodeCounts vs (currentCounts vs) = ⟨vs,[],currentCounts vs⟩ := by
    refine revoke_within hnamed (fun v hv => ?_)
    obtain ⟨allowed,hl⟩ := Finmap.mem_iff.mp (Finmap.mem_keys.mp (h.only v hv))
    have hget := hcount (hnamed v hv)
    simp only [Counts.get, hl, Option.getD_some] at hget
    simp [revoked, hl, Counts.get, hget]
  have hids : deficitIDs nodeCounts (currentCounts vs) = [] := by
    refine List.eq_nil_iff_forall_not_mem.mpr (fun n hn => ?_)
    obtain ⟨hin,hlt⟩ := (mem_deficitIDs _ _).mp hn
    rw [hcount (fun he => hempty (he ▸ Finmap.mem_keys.mpr hin))] at hlt
    exact lt_irrefl _ hlt
  have hlen : vs.length ≠ 0 := fun h => hne (List.length_eq_zero_iff.mp h)
  simp [assignVNodes, hlen, hrevoke, hids, assignOrphans]

end Assign

theorem OnTarget.of_primaries {nodeCounts : Counts} {vs vs' : List VNode} (h : OnTarget nodeCounts vs)
    (hp : vs'.map VNode.primary = vs.map VNode.primary) : OnTarget nodeCounts vs' where
  count n hn := by
    have howned (us : List VNode) : owned n us = ((us.map VNode.primary).countP (· = n) : Nat) := by
      rw [List.countP_map]
      rfl
    rw [howned, hp, ← howned]
    exact h.count n hn
  only v hv := by
    have hmem : v.primary ∈ vs.map VNode.primary := hp ▸ List.mem_map_of_mem hv
    obtain ⟨w,hw,he⟩ := List.mem_map.mp hmem
    exact he ▸ h.only w hw

namespace Update

section Fixed
variable (cfg : Config) (rttMatrix : RTTMatrix) {active : List NodeMetrics}

/-- What is computed for the active nodes is computed again from itself. -/
theorem rebuild_fixed {prev : Option ScoredPlacement} (hprev : ∀ p ∈ base prev, p.IsRing) (hne : active ≠ []) (htable : Table active)
    {p : ScoredPlacement} (h : rebuild cfg prev rttMatrix active = .ok p.vnodes) :
    p.IsRing ∧ ∀ q : ScoredPlacement, q.vnodes = p.vnodes → rebuild cfg (some q) rttMatrix active = .ok p.vnodes := by
  obtain ⟨counts,us,hcounts,-,hempty,hring,hsettled,hfilled,hrebuild⟩ := rebuild_filled cfg rttMatrix hprev hne htable
  have hvs := Except.ok.inj (hrebuild.symm.trans h)
  have hids : p.vnodes.map VNode.id = ringIDs := by rw [← hvs, assignReplicas_map VNode.id (fun _ _ => rfl), hring]
  refine ⟨hids,fun q hq => ?_⟩
  have hlen := ring_length hids
  have htarget : OnTarget counts p.vnodes := (hsettled.onTarget hempty hfilled).of_primaries
    (by rw [← hvs, assignReplicas_map VNode.primary (fun _ _ => rfl)])
  have hassign := assignVNodes_onTarget cfg.hash (List.ne_nil_of_length_pos (by rw [hlen]; decide)) hempty htarget
  have hprevq : prevVNodes (some q) = p.vnodes := by rw [prevVNodes, hq, if_pos hlen]
  simp only [rebuild, hcounts, hprevq, hassign]
  rw [← hvs, assignReplicas_idem (cfg.weighing.replicas_congr _ _ _ _)]

end Fixed

section Rest
variable {cfg : Config} {view : View} {members : List Member} (hview : view.ready cfg = some members)

/-- A vnode list compared with itself: nothing moves. -/
theorem negligible_self (rf : Int) (vs : List VNode) : Negligible rf (vs.zip vs) ↔ 0 < replicaThreshold rf := by
  have hsame : ∀ p ∈ vs.zip vs, p.1 = p.2 := by
    intro p hp
    obtain ⟨i,hi⟩ := List.mem_iff_getElem?.mp hp
    obtain ⟨h₁,h₂⟩ := List.getElem?_zip_eq_some.mp hi
    exact Option.some.inj (h₁.symm.trans h₂)
  have hprimary : movedPrimaryCount (vs.zip vs) = 0 := by
    refine List.countP_eq_zero.mpr (fun p hp => ?_)
    simp [hsame p hp]
  have hreplica : movedReplicaCount (vs.zip vs) = 0 := by
    refine List.countP_eq_zero.mpr (fun p hp => ?_)
    simp [hsame p hp]
  have hthreshold : 0 < primaryThreshold := by decide
  simp [Negligible, hprimary, hreplica, hthreshold]

/-- By how much a long-term update that changes nothing raises the epoch. -/
def renewals (cfg : Config) : Nat := if 0 < replicaThreshold cfg.replicationFactor then 0 else 1

/-- The placement is what the node computes for the members. -/
structure Computed (cfg : Config) (members : List Member) (r : Replicator) (p : ScoredPlacement) : Prop where
  active : activeMetrics members r.metrics ≠ []
  placement : r.placement = some p
  ring : p.IsRing
  fixed : ∀ q : ScoredPlacement, q.vnodes = p.vnodes →
    rebuild cfg (some q) r.rttMatrix (activeMetrics members r.metrics) = .ok p.vnodes

theorem next_lt {epoch : UInt64} (h : epoch.toNat+1 < 2^64) : (epoch+1).toNat = epoch.toNat+1 ∧ epoch < epoch+1 := by
  have hnext : (epoch+1).toNat = epoch.toNat+1 := (UInt64.toNat_add epoch 1).trans (Nat.mod_eq_of_lt h)
  exact ⟨hnext,UInt64.lt_iff_toNat_lt.mpr (hnext ▸ Nat.lt_succ_self _)⟩

/-- Proposals that follow a placement: the same vnodes again, with one epoch after the other. -/
structure Repeats (p : ScoredPlacement) (n : Nat) (qs : List Proposal) : Prop where
  epochs : qs.map (fun q => q.next.epoch.toNat) = List.range' (p.epoch.toNat+1) n
  vnodes : ∀ q ∈ qs, q.next.vnodes = p.vnodes

include hview

/-- What a long-term update proposes is installed when its epoch is new. -/
theorem step_proposes {r : Replicator} {next : ScoredPlacement}
    (hlong : proposeLong cfg r.placement r.rttMatrix (activeMetrics members r.metrics) = .ok (some next))
    (hnew : ∀ p ∈ r.placement, p.epoch < next.epoch) : ∃ r', r.step cfg (.updatePlacement view) = some r' ∧
      r'.metrics = r.metrics ∧ r'.rttMatrix = r.rttMatrix ∧ r'.placement = some next ∧
      r'.proposals = r.proposals ++ [⟨true,nodeIDs (activeMetrics members r.metrics),next⟩] := by
  refine ⟨_,r.step_long cfg hview hlong,rfl,rfl,?_,rfl⟩
  unfold Option.elim Replicator.commit PlacementFSM.offer PlacementFSM.install
  cases hp : r.placement with
  | none => simp
  | some p => simp [UInt64.not_le.mpr (hnew p hp)]

/-- A node that has what it computes proposes nothing, or the same once more. -/
theorem Computed.step {r : Replicator} {p : ScoredPlacement} (h : Computed cfg members r p) (hlast : p.epoch.toNat+1 < 2^64) :
    ∃ r' q qs, r.step cfg (.updatePlacement view) = some r' ∧ Computed cfg members r' q ∧ q.vnodes = p.vnodes ∧
      q.epoch.toNat = p.epoch.toNat+renewals cfg ∧ r'.proposals = r.proposals ++ qs ∧ Repeats p (renewals cfg) qs := by
  have hfixed := h.fixed p rfl
  by_cases hneg : Negligible cfg.replicationFactor (p.vnodes.zip p.vnodes)
  · have hzero : renewals cfg = 0 := if_pos ((negligible_self _ _).mp hneg)
    rw [hzero]
    exact ⟨r,p,[],r.step_negligible cfg hview h.active h.placement h.ring h.ring hfixed hneg,h,rfl,rfl,
      (List.append_nil _).symm,rfl,by simp⟩
  · have hone : renewals cfg = 1 := if_neg (fun hth => hneg ((negligible_self _ _).mpr hth))
    have hlong := proposeLong_some cfg r.rttMatrix h.ring h.active hfixed h.ring
    rw [if_neg hneg, ← h.placement] at hlong
    obtain ⟨hnext,hlt⟩ := next_lt hlast
    obtain ⟨r',hstep,hm,hrtt,hp,hprop⟩ :=
      step_proposes hview hlong (fun p' hp' => by rw [h.placement] at hp'; cases hp'; exact hlt)
    rw [hone]
    exact ⟨r',_,_,hstep,⟨by rw [hm]; exact h.active,hp,h.ring,by rw [hm, hrtt]; exact h.fixed⟩,rfl,hnext,hprop,
      by simpa using hnext,by simp⟩

theorem Computed.run (k : Nat) {r : Replicator} {p : ScoredPlacement} (h : Computed cfg members r p)
    (hlast : p.epoch.toNat+k < 2^64) :
    ∃ r' q qs, Machine.run (Replicator.step cfg) r (List.replicate k (.updatePlacement view)) = some r' ∧
      r'.placement = some q ∧ q.vnodes = p.vnodes ∧ q.epoch.toNat = p.epoch.toNat+k*renewals cfg ∧
      r'.proposals = r.proposals ++ qs ∧ Repeats p (k*renewals cfg) qs := by
  induction k generalizing r p with
  | zero =>
    rw [Nat.zero_mul]
    exact ⟨r,p,[],rfl,h.placement,rfl,rfl,(List.append_nil _).symm,rfl,by simp⟩
  | succ k ih =>
    obtain ⟨r₁,p₁,qs₁,hstep,h₁,hv₁,he₁,hprop₁,hrep₁⟩ := h.step hview (by omega)
    have hle : renewals cfg ≤ 1 := by unfold renewals; split <;> decide
    obtain ⟨r',q,qs,hrun,hq,hv,he,hprop,hrep⟩ := ih h₁ (by omega)
    refine ⟨r',q,qs₁ ++ qs,Machine.run_cons.mpr ⟨r₁,hstep,hrun⟩,hq,hv.trans hv₁,?_,?_,?_,?_⟩
    · rw [he, he₁, Nat.succ_mul]
      omega
    · rw [hprop, hprop₁, List.append_assoc]
    · -- The epochs of the later proposals follow that of the first.
      rw [List.map_append, hrep₁.epochs, hrep.epochs, he₁, Nat.add_right_comm, List.range'_append_1, Nat.succ_mul,
        Nat.add_comm (renewals cfg)]
    · exact List.forall_mem_append.mpr ⟨hrep₁.vnodes,fun x hx => (hrep.vnodes x hx).trans hv₁⟩

/-- A node proposes what it computes, or too little would change. -/
theorem step_computed {r : Replicator} (htable : Table r.metrics) (hring : ∀ p ∈ r.placement, p.IsRing)
    (hepoch : ∀ p ∈ r.placement, p.epoch.toNat+1 < 2^64) (hactive : activeMetrics members r.metrics ≠ []) :
    (∃ r' p, r.step cfg (.updatePlacement view) = some r' ∧ Computed cfg members r' p) ∨
      r.step cfg (.updatePlacement view) = some r ∧ renewals cfg = 0 ∧ r.placement.isSome := by
  have hactiveTable := htable.active members
  have hbase : ∀ p ∈ base r.placement, p.IsRing := fun p hp => hring p (base_eq_some.mp hp).1
  obtain ⟨vs,hrebuild,hvs,-⟩ := rebuild_spec cfg r.rttMatrix hbase hactive hactiveTable
  have hinstall {next : ScoredPlacement} (hnext : next.vnodes = vs)
      (hlong : proposeLong cfg r.placement r.rttMatrix (activeMetrics members r.metrics) = .ok (some next))
      (hnew : ∀ p ∈ r.placement, p.epoch < next.epoch) :
      ∃ r' p, r.step cfg (.updatePlacement view) = some r' ∧ Computed cfg members r' p := by
    obtain ⟨r',hstep,hm,hrtt,hp,-⟩ := step_proposes hview hlong hnew
    obtain ⟨hring',hfixed⟩ := rebuild_fixed cfg r.rttMatrix hbase hactive hactiveTable (hnext ▸ hrebuild)
    exact ⟨r',next,hstep,by rw [hm]; exact hactive,hp,hring',by rw [hm, hrtt]; exact hfixed⟩
  cases hp : r.placement with
  | none =>
    exact .inl (hinstall rfl (proposeLong_first cfg r.rttMatrix (by rw [hp]; rfl) hactive hrebuild) (by simp [hp]))
  | some prev =>
    rw [hp] at hrebuild
    have hprev := hring prev hp
    by_cases hneg : Negligible cfg.replicationFactor (prev.vnodes.zip vs)
    · have hth : 0 < replicaThreshold cfg.replicationFactor := (Int.natCast_nonneg _).trans_lt hneg.2
      exact .inr ⟨Replicator.step_negligible cfg hview hactive hp hprev hvs hrebuild hneg,if_pos hth,rfl⟩
    · have hlong := proposeLong_some cfg r.rttMatrix hprev hactive hrebuild hvs
      rw [if_neg hneg, ← hp] at hlong
      refine .inl (hinstall rfl hlong (fun p hp' => ?_))
      cases hp.symm.trans hp'
      exact (next_lt (hepoch prev hp)).2

end Rest

/-- A node that keeps its placement goes on doing so. -/
theorem run_kept {cfg : Config} {r : Replicator} {e : Event} (h : r.step cfg e = some r) (k : Nat) :
    Machine.run (Replicator.step cfg) r (List.replicate k e) = some r := by
  induction k with
  | zero => rfl
  | succ k ih => exact Machine.run_cons.mpr ⟨r,h,ih⟩

/-- With the same members and metrics the first long-term update settles the vnodes: all that
follow leave those installed that it leaves. They propose nothing when the threshold for
replicas is positive, and otherwise, as with a replication factor of one, the same vnodes
with the next epoch each time. -/
theorem updates_rest (cfg : Config) {r : Replicator} (htable : Table r.metrics) (hring : ∀ p ∈ r.placement, p.IsRing)
    (hepoch : ∀ p ∈ r.placement, p.epoch.toNat+1 < 2^64) {view : View} {members : List Member}
    (hview : view.ready cfg = some members) (hactive : activeMetrics members r.metrics ≠ []) :
    ∃ r' p, r.step cfg (.updatePlacement view) = some r' ∧ r'.placement = some p ∧ ∀ k, p.epoch.toNat+k < 2^64 →
      ∃ r'' q qs, Machine.run (Replicator.step cfg) r' (List.replicate k (.updatePlacement view)) = some r'' ∧
        r''.placement = some q ∧ q.vnodes = p.vnodes ∧
        q.epoch.toNat = p.epoch.toNat+k*(if 0 < replicaThreshold cfg.replicationFactor then 0 else 1) ∧
        r''.proposals = r'.proposals ++ qs ∧
        Repeats p (k*(if 0 < replicaThreshold cfg.replicationFactor then 0 else 1)) qs := by
  rcases step_computed hview htable hring hepoch hactive with ⟨r',p,hstep,h⟩ | ⟨hstep,hzero,hsome⟩
  · exact ⟨r',p,hstep,h.placement,fun k hk => h.run hview k hk⟩
  · obtain ⟨p,hp⟩ := Option.isSome_iff_exists.mp hsome
    rw [renewals] at hzero
    refine ⟨r,p,hstep,hp,fun k _ => ⟨r,p,[],run_kept hstep k,hp,rfl,?_,(List.append_nil _).symm,?_,by simp⟩⟩
    · rw [hzero, Nat.mul_zero, Nat.add_zero]
    · rw [hzero, Nat.mul_zero]
      rfl

section Sample
open Replicator

/-- The first update proposes a placement, the next two propose nothing. -/
theorem updates_rest_sample : ∃ r' p r'' q, sampleStart.step sampleConfig (.updatePlacement sampleView) = some r' ∧
    r'.placement = some p ∧
    Machine.run (Replicator.step sampleConfig) r' (List.replicate 2 (.updatePlacement sampleView)) = some r'' ∧
    r''.placement = some q ∧ q.vnodes = p.vnodes ∧ r''.proposals = r'.proposals ∧ r'.proposals.length = 1 := by
  obtain ⟨r',p,hstep,hp,hrest⟩ := updates_rest sampleConfig sampleStart_table (fun p hp => by cases hp)
    (fun p hp => by cases hp) (show sampleView.ready sampleConfig = some sampleMembers from rfl) sampleStart_active
  obtain ⟨x,-,hone,hx⟩ := sampleStart_proposes
  cases hstep.symm.trans (step_proposal sampleConfig hx)
  obtain rfl : x.next = p := Option.some.inj hp
  obtain ⟨r'',q,qs,hrun,hq,hv,-,hprop,hrep⟩ := hrest 2 (by rw [hone]; decide)
  have hthreshold : 0 < replicaThreshold sampleConfig.replicationFactor := by decide +kernel
  have hnone : qs = [] := by simpa [hthreshold] using hrep.epochs
  exact ⟨_,_,r'',q,hstep,hp,hrun,hq,hv,by rw [hprop, hnone, List.append_nil],rfl⟩

end Sample
end Update
end Nawst.Cluster
