import Nawst.Cluster.Migration
import Nawst.Cluster.Update

/-! The migration plan seen from the vnodes: what becomes of a vnode whose holders
change, and what the change of roles with a degraded primary leads to. -/
namespace Nawst.Cluster
open Lib Lib.FiniteMap

namespace Placement

/-- All vnodes are there, each at the index of its id and held by different nodes. -/
structure Proper (p : Placement) : Prop where
  ring : p.IsRing
  distinct : ∀ x ∈ p.vnodes, x.holders.Nodup

theorem WellFormed.proper {rf : Int} {p : Placement} (h : p.WellFormed rf) : p.Proper :=
  ⟨h.ring,fun x hx => (h.vnodes x hx).distinct⟩

/-- The node is the primary of the vnode or one of its replicas. -/
def Responsible (p : Placement) (node : NodeID) (v : UInt16) : Prop := ∃ x ∈ p.vnodes[v.toNat]?, node ∈ x.holders

instance (p : Placement) (node : NodeID) (v : UInt16) : Decidable (p.Responsible node v) :=
  inferInstanceAs (Decidable (∃ x ∈ p.vnodes[v.toNat]?, node ∈ x.holders))

theorem responsible_iff {p : Placement} {node : NodeID} {v : UInt16} {x : VNode} (hx : p.vnodes[v.toNat]? = some x) :
    p.Responsible node v ↔ x.primary = node ∨ node ∈ x.replicas := by
  simp [Responsible, hx, VNode.holders, eq_comm]

end Placement

namespace Migration

/-- What the change of a vnode means to a node. -/
def change (self : NodeID) (old new : VNode) : Change :=
  if old.primary = self ∧ new.primary ≠ self then .lost
  else if old.primary ≠ self ∧ new.primary = self then .gained
  else if old.primary = new.primary ∧ old.primary = self then
    if old.replicas ≠ new.replicas then .changedReplicas else .unaffected
  else if self ∉ old.replicas ∧ self ∈ new.replicas then .addedReplica else .unaffected

section Change
variable {self : NodeID} {old new : VNode}

theorem change_lost : change self old new = .lost ↔ old.primary = self ∧ new.primary ≠ self := by
  unfold change
  grind

theorem change_gained : change self old new = .gained ↔ old.primary ≠ self ∧ new.primary = self := by
  unfold change
  grind

theorem change_added : change self old new = .addedReplica ↔
    old.primary ≠ self ∧ new.primary ≠ self ∧ self ∉ old.replicas ∧ self ∈ new.replicas := by
  unfold change
  grind

end Change

/-- Nodes to transfer a vnode from: other nodes, each named once. -/
structure Sources (node : NodeID) (candidates : List NodeID) : Prop where
  distinct : candidates.Nodup
  named : "" ∉ candidates
  foreign : node ∉ candidates

theorem sources_owner (self owner : NodeID) : Sources self (if owner ≠ "" ∧ owner ≠ self then [owner] else []) := by
  split
  · rename_i h
    exact ⟨List.nodup_singleton _,by simpa using h.1.symm,by simpa using h.2.symm⟩
  · exact ⟨List.nodup_nil,List.not_mem_nil,List.not_mem_nil⟩

theorem Sources.addCandidates {self : NodeID} {candidates : List NodeID} (h : Sources self candidates) (names : List NodeID) :
    Sources self (addCandidates self candidates names) := by
  refine List.foldlRecOn (motive := Sources self) names _ h (fun cs hcs n _ => ?_)
  split
  · rename_i hn
    obtain ⟨hempty,hself,hnew⟩ := hn
    refine ⟨hcs.distinct.append (List.nodup_singleton n) (by simpa using hnew),?_,?_⟩
    · simpa [hcs.named] using hempty.symm
    · simpa [hcs.foreign] using hself.symm
  · exact hcs

section Plan
variable {self : NodeID} {old new : Placement}

/-- The sources for a vnode, as the goroutine computes them. -/
theorem gainedCandidates_sources {v : UInt16} {x y : VNode} (hx : old.vnodes[v.toNat]? = some x)
    (hy : new.vnodes[v.toNat]? = some y) : ∃ cs, gainedCandidates self old new v = some cs ∧ Sources self cs := by
  simp only [gainedCandidates, hx, hy]
  exact ⟨_,rfl,((sources_owner self (old.primaryOf v)).addCandidates x.replicas).addCandidates y.replicas⟩

theorem replicaCandidates_sources {v : UInt16} {y : VNode} (hy : new.vnodes[v.toNat]? = some y) :
    ∃ cs, replicaCandidates self new v = some cs ∧ Sources self cs := by
  simp only [replicaCandidates, hy]
  exact ⟨_,rfl,(sources_owner self (new.primaryOf v)).addCandidates y.replicas⟩

variable (ho : old.IsRing) (hn : new.IsRing)
include ho hn

theorem classify_eq {v : UInt16} {x y : VNode} (hx : old.vnodes[v.toNat]? = some x) (hy : new.vnodes[v.toNat]? = some y) :
    classify self old new v = some (change self x y) := by
  simp only [classify, ho.primaryOf hx, hn.primaryOf hy, hx, hy, change]
  split
  · rfl
  · split
    · rfl
    · split <;> simp_all

/-- Both placements have every vnode, so there is a plan, and its lists hold the vnodes
that change in this way. -/
theorem plan_spec (self : NodeID) {order : List UInt16} (horder : order.toFinset = new.primaries.keys) :
    ∃ p, plan self old new order = some p ∧ ∀ v x y, old.vnodes[v.toNat]? = some x → new.vnodes[v.toNat]? = some y →
      ∀ c, c ≠ .unaffected → (v ∈ p.list c ↔ change self x y = c) := by
  have hmem : ∀ v, v ∈ order ↔ v.toNat < vnodeCount := by
    intro v
    rw [← List.mem_toFinset, horder, hn.keys, List.mem_toFinset, mem_ringIDs]
  obtain ⟨p,hp⟩ : ∃ p, plan self old new order = some p := by
    refine plan_total (fun v hv => ?_)
    obtain ⟨x,hx,_⟩ := ring_vnode ho ((hmem v).mp hv)
    obtain ⟨y,hy,_⟩ := ring_vnode hn ((hmem v).mp hv)
    exact ⟨_,classify_eq ho hn hx hy⟩
  refine ⟨p,hp,fun v x y hx hy c hc => ?_⟩
  rw [plan_list hp hc, List.mem_filter, hmem, classify_eq ho hn hx hy]
  simp [(hn.id_eq hy).1]

end Plan

section Order
variable (self : NodeID) {old new : Placement} (ho : old.Proper) (hn : new.Proper) {order : List UInt16}
  (horder : order.Nodup ∧ order.toFinset = new.primaries.keys)
include ho hn horder

/-- A node drops only vnodes that it is not responsible for any more, unless it turns from
primary to replica of some vnode. -/
theorem plan_keeps_held_iff : ∃ p, plan self old new order = some p ∧
    ((∀ v ∈ p.lost, ¬ new.Responsible self v) ↔
      ∀ (v : UInt16) (x y : VNode), old.vnodes[v.toNat]? = some x → new.vnodes[v.toNat]? = some y →
        x.primary = self → self ∉ y.replicas) := by
  obtain ⟨p,hp,hlist⟩ := plan_spec ho.ring hn.ring self horder.2
  refine ⟨p,hp,?_,?_⟩
  · intro hkeep v x y hx hy hprim hrep
    -- a replica is not the primary, so the vnode is on the list
    have hdist := hn.distinct y (List.mem_of_getElem? hy)
    have hne : y.primary ≠ self := fun h => (List.nodup_cons.mp hdist).1 (h ▸ hrep)
    have hlost : v ∈ p.lost := (hlist v x y hx hy .lost (by decide)).mpr (change_lost.mpr ⟨hprim,hne⟩)
    exact hkeep v hlost ((Placement.responsible_iff hy).mpr (.inr hrep))
  · intro hcond v hv hresp
    have ⟨y,hy,_⟩ := hresp
    obtain ⟨x,hx,_⟩ := ring_vnode ho.ring (hn.ring.id_eq hy).1
    obtain ⟨hprim,hne⟩ := change_lost.mp ((hlist v x y hx hy .lost (by decide)).mp hv)
    exact ((Placement.responsible_iff hy).mp hresp).elim hne (hcond v x y hx hy hprim)

/-- The plan is complete: a vnode that the node becomes responsible for is either gained or
added, with sources to transfer it from, and of the vnodes it stops being responsible for
exactly those are lost of which it was the primary. -/
theorem plan_complete : ∃ p, plan self old new order = some p ∧ ∀ v : UInt16,
    (¬ old.Responsible self v → new.Responsible self v →
      (v ∈ p.gained ∧ v ∉ p.addedReplicas ∧ ∃ cs, gainedCandidates self old new v = some cs ∧ Sources self cs) ∨
      (v ∈ p.addedReplicas ∧ v ∉ p.gained ∧ ∃ cs, replicaCandidates self new v = some cs ∧ Sources self cs)) ∧
    (old.Responsible self v → ¬ new.Responsible self v → (v ∈ p.lost ↔ old.primaryOf v = self)) := by
  obtain ⟨p,hp,hlist⟩ := plan_spec ho.ring hn.ring self horder.2
  refine ⟨p,hp,fun v => ⟨fun hbefore hafter => ?_,fun hbefore hafter => ?_⟩⟩
  · have ⟨y,hy,_⟩ := hafter
    obtain ⟨x,hx,_⟩ := ring_vnode ho.ring (hn.ring.id_eq hy).1
    have hgained : v ∈ p.gained ↔ _ := (hlist v x y hx hy .gained (by decide)).trans change_gained
    have hadded : v ∈ p.addedReplicas ↔ _ := (hlist v x y hx hy .addedReplica (by decide)).trans change_added
    rw [Placement.responsible_iff hx, not_or] at hbefore
    rw [Placement.responsible_iff hy] at hafter
    rw [hgained, hadded]
    by_cases hprim : y.primary = self
    · exact .inl ⟨⟨hbefore.1,hprim⟩,fun h => h.2.1 hprim,gainedCandidates_sources hx hy⟩
    · have hrep := hafter.resolve_left hprim
      exact .inr ⟨⟨hbefore.1,hprim,hbefore.2,hrep⟩,fun h => hprim h.2,replicaCandidates_sources hy⟩
  · obtain ⟨x,hx,_⟩ := hbefore
    obtain ⟨y,hy,_⟩ := ring_vnode hn.ring (ho.ring.id_eq hx).1
    rw [Placement.responsible_iff hy, not_or] at hafter
    have hlost : v ∈ p.lost ↔ _ := (hlist v x y hx hy .lost (by decide)).trans change_lost
    rw [hlost, ho.ring.primaryOf hx]
    exact and_iff_left hafter.1

end Order

theorem heldBy_proper (epoch : UInt64) {primary : NodeID} {replicas : List NodeID} (h : (primary::replicas).Nodup) :
    (heldBy epoch primary replicas).Proper := by
  refine ⟨heldBy_ring epoch,fun x hx => ?_⟩
  obtain ⟨_,rfl⟩ := mem_heldBy epoch hx
  exact h

theorem plan_keeps_held_iff_sample : ∃ p, plan "a" (heldBy 1 "a" ["b"]) (heldBy 2 "b" []) ringIDs = some p ∧
    ∀ v ∈ p.lost, ¬ (heldBy 2 "b" []).Responsible "a" v := by
  have ho : (heldBy 1 "a" ["b"]).Proper := heldBy_proper 1 (by decide)
  have hn : (heldBy 2 "b" []).Proper := heldBy_proper 2 (by decide)
  obtain ⟨p,hp,hiff⟩ := plan_keeps_held_iff "a" ho hn ⟨ringIDs_nodup,hn.ring.keys.symm⟩
  refine ⟨p,hp,hiff.mpr (fun v x y _ hy _ => ?_)⟩
  rw [heldBy_getElem? 2 (hn.ring.id_eq hy).1] at hy
  cases hy
  exact List.not_mem_nil

/-- One node has been busy for six rounds of metrics, the other is idle. -/
def busyMetrics : List NodeMetrics := [⟨"a",1,1,1,1,1,95/100,0,0,0⟩,⟨"b",1,1,1,1,1,0,0,0,0⟩]

def busyWatch : Update.Watch := Update.watch (Finmap.singleton "a" 5) busyMetrics

private theorem busy_swapped (v : UInt16) :
    Update.swapped busyWatch (calculateScores busyMetrics) ⟨v,0,"a",["b"]⟩ = some ⟨v,0,"b",["a"]⟩ := by
  have hsustained : "a" ∈ busyWatch.sustained := by decide +kernel
  have hidle : "b" ∉ busyWatch.degradedNow := by decide +kernel
  have hscores : ∃ a b, (Update.scoreByID (calculateScores busyMetrics)).lookup "a" = some a ∧
      (Update.scoreByID (calculateScores busyMetrics)).lookup "b" = some b ∧ b < a*(90/100) :=
    ⟨_,_,rfl,rfl,by decide +kernel⟩
  obtain ⟨a,b,ha,hb,hlt⟩ := hscores
  simp [Update.swapped, swapRoles, bestReplica, Best.better, hsustained, hidle, ha, hb, hlt]

/-- The busy node and its replica change roles, and the node drops what it is now to
hold as a replica. -/
theorem demoted_primary_dropped : ∃ next p,
    Update.proposeShort busyWatch (calculateScores busyMetrics) ⟨heldBy 1 "a" ["b"],[]⟩ = some next ∧
    (heldBy 1 "a" ["b"]).Proper ∧ next.toPlacement.Proper ∧
    plan "a" (heldBy 1 "a" ["b"]) next.toPlacement ringIDs = some p ∧ 0 ∈ p.lost ∧ next.toPlacement.Responsible "a" 0 := by
  have ho : (heldBy 1 "a" ["b"]).Proper := heldBy_proper 1 (by decide)
  have hn : (heldBy 2 "b" ["a"]).Proper := heldBy_proper 2 (by decide)
  have hzero : (0 : UInt16).toNat < vnodeCount := by decide
  obtain ⟨p,hp,hlist⟩ := plan_spec ho.ring hn.ring "a" hn.ring.keys.symm
  refine ⟨_,p,Update.proposeShort_heldBy busy_swapped,ho,hn,hp,?_,?_⟩
  · exact (hlist 0 _ _ (heldBy_getElem? 1 hzero) (heldBy_getElem? 2 hzero) .lost (by decide)).mpr (by decide)
  · exact (Placement.responsible_iff (heldBy_getElem? 2 hzero)).mpr (.inr (by decide))

theorem plan_complete_sample : ∃ p, plan "b" (heldBy 1 "a" []) (heldBy 2 "a" ["b"]) ringIDs = some p ∧
    (0 ∈ p.gained ∨ 0 ∈ p.addedReplicas) := by
  have ho : (heldBy 1 "a" []).Proper := heldBy_proper 1 (by decide)
  have hn : (heldBy 2 "a" ["b"]).Proper := heldBy_proper 2 (by decide)
  have hzero : (0 : UInt16).toNat < vnodeCount := by decide
  have hbefore : ¬ (heldBy 1 "a" []).Responsible "b" 0 := by
    rw [Placement.responsible_iff (heldBy_getElem? 1 hzero)]
    decide
  have hafter : (heldBy 2 "a" ["b"]).Responsible "b" 0 := by
    rw [Placement.responsible_iff (heldBy_getElem? 2 hzero)]
    decide
  obtain ⟨p,hp,hcomplete⟩ := plan_complete "b" ho hn ⟨ringIDs_nodup,hn.ring.keys.symm⟩
  exact ⟨p,hp,((hcomplete 0).1 hbefore hafter).imp (fun h => h.1) (fun h => h.1)⟩

/-- A node that is no replica any more keeps the vnode, which no list has. -/
theorem dropped_replica_not_lost : (heldBy 1 "b" ["a"]).Proper ∧ (heldBy 2 "b" []).Proper ∧
    (heldBy 1 "b" ["a"]).Responsible "a" 0 ∧ ¬ (heldBy 2 "b" []).Responsible "a" 0 ∧
    ∃ p, plan "a" (heldBy 1 "b" ["a"]) (heldBy 2 "b" []) ringIDs = some p ∧ 0 ∉ p.lost := by
  have ho : (heldBy 1 "b" ["a"]).Proper := heldBy_proper 1 (by decide)
  have hn : (heldBy 2 "b" []).Proper := heldBy_proper 2 (by decide)
  have hzero : (0 : UInt16).toNat < vnodeCount := by decide
  obtain ⟨p,hp,hlist⟩ := plan_spec ho.ring hn.ring "a" hn.ring.keys.symm
  refine ⟨ho,hn,?_,?_,p,hp,fun hlost => ?_⟩
  · exact (Placement.responsible_iff (heldBy_getElem? 1 hzero)).mpr (.inr (by decide))
  · rw [Placement.responsible_iff (heldBy_getElem? 2 hzero)]
    decide
  · have hchange := (hlist 0 _ _ (heldBy_getElem? 1 hzero) (heldBy_getElem? 2 hzero) .lost (by decide)).mp hlost
    exact absurd hchange (by decide)

end Migration
end Nawst.Cluster
