import Nawst.Lib.Descent
import Nawst.Cluster.Update

/-! Short-term updates in detail: which replica takes over from a primary that has been
degraded for long, and when it is the best one. -/
namespace Nawst.Cluster
open Lib Lib.FiniteMap Lib.Descent Nawst.Core

section Scan
variable (scoreByID : FMap NodeID Rat) (degradedNow : NodeID → Bool)

/-- The score of a node that is not degraded. -/
def eligible (n : NodeID) : Option Rat := if degradedNow n then none else scoreByID.lookup n

/-- The scores among which a new primary is looked for, in the order of the replicas. -/
def eligibleScores (v : VNode) : List Rat := v.replicas.filterMap (eligible scoreByID degradedNow)

variable {scoreByID degradedNow}

theorem better_none {best : Best} {p : NodeID × Nat} (h : eligible scoreByID degradedNow p.1 = none) :
    best.better scoreByID degradedNow p = best := by
  unfold eligible at h
  unfold Best.better
  split
  · rfl
  · simp_all

theorem better_some {best : Best} {p : NodeID × Nat} {s : Rat} (h : eligible scoreByID degradedNow p.1 = some s) :
    best.better scoreByID degradedNow p = if s < best.score*(90/100) then ⟨p.1,s,some p.2⟩ else best := by
  unfold eligible at h
  unfold Best.better
  split
  · simp_all
  · simp_all

/-- The score that is left is that of a descent through the eligible scores. -/
theorem foldl_better_score (ps : List (NodeID × Nat)) (best : Best) :
    (ps.foldl (Best.better scoreByID degradedNow) best).score =
      descend (90/100) best.score ((ps.map Prod.fst).filterMap (eligible scoreByID degradedNow)) := by
  induction ps generalizing best with
  | nil => rfl
  | cons p ps ih =>
    rw [List.foldl_cons, ih, List.map_cons]
    cases h : eligible scoreByID degradedNow p.1 with
    | none => rw [better_none h, List.filterMap_cons_none h]
    | some s =>
      rw [better_some h, List.filterMap_cons_some h, descend, descend, List.foldl_cons]
      split <;> rfl

theorem bestReplica_score (v : VNode) (score : Rat) :
    (bestReplica scoreByID degradedNow v score).score = descend (90/100) score (eligibleScores scoreByID degradedNow v) := by
  rw [bestReplica, foldl_better_score, List.zipIdx_map_fst, eligibleScores]

variable (scoreByID degradedNow)

/-- The primary is left, or an eligible replica that is better than it by a tenth. -/
theorem bestReplica_cases (v : VNode) {score : Rat} (hscore : 0 ≤ score) :
    bestReplica scoreByID degradedNow v score = ⟨v.primary,score,none⟩ ∨
    ∃ idx, (bestReplica scoreByID degradedNow v score).idx = some idx ∧
      v.replicas[idx]? = some (bestReplica scoreByID degradedNow v score).id ∧
      eligible scoreByID degradedNow (bestReplica scoreByID degradedNow v score).id =
        some (bestReplica scoreByID degradedNow v score).score ∧
      (bestReplica scoreByID degradedNow v score).score < score*(90/100) := by
  refine List.foldlRecOn (motive := fun best : Best => best = ⟨v.primary,score,none⟩ ∨
    ∃ idx, best.idx = some idx ∧ v.replicas[idx]? = some best.id ∧
      eligible scoreByID degradedNow best.id = some best.score ∧ best.score < score*(90/100)) _ _ (.inl rfl)
    (fun best hbest p hp => ?_)
  cases h : eligible scoreByID degradedNow p.1 with
  | none =>
    rw [better_none h]
    exact hbest
  | some s =>
    rw [better_some h]
    split
    · rename_i hlt
      refine .inr ⟨p.2,rfl,List.mem_zipIdx_iff_getElem?.mp hp,h,?_⟩
      rcases hbest with rfl | ⟨_,_,_,_,hless⟩
      · exact hlt
      · change s < score*(90/100)
        linarith
    · exact hbest

end Scan

section Swap
variable {scoreByID : FMap NodeID Rat} {degradedNow sustainedDegraded : NodeID → Bool} {v v' : VNode}

theorem margin_le : (90/100 : Rat) ≤ 1 := by norm_num

theorem mem_eligibleScores {s : Rat} : s ∈ eligibleScores scoreByID degradedNow v ↔
    ∃ r ∈ v.replicas, eligible scoreByID degradedNow r = some s := List.mem_filterMap

variable (hpos : ∀ n s, scoreByID.lookup n = some s → 0 < s)
include hpos

theorem eligibleScores_pos (degradedNow : NodeID → Bool) (v : VNode) : ∀ s ∈ eligibleScores scoreByID degradedNow v, 0 < s := by
  intro s hs
  obtain ⟨r,_,hr⟩ := mem_eligibleScores.mp hs
  unfold eligible at hr
  split at hr
  · cases hr
  · exact hpos r s hr

/-- The new primary is the replica whose score the descent has left. -/
theorem swapRoles_some (h : swapRoles scoreByID degradedNow sustainedDegraded v = some v') :
    sustainedDegraded v.primary ∧ ∃ idx p s, scoreByID.lookup v.primary = some p ∧ v.replicas[idx]? = some v'.primary ∧
      v'.replicas = v.replicas.set idx v.primary ∧ eligible scoreByID degradedNow v'.primary = some s ∧
      s < p*(90/100) ∧ s = descend (90/100) p (eligibleScores scoreByID degradedNow v) := by
  obtain ⟨hsustained,p,idx,hp,hidx,rfl⟩ := swapRoles_eq_some h
  rcases bestReplica_cases scoreByID degradedNow v (hpos _ _ hp).le with hbest | ⟨_,_,_,hscore,hless⟩
  · rw [hbest] at hidx
    cases hidx
  · exact ⟨hsustained,idx,p,_,hp,bestReplica_idx hidx,rfl,hscore,hless,bestReplica_score v p⟩

/-- Roles are exchanged exactly if an eligible replica is better by a tenth. -/
theorem swapRoles_isSome_iff {rf : Int} (hv : v.WellFormed rf) :
    (swapRoles scoreByID degradedNow sustainedDegraded v).isSome ↔
      sustainedDegraded v.primary ∧ ∃ p ∈ scoreByID.lookup v.primary,
        ∃ s ∈ eligibleScores scoreByID degradedNow v, s < p*(90/100) := by
  constructor
  · intro h
    obtain ⟨v',hv'⟩ := Option.isSome_iff_exists.mp h
    obtain ⟨hsustained,idx,p,s,hp,hget,_,hscore,hless,_⟩ := swapRoles_some hpos hv'
    exact ⟨hsustained,p,hp,s,mem_eligibleScores.mpr ⟨_,List.mem_of_getElem? hget,hscore⟩,hless⟩
  · rintro ⟨hsustained,p,hp,s,hs,hless⟩
    have hnamed : v.primary ≠ "" := fun h => hv.named (h ▸ List.mem_cons_self)
    have hreplicas : v.replicas.length ≠ 0 := by
      obtain ⟨r,hr,_⟩ := mem_eligibleScores.mp hs
      exact (List.length_pos_of_mem hr).ne'
    rcases bestReplica_cases scoreByID degradedNow v (hpos _ _ hp).le with hbest | ⟨idx,hidx,hget,_,_⟩
    · -- the descent would have ended at the primary, and left the better replica behind
      have hend : descend (90/100) p (eligibleScores scoreByID degradedNow v) = p := by rw [← bestReplica_score, hbest]
      rcases descend_cases margin_le (hpos _ _ hp) (eligibleScores_pos hpos degradedNow v) with ⟨_,hall⟩ | ⟨_,hlt⟩
      · exact absurd hless (not_lt.mpr (hall s hs))
      · have hp := hpos _ _ hp
        linarith
    · have hother : (bestReplica scoreByID degradedNow v p).id ≠ v.primary := fun h =>
        (List.nodup_cons.mp hv.distinct).1 (h ▸ List.mem_of_getElem? hget)
      simp [swapRoles, hnamed, hreplicas, hsustained, Option.mem_def.mp hp, hidx, hother]

end Swap

namespace Update

/-- Of the first vnode the second one is made, by promoting the best eligible replica if by
anything. -/
structure PromotesBest (w : Watch) (scores : List NodeInfo) (v v' : VNode) : Prop where
  holders : v'.holders.Perm v.holders
  sustained : v'.primary ≠ v.primary → v.primary ∈ w.sustained
  promoted : v'.primary ≠ v.primary → ∃ (idx : Nat) (p s : Rat), v.replicas[idx]? = some v'.primary ∧
    v'.replicas = v.replicas.set idx v.primary ∧ v'.primary ∉ w.degradedNow ∧
    (scoreByID scores).lookup v.primary = some p ∧ (scoreByID scores).lookup v'.primary = some s ∧ s < p*(90/100) ∧
    ∀ r ∈ v.replicas, r ∉ w.degradedNow → ∀ t, (scoreByID scores).lookup r = some t → s ≤ t

section Table
variable (w : Watch) (scores : List NodeInfo)

/-- The scores of a vnode's replicas, without those that are degraded. -/
def replicaScores (v : VNode) : List Rat := eligibleScores (scoreByID scores) (· ∈ w.degradedNow) v

/-- Among the replicas there is one to replace the primary. -/
def Swappable (v : VNode) : Prop :=
  v.primary ∈ w.sustained ∧ ∃ p ∈ (scoreByID scores).lookup v.primary, ∃ s ∈ replicaScores w scores v, s < p*(90/100)

instance (v : VNode) : Decidable (Swappable w scores v) := inferInstanceAs (Decidable (_ ∧ _))

/-- From a primary that has long been degraded the scores go down by a tenth at a time until
they go down no further. -/
def Stepwise (v : VNode) : Prop :=
  v.primary ∈ w.sustained → ∀ p ∈ (scoreByID scores).lookup v.primary, Steep (90/100) p (replicaScores w scores v)

/-- The vnodes as a short-term update leaves them. -/
def nextVNodes (vnodes : List VNode) : List VNode := vnodes.map (fun v => (swapped w scores v).getD v)

variable {w scores}

theorem mem_replicaScores {v : VNode} {s : Rat} : s ∈ replicaScores w scores v ↔
    ∃ r ∈ v.replicas, r ∉ w.degradedNow ∧ (scoreByID scores).lookup r = some s := by
  simp [replicaScores, mem_eligibleScores, eligible]

theorem scoreByID_pos (hscores : ∀ n ∈ scores, 0 < n.score) (n : NodeID) (s : Rat)
    (h : (scoreByID scores).lookup n = some s) : 0 < s := by
  rcases exists_of_lookup_foldl_insert NodeInfo.id NodeInfo.score h with hempty | ⟨x,hx,rfl⟩
  · cases hempty
  · exact hscores x hx

variable (hscores : ∀ n ∈ scores, 0 < n.score) {rf : Int} {v : VNode} (hv : v.WellFormed rf)
include hscores hv

theorem swapped_isSome_iff : (swapped w scores v).isSome ↔ Swappable w scores v :=
  (swapRoles_isSome_iff (scoreByID_pos hscores) hv).trans (by simp [Swappable, replicaScores])

/-- The vnode that is made with a new primary has the one that the descent has left. -/
theorem swapped_some {v' : VNode} (h : swapped w scores v = some v') :
    v.primary ∈ w.sustained ∧ v'.primary ≠ v.primary ∧ ∃ idx p s, v.replicas[idx]? = some v'.primary ∧
      v'.replicas = v.replicas.set idx v.primary ∧ v'.primary ∉ w.degradedNow ∧
      (scoreByID scores).lookup v.primary = some p ∧ (scoreByID scores).lookup v'.primary = some s ∧ s < p*(90/100) ∧
      s = descend (90/100) p (replicaScores w scores v) := by
  obtain ⟨hsustained,idx,p,s,hp,hget,hset,hs,hless,hdescend⟩ := swapRoles_some (scoreByID_pos hscores) h
  have hother : v'.primary ≠ v.primary := fun h => (List.nodup_cons.mp hv.distinct).1 (h ▸ List.mem_of_getElem? hget)
  have helig : v'.primary ∉ w.degradedNow ∧ (scoreByID scores).lookup v'.primary = some s := by simpa [eligible] using hs
  exact ⟨of_decide_eq_true hsustained,hother,idx,p,s,hget,hset,helig.1,hp,helig.2,hless,hdescend⟩

/-- A vnode that keeps its primary stays as it is; a new primary is the best eligible replica
exactly if the scores go down stepwise. -/
theorem promotesBest_iff : PromotesBest w scores v ((swapped w scores v).getD v) ↔ Stepwise w scores v := by
  cases h : swapped w scores v with
  | none =>
    refine ⟨fun _ hsustained p hp => steep_of_le (fun s hs => not_lt.mp (fun hless => ?_)),
      fun _ => ⟨.refl _,fun hne => absurd rfl hne,fun hne => absurd rfl hne⟩⟩
    have hsome := (swapped_isSome_iff hscores hv).mpr ⟨hsustained,p,hp,s,hs,hless⟩
    rw [h] at hsome
    cases hsome
  | some v' =>
    obtain ⟨hsustained,hother,idx,p,s,hget,hset,hdegraded,hp,hs,hless,hdescend⟩ := swapped_some hscores hv h
    have hmem : s ∈ replicaScores w scores v := mem_replicaScores.mpr ⟨_,List.mem_of_getElem? hget,hdegraded,hs⟩
    have hleast := descend_least_iff margin_le (scoreByID_pos hscores _ _ hp)
      (eligibleScores_pos (scoreByID_pos hscores) (· ∈ w.degradedNow) v) ⟨s,hmem,hless⟩
    rw [Option.getD_some]
    constructor
    · intro hbest _ q hq
      cases hp.symm.trans hq
      refine hleast.mp (fun x hx => ?_)
      obtain ⟨_,_,s',_,_,_,_,hs',_,hall⟩ := hbest.promoted hother
      cases hs.symm.trans hs'
      obtain ⟨r,hr,hrd,hrs⟩ := mem_replicaScores.mp hx
      exact hdescend ▸ hall r hr hrd x hrs
    · intro hsteps
      refine ⟨(swapRoles_holders h).2,fun _ => hsustained,
        fun _ => ⟨idx,p,s,hget,hset,hdegraded,hp,hs,hless,fun r hr hrd x hrs => ?_⟩⟩
      exact hdescend ▸ hleast.mpr (hsteps hsustained p hp) x (mem_replicaScores.mpr ⟨r,hr,hrd,hrs⟩)

end Table

/-- A placement is proposed when there are vnodes enough to swap. -/
theorem proposeShort_some_iff {w : Watch} {scores : List NodeInfo} (hscores : ∀ n ∈ scores, 0 < n.score) {rf : Int}
    {prev next : ScoredPlacement} (hprev : prev.toPlacement.WellFormed rf) :
    proposeShort w scores prev = some next ↔ shortThreshold ≤ prev.vnodes.countP (Swappable w scores) ∧
      next = ⟨⟨prev.epoch+1,nextVNodes w scores prev.vnodes⟩,scores⟩ := by
  have hcount : prev.vnodes.countP (fun v => (swapped w scores v).isSome) = prev.vnodes.countP (Swappable w scores) :=
    List.countP_congr (fun v hv => by simpa using swapped_isSome_iff hscores (hprev.vnodes v hv))
  have hthreshold : 0 < shortThreshold := by decide
  simp only [proposeShort, hcount]
  split
  · simp; omega
  split
  · simp; omega
  · rename_i hlt
    simp only [Option.some.injEq, eq_comm, not_lt.mp hlt, true_and]
    rfl

/-- The update promotes best replicas, at the next epoch, exactly if the scores of every vnode
go down stepwise and the epoch is not the last one. -/
theorem short_term_promotes_best_iff (w : Watch) {scores : List NodeInfo} (hscores : ∀ n ∈ scores, 0 < n.score) {rf : Int}
    (prev : ScoredPlacement) (hprev : prev.toPlacement.WellFormed rf) :
    (List.Forall₂ (PromotesBest w scores) prev.vnodes (nextVNodes w scores prev.vnodes) ∧
      ∀ next, proposeShort w scores prev = some next →
        next.vnodes = nextVNodes w scores prev.vnodes ∧ next.epoch.toNat = prev.epoch.toNat+1) ↔
    (∀ v ∈ prev.vnodes, Stepwise w scores v) ∧
      (prev.epoch.toNat+1 = 2^64 → prev.vnodes.countP (Swappable w scores) < shortThreshold) := by
  refine and_congr ?_ ?_
  · rw [nextVNodes, List.forall₂_map_right_iff, List.forall₂_same]
    exact forall₂_congr (fun v hv => promotesBest_iff hscores (hprev.vnodes v hv))
  · have hepoch : (prev.epoch+1).toNat = prev.epoch.toNat+1 ↔ prev.epoch.toNat+1 ≠ 2^64 := by
      have hlt := prev.epoch.toNat_lt
      rw [UInt64.toNat_add, UInt64.toNat_one]
      omega
    constructor
    · intro h hlast
      by_contra hfew
      have hnext := (proposeShort_some_iff hscores hprev).mpr ⟨not_lt.mp hfew,rfl⟩
      exact hepoch.mp (h _ hnext).2 hlast
    · intro h next hnext
      obtain ⟨hmany,rfl⟩ := (proposeShort_some_iff hscores hprev).mp hnext
      exact ⟨rfl,hepoch.mpr (fun hlast => absurd (h hlast) (not_lt.mpr hmany))⟩

section Samples

/-- A primary that has long been degraded, with two replicas. -/
def sampleWatch : Watch := ⟨∅,{"p"},{"p"}⟩

/-- The scores of the primary and of its replicas, in their order. -/
def sampleScores (a b : Rat) : List NodeInfo := [⟨"p",1⟩,⟨"a",a⟩,⟨"b",b⟩]

variable {a b : Rat}

private theorem sample_lookup : (scoreByID (sampleScores a b)).lookup "p" = some 1 ∧
    (scoreByID (sampleScores a b)).lookup "a" = some a ∧ (scoreByID (sampleScores a b)).lookup "b" = some b := by
  simp [scoreByID, sampleScores]

private theorem sample_replicaScores (i : UInt16) :
    replicaScores sampleWatch (sampleScores a b) ⟨i,0,"p",["a","b"]⟩ = [a,b] := by
  obtain ⟨_,ha,hb⟩ := sample_lookup (a := a) (b := b)
  simp [replicaScores, eligibleScores, eligible, sampleWatch, ha, hb]

theorem sample_wellFormed (epoch : UInt64) : (heldBy epoch "p" ["a","b"]).WellFormed 3 := by
  refine ⟨heldBy_ring epoch,fun v hv => ?_⟩
  obtain ⟨_,rfl⟩ := mem_heldBy epoch hv
  exact ⟨by simp [VNode.holders],by simp [VNode.holders],by simp⟩

/-- The second replica is better than the first by a tenth, and promoted. -/
theorem short_term_promotes_best_iff_sample :
    List.Forall₂ (PromotesBest sampleWatch (sampleScores (85/100) (70/100))) (heldBy 1 "p" ["a","b"]).vnodes
      (nextVNodes sampleWatch (sampleScores (85/100) (70/100)) (heldBy 1 "p" ["a","b"]).vnodes) := by
  have hscores : ∀ n ∈ sampleScores (85/100) (70/100), 0 < n.score := by simp [sampleScores]
  refine ((short_term_promotes_best_iff sampleWatch hscores ⟨heldBy 1 "p" ["a","b"],[]⟩ (sample_wellFormed 1)).mpr
    ⟨fun v hv _ p hp => ?_,fun hlast => absurd hlast (by decide)⟩).1
  obtain ⟨i,rfl⟩ := mem_heldBy 1 hv
  cases sample_lookup.1.symm.trans hp
  rw [sample_replicaScores]
  norm_num [Steep]

/-- The first replica is promoted, although the second has the lower score. -/
theorem lower_replica_passed_over :
    let scores := sampleScores (85/100) (80/100)
    let prev : ScoredPlacement := ⟨heldBy 1 "p" ["a","b"],scores⟩
    (∀ n ∈ scores, 0 < n.score) ∧ prev.toPlacement.WellFormed 3 ∧
      proposeShort sampleWatch scores prev = some ⟨heldBy 2 "a" ["p","b"],scores⟩ ∧
      ¬ List.Forall₂ (PromotesBest sampleWatch scores) prev.vnodes (heldBy 2 "a" ["p","b"]).vnodes := by
  intro scores prev
  obtain ⟨hp,ha,hb⟩ := sample_lookup (a := 85/100) (b := 80/100)
  have hswapped (i : UInt16) : swapped sampleWatch scores ⟨i,0,"p",["a","b"]⟩ = some ⟨i,0,"a",["p","b"]⟩ := by
    have hfirst : (85/100 : Rat) < 90/100 := by norm_num
    have hsecond : ¬ (80/100 : Rat) < 85/100*(90/100) := by norm_num
    simp [swapped, swapRoles, bestReplica, Best.better, sampleWatch, scores, hp, ha, hb, hfirst, hsecond]
  refine ⟨by simp [scores, sampleScores],sample_wellFormed 1,proposeShort_heldBy hswapped,fun h => ?_⟩
  simp only [prev, heldBy, List.forall₂_map_left_iff, List.forall₂_map_right_iff, List.forall₂_same] at h
  have hzero : (0 : UInt16).toNat < vnodeCount := by decide
  obtain ⟨_,_,_,_,_,_,_,hs,_,hall⟩ := (h _ (List.mem_of_getElem? (ringIDs_getElem? hzero))).promoted (by simp)
  cases ha.symm.trans hs
  have hle := hall "b" (by simp) (by simp [sampleWatch]) _ hb
  norm_num at hle

end Samples
end Update
end Nawst.Cluster
