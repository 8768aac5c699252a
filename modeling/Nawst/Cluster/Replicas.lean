import Mathlib.Data.List.Perm.Basic
import Nawst.Cluster.Assign

/-! The nodes that hold a vnode besides its primary: choosing replicas by suitability, and
letting a replica change roles with a degraded primary. -/
namespace Nawst.Cluster
open Lib.FiniteMap Nawst.Core

/-- The nodes that hold a vnode. -/
def VNode.holders (v : VNode) : List NodeID := v.primary::v.replicas

/-- The vnode has a primary, and at most one copy on each node and RF copies in all. -/
structure VNode.WellFormed (rf : Int) (v : VNode) : Prop where
  named : "" ∉ v.holders
  distinct : v.holders.Nodup
  count : (v.replicas.length : Int) ≤ max rf 1-1

/-- The vnode is held by as many of the nodes as RF asks for and there are. -/
structure VNode.Spread (rf : Int) (ids : List NodeID) (v : VNode) : Prop where
  among : ∀ n ∈ v.holders, n ∈ ids
  distinct : v.holders.Nodup
  count : (v.replicas.length : Int) = min (max rf 1-1) (ids.length-1)

theorem VNode.Spread.wellFormed {rf : Int} {ids : List NodeID} {v : VNode} (h : v.Spread rf ids) (hids : "" ∉ ids) :
    v.WellFormed rf :=
  ⟨fun hn => hids (h.among _ hn),h.distinct,h.count.trans_le (min_le_left _ _)⟩

structure Placement.WellFormed (rf : Int) (p : Placement) : Prop where
  ring : p.IsRing
  vnodes : ∀ v ∈ p.vnodes, v.WellFormed rf

abbrev RTTMatrix := FMap NodeID (FMap NodeID Rat)

structure Candidate where
  id : NodeID
  score : Rat

def Candidate.less (a b : Candidate) : Prop := if a.score = b.score then a.id < b.id else a.score < b.score

instance : DecidableRel Candidate.less := fun a b =>
  inferInstanceAs (Decidable (if a.score = b.score then a.id < b.id else a.score < b.score))

def statsMap (metrics : List NodeMetrics) : FMap NodeID NodeMetrics := metrics.foldl (fun m x => m.insert x.nodeID x) ∅

/-- The round trip from the primary to a node, long when it is not known. -/
def linkRTT (rttMatrix : RTTMatrix) (primary node : NodeID) : Rat :=
  match rttMatrix.lookup primary with
  | none => 1000
  | some row => match row.lookup node with
    | none => 1000
    | some val => if 0 < val then val else 1000

section Choose
variable (hash : String → UInt64) (nodes : List NodeInfo) (metrics : List NodeMetrics) (rttMatrix : RTTMatrix)

/-- How well a node suits as a replica of the vnode, lower being better. -/
def suitability (v : VNode) (node : NodeID) (m : NodeMetrics) : Rat :=
  let bwPenalty := 1/(101/100-m.netUsage)
  let capFactor := 1/((m.bandwidthMbps : Rat)+eps)
  let hashVal := hash (toString v.id.toNat ++ ":" ++ node)
  let jitterModifier := 1+((hashVal%1000).toNat : Rat)/10000
  linkRTT rttMatrix v.primary node*bwPenalty*capFactor*jitterModifier

def candidates (v : VNode) : List Candidate :=
  nodes.filterMap (fun node =>
    if node.id = v.primary then none
    else ((statsMap metrics).lookup node.id).map (fun m => ⟨node.id,suitability hash rttMatrix v node.id m⟩))

def chooseReplicas (rf : Int) (v : VNode) : List NodeID :=
  ((sortSlice Candidate.less (candidates hash nodes metrics rttMatrix v)).map Candidate.id).take (rf-1).toNat

end Choose

/-- Replicas for every vnode with a primary, each as they are chosen for it. -/
def assignReplicas (choose : VNode → List NodeID) (rf : Int) (vnodes : List VNode) : List VNode :=
  if rf ≤ 1 then vnodes.map (fun v => { v with replicas := [] })
  else vnodes.map (fun v => if v.primary = "" then v else { v with replicas := choose v })

section Spread
variable (hash : String → UInt64) {nodes : List NodeInfo} {metrics : List NodeMetrics} (rttMatrix : RTTMatrix)

theorem mem_statsMap {n : NodeID} (h : n ∈ metrics.map NodeMetrics.nodeID) : n ∈ statsMap metrics :=
  (mem_foldl_insert NodeMetrics.nodeID id metrics ∅).mpr (.inr h)

/-- Every node with metrics is a candidate, the primary apart. -/
theorem candidates_ids (hstats : ∀ n ∈ nodes, n.id ∈ metrics.map NodeMetrics.nodeID) (v : VNode) :
    (candidates hash nodes metrics rttMatrix v).map Candidate.id = (nodes.map NodeInfo.id).filter (· != v.primary) := by
  unfold candidates
  induction nodes with
  | nil => rfl
  | cons node nodes ih =>
    obtain ⟨hnode,hrest⟩ := List.forall_mem_cons.mp hstats
    obtain ⟨m,hm⟩ := Finmap.mem_iff.mp (mem_statsMap hnode)
    by_cases hp : node.id = v.primary
    · simpa [hp] using ih hrest
    · simpa [hp, hm] using ih hrest

variable (hnodup : (nodes.map NodeInfo.id).Nodup) (hstats : ∀ n ∈ nodes, n.id ∈ metrics.map NodeMetrics.nodeID)
include hnodup hstats

/-- The replicas are chosen from the other nodes, as many as there are or RF asks for. -/
theorem chooseReplicas_spec (rf : Int) {v : VNode} (hv : v.primary ∈ nodes.map NodeInfo.id) :
    ∃ others, (v.primary::others).Perm (nodes.map NodeInfo.id) ∧
      chooseReplicas hash nodes metrics rttMatrix rf v = others.take (rf-1).toNat := by
  refine ⟨_,?_,rfl⟩
  have hsort := (sortSlice_perm Candidate.less (candidates hash nodes metrics rttMatrix v)).map Candidate.id
  rw [candidates_ids hash rttMatrix hstats, ← hnodup.erase_eq_filter] at hsort
  exact (hsort.cons _).trans (List.perm_cons_erase hv).symm

end Spread

section Assign
variable {choose : VNode → List NodeID} {rf : Int} {vnodes : List VNode}

/-- Vnodes with primaries among the nodes are spread over the nodes, when each gets its
replicas from the other nodes. -/
theorem assignReplicas_spread {ids : List NodeID} (hnodup : ids.Nodup) (hempty : "" ∉ ids)
    (hchoose : ∀ v, v.primary ∈ ids → ∃ others, (v.primary::others).Perm ids ∧ choose v = others.take (rf-1).toNat)
    (hprim : ∀ v ∈ vnodes, v.primary ∈ ids) : ∀ v ∈ assignReplicas choose rf vnodes, v.Spread rf ids := by
  intro w hw
  unfold assignReplicas at hw
  split at hw
  · rename_i hrf
    obtain ⟨v,hv,rfl⟩ := List.mem_map.mp hw
    have hp := hprim v hv
    have hpos := List.length_pos_of_mem hp
    refine ⟨by simpa [VNode.holders] using hp,by simp [VNode.holders],?_⟩
    simp only [List.length_nil]
    omega
  · rename_i hrf
    obtain ⟨v,hv,rfl⟩ := List.mem_map.mp hw
    have hp := hprim v hv
    rw [if_neg (fun h : v.primary = "" => hempty (h ▸ hp))]
    obtain ⟨others,hperm,hchosen⟩ := hchoose v hp
    have hsub : (v.primary::others.take (rf-1).toNat).Sublist (v.primary::others) := (List.take_sublist _ _).cons_cons _
    rw [hchosen]
    refine ⟨fun n hn => hperm.mem_iff.mp (hsub.subset hn),hsub.nodup (hperm.nodup_iff.mpr hnodup),?_⟩
    have hlen := hperm.length_eq
    simp only [List.length_cons] at hlen
    simp only [List.length_take]
    omega

/-- Only replicas change. -/
theorem assignReplicas_map {α : Type} (f : VNode → α) (hf : ∀ v rs, f { v with replicas := rs } = f v) :
    (assignReplicas choose rf vnodes).map f = vnodes.map f := by
  unfold assignReplicas
  split
  · simp [Function.comp_def, hf]
  · rw [List.map_map]
    refine List.map_congr_left (fun v _ => ?_)
    simp only [Function.comp_apply]
    split
    · rfl
    · exact hf v _

/-- Where the replicas that a vnode has do not matter, choosing them again makes no
difference. -/
theorem assignReplicas_idem (hchoose : ∀ v rs, choose { v with replicas := rs } = choose v) :
    assignReplicas choose rf (assignReplicas choose rf vnodes) = assignReplicas choose rf vnodes := by
  by_cases hrf : rf ≤ 1
  · simp [assignReplicas, hrf]
  · simp only [assignReplicas, hrf, if_false, List.map_map]
    refine List.map_congr_left (fun v _ => ?_)
    by_cases hv : v.primary = ""
    · simp [hv]
    · simp only [Function.comp_apply, hv, if_false, hchoose]

end Assign

/-- A node that could be primary, with its place among the replicas. -/
structure Best where
  id : NodeID
  score : Rat
  idx : Option Nat

section Swap
variable (scoreByID : FMap NodeID Rat) (degradedNow sustainedDegraded : NodeID → Bool)

/-- A replica is preferred when it is not degraded and better by a tenth. -/
def Best.better (best : Best) (p : NodeID × Nat) : Best :=
  if degradedNow p.1 then best
  else match scoreByID.lookup p.1 with
    | none => best
    | some replicaScore => if replicaScore < best.score*(90/100) then ⟨p.1,replicaScore,some p.2⟩ else best

def bestReplica (v : VNode) (score : Rat) : Best :=
  v.replicas.zipIdx.foldl (Best.better scoreByID degradedNow) ⟨v.primary,score,none⟩

/-- The vnode with the roles of its primary and a better replica exchanged; none is a
vnode that stays as it is. -/
def swapRoles (v : VNode) : Option VNode :=
  if v.primary = "" ∨ v.replicas.length = 0 then none
  else if ¬ sustainedDegraded v.primary then none
  else match scoreByID.lookup v.primary with
    | none => none
    | some score =>
      let best := bestReplica scoreByID degradedNow v score
      match best.idx with
      | none => none
      | some idx =>
        if best.id ≠ v.primary then some { v with primary := best.id, replicas := v.replicas.set idx v.primary } else none

variable {scoreByID degradedNow sustainedDegraded} {v w : VNode}

theorem Best.better_cases (best : Best) (p : NodeID × Nat) :
    best.better scoreByID degradedNow p = best ∨
      ∃ replicaScore, best.better scoreByID degradedNow p = ⟨p.1,replicaScore,some p.2⟩ := by
  unfold Best.better
  split
  · exact .inl rfl
  · split
    · exact .inl rfl
    · split
      · exact .inr ⟨_,rfl⟩
      · exact .inl rfl

/-- The index is that of the replica. -/
theorem bestReplica_idx {score : Rat} {idx : Nat} (h : (bestReplica scoreByID degradedNow v score).idx = some idx) :
    v.replicas[idx]? = some (bestReplica scoreByID degradedNow v score).id := by
  have hinv : ∀ i, (bestReplica scoreByID degradedNow v score).idx = some i →
      v.replicas[i]? = some (bestReplica scoreByID degradedNow v score).id := by
    refine List.foldlRecOn (motive := fun best : Best => ∀ i, best.idx = some i → v.replicas[i]? = some best.id)
      _ _ (fun i hi => by cases hi) (fun best hbest p hp => ?_)
    rcases best.better_cases p with he | ⟨_,he⟩
    · rwa [he]
    · intro i hi
      rw [he] at hi ⊢
      cases hi
      exact List.mem_zipIdx_iff_getElem?.mp hp
  exact hinv idx h

private theorem perm_cons_set {α : Type} {l : List α} {i : Nat} {a b : α} (h : l[i]? = some b) :
    (b::l.set i a).Perm (a::l) := by
  obtain ⟨hi,rfl⟩ := List.getElem?_eq_some_iff.mp h
  calc (l[i]::l.set i a).Perm (l[i]::a::l.eraseIdx i) := (List.set_perm_cons_eraseIdx hi a).cons _
    List.Perm _ (a::l[i]::l.eraseIdx i) := .swap _ _ _
    List.Perm _ (a::l) := (List.getElem_cons_eraseIdx_perm hi).cons _

theorem swapRoles_eq_some (h : swapRoles scoreByID degradedNow sustainedDegraded v = some w) :
    sustainedDegraded v.primary ∧ ∃ score idx, scoreByID.lookup v.primary = some score ∧
      (bestReplica scoreByID degradedNow v score).idx = some idx ∧
      w = { v with primary := (bestReplica scoreByID degradedNow v score).id, replicas := v.replicas.set idx v.primary } := by
  unfold swapRoles at h
  split at h
  · cases h
  split at h
  · cases h
  rename_i hsustained
  split at h
  · cases h
  rename_i score hscore
  dsimp only at h
  split at h
  · cases h
  rename_i idx hidx
  split at h
  · cases h
    exact ⟨not_not.mp hsustained,score,idx,hscore,hidx,rfl⟩
  · cases h

/-- The vnode stays with the same nodes. -/
theorem swapRoles_holders (h : swapRoles scoreByID degradedNow sustainedDegraded v = some w) :
    w.id = v.id ∧ w.holders.Perm v.holders := by
  obtain ⟨_,_,_,_,hidx,rfl⟩ := swapRoles_eq_some h
  exact ⟨rfl,perm_cons_set (bestReplica_idx hidx)⟩

theorem VNode.WellFormed.of_perm {rf : Int} (h : v.WellFormed rf) (hp : w.holders.Perm v.holders) : w.WellFormed rf := by
  refine ⟨fun hn => h.named (hp.mem_iff.mp hn),hp.nodup_iff.mpr h.distinct,?_⟩
  have hlen := hp.length_eq
  simp only [VNode.holders, List.length_cons] at hlen
  have hcount := h.count
  omega

end Swap
end Nawst.Cluster
