import Mathlib.Data.Rat.Floor
import Mathlib.Tactic.Linarith
import Nawst.Cluster.Placement

/-! The score of a node from its metrics, and what makes a node count as degraded, in
exact arithmetic: the checks for values that are not finite numbers have no counterpart. -/
namespace Nawst.Cluster
open Lib.FiniteMap

structure NodeMetrics where
  nodeID : NodeID
  avgRTT : Rat
  cpuCores : Int
  memGB : Int
  bandwidthMbps : Int
  diskGB : Int
  cpuUsage : Rat
  memUsage : Rat
  netUsage : Rat
  diskUsage : Rat
  deriving DecidableEq

def weightRTT : Rat := 31/100
def weightCPU : Rat := 15/100
def weightMEM : Rat := 16/100
def weightNET : Rat := 24/100
def weightDisk : Rat := 14/100

/-- Keeps denominators away from zero. -/
def eps : Rat := 1/1000000000

def maxInt (v fallback : Int) : Int := if 0 < v then v else fallback

def clampUnit (v : Rat) : Rat := if v < 0 then 0 else if 1 < v then 1 else v

def clampMetric (v : Rat) : Rat := clampUnit v

/-- A value that is not positive is replaced. -/
def positiveOr (v fallback : Rat) : Rat := if v ≤ 0 then fallback else v

section Score
variable (ms : List NodeMetrics)

/-- The average of a capacity over the cluster. -/
def avgCap (cap : NodeMetrics → Int) : Rat := positiveOr ((ms.map (fun m => (maxInt (cap m) 1 : Rat))).sum/ms.length) 1

def clusterAvgRTT : Rat := positiveOr ((ms.map (fun m => positiveOr m.avgRTT 1)).sum/ms.length) 1

/-- How a capacity of the node compares with the average. -/
def relative (cap : NodeMetrics → Int) (m : NodeMetrics) : Rat :=
  positiveOr ((maxInt (cap m) 1 : Rat)/avgCap ms cap) 1

def score (m : NodeMetrics) : Rat :=
  let rtt := positiveOr m.avgRTT (clusterAvgRTT ms)
  let diskPenalty := 1/(101/100-min (clampMetric m.diskUsage) (99/100))
  weightRTT*(rtt/(clusterAvgRTT ms+eps))+weightCPU*(clampMetric m.cpuUsage/relative ms NodeMetrics.cpuCores m)+
    weightMEM*(clampMetric m.memUsage/relative ms NodeMetrics.memGB m)+
    weightNET*(clampMetric m.netUsage/relative ms NodeMetrics.bandwidthMbps m)+
    weightDisk*(diskPenalty/relative ms NodeMetrics.diskGB m)

def calculateScores : List NodeInfo := ms.map (fun m => ⟨m.nodeID,score ms m⟩)

/-- Every node is scored, under its own id. -/
@[simp] theorem calculateScores_ids : (calculateScores ms).map NodeInfo.id = ms.map NodeMetrics.nodeID := by
  simp [calculateScores, Function.comp_def]

end Score

section Order

/-- A node that answers faster, is used less and has at least the capacity of another. -/
structure NodeMetrics.Better (i j : NodeMetrics) : Prop where
  rtt_pos : 0 < i.avgRTT
  rtt : i.avgRTT < j.avgRTT
  cpuUsage : i.cpuUsage ≤ j.cpuUsage
  memUsage : i.memUsage ≤ j.memUsage
  netUsage : i.netUsage ≤ j.netUsage
  diskUsage : i.diskUsage ≤ j.diskUsage
  cpuCores : j.cpuCores ≤ i.cpuCores
  memGB : j.memGB ≤ i.memGB
  bandwidthMbps : j.bandwidthMbps ≤ i.bandwidthMbps
  diskGB : j.diskGB ≤ i.diskGB

theorem eps_pos : 0 < eps := by norm_num [eps]

theorem positiveOr_pos (v : Rat) {fallback : Rat} (h : 0 < fallback) : 0 < positiveOr v fallback := by
  unfold positiveOr
  split
  · exact h
  · rename_i hv
    exact not_le.mp hv

theorem positiveOr_of_pos {v : Rat} (h : 0 < v) (fallback : Rat) : positiveOr v fallback = v := if_neg (not_le.mpr h)

theorem maxInt_mono {v w : Int} (h : v ≤ w) : 1 ≤ maxInt v 1 ∧ maxInt v 1 ≤ maxInt w 1 := by
  unfold maxInt
  split_ifs <;> omega

theorem clampMetric_nonneg (v : Rat) : 0 ≤ clampMetric v := by
  unfold clampMetric clampUnit
  split_ifs <;> linarith

theorem clampMetric_mono {v w : Rat} (h : v ≤ w) : clampMetric v ≤ clampMetric w := by
  unfold clampMetric clampUnit
  split_ifs <;> linarith

variable (ms : List NodeMetrics) {i j : NodeMetrics}

theorem clusterAvgRTT_pos : 0 < clusterAvgRTT ms := positiveOr_pos _ one_pos

theorem relative_eq (cap : NodeMetrics → Int) (m : NodeMetrics) : relative ms cap m = (maxInt (cap m) 1 : Rat)/avgCap ms cap := by
  have hone : (1 : Rat) ≤ maxInt (cap m) 1 := by exact_mod_cast (maxInt_mono (le_refl (cap m))).1
  exact positiveOr_of_pos (div_pos (by linarith) (positiveOr_pos _ one_pos)) 1

theorem relative_pos (cap : NodeMetrics → Int) (m : NodeMetrics) : 0 < relative ms cap m := positiveOr_pos _ one_pos

theorem relative_mono {cap : NodeMetrics → Int} (h : cap j ≤ cap i) : relative ms cap j ≤ relative ms cap i := by
  have hcap : (maxInt (cap j) 1 : Rat) ≤ maxInt (cap i) 1 := by exact_mod_cast (maxInt_mono h).2
  rw [relative_eq, relative_eq]
  exact div_le_div_of_nonneg_right hcap (positiveOr_pos _ one_pos).le

/-- A load counts less on a larger node. -/
theorem load_le {cap : NodeMetrics → Int} (hcap : cap j ≤ cap i) {u w : Rat} (hw : 0 ≤ w) (huw : u ≤ w) :
    u/relative ms cap i ≤ w/relative ms cap j :=
  div_le_div₀ hw huw (relative_pos ms cap j) (relative_mono ms hcap)

/-- What a full disk costs. -/
private theorem diskPenalty_le {u w : Rat} (h : u ≤ w) :
    0 < 1/(101/100-min (clampMetric u) (99/100)) ∧
      1/(101/100-min (clampMetric u) (99/100)) ≤ 1/(101/100-min (clampMetric w) (99/100)) := by
  have hu := min_le_right (clampMetric u) (99/100)
  have hw := min_le_right (clampMetric w) (99/100)
  have hmin : min (clampMetric u) (99/100) ≤ min (clampMetric w) (99/100) := min_le_min_right _ (clampMetric_mono h)
  exact ⟨one_div_pos.mpr (by linarith),one_div_le_one_div_of_le (by linarith) (by linarith)⟩

/-- A better node has a lower score, whatever the rest of the cluster is. -/
theorem score_lt (h : i.Better j) : score ms i < score ms j := by
  have havg := add_pos (clusterAvgRTT_pos ms) eps_pos
  have hrtt : i.avgRTT/(clusterAvgRTT ms+eps) < j.avgRTT/(clusterAvgRTT ms+eps) := div_lt_div_of_pos_right h.rtt havg
  have hcpu := load_le ms h.cpuCores (clampMetric_nonneg j.cpuUsage) (clampMetric_mono h.cpuUsage)
  have hmem := load_le ms h.memGB (clampMetric_nonneg j.memUsage) (clampMetric_mono h.memUsage)
  have hnet := load_le ms h.bandwidthMbps (clampMetric_nonneg j.netUsage) (clampMetric_mono h.netUsage)
  have hpenalty := diskPenalty_le h.diskUsage
  have hdisk := load_le ms h.diskGB (hpenalty.1.trans_le hpenalty.2).le hpenalty.2
  unfold score
  rw [positiveOr_of_pos h.rtt_pos, positiveOr_of_pos (h.rtt_pos.trans h.rtt)]
  simp only [weightRTT, weightCPU, weightMEM, weightNET, weightDisk]
  linarith

/-- No score is negative. -/
theorem score_nonneg (m : NodeMetrics) : 0 ≤ score ms m := by
  have hrtt := div_nonneg (positiveOr_pos m.avgRTT (clusterAvgRTT_pos ms)).le (add_pos (clusterAvgRTT_pos ms) eps_pos).le
  have hload (cap : NodeMetrics → Int) {u : Rat} (hu : 0 ≤ u) := div_nonneg hu (relative_pos ms cap m).le
  have hcpu := hload NodeMetrics.cpuCores (clampMetric_nonneg m.cpuUsage)
  have hmem := hload NodeMetrics.memGB (clampMetric_nonneg m.memUsage)
  have hnet := hload NodeMetrics.bandwidthMbps (clampMetric_nonneg m.netUsage)
  have hdisk := hload NodeMetrics.diskGB (diskPenalty_le (le_refl m.diskUsage)).1.le
  unfold score
  simp only [weightRTT, weightCPU, weightMEM, weightNET, weightDisk]
  linarith

end Order

section Average
variable (ms : List NodeMetrics)

def averageRTT : Rat :=
  let known := (ms.map NodeMetrics.avgRTT).filter (fun rtt => 0 < rtt)
  if known.length = 0 then 0 else known.sum/known.length

end Average

def isSeverelyDegraded (m : NodeMetrics) (avgRTT : Rat) : Bool :=
  let rttThreshold := if 0 < avgRTT ∧ 120 < 2*avgRTT then 2*avgRTT else 120
  90/100 ≤ m.cpuUsage ∨ 90/100 ≤ m.diskUsage ∨ (0 < m.avgRTT ∧ rttThreshold ≤ m.avgRTT)

/-- A moving average of what a node reports; sizes that are missing are taken from before. -/
def smoothMetrics (prev : Option NodeMetrics) (raw : NodeMetrics) : NodeMetrics :=
  let raw := { raw with
    cpuUsage := clampUnit raw.cpuUsage
    memUsage := clampUnit raw.memUsage
    netUsage := clampUnit raw.netUsage
    diskUsage := clampUnit raw.diskUsage }
  match prev with
  | none => raw
  | some prev =>
    let mix (new old : Rat) : Rat := 1/4*new+3/4*old
    { raw with
      cpuUsage := mix raw.cpuUsage prev.cpuUsage
      memUsage := mix raw.memUsage prev.memUsage
      netUsage := mix raw.netUsage prev.netUsage
      diskUsage := mix raw.diskUsage prev.diskUsage
      avgRTT :=
        if 0 < raw.avgRTT then if prev.avgRTT ≤ 0 then raw.avgRTT else mix raw.avgRTT prev.avgRTT
        else prev.avgRTT
      cpuCores := if raw.cpuCores ≤ 0 then prev.cpuCores else raw.cpuCores
      memGB := if raw.memGB ≤ 0 then prev.memGB else raw.memGB
      bandwidthMbps := if raw.bandwidthMbps ≤ 0 then prev.bandwidthMbps else raw.bandwidthMbps
      diskGB := if raw.diskGB ≤ 0 then prev.diskGB else raw.diskGB }

@[simp] theorem smoothMetrics_nodeID (prev : Option NodeMetrics) (raw : NodeMetrics) :
    (smoothMetrics prev raw).nodeID = raw.nodeID := by
  cases prev <;> rfl

end Nawst.Cluster
