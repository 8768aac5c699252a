import Nawst.Cluster.Rebalance

/-! When a long-term update installs what it has computed. Which primaries change follows from
the installed placement and the targets, and so do the replicas of the vnodes that keep their
primary; a placement with departed primaries is replaced when these changes are enough, and
kept when they are too few. -/
namespace Nawst.Cluster
open Lib Lib.FiniteMap Nawst.Core Update

/-- The first of the vnodes keeps its primary: its owner has a target, and has no more vnodes
from there on than that. -/
def Keeps (counts : Counts) (v : VNode) (vs : List VNode) : Prop :=
  v.primary ∈ counts.keys ∧ owned v.primary vs ≤ counts.get v.primary

instance (counts : Counts) (v : VNode) (vs : List VNode) : Decidable (Keeps counts v vs) := inferInstanceAs (Decidable (_ ∧ _))

section Revoke
variable {counts : Counts}

/-- The counts that revoking goes by: what an owner has from here on, or no more than its
target once it has been left a vnode. -/
structure Counted (counts : Counts) (vs : List VNode) (current : Counts) (n : NodeID) : Prop where
  owned_le : owned n vs ≤ current.get n
  exact_or : current.get n = owned n vs ∨ ∀ allowed, counts.lookup n = some allowed → current.get n ≤ allowed

theorem Counted.skip {vs : List VNode} {current : Counts} {n : NodeID} {v : VNode} (h : Counted counts (v::vs) current n)
    (hn : v.primary ≠ n) : Counted counts vs current n := by
  have howned := owned_cons n v vs
  rw [if_neg hn, add_zero] at howned
  exact ⟨howned ▸ h.owned_le,howned ▸ h.exact_or⟩

theorem Counted.leave {vs : List VNode} {current : Counts} {v : VNode} (h : Counted counts (v::vs) current v.primary)
    (hr : ¬ revoked counts current v.primary = true) : Counted counts vs current v.primary := by
  have howned := owned_cons v.primary v vs
  rw [if_pos rfl] at howned
  obtain ⟨hle,-⟩ := h
  refine ⟨by omega,.inr (fun allowed hl => ?_)⟩
  simpa [revoked, hl] using hr

end Revoke

section Assigned
variable {counts : Counts} {old us : List VNode} (hempty : "" ∉ counts.keys)
  (h : Settled counts (revoke counts old (currentCounts old)))
  (hf : Filled (deficitIDs counts (revoke counts old (currentCounts old)).counts)
    (revoke counts old (currentCounts old)).orphans
    (deficits counts (revoke counts old (currentCounts old)).counts) (revoke counts old (currentCounts old)).vnodes us)
include hempty h hf

end Assigned

section Count
variable {counts : Counts} {choose : VNode → List NodeID}

end Count

namespace Update

section Rebuild
variable (cfg : Config) (rttMatrix : RTTMatrix) {active : List NodeMetrics} {prev : ScoredPlacement} (hring : prev.IsRing)
  (hne : active ≠ []) (htable : Table active) {counts : Counts}
  (hcounts : cfg.weighing.targets (cfg.weighing.scores active) = some counts)
include hring hne htable hcounts

end Rebuild

section Sample
open Replicator

end Sample
end Update

end Nawst.Cluster
