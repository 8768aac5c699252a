import Mathlib.Data.List.Sort
import Mathlib.Data.String.Basic
import Mathlib.Data.Rat.Floor
import Mathlib.Algebra.BigOperators.Ring.List
import Mathlib.Algebra.Order.BigOperators.Group.List
import Nawst.Lib.Apportion
import Nawst.Cluster.Scores

/-! How many vnodes each node should have: shares of the ring by the inverse of the score,
rounded down, and the rest to those with the largest fractions. -/
namespace Nawst.Cluster
open Lib Lib.FiniteMap Nawst.Core

/-- Sorting by an order that tells any two of the elements apart, where the algorithm does
not matter. -/
def sortSlice {α : Type} (less : α → α → Prop) [DecidableRel less] (l : List α) : List α :=
  l.insertionSort (fun a b => ¬ less b a)

theorem sortSlice_perm {α : Type} (less : α → α → Prop) [DecidableRel less] (l : List α) : (sortSlice less l).Perm l :=
  List.perm_insertionSort _ _

abbrev Counts := FMap NodeID Int

/-- A missing entry counts as zero. -/
def Counts.get (m : Counts) (n : NodeID) : Int := (m.lookup n).getD 0

def Counts.add (m : Counts) (n : NodeID) (d : Int) : Counts := m.insert n (m.get n+d)

namespace Counts

@[simp] theorem get_add (m : Counts) (n k : NodeID) (d : Int) : (m.add n d).get k = if k = n then m.get n+d else m.get k := by
  unfold add get
  rw [lookup_insert_ite]
  split <;> rfl

def sum (m : Counts) : Int := total id m

theorem weight_id (m : Counts) (n : NodeID) : weight id m n = m.get n := by
  unfold weight get
  rw [Option.map_id_fun, id]

theorem sum_insert (m : Counts) (n : NodeID) (c : Int) : sum (m.insert n c) = sum m-m.get n+c := by
  unfold sum
  rw [total_update id (m := m) (k := n) (fun k hk => by rw [lookup_insert_ite, if_neg hk]), weight_id, weight_id]
  unfold get
  rw [lookup_insert_ite, if_pos rfl]
  rfl

theorem sum_add (m : Counts) (n : NodeID) (d : Int) : sum (m.add n d) = sum m+d := by
  rw [add, sum_insert]
  omega

end Counts

structure Alloc where
  id : NodeID
  base : Int
  frac : Rat

def Alloc.less (a b : Alloc) : Prop := if a.frac = b.frac then a.id < b.id else b.frac < a.frac

instance : DecidableRel Alloc.less := fun a b =>
  inferInstanceAs (Decidable (if a.frac = b.frac then a.id < b.id else b.frac < a.frac))

/-- The score that counts: one in place of a negative score. -/
def effectiveScore (n : NodeInfo) : Rat := if n.score < 0 then 1 else n.score

def scoreWeight (n : NodeInfo) : Rat := 1/(effectiveScore n+eps)

/-- The exact share of a node. -/
def ideal (total : Rat) (n : NodeInfo) : Rat := scoreWeight n/total*vnodeCount

def alloc (total : Rat) (n : NodeInfo) : Alloc := ⟨n.id,⌊ideal total n⌋,ideal total n-⌊ideal total n⌋⟩

/-- One more vnode for each of the first allocations; none is an index out of range. -/
def addRest (allocs : List Alloc) (rest : Nat) (counts : Counts) : Option Counts :=
  (List.range rest).foldlM (fun m i => allocs[i]?.map (fun a => m.add a.id 1)) counts

section Count
variable (nodes : List NodeInfo)

def totalWeight : Rat := (nodes.map scoreWeight).sum

/-- What rounding down leaves over. -/
def restCount : Int := vnodeCount-((nodes.map (alloc (totalWeight nodes))).map Alloc.base).sum

def sortedAllocs : List Alloc := sortSlice Alloc.less (nodes.map (alloc (totalWeight nodes)))

def baseCounts (allocs : List Alloc) : Counts := allocs.foldl (fun m a => m.insert a.id a.base) ∅

def getTargetVNodeCount : Option Counts :=
  if nodes.length = 0 then some ∅
  else if totalWeight nodes ≤ 0 then
    let each := vnodeCount/nodes.length
    let rem := vnodeCount%nodes.length
    some (nodes.zipIdx.foldl (fun m p => m.insert p.1.id (if p.2 < rem then each+1 else each : Nat)) ∅)
  else addRest (sortedAllocs nodes) (restCount nodes).toNat (baseCounts (sortedAllocs nodes))

end Count

theorem effectiveScore_nonneg (n : NodeInfo) : 0 ≤ effectiveScore n := by
  unfold effectiveScore
  split
  · exact zero_le_one
  · rename_i h
    exact not_lt.mp h

theorem scoreWeight_pos (n : NodeInfo) : 0 < scoreWeight n :=
  one_div_pos.mpr (add_pos_of_nonneg_of_pos (effectiveScore_nonneg n) eps_pos)

section Shares
variable {nodes : List NodeInfo}

theorem totalWeight_pos (h : nodes ≠ []) : 0 < totalWeight nodes := by
  refine List.sum_pos _ (fun w hw => ?_) (by simpa using h)
  obtain ⟨n,_,rfl⟩ := List.mem_map.mp hw
  exact scoreWeight_pos n

/-- The shares add up to the ring. -/
theorem sum_ideal (h : nodes ≠ []) : (nodes.map (ideal (totalWeight nodes))).sum = vnodeCount := by
  have hmul : nodes.map (ideal (totalWeight nodes)) =
      nodes.map (fun n => scoreWeight n*((totalWeight nodes)⁻¹*vnodeCount)) := by
    refine List.map_congr_left (fun n _ => ?_)
    unfold ideal
    ring
  rw [hmul, List.sum_map_mul_right, ← totalWeight, ← mul_assoc, mul_inv_cancel₀ (ne_of_gt (totalWeight_pos h)), one_mul]

/-- Less than one vnode for each node is left over. -/
theorem restCount_bounds (h : nodes ≠ []) : 0 ≤ restCount nodes ∧ restCount nodes < nodes.length := by
  have hne : nodes.map (ideal (totalWeight nodes)) ≠ [] := by simpa using h
  have hrest := Apportion.rest_bounds (n := vnodeCount) hne (by rw [sum_ideal h]; norm_cast)
  have hbases : (nodes.map (alloc (totalWeight nodes))).map Alloc.base =
      (nodes.map (ideal (totalWeight nodes))).map Int.floor := by
    simp [alloc, Function.comp_def]
  rwa [List.length_map, ← hbases] at hrest

theorem sortedAllocs_perm (nodes : List NodeInfo) : (sortedAllocs nodes).Perm (nodes.map (alloc (totalWeight nodes))) :=
  sortSlice_perm _ _

theorem sortedAllocs_ids (nodes : List NodeInfo) : ((sortedAllocs nodes).map Alloc.id).Perm (nodes.map NodeInfo.id) := by
  have hids : (nodes.map (alloc (totalWeight nodes))).map Alloc.id = nodes.map NodeInfo.id := by
    simp [alloc, Function.comp_def]
  exact hids ▸ (sortedAllocs_perm nodes).map Alloc.id

theorem restCount_le (h : nodes ≠ []) : (restCount nodes).toNat ≤ (sortedAllocs nodes).length := by
  have hb := restCount_bounds h
  rw [(sortedAllocs_perm nodes).length_eq, List.length_map]
  omega

theorem sortedAllocs_base_nonneg (h : nodes ≠ []) : ∀ a ∈ sortedAllocs nodes, 0 ≤ a.base := by
  intro a ha
  obtain ⟨n,_,rfl⟩ := List.mem_map.mp ((sortedAllocs_perm nodes).mem_iff.mp ha)
  refine Int.floor_nonneg.mpr (mul_nonneg (div_nonneg ?_ ?_) (Nat.cast_nonneg _))
  · exact le_of_lt (scoreWeight_pos n)
  · exact le_of_lt (totalWeight_pos h)

end Shares

/-- What is handed out one by one, when there are enough allocations. -/
theorem addRest_eq (allocs : List Alloc) {rest : Nat} (h : rest ≤ allocs.length) (counts : Counts) :
    addRest allocs rest counts = some ((allocs.take rest).foldl (fun m a => m.add a.id 1) counts) := by
  unfold addRest
  induction rest with
  | zero => rfl
  | succ rest ih =>
    have hlt : rest < allocs.length := h
    rw [List.range_succ, List.foldlM_append, ih (Nat.le_of_lt hlt), List.take_add_one, List.foldl_append]
    simp [List.getElem?_eq_getElem hlt]

section Totals

/-- The counts of some nodes, none of them negative. -/
structure Counts.For (m : Counts) (ids : List NodeID) : Prop where
  keys : ∀ n, n ∈ m ↔ n ∈ ids
  nonneg : ∀ n, 0 ≤ m.get n

theorem for_addAll {m : Counts} {ids : List NodeID} (h : m.For ids) {allocs : List Alloc} (hmem : ∀ a ∈ allocs, a.id ∈ ids) :
    (allocs.foldl (fun m a => m.add a.id 1) m).For ids := by
  refine List.foldlRecOn (motive := fun m : Counts => m.For ids) allocs _ h (fun m hm a ha => ⟨fun n => ?_,fun n => ?_⟩)
  · rw [Counts.add, Finmap.mem_insert, hm.keys]
    exact or_iff_right_of_imp (fun hn => hn ▸ hmem a ha)
  · rw [Counts.get_add]
    have h1 := hm.nonneg a.id
    have h2 := hm.nonneg n
    split <;> omega

theorem sum_addAll (m : Counts) (allocs : List Alloc) :
    (allocs.foldl (fun m a => m.add a.id 1) m).sum = m.sum+allocs.length := by
  induction allocs generalizing m with
  | nil => simp
  | cons a allocs ih =>
    rw [List.foldl_cons, ih, Counts.sum_add, List.length_cons]
    omega

/-- The bases are entered under distinct ids. -/
theorem sum_insertAll (m : Counts) {allocs : List Alloc} (hnodup : (allocs.map Alloc.id).Nodup)
    (hnew : ∀ a ∈ allocs, a.id ∉ m) :
    (allocs.foldl (fun m a => m.insert a.id a.base) m).sum = m.sum+(allocs.map Alloc.base).sum := by
  induction allocs generalizing m with
  | nil => simp
  | cons a allocs ih =>
    obtain ⟨ha,hnodup⟩ := List.nodup_cons.mp hnodup
    obtain ⟨hma,hnew⟩ := List.forall_mem_cons.mp hnew
    have hzero : m.get a.id = 0 := by simp [Counts.get, Finmap.lookup_eq_none.mpr hma]
    rw [List.foldl_cons, ih _ hnodup, Counts.sum_insert, hzero, List.map_cons, List.sum_cons]
    · omega
    · intro b hb
      rw [Finmap.mem_insert, not_or]
      exact ⟨fun h => ha (h ▸ List.mem_map_of_mem hb),hnew b hb⟩

theorem for_insertAll {m : Counts} {ids : List NodeID} (h : m.For ids) {allocs : List Alloc}
    (hbase : ∀ a ∈ allocs, 0 ≤ a.base) : (allocs.foldl (fun m a => m.insert a.id a.base) m).For (ids ++ allocs.map Alloc.id) := by
  induction allocs generalizing m ids with
  | nil => simpa using h
  | cons a allocs ih =>
    obtain ⟨ha,hbase⟩ := List.forall_mem_cons.mp hbase
    have hone : Counts.For (m.insert a.id a.base) (ids ++ [a.id]) := by
      refine ⟨fun n => ?_,fun n => ?_⟩
      · rw [Finmap.mem_insert, h.keys, List.mem_append, List.mem_singleton, or_comm]
      · unfold Counts.get
        rw [lookup_insert_ite]
        split
        · exact ha
        · exact h.nonneg n
    simpa using ih hone hbase

end Totals

/-- Each node gets its share rounded down, and the first ones of the order one more. -/
theorem getTargetVNodeCount_eq {nodes : List NodeInfo} (h : nodes ≠ []) :
    getTargetVNodeCount nodes = some (((sortedAllocs nodes).take (restCount nodes).toNat).foldl
      (fun m a => m.add a.id 1) (baseCounts (sortedAllocs nodes))) := by
  simp only [getTargetVNodeCount, List.length_eq_zero_iff, h, if_false, not_le.mpr (totalWeight_pos h)]
  exact addRest_eq _ (restCount_le h) _

/-- The counts are for the given nodes and add up to the ring; no index is out of range. -/
theorem getTargetVNodeCount_spec {nodes : List NodeInfo} (h : nodes ≠ []) (hnodup : (nodes.map NodeInfo.id).Nodup) :
    ∃ counts, getTargetVNodeCount nodes = some counts ∧ counts.sum = vnodeCount ∧
      counts.For (nodes.map NodeInfo.id) := by
  refine ⟨_,getTargetVNodeCount_eq h,?_,?_⟩
  · have hbase : (baseCounts (sortedAllocs nodes)).sum = ((nodes.map (alloc (totalWeight nodes))).map Alloc.base).sum := by
      rw [baseCounts, sum_insertAll ∅ ((sortedAllocs_ids nodes).nodup_iff.mpr hnodup) (by simp [Finmap.notMem_empty]),
        ((sortedAllocs_perm nodes).map Alloc.base).sum_eq]
      simp [Counts.sum]
    have hb := restCount_bounds h
    rw [sum_addAll, hbase, List.length_take, Nat.min_eq_left (restCount_le h), Int.toNat_of_nonneg hb.1, restCount]
    omega
  · have hempty : Counts.For ∅ [] := ⟨by simp [Finmap.notMem_empty],by simp [Counts.get]⟩
    have hfor := for_insertAll hempty (sortedAllocs_base_nonneg h)
    have hids : ∀ a ∈ (sortedAllocs nodes).take (restCount nodes).toNat, a.id ∈ [] ++ (sortedAllocs nodes).map Alloc.id :=
      fun a ha => List.mem_map_of_mem (List.mem_of_mem_take ha)
    have hall := for_addAll hfor hids
    exact ⟨fun n => (hall.keys n).trans (sortedAllocs_ids nodes).mem_iff,hall.nonneg⟩

section Fair
variable {nodes : List NodeInfo}

/-- The larger share belongs to the lower score. -/
theorem ideal_lt (h : nodes ≠ []) {x y : NodeInfo} (hxy : effectiveScore x < effectiveScore y) :
    ideal (totalWeight nodes) y < ideal (totalWeight nodes) x := by
  have hx : 0 < effectiveScore x+eps := add_pos_of_nonneg_of_pos (effectiveScore_nonneg x) eps_pos
  have hweight : scoreWeight y < scoreWeight x := by
    unfold scoreWeight
    exact one_div_lt_one_div_of_lt hx (by linarith)
  have hcount : (0 : Rat) < vnodeCount := by norm_num [vnodeCount]
  exact mul_lt_mul_of_pos_right (div_lt_div_of_pos_right hweight (totalWeight_pos h)) hcount

instance : Std.Total (fun a b : Alloc => ¬ b.less a) where
  total a b := by
    unfold Alloc.less
    split_ifs <;> grind

instance : IsTrans Alloc (fun a b : Alloc => ¬ b.less a) where
  trans a b c hab hbc := by
    unfold Alloc.less at *
    split_ifs at * <;> grind

theorem sortedAllocs_pairwise (nodes : List NodeInfo) : (sortedAllocs nodes).Pairwise (fun a b => ¬ b.less a) :=
  List.pairwise_insertionSort _ _

/-- Whoever has the larger fraction is not passed over. -/
theorem mem_take_of_frac_lt {a b : Alloc} {n : Nat} (ha : a ∈ (sortedAllocs nodes).take n) (hb : b ∈ sortedAllocs nodes)
    (hlt : a.frac < b.frac) : b ∈ (sortedAllocs nodes).take n := by
  have hsorted := sortedAllocs_pairwise nodes
  rw [← List.take_append_drop n (sortedAllocs nodes)] at hsorted hb
  refine (List.mem_append.mp hb).resolve_right (fun hdrop => ?_)
  have hless : b.less a := by
    unfold Alloc.less
    rw [if_neg hlt.ne']
    exact hlt
  exact (List.pairwise_append.mp hsorted).2.2 a ha b hdrop hless

theorem get_addAll (m : Counts) (allocs : List Alloc) (n : NodeID) :
    (allocs.foldl (fun m a => m.add a.id 1) m).get n = m.get n+(allocs.map Alloc.id).count n := by
  induction allocs generalizing m with
  | nil => simp
  | cons a allocs ih =>
    rw [List.foldl_cons, ih, Counts.get_add, List.map_cons, List.count_cons]
    by_cases hn : n = a.id
    · subst hn
      simp
      omega
    · simp [hn, Ne.symm hn]

theorem get_baseCounts {allocs : List Alloc} (hnodup : (allocs.map Alloc.id).Nodup) {a : Alloc} (ha : a ∈ allocs) :
    (baseCounts allocs).get a.id = a.base := by
  have hsame : ∀ b ∈ allocs, b.id = a.id → b.base = a.base :=
    fun b hb hid => congrArg Alloc.base (List.inj_on_of_nodup_map hnodup hb ha hid)
  have hlookup := lookup_foldl_insert Alloc.id Alloc.base hsame ∅
  rw [if_pos (List.mem_map_of_mem ha)] at hlookup
  unfold Counts.get baseCounts
  rw [hlookup]
  rfl

/-- The extra vnode, for the first in the order. -/
theorem get_count {allocs : List Alloc} (hnodup : (allocs.map Alloc.id).Nodup) (rest : Nat) {a : Alloc} (ha : a ∈ allocs) :
    ((allocs.take rest).foldl (fun m a => m.add a.id 1) (baseCounts allocs)).get a.id = a.base ∧ a ∉ allocs.take rest ∨
    ((allocs.take rest).foldl (fun m a => m.add a.id 1) (baseCounts allocs)).get a.id = a.base+1 ∧ a ∈ allocs.take rest := by
  have hsub : ((allocs.take rest).map Alloc.id).Sublist (allocs.map Alloc.id) := (List.take_sublist _ _).map _
  have hmem : a.id ∈ (allocs.take rest).map Alloc.id ↔ a ∈ allocs.take rest := by
    refine ⟨fun h => ?_,fun h => List.mem_map_of_mem h⟩
    obtain ⟨b,hb,hid⟩ := List.mem_map.mp h
    exact List.inj_on_of_nodup_map hnodup (List.mem_of_mem_take hb) ha hid ▸ hb
  rw [get_addAll, get_baseCounts hnodup ha]
  by_cases h : a ∈ allocs.take rest
  · rw [List.count_eq_one_of_mem (hsub.nodup hnodup) (hmem.mpr h)]
    exact .inr ⟨rfl,h⟩
  · rw [List.count_eq_zero_of_not_mem (fun hm => h (hmem.mp hm))]
    exact .inl ⟨by simp,h⟩

section Targets
variable {counts : Counts} (hne : nodes ≠ []) (hnodup : (nodes.map NodeInfo.id).Nodup)
  (hc : getTargetVNodeCount nodes = some counts)
include hne hnodup hc

/-- The count of a node: its share rounded down, and one more for the first in the order. -/
theorem target_eq {x : NodeInfo} (hx : x ∈ nodes) :
    counts.get x.id = ⌊ideal (totalWeight nodes) x⌋ ∧
      alloc (totalWeight nodes) x ∉ (sortedAllocs nodes).take (restCount nodes).toNat ∨
    counts.get x.id = ⌊ideal (totalWeight nodes) x⌋+1 ∧
      alloc (totalWeight nodes) x ∈ (sortedAllocs nodes).take (restCount nodes).toNat := by
  rw [getTargetVNodeCount_eq hne, Option.some.injEq] at hc
  have hmem := (sortedAllocs_perm nodes).mem_iff.mpr (List.mem_map_of_mem hx)
  have hget := get_count ((sortedAllocs_ids nodes).nodup_iff.mpr hnodup) (restCount nodes).toNat hmem
  rw [hc] at hget
  exact hget

/-- A lower score never gets fewer vnodes. -/
theorem target_anti {x y : NodeInfo} (hx : x ∈ nodes) (hy : y ∈ nodes) (hxy : effectiveScore x < effectiveScore y) :
    counts.get y.id ≤ counts.get x.id := by
  have hlt := ideal_lt hne hxy
  have hfloor := Int.floor_le_floor hlt.le
  rcases target_eq hne hnodup hc hx with ⟨hcx,hox⟩ | ⟨hcx,_⟩
  · rcases target_eq hne hnodup hc hy with ⟨hcy,_⟩ | ⟨hcy,hiy⟩
    · omega
    · -- Only one that is rounded down further can do without the extra vnode.
      have hne' : ⌊ideal (totalWeight nodes) y⌋ ≠ ⌊ideal (totalWeight nodes) x⌋ := by
        intro heq
        refine hox (mem_take_of_frac_lt hiy ((sortedAllocs_perm nodes).mem_iff.mpr (List.mem_map_of_mem hx)) ?_)
        simp only [alloc, heq]
        linarith
      omega
  · rcases target_eq hne hnodup hc hy with ⟨hcy,_⟩ | ⟨hcy,_⟩ <;> omega

end Targets

end Fair

/-- The counts are an exact and fair apportionment of the ring: they add up to it without an
index out of range, each is the exact share rounded down or one more, and a lower score
never gets fewer vnodes. -/
theorem targetCounts_fair (nodes : List NodeInfo) (hne : nodes ≠ []) (hnodup : (nodes.map NodeInfo.id).Nodup) :
    ∃ counts, getTargetVNodeCount nodes = some counts ∧ counts.sum = vnodeCount ∧
      (∀ n, n ∈ counts ↔ n ∈ nodes.map NodeInfo.id) ∧
      (∀ x ∈ nodes, counts.get x.id = ⌊ideal (totalWeight nodes) x⌋ ∨ counts.get x.id = ⌊ideal (totalWeight nodes) x⌋+1) ∧
      ∀ x ∈ nodes, ∀ y ∈ nodes, effectiveScore x < effectiveScore y → counts.get y.id ≤ counts.get x.id := by
  obtain ⟨counts,hc,hsum,hfor⟩ := getTargetVNodeCount_spec hne hnodup
  refine ⟨counts,hc,hsum,hfor.keys,fun x hx => ?_,fun x hx y hy => target_anti hne hnodup hc hx hy⟩
  exact (target_eq hne hnodup hc hx).imp And.left And.left

/-- Three nodes, one of them with a score that is not valid. -/
def sampleNodes : List NodeInfo := [⟨"a",1/2⟩,⟨"b",-1⟩,⟨"c",3⟩]

theorem targetCounts_fair_sample :
    ∃ counts, getTargetVNodeCount sampleNodes = some counts ∧ counts.sum = 1024 ∧ counts.get "c" ≤ counts.get "b" := by
  obtain ⟨counts,hc,hsum,-,-,hfair⟩ := targetCounts_fair sampleNodes (by decide) (by decide)
  refine ⟨counts,hc,hsum,hfair ⟨"b",-1⟩ (by decide) ⟨"c",3⟩ (by decide) ?_⟩
  norm_num [effectiveScore]

theorem effectiveScore_of_score (ms : List NodeMetrics) (m : NodeMetrics) :
    effectiveScore ⟨m.nodeID,score ms m⟩ = score ms m := if_neg (not_lt.mpr (score_nonneg ms m))

/-- Every node is scored, once, and has a target; a better node is scored lower and gets at
least as many vnodes, whatever the others are. -/
theorem better_never_fewer (ms : List NodeMetrics) (hnodup : (ms.map NodeMetrics.nodeID).Nodup) (i j : NodeMetrics)
    (hi : i ∈ ms) (hj : j ∈ ms) (h : i.Better j) :
    (calculateScores ms).map NodeInfo.id = ms.map NodeMetrics.nodeID ∧
    (∃ a b, ⟨i.nodeID,a⟩ ∈ calculateScores ms ∧ ⟨j.nodeID,b⟩ ∈ calculateScores ms ∧ a < b) ∧
    ∃ counts, getTargetVNodeCount (calculateScores ms) = some counts ∧ i.nodeID ∈ counts ∧ j.nodeID ∈ counts ∧
      counts.get j.nodeID ≤ counts.get i.nodeID := by
  have hlt := score_lt ms h
  have hids : ((calculateScores ms).map NodeInfo.id).Nodup := by rwa [calculateScores_ids]
  have hmem {m : NodeMetrics} (hm : m ∈ ms) : ⟨m.nodeID,score ms m⟩ ∈ calculateScores ms := List.mem_map_of_mem hm
  have hne : calculateScores ms ≠ [] := List.ne_nil_of_mem (hmem hi)
  obtain ⟨counts,hc,-,hfor⟩ := getTargetVNodeCount_spec hne hids
  have hkey {m : NodeMetrics} (hm : m ∈ ms) : m.nodeID ∈ counts := (hfor.keys _).mpr (List.mem_map_of_mem (hmem hm))
  refine ⟨calculateScores_ids ms,⟨_,_,hmem hi,hmem hj,hlt⟩,counts,hc,hkey hi,hkey hj,
    target_anti hne hids hc (hmem hi) (hmem hj) ?_⟩
  rwa [effectiveScore_of_score, effectiveScore_of_score]

theorem better_never_fewer_sample :
    let i : NodeMetrics := ⟨"a",1,8,16,100,50,1/10,1/10,1/10,1/10⟩
    let j : NodeMetrics := ⟨"b",2,4,0,100,50,1/2,1/10,1/10,99/100⟩
    (∃ a b, ⟨"a",a⟩ ∈ calculateScores [i,j] ∧ ⟨"b",b⟩ ∈ calculateScores [i,j] ∧ a < b) ∧
    ∃ counts, getTargetVNodeCount (calculateScores [i,j]) = some counts ∧ "a" ∈ counts ∧ "b" ∈ counts ∧
      counts.get "b" ≤ counts.get "a" := by
  intro i j
  have hbetter : i.Better j := by constructor <;> norm_num [i, j]
  exact (better_never_fewer [i,j] (by decide) i j (by simp) (by simp) hbetter).2

end Nawst.Cluster
