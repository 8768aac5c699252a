import Mathlib.Data.Finset.Sort
import Nawst.Lib.Machine
import Nawst.Cluster.TargetCounts

/-! Assigning primaries to vnodes: owners keep what their target allows, and what is left
goes to the nodes below their target. -/
namespace Nawst.Cluster
open Lib Lib.FiniteMap Nawst.Core

def tokenBucketSize : UInt64 := UInt64.ofNat ((2^64-1)/vnodeCount)

def initializeVNodes : List VNode :=
  (List.range vnodeCount).map (fun i => ⟨UInt16.ofNat i,UInt64.ofNat i*tokenBucketSize,"",[]⟩)

/-- The vnodes each node has; vnodes without a primary are left out. -/
def currentCounts (vs : List VNode) : Counts :=
  vs.foldl (fun m v => if v.primary ≠ "" then m.add v.primary 1 else m) ∅

/-- The owner is not among the nodes, or has more than it should. -/
def revoked (nodeCounts current : Counts) (owner : NodeID) : Bool :=
  match nodeCounts.lookup owner with
  | none => true
  | some allowed => allowed < current.get owner

structure Revoked where
  vnodes : List VNode
  orphans : List UInt16
  counts : Counts

/-- Strip surplus owners of their vnodes and collect the vnodes without a primary. -/
def revoke (nodeCounts : Counts) : List VNode → Counts → Revoked
  | [], current => ⟨[],[],current⟩
  | v::vs, current =>
    if v.primary = "" then
      let r := revoke nodeCounts vs current
      ⟨v::r.vnodes,v.id::r.orphans,r.counts⟩
    else if revoked nodeCounts current v.primary then
      let r := revoke nodeCounts vs (current.add v.primary (-1))
      ⟨{ v with primary := "" }::r.vnodes,v.id::r.orphans,r.counts⟩
    else
      let r := revoke nodeCounts vs current
      ⟨v::r.vnodes,r.orphans,r.counts⟩

/-- The nodes below their target, in order. -/
def deficitIDs (nodeCounts current : Counts) : List NodeID :=
  (nodeCounts.keys.filter (fun n => current.get n < nodeCounts.get n)).sort

/-- Ids in the order of sort.Strings. -/
def sortedIDs (ids : Finset NodeID) : List NodeID := ids.sort

theorem mem_sortedIDs {ids : Finset NodeID} {id : NodeID} : id ∈ sortedIDs ids ↔ id ∈ ids := Finset.mem_sort _

def deficits (nodeCounts current : Counts) : Counts :=
  (deficitIDs nodeCounts current).foldl (fun m n => m.insert n (nodeCounts.get n-current.get n)) ∅

section Assign
variable (hash : String → UInt64)

/-- The best of the nodes with a deficit left, by the hash of node and vnode; the empty
name stands for none. -/
def bestNode (deficit : Counts) (vnodeID : UInt16) (ids : List NodeID) : NodeID × UInt64 :=
  ids.foldl (fun best n =>
    if deficit.get n ≤ 0 then best
    else
      let score := hash (n ++ ":" ++ toString vnodeID.toNat)
      if best.1 = "" ∨ best.2 < score ∨ (score = best.2 ∧ n < best.1) then (n,score) else best) ("",0)

def assignOrphans (ids : List NodeID) : List UInt16 → List VNode → Counts → Except Err (List VNode)
  | [], vs, _ => .ok vs
  | o::os, vs, deficit =>
    let best := (bestNode hash deficit o ids).1
    if best = "" then .error "No node with remaining deficit while assigning orphaned vnode"
    else match vs[o.toNat]? with
      | none => .error "index out of range"
      | some v => assignOrphans ids os (vs.set o.toNat { v with primary := best }) (deficit.add best (-1))

def assignVNodes (vnodes : List VNode) (nodeCounts : Counts) : Except Err (List VNode) :=
  let vnodes := if vnodes.length = 0 then initializeVNodes else vnodes
  let r := revoke nodeCounts vnodes (currentCounts vnodes)
  let ids := deficitIDs nodeCounts r.counts
  let deficit := deficits nodeCounts r.counts
  if (r.orphans.length : Int) ≠ (ids.map deficit.get).sum then
    .error "Mismatch between orphaned VNodes and deficit counts"
  else assignOrphans hash ids r.orphans r.vnodes deficit

end Assign

/-- All of a vnode but its primary. -/
def VNode.bare (v : VNode) : VNode := { v with primary := "" }

/-- How many vnodes the node is primary of. -/
def owned (n : NodeID) (vs : List VNode) : Int := vs.countP (fun v => v.primary = n)

@[simp] theorem owned_nil (n : NodeID) : owned n [] = 0 := rfl

@[simp] theorem owned_cons (n : NodeID) (v : VNode) (vs : List VNode) :
    owned n (v::vs) = owned n vs+if v.primary = n then 1 else 0 := by
  unfold owned
  rw [List.countP_cons]
  by_cases h : v.primary = n <;> simp [h]

theorem owned_nonneg (n : NodeID) (vs : List VNode) : 0 ≤ owned n vs := Int.natCast_nonneg _

theorem initializeVNodes_ids : initializeVNodes.map VNode.id = ringIDs := by
  simp [initializeVNodes, ringIDs, Function.comp_def]

section Tokens

theorem initializeVNodes_getElem? {i : Nat} (hi : i < vnodeCount) :
    initializeVNodes[i]? = some ⟨UInt16.ofNat i,UInt64.ofNat i*tokenBucketSize,"",[]⟩ := by
  simp [initializeVNodes, List.getElem?_range hi]

/-- A bucket is one short of a 1024th of the key space. -/
private theorem token_toNat {i : Nat} (hi : i < vnodeCount) : (UInt64.ofNat i*tokenBucketSize).toNat = i*(2^54-1) := by
  have hbucket : tokenBucketSize.toNat = 2^54-1 := by decide
  unfold vnodeCount at hi
  rw [UInt64.toNat_mul, hbucket, UInt64.toNat_ofNat', Nat.mod_eq_of_lt (a := i) (by omega), Nat.mod_eq_of_lt (by omega)]

/-- The lookup scales a hash by exactly a 1024th. -/
private theorem vnodeIdx_eq (h : UInt64) : vnodeIdx h = h.toNat/2^54 := by
  unfold vnodeIdx vnodeCount
  omega

/-- The token of the vnode that a hash is looked up in is never above the hash; the next
one is above it exactly if the hash is in the last 1024th of the key space or not among the
last ones, as many as the index of the next vnode, before the end of its 1024th. -/
theorem tokens_bound_lookup_iff (h : UInt64) :
    ((∃ v, initializeVNodes[vnodeIdx h]? = some v ∧ v.token ≤ h) ∧
      (vnodeIdx h < vnodeCount-1 → ∃ next, initializeVNodes[vnodeIdx h+1]? = some next ∧ h < next.token)) ↔
    1023*2^54 ≤ h.toNat ∨ h.toNat%2^54+h.toNat/2^54+1 < 2^54 := by
  have hlt := vnodeIdx_lt h
  have hidx := vnodeIdx_eq h
  have hfirst : ∃ v, initializeVNodes[vnodeIdx h]? = some v ∧ v.token ≤ h := by
    refine ⟨_,initializeVNodes_getElem? hlt,?_⟩
    rw [UInt64.le_iff_toNat_le, token_toNat hlt]
    omega
  have hnext (hi : vnodeIdx h < vnodeCount-1) :
      (∃ next, initializeVNodes[vnodeIdx h+1]? = some next ∧ h < next.token) ↔ h.toNat%2^54+h.toNat/2^54+1 < 2^54 := by
    have hlt : vnodeIdx h+1 < vnodeCount := by omega
    rw [initializeVNodes_getElem? hlt]
    simp only [Option.some.injEq, exists_eq_left']
    rw [UInt64.lt_iff_toNat_lt, token_toNat hlt]
    omega
  have hlast : vnodeIdx h < vnodeCount-1 ↔ ¬ 1023*2^54 ≤ h.toNat := by
    unfold vnodeCount
    omega
  rw [and_iff_right hfirst, forall_congr' hnext, hlast, or_iff_not_imp_left]

/-- The last hash of the first 1024th is the token of the second vnode. -/
theorem token_above_lookup :
    let h : UInt64 := UInt64.ofNat (2^54-1)
    vnodeIdx h = 0 ∧ initializeVNodes[1]?.map VNode.token = some h := by
  refine ⟨by decide,?_⟩
  rw [initializeVNodes_getElem? (by decide)]
  decide

end Tokens

/-- Assigning starts from a ring. -/
theorem start_ids {vnodes : List VNode} (hring : vnodes = [] ∨ vnodes.map VNode.id = ringIDs) :
    (if vnodes.length = 0 then initializeVNodes else vnodes).map VNode.id = ringIDs := by
  split
  · exact initializeVNodes_ids
  · rename_i h
    exact hring.resolve_left (fun he => h (by simp [he]))

private theorem get_currentCounts_from {n : NodeID} (hn : n ≠ "") (vs : List VNode) (m : Counts) :
    (vs.foldl (fun m v => if v.primary ≠ "" then m.add v.primary 1 else m) m).get n = m.get n+owned n vs := by
  induction vs generalizing m with
  | nil => simp
  | cons v vs ih =>
    rw [List.foldl_cons, ih, owned_cons]
    by_cases hv : v.primary = ""
    · have hne : ¬ v.primary = n := fun h => hn (h ▸ hv)
      simp [hv, hn.symm]
    · by_cases h : n = v.primary
      · subst h
        simp [hv]
        omega
      · simp [hv, h, Ne.symm h]

theorem get_currentCounts {n : NodeID} (hn : n ≠ "") (vs : List VNode) : (currentCounts vs).get n = owned n vs := by
  rw [currentCounts, get_currentCounts_from hn]
  simp [Counts.get]

section Revoke
variable (nodeCounts : Counts)

/-- Only primaries change. -/
theorem revoke_bare (vs : List VNode) (current : Counts) :
    (revoke nodeCounts vs current).vnodes.map VNode.bare = vs.map VNode.bare := by
  induction vs generalizing current with
  | nil => rfl
  | cons v vs ih =>
    unfold revoke
    split
    · simp [ih]
    · split
      · simp [ih, VNode.bare]
      · simp [ih]

/-- The orphans are the vnodes that are left without a primary. -/
theorem revoke_orphans (vs : List VNode) (current : Counts) :
    (revoke nodeCounts vs current).orphans =
      ((revoke nodeCounts vs current).vnodes.filter (fun v => v.primary = "")).map VNode.id := by
  induction vs generalizing current with
  | nil => rfl
  | cons v vs ih =>
    unfold revoke
    split
    · rename_i h
      simp [h, ← ih]
    · rename_i h
      split
      · simp [← ih]
      · simp [h, ← ih]

/-- The counts follow what is stripped. -/
theorem revoke_counts {n : NodeID} (hn : n ≠ "") (vs : List VNode) (current : Counts) :
    (revoke nodeCounts vs current).counts.get n-owned n (revoke nodeCounts vs current).vnodes =
      current.get n-owned n vs := by
  induction vs generalizing current with
  | nil => rfl
  | cons v vs ih =>
    unfold revoke
    split
    · rename_i h
      have hne : ¬ v.primary = n := fun h' => hn (h' ▸ h)
      simp only [owned_cons, if_neg hne]
      have := ih current
      omega
    · split
      · have := ih (current.add v.primary (-1))
        rw [Counts.get_add] at this
        by_cases h : n = v.primary
        · subst h
          simp only [owned_cons, if_true, if_neg hn.symm] at this ⊢
          omega
        · simp only [owned_cons, if_neg h, if_neg (Ne.symm h), if_neg hn.symm] at this ⊢
          omega
      · have := ih current
        simp only [owned_cons]
        omega

/-- A node that keeps a vnode is among the nodes. -/
theorem revoke_mem (vs : List VNode) (current : Counts) :
    ∀ v ∈ (revoke nodeCounts vs current).vnodes, v.primary = "" ∨ v.primary ∈ nodeCounts := by
  induction vs generalizing current with
  | nil => simp [revoke]
  | cons v vs ih =>
    unfold revoke
    split
    · rename_i h
      exact List.forall_mem_cons.mpr ⟨.inl h,ih current⟩
    · split
      · exact List.forall_mem_cons.mpr ⟨.inl rfl,ih _⟩
      · rename_i h
        refine List.forall_mem_cons.mpr ⟨.inr ?_,ih current⟩
        rw [revoked] at h
        split at h
        · simp at h
        · rename_i allowed hl
          exact Finmap.mem_of_lookup_eq_some hl

/-- Nobody is left with more than the target allows. -/
theorem revoke_le {n : NodeID} (hn : n ≠ "") {allowed : Int} (hl : nodeCounts.lookup n = some allowed) (vs : List VNode)
    (current : Counts) :
    (revoke nodeCounts vs current).counts.get n ≤ max allowed (current.get n-owned n vs) := by
  induction vs generalizing current with
  | nil => simp [revoke]
  | cons v vs ih =>
    unfold revoke
    rw [owned_cons]
    split
    · rename_i h
      have hne : ¬ v.primary = n := fun h' => hn (h' ▸ h)
      simp only [if_neg hne, Int.add_zero]
      exact ih current
    · split
      · have := ih (current.add v.primary (-1))
        rw [Counts.get_add] at this
        by_cases h : n = v.primary
        · subst h
          simp only [if_true] at this ⊢
          omega
        · simp only [if_neg h, if_neg (Ne.symm h)] at this ⊢
          omega
      · rename_i hr
        have := ih current
        by_cases h : v.primary = n
        · -- The owner is within its target, and what it has only goes down.
          subst h
          simp only [revoked, hl, decide_eq_true_eq, not_lt] at hr
          have hpos := owned_nonneg v.primary vs
          simp only [if_true]
          omega
        · simp only [if_neg h]
          omega

end Revoke

section Deficits
variable (nodeCounts current : Counts)

theorem mem_deficitIDs {n : NodeID} :
    n ∈ deficitIDs nodeCounts current ↔ n ∈ nodeCounts ∧ current.get n < nodeCounts.get n := by
  simp [deficitIDs, Finmap.mem_keys]

private theorem get_insertAll (f : NodeID → Int) (ids : List NodeID) (m : Counts) (n : NodeID) :
    (ids.foldl (fun m n => m.insert n (f n)) m).get n = if n ∈ ids then f n else m.get n := by
  induction ids generalizing m with
  | nil => simp
  | cons k ids ih =>
    rw [List.foldl_cons, ih]
    unfold Counts.get
    rw [lookup_insert_ite]
    by_cases hk : n = k
    · subst hk
      simp
    · simp [hk]

theorem get_deficits {n : NodeID} (h : n ∈ deficitIDs nodeCounts current) :
    (deficits nodeCounts current).get n = nodeCounts.get n-current.get n := by
  rw [deficits, get_insertAll, if_pos h]

theorem Counts.sum_eq (m : Counts) : m.sum = ∑ n ∈ m.keys, m.get n :=
  Finset.sum_congr rfl (fun n _ => Counts.weight_id m n)

/-- The deficits add up to what the targets are above the present counts. -/
theorem sum_deficits (h : ∀ n ∈ nodeCounts.keys, current.get n ≤ nodeCounts.get n) :
    ((deficitIDs nodeCounts current).map (deficits nodeCounts current).get).sum =
      nodeCounts.sum-∑ n ∈ nodeCounts.keys, current.get n := by
  have hmap : (deficitIDs nodeCounts current).map (deficits nodeCounts current).get =
      (deficitIDs nodeCounts current).map (fun n => nodeCounts.get n-current.get n) :=
    List.map_congr_left (fun n hn => get_deficits nodeCounts current hn)
  have hsort (s : Finset NodeID) (f : NodeID → Int) : (s.sort.map f).sum = ∑ n ∈ s, f n := by
    rw [Finset.sum, ← Finset.sort_eq s (· ≤ ·), Multiset.map_coe, Multiset.sum_coe]
  rw [hmap, deficitIDs, hsort, Finset.sum_filter_of_ne, Finset.sum_sub_distrib, Counts.sum_eq]
  intro n hn hne
  have := h n hn
  omega

/-- Vnodes with a primary among some nodes, counted node by node. -/
theorem sum_owned {ns : Finset NodeID} (hns : "" ∉ ns) {vs : List VNode} (h : ∀ v ∈ vs, v.primary = "" ∨ v.primary ∈ ns) :
    ∑ n ∈ ns, owned n vs = vs.length-(vs.filter (fun v => v.primary = "")).length := by
  induction vs with
  | nil => simp
  | cons v vs ih =>
    obtain ⟨hv,hvs⟩ := List.forall_mem_cons.mp h
    simp only [owned_cons, Finset.sum_add_distrib, ih hvs, Finset.sum_ite_eq]
    by_cases hp : v.primary = ""
    · simp [hp, hns]
    · simp [hp, hv.resolve_left hp]
      omega

end Deficits

section Best
variable (hash : String → UInt64) {deficit : Counts} {ids : List NodeID}

/-- The scan keeps a node with a deficit once there is one. -/
private theorem best_from (vnodeID : UInt16) (hids : ∀ n ∈ ids, n ≠ "") (best : NodeID × UInt64)
    (hsome : best.1 ≠ "" ∨ ∃ n ∈ ids, 0 < deficit.get n) :
    let r := ids.foldl (fun best n =>
      if deficit.get n ≤ 0 then best
      else
        let score := hash (n ++ ":" ++ toString vnodeID.toNat)
        if best.1 = "" ∨ best.2 < score ∨ (score = best.2 ∧ n < best.1) then (n,score) else best) best
    r.1 ≠ "" ∧ (r.1 = best.1 ∨ (r.1 ∈ ids ∧ 0 < deficit.get r.1)) := by
  induction ids generalizing best with
  | nil => simpa using hsome
  | cons n ids ih =>
    obtain ⟨hn,hids⟩ := List.forall_mem_cons.mp hids
    rw [List.foldl_cons]
    by_cases hd : deficit.get n ≤ 0
    · have hrest : best.1 ≠ "" ∨ ∃ k ∈ ids, 0 < deficit.get k := by
        refine hsome.imp id (fun ⟨k,hk,hpos⟩ => ?_)
        rcases List.mem_cons.mp hk with rfl | hk
        · omega
        · exact ⟨k,hk,hpos⟩
      obtain ⟨hne,hr⟩ := ih hids best hrest
      simp only [if_pos hd]
      exact ⟨hne,hr.imp id (fun h => ⟨List.mem_cons_of_mem _ h.1,h.2⟩)⟩
    · simp only [if_neg hd]
      split
      · obtain ⟨hne,hr⟩ := ih hids (n,_) (.inl hn)
        refine ⟨hne,.inr ?_⟩
        rcases hr with hr | hr
        · rw [hr]
          exact ⟨List.mem_cons_self,Int.not_le.mp hd⟩
        · exact ⟨List.mem_cons_of_mem _ hr.1,hr.2⟩
      · rename_i hbest
        obtain ⟨hne,hr⟩ := ih hids best (.inl (fun h => hbest (.inl h)))
        exact ⟨hne,hr.imp id (fun h => ⟨List.mem_cons_of_mem _ h.1,h.2⟩)⟩

/-- While there is a deficit, some node is found for it. -/
theorem bestNode_spec (vnodeID : UInt16) (hids : ∀ n ∈ ids, n ≠ "") (h : ∃ n ∈ ids, 0 < deficit.get n) :
    (bestNode hash deficit vnodeID ids).1 ≠ "" ∧ (bestNode hash deficit vnodeID ids).1 ∈ ids ∧
      0 < deficit.get (bestNode hash deficit vnodeID ids).1 := by
  obtain ⟨hne,hr⟩ := best_from hash vnodeID hids ("",0) (.inr h)
  exact ⟨hne,hr.resolve_left hne⟩

end Best

section Orphans
variable (hash : String → UInt64) {ids : List NodeID} {ns : Finset NodeID}

/-- In a ring a vnode is found at the index of its id. -/
theorem ring_getElem?_id {vs : List VNode} (h : vs.map VNode.id = ringIDs) {v : VNode} (hv : v ∈ vs) :
    vs[v.id.toNat]? = some v := by
  obtain ⟨i,hi⟩ := List.mem_iff_getElem?.mp hv
  obtain ⟨hlt,hid⟩ := ring_id h hi
  rwa [hid, toNat_vnodeID hlt]

private theorem map_set_of_eq {α β : Type} (f : α → β) {l : List α} {i : Nat} {a b : α} (hi : l[i]? = some a) (hf : f b = f a) :
    (l.set i b).map f = l.map f := by
  rw [List.map_set, hf]
  refine List.ext_getElem? (fun j => ?_)
  rw [List.getElem?_set]
  split
  · rename_i h
    subst h
    obtain ⟨hlt,rfl⟩ := List.getElem?_eq_some_iff.mp hi
    simp [hlt]
  · rfl

private theorem exists_pos_of_sum (f : NodeID → Int) (ids : List NodeID) (h : 0 < (ids.map f).sum) : ∃ n ∈ ids, 0 < f n := by
  exact List.exists_lt_of_sum_lt (fun _ => 0) f (by simpa using h)

private theorem sum_get_add {ids : List NodeID} (hnodup : ids.Nodup) (m : Counts) {n : NodeID} (hn : n ∈ ids) (d : Int) :
    (ids.map (m.add n d).get).sum = (ids.map m.get).sum+d := by
  induction ids with
  | nil => cases hn
  | cons k ids ih =>
    obtain ⟨hk,hnodup⟩ := List.nodup_cons.mp hnodup
    simp only [List.map_cons, List.sum_cons, Counts.get_add]
    rcases List.mem_cons.mp hn with rfl | hn
    · have hrest : ids.map (m.add n d).get = ids.map m.get := by
        refine List.map_congr_left (fun j hj => ?_)
        rw [Counts.get_add, if_neg (fun h : j = n => hk (h ▸ hj))]
      simp only [if_true, ← hrest]
      omega
    · rw [if_neg (fun h : k = n => hk (h ▸ hn)), ih hnodup hn]
      omega

/-- The vnodes to be given a primary: each once, and without one. -/
structure Orphaned (vs : List VNode) (os : List UInt16) : Prop where
  ring : vs.map VNode.id = ringIDs
  nodup : os.Nodup
  blank : ∀ o ∈ os, ∃ v, vs[o.toNat]? = some v ∧ v.primary = ""

/-- How the orphans are given out: only they change, each goes to one of the nodes, and the
nodes get what they lack. -/
structure Filled (ids : List NodeID) (os : List UInt16) (deficit : Counts) (vs vs' : List VNode) : Prop where
  bare : vs'.map VNode.bare = vs.map VNode.bare
  place : ∀ (i : Nat) (v' : VNode), vs'[i]? = some v' → vs[i]? = some v' ∧ UInt16.ofNat i ∉ os ∨ UInt16.ofNat i ∈ os ∧ v'.primary ∈ ids
  count : ∀ n ≠ "", owned n vs' = owned n vs+if n ∈ ids then deficit.get n else 0

private theorem Orphaned.give {v : VNode} {vs : List VNode} {o : UInt16} {os : List UInt16} (h : Orphaned vs (o::os))
    (hv : vs[o.toNat]? = some v) (best : NodeID) : Orphaned (vs.set o.toNat { v with primary := best }) os where
  ring := (map_set_of_eq VNode.id (b := { v with primary := best }) hv rfl).trans h.ring
  nodup := (List.nodup_cons.mp h.nodup).2
  blank p hp := by
    have hne : o.toNat ≠ p.toNat := fun heq => (List.nodup_cons.mp h.nodup).1 (UInt16.toNat_inj.mp heq ▸ hp)
    rw [List.getElem?_set_ne hne]
    exact h.blank p (List.mem_cons_of_mem _ hp)

private theorem owned_give {v : VNode} {vs : List VNode} {i : Nat} (hv : vs[i]? = some v) (hblank : v.primary = "") {best n : NodeID}
    (hn : n ≠ "") : owned n (vs.set i { v with primary := best }) = owned n vs+if best = n then 1 else 0 := by
  induction vs generalizing i with
  | nil => simp at hv
  | cons w vs ih =>
    cases i with
    | zero =>
      obtain rfl : w = v := by simpa using hv
      simp [hblank, hn.symm]
    | succ i =>
      rw [List.set_cons_succ, owned_cons, owned_cons, ih (by simpa using hv)]
      omega

/-- With as many deficits as orphans every orphan finds a primary, and no index is out
of range. -/
theorem assignOrphans_spec (hids : ∀ n ∈ ids, n ≠ "") (hnodup : ids.Nodup) {os : List UInt16} {vs : List VNode}
    {deficit : Counts} (h : Orphaned vs os) (hpos : ∀ n ∈ ids, 0 ≤ deficit.get n) (hsum : (ids.map deficit.get).sum = os.length) :
    ∃ vs', assignOrphans hash ids os vs deficit = .ok vs' ∧ Filled ids os deficit vs vs' := by
  induction os generalizing vs deficit with
  | nil =>
    have hzero : ∀ n ∈ ids, deficit.get n = 0 := by
      intro n hn
      have hle := List.single_le_sum (l := ids.map deficit.get) (by simpa using hpos) _ (List.mem_map_of_mem hn)
      have := hpos n hn
      rw [hsum, List.length_nil] at hle
      omega
    refine ⟨vs,rfl,rfl,fun i v hi => .inl ⟨hi,by simp⟩,fun n _ => ?_⟩
    split
    · rename_i hmem
      simp [hzero n hmem]
    · simp
  | cons o os ih =>
    obtain ⟨hne,hmem,hlack⟩ := bestNode_spec hash o hids
      (exists_pos_of_sum deficit.get ids (by rw [hsum]; simp))
    obtain ⟨v,hv,hblank⟩ := h.blank o List.mem_cons_self
    obtain ⟨best,hbest⟩ : ∃ best, (bestNode hash deficit o ids).1 = best := ⟨_,rfl⟩
    rw [hbest] at hne hmem hlack
    have hpos' : ∀ n ∈ ids, 0 ≤ (deficit.add best (-1)).get n := by
      intro n hn
      have := hpos n hn
      rw [Counts.get_add]
      split <;> omega
    have hsum' : (ids.map (deficit.add best (-1)).get).sum = os.length := by
      rw [sum_get_add hnodup deficit hmem, hsum, List.length_cons]
      omega
    obtain ⟨vs',hok,hfilled⟩ := ih (h.give hv best) hpos' hsum'
    refine ⟨vs',?_,hfilled.bare.trans (map_set_of_eq VNode.bare hv rfl),fun i v' hi => ?_,fun n hn => ?_⟩
    · simp only [assignOrphans, hbest, if_neg hne, hv]
      exact hok
    · rcases hfilled.place i v' hi with ⟨hset,hout⟩ | ⟨hin,hp⟩
      · rcases Machine.getElem?_set_cases hset with ⟨rfl,rfl⟩ | ⟨hio,hi'⟩
        · exact .inr ⟨by simp,hmem⟩
        · refine .inl ⟨hi',fun hmem' => (List.mem_cons.mp hmem').elim (fun heq => hio ?_) hout⟩
          rw [← heq, toNat_vnodeID (ring_id h.ring hi').1]
      · exact .inr ⟨List.mem_cons_of_mem _ hin,hp⟩
    · rw [hfilled.count n hn, owned_give hv hblank hn, Counts.get_add]
      by_cases hbn : best = n
      · subst hbn
        simp [hmem]
        omega
      · simp [hbn, Ne.symm hbn]

end Orphans

section Settled
variable {nodeCounts : Counts} {r : Revoked}

/-- What revoking surplus vnodes leaves: owners among the nodes, within their targets. -/
structure Settled (nodeCounts : Counts) (r : Revoked) : Prop where
  ids : r.vnodes.map VNode.id = ringIDs
  orphans : r.orphans = (r.vnodes.filter (fun v => v.primary = "")).map VNode.id
  kept : ∀ v ∈ r.vnodes, v.primary = "" ∨ v.primary ∈ nodeCounts.keys
  count : ∀ n ∈ nodeCounts.keys, r.counts.get n = owned n r.vnodes
  le : ∀ n ∈ nodeCounts.keys, r.counts.get n ≤ nodeCounts.get n

theorem revoke_settled {vs : List VNode} (hring : vs.map VNode.id = ringIDs) (hempty : "" ∉ nodeCounts.keys)
    (hnonneg : ∀ n, 0 ≤ nodeCounts.get n) : Settled nodeCounts (revoke nodeCounts vs (currentCounts vs)) where
  ids := by
    have hbare := congrArg (List.map VNode.id) (revoke_bare nodeCounts vs (currentCounts vs))
    simp only [List.map_map] at hbare
    exact hbare.trans hring
  orphans := revoke_orphans nodeCounts vs _
  kept v hv := (revoke_mem nodeCounts vs _ v hv).imp id Finmap.mem_keys.mpr
  count n hn := by
    have hne : n ≠ "" := fun h => hempty (h ▸ hn)
    have := revoke_counts nodeCounts hne vs (currentCounts vs)
    rw [get_currentCounts hne] at this
    omega
  le n hn := by
    have hne : n ≠ "" := fun h => hempty (h ▸ hn)
    obtain ⟨allowed,hl⟩ := Finmap.mem_iff.mp (Finmap.mem_keys.mp hn)
    have hget : nodeCounts.get n = allowed := by simp [Counts.get, hl]
    have hle := revoke_le nodeCounts hne hl vs (currentCounts vs)
    have hpos := hnonneg n
    rw [get_currentCounts hne] at hle
    omega

/-- There are as many orphans as deficits. -/
theorem Settled.balanced (h : Settled nodeCounts r) (hempty : "" ∉ nodeCounts.keys) (hsum : nodeCounts.sum = vnodeCount) :
    ((deficitIDs nodeCounts r.counts).map (deficits nodeCounts r.counts).get).sum = r.orphans.length := by
  rw [sum_deficits _ _ h.le, Finset.sum_congr rfl h.count, sum_owned hempty h.kept, hsum, ring_length h.ids, h.orphans, List.length_map]
  omega

/-- The orphans are the vnodes at their ids without a primary. -/
theorem Settled.orphaned (h : Settled nodeCounts r) : Orphaned r.vnodes r.orphans where
  ring := h.ids
  nodup := by
    have hsub : r.orphans.Sublist ringIDs := by
      rw [h.orphans, ← h.ids]
      exact List.filter_sublist.map _
    exact hsub.nodup ringIDs_nodup
  blank o ho := by
    rw [h.orphans] at ho
    obtain ⟨v,hv,rfl⟩ := List.mem_map.mp ho
    obtain ⟨hv,hblank⟩ := List.mem_filter.mp hv
    exact ⟨v,ring_getElem?_id h.ids hv,by simpa using hblank⟩

/-- Vnodes keep a primary among the nodes or are given one. -/
theorem Settled.primary_mem (h : Settled nodeCounts r) {deficit : Counts} {vs : List VNode}
    (hf : Filled (deficitIDs nodeCounts r.counts) r.orphans deficit r.vnodes vs) : ∀ v ∈ vs, v.primary ∈ nodeCounts.keys := by
  intro v hv
  obtain ⟨i,hi⟩ := List.mem_iff_getElem?.mp hv
  rcases hf.place i v hi with ⟨hr,ho⟩ | ⟨_,hp⟩
  · have hmem := List.mem_of_getElem? hr
    refine (h.kept v hmem).resolve_left (fun hp => ho ?_)
    rw [← (ring_id h.ids hr).2, h.orphans]
    exact List.mem_map_of_mem (List.mem_filter.mpr ⟨hmem,by simpa using hp⟩)
  · exact Finmap.mem_keys.mpr ((mem_deficitIDs _ _).mp hp).1

end Settled

/-- Targets that add up to the ring are met without a panic: what the surplus owners have to
give up goes to the nodes below their target, and nothing else changes. -/
theorem assignVNodes_filled (hash : String → UInt64) {vnodes start : List VNode} {nodeCounts : Counts}
    (hstart : start = if vnodes.length = 0 then initializeVNodes else vnodes) (hring : start.map VNode.id = ringIDs)
    (hsum : nodeCounts.sum = vnodeCount) (hempty : "" ∉ nodeCounts.keys) (hnonneg : ∀ n, 0 ≤ nodeCounts.get n) :
    let r := revoke nodeCounts start (currentCounts start)
    Settled nodeCounts r ∧ ∃ vs, assignVNodes hash vnodes nodeCounts = .ok vs ∧
      Filled (deficitIDs nodeCounts r.counts) r.orphans (deficits nodeCounts r.counts) r.vnodes vs := by
  intro r
  have hsettled : Settled nodeCounts r := revoke_settled hring hempty hnonneg
  have hbalanced := hsettled.balanced hempty hsum
  have hids : ∀ n ∈ deficitIDs nodeCounts r.counts, n ≠ "" :=
    fun n hn h => hempty (h ▸ Finmap.mem_keys.mpr ((mem_deficitIDs _ _).mp hn).1)
  have hpos : ∀ n ∈ deficitIDs nodeCounts r.counts, 0 ≤ (deficits nodeCounts r.counts).get n := by
    intro n hn
    rw [get_deficits _ _ hn]
    exact Int.sub_nonneg_of_le (Int.le_of_lt ((mem_deficitIDs _ _).mp hn).2)
  obtain ⟨vs,hok,hfilled⟩ := assignOrphans_spec hash hids (Finset.sort_nodup _ _) hsettled.orphaned hpos hbalanced
  refine ⟨hsettled,vs,?_,hfilled⟩
  simp only [assignVNodes, ← hstart]
  rw [if_neg (not_not.mpr hbalanced.symm)]
  exact hok

end Nawst.Cluster
