import Nawst.Lib.Apportion
import Nawst.Cluster.Update

/-! Assigning primaries gives every node exactly its target, and no other way of doing so
changes fewer vnodes. -/
namespace Nawst.Cluster
open Lib Lib.FiniteMap Lib.Apportion Nawst.Core Update

/-- The nodes that are primary of some vnode. -/
def owners (vs : List VNode) : Finset NodeID := (vs.map VNode.primary).toFinset.erase ""

/-- The vnodes without a primary, and what the owners have above their targets. -/
def requiredMoves (nodeCounts : Counts) (vs : List VNode) : Int :=
  owned "" vs+∑ n ∈ owners vs, max 0 (owned n vs-nodeCounts.get n)

/-- Every node has its target, and no other node has a vnode. -/
structure OnTarget (nodeCounts : Counts) (vs : List VNode) : Prop where
  count : ∀ n ∈ nodeCounts.keys, owned n vs = nodeCounts.get n
  only : ∀ v ∈ vs, v.primary ∈ nodeCounts.keys

theorem owned_eq_zero {n : NodeID} {vs : List VNode} (h : ∀ v ∈ vs, v.primary ≠ n) : owned n vs = 0 := by
  unfold owned
  rw [List.countP_eq_zero.mpr (by simpa using h)]
  rfl

theorem OnTarget.owned_eq {nodeCounts : Counts} {vs : List VNode} (h : OnTarget nodeCounts vs) (n : NodeID) :
    owned n vs = nodeCounts.get n := by
  by_cases hn : n ∈ nodeCounts.keys
  · exact h.count n hn
  · have hzero : nodeCounts.get n = 0 := by
      rw [Finmap.mem_keys, ← Finmap.lookup_eq_none] at hn
      simp [Counts.get, hn]
    rw [hzero]
    exact owned_eq_zero (fun v hv he => hn (he ▸ h.only v hv))

section Pairs
variable {old new : List VNode}

/-- Owners before and after, vnode by vnode. -/
def ownerPairs (old new : List VNode) : List (NodeID × NodeID) := (old.zip new).map (fun p => (p.1.primary,p.2.primary))

theorem moved_ownerPairs (old new : List VNode) : moved (ownerPairs old new) = movedPrimaryCount (old.zip new) := by
  unfold moved ownerPairs movedPrimaryCount
  rw [List.countP_map]
  rfl

theorem exists_of_mem_ownerPairs {p : NodeID × NodeID} (hp : p ∈ ownerPairs old new) :
    ∃ (i : Nat) (v v' : VNode), old[i]? = some v ∧ new[i]? = some v' ∧ p = (v.primary,v'.primary) := by
  obtain ⟨⟨v,v'⟩,hmem,rfl⟩ := List.mem_map.mp hp
  obtain ⟨i,hi⟩ := List.mem_iff_getElem?.mp hmem
  obtain ⟨hv,hv'⟩ := List.getElem?_zip_eq_some.mp hi
  exact ⟨i,v,v',hv,hv',rfl⟩

theorem owner_mem {p : NodeID × NodeID} (hp : p ∈ ownerPairs old new) : p.1 = "" ∨ p.1 ∈ owners old := by
  obtain ⟨i,v,v',hv,_,rfl⟩ := exists_of_mem_ownerPairs hp
  by_cases hb : v.primary = ""
  · exact .inl hb
  · refine .inr (Finset.mem_erase.mpr ⟨hb,List.mem_toFinset.mpr ?_⟩)
    exact List.mem_map_of_mem (List.mem_of_getElem? hv)

theorem OnTarget.named {nodeCounts : Counts} (h : OnTarget nodeCounts new) (hempty : "" ∉ nodeCounts.keys)
    {p : NodeID × NodeID} (hp : p ∈ ownerPairs old new) : p.2 ≠ "" := by
  obtain ⟨i,v,v',_,hv',rfl⟩ := exists_of_mem_ownerPairs hp
  exact fun he => hempty (he ▸ h.only v' (List.mem_of_getElem? hv'))

variable (hlen : old.length = new.length)
include hlen

theorem held_ownerPairs (n : NodeID) : held n (ownerPairs old new) = owned n old := by
  have hold := List.map_fst_zip hlen.le
  unfold held ownerPairs owned
  rw [List.countP_map]
  conv_rhs => rw [← hold, List.countP_map]
  rfl

theorem given_ownerPairs (n : NodeID) : given n (ownerPairs old new) = owned n new := by
  have hnew := List.map_snd_zip hlen.ge
  unfold given ownerPairs owned
  rw [List.countP_map]
  conv_rhs => rw [← hnew, List.countP_map]
  rfl

end Pairs

section Moves
variable {nodeCounts : Counts} {old new : List VNode} (hlen : old.length = new.length) (h : OnTarget nodeCounts new)
include hlen h

private theorem required_eq :
    requiredMoves nodeCounts old = held "" (ownerPairs old new)+
      ∑ n ∈ owners old, max 0 (held n (ownerPairs old new)-given n (ownerPairs old new)) := by
  simp only [held_ownerPairs hlen, given_ownerPairs hlen, h.owned_eq]
  rfl

variable (hempty : "" ∉ nodeCounts.keys)
include hempty

/-- Whoever assigns the primaries, so many vnodes change at least. -/
theorem requiredMoves_le : requiredMoves nodeCounts old ≤ movedPrimaryCount (old.zip new) := by
  rw [required_eq hlen h, ← moved_ownerPairs]
  exact required_le_moved "" (by simp [owners]) (fun p hp => owner_mem hp) (fun p hp => h.named hempty hp)

/-- No more change when no node both loses and gains a vnode. -/
theorem moved_eq_requiredMoves
    (hkeep : ∀ n ≠ "", (∀ p ∈ ownerPairs old new, p.1 = n → p.2 = n) ∨ ∀ p ∈ ownerPairs old new, p.2 = n → p.1 = n) :
    (movedPrimaryCount (old.zip new) : Int) = requiredMoves nodeCounts old := by
  rw [required_eq hlen h, ← moved_ownerPairs]
  refine moved_eq_required "" (by simp [owners]) (fun p hp => owner_mem hp) (fun p hp => h.named hempty hp) (fun n hn => ?_)
  exact (hkeep n (Finset.ne_of_mem_erase hn)).imp kept_eq_held kept_eq_given

end Moves

section Revoke
variable (nodeCounts : Counts)

/-- Nobody is left with less than the target by what is revoked. -/
theorem revoke_ge {n : NodeID} {allowed : Int} (hl : nodeCounts.lookup n = some allowed) (vs : List VNode) {current : Counts}
    (h : allowed ≤ current.get n) : allowed ≤ (revoke nodeCounts vs current).counts.get n := by
  induction vs generalizing current with
  | nil => exact h
  | cons v vs ih =>
    unfold revoke
    split
    · exact ih h
    · split
      · rename_i hr
        refine ih ?_
        rw [Counts.get_add]
        split
        · rename_i hn
          subst hn
          simp only [revoked, hl, decide_eq_true_eq] at hr
          omega
        · exact h
      · exact ih h

/-- A vnode stays as it is, or is stripped of an owner that has no deficit afterwards. -/
theorem revoke_place (vs : List VNode) (current : Counts) {i : Nat} {v' : VNode}
    (hi : (revoke nodeCounts vs current).vnodes[i]? = some v') :
    ∃ v, vs[i]? = some v ∧ (v' = v ∨ v'.primary = "" ∧ v.primary ∉ deficitIDs nodeCounts (revoke nodeCounts vs current).counts) := by
  induction vs generalizing current i with
  | nil => simp [revoke] at hi
  | cons v vs ih =>
    unfold revoke at hi ⊢
    split at hi
    · rename_i hb
      rw [if_pos hb]
      cases i with
      | zero => exact ⟨v,rfl,.inl (by simpa using hi.symm)⟩
      | succ i => exact ih current (by simpa using hi)
    · rename_i hb
      rw [if_neg hb]
      split at hi
      · rename_i hr
        rw [if_pos hr]
        cases i with
        | zero =>
          obtain rfl : { v with primary := "" } = v' := by simpa using hi
          refine ⟨v,rfl,.inr ⟨rfl,fun hmem => ?_⟩⟩
          obtain ⟨hin,hlt⟩ := (mem_deficitIDs _ _).mp hmem
          obtain ⟨allowed,hl⟩ := Finmap.mem_iff.mp hin
          simp only [revoked, hl, decide_eq_true_eq] at hr
          have hle : allowed ≤ (current.add v.primary (-1)).get v.primary := by
            rw [Counts.get_add, if_pos rfl]
            omega
          have hge := revoke_ge nodeCounts hl vs hle
          have hget : nodeCounts.get v.primary = allowed := by simp [Counts.get, hl]
          rw [hget] at hlt
          exact Int.not_lt.mpr hge hlt
        | succ i => exact ih _ (by simpa using hi)
      · rename_i hr
        rw [if_neg hr]
        cases i with
        | zero => exact ⟨v,rfl,.inl (by simpa using hi.symm)⟩
        | succ i => exact ih current (by simpa using hi)

end Revoke

section Settled
variable {nodeCounts : Counts} {r : Revoked} {old vs : List VNode} (hempty : "" ∉ nodeCounts.keys) (h : Settled nodeCounts r)
  (hf : Filled (deficitIDs nodeCounts r.counts) r.orphans (deficits nodeCounts r.counts) r.vnodes vs)

include hempty h hf in
/-- Filling the deficits brings every node to its target. -/
theorem Settled.onTarget : OnTarget nodeCounts vs where
  count n hn := by
    have hcount := h.count n hn
    have hle := h.le n hn
    rw [hf.count n (fun he => hempty (he ▸ hn))]
    split
    · rename_i hmem
      rw [get_deficits _ _ hmem]
      omega
    · rename_i hmem
      have hge : ¬ r.counts.get n < nodeCounts.get n :=
        fun hlt => hmem ((mem_deficitIDs _ _).mpr ⟨Finmap.mem_keys.mp hn,hlt⟩)
      omega
  only := h.primary_mem hf

include h hf in
theorem Settled.index_lt {i : Nat} {v : VNode} (hi : vs[i]? = some v) : i < vnodeCount := by
  have hlen := congrArg List.length hf.bare
  rw [List.length_map, List.length_map, ring_length h.ids] at hlen
  exact hlen ▸ (List.getElem?_eq_some_iff.mp hi).1

include h hf in
/-- A node with a deficit loses no vnode, and one without a deficit gains none. -/
theorem Settled.loses_or_gains (hr : r = revoke nodeCounts old (currentCounts old)) {n : NodeID} (hn : n ≠ "") :
    (∀ p ∈ ownerPairs old vs, p.1 = n → p.2 = n) ∨ ∀ p ∈ ownerPairs old vs, p.2 = n → p.1 = n := by
  have hplace {i : Nat} {v w : VNode} (hv : old[i]? = some v) (hw : r.vnodes[i]? = some w) :
      w = v ∨ w.primary = "" ∧ v.primary ∉ deficitIDs nodeCounts r.counts := by
    subst hr
    obtain ⟨v',hv',hcase⟩ := revoke_place nodeCounts old _ hw
    rwa [Option.some.inj (hv.symm.trans hv')]
  by_cases hd : n ∈ deficitIDs nodeCounts r.counts
  · refine .inl (fun p hp hp1 => ?_)
    obtain ⟨i,v,v',hv,hv',rfl⟩ := exists_of_mem_ownerPairs hp
    change v.primary = n at hp1
    subst hp1
    rcases hf.place i v' hv' with ⟨hw,_⟩ | ⟨ho,_⟩
    · rcases hplace hv hw with rfl | ⟨_,hout⟩
      · rfl
      · exact absurd hd hout
    · -- The vnode had no primary to begin with, or was taken from a node without a deficit.
      obtain ⟨w,hw,hblank⟩ := h.orphaned.blank _ ho
      rw [toNat_vnodeID (h.index_lt hf hv')] at hw
      rcases hplace hv hw with rfl | ⟨_,hout⟩
      · exact absurd hblank hn
      · exact absurd hd hout
  · refine .inr (fun p hp hp2 => ?_)
    obtain ⟨i,v,v',hv,hv',rfl⟩ := exists_of_mem_ownerPairs hp
    rcases hf.place i v' hv' with ⟨hw,_⟩ | ⟨_,hmem⟩
    · rcases hplace hv hw with rfl | ⟨hblank,_⟩
      · exact hp2
      · exact absurd (hp2.symm.trans hblank) hn
    · exact absurd (hp2 ▸ hmem) hd

end Settled

/-- From any ring, targets that add up to it are met without a panic: ids, tokens and
replicas stay, every node gets exactly its target, and exactly the vnodes without a primary
and those above an owner's target change, which no other way to meet the targets undercuts. -/
theorem assignVNodes_fewest_moves (hash : String → UInt64) (vnodes : List VNode) (hring : vnodes.map VNode.id = ringIDs)
    (nodeCounts : Counts) (hempty : "" ∉ nodeCounts.keys) (hnonneg : ∀ n ∈ nodeCounts.keys, 0 ≤ nodeCounts.get n)
    (hsum : nodeCounts.sum = vnodeCount) :
    ∃ vs, assignVNodes hash vnodes nodeCounts = .ok vs ∧ OnTarget nodeCounts vs ∧
      vs.map VNode.bare = vnodes.map VNode.bare ∧
      (movedPrimaryCount (vnodes.zip vs) : Int) = requiredMoves nodeCounts vnodes ∧
      ∀ vs', vs'.length = vnodes.length → OnTarget nodeCounts vs' →
        requiredMoves nodeCounts vnodes ≤ movedPrimaryCount (vnodes.zip vs') := by
  have hstart : vnodes = if vnodes.length = 0 then initializeVNodes else vnodes := by
    rw [if_neg (by rw [ring_length hring]; decide)]
  have hall : ∀ n, 0 ≤ nodeCounts.get n := by
    intro n
    by_cases hn : n ∈ nodeCounts.keys
    · exact hnonneg n hn
    · rw [Finmap.mem_keys, ← Finmap.lookup_eq_none] at hn
      simp [Counts.get, hn]
  obtain ⟨hsettled,vs,hok,hfilled⟩ := assignVNodes_filled hash hstart hring hsum hempty hall
  have htarget := hsettled.onTarget hempty hfilled
  have hbare := hfilled.bare.trans (revoke_bare _ _ _)
  have hlen : vnodes.length = vs.length := by simpa using (congrArg List.length hbare).symm
  refine ⟨vs,hok,htarget,hbare,?_,fun vs' hlen' h' => requiredMoves_le hlen'.symm h' hempty⟩
  exact moved_eq_requiredMoves hlen htarget hempty (fun n hn => hsettled.loses_or_gains hfilled rfl hn)

/-- Half of the ring for each of two nodes. -/
def sampleCounts : Counts := ((∅ : Counts).insert "a" 512).insert "b" 512

/-- A ring in the hands of one of them. -/
theorem assignVNodes_fewest_moves_sample :
    ∃ vs, assignVNodes (fun _ => 0) (heldBy 1 "b" []).vnodes sampleCounts = .ok vs ∧ owned "a" vs = 512 ∧ owned "b" vs = 512 := by
  obtain ⟨vs,hok,htarget,-⟩ := assignVNodes_fewest_moves (fun _ => 0) (heldBy 1 "b" []).vnodes (heldBy_ring 1) sampleCounts
    (by decide) (by decide) (by decide)
  exact ⟨vs,hok,htarget.owned_eq "a",htarget.owned_eq "b"⟩

end Nawst.Cluster
