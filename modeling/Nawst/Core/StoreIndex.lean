import Nawst.Core.StoreApply

/-! The vnode indexes of a store, and what a snapshot of a vnode says about a key
that was never deleted. -/
namespace Nawst.Core.Store
open Lib.FiniteMap

@[simp] theorem dataSet_put (s : Store) (cmd : Command) (v : UInt16) :
    (s.put cmd).dataSet v = if v = cmd.vnodeID then insert cmd.key (s.dataSet v) else s.dataSet v :=
  getD_insert_insert s.vNodeIdx cmd.vnodeID v cmd.key

@[simp] theorem dataSet_delete (s : Store) (cmd : Command) (v : UInt16) :
    (s.delete cmd).dataSet v = if v = cmd.vnodeID then (s.dataSet v).erase cmd.key else s.dataSet v :=
  getD_insert_erase s.vNodeIdx cmd.vnodeID v cmd.key

@[simp] theorem tombstoneSet_put (s : Store) (cmd : Command) (v : UInt16) :
    (s.put cmd).tombstoneSet v = if v = cmd.vnodeID then (s.tombstoneSet v).erase cmd.key else s.tombstoneSet v :=
  getD_insert_erase s.tombstoneIdx cmd.vnodeID v cmd.key

@[simp] theorem tombstoneSet_delete (s : Store) (cmd : Command) (v : UInt16) :
    (s.delete cmd).tombstoneSet v = if v = cmd.vnodeID then insert cmd.key (s.tombstoneSet v) else s.tombstoneSet v :=
  getD_insert_insert s.tombstoneIdx cmd.vnodeID v cmd.key

section Filing

/-- The key is in the index of the vnode that the command moves it to, and in no other. -/
def Filed (s : Store) (cmd : Command) (v : UInt16) : Prop :=
  if cmd.op = opPut then cmd.key ∈ s.dataSet v ∧ cmd.key ∉ s.tombstoneSet v
  else cmd.key ∈ s.tombstoneSet v ∧ cmd.key ∉ s.dataSet v

instance (s : Store) (cmd : Command) (v : UInt16) : Decidable (s.Filed cmd v) :=
  inferInstanceAs (Decidable (if cmd.op = opPut then _ ∧ _ else _ ∧ _))

variable {s : Store} {cmd : Command} {v w : UInt16}

/-- A put leaves the indexes alone where the key is filed already. -/
theorem put_of_filed (hd : cmd.key ∈ s.dataSet v) (ht : cmd.key ∉ s.tombstoneSet v) :
    s.put { cmd with vnodeID := v } = { s with
      storage := s.storage.insert cmd.key cmd.value
      valueBytes := s.valueBytes-s.valueLen cmd.key+cmd.value.data.length
      tombstoneCount := if (s.metaOf cmd.key).tombstone then s.tombstoneCount-1 else s.tombstoneCount
      keyMeta := s.keyMeta.insert cmd.key ⟨cmd.version,false⟩ } := by
  have hidx : s.vNodeIdx.insert v (insert cmd.key (s.dataSet v)) = s.vNodeIdx := insert_getD_of_mem hd
  have hcard : (s.dataSet v).card ≠ 0 := Finset.card_ne_zero_of_mem hd
  simp [put, hidx, hcard, ht]

theorem delete_of_filed (ht : cmd.key ∈ s.tombstoneSet v) (hd : cmd.key ∉ s.dataSet v) :
    s.delete { cmd with vnodeID := v } = { s with
      storage := s.storage.erase cmd.key
      valueBytes := s.valueBytes-s.valueLen cmd.key
      tombstoneCount := if (s.metaOf cmd.key).tombstone then s.tombstoneCount else s.tombstoneCount+1
      keyMeta := s.keyMeta.insert cmd.key ⟨cmd.version,true⟩ } := by
  have hidx : s.tombstoneIdx.insert v (insert cmd.key (s.tombstoneSet v)) = s.tombstoneIdx := insert_getD_of_mem ht
  have hcard : (s.tombstoneSet v).card ≠ 0 := Finset.card_ne_zero_of_mem ht
  simp [delete, hidx, hcard, hd]

/-- In a vnode that another put does not touch, a put makes a difference unless the key is
filed there. -/
theorem filed_of_put_eq (hne : v ≠ w) (h : s.put { cmd with vnodeID := v } = s.put { cmd with vnodeID := w }) :
    cmd.key ∈ s.dataSet v ∧ cmd.key ∉ s.tombstoneSet v := by
  have hd := congrArg (fun s => s.dataSet v) h
  have ht := congrArg (fun s => s.tombstoneSet v) h
  simp only [dataSet_put, tombstoneSet_put, if_true, if_neg hne] at hd ht
  exact ⟨Finset.insert_eq_self.mp hd,Finset.erase_eq_self.mp ht⟩

theorem filed_of_delete_eq (hne : v ≠ w) (h : s.delete { cmd with vnodeID := v } = s.delete { cmd with vnodeID := w }) :
    cmd.key ∈ s.tombstoneSet v ∧ cmd.key ∉ s.dataSet v := by
  have hd := congrArg (fun s => s.dataSet v) h
  have ht := congrArg (fun s => s.tombstoneSet v) h
  simp only [dataSet_delete, tombstoneSet_delete, if_true, if_neg hne] at hd ht
  exact ⟨Finset.insert_eq_self.mp ht,Finset.erase_eq_self.mp hd⟩

theorem put_vnode_eq_iff (s : Store) (cmd : Command) (hne : v ≠ w) :
    s.put { cmd with vnodeID := v } = s.put { cmd with vnodeID := w } ↔
      (cmd.key ∈ s.dataSet v ∧ cmd.key ∉ s.tombstoneSet v) ∧ cmd.key ∈ s.dataSet w ∧ cmd.key ∉ s.tombstoneSet w := by
  refine ⟨fun h => ⟨filed_of_put_eq hne h,filed_of_put_eq hne.symm h.symm⟩,fun ⟨hv,hw⟩ => ?_⟩
  rw [put_of_filed hv.1 hv.2, put_of_filed hw.1 hw.2]

theorem delete_vnode_eq_iff (s : Store) (cmd : Command) (hne : v ≠ w) :
    s.delete { cmd with vnodeID := v } = s.delete { cmd with vnodeID := w } ↔
      (cmd.key ∈ s.tombstoneSet v ∧ cmd.key ∉ s.dataSet v) ∧ cmd.key ∈ s.tombstoneSet w ∧ cmd.key ∉ s.dataSet w := by
  refine ⟨fun h => ⟨filed_of_delete_eq hne h,filed_of_delete_eq hne.symm h.symm⟩,fun ⟨hv,hw⟩ => ?_⟩
  rw [delete_of_filed hv.1 hv.2, delete_of_filed hw.1 hw.2]

/-- A write makes the same of the store in two vnodes exactly if they are one, or it is
stale, or the key is filed in both. -/
theorem apply_vnode_eq_iff (hop : cmd.op = opPut ∨ cmd.op = opDelete) :
    (s.apply { cmd with vnodeID := v }).1 = (s.apply { cmd with vnodeID := w }).1 ↔
      v = w ∨ ¬ s.Takes cmd ∨ s.Filed cmd v ∧ s.Filed cmd w := by
  by_cases hvw : v = w
  · simp [hvw]
  by_cases ht : s.Takes cmd
  · simp only [hvw, ht, not_true_eq_false, false_or]
    -- once taken, both are written under the same version
    let written : Command := { cmd with version := s.stamp cmd }
    rcases hop with hop | hop
    · have happly (u : UInt16) : (s.apply { cmd with vnodeID := u }).1 = s.put { written with vnodeID := u } := by
        have hu : ({ cmd with vnodeID := u } : Command).op = opPut := hop
        rw [apply_put hu ht]
        rfl
      rw [happly, happly, Filed, Filed, if_pos hop, if_pos hop]
      exact put_vnode_eq_iff s written hvw
    · have happly (u : UInt16) : (s.apply { cmd with vnodeID := u }).1 = s.delete { written with vnodeID := u } := by
        have hu : ({ cmd with vnodeID := u } : Command).op = opDelete := hop
        rw [apply_delete hu ht]
        rfl
      have hput : cmd.op ≠ opPut := fun h => absurd (h.symm.trans hop) (by decide)
      rw [happly, happly, Filed, Filed, if_neg hput, if_neg hput]
      exact delete_vnode_eq_iff s written hvw
  · have hstale (u : UInt16) : s.apply { cmd with vnodeID := u } = (s,none) := apply_of_stale ht
    simp [hstale, ht]

end Filing

/-- A key that was only ever put, in the vnode: it has a version exactly when it is
stored, and then it is indexed. -/
structure Plain (s : Store) (v : UInt16) (k : Key) : Prop where
  stored : s.versionOf k ≠ 0 ↔ (s.storage.lookup k).isSome
  live : (s.metaOf k).tombstone = false
  indexed : (s.storage.lookup k).isSome → k ∈ s.dataSet v
  unmarked : k ∉ s.tombstoneSet v

theorem plain_newStore (v : UInt16) (k : Key) : newStore.Plain v k where
  stored := by simp [newStore, versionOf, metaOf]
  live := by simp [newStore, metaOf]
  indexed := by simp [newStore]
  unmarked := by simp [newStore, tombstoneSet]

/-- Commands for the key are versioned puts in its vnode. -/
def Puts (cmd : Command) (v : UInt16) (k : Key) : Prop :=
  cmd.key = k → cmd.op = opPut ∧ cmd.vnodeID = v ∧ cmd.version ≠ 0

private theorem Plain.other {s : Store} {v : UInt16} {k : Key} (h : s.Plain v k) {cmd : Command} (hk : k ≠ cmd.key) :
    (s.apply cmd).1.Plain v k := by
  obtain ⟨hstore,hmeta⟩ := apply_other_key (s := s) hk
  refine ⟨?_,by rw [hmeta]; exact h.live,?_,?_⟩
  · rw [versionOf, hmeta, hstore]
    exact h.stored
  · rw [hstore]
    intro hs
    have hd := h.indexed hs
    rcases apply_cases s cmd with ⟨_,he⟩ | ⟨_,_,he⟩ | ⟨_,_,he⟩ | ⟨_,_,_,he⟩
    · exact he ▸ hd
    · rw [he, dataSet_put]
      split
      · exact Finset.mem_insert_of_mem hd
      · exact hd
    · rw [he, dataSet_delete]
      split
      · exact Finset.mem_erase_of_ne_of_mem hk hd
      · exact hd
    · exact he ▸ hd
  · have ht := h.unmarked
    rcases apply_cases s cmd with ⟨_,he⟩ | ⟨_,_,he⟩ | ⟨_,_,he⟩ | ⟨_,_,_,he⟩
    · exact he ▸ ht
    · rw [he, tombstoneSet_put]
      split
      · exact fun hm => ht (Finset.mem_of_mem_erase hm)
      · exact ht
    · rw [he, tombstoneSet_delete]
      split
      · simp [hk, ht]
      · exact ht
    · exact he ▸ ht

/-- Puts of the key and any commands for other keys leave it plain. -/
theorem Plain.apply {s : Store} {v : UInt16} {k : Key} (h : s.Plain v k) {cmd : Command} (hc : Puts cmd v k) :
    (s.apply cmd).1.Plain v k := by
  by_cases hk : cmd.key = k
  · obtain ⟨hop,rfl,hv⟩ := hc hk
    subst hk
    by_cases ht : s.Takes cmd
    · have hstamp : s.stamp cmd = cmd.version := if_neg hv
      rw [apply_put hop ht, hstamp]
      exact ⟨by simp [versionOf, hv],by simp,by simp,by simp⟩
    · rw [apply_of_stale ht]
      exact h
  · exact h.other (Ne.symm hk)

theorem versionOf_apply_puts {s : Store} {v : UInt16} {k : Key} {cmd : Command} (hc : Puts cmd v k) :
    s.versionOf k ≤ (s.apply cmd).1.versionOf k := by
  by_cases hk : cmd.key = k
  · exact versionOf_apply_mono s cmd (hc hk).2.2 k
  · rw [versionOf, versionOf, (apply_other_key (Ne.symm hk)).2]
    exact UInt64.le_refl _

/-- A plain key with a version is read back with it. -/
theorem Plain.getWithVersion {s : Store} {v : UInt16} {k : Key} (h : s.Plain v k) {n : UInt64} (hn : n ≠ 0)
    (hle : n ≤ s.versionOf k) : ∃ value version, s.getWithVersion k = .ok (value,version) ∧ n ≤ version := by
  have hv : s.versionOf k ≠ 0 := by
    intro hz
    rw [hz] at hle
    exact hn (UInt64.le_zero_iff.mp hle)
  obtain ⟨value,hs⟩ := Option.isSome_iff_exists.mp (h.stored.mp hv)
  exact ⟨value,s.versionOf k,by simp [Store.getWithVersion, hs, h.live],hle⟩

/-- All a snapshot says about a plain key is its value at its version. -/
theorem Plain.snapshot {s : Store} {v : UInt16} {k : Key} (h : s.Plain v k) {dataOrder tombstoneOrder : List Key}
    (ht : Enumerates tombstoneOrder (s.tombstoneSet v)) {e : Entry}
    (he : e ∈ s.snapshotVNode v dataOrder tombstoneOrder) (hk : e.key = k) :
    e.tombstone = false ∧ e.version ≠ 0 := by
  unfold snapshotVNode at he
  split at he
  · cases he
  · rcases List.mem_append.mp he with he | he
    · obtain ⟨k',_,hk'⟩ := List.mem_filterMap.mp he
      obtain ⟨val,hval,rfl⟩ := Option.map_eq_some_iff.mp hk'
      obtain rfl : k' = k := hk
      exact ⟨h.live,h.stored.mpr (by simp [hval])⟩
    · obtain ⟨k',hk',rfl⟩ := List.mem_map.mp he
      obtain rfl : k' = k := hk
      rw [← List.mem_toFinset, ht.2] at hk'
      exact absurd hk' h.unmarked

/-- A plain key with a version is in the snapshot, under that version. -/
theorem Plain.mem_snapshot {s : Store} {v : UInt16} {k : Key} (h : s.Plain v k) {dataOrder : List Key}
    (tombstoneOrder : List Key) (hd : Enumerates dataOrder (s.dataSet v)) (hv : s.versionOf k ≠ 0) :
    ∃ e ∈ s.snapshotVNode v dataOrder tombstoneOrder, e.key = k ∧ e.version = s.versionOf k := by
  have hsome := h.stored.mp hv
  have hmem := h.indexed hsome
  obtain ⟨value,hs⟩ := Option.isSome_iff_exists.mp hsome
  have hidx : ∃ keys, s.vNodeIdx.lookup v = some keys := by
    unfold dataSet at hmem
    cases hl : s.vNodeIdx.lookup v with
    | none => simp [hl] at hmem
    | some keys => exact ⟨keys,rfl⟩
  obtain ⟨keys,hidx⟩ := hidx
  rw [← hd.2, List.mem_toFinset] at hmem
  refine ⟨⟨k,value,s.versionOf k,(s.metaOf k).tombstone⟩,?_,rfl,rfl⟩
  simp only [snapshotVNode, hidx]
  exact List.mem_append_left _ (List.mem_filterMap.mpr ⟨k,hmem,by simp [hs]⟩)

end Nawst.Core.Store
