import Nawst.Core.StoreIndex

/-! What holds of a store over whole histories: the indexes list the keys of each
vnode, the counters count what is there, and every key is as one of the applied
commands left it. -/
namespace Nawst.Core.Store
open Lib.FiniteMap

/-- The deletion mark of a key that has metadata. -/
def mark (s : Store) (k : Key) : Option Bool := (s.keyMeta.lookup k).map KeyMeta.tombstone

@[simp] theorem keyMeta_put (s : Store) (cmd : Command) (k : Key) :
    (s.put cmd).keyMeta.lookup k = if k = cmd.key then some ⟨cmd.version,false⟩ else s.keyMeta.lookup k :=
  lookup_insert_ite _ _ _ _

@[simp] theorem keyMeta_delete (s : Store) (cmd : Command) (k : Key) :
    (s.delete cmd).keyMeta.lookup k = if k = cmd.key then some ⟨cmd.version,true⟩ else s.keyMeta.lookup k :=
  lookup_insert_ite _ _ _ _

@[simp] theorem mark_put (s : Store) (cmd : Command) (k : Key) :
    (s.put cmd).mark k = if k = cmd.key then some false else s.mark k := by
  unfold mark
  rw [keyMeta_put]
  split <;> rfl

@[simp] theorem mark_delete (s : Store) (cmd : Command) (k : Key) :
    (s.delete cmd).mark k = if k = cmd.key then some true else s.mark k := by
  unfold mark
  rw [keyMeta_delete]
  split <;> rfl

section Wipe
variable (s : Store) (v : UInt16)

/-- A vnode with nothing in its two sets is left as it is. -/
private theorem deleteVNodeData_of_card {s : Store} {v : UInt16}
    (h : (s.dataSet v).card = 0 ∧ (s.tombstoneSet v).card = 0) :
    s.deleteVNodeData v = s ∧ s.dataSet v = ∅ ∧ s.tombstoneSet v = ∅ :=
  ⟨if_pos h,Finset.card_eq_zero.mp h.1,Finset.card_eq_zero.mp h.2⟩

/-- What was in one of the two sets of the vnode loses its metadata. -/
theorem keyMeta_deleteVNodeData (k : Key) :
    (s.deleteVNodeData v).keyMeta.lookup k =
      if k ∈ s.dataSet v ∨ k ∈ s.tombstoneSet v then none else s.keyMeta.lookup k := by
  by_cases h : (s.dataSet v).card = 0 ∧ (s.tombstoneSet v).card = 0
  · obtain ⟨he,hd,ht⟩ := deleteVNodeData_of_card h
    simp [he, hd, ht]
  · simp only [deleteVNodeData, if_neg h, lookup_eraseAll]
    by_cases ht : k ∈ s.tombstoneSet v <;> simp [ht]

theorem storage_deleteVNodeData (k : Key) :
    (s.deleteVNodeData v).storage.lookup k = if k ∈ s.dataSet v then none else s.storage.lookup k := by
  by_cases h : (s.dataSet v).card = 0 ∧ (s.tombstoneSet v).card = 0
  · obtain ⟨he,hd,_⟩ := deleteVNodeData_of_card h
    simp [he, hd]
  · simp only [deleteVNodeData, if_neg h, lookup_eraseAll]

theorem dataSet_deleteVNodeData (w : UInt16) :
    (s.deleteVNodeData v).dataSet w = if w = v then ∅ else s.dataSet w := by
  by_cases h : (s.dataSet v).card = 0 ∧ (s.tombstoneSet v).card = 0
  · obtain ⟨he,hd,_⟩ := deleteVNodeData_of_card h
    by_cases hw : w = v <;> simp [he, hd, hw]
  · have hidx : (s.deleteVNodeData v).vNodeIdx = s.vNodeIdx.erase v := by simp only [deleteVNodeData, if_neg h]
    rw [dataSet, hidx, lookup_erase_ite]
    split <;> rfl

theorem tombstoneSet_deleteVNodeData (w : UInt16) :
    (s.deleteVNodeData v).tombstoneSet w = if w = v then ∅ else s.tombstoneSet w := by
  by_cases h : (s.dataSet v).card = 0 ∧ (s.tombstoneSet v).card = 0
  · obtain ⟨he,_,ht⟩ := deleteVNodeData_of_card h
    by_cases hw : w = v <;> simp [he, ht, hw]
  · have hidx : (s.deleteVNodeData v).tombstoneIdx = s.tombstoneIdx.erase v := by simp only [deleteVNodeData, if_neg h]
    rw [tombstoneSet, hidx, lookup_erase_ite]
    split <;> rfl

end Wipe

/-- The store agrees with the vnode of each key: live keys are stored and listed in the
data set of their vnode, deleted ones in its tombstone set, and nothing else is listed. -/
structure Indexed (f : Key → UInt16) (s : Store) : Prop where
  stored : ∀ k, (s.storage.lookup k).isSome ↔ s.mark k = some false
  data : ∀ v k, k ∈ s.dataSet v ↔ f k = v ∧ s.mark k = some false
  deleted : ∀ v k, k ∈ s.tombstoneSet v ↔ f k = v ∧ s.mark k = some true

theorem indexed_newStore (f : Key → UInt16) : newStore.Indexed f where
  stored := by simp [newStore, mark]
  data := by simp [newStore, dataSet, mark]
  deleted := by simp [newStore, tombstoneSet, mark]

section Indexed
variable {f : Key → UInt16} {s : Store}

/-- Listing a key under its vnode. -/
private theorem mem_insert_at {ks : Finset Key} {v : UInt16} {k key : Key} {P : Prop} (h : k ∈ ks ↔ f k = v ∧ P) :
    (k ∈ if v = f key then insert key ks else ks) ↔ f k = v ∧ (k = key ∨ P) := by
  by_cases hk : k = key
  · subst hk
    split <;> simp_all [eq_comm]
  · split <;> simp [hk, h]

/-- Taking a key off the list of its vnode. -/
private theorem mem_erase_at {ks : Finset Key} {v : UInt16} {k key : Key} {P : Prop} (h : k ∈ ks ↔ f k = v ∧ P) :
    (k ∈ if v = f key then ks.erase key else ks) ↔ f k = v ∧ (k ≠ key ∧ P) := by
  by_cases hk : k = key
  · subst hk
    split <;> simp_all [eq_comm]
  · split <;> simp [hk, h]

private theorem Indexed.put (h : s.Indexed f) {cmd : Command} (hf : cmd.vnodeID = f cmd.key) : (s.put cmd).Indexed f where
  stored k := by
    rw [storage_put, mark_put]
    by_cases hk : k = cmd.key
    · simp [hk]
    · simpa [hk] using h.stored k
  data v k := by
    rw [dataSet_put, hf, mem_insert_at (h.data v k), mark_put]
    by_cases hk : k = cmd.key <;> simp [hk]
  deleted v k := by
    rw [tombstoneSet_put, hf, mem_erase_at (h.deleted v k), mark_put]
    by_cases hk : k = cmd.key <;> simp [hk]

private theorem Indexed.delete (h : s.Indexed f) {cmd : Command} (hf : cmd.vnodeID = f cmd.key) :
    (s.delete cmd).Indexed f where
  stored k := by
    rw [storage_delete, mark_delete]
    by_cases hk : k = cmd.key
    · simp [hk]
    · simpa [hk] using h.stored k
  data v k := by
    rw [dataSet_delete, hf, mem_erase_at (h.data v k), mark_delete]
    by_cases hk : k = cmd.key <;> simp [hk]
  deleted v k := by
    rw [tombstoneSet_delete, hf, mem_insert_at (h.deleted v k), mark_delete]
    by_cases hk : k = cmd.key <;> simp [hk]

theorem Indexed.apply (h : s.Indexed f) {cmd : Command} (hf : cmd.vnodeID = f cmd.key) : (s.apply cmd).1.Indexed f := by
  rcases apply_cases s cmd with ⟨_,he⟩ | ⟨_,_,he⟩ | ⟨_,_,he⟩ | ⟨_,_,_,he⟩
  · exact he ▸ h
  · rw [he]
    exact h.put hf
  · rw [he]
    exact h.delete hf
  · exact he ▸ h

/-- Dropping a vnode takes all its keys, and no others. -/
theorem Indexed.mark_deleteVNodeData (h : s.Indexed f) (v : UInt16) (k : Key) :
    (s.deleteVNodeData v).mark k = if f k = v then none else s.mark k := by
  have hd := h.data v k
  have ht := h.deleted v k
  unfold mark at hd ht ⊢
  rw [keyMeta_deleteVNodeData]
  by_cases hk : f k = v
  · rcases hm : s.keyMeta.lookup k with _ | ⟨version,_ | _⟩ <;> simp_all
  · simp_all

theorem Indexed.deleteVNodeData (h : s.Indexed f) (v : UInt16) : (s.deleteVNodeData v).Indexed f where
  stored k := by
    have hs := h.stored k
    have hd := h.data v k
    rw [storage_deleteVNodeData, h.mark_deleteVNodeData]
    by_cases hk : f k = v
    · by_cases hm : s.mark k = some false <;> simp_all
    · simp_all
  data w k := by
    rw [dataSet_deleteVNodeData, h.mark_deleteVNodeData]
    by_cases hw : w = v
    · by_cases hk : f k = v <;> simp [hw, hk]
    · rw [if_neg hw, h.data]
      by_cases hk : f k = v
      · simp [hk, Ne.symm hw]
      · simp [hk]
  deleted w k := by
    rw [tombstoneSet_deleteVNodeData, h.mark_deleteVNodeData]
    by_cases hw : w = v
    · by_cases hk : f k = v <;> simp [hw, hk]
    · rw [if_neg hw, h.deleted]
      by_cases hk : f k = v
      · simp [hk, Ne.symm hw]
      · simp [hk]

section Snapshot
variable {v : UInt16} {dataOrder tombstoneOrder : List Key}

/-- Every key that a snapshot finds in the index is stored. -/
theorem Indexed.stored_of_mem (h : s.Indexed f) (hd : Enumerates dataOrder (s.dataSet v)) {k : Key} (hk : k ∈ dataOrder) :
    (s.storage.lookup k).isSome := by
  rw [← List.mem_toFinset, hd.2, h.data] at hk
  exact (h.stored k).mpr hk.2

/-- A snapshot that finds the vnode in the index has one entry for each key of its sets. -/
theorem Indexed.snapshot_keys (h : s.Indexed f) (hd : Enumerates dataOrder (s.dataSet v)) (tombstoneOrder : List Key) :
    (s.snapshotVNode v dataOrder tombstoneOrder).map Entry.key =
      if (s.vNodeIdx.lookup v).isSome then dataOrder ++ tombstoneOrder else [] := by
  have hlive : ∀ ks : List Key, (∀ k ∈ ks, (s.storage.lookup k).isSome) →
      (ks.filterMap (fun k => (s.storage.lookup k).map
        (fun val => (⟨k,val,s.versionOf k,(s.metaOf k).tombstone⟩ : Entry)))).map Entry.key = ks := by
    intro ks hks
    induction ks with
    | nil => rfl
    | cons k ks ih =>
      obtain ⟨hk,hks⟩ := List.forall_mem_cons.mp hks
      obtain ⟨val,hval⟩ := Option.isSome_iff_exists.mp hk
      simp [hval, ih hks]
  unfold snapshotVNode
  cases s.vNodeIdx.lookup v with
  | none => rfl
  | some keys =>
    rw [List.map_append, hlive dataOrder (fun k hk => h.stored_of_mem hd hk)]
    simp [Function.comp_def]

theorem Indexed.snapshot_keys_nodup (h : s.Indexed f) (hd : Enumerates dataOrder (s.dataSet v))
    (ht : Enumerates tombstoneOrder (s.tombstoneSet v)) : ((s.snapshotVNode v dataOrder tombstoneOrder).map Entry.key).Nodup := by
  rw [h.snapshot_keys hd]
  split
  · refine List.nodup_append.mpr ⟨hd.1,ht.1,fun k hk k' hk' hkk' => ?_⟩
    subst hkk'
    rw [← List.mem_toFinset, hd.2, h.data] at hk
    rw [← List.mem_toFinset, ht.2, h.deleted] at hk'
    have hmark := hk.2.symm.trans hk'.2
    cases hmark
  · exact List.nodup_nil

end Snapshot

end Indexed

/-- The counters count what the maps hold. -/
structure Counted (s : Store) : Prop where
  tombstones : s.tombstoneCount = total (fun m => if m.tombstone then 1 else 0) s.keyMeta
  bytes : s.valueBytes = total (fun value => (value.data.length : Int)) s.storage
  data : s.vnodesWithData = inhabited s.vNodeIdx
  deleted : s.vnodesWithTombstones = inhabited s.tombstoneIdx

/-- The same, with the bytes of values that have been dropped still counted. -/
structure Accounted (lost : Int) (s : Store) : Prop where
  tombstones : s.tombstoneCount = total (fun m => if m.tombstone then 1 else 0) s.keyMeta
  bytes : s.valueBytes = total (fun value => (value.data.length : Int)) s.storage+lost
  data : s.vnodesWithData = inhabited s.vNodeIdx
  deleted : s.vnodesWithTombstones = inhabited s.tombstoneIdx

theorem accounted_newStore : newStore.Accounted 0 where
  tombstones := (total_empty _).symm
  bytes := by simp [newStore]
  data := (total_empty _).symm
  deleted := (total_empty _).symm

section Accounted
variable {s : Store} {lost : Int}

theorem counted_iff : s.Counted ↔ s.Accounted 0 := by
  constructor
  · intro h
    exact ⟨h.tombstones,by rw [h.bytes, Int.add_zero],h.data,h.deleted⟩
  · intro h
    exact ⟨h.tombstones,by rw [h.bytes, Int.add_zero],h.data,h.deleted⟩

theorem counted_newStore : newStore.Counted := counted_iff.mpr accounted_newStore

private theorem weight_tombstone (s : Store) (k : Key) :
    weight (fun m => if m.tombstone then 1 else 0) s.keyMeta k = if (s.metaOf k).tombstone then 1 else 0 := by
  unfold weight metaOf
  cases s.keyMeta.lookup k <;> simp

private theorem total_tombstone {s t : Store} {k : Key} {m : KeyMeta}
    (h : t.keyMeta = s.keyMeta.insert k m) :
    total (fun m => if m.tombstone then 1 else 0) t.keyMeta =
      total (fun m => if m.tombstone then 1 else 0) s.keyMeta-(if (s.metaOf k).tombstone then 1 else 0)+
        (if m.tombstone then 1 else 0) := by
  rw [h, total_update _ (m := s.keyMeta) (k := k) (fun x hx => by rw [lookup_insert_ite, if_neg hx]), weight_tombstone]
  simp [weight]

/-- What the values of a vnode take. -/
def bytesIn (s : Store) (v : UInt16) : Int := ∑ k ∈ s.dataSet v, s.valueLen k

private theorem Accounted.put (h : s.Accounted lost) (cmd : Command) : (s.put cmd).Accounted lost where
  tombstones := by
    rw [total_tombstone (s := s) (t := s.put cmd) rfl, ← h.tombstones]
    simp only [Store.put]
    split <;> simp
  bytes := by
    rw [total_update _ (m := s.storage) (k := cmd.key) (fun x hx => by rw [storage_put, if_neg hx])]
    have hbytes : s.valueBytes-s.valueLen cmd.key+cmd.value.data.length =
        total (fun value => (value.data.length : Int)) s.storage-s.valueLen cmd.key+cmd.value.data.length+lost := by
      rw [h.bytes]
      omega
    simp only [weight, storage_put, if_true]
    exact hbytes
  data := by
    simp only [Store.put, h.data]
    exact (inhabited_insert _ _ _).symm
  deleted := by
    simp only [Store.put, h.deleted]
    exact (inhabited_erase _ _ _).symm

private theorem Accounted.delete (h : s.Accounted lost) (cmd : Command) : (s.delete cmd).Accounted lost where
  tombstones := by
    rw [total_tombstone (s := s) (t := s.delete cmd) rfl, ← h.tombstones]
    simp only [Store.delete]
    split <;> simp
  bytes := by
    rw [total_update _ (m := s.storage) (k := cmd.key) (fun x hx => by rw [storage_delete, if_neg hx])]
    have hbytes : s.valueBytes-s.valueLen cmd.key =
        total (fun value => (value.data.length : Int)) s.storage-s.valueLen cmd.key+0+lost := by
      rw [h.bytes]
      omega
    simp only [weight, storage_delete, if_true]
    exact hbytes
  data := by
    simp only [Store.delete, h.data]
    exact (inhabited_erase _ _ _).symm
  deleted := by
    simp only [Store.delete, h.deleted]
    exact (inhabited_insert _ _ _).symm

theorem Accounted.apply (h : s.Accounted lost) (cmd : Command) : (s.apply cmd).1.Accounted lost := by
  rcases apply_cases s cmd with ⟨_,he⟩ | ⟨_,_,he⟩ | ⟨_,_,he⟩ | ⟨_,_,_,he⟩
  · exact he ▸ h
  · exact he ▸ h.put { cmd with version := s.stamp cmd }
  · exact he ▸ h.delete { cmd with version := s.stamp cmd }
  · exact he ▸ h

theorem Counted.apply (h : s.Counted) (cmd : Command) : (s.apply cmd).1.Counted :=
  counted_iff.mpr ((counted_iff.mp h).apply cmd)

private theorem iterate_decrement {n : Nat} {c : Int} (h : (n : Int) ≤ c) :
    (fun c : Int => if 0 < c then c-1 else c)^[n] c = c-n := by
  induction n generalizing c with
  | zero => simp
  | succ n ih =>
    rw [Function.iterate_succ_apply, if_pos (by omega), ih (by omega)]
    omega

/-- Dropping a vnode takes its tombstones off the count. -/
private theorem total_tombstone_drop {f : Key → UInt16} (hi : s.Indexed f) (v : UInt16) :
    total (fun m => if m.tombstone then 1 else 0) (eraseAll (s.tombstoneSet v) (eraseAll (s.dataSet v) s.keyMeta)) =
      total (fun m => if m.tombstone then 1 else 0) s.keyMeta-(s.tombstoneSet v).card := by
  have hmark (k : Key) : weight (fun m => if m.tombstone then 1 else 0) s.keyMeta k =
      if s.mark k = some true then 1 else 0 := by
    unfold weight mark
    cases s.keyMeta.lookup k <;> simp
  have hlive : ∑ k ∈ s.dataSet v, weight (fun m => if m.tombstone then 1 else 0) s.keyMeta k = 0 := by
    refine Finset.sum_eq_zero (fun k hk => ?_)
    rw [hmark, ((hi.data v k).mp hk).2]
    rfl
  have hdead : ∑ k ∈ s.tombstoneSet v,
      weight (fun m => if m.tombstone then 1 else 0) (eraseAll (s.dataSet v) s.keyMeta) k = (s.tombstoneSet v).card := by
    rw [Finset.card_eq_sum_ones, Nat.cast_sum]
    refine Finset.sum_congr rfl (fun k hk => ?_)
    have hm := ((hi.deleted v k).mp hk).2
    have hnot : k ∉ s.dataSet v := by simp [hi.data, hm]
    have hone := hmark k
    rw [hm] at hone
    rw [weight, lookup_eraseAll, if_neg hnot]
    exact hone
  rw [total_eraseAll, total_eraseAll, hlive, hdead, Int.sub_zero]

/-- A dropped vnode leaves the bytes of its values in the count. -/
theorem Accounted.deleteVNodeData (h : s.Accounted lost) {f : Key → UInt16} (hi : s.Indexed f) (v : UInt16) :
    (s.deleteVNodeData v).Accounted (lost+s.bytesIn v) := by
  by_cases hcard : (s.dataSet v).card = 0 ∧ (s.tombstoneSet v).card = 0
  · obtain ⟨he,hd,-⟩ := deleteVNodeData_of_card hcard
    have hzero : s.bytesIn v = 0 := by simp [bytesIn, hd]
    rw [he, hzero, Int.add_zero]
    exact h
  · have htomb := total_tombstone_drop hi v
    have hnonneg := total_nonneg (fun m : KeyMeta => if m.tombstone then 1 else 0) (fun m => by split <;> simp)
      (eraseAll (s.tombstoneSet v) (eraseAll (s.dataSet v) s.keyMeta))
    simp only [Store.deleteVNodeData, if_neg hcard]
    refine ⟨?_,?_,?_,?_⟩
    · simp only [h.tombstones, htomb]
      exact iterate_decrement (by omega)
    · simp only [total_eraseAll, h.bytes]
      unfold bytesIn valueLen weight
      omega
    · rw [inhabited_erase_key, h.data]
      rfl
    · rw [inhabited_erase_key, h.deleted]
      rfl

end Accounted

/-- The key of a write is as the write leaves it. -/
structure Shows (s : Store) (cmd : Command) : Prop where
  keyMeta : s.keyMeta.lookup cmd.key = some ⟨cmd.version,cmd.op = opDelete⟩
  storage : s.storage.lookup cmd.key = if cmd.op = opDelete then none else some cmd.value

/-- Two writes have the same effect on their key. -/
structure SameEffect (c d : Command) : Prop where
  key : c.key = d.key
  version : c.version = d.version
  op : c.op = d.op
  value : c.op ≠ opDelete → c.value = d.value

theorem SameEffect.refl (c : Command) : SameEffect c c := ⟨rfl,rfl,rfl,fun _ => rfl⟩

theorem Shows.congr {s : Store} {c d : Command} (h : s.Shows d) (hcd : SameEffect c d) : s.Shows c where
  keyMeta := by rw [hcd.key, hcd.version, hcd.op, h.keyMeta]
  storage := by
    rw [hcd.key, h.storage, hcd.op]
    split
    · rfl
    · rename_i hop
      rw [hcd.value (hcd.op ▸ hop)]

theorem Shows.versionOf {s : Store} {c : Command} (h : s.Shows c) : s.versionOf c.key = c.version := by
  simp [Store.versionOf, metaOf, h.keyMeta]

/-- What a key shows determines the write up to its effect. -/
theorem Shows.unique {s : Store} {c d : Command} (hc : s.Shows c) (hd : s.Shows d) (hk : c.key = d.key) :
    c.version = d.version ∧ (c.op = opDelete ↔ d.op = opDelete) ∧ (c.op ≠ opDelete → c.value = d.value) := by
  have hm := hc.keyMeta.symm.trans (hk ▸ hd.keyMeta)
  simp only [Option.some.injEq, KeyMeta.mk.injEq, decide_eq_decide] at hm
  refine ⟨hm.1,hm.2,fun hnd => ?_⟩
  have hs := hc.storage.symm.trans (hk ▸ hd.storage)
  rw [if_neg hnd, if_neg (fun h => hnd (hm.2.mpr h))] at hs
  exact Option.some.inj hs

/-- A write that is taken shows, under its stamp. -/
theorem shows_apply {s : Store} {cmd : Command} (hop : cmd.op = opPut ∨ cmd.op = opDelete) (ht : s.Takes cmd) :
    (s.apply cmd).1.Shows { cmd with version := s.stamp cmd } := by
  rcases hop with hop | hop
  · have hne : ¬ (opPut = opDelete) := by decide
    rw [apply_put hop ht]
    exact ⟨by simp [hop, hne],by simp [hop, hne]⟩
  · rw [apply_delete hop ht]
    exact ⟨by simp [hop],by simp [hop]⟩

/-- Writes to other keys change neither metadata nor value. -/
theorem apply_keyMeta_other {s : Store} {cmd : Command} {k : Key} (hk : k ≠ cmd.key) :
    (s.apply cmd).1.keyMeta.lookup k = s.keyMeta.lookup k := by
  rcases apply_cases s cmd with ⟨_,he⟩ | ⟨_,_,he⟩ | ⟨_,_,he⟩ | ⟨_,_,_,he⟩ <;> simp [he, hk]

theorem Shows.apply_other {s : Store} {c cmd : Command} (h : s.Shows c) (hk : c.key ≠ cmd.key) :
    (s.apply cmd).1.Shows c :=
  ⟨(apply_keyMeta_other hk).trans h.keyMeta,(apply_other_key hk).1.trans h.storage⟩

/-- Each key with metadata shows one of the given writes. -/
def Sourced (P : Command → Prop) (s : Store) : Prop :=
  ∀ k m, s.keyMeta.lookup k = some m → ∃ c, P c ∧ c.key = k ∧ s.Shows c

section Sourced
variable {P : Command → Prop} {s : Store}

theorem sourced_newStore (P : Command → Prop) : newStore.Sourced P := by
  intro k m h
  simp [newStore] at h

theorem Sourced.mono {Q : Command → Prop} (h : s.Sourced P) (hPQ : ∀ c, P c → Q c) : s.Sourced Q := by
  intro k m hm
  obtain ⟨c,hc,hk,hs⟩ := h k m hm
  exact ⟨c,hPQ c hc,hk,hs⟩

/-- A write that has, if it is taken, the effect of a given one. -/
theorem Sourced.apply (h : s.Sourced P) {cmd : Command} (hop : cmd.op = opPut ∨ cmd.op = opDelete)
    (hc : s.Takes cmd → ∃ c, P c ∧ SameEffect c { cmd with version := s.stamp cmd }) : (s.apply cmd).1.Sourced P := by
  intro k m hm
  by_cases hk : k = cmd.key
  · subst hk
    by_cases ht : s.Takes cmd
    · obtain ⟨c,hPc,heff⟩ := hc ht
      exact ⟨c,hPc,heff.key,(shows_apply hop ht).congr heff⟩
    · rw [apply_of_stale ht] at hm ⊢
      exact h cmd.key m hm
  · rw [apply_keyMeta_other hk] at hm
    obtain ⟨d,hd,rfl,hs⟩ := h k m hm
    exact ⟨d,hd,rfl,hs.apply_other hk⟩

/-- A versioned write is stored as it is. -/
theorem Sourced.apply_versioned (h : s.Sourced P) {c cmd : Command} (hop : cmd.op = opPut ∨ cmd.op = opDelete)
    (hv : cmd.version ≠ 0) (hc : P c) (heff : SameEffect c cmd) : (s.apply cmd).1.Sourced P := by
  refine h.apply hop (fun _ => ⟨c,hc,?_⟩)
  rw [stamp, if_neg hv]
  exact heff

/-- A dropped vnode takes the metadata of its live keys with it, and a key that keeps
its metadata keeps its value. -/
theorem Sourced.deleteVNodeData (h : s.Sourced P) (v : UInt16) : (s.deleteVNodeData v).Sourced P := by
  intro k m hm
  rw [keyMeta_deleteVNodeData] at hm
  split at hm
  · cases hm
  · rename_i hk
    obtain ⟨c,hc,rfl,hs⟩ := h k m hm
    refine ⟨c,hc,rfl,?_,?_⟩
    · rw [keyMeta_deleteVNodeData, if_neg hk, hs.keyMeta]
    · rw [storage_deleteVNodeData, if_neg (not_or.mp hk).1, hs.storage]

/-- Only writes to keys of other vnodes are left to show. -/
theorem Sourced.dropped {Q : Command → Prop} {f : Key → UInt16} (h : s.Sourced P) (hi : s.Indexed f) {v : UInt16}
    (hPQ : ∀ c, P c → f c.key ≠ v → Q c) : (s.deleteVNodeData v).Sourced Q := by
  intro k m hm
  obtain ⟨c,hc,rfl,hs⟩ := h.deleteVNodeData v k m hm
  refine ⟨c,hPQ c hc (fun hv => ?_),rfl,hs⟩
  have hmark := hi.mark_deleteVNodeData v c.key
  rw [if_pos hv, mark, hm] at hmark
  cases hmark

end Sourced

end Nawst.Core.Store
