import Mathlib.Data.Finset.Max
import Nawst.Core.StoreInvariant

/-! Stores that are given the same versioned writes, in any order and any number of
times, end up the same. -/
namespace Nawst.Core.Store
open Lib.FiniteMap

/-- Versioned writes of which no two are for one key under one version, and which agree
on the vnode of each key. -/
structure Consistent (cs : List Command) : Prop where
  write : ∀ c ∈ cs, c.op = opPut ∨ c.op = opDelete
  versioned : ∀ c ∈ cs, c.version ≠ 0
  vnode : ∀ c ∈ cs, ∀ d ∈ cs, c.key = d.key → c.vnodeID = d.vnodeID
  unique : ∀ c ∈ cs, ∀ d ∈ cs, c.key = d.key → c.version = d.version → c = d

/-- The vnode that the writes give to a key. -/
def vnodeOf (cs : List Command) (k : Key) : UInt16 := ((cs.find? (fun c => c.key = k)).map Command.vnodeID).getD 0

theorem Consistent.vnodeID_eq {cs : List Command} (h : Consistent cs) {c : Command} (hc : c ∈ cs) :
    c.vnodeID = vnodeOf cs c.key := by
  have hsome : (cs.find? (fun d => d.key = c.key)).isSome := List.find?_isSome.mpr ⟨c,hc,by simp⟩
  obtain ⟨d,hd⟩ := Option.isSome_iff_exists.mp hsome
  have hk : d.key = c.key := by simpa using List.find?_some hd
  simp only [vnodeOf, hd, Option.map_some, Option.getD_some]
  exact h.vnode c hc d (List.mem_of_find?_eq_some hd) hk.symm

/-- No write for the key of this one has a higher version. -/
def Highest (cs : List Command) (c : Command) : Prop := c ∈ cs ∧ ∀ d ∈ cs, d.key = c.key → d.version ≤ c.version

theorem exists_highest {cs : List Command} {d : Command} (hd : d ∈ cs) : ∃ c, c.key = d.key ∧ Highest cs c := by
  obtain ⟨c,hc,hmax⟩ := (cs.toFinset.filter (fun c => c.key = d.key)).exists_max_image (fun c => c.version.toNat)
    ⟨d,by simp [hd]⟩
  simp only [Finset.mem_filter, List.mem_toFinset] at hc hmax
  exact ⟨c,hc.2,hc.1,fun e he hk => UInt64.le_iff_toNat_le.mpr (hmax e ⟨he,hk.trans hc.2⟩)⟩

/-- Two stores say the same about a key, in every map. -/
structure AgreeAt (s t : Store) (k : Key) : Prop where
  keyMeta : s.keyMeta.lookup k = t.keyMeta.lookup k
  storage : s.storage.lookup k = t.storage.lookup k
  data : ∀ v, k ∈ s.dataSet v ↔ k ∈ t.dataSet v
  deleted : ∀ v, k ∈ s.tombstoneSet v ↔ k ∈ t.tombstoneSet v

/-- Two stores are the same, up to index sets that are empty in one and absent in the other. -/
structure Agree (s t : Store) : Prop where
  keyMeta : s.keyMeta = t.keyMeta
  storage : s.storage = t.storage
  dataSet : ∀ v, s.dataSet v = t.dataSet v
  tombstoneSet : ∀ v, s.tombstoneSet v = t.tombstoneSet v
  tombstoneCount : s.tombstoneCount = t.tombstoneCount
  valueBytes : s.valueBytes = t.valueBytes
  vnodesWithData : s.vnodesWithData = t.vnodesWithData
  vnodesWithTombstones : s.vnodesWithTombstones = t.vnodesWithTombstones

/-- Where the indexes are right they follow from the metadata. -/
theorem Indexed.agreeAt {f : Key → UInt16} {s t : Store} (hs : s.Indexed f) (ht : t.Indexed f) {k : Key}
    (hm : s.keyMeta.lookup k = t.keyMeta.lookup k) (hv : s.storage.lookup k = t.storage.lookup k) : AgreeAt s t k where
  keyMeta := hm
  storage := hv
  data v := by rw [hs.data, ht.data, mark, mark, hm]
  deleted v := by rw [hs.deleted, ht.deleted, mark, mark, hm]

theorem agree_of_agreeAt {s t : Store} (hs : s.Counted) (ht : t.Counted) (h : ∀ k, AgreeAt s t k) : Agree s t := by
  have hm : s.keyMeta = t.keyMeta := Finmap.ext_lookup (fun k => (h k).keyMeta)
  have hv : s.storage = t.storage := Finmap.ext_lookup (fun k => (h k).storage)
  have hd : ∀ v, s.dataSet v = t.dataSet v := fun v => Finset.ext (fun k => (h k).data v)
  have hts : ∀ v, s.tombstoneSet v = t.tombstoneSet v := fun v => Finset.ext (fun k => (h k).deleted v)
  refine ⟨hm,hv,hd,hts,?_,?_,?_,?_⟩
  · rw [hs.tombstones, ht.tombstones, hm]
  · rw [hs.bytes, ht.bytes, hv]
  · rw [hs.data, ht.data]
    exact inhabited_congr hd
  · rw [hs.deleted, ht.deleted]
    exact inhabited_congr hts

/-- What holds of a store that has been given some of the writes. -/
structure Given (cs : List Command) (s : Store) : Prop where
  indexed : s.Indexed (vnodeOf cs)
  counted : s.Counted
  sourced : s.Sourced (· ∈ cs)

theorem given_newStore (cs : List Command) : Given cs newStore :=
  ⟨indexed_newStore _,counted_newStore,sourced_newStore _⟩

theorem Given.apply {cs : List Command} {s : Store} (h : Given cs s) (hcs : Consistent cs) {c : Command} (hc : c ∈ cs) :
    Given cs (s.apply c).1 where
  indexed := h.indexed.apply (hcs.vnodeID_eq hc)
  counted := h.counted.apply c
  sourced := h.sourced.apply_versioned (hcs.write c hc) (hcs.versioned c hc) hc (.refl c)

theorem Given.applyAll {cs ds : List Command} {s : Store} (h : Given cs s) (hcs : Consistent cs) (hds : ∀ d ∈ ds, d ∈ cs) :
    Given cs (s.applyAll ds) := by
  induction ds generalizing s with
  | nil => exact h
  | cons d ds ih =>
    obtain ⟨hd,hds⟩ := List.forall_mem_cons.mp hds
    exact ih (h.apply hcs hd) hds

/-- A key without metadata is not stored. -/
theorem Indexed.storage_none {f : Key → UInt16} {s : Store} (h : s.Indexed f) {k : Key} (hk : s.keyMeta.lookup k = none) :
    s.storage.lookup k = none := by
  have hs := h.stored k
  simpa [mark, hk] using hs

section Delivery
variable {cs ds : List Command}

/-- The writes are delivered in some order, each at least once. -/
def Delivers (cs ds : List Command) : Prop := ∀ c, c ∈ ds ↔ c ∈ cs

/-- Once all writes are delivered, the highest one for a key shows. -/
theorem shows_highest (hcs : Consistent cs) (hd : Delivers cs ds) {c : Command} (hc : Highest cs c) :
    (newStore.applyAll ds).Shows c := by
  obtain ⟨hmem,hmax⟩ := hc
  have hgiven := (given_newStore cs).applyAll hcs (fun d h => (hd d).mp h)
  have hle : c.version ≤ (newStore.applyAll ds).versionOf c.key :=
    le_versionOf_applyAll _ ds (fun d h => hcs.versioned d ((hd d).mp h)) ((hd c).mpr hmem) (hcs.write c hmem)
  have hmeta : ∃ m, (newStore.applyAll ds).keyMeta.lookup c.key = some m := by
    cases hm : (newStore.applyAll ds).keyMeta.lookup c.key with
    | none =>
      simp only [versionOf, metaOf, hm, Option.getD_none] at hle
      exact absurd (UInt64.le_zero_iff.mp hle) (hcs.versioned c hmem)
    | some m => exact ⟨m,rfl⟩
  obtain ⟨m,hm⟩ := hmeta
  obtain ⟨d,hdmem,hdk,hshow⟩ := hgiven.sourced c.key m hm
  have hver : d.version = c.version := by
    refine UInt64.le_antisymm (hmax d hdmem hdk) ?_
    rw [← hdk, hshow.versionOf] at hle
    exact hle
  exact hcs.unique d hdmem c hmem hdk hver ▸ hshow

/-- A key that no write is for stays untouched. -/
theorem keyMeta_none (hcs : Consistent cs) (hd : Delivers cs ds) {k : Key} (hk : ∀ c ∈ cs, c.key ≠ k) :
    (newStore.applyAll ds).keyMeta.lookup k = none := by
  have hgiven := (given_newStore cs).applyAll hcs (fun d h => (hd d).mp h)
  cases hm : (newStore.applyAll ds).keyMeta.lookup k with
  | none => rfl
  | some m =>
    obtain ⟨c,hc,hck,_⟩ := hgiven.sourced k m hm
    exact absurd hck (hk c hc)

theorem agreeAt_highest (hcs : Consistent cs) (hd : Delivers cs ds) {c : Command} (hc : Highest cs c) {t : Store}
    (ht : t.Indexed (vnodeOf cs)) (hshow : t.Shows c) : AgreeAt (newStore.applyAll ds) t c.key := by
  have hgiven := (given_newStore cs).applyAll hcs (fun d h => (hd d).mp h)
  have hs := shows_highest hcs hd hc
  exact hgiven.indexed.agreeAt ht (hs.keyMeta.trans hshow.keyMeta.symm) (hs.storage.trans hshow.storage.symm)

theorem agreeAt_untouched (hcs : Consistent cs) (hd : Delivers cs ds) {k : Key} (hk : ∀ c ∈ cs, c.key ≠ k) {t : Store}
    (ht : t.Indexed (vnodeOf cs)) (hm : t.keyMeta.lookup k = none) : AgreeAt (newStore.applyAll ds) t k := by
  have hgiven := (given_newStore cs).applyAll hcs (fun d h => (hd d).mp h)
  have hs := keyMeta_none hcs hd hk
  exact hgiven.indexed.agreeAt ht (hs.trans hm.symm)
    ((hgiven.indexed.storage_none hs).trans (ht.storage_none hm).symm)

end Delivery

/-- Two deliveries of the same writes give the same store, and at each key it is as if
only the highest write for the key had been made. -/
theorem deliveries_converge {cs ds es : List Command} (hcs : Consistent cs) (hd : Delivers cs ds) (he : Delivers cs es) :
    Agree (newStore.applyAll ds) (newStore.applyAll es) ∧
    (∀ c, Highest cs c → AgreeAt (newStore.applyAll ds) (newStore.apply c).1 c.key) ∧
    (∀ k, (∀ c ∈ cs, c.key ≠ k) → AgreeAt (newStore.applyAll ds) newStore k) := by
  have hgd := (given_newStore cs).applyAll hcs (fun d h => (hd d).mp h)
  have hge := (given_newStore cs).applyAll hcs (fun d h => (he d).mp h)
  refine ⟨agree_of_agreeAt hgd.counted hge.counted (fun k => ?_),fun c hc => ?_,fun k hk => ?_⟩
  · by_cases hk : ∃ c ∈ cs, c.key = k
    · obtain ⟨d,hdmem,rfl⟩ := hk
      obtain ⟨c,hck,hc⟩ := exists_highest hdmem
      exact hck ▸ agreeAt_highest hcs hd hc hge.indexed (shows_highest hcs he hc)
    · have hk' : ∀ c ∈ cs, c.key ≠ k := fun c hc hck => hk ⟨c,hc,hck⟩
      exact agreeAt_untouched hcs hd hk' hge.indexed (keyMeta_none hcs he hk')
  · have hone := (given_newStore cs).apply hcs hc.1
    have hshow := shows_apply (s := newStore) (hcs.write c hc.1) (.inr UInt64.zero_le)
    rw [stamp, if_neg (hcs.versioned c hc.1)] at hshow
    exact agreeAt_highest hcs hd hc hone.indexed hshow
  · exact agreeAt_untouched hcs hd hk (indexed_newStore _) (by simp [newStore])

/-- A put, a later delete and a put of another key, in two orders and with a repetition. -/
theorem deliveries_converge_sample :
    let k : Key := .singleton 107
    let cs : List Command := [⟨opPut,k,.singleton 1,3,5⟩,⟨opDelete,k,.singleton 0,3,6⟩,⟨opPut,.singleton 108,.singleton 2,4,5⟩]
    (newStore.applyAll cs).tombstoneCount = 1 ∧
    Agree (newStore.applyAll cs) (newStore.applyAll (cs.reverse ++ cs.take 1)) := by
  refine ⟨by decide,(deliveries_converge ⟨?_,?_,?_,?_⟩ (fun _ => Iff.rfl) (fun c => ?_)).1⟩
  · decide
  · decide
  · decide
  · decide
  · simp
    grind

end Nawst.Core.Store
