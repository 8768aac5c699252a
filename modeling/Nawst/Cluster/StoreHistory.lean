import Nawst.Lib.Machine
import Nawst.Cluster.Transfer

/-! The indexes and counters of a store after any history of commands and dropped vnodes
in which every key belongs to one vnode. -/
namespace Nawst.Cluster.Transfer
open Lib Lib.FiniteMap Nawst.Core Nawst.Core.Store

/-- Every command is for the vnode of its key. -/
def Placed (f : Key → UInt16) (hs : List Change) : Prop := ∀ c ∈ commands hs, c.vnodeID = f c.key

instance (f : Key → UInt16) (hs : List Change) : Decidable (Placed f hs) := inferInstanceAs (Decidable (∀ c ∈ _, _))

section Placed
variable {f : Key → UInt16} {s : Store} {e : Change} {hs : List Change}

theorem placed_cons : Placed f (e::hs) ↔ (∀ c ∈ e.command, c.vnodeID = f c.key) ∧ Placed f hs := by
  cases e with
  | apply cmd => simp [Placed, commands, Change.command]
  | deleteVNodeData v => simp [Placed, commands, Change.command]

theorem indexed_change (h : s.Indexed f) (he : ∀ c ∈ e.command, c.vnodeID = f c.key) : (change s e).Indexed f := by
  cases e with
  | apply cmd => exact h.apply (he cmd rfl)
  | deleteVNodeData v => exact h.deleteVNodeData v

theorem indexed_history (h : s.Indexed f) (hp : Placed f hs) : (hs.foldl change s).Indexed f := by
  induction hs generalizing s with
  | nil => exact h
  | cons e hs ih =>
    obtain ⟨he,hp⟩ := placed_cons.mp hp
    exact ih (indexed_change h he) hp

end Placed

/-- Each key is stored exactly if it is live, and listed under its own vnode only, among the
live keys or among the deleted ones; so a snapshot finds every key of the index stored, and
no key twice. -/
theorem indexes_partition (f : Key → UInt16) (hs : List Change) (hp : Placed f hs) :
    (∀ k, (((after hs).storage.lookup k).isSome ↔ (after hs).mark k = some false) ∧
      ((after hs).mark k = some false ↔ k ∈ (after hs).dataSet (f k)) ∧
      ((after hs).mark k = some true ↔ k ∈ (after hs).tombstoneSet (f k)) ∧
      ∀ v, v ≠ f k → k ∉ (after hs).dataSet v ∧ k ∉ (after hs).tombstoneSet v) ∧
    ∀ v dataOrder tombstoneOrder, Enumerates dataOrder ((after hs).dataSet v) →
      Enumerates tombstoneOrder ((after hs).tombstoneSet v) →
      (∀ k ∈ dataOrder, ((after hs).storage.lookup k).isSome) ∧
      (((after hs).snapshotVNode v dataOrder tombstoneOrder).map Entry.key).Nodup := by
  have h : (after hs).Indexed f := indexed_history (indexed_newStore f) hp
  refine ⟨fun k => ⟨h.stored k,?_,?_,fun v hv => ?_⟩,fun v dataOrder tombstoneOrder hd ht => ?_⟩
  · simp [h.data]
  · simp [h.deleted]
  · simp [h.data, h.deleted, Ne.symm hv]
  · exact ⟨fun k hk => h.stored_of_mem hd hk,h.snapshot_keys_nodup hd ht⟩

/-- A put, an older delete, an unversioned delete and a dropped vnode. -/
def sampleHistory : List Change :=
  [.apply ⟨opPut,.singleton 107,.singleton 1,3,5⟩,.apply ⟨opDelete,.singleton 107,nilValue,3,4⟩,
    .apply ⟨opDelete,.singleton 107,nilValue,3,0⟩,.apply ⟨opPut,.singleton 108,nilValue,4,1⟩,.deleteVNodeData 4]

/-- The vnodes of its two keys. -/
def sampleVNodeOf (k : Key) : UInt16 := if k = .singleton 108 then 4 else 3

theorem indexes_partition_sample :
    (after sampleHistory).mark (.singleton 107) = some true ∧ Bytes.singleton 107 ∈ (after sampleHistory).tombstoneSet 3 := by
  have hp : Placed sampleVNodeOf sampleHistory := by decide
  have hm : (after sampleHistory).mark (.singleton 107) = some true := by decide
  exact ⟨hm,((indexes_partition sampleVNodeOf sampleHistory hp).1 (.singleton 107)).2.2.1.mp hm⟩

/-- A vnode is dropped when all its values are empty. -/
def SparesBytes (s : Store) : Change → Prop
  | .apply _ => True
  | .deleteVNodeData v => s.bytesIn v = 0

instance (s : Store) : (e : Change) → Decidable (SparesBytes s e)
  | .apply _ => isTrue trivial
  | .deleteVNodeData v => inferInstanceAs (Decidable (s.bytesIn v = 0))

/-- Histories as runs of a machine. -/
def step (s : Store) (e : Change) : Option Store := some (change s e)

section Bytes
variable {f : Key → UInt16} {s : Store} {lost : Int}

private theorem valueLen_nonneg (s : Store) (k : Key) : 0 ≤ s.valueLen k := by
  unfold valueLen
  cases s.storage.lookup k <;> simp

theorem bytesIn_nonneg (s : Store) (v : UInt16) : 0 ≤ s.bytesIn v := Finset.sum_nonneg (fun k _ => valueLen_nonneg s k)

/-- One change: the count of bytes runs ahead by what a dropped vnode held. -/
theorem accounted_change (h : s.Indexed f) (ha : s.Accounted lost) (e : Change) :
    ∃ lost', (change s e).Accounted lost' ∧ lost ≤ lost' ∧ (lost' = lost ↔ SparesBytes s e) := by
  cases e with
  | apply cmd => exact ⟨lost,ha.apply cmd,Int.le_refl _,iff_of_true rfl trivial⟩
  | deleteVNodeData v =>
    have hpos := bytesIn_nonneg s v
    refine ⟨_,ha.deleteVNodeData h v,by omega,?_⟩
    simp only [SparesBytes]
    omega

/-- A whole history: it is never made up for, so it stays exact only if nothing was lost. -/
theorem accounted_history {hs : List Change} (h : s.Indexed f) (ha : s.Accounted lost) (hp : Placed f hs) :
    ∃ lost', (hs.foldl change s).Accounted lost' ∧ lost ≤ lost' ∧
      (lost' = lost ↔ Machine.Meets step SparesBytes s hs) := by
  induction hs generalizing s lost with
  | nil => exact ⟨lost,ha,Int.le_refl _,iff_of_true rfl trivial⟩
  | cons e hs ih =>
    obtain ⟨he,hp⟩ := placed_cons.mp hp
    obtain ⟨mid,hmid,hle,hiff⟩ := accounted_change h ha e
    obtain ⟨final,hfinal,hle',hiff'⟩ := ih (indexed_change h he) hmid hp
    have hstep : step s e = some (change s e) := rfl
    refine ⟨final,hfinal,by omega,?_⟩
    rw [Machine.meets_cons hstep, ← hiff, ← hiff']
    omega

end Bytes

/-- The counters of tombstones and of vnodes are exact and none is negative; the count of
bytes is exact if and only if no vnode was dropped with bytes in it. -/
theorem counters_exact_iff (f : Key → UInt16) (hs : List Change) (hp : Placed f hs) :
    (after hs).tombstoneCount = ((after hs).keyMeta.keys.filter (fun k => (after hs).mark k = some true)).card ∧
    (after hs).vnodesWithData = ((after hs).vNodeIdx.keys.filter (fun v => (after hs).dataSet v ≠ ∅)).card ∧
    (after hs).vnodesWithTombstones = ((after hs).tombstoneIdx.keys.filter (fun v => (after hs).tombstoneSet v ≠ ∅)).card ∧
    0 ≤ (after hs).valueBytes ∧
    ((after hs).valueBytes = ∑ k ∈ (after hs).storage.keys, (after hs).valueLen k ↔
      Machine.Meets step SparesBytes newStore hs) := by
  obtain ⟨lost,ha,hpos,hiff⟩ := accounted_history (indexed_newStore f) accounted_newStore hp
  change (after hs).Accounted lost at ha
  have hbytes : (after hs).valueBytes = ∑ k ∈ (after hs).storage.keys, (after hs).valueLen k+lost := ha.bytes
  have hsum : 0 ≤ ∑ k ∈ (after hs).storage.keys, (after hs).valueLen k :=
    Finset.sum_nonneg (fun k _ => valueLen_nonneg _ k)
  refine ⟨?_,ha.data.trans (inhabited_eq_card _),ha.deleted.trans (inhabited_eq_card _),by omega,?_⟩
  · refine ha.tombstones.trans (total_eq_card _ (fun k => ?_))
    unfold weight mark
    cases (after hs).keyMeta.lookup k <;> simp
  · rw [← hiff, hbytes]
    omega

theorem counters_exact_iff_sample :
    (after sampleHistory).tombstoneCount = 1 ∧
    (after sampleHistory).valueBytes = ∑ k ∈ (after sampleHistory).storage.keys, (after sampleHistory).valueLen k := by
  have hp : Placed sampleVNodeOf sampleHistory := by decide
  exact ⟨by decide,(counters_exact_iff sampleVNodeOf sampleHistory hp).2.2.2.2.mpr (by decide)⟩

/-- One put and the drop of its vnode: nothing is stored, and one byte is counted. -/
theorem dropped_bytes_counted :
    let hs : List Change := [.apply ⟨opPut,.singleton 107,.singleton 1,3,5⟩,.deleteVNodeData 3]
    Placed (fun _ => 3) hs ∧ (after hs).storage = ∅ ∧ (after hs).valueBytes = 1 ∧
      ∑ k ∈ (after hs).storage.keys, (after hs).valueLen k = 0 := by
  decide

end Nawst.Cluster.Transfer
