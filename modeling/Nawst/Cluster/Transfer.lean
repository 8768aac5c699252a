import Nawst.Core.Convergence
import Nawst.Cluster.Handoff

/-! The transfer of a vnode between two stores with histories of their own: the stream of
the source, the loop that applies it, and what the target knows afterwards. -/
namespace Nawst.Cluster.Transfer
open Lib.FiniteMap Nawst.Core Nawst.Core.Store Handoff

structure TransferResp where
  vnodeId : UInt32
  placementEpoch : UInt64
  key : Key
  value : Value
  version : UInt64
  emptyEntries : Bool
  error : Err
  tombstone : Bool
  deriving DecidableEq

/-- The responses to a transfer request: one for each entry, and an end marker. -/
def transferVNode (s : Store) (vnodeId : UInt32) (epoch : UInt64) (dataOrder tombstoneOrder : List Key) : List TransferResp :=
  let vnodeID := vnodeId.toUInt16
  (s.snapshotVNode vnodeID dataOrder tombstoneOrder).map
    (fun e => ⟨vnodeID.toUInt32,epoch,e.key,e.value,e.version,false,"",e.tombstone⟩) ++
  [⟨vnodeID.toUInt32,epoch,⟨[],Nat.zero_le _⟩,nilValue,0,true,"",false⟩]

def TransferResp.command (r : TransferResp) : Command :=
  ⟨if r.tombstone then opDelete else opPut,r.key,r.value,r.vnodeId.toUInt16,r.version⟩

/-- What the receiving loop is given: a response with the outcome of applying it, the end
of the stream, or an error. -/
inductive Received where
  | resp (r : TransferResp) (outcome : Option Err)
  | eof
  | failed (e : Err)

/-- The commands handed to the applier, and the result of the transfer once there is one. -/
def transferVNodeFrom (quote : Key → String) : List Received → List Command × Option (Option Err)
  | [] => ([],none)
  | .eof::_ => ([],some none)
  | .failed e::_ => ([],some (some ("failed to receive snapshot entry: " ++ e)))
  | .resp r outcome::rest =>
    if r.error ≠ "" then ([],some (some ("source node returned error: " ++ r.error)))
    else if r.emptyEntries then ([],some none)
    else match outcome with
      | some e => ([r.command],some (some ("failed applying transferred entry key=" ++ quote r.key ++ " vnode=" ++
          toString r.vnodeId.toNat ++ ": " ++ e)))
      | none => (r.command::(transferVNodeFrom quote rest).1,(transferVNodeFrom quote rest).2)

/-- The stream of the source, received without a failure. -/
def delivery (s : Store) (v : UInt16) (epoch : UInt64) (dataOrder tombstoneOrder : List Key) : List Received :=
  (transferVNode s v.toUInt32 epoch dataOrder tombstoneOrder).map (fun r => .resp r none)

/-- A transfer without failures applies the entries of the snapshot and succeeds. -/
theorem transferVNodeFrom_delivery (quote : Key → String) (s : Store) (v : UInt16) (epoch : UInt64)
    (dataOrder tombstoneOrder : List Key) :
    transferVNodeFrom quote (delivery s v epoch dataOrder tombstoneOrder) =
      ((s.snapshotVNode v dataOrder tombstoneOrder).map (entryCommand v),some none) := by
  simp only [delivery, transferVNode, UInt16.toUInt16_toUInt32]
  generalize s.snapshotVNode v dataOrder tombstoneOrder = es
  induction es with
  | nil => simp [transferVNodeFrom]
  | cons e es ih =>
    simp only [List.map_cons, List.cons_append, transferVNodeFrom, ih]
    simp [TransferResp.command, entryCommand]

/-- What can happen to the store of a node. -/
inductive Change where
  | apply (cmd : Command)
  | deleteVNodeData (v : UInt16)

def Change.command : Change → Option Command
  | .apply cmd => some cmd
  | .deleteVNodeData _ => none

def change (s : Store) : Change → Store
  | .apply cmd => (s.apply cmd).1
  | .deleteVNodeData v => s.deleteVNodeData v

/-- The store after a history. -/
def after (hs : List Change) : Store := hs.foldl change newStore

def commands (hs : List Change) : List Command := hs.filterMap Change.command

section History
variable {cs : List Command} {s : Store}

/-- What holds of the stores of all nodes: the indexes are right and every key shows one
of the writes. -/
structure Sound (cs : List Command) (s : Store) : Prop where
  indexed : s.Indexed (vnodeOf cs)
  sourced : s.Sourced (· ∈ cs)

theorem Sound.apply (h : Sound cs s) (hcs : Consistent cs) {c cmd : Command} (hc : c ∈ cs)
    (heff : SameEffect c cmd) (hv : cmd.vnodeID = c.vnodeID) : Sound cs (s.apply cmd).1 where
  indexed := h.indexed.apply (by rw [hv, ← heff.key, hcs.vnodeID_eq hc])
  sourced := h.sourced.apply_versioned (heff.op ▸ hcs.write c hc) (heff.version ▸ hcs.versioned c hc) hc heff

theorem sound_after (hcs : Consistent cs) {hs : List Change} (h : ∀ c ∈ commands hs, c ∈ cs) : Sound cs (after hs) := by
  refine List.foldlRecOn hs change ⟨indexed_newStore _,sourced_newStore _⟩ (fun s hs' e he => ?_)
  cases e with
  | apply cmd => exact hs'.apply hcs (h cmd (List.mem_filterMap.mpr ⟨_,he,rfl⟩)) (.refl cmd) rfl
  | deleteVNodeData v => exact ⟨hs'.indexed.deleteVNodeData v,hs'.sourced.deleteVNodeData v⟩

/-- Two writes that a key shows have the same effect. -/
theorem sameEffect_of_shows {c d : Command} (hc : s.Shows c) (hd : s.Shows d) (hk : c.key = d.key)
    (hcop : c.op = opPut ∨ c.op = opDelete) (hdop : d.op = opPut ∨ d.op = opDelete) : SameEffect c d := by
  obtain ⟨hver,hop,hval⟩ := hc.unique hd hk
  refine ⟨hk,hver,?_,hval⟩
  rcases hcop with hcop | hcop
  · exact hcop.trans (hdop.resolve_right (fun h => absurd (hcop.symm.trans (hop.mpr h)) (by decide))).symm
  · exact hcop.trans (hop.mp hcop).symm

end History

section Snapshot
variable {f : Key → UInt16} {s : Store} {v : UInt16} {dataOrder tombstoneOrder : List Key}

theorem entryCommand_op (v : UInt16) (e : Entry) : (entryCommand v e).op = opPut ∨ (entryCommand v e).op = opDelete := by
  unfold entryCommand
  split
  · exact .inr rfl
  · exact .inl rfl

/-- The entries of a snapshot are what the store shows of keys of the vnode. -/
theorem shows_entry (h : s.Indexed f) (hd : Enumerates dataOrder (s.dataSet v))
    (ht : Enumerates tombstoneOrder (s.tombstoneSet v)) {e : Entry} (he : e ∈ s.snapshotVNode v dataOrder tombstoneOrder) :
    s.Shows (entryCommand v e) ∧ f e.key = v := by
  have hput : ¬ (opPut = opDelete) := by decide
  unfold snapshotVNode at he
  split at he
  · cases he
  · rcases List.mem_append.mp he with he | he
    · obtain ⟨k,hk,hmap⟩ := List.mem_filterMap.mp he
      obtain ⟨val,hval,rfl⟩ := Option.map_eq_some_iff.mp hmap
      rw [← List.mem_toFinset, hd.2, h.data] at hk
      obtain ⟨⟨version,tombstone⟩,hm,rfl : tombstone = false⟩ := Option.map_eq_some_iff.mp hk.2
      refine ⟨⟨?_,?_⟩,hk.1⟩
      · simp [entryCommand, versionOf, metaOf, hm, hput]
      · simp [entryCommand, metaOf, hm, hval, hput]
    · obtain ⟨k,hk,rfl⟩ := List.mem_map.mp he
      rw [← List.mem_toFinset, ht.2, h.deleted] at hk
      obtain ⟨⟨version,tombstone⟩,hm,rfl : tombstone = true⟩ := Option.map_eq_some_iff.mp hk.2
      have hnone : s.storage.lookup k = none := by
        have hs := h.stored k
        rw [hk.2] at hs
        simpa using hs
      refine ⟨⟨?_,?_⟩,hk.1⟩
      · simp [entryCommand, versionOf, metaOf, hm]
      · simp [entryCommand, hnone]

/-- The snapshot looks at the tombstones of the vnode, or there are none. -/
def Complete (s : Store) (v : UInt16) : Prop := (s.vNodeIdx.lookup v).isSome ∨ s.tombstoneSet v = ∅

instance (s : Store) (v : UInt16) : Decidable (Complete s v) := inferInstanceAs (Decidable (_ ∨ _))

/-- A complete snapshot has an entry for every key of the vnode with metadata. -/
theorem exists_entry (h : s.Indexed f) (hd : Enumerates dataOrder (s.dataSet v))
    (ht : Enumerates tombstoneOrder (s.tombstoneSet v)) (hc : Complete s v) {k : Key} (hk : f k = v)
    {b : Bool} (hm : s.mark k = some b) : ∃ e ∈ s.snapshotVNode v dataOrder tombstoneOrder, e.key = k := by
  have hmem : k ∈ (s.snapshotVNode v dataOrder tombstoneOrder).map Entry.key := by
    rw [h.snapshot_keys hd]
    cases b with
    | false =>
      have hdata := (h.data v k).mpr ⟨hk,hm⟩
      have hidx : (s.vNodeIdx.lookup v).isSome := by
        by_contra hn
        simp [dataSet, Option.not_isSome_iff_eq_none.mp hn] at hdata
      rw [if_pos hidx]
      rw [← hd.2, List.mem_toFinset] at hdata
      exact List.mem_append_left _ hdata
    | true =>
      have hdeleted := (h.deleted v k).mpr ⟨hk,hm⟩
      rw [if_pos (hc.resolve_right (Finset.ne_empty_of_mem hdeleted))]
      rw [← ht.2, List.mem_toFinset] at hdeleted
      exact List.mem_append_right _ hdeleted
  exact List.mem_map.mp hmem

end Snapshot

/-- The target knows the key at least as well as the source does. -/
structure CaughtUp (s t : Store) (k : Key) : Prop where
  version : s.versionOf k ≤ t.versionOf k
  same : t.versionOf k = s.versionOf k →
    t.keyMeta.lookup k = s.keyMeta.lookup k ∧ t.storage.lookup k = s.storage.lookup k
  deleted : (s.metaOf k).tombstone → ∀ value version, t.getWithVersion k = .ok (value,version) → s.versionOf k < version

/-- It is enough to compare versions and what is known under equal ones. -/
theorem caughtUp_of_same {s t : Store} {k : Key} (hv : s.versionOf k ≤ t.versionOf k)
    (hsame : t.versionOf k = s.versionOf k →
      t.keyMeta.lookup k = s.keyMeta.lookup k ∧ t.storage.lookup k = s.storage.lookup k) : CaughtUp s t k := by
  refine ⟨hv,hsame,fun hdel value version hget => ?_⟩
  unfold getWithVersion at hget
  split at hget
  · cases hget
  · split at hget
    · cases hget
    · rename_i hlive
      obtain ⟨rfl,rfl⟩ := Prod.mk.inj (Except.ok.inj hget)
      refine UInt64.lt_of_le_of_ne hv (fun heq => hlive ?_)
      rw [metaOf, (hsame heq.symm).1]
      exact hdel

section Target
variable {cs ds : List Command} {s t : Store} {v : UInt16} {dataOrder tombstoneOrder : List Key}

/-- An entry has the effect of the write that its key shows at the source. -/
theorem entryCommand_effect (hs : Sound cs s) (hcs : Consistent cs) (hd : Enumerates dataOrder (s.dataSet v))
    (ht : Enumerates tombstoneOrder (s.tombstoneSet v)) {e : Entry} (he : e ∈ s.snapshotVNode v dataOrder tombstoneOrder) :
    ∃ c ∈ cs, SameEffect c (entryCommand v e) ∧ (entryCommand v e).vnodeID = c.vnodeID ∧ s.Shows c := by
  obtain ⟨hshow,hv⟩ := shows_entry hs.indexed hd ht he
  obtain ⟨c,hc,hk,hcs'⟩ := hs.sourced e.key _ hshow.keyMeta
  exact ⟨c,hc,sameEffect_of_shows hcs' hshow hk (hcs.write c hc) (entryCommand_op v e),
    by rw [hcs.vnodeID_eq hc, hk, hv]; rfl,hcs'⟩

/-- Every command that reaches the target has the effect of one of the writes. -/
theorem Sound.applyAll (ht : Sound cs t) (hcs : Consistent cs)
    (h : ∀ d ∈ ds, ∃ c ∈ cs, SameEffect c d ∧ d.vnodeID = c.vnodeID) : Sound cs (t.applyAll ds) := by
  induction ds generalizing t with
  | nil => exact ht
  | cons d ds ih =>
    obtain ⟨⟨c,hc,heff,hv⟩,hds⟩ := List.forall_mem_cons.mp h
    exact ih (ht.apply hcs hc heff hv) hds

/-- Two stores that show the writes agree on a key that has one version in both. -/
theorem Sound.same (hs : Sound cs s) (ht : Sound cs t) (hcs : Consistent cs) {k : Key} {m : KeyMeta}
    (hm : s.keyMeta.lookup k = some m) (hv : t.versionOf k = s.versionOf k) :
    t.keyMeta.lookup k = s.keyMeta.lookup k ∧ t.storage.lookup k = s.storage.lookup k := by
  obtain ⟨c,hc,rfl,hshow⟩ := hs.sourced k m hm
  cases hm' : t.keyMeta.lookup c.key with
  | none =>
    have hz : t.versionOf c.key = 0 := by simp [versionOf, metaOf, hm']
    rw [hshow.versionOf, hz] at hv
    exact absurd hv.symm (hcs.versioned c hc)
  | some m' =>
    obtain ⟨d,hd,hdk,hshow'⟩ := ht.sourced c.key m' hm'
    have hver : d.version = c.version := by rw [← hshow'.versionOf, hdk, hv, hshow.versionOf]
    obtain rfl := hcs.unique d hd c hc hdk hver
    exact ⟨by rw [← hm', hshow'.keyMeta, hshow.keyMeta],by rw [hshow'.storage, hshow.storage]⟩

theorem caughtUp_of_complete (hcs : Consistent cs) (hs : Sound cs s) (ht : Sound cs t)
    (hd : Enumerates dataOrder (s.dataSet v)) (hto : Enumerates tombstoneOrder (s.tombstoneSet v)) (hc : Complete s v)
    (hin : ∀ e ∈ s.snapshotVNode v dataOrder tombstoneOrder, entryCommand v e ∈ ds)
    (hds : ∀ d ∈ ds, ∃ c ∈ cs, SameEffect c d ∧ d.vnodeID = c.vnodeID) {k : Key} (hk : vnodeOf cs k = v)
    {m : KeyMeta} (hm : s.keyMeta.lookup k = some m) : CaughtUp s (t.applyAll ds) k := by
  refine caughtUp_of_same ?_ (hs.same (ht.applyAll hcs hds) hcs hm)
  obtain ⟨e,he,rfl⟩ := exists_entry hs.indexed hd hto hc hk (b := m.tombstone) (by simp [mark, hm])
  have hver : s.versionOf e.key = (entryCommand v e).version := (shows_entry hs.indexed hd hto he).1.versionOf
  rw [hver]
  refine le_versionOf_applyAll t ds (fun d hd => ?_) (hin e he) (entryCommand_op v e)
  obtain ⟨c,hc,heff,_⟩ := hds d hd
  exact heff.version ▸ hcs.versioned c hc

end Target

/-- A transfer carries all of a vnode, to every target and under every interleaving with
other writes, exactly if the source has an index entry for the vnode or no tombstones in
it. Without the entry the snapshot leaves the tombstones out. -/
theorem transfer_carries_iff (quote : Key → String) (hs : List Change) (v : UInt16) (epoch : UInt64)
    (dataOrder tombstoneOrder : List Key) (hcs : Consistent (commands hs))
    (hd : Enumerates dataOrder ((after hs).dataSet v)) (ht : Enumerates tombstoneOrder ((after hs).tombstoneSet v)) :
    (∀ (ts : List Change) (others ds : List Command), Consistent (commands hs ++ commands ts ++ others) →
      (∀ c, c ∈ ds ↔
        c ∈ (transferVNodeFrom quote (delivery (after hs) v epoch dataOrder tombstoneOrder)).1 ∨ c ∈ others) →
      ∀ k m, vnodeOf (commands hs ++ commands ts ++ others) k = v → (after hs).keyMeta.lookup k = some m →
        CaughtUp (after hs) ((after ts).applyAll ds) k) ↔
    Complete (after hs) v := by
  rw [transferVNodeFrom_delivery]
  constructor
  · intro h
    by_contra hc
    obtain ⟨hidx,hne⟩ := not_or.mp hc
    -- With nothing else going on an empty target stays empty.
    obtain ⟨k,hk⟩ := Finset.nonempty_iff_ne_empty.mpr hne
    have hsound : Sound (commands hs) (after hs) := sound_after hcs (fun c hc => hc)
    obtain ⟨hkv,hmark⟩ := (hsound.indexed.deleted v k).mp hk
    obtain ⟨m,hm,-⟩ := Option.map_eq_some_iff.mp hmark
    have hempty : (after hs).snapshotVNode v dataOrder tombstoneOrder = [] := by
      simp only [snapshotVNode, Option.not_isSome_iff_eq_none.mp hidx]
    have hup := h [] [] [] (by simpa [commands] using hcs) (by simp [hempty]) k m (by simpa [commands] using hkv) hm
    obtain ⟨c,hc,rfl,hshow⟩ := hsound.sourced k m hm
    have hle := hup.version
    rw [hshow.versionOf] at hle
    exact hcs.versioned c hc (UInt64.le_zero_iff.mp hle)
  · intro hc ts others ds hall hds k m hk hm
    have hsound : Sound (commands hs ++ commands ts ++ others) (after hs) := sound_after hall (fun c hc => by simp [hc])
    refine caughtUp_of_complete hall hsound (sound_after hall (fun c hc => by simp [hc])) hd ht hc
      (fun e he => (hds _).mpr (.inl (List.mem_map_of_mem he))) (fun d hmem => ?_) hk hm
    rcases (hds d).mp hmem with hentry | hother
    · obtain ⟨e,he,rfl⟩ := List.mem_map.mp hentry
      obtain ⟨c,hc,heff,hv,-⟩ := entryCommand_effect hsound hall hd ht he
      exact ⟨c,hc,heff,hv⟩
    · exact ⟨d,by simp [hother],.refl d,rfl⟩

/-- The source has deleted the key and does not know a put of it in the vnode. -/
def deletedOnly : List Change := [.apply ⟨opDelete,sampleKey,nilValue,3,6⟩]

/-- The target has an older put. -/
def olderPut : List Change := [.apply ⟨opPut,sampleKey,.singleton 1,3,5⟩]

/-- A source that has seen the put as well carries its deletion. -/
theorem transfer_carries_iff_sample :
    let hs := olderPut ++ deletedOnly
    (after hs).keyMeta.lookup sampleKey = some ⟨6,true⟩ ∧ Complete (after hs) 3 ∧
    CaughtUp (after hs) ((after olderPut).applyAll
      (transferVNodeFrom (fun _ => "") (delivery (after hs) 3 1 [] [sampleKey])).1) sampleKey := by
  have hc : Complete (after (olderPut ++ deletedOnly)) 3 := by decide
  refine ⟨by decide,hc,?_⟩
  refine (transfer_carries_iff (fun _ => "") (olderPut ++ deletedOnly) 3 1 [] [sampleKey]
    ⟨by decide,by decide,by decide,by decide⟩ (by decide) (by decide)).mpr hc olderPut [] _
    ⟨by decide,by decide,by decide,by decide⟩ (by simp) sampleKey ⟨6,true⟩ (by decide) (by decide)

/-- The key is gone at the source, the transfer succeeds, and the target still reads the
older value. -/
theorem deletion_not_carried :
    Consistent (commands deletedOnly ++ commands olderPut) ∧
    (after deletedOnly).keyMeta.lookup sampleKey = some ⟨6,true⟩ ∧
    Enumerates [] ((after deletedOnly).dataSet 3) ∧ Enumerates [sampleKey] ((after deletedOnly).tombstoneSet 3) ∧
    transferVNodeFrom (fun _ => "") (delivery (after deletedOnly) 3 1 [] [sampleKey]) = ([],some none) ∧
    ((after olderPut).applyAll
      (transferVNodeFrom (fun _ => "") (delivery (after deletedOnly) 3 1 [] [sampleKey])).1).getWithVersion sampleKey =
        .ok (.singleton 1,5) ∧
    ¬ CaughtUp (after deletedOnly) ((after olderPut).applyAll
      (transferVNodeFrom (fun _ => "") (delivery (after deletedOnly) 3 1 [] [sampleKey])).1) sampleKey := by
  have hloop : transferVNodeFrom (fun _ => "") (delivery (after deletedOnly) 3 1 [] [sampleKey]) = ([],some none) := by
    rw [transferVNodeFrom_delivery]
    decide
  rw [hloop]
  exact ⟨⟨by decide,by decide,by decide,by decide⟩,by decide,by decide,by decide,rfl,by decide,
    fun h => absurd h.version (by decide)⟩

end Nawst.Cluster.Transfer
