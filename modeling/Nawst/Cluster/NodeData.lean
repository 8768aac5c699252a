import Nawst.Lib.Machine
import Nawst.Cluster.Migration
import Nawst.Cluster.Transfer

/-! The data of one node: client writes and writes from other nodes on their way to the
store, placements being installed, droppers that remove lost vnodes, and snapshots that
other nodes ask for, in any interleaving. -/
namespace Nawst.Cluster.NodeData
open Lib Nawst.Core Nawst.Core.Store

abbrev Ring := { p : Placement // p.IsRing }

/-- A put or delete that has passed the ownership check. -/
structure Call where
  op : OpType
  key : Key
  value : Value
  deriving DecidableEq

inductive Source where
  | client
  | received
  | dropper (i : Nat)
  deriving DecidableEq

/-- A request on its way to the event loop. -/
structure Pending where
  cmd : Command
  source : Source
  deriving DecidableEq

/-- A dropper goes through the listed keys, waits for each delete and wipes at the end. -/
inductive Phase where
  | deleting (keys : List Key)
  | waiting (keys : List Key)
  | ended
  deriving DecidableEq

def Phase.keys : Phase → List Key
  | .deleting keys => keys
  | .waiting keys => keys
  | .ended => []

structure Dropper where
  vnodeID : UInt16
  phase : Phase
  deriving DecidableEq

/-- The response to the delete in hand. -/
def Dropper.resume (d : Dropper) : Dropper :=
  match d.phase with
  | .waiting keys => { d with phase := .deleting keys }
  | _ => d

/-- The node, the changes of placement that it has seen, the writes of clients and other
nodes that reached its store under their stamps, the vnodes in which a dropper has deleted
since they were last wiped, and the snapshots that were taken. -/
structure State where
  placement : Option Ring
  changes : List (Placement × Placement)
  store : Store
  versionCounter : UInt64
  calls : List Call
  pending : List Pending
  droppers : List Dropper
  origins : List Command
  dirty : Finset UInt16
  snapshots : List (UInt16 × List Entry)

def init (versionCounter : UInt64) : State := ⟨none,[],newStore,versionCounter,[],[],[],[],∅,[]⟩

inductive Event where
  | put (key : Key) (value : Value)
  | delete (key : Key)
  | annotate (i : Nat) (now : UInt64)
  | receive (cmd : Command)
  | apply (i : Nat)
  | install (p : Ring)
  | beginDrop (v : UInt16) (order : List Key)
  | dropNext (i : Nat) (now : UInt64)
  | wipe (i : Nat)
  | dropFails (i : Nat)
  | snapshot (v : UInt16) (dataOrder tombstoneOrder : List Key)

namespace State

def setDropper (s : State) (i : Nat) (d : Dropper) : State := { s with droppers := s.droppers.set i d }

def enqueue (s : State) (r : Pending) (version : UInt64) : State :=
  { s with pending := s.pending ++ [r], versionCounter := version }

/-- The event loop applies a request and answers it. -/
def applied (s : State) (r : Pending) : State :=
  match r.source with
  | .dropper i =>
    { s with
      store := (s.store.apply r.cmd).1
      dirty := if s.store.Takes r.cmd then insert r.cmd.vnodeID s.dirty else s.dirty
      droppers := match s.droppers[i]? with
        | some d => s.droppers.set i d.resume
        | none => s.droppers }
  | .client | .received =>
    { s with
      store := (s.store.apply r.cmd).1
      origins := s.origins ++ [{ r.cmd with version := s.store.stamp r.cmd }] }

section Step
variable (hashKey : Key → UInt64) (self : NodeID)

def arrive (s : State) (c : Call) : Option State :=
  if (checkOwnership hashKey self (s.placement.map Subtype.val) c.key).1 then some { s with calls := s.calls ++ [c] }
  else none

/-- The command of a call, with the vnode that the present placement gives. -/
def command (s : State) (c : Call) (version : UInt64) : Command :=
  ⟨c.op,c.key,c.value,getVNodeForKey hashKey (s.placement.map Subtype.val) c.key,version⟩

def step (s : State) : Event → Option State
  | .put key value => s.arrive hashKey self ⟨opPut,key,value⟩
  | .delete key => s.arrive hashKey self ⟨opDelete,key,nilValue⟩
  | .annotate i now => do
    let c ← s.calls[i]?
    let version := nextVersion s.versionCounter now
    some { s.enqueue ⟨s.command hashKey c version,.client⟩ version with calls := s.calls.eraseIdx i }
  | .receive cmd =>
    if cmd.op = opPut ∨ cmd.op = opDelete then some (s.enqueue ⟨cmd,.received⟩ s.versionCounter) else none
  | .apply i => do
    let r ← s.pending[i]?
    some { s.applied r with pending := s.pending.eraseIdx i }
  | .install p => some { s with
      placement := some p
      changes := s.changes ++ (s.placement.map (fun old => (old.val,p.val))).toList }
  | .beginDrop v order =>
    if (∃ c ∈ s.changes, Migration.classify self c.1 c.2 v = some .lost) ∧ Enumerates order (s.store.dataSet v) then
      some { s with droppers := s.droppers ++ [⟨v,.deleting order⟩] }
    else none
  | .dropNext i now => do
    let d ← s.droppers[i]?
    match d.phase with
    | .deleting (k::ks) =>
      let version := nextVersion s.versionCounter now
      some ((s.enqueue ⟨⟨opDelete,k,nilValue,d.vnodeID,version⟩,.dropper i⟩ version).setDropper i
        { d with phase := .waiting ks })
    | _ => none
  | .wipe i => do
    let d ← s.droppers[i]?
    if d.phase = .deleting [] then
      some { s.setDropper i { d with phase := .ended } with
        store := s.store.deleteVNodeData d.vnodeID, dirty := s.dirty.erase d.vnodeID }
    else none
  | .dropFails i => do
    -- A delete is not answered in time or fails; it may still be applied.
    let d ← s.droppers[i]?
    if d.phase = .ended then none else some (s.setDropper i { d with phase := .ended })
  | .snapshot v dataOrder tombstoneOrder =>
    if Enumerates dataOrder (s.store.dataSet v) ∧ Enumerates tombstoneOrder (s.store.tombstoneSet v) then
      some { s with snapshots := s.snapshots ++ [(v,s.store.snapshotVNode v dataOrder tombstoneOrder)] }
    else none

/-- Everything a step can do, one rule for each branch. -/
inductive Fires (s : State) : Event → State → Prop where
  | put (key : Key) (value : Value) : Fires s (.put key value) { s with calls := s.calls ++ [⟨opPut,key,value⟩] }
  | delete (key : Key) : Fires s (.delete key) { s with calls := s.calls ++ [⟨opDelete,key,nilValue⟩] }
  | annotate {i : Nat} {c : Call} (now version : UInt64) (hi : s.calls[i]? = some c) : Fires s (.annotate i now)
      { s.enqueue ⟨s.command hashKey c version,.client⟩ version with calls := s.calls.eraseIdx i }
  | receive {cmd : Command} (hop : cmd.op = opPut ∨ cmd.op = opDelete) :
      Fires s (.receive cmd) (s.enqueue ⟨cmd,.received⟩ s.versionCounter)
  | apply {i : Nat} {r : Pending} (hi : s.pending[i]? = some r) :
      Fires s (.apply i) { s.applied r with pending := s.pending.eraseIdx i }
  | install (p : Ring) (changes : List (Placement × Placement)) :
      Fires s (.install p) { s with placement := some p, changes := changes }
  | beginDrop {v : UInt16} {order : List Key} (ho : Enumerates order (s.store.dataSet v)) :
      Fires s (.beginDrop v order) { s with droppers := s.droppers ++ [⟨v,.deleting order⟩] }
  | dropNext {i : Nat} {d : Dropper} {k : Key} {ks : List Key} (now version : UInt64) (hi : s.droppers[i]? = some d)
      (hd : d.phase = .deleting (k::ks)) : Fires s (.dropNext i now)
      ((s.enqueue ⟨⟨opDelete,k,nilValue,d.vnodeID,version⟩,.dropper i⟩ version).setDropper i
        { d with phase := .waiting ks })
  | wipe {i : Nat} {d : Dropper} : Fires s (.wipe i)
      { s.setDropper i { d with phase := .ended } with
        store := s.store.deleteVNodeData d.vnodeID, dirty := s.dirty.erase d.vnodeID }
  | dropFails {i : Nat} {d : Dropper} : Fires s (.dropFails i) (s.setDropper i { d with phase := .ended })
  | snapshot {v : UInt16} {dataOrder tombstoneOrder : List Key} (hd : Enumerates dataOrder (s.store.dataSet v))
      (ht : Enumerates tombstoneOrder (s.store.tombstoneSet v)) : Fires s (.snapshot v dataOrder tombstoneOrder)
      { s with snapshots := s.snapshots ++ [(v,s.store.snapshotVNode v dataOrder tombstoneOrder)] }

private theorem arrive_calls {s s' : State} {c : Call} (h : s.arrive hashKey self c = some s') :
    s' = { s with calls := s.calls ++ [c] } := by
  simp only [arrive, Option.ite_none_right_eq_some, Option.some.injEq] at h
  exact h.2.symm

theorem step_fires {s s' : State} {e : Event} (hs : s.step hashKey self e = some s') : Fires hashKey s e s' := by
  cases e with
  | put key value =>
    obtain rfl := arrive_calls hashKey self hs
    exact .put key value
  | delete key =>
    obtain rfl := arrive_calls hashKey self hs
    exact .delete key
  | annotate i now =>
    simp only [step, Option.bind_eq_bind, Option.bind_eq_some_iff, Option.some.injEq] at hs
    obtain ⟨c,hi,rfl⟩ := hs
    exact .annotate now _ hi
  | receive cmd =>
    simp only [step, Option.ite_none_right_eq_some, Option.some.injEq] at hs
    obtain ⟨hop,rfl⟩ := hs
    exact .receive hop
  | apply i =>
    simp only [step, Option.bind_eq_bind, Option.bind_eq_some_iff, Option.some.injEq] at hs
    obtain ⟨r,hi,rfl⟩ := hs
    exact .apply hi
  | install p =>
    simp only [step, Option.some.injEq] at hs
    subst hs
    exact .install p _
  | beginDrop v order =>
    simp only [step, Option.ite_none_right_eq_some, Option.some.injEq] at hs
    obtain ⟨⟨_,ho⟩,rfl⟩ := hs
    exact .beginDrop ho
  | dropNext i now =>
    simp only [step, Option.bind_eq_bind, Option.bind_eq_some_iff] at hs
    obtain ⟨d,hi,hs⟩ := hs
    split at hs
    · rename_i k ks hd
      cases hs
      exact .dropNext now _ hi hd
    · cases hs
  | wipe i =>
    simp only [step, Option.bind_eq_bind, Option.bind_eq_some_iff, Option.ite_none_right_eq_some,
      Option.some.injEq] at hs
    obtain ⟨d,_,_,rfl⟩ := hs
    exact .wipe
  | dropFails i =>
    simp only [step, Option.bind_eq_bind, Option.bind_eq_some_iff, Option.ite_none_left_eq_some,
      Option.some.injEq] at hs
    obtain ⟨d,_,_,rfl⟩ := hs
    exact .dropFails
  | snapshot v dataOrder tombstoneOrder =>
    simp only [step, Option.ite_none_right_eq_some, Option.some.injEq] at hs
    obtain ⟨⟨hd,ht⟩,rfl⟩ := hs
    exact .snapshot hd ht

/-- Writes are given the vnode that their key hashes to: a client write is annotated when
a placement is installed, or its key belongs to the vnode that stands in for one. -/
def Annotated (s : State) : Event → Prop
  | .annotate i _ => ∀ c ∈ s.calls[i]?, s.placement.isSome ∨ keyVNode hashKey c.key = 0
  | .receive cmd => cmd.vnodeID = keyVNode hashKey cmd.key
  | _ => True

instance (s : State) (e : Event) : Decidable (s.Annotated hashKey e) :=
  match e with
  | .annotate i _ =>
    inferInstanceAs (Decidable (∀ c ∈ s.calls[i]?, s.placement.isSome ∨ keyVNode hashKey c.key = 0))
  | .receive cmd => inferInstanceAs (Decidable (cmd.vnodeID = keyVNode hashKey cmd.key))
  | .put .. | .delete _ | .apply _ | .install _ | .beginDrop .. | .dropNext .. | .wipe _ | .dropFails _ | .snapshot .. =>
    isTrue trivial

/-- The indexes are right, and everything under way is for the vnode of its key. -/
structure Inv (s : State) : Prop where
  indexed : s.store.Indexed (keyVNode hashKey)
  calls : ∀ c ∈ s.calls, c.op = opPut ∨ c.op = opDelete
  pending : ∀ r ∈ s.pending, (r.cmd.op = opPut ∨ r.cmd.op = opDelete) ∧ r.cmd.vnodeID = keyVNode hashKey r.cmd.key
  droppers : ∀ d ∈ s.droppers, ∀ k ∈ d.phase.keys, keyVNode hashKey k = d.vnodeID

theorem init_inv (versionCounter : UInt64) : Inv hashKey (init versionCounter) where
  indexed := indexed_newStore _
  calls := by simp [init]
  pending := by simp [init]
  droppers := by simp [init]

variable {hashKey self} {s s' : State} {e : Event}

private theorem getVNodeForKey_eq {pl : Option Ring} {key : Key} (h : pl.isSome ∨ keyVNode hashKey key = 0) :
    getVNodeForKey hashKey (pl.map Subtype.val) key = keyVNode hashKey key := by
  cases pl with
  | none => exact (h.resolve_left (by simp)).symm
  | some p => exact p.property.getVNodeIDForKey hashKey key

theorem applied_store (s : State) (r : Pending) : (s.applied r).store = (s.store.apply r.cmd).1 := by
  unfold applied
  split <;> rfl

private theorem applied_calls (s : State) (r : Pending) : (s.applied r).calls = s.calls := by
  unfold applied
  split <;> rfl

private theorem resume_keys (d : Dropper) : d.resume.phase.keys = d.phase.keys ∧ d.resume.vnodeID = d.vnodeID := by
  unfold Dropper.resume
  split
  · rename_i keys hd
    exact ⟨by rw [hd]; rfl,rfl⟩
  · exact ⟨rfl,rfl⟩

private theorem Inv.applied_droppers (h : Inv hashKey s) (r : Pending) :
    ∀ d ∈ (s.applied r).droppers, ∀ k ∈ d.phase.keys, keyVNode hashKey k = d.vnodeID := by
  unfold applied
  split
  · split
    · rename_i d hd
      refine Machine.forall_mem_set h.droppers (fun k hk => ?_)
      rw [(resume_keys d).1] at hk
      rw [(resume_keys d).2]
      exact h.droppers d (List.mem_of_getElem? hd) k hk
    · exact h.droppers
  · exact h.droppers
  · exact h.droppers

theorem step_inv (h : Inv hashKey s) (hg : s.Annotated hashKey e) (hs : s.step hashKey self e = some s') :
    Inv hashKey s' := by
  cases step_fires hashKey self hs with
  | put key value => exact { h with calls := Machine.forall_mem_concat h.calls (.inl rfl) }
  | delete key => exact { h with calls := Machine.forall_mem_concat h.calls (.inr rfl) }
  | @annotate i c now version hi =>
    refine { h with
      calls := fun c hc => h.calls c (List.mem_of_mem_eraseIdx hc)
      pending := Machine.forall_mem_concat h.pending ⟨h.calls c (List.mem_of_getElem? hi),?_⟩ }
    exact getVNodeForKey_eq (hg c hi)
  | receive hop => exact { h with pending := Machine.forall_mem_concat h.pending ⟨hop,hg⟩ }
  | @apply i r hi =>
    have hr := h.pending r (List.mem_of_getElem? hi)
    refine ⟨?_,?_,fun r hr => h.pending r (List.mem_of_mem_eraseIdx hr),h.applied_droppers r⟩
    · rw [show (_ : State).store = _ from applied_store s r]
      exact h.indexed.apply hr.2
    · rw [show (_ : State).calls = _ from applied_calls s r]
      exact h.calls
  | install p changes => exact { h with }
  | @beginDrop v order ho =>
    refine { h with droppers := Machine.forall_mem_concat h.droppers (fun k hk => ?_) }
    have hmem : k ∈ s.store.dataSet v := ho.2 ▸ List.mem_toFinset.mpr hk
    exact ((h.indexed.data v k).mp hmem).1
  | @dropNext i d k ks now version hi hd =>
    have hkeys := h.droppers d (List.mem_of_getElem? hi)
    rw [hd] at hkeys
    exact { h with
      pending := Machine.forall_mem_concat h.pending ⟨.inr rfl,(hkeys k List.mem_cons_self).symm⟩
      droppers := Machine.forall_mem_set h.droppers (fun k' hk => hkeys k' (List.mem_cons_of_mem _ hk)) }
  | wipe =>
    exact { h with
      indexed := h.indexed.deleteVNodeData _
      droppers := Machine.forall_mem_set h.droppers (fun k hk => by cases hk) }
  | dropFails => exact { h with droppers := Machine.forall_mem_set h.droppers (fun k hk => by cases hk) }
  | snapshot hd ht => exact { h with }

/-- The entry tells of the write. -/
structure Made (c : Command) (e : Entry) : Prop where
  key : c.key = e.key
  version : c.version = e.version
  tombstone : e.tombstone = true ↔ c.op = opDelete
  value : e.tombstone = false → c.value = e.value

/-- An entry tells of the write that its key shows. -/
theorem made_of_shows {s : Store} {v : UInt16} {c : Command} {e : Entry} (hc : s.Shows c)
    (he : s.Shows (Handoff.entryCommand v e)) (hk : c.key = e.key) : Made c e := by
  have hop : (Handoff.entryCommand v e).op = opDelete ↔ e.tombstone = true := by
    unfold Handoff.entryCommand
    cases e.tombstone <;> simp [show ¬ (opPut = opDelete) by decide]
  obtain ⟨hver,hdel,hval⟩ := hc.unique he hk
  refine ⟨hk,hver,hop.symm.trans hdel.symm,fun hlive => hval (fun hd => ?_)⟩
  simp [hop.mp (hdel.mp hd)] at hlive

/-- A snapshot is not taken of a vnode in which a dropper has deleted and that has not
been wiped since. -/
def Undropped (s : State) : Event → Prop
  | .snapshot v _ _ => v ∉ s.dirty
  | _ => True

instance (s : State) (e : Event) : Decidable (s.Undropped e) :=
  match e with
  | .snapshot v _ _ => inferInstanceAs (Decidable (v ∉ s.dirty))
  | .put .. | .delete _ | .annotate .. | .receive _ | .apply _ | .install _ | .beginDrop .. | .dropNext .. | .wipe _
  | .dropFails _ => isTrue trivial

/-- Outside the vnodes in which droppers have deleted, the store shows writes of clients
and other nodes only, and so do all snapshots. -/
structure Traced (hashKey : Key → UInt64) (s : State) : Prop where
  sourced : s.store.Sourced (fun c => c ∈ s.origins ∨ keyVNode hashKey c.key ∈ s.dirty)
  snapshots : ∀ p ∈ s.snapshots, ∀ e ∈ p.2, ∃ c ∈ s.origins, Made c e

theorem init_traced (versionCounter : UInt64) : Traced hashKey (init versionCounter) where
  sourced := sourced_newStore _
  snapshots := by simp [init]

private theorem Traced.applied (h : Traced hashKey s) {r : Pending} (hop : r.cmd.op = opPut ∨ r.cmd.op = opDelete)
    (hv : r.cmd.vnodeID = keyVNode hashKey r.cmd.key) : Traced hashKey (s.applied r) := by
  unfold State.applied
  split
  · refine ⟨(h.sourced.mono (fun c hc => hc.imp id (fun hd => ?_))).apply hop (fun ht => ⟨_,.inr ?_,.refl _⟩),h.snapshots⟩
    · show keyVNode hashKey c.key ∈ if _ then _ else _
      split
      · exact Finset.mem_insert_of_mem hd
      · exact hd
    · rw [if_pos ht]
      exact Finset.mem_insert.mpr (.inl hv.symm)
  all_goals
    refine ⟨(h.sourced.mono (fun c hc => hc.imp (List.mem_append_left _) id)).apply hop
      (fun _ => ⟨_,.inl (List.mem_append_right _ (List.mem_singleton.mpr rfl)),.refl _⟩),fun p hp e he => ?_⟩
    obtain ⟨c,hc,hmade⟩ := h.snapshots p hp e he
    exact ⟨c,List.mem_append_left _ hc,hmade⟩

theorem step_traced (hi : Inv hashKey s) (h : Traced hashKey s) (hg : s.Undropped e)
    (hs : s.step hashKey self e = some s') : Traced hashKey s' := by
  cases step_fires hashKey self hs with
  | put key value => exact { h with }
  | delete key => exact { h with }
  | annotate now version hc => exact { h with }
  | receive hop => exact { h with }
  | @apply i r hr =>
    obtain ⟨hop,hv⟩ := hi.pending r (List.mem_of_getElem? hr)
    exact { h.applied hop hv with }
  | install p changes => exact { h with }
  | beginDrop ho => exact { h with }
  | dropNext now version hd hk => exact { h with }
  | @wipe i d =>
    refine { h with sourced := h.sourced.dropped hi.indexed (fun c hc hne => hc.imp id (fun hd => ?_)) }
    exact Finset.mem_erase.mpr ⟨hne,hd⟩
  | dropFails => exact { h with }
  | @snapshot v dataOrder tombstoneOrder hd ht =>
    refine { h with snapshots := Machine.forall_mem_concat h.snapshots (fun e he => ?_) }
    obtain ⟨hshow,hv⟩ := Transfer.shows_entry hi.indexed hd ht he
    obtain ⟨c,hc,hk,hcs⟩ := h.sourced e.key _ hshow.keyMeta
    refine ⟨c,hc.resolve_right (fun hdirty => hg ?_),made_of_shows hcs hshow hk⟩
    rwa [hk, hv] at hdirty

end Step

section Results
variable (hashKey : Key → UInt64) (self : NodeID) (versionCounter : UInt64) (es : List Event) (s : State)

/-- Whenever a placement is installed every stored key is listed under the vnode that the
placement gives it, and under no other. -/
theorem stored_keys_indexed (hg : Machine.Meets (step hashKey self) (Annotated hashKey) (init versionCounter) es)
    (hr : Machine.run (step hashKey self) (init versionCounter) es = some s) :
    ∀ p ∈ s.placement, ∀ k, (s.store.storage.lookup k).isSome →
      ∀ v, k ∈ s.store.dataSet v ↔ v = p.val.getVNodeIDForKey hashKey k := by
  have h : Inv hashKey s := Machine.run_invariant_of_meets (fun _ _ _ hi hg hs => step_inv hi hg hs)
    (init_inv hashKey versionCounter) hg hr
  intro p _ k hk v
  rw [h.indexed.data, p.property.getVNodeIDForKey, ← h.indexed.stored, and_iff_left hk, eq_comm]

/-- Every entry of every snapshot tells of a write of a client or of another node. -/
theorem snapshots_tell_of_writes
    (hg : Machine.Meets (step hashKey self) (fun s e => s.Annotated hashKey e ∧ s.Undropped e) (init versionCounter) es)
    (hr : Machine.run (step hashKey self) (init versionCounter) es = some s) :
    ∀ p ∈ s.snapshots, ∀ e ∈ p.2, ∃ c ∈ s.origins, Made c e := by
  have h : Inv hashKey s ∧ Traced hashKey s := Machine.run_invariant_of_meets
    (I := fun s => Inv hashKey s ∧ Traced hashKey s)
    (fun _ _ _ hi hg hs => ⟨step_inv hi.1 hg.1 hs,step_traced hi.1 hi.2 hg.2 hs⟩)
    ⟨init_inv hashKey versionCounter,init_traced versionCounter⟩ hg hr
  exact h.2.snapshots

end Results

section Samples
/-- All vnodes have the given primary. -/
def sampleRing (epoch : UInt64) (primary : NodeID) : Ring :=
  ⟨heldBy epoch primary [],heldBy_ring epoch⟩

/-- A hash in the middle of the ring. -/
def sampleHash (_ : Key) : UInt64 := 9223372036854775808

private theorem sampleHash_vnode (epoch : UInt64) (primary : NodeID) :
    (sampleRing epoch primary).val.getVNodeIDForKey sampleHash sampleKey = 512 := by
  rw [(sampleRing epoch primary).property.getVNodeIDForKey]
  decide +kernel

/-- The key is put under the first placement. -/
def placedRun : List Event := [.install (sampleRing 1 "node-1"),.put sampleKey nilValue,.annotate 0 5,.apply 0]

private theorem placedRun_isSome : (Machine.run (step sampleHash "node-1") (init 0) placedRun).isSome := by
  decide +kernel

private theorem placedRun_stored :
    ∃ s, Machine.run (step sampleHash "node-1") (init 0) placedRun = some s ∧
      s.placement = some (sampleRing 1 "node-1") ∧ (s.store.storage.lookup sampleKey).isSome :=
  ⟨_,(Option.some_get placedRun_isSome).symm,by decide +kernel,by decide +kernel⟩

theorem stored_keys_indexed_sample :
    ∃ s, Machine.run (step sampleHash "node-1") (init 0) placedRun = some s ∧
      (s.store.storage.lookup sampleKey).isSome ∧ sampleKey ∈ s.store.dataSet 512 := by
  obtain ⟨s,hr,hp,hk⟩ := placedRun_stored
  have hg : Machine.Meets (step sampleHash "node-1") (Annotated sampleHash) (init 0) placedRun := by decide +kernel
  refine ⟨s,hr,hk,(stored_keys_indexed sampleHash "node-1" 0 placedRun s hg hr _ hp sampleKey hk 512).mpr ?_⟩
  exact (sampleHash_vnode 1 "node-1").symm

/-- The key is put before there is a placement. -/
def earlyRun : List Event := [.put sampleKey nilValue,.annotate 0 5,.apply 0,.install (sampleRing 1 "node-1")]

private theorem earlyRun_isSome : (Machine.run (step sampleHash "node-1") (init 0) earlyRun).isSome := by
  decide +kernel

/-- The key stays listed under the vnode that stood in for its own. -/
theorem early_put_misfiled :
    ∃ s, Machine.run (step sampleHash "node-1") (init 0) earlyRun = some s ∧
      s.placement = some (sampleRing 1 "node-1") ∧ (s.store.storage.lookup sampleKey).isSome ∧
      (sampleRing 1 "node-1").val.getVNodeIDForKey sampleHash sampleKey = 512 ∧
      sampleKey ∉ s.store.dataSet 512 ∧ sampleKey ∈ s.store.dataSet 0 :=
  ⟨_,(Option.some_get earlyRun_isSome).symm,by decide +kernel,by decide +kernel,sampleHash_vnode 1 "node-1",
    by decide +kernel,by decide +kernel⟩

/-- The key is put, and its vnode moves away. -/
def movedRun : List Event := placedRun ++ [.install (sampleRing 2 "node-2")]

private theorem movedRun_isSome : (Machine.run (step sampleHash "node-1") (init 0) movedRun).isSome := by
  decide +kernel

def movedState : State := (Machine.run (step sampleHash "node-1") (init 0) movedRun).get movedRun_isSome

private theorem movedState_changes :
    movedState.changes = [((sampleRing 1 "node-1").val,(sampleRing 2 "node-2").val)] := by
  decide +kernel

/-- The dropper has started on the vnode. -/
def droppingState : State := { movedState with droppers := movedState.droppers ++ [⟨512,.deleting [sampleKey]⟩] }

private theorem droppingState_step :
    step sampleHash "node-1" movedState (.beginDrop 512 [sampleKey]) = some droppingState := by
  have hv : (512 : UInt16) ∈ ringIDs := mem_ringIDs.mpr (by decide)
  rw [step, if_pos]
  · rfl
  · rw [movedState_changes]
    exact ⟨⟨_,List.mem_singleton.mpr rfl,(Migration.Node.sample_classify hv 1 2).1⟩,by decide +kernel⟩

private theorem droppingState_run :
    Machine.run (step sampleHash "node-1") (init 0) (movedRun ++ [.beginDrop 512 [sampleKey]]) = some droppingState :=
  Machine.run_append.mpr
    ⟨movedState,(Option.some_get movedRun_isSome).symm,Machine.run_cons.mpr ⟨_,droppingState_step,rfl⟩⟩

/-- The dropper deletes the key and wipes the vnode. Then another node sends the key again, and
a snapshot is taken. -/
def refilledRun : List Event :=
  [.dropNext 0 9,.apply 0,.wipe 0,.receive ⟨opPut,sampleKey,nilValue,512,12⟩,.apply 0,.snapshot 512 [sampleKey] []]

private theorem refilledRun_isSome : (Machine.run (step sampleHash "node-1") droppingState refilledRun).isSome := by
  decide +kernel

private theorem refilledRun_snapshot :
    ∃ s, Machine.run (step sampleHash "node-1") droppingState refilledRun = some s ∧
      s.snapshots = [(512,[⟨sampleKey,nilValue,12,false⟩])] :=
  ⟨_,(Option.some_get refilledRun_isSome).symm,by decide +kernel⟩

theorem snapshots_tell_of_writes_sample :
    ∃ s, Machine.run (step sampleHash "node-1") (init 0) (movedRun ++ [.beginDrop 512 [sampleKey]] ++ refilledRun) = some s ∧
      s.snapshots = [(512,[⟨sampleKey,nilValue,12,false⟩])] ∧
      ∃ c ∈ s.origins, Made c ⟨sampleKey,nilValue,12,false⟩ := by
  obtain ⟨s,hrefill,hsnap⟩ := refilledRun_snapshot
  have hr := Machine.run_append.mpr ⟨_,droppingState_run,hrefill⟩
  have hmoved : Machine.Meets (step sampleHash "node-1") (fun s e => s.Annotated sampleHash e ∧ s.Undropped e) (init 0)
      movedRun := by decide +kernel
  have hbegin : Machine.Meets (step sampleHash "node-1") (fun s e => s.Annotated sampleHash e ∧ s.Undropped e) movedState
      [.beginDrop 512 [sampleKey]] := (Machine.meets_cons droppingState_step).mpr ⟨⟨trivial,trivial⟩,trivial⟩
  have hg := (Machine.meets_append droppingState_run).mpr
    ⟨(Machine.meets_append (Option.some_get movedRun_isSome).symm).mpr ⟨hmoved,hbegin⟩,
      (by decide +kernel : Machine.Meets (step sampleHash "node-1")
        (fun s e => s.Annotated sampleHash e ∧ s.Undropped e) droppingState refilledRun)⟩
  exact ⟨s,hr,hsnap,snapshots_tell_of_writes sampleHash "node-1" 0 _ s hg hr
    (512,[⟨sampleKey,nilValue,12,false⟩]) (by simp [hsnap]) _ List.mem_cons_self⟩

private theorem droppingState_isSome :
    (Machine.run (step sampleHash "node-1") droppingState
      [.dropNext 0 9,.apply 0,.snapshot 512 [] [sampleKey]]).isSome := by
  decide +kernel

/-- A snapshot between the delete of the dropper and the wipe tells of a deletion that
no client asked for, newer than the value. -/
theorem snapshot_tells_of_drop :
    ∃ s, Machine.run (step sampleHash "node-1") (init 0)
        (movedRun ++ [.beginDrop 512 [sampleKey]] ++ [.dropNext 0 9,.apply 0,.snapshot 512 [] [sampleKey]]) = some s ∧
      s.snapshots = [(512,[⟨sampleKey,nilValue,9,true⟩])] ∧ s.origins = [⟨opPut,sampleKey,nilValue,512,5⟩] :=
  ⟨_,Machine.run_append.mpr ⟨_,droppingState_run,(Option.some_get droppingState_isSome).symm⟩,by decide +kernel,
    by decide +kernel⟩

end Samples

end State
end Nawst.Cluster.NodeData
