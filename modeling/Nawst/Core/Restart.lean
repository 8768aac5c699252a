import Nawst.Core.Recovery

/-! A node before and after a restart: the store in memory against the one that a
replay of the complete log builds. -/
namespace Nawst.Core

/-- A call on a store from outside, and what it answers. -/
inductive StoreCall where
  | apply (cmd : Command)
  | getWithVersion (key : Key)
  deriving DecidableEq

inductive StoreAnswer where
  | applied (err : Option Err)
  | found (value : Value) (version : UInt64)
  | missing (err : Err)
  deriving DecidableEq

namespace Store

def call (s : Store) : StoreCall → Store × StoreAnswer
  | .apply cmd => ((s.apply cmd).1,.applied (s.apply cmd).2)
  | .getWithVersion key => (s,match s.getWithVersion key with
    | .ok (value,version) => .found value version
    | .error e => .missing e)

/-- The answers to a sequence of calls. -/
def answers (s : Store) : List StoreCall → List StoreAnswer
  | [] => []
  | c::cs => (s.call c).2 :: answers (s.call c).1 cs

theorem deleteVNodeData_empty {s : Store} {v : UInt16} (hd : s.dataSet v = ∅) (ht : s.tombstoneSet v = ∅) :
    s.deleteVNodeData v = s := by
  simp [deleteVNodeData, hd, ht]

end Store

namespace EventLoop
open Lib Wal

/-- A write is a put or a delete. -/
def Event.Known : Loop.Event → Prop
  | .receive req => req.op = opGet ∨ req.op = opPut ∨ req.op = opDelete
  | _ => True

instance : (e : Loop.Event) → Decidable (Event.Known e)
  | .receive req => inferInstanceAs (Decidable (req.op = opGet ∨ req.op = opPut ∨ req.op = opDelete))
  | .reqChClosed | .tick | .advance | .takeAck | .wake | .respond | .writer _ | .closeWal | .deleteVNodeData _ =>
    isTrue trivial

namespace Loop

/-- A vnode is wiped only when it has neither keys nor tombstones left. -/
def WipesNothing (s : Loop) (e : Event) : Prop :=
  ∀ v ∈ e.wiped, s.store.dataSet v = ∅ ∧ s.store.tombstoneSet v = ∅

instance (s : Loop) (e : Event) : Decidable (WipesNothing s e) :=
  Option.decidableForallMem (p := fun v => s.store.dataSet v = ∅ ∧ s.store.tombstoneSet v = ∅) e.wiped

/-- The store is the replay of what was applied. -/
structure MemInv (old : List Command) (s : Loop) : Prop where
  store : s.store = newStore.applyAll (old ++ s.applied.map Request.command)
  logged : s.Logged
  writes : s.Holds (fun r => r.op = opPut ∨ r.op = opDelete)

theorem init_memInv (batchSize : Int) (mode : AckMode) (bufferSize : Nat) (old : List Command) :
    MemInv old (init batchSize mode bufferSize old) where
  store := by simp [init]
  logged := rfl
  writes := init_holds _ batchSize mode bufferSize old

/-- A wipe that finds nothing leaves the store as it is; every other step applies. -/
private theorem step_store {s s' : Loop} {e : Event} (hw : WipesNothing s e) (hs : s.step e = some s') :
    ∃ rs, s'.applied = s.applied ++ rs ∧ s'.store = rs.foldl applyRequest s.store := by
  cases he : e.wiped with
  | none => exact step_effect hs he
  | some v =>
    obtain ⟨hd,ht⟩ := hw v he
    cases step_fires hs with
    | deleteVNodeData u =>
      cases he
      exact ⟨[],(List.append_nil _).symm,Store.deleteVNodeData_empty hd ht⟩
    | _ => cases he

private theorem write_known {e : Event} (hk : Event.Known e) : ∀ r ∈ e.write, r.op = opPut ∨ r.op = opDelete := by
  intro r hr
  cases e with
  | receive req =>
    simp only [Event.write, Option.mem_def, Option.ite_none_left_eq_some, Option.some.injEq] at hr
    obtain ⟨ho,rfl⟩ := hr
    exact hk.resolve_left ho
  | _ => cases hr

theorem step_memInv {old : List Command} {s s' : Loop} {e : Event} (h : MemInv old s) (hk : Event.Known e)
    (hw : WipesNothing s e) (hs : s.step e = some s') : MemInv old s' where
  store := by
    obtain ⟨rs,ha,hst⟩ := step_store hw hs
    rw [hst, foldl_applyRequest, h.store, ha, List.map_append, ← List.append_assoc, ← Store.applyAll_append]
  logged := step_logged h.logged hs
  writes := step_holds h.writes (write_known hk) hs

/-- A restart is invisible when no wipe has ever found anything to remove: replaying
the complete log builds the very store of the node, and it answers all calls alike. -/
theorem restart_invisible (batchSize : Int) (mode : AckMode) (bufferSize : Nat) (old : List Command)
    (hold : ∀ c ∈ old, c.op = opPut ∨ c.op = opDelete) (es : List Event) (hes : ∀ e ∈ es, Event.Known e)
    (hw : Machine.Meets step WipesNothing (init batchSize mode bufferSize old) es) (s : Loop)
    (hr : Machine.run step (init batchSize mode bufferSize old) es = some s)
    (hp : s.phase = .select ∨ s.phase = .exited) (hfile : s.writer.written = encodeAll (old ++ s.appended)) :
    ∃ rebuilt, startup (some s.writer.written) = some rebuilt ∧
      ∀ calls, rebuilt.answers calls = s.store.answers calls := by
  have h : MemInv old s := by
    refine Machine.run_invariant_of_meets (G := fun s e => Event.Known e ∧ WipesNothing s e)
      (fun _ _ _ hi hg hs => step_memInv hi hg.1 hg.2 hs) (init_memInv batchSize mode bufferSize old) ?_ hr
    exact (Machine.meets_of_forall _ hes).and hw
  have hl : s.applied.map Request.command = s.appended := by
    have hl := h.logged
    rcases hp with hp | hp <;> simpa only [Logged, hp] using hl
  refine ⟨s.store,?_,fun _ => rfl⟩
  have hok : ∀ c ∈ old ++ s.appended, ∀ st, (Store.apply st c).2 = none := by
    intro c hc st
    rw [← hl] at hc
    refine Store.apply_write_err ((List.mem_append.mp hc).elim (hold c) (fun hc => ?_))
    obtain ⟨r,hr,rfl⟩ := List.mem_map.mp hc
    exact h.writes.applied r hr
  have hreplay := replayWal_encodeAll hok newStore
  have hstore : applyEach Store.apply newStore (old ++ s.appended) = s.store := by
    rw [h.store, hl]
    rfl
  rw [hstore] at hreplay
  simp only [startup, hfile, hreplay]

def putRequest (version : UInt64) (value : UInt8) : Request :=
  ⟨opPut,.singleton 107,.singleton value,7,version,0⟩

/-- What the dropper sends for the key. -/
def dropRequest (version : UInt64) : Request := ⟨opDelete,.singleton 107,nilValue,7,version,0⟩

/-- One unbatched write that is flushed to the file, in a record of the given size. -/
def flushedWrite (id : Nat) (req : Request) (size : Nat) : List Event :=
  [.receive req,.advance,.advance,.advance,.writer (.take ⟨id,[req.command]⟩),.writer .next,.writer .next,
   .writer (.observe true),.writer (.write size),.writer .wrote,.writer .resume,.writer .publish]

theorem restart_invisible_sample :
    ∃ s, Machine.run step (init 1 .afterEnqueue 64 [])
        (flushedWrite 1 (putRequest 5 118) 15 ++ [.deleteVNodeData 3]) = some s ∧
      ∃ rebuilt, startup (some s.writer.written) = some rebuilt ∧
        ∀ calls, rebuilt.answers calls = s.store.answers calls := by
  refine ⟨_,rfl,?_⟩
  exact restart_invisible 1 .afterEnqueue 64 [] (by simp)
    (flushedWrite 1 (putRequest 5 118) 15 ++ [.deleteVNodeData 3]) (by decide) (by decide) _ rfl (.inl rfl) (by decide)

/-- A key is written and its vnode dropped; everything is in the file. -/
def droppedRun : List Event :=
  flushedWrite 1 (putRequest 5 118) 15 ++ flushedWrite 2 (dropRequest 10) 14 ++ [.deleteVNodeData 7]

/-- The node has forgotten the drop and takes the key back at an older version, the
restarted one has not and ignores it. -/
theorem restart_after_drop_differs :
    ∃ s rebuilt, Machine.run step (init 1 .afterEnqueue 64 []) droppedRun = some s ∧ s.phase = .select ∧
      s.writer.written = encodeAll s.appended ∧ startup (some s.writer.written) = some rebuilt ∧
      s.store.answers [.apply (putRequest 7 119).command,.getWithVersion (putRequest 7 119).key] =
        [.applied none,.found (.singleton 119) 7] ∧
      rebuilt.answers [.apply (putRequest 7 119).command,.getWithVersion (putRequest 7 119).key] =
        [.applied none,.missing errKeyNotFound] := by
  refine ⟨_,_,rfl,?_,?_,rfl,?_,?_⟩ <;> decide

end Loop
end EventLoop
end Nawst.Core
