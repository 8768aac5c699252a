import Nawst.Core.Request
import Nawst.Core.WalLog

/-! The event loop, its acknowledgement goroutine and the log writer as one machine.
Requests are applied in batches, appended to the log and answered once the log has
them; every goroutine moves on its own. -/
namespace Nawst.Core
open Lib Wal

def ackChCapacity : Nat := 10000

structure PendingAck where
  id : Nat
  requests : List Request
  deriving DecidableEq

namespace EventLoop

/-- Where the loop is: at its select, or inside one of its branches. -/
inductive Phase where
  | select
  | answeringGet (req : Request) (resp : Response)
  | applying (cmds : List Command) (todo : List Request)
  | appending (id : Nat) (cmds : List Command)
  | handingOff (id : Nat)
  | fastAppending (id : Nat) (req : Request)
  | fastApplying (req : Request)
  | fastAnswering (req : Request) (err : Option Err)
  | exited
  deriving DecidableEq

/-- The acknowledgement goroutine. -/
inductive Acker where
  | idle
  | waiting (ack : PendingAck)
  | responding (requests : List Request) (err : Option Err)
  deriving DecidableEq

/-- The variables of the goroutines with their channels. What was given to the
store and to the log, and what was answered, is recorded in order. -/
structure Loop where
  batchSize : Int
  store : Store
  writeBatch : List Request
  phase : Phase
  closing : Bool
  ackCh : List PendingAck
  acker : Acker
  nextID : Nat
  appendCh : List Batch
  walClosed : Bool
  writer : Writer
  applied : List Request
  appended : List Command
  responses : List (Request × Response)
  deriving DecidableEq

/-- A node that has replayed a log and goes on appending to it. -/
def init (batchSize : Int) (mode : AckMode) (bufferSize : Nat) (old : List Command) : Loop where
  batchSize := batchSize
  store := newStore.applyAll old
  writeBatch := []
  phase := .select
  closing := false
  ackCh := []
  acker := .idle
  nextID := 0
  appendCh := []
  walClosed := false
  writer := .init mode bufferSize old
  applied := []
  appended := []
  responses := []

def getResponse (store : Store) (req : Request) : Response :=
  match store.getWithVersion req.key with
  | .ok (val,ver) => ⟨req.op,val,none,ver⟩
  | .error e => ⟨req.op,nilValue,some e,0⟩

def writeResponse (req : Request) (err : Option Err) : Response := ⟨req.op,nilValue,err,0⟩

namespace Loop

/-- Back to the select, or out of the loop when the request channel is closed. -/
def afterBatch (s : Loop) : Loop := { s with phase := if s.closing then .exited else .select }

def processBatch (s : Loop) : Loop :=
  if s.writeBatch = [] then s.afterBatch else { s with phase := .applying [] s.writeBatch }

def receive (s : Loop) (req : Request) : Loop :=
  if req.op = opGet then { s with phase := .answeringGet req (getResponse s.store req) }
  else if s.writer.mode = .afterEnqueue then
    { s with nextID := s.nextID+1, phase := .fastAppending (s.nextID+1) req }
  else
    let s := { s with writeBatch := s.writeBatch ++ [req] }
    if s.batchSize ≤ s.writeBatch.length then s.processBatch else s

/-- The next step of the loop inside a branch; none while it is blocked. -/
def advance (s : Loop) : Option Loop :=
  match s.phase with
  | .select | .exited => none
  | .answeringGet req resp => some { s with phase := .select, responses := s.responses ++ [(req,resp)] }
  | .applying cmds [] =>
    some { s with nextID := s.nextID+cmds.length, phase := .appending (s.nextID+cmds.length) cmds }
  | .applying cmds (r::todo) => some { s with
      store := (s.store.apply r.command).1
      applied := s.applied ++ [r]
      phase := .applying (cmds ++ [r.command]) todo }
  | .appending id cmds =>
    if s.appendCh.length < appendChCapacity then some { s with
      appendCh := s.appendCh ++ [⟨id,cmds⟩]
      appended := s.appended ++ cmds
      phase := .handingOff id }
    else none
  | .handingOff id =>
    if s.ackCh.length < ackChCapacity then
      some (afterBatch { s with ackCh := s.ackCh ++ [⟨id,s.writeBatch⟩], writeBatch := [] })
    else none
  | .fastAppending id req =>
    if s.appendCh.length < appendChCapacity then some { s with
      appendCh := s.appendCh ++ [⟨id,[req.command]⟩]
      appended := s.appended ++ [req.command]
      phase := .fastApplying req }
    else none
  | .fastApplying req => some { s with
      store := (s.store.apply req.command).1
      applied := s.applied ++ [req]
      phase := .fastAnswering req (s.store.apply req.command).2 }
  | .fastAnswering req err => some { s with
      phase := .select, responses := s.responses ++ [(req,writeResponse req err)] }

inductive Event where
  | receive (req : Request)
  | reqChClosed
  | tick
  | advance
  | takeAck
  | wake
  | respond
  | writer (e : Writer.Event)
  | closeWal
  | deleteVNodeData (v : UInt16)
  deriving DecidableEq

def step (s : Loop) : Event → Option Loop
  | .receive req => if s.phase = .select then some (s.receive req) else none
  | .reqChClosed => if s.phase = .select then some (processBatch { s with closing := true }) else none
  | .tick => if s.phase = .select then some s.processBatch else none
  | .advance => s.advance
  | .takeAck => match s.acker, s.ackCh with
    | .idle, a::rest => some { s with acker := .waiting a, ackCh := rest }
    | _, _ => none
  | .wake => match s.acker with
    | .waiting a => (s.writer.wait a.id).map (fun err => { s with acker := .responding a.requests err })
    | _ => none
  | .respond => match s.acker with
    | .responding [] _ => some { s with acker := .idle }
    | .responding (r::rs) err => some { s with
        acker := .responding rs err, responses := s.responses ++ [(r,writeResponse r err)] }
    | _ => none
  | .writer e => do
    let appendCh ← Wal.channel s.appendCh s.walClosed e
    let writer ← s.writer.step e
    return { s with appendCh := appendCh, writer := writer }
  | .closeWal => some { s with walClosed := true }
  | .deleteVNodeData v => some { s with store := s.store.deleteVNodeData v }

/-- Everything a step can do, one rule for each branch. -/
inductive Fires (s : Loop) : Event → Loop → Prop where
  | get (req : Request) (hp : s.phase = .select) (ho : req.op = opGet) :
      Fires s (.receive req) { s with phase := .answeringGet req (getResponse s.store req) }
  | fast (req : Request) (hp : s.phase = .select) (ho : req.op ≠ opGet) (hm : s.writer.mode = .afterEnqueue) :
      Fires s (.receive req) { s with nextID := s.nextID+1, phase := .fastAppending (s.nextID+1) req }
  | collect (req : Request) (hp : s.phase = .select) (ho : req.op ≠ opGet) (hm : s.writer.mode ≠ .afterEnqueue)
      (hb : ((s.writeBatch ++ [req]).length : Int) < s.batchSize) :
      Fires s (.receive req) { s with writeBatch := s.writeBatch ++ [req] }
  | fill (req : Request) (hp : s.phase = .select) (ho : req.op ≠ opGet) (hm : s.writer.mode ≠ .afterEnqueue) :
      Fires s (.receive req) { s with
        writeBatch := s.writeBatch ++ [req], phase := .applying [] (s.writeBatch ++ [req]) }
  | leave (hp : s.phase = .select) (hw : s.writeBatch = []) :
      Fires s .reqChClosed { s with closing := true, phase := .exited }
  | lastBatch (hp : s.phase = .select) :
      Fires s .reqChClosed { s with closing := true, phase := .applying [] s.writeBatch }
  | idle (hp : s.phase = .select) (hw : s.writeBatch = []) : Fires s .tick s.afterBatch
  | batch (hp : s.phase = .select) : Fires s .tick { s with phase := .applying [] s.writeBatch }
  | answerGet {req : Request} {resp : Response} (hp : s.phase = .answeringGet req resp) :
      Fires s .advance { s with phase := .select, responses := s.responses ++ [(req,resp)] }
  | number {cmds : List Command} (hp : s.phase = .applying cmds []) :
      Fires s .advance { s with nextID := s.nextID+cmds.length, phase := .appending (s.nextID+cmds.length) cmds }
  | apply {cmds : List Command} {r : Request} {todo : List Request} (hp : s.phase = .applying cmds (r::todo)) :
      Fires s .advance { s with
        store := (s.store.apply r.command).1, applied := s.applied ++ [r],
        phase := .applying (cmds ++ [r.command]) todo }
  | append {id : Nat} {cmds : List Command} (hp : s.phase = .appending id cmds) :
      Fires s .advance { s with
        appendCh := s.appendCh ++ [⟨id,cmds⟩], appended := s.appended ++ cmds, phase := .handingOff id }
  | handOff {id : Nat} (hp : s.phase = .handingOff id) :
      Fires s .advance (afterBatch { s with ackCh := s.ackCh ++ [⟨id,s.writeBatch⟩], writeBatch := [] })
  | fastAppend {id : Nat} {req : Request} (hp : s.phase = .fastAppending id req) :
      Fires s .advance { s with
        appendCh := s.appendCh ++ [⟨id,[req.command]⟩], appended := s.appended ++ [req.command],
        phase := .fastApplying req }
  | fastApply {req : Request} (hp : s.phase = .fastApplying req) :
      Fires s .advance { s with
        store := (s.store.apply req.command).1, applied := s.applied ++ [req],
        phase := .fastAnswering req (s.store.apply req.command).2 }
  | fastAnswer {req : Request} {err : Option Err} (hp : s.phase = .fastAnswering req err) :
      Fires s .advance { s with phase := .select, responses := s.responses ++ [(req,writeResponse req err)] }
  | takeAck {a : PendingAck} {rest : List PendingAck} (ha : s.acker = .idle) (hc : s.ackCh = a::rest) :
      Fires s .takeAck { s with acker := .waiting a, ackCh := rest }
  | wake {a : PendingAck} {err : Option Err} (ha : s.acker = .waiting a) (hw : s.writer.wait a.id = some err) :
      Fires s .wake { s with acker := .responding a.requests err }
  | done {err : Option Err} (ha : s.acker = .responding [] err) : Fires s .respond { s with acker := .idle }
  | respond {r : Request} {rs : List Request} {err : Option Err} (ha : s.acker = .responding (r::rs) err) :
      Fires s .respond { s with
        acker := .responding rs err, responses := s.responses ++ [(r,writeResponse r err)] }
  | writer {e : Writer.Event} {appendCh : List Batch} {w : Writer} (hc : Wal.channel s.appendCh s.walClosed e = some appendCh)
      (hs : s.writer.step e = some w) : Fires s (.writer e) { s with appendCh := appendCh, writer := w }
  | closeWal : Fires s .closeWal { s with walClosed := true }
  | deleteVNodeData (v : UInt16) : Fires s (.deleteVNodeData v) { s with store := s.store.deleteVNodeData v }

private theorem receive_fires {s : Loop} (hp : s.phase = .select) (req : Request) :
    Fires s (.receive req) (s.receive req) := by
  unfold receive
  split
  · exact .get req hp ‹_›
  · split
    · exact .fast req hp ‹_› ‹_›
    · simp only
      split
      · have hne : ¬ s.writeBatch ++ [req] = [] := by simp
        rw [processBatch, if_neg hne]
        exact .fill req hp ‹_› ‹_›
      · exact .collect req hp ‹_› ‹_› (Int.not_le.mp ‹_›)

private theorem advance_fires {s s' : Loop} (hs : s.advance = some s') : Fires s .advance s' := by
  unfold advance at hs
  split at hs
  · cases hs
  · cases hs
  · cases hs
    exact .answerGet ‹_›
  · cases hs
    exact .number ‹_›
  · cases hs
    exact .apply ‹_›
  · simp only [Option.ite_none_right_eq_some, Option.some.injEq] at hs
    obtain ⟨_,rfl⟩ := hs
    exact .append ‹_›
  · simp only [Option.ite_none_right_eq_some, Option.some.injEq] at hs
    obtain ⟨_,rfl⟩ := hs
    exact .handOff ‹_›
  · simp only [Option.ite_none_right_eq_some, Option.some.injEq] at hs
    obtain ⟨_,rfl⟩ := hs
    exact .fastAppend ‹_›
  · cases hs
    exact .fastApply ‹_›
  · cases hs
    exact .fastAnswer ‹_›

theorem step_fires {s s' : Loop} {e : Event} (hs : s.step e = some s') : Fires s e s' := by
  cases e with
  | receive req =>
    simp only [step, Option.ite_none_right_eq_some, Option.some.injEq] at hs
    obtain ⟨hp,rfl⟩ := hs
    exact receive_fires hp req
  | reqChClosed =>
    simp only [step, Option.ite_none_right_eq_some, Option.some.injEq] at hs
    obtain ⟨hp,rfl⟩ := hs
    unfold processBatch
    split
    · exact .leave hp ‹_›
    · exact .lastBatch hp
  | tick =>
    simp only [step, Option.ite_none_right_eq_some, Option.some.injEq] at hs
    obtain ⟨hp,rfl⟩ := hs
    unfold processBatch
    split
    · exact .idle hp ‹_›
    · exact .batch hp
  | advance => exact advance_fires hs
  | takeAck =>
    simp only [step] at hs
    split at hs
    · cases hs
      exact .takeAck ‹_› ‹_›
    · cases hs
  | wake =>
    simp only [step] at hs
    split at hs
    · simp only [Option.map_eq_some_iff] at hs
      obtain ⟨err,hw,rfl⟩ := hs
      exact .wake ‹_› hw
    · cases hs
  | respond =>
    simp only [step] at hs
    split at hs
    · cases hs
      exact .done ‹_›
    · cases hs
      exact .respond ‹_›
    · cases hs
  | writer e =>
    simp only [step, Option.bind_eq_bind, Option.bind_eq_some_iff, Option.pure_def, Option.some.injEq] at hs
    obtain ⟨appendCh,hc,w,hw,rfl⟩ := hs
    exact .writer hc hw
  | closeWal =>
    cases hs
    exact .closeWal
  | deleteVNodeData v =>
    cases hs
    exact .deleteVNodeData v

end Loop
end EventLoop
end Nawst.Core
