import Mathlib.Data.List.ReduceOption
import Nawst.Core.Calls
import Nawst.Cluster.BatchOrder
import Nawst.Cluster.Replicate

/-! Replication from end to end: the worker of one peer on this side, and on the other the
stream handlers that give its batches to the peer's event loop. Batches and
acknowledgements travel over streams that the worker opens one after the other; the peer
serves other calls as well. -/
namespace Nawst.Cluster.ReplicationLink
open Lib Nawst.Core BatchWorker

def errBatchCancelled : Err := "rpc error: code = DeadlineExceeded desc = replication batch cancelled"

/-- Where the handler of a stream is. -/
inductive Phase where
  | receiving
  | serving (call : Nat) (applied : UInt32)
  | acking (ack : Ack) (failed : Bool)
  | returned
  deriving DecidableEq

/-- A handler, with the calls it has made, one for each batch. -/
structure Handler where
  phase : Phase
  calls : List Nat
  deriving DecidableEq

/-- Both sides. The handlers are numbered like the streams they serve. -/
structure Link where
  worker : Worker
  node : Calls.Node
  handlers : List Handler
  deriving DecidableEq

namespace Link

def init (nodeID : String) (batchSize : Int) (mode : Wal.AckMode) (bufferSize : Nat) (old : List Command) : Link :=
  ⟨BatchWorker.init nodeID,.init batchSize mode bufferSize old,[]⟩

/-- The requests that a batch becomes. -/
def batchReqs (batch : List Task) (chan : Nat) : List Request :=
  Replicate.pendingReqs (batch.map (fun t => some t.req)) chan

/-- An acknowledgement goes over the stream. -/
def answer (w : Worker) (i : Nat) (ack : Ack) : Option Worker := do
  let st ← w.streams[i]?
  some { w with streams := w.streams.set i (st.answer ack) }

def isRemote : Worker.Event → Bool
  | .remoteAck _ _ => true
  | _ => false

inductive Event where
  | worker (e : Worker.Event)
  | node (e : Calls.Node.Event)
  | connect
  | recv (i : Nat)
  | finish (i : Nat)
  | send (i : Nat)
  | sendFails (i : Nat) (delivered : Bool)
  | leave (i : Nat)
  deriving DecidableEq

def step (s : Link) : Event → Option Link
  | .worker e => if isRemote e then none else (s.worker.step e).map (fun w => { s with worker := w })
  | .node e => (s.node.step e).map (fun n => { s with node := n })
  | .connect =>
    if s.handlers.length < s.worker.streams.length then
      some { s with handlers := s.handlers ++ [⟨.receiving,[]⟩] }
    else none
  | .recv i => do
    let h ← s.handlers[i]?
    if h.phase = .receiving then
      let st ← s.worker.streams[i]?
      let batch ← st.sent[h.calls.length]?
      let n ← s.node.step (.call (batchReqs batch s.node.nextChan) errBatchCancelled)
      let c := s.node.calls.length
      some { s with
        node := n
        handlers := s.handlers.set i ⟨.serving c (UInt32.ofNat batch.length),h.calls ++ [c]⟩ }
    else none
  | .finish i => do
    let h ← s.handlers[i]?
    match h.phase with
    | .serving c applied =>
      let call ← s.node.calls[c]?
      match call.phase with
      | .returned err =>
        some { s with handlers := s.handlers.set i { h with phase := .acking ⟨applied,err.getD ""⟩ err.isSome } }
      | _ => none
    | _ => none
  | .send i => do
    let h ← s.handlers[i]?
    match h.phase with
    | .acking ack failed =>
      let w ← answer s.worker i ack
      some { s with
        worker := w
        handlers := s.handlers.set i { h with phase := if failed then .returned else .receiving } }
    | _ => none
  | .sendFails i delivered => do
    let h ← s.handlers[i]?
    match h.phase with
    | .acking ack _ =>
      let w ← if delivered then answer s.worker i ack else some s.worker
      some { s with worker := w, handlers := s.handlers.set i { h with phase := .returned } }
    | _ => none
  | .leave i => do
    let h ← s.handlers[i]?
    if h.phase = .receiving then some { s with handlers := s.handlers.set i { h with phase := .returned } } else none

/-- Everything a step can do. -/
inductive Fires (s : Link) : Event → Link → Prop where
  | worker {e : Worker.Event} {w : Worker} (he : isRemote e = false) (hs : s.worker.step e = some w) :
      Fires s (.worker e) { s with worker := w }
  | node {e : Calls.Node.Event} {n : Calls.Node} (hs : s.node.step e = some n) : Fires s (.node e) { s with node := n }
  | connect (hlt : s.handlers.length < s.worker.streams.length) :
      Fires s .connect { s with handlers := s.handlers ++ [⟨.receiving,[]⟩] }
  | recv {i : Nat} {h : Handler} {st : Stream} {batch : List Task} {n : Calls.Node} (hi : s.handlers[i]? = some h)
      (hp : h.phase = .receiving) (hst : s.worker.streams[i]? = some st) (hb : st.sent[h.calls.length]? = some batch)
      (hn : s.node.step (.call (batchReqs batch s.node.nextChan) errBatchCancelled) = some n) :
      Fires s (.recv i) { s with
        node := n
        handlers := s.handlers.set i
          ⟨.serving s.node.calls.length (UInt32.ofNat batch.length),h.calls ++ [s.node.calls.length]⟩ }
  | finish {i c : Nat} {h : Handler} {applied : UInt32} {call : Calls.Call} {err : Option Err} (hi : s.handlers[i]? = some h)
      (hp : h.phase = .serving c applied) (hc : s.node.calls[c]? = some call) (hr : call.phase = .returned err) :
      Fires s (.finish i) { s with
        handlers := s.handlers.set i { h with phase := .acking ⟨applied,err.getD ""⟩ err.isSome } }
  | send {i : Nat} {h : Handler} {ack : Ack} {failed : Bool} {st : Stream} (hi : s.handlers[i]? = some h)
      (hp : h.phase = .acking ack failed) (hst : s.worker.streams[i]? = some st) :
      Fires s (.send i) { s with
        worker := { s.worker with streams := s.worker.streams.set i (st.answer ack) }
        handlers := s.handlers.set i { h with phase := if failed then .returned else .receiving } }
  | sendLost {i : Nat} {h : Handler} (hi : s.handlers[i]? = some h) :
      Fires s (.sendFails i false) { s with handlers := s.handlers.set i { h with phase := .returned } }
  | sendFails {i : Nat} {h : Handler} {ack : Ack} {failed : Bool} {st : Stream} (hi : s.handlers[i]? = some h)
      (hp : h.phase = .acking ack failed) (hst : s.worker.streams[i]? = some st) :
      Fires s (.sendFails i true) { s with
        worker := { s.worker with streams := s.worker.streams.set i (st.answer ack) }
        handlers := s.handlers.set i { h with phase := .returned } }
  | leave {i : Nat} {h : Handler} (hi : s.handlers[i]? = some h) :
      Fires s (.leave i) { s with handlers := s.handlers.set i { h with phase := .returned } }

theorem step_fires {s s' : Link} {e : Event} (hs : s.step e = some s') : Fires s e s' := by
  cases e with
  | worker e =>
    simp only [step, Option.ite_none_left_eq_some, Option.map_eq_some_iff] at hs
    obtain ⟨he,w,hw,rfl⟩ := hs
    exact .worker (by simpa using he) hw
  | node e =>
    simp only [step, Option.map_eq_some_iff] at hs
    obtain ⟨n,hn,rfl⟩ := hs
    exact .node hn
  | connect =>
    simp only [step, Option.ite_none_right_eq_some, Option.some.injEq] at hs
    obtain ⟨hlt,rfl⟩ := hs
    exact .connect hlt
  | recv i =>
    simp only [step, Option.bind_eq_bind, Option.bind_eq_some_iff, Option.ite_none_right_eq_some, Option.some.injEq] at hs
    obtain ⟨h,hi,hp,st,hst,batch,hb,n,hn,rfl⟩ := hs
    exact .recv hi hp hst hb hn
  | finish i =>
    simp only [step, Option.bind_eq_bind, Option.bind_eq_some_iff] at hs
    obtain ⟨h,hi,hs⟩ := hs
    split at hs
    · simp only [Option.bind_eq_some_iff] at hs
      obtain ⟨call,hc,hs⟩ := hs
      split at hs
      · cases hs
        exact .finish hi ‹_› hc ‹_›
      · cases hs
    · cases hs
  | send i =>
    simp only [step, Option.bind_eq_bind, Option.bind_eq_some_iff] at hs
    obtain ⟨h,hi,hs⟩ := hs
    split at hs
    · simp only [answer, Option.bind_eq_bind, Option.bind_eq_some_iff, Option.some.injEq] at hs
      obtain ⟨_,⟨st,hst,rfl⟩,rfl⟩ := hs
      exact .send hi ‹_› hst
    · cases hs
  | sendFails i delivered =>
    simp only [step, Option.bind_eq_bind, Option.bind_eq_some_iff] at hs
    obtain ⟨h,hi,hs⟩ := hs
    split at hs
    · cases delivered with
      | false =>
        cases hs
        exact .sendLost hi
      | true =>
        simp only [answer, if_true, Option.bind_eq_bind, Option.bind_eq_some_iff, Option.some.injEq] at hs
        obtain ⟨_,⟨st,hst,rfl⟩,rfl⟩ := hs
        exact .sendFails hi ‹_› hst
    · cases hs
  | leave i =>
    simp only [step, Option.bind_eq_bind, Option.bind_eq_some_iff, Option.ite_none_right_eq_some, Option.some.injEq] at hs
    obtain ⟨h,hi,_,rfl⟩ := hs
    exact .leave hi

/-- What both ends of a stream agree on: the calls of the handler are those for the batches
of the stream, in order, and the acknowledgements are their results, in order. -/
structure Serves (calls : List Calls.Call) (st : Stream) (h : Handler) : Prop where
  made : ∀ (k c : Nat), h.calls[k]? = some c → ∃ batch chan call, st.sent[k]? = some batch ∧ calls[c]? = some call ∧
    call.reqs = batchReqs batch chan ∧ call.cancelled = errBatchCancelled
  answered : ∀ (k : Nat) (a : Ack), st.answers[k]? = some a → ∃ c call err, h.calls[k]? = some c ∧ calls[c]? = some call ∧
    call.phase = .returned err ∧ a.error = err.getD ""
  clean : ∀ (k c : Nat), k+1 < h.calls.length → h.calls[k]? = some c →
    ∃ call, calls[c]? = some call ∧ call.phase = .returned none
  phase : match h.phase with
    | .receiving => h.calls.length = st.answers.length ∧ ∀ c ∈ h.calls, ∃ call, calls[c]? = some call ∧ call.phase = .returned none
    | .serving c applied => ∃ front batch, h.calls = front ++ [c] ∧ front.length = st.answers.length ∧
      st.sent[front.length]? = some batch ∧ applied = UInt32.ofNat batch.length
    | .acking ack failed => ∃ front c call err batch, h.calls = front ++ [c] ∧ front.length = st.answers.length ∧
      st.sent[front.length]? = some batch ∧ ack = ⟨UInt32.ofNat batch.length,err.getD ""⟩ ∧ failed = err.isSome ∧
      calls[c]? = some call ∧ call.phase = .returned err
    | .returned => h.calls.length ≤ st.answers.length+1

section Serves
variable {calls calls' : List Calls.Call} {st st' : Stream} {h : Handler}

private theorem getElem?_of_front {α : Type} {l l' : List α} (hl : l <+: l') {k : Nat} {a : α} (h : l[k]? = some a) :
    l'[k]? = some a := by
  obtain ⟨rest,rfl⟩ := hl
  exact (List.getElem?_append_left (List.getElem?_eq_some_iff.mp h).1).trans h

/-- Both sides go on without the handler. -/
theorem Serves.mono (hs : Serves calls st h)
    (hcalls : ∀ (c : Nat) (call : Calls.Call), calls[c]? = some call → ∃ d, calls'[c]? = some d ∧ call.Continues d)
    (hsent : st.sent <+: st'.sent) (hans : st'.answers = st.answers) : Serves calls' st' h := by
  have hret {c : Nat} {err : Option Err} (h : ∃ call, calls[c]? = some call ∧ call.phase = .returned err) :
      ∃ call, calls'[c]? = some call ∧ call.phase = .returned err := by
    obtain ⟨call,hcall,hret⟩ := h
    obtain ⟨d,hd,hcont⟩ := hcalls c call hcall
    exact ⟨d,hd,hcont.returned err hret⟩
  refine ⟨fun k c hk => ?_,fun k a hk => ?_,fun k c hk hc => hret (hs.clean k c hk hc),?_⟩
  · obtain ⟨batch,chan,call,hb,hc,hreqs,hcan⟩ := hs.made k c hk
    obtain ⟨d,hd,hcont⟩ := hcalls c call hc
    exact ⟨batch,chan,d,getElem?_of_front hsent hb,hd,hcont.reqs.trans hreqs,hcont.cancelled.trans hcan⟩
  · obtain ⟨c,call,err,hc,hcall,hphase,herr⟩ := hs.answered k a (hans ▸ hk)
    obtain ⟨d,hd,hphase⟩ := hret ⟨call,hcall,hphase⟩
    exact ⟨c,d,err,hc,hd,hphase,herr⟩
  · have hphase := hs.phase
    split at hphase
    · exact ⟨hans ▸ hphase.1,fun c hc => hret (hphase.2 c hc)⟩
    · obtain ⟨front,batch,hf,hlen,hb,happ⟩ := hphase
      exact ⟨front,batch,hf,hans ▸ hlen,getElem?_of_front hsent hb,happ⟩
    · obtain ⟨front,c,call,err,batch,hf,hlen,hb,hack,hfailed,hcall⟩ := hphase
      obtain ⟨d,hd⟩ := hret ⟨call,hcall⟩
      exact ⟨front,c,d,err,batch,hf,hans ▸ hlen,getElem?_of_front hsent hb,hack,hfailed,hd⟩
    · exact hans ▸ hphase

/-- There is at most one batch in hand. -/
theorem Serves.calls_le (hs : Serves calls st h) : h.calls.length ≤ st.answers.length+1 := by
  have hphase := hs.phase
  split at hphase
  · exact hphase.1.le.trans (Nat.le_succ _)
  · obtain ⟨front,batch,hf,hlen,-⟩ := hphase
    rw [hf, ← hlen, List.length_append, List.length_singleton]
  · obtain ⟨front,c,call,err,batch,hf,hlen,-⟩ := hphase
    rw [hf, ← hlen, List.length_append, List.length_singleton]
  · exact hphase

theorem Serves.answers_le (hs : Serves calls st h) : st.answers.length ≤ h.calls.length := by
  by_contra hlt
  obtain ⟨c,_,_,hc,_⟩ := hs.answered h.calls.length _ (List.getElem?_eq_getElem (not_le.mp hlt))
  exact absurd (List.getElem?_eq_some_iff.mp hc).1 (lt_irrefl _)

theorem Serves.calls_le_sent (hs : Serves calls st h) : h.calls.length ≤ st.sent.length := by
  by_contra hlt
  obtain ⟨_,_,_,hb,_⟩ := hs.made st.sent.length _ (List.getElem?_eq_getElem (not_le.mp hlt))
  exact absurd (List.getElem?_eq_some_iff.mp hb).1 (lt_irrefl _)

/-- The handler returns. -/
theorem Serves.leave (hs : Serves calls st h) : Serves calls st { h with phase := .returned } where
  made := hs.made
  answered := hs.answered
  clean := hs.clean
  phase := hs.calls_le

/-- The handler starts a call for its next batch. -/
theorem Serves.recv (hs : Serves calls st h) (hp : h.phase = .receiving) {batch : List Task}
    (hb : st.sent[h.calls.length]? = some batch) (chan : Nat) :
    Serves (calls ++ [.init (batchReqs batch chan) errBatchCancelled]) st
      ⟨.serving calls.length (UInt32.ofNat batch.length),h.calls ++ [calls.length]⟩ := by
  have hphase := hs.phase
  simp only [hp] at hphase
  have hold {c : Nat} {call : Calls.Call} (hc : calls[c]? = some call) :
      (calls ++ [.init (batchReqs batch chan) errBatchCancelled])[c]? = some call :=
    getElem?_of_front (List.prefix_append _ _) hc
  refine ⟨fun k c hk => ?_,fun k a hk => ?_,fun k c hk hc => ?_,⟨h.calls,batch,rfl,hphase.1,hb,rfl⟩⟩
  · rcases Machine.getElem?_concat_cases hk with hk | ⟨rfl,rfl⟩
    · obtain ⟨b,chan',call,hb',hc,hreqs⟩ := hs.made k c hk
      exact ⟨b,chan',call,hb',hold hc,hreqs⟩
    · exact ⟨batch,chan,_,hb,List.getElem?_concat_length,rfl,rfl⟩
  · obtain ⟨c,call,err,hc,hcall,hret⟩ := hs.answered k a hk
    exact ⟨c,call,err,getElem?_of_front (List.prefix_append _ _) hc,hold hcall,hret⟩
  · rcases Machine.getElem?_concat_cases hc with hc | ⟨rfl,rfl⟩
    · obtain ⟨call,hcall,hret⟩ := hphase.2 c (List.mem_of_getElem? hc)
      exact ⟨call,hold hcall,hret⟩
    · simp at hk

/-- The call has returned. -/
theorem Serves.finish (hs : Serves calls st h) {c : Nat} {applied : UInt32} (hp : h.phase = .serving c applied)
    {call : Calls.Call} {err : Option Err} (hc : calls[c]? = some call) (hr : call.phase = .returned err) :
    Serves calls st { h with phase := .acking ⟨applied,err.getD ""⟩ err.isSome } := by
  have hphase := hs.phase
  simp only [hp] at hphase
  obtain ⟨front,batch,hf,hlen,hb,rfl⟩ := hphase
  exact ⟨hs.made,hs.answered,hs.clean,front,c,call,err,batch,hf,hlen,hb,rfl,rfl,hc,hr⟩

/-- The acknowledgement is sent; after one without error the handler goes on. -/
theorem Serves.answer (hs : Serves calls st h) {ack : Ack} {failed : Bool} (hp : h.phase = .acking ack failed) :
    Serves calls (st.answer ack) { h with phase := if failed then .returned else .receiving } := by
  have hphase := hs.phase
  simp only [hp] at hphase
  obtain ⟨front,c,call,err,batch,hf,hlen,hb,rfl,rfl,hcall,hret⟩ := hphase
  have hlast : h.calls[st.answers.length]? = some c := by rw [hf, ← hlen, List.getElem?_concat_length]
  refine ⟨hs.made,fun k a hk => ?_,hs.clean,?_⟩
  · rcases Machine.getElem?_concat_cases hk with hk | ⟨rfl,rfl⟩
    · exact hs.answered k a hk
    · exact ⟨c,call,err,hlast,hcall,hret,rfl⟩
  · have hcount : h.calls.length = (st.answer ⟨UInt32.ofNat batch.length,err.getD ""⟩).answers.length := by
      simp [Pipeline.answer, hf, hlen]
    cases err with
    | some e => exact hcount.le.trans (Nat.le_succ _)
    | none =>
      refine ⟨hcount,fun d hd => ?_⟩
      obtain ⟨k,hk⟩ := List.mem_iff_getElem?.mp hd
      have hlt : k < h.calls.length := (List.getElem?_eq_some_iff.mp hk).1
      -- All calls but the last one have returned before it was made.
      by_cases hk' : k+1 < h.calls.length
      · exact hs.clean k d hk' hk
      · have hkeq : k = st.answers.length := by
          simp only [Pipeline.answer, List.length_append, List.length_singleton] at hcount
          omega
        subst hkeq
        cases hlast.symm.trans hk
        exact ⟨call,hcall,hret⟩

/-- The remote that the worker was modelled with does what the handler does. -/
theorem Serves.remoteAck {w : Worker} {i : Nat} (hs : Serves calls st h) (hst : w.streams[i]? = some st) {ack : Ack}
    {failed : Bool} (hp : h.phase = .acking ack failed) :
    w.step (.remoteAck i ack.error) = some { w with streams := w.streams.set i (st.answer ack) } := by
  have hphase := hs.phase
  simp only [hp] at hphase
  obtain ⟨front,c,call,err,batch,hf,hlen,hb,rfl,-,-,-⟩ := hphase
  have hall : ∀ a ∈ st.answers, a.error = "" := by
    intro a ha
    obtain ⟨k,hk⟩ := List.mem_iff_getElem?.mp ha
    obtain ⟨c,call,err,hc,hcall,hret,herr⟩ := hs.answered k a hk
    have hlt : k+1 < h.calls.length := by
      rw [hf, List.length_append, hlen]
      exact Nat.succ_lt_succ (List.getElem?_eq_some_iff.mp hk).1
    obtain ⟨call',hcall',hnone⟩ := hs.clean k c hlt hc
    cases hcall.symm.trans hcall'
    cases hret.symm.trans hnone
    exact herr
  rw [hlen] at hb
  have hack : Worker.remoteAck st (err.getD "") = some (st.answer ⟨UInt32.ofNat batch.length,err.getD ""⟩) := by
    simpa [Worker.remoteAck, hb] using hall
  simp only [Worker.step, hst, hack, Option.bind_eq_bind, Option.bind_some]

end Serves

def workerEvents (es : List Event) : List Worker.Event :=
  es.filterMap (fun e => match e with
    | .worker e => some e
    | _ => none)

/-- A batch is sent over a new stream only when no older batch is in flight. -/
def Drained (s : Link) : Event → Prop
  | .worker e => s.worker.Drained e
  | _ => True

instance (s : Link) : (e : Event) → Decidable (s.Drained e)
  | .worker e => inferInstanceAs (Decidable (s.worker.Drained e))
  | .node _ | .connect | .recv _ | .finish _ | .send _ | .sendFails _ _ | .leave _ => isTrue trivial

/-- What holds of both sides after the events. -/
structure Inv (start : EventLoop.Loop) (es : List Event) (s : Link) : Prop where
  line : Worker.Line (workerEvents es) s.worker
  node : ∃ fs, Calls.Node.Inv start fs s.node
  served : ∀ (i : Nat) (h : Handler), s.handlers[i]? = some h →
    ∃ st, s.worker.streams[i]? = some st ∧ Serves s.node.calls st h
  unheard : ∀ (i : Nat) (st : Stream), s.worker.streams[i]? = some st → s.handlers.length ≤ i → st.answers = []

section Steps
variable {batchSize : Int} {mode : Wal.AckMode} {bufferSize : Nat} {old : List Command} {es : List Event} {s : Link}

theorem init_inv (nodeID : String) :
    Inv (EventLoop.init batchSize mode bufferSize old) [] (init nodeID batchSize mode bufferSize old) where
  line := Worker.init_line nodeID
  node := ⟨[],Calls.Node.init_inv batchSize mode bufferSize old⟩
  served := by simp [init]
  unheard := by simp [init, BatchWorker.init]

/-- Other steps do not concern the order of the tasks. -/
private theorem line_concat {w : Worker} (h : Worker.Line (workerEvents es) w) {e : Event} (he : ∀ f, e ≠ .worker f) :
    Worker.Line (workerEvents (es ++ [e])) w := by
  cases e with
  | worker f => exact absurd rfl (he f)
  | _ => simpa [workerEvents] using h

/-- A handler goes on by itself. -/
private theorem Inv.set_handler {start : EventLoop.Loop} (hv : Inv start es s) {i : Nat} {h h' : Handler} (hi : s.handlers[i]? = some h)
    (hh : ∀ st, s.worker.streams[i]? = some st → Serves s.node.calls st h → Serves s.node.calls st h') {e : Event}
    (he : ∀ f, e ≠ .worker f) : Inv start (es ++ [e]) { s with handlers := s.handlers.set i h' } where
  line := line_concat hv.line he
  node := hv.node
  served j g hj := by
    rcases Machine.getElem?_set_cases hj with ⟨rfl,rfl⟩ | ⟨_,hj⟩
    · obtain ⟨st,hst,hs⟩ := hv.served j h hi
      exact ⟨st,hst,hh st hst hs⟩
    · exact hv.served j g hj
  unheard j st hst hlen := by
    rw [List.length_set] at hlen
    exact hv.unheard j st hst hlen

/-- A handler sends its acknowledgement and goes on or returns. -/
private theorem Inv.answer (hv : Inv (EventLoop.init batchSize mode bufferSize old) es s) {i : Nat} {h h' : Handler}
    (hi : s.handlers[i]? = some h) {ack : Ack} {failed : Bool} (hp : h.phase = .acking ack failed) {st : Stream}
    (hst : s.worker.streams[i]? = some st) (hh : Serves s.node.calls (st.answer ack) h') {e : Event}
    (he : ∀ f, e ≠ .worker f) : Inv (EventLoop.init batchSize mode bufferSize old) (es ++ [e]) { s with
      worker := { s.worker with streams := s.worker.streams.set i (st.answer ack) }
      handlers := s.handlers.set i h' } := by
  obtain ⟨st',hst',hserves⟩ := hv.served i h hi
  cases hst.symm.trans hst'
  have hstep := hserves.remoteAck hst hp
  have hline : Worker.Line (workerEvents es) _ := (Worker.step_line hv.line hstep).congr (by simp [Worker.Event.submitted])
  refine ⟨line_concat hline he,hv.node,
    fun j g hj => ?_,fun j st' hst' hlen => ?_⟩
  · rcases Machine.getElem?_set_cases hj with ⟨rfl,rfl⟩ | ⟨hne,hj⟩
    · exact ⟨_,List.getElem?_set_self (List.getElem?_eq_some_iff.mp hst).1,hh⟩
    · obtain ⟨st',hst',hg⟩ := hv.served j g hj
      exact ⟨st',(List.getElem?_set_ne hne.symm).trans hst',hg⟩
  · rw [List.length_set] at hlen
    have hlt := (List.getElem?_eq_some_iff.mp hi).1
    rcases Machine.getElem?_set_cases hst' with ⟨rfl,_⟩ | ⟨_,hst'⟩
    · omega
    · exact hv.unheard j st' hst' hlen

theorem step_inv {s' : Link} {e : Event} (hv : Inv (EventLoop.init batchSize mode bufferSize old) es s)
    (hs : s.step e = some s') : Inv (EventLoop.init batchSize mode bufferSize old) (es ++ [e]) s' := by
  cases step_fires hs with
  | @worker e w he hw =>
    have hfed := Worker.step_fed hv.line.1.newest hw (fun i error h => by rw [h] at he; cases he)
    refine ⟨?_,hv.node,fun i h hi => ?_,fun i st' hst' hlen => ?_⟩
    · have hline := Worker.step_line hv.line hw
      simpa [workerEvents] using hline
    · obtain ⟨st,hst,hserves⟩ := hv.served i h hi
      obtain ⟨st',hst',hsent,hans⟩ := hfed.kept i st hst
      exact ⟨st',hst',hserves.mono (fun c call hc => ⟨call,hc,.refl call⟩) hsent hans⟩
    · cases hst : s.worker.streams[i]? with
      | none => exact hfed.fresh i st' hst' hst
      | some st =>
        obtain ⟨st'',hst'',_,hans⟩ := hfed.kept i st hst
        cases hst'.symm.trans hst''
        rw [hans]
        exact hv.unheard i st hst hlen
  | @node e n hn =>
    obtain ⟨fs,hnode⟩ := hv.node
    refine ⟨line_concat hv.line (by simp),Calls.Node.step_inv hnode hn,fun i h hi => ?_,hv.unheard⟩
    obtain ⟨st,hst,hserves⟩ := hv.served i h hi
    exact ⟨st,hst,hserves.mono (fun c call hc => Calls.Node.step_continues hn hc) List.prefix_rfl rfl⟩
  | connect hlt =>
    refine ⟨line_concat hv.line (by simp),hv.node,fun i h hi => ?_,fun i st hst hlen => ?_⟩
    · rcases Machine.getElem?_concat_cases hi with hi | ⟨rfl,rfl⟩
      · exact hv.served i h hi
      · have hst := List.getElem?_eq_getElem hlt
        have hnone := hv.unheard _ _ hst (Nat.le_refl _)
        exact ⟨_,hst,by simp,by simp [hnone],by simp,by simp [hnone]⟩
    · rw [List.length_append, List.length_singleton] at hlen
      exact hv.unheard i st hst (Nat.le_of_succ_le hlen)
  | @recv i h st batch n hi hp hst hb hn =>
    obtain ⟨fs,hnode⟩ := hv.node
    refine ⟨line_concat hv.line (by simp),Calls.Node.step_inv hnode hn,fun j g hj => ?_,fun j st' hst' hlen => ?_⟩
    · rcases Machine.getElem?_set_cases hj with ⟨rfl,rfl⟩ | ⟨_,hj⟩
      · obtain ⟨st',hst',hserves⟩ := hv.served j h hi
        cases hst.symm.trans hst'
        refine ⟨st,hst,?_⟩
        cases Calls.Node.step_fires hn with
        | call _ _ => exact hserves.recv hp hb _
      · obtain ⟨st',hst',hserves⟩ := hv.served j g hj
        exact ⟨st',hst',hserves.mono (fun c call hc => Calls.Node.step_continues hn hc) List.prefix_rfl rfl⟩
    · rw [List.length_set] at hlen
      exact hv.unheard j st' hst' hlen
  | finish hi hp hc hr => exact hv.set_handler hi (fun st _ hs => hs.finish hp hc hr) (by simp)
  | @send i h ack failed st hi hp hst =>
    obtain ⟨st',hst',hserves⟩ := hv.served i h hi
    cases hst.symm.trans hst'
    exact hv.answer hi hp hst (hserves.answer hp) (by simp)
  | sendLost hi => exact hv.set_handler hi (fun st _ hs => hs.leave) (by simp)
  | @sendFails i h ack failed st hi hp hst =>
    obtain ⟨st',hst',hserves⟩ := hv.served i h hi
    cases hst.symm.trans hst'
    exact hv.answer hi hp hst (hserves.answer hp).leave (by simp)
  | leave hi => exact hv.set_handler hi (fun st _ hs => hs.leave) (by simp)

theorem step_completed {s' : Link} {e : Event} (hv : Inv (EventLoop.init batchSize mode bufferSize old) es s)
    (hs : s.step e = some s') : s.worker.completed <+: s'.worker.completed := by
  cases step_fires hs with
  | worker he hw => exact Worker.step_completed hv.line.1.newest hw
  | node | connect | recv | finish | send | sendLost | sendFails | leave => exact List.prefix_rfl

/-- The worker's own invariant, as long as new streams start with nothing in flight. -/
theorem step_worker_inv {s' : Link} {e : Event} (hv : Inv (EventLoop.init batchSize mode bufferSize old) es s)
    (hw : s.worker.Inv) (hd : s.Drained e) (hs : s.step e = some s') : s'.worker.Inv := by
  have hanswer {i : Nat} {h : Handler} {ack : Ack} {failed : Bool} {st : Stream} (hi : s.handlers[i]? = some h)
      (hp : h.phase = .acking ack failed) (hst : s.worker.streams[i]? = some st) :
      Worker.Inv { s.worker with streams := s.worker.streams.set i (st.answer ack) } := by
    obtain ⟨st',hst',hserves⟩ := hv.served i h hi
    cases hst.symm.trans hst'
    exact Worker.step_inv hw (by simp [Worker.Drained, Worker.flushes]) (hserves.remoteAck hst hp)
  cases step_fires hs with
  | worker he hstep => exact Worker.step_inv hw hd hstep
  | send hi hp hst | sendFails hi hp hst => exact hanswer hi hp hst
  | node | connect | recv | finish | sendLost | leave => exact hw

end Steps

section Runs
variable {nodeID : String} {batchSize : Int} {mode : Wal.AckMode} {bufferSize : Nat} {old : List Command} {es : List Event}
  {s : Link}

theorem run_inv (hr : Machine.run step (init nodeID batchSize mode bufferSize old) es = some s) :
    Inv (EventLoop.init batchSize mode bufferSize old) es s :=
  Machine.run_history (fun _ _ _ _ hv hs => step_inv hv hs) (init_inv nodeID) hr

theorem run_worker_inv (hd : Machine.Meets step Drained (init nodeID batchSize mode bufferSize old) es)
    (hr : Machine.run step (init nodeID batchSize mode bufferSize old) es = some s) : s.worker.Inv := by
  have hboth := Machine.run_history_of_meets
    (I := fun es s => Inv (EventLoop.init batchSize mode bufferSize old) es s ∧ s.worker.Inv)
    (fun _ _ _ _ hv hg hs => ⟨step_inv hv.1 hs,step_worker_inv hv.1 hv.2 hg hs⟩)
    ⟨init_inv nodeID,Worker.init_inv nodeID⟩ hd hr
  exact hboth.2

/-- The I/O errors at the peer have texts. -/
def Event.Worded : Event → Prop
  | .node e => e.Worded
  | _ => True

instance : (e : Event) → Decidable e.Worded
  | .node e => inferInstanceAs (Decidable e.Worded)
  | .worker _ | .connect | .recv _ | .finish _ | .send _ | .sendFails _ _ | .leave _ => isTrue trivial

theorem run_worded (hes : ∀ e ∈ es, e.Worded)
    (hr : Machine.run step (init nodeID batchSize mode bufferSize old) es = some s) : s.node.loop.Worded := by
  refine Machine.run_invariant_of_meets (G := fun _ e => e.Worded) (I := fun s : Link => s.node.loop.Worded)
    (fun s e s' h he hs => ?_) (EventLoop.Loop.init_worded batchSize mode bufferSize old) (Machine.meets_of_forall _ hes) hr
  cases step_fires hs with
  | node hn => exact Calls.Node.step_worded h he hn
  | recv _ _ _ _ hn => exact Calls.Node.step_worded (e := .call _ _) h trivial hn
  | worker | connect | finish | send | sendLost | sendFails | leave => exact h

theorem batchReqs_eq (batch : List Task) (chan : Nat) :
    batchReqs batch chan = batch.zipIdx.map (fun p => p.1.req.pendingReq (chan+p.2)) := by
  have hreqs : (batch.map (fun t => some t.req)).reduceOption = batch.map Task.req := by
    induction batch with
    | nil => rfl
    | cons t batch ih => rw [List.map_cons, List.reduceOption_cons_of_some, ih, List.map_cons]
  rw [batchReqs, Replicate.pendingReqs, hreqs, List.zipIdx_map, List.map_map]
  rfl

/-- The requests of a batch are those of its tasks. -/
theorem mem_batchReqs {batch : List Task} {t : Task} (ht : t ∈ batch) (chan : Nat) :
    ∃ chan', t.req.pendingReq chan' ∈ batchReqs batch chan := by
  obtain ⟨k,hk⟩ := List.mem_iff_getElem?.mp ht
  rw [batchReqs_eq]
  exact ⟨chan+k,List.mem_map.mpr ⟨(t,k),List.mk_mem_zipIdx_iff_getElem?.mpr hk,rfl⟩⟩

theorem of_mem_batchReqs {batch : List Task} {chan : Nat} {r : Request} (hr : r ∈ batchReqs batch chan) :
    ∃ t ∈ batch, ∃ chan', r = t.req.pendingReq chan' := by
  rw [batchReqs_eq] at hr
  obtain ⟨p,hp,rfl⟩ := List.mem_map.mp hr
  exact ⟨p.1,List.fst_mem_of_mem_zipIdx hp,_,rfl⟩

/-- The writes among them are those that are not handed on as gets. -/
theorem isWrite_iff (m : ReplicationRequest) (chan : Nat) : Replicate.IsWrite m ↔ (m.pendingReq chan).op ≠ opGet := by
  obtain ⟨op,key,value,vnodeID,version⟩ := m
  cases op <;> simp [Replicate.IsWrite, ReplicationRequest.pendingReq, opPut, opDelete, opGet]

/-- A call for a batch that was acknowledged without error has returned without error. -/
theorem Serves.acknowledged {start : EventLoop.Loop} {fs : List EventLoop.Loop.Event} {n : Calls.Node} {st : Stream}
    {h : Handler} (hs : Serves n.calls st h) (hn : Calls.Node.Inv start fs n)
    (herr : n.loop.Worded) {k : Nat} {a : Ack} (ha : st.answers[k]? = some a)
    (hok : a.error = "") : ∃ c call, h.calls[k]? = some c ∧ n.calls[c]? = some call ∧ call.phase = .returned none := by
  obtain ⟨c,call,err,hc,hcall,hret,htext⟩ := hs.answered k a ha
  refine ⟨c,call,hc,hcall,?_⟩
  cases err with
  | none => exact hret
  | some e =>
    -- An error has a text, so the acknowledgement would show it.
    obtain rfl : e = "" := htext.symm.trans hok
    have hfound := (hn.calls call (List.mem_of_getElem? hcall)).found
    simp only [Calls.Call.Found, hret] at hfound
    rcases hfound with hfound | ⟨p,hp,_,hpe⟩
    · obtain ⟨_,_,call',_,hcall',_,hcan⟩ := hs.made k c hc
      cases hcall.symm.trans hcall'
      rw [hcan] at hfound
      exact absurd hfound (by decide)
    · exact absurd hpe (herr.responses p hp)

/-- The call that such a batch was served with. -/
theorem Serves.served {calls : List Calls.Call} {st : Stream} {h : Handler} (hs : Serves calls st h) {k c : Nat}
    {batch : List Task} {call : Calls.Call} (hb : st.sent[k]? = some batch) (hc : h.calls[k]? = some c)
    (hcall : calls[c]? = some call) {t : Task} (ht : t ∈ batch) : ∃ chan, t.req.pendingReq chan ∈ call.reqs := by
  obtain ⟨batch',chan,call',hb',hcall',hreqs,_⟩ := hs.made k c hc
  cases hb.symm.trans hb'
  cases hcall.symm.trans hcall'
  rw [hreqs]
  exact mem_batchReqs ht chan

/-- The peer takes the batches of a stream one after the other: it has applied all of a
batch before it acknowledges it without error, and before it looks at the next one. -/
theorem acknowledged_batch_applied (hr : Machine.run step (init nodeID batchSize mode bufferSize old) es = some s)
    (hes : ∀ e ∈ es, e.Worded) {i : Nat} {h : Handler} {st : Stream}
    (hi : s.handlers[i]? = some h) (hst : s.worker.streams[i]? = some st) :
    (st.answers.length ≤ h.calls.length ∧ h.calls.length ≤ st.answers.length+1 ∧ h.calls.length ≤ st.sent.length) ∧
    ∀ (k : Nat) (batch : List Task), st.sent[k]? = some batch →
      (k+1 < h.calls.length ∨ ∃ a : Ack, st.answers[k]? = some a ∧ a.error = "") →
      ∀ t ∈ batch, Replicate.IsWrite t.req → ∃ chan, t.req.pendingReq chan ∈ s.node.loop.applied := by
  have hv := run_inv hr
  obtain ⟨st',hst',hs⟩ := hv.served i h hi
  cases hst.symm.trans hst'
  obtain ⟨fs,hn⟩ := hv.node
  refine ⟨⟨hs.answers_le,hs.calls_le,hs.calls_le_sent⟩,fun k batch hb hk t ht hw => ?_⟩
  have hcall : ∃ c call, h.calls[k]? = some c ∧ s.node.calls[c]? = some call ∧ call.phase = .returned none := by
    rcases hk with hk | ⟨a,ha,hok⟩
    · have hc := List.getElem?_eq_getElem (Nat.lt_of_succ_lt hk)
      obtain ⟨call,hcall⟩ := hs.clean k _ hk hc
      exact ⟨_,call,hc,hcall⟩
    · exact hs.acknowledged hn (run_worded hes hr) ha hok
  obtain ⟨c,call,hc,hcall,hret⟩ := hcall
  obtain ⟨chan,hmem⟩ := hs.served hb hc hcall ht
  exact ⟨chan,hn.applied (List.mem_of_getElem? hcall) hret _ hmem ((isWrite_iff t.req chan).mp hw)⟩

/-- A batch of one write to the peer that syncs its log, up to the completion of its task. -/
def shipped (n : Nat) (opening : List Event) (req : ReplicationRequest) : List Event :=
  [.worker (.submit req),.worker (.takeTask ⟨none,none,false⟩),.worker (.tick ⟨none,none,false⟩)] ++ opening ++
  [.recv 0,.node (.submit n),.node (.submit n),.node .receive,.node (.loop .advance),.node (.loop .advance),
   .node (.loop .advance),.node (.loop .advance),
   .node (.loop (.writer (.take ⟨n+1,[(req.pendingReq 0).command]⟩))),.node (.loop (.writer .next)),
   .node (.loop (.writer .next)),.node (.loop (.writer (.observe true))),.node (.loop (.writer (.write 15))),
   .node (.loop (.writer .wrote)),.node (.loop (.writer .sync)),.node (.loop (.writer .resume)),
   .node (.loop (.writer .publish)),.node (.loop .takeAck),.node (.loop .wake),.node (.loop .respond),
   .node (.loop .respond),.node (.collect n),.node (.collect n),.finish 0,.send 0,.worker (.recvReturns 0 none),
   .worker (.recvSends 0),.worker .takeResult]

def updateReq : ReplicationRequest := ⟨.put,sampleKey,.singleton 119,7,2⟩

/-- Two batches over one stream. -/
def replicated : List Event := shipped 0 [.connect] Worker.sampleReq ++ shipped 1 [] updateReq

theorem acknowledged_batch_applied_sample : ∃ s, Machine.run step (init "node-1" 1 .afterFsync 64 []) replicated = some s ∧
    s.worker.streams.map (fun st => st.sent) = [[[⟨Worker.sampleReq,0⟩],[⟨updateReq,1⟩]]] ∧
    ∀ req ∈ [Worker.sampleReq,updateReq], ∃ chan, req.pendingReq chan ∈ s.node.loop.applied := by
  have hfacts : (Machine.run step (init "node-1" 1 .afterFsync 64 []) replicated).map (fun s =>
      (s.worker.streams.map (fun st => (st.sent,st.answers)),s.handlers.length)) =
      some ([([[⟨Worker.sampleReq,0⟩],[⟨updateReq,1⟩]],[⟨1,""⟩,⟨1,""⟩])],1) := rfl
  obtain ⟨s,hr,hs⟩ := Option.map_eq_some_iff.mp hfacts
  obtain ⟨hstreams,hlen⟩ := Prod.mk.injEq .. ▸ hs
  obtain ⟨st,hst,heq⟩ := List.map_eq_singleton_iff.mp hstreams
  obtain ⟨hsent,hans⟩ := Prod.mk.injEq .. ▸ heq
  obtain ⟨h,hh⟩ := List.length_eq_one_iff.mp hlen
  have hok := acknowledged_batch_applied hr (by decide) (i := 0) (by rw [hh]; rfl) (by rw [hst]; rfl)
  refine ⟨s,hr,by rw [hst, List.map_singleton, hsent],fun req hreq => ?_⟩
  rcases List.mem_pair.mp hreq with rfl | rfl
  · exact hok.2 0 _ (by rw [hsent]; rfl) (.inr ⟨_,by rw [hans]; rfl,rfl⟩) ⟨_,0⟩ List.mem_cons_self (by decide)
  · exact hok.2 1 _ (by rw [hsent]; rfl) (.inr ⟨_,by rw [hans]; rfl,rfl⟩) ⟨_,1⟩ List.mem_cons_self (by decide)

/-- The writes that come in carry versions. -/
def Event.Versioned : Event → Prop
  | .worker (.submit req) => Replicate.IsWrite req → req.version ≠ 0
  | .node e => e.Versioned
  | _ => True

instance : (e : Event) → Decidable e.Versioned
  | .worker (.submit req) => inferInstanceAs (Decidable (Replicate.IsWrite req → req.version ≠ 0))
  | .node e => inferInstanceAs (Decidable e.Versioned)
  | .worker .stop | .worker (.takeTask _) | .worker (.tick _) | .worker .takeResult | .worker .takeStop
  | .worker (.remoteAck _ _) | .worker (.recvReturns _ _) | .worker (.recvSends _)
  | .connect | .recv _ | .finish _ | .send _ | .sendFails _ _ | .leave _ => isTrue trivial

/-- A task that went over a stream was submitted, under its number. -/
theorem Inv.submitted {start : EventLoop.Loop} (hv : Inv start es s) {st : Stream} (hst : st ∈ s.worker.streams)
    {batch : List Task} (hb : batch ∈ st.sent) {t : Task} (ht : t ∈ batch) :
    ((workerEvents es).filterMap Worker.Event.submitted)[t.done]? = some t.req := by
  have hline : t ∈ s.worker.line :=
    List.mem_append_left _ (List.mem_append_left _ (List.mem_flatMap.mpr ⟨st,hst,List.mem_flatten.mpr ⟨batch,hb,ht⟩⟩))
  obtain ⟨p,hp,rfl⟩ := List.mem_map.mp (hv.line.1.order.subset hline)
  exact List.mk_mem_zipIdx_iff_getElem?.mp hp

/-- Acknowledgements come from handlers. -/
theorem Inv.handler {start : EventLoop.Loop} (hv : Inv start es s) {st : Stream} (hst : st ∈ s.worker.streams) {a : Ack}
    (ha : a ∈ st.answers) : ∃ h, Serves s.node.calls st h := by
  obtain ⟨i,hi⟩ := List.mem_iff_getElem?.mp hst
  have hlt : i < s.handlers.length := by
    by_contra hle
    rw [hv.unheard i st hi (not_lt.mp hle)] at ha
    cases ha
  obtain ⟨st',hst',hs⟩ := hv.served i _ (List.getElem?_eq_getElem hlt)
  cases hi.symm.trans hst'
  exact ⟨_,hs⟩

theorem mem_of_submitted {req : ReplicationRequest} (h : req ∈ (workerEvents es).filterMap Worker.Event.submitted) :
    .worker (.submit req) ∈ es := by
  obtain ⟨f,hf,hreq⟩ := List.mem_filterMap.mp h
  obtain ⟨e,he,hef⟩ := List.mem_filterMap.mp hf
  cases f <;> cases hreq
  cases e <;> cases hef
  exact he

theorem step_versioned {s' : Link} {e : Event} (hv : Inv (EventLoop.init batchSize mode bufferSize old) es s)
    (hes : ∀ e ∈ es, e.Versioned) (h : s.node.Versioned) (he : e.Versioned) (hs : s.step e = some s') :
    s'.node.Versioned := by
  cases step_fires hs with
  | node hn => exact Calls.Node.step_versioned h he hn
  | @recv i hd st batch n hi hp hst hb hn =>
    have hcall : (Calls.Node.Event.call (batchReqs batch s.node.nextChan) errBatchCancelled).Versioned := by
      intro r hmem hop
      obtain ⟨t,ht,chan,rfl⟩ := of_mem_batchReqs hmem
      have hsub := hv.submitted (List.mem_of_getElem? hst) (List.mem_of_getElem? hb) ht
      exact hes _ (mem_of_submitted (List.mem_of_getElem? hsub)) ((isWrite_iff t.req chan).mpr hop)
    exact Calls.Node.step_versioned h hcall hn
  | worker | connect | finish | send | sendLost | sendFails | leave => exact h

theorem run_versioned (hes : ∀ e ∈ es, e.Versioned)
    (hr : Machine.run step (init nodeID batchSize mode bufferSize old) es = some s) : s.node.Versioned := by
  have hboth := Machine.run_history
    (I := fun es s => Inv (EventLoop.init batchSize mode bufferSize old) es s ∧
      ((∀ e ∈ es, e.Versioned) → s.node.Versioned)) ?_
    ⟨init_inv nodeID,fun _ => by simp [Calls.Node.Versioned, init, Calls.Node.init]⟩ hr
  · exact hboth.2 hes
  · intro es s e s' hv hs
    refine ⟨step_inv hv.1 hs,fun hall => ?_⟩
    rw [List.forall_mem_append, List.forall_mem_singleton] at hall
    exact step_versioned hv.1 hall.1 (hv.2 hall.1) hall.2 hs

/-- A task that is completed without error carries the request that was submitted under its
number, and the peer has served it in a call that returned without error. -/
theorem completed_task_served (herr : ∀ e ∈ es, e.Worded)
    (hd : Machine.Meets step Drained (init nodeID batchSize mode bufferSize old) es)
    (hr : Machine.run step (init nodeID batchSize mode bufferSize old) es = some s) {d : Nat} (hc : (d,none) ∈ s.worker.completed) :
    ∃ req, ((workerEvents es).filterMap Worker.Event.submitted)[d]? = some req ∧
      ∃ call ∈ s.node.calls, call.phase = .returned none ∧ ∃ chan, req.pendingReq chan ∈ call.reqs := by
  have hv := run_inv hr
  obtain ⟨fs,hn⟩ := hv.node
  obtain ⟨st,hst,p,hp,hdone,hok⟩ := (run_worker_inv hd hr).sound d hc
  obtain ⟨t,ht,rfl⟩ := List.mem_map.mp hdone
  obtain ⟨k,hk⟩ := List.mem_iff_getElem?.mp hp
  obtain ⟨hb,ha⟩ := List.getElem?_zip_eq_some.mp hk
  obtain ⟨h,hs⟩ := hv.handler hst (List.mem_of_getElem? ha)
  obtain ⟨c,call,hcalls,hcall,hret⟩ := hs.acknowledged hn (run_worded herr hr) ha hok
  exact ⟨t.req,hv.submitted hst (List.mem_of_getElem? hb) ht,call,List.mem_of_getElem? hcall,hret,hs.served hb hcalls hcall ht⟩

end Runs
end Link
end Nawst.Cluster.ReplicationLink
