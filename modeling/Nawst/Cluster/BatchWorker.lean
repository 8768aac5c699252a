import Nawst.Lib.Machine
import Nawst.Lib.Pipeline
import Nawst.Core.Request

/-! The replication worker of one peer: tasks are batched, sent over a stream and
matched with the acknowledgements in the order of sending. The events answer every
question the worker asks of the network. -/
namespace Nawst.Cluster.BatchWorker
open Lib Nawst.Core

def replicationBatchSize : Nat := 512
def enqueueCapacity : Nat := 16384

/-- A task; its done channel has room for one error and is named by a number. -/
structure Task where
  req : ReplicationRequest
  done : Nat
  deriving DecidableEq

structure Ack where
  applied : UInt32
  error : String
  deriving DecidableEq

/-- What Recv returns: an acknowledgement or an error. -/
inductive AckResult where
  | ack (a : Ack)
  | err (e : Err)
  deriving DecidableEq

/-- One stream: the batches that reached the remote and its acknowledgements. -/
abbrev Stream := Pipeline (List Task) Ack

/-- A Recv goroutine: in Recv on a stream, or about to hand over its result. -/
inductive Recv where
  | waiting (stream : Nat)
  | sending (res : AckResult)
  deriving DecidableEq

/-- The worker's channels and the variables of run, the streams it has opened so
far, its Recv goroutines and the log of what was sent to done channels. -/
structure Worker where
  nodeID : String
  enqueue : List Task
  nextDone : Nat
  stopped : Bool
  returned : Bool
  stream : Option Nat
  recvCh : Option AckResult
  recvActive : Bool
  pending : List Task
  inFlight : List (List Task)
  recvs : List Recv
  streams : List Stream
  completed : List (Nat × Option Err)
  deriving DecidableEq

def init (nodeID : String) : Worker := ⟨nodeID,[],0,false,false,none,none,false,[],[],[],[],[]⟩

/-- The network's answers to one flush, each looked at only when it is asked for.
A batch whose Send fails may have reached the remote all the same. -/
structure Net where
  openErr : Option Err
  sendErr : Option Err
  delivered : Bool
  deriving DecidableEq

/-- What an acknowledgement tells the tasks of its batch. -/
def ackError (nodeID : String) (a : Ack) : Option Err :=
  if a.error = "" then none else some ("replication stream ack from " ++ nodeID ++ " failed: " ++ a.error)

namespace Worker

def failTasks (w : Worker) (tasks : List Task) (err : Option Err) : Worker :=
  { w with completed := w.completed ++ tasks.map (fun t => (t.done,err)) }

def failAll (w : Worker) (err : Err) (pending : List Task) (inFlight : List (List Task)) : Worker :=
  inFlight.foldl (fun w batch => w.failTasks batch (some err)) (w.failTasks pending (some err))

def openStream (w : Worker) (net : Net) : Worker × Option Err :=
  match w.stream with
  | some _ => (w,none)
  | none => match net.openErr with
    | some e => (w,some e)
    | none =>
      ({ w with streams := w.streams ++ [.empty], stream := some w.streams.length, recvActive := false },none)

def closeStream (w : Worker) : Worker := { w with stream := none, recvActive := false }

def startRecv (w : Worker) : Worker :=
  match w.stream with
  | none => w
  | some current =>
    if w.recvActive ∨ w.inFlight = [] then w
    else { w with recvActive := true, recvs := w.recvs ++ [.waiting current] }

/-- The batch reaches the remote over the current stream. -/
def deliver (w : Worker) (tasks : List Task) : Worker :=
  match w.stream with
  | none => w
  | some i => match w.streams[i]? with
    | none => w
    | some st => { w with streams := w.streams.set i (st.send tasks) }

def sendBatch (w : Worker) (net : Net) (tasks : List Task) : Worker × Option Err :=
  if tasks = [] then (w,none)
  else match w.openStream net with
    | (w,some e) => (w,some e)
    | (w,none) => match net.sendErr with
      | some e => (if net.delivered then w.deliver tasks else w,some e)
      | none =>
        let w := w.deliver tasks
        (startRecv { w with inFlight := w.inFlight ++ [tasks] },none)

def flush (w : Worker) (net : Net) : Worker :=
  if w.pending = [] then w
  else
    let batch := w.pending
    match sendBatch { w with pending := [] } net batch with
    | (w,none) => w
    | (w,some e) => w.closeStream.failTasks batch (some e)

/-- The branch of the loop that received a result. -/
def takeResult (w : Worker) (res : AckResult) : Worker :=
  let w := { w with recvCh := none, recvActive := false }
  match w.inFlight with
  | [] => w.closeStream
  | batch::inFlight =>
    let w := { w with inFlight := inFlight }
    match res with
    | .err e =>
      let err := "replication stream to " ++ w.nodeID ++ " failed: " ++ e
      let w := (w.closeStream.failTasks batch (some err)).failAll err w.pending inFlight
      { w with pending := [], inFlight := [] }
    | .ack a => (w.failTasks batch (ackError w.nodeID a)).startRecv

/-- The branch of the loop that saw stopCh closed; returning drops its variables. -/
def takeStop (w : Worker) : Worker :=
  let w := w.closeStream.failAll "worker stopped" w.pending w.inFlight
  { w with pending := [], inFlight := [], returned := true }

inductive Event where
  | submit (req : ReplicationRequest)
  | takeTask (net : Net)
  | tick (net : Net)
  | takeResult
  | stop
  | takeStop
  | remoteAck (stream : Nat) (error : String)
  | recvReturns (g : Nat) (err : Option Err)
  | recvSends (g : Nat)
  deriving DecidableEq

/-- The remote answers its next batch, and nothing more after an error. -/
def remoteAck (st : Stream) (error : String) : Option Stream := do
  let batch ← st.sent[st.answers.length]?
  if st.answers.all (fun a => a.error = "") then some (st.answer ⟨UInt32.ofNat batch.length,error⟩)
  else none

/-- Recv hands out the next acknowledgement of its stream, or fails at any time. -/
def recvReturns (w : Worker) (g i : Nat) : Option Err → Option Worker
  | some e => some { w with recvs := w.recvs.set g (.sending (.err e)) }
  | none => do
    let st ← w.streams[i]?
    let (a,st) ← st.receive
    some { w with recvs := w.recvs.set g (.sending (.ack a)), streams := w.streams.set i st }

def step (w : Worker) : Event → Option Worker
  | .submit req =>
    if w.enqueue.length < enqueueCapacity then
      some { w with enqueue := w.enqueue ++ [⟨req,w.nextDone⟩], nextDone := w.nextDone+1 }
    else none
  | .takeTask net => match w.returned, w.enqueue with
    | false, t::ts =>
      let w := { w with enqueue := ts, pending := w.pending ++ [t] }
      if replicationBatchSize ≤ w.pending.length then some (w.flush net) else some w
    | _, _ => none
  | .tick net => if w.returned then none else some (w.flush net)
  | .takeResult => match w.returned, w.recvCh with
    | false, some res => some (w.takeResult res)
    | _, _ => none
  | .stop => some { w with stopped := true }
  | .takeStop => if w.stopped ∧ ¬ w.returned then some w.takeStop else none
  | .remoteAck i error => do
    let st ← w.streams[i]?
    let st ← remoteAck st error
    some { w with streams := w.streams.set i st }
  | .recvReturns g err => match w.recvs[g]? with
    | some (.waiting i) => w.recvReturns g i err
    | _ => none
  | .recvSends g => match w.recvs[g]?, w.recvCh with
    | some (.sending res), none => some { w with recvs := w.recvs.eraseIdx g, recvCh := some res }
    | _, _ => none

/-- What a step of the worker, its goroutines or the remote can do. -/
inductive Fires (w : Worker) : Event → Worker → Prop where
  | submit (req : ReplicationRequest) (hroom : w.enqueue.length < enqueueCapacity) :
    Fires w (.submit req) { w with enqueue := w.enqueue ++ [⟨req,w.nextDone⟩], nextDone := w.nextDone+1 }
  | collect (net : Net) {t : Task} {ts : List Task} (hn : w.returned = false) (he : w.enqueue = t::ts)
      (hroom : w.pending.length+1 < replicationBatchSize) :
    Fires w (.takeTask net) { w with enqueue := ts, pending := w.pending ++ [t] }
  | fill (net : Net) {t : Task} {ts : List Task} (hn : w.returned = false) (he : w.enqueue = t::ts)
      (hfull : replicationBatchSize ≤ w.pending.length+1) :
    Fires w (.takeTask net) (flush { w with enqueue := ts, pending := w.pending ++ [t] } net)
  | tick (net : Net) (hn : w.returned = false) : Fires w (.tick net) (w.flush net)
  | takeResult {res : AckResult} (hn : w.returned = false) (hc : w.recvCh = some res) :
    Fires w .takeResult (w.takeResult res)
  | stop : Fires w .stop { w with stopped := true }
  | takeStop (hs : w.stopped = true) (hn : w.returned = false) : Fires w .takeStop w.takeStop
  | remoteAck {i : Nat} {error : String} {st st' : Stream} (hst : w.streams[i]? = some st)
      (hack : Worker.remoteAck st error = some st') :
    Fires w (.remoteAck i error) { w with streams := w.streams.set i st' }
  | recvFails {g i : Nat} (e : Err) (hg : w.recvs[g]? = some (.waiting i)) :
    Fires w (.recvReturns g (some e)) { w with recvs := w.recvs.set g (.sending (.err e)) }
  | recvReturns {g i : Nat} {st : Stream} {a : Ack} (hg : w.recvs[g]? = some (.waiting i))
      (hst : w.streams[i]? = some st) (ha : st.answers[st.received]? = some a) :
    Fires w (.recvReturns g none) { w with
      recvs := w.recvs.set g (.sending (.ack a)), streams := w.streams.set i { st with received := st.received+1 } }
  | recvSends {g : Nat} {res : AckResult} (hg : w.recvs[g]? = some (.sending res)) (hc : w.recvCh = none) :
    Fires w (.recvSends g) { w with recvs := w.recvs.eraseIdx g, recvCh := some res }

theorem step_fires {w w' : Worker} {e : Event} (hs : w.step e = some w') : Fires w e w' := by
  cases e with
  | submit req =>
    simp only [step, Option.ite_none_right_eq_some, Option.some.injEq] at hs
    obtain ⟨hroom,rfl⟩ := hs
    exact .submit req hroom
  | takeTask net =>
    simp only [step] at hs
    split at hs
    · rename_i hn he
      split at hs
      · rename_i hfull
        cases hs
        exact .fill net hn he (by simpa using hfull)
      · rename_i hroom
        cases hs
        exact .collect net hn he (by simpa using hroom)
    · cases hs
  | tick net =>
    simp only [step, Option.ite_none_left_eq_some, Option.some.injEq] at hs
    obtain ⟨hn,rfl⟩ := hs
    exact .tick net (by simpa using hn)
  | takeResult =>
    simp only [step] at hs
    split at hs
    · rename_i hn hc
      cases hs
      exact .takeResult hn hc
    · cases hs
  | stop =>
    cases hs
    exact .stop
  | takeStop =>
    simp only [step, Option.ite_none_right_eq_some, Option.some.injEq] at hs
    obtain ⟨⟨hstop,hn⟩,rfl⟩ := hs
    exact .takeStop hstop (by simpa using hn)
  | remoteAck i error =>
    simp only [step, Option.bind_eq_bind, Option.bind_eq_some_iff, Option.some.injEq] at hs
    obtain ⟨st,hst,st',hack,rfl⟩ := hs
    exact .remoteAck hst hack
  | recvReturns g err =>
    simp only [step] at hs
    split at hs
    · rename_i i hg
      cases err with
      | some e =>
        cases hs
        exact .recvFails e hg
      | none =>
        simp only [recvReturns, Option.bind_eq_bind, Option.bind_eq_some_iff, Prod.exists, Option.some.injEq] at hs
        obtain ⟨st,hst,a,st',hrcv,rfl⟩ := hs
        obtain ⟨ha,rfl⟩ := Pipeline.receive_eq_some.mp hrcv
        exact .recvReturns hg hst ha
    · cases hs
  | recvSends g =>
    simp only [step] at hs
    split at hs
    · rename_i hg hc
      cases hs
      exact .recvSends hg hc
    · cases hs

/-- The remote returned an acknowledgement without error for a batch with this task,
on the stream over which the batch went. -/
def Acknowledged (w : Worker) (d : Nat) : Prop :=
  ∃ st ∈ w.streams, ∃ p ∈ st.pairs, d ∈ p.1.map Task.done ∧ p.2.error = ""

instance (w : Worker) (d : Nat) : Decidable (w.Acknowledged d) :=
  inferInstanceAs (Decidable (∃ st ∈ w.streams, ∃ p ∈ st.pairs, d ∈ p.1.map Task.done ∧ p.2.error = ""))

/-- The done channels of all tasks in batches that went over a stream. -/
def sentIDs (w : Worker) : List Nat := w.streams.flatMap (fun st => st.sent.flatten.map Task.done)

/-- The answers an event gives to a flush, when it leads to one. -/
def flushes (w : Worker) : Event → Option Net
  | .takeTask net => if replicationBatchSize ≤ w.pending.length+1 then some net else none
  | .tick net => if w.pending = [] then none else some net
  | _ => none

/-- A batch is sent over a new stream only when no older batch is in flight. -/
def Drained (w : Worker) (e : Event) : Prop :=
  ∀ net ∈ w.flushes e, w.stream = none → net.openErr = none → net.sendErr = none → w.inFlight = []

instance (w : Worker) (e : Event) : Decidable (Drained w e) :=
  inferInstanceAs (Decidable (∀ net ∈ w.flushes e, _))

@[simp] theorem failAll_eq (w : Worker) (err : Err) (pending : List Task) (inFlight : List (List Task)) :
    w.failAll err pending inFlight = { w with
      completed := w.completed ++ (pending ++ inFlight.flatten).map (fun t => (t.done,some err)) } := by
  unfold failAll
  induction inFlight using List.reverseRecOn with
  | nil => simp [failTasks]
  | append_singleton inFlight batch ih =>
    rw [List.foldl_append, ih]
    simp [failTasks]

/-- A result in hand is the answer to the n-th batch of its stream. -/
def Answers (st : Stream) (n : Nat) : AckResult → Prop
  | .err _ => st.received = n
  | .ack a => st.received = n+1 ∧ st.answers[n]? = some a

/-- At most one Recv or result is outstanding, and it is for the n-th batch of src. -/
inductive Receiving (w : Worker) (src : Nat) (st : Stream) (n : Nat) : Prop where
  | idle (hr : w.recvs = []) (hc : w.recvCh = none) (hn : st.received = n)
  | waiting (hr : w.recvs = [.waiting src]) (hc : w.recvCh = none) (hn : st.received = n)
      (hf : w.inFlight ≠ []) (ha : w.stream = none ∨ w.recvActive = true)
  | sending (res : AckResult) (hr : w.recvs = [.sending res]) (hc : w.recvCh = none) (hn : Answers st n res)
      (hf : w.inFlight ≠ []) (ha : w.stream = none ∨ w.recvActive = true)
  | ready (res : AckResult) (hr : w.recvs = []) (hc : w.recvCh = some res) (hn : Answers st n res)
      (hf : w.inFlight ≠ []) (ha : w.stream = none ∨ w.recvActive = true)

/-- The batches in flight all went over src, right after those answered already.
A batch behind them may have reached the remote although its Send failed. -/
structure Matching (w : Worker) (src : Nat) (st : Stream) (answered rest : List (List Task)) : Prop where
  source : w.streams[src]? = some st
  sent : st.sent = answered ++ w.inFlight ++ rest
  current : w.stream = none ∨ w.stream = some src ∧ rest = []
  recv : Receiving w src st answered.length

def Quiet (w : Worker) : Prop := w.stream = none ∧ w.inFlight = [] ∧ w.recvs = [] ∧ w.recvCh = none

def Ordered (w : Worker) : Prop := w.Quiet ∨ ∃ src st answered rest, w.Matching src st answered rest

private theorem Answers.extends {st st' : Stream} {n : Nat} {res : AckResult} (h : Answers st n res)
    (he : st.Extends st') (hr : st'.received = st.received) : Answers st' n res := by
  cases res with
  | err e => exact hr.trans h
  | ack a => exact ⟨hr.trans h.1,he.answers_getElem? h.2⟩

/-- Receiving survives whatever leaves the goroutines alone and keeps a batch in flight. -/
private theorem Receiving.frame {w w' : Worker} {src n : Nat} {st st' : Stream} (h : Receiving w src st n)
    (hr : w'.recvs = w.recvs) (hc : w'.recvCh = w.recvCh) (hf : w.inFlight ≠ [] → w'.inFlight ≠ [])
    (ha : w.stream = none ∨ w.recvActive = true → w'.stream = none ∨ w'.recvActive = true)
    (he : st.Extends st') (hn : st'.received = st.received) : Receiving w' src st' n := by
  cases h with
  | idle r c n => exact .idle (hr.trans r) (hc.trans c) (hn.trans n)
  | waiting r c n f a => exact .waiting (hr.trans r) (hc.trans c) (hn.trans n) (hf f) (ha a)
  | sending res r c n f a => exact .sending res (hr.trans r) (hc.trans c) (n.extends he hn) (hf f) (ha a)
  | ready res r c n f a => exact .ready res (hr.trans r) (hc.trans c) (n.extends he hn) (hf f) (ha a)

private theorem Receiving.idle_of_empty {w : Worker} {src n : Nat} {st : Stream} (h : Receiving w src st n)
    (hf : w.inFlight = []) : w.recvs = [] ∧ w.recvCh = none := by
  cases h with
  | idle r c _ => exact ⟨r,c⟩
  | waiting _ _ _ f _ | sending _ _ _ _ f _ | ready _ _ _ _ f _ => exact absurd hf f

/-- With nothing in flight no Recv is outstanding. -/
private theorem Ordered.idle {w : Worker} (h : w.Ordered) (hf : w.inFlight = []) :
    w.recvs = [] ∧ w.recvCh = none := by
  rcases h with ⟨_,_,hr,hc⟩ | ⟨_,_,_,_,h⟩
  · exact ⟨hr,hc⟩
  · exact h.recv.idle_of_empty hf

private theorem Matching.startRecv {w : Worker} {src : Nat} {st : Stream} {answered rest : List (List Task)}
    (h : w.Matching src st answered rest) : w.startRecv.Matching src st answered rest := by
  unfold Worker.startRecv
  split
  · exact h
  · rename_i current hs
    obtain rfl : current = src := by
      rcases h.current with hn | ⟨hn,_⟩ <;> simp_all
    split
    · exact h
    · rename_i hidle
      obtain ⟨ha,hf⟩ := not_or.mp hidle
      refine ⟨h.source,h.sent,h.current,?_⟩
      cases h.recv with
      | idle r c n => exact .waiting (by simp [r]) c n hf (.inr rfl)
      | waiting _ _ _ _ a | sending _ _ _ _ _ a | ready _ _ _ _ _ a => simp [hs, ha] at a

/-- How the streams look after an attempt to send a batch. -/
inductive Reached (ss : List Stream) (batch : List Task) : List Stream → Prop where
  | unsent : Reached ss batch ss
  | opened : Reached ss batch (ss ++ [.empty])
  | fresh : Reached ss batch (ss ++ [Pipeline.empty.send batch])
  | current {i : Nat} {st : Stream} (hst : ss[i]? = some st) : Reached ss batch (ss.set i (st.send batch))

private theorem Reached.grows {ss ss' : List Stream} {batch : List Task} (h : Reached ss batch ss') :
    Pipeline.Grows ss ss' := by
  cases h with
  | unsent => exact .refl ss
  | opened | fresh => exact Pipeline.grows_append ss _
  | current hst => exact Pipeline.grows_set hst (Pipeline.extends_send _ batch)

private theorem Reached.source {ss ss' : List Stream} {batch : List Task} (h : Reached ss batch ss')
    {src : Nat} {st : Stream} (hs : ss[src]? = some st) :
    ∃ extra, ss'[src]? = some { st with sent := st.sent ++ extra } := by
  obtain ⟨hlt,_⟩ := List.getElem?_eq_some_iff.mp hs
  cases h with
  | unsent => exact ⟨[],by simpa using hs⟩
  | opened | fresh => exact ⟨[],by rw [List.getElem?_append_left hlt]; simpa using hs⟩
  | @current i st' hst =>
    by_cases hi : i = src
    · subst hi
      obtain rfl : st = st' := Option.some.inj (hs.symm.trans hst)
      exact ⟨[batch],List.getElem?_set_self hlt⟩
    · exact ⟨[],by rw [List.getElem?_set_ne hi]; simpa using hs⟩

/-- Everything a flush can do. -/
inductive Flushed (w : Worker) (net : Net) : Worker → Prop where
  | empty (hp : w.pending = []) : Flushed w net w
  | failed (e : Err) {ss : List Stream} (hp : w.pending ≠ []) (hr : Reached w.streams w.pending ss) :
      Flushed w net { w with
        pending := [], streams := ss, stream := none, recvActive := false,
        completed := w.completed ++ w.pending.map (fun t => (t.done,some e)) }
  | sent {i : Nat} {st : Stream} (hp : w.pending ≠ []) (hs : w.stream = some i) (hst : w.streams[i]? = some st) :
      Flushed w net (startRecv { w with
        pending := [], streams := w.streams.set i (st.send w.pending), inFlight := w.inFlight ++ [w.pending] })
  | sentFresh (hp : w.pending ≠ []) (hs : w.stream = none) (ho : net.openErr = none) (hn : net.sendErr = none) :
      Flushed w net (startRecv { w with
        pending := [], streams := w.streams ++ [Pipeline.empty.send w.pending], stream := some w.streams.length,
        recvActive := false, inFlight := w.inFlight ++ [w.pending] })

theorem flush_flushed (w : Worker) (net : Net) (hv : ∀ i, w.stream = some i → ∃ st, w.streams[i]? = some st) :
    Flushed w net (w.flush net) := by
  by_cases hp : w.pending = []
  · simpa [flush, hp] using Flushed.empty hp
  cases hs : w.stream with
  | some i =>
    obtain ⟨st,hst⟩ := hv i hs
    cases hn : net.sendErr with
    | none => simpa [flush, sendBatch, openStream, deliver, hp, hs, hst, hn] using Flushed.sent hp hs hst
    | some e =>
      cases hd : net.delivered with
      | false =>
        simpa [flush, sendBatch, openStream, closeStream, failTasks, hp, hs, hn, hd] using
          Flushed.failed e hp .unsent
      | true =>
        simpa [flush, sendBatch, openStream, deliver, closeStream, failTasks, hp, hs, hst, hn, hd] using
          Flushed.failed e hp (.current hst)
  | none =>
    cases ho : net.openErr with
    | some e =>
      simpa [flush, sendBatch, openStream, closeStream, failTasks, hp, hs, ho] using
        Flushed.failed e hp .unsent
    | none =>
      cases hn : net.sendErr with
      | none =>
        simpa [flush, sendBatch, openStream, deliver, hp, hs, ho, hn] using Flushed.sentFresh hp hs ho hn
      | some e =>
        cases hd : net.delivered with
        | false =>
          simpa [flush, sendBatch, openStream, closeStream, failTasks, hp, hs, ho, hn, hd] using
            Flushed.failed e hp .opened
        | true =>
          simpa [flush, sendBatch, openStream, deliver, closeStream, failTasks, hp, hs, ho, hn, hd] using
            Flushed.failed e hp .fresh

private theorem Ordered.valid {w : Worker} (h : w.Ordered) : ∀ i, w.stream = some i → ∃ st, w.streams[i]? = some st := by
  intro i hi
  rcases h with ⟨hs,_⟩ | ⟨src,st,_,_,hm⟩
  · simp [hs] at hi
  · rcases hm.current with hs | ⟨hs,_⟩
    · simp [hs] at hi
    · obtain rfl : i = src := Option.some.inj (hi.symm.trans hs)
      exact ⟨st,hm.source⟩

private theorem Flushed.ordered {w w' : Worker} {net : Net} (hf : Flushed w net w') (h : w.Ordered)
    (hd : w.pending ≠ [] → w.stream = none → net.openErr = none → net.sendErr = none → w.inFlight = []) :
    w'.Ordered := by
  cases hf with
  | empty _ => exact h
  | failed e _ hr =>
    rcases h with ⟨_,hq⟩ | ⟨src,st,answered,rest,hm⟩
    · exact .inl ⟨rfl,hq⟩
    · obtain ⟨extra,hs⟩ := hr.source hm.source
      refine .inr ⟨src,_,answered,rest ++ extra,hs,by simp [hm.sent],.inl rfl,?_⟩
      exact hm.recv.frame rfl rfl id (fun _ => .inl rfl) ⟨List.prefix_append _ _,List.prefix_rfl⟩ rfl
  | @sent i st _ hs hst =>
    rcases h with ⟨hn,_⟩ | ⟨src,st',answered,rest,hm⟩
    · simp [hn] at hs
    · rcases hm.current with hn | ⟨hi,hrest⟩
      · simp [hn] at hs
      obtain rfl : i = src := Option.some.inj (hs.symm.trans hi)
      obtain rfl : st = st' := Option.some.inj (hst.symm.trans hm.source)
      obtain ⟨hlt,_⟩ := List.getElem?_eq_some_iff.mp hst
      refine .inr ⟨i,st.send w.pending,answered,[],Matching.startRecv ⟨?_,?_,.inr ⟨hs,rfl⟩,?_⟩⟩
      · exact List.getElem?_set_self hlt
      · simp [Pipeline.send, hm.sent, hrest]
      · exact hm.recv.frame rfl rfl (fun _ => by simp) id (Pipeline.extends_send _ _) rfl
  | sentFresh hp hs ho hn =>
    have hempty := hd hp hs ho hn
    obtain ⟨hr,hc⟩ := h.idle hempty
    refine .inr ⟨w.streams.length,Pipeline.empty.send w.pending,[],[],Matching.startRecv ⟨?_,?_,.inr ⟨rfl,rfl⟩,?_⟩⟩
    · simp
    · simp [Pipeline.send, Pipeline.empty, hempty]
    · exact .idle hr hc rfl

/-- A result to be taken is the answer to the first batch in flight. -/
private theorem Ordered.ready {w : Worker} (h : w.Ordered) {res : AckResult} (hc : w.recvCh = some res) :
    ∃ src st answered rest batch inFlight, w.Matching src st answered rest ∧ w.inFlight = batch::inFlight ∧
      w.recvs = [] ∧ Answers st answered.length res := by
  rcases h with ⟨_,_,_,hn⟩ | ⟨src,st,answered,rest,hm⟩
  · simp [hn] at hc
  · cases hm.recv with
    | idle _ hn _ | waiting _ hn _ _ _ | sending _ _ hn _ _ _ => simp [hn] at hc
    | ready res' hr hn ha hf _ =>
      obtain rfl : res' = res := Option.some.inj (hn.symm.trans hc)
      obtain ⟨batch,inFlight,hb⟩ := List.exists_cons_of_ne_nil hf
      exact ⟨src,st,answered,rest,batch,inFlight,hm,hb,hr,ha⟩

theorem takeResult_err {w : Worker} {batch : List Task} {inFlight : List (List Task)}
    (hb : w.inFlight = batch::inFlight) (e : Err) :
    ∃ err, w.takeResult (.err e) = { w with
      recvCh := none, recvActive := false, stream := none, pending := [], inFlight := [],
      completed := w.completed ++ (batch ++ w.pending ++ inFlight.flatten).map (fun t => (t.done,some err)) } :=
  ⟨_,by simp [takeResult, hb, closeStream, failTasks]; rfl⟩

theorem takeResult_ack {w : Worker} {batch : List Task} {inFlight : List (List Task)}
    (hb : w.inFlight = batch::inFlight) (a : Ack) :
    w.takeResult (.ack a) = startRecv { w with
      recvCh := none, recvActive := false, inFlight := inFlight,
      completed := w.completed ++ batch.map (fun t => (t.done,ackError w.nodeID a)) } := by
  simp [takeResult, hb, failTasks]

private theorem Acknowledged.mono {w w' : Worker} {d : Nat} (h : w.Acknowledged d)
    (hg : Pipeline.Grows w.streams w'.streams) : w'.Acknowledged d := by
  obtain ⟨st,hst,p,hp,hd,he⟩ := h
  obtain ⟨i,hi⟩ := List.mem_iff_getElem?.mp hst
  obtain ⟨st',hi',hx⟩ := hg i st hi
  exact ⟨st',List.mem_of_getElem? hi',p,hx.pairs_subset hp,hd,he⟩

/-- Only an acknowledgement without error for exactly their batch completes tasks without error. -/
def Sound (w : Worker) : Prop := ∀ d, (d,none) ∈ w.completed → w.Acknowledged d

private theorem Sound.failing {w w' : Worker} (h : w.Sound) (hg : Pipeline.Grows w.streams w'.streams)
    {tasks : List Task} {err : Err} (hc : w'.completed = w.completed ++ tasks.map (fun t => (t.done,some err))) :
    w'.Sound := by
  intro d hd
  rw [hc] at hd
  exact (h d (by simpa using hd)).mono hg

private theorem Sound.frame {w w' : Worker} (h : w.Sound) (hg : Pipeline.Grows w.streams w'.streams)
    (hc : w'.completed = w.completed) : w'.Sound := by
  intro d hd
  rw [hc] at hd
  exact (h d hd).mono hg

/-- Starting a Recv touches nothing else. -/
theorem startRecv_frame (w : Worker) :
    ∃ active recvs, w.startRecv = { w with recvActive := active, recvs := recvs } := by
  unfold startRecv
  split
  · exact ⟨_,_,rfl⟩
  · split <;> exact ⟨_,_,rfl⟩

/-- Everything that taking a result can do: nothing was in flight, the stream has failed, or the
first batch in flight was answered. -/
inductive Took (w : Worker) : Worker → Prop where
  | stray (hb : w.inFlight = []) : Took w { w with recvCh := none, stream := none, recvActive := false }
  | failed {batch : List Task} {inFlight : List (List Task)} (err : Err) (hb : w.inFlight = batch::inFlight) : Took w { w with
      recvCh := none, recvActive := false, stream := none, pending := [], inFlight := [],
      completed := w.completed ++ (batch ++ w.pending ++ inFlight.flatten).map (fun t => (t.done,some err)) }
  | answered {batch : List Task} {inFlight : List (List Task)} (err : Option Err) (active : Bool) (recvs : List Recv)
      (hb : w.inFlight = batch::inFlight) : Took w { w with
      recvCh := none, recvActive := active, recvs := recvs, inFlight := inFlight,
      completed := w.completed ++ batch.map (fun t => (t.done,err)) }

theorem takeResult_took (w : Worker) (res : AckResult) : Took w (w.takeResult res) := by
  cases hb : w.inFlight with
  | nil =>
    have he : w.takeResult res = { w with recvCh := none, stream := none, recvActive := false } := by
      simp [takeResult, hb, closeStream]
    rw [he]
    exact .stray hb
  | cons batch inFlight =>
    cases res with
    | err e =>
      obtain ⟨err,he⟩ := takeResult_err hb e
      rw [he]
      exact .failed err hb
    | ack a =>
      obtain ⟨active,recvs,he⟩ := startRecv_frame _
      rw [takeResult_ack hb a, he]
      exact .answered _ active recvs hb

private theorem Sound.startRecv {w : Worker} (h : w.Sound) : w.startRecv.Sound := by
  obtain ⟨active,recvs,he⟩ := startRecv_frame w
  rw [he]
  exact h

private theorem Flushed.sound {w w' : Worker} {net : Net} (hf : Flushed w net w') (h : w.Sound) : w'.Sound := by
  cases hf with
  | empty _ => exact h
  | failed e _ hr => exact h.failing hr.grows rfl
  | sent _ _ hst => exact Sound.startRecv (h.frame (Pipeline.grows_set hst (Pipeline.extends_send _ _)) rfl)
  | sentFresh _ _ _ _ => exact Sound.startRecv (h.frame (Pipeline.grows_append _ _) rfl)

/-- The n-th answer of the stream completes the n-th batch sent over it. -/
private theorem takeResult_sound {w : Worker} {res : AckResult} (ho : w.Ordered) (h : w.Sound)
    (hc : w.recvCh = some res) : (w.takeResult res).Ordered ∧ (w.takeResult res).Sound := by
  obtain ⟨src,st,answered,rest,batch,inFlight,hm,hb,hr,ha⟩ := ho.ready hc
  cases res with
  | err e =>
    obtain ⟨err,he⟩ := takeResult_err hb e
    rw [he]
    exact ⟨.inl ⟨rfl,rfl,hr,rfl⟩,h.failing (.refl _) rfl⟩
  | ack a =>
    rw [takeResult_ack hb a]
    have hsent : st.sent = (answered ++ [batch]) ++ inFlight ++ rest := by simp [hm.sent, hb]
    constructor
    · refine .inr ⟨src,st,answered ++ [batch],rest,Matching.startRecv ⟨hm.source,hsent,hm.current,?_⟩⟩
      exact .idle hr rfl (by simpa using ha.1)
    · apply Sound.startRecv
      intro d hd
      rcases List.mem_append.mp hd with hd | hd
      · exact h d hd
      · obtain ⟨t,ht,heq⟩ := List.mem_map.mp hd
        obtain ⟨rfl,herr⟩ := Prod.mk.inj heq
        have hnth : st.sent[answered.length]? = some batch := by simp [hsent]
        exact ⟨st,List.mem_of_getElem? hm.source,(batch,a),Pipeline.mem_pairs hnth ha.2,List.mem_map_of_mem ht,
          by simpa [ackError] using herr⟩

private theorem count_flatMap_set {α : Type} (f : α → List Nat) (d : Nat) {xs : List α} {i : Nat} {x y : α}
    (hx : xs[i]? = some x) :
    ((xs.set i y).flatMap f).count d + (f x).count d = (xs.flatMap f).count d + (f y).count d := by
  induction xs generalizing i with
  | nil => simp at hx
  | cons z xs ih =>
    cases i with
    | zero =>
      obtain rfl : z = x := by simpa using hx
      simp only [List.set_cons_zero, List.flatMap_cons, List.count_append]
      omega
    | succ i =>
      have := ih (by simpa using hx)
      simp only [List.set_cons_succ, List.flatMap_cons, List.count_append]
      omega

/-- Every task goes over a stream at most once, and not while it is still waiting. -/
def SentOnce (w : Worker) : Prop :=
  ∀ d, w.sentIDs.count d + (w.pending.map Task.done).count d + (w.enqueue.map Task.done).count d ≤
    if d < w.nextDone then 1 else 0

private theorem Reached.count {ss ss' : List Stream} {batch : List Task} (h : Reached ss batch ss') (d : Nat) :
    (ss'.flatMap (fun st => st.sent.flatten.map Task.done)).count d ≤
      (ss.flatMap (fun st => st.sent.flatten.map Task.done)).count d + (batch.map Task.done).count d := by
  cases h with
  | unsent => omega
  | opened => simp [Pipeline.empty]
  | fresh => simp [Pipeline.empty, Pipeline.send]
  | @current i st hst =>
    have := count_flatMap_set (fun st : Stream => st.sent.flatten.map Task.done) d (y := st.send batch) hst
    simp only [Pipeline.send, List.flatten_append, List.flatten_singleton, List.map_append, List.count_append] at this ⊢
    omega

private theorem SentOnce.reached {w w' : Worker} (h : w.SentOnce) (hr : Reached w.streams w.pending w'.streams)
    (hp : w'.pending = []) (he : w'.enqueue = w.enqueue) (hn : w'.nextDone = w.nextDone) : w'.SentOnce := by
  intro d
  have hd := h d
  have := hr.count d
  rw [hp, he, hn]
  simp only [sentIDs, List.map_nil, List.count_nil] at hd ⊢
  omega

private theorem SentOnce.frame {w w' : Worker} (h : w.SentOnce) (hs : w'.sentIDs = w.sentIDs)
    (hp : w'.pending = [] ∨ w'.pending = w.pending) (he : w'.enqueue = w.enqueue)
    (hn : w'.nextDone = w.nextDone) : w'.SentOnce := by
  intro d
  have hd := h d
  rw [hs, he, hn]
  rcases hp with hp | hp <;> rw [hp]
  · simp only [List.map_nil, List.count_nil]
    omega
  · exact hd

private theorem SentOnce.startRecv {w : Worker} (h : w.SentOnce) : w.startRecv.SentOnce := by
  obtain ⟨active,recvs,he⟩ := startRecv_frame w
  rw [he]
  exact h

private theorem Flushed.sentOnce {w w' : Worker} {net : Net} (hf : Flushed w net w') (h : w.SentOnce) : w'.SentOnce := by
  cases hf with
  | empty _ => exact h
  | failed e _ hr => exact h.reached hr rfl rfl rfl
  | sent _ _ hst => exact SentOnce.startRecv (h.reached (.current hst) rfl rfl rfl)
  | sentFresh _ _ _ _ => exact SentOnce.startRecv (h.reached .fresh rfl rfl rfl)

private theorem takeResult_sentOnce {w : Worker} {res : AckResult} (ho : w.Ordered) (h : w.SentOnce)
    (hc : w.recvCh = some res) : (w.takeResult res).SentOnce := by
  obtain ⟨_,_,_,_,batch,inFlight,_,hb,_,_⟩ := ho.ready hc
  cases res with
  | err e =>
    obtain ⟨err,he⟩ := takeResult_err hb e
    rw [he]
    exact h.frame rfl (.inl rfl) rfl rfl
  | ack a =>
    rw [takeResult_ack hb a]
    exact SentOnce.startRecv (h.frame rfl (.inr rfl) rfl rfl)

/-- What holds between the steps of the worker, its goroutines and the remote. -/
structure Inv (w : Worker) : Prop where
  ordered : w.returned = false → w.Ordered
  sound : w.Sound
  sentOnce : w.SentOnce

theorem init_inv (nodeID : String) : Inv (init nodeID) where
  ordered _ := .inl ⟨rfl,rfl,rfl,rfl⟩
  sound d hd := by simp [init] at hd
  sentOnce d := by simp [init, sentIDs]

private theorem flush_inv {w : Worker} {net : Net} (h : Inv w) (hn : w.returned = false)
    (hd : w.pending ≠ [] → w.stream = none → net.openErr = none → net.sendErr = none → w.inFlight = []) :
    Inv (w.flush net) :=
  have ho := h.ordered hn
  have hf := flush_flushed w net ho.valid
  ⟨fun _ => hf.ordered ho hd,hf.sound h.sound,hf.sentOnce h.sentOnce⟩

private theorem takeTask_inv {w : Worker} {t : Task} {ts : List Task} (h : Inv w) (he : w.enqueue = t::ts) :
    Inv { w with enqueue := ts, pending := w.pending ++ [t] } where
  ordered hn := by
    rcases h.ordered hn with hq | ⟨src,st,answered,rest,hm⟩
    · exact .inl hq
    · refine .inr ⟨src,st,answered,rest,hm.source,hm.sent,hm.current,?_⟩
      exact hm.recv.frame rfl rfl id id (.refl st) rfl
  sound := h.sound.frame (.refl _) rfl
  sentOnce d := by
    have hd := h.sentOnce d
    simp only [he, sentIDs, List.map_cons, List.map_append, List.map_nil, List.count_append, List.count_cons,
      List.count_nil] at hd ⊢
    omega

private theorem SentOnce.setStream {w w' : Worker} (h : w.SentOnce) {i : Nat} {st st' : Stream}
    (hst : w.streams[i]? = some st) (hs : st'.sent = st.sent) (hw : w'.streams = w.streams.set i st')
    (hp : w'.pending = w.pending) (he : w'.enqueue = w.enqueue) (hn : w'.nextDone = w.nextDone) : w'.SentOnce := by
  intro d
  have hd := h d
  have hc := count_flatMap_set (fun st : Stream => st.sent.flatten.map Task.done) d (y := st') hst
  rw [hp, he, hn]
  simp only [sentIDs, hw, hs] at hd hc ⊢
  omega

/-- Streams other than through sending only change at the remote end or in Recv. -/
private theorem setStream_inv {w : Worker} {i : Nat} {st st' : Stream} (h : Inv w) (hst : w.streams[i]? = some st)
    (hs : st'.sent = st.sent) (hx : st.Extends st') (hr : st'.received = st.received) :
    Inv { w with streams := w.streams.set i st' } where
  ordered hn := by
    obtain ⟨hlt,_⟩ := List.getElem?_eq_some_iff.mp hst
    rcases h.ordered hn with hq | ⟨src,st₀,answered,rest,hm⟩
    · exact .inl hq
    · by_cases hi : i = src
      · subst hi
        obtain rfl : st = st₀ := Option.some.inj (hst.symm.trans hm.source)
        exact .inr ⟨i,st',answered,rest,List.getElem?_set_self hlt,hs.trans hm.sent,hm.current,
          hm.recv.frame rfl rfl id id hx hr⟩
      · exact .inr ⟨src,st₀,answered,rest,(List.getElem?_set_ne hi).trans hm.source,hm.sent,hm.current,
          hm.recv.frame rfl rfl id id (.refl st₀) rfl⟩
  sound := h.sound.frame (Pipeline.grows_set hst hx) rfl
  sentOnce := h.sentOnce.setStream hst hs rfl rfl rfl rfl

private theorem remoteAck_some {st st' : Stream} {error : String} (h : remoteAck st error = some st') :
    ∃ a, st' = st.answer a := by
  simp only [remoteAck, Option.bind_eq_bind, Option.bind_eq_some_iff, Option.ite_none_right_eq_some,
    Option.some.injEq] at h
  obtain ⟨batch,_,_,rfl⟩ := h
  exact ⟨_,rfl⟩

/-- The only Recv that can return is the one for the batches in flight. -/
private theorem Ordered.waiting {w : Worker} (h : w.Ordered) {g i : Nat} (hg : w.recvs[g]? = some (.waiting i)) :
    g = 0 ∧ w.recvs = [.waiting i] ∧ w.recvCh = none ∧ w.inFlight ≠ [] ∧ (w.stream = none ∨ w.recvActive = true) ∧
      ∃ st answered rest, w.Matching i st answered rest ∧ st.received = answered.length := by
  rcases h with ⟨_,_,hr,_⟩ | ⟨src,st,answered,rest,hm⟩
  · simp [hr] at hg
  · cases hm.recv with
    | idle hr _ _ | ready _ hr _ _ _ _ => simp [hr] at hg
    | sending res hr _ _ _ _ => simp [hr, List.getElem?_singleton] at hg
    | waiting hr hc hn hf ha =>
      simp only [hr, List.getElem?_singleton, Option.ite_none_right_eq_some, Option.some.injEq,
        Recv.waiting.injEq] at hg
      obtain ⟨rfl,rfl⟩ := hg
      exact ⟨rfl,hr,hc,hf,ha,st,answered,rest,hm,hn⟩

private theorem recvFails_inv {w : Worker} {g i : Nat} (h : Inv w) (hg : w.recvs[g]? = some (.waiting i)) (e : Err) :
    Inv { w with recvs := w.recvs.set g (.sending (.err e)) } := by
  refine ⟨fun hn => ?_,h.sound.frame (.refl _) rfl,h.sentOnce.frame rfl (.inr rfl) rfl rfl⟩
  obtain ⟨rfl,hr,hc,hf,ha,st,answered,rest,hm,hrec⟩ := (h.ordered hn).waiting hg
  exact .inr ⟨i,st,answered,rest,hm.source,hm.sent,hm.current,.sending (.err e) (by simp [hr]) hc hrec hf ha⟩

private theorem recvReturns_inv {w : Worker} {g i : Nat} {st : Stream} {a : Ack} (h : Inv w)
    (hg : w.recvs[g]? = some (.waiting i)) (hst : w.streams[i]? = some st) (ha : st.answers[st.received]? = some a) :
    Inv { w with
      recvs := w.recvs.set g (.sending (.ack a)), streams := w.streams.set i { st with received := st.received+1 } } := by
  have hx : st.Extends { st with received := st.received+1 } := ⟨List.prefix_rfl,List.prefix_rfl⟩
  have hsent : ({ st with received := st.received+1 } : Stream).sent = st.sent := rfl
  obtain ⟨hlt,_⟩ := List.getElem?_eq_some_iff.mp hst
  refine ⟨fun hn => ?_,h.sound.frame (Pipeline.grows_set hst hx) rfl,h.sentOnce.setStream hst hsent rfl rfl rfl rfl⟩
  obtain ⟨rfl,hr,hc,hf,hact,st₀,answered,rest,hm,hrec⟩ := (h.ordered hn).waiting hg
  obtain rfl : st = st₀ := Option.some.inj (hst.symm.trans hm.source)
  refine .inr ⟨i,_,answered,rest,List.getElem?_set_self hlt,hm.sent,hm.current,?_⟩
  exact .sending (.ack a) (by simp [hr]) hc ⟨by simp [hrec],hrec ▸ ha⟩ hf hact

private theorem recvSends_inv {w : Worker} {g : Nat} {res : AckResult} (h : Inv w)
    (hg : w.recvs[g]? = some (.sending res)) : Inv { w with recvs := w.recvs.eraseIdx g, recvCh := some res } where
  ordered hn := by
    rcases h.ordered hn with ⟨_,_,hr,_⟩ | ⟨src,st,answered,rest,hm⟩
    · simp [hr] at hg
    · cases hm.recv with
      | idle hr _ _ | ready _ hr _ _ _ _ => simp [hr] at hg
      | waiting hr _ _ _ _ => simp [hr, List.getElem?_singleton] at hg
      | sending res' hr hc hres hf ha =>
        simp only [hr, List.getElem?_singleton, Option.ite_none_right_eq_some, Option.some.injEq,
          Recv.sending.injEq] at hg
        obtain ⟨rfl,rfl⟩ := hg
        exact .inr ⟨src,st,answered,rest,hm.source,hm.sent,hm.current,.ready res' (by simp [hr]) rfl hres hf ha⟩
  sound := h.sound.frame (.refl _) rfl
  sentOnce := h.sentOnce.frame rfl (.inr rfl) rfl rfl

private theorem takeStop_inv {w : Worker} (h : Inv w) : Inv w.takeStop where
  ordered hn := by simp [takeStop] at hn
  sound := by
    simp only [takeStop, failAll_eq]
    exact h.sound.failing (.refl _) rfl
  sentOnce := by
    simp only [takeStop, failAll_eq]
    exact h.sentOnce.frame rfl (.inl rfl) rfl rfl

private theorem submit_inv {w : Worker} {req : ReplicationRequest} (h : Inv w) :
    Inv { w with enqueue := w.enqueue ++ [⟨req,w.nextDone⟩], nextDone := w.nextDone+1 } where
  ordered hn := by
    rcases h.ordered hn with hq | ⟨src,st,answered,rest,hm⟩
    · exact .inl hq
    · refine .inr ⟨src,st,answered,rest,hm.source,hm.sent,hm.current,?_⟩
      exact hm.recv.frame rfl rfl id id (.refl st) rfl
  sound := h.sound.frame (.refl _) rfl
  sentOnce d := by
    have hd := h.sentOnce d
    simp only [sentIDs, List.map_append, List.map_cons, List.map_nil, List.count_append, List.count_singleton] at hd ⊢
    by_cases hdn : w.nextDone = d
    · simp [hdn] at hd ⊢
      omega
    · simp only [beq_iff_eq, hdn, if_false]
      split_ifs at hd ⊢ <;> omega

private theorem stop_inv {w : Worker} (h : Inv w) : Inv { w with stopped := true } := by
  refine ⟨fun hn => ?_,h.sound.frame (.refl _) rfl,h.sentOnce.frame rfl (.inr rfl) rfl rfl⟩
  rcases h.ordered hn with hq | ⟨src,st,answered,rest,hm⟩
  · exact .inl hq
  · exact .inr ⟨src,st,answered,rest,hm.source,hm.sent,hm.current,hm.recv.frame rfl rfl id id (.refl st) rfl⟩

/-- Every step keeps the matching, as long as new streams start drained. -/
theorem step_inv {w w' : Worker} {e : Event} (h : Inv w) (hd : Drained w e) (hs : w.step e = some w') : Inv w' := by
  cases step_fires hs with
  | submit => exact submit_inv h
  | collect _ _ he => exact takeTask_inv h he
  | fill net hn he hfull => exact flush_inv (takeTask_inv h he) hn (fun _ => hd net (by simp [flushes, hfull]))
  | tick net hn => exact flush_inv h hn (fun hp => hd net (by simp [flushes, hp]))
  | takeResult hn hc =>
    have ho := h.ordered hn
    obtain ⟨ho',hs'⟩ := takeResult_sound ho h.sound hc
    exact ⟨fun _ => ho',hs',takeResult_sentOnce ho h.sentOnce hc⟩
  | stop => exact stop_inv h
  | takeStop => exact takeStop_inv h
  | @remoteAck _ _ st _ hst hack =>
    obtain ⟨a,rfl⟩ := remoteAck_some hack
    exact setStream_inv h hst rfl (Pipeline.extends_answer st a) rfl
  | recvFails e hg => exact recvFails_inv h hg e
  | recvReturns hg hst ha => exact recvReturns_inv h hg hst ha
  | recvSends hg => exact recvSends_inv h hg

/-- No task is acknowledged falsely: when every new stream starts with nothing in
flight, a task completes without error only if the remote acknowledged, without
error, the one batch with this task on the one stream it went over. -/
theorem completes_only_acknowledged (nodeID : String) (es : List Event) (w : Worker)
    (hd : Machine.Meets step Drained (init nodeID) es) (hr : Machine.run step (init nodeID) es = some w) (d : Nat)
    (hc : (d,none) ∈ w.completed) : w.Acknowledged d ∧ w.sentIDs.count d = 1 := by
  have h : Inv w := Machine.run_invariant_of_meets (fun _ _ _ hi hg hs => step_inv hi hg hs) (init_inv nodeID) hd hr
  have hack := h.sound d hc
  refine ⟨hack,?_⟩
  have hle : w.sentIDs.count d ≤ 1 := by
    have honce := h.sentOnce d
    split_ifs at honce <;> omega
  have hpos : 0 < w.sentIDs.count d := by
    obtain ⟨st,hst,p,hp,hdone,_⟩ := hack
    have hbatch : p.1 ∈ st.sent := (List.of_mem_zip hp).1
    obtain ⟨t,ht,rfl⟩ := List.mem_map.mp hdone
    exact List.count_pos_iff.mpr
      (List.mem_flatMap.mpr ⟨st,hst,List.mem_map_of_mem (List.mem_flatten.mpr ⟨p.1,hbatch,ht⟩)⟩)
  omega

def sampleReq : ReplicationRequest := ⟨.put,.singleton 107,.singleton 118,7,1⟩

/-- One task is sent, acknowledged and completed. -/
def acknowledgedRun : List Event :=
  [.submit sampleReq,.takeTask ⟨none,none,false⟩,.tick ⟨none,none,false⟩,.remoteAck 0 "",.recvReturns 0 none,
   .recvSends 0,.takeResult]

theorem completes_only_acknowledged_sample :
    ∃ w, Machine.run step (init "node-1") acknowledgedRun = some w ∧ (0,none) ∈ w.completed ∧
      w.Acknowledged 0 ∧ w.sentIDs.count 0 = 1 := by
  refine ⟨_,rfl,by decide,?_⟩
  exact completes_only_acknowledged "node-1" acknowledgedRun _ (by decide) rfl 0 (by decide)

/-- The first batch is unanswered when the Send of the second fails and the third
goes over a new stream, where it alone is acknowledged. -/
def misattributedRun : List Event :=
  [.submit sampleReq,.takeTask ⟨none,none,false⟩,.tick ⟨none,none,false⟩,
   .submit sampleReq,.takeTask ⟨none,none,false⟩,.tick ⟨none,some "transport is closing",false⟩,
   .submit sampleReq,.takeTask ⟨none,none,false⟩,.tick ⟨none,none,false⟩,
   .remoteAck 1 "",.recvReturns 1 none,.recvSends 1,.takeResult]

theorem completes_unacknowledged :
    ∃ w, Machine.run step (init "node-1") misattributedRun = some w ∧ (0,none) ∈ w.completed ∧
      ¬ w.Acknowledged 0 := by
  refine ⟨_,rfl,?_,?_⟩ <;> decide

end Worker
end Nawst.Cluster.BatchWorker
