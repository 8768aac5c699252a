import Nawst.Cluster.BatchAccount

/-! The order in which a replication worker sends its tasks. Whatever fails on the way, the
tasks that reach the remote do so in the order in which they were accepted, none twice. -/
namespace Nawst.Cluster.BatchWorker.Worker
open Lib Nawst.Core

/-- The tasks that went over a stream. -/
def sentTasks (ss : List Stream) : List Task := ss.flatMap (fun st => st.sent.flatten)

/-- The tasks in the order of their acceptance: those sent, those of the batch that is being
collected, and those in the queue. -/
def line (w : Worker) : List Task := sentTasks w.streams ++ w.pending ++ w.enqueue

def Event.submitted : Event → Option ReplicationRequest
  | .submit req => some req
  | _ => none

/-- The tasks that the events have brought, with their numbers. -/
def accepted (es : List Event) : List Task := (es.filterMap Event.submitted).zipIdx.map (fun p => ⟨p.1,p.2⟩)

/-- How the streams look after a flush: only the newest may have got the batch. -/
inductive Tail (ss : List Stream) (batch : List Task) : List Stream → Prop where
  | unsent : Tail ss batch ss
  | opened : Tail ss batch (ss ++ [.empty])
  | fresh : Tail ss batch (ss ++ [Pipeline.empty.send batch])
  | newest {front : List Stream} {st : Stream} (hss : ss = front ++ [st]) : Tail ss batch (front ++ [st.send batch])

theorem Tail.sentTasks {ss ss' : List Stream} {batch : List Task} (h : Tail ss batch ss') :
    sentTasks ss' = sentTasks ss ∨ sentTasks ss' = sentTasks ss ++ batch := by
  cases h with
  | unsent => exact .inl rfl
  | opened => exact .inl (by simp [Worker.sentTasks, Pipeline.empty])
  | fresh => exact .inr (by simp [Worker.sentTasks, Pipeline.empty, Pipeline.send])
  | newest hss => exact .inr (by simp [hss, Worker.sentTasks, Pipeline.send])

theorem Tail.batches {ss ss' : List Stream} {batch : List Task} (h : Tail ss batch ss') {P : List Task → Prop}
    (hss : ∀ st ∈ ss, ∀ b ∈ st.sent, P b) (hb : P batch) : ∀ st ∈ ss', ∀ b ∈ st.sent, P b := by
  cases h with
  | unsent => exact hss
  | opened => exact Machine.forall_mem_concat hss (by simp [Pipeline.empty])
  | fresh => exact Machine.forall_mem_concat hss (by simpa [Pipeline.empty, Pipeline.send] using hb)
  | @newest front st hs =>
    rw [hs, List.forall_mem_append, List.forall_mem_singleton] at hss
    exact Machine.forall_mem_concat hss.1 (Machine.forall_mem_concat hss.2 hb)

/-- Streams that the worker alone has gone on with: the remote has not answered anything. -/
structure Fed (ss ss' : List Stream) : Prop where
  kept : ∀ (i : Nat) (st : Stream), ss[i]? = some st →
    ∃ st' : Stream, ss'[i]? = some st' ∧ st.sent <+: st'.sent ∧ st'.answers = st.answers
  fresh : ∀ (i : Nat) (st' : Stream), ss'[i]? = some st' → ss[i]? = none → st'.answers = []

theorem Fed.refl (ss : List Stream) : Fed ss ss where
  kept _ st hi := ⟨st,hi,List.prefix_rfl,rfl⟩
  fresh _ _ hi hn := nomatch hi.symm.trans hn

private theorem fed_append (ss : List Stream) {st : Stream} (h : st.answers = []) : Fed ss (ss ++ [st]) where
  kept i st' hi := ⟨st',(List.getElem?_append_left (List.getElem?_eq_some_iff.mp hi).1).trans hi,List.prefix_rfl,rfl⟩
  fresh i st' hi hn := by
    rcases Machine.getElem?_concat_cases hi with hi | ⟨_,rfl⟩
    · exact nomatch hi.symm.trans hn
    · exact h

theorem fed_set {ss : List Stream} {i : Nat} {st st' : Stream} (hi : ss[i]? = some st) (hs : st.sent <+: st'.sent)
    (ha : st'.answers = st.answers) : Fed ss (ss.set i st') where
  kept j x hj := by
    by_cases hij : i = j
    · subst hij
      cases hi.symm.trans hj
      exact ⟨st',List.getElem?_set_self (List.getElem?_eq_some_iff.mp hi).1,hs,ha⟩
    · exact ⟨x,(List.getElem?_set_ne hij).trans hj,List.prefix_rfl,rfl⟩
  fresh j x hj hn := by
    rcases Machine.getElem?_set_cases hj with ⟨rfl,rfl⟩ | ⟨_,hj⟩
    · exact nomatch hi.symm.trans hn
    · exact nomatch hj.symm.trans hn

theorem Tail.fed {ss ss' : List Stream} {batch : List Task} (h : Tail ss batch ss') : Fed ss ss' := by
  cases h with
  | unsent => exact .refl ss
  | opened | fresh => exact fed_append ss rfl
  | @newest front st hss =>
    have hlast : ss[front.length]? = some st := by rw [hss, List.getElem?_concat_length]
    have hset : ss.set front.length (st.send batch) = front ++ [st.send batch] := by
      rw [hss, List.set_append_right _ _ (Nat.le_refl _), Nat.sub_self]
      rfl
    rw [← hset]
    exact fed_set hlast (List.prefix_append _ _) rfl

/-- The current stream is the newest. -/
def Newest (w : Worker) : Prop := ∀ i, w.stream = some i → i+1 = w.streams.length

private theorem Newest.last {w : Worker} (h : w.Newest) {i : Nat} (hs : w.stream = some i) :
    ∃ front st, w.streams = front ++ [st] ∧ w.streams[i]? = some st ∧ ∀ st', w.streams.set i st' = front ++ [st'] := by
  have hlen := h i hs
  rcases List.eq_nil_or_concat' w.streams with hss | ⟨front,st,hss⟩
  · rw [hss] at hlen
    cases hlen
  · obtain rfl : i = front.length := by simpa [hss] using hlen
    refine ⟨front,st,hss,by rw [hss, List.getElem?_concat_length],fun st' => ?_⟩
    rw [hss, List.set_append_right _ _ (Nat.le_refl _), Nat.sub_self]
    rfl

/-- What a flush does to the line: the batch goes from its place to the newest stream, or
is lost. -/
structure FlushSpec (w w' : Worker) : Prop where
  streams : Tail w.streams w.pending w'.streams
  pending : w'.pending = []
  enqueue : w'.enqueue = w.enqueue
  nextDone : w'.nextDone = w.nextDone
  newest : w'.Newest

private theorem FlushSpec.startRecv {w w' : Worker} (h : FlushSpec w w') : FlushSpec w w'.startRecv := by
  obtain ⟨active,recvs,he⟩ := startRecv_frame w'
  rw [he]
  exact ⟨h.streams,h.pending,h.enqueue,h.nextDone,h.newest⟩

private theorem FlushSpec.failed {w : Worker} {ss : List Stream} (h : Tail w.streams w.pending ss)
    (completed : List (Nat × Option Err)) : FlushSpec w { w with
      pending := [], streams := ss, stream := none, recvActive := false, completed := completed } :=
  ⟨h,rfl,rfl,rfl,fun i hi => by cases hi⟩

theorem flush_spec {w : Worker} (h : w.Newest) (hp : w.pending ≠ []) (net : Net) : FlushSpec w (w.flush net) := by
  cases hs : w.stream with
  | some i =>
    obtain ⟨front,st,hss,hst,hset⟩ := h.last hs
    have hsent : Tail w.streams w.pending (w.streams.set i (st.send w.pending)) := by
      rw [hset]
      exact .newest hss
    cases hn : net.sendErr with
    | none =>
      have hspec : FlushSpec w { w with
          pending := [], streams := w.streams.set i (st.send w.pending), inFlight := w.inFlight ++ [w.pending] } := by
        refine ⟨hsent,rfl,rfl,rfl,fun j hj => ?_⟩
        rw [List.length_set]
        exact h j hj
      simpa [flush, sendBatch, openStream, deliver, hp, hs, hst, hn] using hspec.startRecv
    | some e =>
      cases hd : net.delivered with
      | false =>
        simpa [flush, sendBatch, openStream, closeStream, failTasks, hp, hs, hn, hd] using FlushSpec.failed .unsent _
      | true =>
        simpa [flush, sendBatch, openStream, deliver, closeStream, failTasks, hp, hs, hst, hn, hd] using
          FlushSpec.failed hsent _
  | none =>
    cases ho : net.openErr with
    | some e =>
      simpa [flush, sendBatch, openStream, closeStream, failTasks, hp, hs, ho] using FlushSpec.failed .unsent _
    | none =>
      cases hn : net.sendErr with
      | none =>
        have hspec : FlushSpec w { w with
            pending := [], streams := w.streams ++ [Pipeline.empty.send w.pending], stream := some w.streams.length
            recvActive := false, inFlight := w.inFlight ++ [w.pending] } := by
          refine ⟨.fresh,rfl,rfl,rfl,fun j hj => ?_⟩
          cases hj
          simp
        simpa [flush, sendBatch, openStream, deliver, hp, hs, ho, hn] using hspec.startRecv
      | some e =>
        cases hd : net.delivered with
        | false =>
          simpa [flush, sendBatch, openStream, closeStream, failTasks, hp, hs, ho, hn, hd] using FlushSpec.failed .opened _
        | true =>
          simpa [flush, sendBatch, openStream, deliver, closeStream, failTasks, hp, hs, ho, hn, hd] using
            FlushSpec.failed .fresh _

/-- What holds of the worker after the events. -/
structure InLine (es : List Event) (w : Worker) : Prop where
  newest : w.Newest
  order : w.line.Sublist (accepted es)
  count : w.nextDone = (es.filterMap Event.submitted).length
  full : w.pending.length ≤ replicationBatchSize
  batches : ∀ st ∈ w.streams, ∀ b ∈ st.sent, b ≠ [] ∧ b.length ≤ replicationBatchSize

/-- Between its steps the worker has room for another task in its batch. -/
def Line (es : List Event) (w : Worker) : Prop := InLine es w ∧ w.pending.length < replicationBatchSize

section Steps
variable {es : List Event} {w : Worker}

theorem init_line (nodeID : String) : Line [] (init nodeID) where
  left := {
    newest := fun i hi => by cases hi
    order := List.Sublist.refl []
    count := rfl
    full := Nat.zero_le _
    batches := by simp [init] }
  right := Nat.zero_lt_succ _

/-- Only the submissions matter. -/
theorem Line.congr {es' : List Event} (h : Line es w)
    (he : es'.filterMap Event.submitted = es.filterMap Event.submitted) : Line es' w := by
  have hacc : accepted es' = accepted es := by rw [accepted, he, accepted]
  exact ⟨⟨h.1.newest,hacc ▸ h.1.order,he ▸ h.1.count,h.1.full,h.1.batches⟩,h.2⟩

/-- Only a submission adds to what is accepted. -/
private theorem submitted_concat (es : List Event) {e : Event} (h : e.submitted = none) :
    (es ++ [e]).filterMap Event.submitted = es.filterMap Event.submitted := by
  simp [h]

private theorem accepted_concat (es : List Event) {e : Event} (h : e.submitted = none) :
    accepted (es ++ [e]) = accepted es := by
  rw [accepted, submitted_concat es h, accepted]

/-- A step that sends nothing: tasks only leave the line. -/
private theorem Line.leave (h : Line es w) {e : Event} (he : e.submitted = none) {w' : Worker} (hnew : w'.Newest)
    (hs : w'.streams = w.streams) (hp : w'.pending = w.pending ∨ w'.pending = []) (hq : w'.enqueue = w.enqueue)
    (hn : w'.nextDone = w.nextDone) : Line (es ++ [e]) w' := by
  have hsub : w'.pending.Sublist w.pending := by
    rcases hp with hp | hp <;> rw [hp]
    exact List.nil_sublist _
  refine ⟨⟨hnew,?_,?_,hsub.length_le.trans h.1.full,hs ▸ h.1.batches⟩,hsub.length_le.trans_lt h.2⟩
  · rw [accepted_concat es he]
    refine List.Sublist.trans ?_ h.1.order
    rw [line, line, hs, hq]
    exact ((List.Sublist.refl _).append hsub).append (List.Sublist.refl _)
  · rw [hn, h.1.count, submitted_concat es he]

private theorem InLine.flush (h : InLine es w) (net : Net) : Line es (w.flush net) := by
  by_cases hp : w.pending = []
  · rw [Worker.flush, if_pos hp]
    exact ⟨h,by simp [hp, replicationBatchSize]⟩
  · have hf := flush_spec h.newest hp net
    refine ⟨⟨hf.newest,List.Sublist.trans ?_ h.order,hf.nextDone.trans h.count,by simp [hf.pending],?_⟩,
      by simp [hf.pending, replicationBatchSize]⟩
    · rw [line, line, hf.pending, hf.enqueue, List.append_nil]
      refine List.Sublist.append ?_ (List.Sublist.refl _)
      rcases hf.streams.sentTasks with hs | hs <;> rw [hs]
      exact List.sublist_append_left _ _
    · exact hf.streams.batches h.batches ⟨hp,h.full⟩

/-- A task goes from the queue to the batch. -/
private theorem InLine.collect (h : InLine es w) {t : Task} {ts : List Task} (he : w.enqueue = t::ts)
    (hroom : w.pending.length < replicationBatchSize) {e : Event} (hsub : e.submitted = none) :
    InLine (es ++ [e]) { w with enqueue := ts, pending := w.pending ++ [t] } where
  newest := h.newest
  order := by
    rw [accepted_concat es hsub]
    have hline := h.order
    rw [line, he] at hline
    simpa [line] using hline
  count := (submitted_concat es hsub).symm ▸ h.count
  full := by
    rw [List.length_append, List.length_singleton]
    exact hroom
  batches := h.batches

private theorem InLine.submit (h : InLine es w) (req : ReplicationRequest) :
    InLine (es ++ [.submit req]) { w with enqueue := w.enqueue ++ [⟨req,w.nextDone⟩], nextDone := w.nextDone+1 } where
  newest := h.newest
  order := by
    have hacc : accepted (es ++ [.submit req]) = accepted es ++ [⟨req,w.nextDone⟩] := by
      simp [accepted, Event.submitted, List.zipIdx_append, h.count]
    have hline : w.line ++ [⟨req,w.nextDone⟩] =
        line { w with enqueue := w.enqueue ++ [⟨req,w.nextDone⟩], nextDone := w.nextDone+1 } := by
      simp [line]
    rw [hacc, ← hline]
    exact h.order.append (List.Sublist.refl _)
  count := by simp [Event.submitted, h.count]
  full := h.full
  batches := h.batches

/-- A stream goes on without sending. -/
private theorem InLine.set_stream (h : InLine es w) {i : Nat} {st st' : Stream} (hst : w.streams[i]? = some st)
    (he : st'.sent = st.sent) {e : Event} (hsub : e.submitted = none) (recvs : List Recv) :
    InLine (es ++ [e]) { w with recvs := recvs, streams := w.streams.set i st' } := by
  obtain ⟨front,back,hss,hset⟩ := Machine.split_of_getElem? hst
  refine ⟨fun j hj => ?_,?_,?_,h.full,?_⟩
  · rw [List.length_set]
    exact h.newest j hj
  · have hline : line { w with recvs := recvs, streams := w.streams.set i st' } = w.line := by
      rw [line, line, hset, hss]
      simp [sentTasks, he]
    rw [accepted_concat es hsub, hline]
    exact h.order
  · rw [submitted_concat es hsub]
    exact h.count
  · exact Machine.forall_mem_set h.batches (he ▸ h.batches st (List.mem_of_getElem? hst))

private theorem Line.took (h : Line es w) {w' : Worker} (ht : Took w w') : Line (es ++ [.takeResult]) w' := by
  cases ht with
  | stray => exact h.leave rfl (fun i hi => by cases hi) rfl (.inl rfl) rfl rfl
  | failed => exact h.leave rfl (fun i hi => by cases hi) rfl (.inr rfl) rfl rfl
  | answered => exact h.leave rfl h.1.newest rfl (.inl rfl) rfl rfl

theorem step_line {w' : Worker} {e : Event} (h : Line es w) (hs : w.step e = some w') : Line (es ++ [e]) w' := by
  cases step_fires hs with
  | submit req _ => exact ⟨h.1.submit req,h.2⟩
  | collect net hn he hlt =>
    refine ⟨h.1.collect he h.2 rfl,?_⟩
    rw [List.length_append, List.length_singleton]
    exact hlt
  | fill net hn he hfull => exact (h.1.collect he h.2 rfl).flush net
  | tick net hn => exact (h.leave rfl h.1.newest rfl (.inl rfl) rfl rfl).1.flush net
  | takeResult hn hc => exact h.took (takeResult_took w _)
  | takeStop hstop hn =>
    rw [takeStop, failAll_eq]
    exact h.leave rfl (fun i hi => by cases hi) rfl (.inr rfl) rfl rfl
  | remoteAck hst hack =>
    simp only [remoteAck, Option.bind_eq_bind, Option.bind_eq_some_iff, Option.ite_none_right_eq_some,
      Option.some.injEq] at hack
    obtain ⟨batch,_,_,rfl⟩ := hack
    exact ⟨InLine.set_stream h.1 hst (by rfl) rfl w.recvs,h.2⟩
  | recvReturns hg hst ha => exact ⟨InLine.set_stream h.1 hst (by rfl) rfl _,h.2⟩
  | stop | recvFails | recvSends => exact h.leave rfl h.1.newest rfl (.inl rfl) rfl rfl

private theorem flush_fed (h : w.Newest) (net : Net) : Fed w.streams (w.flush net).streams := by
  by_cases hp : w.pending = []
  · rw [Worker.flush, if_pos hp]
    exact .refl _
  · exact (flush_spec h hp net).streams.fed

private theorem flush_completed (h : w.Newest) (net : Net) : w.completed <+: (w.flush net).completed := by
  have hvalid : ∀ i, w.stream = some i → ∃ st, w.streams[i]? = some st := by
    intro i hi
    have hlen := h i hi
    exact ⟨_,List.getElem?_eq_getElem (i := i) (by omega)⟩
  have hf := flush_flushed w net hvalid
  generalize w.flush net = w' at hf
  cases hf with
  | empty => exact List.prefix_rfl
  | failed => exact List.prefix_append _ _
  | sent | sentFresh =>
    obtain ⟨active,recvs,he⟩ := startRecv_frame _
    rw [he]

/-- What is completed stays so. -/
theorem step_completed (h : w.Newest) {w' : Worker} {e : Event} (hs : w.step e = some w') :
    w.completed <+: w'.completed := by
  cases step_fires hs with
  | fill net hn hq _ => exact flush_completed (w := { w with enqueue := _, pending := w.pending ++ [_] }) h net
  | tick net hn => exact flush_completed h net
  | takeResult hn hc =>
    rename_i res
    have ht := takeResult_took w res
    generalize w.takeResult res = w' at ht
    cases ht with
    | stray => exact List.prefix_rfl
    | failed | answered => exact List.prefix_append _ _
  | takeStop hstop hn =>
    rw [takeStop, failAll_eq]
    exact List.prefix_append _ _
  | submit | collect | stop | remoteAck | recvFails | recvReturns | recvSends => exact List.prefix_rfl

/-- Only the remote answers. -/
theorem step_fed (h : w.Newest) {w' : Worker} {e : Event} (hs : w.step e = some w') (he : ∀ i error, e ≠ .remoteAck i error) :
    Fed w.streams w'.streams := by
  cases step_fires hs with
  | fill net hn hq _ => exact flush_fed (w := { w with enqueue := _, pending := w.pending ++ [_] }) h net
  | tick net hn => exact flush_fed h net
  | takeResult hn hc =>
    rename_i res
    have ht := takeResult_took w res
    generalize w.takeResult res = w' at ht
    cases ht <;> exact .refl _
  | takeStop hstop hn =>
    rw [takeStop, failAll_eq]
    exact .refl _
  | @remoteAck i error st st' _ _ => exact absurd rfl (he i error)
  | recvReturns hg hst ha => exact fed_set hst List.prefix_rfl rfl
  | submit | collect | stop | recvFails | recvSends => exact .refl _

end Steps

/-- The tasks that reach the remote are, in order, some of those that were accepted, each
at most once and over whatever streams they went. Batches are never empty and never larger
than the batch size. -/
theorem sent_in_order (nodeID : String) (es : List Event) (w : Worker)
    (hr : Machine.run step (init nodeID) es = some w) :
    (w.streams.flatMap (fun st => st.sent.flatten)).Sublist (accepted es) ∧
    (∀ st ∈ w.streams, ∀ b ∈ st.sent, b ≠ [] ∧ b.length ≤ replicationBatchSize) ∧
    w.pending.length < replicationBatchSize := by
  obtain ⟨h,hroom⟩ := Machine.run_history (fun _ _ _ _ hi hs => step_line hi hs) (init_line nodeID) hr
  refine ⟨List.Sublist.trans ?_ h.order,h.batches,hroom⟩
  rw [line, List.append_assoc]
  exact List.sublist_append_left _ _

/-- The Send of the second task fails after the first has been sent; the third goes over a
new stream. -/
theorem sent_in_order_sample : ∃ w, Machine.run step (init "node-1") misattributedRun = some w ∧
    (w.streams.flatMap (fun st => st.sent.flatten)).map Task.done = [0,2] ∧
    (w.streams.flatMap (fun st => st.sent.flatten)).Sublist (accepted misattributedRun) :=
  ⟨_,rfl,rfl,(sent_in_order "node-1" misattributedRun _ rfl).1⟩

end Nawst.Cluster.BatchWorker.Worker
