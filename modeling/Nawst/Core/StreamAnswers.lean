import Nawst.Core.StreamKV

/-! What the client of a stream gets. Its requests are answered each once, reads in their
order and writes in theirs, and the answers are sent in the order the loop gives them. -/
namespace Nawst.Core
open Lib EventLoop

namespace EventLoop.Loop

theorem reads_eq_filter (es : List Event) : reads es = (received es).filter (fun r => r.op = opGet) := by
  induction es with
  | nil => rfl
  | cons e es ih =>
    cases e with
    | receive req => by_cases h : req.op = opGet <;> simpa [reads, received, Event.read, Event.request, h] using ih
    | _ => exact ih

section Order
variable {es : List Event} {s : Loop}

theorem InOrder.reads_answered (h : InOrder es s) :
    (s.responses.map Prod.fst).filter (fun r => r.op = opGet) <+: (received es).filter (fun r => r.op = opGet) := by
  rw [← reads_eq_filter, h.reads, getAnswers, List.filter_map]
  exact List.prefix_append _ _

theorem InOrder.writes_answered (h : InOrder es s) :
    (s.responses.map Prod.fst).filter (fun r => r.op ≠ opGet) <+: (received es).filter (fun r => r.op ≠ opGet) := by
  rw [← writes_eq_filter, h.writes, List.filter_map]
  exact ((s.answered_handed).trans h.handled.initial).trans (List.prefix_append _ _)

/-- When as many requests of a kind are answered as were received, they are answered in the
order of their arrival, the reads among them and the writes. -/
theorem InOrder.answered_all (h : InOrder es s) {p : Request → Bool}
    (hall : (received es).countP p ≤ (s.responses.map Prod.fst).countP p) :
    ((s.responses.map Prod.fst).filter p).filter (fun r => r.op = opGet) =
        ((received es).filter p).filter (fun r => r.op = opGet) ∧
      ((s.responses.map Prod.fst).filter p).filter (fun r => r.op ≠ opGet) =
        ((received es).filter p).filter (fun r => r.op ≠ opGet) := by
  have hreads := h.reads_answered.filter p
  have hwrites := h.writes_answered.filter p
  have hsplit (rs : List Request) : rs.countP p =
      ((rs.filter (fun r => r.op = opGet)).filter p).length+((rs.filter (fun r => r.op ≠ opGet)).filter p).length := by
    rw [← List.countP_eq_length_filter, ← List.countP_eq_length_filter,
      List.countP_eq_countP_filter_add rs p (fun r => r.op = opGet)]
    simp
  rw [hsplit, hsplit] at hall
  have hr := hreads.length_le
  have hw := hwrites.length_le
  have hcomm (rs : List Request) (q : Request → Bool) : (rs.filter p).filter q = (rs.filter q).filter p := by
    simp only [List.filter_filter, Bool.and_comm]
  rw [hcomm, hcomm, hcomm, hcomm]
  exact ⟨hreads.eq_of_length (by omega),hwrites.eq_of_length (by omega)⟩

end Order
end EventLoop.Loop

namespace StreamKV

/-- The request that the handler holds. -/
def Sender.submitted : Sender → List Request
  | .submitting req => [req]
  | .checking | .receiving | .draining | .returned _ => []

/-- What the receiver has taken and not sent: a response that it holds, or has lost. -/
def Receiver.Holds (lost : List StreamResp) : Receiver → Prop
  | .selecting => lost = []
  | .sending msg => lost = [msg]
  | .exited => lost.length ≤ 1

theorem Receiver.Holds.length_le {lost : List StreamResp} {r : Receiver} (h : r.Holds lost) : lost.length ≤ 1 := by
  cases r with
  | selecting =>
    cases h
    exact Nat.zero_le 1
  | sending msg =>
    cases h
    exact Nat.le_refl 1
  | exited => exact h

namespace Stream

/-- Everything a step of a stream can do, one rule for each branch. -/
inductive Fires (st : Stream) : Event → Stream → Prop where
  | disconnect : Fires st .disconnect { st with ctxDone := true }
  | stop (hc : st.sender = .checking) : Fires st .check (finishWith { st with sendErr := false } .sendError)
  | check (hc : st.sender = .checking) : Fires st .check { st with sender := .receiving }
  | eof (hr : st.sender = .receiving) : Fires st .eof { st with sender := .draining }
  | recvFails (hr : st.sender = .receiving) : Fires st .recvFails (st.finishWith .recvError)
  | finish {out : Outcome} (hd : st.sender = .draining) (hf : st.mayFinish out = true) :
      Fires st (.finish out) (st.finishWith out)
  | done (hr : st.receiver = .selecting) : Fires st .done { st with receiver := .exited }
  | take {resp : Response} {rest : List Response} (hr : st.receiver = .selecting) (hch : st.respCh = resp::rest) :
      Fires st .take { st with respCh := rest, inFlight := st.inFlight-1, receiver := .sending (streamResp resp) }
  | sent {msg : StreamResp} (hr : st.receiver = .sending msg) : Fires st .sent { st with receiver := .selecting }
  | sendFails {msg : StreamResp} (hr : st.receiver = .sending msg) :
      Fires st .sendFails { st with sendErr := true, receiver := .exited }

theorem step_fires {st st' : Stream} {e : Event} (hs : st.step e = some st') : Fires st e st' := by
  cases e with
  | disconnect =>
    cases hs
    exact .disconnect
  | check =>
    simp only [step, Option.ite_none_right_eq_some] at hs
    obtain ⟨hc,hs⟩ := hs
    split at hs <;> cases hs
    · exact .stop hc
    · exact .check hc
  | eof =>
    simp only [step, Option.ite_none_right_eq_some, Option.some.injEq] at hs
    obtain ⟨hr,rfl⟩ := hs
    exact .eof hr
  | recvFails =>
    simp only [step, Option.ite_none_right_eq_some, Option.some.injEq] at hs
    obtain ⟨hr,rfl⟩ := hs
    exact .recvFails hr
  | finish out =>
    simp only [step, Option.ite_none_right_eq_some, Option.some.injEq] at hs
    obtain ⟨⟨hd,hf⟩,rfl⟩ := hs
    exact .finish hd hf
  | done =>
    simp only [step, Option.ite_none_right_eq_some, Option.some.injEq] at hs
    obtain ⟨⟨hr,_⟩,rfl⟩ := hs
    exact .done hr
  | take =>
    simp only [step] at hs
    split at hs
    · rename_i hr hch
      cases hs
      exact .take hr hch
    · cases hs
  | sent =>
    simp only [step] at hs
    split at hs
    · rename_i hr
      cases hs
      exact .sent hr
    · cases hs
  | sendFails =>
    simp only [step] at hs
    split at hs
    · rename_i hr
      cases hs
      exact .sendFails hr
    · cases hs

/-- What a step sends to the client. -/
def delivers (st : Stream) : Event → List StreamResp
  | .sent => match st.receiver with
    | .sending msg => [msg]
    | .selecting | .exited => []
  | .disconnect | .check | .eof | .recvFails | .finish _ | .done | .take | .sendFails => []

/-- The answers to a stream are sent, with the receiver or in the channel, in order. -/
def Replies (answers msgs : List StreamResp) (st : Stream) : Prop :=
  ∃ lost, answers = msgs ++ lost ++ st.respCh.map streamResp ∧ st.receiver.Holds lost

section Step
variable {answers msgs : List StreamResp} {st st' : Stream} {e : Event}

theorem Replies.step (h : st.Replies answers msgs) (hs : st.step e = some st') :
    st'.Replies answers (msgs ++ st.delivers e) := by
  obtain ⟨lost,rfl,hlost⟩ := h
  cases step_fires hs with
  | disconnect | stop | check | eof | recvFails | finish => exact ⟨lost,by simp [delivers, finishWith],hlost⟩
  | done hr =>
    rw [hr] at hlost
    cases hlost
    exact ⟨[],by simp [delivers],Nat.zero_le 1⟩
  | @take resp rest hr hch =>
    rw [hr] at hlost
    cases hlost
    exact ⟨[streamResp resp],by simp [delivers, hch],rfl⟩
  | sent hr =>
    rw [hr] at hlost
    cases hlost
    exact ⟨[],by simp [delivers, hr],rfl⟩
  | @sendFails msg hr =>
    rw [hr] at hlost
    cases hlost
    exact ⟨[msg],by simp [delivers],Nat.le_refl 1⟩

/-- The loop puts one more answer into the channel. -/
theorem Replies.answer (h : st.Replies answers msgs) (resp : Response) :
    Replies (answers ++ [streamResp resp]) msgs { st with respCh := st.respCh ++ [resp] } := by
  obtain ⟨lost,rfl,hlost⟩ := h
  exact ⟨lost,by simp,hlost⟩

/-- A handler that returns without error has seen an answer to everything it has sent. -/
def Quiet (st : Stream) : Prop := st.sender = .returned .ok → st.inFlight = 0

theorem Quiet.step (h : st.Quiet) (hs : st.step e = some st') : st'.Quiet := by
  cases step_fires hs with
  | disconnect | done | sent | sendFails => exact h
  | stop | check | eof | recvFails => simp [Quiet, finishWith]
  | finish _ hf =>
    intro hok
    cases hok
    simp only [mayFinish, Bool.and_eq_true, beq_iff_eq] at hf
    exact hf.2
  | take =>
    intro hok
    have hzero := h hok
    simp only
    omega

/-- No step of a stream gives it a request to submit. -/
theorem step_submitted (hs : st.step e = some st') : st'.sender.submitted = st.sender.submitted := by
  cases step_fires hs with
  | disconnect | done | sent | sendFails | take => rfl
  | stop hc | check hc | eof hc | recvFails hc | finish hc => simp [Sender.submitted, finishWith, hc]

end Step
end Stream

namespace Node

/-- The requests that belong to a stream. -/
def toStream (i : Nat) (rs : List Request) : List Request := rs.filter (fun r => r.responseChan = i)

/-- The answers of the loop to a stream. -/
def answersTo (s : Node) (i : Nat) : List (Request × Response) := s.loop.responses.filter (fun p => p.1.responseChan = i)

/-- What they are for the client. -/
def repliesTo (s : Node) (i : Nat) : List StreamResp := (s.answersTo i).map (fun p => streamResp p.2)

/-- What the client of a stream asks for in a step. -/
def asked (i : Nat) (s : Node) : Event → List Request
  | .recv j item vnodeID now => if j = i then [(s.request j item vnodeID now).1] else []
  | .connect | .stream .. | .submit _ | .receive | .loop _ => []

/-- What the client of a stream is sent in a step. -/
def sentTo (i : Nat) (s : Node) : Event → List StreamResp
  | .stream j e => if j = i then (s.streams[j]?.map (·.delivers e)).getD [] else []
  | .connect | .recv .. | .submit _ | .receive | .loop _ => []

section Lists
variable (i : Nat)

@[simp] theorem toStream_nil : toStream i [] = [] := rfl

@[simp] theorem toStream_append (rs rs' : List Request) : toStream i (rs ++ rs') = toStream i rs ++ toStream i rs' :=
  List.filter_append ..

theorem toStream_cons (r : Request) (rs : List Request) :
    toStream i (r::rs) = (if r.responseChan = i then [r] else []) ++ toStream i rs := by
  by_cases h : r.responseChan = i <;> simp [toStream, h]

theorem toStream_length (rs : List Request) : (toStream i rs).length = ofStream i rs :=
  List.countP_eq_length_filter.symm

theorem toStream_eq_nil {rs : List Request} (h : ofStream i rs = 0) : toStream i rs = [] :=
  List.eq_nil_of_length_eq_zero ((toStream_length i rs).trans h)

theorem answersTo_requests (s : Node) : (s.answersTo i).map Prod.fst = toStream i (s.loop.responses.map Prod.fst) := by
  simp [answersTo, toStream, List.filter_map, Function.comp_def]

theorem repliesTo_eq_nil {s : Node} (h : s.answered i = 0) : s.repliesTo i = [] := by
  have hnil := (answersTo_requests i s).trans (toStream_eq_nil i h)
  rw [repliesTo, List.map_eq_nil_iff.mp hnil, List.map_nil]

theorem repliesTo_congr {s s' : Node} (h : s'.loop.responses = s.loop.responses) : s'.repliesTo i = s.repliesTo i := by
  rw [repliesTo, answersTo, h, ← answersTo, ← repliesTo]

theorem repliesTo_answer {s s' : Node} {req : Request} {resp : Response}
    (h : s'.loop.responses = s.loop.responses ++ [(req,resp)]) :
    s'.repliesTo i = s.repliesTo i ++ if req.responseChan = i then [streamResp resp] else [] := by
  by_cases hc : req.responseChan = i <;> simp [repliesTo, answersTo, h, List.filter_append, hc]

end Lists

/-- The session of a stream, with what its client has asked for and been sent and what the
loop has seen. -/
structure Session (i : Nat) (reqs : List Request) (msgs : List StreamResp) (fs : List Loop.Event) (s : Node) : Prop where
  inv : Inv fs s
  quiet : ∀ st ∈ s.streams, st.Quiet
  unborn : s.streams.length ≤ i → reqs = [] ∧ msgs = []
  requests : ∀ st, s.streams[i]? = some st →
    reqs = toStream i (Loop.received fs) ++ toStream i s.reqCh ++ st.sender.submitted
  replies : ∀ st, s.streams[i]? = some st → st.Replies (s.repliesTo i) msgs

section Step
variable {i : Nat} {reqs : List Request} {msgs : List StreamResp} {fs : List Loop.Event} {s s' : Node} {e : Event}

theorem step_quiet (h : ∀ st ∈ s.streams, st.Quiet) (hs : s.step e = some s') : ∀ st ∈ s'.streams, st.Quiet := by
  cases step_fires hs with
  | connect => exact Machine.forall_mem_concat h (by simp [Stream.Quiet, Stream.init])
  | stream hi hst => exact Machine.forall_mem_set h ((h _ (List.mem_of_getElem? hi)).step hst)
  | recv | submit => exact Machine.forall_mem_set h (by simp [Stream.Quiet])
  | receive | work => exact h
  | @answer _ _ _ _ st _ _ _ hi => exact Machine.forall_mem_set h (h st (List.mem_of_getElem? hi))

/-- Nothing happens to a stream before it is there. -/
theorem step_unborn (hs : s.step e = some s') (hlen : s'.streams.length ≤ i) :
    s.streams.length ≤ i ∧ s.asked i e = [] ∧ s.sentTo i e = [] := by
  cases step_fires hs with
  | connect =>
    rw [List.length_append] at hlen
    exact ⟨Nat.le_of_add_right_le hlen,rfl,rfl⟩
  | @stream j e st st' hi =>
    rw [List.length_set] at hlen
    have hne : j ≠ i := ((List.getElem?_eq_some_iff.mp hi).1.trans_le hlen).ne
    exact ⟨hlen,rfl,if_neg hne⟩
  | @recv j item vnodeID now st hi =>
    rw [List.length_set] at hlen
    have hne : j ≠ i := ((List.getElem?_eq_some_iff.mp hi).1.trans_le hlen).ne
    exact ⟨hlen,if_neg hne,rfl⟩
  | submit | answer =>
    rw [List.length_set] at hlen
    exact ⟨hlen,rfl,rfl⟩
  | receive | work => exact ⟨hlen,rfl,rfl⟩

/-- A stream that is not there has no requests with the loop. -/
theorem Inv.unborn (h : Inv fs s) (hlen : s.streams.length ≤ i) :
    ofStream i (Loop.received fs) = 0 ∧ ofStream i s.reqCh = 0 ∧ s.answered i = 0 := by
  have hnone : ofStream i (s.reqCh ++ Loop.received fs) = 0 :=
    ofStream_eq_zero (fun r hr => ((h.known r hr).trans_le hlen).ne)
  have ha := answered_le h.inOrder i
  rw [ofStream_append] at hnone
  omega

theorem step_requests (h : Session i reqs msgs fs s) (hs : s.step e = some s') {st' : Stream}
    (hi' : s'.streams[i]? = some st') :
    reqs ++ s.asked i e =
      toStream i (Loop.received (fs ++ s.loopEvents e)) ++ toStream i s'.reqCh ++ st'.sender.submitted := by
  cases step_fires hs with
  | connect =>
    rw [asked, loopEvents, List.append_nil, List.append_nil]
    rcases Machine.getElem?_concat_cases hi' with hi | ⟨rfl,rfl⟩
    · exact h.requests st' hi
    · obtain ⟨hr,hq,-⟩ := h.inv.unborn (Nat.le_refl s.streams.length)
      rw [(h.unborn (Nat.le_refl _)).1, toStream_eq_nil _ hr, toStream_eq_nil _ hq]
      rfl
  | @stream j e st st₁ hi hst =>
    rw [asked, loopEvents, List.append_nil, List.append_nil]
    rcases Machine.getElem?_set_cases hi' with ⟨rfl,rfl⟩ | ⟨_,hj⟩
    · rw [Stream.step_submitted hst]
      exact h.requests st hi
    · exact h.requests st' hj
  | @recv j item vnodeID now st hi hr =>
    rw [asked, loopEvents, List.append_nil]
    rcases Machine.getElem?_set_cases hi' with ⟨rfl,rfl⟩ | ⟨hne,hj⟩
    · have hold := h.requests st hi
      rw [hr, Sender.submitted, List.append_nil] at hold
      rw [if_pos rfl, hold]
      rfl
    · rw [if_neg (Ne.symm hne), List.append_nil]
      exact h.requests st' hj
  | @submit j st req hi hr =>
    have hown := h.inv.own j st req hi hr
    rw [asked, loopEvents, List.append_nil, List.append_nil, toStream_append, toStream_cons, toStream_nil, List.append_nil,
      hown]
    rcases Machine.getElem?_set_cases hi' with ⟨rfl,rfl⟩ | ⟨hne,hj⟩
    · have hold := h.requests st hi
      rw [hr] at hold
      rw [if_pos rfl, hold]
      simp [Sender.submitted]
    · rw [if_neg (Ne.symm hne), List.append_nil]
      exact h.requests st' hj
  | @receive req rest l hq hl =>
    have hold := h.requests st' hi'
    rw [hq, toStream_cons] at hold
    rw [asked, List.append_nil, loopEvents, hq, hold]
    simp [received_concat, Loop.Event.request, toStream_cons]
  | work he =>
    rw [asked, List.append_nil, loopEvents, received_concat, internal_request he, Option.toList_none, List.append_nil]
    exact h.requests st' hi'
  | @answer _ _ _ _ st he _ _ hi =>
    rw [asked, List.append_nil, loopEvents, received_concat, internal_request he, Option.toList_none, List.append_nil]
    rcases Machine.getElem?_set_cases hi' with ⟨rfl,rfl⟩ | ⟨_,hj⟩
    · exact h.requests st hi
    · exact h.requests st' hj

theorem step_replies (h : Session i reqs msgs fs s) (hs : s.step e = some s') {st' : Stream}
    (hi' : s'.streams[i]? = some st') : st'.Replies (s'.repliesTo i) (msgs ++ s.sentTo i e) := by
  cases step_fires hs with
  | connect =>
    rw [sentTo, List.append_nil]
    rcases Machine.getElem?_concat_cases hi' with hi | ⟨rfl,rfl⟩
    · exact h.replies st' hi
    · obtain ⟨-,-,ha⟩ := h.inv.unborn (Nat.le_refl s.streams.length)
      rw [(h.unborn (Nat.le_refl _)).2]
      exact ⟨[],repliesTo_eq_nil _ ha,rfl⟩
  | @stream j e st st₁ hi hst =>
    rcases Machine.getElem?_set_cases hi' with ⟨rfl,rfl⟩ | ⟨hne,hj⟩
    · rw [sentTo, if_pos rfl, hi]
      exact (h.replies st hi).step hst
    · rw [sentTo, if_neg (Ne.symm hne), List.append_nil]
      exact h.replies st' hj
  | @recv _ _ _ _ st hi | @submit _ st _ hi =>
    rw [sentTo, List.append_nil]
    rcases Machine.getElem?_set_cases hi' with ⟨rfl,rfl⟩ | ⟨_,hj⟩
    · exact h.replies st hi
    · exact h.replies st' hj
  | @receive req rest l hq hl =>
    have ha : l.responses = s.loop.responses := by simpa [Loop.sends] using Loop.step_sends hl
    rw [sentTo, List.append_nil, repliesTo_congr i ha]
    exact h.replies st' hi'
  | @work e l _ hn hl =>
    have ha : l.responses = s.loop.responses := by simpa [hn] using Loop.step_sends hl
    rw [sentTo, List.append_nil, repliesTo_congr i ha]
    exact h.replies st' hi'
  | @answer e l req resp st _ hn hl hi =>
    have ha : l.responses = s.loop.responses ++ [(req,resp)] := by simpa [hn] using Loop.step_sends hl
    rw [sentTo, List.append_nil, repliesTo_answer i ha]
    rcases Machine.getElem?_set_cases hi' with ⟨rfl,rfl⟩ | ⟨hne,hj⟩
    · rw [if_pos rfl]
      exact (h.replies st hi).answer resp
    · rw [if_neg (Ne.symm hne), List.append_nil]
      exact h.replies st' hj

theorem Session.step (h : Session i reqs msgs fs s) (hs : s.step e = some s') :
    Session i (reqs ++ s.asked i e) (msgs ++ s.sentTo i e) (fs ++ s.loopEvents e) s' where
  inv := step_inv_events h.inv hs
  quiet := step_quiet h.quiet hs
  unborn hlen := by
    obtain ⟨hlt,hasked,hsent⟩ := step_unborn hs hlen
    rw [hasked, hsent, List.append_nil, List.append_nil]
    exact h.unborn hlt
  requests _ hi' := step_requests h hs hi'
  replies _ hi' := step_replies h hs hi'

end Step

theorem run_session {start s : Node} {es : List Event} {i : Nat} (h : Session i [] [] [] start)
    (hr : Machine.run step start es = some s) :
    Session i (Machine.outputs step (asked i) start es) (Machine.outputs step (sentTo i) start es)
      (Machine.outputs step loopEvents start es) s := by
  refine (Machine.run_history (I := fun es s => Machine.run step start es = some s ∧
    Session i (Machine.outputs step (asked i) start es) (Machine.outputs step (sentTo i) start es)
      (Machine.outputs step loopEvents start es) s) (fun es s e s' ⟨hr,h⟩ hs => ⟨?_,?_⟩) ⟨rfl,h⟩ hr).2
  · exact Machine.run_append.mpr ⟨s,hr,Machine.run_cons.mpr ⟨s',hs,rfl⟩⟩
  · rw [Machine.outputs_concat _ hr, Machine.outputs_concat _ hr, Machine.outputs_concat _ hr]
    exact h.step hs

theorem init_session (i : Nat) (batchSize : Int) (mode : Wal.AckMode) (bufferSize : Nat) (old : List Command) :
    Session i [] [] [] (init batchSize mode bufferSize old) where
  inv := init_inv batchSize mode bufferSize old
  quiet := by simp [init]
  unborn _ := ⟨rfl,rfl⟩
  requests := by simp [init]
  replies := by simp [init]

section Finished
variable {i : Nat} {reqs : List Request} {msgs : List StreamResp} {fs : List Loop.Event} {s : Node} {st : Stream}

/-- Of a stream whose handler has returned without error nothing is left on the way. -/
theorem Session.settled (h : Session i reqs msgs fs s) (hi : s.streams[i]? = some st) (hok : st.sender = .returned .ok) :
    st.respCh = [] ∧ reqs = toStream i (Loop.received fs) ∧ s.answered i = ofStream i (Loop.received fs) := by
  have hb := h.inv.balance i st hi
  have ha := answered_le h.inv.inOrder i
  rw [h.quiet st (List.mem_of_getElem? hi) hok] at hb
  simp only [Stream.owed, hok] at hb
  have hreqs := h.requests st hi
  rw [hok, toStream_eq_nil i (show ofStream i s.reqCh = 0 by omega)] at hreqs
  refine ⟨List.eq_nil_of_length_eq_zero (by omega),?_,by omega⟩
  simpa [Sender.submitted] using hreqs

end Finished

/-- When the handler of a stream has returned without error, everything its client has asked for
is answered, the reads in their order and the writes in theirs. The answers are sent to the
client as the loop gives them, except perhaps the last one: it counts as observed before it is
sent, and the stream may end in between. -/
theorem ok_stream_answered (batchSize : Int) (mode : Wal.AckMode) (bufferSize : Nat) (old : List Command) (es : List Event)
    {s : Node} (hr : Machine.run step (init batchSize mode bufferSize old) es = some s) {i : Nat} {st : Stream}
    (hi : s.streams[i]? = some st) (hok : st.sender = .returned .ok) :
    ((s.answersTo i).map Prod.fst).filter (fun r => r.op = opGet) =
        (Machine.outputs step (asked i) (init batchSize mode bufferSize old) es).filter (fun r => r.op = opGet) ∧
      ((s.answersTo i).map Prod.fst).filter (fun r => r.op ≠ opGet) =
        (Machine.outputs step (asked i) (init batchSize mode bufferSize old) es).filter (fun r => r.op ≠ opGet) ∧
      ∃ lost, lost.length ≤ 1 ∧
        s.repliesTo i = Machine.outputs step (sentTo i) (init batchSize mode bufferSize old) es ++ lost := by
  have h := run_session (init_session i batchSize mode bufferSize old) hr
  obtain ⟨hch,hreqs,hall⟩ := h.settled hi hok
  obtain ⟨hreads,hwrites⟩ := h.inv.inOrder.answered_all (p := fun r => r.responseChan = i) hall.ge
  rw [answersTo_requests, hreqs]
  refine ⟨hreads,hwrites,?_⟩
  obtain ⟨lost,hsent,hholds⟩ := h.replies st hi
  rw [hch, List.map_nil, List.append_nil] at hsent
  exact ⟨lost,hholds.length_le,hsent⟩

/-- A client asks for one key. The handler returns when the answer has been taken from the
channel, and the answer is lost. -/
def lostRun : List Event :=
  [.connect] ++ readOnce ++ answerOnce ++ [.stream 0 .check,.stream 0 .eof,.stream 0 .take,.stream 0 (.finish .ok),
    .stream 0 .sendFails]

theorem ok_stream_answered_sample : ∃ s lost, Machine.run step (init 1 .afterFlush 64 []) lostRun = some s ∧
    Machine.outputs step (sentTo 0) (init 1 .afterFlush 64 []) lostRun = [] ∧ lost.length ≤ 1 ∧
      s.repliesTo 0 = Machine.outputs step (sentTo 0) (init 1 .afterFlush 64 []) lostRun ++ lost ∧ lost ≠ [] := by
  have hfacts : (Machine.run step (init 1 .afterFlush 64 []) lostRun).bind (fun s =>
      s.streams[0]?.map (fun st => (st.sender,(s.repliesTo 0).length))) = some (.returned .ok,1) := by decide +kernel
  obtain ⟨s,hr,hf⟩ := Option.bind_eq_some_iff.mp hfacts
  obtain ⟨st,hi,hst⟩ := Option.map_eq_some_iff.mp hf
  simp only [Prod.mk.injEq] at hst
  obtain ⟨-,-,lost,hle,hsent⟩ := ok_stream_answered 1 .afterFlush 64 [] lostRun hr hi hst.1
  have hnone : Machine.outputs step (sentTo 0) (init 1 .afterFlush 64 []) lostRun = [] := by decide +kernel
  refine ⟨s,lost,hr,hnone,hle,hsent,?_⟩
  rintro rfl
  rw [hsent, hnone] at hst
  cases hst.2

end Node
end StreamKV
end Nawst.Core
