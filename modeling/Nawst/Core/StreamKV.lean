import Nawst.Core.LoopOrder
import Nawst.Core.Server

/-! Streaming clients in front of the loop. Each stream has a channel for its responses,
a goroutine that sends them to the client and a loop that takes the client's requests.
The event loop sends into the channels and waits when one of them is full. -/
namespace Nawst.Core
open Lib Wal EventLoop

namespace EventLoop.Loop

/-- The response the loop or the acknowledgement goroutine is about to send. -/
def sends (s : Loop) : Event → Option (Request × Response)
  | .advance => match s.phase with
    | .answeringGet req resp => some (req,resp)
    | .fastAnswering req err => some (req,writeResponse req err)
    | _ => none
  | .respond => match s.acker with
    | .responding (r::_) err => some (r,writeResponse r err)
    | _ => none
  | _ => none

theorem step_sends {s s' : Loop} {e : Event} (hs : s.step e = some s') :
    s'.responses = s.responses ++ (s.sends e).toList := by
  cases step_fires hs with
  | answerGet hp | fastAnswer hp => simp [sends, hp]
  | number hp | apply hp | append hp | fastAppend hp | fastApply hp => simp [sends, hp]
  | handOff hp => simp [sends, hp, afterBatch]
  | respond ha | done ha => simp [sends, ha]
  | get | fast | collect | fill | leave | lastBatch | idle | batch | takeAck | wake | writer | closeWal
  | deleteVNodeData => simp [sends, afterBatch]

/-- Whoever is about to send has only the send left to do. -/
theorem sends_step {s : Loop} {e : Event} {p : Request × Response} (h : s.sends e = some p) :
    e.request = none ∧ ∃ s', s.step e = some s' := by
  unfold sends at h
  split at h
  · refine ⟨rfl,?_⟩
    split at h
    · simp [step, advance, ‹s.phase = _›]
    · simp [step, advance, ‹s.phase = _›]
    · cases h
  · refine ⟨rfl,?_⟩
    split at h
    · simp [step, ‹s.acker = _›]
    · cases h
  · cases h

end EventLoop.Loop

namespace StreamKV

def requestChannelSize : Nat := 12000
def respChCapacity : Nat := 10000

structure StreamReq where
  op : Op
  key : Key
  value : Value
  deriving DecidableEq

structure StreamResp where
  op : Op
  value : Value
  error : String
  deriving DecidableEq

/-- What is neither a put nor a get becomes a delete. -/
def coreOp : Op → OpType
  | .put => opPut
  | .get => opGet
  | _ => opDelete

def streamResp (resp : Response) : StreamResp where
  op := if resp.op = opPut then .put else if resp.op = opGet then .get else .delete
  value := resp.value
  error := resp.err.getD ""

/-- The goroutine that streams the responses back. -/
inductive Receiver where
  | selecting
  | sending (msg : StreamResp)
  | exited
  deriving DecidableEq

/-- What the handler of a stream returns. -/
inductive Outcome where
  | ok | sendError | recvError | ctxError
  deriving DecidableEq

/-- The loop that reads from the client, and the drain after it. -/
inductive Sender where
  | checking
  | receiving
  | submitting (req : Request)
  | draining
  | returned (out : Outcome)
  deriving DecidableEq

structure Stream where
  respCh : List Response
  inFlight : Nat
  ctxDone : Bool
  sendErr : Bool
  receiver : Receiver
  sender : Sender
  deriving DecidableEq

namespace Stream

def init : Stream := ⟨[],0,false,false,.selecting,.checking⟩

/-- A step that only concerns the stream and its client. -/
inductive Event where
  | disconnect
  | check
  | eof
  | recvFails
  | finish (out : Outcome)
  | done
  | take
  | sent
  | sendFails
  deriving DecidableEq

/-- The context of a stream ends with its handler. -/
def finishWith (st : Stream) (out : Outcome) : Stream := { st with ctxDone := true, sender := .returned out }

/-- What the drain may return: an error of the receiver comes first. -/
def mayFinish (st : Stream) : Outcome → Bool
  | .sendError => st.sendErr
  | .ok => !st.sendErr && st.inFlight == 0
  | .ctxError => !st.sendErr && st.ctxDone
  | .recvError => false

def step (st : Stream) : Event → Option Stream
  | .disconnect => some { st with ctxDone := true }
  | .check =>
    if st.sender = .checking then
      if st.sendErr then some (finishWith { st with sendErr := false } .sendError)
      else some { st with sender := .receiving }
    else none
  | .eof => if st.sender = .receiving then some { st with sender := .draining } else none
  | .recvFails => if st.sender = .receiving then some (st.finishWith .recvError) else none
  | .finish out => if st.sender = .draining ∧ st.mayFinish out = true then some (st.finishWith out) else none
  | .done => if st.receiver = .selecting ∧ st.ctxDone = true then some { st with receiver := .exited } else none
  | .take => match st.receiver, st.respCh with
    | .selecting, resp::rest =>
      some { st with respCh := rest, inFlight := st.inFlight-1, receiver := .sending (streamResp resp) }
    | _, _ => none
  | .sent => match st.receiver with
    | .sending _ => some { st with receiver := .selecting }
    | _ => none
  | .sendFails => match st.receiver with
    | .sending _ => some { st with sendErr := true, receiver := .exited }
    | _ => none

/-- The requests of the stream that are at its two ends. -/
def owed (st : Stream) : Nat :=
  st.respCh.length+match st.sender with
    | .submitting _ => 1
    | _ => 0

/-- The receiver goes when the client is gone. -/
def Event.exits : Event → Bool
  | .done | .sendFails => true
  | _ => false

/-- A stream step takes a response or leaves the count alone, and no request is
submitted by it. -/
theorem step_spec {st st' : Stream} {e : Event} (hs : st.step e = some st') (hle : st.respCh.length ≤ st.inFlight) :
    st.inFlight+st'.owed = st'.inFlight+st.owed ∧ (∀ req, st'.sender = .submitting req → st.sender = .submitting req) ∧
      (st'.receiver = .exited → st.receiver = .exited ∨ e.exits = true) ∧ st'.inFlight ≤ st.inFlight := by
  cases e with
  | disconnect =>
    cases hs
    exact ⟨rfl,fun _ h => h,.inl,Nat.le_refl _⟩
  | check =>
    simp only [step, Option.ite_none_right_eq_some] at hs
    obtain ⟨hc,hs⟩ := hs
    split at hs <;> cases hs <;> simp [owed, finishWith, hc, Event.exits]
  | eof =>
    simp only [step, Option.ite_none_right_eq_some, Option.some.injEq] at hs
    obtain ⟨hc,rfl⟩ := hs
    simp [owed, hc, Event.exits]
  | recvFails =>
    simp only [step, Option.ite_none_right_eq_some, Option.some.injEq] at hs
    obtain ⟨hc,rfl⟩ := hs
    simp [owed, finishWith, hc, Event.exits]
  | finish out =>
    simp only [step, Option.ite_none_right_eq_some, Option.some.injEq] at hs
    obtain ⟨⟨hc,_⟩,rfl⟩ := hs
    simp [owed, finishWith, hc, Event.exits]
  | done =>
    simp only [step, Option.ite_none_right_eq_some, Option.some.injEq] at hs
    obtain ⟨_,rfl⟩ := hs
    exact ⟨rfl,fun _ h => h,fun _ => .inr rfl,Nat.le_refl _⟩
  | take =>
    simp only [step] at hs
    split at hs
    · rename_i hr
      cases hs
      rw [hr, List.length_cons] at hle
      refine ⟨?_,fun _ h => h,by simp,Nat.sub_le _ _⟩
      simp only [owed, hr, List.length_cons]
      omega
    · cases hs
  | sent =>
    simp only [step] at hs
    split at hs
    · cases hs
      exact ⟨rfl,fun _ h => h,by simp,Nat.le_refl _⟩
    · cases hs
  | sendFails =>
    simp only [step] at hs
    split at hs
    · cases hs
      exact ⟨rfl,fun _ h => h,fun _ => .inr rfl,Nat.le_refl _⟩
    · cases hs

end Stream

/-- A node with its streams. A stream's response channel has the number of the stream. -/
structure Node where
  versionCounter : UInt64
  reqCh : List Request
  loop : Loop
  streams : List Stream
  deriving DecidableEq

/-- The loop's own steps; its requests come from the channel, which is never closed. -/
def internal : Loop.Event → Bool
  | .receive _ | .reqChClosed => false
  | _ => true

namespace Node

def init (batchSize : Int) (mode : AckMode) (bufferSize : Nat) (old : List Command) : Node :=
  ⟨0,[],EventLoop.init batchSize mode bufferSize old,[]⟩

inductive Event where
  | connect
  | stream (i : Nat) (e : Stream.Event)
  | recv (i : Nat) (item : StreamReq) (vnodeID : UInt16) (now : UInt64)
  | submit (i : Nat)
  | receive
  | loop (e : Loop.Event)
  deriving DecidableEq

/-- The request of a stream item, and the version counter after it. Only writes are
versioned. -/
def request (s : Node) (i : Nat) (item : StreamReq) (vnodeID : UInt16) (now : UInt64) : Request × UInt64 :=
  let op := coreOp item.op
  if op = opPut ∨ op = opDelete then
    let version := nextVersion s.versionCounter now
    (⟨op,item.key,item.value,vnodeID,version,i⟩,version)
  else (⟨op,item.key,item.value,vnodeID,0,i⟩,s.versionCounter)

/-- Sends into channels wait for room: requests for the loop and responses alike. -/
def step (s : Node) : Event → Option Node
  | .connect => some { s with streams := s.streams ++ [.init] }
  | .stream i e => do
    let st ← s.streams[i]?
    let st' ← st.step e
    return { s with streams := s.streams.set i st' }
  | .recv i item vnodeID now => do
    let st ← s.streams[i]?
    if st.sender = .receiving then
      let (req,version) := s.request i item vnodeID now
      some { s with
        versionCounter := version
        streams := s.streams.set i { st with inFlight := st.inFlight+1, sender := .submitting req } }
    else none
  | .submit i => do
    let st ← s.streams[i]?
    match st.sender with
    | .submitting req =>
      if s.reqCh.length < requestChannelSize then
        some { s with reqCh := s.reqCh ++ [req], streams := s.streams.set i { st with sender := .checking } }
      else none
    | _ => none
  | .receive => match s.reqCh with
    | req::rest => (s.loop.step (.receive req)).map (fun l => { s with reqCh := rest, loop := l })
    | [] => none
  | .loop e => do
    let l ← s.loop.step e
    if internal e then
      match s.loop.sends e with
      | none => some { s with loop := l }
      | some (req,resp) =>
        let st ← s.streams[req.responseChan]?
        if st.respCh.length < respChCapacity then
          some { s with
            loop := l, streams := s.streams.set req.responseChan { st with respCh := st.respCh ++ [resp] } }
        else none
    else none

/-- Everything a step can do, one rule for each branch. -/
inductive Fires (s : Node) : Event → Node → Prop where
  | connect : Fires s .connect { s with streams := s.streams ++ [.init] }
  | stream {i : Nat} {e : Stream.Event} {st st' : Stream} (hi : s.streams[i]? = some st) (hs : st.step e = some st') :
      Fires s (.stream i e) { s with streams := s.streams.set i st' }
  | recv {i : Nat} {item : StreamReq} {vnodeID : UInt16} {now : UInt64} {st : Stream} (hi : s.streams[i]? = some st)
      (hr : st.sender = .receiving) :
      Fires s (.recv i item vnodeID now) { s with
        versionCounter := (s.request i item vnodeID now).2
        streams := s.streams.set i { st with
          inFlight := st.inFlight+1, sender := .submitting (s.request i item vnodeID now).1 } }
  | submit {i : Nat} {st : Stream} {req : Request} (hi : s.streams[i]? = some st) (hr : st.sender = .submitting req) :
      Fires s (.submit i) { s with
        reqCh := s.reqCh ++ [req], streams := s.streams.set i { st with sender := .checking } }
  | receive {req : Request} {rest : List Request} {l : Loop} (hq : s.reqCh = req::rest)
      (hl : s.loop.step (.receive req) = some l) : Fires s .receive { s with reqCh := rest, loop := l }
  | work {e : Loop.Event} {l : Loop} (he : internal e = true) (hn : s.loop.sends e = none) (hl : s.loop.step e = some l) :
      Fires s (.loop e) { s with loop := l }
  | answer {e : Loop.Event} {l : Loop} {req : Request} {resp : Response} {st : Stream} (he : internal e = true)
      (hn : s.loop.sends e = some (req,resp)) (hl : s.loop.step e = some l)
      (hi : s.streams[req.responseChan]? = some st) :
      Fires s (.loop e) { s with
        loop := l, streams := s.streams.set req.responseChan { st with respCh := st.respCh ++ [resp] } }

theorem step_fires {s s' : Node} {e : Event} (hs : s.step e = some s') : Fires s e s' := by
  cases e with
  | connect =>
    cases hs
    exact .connect
  | stream i e =>
    simp only [step, Option.bind_eq_bind, Option.bind_eq_some_iff, Option.pure_def, Option.some.injEq] at hs
    obtain ⟨st,hi,st',hst,rfl⟩ := hs
    exact .stream hi hst
  | recv i item vnodeID now =>
    simp only [step, Option.bind_eq_bind, Option.bind_eq_some_iff, Option.ite_none_right_eq_some, Option.some.injEq] at hs
    obtain ⟨st,hi,hr,rfl⟩ := hs
    exact .recv hi hr
  | submit i =>
    simp only [step, Option.bind_eq_bind, Option.bind_eq_some_iff] at hs
    obtain ⟨st,hi,hs⟩ := hs
    split at hs
    · simp only [Option.ite_none_right_eq_some, Option.some.injEq] at hs
      obtain ⟨_,rfl⟩ := hs
      exact .submit hi ‹_›
    · cases hs
  | receive =>
    simp only [step] at hs
    split at hs
    · obtain ⟨l,hl,rfl⟩ := Option.map_eq_some_iff.mp hs
      exact .receive ‹_› hl
    · cases hs
  | loop e =>
    simp only [step, Option.bind_eq_bind, Option.bind_eq_some_iff, Option.ite_none_right_eq_some] at hs
    obtain ⟨l,hl,he,hs⟩ := hs
    split at hs
    · cases hs
      exact .work he ‹_› hl
    · simp only [Option.bind_eq_some_iff, Option.ite_none_right_eq_some, Option.some.injEq] at hs
      obtain ⟨st,hi,_,rfl⟩ := hs
      exact .answer he ‹_› hl hi

/-- How many of the requests belong to a stream. -/
def ofStream (i : Nat) (rs : List Request) : Nat := rs.countP (fun r => r.responseChan = i)

@[simp] theorem ofStream_append (i : Nat) (rs rs' : List Request) : ofStream i (rs ++ rs') = ofStream i rs+ofStream i rs' :=
  List.countP_append

@[simp] theorem ofStream_nil (i : Nat) : ofStream i [] = 0 := rfl

@[simp] theorem ofStream_cons (i : Nat) (r : Request) (rs : List Request) :
    ofStream i (r::rs) = ofStream i rs+if r.responseChan = i then 1 else 0 := by
  simp [ofStream, List.countP_cons]

theorem ofStream_eq_zero {i : Nat} {rs : List Request} (h : ∀ r ∈ rs, r.responseChan ≠ i) : ofStream i rs = 0 := by
  simpa [ofStream, List.countP_eq_zero] using h

/-- The requests of a stream that the loop has answered. -/
def answered (s : Node) (i : Nat) : Nat := ofStream i (s.loop.responses.map Prod.fst)

/-- What a stream counts as in flight is at its two ends, in the request channel or in
the hands of the loop. -/
structure Inv (es : List Loop.Event) (s : Node) : Prop where
  inOrder : Loop.InOrder es s.loop
  known : ∀ r ∈ s.reqCh ++ Loop.received es, r.responseChan < s.streams.length
  own : ∀ (i : Nat) (st : Stream) (req : Request), s.streams[i]? = some st → st.sender = .submitting req → req.responseChan = i
  balance : ∀ (i : Nat) (st : Stream), s.streams[i]? = some st →
    st.inFlight+s.answered i = st.owed+ofStream i s.reqCh+ofStream i (Loop.received es)

/-- Only what was received is answered. -/
theorem answered_le {es : List Loop.Event} {s : Node} (h : Loop.InOrder es s.loop) (i : Nat) :
    s.answered i ≤ ofStream i (Loop.received es) := by
  have hc := h.accounted.countP_eq (fun r => r.responseChan = i)
  rw [List.countP_append] at hc
  unfold answered ofStream
  omega

private theorem Inv.taken_le {es : List Loop.Event} {s : Node} (h : Inv es s) {i : Nat} {st : Stream}
    (hi : s.streams[i]? = some st) : st.respCh.length ≤ st.inFlight := by
  have hb := h.balance i st hi
  have ha := answered_le h.inOrder i
  simp only [Stream.owed] at hb
  omega

private theorem request_chan (s : Node) (i : Nat) (item : StreamReq) (vnodeID : UInt16) (now : UInt64) :
    (s.request i item vnodeID now).1.responseChan = i := by
  unfold request
  simp only
  split <;> rfl

theorem received_concat (es : List Loop.Event) (e : Loop.Event) :
    Loop.received (es ++ [e]) = Loop.received es ++ e.request.toList := by
  cases h : e.request <;> simp [Loop.received, List.filterMap_append, h]

theorem internal_request {e : Loop.Event} (h : internal e = true) : e.request = none := by
  cases e <;> first | rfl | cases h

theorem init_inv (batchSize : Int) (mode : AckMode) (bufferSize : Nat) (old : List Command) :
    Inv [] (init batchSize mode bufferSize old) where
  inOrder := Loop.init_inOrder batchSize mode bufferSize old
  known := by simp [init, Loop.received]
  own _ _ _ h := by simp [init] at h
  balance _ _ h := by simp [init] at h

private theorem Inv.connect {es : List Loop.Event} {s : Node} (h : Inv es s) :
    Inv es { s with streams := s.streams ++ [.init] } where
  inOrder := h.inOrder
  known r hr := by
    have hlt := h.known r hr
    simp only [List.length_append, List.length_singleton]
    omega
  own i st req hi hr := by
    rcases Machine.getElem?_concat_cases hi with hi | ⟨_,rfl⟩
    · exact h.own i st req hi hr
    · cases hr
  balance i st hi := by
    rcases Machine.getElem?_concat_cases hi with hi | ⟨rfl,rfl⟩
    · exact h.balance i st hi
    · -- No request belongs to a stream that is not there yet.
      have hnone := ofStream_eq_zero (fun r hr => (h.known r hr).ne)
      have ha := answered_le h.inOrder s.streams.length
      rw [ofStream_append] at hnone
      change 0+s.answered s.streams.length = 0+ofStream _ s.reqCh+ofStream _ (Loop.received es)
      omega

/-- One stream changes while the loop and its channel stay as they are. -/
private theorem Inv.update {es : List Loop.Event} {s : Node} (h : Inv es s) {i : Nat} {st st' : Stream}
    (hi : s.streams[i]? = some st) {counter : UInt64} (hb : st.inFlight+st'.owed = st'.inFlight+st.owed)
    (hr : ∀ req, st'.sender = .submitting req → req.responseChan = i) :
    Inv es { s with versionCounter := counter, streams := s.streams.set i st' } where
  inOrder := h.inOrder
  known r hr := by
    rw [List.length_set]
    exact h.known r hr
  own j st₁ req hj hs := by
    rcases Machine.getElem?_set_cases hj with ⟨rfl,rfl⟩ | ⟨_,hj⟩
    · exact hr req hs
    · exact h.own j st₁ req hj hs
  balance j st₁ hj := by
    rcases Machine.getElem?_set_cases hj with ⟨rfl,rfl⟩ | ⟨_,hj⟩
    · have hold := h.balance j st hi
      change st₁.inFlight+s.answered j = _
      simp only
      omega
    · exact h.balance j st₁ hj

private theorem Inv.submit {es : List Loop.Event} {s : Node} (h : Inv es s) {i : Nat} {st : Stream} {req : Request}
    (hi : s.streams[i]? = some st) (hr : st.sender = .submitting req) :
    Inv es { s with reqCh := s.reqCh ++ [req], streams := s.streams.set i { st with sender := .checking } } := by
  have hreq := h.own i st req hi hr
  refine ⟨h.inOrder,fun r hmem => ?_,fun j st₁ req' hj hs => ?_,fun j st₁ hj => ?_⟩
  · rw [List.length_set]
    simp only [List.append_assoc, List.mem_append, List.mem_singleton] at hmem
    rcases hmem with hmem | rfl | hmem
    · exact h.known r (List.mem_append_left _ hmem)
    · rw [hreq]
      exact (List.getElem?_eq_some_iff.mp hi).1
    · exact h.known r (List.mem_append_right _ hmem)
  · rcases Machine.getElem?_set_cases hj with ⟨_,rfl⟩ | ⟨_,hj⟩
    · cases hs
    · exact h.own j st₁ req' hj hs
  · change st₁.inFlight+s.answered j = _
    rcases Machine.getElem?_set_cases hj with ⟨rfl,rfl⟩ | ⟨hne,hj⟩
    · have hold := h.balance j st hi
      simp only [Stream.owed, hr] at hold
      simp only [Stream.owed, ofStream_append, ofStream_cons, ofStream_nil, hreq, if_true]
      omega
    · have hold := h.balance j st₁ hj
      simp only [ofStream_append, ofStream_cons, ofStream_nil, hreq, if_neg (Ne.symm hne)]
      omega

private theorem Inv.receive {es : List Loop.Event} {s : Node} (h : Inv es s) {req : Request} {rest : List Request}
    {l : Loop} (hq : s.reqCh = req::rest) (hl : s.loop.step (.receive req) = some l) :
    Inv (es ++ [.receive req]) { s with reqCh := rest, loop := l } where
  inOrder := Loop.step_inOrder h.inOrder hl
  known r hr := by
    have hk := h.known
    rw [hq] at hk
    rw [received_concat] at hr
    simp only [List.mem_append, Loop.Event.request, Option.toList_some, List.mem_singleton] at hr
    refine hk r ?_
    simp only [List.cons_append, List.mem_cons, List.mem_append]
    tauto
  own := h.own
  balance i st hi := by
    have hold := h.balance i st hi
    have ha : l.responses = s.loop.responses := by simpa [Loop.sends] using Loop.step_sends hl
    rw [hq, ofStream_cons] at hold
    simp only [answered, ha, received_concat, ofStream_append, Loop.Event.request, Option.toList_some, ofStream_cons,
      ofStream_nil] at hold ⊢
    omega

private theorem Inv.work {es : List Loop.Event} {s : Node} (h : Inv es s) {e : Loop.Event} {l : Loop}
    (he : internal e = true) (hn : s.loop.sends e = none) (hl : s.loop.step e = some l) :
    Inv (es ++ [e]) { s with loop := l } := by
  have hsame : Loop.received (es ++ [e]) = Loop.received es := by simp [received_concat, internal_request he]
  have ha : l.responses = s.loop.responses := by simpa [hn] using Loop.step_sends hl
  refine ⟨Loop.step_inOrder h.inOrder hl,by rw [hsame]; exact h.known,h.own,fun i st hi => ?_⟩
  have hold := h.balance i st hi
  simpa only [answered, ha, hsame] using hold

private theorem Inv.answer {es : List Loop.Event} {s : Node} (h : Inv es s) {e : Loop.Event} {l : Loop} {req : Request}
    {resp : Response} {st : Stream} (he : internal e = true) (hn : s.loop.sends e = some (req,resp))
    (hl : s.loop.step e = some l) (hi : s.streams[req.responseChan]? = some st) :
    Inv (es ++ [e]) { s with
      loop := l, streams := s.streams.set req.responseChan { st with respCh := st.respCh ++ [resp] } } := by
  have hsame : Loop.received (es ++ [e]) = Loop.received es := by simp [received_concat, internal_request he]
  have ha : l.responses = s.loop.responses ++ [(req,resp)] := by simpa [hn] using Loop.step_sends hl
  refine ⟨Loop.step_inOrder h.inOrder hl,?_,fun j st₁ req' hj hs => ?_,fun j st₁ hj => ?_⟩
  · rw [hsame, List.length_set]
    exact h.known
  · rcases Machine.getElem?_set_cases hj with ⟨rfl,rfl⟩ | ⟨_,hj⟩
    · exact h.own _ st req' hi hs
    · exact h.own j st₁ req' hj hs
  · rcases Machine.getElem?_set_cases hj with ⟨rfl,rfl⟩ | ⟨hne,hj⟩
    · have hold := h.balance _ st hi
      simp only [answered, Stream.owed, ha, hsame, List.map_append, List.map_cons, List.map_nil, ofStream_append, ofStream_cons,
        ofStream_nil, if_true, List.length_append, List.length_singleton] at hold ⊢
      omega
    · have hold := h.balance j st₁ hj
      simp only [answered, ha, hsame, List.map_append, List.map_cons, List.map_nil, ofStream_append, ofStream_cons,
        ofStream_nil, if_neg (Ne.symm hne)] at hold ⊢
      omega

/-- What the loop sees of a step. -/
def loopEvents (s : Node) : Event → List Loop.Event
  | .receive => (s.reqCh.head?.map Loop.Event.receive).toList
  | .loop e => [e]
  | .connect | .stream .. | .recv .. | .submit _ => []

theorem step_inv_events {es : List Loop.Event} {s s' : Node} {e : Event} (h : Inv es s) (hs : s.step e = some s') :
    Inv (es ++ s.loopEvents e) s' := by
  cases step_fires hs with
  | connect =>
    rw [loopEvents, List.append_nil]
    exact h.connect
  | @stream i e st st' hi hst =>
    obtain ⟨hb,hsub,_⟩ := Stream.step_spec hst (h.taken_le hi)
    rw [loopEvents, List.append_nil]
    exact h.update hi hb (fun req hr => h.own i st req hi (hsub req hr))
  | @recv i item vnodeID now st hi hr =>
    rw [loopEvents, List.append_nil]
    refine h.update hi ?_ (fun req hs => ?_)
    · simp only [Stream.owed, hr]
      omega
    · simp only [Sender.submitting.injEq] at hs
      rw [← hs, request_chan]
  | submit hi hr =>
    rw [loopEvents, List.append_nil]
    exact h.submit hi hr
  | receive hq hl =>
    rw [loopEvents, hq]
    exact h.receive hq hl
  | work he hn hl => exact h.work he hn hl
  | answer he hn hl hi => exact h.answer he hn hl hi

theorem step_inv {es : List Loop.Event} {s s' : Node} {e : Event} (h : Inv es s) (hs : s.step e = some s') :
    ∃ es', Inv es' s' := ⟨_,step_inv_events h hs⟩

/-- The loop, or its acknowledgement goroutine, is blocked on the full response channel
of a stream whose receiver is gone. -/
def Wedged (s : Node) : Prop :=
  ∃ (e : Loop.Event) (req : Request) (resp : Response) (st : Stream), s.loop.sends e = some (req,resp) ∧ s.streams[req.responseChan]? = some st ∧
    respChCapacity ≤ st.respCh.length ∧ st.receiver = .exited

/-- A receiver leaves only while no more requests of its stream are in flight than its
channel can hold, and after it has left no request is taken beyond that. -/
def Tame (s : Node) : Event → Prop
  | .stream i e => e.exits = true → ∀ st ∈ s.streams[i]?, st.inFlight ≤ respChCapacity
  | .recv i _ _ _ => ∀ st ∈ s.streams[i]?, st.receiver = .exited → st.inFlight < respChCapacity
  | _ => True

instance (s : Node) : (e : Event) → Decidable (s.Tame e)
  | .stream i e => inferInstanceAs (Decidable (e.exits = true → ∀ st ∈ s.streams[i]?, st.inFlight ≤ respChCapacity))
  | .recv i _ _ _ =>
    inferInstanceAs (Decidable (∀ st ∈ s.streams[i]?, st.receiver = .exited → st.inFlight < respChCapacity))
  | .connect | .submit _ | .receive | .loop _ => isTrue trivial

/-- An abandoned stream has no more in flight than its channel holds. -/
def Bounded (s : Node) : Prop := ∀ st ∈ s.streams, st.receiver = .exited → st.inFlight ≤ respChCapacity

theorem step_bounded {es : List Loop.Event} {s s' : Node} {e : Event} (hv : Inv es s) (h : Bounded s) (hg : s.Tame e)
    (hs : s.step e = some s') : Bounded s' := by
  cases step_fires hs with
  | connect => exact Machine.forall_mem_concat h (by simp [Stream.init])
  | @stream i e st st' hi hst =>
    obtain ⟨_,_,hx,hle⟩ := Stream.step_spec hst (hv.taken_le hi)
    refine Machine.forall_mem_set h (fun hgone => ?_)
    rcases hx hgone with hx | hx
    · exact hle.trans (h st (List.mem_of_getElem? hi) hx)
    · exact hle.trans (hg hx st hi)
  | @recv i item vnodeID now st hi hr => exact Machine.forall_mem_set h (fun hx => hg st hi hx)
  | @submit i st req hi hr => exact Machine.forall_mem_set h (h st (List.mem_of_getElem? hi))
  | receive hq hl => exact h
  | work he hn hl => exact h
  | @answer e l req resp st he hn hl hi => exact Machine.forall_mem_set h (h st (List.mem_of_getElem? hi))

/-- Whoever is blocked holds a request beyond those whose responses fill the channel. -/
theorem Inv.not_wedged {es : List Loop.Event} {s : Node} (h : Inv es s) (hb : Bounded s) : ¬ s.Wedged := by
  rintro ⟨e,req,resp,st,hn,hi,hfull,hx⟩
  obtain ⟨hreq,l,hl⟩ := Loop.sends_step hn
  have hsame : Loop.received (es ++ [e]) = Loop.received es := by simp [received_concat, hreq]
  have ha : l.responses = s.loop.responses ++ [(req,resp)] := by simpa [hn] using Loop.step_sends hl
  have hnext := answered_le (s := { s with loop := l }) (Loop.step_inOrder h.inOrder hl) req.responseChan
  have hbal := h.balance req.responseChan st hi
  have hcap := hb st (List.mem_of_getElem? hi) hx
  simp only [answered, ha, hsame, List.map_append, List.map_cons, List.map_nil, ofStream_append, ofStream_cons, ofStream_nil,
    if_true] at hnext
  simp only [answered, Stream.owed] at hbal
  omega

/-- No client wedges the loop as long as a stream is abandoned only with no more requests
in flight than its response channel holds, and takes none beyond that afterwards. -/
theorem never_wedged (batchSize : Int) (mode : AckMode) (bufferSize : Nat) (old : List Command) (es : List Event)
    (hg : Machine.Meets step Tame (init batchSize mode bufferSize old) es) (s : Node)
    (hr : Machine.run step (init batchSize mode bufferSize old) es = some s) : ¬ s.Wedged := by
  have h : (∃ es, Inv es s) ∧ Bounded s :=
    Machine.run_invariant_of_meets (I := fun s => (∃ es, Inv es s) ∧ Bounded s)
      (fun _ _ _ ⟨⟨_,hi⟩,hb⟩ hg hs => ⟨step_inv hi hs,step_bounded hi hb hg hs⟩)
      ⟨⟨[],init_inv batchSize mode bufferSize old⟩,by simp [Bounded, init]⟩ hg hr
  obtain ⟨⟨_,hi⟩,hb⟩ := h
  exact hi.not_wedged hb

def readItem : StreamReq := ⟨.get,.singleton 107,nilValue⟩
def readReq : Request := ⟨opGet,.singleton 107,nilValue,7,0,0⟩

/-- The client of a stream sends one read. -/
def readOnce : List Event := [.stream 0 .check,.recv 0 readItem 7 0,.submit 0]

/-- The client disconnects with one read in flight, and the read is answered after that. -/
theorem never_wedged_sample :
    ∃ s, Machine.run step (init 1 .afterFlush 64 [])
        ([.connect] ++ readOnce ++ [.stream 0 .disconnect,.stream 0 .done,.receive,.loop .advance]) = some s ∧
      s.streams.map Stream.receiver = [.exited] ∧ s.answered 0 = 1 ∧ ¬ s.Wedged := by
  have hrun : (Machine.run step (init 1 .afterFlush 64 [])
      ([.connect] ++ readOnce ++ [.stream 0 .disconnect,.stream 0 .done,.receive,.loop .advance])).map
        (fun s => (s.streams.map Stream.receiver,s.answered 0)) = some ([.exited],1) := by decide +kernel
  obtain ⟨s,hs,hf⟩ := Option.map_eq_some_iff.mp hrun
  simp only [Prod.mk.injEq] at hf
  exact ⟨s,hs,hf.1,hf.2,never_wedged 1 .afterFlush 64 [] _ (by decide +kernel) s hs⟩

def readResp : Response := getResponse (newStore.applyAll []) readReq

/-- A stream that has sent nothing but reads, with some of them waiting for the loop and
the answers to the others in the response channel. -/
def flooded (queued done : Nat) (receiver : Receiver) (ctxDone : Bool) : Node where
  versionCounter := 0
  reqCh := List.replicate queued readReq
  loop := { EventLoop.init 1 .afterFlush 64 [] with responses := List.replicate done (readReq,readResp) }
  streams := [⟨List.replicate done readResp,queued+done,ctxDone,false,receiver,.checking⟩]

private theorem run_readOnce {k : Nat} (hk : k < requestChannelSize) :
    Machine.run step (flooded k 0 .selecting false) readOnce = some (flooded (k+1) 0 .selecting false) := by
  have hop : ¬ (opGet = opPut ∨ opGet = opDelete) := by decide
  simp [Machine.run, readOnce, step, flooded, Stream.step, request, readItem, readReq, coreOp, hop, hk, List.replicate_succ']

private theorem run_reads (k : Nat) (hk : k ≤ requestChannelSize) :
    Machine.run step (flooded 0 0 .selecting false) (List.replicate k readOnce).flatten =
      some (flooded k 0 .selecting false) := by
  induction k with
  | zero => rfl
  | succ k ih =>
    rw [List.replicate_succ', List.flatten_append, List.flatten_singleton]
    exact Machine.run_append.mpr ⟨_,ih (by omega),run_readOnce (by omega)⟩

/-- The loop has taken a read and is about to send the answer. -/
def answering (queued done : Nat) : Node :=
  { flooded (queued+1) done .exited true with
    reqCh := List.replicate queued readReq
    loop := { (flooded queued done .exited true).loop with phase := .answeringGet readReq readResp } }

private theorem step_receive (k j : Nat) : step (flooded (k+1) j .exited true) .receive = some (answering k j) := rfl

/-- The loop takes a read and answers it. -/
def answerOnce : List Event := [.receive,.loop .advance]

private theorem run_answerOnce {k j : Nat} (hj : j < respChCapacity) :
    Machine.run step (flooded (k+1) j .exited true) answerOnce = some (flooded k (j+1) .exited true) := by
  have hchan : readReq.responseChan = 0 := rfl
  refine Machine.run_cons.mpr ⟨answering k j,step_receive k j,Machine.run_cons.mpr ⟨_,?_,rfl⟩⟩
  simp [step, answering, flooded, Loop.step, Loop.advance, Loop.sends, internal, EventLoop.init, hchan, hj,
    List.replicate_succ']
  omega

private theorem run_answers (k j : Nat) (hj : j ≤ respChCapacity) :
    Machine.run step (flooded (k+j) 0 .exited true) (List.replicate j answerOnce).flatten =
      some (flooded k j .exited true) := by
  induction j generalizing k with
  | zero => rfl
  | succ j ih =>
    rw [List.replicate_succ', List.flatten_append, List.flatten_singleton]
    refine Machine.run_append.mpr ⟨flooded (k+1) j .exited true,?_,run_answerOnce (by omega)⟩
    rw [show k+(j+1) = k+1+j by omega]
    exact ih (k+1) (by omega)

private theorem answering_wedged (k : Nat) {j : Nat} (hj : respChCapacity ≤ j) :
    (answering k j).Wedged ∧ step (answering k j) (.loop .advance) = none := by
  have hchan : readReq.responseChan = 0 := rfl
  refine ⟨⟨.advance,readReq,readResp,_,rfl,rfl,?_,rfl⟩,?_⟩
  · simpa using hj
  · simp [step, answering, flooded, Loop.step, Loop.advance, Loop.sends, internal, hchan, Nat.not_lt.mpr hj]

/-- A client sends one read more than its response channel can hold, reads nothing and
disconnects. The receiver leaves, the loop fills the channel and is stuck with the last
answer for ever. -/
theorem flood_wedges :
    ∃ s, Machine.run step (init 1 .afterFlush 64 [])
        ([.connect] ++ (List.replicate 10001 readOnce).flatten ++ [.stream 0 .disconnect,.stream 0 .done] ++
          (List.replicate 10000 answerOnce).flatten ++ [.receive]) = some s ∧
      s.Wedged ∧ s.step (.loop .advance) = none := by
  have hreads := run_reads 10001 (by decide)
  have hleave : Machine.run step (flooded 10001 0 .selecting false) [.stream 0 .disconnect,.stream 0 .done] =
      some (flooded (1+10000) 0 .exited true) := rfl
  have hanswers := run_answers 1 10000 (by decide)
  have hlast : Machine.run step (flooded 1 10000 .exited true) [.receive] = some (answering 0 10000) :=
    Machine.run_cons.mpr ⟨_,step_receive 0 10000,rfl⟩
  have hconnect : Machine.run step (init 1 .afterFlush 64 []) [.connect] = some (flooded 0 0 .selecting false) := rfl
  refine ⟨answering 0 10000,?_,answering_wedged 0 (Nat.le_refl _)⟩
  exact Machine.run_append.mpr ⟨_,Machine.run_append.mpr ⟨_,Machine.run_append.mpr ⟨_,Machine.run_append.mpr
    ⟨_,hconnect,hreads⟩,hleave⟩,hanswers⟩,hlast⟩

end Node
end StreamKV
end Nawst.Core
