import Nawst.Core.Recovery
import Nawst.Core.StreamKV

/-! The calls in front of the loop. A call gives its requests to the loop one by one, each
with a response channel of its own, and then collects the responses one by one. A put, a
get or a delete is a call of one request, a replicated batch a call of many. The context of
a call may end at any time. -/
namespace Nawst.Core
open Lib Wal EventLoop

section Texts

/-- An I/O error has a text. -/
def EventLoop.Loop.Event.Worded : Loop.Event → Prop
  | .writer (.writeFails e) | .writer (.syncFails e) => e ≠ ""
  | _ => True

instance : (e : Loop.Event) → Decidable e.Worded
  | .writer (.writeFails e) | .writer (.syncFails e) => inferInstanceAs (Decidable (e ≠ ""))
  | .writer (.take _) | .writer .next | .writer (.write _) | .writer .wrote | .writer .sync | .writer .resume
  | .writer (.observe _) | .writer .publish | .writer .close | .receive _ | .reqChClosed | .tick | .advance | .takeAck
  | .wake | .respond | .closeWal | .deleteVNodeData _ => isTrue trivial

/-- So has every error that the loop has met or answered with. -/
structure EventLoop.Loop.Worded (l : Loop) : Prop where
  writer : l.writer.err ≠ some ""
  phase : match l.phase with
    | .answeringGet _ resp => resp.err ≠ some ""
    | .fastAnswering _ err => err ≠ some ""
    | _ => True
  acker : match l.acker with
    | .responding _ err => err ≠ some ""
    | _ => True
  responses : ∀ p ∈ l.responses, p.2.err ≠ some ""

private theorem writer_err {w w' : Writer} {e : Writer.Event} (he : Loop.Event.Worded (.writer e)) (h : w.err ≠ some "")
    (hs : w.step e = some w') : w'.err ≠ some "" := by
  have hfail (next : AfterFlush) {x : Err} (hx : x ≠ "") : (w.fail next x).err ≠ some "" := by
    rcases w.fail_eq next x with heq | heq <;> rw [heq]
    · exact h
    · exact fun hnone => hx (Option.some.inj hnone)
  cases e with
  | writeFails x =>
    cases Writer.step_fires hs with
    | writeFails _ _ => exact hfail _ he
  | syncFails x =>
    cases Writer.step_fires hs with
    | syncFails _ _ => exact hfail _ he
    | lastSyncFails _ _ => exact h
  | _ => rwa [(Writer.step_framed hs).err.resolve_right (by simp [Writer.Fails, Writer.Event.isIOError])]

private theorem getResponse_err (store : Store) (req : Request) : (getResponse store req).err ≠ some "" := by
  unfold getResponse Store.getWithVersion
  cases store.storage.lookup req.key with
  | none => simp [errKeyNotFound]
  | some val => by_cases h : (store.metaOf req.key).tombstone <;> simp [h, errKeyNotFound]

private theorem apply_err (store : Store) (cmd : Command) : (store.apply cmd).2 ≠ some "" := by
  rcases Store.apply_cases store cmd with ⟨_,he⟩ | ⟨_,_,he⟩ | ⟨_,_,he⟩ | ⟨_,_,_,he⟩ <;> rw [he] <;>
    simp [errInvalidOperation]

theorem EventLoop.Loop.init_worded (batchSize : Int) (mode : AckMode) (bufferSize : Nat) (old : List Command) :
    (EventLoop.init batchSize mode bufferSize old).Worded :=
  ⟨nofun,trivial,trivial,by simp [EventLoop.init]⟩

theorem EventLoop.Loop.step_worded {l l' : Loop} {e : Loop.Event} (h : l.Worded) (he : e.Worded) (hs : l.step e = some l') :
    l'.Worded := by
  cases Loop.step_fires hs with
  | get req _ _ => exact ⟨h.writer,getResponse_err l.store req,h.acker,h.responses⟩
  | @answerGet req resp hp =>
    have hphase := h.phase
    rw [hp] at hphase
    exact ⟨h.writer,trivial,h.acker,Machine.forall_mem_concat h.responses hphase⟩
  | fastApply _ => exact ⟨h.writer,apply_err l.store _,h.acker,h.responses⟩
  | @fastAnswer req err hp =>
    have hphase := h.phase
    rw [hp] at hphase
    exact ⟨h.writer,trivial,h.acker,Machine.forall_mem_concat h.responses hphase⟩
  | @wake a err ha hw =>
    refine ⟨h.writer,h.phase,?_,h.responses⟩
    simp only [Writer.wait] at hw
    split at hw
    · cases hw
      exact (Option.some_ne_none _).symm
    · split at hw
      · cases hw
        exact h.writer
      · cases hw
  | done | takeAck => exact ⟨h.writer,h.phase,trivial,h.responses⟩
  | @respond r rs err ha =>
    have hacker := h.acker
    rw [ha] at hacker
    exact ⟨h.writer,h.phase,hacker,Machine.forall_mem_concat h.responses hacker⟩
  | writer _ hw => exact ⟨writer_err he h.writer hw,h.phase,h.acker,h.responses⟩
  | idle _ _ | handOff _ =>
    refine ⟨h.writer,?_,h.acker,h.responses⟩
    cases hc : l.closing <;> simp [Loop.afterBatch, hc]
  | collect | closeWal | deleteVNodeData => exact ⟨h.writer,h.phase,h.acker,h.responses⟩
  | fast | fill | leave | lastBatch | batch | number | apply | append | fastAppend =>
    exact ⟨h.writer,trivial,h.acker,h.responses⟩

end Texts

namespace Calls

inductive Phase where
  | submitting
  | collecting (n : Nat)
  | returned (err : Option Err)
  deriving DecidableEq

/-- A call: its requests, the error it returns when it is given up, and how many of the
requests the loop was given. -/
structure Call where
  reqs : List Request
  cancelled : Err
  submitted : Nat
  ctxDone : Bool
  phase : Phase
  deriving DecidableEq

namespace Call

def init (reqs : List Request) (cancelled : Err) : Call := ⟨reqs,cancelled,0,false,.submitting⟩

/-- The requests that the loop was given. -/
def given (c : Call) : List Request := c.reqs.take c.submitted

/-- The call is at one of its selects. -/
def selecting (c : Call) : Bool :=
  match c.phase with
  | .submitting => c.submitted < c.reqs.length
  | .collecting n => n < c.reqs.length
  | .returned _ => false

/-- The first error ends the call. -/
def collected (c : Call) (n : Nat) (resp : Response) : Call :=
  { c with phase := match resp.err with
    | none => .collecting (n+1)
    | some e => .returned (some e) }

end Call

/-- A node with its calls. What was given to the loop is recorded in order, and so are the
channels from which a response was taken. -/
structure Node where
  loop : Loop
  reqCh : List Request
  nextChan : Nat
  calls : List Call
  submitted : List Request
  taken : List Nat
  deriving DecidableEq

namespace Node

def init (batchSize : Int) (mode : AckMode) (bufferSize : Nat) (old : List Command) : Node :=
  ⟨EventLoop.init batchSize mode bufferSize old,[],0,[],[],[]⟩

/-- The responses that wait in a channel. -/
def chan (s : Node) (c : Nat) : List Response :=
  ((s.loop.responses.filter (fun p => p.1.responseChan = c)).map Prod.snd).drop (s.taken.count c)

def responseChanCapacity : Nat := 1

inductive Event where
  | call (reqs : List Request) (cancelled : Err)
  | submit (i : Nat)
  | collect (i : Nat)
  | disconnect (i : Nat)
  | cancel (i : Nat)
  | receive
  | loop (e : Loop.Event)
  deriving DecidableEq

/-- Sends into channels wait for room: requests for the loop and responses alike. -/
def step (s : Node) : Event → Option Node
  | .call reqs cancelled =>
    if reqs.map Request.responseChan = List.range' s.nextChan reqs.length then
      some { s with nextChan := s.nextChan+reqs.length, calls := s.calls ++ [.init reqs cancelled] }
    else none
  | .submit i => do
    let c ← s.calls[i]?
    if c.phase = .submitting then
      match c.reqs[c.submitted]? with
      | some r =>
        if s.reqCh.length < StreamKV.requestChannelSize then
          some { s with
            reqCh := s.reqCh ++ [r]
            submitted := s.submitted ++ [r]
            calls := s.calls.set i { c with submitted := c.submitted+1 } }
        else none
      | none => some { s with calls := s.calls.set i { c with phase := .collecting 0 } }
    else none
  | .collect i => do
    let c ← s.calls[i]?
    match c.phase with
    | .collecting n =>
      match c.reqs[n]? with
      | some r =>
        let resp ← (s.chan r.responseChan).head?
        some { s with taken := s.taken ++ [r.responseChan], calls := s.calls.set i (c.collected n resp) }
      | none => some { s with calls := s.calls.set i { c with phase := .returned none } }
    | _ => none
  | .disconnect i => do
    let c ← s.calls[i]?
    some { s with calls := s.calls.set i { c with ctxDone := true } }
  | .cancel i => do
    let c ← s.calls[i]?
    if c.ctxDone && c.selecting then
      some { s with calls := s.calls.set i { c with phase := .returned (some c.cancelled) } }
    else none
  | .receive => match s.reqCh with
    | req::rest => (s.loop.step (.receive req)).map (fun l => { s with reqCh := rest, loop := l })
    | [] => none
  | .loop e => do
    let l ← s.loop.step e
    if StreamKV.internal e then
      match s.loop.sends e with
      | none => some { s with loop := l }
      | some (req,_) =>
        if (s.chan req.responseChan).length < responseChanCapacity then some { s with loop := l } else none
    else none

/-- Everything a step can do, one rule for each branch. -/
inductive Fires (s : Node) : Event → Node → Prop where
  | call {reqs : List Request} (cancelled : Err)
      (hc : reqs.map Request.responseChan = List.range' s.nextChan reqs.length) :
      Fires s (.call reqs cancelled)
        { s with nextChan := s.nextChan+reqs.length, calls := s.calls ++ [.init reqs cancelled] }
  | submit {i : Nat} {c : Call} {r : Request} (hi : s.calls[i]? = some c) (hp : c.phase = .submitting)
      (hr : c.reqs[c.submitted]? = some r) :
      Fires s (.submit i) { s with
        reqCh := s.reqCh ++ [r]
        submitted := s.submitted ++ [r]
        calls := s.calls.set i { c with submitted := c.submitted+1 } }
  | submitted {i : Nat} {c : Call} (hi : s.calls[i]? = some c) (hp : c.phase = .submitting)
      (hr : c.reqs[c.submitted]? = none) :
      Fires s (.submit i) { s with calls := s.calls.set i { c with phase := .collecting 0 } }
  | collect {i n : Nat} {c : Call} {r : Request} {resp : Response} (hi : s.calls[i]? = some c)
      (hp : c.phase = .collecting n) (hr : c.reqs[n]? = some r) (hc : (s.chan r.responseChan).head? = some resp) :
      Fires s (.collect i) { s with
        taken := s.taken ++ [r.responseChan], calls := s.calls.set i (c.collected n resp) }
  | collected {i n : Nat} {c : Call} (hi : s.calls[i]? = some c) (hp : c.phase = .collecting n) (hr : c.reqs[n]? = none) :
      Fires s (.collect i) { s with calls := s.calls.set i { c with phase := .returned none } }
  | disconnect {i : Nat} {c : Call} (hi : s.calls[i]? = some c) :
      Fires s (.disconnect i) { s with calls := s.calls.set i { c with ctxDone := true } }
  | cancel {i : Nat} {c : Call} (hi : s.calls[i]? = some c) (hw : c.selecting = true) :
      Fires s (.cancel i) { s with calls := s.calls.set i { c with phase := .returned (some c.cancelled) } }
  | receive {req : Request} {rest : List Request} {l : Loop} (hq : s.reqCh = req::rest)
      (hl : s.loop.step (.receive req) = some l) : Fires s .receive { s with reqCh := rest, loop := l }
  | loop {e : Loop.Event} {l : Loop} (he : StreamKV.internal e = true) (hl : s.loop.step e = some l) :
      Fires s (.loop e) { s with loop := l }

theorem step_fires {s s' : Node} {e : Event} (hs : s.step e = some s') : Fires s e s' := by
  cases e with
  | call reqs cancelled =>
    simp only [step, Option.ite_none_right_eq_some, Option.some.injEq] at hs
    obtain ⟨hc,rfl⟩ := hs
    exact .call cancelled hc
  | submit i =>
    simp only [step, Option.bind_eq_bind, Option.bind_eq_some_iff, Option.ite_none_right_eq_some] at hs
    obtain ⟨c,hi,hp,hs⟩ := hs
    split at hs
    · simp only [Option.ite_none_right_eq_some, Option.some.injEq] at hs
      obtain ⟨_,rfl⟩ := hs
      exact .submit hi hp ‹_›
    · cases hs
      exact .submitted hi hp ‹_›
  | collect i =>
    simp only [step, Option.bind_eq_bind, Option.bind_eq_some_iff] at hs
    obtain ⟨c,hi,hs⟩ := hs
    split at hs
    · split at hs
      · simp only [Option.bind_eq_some_iff, Option.some.injEq] at hs
        obtain ⟨resp,hc,rfl⟩ := hs
        exact .collect hi ‹_› ‹_› hc
      · cases hs
        exact .collected hi ‹_› ‹_›
    · cases hs
  | disconnect i =>
    simp only [step, Option.bind_eq_bind, Option.bind_eq_some_iff, Option.some.injEq] at hs
    obtain ⟨c,hi,rfl⟩ := hs
    exact .disconnect hi
  | cancel i =>
    simp only [step, Option.bind_eq_bind, Option.bind_eq_some_iff, Option.ite_none_right_eq_some, Bool.and_eq_true,
      Option.some.injEq] at hs
    obtain ⟨c,hi,⟨_,hw⟩,rfl⟩ := hs
    exact .cancel hi hw
  | receive =>
    simp only [step] at hs
    split at hs
    · obtain ⟨l,hl,rfl⟩ := Option.map_eq_some_iff.mp hs
      exact .receive ‹_› hl
    · cases hs
  | loop e =>
    simp only [step, Option.bind_eq_bind, Option.bind_eq_some_iff, Option.ite_none_right_eq_some] at hs
    obtain ⟨l,hl,he,hs⟩ := hs
    split at hs
    · cases hs
      exact .loop he hl
    · simp only [Option.ite_none_right_eq_some, Option.some.injEq] at hs
      obtain ⟨_,rfl⟩ := hs
      exact .loop he hl

end Node

/-- The requests were all answered without error. -/
def Ok (responses : List (Request × Response)) (rs : List Request) : Prop :=
  ∀ r ∈ rs, ∃ resp, (r,resp) ∈ responses ∧ resp.err = none

namespace Call

def chans (c : Call) : List Nat := c.reqs.map Request.responseChan

/-- The requests whose responses the call may still take. -/
def uncollected (c : Call) : List Request :=
  match c.phase with
  | .submitting => c.reqs
  | .collecting n => c.reqs.drop n
  | .returned _ => []

/-- What a call has found out when it is in a phase. -/
def Found (responses : List (Request × Response)) (c : Call) : Prop :=
  match c.phase with
  | .submitting => c.submitted ≤ c.reqs.length
  | .collecting n => c.submitted = c.reqs.length ∧ Ok responses (c.reqs.take n)
  | .returned none => c.submitted = c.reqs.length ∧ Ok responses c.reqs
  | .returned (some e) => e = c.cancelled ∨ ∃ p ∈ responses, p.1 ∈ c.reqs ∧ p.2.err = some e

structure Sound (responses : List (Request × Response)) (taken : List Nat) (c : Call) : Prop where
  found : c.Found responses
  untouched : ∀ r ∈ c.uncollected, r.responseChan ∉ taken

theorem uncollected_subset (c : Call) : c.uncollected ⊆ c.reqs := by
  unfold uncollected
  split
  · exact fun _ h => h
  · exact List.drop_subset _ _
  · exact List.nil_subset _

theorem Sound.mono {responses responses' : List (Request × Response)} {taken : List Nat} {c : Call}
    (h : c.Sound responses taken) (hsub : responses ⊆ responses') : c.Sound responses' taken := by
  have hok {rs : List Request} (hrs : Ok responses rs) : Ok responses' rs := by
    intro r hr
    obtain ⟨resp,hmem,herr⟩ := hrs r hr
    exact ⟨resp,hsub hmem,herr⟩
  refine ⟨?_,h.untouched⟩
  have hf := h.found
  unfold Found at hf ⊢
  split at hf
  · exact hf
  · exact ⟨hf.1,hok hf.2⟩
  · exact ⟨hf.1,hok hf.2⟩
  · rcases hf with hf | ⟨p,hp,hf⟩
    · exact .inl hf
    · exact .inr ⟨p,hsub hp,hf⟩

/-- A response is taken: without an error the call goes on with the next request. -/
theorem Sound.collected {responses : List (Request × Response)} {taken : List Nat} {c : Call} {n : Nat} {r : Request}
    {resp : Response} (h : c.Sound responses taken) (hp : c.phase = .collecting n) (hr : c.reqs[n]? = some r)
    (hresp : (r,resp) ∈ responses) (hnodup : c.chans.Nodup) :
    (c.collected n resp).Sound responses (taken ++ [r.responseChan]) := by
  have hfound := h.found
  simp only [Found, hp] at hfound
  cases herr : resp.err with
  | some e =>
    refine ⟨?_,by simp [Call.collected, uncollected, herr]⟩
    simp only [Found, Call.collected, herr]
    exact .inr ⟨(r,resp),hresp,List.mem_of_getElem? hr,herr⟩
  | none =>
    refine ⟨?_,fun x hx hmem => ?_⟩
    · simp only [Found, Call.collected, herr]
      refine ⟨hfound.1,?_⟩
      rw [List.take_add_one, hr, Option.toList_some]
      exact Machine.forall_mem_concat hfound.2 ⟨resp,hresp,herr⟩
    · simp only [uncollected, Call.collected, herr] at hx
      rcases List.mem_append.mp hmem with hmem | hmem
      · refine h.untouched x ?_ hmem
        rw [uncollected, hp]
        exact List.drop_subset_drop_left c.reqs (Nat.le_succ n) hx
      · -- The channels of the later requests are others.
        have hsplit : c.chans = (c.reqs.take n).map Request.responseChan ++
            r.responseChan::(c.reqs.drop (n+1)).map Request.responseChan := by
          obtain ⟨hlt,hget⟩ := List.getElem?_eq_some_iff.mp hr
          rw [← List.map_cons, ← List.map_append, ← hget, List.getElem_cons_drop, List.take_append_drop, chans]
        rw [hsplit, List.nodup_append, List.nodup_cons] at hnodup
        exact hnodup.2.1.1 (List.mem_singleton.mp hmem ▸ List.mem_map_of_mem hx)

/-- A call keeps its requests, and its result once it has one. -/
structure Continues (c d : Call) : Prop where
  reqs : d.reqs = c.reqs
  cancelled : d.cancelled = c.cancelled
  returned : ∀ err, c.phase = .returned err → d.phase = .returned err

theorem Continues.refl (c : Call) : c.Continues c := ⟨rfl,rfl,fun _ h => h⟩

end Call

namespace Node

theorem step_continues {s s' : Node} {e : Event} (hs : s.step e = some s') {j : Nat} {c : Call} (hj : s.calls[j]? = some c) :
    ∃ d, s'.calls[j]? = some d ∧ c.Continues d := by
  have hset {i : Nat} {a b : Call} (hi : s.calls[i]? = some a) (hab : a.Continues b) :
      ∃ d, (s.calls.set i b)[j]? = some d ∧ c.Continues d := by
    by_cases hij : i = j
    · subst hij
      cases hi.symm.trans hj
      exact ⟨b,List.getElem?_set_self (List.getElem?_eq_some_iff.mp hi).1,hab⟩
    · exact ⟨c,(List.getElem?_set_ne hij).trans hj,.refl c⟩
  cases step_fires hs with
  | call => exact ⟨c,(List.getElem?_append_left (List.getElem?_eq_some_iff.mp hj).1).trans hj,.refl c⟩
  | submit hi hp _ | submitted hi hp _ | collect hi hp _ _ | collected hi hp _ =>
    exact hset hi ⟨rfl,rfl,fun err h => nomatch hp.symm.trans h⟩
  | disconnect hi => exact hset hi ⟨rfl,rfl,fun _ h => h⟩
  | cancel hi hw =>
    refine hset hi ⟨rfl,rfl,fun err h => ?_⟩
    simp [Call.selecting, h] at hw
  | receive | loop => exact ⟨c,hj,.refl c⟩

/-- What holds of the node after its loop has gone through the events. Every request has
its own channel, and what the loop was given is in the channel or was received. -/
structure Inv (start : Loop) (es : List Loop.Event) (s : Node) : Prop where
  run : Machine.run Loop.step start es = some s.loop
  queue : Loop.received es ++ s.reqCh = s.submitted
  chans : s.calls.flatMap Call.chans = List.range s.nextChan
  given : s.submitted.Perm (s.calls.flatMap Call.given)
  known : ∀ c ∈ s.taken, c < s.nextChan
  calls : ∀ c ∈ s.calls, c.Sound s.loop.responses s.taken

section Inv
variable {start : Loop} {es : List Loop.Event} {s : Node}

theorem init_inv (batchSize : Int) (mode : AckMode) (bufferSize : Nat) (old : List Command) :
    Inv (EventLoop.init batchSize mode bufferSize old) [] (init batchSize mode bufferSize old) where
  run := rfl
  queue := rfl
  chans := rfl
  given := .refl _
  known := by simp [init]
  calls := by simp [init]

/-- No other call has a channel of this one. -/
private theorem foreign_chan {front back : List Call} {c d : Call} (h : ((front ++ c::back).flatMap Call.chans).Nodup)
    (hd : d ∈ front ∨ d ∈ back) {x : Nat} (hx : x ∈ c.chans) : x ∉ d.chans := by
  simp only [List.flatMap_append, List.flatMap_cons, List.nodup_append, List.mem_append, List.mem_flatMap] at h
  obtain ⟨_,⟨_,_,hback⟩,hfront⟩ := h
  intro hxd
  rcases hd with hd | hd
  · exact hfront x ⟨d,hd,hxd⟩ x (.inl hx) rfl
  · exact hback x hx x ⟨d,hd,hxd⟩ rfl

private theorem own_chan {front back : List Call} {c : Call} (h : ((front ++ c::back).flatMap Call.chans).Nodup) :
    c.chans.Nodup := by
  simp only [List.flatMap_append, List.flatMap_cons, List.nodup_append] at h
  exact h.2.1.1

theorem Inv.chans_nodup (h : Inv start es s) : (s.calls.flatMap Call.chans).Nodup := h.chans ▸ List.nodup_range

/-- Two requests of calls with one channel are one. -/
theorem Inv.eq_of_chan (h : Inv start es s) {r r' : Request} (hr : r ∈ s.submitted) (hr' : r' ∈ s.submitted)
    (hc : r.responseChan = r'.responseChan) : r = r' := by
  have hsub {x : Request} (hx : x ∈ s.submitted) : x ∈ s.calls.flatMap Call.reqs := by
    obtain ⟨c,hmem,hx⟩ := List.mem_flatMap.mp (h.given.subset hx)
    exact List.mem_flatMap.mpr ⟨c,hmem,List.take_subset _ _ hx⟩
  have hnodup : ((s.calls.flatMap Call.reqs).map Request.responseChan).Nodup := by
    rw [List.map_flatMap]
    exact h.chans_nodup
  exact List.inj_on_of_nodup_map hnodup (hsub hr) (hsub hr') hc

/-- What the loop was given has distinct channels. -/
theorem Inv.submitted_nodup (h : Inv start es s) : (s.submitted.map Request.responseChan).Nodup := by
  have hsub : ((s.calls.flatMap Call.given).map Request.responseChan).Sublist (s.calls.flatMap Call.chans) := by
    rw [List.map_flatMap]
    exact List.Sublist.flatMap_right s.calls (fun c _ => (List.take_sublist _ _).map _)
  exact (h.given.map _).nodup_iff.mpr (hsub.nodup h.chans_nodup)

/-- So no channel is sent to twice. -/
theorem Inv.responses_nodup (h : Inv start es s) (horder : Loop.InOrder es s.loop) :
    (s.loop.responses.map (fun p => p.1.responseChan)).Nodup := by
  have hsub : ((s.loop.responses.map Prod.fst).map Request.responseChan).Sublist
      ((s.loop.responses.map Prod.fst ++ s.loop.unanswered).map Request.responseChan) :=
    (List.sublist_append_left _ _).map _
  have hreceived : ((Loop.received es).map Request.responseChan).Nodup := by
    refine (List.Sublist.map _ ?_).nodup h.submitted_nodup
    rw [← h.queue]
    exact List.sublist_append_left _ _
  have hnodup := hsub.nodup ((horder.accounted.map _).nodup_iff.mpr hreceived)
  rwa [List.map_map] at hnodup

/-- Calls that keep their requests and what they have given to the loop. -/
theorem Inv.set_call (h : Inv start es s) {i : Nat} {c c' : Call} (hi : s.calls[i]? = some c) (hr : c'.reqs = c.reqs)
    (hs : c'.submitted = c.submitted) (hc : c'.Sound s.loop.responses s.taken) :
    Inv start es { s with calls := s.calls.set i c' } := by
  obtain ⟨front,back,hcalls,hset⟩ := Machine.split_of_getElem? hi
  have hchans : c'.chans = c.chans := by rw [Call.chans, hr, Call.chans]
  have hgiven : c'.given = c.given := by rw [Call.given, hr, hs, Call.given]
  refine { h with chans := ?_, given := ?_, calls := Machine.forall_mem_set h.calls hc }
  · rw [hset, ← h.chans, hcalls]
    simp [hchans]
  · refine h.given.trans ?_
    rw [hset, hcalls]
    simp [hgiven]

theorem Inv.call (h : Inv start es s) {reqs : List Request} (cancelled : Err)
    (hc : reqs.map Request.responseChan = List.range' s.nextChan reqs.length) :
    Inv start es { s with nextChan := s.nextChan+reqs.length, calls := s.calls ++ [.init reqs cancelled] } where
  run := h.run
  queue := h.queue
  chans := by
    have hnew : (Call.init reqs cancelled).chans = List.range' s.nextChan reqs.length := hc
    rw [List.flatMap_append, h.chans, List.flatMap_singleton, hnew, List.range_eq_range', List.range_eq_range']
    simpa using List.range'_append_1 (s := 0) (m := s.nextChan) (n := reqs.length)
  given := by simpa [Call.given, Call.init] using h.given
  known c hmem := Nat.lt_add_right _ (h.known c hmem)
  calls := by
    refine Machine.forall_mem_concat h.calls ⟨Nat.zero_le _,fun r hr hmem => ?_⟩
    -- The channels of the new call are above those in use.
    have hlt := h.known _ hmem
    have hge := List.mem_range'_1.mp (hc ▸ List.mem_map_of_mem hr)
    omega

theorem Inv.submit (h : Inv start es s) {i : Nat} {c : Call} {r : Request} (hi : s.calls[i]? = some c)
    (hp : c.phase = .submitting) (hr : c.reqs[c.submitted]? = some r) : Inv start es { s with
      reqCh := s.reqCh ++ [r]
      submitted := s.submitted ++ [r]
      calls := s.calls.set i { c with submitted := c.submitted+1 } } := by
  obtain ⟨front,back,hcalls,hset⟩ := Machine.split_of_getElem? hi
  have hgiven : ({ c with submitted := c.submitted+1 } : Call).given = c.given ++ [r] := by
    rw [Call.given, Call.given, List.take_add_one, hr, Option.toList_some]
  have hsound := h.calls c (List.mem_of_getElem? hi)
  refine ⟨h.run,?_,?_,?_,h.known,Machine.forall_mem_set h.calls ⟨?_,?_⟩⟩
  · rw [← List.append_assoc, h.queue]
  · rw [hset, ← h.chans, hcalls]
    simp [Call.chans]
  · rw [hset, List.perm_iff_count]
    intro x
    have hcount := h.given.count_eq x
    rw [hcalls] at hcount
    simp only [List.flatMap_append, List.flatMap_cons, List.count_append, hgiven] at hcount ⊢
    omega
  · simp only [Call.Found, hp]
    exact (List.getElem?_eq_some_iff.mp hr).1
  · simpa [Call.uncollected, hp] using hsound.untouched

/-- What is at the head of a channel is a response to the request of the channel. -/
theorem Inv.mem_of_chan (h : Inv start es s) (horder : Loop.InOrder es s.loop) {r : Request} (hr : r ∈ s.submitted)
    {resp : Response} (hc : (s.chan r.responseChan).head? = some resp) : (r,resp) ∈ s.loop.responses := by
  have hmem := List.drop_subset _ _ (List.mem_of_head? hc)
  obtain ⟨p,hp,rfl⟩ := List.mem_map.mp hmem
  obtain ⟨hp,hchan⟩ := List.mem_filter.mp hp
  have hreceived : p.1 ∈ s.submitted := by
    rw [← h.queue]
    exact List.mem_append_left _ (horder.accounted.subset (List.mem_append_left _ (List.mem_map_of_mem hp)))
  rw [h.eq_of_chan hr hreceived (Eq.symm (by simpa using hchan))]
  exact hp

theorem Inv.given_mem (h : Inv start es s) {c : Call} (hc : c ∈ s.calls) {r : Request} (hr : r ∈ c.reqs)
    (hs : c.submitted = c.reqs.length) : r ∈ s.submitted := by
  refine h.given.symm.subset (List.mem_flatMap.mpr ⟨c,hc,?_⟩)
  rwa [Call.given, hs, List.take_length]

theorem Inv.collect (h : Inv start es s) (horder : Loop.InOrder es s.loop) {i n : Nat} {c : Call} {r : Request}
    {resp : Response} (hi : s.calls[i]? = some c) (hp : c.phase = .collecting n) (hr : c.reqs[n]? = some r)
    (hc : (s.chan r.responseChan).head? = some resp) : Inv start es { s with
      taken := s.taken ++ [r.responseChan], calls := s.calls.set i (c.collected n resp) } := by
  have hmem := List.mem_of_getElem? hi
  have hrmem := List.mem_of_getElem? hr
  have hsound := h.calls c hmem
  have hfound := hsound.found
  simp only [Call.Found, hp] at hfound
  have hresp := h.mem_of_chan horder (h.given_mem hmem hrmem hfound.1) hc
  obtain ⟨front,back,hcalls,hset⟩ := Machine.split_of_getElem? hi
  have hnodup := h.chans_nodup
  rw [hcalls] at hnodup
  have hrchan : r.responseChan ∈ c.chans := List.mem_map_of_mem hrmem
  refine ⟨h.run,h.queue,?_,?_,?_,?_⟩
  · rw [hset, ← h.chans, hcalls]
    simp [Call.chans, Call.collected]
  · refine h.given.trans ?_
    rw [hset, hcalls]
    simp [Call.given, Call.collected]
  · refine Machine.forall_mem_concat h.known ?_
    have hin : r.responseChan ∈ s.calls.flatMap Call.chans := List.mem_flatMap.mpr ⟨c,hmem,hrchan⟩
    rw [h.chans] at hin
    exact List.mem_range.mp hin
  · intro d hd
    rw [hset] at hd
    have hother (hd : d ∈ front ∨ d ∈ back) : d.Sound s.loop.responses (s.taken ++ [r.responseChan]) := by
      have hdmem : d ∈ s.calls := by
        rw [hcalls]
        rcases hd with hd | hd
        · exact List.mem_append_left _ hd
        · exact List.mem_append_right _ (List.mem_cons_of_mem _ hd)
      refine ⟨(h.calls d hdmem).found,fun x hx hxt => ?_⟩
      rcases List.mem_append.mp hxt with hxt | hxt
      · exact (h.calls d hdmem).untouched x hx hxt
      · rw [List.mem_singleton] at hxt
        exact foreign_chan hnodup hd hrchan (hxt ▸ List.mem_map_of_mem (d.uncollected_subset hx))
    rcases List.mem_append.mp hd with hd | hd
    · exact hother (.inl hd)
    · rcases List.mem_cons.mp hd with rfl | hd
      · exact hsound.collected hp hr hresp (own_chan hnodup)
      · exact hother (.inr hd)

theorem Inv.receive (h : Inv start es s) {req : Request} {rest : List Request} {l : Loop} (hq : s.reqCh = req::rest)
    (hl : s.loop.step (.receive req) = some l) :
    Inv start (es ++ [.receive req]) { s with reqCh := rest, loop := l } where
  run := Machine.run_append.mpr ⟨s.loop,h.run,Machine.run_cons.mpr ⟨l,hl,rfl⟩⟩
  queue := by
    rw [← h.queue, hq]
    simp [Loop.received, Loop.Event.request]
  chans := h.chans
  given := h.given
  known := h.known
  calls c hc := by
    refine (h.calls c hc).mono ?_
    rw [show l.responses = _ from Loop.step_sends hl]
    exact List.subset_append_left _ _

theorem Inv.loop (h : Inv start es s) {e : Loop.Event} {l : Loop} (he : StreamKV.internal e = true)
    (hl : s.loop.step e = some l) : Inv start (es ++ [e]) { s with loop := l } where
  run := Machine.run_append.mpr ⟨s.loop,h.run,Machine.run_cons.mpr ⟨l,hl,rfl⟩⟩
  queue := by
    have hnone : e.request = none := by cases e <;> first | rfl | cases he
    rw [← h.queue]
    simp [Loop.received, hnone]
  chans := h.chans
  given := h.given
  known := h.known
  calls c hc := by
    refine (h.calls c hc).mono ?_
    rw [show l.responses = _ from Loop.step_sends hl]
    exact List.subset_append_left _ _

end Inv

section Runs
variable {batchSize : Int} {mode : AckMode} {bufferSize : Nat} {old : List Command}

theorem step_inv {es : List Loop.Event} {s s' : Node} {e : Event}
    (h : Inv (EventLoop.init batchSize mode bufferSize old) es s) (hs : s.step e = some s') :
    ∃ es', Inv (EventLoop.init batchSize mode bufferSize old) es' s' := by
  cases step_fires hs with
  | call cancelled hc => exact ⟨es,h.call cancelled hc⟩
  | submit hi hp hr => exact ⟨es,h.submit hi hp hr⟩
  | @submitted i c hi hp hr =>
    have hsound := h.calls c (List.mem_of_getElem? hi)
    refine ⟨es,h.set_call hi rfl rfl ⟨?_,?_⟩⟩
    · have hfound := hsound.found
      simp only [Call.Found, hp] at hfound
      exact ⟨Nat.le_antisymm hfound (List.getElem?_eq_none_iff.mp hr),by simp [Ok]⟩
    · simpa [Call.uncollected, hp] using hsound.untouched
  | collect hi hp hr hc => exact ⟨es,h.collect (Loop.run_inOrder h.run) hi hp hr hc⟩
  | @collected i n c hi hp hr =>
    have hfound := (h.calls c (List.mem_of_getElem? hi)).found
    simp only [Call.Found, hp] at hfound
    refine ⟨es,h.set_call hi rfl rfl ⟨?_,by simp [Call.uncollected]⟩⟩
    rw [List.take_of_length_le (List.getElem?_eq_none_iff.mp hr)] at hfound
    exact hfound
  | @disconnect i c hi =>
    have hsound := h.calls c (List.mem_of_getElem? hi)
    exact ⟨es,h.set_call hi rfl rfl ⟨hsound.found,hsound.untouched⟩⟩
  | cancel hi _ => exact ⟨es,h.set_call hi rfl rfl ⟨.inl rfl,by simp [Call.uncollected]⟩⟩
  | receive hq hl => exact ⟨_,h.receive hq hl⟩
  | loop he hl => exact ⟨_,h.loop he hl⟩

theorem run_inv {es : List Event} {s : Node} (hr : Machine.run step (init batchSize mode bufferSize old) es = some s) :
    ∃ fs, Inv (EventLoop.init batchSize mode bufferSize old) fs s :=
  Machine.run_invariant (I := fun s => ∃ fs, Inv (EventLoop.init batchSize mode bufferSize old) fs s)
    (fun _ _ _ ⟨_,h⟩ hs => step_inv h hs) ⟨[],init_inv batchSize mode bufferSize old⟩ hr

/-- The loop never waits for a call, not even for one that was given up: there is room in
the channel of every response that it is about to send. -/
theorem loop_never_waits {es : List Event} {s : Node} (hr : Machine.run step (init batchSize mode bufferSize old) es = some s)
    {e : Loop.Event} (he : StreamKV.internal e = true) (hl : (s.loop.step e).isSome) : (s.step (.loop e)).isSome := by
  obtain ⟨fs,h⟩ := run_inv hr
  obtain ⟨l,hl⟩ := Option.isSome_iff_exists.mp hl
  have hafter := h.loop he hl
  cases hsend : s.loop.sends e with
  | none => simp [step, hl, he, hsend]
  | some p =>
    have hnodup := hafter.responses_nodup (Loop.run_inOrder hafter.run)
    rw [show l.responses = _ from Loop.step_sends hl, hsend, Option.toList_some, List.map_append, List.nodup_append] at hnodup
    have hroom : s.chan p.1.responseChan = [] := by
      have hnone : s.loop.responses.filter (fun q => q.1.responseChan = p.1.responseChan) = [] := by
        refine List.filter_eq_nil_iff.mpr (fun q hq heq => ?_)
        exact hnodup.2.2 _ (List.mem_map_of_mem hq) _ (List.mem_map_of_mem List.mem_cons_self) (by simpa using heq)
      rw [chan, hnone, List.map_nil, List.drop_nil]
    simp [step, hl, he, hsend, hroom, responseChanCapacity]

/-- A read that is given up after the loop was given it. -/
def givenUp : List Event :=
  [.call [⟨opGet,.singleton 107,nilValue,0,0,0⟩] "request cancelled",.submit 0,.disconnect 0,.submit 0,.cancel 0,.receive]

theorem loop_never_waits_sample : ∃ s, Machine.run step (init 1 .afterFlush 64 []) givenUp = some s ∧
    s.calls.map Call.phase = [.returned (some "request cancelled")] ∧ (s.loop.sends .advance).isSome ∧
    (s.step (.loop .advance)).isSome := by
  have hr : Machine.run step (init 1 .afterFlush 64 []) givenUp = some _ := rfl
  exact ⟨_,hr,rfl,rfl,loop_never_waits hr rfl rfl⟩

/-- A call that waits for a response waits for the loop: its request is still in the
channel or in the hands of the loop. Once the loop is done with everything it was given,
no call waits. -/
theorem waiting_call_served {es : List Event} {s : Node}
    (hr : Machine.run step (init batchSize mode bufferSize old) es = some s) {i n : Nat} {c : Call}
    (hi : s.calls[i]? = some c) (hp : c.phase = .collecting n) :
    (∀ r, c.reqs[n]? = some r → s.chan r.responseChan = [] → r ∈ s.reqCh ∨ r ∈ s.loop.unanswered) ∧
    (s.reqCh = [] → s.loop.Drained → (s.step (.collect i)).isSome) := by
  obtain ⟨fs,h⟩ := run_inv hr
  have horder := Loop.run_inOrder h.run
  have hmem := List.mem_of_getElem? hi
  have hfound := (h.calls c hmem).found
  simp only [Call.Found, hp] at hfound
  have hwaits : ∀ r, c.reqs[n]? = some r → s.chan r.responseChan = [] → r ∈ s.reqCh ∨ r ∈ s.loop.unanswered := by
    intro r hn hempty
    have hgiven := h.given_mem hmem (List.mem_of_getElem? hn) hfound.1
    have huntouched : r.responseChan ∉ s.taken := by
      refine (h.calls c hmem).untouched r ?_
      rw [Call.uncollected, hp]
      exact List.mem_of_getElem? ((List.getElem?_drop (i := n) (j := 0)).trans hn)
    rw [chan, List.count_eq_zero_of_not_mem huntouched, List.drop_zero, List.map_eq_nil_iff, List.filter_eq_nil_iff] at hempty
    rw [← h.queue] at hgiven
    rcases List.mem_append.mp hgiven with hgiven | hgiven
    · rcases List.mem_append.mp (horder.accounted.symm.subset hgiven) with hans | hans
      · obtain ⟨p,hpm,rfl⟩ := List.mem_map.mp hans
        exact absurd (decide_eq_true rfl) (hempty p hpm)
      · exact .inr hans
    · exact .inl hgiven
  refine ⟨hwaits,fun hq hd => ?_⟩
  cases hn : c.reqs[n]? with
  | none => simp [step, hi, hp, hn]
  | some r =>
    have hne : s.chan r.responseChan ≠ [] := by
      intro hempty
      rcases hwaits r hn hempty with hin | hin
      · rw [hq] at hin
        cases hin
      · rw [hd.unanswered horder] at hin
        cases hin
    obtain ⟨resp,rest,hchan⟩ := List.exists_cons_of_ne_nil hne
    simp [step, hi, hp, hn, hchan]

/-- A write that the loop has not received yet. -/
def waitingCall : List Event := [.call [Loop.sampleRequest] "request cancelled",.submit 0,.submit 0]

theorem waiting_call_served_sample : ∃ s c, Machine.run step (init 1 .afterFsync 64 []) waitingCall = some s ∧
    s.calls[0]? = some c ∧ c.phase = .collecting 0 ∧ c.reqs[0]? = some Loop.sampleRequest ∧
    (Loop.sampleRequest ∈ s.reqCh ∨ Loop.sampleRequest ∈ s.loop.unanswered) := by
  have hr : Machine.run step (init 1 .afterFsync 64 []) waitingCall = some _ := rfl
  exact ⟨_,⟨[Loop.sampleRequest],"request cancelled",1,false,.collecting 0⟩,hr,rfl,rfl,rfl,
    (waiting_call_served hr (i := 0) rfl rfl).1 _ rfl rfl⟩

/-- The writes that a call brings carry versions. -/
def Event.Versioned : Event → Prop
  | .call reqs _ => ∀ r ∈ reqs, r.op ≠ opGet → r.version ≠ 0
  | _ => True

instance : (e : Event) → Decidable e.Versioned
  | .call reqs _ => inferInstanceAs (Decidable (∀ r ∈ reqs, r.op ≠ opGet → r.version ≠ 0))
  | .submit _ | .collect _ | .disconnect _ | .cancel _ | .receive | .loop _ => isTrue trivial

/-- All writes of the calls carry versions. -/
def Versioned (s : Node) : Prop := ∀ c ∈ s.calls, ∀ r ∈ c.reqs, r.op ≠ opGet → r.version ≠ 0

/-- All requests of calls come from the events. -/
theorem step_versioned {s s' : Node} {e : Event} (h : s.Versioned) (he : e.Versioned) (hs : s.step e = some s') :
    s'.Versioned := by
  cases step_fires hs with
  | call cancelled hc => exact Machine.forall_mem_concat h he
  | submit hi _ _ | submitted hi _ _ | collect hi _ _ _ | collected hi _ _ | disconnect hi | cancel hi _ =>
    have hc := h _ (List.mem_of_getElem? hi)
    exact Machine.forall_mem_set h hc
  | receive | loop => exact h

private theorem run_versioned {es : List Event} {s : Node} (hes : ∀ e ∈ es, e.Versioned)
    (hr : Machine.run step (init batchSize mode bufferSize old) es = some s) : s.Versioned :=
  Machine.run_invariant_of_meets (G := fun _ e => e.Versioned) (fun _ _ _ h he hs => step_versioned h he hs)
    (by simp [Versioned, init]) (Machine.meets_of_forall _ hes) hr

/-- The loop has received writes with versions only. -/
private theorem Inv.versioned {start : Loop} {fs : List Loop.Event} {s : Node} (h : Inv start fs s)
    (hreqs : s.Versioned) : ∀ e ∈ fs, e.Versioned := by
  intro e he
  cases e with
  | receive req =>
    have hmem : req ∈ s.submitted := by
      rw [← h.queue]
      exact List.mem_append_left _ (List.mem_filterMap.mpr ⟨_,he,rfl⟩)
    obtain ⟨c,hc,hreq⟩ := List.mem_flatMap.mp (h.given.subset hmem)
    exact hreqs c hc req (List.take_subset _ _ hreq)
  | _ => trivial

/-- The I/O errors that the loop meets have texts. -/
def Event.Worded : Event → Prop
  | .loop e => e.Worded
  | _ => True

instance : (e : Event) → Decidable e.Worded
  | .loop e => inferInstanceAs (Decidable e.Worded)
  | .call _ _ | .submit _ | .collect _ | .disconnect _ | .cancel _ | .receive => isTrue trivial

theorem step_worded {s s' : Node} {e : Event} (h : s.loop.Worded) (he : e.Worded) (hs : s.step e = some s') :
    s'.loop.Worded := by
  cases step_fires hs with
  | receive _ hl => exact Loop.step_worded (e := .receive _) h trivial hl
  | loop _ hl => exact Loop.step_worded h he hl
  | call | submit | submitted | collect | collected | disconnect | cancel => exact h

/-- What a call that has returned without error leaves behind. -/
theorem Inv.recovered {fs : List Loop.Event} {s : Node} (h : Inv (EventLoop.init batchSize mode bufferSize old) fs s)
    (hreqs : s.Versioned) (hm : mode ≠ .afterEnqueue)
    (hold : ∀ c ∈ old, c.version ≠ 0) {c : Call} (hc : c ∈ s.calls) (hret : c.phase = .returned none) {crash : Crash}
    (hcrash : crash = .machine → mode = .afterFsync) {file : List UInt8} (hf : Survives s.loop.writer crash file) :
    ∀ r ∈ c.reqs, r.op = opPut ∨ r.op = opDelete →
      r.command ∈ decode file ∧ r.version ≤ (newStore.applyAll (decode file)).versionOf r.key := by
  have hfound := (h.calls c hc).found
  simp only [Call.Found, hret] at hfound
  intro r hmem hop
  obtain ⟨resp,hresp,hok⟩ := hfound.2 r hmem
  exact Loop.answered_recovered hm hold (h.versioned hreqs) h.run hop hresp hok hcrash hf

/-- In every mode its writes are in the store. -/
theorem Inv.applied {fs : List Loop.Event} {s : Node} (h : Inv (EventLoop.init batchSize mode bufferSize old) fs s) {c : Call}
    (hc : c ∈ s.calls) (hret : c.phase = .returned none) : ∀ r ∈ c.reqs, r.op ≠ opGet → r ∈ s.loop.applied := by
  have hfirst : Loop.AppliedFirst s.loop := Machine.run_invariant (fun _ _ _ hi hs => Loop.step_appliedFirst hi hs)
    (Loop.init_appliedFirst batchSize mode bufferSize old) h.run
  have hfound := (h.calls c hc).found
  simp only [Call.Found, hret] at hfound
  intro r hmem hop
  obtain ⟨resp,hresp,_⟩ := hfound.2 r hmem
  exact hfirst.answered (r,resp) hresp hop

/-- The node has applied a write and, in a mode that waits for the log, no crash takes it
away: every file that may be left holds it, and a replay reaches its version. -/
def Keeps (mode : AckMode) (s : Node) (r : Request) : Prop :=
  r ∈ s.loop.applied ∧ (mode ≠ .afterEnqueue → ∀ crash file, (crash = .machine → mode = .afterFsync) →
    Survives s.loop.writer crash file →
    r.command ∈ decode file ∧ r.version ≤ (newStore.applyAll (decode file)).versionOf r.key)

theorem Inv.keeps {fs : List Loop.Event} {s : Node} (h : Inv (EventLoop.init batchSize mode bufferSize old) fs s)
    (hreqs : s.Versioned) (hold : ∀ c ∈ old, c.version ≠ 0) {c : Call} (hc : c ∈ s.calls) (hret : c.phase = .returned none)
    {r : Request} (hr : r ∈ c.reqs) (hop : r.op = opPut ∨ r.op = opDelete) : s.Keeps mode r := by
  have hget : r.op ≠ opGet := by
    rcases hop with h | h <;> rw [h] <;> decide
  refine ⟨h.applied hc hret r hr hget,fun hm crash file hcrash hf => ?_⟩
  exact h.recovered hreqs hm hold hc hret hcrash hf r hr hop

/-- A call that returns without error has brought all of its writes into the store, and the
node keeps them, then and later. -/
theorem call_ok_recovered (hold : ∀ c ∈ old, c.version ≠ 0) {es : List Event} (hes : ∀ e ∈ es, e.Versioned) {s : Node}
    (hr : Machine.run step (init batchSize mode bufferSize old) es = some s) {c : Call} (hc : c ∈ s.calls)
    (hret : c.phase = .returned none) {r : Request} (hreq : r ∈ c.reqs) (hop : r.op = opPut ∨ r.op = opDelete) :
    s.Keeps mode r := by
  obtain ⟨fs,h⟩ := run_inv hr
  exact h.keeps (run_versioned hes hr) hold hc hret hreq hop

/-- A batch of two writes through the loop and the syncing writer, up to its return. -/
def batchCall : List Event :=
  [.call [Loop.sampleRequest,Loop.updateRequest] "replication batch cancelled",.submit 0,.submit 0,.submit 0,.receive,.receive,
   .loop .advance,.loop .advance,.loop .advance,.loop .advance,.loop .advance,
   .loop (.writer (.take ⟨2,[Loop.sampleRequest.command,Loop.updateRequest.command]⟩)),.loop (.writer .next),
   .loop (.writer .next),.loop (.writer .next),.loop (.writer (.observe true)),.loop (.writer (.write 30)),
   .loop (.writer .wrote),.loop (.writer .sync),.loop (.writer .resume),.loop (.writer .publish),.loop .takeAck,
   .loop .wake,.loop .respond,.loop .respond,.collect 0,.collect 0,.collect 0]

theorem call_ok_recovered_sample : ∃ s c, Machine.run step (init 2 .afterFsync 64 []) batchCall = some s ∧ c ∈ s.calls ∧
    c.reqs = [Loop.sampleRequest,Loop.updateRequest] ∧ c.phase = .returned none ∧
    2 ≤ (newStore.applyAll (decode s.loop.writer.written)).versionOf Loop.updateRequest.key := by
  have hr : Machine.run step (init 2 .afterFsync 64 []) batchCall = some _ := rfl
  refine ⟨_,_,hr,List.mem_cons_self,rfl,rfl,?_⟩
  have hok := call_ok_recovered (by simp) (by decide) hr List.mem_cons_self rfl
    (List.mem_cons_of_mem _ List.mem_cons_self) (.inl rfl)
  exact (hok.2 (by decide) .machine _ (fun _ => rfl) ⟨List.prefix_rfl,by decide⟩).2

end Runs
end Node
end Calls
end Nawst.Core
