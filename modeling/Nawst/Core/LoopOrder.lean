import Nawst.Core.LoopRequests

/-! The order in which the loop works: requests are applied, logged and answered in the
order of their arrival, each of them once, and a read sees what was applied before it. -/
namespace Nawst.Core.EventLoop
open Lib Wal

namespace Loop

/-- The request an event brings into the loop. -/
def Event.request : Event → Option Request
  | .receive req => some req
  | _ => none

/-- The read an event brings into the loop. -/
def Event.read : Event → Option Request
  | .receive req => if req.op = opGet then some req else none
  | _ => none

def received (es : List Event) : List Request := es.filterMap Event.request
def writes (es : List Event) : List Request := es.filterMap Event.write
def reads (es : List Event) : List Request := es.filterMap Event.read

/-- The answers to reads, in order. -/
def getAnswers (s : Loop) : List (Request × Response) := s.responses.filter (fun p => p.1.op = opGet)

/-- The writes that were answered, in order. -/
def answeredWrites (s : Loop) : List Request :=
  (s.responses.filter (fun p => p.1.op ≠ opGet)).map Prod.fst

/-- The writes that were answered or are with the acknowledgement goroutine. -/
def handed (s : Loop) : List Request :=
  s.answeredWrites ++ s.acker.requests ++ s.ackCh.flatMap PendingAck.requests

/-- The writes that are still to be applied. -/
def toApply (s : Loop) : List Request :=
  match s.phase with
  | .applying _ todo => todo
  | .appending _ _ | .handingOff _ => []
  | .fastAppending _ req | .fastApplying req => [req]
  | _ => s.writeBatch

/-- The read that is being answered. -/
def reading (s : Loop) : List Request :=
  match s.phase with
  | .answeringGet req _ => [req]
  | _ => []

/-- All applied writes are handed on, except those of the branch in hand. -/
def Handled (s : Loop) : Prop :=
  match s.phase with
  | .applying cmds todo =>
    ∃ done, s.writeBatch = done ++ todo ∧ cmds = done.map Request.command ∧ s.applied = s.handed ++ done
  | .appending _ cmds => cmds = s.writeBatch.map Request.command ∧ s.applied = s.handed ++ s.writeBatch
  | .handingOff _ => s.applied = s.handed ++ s.writeBatch
  | .fastAppending _ _ | .fastApplying _ => s.writer.mode = .afterEnqueue ∧ s.applied = s.handed
  | .fastAnswering req _ => s.writer.mode = .afterEnqueue ∧ s.applied = s.handed ++ [req]
  | .answeringGet req resp => req.op = opGet ∧ resp.op = opGet ∧ s.applied = s.handed
  | .select | .exited => s.applied = s.handed

/-- What holds of the loop after the events, between its steps. -/
structure InOrder (es : List Event) (s : Loop) : Prop where
  writes : writes es = s.applied ++ s.toApply
  reads : reads es = s.getAnswers.map Prod.fst ++ s.reading
  handled : s.Handled
  logged : s.Logged
  kind : s.Holds (fun r => r.op ≠ opGet)
  ops : ∀ p ∈ s.responses, p.2.op = p.1.op
  unbatched : s.writer.mode = .afterEnqueue →
    s.writeBatch = [] ∧ s.acker.requests = [] ∧ s.ackCh.flatMap PendingAck.requests = []

theorem init_inOrder (batchSize : Int) (mode : AckMode) (bufferSize : Nat) (old : List Command) :
    InOrder [] (init batchSize mode bufferSize old) where
  writes := rfl
  reads := rfl
  handled := rfl
  logged := rfl
  kind := init_holds _ batchSize mode bufferSize old
  ops := by simp [init]
  unbatched _ := ⟨rfl,rfl,rfl⟩

@[simp] private theorem writes_concat (es : List Event) (e : Event) : writes (es ++ [e]) = writes es ++ e.write.toList := by
  cases h : e.write <;> simp [writes, List.filterMap_append, h]

@[simp] private theorem reads_concat (es : List Event) (e : Event) : reads (es ++ [e]) = reads es ++ e.read.toList := by
  cases h : e.read <;> simp [reads, List.filterMap_append, h]

/-- A read that is answered. -/
theorem answer_get {s t : Loop} {req : Request} {resp : Response} (ho : req.op = opGet)
    (hr : t.responses = s.responses ++ [(req,resp)]) :
    t.getAnswers = s.getAnswers ++ [(req,resp)] ∧ t.answeredWrites = s.answeredWrites := by
  simp [getAnswers, answeredWrites, hr, List.filter_append, ho]

/-- A write that is answered. -/
theorem answer_write {s t : Loop} {req : Request} {resp : Response} (ho : req.op ≠ opGet)
    (hr : t.responses = s.responses ++ [(req,resp)]) :
    t.getAnswers = s.getAnswers ∧ t.answeredWrites = s.answeredWrites ++ [req] := by
  simp [getAnswers, answeredWrites, hr, List.filter_append, ho]

/-- Only what the branch in hand looks at matters for it. -/
private theorem Handled.congr {s s' : Loop} (h : s.Handled) (hp : s'.phase = s.phase)
    (hm : s'.writer.mode = s.writer.mode) (hb : s'.writeBatch = s.writeBatch) (ha : s'.applied = s.applied)
    (hh : s'.handed = s.handed) : s'.Handled := by
  unfold Handled at h ⊢
  rw [hp, hm, hb, ha, hh]
  exact h

theorem answered_handed (s : Loop) : s.answeredWrites <+: s.handed := by
  rw [handed, List.append_assoc]
  exact List.prefix_append _ _

/-- Nothing is handed on before it is applied. -/
theorem Handled.initial {s : Loop} (h : s.Handled) : s.handed <+: s.applied := by
  unfold Handled at h
  split at h
  · obtain ⟨done,_,_,ha⟩ := h
    exact ⟨done,ha.symm⟩
  · exact ⟨_,h.2.symm⟩
  · exact ⟨_,h.symm⟩
  · exact h.2 ▸ List.prefix_rfl
  · exact h.2 ▸ List.prefix_rfl
  · exact ⟨_,h.2.symm⟩
  · exact h.2.2 ▸ List.prefix_rfl
  · exact h ▸ List.prefix_rfl
  · exact h ▸ List.prefix_rfl

/-- The acknowledgement goroutine answers writes. -/
theorem InOrder.responding_write {es : List Event} {s : Loop} (h : InOrder es s) {r : Request} {rs : List Request}
    {err : Option Err} (ha : s.acker = .responding (r::rs) err) : r.op ≠ opGet := by
  have hmem : r ∈ s.handed := by simp [handed, ha, Acker.requests]
  exact h.kind.applied r (h.handled.initial.subset hmem)

private theorem afterBatch_handled {s : Loop} (h : s.applied = s.handed) : s.afterBatch.Handled := by
  unfold Handled
  cases hc : s.closing
  · simp only [afterBatch, hc]
    exact h
  · simp only [afterBatch, hc]
    exact h

private theorem getResponse_op (store : Store) (req : Request) : (getResponse store req).op = req.op := by
  unfold getResponse
  split <;> rfl

private theorem step_handled {es : List Event} {s s' : Loop} {e : Event} (h : InOrder es s) (hs : s.step e = some s') :
    s'.Handled := by
  have hh := h.handled
  cases step_fires hs with
  | get req hp ho =>
    simp only [Handled, hp] at hh
    exact ⟨ho,(getResponse_op _ _).trans ho,hh⟩
  | fast req hp _ hm =>
    simp only [Handled, hp] at hh
    exact ⟨hm,hh⟩
  | collect req hp _ _ =>
    simp only [Handled, hp] at hh ⊢
    exact hh
  | fill req hp _ _ | lastBatch hp | batch hp =>
    simp only [Handled, hp] at hh
    exact ⟨[],rfl,rfl,by rw [List.append_nil]; exact hh⟩
  | leave hp _ =>
    simp only [Handled, hp] at hh
    exact hh
  | idle hp _ =>
    simp only [Handled, hp] at hh
    exact afterBatch_handled hh
  | @answerGet req resp hp =>
    simp only [Handled, hp] at hh
    have hw := (answer_get (t := { s with phase := .select, responses := s.responses ++ [(req,resp)] }) hh.1 rfl).2
    simp only [Handled, handed, hw]
    exact hh.2.2
  | number hp =>
    simp only [Handled, hp, List.append_nil] at hh
    obtain ⟨done,hb,hc,ha⟩ := hh
    simp only [Handled, hb]
    exact ⟨hc,ha⟩
  | @apply cmds r todo hp =>
    simp only [Handled, hp] at hh
    obtain ⟨done,hb,hc,ha⟩ := hh
    refine ⟨done ++ [r],by simp [hb],by simp [hc],?_⟩
    change s.applied ++ [r] = s.handed ++ (done ++ [r])
    rw [ha, List.append_assoc]
  | append hp =>
    simp only [Handled, hp] at hh
    exact hh.2
  | @handOff id hp =>
    simp only [Handled, hp] at hh
    refine afterBatch_handled (hh.trans ?_)
    simp [handed, answeredWrites]
  | fastAppend hp =>
    simp only [Handled, hp] at hh
    exact hh
  | @fastApply req hp =>
    simp only [Handled, hp] at hh
    refine ⟨hh.1,?_⟩
    change s.applied ++ [req] = s.handed ++ [req]
    rw [hh.2]
  | @fastAnswer req err hp =>
    simp only [Handled, hp] at hh
    obtain ⟨hm,ha⟩ := hh
    have ho : req.op ≠ opGet := h.kind.applied req (by simp [ha])
    obtain ⟨_,hk,hc⟩ := h.unbatched hm
    have hw := (answer_write (t := { s with
      phase := .select, responses := s.responses ++ [(req,writeResponse req err)] }) ho rfl).2
    simp only [Handled, handed, hw, hk, hc, List.append_nil]
    simpa [handed, hk, hc] using ha
  | takeAck ha hc => exact hh.congr rfl rfl rfl rfl (by simp [handed, answeredWrites, ha, hc, Acker.requests])
  | wake ha _ => exact hh.congr rfl rfl rfl rfl (by simp [handed, answeredWrites, ha, Acker.requests])
  | done ha => exact hh.congr rfl rfl rfl rfl (by simp [handed, answeredWrites, ha, Acker.requests])
  | @respond r rs err ha =>
    have ho : r.op ≠ opGet := h.responding_write ha
    have hw := (answer_write (t := { s with
      acker := .responding rs err, responses := s.responses ++ [(r,writeResponse r err)] }) ho rfl).2
    refine hh.congr rfl rfl rfl rfl ?_
    simp [handed, hw, ha, Acker.requests]
  | writer hc hw => exact hh.congr rfl (Writer.step_mode hw) rfl rfl rfl
  | closeWal | deleteVNodeData => exact hh.congr rfl rfl rfl rfl rfl

private theorem toApply_afterBatch (s : Loop) : s.afterBatch.toApply = s.writeBatch := by
  cases hc : s.closing <;> simp [toApply, afterBatch, hc]

private theorem reading_afterBatch (s : Loop) : s.afterBatch.reading = [] := by
  cases hc : s.closing <;> simp [reading, afterBatch, hc]

private theorem step_writes {es : List Event} {s s' : Loop} {e : Event} (h : InOrder es s) (hs : s.step e = some s') :
    writes (es ++ [e]) = s'.applied ++ s'.toApply := by
  have hw := h.writes
  rw [writes_concat, hw]
  cases step_fires hs with
  | get req hp ho => simp [toApply, hp, Event.write, ho]
  | fast req hp ho hm => simp [toApply, hp, Event.write, ho, (h.unbatched hm).1]
  | collect req hp ho _ | fill req hp ho _ => simp [toApply, hp, Event.write, ho]
  | leave hp _ | lastBatch hp | batch hp | answerGet hp | number hp | append hp | fastAppend hp =>
    simp [toApply, hp, Event.write]
  | idle hp _ =>
    rw [toApply_afterBatch]
    simp [toApply, hp, Event.write, afterBatch]
  | apply hp => simp [toApply, hp, Event.write]
  | handOff hp =>
    rw [toApply_afterBatch]
    simp [toApply, hp, Event.write, afterBatch]
  | fastApply hp =>
    have hh := h.handled
    simp only [Handled, hp] at hh
    simp [toApply, hp, Event.write, (h.unbatched hh.1).1]
  | fastAnswer hp => simp [toApply, hp, Event.write]
  | takeAck | wake | done | respond | closeWal | writer | deleteVNodeData => simp [toApply, Event.write]

private theorem step_reads {es : List Event} {s s' : Loop} {e : Event} (h : InOrder es s) (hs : s.step e = some s') :
    reads (es ++ [e]) = s'.getAnswers.map Prod.fst ++ s'.reading := by
  have hr := h.reads
  have hh := h.handled
  rw [reads_concat, hr]
  cases step_fires hs with
  | get req hp ho => simp [reading, hp, Event.read, ho, getAnswers]
  | fast req hp ho hm | collect req hp ho _ | fill req hp ho _ => simp [reading, hp, Event.read, ho, getAnswers]
  | leave hp _ | lastBatch hp | batch hp | number hp | append hp | fastAppend hp | apply hp | fastApply hp =>
    simp [reading, hp, Event.read, getAnswers]
  | idle hp _ | handOff hp =>
    rw [reading_afterBatch]
    simp [reading, hp, Event.read, afterBatch, getAnswers]
  | @answerGet req resp hp =>
    simp only [Handled, hp] at hh
    have hg := (answer_get (t := { s with phase := .select, responses := s.responses ++ [(req,resp)] }) hh.1 rfl).1
    simp [hg, reading, hp, Event.read]
  | @fastAnswer req err hp =>
    simp only [Handled, hp] at hh
    have ho : req.op ≠ opGet := h.kind.applied req (by simp [hh.2])
    have hg := (answer_write (t := { s with
      phase := .select, responses := s.responses ++ [(req,writeResponse req err)] }) ho rfl).1
    simp [hg, reading, hp, Event.read]
  | @respond r rs err ha =>
    have ho : r.op ≠ opGet := h.responding_write ha
    have hg := (answer_write (t := { s with
      acker := .responding rs err, responses := s.responses ++ [(r,writeResponse r err)] }) ho rfl).1
    simp [hg, reading, Event.read]
  | takeAck | wake | done | closeWal | writer | deleteVNodeData => simp [reading, Event.read, getAnswers]

private theorem step_ops {es : List Event} {s s' : Loop} {e : Event} (h : InOrder es s) (hs : s.step e = some s') :
    ∀ p ∈ s'.responses, p.2.op = p.1.op := by
  have hh := h.handled
  cases step_fires hs with
  | @answerGet req resp hp =>
    simp only [Handled, hp] at hh
    exact Machine.forall_mem_concat h.ops (hh.2.1.trans hh.1.symm)
  | fastAnswer hp | respond ha => exact Machine.forall_mem_concat h.ops rfl
  | _ => exact h.ops

private theorem step_unbatched {es : List Event} {s s' : Loop} {e : Event} (h : InOrder es s)
    (hs : s.step e = some s') (hm : s'.writer.mode = .afterEnqueue) :
    s'.writeBatch = [] ∧ s'.acker.requests = [] ∧ s'.ackCh.flatMap PendingAck.requests = [] := by
  have hu := h.unbatched ((step_mode hs).symm.trans hm)
  cases step_fires hs with
  | collect req hp _ hn | fill req hp _ hn => exact absurd hm hn
  | handOff hp => simp [afterBatch, hu]
  | takeAck ha hc =>
    rw [hc, ha] at hu
    simpa [Acker.requests] using hu
  | wake ha _ => simpa [Acker.requests, ha] using hu
  | done ha => exact ⟨hu.1,rfl,hu.2.2⟩
  | respond ha => simp [Acker.requests, ha] at hu
  | _ => exact hu

/-- The write an event brings is no read. -/
private theorem write_kind (e : Event) : ∀ r ∈ e.write, r.op ≠ opGet := by
  intro r hr
  cases e with
  | receive req =>
    simp only [Event.write, Option.mem_def, Option.ite_none_left_eq_some, Option.some.injEq] at hr
    exact hr.2 ▸ hr.1
  | _ => cases hr

theorem step_inOrder {es : List Event} {s s' : Loop} {e : Event} (h : InOrder es s) (hs : s.step e = some s') :
    InOrder (es ++ [e]) s' where
  writes := step_writes h hs
  reads := step_reads h hs
  handled := step_handled h hs
  logged := step_logged h.logged hs
  kind := step_holds h.kind (write_kind e) hs
  ops := step_ops h hs
  unbatched := step_unbatched h hs

theorem run_inOrder {batchSize : Int} {mode : AckMode} {bufferSize : Nat} {old : List Command} {es : List Event}
    {s : Loop} (hr : Machine.run step (init batchSize mode bufferSize old) es = some s) : InOrder es s :=
  Machine.run_history (fun _ _ _ _ hi hs => step_inOrder hi hs) (init_inOrder batchSize mode bufferSize old) hr

theorem writes_eq_filter (es : List Event) : writes es = (received es).filter (fun r => r.op ≠ opGet) := by
  induction es with
  | nil => rfl
  | cons e es ih =>
    cases e with
    | receive req => by_cases h : req.op = opGet <;> simpa [writes, received, Event.write, Event.request, h] using ih
    | _ => exact ih

/-- From one moment with nothing left to apply to another the store changes by the writes
received meanwhile. -/
theorem run_store {batchSize : Int} {mode : AckMode} {bufferSize : Nat} {old : List Command} {es fs : List Event}
    {s t : Loop} (hs : Machine.run step (init batchSize mode bufferSize old) es = some s)
    (hr : Machine.run step s fs = some t) (hfs : ∀ e ∈ fs, e.wiped = none) (hidle : s.toApply = [])
    (hdone : t.toApply = []) : t.store = (writes fs).foldl applyRequest s.store := by
  have hbefore := (run_inOrder hs).writes
  have hafter := (run_inOrder (Machine.run_append.mpr ⟨s,hs,hr⟩)).writes
  obtain ⟨rs,happlied,hstore⟩ := run_effect hfs hr
  rw [hidle, List.append_nil] at hbefore
  rw [hdone, List.append_nil, writes, List.filterMap_append, ← writes, ← writes, hbefore, happlied] at hafter
  rw [hstore, List.append_cancel_left hafter]

/-- The requests that are consumed and not answered yet. -/
def unanswered (s : Loop) : List Request :=
  s.reading ++ s.applied.drop s.answeredWrites.length ++ s.toApply

/-- The loop has nothing in hand and the acknowledgement goroutine nothing left. -/
def Drained (s : Loop) : Prop :=
  (s.phase = .select ∨ s.phase = .exited) ∧ s.writeBatch = [] ∧ s.acker = .idle ∧ s.ackCh = []

instance (s : Loop) : Decidable s.Drained := inferInstanceAs (Decidable (_ ∧ _))

private theorem received_perm (es : List Event) : (received es).Perm (reads es ++ writes es) := by
  induction es with
  | nil => exact .refl _
  | cons e es ih =>
    cases e with
    | receive req =>
      by_cases ho : req.op = opGet
      · simpa [received, reads, writes, Event.request, Event.read, Event.write, ho] using ih
      · simpa [received, reads, writes, Event.request, Event.read, Event.write, ho] using
          (ih.cons req).trans List.perm_middle.symm
    | _ => exact ih

private theorem responses_perm (s : Loop) :
    (s.responses.map Prod.fst).Perm (s.getAnswers.map Prod.fst ++ s.answeredWrites) := by
  have h := (List.filter_append_perm (fun p : Request × Response => p.1.op = opGet) s.responses).map Prod.fst
  simpa [getAnswers, answeredWrites] using h.symm

/-- Every consumed request is answered once or still to be answered. -/
theorem InOrder.accounted {es : List Event} {s : Loop} (h : InOrder es s) :
    (s.responses.map Prod.fst ++ s.unanswered).Perm (received es) := by
  obtain ⟨rest,hrest⟩ := h.handled.initial
  have happ : s.applied = s.answeredWrites ++ s.applied.drop s.answeredWrites.length := by
    rw [← hrest, handed]
    simp
  refine List.perm_iff_count.mpr (fun r => ?_)
  have hresp := (responses_perm s).count_eq r
  have hrecv := (received_perm es).count_eq r
  have hcount := congrArg (List.count r) happ
  rw [h.reads, h.writes] at hrecv
  simp only [unanswered, List.count_append] at hresp hrecv hcount ⊢
  omega

theorem Drained.unanswered {es : List Event} {s : Loop} (h : InOrder es s) (hd : s.Drained) : s.unanswered = [] := by
  obtain ⟨hp,hb,ha,hc⟩ := hd
  have hh := h.handled
  have hhand : s.handed = s.answeredWrites := by simp [handed, ha, hc, Acker.requests]
  rcases hp with hp | hp <;> simp_all [Loop.unanswered, Handled, reading, toApply]

def orderedPut : Request := ⟨opPut,sampleKey,.singleton 118,7,1,0⟩
def orderedGet : Request := ⟨opGet,sampleKey,nilValue,7,0,1⟩
/-- Writes wait only until their batch is full. -/
def Waiting (s : Loop) : Prop :=
  match s.phase with
  | .applying _ _ | .appending _ _ | .handingOff _ => True
  | _ => s.writeBatch = [] ∨ (s.writeBatch.length : Int) < s.batchSize

private theorem afterBatch_waiting {s : Loop} (h : s.writeBatch = []) : s.afterBatch.Waiting := by
  cases hc : s.closing <;> simp [Waiting, afterBatch, hc, h]

theorem step_waiting {s s' : Loop} {e : Event} (h : s.Waiting) (hs : s.step e = some s') : s'.Waiting := by
  have hw := h
  cases step_fires hs with
  | collect req hp _ _ hb =>
    simp only [Waiting, hp]
    exact .inr hb
  | fill | lastBatch | batch | number | apply | append => trivial
  | idle _ hb => exact afterBatch_waiting hb
  | handOff => exact afterBatch_waiting rfl
  | get _ hp _ | fast _ hp _ _ | leave hp _ | answerGet hp | fastAppend hp | fastApply hp | fastAnswer hp =>
    simp only [Waiting, hp] at hw
    exact hw
  | takeAck | wake | done | respond | closeWal | writer | deleteVNodeData => exact h

theorem step_batchSize {s s' : Loop} {e : Event} (hs : s.step e = some s') : s'.batchSize = s.batchSize := by
  cases step_fires hs <;> rfl

/-- The answer to a read is given, or it is about to be given. -/
def Answered (n : Nat) (p : Request × Response) (s : Loop) : Prop :=
  s.getAnswers[n]? = some p ∨ s.getAnswers.length = n ∧ s.phase = .answeringGet p.1 p.2

private theorem step_responses {s s' : Loop} {e : Event} (hs : s.step e = some s') : s.responses <+: s'.responses := by
  cases step_fires hs with
  | answerGet | fastAnswer | respond => exact List.prefix_append _ _
  | _ => exact List.prefix_rfl

/-- The answer to a read is settled when the read is received. -/
theorem step_answered {es : List Event} {n : Nat} {p : Request × Response} {s s' : Loop} {e : Event} (h : InOrder es s)
    (ha : Answered n p s) (hs : s.step e = some s') : Answered n p s' := by
  rcases ha with ha | ⟨hn,hp⟩
  · obtain ⟨rest,hrest⟩ := (step_responses hs).filter (fun p => p.1.op = opGet)
    have hlt := (List.getElem?_eq_some_iff.mp ha).1
    refine .inl ?_
    change s.getAnswers ++ rest = s'.getAnswers at hrest
    rw [← hrest, List.getElem?_append_left hlt, ha]
  · have hh := h.handled
    cases step_fires hs with
    | @answerGet req resp hp' =>
      obtain ⟨rfl,rfl⟩ : p.1 = req ∧ p.2 = resp := by simpa [hp] using hp'
      simp only [Handled, hp] at hh
      have hg := (answer_get (t := { s with phase := .select, responses := s.responses ++ [(p.1,p.2)] }) hh.1 rfl).1
      refine .inl ?_
      rw [hg, ← hn, List.getElem?_concat_length]
    | @respond r rs err hk =>
      have ho : r.op ≠ opGet := h.responding_write hk
      have hg := (answer_write (t := { s with
        acker := .responding rs err, responses := s.responses ++ [(r,writeResponse r err)] }) ho rfl).1
      exact .inr ⟨by rw [hg, hn],hp⟩
    | takeAck | wake | done | closeWal | writer | deleteVNodeData => exact .inr ⟨hn,hp⟩
    | get _ hp' | fast _ hp' | collect _ hp' | fill _ hp' | leave hp' | lastBatch hp' | idle hp' | batch hp' => simp [hp'] at hp
    | number hp' | apply hp' | append hp' | handOff hp' => simp [hp'] at hp
    | fastAppend hp' | fastApply hp' | fastAnswer hp' => simp [hp'] at hp

private theorem run_answered {es fs : List Event} {n : Nat} {p : Request × Response} {s t : Loop} (h : InOrder es s)
    (ha : Answered n p s) (hr : Machine.run step s fs = some t) : Answered n p t := by
  refine (Machine.run_invariant (I := fun u => (∃ es, InOrder es u) ∧ Answered n p u) ?_ ⟨⟨es,h⟩,ha⟩ hr).2
  rintro u e u' ⟨⟨es,h⟩,ha⟩ hs
  exact ⟨⟨_,step_inOrder h hs⟩,step_answered h ha hs⟩

/-- A read is answered from the store with all writes applied that were received before
it, except those that still wait for their batch. None waits in the unbatched mode, and
fewer than a batch in the others. -/
theorem get_sees_applied_writes (batchSize : Int) (mode : AckMode) (bufferSize : Nat) (old : List Command)
    (before after : List Event) (hes : ∀ e ∈ before, e.wiped = none) (req : Request) (ho : req.op = opGet) (t : Loop)
    (hr : Machine.run step (init batchSize mode bufferSize old) (before ++ .receive req :: after) = some t) :
    ∃ s seen resp, Machine.run step (init batchSize mode bufferSize old) before = some s ∧
      writes before = seen ++ s.writeBatch ∧
      (mode = .afterEnqueue → s.writeBatch = []) ∧
      (s.writeBatch = [] ∨ (s.writeBatch.length : Int) < batchSize) ∧
      resp = getResponse ((newStore.applyAll old).applyAll (seen.map Request.command)) req ∧
      (t.getAnswers[(reads before).length]? = some (req,resp) ∨ t.phase = .answeringGet req resp) := by
  obtain ⟨s,hbefore,hrest⟩ := Machine.run_append.mp hr
  obtain ⟨s',hs,hafter⟩ := Machine.run_cons.mp hrest
  have hin : InOrder before s := run_inOrder hbefore
  have hsel : s.phase = .select := by
    by_contra hne
    simp [step, hne] at hs
  have hrecv : s' = { s with phase := .answeringGet req (getResponse s.store req) } := by
    simpa [step, hsel, receive, ho] using hs.symm
  -- At the select the writes received are those applied and those that wait.
  have hwrites : writes before = s.applied ++ s.writeBatch := by
    have hw := hin.writes
    simpa only [toApply, hsel] using hw
  have hreads : reads before = s.getAnswers.map Prod.fst := by
    have hg := hin.reads
    simpa only [reading, hsel, List.append_nil] using hg
  have hstore : s.store = (newStore.applyAll old).applyAll (s.applied.map Request.command) := by
    obtain ⟨rs,ha,hst⟩ := run_effect hes hbefore
    obtain rfl : s.applied = rs := ha
    exact hst.trans (foldl_applyRequest _ _)
  have hconst : s.batchSize = batchSize ∧ s.writer.mode = mode ∧ s.Waiting :=
    Machine.run_invariant (I := fun s => s.batchSize = batchSize ∧ s.writer.mode = mode ∧ s.Waiting)
      (fun _ _ _ hi hs => ⟨(step_batchSize hs).trans hi.1,(step_mode hs).trans hi.2.1,step_waiting hi.2.2 hs⟩)
      ⟨rfl,rfl,.inl rfl⟩ hbefore
  obtain ⟨hsize,hmode,hwait⟩ := hconst
  refine ⟨s,s.applied,getResponse s.store req,hbefore,hwrites,fun hm => (hin.unbatched (hmode.trans hm)).1,?_,
    by rw [hstore],?_⟩
  · simp only [Waiting, hsel] at hwait
    rwa [← hsize]
  · have hstart : Answered (reads before).length (req,getResponse s.store req) s' := by
      subst hrecv
      exact .inr ⟨by rw [hreads, List.length_map]; rfl,rfl⟩
    exact (run_answered (step_inOrder hin hs) hstart hafter).imp_right And.right

/-- A read behind a write that is still waiting for its batch. -/
def overtakingRun : List Event := [.receive orderedPut,.receive orderedGet,.advance]

theorem get_sees_applied_writes_sample :
    ∃ (t s : Loop) (seen : List Request), Machine.run step (init 2 .afterFlush 64 []) overtakingRun = some t ∧
      writes [.receive orderedPut] = seen ++ s.writeBatch ∧
      (t.getAnswers[0]? = some (orderedGet,getResponse (newStore.applyAll (seen.map Request.command)) orderedGet) ∨
        t.phase = .answeringGet orderedGet (getResponse (newStore.applyAll (seen.map Request.command)) orderedGet)) := by
  obtain ⟨s,seen,resp,_,hw,_,_,rfl,hans⟩ := get_sees_applied_writes 2 .afterFlush 64 [] [.receive orderedPut] [.advance]
    (by decide) orderedGet rfl _ rfl
  exact ⟨_,s,seen,rfl,hw,hans⟩

/-- The read does not see the write before it, which it does in the unbatched mode. -/
theorem get_overtakes_waiting_put :
    ∃ t u, Machine.run step (init 2 .afterFlush 64 []) overtakingRun = some t ∧
      Machine.run step (init 2 .afterEnqueue 64 [])
        [.receive orderedPut,.advance,.advance,.advance,.receive orderedGet,.advance] = some u ∧
      t.getAnswers = [(orderedGet,⟨opGet,nilValue,some errKeyNotFound,0⟩)] ∧
      getResponse (newStore.applyAll [orderedPut.command]) orderedGet = ⟨opGet,.singleton 118,none,1⟩ ∧
      u.getAnswers = [(orderedGet,⟨opGet,.singleton 118,none,1⟩)] := by
  refine ⟨_,_,rfl,rfl,?_,?_,?_⟩ <;> decide

end Loop
end Nawst.Core.EventLoop
