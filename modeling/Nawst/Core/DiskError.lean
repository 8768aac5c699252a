import Nawst.Core.LoopOrder

/-! The loop after its log has failed. The writer is gone and nothing empties its
channel any more, so the loop goes on only while the channel has room; the writes it
still takes are all answered with the error. -/
namespace Nawst.Core.EventLoop
open Lib Wal

namespace Loop

/-- The channel to the writer has room for a batch. -/
def Room (s : Loop) : Prop := s.appendCh.length < appendChCapacity

/-- The loop is in Append. -/
def inAppend (s : Loop) : Bool :=
  match s.phase with
  | .appending _ _ | .fastAppending _ _ => true
  | _ => false

/-- The loop waits for room in a channel that nobody empties. -/
def Frozen (s : Loop) : Prop := s.writer.phase = .exited ∧ s.inAppend = true ∧ ¬ s.Room

/-- The loop has taken a write that it has not appended yet. -/
def pending (s : Loop) : Bool :=
  match s.phase with
  | .applying _ _ | .appending _ _ | .fastAppending _ _ => true
  | .handingOff _ => false
  | _ => !s.writeBatch.isEmpty

/-- The writer returns only when the channel has room or the loop holds no write it
has yet to append, and after that a write is received only while there is room. -/
def Spared (s : Loop) : Event → Prop
  | .writer e => s.writer.Fails e = true ∨ s.writer.phase = .closing → s.Room ∨ s.pending = false
  | .receive req => req.op ≠ opGet → s.writer.phase = .exited → s.Room
  | _ => True

instance (s : Loop) : Decidable s.Room := inferInstanceAs (Decidable (_ < _))

instance (s : Loop) : (e : Event) → Decidable (s.Spared e)
  | .writer e => inferInstanceAs (Decidable (s.writer.Fails e = true ∨ s.writer.phase = .closing → s.Room ∨ s.pending = false))
  | .receive req => inferInstanceAs (Decidable (req.op ≠ opGet → s.writer.phase = .exited → s.Room))
  | .reqChClosed | .tick | .advance | .takeAck | .wake | .respond | .closeWal | .deleteVNodeData _ => isTrue trivial

/-- Once the writer is gone there is room for the batch the loop holds. -/
structure Afloat (s : Loop) : Prop where
  room : s.writer.phase = .exited → s.Room ∨ s.pending = false
  left : s.phase = .exited → s.writeBatch = []
  failed : s.writer.err ≠ none → s.writer.phase = .exited

theorem init_afloat (batchSize : Int) (mode : AckMode) (bufferSize : Nat) (old : List Command) :
    Afloat (init batchSize mode bufferSize old) where
  room h := by cases h
  left h := by cases h
  failed h := absurd rfl h

private theorem Afloat.frame {s s' : Loop} (h : Afloat s) (hw : s'.writer = s.writer)
    (hr : s.writer.phase = .exited → s.Room ∨ s.pending = false → s'.Room ∨ s'.pending = false)
    (hl : s'.phase = .exited → s'.writeBatch = []) : Afloat s' where
  room hx := by
    rw [hw] at hx
    exact hr hx (h.room hx)
  left := hl
  failed := by
    rw [hw]
    exact h.failed

/-- The channel is as it was, and no new write waits for it. -/
private theorem Afloat.keep {s s' : Loop} (h : Afloat s) (hw : s'.writer = s.writer) (hc : s'.appendCh = s.appendCh)
    (hp : s'.pending = true → s.pending = true) (hl : s'.phase = .exited → s'.writeBatch = []) : Afloat s' := by
  refine h.frame hw (fun _ hr => ?_) hl
  rcases hr with hr | hr
  · exact .inl (by rw [Room, hc]; exact hr)
  · refine .inr (Bool.eq_false_iff.mpr (fun hn => ?_))
    rw [hp hn] at hr
    cases hr

private theorem Afloat.settle {s s' : Loop} (h : Afloat s) (hw : s'.writer = s.writer) (hp : s'.pending = false)
    (hl : s'.phase = .exited → s'.writeBatch = []) : Afloat s' :=
  h.frame hw (fun _ _ => .inr hp) hl

private theorem afterBatch_pending {s : Loop} (h : s.writeBatch = []) : s.afterBatch.pending = false := by
  cases hc : s.closing <;> simp [pending, afterBatch, hc, h]

/-- A batch starts only with a write to append. -/
private theorem processBatch_pending {s : Loop} (hp : s.phase = .select) (h : s.processBatch.pending = true) :
    s.pending = true := by
  unfold processBatch at h
  split at h
  · rename_i hw
    rw [afterBatch_pending hw] at h
    cases h
  · rename_i hw
    simpa [pending, hp] using hw

theorem step_afloat {es : List Event} {s s' : Loop} {e : Event} (ho : InOrder es s) (h : Afloat s) (hg : s.Spared e)
    (hs : s.step e = some s') : Afloat s' := by
  have hh := ho.handled
  cases step_fires hs with
  | get req hp _ => exact h.keep rfl rfl (by simp [pending, hp]) (by simp)
  | fast req hp hn _ | fill req hp hn _ => exact h.frame rfl (fun hx _ => .inl (hg hn hx)) (by simp)
  | collect req hp hn _ => exact h.frame rfl (fun hx _ => .inl (hg hn hx)) (by simp [hp])
  | leave hp hw => exact h.settle rfl (by simp [pending, hw]) (fun _ => hw)
  | lastBatch hp =>
    simp only [step, hp, if_true, Option.some.injEq] at hs
    refine h.keep rfl rfl (fun hn => ?_) (by simp)
    rw [← hs] at hn
    simpa [pending, hp] using processBatch_pending (s := { s with closing := true }) hp hn
  | batch hp =>
    simp only [step, hp, if_true, Option.some.injEq] at hs
    refine h.keep rfl rfl (fun hn => processBatch_pending hp ?_) (by simp)
    rwa [hs]
  | idle hp hw => exact h.settle rfl (afterBatch_pending hw) (fun _ => hw)
  | answerGet hp => exact h.keep rfl rfl (by simp [pending, hp]) (by simp)
  | number hp | apply hp => exact h.keep rfl rfl (by simp [pending, hp]) (by simp)
  | append hp => exact h.settle rfl rfl (by simp)
  | handOff hp => exact h.settle rfl (afterBatch_pending rfl) (fun _ => rfl)
  | fastAppend hp =>
    simp only [Handled, hp] at hh
    exact h.settle rfl (by simp [pending, (ho.unbatched hh.1).1]) (by simp)
  | fastApply hp | fastAnswer hp => exact h.keep rfl rfl (by simp [pending, hp]) (by simp)
  | takeAck | wake | done | respond | closeWal | deleteVNodeData => exact h.keep rfl rfl (fun hn => hn) h.left
  | @writer e appendCh w hc hw =>
    refine ⟨fun hx => ?_,h.left,fun he => ?_⟩
    · have hexit := Writer.exits_step hw hx
      have htake : ∀ b, e ≠ .take b := by
        rintro b rfl
        cases Writer.step_fires hw with
        | take _ hp => cases hx
      obtain ⟨rfl,_⟩ := channel_other hc htake
      exact hg hexit
    · cases hf : s.writer.Fails e with
      | true => exact (Writer.fails_step hf hw).1
      | false =>
        have hsame := (Writer.step_framed hw).err.resolve_right (by simp [hf])
        have hgone := h.failed (by rw [← hsame]; exact he)
        rw [Writer.exited_step hgone] at hw
        cases hw

theorem Afloat.not_frozen {s : Loop} (h : Afloat s) : ¬ s.Frozen := by
  rintro ⟨hx,ha,hroom⟩
  have hp : s.pending = true := by
    unfold inAppend at ha
    split at ha
    · simp [pending, ‹s.phase = _›]
    · simp [pending, ‹s.phase = _›]
    · cases ha
  rcases h.room hx with hr | hr
  · exact hroom hr
  · rw [hp] at hr
    cases hr

/-- The answers to writes, in order. -/
def writeAnswers (s : Loop) : List (Request × Response) := s.responses.filter (fun p => p.1.op ≠ opGet)

/-- The log has failed, and of the writes only the first so many may be answered
without an error. -/
structure Refusing (n : Nat) (s : Loop) : Prop where
  durable : s.writer.mode ≠ .afterEnqueue
  failed : s.writer.err ≠ none
  answers : ∀ p ∈ s.writeAnswers.drop n, p.2.err ≠ none
  responding : ∀ rs, s.acker = .responding rs none → s.answeredWrites.length+rs.length ≤ n

/-- What was received before the failure bounds what is answered by then. -/
theorem refusing_of_failed {es : List Event} {s : Loop} (h : InOrder es s) (hm : s.writer.mode ≠ .afterEnqueue)
    (he : s.writer.err ≠ none) : Refusing (writes es).length s := by
  have hall : s.handed.length ≤ (writes es).length := by
    rw [h.writes]
    exact (h.handled.initial.trans (List.prefix_append _ _)).length_le
  have hlen : s.writeAnswers.length = s.answeredWrites.length := (List.length_map _).symm
  simp only [handed, List.length_append] at hall
  refine ⟨hm,he,?_,fun rs hk => ?_⟩
  · rw [List.drop_of_length_le (by omega)]
    simp
  · simp only [hk, Acker.requests] at hall
    omega

private theorem Refusing.frame {n : Nat} {s s' : Loop} (h : Refusing n s) (hw : s'.writer = s.writer)
    (hr : s'.writeAnswers = s.writeAnswers) (hk : ∀ rs, s'.acker = .responding rs none → s.acker = .responding rs none) :
    Refusing n s' := by
  have ha : s'.answeredWrites = s.answeredWrites := congrArg (List.map Prod.fst) hr
  refine ⟨by rw [hw]; exact h.durable,by rw [hw]; exact h.failed,by rw [hr]; exact h.answers,fun rs hs => ?_⟩
  rw [ha]
  exact h.responding rs (hk rs hs)

private theorem mem_drop_concat {α : Type} {l : List α} {n : Nat} {a b : α} (h : b ∈ (l ++ [a]).drop n) :
    b ∈ l.drop n ∨ b = a ∧ n ≤ l.length := by
  rw [List.drop_append] at h
  rcases List.mem_append.mp h with h | h
  · exact .inl h
  · have hn : n-l.length = 0 := by
      by_contra hne
      rw [List.drop_of_length_le (by simp; omega)] at h
      cases h
    rw [hn, List.drop_zero, List.mem_singleton] at h
    exact .inr ⟨h,by omega⟩

/-- An answer without error is among the first. -/
private theorem Refusing.respond {n : Nat} {s : Loop} (h : Refusing n s) {r : Request} {rs : List Request}
    {err : Option Err} (hop : r.op ≠ opGet) (ha : s.acker = .responding (r::rs) err) :
    Refusing n { s with acker := .responding rs err, responses := s.responses ++ [(r,writeResponse r err)] } := by
  have hlen : s.writeAnswers.length = s.answeredWrites.length := (List.length_map _).symm
  have hfirst (he : err = none) : s.answeredWrites.length+(rs.length+1) ≤ n :=
    h.responding (r::rs) (by rw [ha, he])
  have hnext : ({ s with acker := .responding rs err, responses := s.responses ++ [(r,writeResponse r err)] } : Loop).writeAnswers =
      s.writeAnswers ++ [(r,writeResponse r err)] := by
    simp [writeAnswers, List.filter_append, hop]
  refine ⟨h.durable,h.failed,?_,?_⟩
  · rw [hnext]
    intro p hp
    rcases mem_drop_concat hp with hp | ⟨rfl,hn⟩
    · exact h.answers p hp
    · rintro (he : err = none)
      have hle := hfirst he
      omega
  · intro rs' hk
    simp only [Acker.responding.injEq] at hk
    obtain ⟨rfl,he⟩ := hk
    have hle := hfirst he
    rw [(answer_write hop rfl).2, List.length_append, List.length_singleton]
    omega

theorem step_refusing {es : List Event} {n : Nat} {s s' : Loop} {e : Event} (ho : InOrder es s) (hf : Afloat s)
    (h : Refusing n s) (hs : s.step e = some s') : Refusing n s' := by
  have hh := ho.handled
  cases step_fires hs with
  | answerGet hp =>
    simp only [Handled, hp] at hh
    exact h.frame rfl (by simp [writeAnswers, List.filter_append, hh.1]) (fun _ hk => hk)
  | fastAnswer hp =>
    simp only [Handled, hp] at hh
    exact absurd hh.1 h.durable
  | takeAck => exact h.frame rfl rfl (fun _ hk => by cases hk)
  | done => exact h.frame rfl rfl (fun _ hk => by cases hk)
  | @wake a err ha hw =>
    -- A log that has failed wakes with its error.
    have herr : err = s.writer.err := by
      rw [Writer.wait, if_neg h.durable, if_pos (.inr h.failed)] at hw
      cases hw
      rfl
    refine h.frame rfl rfl (fun rs hk => ?_)
    simp only [Acker.responding.injEq] at hk
    exact absurd (herr.symm.trans hk.2) h.failed
  | respond ha => exact h.respond (ho.responding_write ha) ha
  | writer hc hw =>
    rw [Writer.exited_step (hf.failed h.failed)] at hw
    cases hw
  | get | fast | collect | fill | leave | lastBatch | batch | number | apply | append | fastAppend | fastApply | closeWal
  | deleteVNodeData => exact h.frame rfl rfl (fun _ hk => hk)
  | idle | handOff => exact h.frame rfl rfl (fun _ hk => hk)

/-- A step of the loop or of the acknowledgement goroutine that brings no request in. -/
def Works (s : Loop) : Event → Prop
  | .advance | .takeAck | .wake | .respond => True
  | .tick => s.writeBatch ≠ []
  | _ => False

instance (s : Loop) : (e : Event) → Decidable (s.Works e)
  | .advance | .takeAck | .wake | .respond => isTrue trivial
  | .tick => inferInstanceAs (Decidable (s.writeBatch ≠ []))
  | .receive _ | .reqChClosed | .writer _ | .closeWal | .deleteVNodeData _ => isFalse id

/-- What is left to do for the writes that are collected. -/
def batchWork (batch : List Request) : Nat := if batch = [] then 0 else 2*batch.length+7

def phaseWork (s : Loop) : Nat :=
  match s.phase with
  | .select => batchWork s.writeBatch
  | .answeringGet _ _ => batchWork s.writeBatch+1
  | .applying _ todo => s.writeBatch.length+todo.length+6
  | .appending _ _ => s.writeBatch.length+5
  | .handingOff _ => s.writeBatch.length+4
  | .fastAppending _ _ => batchWork s.writeBatch+3
  | .fastApplying _ => batchWork s.writeBatch+2
  | .fastAnswering _ _ => batchWork s.writeBatch+1
  | .exited => 0

def ackerWork : Acker → Nat
  | .idle => 0
  | .waiting a => a.requests.length+2
  | .responding rs _ => rs.length+1

/-- The number of steps until everything is answered. -/
def work (s : Loop) : Nat :=
  s.phaseWork+(s.ackCh.map (fun a => a.requests.length+3)).sum+ackerWork s.acker

private theorem afterBatch_phaseWork {s : Loop} (h : s.writeBatch = []) : s.afterBatch.phaseWork = 0 := by
  cases hc : s.closing <;> simp [phaseWork, afterBatch, hc, h, batchWork]

theorem step_works {s s' : Loop} {e : Event} (hw : s.Works e) (hs : s.step e = some s') : s'.work < s.work := by
  cases step_fires hs with
  | idle hp hb => exact absurd hb hw
  | batch hp =>
    have hb : s.writeBatch ≠ [] := hw
    simp only [work, phaseWork, hp, batchWork, if_neg hb]
    omega
  | answerGet hp | fastAppend hp | fastApply hp | fastAnswer hp =>
    simp only [work, phaseWork, hp]
    omega
  | number hp | append hp =>
    simp only [work, phaseWork, hp, List.length_nil]
    omega
  | apply hp =>
    simp only [work, phaseWork, hp, List.length_cons]
    omega
  | @handOff id hp =>
    have hz := afterBatch_phaseWork (s := { s with ackCh := s.ackCh ++ [⟨id,s.writeBatch⟩], writeBatch := [] }) rfl
    rw [work, hz]
    simp only [work, phaseWork, hp, afterBatch, List.map_append, List.sum_append, List.map_cons, List.map_nil,
      List.sum_cons, List.sum_nil]
    omega
  | takeAck ha hc =>
    simp only [work, phaseWork, ha, hc, ackerWork, List.map_cons, List.sum_cons]
    omega
  | wake ha _ | done ha =>
    simp only [work, phaseWork, ha, ackerWork]
    omega
  | respond ha =>
    simp only [work, phaseWork, ha, ackerWork, List.length_cons]
    omega
  | get | fast | collect | fill | leave | lastBatch | writer | closeWal | deleteVNodeData => exact hw.elim

/-- The loop is never stuck with a write in hand. -/
theorem works_or_drained {es : List Event} {n : Nat} {s : Loop} (ho : InOrder es s) (hf : Afloat s) (h : Refusing n s) :
    s.Drained ∨ ∃ e, s.Works e ∧ (s.step e).isSome := by
  have hh := ho.handled
  cases ha : s.acker with
  | waiting a => exact .inr ⟨.wake,trivial,by simp [step, ha, Writer.wait, h.durable, h.failed]⟩
  | responding rs err =>
    refine .inr ⟨.respond,trivial,?_⟩
    cases rs <;> simp [step, ha]
  | idle =>
    cases hc : s.ackCh with
    | cons a rest => exact .inr ⟨.takeAck,trivial,by simp [step, ha, hc]⟩
    | nil =>
      cases hp : s.phase with
      | select =>
        by_cases hb : s.writeBatch = []
        · exact .inl ⟨.inl hp,hb,ha,hc⟩
        · exact .inr ⟨.tick,hb,by simp [step, hp]⟩
      | exited => exact .inl ⟨.inr hp,hf.left hp,ha,hc⟩
      | answeringGet req resp => exact .inr ⟨.advance,trivial,by simp [step, advance, hp]⟩
      | applying cmds todo =>
        refine .inr ⟨.advance,trivial,?_⟩
        cases todo <;> simp [step, advance, hp]
      | appending id cmds =>
        have hroom : s.Room := by
          by_contra hn
          exact hf.not_frozen ⟨hf.failed h.failed,by simp [inAppend, hp],hn⟩
        rw [Room] at hroom
        exact .inr ⟨.advance,trivial,by simp [step, advance, hp, hroom]⟩
      | handingOff id => exact .inr ⟨.advance,trivial,by simp [step, advance, hp, hc, ackChCapacity]⟩
      | fastAppending id req | fastApplying req | fastAnswering req err =>
        simp only [Handled, hp] at hh
        exact absurd hh.1 h.durable

theorem Drained.answered {es : List Event} {s : Loop} (h : InOrder es s) (hd : s.Drained) : s.answeredWrites = writes es := by
  obtain ⟨hp,hb,ha,hc⟩ := hd
  have hh := h.handled
  have hhand : s.handed = s.answeredWrites := by simp [handed, ha, hc, Acker.requests]
  rw [h.writes]
  rcases hp with hp | hp <;> simp_all [Handled, toApply]

/-- What holds of a loop whose log has failed. -/
private structure Ailing (n : Nat) (es : List Event) (s : Loop) : Prop where
  inOrder : InOrder es s
  afloat : Afloat s
  refusing : Refusing n s

private theorem step_ailing {n : Nat} {es : List Event} {s s' : Loop} {e : Event} (h : Ailing n es s) (hg : s.Spared e)
    (hs : s.step e = some s') : Ailing n (es ++ [e]) s' :=
  ⟨step_inOrder h.inOrder hs,step_afloat h.inOrder h.afloat hg hs,step_refusing h.inOrder h.afloat h.refusing hs⟩

private theorem Works.spared {s : Loop} {e : Event} (h : s.Works e) : s.Spared e ∧ e.write = none := by
  cases e with
  | tick | advance | takeAck | wake | respond => exact ⟨trivial,rfl⟩
  | receive | reqChClosed | writer | closeWal | deleteVNodeData => exact h.elim

/-- Working on takes no new writes. -/
private theorem run_works {n : Nat} {es fs : List Event} {s t : Loop} (h : Ailing n es s)
    (hw : Machine.Meets step Works s fs) (hr : Machine.run step s fs = some t) :
    Ailing n (es ++ fs) t ∧ writes (es ++ fs) = writes es := by
  refine Machine.run_history_of_meets (I := fun fs u => Ailing n (es ++ fs) u ∧ writes (es ++ fs) = writes es)
    (fun fs u e u' hi hg hs => ?_) ⟨by rwa [List.append_nil],by rw [List.append_nil]⟩ hw hr
  obtain ⟨hsp,hn⟩ := hg.spared
  rw [← List.append_assoc]
  refine ⟨step_ailing hi.1 hsp hs,?_⟩
  rw [← hi.2]
  simp [writes, hn]

/-- A disk error does not freeze the loop as long as the writer returns, and writes are
received after that, only with room in the channel for what the loop holds. Beyond the
writes received before the failure every write is answered with an error: no answer
comes without one, and whatever the loop and the acknowledgement goroutine do next they
can go on until every write has been answered, in a bounded number of steps. -/
theorem survives_disk_error (batchSize : Int) (mode : AckMode) (bufferSize : Nat) (old : List Command) (es : List Event)
    (hg : Machine.Meets step Spared (init batchSize mode bufferSize old) es) (s : Loop)
    (hr : Machine.run step (init batchSize mode bufferSize old) es = some s) :
    ¬ s.Frozen ∧
    ∀ before after failed, es = before ++ after → mode ≠ .afterEnqueue →
      Machine.run step (init batchSize mode bufferSize old) before = some failed → failed.writer.err ≠ none →
      s.answeredWrites <+: writes es ∧
      (∀ p ∈ s.writeAnswers.drop (writes before).length, p.2.err ≠ none) ∧
      ∀ more t, Machine.Meets step Works s more → Machine.run step s more = some t →
        more.length ≤ s.work ∧
        ((t.answeredWrites = writes es ∧ ∀ p ∈ t.writeAnswers.drop (writes before).length, p.2.err ≠ none) ∨
          ∃ e, t.Works e ∧ (t.step e).isSome) := by
  have hrun {fs : List Event} {u : Loop} (hfs : Machine.Meets step Spared (init batchSize mode bufferSize old) fs)
      (hu : Machine.run step (init batchSize mode bufferSize old) fs = some u) : InOrder fs u ∧ Afloat u :=
    Machine.run_history_of_meets (I := fun fs u => InOrder fs u ∧ Afloat u)
      (fun _ _ _ _ hi hg hs => ⟨step_inOrder hi.1 hs,step_afloat hi.1 hi.2 hg hs⟩)
      ⟨init_inOrder batchSize mode bufferSize old,init_afloat batchSize mode bufferSize old⟩ hfs hu
  obtain ⟨ho,ha⟩ := hrun hg hr
  refine ⟨ha.not_frozen,?_⟩
  rintro before after failed rfl hm hb he
  obtain ⟨hgb,hga⟩ := (Machine.meets_append hb).mp hg
  obtain ⟨u,hu,hafter⟩ := Machine.run_append.mp hr
  cases hb.symm.trans hu
  obtain ⟨hob,hab⟩ := hrun hgb hb
  have hmode : failed.writer.mode = mode :=
    Machine.run_invariant (I := fun u => u.writer.mode = mode) (fun _ _ _ hi hs => (step_mode hs).trans hi) rfl hb
  have hfail : Ailing (writes before).length before failed := ⟨hob,hab,refusing_of_failed hob (hmode ▸ hm) he⟩
  have hs : Ailing (writes before).length (before ++ after) s :=
    Machine.run_history_of_meets (I := fun fs u => Ailing (writes before).length (before ++ fs) u)
      (fun fs _ e _ hi hg hs => List.append_assoc before fs [e] ▸ step_ailing hi hg hs)
      (by rwa [List.append_nil]) hga hafter
  refine ⟨?_,hs.refusing.answers,fun more t hw ht => ⟨?_,?_⟩⟩
  · rw [hs.inOrder.writes]
    exact (s.answered_handed.trans hs.inOrder.handled.initial).trans (List.prefix_append _ _)
  · have hlen := Machine.run_length_le_of_meets (fun _ _ _ hg hs => step_works hg hs) hw ht
    omega
  · obtain ⟨hdone,hsame⟩ := run_works hs hw ht
    rcases works_or_drained hdone.inOrder hdone.afloat hdone.refusing with hd | hnext
    · exact .inl ⟨hsame ▸ Drained.answered hdone.inOrder hd,hdone.refusing.answers⟩
    · exact .inr hnext

/-- The first write reaches the writer, and writing it to the file fails. -/
def failingRun : List Event :=
  [.receive orderedPut,.advance,.advance,.advance,.advance,.writer (.take ⟨1,[orderedPut.command]⟩),.writer .next,
    .writer .next,.writer (.observe true),.writer (.writeFails "no space left on device")]

/-- The write before is answered, then one more is received and answered. -/
def refusedRun : List Event :=
  [.takeAck,.wake,.respond,.respond,.receive orderedPut,.advance,.advance,.advance,.advance,.takeAck,.wake,.respond]

theorem survives_disk_error_sample :
    ∃ s, Machine.run step (init 1 .afterFlush 64 []) (failingRun ++ refusedRun) = some s ∧ ¬ s.Frozen ∧
      s.answeredWrites = [orderedPut,orderedPut] ∧ ∀ p ∈ s.writeAnswers.drop 1, p.2.err ≠ none := by
  have hrun : ((Machine.run step (init 1 .afterFlush 64 []) (failingRun ++ refusedRun)).map answeredWrites) =
      some [orderedPut,orderedPut] := by decide +kernel
  have hfail : ((Machine.run step (init 1 .afterFlush 64 []) failingRun).map (fun s => s.writer.err)) =
      some (some "no space left on device") := by decide +kernel
  obtain ⟨s,hs,hw⟩ := Option.map_eq_some_iff.mp hrun
  obtain ⟨failed,hb,he⟩ := Option.map_eq_some_iff.mp hfail
  obtain ⟨hfree,hrest⟩ := survives_disk_error 1 .afterFlush 64 [] (failingRun ++ refusedRun) (by decide +kernel) s hs
  exact ⟨s,hs,hfree,hw,(hrest failingRun refusedRun failed rfl (by decide) hb (by simp [he])).2.1⟩

/-- A loop at rest whose log has failed. -/
def Resting (s : Loop) : Prop :=
  (s.phase = .select ∧ s.writeBatch = [] ∧ s.closing = false ∧ s.ackCh = [] ∧ s.acker = .idle) ∧
    s.batchSize = 1 ∧ s.writer.mode ≠ .afterEnqueue ∧ s.writer.err ≠ none ∧ s.writer.phase = .exited

instance (s : Loop) : Decidable s.Resting := inferInstanceAs (Decidable (_ ∧ _))

/-- A write is received, applied, appended and refused. -/
def refuse : List Event := [.receive orderedPut,.advance,.advance,.advance,.advance,.takeAck,.wake,.respond,.respond]

/-- The write is applied and about to be appended. -/
private def taken (s : Loop) : Loop :=
  { s with
    store := (s.store.apply orderedPut.command).1
    writeBatch := [orderedPut]
    nextID := s.nextID+1
    phase := .appending (s.nextID+1) [orderedPut.command]
    applied := s.applied ++ [orderedPut] }

private theorem run_taken {s : Loop} (h : s.Resting) :
    Machine.run step s [.receive orderedPut,.advance,.advance] = some s.taken := by
  obtain ⟨⟨hp,hb,ho,hc,ha⟩,hz,hd,hf,hx⟩ := h
  have hop : orderedPut.op ≠ opGet := by decide
  obtain ⟨batchSize,store,writeBatch,phase,closing,ackCh,acker,nextID,appendCh,walClosed,writer,applied,appended,
    responses⟩ := s
  simp only at hp hb ho hc ha hz hd
  subst hp hb ho hc ha hz
  simp [taken, Machine.run, step, Loop.receive, processBatch, advance, hop, hd]

private theorem run_refuse {s : Loop} (h : s.Resting) (hroom : s.Room) :
    ∃ t, Machine.run step s refuse = some t ∧ t.Resting ∧ t.appendCh.length = s.appendCh.length+1 := by
  have htaken := run_taken h
  obtain ⟨⟨hp,hb,ho,hc,ha⟩,hz,hd,hf,hx⟩ := h
  rw [Room] at hroom
  refine ⟨{ s with
    store := (s.store.apply orderedPut.command).1
    nextID := s.nextID+1
    appendCh := s.appendCh ++ [⟨s.nextID+1,[orderedPut.command]⟩]
    applied := s.applied ++ [orderedPut]
    appended := s.appended ++ [orderedPut.command]
    responses := s.responses ++ [(orderedPut,writeResponse orderedPut s.writer.err)] },
    Machine.run_append.mpr ⟨s.taken,htaken,?_⟩,⟨⟨hp,hb,ho,hc,ha⟩,hz,hd,hf,hx⟩,by simp⟩
  obtain ⟨batchSize,store,writeBatch,phase,closing,ackCh,acker,nextID,appendCh,walClosed,writer,applied,appended,
    responses⟩ := s
  simp only at hp hb ho hc ha hz hd hf hx hroom
  subst hp hb ho hc ha hz
  simp [taken, Machine.run, step, advance, afterBatch, Writer.wait, hd, hf, hroom, ackChCapacity]

private theorem run_refuse_many {s : Loop} (h : s.Resting) (n : Nat) (hn : s.appendCh.length+n ≤ appendChCapacity) :
    ∃ t, Machine.run step s (List.replicate n refuse).flatten = some t ∧ t.Resting ∧
      t.appendCh.length = s.appendCh.length+n := by
  induction n generalizing s with
  | zero => exact ⟨s,rfl,h,rfl⟩
  | succ n ih =>
    obtain ⟨u,hu,hrest,hlen⟩ := run_refuse h (by unfold Room; omega)
    obtain ⟨t,ht,hrest',hlen'⟩ := ih hrest (by omega)
    refine ⟨t,?_,hrest',by omega⟩
    rw [List.replicate_succ, List.flatten_cons]
    exact Machine.run_append.mpr ⟨u,hu,ht⟩

/-- With a full channel the next write is taken and never appended. -/
private theorem run_blocked {s : Loop} (h : s.Resting) (hfull : appendChCapacity ≤ s.appendCh.length) :
    ∃ t, Machine.run step s [.receive orderedPut,.advance,.advance] = some t ∧ t.Frozen ∧ t.step .advance = none := by
  have hroom : ¬ s.appendCh.length < appendChCapacity := by omega
  exact ⟨s.taken,run_taken h,⟨h.2.2.2.2,rfl,hroom⟩,by simp [taken, step, advance, hroom]⟩

/-- After the failure the loop appends one batch after the other to a channel that
nobody reads, until it is full and the loop waits for room for ever. -/
theorem full_channel_freezes :
    ∃ s, Machine.run step (init 1 .afterFlush 64 [])
        (failingRun ++ refusedRun ++ [.respond] ++ (List.replicate 1023 refuse).flatten ++
          [.receive orderedPut,.advance,.advance]) = some s ∧
      s.Frozen ∧ s.step .advance = none := by
  have hfail : (Machine.run step (init 1 .afterFlush 64 []) (failingRun ++ refusedRun ++ [.respond])).map
      (fun s => (decide s.Resting,s.appendCh.length)) = some (true,1) := by decide +kernel
  obtain ⟨u,hu,hq⟩ := Option.map_eq_some_iff.mp hfail
  simp only [Prod.mk.injEq, decide_eq_true_eq] at hq
  obtain ⟨t,ht,hrest,hlen⟩ := run_refuse_many hq.1 1023 (by simp [hq.2, appendChCapacity])
  obtain ⟨s,hs,hf⟩ := run_blocked hrest (by simp [hlen, hq.2, appendChCapacity])
  exact ⟨s,Machine.run_append.mpr ⟨t,Machine.run_append.mpr ⟨u,hu,ht⟩,hs⟩,hf⟩

end Loop
end Nawst.Core.EventLoop
