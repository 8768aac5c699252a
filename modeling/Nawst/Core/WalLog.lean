import Nawst.Core.WalDurability

/-! The log as its callers see it. Append numbers a batch and sends it to the
writer, Wait waits for an id to be published, and Close returns once the writer
has. The writer is free to choose between its channel and the close signal. -/
namespace Nawst.Core
open Lib

def appendChCapacity : Nat := 1024

namespace Wal

/-- One look of Wait at the log. It returns at once without durability, else when the id is
published or the log has failed. That a caller who goes to sleep is woken for the next look is
a matter of the Monitor, not of this. -/
def Writer.wait (w : Writer) (id : Nat) : Option (Option Err) :=
  if w.mode = .afterEnqueue then some none
  else if id ≤ w.flushedID ∨ w.err ≠ none then some w.err
  else none

/-- What a step of the writer does to its channel; none when it has to wait. -/
def channel (appendCh : List Batch) (closed : Bool) : Writer.Event → Option (List Batch)
  | .take b => match appendCh with
    | b'::rest => if b = b' then some rest else none
    | [] => none
  | .observe empty => if empty = appendCh.isEmpty then some appendCh else none
  | .close => if closed then some appendCh else none
  | _ => some appendCh

theorem channel_take {appendCh rest : List Batch} {closed : Bool} {b : Batch}
    (hc : channel appendCh closed (.take b) = some rest) : appendCh = b::rest := by
  simp only [channel] at hc
  split at hc
  · simp only [Option.ite_none_right_eq_some, Option.some.injEq] at hc
    obtain ⟨rfl,rfl⟩ := hc
    rfl
  · cases hc

theorem channel_other {appendCh rest : List Batch} {closed : Bool} {e : Writer.Event}
    (hc : channel appendCh closed e = some rest) (hn : ∀ b, e ≠ .take b) :
    rest = appendCh ∧ Writer.taken [e] = [] := by
  cases e with
  | take b => exact absurd rfl (hn b)
  | observe empty =>
    simp only [channel, Option.ite_none_right_eq_some, Option.some.injEq] at hc
    exact ⟨hc.2.symm,rfl⟩
  | close =>
    simp only [channel, Option.ite_none_right_eq_some, Option.some.injEq] at hc
    exact ⟨hc.2.symm,rfl⟩
  | next | write n | wrote | writeFails e | sync | syncFails e | resume | publish =>
    simp only [channel, Option.some.injEq] at hc
    exact ⟨hc.symm,rfl⟩

/-- The channel hands the writer the batch it takes and keeps the rest. -/
theorem channel_taken {appendCh rest : List Batch} {closed : Bool} {e : Writer.Event}
    (hc : channel appendCh closed e = some rest) :
    appendCh.flatMap Batch.cmds = Writer.taken [e] ++ rest.flatMap Batch.cmds := by
  by_cases he : ∃ b, e = .take b
  · obtain ⟨b,rfl⟩ := he
    simp [channel_take hc, Writer.taken]
  · obtain ⟨rfl,ht⟩ := channel_other hc (fun b hb => he ⟨b,hb⟩)
    simp [ht]

/-- Ids of queued batches count the commands from a given position on. -/
def Queued (start : Nat) : Nat → List Batch → Prop
  | _, [] => True
  | n, b::bs => n+b.cmds.length = start+b.id ∧ Queued start (n+b.cmds.length) bs

theorem queued_append {start n : Nat} {bs : List Batch} {b : Batch} (h : Queued start n bs)
    (hb : n+(bs.flatMap Batch.cmds).length+b.cmds.length = start+b.id) : Queued start n (bs ++ [b]) := by
  induction bs generalizing n with
  | nil => exact ⟨by simpa using hb,trivial⟩
  | cons b' bs ih =>
    refine ⟨h.1,ih h.2 ?_⟩
    simp only [List.flatMap_cons, List.length_append] at hb
    omega

/-- Everything appended is accepted by the writer or on its way there, in order. -/
structure Ordered (old appended : List Command) (appendCh : List Batch) (w : Writer) : Prop where
  writer : w.Inv
  numbered : w.Numbered old.length
  accepted : w.accepted <+: old ++ appended
  queue : ¬ w.Stopped →
    w.accepted ++ w.remaining ++ appendCh.flatMap Batch.cmds = old ++ appended ∧
      Queued old.length (w.accepted.length+w.remaining.length) appendCh

theorem init_ordered (mode : AckMode) (bufferSize : Nat) (old : List Command) :
    Ordered old [] [] (.init mode bufferSize old) where
  writer := Writer.init_inv mode bufferSize old
  numbered := Writer.init_numbered mode bufferSize old
  accepted := by simp [Writer.init]
  queue _ := ⟨by simp [Writer.init, Writer.remaining],trivial⟩

/-- A batch enters the channel under the next id. -/
theorem Ordered.push {old appended : List Command} {appendCh : List Batch} {w : Writer}
    (h : Ordered old appended appendCh w) {id : Nat} {cmds : List Command} (hid : id = appended.length+cmds.length) :
    Ordered old (appended ++ cmds) (appendCh ++ [⟨id,cmds⟩]) w where
  writer := h.writer
  numbered := h.numbered
  accepted := by
    rw [← List.append_assoc]
    exact h.accepted.trans (List.prefix_append _ _)
  queue hs := by
    obtain ⟨hall,hq⟩ := h.queue hs
    have hlen := congrArg List.length hall
    simp only [List.length_append] at hlen
    refine ⟨?_,queued_append hq ?_⟩
    · simp [← List.append_assoc, ← hall]
    · simp only [hid]
      omega

private theorem Ordered.takesNumbered {old appended : List Command} {appendCh rest : List Batch} {w w' : Writer}
    (h : Ordered old appended appendCh w) {closed : Bool} {e : Writer.Event}
    (hc : channel appendCh closed e = some rest) (hs : w.step e = some w') : Writer.TakesNumbered old.length w e := by
  intro b he
  subst he
  cases Writer.step_fires hs with
  | take _ hp =>
    obtain ⟨_,hq⟩ := h.queue (by simp [Writer.Stopped, hp])
    rw [channel_take hc] at hq
    simpa [Writer.remaining, hp] using hq.1

/-- The writer's steps keep the log in order, failures included. -/
theorem Ordered.writerStep {old appended : List Command} {appendCh rest : List Batch} {w w' : Writer}
    (h : Ordered old appended appendCh w) {closed : Bool} {e : Writer.Event}
    (hc : channel appendCh closed e = some rest) (hs : w.step e = some w') : Ordered old appended rest w' where
  writer := Writer.step_inv h.writer hs
  numbered := Writer.step_numbered h.writer h.numbered (h.takesNumbered hc hs) hs
  accepted := by
    by_cases hst : w.Stopped
    · rw [(Writer.stopped_step hst hs).2]
      exact h.accepted
    · rcases Writer.step_conserves h.writer hs with hk | ⟨_,ha,_⟩
      · have hall := (h.queue hst).1
        rw [channel_taken hc, ← List.append_assoc, ← hk] at hall
        exact ⟨w'.remaining ++ rest.flatMap Batch.cmds,by rw [← hall, List.append_assoc]⟩
      · exact ha ▸ h.accepted
  queue hst' := by
    have hst : ¬ w.Stopped := fun hst => hst' (Writer.stopped_step hst hs).1
    obtain ⟨hall,hq⟩ := h.queue hst
    rcases Writer.step_conserves h.writer hs with hk | ⟨_,_,hx⟩
    · rw [channel_taken hc, ← List.append_assoc, ← hk] at hall
      refine ⟨hall,?_⟩
      have hlen := congrArg List.length hk
      simp only [List.length_append] at hlen
      by_cases he : ∃ b, e = .take b
      · obtain ⟨b,rfl⟩ := he
        rw [channel_take hc] at hq
        have hb : (Writer.taken [.take b]).length = b.cmds.length := by simp [Writer.taken]
        rw [hb] at hlen
        exact hlen ▸ hq.2
      · obtain ⟨rfl,ht⟩ := channel_other hc (fun b hb => he ⟨b,hb⟩)
        rw [ht, List.length_nil, Nat.add_zero] at hlen
        exact hlen ▸ hq
    · exact absurd hx hst'

/-- The batch in hand ends what has been appended when the channel is empty. -/
theorem Ordered.batch_last {old appended : List Command} {w : Writer} (h : Ordered old appended [] w) {id : Nat}
    (hid : id ∈ w.batchID) (hs : ¬ w.Stopped) : id = appended.length := by
  have hall := congrArg List.length (h.queue hs).1
  have hb := h.numbered.batch id hid
  simp only [List.flatMap_nil, List.append_nil, List.length_append] at hall
  omega

namespace Writer

/-- On the way out after the close signal. -/
def Leaving (w : Writer) : Prop :=
  match w.phase with
  | .writing _ next | .syncing next | .flushed next => next = .exit
  | .closing | .exited => True
  | _ => False

private theorem flush_leaving (w : Writer) (next : AfterFlush) :
    ((w.flush next).Leaving ↔ next = .exit) ∧ (w.flush next).phase ≠ .select ∧
      (w.flush next).accepted = w.accepted ∧ (w.flush next).flushedID = w.flushedID := by
  rcases flush_eq w next with ⟨_,he⟩ | he <;> simp [he, Leaving]

private theorem encodeCmd_leaving (w : Writer) (id : Nat) (cmd : Command) (rest : List Command) :
    ¬ (w.encodeCmd id cmd rest).Leaving ∧ (w.encodeCmd id cmd rest).phase ≠ .select := by
  rcases encodeCmd_eq w id cmd rest with he | ⟨_,_,he⟩ <;> simp [he, Leaving]

/-- Only the close signal sends the writer out, and on the way it takes and
publishes nothing. -/
theorem leaving_step {w w' : Writer} {e : Event} (hio : e.isIOError = false) (hs : w.step e = some w')
    (h : w'.Leaving) :
    (w.Leaving ∨ w.phase = .select ∧ e = .close) ∧ w'.accepted = w.accepted ∧ w'.flushedID = w.flushedID := by
  cases step_fires hs with
  | take | batchDone | busy | publish => simp [Leaving] at h
  | full hp _ | empty hp => exact absurd ((flush_leaving w _).1.mp h) (by simp)
  | fits hp _ => exact absurd h (encodeCmd_leaving w _ _ _).1
  | write n hp | wrote hp _ | wroteUnsynced hp _ | sync hp => exact ⟨.inl (by simpa [Leaving, hp] using h),rfl,rfl⟩
  | writeFails e hp | syncFails e hp | lastSyncFails e hp => cases hio
  | lastSync hp => exact ⟨.inl (by simp [Leaving, hp]),rfl,rfl⟩
  | @resume next hp =>
    cases next with
    | encode id c cs => exact absurd h (encodeCmd_leaving _ id c cs).1
    | publish id => simp [Writer.resume, Leaving] at h
    | exit => exact ⟨.inl (by simp [Leaving, hp]),rfl,rfl⟩
  | close hp => exact ⟨.inr ⟨hp,rfl⟩,(flush_leaving w _).2.2.1,(flush_leaving w _).2.2.2⟩

/-- Back at its select the writer has published the batch or seen another one queued. -/
theorem select_step {w w' : Writer} {e : Event} (hs : w.step e = some w') (h : w'.phase = .select) :
    e = .observe false ∨ w.phase = .publishing w'.flushedID := by
  cases step_fires hs with
  | take | batchDone | write | wrote | wroteUnsynced | sync | lastSync | lastSyncFails => cases h
  | full hp _ | empty hp | close hp => exact absurd h (flush_leaving w _).2.1
  | fits hp _ => exact absurd h (encodeCmd_leaving w _ _ _).2
  | writeFails e hp | syncFails e hp =>
    rcases fail_eq w _ e with he | he <;> rw [he] at h <;> cases h
  | @resume next hp =>
    cases next with
    | encode id c cs => exact absurd h (encodeCmd_leaving _ id c cs).2
    | publish id | exit => cases h
  | busy hp => exact .inl rfl
  | publish hp => exact .inr hp

/-- An error that is reported ends the writer. -/
theorem fails_step {w w' : Writer} {e : Event} (hf : w.Fails e = true) (hs : w.step e = some w') :
    w'.phase = .exited ∧ w'.err ≠ none := by
  have hio := (Bool.and_eq_true_iff.mp hf).1
  cases step_fires hs with
  | @writeFails e left next hp =>
    cases next with
    | exit => simp [Fails, hp] at hf
    | encode id c cs | publish id => exact ⟨rfl,by simp [fail]⟩
  | @syncFails e next hp =>
    cases next with
    | exit => simp [Fails, hp] at hf
    | encode id c cs | publish id => exact ⟨rfl,by simp [fail]⟩
  | lastSyncFails e hp => simp [Fails, hp] at hf
  | take | batchDone | full | fits | write | wrote | wroteUnsynced | sync | lastSync | resume | empty | busy | publish
  | close => cases hio

/-- The writer returns when it fails or when it is done closing. -/
theorem exits_step {w w' : Writer} {e : Event} (hs : w.step e = some w') (hx : w'.phase = .exited) :
    w.Fails e = true ∨ w.phase = .closing := by
  cases step_fires hs with
  | take | batchDone | write | wrote | wroteUnsynced | sync | busy | publish => cases hx
  | full hp _ | empty hp | close hp => rcases flush_eq w _ with ⟨_,he⟩ | he <;> rw [he] at hx <;> cases hx
  | fits hp _ => rcases encodeCmd_eq w _ _ _ with he | ⟨_,_,he⟩ <;> rw [he] at hx <;> cases hx
  | @writeFails e left next hp =>
    cases next with
    | exit => cases hx
    | encode id c cs | publish id => exact .inl (by simp [Fails, Event.isIOError, hp])
  | @syncFails e next hp =>
    cases next with
    | exit => cases hx
    | encode id c cs | publish id => exact .inl (by simp [Fails, Event.isIOError, hp])
  | lastSync hp | lastSyncFails e hp => exact .inr hp
  | @resume next hp =>
    cases next with
    | encode id c cs =>
      simp only [Writer.resume] at hx
      rcases encodeCmd_eq { w with buf := _ } id c cs with he | ⟨_,_,he⟩ <;> rw [he] at hx <;> cases hx
    | publish id | exit => cases hx

theorem exited_step {w : Writer} (hx : w.phase = .exited) (e : Event) : w.step e = none := by
  cases h : w.step e with
  | none => rfl
  | some w' => cases step_fires h <;> simp_all

end Writer

/-- The log with its writer. What was appended is recorded, and of it what was
appended before Close was called, with the id of the last of these batches. -/
structure Log where
  nextID : Nat
  appendCh : List Batch
  closed : Bool
  writer : Writer
  appended : List Command
  before : List Command
  lastID : Nat
  deriving DecidableEq

namespace Log

def init (mode : AckMode) (bufferSize : Nat) (old : List Command) : Log :=
  ⟨0,[],false,.init mode bufferSize old,[],[],0⟩

inductive Event where
  | append (cmds : List Command)
  | writer (e : Writer.Event)
  | close
  deriving DecidableEq

def Event.isIOError : Event → Bool
  | .writer e => e.isIOError
  | _ => false

/-- Append sends only into a channel with room. Closing twice panics. -/
def step (s : Log) : Event → Option Log
  | .append cmds =>
    let id := s.nextID+cmds.length
    if s.appendCh.length < appendChCapacity then some { s with
      nextID := id
      appendCh := s.appendCh ++ [⟨id,cmds⟩]
      appended := s.appended ++ cmds
      before := if s.closed then s.before else s.before ++ cmds
      lastID := if s.closed then s.lastID else id }
    else none
  | .writer e => do
    let appendCh ← channel s.appendCh s.closed e
    let writer ← s.writer.step e
    return { s with appendCh := appendCh, writer := writer }
  | .close => if s.closed then none else some { s with closed := true }

theorem step_writer {s s' : Log} {e : Writer.Event} (hs : s.step (.writer e) = some s') :
    s.writer.step e = some s'.writer := by
  simp only [step, Option.bind_eq_bind, Option.bind_eq_some_iff, Option.pure_def, Option.some.injEq] at hs
  obtain ⟨rest,_,w,hw,rfl⟩ := hs
  exact hw

theorem step_err {s s' : Log} {e : Writer.Event} (hf : s.writer.Fails e = false) (hs : s.step (.writer e) = some s') :
    s'.writer.err = s.writer.err :=
  (Writer.step_framed (step_writer hs)).err.resolve_right (by simp [hf])

theorem step_unpublished {s s' : Log} {e : Writer.Event} (hn : e ≠ .publish) (hs : s.step (.writer e) = some s') :
    s'.writer.flushedID = s.writer.flushedID :=
  (Writer.step_framed (step_writer hs)).flushedID.resolve_right (fun hp => hn hp.1)

theorem step_caller {s s' : Log} {e : Event} (he : ∀ e', e ≠ .writer e') (hs : s.step e = some s') :
    s'.writer = s.writer := by
  cases e with
  | append cmds =>
    simp only [step, Option.ite_none_right_eq_some, Option.some.injEq] at hs
    obtain ⟨_,rfl⟩ := hs
    rfl
  | writer e => exact absurd rfl (he e)
  | close =>
    simp only [step, Option.ite_none_left_eq_some, Option.some.injEq] at hs
    obtain ⟨_,rfl⟩ := hs
    rfl

def wait (s : Log) (id : Nat) : Option (Option Err) := s.writer.wait id

/-- Close waits for the writer. -/
def CloseReturned (s : Log) : Prop := s.closed = true ∧ s.writer.phase = .exited

/-- The writer takes the close signal only when no batch is queued. -/
def Drained (s : Log) (e : Event) : Prop := e = .writer .close → s.appendCh = []

instance (s : Log) (e : Event) : Decidable (Drained s e) :=
  inferInstanceAs (Decidable (e = .writer .close → s.appendCh = []))

/-- A writer at its select with nothing queued has published every id, and it
leaves only from there. -/
structure Inv (old : List Command) (s : Log) : Prop where
  ordered : Ordered old s.appended s.appendCh s.writer
  counted : s.nextID = s.appended.length
  before : s.before <+: s.appended
  lastID : s.lastID = s.before.length
  current : s.closed = false → s.before = s.appended
  complete : s.writer.Stopped → s.writer.written = encodeAll s.writer.accepted
  published : s.writer.phase = .select → s.appendCh = [] → s.writer.flushedID = s.nextID
  leaving : s.writer.Leaving →
    s.closed = true ∧ s.lastID ≤ s.writer.flushedID ∧ old ++ s.before <+: s.writer.accepted

theorem init_inv (mode : AckMode) (bufferSize : Nat) (old : List Command) : Inv old (init mode bufferSize old) where
  ordered := init_ordered mode bufferSize old
  counted := rfl
  before := List.prefix_rfl
  lastID := rfl
  current _ := rfl
  complete hs := by simp [init, Writer.init, Writer.Stopped] at hs
  published _ _ := rfl
  leaving hl := by simp [init, Writer.init, Writer.Leaving] at hl

private theorem Inv.append {old : List Command} {s : Log} (h : Inv old s) (cmds : List Command) :
    Inv old { s with
      nextID := s.nextID+cmds.length
      appendCh := s.appendCh ++ [⟨s.nextID+cmds.length,cmds⟩]
      appended := s.appended ++ cmds
      before := if s.closed then s.before else s.before ++ cmds
      lastID := if s.closed then s.lastID else s.nextID+cmds.length } where
  ordered := h.ordered.push (by rw [h.counted])
  counted := by simp [h.counted]
  before := by
    cases hc : s.closed with
    | true => exact h.before.trans (List.prefix_append _ _)
    | false =>
      have hb := h.current hc
      simp [hb]
  lastID := by
    cases hc : s.closed with
    | true => exact h.lastID
    | false => simp [h.counted, h.current hc]
  current hc := by
    have hc' : s.closed = false := hc
    simp [hc', h.current hc']
  complete := h.complete
  published _ hn := by simp at hn
  leaving hl := by
    obtain ⟨hc,hle,hb⟩ := h.leaving hl
    simpa [hc] using ⟨hle,hb⟩

private theorem Inv.writerStep {old : List Command} {s : Log} (h : Inv old s) {e : Writer.Event} {rest : List Batch}
    {w : Writer} (hio : e.isIOError = false) (hd : Drained s (.writer e)) (hc : channel s.appendCh s.closed e = some rest)
    (hs : s.writer.step e = some w) : Inv old { s with appendCh := rest, writer := w } where
  ordered := h.ordered.writerStep hc hs
  counted := h.counted
  before := h.before
  lastID := h.lastID
  current := h.current
  complete := Writer.step_complete h.ordered.writer h.complete hio hs
  published hp hn := by
    change rest = [] at hn
    subst hn
    rcases Writer.select_step hs hp with rfl | hpub
    · -- The writer has just seen a queued batch.
      simp [channel] at hc
    · have hidle : s.appendCh = [] := by
        by_cases he : ∃ b, e = .take b
        · obtain ⟨b,rfl⟩ := he
          simp [Writer.step, hpub] at hs
        · exact (channel_other hc (fun b hb => he ⟨b,hb⟩)).1.symm
      have ho := h.ordered
      rw [hidle] at ho
      rw [h.counted]
      exact ho.batch_last (by simp [Writer.batchID, hpub]) (by simp [Writer.Stopped, hpub])
  leaving hl := by
    obtain ⟨hfrom,ha,hf⟩ := Writer.leaving_step hio hs hl
    change s.closed = true ∧ s.lastID ≤ w.flushedID ∧ old ++ s.before <+: w.accepted
    rw [ha, hf]
    rcases hfrom with hw | ⟨hp,rfl⟩
    · exact h.leaving hw
    · have hempty := hd rfl
      have hclosed : s.closed = true := by
        simp only [channel, Option.ite_none_right_eq_some] at hc
        exact hc.1
      have hall := (h.ordered.queue (by simp [Writer.Stopped, hp])).1
      simp only [Writer.remaining, hp, hempty, List.flatMap_nil, List.append_nil] at hall
      refine ⟨hclosed,?_,?_⟩
      · rw [h.published hp hempty, h.counted, h.lastID]
        exact h.before.length_le
      · rw [hall]
        exact (List.prefix_append_right_inj old).mpr h.before

theorem step_inv {old : List Command} {s s' : Log} {e : Event} (h : Inv old s) (hio : e.isIOError = false)
    (hd : Drained s e) (hs : s.step e = some s') : Inv old s' := by
  cases e with
  | append cmds =>
    simp only [step, Option.ite_none_right_eq_some, Option.some.injEq] at hs
    obtain ⟨_,rfl⟩ := hs
    exact h.append cmds
  | writer e =>
    simp only [step, Option.bind_eq_bind, Option.bind_eq_some_iff, Option.pure_def, Option.some.injEq] at hs
    obtain ⟨rest,hc,w,hw,rfl⟩ := hs
    exact h.writerStep hio hd hc hw
  | close =>
    simp only [step, Option.ite_none_left_eq_some, Option.some.injEq] at hs
    obtain ⟨_,rfl⟩ := hs
    exact ⟨h.ordered,h.counted,h.before,h.lastID,by simp,h.complete,h.published,fun hl => ⟨rfl,(h.leaving hl).2⟩⟩

/-- Closing the log loses nothing as long as the writer takes the close signal only
once its channel is empty: when Close has returned without an I/O error the file
holds every batch appended before it in order, and their ids are published, so that
Wait returns for them at its next look. -/
theorem close_loses_nothing (mode : AckMode) (bufferSize : Nat) (old : List Command) (es : List Event)
    (hio : ∀ e ∈ es, e.isIOError = false) (hd : Machine.Meets step Drained (init mode bufferSize old) es) (s : Log)
    (hr : Machine.run step (init mode bufferSize old) es = some s) (hx : s.CloseReturned) :
    encodeAll (old ++ s.before) <+: s.writer.written ∧ s.lastID ≤ s.writer.flushedID ∧
      ∀ id ≤ s.lastID, (s.wait id).isSome := by
  have h : Inv old s := Machine.run_invariant_of_meets (I := Inv old)
    (fun _ _ _ hi hg hs => step_inv hi hg.1 hg.2 hs) (init_inv mode bufferSize old)
    ((Machine.meets_of_forall _ hio).and hd) hr
  obtain ⟨_,hid,hb⟩ := h.leaving (by simp [Writer.Leaving, hx.2])
  refine ⟨?_,hid,fun id hle => ?_⟩
  · rw [h.complete (.inr hx.2)]
    obtain ⟨rest,hrest⟩ := hb
    rw [← hrest, encodeAll_append (old ++ s.before)]
    exact List.prefix_append _ _
  · unfold wait Writer.wait
    split
    · rfl
    · rw [if_pos (.inl (hle.trans hid))]
      rfl

/-- A batch is written and published before the log is closed. -/
def sampleEvents : List Event :=
  [.append [samplePut],.writer (.take ⟨1,[samplePut]⟩),.writer .next,.writer .next,.writer (.observe true),
    .writer (.write 15),.writer .wrote,.writer .resume,.writer .publish,.close,.writer .close,.writer .resume,.writer .sync]

theorem close_loses_nothing_sample :
    ∃ s, Machine.run step (init .afterFlush 64 []) sampleEvents = some s ∧ s.CloseReturned ∧
      s.before = [samplePut] ∧ encodeAll [samplePut] <+: s.writer.written ∧ s.lastID ≤ s.writer.flushedID := by
  have hrun : ((Machine.run step (init .afterFlush 64 []) sampleEvents).map
      (fun s => (s.closed,s.writer.phase,s.before))) = some (true,.exited,[samplePut]) := by decide +kernel
  obtain ⟨s,hs,hf⟩ := Option.map_eq_some_iff.mp hrun
  simp only [Prod.mk.injEq] at hf
  obtain ⟨hc,hp,hb⟩ := hf
  obtain ⟨hw,hid,_⟩ := close_loses_nothing .afterFlush 64 [] sampleEvents (by decide) (by decide +kernel) s hs ⟨hc,hp⟩
  rw [hb] at hw
  exact ⟨s,hs,⟨hc,hp⟩,hb,hw,hid⟩

/-- A batch is queued when the log is closed, and the writer takes the close signal
first: Close returns, the batch is not in the file and waiting for it never ends. -/
theorem close_drops_queued :
    ∃ s, Machine.run step (init .afterFlush 64 [])
        [.append [samplePut],.close,.writer .close,.writer .resume,.writer .sync] = some s ∧
      s.CloseReturned ∧ s.before = [samplePut] ∧ s.lastID = 1 ∧ s.writer.written = [] ∧
      s.writer.flushedID = 0 ∧ s.wait 1 = none := by
  refine ⟨{ init .afterFlush 64 [] with
    nextID := 1, appendCh := [⟨1,[samplePut]⟩], closed := true, appended := [samplePut], before := [samplePut],
    lastID := 1, writer := { Writer.init .afterFlush 64 [] with phase := .exited } },?_⟩
  exact ⟨by decide +kernel,⟨rfl,rfl⟩,rfl,rfl,rfl,rfl,rfl⟩

end Log
end Wal
end Nawst.Core
