import Nawst.Core.WalLog

/-! Waiting for the log, step by step. A waiter checks the published id and the error
under the mutex before it goes to sleep. The writer stores a published id and then
broadcasts without the mutex; only when it fails does it hold the mutex meanwhile. -/
namespace Nawst.Core.Wal
open Lib

/-- Where a call of Wait is. -/
inductive WaitPhase where
  | arriving
  | loading
  | parking
  | asleep
  | leaving (err : Option Err)
  | returned (err : Option Err)
  deriving DecidableEq

/-- The waiter is inside the mutex. -/
def WaitPhase.inside : WaitPhase → Bool
  | .loading | .parking | .leaving _ => true
  | .arriving | .asleep | .returned _ => false

structure Waiter where
  id : Nat
  phase : WaitPhase
  deriving DecidableEq

/-- A broadcast sends every sleeper back to the mutex. -/
def Waiter.wake (w : Waiter) : Waiter := if w.phase = .asleep then { w with phase := .arriving } else w

inductive Holder where
  | writer
  | waiter (i : Nat)
  deriving DecidableEq

/-- What the writer has still to do about a store or an error. A store is known by
the id that was published before it. -/
inductive Signal where
  | idle
  | stored (previous : Nat)
  | failing (e : Writer.Event)
  | raised
  | unlocking
  deriving DecidableEq

/-- The writer is inside fail, and so inside the mutex. -/
def Signal.inFail : Signal → Bool
  | .failing _ | .raised | .unlocking => true
  | .idle | .stored _ => false

/-- The broadcast for the store that reached an id is still to come. -/
def Signal.owes (id : Nat) : Signal → Bool
  | .stored previous => previous < id
  | _ => false

structure Monitor where
  log : Log
  mutex : Option Holder
  waiters : List Waiter
  signal : Signal
  deriving DecidableEq

namespace Monitor

def init (mode : AckMode) (bufferSize : Nat) (old : List Command) : Monitor :=
  ⟨.init mode bufferSize old,none,[],.idle⟩

def flushedID (s : Monitor) : Nat := s.log.writer.flushedID

inductive Event where
  | append (cmds : List Command)
  | close
  | writer (e : Writer.Event)
  | fail (e : Writer.Event)
  | setErr
  | broadcast
  | unlock
  | wait (id : Nat)
  | lock (i : Nat)
  | load (i : Nat)
  | sleep (i : Nat)
  | leave (i : Nat)
  deriving DecidableEq

/-- One atomic step of the writer or of a waiter; none while it has to wait. -/
def step (s : Monitor) : Event → Option Monitor
  | .append cmds => (s.log.step (.append cmds)).map (fun l => { s with log := l })
  | .close => (s.log.step .close).map (fun l => { s with log := l })
  | .writer e =>
    if s.signal = .idle ∧ s.log.writer.Fails e = false then
      (s.log.step (.writer e)).map (fun l => { s with log := l, signal := if e = .publish then .stored s.flushedID else .idle })
    else none
  | .fail e =>
    if s.signal = .idle ∧ s.log.writer.Fails e = true ∧ s.mutex = none then
      some { s with mutex := some .writer, signal := .failing e }
    else none
  | .setErr => match s.signal with
    | .failing e => (s.log.step (.writer e)).map (fun l => { s with log := l, signal := .raised })
    | _ => none
  | .broadcast => match s.signal with
    | .stored _ => some { s with waiters := s.waiters.map Waiter.wake, signal := .idle }
    | .raised => some { s with waiters := s.waiters.map Waiter.wake, signal := .unlocking }
    | _ => none
  | .unlock => if s.signal = .unlocking then some { s with mutex := none, signal := .idle } else none
  | .wait id =>
    let phase := if s.log.writer.mode = .afterEnqueue then .returned none else .arriving
    some { s with waiters := s.waiters ++ [⟨id,phase⟩] }
  | .lock i => match s.waiters[i]? with
    | some ⟨id,.arriving⟩ =>
      if s.mutex = none then some { s with mutex := some (.waiter i), waiters := s.waiters.set i ⟨id,.loading⟩ } else none
    | _ => none
  | .load i => match s.waiters[i]? with
    | some ⟨id,.loading⟩ =>
      let phase := if s.flushedID < id ∧ s.log.writer.err = none then .parking else .leaving s.log.writer.err
      some { s with waiters := s.waiters.set i ⟨id,phase⟩ }
    | _ => none
  | .sleep i => match s.waiters[i]? with
    | some ⟨id,.parking⟩ => some { s with mutex := none, waiters := s.waiters.set i ⟨id,.asleep⟩ }
    | _ => none
  | .leave i => match s.waiters[i]? with
    | some ⟨id,.leaving err⟩ => some { s with mutex := none, waiters := s.waiters.set i ⟨id,.returned err⟩ }
    | _ => none

/-- Everything a step can do, one rule for each branch. -/
inductive Fires (s : Monitor) : Event → Monitor → Prop where
  | append {cmds : List Command} {l : Log} (hl : s.log.step (.append cmds) = some l) :
      Fires s (.append cmds) { s with log := l }
  | close {l : Log} (hl : s.log.step .close = some l) : Fires s .close { s with log := l }
  | store {l : Log} (hi : s.signal = .idle) (hl : s.log.step (.writer .publish) = some l) :
      Fires s (.writer .publish) { s with log := l, signal := .stored s.flushedID }
  | writer {e : Writer.Event} {l : Log} (hi : s.signal = .idle) (hf : s.log.writer.Fails e = false) (he : e ≠ .publish)
      (hl : s.log.step (.writer e) = some l) : Fires s (.writer e) { s with log := l }
  | fail {e : Writer.Event} (hi : s.signal = .idle) (hf : s.log.writer.Fails e = true) (hm : s.mutex = none) :
      Fires s (.fail e) { s with mutex := some .writer, signal := .failing e }
  | setErr {e : Writer.Event} {l : Log} (hi : s.signal = .failing e) (hl : s.log.step (.writer e) = some l) :
      Fires s .setErr { s with log := l, signal := .raised }
  | broadcast {previous : Nat} (hi : s.signal = .stored previous) :
      Fires s .broadcast { s with waiters := s.waiters.map Waiter.wake, signal := .idle }
  | raise (hi : s.signal = .raised) :
      Fires s .broadcast { s with waiters := s.waiters.map Waiter.wake, signal := .unlocking }
  | unlock (hi : s.signal = .unlocking) : Fires s .unlock { s with mutex := none, signal := .idle }
  | wait (id : Nat) {phase : WaitPhase} (hp : phase = .arriving ∨ phase = .returned none) :
      Fires s (.wait id) { s with waiters := s.waiters ++ [⟨id,phase⟩] }
  | lock {i id : Nat} (hw : s.waiters[i]? = some ⟨id,.arriving⟩) (hm : s.mutex = none) :
      Fires s (.lock i) { s with mutex := some (.waiter i), waiters := s.waiters.set i ⟨id,.loading⟩ }
  | park {i id : Nat} (hw : s.waiters[i]? = some ⟨id,.loading⟩) (hid : s.flushedID < id) (he : s.log.writer.err = none) :
      Fires s (.load i) { s with waiters := s.waiters.set i ⟨id,.parking⟩ }
  | pass {i id : Nat} (hw : s.waiters[i]? = some ⟨id,.loading⟩) :
      Fires s (.load i) { s with waiters := s.waiters.set i ⟨id,.leaving s.log.writer.err⟩ }
  | sleep {i id : Nat} (hw : s.waiters[i]? = some ⟨id,.parking⟩) :
      Fires s (.sleep i) { s with mutex := none, waiters := s.waiters.set i ⟨id,.asleep⟩ }
  | leave {i id : Nat} {err : Option Err} (hw : s.waiters[i]? = some ⟨id,.leaving err⟩) :
      Fires s (.leave i) { s with mutex := none, waiters := s.waiters.set i ⟨id,.returned err⟩ }

theorem step_fires {s s' : Monitor} {e : Event} (hs : s.step e = some s') : Fires s e s' := by
  cases e with
  | append cmds =>
    obtain ⟨l,hl,rfl⟩ := Option.map_eq_some_iff.mp hs
    exact .append hl
  | close =>
    obtain ⟨l,hl,rfl⟩ := Option.map_eq_some_iff.mp hs
    exact .close hl
  | writer e =>
    simp only [step, Option.ite_none_right_eq_some, Option.map_eq_some_iff] at hs
    obtain ⟨⟨hi,hf⟩,l,hl,rfl⟩ := hs
    by_cases he : e = .publish
    · subst he
      exact .store hi hl
    · have hsame : ({ s with log := l, signal := .idle } : Monitor) = { s with log := l } := by rw [← hi]
      rw [if_neg he, hsame]
      exact .writer hi hf he hl
  | fail e =>
    simp only [step, Option.ite_none_right_eq_some, Option.some.injEq] at hs
    obtain ⟨⟨hi,hf,hm⟩,rfl⟩ := hs
    exact .fail hi hf hm
  | setErr =>
    simp only [step] at hs
    split at hs
    · obtain ⟨l,hl,rfl⟩ := Option.map_eq_some_iff.mp hs
      exact .setErr ‹_› hl
    · cases hs
  | broadcast =>
    simp only [step] at hs
    split at hs
    · cases hs
      exact .broadcast ‹_›
    · cases hs
      exact .raise ‹_›
    · cases hs
  | unlock =>
    simp only [step, Option.ite_none_right_eq_some, Option.some.injEq] at hs
    obtain ⟨hi,rfl⟩ := hs
    exact .unlock hi
  | wait id =>
    cases hs
    exact .wait id (by split <;> simp)
  | lock i =>
    simp only [step] at hs
    split at hs
    · simp only [Option.ite_none_right_eq_some, Option.some.injEq] at hs
      obtain ⟨hm,rfl⟩ := hs
      exact .lock ‹_› hm
    · cases hs
  | load i =>
    simp only [step] at hs
    split at hs
    · split at hs
      · rename_i hw hc
        cases hs
        exact .park hw hc.1 hc.2
      · cases hs
        exact .pass ‹_›
    · cases hs
  | sleep i =>
    simp only [step] at hs
    split at hs
    · cases hs
      exact .sleep ‹_›
    · cases hs
  | leave i =>
    simp only [step] at hs
    split at hs
    · cases hs
      exact .leave ‹_›
    · cases hs

/-- The mutex keeps the writer's fail and the waiters apart, so a waiter only goes
to sleep while there is no error, and an error finds it asleep. -/
structure Inv (s : Monitor) : Prop where
  failing : ∀ e, s.signal = .failing e → e.isIOError = true
  writerHolds : s.signal.inFail = true → s.mutex = some .writer
  waiterHolds : ∀ i w, s.waiters[i]? = some w → w.phase.inside = true → s.mutex = some (.waiter i)
  parking : ∀ w ∈ s.waiters, w.phase = .parking → s.log.writer.err = none
  asleep : ∀ w ∈ s.waiters, w.phase = .asleep → s.log.writer.err = none ∨ s.signal = .raised

theorem init_inv (mode : AckMode) (bufferSize : Nat) (old : List Command) : Inv (init mode bufferSize old) where
  failing _ h := by cases h
  writerHolds h := by cases h
  waiterHolds _ _ h := by simp [init] at h
  parking _ h := by simp [init] at h
  asleep _ h := by simp [init] at h

private theorem Inv.asleep_err {s : Monitor} (h : Inv s) (hr : s.signal ≠ .raised) :
    ∀ w ∈ s.waiters, w.phase = .asleep → s.log.writer.err = none :=
  fun w hw hp => (h.asleep w hw hp).resolve_right hr

private theorem Waiter.wake_phase (w : Waiter) :
    w.wake.phase ≠ .asleep ∧ w.wake.id = w.id ∧ (w.wake.phase = .parking → w.phase = .parking) ∧
      (w.wake.phase.inside = true → w.phase.inside = true) := by
  unfold Waiter.wake
  split
  · simp [WaitPhase.inside]
  · simp_all

/-- The log moves on while every waiter and the mutex stay where they are. -/
private theorem Inv.log {s : Monitor} (h : Inv s) {l : Log} (he : l.writer.err = s.log.writer.err) {sig : Signal}
    (hi : sig = s.signal ∨ s.signal = .idle ∧ ∃ previous, sig = .stored previous) :
    Inv { s with log := l, signal := sig } where
  failing e hs := by
    rcases hi with rfl | ⟨_,_,rfl⟩
    · exact h.failing e hs
    · cases hs
  writerHolds hs := by
    rcases hi with rfl | ⟨_,_,rfl⟩
    · exact h.writerHolds hs
    · cases hs
  waiterHolds := h.waiterHolds
  parking w hw hp := by
    rw [he]
    exact h.parking w hw hp
  asleep w hw hp := by
    rw [he]
    rcases hi with rfl | ⟨hidle,_,rfl⟩
    · exact h.asleep w hw hp
    · exact .inl (h.asleep_err (by simp [hidle]) w hw hp)

/-- A broadcast leaves no sleeper. -/
private theorem Inv.wakeAll {s : Monitor} (h : Inv s) {sig : Signal} (hf : ∀ e, sig ≠ .failing e)
    (hm : sig.inFail = true → s.signal.inFail = true) :
    Inv { s with waiters := s.waiters.map Waiter.wake, signal := sig } where
  failing e hs := absurd hs (hf e)
  writerHolds hs := h.writerHolds (hm hs)
  waiterHolds i w hw hp := by
    simp only [List.getElem?_map, Option.map_eq_some_iff] at hw
    obtain ⟨w₀,hw₀,rfl⟩ := hw
    exact h.waiterHolds i w₀ hw₀ ((Waiter.wake_phase w₀).2.2.2 hp)
  parking w hw hp := by
    obtain ⟨w₀,hw₀,rfl⟩ := List.mem_map.mp hw
    exact h.parking w₀ hw₀ ((Waiter.wake_phase w₀).2.2.1 hp)
  asleep w hw hp := by
    obtain ⟨w₀,_,rfl⟩ := List.mem_map.mp hw
    exact absurd hp (Waiter.wake_phase w₀).1

/-- A waiter moves on inside the mutex. -/
private theorem Inv.move {s : Monitor} (h : Inv s) {i : Nat} {w : Waiter} (hm : s.mutex = some (.waiter i))
    (hp : w.phase = .parking → s.log.writer.err = none) (ha : w.phase ≠ .asleep) :
    Inv { s with waiters := s.waiters.set i w } where
  failing := h.failing
  writerHolds := h.writerHolds
  waiterHolds j v hv hin := by
    rcases Machine.getElem?_set_cases hv with ⟨rfl,_⟩ | ⟨_,hv'⟩
    · exact hm
    · exact h.waiterHolds j v hv' hin
  parking := Machine.forall_mem_set h.parking hp
  asleep := Machine.forall_mem_set h.asleep (fun hs => absurd hs ha)

/-- A waiter gives the mutex up, to sleep or to return. -/
private theorem Inv.release {s : Monitor} (h : Inv s) {i : Nat} {w : Waiter} (hm : s.mutex = some (.waiter i))
    (ho : w.phase.inside = false) (ha : w.phase = .asleep → s.log.writer.err = none) :
    Inv { s with mutex := none, waiters := s.waiters.set i w } where
  failing := h.failing
  writerHolds hs := by
    rw [h.writerHolds hs] at hm
    cases hm
  waiterHolds j v hv hin := by
    rcases Machine.getElem?_set_cases hv with ⟨_,rfl⟩ | ⟨hne,hv'⟩
    · rw [ho] at hin
      cases hin
    · have hj := h.waiterHolds j v hv' hin
      rw [hm] at hj
      cases hj
      exact absurd rfl hne
  parking := Machine.forall_mem_set h.parking (fun hp => by rw [hp] at ho; cases ho)
  asleep := Machine.forall_mem_set h.asleep (fun hs => .inl (ha hs))

/-- While the writer holds the mutex no waiter is between its check and its sleep. -/
private theorem Inv.none_inside {s : Monitor} (h : Inv s) (hf : s.signal.inFail = true) {w : Waiter}
    (hw : w ∈ s.waiters) : w.phase.inside = false := by
  obtain ⟨i,hi⟩ := List.mem_iff_getElem?.mp hw
  cases hin : w.phase.inside with
  | false => rfl
  | true =>
    have hm := h.waiterHolds i w hi hin
    rw [h.writerHolds hf] at hm
    cases hm

theorem step_inv {s s' : Monitor} {e : Event} (h : Inv s) (hs : s.step e = some s') : Inv s' := by
  cases step_fires hs with
  | append hl => exact h.log (congrArg Writer.err (Log.step_caller (by simp) hl)) (.inl rfl)
  | close hl => exact h.log (congrArg Writer.err (Log.step_caller (by simp) hl)) (.inl rfl)
  | store hi hl => exact h.log (Log.step_err rfl hl) (.inr ⟨hi,_,rfl⟩)
  | writer hi hf _ hl => exact h.log (Log.step_err hf hl) (.inl rfl)
  | @fail e hi hf hm =>
    have hfree (i : Nat) (w : Waiter) : s.waiters[i]? = some w → w.phase.inside = true → False := by
      intro hw hin
      have hj := h.waiterHolds i w hw hin
      rw [hm] at hj
      cases hj
    refine ⟨?_,fun _ => rfl,fun i w hw hin => (hfree i w hw hin).elim,h.parking,?_⟩
    · intro e' he'
      cases he'
      exact (Bool.and_eq_true_iff.mp hf).1
    · exact fun w hw hp => .inl (h.asleep_err (by simp [hi]) w hw hp)
  | setErr hi hl =>
    have hin : s.signal.inFail = true := by rw [hi]; rfl
    refine ⟨by simp,fun _ => h.writerHolds hin,h.waiterHolds,?_,fun _ _ _ => .inr rfl⟩
    intro w hw hp
    have ho := h.none_inside hin hw
    rw [hp] at ho
    cases ho
  | broadcast hi => exact h.wakeAll (by simp) (by simp [Signal.inFail])
  | raise hi => exact h.wakeAll (by simp) (fun _ => by rw [hi]; rfl)
  | unlock hi =>
    have hin : s.signal.inFail = true := by rw [hi]; rfl
    refine ⟨by simp,by simp [Signal.inFail],?_,h.parking,?_⟩
    · intro i w hw hp
      rw [h.none_inside hin (List.mem_of_getElem? hw)] at hp
      cases hp
    · exact fun w hw hp => .inl (h.asleep_err (by simp [hi]) w hw hp)
  | wait id hp =>
    refine ⟨h.failing,h.writerHolds,?_,Machine.forall_mem_concat h.parking ?_,Machine.forall_mem_concat h.asleep ?_⟩
    · intro i w hw hin
      rcases Machine.getElem?_concat_cases hw with hw | ⟨_,rfl⟩
      · exact h.waiterHolds i w hw hin
      · -- A new waiter is outside.
        rcases hp with rfl | rfl <;> cases hin
    · rcases hp with rfl | rfl <;> simp
    · rcases hp with rfl | rfl <;> simp
  | @lock i id hw hm =>
    refine ⟨h.failing,?_,?_,Machine.forall_mem_set h.parking (by simp),Machine.forall_mem_set h.asleep (by simp)⟩
    · intro hf
      rw [h.writerHolds hf] at hm
      cases hm
    · intro j w hw' hin
      rcases Machine.getElem?_set_cases hw' with ⟨rfl,_⟩ | ⟨_,hj⟩
      · rfl
      · rw [h.waiterHolds j w hj hin] at hm
        cases hm
  | park hw _ he => exact h.move (h.waiterHolds _ _ hw rfl) (fun _ => he) (by simp)
  | pass hw => exact h.move (h.waiterHolds _ _ hw rfl) (by simp) (by simp)
  | sleep hw =>
    exact h.release (h.waiterHolds _ _ hw rfl) rfl (fun _ => h.parking _ (List.mem_of_getElem? hw) rfl)
  | leave hw => exact h.release (h.waiterHolds _ _ hw rfl) rfl (by simp)

/-- A waiter sleeps, or is about to, without the wakeup that is due to it. -/
def Forgotten (s : Monitor) (w : Waiter) : Prop := w.id ≤ s.flushedID ∧ s.signal.owes w.id = false

/-- A waiter is asleep, its id is published, and the store that reached its id has
been broadcast. -/
def LostWakeup (s : Monitor) : Prop := ∃ w ∈ s.waiters, w.phase = .asleep ∧ s.Forgotten w

instance (s : Monitor) (w : Waiter) : Decidable (s.Forgotten w) :=
  inferInstanceAs (Decidable (w.id ≤ s.flushedID ∧ s.signal.owes w.id = false))

instance (s : Monitor) : Decidable s.LostWakeup :=
  inferInstanceAs (Decidable (∃ w ∈ s.waiters, w.phase = .asleep ∧ s.Forgotten w))

/-- A store is broadcast only while no waiter whose id it reached stands between its
check and its sleep. -/
def Heard (s : Monitor) (e : Event) : Prop :=
  e = .broadcast → s.signal ≠ .raised → ∀ w ∈ s.waiters, w.phase = .parking → s.flushedID < w.id

instance (s : Monitor) (e : Event) : Decidable (Heard s e) :=
  inferInstanceAs (Decidable (e = .broadcast → s.signal ≠ .raised → ∀ w ∈ s.waiters, w.phase = .parking → s.flushedID < w.id))

/-- No waiter that sleeps or is about to is forgotten. -/
def Remembered (s : Monitor) : Prop :=
  ∀ w ∈ s.waiters, w.phase = .asleep ∨ w.phase = .parking → ¬ s.Forgotten w

/-- With no store on its way the ids of the sleepers are not published. -/
private theorem Remembered.unpublished {s : Monitor} (h : Remembered s) (hi : ∀ id, s.signal.owes id = false) {w : Waiter}
    (hw : w ∈ s.waiters) (hp : w.phase = .asleep ∨ w.phase = .parking) : s.flushedID < w.id :=
  Nat.lt_of_not_le (fun hle => h w hw hp ⟨hle,hi w.id⟩)

private theorem Remembered.frame {s s' : Monitor} (h : Remembered s) (hf : s'.flushedID = s.flushedID)
    (hi : ∀ id, s.signal.owes id = true → s'.signal.owes id = true) (hw : s'.waiters = s.waiters) : Remembered s' := by
  intro w hin hp hg
  rw [hw] at hin
  refine h w hin hp ⟨hf ▸ hg.1,Bool.eq_false_iff.mpr (fun ho => ?_)⟩
  exact absurd (hi w.id ho) (by simp [hg.2])

private theorem Remembered.set {s : Monitor} (h : Remembered s) {i : Nat} {w : Waiter} {m : Option Holder}
    (hp : w.phase = .asleep ∨ w.phase = .parking → ¬ s.Forgotten w) :
    Remembered { s with mutex := m, waiters := s.waiters.set i w } :=
  Machine.forall_mem_set h hp

theorem step_remembered {s s' : Monitor} {e : Event} (hv : Inv s) (h : Remembered s) (hg : Heard s e)
    (hs : s.step e = some s') : Remembered s' := by
  cases step_fires hs with
  | append hl => exact h.frame (congrArg Writer.flushedID (Log.step_caller (by simp) hl)) (fun _ ho => ho) rfl
  | close hl => exact h.frame (congrArg Writer.flushedID (Log.step_caller (by simp) hl)) (fun _ ho => ho) rfl
  | store hi hl =>
    -- Who sleeps now was waiting for more than was published before.
    intro w hw hp hf
    have hlt := h.unpublished (by simp [hi, Signal.owes]) hw hp
    simp [Forgotten, Signal.owes] at hf
    omega
  | writer hi _ he hl => exact h.frame (Log.step_unpublished he hl) (fun _ ho => ho) rfl
  | fail hi _ _ => exact h.frame rfl (by simp [hi, Signal.owes]) rfl
  | setErr hi hl =>
    have he := hv.failing _ hi
    exact h.frame (Log.step_unpublished (by rintro rfl; cases he) hl) (by simp [hi, Signal.owes]) rfl
  | broadcast hi =>
    intro w hw hp hf
    obtain ⟨w₀,hw₀,rfl⟩ := List.mem_map.mp hw
    obtain ⟨hna,hid,hpark,_⟩ := Waiter.wake_phase w₀
    have hlt := hg rfl (by simp [hi]) w₀ hw₀ (hpark (hp.resolve_left hna))
    have hle : w₀.wake.id ≤ s.flushedID := hf.1
    omega
  | raise hi =>
    intro w hw hp hf
    obtain ⟨w₀,hw₀,rfl⟩ := List.mem_map.mp hw
    obtain ⟨hna,_,hpark,_⟩ := Waiter.wake_phase w₀
    have hout := hv.none_inside (by rw [hi]; rfl) hw₀
    rw [hpark (hp.resolve_left hna)] at hout
    cases hout
  | unlock hi => exact h.frame rfl (by simp [hi, Signal.owes]) rfl
  | wait id hp =>
    refine Machine.forall_mem_concat h ?_
    rcases hp with rfl | rfl <;> simp
  | lock hw hm => exact h.set (by simp)
  | park hw hid _ => exact h.set (fun _ hf => Nat.not_le.mpr hid hf.1)
  | pass hw => exact h.set (by simp)
  | sleep hw => exact h.set (fun _ hf => h _ (List.mem_of_getElem? hw) (.inr rfl) hf)
  | leave hw => exact h.set (by simp)

/-- No wakeup is lost as long as no store is broadcast while a waiter whose id it
reached stands between its check and its sleep. -/
theorem no_lost_wakeup (mode : AckMode) (bufferSize : Nat) (old : List Command) (es : List Event)
    (hg : Machine.Meets step Heard (init mode bufferSize old) es) (s : Monitor)
    (hr : Machine.run step (init mode bufferSize old) es = some s) : ¬ s.LostWakeup := by
  have h : Inv s ∧ Remembered s := Machine.run_invariant_of_meets (I := fun s => Inv s ∧ Remembered s)
    (fun _ _ _ hi hg hs => ⟨step_inv hi.1 hs,step_remembered hi.1 hi.2 hg hs⟩)
    ⟨init_inv mode bufferSize old,by simp [Remembered, init]⟩ hg hr
  rintro ⟨w,hw,hp,hf⟩
  exact h.2 w hw (.inl hp) hf

/-- The writer's side of one batch up to the store of its id. -/
def sampleBatch : List Event :=
  [.append [samplePut],.writer (.take ⟨1,[samplePut]⟩),.writer .next,.writer .next,.writer (.observe true),
    .writer (.write 15),.writer .wrote,.writer .resume,.writer .publish]

/-- A waiter that sleeps before the id is stored is woken by the broadcast. -/
theorem no_lost_wakeup_sample :
    ∃ s, Machine.run step (init .afterFlush 64 [])
        ([.wait 1,.lock 0,.load 0,.sleep 0] ++ sampleBatch ++ [.broadcast,.lock 0,.load 0,.leave 0]) = some s ∧
      s.waiters = [⟨1,.returned none⟩] ∧ ¬ s.LostWakeup := by
  have hrun : (Machine.run step (init .afterFlush 64 [])
      ([.wait 1,.lock 0,.load 0,.sleep 0] ++ sampleBatch ++ [.broadcast,.lock 0,.load 0,.leave 0])).map
        Monitor.waiters = some [⟨1,.returned none⟩] := by decide +kernel
  obtain ⟨s,hs,hw⟩ := Option.map_eq_some_iff.mp hrun
  exact ⟨s,hs,hw,no_lost_wakeup .afterFlush 64 [] _ (by decide +kernel) s hs⟩

/-- The waiter checks, the writer stores and broadcasts, and only then does the waiter
go to sleep: its id is published and nobody will wake it. -/
theorem sleeps_after_broadcast :
    ∃ s, Machine.run step (init .afterFlush 64 [])
        ([.wait 1,.lock 0,.load 0] ++ sampleBatch ++ [.broadcast,.sleep 0]) = some s ∧
      s.waiters = [⟨1,.asleep⟩] ∧ s.flushedID = 1 ∧ s.signal = .idle ∧ s.LostWakeup := by
  have hrun : (Machine.run step (init .afterFlush 64 [])
      ([.wait 1,.lock 0,.load 0] ++ sampleBatch ++ [.broadcast,.sleep 0])).map
        (fun s => (s.waiters,s.flushedID,s.signal)) = some ([⟨1,.asleep⟩],1,.idle) := by decide +kernel
  obtain ⟨s,hs,hf⟩ := Option.map_eq_some_iff.mp hrun
  simp only [Prod.mk.injEq] at hf
  obtain ⟨hw,hid,hi⟩ := hf
  exact ⟨s,hs,hw,hid,hi,⟨1,.asleep⟩,by simp [hw],rfl,by simp [hid],by simp [hi, Signal.owes]⟩

/-- The mutex makes fail safe without any condition: a sleeper of a failed log is
always about to be woken. -/
theorem fail_wakes_all (mode : AckMode) (bufferSize : Nat) (old : List Command) (es : List Event) (s : Monitor)
    (hr : Machine.run step (init mode bufferSize old) es = some s) (he : s.log.writer.err ≠ none) :
    ∀ w ∈ s.waiters, w.phase = .asleep → s.signal = .raised := by
  have h : Inv s := Machine.run_invariant (fun _ _ _ hi hs => step_inv hi hs) (init_inv mode bufferSize old) hr
  exact fun w hw hp => (h.asleep w hw hp).resolve_left he

end Monitor
end Nawst.Core.Wal
