import Nawst.Lib.Machine
import Nawst.Lib.Buffer
import Nawst.Core.WalFormat

/-! The writer goroutine of the log as a machine. A write to the file advances by
any number of bytes at a time, so a crash is just the state it happens in. The ids
of batches, which count commands, are naturals where the source has uint64. -/
namespace Nawst.Core.Wal
open Lib Lib.ByteStream Lib.Buffer

inductive AckMode where
  | afterEnqueue | afterFlush | afterFsync
  deriving DecidableEq, Repr

/-- A queued batch with the sequence id of its last command. -/
structure Batch where
  id : Nat
  cmds : List Command
  deriving DecidableEq

/-- What the writer does once the flush it is in has succeeded. -/
inductive AfterFlush where
  | encode (id : Nat) (cmd : Command) (rest : List Command)
  | publish (id : Nat)
  | exit
  deriving DecidableEq

inductive Phase where
  | select
  | encoding (id : Nat) (cmds : List Command)
  | writing (left : List UInt8) (next : AfterFlush)
  | syncing (next : AfterFlush)
  | flushed (next : AfterFlush)
  | observing (id : Nat)
  | publishing (id : Nat)
  | closing
  | exited
  | panicked
  deriving DecidableEq

/-- The writer's variables, the file it owns and the commands encoded so far. -/
structure Writer where
  mode : AckMode
  buf : List UInt8
  pos : Nat
  phase : Phase
  written : List UInt8
  synced : Nat
  flushedID : Nat
  err : Option Err
  accepted : List Command
  deriving DecidableEq

/-- A writer appending to a file that already holds some records. -/
def Writer.init (mode : AckMode) (bufferSize : Nat) (old : List Command) : Writer :=
  ⟨mode,List.replicate bufferSize 0,0,.select,encodeAll old,(encodeAll old).length,0,none,old⟩

/-- The conservative size estimate, with both varints at their longest. -/
def needed (cmd : Command) : Nat := 1+2+8+maxVarintLen64*2+cmd.key.data.length+cmd.value.data.length

/-- Encode one command behind the cursor; none is an out-of-range panic. -/
def encodeInto (buf : List UInt8) (pos : Nat) (cmd : Command) : Option (List UInt8 × Nat) := do
  let buf ← putBytes buf pos [cmd.op]
  let pos := pos+1
  let buf ← putBytes buf pos (putBigEndian 2 cmd.vnodeID.toNat)
  let pos := pos+2
  let buf ← putBytes buf pos (putBigEndian 8 cmd.version.toNat)
  let pos := pos+8
  let buf ← putBytes buf pos (putUvarint cmd.key.data.length)
  let pos := pos+(putUvarint cmd.key.data.length).length
  let (buf,n) ← copyInto buf pos cmd.key.data
  let pos := pos+n
  let buf ← putBytes buf pos (putUvarint cmd.value.data.length)
  let pos := pos+(putUvarint cmd.value.data.length).length
  let (buf,n) ← copyInto buf pos cmd.value.data
  return (buf,pos+n)

namespace Writer

def encodeCmd (w : Writer) (id : Nat) (cmd : Command) (rest : List Command) : Writer :=
  match encodeInto w.buf w.pos cmd with
  | none => { w with phase := .panicked }
  | some (buf,pos) => { w with buf := buf, pos := pos, phase := .encoding id rest, accepted := w.accepted ++ [cmd] }

/-- Entering flush: nothing to do for an empty buffer, else a write of its content. -/
def flush (w : Writer) (next : AfterFlush) : Writer :=
  if w.pos = 0 then { w with phase := .flushed next }
  else { w with phase := .writing (w.buf.take w.pos) next }

/-- A flush error is fatal, except on the way out, where it is dropped. -/
def fail (w : Writer) (next : AfterFlush) (e : Err) : Writer :=
  match next with
  | .exit => { w with phase := .closing }
  | _ => { w with err := some e, phase := .exited }

theorem encodeCmd_eq (w : Writer) (id : Nat) (cmd : Command) (rest : List Command) :
    w.encodeCmd id cmd rest = { w with phase := .panicked } ∨
      ∃ buf pos, w.encodeCmd id cmd rest = { w with
        buf := buf, pos := pos, phase := .encoding id rest, accepted := w.accepted ++ [cmd] } := by
  simp only [encodeCmd]
  split
  · exact .inl rfl
  · exact .inr ⟨_,_,rfl⟩

theorem flush_eq (w : Writer) (next : AfterFlush) :
    w.pos = 0 ∧ w.flush next = { w with phase := .flushed next } ∨
      w.flush next = { w with phase := .writing (w.buf.take w.pos) next } := by
  by_cases hz : w.pos = 0
  · exact .inl ⟨hz,if_pos hz⟩
  · exact .inr (if_neg hz)

theorem fail_eq (w : Writer) (next : AfterFlush) (e : Err) :
    w.fail next e = { w with phase := .closing } ∨ w.fail next e = { w with err := some e, phase := .exited } := by
  cases next with
  | exit => exact .inl rfl
  | encode id cmd rest | publish id => exact .inr rfl

def resume (w : Writer) : AfterFlush → Writer
  | .encode id cmd rest =>
    let buf := if w.buf.length < needed cmd then List.replicate (needed cmd) 0 else w.buf
    encodeCmd { w with buf := buf } id cmd rest
  | .publish id => { w with phase := .publishing id }
  | .exit => { w with phase := .closing }

inductive Event where
  | take (b : Batch)
  | next
  | write (n : Nat)
  | wrote
  | writeFails (e : Err)
  | sync
  | syncFails (e : Err)
  | resume
  | observe (empty : Bool)
  | publish
  | close
  deriving DecidableEq

def step (w : Writer) : Event → Option Writer
  | .take b => if w.phase = .select then some { w with phase := .encoding b.id b.cmds } else none
  | .next => match w.phase with
    | .encoding id [] => some { w with phase := .observing id }
    | .encoding id (c::cs) =>
      if w.buf.length < w.pos+needed c then some (w.flush (.encode id c cs)) else some (w.encodeCmd id c cs)
    | _ => none
  | .write n => match w.phase with
    | .writing left next =>
      if n ≤ left.length then
        some { w with written := w.written ++ left.take n, phase := .writing (left.drop n) next }
      else none
    | _ => none
  | .wrote => match w.phase with
    | .writing [] next =>
      if w.mode = .afterFsync then some { w with phase := .syncing next }
      else some { w with pos := 0, phase := .flushed next }
    | _ => none
  | .writeFails e => match w.phase with
    | .writing _ next => some (w.fail next e)
    | _ => none
  | .sync => match w.phase with
    | .syncing next => some { w with synced := w.written.length, pos := 0, phase := .flushed next }
    | .closing => some { w with synced := w.written.length, phase := .exited }
    | _ => none
  | .syncFails e => match w.phase with
    | .syncing next => some (w.fail next e)
    | .closing => some { w with phase := .exited }
    | _ => none
  | .resume => match w.phase with
    | .flushed next => some (w.resume next)
    | _ => none
  | .observe empty => match w.phase with
    | .observing id => if empty then some (w.flush (.publish id)) else some { w with phase := .select }
    | _ => none
  | .publish => match w.phase with
    | .publishing id => some { w with flushedID := id, phase := .select }
    | _ => none
  | .close => if w.phase = .select then some (w.flush .exit) else none

def Event.isIOError : Event → Bool
  | .writeFails _ | .syncFails _ => true
  | _ => false

/-- Everything a step can do, one rule for each branch. -/
inductive Fires (w : Writer) : Event → Writer → Prop where
  | take (b : Batch) (hp : w.phase = .select) : Fires w (.take b) { w with phase := .encoding b.id b.cmds }
  | batchDone {id} (hp : w.phase = .encoding id []) : Fires w .next { w with phase := .observing id }
  | full {id c cs} (hp : w.phase = .encoding id (c::cs)) (hn : w.buf.length < w.pos+needed c) :
      Fires w .next (w.flush (.encode id c cs))
  | fits {id c cs} (hp : w.phase = .encoding id (c::cs)) (hn : w.pos+needed c ≤ w.buf.length) :
      Fires w .next (w.encodeCmd id c cs)
  | write (n : Nat) {left next} (hp : w.phase = .writing left next) :
      Fires w (.write n) { w with written := w.written ++ left.take n, phase := .writing (left.drop n) next }
  | wrote {next} (hp : w.phase = .writing [] next) (hm : w.mode ≠ .afterFsync) :
      Fires w .wrote { w with pos := 0, phase := .flushed next }
  | wroteUnsynced {next} (hp : w.phase = .writing [] next) (hm : w.mode = .afterFsync) :
      Fires w .wrote { w with phase := .syncing next }
  | writeFails (e : Err) {left next} (hp : w.phase = .writing left next) : Fires w (.writeFails e) (w.fail next e)
  | sync {next} (hp : w.phase = .syncing next) :
      Fires w .sync { w with synced := w.written.length, pos := 0, phase := .flushed next }
  | lastSync (hp : w.phase = .closing) : Fires w .sync { w with synced := w.written.length, phase := .exited }
  | syncFails (e : Err) {next} (hp : w.phase = .syncing next) : Fires w (.syncFails e) (w.fail next e)
  | lastSyncFails (e : Err) (hp : w.phase = .closing) : Fires w (.syncFails e) { w with phase := .exited }
  | resume {next} (hp : w.phase = .flushed next) : Fires w .resume (w.resume next)
  | empty {id} (hp : w.phase = .observing id) : Fires w (.observe true) (w.flush (.publish id))
  | busy {id} (hp : w.phase = .observing id) : Fires w (.observe false) { w with phase := .select }
  | publish {id} (hp : w.phase = .publishing id) : Fires w .publish { w with flushedID := id, phase := .select }
  | close (hp : w.phase = .select) : Fires w .close (w.flush .exit)

theorem step_fires {w w' : Writer} {e : Event} (hs : w.step e = some w') : Fires w e w' := by
  cases e with
  | take b =>
    simp only [step, Option.ite_none_right_eq_some, Option.some.injEq] at hs
    obtain ⟨hp,rfl⟩ := hs
    exact .take b hp
  | next =>
    simp only [step] at hs
    split at hs
    · cases hs; exact .batchDone ‹_›
    · split at hs
      · cases hs; exact .full ‹_› ‹_›
      · cases hs; exact .fits ‹_› (by omega)
    · cases hs
  | write n =>
    simp only [step] at hs
    split at hs
    · simp only [Option.ite_none_right_eq_some, Option.some.injEq] at hs
      obtain ⟨_,rfl⟩ := hs
      exact .write n ‹_›
    · cases hs
  | wrote =>
    simp only [step] at hs
    split at hs
    · split at hs
      · cases hs; exact .wroteUnsynced ‹_› ‹_›
      · cases hs; exact .wrote ‹_› ‹_›
    · cases hs
  | writeFails e =>
    simp only [step] at hs
    split at hs
    · cases hs; exact .writeFails e ‹_›
    · cases hs
  | sync =>
    simp only [step] at hs
    split at hs
    · cases hs; exact .sync ‹_›
    · cases hs; exact .lastSync ‹_›
    · cases hs
  | syncFails e =>
    simp only [step] at hs
    split at hs
    · cases hs; exact .syncFails e ‹_›
    · cases hs; exact .lastSyncFails e ‹_›
    · cases hs
  | resume =>
    simp only [step] at hs
    split at hs
    · cases hs; exact .resume ‹_›
    · cases hs
  | observe empty =>
    simp only [step] at hs
    split at hs
    · cases empty <;> cases hs
      · exact .busy ‹_›
      · exact .empty ‹_›
    · cases hs
  | publish =>
    simp only [step] at hs
    split at hs
    · cases hs; exact .publish ‹_›
    · cases hs
  | close =>
    simp only [step, Option.ite_none_right_eq_some, Option.some.injEq] at hs
    obtain ⟨hp,rfl⟩ := hs
    exact .close hp

end Writer

/-- The size estimate covers the record: nothing is out of range or cut short. -/
theorem encodeInto_filled {size : Nat} {buf bs : List UInt8} (h : Filled size buf bs) (cmd : Command)
    (hn : bs.length+needed cmd ≤ size) :
    ∃ buf', encodeInto buf bs.length cmd = some (buf',(bs ++ encode cmd).length) ∧
      Filled size buf' (bs ++ encode cmd) := by
  have hk := (putUvarint_length cmd.key.data.length).2
  have hv := (putUvarint_length cmd.value.data.length).2
  unfold needed at hn
  obtain ⟨b₁,e₁,h₁⟩ := h.putBytes [cmd.op] (by simp; omega)
  obtain ⟨b₂,e₂,h₂⟩ := h₁.putBytes (putBigEndian 2 cmd.vnodeID.toNat) (by simp; omega)
  obtain ⟨b₃,e₃,h₃⟩ := h₂.putBytes (putBigEndian 8 cmd.version.toNat) (by simp; omega)
  obtain ⟨b₄,e₄,h₄⟩ := h₃.putBytes (putUvarint cmd.key.data.length) (by simp; omega)
  obtain ⟨b₅,e₅,h₅⟩ := h₄.copyInto cmd.key.data (by simp; omega)
  obtain ⟨b₆,e₆,h₆⟩ := h₅.putBytes (putUvarint cmd.value.data.length) (by simp; omega)
  obtain ⟨b₇,e₇,h₇⟩ := h₆.copyInto cmd.value.data (by simp; omega)
  have hb : bs ++ encode cmd = bs ++ [cmd.op] ++ putBigEndian 2 cmd.vnodeID.toNat ++
      putBigEndian 8 cmd.version.toNat ++ putUvarint cmd.key.data.length ++ cmd.key.data ++
      putUvarint cmd.value.data.length ++ cmd.value.data := by
    simp [encode, encodeBody]
  refine ⟨b₇,?_,hb ▸ h₇⟩
  simp only [List.length_append, List.length_singleton, putBigEndian_length] at e₂ e₃ e₄ e₅ e₆ e₇
  simp only [encodeInto, e₁, e₂, e₃, e₄, e₅, e₆, e₇, Option.bind_eq_bind, Option.bind_some, hb,
    List.length_append, List.length_singleton, putBigEndian_length]
  rfl

def AfterFlush.remaining : AfterFlush → List Command
  | .encode _ c cs => c::cs
  | .publish _ | .exit => []

namespace Writer

/-- The bytes of the current batch that have been encoded but are not in the file. -/
def unwritten (w : Writer) : List UInt8 :=
  match w.phase with
  | .writing left _ => left
  | .syncing _ | .flushed _ | .publishing _ => []
  | _ => w.buf.take w.pos

/-- Commands of the batch in hand that are still to be encoded. -/
def remaining (w : Writer) : List Command :=
  match w.phase with
  | .encoding _ cs => cs
  | .writing _ next | .syncing next | .flushed next => next.remaining
  | _ => []

def Stopped (w : Writer) : Prop := w.phase = .closing ∨ w.phase = .exited

/-- Phases outside a flush, where an fsyncing writer has synced all it wrote. -/
def Settled (w : Writer) : Prop :=
  match w.phase with
  | .writing _ _ | .syncing _ | .closing | .exited => False
  | _ => True

/-- File and buffer together are the encoding of the accepted commands. Only on
its way out, after a failed flush, may the writer leave a proper prefix behind. -/
structure Inv (w : Writer) : Prop where
  pos_le : w.pos ≤ w.buf.length
  alive : w.phase ≠ .panicked
  running : ¬ w.Stopped → w.written ++ w.unwritten = encodeAll w.accepted
  file : w.written <+: encodeAll w.accepted
  flushed : ∀ next, w.phase = .flushed next → w.pos = 0
  publishing : ∀ id, w.phase = .publishing id → w.pos = 0
  synced : w.mode = .afterFsync → w.Settled → w.synced = w.written.length

theorem init_inv (mode : AckMode) (bufferSize : Nat) (old : List Command) : Inv (init mode bufferSize old) where
  pos_le := Nat.zero_le _
  alive := by simp [init]
  running _ := by simp [init, unwritten]
  file := List.prefix_rfl
  flushed _ h := by cases h
  publishing _ h := by cases h
  synced _ _ := rfl

/-- The invariant between flushes, as the helpers of a step need it. -/
private structure Steady (w : Writer) : Prop where
  pos_le : w.pos ≤ w.buf.length
  content : w.written ++ w.buf.take w.pos = encodeAll w.accepted
  synced : w.mode = .afterFsync → w.synced = w.written.length

private theorem Inv.steady {w : Writer} (h : Inv w) (hs : w.Settled) : Steady w where
  pos_le := h.pos_le
  content := by
    have hr := h.running (by
      rintro (hp | hp) <;> simp [Settled, hp] at hs)
    unfold unwritten at hr
    split at hr
    · rename_i hp
      simp [Settled, hp] at hs
    · rename_i hp
      simp [Settled, hp] at hs
    · rename_i next hp
      simpa [h.flushed next hp] using hr
    · rename_i id hp
      simpa [h.publishing id hp] using hr
    · exact hr
  synced hm := h.synced hm hs

private theorem Steady.idle {w : Writer} (h : Steady w) {p : Phase}
    (hp : p = .select ∨ (∃ id cs, p = .encoding id cs) ∨ ∃ id, p = .observing id) : Inv { w with phase := p } := by
  have hu : ({ w with phase := p } : Writer).unwritten = w.buf.take w.pos := by
    rcases hp with rfl | ⟨_,_,rfl⟩ | ⟨_,rfl⟩ <;> rfl
  refine ⟨h.pos_le,?_,fun _ => hu ▸ h.content,⟨_,h.content⟩,?_,?_,fun hm _ => h.synced hm⟩ <;>
    rcases hp with rfl | ⟨_,_,rfl⟩ | ⟨_,rfl⟩ <;> simp

private theorem Steady.flush {w : Writer} (h : Steady w) (next : AfterFlush) : Inv (w.flush next) := by
  rcases flush_eq w next with ⟨hz,he⟩ | he
  · have hc := h.content
    rw [hz, List.take_zero] at hc
    rw [he]
    exact ⟨h.pos_le,by simp,fun _ => by simpa [unwritten] using hc,⟨_,h.content⟩,fun _ _ => hz,
      by simp,fun hm _ => h.synced hm⟩
  · rw [he]
    exact ⟨h.pos_le,by simp,fun _ => h.content,⟨_,h.content⟩,by simp,by simp,fun _ hs => by simp [Settled] at hs⟩

private theorem Steady.encodeCmd {w : Writer} (h : Steady w) (id : Nat) (cmd : Command) (rest : List Command)
    (hn : w.pos+needed cmd ≤ w.buf.length) : Inv (w.encodeCmd id cmd rest) := by
  have ht : w.buf.take w.pos <+: w.buf := List.take_prefix _ _
  have hf : Filled w.buf.length w.buf (w.buf.take w.pos) := ⟨ht,rfl⟩
  have hl : (w.buf.take w.pos).length = w.pos := by simpa using h.pos_le
  obtain ⟨buf',he,hf'⟩ := encodeInto_filled hf cmd (by rw [hl]; exact hn)
  rw [hl] at he
  have hw : w.encodeCmd id cmd rest = { w with
      buf := buf', pos := (w.buf.take w.pos ++ encode cmd).length, phase := .encoding id rest,
      accepted := w.accepted ++ [cmd] } := by
    simp only [Writer.encodeCmd, he]
  have hs : Steady { w with buf := buf', pos := (w.buf.take w.pos ++ encode cmd).length, accepted := w.accepted ++ [cmd] } :=
    ⟨hf'.size_eq ▸ hf'.length_le,by
      change w.written ++ buf'.take (w.buf.take w.pos ++ encode cmd).length = _
      rw [hf'.take_eq, ← List.append_assoc, h.content]
      simp,h.synced⟩
  rw [hw]
  exact hs.idle (.inr (.inl ⟨id,rest,rfl⟩))

private theorem Inv.fail {w : Writer} (h : Inv w) (next : AfterFlush) (e : Err) : Inv (w.fail next e) := by
  rcases fail_eq w next e with he | he
  all_goals
    rw [he]
    exact ⟨h.pos_le,by simp,fun hn => absurd (by simp [Stopped]) hn,h.file,by simp,by simp,
      fun _ hs => by simp [Settled] at hs⟩

private theorem Inv.resume {w : Writer} (h : Inv w) {next : AfterFlush} (hp : w.phase = .flushed next) :
    Inv (w.resume next) := by
  have hz := h.flushed next hp
  have hs := h.steady (by simp [Settled, hp])
  have hc := hs.content
  rw [hz, List.take_zero] at hc
  cases next with
  | encode id cmd rest =>
    simp only [Writer.resume]
    split
    · have hg : Steady { w with buf := List.replicate (needed cmd) 0 } :=
        ⟨by simp [hz],by simpa [hz] using hc,hs.synced⟩
      exact hg.encodeCmd id cmd rest (by simp [hz])
    · rename_i hl
      exact hs.encodeCmd id cmd rest (by omega)
  | publish id =>
    exact ⟨h.pos_le,by simp [Writer.resume],fun _ => hc,h.file,by simp [Writer.resume],fun _ _ => hz,
      fun hm _ => hs.synced hm⟩
  | exit =>
    exact ⟨h.pos_le,by simp [Writer.resume],fun hn => absurd (.inl rfl) hn,h.file,by simp [Writer.resume],
      by simp [Writer.resume],fun _ hn => by simp [Settled, Writer.resume] at hn⟩

private theorem Inv.stopped {w w' : Writer} (h : Inv w) (hb : w'.buf = w.buf) (hp : w'.pos = w.pos)
    (hw : w'.written = w.written) (ha : w'.accepted = w.accepted) (hs : w'.phase = .exited) : Inv w' where
  pos_le := by rw [hb, hp]; exact h.pos_le
  alive := by simp [hs]
  running hn := absurd (.inr hs) hn
  file := by rw [hw, ha]; exact h.file
  flushed _ hf := by rw [hs] at hf; cases hf
  publishing _ hf := by rw [hs] at hf; cases hf
  synced _ hn := by simp [Settled, hs] at hn

/-- Every step of the writer keeps the invariant, failures included. -/
theorem step_inv {w w' : Writer} {e : Event} (h : Inv w) (hs : w.step e = some w') : Inv w' := by
  cases step_fires hs with
  | take b hp => exact (h.steady (by simp [Settled, hp])).idle (.inr (.inl ⟨_,_,rfl⟩))
  | batchDone hp => exact (h.steady (by simp [Settled, hp])).idle (.inr (.inr ⟨_,rfl⟩))
  | full hp _ => exact (h.steady (by simp [Settled, hp])).flush _
  | fits hp hn => exact (h.steady (by simp [Settled, hp])).encodeCmd _ _ _ hn
  | @write n left next hp =>
    have hr := h.running (by simp [Stopped, hp])
    simp only [unwritten, hp] at hr
    have hall : w.written ++ left.take n ++ left.drop n = encodeAll w.accepted := by
      rw [List.append_assoc, List.take_append_drop, hr]
    exact ⟨h.pos_le,by simp,fun _ => hall,⟨_,hall⟩,by simp,by simp,fun _ hn => by simp [Settled] at hn⟩
  | wrote hp hm =>
    have hr := h.running (by simp [Stopped, hp])
    simp only [unwritten, hp] at hr
    exact ⟨Nat.zero_le _,by simp,fun _ => hr,h.file,by simp,by simp,fun hf _ => absurd hf hm⟩
  | wroteUnsynced hp _ =>
    have hr := h.running (by simp [Stopped, hp])
    simp only [unwritten, hp] at hr
    exact ⟨h.pos_le,by simp,fun _ => hr,h.file,by simp,by simp,fun _ hn => by simp [Settled] at hn⟩
  | writeFails e hp => exact h.fail _ e
  | sync hp =>
    have hr := h.running (by simp [Stopped, hp])
    simp only [unwritten, hp] at hr
    exact ⟨Nat.zero_le _,by simp,fun _ => hr,h.file,by simp,by simp,fun _ _ => rfl⟩
  | lastSync hp => exact h.stopped rfl rfl rfl rfl rfl
  | syncFails e hp => exact h.fail _ e
  | lastSyncFails e hp => exact h.stopped rfl rfl rfl rfl rfl
  | resume hp => exact h.resume hp
  | empty hp => exact (h.steady (by simp [Settled, hp])).flush _
  | busy hp => exact (h.steady (by simp [Settled, hp])).idle (.inl rfl)
  | @publish id hp =>
    have hst := h.steady (by simp [Settled, hp])
    exact (Steady.mk (w := { w with flushedID := id }) hst.pos_le hst.content hst.synced).idle (.inl rfl)
  | close hp => exact (h.steady (by simp [Settled, hp])).flush _

/-- The commands of the batches received during a run, in order. -/
def taken (es : List Event) : List Command :=
  es.flatMap (fun | .take b => b.cmds | _ => [])

private theorem flush_kept (w : Writer) (next : AfterFlush) :
    (w.flush next).accepted = w.accepted ∧ (w.flush next).remaining = next.remaining ∧ ¬ (w.flush next).Stopped := by
  rcases flush_eq w next with ⟨_,he⟩ | he <;> simp [he, remaining, Stopped]

private theorem encodeCmd_kept {w : Writer} {id : Nat} {c : Command} {cs : List Command}
    (h : (w.encodeCmd id c cs).phase ≠ .panicked) :
    (w.encodeCmd id c cs).accepted ++ (w.encodeCmd id c cs).remaining = w.accepted ++ c::cs ∧
      ¬ (w.encodeCmd id c cs).Stopped := by
  rcases encodeCmd_eq w id c cs with he | ⟨_,_,he⟩
  · simp [he] at h
  · simp [he, remaining, Stopped]

theorem stopped_step {w w' : Writer} {e : Event} (h : w.Stopped) (hs : w.step e = some w') :
    w'.Stopped ∧ w'.accepted = w.accepted := by
  rcases h with hc | hx <;> cases step_fires hs <;> simp_all [Stopped]

private theorem fail_stopped (w : Writer) (next : AfterFlush) (e : Err) :
    (w.fail next e).accepted = w.accepted ∧ (w.fail next e).Stopped := by
  rcases fail_eq w next e with he | he <;> simp [he, Stopped]

/-- What is accepted or still to be encoded only grows by what is taken, until an
I/O error stops the writer. -/
theorem step_conserves {w w' : Writer} {e : Event} (h : Inv w) (hs : w.step e = some w') :
    w'.accepted ++ w'.remaining = w.accepted ++ w.remaining ++ taken [e] ∨
      e.isIOError = true ∧ w'.accepted = w.accepted ∧ w'.Stopped := by
  have hi := step_inv h hs
  have mid {next : AfterFlush} (hn : w.remaining = next.remaining) :
      (w.flush next).accepted ++ (w.flush next).remaining = w.accepted ++ w.remaining ++ [] := by
    rw [(flush_kept w next).1, (flush_kept w next).2.1, hn, List.append_nil]
  cases step_fires hs with
  | take b hp => simp [remaining, taken, hp]
  | batchDone hp => simp [remaining, taken, hp]
  | full hp _ => exact .inl (mid (by simp only [remaining, hp, AfterFlush.remaining]))
  | @fits id c cs hp _ =>
    have hr : w.remaining = c::cs := by simp only [remaining, hp]
    rw [(encodeCmd_kept hi.alive).1, hr]
    exact .inl (List.append_nil _).symm
  | write n hp => simp [remaining, taken, hp]
  | wrote hp _ => simp [remaining, taken, hp]
  | wroteUnsynced hp _ => simp [remaining, taken, hp]
  | writeFails e hp => exact .inr ⟨rfl,fail_stopped w _ e⟩
  | sync hp => simp [remaining, taken, hp]
  | lastSync hp => simp [remaining, taken, hp]
  | syncFails e hp => exact .inr ⟨rfl,fail_stopped w _ e⟩
  | lastSyncFails e hp => exact .inr ⟨rfl,rfl,.inr rfl⟩
  | @resume next hp =>
    cases next with
    | encode id c cs =>
      obtain ⟨he,_⟩ := encodeCmd_kept hi.alive
      simpa [remaining, taken, hp, Writer.resume, AfterFlush.remaining] using .inl he
    | publish id => simp [Writer.resume, remaining, taken, hp, AfterFlush.remaining]
    | exit => simp [Writer.resume, remaining, taken, hp, AfterFlush.remaining]
  | empty hp => exact .inl (mid (by simp only [remaining, hp, AfterFlush.remaining]))
  | busy hp => simp [remaining, taken, hp]
  | publish hp => simp [remaining, taken, hp]
  | close hp => exact .inl (mid (by simp only [remaining, hp, AfterFlush.remaining]))

/-- Without I/O errors nothing received is dropped, and the file is complete at the end. -/
private structure Kept (w : Writer) (cmds : List Command) : Prop extends Inv w where
  kept : w.accepted ++ w.remaining = cmds
  complete : w.Stopped → w.written = encodeAll w.accepted

/-- The writer stops on its own only after a flush. -/
theorem step_complete {w w' : Writer} {e : Event} (h : Inv w)
    (hc : w.Stopped → w.written = encodeAll w.accepted) (hio : e.isIOError = false) (hs : w.step e = some w') :
    w'.Stopped → w'.written = encodeAll w'.accepted := by
  have hi := step_inv h hs
  intro hst
  cases step_fires hs with
  | take | batchDone | write | wrote | wroteUnsynced | sync | busy | publish => simp [Stopped] at hst
  | full hp _ | empty hp | close hp => exact absurd hst (flush_kept _ _).2.2
  | fits hp _ => exact absurd hst (encodeCmd_kept hi.alive).2
  | writeFails e hp | syncFails e hp | lastSyncFails e hp => cases hio
  | lastSync hp => exact hc (.inl hp)
  | @resume next hp =>
    cases next with
    | encode id c cs => exact absurd hst (encodeCmd_kept hi.alive).2
    | publish id => simp [Writer.resume, Stopped] at hst
    | exit =>
      have hw := h.running (by simp [Stopped, hp])
      simp only [unwritten, hp, List.append_nil] at hw
      exact hw

private theorem step_kept {w w' : Writer} {e : Event} {cmds : List Command} (h : Kept w cmds)
    (hio : e.isIOError = false) (hs : w.step e = some w') : Kept w' (cmds ++ taken [e]) where
  toInv := step_inv h.toInv hs
  kept := by
    rcases step_conserves h.toInv hs with hk | ⟨he,_⟩
    · rw [hk, h.kept]
    · simp [hio] at he
  complete := step_complete h.toInv h.complete hio hs

private theorem run_kept {w w' : Writer} {es : List Event} {cmds : List Command} (h : Kept w cmds)
    (hio : ∀ e ∈ es, e.isIOError = false) (hr : Machine.run step w es = some w') : Kept w' (cmds ++ taken es) := by
  induction es generalizing w cmds with
  | nil =>
    cases hr
    simpa [taken] using h
  | cons e es ih =>
    obtain ⟨w₁,hs,hr'⟩ := Machine.run_cons.mp hr
    obtain ⟨he,hes⟩ := List.forall_mem_cons.mp hio
    have := ih (step_kept h he hs) hes hr'
    simpa [taken] using this

/-- Buffered writing loses nothing: whatever the buffer size, the batches and the
observations of the channel, no write leaves the buffer or is cut, the file and
the buffer hold the accepted commands in order, and at every flush the file alone
replays to exactly these commands. -/
theorem buffered_log_replays (mode : AckMode) (bufferSize : Nat) (old : List Command) (es : List Event)
    (hio : ∀ e ∈ es, e.isIOError = false) (w : Writer)
    (hr : Machine.run step (init mode bufferSize old) es = some w) :
    w.phase ≠ .panicked ∧
    w.accepted ++ w.remaining = old ++ taken es ∧
    (¬ w.Stopped → w.written ++ w.unwritten = encodeAll w.accepted) ∧
    ((∃ next, w.phase = .flushed next) ∨ w.Stopped →
      w.written = encodeAll w.accepted ∧
      ∀ (σ : Type) (apply : σ → Command → σ × Option Err) (s : σ),
        (∀ s c, (apply s c).2 = none) → replayWal apply w.written s = (applyEach apply s w.accepted,.ok)) := by
  have hk : Kept w (old ++ taken es) :=
    run_kept ⟨init_inv mode bufferSize old,by simp [init, remaining],by simp [Stopped, init]⟩ hio hr
  have hfile : (∃ next, w.phase = .flushed next) ∨ w.Stopped → w.written = encodeAll w.accepted := by
    rintro (⟨next,hp⟩ | hst)
    · have hw := hk.running (by simp [Stopped, hp])
      simpa [unwritten, hp] using hw
    · exact hk.complete hst
  refine ⟨hk.alive,hk.kept,hk.running,fun hf => ⟨hfile hf,?_⟩⟩
  intro σ apply s hok
  rw [hfile hf]
  exact replayWal_encodeAll (fun c _ s => hok s c) s

/-- A writer with no buffer at all, growing it for its first command. -/
def sampleEvents : List Event :=
  [.take ⟨1,[samplePut]⟩,.next,.resume,.next,.observe true,.write 9,.write 6,.wrote]

def sampleWriter : Writer :=
  (Machine.run step (init .afterFlush 0 []) sampleEvents).getD (init .afterFlush 0 [])

theorem buffered_log_replays_sample :
    sampleWriter.accepted = [samplePut] ∧ sampleWriter.written = encodeAll [samplePut] ∧
      replayWal (fun cs c => (cs ++ [c],none)) sampleWriter.written [] = ([samplePut],.ok) := by
  have hrun : Machine.run step (init .afterFlush 0 []) sampleEvents = some sampleWriter := by decide
  have hacc : sampleWriter.accepted = [samplePut] := by decide
  obtain ⟨_,_,_,hflush⟩ := buffered_log_replays .afterFlush 0 [] sampleEvents (by decide) sampleWriter hrun
  obtain ⟨hfile,hreplay⟩ := hflush (.inl ⟨.publish 1,by decide⟩)
  rw [hacc] at hfile hreplay
  exact ⟨hacc,hfile,hreplay _ _ [] (fun _ _ => rfl)⟩

end Writer
end Nawst.Core.Wal
