import Nawst.Core.WalWriter

/-! What a published sequence id promises: every command up to it is in the file,
and past the last sync too when the writer syncs. -/
namespace Nawst.Core.Wal

def AfterFlush.batchID : AfterFlush → Option Nat
  | .encode id _ _ | .publish id => some id
  | .exit => none

namespace Writer

/-- The sequence id of the batch in hand. -/
def batchID (w : Writer) : Option Nat :=
  match w.phase with
  | .encoding id _ | .observing id | .publishing id => some id
  | .writing _ next | .syncing next | .flushed next => next.batchID
  | _ => none

/-- The commands up to the published id, with those that were there at the start. -/
def published (start : Nat) (w : Writer) : List Command := w.accepted.take (start+w.flushedID)

/-- Sequence ids count the commands taken since the start. -/
structure Numbered (start : Nat) (w : Writer) : Prop where
  batch : ∀ id ∈ w.batchID, w.accepted.length+w.remaining.length = start+id
  flushed_le : start+w.flushedID ≤ w.accepted.length
  written : encodeAll (w.published start) <+: w.written
  synced : w.mode = .afterFsync → (encodeAll (w.published start)).length ≤ w.synced

theorem init_numbered (mode : AckMode) (bufferSize : Nat) (old : List Command) :
    Numbered old.length (init mode bufferSize old) where
  batch id hid := by simp [init, batchID] at hid
  flushed_le := by simp [init]
  written := by simp [init, published]
  synced _ := by simp [init, published]

/-- What stays true while the id is not published and nothing is taken back. -/
private theorem Numbered.frame {start : Nat} {w w' : Writer} (h : Numbered start w) (ha : w.accepted <+: w'.accepted)
    (hw : w.written <+: w'.written) (hf : w'.flushedID = w.flushedID) (hm : w'.mode = w.mode)
    (hs : w.synced ≤ w'.synced ∨ w'.synced = w'.written.length)
    (hb : ∀ id ∈ w'.batchID, w'.accepted.length+w'.remaining.length = start+id) : Numbered start w' := by
  have hp : w'.published start = w.published start := by
    obtain ⟨rest,hrest⟩ := ha
    rw [published, published, ← hrest, hf, List.take_append_of_le_length h.flushed_le]
  refine ⟨hb,?_,?_,?_⟩
  · rw [hf]
    exact h.flushed_le.trans ha.length_le
  · rw [hp]
    exact h.written.trans hw
  · intro hmode
    rw [hp]
    have hold := h.synced (hm ▸ hmode)
    rcases hs with hs | hs
    · exact hold.trans hs
    · rw [hs]
      exact (h.written.trans hw).length_le

private theorem Numbered.flush {start : Nat} {w : Writer} (h : Numbered start w) {next : AfterFlush}
    (hb : ∀ id ∈ next.batchID, w.accepted.length+next.remaining.length = start+id) : Numbered start (w.flush next) := by
  rcases flush_eq w next with ⟨_,he⟩ | he
  all_goals
    rw [he]
    exact h.frame List.prefix_rfl List.prefix_rfl rfl rfl (.inl (Nat.le_refl _)) hb

private theorem Numbered.encodeCmd {start : Nat} {w : Writer} (h : Numbered start w) {id : Nat} {cmd : Command}
    {rest : List Command} (hb : w.accepted.length+(cmd::rest).length = start+id) :
    Numbered start (w.encodeCmd id cmd rest) := by
  rcases encodeCmd_eq w id cmd rest with he | ⟨buf,pos,he⟩
  · rw [he]
    exact h.frame List.prefix_rfl List.prefix_rfl rfl rfl (.inl (Nat.le_refl _)) (by simp [batchID])
  · rw [he]
    refine h.frame (List.prefix_append _ _) List.prefix_rfl rfl rfl (.inl (Nat.le_refl _)) ?_
    intro i hi
    simp only [batchID, Option.mem_def, Option.some.injEq] at hi
    simp only [remaining, List.length_append, List.length_cons, List.length_nil] at hb ⊢
    omega

private theorem Numbered.stop {start : Nat} {w w' : Writer} (h : Numbered start w) (ha : w'.accepted = w.accepted)
    (hw : w'.written = w.written) (hf : w'.flushedID = w.flushedID) (hm : w'.mode = w.mode)
    (hs : w.synced ≤ w'.synced ∨ w'.synced = w'.written.length) (hp : w'.phase = .closing ∨ w'.phase = .exited) :
    Numbered start w' := by
  refine h.frame (ha ▸ List.prefix_rfl) (hw ▸ List.prefix_rfl) hf hm hs ?_
  intro id hid
  rcases hp with hp | hp <;> simp [batchID, hp] at hid

private theorem Numbered.fail {start : Nat} {w : Writer} (h : Numbered start w) (next : AfterFlush) (e : Err) :
    Numbered start (w.fail next e) := by
  rcases fail_eq w next e with he | he
  · exact he ▸ h.stop rfl rfl rfl rfl (.inl (Nat.le_refl _)) (.inl rfl)
  · exact he ▸ h.stop rfl rfl rfl rfl (.inl (Nat.le_refl _)) (.inr rfl)

/-- A batch is numbered when its id counts the commands up to its end. -/
def TakesNumbered (start : Nat) (w : Writer) (e : Event) : Prop :=
  ∀ b, e = .take b → w.accepted.length+b.cmds.length = start+b.id

theorem step_numbered {start : Nat} {w w' : Writer} {e : Event} (hi : Inv w) (h : Numbered start w)
    (he : TakesNumbered start w e) (hs : w.step e = some w') : Numbered start w' := by
  have same {w' : Writer} (ha : w'.accepted = w.accepted) (hw : w.written <+: w'.written)
      (hf : w'.flushedID = w.flushedID) (hm : w'.mode = w.mode)
      (hsy : w.synced ≤ w'.synced ∨ w'.synced = w'.written.length) (hb : w'.batchID = w.batchID)
      (hr : w'.remaining = w.remaining) : Numbered start w' :=
    h.frame (ha ▸ List.prefix_rfl) hw hf hm hsy (by rw [hb, ha, hr]; exact h.batch)
  cases step_fires hs with
  | take b hp =>
    refine h.frame List.prefix_rfl List.prefix_rfl rfl rfl (.inl (Nat.le_refl _)) ?_
    intro id hid
    simp only [batchID, Option.mem_def, Option.some.injEq] at hid
    simpa [remaining, hid] using he b rfl
  | batchDone hp =>
    exact same rfl List.prefix_rfl rfl rfl (.inl (Nat.le_refl _)) (by simp [batchID, hp]) (by simp [remaining, hp])
  | @full id c cs hp _ =>
    have hb := h.batch id (by simp [batchID, hp])
    simp only [remaining, hp] at hb
    exact h.flush (by simpa [AfterFlush.batchID, AfterFlush.remaining] using hb)
  | @fits id c cs hp _ =>
    have hb := h.batch id (by simp [batchID, hp])
    simp only [remaining, hp] at hb
    exact h.encodeCmd hb
  | write n hp =>
    exact same rfl (List.prefix_append _ _) rfl rfl (.inl (Nat.le_refl _)) (by simp [batchID, hp])
      (by simp [remaining, hp])
  | wrote hp _ =>
    exact same rfl List.prefix_rfl rfl rfl (.inl (Nat.le_refl _)) (by simp [batchID, hp]) (by simp [remaining, hp])
  | wroteUnsynced hp _ =>
    exact same rfl List.prefix_rfl rfl rfl (.inl (Nat.le_refl _)) (by simp [batchID, hp]) (by simp [remaining, hp])
  | writeFails e hp => exact h.fail _ e
  | sync hp =>
    exact same rfl List.prefix_rfl rfl rfl (.inr rfl) (by simp [batchID, hp]) (by simp [remaining, hp])
  | lastSync hp => exact h.stop rfl rfl rfl rfl (.inr rfl) (.inr rfl)
  | syncFails e hp => exact h.fail _ e
  | lastSyncFails e hp => exact h.stop rfl rfl rfl rfl (.inl (Nat.le_refl _)) (.inr rfl)
  | @resume next hp =>
    have hb := h.batch
    simp only [batchID, remaining, hp] at hb
    cases next with
    | encode id c cs =>
      have hgrown : Numbered start { w with buf := if w.buf.length < needed c then List.replicate (needed c) 0 else w.buf } :=
        same rfl List.prefix_rfl rfl rfl (.inl (Nat.le_refl _)) rfl rfl
      exact hgrown.encodeCmd (hb id rfl)
    | publish id =>
      exact same rfl List.prefix_rfl rfl rfl (.inl (Nat.le_refl _))
        (by simp [Writer.resume, batchID, hp, AfterFlush.batchID])
        (by simp [Writer.resume, remaining, hp, AfterFlush.remaining])
    | exit => exact h.stop rfl rfl rfl rfl (.inl (Nat.le_refl _)) (.inl rfl)
  | @empty id hp =>
    have hb := h.batch id (by simp [batchID, hp])
    simp only [remaining, hp] at hb
    exact h.flush (by simpa [AfterFlush.batchID, AfterFlush.remaining] using hb)
  | busy hp => exact h.frame List.prefix_rfl List.prefix_rfl rfl rfl (.inl (Nat.le_refl _)) (by simp [batchID])
  | @publish id hp =>
    -- Before an id is published its flush has put everything accepted into the file.
    have hb := h.batch id (by simp [batchID, hp])
    have hfile := hi.running (by simp [Stopped, hp])
    simp only [remaining, hp, List.length_nil, Nat.add_zero] at hb
    simp only [unwritten, hp, List.append_nil] at hfile
    have hall : ({ w with flushedID := id, phase := .select } : Writer).published start = w.accepted := by
      simp [published, ← hb]
    refine ⟨by simp [batchID],by simp [hb],?_,?_⟩
    · rw [hall, ← hfile]
    · intro hmode
      rw [hall, ← hfile]
      exact (hi.synced hmode (by simp [Settled, hp])).ge
  | close hp => exact h.flush (by simp [AfterFlush.batchID])

/-- Whether a step of the writer is an I/O error it reports through fail. -/
def Fails (w : Writer) (e : Event) : Bool :=
  e.isIOError && match w.phase with
    | .writing _ next | .syncing next => next != .exit
    | _ => false

/-- What a step can do to the variables that the callers of the log read. -/
structure Framed (w w' : Writer) (e : Event) : Prop where
  mode : w'.mode = w.mode
  flushedID : w'.flushedID = w.flushedID ∨ e = .publish ∧ w.phase = .publishing w'.flushedID
  err : w'.err = w.err ∨ w.Fails e = true

private theorem flush_framed (w : Writer) (next : AfterFlush) (e : Event) : Framed w (w.flush next) e := by
  rcases flush_eq w next with ⟨_,he⟩ | he <;> exact he ▸ ⟨rfl,.inl rfl,.inl rfl⟩

private theorem encodeCmd_framed (w : Writer) (id : Nat) (cmd : Command) (rest : List Command) (e : Event) :
    Framed w (w.encodeCmd id cmd rest) e := by
  rcases encodeCmd_eq w id cmd rest with he | ⟨_,_,he⟩ <;> exact he ▸ ⟨rfl,.inl rfl,.inl rfl⟩

private theorem fail_framed {w : Writer} {next : AfterFlush} {e : Event} (err : Err)
    (hf : next ≠ .exit → w.Fails e = true) : Framed w (w.fail next err) e := by
  cases next with
  | exit => exact ⟨rfl,.inl rfl,.inl rfl⟩
  | encode id cmd rest | publish id => exact ⟨rfl,.inl rfl,.inr (hf (by simp))⟩

theorem step_framed {w w' : Writer} {e : Event} (hs : w.step e = some w') : Framed w w' e := by
  cases step_fires hs with
  | take | batchDone | write | wrote | wroteUnsynced | sync | lastSync | lastSyncFails | busy =>
    exact ⟨rfl,.inl rfl,.inl rfl⟩
  | full | empty | close => exact flush_framed w _ _
  | fits => exact encodeCmd_framed w _ _ _ _
  | writeFails err hp | syncFails err hp =>
    exact fail_framed err (fun hn => by simpa [Fails, Event.isIOError, hp] using hn)
  | @resume next hp =>
    cases next with
    | encode id c cs =>
      obtain ⟨hm,hf,he⟩ := encodeCmd_framed { w with buf := _ } id c cs .next
      exact ⟨hm,.inl (hf.resolve_right (by simp)),.inl (he.resolve_right (by simp [Fails, Event.isIOError]))⟩
    | publish id | exit => exact ⟨rfl,.inl rfl,.inl rfl⟩
  | publish hp => exact ⟨rfl,.inr ⟨rfl,hp⟩,.inl rfl⟩

theorem step_mode {w w' : Writer} {e : Event} (hs : w.step e = some w') : w'.mode = w.mode := (step_framed hs).mode

/-- Published ids only go up. -/
theorem step_flushedID {start : Nat} {w w' : Writer} {e : Event} (h : Numbered start w) (hs : w.step e = some w') :
    w.flushedID ≤ w'.flushedID := by
  rcases (step_framed hs).flushedID with hf | ⟨_,hp⟩
  · exact hf.ge
  · have hb := h.batch w'.flushedID (by simp [batchID, hp])
    have hle := h.flushed_le
    simp only [remaining, hp, List.length_nil] at hb
    omega

end Writer
end Nawst.Core.Wal
