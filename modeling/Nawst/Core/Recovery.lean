import Nawst.Core.LoopRequests

/-! What the log holds of the requests the loop has answered, and what a replay of
the file that survives a crash makes of it. -/
namespace Nawst.Core.EventLoop
open Lib Wal

namespace Loop

/-- The next id is the number of commands appended, plus those of a batch on its way. -/
def Counted (s : Loop) : Prop :=
  match s.phase with
  | .appending id cmds => id = s.appended.length+cmds.length ∧ s.nextID = id
  | .fastAppending id _ => id = s.appended.length+1 ∧ s.nextID = id
  | _ => s.nextID = s.appended.length

/-- Everything appended is accepted by the writer or on its way there, in order. -/
structure LogInv (old : List Command) (s : Loop) : Prop where
  ordered : Ordered old s.appended s.appendCh s.writer
  counted : s.Counted

theorem init_logInv (batchSize : Int) (mode : AckMode) (bufferSize : Nat) (old : List Command) :
    LogInv old (init batchSize mode bufferSize old) :=
  ⟨init_ordered mode bufferSize old,rfl⟩

private theorem LogInv.frame {old : List Command} {s s' : Loop} (h : LogInv old s) (hw : s'.writer = s.writer)
    (hc : s'.appendCh = s.appendCh) (ha : s'.appended = s.appended) (hn : s'.Counted) : LogInv old s' := by
  have ho := h.ordered
  rw [← hw, ← hc, ← ha] at ho
  exact ⟨ho,hn⟩

private theorem afterBatch_counted {s : Loop} (h : s.nextID = s.appended.length) : s.afterBatch.Counted := by
  cases hc : s.closing <;> simpa [afterBatch, Counted, hc] using h

theorem step_logInv {old : List Command} {s s' : Loop} {e : Event} (h : LogInv old s) (hs : s.step e = some s') :
    LogInv old s' := by
  have hc := h.counted
  cases step_fires hs with
  | get req hp _ | collect req hp _ _ | fill req hp _ _ =>
    simp only [Counted, hp] at hc
    exact h.frame rfl rfl rfl (by simpa [Counted, hp] using hc)
  | fast req hp _ _ =>
    simp only [Counted, hp] at hc
    exact h.frame rfl rfl rfl ⟨by rw [hc],rfl⟩
  | leave hp _ | lastBatch hp | batch hp =>
    simp only [Counted, hp] at hc
    exact h.frame rfl rfl rfl hc
  | idle hp _ =>
    simp only [Counted, hp] at hc
    exact h.frame rfl rfl rfl (afterBatch_counted hc)
  | answerGet hp | apply hp | fastApply hp | fastAnswer hp =>
    simp only [Counted, hp] at hc
    exact h.frame rfl rfl rfl hc
  | number hp =>
    simp only [Counted, hp] at hc
    exact h.frame rfl rfl rfl ⟨by rw [hc],rfl⟩
  | append hp =>
    simp only [Counted, hp] at hc
    exact ⟨h.ordered.push hc.1,by simp [Counted, hc.2, hc.1]⟩
  | handOff hp =>
    simp only [Counted, hp] at hc
    exact h.frame rfl rfl rfl (afterBatch_counted hc)
  | fastAppend hp =>
    simp only [Counted, hp] at hc
    exact ⟨h.ordered.push hc.1,by simp [Counted, hc.2, hc.1]⟩
  | takeAck | wake | done | respond | closeWal | deleteVNodeData => exact h.frame rfl rfl rfl hc
  | writer hch hw => exact ⟨h.ordered.writerStep hch hw,hc⟩

/-- What the batch in hand is, in a branch of a loop that waits for its log. -/
def InBranch (s : Loop) : Prop :=
  match s.phase with
  | .select | .exited => True
  | .answeringGet req _ => req.op = opGet
  | .applying cmds todo => s.writeBatch.map Request.command = cmds ++ todo.map Request.command
  | .appending _ cmds => s.writeBatch.map Request.command = cmds
  | .handingOff id => id = s.appended.length ∧ ∀ r ∈ s.writeBatch, r.command ∈ s.appended
  | .fastAppending _ _ | .fastApplying _ | .fastAnswering _ _ => False

/-- Requests wait for an id that covers their command, and are answered without
error only once that id is published. -/
structure AckInv (s : Loop) : Prop where
  durable : s.writer.mode ≠ .afterEnqueue
  branch : s.InBranch
  collected : ∀ r ∈ s.writeBatch, r.version ≠ 0
  versioned : ∀ c ∈ s.appended, c.version ≠ 0
  pending : ∀ a ∈ s.ackCh, ∀ r ∈ a.requests, r.command ∈ s.appended.take a.id
  waiting : ∀ a, s.acker = .waiting a → ∀ r ∈ a.requests, r.command ∈ s.appended.take a.id
  responding : ∀ rs, s.acker = .responding rs none → ∀ r ∈ rs, r.command ∈ s.appended.take s.writer.flushedID
  answered : ∀ p ∈ s.responses, p.1.op ≠ opGet → p.2.err = none →
    p.1.command ∈ s.appended.take s.writer.flushedID

theorem init_ackInv (batchSize : Int) {mode : AckMode} (hm : mode ≠ .afterEnqueue) (bufferSize : Nat)
    (old : List Command) : AckInv (init batchSize mode bufferSize old) where
  durable := hm
  branch := trivial
  collected := by simp [init]
  versioned := by simp [init]
  pending := by simp [init]
  waiting := by simp [init]
  responding := by simp [init]
  answered := by simp [init]

/-- A write request carries a version. -/
def Event.Versioned : Event → Prop
  | .receive req => req.op ≠ opGet → req.version ≠ 0
  | _ => True

instance : (e : Event) → Decidable e.Versioned
  | .receive req => inferInstanceAs (Decidable (req.op ≠ opGet → req.version ≠ 0))
  | .reqChClosed | .tick | .advance | .takeAck | .wake | .respond | .writer _ | .closeWal | .deleteVNodeData _ =>
    isTrue trivial

private theorem mem_take_append {α : Type} {l m : List α} {n : Nat} {a : α} (h : a ∈ l.take n) : a ∈ (l ++ m).take n := by
  rw [List.take_append]
  exact List.mem_append_left _ h

private theorem mem_take_le {α : Type} {l : List α} {m n : Nat} (hmn : m ≤ n) {a : α} (h : a ∈ l.take m) :
    a ∈ l.take n := (List.take_subset_take_left l hmn) h

private theorem AckInv.collect {s : Loop} (h : AckInv s) {req : Request} (hv : req.version ≠ 0) {p : Phase}
    (hb : ({ s with writeBatch := s.writeBatch ++ [req], phase := p } : Loop).InBranch) :
    AckInv { s with writeBatch := s.writeBatch ++ [req], phase := p } := by
  exact ⟨h.durable,hb,Machine.forall_mem_concat h.collected hv,h.versioned,h.pending,h.waiting,h.responding,h.answered⟩

private theorem AckInv.append {s : Loop} (h : AckInv s) {id : Nat} {cmds : List Command}
    (hb : s.writeBatch.map Request.command = cmds) (hid : id = s.appended.length+cmds.length) :
    AckInv { s with
      appendCh := s.appendCh ++ [⟨id,cmds⟩], appended := s.appended ++ cmds, phase := .handingOff id } where
  durable := h.durable
  branch := by
    refine ⟨by simpa using hid,fun r hr => List.mem_append_right _ ?_⟩
    rw [← hb]
    exact List.mem_map_of_mem hr
  collected := h.collected
  versioned c hc := by
    rcases List.mem_append.mp hc with hc | hc
    · exact h.versioned c hc
    · rw [← hb] at hc
      obtain ⟨r,hr,rfl⟩ := List.mem_map.mp hc
      exact h.collected r hr
  pending a ha r hr := mem_take_append (h.pending a ha r hr)
  waiting a ha r hr := mem_take_append (h.waiting a ha r hr)
  responding rs hrs r hr := mem_take_append (h.responding rs hrs r hr)
  answered p hp ho he := mem_take_append (h.answered p hp ho he)

private theorem AckInv.handOff {s : Loop} (h : AckInv s) {id : Nat} (hid : id = s.appended.length)
    (hb : ∀ r ∈ s.writeBatch, r.command ∈ s.appended) :
    AckInv (afterBatch { s with ackCh := s.ackCh ++ [⟨id,s.writeBatch⟩], writeBatch := [] }) where
  durable := h.durable
  branch := by
    unfold afterBatch
    cases hc : s.closing <;> simp [InBranch]
  collected := by simp [afterBatch]
  versioned := h.versioned
  pending := by
    refine Machine.forall_mem_concat h.pending (fun r hr => ?_)
    simpa [afterBatch, hid] using hb r hr
  waiting := h.waiting
  responding := h.responding
  answered := h.answered

/-- Wait without an error means that the id is published. -/
private theorem wait_none {s : Loop} (hm : s.writer.mode ≠ .afterEnqueue) {id : Nat} (h : s.writer.wait id = some none) :
    id ≤ s.writer.flushedID := by
  simp only [Writer.wait, hm, if_false, Option.ite_none_right_eq_some, Option.some.injEq] at h
  obtain ⟨hor,he⟩ := h
  exact hor.resolve_right (fun hn => hn he)

theorem step_ackInv {old : List Command} {s s' : Loop} {e : Event} (hl : LogInv old s) (h : AckInv s)
    (he : e.Versioned) (hs : s.step e = some s') : AckInv s' := by
  have hb := h.branch
  have hc := hl.counted
  cases step_fires hs with
  | get req hp ho => exact ⟨h.durable,ho,h.collected,h.versioned,h.pending,h.waiting,h.responding,h.answered⟩
  | fast req hp _ hm => exact absurd hm h.durable
  | collect req hp ho hm => exact h.collect (he ho) (by simp only [InBranch, hp])
  | fill req hp ho hm => exact h.collect (he ho) (by simp [InBranch])
  | leave hp _ => exact ⟨h.durable,trivial,h.collected,h.versioned,h.pending,h.waiting,h.responding,h.answered⟩
  | lastBatch hp | batch hp =>
    exact ⟨h.durable,by simp [InBranch],h.collected,h.versioned,h.pending,h.waiting,h.responding,h.answered⟩
  | idle hp _ =>
    refine ⟨h.durable,?_,h.collected,h.versioned,h.pending,h.waiting,h.responding,h.answered⟩
    cases hcl : s.closing <;> simp [InBranch, afterBatch, hcl]
  | answerGet hp =>
    simp only [InBranch, hp] at hb
    refine ⟨h.durable,trivial,h.collected,h.versioned,h.pending,h.waiting,h.responding,?_⟩
    exact Machine.forall_mem_concat h.answered (fun ho => absurd hb ho)
  | number hp =>
    simp only [InBranch, hp, List.map_nil, List.append_nil] at hb
    exact ⟨h.durable,hb,h.collected,h.versioned,h.pending,h.waiting,h.responding,h.answered⟩
  | apply hp =>
    simp only [InBranch, hp, List.map_cons] at hb
    exact ⟨h.durable,by simpa [InBranch] using hb,h.collected,h.versioned,h.pending,h.waiting,h.responding,h.answered⟩
  | append hp =>
    simp only [InBranch, hp] at hb
    simp only [Counted, hp] at hc
    exact h.append hb hc.1
  | handOff hp =>
    simp only [InBranch, hp] at hb
    exact h.handOff hb.1 hb.2
  | fastAppend hp | fastApply hp | fastAnswer hp => simp [InBranch, hp] at hb
  | @takeAck a rest ha hch =>
    refine ⟨h.durable,hb,h.collected,h.versioned,?_,?_,by simp,h.answered⟩
    · intro b hmem
      exact h.pending b (by rw [hch]; exact List.mem_cons_of_mem _ hmem)
    · intro b hab
      cases hab
      exact h.pending a (by rw [hch]; exact List.mem_cons_self)
  | @wake a err ha hw =>
    refine ⟨h.durable,hb,h.collected,h.versioned,h.pending,by simp,?_,h.answered⟩
    intro rs hrs r hr
    cases hrs
    exact mem_take_le (wait_none h.durable hw) (h.waiting a ha r hr)
  | done ha => exact ⟨h.durable,hb,h.collected,h.versioned,h.pending,by simp,by simp,h.answered⟩
  | @respond r rs err ha =>
    refine ⟨h.durable,hb,h.collected,h.versioned,h.pending,by simp,?_,?_⟩
    · intro rs' hrs r' hr'
      cases hrs
      exact h.responding (r::rs) ha r' (List.mem_cons_of_mem _ hr')
    · refine Machine.forall_mem_concat h.answered (fun _ hok => ?_)
      obtain rfl : err = none := hok
      exact h.responding (r::rs) ha r List.mem_cons_self
  | writer hch hw =>
    have hm := Writer.step_mode hw
    have hle := Writer.step_flushedID hl.ordered.numbered hw
    refine ⟨by rw [hm]; exact h.durable,hb,h.collected,h.versioned,h.pending,h.waiting,?_,?_⟩
    · intro rs hrs r hr
      exact mem_take_le hle (h.responding rs hrs r hr)
    · intro p hmem ho hok
      exact mem_take_le hle (h.answered p hmem ho hok)
  | closeWal | deleteVNodeData =>
    exact ⟨h.durable,hb,h.collected,h.versioned,h.pending,h.waiting,h.responding,h.answered⟩

end Loop

/-- The commands that a replay decodes from a file. -/
def decode (file : List UInt8) : List Command := (replayWal (fun cmds c => (cmds ++ [c],none)) file []).1

theorem decode_cut {cmds : List Command} {file : List UInt8} (h : file <+: encodeAll cmds) :
    decode file = completeRecords cmds file.length := by
  have happly (cs ds : List Command) : applyEach (fun cmds c => (cmds ++ [c],none)) cs ds = cs ++ ds := by
    induction ds generalizing cs with
    | nil => simp [applyEach]
    | cons d ds ih => simpa [applyEach] using ih (cs ++ [d])
  rw [decode, (replayWal_cut (by simp) h []).1, happly, List.nil_append]

inductive Crash where
  | process | machine
  deriving DecidableEq, Repr

/-- The file after a crash. A process takes nothing with it that it has written, a
machine at most what was not synced. -/
def Survives (w : Writer) : Crash → List UInt8 → Prop
  | .process, file => file = w.written
  | .machine, file => file <+: w.written ∧ w.synced ≤ file.length

namespace Loop

/-- The published commands are the old ones and the first of those appended. -/
private theorem LogInv.published_eq {old : List Command} {s : Loop} (h : LogInv old s) :
    s.writer.published old.length = old ++ s.appended.take s.writer.flushedID := by
  have hle := h.ordered.numbered.flushed_le
  obtain ⟨rest,hrest⟩ := h.ordered.accepted
  have htake : (old ++ s.appended).take (old.length+s.writer.flushedID) =
      s.writer.accepted.take (old.length+s.writer.flushedID) := by
    rw [← hrest, List.take_append_of_le_length hle]
  rw [Writer.published, ← htake, List.take_append, List.take_of_length_le (by omega), Nat.add_sub_cancel_left]

/-- Every surviving file replays to at least the published commands, in order. -/
theorem LogInv.published_survive {old : List Command} {s : Loop} (h : LogInv old s) {crash : Crash}
    {file : List UInt8} (hc : crash = .machine → s.writer.mode = .afterFsync) (hf : Survives s.writer crash file) :
    old ++ s.appended.take s.writer.flushedID <+: decode file ∧ decode file <+: old ++ s.appended := by
  have hcut : file <+: s.writer.written ∧ (encodeAll (s.writer.published old.length)).length ≤ file.length := by
    cases crash with
    | process =>
      obtain rfl : file = s.writer.written := hf
      exact ⟨List.prefix_rfl,h.ordered.numbered.written.length_le⟩
    | machine => exact ⟨hf.1,(h.ordered.numbered.synced (hc rfl)).trans hf.2⟩
  have hdecode := decode_cut (hcut.1.trans h.ordered.writer.file)
  constructor
  · rw [hdecode, ← h.published_eq]
    refine prefix_completeRecords ?_ hcut.2
    exact List.take_prefix _ _
  · rw [hdecode]
    exact (completeRecords_initial _ _).trans h.ordered.accepted

/-- A write that was answered without an error is in every file that survives a crash, and a
replay reaches its version. -/
theorem answered_recovered {batchSize : Int} {mode : AckMode} (hm : mode ≠ .afterEnqueue) {bufferSize : Nat}
    {old : List Command} (hold : ∀ c ∈ old, c.version ≠ 0) {es : List Event} (hes : ∀ e ∈ es, e.Versioned) {s : Loop}
    (hr : Machine.run step (init batchSize mode bufferSize old) es = some s) {req : Request} {resp : Response}
    (hreq : req.op = opPut ∨ req.op = opDelete) (hmem : (req,resp) ∈ s.responses) (hok : resp.err = none)
    {crash : Crash} (hcrash : crash = .machine → mode = .afterFsync) {file : List UInt8}
    (hf : Survives s.writer crash file) :
    req.command ∈ decode file ∧ req.version ≤ (newStore.applyAll (decode file)).versionOf req.key := by
  have hinv : (LogInv old s ∧ AckInv s) ∧ s.writer.mode = mode := by
    refine Machine.run_invariant_of_meets (G := fun _ e => e.Versioned)
      (I := fun s => (LogInv old s ∧ AckInv s) ∧ s.writer.mode = mode) ?_
      ⟨⟨init_logInv batchSize mode bufferSize old,init_ackInv batchSize hm bufferSize old⟩,rfl⟩
      (Machine.meets_of_forall _ hes) hr
    rintro s e s' ⟨⟨hl,ha⟩,hmode⟩ he hs
    exact ⟨⟨step_logInv hl hs,step_ackInv hl ha he hs⟩,(step_mode hs).trans hmode⟩
  obtain ⟨⟨hl,ha⟩,hmode⟩ := hinv
  have hget : req.op ≠ opGet := by
    rcases hreq with h | h <;> rw [h] <;> decide
  have happended := ha.answered (req,resp) hmem hget hok
  obtain ⟨hpub,hall⟩ := hl.published_survive (fun hc => hmode.trans (hcrash hc)) hf
  have hdecoded : req.command ∈ decode file := hpub.subset (List.mem_append_right _ happended)
  refine ⟨hdecoded,Store.le_versionOf_applyAll newStore (decode file) (fun c hc => ?_) hdecoded hreq⟩
  rcases List.mem_append.mp (hall.subset hc) with hc | hc
  · exact hold c hc
  · exact ha.versioned c hc

/-- Acknowledged means recoverable: whatever the batches, the interleaving and the
I/O errors, a write answered without error is in the store that a replay of the
surviving file builds, at its version or a later one. Flushed writes survive a crash
of the process, synced ones that of the machine as well. -/
theorem acknowledged_write_recovered (batchSize : Int) (mode : AckMode) (hm : mode ≠ .afterEnqueue) (bufferSize : Nat)
    (old : List Command) (hold : ∀ c ∈ old, c.version ≠ 0) (es : List Event) (hes : ∀ e ∈ es, e.Versioned) (s : Loop)
    (hr : Machine.run step (init batchSize mode bufferSize old) es = some s) (req : Request) (resp : Response)
    (hreq : req.op = opPut ∨ req.op = opDelete) (hmem : (req,resp) ∈ s.responses) (hok : resp.err = none)
    (crash : Crash) (hcrash : crash = .machine → mode = .afterFsync) (file : List UInt8)
    (hf : Survives s.writer crash file) :
    req.version ≤ (newStore.applyAll (decode file)).versionOf req.key :=
  (answered_recovered hm hold hes hr hreq hmem hok hcrash hf).2

def sampleRequest : Request := ⟨opPut,sampleKey,.singleton 118,7,1,0⟩
def updateRequest : Request := ⟨opPut,sampleKey,.singleton 119,7,2,1⟩

/-- One write through the loop, the syncing writer and the acknowledgement. -/
def syncedWrite (id : Nat) (req : Request) : List Event :=
  [.receive req,.advance,.advance,.advance,.advance,.writer (.take ⟨id,[req.command]⟩),
   .writer .next,.writer .next,.writer (.observe true),.writer (.write 15),.writer .wrote,.writer .sync,
   .writer .resume,.writer .publish,.takeAck,.wake,.respond,.respond]

/-- Two batches, and a third write that is not in the file yet. -/
def sampleEvents : List Event :=
  syncedWrite 1 sampleRequest ++ syncedWrite 2 updateRequest ++
    [.receive { updateRequest with version := 3, responseChan := 2 },.advance,.advance]

theorem acknowledged_write_recovered_sample :
    ∃ s, Machine.run step (init 1 .afterFsync 64 []) sampleEvents = some s ∧ s.applied.length = 3 ∧
      s.responses.map Prod.fst = [sampleRequest,updateRequest] ∧
      ∀ req ∈ [sampleRequest,updateRequest],
        req.version ≤ (newStore.applyAll (decode s.writer.written)).versionOf req.key := by
  have hfacts : (Machine.run step (init 1 .afterFsync 64 []) sampleEvents).map (fun s =>
      (s.applied.length,s.responses,s.writer.written.length,s.writer.synced)) =
      some (3,[sampleRequest,updateRequest].map (fun req => (req,writeResponse req none)),30,30) := by decide +kernel
  obtain ⟨s,hr,hs⟩ := Option.map_eq_some_iff.mp hfacts
  simp only [Prod.mk.injEq] at hs
  obtain ⟨happlied,hresp,hlen,hsynced⟩ := hs
  refine ⟨s,hr,happlied,by rw [hresp]; rfl,fun req hreq => ?_⟩
  have hmem : (req,writeResponse req none) ∈ s.responses := by
    rw [hresp]
    exact List.mem_map_of_mem hreq
  have hput : req.op = opPut := by
    rcases List.mem_pair.mp hreq with rfl | rfl <;> rfl
  exact acknowledged_write_recovered 1 .afterFsync (by decide) 64 [] (by simp) sampleEvents (by decide) s hr
    req (writeResponse req none) (.inl hput) hmem rfl .machine (fun _ => rfl) _
    ⟨List.prefix_rfl,by rw [hlen, hsynced]⟩

end Loop
end Nawst.Core.EventLoop
