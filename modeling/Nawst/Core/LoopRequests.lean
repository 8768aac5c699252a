import Nawst.Core.EventLoop

/-! The requests inside the loop: where they come from, that a write is answered only
after it was applied, and that the store changes by what is applied. -/
namespace Nawst.Core.EventLoop
open Lib Wal

def Acker.requests : Acker → List Request
  | .idle => []
  | .waiting a => a.requests
  | .responding rs _ => rs

namespace Loop

/-- What an applied request does to the store. -/
def applyRequest (store : Store) (r : Request) : Store := (store.apply r.command).1

theorem foldl_applyRequest (store : Store) (rs : List Request) :
    rs.foldl applyRequest store = store.applyAll (rs.map Request.command) := by
  rw [Store.applyAll, List.foldl_map]
  rfl

/-- The write an event brings into the loop. -/
def Event.write : Event → Option Request
  | .receive req => if req.op = opGet then none else some req
  | _ => none

/-- The vnodes an event wipes from the store. -/
def Event.wiped : Event → Option UInt16
  | .deleteVNodeData v => some v
  | _ => none

/-- All writes of the loop are of one kind, those applied and those under way. -/
structure Holds (P : Request → Prop) (s : Loop) : Prop where
  applied : ∀ r ∈ s.applied, P r
  collected : ∀ r ∈ s.writeBatch, P r
  branch : match s.phase with
    | .applying _ todo => ∀ r ∈ todo, P r
    | .fastAppending _ req | .fastApplying req => P req
    | _ => True

/-- What of the batch in hand is applied. -/
def Progress (s : Loop) : Prop :=
  match s.phase with
  | .answeringGet req _ => req.op = opGet
  | .applying _ todo => ∀ r ∈ s.writeBatch, r ∈ s.applied ∨ r ∈ todo
  | .appending _ _ | .handingOff _ => ∀ r ∈ s.writeBatch, r ∈ s.applied
  | .fastAnswering req _ => req ∈ s.applied
  | _ => True

/-- A write leaves the loop's hands only when it is applied, and is answered after that. -/
structure AppliedFirst (s : Loop) : Prop where
  branch : s.Progress
  pending : ∀ a ∈ s.ackCh, ∀ r ∈ a.requests, r ∈ s.applied
  acker : ∀ r ∈ s.acker.requests, r ∈ s.applied
  answered : ∀ p ∈ s.responses, p.1.op ≠ opGet → p.1 ∈ s.applied

theorem init_holds (P : Request → Prop) (batchSize : Int) (mode : AckMode) (bufferSize : Nat) (old : List Command) :
    Holds P (init batchSize mode bufferSize old) where
  applied := by simp [init]
  collected := by simp [init]
  branch := trivial

theorem Holds.mono {P Q : Request → Prop} {s : Loop} (h : Holds P s) (hPQ : ∀ r, P r → Q r) : Holds Q s where
  applied r hr := hPQ r (h.applied r hr)
  collected r hr := hPQ r (h.collected r hr)
  branch := by
    have hb := h.branch
    cases hp : s.phase with
    | applying cmds todo =>
      simp only [hp] at hb
      exact fun r hr => hPQ r (hb r hr)
    | fastAppending id req | fastApplying req =>
      simp only [hp] at hb
      exact hPQ req hb
    | _ => trivial

private theorem write_receive {req : Request} (ho : req.op ≠ opGet) : req ∈ (Event.receive req).write := by
  simp [Event.write, ho]

theorem step_holds {P : Request → Prop} {s s' : Loop} {e : Event} (h : Holds P s) (he : ∀ r ∈ e.write, P r)
    (hs : s.step e = some s') : Holds P s' := by
  have hb := h.branch
  cases step_fires hs with
  | get req hp _ => exact ⟨h.applied,h.collected,trivial⟩
  | fast req hp ho _ => exact ⟨h.applied,h.collected,he req (write_receive ho)⟩
  | collect req hp ho _ => exact ⟨h.applied,Machine.forall_mem_concat h.collected (he req (write_receive ho)),by simp [hp]⟩
  | fill req hp ho _ =>
    have hall := Machine.forall_mem_concat h.collected (he req (write_receive ho))
    exact ⟨h.applied,hall,hall⟩
  | leave hp _ => exact ⟨h.applied,h.collected,trivial⟩
  | lastBatch hp | batch hp => exact ⟨h.applied,h.collected,h.collected⟩
  | idle hp _ =>
    refine ⟨h.applied,h.collected,?_⟩
    cases hc : s.closing <;> simp [afterBatch, hc]
  | answerGet hp | fastAnswer hp | number hp | append hp => exact ⟨h.applied,h.collected,trivial⟩
  | @apply cmds r todo hp =>
    simp only [hp, List.forall_mem_cons] at hb
    exact ⟨Machine.forall_mem_concat h.applied hb.1,h.collected,hb.2⟩
  | handOff hp =>
    refine ⟨h.applied,by simp [afterBatch],?_⟩
    cases hc : s.closing <;> simp [afterBatch]
  | fastAppend hp =>
    simp only [hp] at hb
    exact ⟨h.applied,h.collected,hb⟩
  | fastApply hp =>
    simp only [hp] at hb
    exact ⟨Machine.forall_mem_concat h.applied hb,h.collected,trivial⟩
  | takeAck | wake | done | respond | closeWal | writer | deleteVNodeData => exact ⟨h.applied,h.collected,hb⟩

theorem init_appliedFirst (batchSize : Int) (mode : AckMode) (bufferSize : Nat) (old : List Command) :
    AppliedFirst (init batchSize mode bufferSize old) where
  branch := trivial
  pending := by simp [init]
  acker := by simp [init, Acker.requests]
  answered := by simp [init]

/-- One more write is applied. -/
private theorem AppliedFirst.apply {s s' : Loop} (h : AppliedFirst s) {r : Request} (ha : s'.applied = s.applied ++ [r])
    (hc : s'.ackCh = s.ackCh) (hk : s'.acker = s.acker) (hr : s'.responses = s.responses)
    (hb : s'.Progress) : AppliedFirst s' where
  branch := hb
  pending := by
    rw [ha, hc]
    exact fun a hmem x hx => List.mem_append_left _ (h.pending a hmem x hx)
  acker := by
    rw [ha, hk]
    exact fun x hx => List.mem_append_left _ (h.acker x hx)
  answered := by
    rw [ha, hr]
    exact fun p hp ho => List.mem_append_left _ (h.answered p hp ho)

private theorem answered_concat {s : Loop} (h : AppliedFirst s) {r : Request} {resp : Response}
    (hr : r.op ≠ opGet → r ∈ s.applied) :
    ∀ p ∈ s.responses ++ [(r,resp)], p.1.op ≠ opGet → p.1 ∈ s.applied :=
  Machine.forall_mem_concat h.answered hr

theorem step_appliedFirst {s s' : Loop} {e : Event} (h : AppliedFirst s) (hs : s.step e = some s') :
    AppliedFirst s' := by
  have hb := h.branch
  cases step_fires hs with
  | get req hp ho => exact ⟨ho,h.pending,h.acker,h.answered⟩
  | fast req hp _ _ => exact ⟨trivial,h.pending,h.acker,h.answered⟩
  | collect req hp _ _ => exact ⟨by simp [Progress, hp],h.pending,h.acker,h.answered⟩
  | fill req hp _ _ => exact ⟨fun r hr => .inr hr,h.pending,h.acker,h.answered⟩
  | leave hp _ => exact ⟨trivial,h.pending,h.acker,h.answered⟩
  | lastBatch hp | batch hp => exact ⟨fun r hr => .inr hr,h.pending,h.acker,h.answered⟩
  | idle hp _ =>
    refine ⟨?_,h.pending,h.acker,h.answered⟩
    cases hc : s.closing <;> simp [Progress, afterBatch, hc]
  | answerGet hp =>
    simp only [Progress, hp] at hb
    exact ⟨trivial,h.pending,h.acker,answered_concat h (fun ho => absurd hb ho)⟩
  | number hp =>
    simp only [Progress, hp, List.not_mem_nil, or_false] at hb
    exact ⟨hb,h.pending,h.acker,h.answered⟩
  | @apply cmds r todo hp =>
    simp only [Progress, hp] at hb
    refine h.apply rfl rfl rfl rfl (fun x hx => ?_)
    rcases hb x hx with hx | hx
    · exact .inl (List.mem_append_left _ hx)
    · rcases List.mem_cons.mp hx with rfl | hx
      · exact .inl (List.mem_append_right _ (List.mem_singleton.mpr rfl))
      · exact .inr hx
  | append hp =>
    simp only [Progress, hp] at hb
    exact ⟨hb,h.pending,h.acker,h.answered⟩
  | handOff hp =>
    simp only [Progress, hp] at hb
    refine ⟨?_,Machine.forall_mem_concat h.pending hb,h.acker,h.answered⟩
    cases hc : s.closing <;> simp [Progress, afterBatch]
  | fastAppend hp => exact ⟨trivial,h.pending,h.acker,h.answered⟩
  | fastApply hp => exact h.apply rfl rfl rfl rfl (List.mem_append_right _ (List.mem_singleton.mpr rfl))
  | fastAnswer hp =>
    simp only [Progress, hp] at hb
    exact ⟨trivial,h.pending,h.acker,answered_concat h (fun _ => hb)⟩
  | @takeAck a rest ha hc =>
    have hp := h.pending
    rw [hc, List.forall_mem_cons] at hp
    exact ⟨hb,hp.2,hp.1,h.answered⟩
  | @wake a err ha hw =>
    have hk := h.acker
    rw [ha] at hk
    exact ⟨hb,h.pending,hk,h.answered⟩
  | done ha => exact ⟨hb,h.pending,by simp [Acker.requests],h.answered⟩
  | @respond r rs err ha =>
    have hk := h.acker
    simp only [ha, Acker.requests, List.forall_mem_cons] at hk
    exact ⟨hb,h.pending,hk.2,answered_concat h (fun _ => hk.1)⟩
  | writer | closeWal | deleteVNodeData => exact ⟨hb,h.pending,h.acker,h.answered⟩

/-- The store changes by what is applied and by wipes only. -/
theorem step_effect {s s' : Loop} {e : Event} (hs : s.step e = some s') (he : e.wiped = none) :
    ∃ rs, s'.applied = s.applied ++ rs ∧ s'.store = rs.foldl applyRequest s.store := by
  cases step_fires hs with
  | @apply cmds r todo hp => exact ⟨[r],rfl,rfl⟩
  | @fastApply r hp => exact ⟨[r],rfl,rfl⟩
  | deleteVNodeData v => cases he
  | _ => exact ⟨[],(List.append_nil _).symm,rfl⟩

theorem run_effect {s t : Loop} {es : List Event} (hes : ∀ e ∈ es, e.wiped = none) (hr : Machine.run step s es = some t) :
    ∃ rs, t.applied = s.applied ++ rs ∧ t.store = rs.foldl applyRequest s.store :=
  Machine.run_effect (P := fun e : Event => e.wiped = none) (fun _ _ _ he hs => step_effect hs he) hes hr

theorem step_mode {s s' : Loop} {e : Event} (hs : s.step e = some s') : s'.writer.mode = s.writer.mode := by
  cases step_fires hs with
  | writer _ hw => exact Writer.step_mode hw
  | _ => rfl

/-- What is applied is appended, up to the batch in hand. -/
def Logged (s : Loop) : Prop :=
  match s.phase with
  | .applying cmds _ | .appending _ cmds => s.applied.map Request.command = s.appended ++ cmds
  | .fastApplying req => s.appended = s.applied.map Request.command ++ [req.command]
  | _ => s.applied.map Request.command = s.appended

private theorem afterBatch_logged {s : Loop} (h : s.applied.map Request.command = s.appended) : s.afterBatch.Logged := by
  cases hc : s.closing <;> simpa [afterBatch, Logged, hc] using h

theorem step_logged {s s' : Loop} {e : Event} (h : s.Logged) (hs : s.step e = some s') : s'.Logged := by
  have hl := h
  cases step_fires hs with
  | get _ hp _ | fast _ hp _ _ | leave hp _ | answerGet hp | fastAnswer hp | number hp | append hp =>
    simp only [Logged, hp] at hl
    exact hl
  | collect | takeAck | wake | done | respond | closeWal | writer | deleteVNodeData => exact h
  | fill _ hp _ _ | lastBatch hp | batch hp =>
    simp only [Logged, hp] at hl
    simpa [Logged] using hl
  | idle hp _ | handOff hp =>
    simp only [Logged, hp] at hl
    exact afterBatch_logged hl
  | apply hp | fastAppend hp | fastApply hp =>
    simp only [Logged, hp] at hl
    simp [Logged, hl]

end Loop
end Nawst.Core.EventLoop
