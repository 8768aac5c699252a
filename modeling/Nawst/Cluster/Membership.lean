import Nawst.Cluster.Placement
import Nawst.Lib.Machine

/-! How a node takes notice of its members. Changes of the member list are announced through
a channel that may overflow, turned into signals that coalesce and put off by a timer until
they pause; only then does the node look at the list. -/
namespace Nawst.Cluster.Membership
open Lib

def membershipEventsCapacity : Nat := 100

/-- In milliseconds. -/
def reconcileDebounce : Nat := 200

inductive MembershipEventType where
  | join | leave | update
  deriving DecidableEq

structure MembershipEvent where
  type : MembershipEventType
  nodeID : NodeID
  addr : String
  deriving DecidableEq

/-- The loop that receives the announcements. -/
inductive Watcher where
  | selecting | signalling | returned
  deriving DecidableEq

/-- The loop that reconciles. -/
inductive Phase (μ : Type) where
  | selecting | resetting | listing
  | reconciling (members : μ)
  | returned
  deriving DecidableEq

/-- A timer, and when it is to fire if it is running. -/
structure Timer where
  deadline : Option Nat
  deriving DecidableEq

/-- The timer has fired: the list that was reconciled with, or none for a node that does not
lead. -/
structure Pass (μ : Type) where
  time : Nat
  members : Option μ
  deriving DecidableEq

/-- The channels and loops of a node, with the list of members as it is and the notices that
are still to be delivered. Whether the list has changed since the last pass is recorded,
as are the passes. -/
structure Node (μ : Type) where
  members : μ
  notices : List MembershipEvent
  membershipEvents : List MembershipEvent
  reconcileCh : Bool
  stopCh : Bool
  watcher : Watcher
  phase : Phase μ
  debounceTimer : Option Timer
  debounceC : Bool
  now : Nat
  changed : Bool
  passes : List (Pass μ)
  deriving DecidableEq

def startMembershipWorkers {μ : Type} (members : μ) (now : Nat) : Node μ :=
  ⟨members,[],[],false,false,.selecting,.selecting,none,false,now,false,[]⟩

inductive Event (μ : Type) where
  | change (members : μ) (e : MembershipEvent)
  | notify
  | takeEvent
  | signal
  | takeSignal
  | reset
  | elapse (ms : Nat)
  | expire (ready leader : Bool)
  | list
  | reconciled
  | stop
  | watcherReturns
  | reconcilerReturns
  deriving DecidableEq

namespace Node
variable {μ : Type}

/-- An announcement is dropped when the channel is full. -/
def enqueueMembershipEvent (s : Node μ) (e : MembershipEvent) : Node μ :=
  if s.membershipEvents.length < membershipEventsCapacity then { s with membershipEvents := s.membershipEvents ++ [e] }
  else s

/-- A signal is dropped when there is one already. -/
def signalReconcile (s : Node μ) : Node μ := { s with reconcileCh := true }

/-- A timer that is stopped or has fired holds no stale value when it is started again. -/
def resetDebounce (s : Node μ) : Node μ :=
  { s with debounceTimer := some ⟨some (s.now+reconcileDebounce)⟩, debounceC := true }

/-- The timer has fired and its channel is looked at. -/
def fired (s : Node μ) : Bool :=
  s.debounceC && match s.debounceTimer with
    | some ⟨some d⟩ => d ≤ s.now
    | _ => false

def step (s : Node μ) : Event μ → Option (Node μ)
  | .change members e => some { s with members := members, notices := s.notices ++ [e], changed := true }
  | .notify => match s.notices with
    | e::rest => some (enqueueMembershipEvent { s with notices := rest } e)
    | [] => none
  | .takeEvent => match s.watcher, s.membershipEvents with
    | .selecting, _::rest => some { s with watcher := .signalling, membershipEvents := rest }
    | _, _ => none
  | .signal => match s.watcher with
    | .signalling => some (signalReconcile { s with watcher := .selecting })
    | _ => none
  | .takeSignal => match s.phase, s.reconcileCh with
    | .selecting, true => some { s with phase := .resetting, reconcileCh := false }
    | _, _ => none
  | .reset => match s.phase with
    | .resetting => some (resetDebounce { s with phase := .selecting })
    | _ => none
  | .elapse ms => some { s with now := s.now+ms }
  | .expire ready leader => match s.phase, s.fired with
    | .selecting, true =>
      let s := { s with debounceTimer := some ⟨none⟩, debounceC := false }
      if ready && leader then some { s with phase := .listing }
      else some { s with changed := false, passes := s.passes ++ [⟨s.now,none⟩] }
    | _, _ => none
  | .list => match s.phase with
    | .listing => some { s with
        phase := .reconciling s.members, changed := false, passes := s.passes ++ [⟨s.now,some s.members⟩] }
    | _ => none
  | .reconciled => match s.phase with
    | .reconciling _ => some { s with phase := .selecting }
    | _ => none
  | .stop => if s.stopCh then none else some { s with stopCh := true }
  | .watcherReturns => match s.stopCh, s.watcher with
    | true, .selecting => some { s with watcher := .returned }
    | _, _ => none
  | .reconcilerReturns => match s.stopCh, s.phase with
    | true, .selecting => some { s with phase := .returned, debounceTimer := s.debounceTimer.map (fun _ => ⟨none⟩) }
    | _, _ => none

/-- Everything a step can do. -/
inductive Fires (s : Node μ) : Event μ → Node μ → Prop where
  | change (members : μ) (e : MembershipEvent) : Fires s (.change members e)
      { s with members := members, notices := s.notices ++ [e], changed := true }
  | notify {e : MembershipEvent} {rest : List MembershipEvent} (hn : s.notices = e::rest)
      (hroom : s.membershipEvents.length < membershipEventsCapacity) :
      Fires s .notify { s with notices := rest, membershipEvents := s.membershipEvents ++ [e] }
  | overflow {e : MembershipEvent} {rest : List MembershipEvent} (hn : s.notices = e::rest)
      (hfull : membershipEventsCapacity ≤ s.membershipEvents.length) : Fires s .notify { s with notices := rest }
  | takeEvent {e : MembershipEvent} {rest : List MembershipEvent} (hw : s.watcher = .selecting)
      (he : s.membershipEvents = e::rest) :
      Fires s .takeEvent { s with watcher := .signalling, membershipEvents := rest }
  | signal (hw : s.watcher = .signalling) : Fires s .signal { s with watcher := .selecting, reconcileCh := true }
  | takeSignal (hp : s.phase = .selecting) (hc : s.reconcileCh = true) :
      Fires s .takeSignal { s with phase := .resetting, reconcileCh := false }
  | reset (hp : s.phase = .resetting) : Fires s .reset { s with
      phase := .selecting, debounceTimer := some ⟨some (s.now+reconcileDebounce)⟩, debounceC := true }
  | elapse (ms : Nat) : Fires s (.elapse ms) { s with now := s.now+ms }
  | expire {ready leader : Bool} {d : Nat} (hp : s.phase = .selecting) (hc : s.debounceC = true)
      (ht : s.debounceTimer = some ⟨some d⟩) (hd : d ≤ s.now) (hl : (ready && leader) = true) :
      Fires s (.expire ready leader) { s with debounceTimer := some ⟨none⟩, debounceC := false, phase := .listing }
  | skip {ready leader : Bool} {d : Nat} (hp : s.phase = .selecting) (hc : s.debounceC = true)
      (ht : s.debounceTimer = some ⟨some d⟩) (hd : d ≤ s.now) (hl : (ready && leader) = false) :
      Fires s (.expire ready leader) { s with
        debounceTimer := some ⟨none⟩, debounceC := false, changed := false, passes := s.passes ++ [⟨s.now,none⟩] }
  | list (hp : s.phase = .listing) : Fires s .list { s with
      phase := .reconciling s.members, changed := false, passes := s.passes ++ [⟨s.now,some s.members⟩] }
  | reconciled {members : μ} (hp : s.phase = .reconciling members) : Fires s .reconciled { s with phase := .selecting }
  | stop : Fires s .stop { s with stopCh := true }
  | watcherReturns (hstop : s.stopCh = true) (hw : s.watcher = .selecting) : Fires s .watcherReturns { s with watcher := .returned }
  | reconcilerReturns (hstop : s.stopCh = true) (hp : s.phase = .selecting) : Fires s .reconcilerReturns { s with
      phase := .returned, debounceTimer := s.debounceTimer.map (fun _ => ⟨none⟩) }

theorem fired_iff {s : Node μ} :
    s.fired = true ↔ s.debounceC = true ∧ ∃ d, s.debounceTimer = some ⟨some d⟩ ∧ d ≤ s.now := by
  simp only [fired, Bool.and_eq_true]
  refine and_congr_right (fun _ => ?_)
  rcases s.debounceTimer with _ | ⟨_ | d⟩ <;> simp

theorem step_fires {s s' : Node μ} {e : Event μ} (hs : s.step e = some s') : Fires s e s' := by
  cases e with
  | change members e =>
    cases hs
    exact .change members e
  | notify =>
    simp only [step, enqueueMembershipEvent] at hs
    split at hs
    · split at hs
      · cases hs
        exact .notify ‹_› ‹_›
      · cases hs
        exact .overflow ‹_› (not_lt.mp ‹_›)
    · cases hs
  | takeEvent =>
    simp only [step] at hs
    split at hs <;> cases hs
    exact .takeEvent ‹_› ‹_›
  | signal =>
    simp only [step] at hs
    split at hs <;> cases hs
    exact .signal ‹_›
  | takeSignal =>
    simp only [step] at hs
    split at hs <;> cases hs
    exact .takeSignal ‹_› ‹_›
  | reset =>
    simp only [step] at hs
    split at hs <;> cases hs
    exact .reset ‹_›
  | elapse ms =>
    cases hs
    exact .elapse ms
  | expire ready leader =>
    simp only [step] at hs
    split at hs
    · rename_i hp hf
      obtain ⟨hc,d,ht,hd⟩ := fired_iff.mp hf
      split at hs <;> cases hs
      · exact .expire hp hc ht hd ‹_›
      · exact .skip hp hc ht hd (Bool.eq_false_iff.mpr ‹_›)
    · cases hs
  | list =>
    simp only [step] at hs
    split at hs <;> cases hs
    exact .list ‹_›
  | reconciled =>
    simp only [step] at hs
    split at hs <;> cases hs
    exact .reconciled ‹_›
  | stop =>
    simp only [step, Option.ite_none_left_eq_some, Option.some.injEq] at hs
    obtain ⟨-,rfl⟩ := hs
    exact .stop
  | watcherReturns =>
    simp only [step] at hs
    split at hs <;> cases hs
    exact .watcherReturns ‹_› ‹_›
  | reconcilerReturns =>
    simp only [step] at hs
    split at hs <;> cases hs
    exact .reconcilerReturns ‹_› ‹_›

/-- Somewhere on the way from the list to the next pass there is something that leads to it. -/
def Due (s : Node μ) : Prop :=
  s.notices ≠ [] ∨ s.membershipEvents ≠ [] ∨ s.watcher = .signalling ∨ s.reconcileCh = true ∨ s.phase = .resetting ∨
    s.debounceC = true ∨ s.phase = .listing

/-- What holds of a node that was started with the list. -/
structure Inv (start : μ) (s : Node μ) : Prop where
  room : s.membershipEvents.length ≤ membershipEventsCapacity
  due : s.changed = true → s.Due
  seen : s.changed = false → s.passes = [] ∧ s.members = start ∨
    ∃ p, s.passes.getLast? = some p ∧ ∀ m ∈ p.members, m = s.members
  watcher : s.watcher = .returned → s.stopCh = true
  phase : s.phase = .returned → s.stopCh = true
  armed : s.debounceC = true → s.phase ≠ .returned → ∃ d, s.debounceTimer = some ⟨some d⟩
  deadline : ∀ d, s.debounceTimer = some ⟨some d⟩ → d ≤ s.now+reconcileDebounce

section Steps
variable {start : μ} {s s' : Node μ} {e : Event μ}

theorem init_inv (start : μ) (now : Nat) : Inv start (startMembershipWorkers start now) where
  room := Nat.zero_le _
  due := nofun
  seen _ := .inl ⟨rfl,rfl⟩
  watcher := nofun
  phase := nofun
  armed := nofun
  deadline := nofun

theorem Inv.armed_of_phase {p : Phase μ} (h : Inv start s) (hp : s.phase = p) (hne : p ≠ .returned) (hc : s.debounceC = true) :
    ∃ d, s.debounceTimer = some ⟨some d⟩ := h.armed hc (hp ▸ hne)

theorem step_inv (h : Inv start s) (hs : s.step e = some s') : Inv start s' := by
  cases step_fires hs with
  | change members e =>
    exact { h with due := fun _ => .inl (by simp), seen := nofun }
  | notify hn hroom =>
    refine { h with room := ?_, due := fun _ => .inr (.inl (by simp)) }
    rw [List.length_append, List.length_singleton]
    exact hroom
  | overflow hn hfull =>
    -- A full channel has something in it, so nothing is lost with the notice.
    refine { h with due := fun _ => .inr (.inl ?_) }
    intro hnil
    rw [hnil] at hfull
    exact absurd hfull (by decide)
  | takeEvent hw he =>
    refine { h with room := ?_, due := fun _ => .inr (.inr (.inl rfl)), watcher := nofun }
    have hroom := h.room
    rw [he, List.length_cons] at hroom
    exact Nat.le_of_succ_le hroom
  | signal hw => exact { h with due := fun _ => .inr (.inr (.inr (.inl rfl))), watcher := nofun }
  | takeSignal hp hc =>
    exact { h with
      due := fun _ => .inr (.inr (.inr (.inr (.inl rfl))))
      phase := nofun
      armed := fun hc _ => h.armed_of_phase hp nofun hc }
  | reset hp =>
    refine { h with
      due := fun _ => .inr (.inr (.inr (.inr (.inr (.inl rfl)))))
      phase := nofun
      armed := fun _ _ => ⟨_,rfl⟩
      deadline := fun d hd => ?_ }
    cases hd
    exact le_refl _
  | elapse ms =>
    exact { h with deadline := fun d hd => (h.deadline d hd).trans (Nat.add_le_add_right (Nat.le_add_right _ ms) _) }
  | expire hp hc ht hd hl =>
    exact { h with
      due := fun _ => .inr (.inr (.inr (.inr (.inr (.inr rfl)))))
      phase := nofun
      armed := nofun
      deadline := nofun }
  | skip hp hc ht hd hl =>
    exact { h with
      due := nofun
      seen := fun _ => .inr ⟨_,List.getLast?_concat,nofun⟩
      armed := nofun
      deadline := nofun }
  | list hp =>
    refine { h with
      due := nofun
      seen := fun _ => .inr ⟨_,List.getLast?_concat,fun m hm => ?_⟩
      phase := nofun
      armed := fun hc _ => h.armed_of_phase hp nofun hc }
    cases hm
    rfl
  | reconciled hp =>
    refine { h with
      due := fun hc => ?_
      phase := nofun
      armed := fun hc _ => h.armed_of_phase hp nofun hc }
    simpa [Due, hp] using h.due hc
  | stop => exact { h with watcher := fun _ => rfl, phase := fun _ => rfl }
  | watcherReturns hstop hw =>
    refine { h with due := fun hc => ?_, watcher := fun _ => hstop }
    simpa [Due, hw] using h.due hc
  | reconcilerReturns hstop hp =>
    refine { h with
      due := fun hc => ?_
      phase := fun _ => hstop
      armed := fun _ hne => absurd rfl hne
      deadline := fun d hd => ?_ }
    · simpa [Due, hp] using h.due hc
    · simp at hd

end Steps

theorem run_inv {start : μ} {now : Nat} {es : List (Event μ)} {s : Node μ}
    (hr : Machine.run step (startMembershipWorkers start now) es = some s) : Inv start s :=
  Machine.run_invariant (fun _ _ _ h hs => step_inv h hs) (init_inv start now) hr

/-- Nothing is left to be done only when the list has been looked at as it is: in no order of
changes, dropped announcements, coalesced signals and timers does a change go unnoticed. A
node that does not lead looks at nothing. -/
theorem no_change_unnoticed {start : μ} {now : Nat} {es : List (Event μ)} {s : Node μ}
    (hr : Machine.run step (startMembershipWorkers start now) es = some s) (hdue : ¬ s.Due) :
    s.passes = [] ∧ s.members = start ∨
      ∃ p, s.passes.getLast? = some p ∧ (p.members = none ∨ p.members = some s.members) := by
  have h := run_inv hr
  have hc : s.changed = false := Bool.eq_false_iff.mpr (fun hc => hdue (h.due hc))
  refine (h.seen hc).imp_right (fun ⟨p,hp,hm⟩ => ⟨p,hp,?_⟩)
  cases hpm : p.members with
  | none => exact .inl rfl
  | some m => exact .inr (congrArg some (hm m hpm))

/-- A node joins, and the list is looked at once the timer has fired. -/
def joining : List (Event (List NodeID)) :=
  [.change ["a","b"] ⟨.join,"b","10.0.0.2:7946"⟩,.notify,.takeEvent,.signal,.takeSignal,.reset] ++
    [.elapse 200,.expire true true,.list,.reconciled]

/-- The node has reconciled at these times and is at rest. -/
def rested (now : Nat) (times : List Nat) : Node (List NodeID) :=
  { startMembershipWorkers ["a","b"] now with
    debounceTimer := some ⟨none⟩, passes := times.map (fun t => ⟨t,some ["a","b"]⟩) }

theorem no_change_unnoticed_sample : Machine.run step (startMembershipWorkers ["a"] 0) joining = some (rested 200 [200]) ∧
    ((rested 200 [200]).passes = [] ∧ (rested 200 [200]).members = ["a"] ∨
      ∃ p, (rested 200 [200]).passes.getLast? = some p ∧
        (p.members = none ∨ p.members = some (rested 200 [200]).members)) := by
  have hr : Machine.run step (startMembershipWorkers ["a"] 0) joining = some (rested 200 [200]) := by decide
  exact ⟨hr,no_change_unnoticed hr (by simp [Due, rested, startMembershipWorkers])⟩

section Rest
variable {s s' : Node μ} {e : Event μ}

/-- Whether the list is changed. -/
def isChange : Event μ → Bool
  | .change .. => true
  | _ => false

theorem step_rest (h : ¬ s.Due) (he : isChange e = false) (hs : s.step e = some s') : ¬ s'.Due ∧ s'.passes = s.passes := by
  simp only [Due, not_or] at h
  obtain ⟨hn,hev,hw,hr,hreset,hc,hlist⟩ := h
  cases step_fires hs with
  | change => cases he
  | notify hn' | overflow hn' => exact absurd (not_not.mp hn) (by simp [hn'])
  | takeEvent _ he' => exact absurd (not_not.mp hev) (by simp [he'])
  | signal hw' => exact absurd hw' hw
  | takeSignal _ hr' => exact absurd hr' hr
  | reset hp => exact absurd hp hreset
  | expire _ hc' | skip _ hc' => exact absurd hc' hc
  | list hp => exact absurd hp hlist
  | elapse | stop => exact ⟨by simp [Due, hn, hev, hw, hr, hreset, hc, hlist],rfl⟩
  | reconciled | watcherReturns | reconcilerReturns => exact ⟨by simp_all [Due],rfl⟩

end Rest

/-- A node at rest looks at the list no more until it changes, however long it waits. A
server that was found missing then is not looked at again. -/
theorem rest_until_change {s t : Node μ} (es : List (Event μ)) (hrest : ¬ s.Due) (hes : ∀ e ∈ es, isChange e = false)
    (hr : Machine.run step s es = some t) : ¬ t.Due ∧ t.passes = s.passes := by
  refine Machine.run_invariant_of_meets (I := fun t => ¬ t.Due ∧ t.passes = s.passes) (fun u e u' h he hs => ?_)
    ⟨hrest,rfl⟩ (Machine.meets_of_forall s hes) hr
  obtain ⟨hdue,hpasses⟩ := step_rest h.1 he hs
  exact ⟨hdue,hpasses.trans h.2⟩

theorem rest_until_change_sample : ∃ t, Machine.run step (rested 200 [200]) [.elapse 600000] = some t ∧
    ¬ t.Due ∧ t.passes = (rested 200 [200]).passes :=
  ⟨_,rfl,rest_until_change [.elapse 600000] (by simp [Due, rested, startMembershipWorkers]) (by decide) rfl⟩

section Spacing
variable {s s' : Node μ} {e : Event μ}

/-- The passes so far are spaced, and so will the next one be. -/
structure Spaced (s : Node μ) : Prop where
  passes : s.passes.Pairwise (fun p q => p.time+reconcileDebounce ≤ q.time)
  past : ∀ p ∈ s.passes, p.time ≤ s.now
  armed : ∀ d, s.debounceTimer = some ⟨some d⟩ → ∀ p ∈ s.passes, p.time+reconcileDebounce ≤ d
  listing : s.phase = .listing →
    (∀ d, s.debounceTimer ≠ some ⟨some d⟩) ∧ ∀ p ∈ s.passes, p.time+reconcileDebounce ≤ s.now

theorem init_spaced (start : μ) (now : Nat) : Spaced (startMembershipWorkers start now) where
  passes := .nil
  past := nofun
  armed := nofun
  listing := nofun

theorem Spaced.pairwise_concat (h : Spaced s) (hnow : ∀ p ∈ s.passes, p.time+reconcileDebounce ≤ s.now) (m : Option μ) :
    (s.passes ++ [Pass.mk s.now m]).Pairwise (fun p q => p.time+reconcileDebounce ≤ q.time) := by
  refine List.pairwise_append.mpr ⟨h.passes,List.pairwise_singleton _ _,fun p hp q hq => ?_⟩
  rw [List.mem_singleton.mp hq]
  exact hnow p hp

theorem Spaced.past_concat (h : Spaced s) (m : Option μ) : ∀ p ∈ s.passes ++ [Pass.mk s.now m], p.time ≤ s.now :=
  Machine.forall_mem_concat h.past (le_refl _)

theorem step_spaced (h : Spaced s) (hs : s.step e = some s') : Spaced s' := by
  cases step_fires hs with
  | reset hp =>
    refine { h with armed := fun d hd p hp => ?_, listing := nofun }
    cases hd
    exact Nat.add_le_add_right (h.past p hp) _
  | elapse ms =>
    exact { h with
      past := fun p hp => (h.past p hp).trans (Nat.le_add_right _ ms)
      listing := fun hp => ⟨(h.listing hp).1,fun p hm => ((h.listing hp).2 p hm).trans (Nat.le_add_right _ ms)⟩ }
  | expire hp hc ht hd hl =>
    exact { h with armed := nofun, listing := fun _ => ⟨nofun,fun p hp => (h.armed _ ht p hp).trans hd⟩ }
  | skip hp hc ht hd hl =>
    exact {
      passes := h.pairwise_concat (fun p hp => (h.armed _ ht p hp).trans hd) none
      past := h.past_concat none
      armed := nofun
      listing := fun hp' => absurd (hp.symm.trans hp') nofun }
  | list hp =>
    obtain ⟨hnone,hnow⟩ := h.listing hp
    exact {
      passes := h.pairwise_concat hnow _
      past := h.past_concat _
      armed := fun d hd => absurd hd (hnone d)
      listing := nofun }
  | takeSignal | reconciled => exact { h with listing := nofun }
  | reconcilerReturns hstop hp =>
    refine { h with armed := fun d hd => ?_, listing := nofun }
    simp at hd
  | _ => exact { h with }

end Spacing

/-- However often the list changes, the passes of a node are at least the length of the timer
apart. -/
theorem passes_spaced {start : μ} {now : Nat} {es : List (Event μ)} {s : Node μ}
    (hr : Machine.run step (startMembershipWorkers start now) es = some s) :
    s.passes.Pairwise (fun p q => p.time+reconcileDebounce ≤ q.time) :=
  (Machine.run_invariant (fun _ _ _ h hs => step_spaced h hs) (init_spaced start now) hr).passes

theorem passes_spaced_sample :
    Machine.run step (startMembershipWorkers ["a"] 0) (joining ++ joining) = some (rested 400 [200,400]) ∧
    (rested 400 [200,400]).passes.Pairwise (fun p q => p.time+reconcileDebounce ≤ q.time) := by
  have hr : Machine.run step (startMembershipWorkers ["a"] 0) (joining ++ joining) = some (rested 400 [200,400]) := by decide
  exact ⟨hr,passes_spaced hr⟩

section Settling
variable {start : μ} {s s' : Node μ} {e : Event μ}

/-- What a phase has still to do. -/
def phaseRank : Phase μ → Nat
  | .resetting => reconcileDebounce+4
  | .listing => 2
  | .reconciling _ => 1
  | .selecting | .returned => 0

/-- What the loop that receives has still to do. -/
def watcherRank : Watcher → Nat
  | .signalling => reconcileDebounce+6
  | .selecting | .returned => 0

/-- How long the timer has still to run. -/
def timerRank (s : Node μ) : Nat :=
  match s.debounceC, s.debounceTimer with
  | true, some ⟨some d⟩ => d-s.now+3
  | _, _ => 0

/-- The steps that a node has still to make when no more changes come, each notice causing at
most one run of the timer. -/
def rank (s : Node μ) : Nat :=
  (reconcileDebounce+8)*s.notices.length + (reconcileDebounce+7)*s.membershipEvents.length + watcherRank s.watcher +
    (if s.reconcileCh then reconcileDebounce+5 else 0) + phaseRank s.phase + timerRank s

/-- A node that leads and runs, with no more changes of its list. -/
def Quiet : Event μ → Prop
  | .change .. | .stop | .watcherReturns | .reconcilerReturns => False
  | .expire ready leader => (ready && leader) = true
  | _ => True

instance : DecidablePred (@Quiet μ) := fun e => by
  unfold Quiet
  split <;> infer_instance

/-- Whether time passes. -/
def isElapse : Event μ → Bool
  | .elapse _ => true
  | _ => false

theorem timerRank_armed {d : Nat} (hc : s.debounceC = true) (ht : s.debounceTimer = some ⟨some d⟩) :
    s.timerRank = d-s.now+3 := by
  simp only [timerRank, hc, ht]

theorem timerRank_elapse (s : Node μ) (ms : Nat) : timerRank { s with now := s.now+ms } ≤ s.timerRank := by
  rcases s with ⟨_,_,_,_,_,_,_,_ | ⟨_ | d⟩,_ | _,_,_,_⟩ <;> simp only [timerRank] <;> omega

/-- Time does not add to what is to be done, and everything else uses some of it up. -/
theorem rank_step (hq : Quiet e) (hs : s.step e = some s') : s'.rank + (if isElapse e then 0 else 1) ≤ s.rank := by
  cases step_fires hs with
  | change | stop | watcherReturns | reconcilerReturns => cases hq
  | notify hn hroom =>
    simp only [rank, isElapse, hn, timerRank, reconcileDebounce, List.length_append, List.length_cons, List.length_nil,
      Bool.false_eq_true, if_false]
    omega
  | overflow hn hfull =>
    simp only [rank, isElapse, hn, timerRank, reconcileDebounce, List.length_cons, Bool.false_eq_true, if_false]
    omega
  | takeEvent hw he =>
    simp only [rank, isElapse, hw, he, watcherRank, timerRank, reconcileDebounce, List.length_cons, Bool.false_eq_true, if_false]
    omega
  | signal hw =>
    simp only [rank, isElapse, hw, watcherRank, timerRank, reconcileDebounce, Bool.false_eq_true, if_false, if_true]
    split <;> omega
  | takeSignal hp hc =>
    simp only [rank, isElapse, hp, hc, phaseRank, timerRank, reconcileDebounce, Bool.false_eq_true, if_false, if_true]
    omega
  | reset hp =>
    simp only [rank, isElapse, hp, phaseRank, timerRank, reconcileDebounce, Bool.false_eq_true, if_false]
    omega
  | elapse ms => exact Nat.add_le_add_left (timerRank_elapse s ms) _
  | expire hp hc ht hd hl =>
    simp only [rank, isElapse, hp, phaseRank, timerRank, hc, ht, Bool.false_eq_true, if_false]
    omega
  | skip hp hc ht hd hl => exact absurd hq (by simp [Quiet, hl])
  | list hp =>
    simp only [rank, isElapse, hp, phaseRank, timerRank, Bool.false_eq_true, if_false]
    omega
  | reconciled hp =>
    simp only [rank, isElapse, hp, phaseRank, timerRank, Bool.false_eq_true, if_false]
    omega

/-- A node that runs after the state, with the list as it was there: it has still to look at
the list, or has done so. -/
structure After (start : μ) (s u : Node μ) : Prop where
  inv : Inv start u
  running : u.stopCh = false
  members : u.members = s.members
  seen : u.changed = true ∨ ∃ t, u.passes.getLast? = some ⟨t,some s.members⟩

theorem After.refl (h : Inv start s) (hrun : s.stopCh = false) (hc : s.changed = true) : After start s s :=
  ⟨h,hrun,rfl,.inl hc⟩

/-- The state that has been reached does as well as the one that was started from. -/
theorem After.rebase {u : Node μ} (h : After start s u) : After start u u :=
  ⟨h.inv,h.running,rfl,h.members ▸ h.seen⟩

theorem After.step {u u' : Node μ} (h : After start s u) (hq : Quiet e) (hs : u.step e = some u') : After start s u' := by
  have hinv := step_inv h.inv hs
  cases step_fires hs with
  | change | stop | watcherReturns | reconcilerReturns => cases hq
  | skip hp hc ht hd hl => exact absurd hq (by simp [Quiet, hl])
  | list hp => exact ⟨hinv,h.running,h.members,.inr ⟨u.now,h.members ▸ List.getLast?_concat⟩⟩
  | _ => exact ⟨hinv,h.running,h.members,h.seen⟩

/-- Nothing but the timer is left. -/
def Calm (s : Node μ) : Prop :=
  s.notices = [] ∧ s.membershipEvents = [] ∧ s.watcher = .selecting ∧ s.reconcileCh = false ∧ s.phase ≠ .resetting

/-- On the way from the state, with time passing only once nothing but the timer is left. -/
structure Toward (start : μ) (s u : Node μ) : Prop extends After start s u where
  deadline : ∀ d, u.debounceTimer = some ⟨some d⟩ → d ≤ s.now+reconcileDebounce
  now_le : u.now ≤ s.now+reconcileDebounce
  time : u.now = s.now ∨ u.Calm

theorem Toward.refl (h : After start s s) : Toward start s s := ⟨h,h.inv.deadline,Nat.le_add_right _ _,.inl rfl⟩

/-- A step that takes no time. The timer is started only while nothing but it being left is
still to come. -/
theorem Toward.act {u u' : Node μ} (h : Toward start s u) (hq : Quiet e) (helapse : isElapse e = false)
    (hs : u.step e = some u') : Toward start s u' := by
  have hafter := h.toAfter.step hq hs
  have hnow {p : Prop} (hcalm : u.Calm → p) (hnot : ¬ p) : u.now = s.now := h.time.resolve_right (fun hc => hnot (hcalm hc))
  cases step_fires hs with
  | change | stop | watcherReturns | reconcilerReturns => cases hq
  | elapse ms => cases helapse
  | skip hp hc ht hd hl => exact absurd hq (by simp [Quiet, hl])
  | notify hn | overflow hn => exact ⟨hafter,h.deadline,h.now_le,.inl (hnow (·.1) (by simp [hn]))⟩
  | takeEvent hw he => exact ⟨hafter,h.deadline,h.now_le,.inl (hnow (·.2.1) (by simp [he]))⟩
  | signal hw => exact ⟨hafter,h.deadline,h.now_le,.inl (hnow (·.2.2.1) (by simp [hw]))⟩
  | takeSignal hp hc => exact ⟨hafter,h.deadline,h.now_le,.inl (hnow (·.2.2.2.1) (by simp [hc]))⟩
  | reset hp =>
    have hnow := hnow (·.2.2.2.2) (not_not.mpr hp)
    refine ⟨hafter,fun d hd => ?_,h.now_le,.inl hnow⟩
    cases hd
    rw [hnow]
  | expire hp hc ht hd hl =>
    exact ⟨hafter,nofun,h.now_le,h.time.imp_right (fun ⟨hn,he,hw,hr,_⟩ => ⟨hn,he,hw,hr,nofun⟩)⟩
  | list hp =>
    exact ⟨hafter,h.deadline,h.now_le,h.time.imp_right (fun ⟨hn,he,hw,hr,_⟩ => ⟨hn,he,hw,hr,nofun⟩)⟩
  | reconciled hp =>
    exact ⟨hafter,h.deadline,h.now_le,h.time.imp_right (fun ⟨hn,he,hw,hr,_⟩ => ⟨hn,he,hw,hr,nofun⟩)⟩

theorem Toward.next {u : Node μ} (h : Toward start s u) (hq : Quiet e) (helapse : isElapse e = false)
    (hs : (u.step e).isSome) : ∃ e u', Quiet e ∧ u.step e = some u' ∧ Toward start s u' ∧ u'.rank < u.rank := by
  obtain ⟨u',hs⟩ := Option.isSome_iff_exists.mp hs
  have hrank := rank_step hq hs
  rw [helapse] at hrank
  exact ⟨e,u',hq,hs,h.act hq helapse hs,hrank⟩

/-- With nothing but the timer left, time passes until it fires. -/
theorem Toward.wait {u : Node μ} {d : Nat} (h : Toward start s u) (hcalm : u.Calm) (hc : u.debounceC = true)
    (ht : u.debounceTimer = some ⟨some d⟩) (hd : u.now < d) :
    ∃ e u', Quiet e ∧ u.step e = some u' ∧ Toward start s u' ∧ u'.rank < u.rank := by
  have hnow : u.now+(d-u.now) = d := Nat.add_sub_cancel' hd.le
  refine ⟨.elapse (d-u.now),_,trivial,rfl,⟨h.toAfter.step (e := .elapse _) trivial rfl,h.deadline,?_,.inr hcalm⟩,?_⟩
  · exact hnow.trans_le (h.deadline d ht)
  · refine Nat.add_lt_add_left ?_ _
    rw [timerRank_armed hc ht, timerRank_armed (s := { u with now := u.now+(d-u.now) }) hc ht]
    dsimp only
    omega

theorem Toward.progress {u : Node μ} (h : Toward start s u) (hdue : u.Due) :
    ∃ e u', Quiet e ∧ u.step e = some u' ∧ Toward start s u' ∧ u'.rank < u.rank := by
  have hrunning := h.running
  cases hn : u.notices with
  | cons e rest => exact h.next (e := .notify) trivial rfl (by simp [step, hn])
  | nil =>
  cases hw : u.watcher with
  | returned => simp [h.inv.watcher hw] at hrunning
  | signalling => exact h.next (e := .signal) trivial rfl (by simp [step, hw])
  | selecting =>
  cases he : u.membershipEvents with
  | cons e rest => exact h.next (e := .takeEvent) trivial rfl (by simp [step, hw, he])
  | nil =>
  cases hp : u.phase with
  | returned => simp [h.inv.phase hp] at hrunning
  | resetting => exact h.next (e := .reset) trivial rfl (by simp [step, hp])
  | listing => exact h.next (e := .list) trivial rfl (by simp [step, hp])
  | reconciling members => exact h.next (e := .reconciled) trivial rfl (by simp [step, hp])
  | selecting =>
  cases hr : u.reconcileCh with
  | true => exact h.next (e := .takeSignal) trivial rfl (by simp [step, hp, hr])
  | false =>
    have hc : u.debounceC = true := by simpa [Due, hn, he, hw, hp, hr] using hdue
    obtain ⟨d,ht⟩ := h.inv.armed_of_phase hp nofun hc
    rcases Nat.lt_or_ge u.now d with hd | hd
    · exact h.wait ⟨hn,he,hw,hr,hp ▸ nofun⟩ hc ht hd
    · have hf := fired_iff.mpr ⟨hc,d,ht,hd⟩
      exact h.next (e := .expire true true) rfl rfl (by simp [step, hp, hf])

theorem quiet_run_after {u : Node μ} {es : List (Event μ)} (h : After start s s) (hq : ∀ e ∈ es, Quiet e)
    (hr : Machine.run step s es = some u) : After start s u ∧ (es.filter (! isElapse ·)).length + u.rank ≤ s.rank := by
  refine Machine.run_history_of_meets (I := fun es u => After start s u ∧ (es.filter (! isElapse ·)).length + u.rank ≤ s.rank)
    (fun es u e u' hI hq hs => ?_) ⟨h,by simp⟩ (Machine.meets_of_forall s hq) hr
  obtain ⟨hafter,hrank⟩ := hI
  refine ⟨hafter.step hq hs,?_⟩
  have hstep := rank_step hq hs
  rw [List.filter_append, List.length_append]
  cases ht : isElapse e <;> simp [ht] at hstep ⊢ <;> omega

end Settling

/-- When the list of a node that leads stays as it is, the node reconciles with it: it makes
only so many steps, and wherever it has got to, it can look at the list within the time of
the timer and come to rest. -/
theorem change_reconciled (start : μ) (now : Nat) (es quiet : List (Event μ)) {s u : Node μ}
    (hr : Machine.run step (startMembershipWorkers start now) es = some s) (hrun : s.stopCh = false)
    (hc : s.changed = true) (hquiet : ∀ e ∈ quiet, Quiet e) (hu : Machine.run step s quiet = some u) :
    (quiet.filter (! isElapse ·)).length ≤ s.rank ∧
      ∃ rest t, (∀ e ∈ rest, Quiet e) ∧ Machine.run step u rest = some t ∧ t.now ≤ u.now+reconcileDebounce ∧ ¬ t.Due ∧
        ∃ p, t.passes.getLast? = some p ∧ p.members = some s.members := by
  have hinv := run_inv hr
  obtain ⟨hafter,hrank⟩ := quiet_run_after (.refl hinv hrun hc) hquiet hu
  obtain ⟨rest,t,hrest,ht,htoward,hrested⟩ := Machine.run_reaches (P := fun t => ¬ t.Due)
    (fun t ht hdue => ht.progress (not_not.mp hdue)) (Toward.refl hafter.rebase)
  refine ⟨(Nat.le_add_right _ _).trans hrank,rest,t,hrest,ht,htoward.now_le,hrested,?_⟩
  rcases htoward.seen with hchanged | ⟨time,hlast⟩
  · exact absurd (htoward.inv.due hchanged) hrested
  · exact ⟨_,hlast,congrArg some hafter.members⟩

/-- The node has a new list, and a notice or an announcement of it. -/
def told (notices events : List MembershipEvent) (now : Nat) : Node (List NodeID) :=
  { startMembershipWorkers ["a","b"] now with notices := notices, membershipEvents := events, changed := true }

theorem change_reconciled_sample : ∃ rest t, (∀ e ∈ rest, Quiet e) ∧
    Machine.run step (told [] [⟨.join,"b","10.0.0.2:7946"⟩] 1) rest = some t ∧ t.now ≤ 1+reconcileDebounce ∧ ¬ t.Due ∧
      ∃ p, t.passes.getLast? = some p ∧ p.members = some ["a","b"] :=
  (change_reconciled ["a"] 0 (joining.take 1) [.notify,.elapse 1]
    (s := told [⟨.join,"b","10.0.0.2:7946"⟩] [] 0) (by decide) rfl rfl (by decide) (by decide)).2

end Node
end Nawst.Cluster.Membership
