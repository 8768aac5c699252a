import Nawst.Lib.Machine
import Nawst.Cluster.Placement
import Mathlib.Data.Finset.Card

/-! Replicating one write and waiting for a quorum. The results of the targets
arrive in any order, and the context may be cancelled at any moment. -/
namespace Nawst.Cluster.Quorum
open Lib Nawst.Core

/-- What becomes of the replication task of a target. -/
inductive Outcome where
  | ok
  | failed (e : Err)
  | refused (e : Err)
  deriving DecidableEq

/-- What one call sees: the membership view, the placement before and after the
refresh that a leader forces, and the fate of each target's task. -/
structure Config where
  self : NodeID
  members : Option Nat
  replicationFactor : Int
  placement : Option Placement
  refreshed : Option Placement
  isLeader : Bool
  hashKey : Key → UInt64
  key : Key
  outcome : NodeID → Outcome

/-- The distinct usable replicas of a list, in order. -/
def distinctReplicas (self : NodeID) (replicas : List NodeID) : List NodeID :=
  replicas.foldl (fun targets r => if r = "" ∨ r = self ∨ r ∈ targets then targets else targets ++ [r]) []

/-- Each usable replica is there once, and nothing else. -/
theorem distinctReplicas_spec (self : NodeID) (replicas : List NodeID) :
    (distinctReplicas self replicas).Nodup ∧
      ∀ t, t ∈ distinctReplicas self replicas ↔ t ∈ replicas ∧ t ≠ "" ∧ t ≠ self := by
  unfold distinctReplicas
  induction replicas using List.reverseRecOn with
  | nil => simp
  | append_singleton replicas r ih =>
    obtain ⟨hn,hmem⟩ := ih
    rw [List.foldl_append]
    simp only [List.foldl_cons, List.foldl_nil]
    split
    · rename_i hr
      refine ⟨hn,fun t => ?_⟩
      rw [hmem t, List.mem_append, List.mem_singleton]
      rcases hr with rfl | rfl | hr
      · grind
      · grind
      · have := (hmem r).mp hr
        grind
    · rename_i hr
      refine ⟨?_,fun t => ?_⟩
      · rw [List.nodup_append]
        refine ⟨hn,by simp,?_⟩
        grind
      · rw [List.mem_append, hmem t, List.mem_append, List.mem_singleton]
        grind

namespace Config

def resolveTargetsFromPlacement (cfg : Config) (pl : Option Placement) : List NodeID :=
  match pl with
  | none => []
  | some p =>
    if p.vnodes.length ≠ vnodeCount then [] else distinctReplicas cfg.self (p.getNodesForKey cfg.hashKey cfg.key).2

/-- The placement the targets are taken from in the end. -/
def resolved (cfg : Config) : Option Placement :=
  if cfg.resolveTargetsFromPlacement cfg.placement = [] ∧ cfg.isLeader then cfg.refreshed else cfg.placement

def targets (cfg : Config) : List NodeID := cfg.resolveTargetsFromPlacement cfg.resolved

/-- The replicas of the key's vnode, as the placement lists them. -/
def replicas (cfg : Config) : List NodeID :=
  match cfg.resolved with
  | none => []
  | some p => (p.getNodesForKey cfg.hashKey cfg.key).2

theorem targets_eq (cfg : Config) : cfg.targets = distinctReplicas cfg.self cfg.replicas := by
  unfold targets replicas resolveTargetsFromPlacement
  cases cfg.resolved with
  | none => rfl
  | some p =>
    by_cases hp : p.vnodes.length = vnodeCount
    · simp [hp]
    · simp [hp, Placement.getNodesForKey, Placement.vnodeForKey, distinctReplicas]

/-- The targets whose task succeeds. -/
def succeeding (cfg : Config) : List NodeID := cfg.targets.filter (fun t => cfg.outcome t = .ok)

def effectiveRF (cfg : Config) (members : Nat) : Nat := min (max cfg.replicationFactor 1).toNat members

def required (cfg : Config) (members : Nat) : Nat := cfg.effectiveRF members/2+1

end Config

/-- The variables of a call. A result carries the target it came from, and taken
records those the loop has received. -/
structure Call where
  required : Nat
  unsubmitted : List NodeID
  waiting : List NodeID
  resultCh : List (NodeID × Option Err)
  acks : Nat
  remaining : Nat
  firstErr : Option Err
  cancelled : Option Err
  taken : List (NodeID × Option Err)
  verdict : Option (Option Err)
  deriving DecidableEq

def Call.returned (err : Option Err) : Call := ⟨0,[],[],[],1,0,none,none,[],some err⟩

def Call.replicating (required : Nat) (targets : List NodeID) : Call :=
  ⟨required,targets,[],[],1,targets.length,none,none,[],none⟩

/-- The call up to the point where the first task is submitted. -/
def replicateToAll (cfg : Config) : Call :=
  match cfg.members with
  | none => .returned (some "memberlist is nil")
  | some 0 => .returned none
  | some m =>
    let required := cfg.required m
    if required ≤ 1 then .returned none
    else if cfg.targets = [] ∧ 1 < m then .returned (some "placement not ready: waiting for Raft placement sync")
    else if cfg.targets = [] then .returned none
    else if 1+cfg.targets.length < required then
      .returned (some ("quorum impossible: need " ++ toString required ++ " acks, have 1 local + " ++
        toString cfg.targets.length ++ " remotes"))
    else .replicating required cfg.targets

namespace Call

def notReached (c : Call) (cause : Option Err) : Err :=
  let text := "write quorum not reached: got " ++ toString c.acks ++ "/" ++ toString c.required ++ " acks"
  match cause with
  | some e => text ++ ": " ++ e
  | none => text

/-- Returning early when the results still to come cannot make up a quorum. -/
def giveUp (c : Call) : Call :=
  if c.acks+c.remaining < c.required then { c with verdict := some (some (c.notReached c.firstErr)) } else c

/-- The loop receives a result. -/
def take (c : Call) (t : NodeID) : Option Err → Call
  | none =>
    let c := { c with remaining := c.remaining-1, taken := c.taken ++ [(t,none)], acks := c.acks+1 }
    if c.required ≤ c.acks then { c with verdict := some none } else c.giveUp
  | some e => giveUp { c with
      remaining := c.remaining-1, taken := c.taken ++ [(t,some e)], firstErr := c.firstErr.or (some e) }

/-- The loop is through without having returned. Before it the acknowledgement of
the node itself was no quorum, so the call fails. -/
def finish (c : Call) : Call := { c with verdict := some (some (c.notReached c.firstErr)) }

inductive Event where
  | submit
  | done (i : Nat)
  | abort (i : Nat)
  | take
  | finish
  | cancel (e : Err)
  | ctxDone
  deriving DecidableEq

/-- The error a target's task ends with, once it has been accepted. -/
def doneError : Outcome → Option Err
  | .ok => none
  | .failed e | .refused e => some e

def step (cfg : Config) (c : Call) : Event → Option Call
  | .submit => match c.verdict, c.unsubmitted with
    | none, t::ts => match cfg.outcome t with
      | .refused e => some { c with
          unsubmitted := ts, firstErr := c.firstErr.or (some e), resultCh := c.resultCh ++ [(t,some e)] }
      | _ => some { c with unsubmitted := ts, waiting := c.waiting ++ [t] }
    | _, _ => none
  | .done i => (c.waiting[i]?).map (fun t => { c with
      waiting := c.waiting.eraseIdx i, resultCh := c.resultCh ++ [(t,doneError (cfg.outcome t))] })
  | .abort i => match c.waiting[i]?, c.cancelled, c.verdict with
    | some t, some e, _ => some { c with
        waiting := c.waiting.eraseIdx i, resultCh := c.resultCh ++ [(t,some e)] }
    | some t, none, some _ => some { c with
        waiting := c.waiting.eraseIdx i, resultCh := c.resultCh ++ [(t,some "context canceled")] }
    | _, _, _ => none
  | .take => match c.verdict, c.unsubmitted, c.remaining, c.resultCh with
    | none, [], _+1, (t,err)::rs => some (take { c with resultCh := rs } t err)
    | _, _, _, _ => none
  | .finish => match c.verdict, c.unsubmitted, c.remaining with
    | none, [], 0 => some c.finish
    | _, _, _ => none
  | .cancel e => match c.verdict, c.cancelled with
    | none, none => some { c with cancelled := some e }
    | _, _ => none
  | .ctxDone => match c.verdict, c.unsubmitted, c.remaining, c.cancelled with
    | none, [], _+1, some e => some { c with verdict := some (some (c.notReached (c.firstErr.or (some e)))) }
    | _, _, _, _ => none

/-- The targets whose acknowledgement the loop has counted. -/
def counted (c : Call) : List NodeID := (c.taken.filter (fun r => r.2 = none)).map Prod.fst

/-- Where the targets are, and what the counters say about the results taken. -/
structure Tally (cfg : Config) (q : Nat) (c : Call) : Prop where
  required_eq : c.required = q
  parts : (c.unsubmitted ++ c.waiting ++ c.resultCh.map Prod.fst ++ c.taken.map Prod.fst).Perm cfg.targets
  genuine : ∀ r ∈ c.resultCh ++ c.taken, r.2 = none → cfg.outcome r.1 = .ok
  arriving : c.cancelled = none → c.verdict = none → ∀ r ∈ c.resultCh, cfg.outcome r.1 = .ok → r.2 = none
  arrived : c.cancelled = none → ∀ r ∈ c.taken, cfg.outcome r.1 = .ok → r.2 = none
  acks_eq : c.acks = 1+c.counted.length
  remaining_eq : c.remaining+c.taken.length = cfg.targets.length

/-- The verdict, if there is one, agrees with the tally. -/
structure Inv (cfg : Config) (q : Nat) (c : Call) : Prop extends Tally cfg q c where
  undecided : c.verdict = none → c.acks < c.required ∧ c.required ≤ c.acks+c.remaining
  reached : c.verdict = some none → c.required ≤ c.acks
  failed : ∀ e, c.verdict = some (some e) → c.cancelled = none → 1+cfg.succeeding.length < c.required

private theorem replicating_inv {cfg : Config} {q : Nat} (h1 : 1 < q) (hn : q ≤ 1+cfg.targets.length) :
    Inv cfg q (replicating q cfg.targets) where
  required_eq := rfl
  parts := by simp [replicating]
  genuine := by simp [replicating]
  arriving := by simp [replicating]
  arrived := by simp [replicating]
  acks_eq := by simp [replicating, counted]
  remaining_eq := by simp [replicating]
  undecided _ := ⟨h1,hn⟩
  reached := by simp [replicating]
  failed := by simp [replicating]

private theorem perm_of_count {l m : List NodeID} (h : ∀ a, l.count a = m.count a) {targets : List NodeID}
    (hm : m.Perm targets) : l.Perm targets := (List.perm_iff_count.mpr h).trans hm

private theorem Tally.submitted {cfg : Config} {q : Nat} {c : Call} (h : Tally cfg q c) {t : NodeID} {ts : List NodeID}
    (hu : c.unsubmitted = t::ts) : Tally cfg q { c with unsubmitted := ts, waiting := c.waiting ++ [t] } where
  required_eq := h.required_eq
  parts := by
    refine perm_of_count (fun a => ?_) h.parts
    simp only [hu, List.count_append, List.count_cons, List.count_nil]
    omega
  genuine := h.genuine
  arriving := h.arriving
  arrived := h.arrived
  acks_eq := h.acks_eq
  remaining_eq := h.remaining_eq

private theorem Tally.refused {cfg : Config} {q : Nat} {c : Call} (h : Tally cfg q c) {t : NodeID} {ts : List NodeID} {e : Err}
    (hu : c.unsubmitted = t::ts) (ho : cfg.outcome t = .refused e) : Tally cfg q { c with
      unsubmitted := ts, firstErr := c.firstErr.or (some e), resultCh := c.resultCh ++ [(t,some e)] } where
  required_eq := h.required_eq
  parts := by
    refine perm_of_count (fun a => ?_) h.parts
    simp only [hu, List.map_append, List.map_cons, List.map_nil, List.count_append, List.count_cons, List.count_nil]
    omega
  genuine r hr he := by
    refine h.genuine r ?_ he
    simp only [List.append_assoc, List.mem_append, List.mem_singleton] at hr ⊢
    rcases hr with hr | rfl | hr
    · exact .inl hr
    · cases he
    · exact .inr hr
  arriving hc hv := Machine.forall_mem_concat (h.arriving hc hv) (fun hok => by simp [ho] at hok)
  arrived := h.arrived
  acks_eq := h.acks_eq
  remaining_eq := h.remaining_eq

/-- A goroutine hands over the result of its target. -/
private theorem Tally.handedOver {cfg : Config} {q : Nat} {c : Call} (h : Tally cfg q c) {i : Nat} {t : NodeID} {err : Option Err}
    (hi : c.waiting[i]? = some t) (hok : err = none → cfg.outcome t = .ok)
    (hc : c.cancelled = none → c.verdict = none → cfg.outcome t = .ok → err = none) :
    Tally cfg q { c with waiting := c.waiting.eraseIdx i, resultCh := c.resultCh ++ [(t,err)] } where
  required_eq := h.required_eq
  parts := by
    obtain ⟨hlt,rfl⟩ := List.getElem?_eq_some_iff.mp hi
    have hp := List.getElem_cons_eraseIdx_perm hlt
    refine perm_of_count (fun a => ?_) h.parts
    have := hp.count_eq a
    simp only [List.map_append, List.map_cons, List.map_nil, List.count_append, List.count_cons, List.count_nil] at this ⊢
    omega
  genuine r hr he := by
    simp only [List.append_assoc, List.mem_append, List.mem_singleton] at hr
    rcases hr with hr | rfl | hr
    · exact h.genuine r (List.mem_append_left _ hr) he
    · exact hok he
    · exact h.genuine r (List.mem_append_right _ hr) he
  arriving hcn hv := Machine.forall_mem_concat (h.arriving hcn hv) (hc hcn hv)
  arrived := h.arrived
  acks_eq := h.acks_eq
  remaining_eq := h.remaining_eq

/-- Without cancellation every success so far is counted, and the rest is at most
what is still to come. -/
private theorem Tally.succeeding_le {cfg : Config} {q : Nat} {c : Call} (h : Tally cfg q c) (hc : c.cancelled = none) :
    1+cfg.succeeding.length ≤ c.acks+c.remaining := by
  have hperm := h.parts.countP_eq (fun t => decide (cfg.outcome t = .ok))
  have hlen := h.parts.length_eq
  have htaken : (c.taken.map Prod.fst).countP (fun t => decide (cfg.outcome t = .ok)) = c.counted.length := by
    rw [counted, List.length_map, ← List.countP_eq_length_filter, List.countP_map]
    refine List.countP_congr (fun r hr => ?_)
    have hg := h.genuine r (List.mem_append_right _ hr)
    have ha := h.arrived hc r hr
    simp only [Function.comp_apply, decide_eq_true_eq]
    exact ⟨ha,hg⟩
  have hrem := h.remaining_eq
  have hacks := h.acks_eq
  have hu := List.countP_le_length (p := fun t => decide (cfg.outcome t = .ok)) (l := c.unsubmitted)
  have hw := List.countP_le_length (p := fun t => decide (cfg.outcome t = .ok)) (l := c.waiting)
  have hr := List.countP_le_length (p := fun t => decide (cfg.outcome t = .ok)) (l := c.resultCh.map Prod.fst)
  simp only [List.countP_append, List.length_append, List.length_map] at hperm hlen hr
  rw [Config.succeeding, ← List.countP_eq_length_filter]
  omega

/-- Everything but the tally stays as it is. -/
private theorem Inv.of_tally {cfg : Config} {q : Nat} {c c' : Call} (h : Inv cfg q c) (ht : Tally cfg q c')
    (ha : c'.acks = c.acks) (hm : c'.remaining = c.remaining)
    (hc : c'.cancelled = c.cancelled) (hv : c'.verdict = c.verdict) : Inv cfg q c' where
  toTally := ht
  undecided := by rw [ht.required_eq, ← h.required_eq, ha, hm, hv]; exact h.undecided
  reached := by rw [ht.required_eq, ← h.required_eq, ha, hv]; exact h.reached
  failed := by rw [ht.required_eq, ← h.required_eq, hc, hv]; exact h.failed

private theorem Tally.took {cfg : Config} {q : Nat} {c : Call} (h : Tally cfg q c) {t : NodeID} {err : Option Err}
    {rs : List (NodeID × Option Err)} {n : Nat} (hv : c.verdict = none) (hn : c.remaining = n+1)
    (hr : c.resultCh = (t,err)::rs) (firstErr : Option Err) : Tally cfg q { c with
      resultCh := rs, remaining := c.remaining-1, taken := c.taken ++ [(t,err)], firstErr := firstErr,
      acks := if err = none then c.acks+1 else c.acks } where
  required_eq := h.required_eq
  parts := by
    refine perm_of_count (fun a => ?_) h.parts
    simp only [hr, List.map_append, List.map_cons, List.map_nil, List.count_append, List.count_cons, List.count_nil]
    omega
  genuine r hmem he := by
    refine h.genuine r ?_ he
    rw [hr]
    simp only [List.mem_append, List.mem_cons] at hmem ⊢
    tauto
  arriving hc hv r hmem := h.arriving hc hv r (by rw [hr]; exact List.mem_cons_of_mem _ hmem)
  arrived hc := by
    refine Machine.forall_mem_concat (h.arrived hc) (h.arriving hc hv (t,err) ?_)
    rw [hr]
    exact List.mem_cons_self
  acks_eq := by
    have := h.acks_eq
    simp only [counted, List.filter_append, List.map_append, List.length_append, List.length_map] at this ⊢
    by_cases he : err = none <;> simp [he] <;> omega
  remaining_eq := by
    have := h.remaining_eq
    simp only [hn, List.length_append, List.length_singleton] at this ⊢
    omega

/-- Giving up is right when what is still to come cannot make up a quorum. -/
private theorem Tally.giveUp {cfg : Config} {q : Nat} {c : Call} (h : Tally cfg q c) (hv : c.verdict = none)
    (ha : c.acks < c.required) : Inv cfg q c.giveUp := by
  unfold Call.giveUp
  split
  · rename_i hlt
    refine ⟨⟨h.required_eq,h.parts,h.genuine,?_,h.arrived,h.acks_eq,h.remaining_eq⟩,?_,?_,?_⟩
    · intro _ hn
      cases hn
    · intro hn
      cases hn
    · intro hn
      cases hn
    · intro _ _ hc
      have hle := h.succeeding_le hc
      exact Nat.lt_of_le_of_lt hle hlt
  · rename_i hge
    exact ⟨h,fun _ => ⟨ha,by omega⟩,by simp [hv],by simp [hv]⟩

private theorem take_inv {cfg : Config} {q : Nat} {c : Call} (h : Inv cfg q c) {t : NodeID} {err : Option Err}
    {rs : List (NodeID × Option Err)} {n : Nat} (hv : c.verdict = none) (hn : c.remaining = n+1)
    (hr : c.resultCh = (t,err)::rs) : Inv cfg q (take { c with resultCh := rs } t err) := by
  have ha := (h.undecided hv).1
  cases err with
  | none =>
    have ht := h.took hv hn hr c.firstErr
    simp only [take]
    split
    · rename_i hreach
      refine ⟨⟨ht.required_eq,ht.parts,ht.genuine,?_,ht.arrived,ht.acks_eq,ht.remaining_eq⟩,?_,fun _ => hreach,?_⟩
      · intro _ hn
        cases hn
      · intro hn
        cases hn
      · intro _ hn
        cases hn
    · rename_i hreach
      exact Tally.giveUp ht hv (Nat.lt_of_not_le hreach)
  | some e =>
    have ht := h.took hv hn hr (c.firstErr.or (some e))
    exact Tally.giveUp ht hv ha

theorem step_inv {cfg : Config} {q : Nat} {c c' : Call} {e : Event} (h : Inv cfg q c) (hs : step cfg c e = some c') :
    Inv cfg q c' := by
  cases e with
  | submit =>
    simp only [step] at hs
    split at hs
    · rename_i hv hu
      split at hs
      · rename_i ho
        cases hs
        exact h.of_tally (h.refused hu ho) rfl rfl rfl rfl
      · cases hs
        exact h.of_tally (h.submitted hu) rfl rfl rfl rfl
    · cases hs
  | done i =>
    simp only [step, Option.map_eq_some_iff] at hs
    obtain ⟨t,hi,rfl⟩ := hs
    refine h.of_tally (h.handedOver hi ?_ ?_) rfl rfl rfl rfl
    · cases ho : cfg.outcome t <;> simp [doneError]
    · intro _ _ ho
      rw [ho]
      rfl
  | abort i =>
    simp only [step] at hs
    split at hs
    · rename_i hi hc
      cases hs
      exact h.of_tally (h.handedOver hi (by simp) (by simp [hc])) rfl rfl rfl rfl
    · rename_i hi hc hv
      cases hs
      exact h.of_tally (h.handedOver hi (by simp) (by simp [hv])) rfl rfl rfl rfl
    · cases hs
  | take =>
    simp only [step] at hs
    split at hs
    · cases hs
      exact take_inv h ‹_› ‹_› ‹_›
    · cases hs
  | finish =>
    simp only [step] at hs
    split at hs
    · rename_i hv _ hn
      have := h.undecided hv
      omega
    · cases hs
  | cancel e =>
    simp only [step] at hs
    split at hs
    · rename_i hv hc
      cases hs
      exact ⟨⟨h.required_eq,h.parts,h.genuine,by simp,by simp,h.acks_eq,h.remaining_eq⟩,h.undecided,h.reached,by simp⟩
    · cases hs
  | ctxDone =>
    simp only [step] at hs
    split at hs
    · rename_i hv _ _ hc
      cases hs
      exact ⟨⟨h.required_eq,h.parts,h.genuine,by simp,h.arrived,h.acks_eq,h.remaining_eq⟩,by simp,by simp,by simp [hc]⟩
    · cases hs

/-- Work left: every step of the call uses up some of it. -/
def work (c : Call) : Nat :=
  3*c.unsubmitted.length+2*c.waiting.length+c.resultCh.length+
    (if c.cancelled = none then 1 else 0)+(if c.verdict = none then 1 else 0)

private theorem work_giveUp_le (c : Call) : c.giveUp.work ≤ c.work := by
  unfold giveUp
  split
  · simp only [work, reduceCtorEq, if_false]
    omega
  · exact Nat.le_refl _

private theorem work_take (c : Call) (t : NodeID) (err : Option Err) : (c.take t err).work ≤ c.work := by
  cases err with
  | none =>
    simp only [take]
    split
    · simp only [work, reduceCtorEq, if_false]
      omega
    · exact work_giveUp_le _
  | some e => exact work_giveUp_le _

theorem step_work {cfg : Config} {c c' : Call} {e : Event} (hs : step cfg c e = some c') : c'.work < c.work := by
  have erased {i : Nat} {t : NodeID} (hi : c.waiting[i]? = some t) :
      (c.waiting.eraseIdx i).length+1 = c.waiting.length := by
    obtain ⟨hlt,_⟩ := List.getElem?_eq_some_iff.mp hi
    rw [List.length_eraseIdx_of_lt hlt]
    omega
  cases e with
  | submit =>
    simp only [step] at hs
    split at hs
    · rename_i hv hu
      split at hs <;> cases hs <;>
        simp only [work, hu, hv, List.length_append, List.length_cons, List.length_nil, if_true] <;> omega
    · cases hs
  | done i =>
    simp only [step, Option.map_eq_some_iff] at hs
    obtain ⟨t,hi,rfl⟩ := hs
    have := erased hi
    simp only [work, List.length_append, List.length_singleton]
    omega
  | abort i =>
    simp only [step] at hs
    split at hs
    · rename_i hi _
      cases hs
      have := erased hi
      simp only [work, List.length_append, List.length_singleton]
      omega
    · rename_i hi _ _
      cases hs
      have := erased hi
      simp only [work, List.length_append, List.length_singleton]
      omega
    · cases hs
  | take =>
    simp only [step] at hs
    split at hs
    · rename_i t err rs hv hu hn hr
      cases hs
      refine Nat.lt_of_le_of_lt (work_take _ t err) ?_
      simp only [work, hr, List.length_cons]
      omega
    · cases hs
  | finish =>
    simp only [step] at hs
    split at hs
    · cases hs
      simp [work, finish, *]
    · cases hs
  | cancel e =>
    simp only [step] at hs
    split at hs
    · cases hs
      simp [work, *]
    · cases hs
  | ctxDone =>
    simp only [step] at hs
    split at hs
    · cases hs
      simp [work, *]
    · cases hs

/-- Until it has returned, the call needs neither more time nor a cancellation to go on. -/
private theorem Inv.progress {cfg : Config} {q : Nat} {c : Call} (h : Inv cfg q c) (hv : c.verdict = none) :
    ∃ e : Event, (∀ err, e ≠ .cancel err) ∧ (step cfg c e).isSome := by
  cases hu : c.unsubmitted with
  | cons t ts =>
    refine ⟨.submit,by simp,?_⟩
    simp only [step, hv, hu]
    split <;> rfl
  | nil =>
    obtain ⟨hlt,hle⟩ := h.undecided hv
    have hlen := h.parts.length_eq
    have hrem := h.remaining_eq
    simp only [hu, List.length_append, List.length_map, List.length_nil] at hlen
    obtain ⟨n,hn⟩ : ∃ n, c.remaining = n+1 := ⟨c.remaining-1,by omega⟩
    cases hw : c.waiting with
    | cons t ts => exact ⟨.done 0,by simp,by simp [step, hw]⟩
    | nil =>
      cases hr : c.resultCh with
      | cons r rs => exact ⟨.take,by simp,by simp [step, hv, hu, hn, hr]⟩
      | nil =>
        simp only [hw, hr, List.length_nil] at hlen
        omega

/-- A call that has returned at once takes no further step. -/
theorem run_returned {cfg : Config} {err : Option Err} {es : List Event} {c : Call}
    (hr : Machine.run (step cfg) (returned err) es = some c) : es = [] ∧ c = returned err := by
  cases es with
  | nil =>
    cases hr
    exact ⟨rfl,rfl⟩
  | cons e es =>
    obtain ⟨c',hs,_⟩ := Machine.run_cons.mp hr
    cases e <;> simp [step, returned] at hs

/-- How a call starts: it returns at once, or replicates with a quorum still possible. -/
theorem replicateToAll_cases {cfg : Config} {m : Nat} (hm : cfg.members = some m) :
    (replicateToAll cfg = returned none ∧ (m = 0 ∨ cfg.required m ≤ 1)) ∨
    (∃ e, replicateToAll cfg = returned (some e) ∧ 1+cfg.targets.length < cfg.required m) ∨
    (replicateToAll cfg = replicating (cfg.required m) cfg.targets ∧ 1 < cfg.required m ∧
      cfg.required m ≤ 1+cfg.targets.length) := by
  cases m with
  | zero => exact .inl ⟨by simp [replicateToAll, hm],.inl rfl⟩
  | succ m =>
    simp only [replicateToAll, hm]
    split
    · exact .inl ⟨rfl,.inr ‹_›⟩
    · rename_i h1
      split
      · rename_i ht
        exact .inr (.inl ⟨_,rfl,by simp only [ht.1, List.length_nil]; omega⟩)
      · rename_i hmany
        split
        · rename_i ht
          have hone : m+1 = 1 := by
            have : ¬ 1 < m+1 := fun hlt => hmany ⟨ht,hlt⟩
            omega
          refine absurd ?_ h1
          unfold Config.required Config.effectiveRF
          have : min (max cfg.replicationFactor 1).toNat (m+1) ≤ 1 := by omega
          omega
        · split
          · exact .inr (.inl ⟨_,rfl,‹_›⟩)
          · exact .inr (.inr ⟨rfl,by omega,by omega⟩)

theorem counted_spec {cfg : Config} {q : Nat} {c : Call} (h : Tally cfg q c) :
    c.counted.Nodup ∧ c.counted ⊆ cfg.succeeding := by
  have hd : cfg.targets.Nodup := by
    rw [cfg.targets_eq]
    exact (distinctReplicas_spec _ _).1
  have hsub : c.counted.Sublist (c.taken.map Prod.fst) := (List.filter_sublist).map _
  have htaken : (c.taken.map Prod.fst).Nodup := (List.nodup_append.mp (h.parts.nodup_iff.mpr hd)).2.1
  refine ⟨htaken.sublist hsub,fun t ht => ?_⟩
  have hmem : t ∈ cfg.targets := h.parts.subset (List.mem_append_right _ (hsub.subset ht))
  obtain ⟨r,hr,rfl⟩ := List.mem_map.mp ht
  obtain ⟨hr,he⟩ := List.mem_filter.mp hr
  rw [Config.succeeding, List.mem_filter]
  exact ⟨hmem,decide_eq_true (h.genuine r (List.mem_append_right _ hr) (of_decide_eq_true he))⟩

theorem run_inv {cfg : Config} {q : Nat} (h1 : 1 < q) (hn : q ≤ 1+cfg.targets.length)
    {es : List Event} {c : Call} (hr : Machine.run (step cfg) (replicating q cfg.targets) es = some c) : Inv cfg q c :=
  Machine.run_invariant (fun _ _ _ hi hs => step_inv hi hs) (replicating_inv h1 hn) hr

private theorem work_replicating (q : Nat) (targets : List NodeID) :
    (replicating q targets).work = 3*targets.length+2 := by simp [work, replicating]

private theorem required_of_returned {cfg : Config} {m : Nat} (h : 1+cfg.targets.length < cfg.required m) :
    ¬ (cfg.required m ≤ 1 ∨ cfg.required m ≤ 1+cfg.succeeding.length) := by
  have : cfg.succeeding.length ≤ cfg.targets.length := List.length_filter_le _ _
  omega

/-- The verdict is the count of successes. Without cancellation the call succeeds
exactly when the targets that succeed make up a quorum, in whatever order their
results arrive; with it, only when those received so far do. No target is counted
twice, and the call always comes to an end. -/
theorem verdict_counts_successes (cfg : Config) (m : Nat) (hm : cfg.members = some m) (h1 : 1 ≤ m)
    (es : List Event) (c : Call) (hr : Machine.run (step cfg) (replicateToAll cfg) es = some c) :
    (∀ err, c.verdict = some err → c.cancelled = none →
      (err = none ↔ cfg.required m ≤ 1 ∨ cfg.required m ≤ 1+cfg.succeeding.length)) ∧
    (c.verdict = some none → cfg.required m ≤ 1 ∨ cfg.required m ≤ 1+c.counted.length) ∧
    (c.counted.Nodup ∧ c.counted ⊆ cfg.succeeding) ∧
    (cfg.targets.Nodup ∧ ∀ t, t ∈ cfg.targets ↔ t ∈ cfg.replicas ∧ t ≠ "" ∧ t ≠ cfg.self) ∧
    es.length ≤ 3*cfg.targets.length+2 ∧
    (c.verdict = none → ∃ e : Event, (∀ err, e ≠ .cancel err) ∧ (step cfg c e).isSome) := by
  have htargets := distinctReplicas_spec cfg.self cfg.replicas
  rw [← cfg.targets_eq] at htargets
  rcases replicateToAll_cases hm with ⟨he,hq⟩ | ⟨e,he,hq⟩ | ⟨he,h1q,hq⟩
  · rw [he] at hr
    obtain ⟨rfl,rfl⟩ := run_returned hr
    have hone : cfg.required m ≤ 1 := by omega
    exact ⟨by simp [returned, hone],fun _ => .inl hone,by simp [counted, returned],htargets,by simp,
      by simp [returned]⟩
  · rw [he] at hr
    obtain ⟨rfl,rfl⟩ := run_returned hr
    refine ⟨?_,by simp [returned],by simp [counted, returned],htargets,by simp,by simp [returned]⟩
    intro err hv _
    cases hv
    simpa using required_of_returned hq
  · rw [he] at hr
    have hi := run_inv h1q hq hr
    have hlen := Machine.run_length_le (fun _ _ _ hs => step_work hs) hr
    rw [work_replicating] at hlen
    refine ⟨?_,?_,counted_spec hi.toTally,htargets,by omega,hi.progress⟩
    · intro err hv hc
      cases err with
      | none =>
        have hreach := hi.reached hv
        have hacks := hi.acks_eq
        have hle := (counted_spec hi.toTally).1.length_le_of_subset (counted_spec hi.toTally).2
        rw [hi.required_eq] at hreach
        simp only [true_iff]
        omega
      | some e =>
        have hfail := hi.failed e hv hc
        rw [hi.required_eq] at hfail
        simp only [reduceCtorEq, false_iff]
        omega
    · intro hv
      have hreach := hi.reached hv
      rw [hi.required_eq, hi.acks_eq] at hreach
      exact .inr hreach

/-- Every vnode on node-1, with replicas on the other two nodes. -/
def samplePlacement : Placement := heldBy 1 "node-1" ["node-2","node-3"]

/-- A view of the given size, where the task of node-2 cannot be submitted. -/
def sampleConfig (members : Nat) : Config where
  self := "node-1"
  members := some members
  replicationFactor := 3
  placement := some samplePlacement
  refreshed := none
  isLeader := false
  hashKey _ := 0
  key := .singleton 107
  outcome t := if t = "node-2" then .refused "replication queue full for node node-2" else .ok

private theorem sample_nodes (members : Nat) :
    samplePlacement.getNodesForKey (sampleConfig members).hashKey (sampleConfig members).key =
      ("node-1",["node-2","node-3"]) := heldBy_getNodesForKey 1 _ _

private theorem sample_targets (members : Nat) : (sampleConfig members).targets = ["node-2","node-3"] := by
  have hr : (sampleConfig members).resolved = some samplePlacement := by
    simp [Config.resolved, sampleConfig]
  rw [Config.targets_eq, Config.replicas, hr]
  simp only [sample_nodes]
  simp [distinctReplicas, sampleConfig]

theorem verdict_counts_successes_sample :
    ∃ c, Machine.run (step (sampleConfig 3)) (replicateToAll (sampleConfig 3)) [.submit,.submit,.done 0,.take,.take] =
        some c ∧ c.verdict = some none ∧ c.cancelled = none ∧ c.counted = ["node-3"] ∧
      ((sampleConfig 3).required 3 ≤ 1 ∨ (sampleConfig 3).required 3 ≤ 1+(sampleConfig 3).succeeding.length) := by
  have hstart : replicateToAll (sampleConfig 3) = replicating 2 ["node-2","node-3"] := by
    have hm : (sampleConfig 3).members = some 3 := rfl
    have hq : (sampleConfig 3).required 3 = 2 := by decide
    simp [replicateToAll, hm, hq, sample_targets]
  have hrun : Machine.run (step (sampleConfig 3)) (replicateToAll (sampleConfig 3))
      [.submit,.submit,.done 0,.take,.take] =
      some ⟨2,[],[],[],2,0,some "replication queue full for node node-2",none,
        [("node-2",some "replication queue full for node node-2"),("node-3",none)],some none⟩ := by
    rw [hstart]
    rfl
  refine ⟨_,hrun,rfl,rfl,rfl,?_⟩
  exact ((verdict_counts_successes (sampleConfig 3) 3 rfl (by decide) _ _ hrun).1 none rfl rfl).mp rfl

/-- The distinct nodes a placement gives the key to. -/
def replicaSet (cfg : Config) (p : Placement) : Finset NodeID :=
  insert (p.getNodesForKey cfg.hashKey cfg.key).1 (p.getNodesForKey cfg.hashKey cfg.key).2.toFinset

/-- The nodes known to hold the write: the node itself and the targets counted. -/
def holders (cfg : Config) (c : Call) : Finset NodeID := insert cfg.self c.counted.toFinset

/-- With a view of one member the call succeeds without having asked any of the two
replicas, so that one of three nodes holds the write. -/
theorem small_view_leaves_minority :
    samplePlacement.vnodes.length = vnodeCount ∧ (sampleConfig 1).placement = some samplePlacement ∧
      (samplePlacement.getNodesForKey (sampleConfig 1).hashKey (sampleConfig 1).key).1 = (sampleConfig 1).self ∧
      replicateToAll (sampleConfig 1) = returned none ∧
      ¬ (replicaSet (sampleConfig 1) samplePlacement).card <
        2*(holders (sampleConfig 1) (replicateToAll (sampleConfig 1))).card := by
  have hstart : replicateToAll (sampleConfig 1) = returned none := by decide
  have hholders : holders (sampleConfig 1) (returned none) = {"node-1"} := by decide
  have hset : replicaSet (sampleConfig 1) samplePlacement = {"node-1","node-2","node-3"} := by
    simp only [replicaSet, sample_nodes]
    decide
  refine ⟨(heldBy_ring 1).length_eq,rfl,congrArg Prod.fst (sample_nodes 1),hstart,?_⟩
  rw [hstart, hholders, hset]
  decide

end Call
end Nawst.Cluster.Quorum
