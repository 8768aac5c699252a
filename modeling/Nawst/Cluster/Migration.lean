import Nawst.Lib.Machine
import Nawst.Cluster.Placement

/-! Installing placements on one node. Each change of placement plans a migration
and leaves it to a goroutine of its own; any number of them run side by side. -/
namespace Nawst.Cluster.Migration
open Lib Lib.FiniteMap

/-- What a change of placement means to a node for one vnode. -/
inductive Change where
  | lost | gained | changedReplicas | addedReplica | unaffected
  deriving DecidableEq, Repr

/-- none is an index out of range. -/
def classify (self : NodeID) (old new : Placement) (v : UInt16) : Option Change :=
  let oldOwner := old.primaryOf v
  let newOwner := new.primaryOf v
  if oldOwner = self ∧ newOwner ≠ self then some .lost
  else if oldOwner ≠ self ∧ newOwner = self then some .gained
  else do
    let oldReplicas ← old.vnodes[v.toNat]?.map VNode.replicas
    let newReplicas ← new.vnodes[v.toNat]?.map VNode.replicas
    if oldOwner = newOwner ∧ oldOwner = self then
      some (if oldReplicas ≠ newReplicas then .changedReplicas else .unaffected)
    else some (if self ∉ oldReplicas ∧ self ∈ newReplicas then .addedReplica else .unaffected)

structure Plan where
  gained : List UInt16
  lost : List UInt16
  changedReplicas : List UInt16
  addedReplicas : List UInt16
  deriving DecidableEq

def Plan.add (p : Plan) (v : UInt16) : Change → Plan
  | .lost => { p with lost := p.lost ++ [v] }
  | .gained => { p with gained := p.gained ++ [v] }
  | .changedReplicas => { p with changedReplicas := p.changedReplicas ++ [v] }
  | .addedReplica => { p with addedReplicas := p.addedReplicas ++ [v] }
  | .unaffected => p

/-- The plan, with the vnodes of the new placement visited in the given order. -/
def plan (self : NodeID) (old new : Placement) (order : List UInt16) : Option Plan :=
  order.foldlM (fun p v => (classify self old new v).map (p.add v)) ⟨[],[],[],[]⟩

def Plan.list (p : Plan) : Change → List UInt16
  | .lost => p.lost
  | .gained => p.gained
  | .changedReplicas => p.changedReplicas
  | .addedReplica => p.addedReplicas
  | .unaffected => []

private theorem Plan.list_add (p : Plan) (v : UInt16) {c : Change} (hc : c ≠ .unaffected) (d : Change) :
    (p.add v d).list c = p.list c ++ if d = c then [v] else [] := by
  cases c with
  | unaffected => exact absurd rfl hc
  | lost | gained | changedReplicas | addedReplica => cases d <;> simp [Plan.add, Plan.list]

/-- Each list of the plan is exactly the vnodes that were classified so. -/
theorem plan_list {self : NodeID} {old new : Placement} {order : List UInt16} {p : Plan}
    (h : plan self old new order = some p) {c : Change} (hc : c ≠ .unaffected) :
    p.list c = order.filter (fun v => classify self old new v = some c) := by
  have key : ∀ (order : List UInt16) (q : Plan),
      order.foldlM (fun p v => (classify self old new v).map (p.add v)) q = some p →
      p.list c = q.list c ++ order.filter (fun v => classify self old new v = some c) := by
    intro order
    induction order with
    | nil =>
      intro q hq
      cases hq
      simp
    | cons v order ih =>
      intro q hq
      simp only [List.foldlM_cons, Option.bind_eq_bind, Option.bind_eq_some_iff, Option.map_eq_some_iff] at hq
      obtain ⟨_,⟨d,hd,rfl⟩,hq⟩ := hq
      rw [ih _ hq, Plan.list_add q v hc d, List.filter_cons]
      by_cases hdc : d = c <;> simp [hd, hdc]
  have := key order _ h
  cases c <;> simpa [Plan.list] using this

/-- There is a plan as long as no index is out of range. -/
theorem plan_total {self : NodeID} {old new : Placement} {order : List UInt16}
    (h : ∀ v ∈ order, ∃ c, classify self old new v = some c) : ∃ p, plan self old new order = some p := by
  unfold plan
  generalize (⟨[],[],[],[]⟩ : Plan) = q
  induction order generalizing q with
  | nil => exact ⟨q,rfl⟩
  | cons v order ih =>
    obtain ⟨⟨c,hc⟩,hrest⟩ := List.forall_mem_cons.mp h
    obtain ⟨p,hp⟩ := ih hrest (q.add v c)
    exact ⟨p,by simpa [List.foldlM_cons, hc] using hp⟩

/-- A plan for vnodes that all change in the same way. -/
private theorem plan_all {self : NodeID} {old new : Placement} {c : Change} {order : List UInt16}
    (h : ∀ v ∈ order, classify self old new v = some c) :
    ∃ p, plan self old new order = some p ∧ ∀ d, d ≠ .unaffected → p.list d = if d = c then order else [] := by
  obtain ⟨p,hp⟩ := plan_total (fun v hv => ⟨c,h v hv⟩)
  refine ⟨p,hp,fun d hd => ?_⟩
  rw [plan_list hp hd]
  split
  · rename_i hdc
    exact List.filter_eq_self.mpr (fun v hv => by simp [h v hv, hdc])
  · rename_i hdc
    exact List.filter_eq_nil_iff.mpr (fun v hv => by simp [h v hv, Ne.symm hdc])

theorem classify_lost {self : NodeID} {old new : Placement} {v : UInt16}
    (h : classify self old new v = some .lost) : old.primaryOf v = self ∧ new.primaryOf v ≠ self := by
  simp only [classify] at h
  split at h
  · assumption
  · split at h
    · cases h
    · simp only [Option.bind_eq_bind, Option.bind_eq_some_iff] at h
      obtain ⟨_,_,_,_,h⟩ := h
      split at h <;> (simp only [Option.some.injEq] at h; split at h <;> cases h)

/-- Append the names that are usable and not there yet. -/
def addCandidates (self : NodeID) (candidates names : List NodeID) : List NodeID :=
  names.foldl (fun cs n => if n ≠ "" ∧ n ≠ self ∧ n ∉ cs then cs ++ [n] else cs) candidates

/-- Sources for a vnode gained as primary: its old primary, then the replicas. -/
def gainedCandidates (self : NodeID) (old new : Placement) (v : UInt16) : Option (List NodeID) := do
  let oldReplicas ← old.vnodes[v.toNat]?.map VNode.replicas
  let newReplicas ← new.vnodes[v.toNat]?.map VNode.replicas
  let owner := old.primaryOf v
  let candidates := if owner ≠ "" ∧ owner ≠ self then [owner] else []
  return addCandidates self (addCandidates self candidates oldReplicas) newReplicas

/-- Sources for a vnode added as replica: its new primary, then the other replicas. -/
def replicaCandidates (self : NodeID) (new : Placement) (v : UInt16) : Option (List NodeID) := do
  let replicas ← new.vnodes[v.toNat]?.map VNode.replicas
  let owner := new.primaryOf v
  let candidates := if owner ≠ "" ∧ owner ≠ self then [owner] else []
  return addCandidates self candidates replicas

/-- A migration goroutine: what is left of its lists, the sources left for the vnode
it is transferring, and whether the dropper runs for the first lost vnode. -/
structure Goroutine where
  old : Placement
  new : Placement
  gained : List UInt16
  addedReplicas : List UInt16
  lost : List UInt16
  candidates : Option (List NodeID)
  dropping : Bool
  deriving DecidableEq

/-- A node as placements see it. Between setting a placement and starting its
goroutine the old and new placement are kept in changing. -/
structure Node where
  id : NodeID
  placement : Option Placement
  changing : Option (Placement × Placement)
  goroutines : List Goroutine
  deriving DecidableEq

def init (id : NodeID) : Node := ⟨id,none,none,[]⟩

namespace Goroutine

/-- The goroutine starts on its next vnode; none is an index out of range. -/
def begin (g : Goroutine) (self : NodeID) : Option (Option Goroutine) :=
  match g.candidates, g.gained, g.addedReplicas with
  | none, v::_, _ => some ((gainedCandidates self g.old g.new v).map (fun cs => { g with candidates := some cs }))
  | none, [], v::_ => some ((replicaCandidates self g.new v).map (fun cs => { g with candidates := some cs }))
  | _, _, _ => none

/-- Done with the vnode in hand, transferred or not. -/
def next (g : Goroutine) : Goroutine :=
  match g.gained with
  | _::vs => { g with gained := vs, candidates := none }
  | [] => { g with addedReplicas := g.addedReplicas.tail, candidates := none }

/-- A transfer from the first source left returns. -/
def transferred (g : Goroutine) (ok : Bool) : Option Goroutine :=
  match g.candidates with
  | some (_::cs) => if ok then some g.next else some { g with candidates := some cs }
  | _ => none

def giveUp (g : Goroutine) : Option Goroutine :=
  match g.candidates with
  | some [] => some g.next
  | _ => none

/-- After the grace period of the next lost vnode, its dropper is called. -/
def beginDrop (g : Goroutine) : Option Goroutine :=
  match g.candidates, g.gained, g.addedReplicas, g.dropping, g.lost with
  | none, [], [], false, _::_ => some { g with dropping := true }
  | _, _, _, _, _ => none

def endDrop (g : Goroutine) : Option Goroutine :=
  if g.dropping then some { g with dropping := false, lost := g.lost.tail } else none

end Goroutine

inductive Event where
  | deliver (p : Placement)
  | launch (order : List UInt16)
  | begin (g : Nat)
  | transferred (g : Nat) (ok : Bool)
  | giveUp (g : Nat)
  | beginDrop (g : Nat)
  | endDrop (g : Nat)
  | restart
  deriving DecidableEq

def Event.delivered : Event → Option Placement
  | .deliver p => some p
  | _ => none

namespace Node

def update (s : Node) (i : Nat) (f : Goroutine → Option Goroutine) : Option Node := do
  let g ← s.goroutines[i]?
  let g ← f g
  return { s with goroutines := s.goroutines.set i g }

/-- A panic takes the process down, and so does a restart. -/
def step (s : Node) : Event → Option Node
  | .deliver p => match s.changing with
    | none => some { s with placement := some p, changing := s.placement.map (fun old => (old,p)) }
    | some _ => none
  | .launch order => do
    let (old,new) ← s.changing
    if order.Nodup ∧ order.toFinset = new.primaries.keys then
      match plan s.id old new order with
      | none => some (init s.id)
      | some p => some { s with
          changing := none
          goroutines := s.goroutines ++ [⟨old,new,p.gained,p.addedReplicas,p.lost,none,false⟩] }
    else none
  | .begin i => do
    let g ← s.goroutines[i]?
    match ← g.begin s.id with
    | none => some (init s.id)
    | some g => some { s with goroutines := s.goroutines.set i g }
  | .transferred i ok => s.update i (fun g => g.transferred ok)
  | .giveUp i => s.update i Goroutine.giveUp
  | .beginDrop i => s.update i Goroutine.beginDrop
  | .endDrop i => s.update i Goroutine.endDrop
  | .restart => some (init s.id)

/-- The dropper is being executed for the vnode. -/
def Dropping (s : Node) (v : UInt16) : Prop := ∃ g ∈ s.goroutines, g.dropping = true ∧ g.lost.head? = some v

/-- A placement that makes the node primary of a vnode is delivered only when no
earlier migration has still to drop this vnode, or is dropping it. -/
def Settled (s : Node) (e : Event) : Prop :=
  ∀ p ∈ e.delivered, ∀ g ∈ s.goroutines, ∀ v ∈ g.lost, ¬ p.Names s.id v

instance (s : Node) (e : Event) : Decidable (Settled s e) :=
  inferInstanceAs (Decidable (∀ p ∈ e.delivered, ∀ g ∈ s.goroutines, ∀ v ∈ g.lost, ¬ p.Names s.id v))

/-- Nothing that a goroutine has still to drop is the node's own. -/
structure Inv (id : NodeID) (s : Node) : Prop where
  id_eq : s.id = id
  lost : ∀ g ∈ s.goroutines, ∀ v ∈ g.lost, ∀ p, s.placement = some p → ¬ p.Names id v
  changing : ∀ old new, s.changing = some (old,new) → s.placement = some new

theorem init_inv (id : NodeID) : Inv id (init id) where
  id_eq := rfl
  lost g hg := by simp [init] at hg
  changing old new h := by simp [init] at h

/-- A goroutine never takes on more vnodes to drop. -/
private theorem Inv.set {id : NodeID} {s : Node} (h : Inv id s) {i : Nat} {g g' : Goroutine}
    (hg : s.goroutines[i]? = some g) (hsub : g'.lost ⊆ g.lost) : Inv id { s with goroutines := s.goroutines.set i g' } where
  id_eq := h.id_eq
  lost := Machine.forall_mem_set h.lost (fun v hv => h.lost g (List.mem_of_getElem? hg) v (hsub hv))
  changing := h.changing

private theorem Inv.update {id : NodeID} {s s' : Node} (h : Inv id s) {i : Nat} {f : Goroutine → Option Goroutine}
    (hf : ∀ g g', f g = some g' → g'.lost ⊆ g.lost) (hs : s.update i f = some s') : Inv id s' := by
  simp only [Node.update, Option.bind_eq_bind, Option.bind_eq_some_iff, Option.pure_def, Option.some.injEq] at hs
  obtain ⟨g,hg,g',hg',rfl⟩ := hs
  exact h.set hg (hf g g' hg')

private theorem lost_next (g : Goroutine) : g.next.lost = g.lost := by
  unfold Goroutine.next
  split <;> rfl

private theorem lost_begin {g g' : Goroutine} {self : NodeID} (h : g.begin self = some (some g')) : g'.lost = g.lost := by
  unfold Goroutine.begin at h
  split at h
  · simp only [Option.some.injEq, Option.map_eq_some_iff] at h
    obtain ⟨_,_,rfl⟩ := h
    rfl
  · simp only [Option.some.injEq, Option.map_eq_some_iff] at h
    obtain ⟨_,_,rfl⟩ := h
    rfl
  · cases h

private theorem lost_transferred {g g' : Goroutine} {ok : Bool} (h : g.transferred ok = some g') : g'.lost = g.lost := by
  unfold Goroutine.transferred at h
  split at h
  · split at h <;> cases h
    · exact lost_next g
    · rfl
  · cases h

private theorem lost_giveUp {g g' : Goroutine} (h : g.giveUp = some g') : g'.lost = g.lost := by
  unfold Goroutine.giveUp at h
  split at h
  · cases h
    exact lost_next g
  · cases h

private theorem lost_beginDrop {g g' : Goroutine} (h : g.beginDrop = some g') : g'.lost = g.lost := by
  unfold Goroutine.beginDrop at h
  split at h <;> cases h
  rfl

private theorem lost_endDrop {g g' : Goroutine} (h : g.endDrop = some g') : g'.lost = g.lost.tail := by
  unfold Goroutine.endDrop at h
  split at h <;> cases h
  rfl

/-- What a new migration has to drop is not the node's in the placement it comes from. -/
private theorem plan_lost {self : NodeID} {old new : Placement} {order : List UInt16} {p : Plan}
    (h : plan self old new order = some p) {v : UInt16} (hv : v ∈ p.lost) : ¬ new.Names self v := by
  have hl : p.lost = order.filter (fun v => classify self old new v = some .lost) := plan_list h (c := .lost) (by simp)
  rw [hl, List.mem_filter, decide_eq_true_eq] at hv
  intro hn
  refine (classify_lost hv.2).2 ?_
  unfold Placement.Names at hn
  simp [Placement.primaryOf, hn]

theorem step_inv {id : NodeID} {s s' : Node} {e : Event} (h : Inv id s) (hg : Settled s e) (hs : s.step e = some s') :
    Inv id s' := by
  obtain rfl := h.id_eq
  cases e with
  | deliver p =>
    simp only [step] at hs
    split at hs
    · cases hs
      refine ⟨rfl,?_,?_⟩
      · intro g hmem v hv q hq
        cases hq
        exact hg p rfl g hmem v hv
      · intro old new hc
        simp only [Option.map_eq_some_iff, Prod.mk.injEq] at hc
        obtain ⟨_,_,_,rfl⟩ := hc
        rfl
    · cases hs
  | launch order =>
    simp only [step, Option.bind_eq_bind, Option.bind_eq_some_iff, Prod.exists] at hs
    obtain ⟨old,new,hc,hs⟩ := hs
    split at hs
    · split at hs
      · cases hs
        exact init_inv s.id
      · rename_i p hp
        cases hs
        refine ⟨rfl,Machine.forall_mem_concat h.lost (fun v hv q hq => ?_),by simp⟩
        obtain rfl : new = q := Option.some.inj ((h.changing old new hc).symm.trans hq)
        exact plan_lost hp hv
    · cases hs
  | begin i =>
    simp only [step, Option.bind_eq_bind, Option.bind_eq_some_iff] at hs
    obtain ⟨g,hi,r,hr,hs⟩ := hs
    cases r with
    | none =>
      cases hs
      exact init_inv s.id
    | some g' =>
      cases hs
      exact h.set hi (by rw [lost_begin hr]; exact List.Subset.refl _)
  | transferred i ok => exact h.update (fun _ _ hf => by rw [lost_transferred hf]; exact List.Subset.refl _) hs
  | giveUp i => exact h.update (fun _ _ hf => by rw [lost_giveUp hf]; exact List.Subset.refl _) hs
  | beginDrop i => exact h.update (fun _ _ hf => by rw [lost_beginDrop hf]; exact List.Subset.refl _) hs
  | endDrop i => exact h.update (fun _ _ hf => by rw [lost_endDrop hf]; exact List.tail_subset _) hs
  | restart =>
    cases hs
    exact init_inv s.id

/-- A node drops no vnode it owns: when it regains a vnode only after every earlier
migration is done dropping it, the dropper runs only for vnodes that the installed
placement gives to other nodes, across restarts and overlapping migrations. -/
theorem drops_only_foreign (id : NodeID) (es : List Event) (s : Node)
    (hg : Machine.Meets step Settled (init id) es) (hr : Machine.run step (init id) es = some s) (v : UInt16)
    (hd : s.Dropping v) (p : Placement) (hp : s.placement = some p) : ¬ p.Names id v := by
  have h : Inv id s := Machine.run_invariant_of_meets (fun _ _ _ hi hg hs => step_inv hi hg hs) (init_inv id) hg hr
  obtain ⟨g,hmem,_,hv⟩ := hd
  exact h.lost g hmem v (List.mem_of_head? hv) p hp

private theorem sample_order (epoch : UInt64) (primary : NodeID) :
    ringIDs.Nodup ∧ ringIDs.toFinset = (heldBy epoch primary []).primaries.keys :=
  ⟨ringIDs_nodup,(heldBy_ring epoch).keys.symm⟩

/-- Every vnode moves from one node to the other. -/
theorem sample_classify {v : UInt16} (hv : v ∈ ringIDs) (e e' : UInt64) :
    classify "node-1" (heldBy e "node-1" []) (heldBy e' "node-2" []) v = some .lost ∧
      classify "node-1" (heldBy e "node-2" []) (heldBy e' "node-1" []) v = some .gained := by
  simp [classify, heldBy_primaryOf _ hv]

private theorem launch_some {s : Node} {old new : Placement} {order : List UInt16} {p : Plan}
    (hc : s.changing = some (old,new)) (ho : order.Nodup ∧ order.toFinset = new.primaries.keys)
    (hp : plan s.id old new order = some p) :
    s.step (.launch order) = some { s with
      changing := none, goroutines := s.goroutines ++ [⟨old,new,p.gained,p.addedReplicas,p.lost,none,false⟩] } := by
  simp only [step, hc, Option.bind_eq_bind, Option.bind_some]
  rw [if_pos ho, hp]

/-- All vnodes have moved away, and the goroutine has only to drop them. -/
def movedAway : Node where
  id := "node-1"
  placement := some (heldBy 2 "node-2" [])
  changing := none
  goroutines := [⟨heldBy 1 "node-1" [],heldBy 2 "node-2" [],[],[],ringIDs,none,false⟩]

private theorem launch_movedAway :
    step { movedAway with changing := some (heldBy 1 "node-1" [],heldBy 2 "node-2" []), goroutines := [] }
      (.launch ringIDs) = some movedAway := by
  obtain ⟨p,hp,hlist⟩ := plan_all (fun v hv => (sample_classify hv 1 2).1)
  have hlost : p.lost = ringIDs := hlist .lost (by decide)
  have hgained : p.gained = [] := hlist .gained (by decide)
  have hadded : p.addedReplicas = [] := hlist .addedReplica (by decide)
  have hlaunch := launch_some (s := { movedAway with
    changing := some (heldBy 1 "node-1" [],heldBy 2 "node-2" []), goroutines := [] })
    rfl (sample_order 2 "node-2") hp
  rw [hlaunch, hlost, hgained, hadded]
  rfl

private theorem beginDrop_some {s : Node} {gs : List Goroutine} {old new : Placement} {vs : List UInt16} {v : UInt16}
    (hg : s.goroutines = ⟨old,new,[],[],vs,none,false⟩::gs) (hv : vs.head? = some v) :
    ∃ s', s.step (.beginDrop 0) = some s' ∧ s'.placement = s.placement ∧ s'.Dropping v := by
  refine ⟨{ s with goroutines := ⟨old,new,[],[],vs,none,true⟩::gs },?_,rfl,_,List.mem_cons_self,rfl,hv⟩
  obtain ⟨vs,rfl⟩ := List.head?_eq_some_iff.mp hv
  simp [step, update, hg, Goroutine.beginDrop]

/-- The vnodes move away and the first is dropped. -/
def dropRun : List Event :=
  [.deliver (heldBy 1 "node-1" []),.deliver (heldBy 2 "node-2" []),.launch ringIDs,.beginDrop 0]

theorem drops_only_foreign_sample :
    ∃ s, Machine.run step (init "node-1") dropRun = some s ∧ s.Dropping 0 ∧
      s.placement = some (heldBy 2 "node-2" []) ∧ ¬ (heldBy 2 "node-2" []).Names "node-1" 0 := by
  obtain ⟨s,hs,hp,hd⟩ := beginDrop_some (s := movedAway) rfl ringIDs_head
  have hrun : Machine.run step (init "node-1") dropRun = some s :=
    Machine.run_cons.mpr ⟨_,rfl,Machine.run_cons.mpr ⟨_,rfl,Machine.run_cons.mpr
      ⟨_,launch_movedAway,Machine.run_cons.mpr ⟨_,hs,rfl⟩⟩⟩⟩
  have hmeets : Machine.Meets step Settled (init "node-1") dropRun :=
    (Machine.meets_cons rfl).mpr ⟨by simp [Settled, init],(Machine.meets_cons rfl).mpr ⟨by simp [Settled, init],
      (Machine.meets_cons launch_movedAway).mpr ⟨by simp [Settled, Event.delivered],(Machine.meets_cons hs).mpr
        ⟨by simp [Settled, Event.delivered],trivial⟩⟩⟩⟩
  exact ⟨s,hrun,hd,hp,drops_only_foreign "node-1" dropRun s hmeets hrun 0 hd _ hp⟩

/-- The vnodes move away and come back before the grace period is over. -/
def regainRun : List Event :=
  [.deliver (heldBy 1 "node-1" []),.deliver (heldBy 2 "node-2" []),.launch ringIDs,
   .deliver (heldBy 3 "node-1" []),.launch ringIDs,.beginDrop 0]

theorem drops_regained_vnode :
    ∃ s, Machine.run step (init "node-1") regainRun = some s ∧ s.Dropping 0 ∧
      s.placement = some (heldBy 3 "node-1" []) ∧ (heldBy 3 "node-1" []).vnodes.length = vnodeCount ∧
      (heldBy 3 "node-1" []).Names "node-1" 0 := by
  obtain ⟨p,hp,_⟩ := plan_all (fun v hv => (sample_classify hv 2 3).2)
  have hlaunch := launch_some (s := { movedAway with
    placement := some (heldBy 3 "node-1" [])
    changing := some (heldBy 2 "node-2" [],heldBy 3 "node-1" []) }) rfl (sample_order 3 "node-1") hp
  obtain ⟨s,hs,hplacement,hd⟩ := beginDrop_some (s := { movedAway with
    placement := some (heldBy 3 "node-1" [])
    goroutines := movedAway.goroutines ++
      [⟨heldBy 2 "node-2" [],heldBy 3 "node-1" [],p.gained,p.addedReplicas,p.lost,none,false⟩] })
    rfl ringIDs_head
  refine ⟨s,?_,hd,hplacement,(heldBy_ring 3).length_eq,?_⟩
  · exact Machine.run_cons.mpr ⟨_,rfl,Machine.run_cons.mpr ⟨_,rfl,Machine.run_cons.mpr ⟨_,launch_movedAway,
      Machine.run_cons.mpr ⟨_,rfl,Machine.run_cons.mpr ⟨_,hlaunch,Machine.run_cons.mpr ⟨_,hs,rfl⟩⟩⟩⟩⟩⟩
  · exact heldBy_lookup 3 (List.mem_of_head? ringIDs_head)

end Node
end Nawst.Cluster.Migration
