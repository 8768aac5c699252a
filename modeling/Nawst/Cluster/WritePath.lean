import Nawst.Cluster.Quorum
import Nawst.Cluster.ReplicationLink

/-! A client's write from end to end. The node that owns the key applies it, hands it to
the replication workers of the replicas and waits for a quorum; every replica has a loop
and a log of its own. Whatever else the nodes serve happens between the steps. -/
namespace Nawst.Cluster.WritePath
open Lib Nawst.Core ReplicationLink

def errRequestCancelled : Err := "rpc error: code = DeadlineExceeded desc = request cancelled"

/-- How a node was started. -/
structure Setup where
  batchSize : Int
  mode : Wal.AckMode
  bufferSize : Nat
  old : List Command

/-- The node that is asked, and the put or delete that it is asked for. -/
structure Setting where
  self : NodeID
  hashKey : Key → UInt64
  replicationFactor : Int
  setup : NodeID → Setup
  op : OpType
  key : Key
  value : Value

/-- The replication of the write: the quorum call, the numbers of the tasks that the workers
have accepted, and what has become of the targets so far. -/
structure Replication where
  config : Quorum.Config
  call : Quorum.Call
  tasks : List (NodeID × Nat)
  fates : List (NodeID × Quorum.Outcome)

/-- How far the write has come. The request is made together with its call at the node. -/
structure Write where
  owner : Bool
  request : Option (Request × Nat)
  replication : Option Replication
  answer : Option (Option Err)

structure System where
  node : Calls.Node
  links : NodeID → Link
  write : Write

namespace Setting

def node (cfg : Setting) : Calls.Node :=
  .init (cfg.setup cfg.self).batchSize (cfg.setup cfg.self).mode (cfg.setup cfg.self).bufferSize (cfg.setup cfg.self).old

def link (cfg : Setting) (t : NodeID) : Link :=
  .init t (cfg.setup t).batchSize (cfg.setup t).mode (cfg.setup t).bufferSize (cfg.setup t).old

def init (cfg : Setting) : System := ⟨cfg.node,cfg.link,⟨false,none,none,none⟩⟩

def request (cfg : Setting) (pl : Option Placement) (version : UInt64) (chan : Nat) : Request :=
  ⟨cfg.op,cfg.key,cfg.value,getVNodeForKey cfg.hashKey pl cfg.key,version,chan⟩

/-- What the replicas are sent. -/
def message (cfg : Setting) (req : Request) : ReplicationRequest :=
  ⟨if cfg.op = opPut then .put else .delete,cfg.key,cfg.value,req.vnodeID.toUInt32,req.version⟩

/-- The quorum call asks its workers for what becomes of the targets. -/
def config (cfg : Setting) (members : Option Nat) (placement refreshed : Option Placement) (isLeader : Bool) :
    Quorum.Config :=
  ⟨cfg.self,members,cfg.replicationFactor,placement,refreshed,isLeader,cfg.hashKey,cfg.key,fun _ => .failed ""⟩

def ownershipError (owner : NodeID) : Err := "node is not responsible for key (owner=" ++ owner ++ ")"

def localError (cfg : Setting) (e : Err) : Err :=
  (if cfg.op = opPut then "Failed to PUT key: " else "Failed to DELETE key: ") ++ e

def replicationError (cfg : Setting) (e : Err) : Err :=
  (if cfg.op = opPut then "Failed to replicate PUT: " else "Failed to REPLICATE DELETE: ") ++ e

end Setting

/-- What the error of a task makes of its target. -/
def fate : Option Err → Quorum.Outcome
  | none => .ok
  | some e => .failed e

namespace Replication

/-- The outcomes that agree with what is known so far. -/
structure Compatible (rep : Replication) (outcome : NodeID → Quorum.Outcome) : Prop where
  decided : ∀ t x, (t,x) ∈ rep.fates → outcome t = x
  accepted : ∀ t d, (t,d) ∈ rep.tasks → ∀ e, outcome t ≠ .refused e

/-- The outcomes as they are known so far. -/
def outcome (rep : Replication) (t : NodeID) : Quorum.Outcome := (rep.fates.lookup t).getD (.failed "")

/-- A step of the quorum call when the target in question has the given outcome. -/
def step (rep : Replication) (outcome : Quorum.Outcome) (e : Quorum.Call.Event) : Option Quorum.Call :=
  rep.call.step { rep.config with outcome := fun _ => outcome } e

end Replication

namespace System

def setReplication (s : System) (rep : Replication) : System :=
  { s with write := { s.write with replication := some rep } }

def setAnswer (s : System) (err : Option Err) : System := { s with write := { s.write with answer := some err } }

def setLink (s : System) (t : NodeID) (l : Link) : System := { s with links := Function.update s.links t l }

@[simp] theorem setReplication_links (s : System) (rep : Replication) : (s.setReplication rep).links = s.links := rfl

@[simp] theorem setLink_self (s : System) (t : NodeID) (l : Link) : (s.setLink t l).links t = l := Function.update_self ..

theorem setLink_of_ne (s : System) {t u : NodeID} (h : u ≠ t) (l : Link) : (s.setLink t l).links u = s.links u :=
  Function.update_of_ne h ..

inductive Event where
  | check (pl : Option Placement)
  | prepare (pl : Option Placement) (counter now : UInt64)
  | localFails
  | replicate (members : Option Nat) (placement refreshed : Option Placement) (isLeader : Bool)
  | submit (refused : Option Err)
  | done (i : Nat) (err : Option Err)
  | quorum (e : Quorum.Call.Event)
  | answer
  | node (e : Calls.Node.Event)
  | link (t : NodeID) (e : Link.Event)

def ownStep : Quorum.Call.Event → Bool
  | .submit | .done _ => false
  | _ => true

def step (cfg : Setting) (s : System) : Event → Option System
  | .check pl =>
    if s.write.owner = false ∧ s.write.answer = none then
      let (owner,_,name) := checkOwnership cfg.hashKey cfg.self pl cfg.key
      if owner then some { s with write := { s.write with owner := true } }
      else some (s.setAnswer (some (Setting.ownershipError name)))
    else none
  | .prepare pl counter now =>
    if s.write.owner = true ∧ s.write.request.isNone then do
      let req := cfg.request pl (nextVersion counter now) s.node.nextChan
      let n ← s.node.step (.call [req] errRequestCancelled)
      some { s with node := n, write := { s.write with request := some (req,s.node.calls.length) } }
    else none
  | .localFails => do
    let (_,c) ← s.write.request
    let call ← s.node.calls[c]?
    match call.phase with
    | .returned (some e) =>
      if s.write.replication.isNone ∧ s.write.answer = none then some (s.setAnswer (some (cfg.localError e))) else none
    | _ => none
  | .replicate members placement refreshed isLeader => do
    let (_,c) ← s.write.request
    let call ← s.node.calls[c]?
    if call.phase = .returned none ∧ s.write.replication.isNone then
      let config := cfg.config members placement refreshed isLeader
      some (s.setReplication ⟨config,Quorum.replicateToAll config,[],[]⟩)
    else none
  | .submit (some e) => do
    let rep ← s.write.replication
    let t ← rep.call.unsubmitted.head?
    let call ← rep.step (.refused e) .submit
    some (s.setReplication { rep with call := call, fates := rep.fates ++ [(t,.refused e)] })
  | .submit none => do
    let (req,_) ← s.write.request
    let rep ← s.write.replication
    let t ← rep.call.unsubmitted.head?
    let l ← (s.links t).step (.worker (.submit (cfg.message req)))
    let call ← rep.step .ok .submit
    some ((s.setLink t l).setReplication
      { rep with call := call, tasks := rep.tasks ++ [(t,(s.links t).worker.nextDone)] })
  | .done i err => do
    let rep ← s.write.replication
    let t ← rep.call.waiting[i]?
    let d ← rep.tasks.lookup t
    if (d,err) ∈ (s.links t).worker.completed then do
      let call ← rep.step (fate err) (.done i)
      some (s.setReplication { rep with call := call, fates := rep.fates ++ [(t,fate err)] })
    else none
  | .quorum e => do
    let rep ← s.write.replication
    if ownStep e then do
      let call ← rep.call.step rep.config e
      some (s.setReplication { rep with call := call })
    else none
  | .answer => do
    let rep ← s.write.replication
    let err ← rep.call.verdict
    if s.write.answer = none then some (s.setAnswer (err.map cfg.replicationError)) else none
  | .node e => (s.node.step e).map (fun n => { s with node := n })
  | .link t e => ((s.links t).step e).map (s.setLink t)

/-- Everything a step can do. -/
inductive Fires (cfg : Setting) (s : System) : Event → System → Prop where
  | owned {pl : Option Placement} : Fires cfg s (.check pl) { s with write := { s.write with owner := true } }
  | disowned {pl : Option Placement} (e : Err) : Fires cfg s (.check pl) (s.setAnswer (some e))
  | prepare {pl : Option Placement} {counter now : UInt64} {n : Calls.Node} (hr : s.write.request = none)
      (hn : s.node.step (.call [cfg.request pl (nextVersion counter now) s.node.nextChan] errRequestCancelled) = some n) :
      Fires cfg s (.prepare pl counter now) { s with
        node := n
        write := { s.write with
          request := some (cfg.request pl (nextVersion counter now) s.node.nextChan,s.node.calls.length) } }
  | localFails (e : Err) : Fires cfg s .localFails (s.setAnswer (some e))
  | replicate {members : Option Nat} {placement refreshed : Option Placement} {isLeader : Bool} {req : Request} {c : Nat}
      {call : Calls.Call} (hreq : s.write.request = some (req,c)) (hc : s.node.calls[c]? = some call)
      (hp : call.phase = .returned none) (hrep : s.write.replication = none) :
      Fires cfg s (.replicate members placement refreshed isLeader) (s.setReplication
        ⟨cfg.config members placement refreshed isLeader,
          Quorum.replicateToAll (cfg.config members placement refreshed isLeader),[],[]⟩)
  | refused {e : Err} {rep : Replication} {t : NodeID} {call : Quorum.Call} (hrep : s.write.replication = some rep)
      (ht : rep.call.unsubmitted.head? = some t) (hc : rep.step (.refused e) .submit = some call) :
      Fires cfg s (.submit (some e))
        (s.setReplication { rep with call := call, fates := rep.fates ++ [(t,.refused e)] })
  | accepted {req : Request} {c : Nat} {rep : Replication} {t : NodeID} {l : Link} {call : Quorum.Call}
      (hreq : s.write.request = some (req,c)) (hrep : s.write.replication = some rep)
      (ht : rep.call.unsubmitted.head? = some t) (hl : (s.links t).step (.worker (.submit (cfg.message req))) = some l)
      (hc : rep.step .ok .submit = some call) :
      Fires cfg s (.submit none) ((s.setLink t l).setReplication
        { rep with call := call, tasks := rep.tasks ++ [(t,(s.links t).worker.nextDone)] })
  | done {i d : Nat} {err : Option Err} {rep : Replication} {t : NodeID} {call : Quorum.Call}
      (hrep : s.write.replication = some rep) (hi : rep.call.waiting[i]? = some t) (hd : rep.tasks.lookup t = some d)
      (hdone : (d,err) ∈ (s.links t).worker.completed) (hc : rep.step (fate err) (.done i) = some call) :
      Fires cfg s (.done i err) (s.setReplication { rep with call := call, fates := rep.fates ++ [(t,fate err)] })
  | quorum {e : Quorum.Call.Event} {rep : Replication} {call : Quorum.Call} (hrep : s.write.replication = some rep)
      (he : ownStep e = true) (hc : rep.call.step rep.config e = some call) :
      Fires cfg s (.quorum e) (s.setReplication { rep with call := call })
  | answer {rep : Replication} {err : Option Err} (hrep : s.write.replication = some rep) (hv : rep.call.verdict = some err) :
      Fires cfg s .answer (s.setAnswer (err.map cfg.replicationError))
  | node {e : Calls.Node.Event} {n : Calls.Node} (hn : s.node.step e = some n) : Fires cfg s (.node e) { s with node := n }
  | link {t : NodeID} {e : Link.Event} {l : Link} (hl : (s.links t).step e = some l) : Fires cfg s (.link t e) (s.setLink t l)

theorem step_fires {cfg : Setting} {s s' : System} {e : Event} (hs : s.step cfg e = some s') : Fires cfg s e s' := by
  cases e with
  | check pl =>
    simp only [step, Option.ite_none_right_eq_some] at hs
    obtain ⟨-,hs⟩ := hs
    split at hs
    · cases hs
      exact .owned
    · cases hs
      exact .disowned _
  | prepare pl counter now =>
    simp only [step, Option.ite_none_right_eq_some, Option.bind_eq_bind, Option.bind_eq_some_iff, Option.some.injEq,
      Option.isNone_iff_eq_none] at hs
    obtain ⟨⟨-,hr⟩,n,hn,rfl⟩ := hs
    exact .prepare hr hn
  | localFails =>
    simp only [step, Option.bind_eq_bind, Option.bind_eq_some_iff] at hs
    obtain ⟨_,_,call,_,hs⟩ := hs
    split at hs
    · simp only [Option.ite_none_right_eq_some, Option.some.injEq] at hs
      obtain ⟨-,rfl⟩ := hs
      exact .localFails _
    · cases hs
  | replicate members placement refreshed isLeader =>
    simp only [step, Option.bind_eq_bind, Option.bind_eq_some_iff, Option.ite_none_right_eq_some, Option.some.injEq,
      Option.isNone_iff_eq_none] at hs
    obtain ⟨⟨req,c⟩,hreq,call,hc,⟨hp,hrep⟩,rfl⟩ := hs
    exact .replicate hreq hc hp hrep
  | submit refused =>
    cases refused with
    | some e =>
      simp only [step, Option.bind_eq_bind, Option.bind_eq_some_iff, Option.some.injEq] at hs
      obtain ⟨rep,hrep,t,ht,call,hc,rfl⟩ := hs
      exact .refused hrep ht hc
    | none =>
      simp only [step, Option.bind_eq_bind, Option.bind_eq_some_iff, Option.some.injEq] at hs
      obtain ⟨⟨req,c⟩,hreq,rep,hrep,t,ht,l,hl,call,hc,rfl⟩ := hs
      exact .accepted hreq hrep ht hl hc
  | done i err =>
    simp only [step, Option.bind_eq_bind, Option.bind_eq_some_iff, Option.ite_none_right_eq_some, Option.some.injEq] at hs
    obtain ⟨rep,hrep,t,hi,d,hd,hdone,call,hc,rfl⟩ := hs
    exact .done hrep hi hd hdone hc
  | quorum e =>
    simp only [step, Option.bind_eq_bind, Option.bind_eq_some_iff, Option.ite_none_right_eq_some, Option.some.injEq] at hs
    obtain ⟨rep,hrep,he,call,hc,rfl⟩ := hs
    exact .quorum hrep he hc
  | answer =>
    simp only [step, Option.bind_eq_bind, Option.bind_eq_some_iff, Option.ite_none_right_eq_some, Option.some.injEq] at hs
    obtain ⟨rep,hrep,err,hv,-,rfl⟩ := hs
    exact .answer hrep hv
  | node e =>
    simp only [step, Option.map_eq_some_iff] at hs
    obtain ⟨n,hn,rfl⟩ := hs
    exact .node hn
  | link t e =>
    simp only [step, Option.map_eq_some_iff] at hs
    obtain ⟨l,hl,rfl⟩ := hs
    exact .link hl

section Quorum
open Quorum
variable {cfg : Config} {c c' : Call} {t : NodeID} {outcome : NodeID → Outcome} {x : Outcome}

/-- A submission asks whether the task is refused, and nothing else. -/
theorem submit_outcome (ht : c.unsubmitted.head? = some t)
    (h : outcome t = x ∨ (∀ e, outcome t ≠ .refused e) ∧ ∀ e, x ≠ .refused e) :
    c.step { cfg with outcome := outcome } .submit = c.step { cfg with outcome := fun _ => x } .submit := by
  obtain ⟨ts,hts⟩ := List.head?_eq_some_iff.mp ht
  cases hv : c.verdict with
  | some v => simp [Call.step, hv]
  | none =>
    simp only [Call.step, hv, hts]
    rcases h with rfl | ⟨ho,hx⟩
    · rfl
    · cases hot : outcome t <;> cases x <;> simp_all

/-- A result is that of its target. -/
theorem done_outcome {i : Nat} (hi : c.waiting[i]? = some t) (h : outcome t = x) :
    c.step { cfg with outcome := outcome } (.done i) = c.step { cfg with outcome := fun _ => x } (.done i) := by
  simp [Call.step, hi, h]

theorem ownStep_outcome {e : Call.Event} (he : ownStep e = true) :
    c.step { cfg with outcome := outcome } e = c.step cfg e := by
  cases e <;> first | rfl | cases he

theorem refused_parts {e : Err} (ht : c.unsubmitted.head? = some t)
    (hs : c.step { cfg with outcome := fun _ => .refused e } .submit = some c') :
    c.unsubmitted = t::c'.unsubmitted ∧ c'.waiting = c.waiting := by
  obtain ⟨ts,hts⟩ := List.head?_eq_some_iff.mp ht
  cases hv : c.verdict with
  | some v => simp [Call.step, hv] at hs
  | none =>
    simp only [Call.step, hv, hts] at hs
    cases hs
    exact ⟨hts,rfl⟩

theorem accepted_parts (ht : c.unsubmitted.head? = some t)
    (hs : c.step { cfg with outcome := fun _ => .ok } .submit = some c') :
    c.unsubmitted = t::c'.unsubmitted ∧ c'.waiting = c.waiting ++ [t] := by
  obtain ⟨ts,hts⟩ := List.head?_eq_some_iff.mp ht
  cases hv : c.verdict with
  | some v => simp [Call.step, hv] at hs
  | none =>
    simp only [Call.step, hv, hts] at hs
    cases hs
    exact ⟨hts,rfl⟩

theorem done_parts {i : Nat} (hs : c.step cfg (.done i) = some c') :
    c'.unsubmitted = c.unsubmitted ∧ c'.waiting = c.waiting.eraseIdx i := by
  simp only [Call.step, Option.map_eq_some_iff] at hs
  obtain ⟨t,_,rfl⟩ := hs
  exact ⟨rfl,rfl⟩

theorem take_parts (c : Call) (t : NodeID) (err : Option Err) :
    (c.take t err).unsubmitted = c.unsubmitted ∧ (c.take t err).waiting = c.waiting := by
  cases err with
  | none =>
    simp only [Call.take, Call.giveUp]
    split
    · exact ⟨rfl,rfl⟩
    · split <;> exact ⟨rfl,rfl⟩
  | some e =>
    simp only [Call.take, Call.giveUp]
    split <;> exact ⟨rfl,rfl⟩

theorem ownStep_parts {e : Call.Event} (he : ownStep e = true) (hs : c.step cfg e = some c') :
    c'.unsubmitted = c.unsubmitted ∧ c'.waiting.Sublist c.waiting := by
  cases e with
  | submit | done => cases he
  | abort i =>
    simp only [Call.step] at hs
    split at hs <;> cases hs
    · exact ⟨rfl,List.eraseIdx_sublist _ _⟩
    · exact ⟨rfl,List.eraseIdx_sublist _ _⟩
  | take =>
    simp only [Call.step] at hs
    split at hs <;> cases hs
    rename_i rs _ _ _ _
    obtain ⟨hu,hw⟩ := take_parts { c with resultCh := rs } _ _
    refine ⟨hu,?_⟩
    rw [hw]
  | finish | cancel | ctxDone =>
    simp only [Call.step] at hs
    split at hs <;> cases hs
    exact ⟨rfl,List.Sublist.refl _⟩

/-- A verdict stands. -/
theorem step_verdict {e : Call.Event} {v : Option Err} (hv : c.verdict = some v) (hs : c.step cfg e = some c') :
    c'.verdict = some v := by
  cases e with
  | done i =>
    simp only [Call.step, Option.map_eq_some_iff] at hs
    obtain ⟨t,_,rfl⟩ := hs
    exact hv
  | abort i =>
    simp only [Call.step] at hs
    split at hs <;> cases hs <;> exact hv
  | submit | take | finish | cancel | ctxDone => simp [Call.step, hv] at hs

/-- A call that has returned without error has counted a quorum of targets that succeeded. -/
theorem counted_of_verdict {es : List Call.Event} (hr : Machine.run (Call.step cfg) (replicateToAll cfg) es = some c)
    (hv : c.verdict = some none) : ∃ m, cfg.members = some m ∧ c.counted.Nodup ∧ c.counted ⊆ cfg.succeeding ∧
      cfg.required m ≤ 1+c.counted.length := by
  cases hm : cfg.members with
  | none =>
    rw [show replicateToAll cfg = .returned (some "memberlist is nil") by simp [replicateToAll, hm]] at hr
    obtain ⟨-,rfl⟩ := Call.run_returned hr
    cases hv
  | some m =>
    refine ⟨m,rfl,?_⟩
    rcases Call.replicateToAll_cases hm with ⟨he,hq⟩ | ⟨e,he,_⟩ | ⟨he,h1q,hq⟩
    · rw [he] at hr
      obtain ⟨-,rfl⟩ := Call.run_returned hr
      have hone : cfg.required m ≤ 1 := by
        rcases hq with rfl | hq
        · simp [Config.required, Config.effectiveRF]
        · exact hq
      simpa [Call.counted, Call.returned] using hone
    · rw [he] at hr
      obtain ⟨-,rfl⟩ := Call.run_returned hr
      cases hv
    · rw [he] at hr
      have hi := Call.run_inv h1q hq hr
      have hreach := hi.reached hv
      rw [hi.required_eq, hi.acks_eq] at hreach
      exact ⟨(Call.counted_spec hi.toTally).1,(Call.counted_spec hi.toTally).2,hreach⟩

end Quorum

/-- The call did what it would have done if the outcomes had been fixed from the start. -/
structure Sound (rep : Replication) : Prop where
  refines : ∀ outcome, rep.Compatible outcome → ∃ es, Machine.run (Quorum.Call.step { rep.config with outcome := outcome })
    (Quorum.replicateToAll rep.config) es = some rep.call
  distinct : (rep.call.unsubmitted ++ rep.call.waiting ++ rep.fates.map Prod.fst).Nodup
  accepted : ∀ t d, (t,d) ∈ rep.tasks → t ∉ rep.call.unsubmitted ∧ ∀ e, (t,.refused e) ∉ rep.fates

section Sound
variable {rep : Replication} {call : Quorum.Call} {t : NodeID}

private theorem lookup_fates {fates : List (NodeID × Quorum.Outcome)} (h : (fates.map Prod.fst).Nodup) {x : Quorum.Outcome}
    (hx : (t,x) ∈ fates) : fates.lookup t = some x := by
  induction fates with
  | nil => cases hx
  | cons p fates ih =>
    obtain ⟨u,y⟩ := p
    simp only [List.map_cons, List.nodup_cons] at h
    rcases List.mem_cons.mp hx with heq | hx
    · cases heq
      simp
    · have hne : t ≠ u := fun heq => h.1 (heq ▸ List.mem_map_of_mem hx)
      rw [List.lookup_cons, beq_false_of_ne hne]
      exact ih h.2 hx

private theorem mem_of_lookup {α : Type} {l : List (NodeID × α)} {x : α} (h : l.lookup t = some x) : (t,x) ∈ l := by
  obtain ⟨front,back,rfl,-⟩ := List.lookup_eq_some_iff.mp h
  exact List.mem_append_right _ List.mem_cons_self

/-- What is known so far is one way to fix them. -/
theorem Sound.compatible (h : Sound rep) : rep.Compatible rep.outcome where
  decided t x hx := by
    rw [Replication.outcome, lookup_fates (List.nodup_append.mp h.distinct).2.1 hx, Option.getD_some]
  accepted t d hd e he := by
    rw [Replication.outcome] at he
    cases hl : rep.fates.lookup t with
    | none => simp [hl] at he
    | some x =>
      rw [hl, Option.getD_some] at he
      exact (h.accepted t d hd).2 e (he ▸ mem_of_lookup hl)

/-- One more step of the call. -/
private theorem Sound.snoc (h : Sound rep) {rep' : Replication} (hconfig : rep'.config = rep.config)
    (hfates : rep.fates ⊆ rep'.fates) (htasks : rep.tasks ⊆ rep'.tasks) {e : Quorum.Call.Event}
    (hstep : ∀ outcome, rep'.Compatible outcome →
      rep.call.step { rep.config with outcome := outcome } e = some rep'.call) (outcome : NodeID → Quorum.Outcome)
    (ho : rep'.Compatible outcome) : ∃ es, Machine.run (Quorum.Call.step { rep'.config with outcome := outcome })
      (Quorum.replicateToAll rep'.config) es = some rep'.call := by
  have hold : rep.Compatible outcome :=
    ⟨fun t x hx => ho.decided t x (hfates hx),fun t d hd => ho.accepted t d (htasks hd)⟩
  obtain ⟨es,hr⟩ := h.refines outcome hold
  rw [hconfig]
  exact ⟨es ++ [e],Machine.run_append.mpr ⟨_,hr,Machine.run_cons.mpr ⟨_,hstep outcome ho,rfl⟩⟩⟩

theorem sound_init {config : Quorum.Config} : Sound ⟨config,Quorum.replicateToAll config,[],[]⟩ where
  refines _ _ := ⟨[],rfl⟩
  distinct := by
    have htargets : config.targets.Nodup := by
      rw [config.targets_eq]
      exact (Quorum.distinctReplicas_spec _ _).1
    have hparts : (Quorum.replicateToAll config).waiting = [] ∧
        ((Quorum.replicateToAll config).unsubmitted = [] ∨ (Quorum.replicateToAll config).unsubmitted = config.targets) := by
      unfold Quorum.replicateToAll
      split
      · exact ⟨rfl,.inl rfl⟩
      · exact ⟨rfl,.inl rfl⟩
      · dsimp only
        split_ifs <;> first | exact ⟨rfl,.inl rfl⟩ | exact ⟨rfl,.inr rfl⟩
    rw [hparts.1]
    rcases hparts.2 with hu | hu <;> simp [hu, htargets]
  accepted := by simp

theorem Sound.refused (h : Sound rep) (ht : rep.call.unsubmitted.head? = some t) {e : Err}
    (hc : rep.step (.refused e) .submit = some call) :
    Sound { rep with call := call, fates := rep.fates ++ [(t,.refused e)] } := by
  obtain ⟨hu,hw⟩ := refused_parts ht hc
  have hdistinct := h.distinct
  refine ⟨h.snoc rfl (List.subset_append_left _ _) (List.Subset.refl _) (e := .submit) (fun outcome ho => ?_),?_,?_⟩
  · rw [submit_outcome ht (.inl (ho.decided t _ (List.mem_append_right _ List.mem_cons_self)))]
    exact hc
  · refine (List.Perm.nodup_iff (List.perm_iff_count.mpr (fun a => ?_))).mpr hdistinct
    simp only [hu, hw, List.map_append, List.map_cons, List.map_nil, List.count_append, List.count_cons,
      List.count_nil]
    omega
  · intro u d hd
    obtain ⟨hnot,hfates⟩ := h.accepted u d hd
    rw [hu, List.mem_cons, not_or] at hnot
    refine ⟨hnot.2,fun e' hmem => ?_⟩
    rcases List.mem_append.mp hmem with hmem | hmem
    · exact hfates e' hmem
    · cases List.mem_singleton.mp hmem
      exact hnot.1 rfl

theorem Sound.submitted (h : Sound rep) (ht : rep.call.unsubmitted.head? = some t)
    (hc : rep.step .ok .submit = some call) (n : Nat) :
    Sound { rep with call := call, tasks := rep.tasks ++ [(t,n)] } := by
  obtain ⟨hu,hw⟩ := accepted_parts ht hc
  have hdistinct := h.distinct
  refine ⟨h.snoc rfl (List.Subset.refl _) (List.subset_append_left _ _) (e := .submit) (fun outcome ho => ?_),?_,?_⟩
  · rw [submit_outcome (x := .ok) ht (.inr ⟨ho.accepted t n (List.mem_append_right _ List.mem_cons_self),by simp⟩)]
    exact hc
  · refine (List.Perm.nodup_iff (List.perm_iff_count.mpr (fun a => ?_))).mpr hdistinct
    simp only [hu, hw, List.count_append, List.count_cons, List.count_nil]
    omega
  · intro u d hd
    rcases List.mem_append.mp hd with hd | hd
    · obtain ⟨hnot,hfates⟩ := h.accepted u d hd
      rw [hu, List.mem_cons, not_or] at hnot
      exact ⟨hnot.2,hfates⟩
    · cases List.mem_singleton.mp hd
      rw [hu, List.append_assoc, List.cons_append, List.nodup_cons, List.mem_append, List.mem_append, not_or, not_or] at hdistinct
      exact ⟨hdistinct.1.1,fun e he => hdistinct.1.2.2 (List.mem_map_of_mem he)⟩

theorem Sound.done (h : Sound rep) {i : Nat} (hi : rep.call.waiting[i]? = some t) {err : Option Err}
    (hc : rep.step (fate err) (.done i) = some call) :
    Sound { rep with call := call, fates := rep.fates ++ [(t,fate err)] } := by
  obtain ⟨hu,hw⟩ := done_parts hc
  refine ⟨h.snoc rfl (List.subset_append_left _ _) (List.Subset.refl _) (e := .done i) (fun outcome ho => ?_),?_,?_⟩
  · rw [done_outcome hi (ho.decided t _ (List.mem_append_right _ List.mem_cons_self))]
    exact hc
  · obtain ⟨hlt,rfl⟩ := List.getElem?_eq_some_iff.mp hi
    refine (List.Perm.nodup_iff (List.perm_iff_count.mpr (fun a => ?_))).mpr h.distinct
    have hcount := (List.getElem_cons_eraseIdx_perm hlt).count_eq a
    simp only [hu, hw, List.map_append, List.map_cons, List.map_nil, List.count_append, List.count_cons,
      List.count_nil] at hcount ⊢
    omega
  · intro u d hd
    obtain ⟨hnot,hfates⟩ := h.accepted u d hd
    refine ⟨hu ▸ hnot,fun e hmem => ?_⟩
    rcases List.mem_append.mp hmem with hmem | hmem
    · exact hfates e hmem
    · cases err <;> cases List.mem_singleton.mp hmem

theorem Sound.ownStep (h : Sound rep) {e : Quorum.Call.Event} (he : ownStep e = true)
    (hc : rep.call.step rep.config e = some call) : Sound { rep with call := call } := by
  obtain ⟨hu,hw⟩ := ownStep_parts he hc
  refine ⟨h.snoc rfl (List.Subset.refl _) (List.Subset.refl _) (e := e) (fun outcome ho => ?_),?_,?_⟩
  · rw [ownStep_outcome he]
    exact hc
  · refine List.Nodup.sublist ?_ h.distinct
    rw [hu]
    exact ((List.Sublist.refl _).append hw).append (List.Sublist.refl _)
  · rw [hu]
    exact h.accepted

end Sound

/-- The writes that come in carry versions. -/
def Event.Versioned : Event → Prop
  | .prepare _ counter now => nextVersion counter now ≠ 0
  | .node e => e.Versioned
  | .link _ e => e.Versioned
  | _ => True

instance : (e : Event) → Decidable e.Versioned
  | .prepare _ counter now => inferInstanceAs (Decidable (nextVersion counter now ≠ 0))
  | .node e => inferInstanceAs (Decidable e.Versioned)
  | .link _ e => inferInstanceAs (Decidable e.Versioned)
  | .check _ | .localFails | .replicate _ _ _ _ | .submit _ | .done _ _ | .quorum _ | .answer => isTrue trivial

/-- The I/O errors at the replicas have texts. -/
def Event.Worded : Event → Prop
  | .link _ e => e.Worded
  | _ => True

instance : (e : Event) → Decidable e.Worded
  | .link _ e => inferInstanceAs (Decidable e.Worded)
  | .check _ | .prepare _ _ _ | .localFails | .replicate _ _ _ _ | .submit _ | .done _ _ | .quorum _ | .answer | .node _ =>
    isTrue trivial

/-- The workers open new streams only when no older batch is in flight. -/
def Drained (s : System) : Event → Prop
  | .link t e => (s.links t).Drained e
  | _ => True

instance (s : System) : (e : Event) → Decidable (s.Drained e)
  | .link t e => inferInstanceAs (Decidable ((s.links t).Drained e))
  | .check _ | .prepare _ _ _ | .localFails | .replicate _ _ _ _ | .submit _ | .done _ _ | .quorum _ | .answer | .node _ =>
    isTrue trivial

/-- The link to a node has come about by the events. Where the writes are assumed to carry
versions, its own do. -/
structure Ran (versions : Prop) (cfg : Setting) (t : NodeID) (l : Link) (fs : List Link.Event) : Prop where
  run : Machine.run Link.step (cfg.link t) fs = some l
  drained : Machine.Meets Link.step Link.Drained (cfg.link t) fs
  versioned : versions → ∀ e ∈ fs, e.Versioned
  worded : ∀ e ∈ fs, e.Worded

/-- The requests that were submitted to the worker, by their numbers. -/
def submissions (fs : List Link.Event) : List ReplicationRequest :=
  (Link.workerEvents fs).filterMap BatchWorker.Worker.Event.submitted

section Ran
variable {versions : Prop} {cfg : Setting} {t : NodeID} {l l' : Link} {fs : List Link.Event}

theorem Ran.concat (h : Ran versions cfg t l fs) {e : Link.Event} (hl : l.step e = some l') (hd : l.Drained e)
    (hv : versions → e.Versioned) (hw : e.Worded) : Ran versions cfg t l' (fs ++ [e]) where
  run := Machine.run_append.mpr ⟨l,h.run,Machine.run_cons.mpr ⟨l',hl,rfl⟩⟩
  drained := (Machine.meets_append h.run).mpr ⟨h.drained,(Machine.meets_cons hl).mpr ⟨hd,trivial⟩⟩
  versioned hver := Machine.forall_mem_concat (h.versioned hver) (hv hver)
  worded := Machine.forall_mem_concat h.worded hw

theorem submissions_concat (fs : List Link.Event) (e : Link.Event) : submissions fs <+: submissions (fs ++ [e]) := by
  simp only [submissions, Link.workerEvents, List.filterMap_append]
  exact List.prefix_append _ _

theorem getElem?_submissions {d : Nat} {req : ReplicationRequest} (h : (submissions fs)[d]? = some req) (e : Link.Event) :
    (submissions (fs ++ [e]))[d]? = some req := by
  obtain ⟨rest,hrest⟩ := submissions_concat fs e
  rw [← hrest, List.getElem?_append_left (List.getElem?_eq_some_iff.mp h).1]
  exact h

/-- A task gets the number of its submission. -/
theorem Ran.submitted (h : Ran versions cfg t l fs) (req : ReplicationRequest) :
    (submissions (fs ++ [.worker (.submit req)]))[l.worker.nextDone]? = some req := by
  have hcount : l.worker.nextDone = (submissions fs).length := (Link.run_inv h.run).line.1.count
  have hsub : submissions (fs ++ [.worker (.submit req)]) = submissions fs ++ [req] := by
    simp [submissions, Link.workerEvents, BatchWorker.Worker.Event.submitted]
  rw [hcount, hsub, List.getElem?_concat_length]

end Ran

/-- What holds of the write and of the nodes that it goes to, with what holds of versions
where the writes are assumed to carry them. -/
structure Inv (versions : Prop) (cfg : Setting) (s : System) : Prop where
  node : ∃ fs, Calls.Node.Inv (EventLoop.init (cfg.setup cfg.self).batchSize (cfg.setup cfg.self).mode
    (cfg.setup cfg.self).bufferSize (cfg.setup cfg.self).old) fs s.node
  versioned : versions → s.node.Versioned
  request : ∀ req c, s.write.request = some (req,c) → ∃ pl version chan call, req = cfg.request pl version chan ∧
    (versions → version ≠ 0) ∧ s.node.calls[c]? = some call ∧ call.reqs = [req]
  applied : ∀ rep, s.write.replication = some rep → ∃ req c call, s.write.request = some (req,c) ∧
    s.node.calls[c]? = some call ∧ call.phase = .returned none
  links : ∀ t, ∃ fs, Ran versions cfg t (s.links t) fs ∧ ∀ req c rep d, s.write.request = some (req,c) →
    s.write.replication = some rep → (t,d) ∈ rep.tasks → (submissions fs)[d]? = some (cfg.message req)
  config : ∀ rep, s.write.replication = some rep → ∃ members placement refreshed isLeader,
    rep.config = cfg.config members placement refreshed isLeader
  sound : ∀ rep, s.write.replication = some rep → Sound rep
  genuine : ∀ rep, s.write.replication = some rep → ∀ t, (t,.ok) ∈ rep.fates →
    ∃ d, (t,d) ∈ rep.tasks ∧ (d,none) ∈ (s.links t).worker.completed
  answered : s.write.answer = some none → ∃ rep, s.write.replication = some rep ∧ rep.call.verdict = some none

section Steps
variable {versions : Prop} {cfg : Setting} {s : System}

theorem init_inv : Inv versions cfg cfg.init where
  node := ⟨[],Calls.Node.init_inv _ _ _ _⟩
  versioned := by simp [Setting.init, Setting.node, Calls.Node.init, Calls.Node.Versioned]
  request := by simp [Setting.init]
  applied := by simp [Setting.init]
  links t := ⟨[],⟨rfl,trivial,by simp,by simp⟩,by simp [Setting.init]⟩
  config := by simp [Setting.init]
  sound := by simp [Setting.init]
  genuine := by simp [Setting.init]
  answered := by simp [Setting.init]

theorem Inv.setAnswer (h : Inv versions cfg s) {err : Option Err}
    (he : err = none → ∃ rep, s.write.replication = some rep ∧ rep.call.verdict = some none) : Inv versions cfg (s.setAnswer err) :=
  { h with answered := fun ha => he (Option.some.inj ha) }

/-- The quorum call goes on without a new task. -/
theorem Inv.setReplication (h : Inv versions cfg s) {rep rep' : Replication} (hrep : s.write.replication = some rep)
    (hconfig : rep'.config = rep.config) (htasks : rep'.tasks = rep.tasks) (hsound : Sound rep')
    (hgenuine : ∀ t, (t,.ok) ∈ rep'.fates → ∃ d, (t,d) ∈ rep'.tasks ∧ (d,none) ∈ (s.links t).worker.completed)
    (hverdict : ∀ v, rep.call.verdict = some v → rep'.call.verdict = some v) : Inv versions cfg (s.setReplication rep') where
  node := h.node
  versioned := h.versioned
  request := h.request
  applied _ _ := h.applied rep hrep
  links t := by
    obtain ⟨fs,hran,hsub⟩ := h.links t
    refine ⟨fs,hran,fun req c r d hreq hr hd => ?_⟩
    cases hr
    exact hsub req c rep d hreq hrep (htasks ▸ hd)
  config r hr := by
    cases hr
    rw [hconfig]
    exact h.config rep hrep
  sound r hr := by
    cases hr
    exact hsound
  genuine r hr := by
    cases hr
    exact hgenuine
  answered ha := by
    obtain ⟨r,hr,hv⟩ := h.answered ha
    cases hrep.symm.trans hr
    exact ⟨rep',rfl,hverdict none hv⟩

/-- The node of the write goes on. -/
theorem Inv.nodeStep (h : Inv versions cfg s) {e : Calls.Node.Event} {n : Calls.Node} (he : versions → e.Versioned)
    (hn : s.node.step e = some n) : Inv versions cfg { s with node := n } where
  node := by
    obtain ⟨fs,hnode⟩ := h.node
    exact Calls.Node.step_inv hnode hn
  versioned hver := Calls.Node.step_versioned (h.versioned hver) (he hver) hn
  request req c hreq := by
    obtain ⟨pl,version,chan,call,heq,hne,hcall,hreqs⟩ := h.request req c hreq
    obtain ⟨d,hd,hcont⟩ := Calls.Node.step_continues hn hcall
    exact ⟨pl,version,chan,d,heq,hne,hd,hcont.reqs.trans hreqs⟩
  applied rep hrep := by
    obtain ⟨req,c,call,hreq,hcall,hret⟩ := h.applied rep hrep
    obtain ⟨d,hd,hcont⟩ := Calls.Node.step_continues hn hcall
    exact ⟨req,c,d,hreq,hd,hcont.returned none hret⟩
  links := h.links
  config := h.config
  sound := h.sound
  genuine := h.genuine
  answered := h.answered

/-- A link goes on; what its worker has completed stays so. -/
theorem Inv.linkStep (h : Inv versions cfg s) {t : NodeID} {e : Link.Event} {l : Link} (hd : (s.links t).Drained e)
    (he : versions → e.Versioned) (hw : e.Worded) (hl : (s.links t).step e = some l) : Inv versions cfg (s.setLink t l) where
  node := h.node
  versioned := h.versioned
  request := h.request
  applied := h.applied
  links u := by
    obtain ⟨fs,hran,hsub⟩ := h.links u
    by_cases hu : u = t
    · subst hu
      refine ⟨fs ++ [e],?_,fun req c rep d hreq hrep htask => getElem?_submissions (hsub req c rep d hreq hrep htask) e⟩
      rw [setLink_self]
      exact hran.concat hl hd he hw
    · refine ⟨fs,?_,hsub⟩
      rw [setLink_of_ne s hu]
      exact hran
  config := h.config
  sound := h.sound
  genuine rep hrep u hu := by
    obtain ⟨d,htask,hdone⟩ := h.genuine rep hrep u hu
    refine ⟨d,htask,?_⟩
    by_cases hut : u = t
    · subst hut
      obtain ⟨fs,hran,-⟩ := h.links u
      rw [setLink_self]
      exact (Link.step_completed (Link.run_inv hran.run) hl).subset hdone
    · rw [setLink_of_ne s hut]
      exact hdone
  answered := h.answered

/-- A worker accepts a task for the write. -/
theorem Inv.accept (h : Inv versions cfg s) {req : Request} {c : Nat} {rep : Replication} {t : NodeID} {l : Link}
    {call : Quorum.Call} (hreq : s.write.request = some (req,c)) (hrep : s.write.replication = some rep)
    (ht : rep.call.unsubmitted.head? = some t) (hl : (s.links t).step (.worker (.submit (cfg.message req))) = some l)
    (hc : rep.step .ok .submit = some call) : Inv versions cfg ((s.setLink t l).setReplication
      { rep with call := call, tasks := rep.tasks ++ [(t,(s.links t).worker.nextDone)] }) := by
  have hver : versions → Link.Event.Versioned (.worker (.submit (cfg.message req))) := by
    intro hversions _
    obtain ⟨pl,version,chan,_,rfl,hne,-⟩ := h.request req c hreq
    exact hne hversions
  have hdrain : (s.links t).Drained (.worker (.submit (cfg.message req))) := by
    simp [Link.Drained, BatchWorker.Worker.Drained, BatchWorker.Worker.flushes]
  have hnext := h.linkStep hdrain hver trivial hl
  refine ⟨h.node,h.versioned,h.request,fun _ _ => h.applied rep hrep,fun u => ?_,fun r hr => ?_,fun r hr => ?_,
    fun r hr u hu => ?_,fun ha => ?_⟩
  · obtain ⟨fs,hran,hsub⟩ := h.links u
    have hold {d : Nat} (hd : (u,d) ∈ rep.tasks) : (submissions fs)[d]? = some (cfg.message req) :=
      hsub req c rep d hreq hrep hd
    by_cases hu : u = t
    · subst hu
      refine ⟨fs ++ [.worker (.submit (cfg.message req))],?_,fun req' c' r d hreq' hr hd => ?_⟩
      · rw [setReplication_links, setLink_self]
        exact hran.concat hl hdrain hver trivial
      · cases hr
        cases hreq.symm.trans hreq'
        rcases List.mem_append.mp hd with hd | hd
        · exact getElem?_submissions (hold hd) _
        · cases List.mem_singleton.mp hd
          exact hran.submitted _
    · refine ⟨fs,?_,fun req' c' r d hreq' hr hd => ?_⟩
      · rw [setReplication_links, setLink_of_ne s hu]
        exact hran
      · cases hr
        cases hreq.symm.trans hreq'
        rcases List.mem_append.mp hd with hd | hd
        · exact hold hd
        · cases List.mem_singleton.mp hd
          exact absurd rfl hu
  · cases hr
    exact h.config rep hrep
  · cases hr
    exact (h.sound rep hrep).submitted ht hc _
  · cases hr
    obtain ⟨d,htask,hdone⟩ := hnext.genuine rep hrep u hu
    exact ⟨d,List.mem_append_left _ htask,hdone⟩
  · obtain ⟨r,hr,hv⟩ := h.answered ha
    cases hrep.symm.trans hr
    exact ⟨_,rfl,step_verdict hv hc⟩

theorem step_inv {s' : System} {e : Event} (h : Inv versions cfg s) (hd : s.Drained e) (he : versions → e.Versioned)
    (hw : e.Worded) (hs : s.step cfg e = some s') : Inv versions cfg s' := by
  cases step_fires hs with
  | owned => exact { h with }
  | disowned e | localFails e => exact h.setAnswer nofun
  | @prepare pl counter now n hr hn =>
    have hver : versions → Calls.Node.Event.Versioned
        (.call [cfg.request pl (nextVersion counter now) s.node.nextChan] errRequestCancelled) := by
      intro hversions r hmem _
      rw [List.mem_singleton.mp hmem]
      exact he hversions
    have hnone : s.write.replication = none := by
      cases hrep : s.write.replication with
      | none => rfl
      | some rep =>
        obtain ⟨_,_,_,hreq,-⟩ := h.applied rep hrep
        rw [hr] at hreq
        cases hreq
    have hnext := h.nodeStep hver hn
    refine { hnext with request := fun req c hreq => ?_, applied := fun rep hrep => ?_, links := fun t => ?_ }
    · cases hreq
      cases Calls.Node.step_fires hn with
      | call _ _ => exact ⟨pl,_,_,_,rfl,he,List.getElem?_concat_length,rfl⟩
    · rw [hnone] at hrep
      cases hrep
    · obtain ⟨fs,hran,-⟩ := h.links t
      refine ⟨fs,hran,fun req c rep d _ hrep => ?_⟩
      rw [hnone] at hrep
      cases hrep
  | @replicate members placement refreshed isLeader req c call hreq hc hp hrep =>
    refine ⟨h.node,h.versioned,h.request,fun _ _ => ⟨req,c,call,hreq,hc,hp⟩,fun t => ?_,fun r hr => ?_,fun r hr => ?_,
      fun r hr => ?_,fun ha => ?_⟩
    · obtain ⟨fs,hran,-⟩ := h.links t
      refine ⟨fs,hran,fun req c rep d _ hrep hd => ?_⟩
      cases hrep
      cases hd
    · cases hr
      exact ⟨members,placement,refreshed,isLeader,rfl⟩
    · cases hr
      exact sound_init
    · cases hr
      intro t ht
      cases ht
    · obtain ⟨rep,hsome,-⟩ := h.answered ha
      rw [hrep] at hsome
      cases hsome
  | @refused e rep t call hrep ht hc =>
    refine h.setReplication hrep rfl rfl ((h.sound rep hrep).refused ht hc) (fun u hu => ?_) (fun v hv => step_verdict hv hc)
    rcases List.mem_append.mp hu with hu | hu
    · exact h.genuine rep hrep u hu
    · cases List.mem_singleton.mp hu
  | accepted hreq hrep ht hl hc => exact h.accept hreq hrep ht hl hc
  | @done i d err rep t call hrep hi hlook hdone hc =>
    refine h.setReplication hrep rfl rfl ((h.sound rep hrep).done hi hc) (fun u hu => ?_) (fun v hv => step_verdict hv hc)
    rcases List.mem_append.mp hu with hu | hu
    · exact h.genuine rep hrep u hu
    · cases err <;> cases List.mem_singleton.mp hu
      exact ⟨d,mem_of_lookup hlook,hdone⟩
  | @quorum e rep call hrep hown hc =>
    exact h.setReplication hrep rfl rfl ((h.sound rep hrep).ownStep hown hc) (h.genuine rep hrep)
      (fun v hv => step_verdict hv hc)
  | @answer rep err hrep hv =>
    refine h.setAnswer (fun hnone => ⟨rep,hrep,?_⟩)
    rw [hv, Option.map_eq_none_iff.mp hnone]
  | node hn => exact h.nodeStep he hn
  | link hl => exact h.linkStep hd he hw hl

end Steps

/-- The replicas are sent the request as it is. -/
theorem pendingReq_message {cfg : Setting} (hop : cfg.op = opPut ∨ cfg.op = opDelete) (pl : Option Placement)
    (version : UInt64) (own chan : Nat) : (cfg.message (cfg.request pl version own)).pendingReq chan =
      { cfg.request pl version own with responseChan := chan } := by
  have hne : ¬ (opDelete = opPut) := by decide
  rcases hop with hop | hop <;> simp [Setting.message, Setting.request, ReplicationRequest.pendingReq, hop, hne]

theorem run_inv {versions : Prop} {cfg : Setting} {es : List Event} (hes : versions → ∀ e ∈ es, e.Versioned)
    (herr : ∀ e ∈ es, e.Worded) (hd : Machine.Meets (step cfg) Drained cfg.init es) {s : System}
    (hr : Machine.run (step cfg) cfg.init es = some s) : Inv versions cfg s :=
  Machine.run_invariant_of_meets (fun _ _ _ h hg hs => step_inv h hg.1 hg.2.1 hg.2.2 hs) init_inv
    (hd.and ((Machine.meets_of_forall cfg.init (fun e he hver => hes hver e he)).and
      (Machine.meets_of_forall cfg.init herr))) hr

section Counted
variable {versions : Prop} {cfg : Setting} {s : System} (h : Inv versions cfg s)
include h

/-- A replication that has returned nil has counted as many replicas as make up a quorum with
the node itself, and the task of each was completed without error. -/
theorem Inv.counted {rep : Replication} (hrep : s.write.replication = some rep) (hv : rep.call.verdict = some none) :
    ∃ m, rep.config.members = some m ∧ rep.config.required m ≤ 1+rep.call.counted.toFinset.card ∧
      ∀ t ∈ rep.call.counted, t ∈ rep.config.replicas ∧ t ≠ cfg.self ∧
        ∃ d, (t,d) ∈ rep.tasks ∧ (d,none) ∈ (s.links t).worker.completed := by
  -- The call is one whose outcomes were fixed from the start, so what it has counted succeeded.
  have hsound := h.sound rep hrep
  obtain ⟨qs,hqs⟩ := hsound.refines rep.outcome hsound.compatible
  obtain ⟨m,hm,hnodup,hsub,hq⟩ := counted_of_verdict hqs hv
  refine ⟨m,hm,?_,fun t ht => ?_⟩
  · rw [List.toFinset_card_of_nodup hnodup]
    exact hq
  · obtain ⟨htarget,hok⟩ := List.mem_filter.mp (hsub ht)
    rw [Quorum.Config.targets_eq, (Quorum.distinctReplicas_spec _ _).2] at htarget
    obtain ⟨hmem,-,hne⟩ := htarget
    obtain ⟨members,placement,refreshed,isLeader,hconfig⟩ := h.config rep hrep
    rw [hconfig] at hne
    have hfate : (t,.ok) ∈ rep.fates := by
      have hok := of_decide_eq_true hok
      simp only [Replication.outcome] at hok
      cases hl : rep.fates.lookup t with
      | none => simp [hl] at hok
      | some x =>
        rw [hl, Option.getD_some] at hok
        exact hok ▸ mem_of_lookup hl
    exact ⟨hmem,hne,h.genuine rep hrep t hfate⟩

/-- The node of the write has served it. -/
theorem Inv.own {rep : Replication} (hrep : s.write.replication = some rep) :
    ∃ pl version chan c, s.write.request = some (cfg.request pl version chan,c) ∧
      ∃ call ∈ s.node.calls, call.phase = .returned none ∧ cfg.request pl version chan ∈ call.reqs := by
  obtain ⟨req,c,call,hreq,hcall,hret⟩ := h.applied rep hrep
  obtain ⟨pl,version,chan,call',rfl,-,hcall',hreqs⟩ := h.request req c hreq
  cases hcall.symm.trans hcall'
  exact ⟨pl,version,chan,c,hreq,call,List.mem_of_getElem? hcall,hret,hreqs ▸ List.mem_cons_self⟩

/-- So has every replica whose task was completed without error. -/
theorem Inv.remote (hop : cfg.op = opPut ∨ cfg.op = opDelete) {rep : Replication} (hrep : s.write.replication = some rep)
    {pl : Option Placement} {version : UInt64} {own c : Nat} (hreq : s.write.request = some (cfg.request pl version own,c))
    {t : NodeID} {d : Nat} (htask : (t,d) ∈ rep.tasks) (hdone : (d,none) ∈ (s.links t).worker.completed) :
    ∃ fs, Ran versions cfg t (s.links t) fs ∧ ∃ call ∈ (s.links t).node.calls, call.phase = .returned none ∧
      ∃ chan, { cfg.request pl version own with responseChan := chan } ∈ call.reqs := by
  obtain ⟨fs,hran,htasks⟩ := h.links t
  obtain ⟨msg,hmsg,call,hcall,hret,chan,hmem⟩ := Link.completed_task_served hran.worded hran.drained hran.run hdone
  cases hmsg.symm.trans (htasks _ c rep d hreq hrep htask)
  rw [pendingReq_message hop] at hmem
  exact ⟨fs,hran,call,hcall,hret,chan,hmem⟩

end Counted

/-- A node has applied the write: its loop has, for a replica as a request of its own. -/
def Applied (cfg : Setting) (s : System) (req : Request) (t : NodeID) : Prop :=
  if t = cfg.self then req ∈ s.node.loop.applied
  else ∃ chan, { req with responseChan := chan } ∈ (s.links t).node.loop.applied

/-- When the replication of a write returns nil, as many nodes of the key's replica set have
applied it as the membership view asks for, and a majority of the set unless the set is
larger than the effective replication factor. -/
theorem nil_leaves_required_holders {cfg : Setting} (hop : cfg.op = opPut ∨ cfg.op = opDelete) {es : List Event}
    (herr : ∀ e ∈ es, e.Worded) (hd : Machine.Meets (step cfg) Drained cfg.init es) {s : System}
    (hr : Machine.run (step cfg) cfg.init es = some s) {rep : Replication} (hrep : s.write.replication = some rep)
    (hv : rep.call.verdict = some none) {p : Placement} (hp : rep.config.resolved = some p)
    (hself : (p.getNodesForKey cfg.hashKey cfg.key).1 = cfg.self) :
    ∃ req c m, s.write.request = some (req,c) ∧ (req.op,req.key,req.value) = (cfg.op,cfg.key,cfg.value) ∧
      rep.config.members = some m ∧ ∃ holders ⊆ Quorum.Call.replicaSet rep.config p,
        (∀ t ∈ holders, s.Applied cfg req t) ∧ rep.config.required m ≤ holders.card ∧
        ((Quorum.Call.replicaSet rep.config p).card ≤ rep.config.effectiveRF m →
          (Quorum.Call.replicaSet rep.config p).card < 2*holders.card) := by
  have h : Inv False cfg s := run_inv False.elim herr hd hr
  have hget {r : Request} (hr : r.op = cfg.op) : r.op ≠ opGet := by
    rcases hop with h | h <;> rw [hr, h] <;> decide
  obtain ⟨m,hm,hq,hcounted⟩ := h.counted hrep hv
  obtain ⟨pl,version,chan,c,hreq,call,hcall,hret,hmem⟩ := h.own hrep
  obtain ⟨members,placement,refreshed,isLeader,hconfig⟩ := h.config rep hrep
  have hnot : cfg.self ∉ rep.call.counted.toFinset := fun hmem => (hcounted _ (List.mem_toFinset.mp hmem)).2.1 rfl
  have hcard := Finset.card_insert_of_notMem hnot
  refine ⟨_,c,m,hreq,rfl,hm,insert cfg.self rep.call.counted.toFinset,?_,?_,by omega,fun hle => ?_⟩
  · have hset : Quorum.Call.replicaSet rep.config p = insert cfg.self rep.config.replicas.toFinset := by
      rw [Quorum.Call.replicaSet, Quorum.Config.replicas, hp, hconfig]
      exact congrArg (insert · _) hself
    rw [hset]
    refine Finset.insert_subset_insert _ (fun t ht => ?_)
    exact List.mem_toFinset.mpr (hcounted t (List.mem_toFinset.mp ht)).1
  · intro t ht
    unfold Applied
    split
    · obtain ⟨fs,hnode⟩ := h.node
      exact hnode.applied hcall hret _ hmem (hget rfl)
    · rename_i hne
      obtain ⟨-,-,d,htask,hdone⟩ := hcounted t (List.mem_toFinset.mp (Finset.mem_of_mem_insert_of_ne ht hne))
      obtain ⟨gs,hran,call',hcall',hret',chan',hmem'⟩ := h.remote hop hrep hreq htask hdone
      obtain ⟨fs,hnode⟩ := (Link.run_inv hran.run).node
      exact ⟨chan',hnode.applied hcall' hret' _ hmem' (hget rfl)⟩
  · unfold Quorum.Config.required at hq
    omega

/-- A write that the client is told to be done is kept by its node and by as many replicas
of the key as make up a quorum with it, each with a loop and a log of its own. -/
theorem acknowledged_write_replicated {cfg : Setting} (hop : cfg.op = opPut ∨ cfg.op = opDelete)
    (hold : ∀ t, ∀ c ∈ (cfg.setup t).old, c.version ≠ 0) {es : List Event} (hes : ∀ e ∈ es, e.Versioned)
    (herr : ∀ e ∈ es, e.Worded) (hd : Machine.Meets (step cfg) Drained cfg.init es) {s : System}
    (hr : Machine.run (step cfg) cfg.init es = some s) (ha : s.write.answer = some none) :
    ∃ req c rep m, s.write.request = some (req,c) ∧ s.write.replication = some rep ∧ rep.config.members = some m ∧
      s.node.Keeps (cfg.setup cfg.self).mode req ∧
      ∃ holders : Finset NodeID, holders ⊆ rep.config.replicas.toFinset ∧ cfg.self ∉ holders ∧
        rep.config.required m ≤ 1+holders.card ∧
        ∀ t ∈ holders, ∃ chan, (s.links t).node.Keeps (cfg.setup t).mode { req with responseChan := chan } := by
  have h : Inv True cfg s := run_inv (fun _ => hes) herr hd hr
  obtain ⟨rep,hrep,hv⟩ := h.answered ha
  obtain ⟨m,hm,hq,hcounted⟩ := h.counted hrep hv
  obtain ⟨pl,version,chan,c,hreq,call,hcall,hret,hmem⟩ := h.own hrep
  obtain ⟨fs,hnode⟩ := h.node
  have hkeeps : s.node.Keeps (cfg.setup cfg.self).mode (cfg.request pl version chan) :=
    hnode.keeps (h.versioned trivial) (hold cfg.self) hcall hret hmem hop
  refine ⟨_,c,rep,m,hreq,hrep,hm,hkeeps,rep.call.counted.toFinset,?_,?_,hq,fun t ht => ?_⟩
  · intro t ht
    exact List.mem_toFinset.mpr (hcounted t (List.mem_toFinset.mp ht)).1
  · intro hmem
    exact (hcounted _ (List.mem_toFinset.mp hmem)).2.1 rfl
  · obtain ⟨-,-,d,htask,hdone⟩ := hcounted t (List.mem_toFinset.mp ht)
    obtain ⟨gs,hran,call',hcall',hret',chan',hmem'⟩ := h.remote hop hrep hreq htask hdone
    obtain ⟨fs',hnode'⟩ := (Link.run_inv hran.run).node
    exact ⟨chan',hnode'.keeps (Link.run_versioned (hran.versioned trivial) hran.run) (hold t) hcall' hret' hmem' hop⟩

section Sample

def sampleSetting : Setting :=
  ⟨"node-1",fun _ => 0,2,fun _ => ⟨1,.afterFsync,64,[]⟩,opPut,.singleton 107,.singleton 118⟩

def sampleCommand : Command := ⟨opPut,.singleton 107,.singleton 118,0,1⟩

/-- A node takes the request of its first call, logs it, syncs the log and answers. -/
def served : List Calls.Node.Event :=
  [.submit 0,.submit 0,.receive,.loop .advance,.loop .advance,.loop .advance,.loop .advance,
   .loop (.writer (.take ⟨1,[sampleCommand]⟩)),.loop (.writer .next),.loop (.writer .next),.loop (.writer (.observe true)),
   .loop (.writer (.write 15)),.loop (.writer .wrote),.loop (.writer .sync),.loop (.writer .resume),
   .loop (.writer .publish),.loop .takeAck,.loop .wake,.loop .respond,.collect 0,.collect 0]

/-- The task goes to the replica, which serves and acknowledges it. -/
def taken : List Link.Event :=
  [.worker (.takeTask ⟨none,none,false⟩),.worker (.tick ⟨none,none,false⟩),.connect,.recv 0] ++ served.map .node ++
  [.finish 0,.send 0,.worker (.recvReturns 0 none),.worker (.recvSends 0),.worker .takeResult]

/-- A put with one replica, from the check up to the answer. -/
def sampleWrite : List Event :=
  [.check none,.prepare none 0 1] ++ served.map .node ++
  [.replicate (some 2) (some (heldBy 1 "node-1" ["node-2"])) none false,.submit none] ++
  taken.map (.link "node-2") ++ [.done 0 none,.quorum .take,.answer]

theorem acknowledged_write_replicated_sample : ∃ s, Machine.run (step sampleSetting) sampleSetting.init sampleWrite = some s ∧
    s.write.answer = some none ∧ ∃ t req, t ≠ "node-1" ∧ (s.links t).node.Keeps .afterFsync req := by
  have hfacts : (Machine.run (step sampleSetting) sampleSetting.init sampleWrite).map (fun s =>
      (s.write.answer,s.write.replication.map (fun rep => (rep.config.members,rep.config.replicationFactor)))) =
      some (some none,some (some 2,2)) := by decide +kernel
  obtain ⟨s,hr,hs⟩ := Option.map_eq_some_iff.mp hfacts
  obtain ⟨hanswer,hconfig⟩ := Prod.mk.injEq .. ▸ hs
  obtain ⟨req,c,rep,m,-,hrep,hm,-,holders,-,hself,hq,hkeeps⟩ := acknowledged_write_replicated (.inl rfl)
    (fun t c hc => by cases hc) (by decide) (by decide) (by decide +kernel) hr hanswer
  simp only [hrep, hm, Option.map_some, Option.some.injEq, Prod.mk.injEq] at hconfig
  obtain ⟨rfl,hrf⟩ := hconfig
  have hpos : 0 < holders.card := by
    simp only [Quorum.Config.required, Quorum.Config.effectiveRF, hrf] at hq
    omega
  obtain ⟨t,ht⟩ := Finset.card_pos.mp hpos
  obtain ⟨chan,hkept⟩ := hkeeps t ht
  refine ⟨s,hr,hanswer,t,_,fun heq => hself ?_,hkept⟩
  rw [heq] at ht
  exact ht

theorem nil_leaves_required_holders_sample : ∃ s rep req t, Machine.run (step sampleSetting) sampleSetting.init sampleWrite = some s ∧
    s.write.replication = some rep ∧ rep.call.verdict = some none ∧ rep.call.counted = ["node-2"] ∧
    t ≠ "node-1" ∧ s.Applied sampleSetting req t := by
  have hfacts : (Machine.run (step sampleSetting) sampleSetting.init sampleWrite).bind (fun s =>
      s.write.replication.map (fun rep => (rep.config.members.map rep.config.required,
        rep.config.resolved.map (fun p => (p.getNodesForKey sampleSetting.hashKey sampleSetting.key).1),
        rep.call.verdict,rep.call.counted))) =
      some (some 2,some "node-1",some none,["node-2"]) := by decide +kernel
  obtain ⟨s,hr,hs⟩ := Option.bind_eq_some_iff.mp hfacts
  obtain ⟨rep,hrep,hrest⟩ := Option.map_eq_some_iff.mp hs
  simp only [Prod.mk.injEq, Option.map_eq_some_iff] at hrest
  obtain ⟨⟨m,hm,htwo⟩,⟨p,hp,hself⟩,hv,hcounted⟩ := hrest
  obtain ⟨req,c,m',-,-,hm',holders,-,happlied,hq,-⟩ := nil_leaves_required_holders (.inl rfl) (by decide) (by decide +kernel) hr
    hrep hv hp hself
  cases hm.symm.trans hm'
  have hmore : 1 < holders.card := by omega
  obtain ⟨t,ht,hne⟩ := Finset.exists_mem_ne hmore "node-1"
  exact ⟨s,rep,req,t,hr,hrep,hv,hcounted,hne,happlied t ht⟩

end Sample

end System
end Nawst.Cluster.WritePath
