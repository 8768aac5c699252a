import Nawst.Core.Server
import Nawst.Core.StoreIndex
import Nawst.Cluster.Quorum

/-! A vnode changes its primary from one node to another while clients write to both:
the calls with their replication, the transfer of a snapshot and the final drop. -/
namespace Nawst.Cluster.Handoff
open Lib Nawst.Core

/-- The vnode, its primary before and after, and the two placements. -/
structure Setting where
  hashKey : Key → UInt64
  replicationFactor : Int
  a : NodeID
  b : NodeID
  v : UInt16
  old : Placement
  new : Placement

/-- The replication of a write: the quorum call, the targets that were sent the write
and those that have applied it. -/
structure Replication where
  config : Quorum.Config
  call : Quorum.Call
  sent : List NodeID
  delivered : List NodeID

/-- A put or delete that has passed the ownership check of its node. The request has a
vnode and a version once it is made; it may be applied after the call was given up. -/
structure Call where
  node : NodeID
  op : OpType
  key : Key
  value : Value
  request : Option (UInt16 × UInt64)
  applied : Bool
  replication : Option Replication
  answer : Option (Option Err)

/-- The receiving side of the transfer, with the entries still to be applied. -/
inductive Transfer where
  | idle
  | streaming (entries : List Store.Entry)
  | done
  | failed
  deriving DecidableEq

/-- The dropper, with the keys still to be deleted and the version of the next delete. -/
inductive Drop where
  | idle
  | deleting (keys : List Key) (version : Option UInt64)
  | finished
  | failed
  deriving DecidableEq

/-- The nodes with the calls at them, and the two activities of the handoff. -/
structure State where
  store : NodeID → Store
  placement : NodeID → Placement
  versionCounter : NodeID → UInt64
  calls : List Call
  transfer : Transfer
  drop : Drop

def init (cfg : Setting) (store : NodeID → Store) (versionCounter : NodeID → UInt64) : State :=
  ⟨store,fun _ => cfg.old,versionCounter,[],.idle,.idle⟩

inductive Event where
  | put (node : NodeID) (key : Key) (value : Value)
  | delete (node : NodeID) (key : Key)
  | draw (i : Nat) (now : UInt64)
  | apply (i : Nat)
  | fail (i : Nat) (e : Err)
  | replicate (i : Nat) (members : Option Nat) (refreshed : Option Placement) (isLeader : Bool)
      (outcome : NodeID → Quorum.Outcome)
  | quorum (i : Nat) (e : Quorum.Call.Event)
  | deliver (i : Nat) (target : NodeID)
  | answer (i : Nat)
  | install (node : NodeID)
  | snapshot (dataOrder tombstoneOrder : List Key)
  | applyEntry
  | endTransfer
  | transferFails
  | beginDrop (order : List Key)
  | dropVersion (now : UInt64)
  | dropKey
  | wipe
  | dropFails

def Event.isSnapshot : Event → Bool
  | .snapshot _ _ => true
  | _ => false

namespace Call

def command (c : Call) (r : UInt16 × UInt64) : Command := ⟨c.op,c.key,c.value,r.1,r.2⟩

/-- The command as a replica makes it from the message. -/
def replicated (c : Call) (r : UInt16 × UInt64) : Command :=
  (ReplicationRequest.pendingReq ⟨if c.op = opPut then .put else .delete,c.key,c.value,r.1.toUInt32,r.2⟩ 0).command

/-- Replication loses nothing of a write. -/
theorem replicated_eq {c : Call} (hop : c.op = opPut ∨ c.op = opDelete) (r : UInt16 × UInt64) :
    c.replicated r = c.command r := by
  have hne : ¬ (opDelete = opPut) := by decide
  rcases hop with hop | hop <;> simp [replicated, command, ReplicationRequest.pendingReq, Request.command, hop, hne]

def localError (c : Call) (e : Err) : Err :=
  (if c.op = opPut then "Failed to PUT key: " else "Failed to DELETE key: ") ++ e

def replicationError (c : Call) (e : Err) : Err :=
  (if c.op = opPut then "Failed to replicate PUT: " else "Failed to REPLICATE DELETE: ") ++ e

end Call

namespace Replication

/-- A task ends without error only after its target has applied the write. -/
def Allows (rep : Replication) : Quorum.Call.Event → Prop
  | .done i => ∀ t ∈ rep.call.waiting[i]?, rep.config.outcome t = .ok → t ∈ rep.delivered
  | _ => True

instance (rep : Replication) : (e : Quorum.Call.Event) → Decidable (rep.Allows e)
  | .done _ => Option.decidableForallMem (p := fun t => rep.config.outcome t = .ok → t ∈ rep.delivered) _
  | .submit | .abort _ | .take | .finish | .cancel _ | .ctxDone => isTrue trivial

/-- The targets that the write is sent to: those whose task is accepted. -/
def sends (rep : Replication) : Quorum.Call.Event → List NodeID
  | .submit => rep.call.unsubmitted.head?.toList.filter (fun t => match rep.config.outcome t with
    | .refused _ => false
    | _ => true)
  | _ => []

end Replication

/-- The command of a transferred entry. -/
def entryCommand (v : UInt16) (e : Store.Entry) : Command :=
  ⟨if e.tombstone then opDelete else opPut,e.key,e.value,v,e.version⟩

namespace State

def applyAt (s : State) (n : NodeID) (cmd : Command) : State :=
  { s with store := Function.update s.store n ((s.store n).apply cmd).1 }

def setCall (s : State) (i : Nat) (c : Call) : State := { s with calls := s.calls.set i c }

/-- A call starts when its node finds that it owns the key. -/
def arrive (cfg : Setting) (s : State) (node : NodeID) (op : OpType) (key : Key) (value : Value) : Option State :=
  if (checkOwnership cfg.hashKey node (some (s.placement node)) key).1 then
    some { s with calls := s.calls ++ [⟨node,op,key,value,none,false,none,none⟩] }
  else none

/-- The next version of a node. -/
def draw (s : State) (n : NodeID) (now : UInt64) : UInt64 := nextVersion (s.versionCounter n) now

def setCounter (s : State) (n : NodeID) (version : UInt64) : State :=
  { s with versionCounter := Function.update s.versionCounter n version }

/-- What the quorum call sees at the moment it resolves its targets. -/
def config (cfg : Setting) (s : State) (c : Call) (members : Option Nat) (refreshed : Option Placement)
    (isLeader : Bool) (outcome : NodeID → Quorum.Outcome) : Quorum.Config :=
  ⟨c.node,members,cfg.replicationFactor,some (s.placement c.node),refreshed,isLeader,cfg.hashKey,c.key,outcome⟩

def step (cfg : Setting) (s : State) : Event → Option State
  | .put node key value => s.arrive cfg node opPut key value
  | .delete node key => s.arrive cfg node opDelete key nilValue
  | .draw i now => do
    let c ← s.calls[i]?
    if c.request = none ∧ c.answer = none then
      let vnodeID := getVNodeForKey cfg.hashKey (some (s.placement c.node)) c.key
      let version := s.draw c.node now
      some ((s.setCounter c.node version).setCall i { c with request := some (vnodeID,version) })
    else none
  | .apply i => do
    let c ← s.calls[i]?
    let r ← c.request
    if c.applied then none
    else some ((s.applyAt c.node (c.command r)).setCall i { c with applied := true })
  | .fail i e => do
    -- The loop reports an error of the log, or the client gives up.
    let c ← s.calls[i]?
    if c.request.isSome ∧ c.replication.isNone ∧ c.answer = none then
      some (s.setCall i { c with answer := some (some (c.localError e)) })
    else none
  | .replicate i members refreshed isLeader outcome => do
    let c ← s.calls[i]?
    if c.applied ∧ c.replication.isNone ∧ c.answer = none then
      let config := s.config cfg c members refreshed isLeader outcome
      some (s.setCall i { c with replication := some ⟨config,Quorum.replicateToAll config,[],[]⟩ })
    else none
  | .quorum i e => do
    let c ← s.calls[i]?
    let rep ← c.replication
    if rep.Allows e then
      let call ← rep.call.step rep.config e
      some (s.setCall i { c with replication := some { rep with call := call, sent := rep.sent ++ rep.sends e } })
    else none
  | .deliver i t => do
    let c ← s.calls[i]?
    let r ← c.request
    let rep ← c.replication
    if t ∈ rep.sent ∧ t ∉ rep.delivered then
      some ((s.applyAt t (c.replicated r)).setCall i
        { c with replication := some { rep with delivered := rep.delivered ++ [t] } })
    else none
  | .answer i => do
    let c ← s.calls[i]?
    let rep ← c.replication
    let err ← rep.call.verdict
    if c.answer = none then some (s.setCall i { c with answer := some (err.map c.replicationError) }) else none
  | .install n => some { s with placement := Function.update s.placement n cfg.new }
  | .snapshot dataOrder tombstoneOrder =>
    if s.placement cfg.b = cfg.new ∧ s.transfer = .idle ∧
        Store.Enumerates dataOrder ((s.store cfg.a).dataSet cfg.v) ∧
        Store.Enumerates tombstoneOrder ((s.store cfg.a).tombstoneSet cfg.v) then
      some { s with transfer := .streaming ((s.store cfg.a).snapshotVNode cfg.v dataOrder tombstoneOrder) }
    else none
  | .applyEntry => match s.transfer with
    | .streaming (e::es) => some { s.applyAt cfg.b (entryCommand cfg.v e) with transfer := .streaming es }
    | _ => none
  | .endTransfer => if s.transfer = .streaming [] then some { s with transfer := .done } else none
  | .transferFails => match s.transfer with
    | .idle | .streaming _ => some { s with transfer := .failed }
    | _ => none
  | .beginDrop order =>
    if s.placement cfg.a = cfg.new ∧ s.drop = .idle ∧
        Store.Enumerates order ((s.store cfg.a).dataSet cfg.v) then
      some { s with drop := .deleting order none }
    else none
  | .dropVersion now => match s.drop with
    | .deleting (k::ks) none =>
      some { s.setCounter cfg.a (s.draw cfg.a now) with drop := .deleting (k::ks) (some (s.draw cfg.a now)) }
    | _ => none
  | .dropKey => match s.drop with
    | .deleting (k::ks) (some version) =>
      some { s.applyAt cfg.a ⟨opDelete,k,nilValue,cfg.v,version⟩ with drop := .deleting ks none }
    | _ => none
  | .wipe => match s.drop with
    | .deleting [] none => some { s with
        store := Function.update s.store cfg.a ((s.store cfg.a).deleteVNodeData cfg.v), drop := .finished }
    | _ => none
  | .dropFails => match s.drop with
    | .deleting _ _ => some { s with drop := .failed }
    | _ => none

/-- Everything a step can do, one rule for each branch. -/
inductive Fires (cfg : Setting) (s : State) : Event → State → Prop where
  | put (node : NodeID) (key : Key) (value : Value) : Fires cfg s (.put node key value)
      { s with calls := s.calls ++ [⟨node,opPut,key,value,none,false,none,none⟩] }
  | delete (node : NodeID) (key : Key) : Fires cfg s (.delete node key)
      { s with calls := s.calls ++ [⟨node,opDelete,key,nilValue,none,false,none,none⟩] }
  | draw {i : Nat} {c : Call} (now : UInt64) (hi : s.calls[i]? = some c) (hr : c.request = none)
      (ha : c.answer = none) : Fires cfg s (.draw i now)
      ((s.setCounter c.node (s.draw c.node now)).setCall i { c with
        request := some (getVNodeForKey cfg.hashKey (some (s.placement c.node)) c.key,s.draw c.node now) })
  | apply {i : Nat} {c : Call} {r : UInt16 × UInt64} (hi : s.calls[i]? = some c) (hr : c.request = some r)
      (ha : c.applied = false) : Fires cfg s (.apply i)
      ((s.applyAt c.node (c.command r)).setCall i { c with applied := true })
  | fail {i : Nat} {c : Call} (e : Err) (hi : s.calls[i]? = some c) (ha : c.answer = none) :
      Fires cfg s (.fail i e) (s.setCall i { c with answer := some (some (c.localError e)) })
  | replicate {i : Nat} {c : Call} {members : Option Nat} {refreshed : Option Placement} {isLeader : Bool}
      {outcome : NodeID → Quorum.Outcome} (rep : Replication) (hi : s.calls[i]? = some c) (ha : c.applied = true) :
      Fires cfg s (.replicate i members refreshed isLeader outcome) (s.setCall i { c with replication := some rep })
  | quorum {i : Nat} {c : Call} {rep : Replication} (e : Quorum.Call.Event) (rep' : Replication)
      (hi : s.calls[i]? = some c) (hrep : c.replication = some rep) : Fires cfg s (.quorum i e)
      (s.setCall i { c with replication := some rep' })
  | deliver {i : Nat} {c : Call} {r : UInt16 × UInt64} {rep : Replication} (t : NodeID) (rep' : Replication)
      (hi : s.calls[i]? = some c) (hr : c.request = some r) (hrep : c.replication = some rep) :
      Fires cfg s (.deliver i t) ((s.applyAt t (c.replicated r)).setCall i { c with replication := some rep' })
  | answer {i : Nat} {c : Call} {rep : Replication} (err : Option Err) (hi : s.calls[i]? = some c)
      (hrep : c.replication = some rep) (ha : c.answer = none) :
      Fires cfg s (.answer i) (s.setCall i { c with answer := some err })
  | install (n : NodeID) : Fires cfg s (.install n) { s with placement := Function.update s.placement n cfg.new }
  | snapshot {dataOrder tombstoneOrder : List Key} (ht : s.transfer = .idle)
      (hd : Store.Enumerates dataOrder ((s.store cfg.a).dataSet cfg.v))
      (hm : Store.Enumerates tombstoneOrder ((s.store cfg.a).tombstoneSet cfg.v)) :
      Fires cfg s (.snapshot dataOrder tombstoneOrder)
        { s with transfer := .streaming ((s.store cfg.a).snapshotVNode cfg.v dataOrder tombstoneOrder) }
  | applyEntry {e : Store.Entry} {es : List Store.Entry} (ht : s.transfer = .streaming (e::es)) :
      Fires cfg s .applyEntry { s.applyAt cfg.b (entryCommand cfg.v e) with transfer := .streaming es }
  | endTransfer (ht : s.transfer = .streaming []) : Fires cfg s .endTransfer { s with transfer := .done }
  | transferFails : Fires cfg s .transferFails { s with transfer := .failed }
  | beginDrop (order : List Key) : Fires cfg s (.beginDrop order) { s with drop := .deleting order none }
  | dropVersion {k : Key} {ks : List Key} (now : UInt64) (hd : s.drop = .deleting (k::ks) none) :
      Fires cfg s (.dropVersion now)
        { s.setCounter cfg.a (s.draw cfg.a now) with drop := .deleting (k::ks) (some (s.draw cfg.a now)) }
  | dropKey {k : Key} {ks : List Key} {version : UInt64} (hd : s.drop = .deleting (k::ks) (some version)) :
      Fires cfg s .dropKey { s.applyAt cfg.a ⟨opDelete,k,nilValue,cfg.v,version⟩ with drop := .deleting ks none }
  | wipe : Fires cfg s .wipe { s with
      store := Function.update s.store cfg.a ((s.store cfg.a).deleteVNodeData cfg.v), drop := .finished }
  | dropFails : Fires cfg s .dropFails { s with drop := .failed }

private theorem arrive_some {cfg : Setting} {s s' : State} {node : NodeID} {op : OpType} {key : Key} {value : Value}
    (h : s.arrive cfg node op key value = some s') :
    s' = { s with calls := s.calls ++ [⟨node,op,key,value,none,false,none,none⟩] } := by
  simp only [arrive, Option.ite_none_right_eq_some, Option.some.injEq] at h
  exact h.2.symm

/-- Steps of the calls. -/
private theorem call_fires {cfg : Setting} {s s' : State} {e : Event} (hs : s.step cfg e = some s')
    (he : match e with
      | .draw .. | .apply _ | .fail .. | .replicate .. | .quorum .. | .deliver .. | .answer _ => True
      | _ => False) : Fires cfg s e s' := by
  cases e with
  | draw i now =>
    simp only [step, Option.bind_eq_bind, Option.bind_eq_some_iff, Option.ite_none_right_eq_some,
      Option.some.injEq] at hs
    obtain ⟨c,hi,⟨hr,ha⟩,rfl⟩ := hs
    exact .draw now hi hr ha
  | apply i =>
    simp only [step, Option.bind_eq_bind, Option.bind_eq_some_iff, Option.ite_none_left_eq_some,
      Option.some.injEq, Bool.not_eq_true] at hs
    obtain ⟨c,hi,r,hr,ha,rfl⟩ := hs
    exact .apply hi hr ha
  | fail i err =>
    simp only [step, Option.bind_eq_bind, Option.bind_eq_some_iff, Option.ite_none_right_eq_some,
      Option.some.injEq] at hs
    obtain ⟨c,hi,⟨_,_,ha⟩,rfl⟩ := hs
    exact .fail err hi ha
  | replicate i members refreshed isLeader outcome =>
    simp only [step, Option.bind_eq_bind, Option.bind_eq_some_iff, Option.ite_none_right_eq_some,
      Option.some.injEq] at hs
    obtain ⟨c,hi,⟨ha,_⟩,rfl⟩ := hs
    exact .replicate _ hi ha
  | quorum i e =>
    simp only [step, Option.bind_eq_bind, Option.bind_eq_some_iff, Option.ite_none_right_eq_some,
      Option.some.injEq] at hs
    obtain ⟨c,hi,rep,hrep,_,call,_,rfl⟩ := hs
    exact .quorum e _ hi hrep
  | deliver i t =>
    simp only [step, Option.bind_eq_bind, Option.bind_eq_some_iff, Option.ite_none_right_eq_some,
      Option.some.injEq] at hs
    obtain ⟨c,hi,r,hr,rep,hrep,_,rfl⟩ := hs
    exact .deliver t _ hi hr hrep
  | answer i =>
    simp only [step, Option.bind_eq_bind, Option.bind_eq_some_iff, Option.ite_none_right_eq_some,
      Option.some.injEq] at hs
    obtain ⟨c,hi,rep,hrep,err,_,ha,rfl⟩ := hs
    exact .answer _ hi hrep ha
  | _ => exact he.elim

theorem step_fires {cfg : Setting} {s s' : State} {e : Event} (hs : s.step cfg e = some s') : Fires cfg s e s' := by
  cases e with
  | put node key value =>
    obtain rfl := arrive_some hs
    exact .put node key value
  | delete node key =>
    obtain rfl := arrive_some hs
    exact .delete node key
  | draw | apply | fail | replicate | quorum | deliver | answer => exact call_fires hs trivial
  | install n =>
    cases hs
    exact .install n
  | snapshot dataOrder tombstoneOrder =>
    simp only [step, Option.ite_none_right_eq_some, Option.some.injEq] at hs
    obtain ⟨⟨_,ht,hd,hm⟩,rfl⟩ := hs
    exact .snapshot ht hd hm
  | applyEntry =>
    simp only [step] at hs
    split at hs
    · cases hs
      exact .applyEntry ‹_›
    · cases hs
  | endTransfer =>
    simp only [step, Option.ite_none_right_eq_some, Option.some.injEq] at hs
    obtain ⟨ht,rfl⟩ := hs
    exact .endTransfer ht
  | transferFails =>
    simp only [step] at hs
    split at hs
    · cases hs
      exact .transferFails
    · cases hs
      exact .transferFails
    · cases hs
  | beginDrop order =>
    simp only [step, Option.ite_none_right_eq_some, Option.some.injEq] at hs
    obtain ⟨_,rfl⟩ := hs
    exact .beginDrop order
  | dropVersion now =>
    simp only [step] at hs
    split at hs
    · cases hs
      exact .dropVersion now ‹_›
    · cases hs
  | dropKey =>
    simp only [step] at hs
    split at hs
    · cases hs
      exact .dropKey ‹_›
    · cases hs
  | wipe =>
    simp only [step] at hs
    split at hs
    · cases hs
      exact .wipe
    · cases hs
  | dropFails =>
    simp only [step] at hs
    split at hs
    · cases hs
      exact .dropFails
    · cases hs

/-- The call of an apply event. -/
def applying (s : State) : Event → Option Call
  | .apply i => s.calls[i]?
  | _ => none

/-- The node that draws a version for a call. -/
def drawing (s : State) : Event → Option NodeID
  | .draw i _ => s.calls[i]?.map Call.node
  | _ => none

/-- A put of the vnode at the old primary, for a client that still waits. -/
def Awaited (cfg : Setting) (c : Call) : Prop :=
  c.node = cfg.a ∧ c.op = opPut ∧ c.answer = none ∧ c.request.map Prod.fst = some cfg.v

instance (cfg : Setting) (c : Call) : Decidable (Awaited cfg c) := inferInstanceAs (Decidable (_ ∧ _ ∧ _ ∧ _))

/-- The old primary applies no awaited put after the snapshot; the snapshot comes
before the drop; and no version counter is used up. -/
def Ordered (cfg : Setting) (s : State) (e : Event) : Prop :=
  (∀ c ∈ s.applying e, Awaited cfg c → s.transfer = .idle) ∧ (e.isSnapshot = true → s.drop = .idle) ∧
    ∀ n ∈ s.drawing e, (s.versionCounter n).toNat+1 < 2^64

instance (cfg : Setting) (s : State) (e : Event) : Decidable (Ordered cfg s e) :=
  @instDecidableAnd _ _ (Option.decidableForallMem (p := fun c => Awaited cfg c → s.transfer = .idle) _)
    (@instDecidableAnd _ _ inferInstance (Option.decidableForallMem (p := fun n => (s.versionCounter n).toNat+1 < 2^64) _))

/-- Where a version of a key of the vnode is kept, as the transfer goes on. -/
def Kept (cfg : Setting) (k : Key) (s : State) (n : UInt64) : Prop :=
  match s.transfer with
  | .idle => s.drop = .idle → n ≤ (s.store cfg.a).versionOf k
  | .streaming es => n ≤ (s.store cfg.b).versionOf k ∨ ∃ e ∈ es, e.key = k ∧ n ≤ e.version
  | .done => n ≤ (s.store cfg.b).versionOf k
  | .failed => True

/-- A call as the steps of the cluster make it, for a key without deletes. -/
structure CallInv (cfg : Setting) (k : Key) (c : Call) : Prop where
  op : c.op = opPut ∨ c.op = opDelete
  puts : c.key = k → c.op = opPut
  request : ∀ r ∈ c.request, r.2 ≠ 0 ∧ (c.key = k → r.1 = cfg.v)
  requested : c.applied = true → c.request.isSome
  replicated : c.replication.isSome → c.applied = true
  succeeded : c.answer = some none → c.applied = true

/-- A put at the old primary that is applied and has not failed. -/
def Stands (cfg : Setting) (k : Key) (c : Call) : Prop :=
  c.node = cfg.a ∧ c.key = k ∧ c.applied = true ∧ ∀ e, c.answer ≠ some (some e)

structure Inv (cfg : Setting) (k : Key) (s : State) : Prop where
  placement : ∀ n, s.placement n = cfg.old ∨ s.placement n = cfg.new
  calls : ∀ c ∈ s.calls, CallInv cfg k c
  plain : (s.store cfg.b).Plain cfg.v k
  source : s.drop = .idle → (s.store cfg.a).Plain cfg.v k
  entries : ∀ es, s.transfer = .streaming es → ∀ e ∈ es, e.key = k → e.tombstone = false ∧ e.version ≠ 0
  kept : ∀ c ∈ s.calls, Stands cfg k c → ∀ r ∈ c.request, s.Kept cfg k r.2

theorem init_inv {cfg : Setting} {k : Key} {store : NodeID → Store} (ha : (store cfg.a).Plain cfg.v k)
    (hb : (store cfg.b).Plain cfg.v k) (versionCounter : NodeID → UInt64) :
    Inv cfg k (init cfg store versionCounter) where
  placement _ := .inl rfl
  calls := by simp [init]
  plain := hb
  source _ := ha
  entries es h := by cases h
  kept := by simp [init]

/-- What a plain key sees of a command applied somewhere. -/
private theorem applyAt_plain {cfg : Setting} {k : Key} {s : State} {m : NodeID} (h : (s.store m).Plain cfg.v k)
    (n : NodeID) {cmd : Command} (hc : Store.Puts cmd cfg.v k) : ((s.applyAt n cmd).store m).Plain cfg.v k := by
  by_cases hm : m = n
  · subst hm
    simpa [applyAt] using h.apply hc
  · simpa [applyAt, hm] using h

private theorem applyAt_version {cfg : Setting} {k : Key} (s : State) (m n : NodeID) {cmd : Command}
    (hc : Store.Puts cmd cfg.v k) : (s.store m).versionOf k ≤ ((s.applyAt n cmd).store m).versionOf k := by
  by_cases hm : m = n
  · subst hm
    simpa [applyAt] using Store.versionOf_apply_puts hc
  · simp [applyAt, hm]

/-- Stores that only go on in versions keep what they have. -/
private theorem Kept.mono {cfg : Setting} {k : Key} {s s' : State} {n : UInt64} (h : s.Kept cfg k n)
    (ht : s'.transfer = s.transfer) (hd : s'.drop = s.drop)
    (ha : (s.store cfg.a).versionOf k ≤ (s'.store cfg.a).versionOf k)
    (hb : (s.store cfg.b).versionOf k ≤ (s'.store cfg.b).versionOf k) : s'.Kept cfg k n := by
  simp only [Kept, ht, hd] at h ⊢
  cases htr : s.transfer with
  | idle =>
    simp only [htr] at h
    exact fun hidle => UInt64.le_trans (h hidle) ha
  | streaming es =>
    simp only [htr] at h
    exact h.imp_left (fun hle => UInt64.le_trans hle hb)
  | done =>
    simp only [htr] at h
    exact UInt64.le_trans h hb
  | failed => trivial

private theorem Inv.setCall {cfg : Setting} {k : Key} {s : State} (h : Inv cfg k s) (i : Nat) {c : Call}
    (hc : CallInv cfg k c) (hk : Stands cfg k c → ∀ r ∈ c.request, s.Kept cfg k r.2) : Inv cfg k (s.setCall i c) where
  placement := h.placement
  calls := Machine.forall_mem_set h.calls hc
  plain := h.plain
  source := h.source
  entries := h.entries
  kept := Machine.forall_mem_set h.kept hk

private theorem Inv.applyAt {cfg : Setting} {k : Key} {s : State} (h : Inv cfg k s) (n : NodeID) {cmd : Command}
    (hc : Store.Puts cmd cfg.v k) : Inv cfg k (s.applyAt n cmd) where
  placement := h.placement
  calls := h.calls
  plain := applyAt_plain h.plain n hc
  source hd := applyAt_plain (h.source hd) n hc
  entries := h.entries
  kept c hmem hst r hr :=
    (h.kept c hmem hst r hr).mono rfl rfl (applyAt_version s cfg.a n hc) (applyAt_version s cfg.b n hc)

private theorem Inv.arrive {cfg : Setting} {k : Key} {s : State} (h : Inv cfg k s) {node : NodeID} {op : OpType}
    {key : Key} {value : Value} (hop : op = opPut ∨ op = opDelete) (hk : key = k → op = opPut) :
    Inv cfg k { s with calls := s.calls ++ [⟨node,op,key,value,none,false,none,none⟩] } where
  placement := h.placement
  calls := Machine.forall_mem_concat h.calls ⟨hop,hk,by simp,by simp,by simp,by simp⟩
  plain := h.plain
  source := h.source
  entries := h.entries
  kept := Machine.forall_mem_concat h.kept (fun hst => absurd hst.2.2.1 (by simp))

/-- The request of a call is a put of its vnode, as far as the key is concerned. -/
private theorem CallInv.command_puts {cfg : Setting} {k : Key} {c : Call} (h : CallInv cfg k c) {r : UInt16 × UInt64}
    (hr : c.request = some r) : Store.Puts (c.command r) cfg.v k := by
  intro hk
  obtain ⟨hne,hv⟩ := h.request r hr
  exact ⟨h.puts hk,hv hk,hne⟩

private theorem Inv.draw {cfg : Setting} {k : Key} {s : State} (h : Inv cfg k s)
    (hold : cfg.old.getVNodeIDForKey cfg.hashKey k = cfg.v) (hnew : cfg.new.getVNodeIDForKey cfg.hashKey k = cfg.v)
    {i : Nat} {c : Call} {now : UInt64} (hi : s.calls[i]? = some c) (hr : c.request = none)
    (hn : (s.versionCounter c.node).toNat+1 < 2^64) :
    Inv cfg k ((s.setCounter c.node (s.draw c.node now)).setCall i { c with
      request := some (getVNodeForKey cfg.hashKey (some (s.placement c.node)) c.key,s.draw c.node now) }) := by
  have hc := h.calls c (List.mem_of_getElem? hi)
  have hna : c.applied = false := by
    cases ha : c.applied with
    | false => rfl
    | true =>
      have := hc.requested ha
      rw [hr] at this
      cases this
  have hcounter : Inv cfg k (s.setCounter c.node (s.draw c.node now)) :=
    ⟨h.placement,h.calls,h.plain,h.source,h.entries,h.kept⟩
  refine hcounter.setCall i ⟨hc.op,hc.puts,?_,by simp,hc.replicated,hc.succeeded⟩ (fun hst => ?_)
  · intro r hmem
    obtain rfl := Option.some.inj hmem
    refine ⟨nextVersion_ne_zero hn now,fun hk => ?_⟩
    change (s.placement c.node).getVNodeIDForKey cfg.hashKey c.key = cfg.v
    rw [show c.key = k from hk]
    rcases h.placement c.node with hp | hp
    · rw [hp, hold]
    · rw [hp, hnew]
  · exact absurd (hna.symm.trans hst.2.2.1) (by decide)

/-- A put that the old primary applies in time is there before the snapshot. -/
private theorem Inv.apply {cfg : Setting} {k : Key} {s : State} (h : Inv cfg k s) {i : Nat} {c : Call}
    {r : UInt16 × UInt64} (hi : s.calls[i]? = some c) (hr : c.request = some r) (ha : c.applied = false)
    (hg : Awaited cfg c → s.transfer = .idle) :
    Inv cfg k ((s.applyAt c.node (c.command r)).setCall i { c with applied := true }) := by
  have hc := h.calls c (List.mem_of_getElem? hi)
  refine (h.applyAt c.node (hc.command_puts hr)).setCall i
    ⟨hc.op,hc.puts,hc.request,by simp [hr],fun _ => rfl,fun _ => rfl⟩ (fun hst q hq => ?_)
  obtain ⟨hnode,hkey,_,hfail⟩ := hst
  obtain rfl : r = q := Option.some.inj (hr.symm.trans hq)
  obtain ⟨hne,hv⟩ := hc.request r hr
  have hanswer : c.answer = none := by
    cases hans : c.answer with
    | none => rfl
    | some err =>
      cases err with
      | none => exact absurd (hc.succeeded hans) (by simp [ha])
      | some e => exact absurd hans (hfail e)
  have hidle := hg ⟨hnode,hc.puts hkey,hanswer,by simp [hr, hv hkey]⟩
  simp only [Kept, show (s.applyAt c.node (c.command r)).transfer = .idle from hidle]
  intro _
  have hle := Store.le_versionOf_apply (s.store cfg.a) (c.command r) hne hc.op
  simpa [State.applyAt, show c.node = cfg.a from hnode, ← show c.key = k from hkey, Call.command] using hle

/-- The snapshot takes over what the old primary has. -/
private theorem Inv.snapshot {cfg : Setting} {k : Key} {s : State} (h : Inv cfg k s)
    {dataOrder tombstoneOrder : List Key} (ht : s.transfer = .idle) (hdrop : s.drop = .idle)
    (hd : Store.Enumerates dataOrder ((s.store cfg.a).dataSet cfg.v))
    (hm : Store.Enumerates tombstoneOrder ((s.store cfg.a).tombstoneSet cfg.v)) :
    Inv cfg k { s with transfer := .streaming ((s.store cfg.a).snapshotVNode cfg.v dataOrder tombstoneOrder) } where
  placement := h.placement
  calls := h.calls
  plain := h.plain
  source := h.source
  entries es hes e he hk := by
    cases hes
    exact (h.source hdrop).snapshot hm he hk
  kept c hc hst r hr := by
    have hle := h.kept c hc hst r hr
    simp only [Kept, ht] at hle
    have hne : (s.store cfg.a).versionOf k ≠ 0 := by
      intro hz
      have hzero := hle hdrop
      rw [hz] at hzero
      exact ((h.calls c hc).request r hr).1 (UInt64.le_zero_iff.mp hzero)
    obtain ⟨e,he,hek,hev⟩ := (h.source hdrop).mem_snapshot tombstoneOrder hd hne
    exact .inr ⟨e,he,hek,hev ▸ hle hdrop⟩

private theorem entryCommand_puts {v : UInt16} {k : Key} {e : Store.Entry}
    (he : e.key = k → e.tombstone = false ∧ e.version ≠ 0) : Store.Puts (entryCommand v e) v k := by
  intro hk
  obtain ⟨ht,hv⟩ := he hk
  exact ⟨by simp [entryCommand, ht],rfl,hv⟩

/-- An entry moves from the stream into the store. -/
private theorem Inv.applyEntry {cfg : Setting} {k : Key} {s : State} (h : Inv cfg k s) {e : Store.Entry}
    {es : List Store.Entry} (ht : s.transfer = .streaming (e::es)) :
    Inv cfg k { s.applyAt cfg.b (entryCommand cfg.v e) with transfer := .streaming es } := by
  have hentries := h.entries _ ht
  have hputs := entryCommand_puts (v := cfg.v) (hentries e List.mem_cons_self)
  have happ := h.applyAt cfg.b hputs
  refine ⟨happ.placement,happ.calls,happ.plain,happ.source,?_,?_⟩
  · intro es' hes'
    cases hes'
    exact fun e' he' => hentries e' (List.mem_cons_of_mem _ he')
  · intro c hc hst r hr
    have hle := happ.kept c hc hst r hr
    simp only [Kept, show (s.applyAt cfg.b (entryCommand cfg.v e)).transfer = .streaming (e::es) from ht] at hle
    rcases hle with hle | ⟨e',he',hk',hle⟩
    · exact .inl hle
    · rcases List.mem_cons.mp he' with rfl | he'
      · obtain ⟨hop,_,hv⟩ := hputs hk'
        have hstored := Store.le_versionOf_apply (s.store cfg.b) (entryCommand cfg.v e') hv (.inl hop)
        refine .inl (UInt64.le_trans hle ?_)
        simpa [State.applyAt, ← hk', entryCommand] using hstored
      · exact .inr ⟨e',he',hk',hle⟩

/-- Once the drop has begun, what the old primary does to its store is of no account. -/
private theorem Inv.dropping {cfg : Setting} {k : Key} {s s' : State} (h : Inv cfg k s)
    (hb : s'.store cfg.b = s.store cfg.b) (hp : s'.placement = s.placement) (hc : s'.calls = s.calls)
    (ht : s'.transfer = s.transfer) (hd : s'.drop ≠ .idle) : Inv cfg k s' where
  placement := hp ▸ h.placement
  calls := hc ▸ h.calls
  plain := hb ▸ h.plain
  source hd' := absurd hd' hd
  entries := ht ▸ h.entries
  kept c hmem hst r hr := by
    have hle := h.kept c (hc ▸ hmem) hst r hr
    simp only [Kept, ht, hb] at hle ⊢
    cases htr : s.transfer with
    | idle => exact fun hd' => absurd hd' hd
    | streaming es | done => simpa only [htr] using hle
    | failed => trivial

theorem step_inv {cfg : Setting} (hab : cfg.a ≠ cfg.b) {k : Key}
    (hold : cfg.old.getVNodeIDForKey cfg.hashKey k = cfg.v) (hnew : cfg.new.getVNodeIDForKey cfg.hashKey k = cfg.v)
    {s s' : State} {e : Event} (h : Inv cfg k s) (hg : Ordered cfg s e) (hd : ∀ n, e ≠ .delete n k)
    (hs : s.step cfg e = some s') : Inv cfg k s' := by
  cases step_fires hs with
  | put node key value => exact h.arrive (.inl rfl) (fun _ => rfl)
  | delete node key => exact h.arrive (.inr rfl) (fun hk => absurd (hk ▸ rfl) (hd node))
  | @draw i c now hi hr ha => exact h.draw hold hnew hi hr (hg.2.2 c.node (by simp [drawing, hi]))
  | @apply i c r hi hr ha => exact h.apply hi hr ha (hg.1 c hi)
  | @fail i c err hi ha =>
    have hc := h.calls c (List.mem_of_getElem? hi)
    exact h.setCall i ⟨hc.op,hc.puts,hc.request,hc.requested,hc.replicated,by simp⟩
      (fun hst => absurd rfl (hst.2.2.2 _))
  | @replicate i c _ _ _ _ rep hi ha =>
    have hc := h.calls c (List.mem_of_getElem? hi)
    exact h.setCall i ⟨hc.op,hc.puts,hc.request,hc.requested,fun _ => ha,hc.succeeded⟩
      (fun hst => h.kept c (List.mem_of_getElem? hi) hst)
  | @quorum i c rep e rep' hi hrep =>
    have hc := h.calls c (List.mem_of_getElem? hi)
    exact h.setCall i ⟨hc.op,hc.puts,hc.request,hc.requested,fun _ => hc.replicated (by simp [hrep]),hc.succeeded⟩
      (fun hst => h.kept c (List.mem_of_getElem? hi) hst)
  | @deliver i c r rep t rep' hi hr hrep =>
    have hc := h.calls c (List.mem_of_getElem? hi)
    rw [Call.replicated_eq hc.op]
    have happ := h.applyAt t (hc.command_puts hr)
    exact happ.setCall i ⟨hc.op,hc.puts,hc.request,hc.requested,fun _ => hc.replicated (by simp [hrep]),hc.succeeded⟩
      (fun hst => happ.kept c (List.mem_of_getElem? hi) hst)
  | @answer i c rep err hi hrep ha =>
    have hc := h.calls c (List.mem_of_getElem? hi)
    refine h.setCall i ⟨hc.op,hc.puts,hc.request,hc.requested,hc.replicated,fun _ => hc.replicated (by simp [hrep])⟩
      (fun hst => h.kept c (List.mem_of_getElem? hi) ⟨hst.1,hst.2.1,hst.2.2.1,by simp [ha]⟩)
  | install n =>
    refine ⟨fun m => ?_,h.calls,h.plain,h.source,h.entries,h.kept⟩
    by_cases hm : m = n
    · exact .inr (by simp [hm])
    · simpa [hm] using h.placement m
  | snapshot ht hdata hm => exact h.snapshot ht (hg.2.1 rfl) hdata hm
  | applyEntry ht => exact h.applyEntry ht
  | endTransfer ht =>
    refine ⟨h.placement,h.calls,h.plain,h.source,by simp,fun c hc hst r hr => ?_⟩
    have hle := h.kept c hc hst r hr
    simpa [Kept, ht] using hle
  | transferFails => exact ⟨h.placement,h.calls,h.plain,h.source,by simp,fun _ _ _ _ _ => trivial⟩
  | beginDrop order => exact h.dropping rfl rfl rfl rfl (by simp)
  | dropVersion now _ => exact h.dropping rfl rfl rfl rfl (by simp)
  | dropKey _ => exact h.dropping (by simp [applyAt, hab.symm]) rfl rfl rfl (by simp)
  | wipe => exact h.dropping (by simp [hab.symm]) rfl rfl rfl (by simp)
  | dropFails => exact h.dropping rfl rfl rfl rfl (by simp)

/-- When the old primary applies its puts before the snapshot and drops only after it,
every put it has answered is with the new primary once the transfer has succeeded. -/
theorem transfer_keeps_acknowledged (cfg : Setting) (hab : cfg.a ≠ cfg.b) (store : NodeID → Store)
    (versionCounter : NodeID → UInt64) (es : List Event) (s : State)
    (hg : Machine.Meets (step cfg) (Ordered cfg) (init cfg store versionCounter) es)
    (hr : Machine.run (step cfg) (init cfg store versionCounter) es = some s) (ht : s.transfer = .done) (k : Key)
    (hold : cfg.old.getVNodeIDForKey cfg.hashKey k = cfg.v) (hnew : cfg.new.getVNodeIDForKey cfg.hashKey k = cfg.v)
    (ha : (store cfg.a).Plain cfg.v k) (hb : (store cfg.b).Plain cfg.v k) (hd : ∀ e ∈ es, ∀ n, e ≠ .delete n k)
    (c : Call) (hc : c ∈ s.calls) (hnode : c.node = cfg.a) (hkey : c.key = k) (hok : c.answer = some none) :
    ∃ vnodeID n, c.request = some (vnodeID,n) ∧
      ∃ value version, (s.store cfg.b).getWithVersion k = .ok (value,version) ∧ n ≤ version := by
  have h : Inv cfg k s := by
    refine Machine.run_invariant_of_meets (G := fun s e => Ordered cfg s e ∧ ∀ n, e ≠ .delete n k)
      (fun _ _ _ hi hg hs => step_inv hab hold hnew hi hg.1 hg.2 hs) (init_inv ha hb versionCounter) ?_ hr
    exact hg.and (Machine.meets_of_forall _ hd)
  have hcall := h.calls c hc
  have happlied := hcall.succeeded hok
  obtain ⟨⟨vnodeID,n⟩,hreq⟩ := Option.isSome_iff_exists.mp (hcall.requested happlied)
  have hkept := h.kept c hc ⟨hnode,hkey,happlied,by simp [hok]⟩ _ hreq
  simp only [Kept, ht] at hkept
  exact ⟨vnodeID,n,hreq,h.plain.getWithVersion (hcall.request _ hreq).1 hkept⟩

private theorem sample_vnodeID (epoch : UInt64) (primary : NodeID) :
    (heldBy epoch primary ["node-3"]).getVNodeIDForKey (fun _ => 0) sampleKey = 0 := by
  rw [(heldBy_ring epoch).getVNodeIDForKey]
  decide

def sampleSetting : Setting where
  hashKey _ := 0
  replicationFactor := 2
  a := "node-1"
  b := "node-2"
  v := 0
  old := heldBy 1 "node-1" ["node-3"]
  new := heldBy 2 "node-2" ["node-3"]

def sampleInit : State := init sampleSetting (fun _ => newStore) (fun _ => 0)

/-- The write is applied at the replica and acknowledged. -/
def replicated : List Event :=
  [.replicate 0 (some 3) none false (fun _ => .ok),.quorum 0 .submit,.deliver 0 "node-3",.quorum 0 (.done 0),
   .quorum 0 .take,.answer 0]

/-- The old primary deletes the key and wipes the vnode. -/
def dropped : List Event := [.install "node-1",.beginDrop [sampleKey],.dropVersion 9,.dropKey,.wipe]

/-- The put is applied before the snapshot. -/
def orderedRun : List Event :=
  [.put "node-1" sampleKey nilValue,.draw 0 5,.install "node-2",.apply 0,.snapshot [sampleKey] []] ++ replicated ++
    [.applyEntry,.endTransfer] ++ dropped

/-- The put has passed the ownership check, but the snapshot comes first. -/
def overtakenRun : List Event :=
  [.put "node-1" sampleKey nilValue,.draw 0 5,.install "node-2",.snapshot [] [],.apply 0] ++ replicated ++
    [.endTransfer] ++ dropped

private theorem orderedRun_isSome : (Machine.run (step sampleSetting) sampleInit orderedRun).isSome := by
  decide +kernel

private theorem orderedRun_done :
    ∃ s, Machine.run (step sampleSetting) sampleInit orderedRun = some s ∧ s.transfer = .done ∧
      ∃ c ∈ s.calls, c.node = "node-1" ∧ c.key = sampleKey ∧ c.answer = some none :=
  ⟨_,(Option.some_get orderedRun_isSome).symm,by decide +kernel⟩

private theorem orderedRun_ordered : Machine.Meets (step sampleSetting) (Ordered sampleSetting) sampleInit orderedRun := by
  decide +kernel

theorem transfer_keeps_acknowledged_sample :
    ∃ s, Machine.run (step sampleSetting) sampleInit orderedRun = some s ∧ s.transfer = .done ∧
      ∃ c ∈ s.calls, ∃ vnodeID n, c.request = some (vnodeID,n) ∧
        ∃ value version, (s.store "node-2").getWithVersion sampleKey = .ok (value,version) ∧ n ≤ version := by
  obtain ⟨s,hr,ht,c,hc,hnode,hkey,hok⟩ := orderedRun_done
  refine ⟨s,hr,ht,c,hc,?_⟩
  exact transfer_keeps_acknowledged sampleSetting (by decide) (fun _ => newStore) (fun _ => 0) orderedRun s
    orderedRun_ordered hr ht sampleKey (sample_vnodeID 1 _) (sample_vnodeID 2 _) (Store.plain_newStore _ _)
    (Store.plain_newStore _ _) (by simp [orderedRun, replicated, dropped]) c hc hnode hkey hok

private theorem overtakenRun_isSome : (Machine.run (step sampleSetting) sampleInit overtakenRun).isSome := by
  decide +kernel

/-- The put is answered without an error, all activities are through, and the new
primary does not have the key. -/
theorem acknowledged_put_lost :
    ∃ s, Machine.run (step sampleSetting) sampleInit overtakenRun = some s ∧ s.transfer = .done ∧
      s.drop = .finished ∧
      (∃ c ∈ s.calls, c.node = "node-1" ∧ c.op = opPut ∧ c.key = sampleKey ∧ c.request = some (0,5) ∧
        c.answer = some none) ∧
      (s.store "node-2").getWithVersion sampleKey = .error errKeyNotFound := by
  refine ⟨_,(Option.some_get overtakenRun_isSome).symm,?_⟩
  decide +kernel

end State

end Nawst.Cluster.Handoff
