import Nawst.Core.Recovery

/-! The server in front of the loop: it versions client writes from a counter and the
clock, passes on what other nodes have versioned, and starts over from its log. -/
namespace Nawst.Core
open Lib Wal EventLoop

/-- The successful round of the compare-and-swap loop, with its clock reading. -/
def nextVersion (cur now : UInt64) : UInt64 := if now ≤ cur then cur+1 else now

/-- Only a counter at its maximum wraps around; any other goes up. -/
theorem lt_nextVersion {cur : UInt64} (h : cur.toNat+1 < 2^64) (now : UInt64) : cur < nextVersion cur now := by
  unfold nextVersion
  split
  · have hadd : (cur+1).toNat = (cur.toNat+1) % 2^64 := by simp
    rw [UInt64.lt_iff_toNat_lt]
    omega
  · rename_i hle
    exact UInt64.not_le.mp hle

theorem nextVersion_ne_zero {cur : UInt64} (h : cur.toNat+1 < 2^64) (now : UInt64) : nextVersion cur now ≠ 0 := by
  intro hz
  have hlt := lt_nextVersion h now
  rw [hz, UInt64.lt_iff_toNat_lt] at hlt
  exact Nat.not_lt_zero _ hlt

/-- A node: its loop, the version counter and the requests on their way to the loop.
Response channels are numbered in the order they are made. -/
structure Server where
  bufferSize : Nat
  loop : Loop
  versionCounter : UInt64
  sending : List Request
  nextChan : Nat
  deriving DecidableEq

namespace Server

/-- A process that has replayed its log. -/
def init (batchSize : Int) (mode : AckMode) (bufferSize : Nat) (old : List Command) : Server :=
  ⟨bufferSize,EventLoop.init batchSize mode bufferSize old,0,[],0⟩

/-- The request of a put, a delete or a stream item that reads the clock. -/
def request (s : Server) (op : OpType) (key : Key) (value : Value) (vnodeID : UInt16) (now : UInt64) : Request :=
  ⟨op,key,value,vnodeID,nextVersion s.versionCounter now,s.nextChan⟩

inductive Event where
  | write (op : OpType) (key : Key) (value : Value) (vnodeID : UInt16) (now : UInt64)
  | replicate (op : OpType) (key : Key) (value : Value) (vnodeID : UInt16) (version now : UInt64)
  | forward (op : OpType) (key : Key) (value : Value) (vnodeID : UInt16) (version : UInt64)
  | deliver (i : Nat)
  | loop (e : Loop.Event)
  | restart (batchSize : Int) (mode : AckMode) (old : List Command)
  deriving DecidableEq

def send (s : Server) (req : Request) : Server :=
  { s with sending := s.sending ++ [req], nextChan := s.nextChan+1 }

/-- A client write draws its version. -/
def write (s : Server) (op : OpType) (key : Key) (value : Value) (vnodeID : UInt16) (now : UInt64) : Server :=
  { s.send (s.request op key value vnodeID now) with versionCounter := nextVersion s.versionCounter now }

/-- Items of replication batches, transferred entries and reads keep the version they
come with. -/
def forward (s : Server) (op : OpType) (key : Key) (value : Value) (vnodeID : UInt16) (version : UInt64) : Server :=
  s.send ⟨op,key,value,vnodeID,version,s.nextChan⟩

/-- A single replicated command is versioned here only when it has no version. -/
def replicate (s : Server) (op : OpType) (key : Key) (value : Value) (vnodeID : UInt16) (version now : UInt64) :
    Server :=
  if version ≠ 0 then s.forward op key value vnodeID version else s.write op key value vnodeID now

/-- A file of whole records that a crash can leave behind. -/
def Leaves (s : Server) (old : List Command) : Prop :=
  Survives s.loop.writer .process (encodeAll old) ∨ Survives s.loop.writer .machine (encodeAll old)

instance (s : Server) (old : List Command) : Decidable (s.Leaves old) :=
  inferInstanceAs (Decidable (_ = _ ∨ _ <+: _ ∧ _ ≤ _))

def step (s : Server) : Event → Option Server
  | .write op key value vnodeID now => some (s.write op key value vnodeID now)
  | .replicate op key value vnodeID version now => some (s.replicate op key value vnodeID version now)
  | .forward op key value vnodeID version => some (s.forward op key value vnodeID version)
  | .deliver i => do
    let req ← s.sending[i]?
    let loop ← s.loop.step (.receive req)
    return { s with loop := loop, sending := s.sending.eraseIdx i }
  | .loop (.receive _) => none
  | .loop e => (s.loop.step e).map (fun loop => { s with loop := loop })
  | .restart batchSize mode old =>
    -- A startup that cannot replay its file panics.
    if s.Leaves old ∧ (startup (some (encodeAll old))).isSome then some { s with
      loop := EventLoop.init batchSize mode s.bufferSize old, versionCounter := 0, sending := [] }
    else none

/-- Everything a step can do. -/
inductive Fires (s : Server) : Event → Server → Prop where
  | send {e : Event} (req : Request) (counter : UInt64) (hc : req.responseChan = s.nextChan) :
      Fires s e { s.send req with versionCounter := counter }
  | deliver {i : Nat} {req : Request} {loop : Loop} (hi : s.sending[i]? = some req)
      (hl : s.loop.step (.receive req) = some loop) :
      Fires s (.deliver i) { s with loop := loop, sending := s.sending.eraseIdx i }
  | loop {e : Loop.Event} {loop : Loop} (he : e.write = none) (hl : s.loop.step e = some loop) :
      Fires s (.loop e) { s with loop := loop }
  | restart (batchSize : Int) (mode : AckMode) (old : List Command) :
      Fires s (.restart batchSize mode old) { s with
        loop := EventLoop.init batchSize mode s.bufferSize old, versionCounter := 0, sending := [] }

theorem step_fires {s s' : Server} {e : Event} (hs : s.step e = some s') : Fires s e s' := by
  cases e with
  | write op key value vnodeID now =>
    cases hs
    exact .send (s.request op key value vnodeID now) _ rfl
  | forward op key value vnodeID version =>
    cases hs
    exact .send ⟨op,key,value,vnodeID,version,s.nextChan⟩ s.versionCounter rfl
  | replicate op key value vnodeID version now =>
    cases hs
    unfold replicate
    split
    · exact .send ⟨op,key,value,vnodeID,version,s.nextChan⟩ s.versionCounter rfl
    · exact .send (s.request op key value vnodeID now) _ rfl
  | deliver i =>
    simp only [step, Option.bind_eq_bind, Option.bind_eq_some_iff, Option.pure_def, Option.some.injEq] at hs
    obtain ⟨req,hi,loop,hl,rfl⟩ := hs
    exact .deliver hi hl
  | loop e =>
    cases e with
    | receive req => cases hs
    | _ =>
      simp only [step, Option.map_eq_some_iff] at hs
      obtain ⟨loop,hl,rfl⟩ := hs
      exact .loop rfl hl
  | restart batchSize mode old =>
    simp only [step, Option.ite_none_right_eq_some, Option.some.injEq] at hs
    obtain ⟨_,rfl⟩ := hs
    exact .restart batchSize mode old

/-- Requests carry channels made before, and writes are answered after they are applied. -/
structure Inv (s : Server) : Prop where
  loop : s.loop.Holds (fun r => r.responseChan < s.nextChan)
  sending : ∀ r ∈ s.sending, r.responseChan < s.nextChan
  appliedFirst : s.loop.AppliedFirst

theorem init_inv (batchSize : Int) (mode : AckMode) (bufferSize : Nat) (old : List Command) :
    Inv (init batchSize mode bufferSize old) where
  loop := Loop.init_holds _ batchSize mode bufferSize old
  sending := by simp [init]
  appliedFirst := Loop.init_appliedFirst batchSize mode bufferSize old

theorem step_inv {s s' : Server} {e : Event} (h : Inv s) (hs : s.step e = some s') : Inv s' := by
  cases step_fires hs with
  | send req counter hc =>
    refine ⟨h.loop.mono (fun r hr => Nat.lt_succ_of_lt hr),?_,h.appliedFirst⟩
    exact Machine.forall_mem_concat (fun r hr => Nat.lt_succ_of_lt (h.sending r hr)) (hc ▸ Nat.lt_succ_self _)
  | @deliver i req loop hi hl =>
    have hreq := h.sending req (List.mem_of_getElem? hi)
    refine ⟨Loop.step_holds h.loop ?_ hl,?_,Loop.step_appliedFirst h.appliedFirst hl⟩
    · intro r hr
      simp only [Loop.Event.write, Option.mem_def, Option.ite_none_left_eq_some, Option.some.injEq] at hr
      exact hr.2 ▸ hreq
    · exact fun r hr => h.sending r (List.mem_of_mem_eraseIdx hr)
  | loop he hl =>
    exact ⟨Loop.step_holds h.loop (by simp [he]) hl,h.sending,Loop.step_appliedFirst h.appliedFirst hl⟩
  | restart batchSize mode old =>
    exact ⟨Loop.init_holds _ batchSize mode _ old,by simp,Loop.init_appliedFirst batchSize mode _ old⟩

/-- The process lives on and no vnode is wiped. -/
def Event.Quiet : Event → Prop
  | .restart _ _ _ => False
  | .loop e => e.wiped = none
  | _ => True

instance : (e : Event) → Decidable e.Quiet
  | .restart _ _ _ => isFalse id
  | .loop e => inferInstanceAs (Decidable (e.wiped = none))
  | .write .. | .replicate .. | .forward .. | .deliver _ => isTrue trivial

theorem step_effect {s s' : Server} {e : Event} (he : e.Quiet) (hs : s.step e = some s') :
    ∃ rs, s'.loop.applied = s.loop.applied ++ rs ∧ s'.loop.store = rs.foldl Loop.applyRequest s.loop.store := by
  cases step_fires hs with
  | send req counter hc => exact ⟨[],(List.append_nil _).symm,rfl⟩
  | deliver hi hl => exact Loop.step_effect hl rfl
  | loop _ hl => exact Loop.step_effect hl he
  | restart => exact he.elim

theorem run_effect {s t : Server} {es : List Event} (hes : ∀ e ∈ es, e.Quiet)
    (hr : Machine.run step s es = some t) :
    ∃ rs, t.loop.applied = s.loop.applied ++ rs ∧ t.loop.store = s.loop.store.applyAll (rs.map Request.command) := by
  obtain ⟨rs,ha,hst⟩ := Machine.run_effect (fun _ _ _ he hs => step_effect he hs) hes hr
  exact ⟨rs,ha,hst.trans (Loop.foldl_applyRequest _ rs)⟩

/-- The version drawn is not stale exactly if neither the clock nor the counter's next
value is behind the stored version. A counter that wraps around draws the version 0,
which is never stale. -/
theorem nextVersion_fresh_iff (cur now stored : UInt64) :
    nextVersion cur now = 0 ∨ stored ≤ nextVersion cur now ↔ stored.toNat ≤ max now.toNat (cur.toNat+1) := by
  have hs := stored.toNat_lt
  have hc := cur.toNat_lt
  have hadd : (cur+1).toNat = (cur.toNat+1) % 2^64 := by simp
  unfold nextVersion
  split
  · rename_i hle
    rw [UInt64.le_iff_toNat_le] at hle ⊢
    rw [← UInt64.toNat_inj, hadd, max_eq_right (by omega), UInt64.toNat_zero]
    omega
  · rename_i hle
    rw [UInt64.le_iff_toNat_le] at hle ⊢
    rw [← UInt64.toNat_inj, max_eq_left (by omega), UInt64.toNat_zero]
    omega

/-- A put or delete that was answered, with no other command for its key applied since
it arrived, has taken effect exactly if the version stored at its arrival was not ahead
of both the clock and the counter (or if the store showed it anyway). -/
theorem answered_write_reflected_iff (batchSize : Int) (mode : AckMode) (bufferSize : Nat) (old : List Command)
    (before : List Event) (s : Server)
    (hb : Machine.run step (init batchSize mode bufferSize old) before = some s) (op : OpType)
    (hop : op = opPut ∨ op = opDelete) (key : Key) (value : Value) (vnodeID : UInt16) (now : UInt64)
    (es : List Event) (hes : ∀ e ∈ es, e.Quiet) (t : Server)
    (hr : Machine.run step s (.write op key value vnodeID now :: es) = some t) (resp : Response)
    (hresp : (s.request op key value vnodeID now,resp) ∈ t.loop.responses)
    (hother : ∀ r ∈ t.loop.applied.drop s.loop.applied.length,
      r.key = key → r.command = (s.request op key value vnodeID now).command) :
    t.loop.store.Reflects (s.request op key value vnodeID now).command ↔
      (s.loop.store.versionOf key).toNat ≤ max now.toNat (s.versionCounter.toNat+1) ∨
        s.loop.store.Reflects (s.request op key value vnodeID now).command := by
  have hs : Inv s :=
    Machine.run_invariant (fun _ _ _ hi hs => step_inv hi hs) (init_inv batchSize mode bufferSize old) hb
  have ht : Inv t := Machine.run_invariant (fun _ _ _ hi hs => step_inv hi hs) hs hr
  obtain ⟨s',hw,hr'⟩ := Machine.run_cons.mp hr
  cases hw
  obtain ⟨rs,ha,hst⟩ := run_effect hes hr'
  change t.loop.applied = s.loop.applied ++ rs at ha
  change t.loop.store = s.loop.store.applyAll _ at hst
  have hne : op ≠ opGet := by rcases hop with rfl | rfl <;> decide
  have hmem : s.request op key value vnodeID now ∈ rs := by
    have hall := ht.appliedFirst.answered _ hresp hne
    rw [ha] at hall
    -- The channel is new, so that the request was not among those applied before.
    exact (List.mem_append.mp hall).resolve_left (fun hold => Nat.lt_irrefl _ (hs.loop.applied _ hold))
  rw [ha, List.drop_left] at hother
  rw [hst, ← nextVersion_fresh_iff]
  refine Store.applyAll_reflects_iff hop (List.mem_map_of_mem hmem) (fun c hc hk => ?_)
  obtain ⟨r,hrs,rfl⟩ := List.mem_map.mp hc
  exact hother r hrs hk

def sampleValue (b : UInt8) : Value := .singleton b

/-- The loop takes the first request in line and serves it without waiting for the log. -/
def served : List Event := [.deliver 0,.loop .advance,.loop .advance,.loop .advance]

theorem answered_write_reflected_sample :
    ∃ s t, Machine.run step (init 1 .afterEnqueue 64 []) (.forward opPut sampleKey (sampleValue 1) 7 100 :: served) =
        some s ∧ Machine.run step s (.write opPut sampleKey (sampleValue 2) 7 150 :: served) = some t ∧
      t.loop.store.Reflects (s.request opPut sampleKey (sampleValue 2) 7 150).command := by
  refine ⟨_,_,rfl,rfl,?_⟩
  refine (answered_write_reflected_iff 1 .afterEnqueue 64 [] (.forward opPut sampleKey (sampleValue 1) 7 100 :: served) _
    rfl opPut (.inl rfl) sampleKey (sampleValue 2) 7 150 served (by decide) _ rfl ⟨opPut,nilValue,none,0⟩ (by decide)
    (by decide)).mpr (.inl (by decide))

/-- Another node's clock was ahead: the put is answered without an error and ignored. -/
theorem answered_put_ignored :
    ∃ s t, Machine.run step (init 1 .afterEnqueue 64 []) (.forward opPut sampleKey (sampleValue 1) 7 100 :: served) =
        some s ∧ Machine.run step s (.write opPut sampleKey (sampleValue 2) 7 50 :: served) = some t ∧
      (s.request opPut sampleKey (sampleValue 2) 7 50,⟨opPut,nilValue,none,0⟩) ∈ t.loop.responses ∧
      t.loop.applied.drop s.loop.applied.length = [s.request opPut sampleKey (sampleValue 2) 7 50] ∧
      t.loop.store.getWithVersion sampleKey = .ok (sampleValue 1,100) := by
  refine ⟨_,_,rfl,rfl,?_,?_,?_⟩ <;> decide

end Server
end Nawst.Core
