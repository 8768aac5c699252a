import Nawst.Core.LoopOrder
import Nawst.Core.Server
import Nawst.Core.StoreIndex
import Nawst.Cluster.Placement

/-! Receiving what other nodes replicate: messages that come one by one, and batches of them. -/
namespace Nawst.Cluster.Replicate
open Lib Nawst.Core Wal EventLoop

def errInvalidOperationType : Err := "Invalid operation type for replication"

section Receive
variable (hashKey : Key → UInt64) (pl : Option Placement)

/-- The request that a single message becomes. A vnode that is missing is looked up in the
placement, and a missing version is the one drawn. -/
def replicateRequest (m : ReplicationRequest) (next : UInt64) (respCh : Nat) : Except Err Request :=
  let request (op : OpType) : Request :=
    { op := op
      key := m.key
      value := m.value
      vnodeID := if m.vnodeID ≠ 0 then m.vnodeID.toUInt16 else getVNodeForKey hashKey pl m.key
      version := if m.version ≠ 0 then m.version else next
      responseChan := respCh }
  match m.op with
  | .put => .ok (request opPut)
  | .delete => .ok (request opDelete)
  | _ => .error errInvalidOperationType

/-- The requests of a batch, without the items that are nil. -/
def pendingReqs (items : List (Option ReplicationRequest)) (respCh : Nat) : List Request :=
  items.reduceOption.zipIdx.map (fun p => p.1.pendingReq (respCh+p.2))

/-- The store once the loop has applied the writes among the requests. -/
def served (s : Store) (reqs : List Request) : Store :=
  (reqs.filter (fun r => r.op ≠ opGet)).foldl Loop.applyRequest s

/-- A message with the version that is drawn if it has none. -/
abbrev Arrival := ReplicationRequest × UInt64

/-- The store after a single message; none is a message that is rejected. -/
def replicate (s : Store) (a : Arrival) : Option Store :=
  (replicateRequest hashKey pl a.1 a.2 0).toOption.map (fun req => served s [req])

/-- The store after a batch. -/
def replicateBatch (s : Store) (items : List (Option ReplicationRequest)) : Store := served s (pendingReqs items 0)

end Receive

/-- A loop with nothing left to apply has served what it has received meanwhile. -/
theorem loop_serves {batchSize : Int} {mode : AckMode} {bufferSize : Nat} {old : List Command} {es fs : List Loop.Event}
    {s t : Loop} (hs : Machine.run Loop.step (init batchSize mode bufferSize old) es = some s)
    (hr : Machine.run Loop.step s fs = some t) (hfs : ∀ e ∈ fs, e.wiped = none) (hidle : s.toApply = [])
    (hdone : t.toApply = []) : t.store = served s.store (Loop.received fs) := by
  rw [Loop.run_store hs hr hfs hidle hdone, Loop.writes_eq_filter, served]

/-- A message that asks for a write. -/
def IsWrite (m : ReplicationRequest) : Prop := m.op = .put ∨ m.op = .delete

instance (m : ReplicationRequest) : Decidable (IsWrite m) := inferInstanceAs (Decidable (_ ∨ _))

theorem IsWrite.op {m : ReplicationRequest} (h : IsWrite m) (respCh : Nat) :
    (m.pendingReq respCh).op = opPut ∨ (m.pendingReq respCh).op = opDelete := by
  rcases h with h | h <;> simp [ReplicationRequest.pendingReq, h]

section Convert
variable (hashKey : Key → UInt64) (pl : Option Placement)

/-- The two conversions of a write differ in what the message lacks only. -/
theorem replicateRequest_write {m : ReplicationRequest} (h : IsWrite m) (next : UInt64) (respCh : Nat) :
    replicateRequest hashKey pl m next respCh = .ok { m.pendingReq respCh with
      vnodeID := if m.vnodeID ≠ 0 then m.vnodeID.toUInt16 else getVNodeForKey hashKey pl m.key
      version := if m.version ≠ 0 then m.version else next } := by
  obtain ⟨op,key,value,vnodeID,version⟩ := m
  rcases h with h | h <;> cases h <;> rfl

/-- The server sends on a single message as it is converted, with the version it draws. -/
theorem replicate_sends (srv : Server) {m : ReplicationRequest} (h : IsWrite m) (now : UInt64) :
    ∃ req, replicateRequest hashKey pl m (nextVersion srv.versionCounter now) srv.nextChan = .ok req ∧
      (srv.replicate req.op m.key m.value req.vnodeID m.version now).sending = srv.sending ++ [req] := by
  refine ⟨_,replicateRequest_write hashKey pl h _ _,?_⟩
  unfold Server.replicate
  by_cases hv : m.version = 0
  · simp [hv, Server.write, Server.send, Server.request, ReplicationRequest.pendingReq]
  · simp [hv, Server.forward, Server.send, ReplicationRequest.pendingReq]

/-- And the items of a batch as they are. -/
theorem forward_sends (srv : Server) (m : ReplicationRequest) :
    let req := m.pendingReq srv.nextChan
    (srv.forward req.op req.key req.value req.vnodeID req.version).sending = srv.sending ++ [req] := rfl

end Convert

section Agree
variable (hashKey : Key → UInt64) (pl : Option Placement)

/-- In the store before the message nothing depends on what the message lacks: a version that
is drawn is the one the store would give, and a vnode that is looked up is the first one, or
the message is stale, or its key is filed in both vnodes. -/
def Alike (s : Store) (a : Arrival) : Prop :=
  let cmd := (a.1.pendingReq 0).command
  let vnode := getVNodeForKey hashKey pl a.1.key
  (a.1.version ≠ 0 ∨ a.2 = 0 ∨ a.2 = s.versionOf a.1.key+1) ∧
  (a.1.vnodeID ≠ 0 ∨ vnode = 0 ∨ (a.1.version ≠ 0 ∧ a.1.version < s.versionOf a.1.key) ∨
    s.Filed cmd vnode ∧ s.Filed cmd 0)

instance (s : Store) (a : Arrival) : Decidable (Alike hashKey pl s a) := inferInstanceAs (Decidable (_ ∧ _))

variable {hashKey pl} {s : Store} {a : Arrival}

theorem served_write {req : Request} (h : req.op = opPut ∨ req.op = opDelete) : served s [req] = (s.apply req.command).1 := by
  have hop : req.op ≠ opGet := by rcases h with h | h <;> rw [h] <;> decide
  simp [served, hop, Loop.applyRequest]

/-- Both ways the message becomes a command, with its own vnode and version or what replaces
them. -/
theorem replicate_eq (h : IsWrite a.1) : replicate hashKey pl s a =
    some (s.apply { (a.1.pendingReq 0).command with
      vnodeID := if a.1.vnodeID ≠ 0 then a.1.vnodeID.toUInt16 else getVNodeForKey hashKey pl a.1.key
      version := if a.1.version ≠ 0 then a.1.version else a.2 }).1 := by
  rw [replicate, replicateRequest_write hashKey pl h]
  exact congrArg some (served_write (h.op 0))

theorem replicateBatch_single (h : IsWrite a.1) :
    replicateBatch s [some a.1] = (s.apply (a.1.pendingReq 0).command).1 :=
  served_write (h.op 0)

/-- A version that is drawn shows in the store, unless it is the one the store would give. -/
theorem next_of_apply_eq (cmd cmd' : Command) (hop : cmd.op = opPut ∨ cmd.op = opDelete) {next : UInt64}
    (hsame : cmd'.op = cmd.op ∧ cmd'.key = cmd.key) (hz : cmd'.version = 0)
    (h : (s.apply { cmd with version := next }).1 = (s.apply cmd').1) : next = 0 ∨ next = s.versionOf cmd.key+1 := by
  obtain ⟨hsop,hkey⟩ := hsame
  rw [← Store.versionOf_apply_next_iff hop, h, ← hkey, Store.versionOf_apply_key (hsop ▸ hop) (.inl hz), Store.stamp, if_pos hz]

theorem apply_version_eq (cmd : Command) {next : UInt64}
    (h : cmd.version ≠ 0 ∨ next = 0 ∨ next = s.versionOf cmd.key+1) :
    s.apply { cmd with version := if cmd.version ≠ 0 then cmd.version else next } = s.apply cmd := by
  by_cases hz : cmd.version = 0
  · rw [if_neg (not_not.mpr hz), Store.apply_next (h.resolve_left (not_not.mpr hz)), ← hz]
  · rw [if_pos hz]

/-- A message and the batch of it alone leave the same store exactly if nothing depends on what
it lacks. -/
theorem replicate_eq_batch_iff (h : IsWrite a.1) :
    replicate hashKey pl s a = some (replicateBatch s [some a.1]) ↔ Alike hashKey pl s a := by
  let cmd := (a.1.pendingReq 0).command
  let vnode := if a.1.vnodeID ≠ 0 then a.1.vnodeID.toUInt16 else getVNodeForKey hashKey pl a.1.key
  have hop : cmd.op = opPut ∨ cmd.op = opDelete := h.op 0
  have hvnode : (s.apply { cmd with vnodeID := vnode }).1 = (s.apply cmd).1 ↔
      a.1.vnodeID ≠ 0 ∨ getVNodeForKey hashKey pl a.1.key = 0 ∨ (a.1.version ≠ 0 ∧ a.1.version < s.versionOf a.1.key) ∨
        s.Filed cmd (getVNodeForKey hashKey pl a.1.key) ∧ s.Filed cmd 0 := by
    have hstale : ¬ s.Takes cmd ↔ a.1.version ≠ 0 ∧ a.1.version < s.versionOf a.1.key :=
      not_or.trans (and_congr_right (fun _ => UInt64.not_le))
    have hiff : (s.apply { cmd with vnodeID := vnode }).1 = (s.apply { cmd with vnodeID := cmd.vnodeID }).1 ↔ _ :=
      Store.apply_vnode_eq_iff hop
    refine hiff.trans ?_
    rw [hstale]
    by_cases hz : a.1.vnodeID = 0
    · have hlooked : vnode = getVNodeForKey hashKey pl a.1.key := if_neg (not_not.mpr hz)
      have hzero : (a.1.pendingReq 0).vnodeID = 0 := congrArg UInt32.toUInt16 hz
      rw [hlooked, hzero]
      simp [hz]
    · have hown : vnode = (a.1.pendingReq 0).vnodeID := if_pos hz
      simp [hown, hz]
  rw [replicate_eq h, replicateBatch_single h, Option.some.injEq, Alike]
  constructor
  · intro heq
    have hversion : a.1.version ≠ 0 ∨ a.2 = 0 ∨ a.2 = s.versionOf a.1.key+1 := by
      by_cases hz : a.1.version = 0
      · rw [if_neg (not_not.mpr hz)] at heq
        exact .inr (next_of_apply_eq { cmd with vnodeID := vnode } cmd hop ⟨rfl,rfl⟩ hz heq)
      · exact .inl hz
    have hfilled := congrArg Prod.fst (apply_version_eq { cmd with vnodeID := vnode } hversion)
    exact ⟨hversion,hvnode.mp (hfilled.symm.trans heq)⟩
  · rintro ⟨hversion,hother⟩
    have hfilled := congrArg Prod.fst (apply_version_eq { cmd with vnodeID := vnode } hversion)
    exact hfilled.trans (hvnode.mpr hother)

theorem served_eq (s : Store) (reqs : List Request) :
    served s reqs = s.applyAll ((reqs.map Request.command).filter (fun c => c.op ≠ opGet)) := by
  rw [served, Loop.foldl_applyRequest, List.filter_map]
  rfl

/-- The store does not depend on the response channels. -/
theorem replicateBatch_eq (s : Store) (items : List (Option ReplicationRequest)) : replicateBatch s items =
    s.applyAll ((items.reduceOption.map (fun m => (m.pendingReq 0).command)).filter (fun c => c.op ≠ opGet)) := by
  have hcommands : (pendingReqs items 0).map Request.command =
      items.reduceOption.map (fun m => (m.pendingReq 0).command) := by
    conv_rhs => rw [← List.zipIdx_map_fst 0 items.reduceOption, List.map_map]
    rw [pendingReqs, List.map_map]
    rfl
  rw [replicateBatch, served_eq, hcommands]

/-- The items of a batch are served one after the other. -/
theorem replicateBatch_cons (s : Store) (m : ReplicationRequest) (items : List (Option ReplicationRequest)) :
    replicateBatch s (some m::items) = replicateBatch (replicateBatch s [some m]) items := by
  have hsplit : (some m::items).reduceOption = [some m].reduceOption ++ items.reduceOption := rfl
  simp only [replicateBatch_eq, hsplit, List.map_append, List.filter_append, Store.applyAll_append]

variable (hashKey pl)

/-- A message and the batch of it alone leave the same store exactly if nothing depends on what
it lacks. Where that is so of every message in its turn, a whole batch leaves the store that
its messages leave one by one. -/
theorem replication_agrees_iff :
    (∀ (s : Store) (a : Arrival), IsWrite a.1 →
      (replicate hashKey pl s a = some (replicateBatch s [some a.1]) ↔ Alike hashKey pl s a)) ∧
    ∀ (s : Store) (as : List Arrival), (∀ a ∈ as, IsWrite a.1) →
      Machine.Meets (replicate hashKey pl) (Alike hashKey pl) s as →
      Machine.run (replicate hashKey pl) s as = some (replicateBatch s (as.map (fun a => some a.1))) := by
  refine ⟨fun s a h => replicate_eq_batch_iff h,fun s as has hmeets => ?_⟩
  induction as generalizing s with
  | nil => rfl
  | cons a as ih =>
    obtain ⟨ha,has⟩ := List.forall_mem_cons.mp has
    have hstep := (replicate_eq_batch_iff ha).mpr hmeets.1
    rw [List.map_cons, replicateBatch_cons]
    exact Machine.run_cons.mpr ⟨_,hstep,ih _ has ((Machine.meets_cons hstep).mp hmeets).2⟩

/-- A put that comes with everything, and a delete that is given the next version. -/
theorem replication_agrees_iff_sample :
    let as : List Arrival := [(⟨.put,.singleton 107,.singleton 118,5,7⟩,0),(⟨.delete,.singleton 107,nilValue,5,0⟩,8)]
    (∀ a ∈ as, IsWrite a.1) ∧
      Machine.run (replicate (fun _ => 0) none) newStore as = some (replicateBatch newStore (as.map (fun a => some a.1))) :=
  ⟨by decide,(replication_agrees_iff (fun _ => 0) none).2 newStore _ (by decide) (by decide)⟩

/-- A put without its vnode and one without a version, at a node where the key is in the vnode
512: the batch files the first in vnode 0 and gives the second the store's next version. -/
theorem missing_fields_differ :
    let hashKey : Key → UInt64 := fun _ => 9223372036854775808
    let key : Key := .singleton 107
    let unplaced : ReplicationRequest := ⟨.put,key,.singleton 118,0,7⟩
    let unversioned : ReplicationRequest := ⟨.put,key,.singleton 118,5,0⟩
    (∃ s, replicate hashKey (some (heldBy 1 "a" [])) newStore (unplaced,9) = some s ∧ s.dataSet 512 = {key} ∧
      (replicateBatch newStore [some unplaced]).dataSet 512 = ∅) ∧
    ∃ s, replicate hashKey (some (heldBy 1 "a" [])) newStore (unversioned,9) = some s ∧ s.versionOf key = 9 ∧
      (replicateBatch newStore [some unversioned]).versionOf key = 1 := by
  intro hashKey key unplaced unversioned
  have hvnode : getVNodeForKey hashKey (some (heldBy 1 "a" [])) key = 512 := by
    rw [getVNodeForKey, (heldBy_ring 1).getVNodeIDForKey]
    decide +kernel
  refine ⟨⟨_,replicate_eq (.inl rfl),?_,by decide⟩,_,replicate_eq (.inl rfl),?_,by decide⟩
  · rw [hvnode]
    decide
  · decide

end Agree

end Nawst.Cluster.Replicate
