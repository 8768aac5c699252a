import Nawst.Core.Store

/-! Requests of the event loop and the replication messages they come from. -/
namespace Nawst.Core

/-- A request as the loop receives it. The response channel is named by a number. -/
structure Request where
  op : OpType
  key : Key
  value : Value
  vnodeID : UInt16
  version : UInt64
  responseChan : Nat
  deriving DecidableEq

structure Response where
  op : OpType
  value : Value
  err : Option Err
  version : UInt64
  deriving DecidableEq

/-- The absent value of a delete or of an error response. -/
def nilValue : Value := ⟨[],Nat.zero_le _⟩

def Request.command (r : Request) : Command := ⟨r.op,r.key,r.value,r.vnodeID,r.version⟩

/-- The wire enumeration; any other number stays as it is. -/
inductive Op where
  | put | get | delete
  | unknown (n : Nat)
  deriving DecidableEq, Repr

structure ReplicationRequest where
  op : Op
  key : Key
  value : Value
  vnodeID : UInt32
  version : UInt64
  deriving DecidableEq

/-- The request a batch item becomes on the receiving node. What is neither a put
nor a delete is handed on as a get. -/
def ReplicationRequest.pendingReq (item : ReplicationRequest) (respCh : Nat) : Request where
  op := match item.op with
    | .put => opPut
    | .delete => opDelete
    | _ => opGet
  key := item.key
  value := item.value
  vnodeID := item.vnodeID.toUInt16
  version := item.version
  responseChan := respCh

end Nawst.Core
