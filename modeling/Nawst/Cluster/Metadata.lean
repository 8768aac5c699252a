import Nawst.Cluster.Placement

/-! The text that a member publishes about itself: its id and addresses, separated by
commas. Quoting in messages is a parameter. -/
namespace Nawst.Cluster
open Nawst.Core

abbrev Addr := String

/-- White space as the source's standard library has it. -/
def isSpace (c : Char) : Bool :=
  c.toNat ∈ [0x09,0x0a,0x0b,0x0c,0x0d,0x20,0x85,0xa0,0x1680,0x2028,0x2029,0x202f,0x205f,0x3000] ∨
    (0x2000 ≤ c.toNat ∧ c.toNat ≤ 0x200a)

def trimSpace (s : String) : String :=
  String.ofList ((s.toList.dropWhile isSpace).reverse.dropWhile isSpace).reverse

@[simp] theorem trimSpace_empty : trimSpace "" = "" := by simp [trimSpace]

def splitComma (s : String) : List String := (s.toList.splitOn ',').map String.ofList

section Parse
variable (quote : String → String)

def parseMeta (text : String) : Except Err (NodeID × Addr) :=
  let raw := trimSpace text
  if raw = "" then .error "empty member metadata"
  else match splitComma raw with
    | id::rpc::_ =>
      if trimSpace id = "" ∨ trimSpace rpc = "" then .error ("invalid member metadata fields: " ++ quote raw)
      else .ok (trimSpace id,trimSpace rpc)
    | _ => .error ("invalid member metadata format (expected 'nodeID,rpcAddr[,raftAddr]'): " ++ quote raw)

/-- Id, RPC address and raft address, which is empty when there is none. -/
def parseMetaWithRaft (text : String) : Except Err (NodeID × Addr × Addr) :=
  let raw := trimSpace text
  if raw = "" then .error "empty member metadata"
  else match splitComma raw with
    | id::rpc::rest =>
      let raftAddr := match rest with
        | [] => ""
        | raft::_ => trimSpace raft
      if trimSpace id = "" ∨ trimSpace rpc = "" then .error ("invalid member metadata fields: " ++ quote raw)
      else .ok (trimSpace id,trimSpace rpc,raftAddr)
    | _ => (parseMeta quote text).map (fun m => (m.1,m.2,""))

end Parse

example : parseMetaWithRaft id " node-1, 10.0.0.1:7000 ,10.0.0.1:7001\n" = .ok ("node-1","10.0.0.1:7000","10.0.0.1:7001") := by
  decide +kernel

end Nawst.Cluster
