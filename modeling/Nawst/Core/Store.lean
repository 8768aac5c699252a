import Nawst.Lib.FiniteMap
import Mathlib.Data.Finset.Card

/-! The versioned key-value store with its vnode indexes. Values and keys are
byte strings; an absent map entry reads as the zero value, as in the source. The
counters are integers without a bound where the source has int64: each counts
keys or bytes that are in memory and stays far below 2^63. -/
namespace Nawst.Core
open Lib.FiniteMap

/-- The longest byte slice that can be made: the size of the address space of a
64-bit platform. `make` panics for a larger length. -/
def maxSliceLen : Nat := 2^48

/-- The content of a byte slice or string, with the length its type promises. A
nil slice and an empty one have the same content. -/
structure Bytes where
  data : List UInt8
  len_le : data.length ≤ maxSliceLen
  deriving DecidableEq

def Bytes.singleton (b : UInt8) : Bytes := ⟨[b],Nat.one_le_two_pow⟩

abbrev Key := Bytes
abbrev Value := Bytes
abbrev Err := String

/-- The key of the examples. -/
def sampleKey : Key := .singleton 107

def errKeyNotFound : Err := "key not found"
def errInvalidOperation : Err := "invalid operation"

abbrev OpType := UInt8
def opPut : OpType := 0
def opGet : OpType := 1
def opDelete : OpType := 2

structure Command where
  op : OpType
  key : Key
  value : Value
  vnodeID : UInt16
  version : UInt64
  deriving DecidableEq

structure KeyMeta where
  version : UInt64
  tombstone : Bool
  deriving DecidableEq, Repr

structure Store where
  storage : FMap Key Value
  vNodeIdx : FMap UInt16 (Finset Key)
  tombstoneIdx : FMap UInt16 (Finset Key)
  keyMeta : FMap Key KeyMeta
  tombstoneCount : Int
  valueBytes : Int
  vnodesWithData : Int
  vnodesWithTombstones : Int
  deriving DecidableEq

def newStore : Store := ⟨∅,∅,∅,∅,0,0,0,0⟩

namespace Store

def metaOf (s : Store) (k : Key) : KeyMeta := (s.keyMeta.lookup k).getD ⟨0,false⟩
def versionOf (s : Store) (k : Key) : UInt64 := (s.metaOf k).version
def dataSet (s : Store) (v : UInt16) : Finset Key := (s.vNodeIdx.lookup v).getD ∅
def tombstoneSet (s : Store) (v : UInt16) : Finset Key := (s.tombstoneIdx.lookup v).getD ∅
def valueLen (s : Store) (k : Key) : Int := ((s.storage.lookup k).map (fun v => (v.data.length : Int))).getD 0

/-- The put case of apply, for a command whose version has been settled. -/
def put (s : Store) (cmd : Command) : Store :=
  let ts := s.tombstoneSet cmd.vnodeID
  let had := cmd.key ∈ ts
  { storage := s.storage.insert cmd.key cmd.value
    valueBytes := s.valueBytes-s.valueLen cmd.key+cmd.value.data.length
    vNodeIdx := s.vNodeIdx.insert cmd.vnodeID (insert cmd.key (s.dataSet cmd.vnodeID))
    vnodesWithData := if (s.dataSet cmd.vnodeID).card = 0 then s.vnodesWithData+1 else s.vnodesWithData
    tombstoneIdx := if had then s.tombstoneIdx.insert cmd.vnodeID (ts.erase cmd.key) else s.tombstoneIdx
    vnodesWithTombstones :=
      if had ∧ (ts.erase cmd.key).card = 0 ∧ 0 < s.vnodesWithTombstones then s.vnodesWithTombstones-1
      else s.vnodesWithTombstones
    tombstoneCount := if (s.metaOf cmd.key).tombstone then s.tombstoneCount-1 else s.tombstoneCount
    keyMeta := s.keyMeta.insert cmd.key ⟨cmd.version,false⟩ }

/-- The delete case of apply, for a command whose version has been settled. -/
def delete (s : Store) (cmd : Command) : Store :=
  let idx := s.dataSet cmd.vnodeID
  let had := cmd.key ∈ idx
  { storage := s.storage.erase cmd.key
    valueBytes := s.valueBytes-s.valueLen cmd.key
    vNodeIdx := if had then s.vNodeIdx.insert cmd.vnodeID (idx.erase cmd.key) else s.vNodeIdx
    vnodesWithData :=
      if had ∧ (idx.erase cmd.key).card = 0 ∧ 0 < s.vnodesWithData then s.vnodesWithData-1
      else s.vnodesWithData
    tombstoneIdx := s.tombstoneIdx.insert cmd.vnodeID (insert cmd.key (s.tombstoneSet cmd.vnodeID))
    vnodesWithTombstones :=
      if (s.tombstoneSet cmd.vnodeID).card = 0 then s.vnodesWithTombstones+1 else s.vnodesWithTombstones
    tombstoneCount := if (s.metaOf cmd.key).tombstone then s.tombstoneCount else s.tombstoneCount+1
    keyMeta := s.keyMeta.insert cmd.key ⟨cmd.version,true⟩ }

def dispatch (s : Store) (cmd : Command) : Store × Option Err :=
  if cmd.op = opPut then (s.put cmd,none)
  else if cmd.op = opDelete then (s.delete cmd,none)
  else (s,some errInvalidOperation)

def apply (s : Store) (cmd : Command) : Store × Option Err :=
  if cmd.version = 0 then s.dispatch { cmd with version := s.versionOf cmd.key+1 }
  else if cmd.version < s.versionOf cmd.key then (s,none)
  else s.dispatch cmd

/-- Value and version of a live key. -/
def getWithVersion (s : Store) (k : Key) : Except Err (Value × UInt64) :=
  match s.storage.lookup k with
  | none => .error errKeyNotFound
  | some val => if (s.metaOf k).tombstone then .error errKeyNotFound else .ok (val,s.versionOf k)

def deleteVNodeData (s : Store) (v : UInt16) : Store :=
  let indexSet := s.dataSet v
  let tsSet := s.tombstoneSet v
  if indexSet.card = 0 ∧ tsSet.card = 0 then s
  else
    { s with
      storage := eraseAll indexSet s.storage
      keyMeta := eraseAll tsSet (eraseAll indexSet s.keyMeta)
      tombstoneCount := (fun c : Int => if 0 < c then c-1 else c)^[tsSet.card] s.tombstoneCount
      vnodesWithData := if 0 < indexSet.card ∧ 0 < s.vnodesWithData then s.vnodesWithData-1 else s.vnodesWithData
      vnodesWithTombstones :=
        if 0 < tsSet.card ∧ 0 < s.vnodesWithTombstones then s.vnodesWithTombstones-1 else s.vnodesWithTombstones
      vNodeIdx := s.vNodeIdx.erase v
      tombstoneIdx := s.tombstoneIdx.erase v }

/-- Iterating over a set visits each member once, in an unspecified order. -/
def Enumerates (order : List Key) (keys : Finset Key) : Prop := order.Nodup ∧ order.toFinset = keys

instance (order : List Key) (keys : Finset Key) : Decidable (Enumerates order keys) :=
  inferInstanceAs (Decidable (_ ∧ _))

structure Entry where
  key : Key
  value : Value
  version : UInt64
  tombstone : Bool
  deriving DecidableEq

/-- The snapshot of a vnode, given the orders in which its two sets are visited.
Without an index entry for the vnode the tombstones are not looked at. -/
def snapshotVNode (s : Store) (v : UInt16) (dataOrder tombstoneOrder : List Key) : List Entry :=
  match s.vNodeIdx.lookup v with
  | none => []
  | some _ =>
    dataOrder.filterMap (fun k => (s.storage.lookup k).map
      (fun val => ⟨k,val,s.versionOf k,(s.metaOf k).tombstone⟩)) ++
    tombstoneOrder.map (fun k => ⟨k,⟨[],Nat.zero_le _⟩,s.versionOf k,true⟩)

end Store
end Nawst.Core
