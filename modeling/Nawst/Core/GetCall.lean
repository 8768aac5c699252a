import Nawst.Core.StoreApply
import Nawst.Core.EventLoop

/-! The get call of a node, with the minimum version that a client may ask for. -/
namespace Nawst.Core

inductive Code where
  | notFound | failedPrecondition | internal | unavailable | deadlineExceeded | other
  deriving DecidableEq, Repr

structure Status where
  code : Code
  message : Err
  deriving DecidableEq

/-- What a request that is given up before the loop has answered gets. -/
def cancelledResponse : Response := ⟨0,nilValue,some "rpc error: code = DeadlineExceeded desc = request cancelled",0⟩

def staleRead (version minVersion : UInt64) : Status :=
  ⟨.failedPrecondition,"stale read: local_version=" ++ toString version ++ " min_version=" ++ toString minVersion⟩

/-- The answer of the call, from the response of the loop. -/
def getReply (resp : Response) (minVersion : UInt64) : Except Status (Value × UInt64) :=
  match resp.err with
  | some e =>
    if e = errKeyNotFound then .error ⟨.notFound,"key not found"⟩
    else .error ⟨.internal,"Failed to GET key: " ++ e⟩
  | none =>
    if 0 < minVersion ∧ resp.version < minVersion then .error (staleRead resp.version minVersion)
    else .ok (resp.value,resp.version)

namespace Store

/-- A call that the loop answers. -/
def serveGet (s : Store) (key : Key) (minVersion : UInt64) : Except Status (Value × UInt64) :=
  getReply (EventLoop.getResponse s ⟨opGet,key,nilValue,0,0,0⟩) minVersion

def Live (s : Store) (key : Key) : Prop := ∃ value, s.getWithVersion key = .ok (value,s.versionOf key)

/-- The node has the key, or has seen a version of it that is new enough. -/
def Knows (s : Store) (key : Key) (m : UInt64) : Prop := s.Live key ∨ m ≤ s.versionOf key

/-- The call answers, with a value or that there is none, only from knowledge that is new
enough, and otherwise reports a stale read. -/
structure InTime (s : Store) (key : Key) (m : UInt64) : Prop where
  answer : (∀ st, s.serveGet key m = .error st → st.code = .notFound) → m ≤ s.versionOf key
  stale : s.versionOf key < m → s.serveGet key m = .error (staleRead (s.versionOf key) m)

theorem live_or_missing (s : Store) (key : Key) : s.Live key ∨ s.getWithVersion key = .error errKeyNotFound := by
  unfold Live getWithVersion
  split
  · exact .inr rfl
  · split
    · exact .inr rfl
    · exact .inl ⟨_,rfl⟩

theorem not_live_of_missing {s : Store} {key : Key} (h : s.getWithVersion key = .error errKeyNotFound) : ¬ s.Live key := by
  rintro ⟨_,hlive⟩
  exact nomatch h.symm.trans hlive

section Serve
variable {s : Store} {key : Key} {m : UInt64}

theorem serveGet_missing (h : s.getWithVersion key = .error errKeyNotFound) :
    s.serveGet key m = .error ⟨.notFound,"key not found"⟩ := by
  simp [serveGet, EventLoop.getResponse, h, getReply]

/-- A live key is never reported as missing. -/
theorem serveGet_live (h : s.Live key) (hm : m ≠ 0) : s.versionOf key < m ∧ s.serveGet key m = .error (staleRead (s.versionOf key) m) ∨
    m ≤ s.versionOf key ∧ ∃ res, s.serveGet key m = .ok res := by
  obtain ⟨value,h⟩ := h
  have hreply : s.serveGet key m =
      if 0 < m ∧ s.versionOf key < m then .error (staleRead (s.versionOf key) m) else .ok (value,s.versionOf key) := by
    simp [serveGet, EventLoop.getResponse, h, getReply]
  rw [hreply]
  by_cases hlt : s.versionOf key < m
  · exact .inl ⟨hlt,if_pos ⟨UInt64.pos_iff_ne_zero.mpr hm,hlt⟩⟩
  · exact .inr ⟨UInt64.not_lt.mp hlt,_,if_neg (fun h => hlt h.2)⟩

/-- The call reads in time exactly if the key is live or a deletion is known that is new
enough: a missing key is reported without regard to the minimum version. -/
theorem inTime_iff (hm : m ≠ 0) : s.InTime key m ↔ s.Knows key m := by
  rcases s.live_or_missing key with hlive | hmiss
  · refine iff_of_true ?_ (.inl hlive)
    rcases serveGet_live hlive hm with ⟨hlt,hreply⟩ | ⟨hle,_,_⟩
    · exact ⟨fun h => absurd (h _ hreply) (by simp [staleRead]),fun _ => hreply⟩
    · exact ⟨fun _ => hle,fun h => absurd hle (UInt64.not_le.mpr h)⟩
  · have hreply := serveGet_missing (m := m) hmiss
    constructor
    · intro h
      exact .inr (h.answer (fun st hst => by cases hreply.symm.trans hst; rfl))
    · intro h
      have hle := h.resolve_left (not_live_of_missing hmiss)
      exact ⟨fun _ => hle,fun hlt => absurd hle (UInt64.not_le.mpr hlt)⟩

theorem SameAt.live {t : Store} (h : SameAt s t key) : s.Live key ↔ t.Live key := by
  simp only [Live, h.getWithVersion, versionOf, h.2]

private theorem apply_live {c : Command} (hc : c.key = key → c.op ≠ opDelete) (h : s.Live key ∨ s.versionOf key = 0) :
    (s.apply c).1.Live key ∨ (s.apply c).1.versionOf key = 0 := by
  by_cases hk : c.key = key
  · subst hk
    rcases apply_cases s c with ⟨_,he⟩ | ⟨_,_,he⟩ | ⟨_,hdel,_⟩ | ⟨_,_,_,he⟩
    · rwa [he]
    · refine .inl ⟨c.value,?_⟩
      simp [he, getWithVersion, versionOf]
    · exact absurd hdel (hc rfl)
    · rwa [he]
  · have hsame : SameAt (s.apply c).1 s key := apply_other_key (Ne.symm hk)
    rwa [hsame.live, versionOf, hsame.2]

/-- While a key is not deleted it is live or has never been written. -/
theorem live_or_unwritten {cs : List Command} (hcs : ∀ c ∈ cs, c.key = key → c.op ≠ opDelete)
    (h : s.Live key ∨ s.versionOf key = 0) : (s.applyAll cs).Live key ∨ (s.applyAll cs).versionOf key = 0 := by
  induction cs generalizing s with
  | nil => exact h
  | cons c cs ih =>
    obtain ⟨hc,hcs⟩ := List.forall_mem_cons.mp hcs
    exact ih hcs (apply_live hc h)

end Serve
end Store
end Nawst.Core
