import Nawst.Lib.CasLoop
import Nawst.Core.Server

/-! Drawing versions concurrently: any number of callers load the counter, read the clock and
try to swap, and the server's draw in one step is what they amount to. -/
namespace Nawst.Core.NextVersion
open Lib

/-- The counter and the calls of NextVersion. -/
abbrev State := CasLoop.Shared UInt64

/-- A call starts, loads the counter, reads the clock, tries to swap, or returns. -/
abbrev Event := CasLoop.Event UInt64

def init : State := CasLoop.init 0

def step : State → Event → Option State := CasLoop.step nextVersion

section Draw
variable {n : Nat} {cur now : UInt64}

/-- The counter after some draws, with clocks that stay in the lower half. -/
def Bounded (n : Nat) (cur : UInt64) : Prop := cur.toNat < 2^63+n

/-- A draw goes up while there are not too many of them to wrap around. -/
theorem nextVersion_up (hn : n < 2^63-1) (hcur : Bounded n cur) (hnow : now.toNat < 2^63) :
    cur < nextVersion cur now ∧ Bounded (n+1) (nextVersion cur now) := by
  unfold Bounded at hcur ⊢
  refine ⟨lt_nextVersion (by omega) now,?_⟩
  unfold nextVersion
  split
  · have hadd : (cur+1).toNat = (cur.toNat+1)%2^64 := by simp
    omega
  · omega

end Draw

/-- Successful swaps are in the order of their versions and draw no version twice, and a call
that starts after another has returned draws a later version. -/
theorem versions_strictly_monotone (es fs : List Event) (s t : State) (hs : Machine.run step init es = some s)
    (ht : Machine.run step s fs = some t) (hclock : ∀ e ∈ es ++ fs, ∀ now ∈ e.input, now.toNat < 2^63)
    (hcalls : (es ++ fs).countP CasLoop.Event.isCall < 2^63) :
    (t.swaps.map Prod.snd).Pairwise (· < ·) ∧
    (∀ (i : Nat) (v : UInt64), t.callers[i]? = some (.returned v) → v ≠ 0 ∧ (i,v) ∈ t.swaps) ∧
    (∀ (i j : Nat) (v w : UInt64), i ≠ j → t.callers[i]? = some (.returned v) → t.callers[j]? = some (.returned w) → v ≠ w) ∧
    ∀ (i j : Nat) (v w : UInt64), s.callers[i]? = some (.returned v) → s.callers[j]? = none →
      t.callers[j]? = some (.returned w) → v < w := by
  have hrun : Machine.run step init (es ++ fs) = some t := Machine.run_append.mpr ⟨s,hs,ht⟩
  have hlinear : CasLoop.Linear nextVersion (fun now => now.toNat < 2^63) 0 t := CasLoop.run_linear hclock hrun
  have hbefore : CasLoop.Linear nextVersion (fun now => now.toNat < 2^63) 0 s :=
    CasLoop.run_linear (fun e he => hclock e (List.mem_append_left _ he)) hs
  have hresult {u : State} {i : Nat} {v : UInt64} (h : u.callers[i]? = some (.returned v)) : u.result i = some v := by
    simp [CasLoop.Shared.result, h, CasLoop.Caller.result]
  have hlength : t.callers.length ≤ 2^63-1 := by
    rw [CasLoop.run_callers hrun]
    omega
  have hstart : Bounded 0 0 := by simp [Bounded]
  have hup : (0::t.swaps.map Prod.snd).Pairwise (· < ·) :=
    hlinear.increasing (fun n cur now => nextVersion_up) hstart hlength
  obtain ⟨hpos,hup⟩ := List.pairwise_cons.mp hup
  refine ⟨hup,fun i v hi => ?_,fun i j v w hij hi hj => ?_,fun i j v w hi hj hj' => ?_⟩
  · have hmem := (hlinear.results i v).mpr (hresult hi)
    refine ⟨fun hz => ?_,hmem⟩
    have hlt := hpos v (List.mem_map_of_mem hmem)
    rw [hz] at hlt
    exact UInt64.lt_irrefl 0 hlt
  · exact hlinear.result_ne UInt64.lt_irrefl hup hij (hresult hi) (hresult hj)
  · have hnone : s.result j = none := by simp [CasLoop.Shared.result, hj]
    exact hbefore.result_later hlinear (CasLoop.run_swaps ht) hup (hresult hi) hnone (hresult hj')

/-- Two calls race for the first version, and the one that wins returns it. -/
def race : List Event :=
  [.call,.call,.load 0,.load 1,.compute 0 5,.compute 1 5,.swap 0,.swap 1,.leave 0]

/-- The other call tries again, and a third one starts, with a clock that has gone back. -/
def retries : List Event :=
  [.call,.load 1,.compute 1 3,.swap 1,.load 2,.compute 2 4,.swap 2,.leave 2,.leave 1]

theorem versions_strictly_monotone_sample : ∃ s t, Machine.run step init race = some s ∧ Machine.run step s retries = some t ∧
    t.swaps = [(0,5),(1,6),(2,7)] ∧ (t.swaps.map Prod.snd).Pairwise (· < ·) ∧
    s.callers[0]? = some (.returned 5) ∧ t.callers[2]? = some (.returned 7) ∧ (5 : UInt64) < 7 := by
  have hclock : ∀ e ∈ race ++ retries, ∀ now ∈ e.input, now.toNat < 2^63 := by simp [race, retries, CasLoop.Event.input]
  have hcalls : (race ++ retries).countP CasLoop.Event.isCall < 2^63 := by decide
  have hmonotone := versions_strictly_monotone race retries _ _ rfl rfl hclock hcalls
  exact ⟨_,_,rfl,rfl,rfl,hmonotone.1,rfl,rfl,hmonotone.2.2.2 0 2 5 7 rfl rfl rfl⟩

section Server
variable {es : List Event} {s : State}

/-- The versions that callers have drawn are those drawn one after the other, with some of the
clock readings. -/
theorem swaps_draw (hr : Machine.run step init es = some s) :
    ∃ nows : List UInt64, (∀ now ∈ nows, ∃ e ∈ es, now ∈ e.input) ∧ s.value = nows.foldl nextVersion 0 ∧
      0::s.swaps.map Prod.snd = nows.scanl nextVersion 0 := by
  have hinputs : ∀ e ∈ es, ∀ now ∈ e.input, ∃ e ∈ es, now ∈ e.input := fun e he now hnow => ⟨e,he,hnow⟩
  exact (CasLoop.run_linear hinputs hr).updates

/-- Writes that reach a server one after the other draw such versions. -/
theorem writes_draw (srv : Server) (op : OpType) (key : Key) (value : Value) (vnodeID : UInt16) (nows : List UInt64) :
    ∃ t drawn, Machine.run Server.step srv (nows.map (.write op key value vnodeID)) = some t ∧
      t.versionCounter = nows.foldl nextVersion srv.versionCounter ∧
      t.sending.map Request.version = srv.sending.map Request.version ++ drawn ∧
      srv.versionCounter::drawn = nows.scanl nextVersion srv.versionCounter := by
  induction nows generalizing srv with
  | nil => exact ⟨srv,[],rfl,rfl,(List.append_nil _).symm,by simp⟩
  | cons now nows ih =>
    obtain ⟨t,drawn,ht,hcounter,hsending,hdrawn⟩ := ih (srv.write op key value vnodeID now)
    refine ⟨t,nextVersion srv.versionCounter now::drawn,Machine.run_cons.mpr ⟨_,rfl,ht⟩,hcounter,?_,?_⟩
    · simp [hsending, Server.write, Server.send, Server.request]
    · rw [List.scanl_cons]
      exact congrArg _ hdrawn

/-- What concurrent callers do to the counter, and the versions they draw, are those of a
server that takes a write in one step for each successful swap. -/
theorem calls_refine_writes (hr : Machine.run step init es = some s) (srv : Server) (hsrv : srv.versionCounter = 0)
    (op : OpType) (key : Key) (value : Value) (vnodeID : UInt16) :
    ∃ (nows : List UInt64) (t : Server), (∀ now ∈ nows, ∃ e ∈ es, now ∈ e.input) ∧
      Machine.run Server.step srv (nows.map (.write op key value vnodeID)) = some t ∧ t.versionCounter = s.value ∧
      t.sending.map Request.version = srv.sending.map Request.version ++ s.swaps.map Prod.snd := by
  obtain ⟨nows,hnows,hvalue,hswaps⟩ := swaps_draw hr
  obtain ⟨t,drawn,ht,hcounter,hsending,hdrawn⟩ := writes_draw srv op key value vnodeID nows
  rw [hsrv] at hcounter hdrawn
  have hsame : drawn = s.swaps.map Prod.snd := (List.cons.inj (hdrawn.trans hswaps.symm)).2
  exact ⟨nows,t,hnows,ht,hcounter.trans hvalue.symm,hsame ▸ hsending⟩

end Server

end Nawst.Core.NextVersion
