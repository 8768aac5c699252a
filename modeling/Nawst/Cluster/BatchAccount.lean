import Nawst.Cluster.BatchWorker

/-! Where the tasks of a replication worker are: every accepted task waits, is under
way or is completed, and in only one of these places. -/
namespace Nawst.Cluster.BatchWorker.Worker
open Lib Nawst.Core

/-- The done channels of the tasks that are not completed. -/
def outstanding (w : Worker) : List Nat :=
  w.enqueue.map Task.done ++ w.pending.map Task.done ++ w.inFlight.flatten.map Task.done

/-- The done channels that were sent to, once for each send. -/
def finished (w : Worker) : List Nat := w.completed.map Prod.fst

/-- Every accepted task is in one place, once. -/
def Accounted (w : Worker) : Prop := (w.outstanding ++ w.finished).Perm (List.range w.nextDone)

/-- The current stream is one of those opened. -/
def Current (w : Worker) : Prop := ∀ i, w.stream = some i → ∃ st, w.streams[i]? = some st

/-- The stop is taken from an empty queue, and nothing is submitted after it. -/
def StopsEmpty (w : Worker) : Event → Prop
  | .takeStop => w.enqueue = []
  | .submit _ => w.returned = false
  | _ => True

instance (w : Worker) : (e : Event) → Decidable (StopsEmpty w e)
  | .takeStop => inferInstanceAs (Decidable (w.enqueue = []))
  | .submit _ => inferInstanceAs (Decidable (w.returned = false))
  | .takeTask _ | .tick _ | .takeResult | .stop | .remoteAck _ _ | .recvReturns _ _ | .recvSends _ => isTrue trivial

private theorem map_fst_finish (tasks : List Task) (err : Option Err) :
    (tasks.map (fun t => (t.done,err))).map Prod.fst = tasks.map Task.done := by
  rw [List.map_map]
  rfl

/-- Tasks that only change their place stay accounted for. -/
private theorem Accounted.move {w w' : Worker} (h : w.Accounted) (hn : w'.nextDone = w.nextDone)
    (hp : (w'.outstanding ++ w'.finished).Perm (w.outstanding ++ w.finished)) : w'.Accounted := by
  unfold Accounted
  rw [hn]
  exact hp.trans h

private theorem outstanding_startRecv (w : Worker) :
    w.startRecv.outstanding = w.outstanding ∧ w.startRecv.finished = w.finished ∧ w.startRecv.nextDone = w.nextDone := by
  obtain ⟨active,recvs,he⟩ := startRecv_frame w
  rw [he]
  exact ⟨rfl,rfl,rfl⟩

private theorem Accounted.startRecv {w : Worker} (h : w.Accounted) : w.startRecv.Accounted := by
  obtain ⟨ho,hf,hn⟩ := outstanding_startRecv w
  unfold Accounted
  rw [ho, hf, hn]
  exact h

private theorem Flushed.accounted {w w' : Worker} {net : Net} (hf : Flushed w net w') (h : w.Accounted) :
    w'.Accounted := by
  cases hf with
  | empty _ => exact h
  | failed e _ _ =>
    refine h.move rfl (List.perm_iff_count.mpr (fun d => ?_))
    simp only [outstanding, finished, List.map_append, List.map_nil, map_fst_finish, List.count_append, List.count_nil]
    omega
  | sent _ _ _ | sentFresh _ _ _ _ =>
    refine Accounted.startRecv (h.move rfl (List.perm_iff_count.mpr (fun d => ?_)))
    simp only [outstanding, finished, List.flatten_append, List.flatten_singleton, List.map_append, List.map_nil,
      List.count_append, List.count_nil]
    omega

private theorem startRecv_stream (w : Worker) : w.startRecv.stream = w.stream ∧ w.startRecv.streams = w.streams := by
  obtain ⟨active,recvs,he⟩ := startRecv_frame w
  rw [he]
  exact ⟨rfl,rfl⟩

private theorem Current.startRecv {w : Worker} (h : w.Current) : w.startRecv.Current := by
  obtain ⟨hs,hss⟩ := startRecv_stream w
  unfold Current
  rw [hs, hss]
  exact h

/-- Replacing a stream by a later state of it keeps the current one open. -/
private theorem Current.set {w w' : Worker} (h : w.Current) (hs : w'.stream = w.stream) {i : Nat} {st : Stream}
    (hss : w'.streams = w.streams.set i st) : w'.Current := by
  intro j hj
  obtain ⟨st',hst⟩ := h j (hs ▸ hj)
  obtain ⟨hlt,_⟩ := List.getElem?_eq_some_iff.mp hst
  exact ⟨_,List.getElem?_eq_getElem (by rw [hss, List.length_set]; exact hlt)⟩

private theorem Flushed.current {w w' : Worker} {net : Net} (hf : Flushed w net w') (h : w.Current) : w'.Current := by
  cases hf with
  | empty _ => exact h
  | failed e _ _ => exact fun i hi => by cases hi
  | sent _ _ _ => exact Current.startRecv (h.set rfl rfl)
  | sentFresh _ _ _ _ =>
    refine Current.startRecv (fun i hi => ?_)
    cases hi
    exact ⟨_,List.getElem?_concat_length⟩

/-- What holds between the steps, whatever the network does. -/
structure Placed (w : Worker) : Prop where
  accounted : w.Accounted
  current : w.Current

theorem init_placed (nodeID : String) : Placed (init nodeID) where
  accounted := by simp [Accounted, outstanding, finished, init]
  current i hi := by cases hi

private theorem flush_placed {w : Worker} (h : Placed w) (net : Net) : Placed (w.flush net) :=
  have hf := flush_flushed w net h.current
  ⟨hf.accounted h.accounted,hf.current h.current⟩

private theorem Took.placed {w w' : Worker} (ht : Took w w') (h : Placed w) : Placed w' := by
  cases ht with
  | stray => exact ⟨h.accounted,fun i hi => by cases hi⟩
  | failed err hb =>
    refine ⟨h.accounted.move rfl (List.perm_iff_count.mpr (fun d => ?_)),fun i hi => by cases hi⟩
    simp only [outstanding, finished, hb, List.flatten_cons, List.flatten_nil, List.map_append, List.map_nil,
      map_fst_finish, List.count_append, List.count_nil]
    omega
  | answered err active recvs hb =>
    refine ⟨h.accounted.move rfl (List.perm_iff_count.mpr (fun d => ?_)),h.current⟩
    simp only [outstanding, finished, hb, List.flatten_cons, List.map_append, map_fst_finish, List.count_append]
    omega

private theorem submit_placed {w : Worker} (h : Placed w) (req : ReplicationRequest) :
    Placed { w with enqueue := w.enqueue ++ [⟨req,w.nextDone⟩], nextDone := w.nextDone+1 } := by
  refine ⟨List.perm_iff_count.mpr (fun d => ?_),h.current⟩
  have hd := List.perm_iff_count.mp h.accounted d
  simp only [outstanding, finished, List.range_succ, List.map_append, List.map_cons, List.map_nil, List.count_append] at hd ⊢
  omega

private theorem collect_placed {w : Worker} (h : Placed w) {t : Task} {ts : List Task} (he : w.enqueue = t::ts) :
    Placed { w with enqueue := ts, pending := w.pending ++ [t] } := by
  refine ⟨h.accounted.move rfl (List.perm_iff_count.mpr (fun d => ?_)),h.current⟩
  simp only [outstanding, finished, he, List.map_cons, List.map_append, List.map_nil, List.count_append,
    List.count_cons, List.count_nil]
  omega

private theorem takeStop_placed {w : Worker} (h : Placed w) : Placed w.takeStop := by
  refine ⟨h.accounted.move ?_ (List.perm_iff_count.mpr (fun d => ?_)),fun i hi => ?_⟩
  · simp [takeStop, closeStream]
  · simp only [takeStop, failAll_eq, closeStream, outstanding, finished, List.flatten_nil, List.map_append,
      List.map_nil, map_fst_finish, List.count_append, List.count_nil]
    omega
  · simp [takeStop, closeStream] at hi

theorem step_placed {w w' : Worker} {e : Event} (h : Placed w) (hs : w.step e = some w') : Placed w' := by
  cases step_fires hs with
  | submit req => exact submit_placed h req
  | collect _ _ he => exact collect_placed h he
  | fill net _ he => exact flush_placed (collect_placed h he) net
  | tick net => exact flush_placed h net
  | takeResult => exact (takeResult_took w _).placed h
  | takeStop => exact takeStop_placed h
  | remoteAck | recvReturns => exact ⟨h.accounted,h.current.set rfl rfl⟩
  | stop | recvFails | recvSends => exact ⟨h.accounted,h.current⟩

/-- A worker that has returned has emptied its hands. -/
structure Emptied (w : Worker) : Prop where
  enqueue : w.returned = true → w.enqueue = []
  pending : w.returned = true → w.pending = []
  inFlight : w.returned = true → w.inFlight = []

private theorem Emptied.of_running {w : Worker} (h : w.returned = false) : Emptied w where
  enqueue hr := by simp [h] at hr
  pending hr := by simp [h] at hr
  inFlight hr := by simp [h] at hr

private theorem Flushed.returned {w w' : Worker} {net : Net} (hf : Flushed w net w') : w'.returned = w.returned := by
  cases hf with
  | empty _ | failed _ _ _ => rfl
  | sent _ _ _ | sentFresh _ _ _ _ =>
    obtain ⟨active,recvs,he⟩ := startRecv_frame _
    rw [he]

private theorem Took.returned {w w' : Worker} (ht : Took w w') : w'.returned = w.returned := by
  cases ht <;> rfl

theorem step_emptied {w w' : Worker} {e : Event} (h : Emptied w) (hp : Placed w) (hg : StopsEmpty w e)
    (hs : w.step e = some w') : Emptied w' := by
  cases step_fires hs with
  | submit => exact .of_running hg
  | collect _ hn => exact .of_running hn
  | fill net hn he => exact .of_running ((flush_flushed _ net (collect_placed hp he).current).returned.trans hn)
  | tick net hn => exact .of_running ((flush_flushed w net hp.current).returned.trans hn)
  | takeResult hn => exact .of_running ((takeResult_took w _).returned.trans hn)
  | takeStop =>
    refine ⟨fun _ => ?_,fun _ => rfl,fun _ => rfl⟩
    have he : w.enqueue = [] := hg
    simpa [takeStop, closeStream] using he
  | stop | remoteAck | recvFails | recvReturns | recvSends => exact ⟨h.enqueue,h.pending,h.inFlight⟩

/-- At every point each accepted task is in one place, once, so that no done channel is
sent to twice. When the worker stops with an empty queue and nothing is submitted
afterwards, every accepted task is completed once it has returned. -/
theorem tasks_accounted (nodeID : String) (es : List Event) (w : Worker)
    (hr : Machine.run step (init nodeID) es = some w) :
    (w.enqueue.map Task.done ++ w.pending.map Task.done ++ w.inFlight.flatten.map Task.done ++
      w.completed.map Prod.fst).Perm (List.range w.nextDone) ∧
    (w.completed.map Prod.fst).Nodup ∧
    (Machine.Meets step StopsEmpty (init nodeID) es → w.returned = true →
      (w.completed.map Prod.fst).Perm (List.range w.nextDone)) := by
  have hp : Placed w := Machine.run_invariant (fun _ _ _ hi hs => step_placed hi hs) (init_placed nodeID) hr
  have hperm : (w.outstanding ++ w.finished).Perm (List.range w.nextDone) := hp.accounted
  refine ⟨hperm,?_,fun hm hret => ?_⟩
  · have hall : (w.outstanding ++ w.finished).Nodup := hperm.nodup_iff.mpr List.nodup_range
    exact hall.of_append_right
  · have hboth : Placed w ∧ Emptied w :=
      Machine.run_invariant_of_meets (I := fun w => Placed w ∧ Emptied w)
        (fun _ _ _ hi hg hs => ⟨step_placed hi.1 hs,step_emptied hi.2 hi.1 hg hs⟩)
        ⟨init_placed nodeID,.of_running rfl⟩ hm hr
    have hempty := hboth.2
    have hout : w.outstanding = [] := by
      simp [outstanding, hempty.enqueue hret, hempty.pending hret, hempty.inFlight hret]
    rwa [hout, List.nil_append] at hperm

/-- A task is accepted, taken and failed by the stop. -/
def stoppedRun : List Event := [.submit sampleReq,.takeTask ⟨none,none,false⟩,.stop,.takeStop]

theorem tasks_accounted_sample :
    ∃ w, Machine.run step (init "node-1") stoppedRun = some w ∧ w.returned = true ∧
      (w.completed.map Prod.fst).Perm (List.range w.nextDone) := by
  refine ⟨_,rfl,rfl,?_⟩
  exact (tasks_accounted "node-1" stoppedRun _ rfl).2.2 (by decide) rfl

/-- The stop overtakes a task in the queue, which is never completed. -/
def forgottenRun : List Event := [.submit sampleReq,.stop,.takeStop]

theorem accepted_task_forgotten :
    ∃ w, Machine.run step (init "node-1") forgottenRun = some w ∧ w.returned = true ∧ w.nextDone = 1 ∧
      w.enqueue.map Task.done = [0] ∧ 0 ∉ w.completed.map Prod.fst :=
  ⟨_,rfl,rfl,rfl,rfl,by decide⟩

end Nawst.Cluster.BatchWorker.Worker
