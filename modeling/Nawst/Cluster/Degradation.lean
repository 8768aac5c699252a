import Nawst.Lib.MovingAverage
import Nawst.Cluster.ShortTerm

/-! How a leader comes to regard a node as degraded: reports are averaged, every short-term
update judges the averages, and only a node that is judged so often enough loses a primary. -/
namespace Nawst.Cluster.Update
open Lib Lib.FiniteMap Lib.MovingAverage Nawst.Core

section Watch
variable {avgRTT : Rat} {n : NodeID}

/-- What an update makes of a node. -/
def judged (streak : Int) : Option Bool → Int
  | none => streak
  | some false => 0
  | some true => streak+1

/-- The judgement on a node in an update, if it takes part. -/
def verdict (active : List NodeMetrics) (n : NodeID) : Option Bool :=
  (active.find? (·.nodeID = n)).map (isSeverelyDegraded · (averageRTT active))

theorem observe_self (avgRTT : Rat) (w : Watch) (m : NodeMetrics) :
    (w.observe avgRTT m).streak.get m.nodeID = judged (w.streak.get m.nodeID) (some (isSeverelyDegraded m avgRTT)) ∧
    (m.nodeID ∈ (w.observe avgRTT m).sustained ↔ m.nodeID ∈ w.sustained ∨ 6 ≤ (w.observe avgRTT m).streak.get m.nodeID) := by
  unfold Watch.observe judged
  cases isSeverelyDegraded m avgRTT
  · simp [Counts.get]
  · simp only [if_true, Counts.get_add]
    split <;> simp_all

theorem observe_other (avgRTT : Rat) (w : Watch) {m : NodeMetrics} (h : n ≠ m.nodeID) :
    (w.observe avgRTT m).streak.get n = w.streak.get n ∧ (n ∈ (w.observe avgRTT m).sustained ↔ n ∈ w.sustained) := by
  unfold Watch.observe
  refine ⟨?_,?_⟩
  · cases isSeverelyDegraded m avgRTT
    · simp [Counts.get, h]
    · simp [Counts.get_add, h]
  · have hinsert (p : Prop) [Decidable p] : (n ∈ if p then insert m.nodeID w.sustained else w.sustained) ↔ n ∈ w.sustained := by
      split
      · exact Finset.mem_insert.trans (or_iff_right h)
      · rfl
    exact hinsert _

/-- Nodes are judged by their own metrics alone. -/
theorem foldl_observe (avgRTT : Rat) {l : List NodeMetrics} (hnd : (nodeIDs l).Nodup) (w : Watch) (n : NodeID) :
    let w' := l.foldl (Watch.observe avgRTT) w
    let v := (l.find? (·.nodeID = n)).map (isSeverelyDegraded · avgRTT)
    w'.streak.get n = judged (w.streak.get n) v ∧
      (n ∈ w'.sustained ↔ n ∈ w.sustained ∨ v.isSome ∧ 6 ≤ w'.streak.get n) := by
  induction l generalizing w with
  | nil => simp [judged]
  | cons m l ih =>
    obtain ⟨hm,hnd⟩ := List.nodup_cons.mp hnd
    obtain ⟨hstreak,hsustained⟩ := ih hnd (w.observe avgRTT m)
    simp only [List.foldl_cons] at hstreak hsustained ⊢
    by_cases hid : m.nodeID = n
    · subst hid
      -- The node does not come again.
      have hnone : l.find? (·.nodeID = m.nodeID) = none := by
        refine List.find?_eq_none.mpr (fun x hx hxm => hm ?_)
        exact of_decide_eq_true hxm ▸ List.mem_map_of_mem hx
      obtain ⟨hs,hin⟩ := observe_self avgRTT w m
      simp only [hnone, Option.map_none, judged, Option.isSome_none, Bool.false_eq_true, false_and, or_false] at hstreak hsustained
      have hfind : (m::l).find? (·.nodeID = m.nodeID) = some m := by simp
      rw [hfind, Option.map_some, hstreak, hsustained, hin, hs]
      exact ⟨rfl,by simp⟩
    · obtain ⟨hs,hin⟩ := observe_other avgRTT w (Ne.symm hid)
      rw [hs] at hstreak
      rw [hin] at hsustained
      rw [List.find?_cons_of_neg (by simpa using hid)]
      exact ⟨hstreak,hsustained⟩

/-- The streaks after an update, and who has long been degraded. -/
theorem watch_spec {active : List NodeMetrics} (hnd : (nodeIDs active).Nodup) (streak : Counts) (n : NodeID) :
    (watch streak active).streak.get n = judged (streak.get n) (verdict active n) ∧
      (n ∈ (watch streak active).sustained ↔ (verdict active n).isSome ∧ 6 ≤ (watch streak active).streak.get n) := by
  obtain ⟨hstreak,hsustained⟩ := foldl_observe (averageRTT active) hnd ⟨streak,∅,∅⟩ n
  refine ⟨hstreak,hsustained.trans ?_⟩
  simp only [Finset.notMem_empty, false_or]
  rfl

end Watch

section History
variable (cfg : Config)

/-- The metrics that a short-term update judges by, when it gets so far. -/
def evaluated (r : Replicator) : Event → Option (List NodeMetrics)
  | .updatePlacementShortTerm view => match view.ready cfg, r.placement with
    | some members, some prev =>
      let active := activeMetrics members r.metrics
      if prev.vnodes.length ≠ vnodeCount ∨ active.length = 0 then none else some active
    | _, _ => none
  | _ => none

/-- What the short-term updates of a run have judged by. -/
def evaluations : Replicator → List Event → List (List NodeMetrics)
  | _, [] => []
  | r, e::es => (evaluated cfg r e).toList ++ match r.step cfg e with
    | none => []
    | some r' => evaluations r' es

/-- The judgements on a node, in order. -/
def verdicts (n : NodeID) (evals : List (List NodeMetrics)) : List Bool := evals.filterMap (verdict · n)

/-- For how long the last judgements have been the same bad ones. -/
def trailing (l : List Bool) : Nat := (l.reverse.takeWhile id).length

theorem trailing_concat (l : List Bool) (b : Bool) : trailing (l ++ [b]) = if b then trailing l+1 else 0 := by
  cases b <;> simp [trailing]

/-- A streak is at the end of the judgements. -/
theorem trailing_ends (l : List Bool) : ∃ earlier, l = earlier ++ List.replicate (trailing l) true := by
  induction l using List.reverseRecOn with
  | nil => exact ⟨[],rfl⟩
  | append_singleton l b ih =>
    obtain ⟨earlier,hl⟩ := ih
    cases b with
    | false => exact ⟨l ++ [false],by simp [trailing_concat]⟩
    | true =>
      refine ⟨earlier,?_⟩
      rw [trailing_concat, if_pos rfl, List.replicate_succ', ← List.append_assoc, ← hl]

theorem trailing_ge {l : List Bool} {k : Nat} (h : k ≤ trailing l) : ∃ earlier, l = earlier ++ List.replicate k true := by
  obtain ⟨earlier,hl⟩ := trailing_ends l
  obtain ⟨d,hd⟩ := Nat.exists_eq_add_of_le' h
  refine ⟨earlier ++ List.replicate d true,?_⟩
  rw [List.append_assoc, List.replicate_append_replicate, ← hd, ← hl]

variable {cfg}

theorem evaluations_concat {r r' : Replicator} {es : List Event} (hr : Machine.run (Replicator.step cfg) r es = some r')
    (e : Event) : evaluations cfg r (es ++ [e]) = evaluations cfg r es ++ (evaluated cfg r' e).toList := by
  induction es generalizing r with
  | nil =>
    cases hr
    simp only [List.nil_append, evaluations]
    cases Replicator.step cfg r' e <;> simp
  | cons e' es ih =>
    obtain ⟨r₁,hs,hr⟩ := Machine.run_cons.mp hr
    simp only [List.cons_append, evaluations, hs, ih hr, List.append_assoc]

/-- A short-term update that gets so far counts its judgements; then it proposes, or not. -/
theorem short_cases (cfg : Config) (r : Replicator) (view : View) :
    (evaluated cfg r (.updatePlacementShortTerm view) = none ∧ r.updatePlacementShortTerm cfg view = r) ∨
    ∃ members prev, r.placement = some prev ∧
      evaluated cfg r (.updatePlacementShortTerm view) = some (activeMetrics members r.metrics) ∧
      (r.updatePlacementShortTerm cfg view).degradedStreak =
        (watch r.degradedStreak (activeMetrics members r.metrics)).streak ∧
      ((r.updatePlacementShortTerm cfg view).placement = some prev ∨
        ∃ next ∈ proposeShort (watch r.degradedStreak (activeMetrics members r.metrics))
            (cfg.weighing.scores (activeMetrics members r.metrics)) prev,
          (r.updatePlacementShortTerm cfg view).placement = some next) := by
  cases hready : view.ready cfg with
  | none => exact .inl ⟨by simp [evaluated, hready],by simp [Replicator.updatePlacementShortTerm, Replicator.shortProposal, hready]⟩
  | some members =>
  cases hprev : r.placement with
  | none => exact .inl ⟨by simp [evaluated, hprev],by simp [Replicator.updatePlacementShortTerm, Replicator.shortProposal, hprev]⟩
  | some prev =>
    simp only [Replicator.updatePlacementShortTerm, Replicator.shortProposal, evaluated, hready, hprev]
    split
    · exact .inl ⟨rfl,rfl⟩
    · refine .inr ⟨members,prev,rfl,rfl,?_⟩
      cases hnext : proposeShort (watch r.degradedStreak (activeMetrics members r.metrics))
          (cfg.weighing.scores (activeMetrics members r.metrics)) prev with
      | none => exact ⟨rfl,.inl rfl⟩
      | some next =>
        refine ⟨rfl,?_⟩
        rcases Replicator.commit_placement cfg
          { r with
            degradedStreak := (watch r.degradedStreak (activeMetrics members r.metrics)).streak, placement := some prev }
          ⟨false,nodeIDs (activeMetrics members r.metrics),next⟩ with hp | hp
        · exact .inr ⟨next,rfl,hp⟩
        · exact .inl hp

/-- Long-term updates leave metrics and streaks alone. -/
theorem updatePlacement_fields {r r' : Replicator} {view : View} (h : r.updatePlacement cfg view = .ok r') :
    r'.metrics = r.metrics ∧ r'.metricEMA = r.metricEMA ∧ r'.rttMatrix = r.rttMatrix ∧ r'.degradedStreak = r.degradedStreak := by
  unfold Replicator.updatePlacement at h
  cases hq : r.longProposal cfg view with
  | error e =>
    rw [hq] at h
    cases h
  | ok q =>
    rw [hq] at h
    cases q <;> cases h <;> exact ⟨rfl,rfl,rfl,rfl⟩

theorem step_updatePlacement {r r' : Replicator} {view : View} (hs : r.step cfg (.updatePlacement view) = some r') :
    r.updatePlacement cfg view = .ok r' := by
  simp only [Replicator.step] at hs
  cases hok : r.updatePlacement cfg view with
  | error e => simp [hok, Except.toOption] at hs
  | ok r₁ => simpa [hok, Except.toOption] using hs

/-- Short-term updates leave the metrics alone. -/
theorem updatePlacementShortTerm_fields (cfg : Config) (r : Replicator) (view : View) :
    (r.updatePlacementShortTerm cfg view).metrics = r.metrics ∧ (r.updatePlacementShortTerm cfg view).metricEMA = r.metricEMA ∧
      (r.updatePlacementShortTerm cfg view).rttMatrix = r.rttMatrix := by
  have hfields : (r.shortProposal cfg view).1.metrics = r.metrics ∧ (r.shortProposal cfg view).1.metricEMA = r.metricEMA ∧
      (r.shortProposal cfg view).1.rttMatrix = r.rttMatrix := by
    unfold Replicator.shortProposal
    split
    · dsimp only
      split <;> exact ⟨rfl,rfl,rfl⟩
    · exact ⟨rfl,rfl,rfl⟩
  unfold Replicator.updatePlacementShortTerm
  dsimp only
  cases (r.shortProposal cfg view).2 <;> exact hfields

theorem handleMetricsMessage_streak (r : Replicator) (msg : Option GossipMetricsMessage) :
    (r.handleMetricsMessage msg).degradedStreak = r.degradedStreak := by
  unfold Replicator.handleMetricsMessage
  split
  · rfl
  · split <;> rfl

theorem handleMetricsMessage_table {r : Replicator} (h : Table r.metrics) (msg : Option GossipMetricsMessage) :
    Table (r.handleMetricsMessage msg).metrics := by
  unfold Replicator.handleMetricsMessage
  split
  · exact h
  · split
    · exact h
    · exact h.record (by rwa [smoothMetrics_nodeID])

theorem step_table {r r' : Replicator} {e : Event} (h : Table r.metrics) (hs : r.step cfg e = some r') : Table r'.metrics := by
  cases e with
  | metrics msg =>
    cases hs
    exact handleMetricsMessage_table h msg
  | updatePlacement view => rwa [(updatePlacement_fields (step_updatePlacement hs)).1]
  | updatePlacementShortTerm view =>
    cases hs
    rwa [(updatePlacementShortTerm_fields cfg r view).1]

/-- The streaks follow the judgements. -/
theorem step_streak {r r' : Replicator} {e : Event} (htable : Table r.metrics) (hs : r.step cfg e = some r') (n : NodeID) :
    r'.degradedStreak.get n = judged (r.degradedStreak.get n) ((evaluated cfg r e).bind (verdict · n)) := by
  cases e with
  | metrics msg =>
    cases hs
    rw [handleMetricsMessage_streak]
    rfl
  | updatePlacement view =>
    rw [(updatePlacement_fields (step_updatePlacement hs)).2.2.2]
    rfl
  | updatePlacementShortTerm view =>
    cases hs
    rcases short_cases cfg r view with ⟨heval,hsame⟩ | ⟨members,prev,_,heval,hstreak,_⟩
    · rw [heval, hsame]
      rfl
    · rw [heval, hstreak, (watch_spec (htable.active members).nodup r.degradedStreak n).1]
      rfl

theorem judged_trailing (l : List Bool) (v : Option Bool) : judged (trailing l) v = trailing (l ++ v.toList) := by
  cases v with
  | none => simp [judged]
  | some b => cases b <;> simp [judged, trailing_concat]

theorem verdicts_concat (n : NodeID) (evals : List (List NodeMetrics)) (eval : Option (List NodeMetrics)) :
    verdicts n (evals ++ eval.toList) = verdicts n evals ++ (eval.bind (verdict · n)).toList := by
  cases eval with
  | none => simp
  | some active => cases h : verdict active n <;> simp [verdicts, h]

/-- A node that has judged nobody yet. -/
structure Fresh (r : Replicator) : Prop where
  table : Table r.metrics
  streak : ∀ n, r.degradedStreak.get n = 0

/-- What is known after a run. -/
structure Judges (cfg : Config) (r₀ : Replicator) (es : List Event) (r : Replicator) : Prop where
  table : Table r.metrics
  reached : Machine.run (Replicator.step cfg) r₀ es = some r
  streak : ∀ n, r.degradedStreak.get n = trailing (verdicts n (evaluations cfg r₀ es))

theorem step_judges {r₀ : Replicator} {es : List Event} {r r' : Replicator} {e : Event} (h : Judges cfg r₀ es r)
    (hs : r.step cfg e = some r') : Judges cfg r₀ (es ++ [e]) r' := by
  refine ⟨step_table h.table hs,Machine.run_append.mpr ⟨r,h.reached,?_⟩,fun n => ?_⟩
  · exact Machine.run_cons.mpr ⟨r',hs,rfl⟩
  · rw [step_streak h.table hs, h.streak, judged_trailing, evaluations_concat h.reached, verdicts_concat]

theorem run_judges {r₀ r : Replicator} {es : List Event} (h : Fresh r₀)
    (hr : Machine.run (Replicator.step cfg) r₀ es = some r) : Judges cfg r₀ es r :=
  Machine.run_history (I := Judges cfg r₀) (fun _ _ _ _ h hs => step_judges h hs)
    ⟨h.table,rfl,fun n => by simp [h.streak n, verdicts, evaluations, trailing]⟩ hr

end History

/-- Only a primary that has long been degraded loses a vnode to a proposal. -/
theorem proposeShort_demotes {w : Watch} {scores : List NodeInfo} {prev next : ScoredPlacement}
    (h : proposeShort w scores prev = some next) {i : Nat} {v v' : VNode} (hv : prev.vnodes[i]? = some v)
    (hv' : next.vnodes[i]? = some v') (hne : v'.primary ≠ v.primary) : v.primary ∈ w.sustained := by
  have hvnodes : next.vnodes = prev.vnodes.map (fun v => (swapped w scores v).getD v) := by
    simp only [proposeShort] at h
    split at h
    · cases h
    · split at h <;> cases h
      rfl
  rw [hvnodes, List.getElem?_map, hv, Option.map_some] at hv'
  cases hs : swapped w scores v with
  | none =>
    rw [hs] at hv'
    cases hv'
    exact absurd rfl hne
  | some u => exact of_decide_eq_true (swapRoles_eq_some hs).1

/-- A short-term update takes a vnode from its primary only if the six last judgements on the
primary, this one included, were that it is severely degraded. Updates that the primary takes
no part in do not count. -/
theorem demoted_after_six (cfg : Config) {r₀ r r' : Replicator} {es : List Event} {view : View} (hfresh : Fresh r₀)
    (hr : Machine.run (Replicator.step cfg) r₀ es = some r) (hs : r.step cfg (.updatePlacementShortTerm view) = some r')
    {p p' : ScoredPlacement} (hp : r.placement = some p) (hp' : r'.placement = some p') {i : Nat} {v v' : VNode}
    (hv : p.vnodes[i]? = some v) (hv' : p'.vnodes[i]? = some v') (hne : v'.primary ≠ v.primary) :
    ∃ earlier, verdicts v.primary (evaluations cfg r₀ (es ++ [.updatePlacementShortTerm view])) =
      earlier ++ List.replicate 6 true := by
  have hjudges := run_judges hfresh hr
  have hafter := step_judges hjudges hs
  cases hs
  rcases short_cases cfg r view with ⟨_,hsame⟩ | ⟨members,prev,hprev,_,hstreak,hplacement⟩
  · rw [hsame, hp] at hp'
    cases hp'
    exact absurd (congrArg VNode.primary (Option.some.inj (hv'.symm.trans hv))) hne
  cases hprev.symm.trans hp
  rcases hplacement with hkept | ⟨next,hnext,hplaced⟩
  · cases hkept.symm.trans hp'
    exact absurd (congrArg VNode.primary (Option.some.inj (hv'.symm.trans hv))) hne
  cases hplaced.symm.trans hp'
  have hspec := watch_spec (hjudges.table.active members).nodup r.degradedStreak v.primary
  have hsix := (hspec.2.mp (proposeShort_demotes hnext hv hv' hne)).2
  rw [← hstreak, hafter.streak] at hsix
  exact trailing_ge (by exact_mod_cast hsix)

section Sample
open Replicator

/-- A node at its limit is primary of all vnodes, one that idles their replica. -/
def strained : Replicator :=
  { newReplicator with
    metrics := [{ sampleMetrics "p" with cpuUsage := 1 },sampleMetrics "a"], placement := some ⟨heldBy 1 "p" ["a"],[]⟩ }

def strainedView : View := ⟨false,true,some [⟨"p",some "p"⟩,⟨"a",some "a"⟩]⟩

/-- The primary of the first vnode, and the one that the next short-term update leaves it. -/
def firstPrimary (r : Replicator) : Option (NodeID × NodeID) := do
  let p ← r.placement
  let p' ← (r.updatePlacementShortTerm sampleConfig strainedView).placement
  let v ← p.vnodes[0]?
  let v' ← p'.vnodes[0]?
  some (v.primary,v'.primary)

theorem demoted_after_six_sample : ∃ earlier,
    verdicts "p" (evaluations sampleConfig strained (List.replicate 5 (.updatePlacementShortTerm strainedView) ++
      [.updatePlacementShortTerm strainedView])) = earlier ++ List.replicate 6 true := by
  have hfacts : (Machine.run (step sampleConfig) strained
      (List.replicate 5 (.updatePlacementShortTerm strainedView))).bind firstPrimary = some ("p","a") := by
    decide +kernel
  obtain ⟨r,hr,hfirst⟩ := Option.bind_eq_some_iff.mp hfacts
  simp only [firstPrimary, Option.bind_eq_bind, Option.bind_eq_some_iff, Option.some.injEq, Prod.mk.injEq] at hfirst
  obtain ⟨p,hp,p',hp',v,hv,v',hv',hprimary,hnew⟩ := hfirst
  have hsix := demoted_after_six sampleConfig
    (show Fresh strained from ⟨⟨by decide,by decide⟩,by simp [strained, newReplicator, Counts.get]⟩)
    hr rfl hp hp' hv hv' (by rw [hprimary, hnew]; decide)
  rwa [hprimary] at hsix

end Sample

section Reports

/-- What a node has reported, in order. -/
def reports (n : NodeID) (es : List Event) : List NodeMetrics :=
  es.filterMap (fun
    | .metrics (some msg) => if msg.metrics.nodeID = n then some msg.metrics else none
    | _ => none)

/-- The average of what a node has reported. -/
def averaged (raws : List NodeMetrics) : Option NodeMetrics := raws.foldl (fun prev raw => some (smoothMetrics prev raw)) none

theorem averaged_concat (raws : List NodeMetrics) (raw : NodeMetrics) :
    averaged (raws ++ [raw]) = some (smoothMetrics (averaged raws) raw) := by
  simp [averaged]

theorem reports_concat (n : NodeID) (es : List Event) (e : Event) : reports n (es ++ [e]) = reports n es ++ reports n [e] :=
  List.filterMap_append

theorem reports_message (n : NodeID) (msg : GossipMetricsMessage) :
    reports n [.metrics (some msg)] = if msg.metrics.nodeID = n then [msg.metrics] else [] := by
  by_cases h : msg.metrics.nodeID = n <;> simp [reports, h]

theorem find?_record (m : NodeMetrics) (metrics : List NodeMetrics) (n : NodeID) :
    (record m metrics).find? (·.nodeID = n) = if m.nodeID = n then some m else metrics.find? (·.nodeID = n) := by
  induction metrics with
  | nil => by_cases h : m.nodeID = n <;> simp [record, h]
  | cons x xs ih =>
    by_cases hx : x.nodeID = m.nodeID
    · by_cases h : m.nodeID = n <;> simp [record, hx, h]
    · rw [record, if_neg hx]
      by_cases hxn : x.nodeID = n
      · simp [hxn, show m.nodeID ≠ n from fun h => hx (hxn.trans h.symm)]
      · simp [hxn, ih]

/-- The tables hold the averages of what has been reported. -/
structure Averages (es : List Event) (r : Replicator) : Prop where
  ema : ∀ n ≠ "", r.metricEMA.lookup n = averaged (reports n es)
  metrics : ∀ n ≠ "", r.metrics.find? (·.nodeID = n) = averaged (reports n es)

/-- Events that report nothing and leave the tables alone. -/
theorem Averages.silent {es : List Event} {r r' : Replicator} {e : Event} (h : Averages es r)
    (he : ∀ n ≠ "", reports n [e] = []) (hema : r'.metricEMA = r.metricEMA) (hmetrics : r'.metrics = r.metrics) :
    Averages (es ++ [e]) r' := by
  refine ⟨fun n hn => ?_,fun n hn => ?_⟩
  · rw [reports_concat, he n hn, List.append_nil, hema, h.ema n hn]
  · rw [reports_concat, he n hn, List.append_nil, hmetrics, h.metrics n hn]

theorem Averages.message {es : List Event} {r : Replicator} (h : Averages es r) (msg : GossipMetricsMessage) :
    Averages (es ++ [.metrics (some msg)]) (r.handleMetricsMessage (some msg)) := by
  simp only [Replicator.handleMetricsMessage]
  split
  · rename_i hid
    refine h.silent (fun n hn => ?_) rfl rfl
    rw [reports_message, if_neg (fun he => hn (he.symm.trans hid))]
  · rename_i hid
    refine ⟨fun n hn => ?_,fun n hn => ?_⟩
    · rw [reports_concat, reports_message, lookup_insert_ite]
      by_cases hn' : msg.metrics.nodeID = n
      · rw [if_pos hn', if_pos hn'.symm, averaged_concat, hn', h.ema n hn]
      · rw [if_neg hn', if_neg (Ne.symm hn'), List.append_nil, h.ema n hn]
    · rw [reports_concat, reports_message, find?_record, smoothMetrics_nodeID]
      by_cases hn' : msg.metrics.nodeID = n
      · rw [if_pos hn', if_pos hn', averaged_concat, hn', h.ema n hn]
      · rw [if_neg hn', if_neg hn', List.append_nil, h.metrics n hn]

theorem step_averages {cfg : Config} {es : List Event} {r r' : Replicator} {e : Event} (h : Averages es r)
    (hs : r.step cfg e = some r') : Averages (es ++ [e]) r' := by
  cases e with
  | metrics msg =>
    cases hs
    cases msg with
    | none => exact h.silent (fun _ _ => rfl) rfl rfl
    | some msg => exact h.message msg
  | updatePlacement view =>
    obtain ⟨hm,he,-⟩ := updatePlacement_fields (step_updatePlacement hs)
    exact h.silent (fun _ _ => rfl) he hm
  | updatePlacementShortTerm view =>
    cases hs
    obtain ⟨hm,he,-⟩ := updatePlacementShortTerm_fields cfg r view
    exact h.silent (fun _ _ => rfl) he hm

theorem run_averages {cfg : Config} {es : List Event} {r : Replicator}
    (hr : Machine.run (Replicator.step cfg) newReplicator es = some r) : Averages es r :=
  Machine.run_history (fun _ _ _ _ h hs => step_averages h hs)
    ⟨by simp [newReplicator, reports, averaged],by simp [newReplicator, reports, averaged]⟩ hr

/-- A usage: the first report counts as it is, then each for a quarter. -/
structure IsUsage (u : NodeMetrics → Rat) : Prop where
  first : ∀ raw, u (smoothMetrics none raw) = clampUnit (u raw)
  next : ∀ prev raw, u (smoothMetrics (some prev) raw) = mix (1/4) (clampUnit (u raw)) (u prev)

theorem isUsage_cpu : IsUsage NodeMetrics.cpuUsage := ⟨fun _ => rfl,fun _ _ => by norm_num [smoothMetrics, mix]⟩

theorem isUsage_mem : IsUsage NodeMetrics.memUsage := ⟨fun _ => rfl,fun _ _ => by norm_num [smoothMetrics, mix]⟩

theorem isUsage_net : IsUsage NodeMetrics.netUsage := ⟨fun _ => rfl,fun _ _ => by norm_num [smoothMetrics, mix]⟩

theorem isUsage_disk : IsUsage NodeMetrics.diskUsage := ⟨fun _ => rfl,fun _ _ => by norm_num [smoothMetrics, mix]⟩

theorem clampUnit_mem (v : Rat) : clampUnit v ∈ Set.Icc 0 1 := by
  unfold clampUnit
  split
  · exact ⟨le_refl _,zero_le_one⟩
  · split
    · exact ⟨zero_le_one,le_refl _⟩
    · rename_i h0 h1
      exact ⟨not_lt.mp h0,not_lt.mp h1⟩

section Usage
variable {u : NodeMetrics → Rat} (hu : IsUsage u)
include hu

/-- Averages of usages stay between none and full. -/
theorem averaged_mem {raws : List NodeMetrics} {m : NodeMetrics} (h : averaged raws = some m) : u m ∈ Set.Icc 0 1 := by
  induction raws using List.reverseRecOn generalizing m with
  | nil => cases h
  | append_singleton raws raw ih =>
    rw [averaged_concat] at h
    cases h
    cases hprev : averaged raws with
    | none => exact hu.first raw ▸ clampUnit_mem _
    | some prev => exact hu.next prev raw ▸ mix_mem (by norm_num) (by norm_num) (clampUnit_mem _) (ih hprev)

/-- The average after some more reports. -/
theorem averaged_append {earlier : List NodeMetrics} {m : NodeMetrics} (h : averaged earlier = some m) (late : List NodeMetrics) :
    ∃ m', averaged (earlier ++ late) = some m' ∧ u m' = smooth (1/4) (u m) (late.map (fun raw => clampUnit (u raw))) := by
  induction late using List.reverseRecOn with
  | nil => exact ⟨m,by simpa using h,rfl⟩
  | append_singleton late raw ih =>
    obtain ⟨m',hm',hm⟩ := ih
    refine ⟨_,by rw [← List.append_assoc, averaged_concat, hm'],?_⟩
    rw [hu.next, hm, List.map_append, List.map_singleton, smooth_concat]

/-- Reports of at least the level draw the average up to it, whatever was before. -/
theorem averaged_ge (earlier : List NodeMetrics) {late : List NodeMetrics} (hne : late ≠ []) {c : Rat} (hc : 0 ≤ c)
    (hlate : ∀ raw ∈ late, c ≤ clampUnit (u raw)) :
    ∃ m, averaged (earlier ++ late) = some m ∧ c*(1-(3/4)^late.length) ≤ u m := by
  have hlevel {y : Rat} {late : List NodeMetrics} (hlate : ∀ raw ∈ late, c ≤ clampUnit (u raw)) :
      c+(3/4)^late.length*(y-c) ≤ smooth (1/4) y (late.map (fun raw => clampUnit (u raw))) := by
    have hmap : ∀ x ∈ late.map (fun raw => clampUnit (u raw)), c ≤ x := by simpa using hlate
    have h := le_smooth (a := (1/4 : Rat)) (by norm_num) (by norm_num) (y := y) hmap
    rw [List.length_map] at h
    norm_num at h ⊢
    exact h
  have hpow (k : Nat) : (0 : Rat) ≤ (3/4)^k := pow_nonneg (by norm_num) k
  cases hm : averaged earlier with
  | some m =>
    obtain ⟨m',hm',hu'⟩ := averaged_append hu hm late
    refine ⟨m',hm',?_⟩
    have hge := mul_nonneg (hpow late.length) (averaged_mem hu hm).1
    rw [hu']
    linarith [hlevel (y := u m) hlate]
  | none =>
    -- Nothing was reported before, so the first report is taken as it is.
    obtain rfl : earlier = [] := by
      rcases List.eq_nil_or_concat earlier with hnil | ⟨init,raw,rfl⟩
      · exact hnil
      · rw [List.concat_eq_append, averaged_concat] at hm
        cases hm
    cases late with
    | nil => exact absurd rfl hne
    | cons raw late =>
      obtain ⟨hraw,hlate⟩ := List.forall_mem_cons.mp hlate
      obtain ⟨m',hm',hu'⟩ := averaged_append hu (show averaged [raw] = some (smoothMetrics none raw) from rfl) late
      refine ⟨m',hm',?_⟩
      have hge := mul_nonneg (hpow late.length) (sub_nonneg.mpr hraw)
      have hdrop := mul_nonneg hc (hpow (raw::late).length)
      rw [hu', hu.first]
      linarith [hlevel (y := clampUnit (u raw)) hlate]

end Usage
end Reports

/-- A node that goes on reporting a high usage of its processors or its disk is judged to be
degraded after so many reports, whatever it reported before: nine of them when it is at its
limit. -/
theorem overload_recognised (cfg : Config) (es : List Event) {r : Replicator}
    (hr : Machine.run (Replicator.step cfg) newReplicator es = some r) {n : NodeID} (hn : n ≠ "") {u : NodeMetrics → Rat}
    (hu : u = NodeMetrics.cpuUsage ∨ u = NodeMetrics.diskUsage) (earlier late : List NodeMetrics)
    (hreports : reports n es = earlier ++ late) {c : Rat} (hc : 0 ≤ c) (hlate : ∀ raw ∈ late, c ≤ clampUnit (u raw))
    (hlong : 90/100 ≤ c*(1-(3/4)^late.length)) :
    ∃ m, r.metrics.find? (·.nodeID = n) = some m ∧ ∀ avgRTT, isSeverelyDegraded m avgRTT = true := by
  have hne : late ≠ [] := by
    rintro rfl
    norm_num at hlong
  have husage : IsUsage u := by
    rcases hu with rfl | rfl
    · exact isUsage_cpu
    · exact isUsage_disk
  obtain ⟨m,hm,hge⟩ := averaged_ge husage earlier hne hc hlate
  refine ⟨m,by rw [(run_averages hr).metrics n hn, hreports, hm],fun avgRTT => ?_⟩
  have hhigh := hlong.trans hge
  rcases hu with rfl | rfl <;> simp [isSeverelyDegraded, hhigh]

/-- Nine reports at the limit after one that was not. -/
theorem overload_recognised_sample : ∃ r m, Machine.run (Replicator.step Replicator.sampleConfig) newReplicator
      ([.metrics (some ⟨Replicator.sampleMetrics "p",∅⟩)] ++
        List.replicate 9 (.metrics (some ⟨{ Replicator.sampleMetrics "p" with cpuUsage := 1 },∅⟩))) = some r ∧
    r.metrics.find? (·.nodeID = "p") = some m ∧ isSeverelyDegraded m 0 = true := by
  obtain ⟨m,hm,hsevere⟩ := overload_recognised Replicator.sampleConfig ([.metrics (some ⟨Replicator.sampleMetrics "p",∅⟩)] ++
      List.replicate 9 (.metrics (some ⟨{ Replicator.sampleMetrics "p" with cpuUsage := 1 },∅⟩))) rfl (n := "p") (by decide)
    (.inl rfl) [Replicator.sampleMetrics "p"]
    (List.replicate 9 { Replicator.sampleMetrics "p" with cpuUsage := 1 }) rfl (c := 1) (by norm_num)
    (by norm_num [clampUnit]) (by norm_num)
  exact ⟨_,m,rfl,hm,hsevere 0⟩

end Nawst.Cluster.Update
