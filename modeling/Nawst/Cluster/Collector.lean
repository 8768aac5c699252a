import Nawst.Cluster.Degradation

/-! A node measures its peers and itself, and gossips the result to the leader, who ranks
replicas by it. Numbers are exact: only what the system reports can be infinite or no number. -/
namespace Nawst.Cluster.Collector
open Lib Lib.FiniteMap Lib.MovingAverage Nawst.Core Update

structure NetSample where
  rxBytes : UInt64
  txBytes : UInt64
  time : Rat
  deriving DecidableEq

structure MetricsCollector where
  nodeID : NodeID
  cpuCores : Int
  memGB : Int
  bandwidthMbps : Int
  diskGB : Int
  lastRTT : FMap NodeID Rat
  lastNetSample : Option NetSample
  deriving DecidableEq

def detectCPUCores : Option Int → Int
  | none => 1
  | some c => if c ≤ 0 then 1 else c

/-- A size in bytes, none when it cannot be read. -/
def detectGB : Option UInt64 → Int
  | none => 1
  | some total => if total = 0 then 1 else if total/(1024*1024*1024) = 0 then 1 else (total/(1024*1024*1024)).toNat

def detectMemGB (total : Option UInt64) : Int := detectGB total

def detectDiskGB (total : Option UInt64) : Int := detectGB total

def newMetricsCollector (nodeID : NodeID) (bandwidthMbps : Int) (cores : Option Int) (memTotal diskTotal : Option UInt64) :
    MetricsCollector where
  nodeID := nodeID
  cpuCores := detectCPUCores cores
  memGB := detectMemGB memTotal
  bandwidthMbps := if bandwidthMbps ≤ 0 then 100 else bandwidthMbps
  diskGB := detectDiskGB diskTotal
  lastRTT := ∅
  lastNetSample := none

/-- What comes from outside need not be a number. -/
inductive Reading where
  | number (v : Rat)
  | infinite
  | nan
  deriving DecidableEq

def Reading.map (f : Rat → Rat) : Reading → Reading
  | .number v => .number (f v)
  | .infinite => .infinite
  | .nan => .nan

def clamp01 : Reading → Rat
  | .nan => 0
  | .infinite => 0
  | .number v => if v < 0 then 0 else if 1 < v then 1 else v

def diffUint64 (cur prev : UInt64) : UInt64 := if prev ≤ cur then cur-prev else 0

/-- What the system says of itself: shares in percent and counters of bytes, none when they
cannot be read, and the time in seconds. -/
structure Readings where
  cpu : Option Reading
  mem : Option Reading
  disk : Option Reading
  counters : Option (UInt64 × UInt64)
  now : Rat
  deriving DecidableEq

def readUsage : Option Reading → Rat
  | none => 0
  | some percent => clamp01 (percent.map (·/100))

namespace MetricsCollector

def recordRTT (mc : MetricsCollector) (peerID : NodeID) (latencyMS : Rat) : MetricsCollector :=
  if peerID = "" ∨ latencyMS ≤ 0 then mc
  else match mc.lastRTT.lookup peerID with
    | some old => { mc with lastRTT := mc.lastRTT.insert peerID (8/10*old+2/10*latencyMS) }
    | none => { mc with lastRTT := mc.lastRTT.insert peerID latencyMS }

def snapshotRTT (mc : MetricsCollector) : FMap NodeID Rat := mc.lastRTT

/-- The time to connect is in nanoseconds, and rounded down to milliseconds. -/
def probePeerRTT (mc : MetricsCollector) (peerID rpcAddr : String) (dial : Option Nat) : MetricsCollector :=
  if peerID = "" ∨ rpcAddr = "" then mc
  else match dial with
    | none => mc
    | some ns => mc.recordRTT peerID (ns/1000000 : Nat)

def avgRTT (mc : MetricsCollector) : Rat :=
  if mc.lastRTT.keys = ∅ then 1
  else positiveOr ((∑ n ∈ mc.lastRTT.keys, (mc.lastRTT.lookup n).getD 0)/mc.lastRTT.keys.card) 1

def readNetUsage (mc : MetricsCollector) (counters : Option (UInt64 × UInt64)) (now : Rat) : MetricsCollector × Rat :=
  match counters with
  | none => (mc,0)
  | some (rx,tx) =>
    let mc' := { mc with lastNetSample := some ⟨rx,tx,now⟩ }
    match mc.lastNetSample with
    | none => (mc',0)
    | some last =>
      let dt := now-last.time
      if dt ≤ 0 then (mc,0)
      else
        let bitsPerSecond := ((diffUint64 rx last.rxBytes+diffUint64 tx last.txBytes).toNat : Rat)*8/dt
        let capacity := (mc.bandwidthMbps : Rat)*1000000
        if capacity ≤ 0 then (mc',0) else (mc',clamp01 (.number (bitsPerSecond/capacity)))

def getCurrentMetrics (mc : MetricsCollector) (readings : Readings) : MetricsCollector × NodeMetrics :=
  let (mc',netUsage) := mc.readNetUsage readings.counters readings.now
  (mc',
    { nodeID := mc.nodeID
      avgRTT := mc.avgRTT
      cpuCores := mc.cpuCores
      memGB := mc.memGB
      bandwidthMbps := mc.bandwidthMbps
      diskGB := mc.diskGB
      cpuUsage := readUsage readings.cpu
      memUsage := readUsage readings.mem
      netUsage := netUsage
      diskUsage := readUsage readings.disk })

/-- The message that a node publishes. -/
def publish (mc : MetricsCollector) (readings : Readings) : MetricsCollector × GossipMetricsMessage :=
  let (mc',m) := mc.getCurrentMetrics readings
  (mc',⟨m,mc'.snapshotRTT⟩)

end MetricsCollector

/-- A node, the messages it has sent, which arrive late, often or never, and the leader. -/
structure System where
  collector : MetricsCollector
  sent : List GossipMetricsMessage
  leader : Replicator

inductive Event where
  | probe (peerID rpcAddr : String) (dial : Option Nat)
  | publish (readings : Readings)
  | deliver (i : Nat)
  | lead (e : Update.Event)

namespace System

/-- Other reports that reach the leader are of other nodes. -/
def step (cfg : Config) (s : System) : Event → Option System
  | .probe peerID rpcAddr dial => some { s with collector := s.collector.probePeerRTT peerID rpcAddr dial }
  | .publish readings =>
    let (mc,msg) := s.collector.publish readings
    some { s with collector := mc, sent := s.sent ++ [msg] }
  | .deliver i => s.sent[i]?.map (fun msg => { s with leader := s.leader.handleMetricsMessage (some msg) })
  | .lead e => if reports s.collector.nodeID [e] = [] then (s.leader.step cfg e).map (fun r => { s with leader := r }) else none

end System

section Measured

/-- The times that were measured to a peer, in milliseconds. What takes less than one is not
recorded. -/
def measured (peer : NodeID) (es : List Event) : List Nat :=
  es.filterMap (fun
    | .probe peerID rpcAddr (some ns) => if peerID = peer ∧ rpcAddr ≠ "" ∧ 1000000 ≤ ns then some (ns/1000000) else none
    | _ => none)

/-- A value between two of the times. -/
def Within (times : List Nat) (x : Rat) : Prop := ∃ a ∈ times, ∃ b ∈ times, (a : Rat) ≤ x ∧ x ≤ b

theorem Within.mono {times times' : List Nat} {x : Rat} (h : Within times x) (hsub : times ⊆ times') : Within times' x := by
  obtain ⟨a,ha,b,hb,hx⟩ := h
  exact ⟨a,hsub ha,b,hsub hb,hx⟩

theorem Within.of_mem {times : List Nat} {c : Nat} (h : c ∈ times) : Within times c := ⟨c,h,c,h,le_refl _,le_refl _⟩

/-- Mixing in one of the times stays between them. -/
theorem Within.mix {times : List Nat} {x : Rat} (h : Within times x) {c : Nat} (hc : c ∈ times) :
    Within times (8/10*x+2/10*c) := by
  obtain ⟨a,ha,b,hb,hax,hxb⟩ := h
  have hmin : min a c ∈ times := by rcases min_choice a c with h | h <;> rw [h] <;> assumption
  have hmax : max b c ∈ times := by rcases max_choice b c with h | h <;> rw [h] <;> assumption
  refine ⟨min a c,hmin,max b c,hmax,?_⟩
  have hcmem : (c : Rat) ∈ Set.Icc ((min a c : Nat) : Rat) (max b c : Nat) :=
    ⟨by exact_mod_cast min_le_right a c,by exact_mod_cast le_max_right b c⟩
  have hxmem : x ∈ Set.Icc ((min a c : Nat) : Rat) (max b c : Nat) :=
    ⟨le_trans (by exact_mod_cast min_le_left a c) hax,le_trans hxb (by exact_mod_cast le_max_left b c)⟩
  have hmem := mix_mem (a := (2/10 : Rat)) (by norm_num) (by norm_num) hcmem hxmem
  have heq : MovingAverage.mix (2/10 : Rat) c x = 8/10*x+2/10*c := by
    unfold MovingAverage.mix
    ring
  rwa [heq] at hmem

theorem measured_concat (peer : NodeID) (es : List Event) (e : Event) :
    measured peer (es ++ [e]) = measured peer es ++ measured peer [e] := List.filterMap_append

/-- All values of a map are between times that were measured. -/
def Measures (es : List Event) (m : FMap NodeID Rat) : Prop := ∀ peer x, m.lookup peer = some x → Within (measured peer es) x

theorem Measures.concat {es : List Event} {m : FMap NodeID Rat} (h : Measures es m) (e : Event) : Measures (es ++ [e]) m :=
  fun peer x hx => (h peer x hx).mono (measured_concat peer es e ▸ List.subset_append_left _ _)

theorem Measures.empty (es : List Event) : Measures es ∅ := fun peer x hx => by simp at hx

theorem Measures.union {es : List Event} {m m' : FMap NodeID Rat} (h : Measures es m) (h' : Measures es m') :
    Measures es (m ∪ m') := by
  intro peer x hx
  rcases Finmap.mem_lookup_union.mp (Option.mem_def.mpr hx) with hx | ⟨_,hx⟩
  · exact h peer x hx
  · exact h' peer x hx

theorem Measures.insert {es : List Event} {m : FMap NodeID Rat} (h : Measures es m) {peer : NodeID} {x : Rat}
    (hx : Within (measured peer es) x) : Measures es (m.insert peer x) := by
  intro peer' x' hx'
  rw [lookup_insert_ite] at hx'
  split at hx'
  · rename_i hp
    cases hx'
    exact hp ▸ hx
  · exact h peer' x' hx'

/-- Probing keeps the map between what was measured. -/
theorem probe_measures {es : List Event} {mc : MetricsCollector} (h : Measures es mc.lastRTT) (peerID rpcAddr : String)
    (dial : Option Nat) : Measures (es ++ [.probe peerID rpcAddr dial]) (mc.probePeerRTT peerID rpcAddr dial).lastRTT := by
  have hold := h.concat (.probe peerID rpcAddr dial)
  unfold MetricsCollector.probePeerRTT
  split
  · exact hold
  · rename_i hnamed
    cases dial with
    | none => exact hold
    | some ns =>
      dsimp only
      unfold MetricsCollector.recordRTT
      split
      · exact hold
      · rename_i hpos
        have hms : 1000000 ≤ ns := by
          have hpos : 0 < ns/1000000 := by exact_mod_cast not_le.mp (not_or.mp hpos).2
          omega
        have hmem : ns/1000000 ∈ measured peerID (es ++ [.probe peerID rpcAddr (some ns)]) := by
          rw [measured_concat]
          exact List.mem_append_right _ (by simp [measured, hms, (not_or.mp hnamed).2])
        split
        · rename_i old hl
          exact hold.insert ((hold peerID old hl).mix hmem)
        · exact hold.insert (Within.of_mem hmem)

end Measured

namespace System
variable {cfg : Config} {node : NodeID}

/-- The node's map, what it has sent and the leader's row for it come from measurements. -/
structure Inv (node : NodeID) (es : List Event) (s : System) : Prop where
  id_eq : s.collector.nodeID = node
  own : Measures es s.collector.lastRTT
  sent : ∀ msg ∈ s.sent, msg.metrics.nodeID = node ∧ Measures es msg.rttData
  row : ∀ row, s.leader.rttMatrix.lookup node = some row → Measures es row

theorem Inv.concat {es : List Event} {s : System} (h : Inv node es s) (e : Event) : Inv node (es ++ [e]) s where
  id_eq := h.id_eq
  own := h.own.concat e
  sent msg hmsg := ⟨(h.sent msg hmsg).1,(h.sent msg hmsg).2.concat e⟩
  row row hrow := (h.row row hrow).concat e

/-- Probing changes the times only. -/
theorem probe_eq (mc : MetricsCollector) (peerID rpcAddr : String) (dial : Option Nat) :
    ∃ lastRTT, mc.probePeerRTT peerID rpcAddr dial = { mc with lastRTT := lastRTT } := by
  unfold MetricsCollector.probePeerRTT MetricsCollector.recordRTT
  split
  · exact ⟨_,rfl⟩
  · split
    · exact ⟨_,rfl⟩
    · split
      · exact ⟨_,rfl⟩
      · split <;> exact ⟨_,rfl⟩

/-- Publishing changes the sample of the network only. -/
theorem readNetUsage_eq (mc : MetricsCollector) (counters : Option (UInt64 × UInt64)) (now : Rat) :
    ∃ sample, (mc.readNetUsage counters now).1 = { mc with lastNetSample := sample } := by
  unfold MetricsCollector.readNetUsage
  split
  · exact ⟨_,rfl⟩
  · dsimp only
    split
    · exact ⟨_,rfl⟩
    · split
      · exact ⟨_,rfl⟩
      · split <;> exact ⟨_,rfl⟩

/-- The row of the node after a message: that of the message over the one before. -/
theorem lookup_message {r : Replicator} {msg : GossipMetricsMessage} {row : FMap NodeID Rat}
    (h : (r.handleMetricsMessage (some msg)).rttMatrix.lookup node = some row) :
    r.rttMatrix.lookup node = some row ∨
      msg.metrics.nodeID = node ∧ row = msg.rttData ∪ (r.rttMatrix.lookup node).getD ∅ := by
  simp only [Replicator.handleMetricsMessage] at h
  split at h
  · exact .inl h
  · rw [lookup_insert_ite, smoothMetrics_nodeID] at h
    split at h
    · rename_i hid
      cases h
      exact .inr ⟨hid.symm,by rw [hid]⟩
    · exact .inl h

/-- What else the leader does leaves the row of the node alone. -/
theorem lookup_lead {r r' : Replicator} {e : Update.Event} (hquiet : reports node [e] = []) (hs : r.step cfg e = some r')
    {row : FMap NodeID Rat} (h : r'.rttMatrix.lookup node = some row) : r.rttMatrix.lookup node = some row := by
  cases e with
  | metrics msg =>
    cases hs
    cases msg with
    | none => exact h
    | some msg =>
      rcases lookup_message h with h | ⟨hid,-⟩
      · exact h
      · rw [reports_message, if_pos hid] at hquiet
        cases hquiet
  | updatePlacement view => rwa [← (updatePlacement_fields (step_updatePlacement hs)).2.2.1]
  | updatePlacementShortTerm view =>
    cases hs
    rwa [← (updatePlacementShortTerm_fields cfg r view).2.2]

theorem step_inv {es : List Event} {s s' : System} {e : Event} (h : Inv node es s) (hs : s.step cfg e = some s') :
    Inv node (es ++ [e]) s' := by
  have hold := h.concat e
  cases e with
  | probe peerID rpcAddr dial =>
    cases hs
    obtain ⟨rtt,heq⟩ := probe_eq s.collector peerID rpcAddr dial
    exact { hold with
      id_eq := (congrArg MetricsCollector.nodeID heq).trans h.id_eq
      own := probe_measures h.own peerID rpcAddr dial }
  | publish readings =>
    cases hs
    obtain ⟨sample,heq⟩ := readNetUsage_eq s.collector readings.counters readings.now
    have hown : Measures (es ++ [.publish readings]) (s.collector.readNetUsage readings.counters readings.now).1.lastRTT :=
      congrArg MetricsCollector.lastRTT heq ▸ hold.own
    exact { hold with
      id_eq := (congrArg MetricsCollector.nodeID heq).trans h.id_eq
      own := hown
      sent := Machine.forall_mem_concat hold.sent ⟨h.id_eq,hown⟩ }
  | deliver i =>
    obtain ⟨msg,hmsg,rfl⟩ := Option.map_eq_some_iff.mp hs
    obtain ⟨-,hdata⟩ := hold.sent msg (List.mem_of_getElem? hmsg)
    refine { hold with row := fun row hrow => ?_ }
    rcases lookup_message hrow with hrow | ⟨-,rfl⟩
    · exact hold.row row hrow
    · refine hdata.union ?_
      cases hrow : s.leader.rttMatrix.lookup node with
      | none => exact .empty _
      | some row => exact hold.row row hrow
  | lead e =>
    simp only [step, Option.ite_none_right_eq_some, Option.map_eq_some_iff] at hs
    obtain ⟨hquiet,r',hr',rfl⟩ := hs
    exact { hold with row := fun row hrow => hold.row row (lookup_lead (h.id_eq ▸ hquiet) hr' hrow) }

/-- A node that has measured nothing yet, and a leader that has not heard of it. -/
structure Fresh (node : NodeID) (s : System) : Prop where
  id_eq : s.collector.nodeID = node
  own : s.collector.lastRTT = ∅
  sent : s.sent = []
  row : s.leader.rttMatrix.lookup node = none

theorem run_inv {s₀ s : System} {es : List Event} (h : Fresh node s₀) (hr : Machine.run (step cfg) s₀ es = some s) :
    Inv node es s :=
  Machine.run_history (I := Inv node) (fun _ _ _ _ h hs => step_inv h hs)
    ⟨h.id_eq,h.own ▸ .empty _,by simp [h.sent],by simp [h.row]⟩ hr

theorem Inv.link {es : List Event} {s : System} (h : Inv node es s) (peer : NodeID) :
    linkRTT s.leader.rttMatrix node peer = 1000 ∨ Within (measured peer es) (linkRTT s.leader.rttMatrix node peer) := by
  unfold linkRTT
  cases hrow : s.leader.rttMatrix.lookup node with
  | none => exact .inl rfl
  | some row =>
    dsimp only
    cases hx : row.lookup peer with
    | none => exact .inl rfl
    | some x =>
      dsimp only
      split
      · exact .inr (h.row row hrow peer x hx)
      · exact .inl rfl

/-- The leader's time between the node and a peer is one that has been measured, or between
two of them, however the reports were delayed, repeated or lost; otherwise it is the long one
of peers that are not known. -/
theorem link_measured {s₀ s : System} {es : List Event} (h : Fresh node s₀) (hr : Machine.run (step cfg) s₀ es = some s)
    (peer : NodeID) : linkRTT s.leader.rttMatrix node peer = 1000 ∨
      Within (measured peer es) (linkRTT s.leader.rttMatrix node peer) :=
  (run_inv h hr).link peer

/-- A node with two peers, one of them close, and its reports at the leader. -/
def sampleRun : List Event :=
  [.probe "near" "10.0.0.2:7000" (some 400000),.probe "far" "10.0.0.3:7000" (some 20000000),
    .probe "far" "10.0.0.3:7000" (some 40000000),.publish ⟨none,none,none,none,0⟩,.deliver 0]

def sampleSystem : System := ⟨newMetricsCollector "a" 100 none none none,[],newReplicator⟩

theorem sampleSystem_fresh : Fresh "a" sampleSystem := ⟨rfl,rfl,rfl,rfl⟩

/-- The link to the peer that is not close. -/
theorem sample_link : (Machine.run (step Replicator.sampleConfig) sampleSystem sampleRun).map
    (fun s => linkRTT s.leader.rttMatrix "a" "far") = some 24 := by
  decide +kernel

theorem link_measured_sample : ∃ s, Machine.run (step Replicator.sampleConfig) sampleSystem sampleRun = some s ∧
    (linkRTT s.leader.rttMatrix "a" "far" = 1000 ∨ Within (measured "far" sampleRun) (linkRTT s.leader.rttMatrix "a" "far")) := by
  obtain ⟨s,hr,-⟩ := Option.map_eq_some_iff.mp sample_link
  exact ⟨s,hr,link_measured sampleSystem_fresh hr "far"⟩

theorem linkRTT_pos (rttMatrix : RTTMatrix) (primary node : NodeID) : 0 < linkRTT rttMatrix primary node := by
  unfold linkRTT
  split
  · norm_num
  · split
    · norm_num
    · split
      · assumption
      · norm_num

section Rank
variable (hash : String → UInt64)

/-- The part of the suitability that does not depend on the link. -/
def penalty (m : NodeMetrics) : Rat := 1/(101/100-m.netUsage)*(1/((m.bandwidthMbps : Rat)+eps))

theorem penalty_pos {m : NodeMetrics} (hnet : m.netUsage ≤ 1) (hbw : 0 < m.bandwidthMbps) : 0 < penalty m := by
  have hbw' : (0 : Rat) < m.bandwidthMbps := by exact_mod_cast hbw
  exact mul_pos (one_div_pos.mpr (by linarith)) (one_div_pos.mpr (add_pos hbw' eps_pos))

/-- The hash of vnode and node adds less than a tenth. -/
theorem suitability_bounds (rttMatrix : RTTMatrix) (v : VNode) (n : NodeID) (m : NodeMetrics) (hpos : 0 < penalty m) :
    linkRTT rttMatrix v.primary n*penalty m ≤ suitability hash rttMatrix v n m ∧
      suitability hash rttMatrix v n m ≤ linkRTT rttMatrix v.primary n*penalty m*(11/10) := by
  have hlt : (hash (toString v.id.toNat ++ ":" ++ n)%1000).toNat < 1000 := by
    rw [UInt64.toNat_mod]
    exact Nat.mod_lt _ (by decide)
  have hle : (((hash (toString v.id.toNat ++ ":" ++ n)%1000).toNat : Nat) : Rat) ≤ 1000 := by exact_mod_cast hlt.le
  have hnn : (0 : Rat) ≤ ((hash (toString v.id.toNat ++ ":" ++ n)%1000).toNat : Nat) := Nat.cast_nonneg _
  have hbase : 0 < linkRTT rttMatrix v.primary n*penalty m := mul_pos (linkRTT_pos _ _ _) hpos
  have heq : suitability hash rttMatrix v n m = linkRTT rttMatrix v.primary n*penalty m*
      (1+((hash (toString v.id.toNat ++ ":" ++ n)%1000).toNat : Rat)/10000) := by
    unfold suitability penalty
    ring
  rw [heq]
  exact ⟨le_mul_of_one_le_right hbase.le (by linarith),mul_le_mul_of_nonneg_left (by linarith) hbase.le⟩

end Rank

/-- A peer that answers every probe within a millisecond is not recorded and counts as very
far: as a replica of the node's vnodes it comes behind every peer that is as well equipped,
has been recorded and never took longer than nine tenths of a second. -/
theorem near_peer_behind {s₀ s : System} {es : List Event} (h : Fresh node s₀) (hr : Machine.run (step cfg) s₀ es = some s)
    {near far : NodeID} (hnear : measured near es = []) (hknown : linkRTT s.leader.rttMatrix node far ≠ 1000)
    (hfar : ∀ ms ∈ measured far es, ms ≤ 900) {m m' : NodeMetrics} (hnet : m.netUsage = m'.netUsage)
    (hbw : m.bandwidthMbps = m'.bandwidthMbps) (hnet1 : m.netUsage ≤ 1) (hbw0 : 0 < m.bandwidthMbps) {v : VNode}
    (hv : v.primary = node) :
    s.collector.lastRTT.lookup near = none ∧ linkRTT s.leader.rttMatrix node near = 1000 ∧
      suitability cfg.hash s.leader.rttMatrix v far m < suitability cfg.hash s.leader.rttMatrix v near m' := by
  have hinv := run_inv h hr
  have hpos := penalty_pos hnet1 hbw0
  have hsame : penalty m' = penalty m := by rw [penalty, penalty, hnet, hbw]
  have hnever (x : Rat) : ¬ Within (measured near es) x := by
    rintro ⟨a,ha,-⟩
    rw [hnear] at ha
    cases ha
  have hunknown : s.collector.lastRTT.lookup near = none :=
    Option.eq_none_iff_forall_ne_some.mpr (fun x hx => hnever x (hinv.own near x hx))
  have hnear1000 : linkRTT s.leader.rttMatrix node near = 1000 := (hinv.link near).resolve_right (hnever _)
  have hfar900 : linkRTT s.leader.rttMatrix node far ≤ 900 := by
    rcases hinv.link far with hl | ⟨-,-,b,hb,-,hle⟩
    · exact absurd hl hknown
    · exact hle.trans (by exact_mod_cast hfar b hb)
  have hlow := (suitability_bounds cfg.hash s.leader.rttMatrix v near m' (hsame ▸ hpos)).1
  have hhigh := (suitability_bounds cfg.hash s.leader.rttMatrix v far m hpos).2
  rw [hv, hnear1000, hsame] at hlow
  rw [hv] at hhigh
  have hle := mul_le_mul_of_nonneg_right hfar900 hpos.le
  exact ⟨hunknown,hnear1000,by linarith⟩

theorem near_peer_behind_sample : ∃ s, Machine.run (step Replicator.sampleConfig) sampleSystem sampleRun = some s ∧
    s.collector.lastRTT.lookup "near" = none ∧ linkRTT s.leader.rttMatrix "a" "near" = 1000 ∧
    suitability Replicator.sampleConfig.hash s.leader.rttMatrix ⟨0,0,"a",[]⟩ "far" (Replicator.sampleMetrics "far") <
      suitability Replicator.sampleConfig.hash s.leader.rttMatrix ⟨0,0,"a",[]⟩ "near" (Replicator.sampleMetrics "near") := by
  obtain ⟨s,hr,hlink⟩ := Option.map_eq_some_iff.mp sample_link
  exact ⟨s,hr,near_peer_behind sampleSystem_fresh hr (by decide) (by rw [hlink]; norm_num) (by decide) rfl rfl
    (by norm_num [Replicator.sampleMetrics]) (by decide) rfl⟩

section Sane

/-- Metrics that scores and replicas can be computed from. -/
structure Sane (m : NodeMetrics) : Prop where
  rtt : 0 < m.avgRTT
  cores : 1 ≤ m.cpuCores
  mem : 1 ≤ m.memGB
  bandwidth : 1 ≤ m.bandwidthMbps
  disk : 1 ≤ m.diskGB
  usages : ∀ u ∈ [m.cpuUsage,m.memUsage,m.netUsage,m.diskUsage], u ∈ Set.Icc 0 1

/-- What a collector takes its sizes from. -/
structure Equipped (mc : MetricsCollector) : Prop where
  cores : 1 ≤ mc.cpuCores
  mem : 1 ≤ mc.memGB
  bandwidth : 1 ≤ mc.bandwidthMbps
  disk : 1 ≤ mc.diskGB

theorem detectGB_pos (total : Option UInt64) : 1 ≤ detectGB total := by
  unfold detectGB
  split
  · exact le_refl _
  · split
    · exact le_refl _
    · split
      · exact le_refl _
      · rename_i hne
        have hpos : (UInt64.toNat (_/(1024*1024*1024))) ≠ 0 := fun h => hne (UInt64.toNat_inj.mp h)
        omega

theorem newMetricsCollector_equipped (nodeID : NodeID) (bandwidthMbps : Int) (cores : Option Int)
    (memTotal diskTotal : Option UInt64) : Equipped (newMetricsCollector nodeID bandwidthMbps cores memTotal diskTotal) where
  cores := by
    simp only [newMetricsCollector, detectCPUCores]
    split
    · exact le_refl _
    · split <;> omega
  mem := detectGB_pos memTotal
  bandwidth := by
    simp only [newMetricsCollector]
    split <;> omega
  disk := detectGB_pos diskTotal

theorem clamp01_mem (reading : Reading) : clamp01 reading ∈ Set.Icc 0 1 := by
  cases reading with
  | number v => exact clampUnit_mem v
  | infinite => exact ⟨le_refl _,zero_le_one⟩
  | nan => exact ⟨le_refl _,zero_le_one⟩

theorem readUsage_mem (reading : Option Reading) : readUsage reading ∈ Set.Icc 0 1 := by
  cases reading with
  | none => exact ⟨le_refl _,zero_le_one⟩
  | some percent => exact clamp01_mem _

theorem readNetUsage_mem (mc : MetricsCollector) (counters : Option (UInt64 × UInt64)) (now : Rat) :
    (mc.readNetUsage counters now).2 ∈ Set.Icc 0 1 := by
  have hzero : (0 : Rat) ∈ Set.Icc 0 1 := ⟨le_refl _,zero_le_one⟩
  unfold MetricsCollector.readNetUsage
  split
  · exact hzero
  · dsimp only
    split
    · exact hzero
    · split
      · exact hzero
      · split
        · exact hzero
        · exact clamp01_mem _

theorem Equipped.sane {mc : MetricsCollector} (h : Equipped mc) (readings : Readings) : Sane (mc.publish readings).2.metrics where
  rtt := by
    change 0 < mc.avgRTT
    unfold MetricsCollector.avgRTT
    split
    · exact one_pos
    · exact positiveOr_pos _ one_pos
  cores := h.cores
  mem := h.mem
  bandwidth := h.bandwidth
  disk := h.disk
  usages := by
    simp only [List.forall_mem_cons, List.not_mem_nil, false_implies, implies_true, and_true]
    exact ⟨readUsage_mem _,readUsage_mem _,readNetUsage_mem _ _ _,readUsage_mem _⟩

/-- The leader's averages of such metrics are such again. -/
theorem Sane.smooth {raw : NodeMetrics} (h : Sane raw) {prev : Option NodeMetrics} (hprev : ∀ p ∈ prev, Sane p) :
    Sane (smoothMetrics prev raw) := by
  have husage {u : NodeMetrics → Rat} (hu : IsUsage u) (hmem : ∀ p, Sane p → u p ∈ Set.Icc 0 1) :
      u (smoothMetrics prev raw) ∈ Set.Icc 0 1 := by
    cases prev with
    | none => exact hu.first raw ▸ clampUnit_mem _
    | some p => exact hu.next p raw ▸ mix_mem (by norm_num) (by norm_num) (clampUnit_mem _) (hmem p (hprev p rfl))
  have hmem {p : NodeMetrics} (hp : Sane p) := hp.usages
  simp only [List.forall_mem_cons, List.not_mem_nil, false_implies, implies_true, and_true] at hmem
  have husages : ∀ u ∈ [(smoothMetrics prev raw).cpuUsage,(smoothMetrics prev raw).memUsage,
      (smoothMetrics prev raw).netUsage,(smoothMetrics prev raw).diskUsage], u ∈ Set.Icc 0 1 := by
    simp only [List.forall_mem_cons, List.not_mem_nil, false_implies, implies_true, and_true]
    exact ⟨husage isUsage_cpu (fun _ hp => (hmem hp).1),husage isUsage_mem (fun _ hp => (hmem hp).2.1),
      husage isUsage_net (fun _ hp => (hmem hp).2.2.1),husage isUsage_disk (fun _ hp => (hmem hp).2.2.2)⟩
  have hsize {x : Int} (hx : 1 ≤ x) (y : Int) : (if x ≤ 0 then y else x) = x := if_neg (by omega)
  cases prev with
  | none => exact ⟨h.rtt,h.cores,h.mem,h.bandwidth,h.disk,husages⟩
  | some p =>
    have hrtt := (hprev p rfl).rtt
    refine ⟨?_,?_,?_,?_,?_,husages⟩
    · simp only [smoothMetrics, if_pos h.rtt, if_neg (not_le.mpr hrtt)]
      linarith [h.rtt]
    · simpa only [smoothMetrics, hsize h.cores] using h.cores
    · simpa only [smoothMetrics, hsize h.mem] using h.mem
    · simpa only [smoothMetrics, hsize h.bandwidth] using h.bandwidth
    · simpa only [smoothMetrics, hsize h.disk] using h.disk

/-- What the leader knows of the node. -/
structure Known (node : NodeID) (r : Replicator) : Prop where
  ema : ∀ m, r.metricEMA.lookup node = some m → Sane m
  metrics : ∀ m, r.metrics.find? (·.nodeID = node) = some m → Sane m

theorem Known.message {r : Replicator} (h : Known node r) {msg : GossipMetricsMessage} (hsane : Sane msg.metrics)
    (hid : msg.metrics.nodeID = node) : Known node (r.handleMetricsMessage (some msg)) := by
  simp only [Replicator.handleMetricsMessage]
  split
  · exact h
  · have hsmooth : Sane (smoothMetrics (r.metricEMA.lookup msg.metrics.nodeID) msg.metrics) :=
      hsane.smooth (fun p hp => h.ema p (hid ▸ hp))
    refine ⟨fun m hm => ?_,fun m hm => ?_⟩
    · rw [lookup_insert_ite, if_pos hid.symm] at hm
      exact Option.some.inj hm ▸ hsmooth
    · rw [find?_record, if_pos ((smoothMetrics_nodeID _ _).trans hid)] at hm
      exact Option.some.inj hm ▸ hsmooth

/-- Reports of other nodes and updates leave that alone. -/
theorem Known.lead {r r' : Replicator} {e : Update.Event} (h : Known node r) (hquiet : reports node [e] = [])
    (hs : r.step cfg e = some r') : Known node r' := by
  cases e with
  | metrics msg =>
    cases hs
    cases msg with
    | none => exact h
    | some msg =>
      have hother : msg.metrics.nodeID ≠ node := fun hid => by
        rw [reports_message, if_pos hid] at hquiet
        cases hquiet
      simp only [Replicator.handleMetricsMessage]
      split
      · exact h
      · refine ⟨fun m hm => ?_,fun m hm => ?_⟩
        · rw [lookup_insert_ite, if_neg hother.symm] at hm
          exact h.ema m hm
        · rw [find?_record, smoothMetrics_nodeID, if_neg hother] at hm
          exact h.metrics m hm
  | updatePlacement view =>
    obtain ⟨hm,he,-⟩ := updatePlacement_fields (step_updatePlacement hs)
    exact ⟨he ▸ h.ema,hm ▸ h.metrics⟩
  | updatePlacementShortTerm view =>
    cases hs
    obtain ⟨hm,he,-⟩ := updatePlacementShortTerm_fields cfg r view
    exact ⟨he ▸ h.ema,hm ▸ h.metrics⟩

/-- The node, what it has sent and what the leader made of it. -/
structure Reports (node : NodeID) (s : System) : Prop where
  id_eq : s.collector.nodeID = node
  equipped : Equipped s.collector
  sent : ∀ msg ∈ s.sent, msg.metrics.nodeID = node ∧ Sane msg.metrics
  known : Known node s.leader

theorem step_reports {s s' : System} {e : Event} (h : Reports node s) (hs : s.step cfg e = some s') : Reports node s' := by
  have hmc := h.equipped
  cases e with
  | probe peerID rpcAddr dial =>
    cases hs
    obtain ⟨rtt,heq⟩ := probe_eq s.collector peerID rpcAddr dial
    exact { h with
      id_eq := (congrArg MetricsCollector.nodeID heq).trans h.id_eq
      equipped := heq ▸ ⟨hmc.cores,hmc.mem,hmc.bandwidth,hmc.disk⟩ }
  | publish readings =>
    cases hs
    obtain ⟨sample,heq⟩ := readNetUsage_eq s.collector readings.counters readings.now
    have hequipped : Equipped (s.collector.readNetUsage readings.counters readings.now).1 :=
      heq ▸ ⟨hmc.cores,hmc.mem,hmc.bandwidth,hmc.disk⟩
    exact { h with
      id_eq := (congrArg MetricsCollector.nodeID heq).trans h.id_eq
      equipped := hequipped
      sent := Machine.forall_mem_concat h.sent ⟨h.id_eq,hmc.sane readings⟩ }
  | deliver i =>
    obtain ⟨msg,hmsg,rfl⟩ := Option.map_eq_some_iff.mp hs
    obtain ⟨hid,hsane⟩ := h.sent msg (List.mem_of_getElem? hmsg)
    exact { h with known := h.known.message hsane hid }
  | lead e =>
    simp only [step, Option.ite_none_right_eq_some, Option.map_eq_some_iff] at hs
    obtain ⟨hquiet,r',hr',rfl⟩ := hs
    exact { h with known := h.known.lead (h.id_eq ▸ hquiet) hr' }

end Sane

/-- Whatever its system tells it, a node publishes metrics with a positive time, sizes of at
least one and usages between none and full, and so are those that the leader keeps of it. -/
theorem published_sane {nodeID : NodeID} {bandwidthMbps : Int} {cores : Option Int} {memTotal diskTotal : Option UInt64}
    {es : List Event} {s : System}
    (hr : Machine.run (step cfg) ⟨newMetricsCollector nodeID bandwidthMbps cores memTotal diskTotal,[],newReplicator⟩ es =
      some s) :
    (∀ msg ∈ s.sent, Sane msg.metrics) ∧ ∀ m, s.leader.metrics.find? (·.nodeID = nodeID) = some m → Sane m := by
  have hreports : Reports nodeID s := Machine.run_invariant (fun _ _ _ h hs => step_reports h hs)
    ⟨rfl,newMetricsCollector_equipped ..,by simp,by simp [newReplicator],by simp [newReplicator]⟩ hr
  exact ⟨fun msg hmsg => (hreports.sent msg hmsg).2,hreports.known.metrics⟩

/-- The processor's usage is no number, that of the memory infinite and that of the disk above
full. -/
def oddReadings : Readings := ⟨some .nan,some .infinite,some (.number 130),none,0⟩

theorem published_sane_sample : ∃ s m, Machine.run (step Replicator.sampleConfig) sampleSystem
      [.publish oddReadings,.deliver 0,.publish oddReadings,.deliver 1] = some s ∧ s.sent.length = 2 ∧
    (∀ msg ∈ s.sent, Sane msg.metrics) ∧ s.leader.metrics.find? (·.nodeID = "a") = some m ∧ m.diskUsage = 1 ∧ Sane m := by
  have hfacts : (Machine.run (step Replicator.sampleConfig) sampleSystem
      [.publish oddReadings,.deliver 0,.publish oddReadings,.deliver 1]).map (fun s => (s.sent.length,
        (s.leader.metrics.find? (·.nodeID = "a")).map NodeMetrics.diskUsage)) = some (2,some 1) := by
    decide +kernel
  obtain ⟨s,hr,hs⟩ := Option.map_eq_some_iff.mp hfacts
  obtain ⟨hlen,hdisk⟩ := Prod.mk.injEq .. ▸ hs
  obtain ⟨m,hm,hfull⟩ := Option.map_eq_some_iff.mp hdisk
  obtain ⟨hsent,hknown⟩ := published_sane hr
  exact ⟨s,m,hr,hlen,hsent,hm,hfull,hknown m hm⟩

end System
end Nawst.Cluster.Collector
