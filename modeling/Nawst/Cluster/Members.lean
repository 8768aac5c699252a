import Nawst.Cluster.Reconcile

/-! What a member publishes is what the others read. What the leader does about members that
are there and about servers that are missing. -/
namespace Nawst.Cluster
open Lib Lib.FiniteMap Nawst.Core

/-- The parts of a node that it publishes. -/
structure Member where
  id : NodeID
  rpcAddr : Addr
  raftAddr : Addr
  deriving DecidableEq

namespace Member

def nodeMeta (m : Member) : String :=
  if m.raftAddr = "" then m.id ++ "," ++ m.rpcAddr else m.id ++ "," ++ m.rpcAddr ++ "," ++ m.raftAddr

/-- A text that stands for itself between commas. -/
structure Field (s : String) : Prop where
  ne : s ≠ ""
  trimmed : trimSpace s = s
  plain : ',' ∉ s.toList

instance (s : String) : Decidable (Field s) :=
  decidable_of_iff (s ≠ "" ∧ trimSpace s = s ∧ ',' ∉ s.toList) ⟨fun ⟨h,t,p⟩ => ⟨h,t,p⟩,fun h => ⟨h.ne,h.trimmed,h.plain⟩⟩

structure Publishable (m : Member) : Prop where
  id : Field m.id
  rpc : Field m.rpcAddr
  raft : m.raftAddr ≠ "" → Field m.raftAddr

instance (m : Member) : Decidable m.Publishable :=
  decidable_of_iff (Field m.id ∧ Field m.rpcAddr ∧ (m.raftAddr ≠ "" → Field m.raftAddr))
    ⟨fun ⟨i,p,r⟩ => ⟨i,p,r⟩,fun h => ⟨h.id,h.rpc,h.raft⟩⟩

section Trim

/-- A text that stays as it is when trimmed has no space at either end. -/
private theorem dropWhile_of_trimmed {s : String} (h : trimSpace s = s) :
    s.toList.dropWhile isSpace = s.toList ∧ s.toList.reverse.dropWhile isSpace = s.toList.reverse := by
  have hl : ((s.toList.dropWhile isSpace).reverse.dropWhile isSpace).reverse = s.toList := by
    simpa [trimSpace] using congrArg String.toList h
  have hfront : s.toList.dropWhile isSpace = s.toList := by
    refine (List.dropWhile_suffix isSpace).eq_of_length_le ?_
    calc s.toList.length = ((s.toList.dropWhile isSpace).reverse.dropWhile isSpace).reverse.length := by rw [hl]
      _ ≤ (s.toList.dropWhile isSpace).length := by
        rw [List.length_reverse]
        exact (List.dropWhile_suffix isSpace).length_le.trans (List.length_reverse).le
  refine ⟨hfront,?_⟩
  rw [hfront] at hl
  rw [← List.reverse_reverse (List.dropWhile _ _), hl]

/-- Texts are joined to a text that has no space at either end when the outer ones have none. -/
private theorem trimSpace_join {a b : String} (mid : String) (ha : Field a) (hb : Field b) :
    trimSpace (a ++ mid ++ b) = a ++ mid ++ b := by
  have hne {s : String} (hs : Field s) : s.toList ≠ [] := fun h => hs.ne (String.toList_eq_nil_iff.mp h)
  obtain ⟨ha',-⟩ := dropWhile_of_trimmed ha.trimmed
  obtain ⟨-,hb'⟩ := dropWhile_of_trimmed hb.trimmed
  have hfront : (a ++ mid ++ b).toList.dropWhile isSpace = (a ++ mid ++ b).toList := by
    rw [String.toList_append, String.toList_append, List.append_assoc, List.dropWhile_append, ha', if_neg]
    simpa using hne ha
  have hback : (a ++ mid ++ b).toList.reverse.dropWhile isSpace = (a ++ mid ++ b).toList.reverse := by
    rw [String.toList_append, List.reverse_append, List.dropWhile_append, hb', if_neg]
    simpa using hne hb
  rw [trimSpace, hfront, hback, List.reverse_reverse, String.ofList_toList]

end Trim

private theorem splitComma_fields {s : String} {fields : List String} (hs : s.toList = [','].intercalate (fields.map String.toList))
    (hne : fields ≠ []) (h : ∀ f ∈ fields, Field f) : splitComma s = fields := by
  rw [splitComma, hs, List.splitOn_intercalate ',' ?_ (by simpa using hne)]
  · simp
  · intro l hl
    obtain ⟨f,hf,rfl⟩ := List.mem_map.mp hl
    exact (h f hf).plain

private theorem join_ne_empty {a : String} (b : String) (ha : Field a) : a ++ b ≠ "" :=
  fun h => ha.ne (String.append_eq_empty_iff.mp h).1

/-- What is published is read back. -/
theorem parse_nodeMeta (quote : String → String) {m : Member} (h : m.Publishable) :
    parseMetaWithRaft quote m.nodeMeta = .ok (m.id,m.rpcAddr,m.raftAddr) := by
  by_cases hraft : m.raftAddr = ""
  · have hsplit : splitComma (m.id ++ "," ++ m.rpcAddr) = [m.id,m.rpcAddr] :=
      splitComma_fields (by simp [List.intercalate, List.intersperse]) (by simp) (by simp [h.id, h.rpc])
    have hne := join_ne_empty ("," ++ m.rpcAddr) h.id
    rw [← String.append_assoc] at hne
    simp only [parseMetaWithRaft, nodeMeta, hraft, if_true, trimSpace_join "," h.id h.rpc, if_neg hne, hsplit,
      h.id.trimmed, h.rpc.trimmed, h.id.ne, h.rpc.ne, or_self, if_false]
  · have hr := h.raft hraft
    have hsplit : splitComma (m.id ++ "," ++ m.rpcAddr ++ "," ++ m.raftAddr) = [m.id,m.rpcAddr,m.raftAddr] :=
      splitComma_fields (by simp [List.intercalate, List.intersperse]) (by simp) (by simp [h.id, h.rpc, hr])
    have htrim := trimSpace_join ("," ++ m.rpcAddr ++ ",") h.id hr
    have hne := join_ne_empty ("," ++ m.rpcAddr ++ "," ++ m.raftAddr) h.id
    simp only [← String.append_assoc] at hne htrim
    simp only [parseMetaWithRaft, nodeMeta, hraft, if_false, htrim, if_neg hne, hsplit,
      h.id.trimmed, h.rpc.trimmed, hr.trimmed, h.id.ne, h.rpc.ne, or_self]

end Member

namespace Reconcile
open Member

section Published
variable {c : Call} {ms : List Member} (h : ∀ m ∈ ms, m.Publishable) (hc : c.members = ms.map nodeMeta)
include h hc

/-- The members that a leader hears of, when they are published by members. -/
theorem gossip_published : c.gossip = (ms.filter (·.raftAddr ≠ "")).map (fun m => (m.id,m.rpcAddr,m.raftAddr)) := by
  rw [Call.gossip, hc, List.filterMap_map, ← List.filterMap_eq_map, List.filterMap_filter]
  refine List.filterMap_congr (fun m hm => ?_)
  simp only [Function.comp_apply, parse_nodeMeta id (h m hm)]
  by_cases hraft : m.raftAddr = "" <;> simp [hraft]

theorem seenInGossip_published {m : Member} (hm : m ∈ ms) (hraft : m.raftAddr ≠ "") : m.id ∈ c.seenInGossip := by
  rw [Call.seenInGossip, gossip_published h hc, List.map_map]
  exact List.mem_map.mpr ⟨m,List.mem_filter.mpr ⟨hm,by simpa using hraft⟩,rfl⟩

/-- The addresses of all that is heard of are recorded. -/
theorem nodeRPCAddrs_published (addrs : FMap NodeID Addr) (hids : (ms.map Member.id).Nodup) {m : Member} (hm : m ∈ ms)
    (hraft : m.raftAddr ≠ "") :
    (c.gossip.foldl (fun addrs m => setNodeRPCAddr addrs m.1 m.2.1) addrs).lookup m.id = some m.rpcAddr := by
  have hset : ∀ m ∈ ms.filter (·.raftAddr ≠ ""), ∀ addrs, setNodeRPCAddr addrs m.id m.rpcAddr = addrs.insert m.id m.rpcAddr := by
    intro m hm addrs
    have hp := h m (List.mem_of_mem_filter hm)
    rw [setNodeRPCAddr, hp.id.trimmed, hp.rpc.trimmed, if_neg (not_or.mpr ⟨hp.id.ne,hp.rpc.ne⟩)]
  rw [gossip_published h hc, List.foldl_map, List.foldl_ext _ _ _ (fun addrs m hm => hset m hm addrs),
    lookup_foldl_insert Member.id Member.rpcAddr (k := m.id) (a := m.rpcAddr) (fun b hb hid => ?_), if_pos]
  · exact List.mem_map_of_mem (List.mem_filter.mpr ⟨hm,by simpa using hraft⟩)
  · exact congrArg Member.rpcAddr (List.inj_on_of_nodup_map hids (List.mem_of_mem_filter hb) hm hid)

end Published

/-- What a pass of the leader does about members that publish themselves: it asks raft to add
exactly those with a raft address that are not in the configuration, with this address, asks
for the removal of none of them and records their addresses for requests. -/
theorem members_reconciled (n : Node) (c : Call) (ms : List Member) (servers : List Server) (h : ∀ m ∈ ms, m.Publishable)
    (hc : c.members = ms.map nodeMeta) (hids : (ms.map Member.id).Nodup) (hleader : c.leader = true)
    (hconfig : c.config = some servers) (hvisits : c.Visits servers) :
    (∀ id addr, .addVoter id addr ∈ (n.reconcile c).2 ↔
      id ∉ servers.map Server.id ∧ addr ≠ "" ∧ ∃ m ∈ ms, m.id = id ∧ m.raftAddr = addr) ∧
    ∀ m ∈ ms, m.raftAddr ≠ "" → .removeServer m.id ∉ (n.reconcile c).2 ∧
      (n.reconcile c).1.nodeRPCAddrs.lookup m.id = some m.rpcAddr := by
  refine ⟨fun id addr => ?_,fun m hm hraft => ⟨fun hrem => ?_,?_⟩⟩
  · have hmem : id ∈ existingInRaft servers ↔ id ∈ servers.map Server.id :=
      (mem_foldl_insert Server.id (fun s => s) servers ∅).trans (or_iff_right Finmap.notMem_empty)
    simp only [Node.reconcile, hleader, hconfig, not_true, if_false, gossip_published h hc, List.mem_append, List.mem_map,
      List.mem_filter, decide_eq_true_eq, reduceCtorEq, and_false, exists_false, or_false, RaftRequest.addVoter.injEq]
    constructor
    · rintro ⟨_,⟨⟨m,⟨hm,hraft⟩,rfl⟩,hnew⟩,rfl,rfl⟩
      exact ⟨fun hin => hnew (hmem.mpr (List.mem_map.mpr hin)),hraft,m,hm,rfl,rfl⟩
    · rintro ⟨hnew,hraft,m,hm,rfl,rfl⟩
      exact ⟨_,⟨⟨m,⟨hm,hraft⟩,rfl⟩,fun hin => hnew (List.mem_map.mp (hmem.mp hin))⟩,rfl,rfl⟩
  · obtain ⟨_,_,server,_,hid,hverdict⟩ :=
      Node.mem_removals (fun s hs => Option.some.inj (hconfig.symm.trans hs) ▸ hvisits) hrem
    exact (verdict_remove hverdict).2.1 (hid ▸ seenInGossip_published h hc hm hraft)
  · simp only [Node.reconcile, hleader, hconfig, not_true, if_false]
    exact nodeRPCAddrs_published h hc n.nodeRPCAddrs hids hm hraft

def sampleMembers : List Member := [⟨"a","10.0.0.1:7000","10.0.0.1:7001"⟩,⟨"b","10.0.0.2:7000","10.0.0.2:7001"⟩]

theorem members_reconciled_sample :
    .addVoter "b" "10.0.0.2:7001" ∈ ((init "a" 0 0).reconcile (Node.sampleCall ["a"] (sampleMembers.map nodeMeta) 0)).2 :=
  ((members_reconciled (init "a" 0 0) (Node.sampleCall ["a"] (sampleMembers.map nodeMeta) 0) sampleMembers [⟨"a",.voter⟩]
    (by decide +kernel) rfl (by decide) rfl rfl (by decide +kernel)).1 "b" "10.0.0.2:7001").mpr
      ⟨by decide,by decide,⟨"b","10.0.0.2:7000","10.0.0.2:7001"⟩,by decide,rfl,rfl⟩

section Missing
variable {n n' : Node} {c : Call} {id : NodeID}

theorem removals_visit_mono (w : Sweep) (server : Server) : ∀ id ∈ w.removals, id ∈ (w.visit n c server).removals :=
  fun id hid => (w.mem_removals_visit server id).mpr (.inl hid)

theorem removals_foldl_mono (order : List Server) (w : Sweep) :
    ∀ id ∈ w.removals, id ∈ (order.foldl (Sweep.visit n c) w).removals := by
  induction order generalizing w with
  | nil => exact fun _ h => h
  | cons server order ih => exact fun id hid => ih _ id (removals_visit_mono w server id hid)

/-- A server whose entry says so is removed. -/
theorem mem_removals_of_verdict {order : List Server} (hnd : (order.map Server.id).Nodup) (w : Sweep) {server : Server}
    (hs : server ∈ order) (hv : verdict n c (w.row.lookup server.id) server = .remove) :
    server.id ∈ (order.foldl (Sweep.visit n c) w).removals := by
  induction order generalizing w with
  | nil => cases hs
  | cons s order ih =>
    obtain ⟨hne,hnd⟩ := List.nodup_cons.mp hnd
    rcases List.mem_cons.mp hs with rfl | hs
    · exact removals_foldl_mono order _ _ ((w.mem_removals_visit server server.id).mpr (.inr ⟨rfl,hv⟩))
    · refine ih hnd _ hs ?_
      rwa [Sweep.lookup_visit, if_neg (ne_of_mem_of_not_mem (List.mem_map_of_mem hs) hne)]

/-- The leader reads a configuration that lists the server, another one than itself, and does
not see it. -/
structure Call.Misses (c : Call) (node id : NodeID) : Prop where
  other : id ≠ node
  leader : c.leader = true
  listed : ∃ servers ∈ c.config, id ∈ servers.map Server.id
  unseen : id ∉ c.seenInGossip

instance (c : Call) (node id : NodeID) : Decidable (c.Misses node id) :=
  decidable_of_iff (id ≠ node ∧ c.leader = true ∧ (∃ servers ∈ c.config, id ∈ servers.map Server.id) ∧ id ∉ c.seenInGossip)
    ⟨fun ⟨o,l,i,u⟩ => ⟨o,l,i,u⟩,fun h => ⟨h.other,h.leader,h.listed,h.unseen⟩⟩

/-- What a call that misses a server does, by when the server was first seen missing. -/
theorem reconcile_missed {servers : List Server} (hmiss : c.Misses n.id id) (hconfig : c.config = some servers)
    (hvisits : c.Visits servers) : ∃ server, (existingInRaft servers).lookup id = some server ∧
      match n.deadRow.lookup id with
      | none => (n.reconcile c).1.deadRow.lookup id = some c.now
      | some t => if graceFor n.gracePeriod server < c.now-t then .removeServer id ∈ (n.reconcile c).2
        else (n.reconcile c).1.deadRow.lookup id = some t := by
  obtain ⟨servers',hs,hlisted⟩ := hmiss.listed
  cases hconfig.symm.trans hs
  obtain ⟨server,hserver,rfl⟩ := List.mem_map.mp ((Node.visits_mem hvisits).mpr hlisted)
  have hrow : (n.reconcile c).1.deadRow.lookup server.id = entryAfter n c (n.deadRow.lookup server.id) server := by
    simp only [Node.reconcile, hmiss.leader, hconfig, not_true, if_false]
    exact (foldl_visit hvisits.distinct _).1 server hserver
  refine ⟨server,hvisits.found server hserver,?_⟩
  cases hfirst : n.deadRow.lookup server.id with
  | none => rw [hrow, hfirst]; simp [entryAfter, verdict, hmiss.other, hmiss.unseen]
  | some t =>
    dsimp only
    split
    · rename_i hlong
      have hv : verdict n c (n.deadRow.lookup server.id) server = .remove := by
        simp [verdict, hmiss.other, hmiss.unseen, hfirst, hlong]
      simp only [Node.reconcile, hmiss.leader, hconfig, not_true, if_false]
      exact List.mem_append_right _ (List.mem_map_of_mem (mem_removals_of_verdict hvisits.distinct _ hserver hv))
    · rename_i hshort
      rw [hrow, hfirst]
      simp [entryAfter, verdict, hmiss.other, hmiss.unseen, hshort]

/-- What the entries are compared with. -/
structure Node.Tracks (node : NodeID) (gracePeriod : Int) (n : Node) : Prop where
  id_eq : n.id = node
  grace_eq : n.gracePeriod = gracePeriod
  past : ∀ id t, n.deadRow.lookup id = some t → t ≤ n.clock

theorem Node.step_eq (hs : n.step c = some n') :
    n' = { (n.reconcile c).1 with clock := c.now } ∧ n.clock ≤ c.now ∧ ∀ servers ∈ c.config, c.Visits servers := by
  unfold Node.step at hs
  split at hs
  · rename_i hcan
    cases hs
    exact ⟨rfl,hcan⟩
  · cases hs

theorem Node.Tracks.step {node : NodeID} {gracePeriod : Int} (h : n.Tracks node gracePeriod) (hs : n.step c = some n') :
    n'.Tracks node gracePeriod := by
  obtain ⟨rfl,hclock,hvisits⟩ := step_eq hs
  refine ⟨reconcile_fields.1.trans h.id_eq,reconcile_fields.2.trans h.grace_eq,fun id t ht => ?_⟩
  change (n.reconcile c).1.deadRow.lookup id = some t at ht
  rcases lookup_reconcile (n := n) hvisits id with ⟨server,_,hentry⟩ | ⟨_,hentry⟩
  · rcases entryAfter_some (hentry.symm.trans ht) with hold | rfl
    · exact (h.past id t hold).trans hclock
    · exact le_refl _
  · exact (h.past id t (hentry.symm.trans ht)).trans hclock

/-- A call that misses a server and does not ask for its removal leaves it on death row, with
an entry that is not later. -/
theorem Node.Tracks.step_missed {node : NodeID} {gracePeriod : Int} (h : n.Tracks node gracePeriod) (hmiss : c.Misses node id)
    (hkept : .removeServer id ∉ (n.reconcile c).2) (hs : n.step c = some n') :
    ∃ t, n'.deadRow.lookup id = some t ∧ t ≤ c.now ∧ ∀ t', n.deadRow.lookup id = some t' → t = t' := by
  obtain ⟨rfl,hclock,hvisits⟩ := step_eq hs
  obtain ⟨servers,hconfig,_⟩ := hmiss.listed
  obtain ⟨server,_,hrow⟩ := reconcile_missed (h.id_eq ▸ hmiss) hconfig (hvisits servers hconfig)
  cases hfirst : n.deadRow.lookup id with
  | none =>
    rw [hfirst] at hrow
    exact ⟨c.now,hrow,le_refl _,nofun⟩
  | some t =>
    rw [hfirst] at hrow
    dsimp only at hrow
    split at hrow
    · exact absurd hrow hkept
    · exact ⟨t,hrow,(h.past id t hfirst).trans hclock,fun t' ht' => Option.some.inj ht'⟩

end Missing

/-- A server that stays in the configuration while every call of the leader misses it has its
removal asked for by the first call after its grace period. -/
theorem missing_server_removed (node : NodeID) {id : NodeID} (gracePeriod clock : Int) (before missing : List Call)
    (first : Call) {last : Call} {n₀ n n' : Node} (hr : Machine.run Node.step (init node gracePeriod clock) before = some n₀)
    (hmiss : ∀ c ∈ first::missing, c.Misses node id) (hrun : Machine.run Node.step n₀ (first::missing) = some n)
    (hkept : Machine.Meets Node.step (fun n c => .removeServer id ∉ (n.reconcile c).2) n₀ (first::missing))
    (hlast : last.Misses node id) (hs : n.step last = some n')
    (hlong : ∀ servers ∈ last.config, ∀ server, (existingInRaft servers).lookup id = some server →
      graceFor gracePeriod server < last.now-first.now) :
    .removeServer id ∈ (n.reconcile last).2 := by
  have htracks : n₀.Tracks node gracePeriod :=
    Machine.run_invariant (fun _ _ _ h hs => h.step hs) ⟨rfl,rfl,by simp [init]⟩ hr
  obtain ⟨n₁,hfirst,hrest⟩ := Machine.run_cons.mp hrun
  obtain ⟨hkept₁,hkept⟩ := (Machine.meets_cons hfirst).mp hkept
  obtain ⟨hmiss₁,hmiss⟩ := List.forall_mem_cons.mp hmiss
  obtain ⟨t₁,ht₁,hle₁,-⟩ := htracks.step_missed hmiss₁ hkept₁ hfirst
  -- The entry made by the first call, or before it, stays.
  have hinv : n.Tracks node gracePeriod ∧ n.deadRow.lookup id = some t₁ := by
    refine Machine.run_invariant_of_meets (I := fun n => n.Tracks node gracePeriod ∧ n.deadRow.lookup id = some t₁)
      (fun n c n' h hc hs => ?_) ⟨htracks.step hfirst,ht₁⟩ (hkept.and (Machine.meets_of_forall n₁ hmiss)) hrest
    obtain ⟨t,ht,-,hsame⟩ := h.1.step_missed hc.2 hc.1 hs
    exact ⟨h.1.step hs,hsame t₁ h.2 ▸ ht⟩
  obtain ⟨htracks,ht⟩ := hinv
  obtain ⟨-,-,hvisits⟩ := Node.step_eq hs
  obtain ⟨servers,hconfig,_⟩ := hlast.listed
  obtain ⟨server,hserver,hrow⟩ := reconcile_missed (htracks.id_eq ▸ hlast) hconfig (hvisits servers hconfig)
  rw [ht] at hrow
  dsimp only at hrow
  have hgrace := hlong servers hconfig server hserver
  rwa [htracks.grace_eq, if_pos (by omega)] at hrow

theorem missing_server_removed_sample :
    .removeServer "b" ∈ ((Node.sampleNode Node.addrA (Finmap.singleton "b" 0) 0).reconcile
      (Node.sampleCall ["a","b"] [Node.memberA] 3000)).2 := by
  have hlast : (Node.sampleNode Node.addrA (Finmap.singleton "b" 0) 0).step (Node.sampleCall ["a","b"] [Node.memberA] 3000) =
      some (Node.sampleNode Node.addrA ∅ 3000) := by decide +kernel
  refine missing_server_removed "a" 2000000000 0 [] [] (Node.sampleCall ["a","b"] [Node.memberA] 0) rfl (by decide +kernel)
    (by decide +kernel) (by decide +kernel) (by decide +kernel) hlast ?_
  rintro _ ⟨⟩ server hserver
  cases (show (existingInRaft [⟨"a",.voter⟩,⟨"b",.voter⟩]).lookup "b" = some ⟨"b",.voter⟩ by decide +kernel).symm.trans hserver
  decide

end Reconcile
end Nawst.Cluster
