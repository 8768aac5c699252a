import Mathlib.Data.List.MinMax
import Nawst.Cluster.Placement

/-! The replicated state machine that holds the placement: it is fed a log of encoded
commands, and a node may start from a snapshot in place of the first part of the log. -/
namespace Nawst.Cluster
open Nawst.Core

abbrev Data := List UInt8

/-- What the machine needs of the JSON encoding. Everything that is decoded can be encoded
again, and an encoding decodes to what was encoded. -/
structure Json where
  marshalPayload : ScoredPlacement → Except Err Data
  unmarshalPayload : Data → Except Err ScoredPlacement
  marshalCommand : String → Data → Except Err Data
  unmarshalCommand : Data → Except Err (String × Data)
  encodeSnapshot : ScoredPlacement → Except Err Data
  decodeSnapshot : Data → Except Err ScoredPlacement
  /-- Finite scores and ids in valid UTF-8. -/
  Encodable : ScoredPlacement → Prop
  encodable_of_unmarshal : ∀ b p, unmarshalPayload b = .ok p → Encodable p
  snapshot_roundTrip : ∀ p, Encodable p → ∃ b, encodeSnapshot p = .ok b ∧ decodeSnapshot b = .ok p
  command_roundTrip : ∀ p, Encodable p → ∃ b c, marshalPayload p = .ok b ∧ marshalCommand "install_placement" b = .ok c ∧
    ∃ b', unmarshalCommand c = .ok ("install_placement",b') ∧ unmarshalPayload b' = .ok p

/-- The machine with the placements it has passed to its callback, if it has one. -/
structure PlacementFSM where
  placement : Option ScoredPlacement
  onApply : Bool
  notified : List ScoredPlacement

def newPlacementFSM (onApply : Bool) : PlacementFSM := ⟨none,onApply,[]⟩

namespace PlacementFSM

def install (f : PlacementFSM) (next : ScoredPlacement) : PlacementFSM :=
  { f with placement := some next, notified := if f.onApply then f.notified ++ [next] else f.notified }

/-- Only a higher epoch replaces a placement. -/
def offer (f : PlacementFSM) (next : ScoredPlacement) : PlacementFSM :=
  match f.placement with
  | some cur => if next.epoch ≤ cur.epoch then f else f.install next
  | none => f.install next

def apply (json : Json) (f : PlacementFSM) (data : Data) : PlacementFSM × Option Err :=
  match json.unmarshalCommand data with
  | .error e => (f,some ("decode raft command: " ++ e))
  | .ok (type,payload) =>
    if type = "install_placement" then
      match json.unmarshalPayload payload with
      | .error e => (f,some ("decode install_placement payload: " ++ e))
      | .ok next => (f.offer next,none)
    else (f,some ("unknown raft command type: " ++ type))

/-- The zero value stands for a missing placement. -/
def zero : ScoredPlacement := ⟨⟨0,[]⟩,[]⟩

def snapshot (f : PlacementFSM) : ScoredPlacement := f.placement.getD zero

def persist (json : Json) (state : ScoredPlacement) : Except Err Data := json.encodeSnapshot state

def restore (json : Json) (f : PlacementFSM) (data : Data) : Except Err PlacementFSM :=
  match json.decodeSnapshot data with
  | .error e => .error e
  | .ok p => .ok (f.install p)

/-- Feed a log, ignoring the results. -/
def applyAll (json : Json) (f : PlacementFSM) (log : List Data) : PlacementFSM := log.foldl (fun f d => (f.apply json d).1) f

end PlacementFSM

/-- The log entry of a placement that is proposed. -/
def applyPlacement (json : Json) (initialized : Bool) : Option ScoredPlacement → Except Err Data
  | none => .error "nil placement"
  | some p => do
    let payload ← json.marshalPayload p
    let cmd ← json.marshalCommand "install_placement" payload
    if initialized then .ok cmd else .error "raft is not initialized"

/-- The placement that a log entry installs, if it can be decoded. -/
def Json.logged (json : Json) (data : Data) : Option ScoredPlacement :=
  match json.unmarshalCommand data with
  | .error _ => none
  | .ok (type,payload) => if type = "install_placement" then (json.unmarshalPayload payload).toOption else none

/-- What is proposed is what the log entry installs. -/
theorem logged_applyPlacement (json : Json) {p : ScoredPlacement} (hp : json.Encodable p) :
    ∃ data, applyPlacement json true (some p) = .ok data ∧ json.logged data = some p := by
  obtain ⟨b,c,hb,hc,b',hc',hb'⟩ := json.command_roundTrip p hp
  refine ⟨c,?_,?_⟩
  · simp [applyPlacement, hb, hc, bind, Except.bind]
  · simp [Json.logged, hc', hb', Except.toOption]

theorem logged_encodable (json : Json) {data : Data} {p : ScoredPlacement} (h : json.logged data = some p) :
    json.Encodable p := by
  unfold Json.logged at h
  split at h
  · cases h
  · rename_i type payload _
    split at h
    · cases hp : json.unmarshalPayload payload with
      | error e => simp [hp, Except.toOption] at h
      | ok q =>
        obtain rfl : q = p := by simpa [hp, Except.toOption] using h
        exact json.encodable_of_unmarshal payload q hp
    · cases h

namespace PlacementFSM

/-- A log entry is either offered as a placement or rejected. -/
theorem apply_eq (json : Json) (f : PlacementFSM) (data : Data) :
    (∃ p, json.logged data = some p ∧ f.apply json data = (f.offer p,none)) ∨
    (json.logged data = none ∧ ∃ e, f.apply json data = (f,some e)) := by
  unfold apply Json.logged
  cases json.unmarshalCommand data with
  | error e => exact .inr ⟨rfl,_,rfl⟩
  | ok r =>
    by_cases ht : r.1 = "install_placement"
    · cases hp : json.unmarshalPayload r.2 with
      | error e => exact .inr ⟨by simp [ht, hp, Except.toOption],_,by simp [ht, hp]; rfl⟩
      | ok p => exact .inl ⟨p,by simp [ht, hp, Except.toOption],by simp [ht, hp]⟩
    · exact .inr ⟨by simp [ht],_,by simp [ht]; rfl⟩

/-- A placement that is proposed is offered to every machine that is fed the log. -/
theorem apply_applyPlacement (json : Json) {p : ScoredPlacement} (hp : json.Encodable p) (f : PlacementFSM) :
    ∃ data, applyPlacement json true (some p) = .ok data ∧ f.apply json data = (f.offer p,none) := by
  obtain ⟨data,hdata,hlogged⟩ := logged_applyPlacement json hp
  refine ⟨data,hdata,?_⟩
  rcases apply_eq json f data with ⟨q,hq,he⟩ | ⟨hnone,_⟩
  · obtain rfl : p = q := Option.some.inj (hlogged.symm.trans hq)
    exact he
  · rw [hlogged] at hnone
    cases hnone

/-- Only what can be decoded matters of a log. -/
theorem applyAll_eq (json : Json) (f : PlacementFSM) (log : List Data) :
    f.applyAll json log = (log.filterMap json.logged).foldl offer f := by
  unfold applyAll
  rw [List.foldl_filterMap]
  congr 1
  funext g data
  rcases apply_eq json g data with ⟨p,hl,he⟩ | ⟨hl,e,he⟩
  · rw [hl, he]
  · rw [hl, he]

/-- An offer keeps the placement of the higher epoch, the earlier one on a tie. -/
theorem placement_offer (f : PlacementFSM) (next : ScoredPlacement) :
    (f.offer next).placement =
      Option.casesOn f.placement (some next) (fun cur => if cur.epoch.toNat < next.epoch.toNat then some next else some cur) := by
  unfold offer
  cases hp : f.placement with
  | none => rfl
  | some cur =>
    by_cases h : next.epoch ≤ cur.epoch
    · have hlt : ¬ cur.epoch.toNat < next.epoch.toNat := Nat.not_lt.mpr (UInt64.le_iff_toNat_le.mp h)
      simp [h, hlt, hp]
    · have hlt : cur.epoch.toNat < next.epoch.toNat := Nat.not_le.mp (fun hle => h (UInt64.le_iff_toNat_le.mpr hle))
      simp [h, hlt, install]

/-- A machine that holds the first of the highest placements keeps doing so. -/
theorem placement_foldl (qs ps : List ScoredPlacement) {f : PlacementFSM}
    (hf : f.placement = qs.argmax (fun p => p.epoch.toNat)) :
    (ps.foldl offer f).placement = (qs ++ ps).argmax (fun p => p.epoch.toNat) := by
  induction ps generalizing qs f with
  | nil => simpa using hf
  | cons p ps ih =>
    have hp : (f.offer p).placement = (qs ++ [p]).argmax (fun p => p.epoch.toNat) := by
      rw [placement_offer, List.argmax_concat, hf]
    simpa using ih (qs ++ [p]) hp

/-- The callback has seen rising epochs since the given calls, none above the present one. -/
structure Rising (earlier : List ScoredPlacement) (f : PlacementFSM) : Prop where
  rises : ∃ later, f.notified = earlier ++ later ∧ later.Pairwise (fun p q => p.epoch < q.epoch) ∧
    ∀ q ∈ later, ∃ p, f.placement = some p ∧ q.epoch ≤ p.epoch

theorem Rising.install {earlier : List ScoredPlacement} {f : PlacementFSM} (h : Rising earlier f) {next : ScoredPlacement}
    (hnext : ∀ p, f.placement = some p → p.epoch < next.epoch) : Rising earlier (f.install next) := by
  obtain ⟨later,hn,hpair,hle⟩ := h.rises
  have hlt : ∀ q ∈ later, q.epoch < next.epoch := by
    intro q hq
    obtain ⟨p,hp,hqp⟩ := hle q hq
    exact UInt64.lt_of_le_of_lt hqp (hnext p hp)
  by_cases hc : f.onApply = true
  · refine ⟨later ++ [next],by simp [PlacementFSM.install, hc, hn],?_,fun q hq => ⟨next,rfl,?_⟩⟩
    · rw [List.pairwise_append]
      exact ⟨hpair,List.pairwise_singleton _ _,fun q hq p hp => List.mem_singleton.mp hp ▸ hlt q hq⟩
    · rcases List.mem_append.mp hq with hq | hq
      · exact UInt64.le_of_lt (hlt q hq)
      · exact List.mem_singleton.mp hq ▸ UInt64.le_refl _
  · exact ⟨later,by simp [PlacementFSM.install, hc, hn],hpair,fun q hq => ⟨next,rfl,UInt64.le_of_lt (hlt q hq)⟩⟩

theorem Rising.offer {earlier : List ScoredPlacement} {f : PlacementFSM} (h : Rising earlier f) (next : ScoredPlacement) :
    Rising earlier (f.offer next) := by
  unfold PlacementFSM.offer
  split
  · rename_i cur hcur
    split
    · exact h
    · rename_i hlt
      exact h.install (fun p hp => Option.some.inj (hcur.symm.trans hp) ▸ UInt64.not_le.mp hlt)
  · rename_i hnone
    exact h.install (fun p hp => by rw [hnone] at hp; cases hp)

theorem Rising.foldl {earlier : List ScoredPlacement} {f : PlacementFSM} (h : Rising earlier f) (ps : List ScoredPlacement) :
    Rising earlier (ps.foldl PlacementFSM.offer f) :=
  List.foldlRecOn ps PlacementFSM.offer h (fun _ hg p _ => hg.offer p)

/-- A restored machine has told its callback of the snapshot. -/
theorem rising_install (f : PlacementFSM) (p : ScoredPlacement) : Rising f.notified (f.install p) := by
  by_cases hc : f.onApply = true
  · exact ⟨[p],by simp [PlacementFSM.install, hc],List.pairwise_singleton _ _,
      fun q hq => ⟨p,rfl,List.mem_singleton.mp hq ▸ UInt64.le_refl _⟩⟩
  · exact ⟨[],by simp [PlacementFSM.install, hc],List.Pairwise.nil,by simp⟩

theorem Rising.pairwise {f : PlacementFSM} (h : Rising [] f) : f.notified.Pairwise (fun p q => p.epoch < q.epoch) := by
  obtain ⟨later,hn,hpair,-⟩ := h.rises
  rw [hn, List.nil_append]
  exact hpair

/-- A machine that restores the snapshot of a first part of the log and is fed the rest
ends with the placement of a machine that is fed all of it: the first of those with the
highest epoch. Both tell their callbacks of rising epochs, and what is rejected changes
nothing. -/
theorem snapshot_then_suffix (json : Json) (onApply : Bool) (f : PlacementFSM) (before rest : List Data)
    (hlog : ∃ data ∈ before, (json.logged data).isSome) :
    ∃ data restored, persist json ((newPlacementFSM onApply).applyAll json before).snapshot = .ok data ∧
      f.restore json data = .ok restored ∧
      (restored.applyAll json rest).placement = ((newPlacementFSM onApply).applyAll json (before ++ rest)).placement ∧
      ((newPlacementFSM onApply).applyAll json (before ++ rest)).placement =
        ((before ++ rest).filterMap json.logged).argmax (fun p => p.epoch.toNat) ∧
      ((newPlacementFSM onApply).applyAll json (before ++ rest)).notified.Pairwise (fun p q => p.epoch < q.epoch) ∧
      (∃ later, (restored.applyAll json rest).notified = f.notified ++ later ∧
        later.Pairwise (fun p q => p.epoch < q.epoch)) ∧
      ∀ (g : PlacementFSM) (d : Data) (e : Err), (g.apply json d).2 = some e → (g.apply json d).1 = g := by
  have hplace : ∀ log, ((newPlacementFSM onApply).applyAll json log).placement =
      (log.filterMap json.logged).argmax (fun p => p.epoch.toNat) := by
    intro log
    rw [applyAll_eq, placement_foldl [] _ rfl, List.nil_append]
  obtain ⟨p,hp⟩ : ∃ p, (before.filterMap json.logged).argmax (fun p => p.epoch.toNat) = some p := by
    obtain ⟨data,hmem,hsome⟩ := hlog
    obtain ⟨q,hq⟩ := Option.isSome_iff_exists.mp hsome
    refine Option.ne_none_iff_exists'.mp (fun hnone => ?_)
    rw [List.argmax_eq_none] at hnone
    exact List.ne_nil_of_mem (List.mem_filterMap.mpr ⟨data,hmem,hq⟩) hnone
  obtain ⟨d,hd,hlogged⟩ := List.mem_filterMap.mp (List.argmax_mem (Option.mem_def.mpr hp))
  obtain ⟨data,henc,hdec⟩ := json.snapshot_roundTrip p (logged_encodable json hlogged)
  refine ⟨data,f.install p,?_,?_,?_,hplace _,?_,?_,fun g d e he => ?_⟩
  · simp only [persist, snapshot, hplace, hp, Option.getD_some, henc]
  · simp only [restore, hdec]
  · rw [hplace, applyAll_eq, List.filterMap_append]
    exact placement_foldl _ _ hp.symm
  · have hrise : Rising [] (newPlacementFSM onApply) := ⟨[],rfl,List.Pairwise.nil,by simp⟩
    rw [applyAll_eq]
    exact (hrise.foldl _).pairwise
  · rw [applyAll_eq]
    obtain ⟨later,hn,hpair,-⟩ := ((rising_install f p).foldl (rest.filterMap json.logged)).rises
    exact ⟨later,hn,hpair⟩
  · rcases apply_eq json g d with ⟨q,-,hg⟩ | ⟨-,e',hg⟩
    · rw [hg] at he
      cases he
    · rw [hg]

section Sample

private def text (s : String) : Data := s.toList.map (fun c => UInt8.ofNat c.toNat)

def samplePlacement (epoch : UInt64) : ScoredPlacement := ⟨⟨epoch,[]⟩,[]⟩

def samplePayload (epoch : String) : Data :=
  text ("\x7b\"placement\":\x7b\"Epoch\":" ++ epoch ++ ",\"Nodes\":null,\"VNodes\":null\x7d\x7d")

def sampleCommand (payload : Data) : Data :=
  text "\x7b\"type\":\"install_placement\",\"payload\":" ++ payload ++ text "\x7d"

/-- The encoding of two empty placements; everything else is not decoded. -/
def sampleJson : Json where
  marshalPayload p := if p.epoch = 1 then .ok (samplePayload "1") else .ok (samplePayload "2")
  unmarshalPayload b :=
    if b = samplePayload "1" then .ok (samplePlacement 1)
    else if b = samplePayload "2" then .ok (samplePlacement 2)
    else .error "unexpected end of JSON input"
  marshalCommand _ b := .ok (sampleCommand b)
  unmarshalCommand b :=
    if b = sampleCommand (samplePayload "1") then .ok ("install_placement",samplePayload "1")
    else if b = sampleCommand (samplePayload "2") then .ok ("install_placement",samplePayload "2")
    else .error "unexpected end of JSON input"
  encodeSnapshot p := .ok ((if p.epoch = 1 then samplePayload "1" else samplePayload "2") ++ text "\n")
  decodeSnapshot b :=
    if b = samplePayload "1" ++ text "\n" then .ok (samplePlacement 1)
    else if b = samplePayload "2" ++ text "\n" then .ok (samplePlacement 2)
    else .error "EOF"
  Encodable p := p = samplePlacement 1 ∨ p = samplePlacement 2
  encodable_of_unmarshal b p h := by
    split at h
    · exact .inl (Except.ok.inj h).symm
    · split at h
      · exact .inr (Except.ok.inj h).symm
      · cases h
  snapshot_roundTrip p h := by rcases h with rfl | rfl <;> exact ⟨_,rfl,by decide⟩
  command_roundTrip p h := by
    rcases h with rfl | rfl
    · exact ⟨_,_,rfl,rfl,samplePayload "1",by decide,by decide⟩
    · exact ⟨_,_,rfl,rfl,samplePayload "2",by decide,by decide⟩

/-- A snapshot after the first placement and an empty entry, then a second placement. -/
theorem snapshot_then_suffix_sample :
    let before := [sampleCommand (samplePayload "1"),[]]
    let rest := [sampleCommand (samplePayload "2")]
    ∃ data restored, persist sampleJson ((newPlacementFSM true).applyAll sampleJson before).snapshot = .ok data ∧
      (newPlacementFSM true).restore sampleJson data = .ok restored ∧
      (restored.applyAll sampleJson rest).placement = some (samplePlacement 2) := by
  obtain ⟨data,restored,hp,hr,hsame,-⟩ := snapshot_then_suffix sampleJson true (newPlacementFSM true)
    [sampleCommand (samplePayload "1"),[]] [sampleCommand (samplePayload "2")] ⟨_,List.mem_cons_self,by decide⟩
  exact ⟨data,restored,hp,hr,hsame.trans (by decide)⟩

end Sample

end PlacementFSM
end Nawst.Cluster
