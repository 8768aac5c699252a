import Mathlib.Data.List.Induction
import Mathlib.Data.List.Pairwise
import Mathlib.Order.Nat
import Nawst.Lib.Machine

/-! A register kept by a log. An entry takes effect only when its epoch is above that of
the entry in force, so a writer who built on an outdated entry changes nothing. -/
namespace Nawst.Lib.EpochLog

/-- What a writer appends, with the value it has built on. -/
structure Entry (α : Type) where
  base : Option α
  next : α
  deriving DecidableEq

variable {α : Type} (epoch : α → Nat)

/-- An entry takes effect over an older one. -/
def Takes (cur : Option (Entry α)) (e : Entry α) : Prop := ∀ c ∈ cur, epoch c.next < epoch e.next

instance (cur : Option (Entry α)) (e : Entry α) : Decidable (Takes epoch cur e) :=
  inferInstanceAs (Decidable (∀ c ∈ cur, _))

def push (acc : List (Entry α)) (e : Entry α) : List (Entry α) :=
  if Takes epoch acc.getLast? e then acc ++ [e] else acc

/-- The entries of a log that take effect. -/
def accepted (log : List (Entry α)) : List (Entry α) := log.foldl (push epoch) []

/-- The register after a log. -/
def value (log : List (Entry α)) : Option α := (accepted epoch log).getLast?.map Entry.next

theorem accepted_concat (log : List (Entry α)) (e : Entry α) :
    accepted epoch (log ++ [e]) = push epoch (accepted epoch log) e := by
  simp [accepted]

theorem push_initial (acc : List (Entry α)) (e : Entry α) : acc <+: push epoch acc e := by
  unfold push
  split
  · exact List.prefix_append _ _
  · exact List.prefix_rfl

/-- What has taken effect stays so as the log grows. -/
theorem accepted_append (log rest : List (Entry α)) : accepted epoch log <+: accepted epoch (log ++ rest) := by
  induction rest using List.reverseRecOn with
  | nil => simp
  | append_singleton rest e ih =>
    rw [← List.append_assoc, accepted_concat]
    exact ih.trans (push_initial epoch _ e)

theorem accepted_mono {log log' : List (Entry α)} (h : log <+: log') : accepted epoch log <+: accepted epoch log' := by
  obtain ⟨rest,rfl⟩ := h
  exact accepted_append epoch log rest

theorem accepted_subset (log : List (Entry α)) : ∀ e ∈ accepted epoch log, e ∈ log := by
  induction log using List.reverseRecOn with
  | nil => simp [accepted]
  | append_singleton log e ih =>
    rw [accepted_concat, push]
    intro a ha
    split at ha
    · rcases List.mem_append.mp ha with ha | ha
      · exact List.mem_append_left _ (ih a ha)
      · exact List.mem_append_right _ ha
    · exact List.mem_append_left _ (ih a ha)

/-- The last of a list with rising epochs has the highest one. -/
theorem exists_last {acc : List (Entry α)} (h : acc.Pairwise (fun a b => epoch a.next < epoch b.next)) {a : Entry α}
    (ha : a ∈ acc) : ∃ c, acc.getLast? = some c ∧ epoch a.next ≤ epoch c.next := by
  induction acc using List.reverseRecOn with
  | nil => cases ha
  | append_singleton front c _ =>
    refine ⟨c,List.getLast?_concat,?_⟩
    rcases List.mem_append.mp ha with ha | ha
    · exact ((List.pairwise_append.mp h).2.2 a ha c List.mem_cons_self).le
    · rw [List.mem_singleton.mp ha]

/-- The epochs of what takes effect rise. -/
theorem accepted_rising (log : List (Entry α)) :
    (accepted epoch log).Pairwise (fun a b => epoch a.next < epoch b.next) := by
  induction log using List.reverseRecOn with
  | nil => exact List.Pairwise.nil
  | append_singleton log e ih =>
    rw [accepted_concat, push]
    split
    · rename_i htakes
      refine List.pairwise_append.mpr ⟨ih,List.pairwise_singleton _ _,fun a ha b hb => ?_⟩
      rw [List.mem_singleton.mp hb]
      obtain ⟨c,hc,hle⟩ := exists_last epoch ih ha
      exact hle.trans_lt (htakes c hc)
    · exact ih

/-- An epoch takes effect at most once. -/
theorem accepted_unique {log : List (Entry α)} {a b : Entry α} (ha : a ∈ accepted epoch log) (hb : b ∈ accepted epoch log)
    (h : epoch a.next = epoch b.next) : a = b := by
  have hne : (accepted epoch log).Pairwise (fun a b => epoch a.next = epoch b.next → a = b) :=
    (accepted_rising epoch log).imp (fun hlt heq => absurd heq hlt.ne)
  have hsymm : Std.Symm (fun a b : Entry α => epoch a.next = epoch b.next → a = b) := ⟨fun a b hab heq => (hab heq.symm).symm⟩
  exact hne.forall_of_forall (fun _ _ _ => rfl) ha hb h

/-- The register holds what the last entry that took effect has brought. -/
theorem value_eq_some {log : List (Entry α)} {p : α} :
    value epoch log = some p ↔ ∃ e, (accepted epoch log).getLast? = some e ∧ e.next = p := by
  simp [value]

theorem value_concat (log : List (Entry α)) (e : Entry α) :
    value epoch (log ++ [e]) = if Takes epoch (accepted epoch log).getLast? e then some e.next else value epoch log := by
  rw [value, accepted_concat, push]
  split
  · rw [List.getLast?_concat, Option.map_some]
  · rfl

theorem takes_iff (log : List (Entry α)) (e : Entry α) :
    Takes epoch (accepted epoch log).getLast? e ↔ ∀ p ∈ value epoch log, epoch p < epoch e.next := by
  simp [Takes, value]

/-- A writer's entry is built on what took effect at some time and steps at most one
epoch beyond it; with nothing to build on it starts with the first epoch. -/
structure Built (log : List (Entry α)) (e : Entry α) : Prop where
  base : ∀ b ∈ e.base, ∃ a ∈ accepted epoch log, a.next = b
  step : ∀ b ∈ e.base, epoch e.next ≤ epoch b+1
  first : e.base = none → epoch e.next = 1

theorem Built.mono {log log' : List (Entry α)} {e : Entry α} (h : Built epoch log e) (hl : log <+: log') :
    Built epoch log' e where
  base b hb := by
    obtain ⟨a,ha,rfl⟩ := h.base b hb
    exact ⟨a,(accepted_mono epoch hl).subset ha,rfl⟩
  step := h.step
  first := h.first

/-- No update is lost: an entry that takes effect was built on the value it replaces. -/
theorem Built.takes {log : List (Entry α)} {e : Entry α} (h : Built epoch log e)
    (hpos : ∀ a ∈ accepted epoch log, 0 < epoch a.next) (ht : Takes epoch (accepted epoch log).getLast? e) :
    e.base = value epoch log ∧ ∀ b ∈ e.base, epoch e.next = epoch b+1 := by
  cases hb : e.base with
  | none =>
    refine ⟨?_,by simp⟩
    -- Whatever is in force has an epoch below the first one.
    cases hv : value epoch log with
    | none => rfl
    | some p =>
      obtain ⟨c,hc,rfl⟩ := (value_eq_some epoch).mp hv
      have hlt := ht c hc
      have hc' := hpos c (List.mem_of_getLast? hc)
      have he := h.first hb
      omega
  | some b =>
    obtain ⟨a,ha,hab⟩ := h.base b hb
    obtain ⟨c,hc,hle⟩ := exists_last epoch (accepted_rising epoch log) ha
    have hlt := ht c hc
    have hstep := h.step b hb
    rw [← hab] at hstep
    have hsame : a = c := accepted_unique epoch ha (List.mem_of_getLast? hc) (by omega)
    refine ⟨?_,fun b' hb' => ?_⟩
    · rw [value, hc, Option.map_some, ← hsame, hab]
    · cases hb'
      rw [← hab, hsame]
      rw [hsame] at hstep
      omega

/-- The updates are numbered by their epochs, and each was built on the one before it. -/
structure Consecutive (acc : List (Entry α)) : Prop where
  epoch : ∀ k e, acc[k]? = some e → epoch e.next = k+1
  base : ∀ k e, acc[k]? = some e → e.base = (acc.take k).getLast?.map Entry.next

theorem Consecutive.nil : Consecutive epoch [] := ⟨by simp,by simp⟩

theorem Consecutive.pos {acc : List (Entry α)} (h : Consecutive epoch acc) : ∀ a ∈ acc, 0 < epoch a.next := by
  intro a ha
  obtain ⟨k,hk⟩ := List.mem_iff_getElem?.mp ha
  rw [h.epoch k a hk]
  exact Nat.succ_pos k

theorem Consecutive.last {acc : List (Entry α)} (h : Consecutive epoch acc) {c : Entry α} (hc : acc.getLast? = some c) :
    epoch c.next = acc.length := by
  obtain ⟨front,rfl⟩ := List.getLast?_eq_some_iff.mp hc
  rw [h.epoch front.length c List.getElem?_concat_length, List.length_append, List.length_singleton]

theorem Consecutive.of_initial {acc acc' : List (Entry α)} (h : Consecutive epoch acc') (hp : acc <+: acc') :
    Consecutive epoch acc := by
  obtain ⟨rest,rfl⟩ := hp
  refine ⟨fun k e hk => h.epoch k e ?_,fun k e hk => ?_⟩
  · rwa [List.getElem?_append_left (List.getElem?_eq_some_iff.mp hk).1]
  · have hlt := (List.getElem?_eq_some_iff.mp hk).1
    have hbase := h.base k e (by rwa [List.getElem?_append_left hlt])
    rwa [List.take_append_of_le_length hlt.le] at hbase

/-- The last of consecutive updates was built on the one before it. -/
theorem Consecutive.concat {acc : List (Entry α)} {e : Entry α} (h : Consecutive epoch (acc ++ [e])) :
    e.base = acc.getLast?.map Entry.next ∧ epoch e.next = acc.length+1 := by
  have hbase := h.base acc.length e List.getElem?_concat_length
  rw [List.take_left] at hbase
  exact ⟨hbase,h.epoch acc.length e List.getElem?_concat_length⟩

/-- Entries that are built on what took effect keep the updates consecutive. -/
theorem Built.consecutive {log : List (Entry α)} {e : Entry α} (h : Built epoch log e)
    (hlog : Consecutive epoch (accepted epoch log)) : Consecutive epoch (accepted epoch (log ++ [e])) := by
  rw [accepted_concat, push]
  split
  · rename_i htakes
    obtain ⟨hbase,hnext⟩ := h.takes epoch hlog.pos htakes
    refine ⟨fun k a hk => ?_,fun k a hk => ?_⟩
    · rcases Machine.getElem?_concat_cases hk with hk | ⟨rfl,rfl⟩
      · exact hlog.epoch k a hk
      · cases hlast : (accepted epoch log).getLast? with
        | none =>
          rw [value, hlast] at hbase
          rw [h.first hbase, List.getLast?_eq_none_iff.mp hlast]
          rfl
        | some c =>
          rw [value, hlast] at hbase
          rw [hnext c.next hbase, hlog.last epoch hlast]
    · rcases Machine.getElem?_concat_cases hk with hk | ⟨rfl,rfl⟩
      · have hlt := (List.getElem?_eq_some_iff.mp hk).1
        rw [List.take_append_of_le_length hlt.le]
        exact hlog.base k a hk
      · rw [List.take_left]
        exact hbase
  · exact hlog

end Nawst.Lib.EpochLog
