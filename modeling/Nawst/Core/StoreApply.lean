import Nawst.Core.Store

/-! What one application does to a store, key by key, and what a sequence of
versioned applications can only increase. -/
namespace Nawst.Core.Store
open Lib.FiniteMap

/-- The command passes the stale check. -/
def Takes (s : Store) (cmd : Command) : Prop := cmd.version = 0 ∨ s.versionOf cmd.key ≤ cmd.version

instance (s : Store) (cmd : Command) : Decidable (s.Takes cmd) := inferInstanceAs (Decidable (_ ∨ _))

/-- The version the command is stored under once it takes effect. -/
def stamp (s : Store) (cmd : Command) : UInt64 :=
  if cmd.version = 0 then s.versionOf cmd.key+1 else cmd.version

/-- A command is ignored as stale, stored under its stamp, or rejected. -/
theorem apply_cases (s : Store) (cmd : Command) :
    (¬ s.Takes cmd ∧ s.apply cmd = (s,none)) ∨
    (s.Takes cmd ∧ cmd.op = opPut ∧ s.apply cmd = (s.put { cmd with version := s.stamp cmd },none)) ∨
    (s.Takes cmd ∧ cmd.op = opDelete ∧ s.apply cmd = (s.delete { cmd with version := s.stamp cmd },none)) ∨
    (s.Takes cmd ∧ cmd.op ≠ opPut ∧ cmd.op ≠ opDelete ∧ s.apply cmd = (s,some errInvalidOperation)) := by
  by_cases ht : s.Takes cmd
  · have happ : s.apply cmd = s.dispatch { cmd with version := s.stamp cmd } := by
      unfold apply stamp
      split
      · rfl
      · rename_i hz
        rw [if_neg (UInt64.not_lt.mpr (ht.resolve_left hz))]
    rw [happ]
    unfold dispatch
    by_cases hp : cmd.op = opPut
    · simp [ht, hp]
    · by_cases hd : cmd.op = opDelete
      · simp [ht, hd, show opDelete ≠ opPut by decide]
      · simp [ht, hp, hd]
  · obtain ⟨hz,hlt⟩ := not_or.mp ht
    refine .inl ⟨ht,?_⟩
    rw [apply, if_neg hz, if_pos (UInt64.not_le.mp hlt)]

theorem apply_of_stale {s : Store} {cmd : Command} (h : ¬ s.Takes cmd) : s.apply cmd = (s,none) := by
  rcases apply_cases s cmd with ⟨_,he⟩ | ⟨ht,_⟩ | ⟨ht,_⟩ | ⟨ht,_⟩
  · exact he
  all_goals exact absurd ht h

theorem apply_put {s : Store} {cmd : Command} (hop : cmd.op = opPut) (ht : s.Takes cmd) :
    s.apply cmd = (s.put { cmd with version := s.stamp cmd },none) := by
  rcases apply_cases s cmd with ⟨hn,_⟩ | ⟨_,_,he⟩ | ⟨_,hd,_⟩ | ⟨_,hp,_⟩
  · exact absurd ht hn
  · exact he
  · exact absurd (hop.symm.trans hd) (by decide)
  · exact absurd hop hp

theorem apply_delete {s : Store} {cmd : Command} (hop : cmd.op = opDelete) (ht : s.Takes cmd) :
    s.apply cmd = (s.delete { cmd with version := s.stamp cmd },none) := by
  rcases apply_cases s cmd with ⟨hn,_⟩ | ⟨_,hp,_⟩ | ⟨_,_,he⟩ | ⟨_,_,hd,_⟩
  · exact absurd ht hn
  · exact absurd (hop.symm.trans hp) (by decide)
  · exact he
  · exact absurd hop hd

theorem apply_write_err {s : Store} {cmd : Command} (hop : cmd.op = opPut ∨ cmd.op = opDelete) :
    (s.apply cmd).2 = none := by
  rcases apply_cases s cmd with ⟨_,he⟩ | ⟨_,_,he⟩ | ⟨_,_,he⟩ | ⟨_,hp,hd,_⟩
  · rw [he]
  · rw [he]
  · rw [he]
  · exact absurd hop (not_or.mpr ⟨hp,hd⟩)

@[simp] theorem metaOf_put (s : Store) (cmd : Command) (k : Key) :
    (s.put cmd).metaOf k = if k = cmd.key then ⟨cmd.version,false⟩ else s.metaOf k := by
  simp only [put, metaOf, lookup_insert_ite]
  split <;> rfl

@[simp] theorem metaOf_delete (s : Store) (cmd : Command) (k : Key) :
    (s.delete cmd).metaOf k = if k = cmd.key then ⟨cmd.version,true⟩ else s.metaOf k := by
  simp only [delete, metaOf, lookup_insert_ite]
  split <;> rfl

@[simp] theorem storage_put (s : Store) (cmd : Command) (k : Key) :
    (s.put cmd).storage.lookup k = if k = cmd.key then some cmd.value else s.storage.lookup k :=
  lookup_insert_ite _ _ _ _

@[simp] theorem storage_delete (s : Store) (cmd : Command) (k : Key) :
    (s.delete cmd).storage.lookup k = if k = cmd.key then none else s.storage.lookup k :=
  lookup_erase_ite _ _ _

/-- Storage and metadata of the other keys are untouched. -/
theorem apply_other_key {s : Store} {cmd : Command} {k : Key} (hk : k ≠ cmd.key) :
    (s.apply cmd).1.storage.lookup k = s.storage.lookup k ∧ (s.apply cmd).1.metaOf k = s.metaOf k := by
  rcases apply_cases s cmd with ⟨_,he⟩ | ⟨_,_,he⟩ | ⟨_,_,he⟩ | ⟨_,_,_,he⟩ <;> simp [he, hk]

theorem versionOf_apply_key {s : Store} {cmd : Command} (hop : cmd.op = opPut ∨ cmd.op = opDelete)
    (ht : s.Takes cmd) : (s.apply cmd).1.versionOf cmd.key = s.stamp cmd := by
  rcases hop with hop | hop
  · simp [apply_put hop ht, versionOf]
  · simp [apply_delete hop ht, versionOf]

/-- The next version is a higher one unless it wraps around. -/
private theorem le_succ_iff (n : UInt64) : n ≤ n+1 ↔ n.toNat ≠ 2^64-1 := by
  have hlt := n.toNat_lt
  rw [UInt64.le_iff_toNat_le, UInt64.toNat_add, UInt64.toNat_one]
  omega

private theorem le_succ_of_ne_zero {n : UInt64} (h : n+1 ≠ 0) : n ≤ n+1 := by
  refine (le_succ_iff n).mpr (fun hn => h ?_)
  rw [← UInt64.toNat_inj, UInt64.toNat_add, UInt64.toNat_one, hn]
  rfl

/-- A write that comes with the next version is as one without a version. -/
theorem apply_next {s : Store} {cmd : Command} {n : UInt64} (h : n = 0 ∨ n = s.versionOf cmd.key+1) :
    s.apply { cmd with version := n } = s.apply { cmd with version := 0 } := by
  rcases h with rfl | rfl
  · rfl
  · by_cases hz : s.versionOf cmd.key+1 = 0
    · rw [hz]
    · simp [apply, hz, UInt64.not_lt.mpr (le_succ_of_ne_zero hz)]

theorem versionOf_apply_next_iff {s : Store} {cmd : Command} (hop : cmd.op = opPut ∨ cmd.op = opDelete) {n : UInt64} :
    (s.apply { cmd with version := n }).1.versionOf cmd.key = s.versionOf cmd.key+1 ↔
      n = 0 ∨ n = s.versionOf cmd.key+1 := by
  by_cases ht : s.Takes { cmd with version := n }
  · have hstamp : (s.apply { cmd with version := n }).1.versionOf cmd.key = s.stamp { cmd with version := n } :=
      versionOf_apply_key hop ht
    rw [hstamp, stamp]
    by_cases hz : n = 0 <;> simp [hz]
  · obtain ⟨hz,hstale⟩ := not_or.mp ht
    rw [apply_of_stale ht]
    refine iff_of_false (by simp) (not_or.mpr ⟨hz,fun hn => hstale ?_⟩)
    exact (le_succ_of_ne_zero (hn ▸ hz)).trans_eq hn.symm

/-- An unversioned write to a key that is at the highest version. -/
def Wraps (s : Store) (cmd : Command) : Prop :=
  cmd.version = 0 ∧ (cmd.op = opPut ∨ cmd.op = opDelete) ∧ (s.versionOf cmd.key).toNat = 2^64-1

instance (s : Store) (cmd : Command) : Decidable (s.Wraps cmd) := inferInstanceAs (Decidable (_ ∧ _))

private theorem le_stamp_iff {s : Store} {cmd : Command} (ht : s.Takes cmd) :
    s.versionOf cmd.key ≤ s.stamp cmd ↔ ¬ (cmd.version = 0 ∧ (s.versionOf cmd.key).toNat = 2^64-1) := by
  unfold stamp
  split
  · rename_i hz
    simp [hz, le_succ_iff]
  · rename_i hz
    simp [hz, ht.resolve_left hz]

/-- One command lowers a stored version only by wrapping around. -/
theorem versionOf_apply_mono_iff (s : Store) (cmd : Command) :
    (∀ k, s.versionOf k ≤ (s.apply cmd).1.versionOf k) ↔ ¬ s.Wraps cmd := by
  have hkey : (∀ k, s.versionOf k ≤ (s.apply cmd).1.versionOf k) ↔
      s.versionOf cmd.key ≤ (s.apply cmd).1.versionOf cmd.key := by
    refine ⟨fun h => h cmd.key,fun h k => ?_⟩
    by_cases hk : k = cmd.key
    · exact hk ▸ h
    · rw [versionOf, versionOf, (apply_other_key hk).2]
      exact UInt64.le_refl _
  rw [hkey]
  by_cases ht : s.Takes cmd
  · by_cases hop : cmd.op = opPut ∨ cmd.op = opDelete
    · rw [versionOf_apply_key hop ht, le_stamp_iff ht]
      simp [Wraps, hop]
    · obtain ⟨hp,hd⟩ := not_or.mp hop
      rcases apply_cases s cmd with ⟨_,he⟩ | ⟨_,hop',_⟩ | ⟨_,hop',_⟩ | ⟨_,_,_,he⟩
      · simp [he, Wraps, hop]
      · exact absurd hop' hp
      · exact absurd hop' hd
      · simp [he, Wraps, hop]
  · rw [apply_of_stale ht]
    exact iff_of_true (UInt64.le_refl _) (fun hw => ht (.inl hw.1))

/-- Versioned commands never lower a stored version. -/
theorem versionOf_apply_mono (s : Store) (cmd : Command) (hv : cmd.version ≠ 0) (k : Key) :
    s.versionOf k ≤ (s.apply cmd).1.versionOf k :=
  (versionOf_apply_mono_iff s cmd).mpr (fun hw => hv hw.1) k

/-- After a versioned write the stored version has reached the write's. -/
theorem le_versionOf_apply (s : Store) (cmd : Command) (hv : cmd.version ≠ 0)
    (hop : cmd.op = opPut ∨ cmd.op = opDelete) : cmd.version ≤ (s.apply cmd).1.versionOf cmd.key := by
  by_cases ht : s.Takes cmd
  · rw [versionOf_apply_key hop ht, stamp, if_neg hv]
    exact UInt64.le_refl _
  · rw [apply_of_stale ht]
    exact UInt64.le_of_lt (UInt64.not_le.mp (not_or.mp ht).2)

/-- Apply a list of commands in order; results are ignored. -/
def applyAll (s : Store) (cmds : List Command) : Store := cmds.foldl (fun s c => (s.apply c).1) s

@[simp] theorem applyAll_nil (s : Store) : s.applyAll [] = s := rfl

@[simp] theorem applyAll_cons (s : Store) (c : Command) (cs : List Command) :
    s.applyAll (c::cs) = (s.apply c).1.applyAll cs := rfl

theorem applyAll_append (s : Store) (cs ds : List Command) :
    s.applyAll (cs ++ ds) = (s.applyAll cs).applyAll ds := List.foldl_append

theorem versionOf_applyAll_mono (s : Store) (cs : List Command) (hv : ∀ c ∈ cs, c.version ≠ 0) (k : Key) :
    s.versionOf k ≤ (s.applyAll cs).versionOf k := by
  induction cs generalizing s with
  | nil => exact UInt64.le_refl _
  | cons c cs ih =>
    obtain ⟨hc,hcs⟩ := List.forall_mem_cons.mp hv
    exact UInt64.le_trans (versionOf_apply_mono s c hc k) (ih (s.apply c).1 hcs)

/-- Replaying versioned writes leaves every one of them at or below the stored version. -/
theorem le_versionOf_applyAll (s : Store) (cs : List Command) (hv : ∀ c ∈ cs, c.version ≠ 0)
    {c : Command} (hc : c ∈ cs) (hop : c.op = opPut ∨ c.op = opDelete) :
    c.version ≤ (s.applyAll cs).versionOf c.key := by
  obtain ⟨ds,es,rfl⟩ := List.append_of_mem hc
  have hes : ∀ e ∈ es, e.version ≠ 0 := fun e he => hv e (by simp [he])
  rw [applyAll_append, applyAll_cons]
  exact UInt64.le_trans (le_versionOf_apply _ c (hv c hc) hop) (versionOf_applyAll_mono _ es hes c.key)

/-- Along a sequence of commands the versions never decrease exactly if no unversioned
write meets the highest version; a command with an older version changes nothing. -/
theorem versions_never_decrease_iff (s : Store) (cs : List Command) :
    ((∀ before cmd rest, cs = before ++ cmd::rest →
        ∀ k, (s.applyAll before).versionOf k ≤ (s.applyAll (before ++ [cmd])).versionOf k) ↔
      ∀ before cmd rest, cs = before ++ cmd::rest → ¬ (s.applyAll before).Wraps cmd) ∧
    ∀ before cmd rest, cs = before ++ cmd::rest → cmd.version ≠ 0 → cmd.version < (s.applyAll before).versionOf cmd.key →
      s.applyAll (before ++ [cmd]) = s.applyAll before := by
  have hnext (before : List Command) (cmd : Command) :
      s.applyAll (before ++ [cmd]) = ((s.applyAll before).apply cmd).1 := applyAll_append s before [cmd]
  refine ⟨?_,fun before cmd rest _ hv hlt => ?_⟩
  · simp only [hnext, versionOf_apply_mono_iff]
  · have hstale : ¬ (s.applyAll before).Takes cmd := not_or.mpr ⟨hv,UInt64.not_le.mpr hlt⟩
    rw [hnext, apply_of_stale hstale]

/-- A put under the highest version, and an unversioned one that starts over from 0. -/
theorem unversioned_put_wraps :
    let k : Key := .singleton 107
    let cs : List Command := [⟨opPut,k,.singleton 1,3,UInt64.ofNat (2^64-1)⟩,⟨opPut,k,.singleton 2,3,0⟩]
    ((newStore.applyAll (cs.take 1)).versionOf k).toNat = 2^64-1 ∧ (newStore.applyAll cs).versionOf k = 0 := by
  decide

/-- Two stores agree on a key. -/
def SameAt (s t : Store) (k : Key) : Prop := s.storage.lookup k = t.storage.lookup k ∧ s.metaOf k = t.metaOf k

/-- What a write was made for: its value is read back, or its key is gone. -/
def Reflects (s : Store) (cmd : Command) : Prop :=
  if cmd.op = opPut then ∃ version, s.getWithVersion cmd.key = .ok (cmd.value,version)
  else s.getWithVersion cmd.key = .error errKeyNotFound

theorem SameAt.getWithVersion {s t : Store} {k : Key} (h : SameAt s t k) : s.getWithVersion k = t.getWithVersion k := by
  simp only [Store.getWithVersion, versionOf, h.1, h.2]

theorem SameAt.takes {s t : Store} {cmd : Command} (h : SameAt s t cmd.key) : s.Takes cmd ↔ t.Takes cmd := by
  simp only [Takes, versionOf, h.2]

theorem SameAt.reflects {s t : Store} {cmd : Command} (h : SameAt s t cmd.key) : s.Reflects cmd ↔ t.Reflects cmd := by
  simp only [Reflects, h.getWithVersion]

/-- Commands for other keys and stale ones change nothing at a key. -/
theorem applyAll_sameAt {s : Store} {k : Key} {cs : List Command} (h : ∀ c ∈ cs, c.key = k → ¬ s.Takes c) :
    SameAt (s.applyAll cs) s k := by
  induction cs generalizing s with
  | nil => exact ⟨rfl,rfl⟩
  | cons c cs ih =>
    obtain ⟨hc,hcs⟩ := List.forall_mem_cons.mp h
    by_cases hk : c.key = k
    · rw [applyAll_cons, apply_of_stale (hc hk)]
      exact ih hcs
    · have hother : SameAt (s.apply c).1 s k := apply_other_key (Ne.symm hk)
      have hrest := ih (s := (s.apply c).1) (fun d hd hdk => by
        subst hdk
        exact fun ht => hcs d hd rfl (hother.takes.mp ht))
      exact ⟨hrest.1.trans hother.1,hrest.2.trans hother.2⟩

theorem reflects_apply {s : Store} {cmd : Command} (hop : cmd.op = opPut ∨ cmd.op = opDelete) (ht : s.Takes cmd) :
    (s.apply cmd).1.Reflects cmd := by
  rcases hop with hop | hop
  · simp [Reflects, apply_put hop ht, hop, Store.getWithVersion]
  · have hne : ¬ (opDelete = opPut) := by decide
    simp [Reflects, apply_delete hop ht, hop, hne, Store.getWithVersion]

/-- A write that shows stays to be seen while only its own copies and other keys follow. -/
theorem reflects_applyAll {s : Store} {cmd : Command} (hop : cmd.op = opPut ∨ cmd.op = opDelete) (h : s.Reflects cmd)
    {cs : List Command} (hcs : ∀ c ∈ cs, c.key = cmd.key → c = cmd) : (s.applyAll cs).Reflects cmd := by
  induction cs generalizing s with
  | nil => exact h
  | cons c cs ih =>
    obtain ⟨hc,hcs⟩ := List.forall_mem_cons.mp hcs
    rw [applyAll_cons]
    refine ih ?_ hcs
    by_cases hk : c.key = cmd.key
    · obtain rfl := hc hk
      by_cases ht : s.Takes c
      · exact reflects_apply hop ht
      · rw [apply_of_stale ht]
        exact h
    · have hother : SameAt (s.apply c).1 s cmd.key := apply_other_key (Ne.symm hk)
      exact hother.reflects.mpr h

/-- Among commands for other keys a write shows exactly if it is not stale, or if it
showed before. -/
theorem applyAll_reflects_iff {s : Store} {cmd : Command} (hop : cmd.op = opPut ∨ cmd.op = opDelete)
    {cs : List Command} (hmem : cmd ∈ cs) (hcs : ∀ c ∈ cs, c.key = cmd.key → c = cmd) :
    (s.applyAll cs).Reflects cmd ↔ s.Takes cmd ∨ s.Reflects cmd := by
  by_cases ht : s.Takes cmd
  · refine iff_of_true ?_ (.inl ht)
    obtain ⟨ds,es,rfl,hds⟩ := List.eq_append_cons_of_mem hmem
    have hother : SameAt (s.applyAll ds) s cmd.key := by
      refine applyAll_sameAt (fun d hd hk => absurd ?_ hds)
      exact hcs d (List.mem_append_left _ hd) hk ▸ hd
    rw [applyAll_append, applyAll_cons]
    refine reflects_applyAll hop (reflects_apply hop (hother.takes.mpr ht)) (fun c hc => ?_)
    exact hcs c (List.mem_append_right _ (List.mem_cons_of_mem _ hc))
  · have hsame : SameAt (s.applyAll cs) s cmd.key := applyAll_sameAt (fun c hc hk => hcs c hc hk ▸ ht)
    rw [hsame.reflects, or_iff_right ht]

end Nawst.Core.Store
