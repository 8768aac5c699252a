import Mathlib.Data.Finmap
import Mathlib.Data.Multiset.Fold
import Mathlib.Algebra.BigOperators.Group.Finset.Basic
import Mathlib.Algebra.BigOperators.Group.Finset.Piecewise
import Mathlib.Algebra.BigOperators.Ring.Finset
import Mathlib.Algebra.Order.BigOperators.Group.Finset

/-! Finite maps with a default-free lookup, removal of a whole set of keys, and sums
over the values of a map. -/
namespace Nawst.Lib.FiniteMap

abbrev FMap (κ α : Type) := Finmap (fun _ : κ => α)

variable {κ α : Type} [DecidableEq κ]

theorem lookup_insert_ite (m : FMap κ α) (k k' : κ) (a : α) :
    (m.insert k a).lookup k' = if k' = k then some a else m.lookup k' := by
  split
  · rename_i h
    subst h
    exact Finmap.lookup_insert m
  · rename_i h
    exact Finmap.lookup_insert_of_ne m h

theorem lookup_erase_ite (m : FMap κ α) (k k' : κ) :
    (m.erase k).lookup k' = if k' = k then none else m.lookup k' := by
  split
  · rename_i h
    subst h
    exact Finmap.lookup_erase k' m
  · rename_i h
    exact Finmap.lookup_erase_ne h

instance : LeftCommutative (fun (k : κ) (m : FMap κ α) => m.erase k) where
  left_comm _ _ _ := Finmap.erase_erase

/-- Remove every key of a set; the order of removal is immaterial. -/
def eraseAll (ks : Finset κ) (m : FMap κ α) : FMap κ α :=
  ks.val.foldr (fun k m => m.erase k) m

private theorem lookup_foldr_erase (ks : Multiset κ) (m : FMap κ α) (k : κ) :
    (ks.foldr (fun k m => m.erase k) m).lookup k = if k ∈ ks then none else m.lookup k := by
  induction ks using Multiset.induction with
  | empty => simp
  | cons a ks ih =>
    rw [Multiset.foldr_cons, lookup_erase_ite, ih]
    by_cases hk : k = a <;> simp [hk]

theorem lookup_eraseAll (ks : Finset κ) (m : FMap κ α) (k : κ) :
    (eraseAll ks m).lookup k = if k ∈ ks then none else m.lookup k :=
  lookup_foldr_erase ks.val m k

section Build
variable {β : Type} (key : β → κ) (val : β → α)

/-- A map built from a list whose entries for the key agree. -/
theorem lookup_foldl_insert {k : κ} {a : α} {l : List β} (h : ∀ b ∈ l, key b = k → val b = a) (m : FMap κ α) :
    (l.foldl (fun m b => m.insert (key b) (val b)) m).lookup k = if k ∈ l.map key then some a else m.lookup k := by
  induction l generalizing m with
  | nil => simp
  | cons b l ih =>
    obtain ⟨hb,hrest⟩ := List.forall_mem_cons.mp h
    rw [List.foldl_cons, ih hrest, lookup_insert_ite]
    by_cases hk : k = key b
    · simp [hk, hb hk.symm]
    · simp [hk]

/-- What is found in a map built from a list was there before, or comes from the list. -/
theorem exists_of_lookup_foldl_insert {k : κ} {a : α} {l : List β} {m : FMap κ α}
    (h : (l.foldl (fun m b => m.insert (key b) (val b)) m).lookup k = some a) :
    m.lookup k = some a ∨ ∃ b ∈ l, val b = a := by
  induction l generalizing m with
  | nil => exact .inl h
  | cons b l ih =>
    rcases ih h with hm | ⟨c,hc,hval⟩
    · rw [lookup_insert_ite] at hm
      split at hm
      · exact .inr ⟨b,List.mem_cons_self,Option.some.inj hm⟩
      · exact .inl hm
    · exact .inr ⟨c,List.mem_cons_of_mem _ hc,hval⟩

theorem mem_foldl_insert {k : κ} (l : List β) (m : FMap κ α) :
    k ∈ l.foldl (fun m b => m.insert (key b) (val b)) m ↔ k ∈ m ∨ k ∈ l.map key := by
  induction l generalizing m with
  | nil => simp
  | cons b l ih => rw [List.foldl_cons, ih, Finmap.mem_insert, List.map_cons, List.mem_cons, or_left_comm, or_assoc]

end Build

section Total
variable (g : α → Int)

/-- What a key adds to the sum; nothing when it is absent. -/
def weight (m : FMap κ α) (k : κ) : Int := ((m.lookup k).map g).getD 0

/-- The sum over all values of the map. -/
def total (m : FMap κ α) : Int := ∑ k ∈ m.keys, weight g m k

@[simp] theorem total_empty : total g (∅ : FMap κ α) = 0 := by simp [total]

private theorem weight_of_not_mem {m : FMap κ α} {k : κ} (h : k ∉ m.keys) : weight g m k = 0 := by
  rw [Finmap.mem_keys, ← Finmap.lookup_eq_none] at h
  simp [weight, h]

/-- Summing over more keys adds nothing. -/
theorem total_eq_sum {m : FMap κ α} {ks : Finset κ} (h : m.keys ⊆ ks) : total g m = ∑ k ∈ ks, weight g m k :=
  Finset.sum_subset h (fun _ _ hk => weight_of_not_mem g hk)

/-- The sum depends on what each key adds only. -/
theorem total_congr {m m' : FMap κ α} (h : ∀ k, weight g m k = weight g m' k) : total g m = total g m' := by
  have hsub : m.keys ⊆ m.keys ∪ m'.keys := Finset.subset_union_left
  have hsub' : m'.keys ⊆ m.keys ∪ m'.keys := Finset.subset_union_right
  rw [total_eq_sum g hsub, total_eq_sum g hsub']
  exact Finset.sum_congr rfl (fun k _ => h k)

/-- When only one key changes, so does its share of the sum. -/
theorem total_update {m m' : FMap κ α} {k : κ} (h : ∀ k', k' ≠ k → m'.lookup k' = m.lookup k') :
    total g m' = total g m-weight g m k+weight g m' k := by
  have hsub : m.keys ⊆ insert k (m.keys ∪ m'.keys) := fun x hx => by simp [Finset.mem_union, hx]
  have hsub' : m'.keys ⊆ insert k (m.keys ∪ m'.keys) := fun x hx => by simp [Finset.mem_union, hx]
  have hk : k ∈ insert k (m.keys ∪ m'.keys) := Finset.mem_insert_self _ _
  rw [total_eq_sum g hsub, total_eq_sum g hsub', ← Finset.add_sum_erase _ _ hk, ← Finset.add_sum_erase _ (weight g m) hk]
  have hrest : ∑ x ∈ (insert k (m.keys ∪ m'.keys)).erase k, weight g m' x =
      ∑ x ∈ (insert k (m.keys ∪ m'.keys)).erase k, weight g m x := by
    refine Finset.sum_congr rfl (fun x hx => ?_)
    simp only [weight, h x (Finset.ne_of_mem_erase hx)]
  rw [hrest]
  omega

/-- What a set of keys adds is gone once they are removed. -/
theorem total_eraseAll (ks : Finset κ) (m : FMap κ α) : total g (eraseAll ks m) = total g m-∑ k ∈ ks, weight g m k := by
  have hsub : (eraseAll ks m).keys ⊆ m.keys := by
    intro k hk
    rw [Finmap.mem_keys, ← Finmap.lookup_isSome, lookup_eraseAll] at hk
    rw [Finmap.mem_keys, ← Finmap.lookup_isSome]
    split at hk
    · cases hk
    · exact hk
  have hweight : ∀ k, weight g (eraseAll ks m) k = weight g m k-if k ∈ ks then weight g m k else 0 := by
    intro k
    unfold weight
    rw [lookup_eraseAll]
    split <;> simp
  have hinter : ∑ k ∈ m.keys ∩ ks, weight g m k = ∑ k ∈ ks, weight g m k := by
    refine Finset.sum_subset Finset.inter_subset_right (fun k hk hni => weight_of_not_mem g (fun hm => hni ?_))
    exact Finset.mem_inter.mpr ⟨hm,hk⟩
  rw [total_eq_sum g hsub, Finset.sum_congr rfl (fun k _ => hweight k), Finset.sum_sub_distrib, Finset.sum_ite_mem, hinter]
  rfl

/-- A sum of ones is a number of keys. -/
theorem total_eq_card {m : FMap κ α} {p : κ → Prop} [DecidablePred p] (h : ∀ k, weight g m k = if p k then 1 else 0) :
    total g m = (m.keys.filter p).card := by
  rw [total, Finset.sum_congr rfl (fun k _ => h k), Finset.sum_boole]

private theorem weight_nonneg {g : α → Int} (hg : ∀ a, 0 ≤ g a) (m : FMap κ α) (k : κ) : 0 ≤ weight g m k := by
  unfold weight
  cases m.lookup k with
  | none => exact Int.le_refl 0
  | some a => exact hg a

theorem total_nonneg (hg : ∀ a, 0 ≤ g a) (m : FMap κ α) : 0 ≤ total g m :=
  Finset.sum_nonneg (fun k _ => weight_nonneg hg m k)

theorem weight_le_total (hg : ∀ a, 0 ≤ g a) (m : FMap κ α) (k : κ) : weight g m k ≤ total g m := by
  by_cases hk : k ∈ m.keys
  · exact Finset.single_le_sum (fun x _ => weight_nonneg hg m x) hk
  · rw [weight_of_not_mem g hk]
    exact total_nonneg g hg m

end Total

section Sets
variable {β : Type} [DecidableEq β]

/-- Add to the set stored at a key. -/
theorem getD_insert_insert (m : FMap κ (Finset β)) (a b : κ) (x : β) :
    ((m.insert a (insert x ((m.lookup a).getD ∅))).lookup b).getD ∅ =
      if b = a then insert x ((m.lookup b).getD ∅) else (m.lookup b).getD ∅ := by
  rw [lookup_insert_ite]
  by_cases h : b = a
  · subst h
    simp
  · simp [h]

theorem insert_getD_of_mem {m : FMap κ (Finset β)} {a : κ} {x : β} (h : x ∈ (m.lookup a).getD ∅) :
    m.insert a (insert x ((m.lookup a).getD ∅)) = m := by
  refine Finmap.ext_lookup (fun b => ?_)
  rw [Finset.insert_eq_self.mpr h, lookup_insert_ite]
  split
  · rename_i hb
    subst hb
    cases hl : m.lookup b with
    | none => simp [hl] at h
    | some s => rfl
  · rfl

/-- Remove from the set stored at a key, which is written back only if it changes. -/
theorem getD_insert_erase (m : FMap κ (Finset β)) (a b : κ) (x : β) :
    ((if x ∈ (m.lookup a).getD ∅ then m.insert a (((m.lookup a).getD ∅).erase x) else m).lookup b).getD ∅ =
      if b = a then ((m.lookup b).getD ∅).erase x else (m.lookup b).getD ∅ := by
  by_cases h : b = a
  · subst h
    by_cases hx : x ∈ (m.lookup b).getD ∅ <;> simp [hx]
  · split <;> simp [h]

/-- How many of the sets stored in the map have members. -/
def inhabited (m : FMap κ (Finset β)) : Int := total (fun s => if s = ∅ then 0 else 1) m

private theorem weight_inhabited (m : FMap κ (Finset β)) (a : κ) :
    weight (fun s => if s = ∅ then 0 else 1) m a = if (m.lookup a).getD ∅ = ∅ then 0 else 1 := by
  unfold weight
  cases m.lookup a <;> simp

theorem inhabited_congr {m m' : FMap κ (Finset β)} (h : ∀ a, (m.lookup a).getD ∅ = (m'.lookup a).getD ∅) :
    inhabited m = inhabited m' :=
  total_congr _ (fun a => by rw [weight_inhabited, weight_inhabited, h a])

theorem inhabited_insert (m : FMap κ (Finset β)) (a : κ) (x : β) :
    inhabited (m.insert a (insert x ((m.lookup a).getD ∅))) =
      if ((m.lookup a).getD ∅).card = 0 then inhabited m+1 else inhabited m := by
  have hother : ∀ b, b ≠ a → (m.insert a (insert x ((m.lookup a).getD ∅))).lookup b = m.lookup b :=
    fun b hb => by rw [lookup_insert_ite, if_neg hb]
  have hupd := total_update (fun s : Finset β => if s = ∅ then 0 else 1) hother
  rw [weight_inhabited, weight_inhabited, getD_insert_insert, if_pos rfl] at hupd
  unfold inhabited
  rw [hupd]
  by_cases h : (m.lookup a).getD ∅ = ∅ <;> simp [h]

private theorem inhabited_pos {m : FMap κ (Finset β)} {a : κ} (h : (m.lookup a).getD ∅ ≠ ∅) : 0 < inhabited m := by
  have hle := weight_le_total (fun s : Finset β => if s = ∅ then 0 else 1) (fun s => by split <;> simp) m a
  rw [weight_inhabited, if_neg h] at hle
  exact hle

theorem inhabited_erase (m : FMap κ (Finset β)) (a : κ) (x : β) :
    inhabited (if x ∈ (m.lookup a).getD ∅ then m.insert a (((m.lookup a).getD ∅).erase x) else m) =
      if x ∈ (m.lookup a).getD ∅ ∧ (((m.lookup a).getD ∅).erase x).card = 0 ∧ 0 < inhabited m
      then inhabited m-1 else inhabited m := by
  by_cases hx : x ∈ (m.lookup a).getD ∅
  · have hne : (m.lookup a).getD ∅ ≠ ∅ := Finset.ne_empty_of_mem hx
    have hother : ∀ b, b ≠ a → (m.insert a (((m.lookup a).getD ∅).erase x)).lookup b = m.lookup b :=
      fun b hb => by rw [lookup_insert_ite, if_neg hb]
    have hupd := total_update (fun s : Finset β => if s = ∅ then 0 else 1) hother
    rw [weight_inhabited, weight_inhabited, if_neg hne] at hupd
    simp only [hx, if_true, true_and, Finset.card_eq_zero, inhabited_pos hne, and_true]
    unfold inhabited
    rw [hupd]
    by_cases he : ((m.lookup a).getD ∅).erase x = ∅ <;> simp [he]
  · simp [hx]

/-- Removing a key takes its set off the count if it has members. -/
theorem inhabited_erase_key (m : FMap κ (Finset β)) (a : κ) :
    inhabited (m.erase a) = if 0 < ((m.lookup a).getD ∅).card ∧ 0 < inhabited m then inhabited m-1 else inhabited m := by
  have hother : ∀ b, b ≠ a → (m.erase a).lookup b = m.lookup b := fun b hb => by rw [lookup_erase_ite, if_neg hb]
  have hupd := total_update (fun s : Finset β => if s = ∅ then 0 else 1) hother
  rw [weight_inhabited, weight_inhabited, lookup_erase_ite, if_pos rfl] at hupd
  by_cases he : (m.lookup a).getD ∅ = ∅
  · simp only [he, Finset.card_empty, Nat.lt_irrefl, false_and, if_false]
    unfold inhabited
    simpa [he] using hupd
  · simp only [Finset.card_pos, Finset.nonempty_iff_ne_empty, ne_eq, he, not_false_iff, inhabited_pos he, and_self, if_true]
    unfold inhabited
    simpa [he] using hupd

theorem inhabited_eq_card (m : FMap κ (Finset β)) :
    inhabited m = (m.keys.filter (fun a => (m.lookup a).getD ∅ ≠ ∅)).card := by
  refine total_eq_card _ (fun a => ?_)
  rw [weight_inhabited]
  split <;> simp_all

end Sets

end Nawst.Lib.FiniteMap
