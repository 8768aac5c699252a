import Mathlib.Algebra.Order.Ring.Defs
import Mathlib.Data.List.Basic

/-! Going through a list with a running best that only gives way to what is below a fraction
of it: when that ends at the least element. -/
namespace Nawst.Lib.Descent

variable {R : Type} [CommRing R] [LinearOrder R] (q : R)

/-- The best that is left, from a first one. -/
def descend (best : R) (xs : List R) : R := xs.foldl (fun best x => if x < best*q then x else best) best

/-- Whenever an element becomes the best, no lower one follows it, or one that is below the
fraction of it does. -/
def Steep : R → List R → Prop
  | _, [] => True
  | best, x::xs => if x < best*q then (∀ y ∈ xs, x ≤ y) ∨ (∃ y ∈ xs, y < x*q) ∧ Steep x xs else Steep best xs

instance Steep.decidable : (best : R) → (xs : List R) → Decidable (Steep q best xs)
  | _, [] => isTrue trivial
  | best, x::xs =>
    have := Steep.decidable x xs
    have := Steep.decidable best xs
    inferInstanceAs (Decidable (if x < best*q then (∀ y ∈ xs, x ≤ y) ∨ (∃ y ∈ xs, y < x*q) ∧ Steep q x xs else Steep q best xs))

variable {q} {best : R} {xs : List R}

/-- Nothing replaces the first one. -/
theorem steep_of_le (h : ∀ x ∈ xs, best*q ≤ x) : Steep q best xs := by
  induction xs with
  | nil => trivial
  | cons x xs ih =>
    obtain ⟨hx,hxs⟩ := List.forall_mem_cons.mp h
    rw [Steep, if_neg (not_lt.mpr hx)]
    exact ih hxs

variable [IsStrictOrderedRing R]

/-- The first one stays, or an element below the fraction of it is left. -/
theorem descend_cases (hq : q ≤ 1) (hbest : 0 < best) (hxs : ∀ x ∈ xs, 0 < x) :
    descend q best xs = best ∧ (∀ x ∈ xs, best*q ≤ x) ∨
      descend q best xs ∈ xs ∧ descend q best xs < best*q := by
  induction xs generalizing best with
  | nil => exact .inl ⟨rfl,by simp⟩
  | cons x xs ih =>
    obtain ⟨hx,hxs⟩ := List.forall_mem_cons.mp hxs
    by_cases hlt : x < best*q
    · have hnext : descend q best (x::xs) = descend q x xs := by simp [descend, hlt]
      rw [hnext]
      refine .inr ?_
      rcases ih hx hxs with ⟨heq,_⟩ | ⟨hmem,hless⟩
      · rw [heq]
        exact ⟨List.mem_cons_self,hlt⟩
      · have hle : x*q ≤ x := mul_le_of_le_one_right hx.le hq
        exact ⟨List.mem_cons_of_mem _ hmem,hless.trans_le (hle.trans hlt.le)⟩
    · have hnext : descend q best (x::xs) = descend q best xs := by simp [descend, hlt]
      rw [hnext]
      rcases ih hbest hxs with ⟨heq,hall⟩ | ⟨hmem,hless⟩
      · exact .inl ⟨heq,List.forall_mem_cons.mpr ⟨not_lt.mp hlt,hall⟩⟩
      · exact .inr ⟨List.mem_cons_of_mem _ hmem,hless⟩

/-- When anything replaces the first one, the least element is left exactly if the list is
steep. -/
theorem descend_least_iff (hq : q ≤ 1) (hbest : 0 < best) (hxs : ∀ x ∈ xs, 0 < x) (h : ∃ x ∈ xs, x < best*q) :
    (∀ x ∈ xs, descend q best xs ≤ x) ↔ Steep q best xs := by
  induction xs generalizing best with
  | nil => simp [Steep]
  | cons x xs ih =>
    obtain ⟨hx,hxs⟩ := List.forall_mem_cons.mp hxs
    rw [List.forall_mem_cons]
    by_cases hlt : x < best*q
    · have hnext : descend q best (x::xs) = descend q x xs := by simp [descend, hlt]
      have hle : x*q ≤ x := mul_le_of_le_one_right hx.le hq
      rw [hnext, Steep, if_pos hlt]
      rcases descend_cases hq hx hxs with ⟨heq,hall⟩ | ⟨hmem,hless⟩
      · have hnone : ¬ ∃ y ∈ xs, y < x*q := fun ⟨y,hy,hlt⟩ => not_lt.mpr (hall y hy) hlt
        simp [heq, hnone]
      · have hnot : ¬ ∀ y ∈ xs, x ≤ y := fun hall => not_lt.mpr (hall _ hmem) (hless.trans_le hle)
        rw [ih hx hxs ⟨_,hmem,hless⟩]
        simp only [hnot, false_or, (hless.trans_le hle).le, true_and]
        exact ⟨fun hs => ⟨⟨_,hmem,hless⟩,hs⟩,And.right⟩
    · have hnext : descend q best (x::xs) = descend q best xs := by simp [descend, hlt]
      obtain ⟨y,hy,hyq⟩ := h
      have hy : y ∈ xs := (List.mem_cons.mp hy).resolve_left (fun he => hlt (he ▸ hyq))
      rw [hnext, Steep, if_neg hlt, ih hbest hxs ⟨y,hy,hyq⟩]
      rcases descend_cases hq hbest hxs with ⟨_,hall⟩ | ⟨_,hless⟩
      · exact absurd hyq (not_lt.mpr (hall y hy))
      · exact and_iff_right (hless.trans_le (not_lt.mp hlt)).le

end Nawst.Lib.Descent
