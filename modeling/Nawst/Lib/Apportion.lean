import Mathlib.Algebra.Order.Floor.Ring
import Mathlib.Algebra.BigOperators.Group.List.Basic
import Mathlib.Algebra.BigOperators.Group.Finset.Basic
import Mathlib.Algebra.BigOperators.Group.Finset.Piecewise
import Mathlib.Algebra.Order.BigOperators.Group.Finset

/-! Handing out the units of a whole: rounding shares down leaves less than one unit for
each share, and units change hands least often when nobody both gives and takes. -/
namespace Nawst.Lib.Apportion

section Rounding
variable {R : Type} [Ring R] [LinearOrder R] [IsStrictOrderedRing R] [FloorRing R]

theorem sum_floor_le (xs : List R) : (((xs.map Int.floor).sum : Int) : R) ≤ xs.sum := by
  induction xs with
  | nil => simp
  | cons x xs ih =>
    simp only [List.map_cons, List.sum_cons, Int.cast_add]
    exact add_le_add (Int.floor_le x) ih

theorem sum_lt_sum_floor_add_length {xs : List R} (hne : xs ≠ []) :
    xs.sum < (((xs.map Int.floor).sum+xs.length : Int) : R) := by
  induction xs with
  | nil => exact absurd rfl hne
  | cons x xs ih =>
    have hx := Int.lt_floor_add_one x
    simp only [List.map_cons, List.sum_cons, List.length_cons, Int.cast_add, Nat.cast_add, Nat.cast_one, Int.cast_one]
    by_cases hxs : xs = []
    · subst hxs
      simp
    · have hlt := ih hxs
      simp only [Int.cast_add, Int.cast_natCast] at hlt
      calc x+xs.sum < ((⌊x⌋ : Int) : R)+1+((((xs.map Int.floor).sum : Int) : R)+xs.length) := add_lt_add hx hlt
        _ = _ := by
          rw [Int.cast_natCast]
          abel

/-- What is left of a whole number is not negative and below the number of shares. -/
theorem rest_bounds {xs : List R} {n : Int} (hne : xs ≠ []) (hsum : xs.sum = n) :
    0 ≤ n-(xs.map Int.floor).sum ∧ n-(xs.map Int.floor).sum < xs.length := by
  have hle := sum_floor_le xs
  have hlt := sum_lt_sum_floor_add_length hne
  rw [hsum, Int.cast_le] at hle
  rw [hsum, Int.cast_lt] at hlt
  omega

end Rounding

section Moves

private theorem countP_cons_int {β : Type} (q : β → Bool) (p : β) (ps : List β) :
    ((p::ps).countP q : Int) = ps.countP q+if q p then 1 else 0 := by
  rw [List.countP_cons]
  split <;> simp

variable {α : Type} [DecidableEq α]

/-- Units that a holder has before, after and all along, when each unit is a pair of its
holders before and after. -/
def held (n : α) (ps : List (α × α)) : Int := ps.countP (fun p => p.1 = n)
def given (n : α) (ps : List (α × α)) : Int := ps.countP (fun p => p.2 = n)
def kept (n : α) (ps : List (α × α)) : Int := ps.countP (fun p => p.1 = n ∧ p.2 = n)

def moved (ps : List (α × α)) : Int := ps.countP (fun p => p.2 ≠ p.1)

theorem kept_le_held (n : α) (ps : List (α × α)) : kept n ps ≤ held n ps :=
  Int.ofNat_le.mpr (List.countP_mono_left (fun p _ h => by simp_all))

theorem kept_le_given (n : α) (ps : List (α × α)) : kept n ps ≤ given n ps :=
  Int.ofNat_le.mpr (List.countP_mono_left (fun p _ h => by simp_all))

theorem kept_eq_held {n : α} {ps : List (α × α)} (h : ∀ p ∈ ps, p.1 = n → p.2 = n) : kept n ps = held n ps :=
  congrArg Nat.cast (List.countP_congr (fun p hp => by simpa using h p hp))

theorem kept_eq_given {n : α} {ps : List (α × α)} (h : ∀ p ∈ ps, p.2 = n → p.1 = n) : kept n ps = given n ps :=
  congrArg Nat.cast (List.countP_congr (fun p hp => by simpa using h p hp))

variable (blank : α) {S : Finset α} {ps : List (α × α)}

/-- Every unit without a holder moves, and those that a holder does not keep. -/
theorem moved_eq (hblank : blank ∉ S) (hold : ∀ p ∈ ps, p.1 = blank ∨ p.1 ∈ S) (hnew : ∀ p ∈ ps, p.2 ≠ blank) :
    moved ps = held blank ps+∑ n ∈ S, (held n ps-kept n ps) := by
  induction ps with
  | nil => simp [moved, held, kept]
  | cons p ps ih =>
    obtain ⟨hp,hold⟩ := List.forall_mem_cons.mp hold
    obtain ⟨hp',hnew⟩ := List.forall_mem_cons.mp hnew
    have hone (n : α) : held n (p::ps)-kept n (p::ps) = held n ps-kept n ps+if p.1 = n then if p.2 = p.1 then 0 else 1 else 0 := by
      simp only [held, kept, countP_cons_int, decide_eq_true_eq]
      by_cases h : p.1 = n
      · subst h
        by_cases h' : p.2 = p.1
        · simp [h']
        · simp [h']
          omega
      · simp [h]
    simp only [hone, Finset.sum_add_distrib, Finset.sum_ite_eq]
    have hih := ih hold hnew
    simp only [moved, held, countP_cons_int, decide_eq_true_eq, ne_eq] at hih ⊢
    rcases hp with hp | hp
    · simp only [hp, hp', hblank, not_false_iff, if_true, if_false]
      omega
    · have hne : ¬ p.1 = blank := fun h => hblank (h ▸ hp)
      simp only [hne, hp, if_true, if_false]
      by_cases h : p.2 = p.1 <;> simp only [h, not_true, not_false_iff, if_true, if_false] <;> omega

/-- Holders that have to give up units move at least these. -/
theorem required_le_moved (hblank : blank ∉ S) (hold : ∀ p ∈ ps, p.1 = blank ∨ p.1 ∈ S) (hnew : ∀ p ∈ ps, p.2 ≠ blank) :
    held blank ps+∑ n ∈ S, max 0 (held n ps-given n ps) ≤ moved ps := by
  rw [moved_eq blank hblank hold hnew]
  refine Int.add_le_add_left (Finset.sum_le_sum (fun n _ => ?_)) _
  have h1 := kept_le_held n ps
  have h2 := kept_le_given n ps
  omega

/-- No more are moved when every holder keeps all it has or takes nothing. -/
theorem moved_eq_required (hblank : blank ∉ S) (hold : ∀ p ∈ ps, p.1 = blank ∨ p.1 ∈ S) (hnew : ∀ p ∈ ps, p.2 ≠ blank)
    (hkeep : ∀ n ∈ S, kept n ps = held n ps ∨ kept n ps = given n ps) :
    moved ps = held blank ps+∑ n ∈ S, max 0 (held n ps-given n ps) := by
  rw [moved_eq blank hblank hold hnew]
  congr 1
  refine Finset.sum_congr rfl (fun n hn => ?_)
  have h1 := kept_le_held n ps
  have h2 := kept_le_given n ps
  have h3 := hkeep n hn
  omega

end Moves

end Nawst.Lib.Apportion
