import Mathlib.Algebra.Order.Field.Basic
import Mathlib.Data.List.Induction
import Mathlib.Tactic.Ring

/-! Exponential moving averages: each sample is mixed into the value with a fixed weight. -/
namespace Nawst.Lib.MovingAverage

section Mix
variable {K : Type} [Field K]

def mix (a x y : K) : K := a*x+(1-a)*y

/-- The value after the samples. -/
def smooth (a y : K) (xs : List K) : K := xs.foldl (fun y x => mix a x y) y

@[simp] theorem mix_self (a x : K) : mix a x x = x := by
  unfold mix
  ring

@[simp] theorem smooth_nil (a y : K) : smooth a y [] = y := rfl

theorem smooth_concat (a y : K) (xs : List K) (x : K) : smooth a y (xs ++ [x]) = mix a x (smooth a y xs) := by
  simp [smooth]

end Mix

section Bounds
variable {K : Type} [Field K] [LinearOrder K] [IsStrictOrderedRing K] {a : K} (h0 : 0 ≤ a) (h1 : a ≤ 1)
include h0 h1

theorem mix_mono {x x' y y' : K} (hx : x ≤ x') (hy : y ≤ y') : mix a x y ≤ mix a x' y' :=
  add_le_add (mul_le_mul_of_nonneg_left hx h0) (mul_le_mul_of_nonneg_left hy (sub_nonneg.mpr h1))

/-- A mixture stays in every interval that both parts are in. -/
theorem mix_mem {lo hi x y : K} (hx : x ∈ Set.Icc lo hi) (hy : y ∈ Set.Icc lo hi) : mix a x y ∈ Set.Icc lo hi :=
  ⟨mix_self a lo ▸ mix_mono h0 h1 hx.1 hy.1,mix_self a hi ▸ mix_mono h0 h1 hx.2 hy.2⟩

/-- Samples that are not below a level draw the value to it, by a fixed factor each time. -/
theorem le_smooth {c y : K} {xs : List K} (h : ∀ x ∈ xs, c ≤ x) : c+(1-a)^xs.length*(y-c) ≤ smooth a y xs := by
  induction xs using List.reverseRecOn with
  | nil => simp
  | append_singleton xs x ih =>
    obtain ⟨hxs,hx⟩ := List.forall_mem_append.mp h
    rw [smooth_concat]
    calc c+(1-a)^(xs ++ [x]).length*(y-c) = mix a c (c+(1-a)^xs.length*(y-c)) := by
          rw [List.length_append, List.length_singleton, pow_succ, mix]
          ring
      _ ≤ mix a x (smooth a y xs) := mix_mono h0 h1 (hx x (List.mem_singleton_self x)) (ih hxs)

end Bounds
end Nawst.Lib.MovingAverage
