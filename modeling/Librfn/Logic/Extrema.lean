import Mathlib.Order.Bounds.Basic
import Mathlib.Order.MinMax

/-!
# Extrema kept while going along a list

The smallest and the largest element so far, from a start that is none of
them.  It has to be neutral to be right.
-/

namespace Librfn.Logic

section

variable {α : Type} [LinearOrder α] {start : α} {xs : List α}

theorem le_foldl_min_iff {a : α} :
    a ≤ xs.foldl min start ↔ a ≤ start ∧ ∀ x ∈ xs, a ≤ x := by
  induction xs generalizing start with
  | nil => simp
  | cons x xs ih =>
      rw [List.foldl_cons, ih, le_min_iff, List.forall_mem_cons, and_assoc]

theorem foldl_min_mem : xs.foldl min start = start ∨ xs.foldl min start ∈ xs := by
  induction xs generalizing start with
  | nil => exact .inl rfl
  | cons x xs ih =>
      rw [List.foldl_cons]
      rcases @ih (min start x) with heq | hmem
      · rcases min_choice start x with hstart | hx
        · exact .inl (heq.trans hstart)
        · right
          rw [heq, hx]
          exact List.mem_cons_self
      · exact .inr (List.mem_cons_of_mem x hmem)

theorem isLeast_foldl_min_iff :
    IsLeast { x | x ∈ xs } (xs.foldl min start) ↔ ∃ x ∈ xs, x ≤ start := by
  have hle := le_foldl_min_iff.mp (le_refl (xs.foldl min start))
  constructor
  · rintro ⟨hmem, _⟩
    exact ⟨_, hmem, hle.1⟩
  · rintro ⟨x, hx, hstart⟩
    refine ⟨?_, fun y hy => hle.2 y hy⟩
    rcases @foldl_min_mem α _ start xs with heq | hmem
    · have hx' : start = x := le_antisymm (heq ▸ hle.2 x hx) hstart
      change xs.foldl min start ∈ xs
      rw [heq, hx']
      exact hx
    · exact hmem

theorem isGreatest_foldl_max_iff :
    IsGreatest { x | x ∈ xs } (xs.foldl max start) ↔ ∃ x ∈ xs, start ≤ x :=
  @isLeast_foldl_min_iff αᵒᵈ _ start xs

end

end Librfn.Logic
