/-
# Counting the members of a family at a value

A resource counter often stands for the members of a family that are in one place:
the readers of a block, the iterators parked on a node. A member that moves changes
the counts of two places.
-/

import Mathlib.Data.Fintype.Card
import Mathlib.Algebra.BigOperators.Group.Finset.Piecewise

namespace ThreeW3.Lib

universe u v
variable {ι : Type u} {α : Type v} [Fintype ι] [DecidableEq α]

/-- How many members of the family are at `b`. -/
def countAt (f : ι → α) (b : α) : ℕ := (Finset.univ.filter fun i => f i = b).card

theorem countAt_pos {f : ι → α} {b : α} : 0 < countAt f b ↔ ∃ i, f i = b := by
  simp [countAt, Finset.card_pos, Finset.Nonempty]

theorem countAt_eq_zero {f : ι → α} {b : α} : countAt f b = 0 ↔ ∀ i, f i ≠ b := by
  simp [countAt, Finset.filter_eq_empty_iff]

theorem countAt_le_card (f : ι → α) (b : α) : countAt f b ≤ Fintype.card ι := Finset.card_le_univ _

/-- One member moves to `a`. -/
theorem countAt_update [DecidableEq ι] (f : ι → α) (i : ι) (a b : α) :
    (countAt (Function.update f i a) b + if f i = b then 1 else 0) =
      countAt f b + if a = b then 1 else 0 := by
  have hsum : ∀ g : ι → α, countAt g b =
      (if g i = b then 1 else 0) + ∑ j ∈ Finset.univ.erase i, if g j = b then 1 else 0 := by
    intro g
    rw [countAt, Finset.card_filter]
    exact (Finset.add_sum_erase _ (fun j => if g j = b then 1 else 0) (Finset.mem_univ i)).symm
  have hrest : ∀ j ∈ Finset.univ.erase i,
      (if Function.update f i a j = b then 1 else 0) = if f j = b then 1 else 0 := by
    intro j hj
    rw [Function.update_of_ne (Finset.ne_of_mem_erase hj)]
  rw [hsum, hsum, Finset.sum_congr rfl hrest, Function.update_self]
  omega

end ThreeW3.Lib
