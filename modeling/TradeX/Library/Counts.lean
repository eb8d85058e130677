import Mathlib.Algebra.BigOperators.Group.Finset.Piecewise

/-!
# Sums over owners

Each of finitely many owners has a share of a total. When the share of one owner changes, the
total changes by as much (`sum_change`), and what a list gives to each owner adds up to no more
than the list (`sum_length_filter_le`).
-/

namespace Counts

open Finset

/-- Two sums that differ in one summand. -/
theorem sum_change {ι : Type*} [DecidableEq ι] {s : Finset ι} {i : ι} (hi : i ∈ s)
    {f g : ι → ℕ}
    (h : ∀ j ≠ i, f j = g j) : ∑ j ∈ s, f j + g i = ∑ j ∈ s, g j + f i := by
  have hrest : ∑ j ∈ s.erase i, f j = ∑ j ∈ s.erase i, g j :=
    sum_congr rfl fun j hj => h j (ne_of_mem_erase hj)
  rw [← add_sum_erase s f hi, ← add_sum_erase s g hi, hrest]
  omega

theorem sum_length_filter_le {α : Type*} (owner : α → ℕ) (n : ℕ) : ∀ l : List α,
    ∑ i ∈ range n, (l.filter fun a => owner a = i).length ≤ l.length
  | [] => by simp
  | a :: l => by
    have ih := sum_length_filter_le owner n l
    have hone : ∑ i ∈ range n, (if owner a = i then 1 else 0) ≤ 1 := by
      rw [sum_ite_eq]
      split_ifs <;> omega
    have hcons : ∀ i, ((a :: l).filter fun a => owner a = i).length =
        (l.filter fun a => owner a = i).length + if owner a = i then 1 else 0 := by
      intro i
      by_cases ha : owner a = i <;> simp [ha]
    simp only [hcons, sum_add_distrib, List.length_cons]
    omega

end Counts
