import Mathlib

/-!
# `Nockchain.Lib.OrderStatistics`: ranks in a sorted list

An element of a sorted list bounds a number of others by its place alone. So a
bound on an element is a count: `v` is at most the element at `i` as soon as all
but `i` elements are at least `v`, and that many are at least the element itself.
Counts do not depend on the order, so these bounds are about the list before it
was sorted, and they are easy to follow when an element comes or goes.
-/

set_option autoImplicit false

namespace Nockchain.Lib

open List

variable {α : Type} [LinearOrder α] {s : List α} {i : Nat} {v : α}

/-- From its place on, the elements of a sorted list are at least as large. -/
theorem countP_getElem_le (hs : s.Pairwise (· ≤ ·)) (hi : i < s.length) :
    s.length - i ≤ s.countP (fun x => s[i] ≤ x) := by
  have hall : ∀ x ∈ s.drop i, decide (s[i] ≤ x) := by
    intro x hx
    obtain ⟨j, hj, rfl⟩ := getElem_of_mem hx
    rw [getElem_drop, decide_eq_true_eq]
    rcases Nat.eq_zero_or_pos j with rfl | hpos
    · exact le_rfl
    · exact pairwise_iff_getElem.1 hs i (i + j) hi (by rw [length_drop] at hj; omega)
        (by omega)
  rw [← length_drop, ← countP_eq_length.2 hall]
  exact (drop_sublist i s).countP_le

/-- Where all but `i` elements are at least `v`, so is the one at `i`. -/
theorem le_getElem_of_countP (hs : s.Pairwise (· ≤ ·)) (hi : i < s.length)
    (h : s.length - i ≤ s.countP (fun x => v ≤ x)) : v ≤ s[i] := by
  by_contra hlt
  -- then none of the first `i + 1` elements counts
  have hnone : (s.take (i + 1)).countP (fun x => v ≤ x) = 0 := by
    rw [countP_eq_zero]
    intro x hx
    obtain ⟨j, hj, rfl⟩ := getElem_of_mem hx
    rw [length_take] at hj
    rw [getElem_take, decide_eq_true_eq, not_le]
    refine lt_of_le_of_lt ?_ (not_le.1 hlt)
    rcases Nat.lt_or_ge j i with hji | hji
    · exact pairwise_iff_getElem.1 hs j i (by omega) hi hji
    · exact le_of_eq (by congr 1; omega)
  have hcount : s.countP (fun x => v ≤ x) ≤ s.length - (i + 1) :=
    calc s.countP (fun x => v ≤ x)
        = (s.take (i + 1)).countP (fun x => v ≤ x) + (s.drop (i + 1)).countP (fun x => v ≤ x) := by
          rw [← countP_append, take_append_drop]
      _ ≤ s.length - (i + 1) := by
          rw [hnone, Nat.zero_add, ← length_drop]
          exact countP_le_length
  omega

end Nockchain.Lib
