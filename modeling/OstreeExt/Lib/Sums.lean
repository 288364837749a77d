import Mathlib.Algebra.GroupWithZero.Nat
import Mathlib.Algebra.Order.BigOperators.Group.Finset
import Mathlib.Algebra.Order.Group.Nat

/-!
# Sums over lists with repeated members

What is added up member by member, and what is added up once for each member: the two sums differ
by the members that are repeated.
-/

namespace ListSums

variable {α : Type} [DecidableEq α]

/-- Counted for each place, a member counts at least once. -/
theorem le_count_mul {l : List α} {x : α} (hx : x ∈ l) (n : Nat) : n ≤ l.count x * n :=
  Nat.le_mul_of_pos_left n (List.count_pos_iff.mpr hx)

/-- The sum over the places, by members. -/
theorem sum_map_eq_sum_count (l : List α) (f : α → Nat) :
    (l.map f).sum = ∑ x ∈ l.toFinset, l.count x * f x :=
  Finset.sum_list_map_count l f

/-- **The two sums agree** if and only if only what weighs nothing is repeated. -/
theorem sum_map_eq_iff (l : List α) (f : α → Nat) :
    (l.map f).sum = ∑ x ∈ l.toFinset, f x ↔ (l.filter (f · ≠ 0)).Nodup := by
  rw [sum_map_eq_sum_count, eq_comm, Finset.sum_eq_sum_iff_of_le
    (fun x hx => le_count_mul (List.mem_toFinset.mp hx) (f x)), List.nodup_iff_count_eq_one]
  constructor
  · intro h x hx
    obtain ⟨hmem, hne⟩ := List.mem_filter.mp hx
    have heq : 1 * f x = l.count x * f x := by
      rw [Nat.one_mul]
      exact h x (List.mem_toFinset.mpr hmem)
    have hcount := List.count_filter (l := l) (p := fun x => decide (f x ≠ 0)) hne
    rw [hcount]
    exact (Nat.eq_of_mul_eq_mul_right (Nat.pos_of_ne_zero (of_decide_eq_true hne)) heq).symm
  · intro h x hx
    by_cases hzero : f x = 0
    · rw [hzero, Nat.mul_zero]
    · have hne : decide (f x ≠ 0) = true := decide_eq_true hzero
      have hcount := List.count_filter (l := l) (p := fun x => decide (f x ≠ 0)) hne
      rw [← hcount, h x (List.mem_filter.mpr ⟨List.mem_toFinset.mp hx, hne⟩), Nat.one_mul]

end ListSums
