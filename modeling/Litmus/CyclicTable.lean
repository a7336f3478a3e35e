import Mathlib.Algebra.BigOperators.Group.List.Basic
import Mathlib.Algebra.GroupWithZero.Nat
import Mathlib.Order.Monotone.Basic

/-!
# Tables that repeat

A table of lengths is laid out along the time line again and again.  Its places are counted
through, so that the place after the last one of a round is the first one of the next.
-/

namespace Litmus.CyclicTable

variable {ls : List Nat}

/-- Where place `p` starts. -/
def start (ls : List Nat) (p : Nat) : Nat :=
  p / ls.length * ls.sum + (ls.take (p % ls.length)).sum

theorem start_of_round {round j : Nat} (hj : j < ls.length) :
    start ls (round * ls.length + j) = round * ls.sum + (ls.take j).sum := by
  have hpos : 0 < ls.length := Nat.zero_lt_of_lt hj
  rw [start, mul_comm round, Nat.mul_add_div hpos, Nat.mul_add_mod, Nat.div_eq_of_lt hj,
    Nat.mod_eq_of_lt hj, add_zero]

/-- The end of a place is the start of the next one, also from round to round. -/
theorem start_succ_of_round {round j : Nat} (hj : j < ls.length) :
    start ls (round * ls.length + j + 1) = round * ls.sum + (ls.take (j + 1)).sum := by
  rcases Nat.lt_or_eq_of_le (Nat.succ_le_of_lt hj) with hlt | heq
  · exact start_of_round hlt
  have hn : round * ls.length + j + 1 = (round + 1) * ls.length + 0 := by
    rw [Nat.succ_mul, add_zero, ← heq]
    rfl
  have htak : (ls.take (j + 1)).sum = ls.sum := by
    rw [← Nat.succ_eq_add_one, heq, List.take_length]
  rw [hn, start_of_round (by omega), htak, Nat.succ_mul]
  simp

theorem start_succ (hpos : 0 < ls.length) (p : Nat) :
    start ls (p + 1) = start ls p + ls.getD (p % ls.length) 0 := by
  have hj : p % ls.length < ls.length := Nat.mod_lt p hpos
  have hp := (Nat.div_add_mod' p ls.length).symm
  have hsu := @start_succ_of_round ls (p / ls.length) (p % ls.length) hj
  rw [← hp] at hsu
  rw [hsu, start, List.take_add_one, List.getElem?_eq_getElem hj, List.sum_append,
    List.getD_eq_getElem?_getD, List.getElem?_eq_getElem hj]
  simp [add_assoc]

theorem start_mono (hpos : 0 < ls.length) : Monotone (start ls) :=
  monotone_nat_of_le_succ fun p => by
    rw [start_succ hpos]
    exact Nat.le_add_right _ _

theorem lt_of_start_lt (hpos : 0 < ls.length) {p q : Nat} (h : start ls p < start ls q) :
    p < q := by
  by_contra hge
  exact absurd (start_mono hpos (Nat.le_of_not_lt hge)) (not_le.mpr h)

end Litmus.CyclicTable
