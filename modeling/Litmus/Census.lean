import Mathlib.Algebra.BigOperators.Fin
import Mathlib.Algebra.Order.BigOperators.Group.Finset

/-!
# Counting parties by phase

How many of finitely many parties are in a phase, and how the number changes when one of
them moves on.
-/

namespace Litmus.Census

open Function Finset

variable {ι α : Type} [Fintype ι]

/-- The number of parties in a phase with property `p`. -/
def census (p : α → Bool) (f : ι → α) : Nat := ∑ i, if p (f i) then 1 else 0

theorem census_le_card (p : α → Bool) (f : ι → α) : census p f ≤ Fintype.card ι := by
  have hle : census p f ≤ ∑ _i : ι, 1 := by
    apply sum_le_sum
    intro i _
    split <;> omega
  rwa [sum_const, card_univ, smul_eq_mul, mul_one] at hle

variable {p : α → Bool} {f : ι → α} {i : ι}

theorem census_pos (h : p (f i) = true) : 0 < census p f := by
  have hle := single_le_sum (f := fun j => if p (f j) then 1 else 0)
    (fun _ _ => Nat.zero_le _) (mem_univ i)
  simp only [h, if_true] at hle
  exact hle

/-- Nobody is in the phase. -/
theorem census_eq_zero (h : ∀ i, p (f i) = false) : census p f = 0 := by
  unfold census
  simp [h]

variable [DecidableEq ι]

/-- A sum over all parties, when one of them moves; what a party counts may depend on who
    it is. -/
theorem sum_update_at (w : ι → α → Nat) (f : ι → α) (i : ι) (a : α) :
    ∑ j, w j (update f i a j) + w i (f i) = ∑ j, w j (f j) + w i a := by
  have hres : ∑ j ∈ univ.erase i, w j (update f i a j) = ∑ j ∈ univ.erase i, w j (f j) := by
    apply sum_congr rfl
    intro j hj
    rw [update_of_ne (ne_of_mem_erase hj)]
  have hnew := add_sum_erase univ (fun j => w j (update f i a j)) (mem_univ i)
  have hold := add_sum_erase univ (fun j => w j (f j)) (mem_univ i)
  simp only [update_self] at hnew
  omega

/-- A sum over all parties, when one of them moves. -/
theorem sum_update (w : α → Nat) (f : ι → α) (i : ι) (a : α) :
    ∑ j, w (update f i a j) + w (f i) = ∑ j, w (f j) + w a :=
  sum_update_at (fun _ => w) f i a

/-- One party moves. -/
theorem census_update (p : α → Bool) (f : ι → α) (i : ι) (a : α) :
    census p (update f i a) + (if p (f i) then 1 else 0) = census p f + (if p a then 1 else 0) :=
  sum_update (fun b => if p b then 1 else 0) f i a

/-- A move between phases that `p` does not tell apart. -/
theorem census_update_of_eq {a : α} (h : p a = p (f i)) : census p (update f i a) = census p f := by
  have hup := census_update p f i a
  rw [h] at hup
  exact Nat.add_right_cancel hup

/-- A party that is not in the phase is not counted. -/
theorem census_lt_card (h : p (f i) = false) : census p f < Fintype.card ι := by
  have hsp := add_sum_erase univ (fun j => if p (f j) then 1 else 0) (mem_univ i)
  have hle : ∑ j ∈ univ.erase i, (if p (f j) then 1 else 0) ≤ (univ.erase i).card := by
    rw [card_eq_sum_ones]
    apply sum_le_sum
    intro j _
    split <;> omega
  have hcar : (univ.erase i).card < Fintype.card ι := by
    rw [card_erase_of_mem (mem_univ i), card_univ]
    exact Nat.sub_lt (Fintype.card_pos_iff.mpr ⟨i⟩) one_pos
  simp only [h, Bool.false_eq_true, if_false, zero_add] at hsp
  unfold census
  omega

end Litmus.Census
