import Mathlib.Algebra.Order.BigOperators.Group.List
import Litmus.SliceJobs

/-!
# The parameters of sliced tasks

`wm_check_params`, `cd_check_params` and `hime_check_params` add and compare 64-bit words.  Over
the natural numbers an accepted task is as intended if and only if its budgets do not add up to
2^64 and, in EDF-WM, no slice ends before it starts.  The plugins then overwrite the cost and the
CPU that were checked, and a task that leaves takes what it finds there.
-/

namespace Litmus.SemiPart

open SlicedTask SemiState Runs

/-- The slices make up the job and, in EDF-WM, lie one after another. -/
structure SlicesFit (pl : Plugin) (t : SlicedTask) : Prop where
  total : (t.slices.map fun s => s.budget.toNat).sum = t.params.execCost.toNat
  budget : ∀ s ∈ t.slices, s.budget.toNat ≤ t.params.execCost.toNat
  window : pl = .edfWm → ∀ s ∈ t.slices, s.offset.toNat + s.budget.toNat ≤ s.deadline.toNat
  apart : pl = .edfWm → ∀ p ∈ t.slices.zip t.slices.tail, p.1.deadline.toNat ≤ p.2.offset.toNat

variable {online : BitVec 32 → Bool} {t : SlicedTask}

theorem checkParams_windows
    (hsl : t.isSlicedTask = true) (hck : t.checkParams .edfWm online = true) :
    (∀ p ∈ t.slices.zip t.slices.tail, p.1.deadline ≤ p.2.offset) ∧
      ∀ s ∈ t.slices, s.budget ≤ s.deadline - s.offset := by
  rw [checkParams, hsl] at hck
  simp only [Bool.not_true, Bool.false_or, Bool.and_eq_true, bne_self_eq_false, windowsFit,
    List.all_eq_true, Bool.not_eq_true', Bool.or_eq_false_iff, decide_eq_false_iff_not,
    BitVec.not_lt] at hck
  obtain ⟨⟨⟨⟨⟨-, hapa, hf⟩, -⟩, -⟩, -⟩, -⟩ := hck
  exact ⟨hapa, fun s hs => (hf s hs).2⟩

/-- The sum is the true one if it stays below 2^64, and a window is if it does not wrap. -/
theorem check_params_sound_iff {pl : Plugin} {online : BitVec 32 → Bool} {t : SlicedTask}
    (hsliced : t.isSlicedTask = true) (hcheck : t.checkParams pl online = true) :
    SlicesFit pl t ↔ (t.slices.map fun s => s.budget.toNat).sum < 2 ^ 64 ∧
      (pl = .edfWm → ∀ s ∈ t.slices, s.offset.toNat ≤ s.deadline.toNat) := by
  have hsum : budgetOf t.slices t.slices.length = (t.slices.map fun s => s.budget.toNat).sum := by
    rw [budgetOf, List.take_length]
  obtain ⟨-, -, hcost, -⟩ := checkParams_first hsliced hcheck
  constructor
  · intro h
    refine ⟨h.total ▸ t.params.execCost.isLt, fun hpl s hs => ?_⟩
    exact le_trans (Nat.le_add_right _ _) (h.window hpl s hs)
  rintro ⟨hlt, hwindow⟩
  have htotal : (t.slices.map fun s => s.budget.toNat).sum = t.params.execCost.toNat := by
    rw [hcost, toNat_budgetsUpTo (hsum ▸ hlt) le_rfl, hsum]
  refine ⟨htotal, fun s hs => ?_, ?_, ?_⟩
  · rw [← htotal]
    exact List.le_sum_of_mem (List.mem_map_of_mem hs)
  · rintro rfl s hs
    have hle : s.offset ≤ s.deadline := BitVec.le_def.mpr (hwindow rfl s hs)
    have hbudget := BitVec.le_def.mp ((checkParams_windows hsliced hcheck).2 s hs)
    rw [BitVec.toNat_sub_of_le hle] at hbudget
    have := hwindow rfl s hs
    omega
  rintro rfl p hp
  exact BitVec.le_def.mp ((checkParams_windows hsliced hcheck).1 p hp)

theorem check_params_sound_iff_two_slices :
    twoSlices.checkParams .edfWm (fun _ => true) = true ∧ SlicesFit .edfWm twoSlices :=
  ⟨by decide, (@check_params_sound_iff .edfWm (fun _ => true) twoSlices (by decide)
    (by decide)).mpr ⟨by decide, fun _ => by decide⟩⟩

/-- The first slice starts 2^63 + 1 nanoseconds after its deadline. -/
def wrappingWindow : SlicedTask :=
  admitted
    { execCost := 100000, period := 200000, cpu := 0, budgetPolicy := .preciseEnforcement }
    [{ cpu := 0, deadline := 100000, budget := 50000, offset := 0x80000000000186a1 },
      { cpu := 1, deadline := 200000, budget := 50000, offset := 100000 }]

/-- Budgets of 2^63 are accepted for a cost of 50 µs, and a slice that ends before it starts. -/
theorem check_params_accept_wrapped :
    (wrappingSlices.checkParams .cd (fun _ => true) = true ∧
      wrappingSlices.checkParams .hime (fun _ => true) = true ∧
      (wrappingSlices.slices.map fun s => s.budget.toNat).sum = 2 ^ 64 + 50000 ∧
      wrappingSlices.params.execCost.toNat = 50000 ∧
      ∃ s ∈ wrappingSlices.slices, wrappingSlices.params.execCost.toNat < s.budget.toNat) ∧
    wrappingWindow.checkParams .edfWm (fun _ => true) = true ∧
      ∃ s ∈ wrappingWindow.slices, s.deadline.toNat < s.offset.toNat := by
  decide

/-! ### Leaving and coming back -/

/-- The task runs or suspends itself. -/
def SliceOp.stays : SliceOp → Bool
  | .execute _ => true
  | .block _ => true
  | _ => false

variable {pl : Plugin} {t₀ : SlicedTask}

end Litmus.SemiPart
