import Mathlib.Algebra.Order.BigOperators.Group.Finset
import Mathlib.Algebra.Order.Field.Basic
import Mathlib.Algebra.Order.Floor.Div
import Mathlib.Data.Rat.Cast.Order
import Mathlib.Tactic.Linarith
import Mathlib.Tactic.LinearCombination
import Mathlib.Tactic.Ring

/-!
# Windows of a proportionate-fair task

A task that is entitled to `quanta` units of processor time in every `period` units
receives them one unit at a time.  The unit with index `k` has a window from its release
to its deadline: the time in which an ideal processor, which serves the task continuously
at the rate `quanta / period`, hands out that unit.  This module relates the integer
formulas of the windows to the ideal allocation.
-/

namespace Litmus.ProportionateFair

/-- A recurring claim to processor time that starts at time `start`. -/
structure Share where
  quanta : ℕ
  period : ℕ
  start : ℕ
  quanta_pos : 0 < quanta
  quanta_le : quanta ≤ period

namespace Share

variable (V : Share) {k l s x : ℕ}

def release (k : ℕ) : ℕ := V.start + k * V.period / V.quanta

def deadline (k : ℕ) : ℕ := V.start + ((k + 1) * V.period) ⌈/⌉ V.quanta

/-- Whether the window of unit `k` overlaps the next one, the "b-bit". -/
def overlap (k : ℕ) : ℕ := V.deadline k - V.release (k + 1)

/-- Where a chain of windows of length two that starts with unit `k` must end, for a task
    that claims at least half a processor; 0 for the others and for a whole processor. -/
def groupDeadline (k : ℕ) : ℕ :=
  if V.period ≤ 2 * V.quanta ∧ V.quanta < V.period then
    V.start + ((V.deadline k - V.start - (k + 1)) * V.period) ⌈/⌉ (V.period - V.quanta)
  else 0

/-- The rate at which the ideal processor serves the task. -/
def weight : ℚ := V.quanta / V.period

/-- What the ideal processor has handed out by time `s`, negative before the start. -/
def fluid (s : ℕ) : ℚ := V.weight * ((s : ℚ) - V.start)

theorem period_pos : 0 < V.period := V.quanta_pos.trans_le V.quanta_le

theorem weight_pos : 0 < V.weight :=
  div_pos (Nat.cast_pos.mpr V.quanta_pos) (Nat.cast_pos.mpr V.period_pos)

theorem weight_le_one : V.weight ≤ 1 := by
  have hp : (0 : ℚ) < V.period := Nat.cast_pos.mpr V.period_pos
  exact (div_le_one hp).mpr (Nat.cast_le.mpr V.quanta_le)

theorem fluid_succ (s : ℕ) : V.fluid (s + 1) = V.fluid s + V.weight := by
  unfold fluid
  push_cast
  ring

theorem fluid_add (s x : ℕ) : V.fluid (s + x) = V.fluid s + V.weight * x := by
  unfold fluid
  push_cast
  ring

theorem fluid_neg (h : s < V.start) : V.fluid s < 0 := by
  have hlt : (s : ℚ) - V.start < 0 := sub_neg.mpr (Nat.cast_lt.mpr h)
  exact mul_neg_of_pos_of_neg V.weight_pos hlt

theorem fluid_zero_nonpos : V.fluid 0 ≤ 0 := by
  have hs : ((0 : ℕ) : ℚ) - V.start ≤ 0 := by simp
  exact mul_nonpos_of_nonneg_of_nonpos V.weight_pos.le hs

/-- Comparisons with the ideal allocation are comparisons of products. -/
theorem fluid_start_add (x : ℕ) : V.fluid (V.start + x) = ((x * V.quanta : ℕ) : ℚ) / V.period := by
  unfold fluid weight
  push_cast
  ring

theorem natCast_le_fluid (k x : ℕ) :
    (k : ℚ) ≤ V.fluid (V.start + x) ↔ k * V.period ≤ x * V.quanta := by
  rw [fluid_start_add, le_div_iff₀ (Nat.cast_pos.mpr V.period_pos)]
  norm_cast

theorem natCast_lt_fluid (k x : ℕ) :
    (k : ℚ) < V.fluid (V.start + x) ↔ k * V.period < x * V.quanta := by
  rw [fluid_start_add, lt_div_iff₀ (Nat.cast_pos.mpr V.period_pos)]
  norm_cast

/-- Unit `k` is released when the ideal processor begins to hand it out. -/
theorem release_lt_iff : V.release k < s ↔ (k : ℚ) < V.fluid s := by
  rcases Nat.lt_or_ge s V.start with hs | hs
  · have hflu := V.fluid_neg hs
    constructor
    · intro h
      exact absurd (h.trans hs) (Nat.not_lt.mpr (Nat.le_add_right _ _))
    intro h
    exact absurd (h.trans hflu) (not_lt.mpr (Nat.cast_nonneg k))
  obtain ⟨x, rfl⟩ := Nat.exists_eq_add_of_le hs
  rw [natCast_lt_fluid, release, Nat.add_lt_add_iff_left, Nat.div_lt_iff_lt_mul V.quanta_pos]

/-- The deadline of unit `k` is when the ideal processor has handed it out. -/
theorem deadline_le_iff : V.deadline k ≤ s ↔ (k : ℚ) + 1 ≤ V.fluid s := by
  rcases Nat.lt_or_ge s V.start with hs | hs
  · have hflu := V.fluid_neg hs
    constructor
    · intro h
      exact absurd (h.trans_lt hs) (Nat.not_lt.mpr (Nat.le_add_right _ _))
    intro h
    have hpos : (0 : ℚ) ≤ k := Nat.cast_nonneg k
    linarith
  obtain ⟨x, rfl⟩ := Nat.exists_eq_add_of_le hs
  have hcas : (k : ℚ) + 1 = ((k + 1 : ℕ) : ℚ) := by push_cast; rfl
  rw [hcas, natCast_le_fluid, deadline, Nat.add_le_add_iff_left,
    ceilDiv_le_iff_le_mul V.quanta_pos, Nat.mul_comm V.quanta x]

theorem lt_deadline_iff : s < V.deadline k ↔ V.fluid s < (k : ℚ) + 1 := by
  rw [← not_le, deadline_le_iff, not_le]

theorem le_release_iff : s ≤ V.release k ↔ V.fluid s ≤ k := by
  rw [← not_lt, release_lt_iff, not_lt]

/-! ### Consecutive windows -/

theorem release_le_deadline (k : ℕ) : V.release (k + 1) ≤ V.deadline k := by
  by_contra h
  have hlt : V.deadline k < V.release (k + 1) := Nat.lt_of_not_le h
  have hle : V.deadline k + 1 ≤ V.release (k + 1) := hlt
  rw [le_release_iff, fluid_succ] at hle
  have hdon := V.deadline_le_iff.mp (le_refl (V.deadline k))
  have hw := V.weight_pos
  push_cast at hle
  linarith

/-- Windows overlap by at most one unit of time. -/
theorem deadline_le_release_succ (k : ℕ) : V.deadline k ≤ V.release (k + 1) + 1 := by
  rw [deadline_le_iff]
  have h := V.release_lt_iff.mp (Nat.lt_succ_self (V.release (k + 1)))
  push_cast at h
  exact h.le

theorem deadline_pos (k : ℕ) : 0 < V.deadline k := by
  rw [lt_deadline_iff]
  have h := V.fluid_zero_nonpos
  linarith [(Nat.cast_nonneg k : (0 : ℚ) ≤ k)]

theorem deadline_lt_succ (k : ℕ) : V.deadline k < V.deadline (k + 1) := by
  rw [lt_deadline_iff]
  obtain ⟨d, hd⟩ := Nat.exists_eq_succ_of_ne_zero (V.deadline_pos k).ne'
  have hlt : d < V.deadline k := by omega
  rw [lt_deadline_iff] at hlt
  have hw := V.weight_le_one
  rw [hd, Nat.succ_eq_add_one, fluid_succ]
  push_cast
  linarith

theorem deadline_strictMono : StrictMono V.deadline := strictMono_nat_of_lt_succ V.deadline_lt_succ

theorem release_lt_succ (k : ℕ) : V.release k < V.release (k + 1) := by
  have h : V.release k + 1 ≤ V.release (k + 1) := by
    have hle := V.le_release_iff.mp (le_refl (V.release k))
    have hw := V.weight_le_one
    rw [le_release_iff, fluid_succ]
    push_cast
    linarith
  exact h

theorem release_strictMono : StrictMono V.release := strictMono_nat_of_lt_succ V.release_lt_succ

theorem start_add_le_deadline (k : ℕ) : V.start + (k + 1) ≤ V.deadline k := by
  induction k with
  | zero =>
    have h0 : V.fluid V.start = 0 := by simp [fluid]
    exact V.lt_deadline_iff.mpr (by rw [h0]; norm_num)
  | succ k ih => exact lt_of_le_of_lt ih (V.deadline_lt_succ k)

theorem overlap_le_one (k : ℕ) : V.overlap k ≤ 1 := by
  have := V.deadline_le_release_succ k
  unfold overlap
  omega

/-- A unit handed out in slot `t` whose successor is already released is in the last slot
    of its window, and the two windows overlap. -/
theorem deadline_eq_of_released (h : V.release (k + 1) ≤ s) (hs : s < V.deadline k) :
    V.deadline k = s + 1 ∧ V.overlap k = 1 := by
  have := V.deadline_le_release_succ k
  unfold overlap
  omega

/-! ### Group deadlines -/

/-- A group deadline is later than `s` when fewer idle slots than unit `k` has left behind
    it fit into the time up to `s`. -/
theorem lt_groupDeadline_iff (hhea : V.period ≤ 2 * V.quanta) (hlt : V.quanta < V.period)
    (hs : V.start ≤ s) : s < V.groupDeadline k ↔
      (1 - V.weight) * ((s : ℚ) - V.start) < (V.deadline k : ℚ) - V.start - (k + 1) := by
  obtain ⟨x, rfl⟩ := Nat.exists_eq_add_of_le hs
  have hidl : 0 < V.period - V.quanta := Nat.sub_pos_of_lt hlt
  have hp : (0 : ℚ) < V.period := Nat.cast_pos.mpr V.period_pos
  have hlat := V.start_add_le_deadline k
  have hco : ((V.deadline k - V.start - (k + 1) : ℕ) : ℚ) =
      (V.deadline k : ℚ) - V.start - (k + 1) := by
    rw [Nat.cast_sub (by omega), Nat.cast_sub (by omega)]
    push_cast
    ring
  rw [groupDeadline, if_pos ⟨hhea, hlt⟩, Nat.add_lt_add_iff_left, ← not_le,
    ceilDiv_le_iff_le_mul hidl, not_le, ← hco, ← Nat.cast_lt (α := ℚ)]
  have hone : (1 - V.weight) * (((V.start + x : ℕ) : ℚ) - V.start) =
      ((V.period - V.quanta) * x : ℕ) / (V.period : ℚ) := by
    have hsum : V.weight * V.period = V.quanta := div_mul_cancel₀ _ hp.ne'
    rw [eq_div_iff hp.ne']
    push_cast [Nat.cast_sub hlt.le]
    linear_combination (-(x : ℚ)) * hsum
  rw [hone, div_lt_iff₀ hp]
  norm_cast

/-- Only overlapping windows of a task that claims more than half of a processor but not
    all of it have a later group deadline. -/
theorem groupDeadline_pos (h : 0 < V.groupDeadline k) :
    V.period ≤ 2 * V.quanta ∧ V.quanta < V.period := by
  unfold groupDeadline at h
  split at h
  · assumption
  exact absurd h (lt_irrefl 0)

/-- A task that is in the last slot of overlapping windows twice in a row claims more than
    half of a processor, but not all of it. -/
theorem heavy (hd : s < V.deadline k) (hn : V.release (k + 1) ≤ s)
    (haf : V.release (k + 2) ≤ s + 1) : V.period ≤ 2 * V.quanta ∧ V.quanta < V.period := by
  have hp : (0 : ℚ) < V.period := Nat.cast_pos.mpr V.period_pos
  have hlt := V.lt_deadline_iff.mp hd
  have hn := V.release_lt_iff.mp (Nat.lt_succ_of_le hn)
  have haf := V.release_lt_iff.mp (Nat.lt_succ_of_le haf)
  rw [Nat.succ_eq_add_one, fluid_succ] at hn haf
  rw [fluid_succ] at haf
  push_cast at hn haf
  constructor
  · have hhal : 1 < 2 * V.weight := by linarith
    have hmul := mul_lt_mul_of_pos_right hhal hp
    have hcan : V.weight * V.period = V.quanta := div_mul_cancel₀ _ hp.ne'
    have hcas : ((V.period : ℕ) : ℚ) < ((2 * V.quanta : ℕ) : ℚ) := by
      push_cast
      linarith
    exact (Nat.cast_lt.mp hcas).le
  -- a whole processor has no overlapping windows
  refine lt_of_le_of_ne V.quanta_le ?_
  intro heq
  have hone : V.weight = 1 := by
    unfold weight
    rw [heq, div_self hp.ne']
  rw [fluid, hone, one_mul] at hlt hn
  have hlow : ((k + V.start : ℕ) : ℚ) < (s : ℚ) := by
    push_cast
    linarith
  have hhig : (s : ℚ) < ((k + V.start + 1 : ℕ) : ℚ) := by
    push_cast
    linarith
  have := Nat.cast_lt.mp hlow
  have := Nat.cast_lt.mp hhig
  omega

/-! ### Where a cascade of short windows ends -/

theorem weight_lt_one (hlt : V.quanta < V.period) : V.weight < 1 :=
  (div_lt_one (Nat.cast_pos.mpr V.period_pos)).mpr (Nat.cast_lt.mpr hlt)

theorem one_le_two_mul_weight (hhea : V.period ≤ 2 * V.quanta) : 1 ≤ 2 * V.weight := by
  have hp : (0 : ℚ) < V.period := Nat.cast_pos.mpr V.period_pos
  have hcas : ((V.period : ℕ) : ℚ) ≤ ((2 * V.quanta : ℕ) : ℚ) := Nat.cast_le.mpr hhea
  have hcan : V.weight * V.period = V.quanta := div_mul_cancel₀ _ hp.ne'
  push_cast at hcas
  refine le_of_mul_le_mul_right ?_ hp
  linarith

theorem deadline_eq_iff :
    V.deadline k = s + 1 ↔ V.fluid s < (k : ℚ) + 1 ∧ (k : ℚ) + 1 ≤ V.fluid (s + 1) := by
  rw [← lt_deadline_iff, ← deadline_le_iff]
  omega

theorem release_eq_iff : V.release k = s ↔ V.fluid s ≤ k ∧ (k : ℚ) < V.fluid (s + 1) := by
  rw [← le_release_iff, ← release_lt_iff]
  omega

theorem overlap_eq_zero_iff : V.overlap k = 0 ↔ V.fluid (V.deadline k) = (k : ℚ) + 1 := by
  have hdon := V.deadline_le_iff.mp (le_refl (V.deadline k))
  rw [overlap, Nat.sub_eq_zero_iff_le, le_release_iff]
  push_cast
  exact ⟨fun h => le_antisymm h hdon, le_of_eq⟩

/-- A cascade of windows of length two ends at time `t` with unit `l`: the next window does not
    overlap this one, or this one is longer and `t` is the slot that a task forced into the last
    slots of its windows leaves free. -/
def EndsCascade (l t : ℕ) : Prop :=
  V.deadline l = t ∧ V.overlap l = 0 ∨ V.deadline l = t + 1 ∧ V.deadline l - V.release l = 3

/-- A cascade ends with unit `l` when the ideal processor, having begun with it before, hands out
    no other unit in the slot up to `t`. -/
theorem endsCascade_iff (hhea : V.period ≤ 2 * V.quanta) (hlt : V.quanta < V.period) :
    V.EndsCascade k (s + 1) ↔ (k : ℚ) < V.fluid s ∧ V.fluid (s + 1) ≤ (k : ℚ) + 1 := by
  have hw := V.weight_lt_one hlt
  have hw' := V.one_le_two_mul_weight hhea
  have hs := V.fluid_succ s
  constructor
  · rintro (⟨hd, ho⟩ | ⟨hd, hlen⟩)
    · rw [overlap_eq_zero_iff, hd] at ho
      constructor <;> linarith
    have hr : V.release k + 1 = s := by omega
    have hlo := (V.release_eq_iff.mp (rfl : V.release k = V.release k)).2
    rw [hr] at hlo
    exact ⟨hlo, (V.deadline_eq_iff.mp hd).1.le⟩
  rintro ⟨hlo, hhig⟩
  rcases eq_or_lt_of_le hhig with heq | hlt'
  · refine .inl ?_
    have hd : V.deadline k = s + 1 := V.deadline_eq_iff.mpr ⟨by linarith, heq.ge⟩
    exact ⟨hd, V.overlap_eq_zero_iff.mpr (by rw [hd, heq])⟩
  refine .inr ?_
  have hd : V.deadline k = s + 2 := V.deadline_eq_iff.mpr ⟨hlt', by rw [fluid_succ]; linarith⟩
  -- a task of at least half a processor has been served for at most two slots
  obtain ⟨r, rfl⟩ : ∃ r, s = r + 1 := by
    refine Nat.exists_eq_succ_of_ne_zero ?_
    rintro rfl
    have h0 := V.fluid_zero_nonpos
    have hk : (0 : ℚ) ≤ k := Nat.cast_nonneg k
    linarith
  have hr : V.release k = r := by
    rw [V.fluid_succ r] at hs
    exact V.release_eq_iff.mpr ⟨by linarith, hlo⟩
  exact ⟨hd, by omega⟩

/-- The group deadline of unit `k` is the first time from its deadline on at which a cascade ends
    with `k` or a later unit. -/
theorem isLeast_groupDeadline (hhe : V.period ≤ 2 * V.quanta) (hlt : V.quanta < V.period) (k : ℕ) :
    IsLeast {t | V.deadline k ≤ t ∧ ∃ l, k ≤ l ∧ V.EndsCascade l t} (V.groupDeadline k) := by
  have hw := V.weight_lt_one hlt
  obtain ⟨d, hd⟩ := Nat.exists_eq_succ_of_ne_zero (V.deadline_pos k).ne'
  rw [Nat.succ_eq_add_one] at hd
  obtain ⟨hbe, hdon⟩ := V.deadline_eq_iff.mp hd
  have hsa : V.start ≤ d := by
    have := V.start_add_le_deadline k
    omega
  -- the group deadline in terms of the ideal allocation
  have hgr : ∀ {s}, V.start ≤ s → (s < V.groupDeadline k ↔ (s : ℚ) - d + k < V.fluid s) := by
    intro s hs
    rw [V.lt_groupDeadline_iff hhe hlt hs, hd]
    simp only [fluid]
    push_cast
    constructor <;> intro h <;> linarith
  constructor
  · have hd' : d < V.groupDeadline k := by
      rw [hgr hsa]
      rw [fluid_succ] at hdon
      linarith
    obtain ⟨g, hg⟩ := Nat.exists_eq_succ_of_ne_zero (Nat.zero_lt_of_lt hd').ne'
    rw [Nat.succ_eq_add_one] at hg
    obtain ⟨x, rfl⟩ : ∃ x, g = d + x := Nat.exists_eq_add_of_le (by omega)
    refine ⟨by omega, k + x, Nat.le_add_right k x, ?_⟩
    rw [hg, V.endsCascade_iff hhe hlt]
    have hla := (hgr (s := d + x) (by omega)).mp (by omega)
    have hend := not_lt.mp ((hgr (s := d + x + 1) (by omega)).not.mp (by omega))
    push_cast at hla hend ⊢
    constructor <;> linarith
  rintro t ⟨ht, l, _, hnd⟩
  obtain ⟨x, rfl⟩ : ∃ x, t = d + x + 1 := ⟨t - (d + 1), by omega⟩
  rw [V.endsCascade_iff hhe hlt] at hnd
  by_contra hlat
  have hope := (hgr (s := d + x + 1) (by omega)).mp (Nat.lt_of_not_le hlat)
  have huni : k + x + 1 ≤ l := by
    have hcas : ((k + x : ℕ) : ℚ) < (l : ℕ) := by
      push_cast at hope ⊢
      linarith [hnd.2]
    exact Nat.cast_lt.mp hcas
  have hunit' : ((k + x + 1 : ℕ) : ℚ) ≤ l := Nat.cast_le.mpr huni
  -- from the deadline on, the task is served for at most `x` of the `x` slots
  have hser := V.fluid_add d x
  have hrat : V.weight * x ≤ 1 * x := mul_le_mul_of_nonneg_right hw.le (Nat.cast_nonneg x)
  push_cast at hunit'
  linarith [hnd.1]

/-! ### The ideal allocation of one unit -/

/-- The part of unit `k` that the ideal processor has handed out by time `s`. -/
def served (k s : ℕ) : ℚ := max 0 (min 1 (V.fluid s - k))

theorem served_nonneg (k s : ℕ) : 0 ≤ V.served k s := le_max_left _ _

theorem served_mono (k s : ℕ) : V.served k s ≤ V.served k (s + 1) := by
  have h : V.fluid s ≤ V.fluid (s + 1) := by
    rw [fluid_succ]
    linarith [V.weight_pos]
  exact max_le_max (le_refl 0) (min_le_min (le_refl 1) (by linarith))

theorem served_eq_zero (h : s ≤ V.release k) : V.served k s = 0 := by
  have hle : V.fluid s - k ≤ 0 := sub_nonpos.mpr (V.le_release_iff.mp h)
  exact max_eq_left (le_trans (min_le_right _ _) hle)

theorem served_eq_one (h : V.deadline k ≤ s) : V.served k s = 1 := by
  have hle : 1 ≤ V.fluid s - k := by linarith [V.deadline_le_iff.mp h]
  rw [served, min_eq_left hle, max_eq_right zero_le_one]

theorem served_le_fluid (h : V.release k ≤ s) : V.served k (s + 1) ≤ V.fluid (s + 1) - k := by
  have hpos := V.release_lt_iff.mp (Nat.lt_succ_of_le h)
  exact max_le (by linarith) (min_le_right _ _)

theorem fluid_le_served (h : s < V.deadline k) : V.fluid s - k ≤ V.served k s := by
  have hlt : V.fluid s - k ≤ 1 := by linarith [V.lt_deadline_iff.mp h]
  exact le_max_of_le_right (le_min hlt (le_refl _))

/-- All units together are served at the rate of the task. -/
theorem sum_served (n s : ℕ) :
    ∑ k ∈ Finset.range n, V.served k s = max 0 (min (n : ℚ) (V.fluid s)) := by
  induction n with
  | zero => simp
  | succ n ih =>
    rw [Finset.sum_range_succ, ih, served]
    push_cast
    have hn : (0 : ℚ) ≤ n := Nat.cast_nonneg n
    -- the fluid allocation lies below unit `n`, inside it or above it
    rcases le_total (V.fluid s) n with h | h
    · rw [min_eq_right h, min_eq_right (by linarith : V.fluid s - n ≤ 1),
        max_eq_left (by linarith : V.fluid s - n ≤ 0), min_eq_right (by linarith), add_zero]
    rw [min_eq_left h, max_eq_right hn]
    rcases le_total (V.fluid s - n) 1 with h' | h'
    · rw [min_eq_right h', max_eq_right (by linarith), min_eq_right (by linarith),
        max_eq_right (by linarith)]
      ring
    rw [min_eq_left h', max_eq_right zero_le_one, min_eq_left (by linarith),
      max_eq_right (by linarith)]

/-- What the ideal processor adds to the units of `K` in slot `s`. -/
def inflow (K : Finset ℕ) (s : ℕ) : ℚ := ∑ k ∈ K, (V.served k (s + 1) - V.served k s)

theorem inflow_le_weight (K : Finset ℕ) (s : ℕ) : V.inflow K s ≤ V.weight := by
  obtain ⟨n, hn⟩ := K.exists_nat_subset_range
  have hall : V.inflow K s ≤ V.inflow (Finset.range n) s := by
    apply Finset.sum_le_sum_of_subset_of_nonneg hn
    intro k _ _
    exact sub_nonneg.mpr (V.served_mono k s)
  refine hall.trans ?_
  rw [inflow, Finset.sum_sub_distrib, sum_served, sum_served, fluid_succ]
  have hw := V.weight_pos
  rcases le_total (n : ℚ) (V.fluid s) with h | h
  · rw [min_eq_left h, min_eq_left (by linarith)]
    linarith
  rw [min_eq_right h]
  have hmin : min (n : ℚ) (V.fluid s + V.weight) ≤ V.fluid s + V.weight := min_le_right _ _
  have hmax : max 0 (min (n : ℚ) (V.fluid s + V.weight)) ≤ max 0 (V.fluid s) + V.weight := by
    apply max_le
    · linarith [le_max_left 0 (V.fluid s)]
    linarith [le_max_right 0 (V.fluid s)]
  linarith

end Share

end Litmus.ProportionateFair
