import Litmus.FairSchedule
import Mathlib.Algebra.BigOperators.Ring.Finset

/-!
# The lag of the units to blame

The blamed units are compared with the ideal processor: their lag at a time is what the
ideal processor has handed out of them beyond what the schedule has.  It starts at zero,
a slot with `m` blamed units does not raise it, and neither does a run of holes together
with the slot after it.  At the missed deadline it would be one.
-/

namespace Litmus.ProportionateFair

open Finset Finset

section Lag

variable {ι : Type*} [DecidableEq ι] {share : ι → Share} {S : Finset ι} {m H : ℕ}
  {sched : ℕ → Finset ι} {t : ℕ} {z i : ι} {k x y : ℕ}

open Classical in
/-- The blamed units of task `i`, all of which are due by time `t`. -/
noncomputable def blamedUnits (share : ι → Share) (sched : ℕ → Finset ι) (t : ℕ) (z i : ι) :
    Finset ℕ :=
  (range t).filter (Blamed share sched t z i)

/-- How far the blamed units of task `i` are behind the ideal processor at time `s`. -/
noncomputable def lagOf (share : ι → Share) (sched : ℕ → Finset ι) (t : ℕ) (z i : ι) (s : ℕ) : ℚ :=
  ∑ k ∈ blamedUnits share sched t z i,
    ((share i).served k s - if k < received sched i s then 1 else 0)

variable (hg : Greedy share S m H sched) (ht : t ≤ H) (hmiss : FirstMiss share S sched t z)
include hg ht hmiss

theorem mem_blamedUnits : k ∈ blamedUnits share sched t z i ↔ Blamed share sched t z i k := by
  classical
  rw [blamedUnits, mem_filter, mem_range]
  constructor
  · exact And.right
  intro h
  have hd := h.deadline_le hg ht hmiss
  have hk := (share i).start_add_le_deadline k
  exact ⟨by omega, h⟩

open Classical in
/-- One slot: the ideal processor serves the units continuously, the schedule serves one. -/
theorem lagOf_succ (i : ι) (s : ℕ) : lagOf share sched t z i (s + 1) = lagOf share sched t z i s +
      (share i).inflow (blamedUnits share sched t z i) s -
        if Active share sched t z i s then 1 else 0 := by
  have hco : ∀ k, (if k < received sched i (s + 1) then (1 : ℚ) else 0) =
      (if k < received sched i s then 1 else 0) +
        if received sched i s = k then (if i ∈ sched s then 1 else 0) else 0 := by
    intro k
    rw [received_succ]
    by_cases hi : i ∈ sched s
    · rw [if_pos hi, if_pos hi]
      rcases Nat.lt_trichotomy k (received sched i s) with h | h | h
      · rw [if_pos (by omega), if_pos h, if_neg (by omega), add_zero]
      · rw [if_pos (by omega), if_neg (by omega), if_pos h.symm, zero_add]
      rw [if_neg (by omega), if_neg (by omega), if_neg (by omega), add_zero]
    rw [if_neg hi, if_neg hi, ite_self, add_zero, add_zero]
  have hact : ∑ k ∈ blamedUnits share sched t z i,
      (if received sched i s = k then (if i ∈ sched s then (1 : ℚ) else 0) else 0) =
        if Active share sched t z i s then 1 else 0 := by
    rw [sum_ite_eq]
    unfold Active
    by_cases hi : i ∈ sched s <;> by_cases hb : Blamed share sched t z i (received sched i s) <;>
        simp [mem_blamedUnits hg ht hmiss, hi, hb]
  rw [← hact, lagOf, lagOf, Share.inflow, ← sum_add_distrib, ← sum_sub_distrib]
  apply sum_congr rfl
  intro k _
  rw [hco]
  ring

section

variable (hhole : Hole share sched m t z x) (hx : x < t)

include hhole hx

/-- After a hole only the successors of its blamed units are partly served. -/
theorem Hole.lagOf_eq (hi : ¬Active share sched t z i x) : lagOf share sched t z i (x + 1) = 0 := by
  apply sum_eq_zero
  intro k hk
  have hb := (mem_blamedUnits hg ht hmiss).mp hk
  rcases lt_or_ge k (received sched i (x + 1)) with hlt | hge
  · rw [if_pos hlt, (share i).served_eq_one (hhole.deadline_le hg ht hmiss hx hb hlt), sub_self]
  rcases hhole.le_release hg ht hmiss hx hb hge with hrel | ⟨hact, _⟩
  · rw [if_neg (not_lt.mpr hge), (share i).served_eq_zero hrel, sub_zero]
  exact absurd hact hi

theorem Hole.lagOf_active (hi : Active share sched t z i x) :
    lagOf share sched t z i (x + 1) = (share i).served (received sched i x + 1) (x + 1) := by
  have hn := (hhole.last hg ht hmiss hx hi).1
  have hrec := received_succ_of_mem hi.1
  rw [lagOf, sum_eq_single_of_mem _ ((mem_blamedUnits hg ht hmiss).mpr hn),
    if_neg (by omega), sub_zero]
  intro k hk hne
  have hb := (mem_blamedUnits hg ht hmiss).mp hk
  rcases lt_or_ge k (received sched i (x + 1)) with hlt | hge
  · rw [if_pos hlt, (share i).served_eq_one (hhole.deadline_le hg ht hmiss hx hb hlt), sub_self]
  rcases hhole.le_release hg ht hmiss hx hb hge with hrel | ⟨_, heq⟩
  · rw [if_neg (not_lt.mpr hge), (share i).served_eq_zero hrel, sub_zero]
  exact absurd heq hne

/-- The lag at the beginning of a run of holes, for a task that is active in it. -/
theorem Hole.le_lagOf_active (hi : Active share sched t z i x) :
    (share i).served (received sched i x) x ≤ lagOf share sched t z i x := by
  have hd := (hhole.last hg ht hmiss hx hi).2.2.1
  have hter : ∀ k ∈ blamedUnits share sched t z i,
      (0 : ℚ) ≤ (share i).served k x - if k < received sched i x then 1 else 0 := by
    intro k _
    rcases lt_or_ge k (received sched i x) with hlt | hge
    · have hdk := (share i).deadline_strictMono hlt
      rw [if_pos hlt, (share i).served_eq_one (by omega), sub_self]
    rw [if_neg (not_lt.mpr hge), sub_zero]
    exact (share i).served_nonneg k x
  have hsi := single_le_sum hter ((mem_blamedUnits hg ht hmiss).mpr hi.2)
  rw [if_neg (lt_irrefl _), sub_zero] at hsi
  exact hsi

/-- The lag at the beginning of a run of holes: only a unit whose window ends with the first
    of them has been handed out ahead of the ideal processor. -/
theorem Hole.le_lagOf :
    0 ≤ lagOf share sched t z i x ∨ ∃ j, Blamed share sched t z i j ∧ j < received sched i x ∧
        (share i).deadline j = x + 1 ∧ (share i).fluid x - (j + 1) ≤ lagOf share sched t z i x := by
  by_cases hj : ∃ j, Blamed share sched t z i j ∧ j < received sched i x ∧ x < (share i).deadline j
  · obtain ⟨j, hb, hlt, hd⟩ := hj
    have hre : ∀ k, Blamed share sched t z i k → k < received sched i x →
        x < (share i).deadline k → (share i).deadline k = x + 1 := by
      intro k hbk hlk hdk
      obtain ⟨s, hs, his, rfl⟩ := hbk.slot_of_lt hx.le hlk
      exact (hhole.reaching hg ht hmiss hx his hs hbk hdk).1
    have hdj := hre j hb hlt hd
    refine .inr ⟨j, hb, hlt, hdj, ?_⟩
    have hm := (mem_blamedUnits hg ht hmiss).mpr hb
    have hres : (0 : ℚ) ≤ ∑ k ∈ (blamedUnits share sched t z i).erase j,
        ((share i).served k x - if k < received sched i x then 1 else 0) := by
      apply sum_nonneg
      intro k hk
      obtain ⟨hne, hk⟩ := mem_erase.mp hk
      rcases lt_or_ge k (received sched i x) with hlk | hge
      · rcases lt_or_ge x ((share i).deadline k) with hdk | hdk
        · have heq := hre k ((mem_blamedUnits hg ht hmiss).mp hk) hlk hdk
          exact absurd ((share i).deadline_strictMono.injective (heq.trans hdj.symm)) hne
        rw [if_pos hlk, (share i).served_eq_one hdk, sub_self]
      rw [if_neg (not_lt.mpr hge), sub_zero]
      exact (share i).served_nonneg k x
    have hser := (share i).fluid_le_served hd
    rw [lagOf, ← add_sum_erase _ _ hm, if_pos hlt]
    linarith
  push Not at hj
  refine .inl (sum_nonneg fun k hk => ?_)
  rcases lt_or_ge k (received sched i x) with hlt | hge
  · rw [if_pos hlt, (share i).served_eq_one (hj k ((mem_blamedUnits hg ht hmiss).mp hk) hlt),
      sub_self]
  rw [if_neg (not_lt.mpr hge), sub_zero]
  exact (share i).served_nonneg k x

end

/-! ### Runs of holes -/

/-- In a run of holes from `x` to `y` the active tasks receive a unit in every slot. -/
theorem active_run (hxy : x ≤ y) (hho : ∀ s, x ≤ s → s ≤ y → Hole share sched m t z s)
    (hy : y < t) : (Active share sched t z i x ↔ Active share sched t z i y) ∧
      (Active share sched t z i x → received sched i y = received sched i x + (y - x)) := by
  induction y, hxy using Nat.le_induction with
  | base => exact ⟨.rfl, fun _ => by omega⟩
  | succ y hxy ih =>
    obtain ⟨hif, hco⟩ := ih (fun s hxs hs => hho s hxs (by omega)) (by omega)
    have hste := (hho y hxy (by omega)).active_succ (i := i) hg ht hmiss
      (hho (y + 1) (by omega) (le_refl _)) hy
    refine ⟨hif.trans hste, fun h => ?_⟩
    have hrec := received_succ_of_mem (hif.mp h).1
    have := hco h
    omega

/-- The group deadline of a unit that is active in a run of holes lies beyond the run, if
    the run is longer than one slot. -/
theorem lt_groupDeadline_of_run (hxy : x < y)
    (hho : ∀ s, x ≤ s → s ≤ y → Hole share sched m t z s) (hy : y < t)
    (hi : Active share sched t z i x) : y + 1 < (share i).groupDeadline (received sched i x) := by
  have hhole := hho x (le_refl _) hxy.le
  obtain ⟨_, hre, hd, _⟩ := hhole.last hg ht hmiss (by omega) hi
  have hsu := (hho (x + 1) (by omega) hxy)
  have hact := (hhole.active_succ hg ht hmiss hsu (by omega)).mp hi
  have hrel' := (hsu.last hg ht hmiss (by omega) hact).2.1
  rw [received_succ_of_mem hi.1] at hrel'
  obtain ⟨hhea, hlt⟩ := (share i).heavy (by omega) hre hrel'
  have hsa : (share i).start ≤ x := (Nat.le_add_right _ _).trans hre
  rw [(share i).lt_groupDeadline_iff hhea hlt (by omega), hd]
  -- the unit handed out at the end of the run has a released successor
  obtain ⟨hiff, hco⟩ := active_run (i := i) hg ht hmiss hxy.le hho hy
  have hend := ((hho y hxy.le (le_refl _)).last hg ht hmiss hy (hiff.mp hi)).2.1
  have hfl := (share i).release_lt_iff.mp (Nat.lt_succ_of_le hend)
  rw [hco hi, Share.fluid] at hfl
  push_cast [Nat.cast_sub hxy.le] at hfl ⊢
  linarith

/-- A unit that was handed out ahead of a run of holes is followed, right after the run, by
    a unit with a much higher index. -/
theorem index_gap {j q : ℕ} (hxy : x ≤ y) (hho : ∀ s, x ≤ s → s ≤ y → Hole share sched m t z s)
    (hy : y < t) (hb : Blamed share sched t z i j) (hj : j < received sched i x)
    (hd : (share i).deadline j = x + 1) (hq : (share i).release q = y + 1) :
    j + 1 + (y + 1 - x) ≤ q := by
  have hhole := hho x (le_refl _) hxy
  obtain ⟨s, hs, his, rfl⟩ := hb.slot_of_lt (by omega) hj
  obtain ⟨_, ho, w, hw, hD⟩ := hhole.reaching hg ht hmiss (by omega) his hs hb (by omega)
  rcases Nat.lt_or_eq_of_le hxy with hlt | rfl
  · have hla := (lt_groupDeadline_of_run hg ht hmiss hlt hho hy hw).trans_le hD
    obtain ⟨hhea, hq1⟩ := (share i).groupDeadline_pos (Nat.zero_lt_of_lt hla)
    have hsa : (share i).start ≤ x := by
      have := (share i).start_add_le_deadline (received sched i s)
      omega
    rw [(share i).lt_groupDeadline_iff hhea hq1 (by omega), hd] at hla
    have hfl := (share i).le_release_iff.mp hq.ge
    rw [Share.fluid] at hfl
    push_cast at hla hfl
    have hcas : ((received sched i s + (y + 1 - x) : ℕ) : ℚ) < (q : ℚ) := by
      push_cast [Nat.cast_sub (show x ≤ y + 1 by omega)]
      linarith
    have := Nat.cast_lt.mp hcas
    omega
  -- one hole: the next unit is released in it, so the one after it is not the next
  have hn : (share i).release (received sched i s + 1) < (share i).release q := by
    unfold Share.overlap at ho
    omega
  have := (share i).release_strictMono.lt_iff_lt.mp hn
  omega

/-- What the ideal processor serves right after a run of holes, for a task that is not
    active in the run: one unit at most, which is released at that moment. -/
theorem Hole.inflow_le (hhole : Hole share sched m t z y) (hy : y < t)
    (hi : ¬Active share sched t z i y) :
    (share i).inflow (blamedUnits share sched t z i) (y + 1) ≤ 0 ∨
      ∃ q, (share i).release q = y + 1 ∧
        (share i).inflow (blamedUnits share sched t z i) (y + 1) ≤ (share i).fluid (y + 2) - q := by
  have ho : ∀ k ∈ blamedUnits share sched t z i, (share i).release k ≠ y + 1 →
      (share i).served k (y + 2) - (share i).served k (y + 1) = 0 := by
    intro k hk hne
    have hb := (mem_blamedUnits hg ht hmiss).mp hk
    rcases lt_or_ge k (received sched i (y + 1)) with hlt | hge
    · have hd := hhole.deadline_le hg ht hmiss hy hb hlt
      rw [(share i).served_eq_one hd, (share i).served_eq_one (by omega), sub_self]
    rcases hhole.le_release hg ht hmiss hy hb hge with hre | ⟨hact, _⟩
    · rw [(share i).served_eq_zero (by omega), (share i).served_eq_zero (by omega), sub_self]
    exact absurd hact hi
  by_cases hq : ∃ q ∈ blamedUnits share sched t z i, (share i).release q = y + 1
  · obtain ⟨q, hm, hre⟩ := hq
    refine .inr ⟨q, hre, ?_⟩
    rw [Share.inflow, sum_eq_single_of_mem q hm, (share i).served_eq_zero hre.ge, sub_zero]
    · exact (share i).served_le_fluid hre.le
    intro k hk hne
    apply ho k hk
    intro heq
    exact hne ((share i).release_strictMono.injective (heq.trans hre.symm))
  push Not at hq
  exact .inl (sum_eq_zero fun k hk => ho k hk (hq k hk)).le

/-- From the beginning of a run of holes to the slot after it, a task gains at most its
    weight. -/
theorem lagOf_block (hxy : x ≤ y) (hho : ∀ s, x ≤ s → s < y → Hole share sched m t z s)
    (hy : y < t) (i : ι) :
    lagOf share sched t z i y + (share i).inflow (blamedUnits share sched t z i) y ≤
      lagOf share sched t z i x + (share i).weight := by
  have hinf := (share i).inflow_le_weight (blamedUnits share sched t z i) y
  rcases Nat.lt_or_eq_of_le hxy with hlt | rfl
  · obtain ⟨e, rfl⟩ : ∃ e, y = e + 1 := ⟨y - 1, by omega⟩
    have hho : ∀ s, x ≤ s → s ≤ e → Hole share sched m t z s :=
      fun s hxs hs => hho s hxs (Nat.lt_succ_of_le hs)
    have hxe : x ≤ e := Nat.le_of_lt_succ hlt
    have hfi := hho x (le_refl _) hxe
    have hla := hho e hxe (le_refl _)
    obtain ⟨hif, hco⟩ := active_run (i := i) hg ht hmiss hxe hho (by omega)
    by_cases hi : Active share sched t z i x
    · -- one unit per slot of the run, while the ideal processor serves less than that
      have hre := (hla.last hg ht hmiss (by omega) (hif.mp hi)).2.1
      have hen := (share i).served_le_fluid hre
      have hbeg := hfi.le_lagOf_active hg ht hmiss (by omega) hi
      have hd := (hfi.last hg ht hmiss (by omega) hi).2.2.1
      have hflu := (share i).fluid_le_served (show x < _ by omega : x < (share i).deadline (received sched i x))
      have hsu := (share i).fluid_add x (e + 1 - x)
      have hw := (share i).weight_le_one
      have hln : (0 : ℚ) ≤ (e + 1 - x : ℕ) := Nat.cast_nonneg _
      have hmu := mul_le_mul_of_nonneg_right hw hln
      rw [hla.lagOf_active hg ht hmiss (by omega) (hif.mp hi)]
      rw [show x + (e + 1 - x) = e + 1 by omega] at hsu
      rw [hco hi] at hen ⊢
      push_cast [Nat.cast_sub hxe, Nat.cast_sub hxy] at hen hsu hmu ⊢
      linarith
    have hn : ¬Active share sched t z i e := fun h => hi (hif.mpr h)
    rw [hla.lagOf_eq hg ht hmiss (by omega) hn, zero_add]
    rcases hfi.le_lagOf (i := i) hg ht hmiss (by omega) with hlag | ⟨j, hb, hj, hd, hlag⟩
    · linarith
    have hdon := (share i).deadline_le_iff.mp hd.le
    rw [Share.fluid_succ] at hdon
    rcases hla.inflow_le hg ht hmiss (by omega) hn with h0 | ⟨q, hre, hle⟩
    · linarith
    -- the next unit begins late enough to make up for the one handed out ahead
    have hgap := index_gap hg ht hmiss hxe hho (by omega) hb hj hd hre
    have hsu := (share i).fluid_add x (e + 2 - x)
    have hw := (share i).weight_le_one
    have hln : (0 : ℚ) ≤ (e + 1 - x : ℕ) := Nat.cast_nonneg _
    have hmu := mul_le_mul_of_nonneg_right hw hln
    have hcas : ((j + 1 + (e + 1 - x) : ℕ) : ℚ) ≤ (q : ℚ) := Nat.cast_le.mpr hgap
    rw [show x + (e + 2 - x) = e + 2 by omega] at hsu
    push_cast [Nat.cast_sub hxy, Nat.cast_sub (show x ≤ e + 2 by omega)] at hsu hmu hcas
    linarith
  linarith

/-! ### No deadline is missed -/

/-- The lag of all blamed units. -/
noncomputable def lag (share : ι → Share) (S : Finset ι) (sched : ℕ → Finset ι) (t : ℕ) (z : ι)
    (s : ℕ) : ℚ :=
  ∑ i ∈ S, lagOf share sched t z i s

open Classical in
/-- A run of holes and the slot after it do not raise the lag. -/
theorem lag_block (hwei : ∑ i ∈ S, (share i).weight ≤ m) (hxy : x ≤ y)
    (hhol : ∀ s, x ≤ s → s < y → Hole share sched m t z s) (hful : ¬Hole share sched m t z y)
    (hy : y < t) : lag share S sched t z (y + 1) ≤ lag share S sched t z x := by
  have hser : (m : ℚ) ≤ ∑ i ∈ S, if Active share sched t z i y then 1 else 0 := by
    rw [sum_boole]
    refine Nat.cast_le.mpr ((Nat.le_of_not_lt hful).trans (card_le_card ?_))
    intro i hi
    obtain ⟨hi, hb⟩ := mem_filter.mp hi
    exact mem_filter.mpr ⟨hg.sub y (hy.trans_le ht) hi, hi, hb⟩
  calc lag share S sched t z (y + 1) = ∑ i ∈ S, (lagOf share sched t z i y +
          (share i).inflow (blamedUnits share sched t z i) y -
            if Active share sched t z i y then 1 else 0) :=
        sum_congr rfl fun i _ => lagOf_succ hg ht hmiss i y
    _ ≤ ∑ i ∈ S, (lagOf share sched t z i x + (share i).weight -
            if Active share sched t z i y then 1 else 0) :=
        sum_le_sum fun i _ =>
          sub_le_sub_right (lagOf_block hg ht hmiss hxy hhol hy i) _
    _ = lag share S sched t z x + ∑ i ∈ S, (share i).weight -
          ∑ i ∈ S, (if Active share sched t z i y then 1 else 0) := by
        rw [sum_sub_distrib, sum_add_distrib, lag]
    _ ≤ lag share S sched t z x := by linarith

omit hg ht hmiss in
/-- The beginning of the run of holes before slot `y`. -/
theorem exists_run_start (share : ι → Share) (sched : ℕ → Finset ι) (m t : ℕ) (z : ι) (y : ℕ) :
    ∃ x ≤ y, (∀ s, x ≤ s → s < y → Hole share sched m t z s) ∧
      ∀ s, x = s + 1 → ¬Hole share sched m t z s := by
  induction y with
  | zero => exact ⟨0, le_refl _, fun s _ hs => absurd hs (Nat.not_lt_zero s), fun s hs => by omega⟩
  | succ y ih =>
    by_cases hhole : Hole share sched m t z y
    · obtain ⟨x, hxy, hhol, hsa⟩ := ih
      refine ⟨x, by omega, ?_, hsa⟩
      intro s hxs hs
      rcases Nat.lt_or_eq_of_le (Nat.le_of_lt_succ hs) with hlt | rfl
      · exact hhol s hxs hlt
      exact hhole
    refine ⟨y + 1, le_refl _, fun s hxs hs => by omega, ?_⟩
    intro s hs
    obtain rfl : y = s := by omega
    exact hhole

omit hg ht hmiss in
theorem lag_zero : lag share S sched t z 0 = 0 := by
  refine sum_eq_zero fun i _ => sum_eq_zero fun k _ => ?_
  rw [(share i).served_eq_zero (Nat.zero_le _), if_neg (by simp [received]), sub_zero]

/-- The lag is not positive at the end of a slot that is not a hole. -/
theorem lag_nonpos (hwei : ∑ i ∈ S, (share i).weight ≤ m) (hx : x ≤ t)
    (hful : ∀ s, x = s + 1 → ¬Hole share sched m t z s) : lag share S sched t z x ≤ 0 := by
  induction x using Nat.strong_induction_on with
  | _ x ih =>
    rcases Nat.eq_zero_or_pos x with rfl | hpos
    · exact lag_zero.le
    obtain ⟨y, rfl⟩ : ∃ y, x = y + 1 := ⟨x - 1, by omega⟩
    obtain ⟨x, hxy, hhol, hsa⟩ := exists_run_start share sched m t z y
    exact (lag_block hg ht hmiss hwei hxy hhol (hful y rfl) hx).trans
      (ih x (by omega) (by omega) hsa)

/-- The slot before the missed deadline is not a hole: the late unit could have been handed
    out in it. -/
theorem not_hole_before_miss (hx : x + 1 = t) : ¬Hole share sched m t z x := by
  intro hhole
  have hlt : x < t := by omega
  have hrel : (share z).release (received sched z t) ≤ x := by
    have := (share z).release_lt_succ (received sched z t)
    have := (share z).release_le_deadline (received sched z t)
    have := hmiss.missed
    omega
  have hb : Blamed share sched t z z (received sched z t) := .miss
  rcases hhole.le_release hg ht hmiss hlt hb (by rw [hx]) with h | ⟨hact, heq⟩
  · omega
  have hd := (hhole.last hg ht hmiss hlt hact).2.2.1
  have := (share z).deadline_lt_succ (received sched z x)
  have := hmiss.missed
  rw [heq] at this
  omega

/-- At the missed deadline the late unit has been served by the ideal processor only. -/
theorem one_le_lag : 1 ≤ lag share S sched t z t := by
  have hte : ∀ i, ∀ k ∈ blamedUnits share sched t z i,
      (0 : ℚ) ≤ (share i).served k t - if k < received sched i t then 1 else 0 := by
    intro i k hk
    have hd := ((mem_blamedUnits hg ht hmiss).mp hk).deadline_le hg ht hmiss
    rw [(share i).served_eq_one hd]
    split <;> norm_num
  have hz : (1 : ℚ) ≤ lagOf share sched t z z t := by
    have hm := (mem_blamedUnits hg ht hmiss).mpr .miss
    have hsi := single_le_sum (hte z) hm
    rw [(share z).served_eq_one hmiss.missed, if_neg (lt_irrefl _), sub_zero] at hsi
    exact hsi
  have hsum := single_le_sum (f := fun i => lagOf share sched t z i t)
      (fun i _ => sum_nonneg (hte i)) hmiss.mem
  exact hz.trans hsum

theorem FirstMiss.overload : (m : ℚ) < ∑ i ∈ S, (share i).weight := by
  by_contra hle
  have hlag := lag_nonpos hg ht hmiss (le_of_not_gt hle) (le_refl t)
    fun s hs => not_hole_before_miss hg ht hmiss hs.symm
  linarith [one_le_lag hg ht hmiss]

end Lag

/-- Under the PD² rule every unit is handed out by its deadline, if the weights fit. -/
theorem Greedy.on_time {ι : Type*} [DecidableEq ι] {share : ι → Share} {S : Finset ι} {m H : ℕ}
    {sched : ℕ → Finset ι} (hg : Greedy share S m H sched) (hwei : ∑ i ∈ S, (share i).weight ≤ m)
    {s : ℕ} (hs : s ≤ H) {i : ι} (hi : i ∈ S) {k : ℕ} (hd : (share i).deadline k ≤ s) :
    k < received sched i s := by
  induction s using Nat.strong_induction_on generalizing i k with
  | _ s ih =>
    by_contra hlat
    have hmiss : FirstMiss share S sched s i :=
      { mem := hi
        missed := ((share i).deadline_strictMono.monotone (Nat.le_of_not_lt hlat)).trans hd
        before := fun x hx u hu l hl => ih x hx (hx.le.trans hs) hu hl }
    exact absurd hwei (not_le.mpr (hmiss.overload hg hs))

/-- A unit is handed out in its window. -/
theorem Greedy.in_window {ι : Type*} [DecidableEq ι] {share : ι → Share} {S : Finset ι} {m H : ℕ}
    {sched : ℕ → Finset ι} (hg : Greedy share S m H sched) (hwei : ∑ i ∈ S, (share i).weight ≤ m)
    {s : ℕ} (hs : s < H) {i : ι} (hi : i ∈ sched s) :
    (share i).release (received sched i s) ≤ s ∧ s < (share i).deadline (received sched i s) := by
  refine ⟨hg.released s hs i hi, ?_⟩
  by_contra hle
  exact absurd (hg.on_time hwei hs.le (hg.sub s hs hi) (Nat.le_of_not_lt hle)) (lt_irrefl _)

end Litmus.ProportionateFair
