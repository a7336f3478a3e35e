import Mathlib.Algebra.BigOperators.Group.List.Basic
import Litmus.Runs
import Litmus.SlicedTask

/-!
# Slice bookkeeping

What the plugins write over a job always belongs to its current slice, and what they
cached is the job they have to restore.  This holds for one task from its first release
by the plugin on, however it executes, changes slices, blocks and wakes up.
-/

namespace Litmus.SemiPart

namespace SlicedTask

/-! ### Budgets -/

variable {slices : List Slice} {n : Nat} {pl : Plugin} {queued signaled : Bool} {t t' : SlicedTask}

theorem sum_take_succ {β : Type} [AddMonoid β] (f : Slice → β) (h : n < slices.length) :
    ((slices.take (n + 1)).map f).sum =
      ((slices.take n).map f).sum + f (slices.getD n default) := by
  have hget : slices[n]? = some (slices.getD n default) := by
    rw [List.getD_eq_getElem?_getD, List.getElem?_eq_getElem h]
    rfl
  rw [List.take_add_one, hget, List.map_append, List.sum_append]
  simp

theorem budgetsUpTo_succ (h : n < slices.length) :
    budgetsUpTo slices (n + 1) = budgetsUpTo slices n + (slices.getD n default).budget :=
  sum_take_succ Slice.budget h

/-- The budgets of the first `n` slices, added without wrapping. -/
def budgetOf (slices : List Slice) (n : Nat) : Nat :=
  ((slices.take n).map fun s => s.budget.toNat).sum

theorem budgetOf_succ (h : n < slices.length) :
    budgetOf slices (n + 1) = budgetOf slices n + (slices.getD n default).budget.toNat :=
  sum_take_succ (fun s => s.budget.toNat) h

theorem budgetOf_le_length (slices : List Slice) (n : Nat) :
    budgetOf slices n ≤ budgetOf slices slices.length := by
  have hsp : (slices.map fun s => s.budget.toNat).sum =
      budgetOf slices n + ((slices.drop n).map fun s => s.budget.toNat).sum := by
    rw [budgetOf, ← List.sum_append, ← List.map_append, List.take_append_drop]
  have hall : budgetOf slices slices.length = (slices.map fun s => s.budget.toNat).sum := by
    rw [budgetOf, List.take_length]
  omega

/-- While all budgets together fit into 64 bits, the code's sums are the true ones. -/
theorem toNat_budgetsUpTo (h : budgetOf slices slices.length < 2 ^ 64) (hn : n ≤ slices.length) :
    (budgetsUpTo slices n).toNat = budgetOf slices n := by
  induction n with
  | zero => rfl
  | succ n ih =>
    have hle := budgetOf_le_length slices (n + 1)
    rw [budgetOf_succ hn] at hle ⊢
    rw [budgetsUpTo_succ hn, BitVec.toNat_add, ih (by omega)]
    apply Nat.mod_eq_of_lt
    omega

/-! ### Advancing -/

theorem advanceNextSlice_cases (hidx : t.semi.slice < t.slices.length)
    (h : t.advanceNextSlice pl queued signaled = some t') :
    t.nextSlice pl signaled = 0 ∧ t' = ((t.setSlice 0).startJob pl).computeSliceParams pl ∨
      t.nextSlice pl signaled = t.semi.slice + 1 ∧ t.semi.slice + 1 < t.slices.length ∧
        t' = (t.setSlice (t.semi.slice + 1)).computeSliceParams pl := by
  unfold advanceNextSlice at h
  split at h
  · cases h
  simp only [Option.some.injEq] at h
  by_cases h0 : t.nextSlice pl signaled = 0
  · rw [h0, if_pos rfl] at h
    exact .inl ⟨h0, h.symm⟩
  rw [if_neg h0] at h
  have hn : t.nextSlice pl signaled = (t.semi.slice + 1) % t.slices.length := by
    unfold nextSlice at h0 ⊢
    split
    · rename_i hdon
      exact absurd (if_pos hdon) h0
    rfl
  have hlt : t.semi.slice + 1 < t.slices.length := by
    by_contra hge
    have heq : t.semi.slice + 1 = t.slices.length := by omega
    apply h0
    rw [hn, heq, Nat.mod_self]
  rw [Nat.mod_eq_of_lt hlt] at hn
  rw [hn] at h
  exact .inr ⟨hn, hlt, h.symm⟩

theorem length_pos_of_sliced (h : t.isSlicedTask = true) : 0 < t.slices.length := by
  simpa [isSlicedTask, List.length_pos_iff] using h

theorem isSlicedTask_of_advance (h : t.advanceNextSlice pl queued signaled = some t') :
    t.isSlicedTask = true := by
  unfold advanceNextSlice at h
  split at h
  · cases h
  rename_i hbu
  simp only [Bool.or_eq_true, Bool.not_eq_true', not_or, Bool.not_eq_false] at hbu
  exact hbu.1

theorem releaseAt_wraps {start : LtTime} (hsl : t.isSlicedTask = true)
    (h : t.releaseAt pl queued start = some t') :
    ∃ u : SlicedTask, u.slices = t.slices ∧ u.semi.slice = 0 ∧
      t' = ((u.startJob pl).computeSliceParams pl).modify (RtTask.setRtFlags .running) := by
  have hpos := length_pos_of_sliced hsl
  unfold releaseAt at h
  rw [if_pos hsl] at h
  obtain ⟨u, hu, rfl⟩ := Option.map_eq_some_iff.mp h
  rcases advanceNextSlice_cases (Nat.sub_lt hpos one_pos) hu with ⟨_, rfl⟩ | ⟨_, hlt, _⟩
  · refine ⟨_, ?_, ?_, rfl⟩ <;> rfl
  have hla : t.slices.length - 1 + 1 < t.slices.length := hlt
  omega

theorem execTime_advance_le (h : t.advanceNextSlice pl queued signaled = some t') :
    t'.job.execTime.toNat ≤ t.job.execTime.toNat := by
  unfold advanceNextSlice at h
  split at h
  · cases h
  cases h
  split
  · cases pl <;> exact Nat.zero_le _
  cases pl <;> exact le_refl _

/-! ### Waking up -/

section

variable {P : SlicedTask → Prop} {pl : Plugin} {queued : Bool}
  (hadv : ∀ {t t' : SlicedTask}, P t → t.sliceBudgetExhausted = true →
    t.advanceNextSlice pl queued false = some t' → P t')
  (htime : ∀ {t : SlicedTask} (delta : LtTime), P t →
    (t.isSlicedTask = true → t.job.execTime.toNat + delta.toNat < 2 ^ 64) →
    P (t.updateTime delta))

include hadv htime

/-- The loop of `fast_forward_slices` advances and charges time.  What is left of the
    suspension always fits on top of the execution time. -/
theorem fastForwardLoop_induction {fuel : Nat} {timePassed : LtTime} (ht : P t)
    (hfit : t.job.execTime.toNat + timePassed.toNat < 2 ^ 64)
    (h : t.fastForwardLoop pl queued fuel timePassed = some t') : P t' := by
  induction fuel generalizing timePassed t with
  | zero => cases h
  | succ fuel ih =>
    unfold fastForwardLoop at h
    split at h
    · rename_i hit
      have hle := BitVec.le_def.mp hit.2
      have hx : (t.updateTime t.sliceBudgetRemaining).job.execTime.toNat =
          t.job.execTime.toNat + t.sliceBudgetRemaining.toNat := by
        change (t.job.execTime + t.sliceBudgetRemaining).toNat = _
        rw [BitVec.toNat_add, Nat.mod_eq_of_lt (by omega)]
      have ht' : P (t.updateTime t.sliceBudgetRemaining) := htime _ ht (fun _ => by omega)
      dsimp only at h
      split at h
      · cases h
      rename_i hbu
      have hove : (t.updateTime t.sliceBudgetRemaining).sliceBudgetExhausted = true := by
        simp only [Bool.or_eq_true, Bool.not_eq_true', not_or, Bool.not_eq_false] at hbu
        exact hbu.1.1
      obtain ⟨u, hu, hloo⟩ := Option.bind_eq_some_iff.mp h
      refine ih (hadv ht' hove hu) ?_ hloo
      have := execTime_advance_le hu
      rw [BitVec.toNat_sub_of_le hit.2]
      omega
    cases h
    exact htime timePassed ht (fun _ => hfit)

theorem fastForwardSlices_induction {timePassed : LtTime} (ht : P t)
    (h : t.fastForwardSlices pl queued timePassed = some t') : P t' := by
  unfold fastForwardSlices at h
  split at h
  · cases h
  rename_i hbug
  have hfit : t.job.execTime.toNat + timePassed.toNat < 2 ^ 64 :=
    lt_trans (RtTask.add_lt_execCost hbug) t.params.execCost.isLt
  obtain ⟨u, hu, hlo⟩ := Option.bind_eq_some_iff.mp h
  unfold endSlice at hu
  split at hu
  · rename_i hove
    have hover' : t.sliceBudgetExhausted = true := by
      rwa [budgetExhausted, if_pos (isSlicedTask_of_advance hu)] at hove
    refine fastForwardLoop_induction hadv htime (hadv ht hover' hu) ?_ hlo
    have := execTime_advance_le hu
    omega
  cases hu
  exact fastForwardLoop_induction hadv htime ht hfit hlo

theorem resume_induction (hrel : ∀ {t t' : SlicedTask} {start : LtTime}, P t →
      t.releaseAt pl queued start = some t' → P t') {now : LtTime} (ht : P t)
    (h : t.resume pl queued now = some t') : P t' := by
  unfold resume at h
  dsimp only at h
  split at h
  · split at h
    · exact hrel ht h
    cases h
    exact ht
  split at h
  · obtain ⟨u, hu, hok⟩ := Option.bind_eq_some_iff.mp h
    split at hok
    · cases hok
    cases hok
    exact fastForwardSlices_induction hadv htime ht hu
  rename_i hreg
  cases h
  exact htime _ ht (fun hsl => absurd hsl hreg)

end

/-! ### What no operation changes -/

/-- The fields that the slice bookkeeping only reads or does not know of. -/
def constants (t : SlicedTask) :
    List Slice × LtTime × BudgetPolicy × Bool × Bool × Option TaskId :=
  (t.slices, t.params.period, t.params.budgetPolicy, t.realtime, t.running, t.inhTask)

theorem constants_advance (h : t.advanceNextSlice pl queued signaled = some t') :
    t'.constants = t.constants := by
  unfold advanceNextSlice at h
  split at h
  · cases h
  cases h
  split <;> cases pl <;> rfl

theorem constants_releaseAt {start : LtTime} (h : t.releaseAt pl queued start = some t') :
    t'.constants = t.constants := by
  unfold releaseAt at h
  split at h
  · obtain ⟨u, hu, rfl⟩ := Option.map_eq_some_iff.mp h
    have hcon := constants_advance hu
    exact hcon
  cases h
  rfl

theorem constants_resume {now : LtTime} (h : t.resume pl queued now = some t') :
    t'.constants = t.constants :=
  resume_induction (P := fun u => u.constants = t.constants)
    (fun hu _ hadv => (constants_advance hadv).trans hu) (fun _ hu _ => hu)
    (fun hu hrel => (constants_releaseAt hrel).trans hu) rfl h

theorem constants_newJob (now : LtTime) (t : SlicedTask) :
    (t.newJob now).constants = t.constants := by
  unfold newJob
  dsimp only
  split <;> rfl

end SlicedTask

open SlicedTask Runs

variable {pl : Plugin} {t t' : SlicedTask} {queued : Bool}

/-- The release of the whole job, which only EDF-WM overwrites. -/
def SlicedTask.jobRelease (pl : Plugin) (t : SlicedTask) : LtTime :=
  match pl with
  | .edfWm => t.semi.jobRelease
  | .cd => t.job.release
  | .hime => t.job.release

/-- The fields that EDF reads are those of the current slice. -/
def SlicedTask.EdfFields (pl : Plugin) (t : SlicedTask) : Prop :=
  match pl with
  | .edfWm =>
      t.job.deadline = t.semi.jobRelease + t.slice.deadline ∧
        t.job.release = t.semi.jobRelease + t.slice.offset
  | .cd => t.job.deadline = t.job.release + t.slice.deadline
  | .hime => t.job.deadline = 0

structure SliceInv (pl : Plugin) (t : SlicedTask) : Prop where
  index : t.semi.slice < t.slices.length
  cost : t.params.execCost = budgetsUpTo t.slices (t.semi.slice + 1)
  cpu : t.params.cpu = t.slice.cpu
  reference : t.semi.execTime ≤ t.job.execTime
  deadline : t.semi.jobDeadline = t.jobRelease pl + t.params.period
  edf : t.EdfFields pl

theorem SliceInv.sliced (hI : SliceInv pl t) : t.isSlicedTask = true := by
  have := hI.index
  simp only [isSlicedTask, bne_iff_ne]
  omega

theorem sliceInv_startJob (pl : Plugin) (hpo : 0 < t.slices.length) (h0 : t.semi.slice = 0) :
    SliceInv pl ((t.startJob pl).computeSliceParams pl) := by
  have hcos : budgetsUpTo t.slices 1 = 0 + (t.slices.getD 0 default).budget :=
    budgetsUpTo_succ hpo
  cases pl <;> constructor <;>
      simp [startJob, completeSlicedJob, cacheJob, wholeJob, computeSliceParams, sliceJob,
        SlicedTask.modify, RtTask.prepareForNextPeriod, sliceBudget, slice, jobRelease,
        EdfFields, h0, hpo, hcos]

theorem SliceInv.moveOn (hI : SliceInv pl t) (hlt : t.semi.slice + 1 < t.slices.length) :
    SliceInv pl ((t.setSlice (t.semi.slice + 1)).computeSliceParams pl) := by
  have hcos := budgetsUpTo_succ hlt
  have hcost' := hI.cost
  have hdea := hI.deadline
  have hedf := hI.edf
  cases pl <;> constructor <;>
      simp_all [computeSliceParams, sliceJob, setSlice, sliceBudget, slice, jobRelease, EdfFields]

theorem SliceInv.advance {signaled : Bool} (hI : SliceInv pl t)
    (h : t.advanceNextSlice pl queued signaled = some t') : SliceInv pl t' := by
  rcases advanceNextSlice_cases hI.index h with ⟨_, rfl⟩ | ⟨_, hlt, rfl⟩
  · exact sliceInv_startJob pl (Nat.zero_lt_of_lt hI.index) rfl
  exact hI.moveOn hlt

theorem sliceInv_releaseAt {start : LtTime} (hsl : t.isSlicedTask = true)
    (h : t.releaseAt pl queued start = some t') : SliceInv pl t' := by
  obtain ⟨u, hsli, h0, rfl⟩ := releaseAt_wraps hsl h
  have hpos : 0 < u.slices.length := by
    rw [hsli]
    exact length_pos_of_sliced hsl
  have hI := sliceInv_startJob pl hpos h0
  exact ⟨hI.index, hI.cost, hI.cpu, hI.reference, hI.deadline, hI.edf⟩

/-! ### Executing and waking up -/

theorem SliceInv.updateTime (hI : SliceInv pl t) (delta : LtTime)
    (hfit : t.job.execTime.toNat + delta.toNat < 2 ^ 64) : SliceInv pl (t.updateTime delta) where
  index := hI.index
  cost := hI.cost
  cpu := hI.cpu
  reference := by
    have hle := BitVec.le_def.mp hI.reference
    apply BitVec.le_def.mpr
    change t.semi.execTime.toNat ≤ (t.job.execTime + delta).toNat
    rw [BitVec.toNat_add, Nat.mod_eq_of_lt hfit]
    omega
  deadline := hI.deadline
  edf := hI.edf

theorem SliceInv.resume {now : LtTime} (hI : SliceInv pl t)
    (h : t.resume pl queued now = some t') : SliceInv pl t' :=
  resume_induction (fun hu _ hadv => hu.advance hadv)
    (fun delta hu hfit => hu.updateTime delta (hfit hu.sliced))
    (fun hu hrel => sliceInv_releaseAt hu.sliced hrel) hI h

/-! ### Runs of one task -/

/-- What can happen to a sliced task, as far as its slices go. -/
inductive SliceOp where
  | execute (delta : LtTime)
  | advance (completionSignaled : Bool)
  | block (now : LtTime)
  | wakeUp (now : LtTime)
  | releaseAt (start : LtTime)

/-- The time charged to a job comes from a 64-bit clock and does not wrap. -/
def SliceOp.Legal (t : SlicedTask) : SliceOp → Prop
  | .execute delta => t.job.execTime.toNat + delta.toNat < 2 ^ 64
  | _ => True

instance (t : SlicedTask) : (op : SliceOp) → Decidable (op.Legal t)
  | .execute delta =>
      inferInstanceAs (Decidable (t.job.execTime.toNat + delta.toNat < 2 ^ 64))
  | .advance _ => .isTrue trivial
  | .block _ => .isTrue trivial
  | .wakeUp _ => .isTrue trivial
  | .releaseAt _ => .isTrue trivial

/-- Run one step on a task that is in no queue. -/
def SliceOp.exec (pl : Plugin) (t : SlicedTask) : SliceOp → Option SlicedTask
  | .execute delta => some (t.updateTime delta)
  | .advance completionSignaled => t.advanceNextSlice pl false completionSignaled
  | .block now => some (t.suspend now)
  | .wakeUp now => t.resume pl false now
  | .releaseAt start => t.releaseAt pl false start

def SliceStep (pl : Plugin) (t : SlicedTask) (op : SliceOp) (t' : SlicedTask) : Prop :=
  op.Legal t ∧ op.exec pl t = some t'

theorem SliceInv.step {op : SliceOp} (hI : SliceInv pl t) (h : SliceStep pl t op t') :
    SliceInv pl t' := by
  obtain ⟨hl, hx⟩ := h
  cases op with
  | execute delta =>
    cases hx
    exact hI.updateTime delta hl
  | advance completionSignaled => exact hI.advance hx
  | block now =>
    cases hx
    exact ⟨hI.index, hI.cost, hI.cpu, hI.reference, hI.deadline, hI.edf⟩
  | wakeUp now => exact hI.resume hx
  | releaseAt start => exact sliceInv_releaseAt hI.sliced hx

theorem constants_step {op : SliceOp} (h : SliceStep pl t op t') : t'.constants = t.constants := by
  obtain ⟨-, hx⟩ := h
  cases op with
  | execute delta =>
    cases hx
    rfl
  | advance completionSignaled => exact constants_advance hx
  | block now =>
    cases hx
    rfl
  | wakeUp now => exact constants_resume hx
  | releaseAt start => exact constants_releaseAt hx

theorem constants_run {ops : List SliceOp} (h : Run (SliceStep pl) t ops t') :
    t'.constants = t.constants :=
  h.invariant (I := fun u => u.constants = t.constants)
    (fun _ _ _ hu hs => (constants_step hs).trans hu) rfl

theorem sliceInv_of_released {t0 t1 t2 : SlicedTask} {now start : LtTime}
    {before after : List SliceOp} (hsl : t0.isSlicedTask = true)
    (hbe : Run (SliceStep pl) (t0.newJob now) before t1)
    (hre : SliceStep pl t1 (.releaseAt start) t2) (haf : Run (SliceStep pl) t2 after t) :
    SliceInv pl t ∧ t.constants = t0.constants := by
  have hba : t1.constants = t0.constants :=
    (constants_run hbe).trans (constants_newJob now t0)
  have hsliced1 : t1.isSlicedTask = true := by
    have : t1.slices = t0.slices := congrArg Prod.fst hba
    rwa [isSlicedTask, this]
  refine ⟨?_, (constants_run haf).trans ((constants_step hre).trans hba)⟩
  exact haf.invariant (fun _ _ _ hu hs => hu.step hs)
    (sliceInv_releaseAt hsliced1 hre.2)

/-- The bookkeeping of a sliced task from its first release by the plugin on: index, cost, CPU,
    slice start, cached deadline and the EDF fields. -/
theorem slice_bookkeeping {pl : Plugin} {t₀ t₁ t₂ t : SlicedTask} {now start : LtTime}
    {before after : List SliceOp}
    (hsliced : t₀.isSlicedTask = true)
    (hfit : budgetOf t₀.slices t₀.slices.length < 2 ^ 64)
    (hbefore : Run (SliceStep pl) (t₀.newJob now) before t₁)
    (hrelease : SliceStep pl t₁ (.releaseAt start) t₂)
    (hafter : Run (SliceStep pl) t₂ after t) :
    t.semi.slice < t₀.slices.length ∧
      t.params.execCost.toNat = budgetOf t₀.slices (t.semi.slice + 1) ∧
      t.params.cpu = (t₀.slices.getD t.semi.slice default).cpu ∧
      t.semi.execTime ≤ t.job.execTime ∧
      t.semi.jobDeadline = t.jobRelease pl + t₀.params.period ∧
      t.EdfFields pl := by
  obtain ⟨hI, hconst⟩ := sliceInv_of_released hsliced hbefore hrelease hafter
  have hslices : t.slices = t₀.slices := congrArg Prod.fst hconst
  have hperiod : t.params.period = t₀.params.period := congrArg (fun c => c.2.1) hconst
  rw [← hslices] at hfit
  refine ⟨hslices ▸ hI.index, ?_, ?_, hI.reference, hperiod ▸ hI.deadline, hI.edf⟩
  · rw [hI.cost, toNat_budgetsUpTo hfit hI.index, hslices]
  · rw [hI.cpu, slice, hslices]

/-- A task of two slices of 50 µs, as admitted. -/
def twoSlices : SlicedTask :=
  { RtTask.admitted
      { execCost := 100000, period := 200000, cpu := 0, budgetPolicy := .preciseEnforcement } with
    slices :=
      [{ cpu := 0, deadline := 100000, budget := 50000, offset := 0 },
        { cpu := 1, deadline := 200000, budget := 50000, offset := 100000 }]
    semi :=
      { execTime := 0, suspendTime := 0, jobRelease := 0, jobDeadline := 0, jobExecCost := 0
        slice := 0 } }

/-- A late first slice, then a short suspension in the second. -/
theorem slice_bookkeeping_late_slice :
    ∃ t₂ t, twoSlices.checkParams .edfWm (fun _ => true) = true ∧
      SliceStep .edfWm (twoSlices.newJob 0) (.releaseAt 1000000) t₂ ∧
      Run (SliceStep .edfWm) t₂
        [.execute 60000, .advance false, .block 1100000, .wakeUp 1110000] t ∧
      t.semi.slice = 1 ∧ t.job.execTime = 70000 ∧
      t.params.execCost.toNat = budgetOf twoSlices.slices 2 := by
  have hrelease : SliceStep .edfWm (twoSlices.newJob 0) (.releaseAt 1000000)
      (((twoSlices.newJob 0).releaseAt .edfWm false 1000000).getD twoSlices) := ⟨trivial, rfl⟩
  obtain ⟨t, hrun, hslice, hx⟩ : ∃ t, Run (SliceStep .edfWm)
      (((twoSlices.newJob 0).releaseAt .edfWm false 1000000).getD twoSlices)
      [.execute 60000, .advance false, .block 1100000, .wakeUp 1110000] t ∧
      t.semi.slice = 1 ∧ t.job.execTime = 70000 :=
    ⟨_, .cons ⟨by decide, rfl⟩ (.cons ⟨trivial, rfl⟩ (.cons ⟨trivial, rfl⟩
      (.cons ⟨trivial, rfl⟩ .nil))), rfl, rfl⟩
  have hbook := slice_bookkeeping (by decide) (by decide) .nil hrelease hrun
  rw [hslice] at hbook
  exact ⟨_, t, by decide, hrelease, hrun, hslice, hx, hbook.2.1⟩

end Litmus.SemiPart
