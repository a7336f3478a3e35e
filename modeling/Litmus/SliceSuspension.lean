import Mathlib.Algebra.Order.BigOperators.Group.List
import Litmus.SliceEnforcement
import Litmus.SliceJobs

/-!
# Suspensions of sliced jobs

A suspension is charged as execution.  `task_wake_up` adds the time slept to `exec_time`, and
`fast_forward_slices` moves the job to the slice in which it then is.  Both do so only below
`get_exec_cost`: the cost of the whole job until the plugin has overwritten it, and the budgets
of the slices so far from then on.
-/

namespace Litmus.SemiPart

open SlicedTask SemiState Runs

/-! ### Where an amount of execution falls -/

theorem budgetOf_mono (slices : List Slice) {m n : Nat} (h : m ≤ n) :
    budgetOf slices m ≤ budgetOf slices n := by
  apply List.Sublist.sum_le_sum
  · exact ((List.take_prefix_take_left h).sublist).map _
  exact fun _ _ => Nat.zero_le _

theorem toNat_budgetsUpTo_le {slices : List Slice} (n : Nat) (hn : n ≤ slices.length) :
    (budgetsUpTo slices n).toNat ≤ budgetOf slices n := by
  induction n with
  | zero => exact Nat.zero_le _
  | succ n ih =>
    rw [budgetsUpTo_succ hn, budgetOf_succ hn, BitVec.toNat_add]
    exact Nat.le_trans (Nat.mod_le _ _) (Nat.add_le_add_right (ih (Nat.le_of_succ_le hn)) _)

/-- The `exec_time` at which slice `j` is used up when the job runs on.  A slice that is
    already over ends now. -/
def SlicedTask.endOf (t : SlicedTask) (j : Nat) : Nat :=
  max (t.semi.execTime.toNat + t.sliceBudget.toNat) t.job.execTime.toNat +
    (budgetOf t.slices (j + 1) - budgetOf t.slices (t.semi.slice + 1))

/-- With `exec` time units the job is in slice `j`: the slices from the current one up to
    `j` are used up, and `j` is not. -/
structure FallsIn (t : SlicedTask) (exec j : Nat) : Prop where
  onward : t.semi.slice ≤ j
  index : j < t.slices.length
  unfinished : exec < t.endOf j
  finished : ∀ k, t.semi.slice ≤ k → k < j → t.endOf k ≤ exec

/-- The suspended job wakes up with `exec` time units charged to it, in the slice where they
    fall and within its budget. -/
structure Charged (t : SlicedTask) (exec : Nat) (t' : SlicedTask) : Prop where
  sameJob : t'.job.jobNo = t.job.jobNo
  execTime : t'.job.execTime.toNat = exec
  slice : FallsIn t exec t'.semi.slice
  cpu : t'.params.cpu = t'.slice.cpu
  budgetLeft : t'.sliceBudgetExhausted = false

/-! ### A job in one of its slices -/

/-- The current slice started when the budgets before it were used up, perhaps late. -/
structure Underway (t : SlicedTask) : Prop where
  index : t.semi.slice < t.slices.length
  started : budgetOf t.slices t.semi.slice ≤ t.semi.execTime.toNat
  reference : t.semi.execTime ≤ t.job.execTime
  cpu : t.params.cpu = t.slice.cpu
  cost : t.semi.jobExecCost.toNat ≤ budgetOf t.slices t.slices.length
  budget : ∀ s ∈ t.slices, s.budget ≠ 0

section

variable {pl : Plugin} {t t' : SlicedTask}

theorem endOf_current (t : SlicedTask) : t.endOf t.semi.slice =
      max (t.semi.execTime.toNat + t.sliceBudget.toNat) t.job.execTime.toNat := by
  rw [endOf, Nat.sub_self, Nat.add_zero]

section

variable (ht : Underway t)

include ht

theorem Underway.sliced : t.isSlicedTask = true := by
  rw [isSlicedTask, bne_iff_ne]
  exact ne_of_gt (Nat.zero_lt_of_lt ht.index)

theorem Underway.sliceBudget_pos : 0 < t.sliceBudget.toNat := by
  have hm : t.slice ∈ t.slices := by
    rw [slice, List.getD_eq_getElem?_getD, List.getElem?_eq_getElem ht.index]
    exact List.getElem_mem ht.index
  exact Nat.pos_of_ne_zero (fun h => ht.budget _ hm (BitVec.eq_of_toNat_eq h))

theorem Underway.exhausted_iff : t.sliceBudgetExhausted = true ↔
      t.semi.execTime.toNat + t.sliceBudget.toNat ≤ t.job.execTime.toNat :=
  sliceBudgetExhausted_iff ht.reference

theorem Underway.not_exhausted_iff : t.sliceBudgetExhausted = false ↔
      t.job.execTime.toNat < t.semi.execTime.toNat + t.sliceBudget.toNat := by
  rw [← Bool.not_eq_true, ht.exhausted_iff, not_le]

theorem Underway.toNat_remaining (hnot : t.sliceBudgetExhausted = false) :
    t.job.execTime.toNat + t.sliceBudgetRemaining.toNat =
      t.semi.execTime.toNat + t.sliceBudget.toNat := by
  have hlt := ht.not_exhausted_iff.mp hnot
  have hx := toNat_sliceExecTime ht.reference
  have hle := BitVec.le_def.mp ht.reference
  rw [sliceBudgetRemaining, BitVec.toNat_sub_of_le (BitVec.le_def.mpr (by omega)), hx]
  omega

/-- The budgets up to the current slice are at most what the job has used when it ends. -/
theorem Underway.budgetOf_le_end :
    budgetOf t.slices (t.semi.slice + 1) ≤ t.semi.execTime.toNat + t.sliceBudget.toNat := by
  rw [budgetOf_succ ht.index]
  exact Nat.add_le_add_right ht.started _

/-- Below the cost of the job, a slice that is over is not the last one. -/
theorem Underway.succ_lt
    (hlef : t.semi.execTime.toNat + t.sliceBudget.toNat < t.semi.jobExecCost.toNat) :
    t.semi.slice + 1 < t.slices.length := by
  have hle := ht.budgetOf_le_end
  have hcs := ht.cost
  rcases Nat.lt_or_eq_of_le (Nat.succ_le_of_lt ht.index) with hlt | heq
  · exact hlt
  rw [← Nat.succ_eq_add_one, heq] at hle
  omega

theorem Underway.updateTime {delta : LtTime}
    (hfit : t.job.execTime.toNat + delta.toNat < 2 ^ 64) : Underway (t.updateTime delta) where
  index := ht.index
  started := ht.started
  reference := by
    have hle := BitVec.le_def.mp ht.reference
    apply BitVec.le_def.mpr
    change t.semi.execTime.toNat ≤ (t.job.execTime + delta).toNat
    rw [BitVec.toNat_add, Nat.mod_eq_of_lt hfit]
    omega
  cpu := ht.cpu
  cost := ht.cost
  budget := ht.budget

theorem Underway.not_exhausted_at_start
    (hsa : t.semi.execTime = t.job.execTime) : t.sliceBudgetExhausted = false := by
  have hp := ht.sliceBudget_pos
  rw [ht.not_exhausted_iff, hsa]
  omega

end

theorem execTime_computeSliceParams (pl : Plugin) (t : SlicedTask) :
    (t.computeSliceParams pl).job.execTime = t.job.execTime := by
  cases pl <;> rfl

theorem execTime_updateTime {delta : LtTime} (hfit : t.job.execTime.toNat + delta.toNat < 2 ^ 64) :
    (t.updateTime delta).job.execTime.toNat = t.job.execTime.toNat + delta.toNat := by
  change (t.job.execTime + delta).toNat = _
  rw [BitVec.toNat_add, Nat.mod_eq_of_lt hfit]

theorem underway_startJob (pl : Plugin) (hp : 0 < t.slices.length)
    (hcs : t.semi.jobExecCost.toNat ≤ budgetOf t.slices t.slices.length)
    (hbu : ∀ s ∈ t.slices, s.budget ≠ 0) :
    Underway (((t.setSlice 0).startJob pl).computeSliceParams pl) := by
  cases pl <;> exact ⟨hp, Nat.zero_le _, BitVec.le_of_eq rfl, rfl, hcs, hbu⟩

theorem Underway.moveOn (pl : Plugin) (ht : Underway t) (hov : t.sliceBudgetExhausted = true)
    (hlt : t.semi.slice + 1 < t.slices.length) :
    Underway ((t.setSlice (t.semi.slice + 1)).computeSliceParams pl) := by
  have hsd := le_trans ht.budgetOf_le_end (ht.exhausted_iff.mp hov)
  cases pl <;> exact ⟨hlt, hsd, BitVec.le_of_eq rfl, rfl, ht.cost, ht.budget⟩

end

/-! ### Reachable jobs -/

/-- Without a signal, `schedule` ends a slice only when its budget is exhausted. -/
def SliceOp.Budgeted (t : SlicedTask) : SliceOp → Prop
  | .advance false => t.sliceBudgetExhausted = true
  | _ => True

def BudgetedStep (pl : Plugin) (t : SlicedTask) (op : SliceOp) (t' : SlicedTask) : Prop :=
  op.Budgeted t ∧ SliceStep pl t op t'

section

variable {pl : Plugin} {t t' : SlicedTask}

theorem Underway.advance {queued signaled : Bool} (ht : Underway t)
    (hov : signaled = false → t.sliceBudgetExhausted = true)
    (h : t.advanceNextSlice pl queued signaled = some t') : Underway t' := by
  rcases advanceNextSlice_cases ht.index h with ⟨-, rfl⟩ | ⟨hn, hlt, rfl⟩
  · exact underway_startJob pl (Nat.zero_lt_of_lt ht.index) ht.cost ht.budget
  refine ht.moveOn pl (hov ?_) hlt
  rw [← Bool.not_eq_true]
  intro hsig
  rw [nextSlice, hsig] at hn
  exact Nat.succ_ne_zero _ hn.symm

theorem Underway.releaseAt {queued : Bool} {start : LtTime} (ht : Underway t)
    (h : t.releaseAt pl queued start = some t') : Underway t' := by
  have hp := Nat.zero_lt_of_lt ht.index
  unfold SlicedTask.releaseAt at h
  rw [if_pos ht.sliced] at h
  obtain ⟨u, hu, rfl⟩ := Option.map_eq_some_iff.mp h
  rcases advanceNextSlice_cases (Nat.sub_lt hp one_pos) hu with ⟨-, rfl⟩ | ⟨-, hlt, -⟩
  · obtain ⟨hind, hsd, href, hc, hcs, hbu⟩ :=
      underway_startJob pl hp ht.cost ht.budget
    cases pl <;> exact ⟨hind, hsd, href, hc, hcs, hbu⟩
  have hla : t.slices.length - 1 + 1 < t.slices.length := hlt
  omega

theorem Underway.resume {queued : Bool} {now : LtTime} (ht : Underway t)
    (h : t.resume pl queued now = some t') : Underway t' :=
  resume_induction (fun hu hov hadv => hu.advance (fun _ => hov) hadv)
    (fun _ hu hfit => hu.updateTime (hfit hu.sliced)) (fun hu hrel => hu.releaseAt hrel) ht h

theorem Underway.step {op : SliceOp} (ht : Underway t) (h : BudgetedStep pl t op t') :
    Underway t' := by
  obtain ⟨hbud, hl, hx⟩ := h
  cases op with
  | execute delta =>
    cases hx
    exact ht.updateTime hl
  | advance signaled =>
    refine ht.advance (fun hsig => ?_) hx
    subst hsig
    exact hbud
  | block now =>
    cases hx
    exact ⟨ht.index, ht.started, ht.reference, ht.cpu, ht.cost, ht.budget⟩
  | wakeUp now => exact ht.resume hx
  | releaseAt start => exact ht.releaseAt hx

theorem underway_newJob {online : BitVec 32 → Bool} (now : LtTime) (hsl : t.isSlicedTask = true)
    (hck : t.checkParams pl online = true) : Underway (t.newJob now) := by
  obtain ⟨hc, -, hcs, hmin⟩ := checkParams_first hsl hck
  have hbu : ∀ s ∈ t.slices, s.budget ≠ 0 := by
    intro s hs h0
    exact absurd (h0 ▸ hmin s hs) (by decide)
  have hcost' : t.params.execCost.toNat ≤ budgetOf t.slices t.slices.length := by
    rw [hcs]
    exact toNat_budgetsUpTo_le t.slices.length le_rfl
  have hsliced' : (t.modify (RtTask.releaseAt now)).isSlicedTask = true := hsl
  unfold newJob
  rw [if_pos hsliced']
  exact ⟨length_pos_of_sliced hsl, Nat.zero_le _, BitVec.le_of_eq rfl, hc, hcost', hbu⟩

end

/-! ### Fast-forwarding -/

section

variable {pl : Plugin} {t t' : SlicedTask} {exec j : Nat}

variable {timePassed : LtTime}

/-- Below the cost of the job, and below its deadline in EDF-WM, the job moves on. -/
theorem Underway.advance_moves (ht : Underway t) (hov : t.sliceBudgetExhausted = true)
    (hcs : t.job.execTime.toNat < t.semi.jobExecCost.toNat)
    (hd : pl = .edfWm → t.job.execTime.toNat < t.semi.jobDeadline.toNat) :
    t.semi.slice + 1 < t.slices.length ∧ t.advanceNextSlice pl false false =
        some ((t.setSlice (t.semi.slice + 1)).computeSliceParams pl) := by
  have hlt : t.semi.slice + 1 < t.slices.length :=
    ht.succ_lt (lt_of_le_of_lt (ht.exhausted_iff.mp hov) hcs)
  have hgoi : ¬t.cdJobExecCost pl ≤ t.job.execTime := by
    rw [BitVec.le_def, not_le]
    cases pl
    · exact hd rfl
    · exact hcs
    exact hcs
  have hn : t.nextSlice pl false = t.semi.slice + 1 := by
    rw [nextSlice, decide_eq_false hgoi, Nat.mod_eq_of_lt hlt]
    rfl
  refine ⟨hlt, ?_⟩
  rw [advanceNextSlice, ht.sliced, hn]
  rfl

theorem endOf_moveOn (pl : Plugin) (ht : Underway t) (hov : t.sliceBudgetExhausted = true)
    (hlt : t.semi.slice + 1 < t.slices.length) (hj : t.semi.slice < j) :
    ((t.setSlice (t.semi.slice + 1)).computeSliceParams pl).endOf j = t.endOf j := by
  have hend := ht.exhausted_iff.mp hov
  have hsuc := budgetOf_succ hlt
  have hmon := budgetOf_mono t.slices (show t.semi.slice + 1 + 1 ≤ j + 1 by omega)
  have hnw : ((t.setSlice (t.semi.slice + 1)).computeSliceParams pl).endOf j =
      max (t.job.execTime.toNat + (t.slices.getD (t.semi.slice + 1) default).budget.toNat)
        t.job.execTime.toNat +
        (budgetOf t.slices (j + 1) - budgetOf t.slices (t.semi.slice + 1 + 1)) := by
    cases pl <;> rfl
  rw [hnw, endOf, Nat.max_eq_right hend, Nat.max_eq_left (Nat.le_add_right _ _)]
  omega

theorem FallsIn.of_moveOn (ht : Underway t) (hov : t.sliceBudgetExhausted = true)
    (hlt : t.semi.slice + 1 < t.slices.length) (hx : t.job.execTime.toNat ≤ exec)
    (h : FallsIn ((t.setSlice (t.semi.slice + 1)).computeSliceParams pl) exec j) :
    FallsIn t exec j := by
  have hon : t.semi.slice + 1 ≤ j := h.onward
  refine ⟨Nat.le_of_succ_le hon, h.index, ?_, fun k hk hkj => ?_⟩
  · rw [← endOf_moveOn pl ht hov hlt hon]
    exact h.unfinished
  rcases Nat.eq_or_lt_of_le hk with rfl | hk
  · rw [endOf_current, Nat.max_eq_right (ht.exhausted_iff.mp hov)]
    exact hx
  rw [← endOf_moveOn pl ht hov hlt hk]
  exact h.finished k hk hkj

theorem edfFields_moveOn (pl : Plugin) (t : SlicedTask) :
    ((t.setSlice (t.semi.slice + 1)).computeSliceParams pl).EdfFields pl ↔
      t.EdfFields pl ∨ pl ≠ .hime := by
  cases pl
  · exact iff_of_true ⟨rfl, rfl⟩ (.inr (by decide))
  · exact iff_of_true rfl (.inr (by decide))
  exact (or_iff_left (fun h => h rfl)).symm

/-- What a suspension does to the job, and to the fields that EDF reads. -/
def Forwarded (pl : Plugin) (t : SlicedTask) (exec : Nat) (t' : SlicedTask) : Prop :=
  Charged t exec t' ∧ (t'.EdfFields pl ↔ t.EdfFields pl ∨ pl ≠ .hime ∧ t.endOf t.semi.slice ≤ exec)

theorem Forwarded.of_moveOn (ht : Underway t) (hov : t.sliceBudgetExhausted = true)
    (hlt : t.semi.slice + 1 < t.slices.length) (hx : t.job.execTime.toNat ≤ exec)
    (h : Forwarded pl ((t.setSlice (t.semi.slice + 1)).computeSliceParams pl) exec t') :
    Forwarded pl t exec t' := by
  obtain ⟨hch, hedf⟩ := h
  have hjob : ((t.setSlice (t.semi.slice + 1)).computeSliceParams pl).job.jobNo =
      t.job.jobNo := by
    cases pl <;> rfl
  have hen : t.endOf t.semi.slice ≤ exec := by
    rw [endOf_current, Nat.max_eq_right (ht.exhausted_iff.mp hov)]
    exact hx
  refine ⟨⟨hch.sameJob.trans hjob, hch.execTime,
    hch.slice.of_moveOn ht hov hlt hx, hch.cpu, hch.budgetLeft⟩, ?_⟩
  rw [hedf, edfFields_moveOn]
  constructor
  · rintro ((h | h) | h)
    · exact .inl h
    · exact .inr ⟨h, hen⟩
    exact .inr ⟨h.1, hen⟩
  rintro (h | h)
  · exact .inl (.inl h)
  exact .inl (.inr h.1)

section

variable (ht : Underway t) (hnot : t.sliceBudgetExhausted = false)
  (hfit : t.job.execTime.toNat + t.sliceBudgetRemaining.toNat < 2 ^ 64)

include ht hnot hfit

theorem Forwarded.of_remaining
    (h : Forwarded pl (t.updateTime t.sliceBudgetRemaining) exec t') : Forwarded pl t exec t' := by
  have hrem := ht.toNat_remaining hnot
  have hlt := ht.not_exhausted_iff.mp hnot
  have hen : ∀ k, (t.updateTime t.sliceBudgetRemaining).endOf k = t.endOf k := by
    intro k
    have hus := execTime_updateTime hfit
    rw [hrem] at hus
    change max (t.semi.execTime.toNat + t.sliceBudget.toNat) _ + (_ - _) = _
    rw [hus, Nat.max_self, endOf, Nat.max_eq_left hlt.le]
    rfl
  obtain ⟨⟨hjob, hx, ⟨honw, hind, hunf, hfin⟩, hc, hlef⟩, hedf⟩ := h
  refine ⟨⟨hjob, hx, ⟨honw, hind, ?_, ?_⟩, hc, hlef⟩, ?_⟩
  · rwa [← hen]
  · intro k hk hkj
    rw [← hen]
    exact hfin k hk hkj
  rw [← hen]
  exact hedf

theorem Underway.useUp : (t.updateTime t.sliceBudgetRemaining).sliceBudgetExhausted = true ∧
      (t.updateTime t.sliceBudgetRemaining).sliceBudgetRemaining = 0 := by
  have hre := ht.toNat_remaining hnot
  have hus := execTime_updateTime hfit
  have ht1 := ht.updateTime hfit
  have hspe : (t.updateTime t.sliceBudgetRemaining).sliceExecTime = t.sliceBudget := by
    apply BitVec.eq_of_toNat_eq
    rw [toNat_sliceExecTime ht1.reference, hus, hre]
    exact Nat.add_sub_cancel_left _ _
  refine ⟨?_, ?_⟩
  · rw [ht1.exhausted_iff, hus, hre]
    exact le_rfl
  rw [sliceBudgetRemaining, hspe]
  exact BitVec.sub_self _

end

theorem Underway.loop_iteration {fuel : Nat} (ht : Underway t)
    (hnot : t.sliceBudgetExhausted = false)
    (hfit : t.job.execTime.toNat + t.sliceBudgetRemaining.toNat < 2 ^ 64)
    (hite : timePassed ≠ 0 ∧ t.sliceBudgetRemaining ≤ timePassed)
    (hnex : t.semi.slice + 1 < t.slices.length)
    (hadv : (t.updateTime t.sliceBudgetRemaining).advanceNextSlice pl false false = some t') :
    t.fastForwardLoop pl false (fuel + 1) timePassed =
      t'.fastForwardLoop pl false fuel (timePassed - t.sliceBudgetRemaining) := by
  obtain ⟨hov, hn⟩ := ht.useUp hnot hfit
  have hla : ((t.updateTime t.sliceBudgetRemaining).semi.slice ==
      (t.updateTime t.sliceBudgetRemaining).getLastSlice) = false := by
    apply beq_false_of_ne
    change t.semi.slice ≠ t.slices.length - 1
    omega
  rw [SlicedTask.fastForwardLoop, if_pos hite]
  simp only [hov, hn, hla, hadv]
  rfl

/-- The loop of `fast_forward_slices` ends within its bound and hits no `BUG_ON`.  By induction
    on the bound: an iteration uses up a slice, and the time that is left is charged to the
    job in its next slice. -/
theorem Underway.fastForwardLoop {fuel : Nat} (ht : Underway t)
    (hnot : t.sliceBudgetExhausted = false) (hfue : timePassed.toNat < fuel)
    (hx : t.job.execTime.toNat + timePassed.toNat = exec) (hcs : exec < t.semi.jobExecCost.toNat)
    (hd : pl = .edfWm → t.endOf t.semi.slice ≤ exec → exec < t.semi.jobDeadline.toNat) :
    ∃ t', t.fastForwardLoop pl false fuel timePassed = some t' ∧ Forwarded pl t exec t' := by
  induction fuel generalizing t timePassed with
  | zero => exact absurd hfue (Nat.not_lt_zero _)
  | succ fuel ih =>
    have hrem := ht.toNat_remaining hnot
    have hlt := ht.not_exhausted_iff.mp hnot
    by_cases hit : timePassed ≠ 0 ∧ t.sliceBudgetRemaining ≤ timePassed
    · have hle := BitVec.le_def.mp hit.2
      have hfit : t.job.execTime.toNat + t.sliceBudgetRemaining.toNat < 2 ^ 64 := by omega
      have hus := execTime_updateTime hfit
      have ht1 := ht.updateTime hfit
      obtain ⟨hov, -⟩ := ht.useUp hnot hfit
      have hrh : (t.updateTime t.sliceBudgetRemaining).job.execTime.toNat ≤ exec := by omega
      have hen : t.endOf t.semi.slice ≤ exec := by
        rw [endOf_current]
        omega
      obtain ⟨hn, hadv⟩ := @Underway.advance_moves pl _ ht1 hov
        (lt_of_le_of_lt hrh hcs)
        (fun h => lt_of_le_of_lt hrh (hd h hen))
      have ht2 := ht1.moveOn pl hov hn
      have hexec2 := execTime_computeSliceParams pl
        ((t.updateTime t.sliceBudgetRemaining).setSlice (t.semi.slice + 1))
      have hlef := BitVec.toNat_sub_of_le hit.2
      have hsum : (((t.updateTime t.sliceBudgetRemaining).setSlice
          (t.semi.slice + 1)).computeSliceParams pl).job.execTime.toNat +
            (timePassed - t.sliceBudgetRemaining).toNat = exec := by
        rw [hexec2, hlef]
        change (t.updateTime t.sliceBudgetRemaining).job.execTime.toNat + _ = _
        omega
      obtain ⟨t', hloo, hfor⟩ := ih ht2 (ht2.not_exhausted_at_start hexec2.symm)
        (by omega) hsum hcs (fun h _ => hd h hen)
      refine ⟨t', (ht.loop_iteration hnot hfit hit hn hadv).trans hloo, ?_⟩
      exact (hfor.of_moveOn ht1 hov hn hrh).of_remaining ht hnot hfit
    have hfit : t.job.execTime.toNat + timePassed.toNat < 2 ^ 64 := by omega
    have hus := execTime_updateTime hfit
    have hen : exec < t.semi.execTime.toNat + t.sliceBudget.toNat := by
      rcases not_and_or.mp hit with h0 | hles
      · rw [not_not.mp h0] at hx
        exact hx ▸ hlt
      rw [BitVec.le_def] at hles
      omega
    have hun : exec < t.endOf t.semi.slice := by
      rw [endOf_current]
      exact lt_of_lt_of_le hen (Nat.le_max_left _ _)
    rw [SlicedTask.fastForwardLoop, if_neg hit]
    refine ⟨_, rfl, ⟨rfl, hus.trans hx, ?_, ht.cpu, ?_⟩, ?_⟩
    · exact ⟨le_rfl, ht.index, hun, fun k hk hkj =>
        absurd hkj (not_lt.mpr hk)⟩
    · rw [(ht.updateTime hfit).not_exhausted_iff, hus, hx]
      exact hen
    exact (or_iff_left (fun h => not_le.mpr hun h.2)).symm

theorem not_budgetRemaining_le {p : RtTask} {time : LtTime}
    (h : p.job.execTime.toNat + time.toNat < p.params.execCost.toNat) :
    ¬p.budgetRemaining ≤ time := by
  have hlef : ¬p.params.execCost ≤ p.job.execTime := by
    rw [BitVec.le_def]
    omega
  rw [RtTask.budgetRemaining, RtTask.budgetExhausted, decide_eq_false hlef, BitVec.le_def]
  change ¬(p.params.execCost - p.job.execTime).toNat ≤ time.toNat
  rw [BitVec.toNat_sub_of_le (BitVec.le_def.mpr (by omega))]
  omega

theorem Underway.fastForwardSlices (ht : Underway t)
    (hx : t.job.execTime.toNat + timePassed.toNat = exec)
    (hbu : exec < t.params.execCost.toNat) (hcs : exec < t.semi.jobExecCost.toNat)
    (hd : pl = .edfWm → t.endOf t.semi.slice ≤ exec → exec < t.semi.jobDeadline.toNat) :
    ∃ t', t.fastForwardSlices pl false timePassed = some t' ∧ Forwarded pl t exec t' := by
  rw [SlicedTask.fastForwardSlices, if_neg (not_budgetRemaining_le (hx ▸ hbu)), endSlice,
    SlicedTask.budgetExhausted, if_pos ht.sliced]
  cases hov : t.sliceBudgetExhausted
  · -- the slice goes on
    exact ht.fastForwardLoop hov (Nat.lt_succ_self _) hx hcs hd
  -- the suspension raced with the end of the slice
  have hrh : t.job.execTime.toNat ≤ exec := by omega
  have hen : t.endOf t.semi.slice ≤ exec := by
    rw [endOf_current, Nat.max_eq_right (ht.exhausted_iff.mp hov)]
    exact hrh
  obtain ⟨hn, hadv⟩ := @Underway.advance_moves pl t ht hov
    (lt_of_le_of_lt hrh hcs)
    (fun h => lt_of_le_of_lt hrh (hd h hen))
  have ht1 := ht.moveOn pl hov hn
  have hexec1 := execTime_computeSliceParams pl (t.setSlice (t.semi.slice + 1))
  obtain ⟨t', hloo, hfor⟩ := ht1.fastForwardLoop
    (ht1.not_exhausted_at_start hexec1.symm) (Nat.lt_succ_self timePassed.toNat)
    (by rw [hexec1]; exact hx) hcs (fun h _ => hd h hen)
  refine ⟨t', ?_, hfor.of_moveOn ht hov hn hrh⟩
  rw [if_pos rfl, hadv]
  exact hloo

theorem jobNo_releaseAt {start : LtTime} (ht : Underway t)
    (h : t.releaseAt pl false start = some t') : t'.job.jobNo = t.job.jobNo + 1 := by
  have hp := Nat.zero_lt_of_lt ht.index
  unfold SlicedTask.releaseAt at h
  rw [if_pos ht.sliced] at h
  obtain ⟨u, hu, rfl⟩ := Option.map_eq_some_iff.mp h
  rcases advanceNextSlice_cases (Nat.sub_lt hp one_pos) hu with ⟨-, rfl⟩ | ⟨-, hlt, -⟩
  · exact (nextJob_startJob pl _).2.1
  have hla : t.slices.length - 1 + 1 < t.slices.length := hlt
  omega

/-- From `get_exec_cost` on, a suspension is not charged: a new job is released, or the job
    stays as it is. -/
theorem Underway.resume_uncharged {now : LtTime} (ht : Underway t)
    (hov : t.params.execCost ≤ t.job.execTime + (now - t.semi.suspendTime))
    (h : t.resume pl false now = some t') : t'.job.jobNo = t.job.jobNo + 1 ∨ t' = t := by
  rw [SlicedTask.resume, if_pos hov] at h
  split at h
  · exact .inl (jobNo_releaseAt ht h)
  exact .inr (Option.some.inj h).symm

end

/-- A suspension of a sliced job that leaves some of its cost is charged as execution across the
    slices if it stays below `get_exec_cost`, and otherwise not at all.  The fields that EDF
    reads are those of the slice if they were before, or, except in HIME, if the job has
    changed its slice. -/
theorem suspension_charged {pl : Plugin} {online : BitVec 32 → Bool} {t₀ t : SlicedTask}
    {start now : LtTime} {ops : List SliceOp} {exec : Nat}
    (hsliced : t₀.isSlicedTask = true) (hcheck : t₀.checkParams pl online = true)
    (hrun : Run (BudgetedStep pl) (t₀.newJob start) ops t)
    (hexec : t.job.execTime.toNat + (now - t.semi.suspendTime).toNat = exec)
    (hcost : exec < t.semi.jobExecCost.toNat)
    (hdeadline : pl = .edfWm → t.endOf t.semi.slice ≤ exec → exec < t.semi.jobDeadline.toNat) :
    (exec < t.params.execCost.toNat → ∃ t', t.resume pl false now = some t' ∧ Charged t exec t' ∧
        (t'.EdfFields pl ↔ t.EdfFields pl ∨ pl ≠ .hime ∧ t.endOf t.semi.slice ≤ exec)) ∧
      (t.params.execCost.toNat ≤ exec → now ≠ t.semi.suspendTime →
        ∀ t', t.resume pl false now = some t' → ¬Charged t exec t') := by
  have ht : Underway t :=
    hrun.invariant (fun _ _ _ hu hs => hu.step hs) (underway_newJob start hsliced hcheck)
  have hsum : (t.job.execTime + (now - t.semi.suspendTime)).toNat = exec := by
    rw [BitVec.toNat_add, Nat.mod_eq_of_lt (by omega), hexec]
  refine ⟨fun hbudget => ?_, fun hover hslept t' h hcharged => ?_⟩
  · obtain ⟨t', hforward, hcharged, hedf⟩ := ht.fastForwardSlices hexec hbudget hcost hdeadline
    refine ⟨t', ?_, hcharged, hedf⟩
    have hbelow : ¬t.params.execCost ≤ t.job.execTime + (now - t.semi.suspendTime) := by
      rw [BitVec.le_def, hsum]
      omega
    have hconst : t'.constants = t.constants :=
      fastForwardSlices_induction (P := fun u => u.constants = t.constants)
        (fun hu _ hadv => (constants_advance hadv).trans hu) (fun _ hu _ => hu) rfl hforward
    have hsliced' : t'.isSlicedTask = true := by
      rw [isSlicedTask, show t'.slices = t.slices from congrArg Prod.fst hconst]
      exact ht.sliced
    rw [SlicedTask.resume, if_neg hbelow, if_pos ht.sliced, hforward]
    change (if t'.budgetExhausted then none else some t') = some t'
    rw [SlicedTask.budgetExhausted, if_pos hsliced', hcharged.budgetLeft]
    rfl
  rcases ht.resume_uncharged (BitVec.le_def.mpr (by omega)) h with hn | rfl
  · have hsame := hcharged.sameJob
    bv_omega
  have h0 : (now - t'.semi.suspendTime).toNat = 0 := by
    have := hcharged.execTime
    omega
  exact hslept (by bv_omega)

/-- In the first job a suspension in the first slice lasts into the second one. -/
theorem suspension_charged_first_job :
    ∃ t t', Run (BudgetedStep .edfWm) (twoSlices.newJob 1000000)
        [.execute 30000, .block 1030000] t ∧
      t.resume .edfWm false 1070000 = some t' ∧ t.semi.slice = 0 ∧ Charged t 70000 t' ∧
      t'.EdfFields .edfWm := by
  obtain ⟨t, hrun, hslice, hx, hcost, hend, hdeadline, hbudget⟩ : ∃ t,
      Run (BudgetedStep .edfWm) (twoSlices.newJob 1000000) [.execute 30000, .block 1030000] t ∧
        t.semi.slice = 0 ∧ t.job.execTime.toNat + (1070000 - t.semi.suspendTime).toNat = 70000 ∧
        70000 < t.semi.jobExecCost.toNat ∧ t.endOf t.semi.slice ≤ 70000 ∧
        70000 < t.semi.jobDeadline.toNat ∧ 70000 < t.params.execCost.toNat :=
    ⟨_, .cons ⟨trivial, by decide, rfl⟩ (.cons ⟨trivial, trivial, rfl⟩ .nil), rfl,
      by decide, by decide, by decide, by decide, by decide⟩
  obtain ⟨t', hresume, hcharged, hedf⟩ :=
    (@suspension_charged .edfWm (fun _ => true) twoSlices t 1000000 1070000 _ 70000 (by decide)
      (by decide) hrun hx hcost (fun _ _ => hdeadline)).1 hbudget
  exact ⟨t, t', hrun, hresume, hslice, hcharged, hedf.mpr (.inr ⟨by decide, hend⟩)⟩

/-- In a later job the same suspension is not charged. -/
theorem suspension_not_charged_later_job :
    ∃ t t', Run (BudgetedStep .edfWm) (twoSlices.newJob 0)
        [.releaseAt 1000000, .execute 30000, .block 1030000] t ∧
      t.job.execTime + (1070000 - t.semi.suspendTime) < t.semi.jobExecCost ∧
      t.resume .edfWm false 1070000 = some t' ∧ t'.semi.slice = 0 ∧ t'.job.execTime = 30000 :=
  ⟨_, _, .cons ⟨trivial, trivial, rfl⟩ (.cons ⟨trivial, by decide, rfl⟩
    (.cons ⟨trivial, trivial, rfl⟩ .nil)), by decide, rfl, rfl, rfl⟩

end Litmus.SemiPart
