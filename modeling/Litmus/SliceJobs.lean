import Litmus.SemiSystem
import Litmus.SliceInvariant

/-!
# The starts and ends of sliced jobs

`advance_next_slice` exists in three copies, which test whether the job is depleted through
one member of the `semi_part` union.  A job starts in one of two ways: the first one in
`task_new`, every later one by wrapping around to the first slice.
-/

namespace Litmus.SemiPart

open SlicedTask SemiState Runs

/-! ### The three copies of `advance_next_slice` -/

/-- The job is over, and the next one is in its first slice. -/
def NextJob (t t' : SlicedTask) : Prop :=
  t'.semi.slice = 0 ∧ t'.job.jobNo = t.job.jobNo + 1 ∧ t'.job.execTime = 0

def SliceAfter (t t' : SlicedTask) : Prop :=
  t'.semi.slice = t.semi.slice + 1 ∧ t'.job.jobNo = t.job.jobNo ∧ t'.job.execTime = t.job.execTime

/-- Completion was signalled, there is no further slice, or the cost of the job is used up. -/
def JobOver (completionSignaled : Bool) (t : SlicedTask) : Prop :=
  completionSignaled = true ∨ t.semi.slice = t.getLastSlice ∨ t.semi.jobExecCost ≤ t.job.execTime

section

variable {pl : Plugin} {signaled : Bool} {t t' : SlicedTask}

theorem nextJob_startJob (pl : Plugin) (t : SlicedTask) :
    NextJob t (((t.setSlice 0).startJob pl).computeSliceParams pl) := by
  cases pl <;> exact ⟨rfl, rfl, rfl⟩

theorem sliceAfter_computeSliceParams (pl : Plugin) (t : SlicedTask) :
    SliceAfter t ((t.setSlice (t.semi.slice + 1)).computeSliceParams pl) := by
  cases pl <;> exact ⟨rfl, rfl, rfl⟩

theorem NextJob.not_sliceAfter (h : NextJob t t') : ¬SliceAfter t t' := fun h' =>
  Nat.succ_ne_zero _ (h'.1.symm.trans h.1)

theorem nextSlice_eq_zero_iff (hidx : t.semi.slice < t.slices.length) :
    t.nextSlice pl signaled = 0 ↔
      signaled = true ∨ t.semi.slice = t.getLastSlice ∨ t.cdJobExecCost pl ≤ t.job.execTime := by
  unfold nextSlice getLastSlice
  split
  · rename_i hov
    simp only [Bool.or_eq_true, decide_eq_true_eq] at hov
    tauto
  rename_i hov
  simp only [Bool.or_eq_true, decide_eq_true_eq, not_or, Bool.not_eq_true] at hov
  simp only [hov.1, hov.2, Bool.false_eq_true, or_false, false_or]
  rcases Nat.lt_or_eq_of_le (Nat.succ_le_of_lt hidx) with hlt | heq
  · rw [Nat.mod_eq_of_lt hlt]
    omega
  rw [← Nat.succ_eq_add_one, heq, Nat.mod_self]
  omega

theorem advance_outcome (hid : t.semi.slice < t.slices.length) :
    ∃ t', t.advanceNextSlice pl false signaled = some t' ∧
      (t.nextSlice pl signaled = 0 ∧ NextJob t t' ∨
        t.nextSlice pl signaled ≠ 0 ∧ SliceAfter t t') := by
  have hsl : t.isSlicedTask = true := by
    rw [isSlicedTask, bne_iff_ne]
    exact ne_of_gt (Nat.zero_lt_of_lt hid)
  obtain ⟨t', ht'⟩ : ∃ t', t.advanceNextSlice pl false signaled = some t' := by
    simp [advanceNextSlice, hsl]
  refine ⟨t', ht', ?_⟩
  rcases advanceNextSlice_cases hid ht' with ⟨h0, rfl⟩ | ⟨hn, _, rfl⟩
  · exact .inl ⟨h0, nextJob_startJob pl t⟩
  exact .inr ⟨by omega, sliceAfter_computeSliceParams pl t⟩

end

/-- `advance_next_slice` ends the job exactly when it is over, and goes on to the next slice
    otherwise, if and only if in EDF-WM the test gives the same answer for the job's deadline
    as for its cost. -/
theorem advance_ends_job_iff {pl : Plugin} {signaled : Bool} {t : SlicedTask}
    (hidx : t.semi.slice < t.slices.length) :
    ∃ t', t.advanceNextSlice pl false signaled = some t' ∧
      ((NextJob t t' ↔ JobOver signaled t) ∧ (¬JobOver signaled t → SliceAfter t t') ↔
        (pl = .edfWm → signaled = false → t.semi.slice ≠ t.getLastSlice →
          (t.semi.jobDeadline ≤ t.job.execTime ↔ t.semi.jobExecCost ≤ t.job.execTime))) := by
  obtain ⟨t', ht', houtcome⟩ := @advance_outcome pl signaled t hidx
  refine ⟨t', ht', ?_⟩
  have hends : (NextJob t t' ↔ t.nextSlice pl signaled = 0) ∧
      (SliceAfter t t' ↔ t.nextSlice pl signaled ≠ 0) := by
    rcases houtcome with ⟨h0, hn⟩ | ⟨hpos, hafter⟩
    · exact ⟨iff_of_true hn h0, iff_of_false hn.not_sliceAfter (not_not.mpr h0)⟩
    · exact ⟨iff_of_false (fun hn => hn.not_sliceAfter hafter) hpos, iff_of_true hafter hpos⟩
  have hagree : (NextJob t t' ↔ JobOver signaled t) ∧ (¬JobOver signaled t → SliceAfter t t') ↔
      (t.nextSlice pl signaled = 0 ↔ JobOver signaled t) := by
    rw [hends.1, hends.2]
    exact ⟨And.left, fun h => ⟨h, fun hnot h0 => hnot (h.mp h0)⟩⟩
  rw [hagree, nextSlice_eq_zero_iff hidx, JobOver]
  rcases pl with _ | _ | _
  · -- EDF-WM reads the deadline
    by_cases hlast : t.semi.slice = t.getLastSlice
    · simp [hlast]
    · cases signaled <;> simp [cdJobExecCost, hlast]
  · simp [cdJobExecCost]
  · simp [cdJobExecCost]

/-- A C=D job that has used up its cost in its first slice is over. -/
theorem advance_ends_job_iff_depleted :
    ∃ t t', Run (SliceStep .cd) (twoSlices.newJob 0) [.releaseAt 1000000, .execute 100000] t ∧
      t.semi.slice < t.slices.length ∧ t.advanceNextSlice .cd false false = some t' ∧
      JobOver false t ∧ NextJob t t' := by
  obtain ⟨t, hrun, hidx, hover⟩ : ∃ t,
      Run (SliceStep .cd) (twoSlices.newJob 0) [.releaseAt 1000000, .execute 100000] t ∧
        t.semi.slice < t.slices.length ∧ t.semi.jobExecCost ≤ t.job.execTime :=
    ⟨_, .cons ⟨trivial, rfl⟩ (.cons ⟨by decide, rfl⟩ .nil), by decide, by decide⟩
  obtain ⟨t', hadvance, hiff⟩ := @advance_ends_job_iff .cd false t hidx
  have hagree := hiff.mpr (fun h => by cases h)
  exact ⟨t, t', hrun, hidx, hadvance, .inr (.inr hover), hagree.1.mpr (.inr (.inr hover))⟩

/-- An EDF-WM job that has used up its cost in its first slice goes on to the second one. -/
theorem advance_ignores_depletion :
    ∃ t t', Run (SliceStep .edfWm) (twoSlices.newJob 0) [.releaseAt 1000000, .execute 100000] t ∧
      JobOver false t ∧ t.advanceNextSlice .edfWm false false = some t' ∧
      ¬NextJob t t' ∧ t'.semi.slice = 1 :=
  ⟨_, _, .cons ⟨trivial, rfl⟩ (.cons ⟨by decide, rfl⟩ .nil),
    .inr (.inr (by decide)), rfl, fun h => absurd h.1 (by decide), rfl⟩

/-! ### The two ways to start a job -/

/-- The fields by which a sliced job is budgeted, prioritised and migrated. -/
structure JobFields where
  jobRelease : LtTime
  jobDeadline : LtTime
  slice : Nat
  execTime : LtTime
  sliceStart : LtTime
  deadline : LtTime
  release : LtTime
  execCost : LtTime
  cpu : BitVec 32
deriving DecidableEq

def SlicedTask.jobFields (pl : Plugin) (t : SlicedTask) : JobFields where
  jobRelease := t.jobRelease pl
  jobDeadline := t.semi.jobDeadline
  slice := t.semi.slice
  execTime := t.job.execTime
  sliceStart := t.semi.execTime
  deadline := t.job.deadline
  release := t.job.release
  execCost := t.params.execCost
  cpu := t.params.cpu

def SlicedTask.firstSlice (t : SlicedTask) : Slice := t.slices.getD 0 default

/-- The whole job is like its first slice.  HIME gives the slices of a job the deadline 0. -/
def LikeFirstSlice (pl : Plugin) (start : LtTime) (t : SlicedTask) : Prop :=
  t.params.execCost = t.firstSlice.budget ∧ match pl with
    | .edfWm => t.params.period = t.firstSlice.deadline ∧ t.firstSlice.offset = 0
    | .cd => t.params.period = t.firstSlice.deadline
    | .hime => start + t.params.period = 0

section

variable {pl : Plugin} {online : BitVec 32 → Bool} {t u u' : SlicedTask} {start : LtTime}

theorem checkParams_first (hsl : t.isSlicedTask = true) (hck : t.checkParams pl online = true) :
    t.params.cpu = t.firstSlice.cpu ∧ t.slices.length ≠ 1 ∧
      t.params.execCost = budgetsUpTo t.slices t.slices.length ∧
      ∀ s ∈ t.slices, MIN_SLICE_SIZE ≤ s.budget := by
  have hpos := length_pos_of_sliced hsl
  unfold checkParams at hck
  rw [hsl] at hck
  simp only [Bool.not_true, Bool.false_or, Bool.and_eq_true, List.all_eq_true, Bool.not_eq_true',
    Bool.or_eq_false_iff, beq_eq_false_iff_ne, beq_iff_eq, decide_eq_false_iff_not,
    BitVec.not_lt] at hck
  obtain ⟨⟨⟨⟨⟨⟨⟨⟨hone, -⟩, hc⟩, hcos⟩, -⟩, hbud⟩, -⟩, -⟩, -⟩ := hck
  refine ⟨?_, hone, hcos, hbud⟩
  obtain ⟨s, hs, heq⟩ := (Option.any_eq_true _ _).mp hc
  rw [firstSlice, List.getD_eq_getElem?_getD, ← List.head?_eq_getElem?, hs]
  exact beq_iff_eq.mp heq

theorem jobFields_newJob (hsl : t.isSlicedTask = true) :
    (t.newJob start).jobFields pl =
      { jobRelease := start, jobDeadline := start + t.params.period, slice := 0, execTime := 0
        sliceStart := 0, deadline := start + t.params.period, release := start
        execCost := t.params.execCost, cpu := t.params.cpu } := by
  have hsliced' : (t.modify (RtTask.releaseAt start)).isSlicedTask = true := hsl
  unfold newJob
  rw [if_pos hsliced']
  cases pl <;> rfl

theorem jobFields_releaseAt (hsl : u.isSlicedTask = true)
    (h : u.releaseAt pl false start = some u') :
    u'.jobFields pl =
      { jobRelease := start, jobDeadline := start + u.params.period, slice := 0, execTime := 0
        sliceStart := 0
        deadline :=
          match pl with
          | .edfWm => start + u.firstSlice.deadline
          | .cd => start + u.firstSlice.deadline
          | .hime => 0
        release :=
          match pl with
          | .edfWm => start + u.firstSlice.offset
          | .cd => start
          | .hime => start
        execCost := u.firstSlice.budget, cpu := u.firstSlice.cpu } := by
  have hpos := length_pos_of_sliced hsl
  unfold releaseAt at h
  rw [if_pos hsl] at h
  obtain ⟨v, hv, rfl⟩ := Option.map_eq_some_iff.mp h
  rcases advanceNextSlice_cases (Nat.sub_lt hpos one_pos) hv with ⟨-, rfl⟩ | ⟨-, hlt, -⟩
  · cases pl <;> simp [jobFields, jobRelease, SlicedTask.modify, RtTask.setRtFlags, startJob,
      completeSlicedJob, wholeJob, cacheJob, RtTask.prepareForNextPeriod, computeSliceParams,
      sliceJob, sliceBudget, slice, setSlice, firstSlice]
  have hla : u.slices.length - 1 + 1 < u.slices.length := hlt
  omega

theorem cost_ne_first_budget (hsl : t.isSlicedTask = true)
    (hck : t.checkParams pl online = true) (hfit : budgetOf t.slices t.slices.length < 2 ^ 64) :
    t.params.execCost ≠ t.firstSlice.budget := by
  obtain ⟨-, hone, hcos, hbud⟩ := checkParams_first hsl hck
  have hpos := length_pos_of_sliced hsl
  have htw : 1 < t.slices.length := by omega
  have hmin : MIN_SLICE_SIZE.toNat ≤ (t.slices.getD 1 default).budget.toNat := by
    apply BitVec.le_def.mp (hbud _ _)
    rw [List.getD_eq_getElem?_getD, List.getElem?_eq_getElem htw]
    exact List.getElem_mem htw
  have hle := budgetOf_le_length t.slices 2
  rw [budgetOf_succ htw, budgetOf_succ hpos] at hle
  intro heq
  have hnat := congrArg BitVec.toNat (hcos.symm.trans heq)
  rw [toNat_budgetsUpTo hfit le_rfl, firstSlice] at hnat
  have : MIN_SLICE_SIZE.toNat = 50000 := rfl
  omega

end

/-- `task_new` and the plugin's `release_at` start a job alike if and only if the whole job is
    like its first slice.  The budgets of an admitted task rule this out, unless their sum
    wraps. -/
theorem newJob_agrees_iff {pl : Plugin} {online : BitVec 32 → Bool} {t u : SlicedTask}
    (hsliced : t.isSlicedTask = true) (hcheck : t.checkParams pl online = true)
    (hconst : u.constants = t.constants) (start : LtTime) :
    ∃ u', u.releaseAt pl false start = some u' ∧
      ((t.newJob start).jobFields pl = u'.jobFields pl ↔ LikeFirstSlice pl start t) ∧
      (budgetOf t.slices t.slices.length < 2 ^ 64 →
        (t.newJob start).jobFields pl ≠ u'.jobFields pl) := by
  have hslices : u.slices = t.slices := congrArg Prod.fst hconst
  have hperiod : u.params.period = t.params.period := congrArg (fun c => c.2.1) hconst
  have hsliced' : u.isSlicedTask = true := by
    rwa [isSlicedTask, hslices]
  have hfirst : u.firstSlice = t.firstSlice := by
    rw [firstSlice, firstSlice, hslices]
  obtain ⟨u', hu'⟩ : ∃ u', u.releaseAt pl false start = some u' := by
    unfold releaseAt advanceNextSlice
    rw [if_pos hsliced']
    simpa [isSlicedTask, setSlice] using hsliced'
  have hiff : (t.newJob start).jobFields pl = u'.jobFields pl ↔ LikeFirstSlice pl start t := by
    have hcpu := (checkParams_first hsliced hcheck).1
    rw [jobFields_newJob hsliced, jobFields_releaseAt hsliced' hu', hperiod, hfirst]
    cases pl <;> simp [LikeFirstSlice, hcpu, and_left_comm, and_comm]
  refine ⟨u', hu', hiff, fun hfit hagree => ?_⟩
  exact cost_ne_first_budget hsliced hcheck hfit (hiff.mp hagree).1

/-- The budgets of the second and third slice add up to 2^64. -/
def wrappingSlices : SlicedTask :=
  admitted
    { execCost := 50000, period := 200000, cpu := 0, budgetPolicy := .preciseEnforcement }
    [{ cpu := 0, deadline := 200000, budget := 50000, offset := 0 },
      { cpu := 1, deadline := 200000, budget := 0x8000000000000000, offset := 0 },
      { cpu := 0, deadline := 200000, budget := 0x8000000000000000, offset := 0 }]

theorem newJob_agrees_iff_wrapping_budgets :
    ∃ u', (wrappingSlices.newJob 0).releaseAt .cd false 1000000 = some u' ∧
      wrappingSlices.isSlicedTask = true ∧
      wrappingSlices.checkParams .cd (fun _ => true) = true ∧
      (wrappingSlices.newJob 1000000).jobFields .cd = u'.jobFields .cd := by
  obtain ⟨u', hu', hiff, -⟩ :=
    @newJob_agrees_iff .cd (fun _ => true) wrappingSlices (wrappingSlices.newJob 0)
      (by decide) (by decide) (constants_newJob 0 _) 1000000
  exact ⟨u', hu', by decide, by decide, hiff.mpr ⟨rfl, rfl⟩⟩

/-- After `task_new` the first slice has the cost and the deadline of the whole job. -/
theorem newJob_not_in_first_slice :
    ∃ u', twoSlices.checkParams .edfWm (fun _ => true) = true ∧
      (twoSlices.newJob 0).releaseAt .edfWm false 1000000 = some u' ∧
      (twoSlices.newJob 1000000).params.execCost = 100000 ∧ u'.params.execCost = 50000 ∧
      (twoSlices.newJob 1000000).job.deadline = 1200000 ∧ u'.job.deadline = 1100000 :=
  ⟨_, by decide, rfl, rfl, rfl, rfl, rfl⟩

end Litmus.SemiPart
