import Litmus.RtTask

/-!
# Sliced tasks

What `sched_edf_wm.c`, `sched_cd.c` and `sched_hime.c` do to one task.  A job of a sliced
task runs as a sequence of slices, each on its own CPU with its own budget.  The plugins
overwrite the job's deadline, cost and CPU with those of the current slice, and keep what
they overwrote in `semi_part`.  The three files differ in the fields they overwrite;
`Plugin` says which of them is meant.  `none` is a `BUG_ON`.
-/

namespace Litmus.SemiPart

inductive Plugin where
  | edfWm
  | cd
  | hime
deriving DecidableEq, Repr

/-- `struct edf_wm_slice`.  C=D slices have no offset, HIME slices no deadline either. -/
structure Slice where
  cpu : BitVec 32
  deadline : LtTime
  budget : LtTime
  offset : LtTime
deriving DecidableEq, Repr, Inhabited

/-- `rt_param.semi_part`: the state of the current job's slices.  Only EDF-WM has
    `job_release`. -/
structure SliceState where
  /-- at which `exec_time` did the current slice start? -/
  execTime : LtTime
  suspendTime : LtTime
  jobRelease : LtTime
  jobDeadline : LtTime
  jobExecCost : LtTime
  /-- index of the current slice -/
  slice : Nat
deriving DecidableEq, Repr

/-- A task with the parameters of its slices; a regular task has none. -/
structure SlicedTask extends RtTask where
  slices : List Slice
  semi : SliceState
deriving DecidableEq, Repr

namespace SlicedTask

def isSlicedTask (t : SlicedTask) : Bool := t.slices.length != 0

def getLastSlice (t : SlicedTask) : Nat := t.slices.length - 1

/-- `semi_part.*.slice` -/
def slice (t : SlicedTask) : Slice := t.slices.getD t.semi.slice default

def sliceBudget (t : SlicedTask) : LtTime := t.slice.budget

def setSlice (idx : Nat) (t : SlicedTask) : SlicedTask :=
  { t with semi := { t.semi with slice := idx } }

def modify (f : RtTask → RtTask) (t : SlicedTask) : SlicedTask :=
  { t with toRtTask := f t.toRtTask }

def updateTime (delta : LtTime) (t : SlicedTask) : SlicedTask :=
  t.modify (RtTask.updateTime delta)

/-! ### Slice budgets -/

def sliceExecTime (t : SlicedTask) : LtTime := t.job.execTime - t.semi.execTime

def sliceBudgetExhausted (t : SlicedTask) : Bool := decide (t.sliceBudget ≤ t.sliceExecTime)

def sliceBudgetRemaining (t : SlicedTask) : LtTime := t.sliceBudget - t.sliceExecTime

/-- `wm_budget_exhausted`, `cd_budget_exhausted`, `hime_budget_exhausted` -/
def budgetExhausted (t : SlicedTask) : Bool :=
  if t.isSlicedTask then t.sliceBudgetExhausted else t.toRtTask.budgetExhausted

/-! ### Moving from slice to slice -/

def sliceJob (pl : Plugin) (t : SlicedTask) : RtJob :=
  match pl with
  | .edfWm =>
      { t.job with
        deadline := t.semi.jobRelease + t.slice.deadline
        release := t.semi.jobRelease + t.slice.offset }
  | .cd => { t.job with deadline := t.job.release + t.slice.deadline }
  | .hime => t.job

def computeSliceParams (pl : Plugin) (t : SlicedTask) : SlicedTask :=
  { t with
    job := t.sliceJob pl
    params :=
      { t.params with
        execCost := t.params.execCost + t.sliceBudget
        cpu := t.slice.cpu }
    semi := { t.semi with execTime := t.job.execTime } }

/-- The job parameters as the generic code knows them. -/
def wholeJob (pl : Plugin) (t : SlicedTask) : RtJob :=
  match pl with
  | .edfWm => { t.job with release := t.semi.jobRelease, deadline := t.semi.jobDeadline }
  | .cd => { t.job with deadline := t.semi.jobDeadline }
  | .hime => { t.job with deadline := t.semi.jobDeadline }

def cacheJob (pl : Plugin) (t : SlicedTask) : SlicedTask :=
  match pl with
  | .edfWm =>
      { t with semi :=
          { t.semi with jobRelease := t.job.release, jobDeadline := t.job.deadline } }
  | .cd => { t with semi := { t.semi with jobDeadline := t.job.deadline } }
  | .hime => { t with semi := { t.semi with jobDeadline := t.job.deadline } }

def completeSlicedJob (pl : Plugin) (t : SlicedTask) : SlicedTask :=
  let t :=
    { t with
      job := t.wholeJob pl
      params := { t.params with execCost := t.semi.jobExecCost } }
  (t.modify RtTask.prepareForNextPeriod).cacheJob pl

/-- `semi_part.cd.job_exec_cost`, which all three files read.  `semi_part` is a union, and
    in EDF-WM's member this word is `job_deadline`. -/
def cdJobExecCost (pl : Plugin) (t : SlicedTask) : LtTime :=
  match pl with
  | .edfWm => t.semi.jobDeadline
  | .cd => t.semi.jobExecCost
  | .hime => t.semi.jobExecCost

/-- The index that `advance_next_slice` moves to. -/
def nextSlice (pl : Plugin) (completionSignaled : Bool) (t : SlicedTask) : Nat :=
  if completionSignaled || decide (t.cdJobExecCost pl ≤ t.job.execTime) then 0
  else (t.semi.slice + 1) % t.slices.length

/-- What `advance_next_slice` does when it moves to the first slice.  HIME gives a new job
    the maximum priority. -/
def startJob (pl : Plugin) (t : SlicedTask) : SlicedTask :=
  let t := t.completeSlicedJob pl
  let t := { t with params := { t.params with execCost := 0 } }
  match pl with
  | .edfWm => t
  | .cd => t
  | .hime =>
      { t with
        semi := { t.semi with jobDeadline := t.job.deadline }
        job := { t.job with deadline := 0 } }

/-- `queued` is `is_queued(t)`. -/
def advanceNextSlice (pl : Plugin) (queued completionSignaled : Bool) (t : SlicedTask) :
    Option SlicedTask :=
  if !t.isSlicedTask || queued then none
  else
    let idx := t.nextSlice pl completionSignaled
    let t := t.setSlice idx
    let t := if idx = 0 then t.startJob pl else t
    some (t.computeSliceParams pl)

/-- The loop of `fast_forward_slices`, for at most `fuel` iterations. -/
def fastForwardLoop (pl : Plugin) (queued : Bool) :
    Nat → LtTime → SlicedTask → Option SlicedTask
  | 0, _, _ => none
  | fuel + 1, timePassed, t =>
      if timePassed ≠ 0 ∧ t.sliceBudgetRemaining ≤ timePassed then
        let remaining := t.sliceBudgetRemaining
        let t := t.updateTime remaining
        if !t.sliceBudgetExhausted || t.sliceBudgetRemaining != 0 ||
            t.semi.slice == t.getLastSlice then none
        else do
          let t ← t.advanceNextSlice pl queued false
          fastForwardLoop pl queued fuel (timePassed - remaining) t
      else some (t.updateTime timePassed)

/-- A suspension may race with the end of a slice: `schedule` does not process it when the
    task blocks. -/
def endSlice (pl : Plugin) (queued : Bool) (t : SlicedTask) : Option SlicedTask :=
  if t.budgetExhausted then t.advanceNextSlice pl queued false else some t

/-- Every iteration uses up some of `timePassed`, so `timePassed` bounds their number. -/
def fastForwardSlices (pl : Plugin) (queued : Bool) (timePassed : LtTime) (t : SlicedTask) :
    Option SlicedTask :=
  if t.budgetRemaining ≤ timePassed then none
  else do
    let t ← t.endSlice pl queued
    fastForwardLoop pl queued (timePassed.toNat + 1) timePassed t

/-! ### Releases and suspensions -/

/-- `wm_release_at`, `cd_release_at`, `hime_release_at` -/
def releaseAt (pl : Plugin) (queued : Bool) (start : LtTime) (t : SlicedTask) :
    Option SlicedTask :=
  if t.isSlicedTask then
    -- simulate wrapping around
    let t := { t with semi := { t.semi with jobDeadline := start } }
    let t := t.setSlice t.getLastSlice
    (t.advanceNextSlice pl queued false).map (modify (RtTask.setRtFlags .running))
  else some (t.modify (RtTask.releaseAt start))

/-- `wm_earliest_release`, `cd_earliest_release`, `hime_earliest_release` -/
def earliestRelease (now : LtTime) (t : SlicedTask) : LtTime :=
  let deadline := if t.isSlicedTask then t.semi.jobDeadline else t.job.deadline
  if ltBefore deadline now then now else deadline

/-- The time stamp of `wm_task_block`, `cd_task_block`, `hime_task_block`. -/
def suspend (now : LtTime) (t : SlicedTask) : SlicedTask :=
  { t with semi := { t.semi with suspendTime := now } }

/-- The accounting of `wm_task_wake_up`, `cd_task_wake_up`, `hime_task_wake_up`: either the
    suspension is charged to the current job, or a new one is released. -/
def resume (pl : Plugin) (queued : Bool) (now : LtTime) (t : SlicedTask) :
    Option SlicedTask :=
  let sleepTime := now - t.semi.suspendTime
  if t.params.execCost ≤ t.job.execTime + sleepTime then
    if t.job.jobNo ≠ 2 ∧ t.job.execTime = 0 then
      t.releaseAt pl queued (t.earliestRelease now)
    else some t
  else if t.isSlicedTask then do
    let t ← t.fastForwardSlices pl queued sleepTime
    if t.budgetExhausted then none else some t
  else some (t.updateTime sleepTime)

def regularJobCompletion (t : SlicedTask) : SlicedTask :=
  t.modify fun t => RtTask.prepareForNextPeriod (RtTask.setRtFlags .sleep t)

def jobOrSliceCompletion (pl : Plugin) (queued completionSignaled : Bool) (t : SlicedTask) :
    Option SlicedTask :=
  if t.isSlicedTask then t.advanceNextSlice pl queued completionSignaled
  else some t.regularJobCompletion

/-- The job set-up of `wm_task_new`, `cd_task_new`, `hime_task_new`. -/
def newJob (now : LtTime) (t : SlicedTask) : SlicedTask :=
  let t := t.modify (RtTask.releaseAt now)
  if t.isSlicedTask then
    { t with
      semi :=
        { t.semi with
          execTime := 0
          jobRelease := t.job.release
          jobDeadline := t.job.deadline
          jobExecCost := t.params.execCost
          slice := 0 }
      job := { t.job with execTime := 0 } }
  else t

/-! ### Admission -/

def MAX_SLICES : Nat := 24

def MIN_SLICE_SIZE : LtTime := 50000

/-- The budgets of the first `n` slices, added as the 64-bit code adds them. -/
def budgetsUpTo (slices : List Slice) (n : Nat) : LtTime :=
  ((slices.take n).map Slice.budget).sum

/-- The two tests that only EDF-WM makes: slices do not overlap, and each budget fits
    between the slice's offset and its deadline. -/
def windowsFit (slices : List Slice) : Bool :=
  (slices.zip slices.tail).all (fun p => !decide (p.2.offset < p.1.deadline)) && slices.all fun s =>
      !(ltBefore s.deadline s.offset || decide (s.deadline - s.offset < s.budget))

/-- `wm_check_params`, `cd_check_params`, `hime_check_params` -/
def checkParams (pl : Plugin) (cpuOnline : BitVec 32 → Bool) (t : SlicedTask) : Bool :=
  !t.isSlicedTask || (!(t.slices.length == 1 || decide (MAX_SLICES < t.slices.length)) &&
      t.slices.head?.any (fun s => t.params.cpu == s.cpu) &&
      t.params.execCost == budgetsUpTo t.slices t.slices.length &&
      (pl != .edfWm || windowsFit t.slices) &&
      t.slices.all (fun s => !decide (s.budget < MIN_SLICE_SIZE)) &&
      (t.slices.zip t.slices.tail).all (fun p => p.1.cpu != p.2.cpu) &&
      t.slices.all (fun s => cpuOnline s.cpu) &&
      t.params.budgetPolicy == .preciseEnforcement)

end SlicedTask

end Litmus.SemiPart
