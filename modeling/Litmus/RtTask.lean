import Litmus.WrapOrder

/-!
# Tasks, jobs and time

The parts of `rt_param.h`, `litmus.h` and `jobs.c` that the schedulers share: 64-bit
nanosecond times compared by the sign of their difference, the real-time fields of a
task, and the job bookkeeping.
-/

namespace Litmus

open WrapOrder

/-! ### Time -/

/-- `lt_t` -/
abbrev LtTime := BitVec 64

def ltAfter (a b : LtTime) : Bool := before b a

def ltBefore (a b : LtTime) : Bool := ltAfter b a

def ltAfterEq (a b : LtTime) : Bool := !before a b

def ltBeforeEq (a b : LtTime) : Bool := ltAfterEq b a

theorem ltBefore_iff {base a b : LtTime} (ha : InWindow base a) (hb : InWindow base b) :
    ltBefore a b ↔ offset base a < offset base b :=
  before_iff_of_inWindow ha hb

/-! ### Tasks -/

abbrev TaskId := Nat

/-- `budget_policy_t` -/
inductive BudgetPolicy where
  | noEnforcement
  | quantumEnforcement
  | preciseEnforcement
deriving DecidableEq, Repr

/-- The values of `rt_param.flags` that the schedulers write. -/
inductive RtFlag where
  | running
  | sleep
deriving DecidableEq, Repr

/-- The user-controlled parameters, `struct rt_task`. -/
structure TaskParams where
  execCost : LtTime
  period : LtTime
  cpu : BitVec 32
  budgetPolicy : BudgetPolicy
deriving DecidableEq, Repr

/-- The timing parameters, `struct rt_job`. -/
structure RtJob where
  release : LtTime
  deadline : LtTime
  execTime : LtTime
  jobNo : BitVec 32
deriving DecidableEq, Repr

/-- The fields of a task that the schedulers read and write. -/
structure RtTask where
  /-- `is_realtime`: the policy is `SCHED_LITMUS` -/
  realtime : Bool
  /-- `is_running`: runnable, or being preempted -/
  running : Bool
  flags : RtFlag
  params : TaskParams
  job : RtJob
  inhTask : Option TaskId
deriving DecidableEq, Repr

/-- The state an admitted task starts from: `reinit_litmus_state` has cleared
    everything but the parameters. -/
def RtTask.admitted (params : TaskParams) : RtTask where
  realtime := true
  running := true
  flags := .running
  params := params
  job := { release := 0, deadline := 0, execTime := 0, jobNo := 0 }
  inhTask := none

namespace RtTask

def setRtFlags (f : RtFlag) (t : RtTask) : RtTask := { t with flags := f }

def setRunning (b : Bool) (t : RtTask) : RtTask := { t with running := b }

def setRealtime (b : Bool) (t : RtTask) : RtTask := { t with realtime := b }

def budgetExhausted (t : RtTask) : Bool := decide (t.params.execCost ≤ t.job.execTime)

def budgetRemaining (t : RtTask) : LtTime :=
  if t.budgetExhausted then 0 else t.params.execCost - t.job.execTime

def budgetEnforced (t : RtTask) : Bool := t.params.budgetPolicy != .noEnforcement

def isReleased (t : RtTask) (now : LtTime) : Bool := ltBeforeEq t.job.release now

def isTardy (t : RtTask) (now : LtTime) : Bool := ltBeforeEq t.job.deadline now

/-- `update_time_litmus`: charge `delta` to the current job. -/
def updateTime (delta : LtTime) (t : RtTask) : RtTask :=
  { t with job := { t.job with execTime := t.job.execTime + delta } }

/-- A time that does not exceed what remains of the budget fits on top of `exec_time`. -/
theorem add_lt_execCost {t : RtTask} {time : LtTime} (h : ¬t.budgetRemaining ≤ time) :
    t.job.execTime.toNat + time.toNat < t.params.execCost.toNat := by
  have hlt : time < t.budgetRemaining := BitVec.not_le.mp h
  unfold budgetRemaining budgetExhausted at hlt
  split at hlt
  · exact absurd hlt (by simp [BitVec.lt_def])
  rename_i hlef
  have hle := BitVec.le_of_lt (BitVec.not_le.mp (by simpa using hlef))
  have hlt := BitVec.lt_def.mp hlt
  rw [BitVec.toNat_sub_of_le hle] at hlt
  omega

/-! ### Jobs -/

def prepareForNextPeriod (t : RtTask) : RtTask :=
  { t with job :=
      { release := t.job.deadline
        deadline := t.job.deadline + t.params.period
        execTime := 0
        jobNo := t.job.jobNo + 1 } }

def releaseAt (start : LtTime) (t : RtTask) : RtTask :=
  setRtFlags .running (prepareForNextPeriod { t with job := { t.job with deadline := start } })

end RtTask

/-! ### Task tables -/

abbrev TaskTable := TaskId → RtTask

def TaskTable.modify (task : TaskTable) (t : TaskId) (f : RtTask → RtTask) : TaskTable :=
  fun u => if u = t then f (task t) else task u

@[simp] theorem TaskTable.modify_self (task : TaskTable) (t : TaskId) (f : RtTask → RtTask) :
    task.modify t f t = f (task t) := if_pos rfl

theorem TaskTable.modify_of_ne (task : TaskTable) {t u : TaskId} (f : RtTask → RtTask) (h : u ≠ t) :
    task.modify t f u = task u := if_neg h

theorem TaskTable.modify_field {β : Type} (g : RtTask → β) (f : RtTask → RtTask)
    (hf : ∀ p, g (f p) = g p) (task : TaskTable) (t u : TaskId) :
    g (task.modify t f u) = g (task u) := by
  by_cases hu : u = t
  · subst hu
    rw [modify_self, hf]
  rw [modify_of_ne _ _ hu]

end Litmus
