import Litmus.EdfCommon
import Litmus.Runs

/-!
# PSN-EDF

The scheduler of `sched_psn_edf.c`.  Each CPU has an EDF domain and a `scheduled` slot under
one lock, and a task stays on the CPU it was admitted to.  `none` is a `BUG_ON`, or the removal
from the ready queue of a task that is in another heap.
-/

namespace Litmus.PsnEdf

open Function

structure PsnTask extends RtTask where
  /-- `is_np`: the task is in a non-preemptive section -/
  np : Bool

/-- `psnedf_domain_t` -/
structure PsnDomain where
  domain : RtDomain
  scheduled : Option TaskId
  /-- a reschedule of the CPU has been requested since its last `psnedf_schedule` -/
  resched : Bool

/-- A machine with `n` CPUs. -/
structure PsnState (n : Nat) where
  task : TaskId → PsnTask
  dom : Fin n → PsnDomain

namespace PsnState

variable {n : Nat}

def table (st : PsnState n) : TaskTable := fun t => (st.task t).toRtTask

/-- `edf_ready_order` -/
def order (st : PsnState n) : TaskId → TaskId → Bool := edfReadyOrder st.table

def setTask (t : TaskId) (p : PsnTask) (st : PsnState n) : PsnState n :=
  { st with task := update st.task t p }

def modify (t : TaskId) (f : RtTask → RtTask) (st : PsnState n) : PsnState n :=
  st.setTask t { st.task t with toRtTask := f (st.task t).toRtTask }

def setCpu (c : Fin n) (d : PsnDomain) (st : PsnState n) : PsnState n :=
  { st with dom := update st.dom c d }

def setDomain (c : Fin n) (edf : RtDomain) (st : PsnState n) : PsnState n :=
  st.setCpu c { st.dom c with domain := edf }

def setScheduled (c : Fin n) (t : Option TaskId) (st : PsnState n) : PsnState n :=
  st.setCpu c { st.dom c with scheduled := t }

def setResched (c : Fin n) (b : Bool) (st : PsnState n) : PsnState n :=
  st.setCpu c { st.dom c with resched := b }

/-- `is_queued`: the task's heap node is in a heap of some domain. -/
def isQueued (st : PsnState n) (t : TaskId) : Bool :=
  (List.finRange n).any fun c => (st.dom c).domain.isQueued t

def taskPedf (st : PsnState n) (t : TaskId) : Option (Fin n) :=
  if h : (st.task t).params.cpu.toNat < n then some ⟨_, h⟩ else none

/-! ### Queues -/

/-- `preempt`: a task in a non-preemptive section is left alone. -/
def preempt (c : Fin n) (st : PsnState n) : PsnState n :=
  match (st.dom c).scheduled with
  | some t => if (st.task t).np then st else st.setResched c true
  | none => st.setResched c true

/-- `psnedf_check_resched`; looking at the ready queue may fill its cache. -/
def psnedfCheckResched (c : Fin n) (st : PsnState n) : PsnState n :=
  let needed := edfPreemptionNeeded st.table (st.dom c).domain (st.dom c).scheduled
  if needed.1 then (st.setDomain c needed.2).preempt c else st.setDomain c needed.2

def requeue (now : LtTime) (c : Fin n) (t : TaskId) (st : PsnState n) : Option (PsnState n) :=
  let st := st.modify t (RtTask.setRtFlags .running)
  if (st.task t).isReleased now then
    if st.isQueued t then none
    else ((st.dom c).domain.addReady st.order t).map fun edf =>
      (st.setDomain c edf).psnedfCheckResched c
  else
    some (st.setDomain c ((st.dom c).domain.addRelease st.order (st.task t).job.release t))

/-- The default `release_jobs`. -/
def releaseJobs (c : Fin n) (i : Nat) (st : PsnState n) : Option (PsnState n) :=
  ((st.dom c).domain.mergeFired st.order i).map fun edf =>
    (st.setDomain c edf).psnedfCheckResched c

/-! ### Scheduling -/

def jobCompletion (p : RtTask) : RtTask := (p.setRtFlags .sleep).prepareForNextPeriod

def outOfTime (p : PsnTask) : Bool := p.budgetEnforced && p.budgetExhausted

/-- `!np && (out_of_time || sleep) && !blocks` -/
def completes (p : PsnTask) : Bool :=
  !p.np && (outOfTime p || p.flags == .sleep) && p.running

/-- `next = __take_ready(edf)` and what follows it. -/
def takeNext (c : Fin n) (st : PsnState n) : PsnState n :=
  let next := ((st.dom c).domain.takeReady st.order).1
  let edf := ((st.dom c).domain.takeReady st.order).2
  let st := st.setCpu c { domain := edf, scheduled := next, resched := false }
  match next with
  | some u => st.modify u (RtTask.setRtFlags .running)
  | none => st

/-- `psnedf_schedule` for the scheduled task `t`, which is also `prev`. -/
def scheduleTask (now : LtTime) (c : Fin n) (t : TaskId) (preempt : Bool) (st : PsnState n) :
    Option (PsnState n) :=
  let p := st.task t
  let blocks := !p.running
  let resched := preempt || blocks || completes p
  let st := if completes p then st.modify t jobCompletion else st
  if (!p.np || blocks) && resched then
    (if blocks then some st else st.requeue now c t).map (takeNext c)
  else some ((st.setResched c false).modify t (RtTask.setRtFlags .running))

def psnedfSchedule (now : LtTime) (c : Fin n) (prev : TaskId) (st : PsnState n) :
    Option (PsnState n) :=
  let needed := edfPreemptionNeeded st.table (st.dom c).domain (some prev)
  match (st.dom c).scheduled with
  | none => some ((st.setDomain c needed.2).takeNext c)
  | some t =>
      if t ≠ prev || !(st.task prev).realtime then none
      else (st.setDomain c needed.2).scheduleTask now c t needed.1

/-! ### The other entry points -/

def psnedfTaskNew (now requeued : LtTime) (t : TaskId) (running : Bool) (st : PsnState n) :
    Option (PsnState n) :=
  (st.taskPedf t).bind fun c =>
    let st := st.modify t (RtTask.releaseAt now)
    if running then
      if (st.dom c).scheduled.isSome then none else some (st.setScheduled c (some t))
    else (st.requeue requeued c t).map (preempt c)

/-- The job of a task that wakes up; `exitSem` says that its flags are `RT_F_EXIT_SEM`. -/
def wakeJob (now : LtTime) (exitSem : Bool) (p : RtTask) : RtTask :=
  if p.isTardy now && !exitSem then p.releaseAt now else p

def psnedfTaskWakeUp (now requeued : LtTime) (exitSem : Bool) (t : TaskId) (st : PsnState n) :
    Option (PsnState n) :=
  (st.taskPedf t).bind fun c =>
    if st.isQueued t then none
    else
      let st := st.modify t (wakeJob now exitSem)
      if (st.dom c).scheduled ≠ some t then st.requeue requeued c t else some st

def psnedfTaskBlock (t : TaskId) (st : PsnState n) : Option (PsnState n) :=
  if !(st.task t).realtime || st.isQueued t then none else some st

def psnedfTaskExit (t : TaskId) (st : PsnState n) : Option (PsnState n) :=
  (st.taskPedf t).bind fun c =>
    (if st.isQueued t then
      ((st.dom c).domain.remove st.order t).map fun edf => st.setDomain c edf
    else some st).map fun st =>
      (if (st.dom c).scheduled = some t then st.setScheduled c none else st).preempt c

end PsnState

/-! ### The machine as a transition system -/

/-- One step: an entry point of the plugin with what the kernel does around it, or a step of a
    task or of a timer.  A block and the `psnedf_schedule` that follows it are one step, for
    which the kernel holds the run queue's lock. -/
inductive PsnOp (n : Nat) where
  | schedule (c : Fin n) (prev : TaskId) (now : LtTime)
  | block (c : Fin n) (now : LtTime)
  | releaseTimer (c : Fin n) (i : Nat)
  | releaseJobs (c : Fin n) (i : Nat)
  | taskWakeUp (t : TaskId) (exitSem : Bool) (now requeued : LtTime)
  | taskNew (t : TaskId) (params : TaskParams) (running : Bool) (now requeued : LtTime)
  | taskExit (t : TaskId)
  | releaseAt (t : TaskId) (start : LtTime)
  | setNp (c : Fin n) (np : Bool)
  | execute (c : Fin n) (delta : LtTime)
  | completeJob (c : Fin n)

namespace PsnState

variable {n : Nat}

def Legal (st : PsnState n) : PsnOp n → Prop
  | .taskWakeUp t _ _ _ => (st.task t).realtime = true ∧ (st.task t).running = false
  | .taskNew t params _ _ _ =>
      -- sys_set_rt_task_param and litmus_admit_task
      (st.task t).realtime = false ∧ params.period ≠ 0 ∧ params.execCost ≠ 0 ∧
        params.execCost ≤ params.period ∧ params.cpu.toNat < n
  | .taskExit t => (st.task t).realtime = true
  | .releaseAt t _ => (st.task t).realtime = true ∧ (st.task t).running = false
  | _ => True

instance (st : PsnState n) (op : PsnOp n) : Decidable (st.Legal op) := by
  cases op <;> unfold Legal <;> infer_instance

def exec (st : PsnState n) : PsnOp n → Option (PsnState n)
  | .schedule c prev now => st.psnedfSchedule now c prev
  | .block c now =>
      (st.dom c).scheduled.bind fun t =>
        ((st.modify t (RtTask.setRunning false)).psnedfTaskBlock t).bind (psnedfSchedule now c t)
  | .releaseTimer c i => ((st.dom c).domain.onReleaseTimer i).map fun edf => st.setDomain c edf
  | .releaseJobs c i => st.releaseJobs c i
  | .taskWakeUp t exitSem now requeued =>
      (st.modify t (RtTask.setRunning true)).psnedfTaskWakeUp now requeued exitSem t
  | .taskNew t params running now requeued =>
      (st.setTask t { RtTask.admitted params with np := false }).psnedfTaskNew now requeued t
        running
  | .taskExit t => (st.psnedfTaskExit t).map fun st => st.modify t (RtTask.setRealtime false)
  | .releaseAt t start => some (st.modify t (RtTask.releaseAt start))
  | .setNp c np => (st.dom c).scheduled.map fun t => st.setTask t { st.task t with np := np }
  | .execute c delta =>
      (st.dom c).scheduled.map fun t => st.modify t (RtTask.updateTime delta)
  | .completeJob c => (st.dom c).scheduled.map fun t => st.modify t (RtTask.setRtFlags .sleep)

def init (task : TaskId → PsnTask) (tickPeriod : Nat) : PsnState n where
  task := task
  dom _ := { domain := RtDomain.init tickPeriod, scheduled := none, resched := false }

end PsnState

def PsnStep {n : Nat} (st : PsnState n) (op : PsnOp n) (st' : PsnState n) : Prop :=
  st.Legal op ∧ st.exec op = some st'

end Litmus.PsnEdf
