import Mathlib.Data.Fintype.Basic
import Litmus.EdfCommon
import Litmus.EdfFm
import Litmus.Runs

/-!
# EDF-fm on several CPUs

The scheduler of `sched_edf_fm.c`.  A migratory task whose next job belongs to another CPU
and is already released is inserted into that CPU's ready queue directly.  For this the
lock of the local CPU is dropped and taken again together with the remote one, in the
middle of `edffm_schedule` or of `edffm_task_wake_up`.  `none` is a `BUG_ON`, a CPU without
a domain or the release of a lock that is not held.
-/

namespace Litmus.EdfFm

open FmTask Function

/-- `edffm_domain_t` -/
structure FmDomain where
  domain : RtDomain
  scheduled : Option TaskId

/-- How far the `edffm_schedule` of a CPU has come. -/
inductive Call where
  | idle
  /-- in `insert_task_in_remote_ready`, with the local lock dropped -/
  | unlocked (t : TaskId)
  /-- in `insert_task_in_remote_ready`, after the remote lock has been dropped -/
  | inserted (t : TaskId)
deriving DecidableEq

/-- A machine with `n` CPUs. -/
structure FmState (n : Nat) where
  task : TaskId → FmTask
  /-- `task_cpu`, the CPU that a task last ran on -/
  taskCpu : TaskId → Nat
  dom : Fin n → FmDomain
  call : Fin n → Call
  /-- tasks that are woken up and for which the lock is dropped in
      `insert_task_in_remote_ready` -/
  waking : List TaskId

/-! ### Priorities -/

/-- `edffm_params(t).nr_cpus` of a task that may be `NULL` -/
def migrating (task : TaskId → FmTask) : Option TaskId → Bool
  | some t => (task t).isMigratTask
  | none => false

def tableOf (task : TaskId → FmTask) : TaskTable := fun t => (task t).toRtTask

def edffmHigherPrio (task : TaskId → FmTask) (first second : Option TaskId) : Bool :=
  if migrating task first || migrating task second then
    if migrating task first && migrating task second then
      edfHigherPrio (tableOf task) first second
    else migrating task first
  else edfHigherPrio (tableOf task) first second

/-- `edffm_preemption_needed`; `__next_ready` looks at the queue with the order that
    `edf_domain_init` has installed. -/
def edffmPreemptionNeeded (task : TaskId → FmTask) (dom : RtDomain) (t : Option TaskId) :
    Bool × RtDomain :=
  if !dom.jobsPending then (false, dom)
  else match t with
    | none => (true, dom)
    | some u =>
        if !(task u).realtime then (true, dom)
        else
          let (next, dom) := dom.nextReady (edfReadyOrder (tableOf task))
          (edffmHigherPrio task next (some u), dom)

namespace FmState

variable {n : Nat}

/-- The order of the ready queues: `edf_domain_init` installs `edf_ready_order`. -/
def order (st : FmState n) : TaskId → TaskId → Bool := edfReadyOrder (tableOf st.task)

def setTask (t : TaskId) (p : FmTask) (st : FmState n) : FmState n :=
  { st with task := update st.task t p }

def setFlags (t : TaskId) (f : RtFlag) (st : FmState n) : FmState n :=
  st.setTask t ((st.task t).modify (RtTask.setRtFlags f))

def setCpu (c : Fin n) (d : FmDomain) (st : FmState n) : FmState n :=
  { st with dom := update st.dom c d }

def setDomain (c : Fin n) (edf : RtDomain) (st : FmState n) : FmState n :=
  st.setCpu c { domain := edf, scheduled := (st.dom c).scheduled }

def setCall (c : Fin n) (k : Call) (st : FmState n) : FmState n :=
  { st with call := update st.call c k }

/-- `is_queued`: the task's heap node is in a heap of some domain. -/
def isQueued (st : FmState n) (t : TaskId) : Bool :=
  (List.finRange n).any fun c => (st.dom c).domain.isQueued t

/-- `task_edffm` -/
def domainOfTask (st : FmState n) (t : TaskId) : Option (Fin n) :=
  if h : (st.task t).params.cpu.toNat < n then some ⟨_, h⟩ else none

def wrongCpu (st : FmState n) (t : TaskId) : Bool :=
  (st.task t).isMigratTask && st.taskCpu t != (st.task t).params.cpu.toNat

/-! ### Queues -/

/-- `__add_ready` to the domain of CPU `c` -/
def addReady (c : Fin n) (t : TaskId) (st : FmState n) : Option (FmState n) :=
  if st.isQueued t then none
  else ((st.dom c).domain.addReady st.order t).map fun edf => st.setDomain c edf

/-- `add_release` to the domain of CPU `c` -/
def addRelease (c : Fin n) (t : TaskId) (st : FmState n) : FmState n :=
  st.setDomain c ((st.dom c).domain.addRelease st.order (st.task t).job.release t)

def edffmAddReleaseRemote (t : TaskId) (st : FmState n) : Option (FmState n) :=
  (st.domainOfTask t).map fun c => st.addRelease c t

/-- The part of `insert_task_in_remote_ready` under both locks. -/
def insertTaskInRemoteReady (t : TaskId) (st : FmState n) : Option (FmState n) :=
  (st.domainOfTask t).bind fun c => st.addReady c t

/-- `requeue`, with the lock of CPU `c` held.  The result says whether the lock has been
    dropped in `insert_task_in_remote_ready`, which unlocks the domain of `task_cpu`. -/
def requeue (now : LtTime) (c : Fin n) (t : TaskId) (st : FmState n) :
    Option (FmState n × Bool) :=
  let st := st.setFlags t .running
  if (st.task t).isReleased now then
    if st.wrongCpu t then
      if st.taskCpu t = c.val then some (st, true) else none
    else (st.addReady c t).map fun st => (st, false)
  else
    if st.wrongCpu t then (st.edffmAddReleaseRemote t).map fun st => (st, false)
    else some (st.addRelease c t, false)

def edffmReleaseJobs (c : Fin n) (i : Nat) (st : FmState n) : Option (FmState n) :=
  ((st.dom c).domain.mergeFired st.order i).map fun edf =>
    st.setDomain c (edffmPreemptionNeeded st.task edf (st.dom c).scheduled).2

/-- The first half of `on_release_timer`. -/
def releaseTimer (c : Fin n) (i : Nat) (st : FmState n) : Option (FmState n) :=
  ((st.dom c).domain.onReleaseTimer i).map fun edf => st.setDomain c edf

/-! ### Scheduling -/

/-- `next = __take_ready(edf)` and what follows it; the context switch makes `c` the CPU of
    the task. -/
def takeNext (c : Fin n) (st : FmState n) : FmState n :=
  let next := ((st.dom c).domain.takeReady st.order).1
  let edf := ((st.dom c).domain.takeReady st.order).2
  let st := (st.setCpu c { domain := edf, scheduled := next }).setCall c .idle
  match next with
  | some u => { st.setFlags u .running with taskCpu := update st.taskCpu u c.val }
  | none => st

def outOfTime (p : FmTask) : Bool := p.budgetEnforced && p.budgetExhausted

/-- `(out_of_time || sleep) && !blocks` -/
def completes (p : FmTask) : Bool := (outOfTime p || p.flags == .sleep) && p.running

/-- `job_completion(edffm->scheduled, !sleep)`, if the job completes -/
def complete (t : TaskId) (st : FmState n) : Option (FmState n) :=
  if completes (st.task t) then (st.task t).jobCompletion.map fun p => st.setTask t p
  else some st

/-- Requeue the scheduled task and select another one, unless the lock has to be dropped. -/
def switch (now : LtTime) (c : Fin n) (t : TaskId) (st : FmState n) : Option (FmState n) :=
  (st.requeue now c t).map fun (st, dropped) =>
    if dropped then st.setCall c (.unlocked t) else st.takeNext c

/-- `edffm_schedule` for the scheduled task `t`, which is also `prev` -/
def scheduleTask (now : LtTime) (c : Fin n) (t : TaskId) (preempt : Bool) (st : FmState n) :
    Option (FmState n) :=
  let p := st.task t
  let blocks := !p.running
  let changeCpu := st.wrongCpu t
  if blocks && changeCpu then none
  else
    (st.complete t).bind fun st =>
      if preempt || blocks || changeCpu || completes p then
        if blocks then some (st.takeNext c) else st.switch now c t
      else some (st.setFlags t .running)

def edffmSchedule (now : LtTime) (c : Fin n) (prev : TaskId) (st : FmState n) :
    Option (FmState n) :=
  let needed := edffmPreemptionNeeded st.task (st.dom c).domain (some prev)
  match (st.dom c).scheduled with
  | none => some ((st.setDomain c needed.2).takeNext c)
  | some t =>
      if t != prev || !(st.task prev).realtime then none
      else (st.setDomain c needed.2).scheduleTask now c t needed.1

/-! ### The other entry points -/

/-- Requeue a task outside of `edffm_schedule`. -/
def requeueNew (now : LtTime) (c : Fin n) (t : TaskId) (st : FmState n) :
    Option (FmState n) :=
  (st.requeue now c t).map fun (st, dropped) =>
    if dropped then { st with waking := t :: st.waking } else st

def edffmTaskNew (now requeued : LtTime) (t : TaskId) (running : Bool) (st : FmState n) :
    Option (FmState n) :=
  (st.domainOfTask t).bind fun c =>
    let st := st.setTask t ((st.task t).edffmTaskNew now)
    if running then
      if (st.dom c).scheduled.isSome then none
      else some (st.setCpu c { domain := (st.dom c).domain, scheduled := some t })
    else st.requeueNew requeued c t

/-- The new job of a tardy task in `edffm_task_wake_up`. -/
def wakeJob (now : LtTime) (p : FmTask) : Option FmTask :=
  if p.isTardy now then
    (if p.isMigratTask then p.updateJobCounter.changeMigratCpuIfNeeded else some p).map
      (FmTask.releaseAt now)
  else some p

def edffmTaskWakeUp (now requeued : LtTime) (t : TaskId) (st : FmState n) :
    Option (FmState n) :=
  (st.domainOfTask t).bind fun c =>
    if st.isQueued t then none
    else (wakeJob now (st.task t)).bind fun p =>
      if (st.dom c).scheduled ≠ some t then (st.setTask t p).requeueNew requeued c t
      else some (st.setTask t p)

/-- `edffm_task_block` on CPU `c` -/
def edffmTaskBlock (c : Fin n) (t : TaskId) (st : FmState n) : Option (FmState n) :=
  if !(st.task t).realtime then none
  else if st.isQueued t then
    ((st.dom c).domain.remove st.order t).map fun edf => st.setDomain c edf
  else some st

end FmState

/-! ### The machine as a transition system -/

/-- One step: a critical section of the plugin with what the kernel does around it, or a
    step of a task or of a timer.  A block and the `edffm_schedule` that follows it are one
    step.  The locks are not part of the state: a step may fall between two sections also
    where the local lock is kept, so there are more interleavings than on the machine. -/
inductive FmOp (n : Nat) where
  | schedule (c : Fin n) (prev : TaskId) (now : LtTime)
  | insertRemote (c : Fin n)
  | finishSchedule (c : Fin n)
  | block (c : Fin n) (resched : LtTime)
  | taskWakeUp (t : TaskId) (now requeued : LtTime)
  | insertWoken (t : TaskId)
  | taskNew (t : TaskId) (params : TaskParams) (cpus : Fin 2 → BitVec 32)
      (nrCpus : BitVec 32) (fraction : Fin 2 → Fin 2 → LtTime) (running : Bool)
      (now requeued : LtTime)
  | releaseTimer (c : Fin n) (i : Nat)
  | releaseJobs (c : Fin n) (i : Nat)
  | releaseAt (t : TaskId) (start : LtTime)
  | execute (c : Fin n) (delta : LtTime)
  | completeJob (c : Fin n)

namespace FmState

variable {n : Nat}

def Legal (st : FmState n) : FmOp n → Prop
  | .schedule c _ _ => st.call c = .idle
  | .block c _ => st.call c = .idle
  | .taskWakeUp t _ _ => (st.task t).realtime = true ∧ (st.task t).running = false
  | .insertWoken t => t ∈ st.waking
  | .taskNew t params cpus nrCpus _ running _ _ =>
      -- litmus_admit_task, and the CPUs of a migratory task are online
      (st.task t).realtime = false ∧ params.period ≠ 0 ∧ params.execCost ≤ params.period ∧
        params.cpu.toNat < n ∧ (nrCpus ≠ 0 → ∀ i, (cpus i).toNat < n) ∧
        -- a task that is running makes this call on its CPU, which is not in the scheduler
        (running = true → ∀ c : Fin n, params.cpu.toNat = c.val → st.call c = .idle)
  | .releaseAt t _ => (st.task t).realtime = true ∧ (st.task t).running = false
  | .execute c _ => st.call c = .idle
  | .completeJob c => st.call c = .idle
  | _ => True

def exec (st : FmState n) : FmOp n → Option (FmState n)
  | .schedule c prev now => st.edffmSchedule now c prev
  | .insertRemote c =>
      match st.call c with
      | .unlocked t =>
          (st.insertTaskInRemoteReady t).map fun st => st.setCall c (.inserted t)
      | _ => none
  | .finishSchedule c =>
      match st.call c with
      | .inserted _ => some (st.takeNext c)
      | _ => none
  | .block c resched =>
      (st.dom c).scheduled.bind fun t =>
        ((st.setTask t ((st.task t).modify (RtTask.setRunning false))).edffmTaskBlock c t).bind
          (edffmSchedule resched c t)
  | .taskWakeUp t now requeued =>
      (st.setTask t ((st.task t).modify (RtTask.setRunning true))).edffmTaskWakeUp now requeued t
  | .insertWoken t =>
      insertTaskInRemoteReady t { st with waking := st.waking.erase t }
  | .taskNew t params cpus nrCpus fraction running now requeued =>
      -- the plugin's admit_task has checked that the task is on its CPU
      edffmTaskNew now requeued t running
        { st.setTask t (admitted params cpus nrCpus fraction) with
          taskCpu := update st.taskCpu t params.cpu.toNat }
  | .releaseTimer c i => st.releaseTimer c i
  | .releaseJobs c i => st.edffmReleaseJobs c i
  | .releaseAt t start => some (st.setTask t ((st.task t).releaseAt start))
  | .execute c delta =>
      (st.dom c).scheduled.map fun t =>
        st.setTask t ((st.task t).modify (RtTask.updateTime delta))
  | .completeJob c => (st.dom c).scheduled.map fun t => st.setFlags t .sleep

def init (task : TaskId → FmTask) (tickPeriod : Nat) : FmState n where
  task := task
  taskCpu _ := 0
  dom _ := { domain := RtDomain.init tickPeriod, scheduled := none }
  call _ := .idle
  waking := []

end FmState

def FmStep {n : Nat} (st : FmState n) (op : FmOp n) (st' : FmState n) : Prop :=
  st.Legal op ∧ st.exec op = some st'

end Litmus.EdfFm
