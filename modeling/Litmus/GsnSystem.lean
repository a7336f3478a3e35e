import Litmus.EdfCommon
import Litmus.Runs

/-!
# Global EDF

The schedulers of `sched_gsn_edf.c` and `sched_cedf.c`.  Both keep a link from each CPU to
the task that should run there, apart from the task that is scheduled there.  C-EDF runs
this code once for each cluster, and GSN-EDF is the case of one cluster.  `none` is a
`BUG_ON`, a null pointer or the removal from the ready queue of a task that is in another
heap.
-/

namespace Litmus.GsnEdf

open BinomialForest Function

/-- A task, in a cluster of `n` CPUs. -/
structure GsnTask (n : Nat) extends RtTask where
  /-- `is_np`: the task is in a non-preemptive section -/
  np : Bool
  /-- `none` is `NO_CPU` -/
  linkedOn : Option (Fin n)
  scheduledOn : Option (Fin n)

/-- `cpu_entry_t` -/
structure CpuEntry where
  linked : Option TaskId
  scheduled : Option TaskId
  /-- what `gsnedf_schedule` has returned, until the switch is finished -/
  switching : Option (Option TaskId)

structure Cluster (n : Nat) where
  task : TaskId → GsnTask n
  cpu : Fin n → CpuEntry
  cpuHeap : Heap (Fin n)
  domain : RtDomain

namespace Cluster

variable {n : Nat}

def table (st : Cluster n) : TaskTable := fun t => (st.task t).toRtTask

/-- `edf_ready_order` -/
def order (st : Cluster n) : TaskId → TaskId → Bool := edfReadyOrder st.table

def setTask (t : TaskId) (p : GsnTask n) (st : Cluster n) : Cluster n :=
  { st with task := update st.task t p }

def modify (t : TaskId) (f : RtTask → RtTask) (st : Cluster n) : Cluster n :=
  st.setTask t { st.task t with toRtTask := f (st.task t).toRtTask }

def setLinkedOn (t : TaskId) (c : Option (Fin n)) (st : Cluster n) : Cluster n :=
  st.setTask t { st.task t with linkedOn := c }

def setScheduledOn (t : TaskId) (c : Option (Fin n)) (st : Cluster n) : Cluster n :=
  st.setTask t { st.task t with scheduledOn := c }

def setNp (t : TaskId) (np : Bool) (st : Cluster n) : Cluster n :=
  st.setTask t { st.task t with np := np }

def setLinked (c : Fin n) (t : Option TaskId) (st : Cluster n) : Cluster n :=
  { st with cpu := update st.cpu c { st.cpu c with linked := t } }

def setScheduled (c : Fin n) (t : Option TaskId) (st : Cluster n) : Cluster n :=
  { st with cpu := update st.cpu c { st.cpu c with scheduled := t } }

def setSwitching (c : Fin n) (next : Option (Option TaskId)) (st : Cluster n) : Cluster n :=
  { st with cpu := update st.cpu c { st.cpu c with switching := next } }

def setDomain (dom : RtDomain) (st : Cluster n) : Cluster n := { st with domain := dom }

/-! ### CPUs -/

def cpuLowerPrio (st : Cluster n) (a b : Fin n) : Bool :=
  edfHigherPrio st.table (st.cpu b).linked (st.cpu a).linked

/-- `update_cpu_position`; a CPU that is not in the heap is not deleted from it. -/
def updateCpuPosition (c : Fin n) (st : Cluster n) : Cluster n :=
  let heap := (st.cpuHeap.delete st.cpuLowerPrio c).getD st.cpuHeap
  { st with cpuHeap := heap.insert st.cpuLowerPrio c }

def lowestPrioCpu (st : Cluster n) : Option (Fin n × Cluster n) :=
  (st.cpuHeap.peek st.cpuLowerPrio).1.map fun c =>
    (c, { st with cpuHeap := (st.cpuHeap.peek st.cpuLowerPrio).2 })

/-- The currently linked task of CPU `c` is set to be unlinked. -/
def detach (c : Fin n) (st : Cluster n) : Cluster n :=
  match (st.cpu c).linked with
  | some old => st.setLinkedOn old none
  | none => st

/-- Link CPU `c` and task `t`, which may be `NULL`, to each other. -/
def attach (c : Fin n) (t : Option TaskId) (st : Cluster n) : Cluster n :=
  let st := match t with
    | some u => st.setLinkedOn u (some c)
    | none => st
  (st.setLinked c t).updateCpuPosition c

/-- The part of `link_task_to_cpu` for a task: if it is scheduled on another CPU, it is
    linked there, and the task that was linked there goes to CPU `c`. -/
def linkTask (t : TaskId) (c : Fin n) (st : Cluster n) : Option (Cluster n) :=
  match (st.task t).scheduledOn with
  | none => some (st.attach c (some t))
  | some sched =>
      if (st.cpu sched).linked = some t then none
      else if c ≠ sched then
        some ((st.attach sched (some t)).attach c (st.cpu sched).linked)
      else some (st.attach c (some t))

def linkTaskToCpu (linked : Option TaskId) (c : Fin n) (st : Cluster n) : Option (Cluster n) :=
  match linked with
  | none => some ((st.detach c).attach c none)
  | some t =>
      if !(st.task t).realtime then none
      else ((st.detach c).modify t (RtTask.setRtFlags .running)).linkTask t c

def unlink (t : TaskId) (st : Cluster n) : Option (Cluster n) :=
  match (st.task t).linkedOn with
  | some c => (st.setLinkedOn t none).linkTaskToCpu none c
  | none =>
      if st.domain.isQueued t then
        (st.domain.remove st.order t).map fun dom => st.setDomain dom
      else some st

/-! ### Queues -/

def requeue (now : LtTime) (t : TaskId) (st : Cluster n) : Option (Cluster n) :=
  if st.domain.isQueued t then none
  else if (st.task t).isReleased now then
    (st.domain.addReady st.order t).map fun dom => st.setDomain dom
  else some (st.setDomain (st.domain.addRelease st.order (st.task t).job.release t))

/-- The test of the loop in `check_for_preemptions`, with the CPU it is about. -/
def preemptionNeeded (st : Cluster n) : Option (Fin n × Bool × Cluster n) :=
  st.lowestPrioCpu.map fun (last, st) =>
    let needed := edfPreemptionNeeded st.table st.domain (st.cpu last).linked
    (last, needed.1, st.setDomain needed.2)

def preemptLinked (now : LtTime) (last : Fin n) (st : Cluster n) : Option (Cluster n) :=
  (st.domain.takeReady st.order).1.bind fun t =>
    let st := st.setDomain (st.domain.takeReady st.order).2
    (match (st.cpu last).linked with
      | some old => st.requeue now old
      | none => some st).bind (linkTaskToCpu (some t) last)

/-- `check_for_preemptions`; each round of the loop reads the clock once. -/
def checkForPreemptions : List LtTime → Cluster n → Option (Cluster n)
  | [], st =>
      st.preemptionNeeded.bind fun (_, needed, st) => if needed then none else some st
  | now :: clock, st =>
      st.preemptionNeeded.bind fun (last, needed, st) =>
        if needed then (st.preemptLinked now last).bind (checkForPreemptions clock)
        else some st

/-- `gsnedf_job_arrival` -/
def jobArrival (now : LtTime) (clock : List LtTime) (t : TaskId) (st : Cluster n) :
    Option (Cluster n) :=
  (st.requeue now t).bind (checkForPreemptions clock)

/-- `gsnedf_release_jobs` -/
def releaseJobs (clock : List LtTime) (i : Nat) (st : Cluster n) : Option (Cluster n) :=
  (st.domain.mergeFired st.order i).bind fun dom =>
    checkForPreemptions clock (st.setDomain dom)

/-- `job_completion`; a blocking task is not requeued. -/
def jobCompletion (now : LtTime) (clock : List LtTime) (t : TaskId) (st : Cluster n) :
    Option (Cluster n) :=
  let st := st.modify t fun p => (p.setRtFlags .sleep).prepareForNextPeriod
  (st.unlink t).bind fun st =>
    if (st.task t).running then st.jobArrival now clock t else some st

/-! ### Scheduling -/

def outOfTime (p : GsnTask n) : Bool := p.budgetEnforced && p.budgetExhausted

/-- `sleep` -/
def sleeps (p : GsnTask n) : Bool := p.flags == .sleep

/-- The task `t` scheduled on CPU `c` blocks, cannot be preempted although it should be, or
    completes. -/
def settle (now : LtTime) (clock : List LtTime) (c : Fin n) (t : TaskId) (st : Cluster n) :
    Option (Cluster n) :=
  let p := st.task t
  let blocks := !p.running
  let preempt := decide ((st.cpu c).linked ≠ some t)
  (if blocks then st.unlink t else some st).bind fun st =>
    (if p.np && (outOfTime p || preempt || sleeps p) then st.unlink t else some st).bind fun st =>
        if !p.np && (outOfTime p || sleeps p) && !blocks && !preempt then
          st.jobCompletion now clock t
        else some st

/-- Link a pending task if the CPU became unlinked. -/
def linkPending (c : Fin n) (st : Cluster n) : Option (Cluster n) :=
  if (st.cpu c).linked.isNone then
    (st.setDomain (st.domain.takeReady st.order).2).linkTaskToCpu (st.domain.takeReady st.order).1 c
  else some st

/-- The final scheduling decision; `stays` is `np && !blocks`. -/
def decideNext (c : Fin n) (stays : Bool) (st : Cluster n) : Cluster n :=
  let linked := (st.cpu c).linked
  let scheduled := (st.cpu c).scheduled
  if !stays && decide (linked ≠ scheduled) then
    let st := match linked with
      | some t => st.setScheduledOn t (some c)
      | none => st
    let st := match scheduled with
      | some t => st.setScheduledOn t none
      | none => st
    st.setSwitching c (some linked)
  else st.setSwitching c (some scheduled)

def gsnedfSchedule (now : LtTime) (clock : List LtTime) (c : Fin n) (prev : TaskId)
    (st : Cluster n) : Option (Cluster n) :=
  match (st.cpu c).scheduled with
  | none =>
      if (st.task prev).realtime then none
      else (st.linkPending c).map (decideNext c false)
  | some t =>
      if t ≠ prev || !(st.task prev).realtime then none
      else
        let stays := (st.task t).np && (st.task t).running
        ((st.settle now clock c t).bind (linkPending c)).map (decideNext c stays)

/-- `gsnedf_finish_switch`; if `gsnedf_schedule` has returned `NULL`, the current task is not
    a real-time task. -/
def finishSwitch (c : Fin n) (st : Cluster n) : Option (Cluster n) :=
  (st.cpu c).switching.map fun next =>
    (st.setScheduled c (next.filter fun t => (st.task t).realtime)).setSwitching c none

/-! ### The other entry points -/

/-- `gsnedf_task_new`; `running` is the CPU that the task is running on, if it is. -/
def taskNew (now requeued : LtTime) (clock : List LtTime) (t : TaskId)
    (running : Option (Fin n)) (st : Cluster n) : Option (Cluster n) :=
  let st := st.modify t (RtTask.releaseAt now)
  (match running with
    | some c =>
        if (st.cpu c).scheduled.isSome then none
        else some ((st.setScheduled c (some t)).setScheduledOn t (some c))
    | none => some (st.setScheduledOn t none)).bind fun st =>
      (st.setLinkedOn t none).jobArrival requeued clock t

/-- The flags and the job of a task that wakes up; `exitSem` says that the flags are
    `RT_F_EXIT_SEM`, `timeSlice` that the time slice is not zero. -/
def wakeJob (now : LtTime) (exitSem timeSlice : Bool) (p : RtTask) : RtTask :=
  if exitSem then p.setRtFlags .running
  else if p.isTardy now then p.releaseAt now
  else if timeSlice then p.setRtFlags .running
  else p

/-- `gsnedf_task_wake_up` -/
def taskWakeUp (now requeued : LtTime) (clock : List LtTime) (exitSem timeSlice : Bool)
    (t : TaskId) (st : Cluster n) : Option (Cluster n) :=
  (st.modify t (wakeJob now exitSem timeSlice)).jobArrival requeued clock t

/-- `gsnedf_task_exit` -/
def taskExit (t : TaskId) (st : Cluster n) : Option (Cluster n) :=
  (st.unlink t).map fun st =>
    match (st.task t).scheduledOn with
    | some c => (st.setScheduled c none).setScheduledOn t none
    | none => st

end Cluster

/-! ### A cluster as a transition system -/

/-- One step: a critical section of the plugin with what the kernel does around it, or a
    step of a task or of a timer. -/
inductive GsnOp (n : Nat) where
  | schedule (c : Fin n) (prev : TaskId) (now : LtTime) (clock : List LtTime)
  | finishSwitch (c : Fin n)
  | taskBlock (t : TaskId)
  | taskWakeUp (t : TaskId) (exitSem timeSlice : Bool) (now requeued : LtTime) (clock : List LtTime)
  | taskNew (t : TaskId) (params : TaskParams) (running : Option (Fin n))
      (now requeued : LtTime) (clock : List LtTime)
  | taskExit (t : TaskId)
  | releaseTimer (i : Nat)
  | releaseJobs (i : Nat) (clock : List LtTime)
  | releaseAt (t : TaskId) (start : LtTime)
  | setNp (c : Fin n) (np : Bool)
  | execute (c : Fin n) (delta : LtTime)
  | completeJob (c : Fin n)

namespace Cluster

variable {n : Nat}

def Legal (st : Cluster n) : GsnOp n → Prop
  | .schedule c _ _ _ => (st.cpu c).switching = none
  | .taskBlock t => (st.task t).realtime = true ∧ (st.task t).running = true
  | .taskWakeUp t _ _ _ _ _ => (st.task t).realtime = true ∧ (st.task t).running = false
  | .taskNew t params _ _ _ _ =>
      (st.task t).realtime = false ∧ params.period ≠ 0 ∧ params.execCost ≤ params.period
  | .taskExit t => (st.task t).realtime = true
  | .releaseAt t _ => (st.task t).realtime = true ∧ (st.task t).running = false
  | _ => True

def exec (st : Cluster n) : GsnOp n → Option (Cluster n)
  | .schedule c prev now clock => st.gsnedfSchedule now clock c prev
  | .finishSwitch c => st.finishSwitch c
  | .taskBlock t => (st.modify t (RtTask.setRunning false)).unlink t
  | .taskWakeUp t exitSem timeSlice now requeued clock =>
      (st.modify t (RtTask.setRunning true)).taskWakeUp now requeued clock exitSem timeSlice t
  | .taskNew t params running now requeued clock =>
      (st.setTask t { RtTask.admitted params with
        np := false, linkedOn := none, scheduledOn := none }).taskNew now requeued clock t running
  | .taskExit t => (st.taskExit t).map fun st => st.modify t (RtTask.setRealtime false)
  | .releaseTimer i => (st.domain.onReleaseTimer i).map fun dom => st.setDomain dom
  | .releaseJobs i clock => st.releaseJobs clock i
  | .releaseAt t start => some (st.modify t (RtTask.releaseAt start))
  | .setNp c np => (st.cpu c).scheduled.map fun t => st.setNp t np
  | .execute c delta =>
      (st.cpu c).scheduled.map fun t => st.modify t (RtTask.updateTime delta)
  | .completeJob c => (st.cpu c).scheduled.map fun t => st.modify t (RtTask.setRtFlags .sleep)

/-- A cluster before any task is admitted, with all CPUs in the heap. -/
def init (task : TaskId → GsnTask n) (tickPeriod : Nat) : Cluster n :=
  let st : Cluster n :=
    { task := task
      cpu := fun _ => { linked := none, scheduled := none, switching := none }
      cpuHeap := Heap.empty
      domain := RtDomain.init tickPeriod }
  (List.finRange n).foldl (fun st c => st.updateCpuPosition c) st

end Cluster

def GsnStep {n : Nat} (st : Cluster n) (op : GsnOp n) (st' : Cluster n) : Prop :=
  st.Legal op ∧ st.exec op = some st'

/-! ### Clusters -/

/-- The clusters of C-EDF, all of one size.  A task is in the cluster of its partition, and
    the entries of the other clusters' tables are not used. -/
structure Machine (k n : Nat) where
  cluster : Fin k → Cluster n

namespace Machine

variable {k n : Nat}

def Legal (m : Machine k n) (op : Fin k × GsnOp n) : Prop :=
  (m.cluster op.1).Legal op.2 ∧ match op.2 with
    | .taskNew t _ _ _ _ _ => ∀ i, ((m.cluster i).task t).realtime = false
    | _ => True

def exec (m : Machine k n) (op : Fin k × GsnOp n) : Option (Machine k n) :=
  ((m.cluster op.1).exec op.2).map fun st =>
    { cluster := update m.cluster op.1 st }

instance (m : Machine k n) (op : Fin k × GsnOp n) : Decidable (m.Legal op) := by
  obtain ⟨i, op⟩ := op
  cases op <;> unfold Legal Cluster.Legal <;> infer_instance

def init (task : Fin k → TaskId → GsnTask n) (tickPeriod : Nat) : Machine k n where
  cluster i := Cluster.init (task i) tickPeriod

end Machine

def MachineStep {k n : Nat} (m : Machine k n) (op : Fin k × GsnOp n) (m' : Machine k n) :
    Prop := m.Legal op ∧ m.exec op = some m'

end Litmus.GsnEdf
