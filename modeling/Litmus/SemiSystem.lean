import Mathlib.Data.Fintype.Basic
import Litmus.EdfCommon
import Litmus.Runs
import Litmus.SlicedTask

/-!
# Semi-partitioned scheduling on several CPUs

Each CPU has an EDF domain and a `scheduled` slot under one lock.  A task whose slice moves
to another CPU is requeued there only after the lock of the CPU it leaves has been
dropped; until then it is in transit.  `none` is a `BUG_ON`, or a CPU without a domain.
-/

namespace Litmus.SemiPart

open SlicedTask Function

/-- `wm_domain_t`, `cd_domain_t`, `hime_domain_t` -/
structure CpuDomain where
  domain : RtDomain
  scheduled : Option TaskId

/-- A machine with `n` CPUs. -/
structure SemiState (n : Nat) where
  task : TaskId → SlicedTask
  dom : Fin n → CpuDomain
  /-- the `migrate` tasks between unlock and `requeue_remote` -/
  transit : List TaskId

namespace SemiState

variable {n : Nat}

def table (st : SemiState n) : TaskTable := fun t => (st.task t).toRtTask

def order (st : SemiState n) : TaskId → TaskId → Bool := edfReadyOrder st.table

def setTask (t : TaskId) (p : SlicedTask) (st : SemiState n) : SemiState n :=
  { st with task := update st.task t p }

def setFlags (t : TaskId) (f : RtFlag) (st : SemiState n) : SemiState n :=
  st.setTask t ((st.task t).modify (RtTask.setRtFlags f))

def setCpu (c : Fin n) (d : CpuDomain) (st : SemiState n) : SemiState n :=
  { st with dom := update st.dom c d }

def setDomain (c : Fin n) (edf : RtDomain) (st : SemiState n) : SemiState n :=
  st.setCpu c { domain := edf, scheduled := (st.dom c).scheduled }

/-- `is_queued`: the task's heap node is in a heap of some domain. -/
def isQueued (st : SemiState n) (t : TaskId) : Bool :=
  (List.finRange n).any fun c => (st.dom c).domain.isQueued t

/-- `get_partition(t) == dom->cpu` -/
def isLocal (st : SemiState n) (c : Fin n) (t : TaskId) : Bool :=
  (st.task t).params.cpu.toNat == c.val

def domainOfTask (st : SemiState n) (t : TaskId) : Option (Fin n) :=
  if h : (st.task t).params.cpu.toNat < n then some ⟨_, h⟩ else none

/-! ### Queues -/

/-- `wm_check_resched`, `cd_check_resched`, `hime_check_resched`: looking at the ready
    queue may fill its cache. -/
def checkResched (c : Fin n) (st : SemiState n) : SemiState n :=
  st.setDomain c (edfPreemptionNeeded st.table (st.dom c).domain (st.dom c).scheduled).2

/-- The common body of the two kinds of requeuing. -/
def requeue (now : LtTime) (c : Fin n) (t : TaskId) (st : SemiState n) :
    Option (SemiState n) :=
  let st := st.setFlags t .running
  if (st.task t).isReleased now then
    if st.isQueued t then none
    else ((st.dom c).domain.addReady st.order t).map fun edf =>
      (st.setDomain c edf).checkResched c
  else
    some (st.setDomain c ((st.dom c).domain.addRelease st.order (st.task t).job.release t))

/-- `wm_requeue_local`, `cd_requeue_local`, `hime_requeue_local` -/
def requeueLocal (now : LtTime) (c : Fin n) (t : TaskId) (st : SemiState n) :
    Option (SemiState n) :=
  st.requeue now c t

/-- `wm_requeue_remote`, `cd_requeue_remote`, `hime_requeue_remote`: the task leaves
    transit. -/
def requeueRemote (now : LtTime) (t : TaskId) (st : SemiState n) : Option (SemiState n) := do
  let c ← st.domainOfTask t
  requeue now c t { st with transit := st.transit.erase t }

/-- Requeue a task on the locked CPU, or postpone its migration until after unlocking. -/
def putBack (now : LtTime) (c : Fin n) (t : TaskId) (st : SemiState n) :
    Option (SemiState n) :=
  if st.isLocal c t then st.requeueLocal now c t
  else some { st with transit := t :: st.transit }

/-- The default `release_jobs`. -/
def releaseJobs (c : Fin n) (i : Nat) (st : SemiState n) : Option (SemiState n) :=
  ((st.dom c).domain.mergeFired st.order i).map fun edf => (st.setDomain c edf).checkResched c

/-- The first half of `on_release_timer`. -/
def releaseTimer (c : Fin n) (i : Nat) (st : SemiState n) : Option (SemiState n) :=
  ((st.dom c).domain.onReleaseTimer i).map fun edf => st.setDomain c edf

/-! ### Scheduling -/

/-- `next = __take_ready(edf)` and what follows it. -/
def takeNext (c : Fin n) (st : SemiState n) : SemiState n :=
  let next := ((st.dom c).domain.takeReady st.order).1
  let edf := ((st.dom c).domain.takeReady st.order).2
  let st := st.setCpu c { domain := edf, scheduled := next }
  match next with
  | some u => st.setFlags u .running
  | none => st

/-- `job_or_slice_completion(dom->scheduled, sleep)`, if the job completes. -/
def complete (pl : Plugin) (t : TaskId) (completes sleep : Bool) (st : SemiState n) :
    Option (SemiState n) :=
  if completes then
    ((st.task t).jobOrSliceCompletion pl (st.isQueued t) sleep).map fun p => st.setTask t p
  else some st

def outOfTime (p : SlicedTask) : Bool := p.budgetEnforced && p.budgetExhausted

/-- `(out_of_time || sleep) && !blocks` -/
def completes (p : SlicedTask) : Bool := (outOfTime p || p.flags == .sleep) && p.running

/-- `schedule` for the scheduled task `t`, which is also `prev`. -/
def scheduleTask (pl : Plugin) (now : LtTime) (c : Fin n) (t : TaskId) (preempt : Bool)
    (st : SemiState n) : Option (SemiState n) :=
  let p := st.task t
  let blocks := !p.running
  let sleep := p.flags == .sleep
  let wrongCpu := !st.isLocal c t
  (st.complete pl t (completes p) sleep).bind fun st =>
    if preempt || blocks || wrongCpu || completes p then
      (if blocks then some st else st.putBack now c t).map (takeNext c)
    else some (st.setFlags t .running)

/-- `wm_schedule`, `cd_schedule`, `hime_schedule` -/
def schedule (pl : Plugin) (now : LtTime) (c : Fin n) (prev : TaskId) (st : SemiState n) :
    Option (SemiState n) :=
  let needed := edfPreemptionNeeded st.table (st.dom c).domain (some prev)
  match (st.dom c).scheduled with
  | none => some ((st.setDomain c needed.2).takeNext c)
  | some t =>
      if t != prev || !(st.task prev).realtime then none
      else (st.setDomain c needed.2).scheduleTask pl now c t needed.1

/-! ### The other entry points -/

/-- `wm_task_new`, `cd_task_new`, `hime_task_new` -/
def taskNew (now requeued : LtTime) (t : TaskId) (running : Bool) (st : SemiState n) :
    Option (SemiState n) := do
  let c ← st.domainOfTask t
  let st := st.setTask t ((st.task t).newJob now)
  if running then
    if (st.dom c).scheduled.isSome then none
    else some (st.setCpu c { domain := (st.dom c).domain, scheduled := some t })
  else st.requeueLocal requeued c t

/-- `wm_task_wake_up`, `cd_task_wake_up`, `hime_task_wake_up`, up to the unlock -/
def taskWakeUp (pl : Plugin) (now requeued : LtTime) (t : TaskId) (st : SemiState n) :
    Option (SemiState n) := do
  let c ← st.domainOfTask t
  if st.isQueued t then none
  else do
    let p ← (st.task t).resume pl false now
    let st := st.setTask t p
    if (st.dom c).scheduled ≠ some t then st.putBack requeued c t else some st

/-- `wm_task_block`, `cd_task_block`, `hime_task_block` -/
def taskBlock (now : LtTime) (t : TaskId) (st : SemiState n) : Option (SemiState n) :=
  let st := st.setTask t ((st.task t).suspend now)
  if !(st.task t).realtime then none
  else if st.isQueued t then do
    let c ← st.domainOfTask t
    ((st.dom c).domain.remove st.order t).map fun edf => st.setDomain c edf
  else some st

end SemiState

/-! ### The machine as a transition system -/

/-- One step: an entry point of the plugin with what the kernel does around it, or a step
    of a task or of a timer.  A block and the `schedule` that follows it are one step. -/
inductive SemiOp (n : Nat) where
  | schedule (c : Fin n) (prev : TaskId) (now : LtTime)
  | block (c : Fin n) (now resched : LtTime)
  | requeueRemote (t : TaskId) (now : LtTime)
  | releaseTimer (c : Fin n) (i : Nat)
  | releaseJobs (c : Fin n) (i : Nat)
  | taskWakeUp (t : TaskId) (now requeued : LtTime)
  | taskNew (t : TaskId) (params : TaskParams) (slices : List Slice) (running : Bool)
      (now requeued : LtTime)
  | releaseAt (t : TaskId) (start : LtTime)
  | execute (c : Fin n) (delta : LtTime)
  | completeJob (c : Fin n)

namespace SemiState

variable {n : Nat}

/-- The state of a task when the plugin first sees it. -/
def admitted (params : TaskParams) (slices : List Slice) : SlicedTask :=
  { RtTask.admitted params with
    slices := slices
    semi :=
      { execTime := 0, suspendTime := 0, jobRelease := 0, jobDeadline := 0, jobExecCost := 0
        slice := 0 } }

def Legal (pl : Plugin) (st : SemiState n) : SemiOp n → Prop
  | .schedule _ _ _ => True
  | .block _ _ _ => True
  | .requeueRemote t _ => t ∈ st.transit
  | .releaseTimer _ _ => True
  | .releaseJobs _ _ => True
  | .taskWakeUp t _ _ => (st.task t).realtime = true ∧ (st.task t).running = false
  | .taskNew t params slices _ _ _ =>
      -- litmus_admit_task and the plugin's admit_task
      (st.task t).realtime = false ∧ params.period ≠ 0 ∧ params.execCost ≤ params.period ∧
        params.cpu.toNat < n ∧
        (admitted params slices).checkParams pl (fun cpu => decide (cpu.toNat < n)) = true
  | .releaseAt t _ => (st.task t).realtime = true ∧ (st.task t).running = false
  | .execute c delta => ∀ t, (st.dom c).scheduled = some t →
      -- the charged times are differences of one 64-bit clock
      (st.task t).job.execTime.toNat + delta.toNat < 2 ^ 64
  | .completeJob _ => True

def exec (pl : Plugin) (st : SemiState n) : SemiOp n → Option (SemiState n)
  | .schedule c prev now => st.schedule pl now c prev
  | .block c now resched =>
      (st.dom c).scheduled.bind fun t =>
        ((st.setTask t ((st.task t).modify (RtTask.setRunning false))).taskBlock now t).bind
          (schedule pl resched c t)
  | .requeueRemote t now => st.requeueRemote now t
  | .releaseTimer c i => st.releaseTimer c i
  | .releaseJobs c i => st.releaseJobs c i
  | .taskWakeUp t now requeued =>
      (st.setTask t ((st.task t).modify (RtTask.setRunning true))).taskWakeUp pl now requeued t
  | .taskNew t params slices running now requeued =>
      (st.setTask t (admitted params slices)).taskNew now requeued t running
  | .releaseAt t start =>
      ((st.task t).releaseAt pl (st.isQueued t) start).map fun p => st.setTask t p
  | .execute c delta =>
      (st.dom c).scheduled.map fun t => st.setTask t ((st.task t).updateTime delta)
  | .completeJob c => (st.dom c).scheduled.map fun t => st.setFlags t .sleep

def init (task : TaskId → SlicedTask) (tickPeriod : Nat) : SemiState n where
  task := task
  dom _ := { domain := RtDomain.init tickPeriod, scheduled := none }
  transit := []

end SemiState

def SemiStep {n : Nat} (pl : Plugin) (st : SemiState n) (op : SemiOp n) (st' : SemiState n) :
    Prop :=
  st.Legal pl op ∧ st.exec pl op = some st'

end Litmus.SemiPart
