import Litmus.BinomialHeap
import Litmus.RtTask
import Litmus.Runs
import Mathlib.Data.List.FinRange

/-!
# The PFAIR scheduler

`sched_pfair.c`: a task is cut into subtasks of one quantum each, and in every quantum up
to one task per CPU is linked.  Tasks whose current subtask is not yet released wait in a
wheel of `PFAIR_MAX_PERIOD` heaps, which is merged into the ready queue slot by slot.

All of this runs with `pfair_lock` held, so each entry point is one step.  The quanta are
scheduled one after the other (`PfairTick`), but `pfair_time` may be ahead of them.  Quantum
numbers do not wrap.
-/

namespace Litmus.Pfair

open BinomialForest Function

def pfairMaxPeriod : Nat := 2000

/-! ### Subtasks -/

/-- `enum round` -/
inductive Round where
  | floor
  | ceil
deriving DecidableEq

/-- `time2quanta`, with quanta of `tick` nanoseconds -/
def time2quanta (tick time : Nat) (round : Round) : Nat :=
  if time % tick ≠ 0 ∧ round = .ceil then time / tick + 1 else time / tick

/-- `struct subtask`, in quanta relative to the release of the job -/
structure Subtask where
  release : Nat
  deadline : Nat
  /-- the "b bit" of PD² -/
  overlap : Nat
  groupDeadline : Nat
deriving DecidableEq, Repr, Inhabited

/-- The quotient rounded up, as `do_div` and an increment compute it. -/
def divUp (a b : Nat) : Nat := if a % b ≠ 0 then a / b + 1 else a / b

/-- `init_subtask`; the difference that the group deadline is computed from is unsigned. -/
def initSubtask (i quanta period : Nat) : Subtask where
  release := period * i / quanta
  deadline := divUp (period * (i + 1)) quanta
  overlap := divUp (period * (i + 1)) quanta - period * (i + 1) / quanta
  groupDeadline :=
    if period ≤ 2 * quanta then
      let tmp := (divUp (period * (i + 1)) quanta + 2 ^ 64 - (i + 1)) % 2 ^ 64 * period % 2 ^ 64
      if quanta < period then divUp tmp (period - quanta) else tmp
    else 0

/-- `struct pfair_param` -/
structure PfairParam where
  /-- number of subtasks -/
  quanta : Nat
  /-- index of the current subtask -/
  cur : Nat
  release : Nat
  period : Nat
  lastQuantum : Nat
  lastCpu : Nat
  sporadicRelease : Bool
  subtasks : List Subtask
deriving DecidableEq, Repr

/-- `pfair_admit_task`; `none` rejects the task.  The memory comes from `kmalloc`, and
    `last_quantum` and `last_cpu` are left as they are found in it. -/
def pfairAdmitTask (tick : Nat) (params : TaskParams) (lastQuantum lastCpu : Nat) :
    Option PfairParam :=
  let quanta := time2quanta tick params.execCost.toNat .ceil
  let period := params.period.toNat / tick
  if pfairMaxPeriod ≤ period then none
  else
    -- a task of weight 1.0 is a single subtask
    let (quanta, period) := if quanta = period then (1, 1) else (quanta, period)
    some
      { quanta, cur := 0, release := 0, period, lastQuantum, lastCpu
        sporadicRelease := false
        subtasks := (List.range quanta).map fun i => initSubtask i quanta period }

/-! ### Tasks -/

/-- The fields of a task that the plugin reads and writes. -/
structure PfairTask (n : Nat) extends RtTask where
  /-- the task can be scheduled -/
  present : Bool
  scheduledOn : Option (Fin n)
  /-- `tsk_pfair`, while the task is a real-time task -/
  pfair : PfairParam
deriving DecidableEq

namespace PfairTask

variable {n : Nat}

def curSubtask (t : PfairTask n) : Subtask := t.pfair.subtasks.getD t.pfair.cur default

def curDeadline (t : PfairTask n) : Nat := t.curSubtask.deadline + t.pfair.release

/-- `cur_release`, without `EARLY_RELEASE` -/
def curRelease (t : PfairTask n) : Nat := t.curSubtask.release + t.pfair.release

def curOverlap (t : PfairTask n) : Nat := t.curSubtask.overlap

def curGroupDeadline (t : PfairTask n) : Nat :=
  if t.curSubtask.groupDeadline ≠ 0 then t.curSubtask.groupDeadline + t.pfair.release
  else t.curSubtask.groupDeadline

def setPfair (f : PfairParam → PfairParam) (t : PfairTask n) : PfairTask n :=
  { t with pfair := f t.pfair }

def setRt (f : RtTask → RtTask) (t : PfairTask n) : PfairTask n :=
  { t with toRtTask := f t.toRtTask }

def prepareRelease (atQuantum : Nat) (t : PfairTask n) : PfairTask n :=
  t.setPfair fun p => { p with release := atQuantum, cur := 0 }

end PfairTask

abbrev Tasks (n : Nat) := TaskId → PfairTask n

variable {n : Nat}

def pfairHigherPrio (task : Tasks n) (first second : Option TaskId) : Bool :=
  match first, second with
  | none, _ => false
  | some _, none => true
  | some a, some b =>
      !(task b).realtime || decide ((task a).curDeadline < (task b).curDeadline) ||
        ((task a).curDeadline == (task b).curDeadline &&
          (decide ((task b).curOverlap < (task a).curOverlap) ||
            ((task a).curOverlap == (task b).curOverlap &&
              (decide ((task b).curGroupDeadline < (task a).curGroupDeadline) ||
                ((task a).curGroupDeadline == (task b).curGroupDeadline && decide (a < b))))))

def pfairReadyOrder (task : Tasks n) (a b : TaskId) : Bool :=
  pfairHigherPrio task (some a) (some b)

/-! ### The state -/

structure State (n : Nat) where
  task : Tasks n
  /-- `bheap_node_in_heap` -/
  inHeap : TaskId → Bool
  /-- the ready queue of the domain `pfair` -/
  readyQueue : Heap TaskId
  /-- `release_queue`, by slot -/
  releaseQueue : Nat → Heap TaskId
  /-- the task that should be executing -/
  linked : Fin n → Option TaskId
  /-- `local`, the copy of `linked` made by the CPU itself -/
  localCopy : Fin n → Option TaskId
  /-- the real-time task that the CPU is executing -/
  current : Fin n → Option TaskId
  pfairTime : Nat
  mergeTime : Nat
  /-- the last quantum that was scheduled -/
  curTick : Nat
  /-- `tick_period`, fixed at boot -/
  tickPeriod : Nat

namespace State

/-- The slot of the wheel for time `t`, see `relq`. -/
def slot (t : Nat) : Nat := t % pfairMaxPeriod

def relq (st : State n) (t : Nat) : Heap TaskId := st.releaseQueue (slot t)

def order (st : State n) : TaskId → TaskId → Bool := pfairReadyOrder st.task

def modify (t : TaskId) (f : PfairTask n → PfairTask n) (st : State n) : State n :=
  { st with task := update st.task t (f (st.task t)) }

def setInHeap (t : TaskId) (b : Bool) (st : State n) : State n :=
  { st with inHeap := update st.inHeap t b }

def setReady (H : Heap TaskId) (st : State n) : State n := { st with readyQueue := H }

def setRelq (t : Nat) (H : Heap TaskId) (st : State n) : State n :=
  { st with releaseQueue := update st.releaseQueue (slot t) H }

def setLinked (c : Fin n) (t : Option TaskId) (st : State n) : State n :=
  { st with linked := update st.linked c t }

/-- `pfair_add_release`; filing a queued task is a bug. -/
def pfairAddRelease (t : TaskId) (st : State n) : Option (State n) :=
  if st.inHeap t then none
  else
    let time := (st.task t).curRelease
    some ((st.setRelq time ((st.relq time).insert st.order t)).setInHeap t true)

def pollReleases (time : Nat) (st : State n) : State n :=
  { (st.setReady (st.readyQueue.union st.order (st.relq time))).setRelq time Heap.empty with
    mergeTime := time }

/-- `__add_ready`; queuing a queued task is a bug. -/
def addReady (t : TaskId) (st : State n) : Option (State n) :=
  if st.inHeap t then none
  else some ((st.setReady (st.readyQueue.insert st.order t)).setInHeap t true)

def peekReady (st : State n) : Option TaskId × State n :=
  ((st.readyQueue.peek st.order).1, st.setReady (st.readyQueue.peek st.order).2)

def takeReady (st : State n) : Option TaskId × State n :=
  match st.readyQueue.take st.order with
  | (none, H) => (none, st.setReady H)
  | (some t, H) => (some t, (st.setReady H).setInHeap t false)

/-- The loop over the CPUs in `drop_all_references`. -/
def forget (t : TaskId) (st : State n) : State n :=
  { st with
    linked := fun c => if st.linked c = some t then none else st.linked c
    localCopy := fun c => if st.localCopy c = some t then none else st.localCopy c }

/-- `drop_all_references`; `none` if the task is not in the heap it is deleted from. -/
def dropAllReferences (t : TaskId) (st : State n) : Option (State n) :=
  if st.inHeap t then
    if (st.task t).curRelease ≤ st.mergeTime then
      (st.readyQueue.delete st.order t).map fun H => ((st.setReady H).setInHeap t false).forget t
    else
      let time := (st.task t).curRelease
      ((st.relq time).delete st.order t).map fun H =>
        ((st.setRelq time H).setInHeap t false).forget t
  else some (st.forget t)

/-! ### Quanta -/

def advanceSubtask (time : Nat) (t : TaskId) (st : State n) : Option (Bool × State n) :=
  let st := st.modify t fun p => p.setPfair fun q => { q with cur := (q.cur + 1) % q.quanta }
  if (st.task t).pfair.cur = 0 then
    if (st.task t).present then
      -- a new job
      let st := st.modify t fun p =>
        (p.setRt fun r => r.prepareForNextPeriod.setRtFlags .running).setPfair
          fun q => { q with release := q.release + q.period }
      some (decide (time < (st.task t).curRelease), st)
    else
      -- out of the system until it wakes
      (st.dropAllReferences t).map fun st =>
        (false, st.modify t fun p => p.setPfair fun q => { q with sporadicRelease := true })
  else some (decide (time < (st.task t).curRelease), st)

/-- The body of the loop of `advance_subtasks`. -/
def advanceCpu (time : Nat) (st : State n) (cpu : Fin n) : Option (State n) :=
  match st.linked cpu with
  | none => some st
  | some l =>
      let st := st.modify l fun p => p.setPfair fun q =>
        { q with lastQuantum := time, lastCpu := cpu }
      (st.advanceSubtask time l).bind fun r =>
        if r.1 then (r.2.setLinked cpu none).pfairAddRelease l else some r.2

def advanceSubtasks (time : Nat) (st : State n) : Option (State n) :=
  (List.finRange n).foldlM (advanceCpu time) st

/-- `target_cpu`; `none` if `last_cpu` is no CPU. -/
def targetCpu (time : Nat) (t : TaskId) (defaultCpu : Fin n) (st : State n) : Option (Fin n) :=
  match (st.task t).scheduledOn with
  | some c => some c
  | none =>
      if (st.task t).pfair.lastQuantum + 1 = time then
        if h : (st.task t).pfair.lastCpu < n then
          let cpu : Fin n := ⟨(st.task t).pfair.lastCpu, h⟩
          match st.linked cpu with
          | none => some cpu
          | some l => if (st.task l).scheduledOn ≠ some cpu then some cpu else some defaultCpu
        else none
      else some defaultCpu

/-- A task that was pushed off its CPU goes back to the ready queue. -/
def pushBack (t : Option TaskId) (st : State n) : Option (State n) :=
  match t with
  | some p => st.addReady p
  | none => some st

/-- `pfair_link`; the flag says that the CPU must be considered again. -/
def pfairLink (time : Nat) (cpu : Fin n) (t : TaskId) (st : State n) :
    Option (Bool × State n) :=
  (st.targetCpu time t cpu).bind fun target =>
    let prev := st.linked cpu
    if target ≠ cpu then
      let other := st.linked target
      let st := st.setLinked target (some t)
      match other with
      | none => some (true, st)
      | some o =>
          if target < cpu then
            ((st.setLinked cpu (some o)).pushBack prev).map fun st => (false, st)
          else (st.addReady o).map fun st => (true, st)
    else ((st.setLinked cpu (some t)).pushBack prev).map fun st => (false, st)

/-- The retry loop of `schedule_subtasks`; `none` if `fuel` is too little. -/
def scheduleCpu (time : Nat) (cpu : Fin n) : Nat → State n → Option (State n)
  | 0, _ => none
  | fuel + 1, st =>
      let (next, st) := st.peekReady
      if pfairHigherPrio st.task next (st.linked cpu) then
        match st.takeReady with
        | (none, _) => none
        | (some t, st) => (st.pfairLink time cpu t).bind fun r =>
            if r.1 then scheduleCpu time cpu fuel r.2 else some r.2
      else some st

def scheduleSubtasks (time fuel : Nat) (st : State n) : Option (State n) :=
  (List.finRange n).foldlM (fun st cpu => st.scheduleCpu time cpu fuel) st

def scheduleNextQuantum (time fuel : Nat) (st : State n) : Option (State n) :=
  (st.advanceSubtasks time).bind fun st =>
    ((st.pollReleases time).scheduleSubtasks time fuel).map fun st => { st with curTick := time }

/-! ### The other entry points -/

def safeToSchedule (t : TaskId) (cpu : Fin n) (st : State n) : Bool :=
  match (st.task t).scheduledOn with
  | some c => decide (c = cpu) && (st.task t).present && decide ((st.task t).flags = .running)
  | none => (st.task t).present && decide ((st.task t).flags = .running)

/-- `pfair_schedule` on CPU `c` -/
def pfairSchedule (c : Fin n) (st : State n) : State n :=
  let prev := st.current c
  let next := (st.localCopy c).filter fun l => st.safeToSchedule l c
  if prev ≠ next then
    let st := match prev with
      | some p => st.modify p fun q => { q with scheduledOn := none }
      | none => st
    let st := match next with
      | some t => st.modify t fun q => { q with scheduledOn := some c }
      | none => st
    { st with current := update st.current c next }
  else st

/-- `pfair_task_new` for an admitted task; the core has set `present` to whether it is
    running. -/
def pfairTaskNew (t : TaskId) (running : Option (Fin n)) (st : State n) : Option (State n) :=
  let st := st.modify t fun p =>
    ({ p with scheduledOn := running }.prepareRelease (st.pfairTime + 1)).setPfair
      fun q => { q with sporadicRelease := false }
  st.pfairAddRelease t

/-- `litmus_admit_task` with `pfair_admit_task`, and on success `pfair_task_new`. -/
def taskNew (t : TaskId) (params : TaskParams) (running : Option (Fin n))
    (lastQuantum lastCpu : Nat) (st : State n) : Option (State n) :=
  if params.period = 0 ∨ params.period < params.execCost then some st
  else match pfairAdmitTask st.tickPeriod params lastQuantum lastCpu with
    | none => some st
    | some param =>
        let st := st.modify t fun _ =>
          { RtTask.admitted params with
            present := running.isSome, scheduledOn := none, pfair := param }
        let st := match running with
          | some c => { st with current := update st.current c (some t) }
          | none => st
        st.pfairTaskNew t running

/-- `pfair_task_wake_up`, after `enqueue_task_litmus` has made the task present. -/
def pfairTaskWakeUp (t : TaskId) (now : LtTime) (st : State n) : Option (State n) :=
  let st := st.modify t fun p => { (p.setRt (RtTask.setRunning true)) with present := true }
  if (st.task t).pfair.sporadicRelease then
    let st := st.modify t fun p =>
      (p.setRt (RtTask.releaseAt now)).prepareRelease (time2quanta st.tickPeriod now.toNat .ceil)
    (st.pfairAddRelease t).map fun st =>
      st.modify t fun p => p.setPfair fun q => { q with sporadicRelease := false }
  else some st

/-- The core's part of blocking; `pfair_task_block` does nothing. -/
def taskBlock (t : TaskId) (st : State n) : State n :=
  st.modify t fun p => { (p.setRt (RtTask.setRunning false)) with present := false }

/-- `pfair_task_exit` and the end of `litmus_exit_task`. -/
def pfairTaskExit (t : TaskId) (st : State n) : Option (State n) :=
  (st.dropAllReferences t).map fun st =>
    { st.modify t fun p => p.setRt (RtTask.setRealtime false) with
      current := fun c => if st.current c = some t then none else st.current c }

/-- The quantum that `pfair_release_at` files a task for: an unsigned difference from
    `pfair_time` that does not fit the wheel is cut. -/
def releaseQuantum (start : LtTime) (st : State n) : Nat :=
  let release := time2quanta st.tickPeriod start.toNat .ceil
  if release < st.pfairTime ∨ st.pfairTime + pfairMaxPeriod ≤ release then
    st.pfairTime + pfairMaxPeriod
  else release

def pfairReleaseAt (t : TaskId) (start : LtTime) (st : State n) : Option (State n) :=
  let release := st.releaseQuantum start
  let st := st.modify t fun p => p.setRt (RtTask.releaseAt start)
  (st.dropAllReferences t).bind fun st =>
    ((st.modify t fun p => p.prepareRelease release).pfairAddRelease t).map fun st =>
      st.modify t fun p => p.setPfair fun q => { q with sporadicRelease := false }

end State

/-! ### Steps -/

inductive Op (n : Nat) where
  | taskNew (t : TaskId) (params : TaskParams) (running : Option (Fin n))
      (lastQuantum lastCpu : Nat)
  | wakeUp (t : TaskId) (now : LtTime)
  | block (t : TaskId)
  | exit (t : TaskId)
  | releaseAt (t : TaskId) (start : LtTime)
  /-- a CPU advances `pfair_time` -/
  | advanceTime
  /-- `schedule_next_quantum` for the next quantum -/
  | quantum
  /-- the end of `pfair_tick` -/
  | copy (c : Fin n)
  /-- the task that CPU `c` executes sets `RT_F_SLEEP` in `complete_job` -/
  | completeJob (c : Fin n)
  | schedule (c : Fin n)
deriving DecidableEq

namespace State

/-- One step; `none` means a bug, or that `fuel` is too little. -/
def exec (fuel : Nat) (st : State n) : Op n → Option (State n)
  | .taskNew t params running lastQuantum lastCpu =>
      st.taskNew t params running lastQuantum lastCpu
  | .wakeUp t now => st.pfairTaskWakeUp t now
  | .block t => some (st.taskBlock t)
  | .exit t => st.pfairTaskExit t
  | .releaseAt t start => st.pfairReleaseAt t start
  | .advanceTime => some { st with pfairTime := st.pfairTime + 1 }
  | .quantum => st.scheduleNextQuantum (st.curTick + 1) fuel
  | .copy c => some { st with localCopy := update st.localCopy c (st.linked c) }
  | .completeJob c => some (match st.current c with
      | some t => st.modify t fun p => p.setRt (RtTask.setRtFlags .sleep)
      | none => st)
  | .schedule c => some (st.pfairSchedule c)

/-- When the kernel calls the entry points: new tasks are not yet real-time tasks and have
    a budget, the task of a running CPU is the one it executes; a task that waits does not
    wait again, and exactly the waiting tasks are woken; only a quantum that a CPU has won
    is scheduled. -/
def Legal (st : State n) : Op n → Bool
  | .taskNew t params running _ _ =>
      !(st.task t).realtime && decide (params.execCost ≠ 0) &&
        running.all fun c => st.current c == none
  | .wakeUp t _ => (st.task t).realtime && !(st.task t).present
  | .block t => (st.task t).realtime && (st.task t).present
  | .exit t => (st.task t).realtime
  | .releaseAt t _ => (st.task t).realtime
  | .quantum => decide (st.curTick < st.pfairTime)
  | _ => true

/-- `init_pfair` and `pfair_activate_plugin` in quantum `q`; `merge_time` is still what an
    earlier activation has left. -/
def init (q mergeTime tickPeriod : Nat) : State n where
  task _ :=
    { RtTask.admitted { execCost := 0, period := 0, cpu := 0, budgetPolicy := .noEnforcement } with
      realtime := false, present := false, scheduledOn := none
      pfair := { quanta := 0, cur := 0, release := 0, period := 0, lastQuantum := 0, lastCpu := 0
                 sporadicRelease := false, subtasks := [] } }
  inHeap _ := false
  readyQueue := Heap.empty
  releaseQueue _ := Heap.empty
  linked _ := none
  localCopy _ := none
  current _ := none
  pfairTime := q
  mergeTime := mergeTime
  curTick := q
  tickPeriod := tickPeriod

end State

def Step (st : State n) (op : Op n) (st' : State n) : Prop :=
  st.Legal op = true ∧ ∃ fuel, st.exec fuel op = some st'

end Litmus.Pfair
