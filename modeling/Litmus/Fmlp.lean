import Litmus.EdfCommon
import Litmus.Runs

/-!
# FMLP semaphores

The semaphores of `fmlp.c` with the priority inheritance callbacks of GSN-EDF and PSN-EDF.
A semaphore is handed over by waking the first task of the wait queue.  The entry of the
woken task stays on the queue until the task runs.
-/

namespace Litmus.Fmlp

open Function

/-- `PID_MAX_LIMIT`; no pid is larger. -/
def pidMaxLimit : Nat := 4 * 1024 * 1024

/-- An entry of the wait queue.  Its `private` points to the `wq_pair` of the task, and to
    the task itself after `rt_pi_wake_up`. -/
structure WaitEntry where
  tsk : TaskId
  woken : Bool
deriving DecidableEq

/-- What the callbacks of a plugin read and write: the fields of the semaphore that belong
    to priority inheritance, and the tasks. -/
structure Pi where
  /-- `hp.task` -/
  hpTask : Option TaskId
  /-- `hp.cpu_task` -/
  cpuTask : BitVec 32 → Option TaskId
  holder : Option TaskId
  task : TaskTable
  kernelNp : TaskId → BitVec 32

namespace Pi

def setInh (t : TaskId) (inh : Option TaskId) (pi : Pi) : Pi :=
  { pi with task := pi.task.modify t fun p => { p with inhTask := inh } }

/-- `get_partition` -/
def partition (pi : Pi) (t : TaskId) : BitVec 32 := (pi.task t).params.cpu

def setCpuTask (cpu : BitVec 32) (t : Option TaskId) (pi : Pi) : Pi :=
  { pi with cpuTask := update pi.cpuTask cpu t }

def setNp (t : TaskId) (np : BitVec 32) (pi : Pi) : Pi :=
  { pi with kernelNp := update pi.kernelNp t np }

end Pi

/-- The callbacks of a plugin.  `none` stands for a failed assertion and for reading the
    `wq_pair` of an entry that has none. -/
structure Plugin where
  piBlock : TaskId → Pi → Pi
  inheritPriority : TaskId → Pi → Pi
  returnPriority : List WaitEntry → TaskId → Pi → Option Pi

/-! ### The plugins -/

/-- The loop of `edf_set_hp_task` and of `edf_set_hp_cpu_task`. -/
def edfSetHp (task : TaskTable) (eligible : TaskId → Bool) :
    List WaitEntry → Option TaskId → Option (Option TaskId)
  | [], hp => some hp
  | queued :: rest, hp =>
      if queued.woken then none
      else edfSetHp task eligible rest
        (if eligible queued.tsk && edfHigherPrio task (some queued.tsk) hp then some queued.tsk
        else hp)

def edfSetHpTask (wait : List WaitEntry) (pi : Pi) : Option Pi :=
  (edfSetHp pi.task (fun _ => true) wait none).map fun hp => { pi with hpTask := hp }

/-- `gsnedf_pi_block`, `gsnedf_inherit_priority` and `gsnedf_return_priority`, without the
    changes of queue positions -/
def gsnEdf : Plugin where
  piBlock newWaiter pi :=
    if edfHigherPrio pi.task (some newWaiter) pi.hpTask then
      let pi := { pi with hpTask := some newWaiter }
      match pi.holder with
      | some holder => pi.setInh holder (some newWaiter)
      | none => pi
    else pi
  inheritPriority newOwner pi :=
    match pi.hpTask with
    | some hp => if hp ≠ newOwner then pi.setInh newOwner (some hp) else pi
    | none => pi
  returnPriority wait t pi :=
    (if some t = pi.hpTask then edfSetHpTask wait pi else some pi).map fun pi =>
      pi.setInh t none

structure State where
  count : BitVec 32
  wait : List WaitEntry
  pi : Pi
  /-- the tasks that have acquired the semaphore and not released it, and the order of the
      calls and of the acquisitions; the code does not record them -/
  owners : Multiset TaskId
  called : List TaskId
  granted : List TaskId

namespace State

/-- `create_fmlp_semaphore`, opened by tasks that are in no kernel section -/
def init (task : TaskTable) : State where
  count := 1
  wait := []
  pi :=
    { hpTask := none, cpuTask := fun _ => none, holder := none, task := task
      kernelNp := fun _ => 0 }
  owners := 0
  called := []
  granted := []

def waiters (st : State) : List TaskId :=
  (st.wait.filter fun e => !e.woken).map WaitEntry.tsk

/-- The task is in `do_fmlp_down`. -/
def InDown (st : State) (t : TaskId) : Prop := t ∈ st.wait.map WaitEntry.tsk

instance (st : State) (t : TaskId) : Decidable (st.InDown t) :=
  inferInstanceAs (Decidable (t ∈ st.wait.map WaitEntry.tsk))

section

variable (plugin : Plugin)

/-- `do_fmlp_down` up to the call of `schedule` -/
def fmlpDown (tsk : TaskId) (st : State) : State :=
  let count := st.count - 1
  if count.slt 0 || !st.wait.isEmpty then
    { st with
      count := count
      wait := st.wait ++ [{ tsk := tsk, woken := false }]
      pi := plugin.piBlock tsk st.pi
      called := st.called ++ [tsk] }
  else
    { st with
      count := count
      pi := plugin.inheritPriority tsk
        ({ st.pi with holder := some tsk, hpTask := some tsk }.setCpuTask
          (st.pi.partition tsk) (some tsk))
      owners := tsk ::ₘ st.owners
      called := st.called ++ [tsk]
      granted := st.granted ++ [tsk] }

/-- The rest of `do_fmlp_down`: `remove_wait_queue` -/
def removeWaitQueue (tsk : TaskId) (st : State) : State :=
  { st with wait := st.wait.eraseP fun e => e.tsk = tsk }

/-- `wake_up_locked` with `rt_pi_wake_up`: the first entry is woken. -/
def wakeUpLocked : List WaitEntry → Pi → Option (Option TaskId × List WaitEntry × Pi)
  | [], pi => some (none, [], pi)
  | e :: rest, pi =>
      if e.woken then none
      else some (some e.tsk, { e with woken := true } :: rest, plugin.inheritPriority e.tsk pi)

/-- `do_fmlp_up` -/
def fmlpUp (current : TaskId) (st : State) : Option State :=
  (plugin.returnPriority st.wait current st.pi).bind fun pi =>
    let pi := { pi with holder := none }
    let count := st.count + 1
    if count.slt 1 then
      (wakeUpLocked plugin st.wait pi).map fun (woken, wait, pi) =>
        { st with
          count := count
          wait := wait
          pi := pi
          owners := st.owners.erase current + Multiset.ofList woken.toList
          granted := st.granted ++ woken.toList }
    else some { st with count := count, pi := pi, owners := st.owners.erase current }

end

def setDeadline (t : TaskId) (deadline : LtTime) (st : State) : State :=
  { st with
    pi := { st.pi with
      task := st.pi.task.modify t fun p => { p with job := { p.job with deadline := deadline } } } }

end State

/-! ### The semaphore as a transition system -/

inductive Op where
  | fmlpDown (t : TaskId)
  /-- a woken task runs -/
  | resume (t : TaskId)
  | fmlpUp (t : TaskId)
  | newJob (t : TaskId) (deadline : LtTime)

namespace State

/-- Who can make a step: a task in `fmlp_down` runs again only after it has been woken, and
    only an owner releases the semaphore. -/
def Legal (st : State) : Op → Prop
  | .fmlpDown t => t < pidMaxLimit ∧ ¬st.InDown t
  | .resume t => { tsk := t, woken := true } ∈ st.wait
  | .fmlpUp t => t ∈ st.owners ∧ ¬st.InDown t
  | .newJob t _ => t ∉ st.owners ∧ ¬st.InDown t

instance (st : State) : (op : Op) → Decidable (st.Legal op)
  | .fmlpDown t => inferInstanceAs (Decidable (t < pidMaxLimit ∧ ¬st.InDown t))
  | .resume t => inferInstanceAs (Decidable ({ tsk := t, woken := true } ∈ st.wait))
  | .fmlpUp t => inferInstanceAs (Decidable (t ∈ st.owners ∧ ¬st.InDown t))
  | .newJob t _ => inferInstanceAs (Decidable (t ∉ st.owners ∧ ¬st.InDown t))

def exec (plugin : Plugin) (st : State) : Op → Option State
  | .fmlpDown t => some (st.fmlpDown plugin t)
  | .resume t => some (st.removeWaitQueue t)
  | .fmlpUp t => st.fmlpUp plugin t
  | .newJob t deadline => some (st.setDeadline t deadline)

end State

def Step (plugin : Plugin) (st : State) (op : Op) (st' : State) : Prop :=
  st.Legal op ∧ st.exec plugin op = some st'

end Litmus.Fmlp
