import Litmus.PriorityList
import Litmus.RtTask
import Litmus.Runs

/-!
# The stack resource policy

The semaphores of `srp.c` on one CPU.  The ceiling of a semaphore is the priority of its
highest-priority user, with the period cut to 32 bits.  The held semaphores are listed by
their ceilings.  A task that is scheduled in leaves `srp_ceiling_block` when its priority,
with the full period, exceeds the first ceiling.
-/

namespace Litmus.Srp

open PriorityList Function

abbrev SemId := Nat

/-- `struct srp_priority` -/
structure SrpPriority where
  period : BitVec 32
  pid : Nat
deriving DecidableEq

/-- `srp_higher_prio`; a period of 0 means no priority. -/
def srpHigherPrio (first second : SrpPriority) : Bool :=
  if first.period = 0 then false
  else second.period = 0 || first.period < second.period ||
    (first.period = second.period && first.pid < second.pid)

/-- `struct srp_semaphore` -/
structure SrpSemaphore where
  ceiling : SrpPriority
  owner : Option TaskId
  /-- `none` is `UNDEF_SEM` -/
  cpu : Option Nat

structure Tasks where
  /-- `get_rt_period` -/
  period : TaskId → LtTime
  /-- `get_partition` -/
  partition : TaskId → Nat
  period_ne_zero : ∀ t, period t ≠ 0

/-- The priority of a task as `open_srp_semaphore` stores it. -/
def Tasks.prio (tasks : Tasks) (t : TaskId) : SrpPriority where
  period := (tasks.period t).setWidth 32
  pid := t

structure State where
  sem : SemId → SrpSemaphore
  /-- `srp.ceiling`: the held semaphores -/
  ceiling : List SemId
  /-- `srp.ceiling_blocked` -/
  ceilingBlocked : List TaskId
  /-- `TASK_UNINTERRUPTIBLE` -/
  asleep : TaskId → Bool
  current : Option TaskId
  /-- the current task has left `srp_ceiling_block` -/
  cleared : Bool
  /-- which tasks have opened which semaphores, and whether any has been asked for; the code
      does not record this -/
  opened : TaskId → SemId → Bool
  started : Bool

namespace State

def setSem (s : SemId) (sem : SrpSemaphore) (st : State) : State :=
  { st with sem := update st.sem s sem }

/-- The ceiling of `s` is higher than that of `r`. -/
def higherCeiling (st : State) (s r : SemId) : Bool :=
  srpHigherPrio (st.sem s).ceiling (st.sem r).ceiling

section

variable (tasks : Tasks)

def srpExceedsCeiling (first : TaskId) (st : State) : Bool :=
  match st.ceiling with
  | [] => true
  | top :: _ =>
      let ceiling := (st.sem top).ceiling
      (tasks.period first).toNat < ceiling.period.toNat ||
        ((tasks.period first).toNat = ceiling.period.toNat && first < ceiling.pid) ||
        (st.sem top).owner = some first

def srpAddPrio (s : SemId) (st : State) : State :=
  if s ∈ st.ceiling then st
  else { st with ceiling := PriorityList.insert st.higherCeiling s st.ceiling }

def openSrpSemaphore (t : TaskId) (s : SemId) (st : State) : State :=
  let sem := st.sem s
  if sem.cpu = none ∨ sem.cpu = some (tasks.partition t) then
    let sem := { sem with cpu := some (tasks.partition t) }
    let sem := if srpHigherPrio (tasks.prio t) sem.ceiling then
        { sem with ceiling := tasks.prio t }
      else sem
    { st.setSem s sem with
      opened := fun u r => st.opened u r || (u = t && r = s) }
  else st

def doSrpDown (current : TaskId) (s : SemId) (st : State) : State :=
  let st := st.srpAddPrio s
  st.setSem s { st.sem s with owner := some current }

/-- `wake_up_all` on the blocked tasks, with `srp_wake_up` -/
def wakeUpAll (cpu : Nat) (st : State) : State :=
  { st with
    asleep := fun t => st.asleep t && !(decide (t ∈ st.ceilingBlocked) &&
      decide (tasks.partition t = cpu) && st.srpExceedsCeiling tasks t) }

def doSrpUp (cpu : Nat) (s : SemId) (st : State) : State :=
  let st := { st with ceiling := st.ceiling.erase s }
  (st.setSem s { st.sem s with owner := none }).wakeUpAll tasks cpu

/-- One round of `srp_ceiling_block`: the current task goes on, or it is put to sleep by
    `do_ceiling_block`. -/
def srpCeilingBlock (current : TaskId) (st : State) : State :=
  let st := { st with ceilingBlocked := st.ceilingBlocked.erase current }
  if st.srpExceedsCeiling tasks current then { st with cleared := true }
  else
    { st with
      ceilingBlocked := current :: st.ceilingBlocked
      asleep := update st.asleep current true
      current := none }

def switchTo (next : Option TaskId) (st : State) : State :=
  { st with current := next, cleared := false }

/-- `create_srp_semaphore` for every semaphore, on an idle CPU; `pid` is what the fresh
    memory holds. -/
def init (pid : SemId → Nat) : State where
  sem s := { ceiling := { period := 0, pid := pid s }, owner := none, cpu := none }
  ceiling := []
  ceilingBlocked := []
  asleep _ := false
  current := none
  cleared := false
  opened _ _ := false
  started := false

end

end State

/-! ### The CPU as a transition system -/

inductive Op where
  | switchTo (next : Option TaskId)
  | srpCeilingBlock
  | openSrpSemaphore (t : TaskId) (s : SemId)
  | srpDown (s : SemId)
  | srpUp (s : SemId)

namespace State

def Executes (st : State) (t : TaskId) : Prop := st.current = some t ∧ st.cleared = true

/-- Who makes a step.  Semaphores are opened before the first of them is asked for; a task
    asks only for semaphores that it has opened and does not own.  Tasks of other CPUs open
    semaphores too. -/
def Legal (tasks : Tasks) (cpu : Nat) (st : State) : Op → Prop
  | .switchTo next => ∀ t ∈ next, tasks.partition t = cpu ∧ st.asleep t = false
  | .srpCeilingBlock => st.cleared = false
  | .openSrpSemaphore t _ =>
      st.started = false ∧ (tasks.partition t = cpu → st.Executes t)
  | .srpDown s =>
      ∃ t ∈ st.current, st.Executes t ∧ st.opened t s = true ∧ (st.sem s).owner ≠ some t
  | .srpUp _ => ∃ t ∈ st.current, st.Executes t

instance (st : State) (t : TaskId) : Decidable (st.Executes t) :=
  inferInstanceAs (Decidable (st.current = some t ∧ st.cleared = true))

instance (tasks : Tasks) (cpu : Nat) (st : State) : (op : Op) → Decidable (st.Legal tasks cpu op)
  | .switchTo next => inferInstanceAs (Decidable (∀ t ∈ next, _))
  | .srpCeilingBlock => inferInstanceAs (Decidable (st.cleared = false))
  | .openSrpSemaphore _ _ => inferInstanceAs (Decidable (st.started = false ∧ _))
  | .srpDown _ => inferInstanceAs (Decidable (∃ t ∈ st.current, _))
  | .srpUp _ => inferInstanceAs (Decidable (∃ t ∈ st.current, _))

/-- Run one step; `sys_srp_down` and `sys_srp_up` refuse semaphores of other CPUs. -/
def exec (tasks : Tasks) (cpu : Nat) (st : State) : Op → Option State
  | .switchTo next => some (st.switchTo next)
  | .srpCeilingBlock => st.current.map fun t => st.srpCeilingBlock tasks t
  | .openSrpSemaphore t s => some (st.openSrpSemaphore tasks t s)
  | .srpDown s => st.current.map fun t =>
      let st := { st with started := true }
      if (st.sem s).cpu = some cpu then st.doSrpDown t s else st
  | .srpUp s => st.current.map fun _ =>
      if (st.sem s).cpu = some cpu then st.doSrpUp tasks cpu s else st

end State

def Step (tasks : Tasks) (cpu : Nat) (st : State) (op : Op) (st' : State) : Prop :=
  st.Legal tasks cpu op ∧ st.exec tasks cpu op = some st'

end Litmus.Srp
