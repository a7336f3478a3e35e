import Litmus.EdfCommon
import Litmus.Runs

/-!
# NPS-F servers

The part of `sched_npsf.c` that runs under one server lock: requeuing, rescheduling,
job completion, and the entry points that change a server.  `none` is a kernel bug: a
`BUG_ON`, or a heap operation on a node that is in no such heap.
-/

namespace Litmus.Npsf

open BinomialForest

/-- The tasks of one server, its domain and the task it should be scheduling. -/
structure NpsfServer where
  task : TaskTable
  dom : RtDomain
  highestPrio : Option TaskId

/-- What `litmus_clock` returns to the entry point, to the `requeue` of the task it is
    about, and to the `requeue` of the task it displaces. -/
structure Readings where
  call : LtTime
  requeued : LtTime
  displaced : LtTime

namespace NpsfServer

def order (s : NpsfServer) : TaskId → TaskId → Bool := edfReadyOrder s.task

def modifyTask (s : NpsfServer) (t : TaskId) (f : RtTask → RtTask) : NpsfServer :=
  { s with task := s.task.modify t f }

/-! ### Under the server lock -/

def requeue (now : LtTime) (s : NpsfServer) (t : TaskId) : Option NpsfServer :=
  if s.dom.isQueued t then none
  else
    let s := s.modifyTask t (RtTask.setRtFlags .running)
    if (s.task t).isReleased now then
      (s.dom.addReady s.order t).map fun dom => { s with dom := dom }
    else some { s with dom := s.dom.addRelease s.order (s.task t).job.release t }

/-- `srv->highest_prio = __take_ready(..)` -/
def takeHighest (s : NpsfServer) : NpsfServer :=
  { s with dom := (s.dom.takeReady s.order).2, highestPrio := (s.dom.takeReady s.order).1 }

def npsfRescheduleServer (now : LtTime) (s : NpsfServer) : Option NpsfServer :=
  let hp := s.highestPrio
  let (needed, dom) := edfPreemptionNeeded s.task s.dom hp
  let s := { s with dom := dom }
  if needed then
    match hp with
    | some t => s.takeHighest.requeue now t
    | none => some s.takeHighest
  else some s

def jobCompletion (t : RtTask) : RtTask :=
  RtTask.prepareForNextPeriod (RtTask.setRtFlags .sleep t)

/-- A completed task that is not in charge has to be in the ready queue. -/
def dequeuePrev (s : NpsfServer) (prev : TaskId) : Option RtDomain :=
  if s.highestPrio ≠ some prev then
    if s.dom.isQueued prev then s.dom.remove s.order prev else none
  else some s.dom

/-- The completion branch of `npsf_schedule_server`. -/
def completePrev (now : LtTime) (s : NpsfServer) (prev : TaskId) : Option NpsfServer := do
  let s := s.modifyTask prev jobCompletion
  let dom ← s.dequeuePrev prev
  let s ← requeue now { s with dom := dom } prev
  some (if s.highestPrio = some prev then s.takeHighest else s)

def npsfScheduleServer (now : LtTime) (s : NpsfServer) (prev : TaskId) : Option NpsfServer := do
  let p := s.task prev
  let blocks := p.realtime && !p.running
  let outOfTime := p.realtime && p.budgetEnforced && p.budgetExhausted
  let sleep := p.realtime && p.flags == .sleep
  let s ← if (outOfTime || sleep) && !blocks then s.completePrev now prev else some s
  if blocks && s.highestPrio == some prev then none else some s

/-! ### Entry points -/

def npsfTaskNew (now : Readings) (s : NpsfServer) (t : TaskId) : Option NpsfServer := do
  let s ← (s.modifyTask t (RtTask.releaseAt now.call)).requeue now.requeued t
  s.npsfRescheduleServer now.displaced

def npsfTaskWakeUp (now : Readings) (s : NpsfServer) (t : TaskId) : Option NpsfServer :=
  if !(s.task t).realtime || s.dom.isQueued t then none
  else
    let s := if (s.task t).isTardy now.call then s.modifyTask t (RtTask.releaseAt now.call) else s
    if s.highestPrio ≠ some t then do
      let s ← s.requeue now.requeued t
      s.npsfRescheduleServer now.displaced
    else some s

def removeFromServer (now : LtTime) (s : NpsfServer) (t : TaskId) : Option NpsfServer :=
  if s.highestPrio = some t then { s with highestPrio := none }.npsfRescheduleServer now
  else if s.dom.isQueued t then (s.dom.remove s.order t).map fun dom => { s with dom := dom }
  else some s

def npsfTaskBlock (now : LtTime) (s : NpsfServer) (t : TaskId) : Option NpsfServer :=
  if !(s.task t).realtime then none else s.removeFromServer now t

def npsfTaskExit (now : LtTime) (s : NpsfServer) (t : TaskId) : Option NpsfServer :=
  if !(s.task t).realtime then none else s.removeFromServer now t

def npsfReleaseJobs (now : LtTime) (s : NpsfServer) (i : Nat) : Option NpsfServer := do
  let dom ← s.dom.mergeFired s.order i
  { s with dom := dom }.npsfRescheduleServer now

end NpsfServer

/-! ### The server as a transition system -/

/-- One step of a server: an entry point with what the kernel does around it, or a step
    of a task or of the timer that holds no server lock. -/
inductive ServerOp where
  | taskNew (t : TaskId) (params : TaskParams) (now : Readings)
  | taskWakeUp (t : TaskId) (now : Readings)
  | taskBlock (t : TaskId) (now : LtTime)
  | taskExit (t : TaskId) (now : LtTime)
  | releaseTimer (i : Nat)
  | releaseJobs (i : Nat) (now : LtTime)
  | scheduleServer (prev : TaskId) (now : LtTime)
  | execute (t : TaskId) (delta : LtTime)
  | completeJob (t : TaskId)

namespace NpsfServer

def Legal (s : NpsfServer) : ServerOp → Prop
  | .taskNew t params _ =>
      -- litmus_admit_task
      (s.task t).realtime = false ∧ params.period ≠ 0 ∧ params.execCost ≤ params.period
  | .taskWakeUp t _ => (s.task t).realtime = true ∧ (s.task t).running = false
  | .taskBlock t _ =>
      (s.task t).realtime = true ∧ (s.task t).running = true ∧ t ∉ s.dom.waiting
  | .taskExit t _ => (s.task t).realtime = true ∧ t ∉ s.dom.waiting
  | .releaseTimer i => i < s.dom.releaseQueue.length
  | .releaseJobs i _ => i < s.dom.fired.length
  | .scheduleServer prev _ => (s.task prev).realtime = true ∧ prev ∉ s.dom.waiting
  | .execute _ _ => True
  | .completeJob _ => True

/-- Run one step.  Around the entry points the kernel admits the task, marks it
    runnable or blocked, or takes its policy away. -/
def exec (s : NpsfServer) : ServerOp → Option NpsfServer
  | .taskNew t params now =>
      (s.modifyTask t fun _ => RtTask.admitted params).npsfTaskNew now t
  | .taskWakeUp t now =>
      (s.modifyTask t (RtTask.setRunning true)).npsfTaskWakeUp now t
  | .taskBlock t now =>
      (s.modifyTask t (RtTask.setRunning false)).npsfTaskBlock now t
  | .taskExit t now =>
      (s.npsfTaskExit now t).map fun s => s.modifyTask t (RtTask.setRealtime false)
  | .releaseTimer i => (s.dom.onReleaseTimer i).map fun dom => { s with dom := dom }
  | .releaseJobs i now => s.npsfReleaseJobs now i
  | .scheduleServer prev now => s.npsfScheduleServer now prev
  | .execute t delta => some (s.modifyTask t (RtTask.updateTime delta))
  | .completeJob t => some (s.modifyTask t (RtTask.setRtFlags .sleep))

def init (task : TaskTable) (tickPeriod : Nat) : NpsfServer where
  task := task
  dom := RtDomain.init tickPeriod
  highestPrio := none

end NpsfServer

def ServerStep (s : NpsfServer) (op : ServerOp) (s' : NpsfServer) : Prop :=
  s.Legal op ∧ s.exec op = some s'

end Litmus.Npsf
