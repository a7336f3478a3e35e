import Litmus.RtDomain
import Litmus.Runs

/-!
# The release queue

The insertion of `rt_domain.c` under its locks.  Each task has a release heap of its own,
which it uses only if no heap for its release time is queued.  To reinitialise it, the
release lock is dropped in the middle of the insertion.  The callback of a heap's timer
takes the heap off the queue, merges it into the ready queue and returns.
-/

namespace Litmus.ReleaseQueue

open BinomialForest Function

/-- The timer of a release heap, with the progress of its callback. -/
inductive TimerState where
  | inactive
  | armed
  /-- `on_release_timer` has been entered -/
  | fired
  /-- the heap is off the queue -/
  | unlinked
  /-- the heap has been merged -/
  | merged
deriving DecidableEq

/-- `struct release_heap` -/
structure RelHeap where
  releaseTime : LtTime
  heap : Heap TaskId
  timer : TimerState

/-- How far the `add_release` that holds `tobe_lock` has come. -/
inductive Adder where
  | idle
  /-- before the first `get_release_heap` -/
  | looking (t : TaskId)
  /-- the release lock has been dropped -/
  | dropped (t : TaskId)
  /-- the release heap of the task is ready -/
  | prepared (t : TaskId)
  /-- the task is in heap `rh` -/
  | arming (t rh : TaskId)
deriving DecidableEq

/-- A domain.  A release heap is named by the task that owns it. -/
structure State where
  /-- `release_queue.slot` -/
  slot : Nat → List TaskId
  /-- `tsk_rt(t)->rel_heap` -/
  relHeap : TaskId → RelHeap
  readyQueue : Heap TaskId
  /-- `get_release` -/
  release : TaskId → LtTime
  adder : Adder
  /-- how often a task has been added to the release queue, merged into the ready queue, and
      taken from there; the code does not count -/
  added : TaskId → Nat
  merged : TaskId → Nat
  taken : TaskId → Nat

/-- The loop of `get_release_heap` over one slot: the heap for `time`, if there is one, else
    `own` is put in front of the first later heap.  `own` is `none` if the heap of the task
    must not be used. -/
def getReleaseHeap (releaseTime : TaskId → LtTime) (time : LtTime) (own : Option TaskId) :
    List TaskId → Option TaskId × List TaskId
  | [] => (own, own.toList)
  | rh :: rest =>
      if time = releaseTime rh then (some rh, rh :: rest)
      else if ltBefore time (releaseTime rh) then (own, own.toList ++ rh :: rest)
      else
        let found := getReleaseHeap releaseTime time own rest
        (found.1, rh :: found.2)

namespace State

def setSlot (s : Nat) (hs : List TaskId) (st : State) : State :=
  { st with slot := update st.slot s hs }

def setHeap (h : TaskId) (rh : RelHeap) (st : State) : State :=
  { st with relHeap := update st.relHeap h rh }

def setTimer (h : TaskId) (timer : TimerState) (st : State) : State :=
  st.setHeap h { st.relHeap h with timer := timer }

def setAdder (a : Adder) (st : State) : State := { st with adder := a }

def timeOf (st : State) (h : TaskId) : LtTime := (st.relHeap h).releaseTime

section

variable (order : TaskId → TaskId → Bool) (tickPeriod : Nat)

/-- `bheap_insert` into heap `h` -/
def insert (h t : TaskId) (st : State) : State :=
  st.setHeap h { st.relHeap h with heap := (st.relHeap h).heap.insert order t }

def slotOf (t : TaskId) (st : State) : Nat := RtDomain.time2slot tickPeriod (st.release t)

/-- The first critical section of `arm_release_timer` -/
def findHeap (t : TaskId) (st : State) : State :=
  let found := getReleaseHeap st.timeOf (st.release t) none (st.slot (st.slotOf tickPeriod t))
  match found.1 with
  | some rh => (st.insert order rh t).setAdder (.arming t rh)
  | none => st.setAdder (.dropped t)

/-- `reinit_release_heap`; `hrtimer_cancel` waits for a callback, and an armed timer is a
    bug. -/
def reinit (t : TaskId) (st : State) : Option State :=
  if (st.relHeap t).timer = .inactive then
    some ((st.setHeap t { st.relHeap t with heap := Heap.empty }).setAdder (.prepared t))
  else none

/-- The second critical section of `arm_release_timer`: if the heap of the task is used, it
    is added to the queue. -/
def useHeap (t : TaskId) (st : State) : Option State :=
  let s := st.slotOf tickPeriod t
  let found := getReleaseHeap st.timeOf (st.release t) (some t) (st.slot s)
  found.1.map fun rh =>
    let st := if rh = t then
        (st.setHeap t { st.relHeap t with releaseTime := st.release t }).setSlot s found.2
      else st
    (st.insert order rh t).setAdder (.arming t rh)

def arm (t rh : TaskId) (st : State) : State :=
  (if rh = t then st.setTimer rh .armed else st).setAdder .idle

/-- `list_del` in `on_release_timer` -/
def listDel (h : TaskId) (st : State) : State :=
  { st with slot := fun s => (st.slot s).erase h }.setTimer h .unlinked

/-- The release callback with its `__merge_ready`, which empties the heap. -/
def releaseJobs (h : TaskId) (st : State) : State :=
  { st with
    readyQueue := st.readyQueue.union order (st.relHeap h).heap
    merged := fun t => st.merged t + (st.relHeap h).heap.elems.count t }.setHeap h
      { releaseTime := st.timeOf h, heap := Heap.empty, timer := .merged }

def takeReady (st : State) : State :=
  { st with
    readyQueue := (st.readyQueue.take order).2
    taken := fun t => st.taken t + (Heap.cached (st.readyQueue.take order).1).count t }

/-- A task waits for its next release: `__add_release` with `tobe_lock` taken. -/
def addRelease (t : TaskId) (time : LtTime) (st : State) : State :=
  { st with
    release := update st.release t time
    added := update st.added t (st.added t + 1)
    adder := .looking t }

end

end State

/-! ### The domain as a transition system -/

/-- One step: a critical section of an `add_release` or of a callback, what lies between
    two of them, the expiry of a timer or the selection of a ready task. -/
inductive Op where
  | addRelease (t : TaskId) (time : LtTime)
  | findHeap
  | reinit
  | useHeap
  | arm
  | fire (h : TaskId) (now : LtTime)
  | listDel (h : TaskId)
  | releaseJobs (h : TaskId)
  | return (h : TaskId)
  | takeReady

namespace State

inductive Place where
  | hand
  | heap (h : TaskId)
  | ready
deriving DecidableEq

def held (st : State) : Place → Multiset TaskId
  | .hand =>
      match st.adder with
      | .looking t => {t}
      | .dropped t => {t}
      | .prepared t => {t}
      | _ => 0
  | .heap h => (st.relHeap h).heap.elems
  | .ready => st.readyQueue.elems

def Legal (base : LtTime) (st : State) : Op → Prop
  | .addRelease t time =>
      st.adder = .idle ∧ (∀ p, t ∉ st.held p) ∧ WrapOrder.InWindow base time
  | .fire h now => (st.relHeap h).timer = .armed ∧ ltBeforeEq (st.timeOf h) now = true
  | .listDel h => (st.relHeap h).timer = .fired
  | .releaseJobs h => (st.relHeap h).timer = .unlinked
  | .return h => (st.relHeap h).timer = .merged
  | _ => True

/-- Run one step; `none` is a step that is not due, and the `BUG_ON` of
    `reinit_release_heap`. -/
def exec (order : TaskId → TaskId → Bool) (tickPeriod : Nat) (st : State) : Op → Option State
  | .addRelease t time => some (st.addRelease t time)
  | .findHeap =>
      match st.adder with
      | .looking t => some (st.findHeap order tickPeriod t)
      | _ => none
  | .reinit =>
      match st.adder with
      | .dropped t => st.reinit t
      | _ => none
  | .useHeap =>
      match st.adder with
      | .prepared t => st.useHeap order tickPeriod t
      | _ => none
  | .arm =>
      match st.adder with
      | .arming t rh => some (st.arm t rh)
      | _ => none
  | .fire h _ => some (st.setTimer h .fired)
  | .listDel h => some (st.listDel h)
  | .releaseJobs h => some (st.releaseJobs order h)
  | .return h => some (st.setTimer h .inactive)
  | .takeReady => some (st.takeReady order)

/-- `rt_domain_init`, with an unused heap for every task -/
def init (releaseTime release : TaskId → LtTime) : State where
  slot _ := []
  relHeap t := { releaseTime := releaseTime t, heap := Heap.empty, timer := .inactive }
  readyQueue := Heap.empty
  release := release
  adder := .idle
  added _ := 0
  merged _ := 0
  taken _ := 0

end State

/-- A step of a domain whose release times lie in the half circle that starts at `base`.
    Tasks are ordered by the priorities they have at this step. -/
def Step (tickPeriod : Nat) (base : LtTime) (st : State) (op : Op) (st' : State) : Prop :=
  st.Legal base op ∧ ∃ order, st.exec order tickPeriod op = some st'

end Litmus.ReleaseQueue
