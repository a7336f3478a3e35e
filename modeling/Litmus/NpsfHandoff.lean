import Litmus.NpsfCompletion
import Mathlib.Logic.Function.Iterate

/-!
# Reserves and hand-off

A server split over several CPUs has one reserve on each of them, and the reserves pass
the server on in a cycle.  `npsf_schedule` is cut at its lock sections: leave the old
server, enter the new one or back out, then hand the old server to the next CPU.
-/

namespace Litmus.Npsf

open BinomialForest Runs NpsfServer Function

abbrev CpuId := Nat

abbrev ReserveId := Nat

abbrev ServerId := Nat

/-- What `sys_add_server` sets up once. -/
structure Layout where
  cpu : ReserveId → CpuId
  server : ReserveId → ServerId
  nextNpsf : ReserveId → ReserveId
  firstReserve : ServerId → ReserveId
  /-- `task_npsfid` -/
  npsfId : TaskId → ServerId
  server_next : ∀ r, server (nextNpsf r) = server r
  cycle : ∀ r r', server r = server r' → ∃ k, nextNpsf^[k] r = r'

/-- How far a CPU is in `npsf_schedule`. -/
inductive Phase where
  | idle
  /-- the old server is left, the lock of `npsfNext`'s server not yet taken -/
  | entering (npsfNext : ReserveId)
  /-- the race for the new server is lost -/
  | backingOut
  /-- the new server is entered, `npsf_notify_next_cpu(npsfPrev)` not yet done -/
  | notifying (npsfPrev : ReserveId)
  | returning
deriving DecidableEq

structure NpsfState where
  servers : ServerId → NpsfServer
  currReserve : ServerId → ReserveId
  firstCpuWantsIpi : ServerId → Bool
  isCurrentlyScheduled : ReserveId → Bool
  cpuReserve : CpuId → ReserveId
  phase : CpuId → Phase
  /-- the task that `npsf_schedule` chose last -/
  next : CpuId → Option TaskId

/-! ### The sections of npsf_schedule -/

namespace NpsfState

variable (L : Layout)

/-- Step 3: update the server of the reserve that is left. -/
def updatePrev (st : NpsfState) (c : CpuId) (prev : TaskId) (now : LtTime) :
    Option NpsfServer :=
  let srv := L.server (st.cpuReserve c)
  if ((st.servers srv).task prev).realtime && L.npsfId prev == srv then
    (st.servers srv).npsfScheduleServer now prev
  else some (st.servers srv)

/-- Steps 1 to 4, up to the release of the old server's lock. -/
def enter (st : NpsfState) (c : CpuId) (npsfNext : ReserveId) (prev : TaskId) (now : LtTime) :
    Option NpsfState :=
  if st.phase c ≠ .idle then none
  else
    (st.updatePrev L c prev now).map fun srv =>
      let npsfPrev := st.cpuReserve c
      let st := { st with servers := update st.servers (L.server npsfPrev) srv }
      if npsfPrev = npsfNext then
        { st with
          next := update st.next c srv.highestPrio
          phase := update st.phase c .returning }
      else
        { st with
          isCurrentlyScheduled := update st.isCurrentlyScheduled npsfPrev false
          phase := update st.phase c (.entering npsfNext) }

/-- Under the new server's lock: take it over, or find that it is not ours. -/
def switchReserve (st : NpsfState) (c : CpuId) : Option NpsfState :=
  match st.phase c with
  | .entering npsfNext =>
      let srv := L.server npsfNext
      if st.currReserve srv ≠ npsfNext then
        some
          { st with
            firstCpuWantsIpi :=
              if L.firstReserve srv = npsfNext then update st.firstCpuWantsIpi srv true
              else st.firstCpuWantsIpi
            isCurrentlyScheduled := update st.isCurrentlyScheduled npsfNext false
            phase := update st.phase c .backingOut }
      else
        some
          { st with
            isCurrentlyScheduled := update st.isCurrentlyScheduled npsfNext true
            next := update st.next c (st.servers srv).highestPrio
            cpuReserve := update st.cpuReserve c npsfNext
            phase := update st.phase c (.notifying (st.cpuReserve c)) }
  | _ => none

def backOut (st : NpsfState) (c : CpuId) : Option NpsfState :=
  if st.phase c = .backingOut then
    let npsfPrev := st.cpuReserve c
    some
      { st with
        isCurrentlyScheduled := update st.isCurrentlyScheduled npsfPrev true
        next := update st.next c (st.servers (L.server npsfPrev)).highestPrio
        phase := update st.phase c .returning }
  else none

/-- Whether handing the server on to its reserve `r` sends an IPI. -/
def sendsIpi (st : NpsfState) (srv : ServerId) (r : ReserveId) : Bool :=
  L.firstReserve srv ≠ r || st.firstCpuWantsIpi srv

def npsfNotifyNextCpu (st : NpsfState) (c : CpuId) : Option NpsfState :=
  match st.phase c with
  | .notifying npsfPrev =>
      let srv := L.server npsfPrev
      let r := L.nextNpsf npsfPrev
      let st' := { st with phase := update st.phase c .returning }
      if r ≠ npsfPrev then
        some
          { st' with
            currReserve := update st.currReserve srv r
            firstCpuWantsIpi :=
              if st.sendsIpi L srv r then update st.firstCpuWantsIpi srv false
              else st.firstCpuWantsIpi }
      else some st'
  | _ => none

/-- The end of `npsf_schedule`: the chosen task is marked running. -/
def returnNext (st : NpsfState) (c : CpuId) : Option NpsfState :=
  if st.phase c = .returning then
    let st := { st with phase := update st.phase c .idle }
    match st.next c with
    | some t =>
        let srv := L.server (st.cpuReserve c)
        let marked := (st.servers srv).modifyTask t (RtTask.setRtFlags .running)
        some { st with servers := update st.servers srv marked }
    | none => some st
  else none

end NpsfState

/-! ### The system -/

inductive NpsfOp where
  | enter (c : CpuId) (npsfNext : ReserveId) (prev : TaskId) (now : LtTime)
  | switchReserve (c : CpuId)
  | backOut (c : CpuId)
  | notify (c : CpuId)
  | returnNext (c : CpuId)
  | server (s : ServerId) (op : ServerOp)

namespace NpsfState

variable (L : Layout)

/-- `get_current_reserve` answers with a reserve of the CPU, and a new task enters the
    server it names. -/
def Legal (st : NpsfState) : NpsfOp → Prop
  | .enter c npsfNext prev _ =>
      L.cpu npsfNext = c ∧ prev ∉ (st.servers (L.server (st.cpuReserve c))).dom.waiting
  | .server s op =>
      (st.servers s).Legal op ∧ ∀ t params now, op = .taskNew t params now → L.npsfId t = s
  | _ => True

def exec (st : NpsfState) : NpsfOp → Option NpsfState
  | .enter c npsfNext prev now => st.enter L c npsfNext prev now
  | .switchReserve c => st.switchReserve L c
  | .backOut c => st.backOut L c
  | .notify c => st.npsfNotifyNextCpu L c
  | .returnNext c => st.returnNext L c
  | .server s op => ((st.servers s).exec op).map fun srv =>
      { st with servers := update st.servers s srv }

end NpsfState

def NpsfStep (L : Layout) (st : NpsfState) (op : NpsfOp) (st' : NpsfState) : Prop :=
  st.Legal L op ∧ st.exec L op = some st'

end Litmus.Npsf
