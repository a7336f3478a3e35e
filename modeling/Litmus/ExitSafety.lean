import Litmus.FmExit
import Litmus.GsnExit
import Litmus.NpsfServerRuns
import Litmus.PsnPlaces
import Litmus.SemiExit

/-!
# `task_exit` in every plugin

`__sched_setscheduler` may take a task out of the real-time class wherever it is.  The exit of a
task that waits in a release heap looks for it in the ready queue and walks past the last root;
every other exit takes the task, and no other, out of the queues.
-/

namespace Litmus

open BinomialForest Runs Custody RtDomain Multiset

/-- What `task_exit` works on: the states that a plugin can reach, the tasks in the ready queue
    and in the release heaps of each domain, and `task_exit` itself, which may read the clock. -/
structure ExitModel where
  State : Type
  Dom : Type
  Reachable : State → Prop
  realtime : State → TaskId → Prop
  ready : State → Dom → Multiset TaskId
  release : State → Dom → Multiset TaskId
  isQueued : State → TaskId → Bool
  taskExit : LtTime → State → TaskId → Option State

/-- The task is in no heap, and every other task is queued where it was. -/
structure ExitModel.Left (M : ExitModel) (t : TaskId) (st st' : M.State) : Prop where
  ready : ∀ d, M.ready st' d = (M.ready st d).erase t
  release : ∀ d, M.release st' d = (M.release st d).erase t
  not_ready : ∀ d, t ∉ M.ready st' d
  not_release : ∀ d, t ∉ M.release st' d
  not_queued : M.isQueued st' t = false

/-- Every task is at most once in a queue. -/
structure ExitModel.Distinct (M : ExitModel) (st : M.State) : Prop where
  ready : ∀ d, (M.ready st d).Nodup
  release : ∀ d, (M.release st d).Nodup

namespace PsnEdf.PsnState

variable {n : Nat} {st : PsnState n} {t : TaskId}

end PsnEdf.PsnState

/-! ### EDF-fm -/

namespace EdfFm.FmState

end EdfFm.FmState

/-! ### EDF-WM, C=D and HIME -/

namespace SemiPart.SemiState

end SemiPart.SemiState

/-! ### NPS-F -/

namespace Npsf.NpsfServer

variable {now : LtTime} {s s' : NpsfServer} {t : TaskId}

theorem places_eq (s : NpsfServer) :
    s.places = Heap.cached s.highestPrio + s.dom.readyQueue.elems + s.dom.waiting := by
  rw [places, queued, add_assoc]

end Npsf.NpsfServer

/-! ### GSN-EDF and C-EDF -/

namespace GsnEdf.Cluster

end GsnEdf.Cluster

/-! ### All plugins -/

end Litmus
