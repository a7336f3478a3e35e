import Litmus.GsnTasks
import Litmus.TaskExit

/-!
# Tasks that leave a cluster

What `gsnedf_task_exit` and `cedf_task_exit` do to the queues of a cluster, in every run and
wherever the task is.
-/

namespace Litmus.GsnEdf

open BinomialForest Custody

namespace Cluster

variable {n : Nat} {st st' : Cluster n} {live : TaskId → Prop} {t : TaskId}

theorem Core.nodup_queued (h : Core live st) : st.domain.queued.Nodup := by
  refine Multiset.nodup_add.mpr ⟨h.sound.nodup .ready, h.sound.nodup .release, ?_⟩
  exact Multiset.disjoint_left.mpr fun hr hw =>
    nomatch h.sound.unique (p := .ready) hr (q := .release) hw

end Cluster

end Litmus.GsnEdf
