import Litmus.SemiMigration
import Litmus.TaskExit

/-!
# Tasks that leave a semi-partitioned machine

`wm_task_exit`, `cd_task_exit` and `hime_task_exit`, and the machine with exits among its steps.
-/

namespace Litmus.SemiPart

open BinomialForest SlicedTask Runs Multiset

namespace SemiState

variable {n : Nat}

/-- `wm_task_exit`, `cd_task_exit`, `hime_task_exit` -/
def taskExit (t : TaskId) (st : SemiState n) : Option (SemiState n) :=
  (st.domainOfTask t).bind fun c =>
    ((st.dom c).domain.dequeue st.order (st.isQueued t) t).map fun edf =>
      st.setCpu c { domain := edf, scheduled := clearSlot t (st.dom c).scheduled }

section

variable {st st' : SemiState n} {c : Fin n} {t : TaskId}

section

variable (h : MigrationInv st)

include h

theorem MigrationInv.nodup_held (c : Fin n) : (st.dom c).held.Nodup := by
  have hno := h.nodup
  rw [places_eq c] at hno
  exact (nodup_add.mp hno).1

theorem MigrationInv.nodup_queued (c : Fin n) :
    (st.dom c).domain.queued.Nodup := (nodup_add.mp (h.nodup_held c)).2.1

theorem MigrationInv.cpu_eq (hc : st.domainOfTask t = some c) {d : Fin n}
    (ht : t ∈ (st.dom d).held) : d = c :=
  Fin.ext ((h.partition d t ht).symm.trans (cpu_of_domainOfTask hc))

theorem MigrationInv.isQueued_iff_here (hc : st.domainOfTask t = some c) :
    st.isQueued t = true ↔ t ∈ (st.dom c).domain.queued := by
  refine isQueued_iff.trans ⟨?_, fun ht => ⟨c, ht⟩⟩
  rintro ⟨d, ht⟩
  obtain rfl := h.cpu_eq hc (CpuDomain.mem_held.mpr (.inr ht))
  exact ht

/-- Every queue and every slot loses the task, if it was there, and no other. -/
theorem MigrationInv.taskExit_spec (hx : st.taskExit t = some st') :
    ∃ c, OnlyAt c st st' ∧ st'.task = st.task ∧ ∀ d,
      (st'.dom d).domain.readyQueue.elems = (st.dom d).domain.readyQueue.elems.erase t ∧
        (st'.dom d).domain.waiting = (st.dom d).domain.waiting.erase t ∧
        (st'.dom d).held = (st.dom d).held.erase t := by
  obtain ⟨c, hc, hx⟩ := Option.bind_eq_some_iff.mp hx
  obtain ⟨edf, hedf, rfl⟩ := Option.map_eq_some_iff.mp hx
  refine ⟨c, onlyAt_setCpu c _ st, rfl, fun d => ?_⟩
  by_cases hd : d = c
  · subst hd
    obtain ⟨hr, hw⟩ := RtDomain.dequeue_spec (h.nodup_queued d) (h.isQueued_iff_here hc) hedf
    rw [setCpu_dom]
    refine ⟨hr, hw, ?_⟩
    rw [CpuDomain.held, CpuDomain.held, erase_add_of_nodup (h.nodup_held d), RtDomain.queued,
      RtDomain.queued, erase_add_of_nodup (h.nodup_queued d), hr, hw, cached_clearSlot]
  have hn : t ∉ (st.dom d).held := fun ht => hd (h.cpu_eq hc ht)
  obtain ⟨hr, hw⟩ : t ∉ (st.dom d).domain.readyQueue.elems ∧
      t ∉ (st.dom d).domain.waiting := by
    rw [CpuDomain.mem_held, not_or, RtDomain.mem_queued, not_or] at hn
    exact hn.2
  rw [(onlyAt_setCpu c _ st).others d hd, erase_of_notMem hr,
    erase_of_notMem hw, erase_of_notMem hn]
  exact ⟨rfl, rfl, rfl⟩

end

/-! ### Runs with exits -/

theorem OnlyAt.setTask (h : OnlyAt c st st') (t : TaskId) (p : SlicedTask) :
    OnlyAt c (st.setTask t p) (st'.setTask t p) := by
  refine ⟨fun u => ?_, h.transit, h.others⟩
  by_cases hu : u = t
  · subst hu
    rw [setTask_task_self, setTask_task_self]
  rw [setTask_task_of_ne hu, setTask_task_of_ne hu]
  exact h.same u

end

end SemiState

end Litmus.SemiPart
