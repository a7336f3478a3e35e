import Litmus.RtDomain

/-!
# Taking a task out of a domain

Every `task_exit` begins with `if (is_queued(t)) remove(edf, t)`: `is_queued` says that the task
is in some heap, and `remove` looks for it in the ready queue.
-/

namespace Litmus

open BinomialForest Multiset

theorem erase_add_of_nodup {a b : Multiset TaskId} (h : (a + b).Nodup) (t : TaskId) :
    (a + b).erase t = a.erase t + b.erase t := by
  by_cases ht : t ∈ a
  · have hb : t ∉ b := disjoint_left.mp (nodup_add.mp h).2.2 ht
    rw [erase_add_left_pos b ht, erase_of_notMem hb]
  rw [erase_add_right_neg b ht, erase_of_notMem ht]

/-- `if (scheduled == t) scheduled = NULL` -/
def clearSlot (t : TaskId) (slot : Option TaskId) : Option TaskId :=
  if slot = some t then none else slot

theorem cached_clearSlot (t : TaskId) (slot : Option TaskId) :
    Heap.cached (clearSlot t slot) = (Heap.cached slot).erase t := by
  rcases slot with _ | u
  · rfl
  by_cases hu : u = t
  · subst hu
    simp [clearSlot, Heap.cached]
  rw [clearSlot, if_neg (fun heq => hu (Option.some.inj heq))]
  refine (erase_of_notMem fun ht => hu ?_).symm
  exact (mem_singleton.mp ht).symm

namespace RtDomain

/-- `if (is_queued(t)) remove(edf, t)` -/
def dequeue (order : TaskId → TaskId → Bool) (queued : Bool) (t : TaskId) (dom : RtDomain) :
    Option RtDomain :=
  if queued then dom.remove order t else some dom

variable {order : TaskId → TaskId → Bool} {queued : Bool} {t : TaskId} {dom dom' : RtDomain}

theorem dequeue_spec (hnd : dom.queued.Nodup) (hq : queued = true ↔ t ∈ dom.queued)
    (h : dom.dequeue order queued t = some dom') :
    dom'.readyQueue.elems = dom.readyQueue.elems.erase t ∧ dom'.waiting = dom.waiting.erase t := by
  obtain ⟨hr, -, hdis⟩ := nodup_add.mp hnd
  unfold dequeue at h
  split at h
  · obtain ⟨H, hH, rfl⟩ := Option.map_eq_some_iff.mp h
    have hco := Heap.elems_delete hH hr
    have hw : t ∉ dom.waiting := by
      apply disjoint_left.mp hdis
      rw [hco]
      exact mem_cons_self t _
    rw [hco, erase_cons_head, erase_of_notMem hw]
    exact ⟨rfl, rfl⟩
  rename_i hno
  cases h
  rw [hq, mem_queued, not_or] at hno
  rw [erase_of_notMem hno.1, erase_of_notMem hno.2]
  exact ⟨rfl, rfl⟩

end RtDomain

end Litmus
