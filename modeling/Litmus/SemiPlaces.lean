import Mathlib.Algebra.BigOperators.Group.Finset.Basic
import Mathlib.Data.Fintype.BigOperators
import Litmus.SemiSystem
import Litmus.SliceInvariant

/-!
# Where the tasks are

The places of a machine are its `scheduled` slots, its queues and the tasks in transit.
For each operation of a CPU, what it does to the places of that CPU and to the tasks.
-/

namespace Litmus.SemiPart

open BinomialForest SlicedTask Function

def CpuDomain.held (d : CpuDomain) : Multiset TaskId :=
  Heap.cached d.scheduled + d.domain.queued

theorem CpuDomain.mem_held {d : CpuDomain} {t : TaskId} :
    t ∈ d.held ↔ d.scheduled = some t ∨ t ∈ d.domain.queued := by
  cases hs : d.scheduled <;> simp [held, hs, Heap.cached, eq_comm]

namespace SlicedTask

def unflagged (t : SlicedTask) : SlicedTask := t.modify (RtTask.setRtFlags .running)

theorem congr_unflagged {β : Type} (f : SlicedTask → β) (hf : ∀ t, f t = f t.unflagged)
    {t t' : SlicedTask} (h : t'.unflagged = t.unflagged) : f t' = f t := by
  rw [hf t', h, ← hf t]

end SlicedTask

namespace SemiState

variable {n : Nat}

variable {st st' : SemiState n} {t : TaskId} {c : Fin n} {now : LtTime} {pl : Plugin}

def places (st : SemiState n) : Multiset TaskId := ↑st.transit + ∑ c, (st.dom c).held

/-- The places that are not on CPU `c`. -/
def elsewhere (c : Fin n) (st : SemiState n) : Multiset TaskId :=
  ↑st.transit + ∑ c' ∈ Finset.univ.erase c, (st.dom c').held

theorem places_eq (c : Fin n) (st : SemiState n) :
    st.places = (st.dom c).held + st.elsewhere c := by
  rw [places, elsewhere, ← Finset.add_sum_erase _ _ (Finset.mem_univ c), add_left_comm]

theorem mem_places : t ∈ st.places ↔ t ∈ st.transit ∨ ∃ c, t ∈ (st.dom c).held := by
  simp [places, Multiset.mem_sum]

theorem isQueued_iff : st.isQueued t = true ↔ ∃ c, t ∈ (st.dom c).domain.queued := by
  simp [isQueued, RtDomain.isQueued_iff]

/-! ### One CPU works on its own places -/

/-- `st'` differs from `st` only on CPU `c`, and in flags. -/
structure OnlyAt (c : Fin n) (st st' : SemiState n) : Prop where
  same : ∀ u, (st'.task u).unflagged = (st.task u).unflagged
  transit : st'.transit = st.transit
  others : ∀ c', c' ≠ c → st'.dom c' = st.dom c'

theorem OnlyAt.refl (c : Fin n) (st : SemiState n) : OnlyAt c st st :=
  ⟨fun _ => rfl, rfl, fun _ _ => rfl⟩

theorem OnlyAt.trans {st1 st2 st3 : SemiState n} (h1 : OnlyAt c st1 st2) (h2 : OnlyAt c st2 st3) :
    OnlyAt c st1 st3 where
  same u := (h2.same u).trans (h1.same u)
  transit := h2.transit.trans h1.transit
  others c' hc := (h2.others c' hc).trans (h1.others c' hc)

theorem OnlyAt.elsewhere (h : OnlyAt c st st') : st'.elsewhere c = st.elsewhere c := by
  rw [SemiState.elsewhere, SemiState.elsewhere, h.transit]
  congr 1
  apply Finset.sum_congr rfl
  intro c' hc
  rw [h.others c' (Finset.ne_of_mem_erase hc)]

theorem onlyAt_setFlags (c : Fin n) (t : TaskId) (f : RtFlag) (st : SemiState n) :
    OnlyAt c st (st.setFlags t f) where
  same u := by
    by_cases hu : u = t
    · subst hu
      simp [setFlags, setTask, unflagged, SlicedTask.modify, RtTask.setRtFlags]
    simp [setFlags, setTask, hu]
  transit := rfl
  others _ _ := rfl

theorem onlyAt_setCpu (c : Fin n) (d : CpuDomain) (st : SemiState n) :
    OnlyAt c st (st.setCpu c d) where
  same _ := rfl
  transit := rfl
  others _ hc := update_of_ne hc _ _

@[simp] theorem setCpu_dom (c : Fin n) (d : CpuDomain) (st : SemiState n) :
    (st.setCpu c d).dom c = d := update_self _ _ _

@[simp] theorem setDomain_dom (c : Fin n) (edf : RtDomain) (st : SemiState n) :
    (st.setDomain c edf).dom c = { domain := edf, scheduled := (st.dom c).scheduled } :=
  update_self _ _ _

theorem onlyAt_setDomain (c : Fin n) (edf : RtDomain) (st : SemiState n) :
    OnlyAt c st (st.setDomain c edf) := onlyAt_setCpu c _ st

theorem checkResched_spec (c : Fin n) (st : SemiState n) :
    OnlyAt c st (st.checkResched c) ∧ ((st.checkResched c).dom c).scheduled = (st.dom c).scheduled ∧
      ((st.checkResched c).dom c).domain.queued = (st.dom c).domain.queued := by
  refine ⟨onlyAt_setDomain c _ st, ?_, ?_⟩
  · rw [checkResched, setDomain_dom]
  rw [checkResched, setDomain_dom, queued_edfPreemptionNeeded]

theorem requeue_spec (h : st.requeue now c t = some st') :
    OnlyAt c st st' ∧ (st'.dom c).scheduled = (st.dom c).scheduled ∧
      (st'.dom c).domain.queued = t ::ₘ (st.dom c).domain.queued := by
  have hfl := onlyAt_setFlags c t .running st
  unfold requeue at h
  dsimp only at h
  split at h
  · split at h
    · cases h
    obtain ⟨edf, hedf, rfl⟩ := Option.map_eq_some_iff.mp h
    obtain ⟨honl, hsch, hqu⟩ :=
      checkResched_spec c ((st.setFlags t .running).setDomain c edf)
    refine ⟨(hfl.trans (onlyAt_setDomain c edf _)).trans honl, ?_, ?_⟩
    · rw [hsch, setDomain_dom]
      rfl
    rw [hqu, setDomain_dom, RtDomain.queued_addReady hedf]
    rfl
  cases h
  refine ⟨hfl.trans (onlyAt_setDomain c _ _), ?_, ?_⟩
  · rw [setDomain_dom]
    rfl
  rw [setDomain_dom, RtDomain.queued_addRelease]
  rfl

theorem takeNext_spec (c : Fin n) (st : SemiState n) :
    OnlyAt c st (st.takeNext c) ∧ ((st.takeNext c).dom c).held = (st.dom c).domain.queued := by
  have hta := RtDomain.queued_takeReady st.order (st.dom c).domain
  unfold takeNext
  dsimp only
  split
  · rename_i u hu
    refine ⟨(onlyAt_setCpu c _ st).trans (onlyAt_setFlags c u .running _), ?_⟩
    change ((st.setCpu c _).dom c).held = _
    rw [setCpu_dom]
    exact hta
  refine ⟨onlyAt_setCpu c _ st, ?_⟩
  rw [setCpu_dom]
  exact hta

theorem putBack_cases (h : st.putBack now c t = some st') :
    st.isLocal c t = true ∧ st.requeue now c t = some st' ∨
      st.isLocal c t = false ∧ st' = { st with transit := t :: st.transit } := by
  unfold putBack at h
  split at h
  · rename_i hlo
    exact .inl ⟨hlo, h⟩
  rename_i hlo
  cases h
  exact .inr ⟨by simpa using hlo, rfl⟩

theorem putBack_slot (h : st.putBack now c t = some st') :
    (∀ u, (st'.task u).unflagged = (st.task u).unflagged) ∧
      ∀ c', (st'.dom c').scheduled = (st.dom c').scheduled := by
  rcases putBack_cases h with ⟨-, hrq⟩ | ⟨-, rfl⟩
  · obtain ⟨hon, hsch, -⟩ := requeue_spec hrq
    refine ⟨hon.same, fun c' => ?_⟩
    by_cases hc : c' = c
    · subst hc
      exact hsch
    rw [hon.others c' hc]
  exact ⟨fun _ => rfl, fun _ => rfl⟩

/-! ### Scheduling -/

def Completed (pl : Plugin) (st : SemiState n) (t : TaskId) (p : SlicedTask) : Prop :=
  if completes (st.task t) then
    (st.task t).jobOrSliceCompletion pl (st.isQueued t) ((st.task t).flags == .sleep) = some p
  else p = st.task t

/-- The outcomes of `schedule` on CPU `c`: there was no scheduled task, or it blocked, or
    it stayed on the CPU, or it has to leave for another one. -/
inductive Scheduled (pl : Plugin) (c : Fin n) (st st' : SemiState n) : Prop
  | idle (slot : (st.dom c).scheduled = none) (only : OnlyAt c st st')
      (held : (st'.dom c).held = (st.dom c).held)
  | blocked (t : TaskId) (slot : (st.dom c).scheduled = some t)
      (running : (st.task t).running = false) (only : OnlyAt c st st')
      (held : (st.dom c).held = t ::ₘ (st'.dom c).held)
  | kept (t : TaskId) (p : SlicedTask) (slot : (st.dom c).scheduled = some t)
      (running : (st.task t).running = true) (completed : Completed pl st t p)
      (cpu : p.params.cpu.toNat = c.val) (only : OnlyAt c (st.setTask t p) st')
      (held : (st'.dom c).held = (st.dom c).held)
  | migrated (t : TaskId) (p : SlicedTask) (slot : (st.dom c).scheduled = some t)
      (running : (st.task t).running = true) (completed : Completed pl st t p)
      (cpu : p.params.cpu.toNat ≠ c.val)
      (only : OnlyAt c { st.setTask t p with transit := t :: st.transit } st')
      (held : (st.dom c).held = t ::ₘ (st'.dom c).held)

theorem held_of_scheduled {d : CpuDomain} (h : d.scheduled = some t) :
    d.held = t ::ₘ d.domain.queued := by
  rw [CpuDomain.held, h]
  rfl

theorem isQueued_setDomain {edf : RtDomain} (h : edf.queued = (st.dom c).domain.queued)
    (t : TaskId) : (st.setDomain c edf).isQueued t = st.isQueued t := by
  have hiff : (st.setDomain c edf).isQueued t = true ↔ st.isQueued t = true := by
    rw [isQueued_iff, isQueued_iff]
    apply exists_congr
    intro c'
    by_cases hc : c' = c
    · subst hc
      rw [setDomain_dom, h]
    rw [(onlyAt_setDomain c edf st).others c' hc]
  exact Bool.eq_iff_iff.mpr hiff

theorem setTask_self (t : TaskId) (st : SemiState n) : st.setTask t (st.task t) = st := by
  simp [setTask]

theorem complete_spec {st1 : SemiState n}
    (h : st.complete pl t (completes (st.task t)) ((st.task t).flags == .sleep) = some st1) :
    ∃ p, Completed pl st t p ∧ st1 = st.setTask t p := by
  unfold complete at h
  unfold Completed
  split at h
  · rename_i hc
    obtain ⟨p, hp, rfl⟩ := Option.map_eq_some_iff.mp h
    refine ⟨p, ?_, rfl⟩
    rw [if_pos hc]
    exact hp
  rename_i hc
  cases h
  refine ⟨st.task t, ?_, (setTask_self t st).symm⟩
  rw [if_neg hc]

theorem scheduleTask_spec {preempt : Bool} (slot : (st.dom c).scheduled = some t)
    (h : st.scheduleTask pl now c t preempt = some st') : Scheduled pl c st st' := by
  obtain ⟨st1, h1, h⟩ := Option.bind_eq_some_iff.mp h
  obtain ⟨p, hp, rfl⟩ := complete_spec h1
  have hse : (st.setTask t p).task t = p := update_self _ _ _
  by_cases hr : (st.task t).running = true
  · rw [hr, Bool.not_true] at h
    simp only [Bool.or_false, Bool.false_eq_true, if_false] at h
    split at h
    · obtain ⟨st2, hst2, rfl⟩ := Option.map_eq_some_iff.mp h
      obtain ⟨hta, htk⟩ := takeNext_spec c st2
      rcases putBack_cases hst2 with ⟨hlo, hrq⟩ | ⟨hlo, rfl⟩
      · obtain ⟨hrqo, -, hqu⟩ := requeue_spec hrq
        refine .kept t p slot hr hp ?_ (hrqo.trans hta) ?_
        · rw [isLocal, hse] at hlo
          exact beq_iff_eq.mp hlo
        rw [htk, hqu]
        exact (held_of_scheduled slot).symm
      refine .migrated t p slot hr hp ?_ hta ?_
      · rw [isLocal, hse] at hlo
        exact beq_eq_false_iff_ne.mp hlo
      rw [htk]
      exact held_of_scheduled slot
    rename_i hst
    cases h
    simp only [Bool.or_eq_true, not_or, Bool.not_eq_true, Bool.not_eq_false'] at hst
    obtain ⟨⟨_, hlo⟩, hdo⟩ := hst
    have hpe : p = st.task t := by
      rw [Completed, hdo] at hp
      exact hp
    refine .kept t p slot hr hp ?_ (onlyAt_setFlags c t .running _) rfl
    rw [hpe]
    simpa [isLocal] using hlo
  rw [Bool.not_eq_true] at hr
  have hpe : p = st.task t := by
    have hdo : completes (st.task t) = false := by rw [completes, hr, Bool.and_false]
    rw [Completed, hdo] at hp
    exact hp
  rw [hpe, setTask_self] at h
  rw [hr] at h
  simp only [Bool.not_false, Bool.or_true, Bool.true_or, if_true] at h
  cases h
  obtain ⟨hta, htk⟩ := takeNext_spec c st
  refine .blocked t slot hr hta ?_
  rw [htk]
  exact held_of_scheduled slot

theorem Scheduled.of_setDomain {edf : RtDomain} (hed : edf.queued = (st.dom c).domain.queued)
    (h : Scheduled pl c (st.setDomain c edf) st') : Scheduled pl c st st' := by
  have hh : ((st.setDomain c edf).dom c).held = (st.dom c).held := by
    rw [setDomain_dom, CpuDomain.held, hed]
    rfl
  have hs : ((st.setDomain c edf).dom c).scheduled = (st.dom c).scheduled := by
    rw [setDomain_dom]
  have hon := onlyAt_setDomain c edf st
  have hco : ∀ {t p}, Completed pl (st.setDomain c edf) t p → Completed pl st t p := by
    intro t p hp
    rw [Completed, isQueued_setDomain hed] at hp
    exact hp
  cases h with
  | idle slot only held =>
    exact .idle (hs.symm.trans slot) (hon.trans only) (held.trans hh)
  | blocked t slot running only held =>
    exact .blocked t (hs.symm.trans slot) running (hon.trans only) (hh.symm.trans held)
  | kept t p slot running completed cpu only held =>
    exact .kept t p (hs.symm.trans slot) running (hco completed) cpu
      ((onlyAt_setDomain c edf (st.setTask t p)).trans only) (held.trans hh)
  | migrated t p slot running completed cpu only held =>
    exact .migrated t p (hs.symm.trans slot) running (hco completed) cpu
      ((onlyAt_setDomain c edf { st.setTask t p with transit := t :: st.transit }).trans only)
      (hh.symm.trans held)

theorem schedule_spec {prev : TaskId} (h : st.schedule pl now c prev = some st') :
    Scheduled pl c st st' := by
  have hpee := queued_edfPreemptionNeeded st.table (st.dom c).domain (some prev)
  apply Scheduled.of_setDomain hpee
  unfold schedule at h
  dsimp only at h
  split at h
  · rename_i slot
    cases h
    obtain ⟨htak, htkn⟩ := takeNext_spec c
      (st.setDomain c (edfPreemptionNeeded st.table (st.dom c).domain (some prev)).2)
    refine .idle ?_ htak ?_
    · rw [setDomain_dom]
      exact slot
    rw [htkn, setDomain_dom, CpuDomain.held, slot]
    exact (zero_add _).symm
  rename_i t slot
  split at h
  · cases h
  refine scheduleTask_spec ?_ h
  rw [setDomain_dom]
  exact slot

end SemiState

end Litmus.SemiPart
