import Litmus.Custody
import Litmus.FmSystem

/-!
# Where the tasks of EDF-fm are

The places of a machine: slots, ready queues, release queues, and tasks that are in
transit because a lock is dropped.  For each operation, the place where it puts a task.
-/

namespace Litmus.EdfFm

open BinomialForest FmTask Function

inductive Place (n : Nat) where
  | slot (c : Fin n)
  | ready (c : Fin n)
  | release (c : Fin n)
  /-- leaving CPU `c`, whose `edffm_schedule` has dropped the lock -/
  | leaving (c : Fin n)
  /-- being woken up, with the lock dropped -/
  | waking
deriving DecidableEq

/-- The CPU that a place belongs to; tasks in transit are between two. -/
def Place.cpu {n : Nat} : Place n → Option (Fin n)
  | slot c => some c
  | ready c => some c
  | release c => some c
  | leaving _ => none
  | waking => none

def FmTask.view (p : FmTask) : Bool × Bool × BitVec 32 × BitVec 32 × (Fin 2 → BitVec 32) :=
  (p.realtime, p.running, p.params.cpu, p.nrCpus, p.cpus)

namespace FmState

variable {n : Nat} {st st' : FmState n} {c : Fin n} {t : TaskId} {p p' : FmTask}

/-- The tasks at each place.  The slot of a CPU that is migrating its task away does not
    count. -/
def held (st : FmState n) : Place n → Multiset TaskId
  | .slot c => if st.call c = .idle then Heap.cached (st.dom c).scheduled else 0
  | .ready c => (st.dom c).domain.readyQueue.elems
  | .release c => (st.dom c).domain.waiting
  | .leaving c =>
      match st.call c with
      | .unlocked t => {t}
      | _ => 0
  | .waking => ↑st.waking

def Live (st : FmState n) (t : TaskId) : Prop :=
  (st.task t).realtime = true ∧ (st.task t).running = true

theorem mem_slot : t ∈ st.held (.slot c) ↔ st.call c = .idle ∧ (st.dom c).scheduled = some t := by
  by_cases hca : st.call c = .idle
  · cases hs : (st.dom c).scheduled <;> simp [held, hca, hs, Heap.cached, eq_comm]
  simp [held, hca]

theorem isQueued_iff : st.isQueued t = true ↔ ∃ c, t ∈ (st.dom c).domain.queued := by
  simp [isQueued, RtDomain.isQueued_iff]

/-! ### Frames -/

/-- `st'` has the same slots and calls as `st`, and tasks that differ in flags and jobs
    only. -/
structure Same (st st' : FmState n) : Prop where
  view : ∀ u, (st'.task u).view = (st.task u).view
  taskCpu : st'.taskCpu = st.taskCpu
  call : st'.call = st.call
  slots : ∀ c, (st'.dom c).scheduled = (st.dom c).scheduled

theorem Same.refl (st : FmState n) : Same st st :=
  ⟨fun _ => rfl, rfl, rfl, fun _ => rfl⟩

theorem Same.trans {st1 st2 st3 : FmState n} (h1 : Same st1 st2) (h2 : Same st2 st3) :
    Same st1 st3 where
  view u := (h2.view u).trans (h1.view u)
  taskCpu := h2.taskCpu.trans h1.taskCpu
  call := h2.call.trans h1.call
  slots c := (h2.slots c).trans (h1.slots c)

theorem Same.slot (h : Same st st') (c : Fin n) : st'.held (.slot c) = st.held (.slot c) := by
  simp [held, h.call, h.slots]

theorem Same.leaving (h : Same st st') (c : Fin n) :
    st'.held (.leaving c) = st.held (.leaving c) := by
  simp [held, h.call]

theorem same_setFlags (t : TaskId) (f : RtFlag) (st : FmState n) : Same st (st.setFlags t f) where
  view u := by
    by_cases hu : u = t
    · subst hu
      simp [setFlags, setTask, view, FmTask.modify, RtTask.setRtFlags]
    simp [setFlags, setTask, hu]
  taskCpu := rfl
  call := rfl
  slots _ := rfl

@[simp] theorem setDomain_self (c : Fin n) (edf : RtDomain) (st : FmState n) :
    (st.setDomain c edf).dom c = { domain := edf, scheduled := (st.dom c).scheduled } :=
  update_self _ _ _

theorem setDomain_of_ne {c' : Fin n} (h : c' ≠ c) (edf : RtDomain) (st : FmState n) :
    (st.setDomain c edf).dom c' = st.dom c' := update_of_ne h _ _

theorem same_setDomain (c : Fin n) (edf : RtDomain) (st : FmState n) :
    Same st (st.setDomain c edf) where
  view _ := rfl
  taskCpu := rfl
  call := rfl
  slots c' := by
    by_cases hc : c' = c
    · subst hc
      rw [setDomain_self]
    rw [setDomain_of_ne hc]

/-- One task is added at `p`. -/
structure Added (p : Place n) (t : TaskId) (st st' : FmState n) : Prop extends Same st st' where
  here : st'.held p = t ::ₘ st.held p
  others : ∀ q, q ≠ p → st'.held q = st.held q

theorem Added.of_same {p : Place n} {st1 st2 st3 : FmState n} (hs : Same st1 st2)
    (hh : ∀ q, st2.held q = st1.held q) (h : Added p t st2 st3) : Added p t st1 st3 where
  toSame := hs.trans h.toSame
  here := by rw [h.here, hh]
  others q hq := by rw [h.others q hq, hh]

theorem held_setDomain_of_ne {edf : RtDomain} {q : Place n} (hr : q ≠ .ready c)
    (hre : q ≠ .release c) : (st.setDomain c edf).held q = st.held q := by
  have hs := same_setDomain c edf st
  cases q with
  | slot c' => exact hs.slot c'
  | leaving c' => exact hs.leaving c'
  | waking => rfl
  | ready c' =>
    have hc : c' ≠ c := fun h => hr (h ▸ rfl)
    simp [held, setDomain_of_ne hc]
  | release c' =>
    have hc : c' ≠ c := fun h => hre (h ▸ rfl)
    simp [held, setDomain_of_ne hc]

theorem held_ready_setDomain (c : Fin n) (edf : RtDomain) (st : FmState n) :
    (st.setDomain c edf).held (.ready c) = edf.readyQueue.elems := by
  simp [held]

theorem held_release_setDomain (c : Fin n) (edf : RtDomain) (st : FmState n) :
    (st.setDomain c edf).held (.release c) = edf.waiting := by
  simp [held]

theorem held_setDomain {edf : RtDomain}
    (hrd : edf.readyQueue.elems = (st.dom c).domain.readyQueue.elems)
    (hwai : edf.waiting = (st.dom c).domain.waiting) (q : Place n) :
    (st.setDomain c edf).held q = st.held q := by
  by_cases hr : q = .ready c
  · subst hr
    rw [held_ready_setDomain, hrd]
    rfl
  by_cases hw : q = .release c
  · subst hw
    rw [held_release_setDomain, hwai]
    rfl
  exact held_setDomain_of_ne hr hw

theorem held_setFlags (t : TaskId) (f : RtFlag) (st : FmState n) (q : Place n) :
    (st.setFlags t f).held q = st.held q := by
  cases q <;> rfl

theorem held_setTask (t : TaskId) (p : FmTask) (st : FmState n) (q : Place n) :
    (st.setTask t p).held q = st.held q := by
  cases q <;> rfl

/-! ### Queues -/

theorem addReady_spec (h : st.addReady c t = some st') : Added (.ready c) t st st' := by
  unfold FmState.addReady at h
  split at h
  · cases h
  obtain ⟨edf, hed, rfl⟩ := Option.map_eq_some_iff.mp h
  unfold RtDomain.addReady at hed
  split at hed
  · cases hed
  cases hed
  refine ⟨same_setDomain c _ st, ?_, ?_⟩
  · rw [held_ready_setDomain, Heap.elems_insert]
    rfl
  intro q hq
  by_cases hw : q = .release c
  · subst hw
    rw [held_release_setDomain, RtDomain.waiting_setReady]
    rfl
  exact held_setDomain_of_ne hq hw

theorem addRelease_spec (c : Fin n) (t : TaskId) (st : FmState n) :
    Added (.release c) t st (st.addRelease c t) := by
  unfold FmState.addRelease
  refine ⟨same_setDomain c _ st, ?_, ?_⟩
  · rw [held_release_setDomain, RtDomain.waiting_addRelease]
    rfl
  intro q hq
  by_cases hr : q = .ready c
  · subst hr
    rw [held_ready_setDomain]
    rfl
  exact held_setDomain_of_ne hr hq

theorem cpu_of_domainOfTask (h : st.domainOfTask t = some c) :
    (st.task t).params.cpu.toNat = c.val := by
  unfold domainOfTask at h
  split at h
  · cases h
    rfl
  cases h

theorem insertTaskInRemoteReady_spec (h : st.insertTaskInRemoteReady t = some st') :
    ∃ c : Fin n, (st.task t).params.cpu.toNat = c.val ∧ Added (.ready c) t st st' := by
  obtain ⟨c, hc, h⟩ := Option.bind_eq_some_iff.mp h
  exact ⟨c, cpu_of_domainOfTask hc, addReady_spec h⟩

theorem wrongCpu_of_view (h : Same st st') (t : TaskId) : st'.wrongCpu t = st.wrongCpu t := by
  have hvi := h.view t
  simp only [view, Prod.mk.injEq] at hvi
  simp [wrongCpu, isMigratTask, hvi.2.2.1, hvi.2.2.2.1, h.taskCpu]

/-- What `requeue` does: it drops the lock for a released task on the wrong CPU, or puts
    the task into a queue of its own CPU, if `c` is the CPU of a task that is not wrong. -/
theorem requeue_spec {now : LtTime} {dropped : Bool} (h : st.requeue now c t = some (st', dropped))
    (hlo : st.wrongCpu t = false → (st.task t).params.cpu.toNat = c.val) :
    dropped = true ∧ Same st st' ∧ (∀ q, st'.held q = st.held q) ∨
      dropped = false ∧ ∃ (p : Place n) (c' : Fin n), (p = .ready c' ∨ p = .release c') ∧
        (st.task t).params.cpu.toNat = c'.val ∧ Added p t st st' := by
  have hfl := same_setFlags t .running st
  have hh := held_setFlags t .running st
  have hwro := wrongCpu_of_view hfl t
  have hc : ((st.setFlags t .running).task t).params.cpu = (st.task t).params.cpu :=
    congrArg (fun v => v.2.2.1) (hfl.view t)
  unfold requeue at h
  dsimp only at h
  rw [hwro] at h
  split at h
  · split at h
    · split at h
      · cases h
        exact .inl ⟨rfl, hfl, hh⟩
      cases h
    rename_i hri
    obtain ⟨st1, h1, heq⟩ := Option.map_eq_some_iff.mp h
    cases heq
    refine .inr ⟨rfl, .ready c, c, .inl rfl, hlo (by simpa using hri), ?_⟩
    exact (addReady_spec h1).of_same hfl hh
  split at h
  · obtain ⟨st1, h1, heq⟩ := Option.map_eq_some_iff.mp h
    cases heq
    obtain ⟨c', hc', rfl⟩ := Option.map_eq_some_iff.mp h1
    refine .inr ⟨rfl, .release c', c', .inr rfl, ?_, ?_⟩
    · rw [← hc]
      exact cpu_of_domainOfTask hc'
    exact (addRelease_spec c' t _).of_same hfl hh
  rename_i hri
  cases h
  refine .inr ⟨rfl, .release c, c, .inr rfl, hlo (by simpa using hri), ?_⟩
  exact (addRelease_spec c t _).of_same hfl hh

theorem edffmPreemptionNeeded_contents (task : TaskId → FmTask) (dom : RtDomain)
    (t : Option TaskId) :
    (edffmPreemptionNeeded task dom t).2.readyQueue.elems = dom.readyQueue.elems ∧
      (edffmPreemptionNeeded task dom t).2.waiting = dom.waiting := by
  unfold edffmPreemptionNeeded
  split
  · exact ⟨rfl, rfl⟩
  split
  · exact ⟨rfl, rfl⟩
  split
  · exact ⟨rfl, rfl⟩
  exact ⟨RtDomain.ready_nextReady _ dom, rfl⟩

/-! ### Changing jobs -/

/-- A task after a new job has been prepared for it: it may have changed its CPU, if it is
    migratory. -/
structure Rehomed (p p' : FmTask) : Prop where
  realtime : p'.realtime = p.realtime
  running : p'.running = p.running
  inhTask : p'.inhTask = p.inhTask
  nrCpus : p'.nrCpus = p.nrCpus
  cpus : p'.cpus = p.cpus
  cpu : p'.params.cpu = p.params.cpu ∨ p.isMigratTask = true ∧ ∃ i, p'.params.cpu = p.cpus i

theorem rehomed_changeMigratCpu (h : p.updateJobCounter.changeMigratCpuIfNeeded = some p') :
    Rehomed p p' := by
  unfold changeMigratCpuIfNeeded at h
  split at h
  · cases h
  rename_i hmig
  have hmig' : p.updateJobCounter.isMigratTask = true := by simpa using hmig
  obtain ⟨next, -, rfl⟩ := Option.map_eq_some_iff.mp h
  split
  · refine ⟨rfl, rfl, rfl, rfl, rfl, .inr ⟨hmig', ?_⟩⟩
    by_cases hfi : p.updateJobCounter.params.cpu = p.updateJobCounter.cpus 0
    · exact ⟨1, if_pos hfi⟩
    exact ⟨0, if_neg hfi⟩
  exact ⟨rfl, rfl, rfl, rfl, rfl, .inl rfl⟩

theorem rehomed_map {f : FmTask → FmTask}
    (h : (if p.isMigratTask then p.updateJobCounter.changeMigratCpuIfNeeded else some p).map f =
      some p') (hf : ∀ q, (f q).view = q.view) (hinh : ∀ q, (f q).inhTask = q.inhTask) :
    Rehomed p p' := by
  obtain ⟨q, hq, rfl⟩ := Option.map_eq_some_iff.mp h
  have hre : Rehomed p q := by
    split at hq
    · exact rehomed_changeMigratCpu hq
    cases hq
    exact ⟨rfl, rfl, rfl, rfl, rfl, .inl rfl⟩
  have hvi := hf q
  simp only [view, Prod.mk.injEq] at hvi
  obtain ⟨hrt, hr, hc, hnr, hcpu⟩ := hvi
  refine ⟨hrt.trans hre.realtime, hr.trans hre.running,
    (hinh q).trans hre.inhTask, hnr.trans hre.nrCpus, hcpu.trans hre.cpus, ?_⟩
  rw [hc]
  exact hre.cpu

theorem rehomed_jobCompletion (h : p.jobCompletion = some p') :
    Rehomed p p' := rehomed_map h (fun _ => rfl) (fun _ => rfl)

theorem rehomed_wakeJob {now : LtTime} (h : wakeJob now p = some p') : Rehomed p p' := by
  unfold wakeJob at h
  split at h
  · exact rehomed_map h (fun _ => rfl) (fun _ => rfl)
  cases h
  exact ⟨rfl, rfl, rfl, rfl, rfl, .inl rfl⟩

end FmState

end Litmus.EdfFm
