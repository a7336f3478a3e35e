import Litmus.Custody
import Litmus.PsnSystem

/-!
# Tasks and places of PSN-EDF

What each step does to the one task it is about, and where the tasks are.  Every runnable task
is in the `scheduled` slot, in the ready queue or in a release heap of its own CPU.
-/

namespace Litmus.PsnEdf

open BinomialForest Custody Runs Function Multiset Option
open Option (map_eq_some_iff bind_eq_some_iff)
open RtTask (setRunning setRtFlags setRealtime)

def PsnTask.unflagged (p : PsnTask) : PsnTask := { p with flags := .running }

inductive Place (n : Nat) where
  | scheduled (c : Fin n)
  | ready (c : Fin n)
  | release (c : Fin n)
deriving DecidableEq

def Place.cpu {n : Nat} : Place n → Fin n
  | .scheduled c => c
  | .ready c => c
  | .release c => c

namespace PsnState

variable {n : Nat}

def held (st : PsnState n) : Place n → Multiset TaskId
  | .scheduled c => Heap.cached (st.dom c).scheduled
  | .ready c => (st.dom c).domain.readyQueue.elems
  | .release c => (st.dom c).domain.waiting

/-- An admitted task that is not blocked and has not exited. -/
def Live (st : PsnState n) (t : TaskId) : Prop :=
  (st.task t).realtime = true ∧ (st.task t).running = true

section

variable {st st' : PsnState n} {c : Fin n} {t u : TaskId} {now : LtTime} {op : PsnOp n}

/-! ### What a step does to the tasks -/

def subject (st : PsnState n) : PsnOp n → Option TaskId
  | .schedule c _ _ => (st.dom c).scheduled
  | .block c _ => (st.dom c).scheduled
  | .releaseTimer _ _ => none
  | .releaseJobs _ _ => none
  | .taskWakeUp t _ _ _ => some t
  | .taskNew t _ _ _ _ => some t
  | .taskExit t => some t
  | .releaseAt t _ => some t
  | .setNp c _ => (st.dom c).scheduled
  | .execute c _ => (st.dom c).scheduled
  | .completeJob c => (st.dom c).scheduled

/-- What becomes of the task that a step is about, apart from its flags. -/
def effect : PsnOp n → PsnTask → PsnTask
  | .schedule _ _ _, p =>
      if completes p then { p with toRtTask := jobCompletion p.toRtTask } else p
  | .block _ _, p => { p with running := false }
  | .releaseTimer _ _, p => p
  | .releaseJobs _ _, p => p
  | .taskWakeUp _ exitSem now _, p =>
      { p with toRtTask := wakeJob now exitSem (p.setRunning true) }
  | .taskNew _ params _ now _, _ =>
      { RtTask.releaseAt now (RtTask.admitted params) with np := false }
  | .taskExit _, p => { p with realtime := false }
  | .releaseAt _ start, p => { p with toRtTask := p.releaseAt start }
  | .setNp _ np, p => { p with np := np }
  | .execute _ delta, p => { p with toRtTask := p.updateTime delta }
  | .completeJob _, p => p

def SameTasks (st st' : PsnState n) : Prop :=
  ∀ u, (st'.task u).unflagged = (st.task u).unflagged

theorem SameTasks.refl (st : PsnState n) : SameTasks st st := fun _ => rfl

theorem SameTasks.trans {st1 st2 st3 : PsnState n} (h : SameTasks st1 st2)
    (h' : SameTasks st2 st3) : SameTasks st1 st3 := fun u => (h' u).trans (h u)

@[simp] theorem setTask_self (p : PsnTask) : (st.setTask t p).task t = p :=
  update_self _ _ _

theorem setTask_of_ne (hu : u ≠ t) (p : PsnTask) : (st.setTask t p).task u = st.task u :=
  update_of_ne hu _ _

/-- Only the task `t` has changed, into `p`. -/
def Changed (t : TaskId) (p : PsnTask) (st st' : PsnState n) : Prop :=
  SameTasks (st.setTask t p) st'

theorem Changed.subject {p : PsnTask} (h : Changed t p st st') :
    (st'.task t).unflagged = p.unflagged := by
  have ht := h t
  rwa [setTask_self] at ht

theorem Changed.other {p : PsnTask} (h : Changed t p st st') (hu : u ≠ t) :
    (st'.task u).unflagged = (st.task u).unflagged := by
  have ht := h u
  rwa [setTask_of_ne hu] at ht

theorem sameTasks_setFlags (t : TaskId) (f : RtFlag) (st : PsnState n) :
    SameTasks st (st.modify t (setRtFlags f)) := by
  intro u
  by_cases hu : u = t
  · subst hu
    rw [modify, setTask_self]
    rfl
  rw [modify, setTask_of_ne hu]

theorem preempt_task (c : Fin n) (st : PsnState n) : (st.preempt c).task = st.task := by
  unfold preempt
  split
  · split <;> rfl
  rfl

theorem checkResched_task (c : Fin n) (st : PsnState n) :
    (st.psnedfCheckResched c).task = st.task := by
  simp only [psnedfCheckResched]
  split
  · exact preempt_task c _
  rfl

theorem requeue_sameTasks (h : st.requeue now c t = some st') : SameTasks st st' := by
  have hfl := sameTasks_setFlags t .running st
  simp only [requeue] at h
  split at h
  · split at h
    · cases h
    obtain ⟨edf, _, rfl⟩ := map_eq_some_iff.mp h
    refine hfl.trans fun u => ?_
    rw [checkResched_task]
    rfl
  cases h
  exact hfl

theorem takeNext_sameTasks (c : Fin n) (st : PsnState n) : SameTasks st (st.takeNext c) := by
  simp only [takeNext]
  split
  · exact sameTasks_setFlags _ .running _
  exact .refl st

theorem schedule_changed {prev : TaskId} (h : st.psnedfSchedule now c prev = some st') :
    (st.dom c).scheduled = none ∧ SameTasks st st' ∨
      ∃ t, (st.dom c).scheduled = some t ∧ prev = t ∧ (st.task t).realtime = true ∧
        Changed t (if completes (st.task t) then
          { st.task t with toRtTask := jobCompletion (st.task t).toRtTask } else st.task t) st st' := by
  unfold psnedfSchedule at h
  dsimp only at h
  split at h
  · rename_i hn
    cases h
    exact .inl ⟨hn, takeNext_sameTasks c _⟩
  rename_i t ht
  split at h
  · cases h
  rename_i hpr
  simp only [ne_eq, Bool.or_eq_true, decide_eq_true_eq, Bool.not_eq_true', not_or,
    Decidable.not_not, Bool.not_eq_false] at hpr
  obtain ⟨rfl, hrt⟩ := hpr
  refine .inr ⟨t, ht, rfl, hrt, ?_⟩
  simp only [scheduleTask] at h
  have hdo : SameTasks (st.setTask t (if completes (st.task t) then
      { st.task t with toRtTask := jobCompletion (st.task t).toRtTask } else st.task t))
      (if completes (st.task t) then (st.setDomain c (edfPreemptionNeeded st.table
        (st.dom c).domain (some t)).2).modify t jobCompletion else st.setDomain c
          (edfPreemptionNeeded st.table (st.dom c).domain (some t)).2) := by
    intro u
    by_cases hc : completes (st.task t) = true
    · rw [if_pos hc, if_pos hc]
      rfl
    rw [if_neg hc, if_neg hc, setTask, update_eq_self]
    rfl
  split at h
  · obtain ⟨st1, h1, rfl⟩ := map_eq_some_iff.mp h
    refine (hdo.trans ?_).trans (takeNext_sameTasks c st1)
    split at h1
    · cases h1
      exact .refl _
    exact requeue_sameTasks h1
  cases h
  exact hdo.trans (sameTasks_setFlags t .running _)

theorem block_changed (h : st.exec (.block c now) = some st') :
    ∃ t, (st.dom c).scheduled = some t ∧ (st.task t).realtime = true ∧ st.isQueued t = false ∧
      (st.modify t (setRunning false)).psnedfSchedule now c t = some st' ∧
      Changed t { st.task t with running := false } st st' := by
  obtain ⟨t, ht, h⟩ := bind_eq_some_iff.mp h
  obtain ⟨st1, h1, h⟩ := bind_eq_some_iff.mp h
  unfold psnedfTaskBlock at h1
  split at h1
  · cases h1
  rename_i hbu
  simp only [Bool.or_eq_true, Bool.not_eq_true', not_or, Bool.not_eq_false, Bool.not_eq_true] at hbu
  cases h1
  have hrt : (st.task t).realtime = true := by
    have := hbu.1
    rwa [modify, setTask_self] at this
  refine ⟨t, ht, hrt, hbu.2, h, ?_⟩
  rcases schedule_changed h with ⟨hn, _⟩ | ⟨u, hu, _, _, hch⟩
  · cases ht.symm.trans hn
  obtain rfl : u = t := some.inj (hu.symm.trans ht)
  have hsta : completes ((st.modify u (setRunning false)).task u) = false := by
    simp [completes, modify, setRunning]
  rw [if_neg (by simp [hsta])] at hch
  intro v
  refine (hch v).trans ?_
  by_cases hv : v = u
  · subst hv
    simp [modify, setRunning]
  simp [modify, setTask_of_ne hv]

theorem exit_task (h : st.psnedfTaskExit t = some st') : st'.task = st.task := by
  obtain ⟨c, _, h⟩ := bind_eq_some_iff.mp h
  obtain ⟨st1, h1, rfl⟩ := map_eq_some_iff.mp h
  have htask1 : st1.task = st.task := by
    split at h1
    · obtain ⟨edf, _, rfl⟩ := map_eq_some_iff.mp h1
      rfl
    cases h1
    rfl
  refine (preempt_task c _).trans ?_
  split
  · exact htask1
  exact htask1

theorem exec_task (h : st.exec op = some st') (u : TaskId) : (st'.task u).unflagged =
      (if st.subject op = some u then effect op (st.task u) else st.task u).unflagged := by
  have hon : ∀ {t : TaskId}, st.subject op = some t → Changed t (effect op (st.task t)) st st' →
      (st'.task u).unflagged =
        (if st.subject op = some u then effect op (st.task u) else st.task u).unflagged := by
    intro t ht hch
    by_cases hu : u = t
    · subst hu
      rw [if_pos ht]
      exact hch.subject
    rw [if_neg (fun heq => hu (some.inj (heq.symm.trans ht)))]
    exact hch.other hu
  rcases op with ⟨c, prev, now⟩ | ⟨c, now⟩ | ⟨c, i⟩ | ⟨c, i⟩ | ⟨t, exitSem, now, requeued⟩ |
    ⟨t, params, running, now, requeued⟩ | t | ⟨t, start⟩ | ⟨c, np⟩ | ⟨c, delta⟩ | c
  · rcases schedule_changed h with ⟨hn, hs⟩ | ⟨t, ht, _, _, hch⟩
    · simp only [subject, hn, reduceCtorEq, if_false]
      exact hs u
    exact hon ht hch
  · obtain ⟨t, ht, _, _, _, hch⟩ := block_changed h
    exact hon ht hch
  · obtain ⟨edf, _, rfl⟩ := map_eq_some_iff.mp h
    rfl
  · obtain ⟨edf, _, rfl⟩ := map_eq_some_iff.mp h
    simp only [subject, reduceCtorEq, if_false, checkResched_task]
    rfl
  · refine hon rfl ?_
    obtain ⟨c, _, h⟩ := bind_eq_some_iff.mp h
    split at h
    · cases h
    have hwo : SameTasks (st.setTask t (effect (.taskWakeUp t exitSem now requeued : PsnOp n)
        (st.task t))) ((st.modify t (setRunning true)).modify t (wakeJob now exitSem)) := by
      intro v
      by_cases hv : v = t
      · subst hv
        simp [modify, effect]
      simp [modify, setTask_of_ne hv]
    dsimp only at h
    split at h
    · exact hwo.trans (requeue_sameTasks h)
    cases h
    exact hwo
  · refine hon rfl ?_
    obtain ⟨c, _, h⟩ := bind_eq_some_iff.mp h
    have hne : SameTasks (st.setTask t (effect (.taskNew t params running now requeued : PsnOp n)
        (st.task t))) ((st.setTask t { RtTask.admitted params with np := false }).modify t
          (RtTask.releaseAt now)) := by
      intro v
      by_cases hv : v = t
      · subst hv
        simp [modify, effect]
      simp [modify, setTask_of_ne hv]
    dsimp only at h
    split at h
    · split at h
      · cases h
      cases h
      exact hne
    obtain ⟨st1, h1, rfl⟩ := map_eq_some_iff.mp h
    refine hne.trans ((requeue_sameTasks h1).trans fun v => ?_)
    rw [preempt_task]
  · refine hon rfl ?_
    obtain ⟨st1, h1, rfl⟩ := map_eq_some_iff.mp h
    intro v
    by_cases hv : v = t
    · subst hv
      simp [modify, effect, exit_task h1, setRealtime]
    simp [modify, setTask_of_ne hv, exit_task h1]
  · cases h
    exact hon rfl (.refl _)
  · obtain ⟨t, ht, rfl⟩ := map_eq_some_iff.mp h
    exact hon ht (.refl _)
  · obtain ⟨t, ht, rfl⟩ := map_eq_some_iff.mp h
    exact hon ht (.refl _)
  · obtain ⟨t, ht, rfl⟩ := map_eq_some_iff.mp h
    refine hon ht fun v => ?_
    by_cases hv : v = t
    · subst hv
      rw [modify, setTask_self, setTask_self]
      rfl
    rw [modify, setTask_of_ne hv, setTask_of_ne hv]

/-! ### What the operations do to the places -/

@[simp] theorem setCpu_dom (d : PsnDomain) : (st.setCpu c d).dom c = d :=
  update_self _ _ _

theorem setCpu_dom_of_ne {c' : Fin n} (h : c' ≠ c) (d : PsnDomain) :
    (st.setCpu c d).dom c' = st.dom c' := update_of_ne h _ _

theorem held_setCpu {q : Place n} (hq : q.cpu ≠ c) (d : PsnDomain) :
    (st.setCpu c d).held q = st.held q := by
  rcases q with e | e | e
  · exact congrArg (fun d => Heap.cached d.scheduled) (setCpu_dom_of_ne hq d)
  · exact congrArg (fun d => d.domain.readyQueue.elems) (setCpu_dom_of_ne hq d)
  exact congrArg (fun d => d.domain.waiting) (setCpu_dom_of_ne hq d)

theorem held_setCpu_but (d : PsnDomain) (p : Place n)
    (hs : p ≠ .scheduled c → d.scheduled = (st.dom c).scheduled)
    (hr : p ≠ .ready c → d.domain.readyQueue.elems = (st.dom c).domain.readyQueue.elems)
    (hw : p ≠ .release c → d.domain.waiting = (st.dom c).domain.waiting) {q : Place n}
    (hq : q ≠ p) : (st.setCpu c d).held q = st.held q := by
  by_cases hc : q.cpu = c
  · rcases q with e | e | e <;> obtain rfl : e = c := hc
    · simp [held, hs hq.symm]
    · simp [held, hr hq.symm]
    simp [held, hw hq.symm]
  exact held_setCpu hc d

theorem held_setCpu_same (d : PsnDomain) (hs : d.scheduled = (st.dom c).scheduled)
    (hr : d.domain.readyQueue.elems = (st.dom c).domain.readyQueue.elems)
    (hw : d.domain.waiting = (st.dom c).domain.waiting) (q : Place n) :
    (st.setCpu c d).held q = st.held q := by
  by_cases hq : q = .scheduled c
  · subst hq
    simp [held, hs]
  exact held_setCpu_but d (.scheduled c) (fun _ => hs) (fun _ => hr) (fun _ => hw) hq

theorem held_setDomain (st : PsnState n) (edf : RtDomain) (p : Place n)
    (hr : p ≠ .ready c → edf.readyQueue.elems = (st.dom c).domain.readyQueue.elems)
    (hw : p ≠ .release c → edf.waiting = (st.dom c).domain.waiting) {q : Place n} (hq : q ≠ p) :
    (st.setDomain c edf).held q = st.held q :=
  held_setCpu_but { st.dom c with domain := edf } p (fun _ => rfl) hr hw hq

theorem preempt_held (c : Fin n) (st : PsnState n) (q : Place n) :
    (st.preempt c).held q = st.held q := by
  have hse := held_setCpu_same { st.dom c with resched := true } rfl rfl rfl q
  unfold preempt
  split
  · split
    · rfl
    exact hse
  exact hse

theorem checkResched_held (c : Fin n) (st : PsnState n) (q : Place n) :
    (st.psnedfCheckResched c).held q = st.held q := by
  obtain ⟨hr, hw⟩ := edfPreemptionNeeded_contents st.table (st.dom c).domain
    (st.dom c).scheduled
  have hse :=
    held_setCpu_same { st.dom c with domain := (edfPreemptionNeeded st.table (st.dom c).domain
      (st.dom c).scheduled).2 } rfl hr hw q
  simp only [psnedfCheckResched]
  split
  · exact (preempt_held c _ q).trans hse
  exact hse

/-- Requeuing puts a task into the ready queue or a release heap of the CPU. -/
theorem requeue_held (h : st.requeue now c t = some st') :
    ∃ q : Place n, (q = .ready c ∨ q = .release c) ∧ st'.held q = t ::ₘ st.held q ∧
      ∀ r, r ≠ q → st'.held r = st.held r := by
  simp only [requeue] at h
  split at h
  · split at h
    · cases h
    obtain ⟨edf, hed, rfl⟩ := map_eq_some_iff.mp h
    unfold RtDomain.addReady at hed
    split at hed
    · cases hed
    cases hed
    refine ⟨.ready c, .inl rfl, ?_, fun r hr => ?_⟩
    · refine (checkResched_held c _ _).trans ?_
      simp only [setDomain, held, setCpu_dom]
      exact Heap.elems_insert _ _ _
    refine (checkResched_held c _ r).trans ?_
    refine held_setDomain (st.modify t (setRtFlags .running)) _ (.ready c)
      (fun h => absurd rfl h) (fun _ => ?_) hr
    rfl
  cases h
  refine ⟨.release c, .inr rfl, ?_, fun r hr => ?_⟩
  · simp only [setDomain, held, setCpu_dom]
    exact RtDomain.waiting_addRelease _ _ _ _
  refine held_setDomain (st.modify t (setRtFlags .running)) _ (.release c)
    (fun _ => ?_) (fun h => absurd rfl h) hr
  rfl

/-- The places, without the slot of CPU `c`. -/
def slotless (c : Fin n) (st : PsnState n) : Place n → Multiset TaskId :=
  update st.held (.scheduled c) 0

@[simp] theorem slotless_self (c : Fin n) (st : PsnState n) :
    st.slotless c (.scheduled c) = 0 := update_self _ _ _

theorem slotless_of_ne {q : Place n} (hq : q ≠ .scheduled c) : st.slotless c q = st.held q :=
  update_of_ne hq _ _

theorem slotless_of_none (h : (st.dom c).scheduled = none) (q : Place n) :
    st.slotless c q = st.held q := by
  by_cases hq : q = .scheduled c
  · subst hq
    simp [held, h, Heap.cached]
  exact slotless_of_ne hq

theorem Sound.takeNext {live : TaskId → Prop} (h : Sound (st.slotless c) live) :
    Sound (st.takeNext c).held live := by
  have hh : ∀ q, (st.takeNext c).held q = (st.setCpu c ⟨((st.dom c).domain.takeReady
      st.order).2, ((st.dom c).domain.takeReady st.order).1, false⟩).held q := by
    intro q
    simp only [PsnState.takeNext]
    split <;> rcases q with e | e | e <;> rfl
  have ho : ∀ q : Place n, q ≠ .scheduled c → q ≠ .ready c →
      (st.takeNext c).held q = st.slotless c q := by
    intro q hs hr
    rw [hh, slotless_of_ne hs]
    by_cases hq : q.cpu = c
    · rcases q with e | e | e <;> obtain rfl : e = c := hq
      · exact absurd rfl hs
      · exact absurd rfl hr
      simp only [held, setCpu_dom]
      rfl
    exact held_setCpu hq _
  have hr : (Place.ready c : Place n) ≠ .scheduled c := nofun
  rcases hn : ((st.dom c).domain.takeReady st.order).1 with _ | u
  · refine h.congr (fun q => ?_) (fun _ => .rfl)
    by_cases hs : q = .scheduled c
    · subst hs
      rw [hh, slotless_self]
      simp only [held, setCpu_dom, hn]
      rfl
    by_cases hq : q = .ready c
    · subst hq
      rw [hh, slotless_of_ne hr]
      simp only [held, setCpu_dom]
      exact (RtDomain.ready_takeReady_none hn).trans (RtDomain.takeReady_eq_none.mp hn).symm
    exact ho q hs hq
  refine h.move (a := .ready c) (b := .scheduled c) (t := u) hr ?_ ?_
    (fun q hq hs => ho q hs hq) (fun _ => .rfl)
  · rw [hh, slotless_of_ne hr]
    simp only [held, setCpu_dom]
    exact RtDomain.ready_takeReady_some hn
  rw [hh, slotless_self]
  simp only [held, setCpu_dom, hn]
  rfl

theorem Sound.leaveSlot {live : TaskId → Prop} (h : Sound st.held live)
    (ht : (st.dom c).scheduled = some t) : Sound (st.slotless c) (fun u => u ≠ t ∧ live u) := by
  refine h.leave (a := .scheduled c) ?_ (fun q hq => slotless_of_ne hq) (fun _ => .rfl)
  rw [slotless_self]
  exact congrArg Heap.cached ht

theorem Sound.requeueSlotless {live : TaskId → Prop} (h : Sound (st.slotless c) live)
    (ht : ¬live t) (hrq : st.requeue now c t = some st') :
    Sound (st'.slotless c) (fun u => u = t ∨ live u) := by
  obtain ⟨q, hq, hher, ho⟩ := requeue_held hrq
  have hs : q ≠ .scheduled c := by
    rcases hq with rfl | rfl <;> exact nofun
  refine h.enter (b := q) ht ?_ (fun r hr => ?_) (fun _ => .rfl)
  · rw [slotless_of_ne hs, slotless_of_ne hs]
    exact hher
  by_cases hr' : r = .scheduled c
  · subst hr'
    simp
  rw [slotless_of_ne hr', slotless_of_ne hr', ho r hr]

theorem requeue_within {q : Place n} (h : st.requeue now c t = some st') (hu : u ∈ st'.held q) :
    u ∈ st.held q ∨ u = t ∧ q.cpu = c := by
  obtain ⟨p, hp, hher, ho⟩ := requeue_held h
  by_cases hq : q = p
  · subst hq
    rw [hher] at hu
    rcases mem_cons.mp hu with rfl | hu
    · exact .inr ⟨rfl, by rcases hp with rfl | rfl <;> rfl⟩
    exact .inl hu
  rw [ho q hq] at hu
  exact .inl hu

/-- Every task is still on the CPU where it was. -/
def Stays (st st' : PsnState n) : Prop :=
  ∀ q, ∀ u ∈ st'.held q, ∃ p : Place n, p.cpu = q.cpu ∧ u ∈ st.held p

theorem Stays.of_held (h : ∀ q, st'.held q = st.held q) : Stays st st' :=
  fun q _ hu => ⟨q, rfl, h q ▸ hu⟩

theorem Stays.trans {st1 st2 st3 : PsnState n} (h : Stays st1 st2) (h' : Stays st2 st3) :
    Stays st1 st3 := by
  intro q u hu
  obtain ⟨p, hp, hu⟩ := h' q u hu
  obtain ⟨p', hp', hu⟩ := h p u hu
  exact ⟨p', hp'.trans hp, hu⟩

theorem mem_scheduled : u ∈ st.held (.scheduled c) ↔ (st.dom c).scheduled = some u := by
  rcases h : (st.dom c).scheduled with _ | v <;> simp [held, h, Heap.cached, eq_comm]

theorem Stays.requeue (ht : (st.dom c).scheduled = some t)
    (h : st.requeue now c t = some st') : Stays st st' := by
  intro q u hu
  rcases requeue_within h hu with hu | ⟨rfl, hq⟩
  · exact ⟨q, rfl, hu⟩
  exact ⟨.scheduled c, hq.symm, mem_scheduled.mpr ht⟩

theorem takeNext_dom (c : Fin n) (st : PsnState n) :
    (st.takeNext c).dom = (st.setCpu c ⟨((st.dom c).domain.takeReady st.order).2,
      ((st.dom c).domain.takeReady st.order).1, false⟩).dom := by
  simp only [takeNext]
  split <;> rfl

theorem held_of_dom (h : st'.dom = st.dom) (q : Place n) : st'.held q = st.held q := by
  rcases q with e | e | e <;> simp [held, h]

theorem Stays.takeNext (c : Fin n) (st : PsnState n) : Stays st (st.takeNext c) := by
  intro q u hu
  rw [held_of_dom (takeNext_dom c st)] at hu
  by_cases hq : q.cpu = c
  · rcases q with e | e | e <;> obtain rfl : e = c := hq
    · refine ⟨.ready e, rfl, ?_⟩
      simp only [held, setCpu_dom] at hu ⊢
      rcases hn : ((st.dom e).domain.takeReady st.order).1 with _ | v
      · simp [hn, Heap.cached] at hu
      simp only [hn, Heap.cached, mem_singleton] at hu
      rw [hu, RtDomain.ready_takeReady_some hn]
      exact mem_cons_self v _
    · refine ⟨.ready e, rfl, ?_⟩
      simp only [held, setCpu_dom] at hu ⊢
      rcases hn : ((st.dom e).domain.takeReady st.order).1 with _ | v
      · rw [RtDomain.ready_takeReady_none hn] at hu
        exact absurd hu (notMem_zero u)
      rw [RtDomain.ready_takeReady_some hn]
      exact mem_cons_of_mem hu
    refine ⟨.release e, rfl, ?_⟩
    simp only [held, setCpu_dom] at hu ⊢
    exact hu
  rw [held_setCpu hq] at hu
  exact ⟨q, rfl, hu⟩

theorem schedule_elsewhere {prev : TaskId} (h : st.psnedfSchedule now c prev = some st')
    {q : Place n} (hq : q.cpu ≠ c) : st'.held q = st.held q := by
  have hta : ∀ s : PsnState n, (s.takeNext c).held q = s.held q := fun s =>
    (held_of_dom (takeNext_dom c s) q).trans (held_setCpu hq _)
  have hreq : ∀ {s s' : PsnState n} {t}, s.requeue now c t = some s' → s'.held q = s.held q := by
    intro s s' t hrq
    obtain ⟨p, hp, _, ho⟩ := requeue_held hrq
    refine ho q fun heq => hq ?_
    rw [heq]
    rcases hp with rfl | rfl <;> rfl
  unfold psnedfSchedule at h
  dsimp only at h
  split at h
  · cases h
    exact (hta _).trans (held_setCpu hq _)
  split at h
  · cases h
  simp only [scheduleTask] at h
  split at h
  · obtain ⟨st1, h1, rfl⟩ := map_eq_some_iff.mp h
    refine (hta st1).trans ?_
    split at h1
    · cases h1
      split <;> exact held_setCpu hq _
    refine (hreq h1).trans ?_
    split <;> exact held_setCpu hq _
  cases h
  refine (held_setCpu hq _).trans ?_
  split <;> exact held_setCpu hq _

/-! ### The invariant -/

/-- Every runnable task is in one place, on its own CPU. -/
structure Placed (st : PsnState n) : Prop where
  sound : Sound st.held st.Live
  partition : ∀ q, ∀ t ∈ st.held q, (st.task t).params.cpu.toNat = q.cpu.val
  online : ∀ t, (st.task t).realtime = true → (st.task t).params.cpu.toNat < n

/-- The fields of a task that its place depends on. -/
def placeView (p : PsnTask) : Bool × Bool × BitVec 32 := (p.realtime, p.running, p.params.cpu)

theorem placeView_of_unflagged {p p' : PsnTask} (h : p'.unflagged = p.unflagged) :
    placeView p' = placeView p :=
  show placeView p'.unflagged = placeView p.unflagged from congrArg placeView h

theorem live_of_placeView (h : placeView (st'.task u) = placeView (st.task u)) :
    st'.Live u ↔ st.Live u := by
  simp only [placeView, Prod.mk.injEq] at h
  rw [Live, Live, h.1, h.2.1]

theorem Placed.step_same {live : TaskId → Prop} (h : Placed st) (hsou : Sound st'.held live)
    (hl : ∀ u, live u ↔ st'.Live u) (hsta : Stays st st')
    (hc : ∀ u, (st'.task u).params.cpu = (st.task u).params.cpu)
    (hrt : ∀ u, (st'.task u).realtime = true → (st.task u).realtime = true) : Placed st' where
  sound := hsou.congr (fun _ => rfl) fun u => (hl u).symm
  partition q u hu := by
    obtain ⟨p, hp, hu⟩ := hsta q u hu
    rw [hc, h.partition p u hu, hp]
  online u hu := by
    rw [hc]
    exact h.online u (hrt u hu)

theorem Placed.same (h : Placed st) (hh : ∀ q, st'.held q = st.held q)
    (hvi : ∀ u, placeView (st'.task u) = placeView (st.task u)) : Placed st' := by
  refine h.step_same (h.sound.congr hh fun _ => .rfl) (fun u => ?_) (.of_held hh)
    (fun u => congrArg (fun v => v.2.2) (hvi u))
    (fun u hu => (congrArg Prod.fst (hvi u)).symm.trans hu)
  exact (live_of_placeView (hvi u)).symm

theorem held_needed (c : Fin n) (s : Option TaskId) (st : PsnState n) (q : Place n) :
    (st.setDomain c (edfPreemptionNeeded st.table (st.dom c).domain s).2).held q = st.held q := by
  obtain ⟨hr, hw⟩ := edfPreemptionNeeded_contents st.table (st.dom c).domain s
  exact held_setCpu_same { st.dom c with domain := (edfPreemptionNeeded st.table (st.dom c).domain
    s).2 } rfl hr hw q

/-- The places after `psnedf_schedule` for the scheduled task `t`: tasks move within the CPU,
    and `t` is dropped if it blocks. -/
theorem scheduleTask_held {live live' : TaskId → Prop} {preempt : Bool}
    (hso : Sound st.held live) (ht : (st.dom c).scheduled = some t)
    (hse : live' t ↔ (st.task t).running = true) (ho : ∀ u, u ≠ t → (live' u ↔ live u))
    (h : st.scheduleTask now c t preempt = some st') : Sound st'.held live' ∧ Stays st st' := by
  simp only [scheduleTask] at h
  generalize h1 : (if completes (st.task t) = true then st.modify t jobCompletion else st) = st1
    at h
  have hdom1 : st1.dom = st.dom := by
    rw [← h1]
    split <;> rfl
  have ht1 : (st1.dom c).scheduled = some t := by rw [hdom1]; exact ht
  have hheld1 := held_of_dom hdom1
  have hou := Sound.leaveSlot (hso.congr hheld1 fun _ => .rfl) ht1
  rcases hr : (st.task t).running with _ | _
  · simp only [hr, Bool.not_false, Bool.or_true, Bool.true_or, Bool.and_self, if_true,
      map_some, some.injEq] at h
    subst h
    refine ⟨(Sound.takeNext hou).congr (fun _ => rfl) fun u => ?_,
      (Stays.of_held hheld1).trans (.takeNext c st1)⟩
    by_cases hu : u = t
    · subst hu
      simp [hse, hr]
    simp [ho u hu, hu]
  simp only [hr, Bool.not_true, Bool.or_false, Bool.false_eq_true, if_false] at h
  have hl : ∀ u, live' u ↔ u = t ∨ u ≠ t ∧ live u := by
    intro u
    by_cases hu : u = t
    · subst hu
      simp [hse, hr]
    simp [ho u hu, hu]
  split at h
  · obtain ⟨st2, hst2, rfl⟩ := map_eq_some_iff.mp h
    have hbac := Sound.requeueSlotless hou (fun hbot => hbot.1 rfl) hst2
    exact ⟨(Sound.takeNext hbac).congr (fun _ => rfl) hl,
      ((Stays.of_held hheld1).trans (.requeue ht1 hst2)).trans (.takeNext c st2)⟩
  cases h
  have hh : ∀ q, ((st1.setResched c false).modify t (setRtFlags .running)).held q =
      st.held q := fun q =>
    (held_setCpu_same { st1.dom c with resched := false } rfl rfl rfl q).trans (hheld1 q)
  refine ⟨hso.congr hh fun u => ?_, .of_held hh⟩
  by_cases hu : u = t
  · subst hu
    have hlive_u : live u := (hso.live_iff u).mp ⟨.scheduled c, mem_scheduled.mpr ht⟩
    simp [hse, hr, hlive_u]
  exact ho u hu

theorem schedule_held {live live' : TaskId → Prop} {prev : TaskId} (hsou : Sound st.held live)
    (hse : ∀ t, (st.dom c).scheduled = some t → (live' t ↔ (st.task t).running = true))
    (ho : ∀ u, (st.dom c).scheduled ≠ some u → (live' u ↔ live u))
    (h : st.psnedfSchedule now c prev = some st') : Sound st'.held live' ∧ Stays st st' := by
  have hne := held_needed c (some prev) st
  have hsound0 := hsou.congr hne fun _ => .rfl
  have hs : ∀ edf, ((st.setDomain c edf).dom c).scheduled = (st.dom c).scheduled :=
    fun edf => by simp [setDomain]
  unfold psnedfSchedule at h
  dsimp only at h
  split at h
  · rename_i hn
    cases h
    have hem := hsound0.congr (slotless_of_none ((hs _).trans hn)) fun _ => .rfl
    refine ⟨(Sound.takeNext hem).congr (fun _ => rfl) fun u => ?_,
      (Stays.of_held hne).trans (.takeNext c _)⟩
    exact ho u (by simp [hn])
  rename_i t ht
  split at h
  · cases h
  obtain ⟨hsound', hsta⟩ := scheduleTask_held hsound0 ((hs _).trans ht)
    (hse t ht) (fun u hu => ho u fun heq => hu (some.inj (heq.symm.trans ht))) h
  exact ⟨hsound', (Stays.of_held hne).trans hsta⟩

/-! ### Steps -/

theorem exec_view (h : st.exec op = some st') (u : TaskId) : placeView (st'.task u) =
      placeView (if st.subject op = some u then effect op (st.task u) else st.task u) :=
  placeView_of_unflagged (exec_task h u)

theorem exec_view_self (h : st.exec op = some st') (ht : st.subject op = some t) :
    placeView (st'.task t) = placeView (effect op (st.task t)) := by
  rw [exec_view h, if_pos ht]

theorem exec_view_other (h : st.exec op = some st') (ht : st.subject op = some t)
    (hu : u ≠ t) : placeView (st'.task u) = placeView (st.task u) := by
  rw [exec_view h, if_neg fun heq => hu (some.inj (heq.symm.trans ht))]

theorem Placed.drop (h : Placed st) (hx : st.exec op = some st')
    (ht : st.subject op = some t) (hsou : Sound st'.held fun u => u ≠ t ∧ st.Live u)
    (hsta : Stays st st') (hde : ∀ p : PsnTask, (effect op p).realtime = true →
      p.realtime = true ∧ (effect op p).running = false)
    (hc : ∀ p, (effect op p).params.cpu = p.params.cpu) : Placed st' := by
  have hse := exec_view_self hx ht
  simp only [placeView, Prod.mk.injEq] at hse
  refine h.step_same hsou (fun u => ?_) hsta (fun u => ?_) (fun u hu => ?_)
  · by_cases hu : u = t
    · subst hu
      refine iff_of_false (fun hbot => hbot.1 rfl) fun hl => ?_
      rw [Live, hse.1, hse.2.1] at hl
      exact nomatch ((hde _ hl.1).2.symm.trans hl.2)
    simp [hu, live_of_placeView (exec_view_other hx ht hu)]
  · by_cases hu : u = t
    · rw [hu, hse.2.2, hc]
    exact congrArg (fun v => v.2.2) (exec_view_other hx ht hu)
  by_cases hut : u = t
  · rw [hut] at hu ⊢
    exact (hde _ (hse.1.symm.trans hu)).1
  exact (congrArg Prod.fst (exec_view_other hx ht hut)).symm.trans hu

/-- A step that leaves the status and the CPU of the task it is about. -/
theorem view_same (h : st.exec op = some st')
    (heff : ∀ p, placeView (effect op p) = placeView p) (u : TaskId) :
    placeView (st'.task u) = placeView (st.task u) := by
  rw [exec_view h u]
  split
  · exact heff _
  rfl

section

variable (h : Placed st)
include h

theorem Placed.live_of_scheduled (ht : (st.dom c).scheduled = some t) : st.Live t :=
  (h.sound.live_iff t).mp ⟨.scheduled c, mem_scheduled.mpr ht⟩

theorem Placed.schedule {prev : TaskId}
    (hx : st.exec (.schedule c prev now) = some st') : Placed st' := by
  have hvi := view_same hx fun p => by
    simp only [effect]
    split <;> rfl
  obtain ⟨hsou, hsta⟩ : Sound st'.held st.Live ∧ Stays st st' :=
    schedule_held h.sound (fun t ht => ⟨fun hbot => hbot.2, fun _ => h.live_of_scheduled ht⟩)
      (fun _ _ => .rfl) hx
  exact h.step_same hsou (fun u => (live_of_placeView (hvi u)).symm) hsta
    (fun u => congrArg (fun v => v.2.2) (hvi u))
    (fun u hu => (congrArg Prod.fst (hvi u)).symm.trans hu)

theorem Placed.block (hx : st.exec (.block c now) = some st') : Placed st' := by
  obtain ⟨t, ht, _, _, hsch, _⟩ := block_changed hx
  have hsa : ∀ q, (st.modify t (setRunning false)).held q = st.held q := held_of_dom rfl
  obtain ⟨hsou, hsta⟩ : Sound st'.held (fun u => u ≠ t ∧ st.Live u) ∧
      Stays (st.modify t (setRunning false)) st' := by
    refine schedule_held (h.sound.congr hsa fun _ => .rfl) (fun u hu => ?_) (fun u hu => ?_)
      hsch
    · obtain rfl : u = t := some.inj (hu.symm.trans ht)
      simp [modify, setRunning]
    have hne : u ≠ t := fun heq => hu (heq ▸ ht)
    simp [hne]
  exact h.drop hx ht hsou ((Stays.of_held hsa).trans hsta) (fun _ hp => ⟨hp, rfl⟩)
    fun _ => rfl

theorem Placed.releaseJobs {i : Nat} (hx : st.exec (.releaseJobs c i) = some st') : Placed st' := by
  have hvi := view_same hx fun _ => rfl
  obtain ⟨edf, hedf, rfl⟩ := map_eq_some_iff.mp hx
  obtain ⟨moved, hr, hw⟩ := RtDomain.mergeFired_contents hedf
  have hh : ∀ q, ((st.setDomain c edf).psnedfCheckResched c).held q =
      (st.setDomain c edf).held q := checkResched_held c _
  have hready' : (st.setDomain c edf).held (.ready c) = st.held (.ready c) + moved := by
    simp only [setDomain, held, setCpu_dom]
    exact hr
  have hwait' : st.held (.release c) = moved + (st.setDomain c edf).held (.release c) := by
    simp only [setDomain, held, setCpu_dom]
    exact hw
  have ho : ∀ q : Place n, q ≠ .release c → q ≠ .ready c →
      (st.setDomain c edf).held q = st.held q := by
    intro q hq hq'
    by_cases hc : q.cpu = c
    · rcases q with e | e | e <;> obtain rfl : e = c := hc
      · simp [setDomain, held]
      · exact absurd rfl hq'
      exact absurd rfl hq
    exact held_setCpu hc _
  have hsou := h.sound.transfer (fun heq => by cases heq) hwait' hready' ho fun _ => .rfl
  refine h.step_same (hsou.congr hh fun _ => .rfl)
    (fun u => (live_of_placeView (hvi u)).symm) ((?_ : Stays st _).trans (.of_held hh))
    (fun u => congrArg (fun v => v.2.2) (hvi u))
    (fun u hu => (congrArg Prod.fst (hvi u)).symm.trans hu)
  intro q u hu
  by_cases hq : q = .ready c
  · subst hq
    rw [hready', mem_add] at hu
    rcases hu with hu | hu
    · exact ⟨.ready c, rfl, hu⟩
    exact ⟨.release c, rfl, by rw [hwait']; exact mem_add.mpr (.inl hu)⟩
  by_cases hq' : q = .release c
  · subst hq'
    exact ⟨.release c, rfl, by rw [hwait']; exact mem_add.mpr (.inr hu)⟩
  exact ⟨q, rfl, ho q hq' hq ▸ hu⟩

theorem Placed.not_held
    (ht : (st.task t).realtime = true → (st.task t).running = false) (q : Place n) :
    t ∉ st.held q := by
  refine h.sound.not_mem (fun hl => ?_) q
  exact nomatch ((ht hl.1).symm.trans hl.2)

theorem Placed.enter {q : Place n} (ht : (st.task t).realtime = true → (st.task t).running = false)
    (hhe : st'.held q = t ::ₘ st.held q) (ho : ∀ r, r ≠ q → st'.held r = st.held r)
    (hvi : ∀ u, u ≠ t → placeView (st'.task u) = placeView (st.task u))
    (hliv : st'.Live t) (hc : (st'.task t).params.cpu.toNat = q.cpu.val) : Placed st' := by
  have hn := h.not_held ht
  constructor
  · refine h.sound.enter (b := q) (t := t) (fun hl => ?_) hhe ho (fun u => ?_)
    · obtain ⟨p, hp⟩ := (h.sound.live_iff t).mpr hl
      exact hn p hp
    by_cases hu : u = t
    · subst hu
      simp [hliv]
    simp [hu, live_of_placeView (hvi u hu)]
  · intro r u hu
    by_cases hut : u = t
    · subst hut
      have hr : r = q := by
        by_contra hr
        rw [ho r hr] at hu
        exact hn r hu
      rw [hr]
      exact hc
    have hcpu' : (st'.task u).params.cpu = (st.task u).params.cpu :=
      congrArg (fun v => v.2.2) (hvi u hut)
    have hm : u ∈ st.held r := by
      by_cases hr : r = q
      · subst hr
        rw [hhe] at hu
        exact (mem_cons.mp hu).resolve_left hut
      rwa [ho r hr] at hu
    rw [hcpu']
    exact h.partition r u hm
  intro u hu
  by_cases hut : u = t
  · subst hut
    rw [hc]
    exact q.cpu.isLt
  have hview' := hvi u hut
  simp only [placeView, Prod.mk.injEq] at hview'
  rw [hview'.2.2]
  exact h.online u (hview'.1.symm.trans hu)

end

theorem taskPedf_cpu (h : st.taskPedf t = some c) : (st.task t).params.cpu.toNat = c.val := by
  unfold taskPedf at h
  split at h
  · cases h
    rfl
  cases h

theorem Placed.taskWakeUp {exitSem : Bool} {requeued : LtTime} (h : Placed st)
    (hl : (st.task t).realtime = true ∧ (st.task t).running = false)
    (hx : st.exec (.taskWakeUp t exitSem now requeued) = some st') : Placed st' := by
  have hbl : (st.task t).realtime = true → (st.task t).running = false := fun _ => hl.2
  have hse : placeView (st'.task t) = (true, true, (st.task t).params.cpu) := by
    have hwok : placeView (st'.task t) = ((st.task t).realtime, true, (st.task t).params.cpu) := by
      rw [exec_view_self hx rfl]
      simp only [effect, wakeJob]
      split <;> rfl
    rw [hwok, hl.1]
  have hoth : ∀ u, u ≠ t → placeView (st'.task u) = placeView (st.task u) := fun _ =>
    exec_view_other hx rfl
  obtain ⟨c, hc, hx⟩ := bind_eq_some_iff.mp hx
  have hcp := taskPedf_cpu hc
  rw [modify, setTask_self] at hcp
  split at hx
  · cases hx
  dsimp only at hx
  split at hx
  · obtain ⟨q, hq, hher, ho⟩ := requeue_held hx
    simp only [placeView, Prod.mk.injEq] at hse
    refine h.enter hbl (q := q) hher ho hoth ⟨hse.1, hse.2.1⟩ ?_
    rw [hse.2.2]
    rcases hq with rfl | rfl <;> exact hcp
  rename_i hs
  have hslot' : (st.dom c).scheduled = some t := Decidable.not_not.mp hs
  exact absurd (mem_scheduled.mpr hslot') (h.not_held hbl _)

theorem Placed.taskNew {params : TaskParams} {running : Bool} {requeued : LtTime} (h : Placed st)
    (hfre : (st.task t).realtime = false)
    (hx : st.exec (.taskNew t params running now requeued) = some st') : Placed st' := by
  have hab : (st.task t).realtime = true → (st.task t).running = false := fun hrt => by
    rw [hfre] at hrt
    cases hrt
  have hse := exec_view_self hx rfl
  have hot : ∀ u, u ≠ t → placeView (st'.task u) = placeView (st.task u) := fun _ =>
    exec_view_other hx rfl
  simp only [placeView, Prod.mk.injEq] at hse
  obtain ⟨c, hc, hx⟩ := bind_eq_some_iff.mp hx
  have hcp := taskPedf_cpu hc
  rw [setTask_self] at hcp
  dsimp only at hx
  split at hx
  · split at hx
    · cases hx
    rename_i hs
    cases hx
    have hn : (st.dom c).scheduled = none := not_isSome_iff_eq_none.mp hs
    refine h.enter hab (q := .scheduled c) ?_ (fun r hr => ?_) hot ⟨hse.1, hse.2.1⟩ ?_
    · simp only [held, hn, setScheduled, setCpu_dom]
      rfl
    · exact held_setCpu_but { st.dom c with scheduled := some t } (.scheduled c)
        (fun h => absurd rfl h) (fun _ => rfl) (fun _ => rfl) hr
    rw [hse.2.2]
    exact hcp
  obtain ⟨st1, h1, rfl⟩ := map_eq_some_iff.mp hx
  obtain ⟨q, hq, hher, ho⟩ := requeue_held h1
  refine h.enter hab (q := q) ((preempt_held c st1 q).trans hher)
    (fun r hr => (preempt_held c st1 r).trans (ho r hr)) hot ⟨hse.1, hse.2.1⟩ ?_
  rw [hse.2.2]
  rcases hq with rfl | rfl <;> exact hcp

theorem isQueued_iff : st.isQueued t = true ↔ ∃ c, t ∈ st.held (.ready c) ∨ t ∈ st.held (.release c) := by
  simp [isQueued, RtDomain.isQueued_iff, RtDomain.mem_queued, held]

theorem Placed.cpu_eq {q : Place n} (h : Placed st) (hc : st.taskPedf t = some c)
    (ht : t ∈ st.held q) : q.cpu = c :=
  Fin.ext ((h.partition q t ht).symm.trans (taskPedf_cpu hc))

theorem exit_held (h : Placed st) (hx : st.psnedfTaskExit t = some st') (q : Place n) :
    st'.held q = (st.held q).erase t := by
  obtain ⟨c, hc, hx⟩ := bind_eq_some_iff.mp hx
  obtain ⟨st1, h1, rfl⟩ := map_eq_some_iff.mp hx
  refine (preempt_held c _ q).trans ?_
  split at h1
  · -- the task is removed from the ready queue, so it was there
    obtain ⟨edf, hedf, rfl⟩ := map_eq_some_iff.mp h1
    obtain ⟨H, hH, rfl⟩ := map_eq_some_iff.mp hedf
    have hco := Heap.elems_delete hH (h.sound.nodup (.ready c))
    have hrd : t ∈ st.held (.ready c) := by
      simp only [held, hco]
      exact mem_cons_self t _
    have hsl : ((st.setDomain c { (st.dom c).domain with readyQueue := H }).dom c).scheduled ≠
        some t := by
      simp only [setDomain, setCpu_dom]
      exact fun hs => nomatch h.sound.unique hrd (mem_scheduled.mpr hs)
    rw [if_neg hsl]
    refine h.sound.erase_eq (a := .ready c) ?_ (fun r hr => ?_) q
    · simp only [setDomain, held, setCpu_dom]
      exact hco
    refine held_setDomain st _ (.ready c) (fun h => absurd rfl h) (fun _ => ?_) hr
    rfl
  rename_i hno
  cases h1
  split
  · rename_i hsl
    refine h.sound.erase_eq (a := .scheduled c) ?_ (fun r hr => ?_) q
    · simp only [setScheduled, held, setCpu_dom, hsl]
      rfl
    exact held_setCpu_but { st.dom c with scheduled := none } (.scheduled c)
      (fun h => absurd rfl h) (fun _ => rfl) (fun _ => rfl) hr
  rename_i hsl
  refine (erase_of_notMem fun hq => ?_).symm
  have hqc := h.cpu_eq hc hq
  rcases q with e | e | e
  · obtain rfl : e = c := hqc
    exact hsl (mem_scheduled.mp hq)
  · exact hno (isQueued_iff.mpr ⟨e, .inl hq⟩)
  exact hno (isQueued_iff.mpr ⟨e, .inr hq⟩)

theorem Placed.taskExit (h : Placed st) (hx : st.exec (.taskExit t) = some st') : Placed st' := by
  obtain ⟨st1, h1, rfl⟩ := map_eq_some_iff.mp hx
  have hh : ∀ q, (st1.modify t (setRealtime false)).held q = (st.held q).erase t :=
    fun q => exit_held h h1 q
  refine h.drop hx rfl (h.sound.erase hh fun _ => .rfl) (fun q u hu => ?_)
    (fun _ hp => nomatch hp) fun _ => rfl
  rw [hh] at hu
  exact ⟨q, rfl, mem_of_mem_erase hu⟩

theorem Placed.slot_kept {e : Fin n} (h : Placed st) (hx : st.exec op = some st')
    (ht : (st.dom e).scheduled = some t) (hot : st.subject op ≠ some t) :
    (st'.dom e).scheduled = some t := by
  have hke : st'.held (.scheduled e) = st.held (.scheduled e) → (st'.dom e).scheduled = some t :=
    fun heq => mem_scheduled.mp (heq ▸ mem_scheduled.mpr ht)
  have hcp : ∀ {c}, (st.dom c).scheduled ≠ some t → e ≠ c := fun hc heq => hc (heq ▸ ht)
  rcases op with ⟨c, prev, now⟩ | ⟨c, now⟩ | ⟨c, i⟩ | ⟨c, i⟩ | ⟨u, exitSem, now, requeued⟩ |
    ⟨u, params, running, now, requeued⟩ | u | ⟨u, start⟩ | ⟨c, np⟩ | ⟨c, delta⟩ | c
  · exact hke (schedule_elsewhere hx (q := .scheduled e) (hcp hot))
  · obtain ⟨u, hu, _, _, hsch, _⟩ := block_changed hx
    exact hke (schedule_elsewhere hsch (q := .scheduled e) (hcp hot))
  · obtain ⟨edf, hed, rfl⟩ := map_eq_some_iff.mp hx
    obtain ⟨hr, hw⟩ := RtDomain.onReleaseTimer_contents hed
    exact hke (held_setCpu_same { st.dom c with domain := edf } rfl (congrArg Heap.elems hr) hw _)
  · obtain ⟨edf, hed, rfl⟩ := map_eq_some_iff.mp hx
    refine hke ((checkResched_held c _ _).trans ?_)
    by_cases hc : e = c
    · subst hc
      simp [setDomain, held]
    exact held_setCpu (q := .scheduled e) hc _
  · obtain ⟨c, _, hx⟩ := bind_eq_some_iff.mp hx
    split at hx
    · cases hx
    dsimp only at hx
    split at hx
    · obtain ⟨q, hq, _, ho⟩ := requeue_held hx
      exact hke (ho _ (by rcases hq with rfl | rfl <;> nofun))
    cases hx
    exact ht
  · obtain ⟨c, _, hx⟩ := bind_eq_some_iff.mp hx
    dsimp only at hx
    split at hx
    · split at hx
      · cases hx
      rename_i hs
      cases hx
      have hne : e ≠ c := by
        rintro rfl
        exact hs (isSome_iff_exists.mpr ⟨t, ht⟩)
      exact hke (held_setCpu (q := .scheduled e) hne _)
    obtain ⟨st1, h1, rfl⟩ := map_eq_some_iff.mp hx
    obtain ⟨q, hq, _, ho⟩ := requeue_held h1
    exact hke ((preempt_held c st1 _).trans (ho _ (by rcases hq with rfl | rfl <;> nofun)))
  · obtain ⟨st1, h1, rfl⟩ := map_eq_some_iff.mp hx
    have hne : t ≠ u := fun heq => hot (congrArg some heq.symm)
    refine mem_scheduled.mp (?_ : t ∈ st1.held (.scheduled e))
    rw [exit_held h h1, mem_erase_of_ne hne]
    exact mem_scheduled.mpr ht
  · cases hx
    exact ht
  · obtain ⟨u, _, rfl⟩ := map_eq_some_iff.mp hx
    exact ht
  · obtain ⟨u, _, rfl⟩ := map_eq_some_iff.mp hx
    exact ht
  · obtain ⟨u, _, rfl⟩ := map_eq_some_iff.mp hx
    exact ht

theorem Placed.step (h : Placed st) (hs : PsnStep st op st') : Placed st' := by
  obtain ⟨hl, hx⟩ := hs
  rcases op with ⟨c, prev, now⟩ | ⟨c, now⟩ | ⟨c, i⟩ | ⟨c, i⟩ | ⟨t, exitSem, now, requeued⟩ |
    ⟨t, params, running, now, requeued⟩ | t | ⟨t, start⟩ | ⟨c, np⟩ | ⟨c, delta⟩ | c
  · exact h.schedule hx
  · exact h.block hx
  · have hvi := view_same hx fun _ => rfl
    obtain ⟨edf, hedf, rfl⟩ := map_eq_some_iff.mp hx
    obtain ⟨hr, hw⟩ := RtDomain.onReleaseTimer_contents hedf
    exact h.same (held_setCpu_same { st.dom c with domain := edf } rfl (congrArg Heap.elems hr)
      hw) hvi
  · exact h.releaseJobs hx
  · exact h.taskWakeUp hl hx
  · exact h.taskNew hl.1 hx
  · exact h.taskExit hx
  · have hvi := view_same hx fun _ => rfl
    cases hx
    exact h.same (held_of_dom rfl) hvi
  · have hvi := view_same hx fun _ => rfl
    obtain ⟨t, _, rfl⟩ := map_eq_some_iff.mp hx
    exact h.same (held_of_dom rfl) hvi
  · have hvi := view_same hx fun _ => rfl
    obtain ⟨t, _, rfl⟩ := map_eq_some_iff.mp hx
    exact h.same (held_of_dom rfl) hvi
  · have hvi := view_same hx fun _ => rfl
    obtain ⟨t, _, rfl⟩ := map_eq_some_iff.mp hx
    exact h.same (held_of_dom rfl) hvi

end

theorem placed_init {task : TaskId → PsnTask} (tickPeriod : Nat)
    (hn : ∀ t, (task t).realtime = false) : Placed (init task tickPeriod : PsnState n) := by
  have hem : ∀ q t, t ∉ (init task tickPeriod : PsnState n).held q := by
    intro q t
    rcases q with c | c | c <;> exact notMem_zero t
  have hor := hn
  refine ⟨⟨fun q => ?_, fun {p} {q} {t} hp => absurd hp (hem p t), fun t => ?_⟩,
    fun q t ht => absurd ht (hem q t), fun t ht => ?_⟩
  · rcases q with c | c | c <;> exact nodup_zero
  · constructor
    · rintro ⟨q, hq⟩
      exact absurd hq (hem q t)
    intro hl
    exact nomatch ((hor t).symm.trans hl.1)
  exact nomatch ((hor t).symm.trans ht)

theorem placed_of_run {task : TaskId → PsnTask} {tickPeriod : Nat}
    (hn : ∀ t, (task t).realtime = false) {ops : List (PsnOp n)} {st : PsnState n}
    (hr : Run PsnStep (init task tickPeriod) ops st) : Placed st :=
  hr.invariant (fun _ _ _ hI hs => hI.step hs) (placed_init tickPeriod hn)

end PsnState

end Litmus.PsnEdf
