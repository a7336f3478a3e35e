import Litmus.GsnLinks

/-!
# Global EDF and its tasks

A task that `gsnedf_schedule` finds in a non-preemptive section, and that it would like to
replace, is unlinked but stays scheduled.  Nothing links or queues it again.  In runs in
which this does not happen, every runnable task is linked or queued at all times.
-/

namespace Litmus.GsnEdf

open BinomialForest Custody Linkage Runs Function RtTask
open Option (map_eq_some_iff bind_eq_some_iff)

namespace Cluster

variable {n : Nat}

section

variable {st st' : Cluster n} {c : Fin n} {t : TaskId} {now : LtTime} {clock : List LtTime}
  {live live' : TaskId → Prop}

/-- Each task of `live` is runnable and at one place; the other tasks are at none. -/
structure Housed (live : TaskId → Prop) (st : Cluster n) : Prop extends Core live st where
  runnable : ∀ u, live u → st.Live u

def Complete (live : TaskId → Prop) (st : Cluster n) : Prop := ∀ u, st.Live u → live u

theorem Housed.of_core (h : Core live st') (hr : ∀ u, live u → st.Live u)
    (hst : st'.status = st.status) : Housed live st' where
  toCore := h
  runnable u hu := (live_of_status hst u).mpr (hr u hu)

theorem Complete.of_status (h : Complete live st) (hst : st'.status = st.status) :
    Complete live st' := fun u hu => h u ((live_of_status hst u).mp hu)

theorem GsnInv.housed (h : GsnInv st) : Housed st.Live st := ⟨h, fun _ hu => hu⟩

theorem Housed.gsnInv (h : Housed live st) (hall : Complete live st) : GsnInv st :=
  h.toCore.congr fun u => ⟨hall u, h.runnable u⟩

theorem Housed.same (h : Housed live st) (hh : ∀ q, st'.held q = st.held q)
    (hln : st'.links = st.links) (hons : st'.linkedOns = st.linkedOns)
    (hst : st'.status = st.status) : Housed live st' :=
  .of_core (h.toCore.same hh hln hons (isRealtime_of_status hst)) h.runnable hst

theorem Housed.modify (h : Housed live st) {f : RtTask → RtTask}
    (hf : ∀ p, (f p).realtime = p.realtime ∧ (f p).running = p.running) :
    Housed live (st.modify t f) := by
  refine h.same (fun q => ?_) rfl (linkedOns_modify f) (status_modify hf)
  cases q <;> rfl

theorem Core.not_linked (h : Core live st) (ht : ¬live t) (c : Fin n) : st.links c ≠ some t :=
  fun hc => h.sound.not_mem ht (.linked c) (mem_linked.mpr hc)

theorem Core.linkedOn_eq_none (h : Core live st) (ht : ¬live t) (hrt : st.IsRealtime t) :
    (st.task t).linkedOn = none := by
  rcases hc : (st.task t).linkedOn with _ | c
  · rfl
  exact absurd ((h.paired t hrt c).mp hc) (h.not_linked ht c)

/-! ### Preemptions -/

theorem held_setDomain {dom : RtDomain} (hr : dom.readyQueue.elems = st.domain.readyQueue.elems)
    (hw : dom.waiting = st.domain.waiting) (q : Place n) :
    (st.setDomain dom).held q = st.held q := by
  cases q with
  | linked d => rfl
  | ready => exact hr
  | release => exact hw

section

variable (h : Housed live st)
include h

theorem Housed.checkForPreemptions
    (hp : checkForPreemptions clock st = some st') : Housed live st' ∧ st'.status = st.status := by
  obtain ⟨hcor, hst⟩ := h.toCore.checkForPreemptions hp
  exact ⟨.of_core hcor h.runnable hst, hst⟩

theorem Housed.jobArrival (hn : ¬live t) (ht : st.Live t)
    (hp : st.jobArrival now clock t = some st') :
    Housed (fun u => u = t ∨ live u) st' ∧ st'.status = st.status := by
  obtain ⟨st1, h1, hp⟩ := bind_eq_some_iff.mp hp
  obtain ⟨hcor, hst⟩ := h.toCore.requeue hn ht.1 h1
  have hr : ∀ u, u = t ∨ live u → st.Live u := by
    rintro u (rfl | hu)
    · exact ht
    exact h.runnable u hu
  obtain ⟨hhou, hstatus'⟩ := (Housed.of_core hcor hr hst).checkForPreemptions hp
  exact ⟨hhou, hstatus'.trans hst⟩

theorem Housed.setTask {p : GsnTask n} (ht : ¬live t)
    (hp : p.linkedOn = none) : Housed live (st.setTask t p) := by
  have ho : ∀ u, live u → u ≠ t := by
    rintro u hu rfl
    exact ht hu
  refine ⟨⟨h.sound.congr (fun q => ?_) fun _ => .rfl, ?_, ?_⟩, ?_⟩
  · cases q <;> rfl
  · intro u hu d
    rw [linkedOns_setTask]
    by_cases hut : u = t
    · subst hut
      rw [update_self, hp]
      constructor
      · intro hd
        cases hd
      intro hd
      exact absurd hd (h.not_linked ht d)
    rw [update_of_ne hut]
    refine h.paired u ?_ d
    rwa [IsRealtime, setTask_of_ne hut] at hu
  · intro u hu
    rw [IsRealtime, setTask_of_ne (ho u hu)]
    exact h.realtime u hu
  · intro u hu
    rw [Live, setTask_of_ne (ho u hu)]
    exact h.runnable u hu

/-! ### Scheduling -/

theorem Housed.unlink (hrt : st.IsRealtime t) (hu : st.unlink t = some st') :
    Housed (fun u => u ≠ t ∧ live u) st' ∧ st'.status = st.status := by
  obtain ⟨hcor, hst⟩ := h.toCore.unlink hrt hu
  exact ⟨.of_core hcor (fun u hu => h.runnable u hu.2) hst, hst⟩

theorem Housed.jobCompletion (hl : st.Live t) (hp : st.jobCompletion now clock t = some st') :
    Housed (fun u => u = t ∨ u ≠ t ∧ live u) st' ∧ st'.status = st.status := by
  obtain ⟨st1, h1, hp⟩ := bind_eq_some_iff.mp hp
  have hhou : Housed live (st.modify t fun p => (p.setRtFlags .sleep).prepareForNextPeriod) :=
    h.modify fun _ => ⟨rfl, rfl⟩
  have hstatus0 : (st.modify t fun p => (p.setRtFlags .sleep).prepareForNextPeriod).status =
      st.status := status_modify fun _ => ⟨rfl, rfl⟩
  have hlive0 := (live_of_status hstatus0 t).mpr hl
  obtain ⟨hhoused1, hstatus1⟩ := hhou.unlink hlive0.1 h1
  have hlive1 : st1.Live t := (live_of_status hstatus1 t).mpr hlive0
  rw [if_pos hlive1.2] at hp
  obtain ⟨hhoused2, hstatus2⟩ := hhoused1.jobArrival (fun hbot => hbot.1 rfl) hlive1 hp
  exact ⟨hhoused2, hstatus2.trans (hstatus1.trans hstatus0)⟩

end

/-- `gsnedf_schedule` finds the task scheduled on CPU `c` in a non-preemptive section and
    would like to replace it. -/
def npRequest (c : Fin n) (st : Cluster n) : Bool :=
  match (st.cpu c).scheduled with
  | some t =>
      (st.task t).running && (st.task t).np &&
        (outOfTime (st.task t) || decide ((st.cpu c).linked ≠ some t) || sleeps (st.task t))
  | none => false

theorem Housed.settle (h : Housed live st) (hsl : (st.cpu c).scheduled = some t)
    (hrt : st.IsRealtime t) (hs : st.settle now clock c t = some st') :
    ∃ live', Housed live' st' ∧ st'.status = st.status ∧
      (st.npRequest c = false → Complete live st → Complete live' st) := by
  obtain ⟨st1, h1, hs1⟩ := bind_eq_some_iff.mp hs
  obtain ⟨st2, hst2, hs2⟩ := bind_eq_some_iff.mp hs1
  rcases hr : (st.task t).running
  · -- the task blocks, and may be unlinked twice
    have hbl : ∀ u, st.Live u → u ≠ t := by
      rintro u hl rfl
      exact nomatch (hr.symm.trans hl.2)
    rw [hr] at h1 hs2
    obtain ⟨hhoused1, hstatus1⟩ := h.unlink hrt h1
    simp only [Bool.not_false, Bool.not_true, Bool.and_false, Bool.false_and,
      Bool.false_eq_true, if_false] at hs2
    cases hs2
    split at hst2
    · obtain ⟨hhoused2, hstatus2⟩ := hhoused1.unlink
        (by rw [isRealtime_of_status hstatus1]; exact hrt) hst2
      exact ⟨_, hhoused2, hstatus2.trans hstatus1, fun _ hal u hu =>
        ⟨hbl u hu, hbl u hu, hal u hu⟩⟩
    cases hst2
    exact ⟨_, hhoused1, hstatus1, fun _ hal u hu => ⟨hbl u hu, hal u hu⟩⟩
  rw [hr] at h1
  cases h1
  by_cases hnp : ((st.task t).np && (outOfTime (st.task t) ||
      decide ((st.cpu c).linked ≠ some t) || sleeps (st.task t))) = true
  · rw [if_pos (by exact hnp)] at hst2
    obtain ⟨hhoused2, hstatus2⟩ := h.unlink hrt hst2
    have hnp' : (st.task t).np = true := (Bool.and_eq_true_iff.mp hnp).1
    rw [hnp'] at hs2
    cases hs2
    refine ⟨_, hhoused2, hstatus2, fun hca => ?_⟩
    simp only [npRequest, hsl, hr, Bool.true_and, hnp] at hca
    cases hca
  rw [if_neg (by exact hnp)] at hst2
  cases hst2
  split at hs2
  · obtain ⟨hhou, hst⟩ := h.jobCompletion ⟨hrt, hr⟩ hs2
    refine ⟨_, hhou, hst, fun _ hal u hu => ?_⟩
    exact (live_iff_or (hal t ⟨hrt, hr⟩) u).mp (hal u hu)
  cases hs2
  exact ⟨live, h, rfl, fun _ hal => hal⟩

theorem Housed.linkPending (h : Housed live st) (hs : st.linkPending c = some st') :
    Housed live st' ∧ st'.status = st.status := by
  unfold Cluster.linkPending at hs
  split at hs
  · rename_i hfr
    have hfree' : st.links c = none := Option.isNone_iff_eq_none.mp hfr
    rcases hn : (st.domain.takeReady st.order).1 with _ | t
    · rw [hn] at hs
      obtain ⟨hre, hln, hons⟩ := linkTaskToCpu_none hs
      have hlinks' : st'.links = st.links := by
        rw [hln]
        exact update_eq_self_iff.mpr hfree'.symm
      have hons' : st'.linkedOns = st.linkedOns := by
        rw [hons]
        have hfree'' : (st.setDomain (st.domain.takeReady st.order).2).links c = none := hfree'
        simp only [forget, hfree'']
        rfl
      have hdom : ∀ q, st'.held q = (st.setDomain (st.domain.takeReady st.order).2).held q :=
        held_congr hlinks' hre.domain
      have hr : (st.domain.takeReady st.order).2.readyQueue.elems =
          st.domain.readyQueue.elems := by
        rw [RtDomain.ready_takeReady_none hn, RtDomain.takeReady_eq_none.mp hn]
      exact ⟨h.same (fun q => (hdom q).trans (held_setDomain hr rfl q)) hlinks' hons'
        hre.status, hre.status⟩
    rw [hn] at hs
    obtain ⟨hli, hta⟩ := h.toCore.takeReady hn
    have hlk : Core (fun u => u = t ∨ u ≠ t ∧ live u) st' := by
      apply Core.link ?_ ?_ hta.realtime (fun hbot => hbot.1 rfl) ?_ ?_ hs
      · exact hta.sound.congr (heldBut_of_none hfree') (fun _ => .rfl)
      · exact h.paired.but fun u hu => h.toCore.link_realtime hu
      · exact h.realtime t hli
      · intro hl
        cases hfree'.symm.trans hl
    have hst := (linkTaskToCpu_some hs).1.status
    exact ⟨.of_core (hlk.congr (live_iff_or hli)) h.runnable hst, hst⟩
  cases hs
  exact ⟨h, rfl⟩

theorem Housed.setScheduledOn (h : Housed live st) (t : TaskId) (s : Option (Fin n)) :
    Housed live (st.setScheduledOn t s) := by
  refine h.same (fun q => ?_) rfl ?_ (status_setTask rfl)
  · cases q <;> rfl
  rw [Cluster.setScheduledOn, linkedOns_setTask]
  exact update_eq_self t st.linkedOns

theorem links_setScheduled (s : Option TaskId) : (st.setScheduled c s).links = st.links := by
  funext d
  by_cases hd : d = c
  · subst hd
    simp [links, setScheduled]
  simp [links, setScheduled, hd]

theorem links_setSwitching (s : Option (Option TaskId)) :
    (st.setSwitching c s).links = st.links := by
  funext d
  by_cases hd : d = c
  · subst hd
    simp [links, setSwitching]
  simp [links, setSwitching, hd]

theorem Housed.setScheduled (h : Housed live st) (s : Option TaskId) :
    Housed live (st.setScheduled c s) :=
  h.same (held_congr (links_setScheduled s) rfl) (links_setScheduled s) rfl rfl

theorem Housed.setSwitching (h : Housed live st) (s : Option (Option TaskId)) :
    Housed live (st.setSwitching c s) :=
  h.same (held_congr (links_setSwitching s) rfl) (links_setSwitching s) rfl rfl

theorem Housed.setMaybeScheduledOn (h : Housed live st) (t : Option TaskId) (s : Option (Fin n)) :
    Housed live (match t with
      | some t => st.setScheduledOn t s
      | none => st) := by
  rcases t with _ | t
  · exact h
  exact h.setScheduledOn t s

theorem status_setMaybeScheduledOn (st : Cluster n) (t : Option TaskId) (s : Option (Fin n)) :
    (match t with
      | some t => st.setScheduledOn t s
      | none => st).status = st.status := by
  rcases t with _ | t
  · rfl
  exact status_setTask rfl

theorem Housed.decideNext (h : Housed live st) (stays : Bool) :
    Housed live (st.decideNext c stays) ∧ (st.decideNext c stays).status = st.status := by
  unfold Cluster.decideNext
  dsimp only
  split
  · refine ⟨((h.setMaybeScheduledOn _ _).setMaybeScheduledOn _ _).setSwitching _, ?_⟩
    exact (status_setMaybeScheduledOn _ _ _).trans (status_setMaybeScheduledOn _ _ _)
  exact ⟨h.setSwitching _, rfl⟩

theorem Housed.schedule {prev : TaskId} (h : Housed live st)
    (hs : st.gsnedfSchedule now clock c prev = some st') : ∃ live', Housed live' st' ∧
      (st.npRequest c = false → Complete live st → Complete live' st') := by
  unfold gsnedfSchedule at hs
  split at hs
  · split at hs
    · cases hs
    obtain ⟨st1, h1, rfl⟩ := map_eq_some_iff.mp hs
    obtain ⟨hhoused1, hstatus1⟩ := h.linkPending h1
    obtain ⟨hho, hst⟩ := hhoused1.decideNext (c := c) false
    exact ⟨live, hho, fun _ hal => hal.of_status (hst.trans hstatus1)⟩
  rename_i t hsl
  split at hs
  · cases hs
  rename_i hpr
  simp only [Bool.or_eq_true, decide_eq_true_eq, not_or, not_not, Bool.not_eq_true',
    Bool.not_eq_false] at hpr
  obtain ⟨rfl, hrt⟩ := hpr
  obtain ⟨st2, hst2, rfl⟩ := map_eq_some_iff.mp hs
  obtain ⟨st1, h1, hlin⟩ := bind_eq_some_iff.mp hst2
  obtain ⟨live', hhoused1, hstatus1, hall1⟩ := h.settle hsl hrt h1
  obtain ⟨hhoused2, hstatus2⟩ := hhoused1.linkPending hlin
  obtain ⟨hho, hst⟩ := hhoused2.decideNext (c := c)
    ((st.task t).np && (st.task t).running)
  exact ⟨live', hho, fun hcal hal =>
    (hall1 hcal hal).of_status (hst.trans (hstatus2.trans hstatus1))⟩

/-! ### The other steps -/

theorem Housed.not_live (h : Housed live st) (ht : ¬st.Live t) : ¬live t := fun hl =>
  ht (h.runnable t hl)

theorem live_setTask_of_ne {u : TaskId} (hu : u ≠ t) (p : GsnTask n) :
    (st.setTask t p).Live u ↔ st.Live u := by
  rw [Live, setTask_of_ne hu]
  rfl

section

variable (h : Housed live st)
include h

theorem Housed.taskBlock (hrt : st.IsRealtime t)
    (hx : st.exec (.taskBlock t) = some st') : Housed (fun u => u ≠ t ∧ live u) st' ∧
      (Complete live st → Complete (fun u => u ≠ t ∧ live u) st') := by
  have hrt' : (st.modify t (setRunning false)).IsRealtime = st.IsRealtime := by
    funext u
    by_cases hu : u = t
    · subst hu
      simp [IsRealtime, Cluster.modify, setRunning]
    rw [IsRealtime, Cluster.modify, setTask_of_ne hu]
    rfl
  have hcor : Core live (st.modify t (setRunning false)) := by
    refine h.toCore.same (fun q => ?_) rfl (linkedOns_modify _) hrt'
    cases q <;> rfl
  obtain ⟨hout, hst⟩ := hcor.unlink (hrt' ▸ hrt) hx
  refine ⟨⟨hout, fun u hu => ?_⟩, fun hall u hu => ?_⟩
  · rw [live_of_status hst, Cluster.modify, live_setTask_of_ne hu.1]
    exact h.runnable u hu.2
  rw [live_of_status hst] at hu
  have hut : u ≠ t := by
    rintro rfl
    simp [Live, Cluster.modify, setRunning] at hu
  rw [Cluster.modify, live_setTask_of_ne hut] at hu
  exact ⟨hut, hall u hu⟩

theorem Housed.arrive {st0 : Cluster n} (hn : ¬live t) (ht : st.Live t)
    (ho : ∀ u, u ≠ t → (st.Live u ↔ st0.Live u)) (hp : st.jobArrival now clock t = some st') :
    Housed (fun u => u = t ∨ live u) st' ∧
      (Complete live st0 → Complete (fun u => u = t ∨ live u) st') := by
  obtain ⟨hhou, hst⟩ := h.jobArrival hn ht hp
  refine ⟨hhou, fun hall u hu => ?_⟩
  by_cases hut : u = t
  · exact .inl hut
  rw [live_of_status hst, ho u hut] at hu
  exact .inr (hall u hu)

theorem Housed.taskWakeUp {exitSem timeSlice : Bool} {requeued : LtTime}
    (hrt : st.IsRealtime t) (hblo : (st.task t).running = false)
    (hx : st.exec (.taskWakeUp t exitSem timeSlice now requeued clock) = some st') :
    Housed (fun u => u = t ∨ live u) st' ∧
      (Complete live st → Complete (fun u => u = t ∨ live u) st') := by
  have hn : ¬live t := h.not_live fun hl => nomatch (hblo.symm.trans hl.2)
  have hon : (st.task t).linkedOn = none := h.toCore.linkedOn_eq_none hn hrt
  have hwok := h.setTask (p := { st.task t with
    toRtTask := setRunning true (st.task t).toRtTask }) hn hon
  have hjob := hwok.setTask (p := { (st.modify t (setRunning true)).task t with
    toRtTask := wakeJob now exitSem timeSlice
      ((st.modify t (setRunning true)).task t).toRtTask }) hn
    (by simp [Cluster.modify, hon])
  refine hjob.arrive hn ?_ (fun u hu => ?_) hx
  · have hwa : ∀ p : RtTask, (wakeJob now exitSem timeSlice p).realtime = p.realtime ∧
        (wakeJob now exitSem timeSlice p).running = p.running := by
      intro p
      unfold wakeJob
      split
      · exact ⟨rfl, rfl⟩
      split
      · exact ⟨rfl, rfl⟩
      split
      · exact ⟨rfl, rfl⟩
      exact ⟨rfl, rfl⟩
    rw [Live, setTask_self, (hwa _).1, (hwa _).2]
    simp only [Cluster.modify, setTask_self]
    exact ⟨hrt, rfl⟩
  exact (live_setTask_of_ne hu _).trans (live_setTask_of_ne hu _)

theorem Housed.taskNew {params : TaskParams} {running : Option (Fin n)} {requeued : LtTime}
    (hrt : (st.task t).realtime = false)
    (hx : st.exec (.taskNew t params running now requeued clock) = some st') :
    Housed (fun u => u = t ∨ live u) st' ∧
      (Complete live st → Complete (fun u => u = t ∨ live u) st') := by
  have hn : ¬live t := h.not_live fun hl => nomatch (hrt.symm.trans hl.1)
  have hadm := h.setTask (p := { admitted params with
    np := false, linkedOn := none, scheduledOn := none }) hn rfl
  obtain ⟨st2, hst2, hx⟩ := bind_eq_some_iff.mp hx
  generalize h1 : (st.setTask t { admitted params with
    np := false, linkedOn := none, scheduledOn := none }).modify t (releaseAt now) = st1
    at hst2
  have hhoused1 : Housed live st1 := by
    rw [← h1]
    exact hadm.setTask hn (by simp)
  have hlive1 : st1.Live t ∧ ∀ u, u ≠ t → (st1.Live u ↔ st.Live u) := by
    rw [← h1]
    refine ⟨?_, fun u hu => (live_setTask_of_ne hu _).trans (live_setTask_of_ne hu _)⟩
    rw [Live, Cluster.modify, setTask_self, setTask_self]
    exact ⟨rfl, rfl⟩
  have hhoused2 : Housed live st2 ∧ st2.status = st1.status := by
    split at hst2
    · split at hst2
      · cases hst2
      cases hst2
      exact ⟨(hhoused1.setScheduled _).setScheduledOn t _, status_setTask rfl⟩
    cases hst2
    exact ⟨hhoused1.setScheduledOn t _, status_setTask rfl⟩
  obtain ⟨hhoused2, hstatus2⟩ := hhoused2
  have hl : ∀ u, (st2.setLinkedOn t none).Live u ↔ st1.Live u := fun u => by
    have hst : (st2.setLinkedOn t none).status = st2.status := status_setTask rfl
    rw [live_of_status hst, live_of_status hstatus2]
  refine (hhoused2.setTask hn rfl).arrive hn ((hl t).mpr hlive1.1) (fun u hu => ?_) hx
  exact (hl u).trans (hlive1.2 u hu)

theorem Housed.taskExit (hrt : st.IsRealtime t)
    (hx : st.exec (.taskExit t) = some st') : Housed (fun u => u ≠ t ∧ live u) st' ∧
      (Complete live st → Complete (fun u => u ≠ t ∧ live u) st') := by
  obtain ⟨st2, hst2, rfl⟩ := map_eq_some_iff.mp hx
  obtain ⟨st1, h1, heq⟩ := map_eq_some_iff.mp hst2
  obtain ⟨hhoused1, hstatus1⟩ := h.unlink hrt h1
  have hn : ¬(t ≠ t ∧ live t) := fun hbot => hbot.1 rfl
  have hhoused2 : Housed (fun u => u ≠ t ∧ live u) st2 ∧ st2.status = st1.status := by
    split at heq
    · subst heq
      exact ⟨(hhoused1.setScheduled _).setScheduledOn t _, status_setTask rfl⟩
    subst heq
    exact ⟨hhoused1, rfl⟩
  obtain ⟨hhoused2, hstatus2⟩ := hhoused2
  have hst : st2.status = st.status := hstatus2.trans hstatus1
  have hrt2 : st2.IsRealtime t := by
    rw [isRealtime_of_status hst]
    exact hrt
  refine ⟨hhoused2.setTask hn (hhoused2.toCore.linkedOn_eq_none hn hrt2), fun hall u hu => ?_⟩
  have hut : u ≠ t := by
    rintro rfl
    have hfa := hu.1
    rw [Cluster.modify, setTask_self] at hfa
    cases hfa
  rw [Cluster.modify, live_setTask_of_ne hut, live_of_status hst] at hu
  exact ⟨hut, hall u hu⟩

theorem Housed.releaseJobs {i : Nat}
    (hx : st.releaseJobs clock i = some st') : Housed live st' ∧ st'.status = st.status := by
  obtain ⟨dom, hdom, hx⟩ := bind_eq_some_iff.mp hx
  obtain ⟨moved, hr, hw⟩ := RtDomain.mergeFired_contents hdom
  have hout : st.held .release = moved + (st.setDomain dom).held .release := hw
  have hin : (st.setDomain dom).held .ready = st.held .ready + moved := hr
  have hmer : Housed live (st.setDomain dom) := by
    refine ⟨⟨?_, h.paired, h.realtime⟩, h.runnable⟩
    refine h.sound.transfer (by simp) hout hin ?_ (fun _ => .rfl)
    intro q hqr hqw
    cases q with
    | linked d => rfl
    | ready => exact absurd rfl hqw
    | release => exact absurd rfl hqr
  exact hmer.checkForPreemptions hx

end

/-- A step is not a `gsnedf_schedule` that would like to replace a task in a non-preemptive
    section. -/
def calm (st : Cluster n) : GsnOp n → Bool
  | .schedule c _ _ _ => !st.npRequest c
  | _ => true

theorem Housed.step {op : GsnOp n} (h : Housed live st) (hs : GsnStep st op st') :
    ∃ live', Housed live' st' ∧ (st.calm op = true → Complete live st → Complete live' st') := by
  obtain ⟨hl, hx⟩ := hs
  have hsa : Housed live st' → st'.status = st.status → ∃ live', Housed live' st' ∧
        (st.calm op = true → Complete live st → Complete live' st') := fun hho hst =>
    ⟨live, hho, fun _ hal => hal.of_status hst⟩
  cases op with
  | schedule c prev now clock =>
    obtain ⟨live', hho, hal⟩ := h.schedule hx
    exact ⟨live', hho, fun hcal => hal (by simpa [calm] using hcal)⟩
  | finishSwitch c =>
    obtain ⟨next, -, rfl⟩ := map_eq_some_iff.mp hx
    exact hsa ((h.setScheduled _).setSwitching none) rfl
  | taskBlock t =>
    obtain ⟨hho, hal⟩ := h.taskBlock hl.1 hx
    exact ⟨_, hho, fun _ => hal⟩
  | taskWakeUp t exitSem timeSlice now requeued clock =>
    obtain ⟨hho, hal⟩ := h.taskWakeUp hl.1 hl.2 hx
    exact ⟨_, hho, fun _ => hal⟩
  | taskNew t params running now requeued clock =>
    obtain ⟨hho, hal⟩ := h.taskNew hl.1 hx
    exact ⟨_, hho, fun _ => hal⟩
  | taskExit t =>
    obtain ⟨hho, hal⟩ := h.taskExit hl hx
    exact ⟨_, hho, fun _ => hal⟩
  | releaseTimer i =>
    obtain ⟨dom, hdom, rfl⟩ := map_eq_some_iff.mp hx
    obtain ⟨hr, hw⟩ := RtDomain.onReleaseTimer_contents hdom
    exact hsa (h.same (held_setDomain (congrArg Heap.elems hr) hw) rfl rfl rfl) rfl
  | releaseJobs i clock =>
    obtain ⟨hho, hst⟩ := h.releaseJobs hx
    exact hsa hho hst
  | releaseAt t start =>
    cases hx
    exact hsa (h.modify fun _ => ⟨rfl, rfl⟩) (status_modify fun _ => ⟨rfl, rfl⟩)
  | setNp c np =>
    obtain ⟨t, -, rfl⟩ := map_eq_some_iff.mp hx
    refine hsa (h.same (fun q => ?_) rfl ?_ (status_setTask rfl)) (status_setTask rfl)
    · cases q <;> rfl
    rw [Cluster.setNp, linkedOns_setTask]
    exact update_eq_self t st.linkedOns
  | execute c delta =>
    obtain ⟨t, -, rfl⟩ := map_eq_some_iff.mp hx
    exact hsa (h.modify fun _ => ⟨rfl, rfl⟩) (status_modify fun _ => ⟨rfl, rfl⟩)
  | completeJob c =>
    obtain ⟨t, -, rfl⟩ := map_eq_some_iff.mp hx
    exact hsa (h.modify fun _ => ⟨rfl, rfl⟩) (status_modify fun _ => ⟨rfl, rfl⟩)

theorem GsnInv.step {op : GsnOp n} (h : GsnInv st) (hs : GsnStep st op st')
    (hcal : st.calm op = true) : GsnInv st' := by
  obtain ⟨live', hhou, hall⟩ := h.housed.step hs
  exact hhou.gsnInv (hall hcal fun _ hu => hu)

end

/-! ### Runs -/

theorem foldl_updateCpuPosition (cs : List (Fin n)) (st : Cluster n) :
    (cs.foldl (fun st c => st.updateCpuPosition c) st).task = st.task ∧
      (cs.foldl (fun st c => st.updateCpuPosition c) st).cpu = st.cpu ∧
      (cs.foldl (fun st c => st.updateCpuPosition c) st).domain = st.domain := by
  induction cs generalizing st with
  | nil => exact ⟨rfl, rfl, rfl⟩
  | cons c cs ih => exact ih (st.updateCpuPosition c)

theorem gsnInv_init {task : TaskId → GsnTask n} (tickPeriod : Nat)
    (hn : ∀ t, (task t).realtime = false) : GsnInv (init task tickPeriod) := by
  obtain ⟨hta, hc, hdo⟩ := foldl_updateCpuPosition (List.finRange n)
    { task := task, cpu := fun _ => { linked := none, scheduled := none, switching := none },
      cpuHeap := Heap.empty, domain := RtDomain.init tickPeriod }
  have htask' : (init task tickPeriod).task = task := hta
  have hem : ∀ q, (init task tickPeriod).held q = 0 := by
    intro q
    cases q with
    | linked c => exact congrArg (fun f => Heap.cached (f c).linked) hc
    | ready => exact congrArg (fun d => d.readyQueue.elems) hdo
    | release => exact congrArg RtDomain.waiting hdo
  have hrt : ∀ t, ¬(init task tickPeriod).IsRealtime t := by
    intro t ht
    rw [IsRealtime, htask'] at ht
    cases (hn t).symm.trans ht
  refine ⟨⟨?_, ?_, ?_⟩, ?_, ?_⟩
  · intro q
    rw [hem]
    exact Multiset.nodup_zero
  · intro q r u hu
    rw [hem] at hu
    exact absurd hu (Multiset.notMem_zero u)
  · intro u
    constructor
    · rintro ⟨q, hu⟩
      rw [hem] at hu
      exact absurd hu (Multiset.notMem_zero u)
    intro hl
    exact absurd hl.1 (hrt u)
  · intro u hu
    exact absurd hu (hrt u)
  · exact fun u hl => hl.1

end Cluster

open Cluster

variable {k n : Nat} {m : Machine k n} {ops : List (Fin k × GsnOp n)}

def CalmStep {k n : Nat} (m : Machine k n) (op : Fin k × GsnOp n) (m' : Machine k n) : Prop :=
  MachineStep m op m' ∧ (m.cluster op.1).calm op.2 = true

theorem MachineStep.cluster {m' : Machine k n} {op : Fin k × GsnOp n} (hs : MachineStep m op m')
    (i : Fin k) :
    m'.cluster i = m.cluster i ∨ i = op.1 ∧ GsnStep (m.cluster op.1) op.2 (m'.cluster op.1) := by
  obtain ⟨hl, hx⟩ := hs
  obtain ⟨st', hst', rfl⟩ := map_eq_some_iff.mp hx
  by_cases hi : i = op.1
  · refine .inr ⟨hi, hl.1, ?_⟩
    simp only [update_self]
    exact hst'
  exact .inl (update_of_ne hi _ _)

theorem housed_of_run {task : Fin k → TaskId → GsnTask n} {tickPeriod : Nat}
    (hn : ∀ i t, (task i t).realtime = false)
    (hr : Run MachineStep (Machine.init task tickPeriod) ops m) (i : Fin k) :
    ∃ live, Housed live (m.cluster i) := by
  refine hr.invariant (I := fun m => ∀ i, ∃ live, Housed live (m.cluster i)) ?_
    (fun i => ⟨_, (gsnInv_init tickPeriod (hn i)).housed⟩) i
  intro m op m' hI hs j
  rcases hs.cluster j with heq | ⟨rfl, hone⟩
  · rw [heq]
    exact hI j
  obtain ⟨live, hhou⟩ := hI op.1
  obtain ⟨live', hhoused', -⟩ := hhou.step hone
  exact ⟨live', hhoused'⟩

theorem gsnInv_of_run {task : Fin k → TaskId → GsnTask n} {tickPeriod : Nat}
    (hn : ∀ i t, (task i t).realtime = false)
    (hr : Run CalmStep (Machine.init task tickPeriod) ops m) (i : Fin k) :
    GsnInv (m.cluster i) := by
  refine hr.invariant (I := fun m => ∀ i, GsnInv (m.cluster i)) ?_
    (fun i => gsnInv_init tickPeriod (hn i)) i
  rintro m op m' hI ⟨hs, hcal⟩ j
  rcases hs.cluster j with heq | ⟨rfl, hone⟩
  · rw [heq]
    exact hI j
  exact (hI op.1).step hone hcal

/-- In every run in which no `gsnedf_schedule` would like to replace a task in a
    non-preemptive section, each runnable real-time task is at all times linked to one CPU,
    in the ready queue or in a release heap of its cluster, and a blocked one is not. -/
theorem gsnedf_no_task_lost {k n : Nat} {task : Fin k → TaskId → GsnTask n} {tickPeriod : Nat}
    (hnone : ∀ i t, (task i t).realtime = false) {ops : List (Fin k × GsnOp n)}
    {m : Machine k n} (hrun : Run CalmStep (Machine.init task tickPeriod) ops m)
    (i : Fin k) (t : TaskId) (hreal : ((m.cluster i).task t).realtime = true) :
    (((m.cluster i).task t).running = true → ∃ p, ((m.cluster i).held p).count t = 1 ∧
        ∀ q, q ≠ p → ((m.cluster i).held q).count t = 0) ∧
      (((m.cluster i).task t).running = false → ∀ p, ((m.cluster i).held p).count t = 0) := by
  have hI := gsnInv_of_run hnone hrun i
  refine ⟨fun hrunning => ?_, fun hblocked p => ?_⟩
  · obtain ⟨p, hp, hunique⟩ := hI.sound.existsUnique ⟨hreal, hrunning⟩
    refine ⟨p, Multiset.count_eq_one_of_mem (hI.sound.nodup p) hp, fun q hq => ?_⟩
    exact Multiset.count_eq_zero_of_notMem fun ht => hq (hunique q ht)
  apply Multiset.count_eq_zero_of_notMem
  apply hI.sound.not_mem
  exact fun hl => nomatch (hblocked.symm.trans hl.2)

def noGsnTasks {k n : Nat} : Fin k → TaskId → GsnTask n := fun _ _ =>
  { RtTask.admitted
      { cpu := 0, period := 10, execCost := 5, budgetPolicy := .quantumEnforcement } with
    realtime := false, np := false, linkedOn := none, scheduledOn := none }

def newTask (t : TaskId) : GsnOp 1 :=
  .taskNew t { cpu := 0, period := 10, execCost := 5, budgetPolicy := .quantumEnforcement } none
    0 0 [0]

/-- A new task is linked and scheduled. -/
theorem gsnedf_no_task_lost_scheduled :
    ∃ m : Machine 1 1, Run CalmStep (Machine.init noGsnTasks 1000000)
      [(0, newTask 1), (0, .schedule 0 0 0 []), (0, .finishSwitch 0)] m ∧
      ((m.cluster 0).cpu 0).scheduled = some 1 ∧
      ∃ p, ((m.cluster 0).held p).count 1 = 1 ∧
        ∀ q, q ≠ p → ((m.cluster 0).held q).count 1 = 0 := by
  refine Run.exists_of_check (Q := fun m => ((m.cluster 0).cpu 0).scheduled = some 1 ∧
      ((m.cluster 0).task 1).realtime = true ∧ ((m.cluster 0).task 1).running = true)
    (fun _ _ _ hl hx => ⟨⟨of_decide_eq_true (Bool.and_eq_true_iff.mp hl).1, hx⟩,
      (Bool.and_eq_true_iff.mp hl).2⟩) (by decide +kernel) ?_
  intro m hrun ⟨hs, hrt, hrunning⟩
  exact ⟨hs, (gsnedf_no_task_lost (fun _ _ => rfl) hrun 0 1 hrt).1 hrunning⟩

/-- A task exhausts its budget in a non-preemptive section, during which `gsnedf_schedule`
    is called.  When it has left the section and `gsnedf_schedule` has run again, it is
    runnable, but neither linked nor queued nor scheduled. -/
theorem gsnedf_task_lost_after_np :
    ∃ m : Machine 1 1, Run MachineStep (Machine.init noGsnTasks 1000000)
      [(0, newTask 1), (0, .schedule 0 0 0 []), (0, .finishSwitch 0), (0, .setNp 0 true),
        (0, .execute 0 5), (0, .schedule 0 1 5 []), (0, .finishSwitch 0), (0, .setNp 0 false),
        (0, .schedule 0 1 6 []), (0, .finishSwitch 0)] m ∧
      ((m.cluster 0).task 1).realtime = true ∧ ((m.cluster 0).task 1).running = true ∧
      ((m.cluster 0).task 1).np = false ∧ ((m.cluster 0).cpu 0).scheduled = none ∧
      ∀ p, ((m.cluster 0).held p).count 1 = 0 := by
  refine Run.exists_of_check (Q := fun m => ((m.cluster 0).task 1).realtime = true ∧
      ((m.cluster 0).task 1).running = true ∧ ((m.cluster 0).task 1).np = false ∧
      ((m.cluster 0).cpu 0).scheduled = none ∧ ((m.cluster 0).held (.linked 0)).count 1 = 0 ∧
      ((m.cluster 0).held .ready).count 1 = 0 ∧ ((m.cluster 0).held .release).count 1 = 0)
    (fun _ _ _ hl hx => ⟨of_decide_eq_true hl, hx⟩) (by decide +kernel) ?_
  intro m hrun ⟨hrt, hrunning, hnp, hs, hlinked, hr, hrelease⟩
  refine ⟨hrt, hrunning, hnp, hs, fun p => ?_⟩
  cases p with
  | linked c =>
    obtain rfl : c = 0 := Fin.eq_zero c
    exact hlinked
  | ready => exact hr
  | release => exact hrelease

/-- Also in runs that lose a task, none is at two places of its cluster or twice at one, only
    runnable tasks are linked or queued, and `linked_on` of a linked task names its CPU. -/
theorem gsnedf_no_task_duplicated {k n : Nat} {task : Fin k → TaskId → GsnTask n}
    {tickPeriod : Nat} (hnone : ∀ i t, (task i t).realtime = false)
    {ops : List (Fin k × GsnOp n)} {m : Machine k n}
    (hrun : Run MachineStep (Machine.init task tickPeriod) ops m) (i : Fin k) (t : TaskId) :
    (∀ p, t ∈ (m.cluster i).held p → ((m.cluster i).held p).count t = 1 ∧
        (m.cluster i).Live t ∧ ∀ q, q ≠ p → t ∉ (m.cluster i).held q) ∧
      ∀ c, (m.cluster i).links c = some t → ((m.cluster i).task t).linkedOn = some c := by
  obtain ⟨live, h⟩ := housed_of_run hnone hrun i
  refine ⟨fun p hp => ⟨Multiset.count_eq_one_of_mem (h.sound.nodup p) hp, ?_, ?_⟩, fun c hc => ?_⟩
  · exact h.runnable t ((h.sound.live_iff t).mp ⟨p, hp⟩)
  · exact fun q hq ht => hq (h.sound.unique ht hp)
  · exact (h.paired t (h.toCore.link_realtime hc) c).mpr hc

theorem gsnedf_no_task_duplicated_scheduled :
    ∃ m : Machine 1 1, Run MachineStep (Machine.init noGsnTasks 1000000)
        [(0, newTask 1), (0, .schedule 0 0 0 []), (0, .finishSwitch 0)] m ∧
      (m.cluster 0).links 0 = some 1 ∧ ((m.cluster 0).task 1).linkedOn = some 0 :=
  Run.exists_of_check (Q := fun m => (m.cluster 0).links 0 = some 1)
    (fun _ _ _ hl hx => ⟨of_decide_eq_true hl, hx⟩) (by decide +kernel) fun _ hrun hl =>
      ⟨hl, (gsnedf_no_task_duplicated (fun _ _ => rfl) hrun 0 1).2 0 hl⟩

end Litmus.GsnEdf
