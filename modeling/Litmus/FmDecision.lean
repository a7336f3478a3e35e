import Litmus.FmMigration
import Litmus.FmPriority

/-!
# The decisions of EDF-fm

Along every run whose deadlines can be compared, all heaps of the machine stay ordered by
`edf_ready_order`, because the job of a task changes only while it is in no heap.  What
`edffm_schedule` decides then follows from the state it is called in.
-/

namespace Litmus.EdfFm

open BinomialForest FmTask Runs Function RtTask
open Option (map_eq_some_iff bind_eq_some_iff)

/-! ### Ordered domains -/

/-- The heaps of a domain are ordered, and hold tasks of `S` only. -/
structure Tidy (order : TaskId → TaskId → Bool) (S : Set TaskId) (dom : RtDomain) : Prop where
  sorted : dom.Sorted order
  mem : ∀ x ∈ dom.queued, x ∈ S

section

variable {order : TaskId → TaskId → Bool} {S : Set TaskId} {dom dom' : RtDomain} {t : TaskId}

section

variable (h : Tidy order S dom) (hS : StrictWeakOn order S)

include h hS

theorem Tidy.addReady (ht : t ∈ S)
    (had : dom.addReady order t = some dom') : Tidy order S dom' := by
  have hqu := RtDomain.queued_addReady had
  have hm : ∀ x ∈ t ::ₘ dom.queued, x ∈ S := by
    intro x hx
    rcases Multiset.mem_cons.mp hx with rfl | hx
    · exact ht
    exact h.mem x hx
  refine ⟨?_, hqu ▸ hm⟩
  unfold RtDomain.addReady at had
  split at had
  · cases had
  cases had
  exact RtDomain.Sorted.insertReady hS hm h.sorted

theorem Tidy.addRelease (ht : t ∈ S)
    (time : LtTime) : Tidy order S (dom.addRelease order time t) := by
  have hm : ∀ x ∈ t ::ₘ dom.queued, x ∈ S := by
    intro x hx
    rcases Multiset.mem_cons.mp hx with rfl | hx
    · exact ht
    exact h.mem x hx
  refine ⟨RtDomain.Sorted.addRelease hS time hm h.sorted, ?_⟩
  rw [RtDomain.queued_addRelease]
  exact hm

theorem Tidy.takeReady : Tidy order S (dom.takeReady order).2 := by
  refine ⟨RtDomain.Sorted.takeReady hS h.mem h.sorted, fun x hx => h.mem x ?_⟩
  rw [← RtDomain.queued_takeReady order dom]
  exact Multiset.mem_add.mpr (.inr hx)

end

theorem Tidy.onReleaseTimer (h : Tidy order S dom) {i : Nat}
    (hs : dom.onReleaseTimer i = some dom') : Tidy order S dom' := by
  refine ⟨h.sorted.onReleaseTimer hs, ?_⟩
  rw [RtDomain.queued_onReleaseTimer hs]
  exact h.mem

theorem Tidy.mergeFired (h : Tidy order S dom) (hS : StrictWeakOn order S) {i : Nat}
    (hs : dom.mergeFired order i = some dom') : Tidy order S dom' := by
  refine ⟨RtDomain.Sorted.mergeFired hS h.mem h.sorted hs, ?_⟩
  rw [RtDomain.queued_mergeFired hs]
  exact h.mem

theorem Tidy.preemptionNeeded {task : TaskId → FmTask}
    (h : Tidy (edfReadyOrder (tableOf task)) S dom)
    (hS : StrictWeakOn (edfReadyOrder (tableOf task)) S) (u : Option TaskId) :
    Tidy (edfReadyOrder (tableOf task)) S (edffmPreemptionNeeded task dom u).2 := by
  obtain ⟨hr, hw⟩ := FmState.edffmPreemptionNeeded_contents task dom u
  constructor
  · unfold edffmPreemptionNeeded
    split
    · exact h.sorted
    split
    · exact h.sorted
    split
    · exact h.sorted
    exact h.sorted.nextReady hS h.mem
  intro x hx
  apply h.mem x
  rw [RtDomain.queued, hr, hw] at hx
  exact hx

end

/-- The CPU on which a step may end a call of `edffm_schedule`. -/
def FmOp.schedules {n : Nat} : FmOp n → Option (Fin n)
  | .schedule c _ _ => some c
  | .finishSchedule c => some c
  | .block c _ => some c
  | _ => none

namespace FmState

variable {n : Nat}

/-! ### Ordered machines -/

/-- All heaps of the machine are ordered by its tasks' deadlines. -/
structure Arranged (S : Set TaskId) (st : FmState n) : Prop where
  strict : StrictWeakOn st.order S
  tidy : ∀ c, Tidy st.order S (st.dom c).domain

section

variable {S : Set TaskId} {st st' : FmState n} {c : Fin n} {t : TaskId} {now : LtTime}

def SamePrio (st st' : FmState n) : Prop := ∀ u, (st'.task u).prio = (st.task u).prio

theorem SamePrio.order (h : SamePrio st st') : st'.order = st.order := order_congr h

section

variable (h : Arranged S st)
include h

theorem Arranged.of_samePrio (hpr : SamePrio st st')
    (hdom : ∀ c, (st'.dom c).domain = (st.dom c).domain) : Arranged S st' := by
  constructor
  · rw [hpr.order]
    exact h.strict
  intro c
  rw [hpr.order, hdom]
  exact h.tidy c

theorem Arranged.setDomain {edf : RtDomain} (hedf : Tidy st.order S edf) :
    Arranged S (st.setDomain c edf) := by
  refine ⟨h.strict, fun c' => ?_⟩
  by_cases hc : c' = c
  · subst hc
    rw [setDomain_self]
    exact hedf
  rw [setDomain_of_ne hc]
  exact h.tidy c'

theorem Arranged.setFlags (t : TaskId) (f : RtFlag) : Arranged S (st.setFlags t f) :=
  h.of_samePrio (prio_setFlags f) (fun _ => rfl)

theorem Arranged.addReady (ht : t ∈ S) (had : st.addReady c t = some st') : Arranged S st' := by
  unfold FmState.addReady at had
  split at had
  · cases had
  obtain ⟨edf, hedf, rfl⟩ := map_eq_some_iff.mp had
  exact h.setDomain ((h.tidy c).addReady h.strict ht hedf)

theorem Arranged.addRelease (ht : t ∈ S) : Arranged S (st.addRelease c t) :=
  h.setDomain ((h.tidy c).addRelease h.strict ht _)

theorem Arranged.requeue {dropped : Bool} (ht : t ∈ S)
    (hrq : st.requeue now c t = some (st', dropped)) : Arranged S st' := by
  have hfl := h.setFlags t .running
  unfold FmState.requeue at hrq
  dsimp only at hrq
  split at hrq
  · split at hrq
    · split at hrq
      · cases hrq
        exact hfl
      cases hrq
    obtain ⟨st1, h1, heq⟩ := map_eq_some_iff.mp hrq
    cases heq
    exact hfl.addReady ht h1
  split at hrq
  · obtain ⟨st1, h1, heq⟩ := map_eq_some_iff.mp hrq
    cases heq
    obtain ⟨c', -, rfl⟩ := map_eq_some_iff.mp h1
    exact hfl.addRelease ht
  cases hrq
  exact hfl.addRelease ht

end

theorem samePrio_takeNext : SamePrio st (st.takeNext c) := by
  intro u
  unfold FmState.takeNext
  dsimp only
  split
  · exact prio_setFlags .running u
  rfl

theorem Arranged.takeNext (h : Arranged S st) : Arranged S (st.takeNext c) := by
  have hpr : SamePrio st (st.takeNext c) := samePrio_takeNext
  constructor
  · rw [hpr.order]
    exact h.strict
  intro c'
  rw [hpr.order]
  have hdom : (st.takeNext c).dom = update st.dom c ⟨((st.dom c).domain.takeReady st.order).2,
        ((st.dom c).domain.takeReady st.order).1⟩ := by
    unfold FmState.takeNext
    dsimp only
    split <;> rfl
  rw [hdom]
  by_cases hc : c' = c
  · subst hc
    rw [update_self]
    exact (h.tidy c').takeReady h.strict
  rw [update_of_ne hc]
  exact h.tidy c'

theorem Arranged.switch (h : Arranged S st) (ht : t ∈ S) (hs : st.switch now c t = some st') :
    Arranged S st' := by
  obtain ⟨⟨st1, dropped⟩, hrq, heq⟩ := map_eq_some_iff.mp hs
  have hre := h.requeue ht hrq
  cases dropped with
  | true =>
    have heq' : st' = st1.setCall c (.unlocked t) := heq.symm
    subst heq'
    exact hre.of_samePrio (fun _ => rfl) (fun _ => rfl)
  | false =>
    have heq' : st' = st1.takeNext c := heq.symm
    subst heq'
    exact hre.takeNext

theorem Arranged.requeueNew (h : Arranged S st) (ht : t ∈ S)
    (hs : st.requeueNew now c t = some st') : Arranged S st' := by
  obtain ⟨⟨st1, dropped⟩, hrq, heq⟩ := map_eq_some_iff.mp hs
  have hre := h.requeue ht hrq
  cases dropped with
  | true =>
    have heq' := heq.symm
    subst heq'
    exact hre.of_samePrio (fun _ => rfl) (fun _ => rfl)
  | false =>
    have heq' : st' = st1 := heq.symm
    subst heq'
    exact hre

theorem Arranged.setTask {S' : Set TaskId} (h : Arranged S st) (hsub : S ⊆ S') {p : FmTask}
    (hpl : ∀ x ∈ S, Plain (tableOf st.task) x) (hapa : ∀ c, t ∉ (st.dom c).domain.queued)
    (hstr : StrictWeakOn (st.setTask t p).order S') : Arranged S' (st.setTask t p) := by
  refine ⟨hstr, fun c => ⟨?_, fun x hx => hsub ((h.tidy c).mem x hx)⟩⟩
  apply (h.tidy c).sorted.congr
  intro a ha b hb hab
  have hne : ∀ x ∈ (st.dom c).domain.queued, tableOf (st.setTask t p).task x =
      tableOf st.task x := by
    intro x hx
    have hxt : x ≠ t := fun heq => hapa c (heq ▸ hx)
    rw [tableOf, setTask_of_ne hxt]
    rfl
  have hplain' : ∀ x ∈ (st.dom c).domain.queued, Plain (tableOf (st.setTask t p).task) x := by
    intro x hx
    rw [Plain, hne x hx]
    exact hpl x ((h.tidy c).mem x hx)
  have hold : ∀ x ∈ (st.dom c).domain.queued, Plain (tableOf st.task) x := fun x hx =>
    hpl x ((h.tidy c).mem x hx)
  rw [order, edfReadyOrder_plain (hplain' a ha) (hplain' b hb), hne a ha, hne b hb] at hab
  exact (edfReadyOrder_plain (hold a ha) (hold b hb)).mpr hab

end

/-! ### Steps -/

def realtimeTasks (st : FmState n) : Set TaskId := { t | (st.task t).realtime = true }

/-- The deadlines of all real-time tasks fit into half of the 64-bit range. -/
def Timed (st : FmState n) : Prop := Windowed (tableOf st.task) st.realtimeTasks

/-- The heaps are ordered, and EDF can compare all tasks. -/
structure Ranked (st : FmState n) : Prop where
  comparable : Comparable st.task st.realtimeTasks
  arranged : Arranged st.realtimeTasks st

section

variable {st st' : FmState n} {c : Fin n} {t : TaskId} {now : LtTime} {p : FmTask}

theorem SamePrio.realtimeTasks (h : SamePrio st st') : st'.realtimeTasks = st.realtimeTasks := by
  ext u
  have hu : (st'.task u).realtime = (st.task u).realtime := congrArg (fun f => f.2.1) (h u)
  simp [FmState.realtimeTasks, hu]

theorem Ranked.of_samePrio (h : Ranked st) (hpr : SamePrio st st')
    (hn : Arranged st.realtimeTasks st → Arranged st.realtimeTasks st') : Ranked st' := by
  constructor
  · rw [hpr.realtimeTasks]
    exact h.comparable.congr fun u _ => hpr u
  rw [hpr.realtimeTasks]
  exact hn h.arranged

/-- A step that changes the job of a task that is in no heap, and then keeps the
    priorities. -/
theorem Ranked.of_setTask (h : Ranked st) (htim : Timed st')
    (hpl : p.realtime = true ∧ p.inhTask = none) (hapa : ∀ c, t ∉ (st.dom c).domain.queued)
    (hpr : SamePrio (st.setTask t p) st')
    (hn : ∀ S, t ∈ S → Arranged S (st.setTask t p) → Arranged S st') : Ranked st' := by
  have hta : st'.realtimeTasks = insert t st.realtimeTasks := by
    rw [hpr.realtimeTasks]
    ext u
    by_cases hu : u = t
    · subst hu
      simp [realtimeTasks, hpl.1]
    simp [realtimeTasks, setTask_of_ne hu, hu]
  have hcomp' : Comparable (st.setTask t p).task st'.realtimeTasks := by
    have hcom : Comparable st'.task st'.realtimeTasks := by
      refine ⟨fun u hu => ⟨hu, ?_⟩, htim⟩
      have hinh : (st'.task u).inhTask = ((st.setTask t p).task u).inhTask :=
        congrArg (fun f => f.2.2.2) (hpr u)
      rw [tableOf, hinh]
      rw [hta] at hu
      by_cases hut : u = t
      · subst hut
        rw [setTask_self]
        exact hpl.2
      rw [setTask_of_ne hut]
      exact (h.comparable.plain u (hu.resolve_left hut)).2
    exact hcom.congr fun u _ => (hpr u).symm
  refine ⟨hcomp'.congr fun u _ => hpr u, ?_⟩
  apply hn _ (hta ▸ Set.mem_insert t _)
  refine h.arranged.setTask ?_ h.comparable.plain hapa hcomp'.order
  rw [hta]
  exact Set.subset_insert t _

theorem task_addReady (h : st.addReady c t = some st') : st'.task = st.task := by
  unfold FmState.addReady at h
  split at h
  · cases h
  obtain ⟨edf, -, rfl⟩ := map_eq_some_iff.mp h
  rfl

theorem samePrio_requeue {dropped : Bool} (hrq : st.requeue now c t = some (st', dropped)) :
    SamePrio st st' := by
  have hfl : SamePrio st (st.setFlags t .running) := prio_setFlags .running
  unfold requeue at hrq
  dsimp only at hrq
  split at hrq
  · split at hrq
    · split at hrq
      · cases hrq
        exact hfl
      cases hrq
    obtain ⟨st1, h1, heq⟩ := map_eq_some_iff.mp hrq
    cases heq
    intro u
    rw [task_addReady h1]
    exact hfl u
  split at hrq
  · obtain ⟨st1, h1, heq⟩ := map_eq_some_iff.mp hrq
    cases heq
    obtain ⟨c', -, rfl⟩ := map_eq_some_iff.mp h1
    exact hfl
  cases hrq
  exact hfl

theorem samePrio_switch (hs : st.switch now c t = some st') : SamePrio st st' := by
  obtain ⟨⟨st1, dropped⟩, hrq, heq⟩ := map_eq_some_iff.mp hs
  have hpr := samePrio_requeue hrq
  cases dropped with
  | true =>
    have heq' : st' = st1.setCall c (.unlocked t) := heq.symm
    subst heq'
    exact hpr
  | false =>
    have heq' : st' = st1.takeNext c := heq.symm
    subst heq'
    exact fun u => (samePrio_takeNext u).trans (hpr u)

theorem samePrio_requeueNew (hs : st.requeueNew now c t = some st') : SamePrio st st' := by
  obtain ⟨⟨st1, dropped⟩, hrq, heq⟩ := map_eq_some_iff.mp hs
  have hpr := samePrio_requeue hrq
  cases dropped with
  | true =>
    have heq' := heq.symm
    subst heq'
    exact hpr
  | false =>
    have heq' : st' = st1 := heq.symm
    subst heq'
    exact hpr

theorem Ranked.peek (h : Ranked st) (u : Option TaskId) :
    Ranked (st.setDomain c (edffmPreemptionNeeded st.task (st.dom c).domain u).2) :=
  h.of_samePrio (fun _ => rfl) fun har =>
    har.setDomain ((har.tidy c).preemptionNeeded har.strict u)

theorem samePrio_scheduleTask {preempt : Bool} {st1 : FmState n}
    (hs : st.scheduleTask now c t preempt = some st') (h1 : st.complete t = some st1) :
    SamePrio st1 st' := by
  unfold FmState.scheduleTask at hs
  dsimp only at hs
  split at hs
  · cases hs
  rw [h1, Option.bind_some] at hs
  split at hs
  · split at hs
    · cases hs
      exact samePrio_takeNext
    exact samePrio_switch hs
  cases hs
  exact prio_setFlags .running

theorem Ranked.scheduleTask {preempt : Bool} (h : Ranked st) (htim : Timed st')
    (hrt : (st.task t).realtime = true) (hapa : ∀ c, t ∉ (st.dom c).domain.queued)
    (hs : st.scheduleTask now c t preempt = some st') : Ranked st' := by
  have hpri : ∀ st1, st.complete t = some st1 → SamePrio st1 st' := fun _ =>
    samePrio_scheduleTask hs
  unfold FmState.scheduleTask at hs
  dsimp only at hs
  split at hs
  · cases hs
  obtain ⟨st1, h1, hs⟩ := bind_eq_some_iff.mp hs
  obtain ⟨p, hp, rfl, -⟩ := rehomed_complete h1
  have hpla : p.realtime = true ∧ p.inhTask = none := by
    rw [hp.realtime, hp.inhTask]
    exact h.comparable.plain t hrt
  refine h.of_setTask htim hpla hapa (hpri _ h1) fun S ht har => ?_
  split at hs
  · split at hs
    · cases hs
      exact har.takeNext
    exact har.switch ht hs
  cases hs
  exact har.setFlags t .running

theorem Ranked.schedule {prev : TaskId} (h : Ranked st) (htim : Timed st')
    (hsl : ∀ t, (st.dom c).scheduled = some t → (st.task t).realtime = true ∧
      ∀ c, t ∉ (st.dom c).domain.queued) (hs : st.edffmSchedule now c prev = some st') :
    Ranked st' := by
  have hpe := h.peek (c := c) (some prev)
  unfold edffmSchedule at hs
  split at hs
  · cases hs
    exact hpe.of_samePrio samePrio_takeNext fun harr => harr.takeNext
  rename_i t ht
  split at hs
  · cases hs
  obtain ⟨hrt, hap⟩ := hsl t ht
  refine hpe.scheduleTask htim hrt (fun c' hc' => ?_) hs
  by_cases hc : c' = c
  · subst hc
    rw [setDomain_self] at hc'
    obtain ⟨hr, hw⟩ := edffmPreemptionNeeded_contents st.task (st.dom c').domain
      (some prev)
    rw [RtDomain.queued, hr, hw] at hc'
    exact hap c' hc'
  rw [setDomain_of_ne hc] at hc'
  exact hap c' hc'

theorem realtime_of_held (h : FmInv st) {q : Place n} (ht : t ∈ st.held q) :
    (st.task t).realtime = true := ((h.sound.live_iff t).mp ⟨q, ht⟩).2.1

theorem slot_apart (h : FmInv st) (hcal : st.call c = .idle) (hs : (st.dom c).scheduled = some t) :
    (st.task t).realtime = true ∧ ∀ c, t ∉ (st.dom c).domain.queued := by
  have hm : t ∈ st.held (.slot c) := mem_slot.mpr ⟨hcal, hs⟩
  exact ⟨realtime_of_held h hm, h.apart hm (by simp) (by simp)⟩

theorem block_spec {resched : LtTime} (h : FmInv st) (hcal : st.call c = .idle)
    (hx : st.exec (.block c resched) = some st') : ∃ t, (st.dom c).scheduled = some t ∧
      SamePrio st (st.setTask t ((st.task t).modify (setRunning false))) ∧
      edffmSchedule resched c t (st.setTask t ((st.task t).modify (setRunning false))) =
        some st' := by
  obtain ⟨t, hsl, hx⟩ := bind_eq_some_iff.mp hx
  obtain ⟨st1, h1, hs⟩ := bind_eq_some_iff.mp hx
  obtain ⟨hrt, hapa⟩ := slot_apart h hcal hsl
  refine ⟨t, hsl, fun u => ?_, ?_⟩
  · by_cases hu : u = t
    · subst hu
      rw [setTask_self]
      rfl
    rw [setTask_of_ne hu]
  unfold edffmTaskBlock at h1
  have hq : (st.setTask t ((st.task t).modify (setRunning false))).isQueued t = false :=
    isQueued_eq_false hapa
  have hreal' : ((st.setTask t ((st.task t).modify (setRunning false))).task
      t).realtime = true := by
    rw [setTask_self]
    exact hrt
  rw [hq, hreal'] at h1
  rw [Option.some.inj h1]
  exact hs

theorem decisive_blocked_iff (hs : (st.dom c).scheduled = some t)
    (hpri : SamePrio st (st.setTask t ((st.task t).modify (setRunning false)))) :
    Decisive now c (st.setTask t ((st.task t).modify (setRunning false))) ↔
      MigratoryFirst st.task (st.readyOn c) := by
  rw [← migratoryFirst_congr hpri]
  generalize hst : st.setTask t ((st.task t).modify (setRunning false)) = st1 at *
  have hru : (st1.task t).running = false := by
    rw [← hst, setTask_self]
    rfl
  have hslot1 : (st1.dom c).scheduled = some t := by
    rw [← hst]
    exact hs
  have hr : st1.readyOn c = st.readyOn c := by
    rw [← hst]
    rfl
  have hkee : ¬st1.keeps c t = true := by simp [keeps, hru]
  have hcom := complete_of_not (not_completes_of_blocked hru)
  simp [Decisive, hslot1, hkee, hcom, hru, hr]

theorem Ranked.wakeUp {requeued : LtTime} (hI : FmInv st) (h : Ranked st) (hti : Timed st')
    (hrt : (st.task t).realtime = true) (hblo : (st.task t).running = false)
    (hx : st.exec (.taskWakeUp t now requeued) = some st') : Ranked st' := by
  have hn : ¬st.Live t := fun hl => nomatch (hblo.symm.trans hl.2)
  obtain ⟨c, -, hx⟩ := bind_eq_some_iff.mp hx
  split at hx
  · cases hx
  obtain ⟨p, hp, hx⟩ := bind_eq_some_iff.mp hx
  have hre := rehomed_wakeJob hp
  rw [setTask_self] at hre
  rw [setTask_setTask] at hx
  have hpl : p.realtime = true ∧ p.inhTask = none := by
    rw [hre.realtime, hre.inhTask]
    exact h.comparable.plain t hrt
  split at hx
  · exact h.of_setTask hti hpl (hI.not_queued hn) (samePrio_requeueNew hx)
      fun _ ht har => har.requeueNew ht hx
  cases hx
  exact h.of_setTask hti hpl (hI.not_queued hn) (fun _ => rfl) fun _ _ har => har

/-- A new task in the slot of a CPU leaves the queues as they are. -/
theorem domain_setCpu {u : Option TaskId} (c' : Fin n) :
    ((st.setCpu c ⟨(st.dom c).domain, u⟩).dom c').domain = (st.dom c').domain := by
  by_cases hc : c' = c
  · subst hc
    simp [setCpu]
  simp [setCpu, hc]

theorem Ranked.taskNew {params : TaskParams} {cpus : Fin 2 → BitVec 32} {nrCpus : BitVec 32}
    {fraction : Fin 2 → Fin 2 → LtTime} {running : Bool} {requeued : LtTime} (hI : FmInv st)
    (h : Ranked st) (hti : Timed st') (hrt : (st.task t).realtime = false)
    (hx : st.exec (.taskNew t params cpus nrCpus fraction running now requeued) = some st') :
    Ranked st' := by
  have hn : ¬st.Live t := fun hl => nomatch (hrt.symm.trans hl.1)
  let p := (admitted params cpus nrCpus fraction).edffmTaskNew now
  let st1 : FmState n := { st.setTask t p with taskCpu := update st.taskCpu t params.cpu.toNat }
  obtain ⟨c, -, hx⟩ := bind_eq_some_iff.mp hx
  have hadm : ({ st.setTask t (admitted params cpus nrCpus fraction) with
      taskCpu := update st.taskCpu t params.cpu.toNat } : FmState n).task t =
        admitted params cpus nrCpus fraction := update_self _ _ _
  have h1 : ({ st.setTask t (admitted params cpus nrCpus fraction) with
      taskCpu := update st.taskCpu t params.cpu.toNat } : FmState n).setTask t p =
        st1 := by
    simp [FmState.setTask, st1]
  dsimp only at hx
  rw [hadm, h1] at hx
  have hs : ∀ {S : Set TaskId}, Arranged S (st.setTask t p) → Arranged S st1 := fun har =>
    har.of_samePrio (fun _ => rfl) (fun _ => rfl)
  split at hx
  · split at hx
    · cases hx
    cases hx
    exact h.of_setTask (p := p) hti ⟨rfl, rfl⟩ (hI.not_queued hn) (fun _ => rfl)
      fun _ _ har => (hs har).of_samePrio (fun _ => rfl) domain_setCpu
  have hpri : SamePrio st1 st' := samePrio_requeueNew hx
  exact h.of_setTask (p := p) hti ⟨rfl, rfl⟩ (hI.not_queued hn) hpri
    fun _ ht har => (hs har).requeueNew ht hx

theorem Ranked.step {op : FmOp n} (hI : FmInv st) (h : Ranked st) (hti : Timed st')
    (hste : FmStep st op st') : Ranked st' := by
  obtain ⟨hl, hx⟩ := hste
  cases op with
  | schedule c prev now => exact h.schedule hti (fun t => slot_apart hI hl) hx
  | insertRemote c =>
    unfold exec at hx
    dsimp only at hx
    split at hx
    · rename_i t hcal
      obtain ⟨st1, h1, rfl⟩ := map_eq_some_iff.mp hx
      have hm : t ∈ st.held (.leaving c) := by simp [held, hcal]
      obtain ⟨c', -, had⟩ := bind_eq_some_iff.mp h1
      have hta := task_addReady had
      refine h.of_samePrio (fun u => ?_) fun har => ?_
      · exact congrArg (fun f => (f u).prio) hta
      exact (har.addReady (realtime_of_held hI hm) had).of_samePrio (fun _ => rfl)
        (fun _ => rfl)
    cases hx
  | finishSchedule c =>
    unfold exec at hx
    dsimp only at hx
    split at hx
    · cases hx
      exact h.of_samePrio samePrio_takeNext fun har => har.takeNext
    cases hx
  | block c resched =>
    obtain ⟨t, hsl, hpr, hs⟩ := block_spec hI hl hx
    obtain ⟨hrt, hap⟩ := slot_apart hI hl hsl
    have hblo := h.of_samePrio hpr fun har => har.of_samePrio hpr (fun _ => rfl)
    refine hblo.schedule hti (fun u hu => ?_) hs
    have hut : u = t := Option.some.inj (hu.symm.trans hsl)
    subst hut
    rw [setTask_self]
    exact ⟨hrt, hap⟩
  | taskWakeUp t now requeued => exact h.wakeUp hI hti hl.1 hl.2 hx
  | insertWoken t =>
    have hm : t ∈ st.held .waking := Multiset.mem_coe.mpr hl
    obtain ⟨c', -, had⟩ := bind_eq_some_iff.mp hx
    have hta := task_addReady had
    refine h.of_samePrio (fun u => congrArg (fun f => (f u).prio) hta) fun har => ?_
    have hera : Arranged st.realtimeTasks { st with waking := st.waking.erase t } :=
      har.of_samePrio (fun _ => rfl) (fun _ => rfl)
    exact hera.addReady (realtime_of_held hI hm) had
  | taskNew t params cpus nrCpus fraction running now requeued =>
    exact h.taskNew hI hti hl.1 hx
  | releaseTimer c i =>
    obtain ⟨edf, hed, rfl⟩ := map_eq_some_iff.mp hx
    exact h.of_samePrio (fun _ => rfl) fun har =>
      har.setDomain ((har.tidy c).onReleaseTimer hed)
  | releaseJobs c i =>
    obtain ⟨edf, hed, rfl⟩ := map_eq_some_iff.mp hx
    exact h.of_samePrio (fun _ => rfl) fun har => har.setDomain
      (((har.tidy c).mergeFired har.strict hed).preemptionNeeded har.strict _)
  | releaseAt t start =>
    cases hx
    have hn : ¬st.Live t := fun hliv => Bool.noConfusion (hl.2.symm.trans hliv.2)
    exact h.of_setTask (p := (st.task t).releaseAt start) hti
      (h.comparable.plain t hl.1) (hI.not_queued hn) (fun _ => rfl) fun _ _ har => har
  | execute c delta =>
    obtain ⟨t, hsl, rfl⟩ := map_eq_some_iff.mp hx
    have hap := slot_apart hI hl hsl
    exact h.of_setTask (p := (st.task t).modify (updateTime delta)) hti
      (h.comparable.plain t hap.1) hap.2 (fun _ => rfl) fun _ _ har => har
  | completeJob c =>
    obtain ⟨t, hsl, rfl⟩ := map_eq_some_iff.mp hx
    exact h.of_samePrio (prio_setFlags .sleep) fun har => har.setFlags t .sleep

/-! ### Decisions -/

theorem proper_of_schedule {prev : TaskId} (h : Ranked st) (htim : Timed st')
    (hsl : ∀ t, (st.dom c).scheduled = some t → (st.task t).realtime = true ∧
      ∀ c, t ∉ (st.dom c).domain.queued) (hs : st.edffmSchedule now c prev = some st') :
    st.Proper c := by
  have hr : ∀ x ∈ st.readyOn c, x ∈ st.realtimeTasks := fun x hx =>
    (h.arranged.tidy c).mem x (RtDomain.mem_queued.mpr (.inl hx))
  have hran := h.schedule htim hsl hs
  constructor
  · exact (h.arranged.tidy c).sorted.ready
  · intro t ht hin
    exact (hsl t ht).2 c (RtDomain.mem_queued.mpr (.inl hin))
  · exact h.comparable.mono hr
  intro t ht
  have hsu : {x | x ∈ t ::ₘ st.readyOn c} ⊆ st.realtimeTasks := by
    intro x hx
    rcases Multiset.mem_cons.mp hx with rfl | hx
    · exact (hsl x ht).1
    exact hr x hx
  refine ⟨h.comparable.mono hsu, fun st1 h1 => ?_⟩
  have hpr : SamePrio st1 st' := by
    unfold edffmSchedule at hs
    rw [ht] at hs
    dsimp only at hs
    split at hs
    · cases hs
    let edf := (edffmPreemptionNeeded st.task (st.dom c).domain (some prev)).2
    have hcm : (st.setDomain c edf).complete t =
        (st.complete t).map (setDomain c edf) := complete_setDomain edf
    rw [h1] at hcm
    have haf := samePrio_scheduleTask hs hcm
    exact haf
  have htas : st'.realtimeTasks = st.realtimeTasks := by
    obtain ⟨p, hp, rfl, -⟩ := rehomed_complete h1
    rw [hpr.realtimeTasks]
    ext u
    by_cases hu : u = t
    · subst hu
      simp [realtimeTasks, hp.realtime]
    simp [realtimeTasks, setTask_of_ne hu]
  have hcom := hran.comparable.mono (htas ▸ hsu)
  exact hcom.congr fun u _ => (hpr u).symm

end

/-- A step after which the deadlines of all real-time tasks can be compared. -/
def TimedStep (st : FmState n) (op : FmOp n) (st' : FmState n) : Prop :=
  FmStep st op st' ∧ st'.Timed

/-- The state before a step in which the call that it ends decides by the priorities.  When the
    scheduled task has been migrated away or blocks, the ready tasks compete. -/
def DecisiveStep (st : FmState n) : FmOp n → Prop
  | .schedule c _ now => Decisive now c st
  | .finishSchedule c => MigratoryFirst st.task (st.readyOn c)
  | .block c _ => MigratoryFirst st.task (st.readyOn c)
  | _ => True

theorem ranked_init {task : TaskId → FmTask} (tickPeriod : Nat)
    (hn : ∀ t, (task t).realtime = false) : Ranked (init task tickPeriod : FmState n) := by
  have hem : ∀ t, t ∉ (init task tickPeriod : FmState n).realtimeTasks := by
    intro t ht
    exact nomatch ((hn t).symm.trans ht)
  have hco : Comparable (init task tickPeriod : FmState n).task
      (init task tickPeriod : FmState n).realtimeTasks :=
    ⟨fun t ht => absurd ht (hem t), 0, fun t ht => absurd ht (hem t)⟩
  refine ⟨hco, hco.order, fun c => ⟨RtDomain.Sorted.init _ tickPeriod, fun x hx => ?_⟩⟩
  exact absurd hx (Multiset.notMem_zero x)

theorem ranked_of_run {task : TaskId → FmTask} {tickPeriod : Nat}
    (hn : ∀ t, (task t).realtime = false) {ops : List (FmOp n)} {st : FmState n}
    (hr : Run TimedStep (init task tickPeriod) ops st) : FmInv st ∧ Ranked st :=
  hr.invariant (I := fun st => FmInv st ∧ Ranked st)
    (fun _ _ _ h hs => ⟨h.1.step hs.1, h.2.step h.1 hs.2 hs.1⟩)
    ⟨fmInv_init tickPeriod hn, ranked_init tickPeriod hn⟩

end FmState

open FmState

/-- Along every run with comparable deadlines, the task that `edffm_schedule` returns is one
    that no ready task beats under `edffm_higher_prio`, and `NULL` only if none is ready, if
    and only if the migratory tasks were in front. -/
theorem edffm_decides_by_priority_iff {n : Nat} {task : TaskId → FmTask} {tickPeriod : Nat}
    (hnone : ∀ t, (task t).realtime = false) {ops : List (FmOp n)} {st st' : FmState n}
    (hrun : Run TimedStep (init task tickPeriod) ops st) {op : FmOp n} {c : Fin n}
    (hstep : TimedStep st op st') (hop : op.schedules = some c) (hret : st'.call c = .idle) :
    Decided c st' ↔ st.DecisiveStep op := by
  obtain ⟨hI, hranked⟩ := ranked_of_run hnone hrun
  obtain ⟨⟨hl, hexec⟩, htimed⟩ := hstep
  cases op with
  | schedule c' prev now =>
    cases hop
    exact decided_schedule_iff
      (proper_of_schedule hranked htimed (fun _ => slot_apart hI hl) hexec) hexec hret
  | finishSchedule c' =>
    cases hop
    unfold exec at hexec
    dsimp only at hexec
    split at hexec
    · cases hexec
      apply decided_takeNext_iff hranked.comparable
      · exact fun x hx =>
          (hranked.arranged.tidy c).mem x (RtDomain.mem_queued.mpr (.inl hx))
      · exact (hranked.arranged.tidy c).sorted.ready
    · cases hexec
  | block c' resched =>
    cases hop
    obtain ⟨t, hslot, hprio, hs⟩ := block_spec hI hl hexec
    obtain ⟨hrt, hapart⟩ := slot_apart hI hl hslot
    have hblocked := hranked.of_samePrio hprio fun harr => harr.of_samePrio hprio (fun _ => rfl)
    have hproper : Proper c (st.setTask t ((st.task t).modify (setRunning false))) := by
      refine proper_of_schedule hblocked htimed (fun u hu => ?_) hs
      have hut : u = t := Option.some.inj (hu.symm.trans hslot)
      subst hut
      rw [setTask_self]
      exact ⟨hrt, hapart⟩
    rw [decided_schedule_iff hproper hs hret]
    exact decisive_blocked_iff hslot hprio
  | _ => cases hop

theorem FmState.timed_of_first {n : Nat} {st : FmState n} (k : Nat)
    (hres : ∀ t, (st.task (t + k)).realtime = false)
    (hfi : ∀ t < k, WrapOrder.InWindow 0 (st.task t).job.deadline) : Timed st := by
  refine ⟨0, fun t ht => ?_⟩
  rcases lt_or_ge t k with hlt | hge
  · exact hfi t hlt
  obtain ⟨d, rfl⟩ := Nat.exists_eq_add_of_le' hge
  exact nomatch ((hres d).symm.trans ht)

/-- A fixed task of CPU 0, and a migratory one. -/
def newFixed (t : TaskId) (period : LtTime) : FmOp 2 :=
  .taskNew t { cpu := 0, period := period, execCost := 5, budgetPolicy := .noEnforcement }
    ![0, 0] 0 ![![0, 0], ![0, 0]] false 0 0

def newMigratory (t : TaskId) (period : LtTime) : FmOp 2 :=
  .taskNew t { cpu := 0, period := period, execCost := 5, budgetPolicy := .noEnforcement }
    ![0, 1] 2 ![![1, 1], ![2, 2]] false 0 0

/-- The migratory task has the earlier deadline and is taken. -/
theorem edffm_decides_by_priority_early :
    ∃ st st' : FmState 2,
      Run TimedStep (init noFmTasks 1000000) [newMigratory 1 10, newFixed 2 20] st ∧
        TimedStep st (.schedule 0 0 0) st' ∧ Decided 0 st' := by
  obtain ⟨st, st', hrun, hs, hret, hcond⟩ : ∃ st st' : FmState 2,
      Run TimedStep (init noFmTasks 1000000) [newMigratory 1 10, newFixed 2 20] st ∧
        TimedStep st (.schedule 0 0 0) st' ∧ st'.call 0 = .idle ∧
        st.DecisiveStep (.schedule 0 0 0) :=
    ⟨_, _, .cons ⟨⟨⟨rfl, by decide, by decide, by decide, by decide, by decide⟩, rfl⟩,
        timed_of_first 3 (fun _ => rfl) (by decide)⟩
      (.cons ⟨⟨⟨rfl, by decide, by decide, by decide, by decide, by decide⟩, rfl⟩,
        timed_of_first 3 (fun _ => rfl) (by decide)⟩ .nil),
      ⟨⟨rfl, rfl⟩, timed_of_first 3 (fun _ => rfl) (by decide)⟩, rfl,
      show MigratoryFirst _ _ by decide⟩
  exact ⟨st, st', hrun, hs,
    (edffm_decides_by_priority_iff (fun _ => rfl) hrun hs rfl hret).mpr hcond⟩

/-- The fixed task has the earlier deadline and is taken, with a migratory task ready. -/
theorem edffm_fixed_before_migratory :
    ∃ st st' : FmState 2,
      Run TimedStep (init noFmTasks 1000000) [newFixed 1 10, newMigratory 2 20] st ∧
        TimedStep st (.schedule 0 0 0) st' ∧ (st'.dom 0).scheduled = some 1 ∧
        (st'.readyOn 0) = {2} ∧ edffmHigherPrio st'.task (some 2) (some 1) = true ∧
        ¬Decided 0 st' :=
  ⟨_, _, .cons ⟨⟨⟨rfl, by decide, by decide, by decide, by decide, by decide⟩, rfl⟩,
      timed_of_first 3 (fun _ => rfl) (by decide)⟩
    (.cons ⟨⟨⟨rfl, by decide, by decide, by decide, by decide, by decide⟩, rfl⟩,
      timed_of_first 3 (fun _ => rfl) (by decide)⟩ .nil),
    ⟨⟨rfl, rfl⟩, timed_of_first 3 (fun _ => rfl) (by decide)⟩, rfl, rfl, by decide,
    by unfold Decided; decide⟩

end Litmus.EdfFm
