import Litmus.NpsfInvariant

/-!
# Runs of a server

Every legal step of a server succeeds and keeps its invariant, so the invariant holds
after any sequence of the entry points.
-/

namespace Litmus.Npsf

open BinomialForest WrapOrder Runs TaskTable RtDomain
open RtTask (setRunning setRealtime)

namespace NpsfServer

variable {s : NpsfServer} {t : TaskId}

theorem modifyTask_modifyTask (s : NpsfServer) (t : TaskId) (f g : RtTask → RtTask) :
    (s.modifyTask t f).modifyTask t g = s.modifyTask t (g ∘ f) := by
  have hta : (s.task.modify t f).modify t g = s.task.modify t (g ∘ f) := by
    funext u
    by_cases hu : u = t
    · subst hu
      simp [Function.comp]
    simp [modify_of_ne _ _ hu]
  simp [modifyTask, hta]

/-! ### Steps that touch neither places nor priorities -/

theorem keeps_modifyTask (hinv : ServerInv s) (t : TaskId) (f : RtTask → RtTask)
    (hrol : ∀ p, role (f p) = role p) (hpri : ∀ p, prioFields (f p) = prioFields p) :
    Keeps s (s.modifyTask t f) := by
  have hrd : (s.modifyTask t f).order = s.order :=
    edfReadyOrder_congr (modify_field prioFields f hpri s.task t)
  refine ⟨hinv.of_role rfl (modify_field role f hrol s.task t) hinv.idle, ?_⟩
  intro base _ _ hor
  refine ⟨?_, ?_⟩
  · rw [hrd]
    exact hor.sorted
  intro h hh x hx
  rw [hrd]
  exact hor.best h hh x hx

theorem releaseTimer_spec (hinv : ServerInv s) {i : Nat} (hi : i < s.dom.releaseQueue.length) :
    ∃ s', (s.dom.onReleaseTimer i).map (fun dom => { s with dom := dom }) = some s' ∧
      Keeps s s' := by
  have hget := List.getElem?_eq_getElem hi
  obtain ⟨dom, hdo⟩ : ∃ dom, s.dom.onReleaseTimer i = some dom := by
    rw [RtDomain.onReleaseTimer, hget]
    exact ⟨_, rfl⟩
  obtain ⟨hr, hwai⟩ := onReleaseTimer_contents hdo
  rw [hdo]
  refine ⟨_, rfl, hinv.of_role (places_setDom ?_) (fun _ => rfl) ?_, ?_⟩
  · rw [queued, hr, hwai]
    rfl
  · intro hn
    rw [hr]
    exact hinv.idle hn
  intro base _ _ hor
  refine ⟨hor.sorted.onReleaseTimer hdo, fun h hh x hx => hor.best h hh x ?_⟩
  rw [hr] at hx
  exact hx

/-! ### Releases -/

theorem releaseJobs_spec (now : LtTime) (hinv : ServerInv s) {i : Nat}
    (hi : i < s.dom.fired.length) : ∃ s', s.npsfReleaseJobs now i = some s' ∧ Keeps s s' := by
  have hget := List.getElem?_eq_getElem hi
  obtain ⟨dom, hdo⟩ : ∃ dom, s.dom.mergeFired s.order i = some dom := by
    rw [mergeFired, hget]
    exact ⟨_, rfl⟩
  obtain ⟨moved, hr, hwai⟩ := mergeFired_contents hdo
  have hqu : dom.queued = s.dom.queued := by
    rw [queued, queued, hr, hwai, add_assoc]
  obtain ⟨s', hs', hrs⟩ := npsfRescheduleServer_spec now (s := { s with dom := dom })
    (fun h hh => by
      rw [hqu]
      exact hinv.highestPrio hh)
  have hpl := places_setDom hqu
  have hinv' : ServerInv s' := by
    refine ServerInv.of_rescheduled (s := { s with dom := dom }) ?_ ?_ hinv.inh hrs
    · rw [hpl]
      exact hinv.nodup
    intro t
    rw [hpl]
    exact hinv.mem_iff t
  refine ⟨s', ?_, hinv', fun base hw hw' hord => OrderInv.of_rescheduled hinv' hw' hrs ?_⟩
  · rw [npsfReleaseJobs, hdo]
    exact hs'
  exact hord.sorted.mergeFired (hinv.strictWeakOn hw)
    (fun x hx => hinv.places_members x (mem_queued_places hx)) hdo

/-! ### Arrivals -/

theorem not_mem_places_of_not_realtime (hinv : ServerInv s) (h : (s.task t).realtime = false) :
    t ∉ s.places := by
  rw [hinv.mem_iff, h]
  simp

theorem not_mem_places_of_not_running (hinv : ServerInv s) (h : (s.task t).running = false) :
    t ∉ s.places := by
  rw [hinv.mem_iff, h]
  simp

theorem taskNew_spec (now : Readings) (params : TaskParams) (hinv : ServerInv s)
    (ht : (s.task t).realtime = false) :
    ∃ s', (s.modifyTask t fun _ => RtTask.admitted params).npsfTaskNew now t = some s' ∧
      Keeps s s' := by
  have hs := enter_spec now.requeued now.displaced hinv (t := t)
    (f := RtTask.releaseAt now.call ∘ fun _ => RtTask.admitted params)
    (not_mem_places_of_not_realtime hinv ht) rfl rfl rfl
  rwa [← modifyTask_modifyTask] at hs

theorem npsfTaskWakeUp_eq (now : Readings) (hreal : (s.task t).realtime = true)
    (hq : t ∉ s.dom.queued) (hhp : s.highestPrio ≠ some t) : s.npsfTaskWakeUp now t =
      ((if (s.task t).isTardy now.call then s.modifyTask t (RtTask.releaseAt now.call)
        else s).requeue now.requeued t).bind (npsfRescheduleServer now.displaced) := by
  have hq' : s.dom.isQueued t = false := decide_eq_false hq
  unfold npsfTaskWakeUp
  simp only [hreal, hq', Bool.not_true, Bool.or_self, Bool.false_eq_true, if_false]
  by_cases hta : (s.task t).isTardy now.call = true
  · simp only [if_pos hta]
    exact if_pos hhp
  simp only [if_neg hta]
  exact if_pos hhp

theorem taskWakeUp_spec (now : Readings) (hinv : ServerInv s) (hreal : (s.task t).realtime = true)
    (ht : (s.task t).running = false) :
    ∃ s', (s.modifyTask t (setRunning true)).npsfTaskWakeUp now t = some s' ∧ Keeps s s' := by
  have hn := not_mem_places_of_not_running hinv ht
  have hin : (s.task t).inhTask = none := hinv.inh t hreal
  have hse : (s.modifyTask t (setRunning true)).task t =
      setRunning true (s.task t) := modify_self _ _ _
  rw [npsfTaskWakeUp_eq now (s := s.modifyTask t (setRunning true))
    (by rw [hse]; exact hreal) (fun h => hn (mem_queued_places (s := s) h))
    (fun h => hn (mem_places.mpr (.inl h)))]
  split
  · rw [modifyTask_modifyTask]
    exact enter_spec now.requeued now.displaced hinv hn hreal rfl hin
  exact enter_spec now.requeued now.displaced hinv hn hreal rfl hin

/-! ### Departures -/

section

variable (now : LtTime) (hinv : ServerInv s) (hreal : (s.task t).realtime = true)
  (hwait : t ∉ s.dom.waiting)

include now hinv hreal hwait

theorem taskBlock_spec :
    ∃ s', (s.modifyTask t (setRunning false)).npsfTaskBlock now t = some s' ∧ Keeps s s' := by
  have hse : (s.modifyTask t (setRunning false)).task t =
      setRunning false (s.task t) := modify_self _ _ _
  have hreal1 : ((s.modifyTask t (setRunning false)).task t).realtime = true := by
    rw [hse]
    exact hreal
  have hrd : (s.modifyTask t (setRunning false)).order = s.order :=
    edfReadyOrder_congr (modify_field prioFields (setRunning false) (fun _ => rfl) s.task t)
  obtain ⟨s', hs', hrm⟩ := removeFromServer_spec now
    (s := s.modifyTask t (setRunning false)) hinv.nodup hinv.idle hwait
  have hpl : s'.places = s.places.erase t := hrm.places
  refine ⟨s', ?_, ⟨?_, ?_, ?_, hrm.idle⟩, ?_⟩
  · rw [npsfTaskBlock, hreal1]
    exact hs'
  · rw [hpl]
    exact hinv.nodup.erase t
  · intro u
    rw [hpl, hinv.nodup.mem_erase_iff, hrm.same.realtime, hrm.same.running]
    by_cases hu : u = t
    · subst hu
      simp [hse, setRunning]
    rw [hinv.mem_iff, show (s.modifyTask t (setRunning false)).task u = s.task u from
      modify_of_ne _ _ hu]
    simp [hu]
  · intro u
    rw [hrm.same.realtime, hrm.same.inhTask]
    have hro := modify_field prioFields (setRunning false) (fun _ => rfl) s.task t u
    rw [show ((s.modifyTask t (setRunning false)).task u).realtime = (s.task u).realtime
        from congrArg Prod.fst hro,
      show ((s.modifyTask t (setRunning false)).task u).inhTask = (s.task u).inhTask
        from congrArg (fun f => f.2.2) hro]
    exact hinv.inh u
  · intro base hw _ hor
    have hS := hinv.strictWeakOn hw
    rw [← hrd] at hS
    refine hrm.ordered s.members hS hinv.places_members ⟨?_, ?_⟩
    · rw [hrd]
      exact hor.sorted
    intro h hh x hx
    rw [hrd]
    exact hor.best h hh x hx

theorem taskExit_spec :
    ∃ s', (s.npsfTaskExit now t).map (fun s => s.modifyTask t (setRealtime false)) =
      some s' ∧ Keeps s s' := by
  obtain ⟨s1, hs1, hrm⟩ := removeFromServer_spec now hinv.nodup hinv.idle hwait
  have hn : t ∉ s1.places := by
    rw [hrm.places]
    exact hinv.nodup.notMem_erase
  have hse : (s1.modifyTask t (setRealtime false)).task t =
      setRealtime false (s1.task t) := modify_self _ _ _
  have ho : ∀ u, u ≠ t → (s1.modifyTask t (setRealtime false)).task u = s1.task u := fun u hu =>
    modify_of_ne _ _ hu
  refine ⟨s1.modifyTask t (setRealtime false), ?_, ⟨?_, ?_, ?_, hrm.idle⟩, ?_⟩
  · rw [npsfTaskExit, hreal]
    simp [hs1]
  · change s1.places.Nodup
    rw [hrm.places]
    exact hinv.nodup.erase t
  · intro u
    change u ∈ s1.places ↔ _
    by_cases hu : u = t
    · subst hu
      rw [hse]
      simp [hn, setRealtime]
    rw [ho u hu, hrm.places, hinv.nodup.mem_erase_iff, hrm.same.realtime,
      hrm.same.running, hinv.mem_iff]
    simp [hu]
  · intro u
    by_cases hu : u = t
    · subst hu
      rw [hse]
      intro h
      cases h
    rw [ho u hu, hrm.same.realtime, hrm.same.inhTask]
    exact hinv.inh u
  · intro base hw _ hord
    obtain ⟨hso, hbes⟩ := hrm.ordered s.members (hinv.strictWeakOn hw) hinv.places_members hord
    have hpl : ∀ x ∈ s1.places, Plain s1.task x := by
      intro x hx
      rw [hrm.places] at hx
      have hpx := hinv.plain_places x (Multiset.mem_of_mem_erase hx)
      rw [Plain, hrm.same.realtime, hrm.same.inhTask]
      exact hpx
    have hne : ∀ x ∈ s1.places, x ≠ t := by
      rintro x hx rfl
      exact hn hx
    refine ⟨sorted_modifyTask (fun x hx => hpl x (mem_queued_places hx))
      (fun h => hn (mem_queued_places h)) _ hso, ?_⟩
    intro h hh x hx habo
    have hxp : x ∈ s1.places := mem_queued_places (mem_queued.mpr (.inl hx))
    have hhp : h ∈ s1.places := mem_places.mpr (.inl hh)
    exact hbes h hh x hx ((edfReadyOrder_modify _ (hpl x hxp) (hpl h hhp) (hne x hxp)
      (hne h hhp)).mp habo)

end

/-! ### Scheduling -/

theorem scheduleServer_spec (now : LtTime) (hinv : ServerInv s) {prev : TaskId}
    (hreal : (s.task prev).realtime = true) (hwait : prev ∉ s.dom.waiting) :
    ∃ s', s.npsfScheduleServer now prev = some s' ∧ Keeps s s' := by
  have hre : Keeps s s := ⟨hinv, fun _ _ _ hord => hord⟩
  unfold npsfScheduleServer
  simp only [hreal, Bool.true_and]
  cases hr : (s.task prev).running with
  | false =>
    -- a blocked task has no place, so it is not in charge
    have hhp : s.highestPrio ≠ some prev := fun h =>
      not_mem_places_of_not_running hinv hr (mem_places.mpr (.inl h))
    refine ⟨s, ?_, hre⟩
    simp [hhp]
  | true =>
    have hpla : prev ∈ s.places := (hinv.mem_iff prev).mpr ⟨hreal, hr⟩
    simp only [Bool.not_true, Bool.not_false, Bool.and_true, Bool.false_and,
      Bool.false_eq_true, if_false]
    split
    · have hdon : ∃ s', s.completePrev now prev = some s' ∧ Keeps s s' := by
        rcases mem_places.mp hpla with hh | hq
        · exact completePrev_highest now hinv hh
        refine completePrev_queued now hinv (fun hh => (hinv.highestPrio hh).1 hq) ?_
        exact (mem_queued.mp hq).resolve_right hwait
      obtain ⟨s', hs', hkee⟩ := hdon
      exact ⟨s', by simp [hs'], hkee⟩
    exact ⟨s, rfl, hre⟩

theorem ServerInv.step (hinv : ServerInv s) {op : ServerOp} (hl : s.Legal op) :
    ∃ s', s.exec op = some s' ∧ Keeps s s' := by
  cases op with
  | taskNew t params now => exact taskNew_spec now params hinv hl.1
  | taskWakeUp t now => exact taskWakeUp_spec now hinv hl.1 hl.2
  | taskBlock t now => exact taskBlock_spec now hinv hl.1 hl.2.2
  | taskExit t now => exact taskExit_spec now hinv hl.1 hl.2
  | releaseTimer i => exact releaseTimer_spec hinv hl
  | releaseJobs i now => exact releaseJobs_spec now hinv hl
  | scheduleServer prev now => exact scheduleServer_spec now hinv hl.1 hl.2
  | execute t delta =>
    exact ⟨_, rfl, keeps_modifyTask hinv t (RtTask.updateTime delta) (fun _ => rfl) (fun _ => rfl)⟩
  | completeJob t =>
    exact ⟨_, rfl, keeps_modifyTask hinv t (RtTask.setRtFlags .sleep) (fun _ => rfl) (fun _ => rfl)⟩

theorem serverInv_init {task : TaskTable} (h : ∀ t, (task t).realtime = false) (tick : Nat) :
    ServerInv (init task tick) where
  nodup := Multiset.nodup_zero
  mem_iff t := by simp [init, places, Heap.cached, queued, RtDomain.init,
    RtDomain.waiting, h t]
  inh t ht := by
    rw [show ((init task tick).task t).realtime = false from h t] at ht
    cases ht
  idle _ := rfl

end NpsfServer

open NpsfServer

theorem serverInv_of_run {task : TaskTable} (hsa : ∀ t, (task t).realtime = false) {tick : Nat}
    {ops : List ServerOp} {s : NpsfServer} (hr : Run ServerStep (init task tick) ops s) :
    ServerInv s := by
  refine hr.invariant (fun s op s' hinv hs => ?_) (serverInv_init hsa tick)
  obtain ⟨s1, hs1, hkee⟩ := hinv.step hs.1
  rw [hs.2, Option.some.injEq] at hs1
  subst hs1
  exact hkee.1

/-- A step after which the deadlines still lie in the window. -/
def WindowedStep (base : LtTime) (s : NpsfServer) (op : ServerOp) (s' : NpsfServer) : Prop :=
  ServerStep s op s' ∧ Within base s'

theorem orderInv_of_run {task : TaskTable} (hsa : ∀ t, (task t).realtime = false) {tick : Nat}
    {base : LtTime} {ops : List ServerOp} {s : NpsfServer}
    (hr : Run (WindowedStep base) (init task tick) ops s) : OrderInv s := by
  have hall : ServerInv s ∧ Within base s ∧ OrderInv s := by
    refine hr.invariant (I := fun s => ServerInv s ∧ Within base s ∧ OrderInv s) ?_ ?_
    · rintro s op s' ⟨hinv, hw, hord⟩ ⟨hs, hw'⟩
      obtain ⟨s1, hs1, hke⟩ := hinv.step hs.1
      rw [hs.2, Option.some.injEq] at hs1
      subst hs1
      exact ⟨hke.1, hw', hke.2 base hw hw' hord⟩
    refine ⟨serverInv_init hsa tick, fun t ht => ?_, Sorted.init _ _, ?_⟩
    · rw [show ((init task tick).task t).realtime = false from hsa t] at ht
      cases ht
    intro h hh
    cases hh
  exact hall.2.2

/-- After any sequence of the entry points the task in charge is not queued, the server is
    idle only when nothing is ready, and every runnable task that does not wait for its
    release is in charge or ready, once; every step a caller may take succeeds; and as long
    as the deadlines stay in one window no ready task beats the task in charge. -/
theorem npsf_server_invariant {task : TaskTable} (hstart : ∀ t, (task t).realtime = false)
    {tick : Nat} {ops : List ServerOp} {s : NpsfServer}
    (hrun : Run ServerStep (init task tick) ops s) :
    (∀ t, s.highestPrio = some t → s.dom.isQueued t = false) ∧
      (s.highestPrio = none → s.dom.readyQueue.elems = 0) ∧
      (∀ t, (s.task t).realtime = true → (s.task t).running = true → t ∉ s.dom.waiting →
        s.highestPrio = some t ∧ t ∉ s.dom.readyQueue.elems ∨
          s.highestPrio ≠ some t ∧ s.dom.readyQueue.elems.count t = 1) ∧
      (∀ op, s.Legal op → ∃ s', s.exec op = some s') ∧
      ∀ base, Run (WindowedStep base) (init task tick) ops s → ∀ h, s.highestPrio = some h →
        ∀ t ∈ s.dom.readyQueue.elems, edfHigherPrio s.task (some t) (some h) = false := by
  have hinv := serverInv_of_run hstart hrun
  refine ⟨fun t ht => decide_eq_false (hinv.highestPrio ht).1, hinv.idle, ?_, ?_, ?_⟩
  · intro t hreal hrunning hwait
    rcases mem_places.mp ((hinv.mem_iff t).mpr ⟨hreal, hrunning⟩) with hh | hq
    · exact .inl ⟨hh, fun hr => (hinv.highestPrio hh).1 (RtDomain.mem_queued.mpr (.inl hr))⟩
    refine .inr ⟨fun hh => (hinv.highestPrio hh).1 hq, ?_⟩
    exact Multiset.count_eq_one_of_mem hinv.nodup_ready
      ((RtDomain.mem_queued.mp hq).resolve_right hwait)
  · intro op hl
    obtain ⟨s', hs', _⟩ := hinv.step hl
    exact ⟨s', hs'⟩
  intro base hrun' h hh t ht
  exact Bool.eq_false_iff.mpr ((orderInv_of_run hstart hrun').best h hh t ht)

def noTasks : TaskTable := fun _ =>
  { RtTask.admitted { execCost := 0, period := 0, cpu := 0, budgetPolicy := .noEnforcement } with
    realtime := false }

/-- A task with the given period, new at time zero. -/
def newAtZero (t : TaskId) (period : LtTime) : ServerOp :=
  .taskNew t { execCost := 1, period := period, cpu := 0, budgetPolicy := .noEnforcement }
    { call := 0, requeued := 0, displaced := 0 }

/-- Two tasks in one window: the one with the later deadline stays in the queue. -/
theorem npsf_server_invariant_two_tasks :
    ∃ s, Run (WindowedStep 0) (init noTasks 1000000) [newAtZero 1 10, newAtZero 2 20] s ∧
      s.highestPrio = some 1 ∧ s.dom.isQueued 1 = false ∧
      edfHigherPrio s.task (some 2) (some 1) = false := by
  have hstart : ∀ t, (noTasks t).realtime = false := fun _ => rfl
  have hwin : ∃ s, Run (WindowedStep 0) (init noTasks 1000000) [newAtZero 1 10, newAtZero 2 20] s ∧
      s.highestPrio = some 1 ∧ 2 ∈ s.dom.readyQueue.elems := by
    refine ⟨_, .snoc (.snoc .nil ⟨⟨⟨rfl, by decide, by decide⟩, rfl⟩, ?_⟩)
      ⟨⟨⟨rfl, by decide, by decide⟩, rfl⟩, ?_⟩, rfl, by decide⟩
    · rintro (_ | _ | _ | t) ht
      · exact nomatch (show false = true from ht)
      · exact ⟨by decide, by decide⟩
      · exact ⟨by decide, by decide⟩
      · exact nomatch (show false = true from ht)
    rintro (_ | _ | t) ht
    · exact nomatch (show false = true from ht)
    · exact ⟨by decide, by decide⟩
    · exact nomatch (show false = true from ht)
  obtain ⟨s, hrunw, hhp, hr⟩ := hwin
  have hrun := hrunw.mono fun _ _ _ h => h.1
  have h := npsf_server_invariant hstart hrun
  exact ⟨s, hrunw, hhp, h.1 1 hhp, h.2.2.2.2 0 hrunw 1 hhp 2 hr⟩

/-- Two deadlines half the range apart: each task beats the other. -/
theorem npsf_server_beaten_by_ready_task :
    ∃ ops s, Run ServerStep (init noTasks 1000000) ops s ∧
      ∃ h t, s.highestPrio = some h ∧ t ∈ s.dom.readyQueue.elems ∧
        edfHigherPrio s.task (some t) (some h) = true := by
  refine ⟨[newAtZero 1 1, newAtZero 2 (BitVec.ofNat 64 (2 ^ 63 + 1))], _,
    .snoc (.snoc .nil ⟨⟨rfl, by decide, by decide⟩, rfl⟩)
      ⟨⟨rfl, by decide, by decide⟩, rfl⟩, 2, 1, rfl, by decide, rfl⟩

end Litmus.Npsf
