import Mathlib.Data.Fin.VecNotation
import Litmus.FmCustody

/-!
# EDF-fm loses and duplicates no task

Each entry point of the scheduler, with the lock dropped where `insert_task_in_remote_ready`
drops it, keeps every runnable task at one place.
-/

namespace Litmus.EdfFm

open BinomialForest Custody FmTask Runs Function Multiset
open Option (map_eq_some_iff bind_eq_some_iff)

namespace FmState

variable {n : Nat}

section

variable {H H' : Place n → Multiset TaskId} {st st' : FmState n} {c : Fin n} {t : TaskId}
  {p : FmTask}

/-! ### Scheduling -/

variable {now : LtTime}

theorem leaving_of_call (h : ∀ u, st.call c ≠ .unlocked u) : st.held (.leaving c) = 0 := by
  cases hca : st.call c with
  | idle => simp [held, hca]
  | unlocked u => exact absurd hca (h u)
  | inserted u => simp [held, hca]

theorem leaving_of_idle (h : st.call c = .idle) : st.held (.leaving c) = 0 :=
  leaving_of_call fun _ hu => Call.noConfusion (h.symm.trans hu)

theorem heldBut_of_empty (h : st.held (.slot c) = 0) (q : Place n) :
    st.heldBut c q = st.held q := by
  by_cases hq : q = .slot c
  · rw [hq, heldBut_self, h]
  exact heldBut_of_ne hq

theorem Core.added (h : Core H (· = t) st) {q : Place n} {c' : Fin n} (hl : st.Live t)
    (hadd : Added q t st st') (hq : q = .ready c' ∨ q = .release c')
    (hcpu : (st.task t).params.cpu.toNat = c'.val) (hher : H' q = t ::ₘ H q)
    (ho : ∀ r, r ≠ q → H' r = H r) : Core H' (fun _ => False) st' := by
  have hput : Core H' (fun _ => False) st := by
    apply h.putDown hl hher ho
    · intro c hc
      rcases hq with rfl | rfl <;> cases hc <;> exact hcpu
    rintro c rfl
    rcases hq with hq | hq <;> cases hq
  exact hput.same hadd.toSame (fun _ => rfl)

theorem Core.switch (h : Core (st.heldBut c) (· = t) st) (hca : st.call c = .idle)
    (hs : (st.dom c).scheduled = some t) (hl : st.Live t)
    (hloc : st.wrongCpu t = false → (st.task t).params.cpu.toNat = c.val)
    (hsw : st.switch now c t = some st') : FmInv st' := by
  obtain ⟨⟨st1, dropped⟩, hrq, heq⟩ := map_eq_some_iff.mp hsw
  rcases requeue_spec hrq hloc with
    ⟨rfl, hsa, hh⟩ | ⟨rfl, q, c', hq, hcpu, had⟩
  · -- the lock is dropped
    subst heq
    have hlea : st.heldBut c (.leaving c) = 0 := by
      rw [heldBut_of_ne (by simp), leaving_of_idle hca]
    have hput : Core (st1.setCall c (.unlocked t)).held (fun _ => False) st := by
      apply h.putDown (q := .leaving c) hl
      · rw [hlea]
        simp only [held, FmState.setCall, update_self]
        rfl
      · intro r hr
        cases r with
        | slot c' =>
          by_cases hc : c' = c
          · subst hc
            simp [held, FmState.setCall]
          have hne : (Place.slot c' : Place n) ≠ .slot c := fun heq => hc (by simpa using heq)
          rw [heldBut_of_ne hne, ← hh]
          simp [held, FmState.setCall, update_of_ne hc]
        | leaving c' =>
          have hc : c' ≠ c := fun heq => hr (heq ▸ rfl)
          rw [heldBut_of_ne (by simp), ← hh]
          simp [held, FmState.setCall, update_of_ne hc]
        | ready c' =>
          rw [heldBut_of_ne (by simp), ← hh]
          rfl
        | release c' =>
          rw [heldBut_of_ne (by simp), ← hh]
          rfl
        | waking =>
          rw [heldBut_of_ne (by simp), ← hh]
          rfl
      · intro c' hc'
        cases hc'
      · intro c' hc'
        cases hc'
    apply (hput.same hsa (fun _ => rfl)).setCall
    intro u hu
    rw [hsa.slots, hs] at hu
    cases hu
    refine .inl ?_
    rw [(fields_of_view (hsa.view t)).2.1]
    exact hl.2
  subst heq
  have hqs : ∀ r, q = r → r ≠ .slot c := by
    rintro r rfl
    rcases hq with rfl | rfl <;> simp
  have hddd : Core (st1.heldBut c) (fun _ => False) st1 := by
    apply h.added hl had hq hcpu
    · rw [heldBut_of_ne (hqs q rfl), heldBut_of_ne (hqs q rfl), had.here]
    intro r hr
    exact heldBut_congr (had.others r hr)
  apply hddd.takeNext
  rw [had.toSame.leaving, leaving_of_idle hca]

theorem rehomed_online {p' : FmTask} (h : Rehomed p p')
    (hon : p.params.cpu.toNat < n ∧ (p.isMigratTask = true → ∀ i, (p.cpus i).toNat < n)) :
    p'.params.cpu.toNat < n ∧ (p'.isMigratTask = true → ∀ i, (p'.cpus i).toNat < n) := by
  constructor
  · rcases h.cpu with hc | ⟨hmi, i, hc⟩
    · rw [hc]
      exact hon.1
    rw [hc]
    exact hon.2 hmi i
  intro hmi
  rw [isMigratTask, h.nrCpus] at hmi
  rw [h.cpus]
  exact hon.2 hmi

/-- A task that is not on the wrong CPU after it got a new job is at home on the CPU `c` it
    had before. -/
theorem rehomed_local {p' : FmTask} (h : Rehomed p p') (hc : p.params.cpu.toNat = c.val)
    (hher : p.isMigratTask = true → st.taskCpu t = c.val)
    (hri : (st.setTask t p').wrongCpu t = false) : p'.params.cpu.toNat = c.val := by
  unfold wrongCpu at hri
  rw [setTask_self] at hri
  have hmig : p'.isMigratTask = p.isMigratTask := by
    rw [isMigratTask, h.nrCpus]
    rfl
  cases hm : p.isMigratTask with
  | false =>
    rcases h.cpu with hs | ⟨hm', -⟩
    · rw [hs]
      exact hc
    cases hm.symm.trans hm'
  | true =>
    rw [hmig, hm, Bool.true_and, bne_eq_false_iff_eq] at hri
    rw [← hri]
    exact hher hm

theorem rehomed_complete {st1 : FmState n} (h : st.complete t = some st1) :
    ∃ p', Rehomed (st.task t) p' ∧ st1 = st.setTask t p' ∧
      (completes (st.task t) = false → p' = st.task t) := by
  unfold complete at h
  split at h
  · rename_i hdon
    obtain ⟨p', hp', rfl⟩ := map_eq_some_iff.mp h
    refine ⟨p', rehomed_jobCompletion hp', rfl, fun hn => ?_⟩
    exact nomatch (hdon.symm.trans hn)
  cases h
  refine ⟨st.task t, ⟨rfl, rfl, rfl, rfl, rfl, .inl rfl⟩, ?_, fun _ => rfl⟩
  simp [FmState.setTask]

theorem FmInv.scheduleTask {preempt : Bool} (h : FmInv st) (hca : st.call c = .idle)
    (hsl : (st.dom c).scheduled = some t) (hs : st.scheduleTask now c t preempt = some st') :
    FmInv st' := by
  have hm : t ∈ st.held (.slot c) := mem_slot.mpr ⟨hca, hsl⟩
  have hl : st.Live t := ((h.sound.live_iff t).mp ⟨_, hm⟩).2
  have hc := h.partition (p := .slot c) rfl hm
  unfold FmState.scheduleTask at hs
  dsimp only at hs
  rw [hl.2] at hs
  obtain ⟨st1, h1, hs⟩ := bind_eq_some_iff.mp hs
  obtain ⟨p', hp', rfl, hk⟩ := rehomed_complete h1
  split at hs
  · have hpic : Core (st.heldBut c) (· = t) (st.setTask t p') := by
      apply (h.pickUp hca hsl).setTask
      · intro _
        exact rehomed_online hp' (h.online t hl.1)
      intro hr
      rw [hp'.running] at hr
      exact nomatch (hr.symm.trans hl.2)
    have hpicked' : Core ((st.setTask t p').heldBut c) (· = t) (st.setTask t p') := by
      refine hpic.same (Same.refl _) fun q => ?_
      exact heldBut_congr (held_setTask t p' st q)
    refine hpicked'.switch hca hsl ?_ ?_ hs
    · rw [Live, setTask_self, hp'.realtime, hp'.running]
      exact hl
    intro hrig
    rw [setTask_self]
    exact rehomed_local hp' hc (h.here hm) hrig
  rename_i hst
  simp only [Bool.or_eq_true, not_or, Bool.not_eq_true] at hst
  cases hs
  have hp : p' = st.task t := hk hst.2
  have hsam : st.setTask t p' = st := by
    rw [hp]
    simp [FmState.setTask]
  rw [hsam]
  exact h.same (same_setFlags t .running st) (held_setFlags t .running st)

theorem FmInv.peek (h : FmInv st) (u : Option TaskId) :
    FmInv (st.setDomain c (edffmPreemptionNeeded st.task (st.dom c).domain u).2) := by
  obtain ⟨hr, hw⟩ := edffmPreemptionNeeded_contents st.task (st.dom c).domain u
  exact h.same (same_setDomain c _ st) (held_setDomain hr hw)

theorem FmInv.schedule {prev : TaskId} (h : FmInv st) (hca : st.call c = .idle)
    (hs : st.edffmSchedule now c prev = some st') : FmInv st' := by
  unfold edffmSchedule at hs
  have hpe := h.peek (c := c) (some prev)
  split at hs
  · rename_i hsl
    cases hs
    apply Core.takeNext
    · refine hpe.same (Same.refl _) (heldBut_of_empty ?_)
      rw [(same_setDomain c _ st).slot]
      simp only [held, hca, if_true, hsl]
      rfl
    exact leaving_of_idle hca
  rename_i u hsl
  split at hs
  · cases hs
  refine hpe.scheduleTask hca ?_ hs
  rw [setDomain_self]
  exact hsl

theorem scheduleTask_blocked {preempt : Bool} (hr : (st.task t).running = false)
    (hs : st.scheduleTask now c t preempt = some st') : st' = st.takeNext c := by
  have hdon : completes (st.task t) = false := by rw [completes, hr, Bool.and_false]
  unfold FmState.scheduleTask complete at hs
  dsimp only at hs
  rw [hr, hdon] at hs
  split at hs
  · cases hs
  simpa using hs.symm

theorem FmInv.block {resched : LtTime} (h : FmInv st) (hca : st.call c = .idle)
    (hx : st.exec (.block c resched) = some st') : FmInv st' := by
  obtain ⟨t, hsl, hx⟩ := bind_eq_some_iff.mp hx
  obtain ⟨st1, h1, hs⟩ := bind_eq_some_iff.mp hx
  have hm : t ∈ st.held (.slot c) := mem_slot.mpr ⟨hca, hsl⟩
  have hl : st.Live t := ((h.sound.live_iff t).mp ⟨_, hm⟩).2
  have hc := h.partition (p := .slot c) rfl hm
  have hnot : st.isQueued t = false := isQueued_eq_false (h.apart hm (by simp) (by simp))
  let p := (st.task t).modify (RtTask.setRunning false)
  have hst1' : st1 = st.setTask t p := by
    unfold edffmTaskBlock at h1
    have hq : (st.setTask t p).isQueued t = false := hnot
    have hrt : ((st.setTask t p).task t).realtime = true := by
      rw [setTask_self]
      exact hl.1
    rw [hq, hrt] at h1
    exact (Option.some.inj h1).symm
  subst hst1'
  have hgon : Core (st.heldBut c) (fun _ => False) (st.setTask t p) := by
    have hpic : Core (st.heldBut c) (· = t) (st.setTask t p) := by
      apply (h.pickUp hca hsl).setTask
      · exact fun _ => h.online t hl.1
      intro _ c' hc' hslot' heq
      have hcc : c' = c := Fin.ext (heq.symm.trans hc)
      exact hc' (hcc ▸ hca)
    apply hpic.letGo
    · rw [Live, setTask_self]
      exact fun hbot => Bool.noConfusion hbot.2
    intro _ hmi
    rw [setTask_self] at hmi ⊢
    exact (h.here hm hmi).trans hc.symm
  unfold edffmSchedule at hs
  split at hs
  · rename_i hn
    exact absurd (hsl.symm.trans hn) (Option.some_ne_none t)
  rename_i u hslot'
  have hu : u = t := Option.some.inj (hslot'.symm.trans hsl)
  subst hu
  split at hs
  · cases hs
  have hrun : (((st.setTask u p).setDomain c (edffmPreemptionNeeded (st.setTask u p).task
      ((st.setTask u p).dom c).domain (some u)).2).task u).running = false := by
    change ((st.setTask u p).task u).running = false
    rw [setTask_self]
    rfl
  rw [scheduleTask_blocked hrun hs]
  obtain ⟨hr, hw⟩ := edffmPreemptionNeeded_contents (st.setTask u p).task
    ((st.setTask u p).dom c).domain (some u)
  apply Core.takeNext
  · refine hgon.same (same_setDomain c _ _) fun q => ?_
    apply heldBut_congr
    rw [held_setDomain hr hw, held_setTask]
  exact leaving_of_idle hca

/-! ### The other steps -/

theorem FmInv.insertRemote (h : FmInv st) (hx : st.exec (.insertRemote c) = some st') :
    FmInv st' := by
  unfold exec at hx
  dsimp only at hx
  split at hx
  · rename_i t hca
    obtain ⟨st1, h1, rfl⟩ := map_eq_some_iff.mp hx
    obtain ⟨c', hcpu, had⟩ := insertTaskInRemoteReady_spec h1
    have hout : st.held (.leaving c) = {t} + (st1.setCall c (.inserted t)).held (.leaving c) := by
      simp [held, FmState.setCall, hca]
    have hin : (st1.setCall c (.inserted t)).held (.ready c') = st.held (.ready c') + {t} := by
      rw [add_comm, singleton_add, ← had.here]
      rfl
    have hmo : Core (st1.setCall c (.inserted t)).held (fun _ => False) st := by
      refine h.transfer (by simp) hout hin ?_ ?_ (by simp)
      · intro q hqa hqb
        rw [← had.others q hqb]
        cases q with
        | slot c'' =>
          by_cases hc : c'' = c
          · subst hc
            simp [held, FmState.setCall, had.toSame.call, hca]
          simp [held, FmState.setCall, update_of_ne hc]
        | leaving c'' =>
          have hc : c'' ≠ c := fun heq => hqa (heq ▸ rfl)
          simp [held, FmState.setCall, update_of_ne hc]
        | ready c'' => rfl
        | release c'' => rfl
        | waking => rfl
      intro c'' hc'' u hu
      cases hc''
      rw [mem_singleton.mp hu]
      exact hcpu
    apply (hmo.same had.toSame (fun _ => rfl)).setCall
    intro u _
    rw [had.toSame.call, hca]
    exact .inr Call.noConfusion
  cases hx

theorem FmInv.finishSchedule (h : FmInv st) (hx : st.exec (.finishSchedule c) = some st') :
    FmInv st' := by
  unfold exec at hx
  dsimp only at hx
  split at hx
  · rename_i t hca
    cases hx
    apply Core.takeNext
    · refine h.same (Same.refl _) (heldBut_of_empty ?_)
      simp [held, hca]
    apply leaving_of_call
    intro u hu
    exact Call.noConfusion (hca.symm.trans hu)
  cases hx

theorem FmInv.insertWoken (h : FmInv st) (hm : t ∈ st.waking)
    (hx : st.exec (.insertWoken t) = some st') : FmInv st' := by
  obtain ⟨c', hc, had⟩ := insertTaskInRemoteReady_spec hx
  have hout : st.held .waking = {t} + st'.held .waking := by
    rw [had.others .waking (by simp), singleton_add]
    exact (coe_eq_coe.mpr (List.perm_cons_erase hm))
  have hin : st'.held (.ready c') = st.held (.ready c') + {t} := by
    rw [add_comm, singleton_add, had.here]
    rfl
  have hmo : Core st'.held (fun _ => False) st := by
    refine h.transfer (by simp) hout hin ?_ ?_ (by simp)
    · intro q hqa hqb
      rw [had.others q hqb]
      cases q with
      | waking => exact absurd rfl hqa
      | _ => rfl
    intro c'' hc'' u hu
    cases hc''
    rw [mem_singleton.mp hu]
    exact hc
  exact hmo.same ⟨had.view, had.taskCpu, had.call, had.slots⟩ (fun _ => rfl)

theorem Core.requeueNew (h : Core st.held (· = t) st) (hl : st.Live t)
    (hloc : st.wrongCpu t = false → (st.task t).params.cpu.toNat = c.val)
    (hs : st.requeueNew now c t = some st') : FmInv st' := by
  obtain ⟨⟨st1, dropped⟩, hrq, heq⟩ := map_eq_some_iff.mp hs
  rcases requeue_spec hrq hloc with
    ⟨rfl, hsa, hh⟩ | ⟨rfl, q, c', hq, hc, had⟩
  · subst heq
    have hput : Core ({ st1 with waking := t :: st1.waking } : FmState n).held
        (fun _ => False) st := by
      apply h.putDown (q := .waking) hl
      · rw [← hh]
        rfl
      · intro r hr
        rw [← hh]
        cases r with
        | waking => exact absurd rfl hr
        | _ => rfl
      · intro c' hc'
        cases hc'
      · intro c' hc'
        cases hc'
    exact hput.same ⟨hsa.view, hsa.taskCpu, hsa.call, hsa.slots⟩ (fun _ => rfl)
  subst heq
  exact h.added hl had hq hc had.here had.others

theorem setTask_setTask (p q : FmTask) : (st.setTask t p).setTask t q = st.setTask t q := by
  simp [FmState.setTask]

theorem FmInv.wakeUp {requeued : LtTime} (h : FmInv st) (hrt : (st.task t).realtime = true)
    (hbl : (st.task t).running = false)
    (hx : st.exec (.taskWakeUp t now requeued) = some st') : FmInv st' := by
  have hn : ¬st.Live t := fun hl => nomatch (hbl.symm.trans hl.2)
  obtain ⟨c, hc, hx⟩ := bind_eq_some_iff.mp hx
  have hcp := cpu_of_domainOfTask hc
  split at hx
  · cases hx
  obtain ⟨p, hp, hx⟩ := bind_eq_some_iff.mp hx
  have hre := rehomed_wakeJob hp
  rw [setTask_self] at hcp hre
  rw [setTask_setTask] at hx
  have hl : (st.setTask t p).Live t := by
    rw [Live, setTask_self, hre.realtime, hre.running]
    exact ⟨hrt, rfl⟩
  have hcor : Core (st.setTask t p).held (· = t) (st.setTask t p) := by
    have hset : Core st.held (· = t) (st.setTask t p) := by
      apply (h.takeUp hn).setTask
      · intro _
        exact rehomed_online hre (h.online t hrt)
      intro hr
      rw [hre.running] at hr
      cases hr
    exact hset.same (Same.refl _) (held_setTask t p st)
  split at hx
  · refine hcor.requeueNew hl ?_ hx
    intro hrig
    rw [setTask_self]
    refine rehomed_local hre hcp (fun hmig => ?_) hrig
    exact (h.blocked t not_false hrt hbl hmig).trans hcp
  -- a blocked task is in no slot of its own CPU
  rename_i hs
  have hslot' : (st.dom c).scheduled = some t := not_not.mp hs
  exfalso
  by_cases hca : st.call c = .idle
  · have hm : t ∈ st.held (.slot c) := mem_slot.mpr ⟨hca, hslot'⟩
    exact hn ((h.sound.live_iff t).mp ⟨_, hm⟩).2
  exact h.stale hca hslot' hbl hcp

theorem Core.enterSlot (h : Core st.held (· = t) st) (hl : st.Live t)
    (hcpu : (st.task t).params.cpu.toNat = c.val) (htaskCpu : st.taskCpu t = c.val)
    (hca : st.call c = .idle) (hfr : (st.dom c).scheduled = none) :
    FmInv (st.setCpu c ⟨(st.dom c).domain, some t⟩) := by
  have hpu : Core (st.setCpu c ⟨(st.dom c).domain, some t⟩).held (fun _ => False) st := by
    apply h.putDown (q := .slot c) hl
    · simp [held, FmState.setCpu, hca, hfr, Heap.cached]
    · intro r hr
      cases r with
      | slot c' =>
        have hc : c' ≠ c := fun heq => hr (heq ▸ rfl)
        simp [held, FmState.setCpu, update_of_ne hc]
      | ready c' =>
        by_cases hc : c' = c
        · subst hc
          simp [held, FmState.setCpu]
        simp [held, FmState.setCpu, update_of_ne hc]
      | release c' =>
        by_cases hc : c' = c
        · subst hc
          simp [held, FmState.setCpu]
        simp [held, FmState.setCpu, update_of_ne hc]
      | leaving c' => rfl
      | waking => rfl
    · intro c' hc'
      cases hc'
      exact hcpu
    · intro c' hc'
      cases hc'
      exact htaskCpu
  constructor
  · exact hpu.sound
  · exact hpu.partition
  · exact hpu.here
  · exact hpu.blocked
  · exact hpu.online
  · intro c' u hne hs hrun
    have hc : c' ≠ c := by
      rintro rfl
      exact hne hca
    refine hpu.stale hne ?_ hrun
    exact (congrArg FmDomain.scheduled (update_of_ne hc _ _)).symm.trans hs

section

variable (h : FmInv st)
include h

theorem FmInv.taskNew {params : TaskParams} {cpus : Fin 2 → BitVec 32} {nrCpus : BitVec 32}
    {fraction : Fin 2 → Fin 2 → LtTime} {running : Bool} {requeued : LtTime}
    (hl : st.Legal (.taskNew t params cpus nrCpus fraction running now requeued))
    (hx : st.exec (.taskNew t params cpus nrCpus fraction running now requeued) = some st') :
    FmInv st' := by
  obtain ⟨hrt, -, -, honl, hcps, hidl⟩ := hl
  have hn : ¬st.Live t := fun hli => nomatch (hrt.symm.trans hli.1)
  let p := (admitted params cpus nrCpus fraction).edffmTaskNew now
  let st1 : FmState n := { st.setTask t p with taskCpu := update st.taskCpu t params.cpu.toNat }
  have hco : Core st1.held (· = t) st1 := by
    have hset : Core st.held (· = t) (st.setTask t p) := by
      apply (h.takeUp hn).setTask
      · intro _
        refine ⟨honl, fun hmig => hcps ?_⟩
        rintro rfl
        cases hmig
      intro hr
      cases hr
    refine (hset.setTaskCpu params.cpu.toNat).same (Same.refl _) fun q => ?_
    cases q <;> rfl
  have hta : st1.task t = p := update_self _ _ _
  have hli : st1.Live t := by
    rw [Live, hta]
    exact ⟨rfl, rfl⟩
  obtain ⟨c, hc, hx⟩ := bind_eq_some_iff.mp hx
  have had : ({ st.setTask t (admitted params cpus nrCpus fraction) with
      taskCpu := update st.taskCpu t params.cpu.toNat } : FmState n).task t =
        admitted params cpus nrCpus fraction := update_self _ _ _
  have hcp : params.cpu.toNat = c.val := by
    have hdo := cpu_of_domainOfTask hc
    rw [had] at hdo
    exact hdo
  have h1 : ({ st.setTask t (admitted params cpus nrCpus fraction) with
      taskCpu := update st.taskCpu t params.cpu.toNat } : FmState n).setTask t p =
        st1 := by
    simp [FmState.setTask, st1]
  dsimp only at hx
  rw [had, h1] at hx
  have hho : (st1.task t).params.cpu.toNat = c.val := by
    rw [hta]
    exact hcp
  split at hx
  · rename_i hrun
    split at hx
    · cases hx
    rename_i hfr
    cases hx
    apply hco.enterSlot hli hho
    · exact (update_self _ _ _).trans hcp
    · exact hidl hrun c hcp
    exact Option.not_isSome_iff_eq_none.mp hfr
  exact hco.requeueNew hli (fun _ => hho) hx

theorem FmInv.releaseTimer {i : Nat} (hx : st.releaseTimer c i = some st') : FmInv st' := by
  obtain ⟨edf, hedf, rfl⟩ := map_eq_some_iff.mp hx
  obtain ⟨hr, hw⟩ := RtDomain.onReleaseTimer_contents hedf
  exact h.same (same_setDomain c edf st) (held_setDomain (congrArg Heap.elems hr) hw)

theorem FmInv.releaseJobs {i : Nat} (hx : st.edffmReleaseJobs c i = some st') : FmInv st' := by
  obtain ⟨edf, hedf, rfl⟩ := map_eq_some_iff.mp hx
  obtain ⟨moved, hr, hw⟩ := RtDomain.mergeFired_contents hedf
  obtain ⟨hready', hwait'⟩ := edffmPreemptionNeeded_contents st.task edf (st.dom c).scheduled
  rw [← hready'] at hr
  rw [← hwait'] at hw
  generalize (edffmPreemptionNeeded st.task edf (st.dom c).scheduled).2 = edf' at hr hw
  have hou : st.held (.release c) = moved + (st.setDomain c edf').held (.release c) := by
    rw [held_release_setDomain]
    exact hw
  have hin : (st.setDomain c edf').held (.ready c) = st.held (.ready c) + moved := by
    rw [held_ready_setDomain]
    exact hr
  have hmo : Core (st.setDomain c edf').held (fun _ => False) st := by
    refine h.transfer (by simp) hou hin ?_ ?_ (by simp)
    · intro q hre hrdy
      exact held_setDomain_of_ne hrdy hre
    intro c' hc' u hu
    cases hc'
    apply h.partition (p := .release c) rfl
    rw [hou]
    exact mem_add.mpr (.inl hu)
  exact hmo.same (same_setDomain c edf' st) (fun _ => rfl)

theorem FmInv.setJob (hp : p.view = (st.task t).view) : FmInv (st.setTask t p) := by
  refine h.same ⟨fun u => ?_, rfl, rfl, fun _ => rfl⟩ (held_setTask t p st)
  by_cases hu : u = t
  · subst hu
    rw [setTask_self]
    exact hp
  rw [setTask_of_ne hu]

theorem FmInv.step {op : FmOp n} (hs : FmStep st op st') : FmInv st' := by
  obtain ⟨hl, hx⟩ := hs
  cases op with
  | schedule c prev now => exact h.schedule hl hx
  | insertRemote c => exact h.insertRemote hx
  | finishSchedule c => exact h.finishSchedule hx
  | block c resched => exact h.block hl hx
  | taskWakeUp t now requeued => exact h.wakeUp hl.1 hl.2 hx
  | insertWoken t => exact h.insertWoken hl hx
  | taskNew t params cpus nrCpus fraction running now requeued => exact h.taskNew hl hx
  | releaseTimer c i => exact h.releaseTimer hx
  | releaseJobs c i => exact h.releaseJobs hx
  | releaseAt t start =>
    cases hx
    exact h.setJob rfl
  | execute c delta =>
    obtain ⟨t, -, rfl⟩ := map_eq_some_iff.mp hx
    exact h.setJob rfl
  | completeJob c =>
    obtain ⟨t, -, rfl⟩ := map_eq_some_iff.mp hx
    exact h.setJob rfl

/-! ### Runs -/

theorem FmInv.insertTaskInRemoteReady_isSome {q : Place n} (hq : q.cpu = none)
    (ht : t ∈ st.held q) : (st.insertTaskInRemoteReady t).isSome = true := by
  have hl : st.Live t := ((h.sound.live_iff t).mp ⟨q, ht⟩).2
  have hon := (h.online t hl.1).1
  have hno : ∀ c, t ∉ (st.dom c).domain.queued := by
    apply h.apart ht
    · rintro c rfl
      cases hq
    rintro c rfl
    cases hq
  have hfr : st.isQueued t = false := isQueued_eq_false hno
  have hdom : st.domainOfTask t = some ⟨(st.task t).params.cpu.toNat, hon⟩ := dif_pos hon
  have hloc : (st.dom ⟨(st.task t).params.cpu.toNat, hon⟩).domain.isQueued t = false := by
    rw [Bool.eq_false_iff]
    intro hqu
    exact hno _ (RtDomain.isQueued_iff.mp hqu)
  simp [insertTaskInRemoteReady, hdom, FmState.addReady, hfr, RtDomain.addReady, hloc]

end

end

theorem fmInv_init {task : TaskId → FmTask} (tickPeriod : Nat)
    (hn : ∀ t, (task t).realtime = false) : FmInv (init task tickPeriod : FmState n) := by
  have hem : ∀ q, (init task tickPeriod : FmState n).held q = 0 := by
    intro q
    cases q <;> rfl
  have hrt : ∀ t, ((init task tickPeriod : FmState n).task t).realtime ≠ true := by
    intro t ht
    exact nomatch ((hn t).symm.trans ht)
  constructor
  · constructor
    · intro q
      rw [hem]
      exact nodup_zero
    · intro q r u hu
      rw [hem] at hu
      exact absurd hu (notMem_zero u)
    intro u
    constructor
    · rintro ⟨q, hu⟩
      rw [hem] at hu
      exact absurd hu (notMem_zero u)
    rintro ⟨-, hl⟩
    exact absurd hl.1 (hrt u)
  · intro q c u _ hu
    rw [hem] at hu
    exact absurd hu (notMem_zero u)
  · intro c u hu
    exact absurd hu (notMem_zero u)
  · intro u _ hu
    exact absurd hu (hrt u)
  · intro u hu
    exact absurd hu (hrt u)
  · intro c u hcal
    exact absurd rfl hcal

theorem fmInv_of_run {task : TaskId → FmTask} {tickPeriod : Nat}
    (hn : ∀ t, (task t).realtime = false) {ops : List (FmOp n)} {st : FmState n}
    (hr : Run FmStep (init task tickPeriod) ops st) : FmInv st :=
  hr.invariant (fun _ _ _ hI hs => hI.step hs) (fmInv_init tickPeriod hn)

end FmState

open FmState

/-- Along every interleaving, each runnable real-time task is at exactly one place and there
    once, a blocked one is at none, the queues of a CPU hold only tasks of its partition, and
    a task in transit can be inserted into the queue it is on its way to. -/
theorem edffm_no_task_lost {n : Nat} {task : TaskId → FmTask} {tickPeriod : Nat}
    (hnone : ∀ t, (task t).realtime = false) {ops : List (FmOp n)} {st : FmState n}
    (hrun : Run FmStep (init task tickPeriod) ops st) (t : TaskId)
    (hreal : (st.task t).realtime = true) :
    ((st.task t).running = true → ∃ p, (st.held p).count t = 1 ∧
        ∀ q, q ≠ p → (st.held q).count t = 0) ∧
      ((st.task t).running = false → ∀ p, (st.held p).count t = 0) ∧
      (∀ c, t ∈ (st.dom c).domain.queued → (st.task t).params.cpu.toNat = c.val) ∧
      ∀ p : Place n, p.cpu = none → t ∈ st.held p →
        (st.insertTaskInRemoteReady t).isSome = true := by
  have hI := fmInv_of_run hnone hrun
  refine ⟨fun hrunning => ?_, fun hblocked p => ?_, fun c hc => ?_, fun p hp ht => ?_⟩
  · obtain ⟨p, hp, hunique⟩ := hI.sound.existsUnique ⟨not_false, hreal, hrunning⟩
    refine ⟨p, count_eq_one_of_mem (hI.sound.nodup p) hp, fun q hq => ?_⟩
    exact count_eq_zero_of_notMem fun ht => hq (hunique q ht)
  · apply count_eq_zero_of_notMem
    apply hI.sound.not_mem
    rintro ⟨-, -, hrunning⟩
    exact nomatch (hblocked.symm.trans hrunning)
  · rcases RtDomain.mem_queued.mp hc with hr | hw
    · exact hI.partition (p := .ready c) rfl hr
    · exact hI.partition (p := .release c) rfl hw
  · exact hI.insertTaskInRemoteReady_isSome hp ht

def noFmTasks : TaskId → FmTask := fun _ =>
  { admitted { cpu := 0, period := 10, execCost := 5, budgetPolicy := .noEnforcement }
      (fun _ => 0) 0 (fun _ _ => 0) with realtime := false }

/-- A job of a migratory task is over after its next release, and the task is on its way to
    the other CPU. -/
theorem edffm_no_task_lost_in_transit :
    ∃ st : FmState 2, Run FmStep (init noFmTasks 1000000)
      [.taskNew 1 { cpu := 0, period := 10, execCost := 5, budgetPolicy := .noEnforcement }
          ![0, 1] 2 ![![1, 1], ![2, 2]] false 0 0,
        .schedule 0 0 0, .completeJob 0, .schedule 0 1 20] st ∧
      st.call 0 = .unlocked 1 ∧
      ∃ p, (st.held p).count 1 = 1 ∧ ∀ q, q ≠ p → (st.held q).count 1 = 0 := by
  obtain ⟨st, hrun, hcall, hrt, hrunning⟩ : ∃ st : FmState 2, Run FmStep (init noFmTasks 1000000)
        [.taskNew 1 { cpu := 0, period := 10, execCost := 5, budgetPolicy := .noEnforcement }
            ![0, 1] 2 ![![1, 1], ![2, 2]] false 0 0,
          .schedule 0 0 0, .completeJob 0, .schedule 0 1 20] st ∧
        st.call 0 = .unlocked 1 ∧ (st.task 1).realtime = true ∧
        (st.task 1).running = true :=
    ⟨_, .cons ⟨⟨rfl, by decide, by decide, by decide, by decide, by decide⟩, rfl⟩
      (.cons ⟨rfl, rfl⟩ (.cons ⟨rfl, rfl⟩ (.cons ⟨rfl, rfl⟩ .nil))),
      rfl, rfl, rfl⟩
  exact ⟨st, hrun, hcall, (edffm_no_task_lost (fun _ => rfl) hrun 1 hrt).1 hrunning⟩

end Litmus.EdfFm
