import Litmus.GsnTasks

/-!
# Completion requests of global EDF

A task asks for the completion of its job by setting `RT_F_SLEEP`, and then enters the
scheduler.  A job that arrives in between may unlink the task.  `gsnedf_schedule` then does not
complete its job, and linking the task again clears the flag.
-/

namespace Litmus.GsnEdf

open BinomialForest Runs Function
open Option (map_eq_some_iff bind_eq_some_iff)

namespace Cluster

variable {n : Nat}

/-! ### What is left of a task by the steps of the others -/

/-- The fields that decide a completion, other than the flags, the budget and the link. -/
def jobView (p : GsnTask n) : Bool × Bool × Bool × BitVec 32 :=
  (p.realtime, p.running, p.np, p.job.jobNo)

def Linked (t : TaskId) (st : Cluster n) : Prop := ∃ c, st.links c = some t

/-- The job of `t` is the same.  If `t` is linked, it has either been linked anew, which has
    set its flags, or it was linked before and has the same flags. -/
structure Apart (t : TaskId) (st st' : Cluster n) : Prop where
  view : jobView (st'.task t) = jobView (st.task t)
  flags : st'.Linked t → (st'.task t).flags = .running ∨
    st.Linked t ∧ (st'.task t).flags = (st.task t).flags

section

variable {st st' : Cluster n} {c : Fin n} {t u : TaskId} {now : LtTime} {clock : List LtTime}

theorem Apart.trans {st1 st2 st3 : Cluster n} (h : Apart t st1 st2) (h' : Apart t st2 st3) :
    Apart t st1 st3 := by
  refine ⟨h'.view.trans h.view, fun hlk => ?_⟩
  rcases h'.flags hlk with hse | ⟨hlinked2, hs⟩
  · exact .inl hse
  rw [hs]
  exact h.flags hlinked2

theorem Apart.jobNo (h : Apart t st st') :
    (st'.task t).job.jobNo = (st.task t).job.jobNo := congrArg (fun v => v.2.2.2) h.view

/-- The fields of a task that the steps of the others leave alone, unless they link it. -/
def mark (p : GsnTask n) : (Bool × Bool × Bool × BitVec 32) × RtFlag := (jobView p, p.flags)

theorem Apart.of_mark (hma : mark (st'.task t) = mark (st.task t))
    (hlk : st'.Linked t → st.Linked t) : Apart t st st' :=
  ⟨congrArg Prod.fst hma, fun h => .inr ⟨hlk h, congrArg Prod.snd hma⟩⟩

theorem Apart.refl (t : TaskId) (st : Cluster n) : Apart t st st := .of_mark rfl id

theorem mark_setTask {p : GsnTask n} (hp : t = u → mark p = mark (st.task t)) :
    mark ((st.setTask u p).task t) = mark (st.task t) := by
  by_cases htu : t = u
  · subst htu
    rw [setTask_self]
    exact hp rfl
  rw [setTask_of_ne htu]

theorem Apart.setTask {p : GsnTask n} (hp : t = u → mark p = mark (st.task t)) :
    Apart t st (st.setTask u p) := .of_mark (mark_setTask hp) id

theorem Apart.modify (htu : t ≠ u) (f : RtTask → RtTask) : Apart t st (st.modify u f) :=
  .setTask fun heq => absurd heq htu

theorem Apart.setDomain (dom : RtDomain) : Apart t st (st.setDomain dom) := .of_mark rfl id

/-! ### Links -/

theorem mark_detach (c : Fin n) (st : Cluster n) :
    mark ((st.detach c).task t) = mark (st.task t) := by
  unfold detach
  split
  · exact mark_setTask fun heq => by rw [heq]; rfl
  rfl

theorem mark_attach (c : Fin n) (o : Option TaskId) (st : Cluster n) :
    mark ((st.attach c o).task t) = mark (st.task t) := by
  rcases o with _ | u
  · rfl
  exact mark_setTask fun heq => by rw [heq]; rfl

theorem mark_linkTask (h : st.linkTask u c = some st') : mark (st'.task t) = mark (st.task t) := by
  unfold linkTask at h
  split at h
  · cases h
    exact mark_attach c (some u) st
  split at h
  · cases h
  split at h
  · cases h
    exact (mark_attach _ _ _).trans (mark_attach _ _ _)
  cases h
  exact mark_attach c (some u) st

theorem mark_linkTaskToCpu (h : st.linkTaskToCpu (some u) c = some st') :
    (t ≠ u → mark (st'.task t) = mark (st.task t)) ∧
      (t = u → mark (st'.task t) = (jobView (st.task t), .running)) := by
  unfold linkTaskToCpu at h
  dsimp only at h
  split at h
  · cases h
  have hde := mark_detach (t := t) c st
  constructor
  · intro htu
    rw [mark_linkTask h, ← hde]
    exact mark_setTask fun heq => absurd heq htu
  rintro rfl
  have hvie : jobView ((st.detach c).task t) = jobView (st.task t) := congrArg Prod.fst hde
  rw [mark_linkTask h, modify, setTask_self, ← hvie]
  rfl

theorem linked_update {links : Fin n → Option TaskId} {o : Option TaskId} {d : Fin n}
    (h : update links c o d = some t) : o = some t ∨ links d = some t := by
  by_cases hd : d = c
  · subst hd
    rw [update_self] at h
    exact .inl h
  rw [update_of_ne hd] at h
  exact .inr h

theorem Apart.linkTaskToCpu {o : Option TaskId} (h : st.linkTaskToCpu o c = some st') :
    Apart t st st' := by
  rcases o with _ | u
  · have hln := (linkTaskToCpu_none h).2.1
    cases h
    refine .of_mark ((mark_attach c none _).trans (mark_detach c st)) ?_
    rintro ⟨d, hd⟩
    rw [hln] at hd
    rcases linked_update hd with hn | hd
    · cases hn
    exact ⟨d, hd⟩
  obtain ⟨ho, hse⟩ := mark_linkTaskToCpu (t := t) h
  by_cases htu : t = u
  · have hma := hse htu
    exact ⟨congrArg Prod.fst hma, fun _ => .inl (congrArg Prod.snd hma)⟩
  refine .of_mark (ho htu) ?_
  have hne : some u ≠ some t := fun heq => htu (Option.some.inj heq).symm
  rintro ⟨d, hd⟩
  rcases (linkTaskToCpu_some h).2 with ⟨hln, _⟩ | ⟨s, _, hln, _⟩
  · rw [hln] at hd
    exact ⟨d, (linked_update hd).resolve_left hne⟩
  -- the task that was linked to `s` may be `t`
  rw [hln] at hd
  rcases linked_update hd with hs | hd
  · exact ⟨s, hs⟩
  exact ⟨d, (linked_update hd).resolve_left hne⟩

theorem Apart.unlink (h : st.unlink u = some st') : Apart t st st' := by
  unfold Cluster.unlink at h
  split at h
  · have hse : Apart t st (st.setLinkedOn u none) := .setTask fun heq => by rw [heq]; rfl
    exact hse.trans (.linkTaskToCpu h)
  split at h
  · obtain ⟨dom, _, rfl⟩ := map_eq_some_iff.mp h
    exact .setDomain dom
  cases h
  exact .refl t st

/-! ### Queues -/

theorem Apart.requeue (h : st.requeue now u = some st') : Apart t st st' := by
  unfold Cluster.requeue at h
  split at h
  · cases h
  split at h
  · obtain ⟨dom, _, rfl⟩ := map_eq_some_iff.mp h
    exact .setDomain dom
  cases h
  exact .setDomain _

theorem Apart.preemptionNeeded {needed : Bool} (h : st.preemptionNeeded = some (c, needed, st')) :
    Apart t st st' := by
  obtain ⟨⟨last, st1⟩, hla, heq⟩ := map_eq_some_iff.mp h
  obtain ⟨d, _, hd⟩ := map_eq_some_iff.mp hla
  cases hd
  cases heq
  exact .of_mark rfl id

theorem Apart.preemptLinked (h : st.preemptLinked now c = some st') : Apart t st st' := by
  obtain ⟨u, _, h⟩ := bind_eq_some_iff.mp h
  obtain ⟨st1, h1, hlin⟩ := bind_eq_some_iff.mp h
  have htak : Apart t st (st.setDomain (st.domain.takeReady st.order).2) := .setDomain _
  refine (htak.trans ?_).trans (.linkTaskToCpu hlin)
  split at h1
  · exact .requeue h1
  cases h1
  exact .refl t _

theorem Apart.checkForPreemptions (h : checkForPreemptions clock st = some st') :
    Apart t st st' := by
  induction clock generalizing st with
  | nil =>
    obtain ⟨⟨last, needed, st1⟩, h1, h⟩ := bind_eq_some_iff.mp h
    dsimp only at h
    split at h
    · cases h
    cases h
    exact .preemptionNeeded h1
  | cons now clock ih =>
    obtain ⟨⟨last, needed, st1⟩, h1, h⟩ := bind_eq_some_iff.mp h
    have hne : Apart t st st1 := .preemptionNeeded h1
    dsimp only at h
    split at h
    · obtain ⟨st2, hst2, h⟩ := bind_eq_some_iff.mp h
      exact (hne.trans (.preemptLinked hst2)).trans (ih h)
    cases h
    exact hne

theorem Apart.jobArrival (h : st.jobArrival now clock u = some st') : Apart t st st' := by
  obtain ⟨st1, h1, h⟩ := bind_eq_some_iff.mp h
  exact (Apart.requeue h1).trans (.checkForPreemptions h)

/-! ### Scheduling -/

theorem Apart.completed (h : st.jobCompletion now clock u = some st') :
    Apart t (st.modify u fun p => (p.setRtFlags .sleep).prepareForNextPeriod) st' := by
  obtain ⟨st1, h1, h⟩ := bind_eq_some_iff.mp h
  refine (Apart.unlink h1).trans ?_
  split at h
  · exact .jobArrival h
  cases h
  exact .refl t _

theorem Apart.linkPending (h : st.linkPending c = some st') : Apart t st st' := by
  unfold Cluster.linkPending at h
  split at h
  · exact (Apart.setDomain _).trans (.linkTaskToCpu h)
  cases h
  exact .refl t st

theorem Apart.setScheduledOn (s : Option (Fin n)) : Apart t st (st.setScheduledOn u s) :=
  .setTask fun heq => by rw [heq]; rfl

theorem Apart.setSwitching (s : Option (Option TaskId)) : Apart t st (st.setSwitching c s) :=
  .of_mark rfl fun ⟨d, hd⟩ => ⟨d, by rwa [links_setSwitching] at hd⟩

theorem Apart.setScheduled (s : Option TaskId) : Apart t st (st.setScheduled c s) :=
  .of_mark rfl fun ⟨d, hd⟩ => ⟨d, by rwa [links_setScheduled] at hd⟩

theorem Apart.decideNext (stays : Bool) : Apart t st (st.decideNext c stays) := by
  simp only [Cluster.decideNext]
  split
  · refine Apart.trans ?_ (.setSwitching _)
    rcases (st.cpu c).linked with _ | next <;> rcases (st.cpu c).scheduled with _ | prev
    · exact .refl t st
    · exact .setScheduledOn none
    · exact .setScheduledOn (some c)
    · exact (Apart.setScheduledOn (some c)).trans (.setScheduledOn none)
  exact .setSwitching _

theorem Apart.settle (htu : t ≠ u) (h : st.settle now clock c u = some st') : Apart t st st' := by
  obtain ⟨st1, h1, h⟩ := bind_eq_some_iff.mp h
  obtain ⟨st2, hst2, h⟩ := bind_eq_some_iff.mp h
  have hblo : Apart t st st1 := by
    split at h1
    · exact .unlink h1
    cases h1
    exact .refl t st
  have hnp : Apart t st1 st2 := by
    split at hst2
    · exact .unlink hst2
    cases hst2
    exact .refl t st1
  refine (hblo.trans hnp).trans ?_
  split at h
  · exact (Apart.modify htu _).trans (.completed h)
  cases h
  exact .refl t _

/-- `gsnedf_schedule` takes its completion branch for the task `t`, which does not block. -/
def completes (c : Fin n) (t : TaskId) (st : Cluster n) : Bool :=
  !(st.task t).np && (outOfTime (st.task t) || sleeps (st.task t)) && decide (st.links c = some t)

theorem settle_jobNo (hr : (st.task t).running = true) (h : st.settle now clock c t = some st') :
    (st'.task t).job.jobNo = if st.completes c t then (st.task t).job.jobNo + 1
      else (st.task t).job.jobNo := by
  have hcon : (!(st.task t).np && (outOfTime (st.task t) || sleeps (st.task t)) && !false &&
      !decide ((st.cpu c).linked ≠ some t)) = st.completes c t := by
    by_cases hlin : (st.cpu c).linked = some t <;> simp [completes, links, hlin]
  unfold settle at h
  simp only [hr, Bool.not_true, Bool.false_eq_true, if_false, Option.bind_some, hcon] at h
  obtain ⟨st1, h1, h⟩ := bind_eq_some_iff.mp h
  have hnp : Apart t st st1 := by
    split at h1
    · exact .unlink h1
    cases h1
    exact .refl t st
  by_cases hc : st.completes c t = true
  · rw [if_pos hc] at h ⊢
    rw [(Apart.completed h).jobNo, modify, setTask_self, ← hnp.jobNo]
    rfl
  rw [if_neg hc] at h ⊢
  cases h
  exact hnp.jobNo

theorem Apart.schedule {prev : TaskId} (hpre : t ≠ prev)
    (h : st.gsnedfSchedule now clock c prev = some st') : Apart t st st' := by
  unfold gsnedfSchedule at h
  split at h
  · split at h
    · cases h
    obtain ⟨st1, h1, rfl⟩ := map_eq_some_iff.mp h
    exact (Apart.linkPending h1).trans (.decideNext false)
  split at h
  · cases h
  rename_i u _ hu
  simp only [ne_eq, Bool.or_eq_true, decide_eq_true_eq, not_or, Decidable.not_not] at hu
  obtain ⟨st1, h1, rfl⟩ := map_eq_some_iff.mp h
  obtain ⟨st2, hst2, h1⟩ := bind_eq_some_iff.mp h1
  have hset : Apart t st st2 := .settle (hu.1 ▸ hpre) hst2
  exact (hset.trans (.linkPending h1)).trans (.decideNext _)

theorem schedule_jobNo (hrt : (st.task t).realtime = true) (hr : (st.task t).running = true)
    (h : st.gsnedfSchedule now clock c t = some st') :
    (st'.task t).job.jobNo = if st.completes c t then (st.task t).job.jobNo + 1
      else (st.task t).job.jobNo := by
  unfold gsnedfSchedule at h
  split at h
  · rw [if_pos hrt] at h
    cases h
  split at h
  · cases h
  rename_i u _ hu
  simp only [ne_eq, Bool.or_eq_true, decide_eq_true_eq, not_or, Decidable.not_not] at hu
  obtain ⟨rfl, _⟩ := hu
  obtain ⟨st1, h1, rfl⟩ := map_eq_some_iff.mp h
  obtain ⟨st2, hst2, h1⟩ := bind_eq_some_iff.mp h1
  rw [(Apart.decideNext _).jobNo, (Apart.linkPending h1).jobNo]
  exact settle_jobNo hr hst2

/-! ### The other entry points -/

theorem Apart.finishSwitch (h : st.finishSwitch c = some st') : Apart t st st' := by
  obtain ⟨next, _, rfl⟩ := map_eq_some_iff.mp h
  exact (Apart.setScheduled _).trans (.setSwitching none)

theorem Apart.taskNew {requeued : LtTime} {running : Option (Fin n)} (htu : t ≠ u)
    (h : st.taskNew now requeued clock u running = some st') : Apart t st st' := by
  obtain ⟨st1, h1, h⟩ := bind_eq_some_iff.mp h
  have hlin : Apart t st1 (st1.setLinkedOn u none) := .setTask fun heq => absurd heq htu
  refine Apart.trans ?_ (hlin.trans (.jobArrival h))
  refine (Apart.modify htu (RtTask.releaseAt now)).trans ?_
  split at h1
  · split at h1
    · cases h1
    cases h1
    exact (Apart.setScheduled _).trans (.setScheduledOn _)
  cases h1
  exact .setScheduledOn none

theorem Apart.taskExit (h : st.taskExit u = some st') : Apart t st st' := by
  obtain ⟨st1, h1, rfl⟩ := map_eq_some_iff.mp h
  refine (Apart.unlink h1).trans ?_
  split
  · exact (Apart.setScheduled none).trans (.setScheduledOn none)
  exact .refl t st1

/-- The step is not one of `t`'s own, other than executing. -/
def Foreign (t : TaskId) (st : Cluster n) : GsnOp n → Prop
  | .schedule _ prev _ _ => t ≠ prev
  | .taskBlock u => t ≠ u
  | .taskWakeUp u _ _ _ _ _ => t ≠ u
  | .taskNew u _ _ _ _ _ => t ≠ u
  | .taskExit u => t ≠ u
  | .releaseAt u _ => t ≠ u
  | .setNp c _ => (st.cpu c).scheduled ≠ some t
  | .completeJob c => (st.cpu c).scheduled ≠ some t
  | _ => True

instance (st : Cluster n) (op : GsnOp n) : Decidable (st.Legal op) := by
  rcases op <;> unfold Legal <;> infer_instance

instance (t : TaskId) (st : Cluster n) (op : GsnOp n) : Decidable (st.Foreign t op) := by
  rcases op <;> unfold Foreign <;> infer_instance

def ForeignStep (t : TaskId) (st : Cluster n) (op : GsnOp n) (st' : Cluster n) : Prop :=
  GsnStep st op st' ∧ st.Foreign t op

theorem foreign_step {op : GsnOp n} (h : ForeignStep t st op st') : Apart t st st' := by
  obtain ⟨⟨_, hx⟩, hfg⟩ := h
  rcases op with ⟨c, prev, now, clock⟩ | c | u | ⟨u, exitSem, timeSlice, now, requeued, clock⟩ |
    ⟨u, params, running, now, requeued, clock⟩ | u | i | ⟨i, clock⟩ | ⟨u, start⟩ | ⟨c, np⟩ |
    ⟨c, delta⟩ | c
  · exact .schedule hfg hx
  · exact .finishSwitch hx
  · exact (Apart.modify hfg _).trans (.unlink hx)
  · exact ((Apart.modify hfg _).trans (.modify hfg _)).trans (.jobArrival hx)
  · exact (Apart.setTask fun heq => absurd heq hfg).trans (.taskNew hfg hx)
  · obtain ⟨st1, h1, rfl⟩ := map_eq_some_iff.mp hx
    exact (Apart.taskExit h1).trans (.modify hfg _)
  · obtain ⟨dom, _, rfl⟩ := map_eq_some_iff.mp hx
    exact .setDomain dom
  · obtain ⟨dom, _, hx⟩ := bind_eq_some_iff.mp hx
    exact (Apart.setDomain dom).trans (.checkForPreemptions hx)
  · cases hx
    exact .modify hfg _
  · obtain ⟨u, hu, rfl⟩ := map_eq_some_iff.mp hx
    exact .setTask fun heq => absurd (heq ▸ hu) hfg
  · obtain ⟨u, _, rfl⟩ := map_eq_some_iff.mp hx
    exact .setTask fun heq => by rw [heq]; rfl
  · obtain ⟨u, hu, rfl⟩ := map_eq_some_iff.mp hx
    exact .modify (fun heq : t = u => hfg (heq ▸ hu)) _

/-! ### Runs of the others -/

/-- The request to complete the job of `t` stands. -/
def Pending (t : TaskId) (st : Cluster n) : Prop :=
  st.Linked t ∧ (st.task t).flags = .sleep

def PendingStep (t : TaskId) (st : Cluster n) (op : GsnOp n) (st' : Cluster n) : Prop :=
  ForeignStep t st op st' ∧ st'.Pending t

theorem foreign_run_view {ops : List (GsnOp n)} (h : Run (ForeignStep t) st ops st') :
    jobView (st'.task t) = jobView (st.task t) := by
  induction h with
  | nil => rfl
  | snoc _ hla ih => exact (foreign_step hla).view.trans ih

theorem pending_iff_run {ops : List (GsnOp n)} (h : Run (ForeignStep t) st ops st') :
    st'.Pending t ↔ st.Pending t ∧ Run (PendingStep t) st ops st' := by
  induction h with
  | nil => exact ⟨fun hp => ⟨hp, .nil⟩, fun hp => hp.1⟩
  | @snoc st1 st2 ops op hini hla ih =>
    constructor
    · intro hp
      have hpre : st1.Pending t := by
        rcases (foreign_step hla).flags hp.1 with hse | ⟨hlk, hsm⟩
        · cases hp.2.symm.trans hse
        exact ⟨hlk, hsm.symm.trans hp.2⟩
      obtain ⟨hfi, hr⟩ := ih.mp hpre
      exact ⟨hfi, .snoc hr ⟨hla, hp⟩⟩
    rintro ⟨_, hr⟩
    obtain ⟨_, _, hs⟩ := hr.of_snoc
    exact hs.2

end

end Cluster

open Cluster

/-- A task in `complete_job` gets its job completed by the time the scheduler returns to it,
    exactly if it is linked to its CPU and preemptable when it enters the scheduler, and either
    has been linked, with its flag set, at all times since it set the flag, or has used up an
    enforced budget. -/
theorem gsnedf_job_completed_iff {n : Nat} {t : TaskId} {c : Fin n}
    {st₀ st₁ st₂ st₃ st₄ : Cluster n} {between after : List (GsnOp n)} {now : LtTime}
    {clock : List LtTime} (hreal : (st₀.task t).realtime = true)
    (hrunning : (st₀.task t).running = true) (hslot : (st₀.cpu c).scheduled = some t)
    (hflag : GsnStep st₀ (.completeJob c) st₁)
    (hbetween : Run (ForeignStep t) st₁ between st₂)
    (hschedule : GsnStep st₂ (.schedule c t now clock) st₃)
    (hafter : Run (ForeignStep t) st₃ after st₄) :
    (st₄.task t).job.jobNo = (st₀.task t).job.jobNo + 1 ↔
      st₂.links c = some t ∧ (st₂.task t).np = false ∧
        (st₁.Pending t ∧ Run (PendingStep t) st₁ between st₂ ∨ outOfTime (st₂.task t) = true) := by
  have hview₁ : jobView (st₁.task t) = jobView (st₀.task t) := by
    obtain ⟨u, hu, rfl⟩ := map_eq_some_iff.mp hflag.2
    obtain rfl : u = t := Option.some.inj (hu.symm.trans hslot)
    rw [Cluster.modify, setTask_self]
    rfl
  have hview₂ := (foreign_run_view hbetween).trans hview₁
  have hjob₂ : (st₂.task t).job.jobNo = (st₀.task t).job.jobNo := congrArg (fun v => v.2.2.2) hview₂
  have hjob₄ : (st₄.task t).job.jobNo = (st₃.task t).job.jobNo :=
    congrArg (fun v => v.2.2.2) (foreign_run_view hafter)
  have hreal₂ : (st₂.task t).realtime = true := (congrArg Prod.fst hview₂).trans hreal
  have hrun₂ : (st₂.task t).running = true := (congrArg (fun v => v.2.1) hview₂).trans hrunning
  have hcompletes : st₂.completes c t = true ↔ st₂.links c = some t ∧ (st₂.task t).np = false ∧
      (st₁.Pending t ∧ Run (PendingStep t) st₁ between st₂ ∨ outOfTime (st₂.task t) = true) := by
    rw [← pending_iff_run hbetween]
    simp only [completes, sleeps, Bool.and_eq_true, Bool.or_eq_true, Bool.not_eq_true',
      decide_eq_true_eq, beq_iff_eq]
    constructor
    · rintro ⟨⟨hnp, hout | hsleep⟩, hlink⟩
      · exact ⟨hlink, hnp, .inr hout⟩
      exact ⟨hlink, hnp, .inl ⟨⟨c, hlink⟩, hsleep⟩⟩
    rintro ⟨hlink, hnp, hpending | hout⟩
    · exact ⟨⟨hnp, .inr hpending.2⟩, hlink⟩
    exact ⟨⟨hnp, .inl hout⟩, hlink⟩
  rw [← hcompletes, hjob₄, schedule_jobNo hreal₂ hrun₂ hschedule.2, hjob₂]
  split
  · rename_i hc
    exact ⟨fun _ => hc, fun _ => rfl⟩
  rename_i hc
  exact ⟨fun h => absurd h (by bv_omega), fun h => absurd h hc⟩

def oneCpu : Cluster 1 := Cluster.init (noGsnTasks (Fin.last 0)) 1000000

def newJob (t : TaskId) (period : LtTime) (running : Option (Fin 1)) (clock : List LtTime) :
    GsnOp 1 :=
  .taskNew t { cpu := 0, period := period, execCost := 5, budgetPolicy := .noEnforcement } running
    0 0 clock

/-- A later deadline arrives in between: the request is served. -/
theorem gsnedf_job_completed_iff_later_arrival :
    ∃ st₀ st₁ st₂ st₃, Run GsnStep oneCpu [newJob 1 20 (some 0) [0]] st₀ ∧
      GsnStep st₀ (.completeJob 0) st₁ ∧
      Run (ForeignStep 1) st₁ [newJob 2 30 none []] st₂ ∧
      GsnStep st₂ (.schedule 0 1 0 [0]) st₃ ∧
      (st₃.task 1).job.jobNo = (st₀.task 1).job.jobNo + 1 := by
  have hsteps : ∃ st₀ st₁ st₂ st₃, Run GsnStep oneCpu [newJob 1 20 (some 0) [0]] st₀ ∧
      GsnStep st₀ (.completeJob 0) st₁ ∧
      Run (ForeignStep 1) st₁ [newJob 2 30 none []] st₂ ∧
      GsnStep st₂ (.schedule 0 1 0 [0]) st₃ ∧
      (st₀.task 1).realtime = true ∧ (st₀.task 1).running = true ∧
      (st₀.cpu 0).scheduled = some 1 ∧ st₂.links 0 = some 1 ∧ (st₂.task 1).np = false ∧
      (st₂.task 1).flags = .sleep := by
    refine ⟨_, _, _, _, .snoc .nil ⟨⟨rfl, by decide, by decide⟩, rfl⟩, ⟨trivial, rfl⟩,
      .snoc .nil ⟨⟨⟨rfl, by decide, by decide⟩, rfl⟩, ne_of_lt Nat.one_lt_two⟩,
      ⟨rfl, rfl⟩, rfl, rfl, rfl, rfl, rfl, rfl⟩
  obtain ⟨st₀, st₁, st₂, st₃, hnew, hflag, hbetween, hschedule, hrt, hrunning, hs, hlink, hnp,
    hsleep⟩ := hsteps
  exact ⟨st₀, st₁, st₂, st₃, hnew, hflag, hbetween, hschedule,
    (gsnedf_job_completed_iff hrt hrunning hs hflag hbetween hschedule .nil).mpr
      ⟨hlink, hnp, .inl ((pending_iff_run hbetween).mp ⟨⟨0, hlink⟩, hsleep⟩)⟩⟩

/-- An earlier deadline arrives in between: `gsnedf_schedule` preempts the task, and when the
    task is chosen again it still has its old job. -/
theorem gsnedf_job_completion_lost :
    ∃ st₀ st₁ st₂ st₃ st₄, Run GsnStep oneCpu [newJob 1 20 (some 0) [0]] st₀ ∧
      (st₀.task 1).realtime = true ∧ (st₀.task 1).running = true ∧
      (st₀.cpu 0).scheduled = some 1 ∧
      GsnStep st₀ (.completeJob 0) st₁ ∧
      Run (ForeignStep 1) st₁ [newJob 2 10 none [0]] st₂ ∧
      GsnStep st₂ (.schedule 0 1 0 []) st₃ ∧
      Run (ForeignStep 1) st₃ [.finishSwitch 0, .completeJob 0, .schedule 0 2 0 [0],
        .finishSwitch 0] st₄ ∧
      (st₄.cpu 0).scheduled = some 1 ∧ (st₄.task 1).job.jobNo = (st₀.task 1).job.jobNo := by
  have heval : (execAll (fun st op => decide (st.Legal op)) exec [newJob 1 20 (some 0) [0]]
      oneCpu).any (fun st₀ => decide ((st₀.task 1).realtime = true ∧
        (st₀.task 1).running = true ∧ (st₀.cpu 0).scheduled = some 1) &&
      (st₀.exec (.completeJob 0)).any fun st₁ =>
      (execAll (fun st op => decide (st.Legal op ∧ st.Foreign 1 op)) exec [newJob 2 10 none [0]]
        st₁).any fun st₂ =>
      decide (st₂.Legal (.schedule 0 1 0 [])) && (st₂.exec (.schedule 0 1 0 [])).any fun st₃ =>
      (execAll (fun st op => decide (st.Legal op ∧ st.Foreign 1 op)) exec
        [.finishSwitch 0, .completeJob 0, .schedule 0 2 0 [0], .finishSwitch 0] st₃).any fun st₄ =>
      decide ((st₄.cpu 0).scheduled = some 1 ∧
        (st₄.task 1).job.jobNo = (st₀.task 1).job.jobNo)) = true := by
    decide +kernel
  have hforeign : ∀ (st : Cluster 1) op st', decide (st.Legal op ∧ st.Foreign 1 op) = true →
      st.exec op = some st' → ForeignStep 1 st op st' := fun _ _ _ hl hx =>
    ⟨⟨(of_decide_eq_true hl).1, hx⟩, (of_decide_eq_true hl).2⟩
  obtain ⟨st₀, hnew, hcheck⟩ := Run.of_check (fun st op st' hl hx =>
    show GsnStep st op st' from ⟨of_decide_eq_true hl, hx⟩) heval
  obtain ⟨hstart, hcheck⟩ := Bool.and_eq_true_iff.mp hcheck
  obtain ⟨hrt, hrunning, hs⟩ := of_decide_eq_true hstart
  obtain ⟨st₁, hflag, hcheck⟩ := (Option.any_eq_true _ _).mp hcheck
  obtain ⟨st₂, hbetween, hcheck⟩ := Run.of_check hforeign hcheck
  obtain ⟨hl, hcheck⟩ := Bool.and_eq_true_iff.mp hcheck
  obtain ⟨st₃, hschedule, hcheck⟩ := (Option.any_eq_true _ _).mp hcheck
  obtain ⟨st₄, hafter, hcheck⟩ := Run.of_check hforeign hcheck
  obtain ⟨hback, hjob⟩ := of_decide_eq_true hcheck
  exact ⟨st₀, st₁, st₂, st₃, st₄, hnew, hrt, hrunning, hs, ⟨trivial, hflag⟩, hbetween,
    ⟨of_decide_eq_true hl, hschedule⟩, hafter, hback, hjob⟩

end Litmus.GsnEdf
