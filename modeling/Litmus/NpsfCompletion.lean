import Litmus.NpsfServerRuns

/-!
# Completion requests

A task asks for the completion of its job by writing a flag without the server lock, and
then enters the scheduler.  In between the server may displace it, and requeuing a task
clears that flag.
-/

namespace Litmus.Npsf

open BinomialForest Runs NpsfServer Option TaskTable
open RtTask (setRunning setRtFlags updateTime)

/-! ### Steps of the other tasks -/

variable {now : LtTime} {s s' : NpsfServer} {u t : TaskId}

/-- The step is not one of `t`'s own, other than executing. -/
def Foreign (t : TaskId) : ServerOp → Prop
  | .taskNew u _ _ => u ≠ t
  | .taskWakeUp u _ => u ≠ t
  | .taskBlock u _ => u ≠ t
  | .taskExit u _ => u ≠ t
  | .scheduleServer u _ => u ≠ t
  | .completeJob u => u ≠ t
  | .execute _ _ => True
  | .releaseTimer _ => True
  | .releaseJobs _ _ => True

def ForeignStep (t : TaskId) (s : NpsfServer) (op : ServerOp) (s' : NpsfServer) : Prop :=
  ServerStep s op s' ∧ Foreign t op

/-- `npsf_reschedule_server` finds `t` in charge and decides to preempt it. -/
def preempts (t : TaskId) : Option NpsfServer → Bool
  | some s => s.highestPrio == some t && (edfPreemptionNeeded s.task s.dom (some t)).1
  | none => false

/-- The step runs `npsf_reschedule_server` in a state where `t` gets displaced. -/
def displaces (t : TaskId) (s : NpsfServer) : ServerOp → Bool
  | .taskNew u params now =>
      let s := s.modifyTask u fun _ => RtTask.admitted params
      preempts t ((s.modifyTask u (RtTask.releaseAt now.call)).requeue now.requeued u)
  | .taskWakeUp u now =>
      let s := s.modifyTask u (setRunning true)
      let s := if (s.task u).isTardy now.call then s.modifyTask u (RtTask.releaseAt now.call) else s
      preempts t (s.requeue now.requeued u)
  | .releaseJobs i _ =>
      preempts t ((s.dom.mergeFired s.order i).map fun dom => { s with dom := dom })
  | _ => false

/-- The fields that decide a completion, other than the flags and the budget. -/
def jobView (p : RtTask) : Bool × Bool × BitVec 32 := (p.realtime, p.running, p.job.jobNo)

/-! ### What a step does to a task it is not about -/

theorem requeue_task (h : s.requeue now u = some s') :
    s'.task = s.task.modify u (setRtFlags .running) ∧ s'.highestPrio = s.highestPrio := by
  unfold requeue at h
  split at h
  · cases h
  simp only at h
  split at h
  · obtain ⟨dom, _, rfl⟩ := map_eq_some_iff.mp h
    exact ⟨rfl, rfl⟩
  rw [some.injEq] at h
  subst h
  exact ⟨rfl, rfl⟩

theorem reschedule_task (h : s.npsfRescheduleServer now = some s') :
    s'.task t = if preempts t (some s) then setRtFlags .running (s.task t) else s.task t := by
  cases hne : (edfPreemptionNeeded s.task s.dom s.highestPrio).1 with
  | false =>
    simp only [npsfRescheduleServer, hne, Bool.false_eq_true, if_false, some.injEq] at h
    subst h
    rw [if_neg]
    intro hp
    simp only [preempts, Bool.and_eq_true, beq_iff_eq] at hp
    rw [hp.1, hp.2] at hne
    cases hne
  | true =>
    rw [npsfRescheduleServer_of_needed now hne] at h
    cases hh : s.highestPrio with
    | none =>
      rw [hh] at h
      simp only [some.injEq] at h
      subst h
      rw [if_neg (by simp [preempts, hh])]
      rfl
    | some g =>
      rw [hh] at h hne
      have hta := (requeue_task h).1
      rw [hta]
      by_cases hgt : t = g
      · subst hgt
        rw [if_pos (by simp [preempts, hh, hne]), modify_self]
        rfl
      rw [if_neg (by simp [preempts, hh, Ne.symm hgt]), modify_of_ne _ _ hgt]
      rfl

theorem removeFromServer_task (h : s.removeFromServer now u = some s') : s'.task t = s.task t := by
  unfold removeFromServer at h
  split at h
  · rw [reschedule_task (t := t) h]
    simp [preempts]
  split at h
  · obtain ⟨dom, _, rfl⟩ := map_eq_some_iff.mp h
    rfl
  rw [some.injEq] at h
  rw [h]

theorem completePrev_task {prev : TaskId} (h : s.completePrev now prev = some s') :
    s'.task = (s.task.modify prev jobCompletion).modify prev (setRtFlags .running) := by
  simp only [completePrev, bind_eq_bind, bind_eq_some_iff, some.injEq] at h
  obtain ⟨dom, _, s2, hs2, rfl⟩ := h
  have hta := (requeue_task hs2).1
  split
  · exact hta
  exact hta

/-- `npsf_schedule_server` takes its completion branch. -/
def completes (p : RtTask) : Bool :=
  p.realtime && p.running && (p.budgetEnforced && p.budgetExhausted || p.flags == .sleep)

theorem scheduleServer_task {prev : TaskId} (h : s.npsfScheduleServer now prev = some s') :
    s'.task = if completes (s.task prev) then
        (s.task.modify prev jobCompletion).modify prev (setRtFlags .running) else s.task := by
  have hcon : ∀ p : RtTask, ((p.realtime && p.budgetEnforced && p.budgetExhausted ||
      p.realtime && p.flags == .sleep) && !(p.realtime && !p.running)) = completes p := by
    intro p
    unfold completes
    cases p.realtime <;> cases p.running <;> simp
  unfold npsfScheduleServer at h
  simp only [hcon] at h
  split at h
  · next hc =>
    rw [if_pos hc]
    obtain ⟨s1, hs1, hla⟩ := bind_eq_some_iff.mp h
    split at hla
    · cases hla
    rw [some.injEq] at hla
    rw [← hla]
    exact completePrev_task hs1
  next hc =>
  rw [if_neg hc]
  simp only [bind_eq_bind, bind_some] at h
  split at h
  · cases h
  rw [some.injEq] at h
  rw [h]

/-- `s'` has `t` as `s` has it, up to the flags, which are cleared if `b`. -/
def Touched (b : Bool) (t : TaskId) (s s' : NpsfServer) : Prop :=
  jobView (s'.task t) = jobView (s.task t) ∧
    (s'.task t).flags = if b then .running else (s.task t).flags

theorem touched_false (h : s'.task t = s.task t) : Touched false t s s' := by
  constructor
  · rw [h]
  rw [h]
  rfl

theorem touched_reschedule {s1 : NpsfServer} (h1 : s1.task t = s.task t)
    (h : s1.npsfRescheduleServer now = some s') : Touched (preempts t (some s1)) t s s' := by
  have hta := reschedule_task (t := t) h
  rw [h1] at hta
  constructor
  · rw [hta]
    split <;> rfl
  rw [hta]
  split <;> rfl

theorem modifyTask_task_of_ne (s : NpsfServer) (h : u ≠ t) (f : RtTask → RtTask) :
    (s.modifyTask u f).task t = s.task t :=
  modify_of_ne _ _ (Ne.symm h)

theorem requeue_task_of_ne (hut : u ≠ t) (h : s.requeue now u = some s') :
    s'.task t = s.task t := by
  rw [(requeue_task h).1]
  exact modify_of_ne _ _ (Ne.symm hut)

theorem touched_enter {n1 n2 : LtTime} {s1 : NpsfServer} (hut : u ≠ t) (h1 : s1.task t = s.task t)
    (h : (s1.requeue n1 u).bind (npsfRescheduleServer n2) = some s') :
    Touched (preempts t (s1.requeue n1 u)) t s s' := by
  obtain ⟨s2, hs2, hs'⟩ := bind_eq_some_iff.mp h
  rw [hs2]
  exact touched_reschedule ((requeue_task_of_ne hut hs2).trans h1) hs'

theorem touched_wakeUp {now : Readings} (hut : u ≠ t)
    (h : (s.modifyTask u (setRunning true)).npsfTaskWakeUp now u = some s') :
    Touched (displaces t s (.taskWakeUp u now)) t s s' := by
  unfold npsfTaskWakeUp at h
  split at h
  · cases h
  simp only [displaces] at h ⊢
  generalize hs1 : (if ((s.modifyTask u (setRunning true)).task u).isTardy now.call =
    true then (s.modifyTask u (setRunning true)).modifyTask u
      (RtTask.releaseAt now.call) else s.modifyTask u (setRunning true)) = s1 at h ⊢
  have hta : s1.task t = s.task t := by
    rw [← hs1]
    split
    · rw [modifyTask_task_of_ne _ hut, modifyTask_task_of_ne _ hut]
    rw [modifyTask_task_of_ne _ hut]
  split at h
  · exact touched_enter hut hta h
  next hhp =>
  rw [some.injEq] at h
  subst h
  have hn : preempts t (s1.requeue now.requeued u) = false := by
    cases hq : s1.requeue now.requeued u with
    | none => rfl
    | some s2 =>
      have hh2 : s2.highestPrio = some u := by
        rw [(requeue_task hq).2]
        exact not_not.mp hhp
      simp [preempts, hh2, hut]
  rw [hn]
  exact touched_false hta

/-- A step of the others clears the flags of `t` exactly when it displaces `t`, and
    leaves its job alone. -/
theorem foreign_step {op : ServerOp} (h : ForeignStep t s op s') :
    Touched (displaces t s op) t s s' := by
  obtain ⟨⟨hl, hx⟩, hfo⟩ := h
  cases op with
  | taskNew u params now =>
    refine touched_enter hfo ?_ hx
    rw [modifyTask_task_of_ne _ hfo, modifyTask_task_of_ne _ hfo]
  | taskWakeUp u now => exact touched_wakeUp hfo hx
  | taskBlock u now =>
    simp only [exec, npsfTaskBlock] at hx
    split at hx
    · cases hx
    refine touched_false ((removeFromServer_task hx).trans ?_)
    exact modifyTask_task_of_ne s hfo _
  | taskExit u now =>
    obtain ⟨s1, hs1, rfl⟩ := map_eq_some_iff.mp hx
    refine touched_false ((modifyTask_task_of_ne s1 hfo _).trans ?_)
    simp only [npsfTaskExit] at hs1
    split at hs1
    · cases hs1
    exact removeFromServer_task hs1
  | releaseTimer i =>
    obtain ⟨dom, _, rfl⟩ := map_eq_some_iff.mp hx
    exact touched_false rfl
  | releaseJobs i now =>
    obtain ⟨dom, hdom, hs'⟩ := bind_eq_some_iff.mp hx
    simp only [displaces, hdom, map_some]
    exact touched_reschedule rfl hs'
  | scheduleServer u now =>
    apply touched_false
    rw [scheduleServer_task hx]
    split
    · rw [modify_of_ne _ _ (Ne.symm hfo), modify_of_ne _ _ (Ne.symm hfo)]
    rfl
  | execute u delta =>
    rw [exec, some.injEq] at hx
    subst hx
    constructor
    · exact modify_field jobView (updateTime delta) (fun _ => rfl) s.task u t
    exact modify_field RtTask.flags (updateTime delta) (fun _ => rfl) s.task u t
  | completeJob u =>
    rw [exec, some.injEq] at hx
    subst hx
    exact touched_false (modifyTask_task_of_ne s hfo _)

/-! ### Runs of the others -/

/-- A step of the others that does not displace `t`. -/
def UndisturbedStep (t : TaskId) (s : NpsfServer) (op : ServerOp) (s' : NpsfServer) : Prop :=
  ForeignStep t s op s' ∧ displaces t s op = false

theorem foreignStep_deterministic (s : NpsfServer) (op : ServerOp) (s1 s2 : NpsfServer)
    (h1 : ForeignStep t s op s1) (h2 : ForeignStep t s op s2) : s1 = s2 := by
  have h := h1.1.2.symm.trans h2.1.2
  exact some.inj h

theorem foreign_run_view {ops : List ServerOp} (h : Run (ForeignStep t) s ops s') :
    jobView (s'.task t) = jobView (s.task t) := by
  induction h with
  | nil => rfl
  | snoc _ hla ih => exact (foreign_step hla).1.trans ih

theorem sleep_iff_undisturbed {ops : List ServerOp} (hsle : (s.task t).flags = .sleep)
    (h : Run (ForeignStep t) s ops s') :
    (s'.task t).flags = .sleep ↔ Run (UndisturbedStep t) s ops s' := by
  induction h with
  | nil => exact ⟨fun _ => .nil, fun _ => hsle⟩
  | @snoc s1 s2 ops op hini hla ih =>
    have hfl := (foreign_step hla).2
    constructor
    · intro hs
      rw [hs] at hfl
      cases hd : displaces t s1 op with
      | true =>
        rw [hd] at hfl
        cases hfl
      | false =>
        rw [hd] at hfl
        exact .snoc (ih.mp hfl.symm) ⟨hla, hd⟩
    intro hr
    obtain ⟨s1', hinit', hlast'⟩ := hr.of_snoc
    have heq : s1' = s1 := (hinit'.mono fun _ _ _ h => h.1).deterministic
      (fun s op s1 s2 => foreignStep_deterministic s op s1 s2) hini
    subst heq
    rw [hfl, hlast'.2]
    exact ih.mpr hinit'

/-- A task in `complete_job` gets its job completed by the time the scheduler returns to
    it, exactly if nothing displaced it between its writing the flag and its entering the
    scheduler, or its enforced budget was used up by then. -/
theorem npsf_job_completed_iff {t : TaskId} {s₀ s₁ s₂ s₃ s₄ : NpsfServer}
    {between after : List ServerOp} {now : LtTime}
    (hreal : (s₀.task t).realtime = true) (hrunning : (s₀.task t).running = true)
    (hflag : ServerStep s₀ (.completeJob t) s₁)
    (hbetween : Run (ForeignStep t) s₁ between s₂)
    (hschedule : ServerStep s₂ (.scheduleServer t now) s₃)
    (hafter : Run (ForeignStep t) s₃ after s₄) :
    (s₄.task t).job.jobNo = (s₀.task t).job.jobNo + 1 ↔ Run (UndisturbedStep t) s₁ between s₂ ∨
        ((s₂.task t).budgetEnforced && (s₂.task t).budgetExhausted) = true := by
  have hs₁ : s₁.task t = setRtFlags .sleep (s₀.task t) := by
    have h := some.inj hflag.2
    rw [← h]
    exact modify_self _ _ _
  have hview₂ : jobView (s₂.task t) = jobView (s₀.task t) := by
    rw [foreign_run_view hbetween, hs₁]
    rfl
  have hview₄ : (s₄.task t).job.jobNo = (s₃.task t).job.jobNo :=
    congrArg (fun v => v.2.2) (foreign_run_view hafter)
  have hjob₂ : (s₂.task t).job.jobNo = (s₀.task t).job.jobNo := congrArg (fun v => v.2.2) hview₂
  have hreal₂ : (s₂.task t).realtime = true := (congrArg Prod.fst hview₂).trans hreal
  have hrun₂ : (s₂.task t).running = true := (congrArg (fun v => v.2.1) hview₂).trans hrunning
  have hsleep := sleep_iff_undisturbed (by rw [hs₁]; rfl) hbetween
  have hcompletes : completes (s₂.task t) = true ↔ Run (UndisturbedStep t) s₁ between s₂ ∨
        ((s₂.task t).budgetEnforced && (s₂.task t).budgetExhausted) = true := by
    rw [← hsleep]
    simp only [completes, hreal₂, hrun₂, Bool.true_and, Bool.or_eq_true, beq_iff_eq]
    exact or_comm
  rw [← hcompletes, hview₄, ← hjob₂, scheduleServer_task hschedule.2]
  by_cases hc : completes (s₂.task t) = true
  · rw [if_pos hc, modify_self, modify_self]
    exact ⟨fun _ => hc, fun _ => rfl⟩
  rw [if_neg hc]
  refine ⟨fun h => ?_, fun h => absurd h hc⟩
  exact absurd h (by bv_omega)

/-- A later deadline arrives in between: the request is served. -/
theorem npsf_job_completed_iff_later_arrival :
    ∃ s₀ s₁ s₂ s₃, Run ServerStep (init noTasks 1000000) [newAtZero 1 20] s₀ ∧
      ServerStep s₀ (.completeJob 1) s₁ ∧
      Run (ForeignStep 1) s₁ [newAtZero 2 30] s₂ ∧
      ServerStep s₂ (.scheduleServer 1 0) s₃ ∧
      (s₃.task 1).job.jobNo = (s₀.task 1).job.jobNo + 1 := by
  have hsteps : ∃ s₀ s₁ s₂ s₃, Run ServerStep (init noTasks 1000000) [newAtZero 1 20] s₀ ∧
      ServerStep s₀ (.completeJob 1) s₁ ∧
      Run (UndisturbedStep 1) s₁ [newAtZero 2 30] s₂ ∧
      ServerStep s₂ (.scheduleServer 1 0) s₃ ∧
      (s₀.task 1).realtime = true ∧ (s₀.task 1).running = true := by
    refine ⟨_, _, _, _, .snoc .nil ⟨⟨rfl, by decide, by decide⟩, rfl⟩, ⟨trivial, rfl⟩,
      .snoc .nil ⟨⟨⟨⟨rfl, by decide, by decide⟩, rfl⟩, Nat.succ_ne_self 1⟩, rfl⟩,
      ⟨⟨rfl, by decide⟩, rfl⟩, rfl, rfl⟩
  obtain ⟨s₀, s₁, s₂, s₃, hnew, hflag, hbetween, hschedule, hrt, hrunning⟩ := hsteps
  have hforeign := hbetween.mono fun _ _ _ h => h.1
  exact ⟨s₀, s₁, s₂, s₃, hnew, hflag, hforeign, hschedule,
    (npsf_job_completed_iff hrt hrunning hflag hforeign hschedule .nil).mpr (.inl hbetween)⟩

/-- An earlier deadline arrives in between: the request is lost, and when the task is in
    charge again it still has its old job. -/
theorem npsf_job_completion_lost :
    ∃ s₀ s₁ s₂ s₃ s₄, Run ServerStep (init noTasks 1000000) [newAtZero 1 20] s₀ ∧
      (s₀.task 1).realtime = true ∧ (s₀.task 1).running = true ∧
      ServerStep s₀ (.completeJob 1) s₁ ∧
      Run (ForeignStep 1) s₁ [newAtZero 2 10] s₂ ∧
      ServerStep s₂ (.scheduleServer 1 0) s₃ ∧
      Run (ForeignStep 1) s₃ [.taskBlock 2 0] s₄ ∧
      s₄.highestPrio = some 1 ∧ (s₄.task 1).job.jobNo = (s₀.task 1).job.jobNo := by
  refine ⟨_, _, _, _, _, .snoc .nil ⟨⟨rfl, by decide, by decide⟩, rfl⟩, rfl, rfl,
    ⟨trivial, rfl⟩,
    .snoc .nil ⟨⟨⟨rfl, by decide, by decide⟩, rfl⟩, Nat.succ_ne_self 1⟩,
    ⟨⟨rfl, by decide⟩, rfl⟩,
    .snoc .nil ⟨⟨⟨rfl, rfl, by decide⟩, rfl⟩, Nat.succ_ne_self 1⟩, rfl, rfl⟩

end Litmus.Npsf
