import Litmus.PsnPlaces

/-!
# Budget enforcement in PSN-EDF

`psnedf_schedule` completes a job that has used up its budget, unless the task blocks.  A task
that blocks just then keeps its job, and a wake-up gives it a new one only after the deadline.
If it wakes up earlier, it is scheduled with no budget left, which `arm_enforcement_timer` does
not accept.
-/

namespace Litmus.PsnEdf

open BinomialForest Custody Runs

namespace PsnState

variable {n : Nat}

/-- The `BUG_ON` of `arm_enforcement_timer`, which `litmus_schedule` reaches through
    `update_enforcement_timer` with the task it switches to. -/
def armBug (p : PsnTask) : Bool :=
  p.params.budgetPolicy == .preciseEnforcement && p.budgetExhausted && !p.np

/-- The task has budget left, if the budget is precisely enforced. -/
def Spare (p : PsnTask) : Prop :=
  p.params.budgetPolicy = .preciseEnforcement → p.budgetExhausted = false

section

variable {st st' : PsnState n} {c e : Fin n} {t : TaskId} {op : PsnOp n}

theorem Spare.of_unflagged {p p' : PsnTask} (h : p'.unflagged = p.unflagged) (hp : Spare p) :
    Spare p' := by
  have hpar : p'.params = p.params := show p'.unflagged.params = p.unflagged.params by rw [h]
  have hexh : p'.budgetExhausted = p.budgetExhausted :=
    show p'.unflagged.budgetExhausted = p.unflagged.budgetExhausted by rw [h]
  rw [Spare, hpar, hexh]
  exact hp

theorem Spare.of_fresh {p : PsnTask} (hcs : p.params.execCost ≠ 0) (hx : p.job.execTime = 0) :
    Spare p := by
  intro _
  simp only [RtTask.budgetExhausted, hx, decide_eq_false_iff_not]
  exact fun hle => hcs (BitVec.le_zero_iff.mp hle)

theorem Spare.of_schedule {p : PsnTask} (hcs : p.params.execCost ≠ 0) (hnp : p.np = false)
    (hr : p.running = true) : Spare (effect (.schedule c t 0 : PsnOp n) p) := by
  simp only [effect]
  split
  · exact Spare.of_fresh hcs rfl
  rename_i hst
  intro hpol
  simp only [completes, outOfTime, RtTask.budgetEnforced, hnp, hr, hpol, Bool.not_false,
    Bool.true_and, Bool.and_true, Bool.or_eq_true, not_or, Bool.not_eq_true] at hst
  simpa using hst.1

/-- The step does not put `t` into a non-preemptive section, and does not wake it up with its
    budget used up before its deadline. -/
def Careful (t : TaskId) (st : PsnState n) : PsnOp n → Prop
  | .setNp c _ => (st.dom c).scheduled ≠ some t
  | .taskWakeUp u exitSem now _ => u = t →
      (st.task t).isTardy now = true ∧ exitSem = false ∨ (st.task t).budgetExhausted = false
  | _ => True

instance (t : TaskId) (st : PsnState n) (op : PsnOp n) : Decidable (st.Careful t op) := by
  rcases op <;> unfold Careful <;> infer_instance

def CarefulStep (t : TaskId) (st : PsnState n) (op : PsnOp n) (st' : PsnState n) : Prop :=
  PsnStep st op st' ∧ st.Careful t op

/-- `t` has budget left whenever it is runnable and not scheduled. -/
structure Funded (t : TaskId) (st : PsnState n) : Prop where
  placed : Placed st
  cost : (st.task t).realtime = true → (st.task t).params.execCost ≠ 0
  preemptable : (st.task t).realtime = true → (st.task t).np = false
  spare : st.Live t → (∀ c, (st.dom c).scheduled ≠ some t) → Spare (st.task t)

/-- The fields of a task that a completion leaves alone. -/
def terms (p : PsnTask) : Bool × TaskParams × Bool := (p.realtime, p.params, p.np)

theorem terms_of_unflagged {p p' : PsnTask} (h : p'.unflagged = p.unflagged) :
    terms p' = terms p := show terms p'.unflagged = terms p.unflagged from congrArg terms h

/-- What a careful step about `t` leaves of the cost and of the preemptability of `t`. -/
theorem effect_terms (hl : st.Legal op) (hcar : st.Careful t op) (hsu : st.subject op = some t)
    (hcs : (st.task t).realtime = true → (st.task t).params.execCost ≠ 0)
    (hnp : (st.task t).realtime = true → (st.task t).np = false)
    (hrt : (effect op (st.task t)).realtime = true) :
    (effect op (st.task t)).params.execCost ≠ 0 ∧ (effect op (st.task t)).np = false := by
  have hke : terms (effect op (st.task t)) = terms (st.task t) →
      (effect op (st.task t)).params.execCost ≠ 0 ∧ (effect op (st.task t)).np = false := by
    intro hte
    simp only [terms, Prod.mk.injEq] at hte
    rw [hte.2.1, hte.2.2]
    have hreal' := hte.1.symm.trans hrt
    exact ⟨hcs hreal', hnp hreal'⟩
  rcases op with ⟨c, prev, now⟩ | ⟨c, now⟩ | ⟨c, i⟩ | ⟨c, i⟩ | ⟨u, exitSem, now, requeued⟩ |
    ⟨u, params, running, now, requeued⟩ | u | ⟨u, start⟩ | ⟨c, np⟩ | ⟨c, delta⟩ | c
  · refine hke ?_
    simp only [effect]
    split <;> rfl
  · exact hke rfl
  · exact hke rfl
  · exact hke rfl
  · refine hke ?_
    simp only [effect, wakeJob]
    split <;> rfl
  · exact ⟨hl.2.2.1, rfl⟩
  · cases hrt
  · exact hke rfl
  · exact absurd hsu hcar
  · exact hke rfl
  · exact hke rfl

theorem Funded.spare_subject (h : Funded t st) (hl : st.Legal op) (hca : st.Careful t op)
    (hx : st.exec op = some st') (hsu : st.subject op = some t) (hli : st'.Live t)
    (hfr : (∀ c, (st'.dom c).scheduled ≠ some t) ∨ ∃ c prev now, op = .schedule c prev now) :
    Spare (st'.task t) := by
  have hta : (st'.task t).unflagged = (effect op (st.task t)).unflagged := by
    have := exec_task hx t
    rwa [if_pos hsu] at this
  have hvi := placeView_of_unflagged hta
  simp only [placeView, Prod.mk.injEq] at hvi
  have hr := hvi.2.1.symm.trans hli.2
  refine Spare.of_unflagged hta ?_
  rcases op with ⟨c, prev, now⟩ | ⟨c, now⟩ | ⟨c, i⟩ | ⟨c, i⟩ | ⟨u, exitSem, now, requeued⟩ |
    ⟨u, params, running, now, requeued⟩ | u | ⟨u, start⟩ | ⟨c, np⟩ | ⟨c, delta⟩ | c
  · have hbe := h.placed.live_of_scheduled hsu
    exact Spare.of_schedule (c := c) (t := prev) (h.cost hbe.1) (h.preemptable hbe.1)
      hbe.2
  · cases hr
  · cases hsu
  · cases hsu
  · obtain rfl : u = t := Option.some.inj hsu
    simp only [effect, wakeJob]
    split
    · exact Spare.of_fresh (h.cost hl.1) rfl
    rename_i hn
    intro _
    rcases hca rfl with ⟨htar, hexi⟩ | hlef
    · exact absurd (Bool.and_eq_true_iff.mpr ⟨htar, by rw [hexi]; rfl⟩) hn
    exact hlef
  · exact Spare.of_fresh hl.2.2.1 rfl
  · exact absurd (hvi.1.symm.trans hli.1) (by simp [effect])
  · obtain rfl : u = t := Option.some.inj hsu
    exact absurd hr (by simp [effect, RtTask.releaseAt, RtTask.prepareForNextPeriod,
      RtTask.setRtFlags, hl.2])
  · exact absurd hsu hca
  · rcases hfr with hfr | ⟨d, prev, now, hop⟩
    · obtain ⟨u, hu, rfl⟩ := Option.map_eq_some_iff.mp hx
      exact absurd hsu (hfr c)
    cases hop
  · rcases hfr with hfr | ⟨d, prev, now, hop⟩
    · obtain ⟨u, hu, rfl⟩ := Option.map_eq_some_iff.mp hx
      exact absurd hsu (hfr c)
    cases hop

theorem Funded.spare_other (h : Funded t st) (hx : st.exec op = some st')
    (hsu : st.subject op ≠ some t) (hl : st'.Live t)
    (hfr : ∀ c, (st.dom c).scheduled ≠ some t) : Spare (st'.task t) := by
  have hta : (st'.task t).unflagged = (st.task t).unflagged := by
    have := exec_task hx t
    rwa [if_neg hsu] at this
  refine Spare.of_unflagged hta (h.spare ?_ hfr)
  exact (live_of_placeView (placeView_of_unflagged hta)).mp hl

theorem Funded.step (h : Funded t st) (hs : CarefulStep t st op st') : Funded t st' := by
  obtain ⟨⟨hl, hx⟩, hca⟩ := hs
  have hpl := h.placed.step ⟨hl, hx⟩
  have hta := exec_task hx t
  by_cases hsu : st.subject op = some t
  · rw [if_pos hsu] at hta
    have hte := terms_of_unflagged hta
    simp only [terms, Prod.mk.injEq] at hte
    have hk := fun hrt : (st'.task t).realtime = true =>
      effect_terms hl hca hsu h.cost h.preemptable (hte.1.symm.trans hrt)
    refine ⟨hpl, fun hrt => ?_, fun hrt => ?_, fun hli hfr => ?_⟩
    · rw [hte.2.1]
      exact (hk hrt).1
    · rw [hte.2.2]
      exact (hk hrt).2
    exact h.spare_subject hl hca hx hsu hli (.inl hfr)
  rw [if_neg hsu] at hta
  have hte := terms_of_unflagged hta
  simp only [terms, Prod.mk.injEq] at hte
  refine ⟨hpl, fun hrt => ?_, fun hrt => ?_, fun hli hfr => ?_⟩
  · rw [hte.2.1]
    exact h.cost (hte.1.symm.trans hrt)
  · rw [hte.2.2]
    exact h.preemptable (hte.1.symm.trans hrt)
  refine h.spare_other hx hsu hli fun c hc => ?_
  exact hfr c (h.placed.slot_kept hx hc hsu)

theorem funded_init {task : TaskId → PsnTask} (tickPeriod : Nat)
    (hn : ∀ t, (task t).realtime = false) : Funded t (init task tickPeriod : PsnState n) := by
  have hor : ((init task tickPeriod : PsnState n).task t).realtime ≠ true := by
    simp [init, hn]
  exact ⟨placed_init tickPeriod hn, fun h => absurd h hor, fun h => absurd h hor,
    fun hl => absurd hl.1 hor⟩

theorem funded_of_run {task : TaskId → PsnTask} {tickPeriod : Nat}
    (hn : ∀ t, (task t).realtime = false) {ops : List (PsnOp n)}
    (hr : Run (CarefulStep t) (init task tickPeriod) ops st) : Funded t st :=
  hr.invariant (fun _ _ _ hI hs => hI.step hs) (funded_init tickPeriod hn)

theorem Funded.next (h : Funded t st) (hs : PsnStep st op st')
    (hop : (∃ prev now, op = .schedule c prev now) ∨ ∃ now, op = .block c now)
    (hn : (st'.dom c).scheduled = some t) : Spare (st'.task t) := by
  have hpl := h.placed.step hs
  have hli := hpl.live_of_scheduled hn
  obtain ⟨hl, hx⟩ := hs
  have hcar : st.Careful t op := by
    rcases hop with ⟨prev, now, rfl⟩ | ⟨now, rfl⟩ <;> trivial
  have hsl : st.subject op = (st.dom c).scheduled := by
    rcases hop with ⟨prev, now, rfl⟩ | ⟨now, rfl⟩ <;> rfl
  by_cases hsu : st.subject op = some t
  · rcases hop with ⟨prev, now, rfl⟩ | ⟨now, rfl⟩
    · exact h.spare_subject hl hcar hx hsu hli (.inr ⟨c, prev, now, rfl⟩)
    -- a task that blocks is not runnable
    obtain ⟨u, hu, _, _, _, hcha⟩ := block_changed hx
    obtain rfl : u = t := Option.some.inj (hu.symm.trans hsu)
    have hvi := placeView_of_unflagged hcha.subject
    simp only [placeView, Prod.mk.injEq] at hvi
    cases hvi.2.1.symm.trans hli.2
  refine h.spare_other hx hsu hli fun e he => ?_
  have hk := h.placed.slot_kept hx he hsu
  have hpla := hpl.sound.unique (mem_scheduled.mpr hk) (mem_scheduled.mpr hn)
  obtain rfl : e = c := congrArg Place.cpu hpla
  exact hsu (hsl.trans he)

end

end PsnState

open PsnState

/-- Along every run in which `t` enters no non-preemptive section, and is not woken up before
    its deadline with its budget used up: when `psnedf_schedule` returns `t`, the precisely
    enforced budget of `t` is not exhausted, and `arm_enforcement_timer` does not bug. -/
theorem psnedf_next_has_budget {n : Nat} {task : TaskId → PsnTask} {tickPeriod : Nat}
    (hnone : ∀ t, (task t).realtime = false) {t : TaskId} {ops : List (PsnOp n)}
    {st st' : PsnState n} (hrun : Run (CarefulStep t) (init task tickPeriod) ops st) {op : PsnOp n}
    {c : Fin n} (hop : (∃ prev now, op = .schedule c prev now) ∨ ∃ now, op = .block c now)
    (hstep : PsnStep st op st') (hnext : (st'.dom c).scheduled = some t)
    (hprecise : (st'.task t).params.budgetPolicy = .preciseEnforcement) :
    (st'.task t).budgetExhausted = false ∧ armBug (st'.task t) = false := by
  have hspare := (funded_of_run hnone hrun).next hstep hop hnext hprecise
  exact ⟨hspare, by simp [armBug, hspare]⟩

def noPsnTasks : TaskId → PsnTask := fun _ =>
  { RtTask.admitted
      { cpu := 0, period := 100, execCost := 5, budgetPolicy := .preciseEnforcement } with
    realtime := false, np := false }

/-- A new task with a precisely enforced budget of 5 and a period of 100. -/
def newPrecise (t : TaskId) : PsnOp 1 :=
  .taskNew t { cpu := 0, period := 100, execCost := 5, budgetPolicy := .preciseEnforcement } true 0 0

/-- A task uses up its budget, blocks, and wakes up after its deadline. -/
theorem psnedf_next_has_budget_tardy_wake_up :
    ∃ st st' : PsnState 1, Run (CarefulStep 1) (init noPsnTasks 1)
        [newPrecise 1, .execute 0 5, .block 0 5, .taskWakeUp 1 false 150 150] st ∧
      PsnStep st (.schedule 0 0 150) st' ∧ (st'.dom 0).scheduled = some 1 ∧
      (st'.task 1).params.budgetPolicy = .preciseEnforcement ∧
      (st'.task 1).budgetExhausted = false ∧ armBug (st'.task 1) = false := by
  have heval : (execAll (fun st op => decide (st.Legal op ∧ st.Careful 1 op)) exec
      [newPrecise 1, .execute 0 5, .block 0 5, .taskWakeUp 1 false 150 150]
      (init noPsnTasks 1 : PsnState 1)).any (fun st =>
      (st.exec (.schedule 0 0 150)).any fun st' => decide ((st'.dom 0).scheduled = some 1 ∧
        (st'.task 1).params.budgetPolicy = .preciseEnforcement)) = true := by
    decide +kernel
  obtain ⟨st, hrun, hcheck⟩ := Run.of_check (fun st op st' hl hx =>
    show CarefulStep 1 st op st' from
      ⟨⟨(of_decide_eq_true hl).1, hx⟩, (of_decide_eq_true hl).2⟩) heval
  obtain ⟨st', hx, hcheck⟩ := (Option.any_eq_true _ _).mp hcheck
  obtain ⟨hn, hprecise⟩ := of_decide_eq_true hcheck
  have hs : PsnStep st (.schedule 0 0 150) st' := ⟨trivial, hx⟩
  exact ⟨st, st', hrun, hs, hn, hprecise, psnedf_next_has_budget (fun _ => rfl) hrun
    (.inl ⟨0, 150, rfl⟩) hs hn hprecise⟩

/-- The same task wakes up before its deadline: it keeps its job, `psnedf_schedule` returns it
    with its budget used up, and `arm_enforcement_timer` bugs. -/
theorem psnedf_next_out_of_budget :
    ∃ st st' : PsnState 1, Run PsnStep (init noPsnTasks 1)
        [newPrecise 1, .execute 0 5, .block 0 5, .taskWakeUp 1 false 10 10] st ∧
      PsnStep st (.schedule 0 0 10) st' ∧ (st'.dom 0).scheduled = some 1 ∧
      (st'.task 1).params.budgetPolicy = .preciseEnforcement ∧ (st'.task 1).np = false ∧
      (st'.task 1).budgetExhausted = true ∧ armBug (st'.task 1) = true := by
  have heval : (execAll (fun st op => decide (st.Legal op)) exec
      [newPrecise 1, .execute 0 5, .block 0 5, .taskWakeUp 1 false 10 10]
      (init noPsnTasks 1 : PsnState 1)).any (fun st =>
      (st.exec (.schedule 0 0 10)).any fun st' => decide ((st'.dom 0).scheduled = some 1 ∧
        (st'.task 1).params.budgetPolicy = .preciseEnforcement ∧ (st'.task 1).np = false ∧
        (st'.task 1).budgetExhausted = true ∧ armBug (st'.task 1) = true)) = true := by
    decide +kernel
  obtain ⟨st, hrun, hcheck⟩ := Run.of_check (fun st op st' hl hx =>
    show PsnStep st op st' from ⟨of_decide_eq_true hl, hx⟩) heval
  obtain ⟨st', hx, hcheck⟩ := (Option.any_eq_true _ _).mp hcheck
  exact ⟨st, st', hrun, ⟨trivial, hx⟩, of_decide_eq_true hcheck⟩

/-! ### No task is lost -/

/-- At all times a runnable real-time task is scheduled, ready or waiting for its release, once and
    on its own CPU, and a blocked one is not. -/
theorem psnedf_no_task_lost {n : Nat} {task : TaskId → PsnTask} {tickPeriod : Nat}
    (hnone : ∀ t, (task t).realtime = false) {ops : List (PsnOp n)} {st : PsnState n}
    (hrun : Run PsnStep (init task tickPeriod) ops st) (t : TaskId)
    (hreal : (st.task t).realtime = true) :
    ((st.task t).running = true → ∃ p, (st.held p).count t = 1 ∧
        (st.task t).params.cpu.toNat = p.cpu.val ∧ ∀ q, q ≠ p → (st.held q).count t = 0) ∧
      ((st.task t).running = false → ∀ p, (st.held p).count t = 0) := by
  have h := placed_of_run hnone hrun
  refine ⟨fun hrunning => ?_, fun hblocked p => ?_⟩
  · obtain ⟨p, hp, hunique⟩ := h.sound.existsUnique ⟨hreal, hrunning⟩
    refine ⟨p, Multiset.count_eq_one_of_mem (h.sound.nodup p) hp, h.partition p t hp,
      fun q hq => ?_⟩
    exact Multiset.count_eq_zero_of_notMem fun ht => hq (hunique q ht)
  · apply Multiset.count_eq_zero_of_notMem
    exact h.sound.not_mem (fun hl => Bool.noConfusion (hblocked.symm.trans hl.2)) p

theorem psnedf_no_task_lost_woken :
    ∃ st : PsnState 1, Run PsnStep (init noPsnTasks 1)
        [newPrecise 1, .execute 0 5, .block 0 5, .taskWakeUp 1 false 10 10] st ∧
      ∃ p, (st.held p).count 1 = 1 ∧ ∀ q, q ≠ p → (st.held q).count 1 = 0 := by
  refine Run.exists_of_check (Q := fun st => (st.task 1).realtime = true ∧
      (st.task 1).running = true) (fun _ _ _ hl hx => ⟨of_decide_eq_true hl, hx⟩)
    (by decide +kernel) fun st hrun hst => ?_
  obtain ⟨p, hp, -, hq⟩ := (psnedf_no_task_lost (fun _ => rfl) hrun 1 hst.1).1 hst.2
  exact ⟨p, hp, hq⟩

end Litmus.PsnEdf
