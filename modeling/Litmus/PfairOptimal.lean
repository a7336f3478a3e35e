import Litmus.PfairHistory

/-!
# PFAIR schedules every subtask in its window

The links follow the PD² rule, so every subtask is linked in its window as long as the tasks
do not claim more than all CPUs together.
-/

namespace Litmus.Pfair

open Runs ProportionateFair

variable {n : Nat}

theorem unit_inj {quanta job job' i j : Nat} (hi : i < quanta) (hj : j < quanta)
    (h : job * quanta + i = job' * quanta + j) : job = job' ∧ i = j := by
  have hsp : ∀ a b, b < quanta → (a * quanta + b) / quanta = a ∧ (a * quanta + b) % quanta = b :=
    fun a b hb => (Nat.div_mod_unique (Nat.zero_lt_of_lt hb)).mpr
      ⟨by rw [add_comm, mul_comm], hb⟩
  obtain ⟨hdi, hmo⟩ := hsp job i hi
  rw [h] at hdi hmo
  exact ⟨hdi.symm.trans (hsp job' j hj).1, hmo.symm.trans (hsp job' j hj).2⟩

namespace History

variable {h : History n} {t : TaskId}

theorem Good.share_eq (hg : Good h) (ht : t ∈ h.tasks) :
    h.share t =
      { quanta := (h.st.task t).pfair.quanta, period := (h.st.task t).pfair.period
        start := h.start t
        quanta_pos := (hg.inv.shaped t ((hg.real t).mpr ht)).quanta_pos
        quanta_le := hg.fit t ht } :=
  Pfair.share_eq _ _ _

theorem Good.weight_le (hg : Good h)
    (hwei : ∑ t ∈ h.tasks, ((h.st.task t).pfair.quanta : ℚ) / (h.st.task t).pfair.period ≤ n) :
    ∑ t ∈ h.tasks, (h.share t).weight ≤ n := by
  refine (Finset.sum_congr rfl fun t ht => ?_).trans_le hwei
  rw [hg.share_eq ht]
  rfl

theorem Good.mem_tasks (hg : Good h) {l : Link n} (hl : l ∈ h.links) :
    l.task ∈ h.tasks ∧ l.task ∈ h.sched l.time ∧ l.time < h.st.curTick + 1 := by
  have hs : l.task ∈ h.sched l.time := mem_sched.mpr ⟨l, hl, rfl, rfl⟩
  have hlt := Nat.lt_succ_of_le (hg.past l hl)
  exact ⟨hg.greedy.sub l.time hlt hs, hs, hlt⟩

theorem Good.share_window (hg : Good h) (ht : t ∈ h.tasks) (job i : Nat) :
    (h.share t).release (job * (h.st.task t).pfair.quanta + i) =
        h.start t + job * (h.st.task t).pfair.period +
          (initSubtask i (h.st.task t).pfair.quanta (h.st.task t).pfair.period).release ∧
      (h.share t).deadline (job * (h.st.task t).pfair.quanta + i) =
        h.start t + job * (h.st.task t).pfair.period +
          (initSubtask i (h.st.task t).pfair.quanta (h.st.task t).pfair.period).deadline :=
  Pfair.share_window (hg.inv.shaped t ((hg.real t).mpr ht)).quanta_pos (hg.fit t ht) _ job i

end History

/-- Tasks that together claim at most all CPUs are released for quanta within the wheel and
    are present in every quantum.  Then every subtask is linked in its window as soon as the
    window has passed, in no other quantum and on one CPU only, and the scheduler never gets
    stuck. -/
theorem pfair_links_in_windows {q mergeTime tickPeriod : Nat} (hm : mergeTime ≤ q)
    (htick : 0 < tickPeriod) {ops : List (Op n)} {h : History n}
    (hrun : Run History.Step (History.init q mergeTime tickPeriod) ops h)
    (hweight : ∑ t ∈ h.tasks, ((h.st.task t).pfair.quanta : ℚ) / (h.st.task t).pfair.period ≤ n) :
    (∀ l ∈ h.links, let p := (h.st.task l.task).pfair
      l.cur < p.quanta ∧ (∃ job, l.release = h.start l.task + job * p.period) ∧
        l.release + (initSubtask l.cur p.quanta p.period).release ≤ l.time ∧
        l.time < l.release + (initSubtask l.cur p.quanta p.period).deadline) ∧
      (∀ t ∈ h.tasks, ∀ job, ∀ i < (h.st.task t).pfair.quanta, let p := (h.st.task t).pfair
        h.start t + job * p.period + (initSubtask i p.quanta p.period).deadline ≤ h.st.curTick + 1 →
          ∃ l ∈ h.links, l.task = t ∧ l.release = h.start t + job * p.period ∧ l.cur = i) ∧
      (∀ l ∈ h.links, ∀ l' ∈ h.links, l.task = l'.task → l.release = l'.release →
        l.cur = l'.cur → l = l') ∧
      ∀ op, h.st.Legal op = true → h.Allowed op = true → ∃ h', History.Step h op h' := by
  have hg : h.Good := History.Good.run hm htick hrun
  have hweight := hg.weight_le hweight
  refine ⟨?_, ?_, ?_, ?_⟩
  · intro l hl
    obtain ⟨ht, hs, hlt⟩ := hg.mem_tasks hl
    obtain ⟨hcur, job, hrelease, hunit⟩ := hg.link l hl
    obtain ⟨hfrom, huntil⟩ := hg.greedy.in_window hweight hlt hs
    obtain ⟨hr, hd⟩ := hg.share_window ht job l.cur
    rw [hunit, hr, ← hrelease] at hfrom
    rw [hunit, hd, ← hrelease] at huntil
    exact ⟨hcur, ⟨job, hrelease⟩, hfrom, huntil⟩
  · intro t ht job i hi p hdeadline
    rw [← (hg.share_window ht job i).2] at hdeadline
    obtain ⟨s, _, hs, hunit⟩ := exists_slot (hg.greedy.on_time hweight (le_refl _) ht hdeadline)
    obtain ⟨l, hl, rfl, rfl⟩ := History.mem_sched.mp hs
    obtain ⟨hcur, job', hrelease, hunit'⟩ := hg.link l hl
    obtain ⟨rfl, rfl⟩ := unit_inj hi hcur (hunit.symm.trans hunit')
    exact ⟨l, hl, rfl, hrelease, rfl⟩
  · intro l hl l' hl' htask hrelease hcur
    obtain ⟨ht, hs, _⟩ := hg.mem_tasks hl
    obtain ⟨_, hs', _⟩ := hg.mem_tasks hl'
    obtain ⟨_, job, hjob, hunit⟩ := hg.link l hl
    obtain ⟨_, job', hjob', hunit'⟩ := hg.link l' hl'
    rw [← htask] at hs' hjob' hunit'
    have hperiod : 0 < (h.st.task l.task).pfair.period :=
      (hg.inv.shaped _ ((hg.real _).mpr ht)).quanta_pos.trans_le (hg.fit _ ht)
    have hsame : job = job' := by
      rw [hrelease, hjob'] at hjob
      exact (Nat.eq_of_mul_eq_mul_right hperiod (add_left_cancel hjob)).symm
    rw [← hsame, ← hcur, ← hunit] at hunit'
    exact hg.once l hl l' hl' (slot_unique hs hs' hunit'.symm) htask
  · intro op hlegal hallowed
    obtain ⟨fuel, st', hst', _⟩ := hg.step hlegal hallowed
    exact ⟨_, hallowed, st', ⟨hlegal, fuel, hst'⟩, rfl⟩

def execAllowed (h : History n) (op : Op n) : Option (History n) := (h.st.exec 3 op).map (h.next op)

/-- One task of half a CPU, admitted with garbage in `last_quantum`: its first subtask is
    linked before its window has passed. -/
theorem pfair_links_in_windows_half :
    ∃ (ops : List (Op 1)) (h : History 1), (0 ≤ 0 ∧ 0 < 1000000) ∧
      Run History.Step (History.init 0 0 1000000) ops h ∧
      (∑ t ∈ h.tasks, ((h.st.task t).pfair.quanta : ℚ) / (h.st.task t).pfair.period ≤ (1 : Nat)) ∧
      ∃ l ∈ h.links, l.task = 7 ∧ l.release = 1 ∧ l.cur = 0 := by
  obtain ⟨h, hrun, hcheck⟩ := @Run.of_check _ _ History.Step
    (fun h op => h.st.Legal op && h.Allowed op) execAllowed
    (fun h op h' hok hx => by
      obtain ⟨hl, hallowed⟩ := Bool.and_eq_true_iff.mp hok
      obtain ⟨st', hst', rfl⟩ := Option.map_eq_some_iff.mp hx
      exact ⟨hallowed, st', ⟨hl, 3, hst'⟩, rfl⟩)
    [.taskNew 7 { execCost := 1000000, period := 2000000, cpu := 0, budgetPolicy := .noEnforcement }
      (some 0) 99 5, .advanceTime, .quantum, .copy 0, .schedule 0, .advanceTime, .quantum]
    (History.init 0 0 1000000 : History 1)
    (fun h => decide (h.tasks = {7} ∧ h.start 7 = 1 ∧ h.st.curTick = 2 ∧
      (h.st.task 7).pfair.quanta = 1 ∧ (h.st.task 7).pfair.period = 2)) (by decide +kernel)
  obtain ⟨htasks, hstart, htick, hquanta, hperiod⟩ := of_decide_eq_true hcheck
  have hweight : ∑ t ∈ h.tasks,
      ((h.st.task t).pfair.quanta : ℚ) / (h.st.task t).pfair.period ≤ (1 : Nat) := by
    rw [htasks, Finset.sum_singleton, hquanta, hperiod]
    norm_num
  refine ⟨_, h, ⟨by decide, by decide⟩, hrun, hweight, ?_⟩
  have hlinked := (pfair_links_in_windows (by decide) (by decide) hrun hweight).2.1 7
    (by rw [htasks]; exact Finset.mem_singleton_self 7) 0 0 (by rw [hquanta]; exact one_pos)
  simp only [hquanta, hperiod, hstart, htick, zero_mul, add_zero] at hlinked
  exact hlinked (by decide)

/-- A release far in the future is cut to a whole turn of the wheel after `pfair_time`; if that
    quantum is not merged yet, the task is linked 2000 quanta before its release. -/
theorem pfair_release_at_turn_ahead :
    ∃ (ops : List (Op 1)) (st : State 1), Run Step (State.init 0 0 1000000) ops st ∧
      st.linked 0 = some 7 ∧ st.curTick = 1 ∧ (st.task 7).present = true ∧
      (st.task 7).pfair.quanta = 1 ∧ (st.task 7).pfair.period = 2 ∧
      (st.task 7).pfair.release = 2001 ∧ (st.task 7).curRelease = 2001 := by
  obtain ⟨st, hrun, hcheck⟩ := @Run.of_check _ _ Step State.Legal (State.exec 3)
    (fun st op st' hl h => ⟨hl, 3, h⟩)
    [.taskNew 7 { execCost := 1000000, period := 2000000, cpu := 0, budgetPolicy := .noEnforcement }
      (some 0) 99 5, .advanceTime, .releaseAt 7 3000000000, .quantum]
    (State.init 0 0 1000000 : State 1)
    (fun st => decide (st.linked 0 = some 7 ∧ st.curTick = 1 ∧ (st.task 7).present = true ∧
      (st.task 7).pfair.quanta = 1 ∧ (st.task 7).pfair.period = 2 ∧
      (st.task 7).pfair.release = 2001 ∧ (st.task 7).curRelease = 2001)) (by decide +kernel)
  exact ⟨_, st, hrun, of_decide_eq_true hcheck⟩

end Litmus.Pfair
