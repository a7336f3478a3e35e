import Litmus.PfairSubtasks

/-!
# Admission to PFAIR

`pfair_admit_task` rounds the cost of a task up and its period down, each on its own, and makes a
task whose quanta fill its period a single subtask of one quantum.  The windows are those of PD²
unless the cost comes out above the period, and the jobs keep pace with the quanta unless such a
task has more than one quantum in its period.
-/

namespace Litmus.Pfair

open Runs Function

/-! ### The weight of a task -/

/-- `pfair_admit_task`: the `quanta` and `period` that it sets up; `none` is `-EINVAL`.  An
    `unsigned long` has `w` bits. -/
def admitWords (w : Nat) (quantumLength : BitVec 64) (params : TaskParams) :
    Option (LtTime × LtTime) :=
  let quanta := ((doDivUp params.execCost quantumLength).setWidth w).setWidth 64
  let period := (doDiv params.period quantumLength).1
  if pfairMaxPeriod ≤ period.toNat then none
  else some (if quanta = period then (1, 1) else (quanta, period))

/-- The parameters are a weight of at most 1.0, and `init_subtask` computes a window for each
    subtask without an underflow. -/
structure Schedulable (w : Nat) (quanta period : LtTime) : Prop where
  quanta_pos : 1 ≤ quanta.toNat
  quanta_le : quanta.toNat ≤ period.toNat
  period_lt : period.toNat < pfairMaxPeriod
  window : ∀ i < quanta.toNat,
    (subtaskAt w quanta period i).release < (subtaskAt w quanta period i).deadline
  overlap : ∀ i < quanta.toNat,
    ((doDiv (period * (BitVec.ofNat w i + 1).setWidth 64) quanta).1.setWidth w).toNat ≤
      (subtaskAt w quanta period i).deadline
  group : ∀ i < quanta.toNat, period ≤ 2 * quanta →
    (BitVec.ofNat w i + 1).toNat ≤ (subtaskAt w quanta period i).deadline

section Weight

variable {w : Nat} {quanta period : LtTime}

theorem Schedulable.of_le (hw : 32 ≤ w) (hp : 1 ≤ quanta.toNat)
    (hle : quanta.toNat ≤ period.toNat) (hma : period.toNat < pfairMaxPeriod) :
    Schedulable w quanta period := by
  have hn : ∀ i, BitVec.ofNat w i + 1 = BitVec.ofNat w (i + 1) :=
    fun i => (BitVec.ofNat_add i 1).symm
  have hd : ∀ i < quanta.toNat, (subtaskAt w quanta period i).deadline =
      (period.toNat * (i + 1)) ⌈/⌉ quanta.toNat := by
    intro i hi
    rw [← toNat_deadlineWord hw hi hle hma, ← hn]
    rfl
  have hsma : pfairMaxPeriod = 2000 := rfl
  refine ⟨hp, hle, hma, fun i hi => ?_, fun i hi => ?_, fun i hi _ => ?_⟩
  · have hre : (subtaskAt w quanta period i).release = period.toNat * i / quanta.toNat :=
      toNat_floorWord hw (by omega) (hle.trans_lt hma) hma
    rw [hre, hd i hi, Nat.div_lt_iff_lt_mul hp, mul_comm _ quanta.toNat]
    calc period.toNat * i
        < period.toNat * (i + 1) := Nat.mul_lt_mul_of_pos_left (Nat.lt_succ_self i) (by omega)
      _ ≤ quanta.toNat * ((period.toNat * (i + 1)) ⌈/⌉ quanta.toNat) :=
          (ceilDiv_le_iff_le_mul hp).mp le_rfl
  · rw [hn, toNat_floorWord hw (by omega) (hle.trans_lt hma) hma, hd i hi,
      ← Nat.floorDiv_eq_div]
    exact floorDiv_le_ceilDiv
  rw [hn, toNat_ofNat_small hw (by omega), hd i hi, ← divUp_eq hp]
  exact (deadline_bounds hi hle).1

theorem admit_cases {tick lastQuantum lastCpu : Nat} {params : TaskParams} {q : PfairParam}
    (h : pfairAdmitTask tick params lastQuantum lastCpu = some q) :
    (time2quanta tick params.execCost.toNat .ceil = params.period.toNat / tick ∧
        q.quanta = 1 ∧ q.period = 1) ∨
      time2quanta tick params.execCost.toNat .ceil ≠ params.period.toNat / tick ∧
        q.quanta = time2quanta tick params.execCost.toNat .ceil ∧
        q.period = params.period.toNat / tick := by
  simp only [pfairAdmitTask] at h
  split at h
  · cases h
  cases h
  by_cases heq : time2quanta tick params.execCost.toNat .ceil = params.period.toNat / tick
  · exact .inl ⟨heq, by rw [if_pos heq], by rw [if_pos heq]⟩
  exact .inr ⟨heq, by rw [if_neg heq], by rw [if_neg heq]⟩

theorem doDiv_cut (tmp base : BitVec 64) :
    doDiv tmp ((base.setWidth 32).setWidth 64) = doDiv tmp base := by
  simp [doDiv]

/-- In words, with the divisor that `do_div` cuts to 32 bits, the admission is the one of the
    model. -/
theorem admitWords_spec {tick : BitVec 64} {params : TaskParams} (hw : 32 ≤ w)
    (htic : tick.setWidth 32 ≠ 0) (hle : params.execCost ≤ params.period)
    (h : admitWords w tick params = some (quanta, period)) (lastQuantum lastCpu : Nat) :
    ∃ q, pfairAdmitTask (tick.setWidth 32).toNat params lastQuantum lastCpu = some q ∧
      q.quanta = quanta.toNat ∧ q.period = period.toNat := by
  obtain ⟨base, hba⟩ : ∃ base : BitVec 64, base = (tick.setWidth 32).setWidth 64 := ⟨_, rfl⟩
  have hna : base.toNat = (tick.setWidth 32).toNat := by
    rw [hba, toNat_setWidth_small (by decide) (BitVec.isLt _)]
  have hp : 0 < base.toNat := by
    rw [hna]
    exact Nat.pos_of_ne_zero fun hz => htic (BitVec.eq_of_toNat_eq hz)
  have hlt : base.toNat < 2 ^ 32 := hna ▸ BitVec.isLt _
  have hcs : (doDivUp params.execCost tick).toNat =
      time2quanta base.toNat params.execCost.toNat .ceil := by
    have hup := @toNat_doDivUp params.execCost base hp hlt
    rw [doDivUp, hba, doDiv_cut, ← hba, ← divUp_eq hp] at hup
    simpa [doDivUp, time2quanta, divUp] using hup
  have hpd : (doDiv params.period tick).1.toNat = params.period.toNat / base.toNat := by
    rw [← doDiv_cut, ← hba, toNat_doDiv hlt]
  have hrou : time2quanta base.toNat params.execCost.toNat .ceil ≤
      params.period.toNat / base.toNat + 1 := by
    have := Nat.div_le_div_right (c := base.toNat) (BitVec.le_def.mp hle)
    unfold time2quanta
    split <;> omega
  simp only [admitWords] at h
  split at h
  · cases h
  rename_i hma
  rw [hpd] at hma
  have hsma : pfairMaxPeriod = 2000 := rfl
  have hlon : ((doDivUp params.execCost tick).setWidth w).toNat =
      time2quanta base.toNat params.execCost.toNat .ceil := by
    rw [toNat_setWidth_small hw (by omega), hcs]
  have hqu : (((doDivUp params.execCost tick).setWidth w).setWidth 64).toNat =
      time2quanta base.toNat params.execCost.toNat .ceil := by
    rw [toNat_setWidth_small (by decide) (by omega), hlon]
  obtain ⟨q, hq⟩ : ∃ q, pfairAdmitTask base.toNat params lastQuantum lastCpu = some q :=
    ⟨_, if_neg hma⟩
  refine ⟨q, hna ▸ hq, ?_⟩
  rcases admit_cases hq with ⟨heq, hq1, hq2⟩ | ⟨hne, hq1, hq2⟩
  · rw [if_pos (BitVec.eq_of_toNat_eq (hqu.trans (heq.trans hpd.symm)))] at h
    cases h
    exact ⟨hq1, hq2⟩
  rw [if_neg fun he => hne (hqu.symm.trans ((congrArg BitVec.toNat he).trans hpd))] at h
  cases h
  exact ⟨hq1.trans hqu.symm, hq2.trans hpd.symm⟩

end Weight

/-- An admitted task has a weight of at most 1.0, and proper windows, if and only if its cost
    rounded up does not exceed its period rounded down. -/
theorem pfair_admit_schedulable_iff {w : Nat} (hw : 32 ≤ w) {tick : BitVec 64}
    (htick : tick.setWidth 32 ≠ 0) {params : TaskParams} (hcost : params.execCost ≠ 0)
    (hle : params.execCost ≤ params.period) {quanta period : LtTime}
    (hadm : admitWords w tick params = some (quanta, period)) :
    Schedulable w quanta period ↔ time2quanta (tick.setWidth 32).toNat params.execCost.toNat .ceil ≤
        time2quanta (tick.setWidth 32).toNat params.period.toNat .floor := by
  obtain ⟨q, hq, hquanta, hperiod⟩ := admitWords_spec hw htick hle hadm 0 0
  have hpos : 0 < (tick.setWidth 32).toNat :=
    Nat.pos_of_ne_zero fun hz => htick (BitVec.eq_of_toNat_eq hz)
  obtain ⟨hwf, -⟩ := Wf.admitted hpos hcost hq
  have hfloor : time2quanta (tick.setWidth 32).toNat params.period.toNat .floor =
      params.period.toNat / (tick.setWidth 32).toNat := if_neg fun h => Round.noConfusion h.2
  rw [hfloor]
  have hfit : q.quanta ≤ q.period ↔
      time2quanta (tick.setWidth 32).toNat params.execCost.toNat .ceil ≤
        params.period.toNat / (tick.setWidth 32).toNat := by
    rcases admit_cases hq with ⟨heq, hq₁, hq₂⟩ | ⟨-, hq₁, hq₂⟩
    · rw [hq₁, hq₂, heq]
      exact iff_of_true le_rfl le_rfl
    rw [hq₁, hq₂]
  rw [← hfit, hquanta, hperiod]
  refine ⟨Schedulable.quanta_le, fun h => ?_⟩
  exact Schedulable.of_le hw (hquanta ▸ hwf.quanta_pos) h (hperiod ▸ hwf.period_lt)

/-- The parameters of a task whose only other field is its CPU. -/
def taskOf (execCost period : LtTime) : TaskParams :=
  { cpu := 0, period, execCost, budgetPolicy := .noEnforcement }

/-- Quanta of 1 ms: two and a half of at most seven. -/
theorem pfair_admit_schedulable_iff_light :
    admitWords 64 1000000 (taskOf 2500000 7900000) = some (3, 7) ∧ Schedulable 64 3 7 :=
  ⟨rfl, (@pfair_admit_schedulable_iff 64 (by decide) 1000000 (by decide) (taskOf 2500000 7900000)
    (by decide) (by decide) 3 7 rfl).mpr (by decide)⟩

/-- Two quanta in a period of one, and one quantum in a period of none. -/
theorem pfair_admit_heavier_than_one :
    (admitWords 64 1000000 (taskOf 1500000 1900000) = some (2, 1) ∧
      (subtaskAt 64 2 1 1).deadline = 1 ∧ (subtaskAt 64 2 1 1).groupDeadline = 2 ^ 64 - 1) ∧
    admitWords 64 1000000 (taskOf 300000 500000) = some (1, 0) ∧
      (subtaskAt 64 1 0 0).release = (subtaskAt 64 1 0 0).deadline := by
  decide

/-! ### The jobs of a task -/

variable {n : Nat}

/-- The task is advanced in a quantum in which it is present; `advance_subtasks` notes the
    quantum and the CPU before it calls `advance_subtask`. -/
def AdvanceStep (t : TaskId) (st : State n) (quantum : Nat × Fin n) (st' : State n) : Prop :=
  (st.task t).present = true ∧ ∃ toRelq, (st.modify t fun p => p.setPfair fun q =>
    { q with lastQuantum := quantum.1, lastCpu := quantum.2 }).advanceSubtask quantum.1 t =
      some (toRelq, st')

/-- The parameters of the task are those that `pfair_admit_task` has set up. -/
def PfairTask.Admitted (tick : Nat) (p : PfairTask n) : Prop :=
  ∃ q, pfairAdmitTask tick p.params p.pfair.lastQuantum p.pfair.lastCpu = some q ∧
    p.pfair.quanta = q.quanta ∧ p.pfair.period = q.period

/-- The task `p` after `k` quanta since it was released as `p₀`. -/
structure Progress (p₀ p : PfairTask n) (k : Nat) : Prop where
  params : p.params = p₀.params
  quanta : p.pfair.quanta = p₀.pfair.quanta
  period : p.pfair.period = p₀.pfair.period
  cur : p.pfair.cur = k % p₀.pfair.quanta
  release : p.pfair.release = p₀.pfair.release + k / p₀.pfair.quanta * p₀.pfair.period
  jobNo : p.job.jobNo = p₀.job.jobNo + BitVec.ofNat _ (k / p₀.pfair.quanta)
  jobRelease : p.job.release = p₀.job.release +
    BitVec.ofNat _ (k / p₀.pfair.quanta) * p₀.params.period
  deadline : p.job.deadline = p.job.release + p₀.params.period

section Jobs

variable {t : TaskId} {st st' : State n} {p₀ p : PfairTask n} {k : Nat}

theorem AdvanceStep.task_eq {quantum : Nat × Fin n} (h : AdvanceStep t st quantum st') :
    st'.task t = (st.task t).advanced quantum.1 quantum.2 := by
  obtain ⟨hpre, toRelq, heq⟩ := h
  rw [State.advanceSubtask_present (.inl hpre)] at heq
  cases heq
  exact State.task_modify_self _ _ _

theorem Progress.advanced (h : Progress p₀ p k) (time : Nat) (cpu : Fin n) :
    Progress p₀ (p.advanced time cpu) (k + 1) := by
  have hcu : (p.pfair.cur + 1) % p.pfair.quanta = (k + 1) % p₀.pfair.quanta := by
    rw [h.cur, h.quanta, Nat.mod_add_mod]
  by_cases hdv : p₀.pfair.quanta ∣ k + 1
  · -- the last quantum of a job
    have hwra := hcu.trans (Nat.mod_eq_zero_of_dvd hdv)
    have hjo : (k + 1) / p₀.pfair.quanta = k / p₀.pfair.quanta + 1 := by
      rw [Nat.succ_div, if_pos hdv]
    refine ⟨?_, h.quanta, h.period, hcu, ?_, ?_, ?_, ?_⟩ <;>
      simp [PfairTask.advanced, PfairParam.advanced, if_pos hwra, hjo]
    · exact h.params
    · rw [h.release, h.period, Nat.add_one_mul, add_assoc]
    · change p.job.jobNo + 1 = _
      rw [h.jobNo, BitVec.ofNat_add]
      exact BitVec.add_assoc _ _ _
    · change p.job.deadline = _
      rw [h.deadline, h.jobRelease, BitVec.ofNat_add, BitVec.add_mul, BitVec.one_mul,
        BitVec.add_assoc]
    · change p.job.deadline + p.params.period = p.job.deadline + p₀.params.period
      rw [h.params]
  have hin : (p.pfair.cur + 1) % p.pfair.quanta ≠ 0 :=
    fun hz => hdv (Nat.dvd_of_mod_eq_zero (hcu.symm.trans hz))
  have hjo : (k + 1) / p₀.pfair.quanta = k / p₀.pfair.quanta := by
    rw [Nat.succ_div, if_neg hdv, add_zero]
  refine ⟨?_, h.quanta, h.period, hcu, ?_, ?_, ?_, ?_⟩ <;>
    simp [PfairTask.advanced, PfairParam.advanced, if_neg hin, hjo]
  · exact h.params
  · exact h.release
  · exact h.jobNo
  · exact h.jobRelease
  · exact h.deadline

theorem Progress.of_run {quanta : List (Nat × Fin n)} (hsa : Progress (st.task t) (st.task t) 0)
    (hr : Run (AdvanceStep t) st quanta st') : Progress (st.task t) (st'.task t) quanta.length := by
  induction hr with
  | nil => exact hsa
  | snoc _ hla ih =>
    rw [hla.task_eq, List.length_append]
    exact ih.advanced _ _

theorem task_of_pfairReleaseAt {start : LtTime} (h : st.pfairReleaseAt t start = some st') :
    st'.task t = (((st.task t).setRt (RtTask.releaseAt start)).prepareRelease
      (st.releaseQuantum start)).setPfair fun q => { q with sporadicRelease := false } := by
  unfold State.pfairReleaseAt at h
  obtain ⟨st1, hdr, h⟩ := Option.bind_eq_some_iff.mp h
  obtain ⟨st2, hfi, rfl⟩ := Option.map_eq_some_iff.mp h
  have hdr : st1.task t = (st.task t).setRt (RtTask.releaseAt start) := by
    unfold State.dropAllReferences at hdr
    refine Eq.trans ?_ (State.task_modify_self st t _)
    split_ifs at hdr
    · obtain ⟨H, -, rfl⟩ := Option.map_eq_some_iff.mp hdr
      rfl
    · obtain ⟨H, -, rfl⟩ := Option.map_eq_some_iff.mp hdr
      rfl
    cases hdr
    rfl
  unfold State.pfairAddRelease at hfi
  split at hfi
  · cases hfi
  cases hfi
  rw [State.task_modify_self, ← hdr]
  exact congrArg _ (State.task_modify_self _ _ _)

end Jobs

/-- Since it was released at `start`, a task that is always present has run one job for each
    period's worth of quanta, and its job parameters and its quanta have advanced together.  A
    task of weight 1.0 must have a period of one quantum. -/
theorem job_params_in_step {t : TaskId} {start : LtTime} {st₀ st₁ st : State n}
    {quanta : List (Nat × Fin n)} (htick : 0 < st₀.tickPeriod)
    (hadmitted : (st₀.task t).Admitted st₀.tickPeriod)
    (hmultiple : st₀.tickPeriod ∣ (st₀.task t).params.period.toNat)
    (hweight : time2quanta st₀.tickPeriod (st₀.task t).params.execCost.toNat .ceil =
      (st₀.task t).params.period.toNat / st₀.tickPeriod →
        (st₀.task t).params.period.toNat = st₀.tickPeriod)
    (hrelease : st₀.pfairReleaseAt t start = some st₁)
    (hrun : Run (AdvanceStep t) st₁ quanta st) :
    let jobs := quanta.length / time2quanta st₀.tickPeriod (st₀.task t).params.execCost.toNat .ceil
    (st.task t).job.jobNo = (st₁.task t).job.jobNo + BitVec.ofNat _ jobs ∧
      (st.task t).job.release = start + BitVec.ofNat _ jobs * (st₀.task t).params.period ∧
      (st.task t).pfair.release = (st₁.task t).pfair.release +
        jobs * ((st₀.task t).params.period.toNat / st₀.tickPeriod) ∧
      (st.task t).job.release - BitVec.ofNat _ (st₀.tickPeriod * (st.task t).pfair.release) =
        start - BitVec.ofNat _ (st₀.tickPeriod * (st₁.task t).pfair.release) := by
  intro jobs
  have hreleased := task_of_pfairReleaseAt hrelease
  obtain ⟨q, hq, hquanta, hperiod⟩ := hadmitted
  have hself : (st₁.task t).pfair.quanta = q.quanta ∧ (st₁.task t).pfair.period = q.period ∧
      (st₁.task t).params = (st₀.task t).params ∧ (st₁.task t).job.release = start := by
    rw [hreleased]
    exact ⟨hquanta, hperiod, rfl, rfl⟩
  obtain ⟨hself₁, hself₂, hparams, hstart⟩ := hself
  have hfirst : Progress (st₁.task t) (st₁.task t) 0 := by
    rw [hreleased]
    exact ⟨rfl, rfl, rfl, (Nat.zero_mod _).symm, by simp, by simp, by simp, rfl⟩
  have hprogress := hfirst.of_run hrun
  have hfull : q.quanta = time2quanta st₀.tickPeriod (st₀.task t).params.execCost.toNat .ceil ∧
      q.period = (st₀.task t).params.period.toNat / st₀.tickPeriod := by
    rcases admit_cases hq with ⟨heq, hq₁, hq₂⟩ | ⟨-, hq₁, hq₂⟩
    · have hone : (st₀.task t).params.period.toNat / st₀.tickPeriod = 1 := by
        rw [hweight heq, Nat.div_self htick]
      rw [hq₁, hq₂, heq, hone]
      exact ⟨rfl, rfl⟩
    exact ⟨hq₁, hq₂⟩
  have hjobs : quanta.length / (st₁.task t).pfair.quanta = jobs := by rw [hself₁, hfull.1]
  have hjobNo := hprogress.jobNo
  have hjobRelease := hprogress.jobRelease
  have hquantaRelease := hprogress.release
  rw [hjobs] at hjobNo hjobRelease hquantaRelease
  rw [hparams, hstart] at hjobRelease
  rw [hself₂, hfull.2] at hquantaRelease
  refine ⟨hjobNo, hjobRelease, hquantaRelease, ?_⟩
  have hticks : st₀.tickPeriod * ((st₁.task t).pfair.release +
      jobs * ((st₀.task t).params.period.toNat / st₀.tickPeriod)) =
      st₀.tickPeriod * (st₁.task t).pfair.release + jobs * (st₀.task t).params.period.toNat := by
    rw [Nat.mul_add, Nat.mul_left_comm, Nat.mul_div_cancel' hmultiple]
  rw [hjobRelease, hquantaRelease, hticks, BitVec.ofNat_add, BitVec.ofNat_mul jobs,
    BitVec.ofNat_toNat, BitVec.setWidth_eq, add_sub_add_right_eq_sub]

/-- Task 1 of a machine with one CPU and quanta of 1 ms, before it is released at 5 ms. -/
def firstTask (execCost period : LtTime) : State 1 :=
  ((State.init 0 0 1000000).taskNew 1 (taskOf execCost period) (some (Fin.last 0)) 0 0).getD
    (State.init 0 0 1000000)

/-- Two quanta of three: the second job after two quanta. -/
theorem job_params_in_step_two_of_three :
    ∃ st₁ st : State 1, (firstTask 2000000 3000000).pfairReleaseAt 1 5000000 = some st₁ ∧
      Run (AdvanceStep 1) st₁ [(5, 0), (6, 0)] st ∧
      (st.task 1).job.release = 5000000 + 1 * 3000000 ∧
      (st.task 1).pfair.release = (st₁.task 1).pfair.release + 1 * 3 := by
  obtain ⟨st₁, st, hrelease, hrun⟩ : ∃ st₁ st : State 1,
      (firstTask 2000000 3000000).pfairReleaseAt 1 5000000 = some st₁ ∧
        Run (AdvanceStep 1) st₁ [(5, 0), (6, 0)] st :=
    ⟨_, _, rfl, .cons ⟨rfl, _, rfl⟩ (.cons ⟨rfl, _, rfl⟩ .nil)⟩
  have hs := @job_params_in_step 1 1 5000000 (firstTask 2000000 3000000) st₁ st _ (by decide)
    ⟨_, rfl, rfl, rfl⟩ (by decide) (by decide) hrelease hrun
  exact ⟨st₁, st, hrelease, hrun, hs.2.1, hs.2.2.1⟩

/-- Two quanta of two: each quantum is a job of 2 ms in the job parameters and of one quantum in
    `pfair_param`. -/
theorem job_params_out_of_step :
    ∃ st₁ st : State 1, (firstTask 2000000 2000000).pfairReleaseAt 1 5000000 = some st₁ ∧
      Run (AdvanceStep 1) st₁ [(5, 0), (6, 0)] st ∧
      (st.task 1).job.jobNo = (st₁.task 1).job.jobNo + 2 ∧
      (st.task 1).job.release = 5000000 + 2 * 2000000 ∧
      (st.task 1).pfair.release = (st₁.task 1).pfair.release + 2 :=
  ⟨_, _, rfl, .cons ⟨rfl, _, rfl⟩ (.cons ⟨rfl, _, rfl⟩ .nil), rfl, rfl, rfl⟩

end Litmus.Pfair
