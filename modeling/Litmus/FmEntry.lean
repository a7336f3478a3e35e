import Litmus.FmDecision

/-!
# Admission and wake-up in EDF-fm

No step of the admission looks at the CPUs and fractions of a migratory task.  With sensible ones
its arithmetic is exact and it stays on its two CPUs.  A wake-up asks for a preemption only where
it inserts the task on another CPU: `edf_domain_init` was given no `check_resched`.
-/

namespace Litmus.EdfFm

open FmTask Runs Function

/-! ### Admission -/

/-- `sys_set_rt_task_param`, `litmus_admit_task` and `edffm_admit_task` for a task that is on
    `taskCpu`.  The policies are those of `BudgetPolicy`. -/
def admits (cpuOnline : BitVec 32 → Bool) (taskCpu : BitVec 32) (t : FmTask) : Bool :=
  t.params.execCost != 0 && t.params.period != 0 && cpuOnline t.params.cpu &&
    !decide (t.params.period < t.params.execCost) && taskCpu == t.params.cpu

/-- What starts a job of an admitted task. -/
inductive FmJobOp where
  | complete
  | wakeUp (now : LtTime)
  | releaseAt (start : LtTime)

def FmJobOp.exec (t : FmTask) : FmJobOp → Option FmTask
  | .complete => t.jobCompletion
  | .wakeUp now => FmState.wakeJob now t
  | .releaseAt start => some (t.releaseAt start)

def FmJobStep (t : FmTask) (op : FmJobOp) (t' : FmTask) : Prop := op.exec t = some t'

/-- The division and the product of `next_cpu_for_job`, which comes after
    `update_job_counter`. -/
structure NextCpuSafe (t : FmTask) : Prop where
  divisor : t.updateJobCounter.curCpuFractNum ≠ 0
  product : t.updateJobCounter.curCpuJobNo.toNat * t.updateJobCounter.curCpuFractDen.toNat < 2 ^ 64

/-- Fractions with 32-bit denominators, and a task on one of its CPUs. -/
structure Sensible (t : FmTask) : Prop where
  numerator : ∀ i, t.fraction 0 i ≠ 0
  denominator : ∀ i, (t.fraction 1 i).toNat ≤ 2 ^ 32
  home : ∃ i, t.params.cpu = t.cpus i

section

variable {t t' : FmTask} {op : FmJobOp}

theorem Sensible.nextCpuSafe (h : Sensible t) : NextCpuSafe t where
  divisor := by
    unfold curCpuFractNum
    split
    · exact h.numerator 0
    exact h.numerator 1
  product := by
    have hden : t.updateJobCounter.curCpuFractDen.toNat ≤ 2 ^ 32 := by
      unfold curCpuFractDen
      split
      · exact h.denominator 0
      exact h.denominator 1
    calc t.updateJobCounter.curCpuJobNo.toNat * t.updateJobCounter.curCpuFractDen.toNat
        ≤ t.updateJobCounter.curCpuJobNo.toNat * 2 ^ 32 := Nat.mul_le_mul_left _ hden
      _ < 2 ^ 32 * 2 ^ 32 := Nat.mul_lt_mul_of_pos_right (BitVec.isLt _) (by decide)

theorem fraction_of_map {f : FmTask → FmTask}
    (h : (if t.isMigratTask then t.updateJobCounter.changeMigratCpuIfNeeded else some t).map f =
      some t') (hf : ∀ q, (f q).fraction = q.fraction) : t'.fraction = t.fraction := by
  obtain ⟨q, hq, rfl⟩ := Option.map_eq_some_iff.mp h
  rw [hf]
  split at hq
  · unfold changeMigratCpuIfNeeded at hq
    split at hq
    · cases hq
    obtain ⟨next, -, rfl⟩ := Option.map_eq_some_iff.mp hq
    split <;> rfl
  cases hq
  rfl

theorem Sensible.step (h : Sensible t) (hs : FmJobStep t op t') :
    Sensible t' ∧ t'.cpus = t.cpus := by
  have hmo : ∀ {p : FmTask}, FmState.Rehomed t p → p.fraction = t.fraction →
      Sensible p ∧ p.cpus = t.cpus := by
    intro p hp hfr
    refine ⟨⟨hfr ▸ h.numerator, hfr ▸ h.denominator, ?_⟩, hp.cpus⟩
    rw [hp.cpus]
    rcases hp.cpu with hsm | ⟨-, hc⟩
    · rw [hsm]
      exact h.home
    exact hc
  cases op with
  | complete =>
    exact hmo (FmState.rehomed_jobCompletion hs) (fraction_of_map hs fun _ => rfl)
  | wakeUp now =>
    refine hmo (FmState.rehomed_wakeJob hs) ?_
    change FmState.wakeJob now t = some t' at hs
    unfold FmState.wakeJob at hs
    split at hs
    · exact fraction_of_map hs fun _ => rfl
    cases hs
    rfl
  | releaseAt start =>
    cases hs
    exact ⟨⟨h.numerator, h.denominator, h.home⟩, rfl⟩

end

/-- The fractions and CPUs have to be sensible and the CPUs online.  Then every choice of the next
    CPU is safe, and the task stays on its two CPUs. -/
theorem migration_arithmetic_total {online : BitVec 32 → Bool} {t₀ t : FmTask} {now : LtTime}
    {ops : List FmJobOp} (hsensible : Sensible t₀) (honline : ∀ i, online (t₀.cpus i) = true)
    (hrun : Run FmJobStep (t₀.edffmTaskNew now) ops t) :
    NextCpuSafe t ∧ (t.params.cpu = t₀.cpus 0 ∨ t.params.cpu = t₀.cpus 1) ∧
      online t.params.cpu = true := by
  have hI : Sensible t ∧ t.cpus = t₀.cpus :=
    hrun.invariant (I := fun u => Sensible u ∧ u.cpus = t₀.cpus)
      (fun _ _ _ hu hs => ⟨(hu.1.step hs).1, (hu.1.step hs).2.trans hu.2⟩)
      ⟨⟨hsensible.numerator, hsensible.denominator, hsensible.home⟩, rfl⟩
  have hhome : ∃ i, t.params.cpu = t₀.cpus i := hI.2 ▸ hI.1.home
  refine ⟨hI.1.nextCpuSafe, Fin.exists_fin_two.mp hhome, ?_⟩
  obtain ⟨i, hi⟩ := hhome
  exact hi ▸ honline i

/-- A task on CPU `cpu` that may run on CPUs 0 and `second`, with fractions `num / den`. -/
def migratory (cpu second : BitVec 32) (num den : LtTime) : FmTask :=
  admitted { cpu := cpu, period := 10, execCost := 5, budgetPolicy := .noEnforcement }
    (fun i => if i.val = 0 then 0 else second) 1 (fun row _ => if row.val = 0 then num else den)

theorem migration_arithmetic_total_moving :
    ∃ t, Run FmJobStep ((migratory 0 1 1 2).edffmTaskNew 0) [.complete] t ∧ t.params.cpu = 1 ∧
      NextCpuSafe t :=
  have hs : FmJobStep ((migratory 0 1 1 2).edffmTaskNew 0) .complete _ := rfl
  ⟨_, .cons hs .nil, rfl, (@migration_arithmetic_total (fun _ => true) (migratory 0 1 1 2)
    _ 0 _ ⟨by decide, by decide, 0, rfl⟩ (fun _ => rfl) (.cons hs .nil)).1⟩

/-- Admitted, and then a division by zero, a product of 2^64, a task that stays on a CPU that is
    not one of its own, and one that moves to a CPU that is not online. -/
theorem migration_arithmetic_unchecked :
    (admits (fun cpu => decide (cpu < 4)) 0 (migratory 0 1 0 1) = true ∧
      ((migratory 0 1 0 1).edffmTaskNew 0).updateJobCounter.curCpuFractNum = 0) ∧
    (admits (fun cpu => decide (cpu < 4)) 0 (migratory 0 1 1 0x8000000000000000) = true ∧
      ((migratory 0 1 1 0x8000000000000000).edffmTaskNew 0).updateJobCounter.curCpuJobNo.toNat *
        (migratory 0 1 1 0x8000000000000000).curCpuFractDen.toNat = 2 ^ 64) ∧
    (admits (fun cpu => decide (cpu < 4)) 2 (migratory 2 1 1 1) = true ∧
      ((migratory 2 1 1 1).edffmTaskNew 0).jobCompletion.any (·.params.cpu == 2) = true) ∧
    admits (fun cpu => decide (cpu < 4)) 0 (migratory 0 7 1 1) = true ∧
      ((migratory 0 7 1 1).edffmTaskNew 0).jobCompletion.any (·.params.cpu == 7) = true := by
  decide

/-! ### Wake-up -/

namespace FmState

variable {n : Nat}

end FmState

open FmState

end Litmus.EdfFm
