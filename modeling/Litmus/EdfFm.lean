import Mathlib.Algebra.Order.Field.Rat
import Mathlib.Data.Fin.Basic
import Mathlib.Logic.Function.Basic
import Litmus.RtTask

/-!
# Migratory tasks of EDF-fm

The job counters of `sched_edf_fm.c`.  A migratory task runs on two CPUs, each of which
should handle a given fraction of its jobs.  When a job completes, its CPU is chosen for
the next one by comparing the job number with the floored quotient of a per-CPU counter.
-/

namespace Litmus.EdfFm

/-- A task with its `edffm_params` and its per-CPU counters. -/
structure FmTask extends RtTask where
  cpus : Fin 2 → BitVec 32
  /-- 0 for a fixed task -/
  nrCpus : BitVec 32
  /-- first row: numerators; second row: denominators -/
  fraction : Fin 2 → Fin 2 → LtTime
  /-- `semi_part.cpu_job_no` -/
  cpuJobNo : Fin 2 → BitVec 32

namespace FmTask

def modify (f : RtTask → RtTask) (t : FmTask) : FmTask := { t with toRtTask := f t.toRtTask }

def setCpu (cpu : BitVec 32) (t : FmTask) : FmTask :=
  { t with params := { t.params with cpu := cpu } }

def isMigratTask (t : FmTask) : Bool := t.nrCpus != 0

def edffmCpuPos (cpu : BitVec 32) (t : FmTask) : Fin 2 := if cpu = t.cpus 0 then 0 else 1

def migratNextCpu (t : FmTask) : BitVec 32 :=
  if t.params.cpu = t.cpus 0 then t.cpus 1 else t.cpus 0

def migratCurCpu (t : FmTask) : BitVec 32 :=
  if t.params.cpu = t.cpus 0 then t.cpus 0 else t.cpus 1

def curCpuFractNum (t : FmTask) : LtTime :=
  if t.params.cpu = t.cpus 0 then t.fraction 0 0 else t.fraction 0 1

def curCpuFractDen (t : FmTask) : LtTime :=
  if t.params.cpu = t.cpus 0 then t.fraction 1 0 else t.fraction 1 1

def curCpuJobNo (t : FmTask) : BitVec 32 :=
  if t.params.cpu = t.cpus 0 then t.cpuJobNo 0 else t.cpuJobNo 1

def updateJobCounter (t : FmTask) : FmTask :=
  let cpuPos := edffmCpuPos t.params.cpu t
  { t with cpuJobNo := Function.update t.cpuJobNo cpuPos (t.cpuJobNo cpuPos + 1) }

/-- The comparison of `next_cpu_for_job`, in 64-bit words. -/
def jobNoReached (t : FmTask) : Bool :=
  t.job.jobNo.setWidth 64 == t.curCpuJobNo.setWidth 64 * t.curCpuFractDen / t.curCpuFractNum

/-- `none` is the `BUG_ON` for a fixed task. -/
def nextCpuForJob (t : FmTask) : Option (BitVec 32) :=
  if !t.isMigratTask then none
  else if t.jobNoReached then some (t.cpus 0)
  else some (t.cpus 1)

def changeMigratCpuIfNeeded (t : FmTask) : Option FmTask :=
  if !t.isMigratTask then none
  else t.nextCpuForJob.map fun next =>
    if next ≠ t.migratCurCpu then t.setCpu t.migratNextCpu else t

def jobCompletion (t : FmTask) : Option FmTask :=
  (if t.isMigratTask then t.updateJobCounter.changeMigratCpuIfNeeded else some t).map
    (modify fun t => RtTask.prepareForNextPeriod (RtTask.setRtFlags .sleep t))

/-- The job set-up of `edffm_task_new`. -/
def edffmTaskNew (now : LtTime) (t : FmTask) : FmTask :=
  (t.modify (RtTask.releaseAt now)).updateJobCounter

/-- The generic `release_at`, which EDF-fm uses. -/
def releaseAt (start : LtTime) (t : FmTask) : FmTask := t.modify (RtTask.releaseAt start)

def admitted (params : TaskParams) (cpus : Fin 2 → BitVec 32) (nrCpus : BitVec 32)
    (fraction : Fin 2 → Fin 2 → LtTime) : FmTask :=
  { RtTask.admitted params with
    cpus := cpus
    nrCpus := nrCpus
    fraction := fraction
    cpuJobNo := fun _ => 0 }

/-- Complete `n` jobs, and count those that ran on `cpus[0]`. -/
def runJobs : Nat → FmTask → Option (Nat × FmTask)
  | 0, t => some (0, t)
  | n + 1, t =>
      (runJobs n t).bind fun (k, u) =>
        u.jobCompletion.map fun u' => (if u.params.cpu = u.cpus 0 then k + 1 else k, u')

end FmTask

/-! ### The shares a task is promised -/

open FmTask

/-- The first share of the jobs in lowest terms. -/
def firstShare (t : FmTask) : ℕ :=
  (t.fraction 0 0).toNat / Nat.gcd (t.fraction 0 0).toNat (t.fraction 1 0).toNat

def secondShare (t : FmTask) : ℕ :=
  ((t.fraction 1 0).toNat - (t.fraction 0 0).toNat) /
    Nat.gcd (t.fraction 0 0).toNat (t.fraction 1 0).toNat

/-- After `n` completed jobs, the number of those on the first CPU differs from its share of
    `n` by at most two. -/
def HonoursShare (t : FmTask) (n : ℕ) : Prop :=
  ∃ k u, runJobs n t = some (k, u) ∧
    |(k : ℚ) - n * ((t.fraction 0 0).toNat / (t.fraction 1 0).toNat)| ≤ 2

end Litmus.EdfFm
