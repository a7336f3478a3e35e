import Mathlib.Algebra.Order.Field.Basic
import Mathlib.Data.Fin.VecNotation
import Mathlib.Tactic.FieldSimp
import Litmus.EdfFm
import Litmus.ShareWalk

/-!
# Shares of migratory tasks

As long as its counters do not overflow, a migratory task moves between its CPUs like a
share walk.  So whether the first CPU gets its share of the jobs depends only on the
fraction in lowest terms.
-/

namespace Litmus.EdfFm

open ShareWalk FmTask Function

/-- A migratory task on its first CPU, with two positive fractions that add up to one. -/
structure Migratory (t : FmTask) : Prop where
  migratory : t.isMigratTask = true
  first : t.params.cpu = t.cpus 0
  num_pos : ∀ i, 0 < (t.fraction 0 i).toNat
  den_pos : ∀ i, 0 < (t.fraction 1 i).toNat
  whole : (t.fraction 0 0).toNat * (t.fraction 1 1).toNat +
    (t.fraction 0 1).toNat * (t.fraction 1 0).toNat =
      (t.fraction 1 0).toNat * (t.fraction 1 1).toNat

/-- The fractions in lowest terms are `p / (p + r)` and `r / (p + r)`. -/
structure Shares (t : FmTask) (p r : ℕ) : Prop where
  pos : 0 < p ∧ 0 < r
  first : ∃ g, 0 < g ∧ (t.fraction 0 0).toNat = g * p ∧ (t.fraction 1 0).toNat = g * (p + r)
  second : ∃ g, 0 < g ∧ (t.fraction 0 1).toNat = g * r ∧ (t.fraction 1 1).toNat = g * (p + r)

theorem Migratory.shares {t : FmTask} (h : Migratory t) :
    Shares t (firstShare t) (secondShare t) ∧ Nat.Coprime (firstShare t) (secondShare t) := by
  obtain ⟨p, r, g, g', hp, hr, hppo, hrpo, hcop, hg, hnum, hden, hg', hnum', hden'⟩ :=
    lowest_terms (h.num_pos 0) (h.den_pos 0) (h.num_pos 1) (h.den_pos 1) h.whole
  rw [firstShare, secondShare, ← hp, ← hr]
  exact ⟨⟨⟨hppo, hrpo⟩, ⟨g, hg, hnum, hden⟩, ⟨g', hg', hnum', hden'⟩⟩, hcop⟩

theorem Shares.fraction_eq {t : FmTask} {p r : ℕ} (hs : Shares t p r) :
    ((t.fraction 0 0).toNat : ℚ) / (t.fraction 1 0).toNat = p / (p + r : ℕ) := by
  obtain ⟨g, hg, hnum, hden⟩ := hs.first
  rw [hnum, hden, Nat.cast_mul, Nat.cast_mul]
  exact mul_div_mul_left _ _ (by exact_mod_cast hg.ne')

/-! ### The counters follow the walk -/

/-- The test of `next_cpu_for_job`, on a CPU with share `x / (x + y)` that has done `c` jobs
    while `o` were done elsewhere. -/
theorem test_iff {job count : BitVec 32} {den num : LtTime} {c o x y g : ℕ}
    (hco : count.toNat = c) (hjob : job.toNat = c + o) (hg : 0 < g) (hx : 0 < x)
    (hnum : num.toNat = g * x) (hden : den.toNat = g * (x + y)) (hf : c * den.toNat < 2 ^ 64) :
    (job.setWidth 64 == count.setWidth 64 * den / num) = true ↔
      0 ≤ (c * y : ℤ) - o * x ∧ (c * y : ℤ) - o * x < x := by
  have hjob' := job.isLt
  have hcount' := count.isLt
  rw [beq_iff_eq, ← BitVec.toNat_inj, BitVec.toNat_udiv, BitVec.toNat_mul,
    BitVec.toNat_setWidth, BitVec.toNat_setWidth,
    Nat.mod_eq_of_lt (show job.toNat < 2 ^ 64 by omega),
    Nat.mod_eq_of_lt (show count.toNat < 2 ^ 64 by omega), hco, Nat.mod_eq_of_lt hf,
    hjob, hnum, hden, Nat.mul_left_comm, Nat.mul_div_mul_left _ _ hg, eq_comm]
  exact div_eq_iff_gap hx

theorem changeMigratCpuIfNeeded_eq {u : FmTask} (hmig : u.isMigratTask = true)
    (hne : u.cpus 1 ≠ u.cpus 0) (hc : u.params.cpu = u.cpus 0 ∨ u.params.cpu = u.cpus 1) :
    u.changeMigratCpuIfNeeded =
      some (u.setCpu (if u.jobNoReached then u.cpus 0 else u.cpus 1)) := by
  have hmo : ∀ next, next = u.cpus 0 ∨ next = u.cpus 1 →
      (if next ≠ u.migratCurCpu then u.setCpu u.migratNextCpu else u) = u.setCpu next := by
    have hse : u.setCpu u.params.cpu = u := rfl
    rintro next (rfl | rfl)
    · rcases hc with hc | hc
      · rw [hc] at hse
        simp [migratCurCpu, hc, hse]
      simp [migratCurCpu, migratNextCpu, hc, hne, hne.symm]
    rcases hc with hc | hc
    · simp [migratCurCpu, migratNextCpu, hc, hne]
    rw [hc] at hse
    simp [migratCurCpu, hc, hne, hse]
  unfold changeMigratCpuIfNeeded nextCpuForJob
  rw [hmig]
  cases u.jobNoReached with
  | true => exact congrArg some (hmo _ (.inl rfl))
  | false => exact congrArg some (hmo _ (.inr rfl))

theorem jobCompletion_eq {u : FmTask} (hmi : u.isMigratTask = true) (hne : u.cpus 1 ≠ u.cpus 0)
    (hc : u.params.cpu = u.cpus 0 ∨ u.params.cpu = u.cpus 1) :
    u.jobCompletion = some ((u.updateJobCounter.setCpu
      (if u.updateJobCounter.jobNoReached then u.cpus 0 else u.cpus 1)).modify
        fun t => RtTask.prepareForNextPeriod (RtTask.setRtFlags .sleep t)) := by
  have hcha := changeMigratCpuIfNeeded_eq (u := u.updateJobCounter) hmi hne hc
  rw [jobCompletion, if_pos hmi, hcha]
  rfl

/-- State `u` after `n` completed jobs, `k` of them on the first CPU. -/
structure Tracks (t : FmTask) (p r n k : ℕ) (u : FmTask) : Prop where
  cpus : u.cpus = t.cpus
  nrCpus : u.nrCpus = t.nrCpus
  fraction : u.fraction = t.fraction
  cpu : u.params.cpu = if (walk p r n).onFirst then t.cpus 0 else t.cpus 1
  jobNo : u.job.jobNo.toNat = n + 2
  le : k ≤ n
  first : (u.cpuJobNo 0).toNat = k + 1
  second : (u.cpuJobNo 1).toNat = n - k
  gap : (walk p r n).gap = ((k + 1 : ℕ) * r : ℤ) - ((n - k : ℕ) * p : ℤ)

section

variable {t u : FmTask} {p r n k : ℕ}

theorem Tracks.start (h : Migratory t) (hjob : t.job.jobNo = 0) (hco : t.cpuJobNo = fun _ => 0)
    (now start : LtTime) : Tracks t p r 0 0 ((t.edffmTaskNew now).releaseAt start) := by
  have hp : edffmCpuPos t.params.cpu t = 0 := if_pos h.first
  have hcu : ((t.edffmTaskNew now).releaseAt start).cpuJobNo =
      update t.cpuJobNo (edffmCpuPos t.params.cpu t)
        (t.cpuJobNo (edffmCpuPos t.params.cpu t) + 1) := rfl
  rw [hp, hco] at hcu
  refine ⟨rfl, rfl, rfl, h.first, ?_, le_rfl, ?_, ?_, ?_⟩
  · change (t.job.jobNo + 1 + 1).toNat = 2
    rw [hjob]
    rfl
  · rw [hcu, update_self]
    rfl
  · rw [hcu, update_of_ne (by decide)]
    rfl
  · simp

section

variable (h : Migratory t) (hdistinct : t.cpus 1 ≠ t.cpus 0)

include h hdistinct

theorem Tracks.complete
    (hu : Tracks t p r n k u) (hjob : n + 3 < 2 ^ 32) {k' : ℕ} (hle : k' ≤ n + 1)
    (hfi : (u.updateJobCounter.cpuJobNo 0).toNat = k' + 1)
    (hsec : (u.updateJobCounter.cpuJobNo 1).toNat = n + 1 - k')
    (hgap : (walk p r (n + 1)).gap = ((k' + 1 : ℕ) * r : ℤ) - ((n + 1 - k' : ℕ) * p : ℤ))
    (hrc : u.updateJobCounter.jobNoReached = (walk p r (n + 1)).onFirst) :
    ∃ u', u.jobCompletion = some u' ∧ Tracks t p r (n + 1) k' u' := by
  have hmig : u.isMigratTask = true := by
    rw [isMigratTask, hu.nrCpus]
    exact h.migratory
  have hne : u.cpus 1 ≠ u.cpus 0 := by
    rw [hu.cpus]
    exact hdistinct
  have hc : u.params.cpu = u.cpus 0 ∨ u.params.cpu = u.cpus 1 := by
    rw [hu.cpu, hu.cpus]
    cases (walk p r n).onFirst with
    | true => exact .inl rfl
    | false => exact .inr rfl
  refine ⟨_, jobCompletion_eq hmig hne hc, hu.cpus, hu.nrCpus, hu.fraction, ?_, ?_, hle,
    hfi, hsec, hgap⟩
  · change (if u.updateJobCounter.jobNoReached then u.cpus 0 else u.cpus 1) = _
    rw [hrc, hu.cpus]
  change (u.job.jobNo + 1).toNat = n + 1 + 2
  rw [BitVec.toNat_add, hu.jobNo, Nat.mod_eq_of_lt (by simp; omega)]
  rfl

theorem Tracks.stepFirst (hs : Shares t p r) (hu : Tracks t p r n k u) (hjob : n + 3 < 2 ^ 32)
    (hf : (n + 2) * (t.fraction 1 0).toNat < 2 ^ 64) (hfi : (walk p r n).onFirst = true) :
    u.params.cpu = u.cpus 0 ∧
      ∃ u', u.jobCompletion = some u' ∧ Tracks t p r (n + 1) (k + 1) u' := by
  have hle := hu.le
  have hc : u.params.cpu = u.cpus 0 := by
    rw [hu.cpu, hfi, hu.cpus]
    rfl
  have hp : edffmCpuPos u.params.cpu u = 0 := if_pos hc
  have hcu : u.updateJobCounter.cpuJobNo = update u.cpuJobNo 0 (u.cpuJobNo 0 + 1) := by
    unfold updateJobCounter
    rw [hp]
  have hco : (u.updateJobCounter.cpuJobNo 0).toNat = k + 2 := by
    rw [hcu, update_self, BitVec.toNat_add, hu.first, Nat.mod_eq_of_lt (by simp; omega)]
    rfl
  have hwa : walk p r (n + 1) =
      ⟨decide (0 ≤ (walk p r n).gap + r ∧ (walk p r n).gap + r < p), (walk p r n).gap + r⟩ := by
    rw [walk_succ, step, hfi, if_pos rfl]
  have hga : (walk p r n).gap + r = ((k + 2 : ℕ) * r : ℤ) - ((n - k : ℕ) * p : ℤ) := by
    rw [hu.gap]
    push_cast
    ring
  refine ⟨hc, hu.complete h hdistinct hjob (by omega) hco ?_ ?_ ?_⟩
  · rw [hcu, update_of_ne (by decide), hu.second]
    omega
  · rw [hwa]
    dsimp only
    rw [hga, Nat.add_sub_add_right]
  obtain ⟨g, hg, hnum, hden⟩ := hs.first
  have hrh : u.updateJobCounter.jobNoReached = true ↔
      0 ≤ ((k + 2 : ℕ) * r : ℤ) - ((n - k : ℕ) * p : ℤ) ∧
        ((k + 2 : ℕ) * r : ℤ) - ((n - k : ℕ) * p : ℤ) < p := by
    have hcpu' : u.updateJobCounter.params.cpu = u.updateJobCounter.cpus 0 := hc
    unfold jobNoReached curCpuJobNo curCpuFractDen curCpuFractNum
    rw [if_pos hcpu', if_pos hcpu', if_pos hcpu']
    apply test_iff hco _ hg hs.pos.1
    · exact (congrFun (congrFun hu.fraction 0) 0 ▸ hnum)
    · exact (congrFun (congrFun hu.fraction 1) 0 ▸ hden)
    · change _ * (u.fraction 1 0).toNat < _
      rw [hu.fraction]
      exact lt_of_le_of_lt (Nat.mul_le_mul_right _ (by omega)) hf
    change u.job.jobNo.toNat = _
    rw [hu.jobNo]
    omega
  rw [hwa, Bool.eq_iff_iff, hrh, hga, decide_eq_true_iff]

theorem Tracks.stepSecond (hs : Shares t p r) (hu : Tracks t p r n k u) (hjob : n + 3 < 2 ^ 32)
    (hf : (n + 2) * (t.fraction 1 1).toNat < 2 ^ 64) (hse : (walk p r n).onFirst = false) :
    u.params.cpu ≠ u.cpus 0 ∧ ∃ u', u.jobCompletion = some u' ∧ Tracks t p r (n + 1) k u' := by
  have hle := hu.le
  have hc : u.params.cpu ≠ u.cpus 0 := by
    rw [hu.cpu, hse, hu.cpus]
    exact hdistinct
  have hp : edffmCpuPos u.params.cpu u = 1 := if_neg hc
  have hcu : u.updateJobCounter.cpuJobNo = update u.cpuJobNo 1 (u.cpuJobNo 1 + 1) := by
    unfold updateJobCounter
    rw [hp]
  have hco : (u.updateJobCounter.cpuJobNo 1).toNat = n - k + 1 := by
    rw [hcu, update_self, BitVec.toNat_add, hu.second, Nat.mod_eq_of_lt (by simp; omega)]
    rfl
  have hwa : walk p r (n + 1) =
      ⟨decide (-(r : ℤ) < (walk p r n).gap - p ∧ (walk p r n).gap - p ≤ 0),
        (walk p r n).gap - p⟩ := by
    rw [walk_succ, step, hse, if_neg Bool.false_ne_true]
  have hga : (walk p r n).gap - p = ((k + 1 : ℕ) * r : ℤ) - ((n - k + 1 : ℕ) * p : ℤ) := by
    rw [hu.gap]
    push_cast
    ring
  have hre : n + 1 - k = n - k + 1 := by omega
  refine ⟨hc, hu.complete h hdistinct hjob (by omega) ?_ ?_ ?_ ?_⟩
  · rw [hcu, update_of_ne (by decide), hu.first]
  · rw [hco, hre]
  · rw [hwa, hre]
    exact hga
  · obtain ⟨g, hg, hnum, hden⟩ := hs.second
    have hrh : u.updateJobCounter.jobNoReached = true ↔
        0 ≤ ((n - k + 1 : ℕ) * p : ℤ) - ((k + 1 : ℕ) * r : ℤ) ∧
          ((n - k + 1 : ℕ) * p : ℤ) - ((k + 1 : ℕ) * r : ℤ) < r := by
      have hcpu' : u.updateJobCounter.params.cpu ≠ u.updateJobCounter.cpus 0 := hc
      unfold jobNoReached curCpuJobNo curCpuFractDen curCpuFractNum
      rw [if_neg hcpu', if_neg hcpu', if_neg hcpu']
      apply test_iff hco _ hg hs.pos.2
      · exact congrFun (congrFun hu.fraction 0) 1 ▸ hnum
      · rw [add_comm r p]
        exact congrFun (congrFun hu.fraction 1) 1 ▸ hden
      · change _ * (u.fraction 1 1).toNat < _
        rw [hu.fraction]
        exact lt_of_le_of_lt (Nat.mul_le_mul_right _ (by omega)) hf
      change u.job.jobNo.toNat = _
      rw [hu.jobNo]
      omega
    rw [hwa, Bool.eq_iff_iff, hrh, hga, decide_eq_true_iff]
    omega

theorem tracks_of_runJobs (hs : Shares t p r)
    (hjob : t.job.jobNo = 0) (hco : t.cpuJobNo = fun _ => 0) (now start : LtTime)
    (hjbs : n + 2 < 2 ^ 32) (hf : ∀ i, (n + 2) * (t.fraction 1 i).toNat < 2 ^ 64) :
    ∃ k u, runJobs n ((t.edffmTaskNew now).releaseAt start) = some (k, u) ∧ Tracks t p r n k u := by
  induction n with
  | zero => exact ⟨0, _, rfl, .start h hjob hco now start⟩
  | succ n ih =>
    have hfit' : ∀ i, (n + 2) * (t.fraction 1 i).toNat < 2 ^ 64 := fun i =>
      lt_of_le_of_lt (Nat.mul_le_mul_right _ (by omega)) (hf i)
    obtain ⟨k, u, hr, hu⟩ := ih (by omega) hfit'
    cases hwa : (walk p r n).onFirst with
    | true =>
      obtain ⟨hc, u', hu', htr⟩ := hu.stepFirst h hdistinct hs (by omega) (hfit' 0) hwa
      refine ⟨k + 1, u', ?_, htr⟩
      rw [runJobs, hr, Option.bind_some]
      dsimp only
      rw [hu', if_pos hc]
      rfl
    | false =>
      obtain ⟨hc, u', hu', htr⟩ := hu.stepSecond h hdistinct hs (by omega) (hfit' 1) hwa
      refine ⟨k, u', ?_, htr⟩
      rw [runJobs, hr, Option.bind_some]
      dsimp only
      rw [hu', if_neg hc]
      rfl

end

end

theorem Tracks.honoursShare_iff {t u v : FmTask} {p r n k : ℕ} (hs : Shares t p r)
    (hfra : v.fraction = t.fraction) (hr : runJobs n v = some (k, u))
    (hu : Tracks t p r n k u) : HonoursShare v n ↔ WithinTwo p r (walk p r n) := by
  have hle := hu.le
  have hq : (0 : ℚ) < (p + r : ℕ) := by exact_mod_cast Nat.add_pos_left hs.pos.1 r
  have hgap : (walk p r n).gap - r = k * (p + r : ℕ) - n * p := by
    rw [hu.gap, Nat.cast_sub hle]
    push_cast
    ring
  have hdif : (k : ℚ) - n * (p / (p + r : ℕ)) =
      (((walk p r n).gap - r : ℤ) : ℚ) / (p + r : ℕ) := by
    rw [hgap]
    push_cast at hq ⊢
    field_simp
  have hab : |(k : ℚ) - n * ((v.fraction 0 0).toNat / (v.fraction 1 0).toNat)| ≤ 2 ↔
      WithinTwo p r (walk p r n) := by
    rw [hfra, hs.fraction_eq, hdif, abs_div, abs_of_pos hq, div_le_iff₀ hq, WithinTwo]
    exact_mod_cast Iff.rfl
  constructor
  · rintro ⟨k', u', hrun', hle'⟩
    obtain ⟨rfl, rfl⟩ : k' = k ∧ u' = u := by
      rw [hr] at hrun'
      simpa [eq_comm] using hrun'
    exact hab.mp hle'
  intro hwit
  exact ⟨k, u, hr, hab.mpr hwit⟩

/-! ### When the share is honoured -/

theorem runJobs_of_same {t : FmTask} (hmig : t.isMigratTask = true) (hc : t.params.cpu = t.cpus 0)
    (hs : t.cpus 1 = t.cpus 0) (n : ℕ) :
    ∃ u, runJobs n t = some (n, u) ∧ u.isMigratTask = true ∧ u.params.cpu = u.cpus 0 ∧
      u.cpus 1 = u.cpus 0 := by
  induction n with
  | zero => exact ⟨t, rfl, hmig, hc, hs⟩
  | succ n ih =>
    obtain ⟨u, hr, hmig', hcpu', hsame'⟩ := ih
    have hsta : u.updateJobCounter.changeMigratCpuIfNeeded = some u.updateJobCounter := by
      have hmig'' : u.updateJobCounter.isMigratTask = true := hmig'
      have hcpu'' := hcpu'
      have hsame'' : u.updateJobCounter.cpus 1 = u.updateJobCounter.cpus 0 := hsame'
      simp [changeMigratCpuIfNeeded, nextCpuForJob, migratCurCpu, hmig'', hsame'']
    refine ⟨u.updateJobCounter.modify fun t =>
      RtTask.prepareForNextPeriod (RtTask.setRtFlags .sleep t), ?_, hmig', hcpu', hsame'⟩
    rw [runJobs, hr, Option.bind_some]
    dsimp only
    rw [jobCompletion, if_pos hmig', hsta, if_pos hcpu']
    rfl

theorem not_honoursShare_of_same {t : FmTask} {p r : ℕ} (hs : Shares t p r)
    (hmig : t.isMigratTask = true) (hc : t.params.cpu = t.cpus 0) (hsm : t.cpus 1 = t.cpus 0) :
    ¬HonoursShare t (8 * (p + r)) := by
  rintro ⟨k, u, hrun, hle⟩
  obtain ⟨u', hrun', -⟩ := runJobs_of_same hmig hc hsm (8 * (p + r))
  obtain rfl : k = 8 * (p + r) := by
    rw [hrun] at hrun'
    simp only [Option.some.injEq, Prod.mk.injEq] at hrun'
    exact hrun'.1
  have hr : (1 : ℚ) ≤ r := by exact_mod_cast hs.pos.2
  have hp : (0 : ℚ) < p := by exact_mod_cast hs.pos.1
  have hdif : ((8 * (p + r) : ℕ) : ℚ) - (8 * (p + r) : ℕ) * (p / (p + r : ℕ)) = 8 * r := by
    push_cast
    field_simp
    ring
  rw [hs.fraction_eq, hdif, abs_of_pos (by linarith)] at hle
  linarith

section

variable {params : TaskParams} {cpus : Fin 2 → BitVec 32} {nrCpus : BitVec 32}
  {fraction : Fin 2 → Fin 2 → LtTime}

theorem honoursShare_iff (h : Migratory (admitted params cpus nrCpus fraction))
    (hdistinct : cpus 1 ≠ cpus 0) (now start : LtTime) {n : ℕ} (hjob : n + 2 < 2 ^ 32)
    (hf : ∀ i, (n + 2) * (fraction 1 i).toNat < 2 ^ 64) :
    let t := admitted params cpus nrCpus fraction
    HonoursShare ((t.edffmTaskNew now).releaseAt start) n ↔
      WithinTwo (firstShare t) (secondShare t) (walk (firstShare t) (secondShare t) n) := by
  intro t
  obtain ⟨hs, -⟩ := h.shares
  obtain ⟨k, u, hr, hu⟩ := tracks_of_runJobs h hdistinct hs rfl rfl now start hjob hf
  exact Tracks.honoursShare_iff hs rfl hr hu

/-- The first CPU of a migratory task gets its share, give or take two jobs, exactly for the
    fair fractions of two different CPUs. -/
theorem edffm_honours_shares_iff (h : Migratory (admitted params cpus nrCpus fraction))
    (now start : LtTime) {N : ℕ} (hjobs : N + 2 < 2 ^ 32)
    (hfit : ∀ i, (N + 2) * (fraction 1 i).toNat < 2 ^ 64)
    (hlong : 8 * (firstShare (admitted params cpus nrCpus fraction) +
      secondShare (admitted params cpus nrCpus fraction)) ≤ N) :
    let t := admitted params cpus nrCpus fraction
    (∀ n ≤ N, HonoursShare ((t.edffmTaskNew now).releaseAt start) n) ↔
      cpus 1 ≠ cpus 0 ∧ Fair (firstShare t) (secondShare t) := by
  intro t
  obtain ⟨hs, hcop⟩ := h.shares
  by_cases hsame : cpus 1 = cpus 0
  · have hmissed : ¬HonoursShare ((t.edffmTaskNew now).releaseAt start)
        (8 * (firstShare t + secondShare t)) :=
      not_honoursShare_of_same ⟨hs.pos, hs.first, hs.second⟩ h.migratory h.first hsame
    constructor
    · intro hall
      exact absurd (hall _ hlong) hmissed
    intro hfair
    exact absurd hsame hfair.1
  · have hwalk : ∀ n ≤ N, (HonoursShare ((t.edffmTaskNew now).releaseAt start) n ↔
        WithinTwo (firstShare t) (secondShare t) (walk (firstShare t) (secondShare t) n)) := by
      intro n hn
      apply honoursShare_iff h hsame now start (by omega)
      intro i
      exact lt_of_le_of_lt (Nat.mul_le_mul_right _ (by omega)) (hfit i)
    have hiff := withinTwo_iff hs.pos.1 hs.pos.2 hcop hlong
    constructor
    · intro hall
      exact ⟨hsame, hiff.mp fun n hn => (hwalk n hn).mp (hall n hn)⟩
    intro hfair n hn
    exact (hwalk n hn).mpr (hiff.mpr hfair.2 n hn)

end

/-- Two CPUs with half of the jobs each. -/
theorem edffm_honours_shares_iff_halves :
    let t := admitted { cpu := 0, period := 10, execCost := 5, budgetPolicy := .noEnforcement }
      ![0, 1] 2 ![![1, 1], ![2, 2]]
    ∀ n ≤ 1000, HonoursShare ((t.edffmTaskNew 0).releaseAt 100) n := by
  refine (edffm_honours_shares_iff ⟨rfl, rfl, ?_, ?_, ?_⟩ 0 100 ?_ ?_ ?_).mpr ⟨?_, ?_⟩
  all_goals decide

/-- With three fifths of the jobs for the first CPU, the task leaves it after one job.  The
    quotient on the second CPU is 2 for job number 3, 5 for 4 and then stays ahead. -/
theorem edffm_share_missed :
    let t := admitted { cpu := 0, period := 10, execCost := 5, budgetPolicy := .noEnforcement }
      ![0, 1] 2 ![![3, 2], ![5, 5]]
    Migratory t ∧ ¬HonoursShare ((t.edffmTaskNew 0).releaseAt 100) 6 := by
  intro t
  have hone : ((runJobs 6 ((t.edffmTaskNew 0).releaseAt 100)).map Prod.fst) = some 1 := by
    decide +kernel
  refine ⟨⟨rfl, rfl, by decide, by decide, by decide⟩, ?_⟩
  rintro ⟨k, u, hrun, hle⟩
  obtain rfl : k = 1 := by
    rw [hrun] at hone
    exact Option.some.inj hone
  have hshare : ((((t.edffmTaskNew 0).releaseAt 100).fraction 0 0).toNat : ℚ) /
      (((t.edffmTaskNew 0).releaseAt 100).fraction 1 0).toNat = 3 / 5 := rfl
  rw [hshare] at hle
  norm_num [abs_le] at hle

end Litmus.EdfFm
