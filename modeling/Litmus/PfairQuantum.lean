import Litmus.PfairOrder

/-!
# One quantum of PFAIR

What `schedule_next_quantum` does to the places of the tasks: the linked tasks advance to
their next subtask and are filed if it is not released yet, one slot of the wheel is merged,
and tasks are linked.
-/

namespace Litmus.Pfair

open BinomialForest Custody Runs Function PfairTask List

variable {n : Nat}

/-! ### Parameters -/

variable {p : PfairTask n} {time : Nat}

/-- The parameters that `pfair_admit_task` sets up, with a subtask index within the job. -/
structure PfairParam.Wf (q : PfairParam) : Prop where
  quanta_pos : 0 < q.quanta
  cur_lt : q.cur < q.quanta
  period_lt : q.period < pfairMaxPeriod
  subtasks : q.subtasks = (List.range q.quanta).map fun i => initSubtask i q.quanta q.period

theorem PfairTask.curSubtask_eq (h : p.pfair.Wf) :
    p.curSubtask = initSubtask p.pfair.cur p.pfair.quanta p.pfair.period := by
  rw [curSubtask, h.subtasks]
  simp [h.cur_lt]

theorem PfairTask.curRelease_eq (h : p.pfair.Wf) :
    p.curRelease = p.pfair.period * p.pfair.cur / p.pfair.quanta + p.pfair.release := by
  rw [curRelease, curSubtask_eq h]
  rfl

theorem time2quanta_pos {tick : Nat} (h : time ≠ 0) (htic : 0 < tick) :
    0 < time2quanta tick time .ceil := by
  unfold time2quanta
  split
  · exact Nat.succ_pos _
  rename_i hmo
  have hmo : time % tick = 0 := by simpa using hmo
  exact Nat.div_pos (Nat.le_of_dvd (Nat.pos_of_ne_zero h) (Nat.dvd_of_mod_eq_zero hmo)) htic

theorem Wf.admitted {tick : Nat} {params : TaskParams} {lastQuantum lastCpu : Nat} {q : PfairParam}
    (htic : 0 < tick) (hcos : params.execCost ≠ 0)
    (h : pfairAdmitTask tick params lastQuantum lastCpu = some q) :
    q.Wf ∧ q.cur = 0 ∧ q.lastQuantum = lastQuantum ∧ q.lastCpu = lastCpu := by
  have hpo := time2quanta_pos (fun hz => hcos (BitVec.eq_of_toNat_eq (by simpa using hz))) htic
  simp only [pfairAdmitTask] at h
  split at h
  · cases h
  rename_i hpd
  cases h
  refine ⟨?_, rfl, rfl, rfl⟩
  by_cases heq : time2quanta tick params.execCost.toNat .ceil = params.period.toNat / tick
  · rw [if_pos heq]
    exact ⟨one_pos, one_pos, show 1 < pfairMaxPeriod by decide, rfl⟩
  rw [if_neg heq]
  exact ⟨hpo, hpo, Nat.lt_of_not_le hpd, rfl⟩

/-! ### Advancing -/

/-- The parameters after `advance_subtask` in quantum `time` on CPU `cpu`; a new job begins
    one period later. -/
def PfairParam.advanced (time : Nat) (cpu : Fin n) (q : PfairParam) : PfairParam :=
  { q with
    lastQuantum := time
    lastCpu := cpu
    cur := (q.cur + 1) % q.quanta
    release := if (q.cur + 1) % q.quanta = 0 then q.release + q.period else q.release }

/-- The task after `advance_subtask`, if it is present or stays within its job. -/
def PfairTask.advanced (time : Nat) (cpu : Fin n) (p : PfairTask n) : PfairTask n :=
  { p with
    toRtTask := if (p.pfair.cur + 1) % p.pfair.quanta = 0 then
      p.toRtTask.prepareForNextPeriod.setRtFlags .running else p.toRtTask
    pfair := p.pfair.advanced time cpu }

theorem PfairParam.Wf.advanced {cpu : Fin n} {q : PfairParam} (h : q.Wf) :
    (q.advanced time cpu).Wf :=
  ⟨h.quanta_pos, Nat.mod_lt _ h.quanta_pos, h.period_lt, h.subtasks⟩

@[simp] theorem PfairTask.realtime_advanced (time : Nat) (cpu : Fin n) (p : PfairTask n) :
    (p.advanced time cpu).realtime = p.realtime := by
  simp only [advanced]
  split <;> rfl

theorem PfairTask.curRelease_advanced {cpu : Fin n} (h : p.pfair.Wf) :
    (p.advanced time cpu).curRelease ≤ p.curRelease + p.pfair.period := by
  have hlt := h.cur_lt
  rw [curRelease_eq h.advanced, curRelease_eq h]
  simp only [advanced, PfairParam.advanced]
  rcases Nat.lt_or_eq_of_le (Nat.succ_le_of_lt hlt) with hin | hend
  · have hle : (p.pfair.period * p.pfair.cur + p.pfair.period) / p.pfair.quanta ≤
        p.pfair.period * p.pfair.cur / p.pfair.quanta + p.pfair.period := by
      rw [← Nat.add_mul_div_left _ _ h.quanta_pos]
      exact Nat.div_le_div_right (Nat.add_le_add_left (Nat.le_mul_of_pos_left _ h.quanta_pos) _)
    rw [Nat.mod_eq_of_lt hin, if_neg (Nat.succ_ne_zero _), Nat.mul_succ]
    omega
  rw [← Nat.succ_eq_add_one, hend, Nat.mod_self, if_pos rfl, mul_zero, Nat.zero_div,
    zero_add, add_assoc]
  exact Nat.le_add_left _ _

namespace State

def Shaped (st : State n) : Prop := ∀ t, (st.task t).realtime = true → (st.task t).pfair.Wf

section Advance

variable {lo : Nat} {st : State n} {cpu : Fin n} {l : TaskId}

theorem live_congr {st st' : State n} (h : ∀ u, (st'.task u).realtime = (st.task u).realtime ∧
    (st'.task u).pfair.sporadicRelease = (st.task u).pfair.sporadicRelease) (u : TaskId) :
    st'.Live u ↔ st.Live u := by
  rw [Live, Live, (h u).1, (h u).2]

@[simp] theorem modify_modify (st : State n) (t : TaskId) (f g : PfairTask n → PfairTask n) :
    (st.modify t f).modify t g = st.modify t (g ∘ f) := by
  simp [modify]

@[simp] theorem task_modify_self (st : State n) (t : TaskId) (f : PfairTask n → PfairTask n) :
    (st.modify t f).task t = f (st.task t) := update_self _ _ _

theorem advanceSubtask_present
    (h : (st.task l).present = true ∨ (st.task l).pfair.cur + 1 < (st.task l).pfair.quanta) :
    (st.modify l fun p => p.setPfair fun q =>
        { q with lastQuantum := time, lastCpu := cpu }).advanceSubtask time l =
      some (decide (time < ((st.task l).advanced time cpu).curRelease),
        st.modify l (advanced time cpu)) := by
  simp only [advanceSubtask, modify_modify, task_modify_self, comp_apply]
  by_cases hwr : ((st.task l).pfair.cur + 1) % (st.task l).pfair.quanta = 0
  · have hpre : (st.task l).present = true := by
      refine h.resolve_right fun hlt => ?_
      rw [Nat.mod_eq_of_lt hlt] at hwr
      exact Nat.succ_ne_zero _ hwr
    have heq : setPfair (fun q => { q with release := q.release + q.period })
        (setRt (fun r => r.prepareForNextPeriod.setRtFlags .running)
          (setPfair (fun q => { q with cur := (q.cur + 1) % q.quanta })
            (setPfair (fun q => { q with lastQuantum := time, lastCpu := cpu })
              (st.task l)))) = (st.task l).advanced time cpu := by
      simp [setPfair, setRt, advanced, PfairParam.advanced, hwr]
    refine (if_pos hwr).trans ((if_pos hpre).trans ?_)
    simp [modify, heq]
  have heq : setPfair (fun q => { q with cur := (q.cur + 1) % q.quanta })
      (setPfair (fun q => { q with lastQuantum := time, lastCpu := cpu })
        (st.task l)) = (st.task l).advanced time cpu := by
    simp [setPfair, advanced, PfairParam.advanced, hwr]
  refine (if_neg hwr).trans ?_
  simp [modify, heq]

section

variable (h : Filed lo lo st.Live st) (hshape : st.Shaped)

include h hshape

theorem advanceCpu_present (hl : st.linked cpu = some l)
    (hpre : (st.task l).present = true ∨ (st.task l).pfair.cur + 1 < (st.task l).pfair.quanta) :
    ∃ st', advanceCpu (lo + 1) st cpu = some st' ∧ Kept st st' ∧
      st'.task = update st.task l ((st.task l).advanced (lo + 1) cpu) ∧
      st'.linked = (if lo + 1 < ((st.task l).advanced (lo + 1) cpu).curRelease then
        update st.linked cpu none else st.linked) ∧
      Filed lo lo st'.Live st' ∧ (st.Sorted → st'.Sorted) := by
  have hli := h.live_of_linked hl
  have hwf := hshape l hli.1
  have hbou : ((st.task l).advanced (lo + 1) cpu).curRelease ≤
      (st.task l).curRelease + (st.task l).pfair.period := curRelease_advanced hwf
  have hlk := h.linked cpu l hl
  have hpd := hwf.period_lt
  -- the state after the writes to the task
  have hsub : (st.modify l fun p => p.setPfair fun q =>
        { q with lastQuantum := lo + 1, lastCpu := cpu }).advanceSubtask (lo + 1) l =
      some (decide (lo + 1 < ((st.task l).advanced (lo + 1) cpu).curRelease),
        st.modify l (advanced (lo + 1) cpu)) :=
    advanceSubtask_present hpre
  -- with the task off its CPU
  have hof : Filed lo lo (fun u => u ≠ l ∧ st.Live u)
      ((st.modify l (advanced (lo + 1) cpu)).setLinked cpu none) :=
    (h.unlink hl).modify_outside (fun hu => hu.1 rfl) _
  have hlive' : ∀ st' : State n, st'.task = update st.task l ((st.task l).advanced (lo + 1) cpu) →
      ∀ u, st'.Live u ↔ u = l ∨ u ≠ l ∧ st.Live u := by
    intro st' hta u
    by_cases hu : u = l
    · subst hu
      simp only [Live, hta, update_self, realtime_advanced, true_or, iff_true]
      exact hli
    simp [Live, hta, hu]
  -- the task is in no heap when it changes
  have hso : st.Sorted → (st.modify l (advanced (lo + 1) cpu)).Sorted := by
    intro hs
    refine hs.modify ?_ _
    rintro (hq | ⟨i, hq⟩)
    · exact absurd (h.custody.unique (held_linked.mpr hl) (q := .ready) hq) (by simp)
    exact absurd (h.custody.unique (held_linked.mpr hl) (q := .slot i) hq) (by simp)
  simp only [advanceCpu, hl, hsub, Option.bind_some]
  by_cases hto : lo + 1 < ((st.task l).advanced (lo + 1) cpu).curRelease
  · obtain ⟨st', hfi, hk, hta, hlin, hfl⟩ := hof.addRelease (t := l)
      (fun hu => hu.1 rfl) (by rw [setLinked, task_modify_self]; omega)
      (by rw [setLinked, task_modify_self]; omega)
    simp only [hto, decide_true, if_true, hfi]
    refine ⟨st', rfl, ⟨hk.mergeTime, hk.curTick, hk.pfairTime, hk.tickPeriod,
      hk.current⟩, hta, hlin, hfl.congr_live (hlive' st' hta), fun hs => ?_⟩
    have hoffSorted : ((st.modify l (advanced (lo + 1) cpu)).setLinked cpu none).Sorted :=
      (hso hs).congr rfl rfl fun _ _ => rfl
    have hrt : ∀ u, st.Live u →
        ((st.modify l (advanced (lo + 1) cpu)).task u).realtime = true := by
      intro u hu
      by_cases hul : u = l
      · subst hul
        rw [task_modify_self, realtime_advanced]
        exact hu.1
      simp only [modify, update_of_ne hul]
      exact hu.1
    refine hoffSorted.pfairAddRelease ?_ (hrt l hli) hfi
    rintro u (hq | ⟨i, hq⟩)
    · exact hrt u ((hof.custody.live_iff u).mp ⟨.ready, hq⟩).2
    exact hrt u ((hof.custody.live_iff u).mp ⟨.slot i, hq⟩).2
  simp only [hto, decide_false, Bool.false_eq_true, if_false]
  have hon := hof.link (t := l) (c := cpu) (fun hu => hu.1 rfl) (by simp [setLinked])
    (by rw [setLinked, task_modify_self]; omega)
  rw [Filed.setLinked_setLinked] at hon
  refine ⟨_, rfl, ⟨rfl, rfl, rfl, rfl, rfl⟩, rfl, rfl, ?_, hso⟩
  refine (hon.congr_live (hlive' _ rfl)).congr rfl rfl rfl ?_ rfl fun _ _ => rfl
  rw [setLinked, ← hl]
  exact (update_eq_self cpu st.linked).symm

theorem advanceCpu_absent (hl : st.linked cpu = some l) (habs : (st.task l).present = false)
    (hwra : ((st.task l).pfair.cur + 1) % (st.task l).pfair.quanta = 0) :
    ∃ st' p, advanceCpu (lo + 1) st cpu = some st' ∧ Kept st st' ∧
      st'.task = update st.task l p ∧ p.realtime = (st.task l).realtime ∧
      p.pfair.Wf ∧ Filed lo lo st'.Live st' := by
  have hliv := h.live_of_linked hl
  have hwf := hshape l hliv.1
  have hn : ¬st.Queued l := by
    rintro (hq | ⟨i, hq⟩)
    · exact absurd (h.custody.unique (held_linked.mpr hl) (q := .ready) hq) (by simp)
    exact absurd (h.custody.unique (held_linked.mpr hl) (q := .slot i) hq) (by simp)
  have hnod : st.inHeap l = false := Bool.eq_false_iff.mpr fun hq => hn ((h.node l).mp hq)
  refine ⟨(st.forget l).modify l fun p => p.setPfair fun q =>
      { q with
        lastQuantum := lo + 1, lastCpu := cpu, cur := (q.cur + 1) % q.quanta
        sporadicRelease := true }, _, ?_, ⟨rfl, rfl, rfl, rfl, rfl⟩, rfl, rfl,
    ⟨hwf.quanta_pos, Nat.mod_lt _ hwf.quanta_pos, hwf.period_lt, hwf.subtasks⟩, ?_⟩
  · simp only [advanceCpu, hl, advanceSubtask, modify_modify, task_modify_self]
    have hdro : ∀ f : PfairTask n → PfairTask n,
        (st.modify l f).dropAllReferences l = some ((st.modify l f).forget l) := by
      intro f
      simp [dropAllReferences, modify, hnod]
    rw [if_pos (by exact hwra), if_neg (by simp [setPfair, habs]), hdro]
    simp only [Option.map_some, Option.bind_some, Bool.false_eq_true, if_false, State.forget,
      modify, update_self, update_idem]
    rfl
  have hout := (h.forget hn).modify_outside (t := l) (fun hu => hu.1 rfl)
    fun p => p.setPfair fun q =>
      { q with
        lastQuantum := lo + 1, lastCpu := cpu, cur := (q.cur + 1) % q.quanta
        sporadicRelease := true }
  refine hout.congr_live fun u => ?_
  by_cases hu : u = l
  · subst hu
    simp [Live, setPfair]
  simp [Live, modify, State.forget, hu]

theorem advanceCpu_kept (cpu : Fin n) :
    ∃ st', advanceCpu (lo + 1) st cpu = some st' ∧ Kept st st' ∧ st'.Shaped ∧
      Filed lo lo st'.Live st' := by
  rcases hl : st.linked cpu with _ | l
  · exact ⟨st, by simp [advanceCpu, hl], .refl st, hshape, h⟩
  have hwf := hshape l (h.live_of_linked hl).1
  by_cases hpr : (st.task l).present = true ∨
      (st.task l).pfair.cur + 1 < (st.task l).pfair.quanta
  · obtain ⟨st', hst', hk, hta, _, hfl, _⟩ := advanceCpu_present h hshape hl hpr
    refine ⟨st', hst', hk, ?_, hfl⟩
    intro u hu
    rw [hta] at hu ⊢
    by_cases hul : u = l
    · subst hul
      rw [update_self]
      exact hwf.advanced
    rw [update_of_ne hul] at hu ⊢
    exact hshape u hu
  rw [not_or, Bool.not_eq_true, not_lt] at hpr
  have hcur := hwf.cur_lt
  have hend : (st.task l).pfair.cur + 1 = (st.task l).pfair.quanta :=
    le_antisymm hcur hpr.2
  obtain ⟨st', p, hst', hk, hta, _, hp, hfl⟩ := advanceCpu_absent h hshape hl
    hpr.1 (by rw [hend, Nat.mod_self])
  refine ⟨st', hst', hk, ?_, hfl⟩
  intro u hu
  rw [hta] at hu ⊢
  by_cases hul : u = l
  · subst hul
    rw [update_self]
    exact hp
  rw [update_of_ne hul] at hu ⊢
  exact hshape u hu

theorem advanceSubtasks_kept :
    ∃ st', st.advanceSubtasks (lo + 1) = some st' ∧ Kept st st' ∧ st'.Shaped ∧
      Filed lo lo st'.Live st' := by
  refine foldlM_total (P := fun _ st' => Kept st st' ∧ st'.Shaped ∧ Filed lo lo st'.Live st') _ ?_
    ⟨.refl st, hshape, h⟩
  rintro _ cpu _ st1 _ ⟨hk, hshape, h⟩
  obtain ⟨st2, hst2, hkept2, hshape2, h2⟩ := advanceCpu_kept h hshape cpu
  exact ⟨st2, hst2, hk.trans hkept2, hshape2, h2⟩

/-- All linked tasks go on to their next subtasks, if none of them is absent. -/
theorem advanceSubtasks_present
    (hso : st.Sorted) (hpre : ∀ c l, st.linked c = some l → (st.task l).present = true) :
    ∃ st', st.advanceSubtasks (lo + 1) = some st' ∧ Kept st st' ∧ st'.Shaped ∧
      Filed lo lo st'.Live st' ∧ st'.Sorted ∧
      (∀ c l, st.linked c = some l → st'.task l = (st.task l).advanced (lo + 1) c) ∧
      (∀ u, (∀ c, st.linked c ≠ some u) → st'.task u = st.task u) ∧
      (∀ c u, st'.linked c = some u → st.linked c = some u) := by
  have hloo := foldlM_total (f := advanceCpu (lo + 1)) (s := st)
    (P := fun before st1 => (Kept st st1 ∧ st1.Shaped ∧ Filed lo lo st1.Live st1 ∧ st1.Sorted) ∧
      (∀ c ∈ before, ∀ l, st.linked c = some l → st1.task l = (st.task l).advanced (lo + 1) c) ∧
      (∀ u, (∀ c ∈ before, st.linked c ≠ some u) → st1.task u = st.task u) ∧
      (∀ c, c ∉ before → st1.linked c = st.linked c) ∧
      ∀ c u, st1.linked c = some u → st.linked c = some u) (finRange n) ?_
    ⟨⟨.refl st, hshape, h, hso⟩, by simp, fun _ _ => rfl, fun _ _ => rfl, fun _ _ hu => hu⟩
  · obtain ⟨st', hst', ⟨hk, hshape', h', hsorted'⟩, hdo, ho, _, hba⟩ := hloo
    exact ⟨st', hst', hk, hshape', h', hsorted', fun c => hdo c (mem_finRange c),
      fun u hu => ho u fun c _ => hu c, hba⟩
  rintro before cpu after st1 hsp ⟨⟨hk, hshape1, h1, hsorted1⟩, hdo, ho, hto, hba⟩
  have hnw : cpu ∉ before := by
    have hnd := nodup_finRange n
    rw [hsp, nodup_append] at hnd
    intro hin
    exact hnd.2.2 cpu hin cpu mem_cons_self rfl
  have hs := hto cpu hnw
  rcases hl : st.linked cpu with _ | l
  · refine ⟨st1, by simp [advanceCpu, hs, hl], ⟨hk, hshape1, h1, hsorted1⟩, ?_, ?_, ?_, hba⟩
    · intro c hc l hcl
      rcases mem_append.mp hc with hc | hc
      · exact hdo c hc l hcl
      rw [mem_singleton.mp hc, hl] at hcl
      cases hcl
    · intro u hu
      exact ho u fun c hc => hu c (mem_append_left _ hc)
    intro c hc
    exact hto c fun hin => hc (mem_append_left _ hin)
  -- the task has not been advanced on another CPU
  have hta : st1.task l = st.task l := ho l fun c hc hcl =>
    hnw (h.linked_inj hcl hl ▸ hc)
  obtain ⟨st2, hst2, hkept2, htask2, hlink2, h2, hsorted2⟩ :=
    advanceCpu_present h1 hshape1 (hs.trans hl) (.inl (by rw [hta]; exact hpre cpu l hl))
  have hot : ∀ u, u ≠ l → st2.task u = st1.task u := by
    intro u hu
    rw [htask2, update_of_ne hu]
  have hse : st2.task l = (st.task l).advanced (lo + 1) cpu := by
    rw [htask2, update_self, hta]
  refine ⟨st2, hst2, ⟨hk.trans hkept2, ?_, h2, hsorted2 hsorted1⟩, ?_, ?_, ?_, ?_⟩
  · intro u hu
    by_cases hul : u = l
    · subst hul
      rw [hse]
      exact (hshape u (h.live_of_linked hl).1).advanced
    rw [hot u hul] at hu ⊢
    exact hshape1 u hu
  · intro c hc k hck
    rcases mem_append.mp hc with hc | hc
    · have hne : k ≠ l := by
        rintro rfl
        exact hnw (h.linked_inj hck hl ▸ hc)
      rw [hot k hne]
      exact hdo c hc k hck
    rw [mem_singleton.mp hc] at hck ⊢
    cases hl.symm.trans hck
    exact hse
  · intro u hu
    have hne : u ≠ l := by
      rintro rfl
      exact hu cpu (mem_append_right _ mem_cons_self) hl
    rw [hot u hne]
    exact ho u fun c hc => hu c (mem_append_left _ hc)
  · intro c hc
    have hne : c ≠ cpu := by
      rintro rfl
      exact hc (mem_append_right _ mem_cons_self)
    rw [← hto c fun hin => hc (mem_append_left _ hin), hlink2]
    split
    · rw [update_of_ne hne]
    rfl
  · intro c u hu
    rw [hlink2] at hu
    split at hu
    · by_cases hc : c = cpu
      · subst hc
        rw [update_self] at hu
        cases hu
      rw [update_of_ne hc] at hu
      exact hba c u hu
    exact hba c u hu

end

end Advance

/-! ### Linking -/

section Link

variable {lo hi time : Nat} {L : TaskId → Prop} {st st' : State n} {cpu target : Fin n}
  {t : TaskId}

/-- The links after task `t` has been linked for `cpu` with the CPU `target` as its goal. -/
def linkedAfter (linked : Fin n → Option TaskId) (target cpu : Fin n) (t : TaskId) :
    Fin n → Option TaskId :=
  if target = cpu then update linked cpu (some t)
  else match linked target with
    | some o => if target < cpu then
          update (update linked target (some t)) cpu (some o)
        else update linked target (some t)
    | none => update linked target (some t)

/-- The task that goes back to the ready queue. -/
def pushedOff (linked : Fin n → Option TaskId) (target cpu : Fin n) : Option TaskId :=
  if target = cpu then linked cpu
  else match linked target with
    | some o => if target < cpu then linked cpu else some o
    | none => none

/-- Whether `cpu` is considered again. -/
def mustRetry (linked : Fin n → Option TaskId) (target cpu : Fin n) : Bool :=
  decide (target ≠ cpu) && (!(linked target).isSome || decide (cpu < target))

theorem linked_of_pushedOff {linked : Fin n → Option TaskId} {p : TaskId}
    (hp : pushedOff linked target cpu = some p) : ∃ c, linked c = some p := by
  unfold pushedOff at hp
  split at hp
  · exact ⟨cpu, hp⟩
  split at hp
  · rename_i o ho
    split at hp
    · exact ⟨cpu, hp⟩
    exact ⟨target, ho.trans hp⟩
  cases hp

theorem pfairLink_eq (htar : st.targetCpu time t cpu = some target) :
    st.pfairLink time cpu t = ({ st with linked := linkedAfter st.linked target cpu t }.pushBack
        (pushedOff st.linked target cpu)).map fun st' => (mustRetry st.linked target cpu, st') := by
  unfold pfairLink
  rw [htar, Option.bind_some]
  by_cases heq : target = cpu
  · subst heq
    simp [linkedAfter, pushedOff, mustRetry, setLinked]
  rcases ho : st.linked target with _ | o
  · simp [linkedAfter, pushedOff, mustRetry, setLinked, heq, ho, pushBack]
  by_cases hlt : target < cpu
  · have hn : ¬cpu < target := by omega
    simp [linkedAfter, pushedOff, mustRetry, setLinked, heq, ho, hlt, hn]
  have hgt : cpu < target := by omega
  simp [linkedAfter, pushedOff, mustRetry, setLinked, heq, ho, hlt, hgt, pushBack]

/-- The links move as they should: `t` comes in and the task pushed off goes out. -/
theorem Filed.linkedAfter (h : Filed lo hi L st) (ht : ¬L t) (hr : (st.task t).curRelease ≤ hi + 1)
    (target cpu : Fin n) :
    Filed lo hi (fun v => v = t ∨ some v ≠ pushedOff st.linked target cpu ∧ L v)
      { st with linked := linkedAfter st.linked target cpu t } := by
  unfold State.linkedAfter pushedOff
  by_cases heq : target = cpu
  · rw [if_pos heq, if_pos heq]
    rcases hp : st.linked cpu with _ | p
    · exact (h.link ht hp hr).congr_live (by simp)
    exact (h.relink ht hp hr).congr_live (by simp)
  rw [if_neg heq, if_neg heq]
  rcases ho : st.linked target with _ | o
  · exact (h.link ht ho hr).congr_live (by simp)
  have hre := h.relink ht ho hr
  have hLo := h.live_of_linked ho
  have hot : o ≠ t := by
    rintro rfl
    exact ht hLo
  by_cases hlt : target < cpu
  · -- the other task takes the place of the previous one
    simp only [hlt, if_true]
    have hn : ¬(o = t ∨ o ≠ o ∧ L o) := by simp [hot]
    have hc : (st.setLinked target (some t)).linked cpu = st.linked cpu := by
      simp [setLinked, Ne.symm heq]
    have hro := h.linked target o ho
    rcases hp : st.linked cpu with _ | p
    · refine (hre.link hn (hc.trans hp) hro).congr_live fun v => ?_
      by_cases hv : v = o
      · simp [hv, hLo]
      simp [hv]
    have hpo : p ≠ o := by
      rintro rfl
      exact heq (h.linked_inj ho hp)
    have hpt : p ≠ t := by
      rintro rfl
      exact ht (h.live_of_linked hp)
    refine (hre.relink hn (hc.trans hp) hro).congr_live fun v => ?_
    by_cases hvo : v = o
    · simp [hvo, hLo, Ne.symm hpo]
    by_cases hvp : v = p
    · simp [hvp, hpt, hpo]
    simp [hvo, hvp]
  simp only [hlt, if_false]
  exact hre.congr_live (by simp)

theorem Filed.pfairLink (h : Filed lo hi L st) (ht : ¬L t) (hmerge : st.mergeTime = hi + 1)
    (hr : (st.task t).curRelease ≤ hi + 1) (htar : st.targetCpu time t cpu = some target) :
    ∃ st', st.pfairLink time cpu t = some (mustRetry st.linked target cpu, st') ∧ Kept st st' ∧
      st'.task = st.task ∧ st'.linked = State.linkedAfter st.linked target cpu t ∧
      st'.releaseQueue = st.releaseQueue ∧
      st'.readyQueue = (match pushedOff st.linked target cpu with
        | some p => st.readyQueue.insert st.order p
        | none => st.readyQueue) ∧
      Filed lo hi (fun v => v = t ∨ L v) st' := by
  have hln := h.linkedAfter ht hr target cpu
  rw [pfairLink_eq htar]
  rcases hp : pushedOff st.linked target cpu with _ | p
  · refine ⟨_, rfl, ⟨rfl, rfl, rfl, rfl, rfl⟩, rfl, rfl, rfl, rfl, ?_⟩
    rw [hp] at hln
    exact hln.congr_live (by simp)
  obtain ⟨c, hc⟩ := linked_of_pushedOff hp
  have hLp := h.live_of_linked hc
  have hpt : p ≠ t := by
    rintro rfl
    exact ht hLp
  rw [hp] at hln
  obtain ⟨st', hst', heq, hfl⟩ := hln.addReady (t := p) (by simp [hpt])
    ((h.linked c p hc).trans_eq hmerge.symm)
  refine ⟨st', by simp [pushBack, hst'], ?_⟩
  subst heq
  refine ⟨⟨rfl, rfl, rfl, rfl, rfl⟩, rfl, rfl, rfl, rfl, hfl.congr_live fun v => ?_⟩
  by_cases hv : v = p
  · simp [hv, hLp]
  simp [hv]

/-- The state once the task that `__peek_ready` has shown is taken. -/
def taken (st : State n) (t : TaskId) : State n :=
  (st.setReady (st.readyQueue.take st.order).2).setInHeap t false

theorem Filed.takePeeked (h : Filed lo hi L st) (hn : st.peekReady.1 = some t) :
    st.peekReady.2.takeReady = (some t, st.taken t) ∧
      Filed lo hi (fun u => u ≠ t ∧ L u) (st.taken t) ∧ t ∈ st.readyQueue.elems := by
  have htw : st.peekReady.2.readyQueue.take st.peekReady.2.order =
      st.readyQueue.take st.order := by
    simp [State.peekReady, setReady, order, Heap.peek, Heap.take, Heap.cacheMin_cacheMin]
  have hta := hn
  obtain ⟨heq, hfl⟩ := h.peekReady.takeReady (t := t) (by rw [htw]; exact hta)
  rw [htw] at heq hfl
  refine ⟨heq, hfl, ?_⟩
  rw [Heap.elems_take_some hta]
  exact Multiset.mem_cons_self t _

section

variable (h : Filed lo hi L st) (hmerge : st.mergeTime = hi + 1)

include h hmerge

/-- Taking the task that `__peek_ready` has shown and linking it keeps the tasks in the system. -/
theorem Filed.linkPeeked (hn : st.peekReady.1 = some t) {retry : Bool}
    (hli : (st.taken t).pfairLink time cpu t = some (retry, st')) :
    Kept st st' ∧ st'.task = st.task ∧ Filed lo hi L st' := by
  obtain ⟨_, hfl, hrd⟩ := h.takePeeked hn
  have hLt := h.live_of_ready hrd
  have hr := (h.ready t hrd).trans_eq hmerge
  rcases htr : (st.taken t).targetCpu time t cpu with _ | target
  · rw [State.pfairLink, htr] at hli
    cases hli
  obtain ⟨st1, h1, hk, hta, _, _, _, hfiled1⟩ :=
    hfl.pfairLink (fun hu => hu.1 rfl) hmerge hr htr
  rw [h1] at hli
  cases hli
  refine ⟨⟨hk.mergeTime, hk.curTick, hk.pfairTime, hk.tickPeriod, hk.current⟩,
    hta, hfiled1.congr_live fun u => ?_⟩
  by_cases hu : u = t
  · simp [hu, hLt]
  simp [hu]

theorem Filed.scheduleCpu {fuel : Nat} (hst' : st.scheduleCpu time cpu fuel = some st') :
    Kept st st' ∧ st'.task = st.task ∧ Filed lo hi L st' := by
  induction fuel generalizing st with
  | zero => cases hst'
  | succ fuel ih =>
    simp only [State.scheduleCpu] at hst'
    split at hst'
    · rename_i hpr
      rcases hn : st.peekReady.1 with _ | t
      · rw [hn] at hpr
        cases hpr
      simp only [(h.takePeeked hn).1] at hst'
      obtain ⟨⟨retry, st1⟩, hlin, hst'⟩ := Option.bind_eq_some_iff.mp hst'
      obtain ⟨hk, hta, hfl⟩ := h.linkPeeked hmerge hn hlin
      split at hst'
      · obtain ⟨hkept', htask', hfiled'⟩ := ih hfl (hk.mergeTime.trans hmerge) hst'
        exact ⟨hk.trans hkept', htask'.trans hta, hfiled'⟩
      cases hst'
      exact ⟨hk, hta, hfl⟩
    cases hst'
    exact ⟨⟨rfl, rfl, rfl, rfl, rfl⟩, rfl, h.peekReady⟩

theorem Filed.scheduleSubtasks {fuel : Nat} (hst' : st.scheduleSubtasks time fuel = some st') :
    Kept st st' ∧ st'.task = st.task ∧ Filed lo hi L st' := by
  refine foldlM_kept (P := fun st' => Kept st st' ∧ st'.task = st.task ∧ Filed lo hi L st') ?_
    ⟨.refl st, rfl, h⟩ hst'
  rintro st1 cpu st2 ⟨hk, hta, h1⟩ hst2
  obtain ⟨hkept', htask', h2⟩ := h1.scheduleCpu (hk.mergeTime.trans hmerge) hst2
  exact ⟨hk.trans hkept', htask'.trans hta, h2⟩

end

end Link

end State

end Litmus.Pfair
