import Litmus.SemiMigration

/-!
# Slice budgets and the enforcement timer

A slice is over when the job has run for the slice's budget since the slice started.  The
enforcement timer, and the `BUG_ON` in `arm_enforcement_timer`, compare the job's whole
execution time with the budgets of all slices so far.  The two agree as long as no slice
but the last of a job is ended late.
-/

namespace Litmus.SemiPart

open SlicedTask SemiState Runs Option

/-! ### One task -/

/-- The current slice started when the budgets of the slices before it were used up, and
    not later. -/
structure OnTime (pl : Plugin) (p : SlicedTask) : Prop extends SliceInv pl p where
  started : p.semi.execTime.toNat = budgetOf p.slices p.semi.slice

def Unstarted (p : SlicedTask) : Prop := p.semi.slice = 0 ∧ p.job.execTime = 0

section

variable {n : Nat} {pl : Plugin} {queued : Bool} {p p' : SlicedTask}

theorem onTime_unflagged : OnTime pl p.unflagged ↔ OnTime pl p :=
  ⟨fun h => ⟨⟨h.index, h.cost, h.cpu, h.reference, h.deadline, h.edf⟩, h.started⟩,
    fun h => ⟨⟨h.index, h.cost, h.cpu, h.reference, h.deadline, h.edf⟩, h.started⟩⟩

theorem OnTime.congr (h : p'.unflagged = p.unflagged) (hp : OnTime pl p) : OnTime pl p' := by
  rw [← onTime_unflagged, h, onTime_unflagged]
  exact hp

theorem toNat_sliceExecTime (h : p.semi.execTime ≤ p.job.execTime) :
    p.sliceExecTime.toNat = p.job.execTime.toNat - p.semi.execTime.toNat :=
  BitVec.toNat_sub_of_le h

theorem sliceBudgetExhausted_iff (h : p.semi.execTime ≤ p.job.execTime) :
    p.sliceBudgetExhausted = true ↔
      p.semi.execTime.toNat + p.sliceBudget.toNat ≤ p.job.execTime.toNat := by
  have hle := BitVec.le_def.mp h
  rw [sliceBudgetExhausted, decide_eq_true_iff, BitVec.le_def, toNat_sliceExecTime h]
  omega

theorem OnTime.budgetExhausted_iff (hp : OnTime pl p)
    (hfit : budgetOf p.slices p.slices.length < 2 ^ 64) :
    p.toRtTask.budgetExhausted = true ↔ p.sliceBudgetExhausted = true := by
  rw [sliceBudgetExhausted_iff hp.reference, RtTask.budgetExhausted, decide_eq_true_iff,
    BitVec.le_def, hp.cost, toNat_budgetsUpTo hfit hp.index, budgetOf_succ hp.index, hp.started]
  rfl

theorem sliceBudget_pos (hp : Checked n p) (hid : p.semi.slice < p.slices.length) :
    0 < p.sliceBudget.toNat := by
  have hmin : MIN_SLICE_SIZE ≤ p.sliceBudget := by
    apply hp.budget
    change p.slices.getD p.semi.slice default ∈ p.slices
    rw [List.getD_eq_getElem?_getD, List.getElem?_eq_getElem hid]
    exact List.getElem_mem hid
  exact lt_of_lt_of_le (by decide) (BitVec.le_def.mp hmin)

theorem not_exhausted_at_start (hp : Checked n p) (hidx : p.semi.slice < p.slices.length)
    (hsa : p.semi.execTime = p.job.execTime) : p.sliceBudgetExhausted = false := by
  have hpos := sliceBudget_pos hp hidx
  rw [Bool.eq_false_iff, Ne, sliceBudgetExhausted_iff (BitVec.le_of_eq hsa), hsa]
  omega

theorem onTime_startJob (pl : Plugin) (hpos : 0 < p.slices.length) (h0 : p.semi.slice = 0) :
    OnTime pl ((p.startJob pl).computeSliceParams pl) ∧
      Unstarted ((p.startJob pl).computeSliceParams pl) ∧
      ((p.startJob pl).computeSliceParams pl).semi.execTime =
        ((p.startJob pl).computeSliceParams pl).job.execTime := by
  have hun : Unstarted ((p.startJob pl).computeSliceParams pl) := by
    cases pl <;> exact ⟨h0, rfl⟩
  refine ⟨⟨sliceInv_startJob pl hpos h0, ?_⟩, hun, by cases pl <;> rfl⟩
  rw [hun.1]
  cases pl <;> rfl

theorem OnTime.advance {signaled : Bool} (hp : OnTime pl p) (hche : Checked n p)
    (hen : p.nextSlice pl signaled ≠ 0 → p.sliceExecTime = p.sliceBudget)
    (h : p.advanceNextSlice pl queued signaled = some p') :
    OnTime pl p' ∧ p'.sliceBudgetExhausted = false := by
  have hchecked' : Checked n p' := hche.of_constants (constants_advance h)
  rcases advanceNextSlice_cases hp.index h with ⟨_, rfl⟩ | ⟨hn, hlt, rfl⟩
  · obtain ⟨hon, _, hsa⟩ := onTime_startJob (p := p.setSlice 0) pl
      (Nat.zero_lt_of_lt hp.index) rfl
    exact ⟨hon, not_exhausted_at_start hchecked' hon.index hsa⟩
  have hI := hp.toSliceInv.moveOn hlt
  refine ⟨⟨hI, ?_⟩, not_exhausted_at_start hchecked' hI.index (by cases pl <;> rfl)⟩
  have hen := congrArg BitVec.toNat (hen (by omega))
  rw [toNat_sliceExecTime hp.reference, hp.started] at hen
  have hle := BitVec.le_def.mp hp.reference
  rw [hp.started] at hle
  change p.job.execTime.toNat = budgetOf p.slices (p.semi.slice + 1)
  rw [budgetOf_succ hp.index]
  change _ = budgetOf p.slices p.semi.slice + p.sliceBudget.toNat
  omega

theorem onTime_releaseAt {start : LtTime} (hsl : p.isSlicedTask = true) (hche : Checked n p)
    (h : p.releaseAt pl queued start = some p') :
    OnTime pl p' ∧ Unstarted p' ∧ p'.sliceBudgetExhausted = false := by
  have hchecked' : Checked n p' := hche.of_constants (constants_releaseAt h)
  obtain ⟨u, hsli, h0, rfl⟩ := releaseAt_wraps hsl h
  have hpos : 0 < u.slices.length := by
    rw [hsli]
    exact length_pos_of_sliced hsl
  obtain ⟨hon, huns, hsa⟩ := onTime_startJob pl hpos h0
  exact ⟨onTime_unflagged.mpr hon, huns, not_exhausted_at_start hchecked' hon.index hsa⟩

theorem OnTime.updateTime (hp : OnTime pl p) (delta : LtTime)
    (hfit : p.job.execTime.toNat + delta.toNat < 2 ^ 64) : OnTime pl (p.updateTime delta) :=
  ⟨hp.toSliceInv.updateTime delta hfit, hp.started⟩

theorem OnTime.fastForward {timePassed : LtTime} (hp : OnTime pl p)
    (hn : p.sliceBudgetExhausted = false) (hsl : p.semi.slice = 0)
    (h : p.fastForwardSlices pl queued timePassed = some p') :
    OnTime pl p' ∧ p'.sliceBudgetExhausted = false := by
  have hcos : p.params.execCost = p.sliceBudget := by
    rw [hp.cost, hsl, budgetsUpTo_succ (hsl ▸ hp.index), sliceBudget, slice, hsl]
    exact BitVec.zero_add _
  unfold fastForwardSlices at h
  split at h
  · cases h
  rename_i hbug
  have hlt := RtTask.add_lt_execCost hbug
  rw [hcos] at hlt
  obtain ⟨u, hu, hlo⟩ := bind_eq_some_iff.mp h
  have hs : p.endSlice pl queued = some p := by
    rw [endSlice, SlicedTask.budgetExhausted, if_pos hp.sliced, hn]
    rfl
  obtain rfl : p = u := some.inj (hs.symm.trans hu)
  have hx := toNat_sliceExecTime hp.reference
  have hsta : ¬(timePassed ≠ 0 ∧ p.sliceBudgetRemaining ≤ timePassed) := by
    rintro ⟨-, hle⟩
    have hle := BitVec.le_def.mp hle
    rw [sliceBudgetRemaining, BitVec.toNat_sub_of_le (BitVec.le_def.mpr (by omega))] at hle
    omega
  rw [fastForwardLoop, if_neg hsta] at hlo
  cases hlo
  have hfi : p.job.execTime.toNat + timePassed.toNat < 2 ^ 64 :=
    lt_trans hlt p.sliceBudget.isLt
  have hp' := hp.updateTime timePassed hfi
  refine ⟨hp', ?_⟩
  rw [Bool.eq_false_iff, Ne, sliceBudgetExhausted_iff hp'.reference]
  change ¬p.semi.execTime.toNat + p.sliceBudget.toNat ≤ (p.job.execTime + timePassed).toNat
  rw [BitVec.toNat_add, Nat.mod_eq_of_lt hfi]
  omega

theorem OnTime.resume {now : LtTime} (hp : OnTime pl p) (hch : Checked n p)
    (huns : Unstarted p) (h : p.resume pl queued now = some p') :
    OnTime pl p' ∧ p'.sliceBudgetExhausted = false := by
  obtain ⟨hsi, hx⟩ := huns
  have hsa : p.semi.execTime = p.job.execTime := by
    apply BitVec.eq_of_toNat_eq
    rw [hp.started, hsi, hx]
    rfl
  have hn : p.sliceBudgetExhausted = false := not_exhausted_at_start hch hp.index hsa
  have hsl := hp.sliced
  unfold SlicedTask.resume at h
  dsimp only at h
  split at h
  · split at h
    · obtain ⟨hont, -, hnot'⟩ := onTime_releaseAt hsl hch h
      exact ⟨hont, hnot'⟩
    cases h
    exact ⟨hp, hn⟩
  obtain ⟨u, hu, hok⟩ := bind_eq_some_iff.mp h
  split at hok
  · cases hok
  cases hok
  exact hp.fastForward hn hsi hu

end

/-! ### Runs of the machine -/

/-- A `schedule` that ends a slice but not the job finds its budget just used up. -/
def EndsOnTime (pl : Plugin) (p : SlicedTask) : Prop :=
  p.sliceBudgetExhausted = true → p.nextSlice pl (p.flags == .sleep) ≠ 0 →
    p.sliceExecTime = p.sliceBudget

/-- The step neither blocks task `x` nor ends a slice of it late. -/
def Punctual {n : Nat} (pl : Plugin) (x : TaskId) (st : SemiState n) : SemiOp n → Prop
  | .schedule c _ _ => (st.dom c).scheduled = some x → EndsOnTime pl (st.task x)
  | .block c _ _ => (st.dom c).scheduled ≠ some x
  | _ => True

def PunctualStep {n : Nat} (pl : Plugin) (x : TaskId) (st : SemiState n) (op : SemiOp n)
    (st' : SemiState n) : Prop :=
  SemiStep pl st op st' ∧ Punctual pl x st op

/-- Task `x` runs on time, and only while it is scheduled may its slice be used up. -/
structure Enforced {n : Nat} (pl : Plugin) (x : TaskId) (st : SemiState n) : Prop where
  inv : MigrationInv st
  realtime : (st.task x).realtime = true
  onTime : OnTime pl (st.task x)
  fit : budgetOf (st.task x).slices (st.task x).slices.length < 2 ^ 64
  slice : (∃ c, (st.dom c).scheduled = some x) ∨ (st.task x).sliceBudgetExhausted = false
  asleep : (st.task x).running = false → Unstarted (st.task x)

/-- A step that is not about task `x`. -/
structure Bystander {n : Nat} (x : TaskId) (st st' : SemiState n) : Prop where
  same : (st'.task x).unflagged = (st.task x).unflagged
  slot : ∀ c, (st.dom c).scheduled = some x → (st'.dom c).scheduled = some x

section

variable {n : Nat} {pl : Plugin} {x t : TaskId} {c : Fin n} {p : SlicedTask}
  {st st₁ st' : SemiState n}

theorem Enforced.bystander (h : Enforced pl x st) (hI : MigrationInv st')
    (hb : Bystander x st st') : Enforced pl x st' := by
  have hsli := congr_unflagged (fun p => p.slices) (fun _ => rfl) hb.same
  have hexh := congr_unflagged sliceBudgetExhausted (fun _ => rfl) hb.same
  have hco := constants_of_unflagged hb.same
  refine ⟨hI, (realtime_of_constants hco).trans h.realtime, h.onTime.congr hb.same,
    hsli ▸ h.fit, ?_, fun hasl => ?_⟩
  · rcases h.slice with ⟨c, hc⟩ | hn
    · exact .inl ⟨c, hb.slot c hc⟩
    exact .inr (hexh.trans hn)
  have hun := congr_unflagged Unstarted (fun _ => rfl) hb.same
  rw [hun]
  exact h.asleep ((running_of_constants hco).symm.trans hasl)

theorem Bystander.of_onlyAt (hon : OnlyAt c st₁ st') (hdom : st₁.dom = st.dom)
    (hta : st₁.task x = st.task x)
    (hs : (st.dom c).scheduled = some x → (st'.dom c).scheduled = some x) :
    Bystander x st st' where
  same := (hon.same x).trans (congrArg unflagged hta)
  slot c' hc' := by
    by_cases hc : c' = c
    · subst hc
      exact hs hc'
    rw [hon.others c' hc, hdom]
    exact hc'

theorem Enforced.completed (h : Enforced pl x st) (hr : (st.task x).running = true)
    (hp : Completed pl st x p) (hend : EndsOnTime pl (st.task x)) :
    OnTime pl p ∧ p.sliceBudgetExhausted = false := by
  have hch := (h.inv.home x h.realtime).checked
  have hsl := h.onTime.sliced
  have henf : (st.task x).budgetEnforced = true := by
    rw [RtTask.budgetEnforced, hch.enforced hsl]
    rfl
  have hbud : (st.task x).budgetExhausted = (st.task x).sliceBudgetExhausted := if_pos hsl
  have hcom : completes (st.task x) =
      ((st.task x).sliceBudgetExhausted || (st.task x).flags == .sleep) := by
    rw [completes, outOfTime, henf, hbud, hr, Bool.true_and, Bool.and_true]
  unfold Completed at hp
  rw [hcom] at hp
  split at hp
  · rename_i hdo
    rw [jobOrSliceCompletion, if_pos hsl] at hp
    refine h.onTime.advance hch (fun hn => ?_) hp
    refine hend ?_ hn
    rcases (Bool.or_eq_true _ _).mp hdo with hex | hsle
    · exact hex
    rw [hsle] at hn
    exact absurd rfl hn
  rename_i hdo
  subst hp
  refine ⟨h.onTime, ?_⟩
  cases hex : (st.task x).sliceBudgetExhausted with
  | false => rfl
  | true =>
    rw [hex] at hdo
    exact absurd rfl hdo

theorem Enforced.setTask (h : Enforced pl x st) (hI : MigrationInv st')
    (hs : (st'.task x).unflagged = p.unflagged) (hrt : p.realtime = true)
    (hsli : p.slices = (st.task x).slices) (hont : OnTime pl p)
    (hn : p.sliceBudgetExhausted = false) (hasl : p.running = false → Unstarted p) :
    Enforced pl x st' := by
  have hco := constants_of_unflagged hs
  have hslices' := (congr_unflagged (fun p => p.slices) (fun _ => rfl) hs).trans hsli
  refine ⟨hI, (realtime_of_constants hco).trans hrt, hont.congr hs,
    hslices' ▸ h.fit, .inr ?_, fun hr => ?_⟩
  · exact (congr_unflagged sliceBudgetExhausted (fun _ => rfl) hs).trans hn
  have hun := congr_unflagged Unstarted (fun _ => rfl) hs
  rw [hun]
  exact hasl ((running_of_constants hco).symm.trans hr)

theorem Enforced.other (h : Enforced pl x st) (hI : MigrationInv st')
    (hsl : (st.dom c).scheduled ≠ some x) (honl : OnlyAt c st₁ st') (hdom : st₁.dom = st.dom)
    (hta : st₁.task x = st.task x) (hh : ∀ u ∈ (st'.dom c).held, u ∈ (st.dom c).held) :
    Enforced pl x st' ∧
      ((st'.dom c).scheduled = some x → (st'.task x).sliceBudgetExhausted = false) := by
  have hb := Bystander.of_onlyAt honl hdom hta (fun hs => absurd hs hsl)
  refine ⟨h.bystander hI hb, fun hpic => ?_⟩
  have hin : x ∈ (st.dom c).held := hh x (CpuDomain.mem_held.mpr (.inl hpic))
  have hn : (st.task x).sliceBudgetExhausted = false := by
    rcases h.slice with ⟨c', hc'⟩ | hn
    · have hcc := h.inv.held_unique hin (CpuDomain.mem_held.mpr (.inl hc'))
      exact absurd (hcc ▸ hc') hsl
    exact hn
  exact (congr_unflagged sliceBudgetExhausted (fun _ => rfl) hb.same).trans hn

theorem Enforced.schedule (h : Enforced pl x st) (hs : Scheduled pl c st st')
    (hend : (st.dom c).scheduled = some x → EndsOnTime pl (st.task x)) : Enforced pl x st' ∧
      ((st'.dom c).scheduled = some x → (st'.task x).sliceBudgetExhausted = false) := by
  have hI := h.inv.schedule hs
  -- what `schedule` does to `x` itself when `x` is the scheduled task
  have hse : ∀ {p}, (st.dom c).scheduled = some x → (st.task x).running = true →
      Completed pl st x p → (st'.task x).unflagged = p.unflagged → Enforced pl x st' ∧
      ((st'.dom c).scheduled = some x → (st'.task x).sliceBudgetExhausted = false) := by
    intro p slot running completed hsa
    obtain ⟨hont, hn⟩ := h.completed running completed (hend slot)
    have hco := completed.constants
    refine ⟨h.setTask hI hsa ((realtime_of_constants hco).trans h.realtime)
      (congrArg Prod.fst hco) hont hn (fun has => ?_), fun _ => ?_⟩
    · rw [running_of_constants hco, running] at has
      cases has
    exact (congr_unflagged sliceBudgetExhausted (fun _ => rfl) hsa).trans hn
  cases hs with
  | idle slot only held =>
    refine h.other hI (by simp [slot]) only rfl rfl fun u hu => ?_
    rwa [held] at hu
  | blocked t slot running _ _ =>
    obtain ⟨-, -, -, -, hr⟩ := h.inv.slot slot
    exact nomatch (running.symm.trans hr)
  | kept t p slot running completed _ only held =>
    by_cases ht : t = x
    · subst ht
      refine hse slot running completed ?_
      rw [only.same, setTask_task_self]
    refine h.other hI (by simpa [slot] using ht) only rfl
      (setTask_task_of_ne (Ne.symm ht)) fun u hu => ?_
    rwa [held] at hu
  | migrated t p slot running completed _ only held =>
    by_cases ht : t = x
    · subst ht
      refine hse slot running completed ?_
      rw [only.same]
      exact congrArg unflagged setTask_task_self
    refine h.other hI (by simpa [slot] using ht) only rfl
      (setTask_task_of_ne (Ne.symm ht)) fun u hu => ?_
    rw [held]
    exact Multiset.mem_cons_of_mem hu

theorem Bystander.of_requeue {now : LtTime} (h : st₁.requeue now c t = some st')
    (hdo : st₁.dom = st.dom) (hta : st₁.task x = st.task x) : Bystander x st st' := by
  obtain ⟨honl, hsch, -⟩ := requeue_spec h
  refine .of_onlyAt honl hdo hta fun hs => ?_
  rw [hsch, hdo]
  exact hs

theorem Enforced.wakeUp {now requeued : LtTime} (h : Enforced pl x st)
    (hl : st.Legal pl (.taskWakeUp t now requeued))
    (hx : st.exec pl (.taskWakeUp t now requeued) = some st') : Enforced pl x st' := by
  have hI := h.inv.wakeUpStep hl.1 hl.2 hx
  obtain ⟨c, p, hp, hput⟩ := wakeUp_spec (h.inv.not_mem_places (fun _ => hl.2)) hx
  obtain ⟨hsa, hslo⟩ := putBack_slot hput
  by_cases ht : t = x
  · subst ht
    have hawa : OnTime pl ((st.task t).modify (RtTask.setRunning true)) :=
      ⟨⟨h.onTime.index, h.onTime.cost, h.onTime.cpu, h.onTime.reference, h.onTime.deadline,
        h.onTime.edf⟩, h.onTime.started⟩
    have hche : Checked n ((st.task t).modify (RtTask.setRunning true)) := by
      obtain ⟨honl, hbud, henf⟩ := (h.inv.home t h.realtime).checked
      exact ⟨honl, hbud, henf⟩
    have hco := constants_resume hp
    obtain ⟨hont, hn⟩ := hawa.resume hche (h.asleep hl.2) hp
    refine h.setTask hI ((hsa t).trans (congrArg unflagged setTask_task_self))
      ((realtime_of_constants hco).trans h.realtime) (congrArg Prod.fst hco) hont
      hn (fun has => ?_)
    rw [running_of_constants hco] at has
    cases has
  refine h.bystander hI
    ⟨(hsa x).trans (congrArg unflagged (setTask_task_of_ne (Ne.symm ht))), fun c' hs => ?_⟩
  rw [hslo]
  exact hs

theorem bystander_taskNew {params : TaskParams} {slices : List Slice} {running : Bool}
    {now requeued : LtTime} (hne : t ≠ x)
    (hx : st.exec pl (.taskNew t params slices running now requeued) = some st') :
    Bystander x st st' := by
  obtain ⟨c, -, h⟩ := bind_eq_some_iff.mp hx
  dsimp only at h
  rw [setTask_task_self, setTask_setTask] at h
  split at h
  · split at h
    · cases h
    rename_i hsl
    cases h
    refine .of_onlyAt (onlyAt_setCpu c _ _) rfl (setTask_task_of_ne hne.symm) fun hs => ?_
    exact absurd (isSome_of_eq_some hs) hsl
  exact .of_requeue h rfl (setTask_task_of_ne hne.symm)

theorem Enforced.step {op : SemiOp n} (h : Enforced pl x st) (hste : PunctualStep pl x st op st') :
    Enforced pl x st' := by
  obtain ⟨hse, hpu⟩ := hste
  have hI := h.inv.step hse
  obtain ⟨hl, hx⟩ := hse
  cases op with
  | schedule c prev now => exact (h.schedule (schedule_spec hx) hpu).1
  | block c now resched =>
    obtain ⟨t, p, slot, -, -, only, held⟩ := block_spec h.inv hx
    have hne : t ≠ x := fun ht => hpu (ht ▸ slot)
    exact h.bystander hI (.of_onlyAt only rfl (setTask_task_of_ne hne.symm)
      (fun hs => absurd hs hpu))
  | requeueRemote t now =>
    obtain ⟨c, -, hrq⟩ := bind_eq_some_iff.mp hx
    exact h.bystander hI (.of_requeue hrq rfl rfl)
  | releaseTimer c i =>
    obtain ⟨edf, hedf, rfl⟩ := map_eq_some_iff.mp hx
    refine h.bystander hI (.of_onlyAt (onlyAt_setDomain c edf st) rfl rfl fun hs => ?_)
    rw [setDomain_dom]
    exact hs
  | releaseJobs c i =>
    obtain ⟨edf, hedf, rfl⟩ := map_eq_some_iff.mp hx
    obtain ⟨honl, hsch, -⟩ := checkResched_spec c (st.setDomain c edf)
    refine h.bystander hI
      (.of_onlyAt ((onlyAt_setDomain c edf st).trans honl) rfl rfl fun hs => ?_)
    rw [hsch, setDomain_dom]
    exact hs
  | taskWakeUp t now requeued => exact h.wakeUp hl hx
  | taskNew t params slices running now requeued =>
    have hne : t ≠ x := by
      rintro rfl
      exact nomatch (h.realtime.symm.trans hl.1)
    exact h.bystander hI (bystander_taskNew hne hx)
  | releaseAt t start =>
    obtain ⟨p, hp, rfl⟩ := map_eq_some_iff.mp hx
    by_cases ht : t = x
    · subst ht
      have hco := constants_releaseAt hp
      obtain ⟨hont, huns, hn⟩ := onTime_releaseAt h.onTime.sliced
        (h.inv.home t h.realtime).checked hp
      exact h.setTask hI (congrArg unflagged setTask_task_self)
        ((realtime_of_constants hco).trans h.realtime) (congrArg Prod.fst hco) hont
        hn (fun _ => huns)
    exact h.bystander hI ⟨congrArg unflagged (setTask_task_of_ne (Ne.symm ht)), fun _ hs => hs⟩
  | execute c delta =>
    obtain ⟨t, slot, rfl⟩ := map_eq_some_iff.mp hx
    by_cases ht : t = x
    · subst ht
      obtain ⟨-, -, -, -, hr⟩ := h.inv.slot slot
      have hta : (st.setTask t ((st.task t).updateTime delta)).task t =
          (st.task t).updateTime delta := setTask_task_self
      refine ⟨hI, ?_, ?_, ?_, .inl ⟨c, slot⟩, ?_⟩ <;> rw [hta]
      · exact h.realtime
      · exact h.onTime.updateTime delta (hl t slot)
      · exact h.fit
      · exact fun hasl => nomatch (hr.symm.trans hasl)
    exact h.bystander hI ⟨congrArg unflagged (setTask_task_of_ne (Ne.symm ht)), fun _ hs => hs⟩
  | completeJob c =>
    obtain ⟨t, slot, rfl⟩ := map_eq_some_iff.mp hx
    exact h.bystander hI ⟨(onlyAt_setFlags c t .sleep st).same x, fun _ hs => hs⟩

end

/-- After a release, and as long as no `schedule` ends a slice of `x` late and `x` does not
    block, a `schedule` that returns `x` finds its budget not exhausted: the `BUG_ON` in
    `arm_enforcement_timer` does not fire. -/
theorem enforcement_timer_agrees {n : Nat} {pl : Plugin} {task : TaskId → SlicedTask}
    {tickPeriod : Nat} (hnone : ∀ t, (task t).realtime = false)
    {before after : List (SemiOp n)} {st₀ st₁ st₂ st₃ : SemiState n} {x : TaskId}
    {start : LtTime} (hbefore : Run (SemiStep pl) (init task tickPeriod) before st₀)
    (hsliced : (st₀.task x).isSlicedTask = true)
    (hfit : budgetOf (st₀.task x).slices (st₀.task x).slices.length < 2 ^ 64)
    (hrelease : SemiStep pl st₀ (.releaseAt x start) st₁)
    (hafter : Run (PunctualStep pl x) st₁ after st₂) {c : Fin n} {prev : TaskId}
    {now : LtTime} (hschedule : PunctualStep pl x st₂ (.schedule c prev now) st₃)
    (hreturns : (st₃.dom c).scheduled = some x) :
    (st₃.task x).toRtTask.budgetExhausted = false := by
  have hinv₀ := migrationInv_of_run hnone hbefore
  have hinv₁ := hinv₀.step hrelease
  obtain ⟨⟨hrt, hblocked⟩, hx⟩ := hrelease
  obtain ⟨p, hp, rfl⟩ := map_eq_some_iff.mp hx
  have hconst := constants_releaseAt hp
  obtain ⟨hontime, hunstarted, hnot⟩ := onTime_releaseAt hsliced (hinv₀.home x hrt).checked hp
  have hstart : Enforced pl x (st₀.setTask x p) := by
    refine ⟨hinv₁, ?_, ?_, ?_, .inr ?_, fun _ => ?_⟩ <;> rw [setTask_task_self]
    · exact (realtime_of_constants hconst).trans hrt
    · exact hontime
    · have hslices : p.slices = (st₀.task x).slices := congrArg Prod.fst hconst
      rw [hslices]
      exact hfit
    · exact hnot
    · exact hunstarted
  have hend : Enforced pl x st₂ := hafter.invariant (fun _ _ _ hI hs => hI.step hs) hstart
  obtain ⟨hfinal, hreturned⟩ := hend.schedule (schedule_spec hschedule.1.2) hschedule.2
  rw [Bool.eq_false_iff, Ne, hfinal.onTime.budgetExhausted_iff hfinal.fit, ← Ne,
    ← Bool.eq_false_iff]
  exact hreturned hreturns

/-- Both slices of a job end on time. -/
theorem enforcement_timer_agrees_two_slices :
    ∃ st₀ st₁ st₂ st₃ : SemiState 2, Run (SemiStep .cd) (init noSlicedTasks 1000000)
        [.taskNew 1 twoSlices.params twoSlices.slices false 0 0, .schedule 0 0 0,
          .block 0 0 0] st₀ ∧
      SemiStep .cd st₀ (.releaseAt 1 0) st₁ ∧
      Run (PunctualStep .cd 1) st₁
        [.taskWakeUp 1 0 0, .schedule 0 0 0, .execute 0 50000, .schedule 0 1 50000,
          .requeueRemote 1 50000, .schedule 1 0 50000, .execute 1 49999] st₂ ∧
      PunctualStep .cd 1 st₂ (.schedule 1 1 99999) st₃ ∧
      (st₃.dom 1).scheduled = some 1 ∧
      (st₃.task 1).toRtTask.budgetExhausted = false := by
  obtain ⟨st₀, st₁, st₂, st₃, hbefore, hsliced, hfit, hrelease, hafter, hschedule, hreturns⟩ :
      ∃ st₀ st₁ st₂ st₃ : SemiState 2, Run (SemiStep .cd) (init noSlicedTasks 1000000)
          [.taskNew 1 twoSlices.params twoSlices.slices false 0 0, .schedule 0 0 0,
            .block 0 0 0] st₀ ∧
        (st₀.task 1).isSlicedTask = true ∧
        budgetOf (st₀.task 1).slices (st₀.task 1).slices.length < 2 ^ 64 ∧
        SemiStep .cd st₀ (.releaseAt 1 0) st₁ ∧
        Run (PunctualStep .cd 1) st₁
          [.taskWakeUp 1 0 0, .schedule 0 0 0, .execute 0 50000, .schedule 0 1 50000,
            .requeueRemote 1 50000, .schedule 1 0 50000, .execute 1 49999] st₂ ∧
        PunctualStep .cd 1 st₂ (.schedule 1 1 99999) st₃ ∧
        (st₃.dom 1).scheduled = some 1 :=
    ⟨_, _, _, _, .cons ⟨⟨rfl, by decide, by decide, by decide, by decide⟩, rfl⟩
        (.cons ⟨trivial, rfl⟩ (.cons ⟨trivial, rfl⟩ .nil)),
      rfl, by decide, ⟨⟨rfl, rfl⟩, rfl⟩,
      .cons ⟨⟨⟨rfl, rfl⟩, rfl⟩, trivial⟩ (.cons ⟨⟨trivial, rfl⟩, fun h => by cases h⟩
        (.cons ⟨⟨fun t ht => by cases ht; decide, rfl⟩, trivial⟩
        (.cons ⟨⟨trivial, rfl⟩, fun _ _ _ => rfl⟩
        (.cons ⟨⟨List.mem_cons_self, rfl⟩, trivial⟩
        (.cons ⟨⟨trivial, rfl⟩, fun h => by cases h⟩
        (.cons ⟨⟨fun t ht => by cases ht; decide, rfl⟩, trivial⟩ .nil)))))),
      ⟨⟨trivial, rfl⟩, fun _ h => by cases h⟩, rfl⟩
  exact ⟨st₀, st₁, st₂, st₃, hbefore, hrelease, hafter, hschedule, hreturns,
    enforcement_timer_agrees (fun _ => rfl) hbefore hsliced hfit hrelease hafter hschedule hreturns⟩

/-- The first slice of a job is ended 5 µs late.  In the second, the budget of the slice
    still lasts when that of the job is used up, and `schedule` returns the task. -/
theorem enforcement_timer_bug :
    ∃ st₀ st₁ st₂ st₃ : SemiState 2, Run (SemiStep .cd) (init noSlicedTasks 1000000)
        [.taskNew 1 twoSlices.params twoSlices.slices false 0 0, .schedule 0 0 0,
          .block 0 0 0] st₀ ∧
      SemiStep .cd st₀ (.releaseAt 1 0) st₁ ∧
      Run (SemiStep .cd) st₁
        [.taskWakeUp 1 0 0, .schedule 0 0 0, .execute 0 55000, .schedule 0 1 55000,
          .requeueRemote 1 55000, .schedule 1 0 55000, .execute 1 46000] st₂ ∧
      SemiStep .cd st₂ (.schedule 1 1 101000) st₃ ∧
      (st₃.dom 1).scheduled = some 1 ∧
      (st₃.task 1).toRtTask.budgetExhausted = true :=
  ⟨_, _, _, _, .cons ⟨⟨rfl, by decide, by decide, by decide, by decide⟩, rfl⟩
      (.cons ⟨trivial, rfl⟩ (.cons ⟨trivial, rfl⟩ .nil)),
    ⟨⟨rfl, rfl⟩, rfl⟩,
    .cons ⟨⟨rfl, rfl⟩, rfl⟩ (.cons ⟨trivial, rfl⟩
      (.cons ⟨fun t ht => by cases ht; decide, rfl⟩
      (.cons ⟨trivial, rfl⟩
      (.cons ⟨List.mem_cons_self, rfl⟩
      (.cons ⟨trivial, rfl⟩
      (.cons ⟨fun t ht => by cases ht; decide, rfl⟩ .nil)))))),
    ⟨trivial, rfl⟩, rfl, rfl⟩

end Litmus.SemiPart
