import Litmus.FmlpExclusion

/-!
# Priority inheritance under GSN-EDF

The holder of a semaphore is recorded when a task takes it without waiting.  A task that
is handed the semaphore is not recorded, so that later waiters do not boost it.
-/

namespace Litmus.Fmlp

open BinomialForest FifoLock Runs List

/-! ### Base priorities -/

def bare (task : TaskTable) : TaskTable := fun t => { task t with inhTask := none }

/-- `edf_higher_prio` on base priorities -/
def baseHigher (task : TaskTable) (a b : TaskId) : Bool := edfReadyOrder (bare task) a b

/-- The tasks of `S` are real-time tasks whose deadlines can be compared. -/
def Comparable (task : TaskTable) (S : Set TaskId) : Prop :=
  (∀ t ∈ S, (task t).realtime = true) ∧ Windowed task S

section

variable {task : TaskTable} {S S' : Set TaskId} {a b t : TaskId}

theorem Comparable.mono (h : Comparable task S) (hsu : S' ⊆ S) : Comparable task S' := by
  obtain ⟨hrt, base, hbas⟩ := h
  exact ⟨fun t ht => hrt t (hsu ht), base, fun t ht => hbas t (hsu ht)⟩

theorem Comparable.strictWeakOn (h : Comparable task S) : StrictWeakOn (baseHigher task) S :=
  strictWeakOn_edfReadyOrder (fun t ht => ⟨h.1 t ht, rfl⟩) h.2

theorem Comparable.setInh (h : Comparable task S) (t : TaskId) (inh : Option TaskId) :
    Comparable (task.modify t fun p => { p with inhTask := inh }) S := by
  have hrea := task.modify_field (fun p => p.realtime)
    (fun p => { p with inhTask := inh }) (fun _ => rfl) t
  have hdea := task.modify_field (fun p => p.job.deadline)
    (fun p => { p with inhTask := inh }) (fun _ => rfl) t
  obtain ⟨hrt, base, hbas⟩ := h
  refine ⟨fun u hu => ?_, base, fun u hu => ?_⟩
  · rw [hrea]
    exact hrt u hu
  rw [hdea]
  exact hbas u hu

theorem Comparable.setDeadline (h : Comparable task S) (deadline : LtTime) (ht : t ∉ S) :
    Comparable (task.modify t fun p => { p with job := { p.job with deadline := deadline } })
      S := by
  have ho : ∀ u ∈ S, (task.modify t fun p =>
      { p with job := { p.job with deadline := deadline } }) u = task u := by
    intro u hu
    apply TaskTable.modify_of_ne
    rintro rfl
    exact ht hu
  obtain ⟨hrt, base, hbas⟩ := h
  refine ⟨fun u hu => ?_, base, fun u hu => ?_⟩
  · rw [ho u hu]
    exact hrt u hu
  rw [ho u hu]
  exact hbas u hu

theorem bare_setInh (task : TaskTable) (t : TaskId) (inh : Option TaskId) :
    bare (task.modify t fun p => { p with inhTask := inh }) = bare task := by
  funext u
  by_cases hu : u = t
  · subst hu
    simp [bare]
  simp [bare, TaskTable.modify_of_ne _ _ hu]

theorem edfHigherPrio_eq_baseHigher (ha : (task a).inhTask = none) (hb : (task b).inhTask = none) :
    edfHigherPrio task (some a) (some b) = baseHigher task a b := by
  unfold baseHigher edfReadyOrder edfHigherPrio
  simp [bare, ha, hb]

theorem baseHigher_setDeadline (deadline : LtTime) (ha : (task a).realtime = true)
    (hb : (task b).realtime = true) (hat : a ≠ t) (hbt : b ≠ t) :
    (baseHigher (task.modify t fun p => { p with job := { p.job with deadline := deadline } })
      a b ↔ baseHigher task a b) := by
  have hbar : bare (task.modify t fun p =>
      { p with job := { p.job with deadline := deadline } }) =
        (bare task).modify t fun p => { p with job := { p.job with deadline := deadline } } := by
    funext u
    by_cases hu : u = t
    · subst hu
      simp [bare]
    simp [bare, TaskTable.modify_of_ne _ _ hu]
  unfold baseHigher
  rw [hbar]
  exact edfReadyOrder_modify _ ⟨ha, rfl⟩ ⟨hb, rfl⟩ hat hbt

end

/-! ### The owner inherits -/

/-- The owner is recorded, and it inherits from a highest-priority waiter if that has a
    higher base priority. -/
def Follows (st : State) : Prop :=
  ∀ t ∈ st.owners, st.pi.holder = some t ∧ ((∃ w ∈ st.waiters, baseHigher st.pi.task w t) →
      ∃ w ∈ st.waiters, (st.pi.task t).inhTask = some w ∧
        ∀ v ∈ st.waiters, ¬baseHigher st.pi.task v w)

/-- The owner `t` inherits from `m`, which has the highest base priority among the owner and
    the waiters. -/
structure Leads (pi : Pi) (t : TaskId) (waiting : List TaskId) (m : TaskId) : Prop where
  holder : pi.holder = some t
  hp : pi.hpTask = some m
  mem : m ∈ t :: waiting
  best : ∀ v ∈ t :: waiting, ¬baseHigher pi.task v m
  inh : (pi.task t).inhTask = if m = t then none else some m
  others : ∀ u, u ≠ t → (pi.task u).inhTask = none
  fresh : t ∉ waiting
  comparable : Comparable pi.task { u | u ∈ t :: waiting }

/-- What holds while the semaphore is not handed over. -/
def Led (st : State) (l : Lock TaskId) : Prop :=
  st.wait = l.waiting.map sleeping ∧ match l.owner with
    | none => ∀ u, (st.pi.task u).inhTask = none
    | some t => ∃ m, Leads st.pi t l.waiting m

section

variable {st st' : State} {l : Lock TaskId} {t m : TaskId}

theorem Led.follows (h : Led st l) (hrf : Refines st l) : Follows st := by
  intro t ht
  have hl : l.owner = some t := by
    rw [hrf.owners] at ht
    simpa using ht
  obtain ⟨-, hle⟩ := h
  simp only [hl] at hle
  obtain ⟨m, hm⟩ := hle
  refine ⟨hm.holder, ?_⟩
  rintro ⟨w, hw, hhig⟩
  rw [hrf.waiters] at hw ⊢
  have hmt : m ≠ t := by
    rintro rfl
    exact hm.best w (mem_cons_of_mem m hw) hhig
  refine ⟨m, ?_, ?_, ?_⟩
  · exact (mem_cons.mp hm.mem).resolve_left hmt
  · rw [hm.inh, if_neg hmt]
  exact fun v hv => hm.best v (mem_cons_of_mem t hv)

theorem Leads.piBlock {waiting : List TaskId} {pi : Pi} {u : TaskId} (h : Leads pi t waiting m)
    (hu : u ∉ t :: waiting) (hcm : Comparable pi.task { v | v ∈ t :: (waiting ++ [u]) }) :
    ∃ m', Leads (gsnEdf.piBlock u pi) t (waiting ++ [u]) m' := by
  have hut : u ≠ t := fun heq => hu (heq ▸ mem_cons_self)
  have hpla : (pi.task m).inhTask = none := by
    by_cases hmt : m = t
    · rw [hmt, h.inh, if_pos hmt]
    exact h.others m hmt
  have hcp : edfHigherPrio pi.task (some u) pi.hpTask = baseHigher pi.task u m := by
    rw [h.hp]
    exact edfHigherPrio_eq_baseHigher (h.others u hut) hpla
  have hold : ∀ {v}, v ∈ t :: waiting → v ∈ t :: (waiting ++ [u]) := by
    intro v hv
    rw [← cons_append]
    exact mem_append_left _ hv
  have hsp : ∀ {v}, v ∈ t :: (waiting ++ [u]) → v ∈ t :: waiting ∨ v = u := by
    intro v hv
    rw [← cons_append] at hv
    exact (mem_append.mp hv).imp id mem_singleton.mp
  have huf : t ∉ waiting ++ [u] := by
    intro ht
    rcases mem_append.mp ht with ht | ht
    · exact h.fresh ht
    exact hut (mem_singleton.mp ht).symm
  have hum : u ∈ t :: (waiting ++ [u]) := by simp
  by_cases hhi : baseHigher pi.task u m = true
  · refine ⟨u, ?_⟩
    have hbes : ∀ v ∈ t :: (waiting ++ [u]), ¬baseHigher pi.task v u := by
      intro v hv
      have hS := hcm.strictWeakOn
      have hmu : ¬baseHigher pi.task m u := fun hmu => hS.asymm u hum m (hold h.mem) hhi hmu
      rcases hsp hv with hv | rfl
      · exact hS.negTrans v (hold hv) m (hold h.mem) u hum (h.best v hv) hmu
      exact fun huu => hS.asymm v hum v hum huu huu
    have hpi : gsnEdf.piBlock u pi = { pi with hpTask := some u }.setInh t (some u) := by
      simp [gsnEdf, hcp, hhi, h.holder]
    rw [hpi]
    constructor
    · exact h.holder
    · rfl
    · exact hum
    · intro v hv
      simp only [Pi.setInh, baseHigher, bare_setInh]
      exact hbes v hv
    · simp [Pi.setInh, hut]
    · intro v hv
      simp only [Pi.setInh, TaskTable.modify_of_ne _ _ hv]
      exact h.others v hv
    · exact huf
    · exact hcm.setInh t (some u)
  refine ⟨m, ?_⟩
  have hpi : gsnEdf.piBlock u pi = pi := by
    simp [gsnEdf, hcp, hhi]
  rw [hpi]
  constructor
  · exact h.holder
  · exact h.hp
  · exact hold h.mem
  · intro v hv
    rcases hsp hv with hv | rfl
    · exact h.best v hv
    exact hhi
  · exact h.inh
  · exact h.others
  · exact huf
  · exact hcm

/-! ### Steps -/

/-- Non-nested use: the owner does not ask for the semaphore again.  The caller, the owner
    and the waiters are real-time tasks whose deadlines can be compared. -/
def Proper (st : State) : Op → Prop
  | .fmlpDown t => t ∉ st.owners ∧
      Comparable st.pi.task { u | u = t ∨ u ∈ st.owners ∨ u ∈ st.waiters }
  | _ => True

def NoHandOver (st : State) : Op → Prop
  | .fmlpUp _ => st.waiters = []
  | _ => True

theorem Led.init {task : TaskTable} (hta : ∀ t, (task t).inhTask = none) :
    Led (State.init task) Lock.free := ⟨rfl, hta⟩

theorem Led.fmlpDown (h : Led st l) (hrf : Refines st l) (hfa : l.Fair) (hr : ¬st.InDown t)
    (hpro : Proper st (.fmlpDown t)) : Led (st.fmlpDown gsnEdf t) (l.request t) := by
  obtain ⟨hw, hle⟩ := h
  obtain ⟨hnot, hcm⟩ := hpro
  unfold State.fmlpDown Lock.request
  dsimp only
  rw [hrf.suspends hfa]
  cases how : l.owner with
  | none =>
    simp only [how] at hle
    have hn : l.waiting = [] := hfa.busy how
    simp only [Option.isSome_none, Bool.false_eq_true, if_false]
    refine ⟨hw, t, ?_⟩
    have hpi : gsnEdf.inheritPriority t
        ({ st.pi with holder := some t, hpTask := some t }.setCpuTask (st.pi.partition t)
          (some t)) =
        ({ st.pi with holder := some t, hpTask := some t }.setCpuTask (st.pi.partition t)
          (some t)) := by
      simp [gsnEdf, Pi.setCpuTask]
    rw [hpi, hn]
    have hS := hcm.mono fun u hu => .inl (mem_singleton.mp hu)
    constructor
    · rfl
    · rfl
    · exact mem_cons_self
    · intro v hv
      rw [mem_singleton.mp hv]
      have ht : t ∈ { u | u ∈ [t] } := mem_singleton_self t
      exact fun htt => hS.strictWeakOn.asymm t ht t ht htt htt
    · rw [if_pos rfl]
      exact hle t
    · exact fun u _ => hle u
    · exact not_mem_nil
    · exact hS
  | some o =>
    simp only [how] at hle
    obtain ⟨m, hm⟩ := hle
    have hwn : st.owners = {o} := by
      rw [hrf.owners, how]
      rfl
    have hout : t ∉ o :: l.waiting := by
      intro ht
      rcases mem_cons.mp ht with rfl | ht
      · exact hnot (by rw [hwn]; exact Multiset.mem_singleton_self t)
      apply hr
      unfold State.InDown
      rw [hw, map_tsk_sleeping]
      exact ht
    have hS : Comparable st.pi.task { v | v ∈ o :: (l.waiting ++ [t]) } := by
      refine hcm.mono ?_
      intro v hv
      rcases mem_cons.mp hv with rfl | hv
      · refine .inr (.inl ?_)
        rw [hwn]
        exact Multiset.mem_singleton_self v
      rcases mem_append.mp hv with hv | hv
      · refine .inr (.inr ?_)
        rw [hrf.waiters]
        exact hv
      exact .inl (mem_singleton.mp hv)
    simp only [Option.isSome_some, if_true]
    refine ⟨?_, hm.piBlock hout hS⟩
    simp [hw, sleeping]

theorem Led.newJob {deadline : LtTime} (h : Led st l) (hrf : Refines st l) (hn : t ∉ st.owners)
    (hr : ¬st.InDown t) : Led (st.setDeadline t deadline) l := by
  obtain ⟨hw, hle⟩ := h
  have hin := st.pi.task.modify_field (fun p => p.inhTask)
    (fun p => { p with job := { p.job with deadline := deadline } }) (fun _ => rfl) t
  refine ⟨hw, ?_⟩
  cases how : l.owner with
  | none =>
    simp only [how] at hle ⊢
    intro u
    exact (hin u).trans (hle u)
  | some o =>
    simp only [how] at hle ⊢
    obtain ⟨m, hm⟩ := hle
    have hou : t ∉ o :: l.waiting := by
      intro ht
      rcases mem_cons.mp ht with rfl | ht
      · apply hn
        rw [hrf.owners, how]
        exact Multiset.mem_singleton_self t
      apply hr
      unfold State.InDown
      rw [hw, map_tsk_sleeping]
      exact ht
    have hne : ∀ {v}, v ∈ o :: l.waiting → v ≠ t := by
      rintro v hv rfl
      exact hou hv
    refine ⟨m, ?_⟩
    constructor
    · exact hm.holder
    · exact hm.hp
    · exact hm.mem
    · intro v hv hhig
      apply hm.best v hv
      exact (baseHigher_setDeadline deadline (hm.comparable.1 v hv)
        (hm.comparable.1 m hm.mem) (hne hv) (hne hm.mem)).mp hhig
    · exact (hin o).trans hm.inh
    · exact fun u hu => (hin u).trans (hm.others u hu)
    · exact hm.fresh
    · exact hm.comparable.setDeadline deadline hou

theorem Led.fmlpUp (h : Led st l) (hrf : Refines st l) (how : t ∈ st.owners)
    (hr : ¬st.InDown t) (hn : st.waiters = []) (hup : st.fmlpUp gsnEdf t = some st') :
    Led st' l.release := by
  obtain ⟨hl, hw⟩ := hrf.asleep how hr
  obtain ⟨-, hle⟩ := h
  simp only [hl] at hle
  obtain ⟨m, hm⟩ := hle
  rw [hrf.waiters] at hn
  rw [hn] at hw hm
  have hmt : m = t := mem_singleton.mp hm.mem
  rw [hrf.fmlpUp_eq how hr, hn] at hup
  obtain ⟨pi, hpi, rfl⟩ := Option.map_eq_some_iff.mp hup
  have hpi' : pi = { st.pi with hpTask := none }.setInh t none := by
    have hhp : some t = st.pi.hpTask := by rw [hm.hp, hmt]
    simp only [gsnEdf, if_pos hhp, hw, map_nil, edfSetHpTask, edfSetHp, Option.map_some,
      Option.some.injEq] at hpi
    exact hpi.symm
  unfold Lock.release
  rw [hn]
  refine ⟨hw, ?_⟩
  intro u
  simp only [State.handOver, hpi', Pi.setInh]
  by_cases hu : u = t
  · subst hu
    simp
  rw [TaskTable.modify_of_ne _ _ hu]
  exact hm.others u hu

theorem not_follows_of_handOver {w : TaskId} {ws : List TaskId} (hrf : Refines st l)
    (how : t ∈ st.owners) (hr : ¬st.InDown t) (hws : l.waiting = w :: ws)
    (hup : st.fmlpUp gsnEdf t = some st') : ¬Follows st' := by
  rw [hrf.fmlpUp_eq how hr, hws] at hup
  obtain ⟨pi, -, rfl⟩ := Option.map_eq_some_iff.mp hup
  intro hfo
  obtain ⟨hhol, -⟩ := hfo w (Multiset.mem_singleton_self w)
  have hn : ∀ q : Pi, (gsnEdf.inheritPriority w q).holder = q.holder := by
    intro q
    simp only [gsnEdf]
    split
    · split <;> rfl
    rfl
  simp [State.handOver, hn] at hhol

theorem Led.step {op : Op} (h : Led st l) (hrf : Refines st l) (hfai : l.Fair)
    (hpro : Proper st op) (hno : NoHandOver st op) (hs : Step gsnEdf st op st') :
    Led st' (l.exec op.abs) := by
  obtain ⟨hl, hx⟩ := hs
  cases op with
  | fmlpDown t =>
    cases hx
    exact h.fmlpDown hrf hfai hl.2 hpro
  | resume t =>
    -- nobody has been woken
    have ht : awake t ∈ st.wait := hl
    rw [h.1] at ht
    simp [awake, sleeping] at ht
  | fmlpUp t => exact h.fmlpUp hrf hl.1 hl.2 hno hx
  | newJob t deadline =>
    cases hx
    exact h.newJob hrf hl.1 hl.2

/-- The steps of non-nested use that hand nothing over. -/
def QuietStep (st : State) (op : Op) (st' : State) : Prop :=
  Step gsnEdf st op st' ∧ Proper st op ∧ NoHandOver st op

theorem quiet_led {task : TaskTable} {ops : List Op} (hta : ∀ t, (task t).inhTask = none)
    (hr : Run QuietStep (State.init task) ops st) :
    ∃ l : Lock TaskId, l.Fair ∧ Refines st l ∧ Led st l := by
  refine hr.invariant (I := fun st => ∃ l : Lock TaskId, l.Fair ∧ Refines st l ∧ Led st l) ?_
    ⟨Lock.free, Lock.Fair.free, Refines.init task, Led.init hta⟩
  rintro st op st' ⟨l, hfa, hrf, hled⟩ ⟨hs, hpro, hno⟩
  exact ⟨_, hfa.exec op.abs, hrf.step hfa hs, hled.step hrf hfa hpro hno hs⟩

end

/-- Under non-nested use, starting with tasks that inherit nothing: as long as no `fmlp_up`
    finds a waiter the recorded holder is the owner and it inherits from a highest-priority
    waiter, and the first `fmlp_up` that finds one breaks this. -/
theorem fmlp_inheritance_follows_iff {task : TaskTable} {ops : List Op} {st st' : State}
    {op : Op} (htask : ∀ t, (task t).inhTask = none)
    (hrun : Run QuietStep (State.init task) ops st) (hstep : Step gsnEdf st op st')
    (hproper : Proper st op) : Follows st ∧ (Follows st' ↔ NoHandOver st op) := by
  obtain ⟨l, hfair, href, hled⟩ := quiet_led htask hrun
  refine ⟨hled.follows href, ?_⟩
  constructor
  · intro hfollows
    cases op with
    | fmlpUp t =>
      obtain ⟨⟨howner, hout⟩, hup⟩ := hstep
      cases hws : l.waiting with
      | nil =>
        unfold NoHandOver
        rw [href.waiters, hws]
      | cons w ws => exact absurd hfollows (not_follows_of_handOver href howner hout hws hup)
    | _ => trivial
  intro hno
  exact (hled.step href hfair hproper hno hstep).follows (href.step hfair hstep)

/-- Task 2 has a later deadline than the others. -/
def lateTwo : TaskTable := fun t =>
  (RtTask.admitted ⟨2, 10, 0, .noEnforcement⟩).releaseAt (if t = 2 then 20 else 10)

theorem comparable_lateTwo (S : Set TaskId) : Comparable lateTwo S := by
  refine ⟨fun t _ => rfl, 0, fun t _ => ?_⟩
  by_cases ht : t = 2
  · subst ht
    decide
  have ho : lateTwo t = lateTwo 1 := by simp [lateTwo, ht]
  rw [ho]
  decide

/-- Task 2 owns the semaphore and inherits from task 3. -/
theorem fmlp_inheritance_follows_waiter :
    ∃ st st', Run QuietStep (State.init lateTwo) [.fmlpDown 2] st ∧
      Step gsnEdf st (.fmlpDown 3) st' ∧ (st'.owners = {2} ∧ (st'.pi.task 2).inhTask = some 3) ∧
      Follows st' := by
  let st₀ := State.init lateTwo
  let st₁ := st₀.fmlpDown gsnEdf 2
  have htask : st₁.pi.task = lateTwo := by
    simp [st₁, st₀, State.fmlpDown, State.init, gsnEdf, Pi.setCpuTask]
  have hfirst : QuietStep st₀ (.fmlpDown 2) st₁ :=
    ⟨⟨by decide, rfl⟩, ⟨by decide, comparable_lateTwo _⟩, trivial⟩
  have hrun : Run QuietStep st₀ [.fmlpDown 2] st₁ := .cons hfirst .nil
  have hs : Step gsnEdf st₁ (.fmlpDown 3) (st₁.fmlpDown gsnEdf 3) := ⟨by decide, rfl⟩
  have hproper : Proper st₁ (.fmlpDown 3) := ⟨by decide, htask ▸ comparable_lateTwo _⟩
  have hall := fmlp_inheritance_follows_iff (fun _ => rfl) hrun hs hproper
  exact ⟨st₁, _, hrun, hs, by decide +kernel, hall.2.mpr trivial⟩

/-- Task 1 hands the semaphore to task 2, which is not recorded; task 3 arrives with an
    earlier deadline and does not boost it. -/
theorem fmlp_owner_not_recorded :
    ∃ st, Run (Step gsnEdf) (State.init lateTwo)
      [.fmlpDown 1, .fmlpDown 2, .fmlpUp 1, .resume 2, .fmlpDown 3] st ∧
      (st.owners = {2} ∧ st.pi.holder = none ∧ st.waiters = [3] ∧
        baseHigher st.pi.task 3 2 ∧ (st.pi.task 2).inhTask = none) ∧ ¬Follows st := by
  refine Run.exists_of_check (Q := fun st => st.owners = {2} ∧ st.pi.holder = none ∧
      st.waiters = [3] ∧ baseHigher st.pi.task 3 2 ∧ (st.pi.task 2).inhTask = none)
    (fun _ _ _ hl hx => ⟨of_decide_eq_true hl, hx⟩) (by decide +kernel) ?_
  intro st hrun hall
  refine ⟨hall, fun hfollows => ?_⟩
  obtain ⟨hholder, -⟩ := hfollows 2 (by rw [hall.1]; exact Multiset.mem_singleton_self 2)
  cases hall.2.1.symm.trans hholder

end Litmus.Fmlp
