import Litmus.PfairQuantum

/-!
# Releases in PFAIR

The invariant of the release wheel over whole runs.  The entry points compute the quantum a
task is filed for in different ways and none of them checks it; the wheel stays right as
long as every task is filed for a quantum after the last one scheduled and within one turn
of the last one merged.
-/

namespace Litmus.Pfair

open BinomialForest Custody Runs Function PfairTask RtTask Option Multiset

variable {n : Nat}

namespace State

/-- The wheel is right: every task is in the slot of its release, which is ahead of the
    last quantum merged by at most one turn, and ahead of the last one scheduled. -/
def Wheel (st : State n) : Prop :=
  ∀ i, ∀ t ∈ (st.releaseQueue i).elems, i = slot (st.task t).curRelease ∧
    st.mergeTime < (st.task t).curRelease ∧
    (st.task t).curRelease ≤ st.mergeTime + pfairMaxPeriod ∧ st.curTick < (st.task t).curRelease

/-- Quantum `r` may be filed for. -/
def inWheel (st : State n) (r : Nat) : Bool :=
  decide (st.curTick < r ∧ r ≤ st.mergeTime + pfairMaxPeriod)

/-- The step does not file a task outside the wheel. -/
def Fits (st : State n) : Op n → Bool
  | .taskNew _ params _ lastQuantum lastCpu =>
      decide (params.period = 0 ∨ params.period < params.execCost) ||
        (pfairAdmitTask st.tickPeriod params lastQuantum lastCpu).isNone ||
          st.inWheel (st.pfairTime + 1)
  | .wakeUp t now =>
      !(st.task t).pfair.sporadicRelease || st.inWheel (time2quanta st.tickPeriod now.toNat .ceil)
  | .releaseAt _ start => st.inWheel (st.releaseQuantum start)
  | _ => true

structure Inv (st : State n) : Prop where
  filed : Filed st.curTick st.mergeTime st.Live st
  shaped : st.Shaped
  merged : st.mergeTime ≤ st.curTick
  ahead : st.curTick ≤ st.pfairTime
  tick : 0 < st.tickPeriod

namespace Inv

variable {st st' : State n} {t : TaskId} {p : PfairTask n}

theorem wheel (h : Inv st) : st.Wheel := by
  intro i t ht
  obtain ⟨hs, hlt, hle⟩ := h.filed.wheel i t ht
  exact ⟨hs, h.merged.trans_lt hlt, hle, hlt⟩

theorem init {q mergeTime tickPeriod : Nat} (hm : mergeTime ≤ q) (htic : 0 < tickPeriod) :
    Inv (State.init q mergeTime tickPeriod : State n) where
  filed :=
    { custody :=
        { nodup := fun p => by rcases p with _ | i | c <;> exact nodup_zero
          unique := fun {p _ t} hp => by
            rcases p with _ | i | c <;> exact absurd hp (notMem_zero t)
          live_iff := fun t => by
            constructor
            · rintro ⟨p, hp⟩
              rcases p with _ | i | c <;> exact absurd hp (notMem_zero t)
            intro hl
            exact absurd hl.1 Bool.false_ne_true }
      node := fun t => by
        refine iff_of_false Bool.false_ne_true ?_
        rintro (hq | ⟨i, hq⟩) <;> exact absurd hq (notMem_zero t)
      wheel := fun i t ht => absurd ht (notMem_zero t)
      ready := fun t ht => absurd ht (notMem_zero t)
      linked := fun c t hc => by cases hc }
  shaped := fun t ht => absurd ht Bool.false_ne_true
  merged := hm
  ahead := Nat.le_refl q
  tick := htic

theorem congr (h : Inv st) (hta : st'.task = st.task) (hr : st'.readyQueue = st.readyQueue)
    (hrel : st'.releaseQueue = st.releaseQueue) (hhea : st'.inHeap = st.inHeap)
    (hlk : st'.linked = st.linked) (hme : st'.mergeTime = st.mergeTime)
    (hcu : st'.curTick = st.curTick) (htim : st.pfairTime ≤ st'.pfairTime)
    (htic : st'.tickPeriod = st.tickPeriod) : Inv st' := by
  have hl : ∀ u, st'.Live u ↔ st.Live u := live_congr fun u => by simp [hta]
  constructor
  · rw [hcu, hme]
    exact (h.filed.congr_live hl).congr hr hrel hhea hlk hme
      fun u _ => by rw [hta]
  · intro u hu
    rw [hta] at hu ⊢
    exact h.shaped u hu
  · rw [hcu, hme]
    exact h.merged
  · rw [hcu]
    exact h.ahead.trans htim
  · rw [htic]
    exact h.tick

/-- A change of one task that its release and its place do not depend on. -/
theorem modify (h : Inv st) (t : TaskId) (f : PfairTask n → PfairTask n)
    (hrt : ∀ p, (f p).realtime = p.realtime) (hpf : ∀ p, (f p).pfair = p.pfair) :
    Inv (st.modify t f) := by
  have hta : ∀ u, ((st.modify t f).task u).realtime = (st.task u).realtime ∧
      ((st.modify t f).task u).pfair = (st.task u).pfair := by
    intro u
    by_cases hu : u = t
    · subst hu
      rw [task_modify_self]
      exact ⟨hrt _, hpf _⟩
    simp [State.modify, hu]
  have hl := live_congr fun u => ⟨(hta u).1, congrArg _ (hta u).2⟩
  refine ⟨(h.filed.modify_keep f fun p => ?_).congr_live hl, ?_, h.merged, h.ahead, h.tick⟩
  · simp [curRelease, curSubtask, hpf]
  intro u hu
  rw [(hta u).2]
  exact h.shaped u ((hta u).1 ▸ hu)

theorem quantum (h : Inv st) (hahe : st.curTick < st.pfairTime) {fuel : Nat}
    (hst' : st.scheduleNextQuantum (st.curTick + 1) fuel = some st') : Inv st' := by
  obtain ⟨st1, hadv, hkept1, hshape1, hfiled1⟩ :=
    advanceSubtasks_kept (h.filed.mono h.merged) h.shaped
  unfold scheduleNextQuantum at hst'
  rw [hadv, bind_some] at hst'
  obtain ⟨st2, hlin, rfl⟩ := map_eq_some_iff.mp hst'
  have hmrg := h.merged
  have hpol := hfiled1.pollReleases rfl (Nat.lt_succ_self _) (by rw [hkept1.mergeTime]; omega)
  obtain ⟨hkept2, hta, hfiled2⟩ := hpol.scheduleSubtasks rfl hlin
  have hmer : st2.mergeTime = st.curTick + 1 := hkept2.mergeTime
  have htim : st2.pfairTime = st.pfairTime := hkept2.pfairTime.trans hkept1.pfairTime
  have htic : st2.tickPeriod = st.tickPeriod := hkept2.tickPeriod.trans hkept1.tickPeriod
  refine ⟨?_, ?_, hmer.le, ?_, ?_⟩
  · have hl : ∀ u, State.Live { st2 with curTick := st.curTick + 1 } u ↔ st1.Live u :=
      live_congr fun u => by
        rw [show State.task { st2 with curTick := st.curTick + 1 } = st1.task from hta]
        exact ⟨rfl, rfl⟩
    refine ((hfiled2.mono ?_).congr_live hl).congr rfl rfl rfl rfl rfl fun _ _ => rfl
    change st.curTick ≤ st2.mergeTime
    omega
  · intro u hu
    have hta : st2.task = st1.task := hta
    rw [hta]
    exact hshape1 u (by rw [← hta]; exact hu)
  · change st.curTick + 1 ≤ st2.pfairTime
    omega
  · rw [htic]
    exact h.tick

/-! ### The entry points that file a task -/

variable {L : TaskId → Prop} {r : Nat}

theorem file (h : Filed st.curTick st.mergeTime L st) (ht : ¬L t)
    (f : PfairTask n → PfairTask n) (hr : (f (st.task t)).curRelease = r)
    (hfit : st.inWheel r = true) :
    ∃ st', (st.modify t f).pfairAddRelease t = some st' ∧ Kept st st' ∧
      st'.task = update st.task t (f (st.task t)) ∧ st'.linked = st.linked ∧
      Filed st.curTick st.mergeTime (fun u => u = t ∨ L u) st' := by
  obtain ⟨hlo, hhi⟩ := decide_eq_true_iff.mp hfit
  obtain ⟨st', hst', hk, hta, hlk, hfl⟩ :=
    (h.modify_outside ht f).addRelease ht (by rw [task_modify_self, hr]; exact hlo)
      (by rw [task_modify_self, hr]; exact hhi)
  exact ⟨st', hst', ⟨hk.mergeTime, hk.curTick, hk.pfairTime, hk.tickPeriod,
    hk.current⟩, hta, hlk, hfl⟩

/-- The task that `pfair_task_new` files. -/
def newTask (st : State n) (params : TaskParams) (running : Option (Fin n)) (param : PfairParam) :
    PfairTask n :=
  { RtTask.admitted params with
    present := running.isSome
    scheduledOn := running
    pfair := { param with release := st.pfairTime + 1, cur := 0, sporadicRelease := false } }

/-- The CPU that runs a new task executes a real-time task from now on. -/
def startedOn (running : Option (Fin n)) (t : TaskId) (st : State n) : State n :=
  match running with
  | some c => { st with current := update st.current c (some t) }
  | none => st

theorem startedOn_fields (running : Option (Fin n)) (t : TaskId) (st : State n) :
    (startedOn running t st).task = st.task ∧ (startedOn running t st).inHeap = st.inHeap ∧
      (startedOn running t st).readyQueue = st.readyQueue ∧
      (startedOn running t st).releaseQueue = st.releaseQueue ∧
      (startedOn running t st).linked = st.linked ∧
      (startedOn running t st).mergeTime = st.mergeTime ∧
      (startedOn running t st).curTick = st.curTick ∧
      (startedOn running t st).pfairTime = st.pfairTime ∧
      (startedOn running t st).tickPeriod = st.tickPeriod := by
  rcases running with _ | c <;> exact ⟨rfl, rfl, rfl, rfl, rfl, rfl, rfl, rfl, rfl⟩

variable {params : TaskParams} {running : Option (Fin n)} {lastQuantum lastCpu : Nat}

theorem taskNew_eq
    {param : PfairParam} (hok : ¬(params.period = 0 ∨ params.period < params.execCost))
    (hpar : pfairAdmitTask st.tickPeriod params lastQuantum lastCpu = some param) :
    st.taskNew t params running lastQuantum lastCpu = ((startedOn running t st).modify t fun _ =>
        newTask st params running param).pfairAddRelease t := by
  simp only [State.taskNew, if_neg hok, hpar, pfairTaskNew]
  rcases running with _ | c
  · simp [startedOn, State.modify, newTask, prepareRelease, setPfair]
  simp [startedOn, State.modify, newTask, prepareRelease, setPfair]

theorem taskNew_spec (h : Inv st) (hrt : (st.task t).realtime = false) (hcos : params.execCost ≠ 0)
    (hfi : st.Fits (.taskNew t params running lastQuantum lastCpu) = true) :
    st.taskNew t params running lastQuantum lastCpu = some st ∨
      ∃ param st', pfairAdmitTask st.tickPeriod params lastQuantum lastCpu = some param ∧
        st.taskNew t params running lastQuantum lastCpu = some st' ∧
        Kept (startedOn running t st) st' ∧
        st'.task = update st.task t (newTask st params running param) ∧
        st'.linked = st.linked ∧ Inv st' := by
  by_cases hok : params.period = 0 ∨ params.period < params.execCost
  · exact .inl (if_pos hok)
  rcases hpa : pfairAdmitTask st.tickPeriod params lastQuantum lastCpu with _ | param
  · refine .inl ?_
    simp only [State.taskNew, if_neg hok, hpa]
  refine .inr ⟨param, ?_⟩
  obtain ⟨hwf, hcur, _, _⟩ := Wf.admitted h.tick hcos hpa
  have hne : (newTask st params running param).pfair.Wf :=
    ⟨hwf.quanta_pos, hwf.quanta_pos, hwf.period_lt, hwf.subtasks⟩
  have hre : (newTask st params running param).curRelease = st.pfairTime + 1 := by
    rw [curRelease_eq hne]
    simp [newTask]
  have hin : st.inWheel (st.pfairTime + 1) = true := by
    simp only [State.Fits, hpa, isNone_some, Bool.or_false, Bool.or_eq_true,
      decide_eq_true_eq] at hfi
    exact hfi.resolve_left hok
  obtain ⟨hta, hhea, hr, hrel, hli, hme, hcurTick, htim, htic⟩ :=
    startedOn_fields running t st
  have hliv : ¬st.Live t := fun hl => absurd hl.1 (by rw [hrt]; exact Bool.false_ne_true)
  have hfl : Filed (startedOn running t st).curTick (startedOn running t st).mergeTime st.Live
      (startedOn running t st) := by
    rw [hcurTick, hme]
    exact h.filed.congr hr hrel hhea hli hme fun u _ => by rw [hta]
  obtain ⟨st', hst', hk, htask', hlinked', hfiled'⟩ := file hfl hliv
    (fun _ => newTask st params running param) hre (by rw [inWheel, hcurTick, hme]; exact hin)
  rw [hta] at htask'
  refine ⟨st', rfl, (taskNew_eq hok hpa).trans hst', hk, htask', hlinked'.trans hli, ?_⟩
  have hlive' : ∀ u, st'.Live u ↔ u = t ∨ st.Live u := by
    intro u
    by_cases hu : u = t
    · subst hu
      simp [State.Live, htask', newTask, admitted]
    simp [State.Live, htask', hu]
  constructor
  · rw [hk.curTick, hk.mergeTime]
    exact hfiled'.congr_live hlive'
  · intro u hu
    rw [htask'] at hu ⊢
    by_cases hut : u = t
    · subst hut
      rw [update_self]
      exact hne
    rw [update_of_ne hut] at hu ⊢
    exact h.shaped u hu
  · rw [hk.curTick, hk.mergeTime, hcurTick, hme]
    exact h.merged
  · rw [hk.curTick, hk.pfairTime, hcurTick, htim]
    exact h.ahead
  · rw [hk.tickPeriod, htic]
    exact h.tick

theorem of_filed (h : Inv st) (hk : Kept st st') (hta : st'.task = update st.task t p)
    (hwf : p.realtime = true → p.pfair.Wf) (hfl : Filed st.curTick st.mergeTime st'.Live st') :
    Inv st' := by
  refine ⟨by rw [hk.curTick, hk.mergeTime]; exact hfl, ?_,
    by rw [hk.curTick, hk.mergeTime]; exact h.merged,
    by rw [hk.curTick, hk.pfairTime]; exact h.ahead,
    by rw [hk.tickPeriod]; exact h.tick⟩
  intro u hu
  rw [hta] at hu ⊢
  by_cases hut : u = t
  · subst hut
    rw [update_self] at hu ⊢
    exact hwf hu
  rw [update_of_ne hut] at hu ⊢
  exact h.shaped u hu

theorem curRelease_prepareRelease (h : p.pfair.Wf) (r : Nat) :
    (p.prepareRelease r).pfair.Wf ∧ (p.prepareRelease r).curRelease = r := by
  have hwf : (p.prepareRelease r).pfair.Wf := ⟨h.quanta_pos, h.quanta_pos, h.period_lt, h.subtasks⟩
  refine ⟨hwf, ?_⟩
  rw [curRelease_eq hwf]
  simp [prepareRelease, setPfair]

/-- The end of `pfair_task_wake_up` and of `pfair_release_at`: the flag is cleared once the
    task is filed. -/
theorem fileRelease (h : Inv st) {st0 : State n} (hkept0 : Kept st st0)
    (htask0 : st0.task = update st.task t p) (hfl : Filed st.curTick st.mergeTime L st0)
    (ht : ¬L t) (hL : ∀ u, u ≠ t → (L u ↔ st.Live u)) (hrt : p.realtime = true) (hwf : p.pfair.Wf)
    (hfit : st.inWheel r = true) :
    ∃ st', (((st0.modify t fun p => p.prepareRelease r).pfairAddRelease t).map fun st =>
        st.modify t fun p => p.setPfair fun q => { q with sporadicRelease := false }) = some st' ∧
      Kept st st' ∧ st'.linked = st0.linked ∧
      st'.task = update st.task t ((p.prepareRelease r).setPfair fun q =>
        { q with sporadicRelease := false }) ∧ Inv st' := by
  obtain ⟨hwf', hre⟩ := curRelease_prepareRelease hwf r
  have hse : st0.task t = p := by rw [htask0, update_self]
  have hfiled0 : Filed st0.curTick st0.mergeTime L st0 := by
    rw [hkept0.curTick, hkept0.mergeTime]
    exact hfl
  obtain ⟨st', hst', hk, hta, hlk, hfiled'⟩ := file (r := r) hfiled0 ht
    (fun p => p.prepareRelease r) (by simp [hse, hre])
    (by rw [inWheel, hkept0.curTick, hkept0.mergeTime]; exact hfit)
  rw [hse, htask0, update_idem] at hta
  have htask' : (st'.modify t fun p => p.setPfair fun q =>
      { q with sporadicRelease := false }).task = update st.task t
        ((p.prepareRelease r).setPfair fun q => { q with sporadicRelease := false }) := by
    simp [State.modify, hta]
  have hkept' : Kept st st' := hkept0.trans hk
  refine ⟨st'.modify t fun p => p.setPfair fun q => { q with sporadicRelease := false },
    by rw [hst', map_some], ⟨hkept'.mergeTime, hkept'.curTick, hkept'.pfairTime,
    hkept'.tickPeriod, hkept'.current⟩, hlk, htask', ?_⟩
  refine h.of_filed ⟨hkept'.mergeTime, hkept'.curTick, hkept'.pfairTime, hkept'.tickPeriod,
    hkept'.current⟩ htask' (fun _ => ⟨hwf'.quanta_pos, hwf'.cur_lt, hwf'.period_lt,
      hwf'.subtasks⟩) ?_
  rw [hkept0.curTick, hkept0.mergeTime] at hfiled'
  refine (hfiled'.modify_keep (t := t)
    (fun p => p.setPfair fun q => { q with sporadicRelease := false })
    fun _ => rfl).congr_live fun u => ?_
  by_cases hu : u = t
  · subst hu
    simp only [State.Live, htask', update_self, true_or, iff_true]
    exact ⟨hrt, rfl⟩
  simp only [State.Live, htask', update_of_ne hu, hu, false_or]
  exact (hL u hu).symm

/-- The task that `pfair_task_wake_up` files, up to its release. -/
def woken (now : LtTime) (p : PfairTask n) : PfairTask n :=
  PfairTask.setRt (RtTask.releaseAt now)
    { (p.setRt (RtTask.setRunning true)) with present := true }

theorem pfairTaskWakeUp_sporadic {now : LtTime} (h : (st.task t).pfair.sporadicRelease = true) :
    st.pfairTaskWakeUp t now = (((st.modify t (woken now)).modify t fun p =>
        p.prepareRelease (time2quanta st.tickPeriod now.toNat .ceil)).pfairAddRelease t).map
        fun st => st.modify t fun p => p.setPfair fun q => { q with sporadicRelease := false } := by
  unfold State.pfairTaskWakeUp
  simp only [task_modify_self, modify_modify]
  exact if_pos h

section

variable (h : Inv st)
include h

/-- A wake-up starts a new job only for a task that has left the system. -/
theorem pfairTaskWakeUp {now : LtTime} (hrt : (st.task t).realtime = true)
    (hfit : st.Fits (.wakeUp t now) = true) :
    ∃ st', st.pfairTaskWakeUp t now = some st' ∧ Inv st' := by
  have hawa := h.modify t (fun p => { (p.setRt (setRunning true)) with present := true })
    (fun _ => rfl) fun _ => rfl
  by_cases hsp : (st.task t).pfair.sporadicRelease = true
  · have hin : st.inWheel (time2quanta st.tickPeriod now.toNat .ceil) = true := by
      simpa [State.Fits, hsp] using hfit
    have hn : ¬st.Live t := fun hl => absurd hl.2 (by simp [hsp])
    have hk : Kept st (st.modify t (woken now)) := ⟨rfl, rfl, rfl, rfl, rfl⟩
    obtain ⟨st', hst', _, _, _, hI⟩ := h.fileRelease hk rfl (h.filed.modify_outside hn _) hn
      (fun _ _ => .rfl) hrt (h.shaped t hrt) hin
    exact ⟨st', (pfairTaskWakeUp_sporadic hsp).trans hst', hI⟩
  refine ⟨_, ?_, hawa⟩
  unfold State.pfairTaskWakeUp
  simp only [task_modify_self]
  exact if_neg hsp

theorem pfairReleaseAt {start : LtTime} (hrt : (st.task t).realtime = true)
    (hfit : st.Fits (.releaseAt t start) = true) :
    ∃ st', st.pfairReleaseAt t start = some st' ∧ Kept st st' ∧
      (∀ c u, u ≠ t → (st'.linked c = some u ↔ st.linked c = some u)) ∧
      (∀ c, st'.linked c ≠ some t) ∧
      st'.task = update st.task t ((((st.task t).setRt (releaseAt start)).prepareRelease
          (st.releaseQuantum start)).setPfair fun q => { q with sporadicRelease := false }) ∧
      Inv st' := by
  have hjob := h.filed.modify_keep (t := t) (setRt (releaseAt start)) fun _ => rfl
  obtain ⟨st0, hdro, hkept0, htask0, hh, hfiled0⟩ := hjob.dropAllReferences h.merged t
  have hkept0 : Kept st st0 := ⟨hkept0.mergeTime, hkept0.curTick, hkept0.pfairTime,
    hkept0.tickPeriod, hkept0.current⟩
  obtain ⟨st', hst', hk, hlk, hta, hI⟩ := h.fileRelease hkept0 htask0 hfiled0
    (fun hl => hl.1 rfl) (fun u hu => and_iff_right hu) hrt (h.shaped t hrt) hfit
  refine ⟨st', ?_, hk, ?_, ?_, hta, hI⟩
  · unfold State.pfairReleaseAt
    simp only [hdro, bind_some]
    exact hst'
  · intro c u hu
    rw [hlk, ← held_linked, hh (.linked c) u hu, held_linked]
    rfl
  intro c hc
  rw [hlk] at hc
  exact (hfiled0.live_of_linked hc).1 rfl

theorem pfairTaskExit (t : TaskId) : ∃ st', st.pfairTaskExit t = some st' ∧ Inv st' := by
  obtain ⟨st0, hdro, hkept0, htask0, _, hfiled0⟩ := h.filed.dropAllReferences h.merged t
  refine ⟨_, by rw [State.pfairTaskExit, hdro, map_some], ?_⟩
  have hta : (st0.modify t (setRt (setRealtime false))).task =
      update st.task t ((st.task t).setRt (setRealtime false)) := by
    simp [State.modify, htask0]
  have hliv : ∀ u, (st0.modify t (setRt (setRealtime false))).Live u ↔ u ≠ t ∧ st.Live u := by
    intro u
    by_cases hu : u = t
    · subst hu
      simp [State.Live, setRt, setRealtime]
    simp [State.Live, hta, hu]
  have hout := hfiled0.modify_outside (t := t) (fun hl => hl.1 rfl) (setRt (setRealtime false))
  have hI : Inv (st0.modify t (setRt (setRealtime false))) :=
    h.of_filed ⟨hkept0.mergeTime, hkept0.curTick, hkept0.pfairTime, hkept0.tickPeriod,
      hkept0.current⟩ hta (fun hr => absurd hr Bool.false_ne_true) (hout.congr_live hliv)
  exact hI.congr rfl rfl rfl rfl rfl rfl rfl le_rfl rfl

/-! ### Steps and runs -/

theorem setScheduledOn (prev : Option TaskId) (b : Option (Fin n)) :
    Inv (match prev with
      | some p => st.modify p fun q => { q with scheduledOn := b }
      | none => st) := by
  rcases prev with _ | p
  · exact h
  exact h.modify p _ (fun _ => rfl) fun _ => rfl

theorem pfairSchedule (c : Fin n) : Inv (st.pfairSchedule c) := by
  unfold State.pfairSchedule
  simp only
  split
  · exact ((h.setScheduledOn _ _).setScheduledOn _ _).congr rfl rfl rfl rfl rfl rfl rfl le_rfl rfl
  exact h

theorem step {op : Op n} (hl : st.Legal op = true) (hfi : st.Fits op = true)
    {fuel : Nat} (hst' : st.exec fuel op = some st') : Inv st' := by
  rcases op with ⟨t, params, running, lastQuantum, lastCpu⟩ | ⟨t, now⟩ | t | t | ⟨t, start⟩ |
    _ | _ | c | c | c
  · simp only [Legal, Bool.and_eq_true, Bool.not_eq_true', decide_eq_true_eq] at hl
    rcases h.taskNew_spec (t := t) hl.1.1 hl.1.2 hfi with heq | ⟨_, _, _, heq, _, _, _, hI⟩
    · cases hst'.symm.trans heq
      exact h
    cases hst'.symm.trans heq
    exact hI
  · simp only [Legal, Bool.and_eq_true] at hl
    obtain ⟨st1, h1, hI⟩ := h.pfairTaskWakeUp hl.1 hfi
    cases hst'.symm.trans h1
    exact hI
  · cases hst'
    exact h.modify t _ (fun _ => rfl) fun _ => rfl
  · obtain ⟨st1, h1, hI⟩ := h.pfairTaskExit t
    cases hst'.symm.trans h1
    exact hI
  · obtain ⟨st1, h1, _, _, _, _, hI⟩ := h.pfairReleaseAt hl hfi
    cases hst'.symm.trans h1
    exact hI
  · cases hst'
    exact h.congr rfl rfl rfl rfl rfl rfl rfl (Nat.le_succ _) rfl
  · exact h.quantum (decide_eq_true_iff.mp hl) hst'
  · cases hst'
    exact h.congr rfl rfl rfl rfl rfl rfl rfl le_rfl rfl
  · cases hst'
    split
    · exact h.modify _ _ (fun _ => rfl) fun _ => rfl
    exact h
  · cases hst'
    exact h.pfairSchedule c

theorem run {hist : List (State n × Op n)} (hr : Run (Recorded Step) st hist st')
    (hfi : ∀ p ∈ hist, p.1.Fits p.2 = true) : Inv st' := by
  induction hr with
  | nil => exact h
  | snoc hini hla ih =>
    obtain ⟨rfl, hl, fuel, hx⟩ := hla
    exact (ih fun p hp => hfi p (List.mem_append_left _ hp)).step hl
      (hfi _ (List.mem_append_right _ List.mem_cons_self)) hx

end

end Inv

theorem inWheel_of_filed {st st' : State n} {t : TaskId} (h : st.pfairAddRelease t = some st')
    (hwhe : st'.Wheel) : st.inWheel (st.task t).curRelease = true := by
  unfold pfairAddRelease at h
  split at h
  · cases h
  cases h
  have hm : t ∈ (update st.releaseQueue (slot (st.task t).curRelease)
      ((st.relq (st.task t).curRelease).insert st.order t)
        (slot (st.task t).curRelease)).elems := by
    rw [update_self, Heap.elems_insert]
    exact mem_cons_self t _
  obtain ⟨_, _, hhi, hlo⟩ := hwhe _ t hm
  exact decide_eq_true ⟨hlo, hhi⟩

theorem wheel_clear {st : State n} {t : TaskId}
    (h : (st.modify t fun p => p.setPfair fun q => { q with sporadicRelease := false }).Wheel) :
    st.Wheel := by
  have hrel : ∀ u, ((st.modify t fun p => p.setPfair fun q =>
      { q with sporadicRelease := false }).task u).curRelease = (st.task u).curRelease := by
    intro u
    by_cases hu : u = t
    · subst hu
      rw [task_modify_self]
      rfl
    simp [State.modify, hu]
  intro i u hu
  have := h i u hu
  rw [hrel] at this
  exact this

theorem Inv.fits_of_wheel {st st' : State n} (h : Inv st) {op : Op n} (hl : st.Legal op = true)
    {fuel : Nat} (hst' : st.exec fuel op = some st') (hwh : st'.Wheel) : st.Fits op = true := by
  rcases op with ⟨t, params, running, lastQuantum, lastCpu⟩ | ⟨t, now⟩ | t | t | ⟨t, start⟩ |
    _ | _ | c | c | c
  · simp only [Legal, Bool.and_eq_true, Bool.not_eq_true', decide_eq_true_eq] at hl
    by_cases hok : params.period = 0 ∨ params.period < params.execCost
    · simp only [Fits, decide_eq_true hok, Bool.true_or]
    rcases hpa : pfairAdmitTask st.tickPeriod params lastQuantum lastCpu with _ | param
    · simp [Fits, hpa]
    have hwf := (Wf.admitted h.tick hl.1.2 hpa).1
    have hfl := inWheel_of_filed ((Inv.taskNew_eq hok hpa).symm.trans hst') hwh
    have hre : (Inv.newTask st params running param).curRelease = st.pfairTime + 1 := by
      rw [curRelease_eq (⟨hwf.quanta_pos, hwf.quanta_pos, hwf.period_lt, hwf.subtasks⟩ :
        (Inv.newTask st params running param).pfair.Wf)]
      simp [Inv.newTask]
    obtain ⟨_, _, _, _, _, hmer, hcur, _, _⟩ := Inv.startedOn_fields running t st
    rw [task_modify_self, hre] at hfl
    simp only [inWheel, State.modify, hmer, hcur] at hfl
    simp [Fits, inWheel, decide_eq_true_iff.mp hfl]
  · simp only [Legal, Bool.and_eq_true] at hl
    by_cases hsp : (st.task t).pfair.sporadicRelease = true
    · replace hst' := (Inv.pfairTaskWakeUp_sporadic hsp).symm.trans hst'
      obtain ⟨st1, hfi, rfl⟩ := map_eq_some_iff.mp hst'
      have hfl := inWheel_of_filed hfi (wheel_clear hwh)
      have hre := (Inv.curRelease_prepareRelease (p := woken now (st.task t))
        (h.shaped t hl.1) (time2quanta st.tickPeriod now.toNat .ceil)).2
      rw [task_modify_self, task_modify_self, hre] at hfl
      simp only [Fits, hsp]
      exact hfl
    simp [Fits, hsp]
  · rfl
  · rfl
  · obtain ⟨st0, hdro, hst'⟩ := bind_eq_some_iff.mp hst'
    obtain ⟨st1, hfi, rfl⟩ := map_eq_some_iff.mp hst'
    have hjob := h.filed.modify_keep (t := t) (setRt (releaseAt start)) fun _ => rfl
    obtain ⟨_, hdrop', hk, hta, _, _⟩ := hjob.dropAllReferences h.merged t
    cases hdro.symm.trans hdrop'
    have hfl := inWheel_of_filed hfi (wheel_clear hwh)
    have hre := (Inv.curRelease_prepareRelease
      (p := (st.task t).setRt (releaseAt start)) (h.shaped t hl)
      (st.releaseQuantum start)).2
    rw [task_modify_self, hta, task_modify_self, hre] at hfl
    simp only [inWheel, State.modify, hk.curTick, hk.mergeTime] at hfl
    exact hfl
  · rfl
  · rfl
  · rfl
  · rfl
  · rfl

end State

open State (init modify Live)

/-! ### The wheel over whole runs -/

/-- As long as every task is filed for a quantum after the last one scheduled and within
    one turn of the last one merged, the wheel is right after every step: a step makes it
    wrong only by filing a task outside.  Then a slot is merged in exactly the quantum its
    tasks are released in, and `drop_all_references` takes a task out of the heap it is in
    and touches no other. -/
theorem pfair_release_wheel {q mergeTime tickPeriod : Nat} (hm : mergeTime ≤ q)
    (htick : 0 < tickPeriod) {hist : List (State n × Op n)} {st : State n}
    (hrun : Run (Recorded Step) (init q mergeTime tickPeriod) hist st)
    (hfits : ∀ p ∈ hist, p.1.Fits p.2 = true) :
    st.Wheel ∧ (∀ op st', Step st op st' → (st'.Wheel ↔ st.Fits op = true)) ∧
      (∃ st₁, st.advanceSubtasks (st.curTick + 1) = some st₁ ∧
        ∀ i, ∀ t ∈ (st₁.releaseQueue i).elems,
          t ∈ (st₁.pollReleases (st.curTick + 1)).readyQueue.elems ↔
            (st₁.task t).curRelease = st.curTick + 1) ∧
      (∀ t, ∃ st', st.dropAllReferences t = some st' ∧ st'.inHeap t = false ∧
        (∀ p, t ∉ st'.held p) ∧ ∀ p u, u ≠ t → (u ∈ st'.held p ↔ u ∈ st.held p)) := by
  have h : st.Inv := (State.Inv.init hm htick).run hrun hfits
  refine ⟨h.wheel, ?_, ?_, ?_⟩
  · rintro op st' ⟨hlegal, fuel, hst'⟩
    exact ⟨h.fits_of_wheel hlegal hst', fun hfit => (h.step hlegal hfit hst').wheel⟩
  · obtain ⟨st₁, hst₁, _, _, hfiled⟩ := State.advanceSubtasks_kept (h.filed.mono h.merged) h.shaped
    refine ⟨st₁, hst₁, fun i t ht => ?_⟩
    rw [← hfiled.mem_relq_iff rfl (Nat.lt_succ_self _) ht]
    have hnot : t ∉ st₁.readyQueue.elems := fun hr =>
      absurd (hfiled.custody.unique (p := .slot i) (q := .ready) ht hr) (by simp)
    have hunion : (st₁.pollReleases (st.curTick + 1)).readyQueue.elems =
        st₁.readyQueue.elems + (st₁.relq (st.curTick + 1)).elems := Heap.elems_union _ _ _
    rw [hunion, mem_add, or_iff_right hnot]
  intro t
  obtain ⟨st', hst', _, _, hh, hfiled⟩ := h.filed.dropAllReferences h.merged t
  exact ⟨st', hst', hfiled.inHeap_eq fun hl => hl.1 rfl,
    fun p => hfiled.custody.not_mem (fun hl => hl.1 rfl) p, hh⟩

/-- A step that is legal and files within the wheel, with fuel for three rounds. -/
def execFitting (st : State n) (op : Op n) : Option (State n) :=
  if st.Legal op && st.Fits op then st.exec 3 op else none

theorem step_of_execFitting {st st' : State n} {op : Op n} (h : execFitting st op = some st') :
    Step st op st' ∧ st.Fits op = true := by
  unfold execFitting at h
  split at h
  · rename_i hok
    obtain ⟨hl, hfit⟩ := Bool.and_eq_true_iff.mp hok
    exact ⟨⟨hl, 3, h⟩, hfit⟩
  cases h

/-- One CPU and quanta of a millisecond: a task is admitted, linked in the first quantum,
    blocks, and is released for the third. -/
theorem pfair_release_wheel_sync :
    ∃ (hist : List (State 1 × Op 1)) (st : State 1), (0 ≤ 0 ∧ 0 < 1000000) ∧
      Run (Recorded Step) (init 0 0 1000000) hist st ∧
      (∀ p ∈ hist, p.1.Fits p.2 = true) ∧ 7 ∈ (st.releaseQueue 3).elems ∧ st.Wheel := by
  obtain ⟨hist, st, hrun, hcheck⟩ := Run.of_recordAll_check (execFitting (n := 1))
    [.taskNew 7 { execCost := 1000000, period := 2000000, cpu := 0, budgetPolicy := .noEnforcement }
      (some 0) 0 0, .advanceTime, .quantum, .copy 0, .block 7, .schedule 0, .releaseAt 7 2500000]
    (init 0 0 1000000) (fun _ st => decide (7 ∈ (st.releaseQueue 3).elems)) (by decide +kernel)
  have hfits : ∀ p ∈ hist, p.1.Fits p.2 = true :=
    Run.recorded_all (P := fun st op => st.Fits op = true)
      (fun _ _ _ h => (step_of_execFitting h).2) hrun
  have hrun : Run (Recorded Step) (init 0 0 1000000) hist st :=
    hrun.mono fun _ _ _ h => ⟨h.1, (step_of_execFitting h.2).1⟩
  exact ⟨hist, st, ⟨by decide, by decide⟩, hrun, hfits, of_decide_eq_true hcheck,
    (pfair_release_wheel (by decide) (by decide) hrun hfits).1⟩

/-- A release at the beginning of the current quantum is not cut: the task is filed for a
    slot that has been merged already. -/
theorem pfair_release_at_merged_slot :
    ∃ (ls : List (Op 1)) (st : State 1), Run Step (init 0 0 1000000) ls st ∧
      7 ∈ (st.releaseQueue 1).elems ∧ (st.task 7).curRelease = 1 ∧ st.mergeTime = 1 ∧ ¬st.Wheel := by
  obtain ⟨st, hrun, hcheck⟩ := @Run.of_check _ _ Step State.Legal (State.exec 3)
    (fun st op st' hl h => ⟨hl, 3, h⟩)
    [.taskNew 7 { execCost := 1000000, period := 2000000, cpu := 0, budgetPolicy := .noEnforcement }
      (some 0) 0 0, .advanceTime, .quantum, .copy 0, .block 7, .schedule 0, .releaseAt 7 1000000]
    (init 0 0 1000000 : State 1)
    (fun st => decide (7 ∈ (st.releaseQueue 1).elems ∧ (st.task 7).curRelease = 1 ∧
      st.mergeTime = 1)) (by decide +kernel)
  obtain ⟨hm, hrelease, hmerge⟩ := of_decide_eq_true hcheck
  refine ⟨_, st, hrun, hm, hrelease, hmerge, fun hwheel => ?_⟩
  have hlt := (hwheel 1 7 hm).2.1
  omega

end Litmus.Pfair
