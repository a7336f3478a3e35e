import Litmus.PfairAssignment
import Litmus.PfairReleases
import Litmus.PfairUnits

/-!
# The schedule that PFAIR links

The links of all quanta so far, with the units of the tasks they serve.  As long as the tasks
are present and are filed within the wheel, the quanta that `schedule_next_quantum` assigns
form a schedule that follows the PD² rule.
-/

namespace Litmus.Pfair

open BinomialForest Custody Runs ProportionateFair Option Finset State
open Function (update update_self update_of_ne)

variable {n : Nat}

/-! ### More fuel -/

namespace State

variable {time fuel : Nat} {st : State n}

theorem scheduleCpu_mono {cpu : Fin n} {st' : State n} (h : st.scheduleCpu time cpu fuel = some st')
    (k : Nat) : st.scheduleCpu time cpu (fuel + k) = some st' := by
  induction fuel generalizing st with
  | zero => cases h
  | succ fuel ih =>
    rw [Nat.succ_add]
    simp only [scheduleCpu] at h ⊢
    split
    · rename_i hpr
      rw [if_pos hpr] at h
      split
      · rename_i heq
        rw [heq] at h
        cases h
      rename_i t st1 heq
      rw [heq] at h
      obtain ⟨r, hr, h⟩ := bind_eq_some_iff.mp h
      rw [hr, bind_some]
      split
      · rename_i hre
        rw [if_pos hre] at h
        exact ih h
      rename_i hre
      rw [if_neg hre] at h
      exact h
    rename_i hpr
    rw [if_neg hpr] at h
    exact h

theorem scheduleNextQuantum_mono {st' : State n} (h : st.scheduleNextQuantum time fuel = some st')
    (k : Nat) : st.scheduleNextQuantum time (fuel + k) = some st' := by
  have hloo : ∀ (cpus : List (Fin n)) (st st' : State n),
      cpus.foldlM (fun st cpu => st.scheduleCpu time cpu fuel) st = some st' →
      cpus.foldlM (fun st cpu => st.scheduleCpu time cpu (fuel + k)) st = some st' := by
    intro cpus
    induction cpus with
    | nil => exact fun _ _ h => h
    | cons cpu cpus ih =>
      intro st st' h
      rw [List.foldlM_cons] at h ⊢
      obtain ⟨st1, h1, h⟩ := bind_eq_some_iff.mp h
      rw [scheduleCpu_mono h1 k]
      exact ih st1 st' h
  obtain ⟨st1, h1, h⟩ := bind_eq_some_iff.mp h
  obtain ⟨st2, hst2, rfl⟩ := map_eq_some_iff.mp h
  simp [scheduleNextQuantum, h1, scheduleSubtasks, hloo _ _ _ hst2]

theorem scheduleNextQuantum_unique {fuel' : Nat} {st1 st2 : State n}
    (h1 : st.scheduleNextQuantum time fuel = some st1)
    (h2 : st.scheduleNextQuantum time fuel' = some st2) : st1 = st2 := by
  have h1 := scheduleNextQuantum_mono h1 fuel'
  have h2 := scheduleNextQuantum_mono h2 fuel
  rw [add_comm] at h2
  exact some.inj (h1.symm.trans h2)

/-- `pfair_schedule` only changes where tasks are executing: `c` executes the task that it
    copied, if any, and the previous one is off. -/
theorem pfairSchedule_fields (st : State n) (c : Fin n) :
    (st.pfairSchedule c).readyQueue = st.readyQueue ∧
      (st.pfairSchedule c).releaseQueue = st.releaseQueue ∧
      (st.pfairSchedule c).linked = st.linked ∧ (st.pfairSchedule c).curTick = st.curTick ∧
      (∀ u, ((st.pfairSchedule c).task u).realtime = (st.task u).realtime ∧
        ((st.pfairSchedule c).task u).pfair = (st.task u).pfair ∧
        ∀ d, ((st.pfairSchedule c).task u).scheduledOn = some d →
          (d = c ∧ (st.localCopy c).filter (fun l => st.safeToSchedule l c) = some u) ∨
            (st.current c ≠ some u ∧ (st.task u).scheduledOn = some d)) ∧
      (st.pfairSchedule c).current = update st.current c
        ((st.localCopy c).filter fun l => st.safeToSchedule l c) := by
  have hsa : ∀ u, (st.localCopy c).filter (fun l => st.safeToSchedule l c) = some u →
      ∀ d, (st.task u).scheduledOn = some d → d = c := by
    intro u hu d hd
    have hok := (filter_eq_some_iff.mp hu).2
    simp only [safeToSchedule, hd, Bool.and_eq_true, decide_eq_true_eq] at hok
    exact hok.1.1
  unfold pfairSchedule
  generalize (st.localCopy c).filter (fun l => st.safeToSchedule l c) = next at hsa ⊢
  simp only
  split
  · rename_i hne
    refine ⟨?_, ?_, ?_, ?_, ?_, ?_⟩
    · rcases st.current c with _ | p <;> rcases next with _ | t <;> rfl
    · rcases st.current c with _ | p <;> rcases next with _ | t <;> rfl
    · rcases st.current c with _ | p <;> rcases next with _ | t <;> rfl
    · rcases st.current c with _ | p <;> rcases next with _ | t <;> rfl
    · intro u
      rcases hpre : st.current c with _ | p <;> rcases next with _ | t
      · exact absurd hpre hne
      · by_cases hut : u = t
        · subst hut
          simp [modify]
        simp [modify, hut, Ne.symm hut]
      · by_cases hup : u = p
        · subst hup
          simp [modify]
        simp [modify, hup, Ne.symm hup]
      · by_cases hut : u = t
        · subst hut
          by_cases hup : u = p
          · subst hup
            simp [modify]
          simp [modify, hup]
        by_cases hup : u = p
        · subst hup
          simp [modify, hut]
        simp [modify, hut, hup, Ne.symm hut, Ne.symm hup]
    · rcases st.current c with _ | p <;> rcases next with _ | t <;> rfl
  rename_i heq
  rw [not_not] at heq
  refine ⟨rfl, rfl, rfl, rfl, fun u => ⟨rfl, rfl, fun d hd => ?_⟩, ?_⟩
  · by_cases hu : st.current c = some u
    · exact .inl ⟨hsa u (heq.symm.trans hu) d hd, heq.symm.trans hu⟩
    exact .inr ⟨hu, hd⟩
  rw [← heq]
  exact (Function.update_eq_self c st.current).symm

theorem exec_unique {op : Op n} {fuel' : Nat} {st1 st2 : State n} (h1 : st.exec fuel op = some st1)
    (h2 : st.exec fuel' op = some st2) : st1 = st2 := by
  rcases op with _ | _ | _ | _ | _ | _ | _ | _ | _ | _
  case quantum => exact scheduleNextQuantum_unique h1 h2
  all_goals exact some.inj (h1.symm.trans h2)

end State

/-! ### The schedule so far -/

/-- A task linked in a quantum: the CPU, the release of the job and the index of the subtask. -/
structure Link (n : Nat) where
  time : Nat
  cpu : Fin n
  task : TaskId
  release : Nat
  cur : Nat
deriving DecidableEq

def State.links (st : State n) : List (Link n) :=
  (List.finRange n).filterMap fun c => (st.linked c).map fun t =>
    { time := st.curTick, cpu := c, task := t
      release := (st.task t).pfair.release, cur := (st.task t).pfair.cur }

theorem State.mem_links {st : State n} {l : Link n} :
    l ∈ st.links ↔ l.time = st.curTick ∧ st.linked l.cpu = some l.task ∧
      l.release = (st.task l.task).pfair.release ∧ l.cur = (st.task l.task).pfair.cur := by
  obtain ⟨time, cpu, task, release, cur⟩ := l
  simp only [links, List.mem_filterMap, List.mem_finRange, true_and, map_eq_some_iff,
    Link.mk.injEq]
  constructor
  · rintro ⟨c, t, hc, rfl, rfl, rfl, rfl, rfl⟩
    exact ⟨rfl, hc, rfl, rfl⟩
  rintro ⟨rfl, hc, rfl, rfl⟩
  exact ⟨cpu, task, hc, rfl, rfl, rfl, rfl, rfl⟩

/-- The plugin together with what has happened: the tasks admitted, the quantum each was
    released for, and all links. -/
structure History (n : Nat) where
  st : State n
  tasks : Finset TaskId
  start : TaskId → Nat
  links : List (Link n)

namespace History

def init (q mergeTime tickPeriod : Nat) : History n where
  st := State.init q mergeTime tickPeriod
  tasks := ∅
  start _ := 0
  links := []

/-- Record a step to `st'`. -/
def next (h : History n) (op : Op n) (st' : State n) : History n :=
  match op with
  | .taskNew t _ _ _ _ =>
      if (st'.task t).realtime then
        { h with
          st := st', tasks := insert t h.tasks
          start := update h.start t (st'.task t).pfair.release }
      else { h with st := st' }
  | .releaseAt t _ =>
      { h with st := st', start := update h.start t (st'.task t).pfair.release }
  | .quantum => { h with st := st', links := st'.links ++ h.links }
  | _ => { h with st := st' }

def fresh (h : History n) (t : TaskId) : Bool := h.links.all fun l => decide (l.task ≠ t)

/-- The runs that are considered: tasks claim at most a whole CPU; they are released, by
    their admission or by `pfair_release_at` before they are first linked, for a quantum of
    the wheel; they are present in every quantum and do not exit; and what `kmalloc` has left
    in `last_quantum` is not taken for the previous quantum. -/
def Allowed (h : History n) (op : Op n) : Bool :=
  h.st.Fits op && match op with
    | .taskNew _ params _ lastQuantum lastCpu =>
        (pfairAdmitTask h.st.tickPeriod params lastQuantum lastCpu).all fun q =>
          decide (q.quanta ≤ q.period)
    | .releaseAt t _ => h.fresh t
    | .exit _ => false
    | .quantum => decide (∀ t ∈ h.tasks, (h.st.task t).present = true ∧
        (h.fresh t = true → (h.st.task t).pfair.lastQuantum ≠ h.st.curTick))
    | _ => true

def Step (h : History n) (op : Op n) (h' : History n) : Prop :=
  h.Allowed op = true ∧ ∃ st', Pfair.Step h.st op st' ∧ h' = h.next op st'

/-- The tasks linked in quantum `s`. -/
def sched (h : History n) (s : Nat) : Finset TaskId :=
  ((h.links.filter fun l => decide (l.time = s)).map Link.task).toFinset

theorem mem_sched {h : History n} {s : Nat} {t : TaskId} :
    t ∈ h.sched s ↔ ∃ l ∈ h.links, l.time = s ∧ l.task = t := by
  simp [sched, and_assoc]

theorem fresh_iff {h : History n} {t : TaskId} : h.fresh t = true ↔ ∀ s, t ∉ h.sched s := by
  simp only [fresh, List.all_eq_true, decide_eq_true_eq, mem_sched, not_exists, not_and]
  constructor
  · intro hf s l hl _ ht
    exact hf l hl ht
  intro hs l hl ht
  exact hs l.time l hl rfl ht

def share (h : History n) (t : TaskId) : Share := (h.st.task t).pfair.share (h.start t)

/-- The links are a schedule that follows the rule, and the parameters of each task say
    which of its units comes next. -/
structure Good (h : History n) : Prop where
  inv : h.st.Inv
  sorted : h.st.Sorted
  real : ∀ t, (h.st.task t).realtime = true ↔ t ∈ h.tasks
  inside : ∀ t ∈ h.tasks, (h.st.task t).pfair.sporadicRelease = false
  fit : ∀ t ∈ h.tasks, (h.st.task t).pfair.quanta ≤ (h.st.task t).pfair.period
  placed : ∀ t c, (h.st.task t).scheduledOn = some c → h.st.current c = some t
  unit : ∀ t ∈ h.tasks, (h.st.task t).pfair.AtUnit (h.start t) (received h.sched t h.st.curTick)
  now : ∀ t, t ∈ h.sched h.st.curTick ↔ ∃ c, h.st.linked c = some t
  past : ∀ l ∈ h.links, l.time ≤ h.st.curTick
  greedy : Greedy h.share h.tasks n (h.st.curTick + 1) h.sched
  link : ∀ l ∈ h.links, l.cur < (h.st.task l.task).pfair.quanta ∧
    ∃ job, l.release = h.start l.task + job * (h.st.task l.task).pfair.period ∧
      received h.sched l.task l.time = job * (h.st.task l.task).pfair.quanta + l.cur
  once : ∀ l ∈ h.links, ∀ l' ∈ h.links, l.time = l'.time → l.task = l'.task → l = l'
  last : ∀ t, 0 < received h.sched t h.st.curTick →
    (h.st.task t).pfair.lastQuantum ≤ h.st.curTick ∧ (h.st.task t).pfair.lastCpu < n
  last_inj : ∀ t u, 0 < received h.sched t h.st.curTick → 0 < received h.sched u h.st.curTick →
    (h.st.task t).pfair.lastQuantum = (h.st.task u).pfair.lastQuantum →
    (h.st.task t).pfair.lastCpu = (h.st.task u).pfair.lastCpu → t = u

/-- What the quantum after `h.st.curTick` leaves behind: the linked tasks have gone on to their
    next unit, and the new links follow the rule. -/
structure NextQuantum (h : History n) (st' : State n) : Prop where
  inv : st'.Inv
  sorted : st'.Sorted
  tick : st'.curTick = h.st.curTick + 1
  current : st'.current = h.st.current
  on : ∀ c l, h.st.linked c = some l → st'.task l = (h.st.task l).advanced (h.st.curTick + 1) c
  off : ∀ u, (∀ c, h.st.linked c ≠ some u) → st'.task u = h.st.task u
  settled : st'.Settled n
  linked : ∀ c u, st'.linked c = some u → (st'.task u).curRelease ≤ h.st.curTick + 1

namespace Good

variable {h : History n} {st' : State n} {t : TaskId}

theorem init {q mergeTime tickPeriod : Nat} (hm : mergeTime ≤ q) (htic : 0 < tickPeriod) :
    Good (History.init q mergeTime tickPeriod : History n) := by
  have hn : ∀ s, (History.init q mergeTime tickPeriod : History n).sched s = ∅ := fun _ => rfl
  have h0 : ∀ t s, received (History.init q mergeTime tickPeriod : History n).sched t s = 0 :=
    fun t s => received_eq_zero fun x _ => by simp [hn x]
  constructor
  · exact Inv.init hm htic
  · exact ⟨Heap.Ordered.empty _, fun _ => Heap.Ordered.empty _⟩
  · intro t
    simp [History.init, State.init]
  · exact fun t ht => absurd ht (notMem_empty t)
  · exact fun t ht => absurd ht (notMem_empty t)
  · intro t c hc
    cases hc
  · exact fun t ht => absurd ht (notMem_empty t)
  · intro t
    refine iff_of_false (by rw [hn]; exact notMem_empty t) ?_
    rintro ⟨c, hc⟩
    cases hc
  · exact fun l hl => absurd hl List.not_mem_nil
  · refine ⟨fun s _ => ?_, fun s _ i hi => ?_, fun s _ u hu => absurd hu (notMem_empty u)⟩
    · exact empty_subset _
    exact absurd hi (notMem_empty i)
  · exact fun l hl => absurd hl List.not_mem_nil
  · exact fun l hl => absurd hl List.not_mem_nil
  · intro t ht
    rw [h0] at ht
    exact absurd ht (lt_irrefl 0)
  · intro t u ht
    rw [h0] at ht
    exact absurd ht (lt_irrefl 0)

theorem congr (hg : Good h) (hI : st'.Inv) (hso : st'.Sorted)
    (hrt : ∀ t, (st'.task t).realtime = (h.st.task t).realtime)
    (hpf : ∀ t, (st'.task t).pfair = (h.st.task t).pfair) (hlk : st'.linked = h.st.linked)
    (hcu : st'.curTick = h.st.curTick)
    (hpl : ∀ t c, (st'.task t).scheduledOn = some c → st'.current c = some t) :
    Good { h with st := st' } := by
  have hsha : History.share { h with st := st' } = h.share := by
    funext t
    simp [History.share, hpf]
  constructor
  · exact hI
  · exact hso
  · intro t
    rw [hrt]
    exact hg.real t
  · intro t ht
    rw [hpf]
    exact hg.inside t ht
  · intro t ht
    rw [hpf]
    exact hg.fit t ht
  · exact hpl
  · intro t ht
    rw [hpf, hcu]
    exact hg.unit t ht
  · intro t
    rw [hcu, hlk]
    exact hg.now t
  · intro l hl
    rw [hcu]
    exact hg.past l hl
  · rw [hcu, hsha]
    exact hg.greedy
  · intro l hl
    rw [hpf]
    exact hg.link l hl
  · exact hg.once
  · intro t
    rw [hpf, hcu]
    exact hg.last t
  · intro t u
    rw [hpf, hpf, hcu]
    exact hg.last_inj t u

theorem not_linked (hg : Good h) (hfre : ∀ s, t ∉ h.sched s) (c : Fin n) :
    h.st.linked c ≠ some t := fun hc => hfre _ ((hg.now t).mpr ⟨c, hc⟩)

theorem restart (hg : Good h) (hfr : ∀ s, t ∉ h.sched s) (hI : st'.Inv) (hso : st'.Sorted)
    (ho : ∀ u, u ≠ t → (st'.task u).realtime = (h.st.task u).realtime ∧
      (st'.task u).pfair = (h.st.task u).pfair) (hrt : (st'.task t).realtime = true)
    (hcur : (st'.task t).pfair.cur = 0) (hins : (st'.task t).pfair.sporadicRelease = false)
    (hfit : (st'.task t).pfair.quanta ≤ (st'.task t).pfair.period)
    (hahe : h.st.curTick < (st'.task t).pfair.release)
    (hlk : ∀ c u, u ≠ t → (st'.linked c = some u ↔ h.st.linked c = some u))
    (hn : ∀ c, st'.linked c ≠ some t) (hti : st'.curTick = h.st.curTick)
    (hpl : ∀ t c, (st'.task t).scheduledOn = some c → st'.current c = some t) :
    Good { h with
      st := st', tasks := insert t h.tasks
      start := update h.start t (st'.task t).pfair.release } := by
  have h0 : ∀ s, received h.sched t s = 0 := fun s => received_eq_zero fun x _ => hfr x
  have hne : ∀ {u}, 0 < received h.sched u h.st.curTick → u ≠ t := by
    rintro u hpo rfl
    rw [h0] at hpo
    exact lt_irrefl 0 hpo
  have hta : ∀ {u}, u ∈ insert t h.tasks → u ≠ t → u ∈ h.tasks := fun hu hut =>
    (mem_insert.mp hu).resolve_left hut
  have hli : ∀ l ∈ h.links, l.task ≠ t := fun l hl heq =>
    hfr l.time (mem_sched.mpr ⟨l, hl, rfl, heq⟩)
  constructor
  · exact hI
  · exact hso
  · intro u
    rw [mem_insert]
    by_cases hu : u = t
    · subst hu
      exact iff_of_true hrt (.inl rfl)
    rw [(ho u hu).1, hg.real u, or_iff_right hu]
  · intro u hu
    by_cases hut : u = t
    · subst hut
      exact hins
    rw [(ho u hut).2]
    exact hg.inside u (hta hu hut)
  · intro u hu
    by_cases hut : u = t
    · subst hut
      exact hfit
    rw [(ho u hut).2]
    exact hg.fit u (hta hu hut)
  · exact hpl
  · intro u hu
    rw [hti]
    by_cases hut : u = t
    · subst hut
      refine ⟨0, ?_, ?_⟩
      · simp
      refine (h0 _).trans ?_
      rw [zero_mul, zero_add]
      exact hcur.symm
    simp only [(ho u hut).2, update_of_ne hut]
    exact hg.unit u (hta hu hut)
  · intro u
    rw [hti]
    by_cases hut : u = t
    · subst hut
      refine iff_of_false (hfr _) ?_
      rintro ⟨c, hc⟩
      exact hn c hc
    refine (hg.now u).trans (exists_congr fun c => (hlk c u hut).symm)
  · intro l hl
    rw [hti]
    exact hg.past l hl
  · rw [hti]
    refine hg.greedy.join (subset_insert t h.tasks) fun u hu => ?_
    by_cases hut : u = t
    · subst hut
      refine .inr ⟨fun s _ => hfr s, ?_⟩
      simp only [History.share, PfairParam.start_share, update_self]
      exact hahe
    refine .inl ⟨hta hu hut, ?_⟩
    simp [History.share, (ho u hut).2, update_of_ne hut]
  · intro l hl
    simp only [(ho l.task (hli l hl)).2, update_of_ne (hli l hl)]
    exact hg.link l hl
  · exact hg.once
  · intro u hu
    rw [hti] at hu ⊢
    rw [(ho u (hne hu)).2]
    exact hg.last u hu
  · intro u v hu hv
    rw [hti] at hu hv
    rw [(ho u (hne hu)).2, (ho v (hne hv)).2]
    exact hg.last_inj u v hu hv

/-! ### A quantum -/

theorem homes (hg : Good h)
    (hla : ∀ t ∈ h.tasks, h.fresh t = true → (h.st.task t).pfair.lastQuantum ≠ h.st.curTick)
    {st1 : State n} (hon : ∀ c l, h.st.linked c = some l →
      st1.task l = (h.st.task l).advanced (h.st.curTick + 1) c)
    (hof : ∀ u, (∀ c, h.st.linked c ≠ some u) → st1.task u = h.st.task u) :
    Homes (h.st.curTick + 1) st1.Live st1 := by
  have hsc : ∀ u, (st1.task u).scheduledOn = (h.st.task u).scheduledOn ∧
      (st1.task u).realtime = (h.st.task u).realtime := by
    intro u
    by_cases hu : ∃ c, h.st.linked c = some u
    · obtain ⟨c, hc⟩ := hu
      rw [hon c u hc]
      exact ⟨rfl, PfairTask.realtime_advanced _ _ _⟩
    rw [hof u fun c hc => hu ⟨c, hc⟩]
    exact ⟨rfl, rfl⟩
  -- a task that was linked last in the previous quantum has received a unit before it
  have hre : ∀ u, st1.Live u → (st1.task u).pfair.lastQuantum + 1 = h.st.curTick + 1 →
      st1.task u = h.st.task u ∧ 0 < received h.sched u h.st.curTick := by
    intro u hliv hq
    have hn : ∀ c, h.st.linked c ≠ some u := by
      intro c hc
      rw [hon c u hc] at hq
      exact absurd (Nat.add_right_cancel hq) (Nat.succ_ne_self _)
    have hta := hof u hn
    refine ⟨hta, ?_⟩
    have hin : u ∈ h.tasks := (hg.real u).mp ((hsc u).2.symm.trans hliv.1)
    rw [hta] at hq
    by_contra h0
    refine hla u hin (fresh_iff.mpr fun s hs => ?_) (Nat.add_right_cancel hq)
    obtain ⟨l, hl, rfl, rfl⟩ := mem_sched.mp hs
    rcases Nat.lt_or_eq_of_le (hg.past l hl) with hlt | heq
    · exact h0 ((Nat.zero_le _).trans_lt (lt_received hs hlt))
    rw [heq] at hs
    obtain ⟨c, hc⟩ := (hg.now l.task).mp hs
    exact hn c hc
  constructor
  · intro t u c _ _ ht hu
    rw [(hsc t).1] at ht
    rw [(hsc u).1] at hu
    exact some.inj ((hg.placed t c ht).symm.trans (hg.placed u c hu))
  · intro t ht hq
    obtain ⟨hta, hpo⟩ := hre t ht hq
    rw [hta]
    exact (hg.last t hpo).2
  intro t u ht hu hqt hqu hcp
  obtain ⟨hta, hpo⟩ := hre t ht hqt
  obtain ⟨hua, hpos'⟩ := hre u hu hqu
  rw [hta, hua] at hcp
  rw [hta] at hqt
  rw [hua] at hqu
  exact hg.last_inj t u hpo hpos' (by omega) hcp

theorem exec_quantum (hg : Good h) (hahe : h.st.curTick < h.st.pfairTime)
    (hpre : ∀ t ∈ h.tasks, (h.st.task t).present = true)
    (hla : ∀ t ∈ h.tasks, h.fresh t = true → (h.st.task t).pfair.lastQuantum ≠ h.st.curTick) :
    ∃ st', h.st.exec (2 * n + 1) .quantum = some st' ∧ NextQuantum h st' := by
  have hmer := hg.inv.merged
  obtain ⟨st1, hadv, hkept1, hshape1, hfiled1, hsorted1, hon, hof, _⟩ :=
    advanceSubtasks_present (hg.inv.filed.mono hmer) hg.inv.shaped hg.sorted
      fun c l hl => hpre l ((hg.real l).mp (hg.inv.filed.live_of_linked hl).1)
  have hpo := hfiled1.pollReleases rfl (Nat.lt_succ_self _) (by rw [hkept1.mergeTime]; omega)
  have hqu : ∀ u, st1.Queued u → (st1.task u).realtime = true := by
    rintro u (hq | ⟨i, hq⟩)
    · exact ((hfiled1.custody.live_iff u).mp ⟨.ready, hq⟩).1
    exact ((hfiled1.custody.live_iff u).mp ⟨.slot i, hq⟩).1
  have hsorted2 := hsorted1.pollReleases hqu (h.st.curTick + 1)
  have hhom : Homes (h.st.curTick + 1) st1.Live (st1.pollReleases (h.st.curTick + 1)) :=
    (hg.homes hla hon hof).congr rfl
  obtain ⟨st2, hst2, hta, hrel, hord, hset⟩ := scheduleSubtasks_settles hpo rfl
    ⟨hsorted2.ready, fun u hu => hu.1⟩ hhom (Nat.lt_succ_self (2 * n))
  obtain ⟨hkept2, _, hfiled2⟩ := hpo.scheduleSubtasks rfl hst2
  have hx : h.st.scheduleNextQuantum (h.st.curTick + 1) (2 * n + 1) =
      some { st2 with curTick := h.st.curTick + 1 } := by
    rw [scheduleNextQuantum, hadv, bind_some, hst2, map_some]
  have hta : st2.task = st1.task := hta
  have hrd : order { st2 with curTick := h.st.curTick + 1 } =
      (st1.pollReleases (h.st.curTick + 1)).order := by
    rw [hta]
    rfl
  refine ⟨_, hx, hg.inv.quantum hahe hx, ⟨?_, ?_⟩, rfl, ?_, ?_, ?_, hset, ?_⟩
  · rw [hrd]
    exact hord
  · intro i
    rw [hrd]
    simp only [hrel]
    exact hsorted2.wheel i
  · exact hkept2.current.trans hkept1.current
  · intro c l hl
    rw [← hon c l hl]
    exact congrFun hta l
  · intro u hu
    rw [← hof u hu]
    exact congrFun hta u
  · exact fun c u hu => hfiled2.linked c u hu

end Good

namespace NextQuantum

variable {h : History n} {st' : State n} {t : TaskId}

section

variable (hq : NextQuantum h st')
include hq

theorem fields (t : TaskId) : (st'.task t).realtime = (h.st.task t).realtime ∧
      (st'.task t).scheduledOn = (h.st.task t).scheduledOn ∧
      (st'.task t).pfair.quanta = (h.st.task t).pfair.quanta ∧
      (st'.task t).pfair.period = (h.st.task t).pfair.period ∧
      (st'.task t).pfair.sporadicRelease = (h.st.task t).pfair.sporadicRelease := by
  by_cases ht : ∃ c, h.st.linked c = some t
  · obtain ⟨c, hc⟩ := ht
    rw [hq.on c t hc]
    exact ⟨PfairTask.realtime_advanced _ _ _, rfl, rfl, rfl, rfl⟩
  rw [hq.off t fun c hc => ht ⟨c, hc⟩]
  exact ⟨rfl, rfl, rfl, rfl, rfl⟩

theorem share_eq : (h.next .quantum st').share = h.share := by
  funext t
  obtain ⟨_, _, hqua, hpd, _⟩ := hq.fields t
  simp [History.share, History.next, PfairParam.share, hqua, hpd]

theorem time_of_mem {l : Link n} (hl : l ∈ st'.links) :
    l.time = h.st.curTick + 1 := (mem_links.mp hl).1.trans hq.tick

theorem sched_old {s : Nat} (hs : s < h.st.curTick + 1) :
    (h.next .quantum st').sched s = h.sched s := by
  ext t
  simp only [mem_sched, History.next, List.mem_append]
  constructor
  · rintro ⟨l, hl | hl, rfl, rfl⟩
    · exact absurd (hq.time_of_mem hl) (ne_of_lt hs)
    exact ⟨l, hl, rfl, rfl⟩
  rintro ⟨l, hl, rfl, rfl⟩
  exact ⟨l, .inr hl, rfl, rfl⟩

end

theorem mem_sched_new (hg : Good h) (hq : NextQuantum h st') :
    t ∈ (h.next .quantum st').sched (h.st.curTick + 1) ↔ ∃ c, st'.linked c = some t := by
  simp only [mem_sched, History.next, List.mem_append]
  constructor
  · rintro ⟨l, hl | hl, htim, rfl⟩
    · exact ⟨l.cpu, (mem_links.mp hl).2.1⟩
    have := hg.past l hl
    omega
  rintro ⟨c, hc⟩
  exact ⟨⟨st'.curTick, c, t, (st'.task t).pfair.release, (st'.task t).pfair.cur⟩,
    .inl (mem_links.mpr ⟨rfl, hc, rfl, rfl⟩), hq.tick, rfl⟩

theorem received_eq (hq : NextQuantum h st') (t : TaskId) {s : Nat} (hs : s ≤ h.st.curTick + 1) :
    received (h.next .quantum st').sched t s = received h.sched t s :=
  received_congr fun _ hx => hq.sched_old (hx.trans_le hs)

section

variable (hg : Good h) (hq : NextQuantum h st')

include hg hq

theorem unit (ht : t ∈ h.tasks) :
    (st'.task t).pfair.AtUnit (h.start t) (received h.sched t (h.st.curTick + 1)) := by
  by_cases hlk : ∃ c, h.st.linked c = some t
  · obtain ⟨c, hc⟩ := hlk
    rw [hq.on c t hc, received_succ_of_mem ((hg.now t).mpr ⟨c, hc⟩)]
    exact (hg.unit t ht).advanced (hg.inv.shaped t ((hg.real t).mpr ht)) _ c
  rw [hq.off t fun c hc => hlk ⟨c, hc⟩,
    received_succ_of_notMem fun hin => hlk ((hg.now t).mp hin)]
  exact hg.unit t ht

/-- What `cur_release` and the comparison of the ready queue read are the window, overlap and
    group deadline of the next unit. -/
theorem window (ht : t ∈ h.tasks) :
    (h.share t).release (received h.sched t (h.st.curTick + 1)) = (st'.task t).curRelease ∧
      (h.share t).deadline (received h.sched t (h.st.curTick + 1)) = (st'.task t).curDeadline ∧
      (h.share t).overlap (received h.sched t (h.st.curTick + 1)) = (st'.task t).curOverlap ∧
      (h.share t).groupDeadline (received h.sched t (h.st.curTick + 1)) =
        (st'.task t).curGroupDeadline := by
  obtain ⟨hrt, _, hqua, hpd, _⟩ := hq.fields t
  have hwf : (st'.task t).pfair.Wf := hq.inv.shaped t (hrt.trans ((hg.real t).mpr ht))
  have hfi : (st'.task t).pfair.quanta ≤ (st'.task t).pfair.period := by
    rw [hqua, hpd]
    exact hg.fit t ht
  have hun := hq.unit hg ht
  have hsha := (congrFun hq.share_eq t).symm
  rw [hsha]
  obtain ⟨hr, hd⟩ := hun.window hwf hfi
  exact ⟨hr, hd, hun.overlap hwf hfi, hun.groupDeadline hwf hfi⟩

theorem live_iff : st'.Live t ↔ t ∈ h.tasks := by
  obtain ⟨hrt, _, _, _, hspo⟩ := hq.fields t
  rw [Live, hrt, hspo, hg.real t]
  exact ⟨fun hl => hl.1, fun ht => ⟨ht, hg.inside t ht⟩⟩

/-- A task that is passed over while its unit is released waits in the ready queue. -/
theorem mem_ready (ht : t ∈ h.tasks)
    (hn : ∀ c, st'.linked c ≠ some t) (hrel : (st'.task t).curRelease ≤ h.st.curTick + 1) :
    t ∈ st'.readyQueue.elems := by
  obtain ⟨p, hp⟩ := (hq.inv.filed.custody.live_iff t).mpr ((hq.live_iff hg).mpr ht)
  rcases p with _ | i | c
  · exact hp
  · have := (hq.inv.filed.wheel i t hp).2.1
    rw [hq.tick] at this
    exact absurd hrel (not_le.mpr this)
  exact absurd (held_linked.mp hp) (hn c)

theorem card_sched (hall : ∀ c, st'.linked c ≠ none) :
    ((h.next .quantum st').sched (h.st.curTick + 1)).card = n := by
  have hget : ∀ c, ∃ t, st'.linked c = some t := fun c => ne_none_iff_exists'.mp (hall c)
  choose f hf using hget
  have hima : (h.next .quantum st').sched (h.st.curTick + 1) = univ.image f := by
    ext t
    rw [hq.mem_sched_new hg, mem_image]
    refine exists_congr fun c => ?_
    rw [hf c, some.injEq]
    exact (and_iff_right (mem_univ c)).symm
  have hinj : Function.Injective f := fun c d hcd =>
    hq.inv.filed.linked_inj (hf c) (by rw [hf d, hcd])
  rw [hima, card_image_of_injective _ hinj, card_univ, Fintype.card_fin]

theorem prefers {c : Fin n} {l : TaskId}
    (hl : st'.linked c = some l) (ht : t ∈ st'.readyQueue.elems) :
    Prefers (h.share l) (received h.sched l (h.st.curTick + 1)) (h.share t)
      (received h.sched t (h.st.curTick + 1)) := by
  have hLl := hq.inv.filed.live_of_linked hl
  have hbe := (hq.settled c c.isLt).1 l hl t ht
  obtain ⟨_, hdl, hol, hgl⟩ := hq.window hg ((hq.live_iff hg).mp hLl)
  obtain ⟨_, hdt, hot, hgt⟩ := hq.window hg ((hq.live_iff hg).mp (hq.inv.filed.live_of_ready ht))
  have hn : ¬pfairReadyOrder st'.task t l = true := by
    rw [order] at hbe
    simp [hbe]
  rw [pfairReadyOrder_iff hLl.1] at hn
  unfold Prefers
  omega

theorem greedy : Greedy (h.next .quantum st').share h.tasks n (h.st.curTick + 1 + 1)
      (h.next .quantum st').sched := by
  rw [hq.share_eq]
  refine hg.greedy.extend (fun s hs => hq.sched_old hs) ?_ ?_ ?_
  · intro t ht
    obtain ⟨c, hc⟩ := (hq.mem_sched_new hg).mp ht
    exact (hq.live_iff hg).mp (hq.inv.filed.live_of_linked hc)
  · intro t ht
    obtain ⟨c, hc⟩ := (hq.mem_sched_new hg).mp ht
    rw [(hq.window hg ((hq.live_iff hg).mp (hq.inv.filed.live_of_linked hc))).1]
    exact hq.linked c t hc
  intro u hu hnot hre
  rw [(hq.window hg hu).1] at hre
  have hr := hq.mem_ready hg hu (fun c hc => hnot ((hq.mem_sched_new hg).mpr ⟨c, hc⟩)) hre
  refine ⟨hq.card_sched hg fun c hn => ?_, fun t ht => ?_⟩
  · rw [(hq.settled c c.isLt).2 hn] at hr
    exact Multiset.notMem_zero u hr
  obtain ⟨c, hc⟩ := (hq.mem_sched_new hg).mp ht
  exact hq.prefers hg hc hr

theorem link_new {l : Link n} (hl : l ∈ st'.links) : l.cur < (st'.task l.task).pfair.quanta ∧
      ∃ job, l.release = h.start l.task + job * (st'.task l.task).pfair.period ∧
        received h.sched l.task l.time = job * (st'.task l.task).pfair.quanta + l.cur := by
  obtain ⟨_, hlk, hre, hcur⟩ := mem_links.mp hl
  have hli := hq.inv.filed.live_of_linked hlk
  obtain ⟨job, hjob, huni⟩ := hq.unit hg ((hq.live_iff hg).mp hli)
  rw [hcur, hre, hq.time_of_mem hl]
  exact ⟨(hq.inv.shaped l.task hli.1).cur_lt, job, hjob, huni⟩

/-- A task that has received a unit knows when and where it was linked last. -/
theorem last (hpo : 0 < received h.sched t (h.st.curTick + 1)) :
    (∃ c, h.st.linked c = some t ∧ (st'.task t).pfair.lastQuantum = h.st.curTick + 1 ∧
        (st'.task t).pfair.lastCpu = c) ∨
      (0 < received h.sched t h.st.curTick ∧ st'.task t = h.st.task t) := by
  by_cases hlk : ∃ c, h.st.linked c = some t
  · obtain ⟨c, hc⟩ := hlk
    refine .inl ⟨c, hc, ?_⟩
    rw [hq.on c t hc]
    exact ⟨rfl, rfl⟩
  rw [received_succ_of_notMem fun hin => hlk ((hg.now t).mp hin)] at hpo
  exact .inr ⟨hpo, hq.off t fun c hc => hlk ⟨c, hc⟩⟩

theorem good : Good (h.next .quantum st') := by
  have hti : (h.next .quantum st').st.curTick = h.st.curTick + 1 := hq.tick
  have hre : ∀ t, received (h.next .quantum st').sched t (h.next .quantum st').st.curTick =
      received h.sched t (h.st.curTick + 1) := by
    intro t
    rw [hti]
    exact hq.received_eq t (le_refl _)
  constructor
  · exact hq.inv
  · exact hq.sorted
  · intro t
    have hrt := hg.real t
    rw [← (hq.fields t).1] at hrt
    exact hrt
  · intro t ht
    exact (hq.fields t).2.2.2.2.trans (hg.inside t ht)
  · intro t ht
    obtain ⟨_, _, hqa, hpd, _⟩ := hq.fields t
    exact (hqa.trans_le (hg.fit t ht)).trans_eq hpd.symm
  · intro t c hc
    exact (congrFun hq.current c).trans (hg.placed t c ((hq.fields t).2.1.symm.trans hc))
  · intro t ht
    rw [hre]
    exact hq.unit hg ht
  · intro t
    rw [hti]
    exact hq.mem_sched_new hg
  · intro l hl
    rw [hti]
    rcases List.mem_append.mp hl with hl | hl
    · exact (hq.time_of_mem hl).le
    exact (hg.past l hl).trans (Nat.le_succ _)
  · rw [hti]
    exact hq.greedy hg
  · intro l hl
    rcases List.mem_append.mp hl with hl | hl
    · rw [hq.received_eq l.task (hq.time_of_mem hl).le]
      exact hq.link_new hg hl
    obtain ⟨_, _, hqa, hpd, _⟩ := hq.fields l.task
    rw [hq.received_eq l.task ((hg.past l hl).trans (Nat.le_succ _)),
      show ((h.next .quantum st').st.task l.task).pfair.quanta = _ from hqa,
      show ((h.next .quantum st').st.task l.task).pfair.period = _ from hpd]
    exact hg.link l hl
  · intro l hl l' hl' htm hta
    -- the new links are later than all others
    rcases List.mem_append.mp hl with hl | hl <;> rcases List.mem_append.mp hl' with hl' | hl'
    · obtain ⟨h1, h2, h3, h4⟩ := mem_links.mp hl
      obtain ⟨g1, g2, g3, g4⟩ := mem_links.mp hl'
      have hcp : l.cpu = l'.cpu := hq.inv.filed.linked_inj h2 (by rw [g2, hta])
      rcases l with ⟨time, cpu, task, release, cur⟩
      rcases l' with ⟨time', cpu', task', release', cur'⟩
      subst hta
      rw [Link.mk.injEq]
      exact ⟨htm, hcp, rfl, h3.trans g3.symm, h4.trans g4.symm⟩
    · have := hq.time_of_mem hl
      have := hg.past l' hl'
      omega
    · have := hq.time_of_mem hl'
      have := hg.past l hl
      omega
    · exact hg.once l hl l' hl' htm hta
  · intro t hpo
    rw [hre] at hpo
    rw [hti]
    rcases hq.last hg hpo with ⟨c, _, hqn, hcp⟩ | ⟨hpo, hta⟩
    · exact ⟨hqn.le, hcp.trans_lt c.isLt⟩
    obtain ⟨hle, hlt⟩ := hg.last t hpo
    rw [show (h.next .quantum st').st.task t = _ from hta]
    exact ⟨hle.trans (Nat.le_succ _), hlt⟩
  · intro t u ht hu hqn hcp
    rw [hre] at ht hu
    replace hqn : (st'.task t).pfair.lastQuantum = (st'.task u).pfair.lastQuantum := hqn
    replace hcp : (st'.task t).pfair.lastCpu = (st'.task u).pfair.lastCpu := hcp
    rcases hq.last hg ht with ⟨c, hc, hqt, hct⟩ | ⟨ht, hta⟩
    · rcases hq.last hg hu with ⟨d, hd, _, hcu⟩ | ⟨hu, hua⟩
      · have hcd : c = d := Fin.ext (hct.symm.trans (hcp.trans hcu))
        rw [hcd, hd] at hc
        exact (some.inj hc).symm
      have := (hg.last u hu).1
      rw [hua] at hqn
      omega
    rcases hq.last hg hu with ⟨d, _, hqu, _⟩ | ⟨hu, hua⟩
    · have := (hg.last t ht).1
      rw [hta] at hqn
      omega
    rw [hta, hua] at hqn hcp
    exact hg.last_inj t u ht hu hqn hcp

end

end NextQuantum

/-! ### Steps -/

namespace Good

variable {h : History n} {st' : State n} {t : TaskId}

theorem queued_real (hg : Good h) (u : TaskId) (hu : h.st.Queued u) :
    (h.st.task u).realtime = true := by
  rcases hu with hq | ⟨i, hq⟩
  · exact ((hg.inv.filed.custody.live_iff u).mp ⟨.ready, hq⟩).1
  exact ((hg.inv.filed.custody.live_iff u).mp ⟨.slot i, hq⟩).1

theorem modify (hg : Good h) (t : TaskId) (f : PfairTask n → PfairTask n)
    (hrt : ∀ p, (f p).realtime = p.realtime) (hpf : ∀ p, (f p).pfair = p.pfair)
    (hpl : ∀ p, (f p).scheduledOn = p.scheduledOn) : Good { h with st := h.st.modify t f } := by
  have hfi : ∀ u, ((h.st.modify t f).task u).realtime = (h.st.task u).realtime ∧
      ((h.st.modify t f).task u).pfair = (h.st.task u).pfair ∧
      ((h.st.modify t f).task u).scheduledOn = (h.st.task u).scheduledOn := by
    intro u
    by_cases hu : u = t
    · subst hu
      rw [task_modify_self]
      exact ⟨hrt _, hpf _, hpl _⟩
    simp [State.modify, hu]
  refine hg.congr (hg.inv.modify t f hrt hpf) (hg.sorted.modify_keep f fun p => ?_)
    (fun u => (hfi u).1) (fun u => (hfi u).2.1) rfl rfl fun u c hc => ?_
  · exact prioKey_congr (hrt p) (hpf p)
  exact hg.placed u c ((hfi u).2.2.symm.trans hc)

theorem fresh_of_not_mem (hg : Good h) (ht : t ∉ h.tasks) (s : Nat) : t ∉ h.sched s := by
  intro hs
  obtain ⟨l, hl, rfl, rfl⟩ := mem_sched.mp hs
  exact ht (hg.greedy.sub l.time (Nat.lt_succ_of_le (hg.past l hl)) hs)

theorem sorted_file {st : State n} (hso : st.Sorted) (hn : ¬st.Queued t)
    (hqu : ∀ u, st.Queued u → (st.task u).realtime = true) {f : PfairTask n → PfairTask n}
    (hrt : (f (st.task t)).realtime = true)
    (hst' : (st.modify t f).pfairAddRelease t = some st') : st'.Sorted := by
  refine (hso.modify hn f).pfairAddRelease (fun u hu => ?_) (by simpa using hrt) hst'
  by_cases hut : u = t
  · subst hut
    exact absurd hu hn
  simp only [State.modify, update_of_ne hut]
  exact hqu u hu

theorem taskNew (hg : Good h) {params : TaskParams} {running : Option (Fin n)}
    {lastQuantum lastCpu : Nat}
    (hl : h.st.Legal (.taskNew t params running lastQuantum lastCpu) = true)
    (hal : h.Allowed (.taskNew t params running lastQuantum lastCpu) = true) :
    ∃ st', h.st.taskNew t params running lastQuantum lastCpu = some st' ∧
      Good (h.next (.taskNew t params running lastQuantum lastCpu) st') := by
  simp only [Legal, Bool.and_eq_true, Bool.not_eq_true', decide_eq_true_eq] at hl
  obtain ⟨⟨hrt, hcos⟩, hfr⟩ := hl
  simp only [Allowed, Bool.and_eq_true] at hal
  obtain ⟨hfit, hqu⟩ := hal
  have hou : t ∉ h.tasks := fun ht => by
    rw [(hg.real t).mpr ht] at hrt
    cases hrt
  have hn : ¬h.st.Queued t := fun hq => by
    rw [hg.queued_real t hq] at hrt
    cases hrt
  -- a task that is rejected leaves no trace
  have hre : Good (h.next (.taskNew t params running lastQuantum lastCpu) h.st) := by
    simp only [History.next, hrt, Bool.false_eq_true, if_false]
    exact hg
  by_cases hok : params.period = 0 ∨ params.period < params.execCost
  · exact ⟨h.st, if_pos hok, hre⟩
  rcases hg.inv.taskNew_spec (t := t) hrt hcos hfit with
    heq | ⟨param, st', hpa, heq, hk, hta, hlk, hI⟩
  · exact ⟨h.st, heq, hre⟩
  refine ⟨st', heq, ?_⟩
  obtain ⟨htaskOn, _, hreadyOn, hrelqOn, _, _, hcurOn, _, _⟩ :=
    Inv.startedOn_fields running t h.st
  have hso : st'.Sorted := by
    have hsd := hg.sorted.congr hreadyOn hrelqOn fun u _ => by rw [htaskOn]
    refine sorted_file hsd ?_ ?_ rfl ((Inv.taskNew_eq hok hpa).symm.trans heq)
    · simp only [Queued, hreadyOn, hrelqOn]
      exact hn
    intro u hu
    simp only [Queued, hreadyOn, hrelqOn] at hu
    rw [htaskOn]
    exact hg.queued_real u hu
  have hse : st'.task t = Inv.newTask h.st params running param := by
    rw [hta, update_self]
  have ho : ∀ u, u ≠ t → st'.task u = h.st.task u := fun u hu => by
    rw [hta, update_of_ne hu]
  have had : (st'.task t).realtime = true := by
    rw [hse]
    rfl
  have hlin := hg.not_linked (hg.fresh_of_not_mem hou)
  simp only [History.next, had, if_true]
  refine hg.restart (hg.fresh_of_not_mem hou) hI hso
    (fun u hu => by rw [ho u hu]; exact ⟨rfl, rfl⟩) had (by rw [hse]; rfl)
    (by rw [hse]; rfl) ?_ ?_ (fun c u _ => by rw [hlk]) (fun c => by rw [hlk]; exact hlin c)
    (hk.curTick.trans hcurOn) ?_
  · rw [hse]
    rw [hpa] at hqu
    exact of_decide_eq_true hqu
  · rw [hse]
    exact Nat.lt_succ_of_le hg.inv.ahead
  intro u c hc
  rw [hk.current]
  by_cases hu : u = t
  · subst hu
    rw [hse] at hc
    obtain rfl : running = some c := hc
    exact update_self _ _ _
  rw [ho u hu] at hc
  have hcu := hg.placed u c hc
  rcases running with _ | d
  · exact hcu
  have hcd : c ≠ d := by
    rintro rfl
    simp [hcu] at hfr
  simp only [Inv.startedOn, update_of_ne hcd]
  exact hcu

theorem releaseAt (hg : Good h) {start : LtTime} (hle : h.st.Legal (.releaseAt t start) = true)
    (hal : h.Allowed (.releaseAt t start) = true) :
    ∃ st', h.st.pfairReleaseAt t start = some st' ∧ Good (h.next (.releaseAt t start) st') := by
  simp only [Allowed, Bool.and_eq_true] at hal
  obtain ⟨hfi, hfr⟩ := hal
  have hfr := fresh_iff.mp hfr
  have ht : t ∈ h.tasks := (hg.real t).mp hle
  obtain ⟨st', heq, hk, hlk, hoff, hta, hI⟩ := hg.inv.pfairReleaseAt hle hfi
  refine ⟨st', heq, ?_⟩
  have hso : st'.Sorted := by
    obtain ⟨st0, hdr, heq⟩ := bind_eq_some_iff.mp heq
    obtain ⟨st1, hfil, rfl⟩ := map_eq_some_iff.mp heq
    have hjo := hg.modify t (PfairTask.setRt (RtTask.releaseAt start)) (fun _ => rfl)
      (fun _ => rfl) fun _ => rfl
    obtain ⟨_, hdrop', _, htask0, _, hfiled0⟩ := hjo.inv.filed.dropAllReferences hjo.inv.merged t
    cases hdr.symm.trans hdrop'
    have hsorted0 : st0.Sorted := hjo.sorted.dropAllReferences hjo.queued_real
      hjo.inv.filed.custody.nodup hdr
    have hqu : ∀ u, st0.Queued u → (st0.task u).realtime = true := by
      intro u hu
      rw [htask0]
      rcases hu with hq | ⟨i, hq⟩
      · exact ((hfiled0.custody.live_iff u).mp ⟨.ready, hq⟩).2.1
      exact ((hfiled0.custody.live_iff u).mp ⟨.slot i, hq⟩).2.1
    have hreal0 : ((st0.task t).prepareRelease (h.st.releaseQuantum start)).realtime = true := by
      rw [htask0, task_modify_self]
      exact hle
    exact (sorted_file hsorted0 (hfiled0.not_queued fun hl => hl.1 rfl) hqu hreal0
      hfil).modify_keep _ fun _ => rfl
  have hse : st'.task t = (((h.st.task t).setRt (RtTask.releaseAt start)).prepareRelease
      (h.st.releaseQuantum start)).setPfair fun q => { q with sporadicRelease := false } := by
    rw [hta, update_self]
  have ho : ∀ u, u ≠ t → st'.task u = h.st.task u := fun u hu => by
    rw [hta, update_of_ne hu]
  have hgo := hg.restart hfr hI hso
    (fun u hu => by rw [ho u hu]; exact ⟨rfl, rfl⟩) (by rw [hse]; exact hle)
    (by rw [hse]; rfl) (by rw [hse]; rfl) (by rw [hse]; exact hg.fit t ht)
    (by rw [hse]; exact (decide_eq_true_iff.mp hfi).1) hlk hoff hk.curTick ?_
  · rw [insert_eq_self.mpr ht] at hgo
    exact hgo
  intro u c hc
  rw [hk.current]
  refine hg.placed u c ?_
  by_cases hu : u = t
  · subst hu
    rw [hse] at hc
    exact hc
  rw [ho u hu] at hc
  exact hc

theorem schedule (hg : Good h) (c : Fin n) : Good { h with st := h.st.pfairSchedule c } := by
  obtain ⟨hr, hrel, hlk, htic, hfi, hcrr⟩ := h.st.pfairSchedule_fields c
  refine hg.congr (hg.inv.pfairSchedule c) (hg.sorted.congr hr hrel fun u _ => ?_)
    (fun u => (hfi u).1) (fun u => (hfi u).2.1) hlk htic fun u d hd => ?_
  · exact prioKey_congr (hfi u).1 (hfi u).2.1
  rw [hcrr]
  rcases (hfi u).2.2 d hd with ⟨rfl, hn⟩ | ⟨hne, hold⟩
  · rw [update_self, hn]
  have hcu := hg.placed u d hold
  have hdc : d ≠ c := by
    rintro rfl
    exact hne hcu
  rw [update_of_ne hdc]
  exact hcu

theorem step (hg : Good h) {op : Op n} (hl : h.st.Legal op = true) (hal : h.Allowed op = true) :
    ∃ fuel st', h.st.exec fuel op = some st' ∧ Good (h.next op st') := by
  rcases op with ⟨t, params, running, lastQuantum, lastCpu⟩ | ⟨t, now⟩ | t | t | ⟨t, start⟩ |
    _ | _ | c | c | c
  · exact ⟨0, hg.taskNew hl hal⟩
  · simp only [Legal, Bool.and_eq_true] at hl
    have hn : ¬(h.st.task t).pfair.sporadicRelease = true := by
      rw [hg.inside t ((hg.real t).mp hl.1)]
      exact Bool.false_ne_true
    refine ⟨0, h.st.modify t fun p => { (p.setRt (RtTask.setRunning true)) with present := true },
      ?_, hg.modify t _ (fun _ => rfl) (fun _ => rfl) fun _ => rfl⟩
    unfold State.exec pfairTaskWakeUp
    simp only [task_modify_self]
    exact if_neg hn
  · exact ⟨0, _, rfl, hg.modify t _ (fun _ => rfl) (fun _ => rfl) fun _ => rfl⟩
  · simp [Allowed] at hal
  · exact ⟨0, hg.releaseAt hl hal⟩
  · refine ⟨0, _, rfl, hg.congr ?_ ?_ (fun _ => rfl) (fun _ => rfl) rfl rfl hg.placed⟩
    · exact hg.inv.congr rfl rfl rfl rfl rfl rfl rfl (Nat.le_succ _) rfl
    exact hg.sorted.congr rfl rfl fun _ _ => rfl
  · simp only [Allowed, Fits, Bool.true_and, decide_eq_true_eq] at hal
    obtain ⟨st', hst', hq⟩ := hg.exec_quantum (decide_eq_true_iff.mp hl)
      (fun t ht => (hal t ht).1) fun t ht => (hal t ht).2
    exact ⟨_, st', hst', hq.good hg⟩
  · refine ⟨0, _, rfl, hg.congr ?_ ?_ (fun _ => rfl) (fun _ => rfl) rfl rfl hg.placed⟩
    · exact hg.inv.congr rfl rfl rfl rfl rfl rfl rfl le_rfl rfl
    exact hg.sorted.congr rfl rfl fun _ _ => rfl
  · refine ⟨0, _, rfl, ?_⟩
    rcases hc : h.st.current c with _ | t
    · exact hg
    exact hg.modify t _ (fun _ => rfl) (fun _ => rfl) fun _ => rfl
  · exact ⟨0, _, rfl, hg.schedule c⟩

theorem run {q mergeTime tickPeriod : Nat} (hm : mergeTime ≤ q) (htic : 0 < tickPeriod)
    {ops : List (Op n)} (hr : Run Step (History.init q mergeTime tickPeriod) ops h) : Good h := by
  refine hr.invariant (fun h op h' hg hs => ?_) (Good.init hm htic)
  obtain ⟨hall, st', ⟨hl, fuel, hst'⟩, rfl⟩ := hs
  obtain ⟨fuel', st'', hst'', hgoo⟩ := hg.step hl hall
  rw [exec_unique hst' hst'']
  exact hgoo

end Good

end History

end Litmus.Pfair
