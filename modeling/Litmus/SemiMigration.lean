import Litmus.SemiPlaces

/-!
# Migration loses and duplicates no task

Along every interleaving of the CPUs, each runnable task has exactly one place, and a CPU
holds only tasks whose current slice is its own.
-/

namespace Litmus.SemiPart

open BinomialForest SlicedTask Runs Function CpuDomain Option Multiset
open Multiset (mem_add mem_cons nodup_cons cons_add mem_cons_self add_cons)

/-! ### Every task has an online home -/

structure Checked (n : Nat) (p : SlicedTask) : Prop where
  online : ∀ s ∈ p.slices, s.cpu.toNat < n
  budget : ∀ s ∈ p.slices, MIN_SLICE_SIZE ≤ s.budget
  enforced : p.isSlicedTask = true → p.params.budgetPolicy = .preciseEnforcement

/-- The task has a CPU and its slice is one of its slices. -/
structure Home (n : Nat) (p : SlicedTask) : Prop where
  online : p.params.cpu.toNat < n
  checked : Checked n p
  index : p.isSlicedTask = true → p.semi.slice < p.slices.length

section

variable {n : Nat} {pl : Plugin} {queued : Bool} {p p' : SlicedTask}

variable {signaled : Bool}

theorem Checked.of_constants (hp : Checked n p) (h : p'.constants = p.constants) :
    Checked n p' := by
  have hsl : p'.slices = p.slices := congrArg Prod.fst h
  have hpol : p'.params.budgetPolicy = p.params.budgetPolicy := congrArg (fun k => k.2.2.1) h
  refine ⟨hsl ▸ hp.online, hsl ▸ hp.budget, ?_⟩
  rw [isSlicedTask, hsl, hpol]
  exact hp.enforced

theorem Home.computeSliceParams (hp : Checked n p) (hid : p.semi.slice < p.slices.length) :
    Home n (p.computeSliceParams pl) where
  online := by
    apply hp.online
    change p.slices.getD p.semi.slice default ∈ p.slices
    rw [List.getD_eq_getElem?_getD, List.getElem?_eq_getElem hid]
    exact List.getElem_mem hid
  checked := hp.of_constants rfl
  index _ := hid

theorem Home.advance (h : p.advanceNextSlice pl queued signaled = some p') (hp : Checked n p)
    (hid : p.semi.slice < p.slices.length) : Home n p' := by
  rcases advanceNextSlice_cases hid h with ⟨_, rfl⟩ | ⟨_, hlt, rfl⟩
  · apply Home.computeSliceParams
    · exact hp.of_constants (by cases pl <;> rfl)
    cases pl <;> exact Nat.zero_lt_of_lt hid
  exact Home.computeSliceParams (hp.of_constants rfl) hlt

theorem Home.releaseAt {start : LtTime} (hp : Home n p)
    (h : p.releaseAt pl queued start = some p') : Home n p' := by
  have hch := hp.checked.of_constants (constants_releaseAt h)
  unfold SlicedTask.releaseAt at h
  split at h
  · rename_i hsl
    obtain ⟨u, hu, rfl⟩ := map_eq_some_iff.mp h
    have hpos : 0 < p.slices.length := Nat.zero_lt_of_lt (hp.index hsl)
    have hla : p.getLastSlice < p.slices.length := Nat.sub_lt hpos one_pos
    have hhome := Home.advance hu (hp.checked.of_constants rfl) hla
    exact ⟨hhome.online, hch, hhome.index⟩
  cases h
  exact ⟨hp.online, hch, hp.index⟩

theorem Home.resume {now : LtTime} (hp : Home n p) (h : p.resume pl queued now = some p') :
    Home n p' :=
  resume_induction
    (fun hu _ had => Home.advance had hu.checked (hu.index (isSlicedTask_of_advance had)))
    (fun _ hu _ => ⟨hu.online, hu.checked.of_constants rfl, hu.index⟩)
    (fun hu hrel => hu.releaseAt hrel) hp h

theorem Home.completion (hp : Home n p) (h : p.jobOrSliceCompletion pl queued signaled = some p') :
    Home n p' := by
  unfold jobOrSliceCompletion at h
  split at h
  · rename_i hsl
    exact Home.advance h hp.checked (hp.index hsl)
  cases h
  exact ⟨hp.online, hp.checked.of_constants rfl, hp.index⟩

theorem Home.newJob (now : LtTime) (hp : Home n p) : Home n (p.newJob now) := by
  have hch := hp.checked.of_constants (constants_newJob now p)
  revert hch
  unfold SlicedTask.newJob
  dsimp only
  split
  · rename_i hsl
    exact fun hch =>
      ⟨hp.online, hch, fun _ => Nat.zero_lt_of_lt (hp.index hsl)⟩
  exact fun hch => ⟨hp.online, hch, hp.index⟩

theorem constants_completion (h : p.jobOrSliceCompletion pl queued signaled = some p') :
    p'.constants = p.constants := by
  unfold jobOrSliceCompletion at h
  split at h
  · exact constants_advance h
  cases h
  rfl

end

theorem constants_of_unflagged {p p' : SlicedTask} (h : p'.unflagged = p.unflagged) :
    p'.constants = p.constants := congr_unflagged constants (fun _ => rfl) h

theorem Home.congr {n : Nat} {p p' : SlicedTask} (h : p'.unflagged = p.unflagged) (hp : Home n p) :
    Home n p' where
  online := by
    have hc : p'.params.cpu = p.params.cpu :=
      congr_unflagged (fun p => p.params.cpu) (fun _ => rfl) h
    exact hc ▸ hp.online
  checked := hp.checked.of_constants (constants_of_unflagged h)
  index := by
    have hs :=
      congr_unflagged (fun p => (p.isSlicedTask, p.semi.slice, p.slices)) (fun _ => rfl) h
    simp only [Prod.mk.injEq] at hs
    rw [hs.1, hs.2.1, hs.2.2]
    exact hp.index

/-! ### The invariant -/

namespace SemiState

variable {n : Nat}

/-- Every runnable task has exactly one place, and a CPU holds only its own tasks. -/
structure MigrationInv (st : SemiState n) : Prop where
  nodup : st.places.Nodup
  mem_iff : ∀ t, t ∈ st.places ↔ (st.task t).realtime = true ∧ (st.task t).running = true
  partition : ∀ c, ∀ t ∈ (st.dom c).held, (st.task t).params.cpu.toNat = c.val
  home : ∀ t, (st.task t).realtime = true → Home n (st.task t)

theorem MigrationInv.of_onlyAt {c : Fin n} {st1 st' : SemiState n} (hon : OnlyAt c st1 st')
    (hnod : ((st'.dom c).held + st1.elsewhere c).Nodup)
    (hm : ∀ t, t ∈ (st'.dom c).held + st1.elsewhere c ↔
      (st1.task t).realtime = true ∧ (st1.task t).running = true)
    (hpar : ∀ t ∈ (st'.dom c).held, (st1.task t).params.cpu.toNat = c.val)
    (ho : ∀ c', c' ≠ c → ∀ t ∈ (st1.dom c').held, (st1.task t).params.cpu.toNat = c'.val)
    (hhome : ∀ t, (st1.task t).realtime = true → Home n (st1.task t)) : MigrationInv st' := by
  have hcpu : ∀ t, (st'.task t).params.cpu = (st1.task t).params.cpu := fun t =>
    congr_unflagged (fun p => p.params.cpu) (fun _ => rfl) (hon.same t)
  have hreal : ∀ t, (st'.task t).realtime = (st1.task t).realtime := fun t =>
    congr_unflagged (fun p => p.realtime) (fun _ => rfl) (hon.same t)
  have hrun : ∀ t, (st'.task t).running = (st1.task t).running := fun t =>
    congr_unflagged (fun p => p.running) (fun _ => rfl) (hon.same t)
  have hpl : st'.places = (st'.dom c).held + st1.elsewhere c := by
    rw [places_eq c, hon.elsewhere]
  refine ⟨hpl ▸ hnod, fun t => ?_, fun c' t ht => ?_, fun t ht => ?_⟩
  · rw [hpl, hreal, hrun]
    exact hm t
  · rw [hcpu]
    by_cases hc : c' = c
    · subst hc
      exact hpar t ht
    rw [hon.others c' hc] at ht
    exact ho c' hc t ht
  rw [hreal] at ht
  exact (hhome t ht).congr (hon.same t)

section

variable {c : Fin n} {t : TaskId} {p : SlicedTask} {st st' : SemiState n}

variable {now requeued : LtTime} {pl : Plugin}

theorem MigrationInv.same_held (hinv : MigrationInv st) (honl : OnlyAt c st st')
    (hh : (st'.dom c).held = (st.dom c).held) : MigrationInv st' := by
  apply MigrationInv.of_onlyAt honl
  · rw [hh, ← places_eq]
    exact hinv.nodup
  · rw [hh, ← places_eq]
    exact hinv.mem_iff
  · rw [hh]
    exact hinv.partition c
  · exact fun c' _ => hinv.partition c'
  · exact hinv.home

@[simp] theorem setTask_task_self : (st.setTask t p).task t = p := update_self _ _ _

theorem setTask_task_of_ne {u : TaskId} (hu : u ≠ t) : (st.setTask t p).task u = st.task u :=
  update_of_ne hu _ _

theorem MigrationInv.setTask (hinv : MigrationInv st) (hreal : p.realtime = (st.task t).realtime)
    (hrun : p.running = (st.task t).running)
    (hpar : ∀ c, t ∈ (st.dom c).held → p.params.cpu.toNat = c.val)
    (hhome : p.realtime = true → Home n p) : MigrationInv (st.setTask t p) where
  nodup := hinv.nodup
  mem_iff u := by
    by_cases hu : u = t
    · subst hu
      rw [setTask_task_self, hreal, hrun]
      exact hinv.mem_iff u
    rw [setTask_task_of_ne hu]
    exact hinv.mem_iff u
  partition c u hh := by
    by_cases hu : u = t
    · subst hu
      rw [setTask_task_self]
      exact hpar c hh
    rw [setTask_task_of_ne hu]
    exact hinv.partition c u hh
  home u hu := by
    by_cases hut : u = t
    · subst hut
      rw [setTask_task_self] at hu ⊢
      exact hhome hu
    rw [setTask_task_of_ne hut] at hu ⊢
    exact hinv.home u hu

theorem MigrationInv.held_unique (hinv : MigrationInv st) {c c' : Fin n} (hc : t ∈ (st.dom c).held)
    (hc' : t ∈ (st.dom c').held) : c' = c := by
  apply Fin.ext
  rw [← hinv.partition c t hc, ← hinv.partition c' t hc']

/-- One task `t` changes, and moves on CPU `c` or in transit; `rest` are all the others. -/
theorem MigrationInv.move (hinv : MigrationInv st) {rest : Multiset TaskId} (transit : List TaskId)
    (honl : OnlyAt c { st.setTask t p with transit := transit } st')
    (hre : st.places = rest ∨ st.places = t ::ₘ rest) (hfr : t ∉ rest)
    (ho : ∀ c', c' ≠ c → t ∉ (st.dom c').held)
    (haf : (st'.dom c).held + SemiState.elsewhere c { st with transit := transit } = rest ∧
          (p.realtime = true → p.running = false) ∨
        (st'.dom c).held + SemiState.elsewhere c { st with transit := transit } = t ::ₘ rest ∧
          p.realtime = true ∧ p.running = true)
    (hh : ∀ u ∈ (st'.dom c).held, u = t ∧ p.params.cpu.toNat = c.val ∨ u ≠ t ∧ u ∈ (st.dom c).held)
    (hhome : p.realtime = true → Home n p) : MigrationInv st' := by
  have hno : rest.Nodup := by
    rcases hre with h | h
    · exact h ▸ hinv.nodup
    have := hinv.nodup
    rw [h, nodup_cons] at this
    exact this.2
  have hiff : ∀ u, u ≠ t → (u ∈ rest ↔ u ∈ st.places) := by
    intro u hu
    rcases hre with h | h <;> simp [h, hu]
  apply MigrationInv.of_onlyAt honl
  · rcases haf with ⟨h, _⟩ | ⟨h, _⟩
    · exact h ▸ hno
    exact h ▸ nodup_cons.mpr ⟨hfr, hno⟩
  · intro u
    change u ∈ (st'.dom c).held + SemiState.elsewhere c { st with transit := transit } ↔
      ((st.setTask t p).task u).realtime = true ∧ ((st.setTask t p).task u).running = true
    by_cases hu : u = t
    · subst hu
      rw [setTask_task_self]
      rcases haf with ⟨h, hrun⟩ | ⟨h, hbot⟩
      · rw [h]
        refine iff_of_false hfr fun hl => ?_
        exact nomatch ((hrun hl.1).symm.trans hl.2)
      rw [h]
      simp [hbot]
    rw [setTask_task_of_ne hu, ← hinv.mem_iff u, ← hiff u hu]
    rcases haf with ⟨h, _⟩ | ⟨h, _⟩ <;> simp [h, hu]
  · intro u hu
    change ((st.setTask t p).task u).params.cpu.toNat = c.val
    rcases hh u hu with ⟨rfl, hcpu⟩ | ⟨hne, hin⟩
    · rw [setTask_task_self]
      exact hcpu
    rw [setTask_task_of_ne hne]
    exact hinv.partition c u hin
  · intro c' hc u hu
    change ((st.setTask t p).task u).params.cpu.toNat = c'.val
    have hne : u ≠ t := by
      rintro rfl
      exact ho c' hc hu
    rw [setTask_task_of_ne hne]
    exact hinv.partition c' u hu
  · intro u hu
    change ((st.setTask t p).task u).realtime = true at hu
    change Home n ((st.setTask t p).task u)
    by_cases hut : u = t
    · subst hut
      rw [setTask_task_self] at hu ⊢
      exact hhome hu
    rw [setTask_task_of_ne hut] at hu ⊢
    exact hinv.home u hu

theorem elsewhere_cons (c : Fin n) (t : TaskId) (st : SemiState n) :
    SemiState.elsewhere c { st with transit := t :: st.transit } = t ::ₘ st.elsewhere c := by
  rw [elsewhere, ← cons_coe, cons_add]
  rfl

section

variable (hinv : MigrationInv st) (hslot : (st.dom c).scheduled = some t)

include hinv hslot

theorem MigrationInv.slot : st.places = t ::ₘ ((st.dom c).domain.queued + st.elsewhere c) ∧
      t ∉ (st.dom c).domain.queued + st.elsewhere c ∧ (∀ c', c' ≠ c → t ∉ (st.dom c').held) ∧
      (st.task t).realtime = true ∧ (st.task t).running = true := by
  have hpl : st.places = t ::ₘ ((st.dom c).domain.queued + st.elsewhere c) := by
    rw [places_eq c, held_of_scheduled hslot, cons_add]
  have hh : t ∈ (st.dom c).held := mem_held.mpr (.inl hslot)
  refine ⟨hpl, ?_, fun c' hc ht => hc (hinv.held_unique hh ht), ?_⟩
  · have := hinv.nodup
    rw [hpl, nodup_cons] at this
    exact this.1
  apply (hinv.mem_iff t).mp
  rw [hpl]
  exact mem_cons_self t _

/-! ### Steps -/

theorem MigrationInv.migrate
    (hreal : p.realtime = true) (hrun : p.running = true) (hhome : Home n p)
    (honl : OnlyAt c { st.setTask t p with transit := t :: st.transit } st')
    (hh : (st.dom c).held = t ::ₘ (st'.dom c).held) : MigrationInv st' := by
  obtain ⟨hpla, hfr, ho, -⟩ := hinv.slot hslot
  have hqu : (st'.dom c).held = (st.dom c).domain.queued := by
    rw [held_of_scheduled hslot, cons_inj_right] at hh
    exact hh.symm
  refine hinv.move (t :: st.transit) honl (.inr hpla) hfr ho
    (.inr ⟨?_, hreal, hrun⟩) ?_ (fun _ => hhome)
  · rw [hqu, elsewhere_cons, add_cons]
  intro u hu
  rw [hqu] at hu
  refine .inr ⟨?_, mem_held.mpr (.inr hu)⟩
  rintro rfl
  exact hfr (mem_add.mpr (.inl hu))

theorem MigrationInv.block
    (hrun : p.running = false) (hhome : Home n p) (honl : OnlyAt c (st.setTask t p) st')
    (hh : (st.dom c).held = t ::ₘ (st'.dom c).held) : MigrationInv st' := by
  obtain ⟨hpla, hfr, ho, -⟩ := hinv.slot hslot
  have hqu : (st'.dom c).held = (st.dom c).domain.queued := by
    rw [held_of_scheduled hslot, cons_inj_right] at hh
    exact hh.symm
  refine hinv.move st.transit honl (.inr hpla) hfr ho
    (.inl ⟨?_, fun _ => hrun⟩) ?_ (fun _ => hhome)
  · rw [hqu]
  intro u hu
  rw [hqu] at hu
  refine .inr ⟨?_, mem_held.mpr (.inr hu)⟩
  rintro rfl
  exact hfr (mem_add.mpr (.inl hu))

end

section

variable (hinv : MigrationInv st) (ht : t ∉ st.places) (hreal : p.realtime = true)
  (hrun : p.running = true) (hhome : Home n p)

include hinv ht hreal hrun hhome

theorem MigrationInv.enter (hc : p.params.cpu.toNat = c.val)
    (honl : OnlyAt c (st.setTask t p) st') (hh : (st'.dom c).held = t ::ₘ (st.dom c).held) :
    MigrationInv st' := by
  have hn : ∀ c', t ∉ (st.dom c').held := fun c' h => ht (mem_places.mpr (.inr ⟨c', h⟩))
  refine hinv.move st.transit honl (.inl rfl) ht (fun c' _ => hn c')
    (.inr ⟨?_, hreal, hrun⟩) ?_ (fun _ => hhome)
  · rw [hh, cons_add, places_eq c]
  intro u hu
  rw [hh, mem_cons] at hu
  rcases hu with rfl | hu
  · exact .inl ⟨rfl, hc⟩
  refine .inr ⟨?_, hu⟩
  rintro rfl
  exact hn c hu

theorem MigrationInv.putBack
    (h : (st.setTask t p).putBack now c t = some st') : MigrationInv st' := by
  rcases putBack_cases h with ⟨hlo, hrq⟩ | ⟨-, rfl⟩
  · obtain ⟨honl, hsch, hqu⟩ := requeue_spec hrq
    rw [isLocal, setTask_task_self] at hlo
    refine hinv.enter ht hreal hrun hhome (beq_iff_eq.mp hlo) honl ?_
    rw [held, hsch, hqu, add_cons]
    rfl
  have hn : ∀ c', t ∉ (st.dom c').held := fun c' h =>
    ht (mem_places.mpr (.inr ⟨c', h⟩))
  refine hinv.move (t :: st.transit) (OnlyAt.refl c _) (.inl rfl) ht (fun c' _ => hn c')
    (.inr ⟨?_, hreal, hrun⟩) ?_ (fun _ => hhome)
  · rw [elsewhere_cons, add_cons, places_eq c]
    rfl
  intro u hu
  refine .inr ⟨?_, hu⟩
  rintro rfl
  exact hn c hu

end

theorem setTask_setTask (t : TaskId) (p q : SlicedTask) (st : SemiState n) :
    (st.setTask t p).setTask t q = st.setTask t q := by
  simp [SemiState.setTask]

theorem realtime_of_constants {q : SlicedTask} (h : p.constants = q.constants) :
    p.realtime = q.realtime := congrArg (fun k => k.2.2.2.1) h

theorem running_of_constants {q : SlicedTask} (h : p.constants = q.constants) :
    p.running = q.running := congrArg (fun k => k.2.2.2.2.1) h

theorem Completed.constants (h : Completed pl st t p) : p.constants = (st.task t).constants := by
  unfold Completed at h
  split at h
  · exact constants_completion h
  rw [h]

theorem Completed.home (h : Completed pl st t p) (hhome : Home n (st.task t)) : Home n p := by
  unfold Completed at h
  split at h
  · exact hhome.completion h
  rw [h]
  exact hhome

theorem MigrationInv.schedule (hinv : MigrationInv st) (h : Scheduled pl c st st') :
    MigrationInv st' := by
  cases h with
  | idle _ only held => exact hinv.same_held only held
  | blocked t slot running _ _ =>
    obtain ⟨-, -, -, -, hrun⟩ := hinv.slot slot
    rw [hrun] at running
    cases running
  | kept t p slot running completed cpu only held =>
    obtain ⟨-, -, -, hreal, -⟩ := hinv.slot slot
    have hco := completed.constants
    have hh : t ∈ (st.dom c).held := mem_held.mpr (.inl slot)
    have hset : MigrationInv (st.setTask t p) := by
      apply hinv.setTask (realtime_of_constants hco) (running_of_constants hco)
      · intro c' hc'
        rw [hinv.held_unique hh hc']
        exact cpu
      exact fun _ => completed.home (hinv.home t hreal)
    exact hset.same_held only held
  | migrated t p slot running completed _ only held =>
    obtain ⟨-, -, -, hreal, -⟩ := hinv.slot slot
    have hco := completed.constants
    exact hinv.migrate slot ((realtime_of_constants hco).trans hreal)
      ((running_of_constants hco).trans running) (completed.home (hinv.home t hreal))
      only held

theorem MigrationInv.not_mem_places (hinv : MigrationInv st)
    (hrun : (st.task t).realtime = true → (st.task t).running = false) : t ∉ st.places := by
  intro ht
  obtain ⟨hreal, hrn⟩ := (hinv.mem_iff t).mp ht
  rw [hrun hreal] at hrn
  cases hrn

theorem block_spec {resched : LtTime} (hinv : MigrationInv st)
    (h : st.exec pl (.block c now resched) = some st') :
    ∃ t p, (st.dom c).scheduled = some t ∧ p.running = false ∧ Home n p ∧
      OnlyAt c (st.setTask t p) st' ∧ (st.dom c).held = t ::ₘ (st'.dom c).held := by
  obtain ⟨t, slot, h⟩ := bind_eq_some_iff.mp h
  obtain ⟨st1, h1, hsch⟩ := bind_eq_some_iff.mp h
  obtain ⟨-, hfre, ho, hreal, -⟩ := hinv.slot slot
  have hnot : st.isQueued t = false := by
    rw [Bool.eq_false_iff]
    intro hq
    obtain ⟨c', hc'⟩ := isQueued_iff.mp hq
    by_cases hc : c' = c
    · subst hc
      exact hfre (mem_add.mpr (.inl hc'))
    exact ho c' hc (mem_held.mpr (.inr hc'))
  let p := ((st.task t).modify (RtTask.setRunning false)).suspend now
  have hblo : st1 = st.setTask t p := by
    unfold taskBlock at h1
    simp only [setTask_task_self, setTask_setTask] at h1
    rw [if_neg (by simp [SlicedTask.suspend, SlicedTask.modify, RtTask.setRunning, hreal])] at h1
    have hnotq' : (st.setTask t p).isQueued t = false := hnot
    rw [hnotq'] at h1
    exact (some.inj h1).symm
  subst hblo
  have hrun : ((st.setTask t p).task t).running = false := by
    rw [setTask_task_self]
    rfl
  have hhome : Home n p := by
    obtain ⟨honl, ⟨hsli, hbud, henf⟩, hind⟩ := hinv.home t hreal
    exact ⟨honl, ⟨hsli, hbud, henf⟩, hind⟩
  have hslot : ∀ {u}, ((st.setTask t p).dom c).scheduled = some u → u = t := fun hu =>
    some.inj (hu.symm.trans slot)
  cases schedule_spec hsch with
  | idle slot' _ _ => exact absurd (slot.symm.trans slot') (some_ne_none t)
  | blocked u slot' _ only held =>
    obtain rfl := hslot slot'
    exact ⟨u, p, slot, rfl, hhome, only, held⟩
  | kept u _ slot' running _ _ _ _ =>
    obtain rfl := hslot slot'
    cases hrun.symm.trans running
  | migrated u _ slot' running _ _ _ _ =>
    obtain rfl := hslot slot'
    cases hrun.symm.trans running

theorem cpu_of_domainOfTask (h : st.domainOfTask t = some c) :
    (st.task t).params.cpu.toNat = c.val := by
  unfold domainOfTask at h
  split at h
  · cases h
    rfl
  cases h

theorem MigrationInv.requeueRemote (hinv : MigrationInv st) (ht : t ∈ st.transit)
    (h : st.requeueRemote now t = some st') : MigrationInv st' := by
  obtain ⟨c, hc, h⟩ := bind_eq_some_iff.mp h
  have hcpu := cpu_of_domainOfTask hc
  obtain ⟨honl, hsch, hqu⟩ := requeue_spec h
  have hpl : st.places = t ::ₘ (↑(st.transit.erase t) + ∑ c, (st.dom c).held) := by
    rw [places, ← cons_add, cons_coe]
    congr 1
    exact coe_eq_coe.mpr (List.perm_cons_erase ht)
  have hfr : t ∉ (↑(st.transit.erase t) : Multiset TaskId) + ∑ c, (st.dom c).held := by
    have := hinv.nodup
    rw [hpl, nodup_cons] at this
    exact this.1
  have hn : ∀ c', t ∉ (st.dom c').held := fun c' h => hfr
    (mem_add.mpr (.inr (mem_sum.mpr ⟨c', Finset.mem_univ c', h⟩)))
  obtain ⟨hreal, hrun⟩ : (st.task t).realtime = true ∧ (st.task t).running = true := by
    apply (hinv.mem_iff t).mp
    rw [hpl]
    exact mem_cons_self t _
  have hh : (st'.dom c).held = t ::ₘ (st.dom c).held := by
    rw [held, hsch, hqu, add_cons]
    rfl
  refine hinv.move (c := c) (p := st.task t) (st.transit.erase t) ?_ (.inr hpl) hfr
    (fun c' _ => hn c') (.inr ⟨?_, hreal, hrun⟩) ?_ (fun _ => hinv.home t hreal)
  · rw [setTask_self]
    exact honl
  · rw [hh, cons_add]
    congr 1
    exact (places_eq c { st with transit := st.transit.erase t }).symm
  intro u hu
  rw [hh, mem_cons] at hu
  rcases hu with rfl | hu
  · exact .inl ⟨rfl, hcpu⟩
  refine .inr ⟨?_, hu⟩
  rintro rfl
  exact hn c hu

theorem wakeUp_spec (ht : t ∉ st.places) (h : st.exec pl (.taskWakeUp t now requeued) = some st') :
    ∃ c p, ((st.task t).modify (RtTask.setRunning true)).resume pl false now = some p ∧
      (st.setTask t p).putBack requeued c t = some st' := by
  obtain ⟨c, -, h⟩ := bind_eq_some_iff.mp h
  split at h
  · cases h
  obtain ⟨p, hp, h⟩ := bind_eq_some_iff.mp h
  rw [setTask_task_self] at hp
  rw [setTask_setTask] at h
  have hslot : ((st.setTask t p).dom c).scheduled ≠ some t := fun hs =>
    ht (mem_places.mpr (.inr ⟨c, mem_held.mpr (.inl hs)⟩))
  rw [if_pos hslot] at h
  exact ⟨c, p, hp, h⟩

theorem MigrationInv.wakeUpStep (hinv : MigrationInv st) (hreal : (st.task t).realtime = true)
    (hblo : (st.task t).running = false)
    (h : st.exec pl (.taskWakeUp t now requeued) = some st') : MigrationInv st' := by
  have ht := hinv.not_mem_places (fun _ => hblo)
  obtain ⟨c, p, hp, h⟩ := wakeUp_spec ht h
  have hco := constants_resume hp
  have hhome : Home n ((st.task t).modify (RtTask.setRunning true)) := by
    obtain ⟨honl, ⟨hsli, hbud, henf⟩, hind⟩ := hinv.home t hreal
    exact ⟨honl, ⟨hsli, hbud, henf⟩, hind⟩
  exact hinv.putBack ht ((realtime_of_constants hco).trans hreal)
    (running_of_constants hco) (hhome.resume hp) h

theorem home_admitted {params : TaskParams} {slices : List Slice} (hc : params.cpu.toNat < n)
    (hck : (admitted params slices).checkParams pl
      (fun cpu => decide (cpu.toNat < n)) = true) : Home n (admitted params slices) := by
  have hpa : ∀ hsl : (admitted params slices).isSlicedTask = true,
      (∀ s ∈ slices, s.cpu.toNat < n) ∧ (∀ s ∈ slices, MIN_SLICE_SIZE ≤ s.budget) ∧
        params.budgetPolicy = .preciseEnforcement := by
    intro hsl
    unfold checkParams at hck
    rw [hsl] at hck
    simp only [Bool.not_true, Bool.false_or, Bool.and_eq_true, List.all_eq_true, decide_eq_true_eq,
      Bool.not_eq_true', decide_eq_false_iff_not, beq_iff_eq, BitVec.not_lt] at hck
    obtain ⟨⟨⟨⟨_, hbud⟩, _⟩, honl⟩, hpol⟩ := hck
    exact ⟨honl, hbud, hpol⟩
  have hsl : ∀ s ∈ slices, (admitted params slices).isSlicedTask = true := by
    intro s hs
    rw [isSlicedTask, bne_iff_ne]
    exact ne_of_gt (List.length_pos_of_mem hs)
  refine ⟨hc, ⟨fun s hs => ?_, fun s hs => ?_, fun h => (hpa h).2.2⟩, fun h => ?_⟩
  · exact (hpa (hsl s hs)).1 s hs
  · exact (hpa (hsl s hs)).2.1 s hs
  rw [isSlicedTask, bne_iff_ne] at h
  exact Nat.pos_of_ne_zero h

theorem MigrationInv.taskNewStep {params : TaskParams} {slices : List Slice} {running : Bool}
    (hinv : MigrationInv st) (hl : st.Legal pl (.taskNew t params slices running now requeued))
    (h : st.exec pl (.taskNew t params slices running now requeued) = some st') :
    MigrationInv st' := by
  obtain ⟨hfre, -, -, hcpu, hck⟩ := hl
  have ht : t ∉ st.places := hinv.not_mem_places (fun hreal => by
    rw [hfre] at hreal
    cases hreal)
  obtain ⟨c, hc, h⟩ := bind_eq_some_iff.mp h
  dsimp only at h
  rw [setTask_task_self, setTask_setTask] at h
  have hco := constants_newJob now (admitted params slices)
  have hreal := realtime_of_constants hco
  have hrun := running_of_constants hco
  have hhome := (home_admitted hcpu hck).newJob now
  have hhe : ((admitted params slices).newJob now).params.cpu.toNat = c.val := by
    have hdo := cpu_of_domainOfTask hc
    rw [setTask_task_self] at hdo
    have hs : ((admitted params slices).newJob now).params.cpu = params.cpu := by
      unfold newJob
      dsimp only
      split <;> rfl
    rw [hs]
    exact hdo
  split at h
  · split at h
    · cases h
    rename_i hslot
    cases h
    refine hinv.enter ht hreal hrun hhome hhe (onlyAt_setCpu c _ _) ?_
    have hn : (st.dom c).scheduled = none := not_isSome_iff_eq_none.mp hslot
    rw [setCpu_dom, held, held, hn]
    exact congrArg (t ::ₘ ·) (zero_add _).symm
  obtain ⟨honl, hsch, hqu⟩ := requeue_spec h
  refine hinv.enter ht hreal hrun hhome hhe honl ?_
  rw [held, hsch, hqu, add_cons]
  rfl

theorem MigrationInv.setTask_same (hinv : MigrationInv st)
    (hco : p.constants = (st.task t).constants) (hcp : p.params.cpu = (st.task t).params.cpu)
    (hind : p.semi.slice = (st.task t).semi.slice) : MigrationInv (st.setTask t p) := by
  have hsli : p.slices = (st.task t).slices := congrArg Prod.fst hco
  apply hinv.setTask (realtime_of_constants hco) (running_of_constants hco)
  · intro c hc
    rw [hcp]
    exact hinv.partition c t hc
  intro hreal
  rw [realtime_of_constants hco] at hreal
  obtain ⟨honl, hche, hidx⟩ := hinv.home t hreal
  refine ⟨hcp ▸ honl, hche.of_constants hco, ?_⟩
  rw [isSlicedTask, hsli, hind]
  exact hidx

theorem MigrationInv.step {op : SemiOp n} (hinv : MigrationInv st) (h : SemiStep pl st op st') :
    MigrationInv st' := by
  obtain ⟨hl, hx⟩ := h
  cases op with
  | schedule c prev now => exact hinv.schedule (schedule_spec hx)
  | block c now resched =>
    obtain ⟨t, p, slot, hrun, hhome, only, held⟩ := block_spec hinv hx
    exact hinv.block slot hrun hhome only held
  | requeueRemote t now => exact hinv.requeueRemote hl hx
  | releaseTimer c i =>
    obtain ⟨edf, hed, rfl⟩ := map_eq_some_iff.mp hx
    refine hinv.same_held (onlyAt_setDomain c edf st) ?_
    rw [setDomain_dom, held, RtDomain.queued_onReleaseTimer hed]
    rfl
  | releaseJobs c i =>
    obtain ⟨edf, hed, rfl⟩ := map_eq_some_iff.mp hx
    obtain ⟨honl, hsch, hqu⟩ := checkResched_spec c (st.setDomain c edf)
    refine hinv.same_held ((onlyAt_setDomain c edf st).trans honl) ?_
    rw [held, hsch, hqu, setDomain_dom, RtDomain.queued_mergeFired hed]
    rfl
  | taskWakeUp t now requeued => exact hinv.wakeUpStep hl.1 hl.2 hx
  | taskNew t params slices running now requeued => exact hinv.taskNewStep hl hx
  | releaseAt t start =>
    obtain ⟨p, hp, rfl⟩ := map_eq_some_iff.mp hx
    have hco := constants_releaseAt hp
    have ht := hinv.not_mem_places (fun _ => hl.2)
    apply hinv.setTask (realtime_of_constants hco) (running_of_constants hco)
    · exact fun c hc => absurd (mem_places.mpr (.inr ⟨c, hc⟩)) ht
    exact fun _ => (hinv.home t hl.1).releaseAt hp
  | execute c delta =>
    obtain ⟨t, -, rfl⟩ := map_eq_some_iff.mp hx
    exact hinv.setTask_same rfl rfl rfl
  | completeJob c =>
    obtain ⟨t, -, rfl⟩ := map_eq_some_iff.mp hx
    exact hinv.setTask_same rfl rfl rfl

end

theorem migrationInv_init {task : TaskId → SlicedTask} (tickPeriod : Nat)
    (hn : ∀ t, (task t).realtime = false) :
    MigrationInv (init task tickPeriod : SemiState n) where
  nodup := by simp [places, init, held, Heap.cached, RtDomain.queued, RtDomain.init,
    RtDomain.waiting]
  mem_iff t := by simp [places, init, held, Heap.cached, RtDomain.queued,
    RtDomain.init, RtDomain.waiting, hn]
  partition c t ht := by simp [init, held, Heap.cached, RtDomain.queued,
    RtDomain.init, RtDomain.waiting] at ht
  home t ht := by
    rw [show (init task tickPeriod : SemiState n).task t = task t from rfl, hn] at ht
    cases ht

theorem migrationInv_of_run {pl : Plugin} {task : TaskId → SlicedTask} {tickPeriod : Nat}
    (hn : ∀ t, (task t).realtime = false) {ops : List (SemiOp n)} {st : SemiState n}
    (hrun : Run (SemiStep pl) (init task tickPeriod) ops st) : MigrationInv st :=
  hrun.invariant (fun _ _ _ hinv hs => hinv.step hs) (migrationInv_init tickPeriod hn)

end SemiState

open SemiState

/-- Along every interleaving, each runnable real-time task is in exactly one slot, ready
    queue, release heap or transit, a blocked one is in none, and the queues of a CPU hold
    only tasks of its partition. -/
theorem semi_no_task_lost {n : Nat} {pl : Plugin} {task : TaskId → SlicedTask}
    {tickPeriod : Nat} (hnone : ∀ t, (task t).realtime = false) {ops : List (SemiOp n)}
    {st : SemiState n} (hrun : Run (SemiStep pl) (init task tickPeriod) ops st) (t : TaskId)
    (hreal : (st.task t).realtime = true) :
    ((st.task t).running = true → st.places.count t = 1) ∧
      ((st.task t).running = false → st.places.count t = 0) ∧
      ∀ c, t ∈ (st.dom c).domain.queued → (st.task t).params.cpu.toNat = c.val := by
  have hinv := migrationInv_of_run hnone hrun
  refine ⟨fun hrunning => ?_, fun hblocked => ?_, fun c hc => ?_⟩
  · exact count_eq_one_of_mem hinv.nodup ((hinv.mem_iff t).mpr ⟨hreal, hrunning⟩)
  · exact count_eq_zero_of_notMem (hinv.not_mem_places (fun _ => hblocked))
  · exact hinv.partition c t (mem_held.mpr (.inr hc))

def noSlicedTasks : TaskId → SlicedTask := fun _ =>
  { twoSlices with realtime := false }

/-- The first slice of a job is over, and the task is on its way to the second. -/
theorem semi_no_task_lost_between_slices :
    ∃ st : SemiState 2, Run (SemiStep .cd) (init noSlicedTasks 1000000)
      [.taskNew 1 twoSlices.params twoSlices.slices false 0 0, .schedule 0 0 0,
        .execute 0 60000, .schedule 0 1 60000] st ∧
      st.transit = [1] ∧ st.places.count 1 = 1 := by
  obtain ⟨st, hrun, htransit, hreal, hrunning⟩ : ∃ st : SemiState 2,
      Run (SemiStep .cd) (init noSlicedTasks 1000000)
        [.taskNew 1 twoSlices.params twoSlices.slices false 0 0, .schedule 0 0 0,
          .execute 0 60000, .schedule 0 1 60000] st ∧
        st.transit = [1] ∧ (st.task 1).realtime = true ∧ (st.task 1).running = true :=
    ⟨_, .cons ⟨⟨rfl, by decide, by decide, by decide, by decide⟩, rfl⟩
      (.cons ⟨trivial, rfl⟩ (.cons ⟨fun t ht => by cases ht; decide, rfl⟩
        (.cons ⟨trivial, rfl⟩ .nil))), rfl, rfl, rfl⟩
  exact ⟨st, hrun, htransit, (semi_no_task_lost (fun _ => rfl) hrun 1 hreal).1 hrunning⟩

end Litmus.SemiPart
