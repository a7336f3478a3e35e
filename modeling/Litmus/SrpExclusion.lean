import Litmus.SrpCeilings

/-!
# The stack resource policy excludes

A task that executes has a higher priority than the ceiling of every semaphore held by
another task.  A semaphore that it has opened has no lower ceiling than its priority, so
that it is not among them.
-/

namespace Litmus.Srp

open BinomialForest PriorityList Runs Function List

namespace State

variable {tasks : Tasks} {cpu : Nat} {st st' : State} {t : TaskId} {s : SemId}

/-- A task beats a ceiling with its full period only if its stored priority beats it. -/
theorem higher_of_exceeds {c : SrpPriority} (h : (tasks.period t).toNat < c.period.toNat ∨
      (tasks.period t).toNat = c.period.toNat ∧ t < c.pid) :
    srpHigherPrio (tasks.prio t) c = true := by
  have hp : (tasks.period t).toNat ≠ 0 := by
    intro h0
    exact tasks.period_ne_zero t (BitVec.toNat_inj.mp h0)
  have hlt := c.period.isLt
  have hcut : (tasks.prio t).period.toNat = (tasks.period t).toNat := by
    have hle : (tasks.period t).toNat < 2 ^ 32 := by
      rcases h with h | ⟨h, -⟩ <;> omega
    simp only [Tasks.prio, BitVec.toNat_setWidth]
    exact Nat.mod_eq_of_lt hle
  rw [srpHigherPrio_iff, hcut]
  exact ⟨hp, .inr h⟩

/-! ### The invariant -/

structure Inv (tasks : Tasks) (st : State) : Prop where
  /-- the ceiling of a semaphore is at least the priority of each of its users -/
  user : ∀ {t s}, st.opened t s = true → (st.sem s).cpu = some (tasks.partition t) ∧
    ¬srpHigherPrio (tasks.prio t) (st.sem s).ceiling = true
  held : ∀ s, s ∈ st.ceiling ↔ (st.sem s).owner ≠ none
  nodup : st.ceiling.Nodup
  quiet : st.started = false → st.ceiling = []
  sorted : Descending st.higherCeiling st.ceiling
  /-- the owner of a semaphore beats the later ceilings of other tasks -/
  stacked : st.ceiling.Pairwise fun x y => ∀ t, (st.sem x).owner = some t →
    (st.sem y).owner ≠ some t → srpHigherPrio (tasks.prio t) (st.sem y).ceiling = true
  /-- so does a task that executes -/
  running : ∀ {t}, st.Executes t → ∀ y ∈ st.ceiling, (st.sem y).owner ≠ some t →
    srpHigherPrio (tasks.prio t) (st.sem y).ceiling = true

theorem Inv.listed (hI : Inv tasks st) : Listed st := ⟨hI.held, hI.nodup⟩

theorem Inv.free (hI : Inv tasks st) (hr : st.Executes t) (hope : st.opened t s = true)
    (hn : (st.sem s).owner ≠ some t) : (st.sem s).owner = none := by
  by_contra how
  have hm : s ∈ st.ceiling := (hI.held s).mpr how
  exact (hI.user hope).2 (hI.running hr s hm hn)

/-- A task that exceeds the ceiling beats the ceilings of the semaphores of other tasks. -/
theorem Inv.exceeds (hI : Inv tasks st) (hex : st.srpExceedsCeiling tasks t = true) :
    ∀ y ∈ st.ceiling, (st.sem y).owner ≠ some t →
      srpHigherPrio (tasks.prio t) (st.sem y).ceiling = true := by
  have hso := hI.sorted
  have hst := hI.stacked
  unfold srpExceedsCeiling at hex
  cases hcei : st.ceiling with
  | nil => simp
  | cons top rest =>
    rw [hcei] at hso hst hex
    obtain ⟨hlow, -⟩ := pairwise_cons.mp hso
    obtain ⟨hbea, -⟩ := pairwise_cons.mp hst
    simp only [Bool.or_eq_true, Bool.and_eq_true, decide_eq_true_eq] at hex
    intro y hy ho
    rcases hex with hpri | how
    · -- the first ceiling is the highest
      have hto := higher_of_exceeds hpri
      rcases mem_cons.mp hy with rfl | hy
      · exact hto
      by_contra hn
      exact not_higher_trans hn (hlow y hy) hto
    · -- the task owns the first semaphore
      rcases mem_cons.mp hy with rfl | hy
      · exact absurd how ho
      exact hbea y hy t how ho

/-! ### Steps -/

theorem Inv.init (pid : SemId → Nat) : Inv tasks (State.init pid) where
  user h := by cases h
  held s := by simp [State.init]
  nodup := nodup_nil
  quiet _ := rfl
  sorted := List.Pairwise.nil
  stacked := List.Pairwise.nil
  running := by
    intro t _ y hy
    cases hy

section

variable (hI : Inv tasks st)
include hI

theorem Inv.switchTo (next : Option TaskId) :
    Inv tasks (st.switchTo next) where
  user := hI.user
  held := hI.held
  nodup := hI.nodup
  quiet := hI.quiet
  sorted := hI.sorted
  stacked := hI.stacked
  running := by
    rintro t ⟨-, hcle⟩
    cases hcle

theorem Inv.srpCeilingBlock (hcur : st.current = some t) :
    Inv tasks (st.srpCeilingBlock tasks t) := by
  unfold State.srpCeilingBlock
  dsimp only
  split
  · rename_i hex
    exact
      { user := hI.user
        held := hI.held
        nodup := hI.nodup
        quiet := hI.quiet
        sorted := hI.sorted
        stacked := hI.stacked
        running := by
          rintro u ⟨hu, -⟩
          cases hcur.symm.trans hu
          exact hI.exceeds hex }
  exact
    { user := hI.user
      held := hI.held
      nodup := hI.nodup
      quiet := hI.quiet
      sorted := hI.sorted
      stacked := hI.stacked
      running := by
        rintro u ⟨hu, -⟩
        cases hu }

theorem Inv.openSrpSemaphore (hsd : st.started = false) :
    Inv tasks (st.openSrpSemaphore tasks t s) := by
  have hem := hI.quiet hsd
  by_cases hc : (st.sem s).cpu = none ∨ (st.sem s).cpu = some (tasks.partition t)
  · rw [openSrpSemaphore_eq hc]
    constructor
    · intro u r hop
      simp only [Bool.or_eq_true, Bool.and_eq_true, decide_eq_true_eq] at hop
      by_cases hr : r = s
      · subst hr
        simp only [update_self]
        rcases hop with hop | ⟨rfl, -⟩
        · obtain ⟨hcp, hcei⟩ := hI.user hop
          have hs : tasks.partition t = tasks.partition u := by
            rcases hc with hn | hsom
            · cases hn.symm.trans hcp
            exact Option.some.inj (hsom.symm.trans hcp)
          exact ⟨congrArg some hs, not_higher_raise _ hcei⟩
        exact ⟨rfl, not_higher_raise_self _ _⟩
      simp only [update_of_ne hr]
      exact hI.user (hop.resolve_right fun h => hr h.2)
    · exact openSrpSemaphore_eq hc ▸ hI.listed.openSrpSemaphore.held
    · exact hI.nodup
    · exact hI.quiet
    · rw [hem]
      exact List.Pairwise.nil
    · rw [hem]
      exact List.Pairwise.nil
    · intro u _ y hy
      rw [hem] at hy
      cases hy
  rw [openSrpSemaphore_refused hc]
  exact hI

/-- The semaphore goes in front of the first lower ceiling.  What stands before it is held
    by the same task. -/
theorem Inv.doSrpDown (hru : st.Executes t) (hope : st.opened t s = true)
    (hsd : st.started = true) (hfr : (st.sem s).owner = none) : Inv tasks (st.doSrpDown t s) := by
  have hn : s ∉ st.ceiling := by
    rw [hI.held]
    simp [hfr]
  have hne : ∀ {r}, r ∈ st.ceiling → r ≠ s := by
    rintro r hr rfl
    exact hn hr
  have hli : Listed (st.doSrpDown t s) := hI.listed.doSrpDown
  have hso := sorted_doSrpDown (t := t) (s := s) hI.sorted
  obtain ⟨sem, heq, hs, hse, ho⟩ := doSrpDown_eq st t s
  rw [if_neg hn] at heq
  rw [heq] at hli hso ⊢
  constructor
  · intro u r hu
    obtain ⟨hc, hlow⟩ := hI.user hu
    simp only [hs]
    exact ⟨hc, hlow⟩
  · exact hli.held
  · exact hli.nodup
  · intro hno
    cases hsd.symm.trans hno
  · exact hso
  · obtain ⟨before, later, hsp, hins, hbe, -⟩ := insert_split st.higherCeiling s st.ceiling
    have hold : st.ceiling.Pairwise fun x y => ∀ u, (sem x).owner = some u →
        (sem y).owner ≠ some u → srpHigherPrio (tasks.prio u) (sem y).ceiling = true := by
      refine List.Pairwise.imp_of_mem ?_ hI.stacked
      intro x y hx hy hxy
      rw [ho x (hne hx), ho y (hne hy), (hs y).1]
      exact hxy
    rw [hsp] at hold
    obtain ⟨hbef, hlat, hcro⟩ := pairwise_append.mp hold
    have hin : ∀ {x}, x ∈ before ∨ x ∈ later → x ∈ st.ceiling := by
      intro x hx
      rw [hsp]
      exact mem_append.mpr hx
    rw [hins]
    refine pairwise_append.mpr ⟨hbef, pairwise_cons.mpr ⟨?_, hlat⟩, ?_⟩
    · intro y hy u hu hot
      rw [hse] at hu
      cases hu
      rw [ho y (hne (hin (.inr hy)))] at hot
      rw [(hs y).1]
      exact hI.running hru y (hin (.inr hy)) hot
    intro x hx y hy
    rcases mem_cons.mp hy with rfl | hy
    · intro u hu hot
      rw [hse] at hot
      rw [ho x (hne (hin (.inl hx)))] at hu
      -- the current task would beat the ceiling of `x`, and so that of its own semaphore
      have hxt : (st.sem x).owner ≠ some t := by
        rw [hu]
        intro heq
        exact hot heq.symm
      have hbea := hI.running hru x (hin (.inl hx)) hxt
      exact absurd hbea (not_higher_trans (hI.user hope).2 (hbe x hx))
    exact hcro x hx y hy
  · intro u hu y hy hot
    have hut : u = t := Option.some.inj (hu.1.symm.trans hru.1)
    subst hut
    rcases mem_insert.mp hy with rfl | hy
    · exact absurd hse hot
    rw [ho y (hne hy)] at hot
    rw [(hs y).1]
    exact hI.running hru y hy hot

theorem Inv.doSrpUp : Inv tasks (st.doSrpUp tasks cpu s) := by
  obtain ⟨hs, hse, ho⟩ := doSrpUp_spec st tasks cpu s
  have hsu : (st.doSrpUp tasks cpu s).ceiling.Sublist st.ceiling := erase_sublist
  constructor
  · intro u r hu
    simp only [hs]
    exact hI.user hu
  · exact hI.listed.doSrpUp.held
  · exact hI.nodup.sublist hsu
  · intro hsd
    have hem := hI.quiet hsd
    rw [hem] at hsu
    exact sublist_nil.mp hsu
  · exact sorted_doSrpUp hI.sorted
  · refine List.Pairwise.imp_of_mem ?_ (hI.stacked.sublist hsu)
    intro x y hx hy hxy
    rw [ho x (hI.listed.mem_doSrpUp.mp hx).1, ho y (hI.listed.mem_doSrpUp.mp hy).1, (hs y).1]
    exact hxy
  · intro u hu y hy hot
    obtain ⟨hys, hy⟩ := hI.listed.mem_doSrpUp.mp hy
    rw [ho y hys] at hot
    rw [(hs y).1]
    exact hI.running hu y hy hot

theorem Inv.step {op : Op} (hs : Step tasks cpu st op st') : Inv tasks st' := by
  obtain ⟨hl, hx⟩ := hs
  cases op with
  | switchTo next =>
    cases hx
    exact hI.switchTo next
  | srpCeilingBlock =>
    obtain ⟨t, hcur, rfl⟩ := Option.map_eq_some_iff.mp hx
    exact hI.srpCeilingBlock hcur
  | openSrpSemaphore t s =>
    cases hx
    exact hI.openSrpSemaphore hl.1
  | srpDown s =>
    obtain ⟨t, -, hr, hop, hn⟩ := hl
    obtain ⟨u, hu, rfl⟩ := Option.map_eq_some_iff.mp hx
    cases hr.1.symm.trans hu
    have hsd : Inv tasks { st with started := true } :=
      { user := hI.user, held := hI.held, nodup := hI.nodup
        quiet := fun h => by cases h
        sorted := hI.sorted, stacked := hI.stacked, running := hI.running }
    dsimp only
    split
    · exact hsd.doSrpDown hr hop rfl (hI.free hr hop hn)
    exact hsd
  | srpUp s =>
    obtain ⟨t, -, rfl⟩ := Option.map_eq_some_iff.mp hx
    split
    · exact hI.doSrpUp
    exact hI

end

end State

/-- Whatever the preemptions and suspensions, a task that asks for a semaphore never finds it
    owned by another task. -/
theorem srp_down_finds_no_owner {tasks : Tasks} {cpu : Nat} {pid : SemId → Nat}
    {ops : List Op} {st : State} (hrun : Run (Step tasks cpu) (State.init pid) ops st)
    {s : SemId} (hdown : st.Legal tasks cpu (.srpDown s)) : (st.sem s).owner = none := by
  have hI : State.Inv tasks st :=
    hrun.invariant (fun _ _ _ hI hs => hI.step hs) (State.Inv.init pid)
  obtain ⟨t, -, hx, hopen, hnot⟩ := hdown
  exact hI.free hx hopen hnot

/-- Two tasks on CPU 0; task 1 has the shorter period. -/
def twoTasks : Tasks where
  period t := if t = 1 then 10 else 20
  partition _ := 0
  period_ne_zero t := by split <;> decide

/-- Task 1 is blocked while task 2 owns the semaphore, and then finds it free. -/
theorem srp_down_finds_no_owner_blocked :
    ∃ st, Run (Step twoTasks 0) (State.init fun _ => 0)
      [.switchTo (some 2), .srpCeilingBlock, .openSrpSemaphore 2 0,
        .switchTo (some 1), .srpCeilingBlock, .openSrpSemaphore 1 0,
        .switchTo (some 2), .srpCeilingBlock, .srpDown 0,
        .switchTo (some 1), .srpCeilingBlock, .switchTo (some 2), .srpCeilingBlock, .srpUp 0,
        .switchTo (some 1), .srpCeilingBlock] st ∧
      st.Legal twoTasks 0 (.srpDown 0) ∧ (st.sem 0).owner = none :=
  Run.exists_of_check (Q := fun st => st.Legal twoTasks 0 (.srpDown 0))
    (fun _ _ _ hl hx => ⟨of_decide_eq_true hl, hx⟩) (by decide +kernel)
    fun _ hrun hdown => ⟨hdown, srp_down_finds_no_owner hrun hdown⟩

end Litmus.Srp
