import Litmus.Srp

/-!
# The ceilings of the stack resource policy

Semaphores may be opened, taken and given back in any order.  The ceiling list always holds the
semaphores that are held.  It is sorted as long as no ceiling in it is raised, which
`open_srp_semaphore` does in place.  A ceiling is the priority of the first of the users if their
periods are below 2^32 ns.
-/

namespace Litmus.Srp

open BinomialForest PriorityList Runs Function

/-! ### Priorities -/

theorem srpHigherPrio_iff {a b : SrpPriority} :
    srpHigherPrio a b = true ↔ a.period.toNat ≠ 0 ∧ (b.period.toNat = 0 ∨
      a.period.toNat < b.period.toNat ∨ a.period.toNat = b.period.toNat ∧ a.pid < b.pid) := by
  have h0 : ∀ p : BitVec 32, p = 0 ↔ p.toNat = 0 := by
    intro p
    rw [← BitVec.toNat_inj]
    rfl
  have heq : a.period = b.period ↔ a.period.toNat = b.period.toNat := BitVec.toNat_inj.symm
  unfold srpHigherPrio
  split
  · rename_i h
    simp [(h0 _).mp h]
  rename_i h
  rw [h0] at h
  simp only [Bool.or_eq_true, Bool.and_eq_true, decide_eq_true_eq, h0, heq, BitVec.lt_def, or_assoc]
  exact ⟨fun hor => ⟨h, hor⟩, fun hand => hand.2⟩

theorem strictWeakOn_srpHigherPrio : StrictWeakOn srpHigherPrio Set.univ where
  asymm a _ b _ hab hba := by
    rw [srpHigherPrio_iff] at hab hba
    omega
  negTrans a _ b _ c _ hab hbc hac := by
    rw [srpHigherPrio_iff] at hab hbc hac
    omega

theorem srpHigherPrio_irrefl (a : SrpPriority) : ¬srpHigherPrio a a = true := fun h =>
  strictWeakOn_srpHigherPrio.asymm a trivial a trivial h h

theorem not_higher_trans {a b c : SrpPriority} (hab : ¬srpHigherPrio a b = true)
    (hbc : ¬srpHigherPrio b c = true) : ¬srpHigherPrio a c = true :=
  strictWeakOn_srpHigherPrio.negTrans a trivial b trivial c trivial hab hbc

namespace State

variable {tasks : Tasks} {cpu : Nat} {st st' : State} {t : TaskId} {r s : SemId}

theorem strictWeakOn_higherCeiling (st : State) : StrictWeakOn st.higherCeiling Set.univ :=
  strictWeakOn_srpHigherPrio.comap fun s => (st.sem s).ceiling

/-- The ceiling after a task with priority `p` has opened the semaphore. -/
def raise (p c : SrpPriority) : SrpPriority := if srpHigherPrio p c then p else c

theorem not_higher_raise_self (p c : SrpPriority) : ¬srpHigherPrio p (raise p c) = true := by
  unfold raise
  split
  · exact srpHigherPrio_irrefl p
  assumption

theorem not_higher_raise {q c : SrpPriority} (p : SrpPriority) (h : ¬srpHigherPrio q c = true) :
    ¬srpHigherPrio q (raise p c) = true := by
  unfold raise
  split
  · rename_i hpc
    exact not_higher_trans h (strictWeakOn_srpHigherPrio.asymm p trivial c trivial hpc)
  exact h

theorem openSrpSemaphore_eq
    (hc : (st.sem s).cpu = none ∨ (st.sem s).cpu = some (tasks.partition t)) :
    st.openSrpSemaphore tasks t s =
      { st with
        sem := update st.sem s
          { ceiling := raise (tasks.prio t) (st.sem s).ceiling
            owner := (st.sem s).owner
            cpu := some (tasks.partition t) }
        opened := fun u r => st.opened u r || (u = t && r = s) } := by
  unfold State.openSrpSemaphore raise
  simp only [if_pos hc, setSem]
  split <;> rfl

/-! ### What a step changes -/

theorem openSrpSemaphore_refused
    (hc : ¬((st.sem s).cpu = none ∨ (st.sem s).cpu = some (tasks.partition t))) :
    st.openSrpSemaphore tasks t s = st := if_neg hc

theorem openSrpSemaphore_spec (st : State) (tasks : Tasks) (t : TaskId) (s : SemId) :
    (st.openSrpSemaphore tasks t s).ceiling = st.ceiling ∧
      (∀ r, ((st.openSrpSemaphore tasks t s).sem r).owner = (st.sem r).owner) ∧
      ∀ r, r ≠ s → (st.openSrpSemaphore tasks t s).sem r = st.sem r := by
  by_cases hc : (st.sem s).cpu = none ∨ (st.sem s).cpu = some (tasks.partition t)
  · rw [openSrpSemaphore_eq hc]
    refine ⟨rfl, fun r => ?_, fun r hr => update_of_ne hr _ _⟩
    by_cases hr : r = s
    · subst hr
      simp
    simp [update_of_ne hr]
  rw [openSrpSemaphore_refused hc]
  exact ⟨rfl, fun _ => rfl, fun _ _ => rfl⟩

theorem setOwner_spec (sem : SemId → SrpSemaphore) (s : SemId) (owner : Option TaskId) :
    (∀ r, (update sem s { sem s with owner := owner } r).ceiling = (sem r).ceiling ∧
        (update sem s { sem s with owner := owner } r).cpu = (sem r).cpu) ∧
      (update sem s { sem s with owner := owner } s).owner = owner ∧
      ∀ r, r ≠ s → (update sem s { sem s with owner := owner } r).owner = (sem r).owner := by
  refine ⟨fun r => ?_, by simp, fun r hr => by rw [update_of_ne hr]⟩
  by_cases hr : r = s
  · subst hr
    simp
  simp [update_of_ne hr]

theorem doSrpDown_eq (st : State) (t : TaskId) (s : SemId) :
    ∃ sem, st.doSrpDown t s = { st with
        sem := sem, ceiling := if s ∈ st.ceiling then st.ceiling
          else PriorityList.insert st.higherCeiling s st.ceiling } ∧
      (∀ r, (sem r).ceiling = (st.sem r).ceiling ∧ (sem r).cpu = (st.sem r).cpu) ∧
      (sem s).owner = some t ∧ ∀ r, r ≠ s → (sem r).owner = (st.sem r).owner := by
  refine ⟨_, ?_, setOwner_spec st.sem s (some t)⟩
  unfold State.doSrpDown srpAddPrio
  split <;> rfl

theorem doSrpUp_spec (st : State) (tasks : Tasks) (cpu : Nat) (s : SemId) :
    (∀ r, ((st.doSrpUp tasks cpu s).sem r).ceiling = (st.sem r).ceiling ∧
        ((st.doSrpUp tasks cpu s).sem r).cpu = (st.sem r).cpu) ∧
      ((st.doSrpUp tasks cpu s).sem s).owner = none ∧
      ∀ r, r ≠ s → ((st.doSrpUp tasks cpu s).sem r).owner = (st.sem r).owner :=
  setOwner_spec st.sem s none

/-! ### The list -/

/-- The list holds the semaphores that are held. -/
structure Listed (st : State) : Prop where
  held : ∀ s, s ∈ st.ceiling ↔ (st.sem s).owner ≠ none
  nodup : st.ceiling.Nodup

theorem Listed.openSrpSemaphore (h : Listed st) : Listed (st.openSrpSemaphore tasks t s) := by
  obtain ⟨hli, hown, -⟩ := openSrpSemaphore_spec st tasks t s
  refine ⟨fun r => ?_, hli ▸ h.nodup⟩
  rw [hli, hown]
  exact h.held r

theorem Listed.doSrpDown (h : Listed st) : Listed (st.doSrpDown t s) := by
  obtain ⟨sem, heq, -, hse, ho⟩ := doSrpDown_eq st t s
  rw [heq]
  constructor
  · intro r
    have hm : r ∈ (if s ∈ st.ceiling then st.ceiling
        else PriorityList.insert st.higherCeiling s st.ceiling) ↔ r = s ∨ r ∈ st.ceiling := by
      split
      · rename_i hs
        exact ⟨.inr, fun hr => hr.elim (fun heq => heq ▸ hs) id⟩
      exact mem_insert
    rw [hm]
    by_cases hr : r = s
    · subst hr
      simp [hse]
    simp only [ho r hr, ← h.held]
    exact ⟨fun hor => hor.resolve_left hr, .inr⟩
  split
  · exact h.nodup
  exact nodup_insert h.nodup ‹_›

theorem Listed.mem_doSrpUp (h : Listed st) :
    r ∈ (st.doSrpUp tasks cpu s).ceiling ↔ r ≠ s ∧ r ∈ st.ceiling := h.nodup.mem_erase_iff

theorem Listed.doSrpUp (h : Listed st) : Listed (st.doSrpUp tasks cpu s) := by
  obtain ⟨-, hse, ho⟩ := doSrpUp_spec st tasks cpu s
  refine ⟨fun r => ?_, h.nodup.sublist List.erase_sublist⟩
  rw [h.mem_doSrpUp]
  by_cases hr : r = s
  · subst hr
    simp [hse]
  rw [ho r hr, ← h.held]
  exact ⟨fun hand => hand.2, fun hm => ⟨hr, hm⟩⟩

theorem sorted_congr {l : List SemId} (h : ∀ r ∈ l, (st'.sem r).ceiling = (st.sem r).ceiling)
    (hso : Descending st.higherCeiling l) : Descending st'.higherCeiling l := by
  refine List.Pairwise.imp_of_mem ?_ hso
  intro x y hx hy hxy
  rwa [higherCeiling, h x hx, h y hy]

section

variable (h : Descending st.higherCeiling st.ceiling)
include h

theorem sorted_doSrpDown :
    Descending (st.doSrpDown t s).higherCeiling (st.doSrpDown t s).ceiling := by
  obtain ⟨sem, heq, hs, -, -⟩ := doSrpDown_eq st t s
  rw [heq]
  refine sorted_congr (fun r _ => (hs r).1) ?_
  split
  · exact h
  exact Descending.insert st.strictWeakOn_higherCeiling (fun _ _ => trivial) (Set.mem_univ s) h

theorem sorted_doSrpUp :
    Descending (st.doSrpUp tasks cpu s).higherCeiling (st.doSrpUp tasks cpu s).ceiling :=
  sorted_congr (fun r _ => ((doSrpUp_spec ..).1 r).1) (h.sublist List.erase_sublist)

theorem sorted_openSrpSemaphore
    (hlow : s ∈ st.ceiling → ¬srpHigherPrio (tasks.prio t) (st.sem s).ceiling = true) :
    Descending (st.openSrpSemaphore tasks t s).higherCeiling
      (st.openSrpSemaphore tasks t s).ceiling := by
  by_cases hc : (st.sem s).cpu = none ∨ (st.sem s).cpu = some (tasks.partition t)
  · rw [openSrpSemaphore_eq hc]
    refine sorted_congr (fun r hr => ?_) h
    by_cases hrs : r = s
    · subst hrs
      simp only [update_self]
      exact if_neg (hlow hr)
    simp [update_of_ne hrs]
  rwa [openSrpSemaphore_refused hc]

end

/-! ### The ceilings -/

/-- The ceiling of a semaphore is the priority of one of its users, and not below any other. -/
structure Bounded (tasks : Tasks) (st : State) : Prop where
  user : ∀ t s, st.opened t s = true → ¬srpHigherPrio (tasks.prio t) (st.sem s).ceiling = true
  source : ∀ s, (st.sem s).ceiling.period = 0 ∨
    ∃ t, st.opened t s = true ∧ (st.sem s).ceiling = tasks.prio t

theorem Bounded.congr (h : Bounded tasks st) (hop : st'.opened = st.opened)
    (hce : ∀ r, (st'.sem r).ceiling = (st.sem r).ceiling) : Bounded tasks st' := by
  constructor
  · intro t s ht
    rw [hce]
    exact h.user t s (hop ▸ ht)
  intro s
  rw [hce, hop]
  exact h.source s

theorem Bounded.openSrpSemaphore (h : Bounded tasks st) :
    Bounded tasks (st.openSrpSemaphore tasks t s) := by
  by_cases hc : (st.sem s).cpu = none ∨ (st.sem s).cpu = some (tasks.partition t)
  · rw [openSrpSemaphore_eq hc]
    constructor
    · intro u r hu
      simp only [Bool.or_eq_true, Bool.and_eq_true, decide_eq_true_eq] at hu
      by_cases hr : r = s
      · subst hr
        simp only [update_self]
        rcases hu with hu | ⟨rfl, -⟩
        · exact not_higher_raise _ (h.user u r hu)
        exact not_higher_raise_self _ _
      simp only [update_of_ne hr]
      exact h.user u r (hu.resolve_right fun hand => hr hand.2)
    intro r
    simp only [Bool.or_eq_true, Bool.and_eq_true, decide_eq_true_eq]
    by_cases hr : r = s
    · subst hr
      simp only [update_self, raise]
      split
      · exact .inr ⟨t, .inr ⟨rfl, trivial⟩, rfl⟩
      exact (h.source r).imp_right fun ⟨u, hu, heq⟩ => ⟨u, .inl hu, heq⟩
    simp only [update_of_ne hr]
    exact (h.source r).imp_right fun ⟨u, hu, heq⟩ => ⟨u, .inl hu, heq⟩
  rwa [openSrpSemaphore_refused hc]

/-- With a period below 2^32 the stored priority is that of the task. -/
theorem toNat_prio (h : (tasks.period t).toNat < 2 ^ 32) :
    (tasks.prio t).period.toNat = (tasks.period t).toNat ∧ (tasks.period t).toNat ≠ 0 := by
  refine ⟨?_, fun h0 => tasks.period_ne_zero t (BitVec.toNat_inj.mp h0)⟩
  exact Nat.mod_eq_of_lt h

theorem Bounded.first (h : Bounded tasks st)
    (hsh : ∀ t s, st.opened t s = true → (tasks.period t).toNat < 2 ^ 32)
    (ht : st.opened t s = true) : ∃ u, st.opened u s = true ∧ (st.sem s).ceiling.pid = u ∧
      (st.sem s).ceiling.period.toNat = (tasks.period u).toNat ∧
      ∀ v, st.opened v s = true → (tasks.period u).toNat < (tasks.period v).toNat ∨
        (tasks.period u).toNat = (tasks.period v).toNat ∧ u ≤ v := by
  have hbe : ∀ v, st.opened v s = true → ¬((st.sem s).ceiling.period.toNat = 0 ∨
        (tasks.period v).toNat < (st.sem s).ceiling.period.toNat ∨
        (tasks.period v).toNat = (st.sem s).ceiling.period.toNat ∧ v < (st.sem s).ceiling.pid) := by
    intro v hv hor
    obtain ⟨hcut, hpos⟩ := toNat_prio (hsh v s hv)
    refine h.user v s hv (srpHigherPrio_iff.mpr ?_)
    rw [hcut]
    exact ⟨hpos, hor⟩
  rcases h.source s with h0 | ⟨u, hu, heq⟩
  · exact absurd (.inl (congrArg BitVec.toNat h0)) (hbe t ht)
  have hpd := heq ▸ (toNat_prio (hsh u s hu)).1
  have hpi : (st.sem s).ceiling.pid = u := heq ▸ rfl
  refine ⟨u, hu, hpi, hpd, fun v hv => ?_⟩
  have hn := hbe v hv
  rw [hpd, hpi] at hn
  rcases Nat.lt_trichotomy (tasks.period u).toNat (tasks.period v).toNat with hlt | heq | hgt
  · exact .inl hlt
  · exact .inr ⟨heq, Nat.le_of_not_lt fun hlt => hn (.inr (.inr ⟨heq.symm, hlt⟩))⟩
  exact absurd (.inr (.inl hgt)) hn

end State

open State (init)

/-! ### Runs -/

open State

inductive CeilingOp where
  | openSrpSemaphore (t : TaskId) (s : SemId)
  | doSrpDown (t : TaskId) (s : SemId)
  | doSrpUp (s : SemId)

def CeilingStep (tasks : Tasks) (cpu : Nat) (st : State) (op : CeilingOp) (st' : State) : Prop :=
  match op with
  | .openSrpSemaphore t s => st' = st.openSrpSemaphore tasks t s
  | .doSrpDown t s => st' = st.doSrpDown t s
  | .doSrpUp s => st' = st.doSrpUp tasks cpu s

/-- A step that does not raise the ceiling of a semaphore that is held. -/
def SettledStep (tasks : Tasks) (cpu : Nat) (st : State) (op : CeilingOp) (st' : State) : Prop :=
  CeilingStep tasks cpu st op st' ∧ ∀ t s, op = .openSrpSemaphore t s → s ∈ st.ceiling →
    ¬srpHigherPrio (tasks.prio t) (st.sem s).ceiling = true

section

variable {tasks : Tasks} {cpu : Nat} {st st' : State} {op : CeilingOp}

theorem State.Listed.step (h : Listed st) (hs : CeilingStep tasks cpu st op st') : Listed st' := by
  cases op <;> cases hs
  · exact h.openSrpSemaphore
  · exact h.doSrpDown
  exact h.doSrpUp

theorem State.Bounded.step (h : Bounded tasks st) (hs : CeilingStep tasks cpu st op st') :
    Bounded tasks st' := by
  cases op with
  | openSrpSemaphore t s =>
    cases hs
    exact h.openSrpSemaphore
  | doSrpDown t s =>
    cases hs
    obtain ⟨sem, heq, hsam, -⟩ := doSrpDown_eq st t s
    rw [heq]
    exact h.congr rfl fun r => (hsam r).1
  | doSrpUp s =>
    cases hs
    exact h.congr rfl fun r => ((doSrpUp_spec ..).1 r).1

theorem sorted_step (h : Descending st.higherCeiling st.ceiling)
    (hs : SettledStep tasks cpu st op st') : Descending st'.higherCeiling st'.ceiling := by
  obtain ⟨hs, hlow⟩ := hs
  cases op <;> cases hs
  · exact sorted_openSrpSemaphore h (hlow _ _ rfl)
  · exact sorted_doSrpDown h
  exact sorted_doSrpUp h

end

/-- The ceiling list holds the held semaphores, each once.  If no ceiling is raised while the
    semaphore is held, it is sorted, and the system ceiling is the highest. -/
theorem ceiling_list_sorted {tasks : Tasks} {cpu : Nat} {pid : SemId → Nat} {ops : List CeilingOp}
    {st : State} (hrun : Run (CeilingStep tasks cpu) (init pid) ops st) :
    (∀ s, s ∈ st.ceiling ↔ (st.sem s).owner ≠ none) ∧ st.ceiling.Nodup ∧
      (Run (SettledStep tasks cpu) (init pid) ops st →
        Descending st.higherCeiling st.ceiling ∧
          ∀ top ∈ st.ceiling.head?, ∀ s, (st.sem s).owner ≠ none → ¬st.higherCeiling s top = true) := by
  have hlisted : Listed st := hrun.invariant (fun _ _ _ h hstep => h.step hstep)
    ⟨fun s => by simp [init], List.nodup_nil⟩
  refine ⟨hlisted.held, hlisted.nodup, fun hsettled => ?_⟩
  have hsorted := hsettled.invariant (I := fun st => Descending st.higherCeiling st.ceiling)
      (fun _ _ _ h hstep => sorted_step h hstep) (show Descending _ [] from List.Pairwise.nil)
  refine ⟨hsorted, fun top htop s hs => ?_⟩
  have hm := (hlisted.held s).mpr hs
  obtain ⟨rest, hrest⟩ := List.head?_eq_some_iff.mp htop
  rw [hrest] at hsorted hm
  rcases List.mem_cons.mp hm with rfl | hm
  · exact srpHigherPrio_irrefl _
  · exact (List.pairwise_cons.mp hsorted).1 s hm

/-- Tasks of CPU 0 with the periods 10, 20 and 5 and of others with 2^32. -/
def fourTasks : Tasks where
  period t := if t = 1 then 10 else if t = 2 then 20 else if t = 3 then 5 else 0x100000000
  partition _ := 0
  period_ne_zero t := by split_ifs <;> decide

/-- Semaphore 0 of task 1 and semaphore 1 of task 2 are held. -/
def twoHeld : List CeilingOp :=
  [.openSrpSemaphore 1 0, .openSrpSemaphore 2 1, .doSrpDown 2 1, .doSrpDown 1 0]

theorem ceiling_list_sorted_two :
    ∃ st, Run (SettledStep fourTasks 0) (init fun _ => 0) twoHeld st ∧ st.ceiling = [0, 1] ∧
      Descending st.higherCeiling st.ceiling := by
  have hrun : Run (SettledStep fourTasks 0) (init fun _ => 0) twoHeld _ :=
    .cons ⟨rfl, fun _ _ _ hs => absurd hs List.not_mem_nil⟩
      (.cons ⟨rfl, fun _ _ _ hs => absurd hs List.not_mem_nil⟩
        (.cons ⟨rfl, nofun⟩ (.cons ⟨rfl, nofun⟩ .nil)))
  exact ⟨_, hrun, rfl, ((ceiling_list_sorted (hrun.mono fun _ _ _ h => h.1)).2.2 hrun).1⟩

/-- Task 3 opens semaphore 1 while it is held: its ceiling becomes the highest, but stays behind
    that of semaphore 0. -/
theorem ceiling_raised_in_place :
    ∃ st, Run (CeilingStep fourTasks 0) (init fun _ => 0)
        (twoHeld ++ [.openSrpSemaphore 3 1]) st ∧ st.ceiling = [0, 1] ∧
      st.higherCeiling 1 0 = true ∧ ¬Descending st.higherCeiling st.ceiling := by
  refine ⟨_, .cons rfl (.cons rfl (.cons rfl (.cons rfl (.cons rfl .nil)))),
    rfl, rfl, fun hsorted => ?_⟩
  exact (List.pairwise_cons.mp hsorted).1 1 List.mem_cons_self rfl

/-- If the periods of all users are below 2^32 ns, the ceiling of a semaphore is the priority of
    its first user by period and pid, and a task with a shorter period than all users of all held
    semaphores exceeds the system ceiling. -/
theorem ceiling_first_user {tasks : Tasks} {cpu : Nat} {pid : SemId → Nat} {ops : List CeilingOp}
    {st : State} (hrun : Run (CeilingStep tasks cpu) (init pid) ops st)
    (hshort : ∀ t s, st.opened t s = true → (tasks.period t).toNat < 2 ^ 32) :
    (∀ t s, st.opened t s = true → ∃ u, st.opened u s = true ∧ (st.sem s).ceiling.pid = u ∧
        (st.sem s).ceiling.period.toNat = (tasks.period u).toNat ∧
        ∀ v, st.opened v s = true → (tasks.period u).toNat < (tasks.period v).toNat ∨
          (tasks.period u).toNat = (tasks.period v).toNat ∧ u ≤ v) ∧
    ∀ t, (∀ s ∈ st.ceiling, (∃ u, st.opened u s = true) ∧
        ∀ u, st.opened u s = true → (tasks.period t).toNat < (tasks.period u).toNat) →
      st.srpExceedsCeiling tasks t = true := by
  have hbounded : Bounded tasks st := hrun.invariant (fun _ _ _ h hs => h.step hs)
    ⟨fun _ _ h => Bool.noConfusion h, fun _ => .inl rfl⟩
  refine ⟨fun t s ht => hbounded.first hshort ht, fun t hlow => ?_⟩
  unfold srpExceedsCeiling
  cases hlist : st.ceiling with
  | nil => rfl
  | cons top rest =>
    obtain ⟨⟨v, hv⟩, hall⟩ := hlow top (hlist ▸ List.mem_cons_self)
    obtain ⟨u, hu, -, hperiod, -⟩ := hbounded.first hshort hv
    have hlt := hall u hu
    rw [← hperiod] at hlt
    simp [hlt]

theorem ceiling_first_user_held :
    ∃ st, Run (CeilingStep fourTasks 0) (init fun _ => 0)
        [.openSrpSemaphore 1 0, .doSrpDown 1 0] st ∧
      st.ceiling = [0] ∧ st.srpExceedsCeiling fourTasks 3 = true := by
  have hrun : Run (CeilingStep fourTasks 0) (init fun _ => 0)
      [.openSrpSemaphore 1 0, .doSrpDown 1 0] _ := .cons rfl (.cons rfl .nil)
  have huser : ∀ t s, (false || (decide (t = 1) && decide (s = 0))) = true → t = 1 := by simp
  refine ⟨_, hrun, rfl, (ceiling_first_user hrun fun t s ht => ?_).2 3 fun s hs => ⟨⟨1, ?_⟩, ?_⟩⟩
  · rw [huser t s ht]
    decide
  · rw [List.mem_singleton.mp hs]
    rfl
  intro u hu
  rw [huser u s hu]
  decide

/-- The period 2^32 is stored as 0, which means no priority: a held semaphore then blocks every
    task but its owner. -/
theorem ceiling_period_cut :
    ∃ st, Run (CeilingStep fourTasks 0) (init fun _ => 0)
        [.openSrpSemaphore 4 0, .doSrpDown 4 0] st ∧
      (st.sem 0).ceiling.period = 0 ∧ (fourTasks.period 3).toNat < (fourTasks.period 4).toNat ∧
      st.srpExceedsCeiling fourTasks 3 = false :=
  ⟨_, .cons rfl (.cons rfl .nil), rfl, by decide, rfl⟩

end Litmus.Srp
