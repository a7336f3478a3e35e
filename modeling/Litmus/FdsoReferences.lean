import Litmus.FdsoInvariant

/-!
# The references of shared objects

While no re-check that finds the count at zero leaves another task behind that waits to
re-check the same object, and no allocation fails, the counts are exact: an object is
destroyed once, when it has no references, and not accessed afterwards.
-/

namespace Litmus.Fdso

open Counted Runs

variable {ι : Type} [DecidableEq ι]

/-- The object whose count a task has brought to zero and not yet re-checked. -/
def Pc.rechecks : Pc → Option ObjId
  | .rechecking _ o _ _ => some o
  | _ => none

/-- `alloc_inode_obj` does not fail, and a re-check that finds the count at zero is made by
    the only task that has brought it to zero. -/
def Calm (ops : ObjType → FdsoOps) (st : State ι) : Op ι → Prop
  | .lookup t raw mem =>
      match st.pc t with
      | .locking _ i type id =>
          (st.getInodeObj i type id).isSome = true ∨
            (State.fdsoCreate ops type raw && mem) = true
      | _ => True
  | .recheck t =>
      match st.pc t with
      | .rechecking _ o _ _ =>
          (st.obj o).count = 0 → ∀ u, u ≠ t → (st.pc u).rechecks ≠ some o
      | _ => True
  | _ => True

instance [Fintype ι] (ops : ObjType → FdsoOps) (st : State ι) (op : Op ι) :
    Decidable (Calm ops st op) := by
  cases op <;> unfold Calm
  case lookup => dsimp only; split <;> infer_instance
  case recheck => dsimp only; split <;> infer_instance
  all_goals exact instDecidableTrue

def CalmStep (ops : ObjType → FdsoOps) (st : State ι) (op : Op ι) (st' : State ι) : Prop :=
  Calm ops st op ∧ Step ops st op st'

structure Exact [Fintype ι] (st : State ι) : Prop where
  count : ∀ o, st.live o = true → (st.obj o).count = st.view.references o
  once : ∀ o, st.destroyed o ≤ 1
  /-- a descriptor in use does not refer to a destroyed object -/
  unreferenced : ∀ t od o, st.stage (t, od) = .holding o → st.destroyed o = 0
  /-- no step has accessed a destroyed object -/
  no_access : st.fault = false

/-! ### What destroys an object -/

section

variable {ops : ObjType → FdsoOps} {t : ι} {od : Od} {st st' : State ι}

@[simp]
theorem setPc_destroyed {pc : Pc} : (st.setPc t pc).destroyed = st.destroyed := rfl

@[simp]
theorem ret_destroyed {value : Int} : (st.ret t value).destroyed = st.destroyed := rfl

@[simp]
theorem setEntry_destroyed {e : OdEntry} : (st.setEntry t od e).destroyed = st.destroyed := rfl

@[simp]
theorem oops_destroyed : (st.oops t).destroyed = st.destroyed := rfl

omit [DecidableEq ι] in
@[simp]
theorem setCount_destroyed {o : ObjId} {c : Int} :
    (st.setCount o c).destroyed = st.destroyed := rfl

omit [DecidableEq ι] in
@[simp]
theorem access_destroyed {o : ObjId} : (st.access o).destroyed = st.destroyed := rfl

omit [DecidableEq ι] in
@[simp]
theorem accessAll_destroyed {os : List ObjId} : (st.accessAll os).destroyed = st.destroyed := by
  unfold State.accessAll
  induction os generalizing st with
  | nil => rfl
  | cons o os ih => exact ih.trans access_destroyed

omit [DecidableEq ι] in
@[simp]
theorem allocInodeObj_destroyed {i : InodeId} {type : ObjType} {id : BitVec 32} :
    (st.allocInodeObj i type id).destroyed = st.destroyed :=
  accessAll_destroyed

theorem destroy_destroyed_of_ne {o p : ObjId} {i : InodeId} {next : Then} (hne : p ≠ o) :
    (st.destroy t od o i next).destroyed p = st.destroyed p := by
  unfold State.destroy
  split
  · simp [hne]
  simp

theorem exec_destroyed {op : Op ι} (hx : st.exec ops op = some st')
    (hop : ∀ t, op ≠ .destroy t) : st'.destroyed = st.destroyed := by
  cases op with
  | destroy t => exact absurd rfl (hop t)
  | _ =>
    simp only [State.exec] at hx
    repeat' split at hx
    all_goals
      cases hx
      try simp only [State.odOpen, State.lookup, State.callOpen, State.odClose, State.decAndTest,
        State.recheck, State.clear, State.exitNext]
      repeat' split
      all_goals simp

end

/-! ### Runs of calm steps -/

variable [Fintype ι]

section

variable {others : InodeId → Int} {ops : ObjType → FdsoOps} {t : ι} {od : Od} {st st' : State ι}

omit [DecidableEq ι] in
theorem Inv.exact (h : Inv others st) : Exact st where
  count _ ho := h.sound.count_eq ho
  once := h.once
  unreferenced := by
    intro t od o hsta
    have hl : st.live o = true := h.sound.live_of_object (h := (t, od)) (by
      change (st.stage (t, od)).object = some o
      rw [hsta]
      rfl)
    exact (live_iff.mp hl).2
  no_access := h.no_fault

theorem Inv.odOpen {file : Option InodeId} {type : Int} {id : BitVec 32} {mem : Bool}
    (h : Inv others st) (hpc : st.pc t = .user) : Inv others (st.odOpen t file type id mem) := by
  have hst : (st.pc t).stage = none := by rw [hpc]; rfl
  unfold State.odOpen
  split
  · exact h.ret hst _
  split
  · exact h.ret hst _
  split
  · exact h.ret hst _
  rename_i od hen
  have hunu : (st.entry t od).used = false := by
    unfold State.getOdEntry at hen
    split at hen
    · cases hen
    simpa using List.find?_some hen
  exact h.claim hpc hunu _ _ _

theorem Inv.lookup {i : InodeId} {type : ObjType} {id : BitVec 32} {raw mem : Bool}
    (h : Inv others st) (hpc : st.pc t = .locking od i type id) (hmut : st.mutex i = false)
    (hca : Calm ops st (.lookup t raw mem)) :
    Inv others (st.lookup ops t od i type id raw mem) := by
  have hvis : st.accessAll (st.visited i type id) = st :=
    accessAll_of_live fun o ho => (h.listed.mp (mem_list_of_visited ho)).1
  unfold State.lookup
  simp only [hvis]
  split
  · rename_i o ho
    exact h.acquire hpc hmut (List.mem_of_find?_eq_some ho)
  rename_i hn
  simp only [Calm, hpc, hn] at hca
  rcases hca with hsom | hcre
  · cases hsom
  rw [if_pos hcre]
  exact h.create hpc

theorem Inv.callOpen {idx answer : Int} (h : Inv others st) (hpc : st.pc t = .opening od idx) :
    Inv others (st.callOpen ops t od idx answer) := by
  have hpl := h.placed t
  have hst : (st.pc t).stage = none := by rw [hpc]; rfl
  rw [hpc] at hpl
  obtain ⟨o, hobj, -, hl⟩ := h.holding_of_used hst hpl
  unfold State.callOpen
  simp only [hobj, access_of_live hl]
  split
  · exact h.goto hst rfl ⟨hpl, trivial⟩
  exact h.ret hst idx

theorem Inv.odClose {od : Int} {answer : Int} (h : Inv others st) (hpc : st.pc t = .user) :
    Inv others (st.odClose ops t od answer) := by
  have hst : (st.pc t).stage = none := by rw [hpc]; rfl
  unfold State.odClose
  split
  · exact h.ret hst _
  split
  · rename_i hus
    obtain ⟨o, hobj, -, hl⟩ := h.holding_of_used hst hus
    simp only [hobj, access_of_live hl]
    split
    · exact h.goto hst rfl ⟨hus, trivial⟩
    exact h.ret hst _
  exact h.ret hst _

omit [DecidableEq ι] in
theorem Inv.odLookup {od : Int} {e : OdEntry} (h : Inv others st) (hpc : st.pc t = .user)
    (he : st.odLookup t od = some e) : ∃ o, e.obj = some o ∧ st.access o = st := by
  unfold State.odLookup at he
  split at he
  · cases he
  split at he
  · rename_i huse
    cases he
    obtain ⟨o, hobj, -, hl⟩ := h.holding_of_used (by rw [hpc]; rfl) huse
    exact ⟨o, hobj, access_of_live hl⟩
  cases he

theorem Inv.exec {op : Op ι} (h : Inv others st) (hs : CalmStep ops st op st') :
    Inv others st' := by
  obtain ⟨hca, hx⟩ := hs
  unfold Step at hx
  cases op with
  | odOpen t file type id mem =>
    simp only [State.exec] at hx
    split at hx
    · rename_i hpc
      cases hx
      exact h.odOpen hpc
    cases hx
  | lookup t raw mem =>
    simp only [State.exec] at hx
    split at hx
    · rename_i hpc
      split at hx
      · cases hx
      rename_i hmu
      cases hx
      exact h.lookup hpc (Bool.eq_false_iff.mpr hmu) hca
    cases hx
  | callOpen t answer =>
    simp only [State.exec] at hx
    split at hx
    · rename_i hpc
      cases hx
      exact h.callOpen hpc
    cases hx
  | odClose t od answer =>
    simp only [State.exec] at hx
    split at hx
    · rename_i hpc
      cases hx
      exact h.odClose hpc
    cases hx
  | odLookup t od =>
    simp only [State.exec] at hx
    split at hx
    · rename_i hpc
      split at hx
      · cases hx
        exact h
      rename_i e he
      obtain ⟨o, hobj, hacc⟩ := h.odLookup hpc he
      simp only [hobj, hacc] at hx
      cases hx
      exact h
    cases hx
  | exitOdTable t =>
    simp only [State.exec] at hx
    split at hx
    · rename_i hpc
      cases hx
      apply h.goto (by rw [hpc]; rfl)
      · split <;> rfl
      split
      · intro j hj
        cases hj
      trivial
    cases hx
  | exitNext t =>
    simp only [State.exec] at hx
    split at hx
    · rename_i hpc
      cases hx
      exact h.exitNext hpc
    cases hx
  | decAndTest t =>
    simp only [State.exec] at hx
    split at hx
    · rename_i hpc
      cases hx
      exact h.decAndTest hpc
    cases hx
  | recheck t =>
    simp only [State.exec] at hx
    split at hx
    · rename_i hpc
      split at hx
      · cases hx
      rename_i hmu
      cases hx
      simp only [Calm, hpc] at hca
      apply h.recheck hpc (Bool.eq_false_iff.mpr hmu)
      intro h0 u d j next hu
      by_contra hne
      exact hca h0 u hne (by rw [hu]; rfl)
    cases hx
  | destroy t =>
    simp only [State.exec] at hx
    split at hx
    · rename_i hpc
      cases hx
      exact h.destroy hpc
    cases hx
  | clear t =>
    simp only [State.exec] at hx
    split at hx
    · rename_i hpc
      cases hx
      exact h.clear hpc
    cases hx

theorem Inv.not_holding_of_destroyed {op : Op ι} (h : Inv others st) (hs : Step ops st op st')
    {o : ObjId} (hde : st'.destroyed o ≠ st.destroyed o) (k : ι × Od) :
    st.stage k ≠ .holding o := by
  intro hk
  by_cases hop : ∃ t, op = .destroy t
  · obtain ⟨t, rfl⟩ := hop
    unfold Step at hs
    simp only [State.exec] at hs
    split at hs
    · rename_i od p i next hpc
      cases hs
      have hco := stage_of_busy (by rw [hpc]; rfl)
      have hp : o = p := by
        by_contra hne
        exact hde (destroy_destroyed_of_ne hne)
      subst hp
      have hobj : (st.view.stage k).object = some o := by
        change (st.stage k).object = some o
        rw [hk]
        rfl
      obtain rfl := (h.sound.last hco).2 hobj
      cases hk.symm.trans hco
    cases hs
  exact hde (by rw [exec_destroyed hs fun t ht => hop ⟨t, ht⟩])

/-- In every run of calm steps the counts are exact, and an object is destroyed only when no
    descriptor in use refers to it. -/
theorem fdso_references_exact {ls : List (Op ι)}
    (hrun : Run (CalmStep ops) (State.init others) ls st) :
    Exact st ∧ ∀ {op st'}, CalmStep ops st op st' → ∀ o, st'.destroyed o ≠ st.destroyed o →
      ∀ t od, st.stage (t, od) ≠ .holding o := by
  have hI := hrun.invariant (fun _ _ _ h hs => h.exec hs) (Inv.init others)
  refine ⟨hI.exact, ?_⟩
  intro op st' hs o hdestroyed t od
  exact hI.not_holding_of_destroyed hs.2 hdestroyed (t, od)

end

/-- Two tasks share an object; one closes it, the other one exits. -/
theorem fdso_references_exact_shared : ∃ (ls : List (Op (Fin 2))) (st : State (Fin 2)),
    Run (CalmStep semOps) (State.init fun _ => 1) ls st ∧ st.destroyed 0 = 1 ∧ Exact st := by
  refine ⟨[.odOpen 0 (some 5) 0 7 true, .lookup 0 true true, .callOpen 0 0,
    .odOpen 1 (some 5) 0 7 true, .lookup 1 true true, .callOpen 1 0,
    .odClose 0 0 0, .decAndTest 0, .clear 0,
    .exitOdTable 1, .exitNext 1, .decAndTest 1, .recheck 1, .destroy 1], ?_⟩
  exact Run.exists_of_check (Q := fun st => st.destroyed 0 = 1)
    (fun _ _ _ hcalm hx => ⟨of_decide_eq_true hcalm, hx⟩) (by decide +kernel)
    fun _ hrun hst => ⟨hst, (fdso_references_exact hrun).1⟩

/-- Two runs that are not calm.  In the first one task 0 closes the only descriptor and does
    not re-check the count before task 1 has opened the object and closed it again: task 0
    destroys the object, and task 1 re-checks it afterwards.  In the second one task 0 closes
    an object that task 1 has still open, and reuses the entry for an object that cannot be
    allocated: the class, called with the old object, refuses, and the reference of task 1 is
    dropped. -/
theorem fdso_destroyed_object_accessed :
    (∃ st : State (Fin 2),
      Run (Step semOps) (State.init fun _ => 1)
        [.odOpen 0 (some 5) 0 7 true, .lookup 0 true true, .callOpen 0 0,
          .odClose 0 0 0, .decAndTest 0,
          .odOpen 1 (some 5) 0 7 true, .lookup 1 true true, .callOpen 1 0,
          .odClose 1 0 0, .decAndTest 1,
          .recheck 0, .destroy 0, .recheck 1] st ∧
        st.destroyed 0 = 1 ∧ st.fault = true) ∧
    ∃ st : State (Fin 2),
      Run (Step semOps) (State.init fun _ => 1)
        [.odOpen 0 (some 5) 0 7 true, .lookup 0 true true, .callOpen 0 0,
          .odOpen 1 (some 5) 0 7 true, .lookup 1 true true, .callOpen 1 0,
          .odClose 0 0 0, .decAndTest 0, .clear 0,
          .odOpen 0 (some 5) 0 8 true, .lookup 0 false true, .callOpen 0 (-1),
          .decAndTest 0, .recheck 0, .destroy 0] st ∧
        st.destroyed 0 = 1 ∧ st.stage (1, 0) = .holding 0 := by
  constructor
  · exact Run.exists_of_check (fun _ _ _ (_ : true = true) hx => hx) (by decide +kernel)
      fun _ _ hst => hst
  exact Run.exists_of_check (fun _ _ _ (_ : true = true) hx => hx) (by decide +kernel)
    fun _ _ hst => hst

end Litmus.Fdso
