import Litmus.FdsoHandles

/-!
# What the steps of a task keep

Most steps leave the handles alone; the others move the handle of one descriptor.
-/

namespace Litmus.Fdso

open Counted Function
open State (setPc_pc_self setEntry_entry_of_ne setPc)

variable {ι : Type} [DecidableEq ι] [Fintype ι]

/-! ### Steps that leave the handles alone -/

section

variable {others : InodeId → Int} {t : ι} {od : Od} {st : State ι}

section

variable (h : Inv others st)
include h

/-- A task that has no descriptor in hand goes to a place that it is ready for. -/
theorem Inv.goto {pc : Pc} (hold : (st.pc t).stage = none)
    (hne : pc.stage = none) (hpl : st.Placed t pc) : Inv others (st.setPc t pc) := by
  have hl : Local t ⟨0, by decide⟩ st (st.setPc t pc) :=
    Local.of_update rfl (fun _ => rfl) (Pc.only_of_none hold) (Pc.only_of_none hne)
  have hvie : (st.setPc t pc).view = st.view := by
    apply hl.view_same rfl (fun _ => rfl)
    rw [stage_of_none hold, stage_of_none (by rw [setPc_pc_self]; exact hne)]
    rfl
  refine h.frame hl ⟨rfl, rfl, rfl, rfl, rfl, fun _ => rfl⟩ id ?_ ?_ ?_ ?_
  · rw [hvie]
    exact h.sound
  · intro huse _
    apply h.named huse
    intro i type id hloc
    rw [hloc] at hold
    cases hold
  · rw [setPc_pc_self]
    exact hpl
  · intro d o i next hpc
    rw [setPc_pc_self] at hpc
    rw [hpc] at hne
    cases hne

theorem Inv.ret (hold : (st.pc t).stage = none) (value : Int) : Inv others (st.ret t value) := by
  have hres : Inv others { st with result := update st.result t value } :=
    ⟨⟨h.listed, h.nodup, h.once, h.fresh, h.kept⟩, h.sound, h.no_fault, h.named, h.placed,
      h.exclusive⟩
  exact hres.goto hold rfl trivial

theorem Inv.claim (hpc : st.pc t = .user)
    (hunu : (st.entry t od).used = false) (inode : InodeId) (type : ObjType) (id : BitVec 32) :
    Inv others ((st.setEntry t od { st.entry t od with used := true }).setPc t
      (.locking od inode type id)) := by
  have hl : Local t od st ((st.setEntry t od { st.entry t od with used := true }).setPc t
      (.locking od inode type id)) :=
    Local.of_update rfl setEntry_entry_of_ne (Pc.only_of_none (by rw [hpc]; rfl))
      (Pc.only_of_some rfl)
  have hvie : ((st.setEntry t od { st.entry t od with used := true }).setPc t
      (.locking od inode type id)).view = st.view := by
    apply hl.view_same rfl (fun _ => rfl)
    rw [stage_of_busy (s := .idle) (by rw [setPc_pc_self]; rfl),
      stage_of_none (by rw [hpc]; rfl)]
    exact (OdEntry.stage_of_unused hunu).symm
  refine h.frame hl ⟨rfl, rfl, rfl, rfl, rfl, fun _ => rfl⟩ (fun hi => hi) ?_ ?_ ?_ ?_
  · rw [hvie]
    exact h.sound
  · intro _ hloc
    exact absurd setPc_pc_self (hloc inode type id)
  · rw [setPc_pc_self]
    trivial
  intro d o i next hd
  rw [setPc_pc_self] at hd
  cases hd

theorem Inv.unuse {pc : Pc} {next : Then} (hpc : st.pc t = .clearing od next)
    (hne : pc.stage = none)
    (hpl : (st.setEntry t od { st.entry t od with used := false }).Placed t pc) :
    Inv others ((st.setEntry t od { st.entry t od with used := false }).setPc t pc) := by
  have hl : Local t od st ((st.setEntry t od { st.entry t od with used := false }).setPc t pc) :=
    Local.of_update rfl setEntry_entry_of_ne (Pc.only_of_some (by rw [hpc]; rfl))
      (Pc.only_of_none hne)
  have hen : ((st.setEntry t od { st.entry t od with used := false }).setPc t pc).entry t od =
      { st.entry t od with used := false } := State.setEntry_entry_self
  have hvie : ((st.setEntry t od { st.entry t od with used := false }).setPc t pc).view =
      st.view := by
    apply hl.view_same rfl (fun _ => rfl)
    have hidl : st.stage (t, od) = .idle := stage_of_busy (by rw [hpc]; rfl)
    rw [hidl, stage_of_none (by rw [setPc_pc_self]; exact hne), hen]
    exact OdEntry.stage_of_unused rfl
  refine h.frame hl ⟨rfl, rfl, rfl, rfl, rfl, fun _ => rfl⟩ id ?_ ?_ ?_ ?_
  · rw [hvie]
    exact h.sound
  · intro hus
    rw [hen] at hus
    cases hus
  · rw [setPc_pc_self]
    exact hpl
  intro d o i next hd
  rw [setPc_pc_self] at hd
  rw [hd] at hne
  cases hne

theorem Inv.clear {next : Then} (hpc : st.pc t = .clearing od next) :
    Inv others (st.clear t od next) := by
  have hsw := h.placed t
  rw [hpc] at hsw
  cases next with
  | ret value =>
    have huse : Inv others ((st.setEntry t od { st.entry t od with used := false }).setPc t
        .user) := h.unuse hpc rfl trivial
    have hret := huse.ret (t := t) (by rw [setPc_pc_self]; rfl) value
    have heq : State.ret t value
        ((st.setEntry t od { st.entry t od with used := false }).setPc t .user) =
          st.clear t od (.ret value) := by
      simp [State.clear, State.ret, setPc, State.setEntry]
    rwa [heq] at hret
  | exit i =>
    apply h.unuse hpc rfl
    intro j hj
    by_cases hjd : j = od
    · subst hjd
      rw [State.setEntry_entry_self]
    rw [setEntry_entry_of_ne fun heq => hjd (Prod.mk.inj heq).2]
    exact hsw j hj hjd

theorem Inv.freeTable (hpc : (st.pc t).stage = none) (hun : ∀ j, (st.entry t j).used = false) :
    Inv others ({ st with odTable := update st.odTable t none }.setPc t .exited) := by
  have hen : ∀ j, (({ st with odTable := update st.odTable t none } :
      State ι).entry t j).used = false := by
    intro j
    simp [State.entry]
  have hl : Local t ⟨0, by decide⟩ st
      ({ st with odTable := update st.odTable t none }.setPc t .exited) := by
    constructor
    · intro u hu
      exact State.setPc_pc_of_ne hu
    · intro u d _
      by_cases hu : u = t
      · subst hu
        exact .inr ⟨hen d, hun d⟩
      left
      simp [State.entry, setPc, hu]
    · exact Pc.only_of_none hpc
    · exact Pc.only_of_none (by rw [setPc_pc_self]; rfl)
  have hvie : ({ st with odTable := update st.odTable t none }.setPc t .exited).view = st.view := by
    apply hl.view_same rfl (fun _ => rfl)
    rw [stage_of_none hpc, stage_of_none (by rw [setPc_pc_self]; rfl),
      OdEntry.stage_of_unused (hun _)]
    exact OdEntry.stage_of_unused (hen _)
  refine h.frame hl ⟨rfl, rfl, rfl, rfl, rfl, fun _ => rfl⟩ id ?_ ?_ ?_ ?_
  · rw [hvie]
    exact h.sound
  · intro huse
    cases (hen _).symm.trans huse
  · rw [setPc_pc_self]
    trivial
  intro d o i next hd
  rw [setPc_pc_self] at hd
  cases hd

theorem Inv.exitNext {i : Nat} (hpc : st.pc t = .exiting i) : Inv others (st.exitNext t i) := by
  have hsw := h.placed t
  have hst : (st.pc t).stage = none := by rw [hpc]; rfl
  rw [hpc] at hsw
  unfold State.exitNext
  split
  · rename_i hi
    split
    · rename_i huse
      apply h.goto hst rfl
      refine ⟨huse, ?_⟩
      intro j hj hne
      have hne' : j.val ≠ i := fun heq => hne (Fin.ext heq)
      exact hsw j (by omega)
    rename_i hunu
    apply h.goto hst rfl
    intro j hj
    by_cases hji : j = ⟨i, hi⟩
    · subst hji
      exact Bool.eq_false_iff.mpr hunu
    have hne : j.val ≠ i := fun heq => hji (Fin.ext heq)
    exact hsw j (by omega)
  rename_i hi
  apply h.freeTable hst
  intro j
  exact hsw j (by omega)

end

end

/-! ### Steps that move a handle -/

section

variable {others : InodeId → Int} {t : ι} {od : Od} {st : State ι} {o : ObjId} {i : InodeId}
  {next : Then}

section

variable (h : Inv others st)
include h

theorem Inv.acquire {type : ObjType} {id : BitVec 32} {idx : Int}
    (hpc : st.pc t = .locking od i type id) (hmut : st.mutex i = false) (ho : o ∈ st.objList i) :
    Inv others (((st.setCount o ((st.obj o).count + 1)).setEntry t od
      { used := true, obj := some o }).setPc t (.opening od idx)) := by
  generalize hst' : ((st.setCount o ((st.obj o).count + 1)).setEntry t od
    { used := true, obj := some o }).setPc t (.opening od idx) = st'
  have hen : st'.entry t od = { used := true, obj := some o } := by
    subst hst'
    exact State.setEntry_entry_self
  have hpc' : st'.pc t = .opening od idx := by
    subst hst'
    exact setPc_pc_self
  have hl : Local t od st st' := by
    subst hst'
    exact Local.of_update rfl (fun hne => setEntry_entry_of_ne hne)
      (Pc.only_of_some (by rw [hpc]; rfl)) (Pc.only_of_none rfl)
  have hq : Quiet st st' := by
    subst hst'
    exact ⟨rfl, rfl, rfl, rfl, rfl, State.setCount_inode⟩
  have hvie : st'.view = st.view.acquire o (t, od) := by
    apply hl.view_move
    · rw [hq.live_eq]
      exact (update_eq_self o st.live).symm
    · subst hst'
      exact State.setCount_count
    exact stage_of_opening hpc' hen
  obtain ⟨hliv, hino⟩ := h.listed.mp ho
  have hidl : st.view.stage (t, od) = .idle := stage_of_busy (by rw [hpc]; rfl)
  have hfr := h.not_condemned (by rw [hino, hmut])
  refine h.frame hl hq ?_ ?_ ?_ ?_ ?_
  · subst hst'
    intro i hi
    exact hi
  · rw [hvie]
    exact h.sound.acquire hliv hidl hfr
  · intro _ _
    exact ⟨o, by rw [hen]⟩
  · rw [hpc']
    change (st'.entry t od).used = true
    rw [hen]
  intro d o i next hd
  rw [hpc'] at hd
  cases hd

theorem Inv.create {type : ObjType} {id : BitVec 32} {idx : Int}
    (hpc : st.pc t = .locking od i type id) :
    Inv others (((st.allocInodeObj i type id).setEntry t od
      { used := true, obj := some st.next }).setPc t (.opening od idx)) := by
  have hhea : st.accessAll (st.objList i).head?.toList = st := by
    apply accessAll_of_live
    intro o ho
    exact (h.listed.mp (List.mem_of_head? (Option.mem_toList.mp ho))).1
  generalize hst' : ((st.allocInodeObj i type id).setEntry t od
    { used := true, obj := some st.next }).setPc t (.opening od idx) = st'
  unfold State.allocInodeObj at hst'
  rw [hhea] at hst'
  have hen : st'.entry t od = { used := true, obj := some st.next } := by
    subst hst'
    exact State.setEntry_entry_self
  have hpc' : st'.pc t = .opening od idx := by
    subst hst'
    exact setPc_pc_self
  have hl : Local t od st st' := by
    subst hst'
    exact Local.of_update rfl (fun hne => setEntry_entry_of_ne hne)
      (Pc.only_of_some (by rw [hpc]; rfl)) (Pc.only_of_none rfl)
  have hc : Created { count := 1, inode := i, type := type, id := id } st st' := by
    subst hst'
    exact ⟨rfl, rfl, rfl, rfl, rfl⟩
  have hvie : st'.view = st.view.create st.next (t, od) := by
    apply hl.view_move (hc.live_eq h.toListing)
    · intro p
      rw [hc.obj_eq]
      by_cases hp : p = st.next
      · subst hp
        simp
      simp [hp]
    exact stage_of_opening hpc' hen
  have hidl : st.view.stage (t, od) = .idle := stage_of_busy (by rw [hpc]; rfl)
  refine h.step hl ?_ ?_ (h.toListing.create hc) ?_ ?_ ?_ ?_ ?_
  · intro o ho
    rw [hc.obj_of_live ho]
  · intro u d o j next hu hd
    have hpl := h.placed u
    rw [hd] at hpl
    subst hst'
    exact hpl.2.1
  · rw [hvie]
    exact h.sound.create not_live_next hidl
  · subst hst'
    exact h.no_fault
  · intro _ _
    exact ⟨st.next, by rw [hen]⟩
  · rw [hpc']
    change (st'.entry t od).used = true
    rw [hen]
  · intro d o j next hd
    rw [hpc'] at hd
    cases hd

theorem Inv.decAndTest (hpc : st.pc t = .putting od next) :
    Inv others (st.decAndTest t od next) := by
  have hpl := h.placed t
  rw [hpc] at hpl
  obtain ⟨o, hob, hhol, hliv⟩ := h.holding_of_used (by rw [hpc]; rfl) hpl.1
  generalize hst' : st.decAndTest t od next = st'
  unfold State.decAndTest at hst'
  simp only [hob, access_of_live hliv] at hst'
  have hco : ((st.setCount o ((st.obj o).count - 1)).obj o).count = (st.obj o).count - 1 := by
    rw [State.setCount_count, update_self]
  rw [hco] at hst'
  have hpc' : st'.pc t = if (st.obj o).count - 1 = 0
      then .rechecking od o (st.obj o).inode next else .clearing od next := by
    subst hst'
    exact setPc_pc_self
  have hsa : (st'.pc t).stage = some (od, if (st.obj o).count - 1 = 0
      then .draining o else .idle) := by
    rw [hpc']
    split <;> rfl
  have hl : Local t od st st' := by
    constructor
    · intro u hu
      subst hst'
      exact State.setPc_pc_of_ne hu
    · intro u d _
      subst hst'
      exact .inl rfl
    · exact Pc.only_of_none (by rw [hpc]; rfl)
    · exact Pc.only_of_some hsa
  have hq : Quiet st st' := by
    subst hst'
    exact ⟨rfl, rfl, rfl, rfl, rfl, State.setCount_inode⟩
  have hvie : st'.view = st.view.release o (t, od) := by
    apply hl.view_move
    · rw [hq.live_eq]
      exact (update_eq_self o st.live).symm
    · subst hst'
      exact State.setCount_count
    exact stage_of_busy hsa
  refine h.frame hl hq ?_ ?_ ?_ ?_ ?_
  · subst hst'
    intro i hi
    exact hi
  · rw [hvie]
    exact h.sound.release hhol
  · intro _ _
    subst hst'
    exact ⟨o, hob⟩
  · have hsw := hl.swept hpl.2
    rw [hpc']
    split
    · exact ⟨hq.inode_eq o, hsw⟩
    exact hsw
  · intro d p i next' hd
    rw [hpc'] at hd
    split at hd <;> cases hd

/-- The re-check: if it finds the count at zero, no other task may be about to check it. -/
theorem Inv.recheck (hpc : st.pc t = .rechecking od o i next) (hmu : st.mutex i = false)
    (halo : (st.obj o).count = 0 → ∀ {u d j next'}, st.pc u = .rechecking d o j next' → u = t) :
    Inv others (st.recheck t od o i next) := by
  have hpl := h.placed t
  rw [hpc] at hpl
  obtain ⟨hin, hswe⟩ := hpl
  have hdra : st.view.stage (t, od) = .draining o := stage_of_busy (by rw [hpc]; rfl)
  have hliv : st.live o = true := h.live_of_busy (u := t) (by rw [hpc]; rfl) rfl
  generalize hst' : st.recheck t od o i next = st'
  unfold State.recheck at hst'
  simp only [access_of_live hliv] at hst'
  have hpc' : st'.pc = update st.pc t (if (st.obj o).count = 0
      then .destroying od o i next else .clearing od next) := by
    subst hst'
    split <;> rfl
  have hsa : (st'.pc t).stage = some (od, if (st.obj o).count = 0
      then .condemned o else .idle) := by
    rw [hpc', update_self]
    split <;> rfl
  have hen : st'.entry = st.entry := by
    subst hst'
    split <;> rfl
  have hobj : st'.obj = st.obj := by
    subst hst'
    split <;> rfl
  have hl : Local t od st st' := by
    constructor
    · intro u hu
      rw [hpc']
      exact update_of_ne hu _ _
    · intro u d _
      exact .inl (by rw [hen])
    · exact Pc.only_of_some (by rw [hpc]; rfl)
    · exact Pc.only_of_some hsa
  have hq : Quiet st st' := by
    subst hst'
    split <;> exact ⟨rfl, rfl, rfl, rfl, rfl, fun _ => rfl⟩
  have hvie : st'.view = st.view.recheck o (t, od) := by
    apply hl.view_move
    · rw [hq.live_eq]
      exact (update_eq_self o st.live).symm
    · intro p
      rw [hobj]
      exact (congrFun (update_eq_self o fun p => (st.obj p).count) p).symm
    exact stage_of_busy hsa
  have hfr := h.not_condemned (o := o) (by rw [hin, hmu])
  -- the mutex is taken if the object is going to be destroyed
  have hmutex' : ∀ {j}, st'.mutex j = true ↔ st.mutex j = true ∨ (st.obj o).count = 0 ∧ j = i := by
    intro j
    subst hst'
    by_cases h0 : (st.obj o).count = 0
    · by_cases hj : j = i
      · subst hj
        simp [h0, setPc]
      simp [h0, hj, setPc]
    simp [h0, setPc]
  refine h.frame hl hq ?_ ?_ ?_ ?_ ?_
  · intro j hj
    exact hmutex'.mpr (.inl hj)
  · rw [hvie]
    apply h.sound.recheck hdra hfr
    rintro h0 ⟨u, d⟩ hu
    obtain ⟨j, next', hpu⟩ := pc_of_draining hu
    obtain rfl := halo h0 hpu
    rw [hpc] at hpu
    cases hpu
    rfl
  · intro hus _
    rw [hen] at hus ⊢
    exact h.named hus (by intro j type id hlo; rw [hpc] at hlo; cases hlo)
  · have hswept' := hl.swept hswe
    rw [hpc', update_self]
    split
    · rename_i h0
      exact ⟨(hq.inode_eq o).trans hin, hmutex'.mpr (.inr ⟨h0, rfl⟩), hswept'⟩
    exact hswept'
  · intro d p j next' hd u d' o' next'' hu hpu
    rw [hpc', update_self] at hd
    split at hd
    · cases hd
      have hpa := h.placed u
      rw [hpu] at hpa
      have hlc := hpa.2.1
      rw [hmu] at hlc
      cases hlc
    cases hd

theorem Inv.destroy (hpc : st.pc t = .destroying od o i next) :
    Inv others (st.destroy t od o i next) := by
  have hpl := h.placed t
  rw [hpc] at hpl
  obtain ⟨hino, hlck, hswe⟩ := hpl
  have hcon := stage_of_busy (by rw [hpc]; rfl)
  have hli : st.live o = true := h.live_of_busy (u := t) (by rw [hpc]; rfl) rfl
  have hm : o ∈ st.objList i := h.listed.mpr ⟨hli, hino⟩
  have hnei : st.accessAll (State.neighbours o (st.objList i)) = st :=
    accessAll_of_live fun p hp => (h.listed.mp (mem_of_mem_neighbours hp)).1
  generalize hst' : st.destroy t od o i next = st'
  unfold State.destroy at hst'
  simp only [if_pos hm, access_of_live hli, hnei] at hst'
  have hpc' : st'.pc t = .clearing od next := by
    subst hst'
    exact setPc_pc_self
  have hl : Local t od st st' := by
    subst hst'
    exact Local.of_update rfl (fun _ => rfl) (Pc.only_of_some (by rw [hpc]; rfl))
      (Pc.only_of_some rfl)
  have hd : Destroyed o i st st' := by
    subst hst'
    exact ⟨rfl, rfl, rfl, rfl, rfl⟩
  have hvie : st'.view = st.view.destroy o (t, od) := by
    apply hl.view_move hd.live_eq
    · intro p
      rw [hd.obj_eq]
      exact (congrFun (update_eq_self o fun p => (st.obj p).count) p).symm
    exact stage_of_busy (by rw [hpc']; rfl)
  refine h.step hl ?_ ?_ (h.toListing.destroy hd hm) ?_ ?_ ?_ ?_ ?_
  · intro p _
    rw [hd.obj_eq]
  · intro u d p j next' hu hpu
    -- another inode: the mutex of this one is held by the task itself
    have hj : j ≠ i := by
      rintro rfl
      exact hu (h.exclusive hpu hpc)
    have hpa := h.placed u
    rw [hpu] at hpa
    have hmut : st'.mutex = update st.mutex i false := by
      subst hst'
      rfl
    rw [hmut, update_of_ne hj]
    exact hpa.2.1
  · rw [hvie]
    exact h.sound.destroy hcon
  · subst hst'
    exact h.no_fault
  · intro huse _
    subst hst'
    exact h.named huse (by intro j type id hlo; rw [hpc] at hlo; cases hlo)
  · rw [hpc']
    exact hl.swept hswe
  · intro d p j next' hpd
    rw [hpc'] at hpd
    cases hpd

end

end

end Litmus.Fdso
