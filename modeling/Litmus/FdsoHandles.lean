import Litmus.Counted
import Litmus.Fdso

/-!
# Descriptors as handles

The descriptors of all tasks as the handles of counted objects, and an invariant that ties
the objects to the lists of their inodes and to what the tasks are doing.
-/

namespace Litmus.Fdso

open Counted Function List OdEntry

variable {ι : Type}

/-! ### The stages of a descriptor -/

/-- The stage of the descriptor that a task is opening or closing. -/
def Pc.stage : Pc → Option (Od × Stage ObjId)
  | .locking od _ _ _ => some (od, .idle)
  | .rechecking od o _ _ => some (od, .draining o)
  | .destroying od o _ _ => some (od, .condemned o)
  | .clearing od _ => some (od, .idle)
  | _ => none

/-- A task in this place is not opening or closing a descriptor other than `od`. -/
def Pc.Only (pc : Pc) (od : Od) : Prop := ∀ d s, pc.stage = some (d, s) → d = od

theorem Pc.only_of_none {pc : Pc} {od : Od} (h : pc.stage = none) : pc.Only od := by
  intro d s hd
  cases h.symm.trans hd

theorem Pc.only_of_some {pc : Pc} {od : Od} {s : Stage ObjId} (h : pc.stage = some (od, s)) :
    pc.Only od := by
  intro d s' hd
  cases h.symm.trans hd
  rfl

/-- The stage of a descriptor that is not being opened or closed. -/
def OdEntry.stage (e : OdEntry) : Stage ObjId :=
  match e.obj with
  | some o => if e.used then .holding o else .idle
  | none => .idle

namespace State

def stage (st : State ι) (h : ι × Od) : Stage ObjId :=
  match (st.pc h.1).stage with
  | some (od, s) => if od = h.2 then s else (st.entry h.1 h.2).stage
  | none => (st.entry h.1 h.2).stage

def view (st : State ι) : Store ObjId (ι × Od) where
  live := st.live
  count o := (st.obj o).count
  stage := st.stage

/-- The entries that `exit_od_table` has passed are unused. -/
def Swept (st : State ι) (t : ι) (od : Od) : Then → Prop
  | .ret _ => True
  | .exit i => ∀ j : Od, j.val < i → j ≠ od → (st.entry t j).used = false

def Placed (st : State ι) (t : ι) : Pc → Prop
  | .opening od _ => (st.entry t od).used = true
  | .putting od next => (st.entry t od).used = true ∧ st.Swept t od next
  | .rechecking od o inode next => (st.obj o).inode = inode ∧ st.Swept t od next
  | .destroying od o inode next =>
      (st.obj o).inode = inode ∧ st.mutex inode = true ∧ st.Swept t od next
  | .clearing od next => st.Swept t od next
  | .exiting i => ∀ j : Od, j.val < i → (st.entry t j).used = false
  | _ => True

end State

/-- `st'` differs from `st` in what task `t` does with descriptor `od`. -/
structure Local (t : ι) (od : Od) (st st' : State ι) : Prop where
  pc_of_ne : ∀ {u}, u ≠ t → st'.pc u = st.pc u
  entry_of_ne : ∀ {u d}, (u, d) ≠ (t, od) → st'.entry u d = st.entry u d ∨
    (st'.entry u d).used = false ∧ (st.entry u d).used = false
  before : (st.pc t).Only od
  after : (st'.pc t).Only od

structure Quiet (st st' : State ι) : Prop where
  objList_eq : st'.objList = st.objList
  next_eq : st'.next = st.next
  destroyed_eq : st'.destroyed = st.destroyed
  iCount_eq : st'.iCount = st.iCount
  fault_eq : st'.fault = st.fault
  inode_eq : ∀ o, (st'.obj o).inode = (st.obj o).inode

section

variable {t : ι} {od : Od} {st st' : State ι} {o : ObjId} {u : ι} {d : Od} {s : Stage ObjId}

theorem Quiet.live_eq (h : Quiet st st') : st'.live = st.live := by
  unfold State.live
  rw [h.next_eq, h.destroyed_eq]

theorem OdEntry.stage_of_unused {e : OdEntry} (he : e.used = false) : e.stage = .idle := by
  unfold stage
  split
  · rw [he]
    rfl
  rfl

theorem OdEntry.stage_of_used {e : OdEntry} (he : e.used = true) (ho : e.obj = some o) :
    e.stage = .holding o := by
  unfold stage
  rw [ho]
  exact if_pos he

theorem Local.used_of_ne (hl : Local t od st st') (hne : (u, d) ≠ (t, od)) :
    (st'.entry u d).used = (st.entry u d).used := by
  rcases hl.entry_of_ne hne with heq | ⟨hnew, hold⟩
  · rw [heq]
  rw [hnew, hold]

theorem Local.entry_stage_of_ne (hl : Local t od st st') (hne : (u, d) ≠ (t, od)) :
    (st'.entry u d).stage = (st.entry u d).stage := by
  rcases hl.entry_of_ne hne with heq | ⟨hnew, hold⟩
  · rw [heq]
  rw [stage_of_unused hnew, stage_of_unused hold]

theorem stage_of_only {d' : Od} (h : (st.pc u).Only d') (hne : d ≠ d') :
    st.stage (u, d) = (st.entry u d).stage := by
  unfold State.stage
  split
  · rename_i d'' s hpc
    exact if_neg fun heq => hne (heq.symm.trans (h d'' s hpc))
  rfl

theorem stage_of_none (h : (st.pc u).stage = none) : st.stage (u, d) = (st.entry u d).stage := by
  unfold State.stage
  rw [h]

theorem stage_of_busy (h : (st.pc u).stage = some (d, s)) : st.stage (u, d) = s := by
  unfold State.stage
  rw [h]
  exact if_pos rfl

theorem OdEntry.stage_cases (e : OdEntry) : e.stage = .idle ∨ ∃ o, e.stage = .holding o := by
  unfold stage
  split
  · split
    · exact .inr ⟨_, rfl⟩
    exact .inl rfl
  exact .inl rfl

/-- A stage that no entry tells is that of the descriptor which the task is closing. -/
theorem busy_of_stage (h : st.stage (u, d) = s) (hidl : s ≠ .idle)
    (hhol : ∀ o, s ≠ .holding o) : (st.pc u).stage = some (d, s) := by
  have hen : (st.entry u d).stage ≠ s := by
    intro he
    rcases stage_cases (st.entry u d) with hca | ⟨o, hca⟩
    · exact hidl (he.symm.trans hca)
    exact hhol o (he.symm.trans hca)
  unfold State.stage at h
  split at h
  · rename_i d' s' hpc
    split at h
    · rename_i hd
      rw [hpc, hd, h]
    exact absurd h hen
  exact absurd h hen

theorem pc_of_draining (hsta : st.stage (u, d) = .draining o) :
    ∃ i next, st.pc u = .rechecking d o i next := by
  have hbu := busy_of_stage hsta (by intro hc; cases hc) (by intro p hc; cases hc)
  cases hpc : st.pc u with
  | rechecking d' o' i next =>
    rw [hpc] at hbu
    cases hbu
    exact ⟨i, next, rfl⟩
  | _ =>
    rw [hpc] at hbu
    cases hbu

theorem pc_of_condemned (hsta : st.stage (u, d) = .condemned o) :
    ∃ i next, st.pc u = .destroying d o i next := by
  have hbu := busy_of_stage hsta (by intro hc; cases hc) (by intro p hc; cases hc)
  cases hpc : st.pc u with
  | destroying d' o' i next =>
    rw [hpc] at hbu
    cases hbu
    exact ⟨i, next, rfl⟩
  | _ =>
    rw [hpc] at hbu
    cases hbu

theorem stage_of_opening {idx : Int} (hpc : st.pc u = .opening d idx)
    (hen : st.entry u d = { used := true, obj := some o }) : st.stage (u, d) = .holding o := by
  rw [stage_of_none (by rw [hpc]; rfl)]
  exact stage_of_used (by rw [hen]) (by rw [hen])

theorem Local.stage_of_ne (hl : Local t od st st') {h : ι × Od} (hne : h ≠ (t, od)) :
    st'.stage h = st.stage h := by
  obtain ⟨u, d⟩ := h
  by_cases hu : u = t
  · subst hu
    have hd : d ≠ od := fun hd => hne (by rw [hd])
    rw [stage_of_only hl.after hd, stage_of_only hl.before hd]
    exact hl.entry_stage_of_ne hne
  unfold State.stage
  simp [hl.pc_of_ne hu, hl.entry_stage_of_ne hne]

theorem Local.of_update [DecidableEq ι] {pc : Pc} (hpc : st'.pc = update st.pc t pc)
    (hent : ∀ {u d}, (u, d) ≠ (t, od) → st'.entry u d = st.entry u d) (hold : (st.pc t).Only od)
    (hnew : pc.Only od) : Local t od st st' := by
  constructor
  · intro u hu
    rw [hpc]
    exact update_of_ne hu _ _
  · intro u d hne
    exact .inl (hent hne)
  · exact hold
  · rw [hpc, update_self]
    exact hnew

section

variable (hl : Local t od st st')
include hl

theorem Local.view_move [DecidableEq ι] {b : Bool} {c : Int} (hliv : st'.live = update st.live o b)
    (hco : ∀ p, (st'.obj p).count = update (fun p => (st.obj p).count) o c p)
    (hsta : st'.stage (t, od) = s) : st'.view = st.view.move o b c (t, od) s := by
  apply Store.ext
  · exact hliv
  · exact funext hco
  funext h
  by_cases hh : h = (t, od)
  · subst hh
    exact hsta.trans move_stage_self.symm
  exact (hl.stage_of_ne hh).trans (move_stage_of_ne (s := st.view) hh).symm

theorem Local.view_same (hliv : st'.live = st.live)
    (hco : ∀ p, (st'.obj p).count = (st.obj p).count)
    (hsta : st'.stage (t, od) = st.stage (t, od)) : st'.view = st.view := by
  apply Store.ext
  · exact hliv
  · exact funext hco
  funext h
  by_cases hh : h = (t, od)
  · subst hh
    exact hsta
  exact hl.stage_of_ne hh

theorem Local.swept_of_ne (hu : u ≠ t) {next : Then}
    (h : st.Swept u d next) : st'.Swept u d next := by
  cases next with
  | ret value => trivial
  | exit i =>
    intro j hj hjd
    rw [hl.used_of_ne fun heq => hu (Prod.mk.inj heq).1]
    exact h j hj hjd

theorem Local.swept {next : Then} (h : st.Swept t od next) : st'.Swept t od next := by
  cases next with
  | ret value => trivial
  | exit i =>
    intro j hj hjd
    rw [hl.used_of_ne fun heq => hjd (Prod.mk.inj heq).2]
    exact h j hj hjd

end

end

/-! ### Accesses -/

section

variable {st : State ι} {o : ObjId}

theorem access_of_live (ho : st.live o = true) : st.access o = st := by
  unfold State.access
  rw [ho, Bool.not_true, Bool.or_false]

theorem accessAll_of_live {os : List ObjId} (hos : ∀ o ∈ os, st.live o = true) :
    st.accessAll os = st := by
  unfold State.accessAll
  induction os with
  | nil => rfl
  | cons o os ih =>
    rw [foldl_cons, access_of_live (hos o mem_cons_self)]
    exact ih fun p hp => hos p (mem_cons_of_mem o hp)

theorem mem_list_of_visited {i : InodeId} {type : ObjType} {id : BitVec 32}
    (ho : o ∈ st.visited i type id) : o ∈ st.objList i := by
  rcases mem_append.mp ho with ho | ho
  · exact (takeWhile_sublist _).subset ho
  exact mem_of_find?_eq_some (Option.mem_toList.mp ho)

theorem mem_of_mem_neighbours {p : ObjId} {l : List ObjId} (hp : p ∈ State.neighbours o l) :
    p ∈ l := by
  induction l with
  | nil => cases hp
  | cons a l ih =>
    cases l with
    | nil => cases hp
    | cons b rest =>
      unfold State.neighbours at hp
      split at hp
      · rw [mem_singleton] at hp
        simp [hp]
      split at hp
      · rcases mem_cons.mp hp with hp | hp
        · simp [hp]
        have hres := mem_of_head? (Option.mem_toList.mp hp)
        simp [hres]
      exact mem_cons_of_mem a (ih hp)

end

/-! ### The lists of the inodes -/

/-- The live objects are found on the lists of their inodes.  The inodes have `others` other
    references. -/
structure Listing (others : InodeId → Int) (st : State ι) : Prop where
  listed : ∀ {i o}, o ∈ st.objList i ↔ st.live o = true ∧ (st.obj o).inode = i
  nodup : ∀ i, (st.objList i).Nodup
  once : ∀ o, st.destroyed o ≤ 1
  fresh : ∀ {o}, st.next ≤ o → st.destroyed o = 0
  /-- every object keeps a reference to its inode -/
  kept : ∀ i, st.iCount i = others i + (st.objList i).length

section

variable {others : InodeId → Int} {st st' : State ι} {o : ObjId} {e : InodeObj}

theorem live_iff : st.live o = true ↔ o < st.next ∧ st.destroyed o = 0 := by
  simp [State.live]

theorem not_live_next : st.live st.next = false := by
  simp [State.live]

theorem Listing.quiet (h : Listing others st) (hq : Quiet st st') : Listing others st' := by
  constructor
  · intro i o
    rw [hq.objList_eq, hq.live_eq, hq.inode_eq]
    exact h.listed
  · rw [hq.objList_eq]
    exact h.nodup
  · rw [hq.destroyed_eq]
    exact h.once
  · rw [hq.next_eq, hq.destroyed_eq]
    exact h.fresh
  · rw [hq.iCount_eq, hq.objList_eq]
    exact h.kept

/-- `st'` has a new object on the list of its inode. -/
structure Created (e : InodeObj) (st st' : State ι) : Prop where
  obj_eq : st'.obj = update st.obj st.next e
  next_eq : st'.next = st.next + 1
  destroyed_eq : st'.destroyed = st.destroyed
  objList_eq : st'.objList = update st.objList e.inode (st.next :: st.objList e.inode)
  iCount_eq : st'.iCount = update st.iCount e.inode (st.iCount e.inode + 1)

theorem Created.live_eq (hc : Created e st st') (h : Listing others st) :
    st'.live = update st.live st.next true := by
  funext o
  by_cases ho : o = st.next
  · subst ho
    rw [update_self, live_iff, hc.next_eq, hc.destroyed_eq]
    exact ⟨Nat.lt_succ_self _, h.fresh le_rfl⟩
  have hlt : o < st.next + 1 ↔ o < st.next :=
    ⟨fun h => lt_of_le_of_ne (Nat.lt_succ_iff.mp h) ho, Nat.lt_succ_of_lt⟩
  rw [update_of_ne ho, State.live, State.live, hc.next_eq, hc.destroyed_eq]
  simp [hlt]

theorem Created.obj_of_live (hc : Created e st st') (ho : st.live o = true) :
    st'.obj o = st.obj o := by
  have hne : o ≠ st.next := ne_of_lt (live_iff.mp ho).1
  rw [hc.obj_eq]
  exact update_of_ne hne _ _

theorem Listing.create (h : Listing others st) (hc : Created e st st') : Listing others st' := by
  have hun : ∀ {j}, st.next ∉ st.objList j := by
    intro j hm
    cases not_live_next.symm.trans (h.listed.mp hm).1
  constructor
  · intro j o
    rw [hc.objList_eq, hc.live_eq h, hc.obj_eq]
    by_cases ho : o = st.next
    · subst ho
      by_cases hj : j = e.inode
      · subst hj
        simp
      rw [update_of_ne hj]
      simp [hun, Ne.symm hj]
    rw [update_of_ne ho, update_of_ne ho, ← h.listed]
    by_cases hj : j = e.inode
    · subst hj
      simp [ho]
    rw [update_of_ne hj]
  · intro j
    rw [hc.objList_eq]
    by_cases hj : j = e.inode
    · subst hj
      rw [update_self, nodup_cons]
      exact ⟨hun, h.nodup _⟩
    rw [update_of_ne hj]
    exact h.nodup j
  · rw [hc.destroyed_eq]
    exact h.once
  · intro o ho
    rw [hc.next_eq] at ho
    rw [hc.destroyed_eq]
    exact h.fresh (Nat.le_of_succ_le ho)
  · intro j
    have hk := h.kept j
    rw [hc.objList_eq, hc.iCount_eq]
    by_cases hj : j = e.inode
    · subst hj
      rw [update_self, update_self, length_cons]
      omega
    rw [update_of_ne hj, update_of_ne hj]
    exact hk

/-- Object `o` has been destroyed and taken off the list of inode `i`. -/
structure Destroyed (o : ObjId) (i : InodeId) (st st' : State ι) : Prop where
  obj_eq : st'.obj = st.obj
  next_eq : st'.next = st.next
  destroyed_eq : st'.destroyed = update st.destroyed o (st.destroyed o + 1)
  objList_eq : st'.objList = update st.objList i ((st.objList i).erase o)
  iCount_eq : st'.iCount = update st.iCount i (st.iCount i - 1)

theorem Destroyed.live_eq {i : InodeId} (hd : Destroyed o i st st') :
    st'.live = update st.live o false := by
  funext p
  by_cases hp : p = o
  · subst hp
    simp [State.live, hd.destroyed_eq]
  simp [State.live, hd.destroyed_eq, hd.next_eq, hp]

theorem Listing.destroy {i : InodeId} (h : Listing others st) (hd : Destroyed o i st st')
    (hm : o ∈ st.objList i) : Listing others st' := by
  obtain ⟨hl, hinode⟩ := h.listed.mp hm
  obtain ⟨hlt, h0⟩ := live_iff.mp hl
  constructor
  · intro j p
    rw [hd.objList_eq, hd.live_eq, hd.obj_eq]
    by_cases hj : j = i
    · subst hj
      rw [update_self, (h.nodup j).mem_erase_iff, h.listed]
      by_cases hp : p = o
      · subst hp
        simp
      simp [hp]
    rw [update_of_ne hj, h.listed]
    by_cases hp : p = o
    · subst hp
      simp [hinode, Ne.symm hj]
    simp [hp]
  · intro j
    rw [hd.objList_eq]
    by_cases hj : j = i
    · subst hj
      rw [update_self]
      exact (h.nodup j).erase o
    rw [update_of_ne hj]
    exact h.nodup j
  · intro p
    rw [hd.destroyed_eq]
    by_cases hp : p = o
    · subst hp
      rw [update_self, h0]
    rw [update_of_ne hp]
    exact h.once p
  · intro p hp
    rw [hd.next_eq] at hp
    rw [hd.destroyed_eq, update_of_ne (ne_of_gt (lt_of_lt_of_le hlt hp))]
    exact h.fresh hp
  · intro j
    have hk := h.kept j
    rw [hd.objList_eq, hd.iCount_eq]
    by_cases hj : j = i
    · subst hj
      have hpos : 0 < (st.objList j).length := length_pos_of_mem hm
      rw [update_self, update_self, length_erase_of_mem hm]
      omega
    rw [update_of_ne hj, update_of_ne hj]
    exact hk

end

/-! ### The invariant -/

variable [Fintype ι]

/-- The objects are counted exactly and are found on the lists of their inodes. -/
structure Inv (others : InodeId → Int) (st : State ι) : Prop extends Listing others st where
  sound : Sound st.view
  no_fault : st.fault = false
  named : ∀ {t od}, (st.entry t od).used = true →
    (∀ i type id, st.pc t ≠ .locking od i type id) → ∃ o, (st.entry t od).obj = some o
  placed : ∀ t, st.Placed t (st.pc t)
  exclusive : ∀ {t u od o next od' o' next' i}, st.pc t = .destroying od o i next →
    st.pc u = .destroying od' o' i next' → t = u

theorem Inv.init (others : InodeId → Int) : Inv others (State.init others : State ι) := by
  have hsta : ∀ h : ι × Od, (State.init others : State ι).view.stage h = .idle := fun _ => rfl
  have hl : ∀ o, (State.init others : State ι).live o = false := by
    intro o
    simp [State.live, State.init]
  constructor
  · constructor
    · intro i o
      constructor
      · intro ho
        cases ho
      rintro ⟨ho, -⟩
      cases (hl o).symm.trans ho
    · intro i
      exact nodup_nil
    · intro o
      exact Nat.zero_le _
    · intro o _
      rfl
    · intro i
      exact (Int.add_zero _).symm
  · constructor
    · intro o ho
      cases (hl o).symm.trans ho
    · intro h o ho
      cases ho
    · intro h o ho
      cases ho
    · intro o ho
      cases (hl o).symm.trans ho
  · rfl
  · intro t od huse
    cases huse
  · intro t
    trivial
  · intro t u od o next od' o' next' i ht
    cases ht

section

variable {others : InodeId → Int} {t : ι} {od : Od} {st st' : State ι}

theorem Inv.live_of_busy (h : Inv others st) {u : ι} {d : Od} {s : Stage ObjId} {o : ObjId}
    (hpc : (st.pc u).stage = some (d, s)) (hs : s.object = some o) : st.live o = true := by
  apply h.sound.live_of_object (h := (u, d))
  change (st.stage (u, d)).object = some o
  rw [stage_of_busy hpc]
  exact hs

theorem Inv.not_condemned {o : ObjId} (h : Inv others st)
    (hmutex : st.mutex (st.obj o).inode = false) (k : ι × Od) : st.view.stage k ≠ .condemned o := by
  obtain ⟨u, d⟩ := k
  intro hk
  obtain ⟨i, next, hpc⟩ := pc_of_condemned hk
  have hpl := h.placed u
  rw [hpc] at hpl
  obtain ⟨rfl, hlo, -⟩ := hpl
  rw [hmutex] at hlo
  cases hlo

theorem Inv.holding_of_used (h : Inv others st) (hpc : (st.pc t).stage = none)
    (hus : (st.entry t od).used = true) :
    ∃ o, (st.entry t od).obj = some o ∧ st.stage (t, od) = .holding o ∧ st.live o = true := by
  obtain ⟨o, ho⟩ := h.named hus (by intro i type id hloc; rw [hloc] at hpc; cases hpc)
  have hst : st.stage (t, od) = .holding o := by
    rw [stage_of_none hpc]
    exact stage_of_used hus ho
  refine ⟨o, ho, hst, ?_⟩
  apply h.sound.live_of_object (h := (t, od))
  change (st.stage (t, od)).object = some o
  rw [hst]
  rfl

section

variable (h : Inv others st) (hl : Local t od st st')
  (hinode : ∀ o, st.live o = true → (st'.obj o).inode = (st.obj o).inode)
  (hmutex : ∀ {u d o i next}, u ≠ t → st.pc u = .destroying d o i next → st'.mutex i = true)

include h hl hinode hmutex

theorem Inv.placed_of_ne {u : ι} (hu : u ≠ t) : st'.Placed u (st'.pc u) := by
  have hpl := h.placed u
  have hne : ∀ d, (u, d) ≠ (t, od) := fun d heq => hu (Prod.mk.inj heq).1
  rw [hl.pc_of_ne hu]
  cases hpc : st.pc u with
  | user => trivial
  | exited => trivial
  | locking d i type id => trivial
  | opening d idx =>
    rw [hpc] at hpl
    exact (hl.used_of_ne (hne d)).trans hpl
  | putting d next =>
    rw [hpc] at hpl
    exact ⟨(hl.used_of_ne (hne d)).trans hpl.1, hl.swept_of_ne hu hpl.2⟩
  | rechecking d o i next =>
    rw [hpc] at hpl
    have hli : st.live o = true := h.live_of_busy (u := u) (by rw [hpc]; rfl) rfl
    exact ⟨(hinode o hli).trans hpl.1, hl.swept_of_ne hu hpl.2⟩
  | destroying d o i next =>
    rw [hpc] at hpl
    have hli : st.live o = true := h.live_of_busy (u := u) (by rw [hpc]; rfl) rfl
    exact ⟨(hinode o hli).trans hpl.1, hmutex hu hpc, hl.swept_of_ne hu hpl.2.2⟩
  | clearing d next =>
    rw [hpc] at hpl
    exact hl.swept_of_ne hu hpl
  | exiting i =>
    rw [hpc] at hpl
    intro j hj
    exact (hl.used_of_ne (hne j)).trans (hpl j hj)

/-- If one task has moved on with one descriptor, only that descriptor and the lists have to
    be looked at. -/
theorem Inv.step
    (hlis : Listing others st') (hsou : Sound st'.view) (hfau : st'.fault = false)
    (hnam : (st'.entry t od).used = true → (∀ i type id, st'.pc t ≠ .locking od i type id) →
      ∃ o, (st'.entry t od).obj = some o) (hpl : st'.Placed t (st'.pc t))
    (hex : ∀ {d o i next}, st'.pc t = .destroying d o i next →
      ∀ {u d' o' next'}, u ≠ t → st.pc u ≠ .destroying d' o' i next') : Inv others st' where
  toListing := hlis
  sound := hsou
  no_fault := hfau
  named := by
    intro u d hus hpc
    by_cases hud : (u, d) = (t, od)
    · cases hud
      exact hnam hus hpc
    rcases hl.entry_of_ne hud with heq | ⟨hnew, -⟩
    · rw [heq] at hus ⊢
      apply h.named hus
      intro i type id hlo
      by_cases hu : u = t
      · subst hu
        -- the task was opening `od`, not `d`
        exact hud (by rw [hl.before d .idle (by rw [hlo]; rfl)])
      exact hpc i type id ((hl.pc_of_ne hu).trans hlo)
    rw [hnew] at hus
    cases hus
  placed := by
    intro u
    by_cases hu : u = t
    · subst hu
      exact hpl
    exact h.placed_of_ne hl hinode hmutex hu
  exclusive := by
    intro u v d o next d' o' next' i hu hv
    by_cases hut : u = t
    · subst hut
      by_contra hvu
      exact hex hu (Ne.symm hvu) ((hl.pc_of_ne (Ne.symm hvu)).symm.trans hv)
    by_cases hvt : v = t
    · subst hvt
      exact absurd ((hl.pc_of_ne hut).symm.trans hu) (hex hv hut)
    exact h.exclusive ((hl.pc_of_ne hut).symm.trans hu) ((hl.pc_of_ne hvt).symm.trans hv)

end

theorem Inv.frame (h : Inv others st) (hl : Local t od st st') (hq : Quiet st st')
    (hmutex : ∀ {i}, st.mutex i = true → st'.mutex i = true) (hsou : Sound st'.view)
    (hnam : (st'.entry t od).used = true → (∀ i type id, st'.pc t ≠ .locking od i type id) →
      ∃ o, (st'.entry t od).obj = some o) (hpl : st'.Placed t (st'.pc t))
    (hexc : ∀ {d o i next}, st'.pc t = .destroying d o i next →
      ∀ {u d' o' next'}, u ≠ t → st.pc u ≠ .destroying d' o' i next') : Inv others st' := by
  refine h.step hl (fun o _ => hq.inode_eq o) ?_ (h.toListing.quiet hq) hsou ?_ hnam hpl
    hexc
  · intro u d o i next _ hu
    have hpl := h.placed u
    rw [hu] at hpl
    exact hmutex hpl.2.1
  rw [hq.fault_eq]
  exact h.no_fault

end

end Litmus.Fdso
