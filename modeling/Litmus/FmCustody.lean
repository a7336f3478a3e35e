import Litmus.FmPlaces

/-!
# The tasks in the custody of an EDF-fm machine

The invariant is stated for a custody of the machine's tasks that may leave out one task
that an operation has in hand.  The operations pick a task up, change it, put it down and
take the next one.
-/

namespace Litmus.EdfFm

open BinomialForest Custody FmTask Function Multiset

namespace FmState

variable {n : Nat}

/-! ### The invariant -/

/-- The tasks in custody `H`, which are all live tasks but those of `out`. -/
structure Core (H : Place n → Multiset TaskId) (out : TaskId → Prop) (st : FmState n) :
    Prop where
  sound : Sound H (fun u => ¬out u ∧ st.Live u)
  /-- a CPU holds only its own tasks -/
  partition : ∀ {p : Place n} {c : Fin n} {t : TaskId}, p.cpu = some c → t ∈ H p →
    (st.task t).params.cpu.toNat = c.val
  /-- a scheduled task is on its CPU -/
  here : ∀ {c : Fin n} {t : TaskId}, t ∈ H (.slot c) → (st.task t).isMigratTask = true →
    st.taskCpu t = c.val
  /-- a blocked task last ran on its CPU -/
  blocked : ∀ t, ¬out t → (st.task t).realtime = true → (st.task t).running = false →
    (st.task t).isMigratTask = true → st.taskCpu t = (st.task t).params.cpu.toNat
  online : ∀ t, (st.task t).realtime = true → (st.task t).params.cpu.toNat < n ∧
    ((st.task t).isMigratTask = true → ∀ i, ((st.task t).cpus i).toNat < n)
  /-- a blocked task that a CPU has just migrated away does not belong there any more -/
  stale : ∀ {c : Fin n} {t : TaskId}, st.call c ≠ .idle → (st.dom c).scheduled = some t →
    (st.task t).running = false → (st.task t).params.cpu.toNat ≠ c.val

def FmInv (st : FmState n) : Prop := Core st.held (fun _ => False) st

/-- The custody of a machine without the slot of CPU `c`. -/
def heldBut (c : Fin n) (st : FmState n) : Place n → Multiset TaskId :=
  update st.held (.slot c) 0

@[simp] theorem heldBut_self (c : Fin n) (st : FmState n) : st.heldBut c (.slot c) = 0 :=
  update_self _ _ _

theorem heldBut_of_ne {c : Fin n} {st : FmState n} {q : Place n} (hq : q ≠ .slot c) :
    st.heldBut c q = st.held q := update_of_ne hq _ _

theorem heldBut_congr {c : Fin n} {st st' : FmState n} {q : Place n} (h : st'.held q = st.held q) :
    st'.heldBut c q = st.heldBut c q := by
  by_cases hq : q = .slot c
  · rw [hq, heldBut_self, heldBut_self]
  rw [heldBut_of_ne hq, heldBut_of_ne hq, h]

section

variable {H H' : Place n → Multiset TaskId} {out : TaskId → Prop} {st st' : FmState n}
  {c : Fin n} {t : TaskId} {p : FmTask}

/-! ### Rules -/

theorem fields_of_view {p q : FmTask} (h : p.view = q.view) :
    p.realtime = q.realtime ∧ p.running = q.running ∧ p.params.cpu = q.params.cpu ∧
      p.isMigratTask = q.isMigratTask ∧ p.cpus = q.cpus := by
  simp only [view, Prod.mk.injEq] at h
  obtain ⟨hrt, hr, hc, hnr, hcpu⟩ := h
  refine ⟨hrt, hr, hc, ?_, hcpu⟩
  rw [isMigratTask, hnr]
  rfl

theorem live_of_view (h : ∀ u, (st'.task u).view = (st.task u).view) (u : TaskId) :
    st'.Live u ↔ st.Live u := by
  have hvi := fields_of_view (h u)
  rw [Live, Live, hvi.1, hvi.2.1]

theorem Core.same (h : Core H out st) (hsa : Same st st') (hh : ∀ q, H' q = H q) :
    Core H' out st' := by
  have hvi := fun u => fields_of_view (hsa.view u)
  constructor
  · apply h.sound.congr hh
    intro u
    rw [live_of_view hsa.view u]
  · intro q c u hq hu
    rw [hh] at hu
    rw [(hvi u).2.2.1]
    exact h.partition hq hu
  · intro c u hu hmi
    rw [hh] at hu
    rw [(hvi u).2.2.2.1] at hmi
    rw [hsa.taskCpu]
    exact h.here hu hmi
  · intro u hout hrt hr hmi
    rw [(hvi u).1] at hrt
    rw [(hvi u).2.1] at hr
    rw [(hvi u).2.2.2.1] at hmi
    rw [hsa.taskCpu, (hvi u).2.2.1]
    exact h.blocked u hout hrt hr hmi
  · intro u hrt
    rw [(hvi u).1] at hrt
    rw [(hvi u).2.2.1, (hvi u).2.2.2.1, (hvi u).2.2.2.2]
    exact h.online u hrt
  · intro c u hca hs hr
    rw [hsa.call] at hca
    rw [hsa.slots] at hs
    rw [(hvi u).2.1] at hr
    rw [(hvi u).2.2.1]
    exact h.stale hca hs hr

theorem FmInv.pickUp (h : FmInv st) (hcal : st.call c = .idle)
    (hs : (st.dom c).scheduled = some t) : Core (st.heldBut c) (· = t) st := by
  have hcac : st.held (.slot c) = t ::ₘ st.heldBut c (.slot c) := by
    rw [heldBut_self]
    simp only [held, hcal, if_true, hs]
    rfl
  have hsu : ∀ q u, u ∈ st.heldBut c q → u ∈ st.held q := by
    intro q u hu
    by_cases hq : q = .slot c
    · rw [hq, heldBut_self] at hu
      exact absurd hu (notMem_zero u)
    rwa [heldBut_of_ne hq] at hu
  constructor
  · apply h.sound.leave hcac
    · intro q hq
      exact heldBut_of_ne hq
    intro u
    simp
  · intro q c' u hq hu
    exact h.partition hq (hsu q u hu)
  · intro c' u hu hmi
    exact h.here (hsu _ u hu) hmi
  · intro u _ hrt hr hmi
    exact h.blocked u not_false hrt hr hmi
  · exact h.online
  · exact h.stale

theorem FmInv.takeUp (h : FmInv st) (ht : ¬st.Live t) : Core st.held (· = t) st := by
  constructor
  · apply h.sound.congr (fun _ => rfl)
    intro u
    constructor
    · exact fun hu => ⟨not_false, hu.2⟩
    rintro ⟨-, hu⟩
    exact ⟨fun heq => ht (heq ▸ hu), hu⟩
  · exact h.partition
  · exact h.here
  · intro u _ hrt hr hmig
    exact h.blocked u not_false hrt hr hmig
  · exact h.online
  · exact h.stale

theorem Core.not_held (h : Core H (· = t) st) (q : Place n) : t ∉ H q :=
  h.sound.not_mem (fun hbot => hbot.1 rfl) q

theorem FmInv.apart (h : FmInv st) {q : Place n} (ht : t ∈ st.held q) (hr : ∀ c, q ≠ .ready c)
    (hre : ∀ c, q ≠ .release c) (c : Fin n) : t ∉ (st.dom c).domain.queued := by
  intro hc
  rcases RtDomain.mem_queued.mp hc with hin | hin
  · exact hr c (h.sound.unique (p := q) ht (q := .ready c) hin)
  exact hre c (h.sound.unique (p := q) ht (q := .release c) hin)

theorem FmInv.not_queued (h : FmInv st) (ht : ¬st.Live t) (c : Fin n) :
    t ∉ (st.dom c).domain.queued := by
  have hn := fun q => h.sound.not_mem (t := t) (fun hbot => ht hbot.2) q
  intro hc
  rcases RtDomain.mem_queued.mp hc with hin | hin
  · exact hn (.ready c) hin
  exact hn (.release c) hin

theorem isQueued_eq_false (h : ∀ c, t ∉ (st.dom c).domain.queued) : st.isQueued t = false := by
  rw [Bool.eq_false_iff]
  intro hqu
  obtain ⟨c, hc⟩ := isQueued_iff.mp hqu
  exact h c hc

@[simp] theorem setTask_self : (st.setTask t p).task t = p := update_self _ _ _

theorem setTask_of_ne {u : TaskId} (hu : u ≠ t) : (st.setTask t p).task u = st.task u :=
  update_of_ne hu _ _

theorem Core.setTask (h : Core H (· = t) st) (honl : p.realtime = true → p.params.cpu.toNat < n ∧
      (p.isMigratTask = true → ∀ i, (p.cpus i).toNat < n))
    (hsta : p.running = false → ∀ {c : Fin n}, st.call c ≠ .idle →
      (st.dom c).scheduled = some t → p.params.cpu.toNat ≠ c.val) :
    Core H (· = t) (st.setTask t p) := by
  have hne : ∀ {q u}, u ∈ H q → u ≠ t := by
    rintro q u hu rfl
    exact h.not_held q hu
  constructor
  · apply h.sound.congr (fun _ => rfl)
    intro u
    by_cases hu : u = t
    · simp [hu]
    rw [Live, setTask_of_ne hu]
    rfl
  · intro q c u hq hu
    rw [setTask_of_ne (hne hu)]
    exact h.partition hq hu
  · intro c u hu
    rw [setTask_of_ne (hne hu)]
    exact h.here hu
  · intro u hu
    rw [setTask_of_ne hu]
    exact h.blocked u hu
  · intro u
    by_cases hu : u = t
    · subst hu
      rw [setTask_self]
      exact honl
    rw [setTask_of_ne hu]
    exact h.online u
  · intro c u hca hs
    by_cases hu : u = t
    · subst hu
      rw [setTask_self]
      exact fun hr => hsta hr hca hs
    rw [setTask_of_ne hu]
    exact h.stale hca hs

theorem Core.setTaskCpu (h : Core H (· = t) st) (cpu : Nat) :
    Core H (· = t) { st with taskCpu := update st.taskCpu t cpu } := by
  constructor
  · exact h.sound
  · exact h.partition
  · intro c u hu hmi
    have hne : u ≠ t := by
      rintro rfl
      exact h.not_held _ hu
    exact (update_of_ne hne _ _).trans (h.here hu hmi)
  · intro u hu hrt hr hmi
    exact (update_of_ne hu _ _).trans (h.blocked u hu hrt hr hmi)
  · exact h.online
  · exact h.stale

theorem Core.putDown (h : Core H (· = t) st) {q : Place n} (hl : st.Live t)
    (hhe : H' q = t ::ₘ H q) (ho : ∀ r, r ≠ q → H' r = H r)
    (hc : ∀ c, q.cpu = some c → (st.task t).params.cpu.toNat = c.val)
    (hs : ∀ c, q = .slot c → st.taskCpu t = c.val) : Core H' (fun _ => False) st := by
  have hm : ∀ {r u}, u ∈ H' r → u = t ∧ r = q ∨ u ∈ H r := by
    intro r u hu
    by_cases hr : r = q
    · rw [hr, hhe, mem_cons] at hu
      rcases hu with rfl | hu
      · exact .inl ⟨rfl, hr⟩
      exact .inr (hr ▸ hu)
    rw [ho r hr] at hu
    exact .inr hu
  constructor
  · apply h.sound.enter (b := q) (fun hbot => hbot.1 rfl) hhe ho
    intro u
    by_cases hu : u = t
    · simp [hu, hl]
    simp [hu]
  · intro r c u hr hu
    rcases hm hu with ⟨rfl, rfl⟩ | hu
    · exact hc c hr
    exact h.partition hr hu
  · intro c u hu hmi
    rcases hm hu with ⟨rfl, hr⟩ | hu
    · exact hs c hr.symm
    exact h.here hu hmi
  · intro u _ hrt hru hmi
    refine h.blocked u ?_ hrt hru hmi
    rintro rfl
    exact nomatch (hru.symm.trans hl.2)
  · exact h.online
  · exact h.stale

theorem Core.transfer (h : Core H (fun _ => False) st) {a b : Place n} {moved : Multiset TaskId}
    (hab : a ≠ b) (ha : H a = moved + H' a) (hb : H' b = H b + moved)
    (ho : ∀ q, q ≠ a → q ≠ b → H' q = H q)
    (hc : ∀ c, b.cpu = some c → ∀ u ∈ moved, (st.task u).params.cpu.toNat = c.val)
    (hs : ∀ c, b ≠ .slot c) : Core H' (fun _ => False) st := by
  have hm : ∀ {q u}, u ∈ H' q → q = b ∧ u ∈ moved ∨ u ∈ H q := by
    intro q u hu
    by_cases hqa : q = a
    · rw [hqa, ha]
      exact .inr (mem_add.mpr (.inr (hqa ▸ hu)))
    by_cases hqb : q = b
    · rw [hqb, hb, mem_add] at hu
      rcases hu with hu | hu
      · exact .inr (hqb ▸ hu)
      exact .inl ⟨hqb, hu⟩
    rw [ho q hqa hqb] at hu
    exact .inr hu
  constructor
  · exact h.sound.transfer hab ha hb ho (fun _ => .rfl)
  · intro q c u hq hu
    rcases hm hu with ⟨rfl, hu⟩ | hu
    · exact hc c hq u hu
    exact h.partition hq hu
  · intro c u hu hmig
    rcases hm hu with ⟨hq, -⟩ | hu
    · exact absurd hq.symm (hs c)
    exact h.here hu hmig
  · exact h.blocked
  · exact h.online
  · exact h.stale

/-- The call of a CPU goes on.  When it starts, the scheduled task is running. -/
theorem Core.setCall (h : Core H out st) (k : Call)
    (hsa : ∀ u, (st.dom c).scheduled = some u → (st.task u).running = true ∨
      st.call c ≠ .idle) : Core H out (st.setCall c k) := by
  constructor
  · exact h.sound
  · exact h.partition
  · exact h.here
  · exact h.blocked
  · exact h.online
  · intro c' u hcal hs hr
    by_cases hc : c' = c
    · subst hc
      rcases hsa u hs with hrun' | hcall'
      · exact nomatch (hr.symm.trans hrun')
      exact h.stale hcall' hs hr
    refine h.stale (fun hidl => hcal ?_) hs hr
    exact (update_of_ne hc _ _).trans hidl

theorem Core.letGo (h : Core H (· = t) st) (hn : ¬st.Live t)
    (hc : (st.task t).realtime = true → (st.task t).isMigratTask = true →
      st.taskCpu t = (st.task t).params.cpu.toNat) : Core H (fun _ => False) st := by
  constructor
  · apply h.sound.congr (fun _ => rfl)
    intro u
    constructor
    · rintro ⟨-, hu⟩
      exact ⟨fun heq => hn (heq ▸ hu), hu⟩
    exact fun hu => ⟨not_false, hu.2⟩
  · exact h.partition
  · exact h.here
  · intro u _ hrt hrun' hmi
    by_cases hu : u = t
    · subst hu
      exact hc hrt hmi
    exact h.blocked u hu hrt hrun' hmi
  · exact h.online
  · exact h.stale

/-! ### Selecting the next task -/

theorem ready_takeReady (order : TaskId → TaskId → Bool) (dom : RtDomain) :
    dom.readyQueue.elems = Heap.cached (dom.takeReady order).1 +
      (dom.takeReady order).2.readyQueue.elems := by
  cases hn : (dom.takeReady order).1 with
  | none =>
    rw [RtDomain.ready_takeReady_none hn, RtDomain.takeReady_eq_none.mp hn]
    rfl
  | some u => exact RtDomain.ready_takeReady_some hn

theorem held_takeNext (c : Fin n) (st : FmState n) :
    (st.takeNext c).held (.slot c) = Heap.cached ((st.dom c).domain.takeReady st.order).1 ∧
      (st.takeNext c).held (.ready c) = ((st.dom c).domain.takeReady st.order).2.readyQueue.elems ∧
      (st.takeNext c).held (.leaving c) = 0 ∧
      ∀ q, q ≠ .slot c → q ≠ .ready c → q ≠ .leaving c → (st.takeNext c).held q = st.held q := by
  have hdo : (st.takeNext c).dom = update st.dom c
      { domain := ((st.dom c).domain.takeReady st.order).2,
        scheduled := ((st.dom c).domain.takeReady st.order).1 } := by
    unfold takeNext
    dsimp only
    split <;> rfl
  have hca : (st.takeNext c).call = update st.call c .idle := by
    unfold takeNext
    dsimp only
    split <;> rfl
  have hwak : (st.takeNext c).waking = st.waking := by
    unfold takeNext
    dsimp only
    split <;> rfl
  refine ⟨?_, ?_, ?_, ?_⟩
  · simp [held, hca, hdo]
  · simp [held, hdo]
  · simp [held, hca]
  intro q hs hr hlea
  cases q with
  | slot c' =>
    have hc : c' ≠ c := fun h => hs (h ▸ rfl)
    simp [held, hca, hdo, update_of_ne hc]
  | ready c' =>
    have hc : c' ≠ c := fun h => hr (h ▸ rfl)
    simp [held, hdo, update_of_ne hc]
  | release c' =>
    by_cases hc : c' = c
    · subst hc
      simp only [held, hdo, update_self]
      rfl
    simp [held, hdo, update_of_ne hc]
  | leaving c' =>
    have hc : c' ≠ c := fun h => hlea (h ▸ rfl)
    simp [held, hca, update_of_ne hc]
  | waking => simp [held, hwak]

theorem rest_takeNext (c : Fin n) (st : FmState n) :
    (∀ u, ((st.takeNext c).task u).view = (st.task u).view) ∧ (st.takeNext c).call c = .idle ∧
      (∀ c', c' ≠ c → (st.takeNext c).call c' = st.call c' ∧
        ((st.takeNext c).dom c').scheduled = (st.dom c').scheduled) ∧
      ∀ u, (st.takeNext c).taskCpu u =
        if ((st.dom c).domain.takeReady st.order).1 = some u then c.val else st.taskCpu u := by
  cases hn : ((st.dom c).domain.takeReady st.order).1 with
  | none =>
    have heq : st.takeNext c =
        (st.setCpu c ⟨((st.dom c).domain.takeReady st.order).2, none⟩).setCall c .idle := by
      unfold takeNext
      dsimp only
      rw [hn]
    rw [heq]
    refine ⟨fun _ => rfl, update_self _ _ _, fun c' hc => ?_, fun u => ?_⟩
    · exact ⟨update_of_ne hc _ _, congrArg FmDomain.scheduled (update_of_ne hc _ _)⟩
    simp [setCall, setCpu]
  | some v =>
    have heq : st.takeNext c =
        { ((st.setCpu c ⟨((st.dom c).domain.takeReady st.order).2, some v⟩).setCall c
            .idle).setFlags v .running with taskCpu := update st.taskCpu v c.val } := by
      unfold takeNext
      dsimp only
      rw [hn]
      rfl
    rw [heq]
    refine ⟨fun u => ?_, update_self _ _ _, fun c' hc => ?_, fun u => ?_⟩
    · exact (same_setFlags v .running _).view u
    · exact ⟨update_of_ne hc _ _, congrArg FmDomain.scheduled (update_of_ne hc _ _)⟩
    by_cases hu : u = v
    · subst hu
      simp
    have hne : ¬some v = some u := fun h => hu (Option.some.inj h).symm
    simp [hne, hu]

/-- With the slot of `c` empty, the next task is taken from its ready queue. -/
theorem Core.takeNext (h : Core (st.heldBut c) (fun _ => False) st)
    (hcal : st.held (.leaving c) = 0) : FmInv (st.takeNext c) := by
  obtain ⟨hsl, hr, hle, ho⟩ := held_takeNext c st
  obtain ⟨hvi, hidl, hre, htaskCpu⟩ := rest_takeNext c st
  have hta := ready_takeReady st.order (st.dom c).domain
  have hm : ∀ {q u}, u ∈ (st.takeNext c).held q →
      q = .slot c ∧ u ∈ st.heldBut c (.ready c) ∨ q ≠ .slot c ∧ u ∈ st.heldBut c q := by
    intro q u hu
    have hbut : st.heldBut c (.ready c) = (st.dom c).domain.readyQueue.elems :=
      heldBut_of_ne (by simp)
    by_cases hqs : q = .slot c
    · refine .inl ⟨hqs, ?_⟩
      rw [hqs, hsl] at hu
      rw [hbut, hta]
      exact mem_add.mpr (.inl hu)
    refine .inr ⟨hqs, ?_⟩
    rw [heldBut_of_ne hqs]
    by_cases hqr : q = .ready c
    · rw [hqr, hr] at hu
      rw [hqr, FmState.held, hta]
      exact mem_add.mpr (.inr hu)
    by_cases hql : q = .leaving c
    · rw [hql, hle] at hu
      exact absurd hu (notMem_zero u)
    rwa [ho q hqs hqr hql] at hu
  have hfi := fun u => fields_of_view (hvi u)
  -- only the next task has a new `task_cpu`, and it was ready
  have hnx : ∀ {u}, ((st.dom c).domain.takeReady st.order).1 = some u →
      u ∈ st.heldBut c (.ready c) := by
    intro u hu
    rw [heldBut_of_ne (by simp), FmState.held, hta, hu]
    exact mem_add.mpr (.inl (mem_singleton_self u))
  constructor
  · have hout : st.heldBut c (.ready c) = Heap.cached ((st.dom c).domain.takeReady st.order).1 +
          (st.takeNext c).held (.ready c) := by
      rw [heldBut_of_ne (by simp), hr]
      exact hta
    have hin : (st.takeNext c).held (.slot c) = st.heldBut c (.slot c) +
        Heap.cached ((st.dom c).domain.takeReady st.order).1 := by
      rw [hsl, heldBut_self, zero_add]
    apply h.sound.transfer (by simp) hout hin
    · intro q hqr hqs
      by_cases hql : q = .leaving c
      · rw [hql, hle, heldBut_of_ne (by simp), hcal]
      rw [ho q hqs hqr hql, heldBut_of_ne hqs]
    intro u
    rw [live_of_view hvi u]
  · intro q c' u hq hu
    rw [(hfi u).2.2.1]
    rcases hm hu with ⟨rfl, hu'⟩ | ⟨-, hu'⟩
    · exact h.partition (p := .ready c) hq hu'
    exact h.partition hq hu'
  · intro c' u hu hmi
    rw [(hfi u).2.2.2.1] at hmi
    rw [htaskCpu]
    rcases hm hu with ⟨hq, -⟩ | ⟨hq, hu'⟩
    · have hc : c' = c := by simpa using hq
      subst hc
      have hto : ((st.dom c').domain.takeReady st.order).1 = some u := by
        rw [hsl] at hu
        cases hn : ((st.dom c').domain.takeReady st.order).1 with
        | none => simp [hn, Heap.cached] at hu
        | some v =>
          rw [hn] at hu
          rw [mem_singleton.mp hu]
      rw [if_pos hto]
    split
    · rename_i hto
      have heq := h.sound.unique hu' (hnx hto)
      cases heq
    exact h.here hu' hmi
  · intro u _ hrt hru hmi
    rw [(hfi u).1] at hrt
    rw [(hfi u).2.1] at hru
    rw [(hfi u).2.2.2.1] at hmi
    rw [htaskCpu, (hfi u).2.2.1]
    split
    · rename_i hto
      have hl := (h.sound.live_iff u).mp ⟨_, hnx hto⟩
      cases hru.symm.trans hl.2.2
    exact h.blocked u not_false hrt hru hmi
  · intro u hrt
    rw [(hfi u).1] at hrt
    rw [(hfi u).2.2.1, (hfi u).2.2.2.1, (hfi u).2.2.2.2]
    exact h.online u hrt
  · intro c' u hne hs hru
    by_cases hc : c' = c
    · exact absurd (hc ▸ hidl) hne
    rw [(hre c' hc).1] at hne
    rw [(hre c' hc).2] at hs
    rw [(hfi u).2.1] at hru
    rw [(hfi u).2.2.1]
    exact h.stale hne hs hru

end

end FmState

end Litmus.EdfFm
