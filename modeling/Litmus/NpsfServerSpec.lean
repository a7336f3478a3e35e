import Litmus.NpsfServer

/-!
# What the server operations do

One specification for each operation that runs under the server lock: where it leaves
every task, and that it keeps the heaps ordered when the priorities are an order.
-/

namespace Litmus.Npsf

open BinomialForest Multiset

/-! ### Tables that differ in the flags -/

/-- `task'` is `task` up to the real-time flags. -/
def SameButFlags (task task' : TaskTable) : Prop :=
  ∀ u, task' u = RtTask.setRtFlags (task' u).flags (task u)

theorem SameButFlags.refl (task : TaskTable) : SameButFlags task task := fun _ => rfl

theorem SameButFlags.trans {task1 task2 task3 : TaskTable} (h1 : SameButFlags task1 task2)
    (h2 : SameButFlags task2 task3) : SameButFlags task1 task3 := by
  intro u
  rw [h2 u, h1 u]
  rfl

theorem sameButFlags_modify (task : TaskTable) (t : TaskId) (f : RtFlag) :
    SameButFlags task (task.modify t (RtTask.setRtFlags f)) := by
  intro u
  by_cases hu : u = t
  · subst hu
    rw [TaskTable.modify_self]
    rfl
  rw [TaskTable.modify_of_ne _ _ hu]
  rfl

section

variable {task task' : TaskTable} (h : SameButFlags task task')
include h

theorem SameButFlags.realtime (u : TaskId) : (task' u).realtime = (task u).realtime := by
  rw [h u]
  rfl

theorem SameButFlags.running (u : TaskId) : (task' u).running = (task u).running := by
  rw [h u]
  rfl

theorem SameButFlags.job (u : TaskId) : (task' u).job = (task u).job := by
  rw [h u]
  rfl

theorem SameButFlags.params (u : TaskId) : (task' u).params = (task u).params := by
  rw [h u]
  rfl

theorem SameButFlags.inhTask (u : TaskId) : (task' u).inhTask = (task u).inhTask := by
  rw [h u]
  rfl

theorem SameButFlags.order : edfReadyOrder task' = edfReadyOrder task := by
  apply edfReadyOrder_congr
  intro u
  rw [h u]
  rfl

end

namespace NpsfServer

variable {s s' : NpsfServer} {t : TaskId}

def places (s : NpsfServer) : Multiset TaskId := Heap.cached s.highestPrio + s.dom.queued

def Best (s : NpsfServer) : Prop :=
  ∀ h, s.highestPrio = some h → ∀ x ∈ s.dom.readyQueue.elems, ¬s.order x h

/-! ### requeue -/

/-- The outcome of putting `t` back into a queue. -/
structure Requeued (s : NpsfServer) (t : TaskId) (s' : NpsfServer) : Prop where
  task : s'.task = s.task.modify t (RtTask.setRtFlags .running)
  highestPrio : s'.highestPrio = s.highestPrio
  contents :
    s'.dom.readyQueue.elems = t ::ₘ s.dom.readyQueue.elems ∧ s'.dom.waiting = s.dom.waiting ∨
      s'.dom.readyQueue.elems = s.dom.readyQueue.elems ∧ s'.dom.waiting = t ::ₘ s.dom.waiting
  sorted : ∀ S, StrictWeakOn s.order S → (∀ x ∈ t ::ₘ s.dom.queued, x ∈ S) →
    s.dom.Sorted s.order → s'.dom.Sorted s'.order

theorem Requeued.same (h : Requeued s t s') : SameButFlags s.task s'.task := by
  rw [h.task]
  exact sameButFlags_modify s.task t .running

theorem Requeued.queued (h : Requeued s t s') : s'.dom.queued = t ::ₘ s.dom.queued := by
  rcases h.contents with ⟨hr, hw⟩ | ⟨hr, hw⟩
  · rw [RtDomain.queued, hr, hw, cons_add]
    rfl
  rw [RtDomain.queued, hr, hw, add_cons]
  rfl

theorem requeue_spec (now : LtTime) (ht : t ∉ s.dom.queued) :
    ∃ s', s.requeue now t = some s' ∧ Requeued s t s' := by
  have hq : s.dom.isQueued t = false := by
    rw [Bool.eq_false_iff]
    exact fun h => ht (RtDomain.isQueued_iff.mp h)
  have hor : (s.modifyTask t (RtTask.setRtFlags .running)).order = s.order :=
    (sameButFlags_modify s.task t .running).order
  unfold requeue
  rw [hq, if_neg Bool.false_ne_true]
  simp only [hor]
  split
  · rw [show (s.modifyTask t (RtTask.setRtFlags .running)).dom = s.dom from rfl,
      RtDomain.addReady_eq ht]
    refine ⟨_, rfl, rfl, rfl, .inl ⟨Heap.elems_insert _ _ _, rfl⟩, ?_⟩
    intro S hS hm hso
    change RtDomain.Sorted (s.modifyTask t (RtTask.setRtFlags .running)).order _
    rw [hor]
    exact hso.insertReady hS hm
  refine ⟨_, rfl, rfl, rfl, .inr ⟨rfl, RtDomain.waiting_addRelease _ _ _ _⟩, ?_⟩
  intro S hS hm hso
  change RtDomain.Sorted (s.modifyTask t (RtTask.setRtFlags .running)).order _
  rw [hor]
  exact hso.addRelease hS _ hm

/-! ### npsf_reschedule_server -/

structure Rescheduled (s s' : NpsfServer) : Prop where
  same : SameButFlags s.task s'.task
  places : s'.places = s.places
  idle : s'.highestPrio = none → s'.dom.readyQueue.elems = 0
  sorted : ∀ S, StrictWeakOn s.order S → (∀ x ∈ s.places, x ∈ S) →
    s.dom.Sorted s.order → s'.dom.Sorted s'.order ∧ s'.Best

theorem mem_places {x : TaskId} : x ∈ s.places ↔ s.highestPrio = some x ∨ x ∈ s.dom.queued := by
  rw [places, mem_add]
  cases s.highestPrio <;> simp [Heap.cached, eq_comm]

theorem mem_queued_places {x : TaskId} (h : x ∈ s.dom.queued) :
    x ∈ s.places := mem_places.mpr (.inr h)

theorem places_setDom {dom : RtDomain} (h : dom.queued = s.dom.queued) :
    places { s with dom := dom } = s.places := by
  rw [places, places, h]

theorem rescheduled_of_not_needed (hrt : ∀ h, s.highestPrio = some h → (s.task h).realtime = true)
    (hne : (edfPreemptionNeeded s.task s.dom s.highestPrio).1 = false) :
    Rescheduled s { s with dom := (edfPreemptionNeeded s.task s.dom s.highestPrio).2 } := by
  obtain ⟨hr, hwai⟩ := edfPreemptionNeeded_contents s.task s.dom s.highestPrio
  refine ⟨SameButFlags.refl _, places_setDom ?_, ?_, ?_⟩
  · rw [RtDomain.queued, hr, hwai]
    rfl
  · intro hn
    simp only at hn ⊢
    rw [hr]
    rw [hn, edfPreemptionNeeded_none] at hne
    by_contra h0
    rw [RtDomain.jobsPending_iff.mpr h0] at hne
    cases hne
  intro S hS hm hso
  have hqu : ∀ x ∈ s.dom.queued, x ∈ S := fun x hx => hm x (mem_queued_places hx)
  refine ⟨sorted_edfPreemptionNeeded hS hqu hso _, ?_⟩
  intro h hh x hx
  simp only at hh hx
  rw [hr] at hx
  rw [hh] at hne
  exact not_higher_of_not_needed hS hqu hso (hm h (mem_places.mpr (.inl hh)))
    (hrt h hh) hne x hx

/-- The server after its best ready task was taken, the old one not yet requeued. -/
def promoted (s : NpsfServer) : NpsfServer :=
  takeHighest { s with dom := (edfPreemptionNeeded s.task s.dom s.highestPrio).2 }

theorem promoted_spec (hnee : (edfPreemptionNeeded s.task s.dom s.highestPrio).1 = true) :
    ∃ m, s.promoted.highestPrio = some m ∧
      s.dom.readyQueue.elems = m ::ₘ s.promoted.dom.readyQueue.elems ∧
      s.promoted.dom.waiting = s.dom.waiting := by
  obtain ⟨hr, hwai⟩ := edfPreemptionNeeded_contents s.task s.dom s.highestPrio
  have hne := jobsPending_of_needed hnee
  cases hm : s.promoted.highestPrio with
  | none =>
    rw [← hr] at hne
    exact absurd (RtDomain.takeReady_eq_none.mp hm) hne
  | some m =>
    refine ⟨m, rfl, ?_, hwai⟩
    rw [← hr]
    exact RtDomain.ready_takeReady_some hm

theorem promoted_places (hne : (edfPreemptionNeeded s.task s.dom s.highestPrio).1 = true) :
    s.promoted.places = s.dom.queued := by
  obtain ⟨m, hm, hr, hwai⟩ := promoted_spec hne
  rw [places, hm, RtDomain.queued, RtDomain.queued, hr, hwai, Heap.cached, singleton_add, cons_add]

theorem promoted_sorted {S : Set TaskId} (hS : StrictWeakOn s.order S)
    (hme : ∀ x ∈ s.dom.queued, x ∈ S) (hso : s.dom.Sorted s.order) :
    s.promoted.dom.Sorted s.order ∧ ∀ m, s.promoted.highestPrio = some m →
      ∀ x ∈ s.dom.readyQueue.elems, ¬s.order x m := by
  obtain ⟨hr, hwai⟩ := edfPreemptionNeeded_contents s.task s.dom s.highestPrio
  constructor
  · refine (sorted_edfPreemptionNeeded hS hme hso _).takeReady hS fun x hx => hme x ?_
    rw [RtDomain.queued, hr, hwai] at hx
    exact hx
  intro m hm
  exact taken_best hS hme hso hm

theorem npsfRescheduleServer_of_needed (now : LtTime)
    (hne : (edfPreemptionNeeded s.task s.dom s.highestPrio).1 = true) :
    s.npsfRescheduleServer now = match s.highestPrio with
      | some t => s.promoted.requeue now t
      | none => some s.promoted := by
  simp only [npsfRescheduleServer, hne, if_true]
  rfl

theorem rescheduled_promoted (hn : s.highestPrio = none)
    (hne : (edfPreemptionNeeded s.task s.dom s.highestPrio).1 = true) :
    Rescheduled s s.promoted := by
  obtain ⟨m, hm, hr, hwai⟩ := promoted_spec hne
  refine ⟨SameButFlags.refl _, ?_, ?_, ?_⟩
  · rw [promoted_places hne, places, hn, Heap.cached, zero_add]
  · intro hm'
    rw [hm] at hm'
    cases hm'
  intro S hS hmem hso
  obtain ⟨hsorted', hbes⟩ := promoted_sorted hS (fun x hx => hmem x (mem_queued_places hx))
    hso
  refine ⟨hsorted', fun h hh x hx => hbes h hh x ?_⟩
  rw [hr]
  exact mem_cons_of_mem hx

theorem rescheduled_requeued {h : TaskId} (hh : s.highestPrio = some h)
    (hrt : (s.task h).realtime = true)
    (hne : (edfPreemptionNeeded s.task s.dom s.highestPrio).1 = true)
    (hrq : Requeued s.promoted h s') : Rescheduled s s' := by
  obtain ⟨m, hm, hrd, hwai⟩ := promoted_spec hne
  have hm' : s'.highestPrio = some m := by rw [hrq.highestPrio, hm]
  refine ⟨hrq.same, ?_, ?_, ?_⟩
  · have hsp := promoted_places hne
    rw [places, hm] at hsp
    rw [places, hm', hrq.queued, places, hh, ← hsp, add_cons]
    rfl
  · intro hn
    rw [hm'] at hn
    cases hn
  intro S hS hme hso
  have hqu : ∀ x ∈ s.dom.queued, x ∈ S := fun x hx => hme x (mem_queued_places hx)
  have hhS : h ∈ S := hme h (mem_places.mpr (.inl hh))
  have hmre : m ∈ s.dom.readyQueue.elems := by
    rw [hrd]
    exact mem_cons_self m _
  have hmS : m ∈ S := hqu m (RtDomain.mem_queued.mpr (.inl hmre))
  obtain ⟨hsorted', hbe⟩ := promoted_sorted hS hqu hso
  have hord : s'.order = s.order := hrq.same.order
  have hbeh : ¬s.order h m := by
    rw [hh] at hne
    refine hS.asymm m hmS h hhS (taken_higher_of_needed hrt hne ?_)
    rw [← hm, promoted, hh]
    rfl
  refine ⟨hrq.sorted S hS ?_ hsorted', ?_⟩
  · intro x hx
    rcases mem_cons.mp hx with rfl | hx
    · exact hhS
    apply hqu x
    rw [← promoted_places hne]
    exact mem_queued_places hx
  intro g hg x hx
  rw [hm', Option.some.injEq] at hg
  subst hg
  rw [hord]
  rcases hrq.contents with ⟨hr, _⟩ | ⟨hr, _⟩
  · rw [hr] at hx
    rcases mem_cons.mp hx with rfl | hx
    · exact hbeh
    exact hbe m hm x (by rw [hrd]; exact mem_cons_of_mem hx)
  rw [hr] at hx
  exact hbe m hm x (by rw [hrd]; exact mem_cons_of_mem hx)

theorem npsfRescheduleServer_spec (now : LtTime)
    (hhp : ∀ h, s.highestPrio = some h → h ∉ s.dom.queued ∧ (s.task h).realtime = true) :
    ∃ s', s.npsfRescheduleServer now = some s' ∧ Rescheduled s s' := by
  cases hne : (edfPreemptionNeeded s.task s.dom s.highestPrio).1 with
  | false =>
    refine ⟨_, ?_, rescheduled_of_not_needed (fun h hh => (hhp h hh).2) hne⟩
    simp [npsfRescheduleServer, hne]
  | true =>
    rw [npsfRescheduleServer_of_needed now hne]
    cases hh : s.highestPrio with
    | none => exact ⟨_, rfl, rescheduled_promoted hh hne⟩
    | some h =>
      obtain ⟨hn, hrt⟩ := hhp h hh
      have hnot' : h ∉ s.promoted.dom.queued := by
        intro hin
        apply hn
        rw [← promoted_places hne]
        exact mem_queued_places hin
      obtain ⟨s', hs', hrq⟩ := requeue_spec now hnot'
      exact ⟨s', hs', rescheduled_requeued hh hrt hne hrq⟩

end NpsfServer

end Litmus.Npsf
