import Litmus.NpsfServerSpec

/-!
# The server invariant

Every runnable task of a server has exactly one place, the server idles only when nothing
is ready, and, while the deadlines fit into one window, the server runs its best task.
-/

namespace Litmus.Npsf

open BinomialForest WrapOrder RtDomain TaskTable
open Multiset (notMem_zero nodup_cons mem_cons_of_mem nodup_add cons_add add_cons singleton_add
  erase_cons_head)
open RtDomain (mem_queued isQueued_iff remove_spec)

namespace NpsfServer

variable {s s' : NpsfServer} {base : LtTime} {t prev : TaskId}

structure ServerInv (s : NpsfServer) : Prop where
  nodup : s.places.Nodup
  mem_iff : ∀ t, t ∈ s.places ↔ (s.task t).realtime = true ∧ (s.task t).running = true
  inh : ∀ t, (s.task t).realtime = true → (s.task t).inhTask = none
  idle : s.highestPrio = none → s.dom.readyQueue.elems = 0

structure OrderInv (s : NpsfServer) : Prop where
  sorted : s.dom.Sorted s.order
  best : s.Best

/-- The deadlines lie in the window that starts at `base`, and no period is longer. -/
def Within (base : LtTime) (s : NpsfServer) : Prop :=
  ∀ t, (s.task t).realtime = true →
    InWindow base (s.task t).job.deadline ∧ (s.task t).params.period.toNat < 2 ^ 63

def members (s : NpsfServer) : Set TaskId := { t | (s.task t).realtime = true }

section

variable (h : ServerInv s)

include h

theorem ServerInv.plain :
    ∀ t ∈ s.members, Plain s.task t := fun t ht => ⟨ht, h.inh t ht⟩

theorem ServerInv.places_members :
    ∀ t ∈ s.places, t ∈ s.members := fun t ht => ((h.mem_iff t).mp ht).1

theorem ServerInv.plain_places :
    ∀ t ∈ s.places, Plain s.task t := fun t ht => h.plain t (h.places_members t ht)

theorem ServerInv.plain_queued :
    ∀ t ∈ s.dom.queued, Plain s.task t := fun t ht => h.plain_places t (mem_queued_places ht)

theorem ServerInv.strictWeakOn (hw : Within base s) : StrictWeakOn s.order s.members :=
  strictWeakOn_edfReadyOrder h.plain ⟨base, fun t ht => (hw t ht).1⟩

theorem ServerInv.nodup_queued : s.dom.queued.Nodup :=
  (nodup_add.mp h.nodup).2.1

theorem ServerInv.nodup_ready :
    s.dom.readyQueue.elems.Nodup := (nodup_add.mp h.nodup_queued).1

theorem ServerInv.highestPrio (ht : s.highestPrio = some t) :
    t ∉ s.dom.queued ∧ (s.task t).realtime = true := by
  refine ⟨fun hq => ?_, ((h.mem_iff t).mp (mem_places.mpr (.inl ht))).1⟩
  have hdi := (nodup_add.mp h.nodup).2.2
  rw [ht] at hdi
  exact Multiset.disjoint_left.mp hdi (Multiset.mem_singleton_self t) hq

end

/-- A step keeps the invariant, and the order while the window lasts. -/
def Keeps (s s' : NpsfServer) : Prop :=
  ServerInv s' ∧ ∀ base, Within base s → Within base s' → OrderInv s → OrderInv s'

/-! ### Rescheduling restores the invariant -/

theorem ServerInv.of_rescheduled (hnod : s.places.Nodup)
    (hm : ∀ t, t ∈ s.places ↔ (s.task t).realtime = true ∧ (s.task t).running = true)
    (hinh : ∀ t, (s.task t).realtime = true → (s.task t).inhTask = none) (h : Rescheduled s s') :
    ServerInv s' where
  nodup := by
    rw [h.places]
    exact hnod
  mem_iff t := by
    rw [h.places, h.same.realtime, h.same.running]
    exact hm t
  inh t := by
    rw [h.same.realtime, h.same.inhTask]
    exact hinh t
  idle := h.idle

theorem OrderInv.of_rescheduled (hI : ServerInv s') (hw : Within base s') (h : Rescheduled s s')
    (hso : s.dom.Sorted s.order) : OrderInv s' := by
  have hord : s'.order = s.order := h.same.order
  have hS := hI.strictWeakOn hw
  rw [hord] at hS
  obtain ⟨hsorted', hbes⟩ := h.sorted s'.members hS (fun x hx => by
    rw [← h.places] at hx
    exact hI.places_members x hx) hso
  exact ⟨hsorted', hbes⟩

theorem sorted_modifyTask (hpl : ∀ x ∈ s.dom.queued, Plain s.task x) (ht : t ∉ s.dom.queued)
    (f : RtTask → RtTask) (h : s.dom.Sorted s.order) : s.dom.Sorted (s.modifyTask t f).order := by
  apply h.congr
  intro a ha b hb hab
  have hat : a ≠ t := by
    rintro rfl
    exact ht ha
  have hbt : b ≠ t := by
    rintro rfl
    exact ht hb
  exact (edfReadyOrder_modify f (hpl a ha) (hpl b hb) hat hbt).mp hab

theorem enter_spec (n1 n2 : LtTime) (hI : ServerInv s) (ht : t ∉ s.places) {f : RtTask → RtTask}
    (hrt : (f (s.task t)).realtime = true) (hrun : (f (s.task t)).running = true)
    (hinh : (f (s.task t)).inhTask = none) :
    ∃ s', ((s.modifyTask t f).requeue n1 t).bind (npsfRescheduleServer n2) = some s' ∧
      Keeps s s' := by
  have htq : t ∉ s.dom.queued := fun h => ht (mem_queued_places h)
  obtain ⟨s1, hs1, hrq⟩ := requeue_spec n1 (s := s.modifyTask t f) htq
  have hq1 : s1.dom.queued = t ::ₘ s.dom.queued := hrq.queued
  have hp1 : s1.places = t ::ₘ s.places := by
    rw [places, hq1, hrq.highestPrio, add_cons]
    rfl
  have hta : ∀ u, u ≠ t → (s.modifyTask t f).task u = s.task u := fun u hu =>
    modify_of_ne _ _ hu
  have hse : (s.modifyTask t f).task t = f (s.task t) := modify_self _ _ _
  have hhp1 : ∀ h, s1.highestPrio = some h → h ∉ s1.dom.queued ∧ (s1.task h).realtime = true := by
    intro h hh
    rw [hrq.highestPrio] at hh
    obtain ⟨hnq, hr⟩ := hI.highestPrio hh
    have hne : h ≠ t := fun h' => ht (mem_places.mpr (.inl (h' ▸ hh)))
    rw [hq1, hrq.same.realtime, hta h hne]
    exact ⟨by simp [hne, hnq], hr⟩
  obtain ⟨s', hs', hrs⟩ := npsfRescheduleServer_spec n2 hhp1
  have hinv' : ServerInv s' := by
    refine ServerInv.of_rescheduled ?_ ?_ ?_ hrs
    · rw [hp1]
      exact nodup_cons.mpr ⟨ht, hI.nodup⟩
    · intro u
      rw [hp1, hrq.same.realtime, hrq.same.running, Multiset.mem_cons]
      by_cases hu : u = t
      · subst hu
        simp [hse, hrt, hrun]
      rw [hta u hu, ← hI.mem_iff u]
      simp [hu]
    intro u
    rw [hrq.same.realtime, hrq.same.inhTask]
    by_cases hu : u = t
    · subst hu
      rw [hse]
      exact fun _ => hinh
    rw [hta u hu]
    exact hI.inh u
  refine ⟨s', by rw [hs1]; exact hs', hinv', fun base hw hw' hord => ?_⟩
  refine OrderInv.of_rescheduled hinv' hw' hrs ?_
  have hS := hinv'.strictWeakOn hw'
  have hrdr : s'.order = (s.modifyTask t f).order := (hrq.same.trans hrs.same).order
  rw [hrdr] at hS
  refine hrq.sorted s'.members hS (fun x hx => ?_) (sorted_modifyTask hI.plain_queued htq f
    hord.sorted)
  apply hinv'.places_members x
  rw [hrs.places]
  apply mem_queued_places
  rw [hq1]
  exact hx

/-! ### Removal -/

/-- The outcome of removing `t`, wherever it is. -/
structure Removed (s : NpsfServer) (t : TaskId) (s' : NpsfServer) : Prop where
  same : SameButFlags s.task s'.task
  places : s'.places = s.places.erase t
  idle : s'.highestPrio = none → s'.dom.readyQueue.elems = 0
  ordered : ∀ S, StrictWeakOn s.order S → (∀ x ∈ s.places, x ∈ S) → OrderInv s → OrderInv s'

theorem removeFromServer_spec (now : LtTime) (hnod : s.places.Nodup)
    (hid : s.highestPrio = none → s.dom.readyQueue.elems = 0) (hw : t ∉ s.dom.waiting) :
    ∃ s', s.removeFromServer now t = some s' ∧ Removed s t s' := by
  unfold removeFromServer
  by_cases hh : s.highestPrio = some t
  · rw [if_pos hh]
    have hpl : s.places = t ::ₘ NpsfServer.places { s with highestPrio := none } := by
      rw [NpsfServer.places, NpsfServer.places, hh, Heap.cached, Heap.cached, zero_add,
        singleton_add]
    obtain ⟨s', hs', hrs⟩ := npsfRescheduleServer_spec now
      (s := { s with highestPrio := none }) (fun h hh' => by cases hh')
    refine ⟨s', hs', hrs.same, ?_, hrs.idle, ?_⟩
    · rw [hrs.places, hpl, erase_cons_head]
    intro S hS hm hor
    obtain ⟨hso, hbes⟩ := hrs.sorted S hS (fun x hx => hm x (by
      rw [hpl]
      exact mem_cons_of_mem hx)) hor.sorted
    exact ⟨hso, hbes⟩
  rw [if_neg hh]
  by_cases hq : t ∈ s.dom.queued
  · have hr : t ∈ s.dom.readyQueue.elems := (mem_queued.mp hq).resolve_right hw
    have hnd : s.dom.readyQueue.elems.Nodup := (nodup_add.mp (nodup_add.mp hnod).2.1).1
    obtain ⟨H, hH, hrem, hel⟩ := remove_spec s.order hr hnd
    rw [if_pos (isQueued_iff.mpr hq), hrem]
    refine ⟨_, rfl, SameButFlags.refl _, ?_, ?_, ?_⟩
    · rw [NpsfServer.places, NpsfServer.places, queued, queued, hel,
        cons_add, add_cons, erase_cons_head]
      rfl
    · intro hn
      rw [hid hn] at hr
      exact absurd hr (notMem_zero t)
    intro S hS hm hor
    have hsu : ∀ x ∈ H.elems, x ∈ s.dom.readyQueue.elems := fun x hx => by
      rw [hel]
      exact mem_cons_of_mem hx
    refine ⟨RtDomain.Sorted.remove hS hH hnd (fun x hx => hm x (mem_queued_places
      (mem_queued.mpr (.inl (hsu x hx))))) ?_ hor.sorted.release, ?_⟩
    · refine hor.sorted.ready.congr fun a _ b _ hab => ?_
      simp only [Forest.except, Bool.and_eq_true] at hab
      exact hab.1.1
    exact fun h hh' x hx => hor.best h hh' x (hsu x hx)
  have hnq : ¬s.dom.isQueued t = true := fun h => hq (isQueued_iff.mp h)
  rw [if_neg hnq]
  refine ⟨s, rfl, SameButFlags.refl _, ?_, hid, fun _ _ _ hor => hor⟩
  rw [Multiset.erase_of_notMem]
  exact fun h => (mem_places.mp h).elim hh hq

/-! ### Job completion -/

theorem places_takeHighest (s : NpsfServer) : s.takeHighest.places = s.dom.queued := by
  rw [places, queued, queued]
  cases hm : s.takeHighest.highestPrio with
  | none =>
    rw [takeReady_eq_none.mp hm, show s.takeHighest.dom.readyQueue.elems = 0 from
      ready_takeReady_none hm, Heap.cached, zero_add]
    rfl
  | some m =>
    rw [ready_takeReady_some hm, Heap.cached, singleton_add, cons_add]
    rfl

theorem order_takeHighest {S : Set TaskId} (hS : StrictWeakOn s.order S)
    (hm : ∀ x ∈ s.dom.queued, x ∈ S) (hso : s.dom.Sorted s.order) : OrderInv s.takeHighest := by
  refine ⟨hso.takeReady hS hm, fun h hh x hx => ?_⟩
  have hr : ∀ x ∈ s.dom.readyQueue.elems, x ∈ S := fun x hx =>
    hm x (mem_queued.mpr (.inl hx))
  refine (Heap.cacheMin_best hS hr hso.ready hh).2 x ?_
  rw [ready_takeReady_some hh]
  exact mem_cons_of_mem hx

/-- The fields that decide whether a task has a place. -/
def role (p : RtTask) : Bool × Bool × Option TaskId := (p.realtime, p.running, p.inhTask)

theorem ServerInv.of_role (hI : ServerInv s) (hpl : s'.places = s.places)
    (hro : ∀ u, role (s'.task u) = role (s.task u))
    (hidl : s'.highestPrio = none → s'.dom.readyQueue.elems = 0) : ServerInv s' := by
  have hrt : ∀ u, (s'.task u).realtime = (s.task u).realtime := fun u =>
    congrArg Prod.fst (hro u)
  have hr : ∀ u, (s'.task u).running = (s.task u).running := fun u =>
    congrArg (fun r => r.2.1) (hro u)
  have hinh : ∀ u, (s'.task u).inhTask = (s.task u).inhTask := fun u =>
    congrArg (fun r => r.2.2) (hro u)
  constructor
  · rw [hpl]
    exact hI.nodup
  · intro u
    rw [hpl, hrt, hr]
    exact hI.mem_iff u
  · intro u
    rw [hrt, hinh]
    exact hI.inh u
  · exact hidl

theorem Requeued.role (h : Requeued s t s') (u : TaskId) : role (s'.task u) = role (s.task u) := by
  rw [h.task]
  exact modify_field NpsfServer.role (RtTask.setRtFlags .running) (fun _ => rfl) s.task t u

/-- The completed task was in charge: it goes back to a queue and the best task is
    taken. -/
theorem completePrev_highest (now : LtTime) (hI : ServerInv s) (hh : s.highestPrio = some prev) :
    ∃ s', s.completePrev now prev = some s' ∧ Keeps s s' := by
  have hnq : prev ∉ s.dom.queued := (hI.highestPrio hh).1
  obtain ⟨s2, hs2, hrq⟩ := requeue_spec now (s := s.modifyTask prev jobCompletion) hnq
  have hh2 : s2.highestPrio = some prev := hrq.highestPrio.trans hh
  have hexe : s.completePrev now prev = some s2.takeHighest := by
    have hdeq : (s.modifyTask prev jobCompletion).dequeuePrev prev = some s.dom :=
      if_neg (fun h => h hh)
    have hreq : requeue now { s.modifyTask prev jobCompletion with dom := s.dom } prev =
        some s2 := hs2
    simp only [completePrev, hdeq, Option.bind_eq_bind, Option.bind_some]
    rw [hreq, Option.bind_some, if_pos hh2]
  have hpla : s2.takeHighest.places = s.places := by
    rw [places_takeHighest, hrq.queued, places, hh, Heap.cached, singleton_add]
    rfl
  have hinv' : ServerInv s2.takeHighest := by
    refine hI.of_role hpla (fun u => ?_) ready_takeReady_none
    exact (hrq.role u).trans (modify_field role jobCompletion (fun _ => rfl) s.task prev u)
  refine ⟨_, hexe, hinv', fun base _ hw' hord => ?_⟩
  have hS := hinv'.strictWeakOn hw'
  have hm : ∀ x ∈ s2.dom.queued, x ∈ s2.takeHighest.members := fun x hx => by
    rw [← places_takeHighest] at hx
    exact hinv'.places_members x hx
  have hrdr : s2.order = (s.modifyTask prev jobCompletion).order := hrq.same.order
  refine order_takeHighest hS hm (hrq.sorted _ (hrdr ▸ hS) (fun x hx => hm x ?_)
    (sorted_modifyTask hI.plain_queued hnq _ hord.sorted))
  rw [hrq.queued]
  exact hx

theorem completed_not_higher {h : TaskId} (hpr : Plain s.task prev) (hh : Plain s.task h)
    (hne : h ≠ prev) (hw : Within base s) (hw' : Within base (s.modifyTask prev jobCompletion))
    (hbes : ¬s.order prev h) : ¬(s.modifyTask prev jobCompletion).order prev h := by
  intro habo
  apply hbes
  have hse : (s.modifyTask prev jobCompletion).task prev = jobCompletion (s.task prev) :=
    modify_self _ _ _
  have ho : (s.modifyTask prev jobCompletion).task h = s.task h := modify_of_ne _ _ hne
  have hprev' : Plain (s.modifyTask prev jobCompletion).task prev := by
    rw [Plain, hse]
    exact hpr
  have hh' : Plain (s.modifyTask prev jobCompletion).task h := by
    rw [Plain, ho]
    exact hh
  have hlat : offset base (s.task prev).job.deadline ≤
      offset base (jobCompletion (s.task prev)).job.deadline :=
    offset_le_offset_add (hw prev hpr.1).1 (hw prev hpr.1).2
  rw [order, edfReadyOrder_windowed hprev' hh' (hw' prev hprev'.1).1 (hw' h hh'.1).1, hse,
    ho] at habo
  rw [order, edfReadyOrder_windowed hpr hh (hw prev hpr.1).1 (hw h hh.1).1]
  omega

theorem sorted_remove_modified (hI : ServerInv s) {f : RtTask → RtTask} {H : Heap TaskId}
    {S : Set TaskId} (hS : StrictWeakOn (s.modifyTask prev f).order S)
    (hr : prev ∈ s.dom.readyQueue.elems)
    (hH : s.dom.readyQueue.delete (s.modifyTask prev f).order prev = some H)
    (hm : ∀ x ∈ H.elems, x ∈ S) (hso : s.dom.Sorted s.order) :
    RtDomain.Sorted (s.modifyTask prev f).order { s.dom with readyQueue := H } := by
  have hpl := hI.plain_queued
  have ho : ∀ a ∈ s.dom.queued, ∀ b ∈ s.dom.queued, a ≠ prev → b ≠ prev →
      (s.modifyTask prev f).order a b → s.order a b := fun a ha b hb hap hbp hab =>
    (edfReadyOrder_modify f (hpl a ha) (hpl b hb) hap hbp).mp hab
  have hwai : prev ∉ s.dom.waiting := fun hw =>
    Multiset.disjoint_left.mp (nodup_add.mp hI.nodup_queued).2.2 hr hw
  refine RtDomain.Sorted.remove hS hH hI.nodup_ready hm ?_ fun rh hrh => ?_
  · refine hso.ready.congr fun a ha b hb hab => ?_
    simp only [Forest.except, Bool.and_eq_true, decide_eq_true_eq] at hab
    exact ho a (mem_queued.mpr (.inl ha)) b (mem_queued.mpr (.inl hb)) hab.1.2 hab.2 hab.1.1
  have hin : ∀ a ∈ rh.heap.elems, a ∈ s.dom.waiting := fun a ha =>
    mem_waiting.mpr ⟨rh, hrh, ha⟩
  have hne : ∀ a ∈ rh.heap.elems, a ≠ prev := by
    rintro a ha rfl
    exact hwai (hin a ha)
  exact (hso.release rh hrh).congr fun a ha b hb hab =>
    ho a (mem_queued.mpr (.inr (hin a ha))) b
      (mem_queued.mpr (.inr (hin b hb))) (hne a ha) (hne b hb) hab

/-- The completed task had been displaced: it leaves the ready queue and is queued
    again. -/
theorem completePrev_queued (now : LtTime) (hI : ServerInv s) (hh : s.highestPrio ≠ some prev)
    (hrd : prev ∈ s.dom.readyQueue.elems) :
    ∃ s', s.completePrev now prev = some s' ∧ Keeps s s' := by
  have hq : prev ∈ s.dom.queued := mem_queued.mpr (.inl hrd)
  obtain ⟨H, hH, hrem, hel⟩ := remove_spec
    (s.modifyTask prev jobCompletion).order hrd hI.nodup_ready
  -- the server between the removal and the requeuing
  let s1 : NpsfServer := { s.modifyTask prev jobCompletion with
    dom := { s.dom with readyQueue := H } }
  have hsp : s.dom.queued = prev ::ₘ s1.dom.queued := by
    rw [queued, hel, cons_add]
    rfl
  have hnd := hI.nodup_queued
  rw [hsp] at hnd
  have hnq : prev ∉ s1.dom.queued := (nodup_cons.mp hnd).1
  obtain ⟨s2, hs2, hrq⟩ := requeue_spec now hnq
  have hh2 : s2.highestPrio = s.highestPrio := hrq.highestPrio
  have hexe : s.completePrev now prev = some s2 := by
    have hdeq : (s.modifyTask prev jobCompletion).dequeuePrev prev =
        some { s.dom with readyQueue := H } := by
      have hh1 : (s.modifyTask prev jobCompletion).highestPrio ≠ some prev := hh
      have hq1 : (s.modifyTask prev jobCompletion).dom.isQueued prev = true := isQueued_iff.mpr hq
      rw [dequeuePrev, if_pos hh1, if_pos hq1]
      exact hrem
    simp only [completePrev, hdeq, Option.bind_eq_bind, Option.bind_some]
    rw [show requeue now _ prev = some s2 from hs2, Option.bind_some, if_neg]
    rw [hh2]
    exact hh
  have hqu : s2.dom.queued = s.dom.queued := by
    rw [hrq.queued, hsp]
  have hinv' : ServerInv s2 := by
    refine hI.of_role ?_ (fun u => ?_) ?_
    · rw [places, hqu, hh2]
      rfl
    · exact (hrq.role u).trans (modify_field role jobCompletion (fun _ => rfl) s.task prev u)
    intro hn
    rw [hh2] at hn
    rw [hI.idle hn] at hrd
    exact absurd hrd (notMem_zero prev)
  refine ⟨s2, hexe, hinv', fun base hw hw' hor => ?_⟩
  have hrr : s2.order = (s.modifyTask prev jobCompletion).order := hrq.same.order
  have hS := hinv'.strictWeakOn hw'
  rw [hrr] at hS
  have hm : ∀ x ∈ s.dom.queued, x ∈ s2.members := fun x hx =>
    hinv'.places_members x (mem_queued_places (hqu ▸ hx))
  have hmem1 : ∀ x ∈ prev ::ₘ s1.dom.queued, x ∈ s2.members := fun x hx =>
    hm x (hsp ▸ hx)
  have hsorted1 : s1.dom.Sorted s1.order := by
    refine sorted_remove_modified hI hS hrd hH (fun x hx => hmem1 x ?_) hor.sorted
    exact mem_cons_of_mem (mem_queued.mpr (.inl hx))
  refine ⟨hrq.sorted _ hS hmem1 hsorted1, ?_⟩
  intro h hh' x hx
  rw [hh2] at hh'
  rw [hrr]
  have hpl := hI.plain_places
  have hph : Plain s.task h := hpl h (mem_places.mpr (.inl hh'))
  have hne : h ≠ prev := by
    rintro rfl
    exact hh hh'
  by_cases hxp : x = prev
  · subst hxp
    have hw1 : Within base (s.modifyTask x jobCompletion) := fun u hu => by
      have := hw' u (by rwa [hrq.same.realtime])
      rwa [hrq.same.job, hrq.same.params] at this
    exact completed_not_higher (hpl x (mem_queued_places hq)) hph hne hw hw1
      (hor.best h hh' x hrd)
  have hxr : x ∈ s.dom.readyQueue.elems := by
    rw [hel]
    rcases hrq.contents with ⟨hr, _⟩ | ⟨hr, _⟩
    · rwa [hr] at hx
    rw [hr] at hx
    exact mem_cons_of_mem hx
  intro habo
  refine hor.best h hh' x hxr ((edfReadyOrder_modify jobCompletion ?_ hph hxp hne).mp habo)
  exact hpl x (mem_queued_places (mem_queued.mpr (.inl hxr)))

end NpsfServer

end Litmus.Npsf
