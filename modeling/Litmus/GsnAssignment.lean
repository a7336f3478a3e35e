import Litmus.GsnLinks

/-!
# The assignment of global EDF

`check_for_preemptions` links the best ready task to the CPU with the lowest priority until
no ready task beats it.  A task that is still scheduled elsewhere is linked there instead, and
the links of the two CPUs are swapped.  The heap of CPUs is ordered by their links, which
change while the CPUs are in it.
-/

namespace Litmus.GsnEdf

open BinomialForest Custody Linkage WrapOrder Function Multiset Option RtDomain
open Multiset (mem_add notMem_zero mem_cons_self nodup_zero mem_singleton)

namespace Cluster

variable {n : Nat}

def Known (st : Cluster n) (t : TaskId) : Prop := ∃ q, t ∈ st.held q

def Active (st : Cluster n) (t : TaskId) : Prop :=
  (∃ c, st.links c = some t) ∨ t ∈ st.domain.readyQueue.elems

/-- The state in which `check_for_preemptions` is called.  The CPUs that take part are those in
    the heap. -/
structure Assigned (st : Cluster n) : Prop where
  /-- every linked or queued task is a real-time task and in one place only, and `linked` and
      `linked_on` agree -/
  core : Core st.Known st
  /-- a linked task that is scheduled is scheduled on the CPU it is linked to -/
  home : ∀ c t d, st.links c = some t → (st.task t).scheduledOn = some d → d = c
  /-- every CPU is in the heap once -/
  once : st.cpuHeap.elems.Nodup
  /-- the heap of CPUs is ordered by `cpu_lower_prio` -/
  cpus : st.cpuHeap.Ordered st.cpuLowerPrio
  /-- the queues are ordered -/
  sorted : st.domain.Sorted st.order
  /-- a CPU schedules one task -/
  alone : ∀ t u c, st.Known t → st.Known u → (st.task t).scheduledOn = some c →
    (st.task u).scheduledOn = some c → t = u
  /-- only CPUs that take part schedule tasks -/
  takesPart : ∀ t c, st.Known t → (st.task t).scheduledOn = some c → c ∈ st.cpuHeap.elems

/-- The linked and ready tasks are released whenever the clock is read. -/
def ReleasedAt (clock : List LtTime) (st : Cluster n) : Prop :=
  ∀ now ∈ clock, ∀ t, st.Active t → (st.task t).isReleased now = true

section

variable {st st' : Cluster n} {c last target : Fin n} {t : TaskId} {now : LtTime} {S : Set TaskId}

/-! ### What linking leaves alone -/

structure Kept (st st' : Cluster n) : Prop where
  scheduledOn : ∀ u, (st'.task u).scheduledOn = (st.task u).scheduledOn
  job : ∀ u, (st'.task u).job = (st.task u).job
  prio : ∀ u, prioFields (st'.task u).toRtTask = prioFields (st.task u).toRtTask

theorem Kept.refl (st : Cluster n) : Kept st st := ⟨fun _ => rfl, fun _ => rfl, fun _ => rfl⟩

theorem Kept.trans {st1 st2 st3 : Cluster n} (h : Kept st1 st2) (h' : Kept st2 st3) :
    Kept st1 st3 where
  scheduledOn u := (h'.scheduledOn u).trans (h.scheduledOn u)
  job u := (h'.job u).trans (h.job u)
  prio u := (h'.prio u).trans (h.prio u)

theorem Kept.setTask {p : GsnTask n} (hsch : p.scheduledOn = (st.task t).scheduledOn)
    (hjob : p.job = (st.task t).job)
    (hpri : prioFields p.toRtTask = prioFields (st.task t).toRtTask) :
    Kept st (st.setTask t p) := by
  constructor <;> intro u <;> by_cases hu : u = t
  · subst hu
    simpa using hsch
  · rw [setTask_of_ne hu]
  · subst hu
    simpa using hjob
  · rw [setTask_of_ne hu]
  · subst hu
    simpa using hpri
  · rw [setTask_of_ne hu]

theorem Kept.higher (h : Kept st st') : edfHigherPrio st'.table = edfHigherPrio st.table :=
  edfHigherPrio_congr h.prio

theorem Kept.order (h : Kept st st') : st'.order = st.order := edfReadyOrder_congr h.prio

theorem Kept.detach (c : Fin n) (st : Cluster n) : Kept st (st.detach c) := by
  unfold Cluster.detach
  split
  · exact Kept.setTask rfl rfl rfl
  exact .refl st

theorem Kept.attach (c : Fin n) (t : Option TaskId) (st : Cluster n) : Kept st (st.attach c t) := by
  rcases t with _ | u
  · exact ⟨fun _ => rfl, fun _ => rfl, fun _ => rfl⟩
  have hse : Kept st (st.setLinkedOn u (some c)) := Kept.setTask rfl rfl rfl
  exact ⟨hse.scheduledOn, hse.job, hse.prio⟩

/-! ### The heap of CPUs -/

theorem strictWeakOn_cpuLowerPrio (hS : StrictWeakOn st.order S)
    (hln : ∀ d u, st.links d = some u → u ∈ S) : StrictWeakOn st.cpuLowerPrio Set.univ :=
  ((strictWeakOn_edfHigherPrio hS).flip st.links).mono fun d _ u hu => hln d u hu

/-- The heap of CPUs with the links of the CPUs is in order. -/
structure CpusSorted (S : Set TaskId) (st : Cluster n) : Prop where
  order : StrictWeakOn st.order S
  links : ∀ d u, st.links d = some u → u ∈ S
  once : st.cpuHeap.elems.Nodup
  heap : st.cpuHeap.Ordered st.cpuLowerPrio

theorem CpusSorted.congr (h : CpusSorted S st) (hk : Kept st st') (hln : st'.links = st.links)
    (hhe : st'.cpuHeap = st.cpuHeap) : CpusSorted S st' := by
  have hpri : st'.cpuLowerPrio = st.cpuLowerPrio := by
    funext a b
    change edfHigherPrio st'.table (st'.links b) (st'.links a) = _
    rw [hk.higher, hln]
    rfl
  exact ⟨hk.order ▸ h.order, hln ▸ h.links, hhe ▸ h.once, by rw [hhe, hpri]; exact h.heap⟩

theorem CpusSorted.attach (h : CpusSorted S st) {o : Option TaskId} (ho : ∀ u, o = some u → u ∈ S)
    (hc : c ∈ st.cpuHeap.elems) :
    CpusSorted S (st.attach c o) ∧ (st.attach c o).cpuHeap.elems = st.cpuHeap.elems := by
  have hk := Kept.attach c o st
  have hnw := (attach_spec c o st).2.1
  have hs : ∀ a, a ≠ c → ∀ b, b ≠ c → (st.attach c o).cpuLowerPrio a b = true →
      st.cpuLowerPrio a b = true := by
    intro a ha b hb hab
    have hln : ∀ d, d ≠ c → (st.attach c o).links d = st.links d := fun d hd => by
      rw [hnw, update_of_ne hd]
    change edfHigherPrio (st.attach c o).table ((st.attach c o).links b)
      ((st.attach c o).links a) = true at hab
    rw [hk.higher, hln a ha, hln b hb] at hab
    exact hab
  have hor := hk.order ▸ h.order
  have hln : ∀ d u, (st.attach c o).links d = some u → u ∈ S := by
    intro d u hu
    rw [hnw] at hu
    by_cases hd : d = c
    · subst hd
      rw [update_self] at hu
      exact ho u hu
    rw [update_of_ne hd] at hu
    exact h.links d u hu
  have hhea : (st.attach c o).cpuHeap =
      ((st.cpuHeap.delete (st.attach c o).cpuLowerPrio c).getD st.cpuHeap).insert
        (st.attach c o).cpuLowerPrio c := by
    rcases o with _ | u <;> rfl
  obtain ⟨hel, hrd⟩ := Heap.reposition (strictWeakOn_cpuLowerPrio hor hln)
    (fun x _ => Set.mem_univ x) h.once hc h.heap hs
  rw [← hhea] at hel hrd
  exact ⟨⟨hor, hln, by rw [hel]; exact h.once, hrd⟩, hel⟩

/-- The links after task `t` has been linked for CPU `c`, being scheduled on `target`. -/
def relinked (links : Fin n → Option TaskId) (target c : Fin n) (t : TaskId) :
    Fin n → Option TaskId :=
  if target = c then update links c (some t)
  else update (update links target (some t)) c (links target)

theorem CpusSorted.linkTaskToCpu (h : CpusSorted S st) (ht : t ∈ S) (hc : c ∈ st.cpuHeap.elems)
    (htak : ∀ s, (st.task t).scheduledOn = some s → s ∈ st.cpuHeap.elems)
    (hrt : (st.task t).realtime = true) (hfre : ∀ d, st.links d ≠ some t) :
    ∃ st', st.linkTaskToCpu (some t) c = some st' ∧ Kept st st' ∧
      st'.links = relinked st.links ((st.task t).scheduledOn.getD c) c t ∧
      CpusSorted S st' ∧ st'.cpuHeap.elems = st.cpuHeap.elems := by
  have hdet := Kept.detach c st
  have hfla : Kept (st.detach c) ((st.detach c).modify t (RtTask.setRtFlags .running)) :=
    Kept.setTask rfl rfl rfl
  have hkept1 := hdet.trans hfla
  have hlinks1 : ((st.detach c).modify t (RtTask.setRtFlags .running)).links = st.links :=
    (detach_spec c st).2.1
  have hheap1 : ((st.detach c).modify t (RtTask.setRtFlags .running)).cpuHeap = st.cpuHeap := by
    unfold Cluster.detach
    split <;> rfl
  have h₁ := h.congr hkept1 hlinks1 hheap1
  simp only [Cluster.linkTaskToCpu, hrt, Bool.not_true, Bool.false_eq_true, if_false]
  generalize (st.detach c).modify t (RtTask.setRtFlags .running) = st1 at hkept1 hlinks1 hheap1 h₁
  have hc1 : c ∈ st1.cpuHeap.elems := by rw [hheap1]; exact hc
  have hpl := h₁.attach (o := some t) (fun u hu => some.inj hu ▸ ht) hc1
  have hlk : (st1.attach c (some t)).links = update st.links c (some t) := by
    rw [(attach_spec c (some t) st1).2.1, hlinks1]
  unfold linkTask
  rw [hkept1.scheduledOn t]
  rcases hs : (st.task t).scheduledOn with _ | s
  · refine ⟨_, rfl, hkept1.trans (Kept.attach c _ st1), ?_, hpl.1, hpl.2.trans (by rw [hheap1])⟩
    rw [hlk, getD_none, relinked, if_pos rfl]
  have hsl : (st1.cpu s).linked = st.links s := congrFun hlinks1 s
  simp only [hsl, hfre s, if_false, getD_some]
  by_cases hcs : c = s
  · subst hcs
    simp only [ne_eq, not_true_eq_false, if_false]
    refine ⟨_, rfl, hkept1.trans (Kept.attach c _ st1), ?_, hpl.1, hpl.2.trans (by rw [hheap1])⟩
    rw [hlk, relinked, if_pos rfl]
  simp only [ne_eq, hcs, not_false_eq_true, if_true]
  obtain ⟨h2, helems2⟩ := h₁.attach (o := some t) (c := s)
    (fun u hu => some.inj hu ▸ ht) (by rw [hheap1]; exact htak s hs)
  obtain ⟨h3, helems3⟩ := h2.attach (o := st.links s) (c := c) (fun u hu => h.links s u hu)
    (by rw [helems2]; exact hc1)
  refine ⟨_, rfl, (hkept1.trans (Kept.attach s _ st1)).trans (Kept.attach c _ _), ?_, h3,
    helems3.trans (helems2.trans (by rw [hheap1]))⟩
  rw [(attach_spec c _ _).2.1, (attach_spec s _ _).2.1, hlinks1, relinked, if_neg (Ne.symm hcs)]

/-! ### The test of the loop -/

theorem Assigned.cpusSorted (h : Assigned st) (hra : Ranked st.table {u | st.Known u}) :
    CpusSorted {u | st.Known u} st where
  order := strictWeakOn_of_ranked hra
  links d _ hu := ⟨.linked d, mem_linked.mpr hu⟩
  once := h.once
  heap := h.cpus

theorem known_of_queued {u : TaskId} (hu : u ∈ st.domain.queued) : st.Known u := by
  rcases mem_queued.mp hu with hu | hu
  · exact ⟨.ready, hu⟩
  exact ⟨.release, hu⟩

/-- The state after the test: the two heaps have cached their tops. -/
def peeked (last : Fin n) (st : Cluster n) : Cluster n :=
  { st with
    cpuHeap := (st.cpuHeap.peek st.cpuLowerPrio).2
    domain := (edfPreemptionNeeded st.table st.domain (st.links last)).2 }

theorem held_peeked (last : Fin n) (q : Place n) : (st.peeked last).held q = st.held q := by
  obtain ⟨hr, hw⟩ := edfPreemptionNeeded_contents st.table st.domain (st.links last)
  rcases q with d | _ | _
  · rfl
  · exact hr
  exact hw

theorem Assigned.peeked (h : Assigned st) (hra : Ranked st.table {u | st.Known u}) (last : Fin n) :
    Assigned (st.peeked last) := by
  have hS := strictWeakOn_of_ranked hra
  have hkn : ∀ u, (st.peeked last).Known u ↔ st.Known u := fun u =>
    exists_congr fun q => by rw [held_peeked]
  have hel : (st.peeked last).cpuHeap.elems = st.cpuHeap.elems := Heap.elems_cacheMin _ _
  constructor
  · exact (h.core.same (held_peeked last) rfl rfl rfl).congr hkn
  · exact h.home
  · rw [hel]
    exact h.once
  · exact h.cpus.cacheMin (strictWeakOn_cpuLowerPrio hS (h.cpusSorted hra).links)
      fun x _ => Set.mem_univ x
  · exact sorted_edfPreemptionNeeded hS (fun x hx => known_of_queued hx) h.sorted _
  · intro t u c ht hu
    exact h.alone t u c ((hkn t).mp ht) ((hkn u).mp hu)
  · intro t c ht hc
    rw [hel]
    exact h.takesPart t c ((hkn t).mp ht) hc

theorem Assigned.preemptionNeeded (h : Assigned st) (hra : Ranked st.table {u | st.Known u})
    (hsom : st.cpuHeap.elems ≠ 0) : ∃ last ∈ st.cpuHeap.elems, (∀ d, d ∈ st.cpuHeap.elems →
        ¬edfHigherPrio st.table (st.links last) (st.links d) = true) ∧
      st.preemptionNeeded = some (last,
        (edfPreemptionNeeded st.table st.domain (st.links last)).1, st.peeked last) := by
  have hS := strictWeakOn_of_ranked hra
  rcases hla : (st.cpuHeap.peek st.cpuLowerPrio).1 with _ | last
  · exact absurd (Heap.min_cacheMin_eq_none.mp hla) hsom
  obtain ⟨hin, hlow⟩ := Heap.cacheMin_best
    (strictWeakOn_cpuLowerPrio hS (h.cpusSorted hra).links) (fun x _ => Set.mem_univ x) h.cpus
    hla
  refine ⟨last, hin, hlow, ?_⟩
  simp only [Cluster.preemptionNeeded, lowestPrioCpu, hla, map_some]
  rfl

/-- Every CPU that takes part is linked to a task that no ready task beats, or nothing is
    ready. -/
def TopAssigned (st : Cluster n) : Prop :=
  ∀ c ∈ st.cpuHeap.elems,
    (∀ t, st.links c = some t → ∀ x ∈ st.domain.readyQueue.elems, st.order x t = false) ∧
      (st.links c = none → st.domain.readyQueue.elems = 0)

theorem TopAssigned.congr (h : TopAssigned st) (hk : Kept st st') (hln : st'.links = st.links)
    (hhea : st'.cpuHeap.elems = st.cpuHeap.elems)
    (hr : st'.domain.readyQueue.elems = st.domain.readyQueue.elems) : TopAssigned st' := by
  intro c hc
  rw [hln, hr, hk.order]
  exact h c (hhea ▸ hc)

theorem Assigned.top (h : Assigned st) (hra : Ranked st.table {u | st.Known u})
    (hlow : ∀ d, d ∈ st.cpuHeap.elems → ¬edfHigherPrio st.table (st.links last) (st.links d) = true)
    (hno : (edfPreemptionNeeded st.table st.domain (st.links last)).1 = false) :
    TopAssigned st := by
  have hS : StrictWeakOn st.order {u | st.Known u} := strictWeakOn_of_ranked hra
  have hqu : ∀ x ∈ st.domain.queued, st.Known x := fun x hx => known_of_queued hx
  -- nothing is ready when the lowest CPU is not linked
  have hem : st.links last = none → st.domain.readyQueue.elems = 0 := by
    intro hn
    rw [hn, edfPreemptionNeeded_none] at hno
    by_contra hr
    exact Bool.false_ne_true (hno.symm.trans (jobsPending_iff.mpr hr))
  intro c hc
  rcases hl : st.links last with _ | l
  · rw [hem hl]
    exact ⟨fun _ _ x hx => absurd hx (notMem_zero x), fun _ => rfl⟩
  have hlk : st.Known l := ⟨.linked last, mem_linked.mpr hl⟩
  have hlw := hlow c hc
  rw [hl] at hno hlw
  refine ⟨fun t ht x hx => ?_, fun hn => ?_⟩
  · rw [ht] at hlw
    have hxl : ¬st.order x l := not_higher_of_not_needed hS hqu h.sorted hlk
      (h.core.realtime l hlk) hno x hx
    have := hS.negTrans x ⟨.ready, hx⟩ l hlk t ⟨.linked c, mem_linked.mpr ht⟩ hxl hlw
    simpa using this
  rw [hn] at hlw
  simp at hlw

/-! ### One round -/

theorem relinked_cases (links : Fin n → Option TaskId) (target c : Fin n) (t : TaskId) (d : Fin n) :
    (d = target ∧ relinked links target c t d = some t) ∨
      (d = c ∧ target ≠ c ∧ relinked links target c t d = links target) ∨
      (d ≠ target ∧ d ≠ c ∧ relinked links target c t d = links d) := by
  unfold relinked
  by_cases htc : target = c
  · subst htc
    by_cases hd : d = target
    · subst hd
      simp
    simp [hd]
  by_cases hdc : d = c
  · subst hdc
    simp [htc]
  by_cases hdt : d = target
  · subst hdt
    simp [hdc]
  simp [htc, hdc, hdt]

/-- The round that links `t`, the best ready task, for the CPU `last`, which it beats. -/
structure Picked (st : Cluster n) (last : Fin n) (t : TaskId) : Prop where
  take : (st.domain.takeReady st.order).1 = some t
  best : ∀ x ∈ st.domain.readyQueue.elems, ¬st.order x t = true
  beats : edfHigherPrio st.table (some t) (st.links last) = true

theorem Assigned.picked (h : Assigned st) (hra : Ranked st.table {u | st.Known u})
    (hne : (edfPreemptionNeeded st.table st.domain (st.links last)).1 = true) :
    ∃ t, Picked (st.peeked last) last t := by
  have hS := strictWeakOn_of_ranked hra
  have hr : (st.peeked last).held .ready = st.held .ready := held_peeked last .ready
  rcases ht : ((st.peeked last).domain.takeReady (st.peeked last).order).1 with _ | t
  · have hn : (st.peeked last).held .ready = 0 := takeReady_eq_none.mp ht
    rw [hr] at hn
    exact absurd hn (jobsPending_of_needed hne)
  refine ⟨t, ht, ?_, ?_⟩
  · intro x hx
    have hx : x ∈ st.domain.readyQueue.elems := by
      rw [show st.domain.readyQueue.elems = (st.peeked last).domain.readyQueue.elems from hr.symm]
      exact hx
    exact taken_best hS (fun y hy => known_of_queued hy) h.sorted ht x hx
  change edfHigherPrio st.table (some t) (st.links last) = true
  rcases hl : st.links last with _ | l
  · exact edfHigherPrio_over_null _ t
  have hrt := h.core.link_realtime hl
  rw [hl] at hne
  have ht' : ((edfPreemptionNeeded st.table st.domain (some l)).2.takeReady
      (edfReadyOrder st.table)).1 = some t := by
    rw [← hl]
    exact ht
  exact taken_higher_of_needed hrt hne ht'

theorem requeue_ready (hn : t ∉ st.domain.queued) (hrel : (st.task t).isReleased now = true) :
    st.requeue now t = some (st.setDomain
      { st.domain with readyQueue := st.domain.readyQueue.insert st.order t }) := by
  have hfal : ¬st.domain.isQueued t = true := fun hq => hn (isQueued_iff.mp hq)
  unfold Cluster.requeue
  rw [if_neg hfal, if_pos hrel, addReady_eq hn, map_some]

structure Round (st : Cluster n) (last : Fin n) (t : TaskId) (st' : Cluster n) : Prop where
  kept : Kept st st'
  assigned : Assigned st'
  cpuHeap : st'.cpuHeap.elems = st.cpuHeap.elems
  waiting : st'.domain.waiting = st.domain.waiting
  known : ∀ u, st'.Known u ↔ st.Known u
  links : st'.links = relinked st.links ((st.task t).scheduledOn.getD last) last t
  ready : ∃ rest, st.domain.readyQueue.elems = t ::ₘ rest ∧
    st'.domain.readyQueue.elems = Heap.cached (st.links last) + rest

theorem Assigned.putBack (h : Assigned st) (hra : Ranked st.table {u | st.Known u})
    (hrel : ∀ u, st.Active u → (st.task u).isReleased now = true) (last : Fin n) :
    ∃ dom : RtDomain, (dom.readyQueue.elems =
          Heap.cached (st.links last) + (st.domain.takeReady st.order).2.readyQueue.elems ∧
        dom.waiting = st.domain.waiting ∧ dom.Sorted st.order) ∧
      (match ((st.setDomain (st.domain.takeReady st.order).2).cpu last).linked with
        | some old => (st.setDomain (st.domain.takeReady st.order).2).requeue now old
        | none => some (st.setDomain (st.domain.takeReady st.order).2)) =
        some (st.setDomain dom) := by
  have hS := strictWeakOn_of_ranked hra
  have hqu : ∀ x ∈ st.domain.queued, st.Known x := fun x hx => known_of_queued hx
  have hta := h.sorted.takeReady hS hqu
  have hqueued' : ∀ x ∈ (st.domain.takeReady st.order).2.queued, x ∈ st.domain.queued := by
    intro x hx
    rw [← queued_takeReady st.order st.domain]
    exact mem_add.mpr (.inr hx)
  rcases hl : st.links last with _ | old
  · refine ⟨(st.domain.takeReady st.order).2, ⟨by simp [Heap.cached], rfl, hta⟩, ?_⟩
    have hl' : ((st.setDomain (st.domain.takeReady st.order).2).cpu last).linked = none := hl
    rw [hl']
  have hold : st.Known old := ⟨.linked last, mem_linked.mpr hl⟩
  have hn : old ∉ (st.domain.takeReady st.order).2.queued := by
    intro hq
    rcases mem_queued.mp (hqueued' old hq) with hq | hq
    · exact absurd (h.core.sound.unique (mem_linked.mpr hl) (q := .ready) hq) (by simp)
    exact absurd (h.core.sound.unique (mem_linked.mpr hl) (q := .release) hq) (by simp)
  refine ⟨{ (st.domain.takeReady st.order).2 with
    readyQueue := (st.domain.takeReady st.order).2.readyQueue.insert st.order old },
    ⟨?_, rfl, hta.insertReady hS fun x hx => ?_⟩, ?_⟩
  · rw [Heap.elems_insert]
    rfl
  · rcases mem_cons.mp hx with rfl | hx
    · exact hold
    exact hqu x (hqueued' x hx)
  have hl' : ((st.setDomain (st.domain.takeReady st.order).2).cpu last).linked = some old := hl
  rw [hl']
  exact requeue_ready hn (hrel old (.inl ⟨last, hl⟩))

theorem Assigned.preemptLinked (h : Assigned st) (hra : Ranked st.table {u | st.Known u})
    (hla : last ∈ st.cpuHeap.elems) (hpi : Picked st last t)
    (hrel : ∀ u, st.Active u → (st.task u).isReleased now = true) :
    ∃ st', st.preemptLinked now last = some st' ∧ Round st last t st' := by
  obtain ⟨rest, hre⟩ : ∃ rest, (st.domain.takeReady st.order).2.readyQueue.elems = rest :=
    ⟨_, rfl⟩
  have hco := ready_takeReady_some hpi.take
  rw [hre] at hco
  have htr : t ∈ st.held .ready := by
    rw [held, hco]
    exact mem_cons_self t _
  have htk : st.Known t := ⟨.ready, htr⟩
  have hfr : ∀ d, st.links d ≠ some t := fun d hd =>
    absurd (h.core.sound.unique (mem_linked.mpr hd) htr) (by simp)
  obtain ⟨dom, hdo, hput⟩ := h.putBack hra hrel last
  rw [hre] at hdo
  obtain ⟨hr, hw, hso⟩ := hdo
  have hcpu : CpusSorted {u | st.Known u} (st.setDomain dom) :=
    (h.cpusSorted hra).congr ⟨fun _ => rfl, fun _ => rfl, fun _ => rfl⟩ rfl rfl
  obtain ⟨st', hli, hk, hln, hcpus', hel⟩ := hcpu.linkTaskToCpu htk hla
    (fun s hs => h.takesPart t s htk hs) (h.core.realtime t htk) hfr
  have hst' : st.preemptLinked now last = some st' := by
    unfold Cluster.preemptLinked
    rw [hpi.take, bind_some]
    exact bind_eq_some_iff.mpr ⟨st.setDomain dom, hput, hli⟩
  have hk : Kept st st' := ⟨hk.scheduledOn, hk.job, hk.prio⟩
  have hdm : st'.domain = dom := (linkTaskToCpu_some hli).1.domain
  obtain ⟨hcr, _⟩ := h.core.preemptLinked hst'
  have hkn : ∀ u, st'.Known u ↔ st.Known u := hcr.sound.live_iff
  have hhom : ∀ c u d, st'.links c = some u → (st'.task u).scheduledOn = some d → d = c := by
    intro c u d hu hd
    rw [hk.scheduledOn] at hd
    rw [hln] at hu
    rcases relinked_cases st.links ((st.task t).scheduledOn.getD last) last t c with
      ⟨hc, heq⟩ | ⟨hc, hne, heq⟩ | ⟨_, _, heq⟩
    · cases heq.symm.trans hu
      rw [hd] at hc
      exact hc.symm
    · -- the task that `t` pushes off its CPU is not scheduled
      have hlu := heq.symm.trans hu
      rcases hs : (st.task t).scheduledOn with _ | s
      · rw [hs] at hne
        exact absurd rfl hne
      rw [hs, getD_some] at hlu
      rw [h.home s u d hlu hd] at hd
      have hut := h.alone u t s ⟨.linked s, mem_linked.mpr hlu⟩ htk hd hs
      exact absurd (hut ▸ hlu) (hfr s)
    exact h.home c u d (heq.symm.trans hu) hd
  refine ⟨st', hst', hk, ⟨hcr.congr hkn, hhom, hcpus'.once, hcpus'.heap, ?_, ?_, ?_⟩, hel,
    by rw [hdm]; exact hw, hkn, hln, rest, hco, by rw [hdm]; exact hr⟩
  · rw [hk.order, hdm]
    exact hso
  · intro a b c ha hb
    rw [hk.scheduledOn, hk.scheduledOn]
    exact h.alone a b c ((hkn a).mp ha) ((hkn b).mp hb)
  intro a c ha
  rw [hk.scheduledOn, hel]
  exact h.takesPart a c ((hkn a).mp ha)

/-! ### The loop -/

/-- Task `x` beats the link of some CPU. -/
def Presses (st : Cluster n) (x : TaskId) : Prop :=
  ∃ c ∈ st.cpuHeap.elems, edfHigherPrio st.table (some x) (st.links c) = true

instance (st : Cluster n) : DecidablePred st.Presses := fun _ =>
  Multiset.decidableExistsMultiset

/-- How many ready tasks beat the link of some CPU. -/
def pressing (st : Cluster n) : Nat := (st.domain.readyQueue.elems.filter st.Presses).card

theorem pressing_peeked (last : Fin n) : (st.peeked last).pressing = st.pressing := by
  have hr : (st.peeked last).domain.readyQueue.elems = st.domain.readyQueue.elems :=
    held_peeked last .ready
  have hel : (st.peeked last).cpuHeap.elems = st.cpuHeap.elems := Heap.elems_cacheMin _ _
  have hpre : (st.peeked last).Presses = st.Presses := by
    funext x
    unfold Presses
    rw [hel]
    rfl
  unfold pressing
  simp [hr, hpre]

theorem pressing_le (st : Cluster n) : st.pressing ≤ st.domain.readyQueue.elems.card :=
  card_le_card (filter_le _ _)

theorem Picked.pressing_pos (hpi : Picked st last t) (hla : last ∈ st.cpuHeap.elems) :
    0 < st.pressing := by
  refine card_pos_iff_exists_mem.mpr ⟨t, mem_filter.mpr ⟨?_, last, hla, hpi.beats⟩⟩
  rw [ready_takeReady_some hpi.take]
  exact mem_cons_self t _

/-- A round leaves fewer ready tasks that beat a CPU: `t` is gone, the previous task beats no
    CPU, and `t` is not beaten. -/
theorem Round.pressing_lt (h : Assigned st)
    (hra : Ranked st.table {u | st.Known u}) (hla : last ∈ st.cpuHeap.elems)
    (hlow : ∀ d, d ∈ st.cpuHeap.elems → ¬edfHigherPrio st.table (st.links last) (st.links d) = true)
    (hpi : Picked st last t) (hro : Round st last t st') : st'.pressing < st.pressing := by
  have hS := strictWeakOn_of_ranked hra
  obtain ⟨rest, hco, hr⟩ := hro.ready
  have hm : ∀ x ∈ rest, x ∈ st.domain.readyQueue.elems := fun x hx => by
    rw [hco]
    exact mem_cons_of_mem hx
  have htk : st.Known t := ⟨.ready, by rw [held, hco]; exact mem_cons_self t _⟩
  -- the new links are `t` and old ones of other CPUs
  have hln : ∀ d ∈ st.cpuHeap.elems, st'.links d = some t ∨
      ∃ e ∈ st.cpuHeap.elems, st'.links d = st.links e := by
    intro d hd
    rw [hro.links]
    rcases relinked_cases st.links ((st.task t).scheduledOn.getD last) last t d with
      ⟨_, heq⟩ | ⟨_, hne, heq⟩ | ⟨_, _, heq⟩
    · exact .inl heq
    · refine .inr ⟨_, ?_, heq⟩
      rcases hs : (st.task t).scheduledOn with _ | s
      · rw [hs] at hne
        exact absurd rfl hne
      exact h.takesPart t s htk hs
    exact .inr ⟨d, hd, heq⟩
  have hres : ∀ x ∈ rest, st'.Presses x → st.Presses x := by
    rintro x hx ⟨d, hd, hbe⟩
    rw [hro.cpuHeap] at hd
    rw [hro.kept.higher] at hbe
    rcases hln d hd with heq | ⟨e, he, heq⟩
    · rw [heq] at hbe
      exact absurd hbe (hpi.best x (hm x hx))
    exact ⟨e, he, heq ▸ hbe⟩
  have hold : (Heap.cached (st.links last)).filter st'.Presses = 0 := by
    rcases hl : st.links last with _ | old
    · rfl
    refine filter_eq_nil.mpr ?_
    rintro x hx ⟨d, hd, hbe⟩
    obtain rfl : x = old := mem_singleton.mp hx
    rw [hro.cpuHeap] at hd
    rw [hro.kept.higher] at hbe
    rcases hln d hd with heq | ⟨e, he, heq⟩
    · rw [heq] at hbe
      have hba := hpi.beats
      rw [hl] at hba
      exact hS.asymm t htk x ⟨.linked last, mem_linked.mpr hl⟩ hba hbe
    rw [heq, ← hl] at hbe
    exact hlow e he hbe
  have hp : st.Presses t := ⟨last, hla, hpi.beats⟩
  unfold pressing
  rw [hr, hco, filter_add, hold, zero_add, filter_cons_of_pos _ hp, card_cons]
  refine Nat.lt_succ_of_le (card_le_card ?_)
  refine le_filter.mpr ⟨filter_le _ _, fun x hx => ?_⟩
  obtain ⟨hx, hbe⟩ := mem_filter.mp hx
  exact hres x hx hbe

structure Reassigned (st st' : Cluster n) : Prop where
  kept : Kept st st'
  assigned : Assigned st'
  cpuHeap : st'.cpuHeap.elems = st.cpuHeap.elems
  waiting : st'.domain.waiting = st.domain.waiting
  known : ∀ u, st'.Known u ↔ st.Known u

theorem Reassigned.trans {st1 st2 st3 : Cluster n} (h : Reassigned st1 st2)
    (h' : Reassigned st2 st3) : Reassigned st1 st3 where
  kept := h.kept.trans h'.kept
  assigned := h'.assigned
  cpuHeap := h'.cpuHeap.trans h.cpuHeap
  waiting := h'.waiting.trans h.waiting
  known u := (h'.known u).trans (h.known u)

theorem Assigned.reassigned_peeked (h : Assigned st) (hra : Ranked st.table {u | st.Known u})
    (last : Fin n) : Reassigned st (st.peeked last) where
  kept := ⟨fun _ => rfl, fun _ => rfl, fun _ => rfl⟩
  assigned := h.peeked hra last
  cpuHeap := Heap.elems_cacheMin _ _
  waiting := held_peeked last .release
  known _ := exists_congr fun q => by rw [held_peeked]

theorem Assigned.active_iff (h : Assigned st) (u : TaskId) :
    st.Active u ↔ st.Known u ∧ u ∉ st.domain.waiting := by
  constructor
  · rintro (⟨c, hc⟩ | hr)
    · refine ⟨⟨.linked c, mem_linked.mpr hc⟩, fun hw => ?_⟩
      exact absurd (h.core.sound.unique (mem_linked.mpr hc) (q := .release) hw) (by simp)
    refine ⟨⟨.ready, hr⟩, fun hw => ?_⟩
    exact absurd (h.core.sound.unique (p := .ready) (q := .release) hr hw) (by simp)
  rintro ⟨⟨q, hq⟩, hw⟩
  rcases q with c | _ | _
  · exact .inl ⟨c, mem_linked.mp hq⟩
  · exact .inr hq
  exact absurd hq hw

theorem Reassigned.active (h : Assigned st) (hre : Reassigned st st') (u : TaskId) :
    st'.Active u ↔ st.Active u := by
  rw [h.active_iff, hre.assigned.active_iff, hre.known, hre.waiting]

theorem Reassigned.releasedAt {clock : List LtTime} (h : Assigned st) (hre : Reassigned st st')
    (hrel : ReleasedAt clock st) : ReleasedAt clock st' := by
  intro now hnow u hu
  have := hrel now hnow u ((hre.active h u).mp hu)
  rw [RtTask.isReleased] at this ⊢
  rw [hre.kept.job]
  exact this

theorem Reassigned.ranked (hre : Reassigned st st') (hra : Ranked st.table {u | st.Known u}) :
    Ranked st'.table {u | st'.Known u} :=
  hra.congr hre.kept.prio fun u hu => (hre.known u).mp hu

theorem Assigned.stop (h : Assigned st) (hra : Ranked st.table {u | st.Known u})
    (hlow : ∀ d, d ∈ st.cpuHeap.elems → ¬edfHigherPrio st.table (st.links last) (st.links d) = true)
    (heq : st.preemptionNeeded = some (last,
      (edfPreemptionNeeded st.table st.domain (st.links last)).1, st.peeked last))
    (hne : (edfPreemptionNeeded st.table st.domain (st.links last)).1 = false)
    (clock : List LtTime) :
    ∃ st', checkForPreemptions clock st = some st' ∧ Reassigned st st' ∧ TopAssigned st' := by
  have hpe := h.reassigned_peeked hra last
  refine ⟨st.peeked last, ?_, hpe, (h.top hra hlow hne).congr hpe.kept rfl
    hpe.cpuHeap (held_peeked last .ready)⟩
  rcases clock with _ | ⟨now, clock⟩ <;>
    simp [Cluster.checkForPreemptions, heq, hne]

theorem Assigned.checkForPreemptions {clock : List LtTime} (h : Assigned st)
    (hra : Ranked st.table {u | st.Known u}) (hso : st.cpuHeap.elems ≠ 0)
    (hrl : ReleasedAt clock st) (hrn : st.pressing ≤ clock.length) :
    ∃ st', checkForPreemptions clock st = some st' ∧ Reassigned st st' ∧ TopAssigned st' := by
  induction clock generalizing st with
  | nil =>
    obtain ⟨last, hla, hlo, heq⟩ := h.preemptionNeeded hra hso
    rcases hne : (edfPreemptionNeeded st.table st.domain (st.links last)).1 with _ | _
    · exact h.stop hra hlo heq hne []
    -- no ready task beats a CPU, so none is picked
    obtain ⟨t, hpi⟩ := h.picked hra hne
    have hp := hpi.pressing_pos
      (by rw [(h.reassigned_peeked hra last).cpuHeap]; exact hla)
    rw [pressing_peeked] at hp
    exact absurd hrn (not_le.mpr hp)
  | cons now clock ih =>
    obtain ⟨last, hla, hlo, heq⟩ := h.preemptionNeeded hra hso
    rcases hne : (edfPreemptionNeeded st.table st.domain (st.links last)).1 with _ | _
    · exact h.stop hra hlo heq hne (now :: clock)
    have hpe := h.reassigned_peeked hra last
    obtain ⟨t, hpi⟩ := h.picked hra hne
    have hlast1 : last ∈ (st.peeked last).cpuHeap.elems := by rw [hpe.cpuHeap]; exact hla
    have hlow1 : ∀ d, d ∈ (st.peeked last).cpuHeap.elems →
        ¬edfHigherPrio (st.peeked last).table ((st.peeked last).links last)
          ((st.peeked last).links d) = true := by
      rw [hpe.cpuHeap]
      exact hlo
    obtain ⟨st2, hst2, hro⟩ := hpe.assigned.preemptLinked (hpe.ranked hra) hlast1 hpi
      fun u hu => hpe.releasedAt h hrl now List.mem_cons_self u hu
    have hre2 : Reassigned st st2 := hpe.trans
      ⟨hro.kept, hro.assigned, hro.cpuHeap, hro.waiting, hro.known⟩
    have hles := hro.pressing_lt hpe.assigned (hpe.ranked hra) hlast1 hlow1 hpi
    rw [pressing_peeked] at hles
    obtain ⟨st', hst', hre, htop⟩ := ih hre2.assigned (hre2.ranked hra)
      (by rw [hre2.cpuHeap]; exact hso)
      (fun now hnow => hre2.releasedAt h hrl now (List.mem_cons_of_mem _ hnow))
      (by rw [List.length_cons] at hrn; omega)
    refine ⟨st', ?_, hre2.trans hre, htop⟩
    simp only [Cluster.checkForPreemptions, heq, hne, bind_some, if_true, hst2]
    exact hst'

end

end Cluster

/-! ### The global assignment -/

variable {t : TaskId}

/-- From every state in which it is called, `check_for_preemptions` ends after at most as many
    rounds as tasks are ready.  The state is as before, with the same linked and ready tasks,
    but now no ready task beats the task linked to any CPU, and no CPU is unlinked while a task
    is ready. -/
theorem gsnedf_check_for_preemptions {n : Nat} {st : Cluster n} (h : st.Assigned)
    (hrank : Ranked st.table {t | st.Known t}) (hsome : st.cpuHeap.elems ≠ 0)
    {clock : List LtTime} (hrel : st.ReleasedAt clock)
    (hrounds : st.domain.readyQueue.elems.card ≤ clock.length) :
    ∃ st', Cluster.checkForPreemptions clock st = some st' ∧ st'.Assigned ∧
      st'.ReleasedAt clock ∧ (∀ t, st'.Active t ↔ st.Active t) ∧
      st'.domain.waiting = st.domain.waiting ∧ st'.cpuHeap.elems = st.cpuHeap.elems ∧
      st'.TopAssigned := by
  obtain ⟨st', hst', hre, htop⟩ :=
    h.checkForPreemptions hrank hsome hrel (st.pressing_le.trans hrounds)
  exact ⟨st', hst', hre.assigned, hre.releasedAt h hrel, hre.active h, hre.waiting, hre.cpuHeap, htop⟩

def releasedJob {n : Nat} (deadline : LtTime) (linkedOn scheduledOn : Option (Fin n)) : GsnTask n :=
  { RtTask.admitted { execCost := 1, period := 100, cpu := 0, budgetPolicy := .noEnforcement } with
    job := { release := 0, deadline := deadline, execTime := 0, jobNo := 1 }
    np := false, linkedOn := linkedOn, scheduledOn := scheduledOn }

/-- Two CPUs are linked to tasks 1 and 2; task 3, which is still scheduled on the first CPU,
    has the earliest deadline and is ready. -/
def contested : Cluster 2 where
  task t := match t with
    | 1 => releasedJob 20 (some ⟨0, Nat.zero_lt_two⟩) none
    | 2 => releasedJob 30 (some (Fin.last 1)) (some (Fin.last 1))
    | 3 => releasedJob 10 none (some ⟨0, Nat.zero_lt_two⟩)
    | _ => { releasedJob 0 none none with realtime := false }
  cpu c :=
    { linked := if c = Fin.last 1 then some 2 else some 1
      scheduled := if c = Fin.last 1 then some 2 else some 3
      switching := none }
  cpuHeap := { forest := .node ⟨0, Nat.zero_lt_two⟩ 0 .nil .nil, min := some (Fin.last 1) }
  domain := { RtDomain.init 1000000 with
    readyQueue := { forest := .node 3 0 .nil .nil, min := none } }

theorem contested_held {q : Place 2} (h : t ∈ contested.held q) :
    (q = .linked 0 ∧ t = 1) ∨ (q = .linked 1 ∧ t = 2) ∨ (q = .ready ∧ t = 3) := by
  rcases q with c | _ | _
  · obtain rfl | rfl : c = 0 ∨ c = 1 := by omega
    · exact .inl ⟨rfl, mem_singleton.mp h⟩
    exact .inr (.inl ⟨rfl, mem_singleton.mp h⟩)
  · exact .inr (.inr ⟨rfl, mem_singleton.mp h⟩)
  exact absurd h (notMem_zero t)

theorem contested_known (h : contested.Known t) : t = 1 ∨ t = 2 ∨ t = 3 := by
  obtain ⟨q, hq⟩ := h
  rcases contested_held hq with ⟨_, ht⟩ | ⟨_, ht⟩ | ⟨_, ht⟩
  · exact .inl ht
  · exact .inr (.inl ht)
  exact .inr (.inr ht)

theorem contested_ranked : Ranked contested.table {t | contested.Known t} := by
  refine ⟨0, fun t ht => ?_⟩
  rcases contested_known ht with rfl | rfl | rfl <;> exact ⟨rfl, by decide⟩

theorem contested_assigned : contested.Assigned := by
  refine ⟨⟨⟨?_, ?_, fun t => .rfl⟩, ?_, ?_⟩, ?_, ?_, ?_, ?_, ?_, ?_⟩
  · intro q
    rcases q with c | _ | _
    · obtain rfl | rfl : c = 0 ∨ c = 1 := by omega
      · exact nodup_singleton 1
      exact nodup_singleton 2
    · exact nodup_singleton 3
    exact nodup_zero
  · intro p q t hp hq
    rcases contested_held hp with ⟨rfl, rfl⟩ | ⟨rfl, rfl⟩ | ⟨rfl, rfl⟩ <;>
      rcases contested_held hq with ⟨rfl, ht⟩ | ⟨rfl, ht⟩ | ⟨rfl, ht⟩ <;> first
        | rfl
        | exact absurd ht (by decide)
  · intro t ht c
    rcases t with _ | _ | _ | _ | t
    · cases ht
    · revert c
      decide
    · revert c
      decide
    · revert c
      decide
    · cases ht
  · intro t ht
    rcases contested_known ht with rfl | rfl | rfl <;> rfl
  · intro c t d ht hd
    have hkno : contested.Known t := ⟨.linked c, Cluster.mem_linked.mpr ht⟩
    rcases contested_known hkno with rfl | rfl | rfl <;> revert c d <;> decide
  · decide
  · refine ⟨⟨fun b hb => absurd hb (notMem_zero b), trivial, trivial⟩, fun m hm b hb => ?_⟩
    cases hm
    obtain rfl : b = 0 := mem_singleton.mp hb
    decide
  · refine ⟨⟨⟨fun b hb => absurd hb (notMem_zero b), trivial, trivial⟩, fun m hm => ?_⟩,
      fun rh hrh => absurd hrh List.not_mem_nil⟩
    cases hm
  · intro t u c ht hu
    rcases contested_known ht with rfl | rfl | rfl <;>
      rcases contested_known hu with rfl | rfl | rfl <;> revert c <;> decide
  · intro t c ht
    rcases contested_known ht with rfl | rfl | rfl <;> revert c <;> decide

/-- Task 3 is linked to the CPU it is scheduled on, task 1 moves to the other one, and task 2
    is put back. -/
theorem gsnedf_check_for_preemptions_swap :
    ∃ st', Cluster.checkForPreemptions [5] contested = some st' ∧ st'.links 0 = some 3 ∧
      st'.links 1 = some 1 ∧ st'.TopAssigned := by
  have hrel : contested.ReleasedAt [5] := by
    intro now hnow t ht
    obtain rfl := List.mem_singleton.mp hnow
    rcases contested_known ((contested_assigned.active_iff t).mp ht).1 with rfl | rfl | rfl <;>
      decide
  obtain ⟨st', hst', _, _, _, _, _, htop⟩ := gsnedf_check_for_preemptions contested_assigned
    contested_ranked (by decide) hrel (by decide)
  have heval : (Cluster.checkForPreemptions [5] contested).any (fun st =>
      decide (st.links 0 = some 3 ∧ st.links 1 = some 1)) = true := by decide +kernel
  rw [hst'] at heval
  obtain ⟨h0, h1⟩ := of_decide_eq_true heval
  exact ⟨st', hst', h0, h1, htop⟩

/-- Two tasks whose deadlines are 2^63 apart, one linked to the only CPU, the other ready. -/
def rivals (first : Bool) : Cluster 1 where
  task t := match t with
    | 1 => releasedJob 0 (if first then some 0 else none) none
    | 2 => releasedJob (2 ^ 63) (if first then none else some 0) none
    | _ => { releasedJob 0 none none with realtime := false }
  cpu _ := { linked := some (if first then 1 else 2), scheduled := none, switching := none }
  cpuHeap := { forest := .node 0 0 .nil .nil, min := none }
  domain := { RtDomain.init 1000000 with
    readyQueue := { forest := .node (if first then 2 else 1) 0 .nil .nil, min := none } }

theorem rivals_beat (first : Bool) :
    (edfPreemptionNeeded (rivals first).table (rivals first).domain ((rivals first).links 0)).1 =
      true := by
  rcases first <;> decide +kernel

theorem rivals_needed (first : Bool) :
    (rivals first).preemptionNeeded = some (0, true, (rivals first).peeked 0) := by
  have hpee : (rivals first).preemptionNeeded = some (0, (edfPreemptionNeeded (rivals first).table
      (rivals first).domain ((rivals first).links 0)).1, (rivals first).peeked 0) := rfl
  rw [hpee, rivals_beat]

theorem rivals_swap (first : Bool) :
    ((rivals first).peeked 0).preemptLinked 5 0 = some (rivals !first) := by
  have hrou : ∃ task cpu, ((rivals first).peeked 0).preemptLinked 5 0 =
      some { rivals !first with task := task, cpu := cpu } ∧
        (∀ t, task t = (rivals !first).task t) ∧ ∀ c, cpu c = (rivals !first).cpu c := by
    rcases first <;> refine ⟨_, _, rfl, fun t => ?_, fun c => ?_⟩
    · rcases t with _ | _ | _ | t <;> rfl
    · obtain rfl : c = 0 := Subsingleton.elim c 0
      rfl
    · rcases t with _ | _ | _ | t <;> rfl
    · obtain rfl : c = 0 := Subsingleton.elim c 0
      rfl
  obtain ⟨task, cpu, hst, hta, hc⟩ := hrou
  obtain rfl : task = (rivals !first).task := funext hta
  obtain rfl : cpu = (rivals !first).cpu := funext hc
  exact hst

theorem rivals_endless (first : Bool) (k : Nat) :
    Cluster.checkForPreemptions (List.replicate k 5) (rivals first) = none := by
  induction k generalizing first with
  | zero =>
    simp [Cluster.checkForPreemptions, rivals_needed first]
  | succ k ih =>
    simp only [List.replicate_succ, Cluster.checkForPreemptions, rivals_needed first,
      rivals_swap first, bind_some, if_true]
    exact ih !first

theorem rivals_held {q : Place 1} (h : t ∈ (rivals true).held q) :
    (q = .linked 0 ∧ t = 1) ∨ (q = .ready ∧ t = 2) := by
  rcases q with c | _ | _
  · obtain rfl : c = 0 := Subsingleton.elim c 0
    exact .inl ⟨rfl, mem_singleton.mp h⟩
  · exact .inr ⟨rfl, mem_singleton.mp h⟩
  exact absurd h (notMem_zero t)

theorem rivals_known (h : (rivals true).Known t) : t = 1 ∨ t = 2 := by
  obtain ⟨q, hq⟩ := h
  rcases rivals_held hq with ⟨_, ht⟩ | ⟨_, ht⟩
  · exact .inl ht
  exact .inr ht

theorem rivals_assigned : (rivals true).Assigned := by
  refine ⟨⟨⟨?_, ?_, fun t => .rfl⟩, ?_, ?_⟩, ?_, ?_, ?_, ?_, ?_, ?_⟩
  · intro q
    rcases q with c | _ | _
    · exact nodup_singleton 1
    · exact nodup_singleton 2
    exact nodup_zero
  · intro p q t hp hq
    rcases rivals_held hp with ⟨rfl, rfl⟩ | ⟨rfl, rfl⟩ <;>
      rcases rivals_held hq with ⟨rfl, ht⟩ | ⟨rfl, ht⟩ <;> first
        | rfl
        | exact absurd ht (by decide)
  · intro t ht c
    rcases t with _ | _ | _ | t
    · cases ht
    · revert c
      decide
    · revert c
      decide
    · cases ht
  · intro t ht
    rcases rivals_known ht with rfl | rfl <;> rfl
  · intro c t d ht hd
    exact Subsingleton.elim d c
  · decide
  · exact ⟨⟨fun b hb => absurd hb (notMem_zero b), trivial, trivial⟩, nofun⟩
  · exact ⟨⟨⟨fun b hb => absurd hb (notMem_zero b), trivial, trivial⟩, nofun⟩,
      fun rh hrh => absurd hrh List.not_mem_nil⟩
  · intro t u c ht hu
    rcases rivals_known ht with rfl | rfl <;>
      rcases rivals_known hu with rfl | rfl <;> revert c <;> decide
  · intro t c ht
    rcases rivals_known ht with rfl | rfl <;> revert c <;> decide

/-- With deadlines 2^63 apart the loop never ends. -/
theorem gsnedf_check_for_preemptions_endless :
    ∃ st : Cluster 1, st.Assigned ∧ st.cpuHeap.elems ≠ 0 ∧ ∀ k, st.ReleasedAt (List.replicate k 5) ∧
        Cluster.checkForPreemptions (List.replicate k 5) st = none := by
  refine ⟨rivals true, rivals_assigned, by decide, fun k => ⟨?_, rivals_endless true k⟩⟩
  intro now hnow t ht
  obtain rfl := List.eq_of_mem_replicate hnow
  rcases rivals_known ((rivals_assigned.active_iff t).mp ht).1 with rfl | rfl <;> decide

end Litmus.GsnEdf
