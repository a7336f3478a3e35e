import Litmus.Custody
import Litmus.GsnSystem
import Litmus.Linkage

/-!
# Links and queues of a global EDF cluster

Where the tasks of a cluster are, and how the operations of the schedulers move them
between the links of the CPUs, the ready queue and the release queue.
-/

namespace Litmus.GsnEdf

open BinomialForest Custody Linkage Function Heap Option RtDomain

inductive Place (n : Nat) where
  | linked (c : Fin n)
  | ready
  | release
deriving DecidableEq

namespace Cluster

variable {n : Nat}

def held (st : Cluster n) : Place n → Multiset TaskId
  | .linked c => Heap.cached (st.cpu c).linked
  | .ready => st.domain.readyQueue.elems
  | .release => st.domain.waiting

/-- An admitted task that is not blocked and has not exited. -/
def Live (st : Cluster n) (t : TaskId) : Prop :=
  (st.task t).realtime = true ∧ (st.task t).running = true

def IsRealtime (st : Cluster n) (t : TaskId) : Prop := (st.task t).realtime = true

def links (st : Cluster n) (c : Fin n) : Option TaskId := (st.cpu c).linked

def linkedOns (st : Cluster n) (t : TaskId) : Option (Fin n) := (st.task t).linkedOn

/-- Whether a task is a real-time task, and runnable. -/
def status (st : Cluster n) (t : TaskId) : Bool × Bool :=
  ((st.task t).realtime, (st.task t).running)

section

variable {st st' : Cluster n} {c : Fin n} {t : TaskId} {now : LtTime}

theorem mem_linked : t ∈ st.held (.linked c) ↔ st.links c = some t := by
  cases hl : (st.cpu c).linked <;> simp [held, links, hl, cached, eq_comm]

theorem live_of_status (h : st'.status = st.status) (t : TaskId) : st'.Live t ↔ st.Live t := by
  have ht := congrFun h t
  simp only [status, Prod.mk.injEq] at ht
  rw [Live, Live, ht.1, ht.2]

theorem isRealtime_of_status (h : st'.status = st.status) : st'.IsRealtime = st.IsRealtime := by
  funext t
  have ht : (st'.task t).realtime = (st.task t).realtime := congrArg Prod.fst (congrFun h t)
  rw [IsRealtime, IsRealtime, ht]

theorem held_congr (hln : st'.links = st.links) (hdo : st'.domain = st.domain) (q : Place n) :
    st'.held q = st.held q := by
  cases q with
  | linked c => exact congrArg cached (congrFun hln c)
  | ready => simp [held, hdo]
  | release => simp [held, hdo]

/-! ### Changing a task -/

@[simp] theorem setTask_self (p : GsnTask n) : (st.setTask t p).task t = p :=
  update_self _ _ _

theorem setTask_of_ne {u : TaskId} (hu : u ≠ t) (p : GsnTask n) :
    (st.setTask t p).task u = st.task u := update_of_ne hu _ _

theorem linkedOns_setTask (p : GsnTask n) :
    (st.setTask t p).linkedOns = update st.linkedOns t p.linkedOn := by
  funext u
  by_cases hu : u = t
  · subst hu
    simp [linkedOns]
  simp [linkedOns, setTask_of_ne hu, hu]

theorem status_setTask {p : GsnTask n} (hp : (p.realtime, p.running) = st.status t) :
    (st.setTask t p).status = st.status := by
  funext u
  by_cases hu : u = t
  · subst hu
    simp [status] at hp ⊢
    exact hp
  simp [status, setTask_of_ne hu]

theorem linkedOns_modify (f : RtTask → RtTask) : (st.modify t f).linkedOns = st.linkedOns := by
  rw [modify, linkedOns_setTask]
  exact update_eq_self t st.linkedOns

theorem status_modify {f : RtTask → RtTask}
    (hf : ∀ p, (f p).realtime = p.realtime ∧ (f p).running = p.running) :
    (st.modify t f).status = st.status := by
  apply status_setTask
  simp [status, hf]

/-! ### Links -/

structure Relinked (st st' : Cluster n) : Prop where
  domain : st'.domain = st.domain
  status : st'.status = st.status

theorem Relinked.trans {st1 st2 st3 : Cluster n} (h1 : Relinked st1 st2) (h2 : Relinked st2 st3) :
    Relinked st1 st3 :=
  ⟨h2.domain.trans h1.domain, h2.status.trans h1.status⟩

theorem relinked_setLinkedOn (t : TaskId) (c : Option (Fin n)) (st : Cluster n) :
    Relinked st (st.setLinkedOn t c) := ⟨rfl, status_setTask rfl⟩

theorem detach_spec (c : Fin n) (st : Cluster n) :
    Relinked st (st.detach c) ∧ (st.detach c).links = st.links ∧
      (st.detach c).linkedOns = forget st.links c st.linkedOns := by
  unfold detach
  split
  · rename_i old hold
    refine ⟨relinked_setLinkedOn old none st, rfl, ?_⟩
    rw [setLinkedOn, linkedOns_setTask, forget]
    simp [links, hold]
  rename_i hn
  refine ⟨⟨rfl, rfl⟩, rfl, ?_⟩
  simp [forget, links, hn]

theorem attach_spec (c : Fin n) (t : Option TaskId) (st : Cluster n) :
    Relinked st (st.attach c t) ∧ (st.attach c t).links = update st.links c t ∧
      (st.attach c t).linkedOns = tell c t st.linkedOns := by
  have hln : ∀ s : Cluster n, ((s.setLinked c t).updateCpuPosition c).links =
      update s.links c t := by
    intro s
    funext d
    by_cases hd : d = c
    · subst hd
      simp [links, updateCpuPosition, setLinked]
    simp [links, updateCpuPosition, setLinked, hd]
  cases t with
  | none => exact ⟨⟨rfl, rfl⟩, hln st, rfl⟩
  | some u =>
    have hset := relinked_setLinkedOn u (some c) st
    refine ⟨⟨rfl, hset.status⟩, hln _, ?_⟩
    exact linkedOns_setTask _

theorem linkTaskToCpu_none (h : st.linkTaskToCpu none c = some st') :
    Relinked st st' ∧ st'.links = update st.links c none ∧
      st'.linkedOns = forget st.links c st.linkedOns := by
  cases h
  obtain ⟨hrel, hln, hons⟩ := detach_spec c st
  obtain ⟨hrel', hlinks', hons'⟩ := attach_spec c none (st.detach c)
  refine ⟨hrel.trans hrel', ?_, ?_⟩
  · rw [hlinks', hln]
  rw [hons', hons]
  rfl

theorem linkTaskToCpu_some (h : st.linkTaskToCpu (some t) c = some st') :
    Relinked st st' ∧ (st'.links = update st.links c (some t) ∧
          st'.linkedOns = update (forget st.links c st.linkedOns) t (some c) ∨
        ∃ s, c ≠ s ∧ st'.links = update (update st.links s (some t)) c (st.links s) ∧
          st'.linkedOns = tell c (st.links s)
            (update (forget st.links c st.linkedOns) t (some s))) := by
  unfold linkTaskToCpu at h
  dsimp only at h
  split at h
  · cases h
  obtain ⟨hrel, hln, hons⟩ := detach_spec c st
  have hfl : Relinked st ((st.detach c).modify t (RtTask.setRtFlags .running)) :=
    hrel.trans ⟨rfl, status_modify fun _ => ⟨rfl, rfl⟩⟩
  have hlinks1 : ((st.detach c).modify t (RtTask.setRtFlags .running)).links = st.links := hln
  have hons1 : ((st.detach c).modify t (RtTask.setRtFlags .running)).linkedOns =
      forget st.links c st.linkedOns := (linkedOns_modify _).trans hons
  generalize (st.detach c).modify t (RtTask.setRtFlags .running) = st1 at *
  have hpl : Relinked st (st1.attach c (some t)) ∧
      (st1.attach c (some t)).links = update st.links c (some t) ∧
      (st1.attach c (some t)).linkedOns = update (forget st.links c st.linkedOns) t (some c) := by
    obtain ⟨hrel', hlinks', hons'⟩ := attach_spec c (some t) st1
    refine ⟨hfl.trans hrel', ?_, ?_⟩
    · rw [hlinks', hlinks1]
    rw [hons', hons1]
    rfl
  unfold linkTask at h
  split at h
  · cases h
    exact ⟨hpl.1, .inl hpl.2⟩
  rename_i s hs
  split at h
  · cases h
  split at h
  · rename_i hcs
    cases h
    obtain ⟨hrel1, hl1, ho1⟩ := attach_spec s (some t) st1
    obtain ⟨hrel2, hl2, ho2⟩ := attach_spec c (st1.cpu s).linked (st1.attach s (some t))
    have hsl : (st1.cpu s).linked = st.links s := congrFun hlinks1 s
    refine ⟨(hfl.trans hrel1).trans hrel2, .inr ⟨s, hcs, ?_, ?_⟩⟩
    · rw [hl2, hl1, hlinks1, hsl]
    rw [ho2, ho1, hons1, hsl]
    rfl
  cases h
  exact ⟨hpl.1, .inl hpl.2⟩

/-! ### The invariant -/

/-- The tasks of `live` are each at one place, and the two directions of the links agree. -/
structure Core (live : TaskId → Prop) (st : Cluster n) : Prop where
  sound : Sound st.held live
  paired : Paired st.IsRealtime st.links st.linkedOns
  realtime : ∀ t, live t → st.IsRealtime t

def GsnInv (st : Cluster n) : Prop := Core st.Live st

variable {live live' : TaskId → Prop}

theorem Core.congr (h : Core live st) (hl : ∀ u, live' u ↔ live u) : Core live' st := by
  refine ⟨h.sound.congr (fun _ => rfl) hl, h.paired, fun u hu => ?_⟩
  exact h.realtime u ((hl u).mp hu)

theorem Core.same (h : Core live st) (hh : ∀ q, st'.held q = st.held q)
    (hln : st'.links = st.links) (hons : st'.linkedOns = st.linkedOns)
    (hrt : st'.IsRealtime = st.IsRealtime) : Core live st' := by
  refine ⟨h.sound.congr hh (fun _ => .rfl), ?_, ?_⟩
  · rw [hln, hons, hrt]
    exact h.paired
  rw [hrt]
  exact h.realtime

theorem Core.link_realtime (h : Core live st) {u : TaskId} (hc : st.links c = some u) :
    st.IsRealtime u :=
  h.realtime u ((h.sound.live_iff u).mp ⟨.linked c, mem_linked.mpr hc⟩)

/-! ### Linking -/

/-- The tasks at each place, without the link of CPU `c`. -/
def heldBut (c : Fin n) (st : Cluster n) : Place n → Multiset TaskId :=
  update st.held (.linked c) 0

@[simp] theorem heldBut_self (c : Fin n) (st : Cluster n) : st.heldBut c (.linked c) = 0 :=
  update_self _ _ _

theorem heldBut_of_ne {q : Place n} (hq : q ≠ .linked c) : st.heldBut c q = st.held q :=
  update_of_ne hq _ _

theorem heldBut_of_none (h : st.links c = none) (q : Place n) : st.heldBut c q = st.held q := by
  by_cases hq : q = .linked c
  · rw [hq, heldBut_self]
    exact (congrArg cached h).symm
  exact heldBut_of_ne hq

theorem held_linked (h : st'.links = update st.links c (some t)) (q : Place n) :
    (q = .linked c → st'.held q = {t}) ∧
      (q ≠ .linked c → st'.domain = st.domain → st'.held q = st.held q) := by
  constructor
  · rintro rfl
    have hc : st'.links c = some t := by rw [h, update_self]
    exact congrArg cached hc
  intro hq hdo
  cases q with
  | linked d =>
    have hdc : d ≠ c := by
      rintro rfl
      exact hq rfl
    have hd : st'.links d = st.links d := by rw [h, update_of_ne hdc]
    exact congrArg cached hd
  | ready => simp [held, hdo]
  | release => simp [held, hdo]

/-- A task in hand is linked to CPU `c`, whose link does not count any more. -/
theorem Core.link (hso : Sound (st.heldBut c) live)
    (hbut : PairedBut st.IsRealtime c st.links st.linkedOns) (hrt : ∀ u, live u → st.IsRealtime u)
    (ht : ¬live t) (htrt : st.IsRealtime t) (hc : st.links c ≠ some t)
    (hlin : st.linkTaskToCpu (some t) c = some st') : Core (fun u => u = t ∨ live u) st' := by
  obtain ⟨hre, hcas⟩ := linkTaskToCpu_some hlin
  have hcl := hbut.clear
  have hfre : ∀ d, st.links d ≠ some t := by
    intro d hd
    by_cases hdc : d = c
    · exact hc (hdc ▸ hd)
    refine hso.not_mem ht (.linked d) ?_
    rw [heldBut_of_ne (by simpa using hdc)]
    exact mem_linked.mpr hd
  have hfresh' : ∀ d, update st.links c none d ≠ some t := by
    intro d hd
    by_cases hdc : d = c
    · rw [hdc, update_self] at hd
      cases hd
    rw [update_of_ne hdc] at hd
    exact hfre d hd
  have hrt' : ∀ u, u = t ∨ live u → st'.IsRealtime u := by
    rw [isRealtime_of_status hre.status]
    rintro u (rfl | hu)
    · exact htrt
    exact hrt u hu
  rcases hcas with ⟨hln, hon⟩ | ⟨s, hcs, hln, hon⟩
  · refine ⟨?_, ?_, hrt'⟩
    · apply hso.enter ht (b := .linked c)
      · rw [heldBut_self, ((held_linked hln _).1 rfl)]
        rfl
      · intro q hq
        rw [heldBut_of_ne hq]
        exact (held_linked hln q).2 hq hre.domain
      exact fun _ => .rfl
    rw [isRealtime_of_status hre.status, hln, hon]
    have hfil := hcl.fill (c := c) (update_self _ _ _) hfresh'
    rwa [update_idem] at hfil
  -- the task linked to `s` moves to `c`, then `t` is linked to `s`
  have hsc : s ≠ c := fun heq => hcs heq.symm
  have hlinks_s : st'.links s = some t := by
    rw [hln, update_of_ne hsc, update_self]
  have hlinks_c : st'.links c = st.links s := by rw [hln, update_self]
  have ho : ∀ q : Place n, q ≠ .linked c → q ≠ .linked s → st'.held q = st.held q := by
    intro q hqc hqs
    cases q with
    | linked d =>
      have hdc : d ≠ c := by
        rintro rfl
        exact hqc rfl
      have hds : d ≠ s := by
        rintro rfl
        exact hqs rfl
      have hd : st'.links d = st.links d := by
        rw [hln, update_of_ne hdc, update_of_ne hds]
      exact congrArg cached hd
    | ready => simp [held, hre.domain]
    | release => simp [held, hre.domain]
  let H : Place n → Multiset TaskId := update st'.held (.linked s) 0
  have hmo : Sound H live := by
    have hout : st.heldBut c (.linked s) = cached (st.links s) + H (.linked s) := by
      rw [heldBut_of_ne (by simpa using hsc)]
      simp only [H, update_self, Multiset.add_zero]
      rfl
    have hin : H (.linked c) = st.heldBut c (.linked c) + cached (st.links s) := by
      rw [heldBut_self, Multiset.zero_add]
      simp only [H, update_of_ne (show (Place.linked c : Place n) ≠ .linked s by
        simpa using hcs)]
      exact congrArg cached hlinks_c
    refine hso.transfer (by simpa using hsc) hout hin ?_ (fun _ => .rfl)
    intro q hqs hqc
    simp only [H, update_of_ne hqs]
    rw [heldBut_of_ne hqc, ho q hqc hqs]
  refine ⟨?_, ?_, hrt'⟩
  · apply hmo.enter ht (b := .linked s)
    · simp only [H, update_self]
      exact congrArg cached hlinks_s
    · intro q hq
      simp [H, update_of_ne hq]
    exact fun _ => .rfl
  rw [isRealtime_of_status hre.status, hln, hon]
  have hsw := hcl.swap (s := s) (t := t) (update_self _ _ _) hcs (by
      intro u hu
      rw [update_of_ne hsc] at hu
      apply hrt u
      apply (hso.live_iff u).mp
      refine ⟨.linked s, ?_⟩
      rw [heldBut_of_ne (by simpa using hsc)]
      exact mem_linked.mpr hu) hfresh'
  rw [update_of_ne hsc] at hsw
  have hide : update (update (update st.links c none) s (some t)) c (st.links s) =
        update (update st.links s (some t)) c (st.links s) := by
    rw [update_comm hsc, update_idem, update_comm hcs]
  rwa [hide] at hsw

theorem Core.unlink (h : Core live st) (ht : st.IsRealtime t) (hun : st.unlink t = some st') :
    Core (fun u => u ≠ t ∧ live u) st' ∧ st'.status = st.status := by
  unfold Cluster.unlink at hun
  split at hun
  · rename_i c hon
    have hc : st.links c = some t := (h.paired t ht c).mp hon
    obtain ⟨hre, hln, hons⟩ := linkTaskToCpu_none hun
    have hse := relinked_setLinkedOn t none st
    have hst : st'.status = st.status := hre.status.trans hse.status
    refine ⟨⟨?_, ?_, ?_⟩, hst⟩
    · have hlinks' : st'.links = update st.links c none := hln
      have hc' : st'.links c = none := by rw [hlinks', update_self]
      apply h.sound.leave (a := .linked c)
      · have h0 : st'.held (.linked c) = 0 := congrArg cached hc'
        rw [h0]
        exact congrArg cached hc
      · intro q hq
        cases q with
        | linked d =>
          have hdc : d ≠ c := by
            rintro rfl
            exact hq rfl
          have hd : st'.links d = st.links d := by rw [hlinks', update_of_ne hdc]
          exact congrArg cached hd
        | ready => simp [held, hre.domain, hse.domain]
        | release => simp [held, hre.domain, hse.domain]
      exact fun _ => .rfl
    · rw [isRealtime_of_status hst, hln, hons, setLinkedOn, linkedOns_setTask]
      exact (h.paired.forgotten ht hc).clear
    intro u hu
    rw [isRealtime_of_status hst]
    exact h.realtime u hu.2
  rename_i hon
  split at hun
  · obtain ⟨dom, hdom, rfl⟩ := map_eq_some_iff.mp hun
    obtain ⟨H, hH, rfl⟩ := map_eq_some_iff.mp hdom
    refine ⟨⟨?_, h.paired, fun u hu => h.realtime u hu.2⟩, rfl⟩
    apply h.sound.leave (a := .ready)
    · exact elems_delete hH (h.sound.nodup .ready)
    · intro q hq
      cases q with
      | linked d => rfl
      | ready => exact absurd rfl hq
      | release => rfl
    exact fun _ => .rfl
  rename_i hno
  cases hun
  have hn : ¬live t := by
    intro hl
    obtain ⟨q, hq⟩ := (h.sound.live_iff t).mpr hl
    cases q with
    | linked d => cases hon.symm.trans ((h.paired t ht d).mpr (mem_linked.mp hq))
    | ready =>
      exact hno (isQueued_iff.mpr (mem_queued.mpr (.inl hq)))
    | release =>
      exact hno (isQueued_iff.mpr (mem_queued.mpr (.inr hq)))
  refine ⟨h.congr fun u => ?_, rfl⟩
  constructor
  · exact fun hu => hu.2
  exact fun hu => ⟨fun heq => hn (heq ▸ hu), hu⟩

theorem requeue_spec (h : st.requeue now t = some st') :
    ∃ q : Place n, (q = .ready ∨ q = .release) ∧ st'.held q = t ::ₘ st.held q ∧
      (∀ r, r ≠ q → st'.held r = st.held r) ∧ st'.links = st.links ∧
      st'.linkedOns = st.linkedOns ∧ st'.status = st.status := by
  unfold requeue at h
  split at h
  · cases h
  split at h
  · obtain ⟨dom, hdo, rfl⟩ := map_eq_some_iff.mp h
    unfold addReady at hdo
    split at hdo
    · cases hdo
    cases hdo
    refine ⟨.ready, .inl rfl, elems_insert _ _ _, fun r hr => ?_, rfl, rfl, rfl⟩
    cases r with
    | linked d => rfl
    | ready => exact absurd rfl hr
    | release => rfl
  cases h
  refine ⟨.release, .inr rfl, waiting_addRelease _ _ _ _, fun r hr => ?_, rfl, rfl, rfl⟩
  cases r with
  | linked d => rfl
  | ready => rfl
  | release => exact absurd rfl hr

theorem Core.requeue (h : Core live st) (ht : ¬live t) (hrt : st.IsRealtime t)
    (hrq : st.requeue now t = some st') :
    Core (fun u => u = t ∨ live u) st' ∧ st'.status = st.status := by
  obtain ⟨q, -, hher, ho, hln, hons, hst⟩ := requeue_spec hrq
  refine ⟨⟨h.sound.enter ht hher ho (fun _ => .rfl), ?_, ?_⟩, hst⟩
  · rw [isRealtime_of_status hst, hln, hons]
    exact h.paired
  rw [isRealtime_of_status hst]
  rintro u (rfl | hu)
  · exact hrt
  exact h.realtime u hu

theorem Core.takeReady (h : Core live st) (ht : (st.domain.takeReady st.order).1 = some t) :
    live t ∧ Core (fun u => u ≠ t ∧ live u) (st.setDomain (st.domain.takeReady st.order).2) := by
  have hco := ready_takeReady_some ht
  have hm : t ∈ st.held .ready := by
    rw [held, hco]
    exact Multiset.mem_cons_self t _
  refine ⟨(h.sound.live_iff t).mp ⟨_, hm⟩, ?_, h.paired, fun u hu => h.realtime u hu.2⟩
  apply h.sound.leave (a := .ready)
  · exact hco
  · intro q hq
    cases q with
    | linked d => rfl
    | ready => exact absurd rfl hq
    | release => rfl
  exact fun _ => .rfl

/-! ### Preemptions -/

theorem live_iff_or (ht : live t) (u : TaskId) : live u ↔ u = t ∨ u ≠ t ∧ live u := by
  constructor
  · intro hu
    by_cases hut : u = t
    · exact .inl hut
    exact .inr ⟨hut, hu⟩
  rintro (rfl | hu)
  · exact ht
  exact hu.2

theorem Core.preemptionNeeded {needed : Bool} (h : Core live st)
    (hp : st.preemptionNeeded = some (c, needed, st')) :
    Core live st' ∧ st'.status = st.status := by
  obtain ⟨⟨last, st1⟩, hla, heq⟩ := map_eq_some_iff.mp hp
  obtain ⟨d, -, hd⟩ := map_eq_some_iff.mp hla
  cases hd
  cases heq
  obtain ⟨hr, hw⟩ := edfPreemptionNeeded_contents st.table st.domain (st.cpu c).linked
  refine ⟨h.same (fun q => ?_) rfl rfl rfl, rfl⟩
  cases q with
  | linked d => rfl
  | ready => exact hr
  | release => exact hw

/-- The task linked to CPU `last` is requeued, and another one linked in its place. -/
theorem Core.preemptLinked {last : Fin n} (h : Core live st)
    (hp : st.preemptLinked now last = some st') : Core live st' ∧ st'.status = st.status := by
  obtain ⟨t, ht, hp⟩ := bind_eq_some_iff.mp hp
  obtain ⟨st2, hst2, hli⟩ := bind_eq_some_iff.mp hp
  obtain ⟨hlv, hta⟩ := h.takeReady ht
  have hno : ¬(t ≠ t ∧ live t) := fun hbot => hbot.1 rfl
  have hfre : st.links last ≠ some t := by
    intro hl
    exact hta.sound.not_mem hno (.linked last) (mem_linked.mpr hl)
  have hpar : Sound (st2.heldBut last) (fun u => u ≠ t ∧ live u) ∧
      st2.links = st.links ∧ st2.linkedOns = st.linkedOns ∧ st2.status = st.status := by
    split at hst2
    · rename_i old hold
      have hold' : st.links last = some old := hold
      obtain ⟨q, hq, hher, ho, hln, hon, hst⟩ := requeue_spec hst2
      have hql : q ≠ .linked last := by
        rcases hq with rfl | rfl <;> simp
      refine ⟨?_, hln, hon, hst⟩
      apply hta.sound.move (a := .linked last) (b := q) (t := old) (Ne.symm hql)
      · rw [heldBut_self]
        exact congrArg cached hold'
      · rw [heldBut_of_ne hql]
        exact hher
      · intro r hr hrq
        rw [heldBut_of_ne hr, ho r hrq]
      · exact fun _ => .rfl
    rename_i hn
    cases hst2
    exact ⟨hta.sound.congr (heldBut_of_none hn) (fun _ => .rfl), rfl, rfl, rfl⟩
  obtain ⟨hsou, hln, hon, hst⟩ := hpar
  have hrt := isRealtime_of_status hst
  have hlk : Core (fun u => u = t ∨ u ≠ t ∧ live u) st' := by
    apply Core.link hsou ?_ ?_ hno ?_ ?_ hli
    · rw [hln, hon, hrt]
      exact h.paired.but fun u hu => h.link_realtime hu
    · rw [hrt]
      exact fun u hu => h.realtime u hu.2
    · rw [hrt]
      exact h.realtime t hlv
    · rw [hln]
      exact hfre
  have hstatus' : st'.status = st.status := (linkTaskToCpu_some hli).1.status.trans hst
  exact ⟨hlk.congr (live_iff_or hlv), hstatus'⟩

theorem Core.checkForPreemptions {clock : List LtTime} (h : Core live st)
    (hp : checkForPreemptions clock st = some st') : Core live st' ∧ st'.status = st.status := by
  induction clock generalizing st with
  | nil =>
    obtain ⟨⟨last, needed, st1⟩, h1, hp⟩ := bind_eq_some_iff.mp hp
    dsimp only at hp
    split at hp
    · cases hp
    cases hp
    exact h.preemptionNeeded h1
  | cons now clock ih =>
    obtain ⟨⟨last, needed, st1⟩, h1, hp⟩ := bind_eq_some_iff.mp hp
    obtain ⟨hinv1, hstatus1⟩ := h.preemptionNeeded h1
    dsimp only at hp
    split at hp
    · obtain ⟨st2, hst2, hp⟩ := bind_eq_some_iff.mp hp
      obtain ⟨hinv2, hstatus2⟩ := hinv1.preemptLinked hst2
      obtain ⟨hI, hst⟩ := ih hinv2 hp
      exact ⟨hI, hst.trans (hstatus2.trans hstatus1)⟩
    cases hp
    exact ⟨hinv1, hstatus1⟩

end

end Cluster

end Litmus.GsnEdf
