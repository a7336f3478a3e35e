import Mathlib.Data.Fin.VecNotation
import Litmus.FmPlaces

/-!
# Priorities in EDF-fm

Migratory tasks are to be served before fixed ones.  The preemption test compares with
`edffm_higher_prio`, but the ready queue is ordered by `edf_ready_order`, so that the head of
the queue can be a fixed task while a migratory one waits behind it.
-/

namespace Litmus.EdfFm

open BinomialForest FmTask WrapOrder Function Option
open Multiset (mem_cons_self mem_cons_of_mem)

/-! ### The two orders -/

section

variable {task task' : TaskId → FmTask} {a b : TaskId}

theorem higher_of_migratory (ha : (task a).isMigratTask = true)
    (hb : (task b).isMigratTask = false) : edffmHigherPrio task (some a) (some b) = true := by
  simp [edffmHigherPrio, migrating, ha, hb]

theorem not_higher_of_fixed (ha : (task a).isMigratTask = false)
    (hb : (task b).isMigratTask = true) : edffmHigherPrio task (some a) (some b) = false := by
  simp [edffmHigherPrio, migrating, ha, hb]

theorem higher_of_same (h : (task a).isMigratTask = (task b).isMigratTask) :
    edffmHigherPrio task (some a) (some b) = edfReadyOrder (tableOf task) a b := by
  cases hb : (task b).isMigratTask <;> simp [edffmHigherPrio, migrating, edfReadyOrder, h, hb]

def FmTask.prio (p : FmTask) : BitVec 32 × (Bool × LtTime × Option TaskId) :=
  (p.nrCpus, prioFields p.toRtTask)

theorem isMigratTask_congr {p p' : FmTask} (h : p'.prio = p.prio) :
    p'.isMigratTask = p.isMigratTask := by
  have hnr : p'.nrCpus = p.nrCpus := congrArg Prod.fst h
  simp [isMigratTask, hnr]

theorem edffmHigherPrio_congr (h : ∀ u, (task' u).prio = (task u).prio) :
    edffmHigherPrio task' = edffmHigherPrio task := by
  have hmig : migrating task' = migrating task := by
    funext t
    cases t with
    | none => rfl
    | some u => exact isMigratTask_congr (h u)
  have hrt : ∀ u, (task' u).realtime = (task u).realtime := fun u =>
    congrArg (fun f => f.2.1) (h u)
  have hdea : ∀ u, (task' u).job.deadline = (task u).job.deadline := fun u =>
    congrArg (fun f => f.2.2.1) (h u)
  have hinh : ∀ u, (task' u).inhTask = (task u).inhTask := fun u =>
    congrArg (fun f => f.2.2.2) (h u)
  funext a b
  simp [edffmHigherPrio, hmig, edfHigherPrio, tableOf, hrt, hdea, hinh]

theorem order_congr (h : ∀ u, (task' u).prio = (task u).prio) :
    edfReadyOrder (tableOf task') = edfReadyOrder (tableOf task) :=
  edfReadyOrder_congr fun u => congrArg Prod.snd (h u)

end

/-! ### Taking from the queue -/

/-- `next` is a decision that the priorities allow, with the tasks of `ready` left behind. -/
def Respects (task : TaskId → FmTask) (next : Option TaskId) (ready : Multiset TaskId) : Prop :=
  (∀ x ∈ ready, edffmHigherPrio task (some x) next = false) ∧ (next = none → ready = 0)

/-- If a migratory task is among the tasks of `pool`, then one of them has an earlier deadline
    than every fixed task of `pool`. -/
def MigratoryFirst (task : TaskId → FmTask) (pool : Multiset TaskId) : Prop :=
  (∃ x ∈ pool, (task x).isMigratTask = true) → ∃ y ∈ pool, (task y).isMigratTask = true ∧
      ∀ z ∈ pool, (task z).isMigratTask = false → edfReadyOrder (tableOf task) y z = true

instance (task : TaskId → FmTask) (next : Option TaskId) (ready : Multiset TaskId) :
    Decidable (Respects task next ready) :=
  inferInstanceAs (Decidable (_ ∧ _))

instance (task : TaskId → FmTask) (pool : Multiset TaskId) :
    Decidable (MigratoryFirst task pool) :=
  @instDecidableForall _ _ Multiset.decidableExistsMultiset Multiset.decidableExistsMultiset

theorem migratoryFirst_congr {task task' : TaskId → FmTask} {pool : Multiset TaskId}
    (h : ∀ u, (task' u).prio = (task u).prio) :
    MigratoryFirst task' pool ↔ MigratoryFirst task pool := by
  have hmig := fun u => isMigratTask_congr (h u)
  simp [MigratoryFirst, hmig, order_congr h]

structure Comparable (task : TaskId → FmTask) (S : Set TaskId) : Prop where
  plain : ∀ t ∈ S, Plain (tableOf task) t
  window : Windowed (tableOf task) S

section

variable {task : TaskId → FmTask} {S : Set TaskId} {ready : Multiset TaskId} {m : TaskId}

section

variable (h : Comparable task S)
include h

theorem Comparable.order : StrictWeakOn (edfReadyOrder (tableOf task)) S :=
  strictWeakOn_edfReadyOrder h.plain h.window

theorem Comparable.congr {task' : TaskId → FmTask}
    (hpr : ∀ u ∈ S, (task' u).prio = (task u).prio) : Comparable task' S := by
  constructor
  · intro t ht
    have hrt : (task' t).realtime = (task t).realtime := congrArg (fun f => f.2.1) (hpr t ht)
    have hinh : (task' t).inhTask = (task t).inhTask := congrArg (fun f => f.2.2.2) (hpr t ht)
    have hpla := h.plain t ht
    rw [Plain, tableOf] at hpla ⊢
    rwa [hrt, hinh]
  obtain ⟨base, hbas⟩ := h.window
  refine ⟨base, fun t ht => ?_⟩
  have hdea : (task' t).job.deadline = (task t).job.deadline :=
    congrArg (fun f => f.2.2.1) (hpr t ht)
  have hin := hbas t ht
  rw [tableOf] at hin ⊢
  rwa [hdea]

theorem Comparable.mono {S' : Set TaskId} (hsu : S' ⊆ S) : Comparable task S' := by
  refine ⟨fun t ht => h.plain t (hsu ht), ?_⟩
  obtain ⟨base, hbas⟩ := h.window
  exact ⟨base, fun t ht => hbas t (hsu ht)⟩

/-- The task that EDF puts first is the right one if and only if the migratory tasks are in
    front. -/
theorem respects_first_iff (hme : ∀ x ∈ m ::ₘ ready, x ∈ S)
    (hfi : ∀ x ∈ m ::ₘ ready, ¬edfReadyOrder (tableOf task) x m) :
    Respects task (some m) ready ↔ MigratoryFirst task (m ::ₘ ready) := by
  constructor
  · rintro ⟨hn, -⟩ ⟨x, hx, hmi⟩
    have hm : (task m).isMigratTask = true := by
      by_contra hfx
      rw [Bool.not_eq_true] at hfx
      rcases Multiset.mem_cons.mp hx with rfl | hx
      · exact nomatch (hfx.symm.trans hmi)
      exact nomatch ((hn x hx).symm.trans (higher_of_migratory hmi hfx))
    refine ⟨m, mem_cons_self m ready, hm, fun z hz hfx => ?_⟩
    have hne : z ≠ m := by
      rintro rfl
      exact nomatch (hfx.symm.trans hm)
    have hmS : m ∈ S := hme m (mem_cons_self m ready)
    obtain ⟨base, hba⟩ := h.window
    exact edfReadyOrder_total (h.plain z (hme z hz)) (h.plain m hmS) (hba z (hme z hz))
      (hba m hmS) hne (hfi z hz)
  intro hmf
  refine ⟨fun x hx => ?_, fun hm => absurd hm (some_ne_none _)⟩
  have hx' : x ∈ m ::ₘ ready := mem_cons_of_mem hx
  have hno : edfReadyOrder (tableOf task) x m = false := by simpa using hfi x hx'
  cases hm : (task m).isMigratTask <;> cases hxm : (task x).isMigratTask
  · rw [higher_of_same (hxm.trans hm.symm)]
    exact hno
  · -- a migratory task behind a fixed one
    obtain ⟨y, hy, -, hbe⟩ := hmf ⟨x, hx', hxm⟩
    exact absurd (hbe m (mem_cons_self m ready) hm) (hfi y hy)
  · exact not_higher_of_fixed hxm hm
  · rw [higher_of_same (hxm.trans hm.symm)]
    exact hno

theorem respects_takeReady_iff {dom : RtDomain} (hm : ∀ x ∈ dom.readyQueue.elems, x ∈ S)
    (hord : dom.readyQueue.Ordered (edfReadyOrder (tableOf task))) :
    Respects task (dom.takeReady (edfReadyOrder (tableOf task))).1
        (dom.takeReady (edfReadyOrder (tableOf task))).2.readyQueue.elems ↔
      MigratoryFirst task dom.readyQueue.elems := by
  cases hn : (dom.takeReady (edfReadyOrder (tableOf task))).1 with
  | none =>
    rw [RtDomain.ready_takeReady_none hn, RtDomain.takeReady_eq_none.mp hn]
    simp [Respects, MigratoryFirst]
  | some m =>
    obtain ⟨-, hbe⟩ := Heap.cacheMin_best h.order hm hord hn
    have hcon := RtDomain.ready_takeReady_some hn
    rw [hcon] at hm hbe ⊢
    exact respects_first_iff h hm hbe

theorem respects_kept_iff {dom : RtDomain} {t : TaskId}
    (hme : ∀ x ∈ dom.readyQueue.elems, x ∈ S) (ht : t ∈ S)
    (hord : dom.readyQueue.Ordered (edfReadyOrder (tableOf task)))
    (hk : (edffmPreemptionNeeded task dom (some t)).1 = false) :
    Respects task (some t) dom.readyQueue.elems ↔
      ∀ x ∈ dom.readyQueue.elems, (task x).isMigratTask = true →
        (task t).isMigratTask = true ∧ edfReadyOrder (tableOf task) x t = false := by
  constructor
  · rintro ⟨hn, -⟩ x hx hmi
    have hno := hn x hx
    have hmg : (task t).isMigratTask = true := by
      by_contra hfi
      rw [Bool.not_eq_true] at hfi
      exact nomatch (hno.symm.trans (higher_of_migratory hmi hfi))
    refine ⟨hmg, ?_⟩
    rwa [higher_of_same (hmi.trans hmg.symm)] at hno
  intro hall
  refine ⟨fun x hx => ?_, fun hm => absurd hm (some_ne_none _)⟩
  cases hxm : (task x).isMigratTask with
  | true =>
    obtain ⟨hmg, hno⟩ := hall x hx hxm
    rw [higher_of_same (hxm.trans hmg.symm)]
    exact hno
  | false =>
    cases hmg : (task t).isMigratTask with
    | true => exact not_higher_of_fixed hxm hmg
    | false =>
      rw [higher_of_same (hxm.trans hmg.symm)]
      -- the head of the queue is fixed as well, and it does not beat `t`
      have hpen : dom.jobsPending = true :=
        RtDomain.jobsPending_iff.mpr (fun h0 => by simp [h0] at hx)
      have hrt : (task t).realtime = true := (h.plain t ht).1
      simp only [edffmPreemptionNeeded, hpen, hrt, Bool.not_true, Bool.false_eq_true,
        if_false, RtDomain.nextReady, Heap.peek] at hk
      cases hmn : (dom.readyQueue.cacheMin (edfReadyOrder (tableOf task))).min with
      | none =>
        rw [Heap.min_cacheMin_eq_none] at hmn
        simp [hmn] at hx
      | some m =>
        obtain ⟨hm, hbes⟩ := Heap.cacheMin_best h.order hme hord hmn
        rw [hmn] at hk
        have hmm : (task m).isMigratTask = false := by
          by_contra hmi
          rw [Bool.not_eq_false] at hmi
          exact nomatch (hk.symm.trans (higher_of_migratory hmi hmg))
        rw [higher_of_same (hmm.trans hmg.symm)] at hk
        have hmt : ¬edfReadyOrder (tableOf task) m t := by simp [hk]
        have hxt := h.order.negTrans x (hme x hx) m (hme m hm) t ht (hbes x hx) hmt
        simpa using hxt

end

end

namespace FmState

variable {n : Nat}

/-! ### The scheduler -/

/-- The tasks that are ready on CPU `c`. -/
def readyOn (c : Fin n) (st : FmState n) : Multiset TaskId := (st.dom c).domain.readyQueue.elems

/-- The outcome of `edffm_schedule` on CPU `c`. -/
def Decided (c : Fin n) (st : FmState n) : Prop :=
  Respects st.task (st.dom c).scheduled (st.readyOn c)

/-- The scheduled task is put back into the ready queue of its CPU. -/
def returns (now : LtTime) (t : TaskId) (st : FmState n) : Bool :=
  (st.task t).isReleased now && !st.wrongCpu t

/-- The scheduled task `t` goes on. -/
def keeps (c : Fin n) (t : TaskId) (st : FmState n) : Bool :=
  !(edffmPreemptionNeeded st.task (st.dom c).domain (some t)).1 && (st.task t).running &&
    !st.wrongCpu t && !completes (st.task t)

/-- The state before `edffm_schedule` in which it decides by the priorities.  A task that is
    kept must not be fixed while a migratory one is ready, nor have a later deadline than a
    migratory one.  Otherwise the migratory tasks must be the first among those that are
    ready, with the scheduled task in its next job if it is put back. -/
def Decisive (now : LtTime) (c : Fin n) (st : FmState n) : Prop :=
  match (st.dom c).scheduled with
  | none => MigratoryFirst st.task (st.readyOn c)
  | some t =>
      if st.keeps c t then
        ∀ x ∈ st.readyOn c, (st.task x).isMigratTask = true →
          (st.task t).isMigratTask = true ∧ edfReadyOrder (tableOf st.task) x t = false
      else
        ∀ st₁, st.complete t = some st₁ →
          MigratoryFirst st₁.task (if (st.task t).running && st₁.returns now t then
            t ::ₘ st.readyOn c else st.readyOn c)

/-- A CPU whose queue is a heap in the order that `edf_domain_init` installs, and whose
    tasks EDF can compare, also when the scheduled one is in its next job. -/
structure Proper (c : Fin n) (st : FmState n) : Prop where
  ordered : (st.dom c).domain.readyQueue.Ordered st.order
  apart : ∀ t, (st.dom c).scheduled = some t → t ∉ st.readyOn c
  ready : Comparable st.task {x | x ∈ st.readyOn c}
  scheduled : ∀ t, (st.dom c).scheduled = some t → Comparable st.task {x | x ∈ t ::ₘ st.readyOn c} ∧
      ∀ st₁, st.complete t = some st₁ → Comparable st₁.task {x | x ∈ t ::ₘ st.readyOn c}

section

variable {st st' : FmState n} {c : Fin n} {t : TaskId} {now : LtTime}

theorem prio_setFlags (f : RtFlag) (u : TaskId) :
    ((st.setFlags t f).task u).prio = (st.task u).prio := by
  by_cases hu : u = t
  · subst hu
    simp [setFlags, setTask, prio, prioFields, FmTask.modify, RtTask.setRtFlags]
  simp [setFlags, setTask, hu]

theorem decided_takeNext_iff {S : Set TaskId} (h : Comparable st.task S)
    (hm : ∀ x ∈ st.readyOn c, x ∈ S) (hord : (st.dom c).domain.readyQueue.Ordered st.order) :
    Decided c (st.takeNext c) ↔ MigratoryFirst st.task (st.readyOn c) := by
  have htak := respects_takeReady_iff h hm hord
  have hpri : ∀ u, ((st.takeNext c).task u).prio = (st.task u).prio := by
    intro u
    unfold takeNext
    dsimp only
    split
    · exact prio_setFlags .running u
    rfl
  have hdom : (st.takeNext c).dom c = ⟨((st.dom c).domain.takeReady st.order).2,
      ((st.dom c).domain.takeReady st.order).1⟩ := by
    unfold takeNext
    dsimp only
    split <;> exact update_self _ _ _
  rw [Decided, readyOn, hdom, Respects, edffmHigherPrio_congr hpri]
  exact htak

theorem ordered_preemptionNeeded {task : TaskId → FmTask} {dom : RtDomain} {S : Set TaskId}
    (h : Comparable task S) (hm : ∀ x ∈ dom.readyQueue.elems, x ∈ S)
    (hor : dom.readyQueue.Ordered (edfReadyOrder (tableOf task))) (u : Option TaskId) :
    (edffmPreemptionNeeded task dom u).2.readyQueue.Ordered (edfReadyOrder (tableOf task)) := by
  unfold edffmPreemptionNeeded
  split
  · exact hor
  split
  · exact hor
  split
  · exact hor
  exact hor.cacheMin h.order hm

theorem ready_requeue (hrq : st.requeue now c t = some (st', false)) :
    (∀ u, (st'.task u).prio = (st.task u).prio) ∧ (st'.dom c).domain.readyQueue =
        if st.returns now t then (st.dom c).domain.readyQueue.insert st.order t
        else (st.dom c).domain.readyQueue := by
  have hord : (st.setFlags t .running).order = st.order := order_congr (prio_setFlags .running)
  have hwro := wrongCpu_of_view (same_setFlags t .running st) t
  have hrls : ((st.setFlags t .running).task t).isReleased now =
      (st.task t).isReleased now := by
    simp [setFlags, setTask, FmTask.modify, RtTask.isReleased, RtTask.setRtFlags]
  unfold requeue at hrq
  dsimp only at hrq
  rw [hwro, hrls] at hrq
  split at hrq
  · rename_i hre
    split at hrq
    · split at hrq
      · cases hrq
      cases hrq
    rename_i hrig
    have hrt : st.returns now t = true := by simp [returns, hre, hrig]
    obtain ⟨st1, h1, heq⟩ := map_eq_some_iff.mp hrq
    cases heq
    unfold FmState.addReady at h1
    split at h1
    · cases h1
    obtain ⟨edf, hed, rfl⟩ := map_eq_some_iff.mp h1
    refine ⟨prio_setFlags .running, ?_⟩
    rw [if_pos hrt, setDomain_self, ← hord]
    unfold RtDomain.addReady at hed
    split at hed
    · cases hed
    cases hed
    rfl
  rename_i hre
  have hrt : ¬st.returns now t = true := by simp [returns, hre]
  rw [if_neg hrt]
  have hke : ∀ c', (((st.setFlags t .running).addRelease c' t).dom c).domain.readyQueue =
      (st.dom c).domain.readyQueue := by
    intro c'
    unfold FmState.addRelease
    by_cases hc : c = c'
    · subst hc
      rw [setDomain_self]
      rfl
    rw [setDomain_of_ne hc]
    rfl
  split at hrq
  · obtain ⟨st1, h1, heq⟩ := map_eq_some_iff.mp hrq
    cases heq
    obtain ⟨c', -, rfl⟩ := map_eq_some_iff.mp h1
    exact ⟨prio_setFlags .running, hke c'⟩
  cases hrq
  exact ⟨prio_setFlags .running, hke c⟩

theorem complete_spec {st1 : FmState n} (h : st.complete t = some st1) :
    st1.dom = st.dom ∧ ∀ u, u ≠ t → st1.task u = st.task u := by
  unfold complete at h
  split at h
  · obtain ⟨p, -, rfl⟩ := map_eq_some_iff.mp h
    exact ⟨rfl, fun u hu => update_of_ne hu _ _⟩
  cases h
  exact ⟨rfl, fun _ _ => rfl⟩

theorem ordered_of_apart {task task' : TaskId → FmTask} {H : Heap TaskId} (ht : t ∉ H.elems)
    (hord : H.Ordered (edfReadyOrder (tableOf task)))
    (hpl : ∀ x ∈ H.elems, Plain (tableOf task) x) (hs : ∀ u, u ≠ t → task' u = task u) :
    H.Ordered (edfReadyOrder (tableOf task')) := by
  apply hord.congr
  intro a ha b hb hab
  have hne : ∀ x ∈ H.elems, tableOf task' x = tableOf task x := by
    intro x hx
    have hxt : x ≠ t := fun heq => ht (heq ▸ hx)
    rw [tableOf, hs x hxt]
    rfl
  have hplain' : ∀ x ∈ H.elems, Plain (tableOf task') x := by
    intro x hx
    rw [Plain, hne x hx]
    exact hpl x hx
  rw [edfReadyOrder_plain (hplain' a ha) (hplain' b hb), hne a ha, hne b hb] at hab
  exact (edfReadyOrder_plain (hpl a ha) (hpl b hb)).mpr hab

theorem complete_setDomain (edf : RtDomain) :
    (st.setDomain c edf).complete t = (st.complete t).map (setDomain c edf) := by
  unfold complete
  by_cases hdo : completes (st.task t) = true
  · have hdone' : completes ((st.setDomain c edf).task t) = true := hdo
    rw [if_pos hdo, if_pos hdone', map_map]
    rfl
  have hdone' : ¬completes ((st.setDomain c edf).task t) = true := hdo
  rw [if_neg hdo, if_neg hdone']
  rfl

theorem complete_of_not (h : completes (st.task t) = false) : st.complete t = some st := by
  simp [complete, h]

theorem not_completes_of_blocked (h : (st.task t).running = false) :
    completes (st.task t) = false := by
  simp [completes, h]

theorem decided_switch_iff {S : Set TaskId} (h : Comparable st.task S)
    (hm : ∀ x ∈ t ::ₘ st.readyOn c, x ∈ S) (hor : (st.dom c).domain.readyQueue.Ordered st.order)
    (hs : st.switch now c t = some st') (hidl : st'.call c = .idle) :
    Decided c st' ↔ MigratoryFirst st.task
      (if st.returns now t then t ::ₘ st.readyOn c else st.readyOn c) := by
  obtain ⟨⟨st1, dropped⟩, hrq, heq⟩ := map_eq_some_iff.mp hs
  cases dropped with
  | true =>
    subst heq
    have hcal : (st1.setCall c (.unlocked t)).call c = .unlocked t := update_self _ _ _
    exact Call.noConfusion (hcal.symm.trans hidl)
  | false =>
    have htak : st' = st1.takeNext c := heq.symm
    subst htak
    obtain ⟨hpr, hr⟩ := ready_requeue hrq
    have hcom : Comparable st1.task S := h.congr fun u _ => hpr u
    have hrdr : st1.order = st.order := order_congr hpr
    have hpo : st1.readyOn c = if st.returns now t then t ::ₘ st.readyOn c else st.readyOn c := by
      rw [readyOn, hr]
      split
      · exact Heap.elems_insert st.order t _
      rfl
    have hin : ∀ x ∈ st1.readyOn c, x ∈ S := by
      intro x hx
      apply hm x
      rw [hpo] at hx
      split at hx
      · exact hx
      exact mem_cons_of_mem hx
    have hord1 : (st1.dom c).domain.readyQueue.Ordered st1.order := by
      rw [hrdr, hr]
      split
      · exact hor.insert h.order hm
      exact hor
    rw [decided_takeNext_iff hcom hin hord1, ← hpo, migratoryFirst_congr hpr]

theorem decided_scheduleTask_iff {edf : RtDomain} (h : st.Proper c)
    (hsl : (st.dom c).scheduled = some t) (hr : edf.readyQueue.elems = st.readyOn c)
    (hord : edf.readyQueue.Ordered st.order) (hs : (st.setDomain c edf).scheduleTask now c t
      (edffmPreemptionNeeded st.task (st.dom c).domain (some t)).1 = some st')
    (hidl : st'.call c = .idle) : Decided c st' ↔ Decisive now c st := by
  obtain ⟨hcom, hn⟩ := h.scheduled t hsl
  have hready' : ((st.setDomain c edf).dom c).domain.readyQueue.elems = st.readyOn c := by
    rw [setDomain_self]
    exact hr
  have hta : (st.setDomain c edf).task t = st.task t := rfl
  have hwro : (st.setDomain c edf).wrongCpu t = st.wrongCpu t := rfl
  unfold FmState.scheduleTask at hs
  dsimp only at hs
  rw [hta, hwro, complete_setDomain] at hs
  split at hs
  · cases hs
  obtain ⟨st2, hst2, hs⟩ := bind_eq_some_iff.mp hs
  obtain ⟨st1, h1, rfl⟩ := map_eq_some_iff.mp hst2
  obtain ⟨hdom, ho⟩ := complete_spec h1
  have hslo : ∀ e, ((st1.setDomain c e).dom c).scheduled = some t := by
    intro e
    rw [setDomain_self, hdom]
    exact hsl
  simp only [Decisive, hsl]
  split at hs
  · rename_i hre
    have hnot : ¬st.keeps c t = true := by
      intro hke
      simp only [keeps, Bool.and_eq_true, Bool.not_eq_true'] at hke
      obtain ⟨⟨⟨hpr, hru⟩, hri⟩, hdo⟩ := hke
      rw [hpr] at hre
      simp only [Bool.or_eq_true, Bool.not_eq_true'] at hre
      rcases hre with ((hp | hb) | hw) | hd
      · cases hp
      · exact nomatch (hb.symm.trans hru)
      · exact nomatch (hri.symm.trans hw)
      · exact nomatch (hdo.symm.trans hd)
    rw [if_neg hnot]
    have hcomp1 : Comparable (st1.setDomain c edf).task {x | x ∈ t ::ₘ st.readyOn c} :=
      hn st1 h1
    have hpo : (st1.setDomain c edf).readyOn c = st.readyOn c := by
      rw [readyOn, setDomain_self]
      exact hr
    have hin : ∀ x ∈ t ::ₘ (st1.setDomain c edf).readyOn c, x ∈ {x | x ∈ t ::ₘ st.readyOn c} := by
      rw [hpo]
      exact fun x hx => hx
    have hord1 : ((st1.setDomain c edf).dom c).domain.readyQueue.Ordered
        (st1.setDomain c edf).order := by
      rw [setDomain_self]
      refine ordered_of_apart (t := t) ?_ hord ?_ ho
      · rw [hr]
        exact h.apart t hsl
      intro x hx
      rw [hr] at hx
      exact h.ready.plain x hx
    split at hs
    · rename_i hbl
      cases hs
      have hru : (st.task t).running = false := by simpa using hbl
      have hin' := fun x hx => hin x (mem_cons_of_mem hx)
      rw [decided_takeNext_iff hcomp1 hin' hord1, hpo]
      constructor
      · intro hmf s hs'
        cases h1.symm.trans hs'
        rw [hru]
        exact hmf
      intro hal
      have hmf := hal st1 h1
      rw [hru] at hmf
      exact hmf
    rename_i hbl
    have hru : (st.task t).running = true := by simpa using hbl
    rw [decided_switch_iff hcomp1 hin hord1 hs hidl, hpo]
    constructor
    · intro hmf s hs'
      cases h1.symm.trans hs'
      rw [hru]
      exact hmf
    intro hal
    have hmf := hal st1 h1
    rw [hru] at hmf
    exact hmf
  rename_i hsa
  cases hs
  simp only [Bool.or_eq_true, not_or, Bool.not_eq_true] at hsa
  obtain ⟨⟨⟨hpr, hru⟩, hri⟩, hdo⟩ := hsa
  have hke : st.keeps c t = true := by
    have hrun' : (st.task t).running = true := by simpa using hru
    simp [keeps, hpr, hrun', hri, hdo]
  have hst : st = st1 := some.inj ((complete_of_not hdo).symm.trans h1)
  subst hst
  rw [if_pos hke]
  have hiff := respects_kept_iff hcom (fun x hx => mem_cons_of_mem hx)
    (mem_cons_self t _) h.ordered hpr
  have hpri : ∀ u, (((st.setDomain c edf).setFlags t .running).task u).prio =
      (st.task u).prio := prio_setFlags .running
  have hnow : ((st.setDomain c edf).setFlags t .running).readyOn c = st.readyOn c := hready'
  have hslot' : (((st.setDomain c edf).setFlags t .running).dom c).scheduled = some t :=
    hslo edf
  rw [Decided, hnow, hslot', Respects, edffmHigherPrio_congr hpri]
  exact hiff

theorem decided_schedule_iff {prev : TaskId} (h : st.Proper c)
    (hs : st.edffmSchedule now c prev = some st') (hidl : st'.call c = .idle) :
    Decided c st' ↔ Decisive now c st := by
  have hco := (edffmPreemptionNeeded_contents st.task (st.dom c).domain (some prev)).1
  have hor := ordered_preemptionNeeded h.ready (fun x hx => hx) h.ordered (some prev)
  unfold edffmSchedule at hs
  split at hs
  · rename_i hn
    cases hs
    simp only [Decisive, hn]
    have hpo : (st.setDomain c (edffmPreemptionNeeded st.task (st.dom c).domain
        (some prev)).2).readyOn c = st.readyOn c := by
      rw [readyOn, setDomain_self]
      exact hco
    rw [decided_takeNext_iff (S := {x | x ∈ st.readyOn c}), hpo]
    · rfl
    · exact h.ready
    · rw [hpo]
      exact fun x hx => hx
    · rw [setDomain_self]
      exact hor
  rename_i t hsl
  split at hs
  · cases hs
  rename_i hpr
  have ht : t = prev := by
    simp only [Bool.or_eq_true, not_or, bne_iff_ne, ne_eq, not_not] at hpr
    exact hpr.1
  subst ht
  exact decided_scheduleTask_iff h hsl hco hor hs hidl

end

end FmState

end Litmus.EdfFm
