import Litmus.RtDomain

/-!
# EDF priorities

The priority comparison and the preemption test of `edf_common.c`.  The comparison is
read off wrapping 64-bit deadlines, so it orders a set of tasks only while their
deadlines fit into half of the 64-bit range.
-/

namespace Litmus

open BinomialForest WrapOrder RtDomain

variable {task task' : TaskTable} {a b : TaskId} {S : Set TaskId}

/-- `edf_higher_prio`; `none` is the null pointer. -/
def edfHigherPrio (task : TaskTable) (first second : Option TaskId) : Bool :=
  if first.isSome && first == second then false
  else
    let firstTask := match first with
      | some a => match (task a).inhTask with
        | some i => some i
        | none => some a
      | none => none
    let secondTask := match second with
      | some b => match (task b).inhTask with
        | some i => some i
        | none => some b
      | none => none
    match firstTask, secondTask with
    | none, _ => false
    | some _, none => true
    | some a, some b =>
        !(task b).realtime || ltBefore (task a).job.deadline (task b).job.deadline ||
          ((task a).job.deadline == (task b).job.deadline && (decide (a < b) ||
              (a == b && (second.bind fun c => (task c).inhTask).isNone)))

def edfReadyOrder (task : TaskTable) (a b : TaskId) : Bool :=
  edfHigherPrio task (some a) (some b)

/-- `edf_preemption_needed`; looking at the queue may fill its cache. -/
def edfPreemptionNeeded (task : TaskTable) (dom : RtDomain) (t : Option TaskId) :
    Bool × RtDomain :=
  if !dom.jobsPending then (false, dom)
  else match t with
    | none => (true, dom)
    | some u =>
        if !(task u).realtime then (true, dom)
        else
          let (next, dom) := dom.nextReady (edfReadyOrder task)
          (edfHigherPrio task next (some u), dom)

/-! ### When the comparison is an order -/

def Plain (task : TaskTable) (t : TaskId) : Prop :=
  (task t).realtime = true ∧ (task t).inhTask = none

theorem edfReadyOrder_plain (ha : Plain task a) (hb : Plain task b) :
    edfReadyOrder task a b ↔ ltBefore (task a).job.deadline (task b).job.deadline ∧ a ≠ b ∨
        (task a).job.deadline = (task b).job.deadline ∧ a < b := by
  unfold edfReadyOrder edfHigherPrio
  by_cases hab : a = b
  · simp [hab]
  simp [hab, ha.2, hb.1, hb.2]

/-- The fields of a task that the comparison reads. -/
def prioFields (p : RtTask) : Bool × LtTime × Option TaskId :=
  (p.realtime, p.job.deadline, p.inhTask)

theorem edfHigherPrio_congr (h : ∀ u, prioFields (task' u) = prioFields (task u)) :
    edfHigherPrio task' = edfHigherPrio task := by
  have hrt : ∀ u, (task' u).realtime = (task u).realtime := fun u =>
    congrArg Prod.fst (h u)
  have hdea : ∀ u, (task' u).job.deadline = (task u).job.deadline := fun u =>
    congrArg (fun f => f.2.1) (h u)
  have hinh : ∀ u, (task' u).inhTask = (task u).inhTask := fun u =>
    congrArg (fun f => f.2.2) (h u)
  funext a b
  simp [edfHigherPrio, hrt, hdea, hinh]

theorem edfReadyOrder_congr (h : ∀ u, prioFields (task' u) = prioFields (task u)) :
    edfReadyOrder task' = edfReadyOrder task := by
  funext a b
  rw [edfReadyOrder, edfHigherPrio_congr h]
  rfl

theorem edfReadyOrder_modify {t : TaskId} (f : RtTask → RtTask) (ha : Plain task a)
    (hb : Plain task b) (hat : a ≠ t) (hbt : b ≠ t) :
    edfReadyOrder (task.modify t f) a b ↔ edfReadyOrder task a b := by
  have ha' : Plain (task.modify t f) a := by
    rw [Plain, TaskTable.modify_of_ne _ _ hat]
    exact ha
  have hb' : Plain (task.modify t f) b := by
    rw [Plain, TaskTable.modify_of_ne _ _ hbt]
    exact hb
  rw [edfReadyOrder_plain ha' hb', edfReadyOrder_plain ha hb,
    TaskTable.modify_of_ne _ _ hat, TaskTable.modify_of_ne _ _ hbt]

/-- The deadlines of the tasks of `S` fit into half of the 64-bit range. -/
def Windowed (task : TaskTable) (S : Set TaskId) : Prop :=
  ∃ base : LtTime, ∀ t ∈ S, InWindow base (task t).job.deadline

theorem edfReadyOrder_windowed {base : LtTime} {a b : Nat} (ha : Plain task a) (hb : Plain task b)
    (hwa : InWindow base (task a).job.deadline) (hwb : InWindow base (task b).job.deadline) :
    edfReadyOrder task a b ↔ offset base (task a).job.deadline < offset base (task b).job.deadline ∨
        offset base (task a).job.deadline = offset base (task b).job.deadline ∧ a < b := by
  rw [edfReadyOrder_plain ha hb, ltBefore_iff hwa hwb, offset_inj]
  constructor
  · rintro (⟨h, _⟩ | h)
    · exact .inl h
    exact .inr h
  rintro (h | h)
  · refine .inl ⟨h, fun hab => ?_⟩
    rw [hab] at h
    exact lt_irrefl _ h
  exact .inr h

theorem edfReadyOrder_total {base : LtTime} {a b : Nat} (ha : Plain task a) (hb : Plain task b)
    (hwa : InWindow base (task a).job.deadline) (hwb : InWindow base (task b).job.deadline)
    (hne : a ≠ b) (hn : ¬edfReadyOrder task a b) : edfReadyOrder task b a := by
  rw [edfReadyOrder_windowed ha hb hwa hwb] at hn
  rw [edfReadyOrder_windowed hb ha hwb hwa]
  omega

/-- The task whose priority `t` has, see `edf_higher_prio`. -/
def effective (task : TaskTable) (t : TaskId) : TaskId := (task t).inhTask.getD t

theorem edfReadyOrder_effective (hb : (task (effective task b)).realtime = true) :
    edfReadyOrder task a b ↔ a ≠ b ∧
      (ltBefore (task (effective task a)).job.deadline (task (effective task b)).job.deadline ∨
        (task (effective task a)).job.deadline = (task (effective task b)).job.deadline ∧
          (effective task a < effective task b ∨
            effective task a = effective task b ∧ (task b).inhTask = none)) := by
  unfold edfReadyOrder edfHigherPrio
  by_cases hab : a = b
  · simp [hab]
  rcases ha : (task a).inhTask with _ | i <;> rcases hj : (task b).inhTask with _ | j <;>
    simp_all [effective]

/-- The tasks of `S` have the priorities of real-time tasks whose deadlines fit into half of
    the 64-bit range. -/
def Ranked (task : TaskTable) (S : Set TaskId) : Prop :=
  ∃ base : LtTime, ∀ t ∈ S, (task (effective task t)).realtime = true ∧
    InWindow base (task (effective task t)).job.deadline

theorem Ranked.congr {S' : Set TaskId} (h : Ranked task S)
    (hpr : ∀ u, prioFields (task' u) = prioFields (task u)) (hsub : S' ⊆ S) : Ranked task' S' := by
  have heff : ∀ t, effective task' t = effective task t := fun t =>
    congrArg (fun f => f.2.2.getD t) (hpr t)
  obtain ⟨base, hbas⟩ := h
  refine ⟨base, fun t ht => ?_⟩
  obtain ⟨hrt, hwin⟩ := hbas t (hsub ht)
  have hdea : (task' (effective task t)).job.deadline = (task (effective task t)).job.deadline :=
    congrArg (fun f => f.2.1) (hpr _)
  rw [heff, hdea]
  exact ⟨(congrArg Prod.fst (hpr _)).trans hrt, hwin⟩

/-- Compared are the offset of the deadline, then the pid, then whether the priority is
    inherited. -/
theorem Ranked.exists_key (hran : Ranked task S) :
    ∃ key pid : TaskId → Nat, (∀ t, pid t = effective task t) ∧
      ∀ a ∈ S, ∀ b ∈ S, (edfReadyOrder task a b ↔ a ≠ b ∧ (key (pid a) < key (pid b) ∨
        key (pid a) = key (pid b) ∧ (pid a < pid b ∨ pid a = pid b ∧ (task b).inhTask = none))) := by
  obtain ⟨base, hba⟩ := hran
  refine ⟨fun t => offset base (task t).job.deadline, effective task,
    fun _ => rfl, fun a ha b hb => ?_⟩
  rw [edfReadyOrder_effective (hba b hb).1, ltBefore_iff (hba a ha).2 (hba b hb).2, offset_inj]

theorem strictWeakOn_of_ranked (hran : Ranked task S) : StrictWeakOn (edfReadyOrder task) S := by
  obtain ⟨key, pid, hpid, hif⟩ := hran.exists_key
  have hse : ∀ {t}, (task t).inhTask = none → pid t = t := fun h => by
    simp [hpid, effective, h]
  constructor
  · intro a ha b hb hab hba
    rw [hif a ha b hb] at hab
    rw [hif b hb a ha] at hba
    obtain ⟨hne, hab⟩ := hab
    obtain ⟨_, hba⟩ := hba
    rcases hab with hab | ⟨hkey, hab | ⟨heq, hn⟩⟩ <;>
      rcases hba with hba | ⟨hkey', hba | ⟨heq', hnone'⟩⟩
    case inr.inr.inr.inr => exact hne ((hse hnone').symm.trans (heq.trans (hse hn)))
    all_goals omega
  · intro a ha b hb c hc hab hbc hac
    by_cases hab' : a = b
    · exact hbc (hab' ▸ hac)
    by_cases hbc' : b = c
    · exact hab (hbc' ▸ hac)
    rw [hif a ha b hb] at hab
    rw [hif b hb c hc] at hbc
    rw [hif a ha c hc] at hac
    simp only [ne_eq, hab', not_false_eq_true, true_and, hbc', not_or, not_and] at hab hbc
    obtain ⟨hab1, hab2⟩ := hab
    obtain ⟨hbc1, hbc2⟩ := hbc
    obtain ⟨_, hac | ⟨hkey, hac | ⟨heq, hn⟩⟩⟩ := hac
    · omega
    · have := (hab2 (by omega)).1
      have := (hbc2 (by omega)).1
      omega
    have := (hab2 (by omega)).1
    exact (hbc2 (by omega)).2 (by have := (hbc2 (by omega)).1; omega) hn

/-- EDF order is a strict weak order on plain tasks with deadlines in one window. -/
theorem strictWeakOn_edfReadyOrder (hpl : ∀ t ∈ S, Plain task t) (hwin : Windowed task S) :
    StrictWeakOn (edfReadyOrder task) S := by
  obtain ⟨base, hbas⟩ := hwin
  refine strictWeakOn_of_ranked ⟨base, fun t ht => ?_⟩
  have hse : effective task t = t := by simp [effective, (hpl t ht).2]
  rw [hse]
  exact ⟨(hpl t ht).1, hbas t ht⟩

/-! ### Null pointers -/

@[simp] theorem edfHigherPrio_null (task : TaskTable) (t : Option TaskId) :
    edfHigherPrio task none t = false := by
  rcases t with _ | t <;> rfl

@[simp] theorem edfHigherPrio_over_null (task : TaskTable) (t : TaskId) :
    edfHigherPrio task (some t) none = true := by
  rcases h : (task t).inhTask with _ | i <;> simp [edfHigherPrio, h]

/-- The comparison orders pointers as it orders tasks, with the null pointer at the end. -/
theorem strictWeakOn_edfHigherPrio (hS : StrictWeakOn (edfReadyOrder task) S) :
    StrictWeakOn (edfHigherPrio task) {p | ∀ t, p = some t → t ∈ S} := by
  constructor
  · rintro (_ | a) ha (_ | b) hb hab hba
    · simp at hab
    · simp at hab
    · simp at hba
    · exact hS.asymm a (ha a rfl) b (hb b rfl) hab hba
  rintro (_ | a) ha (_ | b) hb (_ | c) hc hab hbc hac
  · simp at hac
  · simp at hac
  · simp at hac
  · simp at hac
  · simp at hab
  · simp at hab
  · simp at hbc
  · exact hS.negTrans a (ha a rfl) b (hb b rfl) c (hc c rfl) hab hbc hac

/-- The pointers to tasks of `S`, and the null pointer. -/
def pointers (S : Set TaskId) : Set (Option TaskId) := {p | ∀ t, p = some t → t ∈ S}

theorem incomparable_iff (hran : Ranked task S) (ha : a ∈ S) (hb : b ∈ S) (hne : a ≠ b) :
    ¬edfReadyOrder task a b ∧ ¬edfReadyOrder task b a ↔
      ∃ i, (task a).inhTask = some i ∧ (task b).inhTask = some i := by
  obtain ⟨key, pid, hpi, hif⟩ := hran.exists_key
  rw [hif a ha b hb, hif b hb a ha]
  constructor
  · rintro ⟨hab, hba⟩
    simp only [ne_eq, hne, Ne.symm hne, not_false_eq_true, true_and, not_or, not_and] at hab hba
    have hke : key (pid a) = key (pid b) := by omega
    have hpd : pid a = pid b := by
      have := (hab.2 hke).1
      have := (hba.2 hke.symm).1
      omega
    obtain ⟨j, hj⟩ := Option.ne_none_iff_exists'.mp ((hab.2 hke).2 hpd)
    obtain ⟨i, hi⟩ := Option.ne_none_iff_exists'.mp ((hba.2 hke.symm).2 hpd.symm)
    have hij : i = j := by simpa [hpi, effective, hi, hj] using hpd
    exact ⟨i, hi, hij ▸ hj⟩
  rintro ⟨i, hi, hj⟩
  have hpd : pid a = pid b := by simp [hpi, effective, hi, hj]
  simp [hi, hj, hpd]

/-- For real-time tasks that inherit, if at all, from each other, with deadlines in one half of
    the 64-bit range, the comparison is a strict weak order with the null pointer at its end. -/
theorem edf_higher_prio_strict_weak (hreal : ∀ t ∈ S, (task t).realtime = true)
    (hinh : ∀ t ∈ S, ∀ i, (task t).inhTask = some i → i ∈ S) (hwin : Windowed task S) :
    (∀ p ∈ pointers S, ¬edfHigherPrio task p p) ∧
      (∀ p ∈ pointers S, ∀ q ∈ pointers S, edfHigherPrio task p q → ¬edfHigherPrio task q p) ∧
      (∀ p ∈ pointers S, ∀ q ∈ pointers S, ∀ r ∈ pointers S,
        edfHigherPrio task p q → edfHigherPrio task q r → edfHigherPrio task p r) ∧
      (∀ p ∈ pointers S, ∀ q ∈ pointers S, ∀ r ∈ pointers S,
        ¬edfHigherPrio task p q ∧ ¬edfHigherPrio task q p →
          ¬edfHigherPrio task q r ∧ ¬edfHigherPrio task r q →
            ¬edfHigherPrio task p r ∧ ¬edfHigherPrio task r p) ∧
      (∀ t ∈ S, edfHigherPrio task (some t) none ∧ ¬edfHigherPrio task none (some t)) ∧
      ∀ a ∈ S, ∀ b ∈ S, a ≠ b →
        (¬edfHigherPrio task (some a) (some b) ∧ ¬edfHigherPrio task (some b) (some a) ↔
          ∃ i, (task a).inhTask = some i ∧ (task b).inhTask = some i) := by
  have hmem : ∀ t ∈ S, effective task t ∈ S := by
    intro t ht
    rcases h : (task t).inhTask with _ | i
    · simpa [effective, h] using ht
    · simpa [effective, h] using hinh t ht i h
  obtain ⟨base, hbase⟩ := hwin
  have hrank : Ranked task S :=
    ⟨base, fun t ht => ⟨hreal _ (hmem t ht), hbase _ (hmem t ht)⟩⟩
  have hP : StrictWeakOn (edfHigherPrio task) (pointers S) :=
    strictWeakOn_edfHigherPrio (strictWeakOn_of_ranked hrank)
  refine ⟨fun p hp => hP.irrefl hp, hP.asymm, fun p hp q hq r hr => hP.trans hp hq hr,
    fun p hp q hq r hr hpq hqr => ?_, fun t _ => by simp,
    fun a ha b hb hne => incomparable_iff hrank ha hb hne⟩
  exact ⟨hP.negTrans p hp q hq r hr hpq.1 hqr.1, hP.negTrans r hr q hq p hp hqr.2 hpq.2⟩

/-- Everybody else inherits the priority of task 1. -/
def sharedDonor : TaskTable := fun t =>
  { RtTask.admitted { execCost := 1, period := 10, cpu := 0, budgetPolicy := .noEnforcement } with
    inhTask := if t = 1 then none else some 1 }

theorem edf_higher_prio_strict_weak_donor :
    edfHigherPrio sharedDonor (some 2) (some 1) ∧ ¬edfHigherPrio sharedDonor (some 2) (some 3) ∧
      ¬edfHigherPrio sharedDonor (some 3) (some 2) := by
  obtain ⟨_, _, _, _, _, hinc⟩ := @edf_higher_prio_strict_weak sharedDonor {1, 2, 3}
    (fun _ _ => rfl)
    (fun t _ i hi => by
      have : i = 1 := by
        simp only [sharedDonor] at hi
        split at hi <;> cases hi
        rfl
      simp [this])
    ⟨0, fun _ _ => (by decide : InWindow (0 : LtTime) 0)⟩
  exact ⟨by decide, (hinc 2 (by simp) 3 (by simp) (by decide)).mpr ⟨1, rfl, rfl⟩⟩

/-! ### The preemption test -/

theorem edfPreemptionNeeded_contents (task : TaskTable) (dom : RtDomain) (t : Option TaskId) :
    (edfPreemptionNeeded task dom t).2.readyQueue.elems = dom.readyQueue.elems ∧
      (edfPreemptionNeeded task dom t).2.waiting = dom.waiting := by
  unfold edfPreemptionNeeded
  split
  · exact ⟨rfl, rfl⟩
  split
  · exact ⟨rfl, rfl⟩
  split
  · exact ⟨rfl, rfl⟩
  exact ⟨ready_nextReady _ dom, rfl⟩

theorem queued_edfPreemptionNeeded (task : TaskTable) (dom : RtDomain) (t : Option TaskId) :
    (edfPreemptionNeeded task dom t).2.queued = dom.queued := by
  obtain ⟨hr, hwai⟩ := edfPreemptionNeeded_contents task dom t
  rw [queued, hr, hwai]
  rfl

theorem edfPreemptionNeeded_none (task : TaskTable) (dom : RtDomain) :
    (edfPreemptionNeeded task dom none).1 = dom.jobsPending := by
  cases h : dom.jobsPending <;> simp [edfPreemptionNeeded, h]

theorem jobsPending_of_needed {dom : RtDomain} {t : Option TaskId}
    (h : (edfPreemptionNeeded task dom t).1 = true) : dom.readyQueue.elems ≠ 0 := by
  apply jobsPending_iff.mp
  by_contra hpe
  rw [Bool.not_eq_true] at hpe
  simp [edfPreemptionNeeded, hpe] at h

section

variable {task : TaskTable} {dom : RtDomain} {S : Set TaskId}

section

variable (hS : StrictWeakOn (edfReadyOrder task) S) (hmem : ∀ x ∈ dom.queued, x ∈ S)
  (h : dom.Sorted (edfReadyOrder task))

include hS hmem h

theorem sorted_edfPreemptionNeeded (t : Option TaskId) :
    (edfPreemptionNeeded task dom t).2.Sorted (edfReadyOrder task) := by
  unfold edfPreemptionNeeded
  split
  · exact h
  split
  · exact h
  split
  · exact h
  exact h.nextReady hS hmem

theorem not_higher_of_not_needed {u : TaskId} (hu : u ∈ S) (hrt : (task u).realtime = true)
    (hne : (edfPreemptionNeeded task dom (some u)).1 = false) :
    ∀ x ∈ dom.readyQueue.elems, ¬edfReadyOrder task x u := by
  intro x hx
  have hr : ∀ y ∈ dom.readyQueue.elems, y ∈ S := fun y hy =>
    hmem y (mem_queued.mpr (.inl hy))
  have hpen : dom.jobsPending = true := jobsPending_iff.mpr (fun h0 => by simp [h0] at hx)
  simp only [edfPreemptionNeeded, hpen, hrt, Bool.not_true, Bool.false_eq_true, if_false] at hne
  cases hmi : (dom.readyQueue.cacheMin (edfReadyOrder task)).min with
  | none =>
    rw [Heap.min_cacheMin_eq_none] at hmi
    simp [hmi] at hx
  | some m =>
    obtain ⟨hm, hbes⟩ := Heap.cacheMin_best hS hr h.ready hmi
    have hmu : ¬edfReadyOrder task m u := by
      intro hmu
      simp only [nextReady, Heap.peek, hmi] at hne
      exact absurd hmu (by simp [edfReadyOrder, hne])
    exact hS.negTrans x (hr x hx) m (hr m hm) u hu (hbes x hx) hmu

theorem taken_best {t : Option TaskId} {m : TaskId}
    (hm : ((edfPreemptionNeeded task dom t).2.takeReady (edfReadyOrder task)).1 = some m) :
    ∀ x ∈ dom.readyQueue.elems, ¬edfReadyOrder task x m := by
  obtain ⟨hr, hwai⟩ := edfPreemptionNeeded_contents task dom t
  have hmem' : ∀ x ∈ (edfPreemptionNeeded task dom t).2.queued, x ∈ S := by
    intro x hx
    apply hmem x
    rw [queued, hr, hwai] at hx
    exact hx
  have hso := sorted_edfPreemptionNeeded hS hmem h t
  obtain ⟨_, hbes⟩ := Heap.cacheMin_best hS
    (fun x hx => hmem' x (mem_queued.mpr (.inl hx))) hso.ready hm
  rwa [hr] at hbes

end

theorem taken_higher_of_needed {u m : TaskId} (hrt : (task u).realtime = true)
    (hne : (edfPreemptionNeeded task dom (some u)).1 = true)
    (hm : ((edfPreemptionNeeded task dom (some u)).2.takeReady (edfReadyOrder task)).1 =
      some m) : edfReadyOrder task m u := by
  have hpen : dom.jobsPending = true := jobsPending_iff.mpr (jobsPending_of_needed hne)
  simp only [edfPreemptionNeeded, hpen, hrt, Bool.not_true, Bool.false_eq_true, if_false] at hne hm
  have hn : (dom.nextReady (edfReadyOrder task)).1 = some m := by
    rw [← hm]
    exact congrArg Heap.min (Heap.cacheMin_cacheMin (edfReadyOrder task) dom.readyQueue).symm
  rwa [hn] at hne

end

end Litmus
