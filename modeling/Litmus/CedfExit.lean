import Litmus.Linkage
import Litmus.RtTask
import Mathlib.Data.List.FinRange

/-!
# Exits under C-EDF

`cedf_task_exit` on a machine with several clusters.  CPUs are numbered over the whole machine;
the array `cpus` of a cluster has an entry for each of its own CPUs.
-/

namespace Litmus.CEdf

open Linkage Function

/-- The entries of all CPUs, the places of the tasks, and the queues, of type `D`. -/
structure System (n : Nat) (D : Type) where
  /-- `get_partition` -/
  partition : TaskId → Fin n
  scheduled : Fin n → Option TaskId
  linked : Fin n → Option TaskId
  /-- `scheduled_on`; `none` is `NO_CPU` -/
  scheduledOn : TaskId → Option (Fin n)
  linkedOn : TaskId → Option (Fin n)
  domain : D

variable {n : Nat} {D : Type}

/-- `cedf[i].cpus`, as `cedf_activate_plugin` fills it in. -/
def cpus (cluster : Fin n → Nat) (i : Nat) : List (Fin n) :=
  (List.finRange n).filter fun c => cluster c == i

namespace System

variable (cluster : Fin n → Nat) (remove : TaskId → D → Option D)

/-- `remove` stands for `if (is_queued(t)) remove(&(task_cpu_cluster(t))->domain, t)`. -/
def unlink (t : TaskId) (st : System n D) : Option (System n D) :=
  match st.linkedOn t with
  | some c =>
      -- link_task_to_cpu(NULL, entry)
      some { st with
        linkedOn := forget st.linked c (update st.linkedOn t none), linked := update st.linked c none }
  | none => (remove t st.domain).map fun domain => { st with domain }

/-- `scheduled_on` is looked up in the array of the cluster; `none` if it is no index of it. -/
def cedfTaskExit (t : TaskId) (st : System n D) : Option (System n D) :=
  (st.unlink remove t).bind fun st =>
    match st.scheduledOn t with
    | some c => (cpus cluster (cluster (st.partition t)))[c.val]?.map fun e =>
        { st with scheduled := update st.scheduled e none, scheduledOn := update st.scheduledOn t none }
    | none => some st

/-- `t` is on no CPU of `st'`, and the other CPUs are as in `st`. -/
def Left (t : TaskId) (st st' : System n D) : Prop :=
  (∀ c, st'.scheduled c ≠ some t ∧ st'.linked c ≠ some t) ∧
    ∀ c, st.scheduled c ≠ some t → st.linked c ≠ some t →
      st'.scheduled c = st.scheduled c ∧ st'.linked c = st.linked c

variable {cluster remove} {P : TaskId → Prop} {t : TaskId} {st st₁ : System n D}

/-- `unlink` empties the one entry that `t` is linked to. -/
theorem unlink_spec (ht : P t) (hli : Paired P st.linked st.linkedOn)
    (h : st.unlink remove t = some st₁) :
    st₁.partition = st.partition ∧ st₁.scheduled = st.scheduled ∧ st₁.scheduledOn = st.scheduledOn ∧
      ∀ c, st₁.linked c = if st.linked c = some t then none else st.linked c := by
  unfold unlink at h
  split at h
  · rename_i c hc
    cases h
    refine ⟨rfl, rfl, rfl, fun d => ?_⟩
    have hd : st.linked d = some t ↔ d = c :=
      ⟨fun hd => hli.slot_unique ht hd ((hli t ht c).mp hc), fun hd => hd ▸ (hli t ht c).mp hc⟩
    simp [update_apply, hd]
  rename_i hn
  obtain ⟨domain, -, rfl⟩ := Option.map_eq_some_iff.mp h
  refine ⟨rfl, rfl, rfl, fun d => (if_neg fun hd => ?_).symm⟩
  cases hn.symm.trans ((hli t ht d).mpr hd)

/-- A task leaves as it should exactly if the CPU it is scheduled on stands at its own number in
    the array of the task's cluster. -/
theorem cedf_task_exit_iff (ht : P t) (hsched : Paired P st.scheduled st.scheduledOn)
    (hlink : Paired P st.linked st.linkedOn) (hunlink : st.unlink remove t = some st₁) :
    (∃ st', st.cedfTaskExit cluster remove t = some st' ∧ Left t st st') ↔
      ∀ c, st.scheduledOn t = some c →
        (cpus cluster (cluster (st.partition t)))[c.val]? = some c := by
  obtain ⟨hpart, hs, hon, hl⟩ := unlink_spec ht hlink hunlink
  have hlinked : ∀ c, st₁.linked c ≠ some t := fun c => by
    rw [hl]
    split <;> simp_all
  rw [cedfTaskExit, hunlink, Option.bind_some, hon, hpart]
  rcases hc : st.scheduledOn t with _ | c
  · have hnot : ∀ d, st.scheduled d ≠ some t := fun d hd => by
      cases hc.symm.trans ((hsched t ht d).mpr hd)
    refine iff_of_true ⟨st₁, rfl, fun d => ⟨hs ▸ hnot d, hlinked d⟩, fun d _ hd => ?_⟩ nofun
    exact ⟨by rw [hs], (hl d).trans (if_neg hd)⟩
  have hself : st.scheduled c = some t := (hsched t ht c).mp hc
  constructor
  · rintro ⟨st', h, hleft, -⟩ d ⟨⟩
    obtain ⟨e, he, rfl⟩ := Option.map_eq_some_iff.mp h
    have hce := (hleft c).1
    by_cases heq : c = e
    · rwa [heq] at he ⊢
    simp [hs, heq, hself] at hce
  intro hpos
  refine ⟨_, congrArg (Option.map _) (hpos c rfl), fun d => ⟨fun hd => ?_, hlinked d⟩,
    fun d hd hd' => ⟨?_, (hl d).trans (if_neg hd')⟩⟩
  · obtain ⟨hdc, hd⟩ := update_none_eq_some.mp hd
    rw [hs] at hd
    exact hdc (hsched.slot_unique ht hd hself)
  have hdc : d ≠ c := by
    rintro rfl
    exact hd hself
  simp [hdc, hs]

/-- Task 7 runs on CPU `c`, task 8 on the last CPU of four. -/
def running (c : Fin 4) : System 4 Unit where
  partition _ := c
  scheduled d := if d = c then some 7 else if d = Fin.last 3 then some 8 else none
  linked _ := none
  scheduledOn t := if t = 7 then some c else if t = 8 then some (Fin.last 3) else none
  linkedOn _ := none
  domain := ()

theorem cedf_task_exit_first :
    ∃ st', (running 0).cedfTaskExit (fun c => c.val / 2) (fun _ => some) 7 = some st' ∧
      Left 7 (running 0) st' := by
  refine (cedf_task_exit_iff (P := (· = 7)) rfl ?_ ?_ rfl).mpr ?_
  · rintro t rfl
    decide
  · rintro t rfl
    decide
  decide

/-- With clusters of neighbours, the CPU's number is beyond the array of the second cluster; with
    clusters of every other CPU, the entry of CPU 3 is cleared instead of that of CPU 1. -/
theorem cedf_task_exit_other_cpu :
    (running 2).cedfTaskExit (fun c => c.val / 2) (fun _ => some) 7 = none ∧
    ∃ st', (running 1).cedfTaskExit (fun c => c.val % 2) (fun _ => some) 7 = some st' ∧
      st'.scheduled 1 = some 7 ∧ (running 1).scheduled 3 = some 8 ∧ st'.scheduled 3 = none :=
  ⟨rfl, _, rfl, rfl, rfl, rfl⟩

end System

end Litmus.CEdf
