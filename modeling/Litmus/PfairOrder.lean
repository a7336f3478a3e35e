import Litmus.PfairWheel

/-!
# The order of the PFAIR queues

The PD² comparison orders all real-time tasks, and the heaps stay ordered because a task
changes its priority only while it is in none of them.
-/

namespace Litmus.Pfair

open BinomialForest Custody Function

variable {n : Nat}

/-! ### The priority order -/

theorem pfairReadyOrder_iff {task : Tasks n} {a b : Nat} (hb : (task b).realtime = true) :
    pfairReadyOrder task a b = true ↔ (task a).curDeadline < (task b).curDeadline ∨
        (task a).curDeadline = (task b).curDeadline ∧ ((task b).curOverlap < (task a).curOverlap ∨
            (task a).curOverlap = (task b).curOverlap ∧
              ((task b).curGroupDeadline < (task a).curGroupDeadline ∨
                (task a).curGroupDeadline = (task b).curGroupDeadline ∧ a < b)) := by
  simp [pfairReadyOrder, pfairHigherPrio, hb]

theorem strictWeakOn_pfairReadyOrder {task : Tasks n} {S : Set TaskId}
    (hS : ∀ t ∈ S, (task t).realtime = true) : StrictWeakOn (pfairReadyOrder task) S := by
  constructor
  · intro (a : Nat) ha (b : Nat) hb hab hba
    rw [pfairReadyOrder_iff (hS b hb)] at hab
    rw [pfairReadyOrder_iff (hS a ha)] at hba
    omega
  intro (a : Nat) ha (b : Nat) hb (c : Nat) hc hab hbc hac
  rw [pfairReadyOrder_iff (hS b hb)] at hab
  rw [pfairReadyOrder_iff (hS c hc)] at hbc hac
  omega

def prioKey (p : PfairTask n) : Bool × Nat × Nat × Nat :=
  (p.realtime, p.curDeadline, p.curOverlap, p.curGroupDeadline)

theorem prioKey_congr {p p' : PfairTask n} (hrt : p'.realtime = p.realtime)
    (hpfa : p'.pfair = p.pfair) : prioKey p' = prioKey p := by
  simp only [prioKey, PfairTask.curDeadline, PfairTask.curOverlap, PfairTask.curGroupDeadline,
    PfairTask.curSubtask, hrt, hpfa]
  rfl

theorem pfairReadyOrder_congr {task task' : Tasks n} {a b : TaskId}
    (ha : prioKey (task' a) = prioKey (task a)) (hb : prioKey (task' b) = prioKey (task b)) :
    pfairReadyOrder task' a b = pfairReadyOrder task a b := by
  simp only [prioKey, Prod.mk.injEq] at ha hb
  simp [pfairReadyOrder, pfairHigherPrio, ha, hb]

namespace State

variable {st st' : State n} {t : TaskId}

structure Sorted (st : State n) : Prop where
  ready : st.readyQueue.Ordered st.order
  wheel : ∀ i, (st.releaseQueue i).Ordered st.order

theorem Sorted.congr (h : Sorted st) (hr : st'.readyQueue = st.readyQueue)
    (hrel : st'.releaseQueue = st.releaseQueue)
    (hke : ∀ u, st.Queued u → prioKey (st'.task u) = prioKey (st.task u)) : Sorted st' where
  ready := by
    rw [hr]
    refine h.ready.congr fun a ha b hb hab => ?_
    rwa [order, pfairReadyOrder_congr (hke a (.inl ha)) (hke b (.inl hb))] at hab
  wheel i := by
    rw [hrel]
    refine (h.wheel i).congr fun a ha b hb hab => ?_
    rwa [order, pfairReadyOrder_congr (hke a (.inr ⟨i, ha⟩)) (hke b (.inr ⟨i, hb⟩))] at hab

theorem Sorted.modify (h : Sorted st) (ht : ¬st.Queued t) (f : PfairTask n → PfairTask n) :
    Sorted (st.modify t f) := by
  refine h.congr rfl rfl fun u hu => ?_
  have hne : u ≠ t := by
    rintro rfl
    exact ht hu
  simp [State.modify, update_of_ne hne]

theorem Sorted.modify_keep (h : Sorted st) (f : PfairTask n → PfairTask n)
    (hf : ∀ p, prioKey (f p) = prioKey p) : Sorted (st.modify t f) := by
  refine h.congr rfl rfl fun u _ => ?_
  by_cases hu : u = t
  · subst hu
    simp [State.modify, hf]
  simp [State.modify, update_of_ne hu]

theorem strictWeakOn_order (st : State n) :
    StrictWeakOn st.order {t | (st.task t).realtime = true} :=
  strictWeakOn_pfairReadyOrder fun _ ht => ht

theorem Sorted.pfairAddRelease (h : Sorted st)
    (hrt : ∀ u, st.Queued u → (st.task u).realtime = true) (ht : (st.task t).realtime = true)
    (hst' : st.pfairAddRelease t = some st') : Sorted st' := by
  unfold State.pfairAddRelease at hst'
  split at hst'
  · cases hst'
  cases hst'
  refine ⟨h.ready, fun i => ?_⟩
  simp only [setRelq, setInHeap]
  by_cases hi : i = slot (st.task t).curRelease
  · subst hi
    rw [update_self]
    refine (h.wheel _).insert st.strictWeakOn_order fun x hx => ?_
    rcases Multiset.mem_cons.mp hx with rfl | hx
    · exact ht
    exact hrt x (.inr ⟨_, hx⟩)
  rw [update_of_ne hi]
  exact h.wheel i

theorem Sorted.pollReleases (h : Sorted st) (hrt : ∀ u, st.Queued u → (st.task u).realtime = true)
    (time : Nat) : Sorted (st.pollReleases time) := by
  constructor
  · refine h.ready.union st.strictWeakOn_order (fun x hx => ?_) (h.wheel _)
    rcases Multiset.mem_add.mp hx with hx | hx
    · exact hrt x (.inl hx)
    exact hrt x (.inr ⟨_, hx⟩)
  intro i
  simp only [State.pollReleases, setRelq, setReady]
  by_cases hi : i = slot time
  · subst hi
    rw [update_self]
    exact Heap.Ordered.empty _
  rw [update_of_ne hi]
  exact h.wheel i

theorem ordered_delete (hrt : ∀ u, st.Queued u → (st.task u).realtime = true) {H H' : Heap TaskId}
    (hin : ∀ u ∈ H.elems, st.Queued u) (hnd : H.elems.Nodup) (hord : H.Ordered st.order)
    (hH : H.delete st.order t = some H') : H'.Ordered st.order := by
  refine Heap.Ordered.delete hH hnd st.strictWeakOn_order (fun x hx => hrt x (hin x ?_)) ?_
  · rw [Heap.elems_delete hH hnd]
    exact Multiset.mem_cons_of_mem hx
  refine hord.congr fun a _ b _ hab => ?_
  simp only [Forest.except, Bool.and_eq_true] at hab
  exact hab.1.1

theorem Sorted.dropAllReferences (h : Sorted st)
    (hrt : ∀ u, st.Queued u → (st.task u).realtime = true) (hnd : ∀ p, (st.held p).Nodup)
    (hst' : st.dropAllReferences t = some st') : Sorted st' := by
  unfold State.dropAllReferences at hst'
  split at hst'
  · split at hst'
    · obtain ⟨H, hH, rfl⟩ := Option.map_eq_some_iff.mp hst'
      exact ⟨ordered_delete hrt (fun u hu => .inl hu) (hnd .ready) h.ready hH, h.wheel⟩
    obtain ⟨H, hH, rfl⟩ := Option.map_eq_some_iff.mp hst'
    refine ⟨h.ready, fun i => ?_⟩
    simp only [State.forget, setRelq, setInHeap]
    by_cases hi : i = slot (st.task t).curRelease
    · subst hi
      rw [update_self]
      exact ordered_delete hrt (fun u hu => .inr ⟨_, hu⟩) (hnd (.slot _)) (h.wheel _) hH
    rw [update_of_ne hi]
    exact h.wheel i
  cases hst'
  exact ⟨h.ready, h.wheel⟩

end State

end Litmus.Pfair
