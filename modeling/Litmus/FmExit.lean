import Litmus.FmMigration
import Litmus.TaskExit

/-!
# Tasks that leave an EDF-fm machine

`edffm_task_exit`, and the machine with exits among its steps.
-/

namespace Litmus.EdfFm

open BinomialForest Custody Runs Function Multiset

namespace FmState

variable {n : Nat}

def edffmTaskExit (t : TaskId) (st : FmState n) : Option (FmState n) :=
  (st.domainOfTask t).bind fun c =>
    ((st.dom c).domain.dequeue st.order (st.isQueued t) t).map fun edf =>
      st.setCpu c { domain := edf, scheduled := clearSlot t (st.dom c).scheduled }

section

variable {st st' : FmState n} {c : Fin n} {t : TaskId}

theorem FmInv.nodup_queued (h : FmInv st) (c : Fin n) : (st.dom c).domain.queued.Nodup := by
  refine nodup_add.mpr ⟨h.sound.nodup (.ready c), h.sound.nodup (.release c), ?_⟩
  exact disjoint_left.mpr fun hr hw =>
    nomatch h.sound.unique (p := .ready c) hr (q := .release c) hw

theorem FmInv.cpu_eq (h : FmInv st) {q : Place n} {d : Fin n} (hc : st.domainOfTask t = some c)
    (hq : q.cpu = some d) (ht : t ∈ st.held q) : d = c :=
  Fin.ext ((h.partition hq ht).symm.trans (cpu_of_domainOfTask hc))

theorem FmInv.isQueued_iff_here (h : FmInv st) (hc : st.domainOfTask t = some c) :
    st.isQueued t = true ↔ t ∈ (st.dom c).domain.queued := by
  refine isQueued_iff.trans ⟨?_, fun ht => ⟨c, ht⟩⟩
  rintro ⟨d, ht⟩
  obtain rfl : d = c := by
    rcases RtDomain.mem_queued.mp ht with hin | hin
    · exact h.cpu_eq hc (q := .ready d) rfl hin
    exact h.cpu_eq hc (q := .release d) rfl hin
  exact ht

theorem clearSlot_some {slot : Option TaskId} {u : TaskId} (h : clearSlot t slot = some u) :
    slot = some u := by
  unfold clearSlot at h
  split at h
  · cases h
  exact h

theorem taskExit_frame (hx : st.edffmTaskExit t = some st') :
    st'.task = st.task ∧ st'.taskCpu = st.taskCpu ∧ st'.call = st.call ∧ st'.waking = st.waking ∧
      ∀ d u, (st'.dom d).scheduled = some u → (st.dom d).scheduled = some u := by
  obtain ⟨c, -, hx⟩ := Option.bind_eq_some_iff.mp hx
  obtain ⟨edf, -, rfl⟩ := Option.map_eq_some_iff.mp hx
  refine ⟨rfl, rfl, rfl, rfl, fun d u hs => ?_⟩
  by_cases hd : d = c
  · subst hd
    simp only [setCpu, update_self] at hs
    exact clearSlot_some hs
  simpa [setCpu, update_of_ne hd] using hs

/-- Every queue and every slot loses the task, if it was there, and no other. -/
theorem FmInv.taskExit_held (h : FmInv st) (hx : st.edffmTaskExit t = some st') {q : Place n}
    {d : Fin n} (hq : q.cpu = some d) : st'.held q = (st.held q).erase t := by
  obtain ⟨c, hc, hx⟩ := Option.bind_eq_some_iff.mp hx
  obtain ⟨edf, hedf, rfl⟩ := Option.map_eq_some_iff.mp hx
  by_cases hd : d = c
  · subst hd
    obtain ⟨hr, hw⟩ := RtDomain.dequeue_spec (h.nodup_queued d) (h.isQueued_iff_here hc) hedf
    rcases q with e | e | e | e | _ <;> cases hq
    · simp only [held, setCpu, update_self]
      split
      · exact cached_clearSlot t _
      exact (erase_zero t).symm
    · simp [held, setCpu, hr]
    simp [held, setCpu, hw]
  rw [erase_of_notMem fun ht => hd (h.cpu_eq hc hq ht)]
  rcases q with e | e | e | e | _ <;> cases hq <;> simp [held, setCpu, update_of_ne hd]

/-! ### Runs with exits -/

theorem FmInv.taskExit (h : FmInv st) (hcll : ∀ c, st.call c ≠ .unlocked t)
    (hwak : t ∉ st.waking) (hx : st.edffmTaskExit t = some st') : Core st'.held (· = t) st' := by
  obtain ⟨hta, htaskCpu, hca, hwaking', hslo⟩ := taskExit_frame hx
  have hh : ∀ q, st'.held q = (st.held q).erase t := by
    intro q
    cases q with
    | slot d => exact h.taskExit_held hx rfl
    | ready d => exact h.taskExit_held hx rfl
    | release d => exact h.taskExit_held hx rfl
    | leaving d =>
      rw [erase_of_notMem]
      · simp [held, hca]
      intro ht
      simp only [held] at ht
      split at ht
      · rename_i u hu
        exact hcll d (mem_singleton.mp ht ▸ hu)
      exact notMem_zero t ht
    | waking =>
      rw [erase_of_notMem fun ht => hwak ht]
      exact congrArg _ hwaking'
  have hm : ∀ {q u}, u ∈ st'.held q → u ∈ st.held q := by
    intro q u hu
    rw [hh] at hu
    exact mem_of_mem_erase hu
  constructor
  · refine h.sound.erase hh fun u => ?_
    simp [Live, hta]
  · rw [hta]
    exact fun hq hu => h.partition hq (hm hu)
  · rw [hta, htaskCpu]
    exact fun hu => h.here (hm hu)
  · rw [hta, htaskCpu]
    exact fun u _ => h.blocked u not_false
  · rw [hta]
    exact h.online
  · rw [hta, hca]
    exact fun hd hs => h.stale hd (hslo _ _ hs)

end

end FmState

end Litmus.EdfFm
