import Litmus.ReleaseQueueInvariant

/-!
# Runs of the release queue

In every run the slots are sorted, the queued heaps have different release times, and a
task that has been added is in one heap until the callback of that heap merges it.
-/

namespace Litmus.ReleaseQueue

open BinomialForest Custody Runs WrapOrder Multiset

namespace State

section

variable {tickPeriod : Nat} {base now : LtTime} {st st' : State} {t h : TaskId}
  {order : TaskId → TaskId → Bool}

/-! ### Steps of the ready queue -/

theorem Inv.releaseJobs (hI : Inv tickPeriod base st) (hh : (st.relHeap h).timer = .unlinked) :
    Inv tickPeriod base (st.releaseJobs order h) := by
  have hre : ∀ {g}, g ≠ h → (st.releaseJobs order h).relHeap g = st.relHeap g := fun hg =>
    relHeap_setHeap_of_ne hg _
  have htm : ((st.releaseJobs order h).relHeap h).timer = .merged :=
    congrArg RelHeap.timer (relHeap_setHeap_self _)
  have hti : (st.releaseJobs order h).timeOf = st.timeOf := timeOf_setHeap rfl
  have hhe : ∀ {g}, g ≠ h → (st.releaseJobs order h).held (.heap g) = st.held (.heap g) :=
    fun hg => congrArg (fun r : RelHeap => r.heap.elems) (hre hg)
  have hhl : (st.releaseJobs order h).held (.heap h) = 0 :=
    congrArg (fun r : RelHeap => r.heap.elems) (relHeap_setHeap_self _)
  have hm : ∀ {g u}, u ∈ (st.releaseJobs order h).held (.heap g) →
      g ≠ h ∧ u ∈ st.held (.heap g) := by
    intro g u hu
    by_cases hg : g = h
    · rw [hg, hhl] at hu
      exact absurd hu (notMem_zero u)
    rw [hhe hg] at hu
    exact ⟨hg, hu⟩
  have hme : ∀ u, (st.releaseJobs order h).merged u =
      st.merged u + (st.held (.heap h)).count u := fun _ => rfl
  have hk : ∀ {u}, u ∉ st.held (.heap h) → (st.releaseJobs order h).merged u = st.merged u := by
    intro u hu
    rw [hme, count_eq_zero_of_notMem hu, add_zero]
  have hac : (st.relHeap h).timer ≠ .inactive := by
    rw [hh]
    intro hc
    cases hc
  constructor
  · apply hI.sound.transfer (a := .heap h) (b := .ready) (by simp)
    · rw [hhl, add_zero]
    · exact Heap.elems_union order _ _
    · intro p hph hpr
      cases p with
      | hand => rfl
      | heap g =>
        apply hhe
        rintro rfl
        exact hph rfl
      | ready => exact absurd rfl hpr
    · exact fun _ => .rfl
  · exact hI.pace
  · intro u hu
    have hpen : u ∈ st.held .hand ∨ (∃ g, u ∈ st.held (.heap g)) :=
      hu.imp id fun ⟨g, hg⟩ => ⟨g, (hm hg).2⟩
    have hn : u ∉ st.held (.heap h) := by
      intro huh
      rcases hu with hu | ⟨g, hg⟩
      · exact hI.hand_apart hu h huh
      obtain ⟨hgh, hg⟩ := hm hg
      cases hI.sound.unique hg huh
      exact hgh rfl
    rw [hk hn]
    exact hI.pending u hpen
  · intro u hhan hhea
    by_cases hu : u ∈ st.held (.heap h)
    · rw [hme, count_eq_one_of_mem (hI.sound.nodup _) hu]
      exact hI.pending u (.inr ⟨h, hu⟩)
    rw [hk hu]
    apply hI.settled u hhan
    intro g hg
    have hgh : g ≠ h := by
      rintro rfl
      exact hu hg
    apply hhea g
    rw [hhe hgh]
    exact hg
  · intro s g hg
    have hgh := hI.ne_of_queued hg (.inl hh)
    rw [hti, hhe hgh, hre hgh]
    exact hI.queued hg
  · intro g hg
    have hgh : g ≠ h := by
      rintro rfl
      rw [htm] at hg
      simp at hg
    rw [hre hgh] at hg
    exact hI.started hg
  · intro g hg
    have hgh : g ≠ h := by
      rintro rfl
      rw [htm] at hg
      cases hg
    rw [hre hgh] at hg
    rw [hhe hgh]
    exact hI.owner hg
  · intro g u hu
    obtain ⟨hgh, hu⟩ := hm hu
    rw [hti, hre hgh]
    exact hI.content hu
  · intro s
    rw [hti]
    exact hI.increasing s
  · intro u hu
    rw [hre (hI.ne_of_prepared hu hac)]
    exact hI.prepared hu
  · intro u hu
    rw [hre (hI.ne_of_arming hu hac)]
    exact hI.arming hu
  · exact hI.window

theorem Inv.takeReady (hI : Inv tickPeriod base st) : Inv tickPeriod base (st.takeReady order) := by
  have htk : ∀ u, (st.takeReady order).taken u =
      st.taken u + (Heap.cached (st.readyQueue.take order).1).count u := fun _ => rfl
  have ho : ∀ p, p ≠ .ready → (st.takeReady order).held p = st.held p := by
    intro p hp
    cases p with
    | hand => rfl
    | heap g => rfl
    | ready => exact absurd rfl hp
  have hk : Sound (st.takeReady order).held
        (fun u => (st.takeReady order).taken u ≠ st.added u) ∧
      ∀ u, st.added u = (st.takeReady order).taken u ∨
        st.added u = (st.takeReady order).taken u + 1 := by
    cases hta : (st.readyQueue.take order).1 with
    | none =>
      have hs : ∀ u, (st.takeReady order).taken u = st.taken u := by
        intro u
        rw [htk, hta]
        rfl
      constructor
      · apply hI.sound.congr
        · intro p
          by_cases hp : p = .ready
          · subst hp
            exact (Heap.elems_take_none hta).trans (Heap.take_eq_none.mp hta).symm
          exact ho p hp
        intro u
        rw [hs]
      intro u
      rw [hs]
      exact hI.pace u
    | some t =>
      have hr : st.held .ready = t ::ₘ (st.takeReady order).held .ready :=
        Heap.elems_take_some hta
      have hl : st.taken t ≠ st.added t :=
        (hI.sound.live_iff t).mp ⟨.ready, by rw [hr]; exact mem_cons_self t _⟩
      have hpa := (hI.pace t).resolve_left hl.symm
      have hse : (st.takeReady order).taken t = st.taken t + 1 := by
        rw [htk, hta]
        simp [Heap.cached]
      have hre : ∀ {u}, u ≠ t → (st.takeReady order).taken u = st.taken u := by
        intro u hu
        rw [htk, hta]
        simp [Heap.cached, hu]
      constructor
      · apply hI.sound.leave hr ho
        intro u
        by_cases hu : u = t
        · subst hu
          simp [hse, hpa]
        rw [hre hu]
        exact ⟨fun h => ⟨hu, h⟩, fun h => h.2⟩
      intro u
      by_cases hu : u = t
      · subst hu
        rw [hse]
        exact .inl hpa
      rw [hre hu]
      exact hI.pace u
  exact
    { sound := hk.1, pace := hk.2, pending := hI.pending, settled := hI.settled
      queued := hI.queued, started := hI.started, owner := hI.owner, content := hI.content
      increasing := hI.increasing, prepared := hI.prepared, arming := hI.arming, window := hI.window }

/-! ### Runs -/

theorem Inv.init (releaseTime release : TaskId → LtTime) :
    Inv tickPeriod base (State.init releaseTime release) := by
  have hh : ∀ p, (State.init releaseTime release).held p = 0 := by
    intro p
    cases p <;> rfl
  have hs : ∀ s, (State.init releaseTime release).slot s = [] := fun _ => rfl
  have hti : ∀ g, ((State.init releaseTime release).relHeap g).timer = .inactive := fun _ => rfl
  have had : (State.init releaseTime release).adder = .idle := rfl
  constructor
  · constructor
    · simp [hh]
    · simp [hh]
    intro u
    refine ⟨fun ⟨p, hp⟩ => ?_, fun hne => absurd rfl hne⟩
    rw [hh] at hp
    exact absurd hp (notMem_zero u)
  · exact fun t => .inl rfl
  · simp [hh]
  · exact fun t _ _ => rfl
  · simp [hs]
  · simp [hti]
  · simp [hti]
  · simp [hh]
  · intro s
    rw [hs]
    exact List.Pairwise.nil
  · simp [had]
  · simp [had]
  · simp [hh]

theorem Inv.step {op : Op} (hI : Inv tickPeriod base st)
    (hs : Step tickPeriod base st op st') : Inv tickPeriod base st' := by
  obtain ⟨hl, order, hx⟩ := hs
  cases op with
  | addRelease t time =>
    obtain ⟨hidl, hfr, htim⟩ := hl
    cases hx
    exact hI.addRelease hidl hfr htim
  | findHeap =>
    simp only [exec] at hx
    split at hx
    · rename_i t hloo
      cases hx
      exact hI.findHeap hloo
    cases hx
  | reinit =>
    simp only [exec] at hx
    split at hx
    · rename_i t hdro
      exact hI.reinit hdro hx
    cases hx
  | useHeap =>
    simp only [exec] at hx
    split at hx
    · rename_i t hpre
      exact hI.useHeap hpre hx
    cases hx
  | arm =>
    simp only [exec] at hx
    split at hx
    · rename_i t rh harm
      cases hx
      exact hI.arm harm
    cases hx
  | fire h now =>
    cases hx
    exact hI.fire hl.1
  | listDel h =>
    cases hx
    exact hI.listDel hl
  | releaseJobs h =>
    cases hx
    exact hI.releaseJobs hl
  | «return» h =>
    cases hx
    exact hI.return hl
  | takeReady =>
    cases hx
    exact hI.takeReady

/-! ### What a step does -/

/-- The task waits: its `add_release` is under way, or it is in one heap, once.  The release
    time of the heap is its release, and the heap is queued or its callback has just taken
    it off the queue. -/
def Waits (st : State) (t : TaskId) : Prop :=
  t ∈ st.held .hand ∧ (∀ g, t ∉ st.held (.heap g)) ∨
    t ∉ st.held .hand ∧ ∃ h, (st.held (.heap h)).count t = 1 ∧ st.timeOf h = st.release t ∧
      (st.Queued h ∨ (st.relHeap h).timer = .unlinked) ∧ ∀ g, t ∈ st.held (.heap g) → g = h

structure Exact (st : State) : Prop where
  increasing : ∀ s, Increasing st.timeOf (st.slot s)
  distinct : ∀ {s s' g h}, g ∈ st.slot s → h ∈ st.slot s' → st.timeOf g = st.timeOf h →
    s = s' ∧ g = h
  /-- a task has been merged as often as it has been added, or it waits -/
  waiting : ∀ t, st.added t = st.merged t + 1 ∧ st.Waits t ∨
    st.added t = st.merged t ∧ t ∉ st.held .hand ∧ ∀ h, t ∉ st.held (.heap h)
  /-- the timer of a queued heap is armed, or its owner is about to arm it -/
  armed : ∀ {s h}, h ∈ st.slot s → (st.relHeap h).timer = .armed ∨ (st.relHeap h).timer = .fired ∨
      (st.relHeap h).timer = .inactive ∧ st.adder = .arming h h
  /-- only the timer of a queued heap is armed -/
  started : ∀ {h}, (st.relHeap h).timer = .armed → st.Queued h
  /-- the `BUG_ON` of `reinit_release_heap` is not reached -/
  reinit : ∀ {t}, st.adder = .dropped t → (st.relHeap t).timer ≠ .armed

theorem Inv.waits (hI : Inv tickPeriod base st) (t : TaskId) :
    st.added t = st.merged t + 1 ∧ st.Waits t ∨
      st.added t = st.merged t ∧ t ∉ st.held .hand ∧ ∀ h, t ∉ st.held (.heap h) := by
  by_cases hha : t ∈ st.held .hand
  · exact .inl ⟨hI.pending t (.inl hha), .inl ⟨hha, hI.hand_apart hha⟩⟩
  by_cases hhe : ∃ h, t ∈ st.held (.heap h)
  · obtain ⟨h, hh⟩ := hhe
    obtain ⟨hrel, -, hwhe⟩ := hI.content hh
    refine .inl ⟨hI.pending t (.inr ⟨h, hh⟩), .inr ⟨hha, h, ?_, hrel.symm, hwhe, ?_⟩⟩
    · exact count_eq_one_of_mem (hI.sound.nodup _) hh
    intro g hg
    cases hI.sound.unique hg hh
    rfl
  have hn : ∀ h, t ∉ st.held (.heap h) := fun h hh => hhe ⟨h, hh⟩
  exact .inr ⟨hI.settled t hha hn, hha, hn⟩

theorem Inv.exact (hI : Inv tickPeriod base st) : st.Exact where
  increasing := hI.increasing
  distinct := by
    intro s s' g h hg hh hti
    have hs : s = s' := by rw [(hI.queued hg).1, (hI.queued hh).1, hti]
    subst hs
    exact ⟨rfl, Increasing.eq_of_time (hI.increasing s) hg hh hti⟩
  waiting := hI.waits
  armed hh := (hI.queued hh).2.2
  started hh := hI.started (.inl hh)
  reinit ht := (hI.own_not_armed (by simp [held, ht])).1

end

end State

open State (init arm)

open State

end Litmus.ReleaseQueue
