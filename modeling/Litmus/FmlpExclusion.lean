import Litmus.FifoLock
import Litmus.Fmlp

/-!
# FMLP semaphores are handed over in order

The semaphore refines a first-in first-out lock, under any plugin: the counter says whether
a task has to wait and whether one has to be woken, and a woken entry belongs to the owner.
-/

namespace Litmus.Fmlp

open FifoLock Runs Function List Option WaitEntry

/-! ### Counting -/

theorem toInt_sub_one {c : BitVec 32} (h : -2 ^ 31 < c.toInt) : (c - 1).toInt = c.toInt - 1 := by
  have hlt := BitVec.toInt_lt (x := c)
  have hone : (1 : BitVec 32).toInt = 1 := rfl
  rw [BitVec.toInt_sub, hone, Int.bmod_def]
  split <;> omega

theorem toInt_add_one {c : BitVec 32} (h : c.toInt < 2 ^ 31 - 1) : (c + 1).toInt = c.toInt + 1 := by
  have hle := BitVec.le_toInt (x := c)
  have hone : (1 : BitVec 32).toInt = 1 := rfl
  rw [BitVec.toInt_add, hone, Int.bmod_def]
  split <;> omega

theorem slt_zero (c : BitVec 32) : c.slt 0 = decide (c.toInt < 0) := rfl

theorem slt_one (c : BitVec 32) : c.slt 1 = decide (c.toInt < 1) := rfl

theorem length_le_of_nodup {ts : List TaskId} (hnod : ts.Nodup)
    (hsma : ∀ t ∈ ts, t < pidMaxLimit) : ts.length ≤ pidMaxLimit := by
  have hsub : ts.toFinset ⊆ Finset.range pidMaxLimit := by
    intro t ht
    exact Finset.mem_range.mpr (hsma t (mem_toFinset.mp ht))
  have hcar := Finset.card_le_card hsub
  rwa [toFinset_card_of_nodup hnod, Finset.card_range] at hcar

/-! ### The refinement -/

/-- The entry of a task that has not been woken. -/
def sleeping (t : TaskId) : WaitEntry := { tsk := t, woken := false }

/-- The entry of a task that owns the semaphore and has not run yet. -/
def awake (t : TaskId) : WaitEntry := { tsk := t, woken := true }

/-- The semaphore implements the lock.  The entries of the wait queue are those of the
    waiting tasks, possibly after the one of the owner. -/
structure Refines (st : State) (l : Lock TaskId) : Prop where
  owners : st.owners = Multiset.ofList l.owner.toList
  wait : st.wait = l.waiting.map sleeping ∨
    ∃ t, l.owner = some t ∧ st.wait = awake t :: l.waiting.map sleeping
  count : st.count.toInt = 1 - l.owner.toList.length - l.waiting.length
  called : st.called = l.called
  granted : st.granted = l.granted
  nodup : (st.wait.map WaitEntry.tsk).Nodup
  small : ∀ t ∈ st.wait.map WaitEntry.tsk, t < pidMaxLimit

def Op.abs : Op → FifoLock.Op TaskId
  | .fmlpDown t => .request t
  | .fmlpUp _ => .release
  | .resume _ => .pass
  | .newJob _ _ => .pass

@[simp] theorem map_tsk_sleeping (ts : List TaskId) : (ts.map sleeping).map tsk = ts := by
  simp [sleeping, comp_def]

@[simp] theorem filter_sleeping (ts : List TaskId) :
    (ts.map sleeping).filter (fun e => !e.woken) = ts.map sleeping := by
  simp [sleeping]

section

variable {plugin : Plugin} {st st' : State} {l : Lock TaskId} {t : TaskId}

section

variable (h : Refines st l)
include h

theorem Refines.waiters : st.waiters = l.waiting := by
  unfold State.waiters
  rcases h.wait with hw | ⟨t, -, hw⟩
  · rw [hw, filter_sleeping, map_tsk_sleeping]
  rw [hw, filter_cons_of_neg (by simp [awake]), filter_sleeping, map_tsk_sleeping]

theorem Refines.length_le : l.waiting.length ≤ pidMaxLimit := by
  have hle := length_le_of_nodup h.nodup h.small
  rw [length_map] at hle
  rcases h.wait with hw | ⟨t, -, hw⟩
  · rw [hw, length_map] at hle
    exact hle
  rw [hw, length_cons, length_map] at hle
  exact Nat.le_of_succ_le hle

theorem Refines.owner_of_awake (ht : awake t ∈ st.wait) :
    l.owner = some t ∧ st.wait = awake t :: l.waiting.map sleeping := by
  rcases h.wait with hw | ⟨u, hu, hw⟩
  · rw [hw] at ht
    simp [awake, sleeping] at ht
  rw [hw] at ht
  rcases mem_cons.mp ht with htu | ht
  · have heq : t = u := congrArg tsk htu
    rw [heq]
    exact ⟨hu, hw⟩
  simp [awake, sleeping] at ht

theorem Refines.asleep (howner : t ∈ st.owners) (hrun : ¬st.InDown t) :
    l.owner = some t ∧ st.wait = l.waiting.map sleeping := by
  have hl : l.owner = some t := by
    rw [h.owners] at howner
    simpa using howner
  refine ⟨hl, ?_⟩
  rcases h.wait with hw | ⟨u, hu, hw⟩
  · exact hw
  cases hl.symm.trans hu
  apply absurd _ hrun
  unfold State.InDown
  rw [hw]
  exact mem_cons_self

theorem Refines.not_woken (howner : t ∈ st.owners) (hrun : ¬st.InDown t) :
    ∀ e ∈ st.wait, e.woken = false := by
  obtain ⟨-, hw⟩ := h.asleep howner hrun
  intro e he
  rw [hw] at he
  obtain ⟨u, -, rfl⟩ := mem_map.mp he
  rfl

end

theorem Refines.init (task : TaskTable) : Refines (State.init task) Lock.free where
  owners := rfl
  wait := .inl rfl
  count := rfl
  called := rfl
  granted := rfl
  nodup := nodup_nil
  small := by
    intro t ht
    cases ht

/-! ### Steps -/

section

variable (h : Refines st l)
include h

theorem Refines.free (hfai : l.Fair) (howner : l.owner = none) : st.wait = [] ∧ st.owners = 0 := by
  constructor
  · rcases h.wait with hw | ⟨u, hu, -⟩
    · rw [hw, hfai.busy howner]
      rfl
    cases howner.symm.trans hu
  rw [h.owners, howner]
  rfl

theorem Refines.dec : (st.count - 1).toInt = st.count.toInt - 1 := by
  have hlen := h.length_le
  have hlim : pidMaxLimit = 2 ^ 22 := by decide
  have hone : l.owner.toList.length ≤ 1 := by cases l.owner <;> simp
  have hco := h.count
  apply toInt_sub_one
  omega

theorem Refines.suspends (hfa : l.Fair) :
    ((st.count - 1).slt 0 || !st.wait.isEmpty) = l.owner.isSome := by
  have hco := h.count
  have hdec := h.dec
  cases howner : l.owner with
  | none =>
    rw [howner, hfa.busy howner] at hco
    rw [(h.free hfa howner).1, slt_zero, hdec, hco]
    rfl
  | some u =>
    rw [howner, toList_some, length_singleton] at hco
    have hneg : (st.count - 1).toInt < 0 := by omega
    rw [slt_zero, decide_eq_true hneg, Bool.true_or]
    rfl

theorem Refines.fmlpDown (hfa : l.Fair) (hsma : t < pidMaxLimit)
    (hrun : ¬st.InDown t) : Refines (st.fmlpDown plugin t) (l.request t) := by
  have hco := h.count
  have hde := h.dec
  unfold State.fmlpDown Lock.request
  dsimp only
  rw [h.suspends hfa]
  cases howner : l.owner with
  | none =>
    have hn : l.waiting = [] := hfa.busy howner
    obtain ⟨hw, hown⟩ := h.free hfa howner
    rw [howner, hn] at hco
    simp only [isSome_none, Bool.false_eq_true, if_false]
    constructor
    · simp [hown]
    · left
      simp [hw, hn]
    · rw [hde, hco, hn]
      rfl
    · simp [h.called]
    · simp [h.granted]
    · simp [hw]
    · simp [hw]
  | some u =>
    have hma : (st.wait ++ [({ tsk := t, woken := false } : WaitEntry)]).map tsk =
        st.wait.map tsk ++ [t] := by
      rw [map_append]
      rfl
    rw [howner] at hco
    simp only [isSome_some, if_true]
    constructor
    · exact h.owners.trans (by rw [howner])
    · rcases h.wait with hw | ⟨v, hv, hw⟩
      · left
        simp [hw, sleeping]
      right
      refine ⟨v, hv.symm.trans howner ▸ rfl, ?_⟩
      simp [hw, sleeping]
    · simp only [hde, hco, toList_some, length_singleton, length_append]
      push_cast
      omega
    · simp [h.called]
    · exact h.granted
    · rw [hma]
      refine nodup_append.mpr ⟨h.nodup, nodup_singleton t, ?_⟩
      intro a ha b hb
      rw [mem_singleton.mp hb]
      rintro rfl
      exact hrun ha
    · rw [hma]
      intro a ha
      rcases mem_append.mp ha with ha | ha
      · exact h.small a ha
      rw [mem_singleton.mp ha]
      exact hsma

theorem Refines.resume (ht : awake t ∈ st.wait) : Refines (st.removeWaitQueue t) l := by
  obtain ⟨howner, hw⟩ := h.owner_of_awake ht
  have hre : (st.removeWaitQueue t).wait = l.waiting.map sleeping := by
    unfold State.removeWaitQueue
    rw [hw]
    simp [awake]
  have hsu : ((st.removeWaitQueue t).wait.map tsk).Sublist (st.wait.map tsk) := by
    rw [hre, hw]
    exact (sublist_cons_self _ _).map _
  exact
    { owners := h.owners
      wait := .inl hre
      count := h.count
      called := h.called
      granted := h.granted
      nodup := h.nodup.sublist hsu
      small := fun u hu => h.small u (hsu.subset hu) }

end

/-- What `fmlp_up` amounts to: the first of the tasks `ws`, if there is one, is woken and
    owns the semaphore. -/
def State.handOver (plugin : Plugin) (pi : Pi) (st : State) : List TaskId → State
  | [] => { st with count := st.count + 1, pi := { pi with holder := none }, owners := 0 }
  | w :: ws =>
      { st with
        count := st.count + 1
        wait := awake w :: ws.map sleeping
        pi := plugin.inheritPriority w { pi with holder := none }
        owners := {w}
        granted := st.granted ++ [w] }

section

variable (h : Refines st l) (howner : t ∈ st.owners) (hrun : ¬st.InDown t)

include h howner hrun

theorem Refines.fmlpUp_eq :
    st.fmlpUp plugin t = (plugin.returnPriority st.wait t st.pi).map fun pi =>
      st.handOver plugin pi l.waiting := by
  obtain ⟨hl, hw⟩ := h.asleep howner hrun
  have hlen := h.length_le
  have hlim : pidMaxLimit = 2 ^ 22 := by decide
  have hco := h.count
  rw [hl] at hco
  simp only [toList_some, length_singleton] at hco
  have hin : (st.count + 1).toInt = st.count.toInt + 1 := toInt_add_one (by omega)
  have how : st.owners.erase t = 0 := by
    rw [h.owners, hl]
    simp
  unfold State.fmlpUp
  cases plugin.returnPriority st.wait t st.pi with
  | none => rfl
  | some pi =>
    cases hws : l.waiting with
    | nil =>
      have hla : (st.count + 1).slt 1 = false := by
        rw [slt_one, hin, hco, hws]
        rfl
      simp only [bind_some, hla, Bool.false_eq_true, if_false, how, map_some, State.handOver]
    | cons w ws =>
      have hmor : (st.count + 1).slt 1 = true := by
        rw [hws, length_cons] at hco
        push_cast at hco
        rw [slt_one, hin, decide_eq_true_eq]
        omega
      rw [hws, map_cons] at hw
      simp only [bind_some, hmor, if_true, hw, State.wakeUpLocked, sleeping,
        Bool.false_eq_true, if_false, map_some, how, State.handOver]
      rfl

theorem Refines.handOver (pi : Pi) : Refines (st.handOver plugin pi l.waiting) l.release := by
  obtain ⟨hl, hw⟩ := h.asleep howner hrun
  have hlen := h.length_le
  have hlim : pidMaxLimit = 2 ^ 22 := by decide
  have hco := h.count
  rw [hl] at hco
  simp only [toList_some, length_singleton] at hco
  have hin : (st.count + 1).toInt = st.count.toInt + 1 := toInt_add_one (by omega)
  unfold Lock.release
  cases hws : l.waiting with
  | nil =>
    rw [hws] at hw hco
    simp only [State.handOver]
    constructor
    · rfl
    · exact .inl hw
    · rw [hin, hco]
      rfl
    · exact h.called
    · exact h.granted
    · exact h.nodup
    · exact h.small
  | cons w ws =>
    rw [hws] at hw hco
    have hta : (awake w :: ws.map sleeping).map tsk = st.wait.map tsk := by
      rw [hw]
      rfl
    simp only [State.handOver]
    constructor
    · rfl
    · exact .inr ⟨w, rfl, rfl⟩
    · rw [hin, hco, length_cons, toList_some, length_singleton]
      push_cast
      omega
    · exact h.called
    · rw [h.granted]
    · rw [hta]
      exact h.nodup
    · rw [hta]
      exact h.small

theorem Refines.fmlpUp (hup : st.fmlpUp plugin t = some st') : Refines st' l.release := by
  rw [h.fmlpUp_eq howner hrun] at hup
  obtain ⟨pi, -, rfl⟩ := map_eq_some_iff.mp hup
  exact h.handOver howner hrun pi

end

theorem Refines.step {op : Op} (h : Refines st l) (hfai : l.Fair) (hs : Step plugin st op st') :
    Refines st' (l.exec op.abs) := by
  obtain ⟨hl, hx⟩ := hs
  cases op with
  | fmlpDown t =>
    cases hx
    exact h.fmlpDown hfai hl.1 hl.2
  | resume t =>
    cases hx
    exact h.resume hl
  | fmlpUp t => exact h.fmlpUp hl.1 hl.2 hx
  | newJob t deadline =>
    cases hx
    exact
      { owners := h.owners, wait := h.wait, count := h.count, called := h.called
        granted := h.granted, nodup := h.nodup, small := h.small }

theorem simulates {task : TaskTable} {ops : List Op}
    (hrun : Run (Step plugin) (State.init task) ops st) :
    ∃ l : Lock TaskId, l.Fair ∧ Refines st l := by
  have hs : ∀ st l op st', (l.Fair ∧ Refines st l) → Step plugin st op st' →
      ∃ l' : Lock TaskId, l' = l.exec op.abs ∧ l'.Fair ∧ Refines st' l' := by
    rintro st l op st' ⟨hfa, href⟩ hs
    exact ⟨_, rfl, hfa.exec op.abs, href.step hfa hs⟩
  obtain ⟨l, -, hl⟩ := hrun.simulation hs ⟨Lock.Fair.free, Refines.init task⟩
  exact ⟨l, hl⟩

/-! ### Exclusion -/

/-- The semaphore excludes, and it is granted in the order of the calls. -/
structure Exclusive (st : State) : Prop where
  single : st.owners.card ≤ 1
  /-- who has obtained the semaphore called before those who wait, and in this order -/
  fifo : st.called = st.granted ++ st.waiters
  count : st.count.toInt = 1 - st.owners.card - st.waiters.length
  free : st.owners = 0 → st.waiters = []

theorem Refines.exclusive (h : Refines st l) (hfa : l.Fair) : Exclusive st where
  single := by
    rw [h.owners]
    cases l.owner <;> simp
  fifo := by
    rw [h.called, h.granted, h.waiters]
    exact hfa.order
  count := by
    rw [h.count, h.waiters, h.owners, Multiset.coe_card]
  free := by
    intro hfr
    rw [h.waiters]
    apply hfa.busy
    rw [h.owners] at hfr
    cases howner : l.owner with
    | none => rfl
    | some u => simp [howner] at hfr

/-- The semaphore goes to the first waiter, and no other task is woken. -/
def HandsOver (st st' : State) : Prop :=
  match st.waiters with
  | [] => st'.owners = 0 ∧ st'.wait = []
  | w :: ws => st'.owners = {w} ∧ st'.granted = st.granted ++ [w] ∧
      st'.wait = awake w :: ws.map sleeping

theorem Refines.handsOver (h : Refines st l) (howner : t ∈ st.owners) (hrun : ¬st.InDown t)
    (pi : Pi) : HandsOver st (st.handOver plugin pi l.waiting) := by
  unfold HandsOver
  rw [h.waiters]
  cases hws : l.waiting with
  | nil =>
    obtain ⟨-, hw⟩ := h.asleep howner hrun
    rw [hws] at hw
    exact ⟨rfl, hw⟩
  | cons w ws => exact ⟨rfl, rfl, rfl⟩

theorem Refines.up_step (h : Refines st l) (ht : st.Legal (.fmlpUp t))
    (hsom : (plugin.returnPriority st.wait t st.pi).isSome) :
    ∃ st', Step plugin st (.fmlpUp t) st' ∧ HandsOver st st' := by
  obtain ⟨pi, hpi⟩ := isSome_iff_exists.mp hsom
  refine ⟨st.handOver plugin pi l.waiting, ⟨ht, ?_⟩, h.handsOver ht.1 ht.2 pi⟩
  simp [State.exec, h.fmlpUp_eq ht.1 ht.2, hpi]

end

/-- Whatever the interleaving, at most one task owns the semaphore, it is granted in the
    order of the calls, the counter counts owners and waiters, and nobody waits for a free
    semaphore.  When its owner releases it, no entry of the queue has been woken, and the
    first waiter is woken and no other. -/
theorem fmlp_exclusive_fifo {plugin : Plugin} {task : TaskTable} {ops : List Op} {st : State}
    (hrun : Run (Step plugin) (State.init task) ops st) :
    Exclusive st ∧ ∀ t, st.Legal (.fmlpUp t) → (∀ e ∈ st.wait, e.woken = false) ∧
      ((plugin.returnPriority st.wait t st.pi).isSome →
        ∃ st', Step plugin st (.fmlpUp t) st' ∧ HandsOver st st') := by
  obtain ⟨l, hfair, href⟩ := simulates hrun
  refine ⟨href.exclusive hfair, ?_⟩
  intro t hl
  exact ⟨href.not_woken hl.1 hl.2, href.up_step hl⟩

/-- Three tasks, one of them handed the semaphore and not yet running. -/
theorem fmlp_exclusive_fifo_handed :
    ∃ st, Run (Step gsnEdf) (State.init fun _ => RtTask.admitted ⟨2, 10, 0, .noEnforcement⟩)
      [.fmlpDown 1, .fmlpDown 2, .fmlpDown 3, .fmlpUp 1] st ∧
      (st.owners = {2} ∧ st.waiters = [3] ∧ st.wait.length = 2 ∧ st.count = -1) ∧
      Exclusive st :=
  Run.exists_of_check (Q := fun st =>
      st.owners = {2} ∧ st.waiters = [3] ∧ st.wait.length = 2 ∧ st.count = -1)
    (fun _ _ _ hl hx => ⟨of_decide_eq_true hl, hx⟩) (by decide +kernel)
    fun _ hrun hst => ⟨hst, (fmlp_exclusive_fifo hrun).1⟩

end Litmus.Fmlp
