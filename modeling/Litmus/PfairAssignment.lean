import Litmus.Census
import Litmus.PfairQuantum

/-!
# The assignment of one quantum

`schedule_subtasks` goes through the CPUs and links the best ready task to each, but the
task may be redirected to the CPU it is executing on or was linked to last.  The retry loop
ends because every redirection brings a task home, and after the last CPU no ready task
beats a linked one.
-/

namespace Litmus.Pfair

open BinomialForest Custody Runs Census Function

variable {n : Nat}

/-! ### Homes -/

namespace State

variable {time lo hi : Nat} {L : TaskId → Prop} {st st' : State n} {cpu target : Fin n} {t : TaskId}
  {pushed : Option TaskId}

/-- No two tasks want to be redirected to one CPU for the same reason. -/
structure Homes (time : Nat) (L : TaskId → Prop) (st : State n) : Prop where
  scheduled : ∀ t u c, L t → L u → (st.task t).scheduledOn = some c →
    (st.task u).scheduledOn = some c → t = u
  last : ∀ t, L t → (st.task t).pfair.lastQuantum + 1 = time → (st.task t).pfair.lastCpu < n
  last_inj : ∀ t u, L t → L u → (st.task t).pfair.lastQuantum + 1 = time →
    (st.task u).pfair.lastQuantum + 1 = time →
    (st.task t).pfair.lastCpu = (st.task u).pfair.lastCpu → t = u

theorem Homes.congr (h : Homes time L st) (hta : st'.task = st.task) : Homes time L st' := by
  constructor
  · intro t u c
    rw [hta]
    exact h.scheduled t u c
  · intro t
    rw [hta]
    exact h.last t
  intro t u
  rw [hta]
  exact h.last_inj t u

/-- How much at home a task is on a CPU. -/
def atHome (time : Nat) (task : Tasks n) (c : Fin n) : Option TaskId → Nat
  | none => 0
  | some t => match (task t).scheduledOn with
    | some d => if d = c then 2 else 0
    | none => if (task t).pfair.lastQuantum + 1 = time ∧ (task t).pfair.lastCpu = c then 1 else 0

def homeliness (time : Nat) (st : State n) : Nat := ∑ c, atHome time st.task c (st.linked c)

theorem atHome_le (time : Nat) (task : Tasks n) (c : Fin n) (t : Option TaskId) :
    atHome time task c t ≤ 2 := by
  unfold atHome
  split
  · omega
  split <;> split <;> omega

theorem homeliness_le (time : Nat) (st : State n) : st.homeliness time ≤ 2 * n := by
  have hle : st.homeliness time ≤ ∑ _c : Fin n, 2 :=
    Finset.sum_le_sum fun c _ => atHome_le time st.task c _
  rw [Finset.sum_const, Finset.card_univ, Fintype.card_fin, smul_eq_mul] at hle
  omega

theorem targetCpu_some (h : Homes time L st) (ht : L t) (cpu : Fin n) :
    ∃ target, st.targetCpu time t cpu = some target := by
  unfold targetCpu
  split
  · exact ⟨_, rfl⟩
  split
  · rename_i hla
    rw [dif_pos (h.last t ht hla)]
    simp only
    split
    · exact ⟨_, rfl⟩
    split <;> exact ⟨_, rfl⟩
  exact ⟨_, rfl⟩

/-- A redirected task is more at home on its new CPU than the task it finds there. -/
theorem atHome_target (h : Homes time L st) (ht : L t) (hne : target ≠ cpu)
    (hta : st.targetCpu time t cpu = some target)
    (hth : ∀ o, st.linked target = some o → L o ∧ o ≠ t) :
    atHome time st.task target (st.linked target) < atHome time st.task target (some t) := by
  unfold targetCpu at hta
  split at hta
  · rename_i c hc
    cases hta
    have hho : atHome time st.task target (some t) = 2 := by simp [atHome, hc]
    rw [hho]
    rcases ho : st.linked target with _ | o
    · exact zero_lt_two
    obtain ⟨hLo, hot⟩ := hth o ho
    simp only [atHome]
    split
    · rename_i d hd
      have hdt : d ≠ target := by
        rintro rfl
        exact hot (h.scheduled o t d hLo ht hd hc)
      rw [if_neg hdt]
      exact zero_lt_two
    split <;> omega
  rename_i hc
  split at hta
  · rename_i hla
    rw [dif_pos (h.last t ht hla)] at hta
    simp only at hta
    -- a task that is not executing goes back to the CPU it was linked to last
    have hho : ∀ c : Fin n, c = ⟨(st.task t).pfair.lastCpu, h.last t ht hla⟩ →
        atHome time st.task c (some t) = 1 := by
      rintro c rfl
      simp [atHome, hc, hla]
    split at hta
    · rename_i hn
      cases hta
      rw [hho _ rfl, hn]
      exact one_pos
    rename_i l hl
    split at hta
    · rename_i hsch
      cases hta
      rw [hho _ rfl, hl]
      obtain ⟨hLl, hlt⟩ := hth l hl
      simp only [atHome]
      split
      · rename_i d hd
        have hdt : d ≠ ⟨(st.task t).pfair.lastCpu, h.last t ht hla⟩ := by
          rintro rfl
          exact hsch hd
        rw [if_neg hdt]
        exact one_pos
      have hnot : ¬((st.task l).pfair.lastQuantum + 1 = time ∧
          (st.task l).pfair.lastCpu = (st.task t).pfair.lastCpu) := fun hbo =>
        hlt (h.last_inj l t hLl ht hbo.1 hla hbo.2)
      rw [if_neg hnot]
      exact one_pos
    cases hta
    exact absurd rfl hne
  cases hta
  exact absurd rfl hne

theorem homeliness_lt (h : Homes time L st) (ht : L t)
    (htar : st.targetCpu time t cpu = some target) (hre : mustRetry st.linked target cpu = true)
    (ho : ∀ o, st.linked target = some o → L o ∧ o ≠ t) (hta : st'.task = st.task)
    (hlk : st'.linked = linkedAfter st.linked target cpu t) :
    st.homeliness time < st'.homeliness time := by
  obtain ⟨hne, haf⟩ : target ≠ cpu ∧
      linkedAfter st.linked target cpu t = update st.linked target (some t) := by
    simp only [mustRetry, Bool.and_eq_true, decide_eq_true_eq, Bool.or_eq_true, Bool.not_eq_true',
      Option.isSome_eq_false_iff, Option.isNone_iff_eq_none] at hre
    refine ⟨hre.1, ?_⟩
    unfold linkedAfter
    rw [if_neg hre.1]
    rcases hre.2 with hn | hlt
    · rw [hn]
    split
    · rw [if_neg (by omega)]
    rfl
  have hsum := sum_update_at (fun c => atHome time st.task c) st.linked target (some t)
  have hlt := atHome_target h ht hne htar ho
  unfold homeliness
  rw [hta, hlk, haf]
  omega

/-! ### What the loop has settled -/

/-- The first `k` CPUs are linked to tasks that no ready task beats, or nothing is ready. -/
def Settled (st : State n) (k : Nat) : Prop :=
  ∀ j : Fin n, j.val < k →
    (∀ l, st.linked j = some l → ∀ x ∈ st.readyQueue.elems, st.order x l = false) ∧
      (st.linked j = none → st.readyQueue.elems = 0)

/-- While `cpu` is being considered, at most one ready task may beat an earlier CPU's: the
    one that was pushed off a later CPU last.  It beats the task of `cpu` then. -/
structure Mid (st : State n) (cpu : Fin n) (pushed : Option TaskId) : Prop where
  busy : ∀ j < cpu, st.linked j = none → st.readyQueue.elems = 0
  best : ∀ x ∈ st.readyQueue.elems, some x ≠ pushed → ∀ j < cpu, ∀ l, st.linked j = some l →
    st.order x l = false
  beaten : pushed ≠ none → ∀ j < cpu, ∀ l p, st.linked j = some l → st.linked cpu = some p →
    st.order p l = false

theorem Settled.mid (h : st.Settled cpu) : st.Mid cpu none where
  busy j hj := (h j hj).2
  best x hx _ j hj l hl := (h j hj).1 l hl x hx
  beaten hne := absurd rfl hne

/-- The ready queue is ordered, and only real-time tasks are in the system. -/
structure Ready (L : TaskId → Prop) (st : State n) : Prop where
  ordered : st.readyQueue.Ordered st.order
  real : ∀ t, L t → (st.task t).realtime = true

theorem Ready.strict (h : Ready L st) : StrictWeakOn st.order {t | L t} :=
  strictWeakOn_pfairReadyOrder h.real

theorem Ready.trans (h : Ready L st) {a b c : TaskId} (ha : L a) (hb : L b) (hc : L c)
    (hab : st.order a b = false) (hbc : st.order b c = false) : st.order a c = false := by
  have := h.strict.negTrans a ha b hb c hc (by simp [hab]) (by simp [hbc])
  simpa using this

theorem Ready.asymm (h : Ready L st) {a b : TaskId} (ha : L a) (hb : L b)
    (hab : st.order a b = true) : st.order b a = false := by
  have := h.strict.asymm a ha b hb hab
  simpa using this

theorem Ready.top (h : Ready L st) (hm : ∀ x ∈ st.readyQueue.elems, L x)
    (hn : st.peekReady.1 = some t) :
    t ∈ st.readyQueue.elems ∧ ∀ x ∈ st.readyQueue.elems, st.order x t = false := by
  obtain ⟨hin, hbes⟩ := Heap.cacheMin_best h.strict hm h.ordered hn
  refine ⟨hin, fun x hx => ?_⟩
  have := hbes x hx
  simpa using this

theorem Mid.settled (h : Filed lo hi L st) (hready : Ready L st) (hmi : st.Mid cpu pushed)
    (hno : pfairHigherPrio st.task st.peekReady.1 (st.linked cpu) = false) :
    st.peekReady.2.Settled (cpu + 1) := by
  have hm : ∀ x ∈ st.readyQueue.elems, L x := fun x hx => h.live_of_ready hx
  have hel : st.peekReady.2.readyQueue.elems = st.readyQueue.elems := Heap.elems_cacheMin _ _
  rcases hne : st.peekReady.1 with _ | t
  · -- nothing is ready
    have hem : st.readyQueue.elems = 0 := Heap.take_eq_none.mp hne
    intro j _
    rw [hel, hem]
    exact ⟨fun _ _ x hx => absurd hx (Multiset.notMem_zero x), fun _ => rfl⟩
  obtain ⟨htin, htop⟩ := hready.top hm hne
  rw [hne] at hno
  rcases hp : st.linked cpu with _ | p
  · rw [hp] at hno
    cases hno
  rw [hp] at hno
  have hLp := h.live_of_linked hp
  have hbe : ∀ x ∈ st.readyQueue.elems, st.order x p = false := fun x hx =>
    hready.trans (hm x hx) (hm t htin) hLp (htop x hx) hno
  intro j hj
  rw [hel]
  rcases Nat.lt_or_eq_of_le (Nat.le_of_lt_succ hj) with hlt | heq
  · refine ⟨fun l hl x hx => ?_, hmi.busy j hlt⟩
    by_cases hx' : some x = pushed
    · exact hready.trans (hm x hx) hLp (h.live_of_linked hl) (hbe x hx)
        (hmi.beaten (by rw [← hx']; simp) j hlt l p hl hp)
    exact hmi.best x hx hx' j hlt l hl
  obtain rfl : j = cpu := Fin.ext heq
  refine ⟨fun l hl => ?_, fun hn => ?_⟩
  · cases hp.symm.trans hl
    exact hbe
  cases hp.symm.trans hn

/-- What is known once the best ready task `t` is taken for `cpu`: it beats what is left and
    the task of `cpu`, and neither beats a task of an earlier CPU. -/
structure Picked (L : TaskId → Prop) (st : State n) (cpu : Fin n) (t : TaskId) : Prop where
  live : L t
  cons : st.readyQueue.elems = t ::ₘ (st.taken t).readyQueue.elems
  rest : ∀ x ∈ (st.taken t).readyQueue.elems, st.order x t = false ∧
    ∀ j < cpu, ∀ l, st.linked j = some l → st.order x l = false
  prev : ∀ p, st.linked cpu = some p → st.order p t = false ∧
    ∀ j < cpu, ∀ l, st.linked j = some l → st.order p l = false
  busy : ∀ j < cpu, st.linked j ≠ none

theorem Mid.picked (h : Filed lo hi L st) (hready : Ready L st) (hmi : st.Mid cpu pushed)
    (hnx : st.peekReady.1 = some t)
    (hpr : pfairHigherPrio st.task (some t) (st.linked cpu) = true) : Picked L st cpu t := by
  have hm : ∀ x ∈ st.readyQueue.elems, L x := fun x hx => h.live_of_ready hx
  obtain ⟨hti, hto⟩ := hready.top hm hnx
  have hLt := hm t hti
  have hco := Heap.elems_take_some hnx
  have hno := h.custody.nodup .ready
  simp only [held, hco, Multiset.nodup_cons] at hno
  -- unless `t` is the task pushed off last, it beats no earlier CPU's task
  have hbe := hmi.best t hti
  refine ⟨hLt, hco, ?_, ?_, ?_⟩
  · intro x hx
    have hxi : x ∈ st.readyQueue.elems := by
      rw [hco]
      exact Multiset.mem_cons_of_mem hx
    have hxt : x ≠ t := by
      rintro rfl
      exact hno.1 hx
    refine ⟨hto x hxi, fun j hj l hl => ?_⟩
    by_cases hp : some x = pushed
    · have hne : some t ≠ pushed := by
        rw [← hp]
        simpa using hxt.symm
      exact hready.trans (hm x hxi) hLt (h.live_of_linked hl) (hto x hxi) (hbe hne j hj l hl)
    exact hmi.best x hxi hp j hj l hl
  · intro p hp
    rw [hp] at hpr
    have hLp := h.live_of_linked hp
    have hpt := hready.asymm hLt hLp hpr
    refine ⟨hpt, fun j hj l hl => ?_⟩
    by_cases hpu : some t = pushed
    · exact hmi.beaten (by rw [← hpu]; simp) j hj l p hl hp
    exact hready.trans hLp hLt (h.live_of_linked hl) hpt (hbe hpu j hj l hl)
  intro j hj hn
  have hem := hmi.busy j hj hn
  rw [hem] at hti
  exact Multiset.notMem_zero t hti

theorem Picked.settled (h : Picked L st cpu t) (hrt : mustRetry st.linked target cpu = false)
    (hord : st'.order = st.order) (hlk : st'.linked = linkedAfter st.linked target cpu t)
    (hready : ∀ x ∈ st'.readyQueue.elems,
      x ∈ (st.taken t).readyQueue.elems ∨ pushedOff st.linked target cpu = some x) :
    st'.Settled (cpu + 1) := by
  -- what goes back to the queue is the task of `cpu`
  have hba : pushedOff st.linked target cpu = st.linked cpu →
      ∀ x ∈ st'.readyQueue.elems, st.order x t = false ∧
        ∀ j < cpu, ∀ l, st.linked j = some l → st.order x l = false := by
    intro hoff x hx
    rcases hready x hx with hx | hx
    · exact h.rest x hx
    exact h.prev x (hoff.symm.trans hx)
  intro j hj
  rw [hord, hlk]
  by_cases heq : target = cpu
  · subst heq
    have hre := hba (if_pos rfl)
    have haf : linkedAfter st.linked target target t =
        update st.linked target (some t) := if_pos rfl
    rw [haf]
    rcases Nat.lt_or_eq_of_le (Nat.le_of_lt_succ hj) with hlt | heq
    · have hne : j ≠ target := Fin.ne_of_lt hlt
      rw [update_of_ne hne]
      exact ⟨fun l hl x hx => (hre x hx).2 j hlt l hl, fun hn => absurd hn (h.busy j hlt)⟩
    obtain rfl : j = target := Fin.ext heq
    rw [update_self]
    refine ⟨fun l hl x hx => ?_, fun hn => by cases hn⟩
    cases hl
    exact (hre x hx).1
  -- redirected to an earlier CPU, whose task moves to this one
  obtain ⟨o, ho⟩ : ∃ o, st.linked target = some o := by
    rcases ho : st.linked target with _ | o
    · simp [mustRetry, heq, ho] at hrt
    exact ⟨o, rfl⟩
  have hlt : target < cpu := by
    simp only [mustRetry, ne_eq, heq, not_false_eq_true, decide_true, ho, Option.isSome_some,
      Bool.not_true, Bool.false_or, Bool.true_and, decide_eq_false_iff_not, Fin.not_lt] at hrt
    exact lt_of_le_of_ne hrt heq
  have hre := hba (by simp [pushedOff, heq, ho, hlt])
  have haf : linkedAfter st.linked target cpu t =
      update (update st.linked target (some t)) cpu (some o) := by
    simp [linkedAfter, heq, ho, hlt]
  rw [haf]
  rcases Nat.lt_or_eq_of_le (Nat.le_of_lt_succ hj) with hjl | hjeq
  · rw [update_of_ne (Fin.ne_of_lt hjl)]
    by_cases hjt : j = target
    · subst hjt
      rw [update_self]
      refine ⟨fun l hl x hx => ?_, fun hn => by cases hn⟩
      cases hl
      exact (hre x hx).1
    rw [update_of_ne hjt]
    exact ⟨fun l hl x hx => (hre x hx).2 j hjl l hl,
      fun hn => absurd hn (h.busy j hjl)⟩
  obtain rfl : j = cpu := Fin.ext hjeq
  rw [update_self]
  refine ⟨fun l hl x hx => ?_, fun hn => by cases hn⟩
  cases hl
  exact (hre x hx).2 target hlt o ho

theorem Picked.mid (h : Picked L st cpu t) (hre : mustRetry st.linked target cpu = true)
    (hor : st'.order = st.order) (hlk : st'.linked = linkedAfter st.linked target cpu t)
    (hready : ∀ x ∈ st'.readyQueue.elems,
      x ∈ (st.taken t).readyQueue.elems ∨ pushedOff st.linked target cpu = some x) :
    st'.Mid cpu (st.linked target) := by
  simp only [mustRetry, Bool.and_eq_true, decide_eq_true_eq, Bool.or_eq_true, Bool.not_eq_true',
    Option.isSome_eq_false_iff, Option.isNone_iff_eq_none] at hre
  obtain ⟨hne, hlat⟩ := hre
  have hlt : cpu < target := by
    rcases hlat with hn | hlt
    · by_contra hle
      exact h.busy target (lt_of_le_of_ne (Fin.not_lt.mp hle) hne) hn
    exact hlt
  have hno : ¬target < cpu := by omega
  have haf : linkedAfter st.linked target cpu t = update st.linked target (some t) := by
    rcases ho : st.linked target with _ | o <;> simp [linkedAfter, hne, ho, hno]
  have hoff : pushedOff st.linked target cpu = st.linked target := by
    rcases ho : st.linked target with _ | o <;> simp [pushedOff, hne, ho, hno]
  have hs : ∀ j, j ≤ cpu → st'.linked j = st.linked j := by
    intro j hj
    rw [hlk, haf, update_of_ne (Fin.ne_of_lt (lt_of_le_of_lt hj hlt))]
  constructor
  · intro j hj hn
    rw [hs j hj.le] at hn
    exact absurd hn (h.busy j hj)
  · intro x hx hpus j hj l hl
    rw [hs j hj.le] at hl
    rw [hor]
    rcases hready x hx with hx | hx
    · exact (h.rest x hx).2 j hj l hl
    exact absurd (hx.symm.trans hoff) hpus
  intro _ j hj l p hl hp
  rw [hs j hj.le] at hl
  rw [hs cpu (le_refl cpu)] at hp
  rw [hor]
  exact (h.prev p hp).2 j hj l hl

/-! ### The loops -/

section

variable (h : Filed lo hi L st) (hmerge : st.mergeTime = hi + 1) (hready : Ready L st)
  (hhomes : Homes time L st)

include h hmerge hready hhomes

theorem scheduleCpu_settles (hmi : st.Mid cpu pushed) {fuel : Nat}
    (hfue : 2 * n < fuel + st.homeliness time) :
    ∃ st', st.scheduleCpu time cpu fuel = some st' ∧ st'.task = st.task ∧
      st'.releaseQueue = st.releaseQueue ∧ st'.readyQueue.Ordered st.order ∧
      st'.Settled (cpu + 1) := by
  induction fuel generalizing st pushed with
  | zero =>
    have := homeliness_le time st
    omega
  | succ fuel ih =>
    have hm : ∀ x ∈ st.readyQueue.elems, L x := fun x hx => h.live_of_ready hx
    simp only [scheduleCpu]
    by_cases hpr : pfairHigherPrio st.task st.peekReady.1 (st.linked cpu) = true
    · rw [if_pos (by exact hpr)]
      rcases hn : st.peekReady.1 with _ | t
      · rw [hn] at hpr
        cases hpr
      rw [hn] at hpr
      obtain ⟨htak, hfl, hti⟩ := h.takePeeked hn
      have hpi := hmi.picked h hready hn hpr
      have htk := hready.ordered.take hready.strict hm
      obtain ⟨target, htr⟩ : ∃ target, (st.taken t).targetCpu time t cpu = some target :=
        targetCpu_some (hhomes.congr rfl) hpi.live cpu
      obtain ⟨st1, hlin, hk, hta, hlk, hre, hqu, hfiled1⟩ :=
        hfl.pfairLink (fun hl => hl.1 rfl) hmerge ((h.ready t hti).trans_eq hmerge) htr
      have hrd : st1.order = st.order := by
        rw [order, order, hta]
        rfl
      have hel : ∀ x ∈ st1.readyQueue.elems, x ∈ (st.taken t).readyQueue.elems ∨
          pushedOff st.linked target cpu = some x := by
        intro x hx
        rw [hqu] at hx
        split at hx
        · rename_i p hp
          rw [Heap.elems_insert, Multiset.mem_cons] at hx
          rcases hx with rfl | hx
          · exact .inr hp
          exact .inl hx
        exact .inl hx
      have hin : ∀ x ∈ (st.taken t).readyQueue.elems, L x := fun x hx => (hfl.live_of_ready hx).2
      have hord1 : st1.readyQueue.Ordered st.order := by
        rw [hqu]
        split
        · rename_i p hp
          obtain ⟨c, hc⟩ := linked_of_pushedOff hp
          refine htk.insert hready.strict fun x hx => ?_
          rcases Multiset.mem_cons.mp hx with rfl | hx
          · exact h.live_of_linked hc
          exact hin x hx
        exact htk
      have hfiled1 : Filed lo hi L st1 := hfiled1.congr_live fun u => by
        by_cases hu : u = t
        · simp [hu, hpi.live]
        simp [hu]
      simp only [htak, hlin, Option.bind_some]
      by_cases hrt : mustRetry st.linked target cpu = true
      · rw [if_pos (by exact hrt)]
        have hgro : st.homeliness time < st1.homeliness time := by
          refine homeliness_lt hhomes hpi.live htr hrt ?_ hta hlk
          intro o ho
          refine ⟨h.live_of_linked ho, ?_⟩
          rintro rfl
          exact absurd (h.custody.unique (held_linked.mpr ho) (q := .ready) hti) (by simp)
        obtain ⟨st', hst', htask', hrelq', hord', hset⟩ := ih hfiled1 (hk.mergeTime.trans hmerge)
          ⟨by rw [hrd]; exact hord1, fun u hu => by rw [hta]; exact hready.real u hu⟩
          (hhomes.congr hta) (hpi.mid hrt hrd hlk hel) (by omega)
        exact ⟨st', hst', htask'.trans hta, hrelq'.trans hre, by rw [← hrd]; exact hord',
          hset⟩
      rw [if_neg (by exact hrt)]
      exact ⟨st1, rfl, hta, hre, hord1, hpi.settled (by simpa using hrt) hrd hlk hel⟩
    rw [if_neg (by exact hpr)]
    exact ⟨_, rfl, rfl, rfl, hready.ordered.cacheMin hready.strict hm,
      hmi.settled h hready (by simpa using hpr)⟩

theorem scheduleSubtasks_settles {fuel : Nat} (hfue : 2 * n < fuel) :
    ∃ st', st.scheduleSubtasks time fuel = some st' ∧ st'.task = st.task ∧
      st'.releaseQueue = st.releaseQueue ∧ st'.readyQueue.Ordered st.order ∧ st'.Settled n := by
  have hloo := foldlM_total (f := fun st cpu => st.scheduleCpu time cpu fuel)
    (P := fun before st1 => Kept st st1 ∧ Filed lo hi L st1 ∧ st1.task = st.task ∧
      st1.releaseQueue = st.releaseQueue ∧ st1.readyQueue.Ordered st.order ∧
      st1.Settled before.length) (s := st) (List.finRange n) ?_
    ⟨.refl st, h, rfl, rfl, hready.ordered, fun _ hj => absurd hj (Nat.not_lt_zero _)⟩
  · obtain ⟨st', hst', _, _, hta, hre, hor, hse⟩ := hloo
    rw [List.length_finRange] at hse
    exact ⟨st', hst', hta, hre, hor, hse⟩
  rintro before cpu after st1 hsp ⟨hk, h1, hta, hre, hor, hse⟩
  have hc : before.length = cpu.val := by
    have hget : (List.finRange n)[before.length]? = some cpu := by
      rw [hsp]
      simp
    obtain ⟨hlt, heq⟩ := List.getElem?_eq_some_iff.mp hget
    rw [List.getElem_finRange] at heq
    rw [← heq]
    rfl
  rw [hc] at hse
  have hrd : st1.order = st.order := by rw [order, order, hta]
  obtain ⟨st2, hst2, htask2, hrelq2, hord2, hsettled2⟩ := scheduleCpu_settles h1
    (hk.mergeTime.trans hmerge)
    ⟨by rw [hrd]; exact hor, fun u hu => by rw [hta]; exact hready.real u hu⟩
    (hhomes.congr hta) hse.mid (hfue.trans_le (Nat.le_add_right _ _))
  obtain ⟨hkept2, _, h2⟩ := h1.scheduleCpu (hk.mergeTime.trans hmerge) hst2
  refine ⟨st2, hst2, hk.trans hkept2, h2, htask2.trans hta, hrelq2.trans hre,
    by rw [← hrd]; exact hord2, ?_⟩
  rw [List.length_append, List.length_singleton, hc]
  exact hsettled2

end

end State

end Litmus.Pfair
