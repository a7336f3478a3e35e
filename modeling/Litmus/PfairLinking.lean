import Litmus.PfairAssignment
import Litmus.WrapOrder

/-!
# Linking in machine words

`schedule_subtasks` once more, with what the model of the whole plugin leaves out: the field
`linked_on`, which `pfair_link` keeps beside the links, and priorities that are compared as
words of `unsigned long`, by the sign of their difference.

While the deadlines lie in one half of the circle, every step is a step of the assignment over
unbounded numbers, so the loop ends and what it has settled there is settled here.
-/

namespace Litmus.Pfair

open BinomialForest WrapOrder Custody Runs Option
open Function (update update_apply)
open Multiset (notMem_zero nodup_zero mem_singleton)

variable {w n : Nat}

namespace PfairTask

/-- `cur_deadline` -/
def deadlineWord (w : Nat) (p : PfairTask n) : BitVec w :=
  BitVec.ofNat w p.curSubtask.deadline + BitVec.ofNat w p.pfair.release

/-- `cur_overlap` -/
def overlapWord (w : Nat) (p : PfairTask n) : BitVec w := BitVec.ofNat w p.curSubtask.overlap

/-- `cur_group_deadline` -/
def groupDeadlineWord (w : Nat) (p : PfairTask n) : BitVec w :=
  let gdl := BitVec.ofNat w p.curSubtask.groupDeadline
  if gdl ≠ 0 then gdl + BitVec.ofNat w p.pfair.release else gdl

end PfairTask

/-- `pfair_higher_prio`; `time_before` looks at the sign of the difference. -/
def pfairHigherPrioWords (w : Nat) (task : Tasks n) (first second : Option TaskId) : Bool :=
  match first, second with
  | none, _ => false
  | some _, none => true
  | some a, some b =>
      !(task b).realtime || before ((task a).deadlineWord w) ((task b).deadlineWord w) ||
        ((task a).deadlineWord w == (task b).deadlineWord w &&
          (decide ((task b).overlapWord w < (task a).overlapWord w) ||
            ((task a).overlapWord w == (task b).overlapWord w &&
              (before ((task b).groupDeadlineWord w) ((task a).groupDeadlineWord w) ||
                ((task a).groupDeadlineWord w == (task b).groupDeadlineWord w && decide (a < b))))))

/-- The state that `schedule_subtasks` reads and writes. -/
structure Board (n : Nat) where
  task : Tasks n
  /-- `bheap_node_in_heap` -/
  inHeap : TaskId → Bool
  readyQueue : Heap TaskId
  linked : Fin n → Option TaskId
  /-- `linked_on`; `none` is `NO_CPU` -/
  linkedOn : TaskId → Option (Fin n)

namespace Board

/-- `pfair_ready_order` -/
def order (w : Nat) (b : Board n) (x y : TaskId) : Bool :=
  pfairHigherPrioWords w b.task (some x) (some y)

def setLinked (c : Fin n) (t : Option TaskId) (b : Board n) : Board n :=
  { b with linked := update b.linked c t }

def setLinkedOn (t : TaskId) (c : Option (Fin n)) (b : Board n) : Board n :=
  { b with linkedOn := update b.linkedOn t c }

/-- `__add_ready`; queuing a queued task is a bug. -/
def addReady (w : Nat) (t : TaskId) (b : Board n) : Option (Board n) :=
  if b.inHeap t then none
  else some { b with
    readyQueue := b.readyQueue.insert (b.order w) t
    inHeap := update b.inHeap t true }

def peekReady (w : Nat) (b : Board n) : Option TaskId × Board n :=
  ((b.readyQueue.peek (b.order w)).1,
    { b with readyQueue := (b.readyQueue.peek (b.order w)).2 })

def takeReady (w : Nat) (b : Board n) : Option TaskId × Board n :=
  match b.readyQueue.take (b.order w) with
  | (none, H) => (none, { b with readyQueue := H })
  | (some t, H) =>
      (some t, { b with readyQueue := H, inHeap := update b.inHeap t false })

/-- `target_cpu`; `none` if `last_cpu` is no CPU. -/
def targetCpu (time : BitVec w) (t : TaskId) (defaultCpu : Fin n) (b : Board n) :
    Option (Fin n) :=
  match (b.task t).scheduledOn with
  | some c => some c
  | none =>
      if BitVec.ofNat w (b.task t).pfair.lastQuantum = time - 1 then
        if h : (b.task t).pfair.lastCpu < n then
          let cpu : Fin n := ⟨(b.task t).pfair.lastCpu, h⟩
          match b.linked cpu with
          | none => some cpu
          | some l => if (b.task l).scheduledOn ≠ some cpu then some cpu else some defaultCpu
        else none
      else some defaultCpu

/-- A task that was pushed off its CPU goes back to the ready queue. -/
def pushBack (w : Nat) (t : Option TaskId) (b : Board n) : Option (Board n) :=
  match t with
  | some p => (b.setLinkedOn p none).addReady w p
  | none => some b

/-- `pfair_link`; the flag says that the CPU must be considered again. -/
def pfairLink (time : BitVec w) (cpu : Fin n) (t : TaskId) (b : Board n) :
    Option (Bool × Board n) :=
  (b.targetCpu time t cpu).bind fun target =>
    let prev := b.linked cpu
    if target ≠ cpu then
      let other := b.linked target
      let b := (b.setLinked target (some t)).setLinkedOn t (some target)
      match other with
      | none => some (true, b)
      | some o =>
          if target < cpu then
            (((b.setLinkedOn o (some cpu)).setLinked cpu (some o)).pushBack w prev).map
              fun b => (false, b)
          else (b.pushBack w (some o)).map fun b => (true, b)
    else
      (((b.setLinked cpu (some t)).setLinkedOn t (some cpu)).pushBack w prev).map
        fun b => (false, b)

/-- The retry loop of `schedule_subtasks`; `none` if `fuel` is too little. -/
def scheduleCpu (time : BitVec w) (cpu : Fin n) : Nat → Board n → Option (Board n)
  | 0, _ => none
  | fuel + 1, b =>
      let (next, b) := b.peekReady w
      if pfairHigherPrioWords w b.task next (b.linked cpu) then
        match b.takeReady w with
        | (none, _) => none
        | (some t, b) => (b.pfairLink time cpu t).bind fun r =>
            if r.1 then scheduleCpu time cpu fuel r.2 else some r.2
      else some b

def scheduleSubtasks (time : BitVec w) (fuel : Nat) (b : Board n) : Option (Board n) :=
  (List.finRange n).foldlM (fun b cpu => b.scheduleCpu time cpu fuel) b

/-! ### Consistent boards -/

def Live (b : Board n) (t : TaskId) : Prop :=
  (∃ c, b.linked c = some t) ∨ t ∈ b.readyQueue.elems

/-- No task is linked twice, `linked_on` is right, and linked tasks are not queued. -/
structure Consistent (w : Nat) (b : Board n) : Prop where
  once : ∀ c d t, b.linked c = some t → b.linked d = some t → c = d
  names : ∀ c t, b.linked c = some t → b.linkedOn t = some c
  apart : ∀ c t, b.linked c = some t → t ∉ b.readyQueue.elems
  nodup : b.readyQueue.elems.Nodup
  node : ∀ t, b.Live t → (b.inHeap t = true ↔ t ∈ b.readyQueue.elems)
  ordered : b.readyQueue.Ordered (b.order w)

/-- At most one task is scheduled on a CPU, and at most one was linked to it last; a `last_cpu`
    that is looked up is one of the CPUs. -/
structure Homes (time : BitVec w) (b : Board n) : Prop where
  scheduled : ∀ t u c, b.Live t → b.Live u → (b.task t).scheduledOn = some c →
    (b.task u).scheduledOn = some c → t = u
  last_inj : ∀ t u, b.Live t → b.Live u →
    BitVec.ofNat w (b.task t).pfair.lastQuantum = BitVec.ofNat w (b.task u).pfair.lastQuantum →
    (b.task t).pfair.lastCpu = (b.task u).pfair.lastCpu → t = u
  last : ∀ t, b.Live t → (b.task t).scheduledOn = none →
    BitVec.ofNat w (b.task t).pfair.lastQuantum = time - 1 → (b.task t).pfair.lastCpu < n

/-- The priorities of real-time tasks, in one half of the circle. -/
structure Comparable (w : Nat) (base group : BitVec w) (task : Tasks n) (S : TaskId → Prop) : Prop where
  real : ∀ t, S t → (task t).realtime = true
  deadline : ∀ t, S t → InWindow base ((task t).deadlineWord w)
  groupDeadline : ∀ t, S t → InWindow group ((task t).groupDeadlineWord w)

/-! ### The same state over unbounded numbers -/

/-- A task that compares by the distances of its deadlines from `base` and `group`, and that was
    linked in quantum 0 if it was linked in the quantum before `time`. -/
def shadow (time base group : BitVec w) (p : PfairTask n) : PfairTask n :=
  { p with pfair :=
    { quanta := 1, cur := 0, release := 0, period := 1
      lastQuantum :=
        if p.scheduledOn = none ∧ BitVec.ofNat w p.pfair.lastQuantum = time - 1 then 0 else 1
      lastCpu := p.pfair.lastCpu
      sporadicRelease := false
      subtasks := [
        { release := 0
          deadline := offset base (p.deadlineWord w)
          overlap := (p.overlapWord w).toNat
          groupDeadline := offset group (p.groupDeadlineWord w) }] } }

def shadowState (time base group : BitVec w) (b : Board n) : State n where
  task t := shadow time base group (b.task t)
  inHeap t := decide (t ∈ b.readyQueue.elems)
  readyQueue := b.readyQueue
  releaseQueue _ := Heap.empty
  linked := b.linked
  localCopy _ := none
  current _ := none
  pfairTime := 0
  mergeTime := 1
  curTick := 0
  tickPeriod := 0

section Shadow

variable {time base group : BitVec w} {b b' : Board n} {st st' : State n} {S : TaskId → Prop}
  {cpu target : Fin n} {t : TaskId}

theorem curGroupDeadline_shadow (p : PfairTask n) :
    (shadow time base group p).curGroupDeadline = offset group (p.groupDeadlineWord w) := by
  simp only [PfairTask.curGroupDeadline, PfairTask.curSubtask, shadow, List.getD_cons_zero,
    add_zero, ite_self]

theorem pfairHigherPrioWords_eq {task : Tasks n} (h : Comparable w base group task S)
    {x y : Option TaskId} (hx : ∀ t, x = some t → S t) (hy : ∀ t, y = some t → S t) :
    pfairHigherPrioWords w task x y =
      pfairHigherPrio (fun t => shadow time base group (task t)) x y := by
  rcases x with _ | x
  · rfl
  rcases y with _ | y
  · rfl
  have hSx := hx x rfl
  have hSy := hy y rfl
  have hdl := before_iff_of_inWindow (h.deadline x hSx) (h.deadline y hSy)
  have hgd := before_iff_of_inWindow (h.groupDeadline y hSy) (h.groupDeadline x hSx)
  have hd : ∀ p : PfairTask n,
      (shadow time base group p).curDeadline = offset base (p.deadlineWord w) := fun _ => rfl
  have hove : ∀ p : PfairTask n,
      (shadow time base group p).curOverlap = (p.overlapWord w).toNat := fun _ => rfl
  rw [Bool.eq_iff_iff]
  simp only [pfairHigherPrioWords, pfairHigherPrio, Bool.or_eq_true, Bool.and_eq_true,
    decide_eq_true_eq, beq_iff_eq, hdl, hgd, hd, hove, curGroupDeadline_shadow,
    offset_inj, BitVec.lt_def, BitVec.toNat_inj]
  rfl

/-- With deadlines and group deadlines in the lower half of the words, the comparison is a strict
    total order. -/
theorem pfair_higher_prio_total_order {task : Tasks n} {S : Set TaskId}
    (hreal : ∀ t ∈ S, (task t).realtime = true)
    (hdeadline : ∀ t ∈ S, ((task t).deadlineWord w).toNat < 2 ^ (w - 1))
    (hgroup : ∀ t ∈ S, ((task t).groupDeadlineWord w).toNat < 2 ^ (w - 1)) :
    (∀ a ∈ S, ¬pfairHigherPrioWords w task (some a) (some a)) ∧
      (∀ a ∈ S, ∀ b ∈ S, ∀ c ∈ S, pfairHigherPrioWords w task (some a) (some b) →
        pfairHigherPrioWords w task (some b) (some c) →
          pfairHigherPrioWords w task (some a) (some c)) ∧
      ∀ a ∈ S, ∀ b ∈ S, a ≠ b → pfairHigherPrioWords w task (some a) (some b) ∨
        pfairHigherPrioWords w task (some b) (some a) := by
  have hcomp : Comparable w 0 0 task (· ∈ S) :=
    ⟨hreal, fun t ht => by simpa [InWindow, offset] using hdeadline t ht,
      fun t ht => by simpa [InWindow, offset] using hgroup t ht⟩
  let shadows : Tasks n := fun t => shadow (0 : BitVec w) 0 0 (task t)
  have hreal' : ∀ t ∈ S, (shadows t).realtime = true := hreal
  have heq : ∀ a ∈ S, ∀ b ∈ S, pfairHigherPrioWords w task (some a) (some b) =
      pfairReadyOrder shadows a b := by
    intro a ha b hb
    refine pfairHigherPrioWords_eq hcomp ?_ ?_
    · rintro t ⟨⟩
      exact ha
    rintro t ⟨⟩
    exact hb
  have hshadows : StrictWeakOn (pfairReadyOrder shadows) S := strictWeakOn_pfairReadyOrder hreal'
  have hS : StrictWeakOn (fun a b => pfairHigherPrioWords w task (some a) (some b)) S :=
    hshadows.congr heq
  refine ⟨fun a ha => hS.irrefl ha, fun a ha b hb c hc => hS.trans ha hb hc, ?_⟩
  intro (a : Nat) ha (b : Nat) hb hne
  rw [heq a ha b hb, heq b hb a ha, pfairReadyOrder_iff (hreal' b hb),
    pfairReadyOrder_iff (hreal' a ha)]
  have := Nat.lt_or_gt_of_ne hne
  omega

/-- The queue and the links are the same; `linked_on` has no counterpart. -/
structure Follows (time base group : BitVec w) (S : TaskId → Prop) (b : Board n) (st : State n) :
    Prop where
  task : st.task = fun t => shadow time base group (b.task t)
  ready : st.readyQueue = b.readyQueue
  linked : st.linked = b.linked
  node : ∀ t, S t → st.inHeap t = b.inHeap t

/-- The board once the task that `__peek_ready` has shown is taken. -/
def taken (w : Nat) (b : Board n) (t : TaskId) : Board n :=
  { b with
    readyQueue := (b.readyQueue.take (b.order w)).2
    inHeap := update b.inHeap t false }

theorem takePeeked (hn : (b.peekReady w).1 = some t) :
    (b.peekReady w).2.takeReady w = (some t, b.taken w t) := by
  have hord : (b.peekReady w).2.order w = b.order w := rfl
  have htwi : (b.peekReady w).2.readyQueue.take (b.order w) = b.readyQueue.take (b.order w) := by
    simp [Board.peekReady, Heap.peek, Heap.take, Heap.cacheMin_cacheMin]
  have htak : b.readyQueue.take (b.order w) = (some t, (b.readyQueue.take (b.order w)).2) :=
    Prod.ext hn rfl
  unfold takeReady
  rw [hord, htwi, htak]
  rfl

namespace Follows

variable {lo hi : Nat}

section

variable (h : Follows time base group S b st) (hcomp : Comparable w base group b.task S)

include h hcomp

theorem order_eq : ∀ x ∈ {t | S t}, ∀ y ∈ {t | S t}, st.order x y = b.order w x y := by
  intro x hx y hy
  rw [State.order, h.task, order, pfairReadyOrder]
  refine (pfairHigherPrioWords_eq hcomp ?_ ?_).symm
  · rintro u ⟨⟩
    exact hx
  rintro u ⟨⟩
  exact hy

theorem cacheMin (hfl : State.Filed lo hi S st) :
    st.readyQueue.cacheMin st.order = b.readyQueue.cacheMin (b.order w) := by
  rw [Heap.cacheMin_congr (h.order_eq hcomp) fun x hx => hfl.live_of_ready hx, h.ready]

theorem peekReady (hfl : State.Filed lo hi S st) : st.peekReady.1 = (b.peekReady w).1 ∧
      Follows time base group S (b.peekReady w).2 st.peekReady.2 := by
  have hca := h.cacheMin hcomp hfl
  refine ⟨congrArg Heap.min hca, h.task, hca, h.linked, h.node⟩

theorem take
    (hfl : State.Filed lo hi S st) (t : TaskId) :
    Follows time base group S (b.taken w t) (st.taken t) where
  task := h.task
  ready := by
    have hcac := h.cacheMin hcomp hfl
    simp [State.taken, taken, State.setReady, State.setInHeap, Heap.take, hcac]
  linked := h.linked
  node u hu := by
    by_cases hut : u = t
    · simp [State.taken, taken, State.setReady, State.setInHeap, hut]
    simp [State.taken, taken, State.setReady, State.setInHeap, hut, h.node u hu]

end

theorem targetCpu (h : Follows time base group S b st) (t : TaskId) (cpu : Fin n) :
    st.targetCpu 1 t cpu = b.targetCpu time t cpu := by
  have hsc : ∀ u, (st.task u).scheduledOn = (b.task u).scheduledOn := fun u => by
    rw [h.task]
    rfl
  have hc : (st.task t).pfair.lastCpu = (b.task t).pfair.lastCpu := by
    rw [h.task]
    rfl
  rcases hs : (b.task t).scheduledOn with _ | c
  · have hla : (st.task t).pfair.lastQuantum + 1 = 1 ↔
        BitVec.ofNat w (b.task t).pfair.lastQuantum = time - 1 := by
      rw [h.task]
      simp [shadow, hs]
    simp only [State.targetCpu, Board.targetCpu, hsc, hs, hc, h.linked]
    exact if_congr hla rfl rfl
  simp [State.targetCpu, Board.targetCpu, hsc, hs]

end Follows

/-! ### `linked_on` -/

/-- The task that is moved from the CPU `target` to `cpu`. -/
def movedOver (linked : Fin n → Option TaskId) (target cpu : Fin n) : Option TaskId :=
  if target < cpu then linked target else none

/-- `linked_on` once task `t` and the task that makes room for it have their CPUs. -/
def linkedOnAfter (linked : Fin n → Option TaskId) (linkedOn : TaskId → Option (Fin n))
    (target cpu : Fin n) (t : TaskId) : TaskId → Option (Fin n) :=
  match movedOver linked target cpu with
  | some o => update (update linkedOn t (some target)) o (some cpu)
  | none => update linkedOn t (some target)

theorem pfairLink_eq (htar : b.targetCpu time t cpu = some target) :
    b.pfairLink time cpu t = (pushBack w (State.pushedOff b.linked target cpu)
        { b with
          linked := State.linkedAfter b.linked target cpu t
          linkedOn := linkedOnAfter b.linked b.linkedOn target cpu t }).map
        fun b' => (State.mustRetry b.linked target cpu, b') := by
  unfold pfairLink
  rw [htar, bind_some]
  by_cases heq : target = cpu
  · subst heq
    simp [State.linkedAfter, State.pushedOff, State.mustRetry, linkedOnAfter, movedOver, setLinked,
      setLinkedOn]
  rcases ho : b.linked target with _ | o
  · simp [State.linkedAfter, State.pushedOff, State.mustRetry, linkedOnAfter, movedOver, setLinked,
      setLinkedOn, heq, ho, pushBack]
  by_cases hlt : target < cpu
  · have hn : ¬cpu < target := by omega
    simp [State.linkedAfter, State.pushedOff, State.mustRetry, linkedOnAfter, movedOver,
      setLinked, setLinkedOn, heq, ho, hlt, hn]
  have hgt : cpu < target := by omega
  simp [State.linkedAfter, State.pushedOff, State.mustRetry, linkedOnAfter, movedOver,
    setLinked, setLinkedOn, heq, ho, hlt, hgt, pushBack]

/-- `linked_on` once a task has been pushed off its CPU. -/
def pushedOn (p : Option TaskId) (linkedOn : TaskId → Option (Fin n)) : TaskId → Option (Fin n) :=
  match p with
  | some p => update linkedOn p none
  | none => linkedOn

theorem named_after {linked : Fin n → Option TaskId} {on : TaskId → Option (Fin n)}
    (hnam : ∀ c u, linked c = some u → on u = some c) (hfre : ∀ c, linked c ≠ some t)
    {c : Fin n} {u : TaskId} (hu : State.linkedAfter linked target cpu t c = some u) :
    pushedOn (State.pushedOff linked target cpu) (linkedOnAfter linked on target cpu t) u =
      some c := by
  unfold State.linkedAfter at hu
  unfold State.pushedOff linkedOnAfter movedOver pushedOn
  by_cases heq : target = cpu
  · subst heq
    rcases hp : linked target with _ | p
    · simp only [if_true, lt_irrefl, if_false, update_apply]
      grind
    simp only [if_true, lt_irrefl, if_false, update_apply]
    grind
  rcases ho : linked target with _ | o
  · simp only [heq, ho, if_false, ite_self, update_apply] at hu ⊢
    grind
  by_cases hlt : target < cpu
  · rcases hp : linked cpu with _ | p
    · simp only [heq, ho, hlt, if_true, if_false, update_apply] at hu ⊢
      grind
    simp only [heq, ho, hlt, if_true, if_false, update_apply] at hu ⊢
    grind
  simp only [heq, ho, hlt, if_false, update_apply] at hu ⊢
  grind

/-- `linked_on` is right. -/
def Named (b : Board n) : Prop := ∀ c t, b.linked c = some t → b.linkedOn t = some c

section

variable (h : Follows time base group S b st)
include h

section

variable (hcomp : Comparable w base group b.task S)
include hcomp

theorem Follows.pushBack {p : Option TaskId} (hr : ∀ x ∈ st.readyQueue.elems, S x)
    (hp : ∀ u, p = some u → S u) (hst' : st.pushBack p = some st') :
    ∃ b', b.pushBack w p = some b' ∧ Follows time base group S b' st' ∧ b'.task = b.task ∧
      b'.linked = b.linked ∧ b'.linkedOn = pushedOn p b.linkedOn := by
  rcases p with _ | p
  · cases hst'
    exact ⟨b, rfl, h, rfl, rfl, rfl⟩
  have hSp := hp p rfl
  simp only [State.pushBack, State.addReady] at hst'
  split at hst'
  · cases hst'
  rename_i hn
  rw [h.node p hSp] at hn
  have hins : st.readyQueue.insert st.order p = b.readyQueue.insert (b.order w) p := by
    rw [Heap.insert_congr (h.order_eq hcomp) hSp hr, h.ready]
  obtain rfl := some.inj hst'
  refine ⟨_, if_neg hn, ⟨h.task, hins, h.linked, fun u hu => ?_⟩, rfl, rfl, rfl⟩
  by_cases hup : u = p
  · simp [State.setInHeap, State.setReady, setLinkedOn, hup]
  simp [State.setInHeap, State.setReady, setLinkedOn, hup, h.node u hu]

theorem Follows.pfairLink {lo hi : Nat} {L : TaskId → Prop} {retry : Bool}
    (hfl : State.Filed lo hi L st) (hL : ∀ u, L u → S u)
    (hst' : st.pfairLink 1 cpu t = some (retry, st')) :
    ∃ b', b.pfairLink time cpu t = some (retry, b') ∧ Follows time base group S b' st' ∧
      b'.task = b.task ∧ (b.Named → (∀ c, b.linked c ≠ some t) → b'.Named) := by
  have htr := h.targetCpu t cpu
  rcases hc : st.targetCpu 1 t cpu with _ | target
  · rw [State.pfairLink, hc] at hst'
    cases hst'
  rw [hc] at htr
  rw [State.pfairLink_eq hc] at hst'
  obtain ⟨st1, h1, heq⟩ := map_eq_some_iff.mp hst'
  obtain ⟨rfl, rfl⟩ := Prod.mk.inj heq
  have hfo : Follows time base group S
      { b with
        linked := State.linkedAfter b.linked target cpu t
        linkedOn := linkedOnAfter b.linked b.linkedOn target cpu t }
      { st with linked := State.linkedAfter st.linked target cpu t } :=
    ⟨h.task, h.ready, by rw [h.linked], h.node⟩
  obtain ⟨b', hb', hfollows', hta, hlk, hon⟩ := hfo.pushBack hcomp
    (fun x hx => hL x (hfl.live_of_ready hx))
    (fun u hu => hL u (by
      obtain ⟨c, hc⟩ := State.linked_of_pushedOff hu
      exact hfl.live_of_linked hc)) h1
  refine ⟨b', ?_, hfollows', hta, fun hnam hfre c u hu => ?_⟩
  · rw [h.linked] at hb' ⊢
    rw [pfairLink_eq htr.symm, hb', map_some]
  rw [hlk] at hu
  rw [hon, h.linked]
  exact named_after hnam hfre hu

/-! ### The loops -/

theorem Follows.scheduleCpu {lo hi fuel : Nat} (hna : b.Named) (hfl : State.Filed lo hi S st)
    (hme : st.mergeTime = hi + 1) (hst' : st.scheduleCpu 1 cpu fuel = some st') :
    ∃ b', b.scheduleCpu time cpu fuel = some b' ∧ Follows time base group S b' st' ∧
      b'.task = b.task ∧ b'.Named := by
  induction fuel generalizing b st with
  | zero => cases hst'
  | succ fuel ih =>
    obtain ⟨hpe, hfo⟩ := h.peekReady hcomp hfl
    have hpri : pfairHigherPrio st.peekReady.2.task st.peekReady.1 (st.peekReady.2.linked cpu) =
        pfairHigherPrioWords w (b.peekReady w).2.task (b.peekReady w).1
          ((b.peekReady w).2.linked cpu) := by
      rw [hfo.task, hfo.linked, hpe]
      refine (pfairHigherPrioWords_eq hcomp (fun u hu => ?_) fun u hu => ?_).symm
      · exact hfl.live_of_ready (hfl.takePeeked (hpe.trans hu)).2.2
      exact hfl.live_of_linked ((congrFun h.linked cpu).trans hu)
    simp only [State.scheduleCpu, Board.scheduleCpu] at hst' ⊢
    rw [← hpri]
    split at hst'
    · rename_i hhi
      rw [if_pos hhi]
      rcases hn : st.peekReady.1 with _ | t
      · rw [hn] at hhi
        cases hhi
      obtain ⟨htak, hfiled1, hr⟩ := hfl.takePeeked hn
      have hfollows1 := h.take hcomp hfl t
      rw [htak] at hst'
      obtain ⟨⟨retry, st1⟩, hli, hst'⟩ := bind_eq_some_iff.mp hst'
      obtain ⟨b1, hb1, hfollows2, hta, hnamed'⟩ :=
        hfollows1.pfairLink hcomp hfiled1 (fun u hu => hu.2) hli
      have hnamed1 : b1.Named := by
        refine hnamed' hna fun c hc => ?_
        have hc : st.linked c = some t := (congrFun h.linked c).trans hc
        exact absurd (hfl.custody.unique (State.held_linked.mpr hc) (q := .ready) hr)
          (by simp)
      obtain ⟨hk, _, hfiled2⟩ := hfl.linkPeeked hme hn hli
      rw [takePeeked (hpe.symm.trans hn)]
      simp only [hb1, bind_some] at hst' ⊢
      split at hst'
      · rename_i hre
        rw [if_pos hre]
        obtain ⟨b', hb', hfollows', htask', hnamed'⟩ := ih hfollows2 (hta ▸ hcomp) hnamed1 hfiled2
          (hk.mergeTime.trans hme) hst'
        exact ⟨b', hb', hfollows', htask'.trans hta, hnamed'⟩
      rename_i hre
      rw [if_neg hre]
      cases hst'
      exact ⟨b1, rfl, hfollows2, hta, hnamed1⟩
    rename_i hhi
    rw [if_neg hhi]
    cases hst'
    exact ⟨_, rfl, hfo, rfl, hna⟩

theorem Follows.scheduleSubtasks {lo hi fuel : Nat} (hna : b.Named) (hfl : State.Filed lo hi S st)
    (hme : st.mergeTime = hi + 1) (hst' : st.scheduleSubtasks 1 fuel = some st') :
    ∃ b', b.scheduleSubtasks time fuel = some b' ∧ Follows time base group S b' st' ∧
      b'.task = b.task ∧ b'.Named := by
  unfold State.scheduleSubtasks at hst'
  unfold Board.scheduleSubtasks
  generalize List.finRange n = cpus at hst' ⊢
  induction cpus generalizing b st with
  | nil =>
    cases hst'
    exact ⟨b, rfl, h, rfl, hna⟩
  | cons cpu cpus ih =>
    rw [List.foldlM_cons] at hst' ⊢
    obtain ⟨st1, h1, hst'⟩ := bind_eq_some_iff.mp hst'
    obtain ⟨b1, hb1, hfollows1, htask1, hnamed1⟩ := h.scheduleCpu hcomp hna hfl hme h1
    obtain ⟨hk, _, hfiled1⟩ := hfl.scheduleCpu hme h1
    obtain ⟨b', hb', hfollows', htask', hnamed'⟩ := ih hfollows1 (htask1 ▸ hcomp) hnamed1 hfiled1
      (hk.mergeTime.trans hme) hst'
    refine ⟨b', ?_, hfollows', htask'.trans htask1, hnamed'⟩
    rw [hb1]
    exact hb'

end

end

theorem scheduleCpu_mono {fuel fuel' : Nat} (hb' : b.scheduleCpu time cpu fuel = some b')
    (hle : fuel ≤ fuel') : b.scheduleCpu time cpu fuel' = some b' := by
  induction fuel generalizing b fuel' with
  | zero => cases hb'
  | succ fuel ih =>
    obtain ⟨k, rfl⟩ := Nat.exists_eq_add_of_le' hle
    simp only [Board.scheduleCpu] at hb' ⊢
    split at hb'
    · rename_i hpr
      rw [if_pos hpr]
      split at hb'
      · cases hb'
      obtain ⟨⟨retry, b1⟩, hlin, hb'⟩ := bind_eq_some_iff.mp hb'
      simp only [hlin, bind_some] at hb' ⊢
      split at hb'
      · rename_i hre
        rw [if_pos hre]
        exact ih hb' (Nat.le_add_left fuel k)
      rename_i hre
      rw [if_neg hre]
      exact hb'
    rename_i hpr
    rw [if_neg hpr]
    exact hb'

theorem scheduleSubtasks_mono {fuel fuel' : Nat} (hb' : b.scheduleSubtasks time fuel = some b')
    (hle : fuel ≤ fuel') : b.scheduleSubtasks time fuel' = some b' := by
  unfold Board.scheduleSubtasks at hb' ⊢
  generalize List.finRange n = cpus at hb' ⊢
  induction cpus generalizing b with
  | nil => exact hb'
  | cons cpu cpus ih =>
    rw [List.foldlM_cons] at hb' ⊢
    obtain ⟨b1, hb1, hb'⟩ := bind_eq_some_iff.mp hb'
    rw [scheduleCpu_mono hb1 hle]
    exact ih hb'

theorem Follows.live_iff {lo hi : Nat} (h : Follows time base group S b st)
    (hfl : State.Filed lo hi S st) (hwhe : ∀ i, st.releaseQueue i = Heap.empty) (t : TaskId) :
    b.Live t ↔ S t := by
  rw [← hfl.custody.live_iff t, Live, ← h.linked, ← h.ready]
  constructor
  · rintro (⟨c, hc⟩ | ht)
    · exact ⟨.linked c, State.held_linked.mpr hc⟩
    exact ⟨.ready, ht⟩
  rintro ⟨p, hp⟩
  rcases p with _ | i | c
  · exact .inr hp
  · rw [State.held, hwhe i] at hp
    exact absurd hp (notMem_zero t)
  exact .inl ⟨c, State.held_linked.mp hp⟩

/-! ### From a consistent board -/

theorem Consistent.filed (h : b.Consistent w) :
    State.Filed 0 0 b.Live (shadowState time base group b) where
  custody := by
    refine ⟨?_, ?_, ?_⟩
    · intro p
      rcases p with _ | i | c
      · exact h.nodup
      · exact nodup_zero
      change (Heap.cached (b.linked c)).Nodup
      rcases b.linked c with _ | u
      · exact nodup_zero
      exact Multiset.nodup_singleton u
    · intro p q u hp hq
      rcases p with _ | i | c
      · rcases q with _ | j | d
        · rfl
        · exact absurd hq (notMem_zero u)
        exact absurd hp (h.apart d u (State.held_linked.mp hq))
      · exact absurd hp (notMem_zero u)
      rcases q with _ | j | d
      · exact absurd hq (h.apart c u (State.held_linked.mp hp))
      · exact absurd hq (notMem_zero u)
      rw [h.once c d u (State.held_linked.mp hp) (State.held_linked.mp hq)]
    intro u
    constructor
    · rintro ⟨p, hp⟩
      rcases p with _ | i | c
      · exact .inr hp
      · exact absurd hp (notMem_zero u)
      exact .inl ⟨c, State.held_linked.mp hp⟩
    rintro (⟨c, hc⟩ | hu)
    · exact ⟨.linked c, State.held_linked.mpr hc⟩
    exact ⟨.ready, hu⟩
  node u := by
    refine decide_eq_true_iff.trans ⟨.inl, ?_⟩
    rintro (hu | ⟨i, hu⟩)
    · exact hu
    exact absurd hu (notMem_zero u)
  wheel i u hu := absurd hu (notMem_zero u)
  ready u _ := Nat.zero_le 1
  linked c u _ := Nat.zero_le 1

theorem Consistent.follows (h : b.Consistent w) :
    Follows time base group b.Live b (shadowState time base group b) where
  task := rfl
  ready := rfl
  linked := rfl
  node u hu := by
    rw [Bool.eq_iff_iff, h.node u hu]
    exact decide_eq_true_iff

theorem Consistent.readyState (h : b.Consistent w) (hcomp : Comparable w base group b.task b.Live) :
    State.Ready b.Live (shadowState time base group b) where
  ordered := by
    refine h.ordered.congr fun x hx y hy hxy => ?_
    rw [← h.follows.order_eq hcomp x (.inr hx) y (.inr hy)]
    exact hxy
  real := hcomp.real

theorem Homes.shadow (h : b.Homes time) : State.Homes 1 b.Live (shadowState time base group b) := by
  have hla : ∀ {u}, ((shadowState time base group b).task u).pfair.lastQuantum + 1 = 1 →
      (b.task u).scheduledOn = none ∧ BitVec.ofNat w (b.task u).pfair.lastQuantum = time - 1 := by
    intro u hu
    by_contra hn
    simp only [shadowState, Board.shadow, if_neg hn] at hu
    exact absurd hu (by decide)
  refine ⟨h.scheduled, fun u hu hq => ?_, fun u v hu hv hqu hqv hc => ?_⟩
  · exact h.last u hu (hla hq).1 (hla hq).2
  exact h.last_inj u v hu hv ((hla hqu).2.trans (hla hqv).2.symm) hc

end Shadow

end Board

open Board in
/-- Quantum assignment: from every consistent board `schedule_subtasks` ends, loses and duplicates
    no task, and leaves the best tasks linked. -/
theorem pfair_schedule_subtasks {w n : Nat} {b : Board n} {time base group : BitVec w}
    (hcons : b.Consistent w) (hhomes : b.Homes time)
    (hcomp : Comparable w base group b.task b.Live) :
    ∃ b', (∀ fuel, 2 * n < fuel → b.scheduleSubtasks time fuel = some b') ∧
      b'.task = b.task ∧ (∀ t, b'.Live t ↔ b.Live t) ∧
      (∀ t, b.Live t → (∃ c, b'.linked c = some t ∧ b'.linkedOn t = some c ∧
          (∀ d, b'.linked d = some t → d = c) ∧ t ∉ b'.readyQueue.elems) ∨
        (t ∈ b'.readyQueue.elems ∧ ∀ c, b'.linked c ≠ some t)) ∧
      (∀ c l, b'.linked c = some l → ∀ x ∈ b'.readyQueue.elems,
        pfairHigherPrioWords w b'.task (some x) (some l) = false) ∧
      (∀ c, b'.linked c = none → b'.readyQueue.elems = 0) := by
  obtain ⟨st', hst', _, hwheel, _, hsettled⟩ := State.scheduleSubtasks_settles hcons.filed rfl
    (hcons.readyState hcomp) hhomes.shadow (Nat.lt_succ_self (2 * n))
  obtain ⟨b', hb', hfollows, htask, hnamed⟩ :=
    hcons.follows.scheduleSubtasks hcomp hcons.names hcons.filed rfl hst'
  obtain ⟨_, _, hfiled⟩ := hcons.filed.scheduleSubtasks rfl hst'
  have hlive : ∀ t, b'.Live t ↔ b.Live t := hfollows.live_iff hfiled fun i => by rw [hwheel]; rfl
  have hlinked : ∀ {c t}, b'.linked c = some t → st'.linked c = some t := fun hc =>
    (congrFun hfollows.linked _).trans hc
  have hr : ∀ {t}, t ∈ b'.readyQueue.elems → t ∈ st'.readyQueue.elems := fun ht => by
    rw [hfollows.ready]
    exact ht
  -- a linked task is in no other place
  have hapart : ∀ {c t}, b'.linked c = some t → t ∉ b'.readyQueue.elems := fun hc ht =>
    absurd (hfiled.custody.unique (State.held_linked.mpr (hlinked hc)) (q := .ready) (hr ht))
      (by simp)
  refine ⟨b', fun fuel hfuel => scheduleSubtasks_mono hb' hfuel, htask, hlive, ?_, ?_, ?_⟩
  · intro t ht
    rcases (hlive t).mpr ht with ⟨c, hc⟩ | hq
    · refine .inl ⟨c, hc, hnamed c t hc, fun d hd => ?_, hapart hc⟩
      exact hfiled.linked_inj (hlinked hd) (hlinked hc)
    exact .inr ⟨hq, fun c hc => hapart hc hq⟩
  · intro c l hl x hx
    have hbest := (hsettled c c.isLt).1 l (hlinked hl) x (hr hx)
    have hSx := (hlive x).mp (.inr hx)
    have hSl := (hlive l).mp (.inl ⟨c, hl⟩)
    rw [hfollows.order_eq (htask ▸ hcomp) x hSx l hSl] at hbest
    exact hbest
  intro c hc
  have hempty := (hsettled c c.isLt).2 ((congrFun hfollows.linked c).trans hc)
  rw [← hfollows.ready]
  exact hempty

def pendingTask {n : Nat} (deadline lastQuantum lastCpu : Nat) (scheduledOn : Option (Fin n)) :
    PfairTask n :=
  { RtTask.admitted { execCost := 1, period := 100, cpu := 0, budgetPolicy := .noEnforcement } with
    present := true, scheduledOn := scheduledOn
    pfair :=
      { quanta := 1, cur := 0, release := 0, period := 100, lastQuantum, lastCpu
        sporadicRelease := false
        subtasks := [{ release := 0, deadline := deadline, overlap := 0, groupDeadline := 0 }] } }

/-- Tasks 1 and 2 are linked; task 3 is ready, has the earliest deadline and is still scheduled on
    the second CPU, which has not been considered yet. -/
def evicting : Board 2 where
  task t := match t with
    | 1 => pendingTask 20 0 0 none
    | 2 => pendingTask 15 0 1 none
    | _ => pendingTask 10 1 0 (some (Fin.last 1))
  inHeap t := decide (t = 3)
  readyQueue := { forest := .node 3 0 .nil .nil, min := none }
  linked c := if c = Fin.last 1 then some 2 else some 1
  linkedOn t := match t with
    | 1 => some ⟨0, Nat.zero_lt_two⟩
    | 2 => some (Fin.last 1)
    | _ => none

theorem evicting_live {t : TaskId} (h : evicting.Live t) : t = 1 ∨ t = 2 ∨ t = 3 := by
  rcases h with ⟨c, hc⟩ | ht
  · obtain rfl | rfl : c = 0 ∨ c = 1 := by omega
    · exact .inl (some.inj hc).symm
    exact .inr (.inl (some.inj hc).symm)
  exact .inr (.inr (mem_singleton.mp ht))

theorem evicting_linked {c : Fin 2} {t : TaskId} (h : evicting.linked c = some t) :
    (c = 0 ∧ t = 1) ∨ (c = 1 ∧ t = 2) := by
  obtain rfl | rfl : c = 0 ∨ c = 1 := by omega
  · exact .inl ⟨rfl, (some.inj h).symm⟩
  exact .inr ⟨rfl, (some.inj h).symm⟩

theorem evicting_consistent : evicting.Consistent 64 := by
  refine ⟨?_, ?_, ?_, Multiset.nodup_singleton 3, ?_, ?_⟩
  · intro c d t hc hd
    rcases evicting_linked hc with ⟨rfl, rfl⟩ | ⟨rfl, rfl⟩ <;>
      rcases evicting_linked hd with ⟨rfl, ht⟩ | ⟨rfl, ht⟩
    · rfl
    · cases ht
    · cases ht
    · rfl
  · intro c t hc
    rcases evicting_linked hc with ⟨rfl, rfl⟩ | ⟨rfl, rfl⟩ <;> rfl
  · intro c t hc ht
    obtain rfl : t = 3 := mem_singleton.mp ht
    rcases evicting_linked hc with ⟨_, h⟩ | ⟨_, h⟩ <;> cases h
  · intro t _
    exact decide_eq_true_iff.trans mem_singleton.symm
  · refine ⟨⟨fun b hb => absurd hb (notMem_zero b), trivial, trivial⟩, ?_⟩
    rintro m ⟨⟩

theorem evicting_homes : evicting.Homes (5 : BitVec 64) := by
  refine ⟨?_, ?_, ?_⟩
  · intro t u c ht hu
    rcases evicting_live ht with rfl | rfl | rfl <;>
      rcases evicting_live hu with rfl | rfl | rfl <;> revert c <;> decide
  · intro t u ht hu
    rcases evicting_live ht with rfl | rfl | rfl <;>
      rcases evicting_live hu with rfl | rfl | rfl <;> decide
  intro t ht
  rcases evicting_live ht with rfl | rfl | rfl <;> decide

theorem evicting_comparable : Board.Comparable 64 0 0 evicting.task evicting.Live := by
  refine ⟨fun t ht => ?_, fun t ht => ?_, fun t ht => ?_⟩ <;>
    rcases evicting_live ht with rfl | rfl | rfl <;> decide

theorem pfair_higher_prio_total_order_evicting :
    ¬pfairHigherPrioWords 64 evicting.task (some 3) (some 3) ∧
      (pfairHigherPrioWords 64 evicting.task (some 2) (some 3) ∨
        pfairHigherPrioWords 64 evicting.task (some 3) (some 2)) := by
  obtain ⟨hirrefl, _, htotal⟩ := @Board.pfair_higher_prio_total_order 64 2 evicting.task {2, 3}
    (by rintro t (rfl | rfl) <;> rfl) (by rintro t (rfl | rfl) <;> decide)
    (by rintro t (rfl | rfl) <;> decide)
  exact ⟨hirrefl 3 (.inr rfl), htotal 2 (.inl rfl) 3 (.inr rfl) (by decide)⟩

/-- Task 3 takes the second CPU, task 2 goes back to the queue and takes the first. -/
theorem pfair_schedule_subtasks_evicting :
    ∃ b', evicting.scheduleSubtasks (5 : BitVec 64) 5 = some b' ∧
      b'.linked 0 = some 2 ∧ b'.linkedOn 2 = some 0 ∧ b'.linked 1 = some 3 ∧
      b'.linkedOn 3 = some 1 ∧ (1 ∈ b'.readyQueue.elems ∧ ∀ c, b'.linked c ≠ some 1) := by
  obtain ⟨b', hb', _, _, hplaces, _, _⟩ :=
    pfair_schedule_subtasks evicting_consistent evicting_homes evicting_comparable
  have hfive := hb' 5 (by decide)
  have heval : (evicting.scheduleSubtasks (5 : BitVec 64) 5).any (fun b =>
      decide (b.linked 0 = some 2 ∧ b.linkedOn 2 = some 0 ∧ b.linked 1 = some 3 ∧
        b.linkedOn 3 = some 1)) = true := by decide +kernel
  rw [hfive] at heval
  obtain ⟨h0, h2, h1, h3⟩ := of_decide_eq_true heval
  refine ⟨b', hfive, h0, h2, h1, h3, ?_⟩
  rcases hplaces 1 (.inl ⟨0, rfl⟩) with ⟨c, hc, _⟩ | hr
  · obtain rfl | rfl : c = 0 ∨ c = 1 := by omega
    · cases h0.symm.trans hc
    cases h1.symm.trans hc
  exact hr

/-- Deadlines that are 2^63 apart: each of the two tasks beats the other. -/
def circular : Board 1 where
  task t := if t = 1 then pendingTask 0 0 0 none else pendingTask (2 ^ 63) 1 0 none
  inHeap t := decide (t = 2)
  readyQueue := { forest := .node 2 0 .nil .nil, min := none }
  linked _ := some 1
  linkedOn t := if t = 1 then some (Fin.last 0) else none

/-- A ready task whose `last_cpu`, as `kmalloc` left it, is no CPU. -/
def strayed : Board 1 where
  task _ := pendingTask 10 4 7 none
  inHeap t := decide (t = 1)
  readyQueue := { forest := .node 1 0 .nil .nil, min := none }
  linked _ := none
  linkedOn _ := none

theorem circular_live {t : TaskId} (h : circular.Live t) : t = 1 ∨ t = 2 := by
  rcases h with ⟨c, hc⟩ | ht
  · exact .inl (some.inj hc).symm
  exact .inr (mem_singleton.mp ht)

theorem circular_consistent : circular.Consistent 64 := by
  refine ⟨fun c d t _ _ => Subsingleton.elim c d, ?_, ?_, Multiset.nodup_singleton 2, ?_, ?_⟩
  · intro c t hc
    obtain rfl := some.inj hc
    exact congrArg some (Subsingleton.elim _ c)
  · intro c t hc ht
    obtain rfl := some.inj hc
    exact absurd (mem_singleton.mp ht) (by decide)
  · intro t _
    exact decide_eq_true_iff.trans mem_singleton.symm
  · refine ⟨⟨fun b hb => absurd hb (notMem_zero b), trivial, trivial⟩, ?_⟩
    rintro m ⟨⟩

theorem circular_homes : circular.Homes (5 : BitVec 64) := by
  refine ⟨?_, ?_, ?_⟩
  · intro t u c ht hu
    rcases circular_live ht with rfl | rfl <;> rcases circular_live hu with rfl | rfl <;>
      revert c <;> decide
  · intro t u ht hu
    rcases circular_live ht with rfl | rfl <;> rcases circular_live hu with rfl | rfl <;> decide
  intro t ht
  rcases circular_live ht with rfl | rfl <;> decide

theorem strayed_consistent : strayed.Consistent 64 := by
  refine ⟨fun c d t _ _ => Subsingleton.elim c d, ?_, ?_, Multiset.nodup_singleton 1, ?_, ?_⟩
  · rintro c t ⟨⟩
  · rintro c t ⟨⟩
  · intro t _
    exact decide_eq_true_iff.trans mem_singleton.symm
  · refine ⟨⟨fun b hb => absurd hb (notMem_zero b), trivial, trivial⟩, ?_⟩
    rintro m ⟨⟩

theorem strayed_scheduleCpu (fuel : Nat) (cpu : Fin 1) :
    strayed.scheduleCpu (5 : BitVec 64) cpu fuel = none := by
  rcases fuel with _ | fuel
  · rfl
  rfl

/-- Two ways out of the order.  With deadlines 2^63 apart the ready task 1 is left behind by the
    linked task 2, which it beats; and a `last_cpu` that is no CPU is looked up as one. -/
theorem pfair_schedule_subtasks_unordered :
    (circular.Consistent 64 ∧ circular.Homes (5 : BitVec 64) ∧
      (∀ t, circular.Live t → (circular.task t).realtime = true) ∧
      ∃ b', circular.scheduleSubtasks (5 : BitVec 64) 3 = some b' ∧ b'.linked 0 = some 2 ∧
        1 ∈ b'.readyQueue.elems ∧ pfairHigherPrioWords 64 b'.task (some 1) (some 2) = true) ∧
    (strayed.Consistent 64 ∧ (∀ t u, strayed.Live t → strayed.Live u → t = u) ∧
      (∀ t, strayed.Live t → (strayed.task t).realtime = true) ∧
      ∀ fuel, strayed.scheduleSubtasks (5 : BitVec 64) fuel = none) := by
  refine ⟨⟨circular_consistent, circular_homes, ?_, ?_⟩, strayed_consistent, ?_, fun _ _ => rfl, ?_⟩
  · intro t ht
    rcases circular_live ht with rfl | rfl <;> rfl
  · have heval : (circular.scheduleSubtasks (5 : BitVec 64) 3).any (fun b =>
        decide (b.linked 0 = some 2 ∧ 1 ∈ b.readyQueue.elems ∧
          pfairHigherPrioWords 64 b.task (some 1) (some 2) = true)) = true := by decide +kernel
    obtain ⟨b', hb', hcheck⟩ := (any_eq_true _ _).mp heval
    exact ⟨b', hb', of_decide_eq_true hcheck⟩
  · have hl : ∀ t, strayed.Live t → t = 1 := by
      rintro t (⟨c, ⟨⟩⟩ | ht)
      exact mem_singleton.mp ht
    intro t u ht hu
    exact (hl t ht).trans (hl u hu).symm
  · intro fuel
    change (strayed.scheduleCpu (5 : BitVec 64) 0 fuel).bind _ = none
    rw [strayed_scheduleCpu, bind_none]

end Litmus.Pfair
