import Litmus.BinomialHeap
import Litmus.RtTask

/-!
# Ready queue and release queue

The scheduling domain of `rt_domain.c`: a ready heap, and one release heap for each
release time, kept in slots.  A release heap whose timer has fired is off the queue but
its tasks wait until the release callback merges them.
-/

namespace Litmus

open BinomialForest List Heap
open Multiset (mem_add mem_cons mem_cons_of_mem cons_add mem_cons_self add_cons)

/-- `struct release_heap` -/
structure ReleaseHeap where
  releaseTime : LtTime
  heap : Heap TaskId

/-- `rt_domain_t` -/
structure RtDomain where
  readyQueue : Heap TaskId
  /-- the slot lists of the release queue, as one list -/
  releaseQueue : List ReleaseHeap
  /-- heaps taken off the queue by `on_release_timer`, not yet merged -/
  fired : List ReleaseHeap
  /-- `tick_period`, fixed at boot -/
  tickPeriod : Nat

namespace RtDomain

/-- `rt_domain_init` -/
def init (tickPeriod : Nat) : RtDomain where
  readyQueue := Heap.empty
  releaseQueue := []
  fired := []
  tickPeriod := tickPeriod

/-- The tasks held by a list of release heaps. -/
def heldBy (rhs : List ReleaseHeap) : Multiset TaskId :=
  (rhs.map fun rh => rh.heap.elems).sum

def waiting (dom : RtDomain) : Multiset TaskId := heldBy dom.releaseQueue + heldBy dom.fired

def queued (dom : RtDomain) : Multiset TaskId := dom.readyQueue.elems + dom.waiting

/-- `is_queued`: the task's heap node is in a heap. -/
def isQueued (dom : RtDomain) (t : TaskId) : Bool := decide (t ∈ dom.queued)

/-! ### Operations -/

def time2slot (tickPeriod : Nat) (time : LtTime) : Nat :=
  time.toNat / tickPeriod % 2 ^ 32 % 127

section

variable (order : TaskId → TaskId → Bool)

/-- `__add_ready`; queuing a queued task is a bug. -/
def addReady (dom : RtDomain) (t : TaskId) : Option RtDomain :=
  if dom.isQueued t then none
  else some { dom with readyQueue := dom.readyQueue.insert order t }

def mergeReady (dom : RtDomain) (tasks : Heap TaskId) : RtDomain :=
  { dom with readyQueue := dom.readyQueue.union order tasks }

/-- `get_release_heap` and the insertion after it: the task joins the heap of its release
    time if its slot has one, else it opens one before the first later heap. -/
def joinReleaseHeap (tickPeriod : Nat) (time : LtTime) (t : TaskId) :
    List ReleaseHeap → List ReleaseHeap
  | [] => [{ releaseTime := time, heap := Heap.empty.insert order t }]
  | rh :: rest =>
      if time2slot tickPeriod rh.releaseTime ≠ time2slot tickPeriod time then
        rh :: joinReleaseHeap tickPeriod time t rest
      else if time = rh.releaseTime then
        { rh with heap := rh.heap.insert order t } :: rest
      else if ltBefore time rh.releaseTime then
        { releaseTime := time, heap := Heap.empty.insert order t } :: rh :: rest
      else rh :: joinReleaseHeap tickPeriod time t rest

def addRelease (dom : RtDomain) (time : LtTime) (t : TaskId) : RtDomain :=
  { dom with releaseQueue := joinReleaseHeap order dom.tickPeriod time t dom.releaseQueue }

/-- `__next_ready` and `__peek_ready` -/
def nextReady (dom : RtDomain) : Option TaskId × RtDomain :=
  ((dom.readyQueue.peek order).1, { dom with readyQueue := (dom.readyQueue.peek order).2 })

def takeReady (dom : RtDomain) : Option TaskId × RtDomain :=
  ((dom.readyQueue.take order).1, { dom with readyQueue := (dom.readyQueue.take order).2 })

def remove (dom : RtDomain) (t : TaskId) : Option RtDomain :=
  (dom.readyQueue.delete order t).map fun H => { dom with readyQueue := H }

end

variable {i : Nat} {dom : RtDomain} {t : TaskId} {order : TaskId → TaskId → Bool}

def jobsPending (dom : RtDomain) : Bool :=
  !(decide (dom.readyQueue.forest = .nil) && dom.readyQueue.min.isNone)

/-- The first half of `on_release_timer`: the heap at position `i` leaves the queue. -/
def onReleaseTimer (dom : RtDomain) (i : Nat) : Option RtDomain :=
  dom.releaseQueue[i]?.map fun rh =>
    { dom with releaseQueue := dom.releaseQueue.eraseIdx i, fired := rh :: dom.fired }

/-- The callback's `__merge_ready` of the fired heap at position `i`. -/
def mergeFired (order : TaskId → TaskId → Bool) (dom : RtDomain) (i : Nat) : Option RtDomain :=
  dom.fired[i]?.map fun rh =>
    mergeReady order { dom with fired := dom.fired.eraseIdx i } rh.heap

/-! ### Contents -/

@[simp] theorem heldBy_nil : heldBy [] = 0 := rfl

@[simp] theorem heldBy_cons (rh : ReleaseHeap) (rest : List ReleaseHeap) :
    heldBy (rh :: rest) = rh.heap.elems + heldBy rest := by
  simp [heldBy]

theorem heldBy_eraseIdx {rhs : List ReleaseHeap} {rh : ReleaseHeap} (h : rhs[i]? = some rh) :
    heldBy rhs = rh.heap.elems + heldBy (rhs.eraseIdx i) := by
  induction rhs generalizing i with
  | nil => simp at h
  | cons first rest ih =>
    cases i with
    | zero =>
      simp only [getElem?_cons_zero, Option.some.injEq] at h
      simp [h]
    | succ i =>
      rw [eraseIdx_cons_succ, heldBy_cons, heldBy_cons, ih (by simpa using h)]
      exact add_left_comm _ _ _

theorem heldBy_joinReleaseHeap (order : TaskId → TaskId → Bool) (tick : Nat) (time : LtTime)
    (t : TaskId) (rhs : List ReleaseHeap) :
    heldBy (joinReleaseHeap order tick time t rhs) = t ::ₘ heldBy rhs := by
  induction rhs with
  | nil => simp [joinReleaseHeap, elems_insert]
  | cons rh rest ih =>
    simp only [joinReleaseHeap]
    split
    · rw [heldBy_cons, ih, heldBy_cons, add_cons]
    split
    · simp [elems_insert]
    split
    · simp [elems_insert]
    rw [heldBy_cons, ih, heldBy_cons, add_cons]

theorem isQueued_iff : dom.isQueued t ↔ t ∈ dom.queued :=
  decide_eq_true_iff

theorem jobsPending_iff : dom.jobsPending ↔ dom.readyQueue.elems ≠ 0 := by
  obtain ⟨⟨_ | ⟨a, d, c, n⟩, _ | m⟩, rest⟩ := dom <;> simp [jobsPending]

theorem addReady_eq (h : t ∉ dom.queued) :
    addReady order dom t = some { dom with readyQueue := dom.readyQueue.insert order t } :=
  if_neg (fun hq => h (isQueued_iff.mp hq))

@[simp] theorem waiting_setReady (dom : RtDomain) (H : Heap TaskId) :
    waiting { dom with readyQueue := H } = dom.waiting := rfl

theorem waiting_addRelease (order : TaskId → TaskId → Bool) (dom : RtDomain) (time : LtTime)
    (t : TaskId) : (addRelease order dom time t).waiting = t ::ₘ dom.waiting := by
  simp [waiting, addRelease, heldBy_joinReleaseHeap]

theorem ready_nextReady (order : TaskId → TaskId → Bool) (dom : RtDomain) :
    (nextReady order dom).2.readyQueue.elems = dom.readyQueue.elems :=
  elems_cacheMin order dom.readyQueue

theorem ready_takeReady_some (h : (takeReady order dom).1 = some t) :
    dom.readyQueue.elems = t ::ₘ (takeReady order dom).2.readyQueue.elems :=
  elems_take_some h

theorem takeReady_eq_none :
    (takeReady order dom).1 = none ↔ dom.readyQueue.elems = 0 := take_eq_none

theorem ready_takeReady_none (h : (takeReady order dom).1 = none) :
    (takeReady order dom).2.readyQueue.elems = 0 :=
  elems_take_none h

theorem remove_spec (order : TaskId → TaskId → Bool) (ht : t ∈ dom.readyQueue.elems)
    (hnd : dom.readyQueue.elems.Nodup) :
    ∃ H, dom.readyQueue.delete order t = some H ∧
      remove order dom t = some { dom with readyQueue := H } ∧
      dom.readyQueue.elems = t ::ₘ H.elems := by
  obtain ⟨H, hH⟩ : ∃ H, dom.readyQueue.delete order t = some H := delete_isSome ht
  exact ⟨H, hH, by simp [remove, hH], elems_delete hH hnd⟩

theorem onReleaseTimer_contents {dom' : RtDomain} (h : dom.onReleaseTimer i = some dom') :
    dom'.readyQueue = dom.readyQueue ∧ dom'.waiting = dom.waiting := by
  obtain ⟨rh, hrh, rfl⟩ := Option.map_eq_some_iff.mp h
  refine ⟨rfl, ?_⟩
  simp only [waiting, heldBy_cons]
  rw [heldBy_eraseIdx hrh, add_left_comm, add_assoc]

theorem mergeFired_contents {dom' : RtDomain} (h : dom.mergeFired order i = some dom') :
    ∃ moved, dom'.readyQueue.elems = dom.readyQueue.elems + moved ∧
      dom.waiting = moved + dom'.waiting := by
  obtain ⟨rh, hrh, rfl⟩ := Option.map_eq_some_iff.mp h
  refine ⟨rh.heap.elems, elems_union order _ _, ?_⟩
  simp only [waiting, mergeReady]
  rw [heldBy_eraseIdx hrh, add_left_comm]

section

variable {order : TaskId → TaskId → Bool} {dom dom' : RtDomain} {t : TaskId}

theorem queued_addReady (h : addReady order dom t = some dom') :
    dom'.queued = t ::ₘ dom.queued := by
  unfold addReady at h
  split at h
  · cases h
  cases h
  rw [queued, waiting_setReady, elems_insert, cons_add]
  rfl

theorem queued_addRelease (time : LtTime) :
    (addRelease order dom time t).queued = t ::ₘ dom.queued := by
  rw [queued, waiting_addRelease, add_cons]
  rfl

theorem queued_onReleaseTimer (h : dom.onReleaseTimer i = some dom') :
    dom'.queued = dom.queued := by
  obtain ⟨hr, hwai⟩ := onReleaseTimer_contents h
  rw [queued, hr, hwai]
  rfl

theorem queued_mergeFired (h : dom.mergeFired order i = some dom') : dom'.queued = dom.queued := by
  obtain ⟨moved, hr, hwai⟩ := mergeFired_contents h
  rw [queued, queued, hr, hwai, add_assoc]

theorem queued_takeReady (order : TaskId → TaskId → Bool) (dom : RtDomain) :
    cached (takeReady order dom).1 + (takeReady order dom).2.queued = dom.queued := by
  cases hn : (takeReady order dom).1 with
  | none =>
    have hnil := ready_takeReady_none hn
    rw [queued, queued, hnil, takeReady_eq_none.mp hn]
    simp [cached, takeReady]
  | some u =>
    have hcon := ready_takeReady_some hn
    rw [queued, queued, hcon]
    simp [cached, takeReady]

end

/-! ### Order -/

variable {x : TaskId}

structure Sorted (order : TaskId → TaskId → Bool) (dom : RtDomain) : Prop where
  ready : dom.readyQueue.Ordered order
  release : ∀ rh ∈ dom.releaseQueue ++ dom.fired, rh.heap.Ordered order

theorem mem_heldBy {rhs : List ReleaseHeap} : x ∈ heldBy rhs ↔ ∃ rh ∈ rhs, x ∈ rh.heap.elems := by
  induction rhs with
  | nil => simp
  | cons rh rest ih => simp [ih]

theorem heldBy_append (l1 l2 : List ReleaseHeap) : heldBy (l1 ++ l2) = heldBy l1 + heldBy l2 := by
  simp [heldBy]

theorem mem_waiting :
    x ∈ dom.waiting ↔ ∃ rh ∈ dom.releaseQueue ++ dom.fired, x ∈ rh.heap.elems := by
  rw [waiting, ← heldBy_append, mem_heldBy]

theorem mem_queued :
    x ∈ dom.queued ↔ x ∈ dom.readyQueue.elems ∨ x ∈ dom.waiting := mem_add

theorem Sorted.congr {order order' : TaskId → TaskId → Bool} (h : Sorted order dom)
    (heq : ∀ a ∈ dom.queued, ∀ b ∈ dom.queued, order' a b → order a b) : Sorted order' dom where
  ready := h.ready.congr fun a ha b hb =>
    heq a (mem_queued.mpr (.inl ha)) b (mem_queued.mpr (.inl hb))
  release rh hrh := (h.release rh hrh).congr fun a ha b hb =>
    heq a (mem_queued.mpr (.inr (mem_waiting.mpr ⟨rh, hrh, ha⟩))) b
      (mem_queued.mpr (.inr (mem_waiting.mpr ⟨rh, hrh, hb⟩)))

section

variable {order : TaskId → TaskId → Bool} {S : Set TaskId} {dom : RtDomain}

theorem Sorted.init (order : TaskId → TaskId → Bool) (tick : Nat) : Sorted order (init tick) where
  ready := Heap.Ordered.empty order
  release rh hrh := by simp [RtDomain.init] at hrh

section

variable (hS : StrictWeakOn order S)

include hS

theorem Sorted.insertReady (hm : ∀ x ∈ t ::ₘ dom.queued, x ∈ S)
    (h : Sorted order dom) :
    Sorted order { dom with readyQueue := dom.readyQueue.insert order t } where
  ready := h.ready.insert hS fun x hx => hm x (by
    rcases mem_cons.mp hx with rfl | hx
    · exact mem_cons_self x _
    exact mem_cons_of_mem (mem_queued.mpr (.inl hx)))
  release := h.release

theorem joinReleaseHeap_ordered {tick : Nat} {time : LtTime}
    {rhs : List ReleaseHeap} (ht : t ∈ S) (hm : ∀ x ∈ heldBy rhs, x ∈ S)
    (h : ∀ rh ∈ rhs, rh.heap.Ordered order) :
    ∀ rh ∈ joinReleaseHeap order tick time t rhs, rh.heap.Ordered order := by
  have hop := (Heap.Ordered.empty order).insert hS (by simpa using ht)
  induction rhs with
  | nil =>
    intro rh hrh
    simp only [joinReleaseHeap, mem_singleton] at hrh
    subst hrh
    exact hop
  | cons first rest ih =>
    have hfi : first.heap.Ordered order := h first mem_cons_self
    have hre : ∀ rh ∈ rest, rh.heap.Ordered order := fun rh hrh =>
      h rh (mem_cons_of_mem first hrh)
    have hin : ∀ x ∈ first.heap.elems, x ∈ S := fun x hx => hm x (by simp [hx])
    have ih := ih (fun x hx => hm x (by simp [hx])) hre
    intro rh hrh
    simp only [joinReleaseHeap] at hrh
    split at hrh
    · rcases mem_cons.mp hrh with rfl | hrh
      · exact hfi
      exact ih rh hrh
    split at hrh
    · rcases mem_cons.mp hrh with rfl | hrh
      · refine hfi.insert hS fun x hx => ?_
        rcases mem_cons.mp hx with rfl | hx
        · exact ht
        exact hin x hx
      exact hre rh hrh
    split at hrh
    · rcases mem_cons.mp hrh with rfl | hrh
      · exact hop
      exact h rh hrh
    rcases mem_cons.mp hrh with rfl | hrh
    · exact hfi
    exact ih rh hrh

theorem Sorted.addRelease (time : LtTime)
    (hm : ∀ x ∈ t ::ₘ dom.queued, x ∈ S) (h : Sorted order dom) :
    Sorted order (addRelease order dom time t) where
  ready := h.ready
  release rh hrh := by
    have hw : ∀ x ∈ heldBy dom.releaseQueue, x ∈ S := fun x hx =>
      hm x (mem_cons_of_mem (mem_queued.mpr (.inr (mem_add.mpr (.inl hx)))))
    rcases mem_append.mp hrh with hrh | hrh
    · exact joinReleaseHeap_ordered hS (hm t (mem_cons_self t _)) hw
        (fun rh hrh => h.release rh (mem_append_left _ hrh)) rh hrh
    exact h.release rh (mem_append_right _ hrh)

theorem Sorted.nextReady (hm : ∀ x ∈ dom.queued, x ∈ S)
    (h : Sorted order dom) : Sorted order (nextReady order dom).2 where
  ready := h.ready.cacheMin hS fun x hx => hm x (mem_queued.mpr (.inl hx))
  release := h.release

theorem Sorted.takeReady (hm : ∀ x ∈ dom.queued, x ∈ S)
    (h : Sorted order dom) : Sorted order (takeReady order dom).2 where
  ready := h.ready.take hS fun x hx => hm x (mem_queued.mpr (.inl hx))
  release := h.release

theorem Sorted.remove {H : Heap TaskId}
    (hH : dom.readyQueue.delete order t = some H) (hnd : dom.readyQueue.elems.Nodup)
    (hm : ∀ x ∈ H.elems, x ∈ S) (hr : dom.readyQueue.Ordered (Forest.except order t))
    (hre : ∀ rh ∈ dom.releaseQueue ++ dom.fired, rh.heap.Ordered order) :
    Sorted order { dom with readyQueue := H } where
  ready := Heap.Ordered.delete hH hnd hS hm hr
  release := hre

end

theorem Sorted.onReleaseTimer {dom' : RtDomain} (h : Sorted order dom)
    (hs : dom.onReleaseTimer i = some dom') : Sorted order dom' := by
  obtain ⟨rh, hrh, rfl⟩ := Option.map_eq_some_iff.mp hs
  refine ⟨h.ready, fun rh' hrh' => h.release rh' ?_⟩
  rcases mem_append.mp hrh' with hq | hf
  · exact mem_append_left _ (mem_of_mem_eraseIdx hq)
  rcases mem_cons.mp hf with rfl | hf
  · exact mem_append_left _ (mem_of_getElem? hrh)
  exact mem_append_right _ hf

theorem Sorted.mergeFired (hS : StrictWeakOn order S) (hm : ∀ x ∈ dom.queued, x ∈ S)
    {dom' : RtDomain} (h : Sorted order dom) (hs : dom.mergeFired order i = some dom') :
    Sorted order dom' := by
  obtain ⟨rh, hrh, rfl⟩ := Option.map_eq_some_iff.mp hs
  have hin : rh ∈ dom.releaseQueue ++ dom.fired := mem_append_right _ (mem_of_getElem? hrh)
  refine ⟨Heap.Ordered.union hS (fun x hx => hm x ?_) h.ready (h.release rh hin),
    fun rh' hrh' => h.release rh' ?_⟩
  · rcases mem_add.mp hx with hx | hx
    · exact mem_queued.mpr (.inl hx)
    exact mem_queued.mpr (.inr (mem_waiting.mpr ⟨rh, hin, hx⟩))
  rcases mem_append.mp hrh' with hq | hf
  · exact mem_append_left _ hq
  exact mem_append_right _ (mem_of_mem_eraseIdx hf)

end

end RtDomain

end Litmus
