import Litmus.BheapOps
import Litmus.Runs

/-!
# Several heaps in one memory, as priority queues

A system is one memory, a family of heaps in it and the current priorities.  The
operations are those of `bheap.h`, each with what its callers promise (`Legal`):
only a node that is in no heap is inserted or initialised, a union is of two
different heaps, a deleted node is in its heap.  Priorities may change for values
that are not queued; the priority of one queued value may change right before that
value is deleted, and may be raised if `bheap_decrease` follows.

The abstract side is a family of multisets.  Every run of the system is a run of
the abstract queues with the same observations (`bheap_refines_queue`).
-/

namespace Litmus.LinkedHeap

open BinomialForest Forest Runs Function

variable {V ι : Type}

/-! ### What a heap in memory holds, without reference to the model forest -/

variable {s : Store V} {h : Option NodePtr} {heap : Bheap} {H : Heap NodePtr}

/-- Node `q` is reached from pointer `h` through `next` and `child` fields. -/
inductive Reach (s : Store V) : Option NodePtr → NodePtr → Prop
  | here (p : NodePtr) : Reach s (some p) p
  | next {p q : NodePtr} : Reach s (s.node p).next q → Reach s (some p) q
  | child {p q : NodePtr} : Reach s (s.node p).child q → Reach s (some p) q

/-- A node is in a heap when it is the cached minimum or in the forest. -/
def InHeap (s : Store V) (heap : Bheap) (p : NodePtr) : Prop :=
  heap.min = some p ∨ Reach s heap.head p

/-- The values held by a heap, forest and cached minimum together. -/
def Holds (s : Store V) (heap : Bheap) (m : Multiset V) : Prop :=
  ∃ nodes : Finset NodePtr, (∀ p, p ∈ nodes ↔ InHeap s heap p) ∧
    nodes.val.map (fun p => (s.node p).value) = m

/-- The shape of a heap: the roots have strictly increasing degrees, a root of
    degree `k` heads a heap-ordered tree of `2 ^ k` nodes with the right parent
    pointers (`Rep`), and the cached node is outside the forest. -/
def WellFormed (hp : V → V → Bool) (s : Store V) (heap : Bheap) : Prop :=
  ∃ f : Forest NodePtr, Rep s none heap.head f ∧ f.elems.Nodup ∧ f.degrees.Pairwise (· < ·) ∧
    (∀ t ∈ f.trees, (s.node t.1).degree = t.2.1 ∧ t.2.2.elems.card + 1 = 2 ^ t.2.1) ∧
    HeapOrdered (byValue hp s) f ∧ ∀ m, heap.min = some m → m ∉ f.elems

theorem Reach.mem_elems {q : NodePtr} (hrea : Reach s h q) :
    ∀ {par : Option NodePtr} {f : Forest NodePtr}, Rep s par h f → q ∈ f.elems := by
  induction hrea with
  | here p =>
    intro par f hre
    cases f with
    | nil => cases hre
    | node a d c n =>
      obtain ⟨hp, _⟩ := hre
      cases hp
      simp
  | next _ ih =>
    intro par f hre
    cases f with
    | nil => cases hre
    | node a d c n =>
      obtain ⟨hp, _, _, _, hn⟩ := hre
      cases hp
      simp [ih hn]
  | child _ ih =>
    intro par f hre
    cases f with
    | nil => cases hre
    | node a d c n =>
      obtain ⟨hp, _, _, hc, _⟩ := hre
      cases hp
      simp [ih hc]

variable {par : Option NodePtr} {f : Forest NodePtr}

theorem Rep.reach (hrep : Rep s par h f) {q : NodePtr} (hq : q ∈ f.elems) : Reach s h q := by
  induction f generalizing par h with
  | nil => simp at hq
  | node a d c n ihc ihn =>
    obtain ⟨rfl, _, _, hc, hn⟩ := hrep
    simp only [elems_node, Multiset.mem_cons, Multiset.mem_add] at hq
    rcases hq with rfl | hq | hq
    · exact Reach.here q
    · exact Reach.child (ihc hc hq)
    exact Reach.next (ihn hn hq)

theorem HeapAt.inHeap_iff (h : HeapAt s heap H) (p : NodePtr) : InHeap s heap p ↔ p ∈ H.elems := by
  rw [Heap.mem_elems, InHeap, h.min_eq]
  constructor
  · rintro (hm | hr)
    · exact .inr hm
    exact .inl (hr.mem_elems h.rep)
  rintro (hf | hm)
  · exact .inr (h.rep.reach hf)
  exact .inl hm

theorem HeapAt.holds (h : HeapAt s heap H) : Holds s heap (H.elems.map fun p => (s.node p).value) :=
  ⟨⟨H.elems, h.nodup⟩, fun p => (h.inHeap_iff p).symm, rfl⟩

theorem Holds.unique {m m' : Multiset V} (h : Holds s heap m) (h' : Holds s heap m') : m = m' := by
  obtain ⟨nodes, hm, rfl⟩ := h
  obtain ⟨nodes', hmem', rfl⟩ := h'
  have heq : nodes = nodes' := by
    ext p
    rw [hm, hmem']
  rw [heq]

theorem Rep.degree_tree (hrep : Rep s par h f)
    {t : NodePtr × Nat × Forest NodePtr} (ht : t ∈ f.trees) : (s.node t.1).degree = t.2.1 := by
  induction f generalizing h with
  | nil => cases ht
  | node a d c n _ ihn =>
    obtain ⟨_, _, hdeg, _, hn⟩ := hrep
    rcases List.mem_cons.mp ht with rfl | ht
    · exact hdeg
    exact ihn hn ht

theorem HeapAt.wellFormed {hp : V → V → Bool} (h : HeapAt s heap H) (hwf : H.WF)
    (hord : H.Ordered (byValue hp s)) : WellFormed hp s heap :=
  ⟨H.forest, h.rep, Heap.nodup_forest h.nodup, hwf.increasing,
    fun _ ht => ⟨h.rep.degree_tree ht, hwf.shaped.card_tree ht⟩, hord.forest,
    fun _ => h.min_not_mem⟩

/-! ### Systems of heaps -/

structure HeapSystem (ι V : Type) where
  store : Store V
  heap : ι → Bheap
  higherPrio : V → V → Bool

inductive Op (ι V : Type) where
  | nodeInit (h : HandlePtr) (v : V)
  | setPrio (hp : V → V → Bool)
  | insert (i : ι) (p : NodePtr)
  | union (i j : ι)
  | peek (i : ι)
  | take (i : ι)
  | uncacheMin (i : ι)
  | delete (hp : V → V → Bool) (i : ι) (p : NodePtr)
  | raise (hp : V → V → Bool) (i : ι) (p : NodePtr)

def Queued (st : HeapSystem ι V) (p : NodePtr) : Prop := ∃ i, InHeap st.store (st.heap i) p

def Legal (st : HeapSystem ι V) : Op ι V → Prop
  | .nodeInit h _ => ¬Queued st (st.store.handle h)
  | .setPrio hp => ∀ a b, Queued st a → Queued st b →
      byValue hp st.store a b = byValue st.higherPrio st.store a b
  | .insert _ p => ¬Queued st p ∧
      StrictWeakOn (byValue st.higherPrio st.store) {q | Queued st q ∨ q = p}
  | .union i j => i ≠ j
  | .peek _ | .take _ | .uncacheMin _ => True
  | .delete hp i p => InHeap st.store (st.heap i) p ∧
      ∀ a b, Queued st a → Queued st b → a ≠ p → b ≠ p →
        byValue hp st.store a b = byValue st.higherPrio st.store a b
  | .raise hp i p => InHeap st.store (st.heap i) p ∧
      (∀ a b, Queued st a → Queued st b → a ≠ p → b ≠ p →
        byValue hp st.store a b = byValue st.higherPrio st.store a b) ∧
      (∀ a, Queued st a → a ≠ p → byValue hp st.store a p → byValue st.higherPrio st.store a p) ∧
      StrictWeakOn (byValue hp st.store) {q | Queued st q}

variable [DecidableEq ι]

/-- Run one operation.  The first component is the node a peek or take returns. -/
def exec (st : HeapSystem ι V) : Op ι V → Option (Option NodePtr × HeapSystem ι V)
  | .nodeInit h v => some (none, { st with store := bheapNodeInit h v st.store })
  | .setPrio hp => some (none, { st with higherPrio := hp })
  | .insert i p => (bheapInsert st.higherPrio (st.heap i) p st.store).map fun (heap, s) =>
      (none, { st with store := s, heap := Function.update st.heap i heap })
  | .union i j => (bheapUnion st.higherPrio (st.heap i) (st.heap j) st.store).map
      fun (target, addition, s) => (none, { st with
        store := s
        heap := Function.update (Function.update st.heap i target) j addition })
  | .peek i => (bheapPeek st.higherPrio (st.heap i) st.store).map fun (res, heap, s) =>
      (res, { st with store := s, heap := Function.update st.heap i heap })
  | .take i => (bheapTake st.higherPrio (st.heap i) st.store).map fun (res, heap, s) =>
      (res, { st with store := s, heap := Function.update st.heap i heap })
  | .uncacheMin i => (bheapUncacheMin st.higherPrio (st.heap i) st.store).map fun (heap, s) =>
      (none, { st with store := s, heap := Function.update st.heap i heap })
  | .delete hp i p => (bheapDelete hp (st.heap i) p st.store).map fun (heap, s) =>
      (none, { store := s, heap := Function.update st.heap i heap, higherPrio := hp })
  | .raise hp i p =>
      match bheapDecrease hp p st.store with
      | none => none
      | some (true, s) => some (none, { st with store := s, higherPrio := hp })
      | some (false, s) => (bheapUncacheMin hp (st.heap i) s).map fun (heap, s) =>
          (none, { store := s, heap := Function.update st.heap i heap, higherPrio := hp })

/-! ### Abstract queues -/

structure Queues (ι V : Type) where
  queue : ι → Multiset V
  higherPrio : V → V → Bool

inductive Event (ι V : Type) where
  | setPrio (hp : V → V → Bool)
  | insert (i : ι) (v : V)
  | union (i j : ι)
  | peek (i : ι) (v : Option V)
  | take (i : ι) (v : Option V)
  | remove (hp : V → V → Bool) (i : ι) (v : V)
  | internal

/-- `v` is the answer of a priority queue that holds `m`. -/
def Answers (hp : V → V → Bool) (m : Multiset V) : Option V → Prop
  | none => m = 0
  | some v => v ∈ m ∧ ∀ w ∈ m, ¬hp w v

/-- One step of a family of multiset priority queues. -/
inductive QueueStep : Queues ι V → Event ι V → Queues ι V → Prop
  | setPrio (Q : Queues ι V) (hp : V → V → Bool) :
      QueueStep Q (.setPrio hp) { Q with higherPrio := hp }
  | insert (Q : Queues ι V) (i : ι) (v : V) :
      QueueStep Q (.insert i v) { Q with queue := Function.update Q.queue i (v ::ₘ Q.queue i) }
  | union (Q : Queues ι V) {i j : ι} (hij : i ≠ j) : QueueStep Q (.union i j) { Q with
        queue := Function.update (Function.update Q.queue i (Q.queue i + Q.queue j)) j 0 }
  | peek (Q : Queues ι V) (i : ι) {v : Option V} (hv : Answers Q.higherPrio (Q.queue i) v) :
      QueueStep Q (.peek i v) Q
  | takeNone (Q : Queues ι V) (i : ι) (hv : Answers Q.higherPrio (Q.queue i) none) :
      QueueStep Q (.take i none) Q
  | takeSome (Q : Queues ι V) (i : ι) {v : V} {m : Multiset V}
      (hv : Answers Q.higherPrio (Q.queue i) (some v)) (hm : Q.queue i = v ::ₘ m) :
      QueueStep Q (.take i (some v)) { Q with queue := Function.update Q.queue i m }
  | remove (Q : Queues ι V) (hp : V → V → Bool) (i : ι) {v : V} {m : Multiset V}
      (hm : Q.queue i = v ::ₘ m) :
      QueueStep Q (.remove hp i v) { queue := Function.update Q.queue i m, higherPrio := hp }
  | internal (Q : Queues ι V) : QueueStep Q .internal Q

omit [DecidableEq ι] in
/-- What a client sees of an operation: values instead of nodes. -/
def observe (st : HeapSystem ι V) (op : Op ι V) (res : Option NodePtr) : Event ι V :=
  match op with
  | .nodeInit _ _ | .uncacheMin _ => .internal
  | .setPrio hp | .raise hp _ _ => .setPrio hp
  | .insert i p => .insert i (st.store.node p).value
  | .union i j => .union i j
  | .peek i => .peek i (res.map fun p => (st.store.node p).value)
  | .take i => .take i (res.map fun p => (st.store.node p).value)
  | .delete hp i p => .remove hp i (st.store.node p).value

/-- A legal operation, labelled with what a client sees of it. -/
def SystemStep (st : HeapSystem ι V) (e : Event ι V) (st' : HeapSystem ι V) : Prop :=
  ∃ op res, Legal st op ∧ exec st op = some (res, st') ∧ e = observe st op res

/-! ### The invariant of a system -/

/-- The heaps stand for functional heaps `H` in disjoint parts of the memory. -/
structure SystemInv (st : HeapSystem ι V) (H : ι → Heap NodePtr) : Prop where
  heapAt : ∀ i, HeapAt st.store (st.heap i) (H i)
  disjoint : ∀ i j, i ≠ j → Disjoint (H i).elems (H j).elems
  wf : ∀ i, (H i).WF
  strictWeak : StrictWeakOn (byValue st.higherPrio st.store) {q | ∃ i, q ∈ (H i).elems}
  ordered : ∀ i, (H i).Ordered (byValue st.higherPrio st.store)

def queues (st : HeapSystem ι V) (H : ι → Heap NodePtr) : Queues ι V where
  queue i := (H i).elems.map fun p => (st.store.node p).value
  higherPrio := st.higherPrio

section Invariant

variable {st : HeapSystem ι V} {H : ι → Heap NodePtr}

omit [DecidableEq ι] in
theorem SystemInv.queued_iff (inv : SystemInv st H) (p : NodePtr) :
    Queued st p ↔ ∃ i, p ∈ (H i).elems := by
  simp [Queued, (inv.heapAt _).inHeap_iff]

variable {i : ι} {K : Heap NodePtr} {X : Multiset NodePtr} {σ : Equiv.Perm NodePtr}
  {hp : V → V → Bool}

/-- One heap changes, and with it the values in a part `X` of the memory that no
    other heap uses. -/
theorem SystemInv.update (inv : SystemInv st H)
        (hat : HeapAt s heap K) (hmo : Moved X σ st.store s)
    (hX : ∀ q, q ∈ X ∨ q ∈ K.elems → ∀ j, j ≠ i → q ∉ (H j).elems) (hwf : K.WF)
    (hord : K.Ordered (byValue hp s))
    (hagr : ∀ j, j ≠ i → ∀ a ∈ (H j).elems, ∀ b ∈ (H j).elems,
      byValue hp st.store a b = byValue st.higherPrio st.store a b)
    (hS : StrictWeakOn (byValue hp s) {q | q ∈ K.elems ∨ ∃ j, j ≠ i ∧ q ∈ (H j).elems}) :
    SystemInv { store := s, heap := Function.update st.heap i heap, higherPrio := hp }
      (Function.update H i K) := by
  have hou : ∀ j, j ≠ i → ∀ q ∈ (H j).elems, q ∉ X := fun j hj q hq hqX =>
    hX q (.inl hqX) j hj hq
  refine ⟨fun j => ?_, fun j k hjk => ?_, fun j => ?_, hS.mono ?_, fun j => ?_⟩
  · by_cases hj : j = i
    · subst hj
      simpa using hat
    simp only [update_of_ne hj]
    exact (inv.heapAt j).frame fun q hq => hmo.frame q (hou j hj q hq)
  · by_cases hj : j = i
    · subst hj
      rw [update_self, update_of_ne (Ne.symm hjk), Multiset.disjoint_left]
      exact fun hq => hX _ (.inr hq) k (Ne.symm hjk)
    by_cases hk : k = i
    · subst hk
      rw [update_self, update_of_ne hjk, Multiset.disjoint_right]
      exact fun hq => hX _ (.inr hq) j hjk
    rw [update_of_ne hj, update_of_ne hk]
    exact inv.disjoint j k hjk
  · by_cases hj : j = i
    · subst hj
      simpa using hwf
    rw [update_of_ne hj]
    exact inv.wf j
  · rintro q ⟨j, hq⟩
    by_cases hj : j = i
    · subst hj
      rw [update_self] at hq
      exact .inl hq
    rw [update_of_ne hj] at hq
    exact .inr ⟨j, hj, hq⟩
  · by_cases hj : j = i
    · subst hj
      simpa using hord
    rw [update_of_ne hj]
    refine (inv.ordered j).congr fun a ha b hb hab => ?_
    simp only [hmo.byValue_eq, hmo.fixed a (hou j hj a ha),
      hmo.fixed b (hou j hj b hb), hagr j hj a ha b hb] at hab
    exact hab

theorem queues_update {heap : Bheap} {s : Store V}
    (hmo : Moved X σ st.store s)
    (hX : ∀ q ∈ X, ∀ j, j ≠ i → q ∉ (H j).elems) :
    queues { store := s, heap := update st.heap i heap, higherPrio := hp }
        (update H i K) =
      { queue := update (queues st H).queue i
          (K.elems.map fun p => (s.node p).value)
        higherPrio := hp } := by
  simp only [queues, Queues.mk.injEq, and_true]
  funext j
  by_cases hj : j = i
  · subst hj
    simp
  rw [update_of_ne hj, update_of_ne hj]
  refine Multiset.map_congr rfl fun q hq => ?_
  rw [hmo.frame q fun hqX => hX q hqX j hj hq]

omit [DecidableEq ι] in
theorem SystemInv.not_mem_of_mem (inv : SystemInv st H) {q : NodePtr}
    (hq : q ∈ (H i).elems) : ∀ j, j ≠ i → q ∉ (H j).elems := fun j hj hq' =>
  Multiset.disjoint_left.mp (inv.disjoint i j (Ne.symm hj)) hq hq'

theorem SystemInv.relink (inv : SystemInv st H)
    (hat : HeapAt s heap K) (hw : Within (H i).elems st.store s)
    (hsu : ∀ q ∈ K.elems, q ∈ (H i).elems) (hwf : K.WF)
    (hord : K.Ordered (byValue st.higherPrio st.store)) :
    SystemInv { st with store := s, heap := Function.update st.heap i heap }
      (Function.update H i K) := by
  have hby := hw.byValue_eq st.higherPrio
  refine inv.update hat (Moved.of_within hw) ?_ hwf (by rw [hby]; exact hord)
    (fun _ _ _ _ _ _ => rfl) ?_
  · rintro q (hq | hq)
    · exact inv.not_mem_of_mem hq
    exact inv.not_mem_of_mem (hsu q hq)
  rw [hby]
  refine inv.strictWeak.mono ?_
  rintro q (hq | ⟨j, _, hq⟩)
  · exact ⟨i, hsu q hq⟩
  exact ⟨j, hq⟩

theorem queues_relink (inv : SystemInv st H)
    (hw : Within (H i).elems st.store s) :
    queues { st with store := s, heap := update st.heap i heap } (update H i K) =
      { queues st H with
        queue := update (queues st H).queue i
          (K.elems.map fun p => (st.store.node p).value) } := by
  rw [queues_update (Moved.of_within hw) fun q hq => inv.not_mem_of_mem hq]
  simp [queues, hw.value]

end Invariant

end Litmus.LinkedHeap
