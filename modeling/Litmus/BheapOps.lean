import Litmus.BheapBubble

/-!
# The heap operations in linked memory refine the functional heap

`HeapAt s heap H` says that `heap` stands in memory `s` for the functional heap
`H` over node addresses.  Each operation of `bheap.h` then succeeds and is the
functional operation of the same name, nodes being compared by their values; it
writes only nodes of its own heap.  `bheap_delete` and `bheap_decrease` also move
values between nodes; there the functional heap is read through the permutation.
-/

namespace Litmus.LinkedHeap

open BinomialForest Forest Option
open Multiset (mem_cons nodup_cons mem_cons_of_mem nodup_add)

variable {V : Type}

structure HeapAt (s : Store V) (heap : Bheap) (H : Heap NodePtr) : Prop where
  min_eq : H.min = heap.min
  rep : Rep s none heap.head H.forest
  nodup : H.elems.Nodup
  min_parent : ∀ m, heap.min = some m → (s.node m).parent = none

namespace HeapAt

variable {s s' : Store V} {heap : Bheap} {H : Heap NodePtr}

theorem frame (h : HeapAt s heap H) (hs : ∀ q ∈ H.elems, s'.node q = s.node q) :
    HeapAt s' heap H where
  min_eq := h.min_eq
  rep := h.rep.frame fun q hq => hs q (Heap.mem_elems.mpr (.inl hq))
  nodup := h.nodup
  min_parent m hm := by
    rw [hs m (Heap.mem_elems.mpr (.inr (h.min_eq.trans hm)))]
    exact h.min_parent m hm

theorem min_not_mem (h : HeapAt s heap H) {m : NodePtr} (hm : heap.min = some m) :
    m ∉ H.forest.elems := by
  have hnd := h.nodup
  rw [Heap.elems_eq_cons (h.min_eq.trans hm), nodup_cons] at hnd
  exact hnd.1

end HeapAt

variable {heap : Bheap} {s : Store V} {p : NodePtr} {H : Heap NodePtr}

theorem heapAt_init (s : Store V) : HeapAt s bheapInit Heap.empty where
  min_eq := rfl
  rep := rfl
  nodup := Multiset.nodup_zero
  min_parent m hm := by cases hm

/-! ### Insertion, cache, union -/

theorem resetNode_within (p : NodePtr) (s : Store V) : Within {p} s (resetNode p s) :=
  modify_within s p _ rfl rfl

theorem rep_resetNode (p : NodePtr) (s : Store V) :
    Rep (resetNode p s) none (some p) (.node p 0 .nil .nil) := by
  simp [Rep, resetNode]

section

variable (hp : V → V → Bool)

include hp

theorem addNode_spec {f : Forest NodePtr} (hf : Rep s none heap.head f)
    (hnd : (p ::ₘ f.elems).Nodup) :
    ∃ heap' s', rawBheapUnion hp heap (some p) (resetNode p s) = some (heap', s') ∧
      heap'.min = heap.min ∧ Rep s' none heap'.head (Heap.addTree (byValue hp s) p f) ∧
      Within (p ::ₘ f.elems) s s' := by
  have hw := resetNode_within p s
  have hpf : p ∉ f.elems := (nodup_cons.mp hnd).1
  have hf' := hf.frame fun q hq => hw.frame q (by simpa using fun h : q = p => hpf (h ▸ hq))
  have hse : f.elems + (Forest.node p 0 Forest.nil Forest.nil).elems = p ::ₘ f.elems := by
    simp [add_comm]
  obtain ⟨heap', s', hr, hmin, hre, hw'⟩ := rawBheapUnion_spec hp hf' (rep_resetNode p s)
    (by rw [hse]; exact hnd)
  rw [hse] at hw'
  refine ⟨heap', s', hr, hmin, ?_, (hw.mono (by simp)).trans hw'⟩
  rw [hw.byValue_eq] at hre
  exact hre

theorem bheapInsert_spec (h : HeapAt s heap H) (hfr : p ∉ H.elems) :
    ∃ heap' s', bheapInsert hp heap p s = some (heap', s') ∧
      HeapAt s' heap' (H.insert (byValue hp s) p) ∧ Within (p ::ₘ H.elems) s s' := by
  have hnd : (p ::ₘ H.elems).Nodup := nodup_cons.mpr ⟨hfr, h.nodup⟩
  have hni : (H.insert (byValue hp s) p).elems.Nodup := by
    rw [Heap.elems_insert]
    exact hnd
  have hpf : p ∉ H.forest.elems := fun h' => hfr (Heap.mem_elems.mpr (.inl h'))
  have hnf : (p ::ₘ H.forest.elems).Nodup := nodup_cons.mpr ⟨hpf, Heap.nodup_forest h.nodup⟩
  have hsu : ∀ q ∈ p ::ₘ H.forest.elems, q ∈ p ::ₘ H.elems := fun q hq => by
    rcases mem_cons.mp hq with rfl | hq
    · simp
    exact mem_cons_of_mem (Heap.mem_elems.mpr (.inl hq))
  cases hm : heap.min with
  | none =>
    obtain ⟨heap', s', hr, hmi, hre, hw⟩ := addNode_spec hp h.rep hnf
    have hHm : H.min = none := h.min_eq.trans hm
    refine ⟨heap', s', ?_, ⟨?_, ?_, hni, ?_⟩, hw.mono hsu⟩
    · simp only [bheapInsert, hm]
      exact hr
    · simp [Heap.insert, hHm, hmi, hm]
    · simp only [Heap.insert, hHm]
      exact hre
    intro m hm'
    rw [hmi, hm] at hm'
    cases hm'
  | some m =>
    have hHm : H.min = some m := h.min_eq.trans hm
    have hmp : m ≠ p := fun h' => hfr (Heap.mem_elems.mpr (.inr (h' ▸ hHm)))
    have hmf := h.min_not_mem hm
    by_cases hwi : byValue hp s p m
    · -- the cached node goes back into the forest, the new node into the cache
      have hw1 := resetNode_within p s
      have hrep1 :=
        h.rep.frame fun q hq => hw1.frame q (by simpa using fun h' : q = p => hpf (h' ▸ hq))
      obtain ⟨heap', s', hr, hmi, hre, hw⟩ := addNode_spec hp hrep1
        (nodup_cons.mpr ⟨hmf, Heap.nodup_forest h.nodup⟩)
      have hpou : s'.node p = (resetNode p s).node p := by
        apply hw.frame
        simp only [mem_cons, not_or]
        exact ⟨Ne.symm hmp, hpf⟩
      refine ⟨{ heap' with min := some p }, s', ?_, ⟨?_, ?_, hni, ?_⟩, ?_⟩
      · have hwin' : hp ((resetNode p s).node p).value ((resetNode p s).node m).value = true := by
          rw [hw1.value, hw1.value]
          exact hwi
        simp [bheapInsert, hm, if_pos hwin', hr]
      · simp [Heap.insert, hHm, if_pos hwi]
      · simp only [Heap.insert, hHm, if_pos hwi]
        rw [hw1.byValue_eq] at hre
        exact hre
      · intro m' hm'
        cases hm'
        rw [hpou]
        simp [resetNode]
      · refine (hw1.mono (by simp)).trans (hw.mono fun q hq => ?_)
        rcases mem_cons.mp hq with rfl | hq
        · exact mem_cons_of_mem (Heap.mem_elems.mpr (.inr hHm))
        exact hsu q (mem_cons_of_mem hq)
    obtain ⟨heap', s', hr, hmi, hre, hw⟩ := addNode_spec hp h.rep hnf
    have hmou : s'.node m = s.node m := by
      apply hw.frame
      simp only [mem_cons, not_or]
      exact ⟨hmp, hmf⟩
    refine ⟨heap', s', ?_, ⟨?_, ?_, hni, ?_⟩, hw.mono hsu⟩
    · have hwin' : ¬hp ((resetNode p s).node p).value ((resetNode p s).node m).value = true := by
        rw [(resetNode_within p s).value, (resetNode_within p s).value]
        exact hwi
      simp only [bheapInsert, hm, if_neg hwin']
      exact hr
    · simp [Heap.insert, hHm, if_neg hwi, hmi, hm]
    · simp only [Heap.insert, hHm, if_neg hwi]
      exact hre
    · intro m' hm'
      rw [hmi, hm] at hm'
      cases hm'
      rw [hmou]
      exact h.min_parent m hm

theorem bheapUncacheMin_spec (h : HeapAt s heap H) :
    ∃ heap' s', bheapUncacheMin hp heap s = some (heap', s') ∧
      HeapAt s' heap' (H.uncacheMin (byValue hp s)) ∧ Within H.elems s s' := by
  cases hm : heap.min with
  | none =>
    have hHm : H.min = none := h.min_eq.trans hm
    refine ⟨heap, s, by simp [bheapUncacheMin, hm], ?_, Within.refl _ s⟩
    simp only [Heap.uncacheMin, hHm]
    exact h
  | some m =>
    have hHm : H.min = some m := h.min_eq.trans hm
    have h' : HeapAt s { heap with min := none } { H with min := none } :=
      ⟨rfl, h.rep, by simpa using Heap.nodup_forest h.nodup, fun _ hm' => by cases hm'⟩
    obtain ⟨heap', s', hr, hat, hw⟩ := bheapInsert_spec hp h' (p := m)
      (by simpa using h.min_not_mem hm)
    refine ⟨heap', s', ?_, ?_, ?_⟩
    · simp only [bheapUncacheMin, hm]
      exact hr
    · simp only [Heap.uncacheMin, hHm]
      exact hat
    rw [Heap.elems_eq_cons hHm]
    simpa using hw

theorem bheapUnion_spec {target addition : Bheap} {K : Heap NodePtr}
    (hH : HeapAt s target H) (hK : HeapAt s addition K) (hdi : Disjoint H.elems K.elems) :
    ∃ target' s', bheapUnion hp target addition s = some (target', bheapInit, s') ∧
      HeapAt s' target' (H.union (byValue hp s) K) ∧ Within (H.elems + K.elems) s s' := by
  obtain ⟨t1, s1, hrun1, hat1, hw1⟩ := bheapUncacheMin_spec hp hH
  have hK1 : HeapAt s1 addition K :=
    hK.frame fun q hq => hw1.frame q (Multiset.disjoint_right.mp hdi hq)
  obtain ⟨a2, s2, hrun2, hat2, hw2⟩ := bheapUncacheMin_spec hp hK1
  rw [hw1.byValue_eq] at hat2
  have hH2 : HeapAt s2 t1 (H.uncacheMin (byValue hp s)) := by
    refine hat1.frame fun q hq => hw2.frame q ?_
    rw [Heap.elems_uncacheMin] at hq
    exact Multiset.disjoint_left.mp hdi hq
  have hpar : ((H.uncacheMin (byValue hp s)).forest.elems +
      (K.uncacheMin (byValue hp s)).forest.elems).Nodup := by
    rw [Heap.elems_forest_uncacheMin, Heap.elems_forest_uncacheMin]
    exact nodup_add.mpr ⟨hH.nodup, hK.nodup, hdi⟩
  obtain ⟨t3, s3, hrun3, hmin3, hrep3, hw3⟩ := rawBheapUnion_spec hp hH2.rep hat2.rep hpar
  rw [Heap.elems_forest_uncacheMin, Heap.elems_forest_uncacheMin] at hw3
  rw [hw2.byValue_eq, hw1.byValue_eq] at hrep3
  have hami : a2.min = none := hat2.min_eq.symm.trans (Heap.min_uncacheMin _ K)
  have htm : t3.min = none := hmin3.trans (hH2.min_eq.symm.trans (Heap.min_uncacheMin _ H))
  refine ⟨t3, s3, ?_, ⟨?_, hrep3, ?_, ?_⟩, ?_⟩
  · have hem : ({ a2 with head := none } : Bheap) = bheapInit := by
      simp [bheapInit, hami]
    simp [bheapUnion, hrun1, hrun2, hrun3, hem]
  · rw [htm]
    exact Heap.min_uncacheMin _ H
  · rw [Heap.elems_union]
    exact nodup_add.mpr ⟨hH.nodup, hK.nodup, hdi⟩
  · intro m hm
    rw [htm] at hm
    cases hm
  · exact ((hw1.mono (by simp +contextual)).trans (hw2.mono (by simp +contextual))).trans hw3

/-! ### The minimum -/

section

variable (h : HeapAt s heap H)
include h

theorem cacheMin_spec : ∃ heap' s', cacheMin hp heap s = some (heap', s') ∧
      HeapAt s' heap' (H.cacheMin (byValue hp s)) ∧ Within H.elems s s' := by
  have hnd : (H.cacheMin (byValue hp s)).elems.Nodup := by
    rw [Heap.elems_cacheMin]
    exact h.nodup
  obtain ⟨f, m⟩ := H
  cases hm : heap.min with
  | some m' =>
    have hHm : m = some m' := h.min_eq.trans hm
    subst hHm
    exact ⟨heap, s, by simp [cacheMin, hm], h, Within.refl _ s⟩
  | none =>
    have hHm : m = none := h.min_eq.trans hm
    subst hHm
    cases f with
    | nil =>
      have hhea : heap.head = none := h.rep
      refine ⟨{ heap with min := none }, s, ?_, ⟨rfl, h.rep, h.nodup, fun _ h' => by cases h'⟩,
        Within.refl _ s⟩
      simp [cacheMin, hm, rawBheapExtractMin, rawBheapMin, hhea]
    | node a d c n =>
      have hnf := Heap.nodup_forest h.nodup
      obtain ⟨heap', s', hr, hmin, hrep, hw⟩ := rawBheapExtractMin_spec hp h.rep hnf
      have hro := Heap.minRoot_mem_roots (byValue hp s) a d c n
      have hsp := elems_extract (byValue hp s) hro
      have hout : minRoot (byValue hp s) a n ∉
          (extract (byValue hp s) (minRoot (byValue hp s) a n) (.node a d c n)).elems := by
        rw [hsp] at hnf
        exact (nodup_cons.mp hnf).1
      refine ⟨{ heap' with min := some (minRoot (byValue hp s) a n) }, s', ?_,
        ⟨rfl, hrep, hnd, ?_⟩, ?_⟩
      · simp [cacheMin, hm, hr]
      · intro m hm'
        cases hm'
        rw [hw.frame _ hout]
        exact h.rep.parent_root hro
      refine hw.mono fun q hq => ?_
      rw [Heap.elems_mk_none, hsp]
      exact mem_cons_of_mem hq

theorem bheapPeek_spec :
    ∃ heap' s', bheapPeek hp heap s = some ((H.peek (byValue hp s)).1, heap', s') ∧
      HeapAt s' heap' (H.peek (byValue hp s)).2 ∧ Within H.elems s s' := by
  obtain ⟨heap', s', hr, hat, hw⟩ := cacheMin_spec hp h
  refine ⟨heap', s', ?_, hat, hw⟩
  simp [bheapPeek, hr, Heap.peek, hat.min_eq]

theorem bheapTake_spec :
    ∃ heap' s', bheapTake hp heap s = some ((H.take (byValue hp s)).1, heap', s') ∧
      HeapAt s' heap' (H.take (byValue hp s)).2 ∧ Within H.elems s s' ∧
      ∀ p, (H.take (byValue hp s)).1 = some p → (s'.node p).degree = notInHeap := by
  obtain ⟨heap', s', hr, hat, hw⟩ := cacheMin_spec hp h
  have hdr : HeapAt s' { heap' with min := none }
      { H.cacheMin (byValue hp s) with min := none } :=
    ⟨rfl, hat.rep, by simpa using Heap.nodup_forest hat.nodup, fun _ hm => by cases hm⟩
  cases hm : heap'.min with
  | none =>
    have hHm := hat.min_eq.trans hm
    refine ⟨{ heap' with min := none }, s', ?_, hdr, hw, ?_⟩
    · simp [bheapTake, hr, hm, Heap.take, hHm]
    intro p hp'
    simp only [Heap.take, hHm] at hp'
    cases hp'
  | some m =>
    have hHm := hat.min_eq.trans hm
    have hmH : m ∈ H.elems := by
      rw [← Heap.elems_cacheMin (byValue hp s) H]
      exact Heap.mem_elems.mpr (.inr hHm)
    have hw' := modify_within s' m (fun n => { n with degree := notInHeap }) rfl rfl
    refine ⟨{ heap' with min := none }, s'.modify m fun n => { n with degree := notInHeap },
      ?_, ?_, ?_, ?_⟩
    · simp [bheapTake, hr, hm, Heap.take, hHm]
    · refine hdr.frame fun q hq => hw'.frame q ?_
      rw [Heap.elems_eq_forest rfl] at hq
      simpa using fun h' : q = m => hat.min_not_mem hm (h' ▸ hq)
    · exact hw.trans (hw'.mono (by simp [hmH]))
    intro p hp'
    simp only [Heap.take, hHm, some.injEq] at hp'
    rw [← hp', Store.node_modify_self]

/-! ### Delete and decrease -/

/-- Bubbling up inside a heap: the loop ends, at a root or at a node that is held
    down. -/
theorem bubbleUp_heap (hpf : p ∈ H.forest.elems) :
    ∃ (σ : Equiv.Perm NodePtr) (s' : Store V) (r : NodePtr) (top : Bool),
      bubbleUpLoop hp stepBound p s = some (r, !top, s') ∧
      lift (byValue hp s) p H.forest = some (H.forest.map σ, top) ∧
      Moved H.forest.elems σ s s' ∧ HeapAt s' heap H ∧ r ∈ H.forest.elems ∧ σ r = p ∧
      (top = true → r ∈ H.forest.roots) := by
  obtain ⟨σ, s', r, top, k, hlif, hmo, hln, hr, hσr, hk, hto, hh⟩ :=
    bubbleUpLoop_spec hp H.forest p none heap.head s h.rep (Heap.nodup_forest h.nodup) hpf
  have hcar := card_le_of_nodup (Heap.nodup_forest h.nodup)
  have hat : HeapAt s' heap H :=
    ⟨h.min_eq, h.rep.frame_links fun q _ => hln q, h.nodup, fun m hm => by
      rw [(hln m).parent]
      exact h.min_parent m hm⟩
  obtain ⟨fuel, hfu⟩ : ∃ fuel, stepBound = fuel + 1 + k := ⟨stepBound - 1 - k, by omega⟩
  refine ⟨σ, s', r, top, ?_, hlif, hmo, hat, hr, hσr, fun ht => (hto ht).1⟩
  cases top with
  | true =>
    obtain ⟨hroo, hrun⟩ := hto rfl
    have hpar : (s'.node r).parent = none := by
      rw [(hln r).parent]
      exact h.rep.parent_root hroo
    rw [hfu, hrun]
    simp [bubbleUpLoop, hpar]
  | false =>
    rw [hfu, show fuel + 1 + k = fuel + k + 1 by omega, hh rfl]
    rfl

theorem bheapDecrease_spec (hmem : p ∈ H.elems) :
    ∃ (held : Bool) (s' : Store V) (σ : Equiv.Perm NodePtr),
      bheapDecrease hp p s = some (held, s') ∧
      H.decrease (byValue hp s) p = some (held, H.map σ) ∧ HeapAt s' heap H ∧
      Moved H.elems σ s s' := by
  by_cases hm : heap.min = some p
  · refine ⟨false, s, Equiv.refl NodePtr, ?_, ?_, h, Moved.of_within (Within.refl _ s)⟩
    · have hfue : stepBound = 2 ^ 64 + 1 := rfl
      simp [bheapDecrease, hfue, bubbleUpLoop, h.min_parent p hm]
    rw [Heap.decrease, if_pos (h.min_eq.trans hm)]
    congr 2
    simp [Heap.map]
  have hHm : H.min ≠ some p := fun h' => hm (h.min_eq.symm.trans h')
  obtain ⟨σ, s', r, top, hrun, hlif, hmo, hat, hr, hσr, _⟩ :=
    bubbleUp_heap hp h ((Heap.mem_elems.mp hmem).resolve_right hHm)
  refine ⟨!top, s', σ, ?_, ?_, hat, hmo.mono fun q hq => Heap.mem_elems.mpr (.inl hq)⟩
  · simp [bheapDecrease, hrun]
  rw [Heap.decrease, if_neg hHm, hlif]
  simp only [map_some, Heap.map]
  congr 3
  cases hmin : H.min with
  | none => rfl
  | some m =>
    rw [map_some, hmo.fixed m (h.min_not_mem (h.min_eq.symm.trans hmin))]

/-- `bheap_delete` unlinks one node `r`, in general not the one it was called with:
    `r` then holds the deleted value and is marked as being in no heap. -/
theorem bheapDelete_spec (hme : p ∈ H.elems) :
    ∃ (heap' : Bheap) (s' : Store V) (H' : Heap NodePtr) (σ : Equiv.Perm NodePtr)
      (r : NodePtr), bheapDelete hp heap p s = some (heap', s') ∧
      H.delete (byValue hp s) p = some (H'.map σ) ∧ HeapAt s' heap' H' ∧
      Moved H.elems σ s s' ∧ H.elems = r ::ₘ H'.elems ∧ σ r = p ∧
      (s'.node r).degree = notInHeap := by
  by_cases hm : heap.min = some p
  · have hHm := h.min_eq.trans hm
    have hw := modify_within s p (fun n => { n with degree := notInHeap }) rfl rfl
    refine ⟨{ heap with min := none }, s.modify p fun n => { n with degree := notInHeap },
      { H with min := none }, Equiv.refl NodePtr, p, ?_, ?_, ⟨rfl, ?_, ?_, ?_⟩, ?_, ?_, rfl, ?_⟩
    · simp [bheapDelete, hm]
    · rw [Heap.delete, if_pos hHm]
      simp [Heap.map]
    · exact h.rep.frame fun q hq =>
        hw.frame q (by simpa using fun h' : q = p => h.min_not_mem hm (h' ▸ hq))
    · simpa using Heap.nodup_forest h.nodup
    · intro m hm'
      cases hm'
    · exact Moved.of_within (hw.mono (by simp [hme]))
    · rw [Heap.elems_eq_cons hHm, Heap.elems_eq_forest rfl]
    · simp
  have hHm : H.min ≠ some p := fun h' => hm (h.min_eq.symm.trans h')
  have hpf := (Heap.mem_elems.mp hme).resolve_right hHm
  have hnf := Heap.nodup_forest h.nodup
  obtain ⟨σ, s1, r, top, hrun, hlif, hmo, hat, hr, hσr, htop⟩ :=
    bubbleUp_heap (fun _ _ => true) h hpf
  -- nothing stops the climb, so it ends at a root
  have hra : raise p H.forest = some (H.forest.map σ) ∧ top = true := by
    have hlift' : lift (fun _ _ => true) p H.forest = some (H.forest.map σ, top) := hlif
    rw [lift_true, map_eq_some_iff] at hlift'
    obtain ⟨f, hf, hfeq⟩ := hlift'
    cases hfeq
    exact ⟨hf, rfl⟩
  have hro := htop hra.2
  have hlen : H.forest.roots.length < stepBound :=
    lt_of_le_of_lt (length_roots_le _) (card_le_of_nodup hnf)
  have hpre := findPrevLoop_spec r s1 H.forest stepBound none heap.head none hlen hat.rep hro
  obtain ⟨heap', s2, hun, hmi, hrep, hw⟩ := unlinkRoot_spec hp hat.rep hro hnf
  have hsp := elems_extract (byValue hp s1) hro
  have hrou : r ∉ (extract (byValue hp s1) r H.forest).elems := by
    rw [hsp] at hnf
    exact (nodup_cons.mp hnf).1
  have hw2 := modify_within s2 r (fun n => { n with degree := notInHeap }) rfl rfl
  have hHsplit : H.elems = r ::ₘ Heap.elems
      { forest := extract (byValue hp s1) r H.forest, min := H.min } := by
    rw [Heap.elems, hsp, Multiset.cons_add]
    rfl
  have hmem' : ∀ q ∈ (extract (byValue hp s1) r H.forest).elems, q ∈ H.forest.elems :=
    fun q hq => by
      rw [hsp]
      exact mem_cons_of_mem hq
  have hmn : ∀ m, heap.min = some m → m ∉ H.forest.elems := fun m => h.min_not_mem
  refine ⟨heap', s2.modify r fun n => { n with degree := notInHeap },
    { forest := extract (byValue hp s1) r H.forest, min := H.min }, σ, r, ?_, ?_,
    ⟨?_, ?_, ?_, ?_⟩, ?_, hHsplit, hσr, ?_⟩
  · have hne : heap.min ≠ some p := hm
    simp [bheapDelete, if_pos hne, hrun, hpre, hun]
  · rw [Heap.delete, if_neg hHm, hra.1, map_some]
    have hex := map_extract (byValue hp s) (g := σ) (r := r) (f := H.forest)
      fun q _ hq => σ.injective hq
    rw [hσr, ← hmo.byValue_eq hp] at hex
    simp only [Heap.map, hex]
    congr 2
    cases hmin' : H.min with
    | none => rfl
    | some m => rw [map_some, hmo.fixed m (hmn m (h.min_eq.symm.trans hmin'))]
  · rw [hmi]
    exact h.min_eq
  · exact hrep.frame fun q hq =>
      hw2.frame q (by simpa using fun h' : q = r => hrou (h' ▸ hq))
  · have hnd := h.nodup
    rw [hHsplit] at hnd
    exact (nodup_cons.mp hnd).2
  · intro m hm'
    rw [hmi] at hm'
    have hmr : m ≠ r := fun h' => hmn m hm' (h' ▸ hr)
    rw [hw2.frame m (by simpa using hmr), hw.frame m fun h' => hmn m hm' (hmem' m h')]
    exact hat.min_parent m hm'
  · have hmoved' : Moved H.elems σ s s1 := hmo.mono fun q hq => Heap.mem_elems.mpr (.inl hq)
    refine (hmoved'.trans_within (hw.mono fun q hq => ?_)).trans_within (hw2.mono fun q hq => ?_)
    · exact Heap.mem_elems.mpr (.inl (hmem' q hq))
    rw [Multiset.mem_singleton.mp hq]
    exact Heap.mem_elems.mpr (.inl hr)
  · simp

end

end

/-- `bheap_decrease` on a node that may beat what is above it, then `bheap_uncache_min` unless
    it says that something holds the node down. -/
theorem HeapAt.raise {hp : V → V → Bool} {X : Set NodePtr} (h : HeapAt s heap H) (hwf : H.WF)
    (hm : p ∈ H.elems) (hX : StrictWeakOn (byValue hp s) X) (hsu : ∀ q ∈ H.elems, q ∈ X)
    (hord : H.Ordered (exceptUp (byValue hp s) p)) :
    ∃ (held : Bool) (s1 : Store V) (heap' : Bheap) (s' : Store V) (K : Heap NodePtr)
      (σ : Equiv.Perm NodePtr), bheapDecrease hp p s = some (held, s1) ∧
      (if held then some (heap, s1) else bheapUncacheMin hp heap s1) = some (heap', s') ∧
      HeapAt s' heap' K ∧ K.elems = H.elems ∧ K.WF ∧ K.Ordered (byValue hp s') ∧
      Moved H.elems σ s s' ∧ (H.elems.map fun q => (s'.node q).value) =
        (H.elems.map fun q => (s.node q).value) ∧ (held = true → K = H ∧ heap' = heap) := by
  obtain ⟨held, s1, σ, hr, hdec, hat, hmo⟩ := bheapDecrease_spec hp h hm
  obtain ⟨hel, -, -, hfor, hrdr⟩ := Heap.decrease_spec hX hdec h.nodup hsu hwf hord
  have hva : ∀ {s'}, Moved H.elems σ s s' → (H.elems.map fun q => (s'.node q).value) =
      H.elems.map fun q => (s.node q).value := by
    intro s' hmoved'
    conv_rhs => rw [← hel, Heap.elems_map, Multiset.map_map]
    exact Multiset.map_congr rfl fun q _ => hmoved'.value q
  have hby := hmo.byValue_eq hp
  cases held with
  | true =>
    refine ⟨true, s1, heap, s1, H, σ, hr, rfl, hat, rfl, hwf, ?_, hmo, hva hmo,
      fun _ => ⟨rfl, rfl⟩⟩
    rw [hby]
    exact (Heap.ordered_map σ).mp (hrdr rfl)
  | false =>
    obtain ⟨heap', s', hrun', hat', hw⟩ := bheapUncacheMin_spec hp hat
    refine ⟨false, s1, heap', s', _, σ, hr, hrun', hat', Heap.elems_uncacheMin _ _, hwf.uncacheMin,
      ?_, hmo.trans_within hw, hva (hmo.trans_within hw), Bool.noConfusion⟩
    rw [hw.byValue_eq hp, hby]
    refine Heap.Ordered.uncacheMin ((hX.comap σ).mono ?_) (fun q hq => hq)
      ((heapOrdered_map σ).mp hfor)
    exact fun q hq => hsu _ (hmo.maps hq)

end Litmus.LinkedHeap
