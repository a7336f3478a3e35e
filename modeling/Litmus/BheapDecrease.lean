import Litmus.BheapRefinement

/-!
# Priority boosts

`bheap_decrease` restores a heap in which one value has become more important.  It looks
only at the nodes above the value, while the minimum may be cached outside of the forest.
Its result tells `update_queue_position` whether the cache has to be dropped.
-/

namespace Litmus.LinkedHeap

open BinomialForest Forest

variable {V : Type} {s : Store V} {heap : Bheap}

/-- A binomial heap in memory: well shaped, ordered by `hp`, and what is cached, if anything,
    is a minimum. -/
def Valid (hp : V → V → Bool) (s : Store V) (heap : Bheap) : Prop :=
  ∃ H, HeapAt s heap H ∧ H.WF ∧ H.Ordered (byValue hp s)

/-- No value of the heap beats the one of node `r`. -/
def Best (hp : V → V → Bool) (s : Store V) (heap : Bheap) (r : NodePtr) : Prop :=
  InHeap s heap r ∧ ∀ q, InHeap s heap q → ¬byValue hp s q r

/-- The value of `p` has been raised from `hp₀` to `hp`. -/
structure Raised (hp₀ hp : V → V → Bool) (s : Store V) (heap : Bheap) (p : NodePtr) : Prop where
  others : ∀ a b, InHeap s heap a → InHeap s heap b → a ≠ p → b ≠ p →
    byValue hp s a b = byValue hp₀ s a b
  raised : ∀ a, InHeap s heap a → a ≠ p → byValue hp s a p → byValue hp₀ s a p

theorem HeapAt.peek_best {hp : V → V → Bool} {H : Heap NodePtr} (h : HeapAt s heap H)
    (hS : StrictWeakOn (byValue hp s) {q | q ∈ H.elems}) (hord : H.Ordered (byValue hp s))
    (hne : H.elems ≠ 0) :
    ∃ r heap' s', bheapPeek hp heap s = some (some r, heap', s') ∧ Best hp s heap r := by
  obtain ⟨heap', s', hpee, -, -⟩ := bheapPeek_spec hp h
  cases hmi : (H.cacheMin (byValue hp s)).min with
  | none => exact absurd (Heap.min_cacheMin_eq_none.mp hmi) hne
  | some r =>
    obtain ⟨hr, hbes⟩ := Heap.cacheMin_best hS (fun _ hq => hq) hord hmi
    refine ⟨r, heap', s', hpee.trans (by rw [Heap.peek, hmi]), (h.inHeap_iff r).mpr hr, ?_⟩
    exact fun q hq => hbes q ((h.inHeap_iff q).mp hq)

/-- After `bheap_decrease`, and `bheap_uncache_min` if it returned 0, the heap is valid for the
    new priorities, holds the same values, and a peek returns one that nothing beats.  If it
    returned something else, what is cached is still beaten by nothing. -/
theorem bheap_decrease_restores {hp₀ hp : V → V → Bool} {p : NodePtr} {m : Multiset V}
    (hvalid : Valid hp₀ s heap) (hholds : Holds s heap m) (hin : InHeap s heap p)
    (hS : StrictWeakOn (byValue hp s) {q | InHeap s heap q}) (hraised : Raised hp₀ hp s heap p) :
    ∃ held s₁ heap' s', bheapDecrease hp p s = some (held, s₁) ∧
      (if held then some (heap, s₁) else bheapUncacheMin hp heap s₁) = some (heap', s') ∧
      Valid hp s' heap' ∧ Holds s' heap' m ∧
      (∃ r heap'' s'', bheapPeek hp heap' s' = some (some r, heap'', s'') ∧ Best hp s' heap' r) ∧
      (held = true → ∀ c, heap.min = some c → Best hp s₁ heap c) := by
  obtain ⟨H, hat, hwf, hord⟩ := hvalid
  have hm := (hat.inHeap_iff p).mp hin
  have hordUp : H.Ordered (exceptUp (byValue hp s) p) := by
    refine hord.congr fun a ha b hb hab => ?_
    simp only [exceptUp, Bool.and_eq_true, decide_eq_true_eq] at hab
    have hqa := (hat.inHeap_iff a).mpr ha
    by_cases hbp : b = p
    · subst hbp
      exact hraised.raised a hqa hab.2 hab.1
    rw [← hraised.others a b hqa ((hat.inHeap_iff b).mpr hb) hab.2 hbp]
    exact hab.1
  obtain ⟨held, s₁, heap', s', K, σ, hrun, hafter, hat', hK, hwf', hord', hmoved, hvals, hh⟩ :=
    hat.raise hwf hm hS (fun q hq => (hat.inHeap_iff q).mpr hq) hordUp
  have hSK : StrictWeakOn (byValue hp s') {q | q ∈ K.elems} := by
    rw [hmoved.byValue_eq hp]
    refine (hS.comap σ).mono fun q hq => (hat.inHeap_iff _).mpr (hmoved.maps (hK ▸ hq))
  have hne : K.elems ≠ 0 := by
    rw [hK]
    exact fun hz => Multiset.notMem_zero p (hz ▸ hm)
  refine ⟨held, s₁, heap', s', hrun, hafter, ⟨K, hat', hwf', hord'⟩, ?_,
    hat'.peek_best hSK hord' hne, fun ht c hc => ?_⟩
  · rw [hholds.unique hat.holds, ← hvals, ← hK]
    exact hat'.holds
  obtain ⟨rfl, rfl⟩ := hh ht
  subst ht
  cases hafter
  have hmin := hat'.min_eq.trans hc
  refine ⟨.inl hc, fun q hq => ?_⟩
  rcases hq with hq | hq
  · cases hc.symm.trans hq
    exact fun h => hSK.asymm c (Heap.mem_elems.mpr (.inr hmin)) c
      (Heap.mem_elems.mpr (.inr hmin)) h h
  exact hord'.cache c hmin q (hq.mem_elems hat'.rep)

/-- Value 3 is cached in node 7, and value 5 is in the forest, in node 9. -/
def cachedThree : Store Nat :=
  resetNode 9 (resetNode 7 (bheapNodeInit 9 5 (bheapNodeInit 7 3 restingStore)))

theorem bheap_decrease_restores_cached :
    ∃ held s₁ heap' s' r heap'' s'',
      bheapDecrease (fun a b => smaller b a) 9 cachedThree = some (held, s₁) ∧
      (if held then some (⟨some 9, some 7⟩, s₁)
        else bheapUncacheMin (fun a b => smaller b a) ⟨some 9, some 7⟩ s₁) = some (heap', s') ∧
      bheapPeek (fun a b => smaller b a) heap' s' = some (some r, heap'', s'') ∧
      Best (fun a b => smaller b a) s' heap' r := by
  have hat : HeapAt cachedThree ⟨some 9, some 7⟩ ⟨.node 9 0 .nil .nil, some 7⟩ :=
    ⟨rfl, rep_resetNode 9 _, by decide, by rintro m ⟨⟩; rfl⟩
  have hin : ∀ q, InHeap cachedThree ⟨some 9, some 7⟩ q → q = 9 ∨ q = 7 := fun q hq => by
    simpa [Heap.elems, Heap.cached] using (hat.inHeap_iff q).mp hq
  have hS : StrictWeakOn (byValue (fun a b => smaller b a) cachedThree)
      {q | InHeap cachedThree ⟨some 9, some 7⟩ q} := by
    constructor
    · intro a _ b _ hab
      simp only [byValue, smaller, decide_eq_true_eq] at hab ⊢
      omega
    intro a _ b _ c _ hab hbc
    simp only [byValue, smaller, decide_eq_true_eq] at hab hbc ⊢
    omega
  have hvalid : Valid smaller cachedThree ⟨some 9, some 7⟩ := by
    refine ⟨_, hat, ⟨⟨rfl, trivial⟩, List.pairwise_singleton _ _⟩, ⟨by simp, trivial, trivial⟩, ?_⟩
    rintro m ⟨⟩ b hb
    obtain rfl : b = 9 := by simpa using hb
    decide
  obtain ⟨held, s₁, heap', s', hrun, hafter, -, -, ⟨r, heap'', s'', hpeek, hbest⟩, -⟩ :=
    bheap_decrease_restores hvalid hat.holds (.inr (Reach.here 9)) hS
      ⟨fun a b ha hb hap hbp => by
        rw [(hin a ha).resolve_left hap, (hin b hb).resolve_left hbp]
        rfl, fun a ha hap => by
        rw [(hin a ha).resolve_left hap]
        decide⟩
  exact ⟨held, s₁, heap', s', r, heap'', s'', hrun, hafter, hpeek, hbest⟩

end Litmus.LinkedHeap
