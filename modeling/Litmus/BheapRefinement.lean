import Litmus.BheapSystem

/-!
# The heaps refine multiset priority queues

One lemma per operation shows that it succeeds, keeps the invariant of the system
and is a step of the abstract queues; the run lemma and the refinement theorem
follow by induction over runs.
-/

namespace Litmus.LinkedHeap

open BinomialForest Forest Runs Function QueueStep Multiset

variable {V ι : Type} [DecidableEq ι]

section Simulation

variable {st : HeapSystem ι V} {H : ι → Heap NodePtr}

/-! ### Every legal operation succeeds and is a step of the abstract queues -/

omit [DecidableEq ι] in
/-- The nodes an operation may touch: the queued ones and the one it inserts. -/
def Footprint (H : ι → Heap NodePtr) (op : Op ι V) (q : NodePtr) : Prop :=
  (∃ j, q ∈ (H j).elems) ∨ ∃ i, op = .insert i q

/-- The values of the touched nodes only change places. -/
def Rearranges (H : ι → Heap NodePtr) (op : Op ι V) (s s' : Store V) : Prop :=
  ∃ X σ, Moved X σ s s' ∧ ∀ q ∈ X, Footprint H op q

structure Simulates (st : HeapSystem ι V) (H : ι → Heap NodePtr) (op : Op ι V)
    (res : Option NodePtr) (st' : HeapSystem ι V) (H' : ι → Heap NodePtr) : Prop where
  exec_eq : exec st op = some (res, st')
  inv : SystemInv st' H'
  queueStep : QueueStep (queues st H) (observe st op res) (queues st' H')
  rearranges : (∃ h v, op = .nodeInit h v) ∨ Rearranges H op st.store st'.store
  footprint : ∀ i, ∀ q ∈ (H' i).elems, Footprint H op q

theorem Simulates.of_relink (inv : SystemInv st H) {op : Op ι V} {res : Option NodePtr} {i : ι}
    {heap : Bheap} {s : Store V} {K : Heap NodePtr}
    (hx : exec st op =
      some (res, { st with store := s, heap := update st.heap i heap })) (hat : HeapAt s heap K)
    (hw : Within (H i).elems st.store s) (hsu : ∀ q ∈ K.elems, q ∈ (H i).elems) (hwf : K.WF)
    (hord : K.Ordered (byValue st.higherPrio st.store))
    (hq : QueueStep (queues st H) (observe st op res)
      { queues st H with
        queue := update (queues st H).queue i (K.elems.map fun p => (st.store.node p).value) }) :
    Simulates st H op res { st with store := s, heap := update st.heap i heap } (update H i K) where
  exec_eq := hx
  inv := inv.relink hat hw hsu hwf hord
  queueStep := by
    rw [queues_relink inv hw]
    exact hq
  rearranges := .inr ⟨_, _, Moved.of_within hw, fun q hq => .inl ⟨i, hq⟩⟩
  footprint j q hq := by
    by_cases hj : j = i
    · subst hj
      rw [update_self] at hq
      exact .inl ⟨j, hsu q hq⟩
    rw [update_of_ne hj] at hq
    exact .inl ⟨j, hq⟩

theorem simulates_nodeInit (inv : SystemInv st H) {h : HandlePtr} {v : V}
    (hl : Legal st (.nodeInit h v)) :
    Simulates st H (.nodeInit h v) none { st with store := bheapNodeInit h v st.store } H := by
  have hfr : ∀ j, st.store.handle h ∉ (H j).elems := fun j hj =>
    hl ((inv.queued_iff _).mpr ⟨j, hj⟩)
  have hke : ∀ j, ∀ q ∈ (H j).elems, (bheapNodeInit h v st.store).node q = st.store.node q :=
    fun j q hq => Store.node_modify_of_ne _ (by rintro rfl; exact hfr j hq) _
  have hby : ∀ a b, (∃ i, a ∈ (H i).elems) → (∃ i, b ∈ (H i).elems) →
      byValue st.higherPrio (bheapNodeInit h v st.store) a b =
        byValue st.higherPrio st.store a b := by
    rintro a b ⟨i, ha⟩ ⟨j, hb⟩
    simp [byValue, hke i a ha, hke j b hb]
  refine ⟨rfl, ⟨fun i => ?_, inv.disjoint, inv.wf, ?_, fun i => ?_⟩, ?_, .inl ⟨h, v, rfl⟩,
    fun i q hq => .inl ⟨i, hq⟩⟩
  · exact (inv.heapAt i).frame fun q hq => hke i q hq
  · exact inv.strictWeak.congr fun a ha b hb => hby a b ha hb
  · refine (inv.ordered i).congr fun a ha b hb hab => ?_
    rw [← hby a b ⟨i, ha⟩ ⟨i, hb⟩]
    exact hab
  have hq : queues { st with store := bheapNodeInit h v st.store } H = queues st H := by
    simp only [queues, Queues.mk.injEq, and_true]
    funext i
    exact map_congr rfl fun q hq => by rw [hke i q hq]
  rw [hq]
  exact internal _

theorem simulates_setPrio (inv : SystemInv st H) {hp : V → V → Bool} (hl : Legal st (.setPrio hp)) :
    Simulates st H (.setPrio hp) none { st with higherPrio := hp } H := by
  have hag : ∀ a b, (∃ i, a ∈ (H i).elems) → (∃ i, b ∈ (H i).elems) →
      byValue hp st.store a b = byValue st.higherPrio st.store a b := fun a b ha hb =>
    hl a b ((inv.queued_iff a).mpr ha) ((inv.queued_iff b).mpr hb)
  refine ⟨rfl, ⟨inv.heapAt, inv.disjoint, inv.wf, ?_, fun i => ?_⟩, setPrio _ hp,
    .inr ⟨0, _, Moved.of_within (Within.refl 0 st.store), by simp⟩,
    fun i q hq => .inl ⟨i, hq⟩⟩
  · exact inv.strictWeak.congr fun a ha b hb => hag a b ha hb
  refine (inv.ordered i).congr fun a ha b hb hab => ?_
  rw [← hag a b ⟨i, ha⟩ ⟨i, hb⟩]
  exact hab

theorem simulates_insert (inv : SystemInv st H) {i : ι} {p : NodePtr}
    (hl : Legal st (.insert i p)) : ∃ st' H', Simulates st H (.insert i p) none st' H' := by
  obtain ⟨hfr, hS⟩ := hl
  have hfree' : ∀ j, p ∉ (H j).elems := fun j hj => hfr ((inv.queued_iff p).mpr ⟨j, hj⟩)
  obtain ⟨heap, s, hr, hat, hw⟩ := bheapInsert_spec st.higherPrio (inv.heapAt i) (hfree' i)
  have hby := hw.byValue_eq st.higherPrio
  have hX : ∀ q ∈ p ::ₘ (H i).elems, ∀ j, j ≠ i → q ∉ (H j).elems := by
    intro q hq
    rcases mem_cons.mp hq with rfl | hq
    · exact fun j _ => hfree' j
    exact inv.not_mem_of_mem hq
  have hm : ∀ q ∈ p ::ₘ (H i).elems, Queued st q ∨ q = p := by
    intro q hq
    rcases mem_cons.mp hq with rfl | hq
    · exact .inr rfl
    exact .inl ((inv.queued_iff q).mpr ⟨i, hq⟩)
  have hfo : ∀ q ∈ p ::ₘ (H i).elems, Footprint H (Op.insert i p : Op ι V) q := by
    intro q hq
    rcases mem_cons.mp hq with rfl | hq
    · exact .inr ⟨i, rfl⟩
    exact .inl ⟨i, hq⟩
  refine ⟨{ st with store := s, heap := update st.heap i heap },
    update H i ((H i).insert (byValue st.higherPrio st.store) p), ?_,
    inv.update hat (Moved.of_within hw) ?_ ((inv.wf i).insert p) ?_ (fun _ _ _ _ _ _ => rfl) ?_,
    ?_, .inr ⟨_, _, Moved.of_within hw, hfo⟩, ?_⟩
  · simp [exec, hr]
  · rintro q (hq | hq)
    · exact hX q hq
    rw [Heap.elems_insert] at hq
    exact hX q hq
  · rw [hby]
    exact (inv.ordered i).insert hS hm
  · rw [hby]
    refine hS.mono ?_
    rintro q (hq | ⟨j, _, hq⟩)
    · rw [Heap.elems_insert] at hq
      exact hm q hq
    exact .inl ((inv.queued_iff q).mpr ⟨j, hq⟩)
  · rw [queues_update (Moved.of_within hw) hX, Heap.elems_insert]
    simp only [hw.value, map_cons]
    exact insert (queues st H) i _
  · intro j q hq
    by_cases hj : j = i
    · subst hj
      rw [update_self, Heap.elems_insert] at hq
      exact hfo q hq
    rw [update_of_ne hj] at hq
    exact .inl ⟨j, hq⟩

omit [DecidableEq ι] in
theorem queue_update_self [DecidableEq ι] {i : ι} {m : Multiset NodePtr} (hm : m = (H i).elems) :
    { queues st H with
      queue := update (queues st H).queue i
        (m.map fun p => (st.store.node p).value) } = queues st H := by
  rw [hm]
  exact congrArg (fun f => Queues.mk f st.higherPrio) (update_eq_self i _)

theorem simulates_uncacheMin (inv : SystemInv st H) (i : ι) :
    ∃ st' H', Simulates st H (.uncacheMin i) none st' H' := by
  obtain ⟨heap, s, hr, hat, hw⟩ := bheapUncacheMin_spec st.higherPrio (inv.heapAt i)
  refine ⟨_, _, Simulates.of_relink inv ?_ hat hw ?_ (inv.wf i).uncacheMin ?_ ?_⟩
  · simp [exec, hr]
  · exact fun q hq => by rwa [Heap.elems_uncacheMin] at hq
  · exact Heap.Ordered.uncacheMin inv.strictWeak (fun q hq => ⟨i, hq⟩) (inv.ordered i).forest
  · rw [queue_update_self (Heap.elems_uncacheMin _ _)]
    exact internal _

section

variable (inv : SystemInv st H)

include inv

omit [DecidableEq ι] in
theorem SystemInv.answers (i : ι) : Answers st.higherPrio ((queues st H).queue i)
      (((H i).cacheMin (byValue st.higherPrio st.store)).min.map
        fun p => (st.store.node p).value) := by
  cases hm : ((H i).cacheMin (byValue st.higherPrio st.store)).min with
  | none =>
    have h0 := Heap.min_cacheMin_eq_none.mp hm
    simp [Answers, queues, h0]
  | some p =>
    obtain ⟨hp, hbes⟩ := Heap.cacheMin_best inv.strictWeak (fun q hq => ⟨i, hq⟩) (inv.ordered i) hm
    refine ⟨mem_map_of_mem _ hp, ?_⟩
    intro w hw
    obtain ⟨q, hq, rfl⟩ := mem_map.mp hw
    exact hbes q hq

theorem simulates_peek (i : ι) :
    ∃ st' H', Simulates st H (.peek i) ((H i).peek (byValue st.higherPrio st.store)).1 st' H' := by
  obtain ⟨heap, s, hr, hat, hw⟩ := bheapPeek_spec st.higherPrio (inv.heapAt i)
  refine ⟨_, _, Simulates.of_relink inv ?_ hat hw ?_ (inv.wf i).cacheMin ?_ ?_⟩
  · simp [exec, hr]
  · exact fun q hq => by rwa [Heap.peek, Heap.elems_cacheMin] at hq
  · exact (inv.ordered i).cacheMin inv.strictWeak fun q hq => ⟨i, hq⟩
  have hel : ((H i).peek (byValue st.higherPrio st.store)).2.elems = (H i).elems :=
    Heap.elems_cacheMin _ _
  rw [queue_update_self hel]
  exact peek _ i (inv.answers i)

theorem simulates_take (i : ι) :
    ∃ st' H', Simulates st H (.take i) ((H i).take (byValue st.higherPrio st.store)).1 st' H' := by
  obtain ⟨heap, s, hr, hat, hw, _⟩ := bheapTake_spec st.higherPrio (inv.heapAt i)
  have han := inv.answers i
  refine ⟨_, _, Simulates.of_relink inv ?_ hat hw ?_ (inv.wf i).take ?_ ?_⟩
  · simp [exec, hr]
  · intro q hq
    rw [← Heap.elems_cacheMin (byValue st.higherPrio st.store)]
    exact Heap.mem_elems.mpr (.inl ((Heap.mem_elems.mp hq).resolve_right (by simp [Heap.take])))
  · exact (inv.ordered i).take inv.strictWeak fun q hq => ⟨i, hq⟩
  cases hm : ((H i).take (byValue st.higherPrio st.store)).1 with
  | none =>
    have h0 := Heap.take_eq_none.mp hm
    rw [queue_update_self ((Heap.elems_take_none hm).trans h0.symm)]
    refine takeNone (queues st H) i ?_
    simp [Answers, queues, h0]
  | some p =>
    have hm' : ((H i).cacheMin (byValue st.higherPrio st.store)).min = some p := hm
    rw [hm'] at han
    refine takeSome (queues st H) i han ?_
    simp only [queues]
    rw [Heap.elems_take_some hm, map_cons]

theorem simulates_union {i j : ι} (hij : i ≠ j) :
    ∃ st' H', Simulates st H (.union i j) none st' H' := by
  obtain ⟨target, s, hr, hat, hw⟩ := bheapUnion_spec st.higherPrio (inv.heapAt i)
    (inv.heapAt j) (inv.disjoint i j hij)
  have hme : ∀ q ∈ (H i).elems + (H j).elems, q ∈ (H i).elems ∨ q ∈ (H j).elems :=
    fun q hq => mem_add.mp hq
  have hal : ∀ q ∈ (H i).elems + (H j).elems, ∃ k, q ∈ (H k).elems := fun q hq =>
    (hme q hq).elim (fun h => ⟨i, h⟩) fun h => ⟨j, h⟩
  -- take the second heap out first; its nodes are then free for the first one
  have inv1 : SystemInv { st with heap := update st.heap j bheapInit } (update H j Heap.empty) := by
    refine inv.relink (heapAt_init st.store) (Within.refl _ _) ?_ Heap.WF.empty ⟨trivial, ?_⟩
    · exact fun q hq => by simp [Heap.empty] at hq
    exact fun m hm => by cases hm
  have hX : ∀ q ∈ (H i).elems + (H j).elems, ∀ k, k ≠ i → q ∉ (update H j Heap.empty k).elems := by
    intro q hq k hk
    by_cases hkj : k = j
    · subst hkj
      simp [Heap.empty]
    rw [update_of_ne hkj]
    rcases hme q hq with h | h
    · exact inv.not_mem_of_mem h k hk
    exact inv.not_mem_of_mem h k hkj
  have hby := hw.byValue_eq st.higherPrio
  refine ⟨_, _, ?_, inv1.update (i := i) hat (Moved.of_within hw) ?_
    ((inv.wf i).union (inv.wf j)) ?_ (fun _ _ _ _ _ _ => rfl) ?_, ?_,
    .inr ⟨_, _, Moved.of_within hw, fun q hq => .inl (hal q hq)⟩, ?_⟩
  · simp only [exec, hr, Option.map_some]
    rw [update_comm hij]
  · rintro q (hq | hq)
    · exact hX q hq
    rw [Heap.elems_union] at hq
    exact hX q hq
  · rw [hby]
    exact (inv.ordered i).union inv.strictWeak hal (inv.ordered j)
  · rw [hby]
    refine inv.strictWeak.mono ?_
    rintro q (hq | ⟨k, _, hq⟩)
    · rw [Heap.elems_union] at hq
      exact hal q hq
    by_cases hkj : k = j
    · subst hkj
      simp [Heap.empty] at hq
    rw [update_of_ne hkj] at hq
    exact ⟨k, hq⟩
  · rw [@queues_update V ι _ { st with heap := update st.heap j bheapInit } _ _ _ _ _ _ _
      _ (Moved.of_within hw) hX, Heap.elems_union]
    have hq : queues { st with heap := update st.heap j bheapInit } (update H j Heap.empty) =
        { queues st H with queue := update (queues st H).queue j 0 } := by
      rw [queues_relink inv (Within.refl _ _)]
      simp [Heap.empty]
    rw [hq]
    simp only [hw.value, map_add]
    rw [update_comm (Ne.symm hij)]
    exact union (queues st H) hij
  · intro k q hq
    by_cases hk : k = i
    · subst hk
      rw [update_self, Heap.elems_union] at hq
      exact .inl (hal q hq)
    rw [update_of_ne hk] at hq
    by_cases hkj : k = j
    · subst hkj
      simp [Heap.empty] at hq
    rw [update_of_ne hkj] at hq
    exact .inl ⟨k, hq⟩

theorem simulates_delete {hp : V → V → Bool} {i : ι} {p : NodePtr}
    (hl : Legal st (.delete hp i p)) : ∃ st' H', Simulates st H (.delete hp i p) none st' H' := by
  obtain ⟨hin, hagr⟩ := hl
  have hm : p ∈ (H i).elems := ((inv.heapAt i).inHeap_iff p).mp hin
  obtain ⟨heap, s, K, σ, r, hr, hde, hat, hmo, hsp, hσr, -⟩ :=
    bheapDelete_spec hp (inv.heapAt i) hm
  have hnd := (inv.heapAt i).nodup
  have hagree' : ∀ a b, (∃ j, a ∈ (H j).elems) → (∃ j, b ∈ (H j).elems) → a ≠ p → b ≠ p →
      byValue hp st.store a b = byValue st.higherPrio st.store a b := fun a b ha hb =>
    hagr a b ((inv.queued_iff a).mpr ha) ((inv.queued_iff b).mpr hb)
  have ho : ∀ j, j ≠ i → ∀ q ∈ (H j).elems, q ≠ p := fun j hj q hq h =>
    inv.not_mem_of_mem hm j hj (h ▸ hq)
  have hsu : ∀ q ∈ K.elems, q ∈ (H i).elems := fun q hq => by
    rw [hsp]
    exact mem_cons_of_mem hq
  have hel := Heap.elems_delete hde hnd
  have hpo : p ∉ (K.map σ).elems := by
    rw [hel] at hnd
    exact (nodup_cons.mp hnd).1
  have hma : ∀ q ∈ (K.map σ).elems, q ∈ (H i).elems := fun q hq => by
    rw [hel]
    exact mem_cons_of_mem hq
  -- away from `p` the new priorities are the old ones
  have hS : StrictWeakOn (byValue hp st.store) {q | (∃ j, q ∈ (H j).elems) ∧ q ≠ p} := by
    refine (inv.strictWeak.mono fun q hq => hq.1).congr ?_
    exact fun a ha b hb => hagree' a b ha.1 hb.1 ha.2 hb.2
  have hord : (K.map σ).Ordered (byValue hp st.store) := by
    refine Heap.Ordered.delete hde hnd hS (fun q hq => ⟨⟨i, hma q hq⟩, ?_⟩) ?_
    · exact fun h => hpo (h ▸ hq)
    refine (inv.ordered i).congr fun a ha b hb hab => ?_
    simp only [except, Bool.and_eq_true, decide_eq_true_eq] at hab
    rw [← hagree' a b ⟨i, ha⟩ ⟨i, hb⟩ hab.1.2 hab.2]
    exact hab.1.1
  have hσmem : ∀ q, (q ∈ K.elems ∨ ∃ j, j ≠ i ∧ q ∈ (H j).elems) →
      (∃ j, σ q ∈ (H j).elems) ∧ σ q ≠ p := by
    rintro q (hq | ⟨j, hj, hq⟩)
    · have hq' : σ q ∈ (K.map σ).elems := by
        rw [Heap.elems_map]
        exact mem_map_of_mem σ hq
      exact ⟨⟨i, hma _ hq'⟩, fun h => hpo (h ▸ hq')⟩
    rw [hmo.fixed q fun h => inv.not_mem_of_mem h j hj hq]
    exact ⟨⟨j, hq⟩, ho j hj q hq⟩
  refine ⟨{ store := s, heap := update st.heap i heap, higherPrio := hp },
    update H i K, ?_, inv.update hat hmo ?_ ((Heap.wf_map σ).mp
    (Heap.WF.delete hde hnd (inv.wf i))) ?_ ?_ ?_, ?_,
    .inr ⟨_, σ, hmo, fun q hq => .inl ⟨i, hq⟩⟩, ?_⟩
  · simp [exec, hr]
  · rintro q (hq | hq)
    · exact inv.not_mem_of_mem hq
    exact inv.not_mem_of_mem (hsu q hq)
  · rw [hmo.byValue_eq]
    exact (Heap.ordered_map σ).mp hord
  · exact fun j hj a ha b hb =>
      hagree' a b ⟨j, ha⟩ ⟨j, hb⟩ (ho j hj a ha) (ho j hj b hb)
  · rw [hmo.byValue_eq]
    exact (hS.comap σ).mono hσmem
  · rw [queues_update hmo fun q hq => inv.not_mem_of_mem hq]
    refine remove (queues st H) hp i ?_
    have hval : K.elems.map (fun q => (s.node q).value) =
        (K.map σ).elems.map fun q => (st.store.node q).value := by
      rw [Heap.elems_map, map_map]
      exact map_congr rfl fun q _ => hmo.value q
    rw [hval]
    simp only [queues]
    rw [hel, map_cons]
  · intro j q hq
    by_cases hj : j = i
    · subst hj
      rw [update_self] at hq
      exact .inl ⟨j, hsu q hq⟩
    rw [update_of_ne hj] at hq
    exact .inl ⟨j, hq⟩

theorem simulates_raise {hp : V → V → Bool} {i : ι} {p : NodePtr}
    (hl : Legal st (.raise hp i p)) : ∃ st' H', Simulates st H (.raise hp i p) none st' H' := by
  obtain ⟨hin, hag, hrai, hS⟩ := hl
  have hm : p ∈ (H i).elems := ((inv.heapAt i).inHeap_iff p).mp hin
  have hS' := hS.mono fun q hq => (inv.queued_iff q).mpr hq
  have ho : ∀ j, j ≠ i → ∀ q ∈ (H j).elems, q ≠ p := fun j hj q hq h =>
    inv.not_mem_of_mem hm j hj (h ▸ hq)
  have hordUp : (H i).Ordered (exceptUp (byValue hp st.store) p) := by
    refine (inv.ordered i).congr fun a ha b hb hab => ?_
    simp only [exceptUp, Bool.and_eq_true, decide_eq_true_eq] at hab
    have hqa := (inv.queued_iff a).mpr ⟨i, ha⟩
    by_cases hbp : b = p
    · subst hbp
      exact hrai a hqa hab.2 hab.1
    rw [← hag a b hqa ((inv.queued_iff b).mpr ⟨i, hb⟩) hab.2 hbp]
    exact hab.1
  obtain ⟨held, s1, heap, s, K, σ, hr, haf, hat, hK, hwf, hord, hmo, hval, -⟩ :=
    (inv.heapAt i).raise (inv.wf i) hm hS' (fun q hq => ⟨i, hq⟩) hordUp
  have hσ : ∀ q, (∃ j, q ∈ (H j).elems) → ∃ j, σ q ∈ (H j).elems := by
    rintro q ⟨j, hq⟩
    by_cases hj : j = i
    · subst hj
      exact ⟨j, hmo.maps hq⟩
    rw [hmo.fixed q fun h => inv.not_mem_of_mem h j hj hq]
    exact ⟨j, hq⟩
  have hx : exec st (.raise hp i p) = some (none,
      { store := s, heap := update st.heap i heap, higherPrio := hp }) := by
    cases held with
    | true =>
      cases haf
      simp [exec, hr]
    | false => simp [exec, hr, show bheapUncacheMin hp _ _ = _ from haf]
  refine ⟨_, update H i K, hx, inv.update hat hmo ?_ hwf hord ?_ ?_, ?_,
    .inr ⟨_, σ, hmo, fun q hq => .inl ⟨i, hq⟩⟩, ?_⟩
  · rintro q (hq | hq)
    · exact inv.not_mem_of_mem hq
    exact inv.not_mem_of_mem (hK ▸ hq)
  · exact fun j hj a ha b hb => hag a b ((inv.queued_iff a).mpr ⟨j, ha⟩)
      ((inv.queued_iff b).mpr ⟨j, hb⟩) (ho j hj a ha) (ho j hj b hb)
  · rw [hmo.byValue_eq hp]
    refine ((hS'.comap σ).mono hσ).mono ?_
    rintro q (hq | ⟨j, _, hq⟩)
    · exact ⟨i, hK ▸ hq⟩
    exact ⟨j, hq⟩
  · rw [queues_update hmo fun q hq => inv.not_mem_of_mem hq, hK, hval]
    have hq : update (queues st H).queue i
        ((H i).elems.map fun q => (st.store.node q).value) = (queues st H).queue :=
      update_eq_self i (queues st H).queue
    rw [hq]
    exact setPrio (queues st H) hp
  · intro j q hq
    by_cases hj : j = i
    · subst hj
      rw [update_self, hK] at hq
      exact .inl ⟨j, hq⟩
    rw [update_of_ne hj] at hq
    exact .inl ⟨j, hq⟩

/-- The step lemma: every legal operation succeeds, keeps the invariant and is a
    step of the abstract queues. -/
theorem SystemInv.step {op : Op ι V} (hl : Legal st op) :
    ∃ res st' H', Simulates st H op res st' H' := by
  cases op with
  | nodeInit h v => exact ⟨_, _, _, simulates_nodeInit inv hl⟩
  | setPrio hp => exact ⟨_, _, _, simulates_setPrio inv hl⟩
  | insert i p => exact ⟨_, simulates_insert inv hl⟩
  | union i j => exact ⟨_, simulates_union inv hl⟩
  | peek i => exact ⟨_, simulates_peek inv i⟩
  | take i => exact ⟨_, simulates_take inv i⟩
  | uncacheMin i => exact ⟨_, simulates_uncacheMin inv i⟩
  | delete hp i p => exact ⟨_, simulates_delete inv hl⟩
  | raise hp i p => exact ⟨_, simulates_raise inv hl⟩

end

end Simulation

/-! ### Runs -/

omit [DecidableEq ι] in
/-- A system before its first operation: every heap as `bheap_init` leaves it, and
    any contents of the memory. -/
def initialSystem (store : Store V) (hp : V → V → Bool) : HeapSystem ι V :=
  { store := store, heap := fun _ => bheapInit, higherPrio := hp }

omit [DecidableEq ι] in
theorem systemInv_initial (store : Store V) (hp : V → V → Bool) :
    SystemInv (initialSystem store hp : HeapSystem ι V) fun _ => Heap.empty where
  heapAt _ := heapAt_init store
  disjoint _ _ _ := disjoint_left.mpr fun h => by simp [Heap.empty] at h
  wf _ := Heap.WF.empty
  strictWeak := by
    constructor
    · rintro a ⟨i, ha⟩
      simp [Heap.empty] at ha
    rintro a ⟨i, ha⟩
    simp [Heap.empty] at ha
  ordered _ := ⟨trivial, fun m hm => by cases hm⟩

/-- The run lemma: a run of the system is a run of the abstract queues with the same
    observations, and ends in a state that stands for their final contents. -/
theorem run_queues {store : Store V} {hp : V → V → Bool} {es : List (Event ι V)}
    {st : HeapSystem ι V} (hr : Run SystemStep (initialSystem store hp) es st) :
    ∃ H, SystemInv st H ∧
      Run QueueStep { queue := fun _ => 0, higherPrio := hp } es (queues st H) := by
  have hini : (queues (initialSystem store hp : HeapSystem ι V) fun _ => Heap.empty) =
      { queue := fun _ => 0, higherPrio := hp } := by
    simp [queues, initialSystem, Heap.empty]
  have hs : ∀ (st : HeapSystem ι V) (Q : Queues ι V) (e : Event ι V) (st' : HeapSystem ι V),
      (∃ H, SystemInv st H ∧ queues st H = Q) → SystemStep st e st' →
      ∃ Q', QueueStep Q e Q' ∧ ∃ H, SystemInv st' H ∧ queues st' H = Q' := by
    rintro st _ e st' ⟨H, inv, rfl⟩ ⟨op, res, hl, hx, rfl⟩
    obtain ⟨res', st'', H', hsi⟩ := inv.step hl
    have heq := hsi.exec_eq
    rw [hx] at heq
    cases heq
    exact ⟨_, hsi.queueStep, H', hsi.inv, rfl⟩
  obtain ⟨Q, hQ, H, inv, rfl⟩ := hr.simulation hs ⟨_, systemInv_initial store hp, hini⟩
  exact ⟨H, inv, hQ⟩

/-- A heap with cached minimum refines a multiset priority queue.  After any run:
    the observations are those of abstract queues that hold exactly the values of
    the heaps; every heap is well formed; every further legal operation succeeds;
    and peek and take answer `NULL` exactly on an empty heap, and otherwise a node
    whose value no queued value beats. -/
theorem bheap_refines_priority_queues {store : Store V} {hp : V → V → Bool}
    {es : List (Event ι V)} {st : HeapSystem ι V}
    (hrun : Run SystemStep (initialSystem store hp) es st) :
    (∃ Q, Run QueueStep { queue := fun _ => 0, higherPrio := hp } es Q ∧
      Q.higherPrio = st.higherPrio ∧ ∀ i, Holds st.store (st.heap i) (Q.queue i)) ∧
    (∀ i, WellFormed st.higherPrio st.store (st.heap i)) ∧
    (∀ op, Legal st op → ∃ res st', exec st op = some (res, st')) ∧
    ∀ i m res st', Holds st.store (st.heap i) m →
      (exec st (.peek i) = some (res, st') ∨ exec st (.take i) = some (res, st')) →
      (res = none ↔ m = 0) ∧ ∀ p, res = some p → (st.store.node p).value ∈ m ∧
          ∀ w ∈ m, ¬st.higherPrio w (st.store.node p).value := by
  obtain ⟨H, inv, hQ⟩ := run_queues hrun
  refine ⟨⟨_, hQ, rfl, fun i => (inv.heapAt i).holds⟩,
    fun i => (inv.heapAt i).wellFormed (inv.wf i) (inv.ordered i), ?_, ?_⟩
  · intro op hl
    obtain ⟨res, st', _, hsim⟩ := inv.step hl
    exact ⟨res, st', hsim.exec_eq⟩
  intro i m res st' hm hx
  have hmq : m = (queues st H).queue i := hm.unique (inv.heapAt i).holds
  have hres : res = ((H i).cacheMin (byValue st.higherPrio st.store)).min := by
    rcases hx with hx | hx
    · obtain ⟨_, _, hsim⟩ := simulates_peek inv i
      rw [hsim.exec_eq] at hx
      cases hx
      rfl
    obtain ⟨_, _, hsim⟩ := simulates_take inv i
    rw [hsim.exec_eq] at hx
    cases hx
    rfl
  have hanswer := inv.answers i
  rw [← hres, ← hmq] at hanswer
  cases res with
  | none =>
    have h0 : m = 0 := hanswer
    exact ⟨by simp [h0], fun p hp => by cases hp⟩
  | some p =>
    obtain ⟨hmem, hbest⟩ : _ ∧ _ := hanswer
    refine ⟨⟨(fun h => by cases h), fun h => ?_⟩, ?_⟩
    · rw [h] at hmem
      simp at hmem
    rintro q ⟨⟩
    exact ⟨hmem, hbest⟩

def restingStore : Store Nat where
  node p := { parent := none, next := none, child := none, degree := notInHeap,
              value := p.toNat, ref := p }
  handle h := h

def smaller (a b : Nat) : Bool := decide (a < b)

theorem strictWeakOn_smaller (s : Store Nat) (S : Set NodePtr) :
    StrictWeakOn (byValue smaller s) S := by
  constructor
  · intro a _ b _ hab
    simp only [byValue, smaller, decide_eq_true_eq] at hab ⊢
    omega
  intro a _ b _ c _ hab hbc
  simp only [byValue, smaller, decide_eq_true_eq] at hab hbc ⊢
  omega

omit [DecidableEq ι] in
theorem not_queued_of_init {st : HeapSystem ι V} (h : ∀ i, st.heap i = bheapInit) (p : NodePtr) :
    ¬Queued st p := by
  rintro ⟨i, hmi | hre⟩
  · rw [h i] at hmi
    cases hmi
  rw [h i] at hre
  cases hre

theorem bheap_refines_priority_queues_insert_take :
    ∃ st : HeapSystem Unit Nat, Run SystemStep (initialSystem restingStore smaller)
        [.insert () 7, .take () (some 7)] st ∧
      (∃ Q, Run QueueStep { queue := fun _ => 0, higherPrio := smaller }
        [.insert () 7, .take () (some 7)] Q ∧ Holds st.store (st.heap ()) (Q.queue ())) ∧
      WellFormed st.higherPrio st.store (st.heap ()) := by
  have hrun₁ : Run SystemStep (initialSystem restingStore smaller : HeapSystem Unit Nat)
      ([] ++ [.insert () 7]) _ :=
    Run.nil.snoc ⟨.insert () 7, none,
      ⟨not_queued_of_init (fun _ => rfl) 7, strictWeakOn_smaller _ _⟩, rfl, rfl⟩
  have hrun₂ := hrun₁.snoc ⟨.take (), some 7, trivial, rfl, rfl⟩
  obtain ⟨⟨Q, hQ, _, hholds⟩, hwf, _, _⟩ := bheap_refines_priority_queues hrun₂
  exact ⟨_, hrun₂, ⟨Q, hQ, hholds ()⟩, hwf ()⟩

/-! ### The size of trees -/

theorem Rep.two_pow_degree_le {s : Store V} {par h : Option NodePtr} {f : Forest NodePtr}
    (hrp : Rep s par h f) (hf : Shaped f) {p : NodePtr} (hp : p ∈ f.elems) :
    2 ^ (s.node p).degree ≤ f.elems.card := by
  induction f generalizing par h with
  | nil => simp at hp
  | node a d c n ihc ihn =>
    obtain ⟨-, -, rfl, hc, hn⟩ := hrp
    have hsz := hf.1.card_elems
    simp only [elems_node, mem_cons, mem_add, card_cons, card_add] at hp ⊢
    rcases hp with rfl | hp | hp
    · omega
    · have hle := ihc hc hf.1.shaped hp
      omega
    have hle := ihn hn hf.2 hp
    omega

/-- In a heap of `n` values a node has at most `log n` children, which `bheap_take` and
    `bheap_delete` go through one by one. -/
theorem bheap_degree_log {store : Store V} {hp : V → V → Bool} {es : List (Event ι V)}
    {st : HeapSystem ι V} (hr : Run SystemStep (initialSystem store hp) es st) {i : ι}
    {m : Multiset V} (hm : Holds st.store (st.heap i) m) {p : NodePtr}
    (hx : Reach st.store (st.heap i).head p) : 2 ^ (st.store.node p).degree ≤ m.card := by
  obtain ⟨H, inv, -⟩ := run_queues hr
  have hrp := (inv.heapAt i).rep
  have hle : (H i).forest.elems.card ≤ m.card := by
    rw [hm.unique (inv.heapAt i).holds, card_map]
    exact card_le_card (le_add_right _ _)
  exact (hrp.two_pow_degree_le (inv.wf i).shaped (hx.mem_elems hrp)).trans hle

theorem bheap_degree_log_insert :
    ∃ (st : HeapSystem Unit Nat) (m : Multiset Nat),
      Run SystemStep (initialSystem restingStore smaller) [.insert () 7] st ∧
      Holds st.store (st.heap ()) m ∧ Reach st.store (st.heap ()).head 7 ∧
      2 ^ (st.store.node 7).degree ≤ m.card := by
  have hr : Run SystemStep (initialSystem restingStore smaller : HeapSystem Unit Nat)
      ([] ++ [.insert () 7]) _ :=
    Run.nil.snoc ⟨.insert () 7, none,
      ⟨not_queued_of_init (fun _ => rfl) 7, strictWeakOn_smaller _ _⟩, rfl, rfl⟩
  obtain ⟨H, inv, -⟩ := run_queues hr
  have hm := (inv.heapAt ()).holds
  exact ⟨_, _, hr, hm, Reach.here 7, bheap_degree_log hr hm (Reach.here 7)⟩

end Litmus.LinkedHeap
