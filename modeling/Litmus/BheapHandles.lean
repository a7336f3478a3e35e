import Litmus.BheapRefinement

/-!
# Handles

A value is registered by `bheap_node_init` with a handle slot of its own: the slot
holds the address of the value's node, and the node's `ref` holds the address of
the slot.  Callers reach the node of a value only through the slot
(`tsk_rt(t)->heap_node`), so the slot has to stay exact while `bheap_delete` and
`bheap_decrease` move values from node to node.

The registry is bookkeeping of the proof: which values are registered, with which
slot, and which nodes have been initialised.
-/

namespace Litmus.LinkedHeap

open BinomialForest Forest Runs Function

variable {V ι : Type} [DecidableEq ι] [DecidableEq V]

structure Registry (V : Type) where
  slot : V → Option HandlePtr
  nodes : Set NodePtr

/-- Values are registered with a slot and a node of their own (or again with the
    slot they have), and only initialised nodes are inserted. -/
def Disciplined (reg : Registry V) (st : HeapSystem ι V) : Op ι V → Prop
  | .nodeInit h v =>
      (reg.slot v = none ∧ (∀ w, reg.slot w ≠ some h) ∧ st.store.handle h ∉ reg.nodes) ∨
        reg.slot v = some h
  | .insert _ p => p ∈ reg.nodes
  | _ => True

def register (reg : Registry V) (st : HeapSystem ι V) : Op ι V → Registry V
  | .nodeInit h v =>
      { slot := update reg.slot v (some h)
        nodes := {q | q ∈ reg.nodes ∨ q = st.store.handle h} }
  | _ => reg

/-- A legal, disciplined operation, with the registry it leaves. -/
def HandleStep (x : HeapSystem ι V × Registry V) (op : Op ι V)
    (y : HeapSystem ι V × Registry V) : Prop :=
  Legal x.1 op ∧ Disciplined x.2 x.1 op ∧ (∃ res, exec x.1 op = some (res, y.1)) ∧
    y.2 = register x.2 x.1 op

/-- Every initialised node holds a registered value, with the slot of that value as
    its ref, and the slot points back at the node. -/
structure RegistryInv (reg : Registry V) (s : Store V) : Prop where
  slot_ref : ∀ q ∈ reg.nodes, reg.slot (s.node q).value = some (s.node q).ref
  handles : HandlesExact reg.nodes s
  node_of : ∀ v h, reg.slot v = some h →
    ∃ q ∈ reg.nodes, (s.node q).value = v ∧ (s.node q).ref = h

omit [DecidableEq V] in
theorem RegistryInv.moved {reg : Registry V} {s s' : Store V} {X : Multiset NodePtr}
    {σ : Equiv.Perm NodePtr} (inv : RegistryInv reg s) (hmo : Moved X σ s s')
    (hX : ∀ q ∈ X, q ∈ reg.nodes) : RegistryInv reg s' := by
  have hσ : ∀ q ∈ reg.nodes, σ q ∈ reg.nodes := by
    intro q hq
    by_cases hqX : q ∈ X
    · exact hX _ (hmo.maps hqX)
    rw [hmo.fixed q hqX]
    exact hq
  refine ⟨?_, hmo.handlesExact reg.nodes hX inv.handles, ?_⟩
  · intro q hq
    rw [hmo.value, hmo.ref]
    exact inv.slot_ref (σ q) (hσ q hq)
  intro v h hv
  obtain ⟨q, hq, hval, hrf⟩ := inv.node_of v h hv
  -- the value of `q` is now at the node that `σ` maps to `q`
  refine ⟨σ.symm q, ?_, ?_, ?_⟩
  · by_cases hou : σ.symm q ∈ X
    · exact hX _ hou
    have hfi := hmo.fixed _ hou
    rw [Equiv.apply_symm_apply] at hfi
    rw [← hfi]
    exact hq
  · rw [hmo.value, Equiv.apply_symm_apply, hval]
  rw [hmo.ref, Equiv.apply_symm_apply, hrf]

omit [DecidableEq V] in
theorem RegistryInv.unique {reg : Registry V} {s : Store V} (inv : RegistryInv reg s) {v : V}
    {h : HandlePtr} (hv : reg.slot v = some h) :
    s.handle h ∈ reg.nodes ∧ (s.node (s.handle h)).value = v ∧ (s.node (s.handle h)).ref = h ∧
      ∀ q ∈ reg.nodes, (s.node q).value = v → q = s.handle h := by
  obtain ⟨p, hp, hval, hrf⟩ := inv.node_of v h hv
  have hs : s.handle h = p := by
    rw [← hrf]
    exact inv.handles p hp
  refine ⟨by rw [hs]; exact hp, by rw [hs]; exact hval, by rw [hs]; exact hrf, ?_⟩
  intro q hq hqv
  have hqr := inv.slot_ref q hq
  rw [hqv, hv, Option.some.injEq] at hqr
  rw [hqr]
  exact (inv.handles q hq).symm

omit [DecidableEq ι] in
theorem RegistryInv.nodeInit {reg : Registry V} {st : HeapSystem ι V} {h : HandlePtr} {v : V}
    (inv : RegistryInv reg st.store) (hd : Disciplined reg st (.nodeInit h v)) :
    RegistryInv (register reg st (.nodeInit h v)) (bheapNodeInit h v st.store) := by
  have hse : (bheapNodeInit h v st.store).node (st.store.handle h) =
      { parent := none, next := none, child := none, degree := notInHeap, value := v, ref := h } :=
    Store.node_modify_self _ _ _
  have ho : ∀ q, q ≠ st.store.handle h →
      (bheapNodeInit h v st.store).node q = st.store.node q := fun q hq =>
    Store.node_modify_of_ne _ hq _
  -- no other initialised node holds `v` or uses the slot `h`
  have hsep : ∀ q ∈ reg.nodes, q ≠ st.store.handle h → (st.store.node q).value ≠ v := by
    intro q hq hne hqv
    have hs := inv.slot_ref q hq
    rw [hqv] at hs
    rcases hd with ⟨hn, _, _⟩ | hso
    · rw [hn] at hs
      cases hs
    exact hne ((inv.unique hso).2.2.2 q hq hqv)
  refine ⟨?_, ?_, ?_⟩
  · rintro q (hq | rfl)
    · by_cases hqh : q = st.store.handle h
      · subst hqh
        simp [hse, register]
      rw [ho q hqh]
      simp only [register, update_of_ne (hsep q hq hqh)]
      exact inv.slot_ref q hq
    simp [hse, register]
  · rintro q (hq | rfl)
    · by_cases hqh : q = st.store.handle h
      · rw [hqh, hse]
        rfl
      rw [ho q hqh]
      exact inv.handles q hq
    rw [hse]
    rfl
  intro w k hw
  by_cases hwv : w = v
  · subst hwv
    simp only [register, update_self, Option.some.injEq] at hw
    subst hw
    exact ⟨st.store.handle h, .inr rfl, by rw [hse], by rw [hse]⟩
  simp only [register, update_of_ne hwv] at hw
  obtain ⟨q, hq, hva, hrf⟩ := inv.node_of w k hw
  have hqh : q ≠ st.store.handle h := by
    rintro rfl
    rcases hd with ⟨_, _, hfre⟩ | hso
    · exact hfre hq
    exact hwv (hva.symm.trans (inv.unique hso).2.1)
  exact ⟨q, .inl hq, by rw [ho q hqh]; exact hva, by rw [ho q hqh]; exact hrf⟩

/-- The system, its registry, and every queued node initialised. -/
structure HandleInv (x : HeapSystem ι V × Registry V) : Prop where
  registry : RegistryInv x.2 x.1.store
  system : ∃ H, SystemInv x.1 H ∧ ∀ i, ∀ q ∈ (H i).elems, q ∈ x.2.nodes

theorem HandleInv.step {x y : HeapSystem ι V × Registry V} {op : Op ι V} (inv : HandleInv x)
    (hs : HandleStep x op y) : HandleInv y := by
  obtain ⟨st, reg⟩ := x
  obtain ⟨st', reg'⟩ := y
  obtain ⟨hl, hd, ⟨res, hx⟩, hre⟩ := hs
  obtain ⟨hrg, H, hsys, hno⟩ := inv
  simp only at hl hd hx hre hrg hno
  obtain ⟨res', st'', H', hsi⟩ := hsys.step hl
  have heq := hsi.exec_eq
  rw [hx] at heq
  cases heq
  -- what an operation touches is initialised
  have hfo : ∀ q, Footprint H op q → q ∈ reg.nodes := by
    rintro q (⟨j, hq⟩ | ⟨i, rfl⟩)
    · exact hno j q hq
    exact hd
  by_cases hin : ∃ h v, op = .nodeInit h v
  · obtain ⟨h, v, rfl⟩ := hin
    cases hx
    subst hre
    exact ⟨hrg.nodeInit hd, H', hsi.inv, fun i q hq =>
      .inl (hfo q (hsi.footprint i q hq))⟩
  obtain ⟨X, σ, hmo, hX⟩ := hsi.rearranges.resolve_left hin
  have hkee : reg' = reg := by
    rw [hre]
    cases op with
    | nodeInit h v => exact absurd ⟨h, v, rfl⟩ hin
    | _ => rfl
  subst hkee
  exact ⟨hrg.moved hmo fun q hq => hfo q (hX q hq), H', hsi.inv,
    fun i q hq => hfo q (hsi.footprint i q hq)⟩

omit [DecidableEq ι] [DecidableEq V] in
theorem handleInv_initial (store : Store V) (hp : V → V → Bool) :
    HandleInv ((initialSystem store hp : HeapSystem ι V),
      ({ slot := fun _ => none, nodes := ∅ } : Registry V)) where
  registry := ⟨fun _ hq => hq.elim, fun _ hq => hq.elim, fun _ _ h => by cases h⟩
  system := ⟨_, systemInv_initial store hp, fun i q hq => by simp [Heap.empty] at hq⟩

/-- Handles are exact.  In every run in which values are registered with slots of
    their own, the slot of a value holds the only initialised node that has the value
    and refers back to the slot.  Deleting a queued value through its slot removes
    exactly that value from its heap, leaves all heaps well formed, and leaves the
    slot with a node that is in no heap and marked so.  The order `hp` in force at
    the delete may rank the value in any way: it only has to agree with the order
    the heaps were built with on the other values. -/
theorem bheap_handles_exact {store : Store V} {hp₀ : V → V → Bool} {ops : List (Op ι V)}
    {st : HeapSystem ι V} {reg : Registry V}
    (hrun : Run HandleStep (initialSystem store hp₀, { slot := fun _ => none, nodes := ∅ }) ops
      (st, reg)) {v : V} {h : HandlePtr} (hv : reg.slot v = some h) :
    (st.store.handle h ∈ reg.nodes ∧ (st.store.node (st.store.handle h)).value = v ∧
      (st.store.node (st.store.handle h)).ref = h ∧
      ∀ q ∈ reg.nodes, (st.store.node q).value = v → (st.store.node q).ref = h →
        q = st.store.handle h) ∧
    ∀ (i : ι) (hp : V → V → Bool), InHeap st.store (st.heap i) (st.store.handle h) →
      (∀ a b, a ≠ v → b ≠ v → hp a b = st.higherPrio a b) →
      ∃ heap s, bheapDelete hp (st.heap i) (st.store.handle h) st.store = some (heap, s) ∧
        (∀ m, Holds st.store (st.heap i) m → ∃ m', m = v ::ₘ m' ∧ Holds s heap m') ∧
        (∀ j, j ≠ i → ∀ m, Holds st.store (st.heap j) m → Holds s (st.heap j) m) ∧
        WellFormed hp s heap ∧ (∀ j, j ≠ i → WellFormed hp s (st.heap j)) ∧
        ¬InHeap s heap (s.handle h) ∧ (∀ j, j ≠ i → ¬InHeap s (st.heap j) (s.handle h)) ∧
        (s.node (s.handle h)).degree = notInHeap ∧ (s.node (s.handle h)).value = v := by
  have inv := hrun.invariant (fun x op y hx hs => hx.step hs) (handleInv_initial store hp₀)
  obtain ⟨hregistry, H, hsys, hnodes⟩ := inv
  simp only at hregistry hsys hnodes
  obtain ⟨hmem, hval, href, huniq⟩ := hregistry.unique hv
  refine ⟨⟨hmem, hval, href, fun q hq hqv _ => huniq q hq hqv⟩, ?_⟩
  intro i hp hin hagree
  have hqueued : ∀ q, Queued st q → q ∈ reg.nodes := by
    intro q hq
    obtain ⟨j, hj⟩ := (hsys.queued_iff q).mp hq
    exact hnodes j q hj
  have hl : Legal st (.delete hp i (st.store.handle h)) := by
    refine ⟨hin, fun a b ha hb hap hbp => hagree _ _ ?_ ?_⟩
    · exact fun hav => hap (huniq a (hqueued a ha) hav)
    exact fun hbv => hbp (huniq b (hqueued b hb) hbv)
  have hpi : st.store.handle h ∈ (H i).elems := ((hsys.heapAt i).inHeap_iff _).mp hin
  obtain ⟨heap, s, K, σ, r, hdelete, hK, hat, hmoved, hsplit, hσr, hdeg⟩ :=
    bheapDelete_spec hp (hsys.heapAt i) hpi
  -- the slot now holds the unlinked node
  have hr : r ∈ (H i).elems := by
    rw [hsplit]
    exact Multiset.mem_cons_self r _
  have hslot : s.handle h = r := by
    have hexact := hmoved.handlesExact reg.nodes (hnodes i) hregistry.handles r (hnodes i r hr)
    rw [hmoved.ref, hσr, href] at hexact
    exact hexact
  obtain ⟨st', H', hsim⟩ := simulates_delete hsys hl
  have hst : st' = { store := s, heap := update st.heap i heap, higherPrio := hp } := by
    have heq := hsim.exec_eq
    simp only [exec, hdelete, Option.map_some, Option.some.injEq, Prod.mk.injEq, true_and] at heq
    exact heq.symm
  have hnew := hsim.inv
  rw [hst] at hnew
  have hwf : ∀ j, WellFormed hp s (update st.heap i heap j) := fun j =>
    (hnew.heapAt j).wellFormed (hnew.wf j) (hnew.ordered j)
  have hrout : r ∉ K.elems := by
    have hnd := (hsys.heapAt i).nodup
    rw [hsplit] at hnd
    exact (Multiset.nodup_cons.mp hnd).1
  have hframe : ∀ j, j ≠ i → HeapAt s (st.heap j) (H j) := fun j hj =>
    (hsys.heapAt j).frame fun q hq =>
      hmoved.frame q fun hqi => hsys.not_mem_of_mem hqi j hj hq
  refine ⟨heap, s, hdelete, ?_, ?_, ?_, ?_, ?_, ?_, ?_, ?_⟩
  · intro m hm
    have helems := Heap.elems_delete hK (hsys.heapAt i).nodup
    refine ⟨_, ?_, hat.holds⟩
    rw [hm.unique (hsys.heapAt i).holds, helems, Multiset.map_cons, hval, Heap.elems_map,
      Multiset.map_map]
    congr 1
    exact Multiset.map_congr rfl fun q _ => (hmoved.value q).symm
  · intro j hj m hm
    rw [hm.unique (hsys.heapAt j).holds]
    have hvals : (H j).elems.map (fun q => (st.store.node q).value) =
        (H j).elems.map fun q => (s.node q).value := by
      refine Multiset.map_congr rfl fun q hq => ?_
      rw [hmoved.frame q fun hqi => hsys.not_mem_of_mem hqi j hj hq]
    rw [hvals]
    exact (hframe j hj).holds
  · have h := hwf i
    rwa [update_self] at h
  · intro j hj
    have h := hwf j
    rwa [update_of_ne hj] at h
  · rw [hslot, hat.inHeap_iff]
    exact hrout
  · intro j hj
    rw [hslot, (hframe j hj).inHeap_iff]
    exact hsys.not_mem_of_mem hr j hj
  · rw [hslot]
    exact hdeg
  · rw [hslot, hmoved.value, hσr]
    exact hval

/-- One value, registered and queued; its priority changes before the delete. -/
theorem bheap_handles_exact_single :
    ∃ st : HeapSystem Unit Nat, InHeap st.store (st.heap ()) (st.store.handle 9) ∧
      (st.store.node (st.store.handle 9)).value = 5 ∧
      ∃ heap s, bheapDelete (fun a b => smaller a b && decide (a ≠ 5)) (st.heap ())
          (st.store.handle 9) st.store = some (heap, s) ∧
        ¬InHeap s heap (s.handle 9) ∧ (s.node (s.handle 9)).degree = notInHeap := by
  have hstep₁ : HandleStep
      ((initialSystem restingStore smaller : HeapSystem Unit Nat),
        ({ slot := fun _ => none, nodes := ∅ } : Registry Nat))
      (.nodeInit 9 5)
      ({ store := bheapNodeInit 9 5 restingStore, heap := fun _ => bheapInit,
         higherPrio := smaller },
        { slot := update (fun _ => none) 5 (some 9),
          nodes := {q | q ∈ (∅ : Set NodePtr) ∨ q = 9} }) :=
    ⟨not_queued_of_init (fun _ => rfl) _, .inl ⟨rfl, by simp, by simp⟩, ⟨none, rfl⟩, rfl⟩
  have hstep₂ : HandleStep
      (({ store := bheapNodeInit 9 5 restingStore, heap := fun _ => bheapInit,
          higherPrio := smaller } : HeapSystem Unit Nat),
        ({ slot := update (fun _ => none) 5 (some 9),
           nodes := {q | q ∈ (∅ : Set NodePtr) ∨ q = 9} } : Registry Nat))
      (.insert () 9)
      ({ store := resetNode 9 (bheapNodeInit 9 5 restingStore),
         heap := update (fun _ => bheapInit) () { head := some 9, min := none },
         higherPrio := smaller },
        { slot := update (fun _ => none) 5 (some 9),
          nodes := {q | q ∈ (∅ : Set NodePtr) ∨ q = 9} }) :=
    ⟨⟨not_queued_of_init (fun _ => rfl) 9, strictWeakOn_smaller _ _⟩, .inr rfl, ⟨none, rfl⟩, rfl⟩
  have hrun := (Run.nil.snoc hstep₁).snoc hstep₂
  have hin : InHeap (resetNode 9 (bheapNodeInit 9 5 restingStore))
      { head := some 9, min := none } 9 := .inr (Reach.here 9)
  obtain ⟨⟨_, hval, _⟩, hdel⟩ := bheap_handles_exact hrun (v := 5) (h := 9) rfl
  obtain ⟨heap, s, hdelete, _, _, _, _, hout, _, hdeg, _⟩ :=
    hdel () (fun a b => smaller a b && decide (a ≠ 5)) hin (by
      intro a b ha _
      simp [ha])
  exact ⟨_, hin, hval, heap, s, hdelete, hout, hdeg⟩

end Litmus.LinkedHeap
