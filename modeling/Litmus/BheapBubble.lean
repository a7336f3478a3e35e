import Mathlib.Logic.Equiv.Basic
import Litmus.BheapLink

/-!
# Bubbling a value up

`bheap_delete` and `bheap_decrease` do not relink nodes: they swap values, refs and
handle contents along a path to the root.  The effect is a permutation `σ` of the
nodes: afterwards node `q` holds what node `σ q` held before.  On the forest of
node addresses that is `Forest.lift` (and `Forest.raise`, where nothing stops the
climb).
-/

namespace Litmus.LinkedHeap

open BinomialForest Forest Function
open Equiv (swap swap_apply_of_ne_of_ne swap_apply_right trans_apply)

variable {V : Type}

/-- The handle slot of every node in `X` points back at the node. -/
def HandlesExact (X : Set NodePtr) (s : Store V) : Prop :=
  ∀ q ∈ X, s.handle (s.node q).ref = q

/-- From `s` to `s'` only nodes in `X` were written, and node `q` now holds the
    value and ref of node `σ q`. -/
structure Moved (X : Multiset NodePtr) (σ : Equiv.Perm NodePtr) (s s' : Store V) : Prop where
  frame : ∀ q ∉ X, s'.node q = s.node q
  value : ∀ q, (s'.node q).value = (s.node (σ q)).value
  ref : ∀ q, (s'.node q).ref = (s.node (σ q)).ref
  fixed : ∀ q ∉ X, σ q = q
  handle : ∀ h, (∀ q ∈ X, (s.node q).ref ≠ h) → s'.handle h = s.handle h
  handlesExact : ∀ Y : Set NodePtr, (∀ q ∈ X, q ∈ Y) → HandlesExact Y s → HandlesExact Y s'

namespace Moved

variable {X Y : Multiset NodePtr} {σ : Equiv.Perm NodePtr} {s s1 s' : Store V}

theorem of_within (h : Within X s s') : Moved X (Equiv.refl NodePtr) s s' where
  frame := h.frame
  value q := by rw [h.value]; rfl
  ref q := by rw [h.ref]; rfl
  fixed _ _ := rfl
  handle k _ := by rw [h.handle]
  handlesExact Y _ hY q hq := by
    rw [h.handle, h.ref]
    exact hY q hq

theorem mono (h : Moved X σ s s') (hXY : ∀ q ∈ X, q ∈ Y) : Moved Y σ s s' where
  frame q hq := h.frame q fun hX => hq (hXY q hX)
  value := h.value
  ref := h.ref
  fixed q hq := h.fixed q fun hX => hq (hXY q hX)
  handle k hk := h.handle k fun q hq => hk q (hXY q hq)
  handlesExact Z hZ := h.handlesExact Z fun q hq => hZ q (hXY q hq)

theorem trans_within (h : Moved X σ s s1) (h' : Within X s1 s') : Moved X σ s s' where
  frame q hq := (h'.frame q hq).trans (h.frame q hq)
  value q := (h'.value q).trans (h.value q)
  ref q := (h'.ref q).trans (h.ref q)
  fixed := h.fixed
  handle k hk := by rw [h'.handle, h.handle k hk]
  handlesExact Y hY hex q hq := by
    rw [h'.handle, h'.ref]
    exact h.handlesExact Y hY hex q hq

theorem maps (h : Moved X σ s s') {q : NodePtr} (hq : q ∈ X) : σ q ∈ X := by
  by_contra hou
  have hfix := h.fixed (σ q) hou
  rw [σ.injective hfix] at hou
  exact hou hq

theorem byValue_eq (h : Moved X σ s s') (hp : V → V → Bool) :
    byValue hp s' = fun a b => byValue hp s (σ a) (σ b) := by
  funext a b
  simp [byValue, h.value]

end Moved

/-! ### One swap -/

variable {a b : NodePtr}

theorem swapWithParent_links (a b : NodePtr) (s : Store V) (q : NodePtr) :
    SameLinks (s.node q) ((swapWithParent a b s).node q) := by
  by_cases hqa : q = a
  · by_cases hqb : q = b
    · subst hqa hqb
      constructor <;> simp [swapWithParent]
    subst hqa
    constructor <;> simp [swapWithParent, hqb]
  by_cases hqb : q = b
  · subst hqb
    constructor <;> simp [swapWithParent, hqa]
  constructor <;> simp [swapWithParent, hqa, hqb]

theorem swapWithParent_handle (hab : a ≠ b) (s : Store V) :
    (swapWithParent a b s).handle = update (update s.handle (s.node b).ref a) (s.node a).ref b := by
  simp [swapWithParent, Store.setHandle, hab, Ne.symm hab, Store.modify]

theorem swapWithParent_payload (hab : a ≠ b) (s : Store V) (q : NodePtr) :
    ((swapWithParent a b s).node q).value = (s.node (swap a b q)).value ∧
      ((swapWithParent a b s).node q).ref = (s.node (swap a b q)).ref := by
  by_cases hqa : q = a
  · subst hqa
    simp [swapWithParent, hab, Ne.symm hab]
  by_cases hqb : q = b
  · subst hqb
    simp [swapWithParent, hab, hqa]
  rw [swap_apply_of_ne_of_ne hqa hqb]
  simp [swapWithParent, hqa, hqb]

theorem swapWithParent_frame {q : NodePtr} (hqa : q ≠ a) (hqb : q ≠ b) (s : Store V) :
    (swapWithParent a b s).node q = s.node q := by
  simp [swapWithParent, hqa, hqb]

theorem HandlesExact.swapWithParent {X : Set NodePtr} {s : Store V} (h : HandlesExact X s)
    (hab : a ≠ b) (ha : a ∈ X) (hb : b ∈ X) : HandlesExact X (swapWithParent a b s) := by
  have hrf : ∀ {p q : NodePtr}, p ∈ X → q ∈ X → p ≠ q → (s.node p).ref ≠ (s.node q).ref := by
    intro p q hp hq hpq href
    apply hpq
    rw [← h p hp, ← h q hq, href]
  intro q hq
  rw [swapWithParent_handle hab, (swapWithParent_payload hab s q).2]
  by_cases hqa : q = a
  · subst hqa
    rw [Equiv.swap_apply_left, update_of_ne (hrf hb ha (Ne.symm hab)), update_self]
  by_cases hqb : q = b
  · subst hqb
    rw [swap_apply_right, update_self]
  rw [swap_apply_of_ne_of_ne hqa hqb, update_of_ne (hrf hq ha hqa),
    update_of_ne (hrf hq hb hqb)]
  exact h q hq

theorem Moved.trans_swap {X : Multiset NodePtr} {σ : Equiv.Perm NodePtr} {s s1 : Store V}
    (h : Moved X σ s s1) (hab : a ≠ b) (ha : a ∈ X) (hb : b ∈ X) :
    Moved X ((swap a b).trans σ) s (swapWithParent a b s1) where
  frame q hq := by
    rw [swapWithParent_frame (by rintro rfl; exact hq ha) (by rintro rfl; exact hq hb)]
    exact h.frame q hq
  value q := by rw [(swapWithParent_payload hab s1 q).1, h.value]; rfl
  ref q := by rw [(swapWithParent_payload hab s1 q).2, h.ref]; rfl
  fixed q hq := by
    rw [trans_apply,
      swap_apply_of_ne_of_ne (by rintro rfl; exact hq ha) (by rintro rfl; exact hq hb)]
    exact h.fixed q hq
  handle k hk := by
    rw [swapWithParent_handle hab, h.ref, h.ref, update_of_ne (Ne.symm (hk _ (h.maps ha))),
      update_of_ne (Ne.symm (hk _ (h.maps hb)))]
    exact h.handle k hk
  handlesExact Y hY hex := (h.handlesExact Y hY hex).swapWithParent hab (hY a ha) (hY b hb)

/-! ### The climb -/

/-- What bubbling `p` up inside the forest `f` does.  Either the climb stops below
    the roots of `f`, at a node that does not climb past its parent, or it reaches
    a root of `f`, from where the loop goes on. -/
theorem bubbleUpLoop_spec (hp : V → V → Bool) (f : Forest NodePtr) : ∀ (p : NodePtr)
    (par h : Option NodePtr) (s : Store V), Rep s par h f → f.elems.Nodup → p ∈ f.elems →
    ∃ (σ : Equiv.Perm NodePtr) (s' : Store V) (r : NodePtr) (top : Bool) (k : Nat),
      Forest.lift (byValue hp s) p f = some (f.map σ, top) ∧ Moved f.elems σ s s' ∧
      (∀ q, SameLinks (s.node q) (s'.node q)) ∧ r ∈ f.elems ∧ σ r = p ∧ k < f.elems.card ∧
      (top = true → r ∈ f.roots ∧
        ∀ fuel, bubbleUpLoop hp (fuel + k) p s = bubbleUpLoop hp fuel r s') ∧
      (top = false → ∀ fuel, bubbleUpLoop hp (fuel + k + 1) p s = some (r, true, s')) := by
  -- induction on the forest from the top: the climb through the child list of `a`
  -- comes first, then possibly one more swap, with `a`
  induction f with
  | nil =>
    intro p par h s _ _ hp
    simp at hp
  | node a d c n ihc ihn =>
    intro p par h s hrep hnd hm
    obtain ⟨rfl, hpar, hdeg, hc, hn⟩ := hrep
    simp only [elems_node, Multiset.nodup_cons, Multiset.mem_add, not_or, Multiset.nodup_add] at hnd
    obtain ⟨⟨hac, han⟩, hnc, hndn, hdi⟩ := hnd
    simp only [elems_node, Multiset.mem_cons, Multiset.mem_add] at hm
    simp only [Forest.lift, elems_node, Multiset.card_cons, Multiset.card_add]
    by_cases hap : a = p
    · subst hap
      refine ⟨Equiv.refl NodePtr, s, a, true, 0, ?_, Moved.of_within (Within.refl _ s),
        fun q => SameLinks.of_eq rfl, by simp, rfl, by omega, ?_, (fun h => by cases h)⟩
      · rw [if_pos rfl]
        exact congrArg (fun g => some (g, true)) (map_id _).symm
      exact fun _ => ⟨by simp [roots], fun fuel => rfl⟩
    rcases hm.resolve_left (Ne.symm hap) with hpc | hpn
    · obtain ⟨σ, s1, r, top, k, hli, hmo, hln, hr, hσr, hk, hto, hh⟩ :=
        ihc p _ _ s hc hnc hpc
      have hfi : σ a = a := hmo.fixed a hac
      have hfx : ∀ q ∈ n.elems, σ q = q := fun q hq =>
        hmo.fixed q (Multiset.disjoint_right.mp hdi hq)
      have hmpn : n.map σ = n := (map_congr hfx).trans (map_id n)
      have hmoved' : Moved (a ::ₘ (c.elems + n.elems)) σ s s1 := hmo.mono (by simp +contextual)
      have hme : r ∈ a ::ₘ (c.elems + n.elems) := by simp [hr]
      have hma : (Forest.node a d c n).map σ = .node a d (c.map σ) n := by
        simp [Forest.map, hfi, hmpn]
      rw [if_neg hap, hli]
      cases top with
      | false =>
        refine ⟨σ, s1, r, false, k, ?_, hmoved', hln, hme, hσr, by omega,
          (fun h => by cases h), hh⟩
        rw [hma]
      | true =>
        obtain ⟨hro, hru⟩ := hto rfl
        have hra : r ≠ a := fun h => hac (h ▸ hr)
        have hpr : (s1.node r).parent = some a := by
          rw [(hln r).parent]
          exact hc.parent_root hro
        have hcm : hp (s1.node r).value (s1.node a).value = byValue hp s p a := by
          rw [hmo.value, hmo.value, hσr, hfi]
          rfl
        by_cases hwi : byValue hp s p a
        · refine ⟨(swap r a).trans σ, swapWithParent r a s1, a, true, k + 1, ?_,
            hmoved'.trans_swap hra hme (by simp), ?_, by simp, ?_, by omega, ?_,
            (fun h => by cases h)⟩
          · simp only [if_pos hwi]
            have hre := relabelRoot_map σ ((swap r a).trans σ) hro hnc (by
                intro q hq hqr
                have hqa : q ≠ a := fun h => hac (h ▸ hq)
                rw [trans_apply, swap_apply_of_ne_of_ne hqr hqa])
              (fun q _ hq => σ.injective hq)
            have hra' : ((swap r a).trans σ) r = a := by
              rw [trans_apply, Equiv.swap_apply_left, hfi]
            have hap' : ((swap r a).trans σ) a = p := by
              rw [trans_apply, swap_apply_right, hσr]
            have hmapn' : n.map ((swap r a).trans σ) = n := by
              refine Eq.trans (map_congr fun q hq => ?_) (map_id n)
              have hqr : q ≠ r := fun h => Multiset.disjoint_left.mp hdi hr (h ▸ hq)
              have hqa : q ≠ a := fun h => han (h ▸ hq)
              rw [trans_apply, swap_apply_of_ne_of_ne hqr hqa, hfx q hq]
              rfl
            rw [hσr, hra'] at hre
            simp only [Forest.map, hap', hmapn', hre]
          · exact fun q => (hln q).trans (swapWithParent_links r a s1 q)
          · rw [trans_apply, swap_apply_right, hσr]
          · refine fun _ => ⟨by simp [roots], fun fuel => ?_⟩
            have hs : bubbleUpLoop hp (fuel + 1) r s1 =
                bubbleUpLoop hp fuel a (swapWithParent r a s1) := by
              simp [bubbleUpLoop, hpr, hcm, if_pos hwi]
            rw [← hs, ← hru (fuel + 1)]
            congr 1
            omega
        refine ⟨σ, s1, r, false, k, ?_, hmoved', hln, hme, hσr, by omega,
          (fun h => by cases h), ?_⟩
        · simp only [if_neg hwi]
          rw [hma]
        intro _ fuel
        have hsto : bubbleUpLoop hp (fuel + 1) r s1 = some (r, true, s1) := by
          simp [bubbleUpLoop, hpr, hcm, if_neg hwi]
        rw [← hsto, ← hru (fuel + 1)]
        congr 1
        omega
    · have hpc : p ∉ c.elems := fun h => Multiset.disjoint_left.mp hdi h hpn
      have hnon : Forest.lift (byValue hp s) p c = none := by
        cases hl : Forest.lift (byValue hp s) p c with
        | none => rfl
        | some x => exact absurd (lift_mem hl) hpc
      obtain ⟨σ, s1, r, top, k, hli, hmo, hln, hr, hσr, hk, hto, hh⟩ :=
        ihn p _ _ s hn hndn hpn
      have hmpc : c.map σ = c := by
        refine Eq.trans (map_congr fun q hq => ?_) (map_id c)
        exact hmo.fixed q (Multiset.disjoint_left.mp hdi hq)
      refine ⟨σ, s1, r, top, k, ?_, hmo.mono (by simp +contextual), hln, by simp [hr],
        hσr, by omega, ?_, hh⟩
      · rw [if_neg hap, hnon, hli]
        simp [Forest.map, hmpc, hmo.fixed a han]
      intro ht
      obtain ⟨hro, hru⟩ := hto ht
      exact ⟨by simp [roots, hro], hru⟩

end Litmus.LinkedHeap
