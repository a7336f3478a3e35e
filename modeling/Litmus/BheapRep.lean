import Litmus.Bheap
import Litmus.BinomialHeap

/-!
# Linked memory represents a binomial forest

`Rep s par h f` says that the list of nodes that starts at pointer `h` is the
forest `f`, whose labels are the nodes' own addresses: child, sibling, parent
and degree fields are the ones the forest shows.

Each loop of `bheap.c` is then the forest operation of the same purpose.  A loop
that rebuilds a list works behind a *location*, the list head or the `next` field
of the node before; its specification reads the rebuilt list from that location
and says that nothing else changed (`Relinked`).  Stated like that the loops
compose without mentioning the part of the list that is already done.
-/

namespace Litmus.LinkedHeap

open BinomialForest Forest Store Forest Multiset
open Multiset (mem_add mem_cons nodup_cons mem_cons_of_mem nodup_add cons_add add_cons)

variable {V : Type} {s : Store V} {par h : Option NodePtr} {f : Forest NodePtr}

def byValue (hp : V → V → Bool) (s : Store V) (a b : NodePtr) : Bool :=
  hp (s.node a).value (s.node b).value

/-- The list at `h` is the forest `f`, and its nodes have parent `par`. -/
def Rep (s : Store V) : Option NodePtr → Option NodePtr → Forest NodePtr → Prop
  | _, h, .nil => h = none
  | par, h, .node p d c n =>
      h = some p ∧ (s.node p).parent = par ∧ (s.node p).degree = d ∧
        Rep s (some p) (s.node p).child c ∧ Rep s par (s.node p).next n

structure SameLinks (m n : BheapNode V) : Prop where
  parent : n.parent = m.parent
  next : n.next = m.next
  child : n.child = m.child
  degree : n.degree = m.degree

theorem SameLinks.of_eq {m n : BheapNode V} (h : n = m) : SameLinks m n := by
  subst h
  exact ⟨rfl, rfl, rfl, rfl⟩

theorem SameLinks.trans {l m n : BheapNode V} (h : SameLinks l m) (h' : SameLinks m n) :
    SameLinks l n :=
  ⟨h'.parent.trans h.parent, h'.next.trans h.next, h'.child.trans h.child, h'.degree.trans h.degree⟩

theorem Rep.frame_links {s' : Store V} (hre : Rep s par h f)
    (hs : ∀ q ∈ f.elems, SameLinks (s.node q) (s'.node q)) : Rep s' par h f := by
  induction f generalizing par h with
  | nil => exact hre
  | node p d c n ihc ihn =>
    obtain ⟨rfl, hpar, hdeg, hc, hn⟩ := hre
    simp only [elems_node, mem_cons, mem_add] at hs
    have hp := hs p (.inl rfl)
    refine ⟨rfl, hp.parent.trans hpar, hp.degree.trans hdeg, ?_, ?_⟩
    · rw [hp.child]
      exact ihc hc fun q hq => hs q (.inr (.inl hq))
    rw [hp.next]
    exact ihn hn fun q hq => hs q (.inr (.inr hq))

theorem Rep.frame {s' : Store V} (hrep : Rep s par h f)
    (hs : ∀ q ∈ f.elems, s'.node q = s.node q) : Rep s' par h f :=
  hrep.frame_links fun q hq => SameLinks.of_eq (hs q hq)

theorem Rep.parent_root (hrep : Rep s par h f) {r : NodePtr} (hr : r ∈ f.roots) :
    (s.node r).parent = par := by
  induction f generalizing h with
  | nil => cases hr
  | node p d c n _ ihn =>
    obtain ⟨_, hpar, _, _, hn⟩ := hrep
    rcases List.mem_cons.mp hr with rfl | hr
    · exact hpar
    exact ihn hn hr

theorem Rep.childrenOf (hrep : Rep s par h f) {r : NodePtr} (hr : r ∈ f.roots) :
    Rep s (some r) (s.node r).child (childrenOf r f) := by
  induction f generalizing h with
  | nil => cases hr
  | node p d c n _ ihn =>
    obtain ⟨_, _, _, hc, hn⟩ := hrep
    simp only [childrenOf]
    by_cases hpr : p = r
    · rw [if_pos hpr, ← hpr]
      exact hc
    rw [if_neg hpr]
    rcases List.mem_cons.mp hr with rfl | hr
    · exact absurd rfl hpr
    exact ihn hn hr

/-! ### Loops end: a list has no more nodes than there are addresses -/

theorem card_le_of_nodup {m : Multiset NodePtr} (h : m.Nodup) : m.card < stepBound := by
  have hinj : Function.Injective (BitVec.toFin : BitVec 64 → Fin (2 ^ 64)) := fun a b hab => by
    cases a
    cases b
    exact congrArg BitVec.ofFin hab
  have hcar := Finset.card_le_univ (⟨m.map BitVec.toFin, h.map hinj⟩ : Finset (Fin (2 ^ 64)))
  rw [Finset.card_mk, card_map, Fintype.card_fin] at hcar
  simp only [stepBound]
  omega

theorem length_roots_le (f : Forest NodePtr) : f.roots.length ≤ f.elems.card := by
  induction f with
  | nil => exact Nat.le_refl 0
  | node p d c n _ ihn =>
    simp only [roots, List.length_cons, elems_node, card_cons, card_add]
    omega

theorem nodup_roots (h : f.elems.Nodup) : f.roots.Nodup := by
  induction f with
  | nil => exact List.nodup_nil
  | node p d c n _ ihn =>
    simp only [elems_node, nodup_cons, nodup_add, mem_add] at h
    refine List.nodup_cons.mpr ⟨fun hp => h.1 (.inr (mem_elems_of_mem_roots hp)), ?_⟩
    exact ihn h.2.2.1

/-! ### Writing behind a location -/

/-- From `(head, s)` to `(head', s')` only links of nodes in `X` changed, and the
    pointer stored at `loc`. -/
structure Relinked (X : Multiset NodePtr) (head loc : Option NodePtr) (s : Store V)
    (head' : Option NodePtr) (s' : Store V) : Prop where
  frame : ∀ q ∉ X, loc ≠ some q → s'.node q = s.node q
  link : ∀ q ∉ X, loc = some q → s'.node q = { s.node q with next := (s'.node q).next }
  head_eq : loc ≠ none → head' = head
  handle : s'.handle = s.handle
  value : ∀ q, (s'.node q).value = (s.node q).value
  ref : ∀ q, (s'.node q).ref = (s.node q).ref

namespace Relinked

variable {X Y : Multiset NodePtr} {head head1 head' loc : Option NodePtr} {s s1 s' : Store V}

theorem refl (X : Multiset NodePtr) (head loc : Option NodePtr) (s : Store V) :
    Relinked X head loc s head s :=
  ⟨fun _ _ _ => rfl, fun _ _ _ => rfl, fun _ => rfl, rfl, fun _ => rfl, fun _ => rfl⟩

theorem mono (h : Relinked X head loc s head' s') (hXY : ∀ q ∈ X, q ∈ Y) :
    Relinked Y head loc s head' s' :=
  { h with
    frame := fun q hq => h.frame q fun hX => hq (hXY q hX)
    link := fun q hq => h.link q fun hX => hq (hXY q hX) }

theorem trans (h : Relinked X head loc s head1 s1) (h' : Relinked X head1 loc s1 head' s') :
    Relinked X head loc s head' s' where
  frame q hq hlo := (h'.frame q hq hlo).trans (h.frame q hq hlo)
  link q hq hlo := by
    rw [h'.link q hq hlo, h.link q hq hlo]
  head_eq hlo := (h'.head_eq hlo).trans (h.head_eq hlo)
  handle := h'.handle.trans h.handle
  value q := (h'.value q).trans (h.value q)
  ref q := (h'.ref q).trans (h.ref q)

theorem trans_inner {p : NodePtr} (h : Relinked X head loc s head1 s1)
    (h' : Relinked Y head1 (some p) s1 head' s') (hp : p ∈ X) (hYX : ∀ q ∈ Y, q ∈ X) :
    Relinked X head loc s head' s' := by
  have hou : ∀ q ∉ X, s'.node q = s1.node q := fun q hq =>
    h'.frame q (fun hY => hq (hYX q hY)) (by rintro ⟨⟩; exact hq hp)
  exact
    { frame := fun q hq hlo => (hou q hq).trans (h.frame q hq hlo)
      link := fun q hq hlo => by rw [hou q hq, h.link q hq hlo]
      head_eq := fun hlo => (h'.head_eq (by simp)).trans (h.head_eq hlo)
      handle := h'.handle.trans h.handle
      value := fun q => (h'.value q).trans (h.value q)
      ref := fun q => (h'.ref q).trans (h.ref q) }

theorem byValue_eq (h : Relinked X head loc s head' s') (hp : V → V → Bool) :
    byValue hp s' = byValue hp s := by
  funext a b
  simp [byValue, h.value]

theorem readLink_eq {p : NodePtr} (h : Relinked X head (some p) s head' s')
    (hloc : ∀ q, loc = some q → q ∉ X ∧ q ≠ p) : readLink head' loc s' = readLink head loc s := by
  cases loc with
  | none => exact h.head_eq (by simp)
  | some q =>
    obtain ⟨hq, hqp⟩ := hloc q rfl
    simp only [readLink]
    rw [h.frame q hq (by rintro ⟨⟩; exact hqp rfl)]

end Relinked

theorem writeLink_relinked (head loc v : Option NodePtr) (s : Store V) :
    Relinked 0 head loc s (writeLink head loc v s).1 (writeLink head loc v s).2 := by
  cases loc with
  | none =>
    exact ⟨fun _ _ _ => rfl, fun _ _ _ => rfl, fun h => absurd rfl h, rfl, fun _ => rfl,
      fun _ => rfl⟩
  | some p =>
    refine ⟨?_, ?_, fun _ => rfl, rfl, ?_, ?_⟩
    · intro q _ hq
      have hqp : q ≠ p := fun h => hq (congrArg some h.symm)
      simp [writeLink, hqp]
    · rintro q _ ⟨⟩
      simp [writeLink]
    · intro q
      by_cases hqp : q = p
      · simp [writeLink, hqp]
      simp [writeLink, hqp]
    · intro q
      by_cases hqp : q = p
      · simp [writeLink, hqp]
      simp [writeLink, hqp]

theorem readLink_writeLink (head loc v : Option NodePtr) (s : Store V) :
    readLink (writeLink head loc v s).1 loc (writeLink head loc v s).2 = v := by
  cases loc <;> simp [readLink, writeLink]

theorem Rep.writeLink {par h head loc v : Option NodePtr}
    (hrep : Rep s par h f) (hloc : ∀ q, loc = some q → q ∉ f.elems) :
    Rep (writeLink head loc v s).2 par h f :=
  hrep.frame fun q hq => (writeLink_relinked head loc v s).frame q (by simp) fun h' =>
    hloc q h' hq

/-- One tree is in place behind `loc` and the list behind that tree was rebuilt:
    then the list behind `loc` is the tree followed by the rebuilt list. -/
theorem Rep.advance {s s1 s' : Store V} {par head head1 head' loc : Option NodePtr} {p : NodePtr}
    {d : Nat} {c rest : Forest NodePtr} {Y : Multiset NodePtr}
    (hou : Relinked 0 head loc s head1 s1) (hrea : readLink head1 loc s1 = some p)
    (hin : Relinked Y head1 (some p) s1 head' s') (hpar : (s.node p).parent = par)
    (hdeg : (s.node p).degree = d) (hc : Rep s (some p) (s.node p).child c)
    (hres : Rep s' par (s'.node p).next rest) (hnd : (p ::ₘ (c.elems + Y)).Nodup)
    (hlo : ∀ q, loc = some q → q ∉ p ::ₘ (c.elems + Y)) :
    Rep s' par (readLink head' loc s') (.node p d c rest) ∧
      Relinked (p ::ₘ (c.elems + Y)) head loc s head' s' := by
  simp only [nodup_cons, nodup_add, mem_add, not_or] at hnd
  obtain ⟨⟨hpc, hpY⟩, _, _, hdis⟩ := hnd
  simp only [mem_cons, mem_add, not_or] at hlo
  have hs1 : ∀ q ∈ p ::ₘ c.elems, s1.node q = s.node q := by
    intro q hq
    refine hou.frame q (by simp) fun h' => ?_
    rcases mem_cons.mp hq with rfl | hq
    · exact (hlo q h').1 rfl
    exact (hlo q h').2.1 hq
  have hp : s'.node p = { s.node p with next := (s'.node p).next } := by
    rw [← hs1 p (by simp)]
    exact hin.link p hpY rfl
  refine ⟨⟨?_, ?_, ?_, ?_, hres⟩, ?_⟩
  · rw [← hrea]
    exact hin.readLink_eq fun q hq => ⟨(hlo q hq).2.2, (hlo q hq).1⟩
  · rw [hp]
    exact hpar
  · rw [hp]
    exact hdeg
  · rw [hp]
    refine hc.frame fun q hq => ?_
    rw [hin.frame q (disjoint_left.mp hdis hq) (by rintro ⟨⟩; exact hpc hq)]
    exact hs1 q (mem_cons_of_mem hq)
  · exact (hou.mono (by simp)).trans_inner hin (by simp) (by simp +contextual)

/-! ### `__bheap_merge` -/

theorem mergeLoop_spec (fa fb : Forest NodePtr) : ∀ (fuel : Nat)
    (a b head loc par : Option NodePtr) (s : Store V),
    fa.roots.length + fb.roots.length < fuel → Rep s par a fa → Rep s par b fb →
    (fa.elems + fb.elems).Nodup → (∀ q, loc = some q → q ∉ fa.elems + fb.elems) →
    ∃ head' s', mergeLoop fuel a b head loc s = some (head', s') ∧
      Rep s' par (readLink head' loc s') (merge fa fb) ∧
      Relinked (fa.elems + fb.elems) head loc s head' s' := by
  -- induction along the merged list; `loc` is the link behind what is merged already
  induction fa, fb using merge_induction with
  | nil_left g =>
    intro fuel a b head loc par s hfu ha hb hnd hlo
    obtain ⟨fuel, rfl⟩ : ∃ k, fuel = k + 1 := ⟨fuel - 1, by omega⟩
    cases ha
    simp only [elems_nil, zero_add] at hlo ⊢
    refine ⟨(writeLink head loc b s).1, (writeLink head loc b s).2, rfl, ?_,
      (writeLink_relinked head loc b s).mono (by simp)⟩
    rw [readLink_writeLink]
    exact hb.writeLink hlo
  | nil_right p d c n =>
    intro fuel a b head loc par s hfu ha hb hnd hlo
    obtain ⟨fuel, rfl⟩ : ∃ k, fuel = k + 1 := ⟨fuel - 1, by omega⟩
    cases hb
    simp only [elems_nil, add_zero, merge_nil_right] at hlo ⊢
    have ha' := ha
    obtain ⟨rfl, _⟩ := ha
    refine ⟨(writeLink head loc (some p) s).1, (writeLink head loc (some p) s).2, rfl, ?_,
      (writeLink_relinked head loc (some p) s).mono (by simp)⟩
    rw [readLink_writeLink]
    exact ha'.writeLink hlo
  | take_left p d c n q e k m hlt ih =>
    intro fuel a b head loc par s hfu ha hb hnd hlo
    obtain ⟨fuel, rfl⟩ : ∃ k, fuel = k + 1 := ⟨fuel - 1, by omega⟩
    have hb' := hb
    obtain ⟨rfl, hpa, hde, hc, hn⟩ := ha
    obtain ⟨rfl, _, hdeg', _, _⟩ := hb
    have hsp : (node p d c n).elems + (node q e k m).elems =
        p ::ₘ (c.elems + (n.elems + (node q e k m).elems)) := by
      rw [elems_node p, cons_add, add_assoc]
    rw [hsp] at hnd hlo ⊢
    have hou := writeLink_relinked head loc (some p) s
    have hnd' := nodup_cons.mp hnd
    have hp := hou.frame p (by simp) fun h' => hlo p h' (by simp)
    obtain ⟨head', s', hru, hre, hin⟩ := ih fuel (s.node p).next (some q)
      (writeLink head loc (some p) s).1 (some p) par (writeLink head loc (some p) s).2
      (by simp only [roots, List.length_cons] at hfu ⊢; omega)
      (hn.writeLink fun r hr hr' => hlo r hr (by simp [hr']))
      (hb'.writeLink fun r hr hr' => hlo r hr (mem_cons_of_mem (mem_add.mpr (.inr
          (mem_add.mpr (.inr hr'))))))
      (nodup_add.mp hnd'.2).2.1
      (by rintro r ⟨⟩ hr; exact hnd'.1 (mem_add.mpr (.inr hr)))
    refine ⟨head', s', ?_, ?_⟩
    · simp only [mergeLoop, hde, hdeg', if_pos hlt, hp]
      exact hru
    rw [merge_node_node, if_pos hlt]
    exact Rep.advance hou (readLink_writeLink _ _ _ _) hin hpa hde hc hre hnd hlo
  | take_right p d c n q e k m hlt ih =>
    intro fuel a b head loc par s hfu ha hb hnd hlo
    obtain ⟨fuel, rfl⟩ : ∃ k, fuel = k + 1 := ⟨fuel - 1, by omega⟩
    have ha' := ha
    obtain ⟨rfl, _, hdeg', _, _⟩ := ha
    obtain ⟨rfl, hpa, hde, hc, hn⟩ := hb
    have hsp : (node p d c n).elems + (node q e k m).elems =
        q ::ₘ (k.elems + ((node p d c n).elems + m.elems)) := by
      rw [elems_node q, add_cons]
      congr 1
      rw [add_left_comm]
    rw [hsp] at hnd hlo ⊢
    have hou := writeLink_relinked head loc (some q) s
    have hnd' := nodup_cons.mp hnd
    have hq := hou.frame q (by simp) fun h' => hlo q h' (by simp)
    obtain ⟨head', s', hru, hre, hin⟩ := ih fuel (some p) (s.node q).next
      (writeLink head loc (some q) s).1 (some q) par (writeLink head loc (some q) s).2
      (by simp only [roots, List.length_cons] at hfu ⊢; omega)
      (ha'.writeLink fun r hr hr' => hlo r hr (mem_cons_of_mem (mem_add.mpr (.inr
          (mem_add.mpr (.inl hr'))))))
      (hn.writeLink fun r hr hr' => hlo r hr (by simp [hr']))
      (nodup_add.mp hnd'.2).2.1
      (by rintro r ⟨⟩ hr; exact hnd'.1 (mem_add.mpr (.inr hr)))
    refine ⟨head', s', ?_, ?_⟩
    · simp only [mergeLoop, hde, hdeg', if_neg hlt, hq]
      exact hru
    rw [merge_node_node, if_neg hlt]
    exact Rep.advance hou (readLink_writeLink _ _ _ _) hin hpa hde hc hre hnd hlo

/-! ### `__bheap_reverse` -/

/-- Between `s` and `s'` only links of nodes in `X` changed. -/
structure Within (X : Multiset NodePtr) (s s' : Store V) : Prop where
  frame : ∀ q ∉ X, s'.node q = s.node q
  handle : s'.handle = s.handle
  value : ∀ q, (s'.node q).value = (s.node q).value
  ref : ∀ q, (s'.node q).ref = (s.node q).ref

namespace Within

variable {X Y : Multiset NodePtr} {s s1 s' : Store V}

theorem refl (X : Multiset NodePtr) (s : Store V) : Within X s s :=
  ⟨fun _ _ => rfl, rfl, fun _ => rfl, fun _ => rfl⟩

theorem mono (h : Within X s s') (hXY : ∀ q ∈ X, q ∈ Y) : Within Y s s' :=
  { h with frame := fun q hq => h.frame q fun hX => hq (hXY q hX) }

theorem trans (h : Within X s s1) (h' : Within X s1 s') : Within X s s' where
  frame q hq := (h'.frame q hq).trans (h.frame q hq)
  handle := h'.handle.trans h.handle
  value q := (h'.value q).trans (h.value q)
  ref q := (h'.ref q).trans (h.ref q)

theorem byValue_eq (h : Within X s s') (hp : V → V → Bool) : byValue hp s' = byValue hp s := by
  funext a b
  simp [byValue, h.value]

theorem readLink_eq (h : Within X s s') {head loc : Option NodePtr}
    (hloc : ∀ q, loc = some q → q ∉ X) : readLink head loc s' = readLink head loc s := by
  cases loc with
  | none => rfl
  | some q =>
    simp only [readLink]
    rw [h.frame q (hloc q rfl)]

theorem relinked (h : Within X s s') (head loc : Option NodePtr) :
    Relinked X head loc s head s' where
  frame q hq _ := h.frame q hq
  link q hq _ := by rw [h.frame q hq]
  head_eq _ := rfl
  handle := h.handle
  value := h.value
  ref := h.ref

end Within

theorem Relinked.within {X : Multiset NodePtr} {head head' : Option NodePtr} {s s' : Store V}
    (h : Relinked X head none s head' s') : Within X s s' :=
  ⟨fun q hq => h.frame q hq (by simp), h.handle, h.value, h.ref⟩

theorem modify_within (s : Store V) (p : NodePtr) (g : BheapNode V → BheapNode V)
    (hv : (g (s.node p)).value = (s.node p).value) (hr : (g (s.node p)).ref = (s.node p).ref) :
    Within {p} s (s.modify p g) := by
  refine ⟨fun q hq => ?_, rfl, fun q => ?_, fun q => ?_⟩
  · exact node_modify_of_ne s (by simpa using hq) g
  · by_cases hqp : q = p
    · rw [hqp, node_modify_self, hv]
    rw [node_modify_of_ne s hqp]
  by_cases hqp : q = p
  · rw [hqp, node_modify_self, hr]
  rw [node_modify_of_ne s hqp]

theorem reverseLoop_spec (n : Forest NodePtr) : ∀ (fuel : Nat) (p : NodePtr) (d : Nat)
    (c acc : Forest NodePtr) (tail par : Option NodePtr) (s : Store V),
    n.roots.length < fuel → (s.node p).parent = none → (s.node p).degree = d →
    Rep s (some p) (s.node p).child c → Rep s par (s.node p).next n → Rep s none tail acc →
    ((node p d c n).elems + acc.elems).Nodup →
    ∃ head s', reverseLoop fuel p tail s = some (head, s') ∧
      Rep s' none head (revAppend (.node p d c n) acc) ∧
      Within ((node p d c n).elems + acc.elems) s s' := by
  induction n with
  | nil =>
    intro fuel p d c acc tail par s hfu hpr hde hc hn hac hnd
    obtain ⟨fuel, rfl⟩ : ∃ k, fuel = k + 1 := ⟨fuel - 1, by omega⟩
    have hne : (s.node p).next = none := hn
    simp only [elems_node, elems_nil, add_zero, cons_add, nodup_cons, mem_add, not_or] at hnd
    obtain ⟨⟨hpc, hpa⟩, _⟩ := hnd
    refine ⟨some p, s.modify p fun m => { m with next := tail }, ?_, ?_, ?_⟩
    · simp [reverseLoop, hne]
    · refine ⟨rfl, by simpa using hpr, by simpa using hde, ?_, ?_⟩
      · rw [node_modify_self]
        exact hc.frame fun q hq => node_modify_of_ne s (by rintro rfl; exact hpc hq) _
      rw [node_modify_self]
      exact hac.frame fun q hq => node_modify_of_ne s (by rintro rfl; exact hpa hq) _
    exact (modify_within s p _ rfl rfl).mono (by simp)
  | node b e k m _ ihm =>
    intro fuel p d c acc tail par s hfu hpr hde hc hn hac hnd
    obtain ⟨fuel, rfl⟩ : ∃ k, fuel = k + 1 := ⟨fuel - 1, by omega⟩
    obtain ⟨hne, _, hdgb, hk, hm⟩ := hn
    have hnd' := hnd
    simp only [elems_node, cons_add, nodup_cons, mem_add, add_cons, mem_cons, not_or, nodup_add,
      disjoint_add_left, disjoint_add_right] at hnd
    obtain ⟨⟨hpb, ⟨hpc, hpk, hpm⟩, hpa⟩, ⟨⟨hbc, hbk, hbm⟩, hba⟩, _⟩ := hnd
    -- the node moved to the reversed list, and the next node cut off its parent
    have hw : Within {p, b} s ((s.modify p fun x => { x with next := tail }).modify b
        fun x => { x with parent := none }) :=
      ((modify_within s p _ rfl rfl).mono (by simp)).trans
        ((modify_within _ b _ rfl rfl).mono (by simp))
    have hb' : ((s.modify p fun x => { x with next := tail }).modify b
        fun x => { x with parent := none }).node b = { s.node b with parent := none } := by
      rw [node_modify_self, node_modify_of_ne s (Ne.symm hpb)]
    have hp' : ((s.modify p fun x => { x with next := tail }).modify b
        fun x => { x with parent := none }).node p = { s.node p with next := tail } := by
      rw [node_modify_of_ne _ hpb, node_modify_self]
    have hfr : ∀ (f : Forest NodePtr), p ∉ f.elems → b ∉ f.elems → ∀ q ∈ f.elems,
        ((s.modify p fun x => { x with next := tail }).modify b
          fun x => { x with parent := none }).node q = s.node q := fun f hpf hbf q hq =>
      hw.frame q (by
        simp only [insert_eq_cons, mem_cons, mem_singleton, not_or]
        exact ⟨fun h => hpf (h ▸ hq), fun h => hbf (h ▸ hq)⟩)
    have hpe : (node b e k m).elems + (node p d c acc).elems =
        (node p d c (.node b e k m)).elems + acc.elems := by
      simp only [elems_node, cons_add, add_cons]
      rw [add_left_comm (k.elems + m.elems)]
      simp [add_assoc]
    obtain ⟨head, s', hr, hrep, hwi⟩ := ihm fuel b e k (.node p d c acc) (some p) par
      ((s.modify p fun x => { x with next := tail }).modify b fun x => { x with parent := none })
      (by simp only [roots, List.length_cons] at hfu; omega)
      (by rw [hb']) (by rw [hb']; exact hdgb)
      (by rw [hb']; exact hk.frame (hfr k hpk hbk))
      (by rw [hb']; exact hm.frame (hfr m hpm hbm))
      ⟨rfl, by rw [hp']; exact hpr, by rw [hp']; exact hde,
        by rw [hp']; exact hc.frame (hfr c hpc hbc),
        by rw [hp']; exact hac.frame (hfr acc hpa hba)⟩
      (hpe ▸ hnd')
    refine ⟨head, s', ?_, hrep, ?_⟩
    · simp only [reverseLoop, hne]
      exact hr
    rw [hpe] at hwi
    exact (hw.mono (by simp)).trans hwi

theorem rawBheapReverse_spec {c : Forest NodePtr} (hre : Rep s par h c) (hnd : c.elems.Nodup) :
    ∃ head s', rawBheapReverse h s = some (head, s') ∧ Rep s' none head c.rev ∧
      Within c.elems s s' := by
  cases c with
  | nil =>
    cases hre
    exact ⟨none, s, rfl, rfl, Within.refl _ s⟩
  | node p d c n =>
    obtain ⟨rfl, _, hdeg, hc, hn⟩ := hre
    have hnd' := hnd
    simp only [elems_node, nodup_cons, mem_add, not_or] at hnd
    have hw := modify_within s p (fun x => { x with parent := none }) rfl rfl
    have hfr : ∀ (f : Forest NodePtr), p ∉ f.elems → ∀ q ∈ f.elems,
        (s.modify p fun x => { x with parent := none }).node q = s.node q := fun f hpf q hq =>
      hw.frame q (by simpa using fun h : q = p => hpf (h ▸ hq))
    have hlen : n.roots.length < stepBound := by
      have hcar := card_le_of_nodup hnd'
      have hroo := length_roots_le (.node p d c n)
      simp only [roots, List.length_cons] at hroo
      omega
    obtain ⟨head, s', hr, hrep', hwi⟩ := reverseLoop_spec n stepBound p d c .nil none par
      (s.modify p fun x => { x with parent := none }) hlen (by simp) (by simpa using hdeg)
      (by rw [node_modify_self]; exact hc.frame (hfr c hnd.1.1))
      (by rw [node_modify_self]; exact hn.frame (hfr n hnd.1.2)) rfl
      (by simpa using hnd')
    refine ⟨head, s', hr, hrep', ?_⟩
    simp only [elems_nil, add_zero] at hwi
    exact (hw.mono (by simp)).trans hwi

end Litmus.LinkedHeap
