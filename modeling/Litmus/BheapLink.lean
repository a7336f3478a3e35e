import Litmus.BheapRep

/-!
# Linking, union and extraction in linked memory

`__bheap_union` is `Forest.meld`, and unlinking a root is `Forest.extract`, both
with nodes compared by their values.  Besides the forest, each lemma keeps track
of what the code leaves alone, because other heaps live in the same memory.
-/

namespace Litmus.LinkedHeap

open BinomialForest Forest Multiset
open Multiset (mem_add mem_cons nodup_cons nodup_add cons_add add_cons mem_singleton)

variable {V : Type}

/-! ### `__bheap_link` -/

variable {s : Store V} {f : Forest NodePtr}

theorem rawBheapLink_node {root child : NodePtr} (h : root ≠ child) :
    (rawBheapLink root child s).node root =
        { s.node root with child := some child, degree := (s.node root).degree + 1 } ∧
      (rawBheapLink root child s).node child =
        { s.node child with parent := some root, next := (s.node root).child } := by
  constructor
  · simp [rawBheapLink, h]
  simp [rawBheapLink, h, Ne.symm h]

theorem rawBheapLink_within (root child : NodePtr) (s : Store V) :
    Within {root, child} s (rawBheapLink root child s) := by
  have h1 := modify_within s child (fun n => { n with parent := some root }) rfl rfl
  have h2 := modify_within (s.modify child fun n => { n with parent := some root }) child
    (fun n => { n with
      next := ((s.modify child fun n => { n with parent := some root }).node root).child }) rfl rfl
  refine (((h1.mono ?_).trans (h2.mono ?_)).trans
    ((modify_within _ root (fun n => { n with child := some child }) rfl rfl).mono ?_)).trans
    ((modify_within _ root (fun n => { n with degree := n.degree + 1 }) rfl rfl).mono ?_)
  all_goals simp

/-- Linking hangs the tree of `child` into the child list of `root`, and leaves
    what follows `root` in its list alone. -/
theorem Rep.link {root child : NodePtr} {par rest : Option NodePtr} {d e : Nat}
    {c k n : Forest NodePtr} (hpar : (s.node root).parent = par) (hdeg : (s.node root).degree = d)
    (hdeg' : (s.node child).degree = e) (hc : Rep s (some root) (s.node root).child c)
    (hk : Rep s (some child) (s.node child).child k) (hn : Rep s par rest n)
    (hnd : (root ::ₘ child ::ₘ (k.elems + c.elems + n.elems)).Nodup) :
    ((rawBheapLink root child s).node root).parent = par ∧
      ((rawBheapLink root child s).node root).degree = d + 1 ∧
      ((rawBheapLink root child s).node root).next = (s.node root).next ∧
      Rep (rawBheapLink root child s) (some root)
        ((rawBheapLink root child s).node root).child (.node child e k c) ∧
      Rep (rawBheapLink root child s) par rest n := by
  simp only [nodup_cons, mem_cons, mem_add, not_or] at hnd
  obtain ⟨⟨hne, ⟨hrk, hrc⟩, hrn⟩, ⟨⟨hck, hcc⟩, hcn⟩, _⟩ := hnd
  obtain ⟨hr, hch⟩ := rawBheapLink_node (s := s) hne
  have hfr : ∀ (f : Forest NodePtr), root ∉ f.elems → child ∉ f.elems → ∀ q ∈ f.elems,
      (rawBheapLink root child s).node q = s.node q := by
    intro f hrf hcf q hq
    apply (rawBheapLink_within root child s).frame
    simp only [insert_eq_cons, mem_cons, mem_singleton, not_or]
    exact ⟨fun h => hrf (h ▸ hq), fun h => hcf (h ▸ hq)⟩
  refine ⟨by rw [hr]; exact hpar, by rw [hr]; exact congrArg (· + 1) hdeg, by rw [hr],
    ⟨by rw [hr], by rw [hch], by rw [hch]; exact hdeg', ?_, ?_⟩, hn.frame (hfr n hrn hcn)⟩
  · rw [hch]
    exact hk.frame (hfr k hrk hck)
  rw [hch]
  exact hc.frame (hfr c hrc hcc)

/-! ### `__bheap_union` -/

theorem Rep.startsWith {par h : Option NodePtr} (hre : Rep s par h f) (d : Nat) :
    h.any (fun nn => (s.node nn).degree == d) = startsWith d f := by
  cases f with
  | nil =>
    cases hre
    rfl
  | node p e c n =>
    obtain ⟨rfl, _, rfl, _⟩ := hre
    rfl

theorem unionLoop_spec (hp : V → V → Bool) (f : Forest NodePtr) : ∀ (fuel : Nat)
    (h1 loc : Option NodePtr) (x : NodePtr) (d : Nat) (c : Forest NodePtr)
    (next par : Option NodePtr) (s : Store V),
    f.roots.length < fuel → readLink h1 loc s = some x → (s.node x).parent = par →
    (s.node x).degree = d → Rep s (some x) (s.node x).child c → (s.node x).next = next →
    Rep s par next f → (x ::ₘ (c.elems + f.elems)).Nodup →
    (∀ q, loc = some q → q ∉ x ::ₘ (c.elems + f.elems)) →
    ∃ h1' s', unionLoop hp fuel h1 loc x next s = some (h1', s') ∧
      Rep s' par (readLink h1' loc s') (consolidate (byValue hp s) x d c f) ∧
      Relinked (x ::ₘ (c.elems + f.elems)) h1 loc s h1' s' := by
  -- induction on what follows the current tree; `loc` is the link that leads to it
  induction f with
  | nil =>
    intro fuel h1 loc x d c next par s hfu hre hpa hde hc hne hf hnd hlo
    obtain ⟨fuel, rfl⟩ : ∃ k, fuel = k + 1 := ⟨fuel - 1, by omega⟩
    cases hf
    refine ⟨h1, s, rfl, ?_, Relinked.refl _ _ _ _⟩
    exact ⟨hre, hpa, hde, hc, hne⟩
  | node b e k n _ ihn =>
    intro fuel h1 loc x d c next par s hfu hre hpa hde hc hne hf hnd hlo
    obtain ⟨fuel, rfl⟩ : ∃ k, fuel = k + 1 := ⟨fuel - 1, by omega⟩
    obtain ⟨rfl, hpr, hdg, hk, hn⟩ := hf
    have hfuel' : n.roots.length < fuel := by
      simp only [roots, List.length_cons] at hfu
      omega
    have hloo := hn.startsWith d
    have hnd' := hnd
    have hloc' := hlo
    simp only [elems_node, add_cons, nodup_cons, mem_cons,
      mem_add, not_or, nodup_add, disjoint_add_right] at hnd hlo
    obtain ⟨⟨hxb, hxc, hxk, hxn⟩, ⟨hbc, hbk, hbn⟩, hcd, ⟨hkd, hnn, hkn⟩, hck, hcn⟩ := hnd
    by_cases had : d ≠ e ∨ Forest.startsWith d n
    · -- nothing to do, advance
      have hinn : (b ::ₘ (k.elems + n.elems)).Nodup := by
        simp only [nodup_cons, mem_add, not_or, nodup_add]
        exact ⟨⟨hbk, hbn⟩, hkd, hnn, hkn⟩
      obtain ⟨h1', s', hr, hrp, hin⟩ := ihn fuel h1 (some x) b e k (s.node b).next par s
        hfuel' hne hpr hdg hk rfl hn hinn (by
          rintro q ⟨⟩
          simp only [mem_cons, mem_add, not_or]
          exact ⟨hxb, hxk, hxn⟩)
      refine ⟨h1', s', ?_, ?_⟩
      · simp only [unionLoop, hde, hdg, hloo, if_pos had]
        exact hr
      simp only [consolidate, if_pos had]
      exact Rep.advance (Relinked.refl 0 h1 loc s) hre hin hpa hde hc hrp hnd' hloc'
    have hlc : ∀ q, loc = some q → q ∉ ({x, b} : Multiset NodePtr) := by
      intro q hq
      simp only [insert_eq_cons, mem_cons, mem_singleton, not_or]
      exact ⟨(hlo q hq).1, (hlo q hq).2.1⟩
    by_cases hwi : byValue hp s x b
    · -- x becomes the root of next
      have hw1 := modify_within s x (fun m => { m with next := (s.node b).next }) rfl rfl
      have hs1 : ∀ q, q ≠ x →
          (s.modify x fun m => { m with next := (s.node b).next }).node q = s.node q :=
        fun q hq => Store.node_modify_of_ne s hq _
      have hx1 := Store.node_modify_self s x fun m => { m with next := (s.node b).next }
      obtain ⟨hpar2, hdeg2, hnext2, hc2, hn2⟩ := Rep.link
        (s := s.modify x fun m => { m with next := (s.node b).next }) (d := d) (e := e) (n := n)
        (by rw [hx1]; exact hpa) (by rw [hx1]; exact hde)
        (by rw [hs1 b (Ne.symm hxb)]; exact hdg)
        (by rw [hx1]; exact hc.frame fun q hq => hs1 q fun h => hxc (h ▸ hq))
        (by
          rw [hs1 b (Ne.symm hxb)]
          exact hk.frame fun q hq => hs1 q fun h => hxk (h ▸ hq))
        (hn.frame fun q hq => hs1 q fun h => hxn (h ▸ hq)) (by
          simp only [nodup_cons, mem_cons, mem_add, not_or, nodup_add, disjoint_add_left]
          exact ⟨⟨hxb, ⟨hxk, hxc⟩, hxn⟩, ⟨⟨hbk, hbc⟩, hbn⟩, ⟨hkd, hcd, hck.symm⟩, hnn,
            hkn, hcn⟩)
      have hw := (hw1.mono (by simp)).trans (rawBheapLink_within x b
        (s.modify x fun m => { m with next := (s.node b).next }))
      rw [hx1] at hnext2
      have hse : x ::ₘ ((Forest.node b e k c).elems + n.elems) =
          x ::ₘ (c.elems + (Forest.node b e k n).elems) := by
        simp only [elems_node, cons_add, add_cons]
        rw [add_comm k.elems, add_assoc]
      obtain ⟨h1', s', hr, hrp, hrl⟩ := ihn fuel h1 loc x (d + 1) (.node b e k c)
        (s.node b).next par _ hfuel' (by rw [hw.readLink_eq hlc]; exact hre) hpar2 hdeg2
        hc2 hnext2 hn2 (hse ▸ hnd') (fun q hq => hse ▸ hloc' q hq)
      rw [hse] at hrl
      refine ⟨h1', s', ?_, ?_, ?_⟩
      · simp only [byValue] at hwi
        simp only [unionLoop, hde, hdg, hloo, if_neg had, if_pos hwi]
        rw [hnext2]
        exact hr
      · simp only [consolidate, if_neg had, if_pos hwi]
        rw [hw.byValue_eq] at hrp
        exact hrp
      exact ((hw.relinked h1 loc).mono (by simp)).trans hrl
    -- next becomes the root of x
    have hrel1 := writeLink_relinked h1 loc (some b) s
    have hs1 : ∀ q, q ∈ x ::ₘ (c.elems + (Forest.node b e k n).elems) →
        (writeLink h1 loc (some b) s).2.node q = s.node q := fun q hq =>
      hrel1.frame q (by simp) fun h => hloc' q h hq
    obtain ⟨hpar2, hdeg2, hnext2, hc2, hn2⟩ := Rep.link
      (s := (writeLink h1 loc (some b) s).2) (d := e) (e := d) (n := n)
      (by rw [hs1 b (by simp)]; exact hpr) (by rw [hs1 b (by simp)]; exact hdg)
      (by rw [hs1 x (by simp)]; exact hde)
      (by rw [hs1 b (by simp)]; exact hk.frame fun q hq => hs1 q (by simp [hq]))
      (by rw [hs1 x (by simp)]; exact hc.frame fun q hq => hs1 q (by simp [hq]))
      (hn.frame fun q hq => hs1 q (by simp [hq])) (by
        simp only [nodup_cons, mem_cons, mem_add, not_or, nodup_add, disjoint_add_left]
        exact ⟨⟨Ne.symm hxb, ⟨hbc, hbk⟩, hbn⟩, ⟨⟨hxc, hxk⟩, hxn⟩, ⟨hcd, hkd, hck⟩, hnn,
          hcn, hkn⟩)
    have hw := rawBheapLink_within b x (writeLink h1 loc (some b) s).2
    have hswa := pair_comm b x
    rw [hs1 b (by simp)] at hnext2
    have hse : b ::ₘ ((Forest.node x d c k).elems + n.elems) =
        x ::ₘ (c.elems + (Forest.node b e k n).elems) := by
      simp only [elems_node, cons_add, add_cons]
      rw [cons_swap, add_assoc]
    obtain ⟨h1', s', hr, hrp, hrl⟩ := ihn fuel _ loc b (e + 1) (.node x d c k)
      (s.node b).next par _ hfuel'
      (by rw [hw.readLink_eq (hswa ▸ hlc)]; exact readLink_writeLink h1 loc (some b) s)
      hpar2 hdeg2 hc2 hnext2 hn2 (hse ▸ hnd') (fun q hq => hse ▸ hloc' q hq)
    rw [hse] at hrl
    refine ⟨h1', s', ?_, ?_, ?_⟩
    · simp only [byValue] at hwi
      simp only [unionLoop, hde, hdg, hloo, if_neg had, if_neg hwi]
      rw [hnext2]
      exact hr
    · simp only [consolidate, if_neg had, if_neg hwi]
      rw [hw.byValue_eq, hrel1.byValue_eq] at hrp
      exact hrp
    exact ((hrel1.mono (by simp)).trans ((hw.relinked _ loc).mono (by simp))).trans hrl

theorem rawBheapUnion_spec (hp : V → V → Bool) {heap : Bheap} {h2 : Option NodePtr} {s : Store V}
    {f g : Forest NodePtr} (hf : Rep s none heap.head f) (hg : Rep s none h2 g)
    (hnd : (f.elems + g.elems).Nodup) :
    ∃ heap' s', rawBheapUnion hp heap h2 s = some (heap', s') ∧ heap'.min = heap.min ∧
      Rep s' none heap'.head (meld (byValue hp s) f g) ∧ Within (f.elems + g.elems) s s' := by
  cases g with
  | nil =>
    cases hg
    exact ⟨heap, s, by simp [rawBheapUnion], rfl, hf, Within.refl _ s⟩
  | node q e k m =>
    have hg' := hg
    obtain ⟨rfl, _⟩ := hg
    cases f with
    | nil =>
      have hhe : heap.head = none := hf
      refine ⟨{ heap with head := some q }, s, by simp [rawBheapUnion, hhe], rfl, ?_,
        Within.refl _ s⟩
      exact hg'
    | node p d c n =>
      have hhe : heap.head = some p := hf.1
      have hcar := card_le_of_nodup hnd
      have hlen1 := length_roots_le (.node p d c n)
      have hlen2 := length_roots_le (.node q e k m)
      rw [hhe] at hf
      rw [card_add] at hcar
      obtain ⟨h1, s1, hmer, hrep1, hrel1⟩ := mergeLoop_spec _ _ stepBound (some p) (some q)
        none none none s (by omega) hf hg' hnd (by simp)
      have hel := elems_merge (.node p d c n) (.node q e k m)
      -- the merged list is not empty, so the code's `x->next` is safe
      cases hfg : merge (.node p d c n) (.node q e k m) with
      | nil =>
        rw [hfg] at hel
        simp at hel
      | node x dx cx nx =>
        rw [hfg] at hrep1 hel
        obtain ⟨rfl, hpar, hdeg, hc, hn⟩ := hrep1
        have hnd1 : (x ::ₘ (cx.elems + nx.elems)).Nodup := by
          rw [← elems_node x dx, hel]
          exact hnd
        have hlen : nx.roots.length < stepBound := by
          have h := length_roots_le (.node x dx cx nx)
          simp only [roots, List.length_cons, hel, card_add] at h
          omega
        obtain ⟨h1', s', hr, hrp, hre⟩ := unionLoop_spec hp nx stepBound (some x) none x dx
          cx (s1.node x).next none s1 hlen rfl hpar hdeg hc rfl hn hnd1 (by simp)
        refine ⟨{ heap with head := h1' }, s', ?_, rfl, ?_, ?_⟩
        · simp [rawBheapUnion, hhe, rawBheapMerge, hmer, hr]
        · rw [meld_node_node, hfg]
          rw [hrel1.byValue_eq] at hrp
          exact hrp
        rw [← elems_node x dx, hel] at hre
        exact hrel1.within.trans hre.within

/-! ### Unlinking a root -/

/-- The location that leads to root `r`. -/
def prevRoot (r : NodePtr) : Option NodePtr → Forest NodePtr → Option NodePtr
  | loc, .nil => loc
  | loc, .node p _ _ n => if p = r then loc else prevRoot r (some p) n

theorem minLoop_spec (hp : V → V → Bool) (s : Store V) (n : Forest NodePtr) : ∀ (fuel : Nat)
    (prev : Option NodePtr) (best last : NodePtr) (cur par : Option NodePtr),
    n.roots.length < fuel → Rep s par cur n → best ∉ n.roots → n.roots.Nodup →
    minLoop hp s fuel prev best last cur = some (if minRoot (byValue hp s) best n = best then prev
        else prevRoot (minRoot (byValue hp s) best n) (some last) n,
        minRoot (byValue hp s) best n) := by
  induction n with
  | nil =>
    intro fuel prev best last cur par hfu hre hbe hnd
    obtain ⟨fuel, rfl⟩ : ∃ k, fuel = k + 1 := ⟨fuel - 1, by omega⟩
    cases hre
    simp [minLoop, minRoot]
  | node a d c n _ ihn =>
    intro fuel prev best last cur par hfu hre hbe hnd
    obtain ⟨fuel, rfl⟩ : ∃ k, fuel = k + 1 := ⟨fuel - 1, by omega⟩
    obtain ⟨rfl, _, _, _, hn⟩ := hre
    simp only [roots, List.mem_cons, not_or, List.nodup_cons, List.length_cons] at hbe hnd hfu
    by_cases hwi : byValue hp s a best
    · have hm := minRoot_mem (byValue hp s) a n
      have hne : minRoot (byValue hp s) a n ≠ best := by
        rcases hm with h | h
        · rw [h]
          exact Ne.symm hbe.1
        exact fun h' => hbe.2 (h' ▸ h)
      have hih := ihn fuel (some last) a a (s.node a).next par (by omega) hn hnd.1 hnd.2
      have hwin' : hp (s.node a).value (s.node best).value = true := hwi
      simp only [minLoop, if_pos hwin', hih, minRoot, if_pos hwi, prevRoot, if_neg hne]
      simp [eq_comm]
    have hih := ihn fuel prev best a (s.node a).next par (by omega) hn hbe.2 hnd.2
    have hm := minRoot_mem (byValue hp s) best n
    have hwin' : ¬hp (s.node a).value (s.node best).value = true := hwi
    simp only [minLoop, if_neg hwin', hih, minRoot, if_neg hwi, prevRoot]
    by_cases hbs : minRoot (byValue hp s) best n = best
    · simp [hbs]
    have hroo : a ≠ minRoot (byValue hp s) best n := by
      intro h
      exact hnd.1 (h ▸ hm.resolve_left hbs)
    rw [if_neg hbs, if_neg hbs, if_neg hroo]

theorem findPrevLoop_spec (r : NodePtr) (s : Store V) (f : Forest NodePtr) : ∀ (fuel : Nat)
    (prev pos par : Option NodePtr), f.roots.length < fuel → Rep s par pos f → r ∈ f.roots →
    findPrevLoop r s fuel prev pos = some (prevRoot r prev f) := by
  induction f with
  | nil =>
    intro fuel prev pos par _ _ hr
    cases hr
  | node p d c n _ ihn =>
    intro fuel prev pos par hfue hrep hr
    obtain ⟨fuel, rfl⟩ : ∃ k, fuel = k + 1 := ⟨fuel - 1, by omega⟩
    obtain ⟨rfl, _, _, _, hn⟩ := hrep
    simp only [findPrevLoop, Option.some.injEq, prevRoot]
    by_cases hpr : p = r
    · rw [if_pos hpr, if_pos hpr]
    rw [if_neg hpr, if_neg hpr]
    simp only [roots, List.length_cons] at hfue
    exact ihn fuel (some p) (s.node p).next par (by omega) hn
      ((List.mem_cons.mp hr).resolve_left fun h => hpr h.symm)

/-- The root before `r` is another root, or the location in front of the list. -/
theorem prevRoot_mem {r : NodePtr} (hr : r ∈ f.roots) (hnd : f.roots.Nodup) {loc : Option NodePtr}
    {q : NodePtr} (h : prevRoot r loc f = some q) : loc = some q ∨ q ∈ (removeRoot r f).roots := by
  induction f generalizing loc with
  | nil => cases hr
  | node p d c n _ ihn =>
    simp only [prevRoot] at h
    simp only [removeRoot]
    simp only [roots, List.nodup_cons] at hnd
    by_cases hpr : p = r
    · rw [if_pos hpr] at h
      exact .inl h
    rw [if_neg hpr] at h ⊢
    have hr' := (List.mem_cons.mp hr).resolve_left fun h' => hpr h'.symm
    rcases ihn hr' hnd.2 h with h | h
    · cases h
      exact .inr (by simp [roots])
    exact .inr (by simp [roots, h])

theorem writePrev_spec {r : NodePtr} {s : Store V} (f : Forest NodePtr) :
    ∀ {head loc par : Option NodePtr}, r ∈ f.roots → Rep s par (readLink head loc s) f →
    f.elems.Nodup → (∀ q, loc = some q → q ∉ f.elems) →
    Rep (writeLink head (prevRoot r loc f) (s.node r).next s).2 par
        (readLink (writeLink head (prevRoot r loc f) (s.node r).next s).1 loc
          (writeLink head (prevRoot r loc f) (s.node r).next s).2) (removeRoot r f) ∧
      Relinked f.elems head loc s (writeLink head (prevRoot r loc f) (s.node r).next s).1
        (writeLink head (prevRoot r loc f) (s.node r).next s).2 := by
  induction f with
  | nil =>
    intro head loc par hr
    cases hr
  | node p d c n _ ihn =>
    intro head loc par hr hrep hnd hlo
    obtain ⟨hrea, hpar, hdeg, hc, hn⟩ := hrep
    simp only [prevRoot, removeRoot]
    by_cases hpr : p = r
    · subst hpr
      simp only [if_true]
      refine ⟨?_, (writeLink_relinked _ _ _ s).mono (by simp)⟩
      rw [readLink_writeLink]
      exact hn.writeLink fun q hq h => hlo q hq (by simp [h])
    simp only [if_neg hpr]
    have hr' := (List.mem_cons.mp hr).resolve_left fun h => hpr h.symm
    have hnd' := hnd
    simp only [elems_node, nodup_cons, mem_add, not_or, nodup_add] at hnd
    obtain ⟨hres, hin⟩ := @ihn head (some p) par hr' hn hnd.2.2.1 (by
      rintro q ⟨⟩
      exact hnd.1.2)
    exact Rep.advance (Relinked.refl 0 head loc s) hrea hin hpar hdeg hc hres hnd' hlo

theorem unlinkRoot_of_reverse {hp : V → V → Bool} {heap : Bheap} {prev : Option NodePtr}
    {r : NodePtr} {s : Store V} {ch : Option NodePtr} {s2 : Store V}
    (hrev : rawBheapReverse ((writeLink heap.head prev (s.node r).next s).2.node r).child
      (writeLink heap.head prev (s.node r).next s).2 = some (ch, s2)) :
    unlinkRoot hp heap prev r s =
      rawBheapUnion hp { heap with head := (writeLink heap.head prev (s.node r).next s).1 }
        ch s2 := by
  simp [unlinkRoot, hrev]

/-- Unlinking root `r` of a forest extracts it; the node itself is left as it is. -/
theorem unlinkRoot_spec (hp : V → V → Bool) {heap : Bheap} {r : NodePtr}
    (hf : Rep s none heap.head f) (hr : r ∈ f.roots) (hnd : f.elems.Nodup) :
    ∃ heap' s', unlinkRoot hp heap (prevRoot r none f) r s = some (heap', s') ∧
      heap'.min = heap.min ∧ Rep s' none heap'.head (extract (byValue hp s) r f) ∧
      Within (extract (byValue hp s) r f).elems s s' := by
  have hsp := elems_removeRoot hr
  have hnd' := hnd
  rw [hsp] at hnd'
  simp only [nodup_cons, mem_add, not_or, nodup_add] at hnd'
  obtain ⟨⟨hrre, hrch⟩, hrmn, hch, hdi⟩ := hnd'
  obtain ⟨hrep1, -⟩ := @writePrev_spec V r s f heap.head none none hr hf hnd (by simp)
  have hrel1 := writeLink_relinked heap.head (prevRoot r none f) (s.node r).next s
  have hnl := fun ch s2 => @unlinkRoot_of_reverse V hp heap (prevRoot r none f) r s ch s2
  generalize writeLink heap.head (prevRoot r none f) (s.node r).next s = w at hrep1 hrel1 hnl
  -- the link written belongs to a root that stays
  have hpre : ∀ q, prevRoot r none f = some q → q ∈ (removeRoot r f).elems := fun q hq =>
    mem_elems_of_mem_roots ((prevRoot_mem hr (nodup_roots hnd) hq).resolve_left (by simp))
  have hw1 : Within (removeRoot r f).elems s w.2 :=
    ⟨fun q hq => hrel1.frame q (by simp) fun h => hq (hpre q h), hrel1.handle, hrel1.value,
      hrel1.ref⟩
  have hchi : Rep w.2 (some r) (w.2.node r).child (childrenOf r f) := by
    rw [hw1.frame r hrre]
    exact (hf.childrenOf hr).frame fun q hq =>
      hw1.frame q (disjoint_right.mp hdi hq)
  obtain ⟨ch, s2, hrev, hrep2, hw2⟩ := rawBheapReverse_spec hchi hch
  have hrem : Rep s2 none w.1 (removeRoot r f) :=
    hrep1.frame fun q hq => hw2.frame q (disjoint_left.mp hdi hq)
  have hpar : ((removeRoot r f).elems + (childrenOf r f).rev.elems).Nodup := by
    rw [elems_rev]
    exact nodup_add.mpr ⟨hrmn, hch, hdi⟩
  obtain ⟨heap', s', hun, hmin, hre, hw3⟩ :=
    @rawBheapUnion_spec V hp { heap with head := w.1 } ch s2 _ _ hrem hrep2 hpar
  refine ⟨heap', s', ?_, hmin, ?_, ?_⟩
  · rw [hnl ch s2 hrev]
    exact hun
  · rw [hw2.byValue_eq, hw1.byValue_eq] at hre
    exact hre
  rw [extract, elems_meld, elems_rev]
  rw [elems_rev] at hw3
  exact ((hw1.mono (by simp +contextual)).trans (hw2.mono (by simp +contextual))).trans hw3

theorem rawBheapExtractMin_spec (hp : V → V → Bool) {heap : Bheap} {a : NodePtr} {d : Nat}
    {c n : Forest NodePtr} (hf : Rep s none heap.head (.node a d c n))
    (hnd : (Forest.node a d c n).elems.Nodup) :
    ∃ heap' s', rawBheapExtractMin hp heap s = some (some (minRoot (byValue hp s) a n), heap', s') ∧
      heap'.min = heap.min ∧
      Rep s' none heap'.head (extract (byValue hp s) (minRoot (byValue hp s) a n) (.node a d c n)) ∧
      Within (extract (byValue hp s) (minRoot (byValue hp s) a n) (.node a d c n)).elems s s' := by
  have hro := nodup_roots hnd
  have hlen : n.roots.length < stepBound := by
    have hcar := card_le_of_nodup hnd
    have h := length_roots_le (.node a d c n)
    simp only [roots, List.length_cons] at h
    omega
  have hf' := hf
  obtain ⟨hhea, _, _, _, hn⟩ := hf
  simp only [roots, List.nodup_cons] at hro
  have hmi := minLoop_spec hp s n stepBound none a a (s.node a).next none hlen hn hro.1 hro.2
  have hpre : (if minRoot (byValue hp s) a n = a then none
      else prevRoot (minRoot (byValue hp s) a n) (some a) n) =
      prevRoot (minRoot (byValue hp s) a n) none (.node a d c n) := by
    simp [prevRoot, eq_comm]
  rw [hpre] at hmi
  obtain ⟨heap', s', hun, hmin', hrep, hw⟩ := unlinkRoot_spec hp hf'
    (Heap.minRoot_mem_roots (byValue hp s) a d c n) hnd
  refine ⟨heap', s', ?_, hmin', hrep, hw⟩
  simp [rawBheapExtractMin, rawBheapMin, hhea, hmi, hun]

end Litmus.LinkedHeap
