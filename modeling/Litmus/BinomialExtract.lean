import Litmus.BinomialMeld

/-!
# Taking labels out of a binomial forest

`minRoot` scans the root list for a root that no other root beats; `extract`
removes a root and melds its reversed children back in.  A label that is not a
root is first carried to the top of its tree: `raise` moves it up past every
ancestor, `lift` only past ancestors it beats.  Both shift the labels on the
path down by one and leave the shape alone.
-/

namespace Litmus.BinomialForest

open Multiset

open Multiset (mem_add mem_cons nodup_cons nodup_add cons_add add_cons)

variable {α β : Type}

namespace Forest

/-! ### The best root -/

/-- Scan the root list, replacing the best root so far by any root that beats it. -/
def minRoot (hp : α → α → Bool) (best : α) : Forest α → α
  | nil => best
  | node a _ _ n => minRoot hp (if hp a best then a else best) n

theorem minRoot_mem (hp : α → α → Bool) (best : α) (f : Forest α) :
    minRoot hp best f = best ∨ minRoot hp best f ∈ f.roots := by
  induction f generalizing best with
  | nil => exact .inl rfl
  | node a d c n _ ihn =>
    simp only [minRoot, roots, List.mem_cons]
    rcases ihn (if hp a best then a else best) with h | h
    · rw [h]
      split
      · exact .inr (.inl rfl)
      exact .inl rfl
    exact .inr (.inr h)

/-- No scanned root beats the root that `minRoot` returns. -/
theorem minRoot_best {hp : α → α → Bool} {S : Set α} (hS : StrictWeakOn hp S) {best : α}
    {f : Forest α} (hbe : best ∈ S) (hm : ∀ x ∈ f.roots, x ∈ S) :
    ¬hp best (minRoot hp best f) ∧ ∀ b ∈ f.roots, ¬hp b (minRoot hp best f) := by
  induction f generalizing best with
  | nil =>
    refine ⟨fun h => hS.asymm best hbe best hbe h h, ?_⟩
    intro b hb
    simp [roots] at hb
  | node a d c n _ ihn =>
    simp only [roots, List.mem_cons] at hm
    have ha : a ∈ S := hm a (.inl rfl)
    have hn : ∀ x ∈ n.roots, x ∈ S := fun x hx => hm x (.inr hx)
    have hre : minRoot hp (if hp a best then a else best) n ∈ S := by
      rcases minRoot_mem hp (if hp a best then a else best) n with h | h
      · rw [h]
        split
        · exact ha
        exact hbe
      exact hn _ h
    simp only [minRoot, roots, List.mem_cons]
    by_cases hab : hp a best
    · simp only [hab, if_true] at hre ⊢
      obtain ⟨h1, h2⟩ := ihn ha hn
      refine ⟨hS.negTrans best hbe a ha _ hre (hS.asymm a ha best hbe hab) h1, ?_⟩
      rintro b (rfl | hb)
      · exact h1
      exact h2 b hb
    simp only [hab, if_false, Bool.false_eq_true] at hre ⊢
    obtain ⟨h1, h2⟩ := ihn hbe hn
    refine ⟨h1, ?_⟩
    rintro b (rfl | hb)
    · exact hS.negTrans b ha best hbe _ hre hab h1
    exact h2 b hb

theorem minRoot_map (hp : β → β → Bool) (g : α → β) (best : α) (f : Forest α) :
    g (minRoot (fun x y => hp (g x) (g y)) best f) = minRoot hp (g best) (f.map g) := by
  induction f generalizing best with
  | nil => rfl
  | node a d c n _ ihn =>
    simp only [minRoot, map, ihn]
    congr 1
    split <;> rfl

/-! ### Removing a root -/

section Removal

variable [DecidableEq α] {r : α} {f : Forest α} {hp : α → α → Bool} {g : α → β} {v : α}

def removeRoot (r : α) : Forest α → Forest α
  | nil => nil
  | node a d c n => if a = r then n else node a d c (removeRoot r n)

/-- The child list of root `r`. -/
def childrenOf (r : α) : Forest α → Forest α
  | nil => nil
  | node a _ c n => if a = r then c else childrenOf r n

/-- Remove root `r` and meld its children back in. -/
def extract (hp : α → α → Bool) (r : α) (f : Forest α) : Forest α :=
  meld hp (removeRoot r f) (childrenOf r f).rev

theorem elems_removeRoot (h : r ∈ f.roots) :
    f.elems = r ::ₘ ((removeRoot r f).elems + (childrenOf r f).elems) := by
  induction f with
  | nil => simp [roots] at h
  | node a d c n _ ihn =>
    by_cases har : a = r
    · subst har
      simp [removeRoot, childrenOf, add_comm]
    simp only [roots, List.mem_cons] at h
    have hn := ihn (h.resolve_left fun h' => har h'.symm)
    simp only [removeRoot, childrenOf, if_neg har, elems_node]
    rw [hn]
    simp only [cons_add, add_cons]
    rw [cons_swap]
    congr 2
    abel

/-- Removing root `r` loses exactly the label `r`. -/
theorem elems_extract (hp : α → α → Bool) (h : r ∈ f.roots) :
    f.elems = r ::ₘ (extract hp r f).elems := by
  rw [elems_removeRoot h, extract, elems_meld, elems_rev]

theorem Shaped.removeRoot (h : Shaped f) : Shaped (removeRoot r f) := by
  induction f with
  | nil => trivial
  | node a d c n _ ihn =>
    simp only [Forest.removeRoot]
    split
    · exact h.2
    exact ⟨h.1, ihn h.2⟩

theorem degrees_removeRoot_sublist (r : α) (f : Forest α) :
    (removeRoot r f).degrees.Sublist f.degrees := by
  induction f with
  | nil => exact List.Sublist.refl _
  | node a d c n _ ihn =>
    simp only [removeRoot]
    split
    · exact List.sublist_cons_self _ _
    exact ihn.cons_cons d

theorem Shaped.childrenOf (h : Shaped f) : ∃ k, Binomial k (childrenOf r f) := by
  induction f with
  | nil => exact ⟨0, rfl⟩
  | node a d c n _ ihn =>
    simp only [Forest.childrenOf]
    split
    · exact ⟨d, h.1⟩
    exact ihn h.2

theorem Shaped.extract (h : Shaped f) : Shaped (extract hp r f) := by
  obtain ⟨k, hk⟩ := h.childrenOf (r := r)
  exact Shaped.meld h.removeRoot (hk.shaped.revAppend trivial)

theorem Increasing.extract (h : Increasing f) (hs : Shaped f) : Increasing (extract hp r f) := by
  obtain ⟨k, hk⟩ := hs.childrenOf (r := r)
  exact Increasing.meld (List.Pairwise.sublist (degrees_removeRoot_sublist r f) h) hk.increasing_rev

theorem HeapOrdered.removeRoot (h : HeapOrdered hp f) : HeapOrdered hp (removeRoot r f) := by
  induction f with
  | nil => trivial
  | node a d c n _ ihn =>
    simp only [Forest.removeRoot]
    split
    · exact h.2.2
    exact ⟨h.1, h.2.1, ihn h.2.2⟩

theorem HeapOrdered.childrenOf (h : HeapOrdered hp f) : HeapOrdered hp (childrenOf r f) := by
  induction f with
  | nil => trivial
  | node a d c n _ ihn =>
    simp only [Forest.childrenOf]
    split
    · exact h.2.1
    exact ihn h.2.2

theorem HeapOrdered.extract {S : Set α} (hS : StrictWeakOn hp S)
    (hm : ∀ x ∈ (extract hp r f).elems, x ∈ S) (hrem : HeapOrdered hp (Forest.removeRoot r f))
    (hchi : HeapOrdered hp (Forest.childrenOf r f)) : HeapOrdered hp (extract hp r f) := by
  refine HeapOrdered.meld hS ?_ hrem (hchi.revAppend trivial)
  intro x hx
  refine hm x ?_
  rwa [Forest.extract, elems_meld]

theorem map_removeRoot [DecidableEq β] (hin : ∀ a ∈ f.roots, g a = g r → a = r) :
    (Forest.removeRoot r f).map g = Forest.removeRoot (g r) (f.map g) := by
  induction f with
  | nil => rfl
  | node a d c n _ ihn =>
    simp only [roots, List.mem_cons] at hin
    simp only [Forest.removeRoot, map]
    by_cases har : a = r
    · rw [if_pos har, if_pos (congrArg g har)]
    rw [if_neg har, if_neg fun h => har (hin a (.inl rfl) h), map,
      ihn fun b hb => hin b (.inr hb)]

theorem map_childrenOf [DecidableEq β] (hin : ∀ a ∈ f.roots, g a = g r → a = r) :
    (Forest.childrenOf r f).map g = Forest.childrenOf (g r) (f.map g) := by
  induction f with
  | nil => rfl
  | node a d c n _ ihn =>
    simp only [roots, List.mem_cons] at hin
    simp only [Forest.childrenOf, map]
    by_cases har : a = r
    · rw [if_pos har, if_pos (congrArg g har)]
    rw [if_neg har, if_neg fun h => har (hin a (.inl rfl) h),
      ihn fun b hb => hin b (.inr hb)]

theorem map_extract [DecidableEq β] (hp : β → β → Bool) (hin : ∀ a ∈ f.roots, g a = g r → a = r) :
    (Forest.extract (fun x y => hp (g x) (g y)) r f).map g = Forest.extract hp (g r) (f.map g) := by
  rw [Forest.extract, map_meld, rev, map_revAppend, map_removeRoot hin, map_childrenOf hin]
  rfl

/-! ### Carrying a label to the top of its tree -/

/-- Replace the root labelled `a` by `b`. -/
def relabelRoot (a b : α) : Forest α → Forest α
  | nil => nil
  | node x d c n => if x = a then node b d c n else node x d c (relabelRoot a b n)

/-- Carry label `v` past all its ancestors; `none` if it does not occur. -/
def raise (v : α) : Forest α → Option (Forest α)
  | nil => none
  | node a d c n =>
      if a = v then some (node a d c n)
      else match raise v c with
        | some c' => some (node v d (relabelRoot v a c') n)
        | none => (raise v n).map (node a d c)

/-- Carry label `v` past the ancestors it beats.  The flag says whether it
    reached the top of its tree. -/
def lift (hp : α → α → Bool) (v : α) : Forest α → Option (Forest α × Bool)
  | nil => none
  | node a d c n =>
      if a = v then some (node a d c n, true)
      else match lift hp v c with
        | some (c', true) =>
            if hp v a then some (node v d (relabelRoot v a c') n, true)
            else some (node a d c' n, false)
        | some (c', false) => some (node a d c' n, false)
        | none => (lift hp v n).map fun r => (node a d c r.1, r.2)

theorem elems_relabelRoot {a b : α} (h : a ∈ f.roots) :
    a ::ₘ (relabelRoot a b f).elems = b ::ₘ f.elems := by
  induction f with
  | nil => simp [roots] at h
  | node x d c n _ ihn =>
    by_cases hxa : x = a
    · subst hxa
      simp [relabelRoot, cons_swap]
    simp only [roots, List.mem_cons] at h
    have hn := ihn (h.resolve_left fun h' => hxa h'.symm)
    simp only [relabelRoot, if_neg hxa, elems_node]
    rw [cons_swap, ← add_cons, hn, add_cons, cons_swap]

/-- A forest relabelled to the same skeleton: same degrees all the way down. -/
def SameShape : Forest α → Forest α → Prop
  | nil, nil => True
  | node _ d c n, node _ e k m => d = e ∧ SameShape c k ∧ SameShape n m
  | _, _ => False

omit [DecidableEq α] in
theorem SameShape.refl (f : Forest α) : SameShape f f := by
  induction f with
  | nil => trivial
  | node a d c n ihc ihn => exact ⟨rfl, ihc, ihn⟩

theorem SameShape.relabelRoot {f g : Forest α} (h : SameShape f g) (a b : α) :
    SameShape f (relabelRoot a b g) := by
  induction g generalizing f with
  | nil => exact h
  | node x d c n _ ihn =>
    cases f with
    | nil => exact h.elim
    | node y e k m =>
      simp only [Forest.relabelRoot]
      split
      · exact h
      exact ⟨h.1, h.2.1, ihn h.2.2⟩

omit [DecidableEq α] in
theorem SameShape.binomial {f g : Forest α} (h : SameShape f g) {k : Nat} (hf : Binomial k f) :
    Binomial k g := by
  induction k generalizing f g with
  | zero =>
    cases hf
    cases g with
    | nil => rfl
    | node b e c n => exact h.elim
  | succ k ih =>
    cases f with
    | nil => exact hf.elim
    | node a d c n =>
      cases g with
      | nil => exact h.elim
      | node b e c' n' =>
        obtain ⟨rfl, hcc, hnn⟩ := h
        obtain ⟨rfl, hc, hn⟩ := hf
        exact ⟨rfl, ih hcc hc, ih hnn hn⟩

omit [DecidableEq α] in
theorem SameShape.shaped {f g : Forest α} (h : SameShape f g) (hf : Shaped f) : Shaped g := by
  induction f generalizing g with
  | nil =>
    cases g with
    | nil => trivial
    | node b e c n => exact h.elim
  | node a d c n _ ihn =>
    cases g with
    | nil => exact h.elim
    | node b e c' n' =>
      obtain ⟨rfl, hcc, hnn⟩ := h
      exact ⟨hcc.binomial hf.1, ihn hnn hf.2⟩

omit [DecidableEq α] in
theorem SameShape.degrees_eq {f g : Forest α} (h : SameShape f g) : g.degrees = f.degrees := by
  induction f generalizing g with
  | nil =>
    cases g with
    | nil => rfl
    | node b e c n => exact h.elim
  | node a d c n _ ihn =>
    cases g with
    | nil => exact h.elim
    | node b e c' n' =>
      obtain ⟨rfl, _, hnn⟩ := h
      simp [degrees, ihn hnn]

/-- The comparison that never involves `v`: heap order for it is heap order
    "except at `v`". -/
def except (hp : α → α → Bool) (v : α) (a b : α) : Bool :=
  hp a b && decide (a ≠ v) && decide (b ≠ v)

/-- Relabelling root `v` by a label `a` that nothing but `v` beats. -/
theorem HeapOrdered.relabelRoot {v a : α} (hnd : f.elems.Nodup)
    (hord : HeapOrdered hp f) (hto : ∀ b ∈ f.elems, b ≠ v → ¬hp b a) :
    HeapOrdered hp (relabelRoot v a f) := by
  induction f with
  | nil => trivial
  | node x d c n _ ihn =>
    simp only [elems_node, nodup_cons, nodup_add, mem_add, mem_cons] at hnd hto
    obtain ⟨hxc, hco, hno⟩ := hord
    simp only [Forest.relabelRoot]
    by_cases hxv : x = v
    · rw [if_pos hxv]
      refine ⟨fun b hb => hto b (.inr (.inl hb)) ?_, hco, hno⟩
      rintro rfl
      exact hnd.1 (.inl (hxv ▸ hb))
    rw [if_neg hxv]
    exact ⟨hxc, hco, ihn hnd.2.2.1 hno fun b hb => hto b (.inr (.inr hb))⟩

/-- What `raise` returns: `v` is now a root, labels and shape are kept, and heap
    order away from `v` is kept. -/
theorem raise_spec (hp : α → α → Bool) {f f' : Forest α} (h : raise v f = some f')
    (hnd : f.elems.Nodup) : v ∈ f'.roots ∧ f'.elems = f.elems ∧ SameShape f f' ∧
      (HeapOrdered (except hp v) f → HeapOrdered (except hp v) f') := by
  induction f generalizing f' with
  | nil => simp [raise] at h
  | node a d c n ihc ihn =>
    simp only [elems_node, nodup_cons, nodup_add, mem_add] at hnd
    obtain ⟨hnot, hnc, hndn, hdis⟩ := hnd
    simp only [raise] at h
    by_cases hav : a = v
    · rw [if_pos hav] at h
      cases h
      subst hav
      exact ⟨by simp [roots], rfl, SameShape.refl _, id⟩
    rw [if_neg hav] at h
    cases hc : raise v c with
    | some c' =>
      rw [hc] at h
      cases h
      obtain ⟨hro, hel, hsh, hor⟩ := ihc hc hnc
      have hre := elems_relabelRoot (b := a) hro
      refine ⟨by simp [roots], ?_, ⟨rfl, hsh.relabelRoot v a, SameShape.refl n⟩, ?_⟩
      · simp only [elems_node]
        rw [← cons_add, hre, hel, cons_add]
      rintro ⟨hac, hco, hno⟩
      -- nothing is compared with the new root `v`; below it the old root `a`
      -- tops what `v` topped
      refine ⟨fun b hb => by simp [except], ?_, hno⟩
      exact (hor hco).relabelRoot (hel ▸ hnc) fun b hb _ => hac b (hel ▸ hb)
    | none =>
      rw [hc] at h
      cases hn : raise v n with
      | none => rw [hn] at h; simp at h
      | some n' =>
        rw [hn] at h
        simp only [Option.map_some, Option.some.injEq] at h
        subst h
        obtain ⟨hro, hel, hsh, hor⟩ := ihn hn hndn
        refine ⟨by simp [roots, hro], by simp [hel], ⟨rfl, SameShape.refl c, hsh⟩, ?_⟩
        rintro ⟨hac, hco, hno⟩
        exact ⟨hac, hco, hor hno⟩

theorem raise_isSome (h : v ∈ f.elems) : ∃ f', raise v f = some f' := by
  induction f with
  | nil => simp at h
  | node a d c n ihc ihn =>
    simp only [elems_node, mem_cons, mem_add] at h
    simp only [raise]
    by_cases hav : a = v
    · exact ⟨_, if_pos hav⟩
    rw [if_neg hav]
    cases hc : raise v c with
    | some c' => exact ⟨_, rfl⟩
    | none =>
      rcases h with h | h | h
      · exact absurd h.symm hav
      · obtain ⟨c', hc'⟩ := ihc h
        rw [hc] at hc'
        cases hc'
      obtain ⟨n', hn'⟩ := ihn h
      exact ⟨node a d c n', by rw [hn']; rfl⟩

/-- Relabelling one root of a mapped forest is mapping by a function that differs
    there. -/
theorem relabelRoot_map [DecidableEq β] (g g' : α → β) (hr : r ∈ f.roots)
    (hnd : f.elems.Nodup) (heq : ∀ a ∈ f.elems, a ≠ r → g' a = g a)
    (hin : ∀ a ∈ f.roots, g a = g r → a = r) :
    Forest.relabelRoot (g r) (g' r) (f.map g) = f.map g' := by
  induction f with
  | nil => cases hr
  | node a d c n _ ihn =>
    simp only [elems_node, nodup_cons, mem_add, not_or, nodup_add] at hnd
    simp only [elems_node, mem_cons, mem_add] at heq
    simp only [roots, List.mem_cons] at hr hin
    obtain ⟨⟨hac, han⟩, _, hndn, hdis⟩ := hnd
    simp only [Forest.map, Forest.relabelRoot]
    by_cases har : a = r
    · subst har
      rw [if_pos rfl]
      rw [map_congr fun x hx => heq x (.inr (.inl hx)) fun h => hac (h ▸ hx),
        map_congr fun x hx => heq x (.inr (.inr hx)) fun h => han (h ▸ hx)]
    have hrn := hr.resolve_left fun h => har h.symm
    have hrc : r ∉ c.elems := fun h =>
      disjoint_left.mp hdis h (mem_elems_of_mem_roots hrn)
    rw [if_neg fun h => har (hin a (.inl rfl) h), heq a (.inl rfl) har,
      ihn hrn hndn (fun x hx => heq x (.inr (.inr hx))) fun x hx => hin x (.inr hx),
      map_congr fun x hx => heq x (.inr (.inl hx)) fun h => hrc (h ▸ hx)]

/-- Where everything climbs, `lift` is `raise`. -/
theorem lift_true (v : α) (f : Forest α) :
    lift (fun _ _ => true) v f = (raise v f).map fun f' => (f', true) := by
  induction f with
  | nil => rfl
  | node a d c n ihc ihn =>
    simp only [lift, raise, ihc, ihn]
    by_cases hav : a = v
    · rw [if_pos hav, if_pos hav]
      rfl
    rw [if_neg hav, if_neg hav]
    cases raise v c with
    | some c' => rfl
    | none => cases raise v n <;> rfl

theorem lift_mem {r : Forest α × Bool} (h : lift hp v f = some r) : v ∈ f.elems := by
  induction f generalizing r with
  | nil => simp [lift] at h
  | node a d c n ihc ihn =>
    simp only [elems_node, mem_cons, mem_add]
    simp only [lift] at h
    by_cases hav : a = v
    · exact .inl hav.symm
    rw [if_neg hav] at h
    cases hc : lift hp v c with
    | some r' => exact .inr (.inl (ihc hc))
    | none =>
      rw [hc] at h
      cases hn : lift hp v n with
      | none => rw [hn] at h; simp at h
      | some r' => exact .inr (.inr (ihn hn))

/-- The comparison that ignores `v` beating an ancestor. -/
def exceptUp (hp : α → α → Bool) (v : α) (a b : α) : Bool :=
  hp a b && decide (a ≠ v)

theorem HeapOrdered.of_exceptUp
    (h : HeapOrdered (exceptUp hp v) f) (hv : v ∉ f.elems) : HeapOrdered hp f := by
  refine h.congr fun x hx y _ hxy => ?_
  simp [exceptUp, hxy, ne_of_mem_of_not_mem hx hv]

/-- What `lift` returns when only `v` may be out of place, and only by beating
    some of its ancestors: labels and shape are kept, heap order holds
    everywhere, and the flag tells a root `v` from a `v` that some other label
    holds down. -/
theorem lift_spec {S : Set α} (hS : StrictWeakOn hp S) {f f' : Forest α}
    {top : Bool} (h : lift hp v f = some (f', top)) (hnd : f.elems.Nodup)
    (hm : ∀ x ∈ f.elems, x ∈ S) (hord : HeapOrdered (exceptUp hp v) f) :
    f'.elems = f.elems ∧ SameShape f f' ∧ HeapOrdered hp f' ∧ (top = true → v ∈ f'.roots) ∧
      (top = false → ∃ b ∈ f.elems, b ≠ v ∧ ¬hp v b) := by
  induction f generalizing f' top with
  | nil => simp [lift] at h
  | node a d c n ihc ihn =>
    simp only [elems_node, nodup_cons, nodup_add, mem_add] at hnd
    simp only [elems_node, mem_cons, mem_add] at hm
    obtain ⟨hnt, hnc, hndn, hdi⟩ := hnd
    obtain ⟨hac, hco, hno⟩ := hord
    have hmc : ∀ x ∈ c.elems, x ∈ S := fun x hx => hm x (.inr (.inl hx))
    have hmn : ∀ x ∈ n.elems, x ∈ S := fun x hx => hm x (.inr (.inr hx))
    have ha : a ∈ S := hm a (.inl rfl)
    have hac' : ∀ b ∈ c.elems, b ≠ v → ¬hp b a := fun b hb hbv hba =>
      hac b hb (by simp [exceptUp, hba, hbv])
    simp only [lift] at h
    by_cases hav : a = v
    · rw [if_pos hav] at h
      cases h
      subst hav
      have hvc : a ∉ c.elems := fun h' => hnt (.inl h')
      have hvn : a ∉ n.elems := fun h' => hnt (.inr h')
      exact ⟨rfl, SameShape.refl _, ⟨fun b hb => hac' b hb (ne_of_mem_of_not_mem hb hvc),
        hco.of_exceptUp hvc, hno.of_exceptUp hvn⟩, fun _ => by simp [roots], fun h' => by cases h'⟩
    rw [if_neg hav] at h
    cases hc : lift hp v c with
    | some r =>
      obtain ⟨c', t⟩ := r
      obtain ⟨hel, hsh, hrd, htr, hfa⟩ := ihc hc hnc hmc hco
      have hvc : v ∈ c.elems := lift_mem hc
      have hrn : HeapOrdered hp n := hno.of_exceptUp (disjoint_left.mp hdi hvc)
      rw [hc] at h
      cases t with
      | true =>
        simp only at h
        have hroo := htr rfl
        by_cases hva : hp v a
        · rw [if_pos hva] at h
          cases h
          have hav' : ¬hp a v := hS.asymm v (hmc v hvc) a ha hva
          have hre := elems_relabelRoot (b := a) hroo
          refine ⟨?_, ⟨rfl, hsh.relabelRoot v a, SameShape.refl n⟩, ⟨?_, ?_, hrn⟩,
            fun _ => by simp [roots], fun h' => by cases h'⟩
          · simp only [elems_node]
            rw [← cons_add, hre, hel, cons_add]
          · intro b hb
            -- below the lifted `v`: the old root `a`, and what `a` held down
            have hb' : b ∈ a ::ₘ c'.elems := hre ▸ mem_cons_of_mem hb
            rw [hel, mem_cons] at hb'
            rcases hb' with rfl | hb'
            · exact hav'
            by_cases hbv : b = v
            · subst hbv
              exact fun h' => hS.asymm b (hmc b hb') b (hmc b hb') h' h'
            exact hS.negTrans b (hmc b hb') a ha v (hmc v hvc) (hac' b hb' hbv) hav'
          exact hrd.relabelRoot (hel ▸ hnc) fun b hb hbv => hac' b (hel ▸ hb) hbv
        rw [if_neg hva] at h
        cases h
        refine ⟨by simp [hel], ⟨rfl, hsh, SameShape.refl n⟩, ⟨?_, hrd, hrn⟩,
          (fun h' => by cases h'), fun _ => ⟨a, by simp, hav, hva⟩⟩
        intro b hb
        by_cases hbv : b = v
        · rw [hbv]
          exact hva
        exact hac' b (hel ▸ hb) hbv
      | false =>
        cases h
        obtain ⟨b, hb, hbv, hvb⟩ := hfa rfl
        refine ⟨by simp [hel], ⟨rfl, hsh, SameShape.refl n⟩, ⟨?_, hrd, hrn⟩,
          (fun h' => by cases h'), fun _ => ⟨b, by simp [hb], hbv, hvb⟩⟩
        intro x hx
        by_cases hxv : x = v
        · rw [hxv]
          exact hS.negTrans v (hmc v hvc) b (hmc b hb) a ha hvb (hac' b hb hbv)
        exact hac' x (hel ▸ hx) hxv
    | none =>
      rw [hc] at h
      cases hn : lift hp v n with
      | none => rw [hn] at h; simp at h
      | some r =>
        rw [hn] at h
        obtain ⟨n', t⟩ := r
        simp only [Option.map_some, Option.some.injEq, Prod.mk.injEq] at h
        obtain ⟨rfl, rfl⟩ := h
        obtain ⟨hel, hsh, hrn, htr, hfa⟩ := ihn hn hndn hmn hno
        have hvn : v ∈ n.elems := lift_mem hn
        have hvc : v ∉ c.elems := fun h' => disjoint_left.mp hdi h' hvn
        refine ⟨by simp [hel], ⟨rfl, SameShape.refl c, hsh⟩,
          ⟨fun b hb => hac' b hb (ne_of_mem_of_not_mem hb hvc), hco.of_exceptUp hvc, hrn⟩,
          fun h' => by simp [roots, htr h'], fun h' => ?_⟩
        obtain ⟨b, hb, hbv, hvb⟩ := hfa h'
        exact ⟨b, by simp [hb], hbv, hvb⟩

end Removal

end Forest

end Litmus.BinomialForest
