import Mathlib.Algebra.Order.Group.Multiset
import Mathlib.Data.Multiset.UnionInter
import Mathlib.Data.List.Perm.Lattice
import Mathlib.Data.List.Range
import Mathlib.Order.RelClasses
import Mathlib.Tactic.Abel

/-!
# Binomial forests in child/sibling form

A forest is stored the way linked memory stores it: every node has a first child
and a next sibling.  The root list of a binomial heap and the child list of each
of its nodes are the same kind of object, so one inductive type serves both, and
merging, linking and reversing are structural recursions on it.

Degrees are stored, not computed; `Shaped` says that the stored degrees are the
true ones.  Nothing here mentions memory: labels are arbitrary, and priorities
are an arbitrary Boolean comparison `hp a b` ("`a` has higher priority than
`b`"), which the order lemmas require to be a strict weak order on the labels
that occur.
-/

namespace Litmus.BinomialForest

/-- A list of trees: the first tree has root `label`, its children form `child`,
    and the remaining trees form `next`. -/
inductive Forest (α : Type) where
  | nil
  | node (label : α) (degree : Nat) (child next : Forest α)
deriving DecidableEq, Repr

variable {α β γ : Type}

namespace Forest

variable {f c : Forest α} {k : Nat}

/-- All labels of a forest. -/
def elems : Forest α → Multiset α
  | nil => 0
  | node a _ c n => a ::ₘ (c.elems + n.elems)

/-- The labels of the roots, in list order. -/
def roots : Forest α → List α
  | nil => []
  | node a _ _ n => a :: n.roots

/-- The stored degrees of the roots, in list order. -/
def degrees : Forest α → List Nat
  | nil => []
  | node _ d _ n => d :: n.degrees

/-- The trees of the root list: root, stored degree, child forest. -/
def trees : Forest α → List (α × Nat × Forest α)
  | nil => []
  | node a d c n => (a, d, c) :: n.trees

def map (g : α → β) : Forest α → Forest β
  | nil => nil
  | node a d c n => node (g a) d (c.map g) (n.map g)

@[simp] theorem elems_nil : (nil : Forest α).elems = 0 := rfl

@[simp] theorem elems_node (a : α) (d : Nat) (c n : Forest α) :
    (node a d c n).elems = a ::ₘ (c.elems + n.elems) := rfl

@[simp] theorem elems_map (g : α → β) (f : Forest α) : (f.map g).elems = f.elems.map g := by
  induction f with
  | nil => rfl
  | node a d c n ihc ihn =>
    simp only [map, elems_node, ihc, ihn, Multiset.map_cons, Multiset.map_add]

@[simp] theorem map_id (f : Forest α) : f.map id = f := by
  induction f with
  | nil => rfl
  | node a d c n ihc ihn => simp only [map, ihc, ihn, id]

/-- Mapping depends only on the labels that occur. -/
theorem map_congr {g k : α → β} (h : ∀ a ∈ f.elems, g a = k a) : f.map g = f.map k := by
  induction f with
  | nil => rfl
  | node a d c n ihc ihn =>
    simp only [elems_node, Multiset.mem_cons, Multiset.mem_add] at h
    simp only [map]
    rw [h a (.inl rfl), ihc fun b hb => h b (.inr (.inl hb)),
      ihn fun b hb => h b (.inr (.inr hb))]

@[simp] theorem degrees_map (g : α → β) (f : Forest α) : (f.map g).degrees = f.degrees := by
  induction f with
  | nil => rfl
  | node a d c n _ ihn => simp only [map, degrees, ihn]

theorem mem_elems_of_mem_roots {a : α} (h : a ∈ f.roots) : a ∈ f.elems := by
  induction f with
  | nil => cases h
  | node b d c n _ ihn =>
    simp only [roots, List.mem_cons] at h
    simp only [elems_node, Multiset.mem_cons, Multiset.mem_add]
    rcases h with h | h
    · exact .inl h
    exact .inr (.inr (ihn h))

/-! ### Shape: binomial trees with true degrees -/

/-- `c` is the child list of a binomial tree of degree `k`: its first tree has
    degree `k - 1`, and what follows is the child list of a tree of that degree. -/
def Binomial : Nat → Forest α → Prop
  | 0, f => f = nil
  | _ + 1, nil => False
  | k + 1, node _ d c n => d = k ∧ Binomial k c ∧ Binomial k n

/-- Every root heads a binomial tree of its stored degree. -/
def Shaped : Forest α → Prop
  | nil => True
  | node _ d c n => Binomial d c ∧ Shaped n

/-- The stored root degrees are strictly increasing. -/
def Increasing (f : Forest α) : Prop := f.degrees.Pairwise (· < ·)

/-- A binomial tree of degree `k` has `2 ^ k` nodes, its root included. -/
theorem Binomial.card_elems (h : Binomial k c) : c.elems.card + 1 = 2 ^ k := by
  induction k generalizing c with
  | zero => cases h; rfl
  | succ k ih =>
    cases c with
    | nil => exact h.elim
    | node a d c n =>
      obtain ⟨_, hc, hn⟩ := h
      have hc' := ih hc
      have hn' := ih hn
      simp only [elems_node, Multiset.card_cons, Multiset.card_add, Nat.pow_succ]
      omega

theorem Binomial.degrees_eq (h : Binomial k c) : c.degrees = (List.range k).reverse := by
  induction k generalizing c with
  | zero => cases h; rfl
  | succ k ih =>
    cases c with
    | nil => exact h.elim
    | node a d c n =>
      obtain ⟨rfl, _, hn⟩ := h
      simp only [degrees, ih hn, List.range_succ, List.reverse_append,
        List.reverse_singleton, List.singleton_append]

theorem Binomial.shaped (h : Binomial k c) : Shaped c := by
  induction k generalizing c with
  | zero => cases h; trivial
  | succ k ih =>
    cases c with
    | nil => exact h.elim
    | node a d c n =>
      obtain ⟨rfl, hc, hn⟩ := h
      exact ⟨hc, ih hn⟩

theorem binomial_map (g : α → β) : Binomial k (c.map g) ↔ Binomial k c := by
  induction k generalizing c with
  | zero => cases c <;> simp [Binomial, map]
  | succ k ih => cases c <;> simp [Binomial, map, ih]

theorem shaped_map (g : α → β) : Shaped (f.map g) ↔ Shaped f := by
  induction f with
  | nil => rfl
  | node a d c n _ ihn => simp only [map, Shaped, binomial_map, ihn]

/-- Sizes as a statement about the trees of the root list. -/
theorem Shaped.card_tree (h : Shaped f) {t : α × Nat × Forest α} (ht : t ∈ f.trees) :
    t.2.2.elems.card + 1 = 2 ^ t.2.1 := by
  induction f with
  | nil => cases ht
  | node a d c n _ ihn =>
    simp only [trees, List.mem_cons] at ht
    rcases ht with rfl | ht
    · exact h.1.card_elems
    exact ihn h.2 ht

end Forest

open Forest

/-! ### Strict weak orders on a set, and heap order -/

variable {hp : α → α → Bool} {S : Set α}

/-- `hp` behaves as a strict weak order on `S`. -/
structure StrictWeakOn (hp : α → α → Bool) (S : Set α) : Prop where
  asymm : ∀ a ∈ S, ∀ b ∈ S, hp a b → ¬hp b a
  negTrans : ∀ a ∈ S, ∀ b ∈ S, ∀ c ∈ S, ¬hp a b → ¬hp b c → ¬hp a c

section

variable (h : StrictWeakOn hp S)
include h

theorem StrictWeakOn.irrefl {a : α} (ha : a ∈ S) : ¬hp a a :=
  fun haa => h.asymm a ha a ha haa haa

theorem StrictWeakOn.trans {a b c : α} (ha : a ∈ S) (hb : b ∈ S)
    (hc : c ∈ S) (hab : hp a b) (hbc : hp b c) : hp a c :=
  of_not_not fun hac => h.negTrans a ha c hc b hb hac (h.asymm b hb c hc hbc) hab

theorem StrictWeakOn.mono {T : Set α} (hTS : T ⊆ S) :
    StrictWeakOn hp T where
  asymm a ha b hb := h.asymm a (hTS ha) b (hTS hb)
  negTrans a ha b hb c hc := h.negTrans a (hTS ha) b (hTS hb) c (hTS hc)

/-- The opposite order, read off another type. -/
theorem StrictWeakOn.flip (g : β → α) :
    StrictWeakOn (fun a b => hp (g b) (g a)) {b | g b ∈ S} where
  asymm a ha b hb := h.asymm (g b) hb (g a) ha
  negTrans a ha b hb c hc hab hbc := h.negTrans (g c) hc (g b) hb (g a) ha hbc hab

theorem StrictWeakOn.congr {hp' : α → α → Bool}
    (heq : ∀ a ∈ S, ∀ b ∈ S, hp' a b = hp a b) : StrictWeakOn hp' S where
  asymm a ha b hb := by
    rw [heq a ha b hb, heq b hb a ha]
    exact h.asymm a ha b hb
  negTrans a ha b hb c hc := by
    rw [heq a ha b hb, heq b hb c hc, heq a ha c hc]
    exact h.negTrans a ha b hb c hc

end

theorem StrictWeakOn.comap {hp : β → β → Bool} {S : Set β} (h : StrictWeakOn hp S) (g : α → β) :
    StrictWeakOn (fun a b => hp (g a) (g b)) (Set.preimage g S) where
  asymm a ha b hb := h.asymm (g a) ha (g b) hb
  negTrans a ha b hb c hc := h.negTrans (g a) ha (g b) hb (g c) hc

namespace Forest

variable {f : Forest α}

/-- No label has higher priority than one of its ancestors. -/
def HeapOrdered (hp : α → α → Bool) : Forest α → Prop
  | nil => True
  | node a _ c n => (∀ b ∈ c.elems, ¬hp b a) ∧ HeapOrdered hp c ∧ HeapOrdered hp n

theorem heapOrdered_map {hp : β → β → Bool} (g : α → β) :
    HeapOrdered hp (f.map g) ↔ HeapOrdered (fun a b => hp (g a) (g b)) f := by
  induction f with
  | nil => rfl
  | node a d c n ihc ihn =>
    simp only [map, HeapOrdered, ihc, ihn, elems_map, Multiset.mem_map]
    constructor
    · rintro ⟨h, h'⟩
      exact ⟨fun b hb => h (g b) ⟨b, hb, rfl⟩, h'⟩
    rintro ⟨h, h'⟩
    refine ⟨?_, h'⟩
    rintro _ ⟨b, hb, rfl⟩
    exact h b hb

/-- Heap order depends only on how the occurring labels compare. -/
theorem HeapOrdered.congr {hp hp' : α → α → Bool} (h : HeapOrdered hp f)
    (heq : ∀ a ∈ f.elems, ∀ b ∈ f.elems, hp' a b → hp a b) : HeapOrdered hp' f := by
  induction f with
  | nil => trivial
  | node a d c n ihc ihn =>
    simp only [elems_node, Multiset.mem_cons, Multiset.mem_add] at heq
    obtain ⟨ha, hc, hn⟩ := h
    refine ⟨fun b hb hba => ?_, ihc hc ?_, ihn hn ?_⟩
    · exact ha b hb (heq b (.inr (.inl hb)) a (.inl rfl) hba)
    · exact fun b hb b' hb' => heq b (.inr (.inl hb)) b' (.inr (.inl hb'))
    exact fun b hb b' hb' => heq b (.inr (.inr hb)) b' (.inr (.inr hb'))

/-- In a heap-ordered forest every label is beaten or matched by some root. -/
theorem HeapOrdered.exists_root (h : HeapOrdered hp f)
    (hir : ∀ a ∈ f.elems, ¬hp a a) {b : α} (hb : b ∈ f.elems) : ∃ r ∈ f.roots, ¬hp b r := by
  induction f with
  | nil => simp at hb
  | node a d c n _ ihn =>
    simp only [elems_node, Multiset.mem_cons, Multiset.mem_add] at hb hir
    rcases hb with rfl | hb | hb
    · exact ⟨b, by simp [roots], hir b (.inl rfl)⟩
    · exact ⟨a, by simp [roots], h.1 b hb⟩
    obtain ⟨r, hr, hbr⟩ := ihn h.2.2 (fun x hx => hir x (.inr (.inr hx))) hb
    exact ⟨r, by simp [roots, hr], hbr⟩

end Forest

end Litmus.BinomialForest
