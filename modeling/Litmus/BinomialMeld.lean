import Litmus.BinomialForest

/-!
# Melding binomial forests

The three list operations of a binomial heap: `merge` interleaves two root lists
by degree, `consolidate` runs along the merged list and links equal degrees
(with the look-ahead that keeps three equal degrees apart), `rev` turns a child
list into a root list.  Each comes with what it does to the labels, to the shape
and to the heap order.
-/

namespace Litmus.BinomialForest

open Multiset (mem_add mem_cons cons_add add_cons)

variable {α β : Type}

namespace Forest

/-! ### Reversal -/

variable {f c g : Forest α} {hp : α → α → Bool}

/-- Move the trees of the first forest, one by one, to the front of the second. -/
def revAppend : Forest α → Forest α → Forest α
  | nil, acc => acc
  | node a d c n, acc => revAppend n (node a d c acc)

def rev (f : Forest α) : Forest α := revAppend f nil

theorem elems_revAppend (f acc : Forest α) : (revAppend f acc).elems = f.elems + acc.elems := by
  induction f generalizing acc with
  | nil => simp [revAppend]
  | node a d c n _ ihn =>
    simp only [revAppend, ihn, elems_node, cons_add, add_cons]
    congr 1
    abel

theorem degrees_revAppend (f acc : Forest α) :
    (revAppend f acc).degrees = f.degrees.reverse ++ acc.degrees := by
  induction f generalizing acc with
  | nil => simp [revAppend, degrees]
  | node a d c n _ ihn => simp [revAppend, ihn, degrees]

theorem Shaped.revAppend {acc : Forest α} (hf : Shaped f) (hac : Shaped acc) :
    Shaped (revAppend f acc) := by
  induction f generalizing acc with
  | nil => exact hac
  | node a d c n _ ihn => exact ihn hf.2 ⟨hf.1, hac⟩

theorem HeapOrdered.revAppend {acc : Forest α} (hf : HeapOrdered hp f) (hac : HeapOrdered hp acc) :
    HeapOrdered hp (revAppend f acc) := by
  induction f generalizing acc with
  | nil => exact hac
  | node a d c n _ ihn => exact ihn hf.2.2 ⟨hf.1, hf.2.1, hac⟩

theorem map_revAppend (g : α → β) (f acc : Forest α) :
    (Forest.revAppend f acc).map g = Forest.revAppend (f.map g) (acc.map g) := by
  induction f generalizing acc with
  | nil => rfl
  | node a d c n _ ihn => simp [Forest.revAppend, Forest.map, ihn]

@[simp] theorem elems_rev (f : Forest α) : f.rev.elems = f.elems := by
  simp [rev, elems_revAppend]

/-- The reversed child list of a binomial tree is a root list. -/
theorem Binomial.increasing_rev {k : Nat} (h : Binomial k c) : Increasing c.rev := by
  simp only [Increasing, rev, degrees_revAppend, h.degrees_eq, degrees,
    List.reverse_reverse, List.append_nil]
  exact List.pairwise_lt_range

/-! ### Merging by degree -/

/-- One tree against a whole list: `rest` continues the list the tree came from. -/
def mergeOne (a : α) (d : Nat) (c : Forest α) (rest : Forest α → Forest α) :
    Forest α → Forest α
  | nil => node a d c (rest nil)
  | node b e k n =>
      if d < e then node a d c (rest (node b e k n))
      else node b e k (mergeOne a d c rest n)

/-- Merge two root lists by degree; at equal degrees the second list goes first. -/
def merge : Forest α → Forest α → Forest α
  | nil, g => g
  | node a d c n, g => mergeOne a d c (merge n) g

@[simp] theorem merge_nil_left (g : Forest α) : merge nil g = g := rfl

@[simp] theorem merge_nil_right (f : Forest α) : merge f nil = f := by
  induction f with
  | nil => rfl
  | node a d c n _ ihn => simp [merge, mergeOne, ihn]

theorem merge_node_node (a b : α) (d e : Nat) (c k n m : Forest α) :
    merge (node a d c n) (node b e k m) = if d < e then node a d c (merge n (node b e k m))
      else node b e k (merge (node a d c n) m) := rfl

/-- Induction along a merge: one case per branch of its loop. -/
theorem merge_induction {P : Forest α → Forest α → Prop} (nil_left : ∀ g, P nil g)
    (nil_right : ∀ a d c n, P (node a d c n) nil)
    (take_left : ∀ a d c n b e k m, d < e → P n (node b e k m) → P (node a d c n) (node b e k m))
    (take_right : ∀ a d c n b e k m, ¬d < e → P (node a d c n) m →
      P (node a d c n) (node b e k m)) : ∀ f g, P f g := by
  intro f
  induction f with
  | nil => exact nil_left
  | node a d c n _ ihn =>
    intro g
    induction g with
    | nil => exact nil_right a d c n
    | node b e k m _ ihm =>
      by_cases hlt : d < e
      · exact take_left a d c n b e k m hlt (ihn _)
      exact take_right a d c n b e k m hlt ihm

theorem elems_merge (f g : Forest α) : (merge f g).elems = f.elems + g.elems := by
  induction f, g using merge_induction with
  | nil_left g => simp
  | nil_right a d c n => simp
  | take_left a d c n b e k m hlt ih =>
    rw [merge_node_node, if_pos hlt, elems_node, ih]
    simp only [elems_node, cons_add, add_assoc]
  | take_right a d c n b e k m hlt ih =>
    rw [merge_node_node, if_neg hlt, elems_node, ih]
    simp only [elems_node, cons_add, add_cons]
    congr 2
    abel

theorem degrees_merge_perm (f g : Forest α) :
    (merge f g).degrees.Perm (f.degrees ++ g.degrees) := by
  induction f, g using merge_induction with
  | nil_left g => exact List.Perm.refl _
  | nil_right a d c n => simp [degrees]
  | take_left a d c n b e k m hlt ih =>
    rw [merge_node_node, if_pos hlt]
    simpa [degrees] using ih.cons d
  | take_right a d c n b e k m hlt ih =>
    rw [merge_node_node, if_neg hlt]
    simp only [degrees] at ih ⊢
    exact (ih.cons e).trans List.perm_middle.symm

theorem degrees_merge_sorted (hf : f.degrees.Pairwise (· ≤ ·)) (hg : g.degrees.Pairwise (· ≤ ·)) :
    (merge f g).degrees.Pairwise (· ≤ ·) := by
  induction f, g using merge_induction with
  | nil_left g => exact hg
  | nil_right a d c n => simpa using hf
  | take_left a d c n b e k m hlt ih =>
    rw [merge_node_node, if_pos hlt]
    simp only [degrees, List.pairwise_cons] at hf hg ⊢
    refine ⟨fun x hx => ?_, ih hf.2 (by simpa [degrees] using hg)⟩
    rcases List.mem_append.mp ((degrees_merge_perm _ _).mem_iff.mp hx) with hx | hx
    · exact hf.1 x hx
    simp only [degrees, List.mem_cons] at hx
    rcases hx with rfl | hx
    · exact le_of_lt hlt
    exact le_trans (le_of_lt hlt) (hg.1 x hx)
  | take_right a d c n b e k m hlt ih =>
    rw [merge_node_node, if_neg hlt]
    simp only [degrees, List.pairwise_cons] at hf hg ⊢
    refine ⟨fun x hx => ?_, ih (by simpa [degrees] using hf) hg.2⟩
    rcases List.mem_append.mp ((degrees_merge_perm _ _).mem_iff.mp hx) with hx | hx
    · simp only [degrees, List.mem_cons] at hx
      rcases hx with rfl | hx
      · exact Nat.le_of_not_lt hlt
      exact le_trans (Nat.le_of_not_lt hlt) (hf.1 x hx)
    exact hg.1 x hx

theorem Shaped.merge (hf : Shaped f) (hg : Shaped g) : Shaped (merge f g) := by
  induction f, g using merge_induction with
  | nil_left g => exact hg
  | nil_right a d c n => simpa using hf
  | take_left a d c n b e k m hlt ih =>
    rw [merge_node_node, if_pos hlt]
    exact ⟨hf.1, ih hf.2 hg⟩
  | take_right a d c n b e k m hlt ih =>
    rw [merge_node_node, if_neg hlt]
    exact ⟨hg.1, ih hf hg.2⟩

theorem HeapOrdered.merge (hf : HeapOrdered hp f) (hg : HeapOrdered hp g) :
    HeapOrdered hp (merge f g) := by
  induction f, g using merge_induction with
  | nil_left g => exact hg
  | nil_right a d c n => simpa using hf
  | take_left a d c n b e k m hlt ih =>
    rw [merge_node_node, if_pos hlt]
    exact ⟨hf.1, hf.2.1, ih hf.2.2 hg⟩
  | take_right a d c n b e k m hlt ih =>
    rw [merge_node_node, if_neg hlt]
    exact ⟨hg.1, hg.2.1, ih hf hg.2.2⟩

theorem map_merge (g : α → β) (f h : Forest α) :
    (Forest.merge f h).map g = Forest.merge (f.map g) (h.map g) := by
  induction f, h using merge_induction with
  | nil_left h => rfl
  | nil_right a d c n => simp [Forest.map]
  | take_left a d c n b e k m hlt ih =>
    simp only [Forest.map] at ih ⊢
    rw [merge_node_node, merge_node_node, if_pos hlt, if_pos hlt, Forest.map, ih]
  | take_right a d c n b e k m hlt ih =>
    simp only [Forest.map] at ih ⊢
    rw [merge_node_node, merge_node_node, if_neg hlt, if_neg hlt, Forest.map, ih]

/-! ### Consolidation: linking equal degrees -/

/-- Does the list start with a tree of degree `d`? -/
def startsWith (d : Nat) : Forest α → Bool
  | nil => false
  | node _ e _ _ => e == d

/-- Run along a root list with current tree `a`: leave `a` alone when the next
    tree has another degree, or when the next two both have `a`'s degree;
    otherwise link the two, the higher priority on top. -/
def consolidate (hp : α → α → Bool) (a : α) (d : Nat) (c : Forest α) :
    Forest α → Forest α
  | nil => node a d c nil
  | node b e k n =>
      if d ≠ e ∨ startsWith d n then node a d c (consolidate hp b e k n)
      else if hp a b then consolidate hp a (d + 1) (node b e k c) n
      else consolidate hp b (e + 1) (node a d c k) n

theorem elems_consolidate (hp : α → α → Bool) (a : α) (d : Nat) (c f : Forest α) :
    (consolidate hp a d c f).elems = a ::ₘ (c.elems + f.elems) := by
  induction f generalizing a d c with
  | nil => rfl
  | node b e k n _ ihn =>
    simp only [consolidate]
    split
    · simp [ihn]
    split
    · simp only [elems_node, ihn, cons_add, add_cons]
      congr 2
      abel
    simp only [elems_node, ihn, cons_add, add_cons]
    rw [Multiset.cons_swap]
    congr 2
    abel

theorem Shaped.consolidate {a : α} {d : Nat} (hc : Binomial d c) (hf : Shaped f) :
    Shaped (consolidate hp a d c f) := by
  induction f generalizing a d c with
  | nil => exact ⟨hc, trivial⟩
  | node b e k n _ ihn =>
    obtain ⟨hk, hn⟩ := hf
    simp only [Forest.consolidate]
    split
    · exact ⟨hc, ihn hk hn⟩
    rename_i hde
    have hde : d = e := by
      by_contra hne
      exact hde (.inl hne)
    subst hde
    split
    · exact ihn ⟨rfl, hk, hc⟩ hn
    exact ihn ⟨rfl, hc, hk⟩ hn

theorem startsWith_iff {d : Nat} (hso : f.degrees.Pairwise (· ≤ ·))
    (hge : ∀ e ∈ f.degrees, d ≤ e) : startsWith d f = true ↔ d ∈ f.degrees := by
  cases f with
  | nil => simp [startsWith, degrees]
  | node b e k n =>
    simp only [degrees, List.pairwise_cons, List.forall_mem_cons] at hso hge
    simp only [startsWith, beq_iff_eq, degrees, List.mem_cons]
    refine ⟨fun h => .inl h.symm, ?_⟩
    rintro (h | h)
    · exact h.symm
    exact le_antisymm (hso.1 d h) hge.1

/-- The degrees `consolidate` leaves behind.  The list is sorted and holds each
    degree at most twice, so with the current tree a degree may occur three
    times; the result is strictly increasing, and it lies above `d` when exactly
    one more tree of degree `d` follows (the two are linked). -/
theorem degrees_consolidate (hp : α → α → Bool) (a : α) (d : Nat) (c f : Forest α)
    (hso : f.degrees.Pairwise (· ≤ ·)) (htw : ∀ e, f.degrees.count e ≤ 2)
    (hge : ∀ e ∈ f.degrees, d ≤ e) :
    Increasing (consolidate hp a d c f) ∧ (∀ e ∈ (consolidate hp a d c f).degrees, d ≤ e) ∧
      (f.degrees.count d = 1 → ∀ e ∈ (consolidate hp a d c f).degrees, d < e) := by
  induction f generalizing a d c with
  | nil => simp [consolidate, Increasing, degrees]
  | node b e k n _ ihn =>
    simp only [degrees, List.pairwise_cons, List.forall_mem_cons] at hso hge
    have htwice' : ∀ x, n.degrees.count x ≤ 2 := fun x =>
      le_trans (List.Sublist.count_le x (List.sublist_cons_self e n.degrees)) (htw x)
    have hsa := (startsWith_iff hso.2 hge.2).trans List.count_pos_iff.symm
    simp only [consolidate]
    split
    · rename_i had
      obtain ⟨hin, hlo, hstr⟩ := ihn b e k hso.2 htwice' hso.1
      have hag : d = e → 0 < n.degrees.count d := fun h =>
        hsa.mp (had.resolve_left (not_not.mpr h))
      -- everything behind the current tree ends up strictly above it
      have hab : ∀ x ∈ (consolidate hp b e k n).degrees, d < x := by
        intro x hx
        rcases eq_or_ne d e with rfl | hne
        · refine hstr ?_ x hx
          have hpos := hag rfl
          have hle := htw d
          rw [degrees, List.count_cons_self] at hle
          omega
        exact lt_of_lt_of_le (lt_of_le_of_ne hge.1 hne) (hlo x hx)
      refine ⟨List.pairwise_cons.mpr ⟨hab, hin⟩, ?_, fun hon => ?_⟩
      · exact List.forall_mem_cons.mpr ⟨le_refl d, fun x hx => le_of_lt (hab x hx)⟩
      exfalso
      rcases eq_or_ne d e with rfl | hne
      · have hpos := hag rfl
        rw [degrees, List.count_cons_self] at hon
        omega
      rw [degrees, List.count_cons_of_ne hne.symm] at hon
      have hle := hso.1 d (List.count_pos_iff.mp (by omega))
      exact hne (le_antisymm hge.1 hle)
    rename_i had
    obtain ⟨rfl, hla⟩ : d = e ∧ ¬startsWith d n = true := by simpa using had
    -- the next degree is not `d`, so all of them are at least `d + 1`
    have hgt : ∀ x ∈ n.degrees, d + 1 ≤ x := by
      intro x hx
      refine lt_of_le_of_ne (hge.2 x hx) ?_
      rintro rfl
      exact hla (hsa.mpr (List.count_pos_iff.mpr hx))
    split
    · obtain ⟨hin, hlo, _⟩ := ihn a (d + 1) (node b d k c) hso.2 htwice' hgt
      exact ⟨hin, fun x hx => Nat.le_of_succ_le (hlo x hx), fun _ x hx => hlo x hx⟩
    obtain ⟨hin, hlo, _⟩ := ihn b (d + 1) (node a d c k) hso.2 htwice' hgt
    exact ⟨hin, fun x hx => Nat.le_of_succ_le (hlo x hx), fun _ x hx => hlo x hx⟩

theorem HeapOrdered.consolidate {S : Set α} (hS : StrictWeakOn hp S) {a : α} {d : Nat}
    (hm : ∀ x ∈ a ::ₘ (c.elems + f.elems), x ∈ S) (hac : ∀ b ∈ c.elems, ¬hp b a)
    (hc : HeapOrdered hp c) (hf : HeapOrdered hp f) : HeapOrdered hp (consolidate hp a d c f) := by
  induction f generalizing a d c with
  | nil => exact ⟨hac, hc, trivial⟩
  | node b e k n _ ihn =>
    obtain ⟨hbk, hk, hn⟩ := hf
    simp only [elems_node, mem_cons, mem_add] at hm
    have ha : a ∈ S := hm a (by simp)
    have hb : b ∈ S := hm b (by simp)
    simp only [Forest.consolidate]
    split
    · refine ⟨hac, hc, ihn ?_ hbk hk hn⟩
      intro x hx
      simp only [mem_cons, mem_add] at hx
      exact hm x (by tauto)
    split
    · rename_i hab
      refine ihn ?_ ?_ ⟨hbk, hk, hc⟩ hn
      · intro x hx
        simp only [elems_node, mem_cons, mem_add] at hx
        exact hm x (by tauto)
      intro x hx
      have hba := hS.asymm a ha b hb hab
      simp only [elems_node, mem_cons, mem_add] at hx
      rcases hx with rfl | hx | hx
      · exact hba
      · exact hS.negTrans x (hm x (by tauto)) b hb a ha (hbk x hx) hba
      exact hac x hx
    rename_i hab
    refine ihn ?_ ?_ ⟨hac, hc, hk⟩ hn
    · intro x hx
      simp only [elems_node, mem_cons, mem_add] at hx
      exact hm x (by tauto)
    intro x hx
    simp only [elems_node, mem_cons, mem_add] at hx
    rcases hx with rfl | hx | hx
    · exact hab
    · exact hS.negTrans x (hm x (by tauto)) a ha b hb (hac x hx) hab
    exact hbk x hx

theorem startsWith_map (g : α → β) (d : Nat) (f : Forest α) :
    startsWith d (f.map g) = startsWith d f := by
  cases f <;> rfl

theorem map_consolidate {hp : β → β → Bool} (g : α → β) (a : α) (d : Nat) (c f : Forest α) :
    (Forest.consolidate (fun x y => hp (g x) (g y)) a d c f).map g =
      Forest.consolidate hp (g a) d (c.map g) (f.map g) := by
  induction f generalizing a d c with
  | nil => rfl
  | node b e k n _ ihn =>
    simp only [Forest.consolidate, Forest.map, startsWith_map]
    by_cases had : d ≠ e ∨ startsWith d n
    · rw [if_pos had, if_pos had, Forest.map, ihn]
    rw [if_neg had, if_neg had]
    by_cases hab : hp (g a) (g b)
    · rw [if_pos hab, if_pos hab, ihn, Forest.map]
    rw [if_neg hab, if_neg hab, ihn, Forest.map]

/-! ### Melding two root lists -/

/-- Consolidate a whole root list. -/
def consolidateList (hp : α → α → Bool) : Forest α → Forest α
  | nil => nil
  | node a d c n => consolidate hp a d c n

/-- Meld two root lists; an empty one is left out without touching the other. -/
def meld (hp : α → α → Bool) (f g : Forest α) : Forest α :=
  match g, f with
  | nil, f => f
  | g, nil => g
  | g, f => consolidateList hp (merge f g)

@[simp] theorem meld_nil_right (hp : α → α → Bool) (f : Forest α) : meld hp f nil = f := rfl

@[simp] theorem meld_nil_left (hp : α → α → Bool) (g : Forest α) : meld hp nil g = g := by
  cases g <;> rfl

theorem meld_node_node (hp : α → α → Bool) (a b : α) (d e : Nat) (c k n m : Forest α) :
    meld hp (node a d c n) (node b e k m) =
      consolidateList hp (merge (node a d c n) (node b e k m)) := rfl

theorem elems_consolidateList (hp : α → α → Bool) (f : Forest α) :
    (consolidateList hp f).elems = f.elems := by
  cases f with
  | nil => rfl
  | node a d c n => exact elems_consolidate hp a d c n

@[simp] theorem elems_meld (hp : α → α → Bool) (f g : Forest α) :
    (meld hp f g).elems = f.elems + g.elems := by
  cases g with
  | nil => simp
  | node b e k m =>
    cases f with
    | nil => simp
    | node a d c n => rw [meld_node_node, elems_consolidateList, elems_merge]

theorem Shaped.meld (hf : Shaped f) (hg : Shaped g) : Shaped (meld hp f g) := by
  cases g with
  | nil => exact hf
  | node b e k m =>
    cases f with
    | nil => exact hg
    | node a d c n =>
      rw [meld_node_node]
      have hm := Shaped.merge hf hg
      cases hfg : Forest.merge (node a d c n) (node b e k m) with
      | nil => trivial
      | node a' d' c' n' =>
        rw [hfg] at hm
        exact Shaped.consolidate hm.1 hm.2

/-- Two strictly increasing root lists meld into a strictly increasing one. -/
theorem Increasing.meld (hf : Increasing f) (hg : Increasing g) : Increasing (meld hp f g) := by
  cases g with
  | nil => exact hf
  | node b e k m =>
    cases f with
    | nil => rwa [meld_nil_left]
    | node a d c n =>
      rw [meld_node_node]
      have hso := degrees_merge_sorted (hf.imp le_of_lt) (hg.imp le_of_lt)
      have hper := degrees_merge_perm (node a d c n) (node b e k m)
      have htw : ∀ x, (Forest.merge (node a d c n) (node b e k m)).degrees.count x ≤ 2 := by
        intro x
        rw [hper.count_eq, List.count_append]
        have h1 := List.nodup_iff_count_le_one.mp (hf.imp ne_of_lt) x
        have h2 := List.nodup_iff_count_le_one.mp (hg.imp ne_of_lt) x
        omega
      cases hfg : Forest.merge (node a d c n) (node b e k m) with
      | nil => simp [consolidateList, Increasing, degrees]
      | node a' d' c' n' =>
        rw [hfg] at hso htw
        simp only [degrees, List.pairwise_cons] at hso
        refine (degrees_consolidate hp a' d' c' n' hso.2 (fun x => ?_) hso.1).1
        exact le_trans
          (List.Sublist.count_le x (List.sublist_cons_self d' n'.degrees)) (htw x)

theorem HeapOrdered.meld {S : Set α} (hS : StrictWeakOn hp S)
    (hme : ∀ x ∈ f.elems + g.elems, x ∈ S) (hf : HeapOrdered hp f) (hg : HeapOrdered hp g) :
    HeapOrdered hp (meld hp f g) := by
  cases g with
  | nil => exact hf
  | node b e k m =>
    cases f with
    | nil => exact hg
    | node a d c n =>
      rw [meld_node_node]
      have hm := HeapOrdered.merge hf hg
      rw [← elems_merge] at hme
      cases hfg : Forest.merge (node a d c n) (node b e k m) with
      | nil => trivial
      | node a' d' c' n' =>
        rw [hfg] at hm hme
        exact HeapOrdered.consolidate hS hme hm.1 hm.2.1 hm.2.2

theorem map_meld {hp : β → β → Bool} (g : α → β) (f h : Forest α) :
    (Forest.meld (fun x y => hp (g x) (g y)) f h).map g = Forest.meld hp (f.map g) (h.map g) := by
  cases h with
  | nil => rfl
  | node b e k m =>
    cases f with
    | nil => rfl
    | node a d c n =>
      rw [meld_node_node]
      simp only [Forest.map]
      rw [meld_node_node]
      have hm := map_merge g (node a d c n) (node b e k m)
      simp only [Forest.map] at hm
      rw [← hm]
      cases Forest.merge (node a d c n) (node b e k m) with
      | nil => rfl
      | node a' d' c' n' => exact map_consolidate g a' d' c' n'

end Forest

end Litmus.BinomialForest
