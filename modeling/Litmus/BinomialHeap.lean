import Litmus.BinomialExtract

/-!
# A binomial heap with a cached minimum

The queue built on the forest operations: a root list, and possibly one label
that was extracted earlier and is held apart.  Operations that need the minimum
move it into the cache; `insert` swaps a better label with the cached one.

`Heap.WF` is the shape invariant and `Heap.Ordered` the order invariant.  The
order lemmas ask for a strict weak order only on a set that contains the queued
labels, so a comparison that misbehaves elsewhere does no harm.
-/

namespace Litmus.BinomialForest

open Forest Option
open Multiset (mem_add mem_cons nodup_cons mem_cons_of_mem)

variable {α β : Type}

structure Heap (α : Type) where
  forest : Forest α
  min : Option α
deriving DecidableEq, Repr

namespace Heap

variable {H : Heap α} {hp : α → α → Bool}

/-- The labels in the cache. -/
def cached : Option α → Multiset α
  | none => 0
  | some a => {a}

/-- All labels: forest and cache. -/
def elems (H : Heap α) : Multiset α := H.forest.elems + cached H.min

def map (g : α → β) (H : Heap α) : Heap β :=
  { forest := H.forest.map g, min := H.min.map g }

/-- True degrees, strictly increasing along the root list. -/
structure WF (H : Heap α) : Prop where
  shaped : Shaped H.forest
  increasing : Increasing H.forest

/-- The forest is heap-ordered and nothing in it beats the cached label. -/
structure Ordered (hp : α → α → Bool) (H : Heap α) : Prop where
  forest : HeapOrdered hp H.forest
  cache : ∀ m, H.min = some m → ∀ b ∈ H.forest.elems, ¬hp b m

theorem mem_elems {a : α} : a ∈ H.elems ↔ a ∈ H.forest.elems ∨ H.min = some a := by
  obtain ⟨f, m⟩ := H
  cases m <;> simp [elems, cached, eq_comm]

theorem elems_eq_cons {m : α} (h : H.min = some m) : H.elems = m ::ₘ H.forest.elems := by
  rw [elems, h, cached, add_comm]
  rfl

theorem elems_eq_forest (h : H.min = none) : H.elems = H.forest.elems := by
  rw [elems, h, cached, add_zero]

@[simp] theorem elems_mk_some (f : Forest α) (m : α) :
    elems { forest := f, min := some m } = m ::ₘ f.elems := elems_eq_cons rfl

@[simp] theorem elems_mk_none (f : Forest α) :
    elems { forest := f, min := none } = f.elems := elems_eq_forest rfl

theorem nodup_forest (h : H.elems.Nodup) : H.forest.elems.Nodup :=
  (Multiset.nodup_add.mp h).1

theorem elems_map (g : α → β) (H : Heap α) : (H.map g).elems = H.elems.map g := by
  obtain ⟨f, m⟩ := H
  cases m <;> simp [elems, map, cached]

theorem wf_map (g : α → β) : (H.map g).WF ↔ H.WF := by
  constructor
  · rintro ⟨hs, hi⟩
    exact ⟨(shaped_map g).mp hs, by simpa only [map, Increasing, degrees_map] using hi⟩
  rintro ⟨hs, hi⟩
  exact ⟨(shaped_map g).mpr hs, by simpa only [map, Increasing, degrees_map] using hi⟩

theorem ordered_map {hp : β → β → Bool} (g : α → β) :
    (H.map g).Ordered hp ↔ H.Ordered fun a b => hp (g a) (g b) := by
  constructor
  · rintro ⟨hf, hc⟩
    refine ⟨(heapOrdered_map g).mp hf, fun m hm b hb => ?_⟩
    exact hc (g m) (by simp [map, hm]) (g b)
      (by simpa [map] using Multiset.mem_map_of_mem g hb)
  rintro ⟨hf, hc⟩
  refine ⟨(heapOrdered_map g).mpr hf, fun m hm b hb => ?_⟩
  simp only [map, map_eq_some_iff, Forest.elems_map, Multiset.mem_map] at hm hb
  obtain ⟨m, hm, rfl⟩ := hm
  obtain ⟨b, hb, rfl⟩ := hb
  exact hc m hm b hb

/-- The order invariant depends only on how the queued labels compare. -/
theorem Ordered.congr {hp' : α → α → Bool} (h : H.Ordered hp)
    (heq : ∀ a ∈ H.elems, ∀ b ∈ H.elems, hp' a b → hp a b) : H.Ordered hp' where
  forest := h.forest.congr fun a ha b hb =>
    heq a (mem_elems.mpr (.inl ha)) b (mem_elems.mpr (.inl hb))
  cache m hm b hb hbm :=
    h.cache m hm b hb (heq b (mem_elems.mpr (.inl hb)) m (mem_elems.mpr (.inr hm)) hbm)

/-! ### Insertion and the cache -/

def empty : Heap α := { forest := .nil, min := none }

/-- Meld a single tree into the forest. -/
def addTree (hp : α → α → Bool) (a : α) (f : Forest α) : Forest α :=
  meld hp f (node a 0 nil nil)

def insert (hp : α → α → Bool) (a : α) (H : Heap α) : Heap α :=
  match H.min with
  | some m =>
      if hp a m then { forest := addTree hp m H.forest, min := some a }
      else { H with forest := addTree hp a H.forest }
  | none => { H with forest := addTree hp a H.forest }

def uncacheMin (hp : α → α → Bool) (H : Heap α) : Heap α :=
  match H.min with
  | some m => insert hp m { H with min := none }
  | none => H

/-- The union; the second heap is left empty. -/
def union (hp : α → α → Bool) (H K : Heap α) : Heap α :=
  let H := uncacheMin hp H
  let K := uncacheMin hp K
  { H with forest := meld hp H.forest K.forest }

theorem elems_addTree (hp : α → α → Bool) (a : α) (f : Forest α) :
    (addTree hp a f).elems = a ::ₘ f.elems := by
  rw [addTree, elems_meld, elems_node, elems_nil, add_zero, Multiset.add_cons, add_zero]

theorem elems_insert (hp : α → α → Bool) (a : α) (H : Heap α) :
    (insert hp a H).elems = a ::ₘ H.elems := by
  obtain ⟨f, _ | m⟩ := H
  · simp [insert, elems_addTree]
  simp only [insert]
  split
  · simp [elems_addTree]
  simp only [elems_mk_some, elems_addTree]
  rw [Multiset.cons_swap]

theorem min_uncacheMin (hp : α → α → Bool) (H : Heap α) : (uncacheMin hp H).min = none := by
  unfold uncacheMin
  cases hm : H.min with
  | none => exact hm
  | some m => rfl

theorem elems_uncacheMin (hp : α → α → Bool) (H : Heap α) : (uncacheMin hp H).elems = H.elems := by
  unfold uncacheMin
  cases hm : H.min with
  | none => rfl
  | some m => simp [elems_insert, elems_eq_cons hm, elems_eq_forest]

theorem elems_forest_uncacheMin (hp : α → α → Bool) (H : Heap α) :
    (uncacheMin hp H).forest.elems = H.elems := by
  rw [← elems_eq_forest (min_uncacheMin hp H), elems_uncacheMin]

theorem elems_union (hp : α → α → Bool) (H K : Heap α) :
    (union hp H K).elems = H.elems + K.elems := by
  rw [elems_eq_forest (H := union hp H K) (min_uncacheMin hp H)]
  simp [union, elems_forest_uncacheMin]

theorem WF.empty : (empty : Heap α).WF := ⟨trivial, List.Pairwise.nil⟩

@[simp] theorem elems_empty : (empty : Heap α).elems = 0 := rfl

theorem Ordered.empty (hp : α → α → Bool) : (empty : Heap α).Ordered hp :=
  ⟨trivial, fun m hm => by cases hm⟩

theorem WF.addTree (h : H.WF) (a : α) (m : Option α) :
    WF { forest := addTree hp a H.forest, min := m } where
  shaped := h.shaped.meld ⟨rfl, trivial⟩
  increasing := h.increasing.meld (by simp [Increasing, degrees])

theorem WF.insert (h : H.WF) (a : α) : (insert hp a H).WF := by
  unfold Heap.insert
  cases H.min with
  | none => exact h.addTree a _
  | some m =>
    simp only
    split
    · exact h.addTree m _
    exact h.addTree a _

theorem WF.uncacheMin (h : H.WF) : (uncacheMin hp H).WF := by
  unfold Heap.uncacheMin
  cases H.min with
  | none => exact h
  | some m => exact WF.insert (H := { H with min := none }) ⟨h.shaped, h.increasing⟩ m

theorem WF.union {K : Heap α} (hH : H.WF) (hK : K.WF) : (union hp H K).WF where
  shaped := hH.uncacheMin.shaped.meld hK.uncacheMin.shaped
  increasing := hH.uncacheMin.increasing.meld hK.uncacheMin.increasing

section Order

variable {hp : α → α → Bool} {S : Set α}

section

variable (hS : StrictWeakOn hp S)
include hS

theorem HeapOrdered.addTree {a : α} {f : Forest α}
    (hm : ∀ x ∈ a ::ₘ f.elems, x ∈ S) (hf : HeapOrdered hp f) :
    HeapOrdered hp (Heap.addTree hp a f) := by
  refine HeapOrdered.meld hS (fun x hx => hm x ?_) hf ⟨by simp, trivial, trivial⟩
  simpa [add_comm] using hx

theorem Ordered.insert {a : α} (hme : ∀ x ∈ a ::ₘ H.elems, x ∈ S)
    (h : H.Ordered hp) : (insert hp a H).Ordered hp := by
  have ha : a ∈ S := hme a (by simp)
  have hfo : ∀ x ∈ H.forest.elems, x ∈ S := fun x hx =>
    hme x (mem_cons_of_mem (mem_elems.mpr (.inl hx)))
  have had := HeapOrdered.addTree hS (by
      intro x hx
      rcases mem_cons.mp hx with rfl | hx
      · exact ha
      exact hfo x hx) h.forest
  unfold Heap.insert
  cases hm : H.min with
  | none => exact ⟨had, fun m hm' => by cases hm'⟩
  | some m =>
    have hmS : m ∈ S := hme m (mem_cons_of_mem (mem_elems.mpr (.inr hm)))
    simp only
    split
    · rename_i ham
      have hma : ¬hp m a := hS.asymm a ha m hmS ham
      refine ⟨HeapOrdered.addTree hS ?_ h.forest, ?_⟩
      · intro x hx
        rcases mem_cons.mp hx with rfl | hx
        · exact hmS
        exact hfo x hx
      intro m' hm' b hb
      cases hm'
      -- the label that leaves the cache lost against `a`, the others against it
      rw [elems_addTree, mem_cons] at hb
      rcases hb with rfl | hb
      · exact hma
      exact hS.negTrans b (hfo b hb) m hmS a ha (h.cache m hm b hb) hma
    rename_i ham
    refine ⟨had, ?_⟩
    intro m' hm' b hb
    cases hm'
    rw [elems_addTree, mem_cons] at hb
    rcases hb with rfl | hb
    · exact ham
    exact h.cache m hm b hb

/-- Dropping the cache needs only the forest to be ordered. -/
theorem Ordered.uncacheMin (hmem : ∀ x ∈ H.elems, x ∈ S)
    (h : HeapOrdered hp H.forest) : (uncacheMin hp H).Ordered hp := by
  unfold Heap.uncacheMin
  cases hm : H.min with
  | none => exact ⟨h, fun m' hm' => by rw [hm] at hm'; cases hm'⟩
  | some m =>
    refine Ordered.insert hS ?_ ⟨h, fun m' hm' => by cases hm'⟩
    rwa [elems_eq_forest rfl, ← elems_eq_cons hm]

theorem Ordered.union {K : Heap α} (hme : ∀ x ∈ H.elems + K.elems, x ∈ S)
    (hH : H.Ordered hp) (hK : K.Ordered hp) : (union hp H K).Ordered hp := by
  have hH' := Ordered.uncacheMin hS (fun x hx => hme x (mem_add.mpr (.inl hx))) hH.forest
  have hK' := Ordered.uncacheMin hS (fun x hx => hme x (mem_add.mpr (.inr hx))) hK.forest
  refine ⟨HeapOrdered.meld hS ?_ hH'.forest hK'.forest, fun m hm => ?_⟩
  · simpa [elems_forest_uncacheMin] using hme
  simp only [Heap.union, min_uncacheMin] at hm
  cases hm

end

end Order

/-! ### The minimum -/

section Take

variable [DecidableEq α] {S : Set α} {v : α} {H' : Heap α}

/-- Fill the cache from the forest if it is empty. -/
def cacheMin (hp : α → α → Bool) (H : Heap α) : Heap α :=
  match H.min, H.forest with
  | some _, _ => H
  | none, nil => H
  | none, node a _ _ n =>
      let r := minRoot hp a n
      { forest := extract hp r H.forest, min := some r }

def peek (hp : α → α → Bool) (H : Heap α) : Option α × Heap α :=
  ((cacheMin hp H).min, cacheMin hp H)

def take (hp : α → α → Bool) (H : Heap α) : Option α × Heap α :=
  ((cacheMin hp H).min, { cacheMin hp H with min := none })

omit [DecidableEq α] in
theorem minRoot_mem_roots (hp : α → α → Bool) (a : α) (d : Nat) (c n : Forest α) :
    minRoot hp a n ∈ (node a d c n).roots := by
  rcases minRoot_mem hp a n with h | h
  · rw [h]
    simp [roots]
  simp [roots, h]

theorem elems_cacheMin (hp : α → α → Bool) (H : Heap α) : (cacheMin hp H).elems = H.elems := by
  obtain ⟨f, _ | m⟩ := H
  · cases f with
    | nil => rfl
    | node a d c n =>
      rw [elems_mk_none, elems_extract hp (minRoot_mem_roots hp a d c n)]
      exact elems_mk_some _ _
  rfl

/-- The cache stays empty only when there is nothing to put in it. -/
theorem min_cacheMin_eq_none : (cacheMin hp H).min = none ↔ H.elems = 0 := by
  obtain ⟨f, _ | m⟩ := H
  · cases f with
    | nil => simp [cacheMin]
    | node a d c n => simp [cacheMin]
  simp [cacheMin]

/-- Looking twice finds the same label. -/
theorem cacheMin_cacheMin (hp : α → α → Bool) (H : Heap α) :
    cacheMin hp (cacheMin hp H) = cacheMin hp H := by
  obtain ⟨f, _ | m⟩ := H
  · cases f with
    | nil => rfl
    | node a d c n => rfl
  rfl

theorem WF.cacheMin (h : H.WF) : (cacheMin hp H).WF := by
  obtain ⟨f, _ | m⟩ := H
  · cases f with
    | nil => exact h
    | node a d c n => exact ⟨h.shaped.extract, h.increasing.extract h.shaped⟩
  exact h

/-- After `cacheMin` the cached label is one that no queued label beats. -/
theorem Ordered.cacheMin (hS : StrictWeakOn hp S)
    (hme : ∀ x ∈ H.elems, x ∈ S) (h : H.Ordered hp) : (cacheMin hp H).Ordered hp := by
  obtain ⟨f, _ | m⟩ := H
  · rw [elems_eq_forest rfl] at hme
    cases f with
    | nil => exact h
    | node a d c n =>
      have hirr : ∀ x ∈ (node a d c n).elems, ¬hp x x := fun x hx hxx =>
        hS.asymm x (hme x hx) x (hme x hx) hxx hxx
      have hrootS : ∀ x ∈ (node a d c n).roots, x ∈ S := fun x hx =>
        hme x (mem_elems_of_mem_roots hx)
      have hbe := minRoot_best hS (hrootS a (by simp [roots]))
        (f := n) fun x hx => hrootS x (by simp [roots, hx])
      have hr := minRoot_mem_roots hp a d c n
      have hext := elems_extract hp hr
      have hsu : ∀ x ∈ (extract hp (minRoot hp a n) (node a d c n)).elems,
          x ∈ (node a d c n).elems := fun x hx => by
        rw [hext]
        exact mem_cons_of_mem hx
      refine ⟨HeapOrdered.extract hS (fun x hx => hme x (hsu x hx)) h.forest.removeRoot
        h.forest.childrenOf, ?_⟩
      intro m hm b hb
      cases hm
      obtain ⟨r, hr', hbr⟩ := h.forest.exists_root hirr (hsu b hb)
      have hrbe : ¬hp r (minRoot hp a n) := by
        rcases List.mem_cons.mp hr' with rfl | hr'
        · exact hbe.1
        exact hbe.2 r hr'
      exact hS.negTrans b (hme b (hsu b hb)) r (hrootS r hr') _ (hrootS _ hr) hbr hrbe
  exact h

/-- The label `peek` and `take` return: no queued label beats it. -/
theorem cacheMin_best (hS : StrictWeakOn hp S)
    (hme : ∀ x ∈ H.elems, x ∈ S) (h : H.Ordered hp) {m : α} (hm : (cacheMin hp H).min = some m) :
    m ∈ H.elems ∧ ∀ b ∈ H.elems, ¬hp b m := by
  have hmH : m ∈ H.elems := by
    rw [← elems_cacheMin hp H]
    exact mem_elems.mpr (.inr hm)
  refine ⟨hmH, fun b hb hbm => ?_⟩
  rw [← elems_cacheMin hp H, mem_elems] at hb
  rcases hb with hb | hb
  · exact (h.cacheMin hS hme).cache m hm b hb hbm
  rw [hm] at hb
  cases hb
  exact hS.asymm m (hme m hmH) m (hme m hmH) hbm hbm

theorem elems_take_some {a : α} (h : (take hp H).1 = some a) :
    H.elems = a ::ₘ (take hp H).2.elems := by
  have h' : (cacheMin hp H).min = some a := h
  rw [← elems_cacheMin hp H, elems_eq_cons h', take, elems_eq_forest rfl]

theorem take_eq_none :
    (take hp H).1 = none ↔ H.elems = 0 := min_cacheMin_eq_none

theorem elems_take_none (h : (take hp H).1 = none) : (take hp H).2.elems = 0 := by
  have h0 := min_cacheMin_eq_none.mp h
  rw [← elems_cacheMin hp H, elems_eq_forest h] at h0
  rw [take, elems_eq_forest rfl, h0]

theorem WF.take (h : H.WF) : (take hp H).2.WF :=
  ⟨h.cacheMin.shaped, h.cacheMin.increasing⟩

theorem Ordered.take (hS : StrictWeakOn hp S)
    (hmem : ∀ x ∈ H.elems, x ∈ S) (h : H.Ordered hp) : (take hp H).2.Ordered hp :=
  ⟨(h.cacheMin hS hmem).forest, fun m hm => by cases hm⟩

/-! ### Deletion and decrease -/

/-- Remove label `v` wherever it is; `none` if it is not queued. -/
def delete (hp : α → α → Bool) (v : α) (H : Heap α) : Option (Heap α) :=
  if H.min = some v then some { H with min := none }
  else (raise v H.forest).map fun f => { H with forest := extract hp v f }

/-- Move label `v` up past the ancestors it beats.  The flag says whether some
    ancestor still holds it down. -/
def decrease (hp : α → α → Bool) (v : α) (H : Heap α) : Option (Bool × Heap α) :=
  if H.min = some v then some (false, H)
  else (lift hp v H.forest).map fun r => (!r.2, { H with forest := r.1 })

theorem delete_isSome (h : v ∈ H.elems) : ∃ H', delete hp v H = some H' := by
  unfold delete
  by_cases hm : H.min = some v
  · rw [if_pos hm]
    exact ⟨_, rfl⟩
  rw [if_neg hm]
  obtain ⟨f, hf⟩ := raise_isSome ((mem_elems.mp h).resolve_right hm)
  rw [hf]
  exact ⟨_, rfl⟩

/-- The two ways `delete` succeeds. -/
theorem delete_cases (h : delete hp v H = some H') :
    (H.min = some v ∧ H' = { H with min := none }) ∨
      (H.min ≠ some v ∧ ∃ f, raise v H.forest = some f ∧
        H' = { H with forest := extract hp v f }) := by
  unfold delete at h
  by_cases hm : H.min = some v
  · rw [if_pos hm] at h
    cases h
    exact .inl ⟨hm, rfl⟩
  rw [if_neg hm, map_eq_some_iff] at h
  obtain ⟨f, hf, rfl⟩ := h
  exact .inr ⟨hm, f, hf, rfl⟩

theorem elems_delete (h : delete hp v H = some H')
    (hnd : H.elems.Nodup) : H.elems = v ::ₘ H'.elems := by
  rcases delete_cases h with ⟨hm, rfl⟩ | ⟨hm, f, hf, rfl⟩
  · rw [elems_eq_cons hm, elems_eq_forest rfl]
  obtain ⟨hroo, hel, _, _⟩ := raise_spec hp hf (nodup_forest hnd)
  simp only [elems]
  rw [← hel, elems_extract hp hroo, Multiset.cons_add]

theorem WF.delete (h : delete hp v H = some H') (hnd : H.elems.Nodup) (hwf : H.WF) : H'.WF := by
  rcases delete_cases h with ⟨hm, rfl⟩ | ⟨hm, f, hf, rfl⟩
  · exact ⟨hwf.shaped, hwf.increasing⟩
  obtain ⟨_, _, hsh, _⟩ := raise_spec hp hf (nodup_forest hnd)
  have hs := hsh.shaped hwf.shaped
  have hi : Increasing f := by
    rw [Increasing, hsh.degrees_eq]
    exact hwf.increasing
  exact ⟨hs.extract, hi.extract hs⟩

omit [DecidableEq α] in
/-- Removing the exempted label makes the exemption vacuous. -/
theorem HeapOrdered.of_except [DecidableEq α] {f : Forest α}
    (h : HeapOrdered (except hp v) f) (hv : v ∉ f.elems) : HeapOrdered hp f := by
  refine h.congr fun a ha b hb hab => ?_
  have hav : a ≠ v := fun h' => hv (h' ▸ ha)
  have hbv : b ≠ v := fun h' => hv (h' ▸ hb)
  simp [except, hab, hav, hbv]

/-- `delete` needs the order only away from the deleted label: its own priority
    may have changed in any way since it was queued. -/
theorem Ordered.delete (h : delete hp v H = some H') (hnd : H.elems.Nodup) (hS : StrictWeakOn hp S)
    (hmem : ∀ x ∈ H'.elems, x ∈ S) (hor : H.Ordered (except hp v)) : H'.Ordered hp := by
  have hsp := elems_delete h hnd
  have hv : v ∉ H'.elems := by
    rw [hsp] at hnd
    exact (nodup_cons.mp hnd).1
  rcases delete_cases h with ⟨hm, rfl⟩ | ⟨hm, f, hf, rfl⟩
  · refine ⟨HeapOrdered.of_except hor.forest fun hv' => hv (mem_elems.mpr (.inl hv')), ?_⟩
    intro m hm'
    cases hm'
  obtain ⟨hroo, hel, _, hkee⟩ := raise_spec hp hf (nodup_forest hnd)
  have hord' := hkee hor.forest
  have hvf : v ∉ (extract hp v f).elems := fun hv' => hv (mem_elems.mpr (.inl hv'))
  have hvp : v ∉ (removeRoot v f).elems ∧ v ∉ (childrenOf v f).elems := by
    rw [extract, elems_meld, elems_rev, mem_add, not_or] at hvf
    exact hvf
  refine ⟨HeapOrdered.extract hS (fun x hx => hmem x (mem_elems.mpr (.inl hx)))
    (HeapOrdered.of_except hord'.removeRoot hvp.1)
    (HeapOrdered.of_except hord'.childrenOf hvp.2), ?_⟩
  intro m hm' b hb hbm
  have hbf : b ∈ H.forest.elems := by
    rw [← hel, elems_extract hp hroo]
    exact mem_cons_of_mem hb
  have hbv : b ≠ v := fun h' => hvf (h' ▸ hb)
  have hmv : m ≠ v := fun h' => hm (h' ▸ hm')
  exact hor.cache m hm' b hbf (by simp [except, hbm, hbv, hmv])

/-- An element that has changed its place in the order is taken out and put back. -/
theorem reposition {hp hp' : α → α → Bool}
    (hS : StrictWeakOn hp' S) (hm : ∀ x ∈ H.elems, x ∈ S) (hnd : H.elems.Nodup) (hv : v ∈ H.elems)
    (hord : H.Ordered hp) (hs : ∀ a, a ≠ v → ∀ b, b ≠ v → hp' a b → hp a b) :
    (((H.delete hp' v).getD H).insert hp' v).elems = H.elems ∧
      (((H.delete hp' v).getD H).insert hp' v).Ordered hp' := by
  obtain ⟨H', hH'⟩ : ∃ H', H.delete hp' v = some H' := delete_isSome hv
  have hsp := elems_delete hH' hnd
  rw [hH', getD_some, elems_insert]
  have hin : ∀ x ∈ H'.elems, x ∈ S := fun x hx =>
    hm x (by rw [hsp]; exact mem_cons_of_mem hx)
  have hexc : H.Ordered (except hp' v) := by
    refine hord.congr fun a _ b _ hab => ?_
    simp only [except, Bool.and_eq_true, decide_eq_true_eq] at hab
    exact hs a hab.1.2 b hab.2 hab.1.1
  refine ⟨hsp.symm, (Ordered.delete hH' hnd hS hin hexc).insert hS ?_⟩
  rw [← hsp]
  exact hm

/-- `decrease` when only `v` may be out of place, and only by beating labels above
    it.  Labels and shape are kept and the forest is ordered again.  The cache is
    still right when `v` is held down; when it is not, the caller has to drop the
    cache before it asks for the minimum. -/
theorem decrease_spec (hS : StrictWeakOn hp S) {held : Bool} (h : decrease hp v H = some (held, H')) (hnd : H.elems.Nodup)
    (hme : ∀ x ∈ H.elems, x ∈ S) (hwf : H.WF) (hor : H.Ordered (exceptUp hp v)) :
    H'.elems = H.elems ∧ H'.min = H.min ∧ H'.WF ∧ HeapOrdered hp H'.forest ∧
      (held = true → H'.Ordered hp) := by
  unfold decrease at h
  by_cases hm : H.min = some v
  · rw [if_pos hm] at h
    cases h
    refine ⟨rfl, rfl, hwf, ?_, (fun h' => by cases h')⟩
    have hv : v ∉ H.forest.elems := by
      rw [elems_eq_cons hm, nodup_cons] at hnd
      exact hnd.1
    refine hor.forest.congr fun a ha b _ hab => ?_
    have hav : a ≠ v := fun h' => hv (h' ▸ ha)
    simp [exceptUp, hab, hav]
  rw [if_neg hm, map_eq_some_iff] at h
  obtain ⟨⟨f, top⟩, hf, hr⟩ := h
  cases hr
  have hfo : ∀ x ∈ H.forest.elems, x ∈ S := fun x hx =>
    hme x (mem_elems.mpr (.inl hx))
  obtain ⟨hel, hsh, hrd, _, hh⟩ :=
    lift_spec hS hf (nodup_forest hnd) hfo hor.forest
  refine ⟨by simp [elems, hel], rfl, ⟨hsh.shaped hwf.shaped, ?_⟩, hrd, ?_⟩
  · simp only [Increasing, hsh.degrees_eq]
    exact hwf.increasing
  intro hto
  simp only [Bool.not_eq_true'] at hto
  obtain ⟨b, hb, hbv, hvb⟩ := hh hto
  refine ⟨hrd, fun m hm' x hx hxm => ?_⟩
  have hmS : m ∈ S := hme m (mem_elems.mpr (.inr hm'))
  simp only [hel] at hx
  by_cases hxv : x = v
  · -- the label that holds `v` down does not beat the cached one
    subst hxv
    have hbm : ¬hp b m := fun h' => hor.cache m hm' b hb (by simp [exceptUp, h', hbv])
    exact hS.negTrans x (hfo x hx) b (hfo b hb) m hmS hvb hbm hxm
  exact hor.cache m hm' x hx (by simp [exceptUp, hxm, hxv])

end Take

/-! ### Relabelling commutes with the operations -/

section Map

variable (hp : β → β → Bool)

theorem map_addTree (g : α → β) (a : α) (f : Forest α) :
    (addTree (fun x y => hp (g x) (g y)) a f).map g = addTree hp (g a) (f.map g) :=
  map_meld g f (node a 0 nil nil)

theorem map_insert (g : α → β) (a : α) (H : Heap α) :
    (insert (fun x y => hp (g x) (g y)) a H).map g = insert hp (g a) (H.map g) := by
  obtain ⟨f, _ | m⟩ := H
  · simp only [insert, map, map_none, map_addTree]
  simp only [insert, map, map_some]
  split
  · simp [map_addTree]
  simp [map_addTree]

variable [DecidableEq α] [DecidableEq β]

theorem map_cacheMin {g : α → β} (hinj : ∀ a ∈ H.elems, ∀ b ∈ H.elems, g a = g b → a = b) :
    (cacheMin (fun x y => hp (g x) (g y)) H).map g = cacheMin hp (H.map g) := by
  obtain ⟨f, _ | m⟩ := H
  · cases f with
    | nil => rfl
    | node a d c n =>
      have hr := minRoot_mem_roots (fun x y => hp (g x) (g y)) a d c n
      have hro : ∀ x ∈ (node a d c n).roots, x ∈ (⟨node a d c n, none⟩ : Heap α).elems :=
        fun x hx => mem_elems.mpr (.inl (mem_elems_of_mem_roots hx))
      have hex := map_extract hp (g := g) (f := node a d c n) fun x hx h =>
        hinj x (hro x hx) _ (hro _ hr) h
      simp only [cacheMin, map, map_some, map_none, Forest.map] at hex ⊢
      rw [hex, minRoot_map hp g]
  rfl

end Map

/-! ### The operations compare only what is queued -/

section Congr

variable {S : Set α} {hp hp' : α → α → Bool}

theorem exists_forest_map {f : Forest α} (h : ∀ a ∈ f.elems, a ∈ S) :
    ∃ g : Forest S, g.map Subtype.val = f := by
  induction f with
  | nil => exact ⟨nil, rfl⟩
  | node a d c n ihc ihn =>
    simp only [elems_node, mem_cons, mem_add] at h
    obtain ⟨c', rfl⟩ := ihc fun x hx => h x (.inr (.inl hx))
    obtain ⟨n', rfl⟩ := ihn fun x hx => h x (.inr (.inr hx))
    exact ⟨node ⟨a, h a (.inl rfl)⟩ d c' n', rfl⟩

theorem exists_map (h : ∀ a ∈ H.elems, a ∈ S) : ∃ K : Heap S, K.map Subtype.val = H := by
  obtain ⟨f, hf⟩ := exists_forest_map fun a ha => h a (mem_elems.mpr (.inl ha))
  rcases hm : H.min with _ | m
  · exact ⟨⟨f, none⟩, by rw [map, hf, map_none, ← hm]⟩
  exact ⟨⟨f, some ⟨m, h m (mem_elems.mpr (.inr hm))⟩⟩, by rw [map, hf, map_some, ← hm]⟩

theorem insert_congr {a : α} (hS : ∀ x ∈ S, ∀ y ∈ S, hp x y = hp' x y) (ha : a ∈ S)
    (hm : ∀ x ∈ H.elems, x ∈ S) : insert hp a H = insert hp' a H := by
  obtain ⟨K, rfl⟩ := exists_map hm
  have hs : (fun x y : S => hp x y) = fun x y : S => hp' x y :=
    funext fun x => funext fun y => hS x x.2 y y.2
  have hlef := map_insert hp Subtype.val (⟨a, ha⟩ : S) K
  have hrig := map_insert hp' Subtype.val (⟨a, ha⟩ : S) K
  rw [← hlef, ← hrig, hs]

theorem cacheMin_congr [DecidableEq α] (hS : ∀ x ∈ S, ∀ y ∈ S, hp x y = hp' x y)
    (hm : ∀ x ∈ H.elems, x ∈ S) : cacheMin hp H = cacheMin hp' H := by
  obtain ⟨K, rfl⟩ := exists_map hm
  have hs : (fun x y : S => hp x y) = fun x y : S => hp' x y :=
    funext fun x => funext fun y => hS x x.2 y y.2
  have hin : ∀ x ∈ K.elems, ∀ y ∈ K.elems, Subtype.val x = Subtype.val y → x = y :=
    fun _ _ _ _ h => Subtype.ext h
  rw [← map_cacheMin hp hin, ← map_cacheMin hp' hin, hs]

end Congr

end Heap

end Litmus.BinomialForest
