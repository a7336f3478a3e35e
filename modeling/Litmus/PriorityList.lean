import Litmus.BinomialForest
import Mathlib.Data.List.Sort

/-!
# Lists by priority

Lists in which nothing is of higher priority than what stands before it, and insertion in
front of the first element of lower priority.
-/

namespace Litmus.PriorityList

open BinomialForest List

variable {α : Type} {hp : α → α → Bool} {S : Set α} {a : α} {l : List α}

/-- No element beats an earlier one. -/
def Descending (hp : α → α → Bool) (l : List α) : Prop :=
  l.Pairwise fun x y => ¬hp y x = true

/-- Insertion in front of the first element that `a` beats. -/
def insert (hp : α → α → Bool) (a : α) (l : List α) : List α :=
  l.orderedInsert (fun x y => hp x y = true) a

theorem insert_split (hp : α → α → Bool) (a : α) (l : List α) :
    ∃ before later, l = before ++ later ∧ insert hp a l = before ++ a :: later ∧
      (∀ b ∈ before, ¬hp a b = true) ∧ ∀ b ∈ later.head?, hp a b = true := by
  induction l with
  | nil => exact ⟨[], [], rfl, rfl, by simp, by simp⟩
  | cons b rest ih =>
    by_cases hab : hp a b = true
    · refine ⟨[], b :: rest, rfl, ?_, by simp, ?_⟩
      · exact orderedInsert_cons_of_le _ rest hab
      intro c hc
      cases hc
      exact hab
    obtain ⟨before, later, hsp, hins, hbe, hlat⟩ := ih
    refine ⟨b :: before, later, by rw [hsp]; rfl, ?_, ?_, hlat⟩
    · have hski : insert hp a (b :: rest) = b :: insert hp a rest :=
        orderedInsert_of_not_le _ rest hab
      rw [hski, hins]
      rfl
    intro c hc
    rcases mem_cons.mp hc with rfl | hc
    · exact hab
    exact hbe c hc

theorem mem_insert {b : α} : b ∈ insert hp a l ↔ b = a ∨ b ∈ l := mem_orderedInsert _

theorem nodup_insert (hl : l.Nodup) (ha : a ∉ l) : (insert hp a l).Nodup :=
  (perm_orderedInsert _ a l).nodup_iff.mpr (nodup_cons.mpr ⟨ha, hl⟩)

theorem Descending.beats (hS : StrictWeakOn hp S) (hm : ∀ b ∈ l, b ∈ S) (ha : a ∈ S)
    (hl : Descending hp l) (hhea : ∀ b ∈ l.head?, hp a b = true) : ∀ b ∈ l, hp a b = true := by
  cases l with
  | nil => simp
  | cons h rest =>
    have hah : hp a h = true := hhea h rfl
    obtain ⟨hres, -⟩ := pairwise_cons.mp hl
    intro b hb
    rcases mem_cons.mp hb with rfl | hb
    · exact hah
    by_contra hab
    have hhS : h ∈ S := hm h mem_cons_self
    have hbS : b ∈ S := hm b (mem_cons_of_mem h hb)
    exact hS.negTrans a ha b hbS h hhS hab (hres b hb) hah

theorem Descending.insert (hS : StrictWeakOn hp S) (hm : ∀ b ∈ l, b ∈ S) (ha : a ∈ S)
    (hl : Descending hp l) : Descending hp (insert hp a l) := by
  obtain ⟨before, later, rfl, hins, hbe, hltr⟩ := insert_split hp a l
  obtain ⟨hbef, hla, hcro⟩ := pairwise_append.mp hl
  have hmemLater : ∀ b ∈ later, b ∈ S := fun b hb => hm b (mem_append_right before hb)
  have hbea : ∀ b ∈ later, hp a b = true := Descending.beats hS hmemLater ha hla hltr
  rw [hins]
  refine pairwise_append.mpr ⟨hbef, pairwise_cons.mpr ⟨?_, hla⟩, ?_⟩
  · intro b hb
    exact hS.asymm a ha b (hmemLater b hb) (hbea b hb)
  intro x hx y hy
  rcases mem_cons.mp hy with rfl | hy
  · exact hbe x hx
  exact hcro x hx y hy

end Litmus.PriorityList
