import Mathlib.Logic.Function.Basic

/-!
# Two-way links

Slots point to items and items point back to slots.  Slots are cleared, filled and emptied
into one another by separate writes to both directions.
-/

namespace Litmus.Linkage

open Function

variable {C T : Type*} [DecidableEq C] [DecidableEq T] {P : T → Prop}
  {slot : C → Option T} {place : T → Option C} {b c s : C} {t : T}

/-- The two directions agree for the items of `P`. -/
def Paired (P : T → Prop) (slot : C → Option T) (place : T → Option C) : Prop :=
  ∀ t, P t → ∀ c, place t = some c ↔ slot c = some t

/-- The item in slot `c` forgets its place. -/
def forget (slot : C → Option T) (c : C) (place : T → Option C) : T → Option C :=
  match slot c with
  | some old => update place old none
  | none => place

/-- The item `t`, if any, is told that its place is `c`. -/
def tell (c : C) (t : Option T) (place : T → Option C) : T → Option C :=
  match t with
  | some u => update place u (some c)
  | none => place

/-- The two directions agree but for slot `c`, whose item may have forgotten its place. -/
structure PairedBut (P : T → Prop) (c : C) (slot : C → Option T) (place : T → Option C) :
    Prop where
  others : ∀ t, P t → ∀ d, d ≠ c → (place t = some d ↔ slot d = some t)
  here : ∀ t, P t → place t = some c → slot c = some t
  item : ∀ t, slot c = some t → place t = none ∨ place t = some c

section

omit [DecidableEq C]

theorem update_none_eq_some {u : T} : update place t none u = some c ↔ u ≠ t ∧ place u = some c := by
  by_cases hut : u = t <;> simp [hut]

theorem update_some_eq_some {u : T} :
    update place t (some b) u = some c ↔ u = t ∧ b = c ∨ u ≠ t ∧ place u = some c := by
  by_cases hut : u = t <;> simp [hut]

theorem forget_eq_some : forget slot s place t = some c ↔ slot s ≠ some t ∧ place t = some c := by
  unfold forget
  cases slot s with
  | none => simp
  | some old => rw [update_none_eq_some, ne_comm, ne_eq, ne_eq, Option.some_inj]

omit [DecidableEq T] in
/-- No item is in two slots. -/
theorem Paired.slot_unique (h : Paired P slot place) (ht : P t) (hb : slot b = some t)
    (hc : slot c = some t) : b = c :=
  Option.some.inj (((h t ht b).mpr hb).symm.trans ((h t ht c).mpr hc))

omit [DecidableEq T] in
theorem Paired.but (h : Paired P slot place) (hP : ∀ t, slot c = some t → P t) :
    PairedBut P c slot place := by
  constructor
  · intro t ht d _
    exact h t ht d
  · intro t ht
    exact (h t ht c).mp
  intro t ht
  exact .inr ((h t (hP t ht) c).mpr ht)

/-- The item of slot `c` has forgotten its place. -/
theorem Paired.forgotten (h : Paired P slot place) (ht : P t) (hc : slot c = some t) :
    PairedBut P c slot (update place t none) := by
  constructor
  · intro u hu d hdc
    rw [update_none_eq_some, h u hu d, and_iff_right_of_imp]
    rintro hd rfl
    exact hdc (h.slot_unique ht hd hc)
  · intro u hu hd
    exact (h u hu c).mp (update_none_eq_some.mp hd).2
  intro u hu
  have hut : u = t := Option.some.inj (hu.symm.trans hc)
  rw [hut, update_self]
  exact .inl rfl

end

/-- Slot `c` is cleared. -/
theorem PairedBut.clear (h : PairedBut P c slot place) :
    Paired P (update slot c none) (forget slot c place) := by
  intro t ht d
  rw [forget_eq_some, update_none_eq_some]
  constructor
  · rintro ⟨hc, hd⟩
    have hdc : d ≠ c := by
      rintro rfl
      exact hc (h.here t ht hd)
    exact ⟨hdc, (h.others t ht d hdc).mp hd⟩
  rintro ⟨hdc, hd⟩
  have hpl := (h.others t ht d hdc).mpr hd
  refine ⟨fun hc => ?_, hpl⟩
  rcases h.item t hc with hn | hs
  · cases hn.symm.trans hpl
  exact hdc (Option.some.inj (hpl.symm.trans hs))

section

variable (h : Paired P slot place) (hempty : slot c = none)

include h hempty

/-- An empty slot is filled with an item that is in no slot. -/
theorem Paired.fill (hfre : ∀ d, slot d ≠ some t) :
    Paired P (update slot c (some t)) (update place t (some c)) := by
  intro u hu d
  rw [update_some_eq_some, update_some_eq_some, h u hu d]
  constructor
  · rintro (⟨rfl, rfl⟩ | ⟨-, hd⟩)
    · exact .inl ⟨rfl, rfl⟩
    refine .inr ⟨?_, hd⟩
    rintro rfl
    cases hempty.symm.trans hd
  rintro (⟨rfl, rfl⟩ | ⟨-, hd⟩)
  · exact .inl ⟨rfl, rfl⟩
  refine .inr ⟨?_, hd⟩
  rintro rfl
  exact hfre d hd

/-- The item of slot `s`, if any, moves to the empty slot `c`. -/
theorem Paired.shift (hcs : c ≠ s) (hP : ∀ u, slot s = some u → P u) :
    Paired P (update (update slot s none) c (slot s)) (tell c (slot s) place) := by
  have hcle := (h.but hP).clear
  cases hs : slot s with
  | none =>
    have hsam : update (update slot s none) c none = slot := by
      rw [← hs, update_eq_self, hs, ← hempty, update_eq_self]
    rw [hsam]
    exact h
  | some u =>
    have hfil := hcle.fill (c := c) (t := u) (by rw [update_of_ne hcs, hempty])
      (by
        intro d hd
        obtain ⟨hds, hd⟩ := update_none_eq_some.mp hd
        exact hds (h.slot_unique (hP u hs) hd hs))
    have hfor : update (forget slot s place) u (some c) = tell c (some u) place := by
      simp [forget, hs, tell]
    rwa [hfor] at hfil

/-- Item `t` is put into slot `s`, and what was there goes to the empty slot `c`. -/
theorem Paired.swap (hcs : c ≠ s) (hP : ∀ u, slot s = some u → P u) (hfr : ∀ d, slot d ≠ some t) :
    Paired P (update (update slot s (some t)) c (slot s))
      (tell c (slot s) (update place t (some s))) := by
  have hshi := h.shift hempty hcs hP
  have hfil := hshi.fill (c := s) (t := t) (by rw [update_of_ne hcs.symm, update_self])
    (by
      intro d hd
      by_cases hdc : d = c
      · rw [hdc, update_self] at hd
        exact hfr s hd
      rw [update_of_ne hdc] at hd
      exact hfr d (update_none_eq_some.mp hd).2)
  have hslo : update (update (update slot s none) c (slot s)) s
      (some t) = update (update slot s (some t)) c (slot s) := by
    rw [update_comm hcs.symm, update_idem, update_comm hcs]
  have hpla : update (tell c (slot s) place) t (some s) =
      tell c (slot s) (update place t (some s)) := by
    cases hs : slot s with
    | none => rfl
    | some u =>
      have hut : u ≠ t := fun heq => hfr s (heq ▸ hs)
      exact update_comm hut _ _ _
  rwa [hslo, hpla] at hfil

end

end Litmus.Linkage
