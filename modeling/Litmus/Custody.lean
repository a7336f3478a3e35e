import Mathlib.Data.Multiset.AddSub
import Mathlib.Data.Multiset.UnionInter

/-!
# Custody

Items are kept in multisets at places.  The custody is sound when every live item is at
exactly one place, once, and nothing else is kept.  The rules say what moving items does
to a sound custody.
-/

namespace Litmus.Custody

variable {P T : Type} {held held' : P → Multiset T} {live live' : T → Prop} {t : T} {b a : P}

/-- Every live item has exactly one place. -/
structure Sound (held : P → Multiset T) (live : T → Prop) : Prop where
  nodup : ∀ p, (held p).Nodup
  unique : ∀ {p q t}, t ∈ held p → t ∈ held q → p = q
  live_iff : ∀ t, (∃ p, t ∈ held p) ↔ live t

section

variable (h : Sound held live)
include h

theorem Sound.existsUnique (ht : live t) : ∃! p, t ∈ held p := by
  obtain ⟨p, hp⟩ := (h.live_iff t).mpr ht
  exact ⟨p, hp, fun q hq => h.unique hq hp⟩

theorem Sound.not_mem (ht : ¬live t) (p : P) : t ∉ held p :=
  fun hp => ht ((h.live_iff t).mp ⟨p, hp⟩)

/-- Nothing moves. -/
theorem Sound.congr (hh : ∀ p, held' p = held p)
    (hl : ∀ t, live' t ↔ live t) : Sound held' live' where
  nodup p := by
    rw [hh]
    exact h.nodup p
  unique := by
    intro p q t hp hq
    rw [hh] at hp hq
    exact h.unique hp hq
  live_iff t := by
    rw [hl, ← h.live_iff]
    exact exists_congr fun p => by rw [hh]

/-- The items `M` come to `b`, from outside or from other places. -/
theorem Sound.gather {M : T → Prop} (hnod : ∀ q, (held' q).Nodup)
    (hme : ∀ q u, u ∈ held' q ↔ M u ∧ q = b ∨ ¬M u ∧ u ∈ held q)
    (hl : ∀ u, live' u ↔ M u ∨ live u) : Sound held' live' := by
  refine ⟨hnod, ?_, fun u => ?_⟩
  · intro p q u hp hq
    rcases (hme p u).mp hp with ⟨hm, rfl⟩ | ⟨hn, hp⟩
    · rcases (hme q u).mp hq with ⟨-, rfl⟩ | ⟨hn, -⟩
      · rfl
      exact absurd hm hn
    rcases (hme q u).mp hq with ⟨hm, -⟩ | ⟨-, hq⟩
    · exact absurd hm hn
    exact h.unique hp hq
  by_cases hm : M u <;> simp [hme, hl, h.live_iff, hm]

/-- A new item arrives at `b`. -/
theorem Sound.enter (ht : ¬live t) (hb : held' b = t ::ₘ held b)
    (ho : ∀ q, q ≠ b → held' q = held q) (hl : ∀ u, live' u ↔ u = t ∨ live u) :
    Sound held' live' := by
  refine h.gather (b := b) (fun q => ?_) (fun q u => ?_) hl
  · by_cases hq : q = b
    · rw [hq, hb]
      exact Multiset.nodup_cons.mpr ⟨h.not_mem ht b, h.nodup b⟩
    rw [ho q hq]
    exact h.nodup q
  have hn : u ∈ held q → u ≠ t := fun hu hut => h.not_mem ht q (hut ▸ hu)
  by_cases hq : q = b
  · subst hq
    rw [hb, Multiset.mem_cons]
    tauto
  rw [ho q hq]
  tauto

/-- An item is taken from wherever it is. -/
theorem Sound.erase [DecidableEq T] (hh : ∀ q, held' q = (held q).erase t)
    (hl : ∀ u, live' u ↔ u ≠ t ∧ live u) : Sound held' live' := by
  have hm : ∀ q u, u ∈ held' q ↔ u ≠ t ∧ u ∈ held q := fun q u => by
    rw [hh, (h.nodup q).mem_erase_iff]
  constructor
  · intro q
    rw [hh]
    exact (h.nodup q).erase t
  · intro p q u hp hq
    exact h.unique ((hm p u).mp hp).2 ((hm q u).mp hq).2
  intro u
  simp [hm, hl, ← h.live_iff]

/-- An item that is at `a` and nowhere else. -/
theorem Sound.erase_eq [DecidableEq T] (ha : held a = t ::ₘ held' a)
    (ho : ∀ q, q ≠ a → held' q = held q) (q : P) : held' q = (held q).erase t := by
  by_cases hq : q = a
  · rw [hq, ha, Multiset.erase_cons_head]
  have hat : t ∈ held a := by
    rw [ha]
    exact Multiset.mem_cons_self t _
  rw [ho q hq, Multiset.erase_of_notMem fun ht => hq (h.unique ht hat)]

/-- An item leaves from `a`. -/
theorem Sound.leave (ha : held a = t ::ₘ held' a)
    (ho : ∀ q, q ≠ a → held' q = held q) (hl : ∀ u, live' u ↔ u ≠ t ∧ live u) :
    Sound held' live' := by
  classical
  exact h.erase (h.erase_eq ha ho) hl

/-- A batch of items moves from `a` to `b`. -/
theorem Sound.transfer {moved : Multiset T} (hab : a ≠ b)
    (ha : held a = moved + held' a) (hb : held' b = held b + moved)
    (ho : ∀ q, q ≠ a → q ≠ b → held' q = held q) (hl : ∀ u, live' u ↔ live u) :
    Sound held' live' := by
  have hsp := h.nodup a
  rw [ha, Multiset.nodup_add] at hsp
  obtain ⟨hmo, hk, hdis⟩ := hsp
  have hin : ∀ u ∈ moved, u ∈ held a := fun u hu => by
    rw [ha]
    exact Multiset.mem_add.mpr (.inl hu)
  have hn : ∀ q u, q ≠ a → u ∈ held q → u ∉ moved := fun q u hq hu hm =>
    hq (h.unique hu (hin u hm))
  refine h.gather (b := b) (M := (· ∈ moved)) (fun q => ?_) (fun q u => ?_) fun u => ?_
  · by_cases hqa : q = a
    · exact hqa ▸ hk
    by_cases hqb : q = b
    · rw [hqb, hb, Multiset.nodup_add]
      exact ⟨h.nodup b, hmo, Multiset.disjoint_left.mpr fun hu => hn b _ hab.symm hu⟩
    rw [ho q hqa hqb]
    exact h.nodup q
  · by_cases hqa : q = a
    · subst hqa
      have hapa : u ∈ moved → u ∉ held' q := fun hm => Multiset.disjoint_left.mp hdis hm
      rw [ha, Multiset.mem_add]
      tauto
    have hsta := hn q u hqa
    by_cases hqb : q = b
    · subst hqb
      rw [hb, Multiset.mem_add]
      tauto
    rw [ho q hqa hqb]
    tauto
  rw [hl, or_iff_right_of_imp fun hm => (h.live_iff u).mp ⟨a, hin u hm⟩]

/-- An item moves from `a` to `b`. -/
theorem Sound.move (hab : a ≠ b) (ha : held a = t ::ₘ held' a)
    (hb : held' b = t ::ₘ held b) (ho : ∀ q, q ≠ a → q ≠ b → held' q = held q)
    (hl : ∀ u, live' u ↔ live u) : Sound held' live' := by
  have hout : held a = {t} + held' a := by rw [ha, Multiset.singleton_add]
  have hin : held' b = held b + {t} := by rw [hb, Multiset.add_comm, Multiset.singleton_add]
  exact h.transfer hab hout hin ho hl

end

end Litmus.Custody
