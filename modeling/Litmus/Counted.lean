import Litmus.Census
import Mathlib.Logic.Function.Basic

/-!
# Counted objects

Objects with reference counts.  A handle that drops the last reference of an object does
not destroy it at once: it checks the count again, and destroys the object only if the
count is still zero.
-/

namespace Litmus.Counted

open Census Function

variable {O H : Type}

/-- What a handle is doing. -/
inductive Stage (O : Type) where
  | idle
  | holding (o : O)
  /-- it has dropped the last reference and has not checked again -/
  | draining (o : O)
  /-- it has checked again and is going to destroy the object -/
  | condemned (o : O)
deriving DecidableEq

/-- The object of a handle. -/
def Stage.object : Stage O → Option O
  | .idle => none
  | .holding o => some o
  | .draining o => some o
  | .condemned o => some o

theorem Stage.of_object {st : Stage O} {o : O} (h : st.object = some o) :
    st = .holding o ∨ st = .draining o ∨ st = .condemned o := by
  cases st <;> simp_all [Stage.object]

/-- The objects and the handles. -/
@[ext]
structure Store (O H : Type) where
  live : O → Bool
  count : O → Int
  stage : H → Stage O

/-! ### Operations -/

section

variable [DecidableEq O] [DecidableEq H]

/-- A handle of `o` moves on. -/
def Store.move (o : O) (live : Bool) (count : Int) (h : H) (stage : Stage O) (s : Store O H) :
    Store O H where
  live := update s.live o live
  count := update s.count o count
  stage := update s.stage h stage

/-- An object is created with one reference. -/
def Store.create (o : O) (h : H) (s : Store O H) : Store O H := s.move o true 1 h (.holding o)

def Store.acquire (o : O) (h : H) (s : Store O H) : Store O H :=
  s.move o (s.live o) (s.count o + 1) h (.holding o)

def Store.release (o : O) (h : H) (s : Store O H) : Store O H :=
  s.move o (s.live o) (s.count o - 1) h (if s.count o - 1 = 0 then .draining o else .idle)

def Store.recheck (o : O) (h : H) (s : Store O H) : Store O H :=
  s.move o (s.live o) (s.count o) h (if s.count o = 0 then .condemned o else .idle)

def Store.destroy (o : O) (h : H) (s : Store O H) : Store O H :=
  s.move o false (s.count o) h .idle

variable {s : Store O H} {o p : O} {h k : H} {b : Bool} {c : Int} {stage : Stage O}

theorem move_stage_self : (s.move o b c h stage).stage h = stage := update_self _ _ _

theorem move_stage_of_ne (hne : k ≠ h) : (s.move o b c h stage).stage k = s.stage k :=
  update_of_ne hne _ _

theorem move_count_self : (s.move o b c h stage).count o = c := update_self _ _ _

theorem move_count_of_ne (hne : p ≠ o) : (s.move o b c h stage).count p = s.count p :=
  update_of_ne hne _ _

theorem move_live_self : (s.move o b c h stage).live o = b := update_self _ _ _

theorem move_live_of_ne (hne : p ≠ o) : (s.move o b c h stage).live p = s.live p :=
  update_of_ne hne _ _

/-- No handle is going to destroy `o` after a move that does not condemn it. -/
theorem not_condemned_move (hfr : ∀ k, s.stage k ≠ .condemned o) (hsta : stage ≠ .condemned o)
    (k : H) : (s.move o b c h stage).stage k ≠ .condemned o := by
  by_cases hk : k = h
  · subst hk
    rw [move_stage_self]
    exact hsta
  rw [move_stage_of_ne hk]
  exact hfr k

end

/-! ### Exact counts -/

variable [DecidableEq O] [Fintype H]

/-- The number of references. -/
def Store.references (s : Store O H) (o : O) : Nat :=
  census (fun stage => decide (stage = .holding o)) s.stage

/-- The counts are exact, and only live objects have handles. -/
structure Sound (s : Store O H) : Prop where
  count_eq : ∀ {o}, s.live o = true → s.count o = s.references o
  live_of_object : ∀ {h o}, (s.stage h).object = some o → s.live o = true
  /-- the handle that destroys an object is the last one -/
  last : ∀ {h o}, s.stage h = .condemned o →
    s.count o = 0 ∧ ∀ {h'}, (s.stage h').object = some o → h' = h
  /-- an object without references is going to be destroyed -/
  pending : ∀ {o}, s.live o = true → s.count o = 0 →
    ∃ h, s.stage h = .draining o ∨ s.stage h = .condemned o

section

variable {s : Store O H} {o : O} {h : H}

/-- A handle holds a reference only if the count is positive. -/
theorem Sound.count_pos (hs : Sound s) (hh : s.stage h = .holding o) : 0 < s.count o := by
  have ho : s.live o = true := hs.live_of_object (by rw [hh]; rfl)
  have hpos : 0 < s.references o := census_pos (i := h) (decide_eq_true hh)
  rw [hs.count_eq ho]
  exact Int.natCast_pos.mpr hpos

/-- No handle is about to destroy an object. -/
def Store.Settled (s : Store O H) : Prop := ∀ h, s.stage h = .idle ∨ ∃ o, s.stage h = .holding o

/-- An object with a reference is not going to be destroyed. -/
theorem Sound.not_condemned_of_holding (hs : Sound s) (hh : s.stage h = .holding o) (k : H) :
    s.stage k ≠ .condemned o := by
  intro hk
  have hpos := hs.count_pos hh
  have h0 := (hs.last hk).1
  omega

theorem Sound.not_object_of_dead (hs : Sound s) (ho : s.live o = false) :
    (s.stage h).object ≠ some o :=
  fun hobj => nomatch (ho.symm.trans (hs.live_of_object hobj))

/-- A dead object has no references. -/
theorem Sound.references_of_dead (hs : Sound s) (ho : s.live o = false) : s.references o = 0 := by
  apply census_eq_zero
  intro h
  apply decide_eq_false
  intro hh
  exact hs.not_object_of_dead ho (by rw [hh]; rfl)

end

/-! ### What the operations keep -/

section

variable [DecidableEq H] {s : Store O H} {o p : O} {h k : H} {b : Bool} {c : Int}
  {stage : Stage O}

/-- The references after a handle has moved on. -/
theorem references_move (s : Store O H) (o : O) (b : Bool) (c : Int) (h : H) (stage : Stage O)
    (p : O) : (s.move o b c h stage).references p + (if s.stage h = .holding p then 1 else 0) =
      s.references p + (if stage = .holding p then 1 else 0) := by
  have hup := census_update (fun stage => decide (stage = .holding p)) s.stage h stage
  simp only [decide_eq_true_eq] at hup
  exact hup

section

variable (hs : Sound s)
include hs

/-- If a handle of `o` moves on, only `o` has to be looked at. -/
theorem Sound.move (hha : ∀ {p}, (s.stage h).object = some p → p = o)
    (hsa : ∀ {p}, stage.object = some p → p = o)
    (hco : b = true → c = (s.move o b c h stage).references o)
    (hl : ∀ {k}, ((s.move o b c h stage).stage k).object = some o → b = true)
    (hla : ∀ {k}, (s.move o b c h stage).stage k = .condemned o →
      c = 0 ∧ ∀ {k'}, ((s.move o b c h stage).stage k').object = some o → k' = k)
    (hpen : b = true → c = 0 → ∃ k, (s.move o b c h stage).stage k = .draining o ∨
      (s.move o b c h stage).stage k = .condemned o) : Sound (s.move o b c h stage) := by
  have ho : ∀ {k p}, p ≠ o → ∀ {st : Stage O}, st.object = some p →
      ((s.move o b c h stage).stage k = st ↔ s.stage k = st) := by
    intro k p hp st hst
    by_cases hk : k = h
    · subst hk
      rw [move_stage_self]
      constructor
      · intro heq
        subst heq
        exact absurd (hsa hst) hp
      intro heq
      subst heq
      exact absurd (hha hst) hp
    rw [move_stage_of_ne hk]
  constructor
  · intro p hp
    by_cases hpo : p = o
    · subst hpo
      rw [move_live_self] at hp
      rw [move_count_self]
      exact hco hp
    have hold : s.stage h ≠ .holding p := fun hh => hpo (hha (by rw [hh]; rfl))
    have hnew : stage ≠ .holding p := fun hh => hpo (hsa (by rw [hh]; rfl))
    have hre := references_move s o b c h stage p
    rw [if_neg hold, if_neg hnew, add_zero, add_zero] at hre
    rw [move_live_of_ne hpo] at hp
    rw [move_count_of_ne hpo, hre]
    exact hs.count_eq hp
  · intro k p hk
    by_cases hpo : p = o
    · subst hpo
      rw [move_live_self]
      exact hl hk
    rw [move_live_of_ne hpo]
    exact hs.live_of_object (by rw [(ho hpo hk).mp rfl]; exact hk)
  · intro k p hk
    by_cases hpo : p = o
    · subst hpo
      rw [move_count_self]
      exact hla hk
    obtain ⟨h0, huni⟩ := hs.last ((ho hpo rfl).mp hk)
    rw [move_count_of_ne hpo]
    refine ⟨h0, ?_⟩
    intro k' hk'
    exact huni (by rw [(ho hpo hk').mp rfl]; exact hk')
  · intro p hp h0
    by_cases hpo : p = o
    · subst hpo
      rw [move_live_self] at hp
      rw [move_count_self] at h0
      exact hpen hp h0
    rw [move_live_of_ne hpo] at hp
    rw [move_count_of_ne hpo] at h0
    obtain ⟨k, hk⟩ := hs.pending hp h0
    exact ⟨k, hk.imp (ho hpo rfl).mpr (ho hpo rfl).mpr⟩

theorem Sound.create (ho : s.live o = false) (hh : s.stage h = .idle) : Sound (s.create o h) := by
  have hfr : ∀ k, s.stage k ≠ .condemned o := by
    intro k hk
    exact hs.not_object_of_dead ho (by rw [hk]; rfl)
  apply hs.move
  · simp [hh, Stage.object]
  · simp [Stage.object, eq_comm]
  · intro _
    have href := references_move s o true 1 h (.holding o) o
    simp only [hs.references_of_dead ho, hh, reduceCtorEq, if_true, if_false] at href
    omega
  · exact fun _ => rfl
  · intro k hk
    exact absurd hk (not_condemned_move hfr (by simp) k)
  · simp

theorem Sound.acquire (ho : s.live o = true) (hh : s.stage h = .idle)
    (hfr : ∀ k, s.stage k ≠ .condemned o) : Sound (s.acquire o h) := by
  have hco := hs.count_eq ho
  apply hs.move
  · simp [hh, Stage.object]
  · simp [Stage.object, eq_comm]
  · intro _
    have href := references_move s o (s.live o) (s.count o + 1) h (.holding o) o
    simp only [hh, reduceCtorEq, if_true, if_false] at href
    omega
  · exact fun _ => ho
  · intro k hk
    exact absurd hk (not_condemned_move hfr (by simp) k)
  · intro _ h0
    omega

theorem Sound.release (hh : s.stage h = .holding o) : Sound (s.release o h) := by
  have ho : s.live o = true := hs.live_of_object (by rw [hh]; rfl)
  have hco := hs.count_eq ho
  apply hs.move
  · simp [hh, Stage.object, eq_comm]
  · split <;> simp [Stage.object, eq_comm]
  · intro _
    have hnew : (if s.count o - 1 = 0 then .draining o else .idle) ≠ Stage.holding o := by
      split <;> simp
    have href := references_move s o (s.live o) (s.count o - 1) h
      (if s.count o - 1 = 0 then .draining o else .idle) o
    rw [if_pos hh, if_neg hnew] at href
    omega
  · exact fun _ => ho
  · intro k hk
    exact absurd hk (not_condemned_move (hs.not_condemned_of_holding hh) (by split <;> simp) k)
  · intro _ h0
    refine ⟨h, .inl ?_⟩
    rw [move_stage_self, if_pos h0]

/-- The count may be checked while nobody destroys the object.  If it is zero, no other
    handle may be about to check it. -/
theorem Sound.recheck (hh : s.stage h = .draining o) (hfr : ∀ k, s.stage k ≠ .condemned o)
    (halo : s.count o = 0 → ∀ k, s.stage k = .draining o → k = h) : Sound (s.recheck o h) := by
  have ho : s.live o = true := hs.live_of_object (by rw [hh]; rfl)
  have hco := hs.count_eq ho
  apply hs.move
  · simp [hh, Stage.object, eq_comm]
  · split <;> simp [Stage.object, eq_comm]
  · intro _
    have hnew : (if s.count o = 0 then .condemned o else .idle) ≠ Stage.holding o := by
      split <;> simp
    have href := references_move s o (s.live o) (s.count o) h
      (if s.count o = 0 then .condemned o else .idle) o
    rw [if_neg (show s.stage h ≠ .holding o by simp [hh]), if_neg hnew] at href
    omega
  · exact fun _ => ho
  · intro k hk
    by_cases h0 : s.count o = 0
    · have hon : ∀ k, ((s.recheck o h).stage k).object = some o → k = h := by
        intro k hk
        by_contra hne
        rw [Store.recheck, move_stage_of_ne hne] at hk
        rcases Stage.of_object hk with hst | hst | hst
        · have hpos := hs.count_pos hst
          omega
        · exact hne (halo h0 k hst)
        exact hfr k hst
      refine ⟨h0, fun hk' => (hon _ hk').trans (hon k ?_).symm⟩
      rw [Store.recheck, hk]
      rfl
    exact absurd hk (not_condemned_move hfr (by simp [h0]) k)
  · intro _ h0
    refine ⟨h, .inr ?_⟩
    rw [move_stage_self, if_pos h0]

theorem Sound.destroy (hh : s.stage h = .condemned o) : Sound (s.destroy o h) := by
  -- no other handle has to do with the object
  have hn : ∀ k, ((s.destroy o h).stage k).object ≠ some o := by
    intro k hk
    by_cases hkh : k = h
    · subst hkh
      rw [Store.destroy, move_stage_self] at hk
      cases hk
    rw [Store.destroy, move_stage_of_ne hkh] at hk
    exact hkh ((hs.last hh).2 hk)
  apply hs.move
  · simp [hh, Stage.object, eq_comm]
  · simp [Stage.object]
  · simp
  · intro k hk
    exact absurd hk (hn k)
  · intro k hk
    exact absurd (by rw [Store.destroy, hk]; rfl) (hn k)
  · simp

end

end

end Litmus.Counted
