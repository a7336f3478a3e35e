import Mathlib.Data.Nat.GCD.Basic
import Mathlib.Logic.Function.Iterate
import Mathlib.Tactic.Linarith
import Mathlib.Tactic.Ring

/-!
# Sharing jobs between two places

Jobs are done one after the other in one of two places, which should get shares `p : r` of
them.  After `a` jobs in the first place and `b` in the second, the gap is `a * r - b * p`;
fair sharing keeps it small.  The walk decides after each job where the next is done, by
testing whether the gap lies in a window of its own place.  If the window of the second
place is stepped over, the walk stays there for ever.
-/

namespace Litmus.ShareWalk

structure State where
  onFirst : Bool
  gap : ℤ

section

variable (p r : ℕ)

/-- One job is done, and the place of the next one chosen. -/
def step (x : State) : State :=
  if x.onFirst then ⟨decide (0 ≤ x.gap + r ∧ x.gap + r < p), x.gap + r⟩
  else ⟨decide (-(r : ℤ) < x.gap - p ∧ x.gap - p ≤ 0), x.gap - p⟩

/-- One job has been done in the first place. -/
def start : State := ⟨true, r⟩

def walk (n : ℕ) : State := (step p r)^[n] (start r)

/-- The gap is as if at most two jobs had been done in the wrong place. -/
def WithinTwo (x : State) : Prop := |x.gap - r| ≤ 2 * (p + r)

/-- The window of the second place has been stepped over. -/
def Stuck (x : State) : Prop := x.onFirst = false ∧ x.gap ≤ -(r : ℤ)

end

section

variable {p r : ℕ} {g : ℤ}

@[simp] theorem walk_zero : walk p r 0 = ⟨true, r⟩ := rfl

theorem walk_succ (n : ℕ) : walk p r (n + 1) = step p r (walk p r n) :=
  Function.iterate_succ_apply' _ _ _

theorem walk_invariant {I : State → Prop} (hsa : I ⟨true, r⟩) (hs : ∀ x, I x → I (step p r x))
    (n : ℕ) : I (walk p r n) := by
  induction n with
  | zero => exact hsa
  | succ n ih =>
    rw [walk_succ]
    exact hs _ ih

theorem step_stay (h0 : 0 ≤ g + r) (h1 : g + r < p) : step p r ⟨true, g⟩ = ⟨true, g + r⟩ := by
  simp [step, h0, h1]

theorem step_leave (h : p ≤ g + r) : step p r ⟨true, g⟩ = ⟨false, g + r⟩ := by
  simp [step, h]

theorem step_return (h0 : -(r : ℤ) < g - p) (h1 : g - p ≤ 0) :
    step p r ⟨false, g⟩ = ⟨true, g - p⟩ := by
  simp [step, h0, h1]

theorem step_remain (h : 0 < g - p ∨ g - p ≤ -(r : ℤ)) : step p r ⟨false, g⟩ = ⟨false, g - p⟩ := by
  have hout : decide (-(r : ℤ) < g - p ∧ g - p ≤ 0) = false := by
    rw [decide_eq_false_iff_not]
    omega
  simp only [step, hout, Bool.false_eq_true, if_false]

end

/-! ### Fair walks -/

section

variable {p r : ℕ}

variable {x : State} {s : ℕ}

/-- Where a walk can be when the first share is at most one half. -/
inductive LowShare (p r : ℕ) : State → Prop
  | first {g : ℤ} (h₀ : -(p : ℤ) < g) (h₁ : g ≤ r) : LowShare p r ⟨true, g⟩
  | second {g : ℤ} (h₀ : 0 < g) (h₁ : g ≤ 2 * r) : LowShare p r ⟨false, g⟩

theorem LowShare.step (hp : 0 < p) (hpr : p ≤ r) (h : LowShare p r x) :
    LowShare p r (step p r x) := by
  cases h with
  | @first g h0 h1 =>
    by_cases hsta : g + r < p
    · rw [step_stay (by omega) hsta]
      exact .first (by omega) (by omega)
    · rw [step_leave (by omega)]
      exact .second (by omega) (by omega)
  | @second g h0 h1 =>
    by_cases hret : g - p ≤ 0
    · rw [step_return (by omega) hret]
      exact .first (by omega) (by omega)
    · rw [step_remain (by omega)]
      exact .second (by omega) (by omega)

theorem LowShare.withinTwo (h : LowShare p r x) : WithinTwo p r x := by
  rw [WithinTwo, abs_le]
  cases h <;> dsimp only <;> omega

theorem withinTwo_of_le (hp : 0 < p) (hpr : p ≤ r) (n : ℕ) : WithinTwo p r (walk p r n) :=
  LowShare.withinTwo (walk_invariant (I := LowShare p r) (.first (by omega) le_rfl)
    (fun _ => LowShare.step hp hpr) n)

/-- Where a walk can be when the second place gets one job of `p + 1`. -/
inductive UnitShare (p : ℕ) : State → Prop
  | first {g : ℤ} (h₀ : 0 ≤ g) (h₁ : g < p) : UnitShare p ⟨true, g⟩
  | second : UnitShare p ⟨false, p⟩

theorem UnitShare.step (hp : 1 < p) (h : UnitShare p x) : UnitShare p (step p 1 x) := by
  cases h with
  | @first g h0 h1 =>
    by_cases hst : g + (1 : ℕ) < p
    · rw [step_stay (by omega) hst]
      exact .first (by omega) hst
    · rw [step_leave (by omega)]
      have : g + (1 : ℕ) = p := by omega
      rw [this]
      exact .second
  | second =>
    rw [step_return (by omega) (by omega)]
    exact .first (by omega) (by omega)

theorem UnitShare.withinTwo (h : UnitShare p x) : WithinTwo p 1 x := by
  rw [WithinTwo, abs_le]
  cases h <;> dsimp only <;> omega

theorem withinTwo_of_unit (hp : 1 < p) (n : ℕ) : WithinTwo p 1 (walk p 1 n) :=
  UnitShare.withinTwo (walk_invariant (I := UnitShare p) (.first (by omega) (by omega))
    (fun _ => UnitShare.step hp) n)

/-- `d` is one of the gaps at which a walk with shares `r + s : r` returns to the first
    place, when `r` is one above a multiple of `2 * s`. -/
def Entry (s r : ℕ) (d : ℤ) : Prop :=
  -(r : ℤ) < d ∧ d ≤ 0 ∧ ∃ m i : ℤ, 0 ≤ m ∧ m < s ∧ d = m - 2 * (s * i)

/-- No entry lies where the walk would step over the window. -/
theorem Entry.not_over {d : ℤ} (hd : Entry s r d) {k : ℕ} (hr : r = 2 * s * k + 1)
    (hlt : (s : ℤ) - r < d) : 2 * (s : ℤ) - r < d := by
  obtain ⟨-, -, m, i, hm0, hm1, rfl⟩ := hd
  have hr' : (r : ℤ) = 2 * (s * k) + 1 := by
    rw [hr]
    push_cast
    ring
  have hdif : (s : ℤ) * k - s * i = s * (k - i) := by ring
  by_contra hge
  rcases lt_or_ge (0 : ℤ) (k - i) with hpos | hneg
  · have : (s : ℤ) * 1 ≤ s * (k - i) := mul_le_mul_of_nonneg_left hpos (by omega)
    omega
  have : (s : ℤ) * (k - i) ≤ s * 0 := mul_le_mul_of_nonneg_left hneg (by omega)
  omega

/-- Where a walk with shares `r + s : r` can be, when `r` is one above a multiple of
    `2 * s`. -/
inductive HighShare (s r : ℕ) : State → Prop
  | enter {d : ℤ} (hd : Entry s r d) : HighShare s r ⟨true, d⟩
  | climb {d : ℤ} (hd : Entry s r d) : HighShare s r ⟨true, d + r⟩
  | climbOn {d : ℤ} (hd : Entry s r d) (h : d < s - r) : HighShare s r ⟨true, d + 2 * r⟩
  | full : HighShare s r ⟨false, r + s⟩
  | leave {d : ℤ} (hd : Entry s r d) : HighShare s r ⟨false, d + 2 * (r + s)⟩
  | wait {d : ℤ} (hd : Entry s r d) : HighShare s r ⟨false, d + (r + s)⟩

theorem HighShare.step {r k : ℕ} (hs : 0 < s) (hk : 0 < k) (hr : r = 2 * s * k + 1)
    (h : HighShare s r x) : HighShare s r (step (r + s) r x) := by
  have hbig : 2 * s < r := by
    have : 2 * s * 1 ≤ 2 * s * k := Nat.mul_le_mul_left _ hk
    omega
  cases h with
  | enter hd =>
    obtain ⟨h0, h1, -⟩ := id hd
    rw [step_stay (by omega) (by omega)]
    exact .climb hd
  | @climb d hd =>
    obtain ⟨h0, h1, m, i, hm0, hm1, hmi⟩ := id hd
    have hn : d + r + r = d + 2 * r := by ring
    by_cases hlo : d < s - r
    · rw [step_stay (by omega) (by omega), hn]
      exact .climbOn hd hlo
    rw [step_leave (by omega)]
    rcases eq_or_lt_of_le (not_lt.mp hlo) with heq | hlt
    · have hful : d + r + r = r + s := by omega
      rw [hful]
      exact .full
    have hove := hd.not_over hr hlt
    have hle : d + r + r = (d - 2 * s) + 2 * (r + s) := by ring
    rw [hle]
    refine .leave ⟨by omega, by omega, m, i + 1, hm0, hm1, ?_⟩
    rw [hmi]
    ring
  | @climbOn d hd hlo =>
    obtain ⟨h0, h1, -⟩ := id hd
    rw [step_leave (by omega)]
    have hle : d + 2 * r + r = (d + r - 2 * s) + 2 * (r + s) := by ring
    rw [hle]
    exact .leave ⟨by omega, by omega, d + r, 1, by omega, by omega, by ring⟩
  | full =>
    rw [step_return (by omega) (by omega)]
    have hzer : (r : ℤ) + s - (r + s : ℕ) = 0 := by omega
    rw [hzer]
    exact .enter ⟨by omega, le_rfl, 0, 0, le_rfl, by omega, by ring⟩
  | @leave d hd =>
    obtain ⟨h0, h1, -⟩ := id hd
    rw [step_remain (by omega)]
    have hw : d + 2 * ((r : ℤ) + s) - (r + s : ℕ) = d + (r + s) := by
      push_cast
      ring
    rw [hw]
    exact .wait hd
  | @wait d hd =>
    obtain ⟨h0, h1, -⟩ := id hd
    rw [step_return (by omega) (by omega)]
    have hent : d + ((r : ℤ) + s) - (r + s : ℕ) = d := by omega
    rw [hent]
    exact .enter hd

theorem HighShare.withinTwo (h : HighShare s r x) : WithinTwo (r + s) r x := by
  rw [WithinTwo, abs_le]
  cases h with
  | full =>
    dsimp only
    omega
  | enter hd | climb hd | climbOn hd | leave hd | wait hd =>
    obtain ⟨h0, h1, -⟩ := hd
    dsimp only
    omega

theorem withinTwo_of_mod (hs : 0 < s) (hr : r % (2 * s) = 1) (n : ℕ) :
    WithinTwo (r + s) r (walk (r + s) r n) := by
  obtain ⟨k, hk⟩ : ∃ k, r = 2 * s * k + 1 := ⟨r / (2 * s), by
    have := Nat.div_add_mod r (2 * s)
    omega⟩
  rcases Nat.eq_zero_or_pos k with rfl | hpos
  · obtain rfl : r = 1 := by omega
    rw [add_comm]
    exact withinTwo_of_unit (by omega) n
  have hI : HighShare s r (walk (r + s) r n) := by
    refine walk_invariant (I := HighShare s r) ?_ (fun _ => HighShare.step hs hpos hk) n
    have hent : Entry s r 0 := ⟨by omega, le_rfl, 0, 0, le_rfl, by omega, by ring⟩
    have hcli := HighShare.climb hent
    rwa [zero_add] at hcli
  exact hI.withinTwo

end

/-! ### Walks that get stuck -/

section

variable {p r : ℕ}

theorem Stuck.step (hp : 0 < p) {x : State} (h : Stuck r x) :
    Stuck r (step p r x) ∧ (step p r x).gap = x.gap - p := by
  obtain ⟨onFirst, g⟩ := x
  obtain ⟨rfl, hg⟩ : onFirst = false ∧ g ≤ -(r : ℤ) := h
  rw [step_remain (by omega)]
  exact ⟨⟨rfl, by dsimp only; omega⟩, rfl⟩

/-- Three jobs later the first place is more than two jobs short. -/
theorem Stuck.not_withinTwo (hr : 0 < r) (hpr : r < p) {n : ℕ} (h : Stuck r (walk p r n)) :
    ¬WithinTwo p r (walk p r (n + 3)) := by
  have hp : 0 < p := by omega
  obtain ⟨h1, hg1⟩ := h.step hp
  obtain ⟨h2, hg2⟩ := h1.step hp
  obtain ⟨-, hg3⟩ := h2.step hp
  have hg := h.2
  rw [WithinTwo, walk_succ, walk_succ, walk_succ, hg3, hg2, hg1, abs_le]
  omega

/-- A visit to the second place that does not end at once: either it never ends, or the
    walk climbs again from where it returns. -/
theorem visit (hpr : r < p) {n : ℕ} {e : ℤ} (h : walk p r n = ⟨false, p + e⟩) (h0 : 0 < e)
    (h1 : e < r) :
    Stuck r (walk p r (n + 2)) ∨ (p : ℤ) - r < e ∧ walk p r (n + 3) = ⟨true, e - p + r⟩ := by
  have hw : walk p r (n + 1) = ⟨false, e⟩ := by
    rw [walk_succ, h, step_remain (by omega)]
    congr 1
    omega
  rcases lt_or_ge ((p : ℤ) - r) e with hin | hove
  · right
    refine ⟨hin, ?_⟩
    rw [walk_succ, walk_succ, hw, step_return (by omega) (by omega),
      step_stay (by omega) (by omega)]
  left
  rw [walk_succ, hw, step_remain (by omega)]
  exact ⟨rfl, by dsimp only; omega⟩

/-- With at least two thirds for the first place, the walk gets stuck on its first visit to
    the second one. -/
theorem stuck_of_two_mul_le (hr : 1 < r) (hpr : 2 * r ≤ p) (hmod : p % r ≠ 0) :
    ∃ n, n ≤ p + 2 ∧ Stuck r (walk p r n) := by
  have hdiv := Nat.div_add_mod p r
  have hlt := Nat.mod_lt p (show 0 < r by omega)
  obtain ⟨j, hj⟩ : ∃ j, p / r = j + 1 := ⟨p / r - 1, by
    have : 0 < p / r := Nat.div_pos (by omega) (by omega)
    omega⟩
  have hcli : ∀ n, n ≤ j → walk p r n = ⟨true, (n + 1 : ℕ) * r⟩ := by
    intro n
    induction n with
    | zero => simp
    | succ n ih =>
      intro hn
      have hle : ((n + 1 + 1 : ℕ) : ℤ) * r ≤ (r * (p / r) : ℕ) := by
        rw [mul_comm, hj]
        exact_mod_cast Nat.mul_le_mul_left r (by omega)
      have hne : ((n + 1 : ℕ) : ℤ) * r + r = (n + 1 + 1 : ℕ) * r := by
        push_cast
        ring
      rw [walk_succ, ih (by omega),
        step_stay (by rw [hne]; positivity) (by rw [hne]; omega), hne]
  have htop : ((j + 1 : ℕ) : ℤ) * r = (r * (p / r) : ℕ) := by
    rw [hj, mul_comm]
    push_cast
    ring
  have hlea : walk p r (j + 1) = ⟨false, p + ((r : ℤ) - (p % r : ℕ))⟩ := by
    rw [walk_succ, hcli j le_rfl, htop, step_leave (by omega)]
    congr 1
    omega
  have hsma : j + 1 ≤ p := hj ▸ Nat.div_le_self p r
  rcases visit (by omega) hlea (by omega) (by omega) with hstu | ⟨hin, -⟩
  · exact ⟨j + 1 + 2, by omega, hstu⟩
  omega

/-- One round: the walk climbs from `d + r` in the first place, visits the second and is
    back, unless it gets stuck or the visit ends at once. -/
theorem round (hpr : r < p) (hps : p < 2 * r) {n : ℕ} {d : ℤ} (h : walk p r n = ⟨true, d + r⟩)
    (h0 : -(r : ℤ) < d) (h1 : d ≤ 0) : (∃ i, i ≤ 4 ∧ Stuck r (walk p r (n + i))) ∨ d = p - 2 * r ∨
      ∃ i d', i ≤ 5 ∧ walk p r (n + i) = ⟨true, d' + r⟩ ∧ -(r : ℤ) < d' ∧ d' ≤ 0 ∧
        (d' = d - 2 * (p - r) ∨ d < p - 2 * r ∧ d' = d + r - 2 * (p - r)) := by
  rcases lt_trichotomy d (p - 2 * r) with hlow | heq | hhig
  · have hle : walk p r (n + 2) = ⟨false, p + (d + 3 * r - p)⟩ := by
      rw [walk_succ, walk_succ, h, step_stay (by omega) (by omega), step_leave (by omega)]
      congr 1
      ring
    rcases visit hpr hle (by omega) (by omega) with hst | ⟨hin, hba⟩
    · exact .inl ⟨4, le_rfl, hst⟩
    exact .inr (.inr ⟨5, d + 3 * r - p - p, le_rfl, hba, by omega, by omega,
      .inr ⟨hlow, by ring⟩⟩)
  · exact .inr (.inl heq)
  have hle : walk p r (n + 1) = ⟨false, p + (d + 2 * r - p)⟩ := by
    rw [walk_succ, h, step_leave (by omega)]
    congr 1
    ring
  rcases visit hpr hle (by omega) (by omega) with hst | ⟨hin, hba⟩
  · exact .inl ⟨3, by omega, hst⟩
  exact .inr (.inr ⟨4, d + 2 * r - p - p, by omega, hba, by omega, by omega,
    .inl (by ring)⟩)

end

variable {r s : ℕ}

/-- `k` rounds after the start, the walk is back at a multiple of `r` less `2 * k * s`, unless
    it got stuck before. -/
theorem rounds (hs : 0 < s) (hsr : s < r) (hcop : Nat.Coprime r s) {k : ℕ} (hk : 2 * k ≤ r) :
    (∃ n, n ≤ 5 * k ∧ Stuck r (walk (r + s) r n)) ∨
      ∃ (n m : ℕ) (d : ℤ), n ≤ 5 * k ∧ walk (r + s) r n = ⟨true, d + r⟩ ∧ -(r : ℤ) < d ∧
        d ≤ 0 ∧ d = (m * r : ℕ) - 2 * (k * s : ℕ) := by
  induction k with
  | zero =>
    exact .inr ⟨0, 0, 0, le_rfl, by simp, by omega, le_rfl, by simp⟩
  | succ k ih =>
    rcases ih (by omega) with ⟨n, hn, hst⟩ | ⟨n, m, d, hn, hwal, h0, h1, hd⟩
    · exact .inl ⟨n, by omega, hst⟩
    have hks : ((k + 1) * s : ℕ) = k * s + s := by ring
    rcases round (by omega) (by omega) hwal h0 h1 with
      ⟨i, hi, hst⟩ | hres | ⟨i, d', hi, hba, h0', h1', hd'⟩
    · exact .inl ⟨n + i, by omega, hst⟩
    · -- a visit that ends at once needs `r` to divide `2 * k + 1`
      have hdvd : r ∣ (2 * k + 1) * s := by
        refine ⟨m + 1, ?_⟩
        have hmr : (r * (m + 1) : ℕ) = m * r + r := by ring
        have hks' : ((2 * k + 1) * s : ℕ) = 2 * (k * s) + s := by ring
        push_cast at hres
        omega
      have hle := Nat.le_of_dvd (by omega) (hcop.dvd_of_dvd_mul_right hdvd)
      omega
    right
    rcases hd' with hd' | ⟨-, hd'⟩
    · exact ⟨n + i, m, d', by omega, hba, h0', h1', by push_cast at hd'; omega⟩
    have hmr : ((m + 1) * r : ℕ) = m * r + r := by ring
    exact ⟨n + i, m + 1, d', by omega, hba, h0', h1', by push_cast at hd'; omega⟩

/-- Some multiple of `r` lies where the walk steps over the window. -/
theorem exists_over (hs : 0 < s) (hsr : s < r) (hmod : r % (2 * s) ≠ 1) :
    ∃ k m : ℕ, 2 * k ≤ r ∧ (2 * k + 1) * s < m * r ∧ m * r ≤ (2 * k + 2) * s := by
  obtain ⟨k, ρ, hr, hρ⟩ : ∃ k ρ, r = 2 * (s * k) + ρ ∧ ρ = r % (2 * s) :=
    ⟨r / (2 * s), r % (2 * s), by
      rw [← mul_assoc]
      exact (Nat.div_add_mod r (2 * s)).symm, rfl⟩
  have hlt : ρ < 2 * s := hρ ▸ Nat.mod_lt r (by omega)
  rw [← hρ] at hmod
  have hsk : k ≤ s * k := Nat.le_mul_of_pos_left k hs
  rcases Nat.eq_zero_or_pos ρ with rfl | hpos
  · -- `r` is a multiple of `2 * s`
    obtain ⟨j, rfl⟩ : ∃ j, k = j + 1 := ⟨k - 1, by
      rcases Nat.eq_zero_or_pos k with rfl | hk
      · omega
      omega⟩
    have hj : s * (j + 1) = j * s + s := by ring
    refine ⟨j, 1, by omega, ?_, ?_⟩
    · rw [Nat.add_mul, mul_assoc]
      omega
    rw [Nat.add_mul, mul_assoc]
    omega
  -- the first multiple of `ρ` above `s`
  have hdiv := Nat.div_add_mod s ρ
  have hrem := Nat.mod_lt s hpos
  have hmul : (s / ρ + 1) * ρ = ρ * (s / ρ) + ρ := by ring
  have hmr : (s / ρ + 1) * r = 2 * ((s / ρ + 1) * k * s) + (s / ρ + 1) * ρ := by
    rw [hr]
    ring
  have hove : (s / ρ + 1) * ρ ≤ 2 * s := by
    rcases lt_or_ge s ρ with hsma | hbig
    · rw [Nat.div_eq_of_lt hsma]
      omega
    omega
  have hhal : s / ρ + 1 ≤ s := by
    have : s / ρ ≤ s / 2 := Nat.div_le_div_left (by omega) (by omega)
    omega
  have hk : (s / ρ + 1) * k ≤ s * k := Nat.mul_le_mul_right k hhal
  have hmi : ∀ c, (2 * ((s / ρ + 1) * k) + c) * s = 2 * ((s / ρ + 1) * k * s) + c * s := by
    intro c
    ring
  refine ⟨(s / ρ + 1) * k, s / ρ + 1, by omega, ?_, ?_⟩
  · rw [hmr, hmi]
    omega
  rw [hmr, hmi]
  omega

/-- Otherwise a walk with shares between one half and two thirds gets stuck. -/
theorem stuck_of_mod_ne (hs : 0 < s) (hsr : s < r) (hcop : Nat.Coprime r s)
    (hmod : r % (2 * s) ≠ 1) : ∃ n, n ≤ 5 * r ∧ Stuck r (walk (r + s) r n) := by
  obtain ⟨k, m', hk, hover0, hover1⟩ := exists_over hs hsr hmod
  have hk1 : (2 * k + 1) * s = 2 * (k * s) + s := by ring
  have hk2 : (2 * k + 2) * s = 2 * (k * s) + 2 * s := by ring
  rcases rounds hs hsr hcop hk with ⟨n, hn, hst⟩ | ⟨n, m, d, hn, hwal, h0, h1, hd⟩
  · exact ⟨n, by omega, hst⟩
  -- `m' * r` tells how far the climb from `d` goes over the first share
  have hcli : (s : ℤ) < d + r ∧ d + r ≤ 2 * s ∨ d + 2 * r ≤ 2 * s := by
    rcases lt_trichotomy m' (m + 1) with hlt | rfl | hgt
    · have : m' * r ≤ m * r := Nat.mul_le_mul_right r (by omega)
      omega
    · have : (m + 1) * r = m * r + r := by ring
      omega
    have hle : (m + 2) * r ≤ m' * r := Nat.mul_le_mul_right r hgt
    have : (m + 2) * r = m * r + 2 * r := by ring
    omega
  rcases round (by omega) (by omega) hwal h0 h1 with
    ⟨i, hi, hst⟩ | hres | ⟨i, d', hi, -, h0', h1', hd'⟩
  · exact ⟨n + i, by omega, hst⟩
  · omega
  omega

/-- The shares that the walk keeps: the first is at most one half, or the window of the
    second place is never stepped over. -/
def Fair (p r : ℕ) : Prop := p ≤ r ∨ r % (2 * (p - r)) = 1

instance (p r : ℕ) : Decidable (Fair p r) :=
  inferInstanceAs (Decidable (p ≤ r ∨ r % (2 * (p - r)) = 1))

theorem withinTwo_of_fair {p : ℕ} (hp : 0 < p) (h : Fair p r) (n : ℕ) :
    WithinTwo p r (walk p r n) := by
  rcases lt_or_ge r p with hlt | hge
  · obtain ⟨s, rfl⟩ : ∃ s, p = r + s := ⟨p - r, by omega⟩
    rw [Fair, Nat.add_sub_cancel_left] at h
    exact withinTwo_of_mod (by omega) (by omega) n
  exact withinTwo_of_le hp hge n

/-- Other shares are missed within a few rounds. -/
theorem withinTwo_iff {p N : ℕ} (hp : 0 < p) (hr : 0 < r) (hcp : Nat.Coprime p r)
    (hN : 8 * (p + r) ≤ N) : (∀ n ≤ N, WithinTwo p r (walk p r n)) ↔ Fair p r := by
  constructor
  · intro hall
    by_contra hco
    obtain ⟨hpr, hmo⟩ : r < p ∧ r % (2 * (p - r)) ≠ 1 := by
      rw [Fair, not_or, not_le] at hco
      exact hco
    suffices hst : ∃ n, n + 3 ≤ N ∧ Stuck r (walk p r n) by
      obtain ⟨n, hn, hst⟩ := hst
      exact hst.not_withinTwo hr hpr (hall (n + 3) hn)
    rcases lt_or_ge p (2 * r) with hlt | hge
    · obtain ⟨s, rfl⟩ : ∃ s, p = r + s := ⟨p - r, by omega⟩
      rw [Nat.add_sub_cancel_left] at hmo
      rw [Nat.coprime_self_add_left, Nat.coprime_comm] at hcp
      obtain ⟨n, hn, hst⟩ := stuck_of_mod_ne (by omega) (by omega) hcp hmo
      exact ⟨n, by omega, hst⟩
    have hr1 : 1 < r := by
      by_contra hr1
      obtain rfl : r = 1 := by omega
      exact hmo (Nat.mod_eq_of_lt (by omega))
    have hndv : p % r ≠ 0 := by
      intro h0
      have := hcp.symm.eq_one_of_dvd (Nat.dvd_of_mod_eq_zero h0)
      omega
    obtain ⟨n, hn, hst⟩ := stuck_of_two_mul_le hr1 hge hndv
    exact ⟨n, by omega, hst⟩
  intro hfai n _
  exact withinTwo_of_fair hp hfai n

/-! ### The test by a floored quotient -/

/-- `c` jobs in a place with share `x / (x + y)`, rounded down to a number of all jobs,
    give the right number when the gap lies in the window of the place. -/
theorem div_eq_iff_gap {x y c o : ℕ} (hx : 0 < x) :
    c * (x + y) / x = c + o ↔ 0 ≤ (c * y : ℤ) - o * x ∧ (c * y : ℤ) - o * x < x := by
  have hgap : ((c * (x + y) : ℕ) : ℤ) - ((c + o) * x : ℕ) = c * y - o * x := by
    push_cast
    ring
  rw [Nat.div_eq_iff hx, ← hgap]
  omega

/-- Two positive fractions `a / b` and `c / d` that add up to one, in lowest terms. -/
theorem lowest_terms {a b c d : ℕ} (ha : 0 < a) (hb : 0 < b) (hc : 0 < c) (hd : 0 < d)
    (hone : a * d + c * b = b * d) :
    ∃ p r g g' : ℕ, p = a / Nat.gcd a b ∧ r = (b - a) / Nat.gcd a b ∧ 0 < p ∧ 0 < r ∧
      Nat.Coprime p r ∧ 0 < g ∧ a = g * p ∧ b = g * (p + r) ∧
      0 < g' ∧ c = g' * r ∧ d = g' * (p + r) := by
  have hab : a < b := by
    have hcb : 0 < c * b := Nat.mul_pos hc hb
    exact Nat.lt_of_mul_lt_mul_right (a := d) (by omega)
  have hgp : 0 < Nat.gcd a b := Nat.gcd_pos_of_pos_left b ha
  obtain ⟨p, hp⟩ := Nat.gcd_dvd_left a b
  obtain ⟨q, hq⟩ := Nat.gcd_dvd_right a b
  have hco : Nat.Coprime (a / Nat.gcd a b) (b / Nat.gcd a b) := Nat.coprime_div_gcd_div_gcd hgp
  generalize Nat.gcd a b = g at *
  subst hp hq
  have hpq : p < q := Nat.lt_of_mul_lt_mul_left hab
  obtain ⟨r, rfl⟩ : ∃ r, q = p + r := ⟨q - p, by omega⟩
  have hsub : g * (p + r) - g * p = g * r := by
    rw [Nat.mul_add]
    omega
  rw [Nat.mul_div_cancel_left _ hgp, Nat.mul_div_cancel_left _ hgp,
    Nat.coprime_self_add_right] at hco
  -- `c * (p + r) = d * r`, so `p + r` divides `d`
  have hcd : c * (p + r) = d * r := by
    apply Nat.eq_of_mul_eq_mul_left hgp
    apply Nat.add_left_cancel (n := g * p * d)
    calc g * p * d + g * (c * (p + r)) = g * p * d + c * (g * (p + r)) := by ring
      _ = g * (p + r) * d := hone
      _ = g * p * d + g * (d * r) := by ring
  have hcop' : Nat.Coprime (p + r) r := by
    rw [Nat.coprime_add_self_left]
    exact hco
  obtain ⟨g', rfl⟩ : p + r ∣ d := hcop'.dvd_of_dvd_mul_right ⟨c, by rw [← hcd, mul_comm]⟩
  refine ⟨p, r, g, g', ?_, ?_, Nat.pos_of_mul_pos_left ha, by omega, hco, hgp, rfl, rfl,
    Nat.pos_of_mul_pos_left hd, ?_, mul_comm _ _⟩
  · rw [Nat.mul_div_cancel_left _ hgp]
  · rw [hsub, Nat.mul_div_cancel_left _ hgp]
  apply Nat.eq_of_mul_eq_mul_right (show 0 < p + r by omega)
  rw [hcd]
  ring

end Litmus.ShareWalk
