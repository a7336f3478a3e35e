/-!
# Runs of labelled transition systems

Finite runs, the invariant rule and the simulation rule, over arbitrary states and
labels.
-/

namespace Litmus.Runs

variable {S L A : Type}

variable {step : S → L → S → Prop} {s t u : S} {ls : List L} {f : S → L → Option S}

/-- `Run step s ls t`: from `s` the labels `ls` lead to `t`. -/
inductive Run (step : S → L → S → Prop) (s : S) : List L → S → Prop
  | nil : Run step s [] s
  | snoc {t u : S} {ls : List L} {l : L} : Run step s ls t → step t l u → Run step s (ls ++ [l]) u

theorem Run.cons {l : L} (hfi : step s l t) (hr : Run step t ls u) : Run step s (l :: ls) u := by
  induction hr with
  | nil => exact Run.snoc Run.nil hfi
  | snoc _ hla ih => exact Run.snoc ih hla

/-- What every step keeps, every run keeps. -/
theorem Run.invariant {I : S → Prop} (hste : ∀ s l t, I s → step s l t → I t)
    (hr : Run step s ls t) (hs : I s) : I t := by
  induction hr with
  | nil => exact hs
  | snoc _ hla ih => exact hste _ _ _ ih hla

/-- More steps, more runs. -/
theorem Run.mono {step' : S → L → S → Prop} (h : ∀ s l t, step s l t → step' s l t)
    (hr : Run step s ls t) : Run step' s ls t := by
  induction hr with
  | nil => exact Run.nil
  | snoc _ hla ih => exact Run.snoc ih (h _ _ _ hla)

theorem Run.of_snoc {l : L} (hr : Run step s (ls ++ [l]) u) :
    ∃ t, Run step s ls t ∧ step t l u := by
  generalize hls : ls ++ [l] = ls' at hr
  cases hr with
  | nil => simp at hls
  | snoc hini hla =>
    obtain ⟨rfl, hl⟩ := List.append_inj' hls rfl
    rw [List.singleton_inj] at hl
    subst hl
    exact ⟨_, hini, hla⟩

/-- With a deterministic step the labels determine the run. -/
theorem Run.deterministic (hdet : ∀ s l t u, step s l t → step s l u → t = u) (ht : Run step s ls t)
    (hu : Run step s ls u) : t = u := by
  induction ht generalizing u with
  | nil =>
    generalize hls : ([] : List L) = ls at hu
    cases hu with
    | nil => rfl
    | snoc => simp at hls
  | snoc _ hla ih =>
    obtain ⟨v, hv, hvu⟩ := hu.of_snoc
    rw [ih hv] at hla
    exact hdet _ _ _ _ hla hvu

/-- If every step is matched by an abstract step with the same label, every run is
    matched by an abstract run with the same labels. -/
theorem Run.simulation {astep : A → L → A → Prop} {R : S → A → Prop}
    (hs : ∀ s a l t, R s a → step s l t → ∃ b, astep a l b ∧ R t b) (hr : Run step s ls t)
    {a : A} (ha : R s a) : ∃ b, Run astep a ls b ∧ R t b := by
  induction hr with
  | nil => exact ⟨a, Run.nil, ha⟩
  | snoc _ hla ih =>
    obtain ⟨b, hab, hb⟩ := ih
    obtain ⟨c, hbc, hc⟩ := hs _ _ _ _ hb hla
    exact ⟨c, Run.snoc hab hbc, hc⟩

/-- A step that records in its label where it was taken.  Runs of recorded steps have the
    states they pass through in their labels. -/
def Recorded (step : S → L → S → Prop) (s : S) (p : S × L) (t : S) : Prop :=
  p.1 = s ∧ step s p.2 t

/-- What holds of the states in which steps are taken holds all along a recorded run. -/
theorem Run.recorded_all {P : S → L → Prop} (hs : ∀ s l t, step s l t → P s l)
    {hist : List (S × L)} (hr : Run (Recorded step) s hist t) : ∀ p ∈ hist, P p.1 p.2 := by
  induction hr with
  | nil =>
    intro p hp
    cases hp
  | snoc _ hla ih =>
    intro p hp
    rcases List.mem_append.mp hp with hp | hp
    · exact ih p hp
    obtain ⟨rfl, hla⟩ := hla
    rw [List.mem_singleton.mp hp]
    exact hs _ _ _ hla

/-! ### Executable systems -/

/-- Take the steps `ls` one after the other; `none` if one of them may not be taken. -/
def execAll (legal : S → L → Bool) (exec : S → L → Option S) : List L → S → Option S
  | [], s => some s
  | l :: ls, s => if legal s l then (exec s l).bind (execAll legal exec ls) else none

theorem Run.of_execAll {legal : S → L → Bool} {exec : S → L → Option S}
    (hs : ∀ s l t, legal s l = true → exec s l = some t → step s l t)
    (h : execAll legal exec ls s = some t) : Run step s ls t := by
  induction ls generalizing s with
  | nil =>
    cases h
    exact Run.nil
  | cons l ls ih =>
    unfold execAll at h
    split at h
    · rename_i hl
      obtain ⟨u, hu, h⟩ := Option.bind_eq_some_iff.mp h
      exact Run.cons (hs _ _ _ hl hu) (ih h)
    cases h

/-- Where the steps `ls` lead, by evaluation. -/
theorem Run.of_check {step : S → L → S → Prop} {legal : S → L → Bool} {exec : S → L → Option S}
    (hs : ∀ s l t, legal s l = true → exec s l = some t → step s l t) {ls : List L} {s : S}
    {check : S → Bool} (h : (execAll legal exec ls s).any check = true) :
    ∃ t, Run step s ls t ∧ check t = true := by
  obtain ⟨t, ht, hck⟩ := (Option.any_eq_true _ _).mp h
  exact ⟨t, Run.of_execAll hs ht, hck⟩

/-- A run of which `P` holds, because `Q` holds of the state that evaluation gives. -/
theorem Run.exists_of_check {step : S → L → S → Prop} {legal : S → L → Bool}
    {exec : S → L → Option S} (hs : ∀ s l t, legal s l = true → exec s l = some t → step s l t)
    {ls : List L} {s : S} {P Q : S → Prop} [DecidablePred Q]
    (h : (execAll legal exec ls s).any (fun t => decide (Q t)) = true)
    (hP : ∀ t, Run step s ls t → Q t → P t) : ∃ t, Run step s ls t ∧ P t := by
  obtain ⟨t, hr, hck⟩ := Run.of_check hs h
  exact ⟨t, hr, hP t hr (of_decide_eq_true hck)⟩

/-- Take the steps `ls` and record the states they are taken in. -/
def recordAll (exec : S → L → Option S) : List L → S → Option (List (S × L) × S)
  | [], s => some ([], s)
  | l :: ls, s => (exec s l).bind fun t =>
      (recordAll exec ls t).map fun r => ((s, l) :: r.1, r.2)

theorem Run.of_recordAll {exec : S → L → Option S} {hist : List (S × L)}
    (h : recordAll exec ls s = some (hist, t)) :
    Run (Recorded fun s l t => exec s l = some t) s hist t := by
  induction ls generalizing s hist with
  | nil =>
    cases h
    exact Run.nil
  | cons l ls ih =>
    obtain ⟨u, hu, h⟩ := Option.bind_eq_some_iff.mp h
    obtain ⟨⟨rest, t'⟩, hres, heq⟩ := Option.map_eq_some_iff.mp h
    cases heq
    exact Run.cons ⟨rfl, hu⟩ (ih hres)

/-- A recorded run with a checked history, by evaluation. -/
theorem Run.of_recordAll_check (exec : S → L → Option S) (ls : List L) (s : S)
    (check : List (S × L) → S → Bool)
    (h : (recordAll exec ls s).any (fun r => check r.1 r.2) = true) :
    ∃ hist t, Run (Recorded fun s l t => exec s l = some t) s hist t ∧ check hist t = true := by
  obtain ⟨⟨hist, t⟩, hr, hck⟩ := (Option.any_eq_true _ _).mp h
  exact ⟨hist, t, Run.of_recordAll hr, hck⟩

/-! ### Loops over a list -/

/-- A loop whose body always succeeds, with an invariant that may speak about the part of
    the list that has been processed. -/
theorem foldlM_total {P : List L → S → Prop} (ls : List L)
    (hste : ∀ before l after s, ls = before ++ l :: after → P before s →
      ∃ t, f s l = some t ∧ P (before ++ [l]) t) (hs : P [] s) :
    ∃ t, ls.foldlM f s = some t ∧ P ls t := by
  -- generalised over a processed prefix of the whole list
  have hloo : ∀ (after before : List L) (s : S), ls = before ++ after → P before s →
      ∃ t, after.foldlM f s = some t ∧ P ls t := by
    intro after
    induction after with
    | nil =>
      intro before s heq hs
      rw [List.append_nil] at heq
      exact ⟨s, rfl, heq ▸ hs⟩
    | cons l after ih =>
      intro before s heq hs
      obtain ⟨t, ht, hP⟩ := hste before l after s heq hs
      obtain ⟨u, hu, hPu⟩ := ih (before ++ [l]) t (by simp [heq]) hP
      exact ⟨u, by simp [List.foldlM_cons, ht, hu], hPu⟩
  exact hloo ls [] s rfl hs

/-- What every round keeps, a loop that has returned has kept. -/
theorem foldlM_kept {P : S → Prop} (hste : ∀ s l t, P s → f s l = some t → P t) (hs : P s)
    (h : ls.foldlM f s = some t) : P t := by
  induction ls generalizing s with
  | nil =>
    cases h
    exact hs
  | cons l ls ih =>
    rw [List.foldlM_cons] at h
    obtain ⟨u, hu, h⟩ := Option.bind_eq_some_iff.mp h
    exact ih (hste s l u hs hu) h

/-- The same with an invariant that may speak about the part of the list that has been
    processed. -/
theorem foldlM_invariant {P : List L → S → Prop}
    (hste : ∀ before l after s t, ls = before ++ l :: after → P before s → f s l = some t →
      P (before ++ [l]) t) (hs : P [] s) (h : ls.foldlM f s = some t) : P ls t := by
  have hloo : ∀ (after before : List L) (s : S), ls = before ++ after → P before s →
      after.foldlM f s = some t → P ls t := by
    intro after
    induction after with
    | nil =>
      intro before s heq hs h
      cases h
      rw [heq, List.append_nil]
      exact hs
    | cons l after ih =>
      intro before s heq hs h
      rw [List.foldlM_cons] at h
      obtain ⟨u, hu, h⟩ := Option.bind_eq_some_iff.mp h
      exact ih (before ++ [l]) u (by simp [heq]) (hste before l after s u heq hs hu) h
  exact hloo ls [] s rfl hs h

end Litmus.Runs
