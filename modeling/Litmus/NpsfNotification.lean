import Litmus.NpsfOwnership

/-!
# Hand-off notifications

A CPU that finds the server not yet handed to it backs out and waits for an IPI.  The
hand-off to any but the first reserve always sends one; the hand-off to the first reserve
does so only if `first_cpu_wants_ipi` is set, and every hand-off that sends an IPI clears
that flag.
-/

namespace Litmus.Npsf

open Runs NpsfState Function Option NpsfState

variable {L : Layout}

/-! ### Observations -/

variable {st st' : NpsfState} {c : CpuId} {op : NpsfOp} {r : ReserveId} {ipi : Option CpuId}

/-- The step finds the server of a reserve in other hands: CPU and reserve. -/
def raced (L : Layout) (st : NpsfState) : NpsfOp → Option (CpuId × ReserveId)
  | .switchReserve c =>
      match st.phase c with
      | .entering r => if st.currReserve (L.server r) ≠ r then some (c, r) else none
      | _ => none
  | _ => none

/-- The step hands a server on: the reserve it goes to, and the CPU that gets an IPI. -/
def handsOver (L : Layout) (st : NpsfState) : NpsfOp → Option (ReserveId × Option CpuId)
  | .notify c =>
      match st.phase c with
      | .notifying p =>
          let r := L.nextNpsf p
          if r ≠ p then
            some (r, if st.sendsIpi L (L.server p) r then some (L.cpu r) else none)
          else none
      | _ => none
  | _ => none

/-- Only handing a server on moves its current reserve or clears its flag. -/
def Quiet (st st' : NpsfState) (s : ServerId) : Prop :=
  st'.currReserve s = st.currReserve s ∧
    (st.firstCpuWantsIpi s = true → st'.firstCpuWantsIpi s = true)

theorem quiet_of_same (hcur : st'.currReserve = st.currReserve)
    (hw : st'.firstCpuWantsIpi = st.firstCpuWantsIpi) (s : ServerId) : Quiet st st' s := by
  rw [Quiet, hcur, hw]
  exact ⟨rfl, id⟩

theorem quiet_switchReserve (s : ServerId) (hst : st.switchReserve L c = some st') :
    Quiet st st' s := by
  unfold switchReserve at hst
  split at hst
  · next r hpha =>
    simp only at hst
    split at hst
    · cases hst
      refine ⟨rfl, fun hse => ?_⟩
      simp only
      split
      · by_cases hs : s = L.server r
        · subst hs
          rw [update_self]
        rw [update_of_ne hs]
        exact hse
      exact hse
    cases hst
    exact quiet_of_same rfl rfl s
  cases hst

/-- A step that hands `s` on hands it from the current reserve to the next. -/
theorem quiet_or_handsOver (hI : ReserveInv L st) (hste : NpsfStep L st op st') (s : ServerId) :
    Quiet st st' s ∨ ∃ ipi, handsOver L st op = some (L.nextNpsf (st.currReserve s), ipi) ∧
        L.server (st.currReserve s) = s := by
  obtain ⟨_, hx⟩ := hste
  cases op with
  | enter c npsfNext prev now =>
    refine .inl ?_
    simp only [exec, enter] at hx
    split at hx
    · cases hx
    obtain ⟨srv, _, rfl⟩ := map_eq_some_iff.mp hx
    split
    · exact quiet_of_same rfl rfl s
    exact quiet_of_same rfl rfl s
  | switchReserve c => exact .inl (quiet_switchReserve s hx)
  | backOut c =>
    refine .inl ?_
    simp only [exec, backOut] at hx
    split at hx
    · cases hx
      exact quiet_of_same rfl rfl s
    cases hx
  | notify c =>
    simp only [exec, npsfNotifyNextCpu] at hx
    split at hx
    · next p hph =>
      obtain ⟨hcur, _, _⟩ := hI.notifying c p hph
      split at hx
      · next hne =>
        by_cases hs : s = L.server p
        · subst hs
          right
          rw [hcur]
          simp only [handsOver, hph, if_pos hne]
          exact ⟨_, rfl, trivial⟩
        cases hx
        refine .inl ⟨?_, fun hse => ?_⟩
        · simp [update_of_ne hs]
        simp only
        split
        · rw [update_of_ne hs]
          exact hse
        exact hse
      cases hx
      exact .inl (quiet_of_same rfl rfl s)
    cases hx
  | returnNext c =>
    refine .inl ?_
    simp only [exec, returnNext] at hx
    split at hx
    · split at hx
      · cases hx
        exact quiet_of_same rfl rfl s
      cases hx
      exact quiet_of_same rfl rfl s
    cases hx
  | server s' op =>
    obtain ⟨srv, _, rfl⟩ := map_eq_some_iff.mp hx
    exact .inl (quiet_of_same rfl rfl s)

/-! ### From the lost race to the hand-off -/

theorem raced_eq_some (h : raced L st op = some (c, r)) :
    op = .switchReserve c ∧ st.phase c = .entering r ∧ st.currReserve (L.server r) ≠ r := by
  cases op with
  | switchReserve c' =>
    simp only [raced] at h
    split at h
    · next r' hpha =>
      split at h
      · next hne =>
        simp only [some.injEq, Prod.mk.injEq] at h
        obtain ⟨rfl, rfl⟩ := h
        exact ⟨rfl, hpha, hne⟩
      cases h
    cases h
  | _ => cases h

theorem wantsIpi_of_raced (hrac : raced L st op = some (c, r)) (hs : NpsfStep L st op st')
    (hfi : L.firstReserve (L.server r) = r) : st'.firstCpuWantsIpi (L.server r) = true := by
  obtain ⟨rfl, hpha, hne⟩ := raced_eq_some hrac
  have hx := hs.2
  simp only [exec, switchReserve, hpha, if_pos hne, if_pos hfi, some.injEq] at hx
  subst hx
  exact update_self _ _ _

theorem handsOver_eq_some (h : handsOver L st op = some (r, ipi)) : ∃ p, L.nextNpsf p = r ∧
      ipi = if st.sendsIpi L (L.server r) r then some (L.cpu r) else none := by
  cases op with
  | notify c =>
    simp only [handsOver] at h
    split at h
    · next p hpha =>
      split at h
      · simp only [some.injEq, Prod.mk.injEq] at h
        obtain ⟨hr, hipi⟩ := h
        refine ⟨p, hr, ?_⟩
        rw [← hipi, ← L.server_next p, hr]
      cases h
    cases h
  | _ => cases h

/-- A step that does not hand the server on to `r`. -/
def NotYet (L : Layout) (r : ReserveId) (st : NpsfState) (op : NpsfOp) (st' : NpsfState) :
    Prop :=
  NpsfStep L st op st' ∧ ∀ ipi, handsOver L st op ≠ some (r, ipi)

theorem wantsIpi_kept {ops : List NpsfOp} (hI : ReserveInv L st)
    (hla : L.nextNpsf (st.currReserve (L.server r)) = r)
    (hw : st.firstCpuWantsIpi (L.server r) = true) (hr : Run (NotYet L r) st ops st') :
    st'.firstCpuWantsIpi (L.server r) = true := by
  have hk : ReserveInv L st' ∧ L.nextNpsf (st'.currReserve (L.server r)) = r ∧
      st'.firstCpuWantsIpi (L.server r) = true := by
    refine hr.invariant (I := fun st => ReserveInv L st ∧
      L.nextNpsf (st.currReserve (L.server r)) = r ∧
      st.firstCpuWantsIpi (L.server r) = true) ?_ ⟨hI, hla, hw⟩
    rintro st op st' ⟨hI, hla, hw⟩ ⟨hs, hn⟩
    rcases quiet_or_handsOver hI hs (L.server r) with ⟨hcur, hse⟩ | ⟨ipi, hov, _⟩
    · refine ⟨hI.step hs, ?_, hse hw⟩
      rw [hcur]
      exact hla
    rw [hla] at hov
    exact absurd hov (hn ipi)
  exact hk.2.2

/-- The reserve is not the first of its server, or the server is with the reserve right
    before it. -/
def Announced (L : Layout) (st : NpsfState) (r : ReserveId) : Prop :=
  L.firstReserve (L.server r) ≠ r ∨ L.nextNpsf (st.currReserve (L.server r)) = r

/-- A step that neither hands the server on to `r` nor backs out from `r` once more. -/
def Awaiting (L : Layout) (r : ReserveId) (st : NpsfState) (op : NpsfOp) (st' : NpsfState) :
    Prop :=
  NotYet L r st op st' ∧ ∀ c, raced L st op ≠ some (c, r)

theorem wantsIpi_eq_false (hste : NpsfStep L st op st') (hfi : L.firstReserve (L.server r) = r)
    (hn : ∀ c, raced L st op ≠ some (c, r)) (hw : st.firstCpuWantsIpi (L.server r) = false) :
    st'.firstCpuWantsIpi (L.server r) = false := by
  obtain ⟨_, hx⟩ := hste
  cases op with
  | enter c npsfNext prev now =>
    simp only [exec, enter] at hx
    split at hx
    · cases hx
    obtain ⟨srv, _, rfl⟩ := map_eq_some_iff.mp hx
    split <;> exact hw
  | switchReserve c =>
    simp only [exec, switchReserve] at hx
    split at hx
    · next r' hph =>
      split at hx
      · next hne =>
        cases hx
        simp only
        split
        · next hfirst' =>
          by_cases hs : L.server r = L.server r'
          · -- the race would be one on `r`
            have hrr : r' = r := by rw [← hfirst', ← hs, hfi]
            subst hrr
            exact absurd (by simp [raced, hph, if_pos hne]) (hn c)
          rw [update_of_ne hs]
          exact hw
        exact hw
      cases hx
      exact hw
    cases hx
  | backOut c =>
    simp only [exec, backOut] at hx
    split at hx
    · cases hx
      exact hw
    cases hx
  | notify c =>
    simp only [exec, npsfNotifyNextCpu] at hx
    split at hx
    · next p hph =>
      split at hx
      · cases hx
        simp only
        split
        · by_cases hs : L.server r = L.server p
          · rw [hs, update_self]
          rw [update_of_ne hs]
          exact hw
        exact hw
      cases hx
      exact hw
    cases hx
  | returnNext c =>
    simp only [exec, returnNext] at hx
    split at hx
    · split at hx <;> cases hx <;> exact hw
    cases hx
  | server s' op =>
    obtain ⟨srv, _, rfl⟩ := map_eq_some_iff.mp hx
    exact hw

theorem wantsIpi_cleared (hs : NpsfStep L st op st') (hov : handsOver L st op = some (r, ipi))
    (hfi : L.firstReserve (L.server r) ≠ r) : st'.firstCpuWantsIpi (L.server r) = false := by
  obtain ⟨_, hx⟩ := hs
  cases op with
  | notify c =>
    simp only [handsOver] at hov
    split at hov
    · next p hpha =>
      split at hov
      · next hne =>
        simp only [some.injEq, Prod.mk.injEq] at hov
        have hsr : L.server p = L.server r := by rw [← hov.1, L.server_next]
        have hsen : st.sendsIpi L (L.server p) (L.nextNpsf p) = true := by
          rw [hov.1, hsr]
          simp [sendsIpi, hfi]
        simp only [exec, npsfNotifyNextCpu, hpha, if_pos hne, if_pos hsen, some.injEq] at hx
        subst hx
        simp [hsr]
      cases hov
    cases hov
  | _ => cases hov

/-- If the server is further away from its first reserve `r`, the request is gone by the
    time it arrives. -/
theorem wantsIpi_lost {ops : List NpsfOp} (hI : ReserveInv L st)
    (hfi : L.firstReserve (L.server r) = r) (hfa : L.nextNpsf (st.currReserve (L.server r)) ≠ r)
    (hr : Run (Awaiting L r) st ops st') :
    ReserveInv L st' ∧ (L.nextNpsf (st'.currReserve (L.server r)) ≠ r ∨
      st'.firstCpuWantsIpi (L.server r) = false) := by
  refine hr.invariant (I := fun st => ReserveInv L st ∧
    (L.nextNpsf (st.currReserve (L.server r)) ≠ r ∨
      st.firstCpuWantsIpi (L.server r) = false)) ?_ ⟨hI, .inl hfa⟩
  rintro st op st' ⟨hI, hcas⟩ ⟨⟨hs, hn⟩, hnor⟩
  refine ⟨hI.step hs, ?_⟩
  rcases hcas with hfa | hcl
  · rcases quiet_or_handsOver hI hs (L.server r) with ⟨hcur, _⟩ | ⟨ipi, hov, hsrv⟩
    · rw [hcur]
      exact .inl hfa
    have hsrv' : L.server (L.nextNpsf (st.currReserve (L.server r))) = L.server r := by
      rw [L.server_next, hsrv]
    have hcl := wantsIpi_cleared hs hov (by
      rw [hsrv', hfi]
      exact Ne.symm hfa)
    rw [hsrv'] at hcl
    exact .inr hcl
  exact .inr (wantsIpi_eq_false hs hfi hnor hcl)

theorem handsOver_current (hI : ReserveInv L st) (hov : handsOver L st op = some (r, ipi)) :
    L.nextNpsf (st.currReserve (L.server r)) = r := by
  cases op with
  | notify c =>
    simp only [handsOver] at hov
    split at hov
    · next p hpha =>
      split at hov
      · simp only [some.injEq, Prod.mk.injEq] at hov
        rw [← hov.1, L.server_next, (hI.notifying c p hpha).1]
      cases hov
    cases hov
  | _ => cases hov

/-- The last CPU to back out from `r` before the server is handed on to `r` gets an IPI from
    that hand-off, exactly if `r` is not the first reserve of its server or the server was
    with the reserve right before `r` when the CPU backed out. -/
theorem npsf_backed_out_notified_iff {st₀ st₁ st₂ st₃ : NpsfState}
    {before mid : List NpsfOp} {op op' : NpsfOp} {c : CpuId} {r : ReserveId}
    {ipi : Option CpuId} (hstart : Start L st₀) (hbefore : Run (NpsfStep L) st₀ before st₁)
    (hrace : NpsfStep L st₁ op st₂) (hraced : raced L st₁ op = some (c, r))
    (hmid : Run (Awaiting L r) st₂ mid st₃)
    (hover : handsOver L st₃ op' = some (r, ipi)) :
    ipi = some c ↔ Announced L st₁ r := by
  have hI := reserveInv_of_run hstart hbefore
  obtain ⟨hop, hphase, hne⟩ := raced_eq_some hraced
  subst hop
  have hcpu : L.cpu r = c := (hI.entering c r hphase).1
  have hcurr := (quiet_switchReserve (L.server r) hrace.2).1
  obtain ⟨p, _, hipi⟩ := handsOver_eq_some hover
  have hsends : st₃.sendsIpi L (L.server r) r = true ↔ Announced L st₁ r := by
    by_cases hfirst : L.firstReserve (L.server r) = r
    · by_cases hlast : L.nextNpsf (st₁.currReserve (L.server r)) = r
      · have hwants := wantsIpi_kept (hI.step hrace) (by rw [hcurr]; exact hlast)
          (wantsIpi_of_raced hraced hrace hfirst) (hmid.mono fun _ _ _ h => h.1)
        exact ⟨fun _ => .inr hlast, fun _ => by simp [sendsIpi, hwants]⟩
      obtain ⟨hinv₃, hcase⟩ := wantsIpi_lost (hI.step hrace) hfirst
        (by rw [hcurr]; exact hlast) hmid
      have hclear := hcase.resolve_left (not_not.mpr (handsOver_current hinv₃ hover))
      constructor
      · intro h
        simp [sendsIpi, hfirst, hclear] at h
      rintro (h | h)
      · exact absurd hfirst h
      exact absurd h hlast
    exact ⟨fun _ => .inl hfirst, fun _ => by simp [sendsIpi, hfirst]⟩
  rw [hipi, ← hsends, hcpu]
  by_cases h : st₃.sendsIpi L (L.server r) r = true
  · simp [h]
  simp [h]

/-! ### The split server again -/

theorem awaiting_of (hs : NpsfStep L st op st')
    (hn : (handsOver L st op).map Prod.fst ≠ some r ∧ (raced L st op).map Prod.snd ≠ some r) :
    Awaiting L r st op st' :=
  ⟨⟨hs, fun _ h => hn.1 (by rw [h]; rfl)⟩, fun _ h => hn.2 (by rw [h]; rfl)⟩

/-- CPU 0 backs out while CPU 2, right before it in the chain, has the server. -/
theorem npsf_backed_out_notified_iff_last_owner :
    ∃ st₀ st₁ st₂ st₃, Start splitLayout st₀ ∧ Run (NpsfStep splitLayout) st₀
        [.enter 1 4 0 0, .switchReserve 1, .notify 1, .returnNext 1, .enter 2 2 0 0,
          .switchReserve 2, .notify 2, .returnNext 2, .enter 0 0 0 0] st₁ ∧
      NpsfStep splitLayout st₁ (.switchReserve 0) st₂ ∧
      Run (Awaiting splitLayout 0) st₂ [.enter 2 5 0 0, .switchReserve 2] st₃ ∧
      handsOver splitLayout st₃ (.notify 2) = some (0, some 0) ∧ Announced splitLayout st₁ 0 := by
  have hruns : ∃ st₁ st₂ st₃, Run (NpsfStep splitLayout) splitStart
        [.enter 1 4 0 0, .switchReserve 1, .notify 1, .returnNext 1, .enter 2 2 0 0,
          .switchReserve 2, .notify 2, .returnNext 2, .enter 0 0 0 0] st₁ ∧
      NpsfStep splitLayout st₁ (.switchReserve 0) st₂ ∧
      raced splitLayout st₁ (.switchReserve 0) = some (0, 0) ∧
      Run (Awaiting splitLayout 0) st₂ [.enter 2 5 0 0, .switchReserve 2] st₃ ∧
      handsOver splitLayout st₃ (.notify 2) = some (0, some 0) := by
    exact ⟨_, _, _,
      .cons ⟨⟨rfl, by decide⟩, rfl⟩ (.cons ⟨trivial, rfl⟩ (.cons ⟨trivial, rfl⟩
        (.cons ⟨trivial, rfl⟩ (.cons ⟨⟨rfl, by decide⟩, rfl⟩ (.cons ⟨trivial, rfl⟩
        (.cons ⟨trivial, rfl⟩ (.cons ⟨trivial, rfl⟩ (.cons ⟨⟨rfl, by decide⟩, rfl⟩
        .nil)))))))),
      ⟨trivial, rfl⟩, rfl,
      .cons (awaiting_of ⟨⟨rfl, by decide⟩, rfl⟩ (by decide))
        (.cons (awaiting_of ⟨trivial, rfl⟩ (by decide)) .nil), rfl⟩
  obtain ⟨st₁, st₂, st₃, hbefore, hrace, hraced, hmid, hover⟩ := hruns
  exact ⟨splitStart, st₁, st₂, st₃, splitStart_start, hbefore, hrace, hmid, hover,
    (npsf_backed_out_notified_iff splitStart_start hbefore hrace hraced hmid hover).mp rfl⟩

/-- CPU 0 backs out while CPU 1 has the server.  The hand-off to CPU 2 clears the request,
    and the hand-off to CPU 0 sends no IPI. -/
theorem npsf_notification_lost :
    ∃ st₁ st₂ st₃, Start splitLayout splitStart ∧
      Run (NpsfStep splitLayout) splitStart [.enter 0 0 0 0] st₁ ∧
      NpsfStep splitLayout st₁ (.switchReserve 0) st₂ ∧
      raced splitLayout st₁ (.switchReserve 0) = some (0, 0) ∧
      Run (Awaiting splitLayout 0) st₂
        [.backOut 0, .returnNext 0, .enter 1 4 0 0, .switchReserve 1, .notify 1,
          .returnNext 1, .enter 2 2 0 0, .switchReserve 2, .notify 2, .returnNext 2,
          .enter 2 5 0 0, .switchReserve 2] st₃ ∧
      handsOver splitLayout st₃ (.notify 2) = some (0, none) := by
  exact ⟨_, _, _, splitStart_start, .cons ⟨⟨rfl, by decide⟩, rfl⟩ .nil,
    ⟨trivial, rfl⟩, rfl,
    .cons (awaiting_of ⟨trivial, rfl⟩ (by decide))
      (.cons (awaiting_of ⟨trivial, rfl⟩ (by decide))
      (.cons (awaiting_of ⟨⟨rfl, by decide⟩, rfl⟩ (by decide))
      (.cons (awaiting_of ⟨trivial, rfl⟩ (by decide))
      (.cons (awaiting_of ⟨trivial, rfl⟩ (by decide))
      (.cons (awaiting_of ⟨trivial, rfl⟩ (by decide))
      (.cons (awaiting_of ⟨⟨rfl, by decide⟩, rfl⟩ (by decide))
      (.cons (awaiting_of ⟨trivial, rfl⟩ (by decide))
      (.cons (awaiting_of ⟨trivial, rfl⟩ (by decide))
      (.cons (awaiting_of ⟨trivial, rfl⟩ (by decide))
      (.cons (awaiting_of ⟨⟨rfl, by decide⟩, rfl⟩ (by decide))
      (.cons (awaiting_of ⟨trivial, rfl⟩ (by decide)) .nil))))))))))),
    rfl⟩

end Litmus.Npsf
