import Litmus.NpsfHandoff
import Mathlib.Tactic.IntervalCases

/-!
# Single ownership

A CPU serves a reserve only while that reserve is the current one of its server.  Only
the CPU that holds the current reserve passes the server on, after it has moved to
another server, so no server is ever served by two CPUs.
-/

namespace Litmus.Npsf

open BinomialForest Runs NpsfServer NpsfState Function

variable {L : Layout}

/-! ### Invariants -/

variable {st st' : NpsfState} {s : ServerId} {c : CpuId} {prev : TaskId} {now : LtTime}
  {srv : NpsfServer}

structure ReserveInv (L : Layout) (st : NpsfState) : Prop where
  home : ∀ c, L.cpu (st.cpuReserve c) = c
  owner : ∀ c, st.currReserve (L.server (st.cpuReserve c)) = st.cpuReserve c
  entering : ∀ c r, st.phase c = .entering r → L.cpu r = c ∧ r ≠ st.cpuReserve c
  notifying : ∀ c p, st.phase c = .notifying p →
    st.currReserve (L.server p) = p ∧ L.cpu p = c ∧ L.server p ≠ L.server (st.cpuReserve c)

/-- Which tasks the servers keep and the CPUs run. -/
structure TaskInv (L : Layout) (st : NpsfState) : Prop where
  sound : ∀ s, ServerInv (st.servers s)
  member : ∀ s t, ((st.servers s).task t).realtime = true → L.npsfId t = s
  chosen : ∀ c t, st.next c = some t → L.npsfId t = L.server (st.cpuReserve c)

theorem TaskInv.highestPrio (h : TaskInv L st) {t : TaskId}
    (ht : (st.servers s).highestPrio = some t) : L.npsfId t = s :=
  h.member s t ((h.sound s).highestPrio ht).2

section

variable (h : ReserveInv L st)

include h

theorem ReserveInv.unique {c' : CpuId}
    (hsrv : L.server (st.cpuReserve c) = L.server (st.cpuReserve c')) : c = c' := by
  have hres : st.cpuReserve c = st.cpuReserve c' := by
    rw [← h.owner c, hsrv, h.owner c']
  rw [← h.home c, hres, h.home c']

/-! ### Steps that move no reserve -/

theorem ReserveInv.setPhase {p : Phase}
    (hcp : st'.cpuReserve = st.cpuReserve) (hcu : st'.currReserve = st.currReserve)
    (hph : st'.phase = update st.phase c p)
    (hp : ∀ r, p = .entering r → L.cpu r = c ∧ r ≠ st.cpuReserve c) (hn : ∀ r, p ≠ .notifying r) :
    ReserveInv L st' := by
  constructor
  · rw [hcp]
    exact h.home
  · rw [hcp, hcu]
    exact h.owner
  · intro c' r hr
    rw [hph] at hr
    rw [hcp]
    by_cases hc : c' = c
    · subst hc
      rw [update_self] at hr
      exact hp r hr
    rw [update_of_ne hc] at hr
    exact h.entering c' r hr
  · intro c' r hr
    rw [hph] at hr
    rw [hcp, hcu]
    by_cases hc : c' = c
    · subst hc
      rw [update_self] at hr
      exact absurd hr (hn r)
    rw [update_of_ne hc] at hr
    exact h.notifying c' r hr

theorem ReserveInv.enter {npsfNext : ReserveId} (hc : L.cpu npsfNext = c)
    (hs : st.enter L c npsfNext prev now = some st') : ReserveInv L st' := by
  unfold NpsfState.enter at hs
  split at hs
  · cases hs
  obtain ⟨srv, _, rfl⟩ := Option.map_eq_some_iff.mp hs
  simp only
  split
  · exact h.setPhase rfl rfl rfl (fun _ hr => by cases hr) (fun _ hr => by cases hr)
  next hne =>
  refine h.setPhase rfl rfl rfl (fun r hr => ?_) (fun _ hr => by cases hr)
  cases hr
  exact ⟨hc, Ne.symm hne⟩

theorem ReserveInv.backOut (hs : st.backOut L c = some st') : ReserveInv L st' := by
  unfold NpsfState.backOut at hs
  split at hs
  · cases hs
    exact h.setPhase rfl rfl rfl (fun _ hr => by cases hr) (fun _ hr => by cases hr)
  cases hs

theorem ReserveInv.returnNext (hs : st.returnNext L c = some st') : ReserveInv L st' := by
  unfold NpsfState.returnNext at hs
  split at hs
  · simp only at hs
    split at hs <;> cases hs <;>
      exact h.setPhase rfl rfl rfl (fun _ hr => by cases hr) (fun _ hr => by cases hr)
  cases hs

/-! ### Taking a server over and passing it on -/

theorem ReserveInv.switchReserve (hs : st.switchReserve L c = some st') : ReserveInv L st' := by
  unfold NpsfState.switchReserve at hs
  split at hs
  · next r hpha =>
    obtain ⟨hrc, hne⟩ := h.entering c r hpha
    simp only at hs
    split at hs
    · cases hs
      exact h.setPhase rfl rfl rfl (fun _ hr => by cases hr) (fun _ hr => by cases hr)
    next hcu =>
    rw [not_not] at hcu
    cases hs
    have hsrv : L.server (st.cpuReserve c) ≠ L.server r := by
      intro heq
      apply hne
      rw [← hcu, ← heq, h.owner c]
    constructor
    · intro c'
      by_cases hc : c' = c
      · subst hc
        simpa using hrc
      simpa [update_of_ne hc] using h.home c'
    · intro c'
      by_cases hc : c' = c
      · subst hc
        simpa using hcu
      simpa [update_of_ne hc] using h.owner c'
    · intro c' r' hr'
      by_cases hc : c' = c
      · subst hc
        simp at hr'
      simp only [update_of_ne hc] at hr' ⊢
      exact h.entering c' r' hr'
    · intro c' p hp
      by_cases hc : c' = c
      · subst hc
        simp only [update_self, Phase.notifying.injEq] at hp ⊢
        subst hp
        exact ⟨h.owner c', h.home c', hsrv⟩
      simp only [update_of_ne hc] at hp ⊢
      exact h.notifying c' p hp
  cases hs

theorem ReserveInv.notify (hs : st.npsfNotifyNextCpu L c = some st') : ReserveInv L st' := by
  unfold NpsfState.npsfNotifyNextCpu at hs
  split at hs
  · next p hpha =>
    obtain ⟨hcu, hpc, hsrv⟩ := h.notifying c p hpha
    -- the only CPU that could hold the passed server is the one passing it on
    have hfr : ∀ c', L.server (st.cpuReserve c') ≠ L.server p := by
      intro c' heq
      have hres : st.cpuReserve c' = p := by rw [← h.owner c', heq, hcu]
      have hcc : c' = c := by rw [← h.home c', hres, hpc]
      exact hsrv (by rw [← heq, hcc])
    simp only at hs
    split at hs
    · cases hs
      constructor
      · exact h.home
      · intro c'
        simp only [update_of_ne (hfr c')]
        exact h.owner c'
      · intro c' r hr
        by_cases hc : c' = c
        · subst hc
          simp at hr
        simp only [update_of_ne hc] at hr
        exact h.entering c' r hr
      · intro c' q hq
        by_cases hc : c' = c
        · subst hc
          simp at hq
        simp only [update_of_ne hc] at hq
        obtain ⟨hq1, hq2, hq3⟩ := h.notifying c' q hq
        have hne : L.server q ≠ L.server p := by
          intro heq
          have hpq : q = p := by rw [← hq1, heq, hcu]
          exact hc (by rw [← hq2, hpq, hpc])
        simp only [update_of_ne hne]
        exact ⟨hq1, hq2, hq3⟩
    cases hs
    exact h.setPhase rfl rfl rfl (fun _ hr => by cases hr) (fun _ hr => by cases hr)
  cases hs

end

theorem ReserveInv.step {op : NpsfOp} (h : ReserveInv L st) (hs : NpsfStep L st op st') :
    ReserveInv L st' := by
  obtain ⟨hl, hx⟩ := hs
  cases op with
  | enter c npsfNext prev now => exact h.enter hl.1 hx
  | switchReserve c => exact h.switchReserve hx
  | backOut c => exact h.backOut hx
  | notify c => exact h.notify hx
  | returnNext c => exact h.returnNext hx
  | server s op =>
    obtain ⟨srv, _, rfl⟩ := Option.map_eq_some_iff.mp hx
    exact ⟨h.home, h.owner, h.entering, h.notifying⟩

/-! ### Tasks -/

theorem realtime_of_step {s s' : NpsfServer} {op : ServerOp} {t : TaskId}
    (hs : ServerStep s op s') (ht : (s'.task t).realtime = true) :
    (s.task t).realtime = true ∨ ∃ params now, op = .taskNew t params now := by
  by_cases hfo : Foreign t op
  · have hvie := (foreign_step ⟨hs, hfo⟩).1
    exact .inl ((congrArg Prod.fst hvie).symm.trans ht)
  obtain ⟨hl, hx⟩ := hs
  cases op with
  | taskNew u params now =>
    obtain rfl : u = t := not_not.mp hfo
    exact .inr ⟨params, now, rfl⟩
  | taskWakeUp u now =>
    obtain rfl : u = t := not_not.mp hfo
    exact .inl hl.1
  | taskBlock u now =>
    obtain rfl : u = t := not_not.mp hfo
    exact .inl hl.1
  | taskExit u now =>
    obtain rfl : u = t := not_not.mp hfo
    exact .inl hl.1
  | scheduleServer u now =>
    obtain rfl : u = t := not_not.mp hfo
    exact .inl hl.1
  | completeJob u =>
    cases hx
    refine .inl ((TaskTable.modify_field RtTask.realtime (RtTask.setRtFlags .sleep)
      (fun _ => rfl) s.task u t).symm.trans ht)
  | execute u delta => exact absurd trivial hfo
  | releaseTimer i => exact absurd trivial hfo
  | releaseJobs i now => exact absurd trivial hfo

section

variable (h : TaskInv L st)

include h

theorem TaskInv.update (hse : st'.servers = update st.servers s srv)
    (hsou : ServerInv srv) (hmem : ∀ t, (srv.task t).realtime = true → L.npsfId t = s)
    (hcho : ∀ c t, st'.next c = some t → L.npsfId t = L.server (st'.cpuReserve c)) :
    TaskInv L st' := by
  refine ⟨fun s' => ?_, fun s' t => ?_, hcho⟩
  · rw [hse]
    by_cases hs : s' = s
    · subst hs
      rw [update_self]
      exact hsou
    rw [update_of_ne hs]
    exact h.sound s'
  rw [hse]
  by_cases hs : s' = s
  · subst hs
    rw [update_self]
    exact hmem t
  rw [update_of_ne hs]
  exact h.member s' t

theorem TaskInv.serverStep {op : ServerOp} (hs : ServerStep (st.servers s) op srv)
    (hnew : ∀ t params now, op = .taskNew t params now → L.npsfId t = s) :
    ServerInv srv ∧ ∀ t, (srv.task t).realtime = true → L.npsfId t = s := by
  constructor
  · obtain ⟨srv', hsrv', hkee⟩ := (h.sound s).step hs.1
    rw [hs.2, Option.some.injEq] at hsrv'
    subst hsrv'
    exact hkee.1
  intro t ht
  rcases realtime_of_step hs ht with hrt | ⟨params, now, hop⟩
  · exact h.member s t hrt
  exact hnew t params now hop

theorem TaskInv.updatePrev (hw : prev ∉ (st.servers (L.server (st.cpuReserve c))).dom.waiting)
    (hsr : st.updatePrev L c prev now = some srv) : ServerInv srv ∧
      ∀ t, (srv.task t).realtime = true → L.npsfId t = L.server (st.cpuReserve c) := by
  unfold NpsfState.updatePrev at hsr
  simp only at hsr
  split at hsr
  · next hco =>
    simp only [Bool.and_eq_true] at hco
    have hs : ServerStep (st.servers (L.server (st.cpuReserve c)))
        (.scheduleServer prev now) srv := ⟨⟨hco.1, hw⟩, hsr⟩
    apply h.serverStep hs
    intro t params now' hop
    cases hop
  cases hsr
  exact ⟨h.sound _, h.member _⟩

theorem TaskInv.enter {npsfNext : ReserveId}
    (hw : prev ∉ (st.servers (L.server (st.cpuReserve c))).dom.waiting)
    (hs : st.enter L c npsfNext prev now = some st') : TaskInv L st' := by
  unfold NpsfState.enter at hs
  split at hs
  · cases hs
  obtain ⟨srv, hsrv, rfl⟩ := Option.map_eq_some_iff.mp hs
  obtain ⟨hso, hme⟩ := h.updatePrev hw hsrv
  simp only
  split
  · refine h.update rfl hso hme fun c' t ht => ?_
    by_cases hc : c' = c
    · subst hc
      simp only [update_self] at ht
      exact hme t (hso.highestPrio ht).2
    simp only [update_of_ne hc] at ht
    exact h.chosen c' t ht
  exact h.update rfl hso hme h.chosen

theorem TaskInv.switchReserve (hs : st.switchReserve L c = some st') : TaskInv L st' := by
  unfold NpsfState.switchReserve at hs
  split at hs
  · simp only at hs
    split at hs
    · cases hs
      exact ⟨h.sound, h.member, h.chosen⟩
    cases hs
    refine ⟨h.sound, h.member, fun c' t ht => ?_⟩
    by_cases hc : c' = c
    · subst hc
      simp only [update_self] at ht ⊢
      exact h.highestPrio ht
    simp only [update_of_ne hc] at ht ⊢
    exact h.chosen c' t ht
  cases hs

theorem TaskInv.backOut (hs : st.backOut L c = some st') : TaskInv L st' := by
  unfold NpsfState.backOut at hs
  split at hs
  · cases hs
    refine ⟨h.sound, h.member, fun c' t ht => ?_⟩
    by_cases hc : c' = c
    · subst hc
      simp only [update_self] at ht
      exact h.highestPrio ht
    simp only [update_of_ne hc] at ht
    exact h.chosen c' t ht
  cases hs

theorem TaskInv.notify (hs : st.npsfNotifyNextCpu L c = some st') : TaskInv L st' := by
  unfold NpsfState.npsfNotifyNextCpu at hs
  split at hs
  · simp only at hs
    split at hs <;> cases hs <;> exact ⟨h.sound, h.member, h.chosen⟩
  cases hs

theorem TaskInv.returnNext (hs : st.returnNext L c = some st') : TaskInv L st' := by
  unfold NpsfState.returnNext at hs
  split at hs
  · simp only at hs
    split at hs
    · cases hs
      refine h.update rfl ?_ (fun t ht => h.member _ t ?_) h.chosen
      · exact (keeps_modifyTask (h.sound _) _ (RtTask.setRtFlags .running) (fun _ => rfl)
          (fun _ => rfl)).1
      exact (TaskTable.modify_field RtTask.realtime (RtTask.setRtFlags .running)
        (fun _ => rfl) _ _ t).symm.trans ht
    cases hs
    exact ⟨h.sound, h.member, h.chosen⟩
  cases hs

end

theorem TaskInv.step {op : NpsfOp} (h : TaskInv L st) (hs : NpsfStep L st op st') :
    TaskInv L st' := by
  obtain ⟨hl, hx⟩ := hs
  cases op with
  | enter c npsfNext prev now => exact h.enter hl.2 hx
  | switchReserve c => exact h.switchReserve hx
  | backOut c => exact h.backOut hx
  | notify c => exact h.notify hx
  | returnNext c => exact h.returnNext hx
  | server s op =>
    obtain ⟨srv, hsrv, rfl⟩ := Option.map_eq_some_iff.mp hx
    obtain ⟨hsou, hmem⟩ := h.serverStep ⟨hl.1, hsrv⟩ hl.2
    exact h.update rfl hsou hmem h.chosen

/-! ### Ownership -/

/-- No CPU is inside `npsf_schedule`, every CPU serves one of its own reserves, which is
    the current one of its server, and the servers keep their own tasks. -/
structure Start (L : Layout) (st : NpsfState) : Prop where
  idle : ∀ c, st.phase c = .idle
  home : ∀ c, L.cpu (st.cpuReserve c) = c
  owner : ∀ c, st.currReserve (L.server (st.cpuReserve c)) = st.cpuReserve c
  tasks : TaskInv L st

theorem Start.reserveInv (h : Start L st) : ReserveInv L st where
  home := h.home
  owner := h.owner
  entering c r hr := by
    rw [h.idle c] at hr
    cases hr
  notifying c p hp := by
    rw [h.idle c] at hp
    cases hp

theorem reserveInv_of_run {st0 : NpsfState} {ops : List NpsfOp} (hsa : Start L st0)
    (hr : Run (NpsfStep L) st0 ops st) : ReserveInv L st :=
  hr.invariant (fun _ _ _ h hs => h.step hs) hsa.reserveInv

theorem taskInv_of_run {st0 : NpsfState} {ops : List NpsfOp} (hsa : Start L st0)
    (hr : Run (NpsfStep L) st0 ops st) : TaskInv L st :=
  hr.invariant (fun _ _ _ h hs => h.step hs) hsa.tasks

/-- However the CPUs' sections interleave, no two CPUs serve the same server, and no task
    is the choice of two CPUs. -/
theorem npsf_single_ownership {st₀ st : NpsfState} {ops : List NpsfOp}
    (hstart : Start L st₀) (hrun : Run (NpsfStep L) st₀ ops st) :
    (∀ c c', c ≠ c' → L.server (st.cpuReserve c) ≠ L.server (st.cpuReserve c')) ∧
      ∀ c c' t, st.next c = some t → st.next c' = some t → c = c' := by
  have hres := reserveInv_of_run hstart hrun
  have htask := taskInv_of_run hstart hrun
  constructor
  · intro c c' hne heq
    exact hne (hres.unique heq)
  intro c c' t hc hc'
  apply hres.unique
  rw [← htask.chosen c t hc, ← htask.chosen c' t hc']

/-! ### A server split over three CPUs -/

/-- Server 0 has the reserves 0, 1 and 2 on the CPUs of these numbers; CPU `c` has reserve
    `c + 3` for its own server `c + 1`. -/
def splitLayout : Layout where
  cpu r := if r < 3 then r else r - 3
  server r := if r < 3 then 0 else r - 2
  nextNpsf r := if r = 0 then 1 else if r = 1 then 2 else if r = 2 then 0 else r
  firstReserve s := if s = 0 then 0 else s + 2
  npsfId t := t
  server_next r := by
    rcases r with _ | _ | _ | r
    · rfl
    · rfl
    · rfl
    · simp
  cycle (r r' : Nat) (h : (if r < 3 then 0 else r - 2) = if r' < 3 then 0 else r' - 2) := by
    by_cases hr : r < 3
    · have hr' : r' < 3 := by
        by_contra hge
        rw [if_pos hr, if_neg hge] at h
        omega
      interval_cases r <;> interval_cases r' <;>
        first | exact ⟨0, rfl⟩ | exact ⟨1, rfl⟩ | exact ⟨2, rfl⟩
    · have hr' : ¬r' < 3 := by
        intro hlt
        rw [if_neg hr, if_pos hlt] at h
        omega
      rw [if_neg hr, if_neg hr'] at h
      exact ⟨0, show r = r' by omega⟩

/-- CPU 1 serves the shared server, all others their own. -/
def splitStart : NpsfState where
  servers _ := NpsfServer.init noTasks 1000000
  currReserve s := if s = 0 then 1 else s + 2
  firstCpuWantsIpi _ := false
  isCurrentlyScheduled r := decide (r = 1 ∨ 3 ≤ r ∧ r ≠ 4)
  cpuReserve c := if c = 1 then 1 else c + 3
  phase _ := .idle
  next _ := none

theorem splitStart_start : Start splitLayout splitStart where
  idle _ := rfl
  home c := by
    by_cases hc : c = 1
    · subst hc
      rfl
    simp [splitLayout, splitStart, hc]
  owner c := by
    by_cases hc : c = 1
    · subst hc
      rfl
    simp [splitLayout, splitStart, hc]
  tasks := by
    refine ⟨fun _ => serverInv_init (fun _ => rfl) _, fun s t ht => ?_, fun c t ht => ?_⟩
    · exact nomatch (show false = true from ht)
    cases ht

/-- CPU 0 loses the race for the shared server and keeps its own. -/
theorem npsf_single_ownership_lost_race :
    ∃ st, Run (NpsfStep splitLayout) splitStart
        [.enter 0 0 0 0, .switchReserve 0, .backOut 0, .returnNext 0] st ∧
      st.cpuReserve 0 = 3 ∧ st.cpuReserve 1 = 1 ∧
      splitLayout.server (st.cpuReserve 0) ≠ splitLayout.server (st.cpuReserve 1) := by
  have hrun : ∃ st, Run (NpsfStep splitLayout) splitStart
        [.enter 0 0 0 0, .switchReserve 0, .backOut 0, .returnNext 0] st ∧
      st.cpuReserve 0 = 3 ∧ st.cpuReserve 1 = 1 :=
    ⟨_, .snoc (.snoc (.snoc (.snoc .nil ⟨⟨rfl, by decide⟩, rfl⟩)
      ⟨trivial, rfl⟩) ⟨trivial, rfl⟩) ⟨trivial, rfl⟩, rfl, rfl⟩
  obtain ⟨st, hrun, h₀, h₁⟩ := hrun
  exact ⟨st, hrun, h₀, h₁, (npsf_single_ownership splitStart_start hrun).1 0 1 Nat.zero_ne_one⟩

end Litmus.Npsf
