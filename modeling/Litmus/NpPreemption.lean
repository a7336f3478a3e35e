import Litmus.Runs
import Mathlib.Tactic.ByContra

/-!
# Delayed preemptions

`preempt_if_preemptable` on a remote CPU against the `enter_np` and `exit_np` of the task that
is to be preempted.  Each access to the control page is one step.
-/

namespace Litmus.NpPreemption

open Runs List

/-- Where the task is: outside `exit_np`, between its two accesses, or on its way into
    `sched_yield`. -/
inductive TaskPc where
  | user
  | checking
  | yielding
deriving DecidableEq

/-- How far `preempt_if_preemptable` has come. -/
inductive RemotePc where
  | idle
  | testing
  /-- in `request_exit_np`, before its own test -/
  | requesting
  /-- in `request_exit_np`, after its test -/
  | setting
  | retesting
deriving DecidableEq

/-- The control page of the task, the task and the remote CPU. -/
structure State where
  /-- the number of nested sections -/
  npFlag : Nat
  delayedPreemption : Bool
  needResched : Bool
  task : TaskPc
  remote : RemotePc
  /-- what the last call has decided about the IPI -/
  sendIpi : Bool
deriving DecidableEq

inductive TaskOp where
  | enterNp
  /-- `--ctrl_page->np_flag == 0` -/
  | exitNp
  /-- `if (ctrl_page->delayed_preemption)` -/
  | check
  /-- `sched_yield`, with `yield_task_litmus` -/
  | yield
deriving DecidableEq

inductive RemoteOp where
  | call
  /-- the `is_user_np` of `preempt_if_preemptable` -/
  | test
  /-- the `is_user_np` of `request_exit_np` -/
  | request
  /-- `delayed_preemption = 1` -/
  | set
  /-- `send_ipi = !is_np(t) && !is_kernel_np(t)` for a task without kernel sections -/
  | retest
deriving DecidableEq

inductive Op where
  | task (op : TaskOp)
  | remote (op : RemoteOp)
deriving DecidableEq

namespace State

def isUserNp (st : State) : Bool := st.npFlag != 0

/-- A step of the task; `none` is a step that is not due, and an `exit_np` outside of all
    sections. -/
def execTask (st : State) : TaskOp → Option State
  | .enterNp => if st.task = .user then some { st with npFlag := st.npFlag + 1 } else none
  | .exitNp =>
      if st.task = .user ∧ 0 < st.npFlag then
        some { st with
          npFlag := st.npFlag - 1
          task := if st.npFlag - 1 = 0 then .checking else .user }
      else none
  | .check =>
      if st.task = .checking then
        some { st with task := if st.delayedPreemption then .yielding else .user }
      else none
  | .yield =>
      if st.task = .yielding then
        some { st with delayedPreemption := false, needResched := true, task := .user }
      else none

def execRemote (st : State) : RemoteOp → Option State
  | .call => if st.remote = .idle then some { st with remote := .testing } else none
  | .test =>
      if st.remote = .testing then
        some { st with remote := if st.isUserNp then .requesting else .retesting }
      else none
  | .request =>
      if st.remote = .requesting then
        some { st with remote := if st.isUserNp then .setting else .retesting }
      else none
  | .set =>
      if st.remote = .setting then
        some { st with delayedPreemption := true, remote := .retesting }
      else none
  | .retest =>
      if st.remote = .retesting then
        some { st with sendIpi := !st.isUserNp, remote := .idle }
      else none

def exec (st : State) : Op → Option State
  | .task op => st.execTask op
  | .remote op => st.execRemote op

def init : State where
  npFlag := 0
  delayedPreemption := false
  needResched := false
  task := .user
  remote := .idle
  sendIpi := false

/-- The task is in a non-preemptive section, or in the `exit_np` that ends it. -/
def inSection (st : State) : Bool := st.isUserNp || st.task == .checking

/-- The task is in a section and will find the flag set at its end. -/
def Pending (st : State) : Prop := st.delayedPreemption = true ∧ st.inSection = true

/-- The flag is set, and the task has not yet reacted to it. -/
def Ready (st : State) : Prop := st.delayedPreemption = true ∧ st.task ≠ .yielding

end State

open State (inSection isUserNp init)

def Step (st : State) (op : Op) (st' : State) : Prop := st.exec op = some st'

/-! ### Steps of the task -/

section

variable {st st' : State} {op : TaskOp}

theorem execTask_cases (hs : st.execTask op = some st') :
    (op = .enterNp ∧ st.task = .user ∧ st' = { st with npFlag := st.npFlag + 1 }) ∨
    (op = .exitNp ∧ (st.task = .user ∧ 0 < st.npFlag) ∧ st' = { st with
      npFlag := st.npFlag - 1
      task := if st.npFlag - 1 = 0 then .checking else .user }) ∨
    (op = .check ∧ st.task = .checking ∧ st' = { st with
      task := if st.delayedPreemption then .yielding else .user }) ∨
    (op = .yield ∧ st.task = .yielding ∧ st' = { st with
      delayedPreemption := false, needResched := true, task := .user }) := by
  cases op <;> simp only [State.execTask] at hs <;> split at hs <;> cases hs <;> simp [*]

theorem npFlag_of_task (hs : st.execTask op = some st') (h : st.task ≠ .user → st.npFlag = 0) :
    st'.task ≠ .user → st'.npFlag = 0 := by
  rcases execTask_cases hs with ⟨-, hpc, rfl⟩ | ⟨-, -, rfl⟩ | ⟨-, hpc, rfl⟩ | ⟨-, -, rfl⟩
  · intro hne
    exact absurd hpc hne
  · intro hne
    by_contra h0
    exact hne (if_neg h0)
  · intro _
    apply h
    rw [hpc]
    intro hc
    cases hc
  · intro hne
    exact absurd rfl hne

theorem remote_of_task (hs : st.execTask op = some st') : st'.remote = st.remote := by
  rcases execTask_cases hs with ⟨-, -, rfl⟩ | ⟨-, -, rfl⟩ | ⟨-, -, rfl⟩ | ⟨-, -, rfl⟩ <;> rfl

theorem pending_of_checking (hse : st.delayedPreemption = true) (hpc : st.task = .checking) :
    st.Pending := by
  refine ⟨hse, ?_⟩
  simp [inSection, hpc]

/-- A flag that is set stays set, or the task finds it set at the end of a section. -/
theorem ready_of_task (hs : st.execTask op = some st') (h : st.Ready) : st.Pending ∨ st'.Ready := by
  obtain ⟨hse, hne⟩ := h
  rcases execTask_cases hs with ⟨-, -, rfl⟩ | ⟨-, -, rfl⟩ | ⟨-, hpc, rfl⟩ | ⟨-, hpc, -⟩
  · exact .inr ⟨hse, hne⟩
  · refine .inr ⟨hse, ?_⟩
    split <;> (intro hc; cases hc)
  · exact .inl (pending_of_checking hse hpc)
  · exact absurd hpc hne

theorem ready_of_ready_task (hs : st.execTask op = some st') (h : st'.Ready) : st.Ready := by
  obtain ⟨hse, hne⟩ := h
  rcases execTask_cases hs with ⟨-, -, rfl⟩ | ⟨-, hpc, rfl⟩ | ⟨-, hpc, rfl⟩ | ⟨-, -, rfl⟩
  · exact ⟨hse, hne⟩
  · exact ⟨hse, by rw [hpc.1]; intro hc; cases hc⟩
  · exact ⟨hse, by rw [hpc]; intro hc; cases hc⟩
  · cases hse

theorem pending_of_yielding (hs : st.execTask op = some st') (h : st'.task = .yielding) :
    st.Pending ∨ st.task = .yielding := by
  rcases execTask_cases hs with ⟨-, -, rfl⟩ | ⟨-, -, rfl⟩ | ⟨-, hpc, rfl⟩ | ⟨-, -, rfl⟩
  · exact .inr h
  · split at h <;> cases h
  · split at h
    · rename_i hse
      exact .inl (pending_of_checking hse hpc)
    cases h
  · cases h

/-- A task that has a section to leave or is leaving it is not yielding. -/
theorem ready_of_pending (h0 : st.task ≠ .user → st.npFlag = 0) (h : st.Pending) : st.Ready := by
  refine ⟨h.1, ?_⟩
  intro hpc
  have hnp : st.npFlag = 0 := h0 (by rw [hpc]; intro hc; cases hc)
  have hsec := h.2
  simp [inSection, isUserNp, hpc, hnp] at hsec

/-- The task is in a section at whose end it yields, or it is about to yield. -/
def State.Due (st : State) : Prop := st.Pending ∨ st.task = .yielding

theorem due_of_task (hs : st.execTask op = some st') (hop : op ≠ .yield) (h : st.Due) :
    st'.Due := by
  rcases execTask_cases hs with ⟨-, hpc, rfl⟩ | ⟨-, hpc, rfl⟩ | ⟨-, hpc, rfl⟩ | ⟨rfl, -, -⟩
  · rcases h with ⟨hse, -⟩ | hy
    · refine .inl ⟨hse, ?_⟩
      simp [inSection, isUserNp]
    cases hpc.symm.trans hy
  · rcases h with ⟨hse, -⟩ | hy
    · refine .inl ⟨hse, ?_⟩
      by_cases h0 : st.npFlag - 1 = 0
      · simp [inSection, h0]
      simp [inSection, isUserNp, h0]
    cases hpc.1.symm.trans hy
  · rcases h with ⟨hse, -⟩ | hy
    · exact .inr (if_pos hse)
    cases hpc.symm.trans hy
  · exact absurd rfl hop

end

/-! ### Steps of the remote CPU -/

section

variable {st st' : State} {op : RemoteOp}

theorem execRemote_cases (hs : st.execRemote op = some st') :
    (op = .call ∧ st.remote = .idle ∧ st' = { st with remote := .testing }) ∨
    (op = .test ∧ st.remote = .testing ∧ st' = { st with
      remote := if st.isUserNp then .requesting else .retesting }) ∨
    (op = .request ∧ st.remote = .requesting ∧ st' = { st with
      remote := if st.isUserNp then .setting else .retesting }) ∨
    (op = .set ∧ st.remote = .setting ∧ st' = { st with
      delayedPreemption := true, remote := .retesting }) ∨
    (op = .retest ∧ st.remote = .retesting ∧ st' = { st with
      sendIpi := !st.isUserNp, remote := .idle }) := by
  cases op <;> simp only [State.execRemote] at hs <;> split at hs <;> cases hs <;> simp [*]

theorem task_of_remote (hs : st.execRemote op = some st') :
    st'.task = st.task ∧ st'.npFlag = st.npFlag ∧
      (st.delayedPreemption = true → st'.delayedPreemption = true) := by
  rcases execRemote_cases hs with ⟨-, -, rfl⟩ | ⟨-, -, rfl⟩ | ⟨-, -, rfl⟩ | ⟨-, -, rfl⟩ |
    ⟨-, -, rfl⟩
  · exact ⟨rfl, rfl, id⟩
  · exact ⟨rfl, rfl, id⟩
  · exact ⟨rfl, rfl, id⟩
  · exact ⟨rfl, rfl, fun _ => rfl⟩
  · exact ⟨rfl, rfl, id⟩

end

/-- A flag that is set in a section makes the task yield at its end: until it does, it is in
    the section or about to yield. -/
theorem due_of_run {st st' : State} {ls : List Op} (hr : Run Step st ls st')
    (hy : .task .yield ∉ ls) (h : st.Pending) : st'.Due := by
  induction hr with
  | nil => exact .inl h
  | @snoc u v ls op _ hla ih =>
    rw [mem_append, not_or] at hy
    have hdu := ih hy.1
    cases op with
    | task op =>
      exact due_of_task hla (fun hop => hy.2 (by rw [hop]; exact mem_singleton_self _))
        hdu
    | remote op =>
      obtain ⟨hta, hnp, hse⟩ := task_of_remote hla
      rcases hdu with ⟨hold, hsc⟩ | hpc
      · refine .inl ⟨hse hold, ?_⟩
        unfold inSection isUserNp at hsc ⊢
        rw [hta, hnp]
        exact hsc
      exact .inr (hta.trans hpc)

/-! ### One call -/

/-- The steps of a call, each with the state in which it was taken. -/
abbrev History := List (State × Op)

namespace History

/-- The tests before the flag is set find the task in a section. -/
def Found (h : History) : Prop :=
  ∀ p ∈ h, p.2 = .remote .test ∨ p.2 = .remote .request → p.1.isUserNp = true

/-- The re-test finds the task outside of its sections. -/
def Left (h : History) : Prop := ∀ p ∈ h, p.2 = .remote .retest → p.1.isUserNp = false

/-- The flag was set while the task was in a section. -/
def Noticed (h : History) : Prop := ∃ p ∈ h, p.1.Pending

variable {h : History} {st : State} {op : Op}

theorem found_snoc : Found (h ++ [(st, op)]) ↔
    Found h ∧ (op = .remote .test ∨ op = .remote .request → st.isUserNp = true) := by
  unfold Found
  simp only [forall_mem_append, forall_mem_singleton]

theorem noticed_snoc : Noticed (h ++ [(st, op)]) ↔ Noticed h ∨ st.Pending := by
  unfold Noticed
  simp [or_and_right, exists_or]

end History

open History

structure Progress (st₀ : State) (h : History) (st : State) : Prop where
  npFlag_eq : st.task ≠ .user → st.npFlag = 0
  found : st.remote ≠ .retesting → Found h
  no_retest : ∀ p ∈ h, p.2 ≠ .remote .retest
  /-- the task was in a section when it was tested -/
  awake : st.remote = .requesting ∨ st.remote = .setting → st.task = .yielding → Noticed h
  /-- after the write -/
  written : st.remote = .retesting → Found h → Noticed h ∨ st.Ready
  kept : st₀.Ready → Noticed h ∨ st.Ready
  /-- without a write -/
  unset : ¬ st₀.Ready → st.remote ≠ .retesting ∨ ¬ Found h → ¬ Noticed h ∧ ¬ st.Ready

section

variable {st₀ st st' : State} {h : History}

theorem Progress.start (h0 : st₀.task ≠ .user → st₀.npFlag = 0)
    (hre : st₀.remote = .testing) : Progress st₀ [] st₀ where
  npFlag_eq := h0
  found _ := by
    intro p hp
    cases hp
  no_retest := by
    intro p hp
    cases hp
  awake := by
    intro hpc
    rw [hre] at hpc
    rcases hpc with hpc | hpc <;> cases hpc
  written := by
    intro hpc
    cases hre.symm.trans hpc
  kept := .inr
  unset := by
    intro hr _
    refine ⟨?_, hr⟩
    rintro ⟨p, hp, -⟩
    cases hp

theorem Progress.task {op : TaskOp} (hp : Progress st₀ h st) (hs : st.execTask op = some st') :
    Progress st₀ (h ++ [(st, .task op)]) st' := by
  have hre := remote_of_task hs
  have hfo : Found (h ++ [(st, .task op)]) ↔ Found h := by
    rw [found_snoc]
    constructor
    · intro hf
      exact hf.1
    intro hf
    refine ⟨hf, ?_⟩
    intro hop
    rcases hop with hop | hop <;> cases hop
  have hrd : Noticed h ∨ st.Ready → Noticed (h ++ [(st, .task op)]) ∨ st'.Ready := by
    rw [noticed_snoc]
    intro hr
    rcases hr with hn | hr
    · exact .inl (.inl hn)
    rcases ready_of_task hs hr with hpe | hr
    · exact .inl (.inr hpe)
    exact .inr hr
  constructor
  · exact npFlag_of_task hs hp.npFlag_eq
  · rw [hre, hfo]
    exact hp.found
  · intro p hm
    rcases mem_append.mp hm with hm | hm
    · exact hp.no_retest p hm
    rw [mem_singleton] at hm
    subst hm
    intro hc
    cases hc
  · intro hpc hy
    rw [hre] at hpc
    rw [noticed_snoc]
    rcases pending_of_yielding hs hy with hpe | hy
    · exact .inr hpe
    exact .inl (hp.awake hpc hy)
  · rw [hre, hfo]
    intro hpc hf
    exact hrd (hp.written hpc hf)
  · intro hr
    exact hrd (hp.kept hr)
  · rw [hre, hfo, noticed_snoc]
    intro hr hcas
    obtain ⟨hn, hun⟩ := hp.unset hr hcas
    constructor
    · rintro (hn' | hpe)
      · exact hn hn'
      exact hun (ready_of_pending hp.npFlag_eq hpe)
    intro hr'
    exact hun (ready_of_ready_task hs hr')

theorem Progress.test {op : RemoteOp} {next : RemotePc} (hp : Progress st₀ h st)
    (hop : op = .test ∨ op = .request) (hpc : st.remote ≠ .retesting)
    (hnex : next = .requesting ∨ next = .setting) : Progress st₀ (h ++ [(st, .remote op)])
      { st with remote := if st.isUserNp then next else .retesting } := by
  have hfo : Found (h ++ [(st, .remote op)]) ↔ st.isUserNp = true := by
    rw [found_snoc]
    constructor
    · intro hf
      exact hf.2 (by rcases hop with rfl | rfl <;> simp)
    intro hnp
    exact ⟨hp.found hpc, fun _ => hnp⟩
  have hrd : ∀ {pc}, ({ st with remote := pc } : State).Ready ↔ st.Ready := .rfl
  constructor
  · exact hp.npFlag_eq
  · intro hne
    rw [hfo]
    by_contra hnp
    exact hne (if_neg hnp)
  · intro p hm
    rcases mem_append.mp hm with hm | hm
    · exact hp.no_retest p hm
    rw [mem_singleton] at hm
    subst hm
    rcases hop with rfl | rfl <;> (intro hc; cases hc)
  · intro hpc' hy
    -- a task in a section is not about to yield
    have h0 : st.npFlag = 0 := hp.npFlag_eq (by rw [hy]; intro hc; cases hc)
    have hnp : st.isUserNp = false := by simp [isUserNp, h0]
    rw [hnp] at hpc'
    rcases hpc' with hpc' | hpc' <;> cases hpc'
  · intro hpc' hf
    rw [hfo] at hf
    rw [hf] at hpc'
    rcases hnex with rfl | rfl <;> cases hpc'
  · intro hr
    rw [noticed_snoc, hrd]
    exact (hp.kept hr).imp_left .inl
  · intro hr _
    obtain ⟨hn, hun⟩ := hp.unset hr (.inl hpc)
    rw [noticed_snoc, hrd]
    refine ⟨?_, hun⟩
    rintro (hn' | hpen)
    · exact hn hn'
    exact hun (ready_of_pending hp.npFlag_eq hpen)

theorem Progress.set (hp : Progress st₀ h st) (hpc : st.remote = .setting) :
    Progress st₀ (h ++ [(st, .remote .set)])
      { st with delayedPreemption := true, remote := .retesting } := by
  have hfou : Found (h ++ [(st, .remote .set)]) := by
    rw [found_snoc]
    refine ⟨hp.found (by rw [hpc]; intro hc; cases hc), ?_⟩
    intro hop
    rcases hop with hop | hop <;> cases hop
  have hr : Noticed (h ++ [(st, .remote .set)]) ∨
      ({ st with delayedPreemption := true, remote := .retesting } : State).Ready := by
    rw [noticed_snoc]
    by_cases hy : st.task = .yielding
    · exact .inl (.inl (hp.awake (.inr hpc) hy))
    exact .inr ⟨rfl, hy⟩
  constructor
  · exact hp.npFlag_eq
  · intro hne
    exact absurd rfl hne
  · intro p hm
    rcases mem_append.mp hm with hm | hm
    · exact hp.no_retest p hm
    rw [mem_singleton] at hm
    subst hm
    intro hc
    cases hc
  · intro hpc'
    rcases hpc' with hpc' | hpc' <;> cases hpc'
  · intro _ _
    exact hr
  · intro _
    exact hr
  · intro _ hcas
    rcases hcas with hne | hn
    · exact absurd rfl hne
    exact absurd hfou hn

theorem Progress.of_run (h0 : st₀.task ≠ .user → st₀.npFlag = 0)
    (hrem : st₀.remote = .testing) (hr : Run (Recorded Step) st₀ h st)
    (hbu : ∀ p ∈ h, p.1.remote ≠ .idle) (hst : st.remote ≠ .idle) : Progress st₀ h st := by
  induction hr with
  | nil => exact Progress.start h0 hrem
  | @snoc u v h p _ hla ih =>
    obtain ⟨s, op⟩ := p
    obtain ⟨rfl, hse⟩ := hla
    have hs : s.remote ≠ .idle := hbu (s, op) (by simp)
    have hp := ih (fun p hm => hbu p (mem_append_left _ hm)) hs
    cases op with
    | task op => exact hp.task hse
    | remote op =>
      rcases execRemote_cases hse with ⟨-, hidl, -⟩ | ⟨rfl, hpc, rfl⟩ | ⟨rfl, hpc, rfl⟩ |
        ⟨rfl, hpc, rfl⟩ | ⟨-, -, rfl⟩
      · exact absurd hidl hs
      · exact hp.test (.inl rfl) (by rw [hpc]; intro hc; cases hc) (.inl rfl)
      · exact hp.test (.inr rfl) (by rw [hpc]; intro hc; cases hc) (.inr rfl)
      · exact hp.set hpc
      · exact absurd rfl hst

/-- An IPI has been sent, or the flag was set while the task was in a section. -/
def Delivered (h : History) (st : State) : Prop := st.sendIpi = true ∨ Noticed h

/-- The tests before the write find the task in a section, or the re-test finds it outside, or
    the flag has been set before the call and the task has not reacted to it. -/
def Covered (st₀ : State) (h : History) : Prop := Found h ∨ Left h ∨ st₀.Ready

theorem npFlag_of_run {ls : List Op} (hr : Run Step init ls st) :
    st.task ≠ .user → st.npFlag = 0 := by
  apply hr.invariant (I := fun st => st.task ≠ .user → st.npFlag = 0)
  · intro s op t hs hst
    cases op with
    | task op => exact npFlag_of_task hst hs
    | remote op =>
      obtain ⟨hta, hnp, -⟩ := task_of_remote hst
      rw [hta, hnp]
      exact hs
  intro hne
  exact absurd rfl hne

theorem retest_of_idle {op : Op} (hs : Step st op st') (hst : st.remote ≠ .idle)
    (hst' : st'.remote = .idle) :
    op = .remote .retest ∧ st.remote = .retesting ∧ st'.sendIpi = !st.isUserNp := by
  cases op with
  | task op => exact absurd ((remote_of_task hs).symm.trans hst') hst
  | remote op =>
    rcases execRemote_cases hs with ⟨-, hidl, -⟩ | ⟨-, -, rfl⟩ | ⟨-, -, rfl⟩ | ⟨-, -, rfl⟩ |
      ⟨rfl, hpc, rfl⟩
    · exact absurd hidl hst
    · split at hst' <;> cases hst'
    · split at hst' <;> cases hst'
    · cases hst'
    · exact ⟨rfl, hpc, rfl⟩

theorem pending_of_ready (hr : st.Ready) (hnp : st.isUserNp = true) : st.Pending := by
  refine ⟨hr.1, ?_⟩
  unfold inSection
  rw [hnp]
  rfl

/-- Exactly the covered calls deliver the preemption.  Where the flag was set in a section, the
    task yields at the end of that section. -/
theorem preemption_delivered_iff {ls : List Op} (hreach : Run Step init ls st₀)
    (hcall : st₀.remote = .testing) (hrun : Run (Recorded Step) st₀ h st)
    (hbusy : ∀ p ∈ h, p.1.remote ≠ .idle) (hreturn : st.remote = .idle) :
    (Delivered h st ↔ Covered st₀ h) ∧
      ∀ p ∈ h, p.1.Pending → ∀ {ls st'}, Run Step p.1 ls st' → .task .yield ∉ ls → st'.Due := by
  refine ⟨?_, fun p _ hpend ls st' hrun hyield => due_of_run hrun hyield hpend⟩
  cases hrun with
  | nil => cases hcall.symm.trans hreturn
  | @snoc u _ h p hrun hlast =>
    obtain ⟨s, op⟩ := p
    obtain ⟨rfl, hstep⟩ := hlast
    have hs : s.remote ≠ .idle := hbusy (s, op) (by simp)
    have hp := Progress.of_run (npFlag_of_run hreach) hcall hrun
      (fun p hm => hbusy p (mem_append_left _ hm)) hs
    obtain ⟨rfl, hpc, hipi⟩ := retest_of_idle hstep hs hreturn
    have hfound : Found (h ++ [(s, .remote .retest)]) ↔ Found h := by
      rw [found_snoc]
      refine and_iff_left ?_
      intro hop
      rcases hop with hop | hop <;> cases hop
    have hleft : Left (h ++ [(s, .remote .retest)]) ↔ s.isUserNp = false := by
      unfold Left
      rw [forall_mem_append, forall_mem_singleton]
      constructor
      · intro hl
        exact hl.2 rfl
      intro hnp
      exact ⟨fun p hm hop => absurd hop (hp.no_retest p hm), fun _ => hnp⟩
    unfold Delivered Covered
    rw [hfound, hleft, noticed_snoc, hipi, Bool.not_eq_true']
    -- a flag that is set is found, or an IPI is sent
    have hready : Noticed h ∨ s.Ready → s.isUserNp = false ∨ Noticed h ∨ s.Pending := by
      intro hr
      rcases hr with hn | hr
      · exact .inr (.inl hn)
      cases hnp : s.isUserNp with
      | false => exact .inl rfl
      | true => exact .inr (.inr (pending_of_ready hr hnp))
    constructor
    · rintro (hnp | hn)
      · exact .inr (.inl hnp)
      by_contra hnot
      rw [not_or, not_or] at hnot
      obtain ⟨hnf, -, hnr⟩ := hnot
      obtain ⟨hnn, hunset⟩ := hp.unset hnr (.inr hnf)
      rcases hn with hn | hpend
      · exact hnn hn
      exact hunset (ready_of_pending hp.npFlag_eq hpend)
    rintro (hf | hnp | hr)
    · exact hready (hp.written hpc hf)
    · exact .inl hnp
    exact hready (hp.kept hr)

end

def page (np : Nat) (flag : Bool) (task : TaskPc) (remote : RemotePc) : State where
  npFlag := np
  delayedPreemption := flag
  needResched := false
  task := task
  remote := remote
  sendIpi := false

/-- The task is in a section during the whole call. -/
theorem preemption_delivered_in_section :
    ∃ (st₀ : State) (h : History) (st : State),
      Run Step init [.task .enterNp, .remote .call] st₀ ∧
      Run (Recorded Step) st₀ h st ∧ st.sendIpi = false ∧ Covered st₀ h ∧ Delivered h st := by
  have hreach : Run Step init [.task .enterNp, .remote .call] (page 1 false .user .testing) :=
    .cons (t := page 1 false .user .idle) rfl (.cons rfl .nil)
  have hrun : Run (Recorded Step) (page 1 false .user .testing)
      [(page 1 false .user .testing, .remote .test),
        (page 1 false .user .requesting, .remote .request),
        (page 1 false .user .setting, .remote .set),
        (page 1 true .user .retesting, .remote .retest)] (page 1 true .user .idle) :=
    .cons ⟨rfl, rfl⟩ (.cons ⟨rfl, rfl⟩ (.cons ⟨rfl, rfl⟩ (.cons ⟨rfl, rfl⟩ .nil)))
  have hiff := (preemption_delivered_iff hreach rfl hrun (by decide) rfl).1
  have hcovered : Covered (page 1 false .user .testing)
      [(page 1 false .user .testing, .remote .test),
        (page 1 false .user .requesting, .remote .request),
        (page 1 false .user .setting, .remote .set),
        (page 1 true .user .retesting, .remote .retest)] := by
    left
    unfold Found
    decide
  exact ⟨_, _, _, hreach, hrun, rfl, hcovered, hiff.mpr hcovered⟩

/-- The task enters a section between the test and the re-test: no IPI is sent, the flag is
    not set, and the task leaves the section without a yield. -/
theorem preemption_lost_on_entry :
    ∃ (st₀ : State) (h : History) (st st' : State), Run Step init [.remote .call] st₀ ∧
      Run (Recorded Step) st₀ h st ∧
      h.map Prod.snd = [.remote .test, .task .enterNp, .remote .retest] ∧
      ¬ Delivered h st ∧
      Run Step st [.task .exitNp, .task .check] st' ∧ st'.task = .user := by
  have hrun : Run (Recorded Step) (page 0 false .user .testing)
      [(page 0 false .user .testing, .remote .test),
        (page 0 false .user .retesting, .task .enterNp),
        (page 1 false .user .retesting, .remote .retest)] (page 1 false .user .idle) :=
    .cons ⟨rfl, rfl⟩ (.cons ⟨rfl, rfl⟩ (.cons ⟨rfl, rfl⟩ .nil))
  have hexit : Run Step (page 1 false .user .idle) [.task .exitNp, .task .check]
      (page 0 false .user .idle) :=
    .cons (t := page 0 false .checking .idle) rfl (.cons rfl .nil)
  refine ⟨_, _, _, _, .cons rfl .nil, hrun, rfl, ?_, hexit, rfl⟩
  unfold Delivered Noticed State.Pending
  decide

end Litmus.NpPreemption
