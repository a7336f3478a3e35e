import Litmus.Runs
import Mathlib.Logic.Function.Basic

/-!
# The quanta of PFAIR

How `pfair_tick` of `sched_pfair.c` advances time.  A CPU that wins the `cmpxchg` on
`pfair_time` schedules the quantum it has won; the other CPUs wait for their `cur_tick`.  A
CPU that finds the whole system behind catches up quantum by quantum.  Each access to
`pfair_time` and to a `cur_tick` is one step, and the ticks are published one by one with
`pfair_lock` held.
-/

namespace Litmus.PfairTick

open Runs Function

/-- Who has called `schedule_next_quantum`. -/
inductive Caller where
  | tick
  | catchup (target retry : Nat)
deriving DecidableEq

/-- Where a CPU is in `pfair_tick`. -/
inductive Pc where
  | idle
  /-- before `current_quantum` -/
  | read (retry : Nat)
  /-- before the `cmpxchg` from `cur - 1` to `cur` -/
  | swap (cur retry : Nat)
  /-- the exchange succeeded: in `wait_for_quantum(cur - 1)` -/
  | won (cur : Nat)
  /-- in `schedule_next_quantum(q)`, before `pfair_lock` -/
  | lock (q : Nat) (caller : Caller)
  /-- with `pfair_lock` held, the first `i` ticks are published -/
  | publish (q i : Nat) (caller : Caller)
  /-- at the loop condition of `catchup_quanta` -/
  | catchup (cur target retry : Nat)
  /-- in `wait_for_quantum(cur)` of `catchup_quanta` -/
  | catchupWait (cur target retry : Nat)
  /-- before the `cmpxchg` from `cur` to `cur + 1` -/
  | catchupSwap (cur target retry : Nat)
  /-- in the `wait_for_quantum(cur)` at the end of `pfair_tick` -/
  | observe (cur : Nat)
deriving DecidableEq

/-- The fields of `struct pfair_state` that have to do with time. -/
structure Cpu where
  curTick : Nat
  localTick : Nat
  missedQuanta : Nat
  /-- the last value of `current_quantum` -/
  clock : Nat
  pc : Pc
deriving DecidableEq

structure State (n : Nat) where
  pfairTime : Nat
  /-- `pfair_lock` -/
  locked : Bool
  cpu : Fin n → Cpu

inductive Op (n : Nat) where
  /-- a timer interrupt -/
  | tick (c : Fin n)
  /-- `current_quantum` returns `q` -/
  | read (c : Fin n) (q : Nat)
  | step (c : Fin n)
deriving DecidableEq

/-- `retry--` and the loop condition of `pfair_tick`. -/
def again (cur retry : Nat) : Pc := if retry - 1 = 0 then .observe cur else .read (retry - 1)

/-- Where `schedule_next_quantum(q)` returns to. -/
def Caller.resume (q : Nat) : Caller → Pc
  | .tick => .observe q
  | .catchup target retry => .catchup q target retry

namespace State

variable {n : Nat}

def setCpu (c : Fin n) (p : Cpu) (st : State n) : State n :=
  { st with cpu := update st.cpu c p }

def goto (c : Fin n) (pc : Pc) (st : State n) : State n := st.setCpu c { st.cpu c with pc := pc }

/-- The `cmpxchg` of `pfair_tick` and the tests that follow it. -/
def advance (c : Fin n) (cur retry : Nat) (st : State n) : State n :=
  if st.pfairTime = cur - 1 then { st with pfairTime := cur }.goto c (.won cur)
  else if st.pfairTime < cur - 1 then st.goto c (.catchup st.pfairTime cur retry)
  else if cur < st.pfairTime then st.goto c (again cur retry)
  else st.goto c (.observe cur)

/-- The `cmpxchg` of `catchup_quanta`. -/
def advanceCatchup (c : Fin n) (cur target retry : Nat) (st : State n) : State n :=
  if st.pfairTime = cur then
    { st with pfairTime := cur + 1 }.goto c (.lock (cur + 1) (.catchup target retry))
  else st.goto c (.catchup (cur + 1) target retry)

/-- One look at `cur_tick` in `wait_for_quantum(q)`. -/
def waitFor (c : Fin n) (q : Nat) (pc : Pc) (st : State n) : State n :=
  if (st.cpu c).curTick < q then st else st.goto c pc

/-- CPU `i` learns about quantum `q`. -/
def publish (i : Fin n) (q : Nat) (st : State n) : State n :=
  st.setCpu i { st.cpu i with
    missedQuanta := (st.cpu i).missedQuanta +
      if (st.cpu i).localTick ≠ (st.cpu i).curTick then 1 else 0
    curTick := q }

/-- The end of `pfair_tick`. -/
def acknowledge (c : Fin n) (st : State n) : State n :=
  st.setCpu c { st.cpu c with localTick := (st.cpu c).curTick, pc := .idle }

/-- One step of CPU `c`; `none` means that it waits for `pfair_lock`, or for an input. -/
def step (c : Fin n) (st : State n) : Option (State n) :=
  match (st.cpu c).pc with
  | .idle => none
  | .read _ => none
  | .swap cur retry => some (st.advance c cur retry)
  | .won cur => some (st.waitFor c (cur - 1) (.lock cur .tick))
  | .lock q caller =>
      if st.locked then none else some ({ st with locked := true }.goto c (.publish q 0 caller))
  | .publish q i caller =>
      if h : i < n then some ((st.publish ⟨i, h⟩ q).goto c (.publish q (i + 1) caller))
      else some ({ st with locked := false }.goto c (caller.resume q))
  | .catchup cur target retry =>
      some (st.goto c (if cur < target then .catchupWait cur target retry else again target retry))
  | .catchupWait cur target retry =>
      some (st.waitFor c cur (.catchupSwap cur target retry))
  | .catchupSwap cur target retry => some (st.advanceCatchup c cur target retry)
  | .observe cur =>
      some (if (st.cpu c).curTick < cur then st else st.acknowledge c)

def exec (st : State n) : Op n → Option (State n)
  | .tick c => if (st.cpu c).pc = .idle then some (st.goto c (.read 10)) else none
  | .read c q =>
      match (st.cpu c).pc with
      | .read retry =>
          -- quantum numbers are positive, and the clock of a CPU does not go back
          if 0 < q ∧ (st.cpu c).clock ≤ q then
            some (st.setCpu c { st.cpu c with clock := q, pc := .swap q retry })
          else none
      | _ => none
  | .step c => st.step c

/-- `pfair_activate_plugin` in quantum `q` -/
def activate (q : Nat) (clock : Fin n → Nat) : State n where
  pfairTime := q
  locked := false
  cpu c := { curTick := q, localTick := q, missedQuanta := 0, clock := clock c, pc := .idle }

/-- The quantum whose `schedule_next_quantum` starts with this step. -/
def started (st : State n) : Op n → Option Nat
  | .step c =>
      match (st.cpu c).pc with
      | .lock q _ => if st.locked then none else some q
      | _ => none
  | _ => none

end State

def Step {n : Nat} (st : State n) (op : Op n) (st' : State n) : Prop := st.exec op = some st'

/-! ### The invariant -/

/-- The quantum that a CPU has won and not yet started to schedule. -/
def Pc.owned : Pc → Option Nat
  | .won q => some q
  | .lock q _ => some q
  | _ => none

def Pc.isPublish : Pc → Bool
  | .publish _ _ _ => true
  | _ => false

/-- What a CPU knows when the quanta up to `last` have been started. -/
def Pc.Fits (last time : Nat) : Pc → Prop
  | .swap cur _ => 0 < cur
  | .won q => last < q ∧ q ≤ time
  | .lock q _ => q = last + 1 ∧ q ≤ time
  | .catchupSwap cur _ _ => cur ≤ last
  | _ => True

/-- Every tick is that of the last quantum, or those of the first `i` CPUs are and the others
    are one behind. -/
def Published {n : Nat} (last : Nat) (st : State n) : Prop :=
  (st.locked = false ∧ (∀ c, (st.cpu c).curTick = last) ∧ ∀ c, (st.cpu c).pc.isPublish = false) ∨
  (st.locked = true ∧ ∃ h i caller, (st.cpu h).pc = .publish last i caller ∧
    (∀ c : Fin n, (st.cpu c).curTick = if c.val < i then last else last - 1) ∧
    ∀ c, c ≠ h → (st.cpu c).pc.isPublish = false)

structure Inv {n : Nat} (last : Nat) (st : State n) : Prop where
  le_time : last ≤ st.pfairTime
  fits : ∀ c, (st.cpu c).pc.Fits last st.pfairTime
  unique : ∀ c c' q, (st.cpu c).pc.owned = some q → (st.cpu c').pc.owned = some q → c = c'
  published : Published last st

section

variable {n : Nat} {last : Nat} {st : State n} {c : Fin n} {pc : Pc} {time q i : Nat}
  {caller : Caller} {st' : State n}

theorem Inv.activate (q : Nat) (clock : Fin n → Nat) : Inv q (State.activate q clock) where
  le_time := Nat.le_refl q
  fits _ := trivial
  unique c c' r h _ := by cases h
  published := .inl ⟨rfl, fun _ => rfl, fun _ => rfl⟩

theorem Inv.curTick_le (h : Inv last st) (c : Fin n) : (st.cpu c).curTick ≤ last := by
  rcases h.published with ⟨-, hti, -⟩ | ⟨-, _, i, _, -, hti, -⟩
  · exact Nat.le_of_eq (hti c)
  rw [hti c]
  split <;> omega

theorem owned_bounds (hfi : pc.Fits last time) (hq : pc.owned = some q) : last < q ∧ q ≤ time := by
  cases pc <;> simp only [Pc.owned, Option.some.injEq, reduceCtorEq] at hq <;> subst hq
  · exact hfi
  obtain ⟨rfl, hle⟩ := hfi
  exact ⟨Nat.lt_succ_self last, hle⟩

theorem Pc.Fits.mono {time' : Nat} (h : pc.Fits last time) (hle : time ≤ time') :
    pc.Fits last time' := by
  cases pc <;> simp only [Pc.Fits] at h ⊢ <;> omega

theorem cpu_setCpu_self (p : Cpu) : (st.setCpu c p).cpu c = p := update_self ..

theorem cpu_setCpu_of_ne (p : Cpu) {d : Fin n} (hd : d ≠ c) :
    (st.setCpu c p).cpu d = st.cpu d := update_of_ne hd ..

/-- A step in which only CPU `c` moves, which neither leaves nor enters the section.  It may
    win a quantum that nobody has won. -/
theorem Inv.move (h : Inv last st) {p : Cpu} (hle : st.pfairTime ≤ time)
    (htic : p.curTick = (st.cpu c).curTick) (hold : (st.cpu c).pc.isPublish = false)
    (hnw : p.pc.isPublish = false) (hfit : p.pc.Fits last time)
    (hown : ∀ q, p.pc.owned = some q → (st.cpu c).pc.owned = some q ∨ st.pfairTime < q) :
    Inv last ({ st with pfairTime := time }.setCpu c p) := by
  have htk : ∀ d, ((({ st with pfairTime := time } : State n).setCpu c p).cpu d).curTick =
      (st.cpu d).curTick := by
    intro d
    by_cases hd : d = c
    · subst hd
      rw [cpu_setCpu_self, htic]
    rw [cpu_setCpu_of_ne p hd]
  have hpu : ∀ d, (st.cpu d).pc.isPublish = false →
      ((({ st with pfairTime := time } : State n).setCpu c p).cpu d).pc.isPublish = false := by
    intro d hd'
    by_cases hd : d = c
    · subst hd
      rwa [cpu_setCpu_self]
    rwa [cpu_setCpu_of_ne p hd]
  -- a quantum that `c` owns afterwards is not owned by another CPU
  have ho : ∀ d q, d ≠ c → (st.cpu d).pc.owned = some q → p.pc.owned ≠ some q := by
    intro d q hd hdq hq
    rcases hown q hq with hcq | hlt
    · exact hd (h.unique d c q hdq hcq)
    exact absurd (owned_bounds (h.fits d) hdq).2 (Nat.not_le.mpr hlt)
  refine ⟨Nat.le_trans h.le_time hle, ?_, ?_, ?_⟩
  · intro d
    by_cases hd : d = c
    · subst hd
      rwa [cpu_setCpu_self]
    rw [cpu_setCpu_of_ne p hd]
    exact (h.fits d).mono hle
  · intro d d' q hdq hdq'
    by_cases hd : d = c <;> by_cases hd' : d' = c
    · rw [hd, hd']
    · subst hd
      rw [cpu_setCpu_self] at hdq
      rw [cpu_setCpu_of_ne p hd'] at hdq'
      exact absurd hdq (ho d' q hd' hdq')
    · subst hd'
      rw [cpu_setCpu_of_ne p hd] at hdq
      rw [cpu_setCpu_self] at hdq'
      exact absurd hdq' (ho d q hd hdq)
    · rw [cpu_setCpu_of_ne p hd] at hdq
      rw [cpu_setCpu_of_ne p hd'] at hdq'
      exact h.unique d d' q hdq hdq'
  rcases h.published with ⟨hfr, htick', hn⟩ | ⟨hh, holder, i, caller, hpc, htick', hn⟩
  · exact .inl ⟨hfr, fun d => (htk d).trans (htick' d), fun d => hpu d (hn d)⟩
  have hne : holder ≠ c := by
    rintro rfl
    rw [hpc] at hold
    cases hold
  refine .inr ⟨hh, holder, i, caller, ?_, fun d => (htk d).trans (htick' d),
    fun d hd => hpu d (hn d hd)⟩
  rw [cpu_setCpu_of_ne p hne]
  exact hpc

theorem Inv.goto (h : Inv last st) (hold : (st.cpu c).pc.isPublish = false)
    (hnw : pc.isPublish = false) (hfit : pc.Fits last st.pfairTime)
    (hown : pc.owned = none ∨ pc.owned = (st.cpu c).pc.owned) : Inv last (st.goto c pc) := by
  refine h.move (p := { st.cpu c with pc := pc }) (Nat.le_refl _) rfl hold hnw hfit ?_
  intro q hq
  rcases hown with hn | heq
  · rw [hn] at hq
    cases hq
  exact .inl (heq ▸ hq)

theorem again_isPublish (cur retry : Nat) : (again cur retry).isPublish = false := by
  unfold again
  split <;> rfl

theorem again_owned (cur retry : Nat) : (again cur retry).owned = none := by
  unfold again
  split <;> rfl

theorem again_fits (cur retry time : Nat) : (again cur retry).Fits last time := by
  unfold again
  split <;> trivial

/-! ### Steps outside the section -/

theorem Inv.advance (h : Inv last st) {cur retry : Nat} (hpc : (st.cpu c).pc = .swap cur retry) :
    Inv last (st.advance c cur retry) := by
  have hold : (st.cpu c).pc.isPublish = false := by
    rw [hpc]
    rfl
  have hp : 0 < cur := by
    have := h.fits c
    rwa [hpc] at this
  have hle := h.le_time
  unfold State.advance
  split
  · refine h.move (p := { st.cpu c with pc := .won cur }) (by omega) rfl hold rfl
      (show last < cur ∧ cur ≤ cur by omega) ?_
    intro q hq
    cases hq
    exact .inr (by omega)
  split
  · exact h.goto hold rfl trivial (.inl rfl)
  split
  · exact h.goto hold (again_isPublish _ _) (again_fits _ _ _) (.inl (again_owned _ _))
  exact h.goto hold rfl trivial (.inl rfl)

theorem Inv.advanceCatchup (h : Inv last st) {cur target retry : Nat}
    (hpc : (st.cpu c).pc = .catchupSwap cur target retry) :
    Inv last (st.advanceCatchup c cur target retry) := by
  have hold : (st.cpu c).pc.isPublish = false := by
    rw [hpc]
    rfl
  have hcur : cur ≤ last := by
    have := h.fits c
    rwa [hpc] at this
  have hle := h.le_time
  unfold State.advanceCatchup
  split
  · -- nobody has won a quantum after the last one, and `c` has seen the last one published
    refine h.move (p := { st.cpu c with pc := .lock (cur + 1) (.catchup target retry) })
      (by omega) rfl hold rfl (show cur + 1 = last + 1 ∧ cur + 1 ≤ cur + 1 by omega) ?_
    intro q hq
    cases hq
    exact .inr (by omega)
  exact h.goto hold rfl trivial (.inl rfl)

/-! ### The section -/

/-- The section of a new quantum begins: only the CPU that has won it can take the lock, and
    all ticks are those of the quantum before. -/
theorem Inv.start (h : Inv last st) (hpc : (st.cpu c).pc = .lock q caller)
    (hfr : st.locked = false) : q = last + 1 ∧ (∀ d, (st.cpu d).curTick = last) ∧
      Inv (last + 1) ({ st with locked := true }.goto c (.publish q 0 caller)) := by
  obtain ⟨rfl, hle⟩ : q = last + 1 ∧ q ≤ st.pfairTime := by
    have := h.fits c
    rwa [hpc] at this
  obtain ⟨htk, hn⟩ : (∀ d, (st.cpu d).curTick = last) ∧
      ∀ d, (st.cpu d).pc.isPublish = false := by
    rcases h.published with ⟨-, htk, hn⟩ | ⟨hh, -⟩
    · exact ⟨htk, hn⟩
    rw [hfr] at hh
    cases hh
  have hc : ∀ d, d ≠ c → (({ st with locked := true } : State n).goto c
      (.publish (last + 1) 0 caller)).cpu d = st.cpu d := fun d hd => cpu_setCpu_of_ne _ hd
  have hse : ((({ st with locked := true } : State n).goto c
      (.publish (last + 1) 0 caller)).cpu c).pc = .publish (last + 1) 0 caller := by
    rw [State.goto, cpu_setCpu_self]
  have hown : (st.cpu c).pc.owned = some (last + 1) := by
    rw [hpc]
    rfl
  refine ⟨rfl, htk, hle, ?_, ?_, .inr ⟨rfl, c, 0, caller, hse, ?_, ?_⟩⟩
  · intro d
    by_cases hd : d = c
    · subst hd
      rw [hse]
      trivial
    rw [hc d hd]
    have hfi := h.fits d
    have hne : (st.cpu d).pc.owned ≠ some (last + 1) := fun hd' =>
      hd (h.unique d c _ hd' hown)
    cases hdp : (st.cpu d).pc with
    | won r =>
      rw [hdp] at hfi hne
      have hr : r ≠ last + 1 := fun hr => hne (congrArg some hr)
      obtain ⟨hlt, hler⟩ : last < r ∧ r ≤ st.pfairTime := hfi
      exact ⟨by omega, hler⟩
    | lock r caller' =>
      rw [hdp] at hfi hne
      exact absurd (congrArg some hfi.1) hne
    | catchupSwap cur target retry =>
      rw [hdp] at hfi
      exact Nat.le_succ_of_le hfi
    | swap cur retry =>
      rw [hdp] at hfi
      exact hfi
    | _ => trivial
  · intro d d' q hdq hdq'
    have hd : d ≠ c := by
      rintro rfl
      rw [hse] at hdq
      cases hdq
    have hd' : d' ≠ c := by
      rintro rfl
      rw [hse] at hdq'
      cases hdq'
    rw [hc d hd] at hdq
    rw [hc d' hd'] at hdq'
    exact h.unique d d' q hdq hdq'
  · intro d
    by_cases hd : d = c
    · subst hd
      rw [State.goto, cpu_setCpu_self]
      exact htk d
    rw [hc d hd]
    exact htk d
  · intro d hd
    rw [hc d hd]
    exact hn d

theorem Inv.holder (h : Inv last st) (hpc : (st.cpu c).pc = .publish q i caller) :
    st.locked = true ∧ q = last ∧
      (∀ d : Fin n, (st.cpu d).curTick = if d.val < i then last else last - 1) ∧
      ∀ d, d ≠ c → (st.cpu d).pc.isPublish = false := by
  rcases h.published with ⟨-, -, hn⟩ | ⟨hh, holder, j, caller', hpc', htk, hn⟩
  · have hc := hn c
    rw [hpc] at hc
    cases hc
  obtain rfl : c = holder := by
    by_contra hne
    have hc := hn c hne
    rw [hpc] at hc
    cases hc
  rw [hpc] at hpc'
  cases hpc'
  exact ⟨hh, rfl, htk, hn⟩

theorem Inv.hold (h : Inv last st) (hti : st'.pfairTime = st.pfairTime)
    (ho : ∀ d, d ≠ c → (st'.cpu d).pc = (st.cpu d).pc)
    (hfit : (st'.cpu c).pc.Fits last st.pfairTime) (hown : (st'.cpu c).pc.owned = none)
    (hpub : Published last st') : Inv last st' := by
  have hne : ∀ d q, (st'.cpu d).pc.owned = some q → d ≠ c := by
    rintro d q hq rfl
    rw [hown] at hq
    cases hq
  refine ⟨hti ▸ h.le_time, ?_, ?_, hpub⟩
  · intro d
    rw [hti]
    by_cases hd : d = c
    · subst hd
      exact hfit
    rw [ho d hd]
    exact h.fits d
  intro d d' q hdq hdq'
  rw [ho d (hne d q hdq)] at hdq
  rw [ho d' (hne d' q hdq')] at hdq'
  exact h.unique d d' q hdq hdq'

theorem pc_publish (i : Fin n) (q : Nat) (d : Fin n) :
    ((st.publish i q).cpu d).pc = (st.cpu d).pc := by
  by_cases hd : d = i
  · subst hd
    rw [State.publish, cpu_setCpu_self]
  rw [State.publish, cpu_setCpu_of_ne _ hd]

theorem curTick_publish (i : Fin n) (q : Nat) (d : Fin n) :
    ((st.publish i q).cpu d).curTick = if d = i then q else (st.cpu d).curTick := by
  by_cases hd : d = i
  · subst hd
    rw [State.publish, cpu_setCpu_self, if_pos rfl]
  rw [State.publish, cpu_setCpu_of_ne _ hd, if_neg hd]

theorem curTick_goto (pc : Pc) (d : Fin n) :
    ((st.goto c pc).cpu d).curTick = (st.cpu d).curTick := by
  by_cases hd : d = c
  · subst hd
    rw [State.goto, cpu_setCpu_self]
  rw [State.goto, cpu_setCpu_of_ne _ hd]

theorem pc_goto_self (pc : Pc) : ((st.goto c pc).cpu c).pc = pc := by
  rw [State.goto, cpu_setCpu_self]

theorem pc_goto_of_ne (pc : Pc) {d : Fin n} (hd : d ≠ c) :
    ((st.goto c pc).cpu d).pc = (st.cpu d).pc := by
  rw [State.goto, cpu_setCpu_of_ne _ hd]

theorem Inv.publishNext (h : Inv last st) (hpc : (st.cpu c).pc = .publish q i caller) (hi : i < n) :
    Inv last ((st.publish ⟨i, hi⟩ q).goto c (.publish q (i + 1) caller)) := by
  obtain ⟨hh, rfl, htk, hn⟩ := h.holder hpc
  have ho : ∀ d, d ≠ c → (((st.publish ⟨i, hi⟩ q).goto c
      (.publish q (i + 1) caller)).cpu d).pc = (st.cpu d).pc := by
    intro d hd
    rw [pc_goto_of_ne _ hd, pc_publish]
  refine h.hold rfl ho ?_ ?_ (.inr ⟨hh, c, i + 1, caller, pc_goto_self _, ?_, ?_⟩)
  · rw [pc_goto_self]
    trivial
  · rw [pc_goto_self]
    rfl
  · intro d
    rw [curTick_goto, curTick_publish, htk d]
    by_cases hd : d = ⟨i, hi⟩
    · subst hd
      simp
    have hne : d.val ≠ i := fun heq => hd (Fin.ext heq)
    rw [if_neg hd]
    split <;> split <;> omega
  · intro d hd
    rw [ho d hd]
    exact hn d hd

theorem resume_isPublish (q : Nat) (caller : Caller) : (caller.resume q).isPublish = false := by
  cases caller <;> rfl

theorem resume_owned (q : Nat) (caller : Caller) : (caller.resume q).owned = none := by
  cases caller <;> rfl

theorem resume_fits (q time : Nat) (caller : Caller) : (caller.resume q).Fits last time := by
  cases caller <;> trivial

theorem Inv.unlock (h : Inv last st) (hpc : (st.cpu c).pc = .publish q i caller) (hi : ¬i < n) :
    Inv last ({ st with locked := false }.goto c (caller.resume q)) := by
  obtain ⟨hh, rfl, htk, hn⟩ := h.holder hpc
  refine h.hold rfl (fun d hd => pc_goto_of_ne _ hd) ?_ ?_ (.inl ⟨rfl, ?_, ?_⟩)
  · rw [pc_goto_self]
    exact resume_fits _ _ _
  · rw [pc_goto_self]
    exact resume_owned _ _
  · intro d
    have hlt : d.val < i := Nat.lt_of_lt_of_le d.isLt (Nat.not_lt.mp hi)
    rw [curTick_goto]
    exact (htk d).trans (if_pos hlt)
  · intro d
    by_cases hd : d = c
    · subst hd
      rw [pc_goto_self]
      exact resume_isPublish _ _
    rw [pc_goto_of_ne _ hd]
    exact hn d hd

/-! ### Runs -/

theorem Inv.step_cpu (h : Inv last st) (hs : st.step c = some st') :
    (st.started (.step c) = none ∧ Inv last st') ∨
      (st.started (.step c) = some (last + 1) ∧ (∀ d, (st.cpu d).curTick = last) ∧
        Inv (last + 1) st') := by
  have hle := h.curTick_le c
  unfold State.step at hs
  split at hs <;> rename_i hpc
  · cases hs
  · cases hs
  · cases hs
    exact .inl ⟨by simp [State.started, hpc], h.advance hpc⟩
  · cases hs
    refine .inl ⟨by simp [State.started, hpc], ?_⟩
    unfold State.waitFor
    split
    · exact h
    -- the tick that `c` waited for has been published
    rename_i cur hse
    have hfi := h.fits c
    rw [hpc] at hfi
    obtain ⟨hlt, hcur⟩ : last < cur ∧ cur ≤ st.pfairTime := hfi
    refine h.goto (by simp [hpc, Pc.isPublish]) rfl ⟨?_, hcur⟩ (.inr (by simp [hpc, Pc.owned]))
    omega
  · split at hs
    · cases hs
    rename_i q caller hfr
    cases hs
    have hfr : st.locked = false := by simpa using hfr
    obtain ⟨rfl, htk, hI⟩ := h.start hpc hfr
    exact .inr ⟨by simp [State.started, hpc, hfr], htk, hI⟩
  · refine .inl ⟨by simp [State.started, hpc], ?_⟩
    split at hs <;> cases hs
    · exact h.publishNext hpc _
    rename_i hi
    exact h.unlock hpc hi
  · cases hs
    refine .inl ⟨by simp [State.started, hpc], ?_⟩
    have hold : (st.cpu c).pc.isPublish = false := by simp [hpc, Pc.isPublish]
    split
    · exact h.goto hold rfl trivial (.inl rfl)
    exact h.goto hold (again_isPublish _ _) (again_fits _ _ _) (.inl (again_owned _ _))
  · cases hs
    refine .inl ⟨by simp [State.started, hpc], ?_⟩
    unfold State.waitFor
    split
    · exact h
    rename_i cur target retry hse
    refine h.goto (by simp [hpc, Pc.isPublish]) rfl ?_ (.inl rfl)
    exact Nat.le_trans (Nat.not_lt.mp hse) hle
  · cases hs
    exact .inl ⟨by simp [State.started, hpc], h.advanceCatchup hpc⟩
  · cases hs
    refine .inl ⟨by simp [State.started, hpc], ?_⟩
    split
    · exact h
    exact h.move (Nat.le_refl _) rfl (by simp [hpc, Pc.isPublish]) rfl trivial
      (fun q hq => by cases hq)

theorem Inv.exec (h : Inv last st) {op : Op n} (hs : Step st op st') :
    (st.started op = none ∧ Inv last st') ∨
      (st.started op = some (last + 1) ∧ (∀ d, (st.cpu d).curTick = last) ∧
        Inv (last + 1) st') := by
  cases op with
  | tick c =>
    simp only [Step, State.exec] at hs
    split at hs <;> cases hs
    rename_i hpc
    exact .inl ⟨rfl, h.goto (by simp [hpc, Pc.isPublish]) rfl trivial (.inl rfl)⟩
  | read c q =>
    simp only [Step, State.exec] at hs
    split at hs
    · rename_i retry hpc
      split at hs <;> cases hs
      rename_i hq
      exact .inl ⟨rfl, h.move (Nat.le_refl _) rfl (by simp [hpc, Pc.isPublish]) rfl hq.1
        (fun q hq => by cases hq)⟩
    cases hs
  | step c => exact h.step_cpu hs

end

/-- Quanta are scheduled one after the other, each once and none skipped, and each only after
    the quantum before it has been published as the tick of every CPU. -/
theorem pfair_quanta_in_order {n : Nat} (q₀ : Nat) (clock : Fin n → Nat)
    {ls : List (State n × Op n)} {st : State n}
    (hrun : Run (Recorded Step) (State.activate q₀ clock) ls st) :
    (∃ k, ls.filterMap (fun p => p.1.started p.2) = List.range' (q₀ + 1) k) ∧
      ∀ p ∈ ls, ∀ q, p.1.started p.2 = some (q + 1) → ∀ c, (p.1.cpu c).curTick = q := by
  -- the invariant for the last quantum of the list carries the induction on the run
  suffices hI : ∃ k, ls.filterMap (fun p => p.1.started p.2) = List.range' (q₀ + 1) k ∧
      (∀ p ∈ ls, ∀ q, p.1.started p.2 = some (q + 1) → ∀ c, (p.1.cpu c).curTick = q) ∧
      Inv (q₀ + k) st by
    obtain ⟨k, hlist, hticks, -⟩ := hI
    exact ⟨⟨k, hlist⟩, hticks⟩
  induction hrun with
  | nil => exact ⟨0, rfl, by simp, Inv.activate q₀ clock⟩
  | @snoc s u ls p _ hlast ih =>
    obtain ⟨k, hlist, hticks, hI⟩ := ih
    obtain ⟨rfl, hs⟩ := hlast
    have happend : (∀ q, p.1.started p.2 = some (q + 1) → ∀ c, (p.1.cpu c).curTick = q) →
        ∀ p' ∈ ls ++ [p], ∀ q, p'.1.started p'.2 = some (q + 1) →
          ∀ c, (p'.1.cpu c).curTick = q := by
      intro hp p' hp' q hq
      rcases List.mem_append.mp hp' with hold | hnew
      · exact hticks p' hold q hq
      rw [List.mem_singleton] at hnew
      subst hnew
      exact hp q hq
    rcases hI.exec hs with ⟨hn, hinv'⟩ | ⟨hsome, hall, hinv'⟩
    · refine ⟨k, ?_, happend ?_, hinv'⟩
      · simp [hlist, hn]
      intro q hq
      rw [hn] at hq
      cases hq
    refine ⟨k + 1, ?_, happend ?_, hinv'⟩
    · simp [hlist, hsome, List.range'_concat]
      omega
    intro q hq c
    rw [hsome] at hq
    cases hq
    exact hall c

/-- CPU 0 finds the system two quanta behind and catches up.  CPU 1 wins the second one and
    waits until CPU 0 has published the first. -/
theorem pfair_quanta_in_order_catchup :
    ∃ (ls : List (State 2 × Op 2)) (st : State 2),
      Run (Recorded Step) (State.activate 5 fun _ => 5) ls st ∧
      ls.filterMap (fun p => p.1.started p.2) = [6, 7] ∧
      ∀ p ∈ ls, ∀ q, p.1.started p.2 = some (q + 1) → ∀ c, (p.1.cpu c).curTick = q := by
  obtain ⟨ls, st, hrun, hcheck⟩ := Run.of_recordAll_check State.exec
    [.tick 0, .read 0 7, .step 0, .step 0, .step 0, .step 0, .tick 1, .read 1 7, .step 1,
      .step 1, .step 0, .step 0, .step 0, .step 0, .step 1, .step 1, .step 1, .step 1, .step 1]
    (State.activate 5 fun _ : Fin 2 => 5)
    (fun ls _ => ls.filterMap (fun p => p.1.started p.2) == [6, 7]) (by decide)
  exact ⟨ls, st, hrun, by simpa using hcheck, (pfair_quanta_in_order 5 _ hrun).2⟩

end Litmus.PfairTick
