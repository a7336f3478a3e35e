import Litmus.Census
import Litmus.Custody
import Litmus.Runs

/-!
# Pull timers

`hrtimer_start_on` of `hrtimer.c` starts a timer on another CPU: the request is put on a list
of that CPU, and an interrupt makes the CPU take the whole list and start the timers.  Only
the caller that finds the list empty sends the interrupt.  Each section under a timer base's
lock is one step.
-/

namespace Litmus.PullTimers

open Census Runs Function
open Multiset (notMem_zero mem_cons_self mem_singleton)

/-- `enum hrtimer_mode` -/
inductive Mode where
  | abs
  | rel
  | absPinned
  | relPinned
deriving DecidableEq

abbrev InfoId := Nat

abbrev TimerId := Nat

/-- `struct hrtimer_start_on_info` -/
structure Info where
  /-- the state is `HRTIMER_START_ON_QUEUED` -/
  queued : Bool
  timer : TimerId
  time : BitVec 64
  mode : Mode
deriving DecidableEq

/-- Start `timer` on CPU `cpu`, with `info` to pass it on. -/
structure Request (n : Nat) where
  cpu : Fin n
  info : InfoId
  timer : TimerId
  time : BitVec 64
  mode : Mode
deriving DecidableEq

/-- Where a caller of `hrtimer_start_on` is. -/
inductive Call (n : Nat) where
  /-- outside, with the last return value -/
  | idle (inUse : Option Bool)
  /-- before the section that checks the info -/
  | called (r : Request n)
  /-- the info is marked as in use -/
  | accepted (r : Request n)
  /-- the list was empty: before `smp_send_pull_timers` -/
  | sending (cpu : Fin n)
deriving DecidableEq

/-- What the pull interrupt of a CPU is doing. -/
inductive Pull where
  | none
  /-- before `list_replace_init` -/
  | begun
  /-- with the rest of the detached list -/
  | working (infos : List InfoId)
deriving DecidableEq

/-- The info that a caller is about to pass on. -/
def Call.held {n : Nat} : Call n → Multiset InfoId
  | .accepted r => {r.info}
  | _ => 0

def Pull.held : Pull → Multiset InfoId
  | .working infos => infos
  | _ => 0

/-- The callers `T`, and `n` CPUs. -/
structure State (T : Type) (n : Nat) where
  info : InfoId → Info
  toPull : Fin n → List InfoId
  /-- pull interrupts that have not been delivered -/
  ipi : Fin n → Nat
  pull : Fin n → Pull
  caller : T → Call n
  /-- the requests for which the check found the info unused, and the timers that were
      started, by info; the code keeps no such lists -/
  accepts : InfoId → List (Request n)
  starts : InfoId → List (Request n)

inductive Op (T : Type) (n : Nat) where
  | call (t : T) (r : Request n)
  /-- `hrtimer_start_on_info_init` -/
  | infoInit (i : InfoId)
  | check (t : T)
  /-- `self` is `smp_processor_id` -/
  | insert (t : T) (self : Fin n)
  | send (t : T)
  /-- one interrupt for `k + 1` of those that were sent -/
  | deliver (c : Fin n) (k : Nat)
  | detach (c : Fin n)
  | startNext (c : Fin n)
  | pullReturn (c : Fin n)

namespace State

variable {T : Type} [DecidableEq T] {n : Nat}

def setCaller (t : T) (pc : Call n) (st : State T n) : State T n :=
  { st with caller := update st.caller t pc }

def setPull (c : Fin n) (p : Pull) (st : State T n) : State T n :=
  { st with pull := update st.pull c p }

def setToPull (c : Fin n) (is : List InfoId) (st : State T n) : State T n :=
  { st with toPull := update st.toPull c is }

def setIpi (c : Fin n) (k : Nat) (st : State T n) : State T n :=
  { st with ipi := update st.ipi c k }

def setInfo (i : InfoId) (info : Info) (st : State T n) : State T n :=
  { st with info := update st.info i info }

/-- `hrtimer_start` of the timer of info `i` on CPU `c`. -/
def start (c : Fin n) (i : InfoId) (st : State T n) : State T n :=
  { st with starts := update st.starts i (st.starts i ++
      [{ cpu := c, info := i, timer := (st.info i).timer, time := (st.info i).time
         mode := (st.info i).mode }]) }

def check (t : T) (r : Request n) (st : State T n) : State T n :=
  if (st.info r.info).queued then st.setCaller t (.idle (some true))
  else
    { st with accepts := update st.accepts r.info (st.accepts r.info ++ [r]) }.setInfo
      r.info { queued := true, timer := r.timer, time := r.time, mode := r.mode }
      |>.setCaller t (.accepted r)

/-- Start the timer locally, or put the info on the list of the other CPU. -/
def insert (t : T) (r : Request n) (self : Fin n) (st : State T n) : State T n :=
  if r.cpu = self then (st.start self r.info).setCaller t (.idle (some false))
  else
    (st.setToPull r.cpu (r.info :: st.toPull r.cpu)).setCaller t
      (if st.toPull r.cpu = [] then .sending r.cpu else .idle (some false))

def exec (st : State T n) : Op T n → Option (State T n)
  | .call t r =>
      match st.caller t with
      | .idle _ => some (st.setCaller t (.called r))
      | _ => none
  | .infoInit i => some (st.setInfo i { queued := false, timer := 0, time := 0, mode := .abs })
  | .check t =>
      match st.caller t with
      | .called r => some (st.check t r)
      | _ => none
  | .insert t self =>
      match st.caller t with
      | .accepted r => some (st.insert t r self)
      | _ => none
  | .send t =>
      match st.caller t with
      | .sending c => some ((st.setIpi c (st.ipi c + 1)).setCaller t (.idle (some false)))
      | _ => none
  | .deliver c k =>
      -- the interrupt handler does not interrupt itself
      if st.pull c = .none ∧ k < st.ipi c then
        some ((st.setIpi c (st.ipi c - (k + 1))).setPull c .begun)
      else none
  | .detach c =>
      if st.pull c = .begun then
        some ((st.setToPull c []).setPull c (.working (st.toPull c)))
      else none
  | .startNext c =>
      match st.pull c with
      | .working (i :: rest) => some ((st.start c i).setPull c (.working rest))
      | _ => none
  | .pullReturn c => if st.pull c = .working [] then some (st.setPull c .none) else none

/-- The places where an info waits for its timer to be started. -/
inductive Place (T : Type) (n : Nat) where
  | hand (t : T)
  | list (c : Fin n)
  | detached (c : Fin n)

def held (st : State T n) : Place T n → Multiset InfoId
  | .hand t => (st.caller t).held
  | .list c => st.toPull c
  | .detached c => (st.pull c).held

/-- An info is initialised only while it is not in use. -/
def Legal (st : State T n) : Op T n → Prop
  | .infoInit i => ∀ p, i ∉ st.held p
  | _ => True

def init (info : InfoId → Info) : State T n where
  info i := { info i with queued := false }
  toPull _ := []
  ipi _ := 0
  pull _ := .none
  caller _ := .idle none
  accepts _ := []
  starts _ := []

end State

def Step {T : Type} [DecidableEq T] {n : Nat} (st : State T n) (op : Op T n) (st' : State T n) :
    Prop := st.Legal op ∧ st.exec op = some st'

/-! ### The invariant -/

/-- The info at place `p` stands for request `r`. -/
structure Carries {T : Type} {n : Nat} (st : State T n) (p : State.Place T n) (r : Request n) :
    Prop where
  timer : (st.info r.info).timer = r.timer
  time : (st.info r.info).time = r.time
  mode : (st.info r.info).mode = r.mode
  place : match p with
    | .hand t => st.caller t = .accepted r
    | .list c => r.cpu = c
    | .detached c => r.cpu = c

/-- Every request that was accepted and not yet served is at exactly one place, and a CPU with
    a list is going to look at it. -/
structure Inv {T : Type} {n : Nat} (st : State T n) : Prop where
  custody : Custody.Sound st.held fun i => st.accepts i ≠ st.starts i
  queued : ∀ p i, i ∈ st.held p → (st.info i).queued = true
  recorded : ∀ p i, i ∈ st.held p →
    ∃ r, r.info = i ∧ st.accepts i = st.starts i ++ [r] ∧ Carries st p r
  noted : ∀ c, st.toPull c ≠ [] → 0 < st.ipi c ∨ st.pull c = .begun ∨ ∃ t, st.caller t = .sending c

section

open State

variable {T : Type} {n : Nat} {st : State T n} {t : T} {c : Fin n} {i : InfoId}

variable {st' : State T n} {r : Request n}

/-- Somebody makes CPU `c` look at its list. -/
def State.Noted (st : State T n) (c : Fin n) : Prop :=
  0 < st.ipi c ∨ st.pull c = .begun ∨ ∃ t, st.caller t = .sending c

/-- The info `i` at place `p` is marked, and its request is the last one that was accepted. -/
def Kept (st : State T n) (p : State.Place T n) (i : InfoId) : Prop :=
  (st.info i).queued = true ∧ ∃ r, r.info = i ∧ st.accepts i = st.starts i ++ [r] ∧ Carries st p r

theorem Inv.of_kept (hcus : Custody.Sound st.held fun i => st.accepts i ≠ st.starts i)
    (hk : ∀ p i, i ∈ st.held p → Kept st p i) (hnot : ∀ c, st.toPull c ≠ [] → st.Noted c) :
    Inv st :=
  ⟨hcus, fun p i hp => (hk p i hp).1, fun p i hp => (hk p i hp).2, hnot⟩

theorem Inv.kept (h : Inv st) {p : Place T n} (hp : i ∈ st.held p) : Kept st p i :=
  ⟨h.queued p i hp, h.recorded p i hp⟩

theorem Kept.frame {p : Place T n} (h : Kept st p i) (hin : st'.info i = st.info i)
    (hacc : st'.accepts i = st.accepts i) (hsta : st'.starts i = st.starts i)
    (hca : ∀ t r, p = .hand t → st.caller t = .accepted r → st'.caller t = .accepted r) :
    Kept st' p i := by
  obtain ⟨hqu, r, rfl, heq, htmr, htim, hmod, hpl⟩ := h
  refine ⟨by rw [hin, hqu], r, rfl, by rw [hacc, hsta, heq], by rw [hin, htmr],
    by rw [hin, htim], by rw [hin, hmod], ?_⟩
  rcases p with t | c | c
  · exact hca t r rfl hpl
  · exact hpl
  exact hpl

theorem Inv.init (info : InfoId → Info) : Inv (State.init info : State T n) := by
  have hem : ∀ p i, i ∉ (State.init info : State T n).held p := by
    rintro (t | c | c) i <;> exact notMem_zero i
  refine .of_kept ⟨?_, fun hp => absurd hp (hem _ _), fun i => ?_⟩
    (fun p i hp => absurd hp (hem p i)) fun c hc => absurd rfl hc
  · rintro (t | c | c) <;> exact Multiset.nodup_zero
  exact ⟨fun ⟨p, hp⟩ => absurd hp (hem p i), fun h => absurd rfl h⟩

theorem Inv.closed (h : Inv st) (hi : ∀ p, i ∉ st.held p) : st.accepts i = st.starts i := by
  by_contra hne
  obtain ⟨p, hp⟩ := (h.custody.live_iff i).mpr hne
  exact hi p hp

theorem Inv.pass (h : Inv st) (hh : ∀ p, st'.held p = st.held p)
    (hinf : ∀ p i, i ∈ st.held p → st'.info i = st.info i) (hac : st'.accepts = st.accepts)
    (hst : st'.starts = st.starts)
    (hca : ∀ t r, st.caller t = .accepted r → st'.caller t = .accepted r)
    (hnot : ∀ c, st.toPull c ≠ [] → st'.Noted c) : Inv st' := by
  refine .of_kept (h.custody.congr hh fun i => by rw [hac, hst]) (fun p i hp => ?_)
    fun c hc => hnot c fun hnil => hc ?_
  · rw [hh] at hp
    exact (h.kept hp).frame (hinf p i hp) (by rw [hac]) (by rw [hst])
      fun t r _ => hca t r
  have hpe := Multiset.coe_eq_coe.mp (hh (.list c))
  rw [hnil] at hpe
  exact hpe.eq_nil

theorem Carries.start_eq {p : Place T n} (h : Carries st p r) :
    (st.start r.cpu r.info).starts = update st.starts r.info (st.starts r.info ++ [r]) := by
  simp [State.start, h.timer, h.time, h.mode]

theorem Inv.serve (h : Inv st) {a : Place T n}
    (heq : st.accepts r.info = st.starts r.info ++ [r]) (hle : st.held a = r.info ::ₘ st'.held a)
    (ho : ∀ p, p ≠ a → st'.held p = st.held p) (hinf : st'.info = st.info)
    (hac : st'.accepts = st.accepts)
    (hst : st'.starts = update st.starts r.info (st.starts r.info ++ [r]))
    (hca : ∀ t, a ≠ .hand t → st'.caller t = st.caller t)
    (hnot : ∀ c, st'.toPull c ≠ [] → st'.Noted c) : Inv st' := by
  have hse : st'.starts r.info = st'.accepts r.info := by
    rw [hst, update_self, hac, heq]
  have hot : ∀ i, i ≠ r.info → st'.starts i = st.starts i := by
    intro i hi
    rw [hst, update_of_ne hi]
  have hcu : Custody.Sound st'.held fun i => st'.accepts i ≠ st'.starts i := by
    refine h.custody.leave hle ho fun i => ?_
    by_cases hi : i = r.info
    · subst hi
      simp [hse]
    rw [hac, hot i hi]
    simp [hi]
  -- whoever still waits has waited before
  have hwai : ∀ p i, i ∈ st'.held p → i ∈ st.held p ∧ i ≠ r.info := by
    intro p i hp
    have hl := (hcu.live_iff i).mp ⟨p, hp⟩
    refine ⟨?_, fun hi => hl (by rw [hi, hse])⟩
    by_cases hpa : p = a
    · subst hpa
      rw [hle]
      exact Multiset.mem_cons_of_mem hp
    rwa [ho p hpa] at hp
  refine .of_kept hcu (fun p i hp => ?_) hnot
  obtain ⟨hold, hne⟩ := hwai p i hp
  refine (h.kept hold).frame (by rw [hinf]) (by rw [hac]) (hot i hne) ?_
  rintro t r' rfl hpc
  rw [hca t ?_, hpc]
  rintro rfl
  -- a caller holds one info
  rw [held, hpc, Call.held] at hle hold
  have hm : r.info ∈ ({r'.info} : Multiset InfoId) := by
    rw [hle]
    exact mem_cons_self _ _
  exact hne ((mem_singleton.mp hold).trans (mem_singleton.mp hm).symm)

theorem held_setPull (c : Fin n) (q : Pull) (p : Place T n) (hp : p ≠ .detached c) :
    (st.setPull c q).held p = st.held p := by
  rcases p with u | d | d
  · rfl
  · rfl
  have hd : d ≠ c := fun h => hp (by rw [h])
  simp [held, setPull, update_of_ne hd]

theorem held_setPull_self (c : Fin n) (q : Pull) :
    (st.setPull c q).held (.detached c) = q.held := by
  simp [held, setPull]

variable [DecidableEq T]

theorem caller_setCaller_of_ne (pc : Call n) {u : T} (hu : u ≠ t) :
    (st.setCaller t pc).caller u = st.caller u := update_of_ne hu ..

theorem State.Noted.setCaller (h : st.Noted c) (hne : st.caller t ≠ .sending c) (pc : Call n) :
    (st.setCaller t pc).Noted c := by
  refine h.imp_right fun h => h.imp_right fun ⟨u, hu⟩ => ⟨u, ?_⟩
  have hut : u ≠ t := fun hut => hne (hut ▸ hu)
  rw [caller_setCaller_of_ne pc hut, hu]

theorem held_setCaller (pc : Call n) (p : Place T n) (hp : p ≠ .hand t) :
    (st.setCaller t pc).held p = st.held p := by
  rcases p with u | c | c
  · have hu : u ≠ t := fun h => hp (by rw [h])
    simp [held, caller_setCaller_of_ne pc hu]
  · rfl
  rfl

theorem held_setCaller_self (pc : Call n) : (st.setCaller t pc).held (.hand t) = pc.held := by
  simp [held, State.setCaller]

theorem Inv.setCaller (h : Inv st) {pc : Call n} (hold : (st.caller t).held = 0)
    (hnw : pc.held = 0) (hsen : ∀ c, st.caller t ≠ .sending c) : Inv (st.setCaller t pc) := by
  have hacc : ∀ r, st.caller t ≠ .accepted r := by
    intro r hr
    rw [hr] at hold
    exact absurd hold (Multiset.singleton_ne_zero r.info)
  refine h.pass ?_ (fun _ _ _ => rfl) rfl rfl ?_ ?_
  · intro p
    by_cases hp : p = .hand t
    · rw [hp, held_setCaller_self, hnw]
      exact hold.symm
    exact held_setCaller pc p hp
  · intro u r hr
    have hu : u ≠ t := by
      rintro rfl
      exact hacc r hr
    rw [caller_setCaller_of_ne pc hu, hr]
  exact fun c hc => Noted.setCaller (h.noted c hc) (hsen c) pc

theorem Inv.check (h : Inv st) (hpc : st.caller t = .called r) : Inv (st.check t r) := by
  have hsn : ∀ c, st.caller t ≠ .sending c := by
    intro c hc
    rw [hpc] at hc
    cases hc
  have hem : (st.caller t).held = 0 := by
    rw [hpc]
    rfl
  unfold State.check
  split
  · exact h.setCaller hem rfl hsn
  rename_i hunu
  have hfr : ∀ p, r.info ∉ st.held p := fun p hp => hunu (h.queued p _ hp)
  have hcl := h.closed hfr
  set st' := (({ st with accepts := update st.accepts r.info (st.accepts r.info ++ [r])
    } : State T n).setInfo r.info
      { queued := true, timer := r.timer, time := r.time, mode := r.mode }).setCaller t
        (.accepted r) with hst'
  have hse : st'.held (.hand t) = {r.info} := held_setCaller_self _
  have ho : ∀ p, p ≠ .hand t → st'.held p = st.held p := fun p hp =>
    held_setCaller _ p hp
  have hac : st'.accepts r.info = st'.starts r.info ++ [r] := by
    simp [hst', State.setCaller, setInfo, hcl]
  have hinf : ∀ i, i ≠ r.info → st'.info i = st.info i := by
    intro i hi
    simp [hst', State.setCaller, setInfo, hi]
  have hlo : ∀ i, i ≠ r.info → st'.accepts i = st.accepts i := by
    intro i hi
    simp [hst', State.setCaller, setInfo, hi]
  have hwai : ∀ p i, i ∈ st'.held p → (i = r.info ∧ p = .hand t) ∨
      (i ≠ r.info ∧ p ≠ .hand t ∧ i ∈ st.held p) := by
    intro p i hp
    by_cases hpt : p = .hand t
    · rw [hpt, hse, mem_singleton] at hp
      exact .inl ⟨hp, hpt⟩
    rw [ho p hpt] at hp
    refine .inr ⟨?_, hpt, hp⟩
    rintro rfl
    exact hfr p hp
  refine .of_kept ?_ (fun p i hp => ?_) fun d hd =>
    Noted.setCaller (h.noted d hd) (hsn d) _
  · refine h.custody.enter (t := r.info) (b := .hand t) (fun hne => hne hcl) ?_ ho ?_
    · rw [hse, held, hem]
      rfl
    intro i
    by_cases hi : i = r.info
    · subst hi
      simp [hac]
    rw [hlo i hi]
    simp only [hi, false_or]
    exact .rfl
  rcases hwai p i hp with ⟨rfl, rfl⟩ | ⟨hne, hpt, hold⟩
  · refine ⟨?_, r, rfl, hac, ?_, ?_, ?_, ?_⟩
    all_goals simp [hst', State.setCaller, setInfo]
  · refine (h.kept hold).frame (hinf i hne) (hlo i hne) rfl ?_
    rintro u r' rfl hu
    exact (caller_setCaller_of_ne _ fun hut => hpt (by rw [hut])).trans hu

theorem Inv.insert (h : Inv st) (self : Fin n) (hpc : st.caller t = .accepted r) :
    Inv (st.insert t r self) := by
  have hh : st.held (.hand t) = {r.info} := by rw [held, hpc, Call.held]
  obtain ⟨r', hr', heq, hcar⟩ := h.recorded (.hand t) r.info (by rw [hh]; simp)
  obtain rfl : r' = r := by
    have hpa := hcar.place
    simp only [hpc, Call.accepted.injEq] at hpa
    exact hpa.symm
  have hno : ∀ pc c, st.toPull c ≠ [] → (st.setCaller t pc).Noted c := fun pc c hc =>
    Noted.setCaller (h.noted c hc) (by rw [hpc]; nofun) pc
  unfold State.insert
  split
  · rename_i hse
    subst hse
    refine h.serve (a := .hand t) heq ?_ (fun p hp => held_setCaller _ p hp) rfl rfl
      hcar.start_eq (fun u hu => caller_setCaller_of_ne _ fun hut => hu (by rw [hut])) ?_
    · rw [hh, held_setCaller_self]
      rfl
    exact hno _
  set pc : Call n := if st.toPull r'.cpu = [] then .sending r'.cpu else .idle (some false)
    with hpc'
  have hem : pc.held = 0 := by
    rw [hpc']
    split <;> rfl
  set st' := (st.setToPull r'.cpu (r'.info :: st.toPull r'.cpu)).setCaller t pc with hst'
  have hli : st'.held (.list r'.cpu) = r'.info ::ₘ st.held (.list r'.cpu) := by
    simp [hst', held, State.setCaller, setToPull]
  have ho : ∀ p, p ≠ .hand t → p ≠ .list r'.cpu → st'.held p = st.held p := by
    intro p hp hp'
    rw [hst', held_setCaller _ p hp]
    rcases p with u | c | c
    · rfl
    · have hc : c ≠ r'.cpu := fun hc => hp' (by rw [hc])
      simp [held, setToPull, hc]
    rfl
  have hca : ∀ u, u ≠ t → st'.caller u = st.caller u := fun u hu =>
    caller_setCaller_of_ne pc hu
  have hwai : ∀ p i, i ∈ st'.held p → (i = r'.info ∧ p = .list r'.cpu) ∨
      (p ≠ .hand t ∧ i ∈ st.held p) := by
    intro p i hp
    have hpt : p ≠ .hand t := by
      rintro rfl
      rw [hst', held_setCaller_self, hem] at hp
      exact notMem_zero i hp
    by_cases hpl : p = .list r'.cpu
    · rw [hpl, hli, Multiset.mem_cons] at hp
      rcases hp with hi | hp
      · exact .inl ⟨hi, hpl⟩
      exact .inr ⟨hpt, hpl ▸ hp⟩
    rw [ho p hpt hpl] at hp
    exact .inr ⟨hpt, hp⟩
  refine .of_kept ?_ (fun p i hp => ?_) ?_
  · refine h.custody.move (a := .hand t) (b := .list r'.cpu) (by simp) ?_ hli ho
      fun _ => .rfl
    rw [hh, hst', held_setCaller_self, hem]
    rfl
  · rcases hwai p i hp with ⟨rfl, rfl⟩ | ⟨hpt, hold⟩
    · exact ⟨h.queued (.hand t) _ (by rw [hh]; simp), r', rfl, heq, hcar.timer,
        hcar.time, hcar.mode, rfl⟩
    refine (h.kept hold).frame rfl rfl rfl ?_
    rintro u r rfl hu
    exact (hca u fun hut => hpt (by rw [hut])).trans hu
  intro c hc
  by_cases hla : st.toPull c = []
  · -- the list was empty: this caller is going to send the interrupt
    have hcr : c = r'.cpu := by
      by_contra hne
      apply hc
      simp [hst', State.setCaller, setToPull, hne, hla]
    subst hcr
    refine .inr (.inr ⟨t, ?_⟩)
    simp [hst', State.setCaller, hpc', hla]
  exact hno pc c hla

theorem Inv.send (h : Inv st) (hpc : st.caller t = .sending c) :
    Inv ((st.setIpi c (st.ipi c + 1)).setCaller t (.idle (some false))) := by
  have hem : st.held (.hand t) = 0 := by
    rw [held, hpc]
    rfl
  refine h.pass ?_ (fun _ _ _ => rfl) rfl rfl ?_ ?_
  · intro p
    by_cases hp : p = .hand t
    · rw [hp, held_setCaller_self, hem]
      rfl
    rw [held_setCaller _ p hp]
    rcases p with u | d | d <;> rfl
  · intro u r hr
    have hu : u ≠ t := by
      rintro rfl
      rw [hpc] at hr
      cases hr
    exact (caller_setCaller_of_ne _ hu).trans hr
  intro d hd
  by_cases hdc : d = c
  · subst hdc
    exact .inl (by simp [State.setCaller, setIpi])
  rcases h.noted d hd with hipi | hpu | ⟨u, hu⟩
  · exact .inl (by simpa [State.setCaller, setIpi, hdc] using hipi)
  · exact .inr (.inl hpu)
  have hut : u ≠ t := by
    rintro rfl
    rw [hpc] at hu
    cases hu
    exact hdc rfl
  exact .inr (.inr ⟨u, (caller_setCaller_of_ne _ hut).trans hu⟩)

omit [DecidableEq T] in
theorem Inv.deliver (h : Inv st) {k : Nat} (hpu : st.pull c = .none) :
    Inv ((st.setIpi c k).setPull c .begun) := by
  refine h.pass ?_ (fun _ _ _ => rfl) rfl rfl (fun _ _ hr => hr) ?_
  · intro p
    by_cases hp : p = .detached c
    · rw [hp, held_setPull_self, held, hpu]
      rfl
    rw [held_setPull _ _ p hp]
    rcases p with u | d | d <;> rfl
  intro d hd
  by_cases hdc : d = c
  · subst hdc
    exact .inr (.inl (by simp [setPull]))
  rcases h.noted d hd with hipi | hpu | hsen
  · exact .inl (by simpa [setPull, setIpi, hdc] using hipi)
  · exact .inr (.inl (by simpa [setPull, setIpi, hdc] using hpu))
  exact .inr (.inr hsen)

omit [DecidableEq T] in
theorem Inv.detach (h : Inv st) (hpu : st.pull c = .begun) :
    Inv ((st.setToPull c []).setPull c (.working (st.toPull c))) := by
  set st' := (st.setToPull c []).setPull c (.working (st.toPull c)) with hst'
  have hdet : st.held (.detached c) = 0 := by
    rw [held, hpu]
    rfl
  have hnw : st'.held (.detached c) = st.held (.list c) := held_setPull_self _ _
  have hli : st'.held (.list c) = 0 := by
    simp [hst', held, setPull, setToPull]
  have ho : ∀ p, p ≠ .list c → p ≠ .detached c → st'.held p = st.held p := by
    intro p hp hp'
    rw [hst', held_setPull _ _ p hp']
    rcases p with u | d | d
    · rfl
    · have hd : d ≠ c := fun hd => hp (by rw [hd])
      simp [held, setToPull, hd]
    rfl
  have hwai : ∀ p i, i ∈ st'.held p →
      (p = .detached c ∧ i ∈ st.held (.list c)) ∨ (p ≠ .detached c ∧ i ∈ st.held p) := by
    intro p i hp
    by_cases hpd : p = .detached c
    · rw [hpd, hnw] at hp
      exact .inl ⟨hpd, hp⟩
    have hpl : p ≠ .list c := by
      rintro rfl
      rw [hli] at hp
      exact notMem_zero i hp
    rw [ho p hpl hpd] at hp
    exact .inr ⟨hpd, hp⟩
  refine .of_kept ?_ (fun p i hp => ?_) ?_
  · have hout : st.held (.list c) = st.held (.list c) + st'.held (.list c) := by
      rw [hli, add_zero]
    have hin : st'.held (.detached c) = st.held (.detached c) + st.held (.list c) := by
      rw [hnw, hdet, zero_add]
    exact h.custody.transfer (by simp) hout hin ho fun _ => .rfl
  · rcases hwai p i hp with ⟨rfl, hold⟩ | ⟨-, hold⟩
    · obtain ⟨hqu, r, rfl, heq, hcr⟩ := h.kept hold
      exact ⟨hqu, r, rfl, heq, hcr.timer, hcr.time, hcr.mode, hcr.place⟩
    exact (h.kept hold).frame rfl rfl rfl fun _ _ _ hu => hu
  intro d hd
  have hdc : d ≠ c := by
    rintro rfl
    exact hd (by simp [hst', setPull, setToPull])
  have hd' : st.toPull d ≠ [] := by
    simpa [hst', setPull, setToPull, hdc] using hd
  rcases h.noted d hd' with hipi | hbeg | hsen
  · exact .inl hipi
  · exact .inr (.inl (by simpa [hst', setPull, setToPull, hdc] using hbeg))
  exact .inr (.inr hsen)

omit [DecidableEq T] in
theorem Inv.noted_setPull (h : Inv st) {q : Pull} (hpu : st.pull c ≠ .begun)
    (d : Fin n) (hd : st.toPull d ≠ []) :
    0 < st.ipi d ∨ (st.setPull c q).pull d = .begun ∨ ∃ u, st.caller u = .sending d := by
  rcases h.noted d hd with hipi | hbe | hsen
  · exact .inl hipi
  · have hdc : d ≠ c := by
      rintro rfl
      exact hpu hbe
    exact .inr (.inl ((update_of_ne hdc ..).trans hbe))
  exact .inr (.inr hsen)

omit [DecidableEq T] in
theorem Inv.startNext (h : Inv st) {rest : List InfoId}
    (hpu : st.pull c = .working (i :: rest)) : Inv ((st.start c i).setPull c (.working rest)) := by
  have hh : st.held (.detached c) = i ::ₘ (rest : Multiset InfoId) := by
    rw [held, hpu]
    rfl
  have hi : i ∈ st.held (.detached c) := by
    rw [hh]
    exact mem_cons_self _ _
  obtain ⟨r, rfl, heq, hcr⟩ := h.recorded _ i hi
  obtain rfl : r.cpu = c := hcr.place
  refine h.serve (a := .detached r.cpu) heq ?_ (fun p hp => held_setPull _ _ p hp) rfl rfl
    hcr.start_eq (fun _ _ => rfl) ?_
  · rw [hh, held_setPull_self]
    rfl
  intro d hd
  exact h.noted_setPull (by simp [hpu]) d hd

omit [DecidableEq T] in
theorem Inv.pullReturn (h : Inv st) (hpu : st.pull c = .working []) : Inv (st.setPull c .none) := by
  refine h.pass ?_ (fun _ _ _ => rfl) rfl rfl (fun _ _ hr => hr) ?_
  · intro p
    by_cases hp : p = .detached c
    · rw [hp, held_setPull_self, held, hpu]
      rfl
    exact held_setPull _ _ p hp
  intro d hd
  exact h.noted_setPull (by simp [hpu]) d hd

omit [DecidableEq T] in
theorem Inv.setInfo (h : Inv st) {info : Info} (hfr : ∀ p, i ∉ st.held p) :
    Inv (st.setInfo i info) := by
  refine h.pass (fun p => ?_) ?_ rfl rfl (fun _ _ hr => hr) h.noted
  · rcases p with u | d | d <;> rfl
  intro p j hj
  have hji : j ≠ i := by
    rintro rfl
    exact hfr p hj
  exact update_of_ne hji ..

/-! ### Runs -/

theorem Inv.step (h : Inv st) {op : Op T n} (hs : Step st op st') : Inv st' := by
  obtain ⟨hl, hx⟩ := hs
  cases op with
  | call t r =>
    simp only [exec] at hx
    split at hx <;> cases hx
    rename_i hpc
    refine h.setCaller ?_ rfl ?_
    · rw [hpc]
      rfl
    intro c hc
    rw [hpc] at hc
    cases hc
  | infoInit i =>
    cases hx
    exact h.setInfo hl
  | check t =>
    simp only [exec] at hx
    split at hx <;> cases hx
    rename_i hpc
    exact h.check hpc
  | insert t self =>
    simp only [exec] at hx
    split at hx <;> cases hx
    rename_i hpc
    exact h.insert self hpc
  | send t =>
    simp only [exec] at hx
    split at hx <;> cases hx
    rename_i hpc
    exact h.send hpc
  | deliver c k =>
    simp only [exec] at hx
    split at hx <;> cases hx
    rename_i hpu
    exact h.deliver hpu.1
  | detach c =>
    simp only [exec] at hx
    split at hx <;> cases hx
    rename_i hpu
    exact h.detach hpu
  | startNext c =>
    simp only [exec] at hx
    split at hx <;> cases hx
    rename_i hpu
    exact h.startNext hpu
  | pullReturn c =>
    simp only [exec] at hx
    split at hx <;> cases hx
    rename_i hpu
    exact h.pullReturn hpu

theorem Inv.run {ls : List (Op T n)} (h : Inv st) (hr : Run Step st ls st') : Inv st' :=
  hr.invariant (fun _ _ _ hs hste => hs.step hste) h

/-! ### Every request is served -/

/-- The steps that still have to be taken for a call and for an interrupt, if there are no
    more calls. -/
def Call.work : Call n → Nat
  | .idle _ => 0
  | .called _ => 8
  | .accepted _ => 7
  | .sending _ => 4

def Pull.work : Pull → Nat
  | .none => 0
  | .begun => 2
  | .working infos => infos.length + 1

end

/-- A step that is not the beginning of a new call. -/
def Op.finishes {T : Type} {n : Nat} : Op T n → Bool
  | .call _ _ => false
  | .infoInit _ => false
  | _ => true

section

open State

variable {T : Type} [Fintype T] {n : Nat}

def State.work (st : State T n) : Nat :=
  ∑ t, (st.caller t).work + 3 * ∑ c, st.ipi c + ∑ c, (st.pull c).work + ∑ c, (st.toPull c).length

variable [DecidableEq T] {st st' : State T n} {op : Op T n}

theorem work_lt (hop : op.finishes = true) (hx : st.exec op = some st') : st'.work < st.work := by
  have hca := sum_update (Call.work (n := n)) st.caller
  have hip : ∀ c k, ∑ d, update st.ipi c k d + st.ipi c = ∑ d, st.ipi d + k := sum_update id st.ipi
  have hpu := sum_update Pull.work st.pull
  have hli := sum_update List.length st.toPull
  cases op with
  | call t r => cases hop
  | infoInit i => cases hop
  | check t =>
    simp only [exec] at hx
    split at hx <;> cases hx
    rename_i r hpc
    unfold State.check
    split
    · have h := hca t (.idle (some true))
      rw [hpc] at h
      change _ + 8 = _ + 0 at h
      simp only [work, State.setCaller]
      omega
    have h := hca t (.accepted r)
    rw [hpc] at h
    change _ + 8 = _ + 7 at h
    simp only [work, State.setCaller, setInfo]
    omega
  | insert t self =>
    simp only [exec] at hx
    split at hx <;> cases hx
    rename_i r hpc
    unfold State.insert
    split
    · have h := hca t (.idle (some false))
      rw [hpc] at h
      change _ + 7 = _ + 0 at h
      simp only [work, State.setCaller, State.start]
      omega
    have h' := hli r.cpu (r.info :: st.toPull r.cpu)
    simp only [List.length_cons] at h'
    split
    · have h := hca t (.sending r.cpu)
      rw [hpc] at h
      change _ + 7 = _ + 4 at h
      simp only [work, State.setCaller, setToPull]
      omega
    have h := hca t (.idle (some false))
    rw [hpc] at h
    change _ + 7 = _ + 0 at h
    simp only [work, State.setCaller, setToPull]
    omega
  | send t =>
    simp only [exec] at hx
    split at hx <;> cases hx
    rename_i c hpc
    have h := hca t (.idle (some false))
    have h' := hip c (st.ipi c + 1)
    rw [hpc] at h
    change _ + 4 = _ + 0 at h
    simp only [work, State.setCaller, setIpi]
    omega
  | deliver c k =>
    simp only [exec] at hx
    split at hx <;> cases hx
    rename_i hr
    have h := hpu c .begun
    have h' := hip c (st.ipi c - (k + 1))
    rw [hr.1] at h
    change _ + 0 = _ + 2 at h
    simp only [work, setPull, setIpi]
    omega
  | detach c =>
    simp only [exec] at hx
    split at hx <;> cases hx
    rename_i hbeg
    have h := hpu c (.working (st.toPull c))
    have h' := hli c []
    rw [hbeg] at h
    change _ + 2 = _ + ((st.toPull c).length + 1) at h
    simp only [List.length_nil] at h'
    simp only [work, setPull, setToPull]
    omega
  | startNext c =>
    simp only [exec] at hx
    split at hx <;> cases hx
    rename_i i rest hwo
    have h := hpu c (.working rest)
    rw [hwo] at h
    change _ + (rest.length + 1 + 1) = _ + (rest.length + 1) at h
    simp only [work, setPull, State.start]
    omega
  | pullReturn c =>
    simp only [exec] at hx
    split at hx <;> cases hx
    rename_i hwo
    have h := hpu c .none
    rw [hwo] at h
    change _ + 1 = _ + 0 at h
    simp only [work, setPull]
    omega

theorem length_le_work {ls : List (Op T n)} (hr : Run Step st ls st')
    (hfi : ∀ op ∈ ls, op.finishes = true) : ls.length + st'.work ≤ st.work := by
  induction hr with
  | nil => simp
  | @snoc s u ls op _ hla ih =>
    have hold := ih fun op hop => hfi op (List.mem_append_left _ hop)
    have hlt := work_lt (hfi op (by simp)) hla.2
    simp only [List.length_append, List.length_singleton]
    omega

omit [Fintype T] in
theorem Inv.served (h : Inv st) (hdon : ∀ op st', op.finishes = true → ¬Step st op st')
    (i : InfoId) : st.starts i = st.accepts i := by
  have hst : ∀ op, op.finishes = true → st.exec op = none := by
    intro op hop
    cases hx : st.exec op with
    | none => rfl
    | some st' =>
      refine absurd ⟨?_, hx⟩ (hdon op st' hop)
      cases op <;> trivial
  have hid : ∀ t, (st.caller t).held = 0 ∧ ∀ c, st.caller t ≠ .sending c := by
    intro t
    cases hpc : st.caller t with
    | idle ret => exact ⟨rfl, fun c hc => by cases hc⟩
    | called r => simpa [exec, hpc] using hst (.check t) rfl
    | accepted r => simpa [exec, hpc] using hst (.insert t r.cpu) rfl
    | sending c => simpa [exec, hpc] using hst (.send t) rfl
  have hre : ∀ c, st.pull c = .none := by
    intro c
    cases hpu : st.pull c with
    | none => rfl
    | begun => simpa [exec, hpu] using hst (.detach c) rfl
    | working infos =>
      cases infos with
      | nil => simpa [exec, hpu] using hst (.pullReturn c) rfl
      | cons i rest => simpa [exec, hpu] using hst (.startNext c) rfl
  have hqui : ∀ c, st.ipi c = 0 := by
    intro c
    simpa [exec, hre c] using hst (.deliver c 0) rfl
  refine (h.closed fun p hp => ?_).symm
  rcases p with t | c | c
  · rw [held, (hid t).1] at hp
    exact notMem_zero i hp
  · -- a list that is not empty has an interrupt coming
    have hne : st.toPull c ≠ [] := by
      intro hnil
      rw [held, hnil] at hp
      exact notMem_zero i hp
    rcases h.noted c hne with hip | hbe | ⟨t, ht⟩
    · rw [hqui c] at hip
      exact absurd hip (lt_irrefl 0)
    · rw [hre c] at hbe
      cases hbe
    exact (hid t).2 c ht
  rw [held, hre c] at hp
  exact notMem_zero i hp

omit [Fintype T] in
theorem queued_step {i : InfoId} (hs : Step st op st') (hop : op ≠ .infoInit i)
    (hq : (st.info i).queued = true) : (st'.info i).queued = true := by
  obtain ⟨-, hx⟩ := hs
  cases op with
  | infoInit j =>
    cases hx
    have hne : i ≠ j := fun h => hop (by rw [h])
    simpa [setInfo, hne] using hq
  | check t =>
    simp only [exec] at hx
    split at hx <;> cases hx
    unfold State.check
    split
    · exact hq
    rename_i r _ _
    by_cases hi : i = r.info
    · simp [State.setCaller, setInfo, hi]
    simpa [State.setCaller, setInfo, hi] using hq
  | insert t self =>
    simp only [exec] at hx
    split at hx <;> cases hx
    unfold State.insert
    split <;> exact hq
  | _ =>
    simp only [exec] at hx
    split at hx <;> cases hx
    exact hq

omit [Fintype T] in
theorem queued_run {i : InfoId} {ls : List (Op T n)} (hr : Run Step st ls st')
    (hls : ∀ op ∈ ls, op ≠ .infoInit i) (hq : (st.info i).queued = true) :
    (st'.info i).queued = true := by
  induction hr with
  | nil => exact hq
  | @snoc s u ls op _ hla ih =>
    exact queued_step hla (hls op (by simp))
      (ih fun op hop => hls op (List.mem_append_left _ hop))

end

/-- No timer is lost: a CPU with a list is going to look at it, the timers of an info are
    started as asked for, in the order in which its requests were accepted, and once there are
    no new calls every accepted request has been served after finitely many steps.  A call
    whose info is in use changes nothing. -/
theorem pull_timers_lossless {T : Type} [Fintype T] [DecidableEq T] {n : Nat}
    (info : InfoId → Info) {ls : List (Op T n)} {st : State T n}
    (hrun : Run Step (State.init info) ls st) :
    (∀ c, st.toPull c ≠ [] → 0 < st.ipi c ∨ st.pull c = .begun ∨ ∃ t, st.caller t = .sending c) ∧
    (∀ i, st.starts i = st.accepts i ∨ ∃ r, st.accepts i = st.starts i ++ [r]) ∧
    (∀ ls' st', Run Step st ls' st' → (∀ op ∈ ls', op.finishes = true) → ls'.length ≤ st.work ∧
        ((∀ op st'', op.finishes = true → ¬Step st' op st'') → ∀ i, st'.starts i = st'.accepts i)) ∧
    ∀ t r st₁, Step st (.check t) st₁ → st₁.caller t = .accepted r →
      ∀ ls' st', Run Step st₁ ls' st' → (∀ op ∈ ls', op ≠ .infoInit r.info) →
        ∀ u r', st'.caller u = .called r' → r'.info = r.info →
          st'.exec (.check u) = some (st'.setCaller u (.idle (some true))) := by
  have hI := (Inv.init info).run hrun
  refine ⟨hI.noted, ?_, ?_, ?_⟩
  · intro i
    by_cases hopen : st.accepts i = st.starts i
    · exact .inl hopen.symm
    obtain ⟨p, hp⟩ := (hI.custody.live_iff i).mpr hopen
    obtain ⟨r, -, heq, -⟩ := hI.recorded p i hp
    exact .inr ⟨r, heq⟩
  · intro ls' st' hrun' hfinish
    have hlen := length_le_work hrun' hfinish
    exact ⟨by omega, fun hdone => (hI.run hrun').served hdone⟩
  intro t r st₁ hcheck haccepted ls' st' hrun' hno u r' hcall hinfo
  have hinv₁ := hI.step hcheck
  have hqueued : (st₁.info r.info).queued = true := by
    apply hinv₁.queued (.hand t)
    rw [State.held, haccepted]
    exact Multiset.mem_singleton_self _
  have hqueued' := queued_run hrun' hno hqueued
  rw [← hinfo] at hqueued'
  simp [State.exec, hcall, State.check, hqueued']

/-- Two callers on CPU 0 ask for timers on CPU 1.  The second finds the list in use while the
    first is still going to send the interrupt. -/
theorem pull_timers_lossless_shared :
    ∃ (ls : List (Op Bool 2)) (st : State Bool 2),
      Run Step (State.init fun _ => { queued := false, timer := 0, time := 0, mode := .abs })
        ls st ∧
      st.toPull 1 = [1, 0] ∧ st.caller true = .idle (some false) ∧
      (0 < st.ipi 1 ∨ st.pull 1 = .begun ∨ ∃ t, st.caller t = .sending 1) := by
  have hs : ∀ (s : State Bool 2) (op : Op Bool 2) (s' : State Bool 2),
      op.finishes = true ∨ (∃ t r, op = .call t r) → s.exec op = some s' → Step s op s' := by
    intro s op s' hop hx
    refine ⟨?_, hx⟩
    cases op <;> first | trivial | simp [Op.finishes] at hop
  obtain ⟨st, hrun, hcheck⟩ := @Run.of_check _ _ Step (fun _ op => match op with
      | .infoInit _ => false
      | _ => true) State.exec
    (fun s op s' hop hx => hs s op s' (by cases op <;> simp [Op.finishes] at hop ⊢) hx)
    [.call false { cpu := 1, info := 0, timer := 7, time := 10, mode := .absPinned },
      .call true { cpu := 1, info := 1, timer := 8, time := 20, mode := .absPinned },
      .check false, .check true, .insert false 0, .insert true 0]
    (State.init fun _ => { queued := false, timer := 0, time := 0, mode := .abs })
    (fun st => decide (st.toPull 1 = [1, 0] ∧ st.caller true = .idle (some false))) (by decide)
  obtain ⟨hlist, hcaller⟩ := of_decide_eq_true hcheck
  exact ⟨_, st, hrun, hlist, hcaller, (pull_timers_lossless _ hrun).1 1 (by rw [hlist]; simp)⟩

end Litmus.PullTimers
