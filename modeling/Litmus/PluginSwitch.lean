import Mathlib.Data.Fintype.Card
import Litmus.Runs

/-!
# Switching the scheduler plugin

`switch_sched_plugin` of `litmus.c` stops the other CPUs in the IPI handler
`synch_on_plugin_switch` and then replaces the plugin, unless there are real-time tasks.  Any CPU
may call it, and CPUs outside the handler may run callbacks, with interrupts off.
-/

namespace Litmus.PluginSwitch

open Function Runs Finset

/-- Where a CPU is in `switch_sched_plugin`.  Interrupts are off while it is `locked`. -/
inductive Phase where
  | idle | called | waiting | locked | unlocked
deriving DecidableEq

structure State (n : Nat) (P : Type) where
  cannotUsePlugin : Nat
  /-- in `synch_on_plugin_switch` -/
  synch : Fin n → Bool
  ipi : Fin n → Nat
  phase : Fin n → Phase
  /-- the plugin whose callback the CPU is in -/
  callback : Fin n → Option P
  litmus : P
  rtTaskCount : Nat
  /-- the plugins that admitted the real-time tasks there are -/
  admitted : List P

/-- The argument of a call is given where it is used. -/
inductive Act (P : Type) where
  | call
  | sendIpis
  | enterSynch
  | leaveSynch
  | lock
  | switch (plugin : P) (deactivated activated : Int)
  | finish
  | enterCallback
  | leaveCallback
  | admitTask
  | exitTask (i : Nat)

variable {n : Nat} {P : Type}

namespace State

def init (plugin : P) : State n P where
  cannotUsePlugin := 0
  synch _ := false
  ipi _ := 0
  phase _ := .idle
  callback _ := none
  litmus := plugin
  rtTaskCount := 0
  admitted := []

variable (st : State n P) (c : Fin n)

def Free : Prop := st.synch c = false ∧ st.callback c = none

/-- An interrupt may come. -/
def Open : Prop := st.Free c ∧ st.phase c ≠ .locked

def stopped : Finset (Fin n) := {d | st.synch d}

def Legal : Act P → Prop
  | .call => st.Free c ∧ st.phase c = .idle
  | .sendIpis => st.Free c ∧ st.phase c = .called
  | .enterSynch => st.Open c ∧ 0 < st.ipi c
  | .leaveSynch => st.synch c = true ∧ st.cannotUsePlugin = 0
  | .lock => st.Free c ∧ st.phase c = .waiting ∧ n ≤ st.cannotUsePlugin
  | .switch .. => st.phase c = .locked
  | .finish => st.Free c ∧ st.phase c = .unlocked
  | .enterCallback | .admitTask => st.Open c
  | .leaveCallback => st.callback c ≠ none
  | .exitTask i => st.Open c ∧ i < st.admitted.length

def setPhase (k : Phase) : State n P := { st with phase := update st.phase c k }

def exec (linuxPlugin : P) : Act P → State n P
  | .call => { st.setPhase c .called with cannotUsePlugin := 1 }
  | .sendIpis => { st.setPhase c .waiting with
      ipi := fun d => if d = c then st.ipi d else st.ipi d + 1 }
  | .enterSynch => { st with
      cannotUsePlugin := st.cannotUsePlugin + 1, synch := update st.synch c true
      ipi := update st.ipi c (st.ipi c - 1) }
  | .leaveSynch => { st with synch := update st.synch c false }
  | .lock => st.setPhase c .locked
  | .switch plugin deactivated activated => { st.setPhase c .unlocked with
      litmus := if st.rtTaskCount ≠ 0 ∨ deactivated ≠ 0 then st.litmus
        else if activated ≠ 0 then linuxPlugin else plugin }
  | .finish => { st.setPhase c .idle with cannotUsePlugin := 0 }
  | .enterCallback => { st with callback := update st.callback c (some st.litmus) }
  | .leaveCallback => { st with callback := update st.callback c none }
  | .admitTask => { st with
      rtTaskCount := st.rtTaskCount + 1, admitted := st.litmus :: st.admitted }
  | .exitTask i => { st with
      rtTaskCount := st.rtTaskCount - 1, admitted := st.admitted.eraseIdx i }

end State

open State

variable {st st' : State n P} {c d : Fin n} {a : Act P} {linuxPlugin plugin : P}
  {ops : List (Fin n × Act P)}

def Step (linuxPlugin : P) (st : State n P) (op : Fin n × Act P) (st' : State n P) : Prop :=
  st.Legal op.1 op.2 ∧ st.exec op.1 linuxPlugin op.2 = st'

structure Inv (st : State n P) : Prop where
  counted : st.cannotUsePlugin ≤ st.stopped.card + 1
  alone : ∀ c, st.phase c = .locked →
    st.Free c ∧ 0 < st.cannotUsePlugin ∧ ∀ d, d ≠ c → st.synch d = true
  quiet : ∀ c, st.synch c = true → st.callback c = none
  current : ∀ c p, st.callback c = some p → p = st.litmus
  admitted : ∀ p ∈ st.admitted, p = st.litmus
  tasks : st.rtTaskCount = st.admitted.length

@[simp] theorem mem_stopped : c ∈ st.stopped ↔ st.synch c = true := by
  simp [stopped]

theorem card_stopped_lt (hf : st.Free c) : st.stopped.card + 1 ≤ n := by
  have hle := card_le_univ (insert c st.stopped)
  rwa [Fintype.card_fin, card_insert_of_notMem (by simp [hf.1])] at hle

theorem card_enterSynch (h : st.synch c = false) :
    (st.exec c linuxPlugin .enterSynch).stopped.card = st.stopped.card + 1 := by
  rw [← card_insert_of_notMem (s := st.stopped) (a := c) (by simp [h])]
  congr 1
  ext d
  by_cases hd : d = c <;> simp [exec, hd]

theorem Inv.all_stopped (h : Inv st) (hf : st.Free c) (hn : n ≤ st.cannotUsePlugin) (hd : d ≠ c) :
    st.synch d = true := by
  have hall : insert c st.stopped = univ := by
    rw [← card_eq_iff_eq_univ, Fintype.card_fin, card_insert_of_notMem (by simp [hf.1])]
    exact le_antisymm (card_stopped_lt hf) (hn.trans h.counted)
  have hmem : d ∈ insert c st.stopped := hall ▸ mem_univ d
  simpa [hd] using hmem

/-- While a CPU has the lock, it alone makes steps. -/
theorem Inv.eq_of_locked (h : Inv st) (hl : st.Legal c a) (hd : st.phase d = .locked) :
    d = c ∧ ∃ p x y, a = .switch p x y := by
  obtain ⟨hf, hpos, hall⟩ := h.alone d hd
  have hfree (hc : st.Free c) : d = c :=
    not_imp_comm.mp (fun hne => hall c (Ne.symm hne)) (by simp [hc.1])
  have hopen (hc : st.Open c) : False := hc.2 (hfree hc.1 ▸ hd)
  cases a with
  | call | sendIpis | finish | lock =>
    have := hfree hl.1
    grind [Legal]
  | enterSynch | exitTask => exact (hopen hl.1).elim
  | enterCallback | admitTask => exact (hopen hl).elim
  | leaveSynch => exact absurd hl.2 hpos.ne'
  | switch p x y =>
    exact ⟨not_imp_comm.mp (fun hne => (h.alone c hl).2.2 d hne) (by simp [hf.1]), p, x, y, rfl⟩
  | leaveCallback =>
    by_cases hne : c = d
    · exact absurd (hne ▸ hf.2) hl
    · exact absurd (h.quiet c (hall c hne)) hl

theorem Inv.counted_exec (h : Inv st) (hl : st.Legal c a) :
    (st.exec c linuxPlugin a).cannotUsePlugin ≤ (st.exec c linuxPlugin a).stopped.card + 1 := by
  cases a with
  | call | finish => simp [exec]
  | enterSynch =>
    rw [card_enterSynch hl.1.1.1]
    exact Nat.succ_le_succ h.counted
  | leaveSynch => exact hl.2.le.trans (Nat.zero_le _)
  | _ => exact h.counted

theorem Inv.step (h : Inv st) (hl : st.Legal c a) : Inv (st.exec c linuxPlugin a) := by
  have hlocked := fun d => @h.eq_of_locked _ _ _ c d a hl
  have hall := fun d => @h.all_stopped _ _ _ c d
  have hcount : _ ≤ (st.exec c linuxPlugin a).stopped.card + 1 := h.counted_exec hl
  have hn := c.isLt
  obtain ⟨-, halone, hquiet, hcur, hadm, htasks⟩ := h
  -- only `lock` gives the lock to a CPU, and only `switch` is made by one that has it
  refine ⟨hcount, ?_, ?_, ?_, ?_, ?_⟩ <;> clear hcount <;> cases a <;>
    simp only [Legal, Open, Free, exec, setPhase] at * <;>
    grind [update_apply, → List.mem_of_mem_eraseIdx]

/-- Who is in a callback of a plugin, or was admitted by one, still has that plugin, and it is
    replaced only while every other CPU is stopped. -/
theorem plugin_switch_safe (hrun : Run (Step linuxPlugin) (.init plugin) ops st) :
    (∀ c p, st.callback c = some p → p = st.litmus) ∧ (∀ p ∈ st.admitted, p = st.litmus) ∧
      ∀ c, st.phase c = .locked →
        ∀ d, d ≠ c → st.synch d = true ∧ st.callback d = none ∧ st.phase d ≠ .locked := by
  have hinv : Inv st := by
    refine hrun.invariant (fun s l t hs (hstep : Step _ s l t) => hstep.2 ▸ hs.step hstep.1) ?_
    exact ⟨Nat.zero_le _, nofun, nofun, nofun, nofun, rfl⟩
  refine ⟨hinv.current, hinv.admitted, fun c hc d hd => ?_⟩
  have hs := (hinv.alone c hc).2.2 d hd
  exact ⟨hs, hinv.quiet d hs, fun hd => absurd (hinv.alone d hd).1.1 (by simp [hs])⟩

/-- One of two CPUs has the lock, after a callback on the other one. -/
theorem plugin_switch_safe_two : ∃ (ops : List (Fin 2 × Act Bool)) (st : State 2 Bool),
    Run (Step false) (.init true) ops st ∧ st.phase 0 = .locked ∧ st.synch 1 = true := by
  have hrun : Run (Step false) (.init true : State 2 Bool) [(1, .enterCallback), (0, .call),
      (0, .sendIpis), (1, .leaveCallback), (1, .enterSynch), (0, .lock)] _ :=
    .cons ⟨⟨⟨rfl, rfl⟩, by decide⟩, rfl⟩ (.cons ⟨⟨⟨rfl, rfl⟩, rfl⟩, rfl⟩
      (.cons ⟨⟨⟨rfl, rfl⟩, rfl⟩, rfl⟩ (.cons ⟨Option.some_ne_none _, rfl⟩
        (.cons ⟨⟨⟨⟨rfl, rfl⟩, by decide⟩, Nat.one_pos⟩, rfl⟩
          (.cons ⟨⟨⟨rfl, rfl⟩, rfl, le_rfl⟩, rfl⟩ .nil)))))
  exact ⟨_, _, hrun, rfl, ((plugin_switch_safe hrun).2.2 0 rfl 1 (by decide)).1⟩

/-- The CPUs `S` are not counted: they are still in the handler of an earlier call. -/
structure Hung (S : Finset (Fin n)) (st : State n P) : Prop where
  sub : S ⊆ st.stopped
  pos : 0 < st.cannotUsePlugin
  uncounted : st.cannotUsePlugin + S.card ≤ st.stopped.card + 1
  phase : ∀ e, st.phase e ≠ .locked ∧ st.phase e ≠ .unlocked

theorem Hung.step {S : Finset (Fin n)} (hS : S.Nonempty) (h : Hung S st) (hl : st.Legal c a) :
    Hung S (st.exec c linuxPlugin a) ∧ (st.exec c linuxPlugin a).litmus = st.litmus := by
  have hset {k : Phase} (hk : k ≠ .locked ∧ k ≠ .unlocked) (e : Fin n) :
      (st.setPhase c k).phase e ≠ .locked ∧ (st.setPhase c k).phase e ≠ .unlocked := by
    by_cases he : e = c
    · simpa [setPhase, he] using hk
    · simpa [setPhase, he] using h.phase e
  cases a with
  | call =>
    refine ⟨⟨h.sub, Nat.one_pos, ?_, hset ⟨nofun, nofun⟩⟩, rfl⟩
    exact (Nat.add_comm ..).trans_le (Nat.succ_le_succ (card_le_card h.sub))
  | sendIpis => exact ⟨⟨h.sub, h.pos, h.uncounted, hset ⟨nofun, nofun⟩⟩, rfl⟩
  | enterSynch =>
    refine ⟨⟨fun d hd => ?_, Nat.succ_pos _, ?_, h.phase⟩, rfl⟩
    · have := h.sub hd
      by_cases hdc : d = c <;> simp_all [exec]
    · rw [card_enterSynch hl.1.1.1, exec, Nat.add_right_comm]
      exact Nat.succ_le_succ h.uncounted
  | leaveSynch => exact absurd hl.2 h.pos.ne'
  | lock =>
    -- the caller is not in the handler either, so too few are counted
    have hlt := card_stopped_lt hl.1
    have hpos := hS.card_pos
    have hle := h.uncounted
    have hn := hl.2.2
    omega
  | switch => exact absurd hl (h.phase c).1
  | finish => exact absurd hl.2 (h.phase c).2
  | _ => exact ⟨⟨h.sub, h.pos, h.uncounted, h.phase⟩, rfl⟩

/-- A call that begins while a CPU is still in the handler of the previous one never gets the
    lock: that CPU has missed the zero and is not counted again. -/
theorem plugin_switch_hangs {st₁ : State n P} (hd : st.synch d = true)
    (hphase : ∀ e, st.phase e ≠ .locked ∧ st.phase e ≠ .unlocked)
    (hcall : Step linuxPlugin st (c, .call) st₁) (hrun : Run (Step linuxPlugin) st₁ ops st') :
    st'.litmus = st.litmus ∧ st'.synch d = true ∧ ∀ e, st'.phase e ≠ .locked := by
  obtain ⟨hl, rfl⟩ := hcall
  have hstart : Hung st.stopped (st.exec c linuxPlugin .call) := by
    refine ⟨subset_rfl, Nat.one_pos, (Nat.add_comm ..).le, fun e => ?_⟩
    by_cases he : e = c
    · simp [exec, setPhase, he]
    · simpa [exec, setPhase, he] using hphase e
  obtain ⟨h, heq⟩ : Hung st.stopped st' ∧ st'.litmus = st.litmus := by
    refine hrun.invariant (I := fun s => Hung st.stopped s ∧ s.litmus = st.litmus)
      (fun s l t hs hstep => ?_) ⟨hstart, rfl⟩
    obtain ⟨hl, rfl⟩ := hstep
    exact (hs.1.step ⟨d, mem_stopped.mpr hd⟩ hl).imp_right (·.trans hs.2)
  exact ⟨heq, mem_stopped.mp (h.sub (mem_stopped.mpr hd)), fun e => (h.phase e).1⟩

/-- A second switch right after the first one. -/
theorem plugin_switch_hangs_twice :
    ∃ (before : List (Fin 2 × Act Bool)) (st st₁ : State 2 Bool),
      Run (Step false) (.init true) before st ∧ Step false st (0, .call) st₁ ∧
      ∀ ops st', Run (Step false) st₁ ops st' → st'.litmus = false ∧ st'.synch 1 = true := by
  have hrun : Run (Step false) (.init true : State 2 Bool) [(0, .call), (0, .sendIpis),
      (1, .enterSynch), (0, .lock), (0, .switch false 0 0), (0, .finish)] _ :=
    .cons ⟨⟨⟨rfl, rfl⟩, rfl⟩, rfl⟩ (.cons ⟨⟨⟨rfl, rfl⟩, rfl⟩, rfl⟩
      (.cons ⟨⟨⟨⟨rfl, rfl⟩, by decide⟩, Nat.one_pos⟩, rfl⟩ (.cons ⟨⟨⟨rfl, rfl⟩, rfl, le_rfl⟩, rfl⟩
        (.cons ⟨rfl, rfl⟩ (.cons ⟨⟨⟨rfl, rfl⟩, rfl⟩, rfl⟩ .nil)))))
  refine ⟨_, _, _, hrun, ⟨⟨⟨rfl, rfl⟩, rfl⟩, rfl⟩, fun ops st' h => ?_⟩
  obtain ⟨hlitmus, hsynch, -⟩ :=
    plugin_switch_hangs (d := 1) rfl (by decide) ⟨⟨⟨rfl, rfl⟩, rfl⟩, rfl⟩ h
  exact ⟨hlitmus, hsynch⟩

end Litmus.PluginSwitch
