import Litmus.PfairUnits

/-!
# The windows of PD² in machine words

`init_subtask` computes the window of a subtask with 64-bit products, divisors that `do_div`
cuts to 32 bits and results of the width of `unsigned long`.  Within the periods that the
plugin admits none of this loses a bit, the windows tile the job, and the closed formula of the
group deadline is the end of the cascade that PD² defines it by.
-/

namespace Litmus.Pfair

open ProportionateFair
open BitVec (toNat_setWidth ofNat toNat_mul toNat_sub_of_le)

/-- `do_div`: the quotient that replaces the dividend, and the remainder that it returns; the
    divisor is a 32-bit number. -/
def doDiv (dividend divisor : BitVec 64) : BitVec 64 × BitVec 32 :=
  let base := (divisor.setWidth 32).setWidth 64
  (dividend / base, (dividend % base).setWidth 32)

/-- `if (do_div(tmp, base)) tmp++` -/
def doDivUp (tmp base : BitVec 64) : BitVec 64 :=
  if (doDiv tmp base).2 ≠ 0 then (doDiv tmp base).1 + 1 else (doDiv tmp base).1

/-- `struct subtask`, with an `unsigned long` of `w` bits -/
structure SubtaskWords (w : Nat) where
  release : BitVec w
  deadline : BitVec w
  overlap : BitVec w
  groupDeadline : BitVec w
deriving DecidableEq

/-- `init_subtask`; `lt_t` has 64 bits, `quanta_t` and the index are `unsigned long`. -/
def initSubtaskWords {w : Nat} (i : BitVec w) (quanta period : LtTime) : SubtaskWords w where
  release := (doDiv (period * i.setWidth 64) quanta).1.setWidth w
  deadline := (doDivUp (period * (i + 1).setWidth 64) quanta).setWidth w
  overlap :=
    (doDivUp (period * (i + 1).setWidth 64) quanta).setWidth w -
      (doDiv (period * (i + 1).setWidth 64) quanta).1.setWidth w
  groupDeadline :=
    if period ≤ 2 * quanta then
      let tmp := ((doDivUp (period * (i + 1).setWidth 64) quanta).setWidth w - (i + 1)).setWidth 64 *
        period
      (if quanta < period then doDivUp tmp (period - quanta) else tmp).setWidth w
    else 0

namespace SubtaskWords

variable {w : Nat}

def toSubtask (sub : SubtaskWords w) : Subtask where
  release := sub.release.toNat
  deadline := sub.deadline.toNat
  overlap := sub.overlap.toNat
  groupDeadline := sub.groupDeadline.toNat

end SubtaskWords

/-- The formulas of `init_subtask` over unbounded numbers. -/
def exactSubtask (i quanta period : Nat) : Subtask where
  release := period * i / quanta
  deadline := (period * (i + 1)) ⌈/⌉ quanta
  overlap := (period * (i + 1)) ⌈/⌉ quanta - period * (i + 1) / quanta
  groupDeadline :=
    if period ≤ 2 * quanta then
      (((period * (i + 1)) ⌈/⌉ quanta - (i + 1)) * period) ⌈/⌉ (period - quanta)
    else 0

/-! ### Divisions -/

section Division

variable {tmp base : BitVec 64}

theorem toNat_doDiv (hbas : base.toNat < 2 ^ 32) :
    (doDiv tmp base).1.toNat = tmp.toNat / base.toNat := by
  have hcut : ((base.setWidth 32).setWidth 64).toNat = base.toNat := by
    simp only [toNat_setWidth]
    omega
  rw [doDiv, BitVec.toNat_udiv, hcut]

theorem doDiv_rest (hpos : 0 < base.toNat) (hbas : base.toNat < 2 ^ 32) :
    (doDiv tmp base).2 = 0 ↔ tmp.toNat % base.toNat = 0 := by
  have hcut : ((base.setWidth 32).setWidth 64).toNat = base.toNat := by
    simp only [toNat_setWidth]
    omega
  have hres := Nat.mod_lt tmp.toNat hpos
  rw [doDiv, ← BitVec.toNat_inj, toNat_setWidth, BitVec.toNat_umod, hcut,
    Nat.mod_eq_of_lt (hres.trans hbas)]
  rfl

theorem toNat_doDivUp (hpo : 0 < base.toNat) (hba : base.toNat < 2 ^ 32) :
    (doDivUp tmp base).toNat = tmp.toNat ⌈/⌉ base.toNat := by
  have hqu : (doDiv tmp base).1.toNat = tmp.toNat / base.toNat := toNat_doDiv hba
  rw [← divUp_eq hpo, doDivUp, divUp]
  by_cases hre : tmp.toNat % base.toNat = 0
  · rw [if_neg (not_not.mpr ((doDiv_rest hpo hba).mpr hre)), if_neg (not_not.mpr hre), hqu]
  rw [if_pos (fun h => hre ((doDiv_rest hpo hba).mp h)), if_pos hre, BitVec.toNat_add, hqu]
  change (tmp.toNat / base.toNat + 1) % 2 ^ 64 = tmp.toNat / base.toNat + 1
  -- only a divisor above 1 leaves a rest
  have htwo : 2 ≤ base.toNat := by
    by_contra hlt
    rw [show base.toNat = 1 by omega, Nat.mod_one] at hre
    exact hre rfl
  have hhal : tmp.toNat / base.toNat < 2 ^ 63 :=
    Nat.div_lt_of_lt_mul (tmp.isLt.trans_le (Nat.mul_le_mul_right (2 ^ 63) htwo))
  exact Nat.mod_eq_of_lt (by omega)

end Division

/-! ### No overflow -/

section Exact

variable {w i : Nat} {quanta period : LtTime}

section

variable (hw : 32 ≤ w)
include hw

theorem toNat_setWidth_small {v : Nat} {x : BitVec v} (hx : x.toNat < 2 ^ 32) :
    (x.setWidth w).toNat = x.toNat := by
  have hpow : 2 ^ 32 ≤ 2 ^ w := Nat.pow_le_pow_right Nat.two_pos hw
  rw [toNat_setWidth, Nat.mod_eq_of_lt (hx.trans_le hpow)]

theorem toNat_ofNat_small {m : Nat} (hm : m < 2 ^ 32) : (ofNat w m).toNat = m := by
  have hpow : 2 ^ 32 ≤ 2 ^ w := Nat.pow_le_pow_right Nat.two_pos hw
  rw [BitVec.toNat_ofNat, Nat.mod_eq_of_lt (hm.trans_le hpow)]

theorem toNat_mul_index {m : Nat} (hm : m ≤ pfairMaxPeriod) (hpd : period.toNat < pfairMaxPeriod) :
    (period * (ofNat w m).setWidth 64).toNat = period.toNat * m ∧ period.toNat * m < 2 ^ 32 := by
  unfold pfairMaxPeriod at hm hpd
  have hsma : period.toNat * m ≤ 2000 * 2000 := Nat.mul_le_mul hpd.le hm
  have hidx : (ofNat w m).toNat = m := toNat_ofNat_small hw (by omega)
  have hwid : ((ofNat w m).setWidth 64).toNat = m := by
    rw [toNat_setWidth_small (by omega) (by omega), hidx]
  rw [toNat_mul, hwid]
  exact ⟨Nat.mod_eq_of_lt (by omega), by omega⟩

theorem toNat_floorWord {m : Nat} (hm : m ≤ pfairMaxPeriod)
    (hqua : quanta.toNat < pfairMaxPeriod) (hpd : period.toNat < pfairMaxPeriod) :
    ((doDiv (period * (ofNat w m).setWidth 64) quanta).1.setWidth w).toNat =
      period.toNat * m / quanta.toNat := by
  obtain ⟨hmul, hsma⟩ := toNat_mul_index hw hm hpd
  unfold pfairMaxPeriod at hqua
  have hle := Nat.div_le_self (period.toNat * m) quanta.toNat
  have hquo : (doDiv (period * (ofNat w m).setWidth 64) quanta).1.toNat =
      period.toNat * m / quanta.toNat := by
    rw [toNat_doDiv (by omega), hmul]
  rw [toNat_setWidth_small hw (by omega), hquo]

theorem toNat_deadlineWord (hi : i < quanta.toNat) (hle : quanta.toNat ≤ period.toNat)
    (hpd : period.toNat < pfairMaxPeriod) :
    ((doDivUp (period * (ofNat w (i + 1)).setWidth 64) quanta).setWidth w).toNat =
      (period.toNat * (i + 1)) ⌈/⌉ quanta.toNat := by
  have hpo : 0 < quanta.toNat := Nat.zero_lt_of_lt hi
  obtain ⟨hmul, hsma⟩ := toNat_mul_index (m := i + 1) hw (by omega) hpd
  obtain ⟨_, hhig, _, _⟩ := deadline_bounds hi hle
  rw [divUp_eq hpo] at hhig
  unfold pfairMaxPeriod at hpd
  have hcei : (doDivUp (period * (ofNat w (i + 1)).setWidth 64) quanta).toNat =
      (period.toNat * (i + 1)) ⌈/⌉ quanta.toNat := by
    rw [toNat_doDivUp hpo (by omega), hmul]
  rw [toNat_setWidth_small hw (by omega), hcei]

theorem toNat_groupWord {d : BitVec w} (hlow : i + 1 ≤ d.toNat)
    (hhig : d.toNat ≤ period.toNat) (hlt : quanta.toNat < period.toNat)
    (hpd : period.toNat < pfairMaxPeriod) :
    ((doDivUp ((d - ofNat w (i + 1)).setWidth 64 * period) (period - quanta)).setWidth
        w).toNat = ((d.toNat - (i + 1)) * period.toNat) ⌈/⌉ (period.toNat - quanta.toNat) := by
  unfold pfairMaxPeriod at hpd
  have hidx : (ofNat w (i + 1)).toNat = i + 1 := toNat_ofNat_small hw (by omega)
  have hsub : (d - ofNat w (i + 1)).toNat = d.toNat - (i + 1) := by
    rw [toNat_sub_of_le (by rw [BitVec.le_def]; omega), hidx]
  have hwid : ((d - ofNat w (i + 1)).setWidth 64).toNat = d.toNat - (i + 1) := by
    rw [toNat_setWidth_small (by omega) (by omega), hsub]
  have hsma : (d.toNat - (i + 1)) * period.toNat ≤ 2000 * 2000 :=
    Nat.mul_le_mul (by omega) hpd.le
  have htmp : ((d - ofNat w (i + 1)).setWidth 64 * period).toNat =
      (d.toNat - (i + 1)) * period.toNat := by
    rw [toNat_mul, hwid, Nat.mod_eq_of_lt (by omega)]
  have hidl : (period - quanta).toNat = period.toNat - quanta.toNat :=
    toNat_sub_of_le (by rw [BitVec.le_def]; omega)
  have hquo : (doDivUp ((d - ofNat w (i + 1)).setWidth 64 * period)
      (period - quanta)).toNat =
      ((d.toNat - (i + 1)) * period.toNat) ⌈/⌉ (period.toNat - quanta.toNat) := by
    rw [toNat_doDivUp (by omega) (by omega), htmp, hidl]
  have hle : ((d.toNat - (i + 1)) * period.toNat) ⌈/⌉ (period.toNat - quanta.toNat) ≤
      (d.toNat - (i + 1)) * period.toNat := by
    rw [ceilDiv_le_iff_le_mul (by omega)]
    exact Nat.le_mul_of_pos_left _ (by omega)
  rw [toNat_setWidth_small hw (by omega), hquo]

theorem toSubtask_initSubtaskWords (hi : i < quanta.toNat)
    (hlt : quanta.toNat < period.toNat) (hpd : period.toNat < pfairMaxPeriod) :
    (initSubtaskWords (ofNat w i) quanta period).toSubtask =
      exactSubtask i quanta.toNat period.toNat := by
  have hmax : pfairMaxPeriod = 2000 := rfl
  have hpos : 0 < quanta.toNat := Nat.zero_lt_of_lt hi
  have hn : ofNat w i + 1 = ofNat w (i + 1) := (BitVec.ofNat_add i 1).symm
  have hde := toNat_deadlineWord hw hi hlt.le hpd
  have hflo := toNat_floorWord (m := i + 1) hw (by omega) (hlt.trans hpd) hpd
  obtain ⟨hlo, hhi, _, _⟩ := deadline_bounds hi hlt.le
  rw [divUp_eq hpos, ← hde] at hlo hhi
  simp only [SubtaskWords.toSubtask, initSubtaskWords, exactSubtask, hn, Subtask.mk.injEq]
  refine ⟨toNat_floorWord hw (by omega) (hlt.trans hpd) hpd, hde, ?_, ?_⟩
  · have hrou : period.toNat * (i + 1) / quanta.toNat ≤
        (period.toNat * (i + 1)) ⌈/⌉ quanta.toNat := by
      rw [← Nat.floorDiv_eq_div]
      exact floorDiv_le_ceilDiv
    rw [toNat_sub_of_le (by rw [BitVec.le_def]; omega), hde, hflo]
  have hhe : period ≤ 2 * quanta ↔ period.toNat ≤ 2 * quanta.toNat := by
    rw [BitVec.le_def, toNat_mul]
    change period.toNat ≤ 2 * quanta.toNat % 2 ^ 64 ↔ _
    rw [Nat.mod_eq_of_lt (by omega)]
  by_cases h : period ≤ 2 * quanta
  · rw [if_pos h, if_pos (hhe.mp h), if_pos (BitVec.lt_def.mpr hlt),
      toNat_groupWord hw hlo hhi hlt hpd, hde]
  rw [if_neg h, if_neg (mt hhe.mpr h)]
  rfl

end

end Exact

/-! ### The windows of a job and their repetition -/

/-- The times of a subtask since the first release. -/
structure Window where
  release : Nat
  deadline : Nat
  overlap : Nat
deriving DecidableEq

/-- Entry `i` of `subtasks`, as numbers. -/
def subtaskAt (w : Nat) (quanta period : LtTime) (i : Nat) : Subtask :=
  (initSubtaskWords (BitVec.ofNat w i) quanta period).toSubtask

/-- The window of subtask `k` when each job is released one period after the previous one. -/
def repeatedWindow (w : Nat) (quanta period : LtTime) (k : Nat) : Window :=
  let sub := subtaskAt w quanta period (k % quanta.toNat)
  let job := k / quanta.toNat
  { release := job * period.toNat + sub.release
    deadline := job * period.toNat + sub.deadline
    overlap := sub.overlap }

section Windows

variable {w : Nat} {quanta period : LtTime}

theorem repeatedWindow_eq {V : Share} (hw : 32 ≤ w) (hqu : V.quanta = quanta.toNat)
    (hpd : V.period = period.toNat) (hsa : V.start = 0) (hlt : quanta.toNat < period.toNat)
    (hmax : period.toNat < pfairMaxPeriod) (k : Nat) :
    repeatedWindow w quanta period k = ⟨V.release k, V.deadline k, V.overlap k⟩ := by
  have hpo : 0 < quanta.toNat := hqu ▸ V.quanta_pos
  have hk : k / quanta.toNat * quanta.toNat + k % quanta.toNat = k := Nat.div_add_mod' k _
  obtain ⟨hr, hd⟩ := unit_window V (k / quanta.toNat) (k % quanta.toNat)
  have ho := unit_overlap V (k / quanta.toNat) (k % quanta.toNat)
  rw [hqu, hk, hpd] at hr hd ho
  rw [repeatedWindow, subtaskAt,
    toSubtask_initSubtaskWords hw (Nat.mod_lt k hpo) hlt hmax, hr, hd, ho, hsa]
  simp [exactSubtask, initSubtask, divUp_eq hpo]

theorem window_tiles (V : Share) (k : Nat) :
    V.release k < V.deadline k ∧ (V.overlap k = 0 ∨ V.overlap k = 1) ∧
      V.release (k + 1) = V.deadline k - V.overlap k := by
  have hove := V.overlap_le_one k
  have hlat := V.release_le_deadline k
  have hs := V.release_lt_succ k
  refine ⟨hs.trans_le hlat, by omega, ?_⟩
  rw [Share.overlap]
  omega

end Windows

/-- The windows of a job tile the period, and the group deadline of a heavy task is where the
    cascade of its short windows ends. -/
theorem init_subtask_pd2 {w : Nat} (hw : 32 ≤ w) {quanta period : LtTime}
    (hpos : 1 ≤ quanta.toNat) (hlt : quanta.toNat < period.toNat)
    (hmax : period.toNat < pfairMaxPeriod) :
    (subtaskAt w quanta period 0).release = 0 ∧
      (subtaskAt w quanta period (quanta.toNat - 1)).deadline = period.toNat ∧
      ∀ i < quanta.toNat, let sub := subtaskAt w quanta period i
        sub = exactSubtask i quanta.toNat period.toNat ∧
        sub.release < sub.deadline ∧ (sub.overlap = 0 ∨ sub.overlap = 1) ∧
        (repeatedWindow w quanta period (i + 1)).release = sub.deadline - sub.overlap ∧
        (period.toNat ≤ 2 * quanta.toNat → IsLeast {t | sub.deadline ≤ t ∧ ∃ k, i ≤ k ∧
            let window := repeatedWindow w quanta period k
            (window.deadline = t ∧ window.overlap = 0 ∨
              window.deadline = t + 1 ∧ window.deadline - window.release = 3)}
            sub.groupDeadline) := by
  let V : Share :=
    { quanta := quanta.toNat, period := period.toNat, start := 0, quanta_pos := hpos,
      quanta_le := hlt.le }
  have hrep : ∀ k, repeatedWindow w quanta period k = ⟨V.release k, V.deadline k, V.overlap k⟩ :=
    repeatedWindow_eq hw rfl rfl rfl hlt hmax
  have hexact : ∀ i < quanta.toNat,
      subtaskAt w quanta period i = exactSubtask i quanta.toNat period.toNat :=
    fun i hi => toSubtask_initSubtaskWords hw hi hlt hmax
  refine ⟨?_, ?_, fun i hi => ?_⟩
  · rw [hexact 0 hpos, exactSubtask, mul_zero, Nat.zero_div]
  · rw [hexact _ (by omega), exactSubtask, Nat.sub_add_cancel hpos]
    exact (congrArg (· ⌈/⌉ quanta.toNat) (mul_comm _ _)).trans
      (smul_ceilDiv (Nat.lt_of_succ_le hpos) period.toNat)
  have hwindow := hrep i
  simp only [repeatedWindow, Nat.mod_eq_of_lt hi, Nat.div_eq_of_lt hi, zero_mul, zero_add,
    Window.mk.injEq] at hwindow
  obtain ⟨hr, hd, ho⟩ := hwindow
  obtain ⟨hopen, hbit, hn⟩ := window_tiles V i
  simp only [hrep]
  rw [hr, hd, ho]
  refine ⟨hexact i hi, hopen, hbit, hn, fun hheavy => ?_⟩
  have hgroup : (subtaskAt w quanta period i).groupDeadline = V.groupDeadline i := by
    rw [hexact i hi, Share.groupDeadline, if_pos ⟨hheavy, hlt⟩, ← hd, hexact i hi, exactSubtask,
      if_pos hheavy]
    simp [V]
  rw [hgroup]
  exact V.isLeast_groupDeadline hheavy hlt i

/-- A task that claims 8 of 11 quanta: its first cascade ends at quantum 4, before the third
    window, which is longer than the two before it. -/
theorem init_subtask_pd2_eight_of_eleven :
    (subtaskAt 64 8 11 2).release = 2 ∧ (subtaskAt 64 8 11 2).deadline = 5 ∧
      IsLeast {t | 2 ≤ t ∧ ∃ k, 0 ≤ k ∧
        let window := repeatedWindow 64 8 11 k
        (window.deadline = t ∧ window.overlap = 0 ∨
          window.deadline = t + 1 ∧ window.deadline - window.release = 3)} 4 := by
  have h := (@init_subtask_pd2 64 (by decide) 8 11 (by decide) (by decide) (by decide)).2.2 0 (by decide)
  exact ⟨by decide, by decide, h.2.2.2.2 (by decide)⟩

end Litmus.Pfair
