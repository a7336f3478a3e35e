import Litmus.FairLag
import Litmus.PfairQuantum

/-!
# The subtasks of PFAIR as units of a share

`init_subtask` computes the windows of the subtasks of one job with integer divisions, and
`advance_subtask` shifts them by the period from job to job.  Counted through since the first
release, they are the windows of a proportionate-fair share.
-/

namespace Litmus.Pfair

open ProportionateFair PfairTask

variable {n : Nat}

theorem divUp_eq {a b : Nat} (hb : 0 < b) : divUp a b = a ⌈/⌉ b := by
  refine eq_of_forall_ge_iff fun c => ?_
  rw [ceilDiv_le_iff_le_mul hb, divUp]
  have hdi := Nat.div_add_mod a b
  have hmod := Nat.mod_lt a hb
  split
  · rename_i hne
    constructor
    · intro h
      have := Nat.mul_le_mul_left b h
      rw [Nat.mul_succ] at this
      omega
    intro h
    by_contra hlt
    have := Nat.mul_le_mul_left b (Nat.le_of_lt_succ (Nat.lt_of_not_le hlt))
    omega
  rename_i heq
  rw [not_not] at heq
  rw [heq, add_zero] at hdi
  rw [← Nat.mul_le_mul_left_iff hb, hdi]

theorem add_mul_ceilDiv (c a : Nat) {e : Nat} (he : 0 < e) : (c + e * a) ⌈/⌉ e = c ⌈/⌉ e + a := by
  rw [Nat.ceilDiv_eq_add_pred_div, Nat.ceilDiv_eq_add_pred_div, ← Nat.add_mul_div_left _ _ he]
  congr 1
  omega

/-- The claim of a task that starts at quantum `start`. -/
def PfairParam.share (q : PfairParam) (start : Nat) : Share :=
  if h : 0 < q.quanta ∧ q.quanta ≤ q.period then
    { quanta := q.quanta, period := q.period, start := start, quanta_pos := h.1, quanta_le := h.2 }
  else { quanta := 1, period := 1, start := start, quanta_pos := Nat.one_pos, quanta_le := le_refl 1 }

@[simp] theorem PfairParam.start_share (q : PfairParam) (start : Nat) :
    (q.share start).start = start := by
  unfold PfairParam.share
  split <;> rfl

/-- The current subtask is number `k` since the start. -/
def PfairParam.AtUnit (q : PfairParam) (start k : Nat) : Prop :=
  ∃ job, q.release = start + job * q.period ∧ k = job * q.quanta + q.cur

section Unit

variable {q : PfairParam} {start k : Nat} {p : PfairTask n}

theorem PfairParam.AtUnit.advanced (h : q.AtUnit start k) (hwf : q.Wf) (time : Nat) (cpu : Fin n) :
    (q.advanced time cpu).AtUnit start (k + 1) := by
  obtain ⟨job, hre, rfl⟩ := h
  have hlt := hwf.cur_lt
  simp only [PfairParam.AtUnit, PfairParam.advanced]
  rcases Nat.lt_or_eq_of_le (Nat.succ_le_of_lt hlt) with hin | hen
  · refine ⟨job, ?_, ?_⟩
    · rw [Nat.mod_eq_of_lt hin, if_neg (Nat.succ_ne_zero _), hre]
    rw [Nat.mod_eq_of_lt hin, add_assoc]
  refine ⟨job + 1, ?_, ?_⟩
  · rw [← Nat.succ_eq_add_one, hen, Nat.mod_self, if_pos rfl, hre, Nat.add_one_mul, add_assoc]
  rw [← Nat.succ_eq_add_one q.cur, hen, Nat.mod_self, Nat.add_one_mul]
  omega

theorem share_eq (hpo : 0 < q.quanta) (hle : q.quanta ≤ q.period) (start : Nat) :
    q.share start =
      { quanta := q.quanta, period := q.period, start := start, quanta_pos := hpo,
        quanta_le := hle } := dif_pos ⟨hpo, hle⟩

/-- The window of subtask `i` of a job, as `init_subtask` computes it, is that of the unit. -/
theorem unit_window (V : Share) (job i : Nat) : V.release (job * V.quanta + i) =
        V.start + job * V.period + (initSubtask i V.quanta V.period).release ∧
      V.deadline (job * V.quanta + i) =
        V.start + job * V.period + (initSubtask i V.quanta V.period).deadline := by
  constructor
  · simp only [Share.release, initSubtask]
    rw [show (job * V.quanta + i) * V.period = V.period * i + V.quanta * (job * V.period) by ring,
      Nat.add_mul_div_left _ _ V.quanta_pos]
    omega
  simp only [Share.deadline, initSubtask]
  rw [divUp_eq V.quanta_pos, show (job * V.quanta + i + 1) * V.period =
    V.period * (i + 1) + V.quanta * (job * V.period) by ring, add_mul_ceilDiv _ _ V.quanta_pos]
  omega

theorem unit_overlap (V : Share) (job i : Nat) :
    V.overlap (job * V.quanta + i) = (initSubtask i V.quanta V.period).overlap := by
  have hd := (unit_window V job i).2
  have hr := (unit_window V job (i + 1)).1
  rw [← add_assoc] at hr
  rw [Share.overlap, hd, hr]
  simp only [initSubtask]
  omega

theorem share_window (hpos : 0 < q.quanta) (hle : q.quanta ≤ q.period) (start job i : Nat) :
    (q.share start).release (job * q.quanta + i) =
        start + job * q.period + (initSubtask i q.quanta q.period).release ∧
      (q.share start).deadline (job * q.quanta + i) =
        start + job * q.period + (initSubtask i q.quanta q.period).deadline := by
  rw [share_eq hpos hle]
  exact unit_window _ job i

theorem PfairParam.AtUnit.window (h : p.pfair.AtUnit start k) (hwf : p.pfair.Wf)
    (hle : p.pfair.quanta ≤ p.pfair.period) : (p.pfair.share start).release k = p.curRelease ∧
      (p.pfair.share start).deadline k = p.curDeadline := by
  obtain ⟨job, hrel, rfl⟩ := h
  obtain ⟨hr, hd⟩ := share_window hwf.quanta_pos hle start job p.pfair.cur
  rw [hr, hd, curRelease, curDeadline, curSubtask_eq hwf, hrel]
  exact ⟨add_comm _ _, add_comm _ _⟩

theorem PfairParam.AtUnit.overlap (h : p.pfair.AtUnit start k) (hwf : p.pfair.Wf)
    (hle : p.pfair.quanta ≤ p.pfair.period) : (p.pfair.share start).overlap k = p.curOverlap := by
  obtain ⟨job, hrel, rfl⟩ := h
  rw [curOverlap, curSubtask_eq hwf, share_eq hwf.quanta_pos hle]
  exact unit_overlap _ job p.pfair.cur

theorem deadline_bounds {i quanta period : Nat} (hi : i < quanta) (hle : quanta ≤ period) :
    i + 1 ≤ divUp (period * (i + 1)) quanta ∧ divUp (period * (i + 1)) quanta ≤ period ∧
      (quanta < period → i + 1 < divUp (period * (i + 1)) quanta) ∧
      (quanta = period → divUp (period * (i + 1)) quanta = i + 1) := by
  have hpo : 0 < quanta := Nat.zero_lt_of_lt hi
  have hif : ∀ c, divUp (period * (i + 1)) quanta ≤ c ↔ period * (i + 1) ≤ quanta * c := by
    intro c
    rw [divUp_eq hpo, ceilDiv_le_iff_le_mul hpo]
  have hmul : quanta * (i + 1) ≤ period * (i + 1) := Nat.mul_le_mul_right _ hle
  have hlo : i + 1 ≤ divUp (period * (i + 1)) quanta := by
    by_contra hlt
    have := (hif i).mp (by omega)
    rw [Nat.mul_succ quanta i] at hmul
    omega
  refine ⟨hlo, (hif period).mpr ?_, ?_, ?_⟩
  · rw [mul_comm quanta period]
    exact Nat.mul_le_mul_left _ hi
  · intro hlt
    by_contra hn
    have := (hif (i + 1)).mp (by omega)
    have hmul' : quanta * (i + 1) < period * (i + 1) :=
      Nat.mul_lt_mul_of_pos_right hlt (Nat.succ_pos i)
    omega
  intro heq
  refine le_antisymm ((hif (i + 1)).mpr ?_) hlo
  rw [heq]

theorem initSubtask_groupDeadline {i quanta period : Nat} (hi : i < quanta) (hle : quanta ≤ period)
    (hpd : period < pfairMaxPeriod) :
    (initSubtask i quanta period).groupDeadline = if period ≤ 2 * quanta ∧ quanta < period then
        ((divUp (period * (i + 1)) quanta - (i + 1)) * period) ⌈/⌉ (period - quanta) else 0 := by
  obtain ⟨hlow, hhig, _, hs⟩ := deadline_bounds hi hle
  have hsma : (divUp (period * (i + 1)) quanta - (i + 1)) * period < 2 ^ 64 := by
    have hmul : (divUp (period * (i + 1)) quanta - (i + 1)) * period ≤ 2000 * 2000 :=
      Nat.mul_le_mul (by unfold pfairMaxPeriod at hpd; omega)
        (by unfold pfairMaxPeriod at hpd; omega)
    omega
  have htmp : (divUp (period * (i + 1)) quanta + 2 ^ 64 - (i + 1)) % 2 ^ 64 * period % 2 ^ 64 =
      (divUp (period * (i + 1)) quanta - (i + 1)) * period := by
    have hmod : (divUp (period * (i + 1)) quanta + 2 ^ 64 - (i + 1)) % 2 ^ 64 =
        divUp (period * (i + 1)) quanta - (i + 1) := by
      unfold pfairMaxPeriod at hpd
      omega
    rw [hmod, Nat.mod_eq_of_lt hsma]
  simp only [initSubtask, htmp]
  by_cases hhe : period ≤ 2 * quanta
  · rw [if_pos hhe]
    by_cases hlt : quanta < period
    · rw [if_pos hlt, if_pos ⟨hhe, hlt⟩, divUp_eq (Nat.sub_pos_of_lt hlt)]
    have heq : quanta = period := Nat.le_antisymm hle (Nat.le_of_not_lt hlt)
    rw [if_neg hlt, if_neg fun h => hlt h.2, hs heq, Nat.sub_self, Nat.zero_mul]
  rw [if_neg hhe, if_neg fun h => hhe h.1]

theorem PfairParam.AtUnit.groupDeadline (h : p.pfair.AtUnit start k) (hwf : p.pfair.Wf)
    (hle : p.pfair.quanta ≤ p.pfair.period) :
    (p.pfair.share start).groupDeadline k = p.curGroupDeadline := by
  obtain ⟨job, hrel, rfl⟩ := h
  have hd := (share_window hwf.quanta_pos hle start job p.pfair.cur).2
  obtain ⟨hlow, _, hstr, _⟩ := deadline_bounds hwf.cur_lt hle
  rw [curGroupDeadline, curSubtask_eq hwf, Share.groupDeadline, hd,
    initSubtask_groupDeadline hwf.cur_lt hle hwf.period_lt, share_eq hwf.quanta_pos hle]
  simp only [initSubtask]
  by_cases hhe : p.pfair.period ≤ 2 * p.pfair.quanta ∧ p.pfair.quanta < p.pfair.period
  · have hid : 0 < p.pfair.period - p.pfair.quanta := Nat.sub_pos_of_lt hhe.2
    have hpos : ((divUp (p.pfair.period * (p.pfair.cur + 1)) p.pfair.quanta - (p.pfair.cur + 1)) *
        p.pfair.period) ⌈/⌉ (p.pfair.period - p.pfair.quanta) ≠ 0 := by
      intro h0
      have hle0 := (ceilDiv_le_iff_le_mul hid).mp h0.le
      have hpro := Nat.mul_pos (Nat.sub_pos_of_lt (hstr hhe.2)) (hwf.quanta_pos.trans_le hle)
      omega
    rw [if_pos hhe, if_pos hhe, if_pos hpos, hrel]
    have hco : start + job * p.pfair.period +
        divUp (p.pfair.period * (p.pfair.cur + 1)) p.pfair.quanta - start -
          (job * p.pfair.quanta + p.pfair.cur + 1) =
        (divUp (p.pfair.period * (p.pfair.cur + 1)) p.pfair.quanta - (p.pfair.cur + 1)) +
          (p.pfair.period - p.pfair.quanta) * job := by
      have hsp : job * p.pfair.period = job * p.pfair.quanta +
          (p.pfair.period - p.pfair.quanta) * job := by
        rw [mul_comm (p.pfair.period - p.pfair.quanta), ← Nat.mul_add]
        congr 1
        omega
      omega
    rw [hco, Nat.add_mul, mul_assoc, add_mul_ceilDiv _ _ hid]
    omega
  rw [if_neg hhe, if_neg hhe, if_neg (by simp)]

end Unit

end Litmus.Pfair
