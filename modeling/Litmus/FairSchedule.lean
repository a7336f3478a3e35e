import Litmus.FairWindows
import Mathlib.Data.Nat.Count

/-!
# The PD² rule is optimal

Time is divided into slots, and in each slot up to `m` tasks receive one unit.  A schedule
follows the PD² rule when every unit is handed out after its release and no released unit
is passed over unless `m` units that the rule prefers are handed out instead: those with
the earlier deadline, among equals those whose window overlaps the next, among these those
with the later group deadline.  If the weights add up to at most `m`, every unit is handed
out by its deadline.

The proof takes the first deadline that is missed and collects the units that are to blame
for it.  Slots in which fewer than `m` of them are handed out are holes.  The lag of these
units against the ideal processor does not grow from the beginning of a run of holes to the
end of the slot after it, which contradicts the missed deadline.
-/

namespace Litmus.ProportionateFair

open Finset

/-- Unit `k` of `V` may be handed out while unit `l` of `U` is passed over. -/
def Prefers (V : Share) (k : ℕ) (U : Share) (l : ℕ) : Prop :=
  V.deadline k < U.deadline l ∨ V.deadline k = U.deadline l ∧
    (U.overlap l < V.overlap k ∨ V.overlap k = U.overlap l ∧ U.groupDeadline l ≤ V.groupDeadline k)

theorem Prefers.deadline_le {V U : Share} {k l : ℕ} (h : Prefers V k U l) :
    V.deadline k ≤ U.deadline l := by
  rcases h with h | ⟨h, _⟩
  · exact h.le
  exact h.le

/-- Among overlapping windows with one deadline the rule compares group deadlines. -/
theorem Prefers.groupDeadline_le {V U : Share} {k l : ℕ} (h : Prefers V k U l)
    (hd : U.deadline l ≤ V.deadline k) (ho : U.overlap l = 1) :
    V.overlap k = 1 ∧ U.groupDeadline l ≤ V.groupDeadline k := by
  rcases h with h | ⟨_, h | ⟨hb, hD⟩⟩
  · exact absurd hd (not_le.mpr h)
  · have := V.overlap_le_one k
    omega
  exact ⟨hb.trans ho, hD⟩

variable {ι : Type*} [DecidableEq ι]

/-- How many units task `i` has received before slot `s`. -/
def received (sched : ℕ → Finset ι) (i : ι) (s : ℕ) : ℕ := Nat.count (fun x => i ∈ sched x) s

/-- The first `H` slots of `sched` follow the rule for the tasks of `S` on `m` processors. -/
structure Greedy (share : ι → Share) (S : Finset ι) (m H : ℕ) (sched : ℕ → Finset ι) :
    Prop where
  sub : ∀ s < H, sched s ⊆ S
  released : ∀ s < H, ∀ i ∈ sched s, (share i).release (received sched i s) ≤ s
  busy : ∀ s < H, ∀ u ∈ S, u ∉ sched s → (share u).release (received sched u s) ≤ s →
    (sched s).card = m ∧ ∀ i ∈ sched s,
      Prefers (share i) (received sched i s) (share u) (received sched u s)

section Received

variable {sched : ℕ → Finset ι} {i : ι} {s x : ℕ}

theorem received_succ (sched : ℕ → Finset ι) (i : ι) (s : ℕ) :
    received sched i (s + 1) = received sched i s + if i ∈ sched s then 1 else 0 :=
  Nat.count_succ _ _

theorem received_succ_of_mem (h : i ∈ sched s) :
    received sched i (s + 1) = received sched i s + 1 := by
  rw [received_succ, if_pos h]

theorem received_succ_of_notMem (h : i ∉ sched s) :
    received sched i (s + 1) = received sched i s := by
  rw [received_succ, if_neg h, add_zero]

theorem received_mono (i : ι) : Monotone (received sched i) := Nat.count_monotone _

theorem lt_received (h : i ∈ sched s) (hx : s < x) : received sched i s < received sched i x := by
  have hmo : received sched i (s + 1) ≤ received sched i x := received_mono i hx
  rw [received_succ_of_mem h] at hmo
  exact hmo

/-- A unit is handed out in one slot only. -/
theorem slot_unique (hs : i ∈ sched s) (hx : i ∈ sched x)
    (h : received sched i s = received sched i x) : s = x :=
  Nat.count_injective hs hx h

/-- Every unit received was handed out in some slot. -/
theorem exists_slot {k H : ℕ} (h : k < received sched i H) :
    ∃ s < H, i ∈ sched s ∧ received sched i s = k := by
  induction H with
  | zero => exact absurd h (Nat.not_lt_zero k)
  | succ H ih =>
    by_cases hk : k < received sched i H
    · obtain ⟨s, hs, hin, heq⟩ := ih hk
      exact ⟨s, hs.trans (Nat.lt_succ_self H), hin, heq⟩
    rw [received_succ] at h
    split at h
    · rename_i hin
      exact ⟨H, Nat.lt_succ_self H, hin, by omega⟩
    exact absurd h hk

theorem received_eq_zero {H : ℕ} (h : ∀ s < H, i ∉ sched s) : received sched i H = 0 := by
  by_contra hne
  obtain ⟨s, hs, hin, _⟩ := exists_slot (Nat.pos_of_ne_zero hne)
  exact h s hs hin

/-- Only earlier slots count. -/
theorem received_congr {sched' : ℕ → Finset ι} {H : ℕ} (h : ∀ s < H, sched' s = sched s) :
    received sched' i H = received sched i H := by
  induction H with
  | zero => rfl
  | succ H ih =>
    rw [received_succ, received_succ, ih fun s hs => h s (hs.trans (Nat.lt_succ_self H)),
      h H (Nat.lt_succ_self H)]

end Received

/-! ### Building a schedule slot by slot -/

section Build

variable {share share' : ι → Share} {S S' : Finset ι} {m H : ℕ} {sched sched' : ℕ → Finset ι}

/-- One more slot that follows the rule. -/
theorem Greedy.extend (hg : Greedy share S m H sched) (hsa : ∀ s < H, sched' s = sched s)
    (hsub : sched' H ⊆ S) (hrls : ∀ i ∈ sched' H, (share i).release (received sched i H) ≤ H)
    (hbus : ∀ u ∈ S, u ∉ sched' H → (share u).release (received sched u H) ≤ H →
      (sched' H).card = m ∧ ∀ i ∈ sched' H,
        Prefers (share i) (received sched i H) (share u) (received sched u H)) :
    Greedy share S m (H + 1) sched' := by
  have hre : ∀ s ≤ H, ∀ i, received sched' i s = received sched i s := fun s hs i =>
    received_congr fun x hx => hsa x (hx.trans_le hs)
  constructor
  · intro s hs
    rcases Nat.lt_or_eq_of_le (Nat.le_of_lt_succ hs) with hlt | rfl
    · rw [hsa s hlt]
      exact hg.sub s hlt
    exact hsub
  · intro s hs i hi
    rw [hre s (Nat.le_of_lt_succ hs)]
    rcases Nat.lt_or_eq_of_le (Nat.le_of_lt_succ hs) with hlt | rfl
    · rw [hsa s hlt] at hi
      exact hg.released s hlt i hi
    exact hrls i hi
  intro s hs u hu hn hrl
  rw [hre s (Nat.le_of_lt_succ hs)] at hrl ⊢
  rcases Nat.lt_or_eq_of_le (Nat.le_of_lt_succ hs) with hlt | rfl
  · rw [hsa s hlt] at hn ⊢
    obtain ⟨hca, hpr⟩ := hg.busy s hlt u hu hn hrl
    refine ⟨hca, fun i hi => ?_⟩
    rw [hre s hlt.le]
    exact hpr i hi
  obtain ⟨hca, hpr⟩ := hbus u hu hn hrl
  refine ⟨hca, fun i hi => ?_⟩
  rw [hre s (le_refl s)]
  exact hpr i hi

/-- Tasks that have not received anything may join, or start anew, in the future. -/
theorem Greedy.join (hg : Greedy share S m H sched) (hsu : S ⊆ S')
    (hsm : ∀ i ∈ S', i ∈ S ∧ share' i = share i ∨
      (∀ s < H, i ∉ sched s) ∧ H ≤ (share' i).start) : Greedy share' S' m H sched := by
  have hsh : ∀ s < H, ∀ i ∈ sched s, share' i = share i := by
    intro s hs i hi
    rcases hsm i (hsu (hg.sub s hs hi)) with ⟨_, heq⟩ | ⟨hn, _⟩
    · exact heq
    exact absurd hi (hn s hs)
  constructor
  · exact fun s hs => (hg.sub s hs).trans hsu
  · intro s hs i hi
    rw [hsh s hs i hi]
    exact hg.released s hs i hi
  intro s hs u hu hn hre
  rcases hsm u hu with ⟨huS, heq⟩ | ⟨_, hsa⟩
  · rw [heq] at hre ⊢
    obtain ⟨hcar, hpre⟩ := hg.busy s hs u huS hn hre
    refine ⟨hcar, fun i hi => ?_⟩
    rw [hsh s hs i hi]
    exact hpre i hi
  have hle : (share' u).start ≤ (share' u).release (received sched u s) := Nat.le_add_right _ _
  omega

end Build

/-! ### The first missed deadline -/

/-- At time `t` task `z` is the first to miss a deadline. -/
structure FirstMiss (share : ι → Share) (S : Finset ι) (sched : ℕ → Finset ι) (t : ℕ)
    (z : ι) : Prop where
  mem : z ∈ S
  missed : (share z).deadline (received sched z t) ≤ t
  before : ∀ s < t, ∀ i ∈ S, ∀ k, (share i).deadline k ≤ s → k < received sched i s

/-- The units that are to blame for the miss: the late unit itself; what was handed out while
    one of them was passed over; and the predecessor of one that was already released when
    the predecessor was handed out. -/
inductive Blamed (share : ι → Share) (sched : ℕ → Finset ι) (t : ℕ) (z : ι) : ι → ℕ → Prop
  | miss : Blamed share sched t z z (received sched z t)
  | passed {u i : ι} {s : ℕ} (hs : s < t) (hu : Blamed share sched t z u (received sched u s))
      (hrel : (share u).release (received sched u s) ≤ s) (hnot : u ∉ sched s)
      (hi : i ∈ sched s) : Blamed share sched t z i (received sched i s)
  | earlier {i : ι} {s : ℕ} (hs : s < t) (hi : i ∈ sched s)
      (hnext : Blamed share sched t z i (received sched i s + 1))
      (hrel : (share i).release (received sched i s + 1) ≤ s) :
      Blamed share sched t z i (received sched i s)

section Miss

variable {share : ι → Share} {S : Finset ι} {m H : ℕ} {sched : ℕ → Finset ι} {t : ℕ} {z : ι}
  {i u : ι} {k s x : ℕ}

theorem FirstMiss.lt_deadline (h : FirstMiss share S sched t z) (hs : s < t) (hi : i ∈ S) :
    s < (share i).deadline (received sched i s) := by
  by_contra hle
  exact absurd (h.before s hs i hi _ (Nat.le_of_not_lt hle)) (lt_irrefl _)

theorem Blamed.mem (hg : Greedy share S m H sched) (ht : t ≤ H) (hz : z ∈ S)
    (h : Blamed share sched t z i k) : i ∈ S := by
  rcases h with _ | ⟨hs, _, _, _, hi⟩ | ⟨hs, hi, _, _⟩
  · exact hz
  · exact hg.sub _ (hs.trans_le ht) hi
  exact hg.sub _ (hs.trans_le ht) hi

theorem Blamed.deadline_le (hg : Greedy share S m H sched) (ht : t ≤ H)
    (hmiss : FirstMiss share S sched t z) (h : Blamed share sched t z i k) :
    (share i).deadline k ≤ t := by
  induction h with
  | miss => exact hmiss.missed
  | passed hs hu hre hnot hi ih =>
    have hpre := (hg.busy _ (hs.trans_le ht) _ (hu.mem hg ht hmiss.mem) hnot hre).2 _ hi
    exact hpre.deadline_le.trans ih
  | earlier hs hi hn hre ih => exact ((share _).deadline_lt_succ _).le.trans ih

/-- Why a unit that was handed out in slot `s` is blamed. -/
theorem Blamed.cases_slot (h : Blamed share sched t z i (received sched i s)) (hi : i ∈ sched s)
    (hs : s < t) : (∃ u, Blamed share sched t z u (received sched u s) ∧
        (share u).release (received sched u s) ≤ s ∧ u ∉ sched s) ∨
      (Blamed share sched t z i (received sched i s + 1) ∧
        (share i).release (received sched i s + 1) ≤ s) := by
  generalize hk : received sched i s = k at h
  rcases h with _ | ⟨_, hu, hre, hnot, hi'⟩ | ⟨_, hi', hn, hre⟩
  · exact absurd (lt_received hi hs) (not_lt.mpr hk.ge)
  · obtain rfl := slot_unique hi hi' hk
    exact .inl ⟨_, hu, hre, hnot⟩
  obtain rfl := slot_unique hi hi' hk
  exact .inr ⟨hn, hre⟩

/-- Every blamed unit but the late one was handed out. -/
theorem Blamed.slot (h : Blamed share sched t z i k) :
    i = z ∧ k = received sched z t ∨ ∃ s < t, i ∈ sched s ∧ received sched i s = k := by
  rcases h with _ | ⟨hs, _, _, _, hi⟩ | ⟨hs, hi, _, _⟩
  · exact .inl ⟨rfl, rfl⟩
  · exact .inr ⟨_, hs, hi, rfl⟩
  exact .inr ⟨_, hs, hi, rfl⟩

/-- A blamed unit that has been handed out before slot `x`. -/
theorem Blamed.slot_of_lt (h : Blamed share sched t z i k) (hx : x ≤ t)
    (hk : k < received sched i x) : ∃ s < x, i ∈ sched s ∧ received sched i s = k := by
  rcases h.slot with ⟨rfl, rfl⟩ | ⟨s, _, hi, rfl⟩
  · exact absurd (received_mono i hx) (not_le.mpr hk)
  refine ⟨s, ?_, hi, rfl⟩
  by_contra hle
  exact absurd (received_mono i (Nat.le_of_not_lt hle)) (not_le.mpr hk)

/-! ### Holes -/

open Classical in
/-- Fewer than `m` blamed units are handed out in slot `s`. -/
def Hole (share : ι → Share) (sched : ℕ → Finset ι) (m t : ℕ) (z : ι) (s : ℕ) : Prop :=
  ((sched s).filter fun i => Blamed share sched t z i (received sched i s)).card < m

/-- Task `i` receives a blamed unit in slot `s`. -/
def Active (share : ι → Share) (sched : ℕ → Finset ι) (t : ℕ) (z i : ι) (s : ℕ) : Prop :=
  i ∈ sched s ∧ Blamed share sched t z i (received sched i s)

variable (hg : Greedy share S m H sched) (ht : t ≤ H) (hmiss : FirstMiss share S sched t z)
include hg ht hmiss

open Classical in
/-- No blamed unit is passed over in a hole: otherwise all `m` units of the slot are
    blamed. -/
theorem Hole.mem_of_released (hhole : Hole share sched m t z s) (hs : s < t)
    (h : Blamed share sched t z u (received sched u s))
    (hre : (share u).release (received sched u s) ≤ s) : u ∈ sched s := by
  by_contra hn
  have hcar := (hg.busy s (hs.trans_le ht) u (h.mem hg ht hmiss.mem) hn hre).1
  have hall := Finset.filter_true_of_mem fun i hi => Blamed.passed hs h hre hn hi
  unfold Hole at hhole
  rw [hall, hcar] at hhole
  exact lt_irrefl m hhole

/-- A blamed unit of a hole is in the last slot of its window, and its successor is blamed
    and released. -/
theorem Hole.last (hhole : Hole share sched m t z s) (hs : s < t) (h : Active share sched t z i s) :
    Blamed share sched t z i (received sched i s + 1) ∧
      (share i).release (received sched i s + 1) ≤ s ∧
      (share i).deadline (received sched i s) = s + 1 ∧
      (share i).overlap (received sched i s) = 1 := by
  obtain ⟨hi, hb⟩ := h
  rcases hb.cases_slot hi hs with ⟨u, hu, hre, hnot⟩ | ⟨hn, hre⟩
  · exact absurd (hhole.mem_of_released hg ht hmiss hs hu hre) hnot
  have hin := hmiss.lt_deadline hs (hb.mem hg ht hmiss.mem)
  exact ⟨hn, hre, (share i).deadline_eq_of_released hre hin⟩

section

variable (hhole : Hole share sched m t z x) (hx : x < t)

include hhole hx

/-- A blamed unit that was handed out before a hole and whose window reaches into it: the
    window ends there, overlaps the next, and its group deadline is no earlier than that of
    some blamed unit of the hole. -/
theorem Hole.reaching (hi : i ∈ sched s)
    (hs : s < x) (hb : Blamed share sched t z i (received sched i s))
    (hd : x < (share i).deadline (received sched i s)) :
    (share i).deadline (received sched i s) = x + 1 ∧ (share i).overlap (received sched i s) = 1 ∧
      ∃ w, Active share sched t z w x ∧ (share w).groupDeadline (received sched w x) ≤
          (share i).groupDeadline (received sched i s) := by
  -- follow the units that were passed over, to later and later slots before the hole
  induction hn : x - s using Nat.strong_induction_on generalizing i s with
  | _ n ih =>
    have hst : s < t := hs.trans hx
    rcases hb.cases_slot hi hst with ⟨u, hu, hre, hno⟩ | ⟨_, hre⟩
    · have huS := hu.mem hg ht hmiss.mem
      have hpr := (hg.busy s (hst.trans_le ht) u huS hno hre).2 i hi
      -- what is needed of the unit of `u`
      have key : (share u).deadline (received sched u s) = x + 1 →
          (share u).overlap (received sched u s) = 1 →
          (∃ w, Active share sched t z w x ∧ (share w).groupDeadline (received sched w x) ≤
              (share u).groupDeadline (received sched u s)) →
          (share i).deadline (received sched i s) = x + 1 ∧
            (share i).overlap (received sched i s) = 1 ∧
            ∃ w, Active share sched t z w x ∧ (share w).groupDeadline (received sched w x) ≤
                (share i).groupDeadline (received sched i s) := by
        intro hdu hou ⟨w, hw, hD⟩
        have hle := hpr.deadline_le
        have hdi : (share i).deadline (received sched i s) = x + 1 := by omega
        obtain ⟨ho, hD'⟩ := hpr.groupDeadline_le (by omega) hou
        exact ⟨hdi, ho, w, hw, hD.trans hD'⟩
      rcases lt_or_ge (received sched u s) (received sched u x) with hlt | hge
      · obtain ⟨s', hs', hu', heq⟩ := hu.slot_of_lt hx.le hlt
        have hlat : s < s' := by
          by_contra hle
          rcases Nat.lt_or_eq_of_le (Nat.le_of_not_lt hle) with hlt' | rfl
          · exact absurd (lt_received hu' hlt') (by omega)
          exact hno hu'
        rw [← heq] at hu hpr key
        obtain ⟨hd', ho', hw'⟩ := ih (x - s') (by omega) hu' hs' hu
          (hd.trans_le hpr.deadline_le) rfl
        exact key hd' ho' hw'
      -- still waiting: it is handed out in the hole itself
      have heq : received sched u s = received sched u x :=
        le_antisymm (received_mono u hs.le) hge
      rw [heq] at hu hre key
      have hux := hhole.mem_of_released hg ht hmiss hx hu (hre.trans hs.le)
      obtain ⟨_, _, hd', ho'⟩ := hhole.last hg ht hmiss hx ⟨hux, hu⟩
      exact key hd' ho' ⟨u, ⟨hux, hu⟩, le_refl _⟩
    have := (share i).deadline_le_release_succ (received sched i s)
    omega

/-- After a hole the blamed units that were handed out are past their deadlines. -/
theorem Hole.deadline_le (hb : Blamed share sched t z i k) (hk : k < received sched i (x + 1)) :
    (share i).deadline k ≤ x + 1 := by
  obtain ⟨s, hs, hi, rfl⟩ := hb.slot_of_lt hx hk
  rcases Nat.lt_or_eq_of_le (Nat.le_of_lt_succ hs) with hlt | rfl
  · by_contra hd
    have := (hhole.reaching hg ht hmiss hx hi hlt hb (by omega)).1
    omega
  exact (hhole.last hg ht hmiss hx ⟨hi, hb⟩).2.2.1.le

/-- After a hole the blamed units that were not handed out are not yet released, but for
    the successors of those of the hole. -/
theorem Hole.le_release (hb : Blamed share sched t z i k) (hk : received sched i (x + 1) ≤ k) :
    x < (share i).release k ∨ (Active share sched t z i x ∧ k = received sched i x + 1) := by
  by_contra hco
  rw [not_or, not_lt] at hco
  obtain ⟨hre, hn⟩ := hco
  have hiS := hb.mem hg ht hmiss.mem
  have hdt := hb.deadline_le hg ht hmiss
  -- the predecessors were handed out in time
  have heq : k = received sched i (x + 1) := by
    rcases Nat.lt_or_eq_of_le hk with hlt | heq
    · obtain ⟨j, rfl⟩ : ∃ j, k = j + 1 := ⟨k - 1, by omega⟩
      have hlt' := (share i).deadline_lt_succ j
      have hov := (share i).deadline_le_release_succ j
      rcases Nat.lt_or_eq_of_le (Nat.succ_le_of_lt hx) with hxt | hxt
      · have := hmiss.before (x + 1) hxt i hiS j (by omega)
        omega
      have hla := hmiss.before x hx i hiS j (by omega)
      have hmon : received sched i x ≤ received sched i (x + 1) := received_mono i (by omega)
      omega
    exact heq.symm
  by_cases hi : i ∈ sched x
  · rw [received_succ_of_mem hi] at heq
    rw [heq] at hb hre
    exact hn ⟨⟨hi, .earlier hx hi hb hre⟩, heq⟩
  rw [received_succ_of_notMem hi] at heq
  rw [heq] at hb hre
  exact hi (hhole.mem_of_released hg ht hmiss hx hb hre)

end

/-- The same tasks are active throughout a run of holes. -/
theorem Hole.active_succ (hhole : Hole share sched m t z s) (hn : Hole share sched m t z (s + 1))
    (hs : s + 1 < t) : Active share sched t z i s ↔ Active share sched t z i (s + 1) := by
  constructor
  · intro h
    obtain ⟨hb, hre, _, _⟩ := hhole.last hg ht hmiss (by omega) h
    rw [← received_succ_of_mem h.1] at hb hre
    exact ⟨hn.mem_of_released hg ht hmiss hs hb (by omega), hb⟩
  intro h
  obtain ⟨_, hre, _, _⟩ := hn.last hg ht hmiss hs h
  have hste := (share i).release_lt_succ (received sched i (s + 1))
  rcases hhole.le_release hg ht hmiss (by omega) h.2 (le_refl _) with hlt | ⟨hact, _⟩
  · omega
  exact hact

end Miss

end Litmus.ProportionateFair
