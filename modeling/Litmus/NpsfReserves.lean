import Mathlib.Algebra.Order.BigOperators.Group.List
import Litmus.CyclicTable
import Litmus.NpsfConfig

/-!
# Reserves in the slots

The reserves of a CPU share out every slot, one after the other.  The reserve-switching timer
is set for the end of the current reserve, or for the end of the next one if the CPU will be
told by an IPI when that one starts.
-/

namespace Litmus.Npsf

open CyclicTable NpsfConfig

/-! ### Slots -/

section

variable {origin slotLength now : LtTime}

theorem toNat_slotBegin (hor : origin ≤ now) : (slotBegin origin slotLength now).toNat =
      origin.toNat + (now.toNat - origin.toNat) / slotLength.toNat * slotLength.toNat := by
  have hle := BitVec.le_def.mp hor
  have hdiv := Nat.div_mul_le_self (now.toNat - origin.toNat) slotLength.toNat
  have hlt := now.isLt
  rw [slotBegin, BitVec.toNat_add, BitVec.toNat_mul, BitVec.toNat_udiv, BitVec.toNat_sub_of_le hor]
  rw [Nat.mod_eq_of_lt (a := _ * _) (by omega), Nat.mod_eq_of_lt (by omega), add_comm]

theorem slotBegin_le (hor : origin ≤ now) : slotBegin origin slotLength now ≤ now := by
  have hle := BitVec.le_def.mp hor
  have hdiv := Nat.div_mul_le_self (now.toNat - origin.toNat) slotLength.toNat
  rw [BitVec.le_def, toNat_slotBegin hor]
  omega

theorem toNat_deltaFromSlotBegin (hor : origin ≤ now) :
    (deltaFromSlotBegin origin slotLength now).toNat =
      (now.toNat - origin.toNat) % slotLength.toNat := by
  have hle := BitVec.le_def.mp hor
  have hsp := Nat.div_add_mod' (now.toNat - origin.toNat) slotLength.toNat
  rw [deltaFromSlotBegin, BitVec.toNat_sub_of_le (slotBegin_le hor), toNat_slotBegin hor]
  omega

end

/-! ### Looking up a reserve -/

/-- The budgets of the reserves on a CPU, in their order. -/
def NpsfConfig.budgets {n : Nat} (cfg : NpsfConfig n) (c : Fin n) : List Nat :=
  (cfg.entry c).npsfReserves.map fun r => (cfg.reserve r).budget.toNat

section

variable {n : Nat} {cfg : NpsfConfig n}

theorem searchReserve_spec {offset reservationEnd : LtTime} {rs : List ReserveId}
    (hsa : reservationEnd.toNat ≤ offset.toNat) (hen : offset.toNat <
      reservationEnd.toNat + (rs.map fun r => (cfg.reserve r).budget.toNat).sum)
    (hf : reservationEnd.toNat + (rs.map fun r => (cfg.reserve r).budget.toNat).sum < 2 ^ 64) :
    ∃ i r e, rs[i]? = some r ∧ cfg.searchReserve offset reservationEnd rs = some (r, e) ∧
      reservationEnd.toNat + ((rs.map fun r => (cfg.reserve r).budget.toNat).take i).sum ≤
        offset.toNat ∧ offset.toNat < e.toNat ∧ e.toNat = reservationEnd.toNat +
        ((rs.map fun r => (cfg.reserve r).budget.toNat).take (i + 1)).sum := by
  induction rs generalizing reservationEnd with
  | nil =>
    simp only [List.map_nil, List.sum_nil] at hen
    omega
  | cons tmp rs ih =>
    simp only [List.map_cons, List.sum_cons] at hen hf
    have hsum : (reservationEnd + (cfg.reserve tmp).budget).toNat =
        reservationEnd.toNat + (cfg.reserve tmp).budget.toNat := by
      rw [BitVec.toNat_add, Nat.mod_eq_of_lt (by omega)]
    by_cases hhe : offset < reservationEnd + (cfg.reserve tmp).budget
    · refine ⟨0, tmp, _, rfl, if_pos hhe, ?_, BitVec.lt_def.mp hhe, ?_⟩
      · simpa using hsa
      simpa using hsum
    have hlat := BitVec.le_def.mp (BitVec.not_lt.mp hhe)
    obtain ⟨i, r, e, hr, hsea, hbe, haf, he⟩ :=
      @ih (reservationEnd + (cfg.reserve tmp).budget) hlat (by omega) (by omega)
    refine ⟨i + 1, r, e, hr, (if_neg hhe).trans hsea, ?_, haf, ?_⟩
    · rw [List.map_cons, List.take_succ_cons, List.sum_cons]
      omega
    rw [List.map_cons, List.take_succ_cons, List.sum_cons]
    omega

theorem localNextReserve_spec {rs : List ReserveId} (hno : rs.Nodup) {i : Nat} {r : ReserveId}
    (hr : rs[i]? = some r) : localNextReserve r rs = rs[(i + 1) % rs.length]? := by
  obtain ⟨hi, hget⟩ := List.getElem?_eq_some_iff.mp hr
  have hidx : rs.idxOf r = i := by
    rw [← hget]
    exact hno.idxOf_getElem i hi
  have hla : rs.getLast? = rs[rs.length - 1]? := List.getLast?_eq_getElem?
  unfold localNextReserve
  rcases Nat.lt_or_eq_of_le (Nat.succ_le_of_lt hi) with hlt | heq
  · have hne : rs.getLast? ≠ some r := by
      rw [hla, ← hr]
      intro h
      have := (List.getElem?_inj hi hno).mp h.symm
      omega
    rw [if_neg hne, hidx, Nat.mod_eq_of_lt hlt]
  have heq' : rs.getLast? = some r := by
    rw [hla, ← heq, ← hr]
    rfl
  rw [if_pos heq', ← Nat.succ_eq_add_one, heq, Nat.mod_self, List.head?_eq_getElem?]

end

/-! ### The reserve-switching timer -/

/-- The reserves on CPU `c` share out the slots. -/
structure SlotShared {n : Nat} (cfg : NpsfConfig n) (c : Fin n) (npsfSlotLength : LtTime) :
    Prop where
  nodup : (cfg.entry c).npsfReserves.Nodup
  server : ∀ r ∈ (cfg.entry c).npsfReserves, (cfg.reserve r).server ≠ none
  sum : (cfg.budgets c).sum = npsfSlotLength.toNat
  pos : 0 < npsfSlotLength.toNat

/-- When reserve `j` starts in a slot. -/
def NpsfConfig.boundary {n : Nat} (cfg : NpsfConfig n) (c : Fin n)
    (timeOrigin npsfSlotLength : LtTime) (slot j : Nat) : Nat :=
  timeOrigin.toNat + slot * npsfSlotLength.toNat + ((cfg.budgets c).take j).sum

section

variable {n : Nat} {cfg : NpsfConfig n} {c : Fin n} {origin slotLength now : LtTime}

theorem length_budgets (cfg : NpsfConfig n) (c : Fin n) :
    (cfg.budgets c).length = (cfg.entry c).npsfReserves.length := List.length_map _

theorem SlotShared.length_pos (h : SlotShared cfg c slotLength) :
    0 < (cfg.entry c).npsfReserves.length := by
  apply Nat.pos_of_ne_zero
  intro h0
  have hsu := h.sum
  rw [List.eq_nil_of_length_eq_zero ((length_budgets cfg c).trans h0), List.sum_nil] at hsu
  exact ne_of_lt h.pos hsu

theorem SlotShared.boundary_eq (h : SlotShared cfg c slotLength) {slot j : Nat}
    (hj : j < (cfg.entry c).npsfReserves.length) :
    cfg.boundary c origin slotLength slot j = origin.toNat +
      start (cfg.budgets c) (slot * (cfg.entry c).npsfReserves.length + j) := by
  rw [← length_budgets] at hj ⊢
  rw [start_of_round hj, boundary, h.sum, add_assoc]

/-- The reserve that is current at `now`, as a place in the table of budgets. -/
theorem SlotShared.current (h : SlotShared cfg c slotLength) (hor : origin ≤ now) :
    ∃ i r e, (cfg.entry c).npsfReserves[i]? = some r ∧
      cfg.getReserveForOffset c (deltaFromSlotBegin origin slotLength now) = some (r, e) ∧
      ((cfg.budgets c).take i).sum ≤ (deltaFromSlotBegin origin slotLength now).toNat ∧
      (deltaFromSlotBegin origin slotLength now).toNat < ((cfg.budgets c).take (i + 1)).sum ∧
      e.toNat = ((cfg.budgets c).take (i + 1)).sum := by
  have hoff : (deltaFromSlotBegin origin slotLength now).toNat < (cfg.budgets c).sum := by
    rw [toNat_deltaFromSlotBegin hor, h.sum]
    exact Nat.mod_lt _ h.pos
  have hf : (cfg.budgets c).sum < 2 ^ 64 := h.sum ▸ slotLength.isLt
  obtain ⟨i, r, e, hr, hsea, hbe, haf, he⟩ :=
    @searchReserve_spec n cfg (deltaFromSlotBegin origin slotLength now) 0
      (cfg.entry c).npsfReserves (Nat.zero_le _) ((Nat.zero_add _).symm ▸ hoff)
      ((Nat.zero_add _).symm ▸ hf)
  have h0 : (0 : LtTime).toNat = 0 := rfl
  rw [h0, Nat.zero_add] at hbe he
  exact ⟨i, r, e, hr, hsea, hbe, he ▸ haf, he⟩

/-- Place `p` of the table is current. -/
def Current (cfg : NpsfConfig n) (c : Fin n) (origin now : LtTime) (p : Nat) : Prop :=
  origin.toNat + start (cfg.budgets c) p ≤ now.toNat ∧
    now.toNat < origin.toNat + start (cfg.budgets c) (p + 1)

/-- The search on the time line: the end of the reserve it finds is the start of the next
    place. -/
theorem SlotShared.exists_current (h : SlotShared cfg c slotLength) (hor : origin ≤ now) :
    ∃ p r e, Current cfg c origin now p ∧
      cfg.getReserveForOffset c (deltaFromSlotBegin origin slotLength now) = some (r, e) ∧
      e.toNat ≤ slotLength.toNat ∧ e.toNat + (slotBegin origin slotLength now).toNat =
        origin.toNat + start (cfg.budgets c) (p + 1) ∧
      localNextReserve r (cfg.entry c).npsfReserves =
        (cfg.entry c).npsfReserves[(p + 1) % (cfg.entry c).npsfReserves.length]? := by
  obtain ⟨i, r, e, hr, hloo, hbe, haf, he⟩ := h.current hor
  have hle := BitVec.le_def.mp hor
  have hi : i < (cfg.budgets c).length := by
    rw [length_budgets]
    exact (List.getElem?_eq_some_iff.mp hr).1
  rw [toNat_deltaFromSlotBegin hor] at hbe haf
  have hsp := Nat.div_add_mod' (now.toNat - origin.toNat) slotLength.toNat
  have hsa := @start_of_round (cfg.budgets c)
    ((now.toNat - origin.toNat) / slotLength.toNat) i hi
  have hen := @start_succ_of_round (cfg.budgets c)
    ((now.toNat - origin.toNat) / slotLength.toNat) i hi
  rw [h.sum] at hsa hen
  refine ⟨(now.toNat - origin.toNat) / slotLength.toNat * (cfg.budgets c).length + i, r, e,
    ⟨?_, ?_⟩, hloo, ?_, ?_, ?_⟩
  · rw [hsa]
    omega
  · rw [hen]
    omega
  · rw [he, ← h.sum]
    exact (List.take_sublist _ _).sum_le_sum (fun _ _ => Nat.zero_le _)
  · rw [hen, he, toNat_slotBegin hor]
    omega
  · rw [localNextReserve_spec h.nodup hr, length_budgets, Nat.add_assoc, Nat.mul_comm,
      Nat.mul_add_mod]

theorem SlotShared.switchTime (h : SlotShared cfg c slotLength) (hor : origin ≤ now)
    (hwra : now.toNat + 2 * slotLength.toNat < 2 ^ 64) : ∃ p next T, Current cfg c origin now p ∧
      (cfg.entry c).npsfReserves[(p + 1) % (cfg.entry c).npsfReserves.length]? = some next ∧
      cfg.getNextReserveSwitchTime c origin slotLength now = some T ∧
      T.toNat = origin.toNat + start (cfg.budgets c)
        (if cfg.firstReserveOf next = some next then p + 1 else p + 2) := by
  obtain ⟨p, r, e, hcur, hloo, hbou, hend, hn⟩ := h.exists_current hor
  have hlt : (p + 1) % (cfg.entry c).npsfReserves.length < (cfg.entry c).npsfReserves.length :=
    Nat.mod_lt _ h.length_pos
  obtain ⟨next, hge⟩ : ∃ next,
      (cfg.entry c).npsfReserves[(p + 1) % (cfg.entry c).npsfReserves.length]? = some next :=
    ⟨_, List.getElem?_eq_getElem hlt⟩
  have hm : next ∈ (cfg.entry c).npsfReserves := List.mem_of_getElem? hge
  obtain ⟨srv, hsrv⟩ := Option.ne_none_iff_exists'.mp (h.server next hm)
  have hbu : (cfg.budgets c).getD ((p + 1) % (cfg.budgets c).length) 0 =
      (cfg.reserve next).budget.toNat := by
    rw [length_budgets, List.getD_eq_getElem?_getD, budgets, List.getElem?_map, hge]
    rfl
  have hsho : (cfg.reserve next).budget.toNat ≤ slotLength.toNat := by
    rw [← h.sum]
    exact List.single_le_sum (fun _ _ => Nat.zero_le _) _ (List.mem_map_of_mem hm)
  have hbeg := BitVec.le_def.mp (@slotBegin_le origin slotLength now hor)
  have hsu : (e + slotBegin origin slotLength now).toNat =
      origin.toNat + start (cfg.budgets c) (p + 1) := by
    rw [BitVec.toNat_add, Nat.mod_eq_of_lt (by omega), hend]
  have haf : start (cfg.budgets c) (p + 2) =
      start (cfg.budgets c) (p + 1) + (cfg.reserve next).budget.toNat := by
    rw [← hbu]
    exact start_succ (length_budgets cfg c ▸ h.length_pos) (p + 1)
  have hfi : cfg.firstReserveOf next = some (cfg.server srv).firstReserve := by
    rw [firstReserveOf, hsrv]
    rfl
  have htim : cfg.getNextReserveSwitchTime c origin slotLength now =
      some (if cfg.firstReserveOf next = some next then e + slotBegin origin slotLength now
        else e + slotBegin origin slotLength now + (cfg.reserve next).budget) := by
    have hlookup' : cfg.getReserveForOffset c (now - slotBegin origin slotLength now) =
        some (r, e) := hloo
    simp only [getNextReserveSwitchTime, hlookup', hn, hge, hfi, Option.bind_eq_bind,
      Option.bind_some, Option.pure_def, Option.some.injEq, ne_eq]
    split <;> simp_all
  refine ⟨p, next, _, hcur, hge, htim, ?_⟩
  split
  · exact hsu
  rw [BitVec.toNat_add, hsu, haf, Nat.mod_eq_of_lt (by omega), Nat.add_assoc]

end

/-- The reserve lookup finds the reserve whose share of the slot contains the offset, and the
    timer is set for a boundary that skips at most the start of a reserve that is not the first
    one of its server. -/
theorem npsf_reserve_timer {n : Nat} {cfg : NpsfConfig n} {c : Fin n}
    {timeOrigin npsfSlotLength now : LtTime} (hshared : SlotShared cfg c npsfSlotLength)
    (horigin : timeOrigin ≤ now) (hwrap : now.toNat + 2 * npsfSlotLength.toNat < 2 ^ 64) :
    (∃ i r e, (cfg.entry c).npsfReserves[i]? = some r ∧
      cfg.getReserveForOffset c (deltaFromSlotBegin timeOrigin npsfSlotLength now) = some (r, e) ∧
      ((cfg.budgets c).take i).sum ≤ (deltaFromSlotBegin timeOrigin npsfSlotLength now).toNat ∧
      (deltaFromSlotBegin timeOrigin npsfSlotLength now).toNat <
        ((cfg.budgets c).take (i + 1)).sum) ∧
    ∃ T, cfg.getNextReserveSwitchTime c timeOrigin npsfSlotLength now = some T ∧ now < T ∧
      (∃ slot j, j < (cfg.entry c).npsfReserves.length ∧
        T.toNat = cfg.boundary c timeOrigin npsfSlotLength slot j) ∧
      ∀ slot j r, (cfg.entry c).npsfReserves[j]? = some r →
        now.toNat < cfg.boundary c timeOrigin npsfSlotLength slot j →
        cfg.boundary c timeOrigin npsfSlotLength slot j < T.toNat →
        cfg.firstReserveOf r ≠ some r := by
  obtain ⟨i, r, e, hr, hlookup, hbefore, hafter, -⟩ := hshared.current horigin
  refine ⟨⟨i, r, e, hr, hlookup, hbefore, hafter⟩, ?_⟩
  obtain ⟨p, next, T, ⟨hstart, hend⟩, hn, htimer, hT⟩ := hshared.switchTime horigin hwrap
  have hlen := hshared.length_pos
  have hmono := start_mono (length_budgets cfg c ▸ hlen)
  have hlate : start (cfg.budgets c) (p + 1) ≤ start (cfg.budgets c) (p + 2) :=
    hmono (Nat.le_succ _)
  refine ⟨T, htimer, ?_, ?_, ?_⟩
  · rw [BitVec.lt_def, hT]
    split <;> omega
  · -- every place of the table is one of a slot
    have hplace : ∀ q, ∃ slot j, j < (cfg.entry c).npsfReserves.length ∧
        timeOrigin.toNat + start (cfg.budgets c) q =
          cfg.boundary c timeOrigin npsfSlotLength slot j := by
      intro q
      refine ⟨q / (cfg.entry c).npsfReserves.length, q % (cfg.entry c).npsfReserves.length,
        Nat.mod_lt q hlen, ?_⟩
      rw [hshared.boundary_eq (Nat.mod_lt q hlen), Nat.div_add_mod']
    rw [hT]
    exact hplace _
  intro slot j r' hr' hafter' hbefore' hfirst
  have hj := (List.getElem?_eq_some_iff.mp hr').1
  rw [hshared.boundary_eq hj] at hafter' hbefore'
  rw [hT] at hbefore'
  have hlt := @lt_of_start_lt (cfg.budgets c) (length_budgets cfg c ▸ hlen)
  have hafter : p < slot * (cfg.entry c).npsfReserves.length + j := hlt (by omega)
  have hbefore := hlt (Nat.lt_of_add_lt_add_left hbefore')
  split at hbefore
  · omega
  -- only the start of the next reserve is skipped
  rename_i hskip
  have hplace : slot * (cfg.entry c).npsfReserves.length + j = p + 1 := by omega
  rw [← hplace, mul_comm, Nat.mul_add_mod, Nat.mod_eq_of_lt hj, hr'] at hn
  exact hskip (Option.some.inj hn ▸ hfirst)

/-- A CPU with a reserve of 60 for a server of its own, and one of 40 that continues a server
    from elsewhere. -/
def continuedConfig : NpsfConfig 1 where
  entry _ := { cpuReserve := some 0, npsfReserves := [0, 1], lastSeenNpsfId := 1 }
  reserve r :=
    if r = 0 then { server := some 0, budget := 60, cpu := 0, npsfId := 0, nextNpsf := some 0 }
    else { server := some 1, budget := 40, cpu := 0, npsfId := 1, nextNpsf := some 2 }
  server srv :=
    if srv = 0 then { currReserve := 0, firstReserve := 0, firstCpuWantsIpi := false }
    else { currReserve := 2, firstReserve := 2, firstCpuWantsIpi := false }
  allServersAdded := true
  timersActivated := true
  reservesAllocated := true
  nextReserve := 3
  nextServer := 2

/-- During the first reserve the timer is set for the end of the second one. -/
theorem npsf_reserve_timer_continued :
    SlotShared continuedConfig 0 100 ∧
      ∃ T, continuedConfig.getNextReserveSwitchTime 0 1000 100 1030 = some T ∧ T = 1100 ∧
        continuedConfig.firstReserveOf 1 ≠ some 1 := by
  have hshared : SlotShared continuedConfig 0 100 := ⟨by decide, by decide, by decide, by decide⟩
  obtain ⟨-, T, htimer, -, -, hskipped⟩ :=
    @npsf_reserve_timer 1 continuedConfig 0 1000 100 1030 hshared (by decide) (by decide)
  have hT : T = 1100 := by
    have heval : continuedConfig.getNextReserveSwitchTime 0 1000 100 1030 = some 1100 := by
      decide
    exact (Option.some.inj (heval.symm.trans htimer)).symm
  subst hT
  exact ⟨hshared, 1100, htimer, rfl, hskipped 0 1 1 rfl (by decide) (by decide)⟩

end Litmus.Npsf
