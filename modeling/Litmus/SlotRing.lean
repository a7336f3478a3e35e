import Mathlib.Data.Nat.ModEq
import Mathlib.Logic.Function.Basic

/-!
# Rings of slots

Records are numbered in the order in which they are claimed, and record `k` lies in slot
`k % n`.  Writers finish their records in any order; the oldest record is freed first.
-/

namespace Litmus.SlotRing

open Function


variable {W D : Type} {n : Nat}

/-- Numbers less than `n` apart have different slots. -/
theorem mod_inj {first j k : Nat} (hj : first ≤ j) (hjn : j < first + n) (hk : first ≤ k)
    (hkn : k < first + n) (h : j % n = k % n) : j = k := by
  rcases le_total j k with hle | hle
  · have hdv : n ∣ k - j := (Nat.modEq_iff_dvd' hle).mp h
    have h0 := Nat.eq_zero_of_dvd_of_lt hdv (by omega)
    omega
  have hdv : n ∣ j - k := (Nat.modEq_iff_dvd' hle).mp h.symm
  have h0 := Nat.eq_zero_of_dvd_of_lt hdv (by omega)
  omega

/-- A slot and the data in it. -/
inductive Cell (D : Type) where
  | free
  | busy (data : D)
  | ready (data : D)

/-- A ring with its writers. -/
structure Ring (W D : Type) where
  /-- the oldest record that has not been freed -/
  first : Nat
  /-- the next record to be claimed -/
  next : Nat
  cell : Nat → Cell D
  /-- the record of a writer, and whether it has entered its slot -/
  tenant : W → Option (Nat × Bool)
  /-- the finished records -/
  record : Nat → Option D

/-- The slots show the state of the records. -/
structure Sound (n : Nat) (r : Ring W D) : Prop where
  first_le : r.first ≤ r.next
  next_le : r.next ≤ r.first + n
  waiting : ∀ {w k}, r.tenant w = some (k, false) →
    r.first ≤ k ∧ k < r.next ∧ r.record k = none ∧ r.cell (k % n) = .free
  inside : ∀ {w k}, r.tenant w = some (k, true) →
    r.first ≤ k ∧ k < r.next ∧ r.record k = none ∧ ∃ data, r.cell (k % n) = .busy data
  unique : ∀ {v w k a b}, r.tenant v = some (k, a) → r.tenant w = some (k, b) → v = w
  /-- every record is finished or has a writer -/
  covered : ∀ {k}, k < r.next → r.record k = none → ∃ w b, r.tenant w = some (k, b)
  recorded : ∀ {k data}, r.record k = some data → k < r.next ∧
    (r.first ≤ k → r.cell (k % n) = .ready data)
  vacant : ∀ {k}, r.next ≤ k → k < r.first + n → r.cell (k % n) = .free

section

variable {r : Ring W D} {k : Nat} {w : W}

theorem Sound.tenant_spec {b : Bool} (h : Sound n r) (hw : r.tenant w = some (k, b)) :
    r.first ≤ k ∧ k < r.next ∧ r.record k = none := by
  cases b with
  | false =>
    obtain ⟨hfi, hn, hre, -⟩ := h.waiting hw
    exact ⟨hfi, hn, hre⟩
  | true =>
    obtain ⟨hfi, hn, hre, -⟩ := h.inside hw
    exact ⟨hfi, hn, hre⟩

/-- The slots of two records in the ring differ. -/
theorem Sound.slot_ne {j : Nat} (h : Sound n r) (hj : r.first ≤ j) (hjn : j < r.first + n)
    (hk : r.first ≤ k) (hkn : k < r.next) (hne : j ≠ k) : j % n ≠ k % n := by
  intro heq
  have hn := h.next_le
  exact hne (mod_inj hj hjn hk (by omega) heq)

/-- A ready oldest slot holds the oldest record. -/
theorem Sound.recorded_of_ready {data : D} (h : Sound n r) (hn : 0 < n)
    (hr : r.cell (r.first % n) = .ready data) : r.record r.first = some data := by
  have hlt : r.first < r.next := by
    by_contra hge
    have hfr := h.vacant (not_lt.mp hge) (by omega)
    cases hr.symm.trans hfr
  cases hre : r.record r.first with
  | some data' =>
    have hce := (h.recorded hre).2 le_rfl
    cases hr.symm.trans hce
    rfl
  | none =>
    obtain ⟨w, b, hw⟩ := h.covered hlt hre
    cases b with
    | false =>
      obtain ⟨-, -, -, hce⟩ := h.waiting hw
      cases hr.symm.trans hce
    | true =>
      obtain ⟨-, -, -, data', hce⟩ := h.inside hw
      cases hr.symm.trans hce

/-! ### Operations -/

variable [DecidableEq W]

/-- A writer claims the next record. -/
def Ring.claim (w : W) (r : Ring W D) : Ring W D :=
  { r with next := r.next + 1, tenant := update r.tenant w (some (r.next, false)) }

/-- A writer enters its slot, in which it finds some data. -/
def Ring.enter (n : Nat) (w : W) (k : Nat) (data : D) (r : Ring W D) : Ring W D :=
  { r with
    tenant := update r.tenant w (some (k, true))
    cell := update r.cell (k % n) (.busy data) }

/-- The data in a slot change. -/
def Ring.write (n k : Nat) (data : D) (r : Ring W D) : Ring W D :=
  { r with cell := update r.cell (k % n) (.busy data) }

/-- A writer finishes its record. -/
def Ring.finish (n : Nat) (w : W) (k : Nat) (data : D) (r : Ring W D) : Ring W D :=
  { r with
    tenant := update r.tenant w none
    cell := update r.cell (k % n) (.ready data)
    record := update r.record k (some data) }

/-- The oldest slot is freed. -/
def Ring.free (n : Nat) (r : Ring W D) : Ring W D :=
  { r with
    first := r.first + 1
    cell := update r.cell (r.first % n) .free }

theorem Sound.claim (h : Sound n r) (hw : r.tenant w = none)
    (hro : r.next < r.first + n) : Sound n (r.claim w) := by
  have ho : ∀ {v}, v ≠ w → (r.claim w).tenant v = r.tenant v := fun hv =>
    update_of_ne hv _ _
  have hse : (r.claim w).tenant w = some (r.next, false) := update_self _ _ _
  have hn : r.record r.next = none := by
    cases hre : r.record r.next with
    | none => rfl
    | some data => exact absurd (h.recorded hre).1 (lt_irrefl _)
  have hfr : r.cell (r.next % n) = .free := h.vacant le_rfl hro
  constructor
  · exact Nat.le_succ_of_le h.first_le
  · exact hro
  · intro v k hv
    by_cases hvw : v = w
    · subst hvw
      rw [hse] at hv
      cases hv
      exact ⟨h.first_le, Nat.lt_succ_self _, hn, hfr⟩
    rw [ho hvw] at hv
    obtain ⟨hfi, hne, hrs⟩ := h.waiting hv
    exact ⟨hfi, Nat.lt_succ_of_lt hne, hrs⟩
  · intro v k hv
    by_cases hvw : v = w
    · subst hvw
      rw [hse] at hv
      cases hv
    rw [ho hvw] at hv
    obtain ⟨hfi, hne, hrs⟩ := h.inside hv
    exact ⟨hfi, Nat.lt_succ_of_lt hne, hrs⟩
  · intro u v k a b hu hv
    have hold : ∀ {x c}, x ≠ w → (r.claim w).tenant x = some (k, c) → k ≠ r.next := by
      rintro x c hx hxk rfl
      rw [ho hx] at hxk
      exact absurd (h.tenant_spec hxk).2.1 (lt_irrefl _)
    by_cases huw : u = w
    · by_cases hvw : v = w
      · rw [huw, hvw]
      rw [huw, hse] at hu
      cases hu
      exact absurd rfl (hold hvw hv)
    by_cases hvw : v = w
    · rw [hvw, hse] at hv
      cases hv
      exact absurd rfl (hold huw hu)
    rw [ho huw] at hu
    rw [ho hvw] at hv
    exact h.unique hu hv
  · intro k hk hre
    by_cases hkn : k = r.next
    · exact ⟨w, false, by rw [hse, hkn]⟩
    have hlt : k < r.next := lt_of_le_of_ne (Nat.lt_succ_iff.mp hk) hkn
    obtain ⟨v, b, hv⟩ := h.covered hlt hre
    refine ⟨v, b, ?_⟩
    rw [ho]
    · exact hv
    rintro rfl
    cases hw.symm.trans hv
  · intro k data hre
    obtain ⟨hlt, hcel⟩ := h.recorded hre
    exact ⟨Nat.lt_succ_of_lt hlt, hcel⟩
  · intro k hk hkn
    exact h.vacant (Nat.le_of_succ_le hk) hkn

/-- A change of the cell of one record, made by its writer. -/
theorem Sound.update_cell {r' : Ring W D} {b : Bool} (h : Sound n r)
    (hw : r.tenant w = some (k, b)) (hfi : r'.first = r.first) (hnx : r'.next = r.next)
    (hcel : ∀ {j}, j ≠ k % n → r'.cell j = r.cell j) (hte : ∀ {v}, v ≠ w → r'.tenant v = r.tenant v)
    (hrc : ∀ {j}, j ≠ k → r'.record j = r.record j)
    (haf : (∃ data, r'.tenant w = some (k, true) ∧ r'.record k = none ∧
        r'.cell (k % n) = .busy data) ∨
      ∃ data, r'.tenant w = none ∧ r'.record k = some data ∧ r'.cell (k % n) = .ready data) :
    Sound n r' := by
  obtain ⟨hk, hkn, -⟩ := h.tenant_spec hw
  have hnle := h.next_le
  have hcell' : ∀ {j}, r.first ≤ j → j < r.first + n → j ≠ k →
      r'.cell (j % n) = r.cell (j % n) := fun hj hjn hne => hcel (h.slot_ne hj hjn hk hkn hne)
  have ho : ∀ {v j c}, v ≠ w → r.tenant v = some (j, c) → j ≠ k := by
    rintro v j c hv hvj rfl
    exact hv (h.unique hvj hw)
  constructor
  · rw [hfi, hnx]
    exact h.first_le
  · rw [hfi, hnx]
    exact hnle
  · intro v j hv
    rw [hfi, hnx]
    by_cases hvw : v = w
    · subst hvw
      rcases haf with ⟨data, hin, -, -⟩ | ⟨data, hou, -, -⟩
      · cases hv.symm.trans hin
      cases hv.symm.trans hou
    rw [hte hvw] at hv
    have hjk := ho hvw hv
    obtain ⟨hj, hjn, hre, hfr⟩ := h.waiting hv
    rw [hrc hjk, hcell' hj (by omega) hjk]
    exact ⟨hj, hjn, hre, hfr⟩
  · intro v j hv
    rw [hfi, hnx]
    by_cases hvw : v = w
    · subst hvw
      rcases haf with ⟨data, hin, hre, hbu⟩ | ⟨data, hou, -, -⟩
      · cases hv.symm.trans hin
        exact ⟨hk, hkn, hre, data, hbu⟩
      cases hv.symm.trans hou
    rw [hte hvw] at hv
    have hjk := ho hvw hv
    obtain ⟨hj, hjn, hre, hbu⟩ := h.inside hv
    rw [hrc hjk, hcell' hj (by omega) hjk]
    exact ⟨hj, hjn, hre, hbu⟩
  · have hold : ∀ {v j c}, r'.tenant v = some (j, c) → ∃ c', r.tenant v = some (j, c') := by
      intro v j c hv
      by_cases hvw : v = w
      · subst hvw
        rcases haf with ⟨data, hin, -, -⟩ | ⟨data, hou, -, -⟩
        · cases hv.symm.trans hin
          exact ⟨b, hw⟩
        cases hv.symm.trans hou
      rw [hte hvw] at hv
      exact ⟨c, hv⟩
    intro u v j a c hu hv
    obtain ⟨a', hu⟩ := hold hu
    obtain ⟨c', hv⟩ := hold hv
    exact h.unique hu hv
  · intro j hj hre
    rw [hnx] at hj
    by_cases hjk : j = k
    · subst hjk
      rcases haf with ⟨data, hin, -, -⟩ | ⟨data, -, hso, -⟩
      · exact ⟨w, true, hin⟩
      cases hre.symm.trans hso
    rw [hrc hjk] at hre
    obtain ⟨v, c, hv⟩ := h.covered hj hre
    refine ⟨v, c, ?_⟩
    rw [hte]
    · exact hv
    rintro rfl
    cases hw.symm.trans hv
    exact hjk rfl
  · intro j data hre
    rw [hfi, hnx]
    by_cases hjk : j = k
    · subst hjk
      rcases haf with ⟨data', -, hn, -⟩ | ⟨data', -, hso, hr⟩
      · cases hre.symm.trans hn
      cases hre.symm.trans hso
      exact ⟨hkn, fun _ => hr⟩
    rw [hrc hjk] at hre
    obtain ⟨hjn, hr⟩ := h.recorded hre
    refine ⟨hjn, fun hj => ?_⟩
    rw [hcell' hj (by omega) hjk]
    exact hr hj
  · intro j hj hjn
    rw [hnx] at hj
    rw [hfi] at hjn
    rw [hcell' (by omega) hjn (by omega)]
    exact h.vacant hj hjn

theorem Sound.enter (h : Sound n r) (hw : r.tenant w = some (k, false)) (data : D) :
    Sound n (r.enter n w k data) := by
  apply h.update_cell hw
  · rfl
  · rfl
  · exact fun hj => update_of_ne hj _ _
  · exact fun hv => update_of_ne hv _ _
  · exact fun _ => rfl
  · exact .inl ⟨data, update_self _ _ _, (h.waiting hw).2.2.1, update_self _ _ _⟩

theorem Sound.write (h : Sound n r) (hw : r.tenant w = some (k, true)) (data : D) :
    Sound n (r.write n k data) := by
  apply h.update_cell hw
  · rfl
  · rfl
  · exact fun hj => update_of_ne hj _ _
  · exact fun _ => rfl
  · exact fun _ => rfl
  · exact .inl ⟨data, hw, (h.inside hw).2.2.1, update_self _ _ _⟩

theorem Sound.finish (h : Sound n r) (hw : r.tenant w = some (k, true)) (data : D) :
    Sound n (r.finish n w k data) := by
  apply h.update_cell hw
  · rfl
  · rfl
  · exact fun hj => update_of_ne hj _ _
  · exact fun hv => update_of_ne hv _ _
  · exact fun hj => update_of_ne hj _ _
  · exact .inr ⟨data, update_self _ _ _, update_self _ _ _, update_self _ _ _⟩

omit [DecidableEq W] in
theorem Sound.free {data : D} (h : Sound n r) (hn : 0 < n)
    (hr : r.cell (r.first % n) = .ready data) : Sound n (r.free n) := by
  have hre := h.recorded_of_ready hn hr
  have hlt := (h.recorded hre).1
  have hnle := h.next_le
  have hke : ∀ {k}, r.first + 1 ≤ k → k < r.first + n →
      (r.free n).cell (k % n) = r.cell (k % n) := by
    intro k hk hkn
    apply update_of_ne
    exact h.slot_ne (by omega) hkn le_rfl hlt (by omega)
  have hlat : ∀ {w k b}, r.tenant w = some (k, b) → r.first + 1 ≤ k := by
    intro w k b hw
    obtain ⟨hk, -, hno⟩ := h.tenant_spec hw
    refine lt_of_le_of_ne hk ?_
    rintro rfl
    cases hre.symm.trans hno
  constructor
  · exact hlt
  · simp only [Ring.free]
    omega
  · intro w k hw
    obtain ⟨-, hkn, hno, hfr⟩ := h.waiting hw
    have hk := hlat hw
    rw [hke hk (by omega)]
    exact ⟨hk, hkn, hno, hfr⟩
  · intro w k hw
    obtain ⟨-, hkn, hno, hbus⟩ := h.inside hw
    have hk := hlat hw
    rw [hke hk (by omega)]
    exact ⟨hk, hkn, hno, hbus⟩
  · exact h.unique
  · exact h.covered
  · intro k data' hk
    obtain ⟨hkn, hcel⟩ := h.recorded hk
    refine ⟨hkn, fun hfi => ?_⟩
    have hfirst' : r.first + 1 ≤ k := hfi
    rw [hke hfirst' (by omega)]
    exact hcel (by omega)
  · intro k hk hkn
    have hk' : r.next ≤ k := hk
    have hkn' : k < r.first + 1 + n := hkn
    by_cases hla : k = r.first + n
    · have hs : k % n = r.first % n := by rw [hla, Nat.add_mod_right]
      rw [hs]
      exact update_self _ _ _
    · rw [hke (by omega) (by omega)]
      exact h.vacant hk' (by omega)

end

end Litmus.SlotRing
