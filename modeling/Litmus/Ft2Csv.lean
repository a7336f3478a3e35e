import Litmus.FtSort
import Mathlib.Data.List.Basic
import Mathlib.Data.List.Chain

/-!
# Pairing the records of a trace

`show_id` of `ft2csv.c` pairs each start record with the next end record of its CPU.  The scan for
holes starts after `first` and again after each record of the same CPU, so it misses those there.
-/

namespace Litmus.Ft2Csv

open List

structure Timestamp where
  timestamp : Nat
  seqNo : Nat
  cpu : Nat
  event : Nat
  /-- `task_type == TSK_RT` -/
  rt : Bool

/-- The CPUs are `none` for `-1`. -/
structure Options where
  wantInterleaved : Bool
  wantBestEffort : Bool
  avoidCpu : Option Nat
  onlyCpu : Option Nat
  threshold : Nat

variable (o : Options)

/-- `next_id`, with the loop of `next` in it: its `last_seqno` restarts at each record of `cpu`. -/
def nextId (cpu id stop : Nat) : Nat → List Timestamp → Option Timestamp
  | _, [] => none
  | lastSeqno, pos :: rest =>
      if lastSeqno ≠ 0 ∧ (lastSeqno + 1) % UInt32.size ≠ pos.seqNo then none
      else if pos.cpu ≠ cpu then nextId cpu id stop pos.seqNo rest
      else if pos.event = id then some pos
      else if pos.event = stop ∨ o.wantInterleaved = false then none
      else nextId cpu id stop 0 rest

def Avoided (first : Timestamp) : Prop :=
  some first.cpu = o.avoidCpu ∨ o.onlyCpu ≠ none ∧ some first.cpu ≠ o.onlyCpu

/-- Neither `filtered` nor `non_rt`. -/
def Kept (first second : Timestamp) : Prop :=
  (second.timestamp + UInt64.size - first.timestamp) % UInt64.size ≤ o.threshold ∧
    (first.rt ∨ second.rt ∨ o.wantBestEffort)

instance (first : Timestamp) : Decidable (Avoided o first) :=
  inferInstanceAs (Decidable (_ ∨ _))

instance (first second : Timestamp) : Decidable (Kept o first second) :=
  inferInstanceAs (Decidable (_ ∧ _))

def showCsv (first : Timestamp) (rest : List Timestamp) : List (Timestamp × Timestamp) :=
  if Avoided o first then []
  else match nextId o first.cpu (first.event + 1) first.event 0 rest with
    | some second => if Kept o first second then [(first, second)] else []
    | none => []

def showAll (id : Nat) : List Timestamp → List (Timestamp × Timestamp)
  | [] => []
  | start :: rest => (if start.event = id then showCsv o start rest else []) ++ showAll id rest

def showId (id : Nat) (l : List Timestamp) : List (Timestamp × Timestamp) :=
  showAll o id (l.dropWhile fun r => r.event ≠ id + 1)

/-- No record was lost. -/
def Gapless (l : List Timestamp) : Prop :=
  l.IsChain fun a b => (a.seqNo + 1) % UInt32.size = b.seqNo

/-- `s` is the first record of the CPU with one of the two events, and it has `id`. -/
def Second (cpu id stop : Nat) (l : List Timestamp) (s : Timestamp) : Prop :=
  ∃ B C, l = B ++ s :: C ∧ s.cpu = cpu ∧ s.event = id ∧
    ∀ x ∈ B, x.cpu = cpu → x.event ≠ id ∧ x.event ≠ stop

/-- A start record with its end record, after some end record of the trace. -/
def Pair (id : Nat) (l : List Timestamp) (p : Timestamp × Timestamp) : Prop :=
  ∃ A D, l = A ++ p.1 :: D ∧ (∃ e ∈ A, e.event = id + 1) ∧ p.1.event = id ∧
    Second p.1.cpu (id + 1) id D p.2

variable {o} {l D : List Timestamp} {p : Timestamp × Timestamp} {r s : Timestamp}
  {cpu id stop last : Nat}

theorem second_cons : Second cpu id stop (r :: l) s ↔ r = s ∧ s.cpu = cpu ∧ s.event = id ∨
      (r.cpu = cpu → r.event ≠ id ∧ r.event ≠ stop) ∧ Second cpu id stop l s := by
  constructor
  · rintro ⟨_ | ⟨x, B⟩, C, heq, hc, hid, hB⟩
    · cases heq
      exact .inl ⟨rfl, hc, hid⟩
    cases heq
    exact .inr ⟨hB r (by simp), B, C, rfl, hc, hid, fun y hy => hB y (by simp [hy])⟩
  rintro (⟨rfl, hc, hid⟩ | ⟨hr, B, C, rfl, hc, hid, hB⟩)
  · exact ⟨[], l, rfl, hc, hid, by simp⟩
  exact ⟨r :: B, C, rfl, hc, hid, by simpa using ⟨hr, hB⟩⟩

theorem nextId_of_second (hint : o.wantInterleaved = true) (hl : Gapless l)
    (hlas : ∀ r ∈ l.head?, last ≠ 0 → (last + 1) % UInt32.size = r.seqNo)
    (h : Second cpu id stop l s) : nextId o cpu id stop last l = some s := by
  fun_induction nextId o cpu id stop last l with
  | case1 =>
    obtain ⟨B, C, h, _⟩ := h
    cases B <;> cases h
  | case2 _ r _ hho => exact absurd (hlas r rfl hho.1) hho.2
  | case3 _ _ _ _ hc ih =>
    rcases second_cons.mp h with ⟨rfl, h, _⟩ | ⟨_, h⟩
    · exact absurd h hc
    exact ih hl.tail (fun x hx _ => (isChain_cons.mp hl).1 x hx) h
  | case4 _ _ _ _ hc hid =>
    rcases second_cons.mp h with ⟨rfl, _⟩ | ⟨h, _⟩
    · rfl
    exact absurd hid (h (not_not.mp hc)).1
  | case5 _ _ _ _ hc hid hst =>
    rcases second_cons.mp h with ⟨rfl, _, h⟩ | ⟨h, _⟩
    · exact absurd h hid
    rcases hst with hst | hst
    · exact absurd hst (h (not_not.mp hc)).2
    exact absurd hint (by simp [hst])
  | case6 _ _ _ _ _ hid _ ih =>
    rcases second_cons.mp h with ⟨rfl, _, h⟩ | ⟨_, h⟩
    · exact absurd h hid
    exact ih hl.tail (fun _ _ h => absurd rfl h) h

theorem mem_showCsv : p ∈ showCsv o r D ↔ r = p.1 ∧ ¬Avoided o p.1 ∧
    Kept o p.1 p.2 ∧ nextId o p.1.cpu (p.1.event + 1) p.1.event 0 D = some p.2 := by
  unfold showCsv
  by_cases hav : Avoided o r
  · rw [if_pos hav]
    exact ⟨nofun, fun ⟨h, h', _⟩ => absurd (h ▸ hav) h'⟩
  rw [if_neg hav]
  cases hn : nextId o r.cpu (r.event + 1) r.event 0 D with
  | none => exact ⟨nofun, fun ⟨h, _, _, h'⟩ => by simp [← h, hn] at h'⟩
  | some second =>
    dsimp only
    constructor
    · intro h
      split at h
      · cases mem_singleton.mp h
        exact ⟨rfl, hav, by assumption, hn⟩
      cases h
    rintro ⟨rfl, _, hk, h⟩
    cases hn.symm.trans h
    rw [if_pos hk]
    exact mem_singleton.mpr rfl

theorem mem_showAll : p ∈ showAll o id l ↔
    ∃ A D, l = A ++ p.1 :: D ∧ p.1.event = id ∧ p ∈ showCsv o p.1 D := by
  induction l with
  | nil => simp [showAll]
  | cons r l ih =>
    rw [showAll, mem_append, ih]
    constructor
    · rintro (h | ⟨A, D, rfl, h⟩)
      · split at h
        · obtain rfl := (mem_showCsv.mp h).1
          exact ⟨[], l, rfl, by assumption, h⟩
        cases h
      exact ⟨r :: A, D, rfl, h⟩
    rintro ⟨_ | ⟨x, A⟩, D, heq, hid, h⟩
    · cases heq
      exact .inl (by rwa [if_pos hid])
    cases heq
    exact .inr ⟨A, D, rfl, hid, h⟩

/-- The start records before the first end record of the trace are skipped. -/
theorem dropWhile_split (hr : r.event = id) :
    (∃ A, l.dropWhile (fun x => x.event ≠ id + 1) = A ++ r :: D) ↔
      ∃ A, l = A ++ r :: D ∧ ∃ e ∈ A, e.event = id + 1 := by
  induction l with
  | nil => simp
  | cons x l ih =>
    by_cases hx : x.event = id + 1
    · rw [dropWhile_cons_of_neg (by simpa using hx)]
      refine ⟨?_, fun ⟨A, h, _⟩ => ⟨A, h⟩⟩
      rintro ⟨_ | ⟨y, A⟩, h⟩
      · cases h
        omega
      cases h
      exact ⟨x :: A, rfl, x, by simp, hx⟩
    rw [dropWhile_cons_of_pos (by simpa using hx), ih]
    constructor
    · rintro ⟨A, rfl, e, he, h⟩
      exact ⟨x :: A, rfl, e, by simp [he], h⟩
    rintro ⟨_ | ⟨y, A⟩, h, e, he, hev⟩
    · cases he
    cases h
    rcases mem_cons.mp he with rfl | he
    · exact absurd hev hx
    exact ⟨A, rfl, e, he, hev⟩

/-- If `ftsort` reports no hole, it has kept all records, and `ft2csv` shows every pair of its
    result. -/
theorem ft_tools_complete (hint : o.wantInterleaved = true) {l out : List Timestamp}
    (hpos : ∀ r ∈ l, r.seqNo ≠ 0) (h : FtSort.reorder Timestamp.seqNo l.length 0 l = (out, 0)) :
    out.Perm l ∧ ∀ id p, Pair id out p → ¬Avoided o p.1 → Kept o p.1 p.2 → p ∈ showId o id out := by
  obtain ⟨hperm, hchain⟩ := @FtSort.reorder_spec _ Timestamp.seqNo 0 l
  rw [h] at hperm hchain
  have hgap : Gapless out := ((isChain_map _).mp (hchain rfl).tail).imp_of_mem_imp
    fun a b ha _ hab => hab (hpos a (hperm.subset ha))
  refine ⟨hperm, ?_⟩
  rintro id p ⟨A, D, heq, he, rfl, hs⟩ hav hk
  obtain ⟨B, hB⟩ := (dropWhile_split rfl).mpr ⟨A, heq, he⟩
  have hD : Gapless D := by
    rw [heq] at hgap
    exact (isChain_append.mp hgap).2.1.tail
  have hn := nextId_of_second hint hD (fun _ _ h => absurd rfl h) hs
  exact mem_showAll.mpr ⟨B, D, hB, rfl, mem_showCsv.mpr ⟨rfl, hav, hk, hn⟩⟩

theorem ft_tools_complete_three :
    let o : Options := ⟨true, false, none, none, 21280000⟩
    let e : Timestamp := ⟨0, 1, 0, 11, true⟩
    let first : Timestamp := ⟨10, 2, 0, 10, true⟩
    let second : Timestamp := ⟨20, 3, 0, 11, true⟩
    FtSort.reorder Timestamp.seqNo 3 0 [e, second, first] = ([e, first, second], 0) ∧
      (first, second) ∈ showId o 10 [e, first, second] := by
  intro o e first second
  have h : FtSort.reorder Timestamp.seqNo 3 0 [e, second, first] = ([e, first, second], 0) := rfl
  have hshown := (ft_tools_complete (l := [e, second, first]) (o := o) rfl
    (by simp [e, first, second]) h).2 10 (first, second)
  refine ⟨h, hshown ?_ ?_ ?_⟩
  · exact ⟨[e], [second], rfl, by simp [e], rfl, [], [], rfl, rfl, rfl, by simp⟩
  · simp [Avoided, o]
  simp [Kept, o, first, second, UInt64.size]

end Litmus.Ft2Csv
