import Mathlib.Data.List.Perm.Basic
import Mathlib.Data.List.Range

/-!
# Sorting a trace

`reorder` of `ftsort.c`.  It goes through the records once.  Where a sequence number is not the
next one, it looks for that one among the next `LOOK_AHEAD` records and moves it to the front.
Sequence numbers are 32-bit words.
-/

namespace Litmus.FtSort

open List

variable {R : Type} (seqNo : R → Nat)

/-- `LOOK_AHEAD` -/
def lookAhead : Nat := 1000

/-- The loop of `find_lowest_seq_no`: the index of `pos`, the index of `min`, and `min`. -/
def lowest (seqno : Nat) : Nat → Nat → R → List R → Nat
  | _, k, _, [] => k
  | i, k, min, r :: rs =>
      if seqNo min = seqno then k
      else if seqNo r < seqNo min then lowest seqno (i + 1) i r rs
      else lowest seqno (i + 1) k min rs

def findLowestSeqNo (seqno : Nat) (l : List R) : Nat :=
  match l.take lookAhead with
  | [] => 0
  | r :: rs => lowest seqNo seqno 0 0 r (r :: rs)

/-- The record at index `k` is swapped with the one before it until it is the first. -/
def moveRecord : Nat → List R → List R
  | 0, l => l
  | _ + 1, [] => []
  | k + 1, a :: l =>
      match moveRecord k l with
      | [] => [a]
      | b :: l => b :: a :: l

/-- `reorder` at a position, with the number of records left: what it makes of them, and the
    number of holes it reports. -/
def reorder : Nat → Nat → List R → List R × Nat
  | n + 1, lastSeqno, r :: rs =>
      let next := (lastSeqno + 1) % UInt32.size
      match if lastSeqno ≠ 0 ∧ next ≠ seqNo r then
          moveRecord (findLowestSeqNo seqNo next (r :: rs)) (r :: rs) else r :: rs with
      | [] => ([], 0)
      | r :: rs =>
          let out := reorder n (seqNo r) rs
          (r :: out.1, if lastSeqno ≠ 0 ∧ next ≠ seqNo r then out.2 + 1 else out.2)
  | _, _, l => (l, 0)

variable {seqNo} {l u v : List R} {r : R} {seqno : Nat}

theorem moveRecord_perm (k : Nat) : (moveRecord k l).Perm l := by
  fun_induction moveRecord k l with
  | case1 | case2 => exact .refl _
  | case3 k a l heq ih =>
    rw [heq] at ih
    rw [ih.nil_eq]
  | case4 k a l b l' heq ih =>
    rw [heq] at ih
    exact (Perm.swap a b l').trans (ih.cons a)

/-- Whatever the records are, none is lost, and no hole is left if none is reported. -/
theorem reorder_spec (last : Nat) (l : List R) : (reorder seqNo l.length last l).1.Perm l ∧
    ((reorder seqNo l.length last l).2 = 0 →
      (last :: (reorder seqNo l.length last l).1.map seqNo).IsChain
        fun a b => a ≠ 0 → (a + 1) % UInt32.size = b) := by
  generalize hn : l.length = n
  induction n generalizing last l with
  | zero =>
    obtain rfl := length_eq_zero_iff.mp hn
    exact ⟨.refl _, fun _ => .singleton _⟩
  | succ n ih =>
    obtain ⟨r, rs, rfl⟩ := exists_cons_of_length_eq_add_one hn
    -- the records from this position on, after the swaps
    obtain ⟨l', hl', hp⟩ : ∃ l', (if last ≠ 0 ∧ (last + 1) % UInt32.size ≠ seqNo r then
        moveRecord (findLowestSeqNo seqNo ((last + 1) % UInt32.size) (r :: rs)) (r :: rs)
        else r :: rs) = l' ∧ l'.Perm (r :: rs) := by
      refine ⟨_, rfl, ?_⟩
      split
      · exact moveRecord_perm _
      exact .refl _
    obtain ⟨x, xs, rfl⟩ := exists_cons_of_length_eq_add_one (hp.length_eq.trans hn)
    obtain ⟨hperm, hchain⟩ := ih (seqNo x) xs (by simpa [hn] using hp.length_eq)
    simp only [reorder, hl', map_cons]
    refine ⟨(hperm.cons x).trans hp, fun h => ?_⟩
    split at h
    · cases h
    rename_i hno
    exact .cons_cons (fun hlast => by_contra fun hne => hno ⟨hlast, hne⟩) (hchain h)

end Litmus.FtSort
