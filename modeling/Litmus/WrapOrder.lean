import Mathlib.Data.BitVec
import Mathlib.Tactic.Ring

/-!
# Wrap-around comparison

Two words are compared by the sign of their difference.  The comparison is an order
only among words that lie in one half of the circle.
-/

namespace Litmus.WrapOrder

variable {w : Nat}

/-- `a` comes before `b`: their difference, read as a signed word, is negative. -/
def before (a b : BitVec w) : Bool := (a - b).msb

/-- The distance from `base` going up. -/
def offset (base a : BitVec w) : Nat := (a - base).toNat

/-- `a` lies in the half circle that starts at `base`. -/
def InWindow (base a : BitVec w) : Prop := offset base a < 2 ^ (w - 1)

instance (base a : BitVec w) : Decidable (InWindow base a) :=
  inferInstanceAs (Decidable (offset base a < 2 ^ (w - 1)))

theorem offset_inj {base a b : BitVec w} : offset base a = offset base b ↔ a = b := by
  constructor
  · intro h
    exact sub_left_injective (BitVec.eq_of_toNat_eq h)
  rintro rfl
  rfl

/-- Among small words the sign of the difference is the order of the values. -/
theorem msb_sub_of_small {x y : BitVec w} (hx : x.toNat < 2 ^ (w - 1))
    (hy : y.toNat < 2 ^ (w - 1)) : (x - y).msb = true ↔ x.toNat < y.toNat := by
  rw [BitVec.msb_eq_decide, decide_eq_true_iff, BitVec.toNat_sub]
  cases w with
  | zero =>
    have hx0 := x.isLt
    have hy0 := y.isLt
    simp only [pow_zero] at hx0 hy0 ⊢
    omega
  | succ n =>
    have hpow : 2 ^ (n + 1) = 2 * 2 ^ n := by ring
    rw [hpow]
    simp only [Nat.add_sub_cancel] at hx hy ⊢
    generalize 2 ^ n = m at hx hy ⊢
    rcases lt_or_ge x.toNat y.toNat with hlt | hge
    · rw [Nat.mod_eq_of_lt (by omega)]
      omega
    have hsum : 2 * m - y.toNat + x.toNat = (x.toNat - y.toNat) + 2 * m := by omega
    rw [hsum, Nat.add_mod_right, Nat.mod_eq_of_lt (by omega)]
    omega

/-- Inside a window the comparison is the order of the offsets. -/
theorem before_iff_of_inWindow {base a b : BitVec w} (ha : InWindow base a) (hb : InWindow base b) :
    before a b ↔ offset base a < offset base b := by
  rw [before, ← sub_sub_sub_cancel_right a b base]
  exact msb_sub_of_small ha hb

/-- Adding less than half the circle to a word of the window moves up. -/
theorem offset_le_offset_add {base a p : BitVec w} (ha : InWindow base a)
    (hp : p.toNat < 2 ^ (w - 1)) : offset base a ≤ offset base (a + p) := by
  have hsub : a + p - base = (a - base) + p := by ring
  have hpo : 2 ^ (w - 1) + 2 ^ (w - 1) ≤ 2 ^ w ∨ w = 0 := by
    cases w with
    | zero => exact .inr rfl
    | succ n => exact .inl (by rw [Nat.add_sub_cancel]; ring_nf; rfl)
  unfold InWindow offset at *
  rw [hsub, BitVec.toNat_add]
  rcases hpo with hpo | rfl
  · rw [Nat.mod_eq_of_lt (by omega)]
    omega
  have := (a - base).isLt
  omega

end Litmus.WrapOrder
