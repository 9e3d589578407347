import Mathlib.Data.Nat.Log
import Mathlib.Data.Int.Order.Basic
import Mathlib.Tactic.Positivity
import Mathlib.Tactic.Ring
import Mathlib.Tactic.SplitIfs
import Mathlib.Tactic.Linarith

/-!
Signed machine integers with `d` value bits. An operation of the machine is given by the exact
integer that it computes, and is undefined where that is no value of the type.
-/

namespace UmbrellaLtc.MachineInt

/-- The values of a two's complement type with `d` value bits and a sign. -/
def InRange (d : ℕ) (x : ℤ) : Prop := -2 ^ d ≤ x ∧ x < 2 ^ d

instance (d : ℕ) (x : ℤ) : Decidable (InRange d x) := inferInstanceAs (Decidable (_ ∧ _))

abbrev Signed (d : ℕ) := { x : ℤ // InRange d x }

theorem inRange_zero (d : ℕ) : InRange d 0 := by
  have hpos : (0 : ℤ) < 2 ^ d := by positivity
  exact ⟨by omega, hpos⟩

instance (d : ℕ) : Zero (Signed d) := ⟨⟨0, inRange_zero d⟩⟩

/-- The operation with the exact result `x`. -/
def machine (d : ℕ) (x : ℤ) : Option (Signed d) := if h : InRange d x then some ⟨x, h⟩ else none

theorem machine_eq {d : ℕ} {x : ℤ} (h : InRange d x) : machine d x = some ⟨x, h⟩ := dif_pos h

theorem machine_none {d : ℕ} {x : ℤ} (h : ¬ InRange d x) : machine d x = none := dif_neg h

/-- A conversion to the type, which takes the value modulo its size. -/
def wrap (d : ℕ) (x : ℤ) : Signed d :=
  ⟨x.bmod (2 ^ (d + 1)), by
    have hpos : 0 < 2 ^ (d + 1) := by positivity
    have hlow := Int.le_bmod (x := x) hpos
    have hhigh := Int.bmod_lt (x := x) hpos
    have hhalf : (2 ^ (d + 1) : ℕ) = 2 * 2 ^ d := by ring
    have hcast : ((2 ^ d : ℕ) : ℤ) = 2 ^ d := by norm_num
    rw [hhalf] at hlow hhigh ⊢
    unfold InRange
    omega⟩

theorem wrap_of_inRange {d : ℕ} {x : ℤ} (h : InRange d x) : (wrap d x).1 = x := by
  have hhalf : (2 ^ (d + 1) : ℕ) = 2 * 2 ^ d := by ring
  have hcast : ((2 ^ d : ℕ) : ℤ) = 2 ^ d := by norm_num
  obtain ⟨hlow, hhigh⟩ := h
  show x.bmod (2 ^ (d + 1)) = x
  exact Int.bmod_eq_of_le (by rw [hhalf]; omega) (by rw [hhalf]; omega)

/-! Ranges of quotients, remainders and products. -/

theorem inRange_tdiv {d : ℕ} {a b : ℤ} (ha : InRange d a) (hb : b ≠ 0)
    (hmin : ¬ (a = -2 ^ d ∧ b = -1)) : InRange d (a.tdiv b) := by
  obtain ⟨hlow, hhigh⟩ := ha
  have habs : (a.tdiv b).natAbs = a.natAbs / b.natAbs := Int.natAbs_tdiv a b
  have hle : a.natAbs / b.natAbs ≤ a.natAbs := Nat.div_le_self _ _
  unfold InRange
  by_cases hneg : a = -2 ^ d
  · have hne : b ≠ -1 := fun h => hmin ⟨hneg, h⟩
    by_cases hone : b = 1
    · subst hone
      rw [Int.tdiv_one]
      omega
    · -- a divisor of two or more halves the magnitude
      have hhalf : a.natAbs / b.natAbs ≤ a.natAbs / 2 := Nat.div_le_div_left (by omega) (by omega)
      omega
  · omega

theorem inRange_tmod {d : ℕ} {a : ℤ} (b : ℤ) (ha : InRange d a) : InRange d (a.tmod b) := by
  obtain ⟨hlow, hhigh⟩ := ha
  have habs : (a.tmod b).natAbs = a.natAbs % b.natAbs := Int.natAbs_tmod a b
  have hle : a.natAbs % b.natAbs ≤ a.natAbs := Nat.mod_le _ _
  unfold InRange
  rcases Int.le_total 0 a with hpos | hneg
  · have hsign := Int.tmod_nonneg b hpos
    omega
  · have hsign := Int.tmod_nonneg b (Int.neg_nonneg_of_nonpos hneg)
    rw [Int.neg_tmod] at hsign
    omega

/-- Values whose bits number at most `d` together have a product in the range. -/
theorem inRange_mul {d i j : ℕ} {a b : ℤ} (ha : a.natAbs < 2 ^ i) (hb : b.natAbs < 2 ^ j)
    (hd : i + j ≤ d) : InRange d (a * b) := by
  have habs : (a * b).natAbs = a.natAbs * b.natAbs := Int.natAbs_mul a b
  have hlt : a.natAbs * b.natAbs < 2 ^ i * 2 ^ j := Nat.mul_lt_mul'' ha hb
  have hle : 2 ^ i * 2 ^ j ≤ 2 ^ d := by
    rw [← pow_add]
    exact Nat.pow_le_pow_right (by omega) hd
  have hcast : ((2 ^ d : ℕ) : ℤ) = 2 ^ d := by norm_num
  unfold InRange
  omega

/-- The number of the highest bit set, from 1 on; 0 for zero. -/
def highestBit1 (n : ℕ) : ℕ := if n = 0 then 0 else n.log2 + 1

theorem highestBit1_le_iff (n k : ℕ) : highestBit1 n ≤ k ↔ n < 2 ^ k := by
  unfold highestBit1
  by_cases hn : n = 0
  · rw [if_pos hn, hn]
    exact iff_of_true (Nat.zero_le k) (by positivity)
  · rw [if_neg hn, ← Nat.log2_lt hn]
    omega

theorem lt_two_pow_highestBit1 (n : ℕ) : n < 2 ^ highestBit1 n :=
  (highestBit1_le_iff n _).mp le_rfl

end UmbrellaLtc.MachineInt
