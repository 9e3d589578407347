import Mathlib.Data.BitVec
import Mathlib.Data.List.Basic
import Mathlib.Tactic.Linarith
import Mathlib.Tactic.Ring

/-!
Numbers as lists of words of one width, the least significant word first. The lists of a length
are the numbers below a power of two; their bits are those of the words, and they are ordered
by the first words from the end that differ.
-/

namespace UmbrellaLtc.Limbs

variable {w : ℕ}

def value : List (BitVec w) → ℕ
  | [] => 0
  | x :: l => x.toNat + 2 ^ w * value l

theorem value_nil : value ([] : List (BitVec w)) = 0 := rfl

theorem value_cons (x : BitVec w) (l : List (BitVec w)) :
    value (x :: l) = x.toNat + 2 ^ w * value l := rfl

/-- One more than the greatest value of so many words. -/
def modulus (w n : ℕ) : ℕ := 2 ^ (w * n)

theorem modulus_succ (w n : ℕ) : modulus w (n + 1) = 2 ^ w * modulus w n := by
  unfold modulus
  rw [Nat.mul_succ, Nat.pow_add, Nat.mul_comm]

theorem value_lt (l : List (BitVec w)) : value l < modulus w l.length := by
  induction l with
  | nil => exact Nat.one_pos
  | cons x l ih =>
    have hx := x.isLt
    rw [List.length_cons, modulus_succ, value_cons]
    have hle : 2 ^ w * (value l + 1) ≤ 2 ^ w * modulus w l.length := Nat.mul_le_mul_left _ ih
    rw [Nat.mul_succ] at hle
    omega

theorem value_inj {l m : List (BitVec w)} (hlen : l.length = m.length) (h : value l = value m) :
    l = m := by
  induction l generalizing m with
  | nil => exact (List.length_eq_zero_iff.mp hlen.symm).symm
  | cons x l ih =>
    cases m with
    | nil => cases hlen
    | cons y m =>
      rw [value_cons, value_cons] at h
      have hx := x.isLt
      have hy := y.isLt
      have hmod := congrArg (· % 2 ^ w) h
      simp only [Nat.add_mul_mod_self_left, Nat.mod_eq_of_lt hx, Nat.mod_eq_of_lt hy] at hmod
      have hrest : 2 ^ w * value l = 2 ^ w * value m := by omega
      have htail := Nat.eq_of_mul_eq_mul_left (Nat.two_pow_pos w) hrest
      rw [BitVec.eq_of_toNat_eq hmod, ih (Nat.succ.inj hlen) htail]

theorem value_append (l m : List (BitVec w)) :
    value (l ++ m) = value l + modulus w l.length * value m := by
  induction l with
  | nil => simp [value_nil, modulus]
  | cons x l ih =>
    rw [List.cons_append, value_cons, ih, List.length_cons, modulus_succ, value_cons]
    ring

theorem value_replicate_zero (n : ℕ) : value (List.replicate n (0 : BitVec w)) = 0 := by
  induction n with
  | zero => rfl
  | succ n ih =>
    rw [List.replicate_succ, value_cons, ih]
    simp

/-- The bits of a number are those of its words. -/
theorem testBit_value (hw : 0 < w) (l : List (BitVec w)) (j : ℕ) :
    (value l).testBit j = (l.getD (j / w) 0).getLsbD (j % w) := by
  induction l generalizing j with
  | nil => simp [value_nil]
  | cons x l ih =>
    have hsplit : x.toNat + 2 ^ w * value l = 2 ^ w * value l + x.toNat := Nat.add_comm _ _
    rw [value_cons, hsplit, Nat.testBit_two_pow_mul_add _ x.isLt]
    by_cases hj : j < w
    · rw [if_pos hj, Nat.div_eq_of_lt hj, Nat.mod_eq_of_lt hj]
      rfl
    · have hdiv : j / w = (j - w) / w + 1 := by
        rw [← Nat.add_div_right _ hw, Nat.sub_add_cancel (Nat.not_lt.mp hj)]
      have hmod : j % w = (j - w) % w := Nat.mod_eq_sub_mod (Nat.not_lt.mp hj)
      rw [if_neg hj, ih, hdiv, hmod, List.getD_cons_succ]

/-- All words complemented. -/
theorem value_map_not (l : List (BitVec w)) :
    value (l.map (~~~ ·)) + value l + 1 = modulus w l.length := by
  induction l with
  | nil => rfl
  | cons x l ih =>
    have hx := x.isLt
    rw [List.map_cons, value_cons, value_cons, BitVec.toNat_not, List.length_cons, modulus_succ, ← ih]
    have hexpand : 2 ^ w * (value (l.map (~~~ ·)) + value l + 1) =
        2 ^ w * value (l.map (~~~ ·)) + 2 ^ w * value l + 2 ^ w := by ring
    omega

/-- Words in the order of their weight, the most significant one first. -/
theorem value_reverse_cons (x : BitVec w) (l : List (BitVec w)) :
    value (x :: l).reverse = value l.reverse + modulus w l.length * x.toNat := by
  rw [List.reverse_cons, value_append, List.length_reverse]
  simp [value_cons, value_nil]

/-- The first words that differ decide. -/
theorem value_reverse_lt {x y : BitVec w} {l m : List (BitVec w)} (hlen : l.length = m.length)
    (h : x < y) : value (x :: l).reverse < value (y :: m).reverse := by
  have hl := value_lt l.reverse
  rw [List.length_reverse] at hl
  have hle : modulus w l.length * (x.toNat + 1) ≤ modulus w l.length * y.toNat :=
    Nat.mul_le_mul_left _ h
  rw [Nat.mul_succ] at hle
  rw [value_reverse_cons, value_reverse_cons, ← hlen]
  omega

end UmbrellaLtc.Limbs
