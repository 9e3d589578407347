import UmbrellaLtc.SafeInt
import Mathlib.Data.Rat.Floor
import Mathlib.Tactic.FieldSimp

/-!
The fixed point numbers of types/fixed.h, whose representation is an overflow-tracking integer.
Products and quotients that are not flagged are exact up to truncation or are marked as inexact,
in either order of the operations. The conversion to another ratio copies the representation.
-/

namespace UmbrellaLtc.FixedPoint

open MachineInt SafeInt

/-- std::ratio<1, den>, where den is a value of the representation. -/
structure Ratio (d : ℕ) where
  den : ℕ
  pos : 0 < den
  lt : den < 2 ^ d

/-- types::fixed_t. -/
structure Fixed (d : ℕ) (ratio : Ratio d) where
  rep : Safe d

variable {d : ℕ} {ratio ra2 : Ratio d}

/-- Ra2::num, which a static assertion fixes. -/
def num (d : ℕ) : Safe d := ofInt d 1

def Ratio.denominator (ratio : Ratio d) : Safe d := ofInt d ratio.den

/-- `operator *=` of another fixed point number, with the second order of the operations. -/
def Fixed.mulAssign (a : Fixed d ratio) (p : Fixed d ra2) : Option (Fixed d ratio) := do
  let copy := a.rep
  let rep ← SafeInt.mulAssign copy p.rep
  let rep ← SafeInt.mulAssign rep (num d)
  let rep ← SafeInt.divAssign rep ra2.denominator
  if rep.noOvf then return ⟨rep⟩
  let rep ← SafeInt.divAssign copy ra2.denominator
  let rep ← SafeInt.mulAssign rep (num d)
  let rep ← SafeInt.mulAssign rep p.rep
  return ⟨rep⟩

/-- `operator /=` by another fixed point number. -/
def Fixed.divAssign (a : Fixed d ratio) (o : Fixed d ra2) : Option (Fixed d ratio) := do
  let copy := a.rep
  let rep ← SafeInt.mulAssign copy ra2.denominator
  let rep ← SafeInt.divAssign rep (num d)
  let rep ← SafeInt.divAssign rep o.rep
  if rep.noOvf then return ⟨rep⟩
  let rep ← SafeInt.divAssign copy o.rep
  let rep ← SafeInt.divAssign rep (num d)
  let rep ← SafeInt.mulAssign rep ra2.denominator
  return ⟨rep⟩

/-- `operator fixed_t<Rep, Ra2>`. -/
def Fixed.convert (a : Fixed d ratio) (ra2 : Ratio d) : Fixed d ra2 := ⟨a.rep⟩

/-- `truncate`. -/
def Fixed.truncate (a : Fixed d ratio) : Option (Safe d) := do
  let copy ← SafeInt.mulAssign a.rep (num d)
  SafeInt.divAssign copy ratio.denominator

/-! The number that is represented. -/

def Fixed.value (a : Fixed d ratio) : ℚ := a.rep.v.1 / ratio.den

/-- Truncation to an integer. -/
def trunc (x : ℚ) : ℤ := if 0 ≤ x then ⌊x⌋ else ⌈x⌉

/-- The number truncated to a multiple of 1 / den. -/
def truncTo (den : ℕ) (x : ℚ) : ℚ := trunc (x * den) / den

/-- What is promised of two numbers: their product, their quotient, and the first one in the
ratio of the second. -/
structure Faithful (a : Fixed d ratio) (p : Fixed d ra2) : Prop where
  product : ∀ r, a.mulAssign p = some r → r.rep.noOvf = true →
    r.rep.rem = true ∨ r.value = truncTo ratio.den (a.value * p.value)
  quotient : ∀ r, a.divAssign p = some r → r.rep.noOvf = true →
    r.rep.rem = true ∨ r.value = truncTo ratio.den (a.value / p.value)
  conversion : (a.convert ra2).value = truncTo ra2.den a.value

/-- The truncated quotient of two integers is C++'s. -/
theorem trunc_div (m n : ℤ) (hn : n ≠ 0) : trunc (m / n) = m.tdiv n := by
  have hnat : ∀ (m : ℤ) (k : ℕ), 0 < k → trunc (m / (k : ℤ)) = m.tdiv k := by
    intro m k hk
    have hkq : (0 : ℚ) < k := by exact_mod_cast hk
    unfold trunc
    rw [Int.cast_natCast]
    by_cases hm : 0 ≤ m
    · have hnonneg : (0 : ℚ) ≤ m / k := div_nonneg (by exact_mod_cast hm) hkq.le
      rw [if_pos hnonneg, Rat.floor_intCast_div_natCast, Int.tdiv_eq_ediv_of_nonneg hm]
    · have hneg : ¬ (0 : ℚ) ≤ m / k := by
        rw [not_le]
        exact div_neg_of_neg_of_pos (by exact_mod_cast not_le.mp hm) hkq
      have hopp : (m : ℚ) / k = -(((-m : ℤ) : ℚ) / k) := by
        push_cast
        ring
      rw [if_neg hneg, hopp, Int.ceil_neg, Rat.floor_intCast_div_natCast,
        ← Int.tdiv_eq_ediv_of_nonneg (by omega), Int.neg_tdiv, neg_neg]
  rcases lt_or_gt_of_ne hn with hneg | hpos
  · have hopp : (m : ℚ) / n = ((-m : ℤ) : ℚ) / (((-n).toNat : ℤ) : ℚ) := by
      rw [Int.toNat_of_nonneg (by omega)]
      push_cast
      rw [neg_div_neg_eq]
    rw [hopp, hnat (-m) (-n).toNat (by omega), Int.toNat_of_nonneg (by omega), Int.neg_tdiv,
      Int.tdiv_neg, neg_neg]
  · have hto : ((n.toNat : ℕ) : ℤ) = n := Int.toNat_of_nonneg (by omega)
    have h := hnat m n.toNat (by omega)
    rwa [hto] at h

section Values

theorem Ratio.den_ne (ratio : Ratio d) : (ratio.den : ℚ) ≠ 0 := by
  have := ratio.pos
  exact_mod_cast this.ne'

/-- A representation stands for the truncation of a quotient when it is C++'s quotient. -/
theorem value_eq_truncTo {r : Fixed d ratio} {x : ℚ} {m n : ℤ} (hn : n ≠ 0)
    (hx : x * ratio.den = m / n) : r.value = truncTo ratio.den x ↔ r.rep.v.1 = m.tdiv n := by
  have hden := ratio.den_ne
  rw [Fixed.value, truncTo, hx, trunc_div m n hn, div_left_inj' hden]
  exact Int.cast_inj

theorem product_scaled (a : Fixed d ratio) (p : Fixed d ra2) :
    a.value * p.value * ratio.den = ((a.rep.v.1 * p.rep.v.1 : ℤ) : ℚ) / ((ra2.den : ℤ) : ℚ) := by
  have hden := ratio.den_ne
  have hden2 := ra2.den_ne
  unfold Fixed.value
  push_cast
  field_simp

theorem quotient_scaled (a : Fixed d ratio) (p : Fixed d ra2) (hp : p.rep.v.1 ≠ 0) :
    a.value / p.value * ratio.den = ((a.rep.v.1 * ra2.den : ℤ) : ℚ) / ((p.rep.v.1 : ℤ) : ℚ) := by
  have hden := ratio.den_ne
  have hden2 := ra2.den_ne
  have hpq : (p.rep.v.1 : ℚ) ≠ 0 := by exact_mod_cast hp
  unfold Fixed.value
  push_cast
  field_simp

theorem value_scaled (a : Fixed d ratio) (ra2 : Ratio d) :
    a.value * ra2.den = ((a.rep.v.1 * ra2.den : ℤ) : ℚ) / ((ratio.den : ℤ) : ℚ) := by
  have hden := ratio.den_ne
  unfold Fixed.value
  push_cast
  field_simp

end Values

section Operators

theorem Ratio.inRange (ratio : Ratio d) : InRange d ratio.den := by
  have hpow : ((2 ^ d : ℕ) : ℤ) = 2 ^ d := by norm_num
  have hlt := ratio.lt
  exact ⟨by omega, by omega⟩

theorem Ratio.denominator_v (ratio : Ratio d) : ratio.denominator.v.1 = ratio.den := by
  rw [Ratio.denominator, ofInt_inRange ratio.inRange]

theorem Ratio.inRange_one (ratio : Ratio d) : InRange d 1 := by
  have hpow : ((2 ^ d : ℕ) : ℤ) = 2 ^ d := by norm_num
  have hpos := ratio.pos
  have hlt := ratio.lt
  exact ⟨by omega, by omega⟩

theorem num_v (ratio : Ratio d) : (num d).v.1 = 1 := by rw [num, ofInt_inRange ratio.inRange_one]

/-- An exact quotient can be taken before the multiplication. -/
theorem tdiv_mul_of_tmod {x q : ℤ} (hq : q ≠ 0) (hexact : x.tmod q = 0) (y : ℤ) :
    x.tdiv q * y = (x * y).tdiv q := by
  obtain ⟨k, rfl⟩ := Int.dvd_of_tmod_eq_zero hexact
  rw [Int.mul_tdiv_cancel_left _ hq, mul_assoc, Int.mul_tdiv_cancel_left _ hq]

/-- A product that is not flagged is exact up to truncation, or the second order of the
operations has lost precision. -/
theorem mulAssign_spec {a : Fixed d ratio} {p : Fixed d ra2} {r : Fixed d ratio}
    (h : a.mulAssign p = some r) (hr : r.rep.noOvf = true) :
    r.rep.rem = true ∨ r.rep.v.1 = (a.rep.v.1 * p.rep.v.1).tdiv ra2.den := by
  have hden := ra2.denominator_v
  have hnum := num_v ra2
  unfold Fixed.mulAssign at h
  simp only [Option.bind_eq_bind, Option.bind_eq_some_iff] at h
  obtain ⟨product, hproduct, scaled, hscaled, quotient, hquotient, h⟩ := h
  obtain ⟨_, hv, hflag, _⟩ := divAssign_spec hquotient
  by_cases hdirect : quotient.noOvf = true
  · rw [if_pos hdirect, Option.pure_def, Option.some.injEq] at h
    subst h
    have hflags := (Bool.and_eq_true _ _).mp (hflag.symm.trans hdirect)
    obtain ⟨hflag1, _, hv1, _⟩ := mulAssign_unflagged hscaled hflags.1
    obtain ⟨_, _, hv0, _⟩ := mulAssign_unflagged hproduct hflag1
    right
    show quotient.v.1 = _
    rw [hv, hden, hv1, hnum, mul_one, hv0]
  · rw [if_neg hdirect] at h
    simp only [Option.pure_def, Option.bind_eq_some_iff, Option.some.injEq] at h
    obtain ⟨divided, hdivided, scaled, hscaled, product, hproduct, hres⟩ := h
    subst hres
    obtain ⟨hflag1, _, hv2, hrem2⟩ := mulAssign_unflagged hproduct hr
    obtain ⟨_, _, hv1, hrem1⟩ := mulAssign_unflagged hscaled hflag1
    obtain ⟨_, hv0, _, hrem0⟩ := divAssign_spec hdivided
    show product.rem = true ∨ product.v.1 = _
    rw [hrem2, hrem1, hrem0, hv2, hv1, hv0, hden, hnum, mul_one]
    by_cases hexact : a.rep.v.1.tmod ra2.den = 0
    · right
      exact tdiv_mul_of_tmod (by have := ra2.pos; omega) hexact p.rep.v.1
    · left
      simp [hexact]

/-- The same of a quotient; there is one only by a divisor that is not zero. -/
theorem divAssign_fixed_spec {a : Fixed d ratio} {o : Fixed d ra2} {r : Fixed d ratio}
    (h : a.divAssign o = some r) (hr : r.rep.noOvf = true) :
    o.rep.v.1 ≠ 0 ∧
      (r.rep.rem = true ∨ r.rep.v.1 = (a.rep.v.1 * ra2.den).tdiv o.rep.v.1) := by
  have hden := ra2.denominator_v
  have hnum := num_v ra2
  unfold Fixed.divAssign at h
  simp only [Option.bind_eq_bind, Option.bind_eq_some_iff] at h
  obtain ⟨product, hproduct, scaled, hscaled, quotient, hquotient, h⟩ := h
  obtain ⟨hne, hv, hflag, _⟩ := divAssign_spec hquotient
  refine ⟨hne, ?_⟩
  by_cases hdirect : quotient.noOvf = true
  · rw [if_pos hdirect, Option.pure_def, Option.some.injEq] at h
    subst h
    have hflags := (Bool.and_eq_true _ _).mp (hflag.symm.trans hdirect)
    obtain ⟨_, hv1, hflag1, _⟩ := divAssign_spec hscaled
    have hflags1 := (Bool.and_eq_true _ _).mp (hflag1.symm.trans hflags.1)
    obtain ⟨_, _, hv0, _⟩ := mulAssign_unflagged hproduct hflags1.1
    right
    show quotient.v.1 = _
    rw [hv, hv1, hnum, Int.tdiv_one, hv0, hden]
  · rw [if_neg hdirect] at h
    simp only [Option.pure_def, Option.bind_eq_some_iff, Option.some.injEq] at h
    obtain ⟨divided, hdivided, scaled, hscaled, product, hproduct, hres⟩ := h
    subst hres
    obtain ⟨_, _, hv2, hrem2⟩ := mulAssign_unflagged hproduct hr
    obtain ⟨_, hv1, _, hrem1⟩ := divAssign_spec hscaled
    obtain ⟨_, hv0, _, hrem0⟩ := divAssign_spec hdivided
    show product.rem = true ∨ product.v.1 = _
    rw [hrem2, hrem1, hrem0, hv2, hv1, hv0, hden, hnum, Int.tdiv_one]
    by_cases hexact : a.rep.v.1.tmod o.rep.v.1 = 0
    · right
      exact tdiv_mul_of_tmod hne hexact ra2.den
    · left
      simp [hexact]

/-- The representation is its own conversion. -/
theorem eq_tdiv_iff (v : ℤ) (d1 d2 : ℕ) (h1 : 0 < d1) :
    v = (v * d2).tdiv d1 ↔ v = 0 ∨ (d1 ≤ d2 ∧ v.natAbs * (d2 - d1) < d1) := by
  have hnat : ∀ n : ℕ, n = n * d2 / d1 ↔ n = 0 ∨ (d1 ≤ d2 ∧ n * (d2 - d1) < d1) := by
    intro n
    rw [eq_comm, Nat.div_eq_iff h1]
    rcases Nat.eq_zero_or_pos n with rfl | hn
    · simp [h1]
    · by_cases hle : d1 ≤ d2
      · obtain ⟨k, rfl⟩ := Nat.exists_eq_add_of_le hle
        have hsplit : n * (d1 + k) = n * d1 + n * k := Nat.mul_add n d1 k
        rw [hsplit, Nat.add_sub_cancel_left]
        omega
      · have hlt : n * d2 < n * d1 := Nat.mul_lt_mul_of_pos_left (by omega) hn
        omega
  rcases Int.le_total 0 v with hpos | hneg
  · obtain ⟨n, rfl⟩ := Int.eq_ofNat_of_zero_le hpos
    have hdiv : ((n : ℤ) * d2).tdiv d1 = ((n * d2 / d1 : ℕ) : ℤ) := by
      rw [Int.tdiv_eq_ediv_of_nonneg (by positivity)]
      push_cast
      rfl
    rw [hdiv, Int.natAbs_natCast, Int.natCast_inj, hnat, Int.natCast_eq_zero]
  · obtain ⟨n, hn⟩ := Int.eq_ofNat_of_zero_le (Int.neg_nonneg_of_nonpos hneg)
    obtain rfl : v = -n := by omega
    have hdiv : (-(n : ℤ) * d2).tdiv d1 = -((n * d2 / d1 : ℕ) : ℤ) := by
      rw [neg_mul, Int.neg_tdiv, Int.tdiv_eq_ediv_of_nonneg (by positivity)]
      push_cast
      rfl
    rw [hdiv, Int.natAbs_neg, Int.natAbs_natCast, neg_inj, Int.natCast_inj, hnat, neg_eq_zero,
      Int.natCast_eq_zero]

/-- The copied representation is the truncated number. -/
theorem conversion_iff (a : Fixed d ratio) (ra2 : Ratio d) :
    (a.convert ra2).value = truncTo ra2.den a.value ↔
      a.rep.v.1 = (a.rep.v.1 * ra2.den).tdiv ratio.den := by
  have hden : (ratio.den : ℤ) ≠ 0 := by
    have := ratio.pos
    omega
  exact value_eq_truncTo hden (value_scaled a ra2)

end Operators

/-- The operators are faithful on all numbers, and the conversion to another ratio is on those
that are zero or so small that both ratios count the same multiples in them. -/
theorem operations_faithful_iff (a : Fixed d ratio) (p : Fixed d ra2) :
    Faithful a p ↔ a.rep.v.1 = 0 ∨
      (ratio.den ≤ ra2.den ∧ a.rep.v.1.natAbs * (ra2.den - ratio.den) < ratio.den) := by
  have hden2 : (ra2.den : ℤ) ≠ 0 := by
    have := ra2.pos
    omega
  rw [← eq_tdiv_iff _ _ _ ratio.pos, ← conversion_iff]
  constructor
  · intro h
    exact h.conversion
  · intro h
    refine ⟨fun r hr hflag => ?_, fun r hr hflag => ?_, h⟩
    · rw [value_eq_truncTo hden2 (product_scaled a p)]
      exact mulAssign_spec hr hflag
    · obtain ⟨hne, hspec⟩ := divAssign_fixed_spec hr hflag
      rw [value_eq_truncTo hne (quotient_scaled a p hne)]
      exact hspec

def percent : Ratio 63 := ⟨100, by decide, by decide⟩

def permille : Ratio 63 := ⟨1000, by decide, by decide⟩

/-- One percent, converted to thousandths, is one thousandth. -/
theorem percent_not_faithful :
    ¬ Faithful (⟨ofInt 63 1⟩ : Fixed 63 percent) (⟨ofInt 63 1⟩ : Fixed 63 permille) := by
  intro h
  exact absurd ((conversion_iff _ permille).mp h.conversion) (by decide)

end UmbrellaLtc.FixedPoint
