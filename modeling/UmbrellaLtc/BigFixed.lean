import UmbrellaLtc.FixedPoint

/-!
Big numbers times and by fixed point numbers, bignum.h. The multiplication truncates the fixed
point number to an integer first and then divides by the denominator once more; the division
comes back to the representation by two products that must not be flagged.
-/

namespace UmbrellaLtc.BigFixed

open MachineInt SafeInt FixedPoint

variable {d : ℕ} {ratio : Ratio d}

/-- The conversion of a tracked integer to its type, which throws after an overflow. -/
def toRep (s : Safe d) : Option ℤ := if s.noOvf then some s.v.1 else none

/-- CBigNum's `operator *=` of a fixed_t; none where it throws or is undefined. -/
def mulAssign (a : ℤ) (b : Fixed d ratio) : Option ℤ := do
  let factor ← toRep (← b.truncate)
  return (a * factor).tdiv ratio.den

/-- fixed_t::bit. -/
def bit : Fixed d ratio := ⟨ofInt d 1⟩

/-- CBigNum's `operator /=` by a fixed_t. -/
def divAssign (a : ℤ) (b : Fixed d ratio) : Option ℤ := do
  let divisor ← toRep (← (← b.divAssign (bit : Fixed d ratio)).truncate)
  if divisor = 0 then none else return (a * ratio.den).tdiv divisor

/-- What the comments of the two operators promise. -/
structure Scales (a : ℤ) (b : Fixed d ratio) : Prop where
  mul : mulAssign a b = some (trunc (a * b.value))
  div : b.rep.v.1 ≠ 0 → divAssign a b = some (trunc (a / b.value))

theorem bind_toRep {o : Option (Safe d)} {t : ℤ} : (o >>= toRep) = some t ↔ Clean o t := by
  cases o with
  | none => exact iff_of_false (by simp) (by rintro ⟨_, h, _⟩; exact absurd h (by simp))
  | some s =>
    show toRep s = some t ↔ _
    rw [clean_some, toRep, Option.ite_none_right_eq_some, Option.some.injEq]

theorem one_noOvf (ratio : Ratio d) : (ofInt d 1).noOvf = true := by
  rw [ofInt_inRange ratio.inRange_one]

theorem denominator_noOvf (ratio : Ratio d) : ratio.denominator.noOvf = true := by
  rw [Ratio.denominator, ofInt_inRange ratio.inRange]

theorem fits_one_iff (ratio : Ratio d) (v : ℤ) : Fits d v 1 ↔ v.natAbs < 2 ^ (d - 1) := by
  have hd : d ≠ 0 := by
    rintro rfl
    have := ratio.pos
    have := ratio.lt
    omega
  have hone : highestBit1 (1 : ℤ).natAbs = 1 := by decide
  rw [← highestBit1_le_iff, Fits, hone]
  omega

theorem quotient_of_pos (y : ℤ) {k : ℤ} (hk : 0 < k) : ¬ NoQuotient d y k := by
  rintro (h | ⟨_, h⟩)
  · omega
  · omega

/-- What is truncated and unflagged is the integer part, and only of small numbers. -/
theorem clean_truncate {o : Option (Fixed d ratio)} {t : ℤ} :
    Clean (o >>= Fixed.truncate) t ↔
      ∃ y, Clean (o.map Fixed.rep) y ∧ y.natAbs < 2 ^ (d - 1) ∧ t = y.tdiv ratio.den := by
  have hsteps : (o >>= Fixed.truncate) =
      (((o.map Fixed.rep) >>= fun c => SafeInt.mulAssign c (num d)) >>= fun c =>
        SafeInt.divAssign c ratio.denominator) := by
    cases o with
    | none => rfl
    | some b => rfl
  have hden : 0 < (ratio.den : ℤ) := by
    have := ratio.pos
    omega
  rw [hsteps, clean_bind_div]
  simp only [clean_bind_mul, num_v ratio, ratio.denominator_v, fits_one_iff ratio, mul_one]
  constructor
  · rintro ⟨_, ⟨y, hy, _, hsmall, rfl⟩, _, _, rfl⟩
    exact ⟨_, hy, hsmall, rfl⟩
  · rintro ⟨y, hy, hsmall, rfl⟩
    exact ⟨y, ⟨y, hy, one_noOvf ratio, hsmall, rfl⟩, denominator_noOvf ratio,
      quotient_of_pos y hden, rfl⟩

/-- The quotient by the smallest number is the representation times the denominator, in both
orders of the operations. -/
theorem clean_divAssign_bit {b : Fixed d ratio} {x : ℤ} :
    Clean ((b.divAssign (bit : Fixed d ratio)).map Fixed.rep) x ↔
      b.rep.noOvf = true ∧ Fits d b.rep.v.1 ratio.den ∧ x = b.rep.v.1 * ratio.den := by
  have hone : (ofInt d 1).v.1 = 1 := num_v ratio
  have hquot : ∀ y : ℤ, ¬ NoQuotient d y 1 := fun y => quotient_of_pos y one_pos
  let direct := ((some b.rep >>= fun c => SafeInt.mulAssign c ratio.denominator) >>= fun c =>
    SafeInt.divAssign c (num d)) >>= fun c => SafeInt.divAssign c (ofInt d 1)
  let again := ((some b.rep >>= fun c => SafeInt.divAssign c (ofInt d 1)) >>= fun c =>
    SafeInt.divAssign c (num d)) >>= fun c => SafeInt.mulAssign c ratio.denominator
  have hsteps : (b.divAssign (bit : Fixed d ratio)).map Fixed.rep =
      (direct >>= fun q => if q.noOvf then some q else again) := by
    simp only [Fixed.divAssign, direct, again, bit, Option.bind_eq_bind, Option.bind_some,
      Option.map_bind, Option.bind_assoc, Function.comp_def]
    congr 1
    funext c
    congr 1
    funext c
    congr 1
    funext q
    split_ifs with hflag
    · rfl
    · simp only [Option.pure_def, Option.map_bind, Function.comp_def, Option.map_some,
        Option.bind_fun_some]
  have hdirect : Clean direct x ↔
      b.rep.noOvf = true ∧ Fits d b.rep.v.1 ratio.den ∧ x = b.rep.v.1 * ratio.den := by
    simp only [direct, clean_bind_div, clean_bind_mul, clean_some, num_v ratio,
      ratio.denominator_v, hone, Int.tdiv_one]
    constructor
    · rintro ⟨_, ⟨_, ⟨_, ⟨hflag, rfl⟩, _, hfits, rfl⟩, _, _, rfl⟩, _, _, rfl⟩
      exact ⟨hflag, hfits, rfl⟩
    · rintro ⟨hflag, hfits, rfl⟩
      exact ⟨_, ⟨_, ⟨_, ⟨hflag, rfl⟩, denominator_noOvf ratio, hfits, rfl⟩, one_noOvf ratio,
        hquot _, rfl⟩, one_noOvf ratio, hquot _, rfl⟩
  have hagain : Clean again x →
      b.rep.noOvf = true ∧ Fits d b.rep.v.1 ratio.den ∧ x = b.rep.v.1 * ratio.den := by
    simp only [again, clean_bind_div, clean_bind_mul, clean_some, num_v ratio,
      ratio.denominator_v, hone, Int.tdiv_one]
    rintro ⟨_, ⟨_, ⟨_, ⟨hflag, rfl⟩, _, _, rfl⟩, _, _, rfl⟩, _, hfits, rfl⟩
    exact ⟨hflag, hfits, rfl⟩
  rw [hsteps, clean_retry, ← hdirect]
  exact ⟨fun h => h.elim id fun hretry => hdirect.mpr (hagain hretry.2), Or.inl⟩

theorem mulAssign_iff (a : ℤ) (b : Fixed d ratio) (r : ℤ) :
    mulAssign a b = some r ↔ b.rep.noOvf = true ∧ b.rep.v.1.natAbs < 2 ^ (d - 1) ∧
      r = (a * b.rep.v.1.tdiv ratio.den).tdiv ratio.den := by
  have hsteps : mulAssign a b =
      ((some b >>= Fixed.truncate) >>= toRep).map fun t => (a * t).tdiv ratio.den := by
    unfold mulAssign
    simp only [Option.bind_eq_bind, Option.bind_some]
    cases b.truncate with
    | none => rfl
    | some s =>
      simp only [Option.bind_some]
      cases toRep s with
      | none => rfl
      | some t => rfl
  rw [hsteps, Option.map_eq_some_iff]
  simp only [bind_toRep, clean_truncate, Option.map_some, clean_some]
  constructor
  · rintro ⟨_, ⟨_, ⟨hflag, rfl⟩, hsmall, rfl⟩, rfl⟩
    exact ⟨hflag, hsmall, rfl⟩
  · rintro ⟨hflag, hsmall, rfl⟩
    exact ⟨_, ⟨_, ⟨hflag, rfl⟩, hsmall, rfl⟩, rfl⟩

theorem divAssign_iff (a : ℤ) (b : Fixed d ratio) (r : ℤ) (hb : b.rep.v.1 ≠ 0) :
    divAssign a b = some r ↔ b.rep.noOvf = true ∧ Fits d b.rep.v.1 ratio.den ∧
      (b.rep.v.1 * ratio.den).natAbs < 2 ^ (d - 1) ∧ r = (a * ratio.den).tdiv b.rep.v.1 := by
  have hden : (ratio.den : ℤ) ≠ 0 := by
    have := ratio.pos
    omega
  have hsteps : divAssign a b =
      ((b.divAssign (bit : Fixed d ratio) >>= Fixed.truncate) >>= toRep) >>= fun t =>
        if t = 0 then none else some ((a * ratio.den).tdiv t) := by
    unfold divAssign
    cases b.divAssign (bit : Fixed d ratio) with
    | none => rfl
    | some q =>
      simp only [Option.bind_eq_bind, Option.bind_some]
      cases q.truncate with
      | none => rfl
      | some t => rfl
  rw [hsteps, Option.bind_eq_bind, Option.bind_eq_some_iff]
  simp only [bind_toRep, clean_truncate, clean_divAssign_bit]
  constructor
  · rintro ⟨_, ⟨_, ⟨hflag, hfits, rfl⟩, hsmall, rfl⟩, hres⟩
    rw [Int.mul_tdiv_cancel _ hden, if_neg hb, Option.some.injEq] at hres
    exact ⟨hflag, hfits, hsmall, hres.symm⟩
  · rintro ⟨hflag, hfits, hsmall, rfl⟩
    refine ⟨_, ⟨_, ⟨hflag, hfits, rfl⟩, hsmall, rfl⟩, ?_⟩
    rw [Int.mul_tdiv_cancel _ hden, if_neg hb]

/-- Truncating twice is truncating once for whole numbers of units and for results of zero. -/
theorem tdiv_tdiv_iff (a v : ℤ) (den : ℕ) (hden : 0 < den) :
    (a * v.tdiv den).tdiv den = (a * v).tdiv den ↔ den = 1 ∨ (a * v).natAbs < den := by
  have htwice : ((a * v.tdiv den).tdiv den).natAbs = a.natAbs * (v.natAbs / den) / den := by
    rw [Int.natAbs_tdiv, Int.natAbs_mul, Int.natAbs_tdiv, Int.natAbs_natCast]
    rfl
  have honce : ((a * v).tdiv den).natAbs = a.natAbs * v.natAbs / den := by
    rw [Int.natAbs_tdiv, Int.natAbs_mul, Int.natAbs_natCast]
    rfl
  have hle : a.natAbs * (v.natAbs / den) ≤ a.natAbs * v.natAbs / den :=
    Nat.mul_div_le_mul_div_assoc _ _ _
  rw [Int.natAbs_mul]
  constructor
  · intro heq
    by_contra hbad
    obtain ⟨hone, hlarge⟩ := not_or.mp hbad
    have hpos : 0 < a.natAbs * v.natAbs / den := Nat.div_pos (by omega) hden
    have hlt : a.natAbs * v.natAbs / den / den < a.natAbs * v.natAbs / den :=
      Nat.div_lt_self hpos (by omega)
    have hmono : a.natAbs * (v.natAbs / den) / den ≤ a.natAbs * v.natAbs / den / den :=
      Nat.div_le_div_right hle
    have habs := congrArg Int.natAbs heq
    omega
  · rintro (rfl | hsmall)
    · simp only [Nat.cast_one, Int.tdiv_one]
    · have hzero : a.natAbs * v.natAbs / den = 0 := Nat.div_eq_of_lt hsmall
      rw [hzero] at honce hle
      rw [Nat.le_zero.mp hle, Nat.zero_div] at htwice
      rw [Int.natAbs_eq_zero.mp htwice, Int.natAbs_eq_zero.mp honce]

theorem trunc_mul_value (a : ℤ) (b : Fixed d ratio) :
    trunc (a * b.value) = (a * b.rep.v.1).tdiv ratio.den := by
  have hden : (ratio.den : ℤ) ≠ 0 := by
    have := ratio.pos
    omega
  rw [← trunc_div _ _ hden, Fixed.value]
  congr 1
  push_cast
  ring

/-- The operators scale as their comments say when the representation is within half of its type,
its product with the denominator fits there too, and truncation takes nothing from the result. -/
theorem scales_iff (a : ℤ) (b : Fixed d ratio) (hflag : b.rep.noOvf = true) :
    Scales a b ↔ b.rep.v.1.natAbs < 2 ^ (d - 1) ∧
      (ratio.den = 1 ∨ (a * b.rep.v.1).natAbs < ratio.den) ∧
      (b.rep.v.1 ≠ 0 → Fits d b.rep.v.1 ratio.den ∧
        (b.rep.v.1 * ratio.den).natAbs < 2 ^ (d - 1)) := by
  have hmul := trunc_mul_value a b
  have hdiv : b.rep.v.1 ≠ 0 → trunc (a / b.value) = (a * ratio.den).tdiv b.rep.v.1 := by
    intro hb
    have hdenq := ratio.den_ne
    have hbq : (b.rep.v.1 : ℚ) ≠ 0 := by exact_mod_cast hb
    rw [← trunc_div _ _ hb, Fixed.value]
    congr 1
    push_cast
    field_simp
  rw [← tdiv_tdiv_iff a b.rep.v.1 ratio.den ratio.pos]
  constructor
  · intro h
    obtain ⟨_, hsmall, hscaled⟩ := (mulAssign_iff a b _).mp h.mul
    refine ⟨hsmall, hscaled.symm.trans hmul, fun hb => ?_⟩
    obtain ⟨_, hfits, hroom, _⟩ := (divAssign_iff a b _ hb).mp (h.div hb)
    exact ⟨hfits, hroom⟩
  · rintro ⟨hsmall, hscaled, hroom⟩
    refine ⟨(mulAssign_iff a b _).mpr ⟨hflag, hsmall, hmul.trans hscaled.symm⟩, fun hb => ?_⟩
    exact (divAssign_iff a b _ hb).mpr ⟨hflag, (hroom hb).1, (hroom hb).2, hdiv hb⟩

def seconds : Ratio 63 := ⟨1, by decide, by decide⟩

/-- Nine times, and by, four and a half minutes. -/
theorem scales_seconds : Scales 9 (⟨ofInt 63 270⟩ : Fixed 63 seconds) :=
  (scales_iff 9 _ (by decide)).mpr (by decide)

/-- A thousand times 110 percent is found to be ten. -/
theorem percent_not_scales : ¬ Scales 1000 (⟨ofInt 63 110⟩ : Fixed 63 percent) := by
  intro h
  have hmul := h.mul
  rw [mulAssign_iff, trunc_mul_value] at hmul
  exact absurd hmul.2.2 (by decide)

end UmbrellaLtc.BigFixed
