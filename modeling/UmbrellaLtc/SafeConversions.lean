import UmbrellaLtc.IntegerTypes
import UmbrellaLtc.SafeInt

/-!
The conversions of types/safe.h from and to the integer types, with short, int and long of 16,
32 and 64 bits. A constructor from an unsigned type asks for the sign of its argument in the
signed type of the same width, and so takes the upper half of the argument's values for an
overflow also where they fit. A conversion to a signed type asks for the upper bound only.
-/

namespace UmbrellaLtc.SafeConversions

open MachineInt SafeInt IntegerTypes IntegerType

/-- The types that `safe<Int>` is defined for. -/
inductive SignedType where
  | signedChar
  | short
  | int
  | long
  | longLong
deriving DecidableEq

/-- The value bits of the type. -/
def SignedType.bits : SignedType → ℕ
  | signedChar => 7
  | short => 15
  | int => 31
  | long => 63
  | longLong => 63

def SignedType.type (I : SignedType) : IntegerType := ⟨true, I.bits⟩

/-- The types of the constructors and of the conversion operators. -/
inductive Argument where
  | short
  | unsignedShort
  | int
  | unsigned
  | long
  | unsignedLong
  | longLong
  | unsignedLongLong
deriving DecidableEq

def Argument.type : Argument → IntegerType
  | short => ⟨true, 15⟩
  | unsignedShort => ⟨false, 16⟩
  | int => ⟨true, 31⟩
  | unsigned => ⟨false, 32⟩
  | long => ⟨true, 63⟩
  | unsignedLong => ⟨false, 64⟩
  | longLong => ⟨true, 63⟩
  | unsignedLongLong => ⟨false, 64⟩

variable (I : SignedType)

/-- `safe((Int) av, av == (Int) av)`. -/
def ofSigned (A : IntegerType) (av : ℤ) : Safe I.bits :=
  ⟨wrap I.bits av, equal A av I.type (wrap I.bits av).1, false⟩

/-- `safe((Int) av, av == (Int) av && (S) av >= 0)`. -/
def ofUnsigned (A S : IntegerType) (av : ℤ) : Safe I.bits :=
  ⟨wrap I.bits av,
    equal A av I.type (wrap I.bits av).1 && nonnegative S (S.convert av), false⟩

def ofShort (av : ℤ) : Safe I.bits := ofSigned I Argument.short.type av

def ofUnsignedShort (av : ℤ) : Safe I.bits :=
  ofUnsigned I Argument.unsignedShort.type Argument.short.type av

def ofInt (av : ℤ) : Safe I.bits := ofSigned I Argument.int.type av

def ofUnsignedInt (av : ℤ) : Safe I.bits :=
  ofUnsigned I Argument.unsigned.type Argument.int.type av

def ofLong (av : ℤ) : Safe I.bits := ofSigned I Argument.long.type av

def ofUnsignedLong (av : ℤ) : Safe I.bits :=
  ofUnsigned I Argument.unsignedLong.type Argument.long.type av

def ofLongLong (av : ℤ) : Safe I.bits := ofSigned I Argument.longLong.type av

/-- `safe(av, (long long) av == (Int) av && (long long) av >= 0)`. -/
def ofUnsignedLongLong (av : ℤ) : Safe I.bits :=
  ⟨wrap I.bits av,
    equal Argument.longLong.type (Argument.longLong.type.convert av) I.type (wrap I.bits av).1 &&
      nonnegative Argument.longLong.type (Argument.longLong.type.convert av), false⟩

/-- The constructor from a type. -/
def construct : Argument → ℤ → Safe I.bits
  | .short => ofShort I
  | .unsignedShort => ofUnsignedShort I
  | .int => ofInt I
  | .unsigned => ofUnsignedInt I
  | .long => ofLong I
  | .unsignedLong => ofUnsignedLong I
  | .longLong => ofLongLong I
  | .unsignedLongLong => ofUnsignedLongLong I

/-- `v <= std::numeric_limits<T>::max()`, and the value as a `T`; `none` when throw_overflow
throws. -/
def toSigned (T : IntegerType) (s : Safe I.bits) : Option ℤ :=
  if s.noOvf && atMost I.type s.v.1 T T.greatest then some (T.convert s.v.1) else none

/-- `v >= 0 && v <= std::numeric_limits<T>::max()`, and the value as a `T`. -/
def toUnsigned (T : IntegerType) (s : Safe I.bits) : Option ℤ :=
  if s.noOvf && (nonnegative I.type s.v.1 && atMost I.type s.v.1 T T.greatest) then
    some (T.convert s.v.1)
  else none

/-- The conversion operator to a type. -/
def castTo : Argument → Safe I.bits → Option ℤ
  | .short => toSigned I Argument.short.type
  | .unsignedShort => toUnsigned I Argument.unsignedShort.type
  | .int => toSigned I Argument.int.type
  | .unsigned => toUnsigned I Argument.unsigned.type
  | .long => toSigned I Argument.long.type
  | .unsignedLong => toUnsigned I Argument.unsignedLong.type
  | .longLong => toSigned I Argument.longLong.type
  | .unsignedLongLong => toUnsigned I Argument.unsignedLongLong.type

variable {I}

theorem value_holds (v : Signed I.bits) : I.type.Holds v.1 := v.2

theorem greatest_holds (T : IntegerType) : T.Holds T.greatest := by
  have hpos : (0 : ℤ) < 2 ^ T.bits := by positivity
  unfold Holds least greatest
  split_ifs
  · omega
  · omega

/-- A value of the target type is returned as it is. -/
theorem some_convert_iff {T : IntegerType} {v : ℤ} :
    (∀ x, some (T.convert v) = some x → x = v) ↔ T.Holds v := by
  constructor
  · intro h
    have heq := h _ rfl
    exact heq ▸ convert_holds T v
  · intro h x hx
    rw [← Option.some.inj hx, convert_of_holds h]

/-- The cast to a signed type is right but for the values below the type, which it lets pass. -/
theorem toSigned_exact_iff {T : IntegerType} (hT : T.signed = true) (s : Safe I.bits) :
    (∀ x, toSigned I T s = some x → x = s.v.1) ↔ ¬ (s.noOvf = true ∧ s.v.1 < T.least) := by
  have hle := atMost_iff (value_holds s.v) (greatest_holds T) (Or.inl ⟨rfl, hT⟩)
  have hgreatest : s.v.1 ≤ T.greatest ↔ s.v.1 < 2 ^ T.bits := Int.le_sub_one_iff
  unfold toSigned
  by_cases hpass : s.noOvf = true ∧ s.v.1 < 2 ^ T.bits
  · have htest : (s.noOvf && atMost I.type s.v.1 T T.greatest) = true := by
      rw [Bool.and_eq_true, hle, hgreatest]
      exact hpass
    rw [if_pos htest, some_convert_iff]
    constructor
    · intro hholds ⟨_, hlow⟩
      exact absurd hholds.1 (not_le.mpr hlow)
    · intro hlow
      exact ⟨not_lt.mp fun hlt => hlow ⟨hpass.1, hlt⟩, hpass.2⟩
  · have htest : ¬ (s.noOvf && atMost I.type s.v.1 T T.greatest) = true := by
      rw [Bool.and_eq_true, hle, hgreatest]
      exact hpass
    rw [if_neg htest]
    refine iff_of_true (fun x hx => by cases hx) ?_
    intro ⟨hok, hlow⟩
    have hleast : T.least < 2 ^ T.bits := by
      have hpos : (0 : ℤ) < 2 ^ T.bits := by positivity
      unfold least
      split_ifs
      omega
    exact hpass ⟨hok, hlow.trans hleast⟩

theorem toUnsigned_exact {T : IntegerType} (hT : T.signed = false) (s : Safe I.bits) (x : ℤ)
    (hx : toUnsigned I T s = some x) : x = s.v.1 := by
  have hsign := nonnegative_iff (value_holds s.v) rfl
  unfold toUnsigned at hx
  split_ifs at hx with htest
  rw [Bool.and_eq_true, Bool.and_eq_true, hsign] at htest
  obtain ⟨-, hpos, hle⟩ := htest
  have hgreatest : 0 ≤ T.greatest := by
    have hone : (0 : ℤ) < 2 ^ T.bits := by positivity
    unfold greatest
    omega
  have hhigh := (atMost_iff (value_holds s.v) (greatest_holds T) (Or.inr ⟨hpos, hgreatest⟩)).mp hle
  refine some_convert_iff.mpr ⟨?_, Int.le_sub_one_iff.mp hhigh⟩ x hx
  unfold least
  rw [hT, if_neg Bool.false_ne_true]
  exact hpos

/-- The value is below the signed type that it is converted to. -/
def FallsBelow (T : Argument) (s : Safe I.bits) : Prop :=
  s.noOvf = true ∧ T.type.signed = true ∧ s.v.1 < T.type.least

/-- The conversion throws, or it returns the value. -/
def CastsExactly (T : Argument) (s : Safe I.bits) : Prop := ∀ x, castTo I T s = some x → x = s.v.1

theorem castsExactly_iff (T : Argument) (s : Safe I.bits) :
    CastsExactly T s ↔ ¬ FallsBelow T s := by
  have hsigned : ∀ {T : IntegerType}, T.signed = true →
      ((∀ x, toSigned I T s = some x → x = s.v.1) ↔
        ¬ (s.noOvf = true ∧ T.signed = true ∧ s.v.1 < T.least)) := by
    intro T hT
    rw [toSigned_exact_iff hT s]
    simp [hT]
  have hunsigned : ∀ {T : IntegerType}, T.signed = false →
      ((∀ x, toUnsigned I T s = some x → x = s.v.1) ↔
        ¬ (s.noOvf = true ∧ T.signed = true ∧ s.v.1 < T.least)) := by
    intro T hT
    refine iff_of_true (toUnsigned_exact hT s) ?_
    rw [hT]
    exact fun h => Bool.false_ne_true h.2.1
  cases T with
  | short => exact hsigned rfl
  | unsignedShort => exact hunsigned rfl
  | int => exact hsigned rfl
  | unsigned => exact hunsigned rfl
  | long => exact hsigned rfl
  | unsignedLong => exact hunsigned rfl
  | longLong => exact hsigned rfl
  | unsignedLongLong => exact hunsigned rfl

theorem wrap_eq_iff {d : ℕ} {x : ℤ} : x = (wrap d x).1 ↔ InRange d x := by
  constructor
  · intro h
    rw [h]
    exact (wrap d x).2
  · exact fun h => (wrap_of_inRange h).symm

/-- A value of the unsigned type is negative in the signed type of its width from half of
the values on. -/
theorem wrap_nonneg_iff {d : ℕ} {x : ℤ} (hlow : 0 ≤ x) (hhigh : x < 2 ^ (d + 1)) :
    0 ≤ (wrap d x).1 ↔ x < 2 ^ d := by
  have hdouble : (2 : ℤ) ^ (d + 1) = 2 * 2 ^ d := by ring
  constructor
  · intro hpos
    by_contra hlarge
    have hcast : ((2 ^ (d + 1) : ℕ) : ℤ) = 2 ^ (d + 1) := by norm_num
    have hsub : (wrap d x).1 = x - 2 ^ (d + 1) := by
      have hshift : wrap d x = wrap d (x - 2 ^ (d + 1)) := by
        apply Subtype.ext
        show x.bmod (2 ^ (d + 1)) = (x - 2 ^ (d + 1)).bmod (2 ^ (d + 1))
        rw [← hcast, Int.sub_bmod_right]
      rw [hshift]
      exact wrap_of_inRange ⟨by omega, by omega⟩
    omega
  · intro hsmall
    rw [wrap_of_inRange ⟨by omega, hsmall⟩]
    exact hlow

theorem ofSigned_noOvf_iff {A : IntegerType} (hA : A.signed = true) {av : ℤ} (hav : A.Holds av) :
    (ofSigned I A av).noOvf = true ↔ InRange I.bits av :=
  (equal_iff hav (value_holds (wrap I.bits av)) (Or.inl ⟨hA, rfl⟩)).trans wrap_eq_iff

theorem ofUnsigned_noOvf_iff {b : ℕ} {av : ℤ} (hav : (⟨false, b + 1⟩ : IntegerType).Holds av) :
    (ofUnsigned I ⟨false, b + 1⟩ ⟨true, b⟩ av).noOvf = true ↔ InRange I.bits av ∧ av < 2 ^ b := by
  have hsign := nonnegative_iff (convert_holds (⟨true, b⟩ : IntegerType) av) rfl
  have hhalf : 0 ≤ (⟨true, b⟩ : IntegerType).convert av ↔ av < 2 ^ b := wrap_nonneg_iff hav.1 hav.2
  show (_ && _) = true ↔ _
  rw [Bool.and_eq_true, hsign, hhalf]
  refine and_congr_left fun hsmall => ?_
  have hdouble : 2 * av < 2 ^ (b + 1) := by
    rw [pow_succ']
    omega
  exact (equal_unsigned hav (value_holds (wrap I.bits av)) rfl hdouble rfl).trans wrap_eq_iff

theorem ofUnsignedLongLong_noOvf_iff {av : ℤ} (hav : Argument.unsignedLongLong.type.Holds av) :
    (ofUnsignedLongLong I av).noOvf = true ↔ InRange I.bits av ∧ av < 2 ^ 63 := by
  have hsign := nonnegative_iff (convert_holds Argument.longLong.type av) rfl
  have hhalf : 0 ≤ Argument.longLong.type.convert av ↔ av < 2 ^ 63 := wrap_nonneg_iff hav.1 hav.2
  show (_ && _) = true ↔ _
  rw [Bool.and_eq_true, hsign, hhalf]
  refine and_congr_left fun hsmall => ?_
  have hlow : 0 ≤ av := hav.1
  have hin : Argument.longLong.type.Holds av := ⟨le_trans (by decide) hlow, hsmall⟩
  rw [convert_of_holds hin]
  exact (equal_iff hin (value_holds (wrap I.bits av)) (Or.inl ⟨rfl, rfl⟩)).trans wrap_eq_iff

/-- The argument is in the upper half of an unsigned type whose values all fit. -/
def UpperHalf (I : SignedType) (A : Argument) (av : ℤ) : Prop :=
  A.type.signed = false ∧ A.type.bits ≤ I.bits ∧ 2 ^ (A.type.bits - 1) ≤ av

/-- The constructor flags an overflow exactly when the argument does not fit. -/
def FlagsExactly (I : SignedType) (A : Argument) (av : ℤ) : Prop :=
  (construct I A av).noOvf = false ↔ ¬ InRange I.bits av

theorem flagsExactly_iff (A : Argument) {av : ℤ} (hav : A.type.Holds av) :
    FlagsExactly I A av ↔ ¬ UpperHalf I A av := by
  have hsigned : ∀ {s : Safe I.bits}, A.type.signed = true → (s.noOvf = true ↔ InRange I.bits av) →
      ((s.noOvf = false ↔ ¬ InRange I.bits av) ↔ ¬ UpperHalf I A av) := by
    intro s hA hs
    refine iff_of_true ?_ ?_
    · rw [← hs, Bool.not_eq_true]
    · intro hupper
      rw [hupper.1] at hA
      cases hA
  have hunsigned : ∀ {s : Safe I.bits} {b : ℕ}, A.type = ⟨false, b + 1⟩ →
      (s.noOvf = true ↔ InRange I.bits av ∧ av < 2 ^ b) →
      ((s.noOvf = false ↔ ¬ InRange I.bits av) ↔ ¬ UpperHalf I A av) := by
    intro s b hA hs
    rw [hA] at hav
    obtain ⟨hlow, hhigh⟩ := hav
    have hlow' : 0 ≤ av := hlow
    have hhigh' : av < 2 ^ (b + 1) := hhigh
    have hupper : UpperHalf I A av ↔ b + 1 ≤ I.bits ∧ 2 ^ b ≤ av := by
      unfold UpperHalf
      rw [hA]
      simp
    rw [hupper, ← Bool.not_eq_true, hs]
    have hrange : InRange I.bits av ↔ av < 2 ^ I.bits := by
      have hpos : (0 : ℤ) < 2 ^ I.bits := by positivity
      unfold InRange
      constructor
      · exact And.right
      · exact fun h => ⟨by omega, h⟩
    rw [hrange]
    by_cases hwide : b + 1 ≤ I.bits
    · have hfits : av < 2 ^ I.bits :=
        lt_of_lt_of_le hhigh' (pow_le_pow_right₀ (by norm_num) hwide)
      simp [hfits, hwide]
    · have hpow : (2 : ℤ) ^ I.bits ≤ 2 ^ b := pow_le_pow_right₀ (by norm_num) (by omega)
      refine iff_of_true ?_ fun h => hwide h.1
      refine not_congr ⟨And.left, fun h => ⟨h, lt_of_lt_of_le h hpow⟩⟩
  cases A with
  | short => exact hsigned rfl (ofSigned_noOvf_iff rfl hav)
  | unsignedShort => exact hunsigned rfl (ofUnsigned_noOvf_iff hav)
  | int => exact hsigned rfl (ofSigned_noOvf_iff rfl hav)
  | unsigned => exact hunsigned rfl (ofUnsigned_noOvf_iff hav)
  | long => exact hsigned rfl (ofSigned_noOvf_iff rfl hav)
  | unsignedLong => exact hunsigned rfl (ofUnsigned_noOvf_iff hav)
  | longLong => exact hsigned rfl (ofSigned_noOvf_iff rfl hav)
  | unsignedLongLong => exact hunsigned rfl (ofUnsignedLongLong_noOvf_iff hav)

/-- The conversions are right but for values below a signed type, and the constructors but for
the upper half of the unsigned types that are narrower than the type. -/
theorem conversions_exact_iff (I : SignedType) :
    (∀ (T : Argument) (s : Safe I.bits), CastsExactly T s ↔ ¬ FallsBelow T s) ∧
      ∀ (A : Argument) (av : { x : ℤ // A.type.Holds x }),
        FlagsExactly I A av.1 ↔ ¬ UpperHalf I A av.1 :=
  ⟨castsExactly_iff, fun A av => flagsExactly_iff A av.2⟩

/-- -70000 becomes a short, and 3000000000 is too large for a long. -/
theorem conversions_inexact :
    (¬ ∀ (I : SignedType) (T : Argument) (s : Safe I.bits), CastsExactly T s) ∧
      ¬ ∀ (I : SignedType) (A : Argument) (av : { x : ℤ // A.type.Holds x }),
        FlagsExactly I A av.1 := by
  constructor
  · intro h
    have hcast := h .int .short ⟨⟨-70000, by decide⟩, true, false⟩ (-4464) (by decide)
    exact absurd hcast (by decide)
  · intro h
    have hflag := (h .long .unsigned ⟨3000000000, by decide⟩).mp (by decide)
    exact hflag (by decide)

end UmbrellaLtc.SafeConversions
