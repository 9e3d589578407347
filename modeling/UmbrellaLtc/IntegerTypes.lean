import UmbrellaLtc.MachineInt

/-!
Integer types and the conversions between them. The operands of a comparison are promoted and
brought to the type with more value bits, so that it compares the integers themselves when both
types are signed or neither operand is negative, and else the values modulo some power of two.
-/

namespace UmbrellaLtc.IntegerTypes

open MachineInt

/-- A type by its sign and the number of its value bits. -/
structure IntegerType where
  signed : Bool
  bits : ℕ
deriving DecidableEq

namespace IntegerType

def least (t : IntegerType) : ℤ := if t.signed then -2 ^ t.bits else 0

def greatest (t : IntegerType) : ℤ := 2 ^ t.bits - 1

def Holds (t : IntegerType) (x : ℤ) : Prop := t.least ≤ x ∧ x < 2 ^ t.bits

instance (t : IntegerType) (x : ℤ) : Decidable (t.Holds x) := inferInstanceAs (Decidable (_ ∧ _))

/-- A conversion takes the value modulo the size of the type. -/
def convert (t : IntegerType) (x : ℤ) : ℤ := if t.signed then (wrap t.bits x).1 else x % 2 ^ t.bits

def int : IntegerType := ⟨true, 31⟩

/-- A type whose values all fit int becomes int. -/
def promote (t : IntegerType) : IntegerType := if t.bits ≤ 31 then int else t

/-- The common type of two operands: the one with more value bits, which is the signed one
exactly when it can represent all values of the other. -/
def common (a b : IntegerType) : IntegerType :=
  if a.promote.bits < b.promote.bits ∨ (a.promote.bits = b.promote.bits ∧ b.promote.signed) then
    b.promote
  else a.promote

end IntegerType

open IntegerType

variable {t a b : IntegerType} {x y : ℤ}

theorem convert_of_holds (h : t.Holds x) : t.convert x = x := by
  obtain ⟨hlow, hhigh⟩ := h
  unfold convert
  unfold least at hlow
  by_cases hs : t.signed
  · rw [if_pos hs] at hlow ⊢
    exact wrap_of_inRange ⟨hlow, hhigh⟩
  · rw [if_neg hs] at hlow ⊢
    exact Int.emod_eq_of_lt hlow hhigh

theorem convert_holds (t : IntegerType) (x : ℤ) : t.Holds (t.convert x) := by
  have hpos : (0 : ℤ) < 2 ^ t.bits := by positivity
  unfold Holds convert least
  by_cases hs : t.signed
  · rw [if_pos hs, if_pos hs]
    exact (wrap t.bits x).2
  · rw [if_neg hs, if_neg hs]
    exact ⟨Int.emod_nonneg x hpos.ne', Int.emod_lt_of_pos x hpos⟩

theorem bits_le_promote (t : IntegerType) : t.bits ≤ t.promote.bits := by
  unfold promote
  split_ifs with h
  · exact h
  · exact Nat.le_refl _

theorem promote_signed (h : t.signed = true) : t.promote.signed = true := by
  unfold promote
  split_ifs
  · rfl
  · exact h

theorem bits_le_common (a b : IntegerType) :
    a.promote.bits ≤ (common a b).bits ∧ b.promote.bits ≤ (common a b).bits := by
  unfold common
  split_ifs <;> omega

theorem common_signed (ha : a.signed = true) (hb : b.signed = true) :
    (common a b).signed = true := by
  unfold common
  split_ifs
  · exact promote_signed hb
  · exact promote_signed ha

/-- A value stays in a type with more value bits, a negative one in a signed type. -/
theorem IntegerType.Holds.widen (h : a.Holds x) (hbits : a.bits ≤ t.bits)
    (hsign : 0 ≤ x ∨ t.signed = true) : t.Holds x := by
  obtain ⟨hlow, hhigh⟩ := h
  have hpow : (2 : ℤ) ^ a.bits ≤ 2 ^ t.bits := pow_le_pow_right₀ (by norm_num) hbits
  have hpos : (0 : ℤ) < 2 ^ a.bits := by positivity
  have hleast : -2 ^ a.bits ≤ a.least := by
    unfold least
    split_ifs <;> omega
  refine ⟨?_, by omega⟩
  unfold least
  rcases hsign with hx | hs
  · split_ifs <;> omega
  · rw [if_pos hs]
    omega

/-- `x == y`, of operands of the types `a` and `b`. -/
def equal (a : IntegerType) (x : ℤ) (b : IntegerType) (y : ℤ) : Bool :=
  (common a b).convert x = (common a b).convert y

/-- `x <= y`. -/
def atMost (a : IntegerType) (x : ℤ) (b : IntegerType) (y : ℤ) : Bool :=
  (common a b).convert x ≤ (common a b).convert y

/-- `x >= 0`. -/
def nonnegative (a : IntegerType) (x : ℤ) : Bool := atMost int 0 a x

/-- When a comparison converts both operands to themselves. -/
def Exact (a : IntegerType) (x : ℤ) (b : IntegerType) (y : ℤ) : Prop :=
  (a.signed = true ∧ b.signed = true) ∨ (0 ≤ x ∧ 0 ≤ y)

theorem convert_common (ha : a.Holds x) (hb : b.Holds y) (h : Exact a x b y) :
    (common a b).convert x = x ∧ (common a b).convert y = y := by
  obtain ⟨hleft, hright⟩ := bits_le_common a b
  have hx : 0 ≤ x ∨ (common a b).signed = true :=
    h.symm.imp And.left fun hs => common_signed hs.1 hs.2
  have hy : 0 ≤ y ∨ (common a b).signed = true :=
    h.symm.imp And.right fun hs => common_signed hs.1 hs.2
  exact ⟨convert_of_holds (ha.widen ((bits_le_promote a).trans hleft) hx),
    convert_of_holds (hb.widen ((bits_le_promote b).trans hright) hy)⟩

theorem equal_iff (ha : a.Holds x) (hb : b.Holds y) (h : Exact a x b y) :
    equal a x b y = true ↔ x = y := by
  obtain ⟨hx, hy⟩ := convert_common ha hb h
  unfold equal
  rw [hx, hy]
  exact decide_eq_true_iff

theorem atMost_iff (ha : a.Holds x) (hb : b.Holds y) (h : Exact a x b y) :
    atMost a x b y = true ↔ x ≤ y := by
  obtain ⟨hx, hy⟩ := convert_common ha hb h
  unfold atMost
  rw [hx, hy]
  exact decide_eq_true_iff

theorem nonnegative_iff (ha : a.Holds x) (hs : a.signed = true) :
    nonnegative a x = true ↔ 0 ≤ x :=
  atMost_iff (by decide) ha (Or.inl ⟨rfl, hs⟩)

/-- A negative operand is taken for a large one, when the type of the other operand has more
value bits. -/
theorem equal_unsigned (ha : a.Holds x) (hb : b.Holds y) (hsign : a.signed = false)
    (hsmall : 2 * x < 2 ^ a.bits) (hb' : b.signed = true) :
    equal a x b y = true ↔ x = y := by
  have hx : 0 ≤ x := by
    have hlow := ha.1
    unfold least at hlow
    rwa [hsign, if_neg Bool.false_ne_true] at hlow
  by_cases hc : (common a b).signed = true
  · obtain ⟨hleft, hright⟩ := bits_le_common a b
    have hcx := convert_of_holds (ha.widen ((bits_le_promote a).trans hleft) (Or.inl hx))
    have hcy := convert_of_holds (hb.widen ((bits_le_promote b).trans hright) (Or.inr hc))
    unfold equal
    rw [hcx, hcy]
    exact decide_eq_true_iff
  · by_cases hy : 0 ≤ y
    · exact equal_iff ha hb (Or.inr ⟨hx, hy⟩)
    · -- the common type is the unsigned one
      have hcommon : common a b = a ∧ b.bits < a.bits := by
        have hbp := promote_signed hb'
        have hbl := bits_le_promote b
        unfold common at hc ⊢
        split_ifs at hc ⊢ with htest
        · exact absurd hbp hc
        · unfold promote at hc htest ⊢
          by_cases hshort : a.bits ≤ 31
          · rw [if_pos hshort] at hc
            exact absurd rfl hc
          · rw [if_neg hshort] at htest ⊢
            refine ⟨rfl, ?_⟩
            have hle : ¬ (a.bits = b.promote.bits ∧ b.promote.signed = true) :=
              fun h => htest (Or.inr h)
            have hlt : ¬ a.bits < b.promote.bits := fun h => htest (Or.inl h)
            have hne : a.bits ≠ b.promote.bits := fun h => hle ⟨h, hbp⟩
            omega
      obtain ⟨hcommon, hbits⟩ := hcommon
      have hlow := hb.1
      unfold least at hlow
      rw [if_pos hb'] at hlow
      have hhalf : (2 : ℤ) * 2 ^ b.bits ≤ 2 ^ a.bits := by
        rw [← pow_succ']
        exact pow_le_pow_right₀ (by norm_num) hbits
      have hwrap : y % 2 ^ a.bits = y + 2 ^ a.bits := by
        rw [← Int.add_emod_right]
        exact Int.emod_eq_of_lt (by omega) (by omega)
      have hcx := convert_of_holds ha
      unfold equal
      rw [hcommon, hcx]
      unfold convert
      rw [hsign, if_neg Bool.false_ne_true, hwrap]
      refine iff_of_false ?_ (by omega)
      rw [decide_eq_true_iff]
      omega

end UmbrellaLtc.IntegerTypes
