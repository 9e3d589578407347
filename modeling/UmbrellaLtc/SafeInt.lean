import UmbrellaLtc.MachineInt

/-!
The overflow-tracking integers of types/safe.h over a signed type with `d` value bits that the
operators do not promote: int, long or long long, and not short or signed char. Each operator is
the code's own sequence of machine operations, none where one of them is undefined. Where no
overflow is flagged the value is exact, for every operator but the negation: that asks for the
absolute value of the least integer, which no signed type has.
-/

namespace UmbrellaLtc.SafeInt

open MachineInt

/-- types::safe. The sources' `no_ovf` is false after an overflow, `rem` is set once a division
was inexact. -/
structure Safe (d : ℕ) where
  v : Signed d
  noOvf : Bool
  rem : Bool
deriving DecidableEq

variable {d : ℕ}

/-- The constructors, which convert and compare. -/
def ofInt (d : ℕ) (av : ℤ) : Safe d := ⟨wrap d av, decide ((wrap d av).1 = av), false⟩

/-- `no_ovf = false; return *this`. -/
def Safe.flag (a : Safe d) : Safe d := { a with noOvf := false }

def inheritStatus (a other : Safe d) : Safe d :=
  { a with noOvf := a.noOvf && other.noOvf, rem := a.rem || other.rem }

/-- std::abs on the type. -/
def stdAbs (x : Signed d) : Option (Signed d) := machine d |x.1|

/-- The machine's `/`. -/
def machineDiv (a b : Signed d) : Option (Signed d) :=
  if b.1 = 0 then none else machine d (a.1.tdiv b.1)

/-- The machine's `%`, undefined where `/` is. -/
def machineMod (a b : Signed d) : Option (Signed d) :=
  if b.1 = 0 ∨ ¬ InRange d (a.1.tdiv b.1) then none else machine d (a.1.tmod b.1)

def Safe.abs (a : Safe d) : Option (Safe d) :=
  if a.v.1 < 0 then do
    let v ← machine d (-a.v.1)
    return { a with v }
  else some a

/-- `operator +=`. Both operands of the bitwise `&` are evaluated. -/
def addAssign (a sb : Safe d) : Option (Safe d) := do
  let room ← machine d ((2 ^ d - 1) - sb.v.1)
  if 0 < sb.v.1 ∧ room.1 < a.v.1 then return a.flag
  let room ← machine d (-2 ^ d - sb.v.1)
  if sb.v.1 < 0 ∧ a.v.1 < room.1 then return a.flag
  let v ← machine d (a.v.1 + sb.v.1)
  return inheritStatus { a with v } sb

/-- `operator *=`. -/
def mulAssign (a b : Safe d) : Option (Safe d) := do
  let ua ← stdAbs a.v
  let ub ← stdAbs b.v
  if highestBit1 ua.1.natAbs + highestBit1 ub.1.natAbs > d then return a.flag
  let v ← machine d (a.v.1 * b.v.1)
  return inheritStatus { a with v } b

/-- `operator %=`. -/
def modAssign (a b : Safe d) : Option (Safe d) := do
  if b.v.1 = 0 then return a.flag
  if a.v.1 = -2 ^ d ∧ b.v.1 = -1 then return a.flag
  let v ← machineMod a.v b.v
  return inheritStatus { a with v } b

/-- `operator /=`. The division is made whatever `%=` has found. -/
def divAssign (a b : Safe d) : Option (Safe d) := do
  let copy := a.v
  let a ← modAssign a b
  let rem := a.rem || decide (a.v.1 ≠ 0)
  let v ← machineDiv copy b.v
  return { a with v, rem }

/-- The unary `operator -`. -/
def Safe.neg (a : Safe d) : Option (Safe d) := do
  let v ← machine d (-a.v.1)
  let absMin ← machine d |-2 ^ d|
  let absMax ← machine d |2 ^ d - 1|
  let noOvf := (absMin.1 ≤ absMax.1 ∨ a.v.1 ≠ -2 ^ d) ∧ (absMax.1 ≤ absMin.1 ∨ a.v.1 ≠ 2 ^ d - 1)
  return ⟨v, noOvf, false⟩

def Safe.add (a b : Safe d) : Option (Safe d) := addAssign b a

def Safe.sub (a b : Safe d) : Option (Safe d) := do
  let nb ← b.neg
  addAssign nb a

def Safe.mul (a b : Safe d) : Option (Safe d) := mulAssign b a

def Safe.div (a b : Safe d) : Option (Safe d) := divAssign a b

def Safe.mod (a b : Safe d) : Option (Safe d) := modAssign a b

/-! What the operators do. -/

theorem ofInt_inRange {c : ℤ} (h : InRange d c) : ofInt d c = ⟨⟨c, h⟩, true, false⟩ := by
  have hwrap := wrap_of_inRange h
  have hval : wrap d c = ⟨c, h⟩ := Subtype.ext hwrap
  rw [ofInt, hval]
  simp

theorem neg_none (a : Safe d) : a.neg = none := by
  have habs : machine d |-2 ^ d| = none := by
    refine machine_none fun h => ?_
    have hpos : (0 : ℤ) < 2 ^ d := by positivity
    rw [abs_neg, abs_of_pos hpos] at h
    exact lt_irrefl _ h.2
  unfold Safe.neg
  cases machine d (-a.v.1) with
  | none => rfl
  | some v =>
    rw [habs]
    rfl

theorem abs_eq {a : Safe d} (h : a.v.1 ≠ -2 ^ d) :
    ∃ r, a.abs = some r ∧ r.v.1 = |a.v.1| ∧ r.noOvf = a.noOvf ∧ r.rem = a.rem := by
  obtain ⟨hlow, hhigh⟩ := a.v.2
  unfold Safe.abs
  by_cases hneg : a.v.1 < 0
  · have hrange : InRange d (-a.v.1) := ⟨by omega, by omega⟩
    rw [if_pos hneg, machine_eq hrange]
    exact ⟨_, rfl, (abs_of_neg hneg).symm, rfl, rfl⟩
  · rw [if_neg hneg]
    exact ⟨a, rfl, (abs_of_nonneg (by omega)).symm, rfl, rfl⟩

theorem abs_none {a : Safe d} (h : a.v.1 = -2 ^ d) : a.abs = none := by
  have hpos : (0 : ℤ) < 2 ^ d := by positivity
  have hrange : ¬ InRange d (-a.v.1) := fun hr => by
    have := hr.2
    omega
  rw [Safe.abs, if_pos (by omega), machine_none hrange]
  rfl

/-- Zero is added silently. -/
theorem addAssign_zero {a b : Safe d} (h : b.v.1 = 0) : addAssign a b = some (inheritStatus a b) := by
  have hpos : (0 : ℤ) < 2 ^ d := by positivity
  have hmax : InRange d (2 ^ d - 1 - 0) := ⟨by omega, by omega⟩
  have hmin : InRange d (-2 ^ d - 0) := ⟨by omega, by omega⟩
  have hsum : InRange d (a.v.1 + 0) := by
    rw [add_zero]
    exact a.v.2
  unfold addAssign
  rw [h, machine_eq hmax, machine_eq hmin, machine_eq hsum]
  simp [inheritStatus]

/-- An overflow upwards is noticed before the other bound is computed. -/
theorem addAssign_over {a b : Safe d} (hpos : 0 < b.v.1) (hsum : 2 ^ d ≤ a.v.1 + b.v.1) :
    addAssign a b = some a.flag := by
  obtain ⟨_, hhigh⟩ := b.v.2
  have hmax : InRange d (2 ^ d - 1 - b.v.1) := ⟨by omega, by omega⟩
  have hover : 0 < b.v.1 ∧ 2 ^ d - 1 - b.v.1 < a.v.1 := ⟨hpos, by omega⟩
  unfold addAssign
  rw [machine_eq hmax]
  simp only [Option.bind_eq_bind, Option.bind_some, if_pos hover, Option.pure_def]

/-- Every other sum asks for a bound that is no value of the type. -/
theorem addAssign_none {a b : Safe d} (hzero : b.v.1 ≠ 0)
    (hover : ¬ (0 < b.v.1 ∧ 2 ^ d ≤ a.v.1 + b.v.1)) : addAssign a b = none := by
  have hpow : (0 : ℤ) < 2 ^ d := by positivity
  unfold addAssign
  by_cases hpos : 0 < b.v.1
  · obtain ⟨_, hhigh⟩ := b.v.2
    have hmax : InRange d (2 ^ d - 1 - b.v.1) := ⟨by omega, by omega⟩
    have hmin : ¬ InRange d (-2 ^ d - b.v.1) := fun h => by
      have := h.1
      omega
    have hquiet : ¬ (0 < b.v.1 ∧ 2 ^ d - 1 - b.v.1 < a.v.1) := fun h => hover ⟨h.1, by omega⟩
    rw [machine_eq hmax, machine_none hmin]
    simp only [Option.bind_eq_bind, Option.bind_some, if_neg hquiet]
    rfl
  · have hmax : ¬ InRange d (2 ^ d - 1 - b.v.1) := fun h => by
      have := h.2
      omega
    rw [machine_none hmax]
    rfl

/-- The test that `operator *=` makes. -/
def Fits (d : ℕ) (a b : ℤ) : Prop := highestBit1 a.natAbs + highestBit1 b.natAbs ≤ d

instance (d : ℕ) (a b : ℤ) : Decidable (Fits d a b) := inferInstanceAs (Decidable (_ ≤ _))

theorem Fits.inRange {a b : ℤ} (h : Fits d a b) : InRange d (a * b) :=
  inRange_mul (lt_two_pow_highestBit1 _) (lt_two_pow_highestBit1 _) h

theorem stdAbs_eq {x : Signed d} (h : x.1 ≠ -2 ^ d) :
    ∃ u, stdAbs x = some u ∧ u.1.natAbs = x.1.natAbs := by
  obtain ⟨hlow, hhigh⟩ := x.2
  have hrange : InRange d |x.1| := ⟨by have := abs_nonneg x.1; omega, abs_lt.mpr ⟨by omega, hhigh⟩⟩
  exact ⟨⟨|x.1|, hrange⟩, machine_eq hrange, Int.natAbs_abs x.1⟩

theorem stdAbs_none {x : Signed d} (h : x.1 = -2 ^ d) : stdAbs x = none := by
  have hpos : (0 : ℤ) < 2 ^ d := by positivity
  refine machine_none fun hr => ?_
  rw [h, abs_neg, abs_of_pos hpos] at hr
  exact lt_irrefl _ hr.2

theorem mulAssign_none {a b : Safe d} (h : a.v.1 = -2 ^ d ∨ b.v.1 = -2 ^ d) :
    mulAssign a b = none := by
  unfold mulAssign
  by_cases ha : a.v.1 = -2 ^ d
  · rw [stdAbs_none ha]
    rfl
  · obtain ⟨ua, hua, -⟩ := stdAbs_eq ha
    rw [hua, stdAbs_none (h.resolve_left ha)]
    rfl

theorem mulAssign_fits {a b : Safe d} (ha : a.v.1 ≠ -2 ^ d) (hb : b.v.1 ≠ -2 ^ d)
    (h : Fits d a.v.1 b.v.1) :
    mulAssign a b = some (inheritStatus { a with v := ⟨_, h.inRange⟩ } b) := by
  obtain ⟨ua, hua, hna⟩ := stdAbs_eq ha
  obtain ⟨ub, hub, hnb⟩ := stdAbs_eq hb
  have htest : ¬ highestBit1 ua.1.natAbs + highestBit1 ub.1.natAbs > d := by
    rw [hna, hnb]
    exact Nat.not_lt.mpr h
  unfold mulAssign
  rw [hua, hub, machine_eq h.inRange]
  simp only [Option.bind_eq_bind, Option.bind_some, if_neg htest, Option.pure_def]

theorem mulAssign_over {a b : Safe d} (ha : a.v.1 ≠ -2 ^ d) (hb : b.v.1 ≠ -2 ^ d)
    (h : ¬ Fits d a.v.1 b.v.1) : mulAssign a b = some a.flag := by
  obtain ⟨ua, hua, hna⟩ := stdAbs_eq ha
  obtain ⟨ub, hub, hnb⟩ := stdAbs_eq hb
  have htest : highestBit1 ua.1.natAbs + highestBit1 ub.1.natAbs > d := by
    rw [hna, hnb]
    exact Nat.lt_of_not_le h
  unfold mulAssign
  rw [hua, hub]
  simp only [Option.bind_eq_bind, Option.bind_some, if_pos htest, Option.pure_def]

/-- The divisions that the machine cannot make. -/
def NoQuotient (d : ℕ) (a b : ℤ) : Prop := b = 0 ∨ (a = -2 ^ d ∧ b = -1)

instance (d : ℕ) (a b : ℤ) : Decidable (NoQuotient d a b) := inferInstanceAs (Decidable (_ ∨ _))

theorem inRange_quotient {a b : Signed d} (h : ¬ NoQuotient d a.1 b.1) :
    InRange d (a.1.tdiv b.1) :=
  inRange_tdiv a.2 (fun hb => h (Or.inl hb)) fun hmin => h (Or.inr hmin)

theorem modAssign_flag {a b : Safe d} (h : NoQuotient d a.v.1 b.v.1) :
    modAssign a b = some a.flag := by
  unfold modAssign
  by_cases hzero : b.v.1 = 0
  · rw [if_pos hzero]
    rfl
  · rw [if_neg hzero, if_pos (h.resolve_left hzero)]
    rfl

theorem modAssign_eq {a b : Safe d} (h : ¬ NoQuotient d a.v.1 b.v.1) :
    modAssign a b =
      some (inheritStatus { a with v := ⟨_, inRange_tmod b.v.1 a.v.2⟩ } b) := by
  have hzero : b.v.1 ≠ 0 := fun hb => h (Or.inl hb)
  have hdefined : ¬ (b.v.1 = 0 ∨ ¬ InRange d (a.v.1.tdiv b.v.1)) := fun hbad =>
    hbad.elim hzero fun hr => hr (inRange_quotient h)
  unfold modAssign machineMod
  rw [if_neg hzero, if_neg fun hmin => h (Or.inr hmin), if_neg hdefined,
    machine_eq (inRange_tmod b.v.1 a.v.2)]
  rfl

theorem divAssign_none {a b : Safe d} (h : NoQuotient d a.v.1 b.v.1) : divAssign a b = none := by
  have hdiv : machineDiv a.v b.v = none := by
    unfold machineDiv
    by_cases hzero : b.v.1 = 0
    · rw [if_pos hzero]
    · obtain ⟨hmin, hone⟩ := h.resolve_left hzero
      rw [if_neg hzero]
      refine machine_none fun hr => ?_
      rw [hmin, hone, Int.tdiv_neg, Int.tdiv_one, neg_neg] at hr
      exact lt_irrefl _ hr.2
  unfold divAssign
  rw [modAssign_flag h]
  simp only [Option.bind_eq_bind, Option.bind_some, hdiv, Option.bind_none]

theorem divAssign_eq {a b : Safe d} (h : ¬ NoQuotient d a.v.1 b.v.1) :
    divAssign a b = some ⟨⟨_, inRange_quotient h⟩, a.noOvf && b.noOvf,
      a.rem || b.rem || decide (a.v.1.tmod b.v.1 ≠ 0)⟩ := by
  have hdiv : machineDiv a.v b.v = some ⟨_, inRange_quotient h⟩ := by
    rw [machineDiv, if_neg fun hb => h (Or.inl hb), machine_eq (inRange_quotient h)]
  unfold divAssign
  rw [modAssign_eq h]
  simp only [Option.bind_eq_bind, Option.bind_some, hdiv, Option.pure_def, inheritStatus]

/-! A result that is not flagged is exact, and so are its operands. -/

theorem addAssign_unflagged {a b r : Safe d} (h : addAssign a b = some r) (hr : r.noOvf = true) :
    a.noOvf = true ∧ b.noOvf = true ∧ r.v.1 = a.v.1 + b.v.1 := by
  by_cases hzero : b.v.1 = 0
  · rw [addAssign_zero hzero, Option.some.injEq] at h
    subst h
    have hboth := (Bool.and_eq_true _ _).mp hr
    exact ⟨hboth.1, hboth.2, by rw [hzero, add_zero]; rfl⟩
  · by_cases hover : 0 < b.v.1 ∧ 2 ^ d ≤ a.v.1 + b.v.1
    · rw [addAssign_over hover.1 hover.2, Option.some.injEq] at h
      subst h
      exact absurd hr (by simp [Safe.flag])
    · rw [addAssign_none hzero hover] at h
      exact absurd h (by simp)

theorem mulAssign_unflagged {a b r : Safe d} (h : mulAssign a b = some r) (hr : r.noOvf = true) :
    a.noOvf = true ∧ b.noOvf = true ∧ r.v.1 = a.v.1 * b.v.1 ∧ r.rem = (a.rem || b.rem) := by
  by_cases hmin : a.v.1 = -2 ^ d ∨ b.v.1 = -2 ^ d
  · rw [mulAssign_none hmin] at h
    exact absurd h (by simp)
  · obtain ⟨ha, hb⟩ := not_or.mp hmin
    by_cases hfits : Fits d a.v.1 b.v.1
    · rw [mulAssign_fits ha hb hfits, Option.some.injEq] at h
      subst h
      have hboth := (Bool.and_eq_true _ _).mp hr
      exact ⟨hboth.1, hboth.2, rfl, rfl⟩
    · rw [mulAssign_over ha hb hfits, Option.some.injEq] at h
      subst h
      exact absurd hr (by simp [Safe.flag])

theorem modAssign_unflagged {a b r : Safe d} (h : modAssign a b = some r) (hr : r.noOvf = true) :
    a.noOvf = true ∧ b.noOvf = true ∧ b.v.1 ≠ 0 ∧ r.v.1 = a.v.1.tmod b.v.1 := by
  by_cases hno : NoQuotient d a.v.1 b.v.1
  · rw [modAssign_flag hno, Option.some.injEq] at h
    subst h
    exact absurd hr (by simp [Safe.flag])
  · rw [modAssign_eq hno, Option.some.injEq] at h
    subst h
    have hboth := (Bool.and_eq_true _ _).mp hr
    exact ⟨hboth.1, hboth.2, fun hb => hno (Or.inl hb), rfl⟩

/-- A quotient is there only when the machine has it. -/
theorem divAssign_spec {a b r : Safe d} (h : divAssign a b = some r) :
    b.v.1 ≠ 0 ∧ r.v.1 = a.v.1.tdiv b.v.1 ∧ r.noOvf = (a.noOvf && b.noOvf) ∧
      r.rem = (a.rem || b.rem || decide (a.v.1.tmod b.v.1 ≠ 0)) := by
  by_cases hno : NoQuotient d a.v.1 b.v.1
  · rw [divAssign_none hno] at h
    exact absurd h (by simp)
  · rw [divAssign_eq hno, Option.some.injEq] at h
    subst h
    exact ⟨fun hb => hno (Or.inl hb), rfl, rfl, rfl⟩

/-- A computation that ends with the unflagged value `x`. -/
def Clean (o : Option (Safe d)) (x : ℤ) : Prop := ∃ r, o = some r ∧ r.noOvf = true ∧ r.v.1 = x

theorem clean_some {a : Safe d} {x : ℤ} : Clean (some a) x ↔ a.noOvf = true ∧ a.v.1 = x := by
  constructor
  · rintro ⟨r, hr, hflag, hv⟩
    obtain rfl := Option.some.inj hr
    exact ⟨hflag, hv⟩
  · rintro ⟨hflag, hv⟩
    exact ⟨a, rfl, hflag, hv⟩

/-- A computation that is done again in another way where it is flagged. -/
theorem clean_retry {o again : Option (Safe d)} {x : ℤ} :
    Clean (o >>= fun q => if q.noOvf then some q else again) x ↔
      Clean o x ∨ (∃ q, o = some q ∧ q.noOvf = false) ∧ Clean again x := by
  cases o with
  | none =>
    refine iff_of_false ?_ ?_
    · rintro ⟨_, h, _⟩
      exact absurd h (by simp)
    · rintro (⟨_, h, _⟩ | ⟨⟨_, h, _⟩, _⟩)
      · exact absurd h (by simp)
      · exact absurd h (by simp)
  | some q =>
    show Clean (if q.noOvf = true then some q else again) x ↔ _
    by_cases hflag : q.noOvf = true
    · rw [if_pos hflag]
      refine ⟨Or.inl, fun h => h.resolve_right ?_⟩
      rintro ⟨⟨_, hq, hfalse⟩, _⟩
      obtain rfl := Option.some.inj hq
      exact absurd (hflag.symm.trans hfalse) (by simp)
    · rw [if_neg hflag]
      refine ⟨fun h => Or.inr ⟨⟨q, rfl, Bool.eq_false_iff.mpr hflag⟩, h⟩, fun h => ?_⟩
      rcases h with h | ⟨_, h⟩
      · exact absurd (clean_some.mp h).1 hflag
      · exact h

theorem ne_min_of_fits {a b : ℤ} (h : Fits d a b) : a ≠ -2 ^ d ∧ b ≠ -2 ^ d := by
  have hmin : ¬ highestBit1 (-2 ^ d : ℤ).natAbs ≤ d := by
    rw [highestBit1_le_iff, Int.natAbs_neg, Int.natAbs_pow]
    exact lt_irrefl _
  unfold Fits at h
  constructor
  · rintro rfl
    exact hmin (by omega)
  · rintro rfl
    exact hmin (by omega)

theorem clean_bind_mul {o : Option (Safe d)} {b : Safe d} {x : ℤ} :
    Clean (o >>= fun c => mulAssign c b) x ↔
      ∃ y, Clean o y ∧ b.noOvf = true ∧ Fits d y b.v.1 ∧ x = y * b.v.1 := by
  constructor
  · rintro ⟨r, hr, hflag, rfl⟩
    obtain ⟨c, rfl, hmul⟩ := Option.bind_eq_some_iff.mp hr
    obtain ⟨hc, hb, hv, -⟩ := mulAssign_unflagged hmul hflag
    refine ⟨c.v.1, clean_some.mpr ⟨hc, rfl⟩, hb, ?_, hv⟩
    by_contra hfits
    by_cases hmin : c.v.1 = -2 ^ d ∨ b.v.1 = -2 ^ d
    · rw [mulAssign_none hmin] at hmul
      exact absurd hmul (by simp)
    · obtain ⟨hminc, hminb⟩ := not_or.mp hmin
      rw [mulAssign_over hminc hminb hfits, Option.some.injEq] at hmul
      subst hmul
      exact absurd hflag (by simp [Safe.flag])
  · rintro ⟨_, ⟨c, rfl, hc, rfl⟩, hb, hfits, rfl⟩
    obtain ⟨hminc, hminb⟩ := ne_min_of_fits hfits
    exact ⟨_, mulAssign_fits hminc hminb hfits, (Bool.and_eq_true _ _).mpr ⟨hc, hb⟩, rfl⟩

theorem clean_bind_div {o : Option (Safe d)} {b : Safe d} {x : ℤ} :
    Clean (o >>= fun c => divAssign c b) x ↔
      ∃ y, Clean o y ∧ b.noOvf = true ∧ ¬ NoQuotient d y b.v.1 ∧ x = y.tdiv b.v.1 := by
  constructor
  · rintro ⟨r, hr, hflag, rfl⟩
    obtain ⟨c, rfl, hdiv⟩ := Option.bind_eq_some_iff.mp hr
    obtain ⟨_, hv, hflags, -⟩ := divAssign_spec hdiv
    obtain ⟨hc, hb⟩ := (Bool.and_eq_true _ _).mp (hflags.symm.trans hflag)
    refine ⟨c.v.1, clean_some.mpr ⟨hc, rfl⟩, hb, fun hno => ?_, hv⟩
    rw [divAssign_none hno] at hdiv
    exact absurd hdiv (by simp)
  · rintro ⟨_, ⟨c, rfl, hc, rfl⟩, hb, hno, rfl⟩
    exact ⟨_, divAssign_eq hno, (Bool.and_eq_true _ _).mpr ⟨hc, hb⟩, rfl⟩

end UmbrellaLtc.SafeInt
