import UmbrellaLtc.SafeInt

/-!
Expressions over the overflow-tracking integers of the types int, long and long long, which are
not promoted. The tracking is sound on exactly those expressions that subtract and negate nothing,
add nothing but to a zero or past the greatest value, keep the least value away from products and
absolute values, divide only where the machine can, and drop no inexact division at an overflow.
-/

namespace UmbrellaLtc.SafeExpr

open MachineInt SafeInt

inductive Expr where
  | const (c : ℤ)
  | add (l r : Expr)
  | sub (l r : Expr)
  | mul (l r : Expr)
  | div (l r : Expr)
  | mod (l r : Expr)
  | neg (e : Expr)
  | abs (e : Expr)
deriving DecidableEq

/-- The evaluation with the operators of types/safe.h. -/
def eval (d : ℕ) : Expr → Option (Safe d)
  | .const c => some (ofInt d c)
  | .add l r => do (← eval d l).add (← eval d r)
  | .sub l r => do (← eval d l).sub (← eval d r)
  | .mul l r => do (← eval d l).mul (← eval d r)
  | .div l r => do (← eval d l).div (← eval d r)
  | .mod l r => do (← eval d l).mod (← eval d r)
  | .neg e => do (← eval d e).neg
  | .abs e => do (← eval d e).abs

/-- The exact result, where no division is by zero. -/
def exact : Expr → Option ℤ
  | .const c => some c
  | .add l r => do return (← exact l) + (← exact r)
  | .sub l r => do return (← exact l) - (← exact r)
  | .mul l r => do return (← exact l) * (← exact r)
  | .div l r => do
      let a ← exact l
      let b ← exact r
      if b = 0 then none else return a.tdiv b
  | .mod l r => do
      let a ← exact l
      let b ← exact r
      if b = 0 then none else return a.tmod b
  | .neg e => do return -(← exact e)
  | .abs e => do return |← exact e|

/-- All subexpressions, the expression itself among them. -/
def subs : Expr → List Expr
  | .const c => [.const c]
  | .add l r => .add l r :: (subs l ++ subs r)
  | .sub l r => .sub l r :: (subs l ++ subs r)
  | .mul l r => .mul l r :: (subs l ++ subs r)
  | .div l r => .div l r :: (subs l ++ subs r)
  | .mod l r => .mod l r :: (subs l ++ subs r)
  | .neg e => .neg e :: subs e
  | .abs e => .abs e :: subs e

/-- An overflow or a division by zero. -/
def Faulty (d : ℕ) (e : Expr) : Prop := ∀ x, exact e = some x → ¬ InRange d x

/-- A division that was made and was inexact. -/
def Inexact (d : ℕ) (e : Expr) : Prop :=
  ∃ l r a b, e = .div l r ∧ eval d l = some a ∧ eval d r = some b ∧ b.v.1 ≠ 0 ∧ ¬ b.v.1 ∣ a.v.1

/-- What the tracking promises about an expression. -/
structure Tracked (d : ℕ) (e : Expr) : Prop where
  defined : ∃ s, eval d e = some s
  value : ∀ s, eval d e = some s → s.noOvf = true → exact e = some s.v.1
  flagged : ∀ s, eval d e = some s → (∃ t ∈ subs e, Faulty d t) → s.noOvf = false
  precision : ∀ s, eval d e = some s → (∃ t ∈ subs e, Inexact d t) → s.rem = true

/-! The expressions that are tracked. -/

/-- The number that an expression carries on: its result while it fits, and else the operand that
an overflowing operator leaves in place. -/
def carried (d : ℕ) : Expr → ℤ
  | .const c => c.bmod (2 ^ (d + 1))
  | .add _ r => carried d r
  | .sub _ _ => 0
  | .mul l r => if Fits d (carried d r) (carried d l) then carried d r * carried d l else carried d r
  | .div l r => (carried d l).tdiv (carried d r)
  | .mod l r =>
      if NoQuotient d (carried d l) (carried d r) then carried d l
      else (carried d l).tmod (carried d r)
  | .neg _ => 0
  | .abs e => |carried d e|

/-- Every operation of the expression is defined. -/
def Defined (d : ℕ) : Expr → Prop
  | .const _ => True
  | .add l r => Defined d l ∧ Defined d r ∧
      (carried d l = 0 ∨ (0 < carried d l ∧ 2 ^ d ≤ carried d r + carried d l))
  | .sub _ _ => False
  | .mul l r => Defined d l ∧ Defined d r ∧ carried d r ≠ -2 ^ d ∧ carried d l ≠ -2 ^ d
  | .div l r => Defined d l ∧ Defined d r ∧ ¬ NoQuotient d (carried d l) (carried d r)
  | .mod l r => Defined d l ∧ Defined d r
  | .neg _ => False
  | .abs e => Defined d e ∧ carried d e ≠ -2 ^ d

/-- An inexact division is in a place that no overflowing operator drops. -/
def KeepsInexact (d : ℕ) : Expr → Prop
  | .const _ => False
  | .add l r => KeepsInexact d r ∨ (carried d l = 0 ∧ KeepsInexact d l)
  | .sub _ _ => False
  | .mul l r => KeepsInexact d r ∨ (Fits d (carried d r) (carried d l) ∧ KeepsInexact d l)
  | .div l r => KeepsInexact d l ∨ KeepsInexact d r ∨ ¬ carried d r ∣ carried d l
  | .mod l r => KeepsInexact d l ∨
      (¬ NoQuotient d (carried d l) (carried d r) ∧ KeepsInexact d r)
  | .neg _ => False
  | .abs e => KeepsInexact d e

attribute [simp] eval exact subs carried Defined KeepsInexact

def HasInexact (d : ℕ) (e : Expr) : Prop := ∃ l r, .div l r ∈ subs e ∧ ¬ carried d r ∣ carried d l

/-- The evaluation gives the carried number and remembers the kept divisions. -/
def Evaluates (d : ℕ) (e : Expr) : Prop :=
  ∃ s, eval d e = some s ∧ s.v.1 = carried d e ∧ (s.rem = true ↔ KeepsInexact d e)

section Evaluation

variable {d : ℕ}

theorem evaluates_add {l r : Expr} (hl : Evaluates d l) (hr : Evaluates d r)
    (h : carried d l = 0 ∨ (0 < carried d l ∧ 2 ^ d ≤ carried d r + carried d l)) :
    Evaluates d (.add l r) := by
  obtain ⟨a, ha, hva, hra⟩ := hl
  obtain ⟨b, hb, hvb, hrb⟩ := hr
  have hbind : eval d (.add l r) = addAssign b a := by
    simp only [eval, ha, hb, Option.bind_eq_bind, Option.bind_some, Safe.add]
  rcases h with hzero | ⟨hpos, hover⟩
  · refine ⟨inheritStatus b a, hbind.trans (addAssign_zero (hva.trans hzero)), hvb, ?_⟩
    show (b.rem || a.rem) = true ↔ _
    rw [Bool.or_eq_true, hra, hrb]
    simp only [KeepsInexact, hzero, true_and]
  · have hsum : 2 ^ d ≤ b.v.1 + a.v.1 := by rwa [hva, hvb]
    refine ⟨b.flag, hbind.trans (addAssign_over (by rwa [hva]) hsum), hvb, ?_⟩
    show b.rem = true ↔ _
    have hne : carried d l ≠ 0 := by omega
    simp only [KeepsInexact, hrb, hne, false_and, or_false]

theorem evaluates_mul {l r : Expr} (hl : Evaluates d l) (hr : Evaluates d r)
    (hminr : carried d r ≠ -2 ^ d) (hminl : carried d l ≠ -2 ^ d) : Evaluates d (.mul l r) := by
  obtain ⟨a, ha, hva, hra⟩ := hl
  obtain ⟨b, hb, hvb, hrb⟩ := hr
  have hbind : eval d (.mul l r) = mulAssign b a := by
    simp only [eval, ha, hb, Option.bind_eq_bind, Option.bind_some, Safe.mul]
  rw [← hvb] at hminr
  rw [← hva] at hminl
  by_cases hfits : Fits d b.v.1 a.v.1
  · refine ⟨_, hbind.trans (mulAssign_fits hminr hminl hfits), ?_, ?_⟩
    · rw [carried, if_pos (by rwa [← hva, ← hvb]), ← hva, ← hvb]
      rfl
    · show (b.rem || a.rem) = true ↔ _
      rw [Bool.or_eq_true, hra, hrb, KeepsInexact, ← hva, ← hvb]
      simp only [hfits, true_and]
  · refine ⟨_, hbind.trans (mulAssign_over hminr hminl hfits), ?_, ?_⟩
    · rw [carried, if_neg (by rwa [← hva, ← hvb]), ← hvb]
      rfl
    · show b.rem = true ↔ _
      rw [hrb, KeepsInexact, ← hva, ← hvb]
      simp only [hfits, false_and, or_false]

theorem evaluates_div {l r : Expr} (hl : Evaluates d l) (hr : Evaluates d r)
    (h : ¬ NoQuotient d (carried d l) (carried d r)) : Evaluates d (.div l r) := by
  obtain ⟨a, ha, hva, hra⟩ := hl
  obtain ⟨b, hb, hvb, hrb⟩ := hr
  have hbind : eval d (.div l r) = divAssign a b := by
    simp only [eval, ha, hb, Option.bind_eq_bind, Option.bind_some, Safe.div]
  rw [← hva, ← hvb] at h
  refine ⟨_, hbind.trans (divAssign_eq h), ?_, ?_⟩
  · rw [carried, ← hva, ← hvb]
  · rw [KeepsInexact, Bool.or_eq_true, Bool.or_eq_true, hra, hrb, ← hva, ← hvb, or_assoc,
      decide_eq_true_eq, Int.dvd_iff_tmod_eq_zero]

theorem evaluates_mod {l r : Expr} (hl : Evaluates d l) (hr : Evaluates d r) :
    Evaluates d (.mod l r) := by
  obtain ⟨a, ha, hva, hra⟩ := hl
  obtain ⟨b, hb, hvb, hrb⟩ := hr
  have hbind : eval d (.mod l r) = modAssign a b := by
    simp only [eval, ha, hb, Option.bind_eq_bind, Option.bind_some, Safe.mod]
  by_cases hno : NoQuotient d a.v.1 b.v.1
  · refine ⟨_, hbind.trans (modAssign_flag hno), ?_, ?_⟩
    · rw [carried, if_pos (by rwa [← hva, ← hvb]), ← hva]
      rfl
    · show a.rem = true ↔ _
      rw [hra, KeepsInexact, ← hva, ← hvb]
      simp only [hno, not_true_eq_false, false_and, or_false]
  · refine ⟨_, hbind.trans (modAssign_eq hno), ?_, ?_⟩
    · rw [carried, if_neg (by rwa [← hva, ← hvb]), ← hva, ← hvb]
      rfl
    · show (a.rem || b.rem) = true ↔ _
      rw [Bool.or_eq_true, hra, hrb, KeepsInexact, ← hva, ← hvb]
      simp only [hno, not_false_eq_true, true_and]

theorem evaluates_abs {e : Expr} (he : Evaluates d e) (hmin : carried d e ≠ -2 ^ d) :
    Evaluates d (.abs e) := by
  obtain ⟨a, ha, hva, hra⟩ := he
  rw [← hva] at hmin
  obtain ⟨r, hr, hv, -, hrem⟩ := abs_eq hmin
  have hbind : eval d (.abs e) = a.abs := by
    simp only [eval, ha, Option.bind_eq_bind, Option.bind_some]
  exact ⟨r, hbind.trans hr, by rw [hv, hva, carried], by rw [hrem, hra, KeepsInexact]⟩

theorem Defined.evaluates {e : Expr} (h : Defined d e) : Evaluates d e := by
  induction e with
  | const c => exact ⟨ofInt d c, rfl, rfl, by simp [ofInt, KeepsInexact]⟩
  | add l r ihl ihr => exact evaluates_add (ihl h.1) (ihr h.2.1) h.2.2
  | sub l r _ _ => exact h.elim
  | mul l r ihl ihr => exact evaluates_mul (ihl h.1) (ihr h.2.1) h.2.2.1 h.2.2.2
  | div l r ihl ihr => exact evaluates_div (ihl h.1) (ihr h.2.1) h.2.2
  | mod l r ihl ihr => exact evaluates_mod (ihl h.1) (ihr h.2)
  | neg e _ => exact h.elim
  | abs e ih => exact evaluates_abs (ih h.1) h.2

theorem Defined.value_eq {e : Expr} (h : Defined d e) {s : Safe d} (hs : eval d e = some s) :
    s.v.1 = carried d e ∧ (s.rem = true ↔ KeepsInexact d e) := by
  obtain ⟨s', hs', hv, hrem⟩ := h.evaluates
  obtain rfl : s' = s := Option.some.inj (hs'.symm.trans hs)
  exact ⟨hv, hrem⟩

/-- A value is there only where every operation is defined. -/
theorem defined_of_eval {e : Expr} {s : Safe d} (h : eval d e = some s) : Defined d e := by
  induction e generalizing s with
  | const c => trivial
  | add l r ihl ihr =>
    simp only [eval, Option.bind_eq_bind, Option.bind_eq_some_iff] at h
    obtain ⟨a, ha, b, hb, hsum⟩ := h
    have hva := ((ihl ha).value_eq ha).1
    have hvb := ((ihr hb).value_eq hb).1
    refine ⟨ihl ha, ihr hb, ?_⟩
    by_contra hbad
    rw [not_or, ← hva, ← hvb] at hbad
    have hnone := addAssign_none hbad.1 hbad.2
    exact absurd (hnone.symm.trans hsum) (by simp)
  | sub l r _ _ =>
    simp only [eval, Option.bind_eq_bind, Option.bind_eq_some_iff, Safe.sub, neg_none] at h
    obtain ⟨_, _, _, _, _, hnone, _⟩ := h
    exact absurd hnone (by simp)
  | mul l r ihl ihr =>
    simp only [eval, Option.bind_eq_bind, Option.bind_eq_some_iff] at h
    obtain ⟨a, ha, b, hb, hprod⟩ := h
    have hva := ((ihl ha).value_eq ha).1
    have hvb := ((ihr hb).value_eq hb).1
    refine ⟨ihl ha, ihr hb, ?_⟩
    by_contra hbad
    rw [not_and_or, not_not, not_not, ← hva, ← hvb] at hbad
    exact absurd ((mulAssign_none hbad).symm.trans hprod) (by simp)
  | div l r ihl ihr =>
    simp only [eval, Option.bind_eq_bind, Option.bind_eq_some_iff] at h
    obtain ⟨a, ha, b, hb, hquot⟩ := h
    have hva := ((ihl ha).value_eq ha).1
    have hvb := ((ihr hb).value_eq hb).1
    refine ⟨ihl ha, ihr hb, fun hno => ?_⟩
    rw [← hva, ← hvb] at hno
    exact absurd ((divAssign_none hno).symm.trans hquot) (by simp)
  | mod l r ihl ihr =>
    simp only [eval, Option.bind_eq_bind, Option.bind_eq_some_iff] at h
    obtain ⟨a, ha, b, hb, _⟩ := h
    exact ⟨ihl ha, ihr hb⟩
  | neg e _ =>
    simp only [eval, Option.bind_eq_bind, Option.bind_eq_some_iff, neg_none] at h
    obtain ⟨_, _, hnone⟩ := h
    exact absurd hnone (by simp)
  | abs e ih =>
    simp only [eval, Option.bind_eq_bind, Option.bind_eq_some_iff] at h
    obtain ⟨a, ha, habs⟩ := h
    have hva := ((ih ha).value_eq ha).1
    refine ⟨ih ha, fun hmin => ?_⟩
    rw [← hva] at hmin
    exact absurd ((abs_none hmin).symm.trans habs) (by simp)

theorem Defined.of_mem_subs {e t : Expr} (h : Defined d e) (ht : t ∈ subs e) : Defined d t := by
  induction e with
  | const c =>
    obtain rfl := List.mem_singleton.mp ht
    exact h
  | sub l r _ _ => exact h.elim
  | neg e _ => exact h.elim
  | abs e ih =>
    rcases List.mem_cons.mp ht with rfl | hin
    · exact h
    · exact ih h.1 hin
  | add l r ihl ihr | mul l r ihl ihr | div l r ihl ihr | mod l r ihl ihr =>
    rcases List.mem_cons.mp ht with rfl | hin
    · exact h
    · rcases List.mem_append.mp hin with hl | hr
      · exact ihl h.1 hl
      · first | exact ihr h.2.1 hr | exact ihr h.2 hr

/-- The result is exact, with no fault anywhere below it. -/
structure Faultless (d : ℕ) (e : Expr) (s : Safe d) : Prop where
  value : exact e = some s.v.1
  below : ∀ t ∈ subs e, ¬ Faulty d t

/-- The whole is no fault once its exact result is a value of the type. -/
theorem not_faulty {e : Expr} {s : Safe d} (h : exact e = some s.v.1) : ¬ Faulty d e :=
  fun hfault => hfault _ h s.v.2

theorem Faultless.binary {e l r : Expr} {a b s : Safe d} (hl : Faultless d l a)
    (hr : Faultless d r b) (hsubs : subs e = e :: (subs l ++ subs r))
    (hvalue : exact e = some s.v.1) : Faultless d e s := by
  refine ⟨hvalue, ?_⟩
  rw [hsubs, List.forall_mem_cons, List.forall_mem_append]
  exact ⟨not_faulty hvalue, hl.below, hr.below⟩

/-- A result that is not flagged has no fault. -/
theorem faultless_of_unflagged {e : Expr} {s : Safe d} (h : eval d e = some s)
    (hs : s.noOvf = true) : Faultless d e s := by
  induction e generalizing s with
  | const c =>
    simp only [eval, Option.some.injEq] at h
    subst h
    have hval : (wrap d c).1 = c := of_decide_eq_true hs
    have hexact : exact (.const c) = some (ofInt d c).v.1 := congrArg some hval.symm
    refine ⟨hexact, fun t ht => ?_⟩
    obtain rfl := List.mem_singleton.mp ht
    exact not_faulty hexact
  | sub l r _ _ =>
    exact (defined_of_eval h).elim
  | neg e _ =>
    exact (defined_of_eval h).elim
  | abs e ih =>
    obtain ⟨-, hmin⟩ := defined_of_eval h
    simp only [eval, Option.bind_eq_bind, Option.bind_eq_some_iff] at h
    obtain ⟨a, ha, habs⟩ := h
    rw [← ((defined_of_eval ha).value_eq ha).1] at hmin
    obtain ⟨r, hr, hv, hflag, -⟩ := abs_eq hmin
    obtain rfl : r = s := Option.some.inj (hr.symm.trans habs)
    have hbelow := ih ha (hflag.symm.trans hs)
    have hwhole : exact (.abs e) = some r.v.1 := by
      simp only [exact, hbelow.value, hv, Option.bind_eq_bind, Option.bind_some, Option.pure_def]
    exact ⟨hwhole, List.forall_mem_cons.mpr ⟨not_faulty hwhole, hbelow.below⟩⟩
  | add l r ihl ihr =>
    simp only [eval, Option.bind_eq_bind, Option.bind_eq_some_iff] at h
    obtain ⟨a, ha, b, hb, hsum⟩ := h
    obtain ⟨hflagb, hflaga, hv⟩ := addAssign_unflagged hsum hs
    have hl := ihl ha hflaga
    have hr := ihr hb hflagb
    refine hl.binary hr rfl ?_
    simp only [exact, hl.value, hr.value, hv, Option.bind_eq_bind, Option.bind_some,
      Option.pure_def]
    rw [add_comm]
  | mul l r ihl ihr =>
    simp only [eval, Option.bind_eq_bind, Option.bind_eq_some_iff] at h
    obtain ⟨a, ha, b, hb, hprod⟩ := h
    obtain ⟨hflagb, hflaga, hv, -⟩ := mulAssign_unflagged hprod hs
    have hl := ihl ha hflaga
    have hr := ihr hb hflagb
    refine hl.binary hr rfl ?_
    simp only [exact, hl.value, hr.value, hv, Option.bind_eq_bind, Option.bind_some,
      Option.pure_def]
    rw [mul_comm]
  | div l r ihl ihr =>
    simp only [eval, Option.bind_eq_bind, Option.bind_eq_some_iff] at h
    obtain ⟨a, ha, b, hb, hquot⟩ := h
    obtain ⟨hb0, hv, hflag, -⟩ := divAssign_spec hquot
    obtain ⟨hflaga, hflagb⟩ := (Bool.and_eq_true _ _).mp (hflag.symm.trans hs)
    have hl := ihl ha hflaga
    have hr := ihr hb hflagb
    refine hl.binary hr rfl ?_
    simp only [exact, hl.value, hr.value, hv, Option.bind_eq_bind, Option.bind_some, if_neg hb0,
      Option.pure_def]
  | mod l r ihl ihr =>
    simp only [eval, Option.bind_eq_bind, Option.bind_eq_some_iff] at h
    obtain ⟨a, ha, b, hb, hrest⟩ := h
    obtain ⟨hflaga, hflagb, hb0, hv⟩ := modAssign_unflagged hrest hs
    have hl := ihl ha hflaga
    have hr := ihr hb hflagb
    refine hl.binary hr rfl ?_
    simp only [exact, hl.value, hr.value, hv, Option.bind_eq_bind, Option.bind_some, if_neg hb0,
      Option.pure_def]

/-- In a defined expression the divisions made have the carried operands. -/
theorem Defined.hasInexact_iff {e : Expr} (h : Defined d e) :
    (∃ t ∈ subs e, Inexact d t) ↔ HasInexact d e := by
  constructor
  · rintro ⟨_, ht, l, r, a, b, rfl, ha, hb, _, hdvd⟩
    rw [((defined_of_eval ha).value_eq ha).1, ((defined_of_eval hb).value_eq hb).1] at hdvd
    exact ⟨l, r, ht, hdvd⟩
  · rintro ⟨l, r, ht, hdvd⟩
    obtain ⟨hl, hr, hno⟩ := h.of_mem_subs ht
    obtain ⟨a, ha, hva, -⟩ := hl.evaluates
    obtain ⟨b, hb, hvb, -⟩ := hr.evaluates
    refine ⟨_, ht, l, r, a, b, rfl, ha, hb, ?_, by rwa [hva, hvb]⟩
    rw [hvb]
    exact fun hzero => hno (Or.inl hzero)

end Evaluation

theorem Tracked.toDefined {e : Expr} (h : Tracked d e) : Defined d e := by
  obtain ⟨s, hs⟩ := h.defined
  exact defined_of_eval hs

/-- Tracking is sound on the expressions whose operations are all defined and which, if they make
an inexact division, keep one; and on no other. -/
theorem tracked_iff (d : ℕ) (e : Expr) :
    Tracked d e ↔ Defined d e ∧ (HasInexact d e → KeepsInexact d e) := by
  constructor
  · intro h
    have hdef := h.toDefined
    obtain ⟨s, hs⟩ := h.defined
    refine ⟨hdef, fun hinexact => ?_⟩
    exact (hdef.value_eq hs).2.mp (h.precision s hs (hdef.hasInexact_iff.mpr hinexact))
  · rintro ⟨hdef, hkeeps⟩
    obtain ⟨s, hs, -⟩ := hdef.evaluates
    refine ⟨⟨s, hs⟩, fun r hr hflag => (faultless_of_unflagged hr hflag).value, ?_, ?_⟩
    · rintro r hr ⟨t, ht, hfault⟩
      by_contra hflag
      exact (faultless_of_unflagged hr (Bool.eq_true_of_not_eq_false hflag)).below t ht hfault
    · intro r hr hinexact
      exact (hdef.value_eq hr).2.mpr (hkeeps (hdef.hasInexact_iff.mp hinexact))

/-- One and one of 32 bits: the lower bound that is computed for the sum is no int. -/
theorem one_add_one_untracked : ¬ Tracked 31 (.add (.const 1) (.const 1)) := by
  intro h
  obtain ⟨-, -, hzero | ⟨-, hover⟩⟩ := h.toDefined
  · exact absurd hzero (by decide)
  · exact absurd hover (by decide)

end UmbrellaLtc.SafeExpr
