import UmbrellaLtc.CheckBlock

/-!
The compressed amounts of CTxOutCompressor. An amount is taken apart into its trailing zeros, up
to nine of them, its last other digit and the rest, and a code is the same parts in a mixed radix.
Both functions go from one reading of the parts to the other.
-/

namespace UmbrellaLtc.AmountCode

open CheckBlock (MAX_MONEY maxMoney_eq)

section Code

/-- An operation of uint64, given by its exact result. -/
def wrapped (v : ℤ) : Option ℤ := some (v % 2 ^ 64)

/-- The same, where an overflow stops it. -/
def checked (v : ℤ) : Option ℤ := if 0 ≤ v ∧ v < 2 ^ 64 then some v else none

/-- The loop that divides by ten, at most nine times; `e` counts the divisions. -/
def stripZeros : ℕ → ℤ → ℕ → ℤ × ℕ
  | 0, n, e => (n, e)
  | fuel + 1, n, e => if n % 10 = 0 ∧ e < 9 then stripZeros fuel (n / 10) (e + 1) else (n, e)

/-- The loop that multiplies by ten. -/
def raise (uint64 : ℤ → Option ℤ) : ℕ → ℤ → Option ℤ
  | 0, n => some n
  | e + 1, n => do
      let n ← uint64 (n * 10)
      raise uint64 e n

/-- CTxOutCompressor::CompressAmount; none where the assertion fails. -/
def compressAmountWith (uint64 : ℤ → Option ℤ) (n : ℤ) : Option ℤ :=
  if n = 0 then some 0
  else
    let (n, e) := stripZeros 9 n 0
    if e < 9 then
      let d := n % 10
      if 1 ≤ d ∧ d ≤ 9 then do
        let n := n / 10
        let x ← uint64 (n * 9)
        let x ← uint64 (x + d)
        let x ← uint64 (x - 1)
        let x ← uint64 (x * 10)
        let x ← uint64 (1 + x)
        uint64 (x + e)
      else none
    else do
      let x ← uint64 (n - 1)
      let x ← uint64 (x * 10)
      let x ← uint64 (1 + x)
      uint64 (x + 9)

/-- CTxOutCompressor::DecompressAmount. -/
def decompressAmountWith (uint64 : ℤ → Option ℤ) (x : ℤ) : Option ℤ :=
  if x = 0 then some 0
  else do
    let x ← uint64 (x - 1)
    let e := (x % 10).toNat
    let x := x / 10
    if e < 9 then do
      let d := x % 9 + 1
      let x := x / 9
      let n ← uint64 (x * 10)
      let n ← uint64 (n + d)
      raise uint64 e n
    else do
      let n ← uint64 (x + 1)
      raise uint64 e n

def compressAmount : ℤ → Option ℤ := compressAmountWith wrapped

def decompressAmount : ℤ → Option ℤ := decompressAmountWith wrapped

end Code

/-- The parts of an amount: `d + 1` is its last digit before the zeros and `m` what is above. -/
inductive Parts where
  | zero
  | digits (m d e : ℕ) (hd : d < 9) (he : e < 9)
  | round (m : ℕ)

namespace Parts

def mantissa : Parts → ℕ
  | zero => 0
  | digits m d _ _ _ => 10 * m + d + 1
  | round m => m + 1

def exponent : Parts → ℕ
  | zero => 0
  | digits _ _ e _ _ => e
  | round _ => 9

def value (a : Parts) : ℕ := a.mantissa * 10 ^ a.exponent

def code : Parts → ℕ
  | zero => 0
  | digits m d e _ _ => 1 + 10 * (9 * m + d) + e
  | round m => 1 + 10 * m + 9

/-- Up to nine zeros stripped, and none left unless all nine were. -/
theorem exists_stripped (j : ℕ) {n : ℕ} (hn : 0 < n) :
    ∃ e m : ℕ, e ≤ j ∧ n = m * 10 ^ e ∧ 0 < m ∧ (e = j ∨ m % 10 ≠ 0) := by
  induction j with
  | zero => exact ⟨0, n, le_rfl, by rw [pow_zero, Nat.mul_one], hn, Or.inl rfl⟩
  | succ j ih =>
    obtain ⟨e, m, he, heq, hm, hlast⟩ := ih
    by_cases hmore : e = j ∧ m % 10 = 0
    · obtain ⟨rfl, hzero⟩ := hmore
      refine ⟨e + 1, m / 10, le_rfl, ?_, by omega, Or.inl rfl⟩
      have hten : m = m / 10 * 10 := by omega
      rw [heq, pow_succ', ← Nat.mul_assoc, ← hten]
    · refine ⟨e, m, by omega, heq, hm, Or.inr ?_⟩
      rcases hlast with rfl | hlast
      · exact fun hzero => hmore ⟨rfl, hzero⟩
      · exact hlast

theorem exists_value (n : ℕ) : ∃ a : Parts, a.value = n := by
  rcases Nat.eq_zero_or_pos n with rfl | hn
  · exact ⟨zero, rfl⟩
  · obtain ⟨e, m, he, rfl, hm, hlast⟩ := exists_stripped 9 hn
    by_cases hnine : e = 9
    · subst hnine
      refine ⟨round (m - 1), ?_⟩
      rw [value, mantissa, exponent, Nat.sub_add_cancel hm]
    · have hdigit : m % 10 ≠ 0 := hlast.resolve_left hnine
      refine ⟨digits (m / 10) (m % 10 - 1) e (by omega) (by omega), ?_⟩
      have hparts : 10 * (m / 10) + (m % 10 - 1) + 1 = m := by omega
      rw [value, mantissa, exponent, hparts]

theorem exists_code (x : ℕ) : ∃ a : Parts, a.code = x := by
  rcases Nat.eq_zero_or_pos x with rfl | hx
  · exact ⟨zero, rfl⟩
  · by_cases hnine : (x - 1) % 10 = 9
    · refine ⟨round ((x - 1) / 10), ?_⟩
      rw [code]
      omega
    · refine ⟨digits ((x - 1) / 10 / 9) ((x - 1) / 10 % 9) ((x - 1) % 10) (by omega) (by omega), ?_⟩
      rw [code]
      omega

theorem mantissa_pos {a : Parts} (h : a.code ≠ 0) : 0 < a.mantissa := by
  cases a with
  | zero => exact absurd rfl h
  | digits m d e hd he => exact Nat.succ_pos _
  | round m => exact Nat.succ_pos _

theorem value_pos {a : Parts} (h : a.code ≠ 0) : 0 < a.value :=
  Nat.mul_pos (mantissa_pos h) (Nat.pow_pos (by omega))

theorem mantissa_le_code (a : Parts) : a.mantissa ≤ a.code := by
  cases a with
  | zero => exact le_rfl
  | digits m d e hd he =>
    rw [mantissa, code]
    omega
  | round m =>
    rw [mantissa, code]
    omega

theorem mantissa_le_value (a : Parts) : a.mantissa ≤ a.value :=
  Nat.le_mul_of_pos_right _ (Nat.pow_pos (by omega))

/-- A code is at most nine times its amount, up to a digit. -/
theorem code_le (a : Parts) : a.code ≤ 9 * a.value + 8 := by
  have hle := a.mantissa_le_value
  cases a with
  | zero => exact Nat.zero_le _
  | digits m d e hd he =>
    rw [mantissa] at hle
    rw [code]
    omega
  | round m =>
    rw [value, mantissa, exponent, code]
    omega

end Parts

section Exact

/-- The operations that give the exact result wherever it is a uint64. -/
def Exact (uint64 : ℤ → Option ℤ) : Prop := ∀ v, 0 ≤ v → v < 2 ^ 64 → uint64 v = some v

theorem exact_wrapped : Exact wrapped := by
  intro v hlow hhigh
  rw [wrapped, Int.emod_eq_of_lt hlow hhigh]

theorem exact_checked : Exact checked := fun _ hlow hhigh => if_pos ⟨hlow, hhigh⟩

theorem stripZeros_zeros (fuel : ℕ) (n : ℤ) (k e : ℕ) (hk : e + k ≤ 9) :
    stripZeros (fuel + k) (n * 10 ^ k) e = stripZeros fuel n (e + k) := by
  induction k generalizing e with
  | zero => simp
  | succ k ih =>
    have hsplit : n * 10 ^ (k + 1) = n * 10 ^ k * 10 := by rw [pow_succ, mul_assoc]
    rw [← Nat.add_assoc, stripZeros, if_pos ⟨by omega, by omega⟩, hsplit,
      Int.mul_ediv_cancel _ (by norm_num), ih (e + 1) (by omega)]
    congr 1
    omega

theorem stripZeros_stop (fuel : ℕ) (n : ℤ) (e : ℕ) (h : ¬ (n % 10 = 0 ∧ e < 9)) :
    stripZeros fuel n e = (n, e) := by
  cases fuel with
  | zero => rfl
  | succ fuel => rw [stripZeros, if_neg h]

variable {uint64 : ℤ → Option ℤ}

/-- The loop strips the zeros that the parts count. -/
theorem stripZeros_value {a : Parts} (h : a.code ≠ 0) :
    stripZeros 9 a.value 0 = ((a.mantissa : ℤ), a.exponent) := by
  have hvalue : (a.value : ℤ) = a.mantissa * 10 ^ a.exponent := by
    rw [Parts.value]
    push_cast
    rfl
  have hexp : a.exponent ≤ 9 := by
    cases a with
    | zero => exact Nat.zero_le _
    | digits m d e hd he => exact he.le
    | round m => exact le_rfl
  have hfuel := stripZeros_zeros (9 - a.exponent) a.mantissa a.exponent 0 (by omega)
  rw [Nat.sub_add_cancel hexp, Nat.zero_add] at hfuel
  rw [hvalue, hfuel]
  refine stripZeros_stop _ _ _ ?_
  cases a with
  | zero => exact absurd rfl h
  | digits m d e hd he =>
    rw [Parts.mantissa]
    omega
  | round m =>
    rw [Parts.exponent]
    omega

theorem compressAmountWith_value (hu : Exact uint64) (a : Parts) (hcode : a.code < 2 ^ 64) :
    compressAmountWith uint64 a.value = some (a.code : ℤ) := by
  by_cases hzero : a.code = 0
  · cases a with
    | zero => rfl
    | digits m d e hd he =>
      rw [Parts.code] at hzero
      omega
    | round m =>
      rw [Parts.code] at hzero
      omega
  · have hpos := Parts.value_pos hzero
    rw [compressAmountWith, if_neg (by omega), stripZeros_value hzero]
    dsimp only
    cases a with
    | zero => exact absurd rfl hzero
    | digits m d e hd he =>
      rw [Parts.code] at hcode
      have hdigit : ((Parts.digits m d e hd he).mantissa : ℤ) % 10 = d + 1 := by
        rw [Parts.mantissa]
        omega
      have hrest : ((Parts.digits m d e hd he).mantissa : ℤ) / 10 = m := by
        rw [Parts.mantissa]
        omega
      rw [if_pos (show (Parts.digits m d e hd he).exponent < 9 from he), hdigit, if_pos (by omega),
        hrest]
      simp only [Parts.exponent, Parts.code, Option.bind_eq_bind]
      rw [hu _ (by omega) (by omega), Option.bind_some, hu _ (by omega) (by omega),
        Option.bind_some, hu _ (by omega) (by omega), Option.bind_some, hu _ (by omega) (by omega),
        Option.bind_some, hu _ (by omega) (by omega), Option.bind_some, hu _ (by omega) (by omega)]
      congr 1
      omega
    | round m =>
      rw [Parts.code] at hcode
      rw [if_neg (show ¬ (Parts.round m).exponent < 9 from lt_irrefl 9)]
      simp only [Parts.mantissa, Parts.code, Option.bind_eq_bind]
      rw [hu _ (by omega) (by omega), Option.bind_some,
        hu _ (by omega) (by omega), Option.bind_some, hu _ (by omega) (by omega),
        Option.bind_some, hu _ (by omega) (by omega)]
      congr 1
      omega

/-- Up to the last loop nothing overflows. -/
theorem decompressAmountWith_raise (hu : Exact uint64) (a : Parts) (hcode : a.code < 2 ^ 64) :
    decompressAmountWith uint64 a.code = raise uint64 a.exponent a.mantissa := by
  cases a with
  | zero => rfl
  | digits m d e hd he =>
    rw [Parts.code] at hcode ⊢
    have hexp : (((1 + 10 * (9 * m + d) + e : ℕ) - 1 : ℤ) % 10).toNat = e := by omega
    have hlast : ((1 + 10 * (9 * m + d) + e : ℕ) - 1 : ℤ) / 10 % 9 + 1 = d + 1 := by omega
    have hrest : ((1 + 10 * (9 * m + d) + e : ℕ) - 1 : ℤ) / 10 / 9 = m := by omega
    have hsum : (m : ℤ) * 10 + (d + 1) = (10 * m + d + 1 : ℕ) := by omega
    rw [decompressAmountWith, if_neg (by omega)]
    simp only [Option.bind_eq_bind]
    rw [hu _ (by omega) (by omega), Option.bind_some, hexp, if_pos he, hlast, hrest,
      hu _ (by omega) (by omega), Option.bind_some, hu _ (by omega) (by omega), Option.bind_some,
      hsum]
    rfl
  | round m =>
    rw [Parts.code] at hcode ⊢
    have hexp : (((1 + 10 * m + 9 : ℕ) - 1 : ℤ) % 10).toNat = 9 := by omega
    have hrest : ((1 + 10 * m + 9 : ℕ) - 1 : ℤ) / 10 = m := by omega
    rw [decompressAmountWith, if_neg (by omega)]
    simp only [Option.bind_eq_bind]
    rw [hu _ (by omega) (by omega), Option.bind_some, hexp, if_neg (by omega), hrest,
      hu _ (by omega) (by omega), Option.bind_some]
    rfl

theorem raise_eq (hu : Exact uint64) (e : ℕ) {n : ℤ} (hn : 0 ≤ n) (hlt : n * 10 ^ e < 2 ^ 64) :
    raise uint64 e n = some (n * 10 ^ e) := by
  induction e generalizing n with
  | zero => rw [raise, pow_zero, mul_one]
  | succ e ih =>
    have hpow : (1 : ℤ) ≤ 10 ^ e := one_le_pow₀ (by norm_num)
    have hsplit : n * 10 ^ (e + 1) = n * 10 * 10 ^ e := by rw [pow_succ', mul_assoc]
    have hstep : n * 10 ≤ n * 10 * 10 ^ e := le_mul_of_one_le_right (by omega) hpow
    rw [hsplit] at hlt ⊢
    rw [raise, hu _ (by omega) (by omega)]
    exact ih (by omega) hlt

theorem decompressAmountWith_code (hu : Exact uint64) (a : Parts) (hcode : a.code < 2 ^ 64)
    (hvalue : a.value < 2 ^ 64) : decompressAmountWith uint64 a.code = some (a.value : ℤ) := by
  have hcast : (a.mantissa : ℤ) * 10 ^ a.exponent = a.value := by
    rw [Parts.value]
    push_cast
    rfl
  rw [decompressAmountWith_raise hu a hcode, raise_eq hu _ (by omega) (by rw [hcast]; omega), hcast]

/-- A loop that no overflow has stopped. -/
theorem raise_checked {e : ℕ} {n r : ℤ} (hn : 0 ≤ n ∧ n < 2 ^ 64)
    (h : raise checked e n = some r) : n * 10 ^ e < 2 ^ 64 := by
  induction e generalizing n with
  | zero =>
    rw [pow_zero, mul_one]
    exact hn.2
  | succ e ih =>
    have hsplit : n * 10 ^ (e + 1) = n * 10 * 10 ^ e := by rw [pow_succ', mul_assoc]
    rw [hsplit]
    rw [raise, checked] at h
    split_ifs at h with hstep
    · exact ih hstep h
    · cases h

/-- Where no operation overflows, the amount is a uint64. -/
theorem value_lt_of_checked {a : Parts} {r : ℤ} (hcode : a.code < 2 ^ 64)
    (h : decompressAmountWith checked a.code = some r) : a.value < 2 ^ 64 := by
  have hle := a.mantissa_le_code
  rw [decompressAmountWith_raise exact_checked a hcode] at h
  have hlt := raise_checked ⟨by omega, by omega⟩ h
  rw [Parts.value]
  exact_mod_cast hlt

end Exact

/-- The parts of an amount of money, whose code is a uint64 too. -/
theorem exists_parts {n : ℤ} (hlow : 0 ≤ n) (hhigh : n ≤ MAX_MONEY) :
    ∃ a : Parts, (a.value : ℤ) = n ∧ a.value < 2 ^ 64 ∧ a.code < 2 ^ 64 := by
  obtain ⟨n, rfl⟩ := Int.eq_ofNat_of_zero_le hlow
  obtain ⟨a, rfl⟩ := Parts.exists_value n
  have hle := a.code_le
  rw [maxMoney_eq] at hhigh
  exact ⟨a, rfl, by omega, by omega⟩

/-- The two functions undo one another: on amounts of money, none of whose operations overflows,
and on every code whose decompression does not overflow. -/
theorem compressAmount_inverse :
    (∀ n : ℤ, 0 ≤ n → n ≤ MAX_MONEY → ∃ x, compressAmountWith checked n = some x ∧
        compressAmount n = some x ∧ decompressAmount x = some n) ∧
      ∀ x : ℤ, 0 ≤ x → x < 2 ^ 64 → decompressAmountWith checked x ≠ none →
        ∃ n, decompressAmount x = some n ∧ compressAmount n = some x := by
  constructor
  · intro n hlow hhigh
    obtain ⟨a, rfl, hvalue, hcode⟩ := exists_parts hlow hhigh
    exact ⟨a.code, compressAmountWith_value exact_checked a hcode,
      compressAmountWith_value exact_wrapped a hcode,
      decompressAmountWith_code exact_wrapped a hcode hvalue⟩
  · intro x hlow hhigh hfits
    obtain ⟨x, rfl⟩ := Int.eq_ofNat_of_zero_le hlow
    obtain ⟨a, rfl⟩ := Parts.exists_code x
    have hcode : a.code < 2 ^ 64 := by exact_mod_cast hhigh
    obtain ⟨r, hr⟩ := Option.ne_none_iff_exists'.mp hfits
    have hvalue := value_lt_of_checked hcode hr
    exact ⟨a.value, decompressAmountWith_code exact_wrapped a hcode hvalue,
      compressAmountWith_value exact_wrapped a hcode⟩

theorem compressAmount_inverse_fifty :
    (∃ x, compressAmountWith checked 5000000000 = some x ∧ compressAmount 5000000000 = some x ∧
      decompressAmount x = some 5000000000) ∧
      ∃ n, decompressAmount 50 = some n ∧ compressAmount n = some 50 :=
  ⟨compressAmount_inverse.1 5000000000 (by decide) (by decide),
    compressAmount_inverse.2 50 (by decide) (by decide) (by decide +kernel)⟩

example : compressAmount 5000000000 = some 0x32 := by decide +kernel

end UmbrellaLtc.AmountCode
