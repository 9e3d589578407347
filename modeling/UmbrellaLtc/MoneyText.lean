import UmbrellaLtc.Base58
import UmbrellaLtc.CheckBlock
import UmbrellaLtc.MachineInt
import Mathlib.Tactic.FieldSimp

/-!
Amounts as text: FormatMoney and ParseMoney of util.cpp. An operation of `int64` whose result is
out of range is a failure of its own, apart from the refusals of ParseMoney. A digit of the text
adds at a place of the value, and the zeros that FormatMoney trims add nothing.
-/

namespace UmbrellaLtc.MoneyText

open CheckBlock (COIN)
open Base58 (c_str nul)
open MergedMineProxy (isspace)
open MachineInt (InRange)
open Positional

section Functions

inductive Failure where
  | refused
  | overflow
deriving DecidableEq

def CENT : ℤ := 1000000

/-- The result of an operation of `int64`. -/
def int64 (x : ℤ) : Except Failure ℤ := if InRange 63 x then .ok x else .error .overflow

/-- `'0' + d`. -/
def digit (d : ℕ) : Char := Char.ofNat ('0'.toNat + d)

/-- `c - '0'`. -/
def place (c : Char) : ℕ := c.toNat - '0'.toNat

/-- The number that a string of digits stands for. -/
def decimal (s : List Char) : ℕ := value 10 (s.map place)

/-- `"%d"` of a number from 0 on. -/
def printed (n : ℕ) : List Char := if n = 0 then ['0'] else (Nat.digits 10 n).reverse.map digit

/-- `"%08d"` of a number from 0 on. -/
def padded (n : ℕ) : List Char :=
  List.replicate (8 - (printed n).length) '0' ++ printed n

/-- The loop that trims zeros, on the text in reverse. It stops two behind the point at the
latest, so that it looks at no place in front of the text. -/
def trim : List Char → List Char
  | a :: b :: c :: rest => if a = '0' ∧ c.isDigit then trim (b :: c :: rest) else a :: b :: c :: rest
  | str => str

def formatMoney (n : ℤ) (fPlus : Bool) : Except Failure (List Char) := do
  let n_abs ← (if n > 0 then .ok n else int64 (-n) : Except Failure ℤ)
  let quotient := n_abs / COIN
  let remainder := n_abs % COIN
  let str := printed quotient.toNat ++ '.' :: padded remainder.toNat
  let str := (trim str.reverse).reverse
  if n < 0 then return '-' :: str
  else if fPlus ∧ n > 0 then return '+' :: str
  else return str

/-- The inner loop of ParseMoney, with what it leaves of the text. -/
def readUnits (nUnits nMult : ℤ) : List Char → Except Failure (ℤ × List Char)
  | [] => .ok (nUnits, [])
  | c :: p =>
      if c.isDigit ∧ nMult > 0 then do
        let unit ← int64 (nMult * place c)
        let nUnits ← int64 (nUnits + unit)
        readUnits nUnits (nMult / 10) p
      else .ok (nUnits, c :: p)

/-- The outer loop of ParseMoney. -/
def readWhole (strWhole : List Char) : List Char → Except Failure (List Char × ℤ × List Char)
  | [] => .ok (strWhole, 0, [])
  | c :: p =>
      if c = '.' then do
        let (nUnits, p) ← readUnits 0 (CENT * 10) p
        return (strWhole, nUnits, p)
      else if isspace c then .ok (strWhole, 0, c :: p)
      else if ¬ c.isDigit then .error .refused
      else readWhole (strWhole ++ [c]) p

/-- `strtoll(psz, NULL, 10)`, which ends in the range of its type. -/
def strtoll (psz : List Char) : ℤ :=
  let p := psz.dropWhile isspace
  let digits := if p.head? = some '-' ∨ p.head? = some '+' then p.tail else p
  let n : ℤ := decimal (digits.takeWhile Char.isDigit)
  max (-2 ^ 63) (min (2 ^ 63 - 1) (if p.head? = some '-' then -n else n))

def atoi64 (str : List Char) : ℤ := strtoll (c_str str)

/-- What ParseMoney does behind its loops. -/
def finish (strWhole : List Char) (nUnits : ℤ) (p : List Char) : Except Failure ℤ :=
  if ¬ p.all isspace then .error .refused
  else if strWhole.length > 10 then .error .refused
  else if nUnits < 0 ∨ nUnits > COIN then .error .refused
  else do
    let nWhole := atoi64 strWhole
    let coins ← int64 (nWhole * COIN)
    int64 (coins + nUnits)

/-- ParseMoney of a C string. -/
def parseMoney (pszIn : List Char) : Except Failure ℤ := do
  let (strWhole, nUnits, p) ← readWhole [] (pszIn.dropWhile isspace)
  finish strWhole nUnits p

/-- ParseMoney of a std::string. -/
def parseMoneyStr (str : List Char) : Except Failure ℤ := parseMoney (c_str str)

end Functions

section Digits

theorem place_digit {d : ℕ} (h : d < 10) : place (digit d) = d := by
  have hall : ∀ d : Fin 10, place (digit d) = d := by decide
  exact hall ⟨d, h⟩

theorem isDigit_digit {d : ℕ} (h : d < 10) : (digit d).isDigit := by
  have hall : ∀ d : Fin 10, (digit d).isDigit := by decide
  exact hall ⟨d, h⟩

theorem toNat_of_isDigit {c : Char} (h : c.isDigit) : 48 ≤ c.toNat ∧ c.toNat ≤ 57 := by
  rw [Char.isDigit, Bool.and_eq_true, decide_eq_true_iff, decide_eq_true_iff] at h
  exact ⟨UInt32.le_iff_toNat_le.mp h.1, UInt32.le_iff_toNat_le.mp h.2⟩

theorem place_lt {c : Char} (h : c.isDigit) : place c < 10 := by
  have hc := toNat_of_isDigit h
  have hzero : '0'.toNat = 48 := rfl
  unfold place
  omega

theorem isDigit_ne {c d : Char} (h : c.isDigit) (hd : ¬ d.isDigit) : c ≠ d := by
  intro heq
  exact hd (heq ▸ h)

theorem isspace_of_isDigit {c : Char} (h : c.isDigit) : isspace c = false := by
  have hc := toNat_of_isDigit h
  have hne : ∀ d : Char, d.toNat < 48 → c ≠ d := by
    intro d hd heq
    subst heq
    omega
  simp [isspace, Char.isWhitespace, hne ' ' (by decide), hne '\t' (by decide),
    hne '\r' (by decide), hne '\n' (by decide)]
  omega

theorem decimal_cons (c : Char) (s : List Char) :
    decimal (c :: s) = place c * 10 ^ s.length + decimal s := by
  rw [decimal, List.map_cons, value_cons, List.length_map, decimal]

theorem decimal_append (s s' : List Char) :
    decimal (s ++ s') = decimal s * 10 ^ s'.length + decimal s' := by
  rw [decimal, List.map_append, value_append, List.length_map, decimal, decimal]

theorem decimal_lt {s : List Char} (h : ∀ c ∈ s, c.isDigit) : decimal s < 10 ^ s.length := by
  rw [decimal, ← List.length_map (f := place)]
  apply value_lt (by decide)
  intro d hd
  obtain ⟨c, hc, rfl⟩ := List.mem_map.mp hd
  exact place_lt (h c hc)

theorem decimal_zeros (z : ℕ) : decimal (List.replicate z '0') = 0 := by
  have h := value_replicate_append 10 z []
  rw [List.append_nil] at h
  rw [decimal, List.map_replicate]
  exact h

end Digits

section Parsing

theorem int64_eq {x : ℤ} (hlow : -2 ^ 63 ≤ x) (hhigh : x < 2 ^ 63) : int64 x = .ok x :=
  if_pos ⟨hlow, hhigh⟩

theorem int64_bind {α : Type} {x : ℤ} (hlow : -2 ^ 63 ≤ x) (hhigh : x < 2 ^ 63)
    (f : ℤ → Except Failure α) : (int64 x >>= f) = f x := by
  rw [int64_eq hlow hhigh]
  rfl

/-- The digits behind the point that count, where `k` places are left. -/
def units (k : ℕ) (p : List Char) : List Char := (p.takeWhile Char.isDigit).take k

theorem isDigit_of_mem_units {k : ℕ} {p : List Char} {c : Char} (h : c ∈ units k p) :
    c.isDigit :=
  List.mem_takeWhile_imp (List.mem_of_mem_take h)

theorem length_units_le (k : ℕ) (p : List Char) : (units k p).length ≤ k := by
  rw [units, List.length_take]
  exact Nat.min_le_left _ _

theorem units_append_drop (k : ℕ) (p : List Char) :
    units k p ++ p.drop (units k p).length = p := by
  have hdigits := List.takeWhile_prefix Char.isDigit (l := p)
  have htake := List.take_prefix k (p.takeWhile Char.isDigit)
  exact (List.prefix_iff_eq_append.mp (htake.trans hdigits))

theorem decimal_units_lt (k : ℕ) (p : List Char) :
    decimal (units k p) * 10 ^ (k - (units k p).length) < 10 ^ k := by
  have hlt := decimal_lt fun c hc => isDigit_of_mem_units (k := k) (p := p) hc
  have hk := length_units_le k p
  calc decimal (units k p) * 10 ^ (k - (units k p).length)
      < 10 ^ (units k p).length * 10 ^ (k - (units k p).length) :=
        Nat.mul_lt_mul_of_pos_right hlt (by positivity)
    _ = 10 ^ k := by rw [← pow_add, Nat.add_sub_cancel' hk]

/-- A digit at a place of weight `10 ^ k` leaves the weight below it for the next. -/
theorem readUnits_eq (k : ℕ) (u : ℤ) (p : List Char) (hu : 0 ≤ u) (hk : u + 10 ^ k < 2 ^ 63) :
    readUnits u (10 ^ k / 10) p =
      .ok (u + decimal (units k p) * 10 ^ (k - (units k p).length),
        p.drop (units k p).length) := by
  induction p generalizing k u with
  | nil => simp [readUnits, units, decimal, value]
  | cons c p ih =>
    cases k with
    | zero => simp [readUnits, units, decimal, value]
    | succ k =>
      have hweight : (10 : ℤ) ^ (k + 1) / 10 = 10 ^ k := by
        rw [pow_succ]
        exact Int.mul_ediv_cancel _ (by decide)
      have hpos : (0 : ℤ) < 10 ^ k := by positivity
      rw [readUnits, hweight]
      by_cases hc : c.isDigit
      · have hplace := place_lt hc
        have hunits : units (k + 1) (c :: p) = c :: units k p := by
          rw [units, List.takeWhile_cons_of_pos hc, List.take_succ_cons, units]
        have hlen := length_units_le k p
        have hdigit : (10 : ℤ) ^ k * place c ≤ 10 ^ k * 9 :=
          mul_le_mul_of_nonneg_left (by omega) hpos.le
        have hdigit_nonneg : (0 : ℤ) ≤ 10 ^ k * place c := by positivity
        rw [pow_succ] at hk
        rw [if_pos ⟨hc, hpos⟩, int64_bind (by linarith) (by linarith),
          int64_bind (by linarith) (by linarith), ih k _ (by linarith) (by linarith), hunits,
          decimal_cons, List.length_cons,
          Nat.add_sub_add_right, List.drop_succ_cons]
        congr 2
        push_cast
        rw [add_mul, mul_assoc, ← pow_add, Nat.add_sub_cancel' hlen]
        ring
      · have hunits : units (k + 1) (c :: p) = [] := by
          rw [units, List.takeWhile_cons_of_neg hc, List.take_nil]
        rw [if_neg (by simp [hc]), hunits]
        simp [decimal, value]

theorem readWhole_append {w : List Char} (hw : ∀ c ∈ w, c.isDigit) (strWhole p : List Char) :
    readWhole strWhole (w ++ p) = readWhole (strWhole ++ w) p := by
  induction w generalizing strWhole with
  | nil => rw [List.nil_append, List.append_nil]
  | cons c w ih =>
    have hc := hw c List.mem_cons_self
    rw [List.cons_append, readWhole, if_neg (isDigit_ne hc (by decide)),
      if_neg (by rw [isspace_of_isDigit hc]; decide), if_neg (not_not_intro hc),
      ih fun c' hc' => hw c' (List.mem_cons_of_mem c hc'), List.append_assoc,
      List.singleton_append]

theorem c_str_eq {s : List Char} (h : nul ∉ s) : c_str s = s := by
  rw [c_str, List.takeWhile_eq_self_iff]
  intro c hc
  simp only [ne_eq, decide_eq_true_eq]
  intro heq
  exact h (heq ▸ hc)

theorem atoi64_eq {w : List Char} (hw : ∀ c ∈ w, c.isDigit) (hlen : w.length ≤ 10) :
    atoi64 w = decimal w := by
  have hnul : nul ∉ w := fun h => absurd (hw nul h) (by decide)
  have hlt : decimal w < 10 ^ 10 :=
    (decimal_lt hw).trans_le (Nat.pow_le_pow_right (by decide) hlen)
  have hdrop : w.dropWhile isspace = w := by
    rw [List.dropWhile_eq_self_iff]
    intro hpos
    rw [isspace_of_isDigit (hw _ (List.getElem_mem hpos))]
    decide
  have hhead : ∀ c : Char, ¬ c.isDigit → w.head? ≠ some c := by
    intro c hc h
    exact hc (hw c (List.mem_of_head? h))
  have htake : w.takeWhile Char.isDigit = w := List.takeWhile_eq_self_iff.mpr hw
  rw [atoi64, c_str_eq hnul, strtoll, hdrop]
  rw [if_neg (hhead '-' (by decide)), if_neg, htake]
  · omega
  · exact not_or.mpr ⟨hhead '-' (by decide), hhead '+' (by decide)⟩

theorem finish_eq {w : List Char} (hw : ∀ c ∈ w, c.isDigit) {u : ℤ} (hu : 0 ≤ u ∧ u ≤ COIN)
    (p : List Char) :
    finish w u p = if p.all isspace ∧ w.length ≤ 10 then .ok (decimal w * COIN + u)
      else .error .refused := by
  obtain ⟨hlow, hhigh⟩ := hu
  have hcoin : COIN = 100000000 := rfl
  unfold finish
  by_cases hp : p.all isspace
  · by_cases hlen : w.length ≤ 10
    · have hlt : decimal w < 10 ^ 10 :=
        (decimal_lt hw).trans_le (Nat.pow_le_pow_right (by decide) hlen)
      have hvalue : (decimal w : ℤ) < 10 ^ 10 := by exact_mod_cast hlt
      have hvalue_nonneg : (0 : ℤ) ≤ decimal w := Int.natCast_nonneg _
      have hcoins : decimal w * COIN < 10 ^ 18 := by
        rw [hcoin]
        linarith
      have hcoins_nonneg : 0 ≤ decimal w * COIN := by
        rw [hcoin]
        linarith
      have hunits : u ≤ 100000000 := hhigh
      rw [if_neg (not_not_intro hp), if_neg (Nat.not_lt.mpr hlen),
        if_neg (not_or.mpr ⟨hlow.not_gt, hhigh.not_gt⟩), if_pos ⟨hp, hlen⟩, atoi64_eq hw hlen]
      rw [int64_bind (by linarith) (by linarith)]
      exact int64_eq (by linarith) (by linarith)
    · rw [if_neg (not_not_intro hp), if_pos (Nat.lt_of_not_le hlen), if_neg fun h => hlen h.2]
  · rw [if_pos hp, if_neg fun h => hp h.1]

theorem parseMoney_readWhole {psz w r : List Char} (hpsz : psz.dropWhile isspace = w ++ r)
    (hw : ∀ c ∈ w, c.isDigit) :
    parseMoney psz = (readWhole w r >>= fun x => finish x.1 x.2.1 x.2.2) := by
  rw [parseMoney, hpsz, readWhole_append hw, List.nil_append]

theorem parseMoney_point {psz w q : List Char} (hpsz : psz.dropWhile isspace = w ++ '.' :: q)
    (hw : ∀ c ∈ w, c.isDigit) :
    parseMoney psz =
      if (q.drop (units 8 q).length).all isspace ∧ w.length ≤ 10 then
        .ok (decimal w * COIN + decimal (units 8 q) * 10 ^ (8 - (units 8 q).length))
      else .error .refused := by
  have hmult : CENT * 10 = 10 ^ 8 / 10 := rfl
  have hlt : ((decimal (units 8 q) * 10 ^ (8 - (units 8 q).length) : ℕ) : ℤ) < 10 ^ 8 := by
    exact_mod_cast decimal_units_lt 8 q
  have hwhole : readWhole w ('.' :: q) =
      .ok (w, decimal (units 8 q) * 10 ^ (8 - (units 8 q).length),
        q.drop (units 8 q).length) := by
    rw [readWhole, if_pos rfl, hmult, readUnits_eq 8 0 q le_rfl (by norm_num), zero_add]
    rfl
  rw [parseMoney_readWhole hpsz hw, hwhole]
  apply finish_eq hw
  push_cast at hlt
  exact ⟨by positivity, hlt.le⟩

theorem parseMoney_noPoint {psz w r : List Char} (hpsz : psz.dropWhile isspace = w ++ r)
    (hw : ∀ c ∈ w, c.isDigit) (hr : ∀ c ∈ r.head?, isspace c) :
    parseMoney psz =
      if r.all isspace ∧ w.length ≤ 10 then .ok (decimal w * COIN + 0)
      else .error .refused := by
  have hwhole : readWhole w r = .ok (w, 0, r) := by
    cases r with
    | nil => rfl
    | cons c q =>
      have hspace : isspace c := hr c rfl
      have hne : c ≠ '.' := by
        intro heq
        subst heq
        exact absurd hspace (by decide)
      rw [readWhole, if_neg hne, if_pos hspace]
  rw [parseMoney_readWhole hpsz hw, hwhole]
  exact finish_eq hw ⟨le_rfl, by decide⟩ r

theorem parseMoney_refused {psz w q : List Char} {c : Char}
    (hpsz : psz.dropWhile isspace = w ++ c :: q) (hw : ∀ c ∈ w, c.isDigit) (hpoint : c ≠ '.')
    (hspace : ¬ isspace c) (hdigit : ¬ c.isDigit) : parseMoney psz = .error .refused := by
  rw [parseMoney_readWhole hpsz hw, readWhole, if_neg hpoint, if_neg hspace, if_pos hdigit]
  rfl

end Parsing

section Meaning

/-- The number that a text stands for in coins. Spaces may stand around it, and each of its two
runs of digits may be missing, as the point may where no digit follows it. -/
def Denotes (psz : List Char) (x : ℚ) : Prop :=
  ∃ before whole frac after : List Char,
    (∀ c ∈ before ++ after, isspace c) ∧ (∀ c ∈ whole ++ frac, c.isDigit) ∧
      (psz = before ++ (whole ++ '.' :: (frac ++ after)) ∨
        frac = [] ∧ psz = before ++ (whole ++ after)) ∧
      x = decimal whole + decimal frac / 10 ^ frac.length

theorem places_eq {k : ℕ} {f : List Char} (h : f.length ≤ k) :
    ((decimal f * 10 ^ (k - f.length) : ℤ) : ℚ) = decimal f / 10 ^ f.length * 10 ^ k := by
  obtain ⟨j, rfl⟩ := Nat.exists_eq_add_of_le h
  rw [Nat.add_sub_cancel_left, pow_add]
  push_cast
  field_simp

theorem takeWhile_digits {w r : List Char} (hw : ∀ c ∈ w, c.isDigit)
    (hr : ∀ c ∈ r.head?, ¬ c.isDigit) :
    (w ++ r).takeWhile Char.isDigit = w ∧ (w ++ r).dropWhile Char.isDigit = r := by
  rw [List.takeWhile_append_of_pos hw, List.dropWhile_append_of_pos hw]
  cases r with
  | nil => exact ⟨List.append_nil w, rfl⟩
  | cons c q =>
    have hc := hr c rfl
    rw [List.takeWhile_cons_of_neg hc, List.dropWhile_cons_of_neg hc]
    exact ⟨List.append_nil w, rfl⟩

theorem dropWhile_isspace_point {w : List Char} (hw : ∀ c ∈ w, c.isDigit) (q : List Char) :
    (w ++ '.' :: q).dropWhile isspace = w ++ '.' :: q := by
  cases w with
  | nil => exact List.dropWhile_cons_of_neg (by decide)
  | cons c w =>
    apply List.dropWhile_cons_of_neg
    simp [isspace_of_isDigit (hw c List.mem_cons_self)]

theorem not_isDigit_of_isspace {c : Char} (h : isspace c) : ¬ c.isDigit := by
  intro hdigit
  rw [isspace_of_isDigit hdigit] at h
  exact Bool.false_ne_true h

theorem takeWhile_isDigit_spaces {s : List Char} (h : ∀ c ∈ s, isspace c) :
    s.takeWhile Char.isDigit = [] := by
  cases s with
  | nil => rfl
  | cons c s => exact List.takeWhile_cons_of_neg (not_isDigit_of_isspace (h c List.mem_cons_self))

/-- The digits in front of the point and those behind it, as they stand in the text. -/
theorem denotes_eq {psz : List Char} {x : ℚ} (h : Denotes psz x) :
    ∃ p w f, psz.dropWhile isspace = p ∧ p.takeWhile Char.isDigit = w ∧
      (p.dropWhile Char.isDigit).tail.takeWhile Char.isDigit = f ∧
      x = decimal w + decimal f / 10 ^ f.length := by
  obtain ⟨before, w, f, after, hspaces, hdigits, hpsz, rfl⟩ := h
  have hbefore : ∀ c ∈ before, isspace c := fun c hc => hspaces c (List.mem_append_left _ hc)
  have hafter : ∀ c ∈ after, isspace c := fun c hc => hspaces c (List.mem_append_right _ hc)
  have hw : ∀ c ∈ w, c.isDigit := fun c hc => hdigits c (List.mem_append_left _ hc)
  have hf : ∀ c ∈ f, c.isDigit := fun c hc => hdigits c (List.mem_append_right _ hc)
  have hhead : ∀ c ∈ after.head?, ¬ c.isDigit :=
    fun c hc => not_isDigit_of_isspace (hafter c (List.mem_of_head? hc))
  rcases hpsz with rfl | ⟨rfl, rfl⟩
  · have hpoint : ∀ c ∈ ('.' :: (f ++ after)).head?, ¬ c.isDigit := by
      intro c hc
      rw [← Option.some.inj hc]
      decide
    obtain ⟨htake, hrest⟩ := takeWhile_digits hw hpoint
    have hstop := dropWhile_isspace_point hw (f ++ after)
    refine ⟨_, w, f, rfl, ?_, ?_, rfl⟩
    · rw [List.dropWhile_append_of_pos hbefore, hstop, htake]
    · rw [List.dropWhile_append_of_pos hbefore, hstop, hrest, List.tail_cons]
      exact (takeWhile_digits hf hhead).1
  · cases w with
    | nil =>
      have hall : (before ++ ([] ++ after)).dropWhile isspace = [] := by
        rw [List.dropWhile_eq_nil_iff]
        simpa using hspaces
      exact ⟨_, [], [], hall, rfl, rfl, rfl⟩
    | cons c w =>
      obtain ⟨htake, hrest⟩ := takeWhile_digits hw hhead
      have hstop : (c :: w ++ after).dropWhile isspace = c :: w ++ after := by
        apply List.dropWhile_cons_of_neg
        simp [isspace_of_isDigit (hw c List.mem_cons_self)]
      refine ⟨_, c :: w, [], rfl, ?_, ?_, rfl⟩
      · rw [List.dropWhile_append_of_pos hbefore, hstop, htake]
      · rw [List.dropWhile_append_of_pos hbefore, hstop, hrest]
        exact takeWhile_isDigit_spaces fun d hd => hafter d (List.mem_of_mem_tail hd)

/-- A text stands for one number at most. -/
theorem denotes_unique {psz : List Char} {x y : ℚ} (hx : Denotes psz x) (hy : Denotes psz y) :
    x = y := by
  obtain ⟨p, w, f, rfl, rfl, rfl, rfl⟩ := denotes_eq hx
  obtain ⟨p, w, f, rfl, rfl, rfl, rfl⟩ := denotes_eq hy
  rfl

/-- Every text is spaces, digits, and a rest that begins with no digit. -/
theorem exists_digits (psz : List Char) :
    ∃ before w r, psz = before ++ (w ++ r) ∧ psz.dropWhile isspace = w ++ r ∧
      (∀ c ∈ before, isspace c) ∧ (∀ c ∈ w, c.isDigit) ∧ ∀ c ∈ r.head?, ¬ c.isDigit := by
  obtain ⟨p, hp⟩ : ∃ p, psz.dropWhile isspace = p := ⟨_, rfl⟩
  refine ⟨psz.takeWhile isspace, p.takeWhile Char.isDigit, p.dropWhile Char.isDigit, ?_, ?_, ?_,
    ?_, ?_⟩
  · rw [List.takeWhile_append_dropWhile, ← hp, List.takeWhile_append_dropWhile]
  · rw [List.takeWhile_append_dropWhile, hp]
  · exact fun c hc => List.mem_takeWhile_imp hc
  · exact fun c hc => List.mem_takeWhile_imp hc
  · intro c hc
    have h := List.head?_dropWhile_not Char.isDigit p
    rw [Option.mem_def.mp hc] at h
    simpa using h

theorem exact_noPoint {psz before w after : List Char} (hpsz : psz = before ++ (w ++ after))
    (hbefore : ∀ c ∈ before, isspace c) (hw : ∀ c ∈ w, c.isDigit)
    (hafter : ∀ c ∈ after, isspace c) :
    ∃ x : ℚ, Denotes psz x ∧ ((decimal w * COIN + 0 : ℤ) : ℚ) = x * (COIN : ℤ) := by
  refine ⟨decimal w, ⟨before, w, [], after, ?_, ?_, Or.inr ⟨rfl, hpsz⟩, ?_⟩, ?_⟩
  · exact fun c hc => (List.mem_append.mp hc).elim (hbefore c) (hafter c)
  · simpa using hw
  · simp [decimal, value]
  · push_cast
    ring

theorem exact_point {psz before w q : List Char} (hpsz : psz = before ++ (w ++ '.' :: q))
    (hbefore : ∀ c ∈ before, isspace c) (hw : ∀ c ∈ w, c.isDigit)
    (hafter : (q.drop (units 8 q).length).all isspace) :
    ∃ x : ℚ, Denotes psz x ∧
      ((decimal w * COIN + decimal (units 8 q) * 10 ^ (8 - (units 8 q).length) : ℤ) : ℚ) =
        x * (COIN : ℤ) := by
  have hcoin : ((COIN : ℤ) : ℚ) = 10 ^ 8 := by norm_num [COIN]
  have hplaces := places_eq (length_units_le 8 q)
  refine ⟨decimal w + decimal (units 8 q) / 10 ^ (units 8 q).length,
    ⟨before, w, units 8 q, q.drop (units 8 q).length, ?_, ?_, Or.inl ?_, rfl⟩, ?_⟩
  · exact fun c hc => (List.mem_append.mp hc).elim (hbefore c) (List.all_eq_true.mp hafter c)
  · exact fun c hc => (List.mem_append.mp hc).elim (hw c) isDigit_of_mem_units
  · rw [units_append_drop, hpsz]
  · rw [Int.cast_add, hplaces, Int.cast_mul, hcoin, Int.cast_natCast]
    ring

/-- What ParseMoney does with a text: it refuses, or returns what the text stands for. -/
theorem parseMoney_outcome (psz : List Char) :
    parseMoney psz = .error .refused ∨
      ∃ (v : ℤ) (x : ℚ), parseMoney psz = .ok v ∧ Denotes psz x ∧ (v : ℚ) = x * COIN := by
  obtain ⟨before, w, r, hpsz, hdrop, hbefore, hw, hr⟩ := exists_digits psz
  by_cases hspace : ∀ c ∈ r.head?, isspace c
  · rw [parseMoney_noPoint hdrop hw hspace]
    split_ifs with h
    · obtain ⟨x, hx, hv⟩ := exact_noPoint hpsz hbefore hw (List.all_eq_true.mp h.1)
      exact Or.inr ⟨_, x, rfl, hx, hv⟩
    · exact Or.inl rfl
  · -- the rest is not empty, and begins with neither a digit nor a space
    cases r with
    | nil => exact absurd (fun c hc => by simp at hc) hspace
    | cons c q =>
      have hc : ¬ isspace c := fun h => hspace fun d hd => Option.some.inj hd ▸ h
      by_cases hpoint : c = '.'
      · subst hpoint
        rw [parseMoney_point hdrop hw]
        split_ifs with h
        · obtain ⟨x, hx, hv⟩ := exact_point hpsz hbefore hw h.1
          exact Or.inr ⟨_, x, rfl, hx, hv⟩
        · exact Or.inl rfl
      · exact Or.inl (parseMoney_refused hdrop hw hpoint hc (hr c rfl))

end Meaning

section Formatting

theorem isDigit_of_mem_printed {n : ℕ} {c : Char} (h : c ∈ printed n) : c.isDigit := by
  unfold printed at h
  split_ifs at h with hn
  · rw [List.mem_singleton.mp h]
    decide
  · obtain ⟨d, hd, rfl⟩ := List.mem_map.mp h
    exact isDigit_digit (Nat.digits_lt_base (by decide) (List.mem_reverse.mp hd))

theorem decimal_printed (n : ℕ) : decimal (printed n) = n := by
  unfold printed
  split_ifs with hn
  · rw [hn]
    rfl
  · have hplaces : (Nat.digits 10 n).reverse.map (place ∘ digit) = (Nat.digits 10 n).reverse := by
      rw [List.map_congr_left (g := id), List.map_id]
      intro d hd
      exact place_digit (Nat.digits_lt_base (by decide) (List.mem_reverse.mp hd))
    rw [decimal, List.map_map, hplaces, value, List.reverse_reverse, Nat.ofDigits_digits]

theorem length_printed_le {n k : ℕ} (hk : 0 < k) (h : n < 10 ^ k) : (printed n).length ≤ k := by
  unfold printed
  split_ifs with hn
  · exact hk
  · rw [List.length_map, List.length_reverse]
    exact (Nat.digits_length_le_iff (by decide) n).mpr h

theorem isDigit_of_mem_padded {n : ℕ} {c : Char} (h : c ∈ padded n) : c.isDigit := by
  rcases List.mem_append.mp h with h | h
  · rw [List.eq_of_mem_replicate h]
    decide
  · exact isDigit_of_mem_printed h

theorem length_padded {n : ℕ} (h : n < 10 ^ 8) : (padded n).length = 8 := by
  have hlen := length_printed_le (by decide) h
  rw [padded, List.length_append, List.length_replicate]
  omega

theorem decimal_padded (n : ℕ) : decimal (padded n) = n := by
  rw [padded, decimal_append, decimal_zeros, decimal_printed]
  omega

/-- The loop takes zeros away from the digits behind the point only. -/
theorem trim_eq {f : List Char} (hf : ∀ c ∈ f, c.isDigit) (hlen : 2 ≤ f.length) (w : List Char) :
    ∃ z f', f = List.replicate z '0' ++ f' ∧ trim (f ++ '.' :: w) = f' ++ '.' :: w := by
  induction f with
  | nil => exact absurd hlen (by decide)
  | cons a f ih =>
    have hf' : ∀ c ∈ f, c.isDigit := fun c hc => hf c (List.mem_cons_of_mem a hc)
    cases f with
    | nil => simp at hlen
    | cons b f =>
      cases f with
      | nil =>
        -- behind the two digits stands the point
        refine ⟨0, [a, b], rfl, ?_⟩
        exact if_neg fun h => absurd h.2 (by decide)
      | cons c f =>
        have hc : c.isDigit := hf' c (List.mem_cons_of_mem b List.mem_cons_self)
        by_cases ha : a = '0'
        · obtain ⟨z, f', hzeros, htrim⟩ := ih hf' (by simp)
          refine ⟨z + 1, f', ?_, ?_⟩
          · rw [hzeros, ha]
            rfl
          · exact (if_pos ⟨ha, hc⟩).trans htrim
        · refine ⟨0, a :: b :: c :: f, rfl, ?_⟩
          exact if_neg fun h => ha h.1

/-- The text of an amount without its sign. -/
theorem trimmed_eq (q : ℕ) {r : ℕ} (hr : r < 10 ^ 8) :
    ∃ f z, padded r = f ++ List.replicate z '0' ∧
      (trim (printed q ++ '.' :: padded r).reverse).reverse = printed q ++ '.' :: f := by
  have hdigits : ∀ c ∈ (padded r).reverse, c.isDigit :=
    fun c hc => isDigit_of_mem_padded (List.mem_reverse.mp hc)
  obtain ⟨z, f, hzeros, htrim⟩ := trim_eq hdigits
    (by rw [List.length_reverse, length_padded hr]; decide) (printed q).reverse
  refine ⟨f.reverse, z, ?_, ?_⟩
  · rw [← List.reverse_reverse (padded r), hzeros, List.reverse_append, List.reverse_replicate]
  · have hreverse : (printed q ++ '.' :: padded r).reverse =
        (padded r).reverse ++ '.' :: (printed q).reverse := by simp
    rw [hreverse, htrim]
    simp

theorem formatMoney_of_nonneg {n : ℤ} (h : 0 ≤ n) :
    formatMoney n false =
      .ok (trim (printed (n / COIN).toNat ++ '.' :: padded (n % COIN).toNat).reverse).reverse := by
  have habs : (if n > 0 then .ok n else int64 (-n) : Except Failure ℤ) = .ok n := by
    split_ifs with hpos
    · rfl
    · rw [le_antisymm (not_lt.mp hpos) h]
      rfl
  rw [formatMoney, habs]
  exact (if_neg (not_lt.mpr h)).trans (if_neg fun hplus => Bool.false_ne_true hplus.1)

theorem formatMoney_neg {n : ℤ} (h : 0 < n) (hn : n < 2 ^ 63) {text : List Char}
    (htext : formatMoney n false = .ok text) : formatMoney (-n) false = .ok ('-' :: text) := by
  rw [formatMoney_of_nonneg h.le] at htext
  rw [← Except.ok.inj htext, formatMoney, if_neg (by omega), neg_neg, int64_bind (by omega) hn]
  exact if_pos (by omega)

end Formatting

section RoundTrip

/-- What FormatMoney writes is read back. -/
theorem parseMoneyStr_formatMoney {n : ℤ} (h : 0 ≤ n) (hn : n < 10 ^ 18) :
    ∃ text, formatMoney n false = .ok text ∧ parseMoneyStr text = .ok n := by
  have hcoin : COIN = 100000000 := rfl
  obtain ⟨q, hq⟩ : ∃ q : ℕ, n / COIN = q :=
    Int.eq_ofNat_of_zero_le (Int.ediv_nonneg h (by decide))
  obtain ⟨r, hr⟩ : ∃ r : ℕ, n % COIN = r :=
    Int.eq_ofNat_of_zero_le (Int.emod_nonneg n (by decide))
  have hparts : q * COIN + r = n := by rw [← hq, ← hr, Int.ediv_mul_add_emod]
  have hrlt : r < 10 ^ 8 := by
    have hmod : n % COIN < COIN := Int.emod_lt_of_pos n (by decide)
    rw [hr, hcoin] at hmod
    omega
  have hqlt : q < 10 ^ 10 := by
    rw [hcoin] at hparts
    omega
  obtain ⟨f, z, hpadded, htrim⟩ := trimmed_eq q hrlt
  have hf : ∀ c ∈ f, c.isDigit := by
    intro c hc
    apply isDigit_of_mem_padded (n := r)
    rw [hpadded]
    exact List.mem_append_left _ hc
  have hlen : f.length + z = 8 := by
    rw [← length_padded hrlt, hpadded, List.length_append, List.length_replicate]
  have hvalue : decimal f * 10 ^ z = r := by
    rw [← decimal_padded r, hpadded, decimal_append, List.length_replicate, decimal_zeros]
    rfl
  refine ⟨printed q ++ '.' :: f, ?_, ?_⟩
  · rw [formatMoney_of_nonneg h, hq, hr, ← htrim]
    rfl
  · have hprinted : ∀ c ∈ printed q, c.isDigit := fun c hc => isDigit_of_mem_printed hc
    have hstart := dropWhile_isspace_point hprinted f
    have hunits : units 8 f = f := by
      rw [units, List.takeWhile_eq_self_iff.mpr hf, List.take_of_length_le (by omega)]
    have hnul : nul ∉ printed q ++ '.' :: f := by
      intro hmem
      rcases List.mem_append.mp hmem with hmem | hmem
      · exact absurd (hprinted nul hmem) (by decide)
      · rcases List.mem_cons.mp hmem with hmem | hmem
        · exact absurd hmem (by decide)
        · exact absurd (hf nul hmem) (by decide)
    have hz : 8 - f.length = z := by omega
    rw [parseMoneyStr, c_str_eq hnul, parseMoney_point hstart hprinted, hunits,
      List.drop_length, if_pos ⟨rfl, length_printed_le (by decide) hqlt⟩, hz, decimal_printed,
      ← hparts, ← hvalue]
    push_cast
    rfl

/-- What is written is read back, a minus sign stands in front of what is below zero, and what is
read is what the text stands for, with no overflow on the way. -/
theorem parseMoney_exact :
    (∀ n : ℤ, 0 ≤ n → n < 10 ^ 18 →
      ∃ text, formatMoney n false = .ok text ∧ parseMoneyStr text = .ok n) ∧
    (∀ n : ℤ, 0 < n → n < 10 ^ 18 →
      ∃ text, formatMoney n false = .ok text ∧ formatMoney (-n) false = .ok ('-' :: text)) ∧
    ∀ str, parseMoneyStr str ≠ .error .overflow ∧
      ∀ v, parseMoneyStr str = .ok v → ∃ x, Denotes (c_str str) x ∧ (v : ℚ) = x * COIN := by
  refine ⟨fun n h hn => parseMoneyStr_formatMoney h hn, ?_, ?_⟩
  · intro n h hn
    obtain ⟨text, htext, -⟩ := parseMoneyStr_formatMoney h.le hn
    exact ⟨text, htext, formatMoney_neg h (hn.trans (by norm_num)) htext⟩
  · intro str
    rcases parseMoney_outcome (c_str str) with h | ⟨v, x, h, hx, hv⟩
    · have hstr : parseMoneyStr str = .error .refused := h
      constructor
      · rw [hstr]
        decide
      · intro v hv
        rw [hstr] at hv
        cases hv
    · have hstr : parseMoneyStr str = .ok v := h
      constructor
      · intro hover
        rw [hstr] at hover
        cases hover
      · intro v' hv'
        rw [hstr] at hv'
        exact ⟨x, hx, by rw [← Except.ok.inj hv', hv]⟩

theorem parseMoney_exact_cent :
    (∃ text, formatMoney 1000000 false = .ok text ∧ parseMoneyStr text = .ok 1000000) ∧
      ∃ text, formatMoney 1000000 false = .ok text ∧
        formatMoney (-1000000) false = .ok ('-' :: text) :=
  ⟨parseMoney_exact.1 1000000 (by norm_num) (by norm_num),
    parseMoney_exact.2.1 1000000 (by norm_num) (by norm_num)⟩

/-- A text that stands for a number has spaces, digits and a point in it. -/
theorem Denotes.char {psz : List Char} {x : ℚ} (h : Denotes psz x) {c : Char} (hc : c ∈ psz) :
    isspace c ∨ c.isDigit ∨ c = '.' := by
  obtain ⟨before, whole, frac, after, hspaces, hdigits, htext, -⟩ := h
  obtain rfl | ⟨-, rfl⟩ := htext <;> simp only [List.mem_append, List.mem_cons] at hc hspaces hdigits
  · obtain hc | hc | hc | hc | hc := hc
    · exact Or.inl (hspaces c (Or.inl hc))
    · exact Or.inr (Or.inl (hdigits c (Or.inl hc)))
    · exact Or.inr (Or.inr hc)
    · exact Or.inr (Or.inl (hdigits c (Or.inr hc)))
    · exact Or.inl (hspaces c (Or.inr hc))
  · obtain hc | hc | hc := hc
    · exact Or.inl (hspaces c (Or.inl hc))
    · exact Or.inr (Or.inl (hdigits c (Or.inl hc)))
    · exact Or.inl (hspaces c (Or.inr hc))

/-- Zero has no sign, and what stands behind a NUL is not read. -/
theorem formatMoney_zero_parseMoney_nul :
    (¬ ∀ n : ℤ, 0 ≤ n → n < 10 ^ 18 →
      ∃ text, formatMoney n false = .ok text ∧ formatMoney (-n) false = .ok ('-' :: text)) ∧
    ¬ ∀ str v, parseMoneyStr str = .ok v → ∃ x, Denotes str x ∧ (v : ℚ) = x * COIN := by
  constructor
  · intro h
    obtain ⟨text, htext, hneg⟩ := h 0 le_rfl (by norm_num)
    rw [neg_zero, htext] at hneg
    have hlen := congrArg List.length (Except.ok.inj hneg)
    rw [List.length_cons] at hlen
    omega
  · intro h
    obtain ⟨x, hx, -⟩ := h ['1', nul, '2'] COIN (by decide)
    have hnul := hx.char (c := nul) (by decide)
    revert hnul
    decide

end RoundTrip

end UmbrellaLtc.MoneyText
