import UmbrellaLtc.Limbs
import UmbrellaLtc.MergedMineProxy

/-!
base_uint of uint256.h: an unsigned integer as an array of words of 32 bits, the least
significant word first. The operators go through the words, with a carry in 64 bits, or with
one word that is split over two others at a shift; text is read into the bytes of the words.
-/

namespace UmbrellaLtc.UintWords

open Limbs Codec Hex

abbrev Word := BitVec 32

/-- `uint32_t pn[WIDTH]`. -/
structure BaseUint (WIDTH : ℕ) where
  pn : List Word
  width : pn.length = WIDTH
deriving DecidableEq

variable {WIDTH : ℕ}

def BaseUint.value (a : BaseUint WIDTH) : ℕ := Limbs.value a.pn

section Carries

/-- The loop of `operator+=`. -/
def addLoop (carry : BitVec 64) : List Word → List Word → List Word
  | x :: a, y :: b =>
      let n := carry + x.setWidth 64 + y.setWidth 64
      (n &&& 0xffffffff).setWidth 32 :: addLoop (n >>> 32) a b
  | _, _ => []

/-- `while (++pn[i] == 0 && i < WIDTH-1) i++;` -/
def increment : List Word → List Word
  | [] => []
  | x :: a => (x + 1) :: if x + 1 = 0 ∧ a ≠ [] then increment a else a

/-- `while (--pn[i] == -1 && i < WIDTH-1) i++;` -/
def decrement : List Word → List Word
  | [] => []
  | x :: a => (x - 1) :: if x - 1 = -1 ∧ a ≠ [] then decrement a else a

theorem addLoop_length (carry : BitVec 64) {a b : List Word} (h : a.length = b.length) :
    (addLoop carry a b).length = a.length := by
  induction a generalizing carry b with
  | nil => rfl
  | cons x a ih =>
    cases b with
    | nil => cases h
    | cons y b => exact congrArg (· + 1) (ih _ (Nat.succ.inj h))

theorem increment_length (a : List Word) : (increment a).length = a.length := by
  induction a with
  | nil => rfl
  | cons x a ih =>
    unfold increment
    rw [List.length_cons, List.length_cons]
    split_ifs
    · rw [ih]
    · rfl

theorem decrement_length (a : List Word) : (decrement a).length = a.length := by
  induction a with
  | nil => rfl
  | cons x a ih =>
    unfold decrement
    rw [List.length_cons, List.length_cons]
    split_ifs
    · rw [ih]
    · rfl

/-- The words of the sum, with the carry that goes in. -/
theorem value_addLoop {carry : BitVec 64} (hcarry : carry.toNat ≤ 1) {a b : List Word}
    (h : a.length = b.length) :
    value (addLoop carry a b) = (value a + value b + carry.toNat) % modulus 32 a.length := by
  induction a generalizing carry b with
  | nil => exact (Nat.mod_one _).symm
  | cons x a ih =>
    cases b with
    | nil => cases h
    | cons y b =>
      have hx := x.isLt
      have hy := y.isLt
      let n := carry + x.setWidth 64 + y.setWidth 64
      have hn : n.toNat = carry.toNat + x.toNat + y.toNat := by
        show (carry + x.setWidth 64 + y.setWidth 64).toNat = _
        rw [BitVec.toNat_add, BitVec.toNat_add, BitVec.toNat_setWidth, BitVec.toNat_setWidth]
        omega
      have hhigh : (n >>> 32).toNat = n.toNat / 2 ^ 32 := by
        rw [BitVec.toNat_ushiftRight, Nat.shiftRight_eq_div_pow]
      have hlow : ((n &&& 0xffffffff).setWidth 32).toNat = n.toNat % 2 ^ 32 := by
        have hand : n.toNat &&& 0xffffffff = n.toNat % 2 ^ 32 :=
          Nat.and_two_pow_sub_one_eq_mod n.toNat 32
        rw [BitVec.toNat_setWidth, BitVec.toNat_and]
        show (n.toNat &&& 0xffffffff) % 2 ^ 32 = _
        rw [hand, Nat.mod_mod]
      have hrest := @ih (n >>> 32) (by rw [hhigh, hn]; omega) b (Nat.succ.inj h)
      show ((n &&& 0xffffffff).setWidth 32).toNat + 2 ^ 32 * value (addLoop (n >>> 32) a b) = _
      rw [hrest, hlow, hhigh, List.length_cons, modulus_succ, Nat.mod_mul]
      have hsum : value (x :: a) + value (y :: b) + carry.toNat =
          n.toNat + 2 ^ 32 * (value a + value b) := by
        rw [hn, value, value]
        ring
      rw [hsum, Nat.add_mul_mod_self_left, Nat.add_mul_div_left _ _ (Nat.two_pow_pos 32)]
      congr 3
      omega

theorem value_increment (a : List Word) :
    value (increment a) = (value a + 1) % modulus 32 a.length := by
  induction a with
  | nil => exact (Nat.mod_one _).symm
  | cons x a ih =>
    have hx := x.isLt
    have hone : (x + 1).toNat = (x.toNat + 1) % 2 ^ 32 := BitVec.toNat_add x 1
    have hlt := value_lt (x :: a)
    rw [List.length_cons, modulus_succ] at hlt ⊢
    unfold increment
    rw [value] at hlt ⊢
    rw [hone, value]
    by_cases hzero : x + 1 = 0
    · have hmax : x.toNat = 2 ^ 32 - 1 := by
        rw [hzero] at hone
        change 0 = _ at hone
        omega
      have hnext : x.toNat + 2 ^ 32 * value a + 1 = 2 ^ 32 * (value a + 1) := by
        rw [hmax]
        ring
      rw [hnext, Nat.mul_mod_mul_left]
      by_cases hlast : a = []
      · subst hlast
        rw [if_neg fun h => h.2 rfl, hmax]
        rfl
      · rw [if_pos ⟨hzero, hlast⟩, ih, hmax]
        omega
    · have hsmall : x.toNat + 1 < 2 ^ 32 := by
        by_contra hlarge
        apply hzero
        apply BitVec.eq_of_toNat_eq
        rw [hone]
        show _ = 0
        omega
      have hstay : x.toNat + 2 ^ 32 * value a + 1 < 2 ^ 32 * modulus 32 a.length := by
        have hva := value_lt a
        have hle : 2 ^ 32 * (value a + 1) ≤ 2 ^ 32 * modulus 32 a.length :=
          Nat.mul_le_mul_left _ hva
        rw [Nat.mul_succ] at hle
        omega
      rw [if_neg fun h => hzero h.1, Nat.mod_eq_of_lt hsmall, Nat.mod_eq_of_lt hstay]
      omega

/-- The decrement, without a subtraction. -/
theorem value_decrement (a : List Word) :
    value a = (value (decrement a) + 1) % modulus 32 a.length := by
  induction a with
  | nil => exact (Nat.mod_one _).symm
  | cons x a ih =>
    have hx := x.isLt
    have hback : ((x - 1) + 1).toNat = ((x - 1).toNat + 1) % 2 ^ 32 := BitVec.toNat_add (x - 1) 1
    rw [BitVec.sub_add_cancel] at hback
    have hy := (x - 1).isLt
    rw [List.length_cons, modulus_succ]
    unfold decrement
    rw [value, value]
    by_cases hmax : x - 1 = -1
    · have hall : (x - 1).toNat = 2 ^ 32 - 1 := by
        rw [hmax]
        rfl
      have hzero : x.toNat = 0 := by
        rw [hall] at hback
        exact hback
      have hnext : ∀ v, (x - 1).toNat + 2 ^ 32 * v + 1 = 2 ^ 32 * (v + 1) := by
        intro v
        rw [hall]
        ring
      rw [hnext, Nat.mul_mod_mul_left, hzero]
      by_cases hlast : a = []
      · subst hlast
        rw [if_neg fun h => h.2 rfl]
        rfl
      · rw [if_pos ⟨hmax, hlast⟩, ← ih, Nat.zero_add]
    · have hsmall : (x - 1).toNat + 1 < 2 ^ 32 := by
        by_contra hlarge
        apply hmax
        apply BitVec.eq_of_toNat_eq
        show _ = 2 ^ 32 - 1
        omega
      have hva := value_lt a
      have hle : 2 ^ 32 * (value a + 1) ≤ 2 ^ 32 * modulus 32 a.length :=
        Nat.mul_le_mul_left _ hva
      rw [Nat.mul_succ] at hle
      rw [if_neg fun h => hmax h.1, Nat.mod_eq_of_lt (by omega), hback, Nat.mod_eq_of_lt hsmall]
      omega

end Carries

section Shifts

/-- `pn[j] |= x`. -/
def orAt (pn : List Word) (j : ℕ) (x : Word) : List Word := pn.set j (pn.getD j 0 ||| x)

/-- The body of the loop in `operator<<=`, for the word `i` of the copy. -/
def leftRound (a : List Word) (k shift : ℕ) (pn : List Word) (i : ℕ) : List Word :=
  let pn :=
    if i + k + 1 < a.length ∧ shift ≠ 0 then orAt pn (i + k + 1) (a.getD i 0 >>> (32 - shift))
    else pn
  if i + k < a.length then orAt pn (i + k) (a.getD i 0 <<< shift) else pn

/-- The body of the loop in `operator>>=`. -/
def rightRound (a : List Word) (k shift : ℕ) (pn : List Word) (i : ℕ) : List Word :=
  let pn :=
    if k + 1 ≤ i ∧ shift ≠ 0 then orAt pn (i - k - 1) (a.getD i 0 <<< (32 - shift)) else pn
  if k ≤ i then orAt pn (i - k) (a.getD i 0 >>> shift) else pn

def shiftLoop (round : List Word → ℕ → ℕ → List Word → ℕ → List Word) (a : List Word)
    (shift : BitVec 32) : List Word :=
  (List.range a.length).foldl (round a (shift.toNat / 32) (shift.toNat % 32))
    (List.replicate a.length 0)

@[simp] theorem orAt_length (pn : List Word) (j : ℕ) (x : Word) :
    (orAt pn j x).length = pn.length := List.length_set

theorem getD_orAt {pn : List Word} {j : ℕ} (x : Word) (hj : j < pn.length) (m : ℕ) :
    (orAt pn j x).getD m 0 = if m = j then pn.getD m 0 ||| x else pn.getD m 0 := by
  unfold orAt
  rw [List.getD_eq_getElem?_getD, List.getElem?_set]
  by_cases hm : j = m
  · subst hm
    rw [if_pos rfl, if_pos hj, if_pos rfl]
    rfl
  · rw [if_neg hm, if_neg (Ne.symm hm), List.getD_eq_getElem?_getD]

theorem leftRound_length (a : List Word) (k shift : ℕ) (pn : List Word) (i : ℕ) :
    (leftRound a k shift pn i).length = pn.length := by
  unfold leftRound
  dsimp only
  split_ifs <;> simp

theorem rightRound_length (a : List Word) (k shift : ℕ) (pn : List Word) (i : ℕ) :
    (rightRound a k shift pn i).length = pn.length := by
  unfold rightRound
  dsimp only
  split_ifs <;> simp

/-- Two words of the copy meet in a word of the result. -/
def leftWord (a : List Word) (k shift rounds m : ℕ) : Word :=
  (if k + 1 ≤ m ∧ m - k - 1 < rounds ∧ shift ≠ 0 then a.getD (m - k - 1) 0 >>> (32 - shift)
    else 0) |||
  if k ≤ m ∧ m - k < rounds then a.getD (m - k) 0 <<< shift else 0

def rightWord (a : List Word) (k shift rounds m : ℕ) : Word :=
  (if m + k < rounds then a.getD (m + k) 0 >>> shift else 0) |||
  if m + k + 1 < rounds ∧ shift ≠ 0 then a.getD (m + k + 1) 0 <<< (32 - shift) else 0

theorem or_zero (x : Word) : x ||| 0 = x := BitVec.or_zero

theorem zero_or (x : Word) : 0 ||| x = x := BitVec.zero_or

/-- A write under a condition that keeps it inside. -/
theorem getD_guarded {pn : List Word} {j : ℕ} {c : Prop} [Decidable c] (x : Word)
    (hj : c → j < pn.length) (m : ℕ) :
    (if c then orAt pn j x else pn).getD m 0 = pn.getD m 0 ||| if c ∧ m = j then x else 0 := by
  by_cases hc : c
  · rw [if_pos hc, getD_orAt x (hj hc)]
    by_cases hm : m = j
    · rw [if_pos hm, if_pos ⟨hc, hm⟩]
    · rw [if_neg hm, if_neg fun h => hm h.2, or_zero]
  · rw [if_neg hc, if_neg fun h => hc h.1, or_zero]

theorem leftRounds_spec (a : List Word) (k shift rounds : ℕ) :
    ((List.range rounds).foldl (leftRound a k shift) (List.replicate a.length 0)).length =
        a.length ∧
      ∀ m < a.length,
        ((List.range rounds).foldl (leftRound a k shift) (List.replicate a.length 0)).getD m 0 =
          leftWord a k shift rounds m := by
  induction rounds with
  | zero =>
    refine ⟨List.length_replicate, fun m hm => ?_⟩
    unfold leftWord
    simp [hm]
  | succ rounds ih =>
    obtain ⟨hlen, hword⟩ := ih
    rw [List.range_succ, List.foldl_append]
    generalize (List.range rounds).foldl (leftRound a k shift) (List.replicate a.length 0) = pn
      at hlen hword
    refine ⟨(leftRound_length a k shift pn rounds).trans hlen, fun m hm => ?_⟩
    have hhigh : (if k + 1 ≤ m ∧ m - k - 1 < rounds + 1 ∧ shift ≠ 0 then
          a.getD (m - k - 1) 0 >>> (32 - shift) else 0) =
        (if k + 1 ≤ m ∧ m - k - 1 < rounds ∧ shift ≠ 0 then
          a.getD (m - k - 1) 0 >>> (32 - shift) else 0) |||
        if (rounds + k + 1 < a.length ∧ shift ≠ 0) ∧ m = rounds + k + 1 then
          a.getD rounds 0 >>> (32 - shift) else 0 := by
      by_cases hnew : shift ≠ 0 ∧ m = rounds + k + 1
      · obtain ⟨hshift, rfl⟩ := hnew
        have hback : rounds + k + 1 - k - 1 = rounds := by omega
        rw [if_pos (by omega), if_neg (by omega), if_pos ⟨⟨hm, hshift⟩, rfl⟩, hback,
          zero_or]
      · have hout : ¬ ((rounds + k + 1 < a.length ∧ shift ≠ 0) ∧ m = rounds + k + 1) :=
          fun h => hnew ⟨h.1.2, h.2⟩
        rw [if_neg hout, or_zero]
        exact if_congr (by omega) rfl rfl
    have hlow : (if k ≤ m ∧ m - k < rounds + 1 then a.getD (m - k) 0 <<< shift else 0) =
        (if k ≤ m ∧ m - k < rounds then a.getD (m - k) 0 <<< shift else 0) |||
        if rounds + k < a.length ∧ m = rounds + k then a.getD rounds 0 <<< shift else 0 := by
      by_cases hnew : m = rounds + k
      · subst hnew
        rw [if_pos (by omega), if_neg (by omega), if_pos ⟨hm, rfl⟩, Nat.add_sub_cancel,
          zero_or]
      · rw [if_neg fun h : rounds + k < a.length ∧ m = rounds + k => hnew h.2, or_zero]
        exact if_congr (by omega) rfl rfl
    show (leftRound a k shift pn rounds).getD m 0 = _
    unfold leftRound
    dsimp only
    rw [getD_guarded _ (fun h => by split_ifs <;> simp [hlen, h]),
      getD_guarded _ (fun h => by rw [hlen]; exact h.1), hword m hm]
    unfold leftWord
    rw [hhigh, hlow]
    ac_rfl

theorem rightRounds_spec (a : List Word) (k shift rounds : ℕ) (hrounds : rounds ≤ a.length) :
    ((List.range rounds).foldl (rightRound a k shift) (List.replicate a.length 0)).length =
        a.length ∧
      ∀ m < a.length,
        ((List.range rounds).foldl (rightRound a k shift) (List.replicate a.length 0)).getD m 0 =
          rightWord a k shift rounds m := by
  induction rounds with
  | zero =>
    refine ⟨List.length_replicate, fun m hm => ?_⟩
    unfold rightWord
    simp [hm]
  | succ rounds ih =>
    obtain ⟨hlen, hword⟩ := ih (by omega)
    rw [List.range_succ, List.foldl_append]
    generalize (List.range rounds).foldl (rightRound a k shift) (List.replicate a.length 0) = pn
      at hlen hword
    refine ⟨(rightRound_length a k shift pn rounds).trans hlen, fun m hm => ?_⟩
    have hlow : (if m + k < rounds + 1 then a.getD (m + k) 0 >>> shift else 0) =
        (if m + k < rounds then a.getD (m + k) 0 >>> shift else 0) |||
        if k ≤ rounds ∧ m = rounds - k then a.getD rounds 0 >>> shift else 0 := by
      by_cases hnew : m + k = rounds
      · rw [if_pos (by omega), if_neg (by omega), if_pos (by omega), hnew, zero_or]
      · rw [if_neg (show ¬ (k ≤ rounds ∧ m = rounds - k) by omega), or_zero]
        exact if_congr (by omega) rfl rfl
    have hhigh : (if m + k + 1 < rounds + 1 ∧ shift ≠ 0 then
          a.getD (m + k + 1) 0 <<< (32 - shift) else 0) =
        (if m + k + 1 < rounds ∧ shift ≠ 0 then
          a.getD (m + k + 1) 0 <<< (32 - shift) else 0) |||
        if (k + 1 ≤ rounds ∧ shift ≠ 0) ∧ m = rounds - k - 1 then
          a.getD rounds 0 <<< (32 - shift) else 0 := by
      by_cases hnew : shift ≠ 0 ∧ m + k + 1 = rounds
      · rw [if_pos (by omega), if_neg (by omega), if_pos (by omega), hnew.2, zero_or]
      · rw [if_neg (show ¬ ((k + 1 ≤ rounds ∧ shift ≠ 0) ∧ m = rounds - k - 1) by omega),
          or_zero]
        exact if_congr (by omega) rfl rfl
    show (rightRound a k shift pn rounds).getD m 0 = _
    unfold rightRound
    dsimp only
    rw [getD_guarded _ (fun h => by split_ifs <;> simp only [orAt_length, hlen] <;> omega),
      getD_guarded _ (fun h => by rw [hlen]; omega), hword m hm]
    unfold rightWord
    rw [hhigh, hlow]
    ac_rfl

/-- Bit `t` of a word of the result comes from the word below by the shift. -/
theorem getLsbD_leftWord (a : List Word) (k : ℕ) {shift m t : ℕ} (hshift : shift < 32)
    (ht : t < 32) (hm : m < a.length) :
    (leftWord a k shift a.length m).getLsbD t =
      (decide (32 * k + shift ≤ 32 * m + t) &&
        (value a).testBit (32 * m + t - (32 * k + shift))) := by
  rw [testBit_value (by decide)]
  unfold leftWord
  rw [BitVec.getLsbD_or]
  by_cases hts : shift ≤ t
  · have hhigh : (if k + 1 ≤ m ∧ m - k - 1 < a.length ∧ shift ≠ 0 then
        a.getD (m - k - 1) 0 >>> (32 - shift) else 0).getLsbD t = false := by
      split_ifs
      · rw [BitVec.getLsbD_ushiftRight]
        exact BitVec.getLsbD_of_ge _ _ (by omega)
      · exact BitVec.getLsbD_zero
    rw [hhigh, Bool.false_or]
    by_cases hkm : k ≤ m
    · have hdiv : (32 * m + t - (32 * k + shift)) / 32 = m - k := by omega
      have hmod : (32 * m + t - (32 * k + shift)) % 32 = t - shift := by omega
      rw [if_pos ⟨hkm, by omega⟩, hdiv, hmod, BitVec.getLsbD_shiftLeft,
        decide_eq_true (show 32 * k + shift ≤ 32 * m + t by omega), decide_eq_true ht,
        decide_eq_false (show ¬ t < shift by omega)]
      rfl
    · rw [if_neg fun h => hkm h.1, decide_eq_false (show ¬ 32 * k + shift ≤ 32 * m + t by omega)]
      exact BitVec.getLsbD_zero
  · have hlow : (if k ≤ m ∧ m - k < a.length then a.getD (m - k) 0 <<< shift else 0).getLsbD t =
        false := by
      split_ifs
      · rw [BitVec.getLsbD_shiftLeft, decide_eq_true (show t < shift by omega)]
        simp
      · exact BitVec.getLsbD_zero
    rw [hlow, Bool.or_false]
    by_cases hkm : k + 1 ≤ m
    · have hdiv : (32 * m + t - (32 * k + shift)) / 32 = m - k - 1 := by omega
      have hmod : (32 * m + t - (32 * k + shift)) % 32 = 32 - shift + t := by omega
      rw [if_pos ⟨hkm, by omega, by omega⟩, hdiv, hmod, BitVec.getLsbD_ushiftRight,
        decide_eq_true (show 32 * k + shift ≤ 32 * m + t by omega), Bool.true_and]
    · rw [if_neg fun h => hkm h.1, decide_eq_false (show ¬ 32 * k + shift ≤ 32 * m + t by omega)]
      exact BitVec.getLsbD_zero

/-- Bit `t` of a word of the result comes from the word above by the shift. -/
theorem getLsbD_rightWord (a : List Word) (k : ℕ) {shift m t : ℕ} (hshift : shift < 32)
    (ht : t < 32) :
    (rightWord a k shift a.length m).getLsbD t =
      (value a).testBit (32 * m + t + (32 * k + shift)) := by
  have hword : ∀ {c : Prop} [Decidable c] {i : ℕ} (f : Word → Word), f 0 = 0 →
      (i < a.length → c) → (if i < a.length ∧ c then f (a.getD i 0) else 0) = f (a.getD i 0) := by
    intro c _ i f hf hc
    by_cases hi : i < a.length
    · rw [if_pos ⟨hi, hc hi⟩]
    · rw [if_neg fun h => hi h.1, List.getD_eq_default _ _ (Nat.not_lt.mp hi), hf]
  rw [testBit_value (by decide)]
  unfold rightWord
  rw [BitVec.getLsbD_or]
  have hlow : (if m + k < a.length then a.getD (m + k) 0 >>> shift else 0) =
      a.getD (m + k) 0 >>> shift := by
    have hall := @hword True _ (m + k) (· >>> shift) BitVec.zero_ushiftRight fun _ => trivial
    simpa only [and_true] using hall
  rw [hlow, BitVec.getLsbD_ushiftRight]
  by_cases hts : shift + t < 32
  · have hhigh : (if m + k + 1 < a.length ∧ shift ≠ 0 then
        a.getD (m + k + 1) 0 <<< (32 - shift) else 0).getLsbD t = false := by
      split_ifs
      · rw [BitVec.getLsbD_shiftLeft, decide_eq_true (show t < 32 - shift by omega)]
        simp
      · exact BitVec.getLsbD_zero
    have hdiv : (32 * m + t + (32 * k + shift)) / 32 = m + k := by omega
    have hmod : (32 * m + t + (32 * k + shift)) % 32 = shift + t := by omega
    rw [hhigh, Bool.or_false, hdiv, hmod]
  · have hdiv : (32 * m + t + (32 * k + shift)) / 32 = m + k + 1 := by omega
    have hmod : (32 * m + t + (32 * k + shift)) % 32 = t - (32 - shift) := by omega
    rw [BitVec.getLsbD_of_ge _ _ (by omega), Bool.false_or,
      hword (· <<< (32 - shift)) (BitVec.zero_shiftLeft (32 - shift)) (fun _ => by omega), hdiv, hmod,
      BitVec.getLsbD_shiftLeft, decide_eq_true ht, decide_eq_false (show ¬ t < 32 - shift by omega)]
    rfl

theorem value_shiftLeft (a : List Word) (shift : BitVec 32) :
    value (shiftLoop leftRound a shift) = value a * 2 ^ shift.toNat % modulus 32 a.length := by
  obtain ⟨hlen, hword⟩ :=
    leftRounds_spec a (shift.toNat / 32) (shift.toNat % 32) a.length
  apply Nat.eq_of_testBit_eq
  intro j
  rw [testBit_value (by decide), modulus, Nat.testBit_mod_two_pow, Nat.testBit_mul_two_pow]
  unfold shiftLoop
  by_cases hj : j / 32 < a.length
  · have hbit : 32 * (j / 32) + j % 32 = j := Nat.div_add_mod j 32
    have hshift : 32 * (shift.toNat / 32) + shift.toNat % 32 = shift.toNat := Nat.div_add_mod _ 32
    rw [hword _ hj, getLsbD_leftWord a _ (by omega) (by omega) hj, hbit, hshift,
      decide_eq_true (show j < 32 * a.length by omega), Bool.true_and]
  · rw [List.getD_eq_default _ _ (by rw [hlen]; omega),
      decide_eq_false (show ¬ j < 32 * a.length by omega), Bool.false_and]
    exact BitVec.getLsbD_zero

theorem value_shiftRight (a : List Word) (shift : BitVec 32) :
    value (shiftLoop rightRound a shift) = value a / 2 ^ shift.toNat := by
  obtain ⟨hlen, hword⟩ :=
    rightRounds_spec a (shift.toNat / 32) (shift.toNat % 32) a.length (Nat.le_refl _)
  apply Nat.eq_of_testBit_eq
  intro j
  rw [testBit_value (by decide), Nat.testBit_div_two_pow]
  unfold shiftLoop
  by_cases hj : j / 32 < a.length
  · have hbit : 32 * (j / 32) + j % 32 = j := Nat.div_add_mod j 32
    have hshift : 32 * (shift.toNat / 32) + shift.toNat % 32 = shift.toNat := Nat.div_add_mod _ 32
    rw [hword _ hj, getLsbD_rightWord a _ (by omega) (by omega), hbit, hshift]
  · have hout : value a < 2 ^ (j + shift.toNat) := by
      refine Nat.lt_of_lt_of_le (value_lt a) ?_
      exact Nat.pow_le_pow_right (by decide) (by omega)
    rw [List.getD_eq_default _ _ (by rw [hlen]; omega), Nat.testBit_lt_two_pow hout]
    exact BitVec.getLsbD_zero

end Shifts

section Order

/-- The loop of the comparisons, from the last word on; `equal` is returned behind it. -/
def below (equal : Bool) : List Word → List Word → Bool
  | x :: a, y :: b => if x < y then true else if y < x then false else below equal a b
  | _, _ => equal

theorem below_iff (equal : Bool) {a b : List Word} (h : a.length = b.length) :
    below equal a b = true ↔
      value a.reverse < value b.reverse ∨ (equal = true ∧ value a.reverse = value b.reverse) := by
  induction a generalizing b with
  | nil =>
    obtain rfl := List.length_eq_zero_iff.mp h.symm
    simp [below]
  | cons x a ih =>
    cases b with
    | nil => cases h
    | cons y b =>
      have hlen : a.length = b.length := Nat.succ.inj h
      unfold below
      by_cases hxy : x < y
      · rw [if_pos hxy]
        exact iff_of_true rfl (Or.inl (value_reverse_lt hlen hxy))
      · rw [if_neg hxy]
        by_cases hyx : y < x
        · have hlt := value_reverse_lt hlen.symm hyx
          rw [if_pos hyx]
          refine iff_of_false Bool.false_ne_true ?_
          omega
        · have hsame : x.toNat = y.toNat := by
            rw [BitVec.lt_def] at hxy hyx
            omega
          rw [if_neg hyx, ih hlen, value_reverse_cons, value_reverse_cons, hsame, hlen,
            Nat.add_lt_add_iff_right, Nat.add_right_cancel_iff]

end Order

namespace BaseUint

def add (a b : BaseUint WIDTH) : BaseUint WIDTH :=
  ⟨addLoop 0 a.pn b.pn, by rw [addLoop_length 0 (a.width.trans b.width.symm), a.width]⟩

/-- `operator~`. -/
def not (a : BaseUint WIDTH) : BaseUint WIDTH :=
  ⟨a.pn.map (~~~ ·), by rw [List.length_map, a.width]⟩

def inc (a : BaseUint WIDTH) : BaseUint WIDTH :=
  ⟨increment a.pn, by rw [increment_length, a.width]⟩

def dec (a : BaseUint WIDTH) : BaseUint WIDTH :=
  ⟨decrement a.pn, by rw [decrement_length, a.width]⟩

def neg (a : BaseUint WIDTH) : BaseUint WIDTH := a.not.inc

def sub (a b : BaseUint WIDTH) : BaseUint WIDTH := a.add b.neg

def shiftLeft (a : BaseUint WIDTH) (shift : BitVec 32) : BaseUint WIDTH :=
  ⟨shiftLoop leftRound a.pn shift,
    by rw [shiftLoop, (leftRounds_spec a.pn _ _ _).1, a.width]⟩

def shiftRight (a : BaseUint WIDTH) (shift : BitVec 32) : BaseUint WIDTH :=
  ⟨shiftLoop rightRound a.pn shift,
    by rw [shiftLoop, (rightRounds_spec a.pn _ _ _ (Nat.le_refl _)).1, a.width]⟩

def lt (a b : BaseUint WIDTH) : Bool := below false a.pn.reverse b.pn.reverse

def le (a b : BaseUint WIDTH) : Bool := below true a.pn.reverse b.pn.reverse

/-- The tests of the loop are exchanged. -/
def gt (a b : BaseUint WIDTH) : Bool := below false b.pn.reverse a.pn.reverse

def ge (a b : BaseUint WIDTH) : Bool := below true b.pn.reverse a.pn.reverse

def eq (a b : BaseUint WIDTH) : Bool := a.pn.zip b.pn |>.all fun (x, y) => x = y

/-- `operator=(uint64 b)`, where there are two words at least. -/
def ofUint64 {n : ℕ} (b : BitVec 64) : BaseUint (n + 2) :=
  ⟨b.setWidth 32 :: (b >>> 32).setWidth 32 :: List.replicate n 0, by simp⟩

def addUint64 {n : ℕ} (a : BaseUint (n + 2)) (b64 : BitVec 64) : BaseUint (n + 2) :=
  a.add (ofUint64 b64)

def subUint64 {n : ℕ} (a : BaseUint (n + 2)) (b64 : BitVec 64) : BaseUint (n + 2) :=
  a.add (ofUint64 b64).neg

def eqUint64 {n : ℕ} (a : BaseUint (n + 2)) (b : BitVec 64) : Bool :=
  a.pn.getD 0 0 = b.setWidth 32 && a.pn.getD 1 0 = (b >>> 32).setWidth 32 &&
    (a.pn.drop 2).all fun x => x = 0

theorem value_lt (a : BaseUint WIDTH) : a.value < modulus 32 WIDTH := by
  have hlt := Limbs.value_lt a.pn
  rwa [a.width] at hlt

theorem value_add (a b : BaseUint WIDTH) :
    (a.add b).value = (a.value + b.value) % modulus 32 WIDTH := by
  have hsum := @value_addLoop 0 (by decide) a.pn b.pn (a.width.trans b.width.symm)
  rw [a.width] at hsum
  exact hsum

theorem value_inc (a : BaseUint WIDTH) : a.inc.value = (a.value + 1) % modulus 32 WIDTH := by
  have hnext := value_increment a.pn
  rw [a.width] at hnext
  exact hnext

theorem value_neg_add (a : BaseUint WIDTH) :
    (a.neg.value + a.value) % modulus 32 WIDTH = 0 := by
  have hnot := value_map_not a.pn
  rw [a.width] at hnot
  have hnext : a.neg.value = (Limbs.value (a.pn.map (~~~ ·)) + 1) % modulus 32 WIDTH :=
    value_inc a.not
  have hval : a.value = Limbs.value a.pn := rfl
  rw [hnext, Nat.mod_add_mod, hval, Nat.add_right_comm, hnot, Nat.mod_self]

/-- Minus a value, modulo the width. -/
theorem value_neg (a : BaseUint WIDTH) : (a.neg.value : ℤ) = -a.value % modulus 32 WIDTH := by
  have hlt : (a.neg.value : ℤ) < modulus 32 WIDTH := by exact_mod_cast a.neg.value_lt
  have hdvd : ((modulus 32 WIDTH : ℕ) : ℤ) ∣ (a.neg.value : ℤ) - -a.value := by
    rw [sub_neg_eq_add]
    exact_mod_cast Nat.dvd_of_mod_eq_zero a.value_neg_add
  rw [← Int.emod_eq_of_lt (Int.natCast_nonneg a.neg.value) hlt]
  exact Int.emod_eq_emod_iff_emod_sub_eq_zero.mpr (Int.emod_eq_zero_of_dvd hdvd)

theorem value_sub (a b : BaseUint WIDTH) :
    ((a.sub b).value : ℤ) = ((a.value : ℤ) - b.value) % modulus 32 WIDTH := by
  have hsum : (((a.add b.neg).value : ℕ) : ℤ) =
      ((a.value : ℤ) + b.neg.value) % modulus 32 WIDTH := by
    rw [value_add]
    push_cast
    rfl
  show (((a.add b.neg).value : ℕ) : ℤ) = _
  rw [hsum, value_neg, Int.add_emod_emod, ← Int.sub_eq_add_neg]

theorem value_dec (a : BaseUint WIDTH) :
    (a.dec.value : ℤ) = ((a.value : ℤ) - 1) % modulus 32 WIDTH := by
  have hback := value_decrement a.pn
  rw [a.width] at hback
  have hlt : (a.dec.value : ℤ) < modulus 32 WIDTH := by exact_mod_cast a.dec.value_lt
  have hval : (a.value : ℤ) = ((a.dec.value : ℤ) + 1) % modulus 32 WIDTH := by
    show ((Limbs.value a.pn : ℕ) : ℤ) = _
    rw [hback]
    push_cast
    rfl
  rw [hval, Int.emod_sub_emod, add_sub_cancel_right]
  exact (Int.emod_eq_of_lt (Int.natCast_nonneg _) hlt).symm

theorem lt_iff (a b : BaseUint WIDTH) : a.lt b = true ↔ a.value < b.value := by
  have hlen : a.pn.reverse.length = b.pn.reverse.length := by
    rw [List.length_reverse, List.length_reverse, a.width, b.width]
  have hloop := below_iff false hlen
  rw [List.reverse_reverse, List.reverse_reverse] at hloop
  exact hloop.trans ⟨fun h => h.resolve_right fun h' => Bool.false_ne_true h'.1, Or.inl⟩

theorem le_iff (a b : BaseUint WIDTH) : a.le b = true ↔ a.value ≤ b.value := by
  have hlen : a.pn.reverse.length = b.pn.reverse.length := by
    rw [List.length_reverse, List.length_reverse, a.width, b.width]
  have hloop := below_iff true hlen
  rw [List.reverse_reverse, List.reverse_reverse] at hloop
  refine hloop.trans ?_
  rw [Nat.le_iff_lt_or_eq]
  exact or_congr_right ⟨And.right, fun h => ⟨rfl, h⟩⟩

theorem eq_iff (a b : BaseUint WIDTH) : a.eq b = true ↔ a.value = b.value := by
  have hzip : ∀ l m : List Word, l.length = m.length →
      (((l.zip m).all fun (x, y) => x = y) = true ↔ l = m) := by
    intro l
    induction l with
    | nil =>
      intro m hm
      obtain rfl := List.length_eq_zero_iff.mp hm.symm
      exact iff_of_true rfl rfl
    | cons x l ih =>
      intro m hm
      cases m with
      | nil => cases hm
      | cons y m =>
        rw [List.zip_cons_cons, List.all_cons, Bool.and_eq_true, ih m (Nat.succ.inj hm),
          List.cons.injEq]
        simp
  have hlen : a.pn.length = b.pn.length := a.width.trans b.width.symm
  refine (hzip a.pn b.pn hlen).trans ?_
  constructor
  · exact fun h => congrArg Limbs.value h
  · exact fun h => value_inj hlen h

theorem value_ofUint64 {n : ℕ} (b : BitVec 64) :
    (ofUint64 b : BaseUint (n + 2)).value = b.toNat := by
  have hb := b.isLt
  have hlow : (b.setWidth 32).toNat = b.toNat % 2 ^ 32 := BitVec.toNat_setWidth 32 b
  have hhigh : ((b >>> 32).setWidth 32).toNat = b.toNat / 2 ^ 32 := by
    rw [BitVec.toNat_setWidth, BitVec.toNat_ushiftRight, Nat.shiftRight_eq_div_pow]
    exact Nat.mod_eq_of_lt (by omega)
  show (b.setWidth 32).toNat + 2 ^ 32 * (((b >>> 32).setWidth 32).toNat +
    2 ^ 32 * Limbs.value (List.replicate n 0)) = _
  rw [value_replicate_zero, hlow, hhigh]
  omega

theorem eqUint64_iff {n : ℕ} (a : BaseUint (n + 2)) (b : BitVec 64) :
    a.eqUint64 b = true ↔ a.value = b.toNat := by
  obtain ⟨pn, hpn⟩ := a
  rw [← value_ofUint64 (n := n) b]
  cases pn with
  | nil => cases hpn
  | cons x pn =>
    cases pn with
    | nil => cases hpn
    | cons y pn =>
      have hlen : pn.length = n := Nat.succ.inj (Nat.succ.inj hpn)
      have hzero : (pn.all fun x => x = 0) = true ↔ pn = List.replicate n 0 := by
        rw [List.eq_replicate_iff, List.all_eq_true]
        simp [hlen]
      have hwords : (⟨x :: y :: pn, hpn⟩ : BaseUint (n + 2)).value = (ofUint64 b).value ↔
          x :: y :: pn = b.setWidth 32 :: (b >>> 32).setWidth 32 :: List.replicate n 0 :=
        ⟨fun h => value_inj (hpn.trans (ofUint64 b).width.symm) h, fun h => congrArg Limbs.value h⟩
      rw [hwords, List.cons.injEq, List.cons.injEq, ← hzero]
      show (decide (x = _) && decide (y = _) && _) = true ↔ _
      rw [Bool.and_eq_true, Bool.and_eq_true, decide_eq_true_iff, decide_eq_true_iff, and_assoc]
      rfl

/-- A value determines the words. -/
theorem ext_value {a b : BaseUint WIDTH} (h : a.value = b.value) : a = b := by
  obtain ⟨pn, hpn⟩ := a
  obtain ⟨pn', hpn'⟩ := b
  have hwords : pn = pn' := value_inj (hpn.trans hpn'.symm) h
  subst hwords
  rfl

end BaseUint

section Text

/-- `phexdigit[(unsigned char)*psz]`. -/
def phexdigit (c : Char) : Byte :=
  if '0' ≤ c ∧ c ≤ '9' then BitVec.ofNat 8 (c.toNat - 48)
  else if 'A' ≤ c ∧ c ≤ 'F' then BitVec.ofNat 8 (c.toNat - 65 + 0xa)
  else if 'a' ≤ c ∧ c ≤ 'f' then BitVec.ofNat 8 (c.toNat - 97 + 0xa)
  else 0

/-- The loop over the bytes p1 of the words, with the digits from the last one on. -/
def packDigits : ℕ → List Char → List Byte
  | 0, _ => []
  | room + 1, [] => 0 :: packDigits room []
  | room + 1, [c] => phexdigit c :: packDigits room []
  | room + 1, c :: d :: psz => (phexdigit c ||| (phexdigit d <<< 4)) :: packDigits room psz

/-- The words at some bytes. -/
def wordsOf : ℕ → List Byte → List Word
  | 0, _ => []
  | n + 1, bytes => BitVec.ofNat 32 (ofLeBytes (bytes.take 4)) :: wordsOf n (bytes.drop 4)

def bytesOf (pn : List Word) : List Byte := pn.flatMap fun x => leBytes 4 x.toNat

/-- The digits that SetHex reads: behind spaces and 0x, up to the first other character. -/
def hexDigits (psz : List Char) : List Char :=
  let psz := psz.dropWhile MergedMineProxy.isspace
  let psz := if psz.head? = some '0' ∧ (psz.tail.head?.map Char.toLower) = some 'x'
    then psz.drop 2 else psz
  psz.takeWhile fun c => phexdigit c ≠ 0 ∨ c = '0'

theorem wordsOf_length (n : ℕ) (bytes : List Byte) : (wordsOf n bytes).length = n := by
  induction n generalizing bytes with
  | zero => rfl
  | succ n ih => exact congrArg (· + 1) (ih _)

def BaseUint.setHex (WIDTH : ℕ) (psz : List Char) : BaseUint WIDTH :=
  ⟨wordsOf WIDTH (packDigits (4 * WIDTH) (hexDigits psz).reverse), wordsOf_length _ _⟩

/-- `sprintf(psz + i*2, "%02x", ((unsigned char*)pn)[sizeof(pn) - i - 1])` for all bytes. -/
def BaseUint.getHex (a : BaseUint WIDTH) : List Char := encode (bytesOf a.pn).reverse

theorem phexdigit_spec (c : Char) :
    (phexdigit c ≠ 0 ∨ c = '0' ↔ (digitValue c).isSome = true) ∧
      (phexdigit c).toNat = (digitValue c).getD 0 := by
  have hnat : ∀ d : Char, d ≤ c ↔ d.toNat ≤ c.toNat := fun d => Iff.rfl
  have hnat' : ∀ d : Char, c ≤ d ↔ c.toNat ≤ d.toNat := fun d => Iff.rfl
  have hpos : ∀ {n : ℕ}, n < 16 → (BitVec.ofNat 8 n).toNat = n := by
    intro n hn
    rw [BitVec.toNat_ofNat]
    omega
  have hne : ∀ {n : ℕ}, 0 < n → n < 16 → BitVec.ofNat 8 n ≠ 0 := by
    intro n hn hlt hzero
    have hval := hpos hlt
    rw [hzero] at hval
    change 0 = n at hval
    omega
  unfold phexdigit digitValue
  by_cases hdigit : '0' ≤ c ∧ c ≤ '9'
  · have hlow := hdigit.1
    have hhigh := hdigit.2
    rw [hnat] at hlow
    rw [hnat'] at hhigh
    change 48 ≤ c.toNat at hlow
    change c.toNat ≤ 57 at hhigh
    rw [if_pos hdigit, if_pos hdigit, hpos (by omega)]
    refine ⟨iff_of_true ?_ rfl, rfl⟩
    by_cases hzero : c.toNat = 48
    · exact Or.inr (Char.toNat_inj.mp hzero)
    · exact Or.inl (hne (by omega) (by omega))
  · rw [if_neg hdigit, if_neg hdigit]
    have hnot : c ≠ '0' := by
      intro h
      rw [h] at hdigit
      exact hdigit (by decide)
    by_cases hlower : 'a' ≤ c ∧ c ≤ 'f'
    · have hlow := hlower.1
      have hhigh := hlower.2
      rw [hnat] at hlow
      rw [hnat'] at hhigh
      change 97 ≤ c.toNat at hlow
      change c.toNat ≤ 102 at hhigh
      have hupper : ¬ ('A' ≤ c ∧ c ≤ 'F') := by
        rw [hnat, hnat']
        intro h
        have hF : c.toNat ≤ 70 := h.2
        omega
      rw [if_pos hlower, if_neg hupper, if_pos hlower, hpos (by omega)]
      exact ⟨iff_of_true (Or.inl (hne (by omega) (by omega))) rfl, rfl⟩
    · rw [if_neg hlower, if_neg hlower]
      by_cases hupper : 'A' ≤ c ∧ c ≤ 'F'
      · have hlow := hupper.1
        have hhigh := hupper.2
        rw [hnat] at hlow
        rw [hnat'] at hhigh
        change 65 ≤ c.toNat at hlow
        change c.toNat ≤ 70 at hhigh
        rw [if_pos hupper, if_pos hupper, hpos (by omega)]
        exact ⟨iff_of_true (Or.inl (hne (by omega) (by omega))) rfl, rfl⟩
      · rw [if_neg hupper, if_neg hupper]
        refine ⟨iff_of_false ?_ Bool.false_ne_true, rfl⟩
        intro h
        exact h.elim (fun h' => h' rfl) hnot

theorem value_wordsOf (n : ℕ) (bytes : List Byte) (hlen : bytes.length = 4 * n) :
    value (wordsOf n bytes) = ofLeBytes bytes := by
  induction n generalizing bytes with
  | zero =>
    obtain rfl := List.length_eq_zero_iff.mp hlen
    rfl
  | succ n ih =>
    have htake : (bytes.take 4).length = 4 := by
      rw [List.length_take]
      omega
    have hlt : ofLeBytes (bytes.take 4) < 2 ^ 32 := by
      have hbytes := ofLeBytes_lt (bytes.take 4)
      rwa [htake] at hbytes
    have hsplit := ofLeBytes_append (bytes.take 4) (bytes.drop 4)
    rw [List.take_append_drop, htake] at hsplit
    rw [wordsOf, value, ih _ (by rw [List.length_drop]; omega), hsplit, BitVec.toNat_ofNat,
      Nat.mod_eq_of_lt hlt]
    rfl

theorem ofLeBytes_bytesOf (pn : List Word) : ofLeBytes (bytesOf pn) = value pn := by
  induction pn with
  | nil => rfl
  | cons x pn ih =>
    have hx : x.toNat < 256 ^ 4 := x.isLt
    unfold bytesOf at ih ⊢
    rw [List.flatMap_cons, ofLeBytes_append, ih, ofLeBytes_leBytes, leBytes_length, value,
      Nat.mod_eq_of_lt hx]
    rfl

theorem bytesOf_length (pn : List Word) : (bytesOf pn).length = 4 * pn.length := by
  unfold bytesOf
  rw [List.length_flatMap]
  simp [Nat.mul_comm]

theorem packDigits_length (room : ℕ) (cs : List Char) : (packDigits room cs).length = room := by
  induction room, cs using packDigits.induct with
  | case1 => rfl
  | case2 room ih => exact congrArg (· + 1) ih
  | case3 room c ih => exact congrArg (· + 1) ih
  | case4 room c d psz ih => exact congrArg (· + 1) ih

theorem number_concat (cs : List Char) (c : Char) :
    number (cs ++ [c]) = 16 * number cs + (digitValue c).getD 0 := List.foldl_concat _ _ _ _

theorem digit_lt_sixteen (c : Char) : (digitValue c).getD 0 < 16 := by
  unfold digitValue
  split_ifs with hdigit hlower hupper
  · have hhigh : c.toNat ≤ 57 := hdigit.2
    show c.toNat - 48 < 16
    omega
  · have hhigh : c.toNat ≤ 102 := hlower.2
    show c.toNat - 97 + 10 < 16
    omega
  · have hhigh : c.toNat ≤ 70 := hupper.2
    show c.toNat - 65 + 10 < 16
    omega
  · exact Nat.zero_lt_succ 15

/-- `*p1 = low; *p1 |= high << 4;` -/
theorem phexdigit_pair (c d : Char) :
    (phexdigit c ||| (phexdigit d <<< 4)).toNat =
      (digitValue c).getD 0 + 16 * (digitValue d).getD 0 := by
  have hall : ∀ x y : Fin 16, (BitVec.ofNat 8 x.1 ||| (BitVec.ofNat 8 y.1 <<< 4)).toNat =
      x.1 + 16 * y.1 := by decide +kernel
  have hc : phexdigit c = BitVec.ofNat 8 ((digitValue c).getD 0) := by
    rw [← (phexdigit_spec c).2, BitVec.ofNat_toNat, BitVec.setWidth_eq]
  have hd : phexdigit d = BitVec.ofNat 8 ((digitValue d).getD 0) := by
    rw [← (phexdigit_spec d).2, BitVec.ofNat_toNat, BitVec.setWidth_eq]
  rw [hc, hd]
  exact hall ⟨_, digit_lt_sixteen c⟩ ⟨_, digit_lt_sixteen d⟩

/-- The bytes hold the number of the digits, as far as there is room. -/
theorem ofLeBytes_packDigits (room : ℕ) (cs : List Char) :
    ofLeBytes (packDigits room cs) = number cs.reverse % 256 ^ room := by
  induction room, cs using packDigits.induct with
  | case1 => simp [packDigits, ofLeBytes, Nat.mod_one]
  | case2 room ih =>
    have hzero : number [].reverse % 256 ^ room = 0 := Nat.zero_mod _
    rw [packDigits, ofLeBytes, ih, hzero]
    exact (Nat.zero_mod _).symm
  | case3 room c ih =>
    have hzero : number [].reverse % 256 ^ room = 0 := Nat.zero_mod _
    have hone : number [c].reverse = (digitValue c).getD 0 := by
      have hconcat := number_concat [] c
      rw [List.nil_append] at hconcat
      rw [List.reverse_singleton, hconcat]
      exact Nat.zero_add _
    have hlt := digit_lt_sixteen c
    have hpow : 0 < 256 ^ room := by positivity
    rw [packDigits, ofLeBytes, ih, hzero, (phexdigit_spec c).2, hone, Nat.pow_succ,
      Nat.mod_eq_of_lt (by omega)]
    rfl
  | case4 room c d psz ih =>
    have hsplit : number (c :: d :: psz).reverse =
        (digitValue c).getD 0 + 16 * (digitValue d).getD 0 + 256 * number psz.reverse := by
      rw [List.reverse_cons, List.reverse_cons, number_concat, number_concat]
      ring
    have hc := digit_lt_sixteen c
    have hd := digit_lt_sixteen d
    have hbyte : (digitValue c).getD 0 + 16 * (digitValue d).getD 0 < 256 := by omega
    rw [packDigits, ofLeBytes, ih, phexdigit_pair, hsplit, Nat.pow_succ, Nat.mul_comm (256 ^ room),
      Nat.mod_mul, Nat.add_mul_mod_self_left, Nat.add_mul_div_left _ _ (by decide),
      Nat.mod_eq_of_lt hbyte, Nat.div_eq_of_lt hbyte, Nat.zero_add]

/-- SetHex: the number of the digits, modulo the width. -/
theorem BaseUint.value_setHex (WIDTH : ℕ) (psz : List Char) :
    (setHex WIDTH psz).value = number (hexDigits psz) % modulus 32 WIDTH := by
  have hpow : (256 : ℕ) ^ (4 * WIDTH) = modulus 32 WIDTH := by
    unfold modulus
    rw [show (256 : ℕ) = 2 ^ 8 from rfl, ← Nat.pow_mul]
    congr 1
    omega
  show Limbs.value (wordsOf _ _) = _
  rw [value_wordsOf _ _ (packDigits_length _ _), ofLeBytes_packDigits, List.reverse_reverse, hpow]

/-- GetHex: the digits of the number, eight for each word. -/
theorem BaseUint.getHex_spec (a : BaseUint WIDTH) :
    number a.getHex = a.value ∧ a.getHex.length = 8 * WIDTH ∧
      ∀ c ∈ a.getHex, ∃ n < 16, c = digit n := by
  refine ⟨?_, ?_, ?_⟩
  · show number (encode (bytesOf a.pn).reverse) = _
    rw [number_encode_reverse, ofLeBytes_bytesOf]
    rfl
  · show (encode (bytesOf a.pn).reverse).length = _
    rw [length_encode, List.length_reverse, bytesOf_length, a.width]
    ring
  · intro c hc
    obtain ⟨b, -, hb⟩ := List.mem_flatMap.mp hc
    have hlt := b.isLt
    obtain rfl | rfl : c = digit (b.toNat / 16) ∨ c = digit (b.toNat % 16) := by
      simpa [encodeByte] using hb
    · exact ⟨_, by omega, rfl⟩
    · exact ⟨_, by omega, rfl⟩

theorem hexDigits_encode (bs : List Byte) : hexDigits (encode bs) = encode bs := by
  unfold hexDigits
  rw [MergedMineProxy.dropWhile_isspace_encode]
  dsimp only
  rw [if_neg (MergedMineProxy.encode_plain bs)]
  apply List.takeWhile_eq_self_iff.mpr
  intro c hc
  rw [decide_eq_true_iff]
  exact (phexdigit_spec c).1.mpr (isSome_digitValue_encode bs c hc)

/-- SetHex reads back what GetHex has written. -/
theorem BaseUint.setHex_getHex (a : BaseUint WIDTH) : setHex WIDTH a.getHex = a := by
  apply ext_value
  rw [value_setHex]
  have hdigits : hexDigits a.getHex = a.getHex := hexDigits_encode _
  rw [hdigits, a.getHex_spec.1]
  exact Nat.mod_eq_of_lt a.value_lt

/-- At 256 bits the words hold the number that the text was taken for as a whole. -/
theorem BaseUint.value_setHex_256 (psz : List Char) :
    (setHex 8 psz).value = (MergedMineProxy.setHex psz).toNat := by
  have hdigits : ∀ l : List Char, l.takeWhile (fun c => phexdigit c ≠ 0 ∨ c = '0') =
      l.takeWhile fun c => (digitValue c).isSome := by
    intro l
    congr 1
    funext c
    rw [Bool.eq_iff_iff, decide_eq_true_iff]
    exact (phexdigit_spec c).1
  rw [value_setHex]
  unfold hexDigits MergedMineProxy.setHex
  dsimp only
  rw [hdigits, BitVec.toNat_ofNat]
  rfl

end Text

/-- The operators of base_uint are those of the integers modulo `2^BITS`. -/
theorem BaseUint.refines :
    (∀ WIDTH, ∀ a b : BaseUint WIDTH,
      (a.add b).value = (a.value + b.value) % 2 ^ (32 * WIDTH) ∧
      ((a.sub b).value : ℤ) = ((a.value : ℤ) - b.value) % 2 ^ (32 * WIDTH) ∧
      (a.neg.value : ℤ) = -a.value % 2 ^ (32 * WIDTH) ∧
      a.inc.value = (a.value + 1) % 2 ^ (32 * WIDTH) ∧
      (a.dec.value : ℤ) = ((a.value : ℤ) - 1) % 2 ^ (32 * WIDTH) ∧
      (a.lt b = true ↔ a.value < b.value) ∧ (a.le b = true ↔ a.value ≤ b.value) ∧
      (a.gt b = true ↔ b.value < a.value) ∧ (a.ge b = true ↔ b.value ≤ a.value) ∧
      (a.eq b = true ↔ a.value = b.value)) ∧
    (∀ n (a : BaseUint (n + 2)) (b64 : BitVec 64),
      (a.addUint64 b64).value = (a.value + b64.toNat) % 2 ^ (32 * (n + 2)) ∧
      ((a.subUint64 b64).value : ℤ) = ((a.value : ℤ) - b64.toNat) % 2 ^ (32 * (n + 2)) ∧
      (a.eqUint64 b64 = true ↔ a.value = b64.toNat)) ∧
    (∀ WIDTH (a : BaseUint WIDTH) (shift : BitVec 32),
      (a.shiftLeft shift).value = a.value * 2 ^ shift.toNat % 2 ^ (32 * WIDTH) ∧
      (a.shiftRight shift).value = a.value / 2 ^ shift.toNat) ∧
    (∀ WIDTH psz, (setHex WIDTH psz).value = number (hexDigits psz) % 2 ^ (32 * WIDTH)) ∧
    ∀ WIDTH (a : BaseUint WIDTH),
      (number a.getHex = a.value ∧ a.getHex.length = 8 * WIDTH ∧
        ∀ c ∈ a.getHex, ∃ n < 16, c = digit n) ∧
      setHex WIDTH a.getHex = a := by
  have hcast : ∀ WIDTH, ((modulus 32 WIDTH : ℕ) : ℤ) = 2 ^ (32 * WIDTH) := by
    intro WIDTH
    unfold modulus
    push_cast
    rfl
  refine ⟨?_, ?_, ?_, value_setHex, fun WIDTH a => ⟨a.getHex_spec, a.setHex_getHex⟩⟩
  · intro WIDTH a b
    exact ⟨a.value_add b, hcast _ ▸ a.value_sub b, hcast _ ▸ a.value_neg, a.value_inc,
      hcast _ ▸ a.value_dec, a.lt_iff b, a.le_iff b, b.lt_iff a, b.le_iff a, a.eq_iff b⟩
  · intro n a b64
    have hsum := a.value_add (ofUint64 b64)
    have hdiff := a.value_sub (ofUint64 b64)
    rw [value_ofUint64] at hsum hdiff
    exact ⟨hsum, hcast _ ▸ hdiff, a.eqUint64_iff b64⟩
  · intro WIDTH a shift
    have hleft := value_shiftLeft a.pn shift
    rw [a.width] at hleft
    exact ⟨hleft, value_shiftRight a.pn shift⟩

end UmbrellaLtc.UintWords
