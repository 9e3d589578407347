import UmbrellaLtc.Compact

/-!
The compact format as an approximation of 256 bit numbers. A mantissa of at least 16 bits makes
the pair of mantissa and byte count unique for a number, so writing is monotone and a number
that was read back is written as it was.
-/

namespace UmbrellaLtc.CompactOrder

open Compact

/-- compact_bignum_t's `operator >`, which compares the decoded numbers. -/
def gt (a o : BitVec 32) : Bool := decide (setCompact a > setCompact o)

/-- compact_bignum_t's `operator <`. -/
def lt (a o : BitVec 32) : Bool := decide (setCompact a < setCompact o)

/-- compact_bignum_t's `operator <=`. -/
def le (a o : BitVec 32) : Bool := !gt a o

/-- compact_bignum_t's `operator >=`. -/
def ge (a o : BitVec 32) : Bool := !lt a o

/-- The number `n` is written with the mantissa `m` and the byte count `s`. -/
structure Normal (n m s : ℕ) : Prop where
  low : 2 ^ 15 ≤ m
  high : m < 2 ^ 23
  le : m * 256 ^ s ≤ n * 256 ^ 3
  lt : n * 256 ^ 3 < (m + 1) * 256 ^ s

theorem normal_mantissa (n : ℕ) (hn : 0 < n) : Normal n (mantissa n) (byteCount n) := by
  obtain ⟨hlow, hhigh, hle, hlt⟩ := mantissa_spec n hn
  exact ⟨hlow, hhigh, hle, hlt⟩

/-- A larger number has no smaller byte count, as its mantissa would have to be larger than any. -/
theorem Normal.count_le {n m s n' m' s' : ℕ} (h : Normal n m s) (h' : Normal n' m' s')
    (hnn : n ≤ n') : s ≤ s' := by
  by_contra hlt
  obtain ⟨k, rfl⟩ := Nat.exists_eq_add_of_lt (Nat.lt_of_not_le hlt)
  have hscaled : n * 256 ^ 3 ≤ n' * 256 ^ 3 := Nat.mul_le_mul_right _ hnn
  have hpow : 256 ^ (s' + 1) ≤ 256 ^ (s' + k + 1) := Nat.pow_le_pow_right (by omega) (by omega)
  have hchain : 2 ^ 23 * 256 ^ s' < (m' + 1) * 256 ^ s' := by
    calc 2 ^ 23 * 256 ^ s' = 2 ^ 15 * 256 ^ (s' + 1) := by ring
      _ ≤ m * 256 ^ (s' + k + 1) := Nat.mul_le_mul h.low hpow
      _ ≤ n * 256 ^ 3 := h.le
      _ ≤ n' * 256 ^ 3 := hscaled
      _ < (m' + 1) * 256 ^ s' := h'.lt
  have hmantissa := Nat.lt_of_mul_lt_mul_right hchain
  have hhigh := h'.high
  omega

theorem Normal.mantissa_le {n m s n' m' : ℕ} (h : Normal n m s) (h' : Normal n' m' s)
    (hnn : n ≤ n') : m ≤ m' := by
  have hchain : m * 256 ^ s < (m' + 1) * 256 ^ s := by
    calc m * 256 ^ s ≤ n * 256 ^ 3 := h.le
      _ ≤ n' * 256 ^ 3 := Nat.mul_le_mul_right _ hnn
      _ < (m' + 1) * 256 ^ s := h'.lt
  have hlt := Nat.lt_of_mul_lt_mul_right hchain
  omega

/-- The two parts are determined by the number. -/
theorem Normal.unique {n m s m' s' : ℕ} (h : Normal n m s) (h' : Normal n m' s') :
    m = m' ∧ s = s' := by
  obtain rfl : s = s' := le_antisymm (h.count_le h' le_rfl) (h'.count_le h le_rfl)
  exact ⟨le_antisymm (h.mantissa_le h' le_rfl) (h'.mantissa_le h le_rfl), rfl⟩

theorem magnitude_eq (m s : ℕ) : magnitude m s = m * 256 ^ s / 256 ^ 3 := by
  unfold magnitude
  by_cases hs : s ≤ 3
  · have hsplit : (256 : ℕ) ^ 3 = 256 ^ (3 - s) * 256 ^ s := by
      rw [← pow_add, Nat.sub_add_cancel hs]
    rw [if_pos hs, hsplit, Nat.mul_div_mul_right _ _ (by positivity)]
  · have hsplit : (256 : ℕ) ^ s = 256 ^ (s - 3) * 256 ^ 3 := by
      rw [← pow_add, Nat.sub_add_cancel (by omega)]
    rw [if_neg hs, hsplit, ← Nat.mul_assoc, Nat.mul_div_cancel _ (by positivity)]

/-- What is read back is the number itself, or is written with the same two parts. -/
theorem Normal.round {n m s : ℕ} (h : Normal n m s) :
    magnitude m s = n ∨ Normal (magnitude m s) m s := by
  unfold magnitude
  by_cases hs : s ≤ 3
  · -- the mantissa has the whole number, followed by zero bytes
    left
    have hsplit : (256 : ℕ) ^ 3 = 256 ^ (3 - s) * 256 ^ s := by
      rw [← pow_add, Nat.sub_add_cancel hs]
    have hle := h.le
    have hlt := h.lt
    rw [hsplit, ← Nat.mul_assoc] at hle hlt
    have hlow := Nat.le_of_mul_le_mul_right hle (by positivity)
    have hhigh := Nat.lt_of_mul_lt_mul_right hlt
    have heq : m = n * 256 ^ (3 - s) := by omega
    rw [if_pos hs, heq, Nat.mul_div_cancel _ (by positivity)]
  · right
    have hsplit : m * 256 ^ (s - 3) * 256 ^ 3 = m * 256 ^ s := by
      rw [Nat.mul_assoc, ← pow_add, Nat.sub_add_cancel (by omega)]
    have hpos : 0 < (256 : ℕ) ^ s := by positivity
    rw [if_neg hs]
    exact ⟨h.low, h.high, by rw [hsplit], by rw [hsplit, Nat.add_mul]; omega⟩

/-- The error is less than one unit of the mantissa, which has at least 16 bits. -/
theorem Normal.error_lt {n m s : ℕ} (h : Normal n m s) (hn : 0 < n) :
    (n - magnitude m s) * 2 ^ 15 < n := by
  rcases h.round with hexact | hround
  · rw [hexact, Nat.sub_self, Nat.zero_mul]
    exact hn
  · generalize magnitude m s = r at hround ⊢
    have hlow := h.low
    have hscaled : (n - r) * 256 ^ 3 < 256 ^ s := by
      have hlt := h.lt
      have hle := hround.le
      have hpos : 0 < 256 ^ s := by positivity
      rw [Nat.sub_mul]
      rw [Nat.add_mul] at hlt
      omega
    have hchain : (n - r) * 2 ^ 15 * 256 ^ 3 < n * 256 ^ 3 := by
      calc (n - r) * 2 ^ 15 * 256 ^ 3 = (n - r) * 256 ^ 3 * 2 ^ 15 := by ring
        _ < 256 ^ s * 2 ^ 15 := Nat.mul_lt_mul_of_pos_right hscaled (by omega)
        _ = 2 ^ 15 * 256 ^ s := Nat.mul_comm _ _
        _ ≤ m * 256 ^ s := Nat.mul_le_mul_right _ hlow
        _ ≤ n * 256 ^ 3 := h.le
    exact Nat.lt_of_mul_lt_mul_right hchain

section Words

variable {t u : ℕ}

theorem numBytes_lt_255 (ht : t < 2 ^ 256) : numBytes t < 255 := by
  have hle := numBytes_lt t 32 (by calc t < 2 ^ 256 := ht
    _ = 256 ^ 32 := by norm_num)
  omega

theorem byteCount_lt (ht : t < 2 ^ 256) : byteCount t < 2 ^ 8 := by
  have hlt := numBytes_lt_255 ht
  unfold byteCount
  split_ifs
  · omega
  · omega

theorem getCompact_toNat (hpos : 0 < t) (ht : t < 2 ^ 256) :
    (getCompact t).toNat = byteCount t * 2 ^ 24 + mantissa t := by
  have hm := (normal_mantissa t hpos).high
  rw [getCompact_eq t hpos, word_toNat _ _ (by omega) (byteCount_lt ht)]

/-- The sign bit is clear. -/
theorem signBit_clear (ht : t < 2 ^ 256) : getCompact t &&& 0x00800000 = 0 := by
  rcases Nat.eq_zero_or_pos t with rfl | hpos
  · decide
  · by_contra hsign
    have hm := (normal_mantissa t hpos).high
    have hbit := (signBit_iff _).mp hsign
    rw [getCompact_toNat hpos ht] at hbit
    omega

theorem getCompact_mono (htu : t ≤ u) (hu : u < 2 ^ 256) :
    (getCompact t).toNat ≤ (getCompact u).toNat := by
  rcases Nat.eq_zero_or_pos t with rfl | hpos
  · rw [Nat.cast_zero, getCompact_zero]
    exact Nat.zero_le _
  · have ht := normal_mantissa t hpos
    have hu' := normal_mantissa u (by omega)
    have hcount := ht.count_le hu' htu
    have hhigh := ht.high
    rw [getCompact_toNat hpos (by omega), getCompact_toNat (by omega) hu]
    rcases Nat.lt_or_eq_of_le hcount with hlt | heq
    · omega
    · rw [heq] at ht ⊢
      have hmantissa := ht.mantissa_le hu' htu
      omega

theorem decoded_mono (htu : t ≤ u) (hu : u < 2 ^ 256) :
    setCompact (getCompact t) ≤ setCompact (getCompact u) := by
  rcases Nat.eq_zero_or_pos t with rfl | hpos
  · rw [Nat.cast_zero, getCompact_zero, setCompact_zero]
    exact (round_spec u (numBytes_lt_255 hu)).1
  · have ht := normal_mantissa t hpos
    have hu' := normal_mantissa u (by omega)
    have hcount := ht.count_le hu' htu
    rw [setCompact_getCompact t hpos (numBytes_lt_255 (by omega)),
      setCompact_getCompact u (by omega) (numBytes_lt_255 hu), Int.ofNat_le, magnitude_eq,
      magnitude_eq]
    refine Nat.div_le_div_right ?_
    rcases Nat.lt_or_eq_of_le hcount with hlt | heq
    · calc mantissa t * 256 ^ byteCount t ≤ 2 ^ 23 * 256 ^ byteCount t :=
            Nat.mul_le_mul_right _ ht.high.le
        _ = 2 ^ 15 * 256 ^ (byteCount t + 1) := by ring
        _ ≤ mantissa u * 256 ^ byteCount u :=
            Nat.mul_le_mul hu'.low (Nat.pow_le_pow_right (by omega) hlt)
    · rw [heq] at ht ⊢
      exact Nat.mul_le_mul_right _ (ht.mantissa_le hu' htu)

/-- A number that was read back is written as it was. -/
theorem getCompact_idem (ht : t < 2 ^ 256) :
    getCompact (setCompact (getCompact t)) = getCompact t := by
  rcases Nat.eq_zero_or_pos t with rfl | hpos
  · rw [Nat.cast_zero, getCompact_zero, setCompact_zero, getCompact_zero]
  · have hnormal := normal_mantissa t hpos
    have hread := setCompact_getCompact t hpos (numBytes_lt_255 ht)
    have hrpos := (round_spec t (numBytes_lt_255 ht)).2.2 hpos
    rw [hread] at hrpos ⊢
    rcases hnormal.round with hexact | hround
    · rw [hexact]
    · have hr : 0 < magnitude (mantissa t) (byteCount t) := by omega
      obtain ⟨hm, hs⟩ := (normal_mantissa _ hr).unique hround
      rw [getCompact_eq _ hr, getCompact_eq t hpos, hm, hs]

end Words

/-- What a number of 256 bits becomes in the compact format. -/
structure Approximates (t : ℕ) : Prop where
  le : setCompact (getCompact t) ≤ t
  error : 0 < t → (t - setCompact (getCompact t)) * 2 ^ 15 < t
  idempotent : getCompact (setCompact (getCompact t)) = getCompact t
  unsigned : getCompact t &&& 0x00800000 = 0
  monotone : ∀ u : ℕ, t ≤ u → u < 2 ^ 256 → (getCompact t).toNat ≤ (getCompact u).toNat ∧
    setCompact (getCompact t) ≤ setCompact (getCompact u)

/-- compact_bignum_t's comparisons are those of the decoded numbers. -/
def OrderedAsNumbers (a b : BitVec 32) : Prop :=
  (lt a b = true ↔ setCompact a < setCompact b) ∧ (gt a b = true ↔ setCompact a > setCompact b) ∧
    (le a b = true ↔ setCompact a ≤ setCompact b) ∧ (ge a b = true ↔ setCompact a ≥ setCompact b)

theorem orderedAsNumbers (a b : BitVec 32) : OrderedAsNumbers a b := by
  refine ⟨decide_eq_true_iff, decide_eq_true_iff, ?_, ?_⟩
  · rw [le, gt, Bool.not_eq_true', decide_eq_false_iff_not, gt_iff_lt, not_lt]
  · rw [ge, lt, Bool.not_eq_true', decide_eq_false_iff_not, not_lt, ge_iff_le]

theorem compact_approximates :
    (∀ t : ℕ, t < 2 ^ 256 → Approximates t) ∧ ∀ a b : BitVec 32, OrderedAsNumbers a b := by
  refine ⟨fun t ht => ?_, orderedAsNumbers⟩
  obtain ⟨_, hle, _⟩ := round_spec t (numBytes_lt_255 ht)
  refine ⟨hle, fun hpos => ?_, getCompact_idem ht, signBit_clear ht,
    fun u htu hu => ⟨getCompact_mono htu hu, decoded_mono htu hu⟩⟩
  have herror := (normal_mantissa t hpos).error_lt hpos
  rw [setCompact_getCompact t hpos (numBytes_lt_255 ht)] at hle ⊢
  have hsub : ((t - magnitude (mantissa t) (byteCount t) : ℕ) : ℤ) =
      t - magnitude (mantissa t) (byteCount t) := Int.ofNat_sub (by omega)
  rw [← hsub]
  exact_mod_cast herror

theorem compact_approximates_limit : Approximates (2 ^ 236 - 1) :=
  compact_approximates.1 (2 ^ 236 - 1) (by norm_num)

end UmbrellaLtc.CompactOrder
