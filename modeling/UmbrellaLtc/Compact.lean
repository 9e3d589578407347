import Mathlib.Data.Nat.Log
import Mathlib.Data.BitVec
import Mathlib.Tactic.NormNum
import Mathlib.Tactic.Positivity
import Mathlib.Tactic.Ring
import Mathlib.Tactic.SplitIfs

/-!
The compact number format of bignum.h: a byte count in the top byte, a sign bit
and a mantissa of 23 bits. OpenSSL's BIGNUM is an integer. Writing a positive
number keeps its leading bytes, so that reading it back rounds down, and the
mantissa is never small.
-/

namespace UmbrellaLtc.Compact

/-- BN_num_bytes. -/
def numBytes (n : ℕ) : ℕ := if n = 0 then 0 else n.log2 / 8 + 1

/-- CBigNum::SetCompact. -/
def setCompact (compact : BitVec 32) : ℤ :=
  let nSize := (compact >>> 24).toNat
  let fNegative := compact &&& 0x00800000 ≠ 0
  let nWord := (compact &&& 0x007fffff).toNat
  let magnitude := if nSize ≤ 3 then nWord >>> (8 * (3 - nSize)) else nWord <<< (8 * (nSize - 3))
  if fNegative then -(magnitude : ℤ) else magnitude

/-- CBigNum::GetCompact. -/
def getCompact (bn : ℤ) : BitVec 32 :=
  let nSize := numBytes bn.natAbs
  let nCompact : BitVec 32 :=
    if nSize ≤ 3 then BitVec.ofNat 32 (bn.natAbs <<< (8 * (3 - nSize)))
    else BitVec.ofNat 32 (bn.natAbs >>> (8 * (nSize - 3)))
  let (nCompact, nSize) :=
    if nCompact &&& 0x00800000 ≠ 0 then (nCompact >>> 8, nSize + 1) else (nCompact, nSize)
  nCompact ||| BitVec.ofNat 32 nSize <<< 24 ||| (if bn < 0 then 0x00800000 else 0)

/-- The word with mantissa `m` and byte count `s`. -/
def word (m s : ℕ) : BitVec 32 := BitVec.ofNat 32 m ||| BitVec.ofNat 32 s <<< 24

theorem word_toNat (m s : ℕ) (hm : m < 2 ^ 24) (hs : s < 2 ^ 8) :
    (word m s).toNat = s * 2 ^ 24 + m := by
  have hshift : (s <<< 24) % 2 ^ 32 = s * 2 ^ 24 := by
    rw [Nat.shiftLeft_eq]
    omega
  have hsmod : s % 2 ^ 32 = s := by omega
  have hmmod : m % 2 ^ 32 = m := by omega
  rw [word, BitVec.toNat_or, BitVec.toNat_shiftLeft, BitVec.toNat_ofNat, BitVec.toNat_ofNat, hsmod,
    hmmod, hshift, Nat.or_comm, mul_comm]
  exact (Nat.two_pow_add_eq_or_of_lt hm s).symm

theorem signBit_iff (c : BitVec 32) : c &&& 0x00800000 ≠ 0 ↔ c.toNat / 2 ^ 23 % 2 = 1 := by
  have hmask : (0x00800000 : BitVec 32) = BitVec.twoPow 32 23 := by decide
  have hne : BitVec.twoPow 32 23 ≠ 0 := by decide
  rw [hmask, BitVec.and_twoPow, BitVec.getLsbD, Nat.testBit_eq_decide_div_mod_eq]
  by_cases hbit : c.toNat / 2 ^ 23 % 2 = 1
  · rw [if_pos (decide_eq_true hbit)]
    exact iff_of_true hne hbit
  · rw [if_neg (by rw [decide_eq_true_eq]; exact hbit)]
    exact iff_of_false (not_not.mpr rfl) hbit

/-- The magnitude of a non-negative compact number. -/
def magnitude (m s : ℕ) : ℕ := if s ≤ 3 then m / 256 ^ (3 - s) else m * 256 ^ (s - 3)

theorem pow_eight (k : ℕ) : (2 : ℕ) ^ (8 * k) = 256 ^ k := by
  rw [pow_mul]
  norm_num

theorem setCompact_word (m s : ℕ) (hm : m < 2 ^ 23) (hs : s < 2 ^ 8) :
    setCompact (word m s) = magnitude m s := by
  have hword := word_toNat m s (by omega) hs
  have hsize : (word m s >>> 24).toNat = s := by
    rw [BitVec.toNat_ushiftRight, hword, Nat.shiftRight_eq_div_pow]
    omega
  have hmantissa : (word m s &&& 0x007fffff).toNat = m := by
    have hmask : (0x007fffff : BitVec 32).toNat = 2 ^ 23 - 1 := by decide
    rw [BitVec.toNat_and, hword, hmask, Nat.and_two_pow_sub_one_eq_mod]
    omega
  have hsign : ¬ word m s &&& 0x00800000 ≠ 0 := by
    rw [signBit_iff, hword]
    omega
  simp only [setCompact, hsize, hmantissa, if_neg hsign, magnitude, Nat.shiftRight_eq_div_pow,
    Nat.shiftLeft_eq, pow_eight]

theorem numBytes_spec (n : ℕ) (hn : 0 < n) :
    1 ≤ numBytes n ∧ 256 ^ (numBytes n - 1) ≤ n ∧ n < 256 ^ numBytes n := by
  have hne : n ≠ 0 := by omega
  have hlow : 2 ^ n.log2 ≤ n := Nat.log2_self_le hne
  have hhigh : n < 2 ^ (n.log2 + 1) := Nat.lt_log2_self
  rw [numBytes, if_neg hne]
  refine ⟨by omega, ?_, ?_⟩
  · rw [Nat.add_sub_cancel, ← pow_eight]
    exact (Nat.pow_le_pow_right (by norm_num) (by omega)).trans hlow
  · rw [← pow_eight]
    exact hhigh.trans_le (Nat.pow_le_pow_right (by norm_num) (by omega))

/-- The leading three bytes of a number, before the sign bit is looked at. -/
def leading (n : ℕ) : ℕ :=
  if numBytes n ≤ 3 then n * 256 ^ (3 - numBytes n) else n / 256 ^ (numBytes n - 3)

theorem leading_spec (n : ℕ) (hn : 0 < n) :
    256 ^ 2 ≤ leading n ∧ leading n < 256 ^ 3 ∧
      leading n * 256 ^ numBytes n ≤ n * 256 ^ 3 ∧
      n * 256 ^ 3 < (leading n + 1) * 256 ^ numBytes n := by
  obtain ⟨hbytes, hlow, hhigh⟩ := numBytes_spec n hn
  unfold leading
  generalize hb : numBytes n = b at *
  by_cases hsmall : b ≤ 3
  · rw [if_pos hsmall]
    have hsplit : (256 : ℕ) ^ (3 - b) * 256 ^ b = 256 ^ 3 := by
      rw [← pow_add]
      congr 1
      omega
    have hsplit' : (256 : ℕ) ^ (3 - b) * 256 ^ (b - 1) = 256 ^ 2 := by
      rw [← pow_add]
      congr 1
      omega
    have hpos : 0 < (256 : ℕ) ^ (3 - b) := by positivity
    have hposb : 0 < (256 : ℕ) ^ b := by positivity
    refine ⟨?_, ?_, ?_, ?_⟩
    · calc 256 ^ 2 = 256 ^ (3 - b) * 256 ^ (b - 1) := hsplit'.symm
        _ ≤ 256 ^ (3 - b) * n := Nat.mul_le_mul_left _ hlow
        _ = n * 256 ^ (3 - b) := Nat.mul_comm _ _
    · calc n * 256 ^ (3 - b) < 256 ^ b * 256 ^ (3 - b) := Nat.mul_lt_mul_of_pos_right hhigh hpos
        _ = 256 ^ 3 := by rw [Nat.mul_comm, hsplit]
    · rw [Nat.mul_assoc, hsplit]
    · rw [Nat.add_mul, Nat.mul_assoc, hsplit, Nat.one_mul]
      omega
  · rw [if_neg hsmall]
    have hsplit : (256 : ℕ) ^ (b - 3) * 256 ^ 3 = 256 ^ b := by
      rw [← pow_add]
      congr 1
      omega
    have hsplit' : (256 : ℕ) ^ 2 * 256 ^ (b - 3) = 256 ^ (b - 1) := by
      rw [← pow_add]
      congr 1
      omega
    have hpos : 0 < (256 : ℕ) ^ (b - 3) := by positivity
    refine ⟨?_, ?_, ?_, ?_⟩
    · rw [Nat.le_div_iff_mul_le hpos, hsplit']
      exact hlow
    · rw [Nat.div_lt_iff_lt_mul hpos, Nat.mul_comm, hsplit]
      exact hhigh
    · calc n / 256 ^ (b - 3) * 256 ^ b = n / 256 ^ (b - 3) * 256 ^ (b - 3) * 256 ^ 3 := by
            rw [← hsplit, Nat.mul_assoc]
        _ ≤ n * 256 ^ 3 := Nat.mul_le_mul_right _ (Nat.div_mul_le_self _ _)
    · have hlt : n < (n / 256 ^ (b - 3) + 1) * 256 ^ (b - 3) := by
        rw [Nat.mul_comm]
        exact Nat.lt_mul_div_succ n hpos
      calc n * 256 ^ 3 < (n / 256 ^ (b - 3) + 1) * 256 ^ (b - 3) * 256 ^ 3 :=
            Nat.mul_lt_mul_of_pos_right hlt (by norm_num)
        _ = (n / 256 ^ (b - 3) + 1) * 256 ^ b := by rw [← hsplit, Nat.mul_assoc]

/-- The mantissa and the byte count that are written for a positive number. -/
def mantissa (n : ℕ) : ℕ := if leading n < 2 ^ 23 then leading n else leading n / 256

def byteCount (n : ℕ) : ℕ := if leading n < 2 ^ 23 then numBytes n else numBytes n + 1

theorem getCompact_eq (n : ℕ) (hn : 0 < n) : getCompact n = word (mantissa n) (byteCount n) := by
  have hlead := (leading_spec n hn).2.1
  have hcompact : (if numBytes n ≤ 3 then BitVec.ofNat 32 (n <<< (8 * (3 - numBytes n)))
      else BitVec.ofNat 32 (n >>> (8 * (numBytes n - 3)))) = BitVec.ofNat 32 (leading n) := by
    rw [leading, Nat.shiftLeft_eq, Nat.shiftRight_eq_div_pow, pow_eight, pow_eight]
    split_ifs <;> rfl
  have htoNat : (BitVec.ofNat 32 (leading n)).toNat = leading n := by
    rw [BitVec.toNat_ofNat]
    omega
  have hsign : BitVec.ofNat 32 (leading n) &&& 0x00800000 ≠ 0 ↔ ¬ leading n < 2 ^ 23 := by
    rw [signBit_iff, htoNat]
    omega
  have hpos : ¬ ((n : ℤ) < 0) := by omega
  have hzero : ∀ c : BitVec 32, c ||| 0 = c := fun c => BitVec.or_zero
  simp only [getCompact, Int.natAbs_natCast, hcompact, if_neg hpos, hzero]
  by_cases hbig : leading n < 2 ^ 23
  · rw [if_neg (by rw [hsign]; exact not_not.mpr hbig)]
    simp only [word, mantissa, byteCount, if_pos hbig]
  · rw [if_pos (hsign.mpr hbig)]
    have hshift : BitVec.ofNat 32 (leading n) >>> 8 = BitVec.ofNat 32 (leading n / 256) := by
      apply BitVec.eq_of_toNat_eq
      rw [BitVec.toNat_ushiftRight, htoNat, Nat.shiftRight_eq_div_pow, BitVec.toNat_ofNat]
      omega
    simp only [word, mantissa, byteCount, if_neg hbig, hshift]

/-- The number lies between the written one and the next; the mantissa has at
least 16 bits. -/
theorem mantissa_spec (n : ℕ) (hn : 0 < n) :
    2 ^ 15 ≤ mantissa n ∧ mantissa n < 2 ^ 23 ∧
      mantissa n * 256 ^ byteCount n ≤ n * 256 ^ 3 ∧
      n * 256 ^ 3 < (mantissa n + 1) * 256 ^ byteCount n := by
  obtain ⟨hlow, hhigh, hle, hlt⟩ := leading_spec n hn
  unfold mantissa byteCount
  by_cases hbig : leading n < 2 ^ 23
  · simp only [if_pos hbig]
    exact ⟨by omega, hbig, hle, hlt⟩
  · simp only [if_neg hbig, pow_succ (256 : ℕ) (numBytes n)]
    have hpos : 0 < 256 ^ numBytes n := by positivity
    refine ⟨by omega, by omega, ?_, ?_⟩
    · calc leading n / 256 * (256 ^ numBytes n * 256)
          = leading n / 256 * 256 * 256 ^ numBytes n := by ring
        _ ≤ leading n * 256 ^ numBytes n := Nat.mul_le_mul_right _ (Nat.div_mul_le_self _ _)
        _ ≤ n * 256 ^ 3 := hle
    · have hnext : leading n + 1 ≤ (leading n / 256 + 1) * 256 := by omega
      calc n * 256 ^ 3 < (leading n + 1) * 256 ^ numBytes n := hlt
        _ ≤ (leading n / 256 + 1) * 256 * 256 ^ numBytes n := Nat.mul_le_mul_right _ hnext
        _ = (leading n / 256 + 1) * (256 ^ numBytes n * 256) := by ring

theorem magnitude_le (n m s : ℕ) (h : m * 256 ^ s ≤ n * 256 ^ 3) : magnitude m s ≤ n := by
  unfold magnitude
  by_cases hs : s ≤ 3
  · rw [if_pos hs]
    have hsplit : (256 : ℕ) ^ 3 = 256 ^ (3 - s) * 256 ^ s := by
      rw [← pow_add]
      congr 1
      omega
    rw [hsplit, ← Nat.mul_assoc] at h
    have hle : m ≤ n * 256 ^ (3 - s) := Nat.le_of_mul_le_mul_right h (by positivity)
    exact Nat.div_le_of_le_mul (by rwa [Nat.mul_comm] at hle)
  · rw [if_neg hs]
    have hsplit : (256 : ℕ) ^ s = 256 ^ (s - 3) * 256 ^ 3 := by
      rw [← pow_add]
      congr 1
      omega
    rw [hsplit, ← Nat.mul_assoc] at h
    exact Nat.le_of_mul_le_mul_right h (by norm_num)

theorem magnitude_pos (n m s : ℕ) (hn : 0 < n) (hm : 0 < m)
    (h : n * 256 ^ 3 < (m + 1) * 256 ^ s) : 0 < magnitude m s := by
  unfold magnitude
  by_cases hs : s ≤ 3
  · rw [if_pos hs]
    have hsplit : (256 : ℕ) ^ 3 = 256 ^ (3 - s) * 256 ^ s := by
      rw [← pow_add]
      congr 1
      omega
    rw [hsplit, ← Nat.mul_assoc] at h
    have hlt : n * 256 ^ (3 - s) < m + 1 := Nat.lt_of_mul_lt_mul_right h
    have hone : 256 ^ (3 - s) ≤ n * 256 ^ (3 - s) := Nat.le_mul_of_pos_left _ hn
    exact Nat.div_pos (by omega) (by positivity)
  · rw [if_neg hs]
    positivity

/-- Writing and reading back a number of at most 254 bytes. -/
theorem setCompact_getCompact (n : ℕ) (hn : 0 < n) (hbytes : numBytes n < 255) :
    setCompact (getCompact n) = magnitude (mantissa n) (byteCount n) := by
  obtain ⟨-, hm, -, -⟩ := mantissa_spec n hn
  have hcount : byteCount n < 2 ^ 8 := by
    unfold byteCount
    split_ifs <;> omega
  rw [getCompact_eq n hn, setCompact_word _ _ hm hcount]

theorem getCompact_zero : getCompact 0 = 0 := by decide

theorem setCompact_zero : setCompact 0 = 0 := by decide

/-- Rounding is downwards, and never down to zero. -/
theorem round_spec (n : ℕ) (hbytes : numBytes n < 255) :
    0 ≤ setCompact (getCompact n) ∧ setCompact (getCompact n) ≤ n ∧
      (0 < n → 0 < setCompact (getCompact n)) := by
  rcases Nat.eq_zero_or_pos n with rfl | hn
  · rw [Nat.cast_zero, getCompact_zero, setCompact_zero]
    exact ⟨le_refl _, le_refl _, fun h => absurd h (Nat.lt_irrefl 0)⟩
  · obtain ⟨hlow, -, hle, hlt⟩ := mantissa_spec n hn
    have hround := magnitude_le n _ _ hle
    have hpos := magnitude_pos n _ _ hn (by omega) hlt
    rw [setCompact_getCompact n hn hbytes]
    omega

theorem numBytes_lt (n k : ℕ) (hn : n < 256 ^ k) : numBytes n ≤ k := by
  rcases Nat.eq_zero_or_pos n with rfl | hpos
  · simp [numBytes]
  · obtain ⟨hone, hlow, -⟩ := numBytes_spec n hpos
    have hlt : 256 ^ (numBytes n - 1) < 256 ^ k := hlow.trans_lt hn
    have := (Nat.pow_lt_pow_iff_right (by norm_num : 1 < 256)).mp hlt
    omega

end UmbrellaLtc.Compact
