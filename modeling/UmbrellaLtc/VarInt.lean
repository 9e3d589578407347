import UmbrellaLtc.Codec

/-!
The variable-length integers of serialize.h: seven bits a byte, most significant
first, with one subtracted at every further byte. The writer stops at the first
number that is at most 0x7F, which a negative one is at once, so that only its
low seven bits are written.
-/

namespace UmbrellaLtc.VarInt

open Codec

/-- `n & 0x7F`. -/
def low7 (n : ℤ) : Byte := BitVec.ofInt 8 (n % 128)

/-- The entries of tmp behind the first, in the order they are written. The fuel is
the size of tmp. -/
def highBytes : ℕ → ℤ → List Byte
  | 0, _ => []
  | fuel + 1, n =>
      if n ≤ 0x7F then []
      else highBytes fuel (n / 128 - 1) ++ [low7 (n / 128 - 1) ||| 0x80]

/-- WriteVarInt of a type with the given number of bits. -/
def writeVarInt (width : ℕ) (n : ℤ) : List Byte := highBytes ((width + 6) / 7) n ++ [low7 n]

/-- ReadVarInt, with what it has read so far. -/
def readVarInt : ℤ → List Byte → Option (ℤ × List Byte)
  | _, [] => none
  | n, chData :: bs =>
      let n := n * 128 + chData.toNat % 128
      if chData &&& 0x80 ≠ 0 then readVarInt (n + 1) bs else some (n, bs)

/-- GetSizeOfVarInt; the fuel is one more than the size of tmp. -/
def sizeLoop : ℕ → ℤ → ℕ
  | 0, _ => 0
  | fuel + 1, n => 1 + if n ≤ 0x7F then 0 else sizeLoop fuel (n / 128 - 1)

def getSizeOfVarInt (width : ℕ) (n : ℤ) : ℕ := sizeLoop ((width + 6) / 7 + 1) n

/-- The writer and the counter make the same rounds. -/
theorem writeVarInt_length (width : ℕ) (n : ℤ) :
    (writeVarInt width n).length = getSizeOfVarInt width n := by
  have hloop : ∀ fuel n, (highBytes fuel n).length + 1 = sizeLoop (fuel + 1) n := by
    intro fuel
    induction fuel with
    | zero =>
      intro n
      unfold highBytes sizeLoop
      split_ifs
      · rfl
      · rfl
    | succ fuel ih =>
      intro n
      unfold highBytes sizeLoop
      split_ifs
      · rfl
      · have hrest := ih (n / 128 - 1)
        rw [List.length_append, List.length_singleton]
        omega
  unfold writeVarInt getSizeOfVarInt
  rw [List.length_append, List.length_singleton, hloop]

theorem low7_toNat (n : ℤ) : ((low7 n).toNat : ℤ) = n % 128 := by
  unfold low7
  rw [BitVec.toNat_ofInt]
  omega

theorem low7_flag (n : ℤ) : low7 n &&& 0x80 = 0 ∧ (low7 n ||| 0x80) &&& 0x80 ≠ 0 ∧
    (((low7 n ||| 0x80).toNat : ℤ)) % 128 = n % 128 := by
  have hlt : (low7 n).toNat < 128 := by
    have hval := low7_toNat n
    omega
  have hall : ∀ b : Byte, b.toNat < 128 →
      b &&& 0x80 = 0 ∧ (b ||| 0x80) &&& 0x80 ≠ 0 ∧ (b ||| 0x80).toNat % 128 = b.toNat := by
    decide +kernel
  obtain ⟨hclear, hset, hlow⟩ := hall _ hlt
  refine ⟨hclear, hset, ?_⟩
  have hval := low7_toNat n
  omega

/-- Reading over the high bytes leaves the number without its low seven bits. -/
theorem readVarInt_highBytes (fuel : ℕ) (n : ℤ) (hn : 0 ≤ n) (hfuel : n < 128 ^ (fuel + 1))
    (bs : List Byte) : readVarInt 0 (highBytes fuel n ++ bs) = readVarInt (n / 128) bs := by
  induction fuel generalizing n bs with
  | zero =>
    have hzero : n / 128 = 0 := by omega
    rw [hzero]
    rfl
  | succ fuel ih =>
    unfold highBytes
    split_ifs with hsmall
    · have hzero : n / 128 = 0 := by omega
      rw [hzero]
      rfl
    · have hpow : (128 : ℤ) ^ (fuel + 1 + 1) = 128 ^ (fuel + 1) * 128 := pow_succ _ _
      obtain ⟨-, hset, hlow⟩ := low7_flag (n / 128 - 1)
      rw [List.append_assoc, ih (n / 128 - 1) (by omega) (by omega)]
      show (if _ then _ else _) = _
      rw [if_pos hset]
      congr 1
      omega

theorem readVarInt_writeVarInt (width : ℕ) (n : ℤ) (hn : 0 ≤ n)
    (hwidth : n < 128 ^ ((width + 6) / 7 + 1)) (bs : List Byte) :
    readVarInt 0 (writeVarInt width n ++ bs) = some (n, bs) := by
  unfold writeVarInt
  rw [List.append_assoc, readVarInt_highBytes _ n hn hwidth]
  obtain ⟨hclear, -, -⟩ := low7_flag n
  show (if _ then _ else _) = _
  rw [if_neg (by rw [hclear]; simp)]
  have hval := low7_toNat n
  congr 2
  omega

/-- Of a negative number the low seven bits come back. -/
theorem readVarInt_negative (width : ℕ) (n : ℤ) (hn : n < 0) (bs : List Byte) :
    readVarInt 0 (writeVarInt width n ++ bs) = some (n % 128, bs) := by
  have hhigh : highBytes ((width + 6) / 7) n = [] := by
    cases (width + 6) / 7 with
    | zero => rfl
    | succ fuel => exact if_pos (by omega)
  obtain ⟨hclear, -, -⟩ := low7_flag n
  unfold writeVarInt
  rw [hhigh]
  show (if _ then _ else _) = _
  rw [if_neg (by rw [hclear]; simp)]
  have hval := low7_toNat n
  congr 2
  omega

end UmbrellaLtc.VarInt
