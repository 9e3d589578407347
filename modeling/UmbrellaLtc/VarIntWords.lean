import UmbrellaLtc.VarInt
import UmbrellaLtc.Transaction

/-!
The variable-length integers of serialize.h at an unsigned type. The writer fills a buffer
on the stack from the least significant digit on and writes it backwards; the reader shifts
digits into a word that may overflow. Both are the functions on integers, taken modulo the
width. A terminated string of bytes stands for one number, and the writer writes it back.
-/

namespace UmbrellaLtc.VarIntWords

open Codec VarInt Transaction

section Words

variable {w : ℕ}

/-- The loop of WriteVarInt over tmp, with the room that is left there; `none` when it
writes past the end. -/
def fillTmp : ℕ → Bool → BitVec w → Option (List Byte)
  | 0, _, _ => none
  | room + 1, first, n =>
      let entry := (n &&& 0x7F).setWidth 8 ||| (if first then 0x00 else 0x80)
      if n ≤ 0x7F then some [entry] else (fillTmp room false ((n >>> 7) - 1)).map (entry :: ·)

/-- `unsigned char tmp[(sizeof(n)*8+6)/7];` -/
def tmpSize (w : ℕ) : ℕ := (w + 6) / 7

def writeVarInt (n : BitVec w) : Option (List Byte) :=
  (fillTmp (tmpSize w) true n).map List.reverse

/-- GetSizeOfVarInt, `none` when it has not ended after the given number of rounds. -/
def countRounds : ℕ → BitVec w → Option ℕ
  | 0, _ => none
  | fuel + 1, n => if n ≤ 0x7F then some 1 else (countRounds fuel ((n >>> 7) - 1)).map (· + 1)

def getSizeOfVarInt (n : BitVec w) : Option ℕ := countRounds (tmpSize w) n

def readVarInt : BitVec w → List Byte → Option (BitVec w × List Byte)
  | _, [] => none
  | n, chData :: bs =>
      let n := (n <<< 7) ||| (chData &&& 0x7F).setWidth w
      if chData &&& 0x80 ≠ 0 then readVarInt (n + 1) bs else some (n, bs)

theorem mask_toNat (hw : 8 ≤ w) : (0x7F : BitVec w).toNat = 127 := by
  show (BitVec.ofNat w 127).toNat = 127
  rw [BitVec.toNat_ofNat]
  apply Nat.mod_eq_of_lt
  have hpow : 2 ^ 8 ≤ 2 ^ w := Nat.pow_le_pow_right (by decide) hw
  omega

theorem le_mask_iff (hw : 8 ≤ w) (n : BitVec w) : n ≤ 0x7F ↔ (n.toNat : ℤ) ≤ 0x7F := by
  rw [BitVec.le_def, mask_toNat hw]
  omega

theorem and_mask (hw : 8 ≤ w) (n : BitVec w) : (n &&& 0x7F).setWidth 8 = low7 n.toNat := by
  apply BitVec.eq_of_toNat_eq
  have hlow := low7_toNat n.toNat
  have hand : n.toNat &&& 127 = n.toNat % 128 := Nat.and_two_pow_sub_one_eq_mod n.toNat 7
  rw [BitVec.toNat_setWidth, BitVec.toNat_and, mask_toNat hw, hand]
  omega

/-- `n = (n >> 7) - 1` behind `n > 0x7F`. -/
theorem next_toNat (hw : 8 ≤ w) {n : BitVec w} (hn : ¬ n ≤ 0x7F) :
    (((n >>> 7) - 1).toNat : ℤ) = (n.toNat : ℤ) / 128 - 1 := by
  rw [le_mask_iff hw] at hn
  have hlt := n.isLt
  have hpow : 1 < 2 ^ w := Nat.one_lt_two_pow (by omega)
  have hone : (1 : BitVec w).toNat = 1 := by
    show (BitVec.ofNat w 1).toNat = 1
    rw [BitVec.toNat_ofNat, Nat.mod_eq_of_lt hpow]
  have hshift : (n >>> 7).toNat = n.toNat / 128 := by
    rw [BitVec.toNat_ushiftRight, Nat.shiftRight_eq_div_pow]
  rw [BitVec.toNat_sub_of_le (by rw [BitVec.le_def, hone, hshift]; omega), hone, hshift]
  omega

def flag (first : Bool) : Byte := if first then 0x00 else 0x80

/-- The buffer holds the bytes of the number in reverse, and they fit. -/
theorem fillTmp_eq (hw : 8 ≤ w) (room fuel : ℕ) (hfuel : room ≤ fuel) (first : Bool) (n : BitVec w)
    (hn : (n.toNat : ℤ) < 128 ^ (room + 1)) :
    fillTmp (room + 1) first n =
      some ((low7 n.toNat ||| flag first) :: (highBytes fuel n.toNat).reverse) := by
  induction room generalizing fuel first n with
  | zero =>
    have hsmall : (n.toNat : ℤ) ≤ 0x7F := by omega
    have hnone : highBytes fuel n.toNat = [] := by
      cases fuel with
      | zero => rfl
      | succ fuel => exact if_pos hsmall
    unfold fillTmp flag
    rw [if_pos ((le_mask_iff hw n).mpr hsmall), hnone, and_mask hw]
    rfl
  | succ room ih =>
    obtain ⟨fuel, rfl⟩ := Nat.exists_eq_succ_of_ne_zero (show fuel ≠ 0 by omega)
    unfold fillTmp highBytes
    by_cases hsmall : n ≤ 0x7F
    · rw [if_pos hsmall, if_pos ((le_mask_iff hw n).mp hsmall), and_mask hw]
      rfl
    · have hnext := next_toNat hw hsmall
      have hpow : (128 : ℤ) ^ (room + 1 + 1) = 128 ^ (room + 1) * 128 := pow_succ _ _
      rw [if_neg hsmall, if_neg (mt (le_mask_iff hw n).mpr hsmall), and_mask hw,
        ih fuel (by omega) false ((n >>> 7) - 1) (by omega), hnext, List.reverse_append]
      rfl

/-- The rounds of the counter are those of the writer. -/
theorem countRounds_eq (fuel : ℕ) (first : Bool) (n : BitVec w) :
    countRounds fuel n = (fillTmp fuel first n).map List.length := by
  induction fuel generalizing first n with
  | zero => rfl
  | succ fuel ih =>
    unfold countRounds fillTmp
    by_cases hsmall : n ≤ 0x7F
    · rw [if_pos hsmall, if_pos hsmall]
      rfl
    · rw [if_neg hsmall, if_neg hsmall, ih false, Option.map_map, Option.map_map]
      rfl

theorem lt_pow_tmpSize (n : BitVec w) : (n.toNat : ℤ) < 128 ^ tmpSize w := by
  have hlt : n.toNat < 2 ^ w := n.isLt
  have hpow : (2 : ℕ) ^ w ≤ 2 ^ (7 * tmpSize w) :=
    Nat.pow_le_pow_right (by decide) (by unfold tmpSize; omega)
  rw [pow_mul] at hpow
  have hcast : ((n.toNat : ℕ) : ℤ) < ((2 ^ 7) ^ tmpSize w : ℕ) := by
    exact_mod_cast Nat.lt_of_lt_of_le hlt hpow
  push_cast at hcast
  exact hcast

/-- The writer of the machine does not leave its buffer and writes what the integers give. -/
theorem writeVarInt_eq (hw : 8 ≤ w) (n : BitVec w) :
    writeVarInt n = some (VarInt.writeVarInt w n.toNat) := by
  have hsize : tmpSize w - 1 + 1 = tmpSize w := by
    unfold tmpSize
    omega
  have hlt := lt_pow_tmpSize n
  rw [← hsize] at hlt
  have hfill := fillTmp_eq hw (tmpSize w - 1) (tmpSize w) (by omega) true n hlt
  rw [hsize] at hfill
  unfold writeVarInt VarInt.writeVarInt
  rw [hfill, Option.map_some, List.reverse_cons, List.reverse_reverse]
  have hflag : low7 n.toNat ||| flag true = low7 n.toNat := BitVec.or_zero
  rw [hflag]
  rfl

theorem getSizeOfVarInt_eq (n : BitVec w) :
    getSizeOfVarInt n = (writeVarInt n).map List.length := by
  unfold getSizeOfVarInt writeVarInt
  rw [countRounds_eq _ true, Option.map_map]
  congr 1
  funext l
  exact List.length_reverse.symm

/-- One round of the reader, modulo the width. -/
theorem shift_or_eq (z : ℤ) (chData : Byte) :
    (BitVec.ofInt w z <<< 7) ||| (chData &&& 0x7F).setWidth w =
      BitVec.ofInt w (z * 128 + chData.toNat % 128) := by
  have hand : (chData &&& 0x7F).toNat = chData.toNat % 128 :=
    Nat.and_two_pow_sub_one_eq_mod chData.toNat 7
  have hdigit : (chData &&& 0x7F).setWidth w = BitVec.ofNat w (chData.toNat % 128) := by
    rw [← hand]
    exact BitVec.eq_of_toNat_eq (by rw [BitVec.toNat_setWidth, BitVec.toNat_ofNat])
  -- the digit and the shifted word have no bit in common
  have hdisjoint : (BitVec.ofInt w z <<< 7) &&& BitVec.ofNat w (chData.toNat % 128) = 0 := by
    apply BitVec.eq_of_getLsbD_eq
    intro i hi
    rw [BitVec.getLsbD_and, BitVec.getLsbD_shiftLeft, BitVec.getLsbD_ofNat]
    by_cases hlow : i < 7
    · simp [hlow]
    · have hbit : (chData.toNat % 128).testBit i = false := by
        apply Nat.testBit_lt_two_pow
        have hpow : 2 ^ 7 ≤ 2 ^ i := Nat.pow_le_pow_right (by decide) (by omega)
        omega
      simp [hbit]
  have htimes : BitVec.ofInt w z <<< 7 = BitVec.ofInt w (z * 128) := by
    have hpow : BitVec.twoPow w 7 = BitVec.ofInt w 128 := by
      apply BitVec.eq_of_toNat_eq
      rw [BitVec.toNat_twoPow, BitVec.toNat_ofInt]
      rfl
    rw [BitVec.shiftLeft_eq_mul_twoPow, BitVec.ofInt_mul, hpow]
  have hcast : BitVec.ofNat w (chData.toNat % 128) =
      BitVec.ofInt w ((chData.toNat : ℤ) % 128) := (BitVec.ofInt_natCast w _).symm
  rw [hdigit, ← BitVec.add_eq_or_of_and_eq_zero _ _ hdisjoint, htimes, hcast, BitVec.ofInt_add]

/-- The reader of the machine is that of the integers modulo the width. -/
theorem readVarInt_eq (z : ℤ) (bs : List Byte) :
    readVarInt (BitVec.ofInt w z) bs =
      (VarInt.readVarInt z bs).map fun p => (BitVec.ofInt w p.1, p.2) := by
  induction bs generalizing z with
  | nil => rfl
  | cons chData bs ih =>
    unfold readVarInt VarInt.readVarInt
    dsimp only
    rw [shift_or_eq]
    by_cases hmore : chData &&& 0x80 ≠ 0
    · have hone : BitVec.ofInt w (z * 128 + chData.toNat % 128) + 1 =
          BitVec.ofInt w (z * 128 + chData.toNat % 128 + 1) := by
        exact (BitVec.ofInt_add _ 1).symm
      rw [if_pos hmore, if_pos hmore, hone]
      exact ih _
    · rw [if_neg hmore, if_neg hmore]
      rfl

end Words

/-- The number that the comment in serialize.h gives for a string of bytes:
`(a[len-1] & 0x7F) + sum(i=1..len-1, 128^i*((a[len-i-1] & 0x7F)+1))`. -/
def encoded : List Byte → ℕ
  | [] => 0
  | a :: rest => 128 ^ rest.length * (a.toNat % 128 + if rest = [] then 0 else 1) + encoded rest

/-- All bytes but the last one have bit 128 set. -/
def Terminated (bytes : List Byte) : Prop :=
  ∃ digits last, bytes = digits ++ [last] ∧ (∀ a ∈ digits, a &&& 0x80 ≠ 0) ∧ last &&& 0x80 = 0

/-- A byte in front of others is a further digit. -/
theorem encoded_cons (a : Byte) {rest : List Byte} (hne : rest ≠ []) :
    encoded (a :: rest) = 128 ^ rest.length * (a.toNat % 128 + 1) + encoded rest := by
  conv_lhs => unfold encoded
  rw [if_neg hne]

theorem encoded_concat (digits : List Byte) (last : Byte) :
    encoded (digits ++ [last]) =
      (if digits = [] then 0 else 128 * (encoded digits + 1)) + last.toNat % 128 := by
  induction digits with
  | nil => simp [encoded]
  | cons a digits ih =>
    rw [List.cons_append, encoded_cons a (by simp), ih, List.length_append, List.length_singleton,
      if_neg (List.cons_ne_nil a digits)]
    by_cases hlast : digits = []
    · subst hlast
      simp [encoded]
    · rw [if_neg hlast, encoded_cons a hlast]
      ring

theorem readVarInt_encoded (z : ℤ) (digits : List Byte) (last : Byte) (rest : List Byte)
    (hdigits : ∀ a ∈ digits, a &&& 0x80 ≠ 0) (hlast : last &&& 0x80 = 0) :
    VarInt.readVarInt z (digits ++ [last] ++ rest) =
      some (z * 128 ^ (digits.length + 1) + encoded (digits ++ [last]), rest) := by
  induction digits generalizing z with
  | nil =>
    show (if _ then _ else _) = _
    rw [if_neg (by rw [hlast]; simp)]
    simp [encoded]
  | cons a digits ih =>
    obtain ⟨ha, hrest⟩ := List.forall_mem_cons.mp hdigits
    show (if _ then _ else _) = _
    rw [if_pos ha]
    refine (ih _ hrest).trans ?_
    congr 2
    have hvalue : encoded (a :: digits ++ [last]) =
        128 ^ (digits.length + 1) * (a.toNat % 128 + 1) + encoded (digits ++ [last]) := by
      rw [List.cons_append, encoded_cons a (by simp), List.length_append, List.length_singleton]
    rw [hvalue, List.length_cons]
    push_cast
    ring

/-- The writer takes the digits off again, the last one first. -/
theorem highBytes_encoded (fuel : ℕ) (digits : List Byte) (last : Byte)
    (hfuel : digits.length ≤ fuel) (hdigits : ∀ a ∈ digits, a &&& 0x80 ≠ 0) :
    highBytes fuel (encoded (digits ++ [last])) = digits := by
  induction digits using List.reverseRecOn generalizing fuel last with
  | nil =>
    have hsmall : ((encoded ([] ++ [last]) : ℕ) : ℤ) ≤ 0x7F := by
      rw [encoded_concat, if_pos rfl]
      omega
    cases fuel with
    | zero => rfl
    | succ fuel => exact if_pos hsmall
  | append_singleton digits c ih =>
    rw [List.length_append, List.length_singleton] at hfuel
    obtain ⟨fuel, rfl⟩ := Nat.exists_eq_succ_of_ne_zero (show fuel ≠ 0 by omega)
    have hc : c &&& 0x80 ≠ 0 := hdigits c (by simp)
    have hvalue : encoded (digits ++ [c] ++ [last]) =
        128 * (encoded (digits ++ [c]) + 1) + last.toNat % 128 := by
      rw [encoded_concat, if_neg (by simp)]
    have hlow : (encoded (digits ++ [c]) : ℤ) % 128 = c.toNat % 128 := by
      rw [encoded_concat]
      split_ifs <;> omega
    have hall : ∀ b : Byte, b &&& 0x80 ≠ 0 → BitVec.ofNat 8 (b.toNat % 128) ||| 0x80 = b := by
      decide
    have hdigit : low7 (encoded (digits ++ [c])) ||| 0x80 = c := by
      have hmod : low7 (encoded (digits ++ [c])) = BitVec.ofNat 8 (c.toNat % 128) := by
        unfold low7
        rw [hlow]
        exact BitVec.ofInt_natCast 8 (c.toNat % 128)
      rw [hmod]
      exact hall c hc
    have hnext : ((encoded (digits ++ [c] ++ [last]) : ℕ) : ℤ) / 128 - 1 =
        encoded (digits ++ [c]) := by
      rw [hvalue]
      omega
    unfold highBytes
    rw [if_neg (by rw [hvalue]; omega), hnext, hdigit,
      ih fuel c (by omega) fun a ha => hdigits a (List.mem_append_left _ ha)]

theorem pow_le_encoded {digits : List Byte} (last : Byte) (hne : digits ≠ []) :
    128 ^ digits.length ≤ encoded (digits ++ [last]) := by
  obtain ⟨a, digits, rfl⟩ := List.exists_cons_of_ne_nil hne
  rw [List.cons_append, encoded_cons a (by simp), List.length_append, List.length_singleton,
    List.length_cons]
  have hpos : 128 ^ (digits.length + 1) * 1 ≤
      128 ^ (digits.length + 1) * (a.toNat % 128 + 1) := Nat.mul_le_mul_left _ (by omega)
  omega

/-- A number of the type has no more digits than tmp has places. -/
theorem length_le_tmpSize {w : ℕ} {digits : List Byte} {last : Byte}
    (hvalue : encoded (digits ++ [last]) < 2 ^ w) : digits.length ≤ tmpSize w := by
  by_cases hne : digits = []
  · rw [hne]
    exact Nat.zero_le _
  · have hle := pow_le_encoded last hne
    have hpow : (128 : ℕ) ^ digits.length = 2 ^ (7 * digits.length) := by
      rw [pow_mul]
      rfl
    rw [hpow] at hle
    have hlt := (Nat.pow_lt_pow_iff_right (by decide : 1 < 2)).mp (Nat.lt_of_le_of_lt hle hvalue)
    unfold tmpSize
    omega

/-- What serialize.h promises of the encoding at a type of `w` bits. -/
structure OneToOne (w : ℕ) : Prop where
  roundTrip : ∀ (n : BitVec w) rest,
    ∃ bytes, writeVarInt n = some bytes ∧ readVarInt 0 (bytes ++ rest) = some (n, rest)
  sizes : ∀ n : BitVec w, ∃ bytes, writeVarInt n = some bytes ∧ bytes.length ≤ tmpSize w ∧
    getSizeOfVarInt n = some bytes.length
  prefixFree : ∀ (m n : BitVec w) bytes bytes', writeVarInt m = some bytes →
    writeVarInt n = some bytes' → bytes <+: bytes' → m = n
  onto : ∀ bytes, Terminated bytes → encoded bytes < 2 ^ w →
    ∃ n : BitVec w, readVarInt 0 bytes = some (n, []) ∧ n.toNat = encoded bytes ∧
      writeVarInt n = some bytes

section Width

variable {w : ℕ}

theorem readVarInt_writeVarInt (n : BitVec w) (rest : List Byte) :
    readVarInt 0 (VarInt.writeVarInt w n.toNat ++ rest) = some (n, rest) := by
  have hlt : (n.toNat : ℤ) < 128 ^ (tmpSize w + 1) := by
    refine (lt_pow_tmpSize n).trans_le ?_
    exact pow_le_pow_right₀ (by norm_num) (Nat.le_succ _)
  have hread := VarInt.readVarInt_writeVarInt w n.toNat (Int.natCast_nonneg _) hlt rest
  have hzero : (0 : BitVec w) = BitVec.ofInt w 0 := rfl
  rw [hzero, readVarInt_eq, hread, Option.map_some, BitVec.ofInt_natCast, BitVec.ofNat_toNat,
    BitVec.setWidth_eq]

theorem fillTmp_length {room : ℕ} {first : Bool} {n : BitVec w} {tmp : List Byte}
    (h : fillTmp room first n = some tmp) : tmp.length ≤ room := by
  induction room generalizing first n tmp with
  | zero => cases h
  | succ room ih =>
    unfold fillTmp at h
    by_cases hsmall : n ≤ 0x7F
    all_goals simp only [hsmall, if_true, if_false] at h
    · obtain rfl := Option.some.inj h
      exact Nat.succ_le_succ (Nat.zero_le _)
    · obtain ⟨tmp', hrest, rfl⟩ := Option.map_eq_some_iff.mp h
      exact Nat.succ_le_succ (ih hrest)

theorem writeVarInt_length_le {n : BitVec w} {bytes : List Byte}
    (h : writeVarInt n = some bytes) : bytes.length ≤ tmpSize w := by
  obtain ⟨tmp, hfill, rfl⟩ := Option.map_eq_some_iff.mp h
  rw [List.length_reverse]
  exact fillTmp_length hfill

theorem oneToOne_of_byte_le (hw : 8 ≤ w) : OneToOne w where
  roundTrip n rest := ⟨_, writeVarInt_eq hw n, readVarInt_writeVarInt n rest⟩
  sizes n := by
    have hwrite := writeVarInt_eq hw n
    refine ⟨_, hwrite, writeVarInt_length_le hwrite, ?_⟩
    rw [getSizeOfVarInt_eq, hwrite]
    rfl
  prefixFree m n bytes bytes' hm hn hprefix := by
    rw [writeVarInt_eq hw] at hm hn
    obtain rfl := Option.some.inj hm
    obtain rfl := Option.some.inj hn
    obtain ⟨rest, hrest⟩ := hprefix
    have hfirst := readVarInt_writeVarInt m rest
    have hsecond := readVarInt_writeVarInt n []
    rw [List.append_nil, ← hrest, hfirst] at hsecond
    exact (Prod.mk.inj (Option.some.inj hsecond)).1
  onto bytes hterm hvalue := by
    obtain ⟨digits, last, rfl, hdigits, hlast⟩ := hterm
    have hread := readVarInt_encoded 0 digits last [] hdigits hlast
    rw [List.append_nil, zero_mul, zero_add] at hread
    have hval : (BitVec.ofNat w (encoded (digits ++ [last]))).toNat = encoded (digits ++ [last]) := by
      rw [BitVec.toNat_ofNat, Nat.mod_eq_of_lt hvalue]
    refine ⟨BitVec.ofNat w (encoded (digits ++ [last])), ?_, hval, ?_⟩
    · have hzero : (0 : BitVec w) = BitVec.ofInt w 0 := rfl
      rw [hzero, readVarInt_eq, hread, Option.map_some, BitVec.ofInt_natCast]
    · have hall : ∀ b : Byte, b &&& 0x80 = 0 → BitVec.ofNat 8 (b.toNat % 128) = b := by
        decide
      have hlow : (encoded (digits ++ [last]) : ℤ) % 128 = last.toNat % 128 := by
        rw [encoded_concat]
        split_ifs <;> omega
      have hdigit : low7 (encoded (digits ++ [last])) = last := by
        unfold low7
        rw [hlow]
        exact (BitVec.ofInt_natCast 8 (last.toNat % 128)).trans (hall last hlast)
      rw [writeVarInt_eq hw, hval]
      unfold VarInt.writeVarInt
      have hhigh := highBytes_encoded (tmpSize w) digits last (length_le_tmpSize hvalue) hdigits
      rw [hdigit]
      exact congrArg (fun high => some (high ++ [last])) hhigh

end Width

/-- Both encodings of serialize.h are read back as they were written, with the announced
sizes. -/
theorem integers_oneToOne :
    OneToOne 32 ∧ OneToOne 64 ∧
      ∀ nSize ≤ MAX_SIZE, ∀ rest,
        readCompactSize (writeCompactSize nSize ++ rest) = some (nSize, rest) ∧
          (writeCompactSize nSize).length = getSizeOfCompactSize nSize :=
  ⟨oneToOne_of_byte_le (by decide), oneToOne_of_byte_le (by decide), fun nSize hsize rest =>
    ⟨compactSize.read_write nSize rest hsize, compactSize.write_length nSize⟩⟩

theorem compactSize_read_back_300 :
    300 ≤ MAX_SIZE ∧ readCompactSize (writeCompactSize 300 ++ [7]) = some (300, [7]) :=
  ⟨by decide, (integers_oneToOne.2.2 300 (by decide) [7]).1⟩

end UmbrellaLtc.VarIntWords
