import UmbrellaLtc.Codec
import Mathlib.Tactic.Ring

/-!
Bytes as hexadecimal digits, two for each byte and the higher one first, and the number that a
string of digits stands for.
-/

namespace UmbrellaLtc.Hex

open Codec

def digit (n : ℕ) : Char :=
  ['0', '1', '2', '3', '4', '5', '6', '7', '8', '9', 'a', 'b', 'c', 'd', 'e', 'f'].getD n '0'

/-- The value of a digit in lower or upper case. -/
def digitValue (c : Char) : Option ℕ :=
  if '0' ≤ c ∧ c ≤ '9' then some (c.toNat - '0'.toNat)
  else if 'a' ≤ c ∧ c ≤ 'f' then some (c.toNat - 'a'.toNat + 10)
  else if 'A' ≤ c ∧ c ≤ 'F' then some (c.toNat - 'A'.toNat + 10)
  else none

def encodeByte (b : Byte) : List Char := [digit (b.toNat / 16), digit (b.toNat % 16)]

def encode (bs : List Byte) : List Char := bs.flatMap encodeByte

/-- The bytes of a string that consists of digits, in pairs. -/
def decode : List Char → Option (List Byte)
  | [] => some []
  | [_] => none
  | c :: d :: rest => do
      let x ← digitValue c
      let y ← digitValue d
      return BitVec.ofNat 8 (16 * x + y) :: (← decode rest)

/-- The number that a string of digits stands for. -/
def number (s : List Char) : ℕ := s.foldl (fun n c => 16 * n + (digitValue c).getD 0) 0

theorem digitValue_digit {n : ℕ} (h : n < 16) : digitValue (digit n) = some n := by
  have hall : ∀ n : Fin 16, digitValue (digit n) = some n.1 := by decide
  exact hall ⟨n, h⟩

theorem digitValue_high (b : Byte) : digitValue (digit (b.toNat / 16)) = some (b.toNat / 16) :=
  digitValue_digit (by omega)

theorem digitValue_low (b : Byte) : digitValue (digit (b.toNat % 16)) = some (b.toNat % 16) :=
  digitValue_digit (by omega)

theorem byte_of_digits (b : Byte) : BitVec.ofNat 8 (16 * (b.toNat / 16) + b.toNat % 16) = b := by
  rw [Nat.div_add_mod, BitVec.ofNat_toNat, BitVec.setWidth_eq]

@[simp] theorem encode_nil : encode [] = [] := rfl

@[simp] theorem encode_cons (b : Byte) (bs : List Byte) :
    encode (b :: bs) = digit (b.toNat / 16) :: digit (b.toNat % 16) :: encode bs := rfl

theorem encode_append (bs bs' : List Byte) : encode (bs ++ bs') = encode bs ++ encode bs' :=
  List.flatMap_append

theorem length_encode (bs : List Byte) : (encode bs).length = 2 * bs.length := by
  induction bs with
  | nil => rfl
  | cons b bs ih =>
    rw [encode_cons, List.length_cons, List.length_cons, List.length_cons, ih]
    ring

/-- What has been written is read again. -/
theorem decode_encode (bs : List Byte) : decode (encode bs) = some bs := by
  induction bs with
  | nil => rfl
  | cons b bs ih =>
    rw [encode_cons, decode, digitValue_high, digitValue_low, ih]
    exact congrArg (fun c => some (c :: bs)) (byte_of_digits b)

theorem isSome_digitValue_encode (bs : List Byte) :
    ∀ c ∈ encode bs, (digitValue c).isSome = true := by
  intro c hc
  obtain ⟨b, -, hb⟩ := List.mem_flatMap.mp hc
  obtain rfl | rfl : c = digit (b.toNat / 16) ∨ c = digit (b.toNat % 16) := by
    simpa [encodeByte] using hb
  · rw [digitValue_high]
    rfl
  · rw [digitValue_low]
    rfl

/-- The digits of the bytes from the last on give the little-endian number. -/
theorem number_encode_reverse (bs : List Byte) : number (encode bs.reverse) = ofLeBytes bs := by
  induction bs with
  | nil => rfl
  | cons b bs ih =>
    have hpair : encode (bs.reverse ++ [b]) =
        encode bs.reverse ++ [digit (b.toNat / 16)] ++ [digit (b.toNat % 16)] := by
      rw [encode_append, List.append_assoc]
      rfl
    rw [List.reverse_cons, hpair, number, List.foldl_concat, List.foldl_concat, digitValue_high,
      digitValue_low]
    unfold number at ih
    rw [ih, ofLeBytes]
    simp only [Option.getD_some]
    omega

end UmbrellaLtc.Hex
