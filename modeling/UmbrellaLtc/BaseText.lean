import UmbrellaLtc.BitStream
import UmbrellaLtc.Codec
import Mathlib.Data.Fin.VecNotation
import Mathlib.Tactic.FinCases

/-!
Base64 and Base32 of util.cpp. Text is the bytes of a memory, and a read behind them fails. Each
`mode` of a loop has so many bits in hand, which `left` keeps; the tables say how many, and what
the loops have taken in and given out is one stream of bits then.
-/

namespace UmbrellaLtc.BaseText

open Codec (Byte)
open BitStream

section Functions

/-- The variables `mode` and `left` of a loop. -/
abbrev State (k : ℕ) := Fin (k + 1) × ℕ

/-- What the functions of one base do in their own way. -/
structure Base (m n : ℕ) where
  symbols : List Byte
  table : List ℤ
  /-- A round of the encoder, with the numbers of the symbols that it appends. -/
  encodeStep : State m → ℕ → List ℕ × State m
  nPadding : Fin (m + 1) → ℕ
  /-- A round of the decoder, with the numbers that it pushes. -/
  decodeStep : State n → ℕ → List ℕ × State n
  /-- The padding behind a mode that is an end; `none` where it is impossible. -/
  required : Fin (n + 1) → Option ℕ

def pad : Byte := 0x3d

def nul : Byte := 0

def ascii (s : String) : List Byte := s.toList.map fun c => BitVec.ofNat 8 c.toNat

/-- The length of a C string, which ends in the memory. -/
def strlen (p : List Byte) : Option ℕ := p.idxOf? nul

variable {m n : ℕ}

def Base.symbol (B : Base m n) (i : ℕ) : Byte := B.symbols.getD i nul

/-- `table[(unsigned char)c]`. -/
def Base.dec (B : Base m n) (c : Byte) : ℤ := B.table.getD c.toNat (-1)

def Base.encode (B : Base m n) (pch : List Byte) : List Byte :=
  let (digits, mode, left) := feed B.encodeStep (0, 0) (pch.map BitVec.toNat)
  let strRet := digits.map B.symbol
  if mode ≠ 0 then strRet ++ B.symbol left :: List.replicate (B.nPadding mode) pad else strRet

/-- The loop of a decoder: what it pushes, its variables at the end, and where `p` is then. -/
def Base.decodeLoop (B : Base m n) : State n → List Byte → Option (List Byte × State n × List Byte)
  | _, [] => none
  | s, c :: p =>
      if B.dec c = -1 then some ([], s, c :: p)
      else do
        let (vch, s') := B.decodeStep s (B.dec c).toNat
        let (vchRet, last) ← B.decodeLoop s' p
        return (vch.map (BitVec.ofNat 8) ++ vchRet, last)

/-- `p[0] != '=' || … || p[k-1] != '=' || table[p[k]] != -1`. -/
def Base.notPadded (B : Base m n) : ℕ → List Byte → Option Bool
  | _, [] => none
  | 0, c :: _ => some (B.dec c ≠ -1)
  | k + 1, c :: p => if c ≠ pad then some true else B.notPadded k p

def Base.invalid (B : Base m n) (mode : Fin (n + 1)) (left : ℕ) (p : List Byte) : Option Bool :=
  if mode = 0 then some false
  else
    match B.required mode with
    | none => some true
    | some k => if left ≠ 0 then some true else B.notPadded k p

/-- A decoder, on the memory from `p` on. `pfInvalid` is what its argument points to, if it is no
null pointer. -/
def Base.decode (B : Base m n) (p : List Byte) (pfInvalid : Option Bool) :
    Option (List Byte × Option Bool) := do
  let _ ← strlen p
  let (vchRet, (mode, left), p) ← B.decodeLoop (0, 0) p
  if pfInvalid.isSome then
    let invalid ← B.invalid mode left p
    return (vchRet, some invalid)
  else return (vchRet, none)

end Functions

/-- `-1` of the tables, for a character that is no symbol. -/
def no : ℤ := -1

section Base64

def pbase64 : List Byte := ascii "ABCDEFGHIJKLMNOPQRSTUVWXYZabcdefghijklmnopqrstuvwxyz0123456789+/"

def encode64Step : State 2 → ℕ → List ℕ × State 2
  | (0, _), enc => ([enc >>> 2], 1, (enc &&& 3) <<< 4)
  | (1, left), enc => ([left ||| enc >>> 4], 2, (enc &&& 15) <<< 2)
  | (2, left), enc => ([left ||| enc >>> 6, enc &&& 63], 0, left)

def decode64Table : List ℤ := [
  no, no, no, no, no, no, no, no, no, no, no, no, no, no, no, no, no, no, no, no,
  no, no, no, no, no, no, no, no, no, no, no, no, no, no, no, no, no, no, no, no,
  no, no, no, 62, no, no, no, 63, 52, 53, 54, 55, 56, 57, 58, 59, 60, 61, no, no,
  no, no, no, no, no,  0,  1,  2,  3,  4,  5,  6,  7,  8,  9, 10, 11, 12, 13, 14,
  15, 16, 17, 18, 19, 20, 21, 22, 23, 24, 25, no, no, no, no, no, no, 26, 27, 28,
  29, 30, 31, 32, 33, 34, 35, 36, 37, 38, 39, 40, 41, 42, 43, 44, 45, 46, 47, 48,
  49, 50, 51, no, no, no, no, no, no, no, no, no, no, no, no, no, no, no, no, no,
  no, no, no, no, no, no, no, no, no, no, no, no, no, no, no, no, no, no, no, no,
  no, no, no, no, no, no, no, no, no, no, no, no, no, no, no, no, no, no, no, no,
  no, no, no, no, no, no, no, no, no, no, no, no, no, no, no, no, no, no, no, no,
  no, no, no, no, no, no, no, no, no, no, no, no, no, no, no, no, no, no, no, no,
  no, no, no, no, no, no, no, no, no, no, no, no, no, no, no, no, no, no, no, no,
  no, no, no, no, no, no, no, no, no, no, no, no, no, no, no, no]

def decode64Step : State 3 → ℕ → List ℕ × State 3
  | (0, _), dec => ([], 1, dec)
  | (1, left), dec => ([left <<< 2 ||| dec >>> 4], 2, dec &&& 15)
  | (2, left), dec => ([left <<< 4 ||| dec >>> 2], 3, dec &&& 3)
  | (3, left), dec => ([left <<< 6 ||| dec], 0, left)

def base64 : Base 2 3 where
  symbols := pbase64
  table := decode64Table
  encodeStep := encode64Step
  nPadding := ![0, 2, 1]
  decodeStep := decode64Step
  required := ![none, none, some 2, some 1]

def encodeBase64 (pch : List Byte) : List Byte := base64.encode pch

def decodeBase64 (p : List Byte) (pfInvalid : Option Bool) : Option (List Byte × Option Bool) :=
  base64.decode p pfInvalid

end Base64

section Base32

def pbase32 : List Byte := ascii "abcdefghijklmnopqrstuvwxyz234567"

def encode32Step : State 4 → ℕ → List ℕ × State 4
  | (0, _), enc => ([enc >>> 3], 1, (enc &&& 7) <<< 2)
  | (1, left), enc => ([left ||| enc >>> 6, (enc >>> 1) &&& 31], 2, (enc &&& 1) <<< 4)
  | (2, left), enc => ([left ||| enc >>> 4], 3, (enc &&& 15) <<< 1)
  | (3, left), enc => ([left ||| enc >>> 7, (enc >>> 2) &&& 31], 4, (enc &&& 3) <<< 3)
  | (4, left), enc => ([left ||| enc >>> 5, enc &&& 31], 0, left)

def decode32Table : List ℤ := [
  no, no, no, no, no, no, no, no, no, no, no, no, no, no, no, no, no, no, no, no,
  no, no, no, no, no, no, no, no, no, no, no, no, no, no, no, no, no, no, no, no,
  no, no, no, no, no, no, no, no, no, no, 26, 27, 28, 29, 30, 31, no, no, no, no,
  no, no, no, no, no,  0,  1,  2,  3,  4,  5,  6,  7,  8,  9, 10, 11, 12, 13, 14,
  15, 16, 17, 18, 19, 20, 21, 22, 23, 24, 25, no, no, no, no, no, no,  0,  1,  2,
   3,  4,  5,  6,  7,  8,  9, 10, 11, 12, 13, 14, 15, 16, 17, 18, 19, 20, 21, 22,
  23, 24, 25, no, no, no, no, no, no, no, no, no, no, no, no, no, no, no, no, no,
  no, no, no, no, no, no, no, no, no, no, no, no, no, no, no, no, no, no, no, no,
  no, no, no, no, no, no, no, no, no, no, no, no, no, no, no, no, no, no, no, no,
  no, no, no, no, no, no, no, no, no, no, no, no, no, no, no, no, no, no, no, no,
  no, no, no, no, no, no, no, no, no, no, no, no, no, no, no, no, no, no, no, no,
  no, no, no, no, no, no, no, no, no, no, no, no, no, no, no, no, no, no, no, no,
  no, no, no, no, no, no, no, no, no, no, no, no, no, no, no, no]

def decode32Step : State 7 → ℕ → List ℕ × State 7
  | (0, _), dec => ([], 1, dec)
  | (1, left), dec => ([left <<< 3 ||| dec >>> 2], 2, dec &&& 3)
  | (2, left), dec => ([], 3, left <<< 5 ||| dec)
  | (3, left), dec => ([left <<< 1 ||| dec >>> 4], 4, dec &&& 15)
  | (4, left), dec => ([left <<< 4 ||| dec >>> 1], 5, dec &&& 1)
  | (5, left), dec => ([], 6, left <<< 5 ||| dec)
  | (6, left), dec => ([left <<< 2 ||| dec >>> 3], 7, dec &&& 7)
  | (7, left), dec => ([left <<< 5 ||| dec], 0, left)

def base32 : Base 4 7 where
  symbols := pbase32
  table := decode32Table
  encodeStep := encode32Step
  nPadding := ![0, 6, 4, 3, 1]
  decodeStep := decode32Step
  required := ![none, none, some 6, none, some 4, some 3, none, some 1]

def encodeBase32 (pch : List Byte) : List Byte := base32.encode pch

def decodeBase32 (p : List Byte) (pfInvalid : Option Bool) : Option (List Byte × Option Bool) :=
  base32.decode p pfInvalid

end Base32

section Modes

variable {k w : ℕ}

/-- What an encoder has in hand: the first bits of `left`, with zeros behind them. -/
def Carries (w : ℕ) (hand : Fin (k + 1) → ℕ) (s : State k) (p : List Bool) : Prop :=
  p = (bits w s.2).take (hand s.1) ∧
    (s.1 ≠ 0 → s.2 < 2 ^ w ∧ (bits w s.2).drop (hand s.1) = List.replicate (w - hand s.1) false)

/-- What a decoder has in hand: the bits of `left`. -/
def Keeps (hand : Fin (k + 1) → ℕ) (s : State k) (p : List Bool) : Prop :=
  p = bits (hand s.1) s.2 ∧ (s.1 ≠ 0 → s.2 < 2 ^ hand s.1)

theorem encode64_repacks : Repacks 8 6 encode64Step (Carries 6 ![0, 2, 4]) := by
  intro ⟨mode, left⟩ p d ⟨hp, hleft⟩ hd
  have hhigh : ∀ i, 8 ≤ i → d.testBit i = false := fun i hi => testBit_high hd hi
  subst hp
  fin_cases mode
  · refine ⟨_, ⟨rfl, fun _ => ⟨?_, ?_⟩⟩, words_one (shiftRight_lt hd), ?_⟩
    · exact shiftLeft_lt (Nat.and_lt_two_pow d (by decide : 3 < 2 ^ 2))
    · simp [encode64Step, bits]
    · simp +decide [encode64Step, bits]
  · obtain ⟨hlt, hzeros⟩ := hleft (by simp)
    have hout := (shiftRight_lt (k := 4) hd).trans (by decide : 2 ^ 4 < 2 ^ 6)
    simp [bits] at hzeros
    refine ⟨_, ⟨rfl, fun _ => ⟨?_, ?_⟩⟩, words_one (Nat.or_lt_two_pow hlt hout), ?_⟩
    · exact shiftLeft_lt (Nat.and_lt_two_pow d (by decide : 15 < 2 ^ 4))
    · simp [encode64Step, bits]
    · simp +decide [encode64Step, bits, hzeros, hhigh]
  · obtain ⟨hlt, hzeros⟩ := hleft (by simp)
    have hout := (shiftRight_lt (k := 6) hd).trans (by decide : 2 ^ 2 < 2 ^ 6)
    have hlast := Nat.and_lt_two_pow d (by decide : 63 < 2 ^ 6)
    simp [bits] at hzeros
    refine ⟨_, ⟨rfl, fun h => absurd rfl h⟩, words_two (Nat.or_lt_two_pow hlt hout) hlast, ?_⟩
    simp +decide [encode64Step, bits, hzeros, hhigh]

theorem decode64_repacks : Repacks 6 8 decode64Step (Keeps ![0, 6, 4, 2]) := by
  intro ⟨mode, left⟩ p d ⟨hp, hleft⟩ hd
  have hhigh : ∀ i, 6 ≤ i → d.testBit i = false := fun i hi => testBit_high hd hi
  subst hp
  fin_cases mode
  · refine ⟨_, ⟨rfl, fun _ => hd⟩, words_nil 8, ?_⟩
    simp [decode64Step, bits]
  · have hhead := shiftLeft_lt (k := 2) (hleft (by simp))
    have hout := (shiftRight_lt (k := 4) hd).trans (by decide : 2 ^ 2 < 2 ^ 8)
    have hkept := Nat.and_lt_two_pow d (by decide : 15 < 2 ^ 4)
    refine ⟨_, ⟨rfl, fun _ => hkept⟩, words_one (Nat.or_lt_two_pow hhead hout), ?_⟩
    simp +decide [decode64Step, bits, hhigh]
  · have hhead := shiftLeft_lt (k := 4) (hleft (by simp))
    have hout := (shiftRight_lt (k := 2) hd).trans (by decide : 2 ^ 4 < 2 ^ 8)
    have hkept := Nat.and_lt_two_pow d (by decide : 3 < 2 ^ 2)
    refine ⟨_, ⟨rfl, fun _ => hkept⟩, words_one (Nat.or_lt_two_pow hhead hout), ?_⟩
    simp +decide [decode64Step, bits, hhigh]
  · have hhead := shiftLeft_lt (k := 6) (hleft (by simp))
    have hout := hd.trans (by decide : 2 ^ 6 < 2 ^ 8)
    refine ⟨_, ⟨rfl, fun h => absurd rfl h⟩, words_one (Nat.or_lt_two_pow hhead hout), ?_⟩
    simp +decide [decode64Step, bits, hhigh]

theorem encode32_repacks : Repacks 8 5 encode32Step (Carries 5 ![0, 3, 1, 4, 2]) := by
  intro ⟨mode, left⟩ p d ⟨hp, hleft⟩ hd
  have hhigh : ∀ i, 8 ≤ i → d.testBit i = false := fun i hi => testBit_high hd hi
  subst hp
  fin_cases mode
  · refine ⟨_, ⟨rfl, fun _ => ⟨?_, ?_⟩⟩, words_one (shiftRight_lt hd), ?_⟩
    · exact shiftLeft_lt (Nat.and_lt_two_pow d (by decide : 7 < 2 ^ 3))
    · simp [encode32Step, bits]
    · simp +decide [encode32Step, bits]
  · obtain ⟨hlt, hzeros⟩ := hleft (by simp)
    have hout := (shiftRight_lt (k := 6) hd).trans (by decide : 2 ^ 2 < 2 ^ 5)
    have hlast := Nat.and_lt_two_pow (d >>> 1) (by decide : 31 < 2 ^ 5)
    simp [bits] at hzeros
    refine ⟨_, ⟨rfl, fun _ => ⟨?_, ?_⟩⟩, words_two (Nat.or_lt_two_pow hlt hout) hlast, ?_⟩
    · exact shiftLeft_lt (Nat.and_lt_two_pow d (by decide : 1 < 2 ^ 1))
    · simp [encode32Step, bits]
    · simp +decide [encode32Step, bits, hzeros, hhigh]
  · obtain ⟨hlt, hzeros⟩ := hleft (by simp)
    have hout := (shiftRight_lt (k := 4) hd).trans (by decide : 2 ^ 4 < 2 ^ 5)
    simp [bits] at hzeros
    refine ⟨_, ⟨rfl, fun _ => ⟨?_, ?_⟩⟩, words_one (Nat.or_lt_two_pow hlt hout), ?_⟩
    · exact shiftLeft_lt (Nat.and_lt_two_pow d (by decide : 15 < 2 ^ 4))
    · simp [encode32Step, bits]
    · simp +decide [encode32Step, bits, hzeros, hhigh]
  · obtain ⟨hlt, hzeros⟩ := hleft (by simp)
    have hout := (shiftRight_lt (k := 7) hd).trans (by decide : 2 ^ 1 < 2 ^ 5)
    have hlast := Nat.and_lt_two_pow (d >>> 2) (by decide : 31 < 2 ^ 5)
    simp [bits] at hzeros
    refine ⟨_, ⟨rfl, fun _ => ⟨?_, ?_⟩⟩, words_two (Nat.or_lt_two_pow hlt hout) hlast, ?_⟩
    · exact shiftLeft_lt (Nat.and_lt_two_pow d (by decide : 3 < 2 ^ 2))
    · simp [encode32Step, bits]
    · simp +decide [encode32Step, bits, hzeros, hhigh]
  · obtain ⟨hlt, hzeros⟩ := hleft (by simp)
    have hout := (shiftRight_lt (k := 5) hd).trans (by decide : 2 ^ 3 < 2 ^ 5)
    have hlast := Nat.and_lt_two_pow d (by decide : 31 < 2 ^ 5)
    simp [bits] at hzeros
    refine ⟨_, ⟨rfl, fun h => absurd rfl h⟩, words_two (Nat.or_lt_two_pow hlt hout) hlast, ?_⟩
    simp +decide [encode32Step, bits, hzeros, hhigh]

theorem decode32_repacks : Repacks 5 8 decode32Step (Keeps ![0, 5, 2, 7, 4, 1, 6, 3]) := by
  intro ⟨mode, left⟩ p d ⟨hp, hleft⟩ hd
  have hhigh : ∀ i, 5 ≤ i → d.testBit i = false := fun i hi => testBit_high hd hi
  subst hp
  fin_cases mode
  · refine ⟨_, ⟨rfl, fun _ => hd⟩, words_nil 8, ?_⟩
    simp [decode32Step, bits]
  · have hhead := shiftLeft_lt (k := 3) (hleft (by simp))
    have hout := (shiftRight_lt (k := 2) hd).trans (by decide : 2 ^ 3 < 2 ^ 8)
    have hkept := Nat.and_lt_two_pow d (by decide : 3 < 2 ^ 2)
    refine ⟨_, ⟨rfl, fun _ => hkept⟩, words_one (Nat.or_lt_two_pow hhead hout), ?_⟩
    simp +decide [decode32Step, bits, hhigh]
  · have hhead := shiftLeft_lt (k := 5) (hleft (by simp))
    have hkept := Nat.or_lt_two_pow hhead (hd.trans (by decide : 2 ^ 5 < 2 ^ 7))
    refine ⟨_, ⟨rfl, fun _ => hkept⟩, words_nil 8, ?_⟩
    simp +decide [decode32Step, bits, hhigh]
  · have hhead := shiftLeft_lt (k := 1) (hleft (by simp))
    have hout := (shiftRight_lt (k := 4) hd).trans (by decide : 2 ^ 1 < 2 ^ 8)
    have hkept := Nat.and_lt_two_pow d (by decide : 15 < 2 ^ 4)
    refine ⟨_, ⟨rfl, fun _ => hkept⟩, words_one (Nat.or_lt_two_pow hhead hout), ?_⟩
    simp +decide [decode32Step, bits, hhigh]
  · have hhead := shiftLeft_lt (k := 4) (hleft (by simp))
    have hout := (shiftRight_lt (k := 1) hd).trans (by decide : 2 ^ 4 < 2 ^ 8)
    have hkept := Nat.and_lt_two_pow d (by decide : 1 < 2 ^ 1)
    refine ⟨_, ⟨rfl, fun _ => hkept⟩, words_one (Nat.or_lt_two_pow hhead hout), ?_⟩
    simp +decide [decode32Step, bits, hhigh]
  · have hhead := shiftLeft_lt (k := 5) (hleft (by simp))
    have hkept := Nat.or_lt_two_pow hhead (hd.trans (by decide : 2 ^ 5 < 2 ^ 6))
    refine ⟨_, ⟨rfl, fun _ => hkept⟩, words_nil 8, ?_⟩
    simp +decide [decode32Step, bits, hhigh]
  · have hhead := shiftLeft_lt (k := 2) (hleft (by simp))
    have hout := (shiftRight_lt (k := 3) hd).trans (by decide : 2 ^ 2 < 2 ^ 8)
    have hkept := Nat.and_lt_two_pow d (by decide : 7 < 2 ^ 3)
    refine ⟨_, ⟨rfl, fun _ => hkept⟩, words_one (Nat.or_lt_two_pow hhead hout), ?_⟩
    simp +decide [decode32Step, bits, hhigh]
  · have hhead := shiftLeft_lt (k := 5) (hleft (by simp))
    have hout := hd.trans (by decide : 2 ^ 5 < 2 ^ 8)
    refine ⟨_, ⟨rfl, fun h => absurd rfl h⟩, words_one (Nat.or_lt_two_pow hhead hout), ?_⟩
    simp +decide [decode32Step, bits, hhigh]

end Modes

section Laws

variable {m n w : ℕ} {B : Base m n} {handE : Fin (m + 1) → ℕ} {handD : Fin (n + 1) → ℕ}
  {fold : Byte → Byte}

/-- What a base needs for its text to stand for its bytes: symbols of `w` bits, which the decoder
reads up to `fold`, modes that keep the stream of bits, and one padding for each end of it. -/
structure Base.Lawful (B : Base m n) (w : ℕ) (handE : Fin (m + 1) → ℕ) (handD : Fin (n + 1) → ℕ)
    (fold : Byte → Byte) : Prop where
  width_le : w ≤ 8
  dec_symbol : ∀ d < 2 ^ w, B.dec (B.symbol d) = d
  symbol_dec : ∀ c, B.dec c ≠ -1 →
    (B.dec c).toNat < 2 ^ w ∧ B.symbol (B.dec c).toNat = fold c
  dec_pad : B.dec pad = -1
  dec_nul : B.dec nul = -1
  fold_pad : fold pad = pad
  encodes : Repacks 8 w B.encodeStep (Carries w handE)
  decodes : Repacks w 8 B.decodeStep (Keeps handD)
  handE_lt : ∀ mode, handE mode < w
  handD_lt : ∀ mode, handD mode < 8
  handE_start : ∀ mode, handE mode = 0 ↔ mode = 0
  handD_start : ∀ mode, handD mode = 0 ↔ mode = 0
  required_eq : ∀ mode mode', mode' ≠ 0 → handD mode = w - handE mode' →
    B.required mode = some (B.nPadding mode')
  required_lt : ∀ mode k, B.required mode = some k → handD mode < w

theorem toNat_words (bytes : List Byte) : Words 8 (bytes.map BitVec.toNat) := by
  intro d hd
  obtain ⟨b, -, rfl⟩ := List.mem_map.mp hd
  exact b.isLt

theorem ofNat_toNat (bytes : List Byte) :
    (bytes.map BitVec.toNat).map (BitVec.ofNat 8) = bytes := by
  rw [List.map_map]
  refine (List.map_congr_left fun b _ => ?_).trans (List.map_id bytes)
  exact (BitVec.ofNat_toNat 8 b).trans (BitVec.setWidth_eq b)

theorem toNat_ofNat {out : List ℕ} (h : Words 8 out) :
    (out.map (BitVec.ofNat 8)).map BitVec.toNat = out := by
  rw [List.map_map]
  refine (List.map_congr_left fun d hd => ?_).trans (List.map_id out)
  exact (BitVec.toNat_ofNat d 8).trans (Nat.mod_eq_of_lt (h d hd))

/-- The symbols of the bytes, packed, and the padding that tells how they end. -/
theorem Base.Lawful.encode_spec (h : B.Lawful w handE handD fold) (bytes : List Byte) :
    ∃ digits z k, Packs 8 w (bytes.map BitVec.toNat) digits z ∧
      B.encode bytes = digits.map B.symbol ++ List.replicate k pad ∧
      (z = 0 → k = 0) ∧
      ∀ mode, mode ≠ 0 → handD mode = z → B.required mode = some k := by
  have hstart : Carries w handE ((0, 0) : State m) [] := by
    refine ⟨?_, fun hne => absurd rfl hne⟩
    rw [(h.handE_start 0).mpr rfl, List.take_zero]
  obtain ⟨p, ⟨hp, hleft⟩, hwords, hstream⟩ :=
    h.encodes.feed_spec hstart (toNat_words bytes)
  obtain ⟨⟨digits, mode, left⟩, hfeed⟩ :
      ∃ x, feed B.encodeStep (0, 0) (bytes.map BitVec.toNat) = x := ⟨_, rfl⟩
  rw [hfeed] at hp hleft hwords hstream
  have hencode : B.encode bytes =
      if mode ≠ 0 then
        digits.map B.symbol ++ B.symbol left :: List.replicate (B.nPadding mode) pad
      else digits.map B.symbol := by
    rw [Base.encode, hfeed]
  have hlt := h.handE_lt mode
  rw [List.nil_append] at hstream
  by_cases hmode : mode = 0
  · refine ⟨digits, 0, 0, ⟨by omega, hwords, ?_⟩, ?_, fun _ => rfl, ?_⟩
    · have hnone : p = [] := by
        rw [hp, (h.handE_start mode).mpr hmode, List.take_zero]
      rw [← hstream, hnone, List.append_nil, List.replicate_zero, List.append_nil]
    · rw [hencode, if_neg (not_not_intro hmode)]
      exact (List.append_nil _).symm
    · intro mode' hne hhand
      exact absurd ((h.handD_start mode').mp hhand) hne
  · obtain ⟨hleft_lt, hzeros⟩ := hleft hmode
    refine ⟨digits ++ [left], w - handE mode, B.nPadding mode, ⟨?_, ?_, ?_⟩, ?_, ?_, ?_⟩
    · have hpos : handE mode ≠ 0 := fun hzero => hmode ((h.handE_start mode).mp hzero)
      omega
    · intro d hd
      rcases List.mem_append.mp hd with hd | hd
      · exact hwords d hd
      · rw [List.mem_singleton.mp hd]
        exact hleft_lt
    · have hbits : bits w left = p ++ List.replicate (w - handE mode) false := by
        rw [hp, ← hzeros]
        exact (List.take_append_drop _ _).symm
      rw [stream_append, stream_cons, stream_nil, List.append_nil, hbits, ← List.append_assoc,
        hstream]
    · rw [hencode, if_pos hmode, List.map_append, List.append_assoc]
      rfl
    · intro hz
      omega
    · exact fun mode' _ hhand => h.required_eq mode' mode hmode hhand

/-- The loop of a decoder reads up to the first character that is no symbol. -/
theorem Base.decodeLoop_eq (B : Base m n) {cs : List Byte} (hcs : ∀ c ∈ cs, B.dec c ≠ -1)
    {c : Byte} (hc : B.dec c = -1) (s : State n) (p : List Byte) :
    B.decodeLoop s (cs ++ c :: p) =
      some ((feed B.decodeStep s (cs.map fun c => (B.dec c).toNat)).1.map (BitVec.ofNat 8),
        (feed B.decodeStep s (cs.map fun c => (B.dec c).toNat)).2, c :: p) := by
  induction cs generalizing s with
  | nil =>
    rw [List.nil_append, Base.decodeLoop, if_pos hc]
    rfl
  | cons d cs ih =>
    obtain ⟨⟨vch, s'⟩, hstep⟩ : ∃ x, B.decodeStep s (B.dec d).toNat = x := ⟨_, rfl⟩
    rw [List.cons_append, Base.decodeLoop, if_neg (hcs d List.mem_cons_self), List.map_cons,
      feed_cons, hstep, List.map_append]
    exact congrArg (· >>= _) (ih (fun c' hc' => hcs c' (List.mem_cons_of_mem d hc')) s')

/-- What a decoder has read of its text, and what it has in hand then. -/
theorem Base.Lawful.decodeLoop_spec (h : B.Lawful w handE handD fold) {cs : List Byte}
    (hcs : ∀ c ∈ cs, B.dec c ≠ -1) {c : Byte} (hc : B.dec c = -1) (p : List Byte) :
    ∃ out mode left, B.decodeLoop (0, 0) (cs ++ c :: p) =
        some (out.map (BitVec.ofNat 8), (mode, left), c :: p) ∧
      Words 8 out ∧ (mode ≠ 0 → left < 2 ^ handD mode) ∧
      stream 8 out ++ bits (handD mode) left =
        stream w (cs.map fun c => (B.dec c).toNat) := by
  have hstart : Keeps handD ((0, 0) : State n) [] := by
    refine ⟨?_, fun hne => absurd rfl hne⟩
    rw [(h.handD_start 0).mpr rfl]
    rfl
  have hwords : Words w (cs.map fun c => (B.dec c).toNat) := by
    intro d hd
    obtain ⟨c', hc', rfl⟩ := List.mem_map.mp hd
    exact (h.symbol_dec c' (hcs c' hc')).1
  obtain ⟨held, ⟨hheld, hleft⟩, hout, hstream⟩ := h.decodes.feed_spec hstart hwords
  refine ⟨_, _, _, B.decodeLoop_eq hcs hc (0, 0) p, hout, hleft, ?_⟩
  rw [← hheld, hstream, List.nil_append]

theorem Base.notPadded_pads (h : B.dec nul = -1) (k : ℕ) :
    B.notPadded k (List.replicate k pad ++ [nul]) = some false := by
  induction k with
  | zero =>
    rw [List.replicate_zero, List.nil_append, Base.notPadded]
    simp [h]
  | succ k ih =>
    rw [List.replicate_succ, List.cons_append, Base.notPadded, if_neg (not_not_intro rfl), ih]

/-- The test of the padding comes to an end with the text. -/
theorem Base.notPadded_spec (B : Base m n) (k : ℕ) (q : List Byte) :
    ∃ b, B.notPadded k (q ++ [nul]) = some b ∧ (b = false → List.replicate k pad <+: q) := by
  induction k generalizing q with
  | zero =>
    cases q with
    | nil => exact ⟨_, rfl, fun _ => List.nil_prefix⟩
    | cons c q => exact ⟨_, rfl, fun _ => List.nil_prefix⟩
  | succ k ih =>
    cases q with
    | nil => exact ⟨true, rfl, fun hb => by cases hb⟩
    | cons c q =>
      by_cases hc : c = pad
      · obtain ⟨b, hb, hpads⟩ := ih q
        refine ⟨b, ?_, fun hfalse => ?_⟩
        · rw [List.cons_append, Base.notPadded, if_neg (not_not_intro hc), hb]
        · rw [hc, List.replicate_succ, List.cons_prefix_cons]
          exact ⟨rfl, hpads hfalse⟩
      · exact ⟨true, if_pos hc, fun hb => by cases hb⟩

theorem Base.invalid_spec (B : Base m n) (mode : Fin (n + 1)) (left : ℕ) (q : List Byte) :
    ∃ b, B.invalid mode left (q ++ [nul]) = some b ∧
      (b = false → mode = 0 ∨ mode ≠ 0 ∧ ∃ k, B.required mode = some k ∧ left = 0 ∧
        List.replicate k pad <+: q) := by
  unfold Base.invalid
  by_cases hmode : mode = 0
  · exact ⟨false, if_pos hmode, fun _ => Or.inl hmode⟩
  · rw [if_neg hmode]
    cases hk : B.required mode with
    | none => exact ⟨true, rfl, fun hb => by cases hb⟩
    | some k =>
      by_cases hleft : left = 0
      · obtain ⟨b, hb, hpads⟩ := B.notPadded_spec k q
        refine ⟨b, ?_, fun hfalse => Or.inr ⟨hmode, k, rfl, hleft, hpads hfalse⟩⟩
        exact (if_neg (not_not_intro hleft)).trans hb
      · exact ⟨true, if_pos hleft, fun hb => by cases hb⟩

theorem strlen_isSome (s : List Byte) : ∃ len, strlen (s ++ [nul]) = some len := by
  apply Option.isSome_iff_exists.mp
  rw [strlen, List.isSome_idxOf?]
  exact List.mem_append_right s List.mem_cons_self

theorem Base.decode_eq (B : Base m n) {p q vchRet : List Byte} {len : ℕ} {mode : Fin (n + 1)}
    {left : ℕ} {b : Bool} (hlen : strlen p = some len)
    (hloop : B.decodeLoop (0, 0) p = some (vchRet, (mode, left), q))
    (hb : B.invalid mode left q = some b) (pfInvalid : Option Bool) :
    B.decode p pfInvalid = some (vchRet, pfInvalid.map fun _ => b) := by
  rw [Base.decode, hlen, hloop]
  cases pfInvalid with
  | none => rfl
  | some was =>
    simp only [bind, Option.bind, hb]
    rfl

/-- Padding or the end of the text stands behind the symbols. -/
theorem Base.Lawful.exists_stop (h : B.Lawful w handE handD fold) (k : ℕ) :
    ∃ c p, List.replicate k pad ++ [nul] = c :: p ∧ B.dec c = -1 := by
  cases k with
  | zero => exact ⟨nul, [], rfl, h.dec_nul⟩
  | succ k => exact ⟨pad, List.replicate k pad ++ [nul], rfl, h.dec_pad⟩

theorem Base.Lawful.decode_encode (h : B.Lawful w handE handD fold) (bytes : List Byte)
    (pfInvalid : Option Bool) :
    B.decode (B.encode bytes ++ [nul]) pfInvalid =
      some (bytes, pfInvalid.map fun _ => false) := by
  obtain ⟨digits, z, k, hpacks, hencode, -, hrequired⟩ := h.encode_spec bytes
  obtain ⟨c, p, hstop, hc⟩ := h.exists_stop k
  have hdec : ∀ d ∈ digits, B.dec (B.symbol d) = d :=
    fun d hd => h.dec_symbol d (hpacks.words d hd)
  have hsymbols : ∀ c ∈ digits.map B.symbol, B.dec c ≠ -1 := by
    intro c hc
    obtain ⟨d, hd, rfl⟩ := List.mem_map.mp hc
    rw [hdec d hd]
    omega
  have hread : (digits.map B.symbol).map (fun c => (B.dec c).toNat) = digits := by
    rw [List.map_map]
    refine (List.map_congr_left fun d hd => ?_).trans (List.map_id digits)
    exact (congrArg Int.toNat (hdec d hd)).trans (Int.toNat_natCast d)
  obtain ⟨out, mode, left, hloop, hout, hleft, hstream⟩ := h.decodeLoop_spec hsymbols hc p
  rw [hread, hpacks.stream_eq] at hstream
  -- the streams agree, and so do the bytes and what is behind them
  obtain ⟨rfl, hrest⟩ := stream_append_inj hout (toNat_words bytes)
    (by rw [length_bits]; exact h.handD_lt mode)
    (by rw [List.length_replicate]; exact hpacks.fill_lt.trans_le h.width_le) hstream
  have hz : handD mode = z := by
    have hlen := congrArg List.length hrest
    rwa [length_bits, List.length_replicate] at hlen
  have hinvalid : B.invalid mode left (c :: p) = some false := by
    by_cases hmode : mode = 0
    · exact if_pos hmode
    · have hzero : left = 0 := by
        apply bits_inj (hleft hmode) (Nat.two_pow_pos _)
        rw [hrest, bits_zero, hz]
      rw [Base.invalid, if_neg hmode, hrequired mode hmode hz, ← hstop]
      exact (if_neg (not_not_intro hzero)).trans (B.notPadded_pads h.dec_nul k)
  have htext : B.encode bytes ++ [nul] = digits.map B.symbol ++ c :: p := by
    rw [hencode, List.append_assoc, hstop]
  obtain ⟨len, hlen⟩ := strlen_isSome (B.encode bytes)
  rw [ofNat_toNat] at hloop
  rw [htext] at hlen ⊢
  exact B.decode_eq hlen hloop hinvalid pfInvalid

/-- Every text is symbols, and a rest that begins with none. -/
theorem Base.Lawful.exists_symbols (h : B.Lawful w handE handD fold) (text : List Byte) :
    ∃ cs q c p, text = cs ++ q ∧ q ++ [nul] = c :: p ∧ (∀ c ∈ cs, B.dec c ≠ -1) ∧
      B.dec c = -1 := by
  induction text with
  | nil => exact ⟨[], [], nul, [], rfl, rfl, fun c hc => (by cases hc), h.dec_nul⟩
  | cons d text ih =>
    by_cases hd : B.dec d = -1
    · exact ⟨[], d :: text, d, text ++ [nul], rfl, rfl, fun c hc => (by cases hc), hd⟩
    · obtain ⟨cs, q, c, p, rfl, hq, hcs, hc⟩ := ih
      refine ⟨d :: cs, q, c, p, rfl, hq, ?_, hc⟩
      intro c' hc'
      rcases List.mem_cons.mp hc' with rfl | hc'
      · exact hd
      · exact hcs c' hc'

/-- A text is read to its end at most. What is taken for valid begins with what the encoder makes
of the bytes. -/
theorem Base.Lawful.decode_spec (h : B.Lawful w handE handD fold) (text : List Byte)
    (pfInvalid : Option Bool) :
    ∃ bytes b, B.decode (text ++ [nul]) pfInvalid = some (bytes, pfInvalid.map fun _ => b) ∧
      (b = true ∨ B.encode bytes <+: text.map fold) := by
  obtain ⟨cs, q, c, p, rfl, hq, hcs, hc⟩ := h.exists_symbols text
  obtain ⟨out, mode, left, hloop, hout, hleft, hstream⟩ := h.decodeLoop_spec hcs hc p
  obtain ⟨b, hb, hvalid⟩ := B.invalid_spec mode left q
  obtain ⟨len, hlen⟩ := strlen_isSome (cs ++ q)
  have htext : cs ++ q ++ [nul] = cs ++ c :: p := by rw [List.append_assoc, hq]
  refine ⟨out.map (BitVec.ofNat 8), b, ?_, ?_⟩
  · rw [htext] at hlen ⊢
    exact B.decode_eq hlen hloop (by rw [← hq, hb]) pfInvalid
  · cases b with
    | true => exact Or.inl rfl
    | false =>
      obtain ⟨digits, z, k, hpacks, hencode, hnone, hrequired⟩ :=
        h.encode_spec (out.map (BitVec.ofNat 8))
      rw [toNat_ofNat hout] at hpacks
      -- what is left over is zero, and no whole symbol
      have hpacked : handD mode < w → bits (handD mode) left = List.replicate (handD mode) false →
          digits = cs.map (fun c => (B.dec c).toNat) ∧ z = handD mode := by
        intro hlt hzeros
        apply hpacks.target_unique
        refine ⟨hlt, ?_, ?_⟩
        · intro d hd
          obtain ⟨c', hc', rfl⟩ := List.mem_map.mp hd
          exact (h.symbol_dec c' (hcs c' hc')).1
        · rw [← hstream, hzeros]
      have hsymbols : (cs.map fun c => (B.dec c).toNat).map B.symbol = cs.map fold := by
        rw [List.map_map]
        exact List.map_congr_left fun c' hc' => (h.symbol_dec c' (hcs c' hc')).2
      apply Or.inr
      rw [hencode, List.map_append]
      rcases hvalid rfl with hmode | ⟨hmode, k', hk', hleft_zero, hpads⟩
      · have hhand := (h.handD_start mode).mpr hmode
        have hpos := h.handE_lt 0
        obtain ⟨rfl, hz⟩ := hpacked (by omega) (by rw [hhand]; rfl)
        rw [hnone (hz.trans hhand), hsymbols, List.replicate_zero, List.append_nil]
        exact List.prefix_append _ _
      · obtain ⟨rfl, hz⟩ := hpacked (h.required_lt mode k' hk') (by rw [hleft_zero, bits_zero])
        have hk := hrequired mode hmode hz.symm
        rw [hk'] at hk
        obtain rfl : k' = k := Option.some.inj hk
        have hfold : (List.replicate k' pad).map fold = List.replicate k' pad := by
          rw [List.map_replicate, h.fold_pad]
        rw [hsymbols, List.prefix_append_right_inj, ← hfold]
        exact hpads.map fold

end Laws

section Bases

theorem forall_getD {α : Type} {l : List α} {P : ℕ → α → Prop} (h : ∀ x ∈ l.zipIdx, P x.2 x.1)
    (a : α) {i : ℕ} (hi : i < l.length) : P i (l.getD i a) := by
  rw [List.getD_eq_getElem l a hi]
  exact h (l[i], i) (List.mk_mem_zipIdx_iff_getElem?.mpr (List.getElem?_eq_getElem hi))

variable {m n w : ℕ} (B : Base m n) {fold : Byte → Byte}

theorem Base.dec_symbol_of_mem (hlen : B.symbols.length = 2 ^ w)
    (h : ∀ x ∈ B.symbols.zipIdx, B.dec x.1 = x.2) : ∀ d < 2 ^ w, B.dec (B.symbol d) = d := by
  intro d hd
  exact forall_getD (P := fun d c => B.dec c = d) h nul (by rwa [hlen])

theorem Base.symbol_dec_of_mem (hlen : B.table.length = 2 ^ 8)
    (h : ∀ x ∈ B.table.zipIdx, x.1 ≠ -1 →
      x.1.toNat < 2 ^ w ∧ B.symbol x.1.toNat = fold (BitVec.ofNat 8 x.2)) :
    ∀ c, B.dec c ≠ -1 → (B.dec c).toNat < 2 ^ w ∧ B.symbol (B.dec c).toNat = fold c := by
  intro c
  have hc := forall_getD (P := fun i v => v ≠ -1 →
    v.toNat < 2 ^ w ∧ B.symbol v.toNat = fold (BitVec.ofNat 8 i)) h (-1) (hlen ▸ c.isLt)
  rwa [(BitVec.ofNat_toNat 8 c).trans (BitVec.setWidth_eq c)] at hc

set_option maxRecDepth 4000 in
theorem base64_lawful : base64.Lawful 6 ![0, 2, 4] ![0, 6, 4, 2] id where
  width_le := by decide
  dec_symbol := base64.dec_symbol_of_mem (by decide) (by decide)
  symbol_dec := base64.symbol_dec_of_mem (by decide) (by decide)
  dec_pad := by decide
  dec_nul := by decide
  fold_pad := rfl
  encodes := encode64_repacks
  decodes := decode64_repacks
  handE_lt := by decide
  handD_lt := by decide
  handE_start := by decide
  handD_start := by decide
  required_eq := by decide
  required_lt := by decide

/-- A letter of either case in lower case. -/
def lower (c : Byte) : Byte := if 0x41 ≤ c ∧ c ≤ 0x5a then c + 0x20 else c

set_option maxRecDepth 4000 in
theorem base32_lawful : base32.Lawful 5 ![0, 3, 1, 4, 2] ![0, 5, 2, 7, 4, 1, 6, 3] lower where
  width_le := by decide
  dec_symbol := base32.dec_symbol_of_mem (by decide) (by decide)
  symbol_dec := base32.symbol_dec_of_mem (by decide) (by decide)
  dec_pad := by decide
  dec_nul := by decide
  fold_pad := rfl
  encodes := encode32_repacks
  decodes := decode32_repacks
  handE_lt := by decide
  handD_lt := by decide
  handE_start := by decide
  handD_start := by decide
  required_eq := by decide
  required_lt := by decide

/-- What is encoded is decoded to the same bytes, and taken for valid. A decoder comes to an end on
every C string, with no read behind it, and takes for valid only what begins with the encoding of
its result. -/
theorem baseText_faithful :
    (∀ (bytes : List Byte) (was : Bool),
      decodeBase64 (encodeBase64 bytes ++ [nul]) (some was) = some (bytes, some false) ∧
        decodeBase32 (encodeBase32 bytes ++ [nul]) (some was) = some (bytes, some false)) ∧
    ∀ (text : List Byte) (pfInvalid : Option Bool),
      (∃ bytes b, decodeBase64 (text ++ [nul]) pfInvalid =
          some (bytes, pfInvalid.map fun _ => b) ∧
        (b = true ∨ encodeBase64 bytes <+: text)) ∧
      ∃ bytes b, decodeBase32 (text ++ [nul]) pfInvalid =
          some (bytes, pfInvalid.map fun _ => b) ∧
        (b = true ∨ encodeBase32 bytes <+: text.map lower) := by
  refine ⟨fun bytes was => ⟨?_, ?_⟩, fun text pfInvalid => ⟨?_, ?_⟩⟩
  · exact base64_lawful.decode_encode bytes (some was)
  · exact base32_lawful.decode_encode bytes (some was)
  · obtain ⟨bytes, b, hdecode, hb⟩ := base64_lawful.decode_spec text pfInvalid
    rw [List.map_id] at hb
    exact ⟨bytes, b, hdecode, hb⟩
  · exact base32_lawful.decode_spec text pfInvalid

end Bases

end UmbrellaLtc.BaseText
