import UmbrellaLtc.EvalScript
import UmbrellaLtc.SerializedSize

/-!
The compact serialization of scripts, CScriptCompressor of script.h and script.cpp. The sizes from
0 to 5 stand for scripts of a known shape, of which only the variable part is written, and a size
from 6 on for a script as it is. What OpenSSL makes of a public key is a parameter.
-/

namespace UmbrellaLtc.ScriptCompressor

open Codec Transaction Script VarInt SerializedSize
open EvalScript (OP_DUP OP_EQUALVERIFY getLen)

section Keys

/-- The two functions of CECKey that are used here, over the points that OpenSSL keeps. -/
structure Curve where
  Point : Type
  setPubKey : List Byte → Option Point
  getPubKey : Point → Bool → List Byte

/-- The data of a CPubKey, as far as its first byte says. -/
abbrev CPubKey := List Byte

namespace CPubKey

def size (pubkey : CPubKey) : ℕ := getLen (pubkey.getD 0 0)

/-- CPubKey::Set; what does not have the length that its first byte says is invalid. -/
def set (bytes : List Byte) : CPubKey :=
  let len := if bytes = [] then 0 else getLen (bytes.getD 0 0)
  if len ≠ 0 ∧ len = bytes.length then bytes else [0xFF]

def isValid (pubkey : CPubKey) : Bool := 0 < pubkey.size

variable (curve : Curve)

def isFullyValid (pubkey : CPubKey) : Bool :=
  pubkey.isValid && (curve.setPubKey pubkey).isSome

/-- CPubKey::Decompress; none when it returns false. -/
def decompress (pubkey : CPubKey) : Option CPubKey :=
  if pubkey.isValid then (curve.setPubKey pubkey).map fun key => set (curve.getPubKey key false)
  else none

end CPubKey

end Keys

section Compressor

def nSpecialScripts : ℕ := 6

/-- `script[i]`, within the size that was tested before. -/
def byteAt (script : CScript) (i : ℕ) : Byte := script.getD i 0

def slice (script : List Byte) (i n : ℕ) : List Byte := (script.drop i).take n

def opcode (n : ℕ) : Byte := BitVec.ofNat 8 n

/-- The hash of a script to a key hash. -/
def isToKeyID (script : CScript) : Option (List Byte) :=
  if script.length = 25 ∧ byteAt script 0 = opcode OP_DUP ∧ byteAt script 1 = opcode OP_HASH160 ∧
      byteAt script 2 = 20 ∧ byteAt script 23 = opcode OP_EQUALVERIFY ∧
      byteAt script 24 = opcode OP_CHECKSIG then
    some (slice script 3 20)
  else none

def isToScriptID (script : CScript) : Option (List Byte) :=
  if script.length = 23 ∧ byteAt script 0 = opcode OP_HASH160 ∧ byteAt script 1 = 20 ∧
      byteAt script 22 = opcode OP_EQUAL then
    some (slice script 2 20)
  else none

variable (curve : Curve)

/-- The key of a script to a public key, in the forms that can be represented. -/
def isToPubKey (script : CScript) : Option CPubKey :=
  if script.length = 35 ∧ byteAt script 0 = 33 ∧ byteAt script 34 = opcode OP_CHECKSIG ∧
      (byteAt script 1 = 0x02 ∨ byteAt script 1 = 0x03) then
    some (CPubKey.set (slice script 1 33))
  else if script.length = 67 ∧ byteAt script 0 = 65 ∧ byteAt script 66 = opcode OP_CHECKSIG ∧
      byteAt script 1 = 0x04 then
    let pubkey := CPubKey.set (slice script 1 65)
    if CPubKey.isFullyValid curve pubkey then some pubkey else none
  else none

def compress (script : CScript) : Option (List Byte) :=
  match isToKeyID script with
  | some keyID => some (0x00 :: keyID)
  | none =>
      match isToScriptID script with
      | some scriptID => some (0x01 :: scriptID)
      | none =>
          match isToPubKey curve script with
          | none => none
          | some pubkey =>
              if byteAt pubkey 0 = 0x02 ∨ byteAt pubkey 0 = 0x03 then
                some (byteAt pubkey 0 :: slice pubkey 1 32)
              else if byteAt pubkey 0 = 0x04 then
                some ((0x04 ||| (byteAt pubkey 64 &&& 0x01)) :: slice pubkey 1 32)
              else none

def getSpecialSize (nSize : ℕ) : ℕ :=
  if nSize = 0 ∨ nSize = 1 then 20
  else if nSize = 2 ∨ nSize = 3 ∨ nSize = 4 ∨ nSize = 5 then 32
  else 0

/-- CScriptCompressor::Decompress. The script stays what it was where the key is no point, and
none stands for the failed assertion. -/
def decompress (script : CScript) (nSize : ℕ) (bytes : List Byte) : Option CScript :=
  if nSize = 0x00 then
    some ([opcode OP_DUP, opcode OP_HASH160, 20] ++ slice bytes 0 20 ++
      [opcode OP_EQUALVERIFY, opcode OP_CHECKSIG])
  else if nSize = 0x01 then
    some ([opcode OP_HASH160, 20] ++ slice bytes 0 20 ++ [opcode OP_EQUAL])
  else if nSize = 0x02 ∨ nSize = 0x03 then
    some ([33, BitVec.ofNat 8 nSize] ++ slice bytes 0 32 ++ [opcode OP_CHECKSIG])
  else if nSize = 0x04 ∨ nSize = 0x05 then
    match (CPubKey.set (BitVec.ofNat 8 (nSize - 2) :: slice bytes 0 32)).decompress curve with
    | none => some script
    | some pubkey =>
        if pubkey.size = 65 then some ([65] ++ slice pubkey 0 65 ++ [opcode OP_CHECKSIG]) else none
  else some script

/-- `unsigned int nSize = script.size() + nSpecialScripts`. -/
def rawSize (script : CScript) : BitVec 32 := BitVec.ofNat 32 (script.length + nSpecialScripts)

def getSerializeSize (script : CScript) : BitVec 32 :=
  match compress curve script with
  | some out => nSerSize out.length
  | none => nSerSize script.length + unsignedSize (rawSize script)

def serialize (script : CScript) : List Byte :=
  match compress curve script with
  | some out => out
  | none => writeUnsigned (rawSize script) ++ script

/-- CScriptCompressor::Unserialize into a script; none where the stream ends. -/
def unserialize (script : CScript) (bs : List Byte) : Option (CScript × List Byte) := do
  let (nSize, bs) ← readWord bs
  if nSize.toNat < nSpecialScripts then
    let n := getSpecialSize nSize.toNat
    if bs.length < n then none
    else
      let script ← decompress curve script nSize.toNat (bs.take n)
      return (script, bs.drop n)
  else
    let n := nSize.toNat - nSpecialScripts
    if bs.length < n then none else return (bs.take n, bs.drop n)

end Compressor

/-! The shapes that are written in a special form. -/

section Shapes

theorem take_slice_drop (script : List Byte) (i n : ℕ) :
    script = script.take i ++ (slice script i n ++ script.drop (i + n)) := by
  rw [slice, ← List.drop_drop, List.take_append_drop, List.take_append_drop]

theorem length_slice {script : List Byte} {i n : ℕ} (h : i + n ≤ script.length) :
    (slice script i n).length = n := by
  rw [slice, List.length_take, List.length_drop]
  omega

theorem slice_self {bs : List Byte} {n : ℕ} (h : bs.length = n) : slice bs 0 n = bs := by
  rw [slice, List.drop_zero, ← h, List.take_length]

theorem drop_byteAt {script : List Byte} {i : ℕ} (h : i < script.length) :
    script.drop i = byteAt script i :: script.drop (i + 1) := by
  rw [List.drop_eq_getElem_cons h, byteAt,
    List.getD_eq_getElem?_getD, List.getElem?_eq_getElem h, Option.getD_some]

theorem take_byteAt {script : List Byte} {i : ℕ} (h : i < script.length) :
    script.take (i + 1) = script.take i ++ [byteAt script i] := by
  rw [List.take_succ_eq_append_getElem h, byteAt,
    List.getD_eq_getElem?_getD, List.getElem?_eq_getElem h, Option.getD_some]

/-- The one-byte numbers in front of a special form. -/
inductive Form (curve : Curve) : CScript → ℕ → List Byte → Prop
  | keyID {hash : List Byte} (h : hash.length = 20) :
      Form curve ([opcode OP_DUP, opcode OP_HASH160, 20] ++ hash ++
        [opcode OP_EQUALVERIFY, opcode OP_CHECKSIG]) 0 hash
  | scriptID {hash : List Byte} (h : hash.length = 20) :
      Form curve ([opcode OP_HASH160, 20] ++ hash ++ [opcode OP_EQUAL]) 1 hash
  | compressed {tag : ℕ} {x : List Byte} (htag : tag = 2 ∨ tag = 3) (h : x.length = 32) :
      Form curve ([33, BitVec.ofNat 8 tag] ++ x ++ [opcode OP_CHECKSIG]) tag x
  | uncompressed {tag : ℕ} {pubkey : CPubKey} (htag : tag = 4 ∨ tag = 5)
      (h : pubkey.length = 65) (hfirst : byteAt pubkey 0 = 4)
      (hodd : BitVec.ofNat 8 tag = 4 ||| (byteAt pubkey 64 &&& 1))
      (hvalid : CPubKey.isFullyValid curve pubkey = true) :
      Form curve ([65] ++ pubkey ++ [opcode OP_CHECKSIG]) tag (slice pubkey 1 32)

theorem set_eq {bytes : List Byte} (h : bytes ≠ []) (hlen : getLen (byteAt bytes 0) = bytes.length) :
    CPubKey.set bytes = bytes := by
  have hpos := List.length_pos_iff.mpr h
  unfold CPubKey.set
  rw [if_neg h]
  exact if_pos ⟨by unfold byteAt at hlen; omega, hlen⟩

theorem isToKeyID_eq_some {script : CScript} {hash : List Byte} (h : isToKeyID script = some hash) :
    hash.length = 20 ∧ script = [opcode OP_DUP, opcode OP_HASH160, 20] ++ hash ++
      [opcode OP_EQUALVERIFY, opcode OP_CHECKSIG] := by
  unfold isToKeyID at h
  split_ifs at h with hshape
  obtain ⟨hlen, h0, h1, h2, h23, h24⟩ := hshape
  cases h
  refine ⟨length_slice (by omega), ?_⟩
  have hfront : script.take 3 = [opcode OP_DUP, opcode OP_HASH160, 20] := by
    rw [take_byteAt (by omega), take_byteAt (by omega), take_byteAt (by omega), h0, h1, h2]
    rfl
  have hback : script.drop 23 = [opcode OP_EQUALVERIFY, opcode OP_CHECKSIG] := by
    rw [drop_byteAt (by omega), drop_byteAt (by omega), h23, h24, List.drop_of_length_le (by omega)]
  have hsplit := take_slice_drop script 3 20
  rw [hfront, hback, ← List.append_assoc] at hsplit
  exact hsplit

theorem isToScriptID_eq_some {script : CScript} {hash : List Byte}
    (h : isToScriptID script = some hash) :
    hash.length = 20 ∧
      script = [opcode OP_HASH160, 20] ++ hash ++ [opcode OP_EQUAL] := by
  unfold isToScriptID at h
  split_ifs at h with hshape
  obtain ⟨hlen, h0, h1, h22⟩ := hshape
  cases h
  refine ⟨length_slice (by omega), ?_⟩
  have hfront : script.take 2 = [opcode OP_HASH160, 20] := by
    rw [take_byteAt (by omega), take_byteAt (by omega), h0, h1]
    rfl
  have hback : script.drop 22 = [opcode OP_EQUAL] := by
    rw [drop_byteAt (by omega), h22, List.drop_of_length_le (by omega)]
  have hsplit := take_slice_drop script 2 20
  rw [hfront, hback, ← List.append_assoc] at hsplit
  exact hsplit

/-- A script of one push, of so many bytes, and an opcode. -/
theorem push_shape {script : CScript} {n : ℕ} {first last : Byte} (hlen : script.length = n + 2)
    (hfirst : byteAt script 0 = first) (hlast : byteAt script (n + 1) = last) :
    (slice script 1 n).length = n ∧ script = [first] ++ slice script 1 n ++ [last] := by
  have hfront : script.take 1 = [first] := by
    rw [take_byteAt (by omega), hfirst]
    rfl
  have hback : script.drop (1 + n) = [last] := by
    rw [Nat.add_comm, drop_byteAt (by omega), hlast, List.drop_of_length_le (by omega)]
  have hsplit := take_slice_drop script 1 n
  rw [hfront, hback, ← List.append_assoc] at hsplit
  exact ⟨length_slice (by omega), hsplit⟩

theorem byteAt_slice (script : List Byte) (i : ℕ) {n : ℕ} (hn : 0 < n) :
    byteAt (slice script i n) 0 = byteAt script i := by
  rw [byteAt, byteAt, slice, List.getD_eq_getElem?_getD, List.getD_eq_getElem?_getD,
    List.getElem?_take_of_lt hn, List.getElem?_drop, Nat.add_zero]

theorem isToPubKey_eq_some {curve : Curve} {script : CScript} {pubkey : CPubKey}
    (h : isToPubKey curve script = some pubkey) :
    (pubkey.length = 33 ∧ (byteAt pubkey 0 = 2 ∨ byteAt pubkey 0 = 3) ∧
        script = [33] ++ pubkey ++ [opcode OP_CHECKSIG]) ∨
      pubkey.length = 65 ∧ byteAt pubkey 0 = 4 ∧ CPubKey.isFullyValid curve pubkey = true ∧
        script = [65] ++ pubkey ++ [opcode OP_CHECKSIG] := by
  unfold isToPubKey at h
  by_cases hshort : script.length = 35 ∧ byteAt script 0 = 33 ∧
      byteAt script 34 = opcode OP_CHECKSIG ∧ (byteAt script 1 = 0x02 ∨ byteAt script 1 = 0x03)
  · rw [if_pos hshort] at h
    obtain ⟨hlen, h0, h34, h1⟩ := hshort
    obtain ⟨hkeyLen, hscript⟩ := push_shape (n := 33) hlen h0 h34
    rw [← byteAt_slice script 1 (by omega : 0 < 33)] at h1
    have hgetLen : getLen (byteAt (slice script 1 33) 0) = (slice script 1 33).length := by
      rw [hkeyLen, getLen, if_pos h1]
    have hset := set_eq (List.length_pos_iff.mp (by omega)) hgetLen
    rw [hset] at h
    cases h
    exact Or.inl ⟨hkeyLen, h1, hscript⟩
  · rw [if_neg hshort] at h
    split_ifs at h with hlong
    obtain ⟨hlen, h0, h66, h1⟩ := hlong
    obtain ⟨hkeyLen, hscript⟩ := push_shape (n := 65) hlen h0 h66
    rw [← byteAt_slice script 1 (by omega : 0 < 65)] at h1
    have hgetLen : getLen (byteAt (slice script 1 65) 0) = (slice script 1 65).length := by
      rw [hkeyLen, h1]
      rfl
    have hset := set_eq (List.length_pos_iff.mp (by omega)) hgetLen
    rw [hset] at h
    dsimp only at h
    split_ifs at h with hvalid
    cases h
    exact Or.inr ⟨hkeyLen, h1, hvalid, hscript⟩

theorem cons_slice {bs : List Byte} {n : ℕ} (h : bs.length = n + 1) :
    bs = byteAt bs 0 :: slice bs 1 n := by
  have hdrop := @drop_byteAt bs 0 (by omega)
  rw [List.drop_zero, Nat.zero_add] at hdrop
  rw [slice, List.take_of_length_le (by rw [List.length_drop]; omega)]
  exact hdrop

/-- What is compressed has one of the shapes, and its tag and payload are written. -/
theorem compress_form {curve : Curve} {script : CScript} {out : List Byte}
    (h : compress curve script = some out) :
    ∃ tag payload, Form curve script tag payload ∧ out = BitVec.ofNat 8 tag :: payload := by
  unfold compress at h
  cases hkey : isToKeyID script with
  | some keyID =>
    rw [hkey] at h
    obtain ⟨hlen, hscript⟩ := isToKeyID_eq_some hkey
    rw [hscript]
    exact ⟨0, keyID, .keyID hlen, (Option.some.inj h).symm⟩
  | none =>
    rw [hkey] at h
    cases hid : isToScriptID script with
    | some scriptID =>
      rw [hid] at h
      obtain ⟨hlen, hscript⟩ := isToScriptID_eq_some hid
      rw [hscript]
      exact ⟨1, scriptID, .scriptID hlen, (Option.some.inj h).symm⟩
    | none =>
      rw [hid] at h
      cases hpubkey : isToPubKey curve script with
      | none =>
        rw [hpubkey] at h
        cases h
      | some pubkey =>
        rw [hpubkey] at h
        dsimp only at h
        rcases isToPubKey_eq_some hpubkey with ⟨hlen, hfirst, hscript⟩ |
          ⟨hlen, hfirst, hvalid, hscript⟩
        · rw [if_pos hfirst] at h
          have hcons := cons_slice hlen
          obtain ⟨tag, htag, hbyte⟩ : ∃ tag, (tag = 2 ∨ tag = 3) ∧
              byteAt pubkey 0 = BitVec.ofNat 8 tag := by
            rcases hfirst with hfirst | hfirst
            · exact ⟨2, Or.inl rfl, hfirst⟩
            · exact ⟨3, Or.inr rfl, hfirst⟩
          rw [hbyte] at h hcons
          rw [hscript, hcons]
          exact ⟨tag, slice pubkey 1 32, .compressed htag (length_slice (by omega)),
            (Option.some.inj h).symm⟩
        · rw [if_neg (by rw [hfirst]; decide), if_pos hfirst] at h
          obtain ⟨tag, htag, hodd⟩ : ∃ tag, (tag = 4 ∨ tag = 5) ∧
              BitVec.ofNat 8 tag = 4 ||| (byteAt pubkey 64 &&& 1) := by
            have hall : ∀ b : Byte, (4 : Byte) ||| (b &&& 1) = 4 ∨ (4 : Byte) ||| (b &&& 1) = 5 := by
              decide
            rcases hall (byteAt pubkey 64) with hodd | hodd
            · exact ⟨4, Or.inl rfl, hodd.symm⟩
            · exact ⟨5, Or.inr rfl, hodd.symm⟩
          rw [hscript]
          refine ⟨tag, slice pubkey 1 32, .uncompressed htag hlen hfirst hodd hvalid, ?_⟩
          rw [hodd]
          exact (Option.some.inj h).symm

/-- Decompression of a fully valid key's compressed form gives the key. -/
def Inverts (curve : Curve) : Prop :=
  ∀ pubkey : CPubKey, pubkey.length = 65 → byteAt pubkey 0 = 4 →
    CPubKey.isFullyValid curve pubkey = true →
    CPubKey.decompress curve ((2 ||| (byteAt pubkey 64 &&& 1)) :: slice pubkey 1 32) = some pubkey

variable {curve : Curve}

/-- Each shape is rebuilt from its tag and payload. -/
theorem decompress_form (hcurve : Inverts curve) {script : CScript} {tag : ℕ}
    {payload : List Byte} (h : Form curve script tag payload) (old : CScript) :
    decompress curve old tag payload = some script := by
  cases h with
  | keyID h => rw [decompress, if_pos rfl, slice_self h]
  | scriptID h => rw [decompress, if_neg (by omega), if_pos rfl, slice_self h]
  | compressed htag h =>
    rw [decompress, if_neg (by omega), if_neg (by omega), if_pos htag, slice_self h]
  | @uncompressed tag pubkey htag h hfirst hodd hvalid =>
    have hparity : BitVec.ofNat 8 (tag - 2) = 2 ||| (byteAt pubkey 64 &&& 1) := by
      have hall : ∀ b : Byte, ((4 : Byte) = 4 ||| (b &&& 1) → (2 : Byte) = 2 ||| (b &&& 1)) ∧
          ((5 : Byte) = 4 ||| (b &&& 1) → (3 : Byte) = 2 ||| (b &&& 1)) := by
        decide
      rcases htag with rfl | rfl
      · exact (hall _).1 hodd
      · exact (hall _).2 hodd
    have hpayload : (slice pubkey 1 32).length = 32 := length_slice (by omega)
    have hcompressed : CPubKey.set (BitVec.ofNat 8 (tag - 2) :: slice pubkey 1 32) =
        BitVec.ofNat 8 (tag - 2) :: slice pubkey 1 32 := by
      refine set_eq (List.cons_ne_nil _ _) ?_
      rw [List.length_cons, hpayload]
      rcases htag with rfl | rfl
      · rfl
      · rfl
    have hsize : CPubKey.size pubkey = 65 := by
      show getLen (byteAt pubkey 0) = 65
      rw [hfirst]
      rfl
    rw [decompress, if_neg (by omega), if_neg (by omega), if_neg (by omega), if_pos htag,
      slice_self hpayload, hcompressed, hparity, hcurve pubkey h hfirst hvalid]
    dsimp only
    rw [if_pos hsize, slice_self h]

theorem Form.length_payload {script : CScript} {tag : ℕ} {payload : List Byte}
    (h : Form curve script tag payload) :
    tag < nSpecialScripts ∧ payload.length = getSpecialSize tag := by
  cases h with
  | keyID h => exact ⟨by decide, h⟩
  | scriptID h => exact ⟨by decide, h⟩
  | compressed htag h =>
    rcases htag with rfl | rfl
    · exact ⟨by decide, h⟩
    · exact ⟨by decide, h⟩
  | @uncompressed tag pubkey htag h hfirst hodd hvalid =>
    have hpayload : (slice pubkey 1 32).length = 32 := length_slice (by omega)
    rcases htag with rfl | rfl
    · exact ⟨by decide, hpayload⟩
    · exact ⟨by decide, hpayload⟩

end Shapes

/-! Scripts in a stream. -/

section Streams

variable {curve : Curve}

theorem readWord_small {n : ℕ} (h : n < 128) (bs : List Byte) :
    readWord (BitVec.ofNat 8 n :: bs) = some (BitVec.ofNat 32 n, bs) := by
  have hnat : (BitVec.ofNat 8 n).toNat = n := by
    rw [BitVec.toNat_ofNat]
    omega
  have hflag : ∀ b : Byte, b.toNat < 128 → b &&& 0x80 = 0 := by decide
  have hlow : (0 : ℤ) * 128 + (BitVec.ofNat 8 n).toNat % 128 = n := by
    rw [hnat]
    omega
  rw [readWord, readVarInt, if_neg (by rw [hflag _ (by omega)]; simp), hlow]
  simp

theorem rawSize_toNat {script : CScript} (h : script.length < 2 ^ 32 - nSpecialScripts) :
    (rawSize script).toNat = script.length + nSpecialScripts := by
  rw [rawSize, BitVec.toNat_ofNat, nSpecialScripts] at *
  omega

/-- Reading back what was written, up to the size that overflows. -/
theorem unserialize_serialize (hcurve : Inverts curve) {script : CScript}
    (h : script.length < 2 ^ 32 - nSpecialScripts) (old : CScript) (rest : List Byte) :
    unserialize curve old (serialize curve script ++ rest) = some (script, rest) := by
  unfold serialize unserialize
  cases hcompress : compress curve script with
  | some out =>
    obtain ⟨tag, payload, hform, rfl⟩ := compress_form hcompress
    obtain ⟨htag, hlen⟩ := hform.length_payload
    have hword : (BitVec.ofNat 32 tag).toNat = tag := by
      rw [BitVec.toNat_ofNat]
      unfold nSpecialScripts at htag
      omega
    have htake : (payload ++ rest).take (getSpecialSize tag) = payload := by
      rw [← hlen, List.take_left]
    have hdrop : (payload ++ rest).drop (getSpecialSize tag) = rest := by
      rw [← hlen, List.drop_left]
    dsimp only
    rw [List.cons_append, readWord_small (by unfold nSpecialScripts at htag; omega)]
    dsimp only [bind, Option.bind]
    rw [hword, if_pos htag, if_neg (by rw [List.length_append]; omega), htake, hdrop,
      decompress_form hcurve hform]
    rfl
  | none =>
    have hsize := rawSize_toNat h
    dsimp only
    rw [List.append_assoc, readWord_writeUnsigned]
    dsimp only [bind, Option.bind]
    rw [hsize, if_neg (by omega), Nat.add_sub_cancel, if_neg (by rw [List.length_append]; omega),
      List.take_left, List.drop_left]
    rfl

theorem length_decompress {old script : CScript} {nSize : ℕ} {bytes : List Byte}
    (h : decompress curve old nSize bytes = some script) :
    script = old ∨ script.length ≤ 67 := by
  have hslice : ∀ (bs : List Byte) (n : ℕ), (slice bs 0 n).length ≤ n :=
    fun bs n => List.length_take_le _ _
  unfold decompress at h
  split_ifs at h
  · cases h
    have hle := hslice bytes 20
    refine Or.inr ?_
    simp only [List.length_append, List.length_cons, List.length_nil]
    omega
  · cases h
    have hle := hslice bytes 20
    refine Or.inr ?_
    simp only [List.length_append, List.length_cons, List.length_nil]
    omega
  · cases h
    have hle := hslice bytes 32
    refine Or.inr ?_
    simp only [List.length_append, List.length_cons, List.length_nil]
    omega
  · cases hkey : (CPubKey.set (BitVec.ofNat 8 (nSize - 2) :: slice bytes 0 32)).decompress curve with
    | none =>
      rw [hkey] at h
      exact Or.inl (Option.some.inj h).symm
    | some pubkey =>
      rw [hkey] at h
      dsimp only at h
      split_ifs at h
      cases h
      have hle := hslice pubkey 65
      refine Or.inr ?_
      simp only [List.length_append, List.length_cons, List.length_nil]
      omega
  · exact Or.inl (Option.some.inj h).symm

/-- A script that is read into an empty one is short of the size that overflows. -/
theorem unserialize_length {bs rest : List Byte} {script : CScript}
    (h : unserialize curve [] bs = some (script, rest)) :
    script.length < 2 ^ 32 - nSpecialScripts := by
  unfold unserialize at h
  simp only [Option.bind_eq_bind, Option.bind_eq_some_iff] at h
  obtain ⟨⟨nSize, bs'⟩, -, h⟩ := h
  dsimp only at h
  have hword := nSize.isLt
  split_ifs at h
  · simp only [Option.bind_eq_some_iff] at h
    obtain ⟨script', hdecompress, heq⟩ := h
    cases heq
    rcases length_decompress hdecompress with rfl | hle
    · decide
    · unfold nSpecialScripts
      omega
  · cases h
    rw [List.length_take]
    unfold nSpecialScripts at *
    omega

theorem getSerializeSize_eq (script : CScript) :
    getSerializeSize curve script = nSerSize (serialize curve script).length := by
  unfold getSerializeSize serialize
  cases compress curve script with
  | some out => rfl
  | none =>
    dsimp only
    rw [unsignedSize_eq, List.length_append, Nat.add_comm, nSerSize_add]

end Streams

/-- A script is read back exactly when its size with the special ones added fits an unsigned int.
Among these no two are written alike, also in front of other data, a special form starts with a
number below six and the raw form with one from six on, and the size is the number of bytes. -/
theorem scriptCompressor_roundTrip (curve : Curve) (hcurve : Inverts curve) :
    (∀ script : CScript, (∀ old rest, unserialize curve old (serialize curve script ++ rest) =
        some (script, rest)) ↔ script.length < 2 ^ 32 - nSpecialScripts) ∧
      (∀ (script script' : CScript) (rest rest' : List Byte),
        script.length < 2 ^ 32 - nSpecialScripts → script'.length < 2 ^ 32 - nSpecialScripts →
        serialize curve script ++ rest = serialize curve script' ++ rest' →
        script = script' ∧ rest = rest') ∧
      (∀ (script : CScript) (out : List Byte), compress curve script = some out →
        ∃ tag payload, Form curve script tag payload ∧ tag < nSpecialScripts ∧
          serialize curve script = BitVec.ofNat 8 tag :: payload) ∧
      (∀ script : CScript, compress curve script = none →
        script.length < 2 ^ 32 - nSpecialScripts →
        readWord (serialize curve script) = some (rawSize script, script) ∧
          (rawSize script).toNat = script.length + nSpecialScripts) ∧
      ∀ script : CScript,
        getSerializeSize curve script = nSerSize (serialize curve script).length := by
  refine ⟨fun script => ⟨fun h => ?_, fun h => unserialize_serialize hcurve h⟩, ?_, ?_, ?_,
    getSerializeSize_eq⟩
  · exact unserialize_length (h [] [])
  · intro script script' rest rest' h h' heq
    have hread := unserialize_serialize hcurve h [] rest
    rw [heq, unserialize_serialize hcurve h' [] rest'] at hread
    obtain ⟨hscript, hrest⟩ := Prod.mk.inj (Option.some.inj hread)
    exact ⟨hscript.symm, hrest.symm⟩
  · intro script out hcompress
    obtain ⟨tag, payload, hform, rfl⟩ := compress_form hcompress
    refine ⟨tag, payload, hform, hform.length_payload.1, ?_⟩
    rw [serialize, hcompress]
  · intro script hcompress h
    refine ⟨?_, rawSize_toNat h⟩
    rw [serialize, hcompress]
    exact readWord_writeUnsigned _ _

/-- The generator of secp256k1, uncompressed. -/
def generator : CPubKey :=
  4 :: ((leBytes 32 0x79BE667EF9DCBBAC55A06295CE870B07029BFCDB2DCE28D959F2815B16F81798).reverse ++
    (leBytes 32 0x483ADA7726A3C4655DA4FBFC0E1108A8FD17B448A68554199C47D08FFB10D4B8).reverse)

/-- What the curve makes of that point, in its two forms. -/
def generatorCurve : Curve where
  Point := Unit
  setPubKey vch := if vch = generator ∨ vch = 2 :: slice generator 1 32 then some () else none
  getPubKey _ fCompressed := if fCompressed then 2 :: slice generator 1 32 else generator

theorem generatorCurve_inverts : Inverts generatorCurve := by
  intro pubkey hlen hfirst hvalid
  obtain rfl : pubkey = generator := by
    unfold CPubKey.isFullyValid generatorCurve at hvalid
    rw [Bool.and_eq_true] at hvalid
    by_contra hne
    have hother : pubkey ≠ 2 :: slice generator 1 32 := by
      rintro rfl
      exact absurd hfirst (by decide)
    have hnone := hvalid.2
    simp only [hne, hother, or_self, if_false] at hnone
    exact absurd hnone Bool.false_ne_true
  decide

theorem scriptCompressor_roundTrip_generator :
    unserialize generatorCurve [] (serialize generatorCurve
      ([65] ++ generator ++ [opcode OP_CHECKSIG])) =
        some ([65] ++ generator ++ [opcode OP_CHECKSIG], []) := by
  have h := ((scriptCompressor_roundTrip generatorCurve generatorCurve_inverts).1
    ([65] ++ generator ++ [opcode OP_CHECKSIG])).mpr (by decide) [] []
  rwa [List.append_nil] at h

/-- A script whose size with six added is zero in an unsigned int is read as something else. -/
theorem overlong_script_lost :
    unserialize generatorCurve [] (serialize generatorCurve
      (List.replicate (2 ^ 32 - nSpecialScripts) 0)) ≠
        some (List.replicate (2 ^ 32 - nSpecialScripts) 0, []) := by
  intro h
  have hlen := unserialize_length h
  rw [List.length_replicate] at hlen
  exact absurd hlen (lt_irrefl _)

end UmbrellaLtc.ScriptCompressor
