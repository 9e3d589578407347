import UmbrellaLtc.AmountCode
import UmbrellaLtc.ScriptCompressor
import UmbrellaLtc.Coins

/-!
The records of the coin database and of the undo files, from main.h. The code in front of a record
has three flags and the number of mask bytes that are not zero, from which the reader knows where
the mask ends. A CTxOut is written with its amount and its script compressed. Assertions are in the
model: a writer gives none where one fails.
-/

namespace UmbrellaLtc.CoinRecord

open Codec Transaction VarInt SerializedSize Coins AmountCode ScriptCompressor
open CheckBlock (MAX_MONEY)

section TxOut

variable (curve : Curve)

/-- The amount as CompressAmount takes it. -/
def amount (nValue : BitVec 64) : ℤ := nValue.toNat

/-- CTxOutCompressor. -/
def writeTxOut (txout : CTxOut) : Option (List Byte) := do
  let nVal ← compressAmount (amount txout.nValue)
  return writeVarInt 64 nVal ++ serialize curve txout.scriptPubKey

def txOutSize (txout : CTxOut) : Option (BitVec 32) := do
  let nVal ← compressAmount (amount txout.nValue)
  return nSerSize (getSizeOfVarInt 64 nVal) + getSerializeSize curve txout.scriptPubKey

/-- The reader, into an output whose script is there before. -/
def readTxOut (txout : CTxOut) (bs : List Byte) : Option (CTxOut × List Byte) := do
  let (nVal, bs) ← readVarInt 0 bs
  let nValue ← decompressAmount (nVal % 2 ^ 64)
  let (scriptPubKey, bs) ← unserialize curve txout.scriptPubKey bs
  return (⟨BitVec.ofInt 64 nValue, scriptPubKey⟩, bs)

end TxOut

section Mask

/-- Whether the output is unspent that bit `i` of byte `b` stands for. -/
def maskBit (c : CCoins) (b i : ℕ) : Bool := c.isAvailable (2 + b * 8 + i)

/-- One round of CalcMaskSize: the last byte used so far, and how many are not zero. -/
def maskStep (c : CCoins) (s : ℕ × ℕ) (b : ℕ) : ℕ × ℕ :=
  if (List.range 8).any (maskBit c b) then (b + 1, s.2 + 1) else s

/-- CCoins::CalcMaskSize, over the bytes with `2 + b * 8 < vout.size()`. -/
def calcMaskSize (c : CCoins) : ℕ × ℕ :=
  (List.range ((c.vout.length + 5) / 8)).foldl (maskStep c) (0, 0)

/-- `chAvail`, bit after bit. -/
def packByte (f : ℕ → Bool) : Byte :=
  (List.range 8).foldl (fun chAvail i => if f i then chAvail ||| 1 <<< i else chAvail) 0

/-- The eight flags that are read from a byte. -/
def unpackByte (chAvail : Byte) : List Bool :=
  (List.range 8).map fun p => chAvail &&& 1 <<< p != 0

def mask (c : CCoins) : List Byte :=
  (List.range (calcMaskSize c).1).map fun b => packByte (maskBit c b)

/-- The bytes up to the last of so many that are not zero. -/
def readMask : ℕ → List Byte → Option (List Byte × List Byte)
  | 0, bs => some ([], bs)
  | _ + 1, [] => none
  | nMaskCode + 1, chAvail :: bs => do
      let (rest, bs) ← readMask (if chAvail ≠ 0 then nMaskCode else nMaskCode + 1) bs
      return (chAvail :: rest, bs)

end Mask

section Coins

variable (curve : Curve)

/-- The header code; none where the assertion fails that something is unspent. -/
def headerCode (c : CCoins) : Option ℕ :=
  let nMaskCode := (calcMaskSize c).2
  let fFirst := c.isAvailable 0
  let fSecond := c.isAvailable 1
  if fFirst ∨ fSecond ∨ nMaskCode ≠ 0 then
    some (8 * (nMaskCode - if fFirst ∨ fSecond then 0 else 1) + (if c.fCoinBase then 1 else 0) +
      (if fFirst then 2 else 0) + if fSecond then 4 else 0)
  else none

def unspentOuts (c : CCoins) : List CTxOut := c.vout.filter fun txout => !txout.isNull

/-- CCoins::Serialize. -/
def writeCoins (c : CCoins) : Option (List Byte) := do
  let nCode ← headerCode c
  let outs ← (unspentOuts c).mapM (writeTxOut curve)
  return writeInt c.nVersion ++ (writeUnsigned (BitVec.ofNat 32 nCode) ++ (mask c ++
    (outs.flatten ++ writeInt (BitVec.ofNat 32 c.nHeight))))

/-- CCoins::GetSerializeSize. -/
def coinsSize (c : CCoins) : Option (BitVec 32) := do
  let nCode ← headerCode c
  let sizes ← (unspentOuts c).mapM (txOutSize curve)
  return intSize c.nVersion + (unsignedSize (BitVec.ofNat 32 nCode) +
    (nSerSize (calcMaskSize c).1 + (sizes.sum + intSize (BitVec.ofNat 32 c.nHeight))))

/-- The outputs that are marked as available, among null ones. -/
def readOuts : List Bool → List Byte → Option (List CTxOut × List Byte)
  | [], bs => some ([], bs)
  | avail :: vAvail, bs => do
      let (txout, bs) ← if avail then readTxOut curve CTxOut.null bs else some (CTxOut.null, bs)
      let (vout, bs) ← readOuts vAvail bs
      return (txout :: vout, bs)

/-- CCoins::Unserialize; the height is kept as the word that is read. -/
def readCoins (bs : List Byte) : Option (CCoins × List Byte) := do
  let (nVersion, bs) ← readWord bs
  let (nCode, bs) ← readWord bs
  let vAvail := [nCode &&& 2 != 0, nCode &&& 4 != 0]
  let nMaskCode := nCode.toNat / 8 + if nCode &&& 6 ≠ 0 then 0 else 1
  let (bytes, bs) ← readMask nMaskCode bs
  let (vout, bs) ← readOuts curve (vAvail ++ bytes.flatMap unpackByte) bs
  let (nHeight, bs) ← readWord bs
  return (CCoins.cleanup ⟨nCode &&& 1 != 0, vout, nHeight.toNat, nVersion⟩, bs)

end Coins

section Undo

variable (curve : Curve)

/-- `nHeight * 2 + (fCoinBase ? 1 : 0)`. -/
def undoCode (undo : CTxInUndo) : BitVec 32 :=
  BitVec.ofNat 32 (undo.nHeight * 2 + if undo.fCoinBase then 1 else 0)

/-- CTxInUndo::Serialize. -/
def writeTxInUndo (undo : CTxInUndo) : Option (List Byte) := do
  let txout ← writeTxOut curve undo.txout
  return writeUnsigned (undoCode undo) ++
    ((if undo.nHeight > 0 then writeInt undo.nVersion else []) ++ txout)

def txInUndoSize (undo : CTxInUndo) : Option (BitVec 32) := do
  let nSize ← txOutSize curve undo.txout
  return unsignedSize (undoCode undo) +
    ((if undo.nHeight > 0 then intSize undo.nVersion else 0) + nSize)

/-- CTxInUndo::Unserialize into a new object. -/
def readTxInUndo (bs : List Byte) : Option (CTxInUndo × List Byte) := do
  let (nCode, bs) ← readWord bs
  let nHeight := nCode.toNat / 2
  let (nVersion, bs) ← if nHeight > 0 then readWord bs else some (0, bs)
  let (txout, bs) ← readTxOut curve CTxOut.null bs
  return (⟨txout, nCode &&& 1 != 0, nHeight, nVersion⟩, bs)

end Undo

section Vectors

variable {α : Type}

/-- A std::vector of objects with their own functions. -/
def writeVector (write : α → Option (List Byte)) (v : List α) : Option (List Byte) := do
  let parts ← v.mapM write
  return writeCompactSize v.length ++ parts.flatten

def vectorSize (size : α → Option (BitVec 32)) (v : List α) : Option (BitVec 32) := do
  let sizes ← v.mapM size
  return nSerSize (getSizeOfCompactSize v.length) + sizes.sum

def readMany (read : List Byte → Option (α × List Byte)) :
    ℕ → List Byte → Option (List α × List Byte)
  | 0, bs => some ([], bs)
  | n + 1, bs => do
      let (a, bs) ← read bs
      let (v, bs) ← readMany read n bs
      return (a :: v, bs)

def readVector (read : List Byte → Option (α × List Byte)) (bs : List Byte) :
    Option (List α × List Byte) := do
  let (n, bs) ← readCompactSize bs
  readMany read n bs

def writeTxUndo (curve : Curve) (undo : CTxUndo) : Option (List Byte) :=
  writeVector (writeTxInUndo curve) undo.vprevout

def txUndoSize (curve : Curve) (undo : CTxUndo) : Option (BitVec 32) :=
  vectorSize (txInUndoSize curve) undo.vprevout

def readTxUndo (curve : Curve) (bs : List Byte) : Option (CTxUndo × List Byte) :=
  (readVector (readTxInUndo curve) bs).map fun p => (⟨p.1⟩, p.2)

def writeBlockUndo (curve : Curve) (undo : CBlockUndo) : Option (List Byte) :=
  writeVector (writeTxUndo curve) undo.vtxundo

def blockUndoSize (curve : Curve) (undo : CBlockUndo) : Option (BitVec 32) :=
  vectorSize (txUndoSize curve) undo.vtxundo

def readBlockUndo (curve : Curve) (bs : List Byte) : Option (CBlockUndo × List Byte) :=
  (readVector (readTxUndo curve) bs).map fun p => (⟨p.1⟩, p.2)

end Vectors

/-- The writer and the size function agree, and the reader gives `b` and stops behind the bytes
that were written for `a`. -/
def Returns {α : Type} (write : α → Option (List Byte)) (size : α → Option (BitVec 32))
    (read : List Byte → Option (α × List Byte)) (a b : α) : Prop :=
  ∃ bytes, write a = some bytes ∧ size a = some (nSerSize bytes.length) ∧
    ∀ rest, read (bytes ++ rest) = some (b, rest)

def RoundTrips {α : Type} (write : α → Option (List Byte)) (size : α → Option (BitVec 32))
    (read : List Byte → Option (α × List Byte)) (a : α) : Prop := Returns write size read a a

section Lists

variable {α : Type} {write : α → Option (List Byte)} {size : α → Option (BitVec 32)}
  {read : List Byte → Option (α × List Byte)} {back : α → α}

theorem returns_many {v : List α} (h : ∀ a ∈ v, Returns write size read a (back a)) :
    ∃ parts sizes, v.mapM write = some parts ∧ v.mapM size = some sizes ∧
      sizes.sum = nSerSize parts.flatten.length ∧
      ∀ rest, readMany read v.length (parts.flatten ++ rest) = some (v.map back, rest) := by
  induction v with
  | nil => exact ⟨[], [], rfl, rfl, rfl, fun rest => rfl⟩
  | cons a v ih =>
    obtain ⟨bytes, hwrite, hsize, hread⟩ := h a List.mem_cons_self
    obtain ⟨parts, sizes, hparts, hsizes, hsum, hmany⟩ :=
      ih fun b hb => h b (List.mem_cons_of_mem a hb)
    refine ⟨bytes :: parts, nSerSize bytes.length :: sizes, ?_, ?_, ?_, fun rest => ?_⟩
    · rw [List.mapM_cons, hwrite, hparts]
      rfl
    · rw [List.mapM_cons, hsize, hsizes]
      rfl
    · rw [List.sum_cons, hsum, List.flatten_cons, List.length_append, nSerSize_add]
    · rw [List.length_cons, readMany, List.flatten_cons, List.append_assoc, hread]
      show (readMany read v.length _ >>= _) = _
      rw [hmany]
      rfl

theorem returns_vector {v : List α} (h : ∀ a ∈ v, Returns write size read a (back a))
    (hlen : v.length ≤ MAX_SIZE) :
    Returns (writeVector write) (vectorSize size) (readVector read) v (v.map back) := by
  obtain ⟨parts, sizes, hparts, hsizes, hsum, hmany⟩ := returns_many h
  refine ⟨writeCompactSize v.length ++ parts.flatten, ?_, ?_, fun rest => ?_⟩
  · rw [writeVector, hparts]
    rfl
  · have hcount : (writeCompactSize v.length).length = getSizeOfCompactSize v.length :=
      compactSize.write_length v.length
    rw [vectorSize, hsizes, List.length_append, nSerSize_add, ← hsum, hcount]
    rfl
  · have hcount : readCompactSize (writeCompactSize v.length ++ (parts.flatten ++ rest)) =
        some (v.length, parts.flatten ++ rest) := compactSize.read_write v.length _ hlen
    rw [readVector, List.append_assoc, hcount]
    exact hmany rest

end Lists

section Outputs

/-- What an unspent output has to be: an amount of money, under a script whose size fits. -/
structure GoodOut (txout : CTxOut) : Prop where
  range : 0 ≤ txout.value ∧ txout.value ≤ MAX_MONEY
  script : txout.scriptPubKey.length < 2 ^ 32 - nSpecialScripts

theorem GoodOut.amount_eq {txout : CTxOut} (h : GoodOut txout) :
    amount txout.nValue = txout.value := by
  have hlow := h.range.1
  unfold CTxOut.value at hlow ⊢
  rw [BitVec.toInt_eq_toNat_cond] at hlow ⊢
  have hlt := txout.nValue.isLt
  unfold amount
  split_ifs at hlow ⊢
  · rfl
  · omega

theorem GoodOut.isNull {txout : CTxOut} (h : GoodOut txout) : txout.isNull = false := by
  have hlow := h.range.1
  by_contra hnull
  rw [Bool.not_eq_false, CTxOut.isNull, beq_iff_eq] at hnull
  rw [CTxOut.value, hnull] at hlow
  exact absurd hlow (by decide)

variable {curve : Curve}

theorem roundTrips_txOut (hcurve : Inverts curve) {txout : CTxOut} (h : GoodOut txout)
    (old : CTxOut) : RoundTrips (writeTxOut curve) (txOutSize curve) (readTxOut curve old) txout := by
  have hamount := h.amount_eq
  obtain ⟨a, ha, hvalue, hcode⟩ := exists_parts h.range.1 h.range.2
  have hcompress := compressAmountWith_value exact_wrapped a hcode
  have hdecompress := decompressAmountWith_code exact_wrapped a hcode hvalue
  rw [ha, ← hamount] at hcompress hdecompress
  refine ⟨writeVarInt 64 a.code ++ serialize curve txout.scriptPubKey, ?_, ?_, fun rest => ?_⟩
  · rw [writeTxOut, compressAmount, hcompress]
    rfl
  · rw [txOutSize, compressAmount, hcompress, List.length_append, nSerSize_add,
      writeVarInt_length, ← getSerializeSize_eq]
    rfl
  · have hword : (a.code : ℤ) % 2 ^ 64 = a.code := Int.emod_eq_of_lt (by omega) (by omega)
    have hback : BitVec.ofInt 64 (amount txout.nValue) = txout.nValue := by
      unfold amount
      simp
    rw [readTxOut, List.append_assoc,
      readVarInt_writeVarInt 64 a.code (by omega) (by norm_num; omega)]
    show (decompressAmount ((a.code : ℤ) % 2 ^ 64) >>= _) = _
    rw [hword, decompressAmount, hdecompress]
    show (unserialize curve old.scriptPubKey _ >>= _) = _
    rw [unserialize_serialize hcurve h.script, hback]
    rfl

end Outputs

/-! The mask. -/

section Masks

theorem unpackByte_packByte (f : ℕ → Bool) : unpackByte (packByte f) = (List.range 8).map f := by
  have hall : ∀ b0 b1 b2 b3 b4 b5 b6 b7 : Bool,
      unpackByte (packByte fun i => [b0, b1, b2, b3, b4, b5, b6, b7].getD i false) =
        [b0, b1, b2, b3, b4, b5, b6, b7] := by
    decide +kernel
  exact hall (f 0) (f 1) (f 2) (f 3) (f 4) (f 5) (f 6) (f 7)

theorem packByte_ne_zero_iff (f : ℕ → Bool) :
    packByte f ≠ 0 ↔ (List.range 8).any f = true := by
  have hzero : ∀ g : ℕ → Bool, (∀ i < 8, g i = false) → packByte g = 0 := by
    intro g hg
    simp [packByte, List.range, List.range.loop, hg]
  constructor
  · intro hne
    by_contra hnone
    rw [Bool.not_eq_true, List.any_eq_false] at hnone
    refine hne (hzero f fun i hi => ?_)
    simpa using hnone i (List.mem_range.mpr hi)
  · intro hany hzero'
    have hbits := unpackByte_packByte f
    obtain ⟨i, hi, hbit⟩ := List.any_eq_true.mp hany
    have hnone : ∀ b ∈ unpackByte (0 : Byte), b = false := by decide
    rw [hzero'] at hbits
    rw [hbits] at hnone
    have hclear := hnone (f i) (List.mem_map_of_mem hi)
    rw [hbit] at hclear
    cases hclear

/-- What CalcMaskSize has found after so many bytes. -/
structure MaskSize (c : CCoins) (n : ℕ) (s : ℕ × ℕ) : Prop where
  le : s.1 ≤ n
  zeros : ∀ b, s.1 ≤ b → b < n → packByte (maskBit c b) = 0
  last : s.1 = 0 ∨ packByte (maskBit c (s.1 - 1)) ≠ 0
  count : s.2 = ((List.range s.1).map fun b => packByte (maskBit c b)).countP (· ≠ 0)

theorem maskSize_foldl (c : CCoins) (n : ℕ) :
    MaskSize c n ((List.range n).foldl (maskStep c) (0, 0)) := by
  induction n with
  | zero => exact ⟨le_rfl, fun b _ hb => absurd hb (Nat.not_lt_zero b), Or.inl rfl, rfl⟩
  | succ n ih =>
    rw [List.range_succ, List.foldl_append]
    show MaskSize c (n + 1) (maskStep c ((List.range n).foldl (maskStep c) (0, 0)) n)
    generalize (List.range n).foldl (maskStep c) (0, 0) = s at ih ⊢
    unfold maskStep
    split_ifs with hany
    · have hne := (packByte_ne_zero_iff (maskBit c n)).mpr hany
      refine ⟨le_rfl, fun b hlow hhigh => absurd hlow (by dsimp only; omega), Or.inr hne, ?_⟩
      -- the bytes between the last one used and this one are zero
      have hgap : ((List.range' s.1 (n - s.1)).map fun b => packByte (maskBit c b)).countP
          (· ≠ 0) = 0 := by
        rw [List.countP_eq_zero]
        intro x hx
        obtain ⟨b, hb, rfl⟩ := List.mem_map.mp hx
        obtain ⟨hlow, hhigh⟩ := List.mem_range'_1.mp hb
        simp [ih.zeros b hlow (by omega)]
      have hrange : List.range n = List.range s.1 ++ List.range' s.1 (n - s.1) := by
        have happend := List.range'_append_1 (s := 0) (m := s.1) (n := n - s.1)
        rw [Nat.zero_add, Nat.add_sub_of_le ih.le] at happend
        rw [List.range_eq_range', List.range_eq_range', happend]
      have hcount := ih.count
      dsimp only
      rw [List.range_succ, List.map_append, List.countP_append, hrange, List.map_append,
        List.countP_append, hgap, ← hcount, List.map_singleton, List.countP_singleton,
        if_pos (by simpa using hne)]
    · have hzero : packByte (maskBit c n) = 0 := by
        by_contra hne
        exact hany ((packByte_ne_zero_iff _).mp hne)
      refine ⟨by have := ih.le; omega, fun b hlow hhigh => ?_, ih.last, ih.count⟩
      rcases Nat.lt_succ_iff_lt_or_eq.mp hhigh with hlt | rfl
      · exact ih.zeros b hlow hlt
      · exact hzero

theorem maskSize_calcMaskSize (c : CCoins) :
    MaskSize c ((c.vout.length + 5) / 8) (calcMaskSize c) := maskSize_foldl c _

/-- The reader stops behind the last byte that is not zero. -/
theorem readMask_append {bytes : List Byte} (hlast : ∀ b ∈ bytes.getLast?, b ≠ 0)
    (rest : List Byte) : readMask (bytes.countP (· ≠ 0)) (bytes ++ rest) = some (bytes, rest) := by
  induction bytes with
  | nil => rw [List.countP_nil, readMask, List.nil_append]
  | cons chAvail bytes ih =>
    have hrest : ∀ b ∈ bytes.getLast?, b ≠ 0 := by
      intro b hb
      refine hlast b ?_
      cases bytes with
      | nil => cases hb
      | cons b' bytes => rwa [List.getLast?_cons_cons]
    have hread := ih hrest
    by_cases hzero : chAvail = 0
    · -- a zero byte does not count, and one that counts is still to come
      have hcount : (chAvail :: bytes).countP (· ≠ 0) = bytes.countP (· ≠ 0) := by
        rw [List.countP_cons_of_neg (by simp [hzero])]
      obtain ⟨k, hk⟩ : ∃ k, bytes.countP (· ≠ 0) = k + 1 := by
        cases hlast' : bytes.getLast? with
        | none =>
          obtain rfl := List.getLast?_eq_none_iff.mp hlast'
          exact absurd hzero (hlast chAvail rfl)
        | some b =>
          refine Nat.exists_eq_succ_of_ne_zero fun hnone => ?_
          have hall := List.countP_eq_zero.mp hnone b (List.mem_of_getLast? hlast')
          exact hrest b hlast' (by simpa using hall)
      rw [hcount, hk, List.cons_append, readMask, if_neg (by simpa using hzero), ← hk, hread]
      rfl
    · have hcount : (chAvail :: bytes).countP (· ≠ 0) = bytes.countP (· ≠ 0) + 1 := by
        rw [List.countP_cons_of_pos (by simpa using hzero)]
      rw [hcount, List.cons_append, readMask, if_pos hzero, hread]
      rfl

theorem range_flatMap_eight (f : ℕ → Bool) (n : ℕ) :
    (List.range n).flatMap (fun b => (List.range 8).map fun i => f (b * 8 + i)) =
      (List.range (8 * n)).map f := by
  induction n with
  | zero => rfl
  | succ n ih =>
    rw [@List.range_succ n, List.flatMap_append, ih, Nat.mul_succ, List.range_add, List.map_append,
      List.map_map, Nat.mul_comm 8 n]
    simp [Function.comp_def]

/-- The flags that are read are those of the first outputs, as many as the mask has. -/
theorem flags_eq (c : CCoins) :
    [c.isAvailable 0, c.isAvailable 1] ++ (mask c).flatMap unpackByte =
      (List.range (2 + 8 * (calcMaskSize c).1)).map c.isAvailable := by
  have hbits : (mask c).flatMap unpackByte =
      (List.range (8 * (calcMaskSize c).1)).map fun i => c.isAvailable (2 + i) := by
    rw [mask, List.flatMap_map, ← range_flatMap_eight]
    refine List.flatMap_congr fun b _ => ?_
    rw [unpackByte_packByte]
    refine List.map_congr_left fun i _ => ?_
    rw [maskBit, Nat.add_assoc]
  rw [hbits, List.range_add, List.map_append, List.map_map]
  rfl

/-- Nothing unspent lies behind the mask. -/
theorem length_le_mask {c : CCoins} (h : c.Trimmed) :
    c.vout.length ≤ 2 + 8 * (calcMaskSize c).1 := by
  have hmask := maskSize_calcMaskSize c
  by_contra hlong
  have hne : c.vout ≠ [] := List.length_pos_iff.mp (by omega)
  have hlast := h _ (List.getLast?_eq_some_getLast hne)
  have havail : c.isAvailable (c.vout.length - 1) = true := by
    rw [CCoins.isAvailable, ← List.getLast?_eq_getElem?, List.getLast?_eq_some_getLast hne]
    simp [hlast]
  have hzero := hmask.zeros ((c.vout.length - 3) / 8) (by omega) (by omega)
  have hany : (List.range 8).any (maskBit c ((c.vout.length - 3) / 8)) = true := by
    refine List.any_eq_true.mpr ⟨(c.vout.length - 3) % 8, List.mem_range.mpr (by omega), ?_⟩
    have hindex : 2 + (c.vout.length - 3) / 8 * 8 + (c.vout.length - 3) % 8 =
        c.vout.length - 1 := by omega
    rw [maskBit, hindex]
    exact havail
  exact (packByte_ne_zero_iff _).mpr hany hzero

end Masks

/-! CCoins. -/

section CoinsRoundTrip

variable {curve : Curve}

/-- The outputs behind the header: null where nothing was written. -/
theorem readOuts_outs (hcurve : Inverts curve) {vout : List CTxOut}
    (h : ∀ out ∈ vout, out = CTxOut.null ∨ GoodOut out) :
    ∃ parts sizes, (vout.filter fun out => !out.isNull).mapM (writeTxOut curve) = some parts ∧
      (vout.filter fun out => !out.isNull).mapM (txOutSize curve) = some sizes ∧
      sizes.sum = nSerSize parts.flatten.length ∧
      ∀ rest, readOuts curve (vout.map fun out => !out.isNull) (parts.flatten ++ rest) =
        some (vout, rest) := by
  induction vout with
  | nil => exact ⟨[], [], rfl, rfl, rfl, fun rest => rfl⟩
  | cons out vout ih =>
    obtain ⟨parts, sizes, hparts, hsizes, hsum, hread⟩ :=
      ih fun out' hout => h out' (List.mem_cons_of_mem out hout)
    rcases h out List.mem_cons_self with rfl | hgood
    · refine ⟨parts, sizes, ?_, ?_, hsum, fun rest => ?_⟩
      · rwa [List.filter_cons_of_neg (by decide)]
      · rwa [List.filter_cons_of_neg (by decide)]
      · rw [List.map_cons]
        show (readOuts curve (vout.map _) (parts.flatten ++ rest) >>= _) = _
        rw [hread]
        rfl
    · have hnull := hgood.isNull
      obtain ⟨bytes, hwrite, hsize, hback⟩ := roundTrips_txOut hcurve hgood CTxOut.null
      refine ⟨bytes :: parts, nSerSize bytes.length :: sizes, ?_, ?_, ?_, fun rest => ?_⟩
      · rw [List.filter_cons_of_pos (by rw [hnull]; rfl), List.mapM_cons, hwrite, hparts]
        rfl
      · rw [List.filter_cons_of_pos (by rw [hnull]; rfl), List.mapM_cons, hsize, hsizes]
        rfl
      · rw [List.sum_cons, hsum, List.flatten_cons, List.length_append, nSerSize_add]
      · rw [List.map_cons, hnull, List.flatten_cons, List.append_assoc]
        show (readTxOut curve CTxOut.null (bytes ++ (parts.flatten ++ rest)) >>= _) = _
        rw [hback]
        show (readOuts curve (vout.map _) (parts.flatten ++ rest) >>= _) = _
        rw [hread]
        rfl

/-- The outputs as they are read, before Cleanup. -/
def padded (c : CCoins) (n : ℕ) : List CTxOut :=
  c.vout ++ List.replicate (n - c.vout.length) CTxOut.null

theorem map_padded (c : CCoins) {n : ℕ} (h : c.vout.length ≤ n) :
    ((padded c n).map fun out => !out.isNull) = (List.range n).map c.isAvailable := by
  apply List.ext_getElem
  · simp only [padded, List.length_map, List.length_append, List.length_replicate,
      List.length_range]
    omega
  · intro i hi hi'
    rw [List.getElem_map, List.getElem_map, List.getElem_range]
    unfold padded CCoins.isAvailable
    rcases Nat.lt_or_ge i c.vout.length with hlt | hge
    · rw [List.getElem_append_left hlt, List.getElem?_eq_getElem hlt]
    · rw [List.getElem_append_right hge, List.getElem_replicate, List.getElem?_eq_none hge]
      rfl

theorem filter_padded (c : CCoins) (n : ℕ) :
    ((padded c n).filter fun out => !out.isNull) = unspentOuts c := by
  have hnone : ((List.replicate (n - c.vout.length) CTxOut.null).filter fun out =>
      !out.isNull) = [] := by
    rw [List.filter_replicate_of_neg (by decide)]
  rw [padded, List.filter_append, hnone, List.append_nil, unspentOuts]

theorem rdropWhile_padded {c : CCoins} (h : c.Trimmed) (n : ℕ) :
    (padded c n).rdropWhile CTxOut.isNull = c.vout := by
  unfold padded
  induction n - c.vout.length with
  | zero =>
    rw [List.replicate_zero, List.append_nil, List.rdropWhile_eq_self_iff]
    intro hne
    rw [h _ (List.getLast?_eq_some_getLast hne)]
    exact Bool.false_ne_true
  | succ k ih =>
    rw [List.replicate_succ', ← List.append_assoc, List.rdropWhile_concat_pos _ _ _ (by decide), ih]

/-- The code is the number of mask bytes over three flags. -/
theorem flags_ofNat (k : ℕ) (fCoinBase fFirst fSecond : Bool) (hk : k < 2 ^ 20) :
    let nCode := BitVec.ofNat 32 (8 * k + (if fCoinBase then 1 else 0) +
      (if fFirst then 2 else 0) + if fSecond then 4 else 0)
    (nCode &&& 1 != 0) = fCoinBase ∧ (nCode &&& 2 != 0) = fFirst ∧
      (nCode &&& 4 != 0) = fSecond ∧ nCode.toNat / 8 = k ∧
      (nCode &&& 6 ≠ 0 ↔ fFirst = true ∨ fSecond = true) := by
  intro nCode
  obtain ⟨r, hr, hlow⟩ : ∃ r < 8, (if fCoinBase then 1 else 0) + (if fFirst then 2 else 0) +
      (if fSecond then 4 else 0) = r := ⟨_, by split_ifs <;> omega, rfl⟩
  have hcode : nCode.toNat = 8 * k + r := by
    have hsum : 8 * k + (if fCoinBase then 1 else 0) + (if fFirst then 2 else 0) +
        (if fSecond then 4 else 0) = 8 * k + r := by omega
    show (BitVec.ofNat 32 _).toNat = _
    rw [hsum, BitVec.toNat_ofNat, Nat.mod_eq_of_lt (by omega)]
  -- a mask of the low three bits sees only the flags
  have hseven : nCode &&& 7 = BitVec.ofNat 32 r := by
    apply BitVec.eq_of_toNat_eq
    have hmod := Nat.and_two_pow_sub_one_eq_mod (8 * k + r) 3
    rw [BitVec.toNat_and, hcode, BitVec.toNat_ofNat, Nat.mod_eq_of_lt (show r < 2 ^ 32 by omega)]
    exact hmod.trans (by omega)
  have hand : ∀ m : BitVec 32, 7 &&& m = m → nCode &&& m = BitVec.ofNat 32 r &&& m := by
    intro m hm
    rw [← hseven, BitVec.and_assoc, hm]
  rw [hand 1 (by decide), hand 2 (by decide), hand 4 (by decide), hand 6 (by decide), ← hlow]
  refine ⟨?_, ?_, ?_, by omega, ?_⟩ <;>
    cases fCoinBase <;> cases fFirst <;> cases fSecond <;> decide

/-- The flags and the number of mask bytes come back out of the header code. -/
theorem headerCode_spec {c : CCoins} (hunpruned : c.isPruned = false) (htrim : c.Trimmed)
    (hlen : c.vout.length < 2 ^ 20) :
    ∃ nCode, headerCode c = some nCode ∧
      (BitVec.ofNat 32 nCode &&& 1 != 0) = c.fCoinBase ∧
      (BitVec.ofNat 32 nCode &&& 2 != 0) = c.isAvailable 0 ∧
      (BitVec.ofNat 32 nCode &&& 4 != 0) = c.isAvailable 1 ∧
      (BitVec.ofNat 32 nCode).toNat / 8 + (if BitVec.ofNat 32 nCode &&& 6 ≠ 0 then 0 else 1) =
        (calcMaskSize c).2 := by
  have hmask := maskSize_calcMaskSize c
  have hcount : (calcMaskSize c).2 ≤ (calcMaskSize c).1 := by
    have hle := hmask.count ▸ List.countP_le_length
      (l := (List.range (calcMaskSize c).1).map fun b => packByte (maskBit c b))
    rwa [List.length_map, List.length_range] at hle
  have hle := hmask.le
  -- without the first two outputs some byte of the mask is used
  have hsome : c.isAvailable 0 = true ∨ c.isAvailable 1 = true ∨ (calcMaskSize c).2 ≠ 0 := by
    by_contra hnone
    rw [not_or, not_or, not_not] at hnone
    obtain ⟨hfirst, hsecond, hzero⟩ := hnone
    have hbytes : (calcMaskSize c).1 = 0 := by
      rcases hmask.last with hbytes | hlast
      · exact hbytes
      · rw [hmask.count, List.countP_eq_zero] at hzero
        by_contra hpos
        refine hzero _ (List.mem_map_of_mem (a := (calcMaskSize c).1 - 1) ?_) (by simpa using hlast)
        exact List.mem_range.mpr (by omega)
    have hshort := length_le_mask htrim
    rw [hbytes] at hshort
    have hall : c.isPruned = true := by
      rw [CCoins.isPruned_iff]
      intro n
      by_contra hout
      obtain ⟨out, hout⟩ := Option.ne_none_iff_exists'.mp hout
      have havail := (CCoins.isAvailable_iff c n).mpr ⟨out, hout⟩
      have hn := (List.getElem?_eq_some_iff.mp ((CCoins.output_eq_some_iff c n out).mp hout).1).1
      rcases (show n = 0 ∨ n = 1 by omega) with rfl | rfl
      · exact hfirst havail
      · exact hsecond havail
    rw [hunpruned] at hall
    cases hall
  have hflags := flags_ofNat ((calcMaskSize c).2 -
    if c.isAvailable 0 = true ∨ c.isAvailable 1 = true then 0 else 1) c.fCoinBase
    (c.isAvailable 0) (c.isAvailable 1) (by split_ifs <;> omega)
  obtain ⟨hcoinBase, hfirst, hsecond, hdiv, hsix⟩ := hflags
  refine ⟨_, if_pos hsome, hcoinBase, hfirst, hsecond, ?_⟩
  rw [hdiv]
  by_cases hany : c.isAvailable 0 = true ∨ c.isAvailable 1 = true
  · rw [if_pos (hsix.mpr hany), if_pos hany]
    omega
  · have hne : (calcMaskSize c).2 ≠ 0 := by tauto
    rw [if_neg (fun h => hany (hsix.mp h)), if_neg hany]
    omega

/-- What a record of the coin database has to keep. -/
structure GoodCoins (c : CCoins) : Prop where
  unpruned : c.isPruned = false
  trimmed : c.Trimmed
  version : 0 ≤ c.nVersion.toInt
  height : c.nHeight < 2 ^ 31
  outs : ∀ out ∈ c.vout, out = CTxOut.null ∨ GoodOut out
  length : c.vout.length < 2 ^ 20

theorem mask_spec (c : CCoins) :
    (calcMaskSize c).2 = (mask c).countP (· ≠ 0) ∧ ∀ b ∈ (mask c).getLast?, b ≠ 0 := by
  have hmask := maskSize_calcMaskSize c
  refine ⟨hmask.count, fun b hb => ?_⟩
  unfold mask at hb
  have hlast := hmask.last
  cases hn : (calcMaskSize c).1 with
  | zero =>
    rw [hn] at hb
    cases hb
  | succ n =>
    rw [hn, List.range_succ, List.map_append, List.map_singleton, List.getLast?_concat] at hb
    obtain rfl := Option.some.inj hb
    rw [hn] at hlast
    exact hlast.resolve_left (Nat.succ_ne_zero n)

theorem roundTrips_coins (hcurve : Inverts curve) {c : CCoins} (h : GoodCoins c) :
    RoundTrips (writeCoins curve) (coinsSize curve) (readCoins curve) c := by
  obtain ⟨nCode, hcode, hcoinBase, hfirst, hsecond, hcount⟩ :=
    headerCode_spec h.unpruned h.trimmed h.length
  have hfit := length_le_mask h.trimmed
  have hpadded : ∀ out ∈ padded c (2 + 8 * (calcMaskSize c).1), out = CTxOut.null ∨ GoodOut out := by
    intro out hout
    rcases List.mem_append.mp hout with hout | hout
    · exact h.outs out hout
    · exact Or.inl (List.eq_of_mem_replicate hout)
  obtain ⟨parts, sizes, hparts, hsizes, hsum, hread⟩ := readOuts_outs hcurve hpadded
  rw [filter_padded] at hparts hsizes
  rw [map_padded c hfit, ← flags_eq] at hread
  obtain ⟨hmaskCount, hmaskLast⟩ := mask_spec c
  have hheight : (BitVec.ofNat 32 c.nHeight).toNat = c.nHeight := by
    have := h.height
    rw [BitVec.toNat_ofNat, Nat.mod_eq_of_lt (by omega)]
  have hheightInt : intRead (BitVec.ofNat 32 c.nHeight) = BitVec.ofNat 32 c.nHeight := by
    have := h.height
    rw [intRead_eq_iff, BitVec.toInt_eq_toNat_cond, hheight, if_pos (by omega)]
    omega
  refine ⟨writeInt c.nVersion ++ (writeUnsigned (BitVec.ofNat 32 nCode) ++ (mask c ++
    (parts.flatten ++ writeInt (BitVec.ofNat 32 c.nHeight)))), ?_, ?_, fun rest => ?_⟩
  · rw [writeCoins, hcode]
    show ((unspentOuts c).mapM (writeTxOut curve) >>= _) = _
    rw [hparts]
    rfl
  · have hmaskLen : (mask c).length = (calcMaskSize c).1 := by
      rw [mask, List.length_map, List.length_range]
    rw [coinsSize, hcode]
    show ((unspentOuts c).mapM (txOutSize curve) >>= _) = _
    rw [hsizes]
    simp only [List.length_append, nSerSize_add, hmaskLen, ← hsum, intSize_eq, unsignedSize_eq]
    rfl
  · simp only [List.append_assoc]
    rw [readCoins, readWord_writeInt, (intRead_eq_iff _).mpr h.version]
    show (readWord (writeUnsigned _ ++ _) >>= _) = _
    rw [readWord_writeUnsigned]
    dsimp only [Option.bind_eq_bind, Option.bind_some]
    rw [hcount, hmaskCount, readMask_append hmaskLast, hcoinBase, hfirst, hsecond]
    dsimp only [Option.bind_some]
    rw [hread]
    dsimp only [Option.bind_some]
    rw [readWord_writeInt, hheightInt]
    show some (CCoins.cleanup _, rest) = _
    rw [hheight, CCoins.cleanup, rdropWhile_padded h.trimmed]

end CoinsRoundTrip

/-! No script of a record that is read is too long. -/

section Scripts

variable {curve : Curve}

theorem readOuts_scripts {vAvail : List Bool} {bs rest : List Byte} {vout : List CTxOut}
    (h : readOuts curve vAvail bs = some (vout, rest)) :
    ∀ out ∈ vout, out.scriptPubKey.length < 2 ^ 32 - nSpecialScripts := by
  induction vAvail generalizing bs vout with
  | nil =>
    obtain ⟨rfl, -⟩ := Prod.mk.inj (Option.some.inj h)
    exact fun out hmem => by cases hmem
  | cons avail vAvail ih =>
    intro out hmem
    cases avail with
    | true =>
      simp only [readOuts, if_true, Option.bind_eq_bind, Option.bind_eq_some_iff] at h
      obtain ⟨⟨txout, bs₁⟩, hfirst, ⟨vout₁, bs₂⟩, hrest, heq⟩ := h
      obtain ⟨rfl, rfl⟩ := Prod.mk.inj (Option.some.inj heq)
      rcases List.mem_cons.mp hmem with rfl | hmem
      · simp only [readTxOut, Option.bind_eq_bind, Option.bind_eq_some_iff] at hfirst
        obtain ⟨⟨nVal, bs₃⟩, -, nValue, -, ⟨script, bs₄⟩, hscript, heq⟩ := hfirst
        obtain ⟨rfl, -⟩ := Prod.mk.inj (Option.some.inj heq)
        exact unserialize_length hscript
      · exact ih hrest out hmem
    | false =>
      have hnull : (readOuts curve vAvail bs >>= fun p => some (CTxOut.null :: p.1, p.2)) =
          some (vout, rest) := h
      obtain ⟨⟨vout₁, bs₂⟩, hrest, heq⟩ := Option.bind_eq_some_iff.mp hnull
      obtain ⟨rfl, rfl⟩ := Prod.mk.inj (Option.some.inj heq)
      rcases List.mem_cons.mp hmem with rfl | hmem
      · show 0 < 2 ^ 32 - nSpecialScripts
        decide
      · exact ih hrest out hmem

theorem readCoins_scripts {bs rest : List Byte} {c : CCoins}
    (h : readCoins curve bs = some (c, rest)) :
    ∀ out ∈ c.vout, out.scriptPubKey.length < 2 ^ 32 - nSpecialScripts := by
  simp only [readCoins, Option.bind_eq_bind, Option.bind_eq_some_iff] at h
  obtain ⟨⟨nVersion, bs₁⟩, -, ⟨nCode, bs₂⟩, -, ⟨bytes, bs₃⟩, -, ⟨vout, bs₄⟩, houts,
    ⟨nHeight, bs₅⟩, -, heq⟩ := h
  obtain ⟨rfl, -⟩ := Prod.mk.inj (Option.some.inj heq)
  exact fun out hmem => readOuts_scripts houts out ((List.rdropWhile_prefix _ _).subset hmem)

end Scripts

/-! The undo records. -/

section UndoRoundTrip

variable {curve : Curve}

/-- What an undo record has to keep; without a height the version is not written. -/
structure GoodUndo (undo : CTxInUndo) : Prop where
  txout : GoodOut undo.txout
  height : undo.nHeight < 2 ^ 31
  header : undo.nHeight = 0 → undo.nVersion = 0

/-- What comes back: a negative version is cut. -/
def undoRead (undo : CTxInUndo) : CTxInUndo := { undo with nVersion := intRead undo.nVersion }

theorem undoRead_eq {undo : CTxInUndo} (h : 0 ≤ undo.nVersion.toInt) : undoRead undo = undo := by
  rw [undoRead, (intRead_eq_iff _).mpr h]

theorem GoodUndo.undoRead {undo : CTxInUndo} (h : GoodUndo undo) : GoodUndo (undoRead undo) where
  txout := h.txout
  height := h.height
  header hzero := by
    rw [CoinRecord.undoRead, h.header hzero]
    rfl

theorem returns_txInUndo (hcurve : Inverts curve) {undo : CTxInUndo} (h : GoodUndo undo) :
    Returns (writeTxInUndo curve) (txInUndoSize curve) (readTxInUndo curve) undo
      (undoRead undo) := by
  obtain ⟨bytes, hwrite, hsize, hback⟩ := roundTrips_txOut hcurve h.txout CTxOut.null
  have hheight := h.height
  have hcode : (undoCode undo).toNat = undo.nHeight * 2 + if undo.fCoinBase then 1 else 0 := by
    rw [undoCode, BitVec.toNat_ofNat, Nat.mod_eq_of_lt (by split_ifs <;> omega)]
  have hdiv : (undoCode undo).toNat / 2 = undo.nHeight := by
    rw [hcode]
    split_ifs <;> omega
  have hbit : (undoCode undo &&& 1 != 0) = undo.fCoinBase := by
    have hand : (undoCode undo &&& 1).toNat = if undo.fCoinBase then 1 else 0 := by
      have hone := Nat.and_two_pow_sub_one_eq_mod (undoCode undo).toNat 1
      rw [BitVec.toNat_and]
      refine hone.trans ?_
      rw [hcode]
      split_ifs <;> omega
    cases hcb : undo.fCoinBase with
    | true =>
      rw [hcb, if_pos rfl] at hand
      refine bne_iff_ne.mpr fun hzero => ?_
      rw [hzero] at hand
      exact absurd hand (by decide)
    | false =>
      rw [hcb, if_neg Bool.false_ne_true] at hand
      rw [BitVec.eq_of_toNat_eq (y := 0) hand]
      rfl
  refine ⟨writeUnsigned (undoCode undo) ++
    ((if undo.nHeight > 0 then writeInt undo.nVersion else []) ++ bytes), ?_, ?_, fun rest => ?_⟩
  · rw [writeTxInUndo, hwrite]
    rfl
  · rw [txInUndoSize, hsize, List.length_append, List.length_append, nSerSize_add, nSerSize_add,
      unsignedSize_eq]
    split_ifs
    · rw [intSize_eq]
      rfl
    · rfl
  · simp only [List.append_assoc]
    rw [readTxInUndo, readWord_writeUnsigned]
    dsimp only [Option.bind_eq_bind, Option.bind_some]
    rw [hdiv, hbit]
    unfold undoRead
    split_ifs with hpos
    · rw [readWord_writeInt]
      dsimp only [Option.bind_some]
      rw [hback]
      rfl
    · rw [h.header (by omega)]
      dsimp only [Option.bind_some, List.nil_append]
      rw [hback]
      rfl

/-- The undo data of a block. -/
structure GoodBlockUndo (undo : CBlockUndo) : Prop where
  length : undo.vtxundo.length ≤ MAX_SIZE
  lengths : ∀ txundo ∈ undo.vtxundo, txundo.vprevout.length ≤ MAX_SIZE
  undos : ∀ txundo ∈ undo.vtxundo, ∀ prevout ∈ txundo.vprevout, GoodUndo prevout

def txUndoRead (undo : CTxUndo) : CTxUndo := ⟨undo.vprevout.map undoRead⟩

def blockUndoRead (undo : CBlockUndo) : CBlockUndo := ⟨undo.vtxundo.map txUndoRead⟩

theorem txUndoRead_eq {undo : CTxUndo} (h : ∀ prevout ∈ undo.vprevout, 0 ≤ prevout.nVersion.toInt) :
    txUndoRead undo = undo := by
  rw [txUndoRead, List.map_congr_left fun prevout hmem => undoRead_eq (h prevout hmem),
    List.map_id']

theorem blockUndoRead_eq {undo : CBlockUndo} (h : ∀ txundo ∈ undo.vtxundo,
    ∀ prevout ∈ txundo.vprevout, 0 ≤ prevout.nVersion.toInt) : blockUndoRead undo = undo := by
  rw [blockUndoRead, List.map_congr_left fun txundo hmem => txUndoRead_eq (h txundo hmem),
    List.map_id']

theorem GoodBlockUndo.blockUndoRead {undo : CBlockUndo} (h : GoodBlockUndo undo) :
    GoodBlockUndo (blockUndoRead undo) where
  length := by
    rw [CoinRecord.blockUndoRead, List.length_map]
    exact h.length
  lengths txundo hmem := by
    obtain ⟨old, hold, rfl⟩ := List.mem_map.mp hmem
    rw [txUndoRead, List.length_map]
    exact h.lengths old hold
  undos txundo hmem prevout hprevout := by
    obtain ⟨old, hold, rfl⟩ := List.mem_map.mp hmem
    obtain ⟨old', hold', rfl⟩ := List.mem_map.mp hprevout
    exact (h.undos old hold old' hold').undoRead

theorem returns_txUndo (hcurve : Inverts curve) {undo : CTxUndo}
    (hlen : undo.vprevout.length ≤ MAX_SIZE) (h : ∀ prevout ∈ undo.vprevout, GoodUndo prevout) :
    Returns (writeTxUndo curve) (txUndoSize curve) (readTxUndo curve) undo (txUndoRead undo) := by
  obtain ⟨bytes, hwrite, hsize, hread⟩ :=
    returns_vector (fun prevout hmem => returns_txInUndo hcurve (h prevout hmem)) hlen
  refine ⟨bytes, hwrite, hsize, fun rest => ?_⟩
  rw [readTxUndo, hread]
  rfl

theorem returns_blockUndo (hcurve : Inverts curve) {undo : CBlockUndo} (h : GoodBlockUndo undo) :
    Returns (writeBlockUndo curve) (blockUndoSize curve) (readBlockUndo curve) undo
      (blockUndoRead undo) := by
  obtain ⟨bytes, hwrite, hsize, hread⟩ :=
    returns_vector (fun txundo hmem =>
      returns_txUndo hcurve (h.lengths txundo hmem) (h.undos txundo hmem)) h.length
  refine ⟨bytes, hwrite, hsize, fun rest => ?_⟩
  rw [readBlockUndo, hread]
  rfl

end UndoRoundTrip

end UmbrellaLtc.CoinRecord
