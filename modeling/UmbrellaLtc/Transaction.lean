import UmbrellaLtc.Codec

/-!
Transactions and their wire format, from transaction.h and serialize.h. Every
IMPLEMENT_SERIALIZE block is one codec: it lists the fields once for the size,
the writer and the reader. Integers have their machine width; a signed field is
the word whose two's complement value it is. The double SHA-256 of OpenSSL is
the argument `Hash`.
-/

namespace UmbrellaLtc.Transaction

open Codec

abbrev Uint256 := BitVec 256

abbrev CScript := List Byte

/-- serialize.h: the largest count that ReadCompactSize lets through. -/
def MAX_SIZE : ℕ := 0x02000000

def uint256Bytes (h : Uint256) : List Byte := leBytes 32 h.toNat

theorem uint256Bytes_length (h : Uint256) : (uint256Bytes h).length = 32 :=
  leBytes_length 32 h.toNat

theorem uint256Bytes_inj {g h : Uint256} (heq : uint256Bytes g = uint256Bytes h) : g = h := by
  have hpow : (256 : ℕ) ^ 32 = 2 ^ 256 := by norm_num
  apply BitVec.eq_of_toNat_eq
  exact leBytes_inj (by rw [hpow]; exact g.isLt) (by rw [hpow]; exact h.isLt) heq

def getSizeOfCompactSize (nSize : ℕ) : ℕ :=
  if nSize < 253 then 1
  else if nSize ≤ 0xffff then 3
  else if nSize ≤ 0xffffffff then 5
  else 9

def writeCompactSize (nSize : ℕ) : List Byte :=
  if nSize < 253 then leBytes 1 nSize
  else if nSize ≤ 0xffff then 253 :: leBytes 2 nSize
  else if nSize ≤ 0xffffffff then 254 :: leBytes 4 nSize
  else 255 :: leBytes 8 nSize

/-- A fixed-width number in front of a stream. -/
def readLe (n : ℕ) (bs : List Byte) : Option (ℕ × List Byte) :=
  if bs.length < n then none else some (ofLeBytes (bs.take n), bs.drop n)

theorem readLe_leBytes (n x : ℕ) (rest : List Byte) (hx : x < 256 ^ n) :
    readLe n (leBytes n x ++ rest) = some (x, rest) := by
  have hlen : ¬ (leBytes n x ++ rest).length < n := by simp
  have htake : (leBytes n x ++ rest).take n = leBytes n x := by
    rw [List.take_append_of_le_length (by simp), List.take_of_length_le (by simp)]
  have hdrop : (leBytes n x ++ rest).drop n = rest := by
    rw [List.drop_append_of_le_length (by simp), List.drop_of_length_le (by simp),
      List.nil_append]
  rw [readLe, if_neg hlen, htake, hdrop, ofLeBytes_leBytes, Nat.mod_eq_of_lt hx]

theorem readLe_shorter {n : ℕ} {bs rest : List Byte} {x : ℕ}
    (h : readLe n bs = some (x, rest)) : rest.length ≤ bs.length := by
  unfold readLe at h
  split_ifs at h with hshort
  simp only [Option.some.injEq, Prod.mk.injEq] at h
  rw [← h.2, List.length_drop]
  omega

/-- The first byte selects the width of the count. -/
def readSizeBody (chSize : Byte) (bs : List Byte) : Option (ℕ × List Byte) :=
  if chSize.toNat < 253 then some (chSize.toNat, bs)
  else if chSize = 253 then readLe 2 bs
  else if chSize = 254 then readLe 4 bs
  else readLe 8 bs

/-- A longer form of a small count is accepted; a count above MAX_SIZE is not. -/
def readCompactSize : List Byte → Option (ℕ × List Byte)
  | [] => none
  | chSize :: bs => do
    let (nSizeRet, bs) ← readSizeBody chSize bs
    if nSizeRet > MAX_SIZE then none else return (nSizeRet, bs)

theorem readSizeBody_shorter {ch : Byte} {bs rest : List Byte} {x : ℕ}
    (h : readSizeBody ch bs = some (x, rest)) : rest.length ≤ bs.length := by
  unfold readSizeBody at h
  split_ifs at h
  · simp only [Option.some.injEq, Prod.mk.injEq] at h
    rw [h.2]
  · exact readLe_shorter h
  · exact readLe_shorter h
  · exact readLe_shorter h

theorem readCompactSize_spec {bs rest : List Byte} {n : ℕ}
    (h : readCompactSize bs = some (n, rest)) : n ≤ MAX_SIZE ∧ rest.length ≤ bs.length := by
  cases bs with
  | nil => simp [readCompactSize] at h
  | cons ch bs =>
    simp only [readCompactSize, Option.bind_eq_bind, Option.bind_eq_some_iff] at h
    obtain ⟨⟨x, bs'⟩, hbody, hlimit⟩ := h
    dsimp only at hlimit
    split_ifs at hlimit with hbig
    simp only [Option.pure_def, Option.some.injEq, Prod.mk.injEq] at hlimit
    obtain ⟨rfl, rfl⟩ := hlimit
    have hshort := readSizeBody_shorter hbody
    exact ⟨by omega, by simp only [List.length_cons]; omega⟩

/-- A count of any size_t can be read back, but for the limit. -/
theorem writeCompactSize_cases {n : ℕ} (hn : n < 2 ^ 64) :
    ∃ ch body, writeCompactSize n = ch :: body ∧
      ∀ rest, readSizeBody ch (body ++ rest) = some (n, rest) := by
  unfold writeCompactSize
  split_ifs with h1 h2 h3
  · have hch : (BitVec.ofNat 8 n).toNat = n := by
      simp only [BitVec.toNat_ofNat]
      omega
    refine ⟨BitVec.ofNat 8 n, [], rfl, fun rest => ?_⟩
    simp only [readSizeBody, hch, if_pos h1, List.nil_append]
  · exact ⟨253, leBytes 2 n, rfl, fun rest => readLe_leBytes 2 n rest (by omega)⟩
  · exact ⟨254, leBytes 4 n, rfl, fun rest => readLe_leBytes 4 n rest (by omega)⟩
  · exact ⟨255, leBytes 8 n, rfl, fun rest => readLe_leBytes 8 n rest (by omega)⟩

def compactSize : Codec ℕ where
  size := getSizeOfCompactSize
  write := writeCompactSize
  read := readCompactSize
  Good n := n ≤ MAX_SIZE
  write_length n := by
    unfold writeCompactSize getSizeOfCompactSize
    split_ifs <;> simp
  read_write n rest hn := by
    have hlimit : ¬ n > MAX_SIZE := by omega
    have hword : n < 2 ^ 64 := by
      unfold MAX_SIZE at hn
      omega
    obtain ⟨ch, body, hwrite, hread⟩ := writeCompactSize_cases hword
    rw [hwrite, List.cons_append, readCompactSize, hread rest]
    simp [hlimit]
  read_good _ _ _ h := (readCompactSize_spec h).1
  read_shorter _ _ _ h := (readCompactSize_spec h).2

def uint32 : Codec (BitVec 32) := bits 4 32 rfl

def uint64 : Codec (BitVec 64) := bits 8 64 rfl

def uint256 : Codec Uint256 := bits 32 256 rfl

def uchar : Codec Byte := bits 1 8 rfl

def vector {α : Type} (c : Codec α) : Codec (List α) := counted compactSize c

theorem vector_good_nil {α : Type} (c : Codec α) : (vector c).Good [] :=
  ⟨Nat.zero_le _, fun _ ha => absurd ha List.not_mem_nil⟩

def script : Codec CScript := vector uchar

structure COutPoint where
  hash : Uint256
  n : BitVec 32
deriving DecidableEq

structure CTxIn where
  prevout : COutPoint
  scriptSig : CScript
  nSequence : BitVec 32
deriving DecidableEq

structure CTxOut where
  nValue : BitVec 64
  scriptPubKey : CScript
deriving DecidableEq

structure CTransaction where
  nVersion : BitVec 32
  vin : List CTxIn
  vout : List CTxOut
  nLockTime : BitVec 32
deriving DecidableEq

/-- FLATDATA: the 36 bytes of the object. -/
def COutPoint.codec : Codec COutPoint :=
  (pair uint256 uint32).iso (fun p => ⟨p.1, p.2⟩) (fun o => (o.hash, o.n))
    (fun _ => rfl) (fun _ => rfl)

def CTxIn.codec : Codec CTxIn :=
  (pair COutPoint.codec (pair script uint32)).iso (fun p => ⟨p.1, p.2.1, p.2.2⟩)
    (fun i => (i.prevout, i.scriptSig, i.nSequence)) (fun _ => rfl) (fun _ => rfl)

def CTxOut.codec : Codec CTxOut :=
  (pair uint64 script).iso (fun p => ⟨p.1, p.2⟩) (fun o => (o.nValue, o.scriptPubKey))
    (fun _ => rfl) (fun _ => rfl)

def CTransaction.codec : Codec CTransaction :=
  (pair uint32 (pair (vector CTxIn.codec) (pair (vector CTxOut.codec) uint32))).iso
    (fun p => ⟨p.1, p.2.1, p.2.2.1, p.2.2.2⟩)
    (fun tx => (tx.nVersion, tx.vin, tx.vout, tx.nLockTime)) (fun _ => rfl) (fun _ => rfl)

namespace COutPoint

def isNull (o : COutPoint) : Bool := o.hash == 0 && o.n == BitVec.allOnes 32

end COutPoint

namespace CTxOut

/-- The default constructor and SetNull: value -1 and an empty script. -/
def null : CTxOut := ⟨BitVec.allOnes 64, []⟩

def isNull (o : CTxOut) : Bool := o.nValue == BitVec.allOnes 64

/-- The amount as the signed 64-bit integer it is. -/
def value (o : CTxOut) : ℤ := o.nValue.toInt

theorem isNull_null : null.isNull = true := rfl

end CTxOut

namespace CTransaction

/-- SetNull: no inputs, no outputs, version CURRENT_VERSION. -/
def null : CTransaction := ⟨1, [], [], 0⟩

def isCoinBase (tx : CTransaction) : Bool :=
  match tx.vin with
  | [txin] => txin.prevout.isNull
  | _ => false

def getHash (Hash : List Byte → Uint256) (tx : CTransaction) : Uint256 :=
  Hash (codec.write tx)

def getSerializeSize (tx : CTransaction) : ℕ := codec.size tx

end CTransaction

end UmbrellaLtc.Transaction
