import UmbrellaLtc.ConnectBlock

/-!
The three expansions of IMPLEMENT_SERIALIZE for headers, proofs, blocks and index
records: the size as an unsigned int, the writer and the reader. A value is kept
faithfully when the size is the number of bytes written and the reader gives the
value back from them. A parent header is written by the same code as any other,
so that the version of a foreign block decides on the format of a proof.
-/

namespace UmbrellaLtc.SerializedSize

open Codec Transaction Header VarInt CheckBlock ConnectBlock

/-- nSerSize of a part. -/
def nSerSize (n : ℕ) : BitVec 32 := BitVec.ofNat 32 n

theorem nSerSize_add (m n : ℕ) : nSerSize (m + n) = nSerSize m + nSerSize n := by
  unfold nSerSize
  exact BitVec.ofNat_add m n

section Headers

/-- CBlockHeader::GetSerializeSize; `none` is the dereference of a null auxpow. -/
def headerSize : CBlockHeader → Option (BitVec 32)
  | .plain f => if f.isAuxPow then none else some (nSerSize (HeaderFields.codec.size f))
  | .merged f aux parent =>
      if f.isAuxPow then
        (headerSize parent).map fun n =>
          nSerSize (HeaderFields.codec.size f) + (nSerSize (AuxFields.codec.size aux) + n)
      else some (nSerSize (HeaderFields.codec.size f))

theorem headerSize_eq (h : CBlockHeader) :
    headerSize h = h.serialize.map fun bs => nSerSize bs.length := by
  induction h with
  | plain f =>
    unfold headerSize CBlockHeader.serialize
    split_ifs
    · rfl
    · rw [Option.map_some, HeaderFields.codec.write_length]
  | merged f aux parent ih =>
    unfold headerSize CBlockHeader.serialize
    split_ifs
    · rw [ih, Option.map_map, Option.map_map]
      congr 1
      funext bs
      simp only [Function.comp_apply, List.length_append, nSerSize_add,
        HeaderFields.codec.write_length, AuxFields.codec.write_length]
    · rw [Option.map_some, HeaderFields.codec.write_length]

/-- CAuxPow::Serialize. -/
def auxPowBytes (pow : CAuxPow) : Option (List Byte) :=
  pow.parentBlockHeader.serialize.map fun bs => AuxFields.codec.write pow.aux ++ bs

/-- CAuxPow::GetSerializeSize. -/
def auxPowSize (pow : CAuxPow) : Option (BitVec 32) :=
  (headerSize pow.parentBlockHeader).map fun n => nSerSize (AuxFields.codec.size pow.aux) + n

theorem auxPowSize_eq (pow : CAuxPow) :
    auxPowSize pow = (auxPowBytes pow).map fun bs => nSerSize bs.length := by
  unfold auxPowSize auxPowBytes
  rw [headerSize_eq, Option.map_map, Option.map_map]
  congr 1
  funext bs
  simp only [Function.comp_apply, List.length_append, nSerSize_add, AuxFields.codec.write_length]

end Headers

section Parents

/-- The parent block of a proof is kept as a header of 80 bytes. -/
structure BareParent (pow : CAuxPow) : Prop where
  written : auxPowBytes pow =
    some (AuxFields.codec.write pow.aux ++ HeaderFields.codec.write pow.parentBlockHeader.fields)
  sized : auxPowSize pow = some (nSerSize (AuxFields.codec.size pow.aux + 80))
  inverse : ∀ rest, CAuxPow.unserialize (AuxFields.codec.write pow.aux ++
    HeaderFields.codec.write pow.parentBlockHeader.fields ++ rest) = some (pow, rest)

/-- How many proofs are made while a header is read, also when the reading fails. -/
def auxPowsRead : ℕ → List Byte → ℕ
  | 0, _ => 0
  | fuel + 1, bs =>
      match HeaderFields.codec.read bs with
      | none => 0
      | some (f, bs) =>
          if f.isAuxPow then
            1 + match AuxFields.codec.read bs with
              | none => 0
              | some (_, bs) => auxPowsRead fuel bs
          else 0

/-- The proofs that were made are those of the header that is returned. -/
theorem auxPowsRead_unserialize {fuel : ℕ} {bs rest : List Byte} {h : CBlockHeader}
    (hread : CBlockHeader.unserializeFuel fuel bs = some (h, rest)) :
    auxPowsRead fuel bs = h.depth := by
  induction fuel generalizing bs h with
  | zero => cases hread
  | succ fuel ih =>
    simp only [CBlockHeader.unserializeFuel, Option.bind_eq_bind, Option.bind_eq_some_iff] at hread
    obtain ⟨⟨f, bs₁⟩, hf, hread⟩ := hread
    unfold auxPowsRead
    rw [hf]
    dsimp only at hread ⊢
    split_ifs at hread ⊢ with hbit
    · simp only [Option.bind_eq_some_iff] at hread
      obtain ⟨⟨aux, bs₂⟩, haux, ⟨parent, bs₃⟩, hparent, heq⟩ := hread
      obtain ⟨rfl, rfl⟩ := Prod.mk.inj (Option.some.inj heq)
      rw [haux]
      dsimp only
      rw [ih hparent, CBlockHeader.depth, Nat.add_comm]
    · obtain ⟨rfl, rfl⟩ := Prod.mk.inj (Option.some.inj hread)
      rfl

/-- The header that stands in a stream where the parent block of the first proof begins. -/
def parentFields (bs : List Byte) : Option HeaderFields := do
  let (f, bs) ← HeaderFields.codec.read bs
  if f.isAuxPow then
    let (_, bs) ← AuxFields.codec.read bs
    let (parent, _) ← HeaderFields.codec.read bs
    return parent
  else none

theorem auxPowsRead_pos {fuel : ℕ} {bs rest : List Byte} {f : HeaderFields}
    (hread : HeaderFields.codec.read bs = some (f, rest)) :
    1 ≤ auxPowsRead (fuel + 1) bs ↔ f.isAuxPow = true := by
  unfold auxPowsRead
  rw [hread]
  dsimp only
  split_ifs with hbit
  · exact iff_of_true (by omega) hbit
  · exact iff_of_false (by omega) hbit

/-- At most one proof is read exactly when the parent's version has not the bit. -/
theorem auxPowsRead_le_one_iff (fuel : ℕ) (bs : List Byte) :
    auxPowsRead (fuel + 2) bs ≤ 1 ↔ ∀ parent ∈ parentFields bs, parent.isAuxPow = false := by
  unfold parentFields
  cases hf : HeaderFields.codec.read bs with
  | none =>
    unfold auxPowsRead
    rw [hf]
    simp
  | some read =>
    obtain ⟨f, bs₁⟩ := read
    rw [auxPowsRead, hf]
    dsimp only
    rw [Option.bind_eq_bind, Option.bind_some]
    dsimp only
    cases hbit : f.isAuxPow with
    | false => simp
    | true =>
      rw [if_pos rfl, if_pos rfl]
      cases haux : AuxFields.codec.read bs₁ with
      | none => simp
      | some read =>
        obtain ⟨aux, bs₂⟩ := read
        dsimp only
        rw [Option.bind_eq_bind, Option.bind_some]
        dsimp only
        cases hparent : HeaderFields.codec.read bs₂ with
        | none =>
          unfold auxPowsRead
          rw [hparent]
          simp
        | some read =>
          obtain ⟨parent, bs₃⟩ := read
          have hpos := @auxPowsRead_pos fuel bs₂ bs₃ parent hparent
          simp only [Option.bind_some, Option.pure_def, Option.mem_def, Option.some.injEq,
            forall_eq']
          rw [← Bool.not_eq_true, ← hpos]
          omega

/-- A header with a proof takes more bytes than its fields. -/
theorem serialize_merged_ne {f : HeaderFields} {aux : AuxFields} {parent : CBlockHeader}
    (hc : (CBlockHeader.merged f aux parent).Coherent) :
    (CBlockHeader.merged f aux parent).serialize ≠ some (HeaderFields.codec.write f) := by
  intro hs
  have hlen := CBlockHeader.header_bytes_length f
  rw [CBlockHeader.serialize, if_pos hc.1, Option.map_eq_some_iff] at hs
  obtain ⟨bs, hbs, heq⟩ := hs
  have hbytes := congrArg List.length heq
  have hdepth := CBlockHeader.depth_le_length parent bs hbs hc.2
  rw [List.length_append, List.length_append] at hbytes
  omega

theorem bareParent_iff (pow : CAuxPow) : BareParent pow ↔
    (pow.parentBlockHeader.auxpow = none ∧ pow.parentBlockHeader.fields.isAuxPow = false) ∧
      AuxFields.codec.Good pow.aux := by
  obtain ⟨aux, parent⟩ := pow
  constructor
  · intro h
    obtain ⟨hgood, hcoherent, -⟩ := CAuxPow.unserialize_spec _ _ _ (h.inverse [])
    have hwritten := h.written
    unfold auxPowBytes at hwritten
    rw [Option.map_eq_some_iff] at hwritten
    obtain ⟨bs, hbs, heq⟩ := hwritten
    rw [List.append_cancel_left heq] at hbs
    cases parent with
    | plain f => exact ⟨⟨rfl, hcoherent⟩, hgood⟩
    | merged f aux' parent' => exact absurd hbs (serialize_merged_ne hcoherent)
  · rintro ⟨⟨hnone, hbit⟩, hgood⟩
    cases parent with
    | merged f aux' parent' => cases hnone
    | plain f =>
      have hserialize : (CBlockHeader.plain f).serialize = some (HeaderFields.codec.write f) := by
        rw [CBlockHeader.serialize, if_neg]
        rw [Bool.not_eq_true]
        exact hbit
      have hwritten : auxPowBytes ⟨aux, .plain f⟩ =
          some (AuxFields.codec.write aux ++ HeaderFields.codec.write f) := by
        unfold auxPowBytes
        rw [hserialize]
        rfl
      refine ⟨hwritten, ?_, fun rest => ?_⟩
      · rw [auxPowSize_eq, hwritten, Option.map_some, List.length_append,
          AuxFields.codec.write_length, CBlockHeader.header_bytes_length]
      · rw [List.append_assoc]
        exact CAuxPow.unserialize_serialize ⟨aux, .plain f⟩ _ rest hgood hserialize hbit
          (CBlockHeader.fields_good f)

/-- A proof keeps its parent block as a bare header, with a size that depends on the
transaction and the branches only and a reader that inverts the writer, exactly when
the version of the parent has not the bit for a proof and there is none, and its
counts are such as the reader accepts. The reading of a header makes at most one
proof exactly when the version that stands in the place of the parent's has not the
bit. -/
theorem parent_bare_iff (pow : CAuxPow) (bs : List Byte) :
    (BareParent pow ↔
      (pow.parentBlockHeader.auxpow = none ∧ pow.parentBlockHeader.fields.isAuxPow = false) ∧
        AuxFields.codec.Good pow.aux) ∧
    (auxPowsRead (bs.length + 2) bs ≤ 1 ↔
      ∀ parent ∈ parentFields bs, parent.isAuxPow = false) :=
  ⟨bareParent_iff pow, auxPowsRead_le_one_iff bs.length bs⟩

/-- The header of a parent block whose version has the bit. -/
def foreignFields : HeaderFields := ⟨0x00000102, 0, 0, 0, 0, 0⟩

/-- A proof over such a parent. -/
def foreignPow : CAuxPow := ⟨AuxFields.fresh 0, .plain foreignFields⟩

/-- A header with a proof whose parent has a proof. -/
def nestedHeader : CBlockHeader :=
  .merged foreignFields (AuxFields.fresh 0)
    (.merged foreignFields (AuxFields.fresh 0) (.plain (HeaderFields.null false)))

/-- The proof is not written at all, its bytes as they come from the parent's chain are
not read, and a header can be read with two proofs in it. -/
theorem foreign_parent_not_bare :
    auxPowBytes foreignPow = none ∧
      CAuxPow.unserialize (AuxFields.codec.write foreignPow.aux ++
        HeaderFields.codec.write foreignFields) = none ∧
      ¬ BareParent foreignPow ∧
      ∃ bs, CBlockHeader.unserialize bs = some (nestedHeader, []) ∧
        auxPowsRead (bs.length + 2) bs = 2 := by
  have hwrite : auxPowBytes foreignPow = none := by decide
  refine ⟨hwrite, by decide +kernel, fun h => ?_, nestedHeader.serialize.getD [],
    by decide +kernel, by decide +kernel⟩
  rw [h.written] at hwrite
  cases hwrite

end Parents

section Words

/-- READWRITE(VARINT(n)) of an unsigned int. -/
def writeUnsigned (x : BitVec 32) : List Byte := writeVarInt 32 x.toNat

/-- READWRITE(VARINT(n)) of an int. -/
def writeInt (x : BitVec 32) : List Byte := writeVarInt 32 x.toInt

def unsignedSize (x : BitVec 32) : BitVec 32 := nSerSize (getSizeOfVarInt 32 x.toNat)

def intSize (x : BitVec 32) : BitVec 32 := nSerSize (getSizeOfVarInt 32 x.toInt)

def readWord (bs : List Byte) : Option (BitVec 32 × List Byte) :=
  (readVarInt 0 bs).map fun p => (BitVec.ofInt 32 p.1, p.2)

theorem unsignedSize_eq (x : BitVec 32) : unsignedSize x = nSerSize (writeUnsigned x).length := by
  unfold unsignedSize writeUnsigned
  rw [writeVarInt_length]

theorem intSize_eq (x : BitVec 32) : intSize x = nSerSize (writeInt x).length := by
  unfold intSize writeInt
  rw [writeVarInt_length]

theorem readWord_writeUnsigned (x : BitVec 32) (rest : List Byte) :
    readWord (writeUnsigned x ++ rest) = some (x, rest) := by
  have hlt := x.isLt
  unfold readWord writeUnsigned
  rw [readVarInt_writeVarInt 32 x.toNat (by omega) (by norm_num; omega)]
  simp

/-- What comes back of an int: the low seven bits when it was negative. -/
def intRead (x : BitVec 32) : BitVec 32 :=
  if 0 ≤ x.toInt then x else BitVec.ofInt 32 (x.toInt % 128)

theorem readWord_writeInt (x : BitVec 32) (rest : List Byte) :
    readWord (writeInt x ++ rest) = some (intRead x, rest) := by
  have hlt : x.toInt < 2 ^ 31 := by
    have hbound := @BitVec.toInt_lt 32 x
    simpa using hbound
  unfold readWord writeInt intRead
  split_ifs with hneg
  · rw [readVarInt_writeVarInt 32 x.toInt hneg (by norm_num; omega)]
    simp
  · rw [readVarInt_negative 32 x.toInt (by omega)]
    rfl

theorem intRead_eq_iff (x : BitVec 32) : intRead x = x ↔ 0 ≤ x.toInt := by
  unfold intRead
  split_ifs with hneg
  · exact iff_of_true rfl hneg
  · refine iff_of_false (fun heq => hneg ?_) hneg
    have hval := congrArg BitVec.toInt heq
    rw [BitVec.toInt_ofInt_eq_self (by omega) (by omega) (by omega)] at hval
    omega

end Words

section Records

/-- The arguments of a serialization that the index records look at: whether nType has
SER_GETHASH, and nVersion. -/
structure SerArgs where
  fGetHash : Bool
  nVersion : BitVec 32

/-- The fields that CBlockIndex::Serialize covers. -/
structure IndexRecord where
  nStatus : BitVec 32
  nFile : BitVec 32
  nDataPos : BitVec 32
  nUndoPos : BitVec 32
deriving DecidableEq

/-- A CDiskBlockIndex: what its Serialize covers is a header behind two numbers. -/
structure DiskRecord where
  nHeight : BitVec 32
  nTx : BitVec 32
  header : CBlockHeader
deriving DecidableEq

def IndexRecord.haveFile (r : IndexRecord) : Bool :=
  r.nStatus &&& (BLOCK_HAVE_DATA ||| BLOCK_HAVE_UNDO) != 0

def IndexRecord.haveData (r : IndexRecord) : Bool := r.nStatus &&& BLOCK_HAVE_DATA != 0

def IndexRecord.haveUndo (r : IndexRecord) : Bool := r.nStatus &&& BLOCK_HAVE_UNDO != 0

section Writing

variable (args : SerArgs)

def versionBytes : List Byte := if args.fGetHash then [] else writeInt args.nVersion

def versionSize : BitVec 32 := if args.fGetHash then 0 else intSize args.nVersion

def readVersion (bs : List Byte) : Option (List Byte) :=
  if args.fGetHash then some bs else (readWord bs).map Prod.snd

/-- CBlockIndex::Serialize. -/
def indexBytes (r : IndexRecord) : List Byte :=
  versionBytes args ++ (writeUnsigned r.nStatus ++
    ((if r.haveFile then writeInt r.nFile else []) ++
      ((if r.haveData then writeUnsigned r.nDataPos else []) ++
        if r.haveUndo then writeUnsigned r.nUndoPos else [])))

/-- CBlockIndex::GetSerializeSize. -/
def indexSize (r : IndexRecord) : BitVec 32 :=
  versionSize args + (unsignedSize r.nStatus +
    ((if r.haveFile then intSize r.nFile else 0) +
      ((if r.haveData then unsignedSize r.nDataPos else 0) +
        if r.haveUndo then unsignedSize r.nUndoPos else 0)))

/-- A field that is read under a condition; the constructor has set it to zero. -/
def readIf (c : Bool) (bs : List Byte) : Option (BitVec 32 × List Byte) :=
  if c then readWord bs else some (0, bs)

/-- CBlockIndex::Unserialize, into `CBlockIndex()`. -/
def readIndex (bs : List Byte) : Option (IndexRecord × List Byte) := do
  let bs ← readVersion args bs
  let (nStatus, bs) ← readWord bs
  let r : IndexRecord := ⟨nStatus, 0, 0, 0⟩
  let (nFile, bs) ← readIf r.haveFile bs
  let (nDataPos, bs) ← readIf r.haveData bs
  let (nUndoPos, bs) ← readIf r.haveUndo bs
  return (⟨nStatus, nFile, nDataPos, nUndoPos⟩, bs)

/-- CDiskBlockIndex::Serialize. -/
def diskBytes (r : DiskRecord) : Option (List Byte) :=
  r.header.serialize.map fun bs =>
    versionBytes args ++ (writeInt r.nHeight ++ (writeUnsigned r.nTx ++ bs))

/-- CDiskBlockIndex::GetSerializeSize: what ReadWriteAuxPow returns is not added. -/
def diskSize (r : DiskRecord) : Option (BitVec 32) :=
  (headerSize r.header).map fun _ =>
    versionSize args + (intSize r.nHeight + (unsignedSize r.nTx +
      nSerSize (HeaderFields.codec.size r.header.fields)))

/-- CDiskBlockIndex::Unserialize. -/
def readDisk (bs : List Byte) : Option (DiskRecord × List Byte) := do
  let bs ← readVersion args bs
  let (nHeight, bs) ← readWord bs
  let (nTx, bs) ← readWord bs
  let (header, bs) ← CBlockHeader.unserialize bs
  return (⟨nHeight, nTx, header⟩, bs)

/-- CBlock::Serialize. -/
def blockBytes (block : CBlock) : Option (List Byte) :=
  block.header.serialize.map fun bs => bs ++ (vector CTransaction.codec).write block.vtx

/-- CBlock::GetSerializeSize. -/
def blockSize (block : CBlock) : Option (BitVec 32) :=
  (headerSize block.header).map fun n => n + nSerSize ((vector CTransaction.codec).size block.vtx)

/-- CBlock::Unserialize. -/
def readBlock (bs : List Byte) : Option (CBlock × List Byte) := do
  let (header, bs) ← CBlockHeader.unserialize bs
  let (vtx, bs) ← (vector CTransaction.codec).read bs
  return (⟨header, vtx⟩, bs)

theorem versionSize_eq : versionSize args = nSerSize (versionBytes args).length := by
  unfold versionSize versionBytes
  split_ifs
  · rfl
  · exact intSize_eq _

theorem readVersion_versionBytes (rest : List Byte) :
    readVersion args (versionBytes args ++ rest) = some rest := by
  unfold readVersion versionBytes
  split_ifs
  · rfl
  · rw [readWord_writeInt]
    rfl

theorem indexSize_eq (r : IndexRecord) : indexSize args r = nSerSize (indexBytes args r).length := by
  have hfile : (if r.haveFile then intSize r.nFile else 0) =
      nSerSize (if r.haveFile then writeInt r.nFile else []).length := by
    split_ifs
    · exact intSize_eq _
    · rfl
  have hdata : (if r.haveData then unsignedSize r.nDataPos else 0) =
      nSerSize (if r.haveData then writeUnsigned r.nDataPos else []).length := by
    split_ifs
    · exact unsignedSize_eq _
    · rfl
  have hundo : (if r.haveUndo then unsignedSize r.nUndoPos else 0) =
      nSerSize (if r.haveUndo then writeUnsigned r.nUndoPos else []).length := by
    split_ifs
    · exact unsignedSize_eq _
    · rfl
  unfold indexSize indexBytes
  rw [hfile, hdata, hundo, versionSize_eq, unsignedSize_eq]
  simp only [List.length_append, nSerSize_add]

/-- What is read of a record: fields that the status does not announce are zero. -/
theorem readIndex_indexBytes (r : IndexRecord) (rest : List Byte) :
    readIndex args (indexBytes args r ++ rest) =
      some (⟨r.nStatus, if r.haveFile then intRead r.nFile else 0,
        if r.haveData then r.nDataPos else 0, if r.haveUndo then r.nUndoPos else 0⟩, rest) := by
  have hfile : ∀ bs, readIf r.haveFile ((if r.haveFile then writeInt r.nFile else []) ++ bs) =
      some (if r.haveFile then intRead r.nFile else 0, bs) := by
    intro bs
    unfold readIf
    split_ifs
    · exact readWord_writeInt _ bs
    · rfl
  have hword : ∀ (c : Bool) (x : BitVec 32) bs,
      readIf c ((if c then writeUnsigned x else []) ++ bs) = some (if c then x else 0, bs) := by
    intro c x bs
    unfold readIf
    split_ifs
    · exact readWord_writeUnsigned x bs
    · rfl
  unfold readIndex indexBytes
  simp only [List.append_assoc, Option.bind_eq_bind]
  rw [readVersion_versionBytes, Option.bind_some, readWord_writeUnsigned, Option.bind_some]
  change (readIf r.haveFile _).bind _ = _
  rw [hfile, Option.bind_some]
  change (readIf r.haveData _).bind _ = _
  rw [hword, Option.bind_some]
  change (readIf r.haveUndo _).bind _ = _
  rw [hword, Option.bind_some]
  rfl

end Writing

end Records

section Values

/-- A value of one of the types. -/
inductive Value where
  | block (block : CBlock)
  | blockHeader (header : CBlockHeader)
  | auxPow (pow : CAuxPow)
  | transaction (tx : CTransaction)
  | blockIndex (r : IndexRecord)
  | diskBlockIndex (r : DiskRecord)

namespace Value

variable (args : SerArgs)

def serialize : Value → Option (List Byte)
  | block b => blockBytes b
  | blockHeader h => h.serialize
  | auxPow pow => auxPowBytes pow
  | transaction tx => some (CTransaction.codec.write tx)
  | blockIndex r => some (indexBytes args r)
  | diskBlockIndex r => diskBytes args r

def getSerializeSize : Value → Option (BitVec 32)
  | block b => blockSize b
  | blockHeader h => headerSize h
  | auxPow pow => auxPowSize pow
  | transaction tx => some (nSerSize (CTransaction.codec.size tx))
  | blockIndex r => some (indexSize args r)
  | diskBlockIndex r => diskSize args r

/-- Unserialize of the type of the value. -/
def unserialize : Value → List Byte → Option (Value × List Byte)
  | block _, bs => (readBlock bs).map fun p => (.block p.1, p.2)
  | blockHeader _, bs => (CBlockHeader.unserialize bs).map fun p => (.blockHeader p.1, p.2)
  | auxPow _, bs => (CAuxPow.unserialize bs).map fun p => (.auxPow p.1, p.2)
  | transaction _, bs => (CTransaction.codec.read bs).map fun p => (.transaction p.1, p.2)
  | blockIndex _, bs => (readIndex args bs).map fun p => (.blockIndex p.1, p.2)
  | diskBlockIndex _, bs => (readDisk args bs).map fun p => (.diskBlockIndex p.1, p.2)

/-- The version bit and the pointer agree where there is a header. -/
def Coherent : Value → Prop
  | block b => b.header.Coherent
  | blockHeader h => h.Coherent
  | auxPow pow => pow.parentBlockHeader.Coherent
  | diskBlockIndex r => r.header.Coherent
  | _ => True

end Value

/-- The size is the number of bytes that are written, and they are read back as the same
value. -/
def Faithful (args : SerArgs) (v : Value) : Prop :=
  ∃ bs, v.serialize args = some bs ∧
    (∃ n, v.getSerializeSize args = some n ∧ n.toNat = bs.length) ∧
    ∀ rest, v.unserialize args (bs ++ rest) = some (v, rest)

/-- The bytes of a coherent header. -/
def headerLength : CBlockHeader → ℕ
  | .plain _ => 80
  | .merged _ aux parent => 80 + (AuxFields.codec.size aux + headerLength parent)

namespace Value

/-- The bytes of a value. -/
def length (args : SerArgs) : Value → ℕ
  | block b => headerLength b.header + (vector CTransaction.codec).size b.vtx
  | blockHeader h => headerLength h
  | auxPow pow => AuxFields.codec.size pow.aux + headerLength pow.parentBlockHeader
  | transaction tx => CTransaction.codec.size tx
  | blockIndex r => (indexBytes args r).length
  | diskBlockIndex r =>
      (versionBytes args).length + ((writeInt r.nHeight).length + ((writeUnsigned r.nTx).length +
        headerLength r.header))

/-- What the formats can hold: counts up to MAX_SIZE, a file number and a height that are
not negative, positions where the status announces them, and no proof in the record
of an index entry. -/
def Fits : Value → Prop
  | block b => b.header.Good ∧ (vector CTransaction.codec).Good b.vtx
  | blockHeader h => h.Good
  | auxPow pow => AuxFields.codec.Good pow.aux ∧ pow.parentBlockHeader.Good
  | transaction tx => CTransaction.codec.Good tx
  | blockIndex r =>
      (if r.haveFile then 0 ≤ r.nFile.toInt else r.nFile = 0) ∧
        (r.haveData = false → r.nDataPos = 0) ∧ (r.haveUndo = false → r.nUndoPos = 0)
  | diskBlockIndex r => r.header.fields.isAuxPow = false ∧ 0 ≤ r.nHeight.toInt

end Value

section Reading

variable {args : SerArgs}

theorem read_write_iff {α : Type} (c : Codec α) (a : α) :
    (∀ rest, c.read (c.write a ++ rest) = some (a, rest)) ↔ c.Good a :=
  ⟨fun h => c.read_good _ _ _ (h []), fun h rest => c.read_write a rest h⟩

theorem unserialize_iff {h : CBlockHeader} {bs : List Byte} (hc : h.Coherent)
    (hs : h.serialize = some bs) :
    (∀ rest, CBlockHeader.unserialize (bs ++ rest) = some (h, rest)) ↔ h.Good :=
  ⟨fun hread => (CBlockHeader.unserialize_spec _ _ _ (hread [])).2,
    fun hg rest => CBlockHeader.unserialize_serialize h bs rest hs hc hg⟩

theorem headerLength_eq {h : CBlockHeader} (hc : h.Coherent) :
    ∃ bs, h.serialize = some bs ∧ bs.length = headerLength h := by
  induction h with
  | plain f =>
    refine ⟨HeaderFields.codec.write f, ?_, CBlockHeader.header_bytes_length f⟩
    rw [CBlockHeader.serialize, if_neg]
    rw [Bool.not_eq_true]
    exact hc
  | merged f aux parent ih =>
    obtain ⟨bs, hbs, hlen⟩ := ih hc.2
    refine ⟨HeaderFields.codec.write f ++ (AuxFields.codec.write aux ++ bs), ?_, ?_⟩
    · rw [CBlockHeader.serialize, if_pos hc.1, hbs]
      rfl
    · rw [List.length_append, List.length_append, CBlockHeader.header_bytes_length,
        AuxFields.codec.write_length, hlen, headerLength]

theorem toNat_nSerSize (n : ℕ) : (nSerSize n).toNat = n ↔ n < 2 ^ 32 := by
  unfold nSerSize
  rw [BitVec.toNat_ofNat]
  omega

/-- A value is faithful when its size is below the limit of an unsigned int and it is read
back. -/
theorem faithful_of_size {v : Value} {bs : List Byte} (hs : v.serialize args = some bs)
    (hsize : v.getSerializeSize args = some (nSerSize bs.length))
    (hlen : bs.length = v.length args) {P : Prop}
    (hread : (∀ rest, v.unserialize args (bs ++ rest) = some (v, rest)) ↔ P) :
    Faithful args v ↔ v.length args < 2 ^ 32 ∧ P := by
  have hnat := toNat_nSerSize bs.length
  rw [hlen] at hnat
  rw [← hread, ← hnat]
  constructor
  · rintro ⟨bs', hs', ⟨n, hn, htoNat⟩, hback⟩
    obtain rfl : bs = bs' := Option.some.inj (hs.symm.trans hs')
    obtain rfl := Option.some.inj (hsize.symm.trans hn)
    rw [hlen] at htoNat
    exact ⟨htoNat, hback⟩
  · rintro ⟨htoNat, hback⟩
    rw [← hlen] at htoNat
    exact ⟨bs, hs, ⟨_, hsize, htoNat⟩, hback⟩

theorem map_value_iff {α : Type} {C : α → Value} (hC : Function.Injective C)
    (x : Option (α × List Byte)) (a : α) (rest : List Byte) :
    (x.map fun p => (C p.1, p.2)) = some (C a, rest) ↔ x = some (a, rest) := by
  rw [Option.map_eq_some_iff]
  constructor
  · rintro ⟨⟨b, bs⟩, hx, heq⟩
    obtain ⟨hval, rfl⟩ := Prod.mk.inj heq
    obtain rfl : b = a := hC hval
    exact hx
  · intro hx
    exact ⟨(a, rest), hx, rfl⟩

theorem readBlock_iff {b : CBlock} {bs : List Byte} (hc : b.header.Coherent)
    (hs : b.header.serialize = some bs) :
    (∀ rest, readBlock (bs ++ (vector CTransaction.codec).write b.vtx ++ rest) =
      some (b, rest)) ↔ b.header.Good ∧ (vector CTransaction.codec).Good b.vtx := by
  obtain ⟨header, vtx⟩ := b
  constructor
  · intro hread
    have hfirst := hread []
    simp only [readBlock, Option.bind_eq_bind, Option.bind_eq_some_iff] at hfirst
    obtain ⟨⟨h, bs₁⟩, hheader, ⟨txs, bs₂⟩, hvtx, heq⟩ := hfirst
    obtain ⟨hval, -⟩ := Prod.mk.inj (Option.some.inj heq)
    obtain ⟨rfl, rfl⟩ := CBlock.mk.inj hval
    exact ⟨(CBlockHeader.unserialize_spec _ _ _ hheader).2,
      (vector CTransaction.codec).read_good _ _ _ hvtx⟩
  · rintro ⟨hheader, hvtx⟩ rest
    unfold readBlock
    rw [List.append_assoc, CBlockHeader.unserialize_serialize header bs _ hs hc hheader]
    simp only [Option.bind_eq_bind, Option.bind_some]
    rw [(vector CTransaction.codec).read_write vtx rest hvtx]
    rfl

theorem readAuxPow_iff {pow : CAuxPow} {bs : List Byte} (hc : pow.parentBlockHeader.Coherent)
    (hs : pow.parentBlockHeader.serialize = some bs) :
    (∀ rest, CAuxPow.unserialize (AuxFields.codec.write pow.aux ++ bs ++ rest) =
      some (pow, rest)) ↔ AuxFields.codec.Good pow.aux ∧ pow.parentBlockHeader.Good := by
  constructor
  · intro hread
    obtain ⟨haux, -, hparent⟩ := CAuxPow.unserialize_spec _ _ _ (hread [])
    exact ⟨haux, hparent⟩
  · rintro ⟨haux, hparent⟩ rest
    rw [List.append_assoc]
    exact CAuxPow.unserialize_serialize pow bs rest haux hs hc hparent

theorem readIndex_iff (r : IndexRecord) :
    (∀ rest, readIndex args (indexBytes args r ++ rest) = some (r, rest)) ↔
      Value.Fits (.blockIndex r) := by
  obtain ⟨nStatus, nFile, nDataPos, nUndoPos⟩ := r
  have hfile : ∀ c : Bool, (if c then intRead nFile else 0) = nFile ↔
      if c then 0 ≤ nFile.toInt else nFile = 0 := by
    intro c
    split_ifs
    · exact intRead_eq_iff nFile
    · exact eq_comm
  have hword : ∀ (c : Bool) (x : BitVec 32), (if c then x else 0) = x ↔ (c = false → x = 0) := by
    intro c x
    cases c with
    | true => simp
    | false =>
      rw [if_neg Bool.false_ne_true]
      exact ⟨fun h _ => h.symm, fun h => (h rfl).symm⟩
  simp only [Value.Fits]
  rw [← hfile, ← hword, ← hword]
  constructor
  · intro hread
    have hfirst := hread []
    rw [readIndex_indexBytes] at hfirst
    have hval := congrArg Prod.fst (Option.some.inj hfirst)
    exact ⟨congrArg IndexRecord.nFile hval, congrArg IndexRecord.nDataPos hval,
      congrArg IndexRecord.nUndoPos hval⟩
  · rintro ⟨hnFile, hnDataPos, hnUndoPos⟩ rest
    rw [readIndex_indexBytes]
    dsimp only at hnFile hnDataPos hnUndoPos ⊢
    rw [hnFile, hnDataPos, hnUndoPos]

theorem readDisk_bytes {r : DiskRecord} {bs : List Byte} (hc : r.header.Coherent)
    (hg : r.header.Good) (hs : r.header.serialize = some bs) (rest : List Byte) :
    readDisk args (versionBytes args ++ (writeInt r.nHeight ++ (writeUnsigned r.nTx ++ bs)) ++
      rest) = some ({ r with nHeight := intRead r.nHeight }, rest) := by
  unfold readDisk
  simp only [List.append_assoc, Option.bind_eq_bind]
  rw [readVersion_versionBytes, Option.bind_some, readWord_writeInt, Option.bind_some]
  dsimp only
  rw [readWord_writeUnsigned, Option.bind_some]
  dsimp only
  rw [CBlockHeader.unserialize_serialize r.header bs rest hs hc hg]
  rfl

/-- The record of an index entry: the size leaves the proof out. -/
theorem faithful_diskBlockIndex {r : DiskRecord} (hc : r.header.Coherent) :
    Faithful args (.diskBlockIndex r) ↔
      (Value.diskBlockIndex r).length args < 2 ^ 32 ∧ (Value.diskBlockIndex r).Fits := by
  obtain ⟨bs, hs, hlen⟩ := headerLength_eq hc
  have hbytes : diskBytes args r =
      some (versionBytes args ++ (writeInt r.nHeight ++ (writeUnsigned r.nTx ++ bs))) := by
    unfold diskBytes
    rw [hs]
    rfl
  have hsize : diskSize args r = some (nSerSize ((versionBytes args).length +
      ((writeInt r.nHeight).length + ((writeUnsigned r.nTx).length + 80)))) := by
    unfold diskSize
    rw [headerSize_eq, hs, versionSize_eq, intSize_eq, unsignedSize_eq]
    simp only [nSerSize_add]
    rfl
  cases hheader : r.header with
  | merged f aux parent =>
    rw [hheader] at hc hlen
    have hbit : r.header.fields.isAuxPow = true := by
      rw [hheader]
      exact hc.1
    refine iff_of_false ?_ fun hfits => ?_
    · rintro ⟨bs', hs', ⟨n, hn, htoNat⟩, -⟩
      obtain rfl := Option.some.inj (hbytes.symm.trans hs')
      obtain rfl := Option.some.inj (hsize.symm.trans hn)
      unfold nSerSize at htoNat
      rw [BitVec.toNat_ofNat] at htoNat
      have hparent : 1 ≤ headerLength parent := by
        cases parent with
        | plain g => exact Nat.le_add_left 1 79
        | merged g aux' parent' => exact Nat.le_add_right_of_le (by omega)
      simp only [List.length_append, hlen, headerLength] at htoNat
      omega
    · have hclear := hfits.2.1
      rw [hbit] at hclear
      cases hclear
  | plain f =>
    have hgood : r.header.Good := by
      rw [hheader]
      exact CBlockHeader.fields_good f
    have hlength : (versionBytes args ++ (writeInt r.nHeight ++ (writeUnsigned r.nTx ++ bs))).length
        = (Value.diskBlockIndex r).length args := by
      unfold Value.length
      simp only [List.length_append, hlen]
    have hserialize : (Value.diskBlockIndex r).serialize args = some _ := hbytes
    refine faithful_of_size hserialize ?_ hlength ?_
    · show diskSize args r = _
      have height : bs.length = 80 := by
        rw [hlen, hheader]
        rfl
      rw [hsize]
      simp only [List.length_append, height]
    · have hclear : r.header.fields.isAuxPow = false := by
        rw [hheader] at hc ⊢
        exact hc
      have hinj : Function.Injective Value.diskBlockIndex := fun _ _ h => Value.diskBlockIndex.inj h
      simp only [Value.Fits]
      rw [← intRead_eq_iff]
      constructor
      · intro hread
        have hfirst := (map_value_iff hinj _ r []).mp (hread [])
        rw [readDisk_bytes hc hgood hs] at hfirst
        have hval := congrArg Prod.fst (Option.some.inj hfirst)
        exact ⟨hclear, congrArg DiskRecord.nHeight hval⟩
      · rintro ⟨-, hheight⟩ rest
        refine (map_value_iff hinj _ r rest).mpr ?_
        rw [readDisk_bytes hc hgood hs, hheight]

theorem faithful_blockHeader {h : CBlockHeader} (hc : h.Coherent) :
    Faithful args (.blockHeader h) ↔
      (Value.blockHeader h).length args < 2 ^ 32 ∧ (Value.blockHeader h).Fits := by
  obtain ⟨bs, hs, hlen⟩ := headerLength_eq hc
  have hserialize : (Value.blockHeader h).serialize args = some bs := hs
  have hsize : (Value.blockHeader h).getSerializeSize args = some (nSerSize bs.length) := by
    show headerSize h = _
    rw [headerSize_eq, hs]
    rfl
  have hinj : Function.Injective Value.blockHeader := fun _ _ h => Value.blockHeader.inj h
  refine faithful_of_size hserialize hsize hlen (Iff.trans ?_ (unserialize_iff hc hs))
  exact forall_congr' fun rest => map_value_iff hinj _ h rest

theorem faithful_block {b : CBlock} (hc : b.header.Coherent) :
    Faithful args (.block b) ↔
      (Value.block b).length args < 2 ^ 32 ∧ (Value.block b).Fits := by
  obtain ⟨bs, hs, hlen⟩ := headerLength_eq hc
  have hserialize : (Value.block b).serialize args =
      some (bs ++ (vector CTransaction.codec).write b.vtx) := by
    show blockBytes b = _
    unfold blockBytes
    rw [hs]
    rfl
  have hsize : (Value.block b).getSerializeSize args =
      some (nSerSize (bs ++ (vector CTransaction.codec).write b.vtx).length) := by
    show blockSize b = _
    unfold blockSize
    rw [headerSize_eq, hs, List.length_append, nSerSize_add,
      (vector CTransaction.codec).write_length]
    rfl
  have hlength : (bs ++ (vector CTransaction.codec).write b.vtx).length =
      (Value.block b).length args := by
    rw [List.length_append, hlen, (vector CTransaction.codec).write_length]
    rfl
  have hinj : Function.Injective Value.block := fun _ _ h => Value.block.inj h
  refine faithful_of_size hserialize hsize hlength (Iff.trans ?_ (readBlock_iff hc hs))
  exact forall_congr' fun rest => map_value_iff hinj _ b rest

theorem faithful_auxPow {pow : CAuxPow} (hc : pow.parentBlockHeader.Coherent) :
    Faithful args (.auxPow pow) ↔
      (Value.auxPow pow).length args < 2 ^ 32 ∧ (Value.auxPow pow).Fits := by
  obtain ⟨bs, hs, hlen⟩ := headerLength_eq hc
  have hbytes : auxPowBytes pow = some (AuxFields.codec.write pow.aux ++ bs) := by
    unfold auxPowBytes
    rw [hs]
    rfl
  have hserialize : (Value.auxPow pow).serialize args =
      some (AuxFields.codec.write pow.aux ++ bs) := hbytes
  have hsize : (Value.auxPow pow).getSerializeSize args =
      some (nSerSize (AuxFields.codec.write pow.aux ++ bs).length) := by
    show auxPowSize pow = _
    rw [auxPowSize_eq, hbytes]
    rfl
  have hlength : (AuxFields.codec.write pow.aux ++ bs).length =
      (Value.auxPow pow).length args := by
    rw [List.length_append, hlen, AuxFields.codec.write_length]
    rfl
  have hinj : Function.Injective Value.auxPow := fun _ _ h => Value.auxPow.inj h
  refine faithful_of_size hserialize hsize hlength (Iff.trans ?_ (readAuxPow_iff hc hs))
  exact forall_congr' fun rest => map_value_iff hinj _ pow rest

theorem faithful_transaction (tx : CTransaction) :
    Faithful args (.transaction tx) ↔
      (Value.transaction tx).length args < 2 ^ 32 ∧ (Value.transaction tx).Fits := by
  have hserialize : (Value.transaction tx).serialize args =
      some (CTransaction.codec.write tx) := rfl
  have hlength : (CTransaction.codec.write tx).length = (Value.transaction tx).length args :=
    CTransaction.codec.write_length tx
  have hsize : (Value.transaction tx).getSerializeSize args =
      some (nSerSize (CTransaction.codec.write tx).length) := by
    rw [hlength]
    rfl
  have hinj : Function.Injective Value.transaction := fun _ _ h => Value.transaction.inj h
  refine faithful_of_size hserialize hsize hlength
    (Iff.trans ?_ (read_write_iff CTransaction.codec tx))
  exact forall_congr' fun rest => map_value_iff hinj _ tx rest

theorem faithful_blockIndex (r : IndexRecord) :
    Faithful args (.blockIndex r) ↔
      (Value.blockIndex r).length args < 2 ^ 32 ∧ (Value.blockIndex r).Fits := by
  have hserialize : (Value.blockIndex r).serialize args = some (indexBytes args r) := rfl
  have hsize : (Value.blockIndex r).getSerializeSize args =
      some (nSerSize (indexBytes args r).length) := by
    rw [← indexSize_eq]
    rfl
  have hinj : Function.Injective Value.blockIndex := fun _ _ h => Value.blockIndex.inj h
  refine faithful_of_size hserialize hsize rfl 
    (Iff.trans ?_ (@readIndex_iff args r))
  exact forall_congr' fun rest => map_value_iff hinj _ r rest

end Reading

/-- A value whose version bits and pointers agree has the size of its bytes and comes back
from them exactly when it has fewer than 2^32 bytes and its format can hold it. The
record of an index entry with a proof never does: the bytes of the proof are written
and not counted. -/
theorem faithful_iff (args : SerArgs) (v : Value) (hc : v.Coherent) :
    Faithful args v ↔ v.length args < 2 ^ 32 ∧ v.Fits := by
  cases v with
  | block b => exact faithful_block hc
  | blockHeader h => exact faithful_blockHeader hc
  | auxPow pow => exact faithful_auxPow hc
  | transaction tx => exact faithful_transaction tx
  | blockIndex r => exact faithful_blockIndex r
  | diskBlockIndex r => exact faithful_diskBlockIndex hc

/-- The arguments with which the index database writes. -/
def diskArgs : SerArgs := ⟨false, 1000000⟩

/-- The record of a block without a proof. -/
def bareRecord : Value := .diskBlockIndex ⟨1, 1, .plain (HeaderFields.null false)⟩

theorem bareRecord_faithful : bareRecord.Coherent ∧ Faithful diskArgs bareRecord := by
  have hc : bareRecord.Coherent := by
    show (HeaderFields.null false).isAuxPow = false
    decide
  have hfits : bareRecord.Fits := by
    show (HeaderFields.null false).isAuxPow = false ∧ 0 ≤ (1 : BitVec 32).toInt
    decide
  exact ⟨hc, (faithful_iff diskArgs bareRecord hc).mpr ⟨by decide +kernel, hfits⟩⟩

/-- The record of a merge-mined block. -/
def mergedRecord : DiskRecord :=
  ⟨1, 1, .merged foreignFields (AuxFields.fresh 0) (.plain (HeaderFields.null false))⟩

/-- The pointer and the bit agree, the bytes are read back, and the size is smaller than
their number. -/
theorem mergedRecord_size :
    mergedRecord.header.Coherent ∧
      ∃ bs, diskBytes diskArgs mergedRecord = some bs ∧
        readDisk diskArgs bs = some (mergedRecord, []) ∧
        diskSize diskArgs mergedRecord = some 85 ∧ bs.length ≠ 85 ∧
        ¬ Faithful diskArgs (.diskBlockIndex mergedRecord) := by
  have hsize : diskSize diskArgs mergedRecord = some 85 := by decide +kernel
  have hlen : ((diskBytes diskArgs mergedRecord).getD []).length ≠ 85 := by decide +kernel
  have hsome : diskBytes diskArgs mergedRecord =
      some ((diskBytes diskArgs mergedRecord).getD []) := by decide +kernel
  have hc : mergedRecord.header.Coherent := by
    show foreignFields.isAuxPow = true ∧ (HeaderFields.null false).isAuxPow = false
    decide
  refine ⟨hc, _, hsome, by decide +kernel, hsize, hlen, ?_⟩
  rintro ⟨bs, hbs, ⟨n, hn, htoNat⟩, -⟩
  obtain rfl := Option.some.inj (hsome.symm.trans hbs)
  obtain rfl := Option.some.inj (hsize.symm.trans hn)
  exact hlen htoNat.symm

end Values

end UmbrellaLtc.SerializedSize
