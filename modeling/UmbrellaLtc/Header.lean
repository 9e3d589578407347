import UmbrellaLtc.Transaction

/-!
Block headers and merged-mining proofs, from block.h and auxpow.h. A header owns
an optional CAuxPow, and a CAuxPow holds the header of the parent block, which
is again a CBlockHeader; the type is recursive as the objects are. The auxpow
part is written and read on the strength of one bit of nVersion, while the
pointer is a field of its own: a header may carry the bit without the pointer
or the pointer without the bit.
-/

namespace UmbrellaLtc.Header

open Codec Transaction

/-- The 80 bytes that are hashed: everything in front of the auxpow pointer. -/
structure HeaderFields where
  nVersion : BitVec 32
  hashPrevBlock : Uint256
  hashMerkleRoot : Uint256
  nTime : BitVec 32
  nBits : BitVec 32
  nNonce : BitVec 32
deriving DecidableEq

/-- A CAuxPow without its parent header: the CMerkleTx base and the two own
fields in front of it. fMerkleVerified is memory only and left out. -/
structure AuxFields where
  tx : CTransaction
  hashBlock : Uint256
  vMerkleBranch : List Uint256
  nIndex : BitVec 32
  vChainMerkleBranch : List Uint256
  nChainIndex : BitVec 32
deriving DecidableEq

/-- `plain` is a header whose auxpow pointer is null; `merged` owns the proof with
the given fields and parent header. -/
inductive CBlockHeader where
  | plain (fields : HeaderFields)
  | merged (fields : HeaderFields) (aux : AuxFields) (parentBlockHeader : CBlockHeader)
deriving DecidableEq

structure CAuxPow where
  aux : AuxFields
  parentBlockHeader : CBlockHeader
deriving DecidableEq

def BLOCK_VERSION_AUXPOW : BitVec 32 := 1 <<< 8

def BLOCK_VERSION_CHAIN_START : ℕ := 2 ^ 16

def CURRENT_VERSION : BitVec 32 := 2

/-- pars::mm::chain_id through testnet_switch. -/
def chainId (fTestNet : Bool) : ℕ := if fTestNet then 13807 else 13804

def HeaderFields.codec : Codec HeaderFields :=
  (pair uint32 (pair uint256 (pair uint256 (pair uint32 (pair uint32 uint32))))).iso
    (fun p => ⟨p.1, p.2.1, p.2.2.1, p.2.2.2.1, p.2.2.2.2.1, p.2.2.2.2.2⟩)
    (fun f => (f.nVersion, f.hashPrevBlock, f.hashMerkleRoot, f.nTime, f.nBits, f.nNonce))
    (fun _ => rfl) (fun _ => rfl)

/-- The CMerkleTx block and then vChainMerkleBranch and nChainIndex. -/
def AuxFields.codec : Codec AuxFields :=
  (pair CTransaction.codec (pair uint256 (pair (vector uint256) (pair uint32
    (pair (vector uint256) uint32))))).iso
    (fun p => ⟨p.1, p.2.1, p.2.2.1, p.2.2.2.1, p.2.2.2.2.1, p.2.2.2.2.2⟩)
    (fun a => (a.tx, a.hashBlock, a.vMerkleBranch, a.nIndex, a.vChainMerkleBranch,
      a.nChainIndex))
    (fun _ => rfl) (fun _ => rfl)

namespace HeaderFields

def isAuxPow (f : HeaderFields) : Bool := f.nVersion &&& BLOCK_VERSION_AUXPOW != 0

/-- Signed division, as for the `int` it is. -/
def getChainID (f : HeaderFields) : ℤ := f.nVersion.toInt.tdiv BLOCK_VERSION_CHAIN_START

def getHash (Hash : List Byte → Uint256) (f : HeaderFields) : Uint256 :=
  Hash (codec.write f)

/-- The values SetNull stores. -/
def null (fTestNet : Bool) : HeaderFields :=
  { nVersion := CURRENT_VERSION |||
      BitVec.ofNat 32 (chainId fTestNet * BLOCK_VERSION_CHAIN_START)
    hashPrevBlock := 0
    hashMerkleRoot := 0
    nTime := 0
    nBits := 0
    nNonce := 0 }

theorem isAuxPow_null (fTestNet : Bool) : (null fTestNet).isAuxPow = false := by
  cases fTestNet <;> decide

end HeaderFields

/-- `CAuxPow()`: nIndex is -1, and nChainIndex is left uninitialised. -/
def AuxFields.fresh (nChainIndex : BitVec 32) : AuxFields :=
  { tx := CTransaction.null
    hashBlock := 0
    vMerkleBranch := []
    nIndex := BitVec.allOnes 32
    vChainMerkleBranch := []
    nChainIndex := nChainIndex }

theorem AuxFields.good_of_empty (hashBlock : Uint256) (nIndex nChainIndex : BitVec 32) :
    AuxFields.codec.Good ⟨CTransaction.null, hashBlock, [], nIndex, [], nChainIndex⟩ :=
  ⟨⟨trivial, vector_good_nil _, vector_good_nil _, trivial⟩, trivial, vector_good_nil _, trivial,
    vector_good_nil _, trivial⟩

namespace CBlockHeader

def fields : CBlockHeader → HeaderFields
  | plain f => f
  | merged f _ _ => f

def auxpow : CBlockHeader → Option CAuxPow
  | plain _ => none
  | merged _ aux parent => some ⟨aux, parent⟩

/-- A header from its two parts: the field block and the pointer. -/
def build (f : HeaderFields) : Option CAuxPow → CBlockHeader
  | none => plain f
  | some pow => merged f pow.aux pow.parentBlockHeader

@[simp] theorem fields_build (f : HeaderFields) (pow : Option CAuxPow) :
    (build f pow).fields = f := by
  cases pow <;> rfl

@[simp] theorem auxpow_build (f : HeaderFields) (pow : Option CAuxPow) :
    (build f pow).auxpow = pow := by
  cases pow <;> rfl

/-- The writer. `none` is the dereference of a null auxpow: ReadWriteAuxPow looks
only at the version bit. A proof without the bit is silently not written. -/
def serialize : CBlockHeader → Option (List Byte)
  | plain f => if f.isAuxPow then none else some (HeaderFields.codec.write f)
  | merged f aux parent =>
      if f.isAuxPow then
        parent.serialize.map fun bs =>
          HeaderFields.codec.write f ++ (AuxFields.codec.write aux ++ bs)
      else some (HeaderFields.codec.write f)

/-- The reader; the parent header of a proof is read by the same function. The
fuel bounds the nesting, and every level takes bytes off the stream. -/
def unserializeFuel : ℕ → List Byte → Option (CBlockHeader × List Byte)
  | 0, _ => none
  | fuel + 1, bs => do
    let (f, bs) ← HeaderFields.codec.read bs
    if f.isAuxPow then
      let (aux, bs) ← AuxFields.codec.read bs
      let (parent, bs) ← unserializeFuel fuel bs
      return (merged f aux parent, bs)
    else
      return (plain f, bs)

def unserialize (bs : List Byte) : Option (CBlockHeader × List Byte) :=
  unserializeFuel (bs.length + 1) bs

/-- The version bit and the pointer agree, in the header and in every parent
header below it. -/
def Coherent : CBlockHeader → Prop
  | plain f => f.isAuxPow = false
  | merged f _ parent => f.isAuxPow = true ∧ parent.Coherent

/-- Every count in the header is one that the reader accepts. -/
def Good : CBlockHeader → Prop
  | plain f => HeaderFields.codec.Good f
  | merged f aux parent => HeaderFields.codec.Good f ∧ AuxFields.codec.Good aux ∧ parent.Good

/-- The number of proofs nested in a header. -/
def depth : CBlockHeader → ℕ
  | plain _ => 0
  | merged _ _ parent => parent.depth + 1

theorem coherent_iff (h : CBlockHeader) :
    h.Coherent ↔ (h.fields.isAuxPow = true ↔ h.auxpow.isSome = true) ∧
      ∀ pow, h.auxpow = some pow → pow.parentBlockHeader.Coherent := by
  cases h with
  | plain f => simp [Coherent, fields, auxpow]
  | merged f aux parent => simp [Coherent, fields, auxpow]

theorem fields_good (f : HeaderFields) : HeaderFields.codec.Good f :=
  ⟨trivial, trivial, trivial, trivial, trivial, trivial⟩

theorem serialize_ne_none (h : CBlockHeader) (hc : h.Coherent) : h.serialize ≠ none := by
  induction h with
  | plain f => simp [serialize, show f.isAuxPow = false from hc]
  | merged f aux parent ih =>
    simp only [serialize, hc.1, if_true]
    intro hnone
    exact ih hc.2 (Option.map_eq_none_iff.mp hnone)

theorem header_bytes_length (f : HeaderFields) : (HeaderFields.codec.write f).length = 80 :=
  HeaderFields.codec.write_length f

/-- Each nested proof accounts for a whole header of bytes. -/
theorem depth_le_length (h : CBlockHeader) (bs : List Byte) (hs : h.serialize = some bs)
    (hc : h.Coherent) : h.depth + 1 ≤ bs.length := by
  induction h generalizing bs with
  | plain f =>
    simp only [serialize, show f.isAuxPow = false from hc, Bool.false_eq_true, if_false,
      Option.some.injEq] at hs
    rw [← hs, header_bytes_length]
    simp [depth]
  | merged f aux parent ih =>
    simp only [serialize, hc.1, if_true, Option.map_eq_some_iff] at hs
    obtain ⟨ps, hps, rfl⟩ := hs
    have hparent := ih ps hps hc.2
    simp only [depth, List.length_append, header_bytes_length]
    omega

theorem unserializeFuel_serialize (h : CBlockHeader) (fuel : ℕ) (bs rest : List Byte)
    (hs : h.serialize = some bs) (hc : h.Coherent) (hg : h.Good) (hfuel : h.depth < fuel) :
    unserializeFuel fuel (bs ++ rest) = some (h, rest) := by
  induction h generalizing fuel bs with
  | plain f =>
    have hbit : f.isAuxPow = false := hc
    simp only [serialize, hbit, Bool.false_eq_true, if_false, Option.some.injEq] at hs
    cases fuel with
    | zero => omega
    | succ fuel =>
      rw [← hs, unserializeFuel, HeaderFields.codec.read_write f rest hg]
      simp [hbit]
  | merged f aux parent ih =>
    simp only [serialize, hc.1, if_true, Option.map_eq_some_iff] at hs
    obtain ⟨ps, hps, rfl⟩ := hs
    cases fuel with
    | zero => simp [depth] at hfuel
    | succ fuel =>
      have hparent := ih fuel ps hps hc.2 hg.2.2 (by simp only [depth] at hfuel; omega)
      rw [unserializeFuel, List.append_assoc, HeaderFields.codec.read_write f _ hg.1]
      simp only [Option.bind_eq_bind, Option.bind_some, hc.1, if_true]
      rw [List.append_assoc, AuxFields.codec.read_write aux _ hg.2.1]
      simp only [Option.bind_some, hparent]
      rfl

/-- What a coherent header writes is read back as the same header, and the
bytes after it are left alone. -/
theorem unserialize_serialize (h : CBlockHeader) (bs rest : List Byte)
    (hs : h.serialize = some bs) (hc : h.Coherent) (hg : h.Good) :
    unserialize (bs ++ rest) = some (h, rest) := by
  have hdepth := depth_le_length h bs hs hc
  apply unserializeFuel_serialize h _ bs rest hs hc hg
  simp only [List.length_append]
  omega

theorem unserializeFuel_spec (fuel : ℕ) (bs rest : List Byte) (h : CBlockHeader)
    (hr : unserializeFuel fuel bs = some (h, rest)) : h.Coherent ∧ h.Good := by
  induction fuel generalizing bs h with
  | zero => simp [unserializeFuel] at hr
  | succ fuel ih =>
    simp only [unserializeFuel, Option.bind_eq_bind, Option.bind_eq_some_iff] at hr
    obtain ⟨⟨f, bs1⟩, hf, hr⟩ := hr
    dsimp only at hr
    split_ifs at hr with hbit
    · simp only [Option.bind_eq_some_iff] at hr
      obtain ⟨⟨aux, bs2⟩, haux, ⟨parent, bs3⟩, hparent, heq⟩ := hr
      simp only [Option.pure_def, Option.some.injEq, Prod.mk.injEq] at heq
      obtain ⟨rfl, rfl⟩ := heq
      obtain ⟨hcoherent, hgood⟩ := ih bs2 parent hparent
      exact ⟨⟨hbit, hcoherent⟩, fields_good f, AuxFields.codec.read_good bs1 aux bs2 haux, hgood⟩
    · simp only [Option.pure_def, Option.some.injEq, Prod.mk.injEq] at hr
      obtain ⟨rfl, rfl⟩ := hr
      exact ⟨by simpa [Coherent] using hbit, fields_good f⟩

/-- The reader sets the pointer from the bit it has just read. -/
theorem unserialize_spec (bs rest : List Byte) (h : CBlockHeader)
    (hr : unserialize bs = some (h, rest)) : h.Coherent ∧ h.Good :=
  unserializeFuel_spec _ bs rest h hr

end CBlockHeader

namespace CAuxPow

/-- A proof alone, as it arrives in a getauxblock call. -/
def unserialize (bs : List Byte) : Option (CAuxPow × List Byte) := do
  let (aux, bs) ← AuxFields.codec.read bs
  let (parent, bs) ← CBlockHeader.unserialize bs
  return (⟨aux, parent⟩, bs)

theorem unserialize_spec (bs rest : List Byte) (pow : CAuxPow)
    (hr : unserialize bs = some (pow, rest)) :
    AuxFields.codec.Good pow.aux ∧ pow.parentBlockHeader.Coherent ∧
      pow.parentBlockHeader.Good := by
  simp only [unserialize, Option.bind_eq_bind, Option.bind_eq_some_iff] at hr
  obtain ⟨⟨aux, bs1⟩, haux, ⟨parent, bs2⟩, hparent, heq⟩ := hr
  simp only [Option.pure_def, Option.some.injEq, Prod.mk.injEq] at heq
  obtain ⟨rfl, rfl⟩ := heq
  exact ⟨AuxFields.codec.read_good bs aux bs1 haux,
    CBlockHeader.unserialize_spec bs1 bs2 parent hparent⟩

theorem unserialize_serialize (pow : CAuxPow) (bs rest : List Byte)
    (haux : AuxFields.codec.Good pow.aux) (hs : pow.parentBlockHeader.serialize = some bs)
    (hc : pow.parentBlockHeader.Coherent) (hg : pow.parentBlockHeader.Good) :
    unserialize (AuxFields.codec.write pow.aux ++ (bs ++ rest)) = some (pow, rest) := by
  rw [unserialize, AuxFields.codec.read_write pow.aux _ haux]
  simp only [Option.bind_eq_bind, Option.bind_some]
  rw [CBlockHeader.unserialize_serialize _ bs rest hs hc hg]
  rfl

end CAuxPow

end UmbrellaLtc.Header
