import UmbrellaLtc.AuxPow
import UmbrellaLtc.EvalScript
import UmbrellaLtc.Compact
import UmbrellaLtc.CheckBlock

/-!
The producer of merged-mining proofs: the coinbase script with the aux root, from auxpow.cpp,
the merkle branch of a block, from block.h and main.cpp, and the part of getworkaux that turns
solved work into a proof, from rpcmining.cpp.
-/

namespace UmbrellaLtc.MergedMining

open Codec Transaction Header Merkle Script EvalScript Compact AuxPow CheckBlock

section Scripts

def OP_2 : ℕ := 0x52

/-- CScript::push_uint64, for `script << n` with an unsigned integer. -/
def pushUint64 (n : ℕ) : CScript :=
  if 1 ≤ n ∧ n ≤ 16 then [BitVec.ofNat 8 (n + (OP_1 - 1))] else pushScript (getvch n)

/-- `script << nBits`: the compact number becomes a CBigNum. -/
def pushCompact (nBits : BitVec 32) : CScript := pushScript (getvch (setCompact nBits))

def makeCoinbaseWithAux (nBits nExtraNonce : BitVec 32) (vchAux : List Byte) : CScript :=
  pushCompact nBits ++ pushUint64 nExtraNonce.toNat ++ [BitVec.ofNat 8 OP_2] ++
    pushScript (pchMergedMiningHeader ++ vchAux)

/-- What stops a call of getworkaux after its parameters are parsed. -/
inductive Refusal where
  | auxTooShort
  | invalidAuxPowScript
  | fault
deriving DecidableEq

/-- RemoveMergedMiningHeader. -/
def removeMergedMiningHeader (vchAux : List Byte) : Except Refusal (List Byte) :=
  if find pchMergedMiningHeader vchAux ≠ 0 then .error .auxTooShort
  -- in an empty vector the search ends where it begins
  else if vchAux.length < pchMergedMiningHeader.length then .error .fault
  else .ok (vchAux.drop pchMergedMiningHeader.length)

/-- Where GetOp2 leaves the iterator when it returns false: behind what it could read. -/
def stalled : CScript → CScript
  | [] => []
  | b :: pc => ((operandSize b.toNat pc).map Prod.snd).getD pc

/-- `script.GetOp(pc, opcode, vchRet)`, whose answer is not looked at. -/
def getOp (pc : CScript) : ℕ × List Byte × CScript :=
  (getOp2 pc).getD (OP_INVALIDOPCODE, [], stalled pc)

/-- The aux merkle root, size and nonce out of a coinbase script. -/
def parseAux (script : CScript) : Except Refusal (List Byte) :=
  let (_, _, pc) := getOp script
  let (_, _, pc) := getOp pc
  let (opcode, _, pc) := getOp pc
  if opcode ≠ OP_2 then .error .invalidAuxPowScript
  else
    let (_, vchAux, _) := getOp pc
    removeMergedMiningHeader vchAux

end Scripts

section Branches

variable (Hash : List Byte → Uint256)

/-- The loop of CBlock::GetMerkleBranch. The size halves each time, so `nSize` is fuel enough. -/
def branchLoop (vMerkleTree : List Uint256) : ℕ → ℕ → ℕ → ℕ → List Uint256
  | 0, _, _, _ => []
  | fuel + 1, nSize, j, nIndex =>
      if nSize > 1 then
        let i := min (nIndex ^^^ 1) (nSize - 1)
        vMerkleTree.getD (j + i) 0 ::
          branchLoop vMerkleTree fuel ((nSize + 1) / 2) (j + nSize) (nIndex / 2)
      else []

/-- CBlock::GetMerkleBranch, where BuildMerkleTree was called on the transactions last. -/
def getMerkleBranch (vtx : List CTransaction) (nIndex : ℕ) : List Uint256 :=
  branchLoop (merkleTree Hash vtx) vtx.length vtx.length 0 nIndex

/-- CMerkleTx::SetMerkleBranch of a block, without the depth that it returns. -/
def setMerkleBranch (aux : AuxFields) (block : CBlock) : AuxFields :=
  let aux := { aux with hashBlock := block.header.fields.getHash Hash }
  match block.vtx.findIdx? (· = aux.tx) with
  | none => { aux with vMerkleBranch := [], nIndex := BitVec.allOnes 32 }
  | some nIndex =>
      { aux with
        nIndex := BitVec.ofNat 32 nIndex
        vMerkleBranch := getMerkleBranch Hash block.vtx nIndex }

end Branches

section Work

variable (Hash : List Byte → Uint256)

/-- `pblock->vtx[0].vin[0].scriptSig`; none where there is no such input. -/
def coinbaseScript? (block : CBlock) : Option CScript :=
  block.vtx.head?.bind fun tx => tx.vin.head?.map CTxIn.scriptSig

/-- The block with another script in its coinbase, and the merkle root of that. -/
def setCoinbaseScript (block : CBlock) (script : CScript) : CBlock :=
  let vtx := block.vtx.modifyHead fun tx =>
    { tx with vin := tx.vin.modifyHead fun txin => { txin with scriptSig := script } }
  let fields := { block.header.fields with hashMerkleRoot := buildMerkleTree Hash vtx }
  ⟨.build fields block.header.auxpow, vtx⟩

def setTimeAndNonce (block : CBlock) (nTime nNonce : BitVec 32) : CBlock :=
  ⟨.build { block.header.fields with nTime := nTime, nNonce := nNonce } block.header.auxpow,
    block.vtx⟩

/-- What getworkaux does to a saved block that is handed back with a time and a nonce, and the
aux data that it finds there. -/
def restoreWork (block : CBlock) (nExtraNonce nTime nNonce : BitVec 32) :
    CBlock × Except Refusal (List Byte) :=
  let block := setTimeAndNonce block nTime nNonce
  match coinbaseScript? block with
  | none => (block, .error .fault)
  | some script =>
      match parseAux script with
      | .error e => (block, .error e)
      | .ok vchAux =>
          (setCoinbaseScript Hash block
            (makeCoinbaseWithAux block.header.fields.nBits nExtraNonce vchAux), .ok vchAux)

/-- The proof that getworkaux returns for a chain index and a chain merkle branch. -/
def auxProof (block : CBlock) (nChainIndex : BitVec 32) (vChainMerkleBranch : List Uint256) :
    CAuxPow :=
  let pow : AuxFields :=
    { tx := block.vtx.headD CTransaction.null
      hashBlock := 0
      vMerkleBranch := []
      nIndex := BitVec.allOnes 32
      vChainMerkleBranch := vChainMerkleBranch
      nChainIndex := nChainIndex }
  ⟨setMerkleBranch Hash pow block, block.header⟩

/-- IncrementExtraNonceWithAux: the block, and its two static variables after it. -/
def incrementExtraNonceWithAux (block : CBlock) (hashPrevBlock : Uint256)
    (nExtraNonce : BitVec 32) (vchAux : List Byte) : CBlock × Uint256 × BitVec 32 :=
  let nExtraNonce := if hashPrevBlock ≠ block.header.fields.hashPrevBlock then 0 else nExtraNonce
  let nExtraNonce := nExtraNonce + 1
  (setCoinbaseScript Hash block
    (makeCoinbaseWithAux block.header.fields.nBits nExtraNonce vchAux),
    block.header.fields.hashPrevBlock, nExtraNonce)

end Work

end UmbrellaLtc.MergedMining
