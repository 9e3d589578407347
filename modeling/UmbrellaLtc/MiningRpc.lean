import UmbrellaLtc.BlockTemplate
import UmbrellaLtc.MergedMining
import UmbrellaLtc.HeaderCoherence

/-!
The calls getworkaux and getauxblock of rpcmining.cpp, with the static variables that each keeps
between calls and the templates on the heap that these point to. A pointer is the number of an
allocation, and a deleted template is gone from the heap. What a call finds of the rest of the
node may be different each time.
-/

namespace UmbrellaLtc.MiningRpc

open Codec Transaction Header CheckBlock ConnectBlock BestChain MemPool Script BlockTemplate
  MergedMining
open EvalScript (getvch pushScript)
open OrphanBlocks (getMedianTimePast)
open HeaderCoherence (construct setAuxPow)

/-- What a call finds: whether there are peers, whether the download of the first blocks goes on
for another reason than that there is no best block, what blocks are made from, the clocks, the
key that GetReservedKey gives, and what ProcessBlock returns. The last is the word that
`new CAuxPow()` leaves uninitialised. -/
structure Moment (D M : Type) where
  fConnected : Bool
  fDownloading : Bool
  around : Around
  opts : BlockOptions
  io : BlockIo
  horizon : Kgw.Horizon
  clock : ℕ → ℤ
  pool : CTxMemPool
  chain : ChainState M
  nTransactionsUpdated : BitVec 32
  time : ℤ
  adjustedTime : ℤ
  reservedKey : Option (List Byte)
  fProcessed : Bool
  uninitialised : BitVec 32

/-- What comes of CreateNewBlockWithKey. -/
inductive Creation where
  | null
  | threw
  | made (template : CBlockTemplate)

namespace Moment

variable {D M : Type} (double : Double D) (heapOps : HeapOps D) (m : Moment D M)

/-- pars::coinbase::reward_collecting_pubkey. -/
def rewardCollectingPubkey : List Byte :=
  0x03 :: (leBytes 32 0x8fd4af3230e85df2ba018c57827df8ab04ed92ceff536bbec3aee6a51a563924).reverse

/-- `CScript() << pubkey << OP_CHECKSIG`. -/
def payToKey (pubkey : List Byte) : CScript :=
  BitVec.ofNat 8 pubkey.length :: pubkey ++ [BitVec.ofNat 8 OP_CHECKSIG]

def createNewBlockWithKey : Creation :=
  match m.reservedKey with
  | none => .null
  | some pubkey =>
      match (createNewBlock double heapOps m.around m.opts m.io m.horizon m.clock
        (payToKey rewardCollectingPubkey) (payToKey pubkey) m.pool m.chain).1 with
      | .error _ => .threw
      | .ok template => .made template

/-- The two checks that both calls begin with. -/
def refuses : Bool := !m.fConnected || (m.chain.pindexBest.isNone || m.fDownloading)

end Moment

/-- The heap as far as templates are on it. -/
abbrev Heap := ℕ → Option CBlockTemplate

/-- `delete` of each; none where one is not there. -/
def Heap.deleteAll : List ℕ → Heap → Option Heap
  | [], heap => some heap
  | p :: ps, heap =>
      match heap p with
      | none => none
      | some _ => deleteAll ps (Function.update heap p none)

/-- The static variables that both calls have. -/
structure Statics (V : Type) where
  mapNewBlock : Uint256 → Option V
  vNewBlockTemplate : List ℕ
  nTransactionsUpdatedLast : BitVec 32
  pindexPrev : Option Uint256
  nStart : ℤ
  pblocktemplate : Option ℕ

namespace Statics

variable {D M V : Type} (m : Moment D M) (st : Statics V)

def init : Statics V := ⟨fun _ => none, [], 0, none, 0, none⟩

def moved : Bool := st.pindexPrev != m.chain.pindexBest

/-- The condition for a new block, without the one on the aux data. -/
def due : Bool :=
  st.moved m ||
    (m.nTransactionsUpdated != st.nTransactionsUpdatedLast && decide (m.time - st.nStart > 60))

/-- Old blocks are deallocated when the tip has moved. None where a template is deleted that is
not there. -/
def deallocate (heap : Heap) : Option (Statics V × Heap) :=
  if st.moved m then
    (heap.deleteAll st.vNewBlockTemplate).map fun heap =>
      ({ st with mapNewBlock := fun _ => none, vNewBlockTemplate := [] }, heap)
  else some (st, heap)

/-- What is noted before the new block is made. -/
def note : Statics V :=
  { st with
    nTransactionsUpdatedLast := m.nTransactionsUpdated
    pindexPrev := m.chain.pindexBest
    nStart := m.time }

def save (key : Uint256) (v : V) : Statics V :=
  { st with mapNewBlock := Function.update st.mapNewBlock key (some v) }

end Statics

/-- The static variables of getworkaux, with the two of IncrementExtraNonceWithAux and of the
branch that hands work out. -/
structure WorkAux extends Statics (ℕ × BitVec 32) where
  vchAuxPrev : List Byte
  hashPrevBlock : Uint256
  nExtraNonce : BitVec 32

structure AuxBlock extends Statics ℕ where
  pblock : Option ℕ

/-- Both calls' static variables and the heap, with the number of the next allocation. -/
structure Mining where
  heap : Heap
  allocated : ℕ
  work : WorkAux
  aux : AuxBlock

def Mining.init : Mining := ⟨fun _ => none, 0, ⟨.init, [], 0, 0⟩, ⟨.init, none⟩⟩

/-- What a call does with work that is handed back, once it has the saved block. -/
inductive Taken where
  | malformed (e : Refusal)
  | proof (pow : CAuxPow)
  | data (vchAux : List Byte) (hash : Uint256)
  | checked (r : Except AuxPow.Fault Bool)
deriving DecidableEq

/-- How a call ends: with an exception, with the answer that the block is not known, with work
handed out from a template, with work taken back for one, or with an access to a template that is
not there. -/
inductive Outcome where
  | threw
  | unknown
  | gave (p : ℕ)
  | took (p : ℕ) (r : Taken)
  | fault
deriving DecidableEq

section Calls

variable {D M : Type} (double : Double D) (heapOps : HeapOps D) (m : Moment D M)

def setBlock (s : Mining) (p : ℕ) (template : CBlockTemplate) (block : CBlock) : Mining :=
  { s with heap := Function.update s.heap p (some { template with block := block }) }

/-- The rest of a call of getworkaux that asks for work, from the use of pblocktemplate on. -/
def giveWork (vchAux : List Byte) (s : Mining) : Mining × Outcome :=
  match s.work.pblocktemplate with
  | none => (s, .fault)
  | some p =>
      match s.heap p, s.work.pindexPrev with
      | some template, some pindexPrev =>
          let nTime := updateTime (getMedianTimePast m.chain pindexPrev) m.adjustedTime
          let block := setTimeAndNonce template.block nTime 0
          let (block, hashPrevBlock, nExtraNonce) := incrementExtraNonceWithAux m.around.env.Hash
            block s.work.hashPrevBlock s.work.nExtraNonce vchAux
          ({ setBlock s p template block with
              work := { s.work with
                toStatics :=
                  s.work.toStatics.save block.header.fields.hashMerkleRoot (p, nExtraNonce)
                hashPrevBlock := hashPrevBlock
                nExtraNonce := nExtraNonce } }, .gave p)
      | _, _ => (s, .fault)

/-- getworkaux <aux>, behind the checks. -/
def askWork (vchAux : List Byte) (s : Mining) : Mining × Outcome :=
  if s.work.toStatics.due m || vchAux != s.work.vchAuxPrev then
    match s.work.toStatics.deallocate m s.heap with
    | none => (s, .fault)
    | some (st, heap) =>
        let s := { s with
          heap := heap
          work := { s.work with toStatics := st.note m, vchAuxPrev := vchAux } }
        match m.createNewBlockWithKey double heapOps with
        | .threw => (s, .threw)
        | .null => ({ s with work := { s.work with pblocktemplate := none } }, .threw)
        | .made template =>
            giveWork m vchAux { s with
              heap := Function.update s.heap s.allocated (some template)
              allocated := s.allocated + 1
              work := { s.work with
                pblocktemplate := some s.allocated
                vNewBlockTemplate := s.work.vNewBlockTemplate ++ [s.allocated] } }
  else giveWork m vchAux s

/-- The rest of a call of getauxblock that asks for a block, from the use of pblock on. -/
def giveBlock (s : Mining) : Mining × Outcome :=
  match s.aux.pblock with
  | none => (s, .fault)
  | some p =>
      match s.heap p with
      | none => (s, .fault)
      | some _ => (s, .gave p)

/-- What getauxblock makes of a new block: `CScript() << nBits << CBigNum(1) << OP_2` in its
coinbase, and an empty proof. -/
def prepareBlock (template : CBlockTemplate) (pindexPrev : Uint256) : CBlock :=
  let nTime := updateTime (getMedianTimePast m.chain pindexPrev) m.adjustedTime
  let block := setTimeAndNonce template.block nTime 0
  let block := setCoinbaseScript m.around.env.Hash block
    (pushCompact block.header.fields.nBits ++ pushScript (getvch 1) ++ [BitVec.ofNat 8 OP_2])
  ⟨setAuxPow block.header
    (some ⟨AuxFields.fresh m.uninitialised, construct m.around.env.fTestNet⟩), block.vtx⟩

/-- getauxblock without parameters, behind the checks. -/
def askBlock (s : Mining) : Mining × Outcome :=
  if s.aux.toStatics.due m then
    match s.aux.toStatics.deallocate m s.heap with
    | none => (s, .fault)
    | some (st, heap) =>
        let s := { s with heap := heap, aux := { s.aux with toStatics := st.note m } }
        match m.createNewBlockWithKey double heapOps, s.aux.pindexPrev with
        | .threw, _ => (s, .threw)
        | .null, _ => ({ s with aux := { s.aux with pblocktemplate := none } }, .threw)
        | .made _, none => (s, .fault)
        | .made template, some pindexPrev =>
            let block := prepareBlock m template pindexPrev
            let key := block.header.fields.getHash m.around.env.Hash
            let st := (s.aux.toStatics.save key s.allocated)
            giveBlock { s with
              heap := Function.update s.heap s.allocated (some { template with block := block })
              allocated := s.allocated + 1
              aux :=
                { st with
                  pblocktemplate := some s.allocated
                  vNewBlockTemplate := st.vNewBlockTemplate ++ [s.allocated]
                  pblock := some s.allocated } }
  else giveBlock s

/-- `CBigNum().SetCompact(nBits).getuint256()`, which has no sign. -/
def hashTarget (nBits : BitVec 32) : Uint256 := BitVec.ofNat 256 (Compact.setCompact nBits).natAbs

/-- The tests of the work in CheckWork. A fault is one of CAuxPow::Check. -/
def underTarget (block : CBlock) : Except AuxPow.Fault Bool :=
  let env := m.around.env
  let fields := block.header.fields
  match block.header.auxpow with
  | none => .ok (decide (env.powHash fields ≤ hashTarget fields.nBits))
  | some pow =>
      match AuxPow.check env.Hash env.fTestNet pow (fields.getHash env.Hash)
          (BitVec.ofInt 32 fields.getChainID) with
      | .error (.fault f) => .error f
      | .error (.error _) => .ok false
      | .ok () => .ok (decide (env.powHash pow.parentBlockHeader.fields ≤ hashTarget fields.nBits))

/-- CheckWork, without what it prints: the work, then that the block is not stale, and then what
ProcessBlock returns. -/
def checkWork (block : CBlock) : Except AuxPow.Fault Bool :=
  (underTarget m block).map fun solved =>
    solved && block.header.fields.hashPrevBlock == m.chain.hashBestChain && m.fProcessed

/-- The loop that reverses the bytes of each word of the data. -/
def byteReverse : List Byte → List Byte
  | a :: b :: c :: d :: rest => d :: c :: b :: a :: byteReverse rest
  | bytes => bytes

/-- What getworkaux answers for a saved block that has been restored. -/
def answerWork (how : String) (chain : Option (BitVec 32 × List Uint256)) (block : CBlock)
    (vchAux : List Byte) : Taken :=
  match chain with
  | some (nChainIndex, vChainMerkleBranch) =>
      .proof (auxProof m.around.env.Hash block nChainIndex vChainMerkleBranch)
  | none =>
      if how = "submit" then .checked (checkWork m block)
      else .data vchAux (block.header.fields.getHash m.around.env.Hash)

/-- getworkaux <how> <data> with what follows, behind the checks. -/
def backWork (how : String) (data : List Byte) (chain : Option (BitVec 32 × List Uint256))
    (s : Mining) : Mining × Outcome :=
  if (how ≠ "submit" ∧ how ≠ "") ∨ data.length ≠ 128 then (s, .threw)
  else match HeaderFields.codec.read (byteReverse data) with
    -- does not happen, as 128 bytes are more than a header has
    | none => (s, .threw)
    | some (pdata, _) =>
        match s.work.mapNewBlock pdata.hashMerkleRoot with
        | none => (s, .unknown)
        | some (p, nExtraNonce) =>
            match s.heap p with
            | none => (s, .fault)
            | some template =>
                match restoreWork m.around.env.Hash template.block nExtraNonce pdata.nTime
                    pdata.nNonce with
                | (block, .error e) => (setBlock s p template block, .took p (.malformed e))
                | (block, .ok vchAux) =>
                    (setBlock s p template block, .took p (answerWork m how chain block vchAux))

/-- getauxblock <hash> <auxpow>, behind the checks. -/
def backBlock (hash : Uint256) (vchAuxPow : List Byte) (s : Mining) : Mining × Outcome :=
  match CAuxPow.unserialize vchAuxPow with
  | none => (s, .threw)
  | some (pow, _) =>
      match s.aux.mapNewBlock hash with
      | none => (s, .unknown)
      | some p =>
          match s.heap p with
          | none => (s, .fault)
          | some template =>
              let block := ⟨setAuxPow template.block.header (some pow), template.block.vtx⟩
              (setBlock s p template block, .took p (.checked (checkWork m block)))

inductive Call where
  | askWork (vchAux : List Byte)
  | backWork (how : String) (data : List Byte) (chain : Option (BitVec 32 × List Uint256))
  | askBlock
  | backBlock (hash : Uint256) (vchAuxPow : List Byte)

/-- A call behind the checks. -/
def act (c : Call) (s : Mining) : Mining × Outcome :=
  match c with
  | .askWork vchAux => askWork double heapOps m vchAux s
  | .backWork how data chain => backWork m how data chain s
  | .askBlock => askBlock double heapOps m s
  | .backBlock hash vchAuxPow => backBlock m hash vchAuxPow s

def call (c : Call) (s : Mining) : Mining × Outcome :=
  if m.refuses then (s, .threw) else act double heapOps m c s

end Calls

end UmbrellaLtc.MiningRpc
