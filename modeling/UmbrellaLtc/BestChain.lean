import UmbrellaLtc.ConnectBlock

/-!
The block index and the choice of the best chain, from main.cpp and txdb.cpp:
SetBestChain, InvalidBlockFound, ConnectBestBlock, AddToBlockIndex and
LoadBlockIndexDB, over the real ConnectBlock and DisconnectBlock. A pointer to
an index entry is the hash of the entry. What the disk, the databases and the
network do is asked of a world, at a clock that goes on with every question;
the memory pool is any type with the three operations that SetBestChain uses.
-/

namespace UmbrellaLtc.BestChain

open Codec Transaction Header Coins CoinsView CheckBlock ConnectBlock

/-- CBlockIndex. The position of the undo data is what is read there. -/
structure CBlockIndex where
  pprev : Option Uint256
  pnext : Option Uint256
  nHeight : ℕ
  nChainWork : Uint256
  nTx : BitVec 32
  nChainTx : BitVec 32
  nStatus : BitVec 32
  header : HeaderFields
  undo : Option CBlockUndo

/-- `CBlockIndex(block)`. -/
def CBlockIndex.ofHeader (header : HeaderFields) : CBlockIndex :=
  ⟨none, none, 0, 0, 0, 0, 0, header, none⟩

/-- `CBlockIndex()`. -/
def CBlockIndex.blank : CBlockIndex := .ofHeader ⟨0, 0, 0, 0, 0, 0⟩

/-- CBlockIndex::GetBlockWork, as a uint256. -/
def getBlockWork (nBits : BitVec 32) : Uint256 :=
  let bnTarget := Compact.setCompact nBits
  if bnTarget ≤ 0 then 0 else BitVec.ofInt 256 ((2 ^ 256 : ℤ).tdiv (bnTarget + 1))

def CBlockIndex.getBlockWork (e : CBlockIndex) : Uint256 := BestChain.getBlockWork e.header.nBits

def CBlockIndex.failed (e : CBlockIndex) : Bool := e.nStatus &&& BLOCK_FAILED_MASK != 0

/-- The record of an entry that does not change, CDiskBlockIndex. -/
structure CDiskBlockIndex where
  hashPrev : Uint256
  nHeight : ℕ
  nTx : BitVec 32
  header : HeaderFields

def CDiskBlockIndex.calcBlockHash (Hash : List Byte → Uint256) (d : CDiskBlockIndex) : Uint256 :=
  { d.header with hashPrevBlock := d.hashPrev }.getHash Hash

/-- `CDiskBlockIndex(pindex, auxpow)`. -/
def CBlockIndex.toDisk (e : CBlockIndex) : CDiskBlockIndex :=
  ⟨e.pprev.getD 0, e.nHeight, e.nTx, e.header⟩

/-- The record of an entry that does change. -/
structure StatusRecord where
  nStatus : BitVec 32
  undo : Option CBlockUndo

abbrev BlockMap := AList fun _ : Uint256 => CBlockIndex

/-- The block tree database. -/
structure CBlockTreeDB where
  diskIndex : AList fun _ : Uint256 => CDiskBlockIndex
  blockIndex : AList fun _ : Uint256 => StatusRecord
  bestInvalidWork : Uint256

/-- The operations of the memory pool. AcceptToMemoryPool reads through pcoinsTip, which
may fill its cache and changes nothing else. -/
structure PoolOps (M : Type) where
  empty : M
  accept : CTransaction → (tip : Cache CoinsDb) → M →
    Bool × M × { t : Cache CoinsDb // t.flat = tip.flat }
  remove : CTransaction → Bool → M → M
  removeConflicts : CTransaction → M → M

/-- pcoinsTip as it was, where nothing is read through it. -/
def unread (tip : Cache CoinsDb) : { t : Cache CoinsDb // t.flat = tip.flat } := ⟨tip, rfl⟩

structure ChainState (M : Type) where
  mapBlockIndex : BlockMap
  setBlockIndexValid : List Uint256
  pindexBest : Option Uint256
  hashBestChain : Uint256
  nBestHeight : ℤ
  nBestChainWork : Uint256
  nBestInvalidWork : Uint256
  pcoinsTip : Cache CoinsDb
  mempool : M
  blockTree : CBlockTreeDB
  clock : ℕ

/-- What is outside, at one moment: the environment of validation, the block files, the
writes that go with a connection, whether this is the initial download and how large
the coin cache may get, whether there is the disk space that is asked for at that moment, and
the two databases. -/
structure Io where
  env : Env
  readFile : Uint256 → Option CBlock
  block : BlockIo
  fIsInitialDownload : Bool
  nCoinCacheSize : ℕ
  checkDiskSpace : Bool
  sync : Status
  coinsWrite : Status
  indexWrite : Status

/-- The parameters of a node; the last is what comes of reading on behind the first record
of an entry that has no second one. -/
structure Node (M : Type) where
  Hash : List Byte → Uint256
  world : ℕ → Io
  pool : PoolOps M
  misread : Uint256 → Except Failure StatusRecord

/-- How a call ends when it does not return true: in one of the ways of validation, or
not at all, in the bound that the model sets to a loop. -/
inductive Fault where
  | failed (e : Failure)
  | noFuel
deriving DecidableEq

namespace ChainState

variable {M : Type}

/-- A node before anything has been stored. -/
def init (pool : PoolOps M) : ChainState M where
  mapBlockIndex := ∅
  setBlockIndexValid := []
  pindexBest := none
  hashBestChain := 0
  nBestHeight := -1
  nBestChainWork := 0
  nBestInvalidWork := 0
  pcoinsTip := .new ⟨∅, none⟩
  mempool := pool.empty
  blockTree := ⟨∅, ∅, 0⟩
  clock := 0

def entry (s : ChainState M) (h : Uint256) : Option CBlockIndex := s.mapBlockIndex.lookup h

def height (s : ChainState M) (h : Uint256) : ℕ := (s.entry h).elim 0 CBlockIndex.nHeight

def ptr (s : ChainState M) (h : Uint256) : BlockPtr := ⟨h, s.height h⟩

/-- The parts of an entry that ConnectBlock reads. -/
def pindex (s : ChainState M) (h : Uint256) (e : CBlockIndex) : PIndex :=
  ⟨⟨h, e.nHeight⟩, e.pprev.map s.ptr, e.header.nTime⟩

/-- An assignment to fields of an entry. -/
def modify (h : Uint256) (f : CBlockIndex → CBlockIndex) (s : ChainState M) : ChainState M :=
  match s.entry h with
  | none => s
  | some e => { s with mapBlockIndex := s.mapBlockIndex.insert h (f e) }

def setPnext (h : Uint256) (pnext : Option Uint256) (s : ChainState M) : ChainState M :=
  s.modify h fun e => { e with pnext := pnext }

/-- `setBlockIndexValid.insert`. -/
def insertValid (h : Uint256) (s : ChainState M) : ChainState M :=
  if h ∈ s.setBlockIndexValid then s
  else { s with setBlockIndexValid := h :: s.setBlockIndexValid }

/-- `setBlockIndexValid.erase`. -/
def eraseValid (h : Uint256) (s : ChainState M) : ChainState M :=
  { s with setBlockIndexValid := s.setBlockIndexValid.filter (· ≠ h) }

/-- CBlockIndexWorkComparator: `a` comes before `b`. -/
def workLess (s : ChainState M) (a b : Uint256) : Bool :=
  let work := fun h => (s.entry h).elim 0 CBlockIndex.nChainWork
  if work b < work a then false
  else if work a < work b then true
  else if a < b then false
  else decide (b < a)

/-- `*setBlockIndexValid.rbegin()`. -/
def lastValid (s : ChainState M) : Option Uint256 :=
  s.setBlockIndexValid.foldl
    (fun last h => last.elim (some h) fun m => some (if s.workLess m h then h else m)) none

/-- CBlockIndex::IsInMainChain. -/
def isInMainChain (s : ChainState M) (h : Uint256) : Bool :=
  (s.entry h).any (fun e => e.pnext.isSome) || s.pindexBest == some h

end ChainState

section Search

variable {M : Type} (s : ChainState M)

/-- `while (plonger->nHeight > pfork->nHeight)`. -/
def lower (nHeight : ℕ) : ℕ → Uint256 → Except Fault Uint256
  | 0, _ => .error .noFuel
  | fuel + 1, plonger =>
      match s.entry plonger with
      | none => .error (.failed .assertion)
      | some e =>
          if nHeight < e.nHeight then
            match e.pprev with
            | none => .error (.failed .assertion)
            | some pprev => lower nHeight fuel pprev
          else .ok plonger

/-- The loop that finds the fork. -/
def findFork : ℕ → Option Uint256 → Uint256 → Except Fault (Option Uint256)
  | 0, _, _ => .error .noFuel
  | _ + 1, none, _ => .ok none
  | fuel + 1, some pfork, plonger =>
      if pfork = plonger then .ok (some pfork)
      else match s.entry pfork with
        | none => .error (.failed .assertion)
        | some e => do
            let plonger ← lower s e.nHeight (s.height plonger + 1) plonger
            if pfork = plonger then .ok (some pfork)
            else match e.pprev with
              | none => .error (.failed .assertion)
              | some pprev => findFork fuel (some pprev) plonger

/-- `for (pindex = ...; pindex != pfork; pindex = pindex->pprev)`. -/
def branch (pfork : Option Uint256) : ℕ → Option Uint256 → Except Fault (List Uint256)
  | 0, _ => .error .noFuel
  | fuel + 1, pindex =>
      if pindex = pfork then .ok []
      else match pindex with
        | none => .error (.failed .assertion)
        | some h =>
            match s.entry h with
            | none => .error (.failed .assertion)
            | some e => do
                let rest ← branch pfork fuel e.pprev
                return h :: rest

/-- Enough for any walk along pprev. -/
def walkFuel (pindex : Option Uint256) : ℕ := pindex.elim 1 fun h => s.height h + 2

/-- vDisconnect and vConnect. -/
def findBranches (best : Option Uint256) (pindexNew : Uint256) :
    Except Fault (List Uint256 × List Uint256) := do
  let pfork ← findFork s (walkFuel s best) best pindexNew
  let vDisconnect ← branch s pfork (walkFuel s best) best
  let vConnect ← branch s pfork (walkFuel s (some pindexNew)) (some pindexNew)
  return (vDisconnect, vConnect.reverse)

end Search

/-- A chain state with the view that SetBestChain works on; pcoinsTip is its base
for as long. -/
structure Switch (M : Type) where
  chain : ChainState M
  view : Cache (Cache CoinsDb)

/-- Why the branches could not be switched, and the entry whose block was not connected. -/
structure SwitchFailure where
  failure : Failure
  pindex : Option Uint256

namespace Switch

variable {M : Type}

/-- The view goes out of scope. -/
def close (sw : Switch M) : ChainState M := { sw.chain with pcoinsTip := sw.view.base }

/-- `view.Flush()` and the end of its scope. -/
def flush (sw : Switch M) : ChainState M :=
  { sw.chain with pcoinsTip := (sw.view.flush true).2.base }

/-- The index data of an entry put back after a connection or a disconnection. -/
def putBack (h : Uint256) (diskStatus : BitVec 32) (ctx : BlockCtx (Cache (Cache CoinsDb)))
    (sw : Switch M) : Switch M :=
  let chain := sw.chain.modify h fun e => { e with nStatus := ctx.nStatus, undo := ctx.undo }
  let tree :=
    if ctx.diskStatus = diskStatus then chain.blockTree
    else { chain.blockTree with
      blockIndex := chain.blockTree.blockIndex.insert h ⟨ctx.diskStatus, ctx.undo⟩ }
  ⟨{ chain with blockTree := tree }, ctx.view⟩

end Switch

section Steps

variable {M : Type} (node : Node M)

def Node.env (io : Io) : Env := { io.env with Hash := node.Hash }

def ask : Prog (ChainState M) Failure Io :=
  .act fun s => (node.world s.clock, { s with clock := s.clock + 1 })

/-- Following a pointer. -/
def find (h : Uint256) : Prog (ChainState M) Failure CBlockIndex := fun s =>
  match s.entry h with
  | none => (.error .assertion, s)
  | some e => (.ok e, s)

/-- `pblocktree->WriteBlockIndex(*pindex)`. -/
def writeBlockIndex (h : Uint256) : Prog (ChainState M) Failure Unit := do
  let io ← ask node
  let _ ← .lift (writeBatch io.indexWrite)
  let e ← find h
  .act fun s =>
    ((), { s with blockTree := { s.blockTree with
      blockIndex := s.blockTree.blockIndex.insert h ⟨e.nStatus, e.undo⟩ } })

def writeBestInvalidWork (nChainWork : Uint256) : Prog (ChainState M) Failure Unit := do
  .act fun s => ((), { s with nBestInvalidWork := nChainWork })
  let io ← ask node
  let _ ← .lift (writeBatch io.indexWrite)
  .act fun s =>
    ((), { s with blockTree := { s.blockTree with bestInvalidWork := nChainWork } })

def moreInvalidWork (nChainWork : Uint256) : Prog (ChainState M) Failure Unit := do
  let nBestInvalidWork ← .act fun s => (s.nBestInvalidWork, s)
  if nBestInvalidWork < nChainWork then writeBestInvalidWork node nChainWork else pure ()

/-- InvalidChainFound. What it prints looks at pindexBest, which must not be NULL. -/
def invalidChainFound (h : Uint256) : Prog (ChainState M) Failure Unit := do
  let e ← find h
  moreInvalidWork node e.nChainWork
  let pindexBest ← .act fun s => (s.pindexBest, s)
  .check (pindexBest ≠ none) .assertion

/-- `return false`, as opposed to an exception or a crash. -/
def returnsFalse : Failure → Bool
  | .dos _ _ _ => true
  | .error _ => true
  | .abort _ => true
  | _ => false

/-- A call whose result is not looked at. -/
def ignoreResult (x : Prog (ChainState M) Fault Unit) : Prog (ChainState M) Fault Unit :=
  fun s =>
    match x s with
    | (.error (.failed e), s') => (if returnsFalse e then .ok () else .error (.failed e), s')
    | r => r

/-- A step without loops in a place where there may be some. -/
def plain {α : Type} (x : Prog (ChainState M) Failure α) : Prog (ChainState M) Fault α := fun s =>
  match x s with
  | (.ok a, s') => (.ok a, s')
  | (.error e, s') => (.error (.failed e), s')

def addStatus (bit : BitVec 32) (h : Uint256) : Prog (ChainState M) Failure Unit :=
  .act fun s => ((), s.modify h fun e => { e with nStatus := e.nStatus ||| bit })

/-- `if (pindex->pnext)`: reorganise away from the failed block. -/
def reorganiseAway (nested : Prog (ChainState M) Fault Unit) (h : Uint256) :
    Prog (ChainState M) Fault Unit := do
  let e ← plain (find h)
  if e.pnext ≠ none then ignoreResult nested else pure ()

/-- The part of InvalidBlockFound in front of the reorganisation. The entry leaves the set
after it has been written. -/
def markFailed (h : Uint256) : Prog (ChainState M) Failure Unit := do
  addStatus BLOCK_FAILED_VALID h
  writeBlockIndex node h
  .act fun s => ((), s.eraseValid h)
  invalidChainFound node h

/-- InvalidBlockFound, with the ConnectBestBlock that it may call. -/
def invalidBlockFound (nested : Prog (ChainState M) Fault Unit) (h : Uint256) :
    Prog (ChainState M) Fault Unit := do
  plain (markFailed node h)
  reorganiseAway nested h

/-- CBlock::ReadFromDisk(pindex); `none` when it returns false. -/
def readFromDisk (io : Io) (h : Uint256) (e : CBlockIndex) : Except Failure (Option CBlock) :=
  if e.nStatus &&& BLOCK_HAVE_DATA = 0 then .ok none
  else match io.readFile h with
    | none => .ok none
    | some block => do
        let pow ← checkProofOfWork (node.env io) block.header
        return if pow ∧ block.header.fields.getHash node.Hash = h then some block else none

/-- A step on the chain state while the view is open. -/
def onChain {α : Type} (x : Prog (ChainState M) Failure α) : Prog (Switch M) Failure α :=
  .zoom Switch.chain (fun sw chain => { sw with chain := chain }) x

/-- ConnectBlock or DisconnectBlock on the view and on one entry. -/
def onBlock {α : Type} (h : Uint256)
    (x : PIndex → Prog (BlockCtx (Cache (Cache CoinsDb))) Failure α) :
    Prog (Switch M) Failure α := fun sw =>
  match sw.chain.entry h with
  | none => (.error .assertion, sw)
  | some e =>
      let diskStatus := (sw.chain.blockTree.blockIndex.lookup h).elim 0 StatusRecord.nStatus
      let result := (x (sw.chain.pindex h e)).run ⟨sw.view, e.nStatus, e.undo, diskStatus⟩
      (result.1, sw.putBack h diskStatus result.2)

/-- The block of an entry with what is around, or the end of SetBestChain. -/
def openBlock (h : Uint256) : Prog (Switch M) Failure (Io × CBlockIndex × CBlock) := do
  let io ← onChain (ask node)
  let e ← onChain (find h)
  match ← .lift (readFromDisk node io h e) with
  | none => .fail (.abort "Failed to read block")
  | some block => return (io, e, block)

/-- The transactions of a disconnected block that go back to the memory pool. -/
def resurrected (env : Env) (nHeight : ℕ) (vtx : List CTransaction) : List CTransaction :=
  vtx.filter fun tx => !tx.isCoinBase && decide (env.totalBlocksEstimate < nHeight)

/-- DisconnectBlock is called without pfClean here, so that it returns whether the block
was clean. -/
def disconnectStep (vResurrect : List CTransaction) (h : Uint256) :
    Prog (Switch M) Failure (List CTransaction) := do
  let (io, e, block) ← openBlock node h
  let fClean ← onBlock h (disconnectBlock (node.env io) io.block block)
  .check (fClean = true) (.error "SetBestBlock() : DisconnectBlock %s failed")
  return vResurrect ++ resurrected io.env e.nHeight block.vtx

/-- The failure of one stage, with the entry it is about. -/
def blame {α : Type} (pindex : Option Uint256) (x : Prog (Switch M) Failure α) :
    Prog (Switch M) SwitchFailure α := fun sw =>
  match x sw with
  | (.ok a, sw') => (.ok a, sw')
  | (.error e, sw') => (.error ⟨e, pindex⟩, sw')

def connectStep (vDelete : List CTransaction) (h : Uint256) :
    Prog (Switch M) SwitchFailure (List CTransaction) := do
  let (io, _, block) ← blame none (openBlock node h)
  let _ ← blame (some h)
    (onBlock h fun pindex => connectBlock (node.env io) io.block block pindex false)
  return vDelete ++ block.vtx

/-- The two loops of SetBestChain over the blocks: vResurrect and vDelete. -/
def switchBranches (vDisconnect vConnect : List Uint256) :
    Prog (Switch M) SwitchFailure (List CTransaction × List CTransaction) := do
  let vResurrect ← blame none (vDisconnect.foldlM (disconnectStep node) [])
  let vDelete ← vConnect.foldlM (connectStep node) []
  return (vResurrect, vDelete)

/-- What SetBestChain does when a block cannot be read, disconnected or connected. -/
def giveUp (nested : Prog (ChainState M) Fault Unit) (pindexNew : Uint256) (f : SwitchFailure) :
    Prog (ChainState M) Fault Unit :=
  match f.pindex with
  | none => .fail (.failed f.failure)
  | some h =>
      if f.failure.isInvalid then do
        plain (invalidChainFound node pindexNew)
        invalidBlockFound node nested h
        .fail (.failed f.failure)
      else .fail (.failed f.failure)

/-- `pcoinsTip->Flush()`. -/
def flushCoins (io : Io) : Prog (ChainState M) Failure Unit := do
  let written ← .lift (writeBatch io.coinsWrite)
  let fOk ← .act fun s =>
    ((s.pcoinsTip.flush written).1, { s with pcoinsTip := (s.pcoinsTip.flush written).2 })
  .check (fOk = true) (.abort "Failed to write to coin database")

/-- The coins are written to disk, outside the initial download or when they are many. -/
def writeCoins (io : Io) : Prog (ChainState M) Failure Unit := do
  let nCacheSize ← .act fun s => (s.pcoinsTip.getCacheSize, s)
  if io.fIsInitialDownload = false ∨ nCacheSize > io.nCoinCacheSize then do
    -- CheckDiskSpace(100 * 2 * 2 * nCacheSize)
    .check (io.checkDiskSpace = true) (.error "")
    let _ ← .lift (writeBatch io.sync)
    flushCoins io
  else pure ()

/-- `if (pindex->pprev) pindex->pprev->pnext = ...` for the entries of a list. -/
def setLinks (value : Uint256 → Option Uint256) (l : List Uint256) (s : ChainState M) :
    ChainState M :=
  l.foldl (fun s h => ((s.entry h).bind CBlockIndex.pprev).elim s fun p => s.setPnext p (value h)) s

/-- Resurrected transactions go back to the pool, or are removed with what spends them. -/
def resurrect (s : ChainState M) (tx : CTransaction) : ChainState M :=
  match node.pool.accept tx s.pcoinsTip s.mempool with
  | (fAccepted, mempool, tip) =>
      { s with
        mempool := if fAccepted then mempool else node.pool.remove tx true mempool
        pcoinsTip := tip }

def removeConnected (s : ChainState M) (tx : CTransaction) : ChainState M :=
  { s with mempool := node.pool.removeConflicts tx (node.pool.remove tx false s.mempool) }

def setBest (pindexNew : Uint256) (s : ChainState M) : ChainState M :=
  { s with
    hashBestChain := pindexNew
    pindexBest := some pindexNew
    nBestHeight := s.height pindexNew
    nBestChainWork := (s.entry pindexNew).elim 0 CBlockIndex.nChainWork }

/-- The part of SetBestChain behind the flush of the view. -/
def commit (pindexNew : Uint256) (vDisconnect vConnect : List Uint256)
    (txs : List CTransaction × List CTransaction) : Prog (ChainState M) Failure Unit := do
  let io ← ask node
  writeCoins io
  .act fun s => ((), setLinks some vConnect (setLinks (fun _ => none) vDisconnect s))
  .act fun s => ((), txs.2.foldl (removeConnected node) (txs.1.foldl (resurrect node) s))
  .act fun s => ((), setBest pindexNew s)

/-- SetBestChain, with the ConnectBestBlock that InvalidBlockFound may call. -/
def setBestChain (nested : Prog (ChainState M) Fault Unit) (pindexNew : Uint256) :
    Prog (ChainState M) Fault Unit := fun s =>
  let (best, view) := (Cache.new s.pcoinsTip).getBestBlock
  match findBranches s (best.map BlockPtr.hash) pindexNew with
  | .error e => (.error e, Switch.close ⟨s, view⟩)
  | .ok (vDisconnect, vConnect) =>
      match (switchBranches node vDisconnect vConnect).run ⟨s, view⟩ with
      | (.error f, sw) => (giveUp node nested pindexNew f).run sw.close
      | (.ok txs, sw) => (plain (commit node pindexNew vDisconnect vConnect txs)).run sw.flush

/-- What the walk over the ancestors of a candidate finds: a failed one, with the entries
passed on the way to it, or the entries to attach. -/
inductive Ancestry where
  | failed (passed : List Uint256)
  | attach (vAttach : List Uint256)

/-- The inner loop of ConnectBestBlock. -/
def checkAncestry (s : ChainState M) (bestWork : Option Uint256) :
    ℕ → Uint256 → List Uint256 → List Uint256 → Except Fault Ancestry
  | 0, _, _, _ => .error .noFuel
  | fuel + 1, pindexTest, passed, vAttach =>
      match s.entry pindexTest with
      | none => .error (.failed .assertion)
      | some e =>
          if e.failed then .ok (.failed passed)
          else
            let vAttach :=
              if bestWork.all fun work => decide (work < e.nChainWork) then vAttach ++ [pindexTest]
              else vAttach
            match e.pprev with
            | none => .ok (.attach vAttach.reverse)
            | some pprev =>
                if e.pnext ≠ none then .ok (.attach vAttach.reverse)
                else checkAncestry s bestWork fuel pprev (passed ++ [pindexTest]) vAttach

/-- One descendant of a failed block: the entry leaves the set before it is written. -/
def markFailedChild (h : Uint256) : Prog (ChainState M) Failure Unit := do
  addStatus BLOCK_FAILED_CHILD h
  .act fun s => ((), s.eraseValid h)
  writeBlockIndex node h

def bestWork (s : ChainState M) : Option Uint256 :=
  s.pindexBest.map fun b => (s.entry b).elim 0 CBlockIndex.nChainWork

/-- `catch(std::runtime_error &e)`. -/
def catchRuntimeError (x : Prog (ChainState M) Fault Unit) : Prog (ChainState M) Fault Unit :=
  fun s =>
    match x s with
    | (.error (.failed (.runtimeError what)), s') =>
        (.error (.failed (.abort ("System error: " ++ what))), s')
    | r => r

/-- ConnectBestBlock; the fuel bounds the rounds of its loop and the calls within each
other. -/
def connectBestBlock : ℕ → Prog (ChainState M) Fault Unit
  | 0 => .fail .noFuel
  | fuel + 1 => fun s =>
      match s.lastValid with
      | none => (.ok (), s)
      | some pindexNewBest =>
          if s.pindexBest = some pindexNewBest ∨
              bestWork s = some ((s.entry pindexNewBest).elim 0 CBlockIndex.nChainWork) then
            (.ok (), s)
          else match checkAncestry s (bestWork s) (walkFuel s (some pindexNewBest)) pindexNewBest
              [] [] with
            | .error e => (.error e, s)
            | .ok (.failed passed) =>
                (do
                  plain (passed.forM (markFailedChild node))
                  plain (invalidChainFound node pindexNewBest)
                  connectBestBlock fuel : Prog (ChainState M) Fault Unit).run s
            | .ok (.attach vAttach) =>
                (vAttach.forM fun h =>
                  catchRuntimeError (setBestChain node (connectBestBlock fuel) h)).run s

/-- The entry that AddToBlockIndex makes, in the map that already has it. -/
def newEntry (map : BlockMap) (block : CBlock) : CBlockIndex :=
  let e := CBlockIndex.ofHeader block.header.fields
  let prev := map.lookup block.header.fields.hashPrevBlock
  let nTx := BitVec.ofNat 32 block.vtx.length
  { e with
    pprev := prev.map fun _ => block.header.fields.hashPrevBlock
    nHeight := prev.elim 0 fun p => p.nHeight + 1
    nTx := nTx
    nChainWork := prev.elim 0 CBlockIndex.nChainWork + e.getBlockWork
    nChainTx := prev.elim 0 CBlockIndex.nChainTx + nTx
    nStatus := BLOCK_VALID_TRANSACTIONS ||| BLOCK_HAVE_DATA }

def insertEntry (hash : Uint256) (block : CBlock) (s : ChainState M) : ChainState M :=
  let map := s.mapBlockIndex.insert hash (.ofHeader block.header.fields)
  { s with mapBlockIndex := map.insert hash (newEntry map block) }

def writeDiskBlockIndex (h : Uint256) : Prog (ChainState M) Failure Unit := do
  let io ← ask node
  let _ ← .lift (writeBatch io.indexWrite)
  let e ← find h
  .act fun s =>
    ((), { s with blockTree := { s.blockTree with
      diskIndex := s.blockTree.diskIndex.insert h e.toDisk } })

/-- AddToBlockIndex as far as ConnectBestBlock. -/
def storeEntry (block : CBlock) : Prog (ChainState M) Failure Unit := do
  let hash := block.header.fields.getHash node.Hash
  let known ← .act fun s => ((s.entry hash).isSome, s)
  .check (known = false) (.dos 0 "AddToBlockIndex() : %s already exists" false)
  .act fun s => ((), (insertEntry hash block s).insertValid hash)
  writeDiskBlockIndex node hash
  writeBlockIndex node hash

/-- CBlock::AddToBlockIndex. -/
def addToBlockIndex (fuel : ℕ) (block : CBlock) : Prog (ChainState M) Fault Unit := do
  plain (storeEntry node block)
  connectBestBlock node fuel

end Steps

section Load

variable {M : Type} (node : Node M)

/-- InsertBlockIndex: the entry under a hash is made when there is none. -/
def insertBlockIndex (map : BlockMap) (h : Uint256) : BlockMap :=
  if h = 0 ∨ (map.lookup h).isSome then map else map.insert h .blank

/-- The record behind the first one of an entry. -/
def readMutable (tree : CBlockTreeDB) (h : Uint256) : Except Failure StatusRecord :=
  match tree.blockIndex.lookup h with
  | some status => .ok status
  | none => node.misread h

/-- One pair of records of LoadBlockIndexGuts. -/
def loadEntry (tree : CBlockTreeDB) (map : BlockMap)
    (record : Sigma fun _ : Uint256 => CDiskBlockIndex) : Except Failure BlockMap :=
  let h := record.1
  let d := record.2
  if h = 0 ∨ d.calcBlockHash node.Hash ≠ h then .error .assertion
  else do
    let map := insertBlockIndex (insertBlockIndex map h) d.hashPrev
    let status ← readMutable node tree h
    return map.insert h
      { (map.lookup h).getD .blank with
        pprev := if d.hashPrev = 0 then none else some d.hashPrev
        nHeight := d.nHeight
        nTx := d.nTx
        nStatus := status.nStatus
        header := d.header
        undo := status.undo }

/-- CBlockTreeDB::LoadBlockIndexGuts. -/
def loadBlockIndexGuts (tree : CBlockTreeDB) : Except Failure BlockMap :=
  tree.diskIndex.entries.foldlM (loadEntry node tree) ∅

/-- One entry of the loop over vSortedByHeight. -/
def loadChainWork (s : ChainState M) (h : Uint256) : ChainState M :=
  match s.entry h with
  | none => s
  | some e =>
      let prev := e.pprev.bind s.entry
      let s := s.modify h fun e =>
        { e with
          nChainWork := prev.elim 0 CBlockIndex.nChainWork + e.getBlockWork
          nChainTx := prev.elim 0 CBlockIndex.nChainTx + e.nTx }
      if BLOCK_VALID_TRANSACTIONS ≤ e.nStatus &&& BLOCK_VALID_MASK ∧ e.failed = false then
        s.insertValid h
      else s

def sortedByHeight (s : ChainState M) : List Uint256 :=
  s.mapBlockIndex.keys.mergeSort fun a b => s.height a ≤ s.height b

/-- `while(pindex != NULL && pindex->pprev != NULL)`. -/
def linkBestChain : ℕ → Uint256 → ChainState M → Except Fault (ChainState M)
  | 0, _, _ => .error .noFuel
  | fuel + 1, h, s =>
      match (s.entry h).bind CBlockIndex.pprev with
      | none => .ok s
      | some pprev => linkBestChain fuel pprev (s.setPnext pprev (some h))

/-- The best block of the coins database: its hash is looked up in mapBlockIndex. -/
def resolveBest (s : ChainState M) (best : Option BlockPtr) : Option BlockPtr :=
  best.bind fun p => (s.entry p.hash).map fun e => ⟨p.hash, e.nHeight⟩

/-- The part of LoadBlockIndexDB that fills the block index and the set. -/
def loadIndex (s : ChainState M) (map : BlockMap) : ChainState M :=
  let s := { s with mapBlockIndex := map }
  let s := (sortedByHeight s).foldl loadChainWork s
  { s with nBestInvalidWork := s.blockTree.bestInvalidWork }

/-- The part of LoadBlockIndexDB that reads the best block and sets the links. -/
def loadBest (s : ChainState M) : Except Fault (ChainState M) :=
  let best := resolveBest s s.pcoinsTip.base.best
  let s := { s with pcoinsTip := .new { s.pcoinsTip.base with best := best } }
  match best with
  | none => .ok s
  | some p => linkBestChain (walkFuel s (some p.hash)) p.hash (setBest p.hash s)

/-- LoadBlockIndexDB, on a node that has nothing in memory. -/
def loadBlockIndexDB (s : ChainState M) : Except Fault (ChainState M) :=
  match loadBlockIndexGuts node s.blockTree with
  | .error e => .error (.failed e)
  | .ok map => loadBest (loadIndex s map)

/-- What is left of a node when it stops: its databases. -/
def stopped (s : ChainState M) : ChainState M :=
  { ChainState.init node.pool with
    pcoinsTip := .new s.pcoinsTip.base
    blockTree := s.blockTree
    clock := s.clock }

/-- The end of a node; when it is shut down in order the coins are flushed. -/
def shutdown (fShutdown : Bool) : Prog (ChainState M) Failure Unit := do
  let io ← ask node
  if fShutdown then flushCoins io else pure ()

/-- The start of a node on the databases that another one has left. -/
def start : Prog (ChainState M) Fault Unit := fun s =>
  match loadBlockIndexDB node (stopped node s) with
  | .error e => (.error e, s)
  | .ok loaded => (.ok (), loaded)

def restart (fShutdown : Bool) : Prog (ChainState M) Fault Unit := do
  plain (shutdown node fShutdown)
  start node

end Load

end UmbrellaLtc.BestChain
