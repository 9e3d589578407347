import UmbrellaLtc.CheckBlock
import UmbrellaLtc.CoinsView

/-!
ConnectBlock and DisconnectBlock of main.cpp, with the functions of CTransaction
that they call. The code is written against the methods of a coins cache, and
runs on any of them: a stack of caches over the database, or a flat view. The
texts of the failures are the format strings of the source.
-/

namespace UmbrellaLtc.ConnectBlock

open Codec Transaction Header Coins CoinsView CheckBlock Script

def COINBASE_MATURITY : ℤ := 100

def BLOCK_VALID_TRANSACTIONS : BitVec 32 := 3
def BLOCK_VALID_SCRIPTS : BitVec 32 := 5
def BLOCK_VALID_MASK : BitVec 32 := 7
def BLOCK_HAVE_DATA : BitVec 32 := 8
def BLOCK_HAVE_UNDO : BitVec 32 := 16
def BLOCK_FAILED_VALID : BitVec 32 := 32
def BLOCK_FAILED_CHILD : BitVec 32 := 64
def BLOCK_FAILED_MASK : BitVec 32 := 96

def SCRIPT_VERIFY_NONE : BitVec 32 := 0
def SCRIPT_VERIFY_P2SH : BitVec 32 := 1
def SCRIPT_VERIFY_STRICTENC : BitVec 32 := 2
def SCRIPT_VERIFY_NOCACHE : BitVec 32 := 4

/-- CScriptCheck. -/
structure CScriptCheck where
  scriptPubKey : CScript
  ptxTo : CTransaction
  nIn : ℕ
  nFlags : BitVec 32

def CScriptCheck.verify (env : Env) (c : CScriptCheck) : Bool :=
  env.verifyScript c.scriptPubKey c.ptxTo c.nIn c.nFlags

section Transactions

variable {κ : Type} [CoinsCache κ]

def fetchCoins (txid : Uint256) : Prog κ Failure (Option CCoins) :=
  .act (CoinsCache.fetchCoins txid)

def haveCoins (txid : Uint256) : Prog κ Failure Bool := do
  let found ← fetchCoins txid
  return found.isSome

/-- GetCoins, the one that returns a reference and asserts that there is an entry. -/
def getCoins (txid : Uint256) : Prog κ Failure CCoins := do
  match ← fetchCoins txid with
  | some coins => pure coins
  | none => .fail .assertion

def setCoins (txid : Uint256) (coins : CCoins) : Prog κ Failure Unit :=
  .act fun k => ((), CoinsCache.setCoins txid coins k)

def getBestBlock : Prog κ Failure (Option BlockPtr) := .act CoinsCache.getBestBlock

def setBestBlock (pindex : BlockPtr) : Prog κ Failure Unit :=
  .act fun k => ((), CoinsCache.setBestBlock pindex k)

/-- CTransaction::GetOutputFor. -/
def getOutputFor (txin : CTxIn) : Prog κ Failure CTxOut := do
  let coins ← getCoins txin.prevout.hash
  match coins.output txin.prevout.n.toNat with
  | some txout => pure txout
  | none => .fail .assertion

def availableInput (txin : CTxIn) : Prog κ Failure Bool := do
  let coins ← getCoins txin.prevout.hash
  return coins.isAvailable txin.prevout.n.toNat

/-- CTransaction::HaveInputs. -/
def haveInputs (tx : CTransaction) : Prog κ Failure Bool :=
  if tx.isCoinBase then pure true
  else do
    let known ← tx.vin.allM fun txin => haveCoins txin.prevout.hash
    if known then tx.vin.allM availableInput else pure false

def valueInStep (nResult : ℤ) (txin : CTxIn) : Prog κ Failure ℤ := do
  let txout ← getOutputFor txin
  .lift (int64 (nResult + txout.value))

/-- CTransaction::GetValueIn. -/
def getValueIn (tx : CTransaction) : Prog κ Failure ℤ :=
  if tx.isCoinBase then pure 0 else tx.vin.foldlM valueInStep 0

def p2shStep (nSigOps : BitVec 32) (txin : CTxIn) : Prog κ Failure (BitVec 32) := do
  let prevout ← getOutputFor txin
  return if isPayToScriptHash prevout.scriptPubKey then
    nSigOps + getSigOpCountP2SH prevout.scriptPubKey txin.scriptSig else nSigOps

/-- CTransaction::GetP2SHSigOpCount. -/
def getP2SHSigOpCount (tx : CTransaction) : Prog κ Failure (BitVec 32) :=
  if tx.isCoinBase then pure 0 else tx.vin.foldlM p2shStep 0

/-- One round of the first loop of CheckInputs. -/
def checkInputStep (nSpendHeight : ℕ) (nValueIn : ℤ) (txin : CTxIn) : Prog κ Failure ℤ := do
  let coins ← getCoins txin.prevout.hash
  .check (coins.fCoinBase = true → COINBASE_MATURITY ≤ (nSpendHeight : ℤ) - coins.nHeight)
    (.dos 0 "CheckInputs() : tried to spend coinbase at depth %d" false)
  match coins.vout[txin.prevout.n.toNat]? with
  | none => .fail .assertion
  | some txout => do
    let nValueIn ← .lift (int64 (nValueIn + txout.value))
    .check (moneyRange txout.value = true ∧ moneyRange nValueIn = true)
      (.dos 100 "CheckInputs() : txin values out of range" false)
    return nValueIn

/-- One round of the second loop of CheckInputs: queue the check, or run it and, when
it fails, find out whether only the encoding is to blame. -/
def scriptCheckStep (env : Env) (tx : CTransaction) (flags : BitVec 32) (fQueue : Bool)
    (vChecks : List CScriptCheck) (input : CTxIn × ℕ) : Prog κ Failure (List CScriptCheck) := do
  let coins ← getCoins input.1.prevout.hash
  match coins.vout[input.1.prevout.n.toNat]? with
  | none => .fail .assertion
  | some txout =>
    let script : CScriptCheck := ⟨txout.scriptPubKey, tx, input.2, flags⟩
    if fQueue then pure (vChecks ++ [script])
    else if script.verify env then pure vChecks
    else if flags &&& SCRIPT_VERIFY_STRICTENC ≠ 0 ∧
        CScriptCheck.verify env { script with nFlags := flags &&& ~~~SCRIPT_VERIFY_STRICTENC } then
      .fail (.dos 0 "" false)
    else .fail (.dos 100 "" false)

/-- The script checks that CheckInputs queues, or runs. -/
def scriptChecks (env : Env) (tx : CTransaction) (fScriptChecks : Bool) (flags : BitVec 32)
    (fQueue : Bool) : Prog κ Failure (List CScriptCheck) :=
  if fScriptChecks then tx.vin.zipIdx.foldlM (scriptCheckStep env tx flags fQueue) []
  else pure []

/-- The part of CheckInputs behind HaveInputs: maturity, amounts and the fee. -/
def checkAmounts (tx : CTransaction) : Prog κ Failure Unit := do
  match ← getBestBlock with
  | none => .fail .assertion
  | some best => do
    let nValueIn ← tx.vin.foldlM (checkInputStep (best.nHeight + 1)) 0
    let nValueOut ← .lift (getValueOut tx)
    .check (nValueOut ≤ nValueIn) (.dos 100 "CheckInputs() : %s value in < value out" false)
    let nTxFee ← .lift (int64 (nValueIn - nValueOut))
    .check (0 ≤ nTxFee) (.dos 100 "CheckInputs() : %s nTxFee < 0" false)
    .check (moneyRange nTxFee = true) (.dos 100 "CheckInputs() : nFees out of range" false)

/-- CTransaction::CheckInputs; the result is what it adds to pvChecks. -/
def checkInputs (env : Env) (tx : CTransaction) (fScriptChecks : Bool) (flags : BitVec 32)
    (fQueue : Bool) : Prog κ Failure (List CScriptCheck) :=
  if tx.isCoinBase then pure []
  else do
    let available ← haveInputs tx
    .check (available = true) (.dos 0 "CheckInputs() : %s inputs unavailable" false)
    checkAmounts tx
    scriptChecks env tx fScriptChecks flags fQueue

def spendStep (vprevout : List CTxInUndo) (txin : CTxIn) : Prog κ Failure (List CTxInUndo) := do
  let coins ← getCoins txin.prevout.hash
  match coins.spend txin.prevout.n.toNat with
  | none => .fail .assertion
  | some (undo, coins) => do
    setCoins txin.prevout.hash coins
    return vprevout ++ [undo]

def spendInputs (tx : CTransaction) : Prog κ Failure (List CTxInUndo) :=
  if tx.isCoinBase then pure [] else tx.vin.foldlM spendStep []

/-- CTransaction::UpdateCoins. -/
def updateCoins (tx : CTransaction) (nHeight : ℕ) (txhash : Uint256) : Prog κ Failure CTxUndo := do
  let vprevout ← spendInputs tx
  setCoins txhash (CCoins.ofTx tx nHeight)
  return ⟨vprevout⟩

end Transactions

/-- The fields of a CBlockIndex that do not change. -/
structure PIndex where
  ptr : BlockPtr
  pprev : Option BlockPtr
  nTime : BitVec 32

/-- What one block's connection depends on besides the view. -/
structure ConnectPars where
  nHeight : ℕ
  fStrictPayToScriptHash : Bool
  fScriptChecks : Bool
  flags : BitVec 32

/-- The running sums of ConnectBlock's loop. -/
structure Tally where
  nFees : ℤ
  nSigOps : BitVec 32
  vtxundo : List CTxUndo
  vChecks : List CScriptCheck

section Block

variable {κ : Type} [CoinsCache κ]

def notOverwritten (txid : Uint256) : Prog κ Failure Bool := do
  let known ← haveCoins txid
  if known then do
    let coins ← getCoins txid
    return coins.isPruned
  else pure true

/-- BIP30: no transaction of the block may overwrite an unspent one. -/
def enforceBIP30 (env : Env) (vtx : List CTransaction) : Prog κ Failure Unit :=
  vtx.foldlM (fun _ tx => do
    let fine ← notOverwritten (tx.getHash env.Hash)
    .check (fine = true) (.dos 100 "ConnectBlock() : tried to overwrite transaction" false)) ()

def tallyP2SH (fStrictPayToScriptHash : Bool) (nSigOps : BitVec 32) (tx : CTransaction) :
    Prog κ Failure (BitVec 32) :=
  if fStrictPayToScriptHash then do
    let n ← getP2SHSigOpCount tx
    .check ((nSigOps + n).toNat ≤ MAX_BLOCK_SIGOPS)
      (.dos 100 "ConnectBlock() : too many sigops" false)
    return nSigOps + n
  else pure nSigOps

/-- The branch of the loop for a transaction that is not a coinbase. The fee is
added before CheckInputs has looked at the amounts. -/
def tallyInputs (env : Env) (pars : ConnectPars) (t : Tally) (tx : CTransaction) :
    Prog κ Failure Tally := do
  let available ← haveInputs tx
  .check (available = true) (.dos 100 "ConnectBlock() : inputs missing/spent" false)
  let nSigOps ← tallyP2SH pars.fStrictPayToScriptHash t.nSigOps tx
  let nValueIn ← getValueIn tx
  let nValueOut ← .lift (getValueOut tx)
  let nTxFee ← .lift (int64 (nValueIn - nValueOut))
  let nFees ← .lift (int64 (t.nFees + nTxFee))
  let vChecks ← checkInputs env tx pars.fScriptChecks pars.flags env.fScriptCheckThreads
  return { t with nFees := nFees, nSigOps := nSigOps, vChecks := t.vChecks ++ vChecks }

/-- One round of ConnectBlock's loop over the transactions. -/
def connectTx (env : Env) (pars : ConnectPars) (t : Tally) (tx : CTransaction) :
    Prog κ Failure Tally := do
  let nSigOps := t.nSigOps + getLegacySigOpCount tx
  .check (nSigOps.toNat ≤ MAX_BLOCK_SIGOPS) (.dos 100 "ConnectBlock() : too many sigops" false)
  if tx.isCoinBase then do
    let _ ← updateCoins tx pars.nHeight (tx.getHash env.Hash)
    return { t with nSigOps := nSigOps }
  else do
    let t ← tallyInputs env pars { t with nSigOps := nSigOps } tx
    let txundo ← updateCoins tx pars.nHeight (tx.getHash env.Hash)
    return { t with vtxundo := t.vtxundo ++ [txundo] }

/-- The loop, the limit on the coinbase, and the result of the queued checks. -/
def connectTxs (env : Env) (pars : ConnectPars) (vtx : List CTransaction) :
    Prog κ Failure CBlockUndo := do
  enforceBIP30 env vtx
  let t ← vtx.foldlM (connectTx env pars) ⟨0, 0, [], []⟩
  match vtx with
  | [] => .fail .assertion
  | coinbase :: _ => do
    let nValueOut ← .lift (getValueOut coinbase)
    let nLimit ← .lift (getBlockValue pars.nHeight t.nFees)
    .check (nValueOut ≤ nLimit)
      (.dos 100 "ConnectBlock() : coinbase pays too much (actual=%d vs limit=%d)" false)
    .check (∀ c ∈ t.vChecks, c.verify env = true) (.dos 100 "" false)
    return ⟨t.vtxundo⟩

/-- 1 October 2012. -/
def nBIP16SwitchTime : ℕ := 1349049600

def connectPars (env : Env) (pindex : PIndex) : ConnectPars :=
  let fStrictPayToScriptHash := decide (nBIP16SwitchTime ≤ pindex.nTime.toNat)
  { nHeight := pindex.ptr.nHeight
    fStrictPayToScriptHash := fStrictPayToScriptHash
    fScriptChecks := decide (env.totalBlocksEstimate ≤ pindex.ptr.nHeight)
    flags := SCRIPT_VERIFY_NOCACHE |||
      (if fStrictPayToScriptHash then SCRIPT_VERIFY_P2SH else SCRIPT_VERIFY_NONE) }

/-- ConnectBlock up to `if (fJustCheck)`: the undo data, or `none` for the genesis
block, whose transactions are not connected. -/
def connectView (env : Env) (block : CBlock) (pindex : PIndex) (fJustCheck : Bool) :
    Prog κ Failure (Option CBlockUndo) := do
  .lift (checkBlock env block (!fJustCheck) (!fJustCheck))
  let best ← getBestBlock
  .check (pindex.pprev = best) .assertion
  if block.header.fields.getHash env.Hash = env.genesisHash then do
    setBestBlock pindex.ptr
    return none
  else do
    let blockundo ← connectTxs env (connectPars env pindex) block.vtx
    return some blockundo

end Block

/-- leveldb::Status. -/
inductive Status where
  | ok
  | corruption
  | ioError
  | notFound
  | other
deriving DecidableEq

/-- HandleError of leveldb.cpp: every status but ok is thrown. -/
def handleError : Status → Except Failure Unit
  | .ok => .ok ()
  | .corruption => .error (.runtimeError "Database corrupted")
  | .ioError => .error (.runtimeError "Database I/O error")
  | .notFound => .error (.runtimeError "Database entry missing")
  | .other => .error (.runtimeError "Unknown database error")

/-- CLevelDB::WriteBatch on the status that the database gives. -/
def writeBatch (status : Status) : Except Failure Bool := do
  handleError status
  return status == .ok

/-- How the writes of one connection go, whether there is a transaction index, and whether the
undo data of a block can be read from disk. -/
structure BlockIo where
  findUndoPos : Bool
  writeUndo : Bool
  writeBlockIndex : Status
  fTxIndex : Bool
  writeTxIndex : Status
  readUndo : Bool

/-- A view together with the parts of the block's index entry that ConnectBlock
changes: its status, the undo data on disk, and the status in the block tree
database. -/
structure BlockCtx (κ : Type) where
  view : κ
  nStatus : BitVec 32
  undo : Option CBlockUndo
  diskStatus : BitVec 32

namespace BlockCtx

variable {κ : Type}

def setView (s : BlockCtx κ) (view : κ) : BlockCtx κ := { s with view := view }

end BlockCtx

/-- `GetUndoPos().IsNull()`. -/
def undoPosIsNull (nStatus : BitVec 32) : Bool := nStatus &&& BLOCK_HAVE_UNDO == 0

section Index

variable {κ : Type} [CoinsCache κ]

def onView {α : Type} (x : Prog κ Failure α) : Prog (BlockCtx κ) Failure α :=
  .zoom BlockCtx.view BlockCtx.setView x

def readStatus : Prog (BlockCtx κ) Failure (BitVec 32) := .act fun s => (s.nStatus, s)

def readUndo (io : BlockIo) : Prog (BlockCtx κ) Failure (Option CBlockUndo) :=
  .act fun s => (if io.readUndo then s.undo else none, s)

/-- The undo data is written only once in the life of a block. -/
def storeUndo (io : BlockIo) (pprev : Option BlockPtr) (blockundo : CBlockUndo) (fNull : Bool) :
    Prog (BlockCtx κ) Failure Unit :=
  if fNull then do
    .check (io.findUndoPos = true) (.error "ConnectBlock() : FindUndoPos failed")
    .check (pprev ≠ none) .assertion
    .check (io.writeUndo = true) (.abort "Failed to write undo data")
    .act fun s =>
      ((), { s with undo := some blockundo, nStatus := s.nStatus ||| BLOCK_HAVE_UNDO })
  else pure ()

/-- The block `if (pindex->GetUndoPos().IsNull() || ...)`. -/
def writeUndo (io : BlockIo) (pprev : Option BlockPtr) (blockundo : CBlockUndo) :
    Prog (BlockCtx κ) Failure Unit := do
  let nStatus ← readStatus
  if undoPosIsNull nStatus = true ∨ nStatus &&& BLOCK_VALID_MASK < BLOCK_VALID_SCRIPTS then do
    storeUndo io pprev blockundo (undoPosIsNull nStatus)
    .act fun s =>
      ((), { s with nStatus := s.nStatus &&& ~~~BLOCK_VALID_MASK ||| BLOCK_VALID_SCRIPTS })
    let written ← .lift (writeBatch io.writeBlockIndex)
    .check (written = true) (.abort "Failed to write block index")
    .act fun s => ((), { s with diskStatus := s.nStatus })
  else pure ()

def writeTxIndex (io : BlockIo) : Prog (BlockCtx κ) Failure Unit :=
  if io.fTxIndex then do
    let written ← .lift (writeBatch io.writeTxIndex)
    .check (written = true) (.abort "Failed to write transaction index")
  else pure ()

/-- CBlock::ConnectBlock; the result is the undo data it has built. -/
def connectBlock (env : Env) (io : BlockIo) (block : CBlock) (pindex : PIndex) (fJustCheck : Bool) :
    Prog (BlockCtx κ) Failure (Option CBlockUndo) := do
  match ← onView (connectView env block pindex fJustCheck) with
  | none => return none
  | some blockundo =>
    if fJustCheck then return some blockundo
    else do
      writeUndo io pindex.pprev blockundo
      writeTxIndex io
      onView (setBestBlock pindex.ptr)
      return some blockundo

/-- Put the output of one input back, in the inner loop of DisconnectBlock. -/
def restoreStep (fClean : Bool) (input : CTxIn × CTxInUndo) : Prog κ Failure Bool := do
  let out := input.1.prevout
  let found ← fetchCoins out.hash
  let coins := found.getD CCoins.empty
  setCoins out.hash (restore coins input.2 out.n.toNat).2
  return fClean && (restore coins input.2 out.n.toNat).1

def restoreInputs (fClean : Bool) (tx : CTransaction) (txundo : CTxUndo) :
    Prog κ Failure Bool := do
  .check (txundo.vprevout.length = tx.vin.length)
    (.error "DisconnectBlock() : transaction and undo data inconsistent")
  (tx.vin.zip txundo.vprevout).reverse.foldlM restoreStep fClean

/-- `if (!view.HaveCoins(hash))`: the entry is made, and the undo is not clean. -/
def ensureCoins (txid : Uint256) : Prog κ Failure Bool := do
  let known ← haveCoins txid
  if known then pure true
  else do
    setCoins txid CCoins.empty
    return false

/-- One round of the loop of DisconnectBlock; the coinbase has no undo record. -/
def disconnectTx (env : Env) (nHeight : ℕ) (fClean : Bool)
    (entry : CTransaction × Option CTxUndo) : Prog κ Failure Bool := do
  let tx := entry.1
  let hash := tx.getHash env.Hash
  let known ← ensureCoins hash
  let outs ← getCoins hash
  let outsBlock := CCoins.ofTx tx nHeight
  let outs :=
    if outsBlock.nVersion.toInt < 0 then { outs with nVersion := outsBlock.nVersion } else outs
  let fClean := fClean && known && decide (outs = outsBlock)
  setCoins hash CCoins.empty
  match entry.2 with
  | none => return fClean
  | some txundo => restoreInputs fClean tx txundo

/-- The transactions of a block beside their undo records. -/
def undoEntries (vtx : List CTransaction) (vtxundo : List CTxUndo) :
    List (CTransaction × Option CTxUndo) :=
  vtx.zip (none :: vtxundo.map some)

def disconnectTxs (env : Env) (nHeight : ℕ) (vtx : List CTransaction) (blockUndo : CBlockUndo) :
    Prog κ Failure Bool := do
  .check (blockUndo.vtxundo.length + 1 = vtx.length)
    (.error "DisconnectBlock() : block and undo data inconsistent")
  (undoEntries vtx blockUndo.vtxundo).reverse.foldlM (disconnectTx env nHeight) true

/-- CBlock::DisconnectBlock; the result is what is stored in *pfClean. -/
def disconnectBlock (env : Env) (io : BlockIo) (block : CBlock) (pindex : PIndex) :
    Prog (BlockCtx κ) Failure Bool := do
  let best ← onView getBestBlock
  .check (some pindex.ptr = best) .assertion
  let nStatus ← readStatus
  .check (undoPosIsNull nStatus = false) (.error "DisconnectBlock() : no undo data available")
  let undo ← readUndo io
  match pindex.pprev, undo with
  | none, _ => .fail .assertion
  | some _, none => .fail (.error "DisconnectBlock() : failure reading undo data")
  | some pprev, some blockUndo => do
    let fClean ← onView (disconnectTxs env pindex.ptr.nHeight block.vtx blockUndo)
    onView (setBestBlock pprev)
    return fClean

end Index

end UmbrellaLtc.ConnectBlock
