import UmbrellaLtc.BestChain

/-!
The memory pool of main.cpp: the two maps of CTxMemPool, accept with every check
it makes, and the ways a transaction leaves the pool. A pointer to a transaction
of mapTx is its key. A call of remove may call itself for the transactions that
spend what it removes; the fuel bounds how deep, and `none` stands for a pointer
that is followed to nowhere and for a call that does not come back.
-/

namespace UmbrellaLtc.MemPool

open Codec Transaction Coins CoinsView CheckBlock ConnectBlock Guards Script

def CURRENT_VERSION : ℤ := 1

def MAX_STANDARD_TX_SIZE : ℕ := 100000

def MAX_BLOCK_SIZE_GEN : ℕ := MAX_BLOCK_SIZE / 4

def DEFAULT_BLOCK_PRIORITY_SIZE : ℕ := 17000

def MEMPOOL_HEIGHT : ℕ := 0x7FFFFFFF

def DUST_SOFT_LIMIT : ℤ := 100000

def LOCKTIME_THRESHOLD : ℤ := 500000000

/-- What accept reads besides its arguments, the pool and the coins: the environment of
validation, the height of the best block, the fees that are configured, the
templates of standard scripts for outputs and for inputs, and whether too many free
transactions have come in. -/
structure Around where
  env : Env
  nBestHeight : ℤ
  nMinTxFee : ℤ
  nMinRelayTxFee : ℤ
  isStandard : CScript → Bool
  inputStandard : CTransaction → ℕ → CTxOut → Bool
  rateLimited : Bool

inductive GetMinFeeMode where
  | block
  | relay
  | send
deriving DecidableEq

section Standard

variable (a : Around)

/-- CTransaction::IsFinal; 0 stands for the height of the best block and for now. -/
def isFinal (tx : CTransaction) (nBlockHeight nBlockTime : ℤ) : Bool :=
  let nLockTime : ℤ := tx.nLockTime.toNat
  let nBlockHeight := if nBlockHeight = 0 then a.nBestHeight else nBlockHeight
  let nBlockTime := if nBlockTime = 0 then a.env.adjustedTime else nBlockTime
  if nLockTime = 0 then true
  else if nLockTime < (if nLockTime < LOCKTIME_THRESHOLD then nBlockHeight else nBlockTime) then true
  else tx.vin.all fun txin => txin.nSequence == BitVec.allOnes 32

/-- CScript::IsPushOnly. -/
def isPushOnly (s : CScript) : Bool := (lastPush s.length s []).isSome

/-- CTxOut::IsDust: dust is not looked for. -/
def isDust (_ : CTxOut) : Bool := false

/-- CTransaction::IsStandard, with the reason when it is not. -/
def isStandardTx (tx : CTransaction) : Except String Unit := do
  require (tx.nVersion.toInt ≤ CURRENT_VERSION ∧ 1 ≤ tx.nVersion.toInt) "version"
  require (isFinal a tx 0 0 = true) "not-final"
  require (tx.getSerializeSize < MAX_STANDARD_TX_SIZE) "tx-size"
  tx.vin.forM fun txin => do
    require (txin.scriptSig.length ≤ 500) "scriptsig-size"
    require (isPushOnly txin.scriptSig = true) "scriptsig-not-pushonly"
  tx.vout.forM fun txout => do
    require (a.isStandard txout.scriptPubKey = true) "scriptpubkey"
    require (isDust txout = false) "dust"

/-- The fee without regard to how full the block is. -/
def baseMinFee (tx : CTransaction) (fAllowFree : Bool) (mode : GetMinFeeMode) :
    Except Failure ℤ := do
  let nBaseFee := if mode = .relay then a.nMinRelayTxFee else a.nMinTxFee
  let nBytes := tx.getSerializeSize
  let nMinFee ← int64 ((1 + (nBytes : ℤ) / 1000) * nBaseFee)
  let limit := if mode = .send then 5000 else DEFAULT_BLOCK_PRIORITY_SIZE - 1000
  let nMinFee := if fAllowFree = true ∧ nBytes < limit then 0 else nMinFee
  tx.vout.foldlM
    (fun n txout => if txout.value < DUST_SOFT_LIMIT then int64 (n + nBaseFee) else .ok n) nMinFee

/-- CTransaction::GetMinFee. -/
def getMinFee (tx : CTransaction) (nBlockSize : ℕ) (fAllowFree : Bool) (mode : GetMinFeeMode) :
    Except Failure ℤ := do
  let nNewBlockSize := nBlockSize + tx.getSerializeSize
  let nMinFee ← baseMinFee a tx fAllowFree mode
  if nBlockSize ≠ 1 ∧ MAX_BLOCK_SIZE_GEN / 2 ≤ nNewBlockSize ∧
      MAX_BLOCK_SIZE_GEN ≤ nNewBlockSize then return MAX_MONEY
  else do
    let nMinFee ←
      if nBlockSize ≠ 1 ∧ MAX_BLOCK_SIZE_GEN / 2 ≤ nNewBlockSize then
        int64 (nMinFee * (MAX_BLOCK_SIZE_GEN / (MAX_BLOCK_SIZE_GEN - nNewBlockSize) : ℕ))
      else .ok nMinFee
    return if moneyRange nMinFee then nMinFee else MAX_MONEY

end Standard

/-- CInPoint: the key of the spending transaction, and which of its inputs. -/
structure CInPoint where
  ptx : Uint256
  n : BitVec 32
deriving DecidableEq

structure CTxMemPool where
  mapTx : AList fun _ : Uint256 => CTransaction
  mapNextTx : AList fun _ : COutPoint => CInPoint

namespace CTxMemPool

/-- A new pool, and what clear leaves. -/
def empty : CTxMemPool := ⟨∅, ∅⟩

def clear (_ : CTxMemPool) : CTxMemPool := empty

def addUnchecked (hash : Uint256) (tx : CTransaction) (pool : CTxMemPool) : CTxMemPool where
  mapTx := pool.mapTx.insert hash tx
  mapNextTx := tx.vin.zipIdx.foldl
    (fun m input => m.insert input.1.prevout ⟨hash, BitVec.ofNat 32 input.2⟩) pool.mapNextTx

/-- The part of remove behind the loop: nothing happens to a transaction that is not in
the pool. -/
def erase (hash : Uint256) (tx : CTransaction) (pool : CTxMemPool) : CTxMemPool :=
  if (pool.mapTx.lookup hash).isSome then
    { mapTx := pool.mapTx.erase hash
      mapNextTx := tx.vin.foldl (fun m txin => m.erase txin.prevout) pool.mapNextTx }
  else pool

section Remove

variable (Hash : List Byte → Uint256)

/-- What remove does at one output: the transaction that spends it is removed first. -/
def cutOutput (remove : CTransaction → CTxMemPool → Option CTxMemPool) (hash : Uint256)
    (pool : CTxMemPool) (i : ℕ) : Option CTxMemPool :=
  match pool.mapNextTx.lookup ⟨hash, BitVec.ofNat 32 i⟩ with
  | none => some pool
  | some it => (pool.mapTx.lookup it.ptx).bind fun child => remove child pool

/-- `remove(tx, true)`. -/
def removeRecursive : ℕ → CTransaction → CTxMemPool → Option CTxMemPool
  | 0, _, _ => none
  | fuel + 1, tx, pool => do
      let hash := tx.getHash Hash
      let pool ← (List.range tx.vout.length).foldlM (cutOutput (removeRecursive fuel) hash) pool
      return pool.erase hash tx

/-- CTxMemPool::remove. The calls go from a transaction to one that spends it, and all
but the first are for transactions of the pool. -/
def remove (tx : CTransaction) (fRecursive : Bool) (pool : CTxMemPool) : Option CTxMemPool :=
  if fRecursive then removeRecursive Hash (pool.mapTx.keys.length + 1) tx pool
  else some (pool.erase (tx.getHash Hash) tx)

/-- One input in removeConflicts. -/
def removeConflict (tx : CTransaction) (pool : CTxMemPool) (txin : CTxIn) : Option CTxMemPool :=
  match pool.mapNextTx.lookup txin.prevout with
  | none => some pool
  | some it => (pool.mapTx.lookup it.ptx).bind fun txConflict =>
      if txConflict ≠ tx then remove Hash txConflict true pool else some pool

def removeConflicts (tx : CTransaction) (pool : CTxMemPool) : Option CTxMemPool :=
  tx.vin.foldlM (removeConflict Hash tx) pool

end Remove

end CTxMemPool

/-- CCoinsViewMemPool: the transactions of the pool behind the coins of a base. -/
structure CCoinsViewMemPool (β : Type) where
  base : β
  mempool : CTxMemPool

namespace CCoinsViewMemPool

variable {β : Type}

/-- The coins that a transaction of the pool will have. -/
def poolCoins (pool : CTxMemPool) (txid : Uint256) : Option CCoins :=
  (pool.mapTx.lookup txid).map fun tx => CCoins.ofTx tx MEMPOOL_HEIGHT

instance [CoinsBase β] : CoinsBase (CCoinsViewMemPool β) where
  getCoins txid v :=
    match CoinsBase.getCoins txid v.base with
    | (some c, base) => (some c, { v with base := base })
    | (none, base) => (poolCoins v.mempool txid, { v with base := base })
  getBestBlock v :=
    let (best, base) := CoinsBase.getBestBlock v.base
    (best, { v with base := base })
  batchWrite fWrite mapCoins pindex v :=
    let (fOk, base) := CoinsBase.batchWrite fWrite mapCoins pindex v.base
    (fOk, { v with base := base })

/-- The flat view of the coins with the pool behind them. -/
def withPool (pool : CTxMemPool) (f : Flat) : Flat where
  coins txid := (f.coins txid).orElse fun _ => poolCoins pool txid
  best := f.best

instance [LawfulBase β] : LawfulBase (CCoinsViewMemPool β) where
  flat v := withPool v.mempool (LawfulBase.flat v.base)
  getCoins_fst txid v := by
    have hfst := LawfulBase.getCoins_fst txid v.base
    show (match CoinsBase.getCoins txid v.base with
      | (some c, base) => _
      | (none, base) => _ : Option CCoins × CCoinsViewMemPool β).1 = _
    unfold withPool
    dsimp only
    rw [← hfst]
    rcases CoinsBase.getCoins txid v.base with ⟨_ | c, base⟩
    · rfl
    · rfl
  getCoins_flat txid v := by
    have hflat := LawfulBase.getCoins_flat txid v.base
    show withPool (match CoinsBase.getCoins txid v.base with
      | (some c, base) => _
      | (none, base) => _ : Option CCoins × CCoinsViewMemPool β).2.mempool (LawfulBase.flat
        (match CoinsBase.getCoins txid v.base with
          | (some c, base) => _
          | (none, base) => _ : Option CCoins × CCoinsViewMemPool β).2.base) = _
    rcases hget : CoinsBase.getCoins txid v.base with ⟨_ | c, base⟩
    · rw [hget] at hflat
      rw [← hflat]
    · rw [hget] at hflat
      rw [← hflat]
  getBestBlock_fst v := LawfulBase.getBestBlock_fst v.base
  getBestBlock_flat v := congrArg (withPool v.mempool) (LawfulBase.getBestBlock_flat v.base)

end CCoinsViewMemPool

/-- How accept ends: it returns true, or false with *pfMissingInputs set, or in another
way. -/
inductive Verdict where
  | accepted
  | missingInputs
  | rejected (e : Failure)
deriving DecidableEq

section Accept

variable (a : Around)

/-- `if (!fTestNet && !tx.IsStandard(strNonStd))`. -/
def checkStandard (tx : CTransaction) : Except Failure Unit :=
  if a.env.fTestNet then .ok ()
  else match isStandardTx a tx with
    | .error strNonStd =>
        .error (.error ("CTxMemPool::accept() : nonstandard transaction (" ++ strNonStd ++ ")"))
    | .ok () => .ok ()

/-- The checks of accept before it looks at the coins. The second test of the pool ends
in a plain `return false`, and nothing of what follows it there can run. -/
def preChecks (tx : CTransaction) (pool : CTxMemPool) : Except Failure Unit := do
  checkTransaction tx
  require (tx.isCoinBase = false)
    (.dos 100 "CTxMemPool::accept() : coinbase as individual tx" false)
  require (tx.nLockTime.toNat ≤ 2 ^ 31 - 1)
    (.error "CTxMemPool::accept() : not accepting nLockTime beyond 2038 yet")
  checkStandard a tx
  require ((pool.mapTx.lookup (tx.getHash a.env.Hash)).isNone = true) (.error "")
  require (∀ txin ∈ tx.vin, (pool.mapNextTx.lookup txin.prevout).isNone = true) (.error "")

section Coins

variable {κ : Type} [CoinsCache κ]

/-- CTransaction::AreInputsStandard. -/
def areInputsStandard (tx : CTransaction) : Prog κ Failure Bool :=
  if tx.isCoinBase then pure true
  else tx.vin.zipIdx.allM fun input => do
    let prev ← getOutputFor input.1
    return a.inputStandard tx input.2 prev

/-- The part of accept behind SetBackend(dummy). The inputs and the best block are in
the cache by then, so that the base is not asked again. -/
def checkSpending (tx : CTransaction) (fLimitFree : Bool) : Prog κ Failure Unit := do
  let standard ← areInputsStandard a tx
  .check (standard = true ∨ a.env.fTestNet = true)
    (.error "CTxMemPool::accept() : nonstandard transaction input")
  let nValueIn ← getValueIn tx
  let nValueOut ← .lift (getValueOut tx)
  let nFees ← .lift (int64 (nValueIn - nValueOut))
  let txMinFee ← .lift (getMinFee a tx 1000 true .relay)
  .check (fLimitFree = true → txMinFee ≤ nFees)
    (.error "CTxMemPool::accept() : not enough fees %s, %d < %d")
  .check (fLimitFree = true → nFees < a.nMinRelayTxFee → a.rateLimited = false)
    (.error "CTxMemPool::accept() : free transaction rejected by rate limiter")
  let _ ← checkInputs a.env tx true (SCRIPT_VERIFY_P2SH ||| SCRIPT_VERIFY_STRICTENC) false
  pure ()

/-- The block `if (fCheckInputs)`; the value is false when inputs are missing. -/
def acceptInputs (tx : CTransaction) (fLimitFree : Bool) : Prog κ Failure Bool := do
  let known ← haveCoins (tx.getHash a.env.Hash)
  .check (known = false) (.error "")
  let found ← tx.vin.allM fun txin => haveCoins txin.prevout.hash
  if found then do
    let available ← haveInputs tx
    .check (available = true) (.dos 0 "CTxMemPool::accept() : inputs already spent" false)
    let _ ← getBestBlock
    checkSpending a tx fLimitFree
    return true
  else return false

end Coins

variable {β : Type} [CoinsBase β]

/-- CTxMemPool::accept, with the pool and pcoinsTip as it leaves them. -/
def accept (tx : CTransaction) (fCheckInputs fLimitFree : Bool) (pool : CTxMemPool) (tip : β) :
    Verdict × CTxMemPool × β :=
  match preChecks a tx pool with
  | .error e => (.rejected e, pool, tip)
  | .ok () =>
      let added := pool.addUnchecked (tx.getHash a.env.Hash) tx
      if fCheckInputs then
        let view : Cache (CCoinsViewMemPool β) := .new ⟨tip, pool⟩
        let result := (acceptInputs a tx fLimitFree).run view
        match result.1 with
        | .error e => (.rejected e, pool, result.2.base.base)
        | .ok false => (.missingInputs, pool, result.2.base.base)
        | .ok true => (.accepted, added, result.2.base.base)
      else (.accepted, added, tip)

/-- CTransaction::AcceptToMemoryPool. -/
def acceptToMemoryPool (tx : CTransaction) (fCheckInputs fLimitFree : Bool) (pool : CTxMemPool)
    (tip : β) : Verdict × CTxMemPool × β :=
  match accept a tx fCheckInputs fLimitFree pool tip with
  | (.rejected (.runtimeError what), r) => (.rejected (.abort ("System error: " ++ what)), r)
  | r => r

end Accept

end UmbrellaLtc.MemPool
