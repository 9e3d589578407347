import UmbrellaLtc.MemPool
import UmbrellaLtc.OrphanBlocks

/-!
CreateNewBlock of main.cpp. The transactions of the memory pool go into a priority
queue, those that wait for others of the pool when the last of these has been
taken. The queue is a heap of the standard library, of which no more is known
than that it keeps its elements, and the priorities are of any arithmetic that
stands for double. A pointer into vOrphan is the number of the element that was
pushed there.
-/

namespace UmbrellaLtc.BlockTemplate

open Codec Transaction Header Coins CoinsView CheckBlock ConnectBlock BestChain MemPool
  Script
open OrphanBlocks (getMedianTimePast nextBlockDifficulty)

/-- The operations on double that priorities are computed with. -/
structure Double (D : Type) where
  ofInt : ℤ → D
  add : D → D → D
  mul : D → D → D
  div : D → D → D
  eq : D → D → Bool
  lt : D → D → Bool

structure TxPriority (D : Type) where
  dPriority : D
  dFeePerKb : D
  ptx : CTransaction

/-- TxPriorityCompare. -/
def txPriorityCompare {D : Type} (double : Double D) (byFee : Bool) (a b : TxPriority D) : Bool :=
  if byFee then
    if double.eq a.dFeePerKb b.dFeePerKb then double.lt a.dPriority b.dPriority
    else double.lt a.dFeePerKb b.dFeePerKb
  else
    if double.eq a.dPriority b.dPriority then double.lt a.dFeePerKb b.dFeePerKb
    else double.lt a.dPriority b.dPriority

/-- make_heap, pop_heap with the pop_back behind it, and push_back with push_heap. The
front is the element that is popped. -/
structure HeapOps (D : Type) where
  makeHeap : (TxPriority D → TxPriority D → Bool) → List (TxPriority D) → List (TxPriority D)
  popHeap : (TxPriority D → TxPriority D → Bool) → List (TxPriority D) → List (TxPriority D)
  pushHeap : (TxPriority D → TxPriority D → Bool) → List (TxPriority D) → TxPriority D →
    List (TxPriority D)
  makeHeap_perm : ∀ comp l, (makeHeap comp l).Perm l
  popHeap_perm : ∀ comp a l, (popHeap comp (a :: l)).Perm l
  pushHeap_perm : ∀ comp l a, (pushHeap comp l a).Perm (a :: l)

structure COrphan (D : Type) where
  ptx : CTransaction
  setDependsOn : Finset Uint256
  dPriority : D
  dFeePerKb : D

/-- The queue with the transactions that wait; `pushed` counts what has been pushed on
vOrphan. -/
structure Queue (D : Type) where
  vecPriority : List (TxPriority D)
  vOrphan : AList fun _ : ℕ => COrphan D
  mapDependers : AList fun _ : Uint256 => List ℕ
  pushed : ℕ

/-- What -blockmaxsize, -blockprioritysize and -blockminsize are set to, and -debug. -/
structure BlockOptions where
  blockmaxsize : ℤ
  blockprioritysize : ℤ
  blockminsize : ℤ
  fDebug : Bool

namespace BlockOptions

def unsigned (n : ℤ) : ℕ := (BitVec.ofInt 32 n).toNat

def nBlockMaxSize (opts : BlockOptions) : ℕ :=
  max 1000 (min (MAX_BLOCK_SIZE - 1000) (unsigned opts.blockmaxsize))

def nBlockPrioritySize (opts : BlockOptions) : ℕ :=
  min opts.nBlockMaxSize (unsigned opts.blockprioritysize)

def nBlockMinSize (opts : BlockOptions) : ℕ :=
  min opts.nBlockMaxSize (unsigned opts.blockminsize)

end BlockOptions

namespace Queue

variable {D : Type}

def empty : Queue D := ⟨[], ∅, ∅, 0⟩

/-- `vOrphan.push_back(COrphan(&tx))` when the transaction does not wait yet. -/
def enroll (double : Double D) (tx : CTransaction) (porphan : Option ℕ) (q : Queue D) :
    ℕ × Queue D :=
  match porphan with
  | some p => (p, q)
  | none =>
      (q.pushed,
        { q with
          vOrphan := q.vOrphan.insert q.pushed ⟨tx, ∅, double.ofInt 0, double.ofInt 0⟩
          pushed := q.pushed + 1 })

/-- The transaction waits for another one of the pool. -/
def dependOn (hash : Uint256) (porphan : ℕ) (q : Queue D) : Queue D :=
  { q with
    vOrphan := (q.vOrphan.lookup porphan).elim q.vOrphan fun o =>
      q.vOrphan.insert porphan { o with setDependsOn := insert hash o.setDependsOn }
    mapDependers :=
      q.mapDependers.insert hash ((q.mapDependers.lookup hash).getD [] ++ [porphan]) }

/-- `if (porphan) vOrphan.pop_back()`; the pointers to it stay. -/
def dropOrphan (porphan : Option ℕ) (q : Queue D) : Queue D :=
  { q with vOrphan := porphan.elim q.vOrphan q.vOrphan.erase }

def setPriority (porphan : ℕ) (dPriority dFeePerKb : D) (q : Queue D) : Queue D :=
  { q with
    vOrphan := (q.vOrphan.lookup porphan).elim q.vOrphan fun o =>
      q.vOrphan.insert porphan { o with dPriority := dPriority, dFeePerKb := dFeePerKb } }

end Queue

/-- What the loop over the inputs of one transaction keeps. -/
structure Scan (D : Type) where
  porphan : Option ℕ
  dPriority : D
  nTotalIn : ℤ
  queue : Queue D

section Scanning

variable {D : Type} (double : Double D) (fDebug : Bool) (pool : CTxMemPool) (nHeight : ℕ)
  {κ : Type} [CoinsCache κ]

/-- An input that the coins have no entry for: its value is that of an output of the pool. -/
def scanPoolInput (tx : CTransaction) (s : Scan D) (txin : CTxIn) (parent : CTransaction) :
    Except Failure (Scan D) :=
  match parent.vout[txin.prevout.n.toNat]? with
  | none => .error .assertion
  | some txout => do
      let (porphan, queue) := s.queue.enroll double tx s.porphan
      let nTotalIn ← int64 (s.nTotalIn + txout.value)
      return ⟨some porphan, s.dPriority, nTotalIn, queue.dependOn txin.prevout.hash porphan⟩

/-- An input that the coins have an entry for. -/
def scanCoins (s : Scan D) (txin : CTxIn) (coins : CCoins) : Except Failure (Scan D) :=
  match coins.vout[txin.prevout.n.toNat]? with
  | none => .error .assertion
  | some txout => do
      let nTotalIn ← int64 (s.nTotalIn + txout.value)
      let nConf : ℤ := nHeight - coins.nHeight + 1
      return { s with
        dPriority := double.add s.dPriority (double.mul (double.ofInt txout.value)
          (double.ofInt nConf))
        nTotalIn := nTotalIn }

/-- The loop over the inputs; the value is fMissingInputs, set in the branch of which the
source says that it should never happen. -/
def scanInputs (tx : CTransaction) : List CTxIn → Scan D → Prog κ Failure (Bool × Scan D)
  | [], s => pure (false, s)
  | txin :: rest, s => do
      let known ← haveCoins txin.prevout.hash
      if known then do
        let coins ← getCoins txin.prevout.hash
        let s ← .lift (scanCoins double nHeight s txin coins)
        scanInputs tx rest s
      else match pool.mapTx.lookup txin.prevout.hash with
        | none => do
            .check (fDebug = false) .assertion
            return (true, { s with queue := s.queue.dropOrphan s.porphan })
        | some parent => do
            let s ← .lift (scanPoolInput double tx s txin parent)
            scanInputs tx rest s

/-- A transaction whose inputs have been found goes into the queue or waits. -/
def enqueue (tx : CTransaction) (s : Scan D) : Except Failure (Queue D) := do
  let nTxSize : ℤ := tx.getSerializeSize
  let dPriority := double.div s.dPriority (double.ofInt nTxSize)
  let nValueOut ← getValueOut tx
  let nFee ← int64 (s.nTotalIn - nValueOut)
  let dFeePerKb := double.div (double.ofInt nFee)
    (double.div (double.ofInt nTxSize) (double.ofInt 1000))
  return match s.porphan with
    | some porphan => s.queue.setPriority porphan dPriority dFeePerKb
    | none =>
        { s.queue with
          vecPriority := s.queue.vecPriority ++ [⟨dPriority, dFeePerKb, tx⟩] }

/-- One transaction of the pool; `a` is what is around at this moment. -/
def scanTx (a : Around) (tx : CTransaction) (q : Queue D) : Prog κ Failure (Queue D) :=
  if tx.isCoinBase = true ∨ isFinal a tx 0 0 = false then pure q
  else do
    let (fMissingInputs, s) ←
      scanInputs double fDebug pool nHeight tx tx.vin ⟨none, double.ofInt 0, 0, q⟩
    if fMissingInputs then return s.queue else .lift (enqueue double tx s)

/-- The transactions of the pool in the order of their ids. -/
def poolTxs : List CTransaction :=
  (pool.mapTx.entries.insertionSort fun a b => a.1 ≤ b.1).map Sigma.snd

/-- The loop over the pool, with the adjusted time as it goes on. -/
def scanPool (a : Around) (clock : ℕ → ℤ) : Prog κ Failure (Queue D) :=
  (poolTxs pool).zipIdx.foldlM (fun q input =>
    scanTx double fDebug pool nHeight
      { a with env := { a.env with adjustedTime := clock input.2 } } input.1 q) .empty

end Scanning

/-- What the second loop keeps besides the view. -/
structure Assembly (D : Type) where
  queue : Queue D
  fSortedByFee : Bool
  nBlockSize : ℕ
  nBlockSigOps : BitVec 32
  nFees : ℤ
  vtx : List CTransaction
  vTxFees : List ℤ
  vTxSigOps : List (BitVec 32)

/-- A call whose result is looked at: `none` when it returns false. -/
def returned {κ α : Type} (x : Prog κ Failure α) : Prog κ Failure (Option α) := fun k =>
  match x k with
  | (.ok v, k') => (.ok (some v), k')
  | (.error e, k') => (if returnsFalse e then .ok none else .error e, k')

section Selecting

variable {D : Type} (double : Double D) (heap : HeapOps D) (a : Around) (opts : BlockOptions)
  (nHeight : ℕ)

def comparer (s : Assembly D) : TxPriority D → TxPriority D → Bool :=
  txPriorityCompare double s.fSortedByFee

/-- The tests that need no coins: the size, the signature operations of the scripts, and
the fee when the free transactions are in. -/
def skipped (s : Assembly D) (next : TxPriority D) : Bool :=
  let nTxSize := next.ptx.getSerializeSize
  decide (opts.nBlockMaxSize ≤ s.nBlockSize + nTxSize) ||
    decide (MAX_BLOCK_SIGOPS ≤ (s.nBlockSigOps + getLegacySigOpCount next.ptx).toNat) ||
    (s.fSortedByFee && double.lt next.dFeePerKb (double.ofInt a.nMinTxFee) &&
      decide (opts.nBlockMinSize ≤ s.nBlockSize + nTxSize))

/-- `Prioritize by fee once past the priority size`. -/
def prioritizeByFee (s : Assembly D) (next : TxPriority D) : Assembly D :=
  if s.fSortedByFee = false ∧
      (opts.nBlockPrioritySize ≤ s.nBlockSize + next.ptx.getSerializeSize ∨
        double.lt next.dPriority (double.ofInt (COIN * 576 / 250)) = true) then
    { s with
      fSortedByFee := true
      queue := { s.queue with
        vecPriority := heap.makeHeap (txPriorityCompare double true) s.queue.vecPriority } }
  else s

/-- A transaction that waited for `hash`. -/
def releaseOrphan (comp : TxPriority D → TxPriority D → Bool) (hash : Uint256) (q : Queue D)
    (porphan : ℕ) : Except Failure (Queue D) :=
  match q.vOrphan.lookup porphan with
  | none => .error .assertion
  | some o =>
      if o.setDependsOn = ∅ then .ok q
      else
        let o := { o with setDependsOn := o.setDependsOn.erase hash }
        let q := { q with vOrphan := q.vOrphan.insert porphan o }
        if o.setDependsOn = ∅ then
          .ok { q with
            vecPriority := heap.pushHeap comp q.vecPriority ⟨o.dPriority, o.dFeePerKb, o.ptx⟩ }
        else .ok q

/-- `Add transactions that depend on this one to the priority queue`. -/
def releaseDependers (comp : TxPriority D → TxPriority D → Bool) (hash : Uint256) (q : Queue D) :
    Except Failure (Queue D) :=
  ((q.mapDependers.lookup hash).getD []).foldlM (releaseOrphan heap comp hash) q

variable {κ : Type} [CoinsCache κ]

/-- The part of a round for a transaction that has passed the tests on the view. -/
def addTx (tx : CTransaction) (nTxFees : ℤ) (nTxSigOps : BitVec 32) (s : Assembly D) :
    Prog κ Failure (Assembly D) := do
  let hash := tx.getHash a.env.Hash
  let _ ← updateCoins tx (nHeight + 1) hash
  let nFees ← .lift (int64 (s.nFees + nTxFees))
  let queue ← .lift (releaseDependers heap (comparer double s) hash s.queue)
  return { s with
    queue := queue
    nBlockSize := s.nBlockSize + tx.getSerializeSize
    nBlockSigOps := s.nBlockSigOps + nTxSigOps
    nFees := nFees
    vtx := s.vtx ++ [tx]
    vTxFees := s.vTxFees ++ [nTxFees]
    vTxSigOps := s.vTxSigOps ++ [nTxSigOps] }

/-- The part of a round behind HaveInputs. -/
def tryTx (tx : CTransaction) (s : Assembly D) : Prog κ Failure (Assembly D) := do
  let nValueIn ← getValueIn tx
  let nValueOut ← .lift (getValueOut tx)
  let nTxFees ← .lift (int64 (nValueIn - nValueOut))
  let n ← getP2SHSigOpCount tx
  let nTxSigOps := getLegacySigOpCount tx + n
  if MAX_BLOCK_SIGOPS ≤ (s.nBlockSigOps + nTxSigOps).toNat then return s
  else do
    match ← returned (checkInputs a.env tx true SCRIPT_VERIFY_P2SH false) with
    | none => return s
    | some _ => addTx double heap a nHeight tx nTxFees nTxSigOps s

/-- One round of the loop, for the transaction that was in front. -/
def selectTx (s : Assembly D) (next : TxPriority D) : Prog κ Failure (Assembly D) :=
  if skipped double a opts s next then pure s
  else do
    let s := prioritizeByFee double heap opts s next
    let available ← haveInputs next.ptx
    if available then tryTx double heap a nHeight next.ptx s else return s

/-- `while (!vecPriority.empty())`; the fuel bounds the rounds. -/
def selectTxs : ℕ → Assembly D → Prog κ Failure (Assembly D)
  | 0, s => pure s
  | fuel + 1, s =>
      match s.queue.vecPriority with
      | [] => pure s
      | next :: _ => do
          let vecPriority := heap.popHeap (comparer double s) s.queue.vecPriority
          let s ← selectTx double heap a opts nHeight
            { s with queue := { s.queue with vecPriority := vecPriority } } next
          selectTxs fuel s

/-- The second loop on the queue that the first one leaves. Every transaction of the pool
is taken off the queue once. -/
def collectTxs (pool : CTxMemPool) (queue : Queue D) : Prog κ Failure (Assembly D) :=
  let fSortedByFee := decide (opts.nBlockPrioritySize ≤ 0)
  let vecPriority :=
    heap.makeHeap (txPriorityCompare double fSortedByFee) queue.vecPriority
  selectTxs double heap a opts nHeight pool.mapTx.entries.length
    ⟨{ queue with vecPriority := vecPriority }, fSortedByFee, 1000, 100, 0, [], [], []⟩

end Selecting

structure CBlockTemplate where
  block : CBlock
  vTxFees : List ℤ
  vTxSigOps : List (BitVec 32)

/-- The coinbase of a new block. -/
def newCoinbase (scriptPubKeyIn1 scriptPubKeyIn2 : CScript) (nValue : ℤ) : CTransaction :=
  ⟨1, [⟨⟨0, BitVec.allOnes 32⟩, [BitVec.ofNat 8 OP_0, BitVec.ofNat 8 OP_0],
    BitVec.allOnes 32⟩], [⟨nValue, scriptPubKeyIn1⟩, ⟨nValue, scriptPubKeyIn2⟩], 0⟩

/-- CBlockHeader::UpdateTime. -/
def updateTime (medianTimePast : ℕ) (adjustedTime : ℤ) : BitVec 32 :=
  BitVec.ofInt 32 (max (medianTimePast + 1) adjustedTime)

section Creating

variable {D M : Type} (double : Double D) (heap : HeapOps D) (a : Around) (opts : BlockOptions)
  (io : BlockIo) (horizon : Kgw.Horizon) (clock : ℕ → ℤ) (scriptPubKeyIn1 scriptPubKeyIn2 : CScript)

/-- The block with the transactions that were selected. -/
def fillBlock (s : ChainState M) (pindexPrev : Uint256) (adjustedTime : ℤ) (t : Assembly D) :
    Except Failure CBlockTemplate := do
  let nValue ← getBlockValue (s.height pindexPrev + 1) t.nFees
  let coinbase := newCoinbase scriptPubKeyIn1 scriptPubKeyIn2 (nValue / 2)
  let nBits ← nextBlockDifficulty a.env.fTestNet horizon s pindexPrev
  let header := { HeaderFields.null a.env.fTestNet with
    hashPrevBlock := pindexPrev
    nTime := updateTime (getMedianTimePast s pindexPrev) adjustedTime
    nBits := nBits }
  return ⟨⟨.plain header, coinbase :: t.vtx⟩, -t.nFees :: t.vTxFees,
    getLegacySigOpCount coinbase :: t.vTxSigOps⟩

/-- The index entry that ConnectBlock is called with. -/
def indexDummy (s : ChainState M) (pindexPrev : Uint256) (block : CBlock) : PIndex :=
  ⟨⟨block.header.fields.getHash a.env.Hash, s.height pindexPrev + 1⟩, some (s.ptr pindexPrev),
    block.header.fields.nTime⟩

/-- Both loops, on one view of pcoinsTip. -/
def chooseTxs {κ : Type} [CoinsCache κ] (pool : CTxMemPool) (nHeight : ℕ) :
    Prog κ Failure (Assembly D) := do
  let queue ← scanPool double opts.fDebug pool nHeight a clock
  collectTxs double heap a opts nHeight pool queue

/-- CreateNewBlock, with pcoinsTip as it leaves it. The adjusted time is read for each
transaction of the pool, for the header, and in ConnectBlock, which writes nothing here. -/
def createNewBlock (pool : CTxMemPool) (s : ChainState M) :
    Except Failure CBlockTemplate × Cache CoinsDb :=
  match s.pindexBest with
  | none => (.error .assertion, s.pcoinsTip)
  | some pindexPrev =>
      let nPool := pool.mapTx.entries.length
      match (chooseTxs double heap a opts clock pool (s.height pindexPrev)).run
          (Cache.new s.pcoinsTip) with
      | (.error e, view) => (.error e, view.base)
      | (.ok t, view) =>
          match fillBlock a horizon scriptPubKeyIn1 scriptPubKeyIn2 s pindexPrev (clock nPool) t with
          | .error e => (.error e, view.base)
          | .ok template =>
              let env := { a.env with adjustedTime := clock (nPool + 1) }
              let pindex := indexDummy a s pindexPrev template.block
              match (connectBlock env io template.block pindex true).run
                  ⟨Cache.new view.base, 0, none, 0⟩ with
              | (.ok _, ctx) => (.ok template, ctx.view.base)
              | (.error e, ctx) =>
                  (.error (if returnsFalse e then
                    .runtimeError "CreateNewBlock() : ConnectBlock failed" else e), ctx.view.base)

end Creating

end UmbrellaLtc.BlockTemplate
