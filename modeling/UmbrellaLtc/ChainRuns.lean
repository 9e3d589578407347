import UmbrellaLtc.Loading
import UmbrellaLtc.MoneySupply
import UmbrellaLtc.Runs

/-!
Runs of a node: blocks that arrive, blocks that are found invalid, searches for a
better chain, and restarts, in any order and with any outcome. The chain stays
in order as long as the coins can be written, and then SetBestChain changes all
or nothing.
-/

namespace UmbrellaLtc.ChainRuns

open Codec Transaction Header Coins CoinsView CheckBlock ConnectBlock BestChain ChainFrame
  ChainLinks Reorganise IndexSteps Loading Prog Runs

variable {M : Type}

/-- The calls that change the chain state. The first is AddToBlockIndex as far as
ConnectBestBlock, the state in which SetBestChain is called for a new block. -/
inductive Call where
  | storeEntry (block : CBlock)
  | addToBlockIndex (block : CBlock)
  | invalidBlockFound (pindex : Uint256)
  | connectBestBlock
  | setBestChain (pindexNew : Uint256)
  | restart (fShutdown : Bool)

section Steps

variable (node : Node M)

/-- A call, with fuel for the loops of ConnectBestBlock. -/
def Call.prog (fuel : ℕ) : Call → Prog (ChainState M) Fault Unit
  | .storeEntry block => plain (BestChain.storeEntry node block)
  | .addToBlockIndex block => BestChain.addToBlockIndex node fuel block
  | .invalidBlockFound pindex =>
      BestChain.invalidBlockFound node (BestChain.connectBestBlock node fuel) pindex
  | .connectBestBlock => BestChain.connectBestBlock node fuel
  | .setBestChain pindexNew =>
      BestChain.setBestChain node (BestChain.connectBestBlock node fuel) pindexNew
  | .restart fShutdown => BestChain.restart node fShutdown

/-- What the callers see to. -/
def Call.Allowed (s : ChainState M) : Call → Prop
  | .storeEntry block => Accepted node s block
  | .addToBlockIndex block => Accepted node s block
  | _ => True

def step (s : ChainState M) (c : Call × ℕ) : ChainState M := ((c.1.prog node c.2).run s).2

variable {node} {s : ChainState M}

theorem chainInv_init (pool : PoolOps M) : ChainInv (ChainState.init pool) where
  tree :=
    { known := fun _ _ hp => by cases hp
      graded := fun _ _ hp => by cases hp
      stored := fun _ _ hd => by cases hd }
  links := Forest.linked_none
  best _ hb := by cases hb
  coins := rfl

/-- A step keeps the chain in order, however it ends. -/
theorem chainInv_step (hlate : ∀ t, LateOk (node.world t)) (c : Call × ℕ) (hs : ChainInv s)
    (hc : c.1.Allowed node s) : ChainInv (step node s c) := by
  have hsearch : ∀ (fuel : ℕ) (t : ChainState M), ChainInv t →
      ChainInv ((connectBestBlock node fuel).run t).2 := by
    intro fuel t ht
    have htree : InTree t t := ⟨ht, refl t⟩
    exact (keeps_connectBestBlock node fuel t htree (Or.inl hlate)).1
  obtain ⟨call, fuel⟩ := c
  cases call with
  | storeEntry block =>
    show ChainInv ((plain (BestChain.storeEntry node block)).run s).2
    rw [plain_run]
    exact storeEntry_inv hs hc
  | addToBlockIndex block =>
    show ChainInv ((plain (BestChain.storeEntry node block) >>= fun _ =>
      BestChain.connectBestBlock node fuel).run s).2
    have hstore := storeEntry_inv hs hc
    have hrun := plain_run (BestChain.storeEntry node block) s
    rcases hr : (BestChain.storeEntry node block).run s with ⟨e | a, t⟩
    · rw [hr] at hrun hstore
      rw [run_bind_error hrun]
      exact hstore
    · rw [hr] at hrun hstore
      rw [run_bind_ok hrun]
      exact hsearch fuel t hstore
  | invalidBlockFound pindex =>
    have htree : InTree s s := ⟨hs, refl s⟩
    exact (keeps_invalidBlockFound node hlate fuel pindex s htree (Or.inl trivial)).1
  | connectBestBlock => exact hsearch fuel s hs
  | setBestChain pindexNew => exact keeps_setBestChain node _ s hs (Or.inl hlate)
  | restart fShutdown => exact keeps_restart node fShutdown s hs (Or.inl trivial)

/-- The chain is in order throughout every run. -/
theorem chainInv_throughout (hlate : ∀ t, LateOk (node.world t)) {calls : List (Call × ℕ)}
    (hcalls : EachStep (step node) (fun s c => c.1.Allowed node s) (.init node.pool) calls) :
    Throughout (step node) ChainInv (.init node.pool) calls :=
  throughout_of_eachStep (fun _ c hs hc => chainInv_step hlate c hs hc)
    (chainInv_init node.pool) hcalls

end Steps

/-- What a failed change of the best chain must leave: the coins, the best block, the
links and the memory pool; and the coins are those of the best block. -/
structure Untouched (s s' : ChainState M) : Prop where
  coins : s'.pcoinsTip.flat = s.pcoinsTip.flat
  pindexBest : s'.pindexBest = s.pindexBest
  nBestHeight : s'.nBestHeight = s.nBestHeight
  links : ∀ h, (s'.entry h).bind CBlockIndex.pnext = (s.entry h).bind CBlockIndex.pnext
  mempool : s'.mempool = s.mempool
  tip : s'.pcoinsTip.getBestBlock.1.map BlockPtr.hash = s'.pindexBest

/-- SetBestChain changes all or nothing, for every new best block. -/
def Atomic (node : Node M) (s : ChainState M) : Prop :=
  ∀ (fuel : ℕ) (pindexNew : Uint256) (e : Fault) (s' : ChainState M),
    (setBestChain node (connectBestBlock node fuel) pindexNew).run s = (.error e, s') →
      Untouched s s'

theorem atomic_of_inv {node : Node M} (hlate : ∀ t, LateOk (node.world t)) {s : ChainState M}
    (hs : ChainInv s) : Atomic node s := by
  intro fuel pindexNew e s' hrun
  have hframe := setBestChain_frame node _ hlate hs hrun
  have htip : s'.pcoinsTip.getBestBlock.1.map BlockPtr.hash = s'.pindexBest := by
    rw [s'.pcoinsTip.getBestBlock_spec.1, (hs.frame hframe).coins, Option.map_map]
    have hid : BlockPtr.hash ∘ s'.ptr = id := rfl
    rw [hid, Option.map_id]
    rfl
  exact ⟨hframe.coins, hframe.pindexBest, hframe.nBestHeight, congrFun (Frame.next_eq hframe),
    hframe.mempool, htip⟩

/-- In every run of a node that can write its coins whenever it tries to, a call of
SetBestChain that fails leaves the chain as it was. -/
theorem setBestChain_atomic (node : Node M) (hlate : ∀ t, LateOk (node.world t))
    (calls : List (Call × ℕ))
    (hcalls : EachStep (step node) (fun s c => c.1.Allowed node s) (.init node.pool) calls) :
    Throughout (step node) (Atomic node) (.init node.pool) calls :=
  (chainInv_throughout hlate hcalls).mono fun _ hs => atomic_of_inv hlate hs

section MainNetwork

/-- The transaction of the genesis block, from InitBlockIndex. -/
def genesisTx : CTransaction :=
  ⟨1, [⟨⟨0, BitVec.allOnes 32⟩,
      [0x04, 0xff, 0xff, 0x00, 0x1d, 0x01, 0x04, 0x27] ++
        "If the sky falls, we shall catch larks!".toList.map fun c => BitVec.ofNat 8 c.toNat,
      BitVec.allOnes 32⟩],
    [⟨10 * COIN, [0x41, 0x04] ++
      (leBytes 32 0x87e11b7e3b8803bef76182af8faa8566191aa37e301e0f8bc01ca668a265c5a1).reverse ++
      (leBytes 32 0x1c2d95a689c8432e6aae6e5d0be182c9db9c2fa6494e49b0e464c1b87da7f9be).reverse ++
      [0xac]⟩], 0⟩

def genesisHash : Uint256 := 0x9a98a4f35289dea592ba280952390698bf57918fd8cbbaf828843443187e953b

def genesis : CBlock :=
  ⟨.plain ⟨904658945, 0, 0x77a2709a91515ab610c6543228bdd45b2c56a72f9cbaa137a1a292c59afbdb35,
    1405801325, 0x1e07ffff, 2596745⟩, [genesisTx]⟩

def premineHash : Uint256 := 0xf75a981e2efccaef3a23de2eed9a069628e1b91cdde4044cae2802039cfca01d

/-- A block on the genesis block that pays out the premine. -/
def premineBlock : CBlock :=
  ⟨.plain ⟨904658946, genesisHash,
    0xb26bb784e352e5f310e5e04c2ed503653d0b71044885be30b7dce40371e39bdc,
    1405801600, 0x1e07ffff, 8285100⟩, [MoneySupply.premineTx]⟩

def greedyHash : Uint256 := 0xf2a84706599b9c8212aff173903b177c95665c73f5a043a0eae85311e1bbb198

def greedyTx : CTransaction :=
  ⟨1, [⟨⟨0, BitVec.allOnes 32⟩, [0x51, 0x52], BitVec.allOnes 32⟩],
    [⟨120001 * COIN, [0x51]⟩], 0⟩

/-- A block on the genesis block that pays out more than the premine. -/
def greedyBlock : CBlock :=
  ⟨.plain ⟨904658946, genesisHash,
    0x67b0bd4446af7492f93126a4d998b39429f67f8445b9cb9eea41030b3a8bce01,
    1405801700, 0x1e07ffff, 1136305⟩, [greedyTx]⟩

/-- The double SHA-256 of the transactions and headers. -/
def digests : List (List Byte × Uint256) :=
  [(CTransaction.codec.write genesisTx, genesis.header.fields.hashMerkleRoot),
    (CTransaction.codec.write MoneySupply.premineTx, premineBlock.header.fields.hashMerkleRoot),
    (CTransaction.codec.write greedyTx, greedyBlock.header.fields.hashMerkleRoot),
    (HeaderFields.codec.write genesis.header.fields, genesisHash),
    (HeaderFields.codec.write premineBlock.header.fields, premineHash),
    (HeaderFields.codec.write greedyBlock.header.fields, greedyHash)]

def mainHash (bs : List Byte) : Uint256 := (digests.lookup bs).getD 0

/-- The scrypt hashes of the headers, by their nonces. -/
def scryptHash (h : HeaderFields) : Uint256 :=
  if h.nNonce = 2596745 then 0x5e504501420adf4be12f6da020db6642742805764153a097fbaf4b088cc
  else if h.nNonce = 1136305 then 0x4ce8b7496ec1fbde84194f4ecf3c18a892ccc192b80b70e4debc546434c
  else 0x2cae2429dc34ab47b9c0592b50488bc51dd04adb42b797e7e4b14d1dac1

/-- A memory pool without limits. -/
def listPool : PoolOps (List CTransaction) where
  empty := []
  accept tx tip pool := (true, tx :: pool, unread tip)
  remove tx _ pool := pool.filter (· ≠ tx)
  removeConflicts tx pool := pool.filter fun other => other.vin.all fun txin =>
    tx.vin.all fun spent => txin.prevout ≠ spent.prevout

/-- The surroundings of a node on the main network, with nothing that goes wrong. -/
def mainIo (fIsInitialDownload : Bool) : Io where
  env :=
    { Hash := mainHash
      powHash := scryptHash
      fTestNet := false
      genesisHash := genesisHash
      totalBlocksEstimate := 0
      adjustedTime := 1405801800
      verifyScript := fun scriptPubKey _ _ _ => scriptPubKey == [0x51]
      fScriptCheckThreads := true }
  readFile h :=
    [(genesisHash, genesis), (premineHash, premineBlock), (greedyHash, greedyBlock)].lookup h
  block := ⟨true, true, .ok, false, .ok, true⟩
  fIsInitialDownload := fIsInitialDownload
  nCoinCacheSize := 5000
  checkDiskSpace := true
  sync := .ok
  coinsWrite := .ok
  indexWrite := .ok

def mainNode (world : ℕ → Io) : Node (List CTransaction) where
  Hash := mainHash
  world := world
  pool := listPool
  misread _ := .error .assertion

/-- The genesis block is connected and a second block is in the index. -/
def twoBlocks : List (Call × ℕ) := [(.addToBlockIndex genesis, 2), (.storeEntry premineBlock, 0)]

def afterTwo (world : ℕ → Io) : ChainState (List CTransaction) :=
  run (step (mainNode world)) (.init listPool) twoBlocks

/-- The second block is made the best one. -/
def switchToSecond (world : ℕ → Io) : Except Fault Unit × ChainState (List CTransaction) :=
  (setBestChain (mainNode world) (connectBestBlock (mainNode world) 2) premineHash).run
    (afterTwo world)

/-- The genesis block may come first, and after it what may come then. -/
theorem allowed_afterGenesis {world : ℕ → Io} {c : Call × ℕ}
    (hc : c.1.Allowed (mainNode world)
      (step (mainNode world) (.init listPool) (.addToBlockIndex genesis, 2))) :
    EachStep (step (mainNode world)) (fun s c => c.1.Allowed (mainNode world) s) (.init listPool)
      [(.addToBlockIndex genesis, 2), c] := by
  have hgenesis : genesis.header.fields.getHash mainHash ≠ 0 := by decide +kernel
  exact ⟨Or.inr ⟨rfl, hgenesis⟩, hc, trivial⟩

/-- The file of the second block cannot be read when it is connected. -/
def unreadable (t : ℕ) : Io :=
  if t = 6 then { mainIo false with readFile := fun _ => none } else mainIo (t < 4)

theorem lateOk_unreadable (t : ℕ) : LateOk ((mainNode unreadable).world t) := by
  show (unreadable t).checkDiskSpace = true ∧ (unreadable t).sync = .ok ∧
    (unreadable t).coinsWrite = .ok
  unfold unreadable
  split_ifs
  · exact ⟨rfl, rfl, rfl⟩
  · exact ⟨rfl, rfl, rfl⟩

theorem setBestChain_atomic_unreadable :
    (switchToSecond unreadable).1 = .error (.failed (.abort "Failed to read block")) ∧
      Untouched (afterTwo unreadable) (switchToSecond unreadable).2 := by
  have hfails : (switchToSecond unreadable).1 =
      .error (.failed (.abort "Failed to read block")) := by decide +kernel
  have hatomic := (setBestChain_atomic (mainNode unreadable) lateOk_unreadable twoBlocks
    (allowed_afterGenesis (Or.inl (by decide +kernel)))).last
  rcases hrun : switchToSecond unreadable with ⟨r, s'⟩
  rw [hrun] at hfails
  subst hfails
  exact ⟨rfl, hatomic 2 premineHash _ s' hrun⟩

/-- There is no room on the disk when the coins of the second block are to be written. -/
def fullDisk (t : ℕ) : Io :=
  if t = 7 then { mainIo false with checkDiskSpace := false } else mainIo (t < 4)

/-- The coins have gone on to the second block, and the best block has not. -/
theorem setBestChain_not_atomic :
    EachStep (step (mainNode fullDisk)) (fun s c => c.1.Allowed (mainNode fullDisk) s)
        (.init listPool) twoBlocks ∧
      (switchToSecond fullDisk).1 = .error (.failed (.error "")) ∧
      (afterTwo fullDisk).pindexBest = some genesisHash ∧
      (afterTwo fullDisk).pcoinsTip.flat.best = some ⟨genesisHash, 0⟩ ∧
      (switchToSecond fullDisk).2.pindexBest = some genesisHash ∧
      (switchToSecond fullDisk).2.pcoinsTip.flat.best = some ⟨premineHash, 1⟩ ∧
      ¬ Throughout (step (mainNode fullDisk)) (Atomic (mainNode fullDisk)) (.init listPool)
        twoBlocks := by
  -- one evaluation for all of them
  obtain ⟨hknown, hfails, hbest, hbefore, hstays, hafter⟩ :
      ((step (mainNode fullDisk) (.init listPool) (.addToBlockIndex genesis, 2)).entry
        genesisHash).isSome = true ∧
      (switchToSecond fullDisk).1 = .error (.failed (.error "")) ∧
      (afterTwo fullDisk).pindexBest = some genesisHash ∧
      (afterTwo fullDisk).pcoinsTip.flat.best = some ⟨genesisHash, 0⟩ ∧
      (switchToSecond fullDisk).2.pindexBest = some genesisHash ∧
      (switchToSecond fullDisk).2.pcoinsTip.flat.best = some ⟨premineHash, 1⟩ := by
    decide +kernel
  refine ⟨allowed_afterGenesis (Or.inl hknown), hfails, hbest, hbefore, hstays, hafter, fun hatomic => ?_⟩
  rcases hrun : switchToSecond fullDisk with ⟨r, s'⟩
  rw [hrun] at hfails hafter
  subst hfails
  have huntouched := hatomic.last 2 premineHash _ s' hrun
  have hcoins := congrArg Flat.best huntouched.coins
  have hsame : some (⟨premineHash, 1⟩ : BlockPtr) = some ⟨genesisHash, 0⟩ :=
    hafter.symm.trans (hcoins.trans hbefore)
  exact absurd hsame (by decide)

end MainNetwork

end UmbrellaLtc.ChainRuns
