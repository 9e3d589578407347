import UmbrellaLtc.ChainRuns
import UmbrellaLtc.PoolIndex

/-!
ProcessBlock and AcceptBlock of main.cpp, with the blocks that wait for their
parents in mapOrphanBlocks and mapOrphanBlocksByPrev. Over every run of calls the
two maps hold the same blocks, and no block waits for a parent that the node has,
exactly as long as AcceptBlock does not fail behind the entry it has made for a
block that others wait for.
-/

namespace UmbrellaLtc.OrphanBlocks

open Codec Transaction Header Coins CoinsView CheckBlock ConnectBlock Guards BestChain ChainFrame
  ChainLinks Reorganise IndexSteps ChainRuns Prog Runs

variable {M : Type}

def nMedianTimeSpan : ℕ := 11

/-- The entries from one back along pprev. -/
def ancestors (s : ChainState M) : ℕ → Option Uint256 → List CBlockIndex
  | 0, _ => []
  | fuel + 1, pindex =>
      match pindex.bind s.entry with
      | none => []
      | some e => e :: ancestors s fuel e.pprev

def blockChain (s : ChainState M) (pindex : Uint256) : List CBlockIndex :=
  ancestors s (walkFuel s (some pindex)) (some pindex)

/-- CBlockIndex::GetMedianTimePast. -/
def getMedianTimePast (s : ChainState M) (pindex : Uint256) : ℕ :=
  let times := ((blockChain s pindex).take nMedianTimeSpan).map fun e => e.header.nTime.toNat
  (times.insertionSort (· ≤ ·)).getD (times.length / 2) 0

/-- block::const_iterator over the index. -/
def infoOf (e : CBlockIndex) : Kgw.InfoType := ⟨e.nHeight, e.header.nBits, e.header.nTime⟩

def ofKgwFault : Kgw.Fault → Failure
  | .dereference => .runtimeError "dereference"
  | .movement => .runtimeError "movement"
  | _ => .assertion

def nextBlockDifficulty (fTestNet : Bool) (horizon : Kgw.Horizon) (s : ChainState M)
    (pindexLast : Uint256) : Except Failure (BitVec 32) :=
  (Kgw.nextBlockDifficulty fTestNet horizon ((blockChain s pindexLast).map infoOf)).mapError
    ofKgwFault

/-- What the block files do when a block is written to them. -/
structure FileIo where
  findBlockPos : Except Failure Unit
  writeToDisk : Bool

/-- What AcceptBlock takes from outside beside what a node does: the event horizon, the
checkpoints, and the block files at each moment. -/
structure Rules where
  horizon : Kgw.Horizon
  checkpointed : ℕ → Uint256 → Bool
  lastCheckpoint : BlockMap → Option ℕ
  files : ℕ → FileIo

section Accepting

variable (node : Node M) (rules : Rules)

def hashOf (block : CBlock) : Uint256 := block.header.fields.getHash node.Hash

/-- The finality of a transaction reads no more than these of what is around the pool. -/
def aroundBlock (io : Io) (s : ChainState M) : MemPool.Around :=
  ⟨io.env, s.nBestHeight, 0, 0, fun _ => true, fun _ _ _ => true, false⟩

/-- The part of AcceptBlock for a block that is not the genesis block. Its rules about
versions are void, since IsSuperMajority returns false. -/
def checkParent (io : Io) (block : CBlock) (s : ChainState M) : Except Failure Unit :=
  match s.entry block.header.fields.hashPrevBlock with
  | none => .error (.dos 10 "AcceptBlock() : prev block not found" false)
  | some pindexPrev => do
      let nHeight := pindexPrev.nHeight + 1
      let nBits ← nextBlockDifficulty io.env.fTestNet rules.horizon s
        block.header.fields.hashPrevBlock
      require (Compact.setCompact block.header.fields.nBits = Compact.setCompact nBits)
        (.dos 100 "AcceptBlock() : incorrect proof of work" false)
      require (getMedianTimePast s block.header.fields.hashPrevBlock <
          block.header.fields.nTime.toNat)
        (.dos 0 "AcceptBlock() : block's timestamp is too early" false)
      require (∀ tx ∈ block.vtx, MemPool.isFinal (aroundBlock io s) tx nHeight
          block.header.fields.nTime.toNat = true)
        (.dos 10 "AcceptBlock() : contains a non-final transaction" false)
      require (rules.checkpointed nHeight (hashOf node block) = true)
        (.dos 100 "AcceptBlock() : rejected by checkpoint lock-in at %d" false)
      require (∀ height ∈ rules.lastCheckpoint s.mapBlockIndex, height ≤ nHeight)
        (.dos 100 "AcceptBlock() : forked chain older than last checkpoint (height %d)" false)

/-- The checks of AcceptBlock. -/
def checkContext (io : Io) (block : CBlock) (s : ChainState M) : Except Failure Unit :=
  if s.entry (hashOf node block) ≠ none then
    .error (.dos 0 "AcceptBlock() : block already in mapBlockIndex" false)
  else if hashOf node block ≠ io.env.genesisHash then checkParent node rules io block s
  else .ok ()

/-- `FindBlockPos` and `WriteToDisk`; the position is known when there is a dbp. -/
def writeBlock (files : FileIo) (dbp : Bool) : Except Failure Unit := do
  files.findBlockPos
  require (dbp = true ∨ files.writeToDisk = true) (.abort "Failed to write block")

/-- The part of AcceptBlock inside `try`. -/
def storeBlock (fuel : ℕ) (files : FileIo) (block : CBlock) (dbp : Bool) :
    Prog (ChainState M) Fault Unit := do
  plain (.lift (writeBlock files dbp))
  addToBlockIndex node fuel block

/-- CBlock::AcceptBlock. The fuel is for the loops of ConnectBestBlock. -/
def acceptBlock (fuel : ℕ) (block : CBlock) (dbp : Bool) : Prog (ChainState M) Fault Unit := do
  let s ← .act fun s => (s, s)
  let io ← plain (ask node)
  plain (.lift (checkContext node rules io block s))
  catchRuntimeError (storeBlock node fuel (rules.files s.clock) block dbp)

end Accepting

/-- The part of the node that ProcessBlock changes. The multimap is the list of its pairs,
in the order in which pairs with one key have been inserted. -/
structure BlockNode (M : Type) where
  chain : ChainState M
  mapOrphanBlocks : AList fun _ : Uint256 => CBlock
  mapOrphanBlocksByPrev : List (Uint256 × CBlock)

namespace BlockNode

/-- A node without orphans. -/
def start (chain : ChainState M) : BlockNode M := ⟨chain, ∅, []⟩

/-- The pairs from lower_bound to upper_bound. -/
def byPrev (s : BlockNode M) (hashPrev : Uint256) : List CBlock :=
  (s.mapOrphanBlocksByPrev.filter fun p => p.1 = hashPrev).map Prod.snd

def insertOrphan (hash : Uint256) (block : CBlock) (s : BlockNode M) : BlockNode M :=
  { s with
    mapOrphanBlocks := s.mapOrphanBlocks.insert hash block
    mapOrphanBlocksByPrev :=
      s.mapOrphanBlocksByPrev ++ [(block.header.fields.hashPrevBlock, block)] }

def eraseOrphan (hash : Uint256) (s : BlockNode M) : BlockNode M :=
  { s with mapOrphanBlocks := s.mapOrphanBlocks.erase hash }

def erasePrev (hashPrev : Uint256) (s : BlockNode M) : BlockNode M :=
  { s with
    mapOrphanBlocksByPrev := s.mapOrphanBlocksByPrev.filter fun p => p.1 ≠ hashPrev }

end BlockNode

def inChain {α : Type} (x : Prog (ChainState M) Fault α) : Prog (BlockNode M) Fault α :=
  .zoom BlockNode.chain (fun s chain => { s with chain := chain }) x

theorem inChain_run {α : Type} (x : Prog (ChainState M) Fault α) (s : BlockNode M) :
    (inChain x).run s = ((x.run s.chain).1, { s with chain := (x.run s.chain).2 }) := rfl

/-- What a call returns, when it returns. -/
def returned (x : Prog (ChainState M) Fault Unit) : Prog (ChainState M) Fault Bool := fun s =>
  match x s with
  | (.ok _, s') => (.ok true, s')
  | (.error (.failed e), s') => (if returnsFalse e then .ok false else .error (.failed e), s')
  | (.error .noFuel, s') => (.error .noFuel, s')

section Processing

variable (node : Node M) (rules : Rules) (fuel : ℕ)

/-- difficulty::dos_check_min_difficulty for KGW. The genesis block has been connected
before any block is processed. -/
def dosCheckMinDifficulty (io : Io) (block : CBlock) (s : ChainState M) : Except Failure Unit := do
  require (s.entry io.env.genesisHash ≠ none) .assertion
  require (Compact.setCompact block.header.fields.nBits ≤ Kgw.limit io.env.fTestNet)
    (.dos 100 "ProcessBlock() : block with too little proof-of-work" false)

/-- One orphan of the work queue's next block. -/
def acceptOrphan (vWorkQueue : List Uint256) (orphan : CBlock) :
    Prog (BlockNode M) Fault (List Uint256) := do
  let fAccepted ← inChain (returned (acceptBlock node rules fuel orphan false))
  .act fun s => ((), s.eraseOrphan (hashOf node orphan))
  return if fAccepted then vWorkQueue ++ [hashOf node orphan] else vWorkQueue

/-- The loop over vWorkQueue, from the index it has come to. -/
def processOrphans : ℕ → List Uint256 → Prog (BlockNode M) Fault Unit
  | _, [] => pure ()
  | 0, _ :: _ => .fail .noFuel
  | rounds + 1, hashPrev :: vWorkQueue => do
      let orphans ← .act fun s => (s.byPrev hashPrev, s)
      let vWorkQueue ← orphans.foldlM (acceptOrphan node rules fuel) vWorkQueue
      .act fun s => ((), s.erasePrev hashPrev)
      processOrphans rounds vWorkQueue

/-- A block, whether it comes from a peer, and whether it is in a block file already. -/
structure Arrival where
  block : CBlock
  pfrom : Bool
  dbp : Bool

/-- The checks of ProcessBlock. -/
def checkArrival (io : Io) (block : CBlock) (s : BlockNode M) : Except Failure Unit := do
  require (s.chain.entry (hashOf node block) = none)
    (.dos 0 "ProcessBlock() : already have block %d %s" false)
  require (s.mapOrphanBlocks.lookup (hashOf node block) = none)
    (.dos 0 "ProcessBlock() : already have block (orphan) %s" false)
  checkBlock (node.env io) block true true
  if block.header.fields.hashPrevBlock ≠ s.chain.hashBestChain then
    dosCheckMinDifficulty io block s.chain
  else .ok ()

/-- The previous block is not there yet. -/
def isOrphan (block : CBlock) (s : BlockNode M) : Bool :=
  block.header.fields.hashPrevBlock != 0 &&
    (s.chain.entry block.header.fields.hashPrevBlock).isNone

/-- ProcessBlock. -/
def processBlock (c : Arrival) : Prog (BlockNode M) Fault Unit := do
  let s ← .act fun s => (s, s)
  let io ← inChain (plain (ask node))
  inChain (plain (.lift (checkArrival node io c.block s)))
  if isOrphan c.block s then
    if c.pfrom then .act fun s => ((), s.insertOrphan (hashOf node c.block) c.block)
    else pure ()
  else do
    inChain (acceptBlock node rules fuel c.block c.dbp)
    processOrphans node rules fuel (s.mapOrphanBlocksByPrev.length + 1) [hashOf node c.block]

end Processing

section Growing

variable (node : Node M)

theorem within_tree {α : Type} {x : Prog (ChainState M) Failure α} (hx : Within Frame x) :
    Within SameTree (plain x) := within_plain fun s => Frame.sameTree (hx s)

theorem sameTree_setLinks (value : Uint256 → Option Uint256) (l : List Uint256)
    (s : ChainState M) : SameTree s (setLinks value l s) := by
  induction l generalizing s with
  | nil => exact refl (r := SameTree) s
  | cons h rest ih =>
    apply IsTrans.trans _ _ _ _ (ih _)
    dsimp only
    cases (s.entry h).bind CBlockIndex.pprev with
    | none => exact refl (r := SameTree) s
    | some p =>
      apply sameTree_of_unlinked (unlinked_setPnext s p (value h))
      have hother : s.setPnext p (value h) =
          { s with mapBlockIndex := (s.setPnext p (value h)).mapBlockIndex } := modify_eq s p _
      rw [hother]

theorem within_commit (pindexNew : Uint256) (vDisconnect vConnect : List Uint256)
    (txs : List CTransaction × List CTransaction) :
    Within SameTree (commit node pindexNew vDisconnect vConnect txs) := by
  refine within_bind (fun s => Frame.sameTree (within_ask node s)) fun io => ?_
  refine within_bind (fun s => (within_writeCoins io s).sameTree) fun _ => ?_
  refine within_bind (fun s => ?_) fun _ => within_bind (fun s => ?_) fun _ => fun s => ?_
  · exact IsTrans.trans _ _ _ (sameTree_setLinks (fun _ => none) vDisconnect s)
      (sameTree_setLinks some vConnect _)
  · have hrest := (pooled_commit node txs s).rest
    show SameTree s (txs.2.foldl (removeConnected node) (txs.1.foldl (resurrect node) s))
    rw [hrest]
    exact ⟨fun _ => rfl, rfl, fun _ h => h⟩
  · exact ⟨fun _ => rfl, rfl, fun _ h => h⟩

variable {nested : Prog (ChainState M) Fault Unit}

theorem within_ignoreResult (hnested : Within SameTree nested) :
    Within SameTree (ignoreResult nested) := by
  intro s
  rw [ignoreResult_state]
  exact hnested s

theorem within_giveUp (hnested : Within SameTree nested) (pindexNew : Uint256)
    (f : SwitchFailure) : Within SameTree (giveUp node nested pindexNew f) := by
  unfold giveUp
  cases f.pindex with
  | none => exact within_fail _
  | some h =>
    dsimp only
    split_ifs
    · refine within_bind (within_tree (within_invalidChainFound node pindexNew)) fun _ => ?_
      refine within_bind (within_bind (within_tree (within_markFailed node h)) fun _ => ?_)
        fun _ => within_fail _
      refine within_bind (within_tree (within_find h)) fun e => ?_
      split_ifs
      · exact within_ignoreResult hnested
      · exact within_pure ()
    · exact within_fail _

/-- SetBestChain makes no entries, however it ends. -/
theorem within_setBestChain (hnested : Within SameTree nested) (pindexNew : Uint256) :
    Within SameTree (setBestChain node nested pindexNew) := by
  intro s
  rcases hget : (Cache.new s.pcoinsTip).getBestBlock with ⟨best, view⟩
  rw [setBestChain_run node nested hget]
  cases findBranches s (best.map BlockPtr.hash) pindexNew with
  | error e => exact ⟨fun _ => rfl, rfl, fun _ h => h⟩
  | ok lists =>
    obtain ⟨vDisconnect, vConnect⟩ := lists
    have hmove := within_switchBranches node vDisconnect vConnect ⟨s, view⟩
    have hopen : SameTree s (Switch.close ⟨s, view⟩) := ⟨fun _ => rfl, rfl, fun _ h => h⟩
    dsimp only
    rcases hsw : (switchBranches node vDisconnect vConnect).run ⟨s, view⟩ with ⟨f | txs, sw⟩
    · rw [hsw] at hmove
      have hclose : SameTree s sw.close := IsTrans.trans _ _ _ hopen (Frame.sameTree hmove.close)
      exact IsTrans.trans _ _ _ hclose (within_giveUp node hnested pindexNew f sw.close)
    · rw [hsw] at hmove
      have hclose : SameTree s sw.close := IsTrans.trans _ _ _ hopen (Frame.sameTree hmove.close)
      have hflush : SameTree s sw.flush := ⟨hclose.cores, hclose.diskIndex, hclose.statuses⟩
      have hcommit := within_plain (within_commit node pindexNew vDisconnect vConnect txs) sw.flush
      exact IsTrans.trans _ _ _ hflush hcommit

theorem within_connectBestBlock (fuel : ℕ) : Within SameTree (connectBestBlock node fuel) := by
  induction fuel with
  | zero => exact within_fail _
  | succ fuel ih =>
    intro s
    rcases hrun : (connectBestBlock node (fuel + 1)).run s with ⟨r, s'⟩
    rcases connectBestBlock_cases node hrun with ⟨-, -, rfl⟩ | ⟨b, -, ⟨-, -, rfl⟩ |
      ⟨-, ⟨e, -, -, rfl⟩ | ⟨passed, -, hfail⟩ | ⟨vAttach, -, hattach⟩⟩⟩
    · exact refl (r := SameTree) s'
    · exact refl (r := SameTree) s'
    · exact refl (r := SameTree) s'
    · have hround : Within SameTree (failRound node fuel b passed) := by
        refine within_bind (within_tree (within_forM (within_markFailedChild node) passed))
          fun _ => ?_
        exact within_bind (within_tree (within_invalidChainFound node b)) fun _ => ih
      have hstep := hround s
      rwa [hfail] at hstep
    · have hround : Within SameTree (attachRound node fuel vAttach) := by
        refine within_forM (fun h s => ?_) vAttach
        rw [(catchRuntimeError_run _ s).1]
        exact within_setBestChain node ih h s
      have hstep := hround s
      rwa [hattach] at hstep

/-- There is an entry under a hash, `mapBlockIndex.count(h)`. -/
def Known (s : ChainState M) (h : Uint256) : Prop := (s.entry h).isSome

/-- The index has got no entries and lost none. -/
def SameKnown (s s' : ChainState M) : Prop := ∀ h, Known s' h ↔ Known s h

instance : IsPreorder (ChainState M) SameKnown where
  refl _ _ := Iff.rfl
  trans _ _ _ hst htu h := (htu h).trans (hst h)

/-- The same entries, up to their links and states. -/
def SameCores (s s' : ChainState M) : Prop := ∀ h, (s'.entry h).map core = (s.entry h).map core

instance : IsPreorder (ChainState M) SameCores where
  refl _ _ := Eq.refl _
  trans _ _ _ hst htu h := (htu h).trans (hst h)

theorem SameCores.sameKnown {s s' : ChainState M} (h : SameCores s s') : SameKnown s s' := by
  intro t
  unfold Known
  rw [← Option.isSome_map (f := core), h t, Option.isSome_map]

theorem SameCores.height_eq {s s' : ChainState M} (h : SameCores s s') : s'.height = s.height := by
  funext t
  show (s'.entry t).elim 0 (CBlockIndex.nHeight ∘ core) = (s.entry t).elim 0 _
  rw [← Option.elim_map, h t, Option.elim_map]
  rfl

theorem SameCores.entry_core {s s' : ChainState M} (h : SameCores s s') {c : Uint256}
    {e' : CBlockIndex} (he' : s'.entry c = some e') :
    ∃ e, s.entry c = some e ∧ core e = core e' := by
  have hcore := h c
  rw [he'] at hcore
  exact Option.map_eq_some_iff.mp hcore.symm

/-- The index has got the entry of one more block. -/
structure Stored (s s' : ChainState M) (hash : Uint256) : Prop where
  new : ¬ Known s hash
  known : ∀ h, Known s' h ↔ Known s h ∨ h = hash

theorem Stored.same {s s' s'' : ChainState M} {hash : Uint256} (h : Stored s s' hash)
    (hsame : SameKnown s' s'') : Stored s s'' hash :=
  ⟨h.new, fun t => (hsame t).trans (h.known t)⟩

theorem known_insertEntry (hash : Uint256) (block : CBlock) (s : ChainState M) (h : Uint256) :
    Known ((insertEntry hash block s).insertValid hash) h ↔ Known s h ∨ h = hash := by
  have hvalid : ((insertEntry hash block s).insertValid hash).mapBlockIndex =
      (insertEntry hash block s).mapBlockIndex := by
    unfold ChainState.insertValid
    split_ifs
    · rfl
    · rfl
  unfold Known ChainState.entry
  rw [hvalid]
  unfold insertEntry
  dsimp only
  by_cases hh : h = hash
  · subst hh
    rw [AList.lookup_insert]
    exact ⟨fun _ => Or.inr rfl, fun _ => rfl⟩
  · rw [AList.lookup_insert_ne hh, AList.lookup_insert_ne hh]
    exact ⟨Or.inl, fun h => h.resolve_right hh⟩

/-- The two records of an entry change nothing in memory. -/
theorem within_writeRecords (h : Uint256) :
    Within SameCores (writeDiskBlockIndex node h >>= fun _ => writeBlockIndex node h) := by
  refine within_bind (fun s => ?_) fun _ s => (Frame.sameTree ?_).cores
  · rcases hrun : (writeDiskBlockIndex node h).run s with ⟨r, s'⟩
    rcases writeDiskBlockIndex_cases hrun with ⟨-, rfl⟩ | ⟨e, -, -, rfl⟩
    · exact fun _ => rfl
    · exact fun _ => rfl
  · exact within_writeBlockIndex node h s

/-- AddToBlockIndex has made the entry of a block. -/
structure Made (s s' : ChainState M) (block : CBlock) : Prop where
  fresh : s.entry (hashOf node block) = none
  cores : SameCores
    ((insertEntry (hashOf node block) block s).insertValid (hashOf node block)) s'

variable {node} {s s' : ChainState M} {block : CBlock}

theorem Made.stored (h : Made node s s' block) : Stored s s' (hashOf node block) := by
  have hunknown : ¬ Known s (hashOf node block) := by
    intro hknown
    unfold Known at hknown
    rw [h.fresh] at hknown
    cases hknown
  exact Stored.same ⟨hunknown, known_insertEntry _ block s⟩ h.cores.sameKnown

theorem Made.same {s'' : ChainState M} (h : Made node s s' block) (hsame : SameCores s' s'') :
    Made node s s'' block := ⟨h.fresh, IsTrans.trans _ _ _ h.cores hsame⟩

theorem storeEntry_made {r : Except Failure Unit}
    (hrun : (storeEntry node block).run s = (r, s')) :
    (r ≠ .ok () ∧ s' = s) ∨ Made node s s' block := by
  rcases storeEntry_cases hrun with hrefused | ⟨hnew, hwrite⟩
  · exact Or.inl hrefused
  have hsame := within_writeRecords node (block.header.fields.getHash node.Hash)
    ((insertEntry (block.header.fields.getHash node.Hash) block s).insertValid
      (block.header.fields.getHash node.Hash))
  rw [hwrite] at hsame
  exact Or.inr ⟨hnew, hsame⟩

/-- AddToBlockIndex refuses a block that it has, or makes its entry, whatever comes then. -/
theorem addToBlockIndex_made {fuel : ℕ} {r : Except Fault Unit}
    (hrun : (addToBlockIndex node fuel block).run s = (r, s')) :
    (r ≠ .ok () ∧ s' = s) ∨ Made node s s' block := by
  unfold addToBlockIndex at hrun
  have hplain := plain_run (storeEntry node block) s
  rcases hstore : (storeEntry node block).run s with ⟨e | u, t⟩
  · rw [hstore] at hplain
    rw [run_bind_error hplain] at hrun
    cases hrun
    rcases storeEntry_made hstore with ⟨-, hsame⟩ | hmade
    · exact Or.inl ⟨by simp, hsame⟩
    · exact Or.inr hmade
  · rw [hstore] at hplain
    rw [run_bind_ok hplain] at hrun
    have hsearch := within_connectBestBlock node fuel t
    change (connectBestBlock node fuel).run t = (r, s') at hrun
    rw [hrun] at hsearch
    rcases storeEntry_made hstore with ⟨habs, -⟩ | hmade
    · exact absurd rfl habs
    · exact Or.inr (hmade.same hsearch.cores)

variable {rules : Rules}

theorem storeBlock_made {fuel : ℕ} {files : FileIo} {dbp : Bool} {r : Except Fault Unit}
    (hrun : (storeBlock node fuel files block dbp).run s = (r, s')) :
    (r ≠ .ok () ∧ s' = s) ∨ Made node s s' block := by
  unfold storeBlock at hrun
  cases hwrite : writeBlock files dbp with
  | error e =>
    rw [hwrite] at hrun
    cases hrun
    exact Or.inl ⟨by simp, rfl⟩
  | ok u =>
    rw [hwrite] at hrun
    exact addToBlockIndex_made hrun

/-- AcceptBlock refuses a block and makes no entry, or makes the entry of a block that has
passed its checks. -/
theorem acceptBlock_made {fuel : ℕ} {dbp : Bool} {r : Except Fault Unit}
    (hrun : (acceptBlock node rules fuel block dbp).run s = (r, s')) :
    (r ≠ .ok () ∧ SameCores s s') ∨
      checkContext node rules (node.world s.clock) block s = .ok () ∧
        Made node { s with clock := s.clock + 1 } s' block := by
  unfold acceptBlock at hrun
  have hread : (act fun s : ChainState M => (s, s) : Prog (ChainState M) Fault _).run s =
      (.ok s, s) := rfl
  have hask : (plain (ask node)).run s =
      (.ok (node.world s.clock), { s with clock := s.clock + 1 }) := rfl
  rw [run_bind_ok hread, run_bind_ok hask] at hrun
  generalize hs₁ : ({ s with clock := s.clock + 1 } : ChainState M) = s₁ at hrun
  have hsame : SameCores s s₁ := by
    rw [← hs₁]
    exact fun _ => rfl
  cases hcheck : checkContext node rules (node.world s.clock) block s with
  | error e =>
    rw [hcheck] at hrun
    cases hrun
    exact Or.inl ⟨by simp, hsame⟩
  | ok u =>
    rw [hcheck] at hrun
    change (catchRuntimeError (storeBlock node fuel _ block dbp)).run s₁ = (r, s') at hrun
    obtain ⟨hstate, hok⟩ := catchRuntimeError_run
      (storeBlock node fuel (rules.files s.clock) block dbp) s₁
    rcases hstore : (storeBlock node fuel (rules.files s.clock) block dbp).run s₁ with ⟨r₀, t⟩
    rw [hrun, hstore] at hstate hok
    obtain rfl : s' = t := hstate
    rcases storeBlock_made hstore with ⟨hne, heq⟩ | hmade
    · rw [← heq] at hsame
      exact Or.inl ⟨fun h => hne ((hok ()).mp h), hsame⟩
    · exact Or.inr ⟨rfl, hmade⟩

theorem acceptBlock_cases {fuel : ℕ} {dbp : Bool} {r : Except Fault Unit}
    (hrun : (acceptBlock node rules fuel block dbp).run s = (r, s')) :
    (r ≠ .ok () ∧ SameKnown s s') ∨ Stored s s' (hashOf node block) := by
  rcases acceptBlock_made hrun with ⟨hne, hsame⟩ | ⟨-, hmade⟩
  · exact Or.inl ⟨hne, hsame.sameKnown⟩
  · exact Or.inr ⟨hmade.stored.new, hmade.stored.known⟩

end Growing

section Waiting

variable (node : Node M) (rules : Rules) (fuel : ℕ)

/-- The two maps hold the same blocks, each once and under its own keys. -/
structure Together (s : BlockNode M) : Prop where
  held : ∀ hash block, s.mapOrphanBlocks.lookup hash = some block ↔ hashOf node block = hash ∧
    (block.header.fields.hashPrevBlock, block) ∈ s.mapOrphanBlocksByPrev
  filed : ∀ p ∈ s.mapOrphanBlocksByPrev, p.1 = p.2.header.fields.hashPrevBlock
  once : (s.mapOrphanBlocksByPrev.map fun p => hashOf node p.2).Nodup

/-- The orphans as they should be: the maps agree, and no orphan is kept whose previous
block the node has. -/
structure InOrder (s : BlockNode M) : Prop where
  together : Together node s
  waiting : ∀ hash block, s.mapOrphanBlocks.lookup hash = some block →
    s.chain.entry block.header.fields.hashPrevBlock = none

/-- AcceptBlock fails on a block that has got its entry, while an orphan waits for it. -/
def Strands (s : BlockNode M) (block : CBlock) (dbp : Bool) : Prop :=
  ¬ Known s.chain (hashOf node block) ∧
    Known ((acceptBlock node rules fuel block dbp).run s.chain).2 (hashOf node block) ∧
    ((acceptBlock node rules fuel block dbp).run s.chain).1 ≠ .ok () ∧
    ∃ p ∈ s.mapOrphanBlocksByPrev, p.1 = hashOf node block

/-- The calls of AcceptBlock in one round of the work queue, with the state each meets. -/
def orphanCalls : List CBlock → BlockNode M → List (BlockNode M × CBlock)
  | [], _ => []
  | orphan :: rest, s =>
      (s, orphan) :: orphanCalls rest ((acceptOrphan node rules fuel [] orphan).run s).2

/-- The calls of AcceptBlock in all rounds. -/
def queueCalls : ℕ → List Uint256 → BlockNode M → List (BlockNode M × CBlock)
  | _, [], _ => []
  | 0, _ :: _, _ => []
  | rounds + 1, hashPrev :: vWorkQueue, s =>
      orphanCalls node rules fuel (s.byPrev hashPrev) s ++
        match ((s.byPrev hashPrev).foldlM (acceptOrphan node rules fuel) vWorkQueue).run s with
        | (.ok vWorkQueue, s') => queueCalls rounds vWorkQueue (s'.erasePrev hashPrev)
        | (.error _, _) => []

/-- The state in front of the block's own AcceptBlock. -/
def asked (s : BlockNode M) : BlockNode M :=
  { s with chain := { s.chain with clock := s.chain.clock + 1 } }

/-- ProcessBlock comes to AcceptBlock for the block that has arrived. -/
def Reaches (s : BlockNode M) (c : Arrival) : Prop :=
  checkArrival node (node.world s.chain.clock) c.block s = .ok () ∧ isOrphan c.block s = false

/-- No call of AcceptBlock in a call of ProcessBlock strands an orphan. -/
def StrandsNone (s : BlockNode M) (c : Arrival) : Prop :=
  Reaches node s c → ¬ Strands node rules fuel (asked s) c.block c.dbp ∧
    match (acceptBlock node rules fuel c.block c.dbp).run (asked s).chain with
    | (.error _, _) => True
    | (.ok _, chain) => ∀ call ∈ queueCalls node rules fuel (s.mapOrphanBlocksByPrev.length + 1)
        [hashOf node c.block] { s with chain := chain },
        ¬ Strands node rules fuel call.1 call.2 false

end Waiting

section Rounds

variable {node : Node M} {rules : Rules} {fuel : ℕ} {s s' : BlockNode M} {hashPrev : Uint256}
  {q q' : List Uint256} {orphan : CBlock} {rest : List CBlock}

/-- A round of the work queue that has come to the orphans `rest`. -/
structure Draining (node : Node M) (hashPrev : Uint256) (rest : List CBlock) (q : List Uint256)
    (s : BlockNode M) : Prop where
  held : ∀ hash block, s.mapOrphanBlocks.lookup hash = some block ↔ hashOf node block = hash ∧
    (block.header.fields.hashPrevBlock, block) ∈ s.mapOrphanBlocksByPrev ∧
      (block.header.fields.hashPrevBlock = hashPrev → block ∈ rest)
  filed : ∀ p ∈ s.mapOrphanBlocksByPrev, p.1 = p.2.header.fields.hashPrevBlock
  once : (s.mapOrphanBlocksByPrev.map fun p => hashOf node p.2).Nodup
  mem : ∀ block ∈ rest, (hashPrev, block) ∈ s.mapOrphanBlocksByPrev
  distinct : rest.Nodup
  current : Known s.chain hashPrev
  queue : ∀ h ∈ q, Known s.chain h

/-- The orphans whose previous block is there have their turn in this round or later. -/
def Covered (hashPrev : Uint256) (q : List Uint256) (s : BlockNode M) : Prop :=
  ∀ p ∈ s.mapOrphanBlocksByPrev, Known s.chain p.1 → p.1 = hashPrev ∨ p.1 ∈ q

theorem returned_ok {x : Prog (ChainState M) Fault Unit} {t t' : ChainState M} {b : Bool}
    (h : (returned x).run t = (.ok b, t')) :
    (x.run t).2 = t' ∧ (b = true ↔ (x.run t).1 = .ok ()) := by
  unfold returned Prog.run at h
  unfold Prog.run
  dsimp only at h
  rcases hx : x t with ⟨(e | _) | u, t₁⟩
  · rw [hx] at h
    dsimp only at h
    split_ifs at h
    · cases h
      simp
    · cases h
  · rw [hx] at h
    cases h
  · rw [hx] at h
    cases h
    simp

/-- What one orphan of a round comes to. -/
theorem acceptOrphan_ok (hrun : (acceptOrphan node rules fuel q orphan).run s = (.ok q', s')) :
    s' = ({ s with chain := ((acceptBlock node rules fuel orphan false).run s.chain).2 } :
      BlockNode M).eraseOrphan (hashOf node orphan) ∧
    ((((acceptBlock node rules fuel orphan false).run s.chain).1 = .ok () ∧
        q' = q ++ [hashOf node orphan]) ∨
      (((acceptBlock node rules fuel orphan false).run s.chain).1 ≠ .ok () ∧ q' = q)) := by
  unfold acceptOrphan at hrun
  obtain ⟨fAccepted, s₁, hcall, hrest⟩ := bind_ok_cases hrun
  have hchain : (returned (acceptBlock node rules fuel orphan false)).run s.chain =
      (.ok fAccepted, s₁.chain) ∧ s₁ = { s with chain := s₁.chain } := by
    rcases hr : (returned (acceptBlock node rules fuel orphan false)).run s.chain with ⟨r, t⟩
    rw [inChain_run, hr] at hcall
    cases hcall
    exact ⟨rfl, rfl⟩
  obtain ⟨hstate, hvalue⟩ := returned_ok hchain.1
  change (Except.ok (if fAccepted then q ++ [hashOf node orphan] else q), s₁.eraseOrphan _) =
    (Except.ok q', s') at hrest
  cases hrest
  refine ⟨?_, ?_⟩
  · rw [hchain.2, hstate]
  · cases fAccepted with
    | true => exact Or.inl ⟨hvalue.mp rfl, rfl⟩
    | false => exact Or.inr ⟨fun h => absurd (hvalue.mpr h) (by simp), rfl⟩

theorem inj_of_nodup {l : List (Uint256 × CBlock)} (hl : (l.map fun p => hashOf node p.2).Nodup)
    {p p' : Uint256 × CBlock} (hp : p ∈ l) (hp' : p' ∈ l)
    (hhash : hashOf node p.2 = hashOf node p'.2) : p = p' :=
  List.inj_on_of_nodup_map hl hp hp' hhash

/-- The map without an orphan that has had its turn. -/
theorem Draining.erase (h : Draining node hashPrev (orphan :: rest) q s) (hash : Uint256)
    (block : CBlock) :
    (s.mapOrphanBlocks.erase (hashOf node orphan)).lookup hash = some block ↔
      hashOf node block = hash ∧
      (block.header.fields.hashPrevBlock, block) ∈ s.mapOrphanBlocksByPrev ∧
      (block.header.fields.hashPrevBlock = hashPrev → block ∈ rest) := by
  have hmem := h.mem orphan List.mem_cons_self
  have hfresh : orphan ∉ rest := (List.nodup_cons.mp h.distinct).1
  by_cases hh : hash = hashOf node orphan
  · subst hh
    rw [AList.lookup_erase]
    constructor
    · intro habs
      cases habs
    · rintro ⟨hhash, hblock, hturn⟩
      obtain ⟨hprev, rfl⟩ := Prod.mk.inj (inj_of_nodup h.once hblock hmem hhash)
      exact absurd (hturn hprev) hfresh
  · rw [AList.lookup_erase_ne hh, h.held]
    refine and_congr_right fun hhash => and_congr_right fun _ => forall_congr' fun _ => ?_
    have hne : block ≠ orphan := by
      rintro rfl
      exact hh hhash.symm
    rw [List.mem_cons, or_iff_right hne]

/-- One orphan has its turn, and the others keep theirs unless it strands some. -/
theorem Draining.step (h : Draining node hashPrev (orphan :: rest) q s)
    (hrun : (acceptOrphan node rules fuel q orphan).run s = (.ok q', s')) :
    Draining node hashPrev rest q' s' ∧ (Covered hashPrev q' s' ↔
      Covered hashPrev q s ∧ ¬ Strands node rules fuel s orphan false) := by
  obtain ⟨hs', hqueue⟩ := acceptOrphan_ok hrun
  unfold Strands
  rcases hacc : (acceptBlock node rules fuel orphan false).run s.chain with ⟨r, chain⟩
  rw [hacc] at hs' hqueue
  dsimp only at hs' hqueue ⊢
  have hby : s'.mapOrphanBlocksByPrev = s.mapOrphanBlocksByPrev := by
    rw [hs']
    rfl
  have hmap : s'.mapOrphanBlocks = s.mapOrphanBlocks.erase (hashOf node orphan) :=
    congrArg BlockNode.mapOrphanBlocks hs'
  have hchain : s'.chain = chain := congrArg BlockNode.chain hs'
  have hdrain : (∀ t, Known s.chain t → Known chain t) → (∀ t ∈ q', Known chain t) →
      Draining node hashPrev rest q' s' := by
    intro hgrow hq'
    refine ⟨?_, ?_, ?_, ?_, (List.nodup_cons.mp h.distinct).2, ?_, ?_⟩
    · rw [hmap, hby]
      exact h.erase
    · rw [hby]
      exact h.filed
    · rw [hby]
      exact h.once
    · rw [hby]
      exact fun block hblock => h.mem block (List.mem_cons_of_mem _ hblock)
    · rw [hchain]
      exact hgrow _ h.current
    · rw [hchain]
      exact hq'
  unfold Covered
  rw [hby, hchain]
  rcases acceptBlock_cases hacc with ⟨hne, hsame⟩ | hstored
  · -- AcceptBlock has refused the orphan
    obtain ⟨-, rfl⟩ := hqueue.resolve_left fun hok => hne hok.1
    refine ⟨hdrain (fun t => (hsame t).mpr) fun t ht => (hsame t).mpr (h.queue t ht), ?_⟩
    have hnot : ¬ (¬ Known s.chain (hashOf node orphan) ∧ Known chain (hashOf node orphan) ∧
        r ≠ .ok () ∧ ∃ p ∈ s.mapOrphanBlocksByPrev, p.1 = hashOf node orphan) :=
      fun habs => habs.1 ((hsame _).mp habs.2.1)
    rw [and_iff_left hnot]
    exact forall₂_congr fun p _ => imp_congr_left (hsame p.1)
  · have hgrow : ∀ t, Known s.chain t → Known chain t :=
      fun t ht => (hstored.known t).mpr (Or.inl ht)
    have hself : Known chain (hashOf node orphan) := (hstored.known _).mpr (Or.inr rfl)
    rcases hqueue with ⟨hok, rfl⟩ | ⟨hne, rfl⟩
    · -- the orphan is accepted and joins the queue
      refine ⟨hdrain hgrow fun t ht => ?_, ?_⟩
      · rcases List.mem_append.mp ht with ht | ht
        · exact hgrow t (h.queue t ht)
        · rw [List.mem_singleton.mp ht]
          exact hself
      rw [and_iff_left fun habs => habs.2.2.1 hok]
      refine forall₂_congr fun p _ => ?_
      rw [hstored.known, List.mem_append, List.mem_singleton, ← or_assoc]
      constructor
      · intro hall hknown
        refine (hall (Or.inl hknown)).resolve_right fun heq => hstored.new ?_
        rw [← heq]
        exact hknown
      · rintro hall (hknown | heq)
        · exact Or.inl (hall hknown)
        · exact Or.inr heq
    · -- the orphan has got its entry and AcceptBlock has failed
      refine ⟨hdrain hgrow fun t ht => hgrow t (h.queue t ht), ?_⟩
      have hout : ∀ t, t = hashPrev ∨ t ∈ q' → t ≠ hashOf node orphan := by
        rintro t ht rfl
        rcases ht with ht | ht
        · exact hstored.new (ht ▸ h.current)
        · exact hstored.new (h.queue _ ht)
      constructor
      · intro hall
        refine ⟨fun p hp hknown => hall p hp (hgrow _ hknown), ?_⟩
        rintro ⟨-, -, -, p, hp, heq⟩
        exact hout p.1 (hall p hp (heq ▸ hself)) heq
      · rintro ⟨hall, hnone⟩ p hp hknown
        rcases (hstored.known _).mp hknown with hknown | heq
        · exact hall p hp hknown
        · exact absurd ⟨hstored.new, hself, hne, p, hp, heq⟩ hnone

variable (node rules fuel orphan) in
/-- The state after one orphan does not depend on the queue. -/
theorem acceptOrphan_state (q : List Uint256) (s : BlockNode M) :
    ((acceptOrphan node rules fuel q orphan).run s).2 =
      ((acceptOrphan node rules fuel [] orphan).run s).2 := by
  unfold acceptOrphan
  rcases h : (inChain (returned (acceptBlock node rules fuel orphan false))).run s with ⟨e | b, t⟩
  · rw [run_bind_error h, run_bind_error h]
  · rw [run_bind_ok h, run_bind_ok h]
    rfl

/-- A round comes to its end, by induction on the orphans that have not had their turn. -/
theorem Draining.round (h : Draining node hashPrev rest q s)
    (hrun : (rest.foldlM (acceptOrphan node rules fuel) q).run s = (.ok q', s')) :
    Draining node hashPrev [] q' s' ∧ (Covered hashPrev q' s' ↔ Covered hashPrev q s ∧
      ∀ call ∈ orphanCalls node rules fuel rest s,
        ¬ Strands node rules fuel call.1 call.2 false) := by
  induction rest generalizing q s with
  | nil =>
    cases hrun
    exact ⟨h, by simp [orphanCalls]⟩
  | cons orphan rest ih =>
    rw [List.foldlM_cons] at hrun
    obtain ⟨q₁, s₁, hone, hmore⟩ := bind_ok_cases hrun
    obtain ⟨hdrain, hcovered⟩ := h.step hone
    obtain ⟨hend, hmany⟩ := ih hdrain hmore
    have hstate := acceptOrphan_state node rules fuel orphan q s
    rw [hone] at hstate
    refine ⟨hend, ?_⟩
    rw [hmany, hcovered, orphanCalls, List.forall_mem_cons, and_assoc, ← hstate]

/-- The orphans of a block as a round finds them. -/
theorem Together.draining (h : Together node s) (hcurrent : Known s.chain hashPrev)
    (hqueue : ∀ t ∈ q, Known s.chain t) :
    Draining node hashPrev (s.byPrev hashPrev) q s := by
  have hmem : ∀ block, block ∈ s.byPrev hashPrev ↔
      (hashPrev, block) ∈ s.mapOrphanBlocksByPrev := by
    intro block
    simp [BlockNode.byPrev]
  refine ⟨fun hash block => ?_, h.filed, h.once, fun block => (hmem block).mp, ?_, hcurrent, hqueue⟩
  · rw [h.held]
    refine and_congr_right fun _ => (and_iff_left_of_imp fun hblock hprev => ?_).symm
    rw [hmem, ← hprev]
    exact hblock
  · have hsub : ((s.mapOrphanBlocksByPrev.filter fun p => p.1 = hashPrev).map
        fun p => hashOf node p.2).Nodup := h.once.sublist (List.filter_sublist.map _)
    rw [← Function.comp_def, ← List.map_map] at hsub
    exact hsub.of_map _

/-- The maps at the end of a round. -/
theorem Draining.together (h : Draining node hashPrev [] q s) :
    Together node (s.erasePrev hashPrev) where
  held hash block := by
    show s.mapOrphanBlocks.lookup hash = some block ↔ _ ∧ _ ∈ List.filter _ _
    rw [h.held]
    simp
  filed p hp := h.filed p (List.mem_of_mem_filter hp)
  once := h.once.sublist (List.filter_sublist.map _)

/-- The work queue: the orphans it leaves wait, unless one was not in its reach at the
start or has been stranded. -/
theorem processOrphans_spec {rounds : ℕ} (htogether : Together node s)
    (hqueue : ∀ t ∈ q, Known s.chain t)
    (hrun : (processOrphans node rules fuel rounds q).run s = (.ok (), s')) :
    Together node s' ∧ ((∀ p ∈ s'.mapOrphanBlocksByPrev, ¬ Known s'.chain p.1) ↔
      (∀ p ∈ s.mapOrphanBlocksByPrev, Known s.chain p.1 → p.1 ∈ q) ∧
      ∀ call ∈ queueCalls node rules fuel rounds q s,
        ¬ Strands node rules fuel call.1 call.2 false) := by
  induction rounds generalizing q s with
  | zero =>
    cases q with
    | nil =>
      cases hrun
      exact ⟨htogether, by simp [queueCalls]⟩
    | cons hashPrev q => cases hrun
  | succ rounds ih =>
    cases q with
    | nil =>
      cases hrun
      exact ⟨htogether, by simp [queueCalls]⟩
    | cons hashPrev q =>
      obtain ⟨hcurrent, hlater⟩ := List.forall_mem_cons.mp hqueue
      have hdrain := htogether.draining hcurrent hlater
      unfold processOrphans at hrun
      obtain ⟨orphans, t, hread, hrun⟩ := bind_ok_cases hrun
      cases hread
      obtain ⟨q₁, s₁, hround, hrun⟩ := bind_ok_cases hrun
      change ((s.byPrev hashPrev).foldlM (acceptOrphan node rules fuel) q).run s = _ at hround
      obtain ⟨hend, hcovered⟩ := hdrain.round hround
      obtain ⟨_, s₂, herase, hrun⟩ := bind_ok_cases hrun
      cases herase
      obtain ⟨htogether', hwaiting⟩ := ih hend.together hend.queue hrun
      refine ⟨htogether', ?_⟩
      have hhead : (∀ p ∈ (s₁.erasePrev hashPrev).mapOrphanBlocksByPrev,
          Known (s₁.erasePrev hashPrev).chain p.1 → p.1 ∈ q₁) ↔ Covered hashPrev q₁ s₁ := by
        unfold Covered
        refine forall_congr' fun p => ?_
        show p ∈ List.filter _ _ → (Known s₁.chain p.1 → _) ↔ _
        rw [List.mem_filter]
        by_cases hp : p.1 = hashPrev
        · simp [hp]
        · simp [hp]
      have hstart : (∀ p ∈ s.mapOrphanBlocksByPrev, Known s.chain p.1 → p.1 ∈ hashPrev :: q) ↔
          Covered hashPrev q s := by
        unfold Covered
        simp only [List.mem_cons]
      rw [hwaiting, hhead, hcovered, hstart, queueCalls, List.forall_mem_append, hround, and_assoc]

end Rounds

section Ending

variable (node : Node M) (rules : Rules) (fuel : ℕ) {s s' : BlockNode M}

/-- A call that does not return, by the way it fails. -/
def Dies (e : Fault) : Prop := ∀ f, e = .failed f → returnsFalse f = false

theorem holds_returned (x : Prog (ChainState M) Fault Unit) (t : ChainState M) :
    Holds (returned x) t (fun _ _ => True) Dies := by
  unfold Holds returned Prog.run
  dsimp only
  rcases x t with ⟨(e | _) | u, t₁⟩
  · dsimp only
    split_ifs with he
    · trivial
    · intro f hf
      cases hf
      exact Bool.eq_false_iff.mpr he
  · intro f hf
    cases hf
  · trivial

/-- An orphan adds at most itself to the queue. -/
theorem holds_acceptOrphan (q : List Uint256) (orphan : CBlock) (s : BlockNode M) :
    Holds (acceptOrphan node rules fuel q orphan) s
      (fun q' s' => q'.length ≤ q.length + 1 ∧
        s'.mapOrphanBlocksByPrev = s.mapOrphanBlocksByPrev) Dies := by
  refine holds_bind (holds_zoom ?_)
  refine (holds_returned _ _).mono (fun fAccepted t _ => ?_) fun _ he => he
  refine holds_bind (holds_act _ (holds_pure _ ⟨?_, rfl⟩))
  cases fAccepted with
  | true => simp
  | false => simp

theorem holds_round (rest : List CBlock) (q : List Uint256) (s : BlockNode M) :
    Holds (rest.foldlM (acceptOrphan node rules fuel) q) s
      (fun q' s' => q'.length ≤ q.length + rest.length ∧
        s'.mapOrphanBlocksByPrev = s.mapOrphanBlocksByPrev) Dies := by
  refine (holds_foldlM (fun rest' q' s' => q'.length + rest'.length ≤ q.length + rest.length ∧
    s'.mapOrphanBlocksByPrev = s.mapOrphanBlocksByPrev) ?_ rest q s ⟨le_refl _, rfl⟩).mono ?_
    fun _ he => he
  · intro orphan rest' q' t ht
    refine (holds_acceptOrphan node rules fuel q' orphan t).mono ?_ fun _ he => he
    intro q'' t' ht'
    have hlen := ht.1
    rw [List.length_cons] at hlen
    exact ⟨by omega, ht'.2.trans ht.2⟩
  · intro q' t ht
    exact ⟨ht.1, ht.2⟩

/-- The rounds that ProcessBlock has are enough: each orphan leaves the multimap in the
round that may put it on the queue. -/
theorem processOrphans_enough {q : List Uint256} {rounds : ℕ}
    (hrounds : q.length + s.mapOrphanBlocksByPrev.length ≤ rounds) :
    (processOrphans node rules fuel (rounds + 1) q).run s =
      (processOrphans node rules fuel rounds q).run s := by
  induction rounds generalizing q s with
  | zero =>
    cases q with
    | nil => rfl
    | cons hashPrev q => simp at hrounds
  | succ rounds ih =>
    cases q with
    | nil => rfl
    | cons hashPrev q =>
      have hround := holds_round node rules fuel (s.byPrev hashPrev) q s
      show (((s.byPrev hashPrev).foldlM (acceptOrphan node rules fuel) q) >>= fun q' => _).run s =
        (((s.byPrev hashPrev).foldlM (acceptOrphan node rules fuel) q) >>= fun q' => _).run s
      rcases h : ((s.byPrev hashPrev).foldlM (acceptOrphan node rules fuel) q).run s with
        ⟨e | q', t⟩
      · rw [run_bind_error h, run_bind_error h]
      · rw [run_bind_ok h, run_bind_ok h]
        obtain ⟨hlen, hby⟩ := hround.of_ok h
        apply ih
        have hsplit : (s.byPrev hashPrev).length +
            (t.erasePrev hashPrev).mapOrphanBlocksByPrev.length =
              s.mapOrphanBlocksByPrev.length := by
          unfold BlockNode.byPrev BlockNode.erasePrev
          rw [List.length_map, hby]
          have hfilter := List.length_eq_length_filter_add (l := s.mapOrphanBlocksByPrev)
            fun p => decide (p.1 = hashPrev)
          simp only [← decide_not] at hfilter
          exact hfilter.symm
        show q'.length + (t.erasePrev hashPrev).mapOrphanBlocksByPrev.length ≤ rounds
        rw [List.length_cons] at hrounds
        omega

/-- A failure of the work queue is one behind which ProcessBlock does not return. -/
theorem processOrphans_dies (rounds : ℕ) (q : List Uint256) (s : BlockNode M) :
    Holds (processOrphans node rules fuel rounds q) s (fun _ _ => True) Dies := by
  induction rounds generalizing q s with
  | zero =>
    cases q with
    | nil => exact holds_pure () trivial
    | cons hashPrev q =>
      intro f hf
      cases hf
  | succ rounds ih =>
    cases q with
    | nil => exact holds_pure () trivial
    | cons hashPrev q =>
      refine holds_bind (holds_act _ (holds_bind ?_))
      refine (holds_round node rules fuel _ q s).mono (fun q' t _ => ?_) fun _ he => he
      exact holds_bind (holds_act _ (ih q' _))

end Ending

section Arriving

variable {node : Node M} {rules : Rules} {fuel : ℕ} {s s' : BlockNode M} {c : Arrival}
  {r : Except Fault Unit}

/-- The ways of ProcessBlock: a check fails, the block is kept as an orphan or dropped as
one, AcceptBlock fails, or the orphans behind the block have their turn. -/
theorem processBlock_cases (hrun : (processBlock node rules fuel c).run s = (r, s')) :
    (¬ Reaches node s c ∧ s' = asked s) ∨
    (checkArrival node (node.world s.chain.clock) c.block s = .ok () ∧
      isOrphan c.block s = true ∧ s' = (asked s).insertOrphan (hashOf node c.block) c.block) ∨
    (Reaches node s c ∧ ∃ e chain,
      (acceptBlock node rules fuel c.block c.dbp).run (asked s).chain = (.error e, chain) ∧
        s' = { s with chain := chain }) ∨
    (Reaches node s c ∧ ∃ chain,
      (acceptBlock node rules fuel c.block c.dbp).run (asked s).chain = (.ok (), chain) ∧
        (processOrphans node rules fuel (s.mapOrphanBlocksByPrev.length + 1)
          [hashOf node c.block]).run { s with chain := chain } = (r, s')) := by
  unfold processBlock at hrun
  have hread : (act fun s : BlockNode M => (s, s) : Prog (BlockNode M) Fault _).run s =
      (.ok s, s) := rfl
  have hask : (inChain (plain (ask node))).run s = (.ok (node.world s.chain.clock), asked s) := rfl
  rw [run_bind_ok hread, run_bind_ok hask] at hrun
  cases hc : checkArrival node (node.world s.chain.clock) c.block s with
  | error e =>
    have hcheck : (inChain (plain (lift (.error e : Except Failure Unit)))).run (asked s) =
        (.error (.failed e), asked s) := rfl
    rw [hc, run_bind_error hcheck] at hrun
    cases hrun
    exact Or.inl ⟨fun hreach => absurd (hc.symm.trans hreach.1) (by simp), rfl⟩
  | ok u =>
    have hcheck : (inChain (plain (lift (.ok () : Except Failure Unit)))).run (asked s) =
        (.ok (), asked s) := rfl
    rw [hc, run_bind_ok hcheck] at hrun
    cases horphan : isOrphan c.block s with
    | true =>
      have hnot : ¬ Reaches node s c := fun hreach => absurd (horphan.symm.trans hreach.2) (by simp)
      rw [horphan, if_pos rfl] at hrun
      split_ifs at hrun
      · cases hrun
        exact Or.inr (Or.inl ⟨rfl, rfl, rfl⟩)
      · cases hrun
        exact Or.inl ⟨hnot, rfl⟩
    | false =>
      have hreach : Reaches node s c := ⟨hc, horphan⟩
      rw [horphan, if_neg (by simp)] at hrun
      rcases hacc : (acceptBlock node rules fuel c.block c.dbp).run (asked s).chain with
        ⟨e | u, chain⟩
      · have hcall : (inChain (acceptBlock node rules fuel c.block c.dbp)).run (asked s) =
            (.error e, { s with chain := chain }) := by
          rw [inChain_run, hacc]
          rfl
        rw [run_bind_error hcall] at hrun
        cases hrun
        exact Or.inr (Or.inr (Or.inl ⟨hreach, e, chain, rfl, rfl⟩))
      · have hcall : (inChain (acceptBlock node rules fuel c.block c.dbp)).run (asked s) =
            (.ok (), { s with chain := chain }) := by
          rw [inChain_run, hacc]
          rfl
        rw [run_bind_ok hcall] at hrun
        exact Or.inr (Or.inr (Or.inr ⟨hreach, chain, rfl, hrun⟩))

/-- The orphans in order, read off the multimap. -/
theorem inOrder_iff : InOrder node s ↔ Together node s ∧
    ∀ p ∈ s.mapOrphanBlocksByPrev, ¬ Known s.chain p.1 := by
  constructor
  · intro h
    refine ⟨h.together, fun p hp hknown => ?_⟩
    have hfiled := h.together.filed p hp
    have hlookup : s.mapOrphanBlocks.lookup (hashOf node p.2) = some p.2 :=
      (h.together.held _ _).mpr ⟨rfl, hfiled ▸ hp⟩
    have hnone := h.waiting _ _ hlookup
    unfold Known at hknown
    rw [hfiled, hnone] at hknown
    cases hknown
  · intro h
    refine ⟨h.1, fun hash block hlookup => ?_⟩
    have hmem := ((h.1.held hash block).mp hlookup).2
    exact Option.not_isSome_iff_eq_none.mp (h.2 _ hmem)

/-- A block that is kept as an orphan. -/
theorem Together.insert (h : Together node s) {block : CBlock}
    (hnew : s.mapOrphanBlocks.lookup (hashOf node block) = none) :
    Together node (s.insertOrphan (hashOf node block) block) := by
  have hfresh : ∀ p ∈ s.mapOrphanBlocksByPrev, hashOf node p.2 ≠ hashOf node block := by
    intro p hp heq
    have hlookup := (h.held (hashOf node block) p.2).mpr ⟨heq, h.filed p hp ▸ hp⟩
    rw [hnew] at hlookup
    cases hlookup
  refine ⟨fun hash block' => ?_, ?_, ?_⟩
  · show (s.mapOrphanBlocks.insert (hashOf node block) block).lookup hash = some block' ↔
      _ ∧ _ ∈ s.mapOrphanBlocksByPrev ++ [_]
    rw [List.mem_append, List.mem_singleton]
    by_cases hh : hash = hashOf node block
    · subst hh
      rw [AList.lookup_insert]
      constructor
      · intro heq
        cases heq
        exact ⟨rfl, Or.inr rfl⟩
      · rintro ⟨heq, hmem | hmem⟩
        · exact absurd heq (hfresh _ hmem)
        · rw [(Prod.mk.inj hmem).2]
    · rw [AList.lookup_insert_ne hh, h.held]
      refine and_congr_right fun heq => (or_iff_left fun hmem => hh ?_).symm
      rw [← heq, (Prod.mk.inj hmem).2]
  · intro p hp
    rcases List.mem_append.mp hp with hp | hp
    · exact h.filed p hp
    · rw [List.mem_singleton.mp hp]
  · show ((s.mapOrphanBlocksByPrev ++ [_]).map _).Nodup
    rw [List.map_append]
    refine h.once.append (List.nodup_singleton _) ?_
    intro hash hmem hlast
    obtain ⟨p, hp, rfl⟩ := List.mem_map.mp hmem
    exact hfresh p hp (List.mem_singleton.mp hlast)

/-- A call of ProcessBlock has returned. -/
def Returned (node : Node M) (rules : Rules) (s : BlockNode M) (c : Arrival × ℕ) : Prop :=
  ∀ e, ((processBlock node rules c.2 c.1).run s).1 = .error e → ∃ f, e = .failed f ∧
    returnsFalse f = true

def step (node : Node M) (rules : Rules) (s : BlockNode M) (c : Arrival × ℕ) : BlockNode M :=
  ((processBlock node rules c.2 c.1).run s).2

theorem unknown_of_checkArrival {io : Io} {block : CBlock}
    (h : checkArrival node io block s = .ok ()) :
    s.mapOrphanBlocks.lookup (hashOf node block) = none := by
  unfold checkArrival at h
  rw [require_ok_iff, require_ok_iff] at h
  exact h.2.1

theorem not_known_of_isOrphan {block : CBlock} (h : isOrphan block s = true) :
    ¬ Known s.chain block.header.fields.hashPrevBlock := by
  unfold isOrphan at h
  rw [Bool.and_eq_true, Option.isNone_iff_eq_none] at h
  exact Option.not_isSome_iff_eq_none.mpr h.2

/-- A call that returns leaves the orphans in order if and only if it strands none. -/
theorem step_inOrder_iff {c : Arrival × ℕ} (hs : InOrder node s)
    (hreturned : Returned node rules s c) :
    InOrder node (step node rules s c) ↔ StrandsNone node rules c.2 s c.1 := by
  obtain ⟨htogether, hwaiting⟩ := inOrder_iff.mp hs
  unfold Returned at hreturned
  unfold step
  rcases hrun : (processBlock node rules c.2 c.1).run s with ⟨r, s'⟩
  rw [hrun] at hreturned
  rw [inOrder_iff]
  dsimp only at hreturned ⊢
  have hasked : Together node (asked s) :=
    ⟨htogether.held, htogether.filed, htogether.once⟩
  rcases processBlock_cases hrun with ⟨hnot, rfl⟩ | ⟨hcheck, horphan, rfl⟩ |
    ⟨hreach, e, chain, hacc, rfl⟩ | ⟨hreach, chain, hacc, hqueue⟩
  · exact iff_of_true ⟨hasked, hwaiting⟩ fun hreach => absurd hreach hnot
  · refine iff_of_true ⟨hasked.insert (unknown_of_checkArrival hcheck), ?_⟩
      fun hreach => absurd (horphan.symm.trans hreach.2) (by simp)
    intro p hp
    rcases List.mem_append.mp hp with hp | hp
    · exact hwaiting p hp
    · rw [List.mem_singleton.mp hp]
      exact not_known_of_isOrphan horphan
  · have hsame : Together node { s with chain := chain } :=
      ⟨htogether.held, htogether.filed, htogether.once⟩
    have hstrands : StrandsNone node rules c.2 s c.1 ↔
        ¬ Strands node rules c.2 (asked s) c.1.block c.1.dbp := by
      unfold StrandsNone
      rw [hacc]
      exact ⟨fun h => (h hreach).1, fun h _ => ⟨h, trivial⟩⟩
    rw [hstrands, and_iff_right hsame]
    unfold Strands
    rw [hacc]
    rcases acceptBlock_cases hacc with ⟨-, hknown⟩ | hstored
    · -- AcceptBlock has refused the block
      refine iff_of_true (fun p hp h => hwaiting p hp ((hknown _).mp h)) fun habs => ?_
      exact habs.1 ((hknown _).mp habs.2.1)
    · -- the block has got its entry and AcceptBlock has failed
      constructor
      · rintro hall ⟨-, hself, -, p, hp, heq⟩
        exact hall p hp (heq ▸ hself)
      · intro hnone p hp hknown
        rcases (hstored.known _).mp hknown with hold | heq
        · exact hwaiting p hp hold
        · exact hnone ⟨hstored.new, (hstored.known _).mpr (Or.inr rfl), by simp, p, hp, heq⟩
  · have hstored : Stored (asked s).chain chain (hashOf node c.1.block) :=
      (acceptBlock_cases hacc).resolve_left fun h => h.1 rfl
    obtain rfl : r = .ok () := by
      rcases r with e | u
      · obtain ⟨f, hf, hret⟩ := hreturned e rfl
        have hdies := (processOrphans_dies node rules c.2 _ _ _).of_error hqueue f hf
        rw [hret] at hdies
        cases hdies
      · rfl
    have hsame : Together node { s with chain := chain } :=
      ⟨htogether.held, htogether.filed, htogether.once⟩
    obtain ⟨htogether', hwaiting'⟩ := processOrphans_spec hsame (fun t ht => by
      rw [List.mem_singleton.mp ht]
      exact (hstored.known _).mpr (Or.inr rfl)) hqueue
    rw [and_iff_right htogether', hwaiting']
    have hreached : ∀ p ∈ s.mapOrphanBlocksByPrev, Known chain p.1 →
        p.1 ∈ [hashOf node c.1.block] := by
      intro p hp hknown
      rw [List.mem_singleton]
      exact ((hstored.known _).mp hknown).resolve_left (hwaiting p hp)
    rw [and_iff_right hreached]
    unfold StrandsNone
    rw [hacc]
    have hnot : ¬ Strands node rules c.2 (asked s) c.1.block c.1.dbp := by
      rintro ⟨-, -, hne, -⟩
      exact hne (congrArg Prod.fst hacc)
    exact ⟨fun h _ => ⟨hnot, h⟩, fun h => (h hreach).2⟩

theorem inOrder_start (node : Node M) (chain : ChainState M) : InOrder node (.start chain) where
  together :=
    { held := fun _ _ => by
        constructor
        · intro h
          cases h
        · intro h
          cases h.2
      filed := fun _ hp => by cases hp
      once := List.nodup_nil }
  waiting _ _ h := by cases h

/-- The orphans are in order throughout a run of calls that return if and only if no call
of AcceptBlock in it fails behind the entry of a block that an orphan waits for. -/
theorem orphan_blocks_in_order_iff (node : Node M) (rules : Rules) (chain : ChainState M)
    (calls : List (Arrival × ℕ))
    (hreturned : EachStep (step node rules) (Returned node rules) (.start chain) calls) :
    Throughout (step node rules) (InOrder node) (.start chain) calls ↔
      EachStep (step node rules) (fun s c => StrandsNone node rules c.2 s c.1) (.start chain)
        calls :=
  throughout_iff_eachStep (fun _ _ hs hret => step_inOrder_iff hs hret)
    (inOrder_start node chain) hreturned

end Arriving

section MainNetwork

/-- The coinbase of a block, which differs from others in its script. -/
def coinbaseTx (scriptSig : CScript) : CTransaction :=
  ⟨1, [⟨⟨0, BitVec.allOnes 32⟩, scriptSig, BitVec.allOnes 32⟩], [⟨COIN, [0x51]⟩], 0⟩

def minedBlock (hashPrev root : Uint256) (nTime nNonce : BitVec 32) (vtx : List CTransaction) :
    CBlock := ⟨.plain ⟨904658946, hashPrev, root, nTime, 0x1e07ffff, nNonce⟩, vtx⟩

def firstHash : Uint256 := 0xd039b4fb38ba9b5c62a444f748141ef7cab15fad0b0c922aef93d850d16053c5

/-- A block on the genesis block. -/
def firstBlock : CBlock :=
  minedBlock genesisHash MemPool.mintTxid 1405801925 2188448 [MemPool.mintTx]

def secondHash : Uint256 := 0xcd16b9685df0a6dcb20d06b14505e7b633b4e8362a674e853fd8e562b9535e4b

/-- A block on that block. -/
def secondBlock : CBlock :=
  minedBlock firstHash 0xfafb808fd51f8ac20188edbcf40956bf86e465c3886935437d42424a7a6185e3
    1405802525 2361378 [coinbaseTx [2, 1, 2]]

def childHash : Uint256 := 0x24c20f4474c33957bdf9689876f68ecc87e002ef8f99394d5e58582b558ab875

/-- A block on the block that pays out more than the premine. -/
def childBlock : CBlock :=
  minedBlock greedyHash 0x33fe748a843b54089edc2c8bbf5f2797a9b3b32bc5e1fed55d42e8c85fcc514c
    1405802525 2886286 [coinbaseTx [2, 5, 2]]

/-- The double SHA-256 of the transactions and headers. -/
def blockDigests : List (List Byte × Uint256) :=
  digests ++ [(CTransaction.codec.write MemPool.mintTx, MemPool.mintTxid),
    (CTransaction.codec.write (coinbaseTx [2, 1, 2]), secondBlock.header.fields.hashMerkleRoot),
    (CTransaction.codec.write (coinbaseTx [2, 5, 2]), childBlock.header.fields.hashMerkleRoot),
    (HeaderFields.codec.write firstBlock.header.fields, firstHash),
    (HeaderFields.codec.write secondBlock.header.fields, secondHash),
    (HeaderFields.codec.write childBlock.header.fields, childHash)]

def blockHash (bs : List Byte) : Uint256 := (blockDigests.lookup bs).getD 0

/-- The scrypt hashes of the headers, by their nonces. -/
def blockPow (h : HeaderFields) : Uint256 :=
  if h.nNonce = 2188448 then 0x71913dc3c44871d38d5c8420252996d8777f883c1aa13191fd7ed635d97
  else if h.nNonce = 2361378 then 0x69301a0cd41a91fac4be43816521b0ed8e8469f543987ce9daf4c0e4911
  else if h.nNonce = 2886286 then 0x1a4e0a3f1ad4968b597b8e9484e5ae0889241c2ccef20833d15d1b20f13
  else scryptHash h

def blockIo : Io :=
  { mainIo false with
    env := { (mainIo false).env with Hash := blockHash, powHash := blockPow }
    readFile := fun h => [(genesisHash, genesis), (firstHash, firstBlock),
      (secondHash, secondBlock), (greedyHash, greedyBlock)].lookup h }

def blockNode : Node (List CTransaction) :=
  { mainNode fun _ => blockIo with Hash := blockHash }

/-- No checkpoints, and block files that can be written. -/
def openRules : Rules where
  horizon _ _ _ := false
  checkpointed _ _ := true
  lastCheckpoint _ := none
  files _ := ⟨.ok (), true⟩

/-- A node that has the genesis block. -/
def atGenesis : ChainState (List CTransaction) :=
  ((addToBlockIndex blockNode 2 genesis).run (.init listPool)).2

/-- The second block arrives before the first. -/
def swapped : List (Arrival × ℕ) :=
  [(⟨secondBlock, true, false⟩, 3), (⟨firstBlock, true, false⟩, 3)]

/-- A block arrives, and then the one that it is on, which cannot be connected. -/
def stuck : List (Arrival × ℕ) :=
  [(⟨childBlock, true, false⟩, 3), (⟨greedyBlock, true, false⟩, 3)]

/-- No orphan is stranded where AcceptBlock succeeds on all blocks. -/
theorem strandsNone_of_ok {node : Node M} {rules : Rules} {fuel : ℕ} {s : BlockNode M} {c : Arrival}
    (hown : ((acceptBlock node rules fuel c.block c.dbp).run (asked s).chain).1 = .ok ())
    (hqueue : ∀ call ∈ queueCalls node rules fuel (s.mapOrphanBlocksByPrev.length + 1)
      [hashOf node c.block]
      { s with chain := ((acceptBlock node rules fuel c.block c.dbp).run (asked s).chain).2 },
      ((acceptBlock node rules fuel call.2 false).run call.1.chain).1 = .ok ()) :
    StrandsNone node rules fuel s c := by
  intro _
  refine ⟨fun habs => habs.2.2.1 hown, ?_⟩
  rcases hrun : (acceptBlock node rules fuel c.block c.dbp).run (asked s).chain with ⟨e | u, chain⟩
  · trivial
  · rw [hrun] at hqueue
    exact fun call hcall habs => habs.2.2.1 (hqueue call hcall)

theorem returned_of_ok {node : Node M} {rules : Rules} {s : BlockNode M} {c : Arrival × ℕ}
    (h : ((processBlock node rules c.2 c.1).run s).1 = .ok ()) : Returned node rules s c := by
  intro e he
  rw [h] at he
  cases he

def afterOrphan (c : Arrival × ℕ) : BlockNode (List CTransaction) :=
  step blockNode openRules (.start atGenesis) c

theorem orphan_blocks_in_order_swapped :
    Throughout (step blockNode openRules) (InOrder blockNode) (.start atGenesis) swapped ∧
      (afterOrphan (⟨secondBlock, true, false⟩, 3)).mapOrphanBlocks.keys = [secondHash] ∧
      (run (step blockNode openRules) (.start atGenesis) swapped).mapOrphanBlocks.keys = [] ∧
      (run (step blockNode openRules) (.start atGenesis) swapped).chain.pindexBest =
        some secondHash := by
  -- one evaluation for all of them
  obtain ⟨hsecond, hfirst, horphan, hkept, hnone, hbest⟩ :
      ((processBlock blockNode openRules 3 ⟨secondBlock, true, false⟩).run
        (.start atGenesis)).1 = .ok () ∧
      ((processBlock blockNode openRules 3 ⟨firstBlock, true, false⟩).run
        (afterOrphan (⟨secondBlock, true, false⟩, 3))).1 = .ok () ∧
      isOrphan secondBlock (.start atGenesis) = true ∧
      (afterOrphan (⟨secondBlock, true, false⟩, 3)).mapOrphanBlocks.keys = [secondHash] ∧
      (run (step blockNode openRules) (.start atGenesis) swapped).mapOrphanBlocks.keys = [] ∧
      (run (step blockNode openRules) (.start atGenesis) swapped).chain.pindexBest =
        some secondHash := by
    decide +kernel
  refine ⟨?_, hkept, hnone, hbest⟩
  refine (orphan_blocks_in_order_iff blockNode openRules atGenesis swapped
    ⟨returned_of_ok hsecond, returned_of_ok hfirst, trivial⟩).mpr ⟨?_, ?_, trivial⟩
  · intro hreach
    exact absurd (horphan.symm.trans hreach.2) (by simp)
  · exact strandsNone_of_ok (by decide +kernel) (by decide +kernel)

/-- The block that has come first is still an orphan when the one it is on is in the index. -/
theorem orphan_block_stuck :
    EachStep (step blockNode openRules) (Returned blockNode openRules) (.start atGenesis) stuck ∧
      (run (step blockNode openRules) (.start atGenesis) stuck).mapOrphanBlocks.keys =
        [childHash] ∧
      ((run (step blockNode openRules) (.start atGenesis) stuck).chain.entry greedyHash).isSome ∧
      ¬ Throughout (step blockNode openRules) (InOrder blockNode) (.start atGenesis) stuck := by
  -- one evaluation for all of them
  obtain ⟨hchild, hgreedy, hkept, hentry, hkeys⟩ :
      ((processBlock blockNode openRules 3 ⟨childBlock, true, false⟩).run
        (.start atGenesis)).1 = .ok () ∧
      ((processBlock blockNode openRules 3 ⟨greedyBlock, true, false⟩).run
        (afterOrphan (⟨childBlock, true, false⟩, 3))).1 =
          .error (.failed (.dos 100
            "ConnectBlock() : coinbase pays too much (actual=%d vs limit=%d)" false)) ∧
      (∃ p ∈ (run (step blockNode openRules) (.start atGenesis) stuck).mapOrphanBlocksByPrev,
        p.1 = greedyHash) ∧
      ((run (step blockNode openRules) (.start atGenesis) stuck).chain.entry greedyHash).isSome ∧
      (run (step blockNode openRules) (.start atGenesis) stuck).mapOrphanBlocks.keys =
        [childHash] := by
    decide +kernel
  have hreturned : Returned blockNode openRules (afterOrphan (⟨childBlock, true, false⟩, 3))
      (⟨greedyBlock, true, false⟩, 3) := by
    intro e he
    rw [hgreedy] at he
    cases he
    exact ⟨_, rfl, rfl⟩
  refine ⟨⟨returned_of_ok hchild, hreturned, trivial⟩, hkeys, hentry, fun hall => ?_⟩
  obtain ⟨p, hp, heq⟩ := hkept
  exact (inOrder_iff.mp hall.last).2 p hp (heq ▸ hentry)

end MainNetwork

end UmbrellaLtc.OrphanBlocks
