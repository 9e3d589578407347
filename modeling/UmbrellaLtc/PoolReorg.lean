import UmbrellaLtc.BranchCoins
import UmbrellaLtc.OrphanBlocks
import UmbrellaLtc.PoolAccept
import UmbrellaLtc.Reorganise

/-!
SetBestChain as the memory pool sees it. The pool of main.cpp is put in the place
of the pool that the chain is modelled over. A successful SetBestChain takes the
coins from the old branch to the new one, and the pool through the transactions
of vResurrect and of vDelete, all against the new coins.
-/

namespace UmbrellaLtc.PoolReorg

open Codec Transaction Header Coins CoinsView CheckBlock ConnectBlock BestChain ChainFrame
  ChainLinks Reorganise Prog Spending FlatView BranchCoins MemPool

/-- The memory pool, and how often it has been asked to accept a transaction. There is no
pool behind a call that follows a pointer to nowhere or does not come back. -/
structure PoolState where
  pool : Option CTxMemPool
  moment : ℕ

section Operations

variable (Hash : List Byte → Uint256) (around : ℕ → Around)

/-- AcceptToMemoryPool leaves the coins of pcoinsTip as they are. -/
theorem acceptToMemoryPool_flat (a : Around) (tx : CTransaction) (fCheckInputs fLimitFree : Bool)
    (pool : CTxMemPool) (tip : Cache CoinsDb) :
    (acceptToMemoryPool a tx fCheckInputs fLimitFree pool tip).2.2.flat = tip.flat := by
  have hflat := (accept_flat a tx fCheckInputs fLimitFree pool tip).2
  unfold acceptToMemoryPool
  rcases haccept : accept a tx fCheckInputs fLimitFree pool tip with ⟨v, pool', tip'⟩
  rw [haccept] at hflat
  split
  · rename_i h
    obtain ⟨-, rfl⟩ := Prod.mk.inj h
    exact hflat
  · exact hflat

/-- The pool of a node, with what each call of accept finds around it. SetBestChain calls
AcceptToMemoryPool with fCheckInputs and without fLimitFree. -/
def poolOps : PoolOps PoolState where
  empty := ⟨some .empty, 0⟩
  accept tx tip p :=
    match p.pool with
    | none => (false, p, unread tip)
    | some pool =>
        let a := (around p.moment).on Hash
        let r := acceptToMemoryPool a tx true false pool tip
        (decide (r.1 = .accepted), ⟨some r.2.1, p.moment + 1⟩,
          ⟨r.2.2, acceptToMemoryPool_flat a tx true false pool tip⟩)
  remove tx fRecursive p := { p with pool := p.pool.bind (CTxMemPool.remove Hash tx fRecursive) }
  removeConflicts tx p := { p with pool := p.pool.bind (CTxMemPool.removeConflicts Hash tx) }

/-- A transaction of vResurrect, against the coins `f`. -/
def reviveTx (f : Flat) (p : PoolState) (tx : CTransaction) : PoolState :=
  match p.pool with
  | none => p
  | some pool =>
      if verdict ((around p.moment).on Hash) tx true false pool f = .accepted then
        ⟨some (pool.addUnchecked (tx.getHash Hash) tx), p.moment + 1⟩
      else ⟨pool.remove Hash tx true, p.moment + 1⟩

/-- A transaction of vDelete. -/
def deleteTx (p : PoolState) (tx : CTransaction) : PoolState :=
  let pool := p.pool.bind (CTxMemPool.remove Hash tx false)
  { p with pool := pool.bind (CTxMemPool.removeConflicts Hash tx) }

/-- The pool behind the two loops of SetBestChain over vResurrect and vDelete. -/
def movedPool (f : Flat) (vResurrect vDelete : List CTransaction) (p : PoolState) : PoolState :=
  vDelete.foldl (deleteTx Hash) (vResurrect.foldl (reviveTx Hash around f) p)

variable {Hash around}

theorem acceptToMemoryPool_pool (a : Around) (tx : CTransaction) (fLimitFree : Bool)
    (pool : CTxMemPool) (tip : Cache CoinsDb) :
    ((acceptToMemoryPool a tx true fLimitFree pool tip).1 = .accepted ↔
        verdict a tx true fLimitFree pool tip.flat = .accepted) ∧
      (acceptToMemoryPool a tx true fLimitFree pool tip).2.1 =
        if verdict a tx true fLimitFree pool tip.flat = .accepted then
          pool.addUnchecked (tx.getHash a.env.Hash) tx
        else pool := by
  have hverdict := (accept_flat a tx true fLimitFree pool tip).1
  change _ = verdict a tx true fLimitFree pool tip.flat at hverdict
  have hcases := accept_cases a tx true fLimitFree pool tip
  rw [← hverdict]
  unfold acceptToMemoryPool
  rcases haccept : accept a tx true fLimitFree pool tip with ⟨v, pool', tip'⟩
  rw [haccept] at hcases
  dsimp only at hcases ⊢
  rcases hcases with ⟨rfl, rfl, -⟩ | ⟨hne, rfl⟩
  · exact ⟨Iff.rfl, rfl⟩
  · rw [if_neg hne]
    split
    · rename_i h
      obtain ⟨rfl, rfl⟩ := Prod.mk.inj h
      exact ⟨iff_of_false nofun nofun, rfl⟩
    · exact ⟨Iff.rfl, rfl⟩

variable {node : Node PoolState}

theorem resurrect_mempool (hpool : node.pool = poolOps Hash around) (s : ChainState PoolState)
    (tx : CTransaction) :
    (resurrect node s tx).mempool = reviveTx Hash around s.pcoinsTip.flat s.mempool tx := by
  unfold resurrect reviveTx
  rw [hpool]
  unfold poolOps
  dsimp only
  rcases hmem : s.mempool with ⟨_ | pool, moment⟩
  · rfl
  · obtain ⟨hiff, hleft⟩ :=
      acceptToMemoryPool_pool ((around moment).on Hash) tx false pool s.pcoinsTip
    dsimp only
    by_cases haccepted : verdict ((around moment).on Hash) tx true false pool s.pcoinsTip.flat =
        .accepted
    · rw [if_pos (decide_eq_true (hiff.mpr haccepted)), if_pos haccepted, hleft,
        if_pos haccepted]
      rfl
    · have hnot := mt hiff.mp haccepted
      rw [if_neg (by rw [decide_eq_true_eq]; exact hnot), if_neg haccepted, hleft,
        if_neg haccepted]
      rfl

theorem mempool_resurrects (hpool : node.pool = poolOps Hash around) (txs : List CTransaction)
    (s : ChainState PoolState) :
    (txs.foldl (resurrect node) s).mempool =
      txs.foldl (reviveTx Hash around s.pcoinsTip.flat) s.mempool := by
  induction txs generalizing s with
  | nil => rfl
  | cons tx rest ih =>
    have hflat := (pooled_resurrect node s tx).coins
    rw [List.foldl_cons, List.foldl_cons, ih, hflat, resurrect_mempool hpool]

theorem mempool_removes (hpool : node.pool = poolOps Hash around) (txs : List CTransaction)
    (s : ChainState PoolState) :
    (txs.foldl (removeConnected node) s).mempool = txs.foldl (deleteTx Hash) s.mempool := by
  induction txs generalizing s with
  | nil => rfl
  | cons tx rest ih =>
    have hstep : (removeConnected node s tx).mempool = deleteTx Hash s.mempool tx := by
      unfold removeConnected
      rw [hpool]
      rfl
    rw [List.foldl_cons, List.foldl_cons, ih, hstep]

end Operations

section Branches

variable {M : Type}

/-- What does not change while a node runs: the blocks in the block files, the genesis
block and the checkpoints. -/
structure Fixed (node : Node M) (file : Uint256 → Option CBlock) (genesisHash : Uint256)
    (estimate : ℕ) : Prop where
  readFile : ∀ t h block, (node.world t).readFile h = some block → file h = some block
  genesisHash : ∀ t, (node.world t).env.genesisHash = genesisHash
  estimate : ∀ t, (node.world t).env.totalBlocksEstimate = estimate

/-- The transactions of the block that an entry stands for. -/
def blockTxs (file : Uint256 → Option CBlock) (h : Uint256) : List CTransaction :=
  (file h).elim [] CBlock.vtx

/-- The transactions of a branch, block by block. -/
def branchTxs (file : Uint256 → Option CBlock) (l : List Uint256) : List CTransaction :=
  l.flatMap (blockTxs file)

/-- A transaction of a disconnected block at this height goes back to the pool. -/
def revivable (estimate nHeight : ℕ) (tx : CTransaction) : Bool :=
  !tx.isCoinBase && decide (estimate < nHeight)

/-- vResurrect for a branch. -/
def revivedTxs (file : Uint256 → Option CBlock) (estimate : ℕ) (s : ChainState M)
    (l : List Uint256) : List CTransaction :=
  l.flatMap fun h => (blockTxs file h).filter (revivable estimate (s.height h))

variable {node : Node M} {file : Uint256 → Option CBlock} {genesisHash : Uint256} {estimate : ℕ}

theorem readFromDisk_some {io : Io} {h : Uint256} {e : CBlockIndex} {block : CBlock}
    (hread : readFromDisk node io h e = .ok (some block)) :
    io.readFile h = some block ∧ block.header.fields.getHash node.Hash = h := by
  unfold readFromDisk at hread
  split_ifs at hread with hdata
  · cases hread
  cases hfile : io.readFile h with
  | none =>
    rw [hfile] at hread
    cases hread
  | some b =>
    rw [hfile] at hread
    dsimp only at hread
    cases hpow : checkProofOfWork (node.env io) b.header with
    | error err =>
      rw [hpow] at hread
      cases hread
    | ok pow =>
      rw [hpow] at hread
      have hsome : (if pow = true ∧ b.header.fields.getHash node.Hash = h then some b else none) =
          some block := Except.ok.inj hread
      split_ifs at hsome with hcond
      obtain rfl := Option.some.inj hsome
      exact ⟨rfl, hcond.2⟩

/-- What openBlock finds. -/
structure Opened (node : Node M) (file : Uint256 → Option CBlock) (genesisHash : Uint256)
    (estimate : ℕ) (sw : Switch M) (h : Uint256) (found : Io × CBlockIndex × CBlock)
    (sw' : Switch M) : Prop where
  view : sw'.view = sw.view
  index : sw'.chain.mapBlockIndex = sw.chain.mapBlockIndex
  entry : sw.chain.entry h = some found.2.1
  vtx : found.2.2.vtx = blockTxs file h
  hash : found.2.2.header.fields.getHash node.Hash = h
  genesis : found.1.env.genesisHash = genesisHash
  blocks : found.1.env.totalBlocksEstimate = estimate

theorem opened_openBlock (hfixed : Fixed node file genesisHash estimate) (h : Uint256)
    (sw : Switch M) :
    Holds (openBlock node h) sw (Opened node file genesisHash estimate sw h) (fun _ => True) := by
  refine holds_bind (holds_zoom (holds_act _ ?_))
  refine holds_bind (holds_zoom ?_)
  unfold Holds
  rw [find_run]
  cases he : ChainState.entry _ h with
  | none => trivial
  | some e =>
    refine holds_bind (holds_lift (fun found hread => ?_) fun _ _ => trivial)
    cases found with
    | none => trivial
    | some block =>
      obtain ⟨hfile, hhash⟩ := readFromDisk_some hread
      have hvtx : block.vtx = blockTxs file h := by
        unfold blockTxs
        rw [hfixed.readFile _ h block hfile]
        rfl
      exact holds_pure _ ⟨rfl, rfl, he, hvtx, hhash, hfixed.genesisHash _, hfixed.estimate _⟩

/-- A step on a block, as its flat view sees it. -/
theorem onBlock_flat {α : Type} {h : Uint256} {sw : Switch M} {e : CBlockIndex}
    (he : sw.chain.entry h = some e)
    {x : PIndex → Prog (BlockCtx (Cache (Cache CoinsDb))) Failure α}
    {y : PIndex → Prog (BlockCtx Flat) Failure α}
    (hflat : ∀ pindex s, (y pindex).run (flatCtx s) =
      (((x pindex).run s).1, flatCtx ((x pindex).run s).2))
    {Q : α → Flat → Prop}
    (hy : Holds (y (sw.chain.pindex h e)) (flatCtx (blockCtx sw h e)) (fun a s' => Q a s'.view)
      fun _ => True) :
    Holds (onBlock h x) sw (fun a sw' => Q a sw'.view.flat) (fun _ => True) := by
  unfold Holds at hy ⊢
  rw [hflat] at hy
  rw [onBlock_run he]
  rcases hrun : (x (sw.chain.pindex h e)).run (blockCtx sw h e) with ⟨err | a, ctx⟩
  · trivial
  · rw [hrun] at hy
    exact hy

variable {sw : Switch M}

theorem pindex_congr {sw sw' : Switch M} (hindex : sw'.chain.mapBlockIndex = sw.chain.mapBlockIndex)
    (h : Uint256) : sw'.chain.entry h = sw.chain.entry h := by
  unfold ChainState.entry
  rw [hindex]

/-- One round of the loop over vDisconnect. -/
theorem sheds_disconnectStep (hfixed : Fixed node file genesisHash estimate)
    (vResurrect : List CTransaction) (h : Uint256) (sw : Switch M) :
    Holds (disconnectStep node vResurrect h) sw
      (fun v sw' => v = vResurrect ++
          (blockTxs file h).filter (revivable estimate (sw.chain.height h)) ∧
        Sheds node.Hash sw.view.flat (blockTxs file h) sw'.view.flat) (fun _ => True) := by
  refine holds_bind ((opened_openBlock hfixed h sw).mono ?_ fun _ he => he)
  rintro ⟨io, e, block⟩ sw₁ hopen
  have hentry := hopen.entry
  rw [← pindex_congr hopen.index] at hentry
  refine holds_bind ((onBlock_flat hentry
    (fun pindex s => (disconnectBlock_flat (node.env io) io.block block pindex s).1)
    (Q := fun fClean f' => fClean = true → Sheds node.Hash sw.view.flat block.vtx f') ?_).mono ?_
    fun _ he => he)
  · have hspec := holds_disconnectBlock (node.env io) io.block block (sw₁.chain.pindex h e)
      (flatCtx (blockCtx sw₁ h e))
    have hview : (flatCtx (blockCtx sw₁ h e)).view = sw.view.flat := congrArg Cache.flat hopen.view
    rw [hview] at hspec
    exact hspec
  · intro fClean sw' hsheds
    refine holds_check (fun _ => trivial) fun hclean => holds_pure _ ⟨?_, ?_⟩
    · have hheight := height_of_entry hopen.entry
      have hvtx := hopen.vtx
      have hblocks := hopen.blocks
      dsimp only at hheight hvtx hblocks
      unfold resurrected revivable
      rw [hvtx, hblocks, hheight]
    · have hvtx := hopen.vtx
      dsimp only at hvtx
      rw [← hvtx]
      exact hsheds hclean

/-- One round of the loop over vConnect. -/
theorem grows_connectStep (hfixed : Fixed node file genesisHash estimate)
    (vDelete : List CTransaction) {h : Uint256} (hne : h ≠ genesisHash) (sw : Switch M) :
    Holds (connectStep node vDelete h) sw
      (fun v sw' => v = vDelete ++ blockTxs file h ∧
        Grows node.Hash sw.view.flat (blockTxs file h) sw'.view.flat) (fun _ => True) := by
  refine holds_bind (((holds_blame none (opened_openBlock hfixed h sw))).mono ?_ fun _ _ => trivial)
  rintro ⟨io, e, block⟩ sw₁ hopen
  have hentry := hopen.entry
  rw [← pindex_congr hopen.index] at hentry
  have hvtx := hopen.vtx
  dsimp only at hvtx
  have hblock := onBlock_flat hentry
    (fun pindex s => (connectBlock_flat (node.env io) io.block block pindex false s).1)
    (Q := fun _ f' => Grows node.Hash sw.view.flat block.vtx f') ?_
  · refine holds_bind ((holds_blame (some h) hblock).mono ?_ fun _ _ => trivial)
    intro undo sw' hgrows
    refine holds_pure _ ⟨by rw [hvtx], ?_⟩
    rw [← hvtx]
    exact hgrows
  · unfold Holds
    have hview : (flatCtx (blockCtx sw₁ h e)).view = sw.view.flat := congrArg Cache.flat hopen.view
    have hgenesis : block.header.fields.getHash (node.env io).Hash ≠ (node.env io).genesisHash := by
      show block.header.fields.getHash node.Hash ≠ io.env.genesisHash
      rw [show io.env.genesisHash = genesisHash from hopen.genesis, show _ = h from hopen.hash]
      exact hne
    rcases hrun : (connectBlock (node.env io) io.block block (sw₁.chain.pindex h e) false).run
      (flatCtx (blockCtx sw₁ h e)) with ⟨err | undo, s'⟩
    · trivial
    · have hgrows := connectBlock_grows hgenesis hrun
      rw [hview] at hgrows
      exact hgrows

theorem SwitchFrame.height_eq {sw sw' : Switch M} (h : SwitchFrame sw sw') :
    sw'.chain.height = sw.chain.height := (Frame.sameTree h.close).height_eq

/-- The loop over vDisconnect. -/
theorem sheds_disconnects (hfixed : Fixed node file genesisHash estimate) (l : List Uint256)
    (sw : Switch M) :
    Holds (l.foldlM (disconnectStep node) []) sw
      (fun v sw' => v = revivedTxs file estimate sw.chain l ∧
        Sheds node.Hash sw.view.flat (branchTxs file l) sw'.view.flat) (fun _ => True) := by
  refine (holds_foldlM (fun rest v sw' => ∃ done, l = done ++ rest ∧ SwitchFrame sw sw' ∧
    v = revivedTxs file estimate sw.chain done ∧
    Sheds node.Hash sw.view.flat (branchTxs file done) sw'.view.flat) ?_ l [] sw
    ⟨[], rfl, refl sw, rfl, .nil _⟩).mono ?_ fun _ he => he
  · rintro h rest v sw₁ ⟨done, rfl, hframe, rfl, hsheds⟩
    refine ((sheds_disconnectStep hfixed _ h sw₁).and_within
      (within_disconnectStep node _ h)).mono ?_ fun _ he => he
    rintro _ sw₂ ⟨hmove, rfl, hstep⟩
    refine ⟨done ++ [h], by simp, IsTrans.trans _ _ _ hframe hmove, ?_, ?_⟩
    · rw [SwitchFrame.height_eq hframe]
      simp [revivedTxs]
    · have hall := hsheds.append hstep
      simpa [branchTxs] using hall
  · rintro v sw' ⟨done, hdone, -, rfl, hsheds⟩
    rw [List.append_nil] at hdone
    rw [hdone]
    exact ⟨rfl, hsheds⟩

/-- The loop over vConnect. -/
theorem grows_connects (hfixed : Fixed node file genesisHash estimate) {l : List Uint256}
    (hl : genesisHash ∉ l) (sw : Switch M) :
    Holds (l.foldlM (connectStep node) []) sw
      (fun v sw' => v = branchTxs file l ∧
        Grows node.Hash sw.view.flat (branchTxs file l) sw'.view.flat) (fun _ => True) := by
  refine (holds_foldlM (fun rest v sw' => ∃ done, l = done ++ rest ∧ v = branchTxs file done ∧
    Grows node.Hash sw.view.flat (branchTxs file done) sw'.view.flat) ?_ l [] sw
    ⟨[], rfl, rfl, .nil _⟩).mono ?_ fun _ he => he
  · rintro h rest v sw₁ ⟨done, rfl, rfl, hgrows⟩
    have hne : h ≠ genesisHash := by
      rintro rfl
      exact hl (by simp)
    refine (grows_connectStep hfixed _ hne sw₁).mono ?_ fun _ he => he
    rintro _ sw₂ ⟨rfl, hstep⟩
    refine ⟨done ++ [h], by simp, by simp [branchTxs], ?_⟩
    have hall := hgrows.append hstep
    simpa [branchTxs] using hall
  · rintro v sw' ⟨done, hdone, rfl, hgrows⟩
    rw [List.append_nil] at hdone
    rw [hdone]
    exact ⟨rfl, hgrows⟩

/-- Both loops. -/
theorem coins_switchBranches (hfixed : Fixed node file genesisHash estimate)
    (vDisconnect : List Uint256) {vConnect : List Uint256} (hgenesis : genesisHash ∉ vConnect)
    (sw : Switch M) :
    Holds (switchBranches node vDisconnect vConnect) sw
      (fun txs sw' => txs = (revivedTxs file estimate sw.chain vDisconnect, branchTxs file vConnect) ∧
        ∃ f, Sheds node.Hash sw.view.flat (branchTxs file vDisconnect) f ∧
          Grows node.Hash f (branchTxs file vConnect) sw'.view.flat) (fun _ => True) := by
  refine holds_bind ((holds_blame none (sheds_disconnects hfixed vDisconnect sw)).mono ?_
    fun _ _ => trivial)
  rintro _ sw₁ ⟨rfl, hsheds⟩
  refine holds_bind ((grows_connects hfixed hgenesis sw₁).mono ?_ fun _ he => he)
  rintro _ sw₂ ⟨rfl, hgrows⟩
  exact holds_pure _ ⟨rfl, _, hsheds, hgrows⟩

end Branches


section Whole

variable {M : Type}

/-- The coins are written: what can be spent is the same. -/
structure SameUnspent (s s' : ChainState M) : Prop where
  mempool : s'.mempool = s.mempool
  unspent : ∀ o, unspent s'.pcoinsTip.flat o = unspent s.pcoinsTip.flat o

instance : IsPreorder (ChainState M) SameUnspent where
  refl _ := ⟨rfl, fun _ => rfl⟩
  trans _ _ _ hst htu :=
    ⟨htu.mempool.trans hst.mempool, fun o => (htu.unspent o).trans (hst.unspent o)⟩

/-- No version is looked at. -/
theorem unspent_flush {β : Type} [UtxoMap.LawfulStore β] (fWrite : Bool) (k : Cache β)
    (o : COutPoint) : unspent (k.flush fWrite).2.flat o = unspent k.flat o := by
  have hmap := @UtxoMap.flush_coins β _ (fun _ => 0) fWrite k fun _ _ _ => rfl
  rw [UtxoMap.unspent_eq (fun _ => 0), UtxoMap.unspent_eq (fun _ => 0) k.flat, hmap]

theorem unspent_flush_base (k : Cache (Cache CoinsDb)) (o : COutPoint) :
    unspent (k.flush true).2.base.flat o = unspent k.flat o := unspent_flush true k o

theorem unspent_writeCoins (io : Io) : Within (SameUnspent (M := M)) (writeCoins io) := by
  refine within_bind (fun s => refl (r := SameUnspent) s) fun nCacheSize => ?_
  split_ifs
  · refine within_bind (within_check _ _) fun _ => ?_
    refine within_bind (within_lift _) fun _ => ?_
    refine within_bind (within_lift _) fun written => ?_
    refine within_bind (fun s => ⟨rfl, unspent_flush written s.pcoinsTip⟩) fun fOk =>
      within_check _ _
  · exact within_pure ()

theorem setLinks_rest (value : Uint256 → Option Uint256) (l : List Uint256) (s : ChainState M) :
    (setLinks value l s).mempool = s.mempool ∧ (setLinks value l s).pcoinsTip = s.pcoinsTip := by
  unfold setLinks
  induction l generalizing s with
  | nil => exact ⟨rfl, rfl⟩
  | cons h rest ih =>
    obtain ⟨hpool, htip⟩ := ih (((s.entry h).bind CBlockIndex.pprev).elim s fun p =>
      s.setPnext p (value h))
    rw [List.foldl_cons, hpool, htip]
    cases (s.entry h).bind CBlockIndex.pprev with
    | none => exact ⟨rfl, rfl⟩
    | some p =>
      have hmodify := modify_eq s p fun e => { e with pnext := value h }
      show (s.modify p _).mempool = _ ∧ (s.modify p _).pcoinsTip = _
      rw [hmodify]
      exact ⟨rfl, rfl⟩

variable {Hash : List Byte → Uint256} {around : ℕ → Around} {node : Node PoolState}

/-- The part of SetBestChain behind the flush of the view. -/
theorem moved_commit (hpool : node.pool = poolOps Hash around) (pindexNew : Uint256)
    (vDisconnect vConnect : List Uint256) (txs : List CTransaction × List CTransaction)
    (s : ChainState PoolState) :
    Holds (commit node pindexNew vDisconnect vConnect txs) s
      (fun _ s' => s'.mempool = movedPool Hash around s'.pcoinsTip.flat txs.1 txs.2 s.mempool ∧
        ∀ o, unspent s'.pcoinsTip.flat o = unspent s.pcoinsTip.flat o) (fun _ => True) := by
  refine holds_bind (holds_act _ ?_)
  refine holds_bind (((holds_any _ _).and_within (unspent_writeCoins _)).mono ?_ fun _ he => he)
  rintro _ t ⟨⟨hmempool, hunspent⟩, -⟩
  refine holds_bind (holds_act _ ?_)
  obtain ⟨hdownPool, hdownTip⟩ := setLinks_rest (fun _ => none) vDisconnect t
  obtain ⟨hupPool, hupTip⟩ :=
    setLinks_rest some vConnect (setLinks (fun _ => none) vDisconnect t)
  generalize setLinks some vConnect (setLinks (fun _ => none) vDisconnect t) = u at hupPool hupTip ⊢
  rw [hdownPool, hmempool] at hupPool
  rw [hdownTip] at hupTip
  have hcoins := (pooled_commit node txs u).coins
  refine ⟨?_, fun o => ?_⟩
  · show (txs.2.foldl (removeConnected node) (txs.1.foldl (resurrect node) u)).mempool =
      movedPool Hash around
        (txs.2.foldl (removeConnected node) (txs.1.foldl (resurrect node) u)).pcoinsTip.flat
        txs.1 txs.2 s.mempool
    rw [hcoins, mempool_removes hpool, mempool_resurrects hpool, hupPool]
    rfl
  · show unspent (txs.2.foldl (removeConnected node)
      (txs.1.foldl (resurrect node) u)).pcoinsTip.flat o = _
    rw [hcoins, hupTip]
    exact hunspent o

theorem root_not_mem {parent : Uint256 → Option Uint256} {start stop : Option Uint256}
    {l : List Uint256} (h : Forest.Branch parent start l stop) (hstop : stop ≠ none) {g : Uint256}
    (hg : parent g = none) : g ∉ l := by
  induction h with
  | nil x => exact List.not_mem_nil
  | @cons c rest stop h ih =>
    intro hmem
    rcases List.mem_cons.mp hmem with rfl | hmem
    · rw [hg] at h
      cases h
      exact hstop rfl
    · exact ih hstop hmem

/-- Giving up is a failure. -/
theorem giveUp_not_ok (nested : Prog (ChainState PoolState) Fault Unit) (pindexNew : Uint256)
    (f : SwitchFailure) (s s' : ChainState PoolState) :
    (giveUp node nested pindexNew f).run s ≠ (.ok (), s') := by
  have hfail : ∀ t, (fail (.failed f.failure) : Prog (ChainState PoolState) Fault Unit).run t ≠
      (.ok (), s') := by
    intro t habs
    cases habs
  intro hrun
  unfold giveUp at hrun
  split at hrun
  · exact hfail s hrun
  · split_ifs at hrun
    · obtain ⟨_, t, -, hrest⟩ := bind_ok_cases hrun
      obtain ⟨_, u, -, hend⟩ := bind_ok_cases hrest
      exact hfail u hend
    · exact hfail s hrun

variable {file : Uint256 → Option CBlock} {genesisHash : Uint256} {estimate : ℕ}

end Whole

section MainNetwork

open ChainRuns Runs
open OrphanBlocks (minedBlock coinbaseTx firstHash firstBlock secondHash secondBlock blockDigests
  blockIo blockPow)

def forkHash : Uint256 := 0x8248673c8b9e806fe5c6d981b3323467998d368dbfcb00b4f599bd835ebed1ef

/-- A block on the genesis block, with a transaction that spends an output. -/
def forkBlock : CBlock :=
  minedBlock genesisHash 0x25db7104b8e23648ece3bbb8f84963d120ec1f319fc8b7fdfc25820fa6987a56
    1405801725 2501990 [coinbaseTx [2, 7, 2], respendTx]

def forkCoinbase : Uint256 := 0x241a84611f3dc57822c86e6a278d06148726e0f70babd1252e3292b21ddd48b3

/-- The double SHA-256 of the blocks and of what is in them. -/
def forkDigest (bs : List Byte) : Uint256 :=
  ((blockDigests ++ [(CTransaction.codec.write (coinbaseTx [2, 7, 2]), forkCoinbase),
    (CTransaction.codec.write respendTx, respendTxid),
    (leBytes 32 forkCoinbase.toNat ++ leBytes 32 respendTxid.toNat,
      forkBlock.header.fields.hashMerkleRoot),
    (HeaderFields.codec.write forkBlock.header.fields, forkHash)]).lookup bs).getD 0

def forkPow (h : HeaderFields) : Uint256 :=
  if h.nNonce = 2501990 then 0x7dbea0e4b453bf6cf1c306868de066f968a722acafb12fe6f8ce71d6f33
  else blockPow h

def forkFile (h : Uint256) : Option CBlock :=
  [(genesisHash, genesis), (forkHash, forkBlock), (firstHash, firstBlock),
    (secondHash, secondBlock)].lookup h

def forkIo : Io :=
  { blockIo with
    env := { blockIo.env with
      Hash := forkDigest
      powHash := forkPow
      verifyScript := fun scriptPubKey _ _ _ => scriptPubKey == [0x51] || scriptPubKey == payToOne }
    readFile := forkFile }

def forkNode : Node PoolState where
  Hash := forkDigest
  world _ := forkIo
  pool := poolOps forkDigest fun _ => spendAround
  misread _ := .error .assertion

/-- The genesis block is the best one, and there is an output to spend. -/
def funded : ChainState PoolState :=
  let s := step forkNode (.init forkNode.pool) (.addToBlockIndex genesis, 3)
  { s with pcoinsTip := s.pcoinsTip.setCoins spendTxid ⟨false, spendTx.vout, 1, 1⟩ }

/-- The block that spends it becomes the best one, and the two of another branch arrive. -/
def forkCalls : List (Call × ℕ) :=
  [(.addToBlockIndex forkBlock, 3), (.storeEntry firstBlock, 0), (.storeEntry secondBlock, 0)]

def beforeSwitch (n : ℕ) : ChainState PoolState := run (step forkNode) funded (forkCalls.take n)

/-- SetBestChain goes over to the other branch. -/
def switched : Except Fault Unit × ChainState PoolState :=
  (setBestChain forkNode (connectBestBlock forkNode 3) secondHash).run (beforeSwitch 3)

theorem fixed_fork : Fixed forkNode forkFile genesisHash 0 where
  readFile _ _ _ h := h
  genesisHash _ := rfl
  estimate _ := rfl

/-- A record of the coins is not what the chain is held together by. -/
theorem chainInv_setCoins {M : Type} {s : ChainState M} (h : ChainInv s) (txid : Uint256)
    (c : CCoins) : ChainInv { s with pcoinsTip := s.pcoinsTip.setCoins txid c } :=
  ⟨⟨h.tree.known, h.tree.graded, h.tree.stored⟩, h.links, fun b hb =>
    ⟨(h.best b hb).known, (h.best b hb).hashBestChain, (h.best b hb).nBestHeight,
      (h.best b hb).nBestChainWork⟩, h.coins⟩

theorem chainInv_beforeSwitch
    (hprev : (funded.entry genesisHash).isSome ∧ ((beforeSwitch 1).entry genesisHash).isSome ∧
      ((beforeSwitch 2).entry firstHash).isSome) : ChainInv (beforeSwitch 3) := by
  obtain ⟨hfork, hfirst, hsecond⟩ := hprev
  have hlate : ∀ t, LateOk (forkNode.world t) := fun _ => ⟨rfl, rfl, rfl⟩
  have hgenesis : genesis.header.fields.getHash forkDigest ≠ 0 := by decide +kernel
  have hfunded : ChainInv funded :=
    chainInv_setCoins (chainInv_step hlate (.addToBlockIndex genesis, 3)
      (chainInv_init forkNode.pool) (Or.inr ⟨rfl, hgenesis⟩)) _ _
  have hone := chainInv_step hlate (.addToBlockIndex forkBlock, 3) hfunded (Or.inl hfork)
  have htwo := chainInv_step hlate (.storeEntry firstBlock, 0) hone (Or.inl hfirst)
  exact chainInv_step hlate (.storeEntry secondBlock, 0) htwo (Or.inl hsecond)

theorem eq_of_fst {α β : Type} {p : α × β} {a : α} (h : p.1 = a) : p = (a, p.2) := Prod.ext h rfl

end MainNetwork

end UmbrellaLtc.PoolReorg
