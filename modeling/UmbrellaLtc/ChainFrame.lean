import UmbrellaLtc.BestChain
import UmbrellaLtc.FlatView

/-!
What the steps of SetBestChain leave as it is. Up to the flush of the view only the
status of entries, the databases and the set of candidates change: the tree with
its links, the best block, the content of pcoinsTip and the memory pool stay.
-/

namespace UmbrellaLtc.ChainFrame

open Codec Transaction Header Coins CoinsView CheckBlock ConnectBlock BestChain Prog FlatView

variable {M : Type}

section Entries

variable {s : ChainState M} {h t : Uint256} {f : CBlockIndex → CBlockIndex}

theorem entry_modify (s : ChainState M) (h t : Uint256) (f : CBlockIndex → CBlockIndex) :
    (s.modify h f).entry t = if t = h then (s.entry t).map f else s.entry t := by
  unfold ChainState.modify
  cases he : s.entry h with
  | none =>
    by_cases ht : t = h
    · subst ht
      rw [if_pos rfl, he]
      rfl
    · rw [if_neg ht]
  | some e =>
    by_cases ht : t = h
    · subst ht
      rw [if_pos rfl, he]
      exact AList.lookup_insert _
    · rw [if_neg ht]
      exact AList.lookup_insert_ne ht

/-- An assignment leaves everything but the index. -/
theorem modify_eq (s : ChainState M) (h : Uint256) (f : CBlockIndex → CBlockIndex) :
    s.modify h f = { s with mapBlockIndex := (s.modify h f).mapBlockIndex } := by
  unfold ChainState.modify
  cases s.entry h with
  | none => rfl
  | some e => rfl

end Entries

/-- An entry without what validation writes into it. -/
def shape (e : CBlockIndex) : CBlockIndex := { e with nStatus := 0, undo := none }

/-- What two states have in common when no tip was changed between them. -/
structure Frame (s s' : ChainState M) : Prop where
  shapes : ∀ h, (s'.entry h).map shape = (s.entry h).map shape
  pindexBest : s'.pindexBest = s.pindexBest
  hashBestChain : s'.hashBestChain = s.hashBestChain
  nBestHeight : s'.nBestHeight = s.nBestHeight
  nBestChainWork : s'.nBestChainWork = s.nBestChainWork
  coins : s'.pcoinsTip.flat = s.pcoinsTip.flat
  mempool : s'.mempool = s.mempool
  diskIndex : s'.blockTree.diskIndex = s.blockTree.diskIndex
  statuses : ∀ h, (s.blockTree.blockIndex.lookup h).isSome →
    (s'.blockTree.blockIndex.lookup h).isSome

theorem Frame.rfl {s : ChainState M} : Frame s s :=
  ⟨fun _ => Eq.refl _, Eq.refl _, Eq.refl _, Eq.refl _, Eq.refl _, Eq.refl _, Eq.refl _, Eq.refl _,
    fun _ h => h⟩

theorem Frame.trans {s t u : ChainState M} (hst : Frame s t) (htu : Frame t u) : Frame s u where
  shapes h := (htu.shapes h).trans (hst.shapes h)
  pindexBest := htu.pindexBest.trans hst.pindexBest
  hashBestChain := htu.hashBestChain.trans hst.hashBestChain
  nBestHeight := htu.nBestHeight.trans hst.nBestHeight
  nBestChainWork := htu.nBestChainWork.trans hst.nBestChainWork
  coins := htu.coins.trans hst.coins
  mempool := htu.mempool.trans hst.mempool
  diskIndex := htu.diskIndex.trans hst.diskIndex
  statuses h hh := htu.statuses h (hst.statuses h hh)

instance : IsPreorder (ChainState M) Frame where
  refl _ := Frame.rfl
  trans _ _ _ := Frame.trans

/-- An assignment that keeps the shape of an entry. -/
theorem frame_modify (s : ChainState M) (h : Uint256) (f : CBlockIndex → CBlockIndex)
    (hf : ∀ e, shape (f e) = shape e) : Frame s (s.modify h f) := by
  have hsame := modify_eq s h f
  constructor
  · intro t
    rw [entry_modify]
    split_ifs
    · rw [Option.map_map]
      exact congrArg (fun g => Option.map g (s.entry t)) (funext hf)
    · rfl
  all_goals rw [hsame]
  exact fun _ h => h

theorem isSome_insert {map : AList fun _ : Uint256 => StatusRecord} {h t : Uint256}
    {status : StatusRecord} (ht : (map.lookup t).isSome) :
    ((map.insert h status).lookup t).isSome := by
  by_cases heq : t = h
  · rw [heq, AList.lookup_insert]
    rfl
  · rw [AList.lookup_insert_ne heq]
    exact ht

section Steps

variable (node : Node M)

theorem within_ask : Within Frame (ask node) := by
  intro s
  exact ⟨fun _ => rfl, rfl, rfl, rfl, rfl, rfl, rfl, rfl, fun _ h => h⟩

theorem find_run (h : Uint256) (s : ChainState M) :
    (find h).run s = ((s.entry h).elim (.error .assertion) .ok, s) := by
  unfold find run
  dsimp only
  cases s.entry h with
  | none => rfl
  | some e => rfl

theorem within_find (h : Uint256) : Within (Frame (M := M)) (find h) := by
  intro s
  rw [find_run]
  exact Frame.rfl

theorem within_writeBlockIndex (h : Uint256) : Within Frame (writeBlockIndex node h) := by
  refine within_bind (within_ask node) fun io => ?_
  refine within_bind (within_lift _) fun _ => ?_
  refine within_bind (within_find h) fun e s => ?_
  exact ⟨fun _ => rfl, rfl, rfl, rfl, rfl, rfl, rfl, rfl, fun _ ht => isSome_insert ht⟩

theorem within_moreInvalidWork (work : Uint256) : Within Frame (moreInvalidWork node work) := by
  refine within_bind (fun s => Frame.rfl) fun most => ?_
  split_ifs
  · refine within_bind (fun s => ?_) fun _ => ?_
    · exact ⟨fun _ => rfl, rfl, rfl, rfl, rfl, rfl, rfl, rfl, fun _ h => h⟩
    refine within_bind (within_ask node) fun io => ?_
    refine within_bind (within_lift _) fun _ s => ?_
    exact ⟨fun _ => rfl, rfl, rfl, rfl, rfl, rfl, rfl, rfl, fun _ h => h⟩
  · exact within_pure ()

theorem within_invalidChainFound (h : Uint256) : Within Frame (invalidChainFound node h) := by
  refine within_bind (within_find h) fun e => ?_
  refine within_bind (within_moreInvalidWork node _) fun _ => ?_
  refine within_bind (fun s => Frame.rfl) fun best => ?_
  exact within_check _ _

theorem within_addStatus (bit : BitVec 32) (h : Uint256) :
    Within (Frame (M := M)) (addStatus bit h) := by
  intro s
  apply frame_modify
  intro e
  rfl

theorem within_eraseValid (h : Uint256) : Within (Frame (M := M))
    (act fun s => ((), s.eraseValid h) : Prog _ Failure _) := by
  intro s
  exact ⟨fun _ => rfl, rfl, rfl, rfl, rfl, rfl, rfl, rfl, fun _ h => h⟩

theorem within_markFailed (h : Uint256) : Within Frame (markFailed node h) := by
  refine within_bind (within_addStatus _ h) fun _ => ?_
  refine within_bind (within_writeBlockIndex node h) fun _ => ?_
  refine within_bind (within_eraseValid h) fun _ => ?_
  exact within_invalidChainFound node h

theorem within_markFailedChild (h : Uint256) : Within Frame (markFailedChild node h) := by
  refine within_bind (within_addStatus _ h) fun _ => ?_
  refine within_bind (within_eraseValid h) fun _ => ?_
  exact within_writeBlockIndex node h

theorem plain_run {α : Type} (x : Prog (ChainState M) Failure α) (s : ChainState M) :
    (plain x).run s = ((x.run s).1.mapError .failed, (x.run s).2) := by
  unfold plain run
  dsimp only
  rcases x s with ⟨e | a, s'⟩
  · rfl
  · rfl

theorem plain_ok {α : Type} {x : Prog (ChainState M) Failure α} {a : α} {s s' : ChainState M}
    (h : (plain x).run s = (.ok a, s')) : x.run s = (.ok a, s') := by
  rw [plain_run] at h
  rcases hx : x.run s with ⟨e | b, t⟩
  · rw [hx] at h
    cases h
  · rw [hx] at h
    cases h
    rfl

theorem within_plain {α : Type} {R : ChainState M → ChainState M → Prop}
    {x : Prog (ChainState M) Failure α} (h : Within R x) : Within R (plain x) := by
  intro s
  rw [plain_run]
  exact h s

end Steps

section Statuses

/-- The failure bits of a status. -/
theorem failed_store (nStatus : BitVec 32) :
    (nStatus ||| BLOCK_HAVE_UNDO) &&& BLOCK_FAILED_MASK = nStatus &&& BLOCK_FAILED_MASK := by
  rw [BitVec.and_or_distrib_right]
  have hzero : BLOCK_HAVE_UNDO &&& BLOCK_FAILED_MASK = 0 := by decide
  rw [hzero]
  simp

theorem failed_valid (nStatus : BitVec 32) :
    (nStatus &&& ~~~BLOCK_VALID_MASK ||| BLOCK_VALID_SCRIPTS) &&& BLOCK_FAILED_MASK =
      nStatus &&& BLOCK_FAILED_MASK := by
  have hzero : BLOCK_VALID_SCRIPTS &&& BLOCK_FAILED_MASK = 0 := by decide
  have hmask : ~~~BLOCK_VALID_MASK &&& BLOCK_FAILED_MASK = BLOCK_FAILED_MASK := by decide
  rw [BitVec.and_or_distrib_right, hzero, BitVec.and_assoc, hmask]
  simp

/-- The failure bits are not touched. -/
def SameFailed {κ : Type} (s s' : BlockCtx κ) : Prop :=
  s'.nStatus &&& BLOCK_FAILED_MASK = s.nStatus &&& BLOCK_FAILED_MASK

instance {κ : Type} : IsPreorder (BlockCtx κ) SameFailed where
  refl _ := Eq.refl _
  trans _ _ _ hst htu := Eq.trans htu hst

variable {κ : Type} [CoinsCache κ]

theorem within_connectBlock (env : Env) (io : BlockIo) (block : CBlock) (pindex : PIndex)
    (fJustCheck : Bool) :
    Within (SameFailed (κ := κ)) (connectBlock env io block pindex fJustCheck) := by
  have hview : ∀ {α : Type} (x : Prog κ Failure α), Within SameFailed (onView x) :=
    fun x s => Eq.refl _
  refine within_bind (hview _) fun undo => ?_
  cases undo with
  | none => exact within_pure _
  | some undo =>
    dsimp only
    split_ifs
    · exact within_pure _
    refine within_bind ?_ fun _ => ?_
    · refine within_bind (fun s => Eq.refl _) fun nStatus => ?_
      split_ifs
      · refine within_bind ?_ fun _ => ?_
        · unfold storeUndo
          split_ifs
          · refine within_bind (within_check _ _) fun _ => ?_
            refine within_bind (within_check _ _) fun _ => ?_
            refine within_bind (within_check _ _) fun _ s => ?_
            exact failed_store _
          · exact within_pure _
        refine within_bind (fun s => failed_valid _) fun _ => ?_
        refine within_bind (within_lift _) fun _ => ?_
        refine within_bind (within_check _ _) fun _ s => ?_
        exact Eq.refl _
      · exact within_pure _
    refine within_bind ?_ fun _ => ?_
    · unfold writeTxIndex
      split_ifs
      · exact within_bind (within_lift _) fun _ => within_check _ _
      · exact within_pure _
    exact within_bind (hview _) fun _ => within_pure _

theorem within_disconnectBlock (env : Env) (io : BlockIo) (block : CBlock) (pindex : PIndex) :
    Within (SameFailed (κ := κ)) (disconnectBlock env io block pindex) := by
  have hview : ∀ {α : Type} (x : Prog κ Failure α), Within SameFailed (onView x) :=
    fun x s => Eq.refl _
  refine within_bind (hview _) fun best => ?_
  refine within_bind (within_check _ _) fun _ => ?_
  refine within_bind (fun s => Eq.refl _) fun nStatus => ?_
  refine within_bind (within_check _ _) fun _ => ?_
  refine within_bind (fun s => Eq.refl _) fun undo => ?_
  rcases pindex.pprev with _ | pprev
  · exact within_fail _
  rcases undo with _ | undo
  · exact within_fail _
  refine within_bind (hview _) fun _ => ?_
  exact within_bind (hview _) fun _ => within_pure _

end Statuses

/-- The same candidates, and the same entries marked as failed. -/
structure SameValid (s s' : ChainState M) : Prop where
  setBlockIndexValid : s'.setBlockIndexValid = s.setBlockIndexValid
  failed : ∀ h, (s'.entry h).map CBlockIndex.failed = (s.entry h).map CBlockIndex.failed

instance : IsPreorder (ChainState M) SameValid where
  refl _ := ⟨Eq.refl _, fun _ => Eq.refl _⟩
  trans _ _ _ hst htu :=
    ⟨htu.setBlockIndexValid.trans hst.setBlockIndexValid,
      fun h => (htu.failed h).trans (hst.failed h)⟩

/-- What the loops over the branches leave as it is. -/
structure SwitchFrame (sw sw' : Switch M) : Prop where
  close : Frame sw.close sw'.close
  setBlockIndexValid : sw'.chain.setBlockIndexValid = sw.chain.setBlockIndexValid
  failed : ∀ h, (sw'.chain.entry h).map CBlockIndex.failed =
    (sw.chain.entry h).map CBlockIndex.failed

instance : IsPreorder (Switch M) SwitchFrame where
  refl _ := ⟨Frame.rfl, Eq.refl _, fun _ => Eq.refl _⟩
  trans _ _ _ hst htu :=
    ⟨hst.close.trans htu.close, htu.setBlockIndexValid.trans hst.setBlockIndexValid,
      fun h => (htu.failed h).trans (hst.failed h)⟩

section Switching

variable (node : Node M)

theorem within_onAsk : Within SwitchFrame (onChain (ask node)) := by
  intro sw
  exact ⟨within_ask node sw.close, rfl, fun _ => rfl⟩

theorem within_onFind (h : Uint256) : Within (SwitchFrame (M := M)) (onChain (find h)) := by
  intro sw
  have hrun : ((onChain (find h)).run sw).2 = sw := by
    show Switch.mk ((find h).run sw.chain).2 sw.view = sw
    rw [find_run]
  rw [hrun]
  exact refl sw

/-- What ConnectBlock or DisconnectBlock is run on. -/
def blockCtx (sw : Switch M) (h : Uint256) (e : CBlockIndex) :
    BlockCtx (Cache (Cache CoinsDb)) :=
  ⟨sw.view, e.nStatus, e.undo, (sw.chain.blockTree.blockIndex.lookup h).elim 0 StatusRecord.nStatus⟩

theorem onBlock_run {α : Type} {h : Uint256} {sw : Switch M} {e : CBlockIndex}
    (he : sw.chain.entry h = some e)
    (x : PIndex → Prog (BlockCtx (Cache (Cache CoinsDb))) Failure α) :
    (onBlock h x).run sw =
      (((x (sw.chain.pindex h e)).run (blockCtx sw h e)).1,
        sw.putBack h (blockCtx sw h e).diskStatus
          ((x (sw.chain.pindex h e)).run (blockCtx sw h e)).2) := by
  unfold onBlock Prog.run
  dsimp only
  rw [he]
  rfl

theorem onBlock_run_none {α : Type} {h : Uint256} {sw : Switch M} (he : sw.chain.entry h = none)
    (x : PIndex → Prog (BlockCtx (Cache (Cache CoinsDb))) Failure α) :
    (onBlock h x).run sw = (.error .assertion, sw) := by
  unfold onBlock Prog.run
  dsimp only
  rw [he]

/-- A step that keeps what the base of the view stands for, and the failure bits. -/
theorem within_onBlock {α : Type} (h : Uint256)
    {x : PIndex → Prog (BlockCtx (Cache (Cache CoinsDb))) Failure α}
    (hbase : ∀ pindex ctx, ((x pindex).run ctx).2.view.base.flat = ctx.view.base.flat)
    (hfailed : ∀ pindex, Within SameFailed (x pindex)) :
    Within (SwitchFrame (M := M)) (onBlock h x) := by
  intro sw
  cases he : sw.chain.entry h with
  | none =>
    rw [onBlock_run_none he]
    exact refl (r := SwitchFrame) sw
  | some e =>
    have hsame := hfailed (sw.chain.pindex h e) (blockCtx sw h e)
    have hflat := hbase (sw.chain.pindex h e) (blockCtx sw h e)
    rw [onBlock_run he]
    generalize ((x (sw.chain.pindex h e)).run (blockCtx sw h e)).2 = ctx at hsame hflat ⊢
    generalize hstatus : (blockCtx sw h e).diskStatus = status
    have hmodify := frame_modify sw.chain h
      (fun e => { e with nStatus := ctx.nStatus, undo := ctx.undo }) fun _ => rfl
    have hother := modify_eq sw.chain h
      (fun e => { e with nStatus := ctx.nStatus, undo := ctx.undo })
    refine ⟨⟨hmodify.shapes, hmodify.pindexBest, hmodify.hashBestChain, hmodify.nBestHeight,
      hmodify.nBestChainWork, hflat, hmodify.mempool, ?_, ?_⟩, ?_, fun t => ?_⟩
    · show (if ctx.diskStatus = status then _ else _ : CBlockTreeDB).diskIndex = _
      split_ifs
      · exact hmodify.diskIndex
      · exact hmodify.diskIndex
    · intro t ht
      show ((if ctx.diskStatus = status then _ else _ : CBlockTreeDB).blockIndex.lookup t).isSome
      split_ifs
      · exact hmodify.statuses t ht
      · exact isSome_insert (hmodify.statuses t ht)
    · show (sw.chain.modify h _).setBlockIndexValid = _
      rw [hother]
    · show ((sw.chain.modify h _).entry t).map _ = _
      rw [entry_modify]
      split_ifs with ht
      · subst ht
        rw [he]
        exact congrArg (fun bits => some (bits != 0)) hsame
      · rfl

theorem within_openBlock (h : Uint256) : Within SwitchFrame (openBlock node h) := by
  refine within_bind (within_onAsk node) fun io => ?_
  refine within_bind (within_onFind h) fun e => ?_
  refine within_bind (within_lift _) fun found => ?_
  cases found with
  | none => exact within_fail _
  | some block => exact within_pure _

theorem within_disconnectStep (vResurrect : List CTransaction) (h : Uint256) :
    Within SwitchFrame (disconnectStep node vResurrect h) := by
  refine within_bind (within_openBlock node h) fun opened => ?_
  refine within_bind (within_onBlock h ?_ ?_) fun fClean =>
    within_bind (within_check _ _) fun _ => within_pure _
  · intro pindex ctx
    exact (disconnectBlock_flat _ _ _ pindex ctx).2
  · intro pindex
    exact within_disconnectBlock _ _ _ pindex

theorem blame_run {α : Type} (pindex : Option Uint256) (x : Prog (Switch M) Failure α)
    (sw : Switch M) :
    (blame pindex x).run sw =
      ((x.run sw).1.mapError fun e => SwitchFailure.mk e pindex, (x.run sw).2) := by
  unfold blame run
  dsimp only
  rcases x sw with ⟨e | a, sw'⟩
  · rfl
  · rfl

theorem within_blame {α : Type} {R : Switch M → Switch M → Prop} (pindex : Option Uint256)
    {x : Prog (Switch M) Failure α} (hx : Within R x) : Within R (blame pindex x) := by
  intro sw
  rw [blame_run]
  exact hx sw

theorem within_connectStep (vDelete : List CTransaction) (h : Uint256) :
    Within SwitchFrame (connectStep node vDelete h) := by
  refine within_bind (within_blame none (within_openBlock node h)) fun opened => ?_
  refine within_bind (within_blame (some h) (within_onBlock h ?_ ?_)) fun _ => within_pure _
  · intro pindex ctx
    exact (connectBlock_flat _ _ _ pindex false ctx).2
  · intro pindex
    exact within_connectBlock _ _ _ pindex false

/-- The loops over the branches. -/
theorem within_switchBranches (vDisconnect vConnect : List Uint256) :
    Within SwitchFrame (switchBranches node vDisconnect vConnect) := by
  refine within_bind (within_blame none ?_) fun vResurrect => ?_
  · exact within_foldlM (within_disconnectStep node) _ _
  refine within_bind (within_foldlM (within_connectStep node) _ _) fun vDelete => ?_
  exact within_pure _

end Switching

end UmbrellaLtc.ChainFrame
