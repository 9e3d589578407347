import UmbrellaLtc.ConnectBlock

/-!
Validation on a stack of caches runs as it does on the flat view of the stack:
every function gives the same result, and the flat view of what it leaves is
what it leaves of the flat view. The base under the cache keeps its own.
-/

namespace UmbrellaLtc.FlatView

open Codec Transaction Coins CoinsView CheckBlock ConnectBlock Prog

section Simulation

variable {κ κ' : Type} [CoinsCache κ] [CoinsCache κ'] {R : κ → κ' → Prop} (hR : CacheSim R)

include hR

theorem sim_fetchCoins (txid : Uint256) :
    Sim R (fetchCoins txid : Prog κ Failure _) (fetchCoins txid) :=
  sim_act (hR.fetchCoins txid)

theorem sim_haveCoins (txid : Uint256) :
    Sim R (haveCoins txid : Prog κ Failure _) (haveCoins txid) :=
  sim_bind (sim_fetchCoins hR txid) fun found => sim_pure found.isSome

theorem sim_getCoins (txid : Uint256) :
    Sim R (getCoins txid : Prog κ Failure _) (getCoins txid) := by
  refine sim_bind (sim_fetchCoins hR txid) fun found => ?_
  cases found with
  | none => exact sim_fail _
  | some coins => exact sim_pure coins

theorem sim_setCoins (txid : Uint256) (coins : CCoins) :
    Sim R (setCoins txid coins : Prog κ Failure _) (setCoins txid coins) :=
  sim_act fun k k' h => ⟨rfl, hR.setCoins txid coins k k' h⟩

theorem sim_getBestBlock : Sim R (getBestBlock : Prog κ Failure _) getBestBlock :=
  sim_act hR.getBestBlock

theorem sim_setBestBlock (pindex : BlockPtr) :
    Sim R (setBestBlock pindex : Prog κ Failure _) (setBestBlock pindex) :=
  sim_act fun k k' h => ⟨rfl, hR.setBestBlock pindex k k' h⟩

theorem sim_getOutputFor (txin : CTxIn) :
    Sim R (getOutputFor txin : Prog κ Failure _) (getOutputFor txin) := by
  refine sim_bind (sim_getCoins hR _) fun coins => ?_
  split
  · exact sim_pure _
  · exact sim_fail _

theorem sim_haveInputs (tx : CTransaction) :
    Sim R (haveInputs tx : Prog κ Failure _) (haveInputs tx) := by
  refine sim_ite (fun _ => sim_pure true) fun _ => ?_
  refine sim_bind (sim_allM (fun txin => sim_haveCoins hR _) tx.vin) fun known => ?_
  refine sim_ite (fun _ => sim_allM (fun txin => ?_) tx.vin) fun _ => sim_pure false
  exact sim_bind (sim_getCoins hR _) fun coins => sim_pure _

theorem sim_getValueIn (tx : CTransaction) :
    Sim R (getValueIn tx : Prog κ Failure _) (getValueIn tx) := by
  refine sim_ite (fun _ => sim_pure 0) fun _ => sim_foldlM (fun n txin => ?_) tx.vin 0
  exact sim_bind (sim_getOutputFor hR txin) fun txout => sim_lift _

theorem sim_getP2SHSigOpCount (tx : CTransaction) :
    Sim R (getP2SHSigOpCount tx : Prog κ Failure _) (getP2SHSigOpCount tx) := by
  refine sim_ite (fun _ => sim_pure 0) fun _ => sim_foldlM (fun n txin => ?_) tx.vin 0
  exact sim_bind (sim_getOutputFor hR txin) fun prevout => sim_pure _

theorem sim_checkInputStep (nSpendHeight : ℕ) (nValueIn : ℤ) (txin : CTxIn) :
    Sim R (checkInputStep nSpendHeight nValueIn txin : Prog κ Failure _)
      (checkInputStep nSpendHeight nValueIn txin) := by
  refine sim_bind (sim_getCoins hR _) fun coins => ?_
  refine sim_bind (sim_check _ _) fun _ => ?_
  split
  · exact sim_fail _
  · refine sim_bind (sim_lift _) fun n => ?_
    exact sim_bind (sim_check _ _) fun _ => sim_pure n

theorem sim_scriptChecks (env : Env) (tx : CTransaction) (fScriptChecks : Bool) (flags : BitVec 32)
    (fQueue : Bool) :
    Sim R (scriptChecks env tx fScriptChecks flags fQueue : Prog κ Failure _)
      (scriptChecks env tx fScriptChecks flags fQueue) := by
  refine sim_ite (fun _ => sim_foldlM (fun vChecks input => ?_) _ _) fun _ => sim_pure []
  refine sim_bind (sim_getCoins hR _) fun coins => ?_
  split
  · exact sim_fail _
  · refine sim_ite (fun _ => sim_pure _) fun _ => ?_
    refine sim_ite (fun _ => sim_pure _) fun _ => ?_
    exact sim_ite (fun _ => sim_fail _) fun _ => sim_fail _

theorem sim_checkAmounts (tx : CTransaction) :
    Sim R (checkAmounts tx : Prog κ Failure _) (checkAmounts tx) := by
  refine sim_bind (sim_getBestBlock hR) fun best => ?_
  cases best with
  | none => exact sim_fail _
  | some best =>
    refine sim_bind (sim_foldlM (fun n txin => sim_checkInputStep hR _ n txin) _ _) fun nIn => ?_
    refine sim_bind (sim_lift _) fun nOut => ?_
    refine sim_bind (sim_check _ _) fun _ => ?_
    refine sim_bind (sim_lift _) fun nTxFee => ?_
    exact sim_bind (sim_check _ _) fun _ => sim_check _ _

theorem sim_checkInputs (env : Env) (tx : CTransaction) (fScriptChecks : Bool) (flags : BitVec 32)
    (fQueue : Bool) :
    Sim R (checkInputs env tx fScriptChecks flags fQueue : Prog κ Failure _)
      (checkInputs env tx fScriptChecks flags fQueue) := by
  refine sim_ite (fun _ => sim_pure []) fun _ => ?_
  refine sim_bind (sim_haveInputs hR tx) fun available => ?_
  refine sim_bind (sim_check _ _) fun _ => ?_
  exact sim_bind (sim_checkAmounts hR tx) fun _ => sim_scriptChecks hR env tx _ _ _

theorem sim_updateCoins (tx : CTransaction) (nHeight : ℕ) (txhash : Uint256) :
    Sim R (updateCoins tx nHeight txhash : Prog κ Failure _) (updateCoins tx nHeight txhash) := by
  refine sim_bind ?_ fun vprevout => sim_bind (sim_setCoins hR _ _) fun _ => sim_pure _
  refine sim_ite (fun _ => sim_pure []) fun _ => sim_foldlM (fun vprevout txin => ?_) _ _
  refine sim_bind (sim_getCoins hR _) fun coins => ?_
  split
  · exact sim_fail _
  · exact sim_bind (sim_setCoins hR _ _) fun _ => sim_pure _

theorem sim_enforceBIP30 (env : Env) (vtx : List CTransaction) :
    Sim R (enforceBIP30 env vtx : Prog κ Failure _) (enforceBIP30 env vtx) := by
  refine sim_foldlM (fun _ tx => sim_bind ?_ fun fine => sim_check _ _) _ _
  refine sim_bind (sim_haveCoins hR _) fun known => ?_
  refine sim_ite (fun _ => ?_) fun _ => sim_pure true
  exact sim_bind (sim_getCoins hR _) fun coins => sim_pure _

theorem sim_tallyInputs (env : Env) (pars : ConnectPars) (t : Tally) (tx : CTransaction) :
    Sim R (tallyInputs env pars t tx : Prog κ Failure _) (tallyInputs env pars t tx) := by
  refine sim_bind (sim_haveInputs hR tx) fun available => ?_
  refine sim_bind (sim_check _ _) fun _ => ?_
  refine sim_bind ?_ fun nSigOps => ?_
  · refine sim_ite (fun _ => ?_) fun _ => sim_pure _
    refine sim_bind (sim_getP2SHSigOpCount hR tx) fun n => ?_
    exact sim_bind (sim_check _ _) fun _ => sim_pure _
  refine sim_bind (sim_getValueIn hR tx) fun nValueIn => ?_
  refine sim_bind (sim_lift _) fun nValueOut => ?_
  refine sim_bind (sim_lift _) fun nTxFee => ?_
  refine sim_bind (sim_lift _) fun nFees => ?_
  exact sim_bind (sim_checkInputs hR env tx _ _ _) fun vChecks => sim_pure _

theorem sim_connectTx (env : Env) (pars : ConnectPars) (t : Tally) (tx : CTransaction) :
    Sim R (connectTx env pars t tx : Prog κ Failure _) (connectTx env pars t tx) := by
  refine sim_bind (sim_check _ _) fun _ => ?_
  refine sim_ite (fun _ => ?_) fun _ => ?_
  · exact sim_bind (sim_updateCoins hR tx _ _) fun _ => sim_pure _
  · refine sim_bind (sim_tallyInputs hR env pars _ tx) fun t => ?_
    exact sim_bind (sim_updateCoins hR tx _ _) fun _ => sim_pure _

theorem sim_connectTxs (env : Env) (pars : ConnectPars) (vtx : List CTransaction) :
    Sim R (connectTxs env pars vtx : Prog κ Failure _) (connectTxs env pars vtx) := by
  refine sim_bind (sim_enforceBIP30 hR env vtx) fun _ => ?_
  refine sim_bind (sim_foldlM (fun t tx => sim_connectTx hR env pars t tx) _ _) fun t => ?_
  cases vtx with
  | nil => exact sim_fail _
  | cons coinbase rest =>
    refine sim_bind (sim_lift _) fun nValueOut => ?_
    refine sim_bind (sim_lift _) fun nLimit => ?_
    refine sim_bind (sim_check _ _) fun _ => ?_
    exact sim_bind (sim_check _ _) fun _ => sim_pure _

theorem sim_connectView (env : Env) (block : CBlock) (pindex : PIndex) (fJustCheck : Bool) :
    Sim R (connectView env block pindex fJustCheck : Prog κ Failure _)
      (connectView env block pindex fJustCheck) := by
  refine sim_bind (sim_lift _) fun _ => ?_
  refine sim_bind (sim_getBestBlock hR) fun best => ?_
  refine sim_bind (sim_check _ _) fun _ => ?_
  refine sim_ite (fun _ => ?_) fun _ => ?_
  · exact sim_bind (sim_setBestBlock hR _) fun _ => sim_pure none
  · exact sim_bind (sim_connectTxs hR env _ _) fun blockundo => sim_pure _

end Simulation

section Context

variable {κ κ' : Type} {R : κ → κ' → Prop}

/-- Equal index data over related views. -/
structure CtxRel (R : κ → κ' → Prop) (s : BlockCtx κ) (s' : BlockCtx κ') : Prop where
  view : R s.view s'.view
  nStatus : s.nStatus = s'.nStatus
  undo : s.undo = s'.undo
  diskStatus : s.diskStatus = s'.diskStatus

theorem sim_onView {α : Type} {x : Prog κ Failure α} {y : Prog κ' Failure α} (h : Sim R x y) :
    Sim (CtxRel R) (onView x) (onView y) :=
  sim_zoom h (fun _ _ hs => hs.view)
    (fun _ _ _ _ hs hv => ⟨hv, hs.nStatus, hs.undo, hs.diskStatus⟩)

theorem sim_storeUndo (io : BlockIo) (pprev : Option BlockPtr) (blockundo : CBlockUndo)
    (fNull : Bool) :
    Sim (CtxRel R) (storeUndo io pprev blockundo fNull) (storeUndo io pprev blockundo fNull) := by
  refine sim_ite (fun _ => ?_) fun _ => sim_pure ()
  refine sim_bind (sim_check _ _) fun _ => ?_
  refine sim_bind (sim_check _ _) fun _ => ?_
  refine sim_bind (sim_check _ _) fun _ => ?_
  exact sim_act fun s s' h => ⟨rfl, h.view, by rw [h.nStatus], rfl, h.diskStatus⟩

theorem sim_readStatus : Sim (CtxRel R) readStatus readStatus :=
  sim_act fun _ _ h => ⟨h.nStatus, h⟩

theorem sim_readUndo (io : BlockIo) : Sim (CtxRel R) (readUndo io) (readUndo io) :=
  sim_act fun _ _ h => ⟨by rw [h.undo], h⟩

theorem sim_writeUndo (io : BlockIo) (pprev : Option BlockPtr) (blockundo : CBlockUndo) :
    Sim (CtxRel R) (writeUndo io pprev blockundo) (writeUndo io pprev blockundo) := by
  refine sim_bind sim_readStatus fun nStatus => ?_
  refine sim_ite (fun _ => ?_) fun _ => sim_pure ()
  refine sim_bind (sim_storeUndo io pprev blockundo _) fun _ => ?_
  refine sim_bind (sim_act fun s s' h => ?_) fun _ => ?_
  · exact ⟨rfl, h.view, by rw [h.nStatus], h.undo, h.diskStatus⟩
  refine sim_bind (sim_lift _) fun _ => ?_
  refine sim_bind (sim_check _ _) fun _ => ?_
  exact sim_act fun s s' h => ⟨rfl, h.view, h.nStatus, h.undo, h.nStatus⟩

end Context

section Blocks

variable {κ κ' : Type} [CoinsCache κ] [CoinsCache κ'] {R : κ → κ' → Prop} (hR : CacheSim R)

include hR

theorem sim_connectBlock (env : Env) (io : BlockIo) (block : CBlock) (pindex : PIndex)
    (fJustCheck : Bool) :
    Sim (CtxRel R) (connectBlock env io block pindex fJustCheck)
      (connectBlock env io block pindex fJustCheck) := by
  refine sim_bind (sim_onView (sim_connectView hR env block pindex fJustCheck)) fun undo => ?_
  cases undo with
  | none => exact sim_pure none
  | some blockundo =>
    refine sim_ite (fun _ => sim_pure _) fun _ => ?_
    refine sim_bind (sim_writeUndo io _ _) fun _ => ?_
    refine sim_bind ?_ fun _ => ?_
    · refine sim_ite (fun _ => ?_) fun _ => sim_pure ()
      exact sim_bind (sim_lift _) fun _ => sim_check _ _
    exact sim_bind (sim_onView (sim_setBestBlock hR _)) fun _ => sim_pure _

theorem sim_restoreInputs (fClean : Bool) (tx : CTransaction) (txundo : CTxUndo) :
    Sim R (restoreInputs fClean tx txundo : Prog κ Failure _)
      (restoreInputs fClean tx txundo) := by
  refine sim_bind (sim_check _ _) fun _ => sim_foldlM (fun fClean input => ?_) _ _
  refine sim_bind (sim_fetchCoins hR _) fun found => ?_
  exact sim_bind (sim_setCoins hR _ _) fun _ => sim_pure _

theorem sim_ensureCoins (txid : Uint256) :
    Sim R (ensureCoins txid : Prog κ Failure _) (ensureCoins txid) := by
  refine sim_bind (sim_haveCoins hR txid) fun known => ?_
  refine sim_ite (fun _ => sim_pure true) fun _ => ?_
  exact sim_bind (sim_setCoins hR _ _) fun _ => sim_pure false

theorem sim_disconnectTx (env : Env) (nHeight : ℕ) (fClean : Bool)
    (entry : CTransaction × Option CTxUndo) :
    Sim R (disconnectTx env nHeight fClean entry : Prog κ Failure _)
      (disconnectTx env nHeight fClean entry) := by
  refine sim_bind (sim_ensureCoins hR _) fun known => ?_
  refine sim_bind (sim_getCoins hR _) fun outs => ?_
  refine sim_bind (sim_setCoins hR _ _) fun _ => ?_
  rcases entry with ⟨tx, _ | txundo⟩
  · exact sim_pure _
  · exact sim_restoreInputs hR _ tx txundo

theorem sim_disconnectBlock (env : Env) (io : BlockIo) (block : CBlock) (pindex : PIndex) :
    Sim (CtxRel R) (disconnectBlock env io block pindex) (disconnectBlock env io block pindex) := by
  refine sim_bind (sim_onView (sim_getBestBlock hR)) fun best => ?_
  refine sim_bind (sim_check _ _) fun _ => ?_
  refine sim_bind sim_readStatus fun nStatus => ?_
  refine sim_bind (sim_check _ _) fun _ => ?_
  refine sim_bind (sim_readUndo io) fun undo => ?_
  rcases pindex.pprev with _ | pprev
  · exact sim_fail _
  rcases undo with _ | blockUndo
  · exact sim_fail _
  refine sim_bind (sim_onView (sim_bind (sim_check _ _) fun _ => ?_)) fun fClean => ?_
  · exact sim_foldlM (fun fClean entry => sim_disconnectTx hR env _ fClean entry) _ _
  · exact sim_bind (sim_onView (sim_setBestBlock hR _)) fun _ => sim_pure _

end Blocks

/-- The same index data over the flat view of a cache. -/
def flatCtx {β : Type} [LawfulBase β] (s : BlockCtx (Cache β)) : BlockCtx Flat :=
  ⟨s.view.flat, s.nStatus, s.undo, s.diskStatus⟩

section Stacks

variable {β : Type} [LawfulBase β] {α : Type} {x : Prog (BlockCtx (Cache β)) Failure α}
  {y : Prog (BlockCtx Flat) Failure α}

/-- What a simulation says of a cache: the result, the flat view of what is left, and
the base. -/
theorem run_flat (h : ∀ b, Sim (CtxRel (Stands b)) x y) (s : BlockCtx (Cache β)) :
    y.run (flatCtx s) = ((x.run s).1, flatCtx (x.run s).2) ∧
      LawfulBase.flat (x.run s).2.view.base = LawfulBase.flat s.view.base := by
  have hs : CtxRel (Stands (LawfulBase.flat s.view.base)) s (flatCtx s) :=
    ⟨⟨rfl, rfl⟩, rfl, rfl, rfl⟩
  obtain ⟨hval, hview, hstatus, hundo, hdisk⟩ := h _ s (flatCtx s) hs
  refine ⟨Prod.ext hval.symm ?_, hview.2⟩
  simp only [flatCtx, hview.1, hstatus, hundo, hdisk]

end Stacks

section Stacks

variable {β : Type} [LawfulBase β]

theorem connectBlock_flat (env : Env) (io : BlockIo) (block : CBlock) (pindex : PIndex)
    (fJustCheck : Bool) (s : BlockCtx (Cache β)) :
    (connectBlock env io block pindex fJustCheck).run (flatCtx s) =
        (((connectBlock env io block pindex fJustCheck).run s).1,
          flatCtx ((connectBlock env io block pindex fJustCheck).run s).2) ∧
      LawfulBase.flat ((connectBlock env io block pindex fJustCheck).run s).2.view.base =
        LawfulBase.flat s.view.base :=
  run_flat (fun b => sim_connectBlock (cacheSim_stands b) env io block pindex fJustCheck) s

theorem disconnectBlock_flat (env : Env) (io : BlockIo) (block : CBlock) (pindex : PIndex)
    (s : BlockCtx (Cache β)) :
    (disconnectBlock env io block pindex).run (flatCtx s) =
        (((disconnectBlock env io block pindex).run s).1,
          flatCtx ((disconnectBlock env io block pindex).run s).2) ∧
      LawfulBase.flat ((disconnectBlock env io block pindex).run s).2.view.base =
        LawfulBase.flat s.view.base :=
  run_flat (fun b => sim_disconnectBlock (cacheSim_stands b) env io block pindex) s

end Stacks

end UmbrellaLtc.FlatView
