import UmbrellaLtc.PoolIndex
import UmbrellaLtc.UtxoMap

/-!
What accept decides depends on the flat view of pcoinsTip only, and the view is
left as it was. A transaction is accepted when the coins have no entry under its
id and each of its inputs is an unspent output of the coins or, where they have no
entry at all, of the pool. An entry without unspent outputs is still an entry:
it hides what the pool has under the same id.
-/

namespace UmbrellaLtc.MemPool

open Codec Transaction Coins CoinsView CheckBlock ConnectBlock FlatView Spending UtxoMap Prog
open CCoinsViewMemPool

section Simulation

variable {κ κ' : Type} [CoinsCache κ] [CoinsCache κ'] {R : κ → κ' → Prop} (hR : CacheSim R)

include hR

theorem sim_areInputsStandard (a : Around) (tx : CTransaction) :
    Sim R (areInputsStandard a tx : Prog κ Failure _) (areInputsStandard a tx) := by
  refine sim_ite (fun _ => sim_pure true) fun _ => sim_allM (fun input => ?_) _
  exact sim_bind (FlatView.sim_getOutputFor hR _) fun prev => sim_pure _

theorem sim_checkSpending (a : Around) (tx : CTransaction) (fLimitFree : Bool) :
    Sim R (checkSpending a tx fLimitFree : Prog κ Failure _) (checkSpending a tx fLimitFree) := by
  refine sim_bind (sim_areInputsStandard hR a tx) fun standard => ?_
  refine sim_bind (sim_check _ _) fun _ => ?_
  refine sim_bind (FlatView.sim_getValueIn hR tx) fun nValueIn => ?_
  refine sim_bind (sim_lift _) fun nValueOut => ?_
  refine sim_bind (sim_lift _) fun nFees => ?_
  refine sim_bind (sim_lift _) fun txMinFee => ?_
  refine sim_bind (sim_check _ _) fun _ => ?_
  refine sim_bind (sim_check _ _) fun _ => ?_
  exact sim_bind (FlatView.sim_checkInputs hR a.env tx _ _ _) fun _ => sim_pure ()

theorem sim_acceptInputs (a : Around) (tx : CTransaction) (fLimitFree : Bool) :
    Sim R (acceptInputs a tx fLimitFree : Prog κ Failure _) (acceptInputs a tx fLimitFree) := by
  refine sim_bind (sim_haveCoins hR _) fun known => ?_
  refine sim_bind (sim_check _ _) fun _ => ?_
  refine sim_bind (sim_allM (fun txin => sim_haveCoins hR _) tx.vin) fun found => ?_
  refine sim_ite (fun _ => ?_) fun _ => sim_pure false
  refine sim_bind (FlatView.sim_haveInputs hR tx) fun available => ?_
  refine sim_bind (sim_check _ _) fun _ => ?_
  refine sim_bind (FlatView.sim_getBestBlock hR) fun _ => ?_
  exact sim_bind (sim_checkSpending hR a tx fLimitFree) fun _ => sim_pure true

end Simulation

section Flat

/-- The coins have an entry under the id, or the pool has the transaction. -/
def known (f : Flat) (pool : CTxMemPool) (txid : Uint256) : Bool :=
  (f.coins txid).isSome || (pool.mapTx.lookup txid).isSome

theorem withPool_isSome (f : Flat) (pool : CTxMemPool) (txid : Uint256) :
    ((withPool pool f).coins txid).isSome = known f pool txid := by
  unfold withPool known poolCoins
  dsimp only
  cases f.coins txid with
  | some c => rfl
  | none =>
    cases pool.mapTx.lookup txid with
    | none => rfl
    | some tx => rfl

/-- The verdict of the checks behind the coins, on the flat view. -/
def spendingVerdict (a : Around) (tx : CTransaction) (fLimitFree : Bool) (w : Flat) : Verdict :=
  match ((checkSpending a tx fLimitFree).run w).1 with
  | .error e => .rejected e
  | .ok () => .accepted

/-- The block `if (fCheckInputs)` on the flat view of the coins. -/
def inputsVerdict (a : Around) (tx : CTransaction) (fLimitFree : Bool) (pool : CTxMemPool)
    (f : Flat) : Verdict :=
  if known f pool (tx.getHash a.env.Hash) = true then .rejected (.error "")
  else if tx.vin.all (fun txin => known f pool txin.prevout.hash) = false then .missingInputs
  else if (tx.isCoinBase ||
      tx.vin.all fun txin => (unspent (withPool pool f) txin.prevout).isSome) = false then
    .rejected (.dos 0 "CTxMemPool::accept() : inputs already spent" false)
  else spendingVerdict a tx fLimitFree (withPool pool f)

/-- accept on the flat view of pcoinsTip. -/
def verdict (a : Around) (tx : CTransaction) (fCheckInputs fLimitFree : Bool) (pool : CTxMemPool)
    (f : Flat) : Verdict :=
  match preChecks a tx pool with
  | .error e => .rejected e
  | .ok () => if fCheckInputs then inputsVerdict a tx fLimitFree pool f else .accepted

/-- How the result of the block `if (fCheckInputs)` is read. -/
def verdictOf : Except Failure Bool → Verdict
  | .error e => .rejected e
  | .ok false => .missingInputs
  | .ok true => .accepted

theorem acceptInputs_run (a : Around) (tx : CTransaction) (fLimitFree : Bool) (pool : CTxMemPool)
    (f : Flat) :
    verdictOf ((acceptInputs a tx fLimitFree).run (withPool pool f)).1 =
      inputsVerdict a tx fLimitFree pool f := by
  have hhave : ∀ txid, (haveCoins txid).run (withPool pool f) =
      (.ok (known f pool txid), withPool pool f) := by
    intro txid
    rw [← withPool_isSome]
    rfl
  have hall : (tx.vin.allM fun txin => haveCoins txin.prevout.hash).run (withPool pool f) =
      (.ok (tx.vin.all fun txin => known f pool txin.prevout.hash), withPool pool f) :=
    allM_run tx.vin fun txin _ => hhave _
  unfold acceptInputs inputsVerdict
  rw [run_bind_ok (hhave _)]
  cases hknown : known f pool (tx.getHash a.env.Hash) with
  | true => rfl
  | false =>
    rw [if_neg Bool.false_ne_true]
    have hcheck : (Prog.check (false = false) (Failure.error "")).run (withPool pool f) =
        (.ok (), withPool pool f) := rfl
    rw [run_bind_ok hcheck, run_bind_ok hall]
    cases tx.vin.all fun txin => known f pool txin.prevout.hash with
    | false => rfl
    | true =>
      rw [if_pos rfl, if_neg nofun, run_bind_ok (haveInputs_run tx _)]
      cases (tx.isCoinBase ||
        tx.vin.all fun txin => (unspent (withPool pool f) txin.prevout).isSome) with
      | false => rfl
      | true =>
        unfold spendingVerdict
        have hbest : (getBestBlock : Prog Flat Failure _).run (withPool pool f) =
            (.ok f.best, withPool pool f) := rfl
        have hcheck' : (Prog.check (true = true) (Failure.dos 0
            "CTxMemPool::accept() : inputs already spent" false)).run (withPool pool f) =
            (.ok (), withPool pool f) := rfl
        rw [if_neg nofun, run_bind_ok hcheck', run_bind_ok hbest]
        rcases hrun : (checkSpending a tx fLimitFree).run (withPool pool f) with ⟨e | u, w⟩
        · rw [run_bind_error hrun]
          rfl
        · rw [run_bind_ok hrun]
          rfl

end Flat

section Tip

variable {β : Type} [LawfulBase β]

/-- The view of accept and its flat view, over the pool and a tip that keeps standing
for `b`. -/
structure StandsOver (b : Flat) (pool : CTxMemPool) (k : Cache (CCoinsViewMemPool β)) (f : Flat) :
    Prop where
  flat : k.flat = f
  tip : LawfulBase.flat k.base.base = b
  pool : k.base.mempool = pool

theorem getCoins_base (txid : Uint256) (v : CCoinsViewMemPool β) :
    LawfulBase.flat (CoinsBase.getCoins txid v).2.base = LawfulBase.flat v.base ∧
      (CoinsBase.getCoins txid v).2.mempool = v.mempool := by
  have hflat := LawfulBase.getCoins_flat txid v.base
  dsimp only [CoinsBase.getCoins]
  rcases hget : CoinsBase.getCoins txid v.base with ⟨_ | c, base⟩
  · rw [hget] at hflat
    exact ⟨hflat, rfl⟩
  · rw [hget] at hflat
    exact ⟨hflat, rfl⟩

theorem fetchCoins_base (txid : Uint256) (k : Cache (CCoinsViewMemPool β)) :
    LawfulBase.flat (k.fetchCoins txid).2.base.base = LawfulBase.flat k.base.base ∧
      (k.fetchCoins txid).2.base.mempool = k.base.mempool := by
  have hbase := getCoins_base txid k.base
  unfold Cache.fetchCoins
  cases k.cacheCoins.lookup txid with
  | some c => exact ⟨rfl, rfl⟩
  | none =>
    rcases hget : CoinsBase.getCoins txid k.base with ⟨_ | c, base⟩
    · rw [hget] at hbase
      exact hbase
    · rw [hget] at hbase
      exact hbase

theorem getBestBlock_base (k : Cache (CCoinsViewMemPool β)) :
    LawfulBase.flat k.getBestBlock.2.base.base = LawfulBase.flat k.base.base ∧
      k.getBestBlock.2.base.mempool = k.base.mempool := by
  unfold Cache.getBestBlock
  cases k.pindexTip with
  | some p => exact ⟨rfl, rfl⟩
  | none => exact ⟨LawfulBase.getBestBlock_flat k.base.base, rfl⟩

theorem cacheSim_standsOver (b : Flat) (pool : CTxMemPool) :
    CacheSim (StandsOver b pool : Cache (CCoinsViewMemPool β) → Flat → Prop) where
  fetchCoins txid k f h := by
    obtain ⟨rfl, htip, hpool⟩ := h
    obtain ⟨hfst, hflat, -⟩ := Cache.fetchCoins_spec txid k
    obtain ⟨htip', hpool'⟩ := fetchCoins_base txid k
    exact ⟨hfst, hflat, htip'.trans htip, hpool'.trans hpool⟩
  setCoins txid c k f h := by
    obtain ⟨rfl, htip, hpool⟩ := h
    exact ⟨Cache.flat_setCoins txid c k, htip, hpool⟩
  getBestBlock k f h := by
    obtain ⟨rfl, htip, hpool⟩ := h
    obtain ⟨hfst, hflat, -⟩ := Cache.getBestBlock_spec k
    obtain ⟨htip', hpool'⟩ := getBestBlock_base k
    exact ⟨hfst, hflat, htip'.trans htip, hpool'.trans hpool⟩
  setBestBlock pindex k f h := by
    obtain ⟨rfl, htip, hpool⟩ := h
    exact ⟨rfl, htip, hpool⟩

/-- accept decides by the flat view of pcoinsTip, and leaves it as it is. -/
theorem accept_flat (a : Around) (tx : CTransaction) (fCheckInputs fLimitFree : Bool)
    (pool : CTxMemPool) (tip : β) :
    (accept a tx fCheckInputs fLimitFree pool tip).1 =
        verdict a tx fCheckInputs fLimitFree pool (LawfulBase.flat tip) ∧
      LawfulBase.flat (accept a tx fCheckInputs fLimitFree pool tip).2.2 = LawfulBase.flat tip := by
  unfold accept verdict
  cases preChecks a tx pool with
  | error e => exact ⟨rfl, rfl⟩
  | ok u =>
    dsimp only
    cases fCheckInputs with
    | false => exact ⟨rfl, rfl⟩
    | true =>
      have hstands : StandsOver (LawfulBase.flat tip) pool
          (Cache.new (⟨tip, pool⟩ : CCoinsViewMemPool β))
          (withPool pool (LawfulBase.flat tip)) := ⟨rfl, rfl, rfl⟩
      obtain ⟨hval, hleft⟩ :=
        sim_acceptInputs (cacheSim_standsOver _ _) a tx fLimitFree _ _ hstands
      have htip := hleft.tip
      rw [if_pos rfl, if_pos rfl, ← acceptInputs_run, ← hval]
      revert htip
      rcases (acceptInputs a tx fLimitFree).run
        (Cache.new (⟨tip, pool⟩ : CCoinsViewMemPool β)) with ⟨e | _ | _, view⟩
      · exact fun htip => ⟨rfl, htip⟩
      · exact fun htip => ⟨rfl, htip⟩
      · exact fun htip => ⟨rfl, htip⟩

end Tip

end UmbrellaLtc.MemPool
