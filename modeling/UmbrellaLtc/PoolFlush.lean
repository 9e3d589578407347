import UmbrellaLtc.PoolAccept

/-!
Whether accept takes a transaction should not depend on whether the coins have been
flushed. It does where a pruned entry is left in a cache: FetchCoins finds an
entry, and HaveCoins does not look whether anything is left of it. Such an entry
under the id of the transaction makes it look known, one under the id of a
transaction of the pool hides what the pool has, and one under the id of a spent
transaction turns missing inputs into spent ones.
-/

namespace UmbrellaLtc.MemPool

open Codec Transaction Coins CoinsView CheckBlock ConnectBlock FlatView Spending UtxoMap Prog
open CCoinsViewMemPool

section Local

variable {a : Around} {tx : CTransaction} {pool : CTxMemPool} {f g : Flat}

theorem sim_checkSpending_local (a : Around) (tx : CTransaction) (fLimitFree : Bool) :
    Sim (SameFor id tx) (checkSpending a tx fLimitFree) (checkSpending a tx fLimitFree) := by
  have hR : ∀ f g, SameFor id tx f g → SameFor id tx f g := fun _ _ h => h
  refine sim_bind ?_ fun standard => ?_
  · refine sim_ite (fun _ => sim_pure true) fun _ => sim_allM_mem _ fun input hmem => ?_
    have hvin : input.1 ∈ tx.vin := List.fst_mem_of_mem_zipIdx hmem
    exact sim_bind (UtxoMap.sim_getOutputFor hR hvin) fun prev => sim_pure _
  refine sim_bind (sim_check _ _) fun _ => ?_
  refine sim_bind (UtxoMap.sim_getValueIn hR) fun nValueIn => ?_
  refine sim_bind (sim_lift _) fun nValueOut => ?_
  refine sim_bind (sim_lift _) fun nFees => ?_
  refine sim_bind (sim_lift _) fun txMinFee => ?_
  refine sim_bind (sim_check _ _) fun _ => ?_
  refine sim_bind (sim_check _ _) fun _ => ?_
  exact sim_bind (UtxoMap.sim_checkInputs hR a.env _ _ _) fun _ => sim_pure ()

/-- accept looks at the entries of the transaction and of what it spends from. -/
theorem inputsVerdict_congr (fLimitFree : Bool)
    (hself : known f pool (tx.getHash a.env.Hash) = known g pool (tx.getHash a.env.Hash))
    (hknown : ∀ txin ∈ tx.vin, known f pool txin.prevout.hash = known g pool txin.prevout.hash)
    (hsame : SameFor id tx (withPool pool f) (withPool pool g)) :
    inputsVerdict a tx fLimitFree pool f = inputsVerdict a tx fLimitFree pool g := by
  have hall : (tx.vin.all fun txin => known f pool txin.prevout.hash) =
      tx.vin.all fun txin => known g pool txin.prevout.hash := by
    rw [Bool.eq_iff_iff, List.all_eq_true, List.all_eq_true]
    exact forall₂_congr fun txin hmem => by rw [hknown txin hmem]
  have havail : (tx.vin.all fun txin => (unspent (withPool pool f) txin.prevout).isSome) =
      tx.vin.all fun txin => (unspent (withPool pool g) txin.prevout).isSome := by
    rw [Bool.eq_iff_iff, List.all_eq_true, List.all_eq_true]
    exact forall₂_congr fun txin hmem => by rw [hsame.unspent_eq hmem]
  have hspend : spendingVerdict a tx fLimitFree (withPool pool f) =
      spendingVerdict a tx fLimitFree (withPool pool g) := by
    unfold spendingVerdict
    rw [(sim_checkSpending_local a tx fLimitFree _ _ hsame).1]
  unfold inputsVerdict
  rw [hself, hall, havail, hspend]

end Local

section Pruned

variable (Hash : List Byte → Uint256) (tx : CTransaction)

/-- The ids under which accept looks for coins. -/
def LooksAt (h : Uint256) : Prop :=
  h = tx.getHash Hash ∨ ∃ txin ∈ tx.vin, h = txin.prevout.hash

/-- No entry that accept looks at is pruned. -/
def Clear (f : Flat) : Prop :=
  ∀ h, LooksAt Hash tx h → ∀ c, f.coins h = some c → c.isPruned = false

/-- Entries without unspent outputs taken away. -/
def unpruned (f : Flat) : Flat := { f with coins := fun h => (f.coins h).filter fun c => !c.isPruned }

/-- The coins have no entry for the transaction, and for one of its inputs neither they
nor the pool have anything. -/
def Missing (pool : CTxMemPool) (f : Flat) : Prop :=
  f.coins (tx.getHash Hash) = none ∧
    ∃ txin ∈ tx.vin, f.coins txin.prevout.hash = none ∧
      pool.mapTx.lookup txin.prevout.hash = none

variable {Hash tx} {f g : Flat} {pool : CTxMemPool}

theorem utxoMap_unpruned (f : Flat) : utxoMap id (unpruned f) = utxoMap id f := by
  funext h
  show ((f.coins h).filter fun c => !c.isPruned).bind (utxoOf id) = (f.coins h).bind (utxoOf id)
  cases f.coins h with
  | none => rfl
  | some c =>
    unfold utxoOf
    cases hp : c.isPruned with
    | false => simp [Option.filter, hp]
    | true => simp [Option.filter, hp]

theorem sameMap_unpruned (f : Flat) : SameMap id f (unpruned f) :=
  ⟨(utxoMap_unpruned f).symm, rfl⟩

theorem clear_unpruned (f : Flat) : Clear Hash tx (unpruned f) := by
  intro h _ c hc
  unfold unpruned at hc
  simpa using (Option.filter_eq_some_iff.mp hc).2

theorem Clear.isSome_eq (h : Clear Hash tx f) {t : Uint256} (ht : LooksAt Hash tx t) :
    (f.coins t).isSome = (utxoMap id f t).isSome := by
  unfold utxoMap
  cases hc : f.coins t with
  | none => rfl
  | some c =>
    unfold utxoOf
    rw [Option.bind_some, h t ht c hc]
    rfl

theorem Clear.utxoMap_withPool (h : Clear Hash tx f) {t : Uint256} (ht : LooksAt Hash tx t) :
    utxoMap id (withPool pool f) t =
      (utxoMap id f t).orElse fun _ => (poolCoins pool t).bind (utxoOf id) := by
  unfold utxoMap withPool
  dsimp only
  cases hc : f.coins t with
  | none => rfl
  | some c =>
    show utxoOf id c = (utxoOf id c).orElse _
    unfold utxoOf
    rw [h t ht c hc]
    rfl

/-- Without pruned entries, coins that stand for one map are the same to accept. -/
theorem inputsVerdict_clear {a : Around} (hsame : SameMap id f g)
    (hf : Clear a.env.Hash tx f) (hg : Clear a.env.Hash tx g) (fLimitFree : Bool) :
    inputsVerdict a tx fLimitFree pool f = inputsVerdict a tx fLimitFree pool g := by
  have hknown : ∀ t, LooksAt a.env.Hash tx t → known f pool t = known g pool t := by
    intro t ht
    unfold known
    rw [hf.isSome_eq ht, hg.isSome_eq ht, hsame.coins]
  refine inputsVerdict_congr fLimitFree (hknown _ (Or.inl rfl))
    (fun txin hmem => hknown _ (Or.inr ⟨txin, hmem, rfl⟩)) ⟨fun txin hmem => ?_, hsame.best⟩
  have ht : LooksAt a.env.Hash tx txin.prevout.hash := Or.inr ⟨txin, hmem, rfl⟩
  rw [hf.utxoMap_withPool ht, hg.utxoMap_withPool ht, hsame.coins]

/-- What accept accepts, it accepts without a pruned entry in sight. -/
theorem clear_of_accepted {a : Around} (hcb : tx.isCoinBase = false) {fLimitFree : Bool}
    (h : inputsVerdict a tx fLimitFree pool f = .accepted) : Clear a.env.Hash tx f := by
  unfold inputsVerdict at h
  split_ifs at h with hknown hmissing hspent
  rw [hcb, Bool.false_or, Bool.not_eq_false, List.all_eq_true] at hspent
  intro t ht c hc
  rcases ht with rfl | ⟨txin, hmem, rfl⟩
  · unfold known at hknown
    rw [hc] at hknown
    exact absurd rfl hknown
  · obtain ⟨out, hout⟩ := Option.isSome_iff_exists.mp (hspent txin hmem)
    obtain ⟨d, hd, hdout⟩ := (unspent_eq_some_iff _ _ out).mp hout
    have heq : d = c := by
      unfold withPool at hd
      dsimp only at hd
      rw [hc] at hd
      exact (Option.some.inj hd).symm
    rw [← heq]
    exact CCoins.not_isPruned_of_output hdout

end Pruned

/-- What accept returns. -/
def Verdict.returns : Verdict → Bool
  | .accepted => true
  | _ => false

/-- What accept sets *pfMissingInputs to. -/
def Verdict.fMissingInputs : Verdict → Bool
  | .missingInputs => true
  | _ => false

theorem Verdict.returns_iff (v : Verdict) : v.returns = true ↔ v = .accepted := by
  cases v <;> simp [Verdict.returns]

theorem Verdict.fMissingInputs_iff (v : Verdict) : v.fMissingInputs = true ↔ v = .missingInputs := by
  cases v <;> simp [Verdict.fMissingInputs]

section Decision

/-- The inputs are unspent in the map or in the pool, and the checks of the spending
pass there. -/
structure Fine (a : Around) (tx : CTransaction) (fLimitFree : Bool) (pool : CTxMemPool)
    (f : Flat) : Prop where
  inputs : ∀ txin ∈ tx.vin, (unspent (withPool pool (unpruned f)) txin.prevout).isSome = true
  checks : ((checkSpending a tx fLimitFree).run (withPool pool (unpruned f))).1 = .ok ()

variable {a : Around} {tx : CTransaction} {fLimitFree : Bool} {pool : CTxMemPool} {f g : Flat}

theorem spendingVerdict_accepted {w : Flat} :
    spendingVerdict a tx fLimitFree w = .accepted ↔
      ((checkSpending a tx fLimitFree).run w).1 = .ok () := by
  unfold spendingVerdict
  cases ((checkSpending a tx fLimitFree).run w).1 with
  | error e => exact ⟨nofun, nofun⟩
  | ok u => exact ⟨fun _ => rfl, fun _ => rfl⟩

theorem inputsVerdict_missing (hpool : pool.mapTx.lookup (tx.getHash a.env.Hash) = none) :
    inputsVerdict a tx fLimitFree pool f = .missingInputs ↔ Missing a.env.Hash tx pool f := by
  have hspending : ∀ w, spendingVerdict a tx fLimitFree w ≠ .missingInputs := by
    intro w
    unfold spendingVerdict
    cases ((checkSpending a tx fLimitFree).run w).1 with
    | error e => exact nofun
    | ok u => exact nofun
  have hknown : ∀ t, known f pool t = false ↔ f.coins t = none ∧ pool.mapTx.lookup t = none := by
    intro t
    unfold known
    rw [Bool.or_eq_false_iff, Option.isSome_eq_false_iff, Option.isSome_eq_false_iff,
      Option.isNone_iff_eq_none, Option.isNone_iff_eq_none]
  have hmissing : (tx.vin.all fun txin => known f pool txin.prevout.hash) = false ↔
      ∃ txin ∈ tx.vin, f.coins txin.prevout.hash = none ∧
        pool.mapTx.lookup txin.prevout.hash = none := by
    rw [List.all_eq_false]
    refine exists_congr fun txin => and_congr_right fun _ => ?_
    rw [Bool.not_eq_true, hknown]
  unfold inputsVerdict Missing
  split_ifs with hself hall hspent
  · refine ⟨nofun, fun h => ?_⟩
    rw [(hknown _).mpr ⟨h.1, hpool⟩] at hself
    cases hself
  · rw [Bool.not_eq_true, hknown] at hself
    exact ⟨fun _ => ⟨hself.1, hmissing.mp hall⟩, fun _ => rfl⟩
  · exact ⟨nofun, fun h => absurd (hmissing.mpr h.2) hall⟩
  · exact ⟨fun h => absurd h (hspending _), fun h => absurd (hmissing.mpr h.2) hall⟩

theorem fine_iff (hpre : PreChecked a tx pool)
    (hself : utxoMap id f (tx.getHash a.env.Hash) = none) :
    inputsVerdict a tx fLimitFree pool (unpruned f) = .accepted ↔ Fine a tx fLimitFree pool f := by
  have hnew : known (unpruned f) pool (tx.getHash a.env.Hash) = false := by
    have hclear : Clear a.env.Hash tx (unpruned f) := clear_unpruned f
    unfold known
    rw [hclear.isSome_eq (Or.inl rfl), utxoMap_unpruned, hself, hpre.new]
    rfl
  have hfound : (∀ txin ∈ tx.vin, (unspent (withPool pool (unpruned f)) txin.prevout).isSome = true)
      → (tx.vin.all fun txin => known (unpruned f) pool txin.prevout.hash) = true := by
    intro hin
    rw [List.all_eq_true]
    intro txin hmem
    obtain ⟨out, hout⟩ := Option.isSome_iff_exists.mp (hin txin hmem)
    obtain ⟨c, hc, -⟩ := (unspent_eq_some_iff _ _ out).mp hout
    rw [← withPool_isSome, hc]
    rfl
  unfold inputsVerdict
  rw [hnew, if_neg Bool.false_ne_true, hpre.not_coinbase, Bool.false_or]
  constructor
  · intro h
    split_ifs at h with hall hspent
    rw [Bool.not_eq_false, List.all_eq_true] at hspent
    exact ⟨hspent, spendingVerdict_accepted.mp h⟩
  · intro h
    have hspent := List.all_eq_true.mpr h.inputs
    rw [hfound h.inputs, if_neg nofun, hspent, if_neg nofun]
    exact spendingVerdict_accepted.mpr h.checks

theorem inputsVerdict_accepted (hpre : PreChecked a tx pool)
    (hself : utxoMap id f (tx.getHash a.env.Hash) = none) :
    inputsVerdict a tx fLimitFree pool f = .accepted ↔
      Fine a tx fLimitFree pool f ∧ Clear a.env.Hash tx f := by
  have hsame : Clear a.env.Hash tx f → inputsVerdict a tx fLimitFree pool f =
      inputsVerdict a tx fLimitFree pool (unpruned f) :=
    fun hclear => inputsVerdict_clear (sameMap_unpruned f) hclear (clear_unpruned f) fLimitFree
  constructor
  · intro h
    have hclear := clear_of_accepted hpre.not_coinbase h
    exact ⟨(fine_iff hpre hself).mp ((hsame hclear).symm.trans h), hclear⟩
  · intro h
    exact (hsame h.2).trans ((fine_iff hpre hself).mpr h.1)

theorem fine_congr (hpre : PreChecked a tx pool) (hsame : SameMap id f g)
    (hself : utxoMap id f (tx.getHash a.env.Hash) = none) :
    Fine a tx fLimitFree pool f ↔ Fine a tx fLimitFree pool g := by
  have hunpruned : SameMap id (unpruned f) (unpruned g) := by
    refine ⟨?_, hsame.best⟩
    rw [utxoMap_unpruned, utxoMap_unpruned, hsame.coins]
  rw [← fine_iff hpre hself, ← fine_iff hpre (hsame.coins ▸ hself),
    inputsVerdict_clear hunpruned (clear_unpruned f) (clear_unpruned g)]

/-- An unspent output of the transaction itself: it is known whatever else there is. -/
theorem inputsVerdict_unspent (hself : (utxoMap id f (tx.getHash a.env.Hash)).isSome = true) :
    inputsVerdict a tx fLimitFree pool f = .rejected (.error "") := by
  have hknown : known f pool (tx.getHash a.env.Hash) = true := by
    unfold utxoMap at hself
    unfold known
    cases hc : f.coins (tx.getHash a.env.Hash) with
    | none =>
      rw [hc] at hself
      cases hself
    | some c => rfl
  unfold inputsVerdict
  rw [if_pos hknown]

end Decision

/-- On two stacks that stand for the same map and best block, accept returns the same and
sets *pfMissingInputs to the same exactly when it does not come to look at the coins,
when an output of the transaction is unspent, or when the stacks agree on whether
something is missing and, where the spending is fine, on whether a pruned entry is in
the way. -/
theorem accept_ignores_flush_iff {β β' : Type} [LawfulBase β] [LawfulBase β'] (a : Around)
    (tx : CTransaction) (fCheckInputs fLimitFree : Bool) (pool : CTxMemPool) (tip : β) (tip' : β')
    (hsame : SameMap id (LawfulBase.flat tip) (LawfulBase.flat tip')) :
    ((accept a tx fCheckInputs fLimitFree pool tip).1.returns =
        (accept a tx fCheckInputs fLimitFree pool tip').1.returns ∧
      (accept a tx fCheckInputs fLimitFree pool tip).1.fMissingInputs =
        (accept a tx fCheckInputs fLimitFree pool tip').1.fMissingInputs) ↔
      fCheckInputs = false ∨ preChecks a tx pool ≠ .ok () ∨
        (utxoMap id (LawfulBase.flat tip) (tx.getHash a.env.Hash)).isSome = true ∨
        ((Missing a.env.Hash tx pool (LawfulBase.flat tip) ↔
            Missing a.env.Hash tx pool (LawfulBase.flat tip')) ∧
          (Fine a tx fLimitFree pool (LawfulBase.flat tip) →
            (Clear a.env.Hash tx (LawfulBase.flat tip) ↔
              Clear a.env.Hash tx (LawfulBase.flat tip')))) := by
  rw [(accept_flat a tx fCheckInputs fLimitFree pool tip).1,
    (accept_flat a tx fCheckInputs fLimitFree pool tip').1]
  generalize LawfulBase.flat tip = f at hsame ⊢
  generalize LawfulBase.flat tip' = g at hsame ⊢
  unfold verdict
  cases hpre : preChecks a tx pool with
  | error e => exact ⟨fun _ => Or.inr (Or.inl nofun), fun _ => ⟨rfl, rfl⟩⟩
  | ok u =>
    have hchecked := preChecks_ok hpre
    cases fCheckInputs with
    | false => exact ⟨fun _ => Or.inl rfl, fun _ => ⟨rfl, rfl⟩⟩
    | true =>
      dsimp only
      rw [if_pos rfl, if_pos rfl]
      by_cases hself : (utxoMap id f (tx.getHash a.env.Hash)).isSome = true
      · rw [inputsVerdict_unspent hself, inputsVerdict_unspent (hsame.coins ▸ hself)]
        exact ⟨fun _ => Or.inr (Or.inr (Or.inl hself)), fun _ => ⟨rfl, rfl⟩⟩
      · have hnone : utxoMap id f (tx.getHash a.env.Hash) = none := by simpa using hself
        have hnone' : utxoMap id g (tx.getHash a.env.Hash) = none := hsame.coins ▸ hnone
        have hreturns : (inputsVerdict a tx fLimitFree pool f).returns =
            (inputsVerdict a tx fLimitFree pool g).returns ↔
              (Fine a tx fLimitFree pool f ∧ Clear a.env.Hash tx f ↔
                Fine a tx fLimitFree pool f ∧ Clear a.env.Hash tx g) := by
          rw [Bool.eq_iff_iff, Verdict.returns_iff, Verdict.returns_iff,
            inputsVerdict_accepted hchecked hnone, inputsVerdict_accepted hchecked hnone',
            ← fine_congr hchecked hsame hnone]
        have hmissing : (inputsVerdict a tx fLimitFree pool f).fMissingInputs =
            (inputsVerdict a tx fLimitFree pool g).fMissingInputs ↔
              (Missing a.env.Hash tx pool f ↔ Missing a.env.Hash tx pool g) := by
          rw [Bool.eq_iff_iff, Verdict.fMissingInputs_iff, Verdict.fMissingInputs_iff,
            inputsVerdict_missing hchecked.new, inputsVerdict_missing hchecked.new]
        rw [hreturns, hmissing, and_congr_right_iff, and_comm]
        constructor
        · exact fun h => Or.inr (Or.inr (Or.inr h))
        · rintro (h | h | h | h)
          · cases h
          · exact absurd rfl h
          · exact absurd h hself
          · exact h

section Examples

def mintPtr : BlockPtr :=
  ⟨0x7e1058066fd9787a859cb784df480d87c939089b3c16db49d1707c476f458408, 100⟩

/-- The premine in the database, unspent. -/
def mintDb : CoinsDb where
  coins := AList.singleton mintTxid (.ofTx mintTx 1)
  best := some mintPtr

/-- The coins after a block with the spending transaction has been disconnected: a pruned
entry is left in the cache. -/
def disconnectedTip : Cache CoinsDb := ⟨mintDb, AList.singleton spendTxid .empty, some mintPtr⟩

/-- The same coins after a flush. -/
def flushedTip : Cache CoinsDb := (disconnectedTip.flush true).2

theorem sameMap_flushed : SameMap id disconnectedTip.flat flushedTip.flat := by
  have hversion : ∀ t c, disconnectedTip.cacheCoins.lookup t = some c → 0 ≤ c.nVersion.toInt := by
    intro t c hc
    have hmem : (⟨t, c⟩ : Sigma fun _ : Uint256 => CCoins) ∈
        [(⟨spendTxid, CCoins.empty⟩ : Sigma fun _ : Uint256 => CCoins)] :=
      AList.mem_lookup_iff.mp hc
    cases List.mem_singleton.mp hmem
    decide
  have hflush : utxoMap id flushedTip.flat = utxoMap id disconnectedTip.flat :=
    flush_coins true disconnectedTip fun t c hc => storedVersion_nonneg (hversion t c hc)
  exact ⟨hflush.symm, rfl⟩

theorem accept_sees_flush :
    SameMap id (LawfulBase.flat disconnectedTip) (LawfulBase.flat flushedTip) ∧
      (accept spendAround spendTx true false .empty disconnectedTip).1 = .rejected (.error "") ∧
      (accept spendAround spendTx true false .empty flushedTip).1 = .accepted :=
  ⟨sameMap_flushed, by decide, by decide⟩

/-- A pruned entry that accept does not look at. -/
def strayTip : Cache CoinsDb := flushedTip.setCoins respendTxid .empty

theorem accept_ignores_flush_stray :
    (accept spendAround spendTx true false .empty flushedTip).1.returns = true ∧
      (accept spendAround spendTx true false .empty strayTip).1.returns = true := by
  have hsame : SameMap id flushedTip.flat strayTip.flat := by
    refine ⟨?_, rfl⟩
    unfold strayTip
    rw [Cache.flat_setCoins]
    exact ((utxoMap_put id flushedTip.flat respendTxid .empty).trans
      (Function.update_eq_self _ _)).symm
  have hlooks : ∀ h, LooksAt spendHash spendTx h →
      flushedTip.flat.coins h = strayTip.flat.coins h := by
    intro h hh
    have hne : h ≠ respendTxid := by
      rcases hh with rfl | ⟨txin, hmem, rfl⟩
      · decide
      · rw [List.mem_singleton.mp hmem]
        decide
    unfold strayTip
    rw [Cache.flat_setCoins]
    exact (put_coins_ne _ _ hne).symm
  have hmissing : Missing spendHash spendTx .empty flushedTip.flat ↔
      Missing spendHash spendTx .empty strayTip.flat := by
    unfold Missing
    rw [hlooks _ (Or.inl rfl)]
    refine and_congr_right fun _ => exists_congr fun txin => and_congr_right fun hmem => ?_
    rw [hlooks _ (Or.inr ⟨txin, hmem, rfl⟩)]
  have hclear : Clear spendHash spendTx flushedTip.flat ↔ Clear spendHash spendTx strayTip.flat :=
    forall₂_congr fun h hh => by rw [hlooks h hh]
  have hreturns : (accept spendAround spendTx true false .empty flushedTip).1.returns = true := by
    decide
  have heq := ((accept_ignores_flush_iff spendAround spendTx true false .empty flushedTip strayTip
    hsame).mpr (Or.inr (Or.inr (Or.inr ⟨hmissing, fun _ => hclear⟩)))).1
  exact ⟨hreturns, heq.symm.trans hreturns⟩

end Examples

end UmbrellaLtc.MemPool
