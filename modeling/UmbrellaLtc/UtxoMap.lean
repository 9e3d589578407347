import UmbrellaLtc.MoneySupply

/-!
The abstract map of unspent outputs that a stack of caches over the database
stands for: a pruned entry counts as absent, and spent outputs at the end of an
entry do not count. ConnectBlock cannot tell two stacks with the same map and
best block apart, and Flush keeps both, up to the versions of the coins as their
records keep them.
-/

namespace UmbrellaLtc.UtxoMap

open Codec Transaction Coins CoinsView CheckBlock ConnectBlock FlatView Spending Prog

/-- What is left of one transaction. -/
@[ext] structure Utxo where
  fCoinBase : Bool
  nHeight : ℕ
  nVersion : BitVec 32
  output : ℕ → Option CTxOut

section Map

variable (ver : BitVec 32 → BitVec 32)

/-- The version of a coin is read through `ver`. -/
def utxoOf (c : CCoins) : Option Utxo :=
  if c.isPruned then none else some ⟨c.fCoinBase, c.nHeight, ver c.nVersion, c.output⟩

/-- The abstract map of a view. -/
def utxoMap (f : Flat) (txid : Uint256) : Option Utxo := (f.coins txid).bind (utxoOf ver)

/-- Two views that stand for the same map and have the same best block. -/
structure SameMap (f g : Flat) : Prop where
  coins : utxoMap ver f = utxoMap ver g
  best : f.best = g.best

theorem output_eq (c : CCoins) (n : ℕ) : c.output n = (utxoOf ver c).bind fun u => u.output n := by
  unfold utxoOf
  split_ifs with hpruned
  · exact (CCoins.isPruned_iff c).mp hpruned n
  · rfl

theorem unspent_eq (f : Flat) (o : COutPoint) :
    unspent f o = (utxoMap ver f o.hash).bind fun u => u.output o.n.toNat := by
  unfold unspent utxoMap
  rw [Option.bind_assoc]
  congr 1
  funext c
  exact output_eq ver c _

theorem utxoMap_put (f : Flat) (txid : Uint256) (c : CCoins) :
    utxoMap ver (put f txid c) = Function.update (utxoMap ver f) txid (utxoOf ver c) := by
  funext t
  unfold utxoMap
  by_cases ht : t = txid
  · subst ht
    rw [put_coins_self, Function.update_self]
    rfl
  · rw [put_coins_ne _ _ ht, Function.update_of_ne ht]

end Map

section Readers

variable {ver : BitVec 32 → BitVec 32} {f g : Flat}

theorem SameMap.unspent_eq (h : SameMap ver f g) (o : COutPoint) : unspent f o = unspent g o := by
  rw [UtxoMap.unspent_eq ver, UtxoMap.unspent_eq ver, h.coins]

theorem SameMap.put (h : SameMap ver f g) (txid : Uint256) {c d : CCoins}
    (hcd : utxoOf ver c = utxoOf ver d) : SameMap ver (put f txid c) (put g txid d) :=
  ⟨by rw [utxoMap_put, utxoMap_put, h.coins, hcd], h.best⟩

theorem getCoins_run {txid : Uint256} {c : CCoins} (hc : f.coins txid = some c) :
    (getCoins txid).run f = (.ok c, f) := by
  have hfetch : (fetchCoins txid).run f = (.ok (f.coins txid), f) := rfl
  unfold getCoins
  rw [run_bind_ok hfetch, hc]
  rfl

theorem getCoins_run_none {txid : Uint256} (hc : f.coins txid = none) :
    (getCoins txid).run f = (.error .assertion, f) := by
  have hfetch : (fetchCoins txid).run f = (.ok (f.coins txid), f) := rfl
  unfold getCoins
  rw [run_bind_ok hfetch, hc]
  rfl

/-- BIP30 asks only whether something is left of the transaction. -/
theorem notOverwritten_run (ver : BitVec 32 → BitVec 32) (txid : Uint256) (f : Flat) :
    (notOverwritten txid).run f = (.ok (utxoMap ver f txid).isNone, f) := by
  have hhave : (haveCoins txid).run f = (.ok (f.coins txid).isSome, f) := rfl
  unfold notOverwritten utxoMap
  rw [run_bind_ok hhave]
  cases hc : f.coins txid with
  | none => rfl
  | some c =>
    rw [Option.isSome_some, if_pos rfl, run_bind_ok (getCoins_run hc), Option.bind_some]
    unfold utxoOf
    cases hpruned : c.isPruned with
    | false => rfl
    | true => rfl

theorem allM_run {p : CTxIn → Prog Flat Failure Bool} {q : CTxIn → Bool} (l : List CTxIn)
    (hp : ∀ a ∈ l, (p a).run f = (.ok (q a), f)) : (l.allM p).run f = (.ok (l.all q), f) := by
  induction l with
  | nil => rfl
  | cons a rest ih =>
    have hrest := ih fun b hb => hp b (List.mem_cons_of_mem a hb)
    unfold List.allM
    rw [run_bind_ok (hp a List.mem_cons_self), List.all_cons]
    cases q a with
    | false => rfl
    | true => exact hrest

/-- HaveInputs asks only whether the inputs are unspent outputs. -/
theorem haveInputs_run (tx : CTransaction) (f : Flat) :
    (haveInputs tx).run f =
      (.ok (tx.isCoinBase || tx.vin.all fun txin => (unspent f txin.prevout).isSome), f) := by
  unfold haveInputs
  by_cases hcb : tx.isCoinBase = true
  · rw [if_pos hcb, hcb]
    rfl
  · simp only [Bool.not_eq_true] at hcb
    rw [hcb, if_neg Bool.false_ne_true, Bool.false_or]
    have hknown : (tx.vin.allM fun txin => haveCoins txin.prevout.hash).run f =
        (.ok (tx.vin.all fun txin => (f.coins txin.prevout.hash).isSome), f) :=
      allM_run tx.vin fun _ _ => rfl
    rw [run_bind_ok hknown]
    by_cases hall : (tx.vin.all fun txin => (f.coins txin.prevout.hash).isSome) = true
    · rw [if_pos hall]
      refine allM_run tx.vin fun txin hmem => ?_
      obtain ⟨c, hc⟩ := Option.isSome_iff_exists.mp (List.all_eq_true.mp hall txin hmem)
      have hout : (unspent f txin.prevout).isSome = c.isAvailable txin.prevout.n.toNat := by
        unfold unspent
        rw [hc, Option.bind_some, Bool.eq_iff_iff, CCoins.isAvailable_iff,
          Option.isSome_iff_exists]
      unfold availableInput
      rw [run_bind_ok (getCoins_run hc), hout]
      rfl
    · rw [if_neg hall]
      -- an input without an entry is no unspent output
      have hnone : (tx.vin.all fun txin => (unspent f txin.prevout).isSome) = false := by
        rw [Bool.not_eq_true, List.all_eq_false] at hall
        obtain ⟨txin, hmem, hmissing⟩ := hall
        rw [List.all_eq_false]
        refine ⟨txin, hmem, ?_⟩
        rw [Bool.not_eq_true, Option.isSome_eq_false_iff, Option.isNone_iff_eq_none] at hmissing
        unfold unspent
        rw [hmissing]
        exact Bool.false_ne_true
      rw [hnone]
      rfl

theorem getOutputFor_run (txin : CTxIn) (f : Flat) :
    (getOutputFor txin).run f = ((unspent f txin.prevout).elim (.error .assertion) .ok, f) := by
  unfold unspent getOutputFor
  cases hc : f.coins txin.prevout.hash with
  | none =>
    rw [run_bind_error (getCoins_run_none hc)]
    rfl
  | some c =>
    rw [run_bind_ok (getCoins_run hc), Option.bind_some]
    cases c.output txin.prevout.n.toNat with
    | none => rfl
    | some out => rfl

theorem sim_notOverwritten (txid : Uint256) :
    Sim (SameMap ver) (notOverwritten txid) (notOverwritten txid) := by
  intro f g h
  rw [notOverwritten_run ver, notOverwritten_run ver, h.coins]
  exact ⟨rfl, h⟩

end Readers

/-- Two views that agree on what the inputs of a transaction spend from. -/
structure SameFor (ver : BitVec 32 → BitVec 32) (tx : CTransaction) (f g : Flat) : Prop where
  coins : ∀ txin ∈ tx.vin, utxoMap ver f txin.prevout.hash = utxoMap ver g txin.prevout.hash
  best : f.best = g.best

theorem SameMap.sameFor {ver : BitVec 32 → BitVec 32} {f g : Flat} (h : SameMap ver f g)
    (tx : CTransaction) : SameFor ver tx f g := ⟨fun _ _ => congrFun h.coins _, h.best⟩

theorem SameFor.unspent_eq {ver : BitVec 32 → BitVec 32} {tx : CTransaction} {f g : Flat}
    (h : SameFor ver tx f g) {txin : CTxIn} (hmem : txin ∈ tx.vin) :
    unspent f txin.prevout = unspent g txin.prevout := by
  rw [UtxoMap.unspent_eq ver, UtxoMap.unspent_eq ver, h.coins txin hmem]

/-- Behind HaveInputs: related views, with every input an unspent output. -/
structure Ready (R : Flat → Flat → Prop) (tx : CTransaction) (f g : Flat) : Prop where
  same : R f g
  available : ∀ txin ∈ tx.vin, (unspent f txin.prevout).isSome = true

/-- What the checks of an input read of its coins. -/
structure SameAt (n : ℕ) (c d : CCoins) : Prop where
  fCoinBase : c.fCoinBase = d.fCoinBase
  nHeight : c.nHeight = d.nHeight
  vout : c.vout[n]? = d.vout[n]?

section Inputs

/- The checks of a transaction's inputs read the view and leave it, so that they keep
any relation under which the inputs spend from the same. -/
variable {ver : BitVec 32 → BitVec 32} {tx : CTransaction} {R : Flat → Flat → Prop}
  (hR : ∀ f g, R f g → SameFor ver tx f g)

include hR

theorem sim_haveInputs : Sim R (haveInputs tx) (haveInputs tx) := by
  intro f g h
  have hall : (tx.vin.all fun txin => (unspent f txin.prevout).isSome) =
      tx.vin.all fun txin => (unspent g txin.prevout).isSome := by
    rw [Bool.eq_iff_iff, List.all_eq_true, List.all_eq_true]
    refine forall₂_congr fun txin hmem => ?_
    rw [(hR f g h).unspent_eq hmem]
  rw [haveInputs_run, haveInputs_run, hall]
  exact ⟨rfl, h⟩

theorem sim_getOutputFor {txin : CTxIn} (hmem : txin ∈ tx.vin) :
    Sim R (getOutputFor txin) (getOutputFor txin) := by
  intro f g h
  rw [getOutputFor_run, getOutputFor_run, (hR f g h).unspent_eq hmem]
  exact ⟨rfl, h⟩

theorem sim_getValueIn : Sim R (getValueIn tx) (getValueIn tx) := by
  refine sim_ite (fun _ => sim_pure 0) fun _ => sim_foldlM_mem tx.vin (fun txin hmem n => ?_) 0
  exact sim_bind (sim_getOutputFor hR hmem) fun txout => sim_lift _

theorem sim_getP2SHSigOpCount : Sim R (getP2SHSigOpCount tx) (getP2SHSigOpCount tx) := by
  refine sim_ite (fun _ => sim_pure 0) fun _ => sim_foldlM_mem tx.vin (fun txin hmem n => ?_) 0
  exact sim_bind (sim_getOutputFor hR hmem) fun prevout => sim_pure _

theorem sim_getCoins {txin : CTxIn} (hmem : txin ∈ tx.vin) :
    SimUpTo (Ready R tx) (SameAt txin.prevout.n.toNat) (getCoins txin.prevout.hash)
      (getCoins txin.prevout.hash) := by
  intro f g h
  have hsame := hR f g h.same
  obtain ⟨out, hf⟩ := Option.isSome_iff_exists.mp (h.available txin hmem)
  have hg := hf
  rw [hsame.unspent_eq hmem] at hg
  obtain ⟨c, hc, hcout⟩ := (unspent_eq_some_iff f _ out).mp hf
  obtain ⟨d, hd, hdout⟩ := (unspent_eq_some_iff g _ out).mp hg
  have hutxo := hsame.coins txin hmem
  unfold utxoMap utxoOf at hutxo
  rw [hc, hd, Option.bind_some, Option.bind_some, CCoins.not_isPruned_of_output hcout,
    CCoins.not_isPruned_of_output hdout] at hutxo
  simp only [Bool.false_eq_true, if_false, Option.some.injEq, Utxo.mk.injEq] at hutxo
  rw [getCoins_run hc, getCoins_run hd]
  refine ⟨.ok ⟨hutxo.1, hutxo.2.1, ?_⟩, h⟩
  rw [((CCoins.output_eq_some_iff c _ out).mp hcout).1,
    ((CCoins.output_eq_some_iff d _ out).mp hdout).1]

/-- A program over the coins of an available input. -/
theorem sim_onInput {txin : CTxIn} {α : Type} (hmem : txin ∈ tx.vin)
    {x : CCoins → Prog Flat Failure α}
    (hx : ∀ c d, SameAt txin.prevout.n.toNat c d → Sim (Ready R tx) (x c) (x d)) :
    Sim (Ready R tx) (getCoins txin.prevout.hash >>= x) (getCoins txin.prevout.hash >>= x) :=
  (simUpTo_bind (sim_getCoins hR hmem) fun c d hcd => (hx c d hcd).upTo).sim

theorem sim_checkInputStep {txin : CTxIn} (hmem : txin ∈ tx.vin) (nSpendHeight : ℕ)
    (nValueIn : ℤ) :
    Sim (Ready R tx) (checkInputStep nSpendHeight nValueIn txin)
      (checkInputStep nSpendHeight nValueIn txin) := by
  refine sim_onInput hR hmem fun c d hcd => ?_
  rw [hcd.fCoinBase, hcd.nHeight, hcd.vout]
  refine sim_bind (sim_check _ _) fun _ => ?_
  split
  · exact sim_fail _
  · refine sim_bind (sim_lift _) fun n => ?_
    exact sim_bind (sim_check _ _) fun _ => sim_pure n

theorem sim_checkAmounts : Sim (Ready R tx) (checkAmounts tx) (checkAmounts tx) := by
  refine sim_bind ?_ fun best => ?_
  · intro f g h
    exact ⟨congrArg Except.ok (hR f g h.same).best, h⟩
  cases best with
  | none => exact sim_fail _
  | some best =>
    refine sim_bind (sim_foldlM_mem _ (fun txin hmem n => sim_checkInputStep hR hmem _ n) _)
      fun nIn => ?_
    refine sim_bind (sim_lift _) fun nOut => ?_
    refine sim_bind (sim_check _ _) fun _ => ?_
    refine sim_bind (sim_lift _) fun nTxFee => ?_
    exact sim_bind (sim_check _ _) fun _ => sim_check _ _

theorem sim_scriptChecks (env : Env) (fScriptChecks : Bool) (flags : BitVec 32) (fQueue : Bool) :
    Sim (Ready R tx) (scriptChecks env tx fScriptChecks flags fQueue)
      (scriptChecks env tx fScriptChecks flags fQueue) := by
  refine sim_ite (fun _ => sim_foldlM_mem _ (fun input hmem vChecks => ?_) _) fun _ => sim_pure []
  have hvin : input.1 ∈ tx.vin := List.fst_mem_of_mem_zipIdx hmem
  refine sim_onInput hR hvin fun c d hcd => ?_
  rw [hcd.vout]
  split
  · exact sim_fail _
  · refine sim_ite (fun _ => sim_pure _) fun _ => ?_
    refine sim_ite (fun _ => sim_pure _) fun _ => ?_
    exact sim_ite (fun _ => sim_fail _) fun _ => sim_fail _

theorem sim_checkInputs (env : Env) (fScriptChecks : Bool) (flags : BitVec 32) (fQueue : Bool) :
    Sim R (checkInputs env tx fScriptChecks flags fQueue)
      (checkInputs env tx fScriptChecks flags fQueue) := by
  refine sim_ite (fun _ => sim_pure []) fun hcb => ?_
  intro f g h
  simp only [Bool.not_eq_true] at hcb
  have hval := (sim_haveInputs hR f g h).1
  rw [haveInputs_run tx f, haveInputs_run tx g, hcb, Bool.false_or, Bool.false_or] at hval
  rw [run_bind_ok (haveInputs_run tx f), run_bind_ok (haveInputs_run tx g), hcb, Bool.false_or,
    Bool.false_or, ← Except.ok.inj hval]
  by_cases hall : (tx.vin.all fun txin => (unspent f txin.prevout).isSome) = true
  · have hready : Ready R tx f g := ⟨h, List.all_eq_true.mp hall⟩
    refine Sim.weaken ?_ hready fun _ _ h' => h'.same
    refine sim_bind (sim_check _ _) fun _ => ?_
    exact sim_bind (sim_checkAmounts hR) fun _ => sim_scriptChecks hR env _ _ _
  · simp only [Bool.not_eq_true] at hall
    rw [hall]
    exact ⟨rfl, h⟩

end Inputs

section Updates

variable {ver : BitVec 32 → BitVec 32}

/-- An undo record with its version read through `ver`. -/
def undoOf (ver : BitVec 32 → BitVec 32) (undo : CTxInUndo) : CTxInUndo :=
  { undo with nVersion := ver undo.nVersion }

def txUndoOf (ver : BitVec 32 → BitVec 32) (undo : CTxUndo) : CTxUndo :=
  ⟨undo.vprevout.map (undoOf ver)⟩

def blockUndoOf (ver : BitVec 32 → BitVec 32) (undo : CBlockUndo) : CBlockUndo :=
  ⟨undo.vtxundo.map (txUndoOf ver)⟩

theorem spend_undo {c c' : CCoins} {n : ℕ} {undo : CTxInUndo} (h : c.spend n = some (undo, c')) :
    undo = if c'.isPruned then ⟨undo.txout, c.fCoinBase, c.nHeight, c.nVersion⟩
      else ⟨undo.txout, false, 0, 0⟩ := by
  have hspec := CCoins.spend_spec h
  unfold CCoins.spend at h
  cases hget : c.vout[n]? with
  | none => simp [hget] at h
  | some out =>
    rw [hget] at h
    dsimp only at h
    split_ifs at h with hnull hlen
    all_goals
      simp only [Option.some.injEq, Prod.mk.injEq] at h
      obtain ⟨rfl, rfl⟩ := h
    · rw [if_pos (hspec.trimmed.isPruned_iff.mpr (List.length_eq_zero_iff.mp hlen))]
      rfl
    · rw [if_neg]
      intro hpruned
      exact hlen (List.length_eq_zero_iff.mpr (hspec.trimmed.isPruned_iff.mp hpruned))

/-- Coins of which the same is left, after the same output is spent. -/
theorem utxoOf_spend {c d c' d' : CCoins} {n : ℕ} {undo undo' : CTxInUndo}
    (hcd : utxoOf ver c = utxoOf ver d) (hc : c.spend n = some (undo, c'))
    (hd : d.spend n = some (undo', d')) :
    utxoOf ver c' = utxoOf ver d' ∧ undoOf ver undo = undoOf ver undo' := by
  have hcs := CCoins.spend_spec hc
  have hds := CCoins.spend_spec hd
  have hlive := hcd
  unfold utxoOf at hlive
  rw [CCoins.not_isPruned_of_output hcs.output_self,
    CCoins.not_isPruned_of_output hds.output_self] at hlive
  simp only [Bool.false_eq_true, if_false, Option.some.injEq, Utxo.mk.injEq] at hlive
  obtain ⟨hbase, hheight, hver, hout⟩ := hlive
  have htxout : undo.txout = undo'.txout := by
    have hself := hcs.output_self
    rw [hout, hds.output_self] at hself
    exact (Option.some.inj hself).symm
  have houtputs : c'.output = d'.output := by
    funext m
    by_cases hm : m = n
    · rw [hm, hcs.output_spent, hds.output_spent]
    · rw [hcs.output_other m hm, hds.output_other m hm, hout]
  have hpruned : c'.isPruned = d'.isPruned := by
    rw [Bool.eq_iff_iff, CCoins.isPruned_iff, CCoins.isPruned_iff, houtputs]
  refine ⟨?_, ?_⟩
  · unfold utxoOf
    rw [hpruned, hcs.fCoinBase, hds.fCoinBase, hcs.nHeight, hds.nHeight, hcs.nVersion,
      hds.nVersion, houtputs, hbase, hheight, hver]
  · rw [spend_undo hc, spend_undo hd, hpruned, htxout, hbase, hheight]
    unfold undoOf
    split_ifs
    · simp only [hver]
    · rfl

theorem sim_spendStep {vprevout vprevout' : List CTxInUndo} (txin : CTxIn)
    (hv : vprevout.map (undoOf ver) = vprevout'.map (undoOf ver)) :
    SimUpTo (SameMap ver) (fun v v' => v.map (undoOf ver) = v'.map (undoOf ver))
      (spendStep vprevout txin) (spendStep vprevout' txin) := by
  intro f g h
  have hsame := h.unspent_eq txin.prevout
  have hfails : ∀ (v : List CTxInUndo) (f : Flat), unspent f txin.prevout = none →
      (spendStep v txin).run f = (.error .assertion, f) := by
    intro v f hnone
    unfold spendStep
    cases hc : f.coins txin.prevout.hash with
    | none => exact run_bind_error (getCoins_run_none hc)
    | some c =>
      rw [run_bind_ok (getCoins_run hc)]
      cases hspend : c.spend txin.prevout.n.toNat with
      | none => rfl
      | some p =>
        have hself := (CCoins.spend_spec hspend).output_self
        unfold unspent at hnone
        rw [hc, Option.bind_some, hself] at hnone
        cases hnone
  have hworks : ∀ (v : List CTxInUndo) (f : Flat) (c c' : CCoins) (undo : CTxInUndo),
      f.coins txin.prevout.hash = some c → c.spend txin.prevout.n.toNat = some (undo, c') →
      (spendStep v txin).run f = (.ok (v ++ [undo]), put f txin.prevout.hash c') := by
    intro v f c c' undo hc hspend
    unfold spendStep
    rw [run_bind_ok (getCoins_run hc), hspend]
    rfl
  cases hout : unspent f txin.prevout with
  | none =>
    rw [hfails _ f hout, hfails _ g (hsame ▸ hout)]
    exact ⟨.error _, h⟩
  | some out =>
    obtain ⟨c, hc, hcout⟩ := (unspent_eq_some_iff f _ out).mp hout
    obtain ⟨d, hd, hdout⟩ := (unspent_eq_some_iff g _ out).mp (hsame ▸ hout)
    obtain ⟨undo, c', hspend⟩ := CCoins.spend_isSome ((CCoins.isAvailable_iff c _).mpr ⟨out, hcout⟩)
    obtain ⟨undo', d', hspend'⟩ :=
      CCoins.spend_isSome ((CCoins.isAvailable_iff d _).mpr ⟨out, hdout⟩)
    have hcd : utxoOf ver c = utxoOf ver d := by
      have hutxo := congrFun h.coins txin.prevout.hash
      unfold utxoMap at hutxo
      rwa [hc, hd, Option.bind_some, Option.bind_some] at hutxo
    obtain ⟨hleft, hundo⟩ := utxoOf_spend hcd hspend hspend'
    rw [hworks _ f c c' undo hc hspend, hworks _ g d d' undo' hd hspend']
    refine ⟨.ok ?_, h.put _ hleft⟩
    rw [List.map_append, List.map_append, hv, List.map_singleton, List.map_singleton, hundo]

theorem sim_updateCoins (tx : CTransaction) (nHeight : ℕ) (txhash : Uint256) :
    SimUpTo (SameMap ver) (fun u u' => txUndoOf ver u = txUndoOf ver u')
      (updateCoins tx nHeight txhash) (updateCoins tx nHeight txhash) := by
  have hspend : SimUpTo (SameMap ver) (fun v v' => v.map (undoOf ver) = v'.map (undoOf ver))
      (spendInputs tx) (spendInputs tx) :=
    simUpTo_ite (fun _ => simUpTo_pure rfl) fun _ =>
      simUpTo_foldlM (fun v v' txin hv => sim_spendStep txin hv) _ rfl
  refine simUpTo_bind hspend fun v v' hv => ?_
  have hset : Sim (SameMap ver) (setCoins txhash (CCoins.ofTx tx nHeight))
      (setCoins txhash (CCoins.ofTx tx nHeight)) := fun f g h => ⟨rfl, h.put txhash rfl⟩
  refine hset.bind_upTo fun _ => simUpTo_pure ?_
  unfold txUndoOf
  rw [hv]

/-- Running sums that differ in versions of undo records only. -/
structure SameTally (ver : BitVec 32 → BitVec 32) (t t' : Tally) : Prop where
  nFees : t.nFees = t'.nFees
  nSigOps : t.nSigOps = t'.nSigOps
  vChecks : t.vChecks = t'.vChecks
  vtxundo : t.vtxundo.map (txUndoOf ver) = t'.vtxundo.map (txUndoOf ver)

theorem sim_tallyInputs (env : Env) (pars : ConnectPars) {t t' : Tally} (ht : SameTally ver t t')
    (tx : CTransaction) :
    SimUpTo (SameMap ver) (SameTally ver) (tallyInputs env pars t tx)
      (tallyInputs env pars t' tx) := by
  have hR : ∀ f g, SameMap ver f g → SameFor ver tx f g := fun _ _ h => h.sameFor tx
  refine (sim_haveInputs hR).bind_upTo fun available => ?_
  refine (sim_check _ _).bind_upTo fun _ => ?_
  rw [ht.nSigOps, ht.nFees]
  refine Sim.bind_upTo ?_ fun nSigOps => ?_
  · refine sim_ite (fun _ => ?_) fun _ => sim_pure _
    refine sim_bind (sim_getP2SHSigOpCount hR) fun n => ?_
    exact sim_bind (sim_check _ _) fun _ => sim_pure _
  refine (sim_getValueIn hR).bind_upTo fun nValueIn => ?_
  refine (sim_lift _).bind_upTo fun nValueOut => ?_
  refine (sim_lift _).bind_upTo fun nTxFee => ?_
  refine (sim_lift _).bind_upTo fun nFees => ?_
  refine (sim_checkInputs hR env _ _ _).bind_upTo fun vChecks => ?_
  exact simUpTo_pure ⟨rfl, rfl, by rw [ht.vChecks], ht.vtxundo⟩

theorem sim_connectTx (env : Env) (pars : ConnectPars) {t t' : Tally} (tx : CTransaction)
    (ht : SameTally ver t t') :
    SimUpTo (SameMap ver) (SameTally ver) (connectTx env pars t tx) (connectTx env pars t' tx) := by
  unfold connectTx
  dsimp only
  rw [ht.nSigOps]
  refine (sim_check _ _).bind_upTo fun _ => ?_
  refine simUpTo_ite (fun _ => ?_) fun _ => ?_
  · refine simUpTo_bind (sim_updateCoins tx _ _) fun _ _ _ => ?_
    exact simUpTo_pure ⟨ht.nFees, rfl, ht.vChecks, ht.vtxundo⟩
  · have hnext : SameTally ver { t with nSigOps := t'.nSigOps + Script.getLegacySigOpCount tx }
        { t' with nSigOps := t'.nSigOps + Script.getLegacySigOpCount tx } :=
      ⟨ht.nFees, rfl, ht.vChecks, ht.vtxundo⟩
    refine simUpTo_bind (sim_tallyInputs env pars hnext tx) ?_
    intro u u' hu
    refine simUpTo_bind (sim_updateCoins tx _ _) fun undo undo' hundo => ?_
    refine simUpTo_pure ⟨hu.nFees, hu.nSigOps, hu.vChecks, ?_⟩
    rw [List.map_append, List.map_append, hu.vtxundo, List.map_singleton, List.map_singleton, hundo]

theorem sim_connectTxs (env : Env) (pars : ConnectPars) (vtx : List CTransaction) :
    SimUpTo (SameMap ver) (fun u u' => blockUndoOf ver u = blockUndoOf ver u')
      (connectTxs env pars vtx) (connectTxs env pars vtx) := by
  have hbip30 : Sim (SameMap ver) (enforceBIP30 env vtx) (enforceBIP30 env vtx) :=
    sim_foldlM (fun _ tx => sim_bind (sim_notOverwritten _) fun fine => sim_check _ _) _ _
  refine hbip30.bind_upTo fun _ => ?_
  refine simUpTo_bind (simUpTo_foldlM (fun t t' tx ht => sim_connectTx env pars tx ht) _
    ⟨rfl, rfl, rfl, rfl⟩) fun t t' ht => ?_
  cases vtx with
  | nil => exact simUpTo_fail _
  | cons coinbase rest =>
    dsimp only
    rw [ht.nFees, ht.vChecks]
    refine (sim_lift _).bind_upTo fun nValueOut => ?_
    refine (sim_lift _).bind_upTo fun nLimit => ?_
    refine (sim_check _ _).bind_upTo fun _ => ?_
    refine (sim_check _ _).bind_upTo fun _ => ?_
    refine simUpTo_pure ?_
    unfold blockUndoOf
    rw [ht.vtxundo]

theorem sim_setBestBlock (pindex : BlockPtr) :
    Sim (SameMap ver) (setBestBlock pindex) (setBestBlock pindex) :=
  fun _ _ h => ⟨rfl, h.coins, rfl⟩

theorem sim_connectView (env : Env) (block : CBlock) (pindex : PIndex) (fJustCheck : Bool) :
    SimUpTo (SameMap ver) (fun u u' => u.map (blockUndoOf ver) = u'.map (blockUndoOf ver))
      (connectView env block pindex fJustCheck) (connectView env block pindex fJustCheck) := by
  refine (sim_lift _).bind_upTo fun _ => ?_
  have hbest : Sim (SameMap ver) getBestBlock getBestBlock :=
    fun _ _ h => ⟨congrArg Except.ok h.best, h⟩
  refine hbest.bind_upTo fun best => ?_
  refine (sim_check _ _).bind_upTo fun _ => ?_
  refine simUpTo_ite (fun _ => ?_) fun _ => ?_
  · exact (sim_setBestBlock _).bind_upTo fun _ => simUpTo_pure rfl
  · refine simUpTo_bind (sim_connectTxs env _ _) fun u u' hu => simUpTo_pure ?_
    exact congrArg some hu

end Updates

section Blocks

variable {ver : BitVec 32 → BitVec 32}

/-- Equal index data, up to the versions of undo records, over the same map. -/
structure SameCtx (ver : BitVec 32 → BitVec 32) (s s' : BlockCtx Flat) : Prop where
  view : SameMap ver s.view s'.view
  nStatus : s.nStatus = s'.nStatus
  undo : s.undo.map (blockUndoOf ver) = s'.undo.map (blockUndoOf ver)
  diskStatus : s.diskStatus = s'.diskStatus

theorem sim_onView {α α' : Type} {V : α → α' → Prop} {x : Prog Flat Failure α}
    {y : Prog Flat Failure α'} (h : SimUpTo (SameMap ver) V x y) :
    SimUpTo (SameCtx ver) V (onView x) (onView y) :=
  simUpTo_zoom h (fun _ _ hs => hs.view)
    (fun _ _ _ _ hs hv => ⟨hv, hs.nStatus, hs.undo, hs.diskStatus⟩)

theorem sim_writeUndo (io : BlockIo) (pprev : Option BlockPtr) {undo undo' : CBlockUndo}
    (hundo : blockUndoOf ver undo = blockUndoOf ver undo') :
    Sim (SameCtx ver) (writeUndo io pprev undo) (writeUndo io pprev undo') := by
  have hread : Sim (SameCtx ver) readStatus readStatus :=
    sim_act fun _ _ h => ⟨h.nStatus, h⟩
  refine sim_bind hread fun nStatus => ?_
  refine sim_ite (fun _ => ?_) fun _ => sim_pure ()
  refine sim_bind ?_ fun _ => ?_
  · refine sim_ite (fun _ => ?_) fun _ => sim_pure ()
    refine sim_bind (sim_check _ _) fun _ => ?_
    refine sim_bind (sim_check _ _) fun _ => ?_
    refine sim_bind (sim_check _ _) fun _ => ?_
    exact sim_act fun s s' h => ⟨rfl, h.view, by rw [h.nStatus], congrArg some hundo, h.diskStatus⟩
  refine sim_bind (sim_act fun s s' h => ?_) fun _ => ?_
  · exact ⟨rfl, h.view, by rw [h.nStatus], h.undo, h.diskStatus⟩
  refine sim_bind (sim_lift _) fun _ => ?_
  refine sim_bind (sim_check _ _) fun _ => ?_
  exact sim_act fun s s' h => ⟨rfl, h.view, h.nStatus, h.undo, h.nStatus⟩

theorem sim_connectBlock (env : Env) (io : BlockIo) (block : CBlock) (pindex : PIndex)
    (fJustCheck : Bool) :
    SimUpTo (SameCtx ver) (fun u u' => u.map (blockUndoOf ver) = u'.map (blockUndoOf ver))
      (connectBlock env io block pindex fJustCheck)
      (connectBlock env io block pindex fJustCheck) := by
  refine simUpTo_bind (sim_onView (sim_connectView env block pindex fJustCheck)) fun u u' hu => ?_
  cases u with
  | none =>
    cases u' with
    | none => exact simUpTo_pure rfl
    | some undo' => cases hu
  | some undo =>
    cases u' with
    | none => cases hu
    | some undo' =>
      refine simUpTo_ite (fun _ => simUpTo_pure hu) fun _ => ?_
      refine (sim_writeUndo io _ (Option.some.inj hu)).bind_upTo fun _ => ?_
      refine Sim.bind_upTo ?_ fun _ => ?_
      · refine sim_ite (fun _ => ?_) fun _ => sim_pure ()
        exact sim_bind (sim_lift _) fun _ => sim_check _ _
      refine simUpTo_bind (sim_onView (sim_setBestBlock _).upTo) fun _ _ _ => ?_
      exact simUpTo_pure hu

/-- ConnectBlock on two stacks that stand for one map. -/
theorem connectBlock_sameMap {β β' : Type} [LawfulBase β] [LawfulBase β'] (env : Env)
    (io : BlockIo) (block : CBlock) (pindex : PIndex) (fJustCheck : Bool)
    (s : BlockCtx (Cache β)) (s' : BlockCtx (Cache β')) (h : SameCtx ver (flatCtx s) (flatCtx s')) :
    Agree (fun u u' => u.map (blockUndoOf ver) = u'.map (blockUndoOf ver))
        ((connectBlock env io block pindex fJustCheck).run s).1
        ((connectBlock env io block pindex fJustCheck).run s').1 ∧
      SameCtx ver (flatCtx ((connectBlock env io block pindex fJustCheck).run s).2)
        (flatCtx ((connectBlock env io block pindex fJustCheck).run s').2) := by
  have hsim := sim_connectBlock env io block pindex fJustCheck _ _ h
  rw [(connectBlock_flat env io block pindex fJustCheck s).1,
    (connectBlock_flat env io block pindex fJustCheck s').1] at hsim
  exact hsim

theorem undoOf_id (undo : CBlockUndo) : blockUndoOf id undo = undo := by
  have hin : ∀ u : CTxInUndo, undoOf id u = u := fun _ => rfl
  have htx : ∀ u : CTxUndo, txUndoOf id u = u := by
    intro u
    unfold txUndoOf
    rw [List.map_congr_left fun a _ => hin a, List.map_id']
  unfold blockUndoOf
  rw [List.map_congr_left fun a _ => htx a, List.map_id']

end Blocks

section Flushing

/-- A batch entered one by one: what the last entry of a key says counts. -/
theorem lookup_foldl (step : CoinsMap → Uint256 → CCoins → CoinsMap) (val : CCoins → Option CCoins)
    (hself : ∀ m t c, (step m t c).lookup t = val c)
    (hother : ∀ m t c t', t' ≠ t → (step m t c).lookup t' = m.lookup t')
    (l : List (Sigma fun _ : Uint256 => CCoins)) (hnodup : l.NodupKeys) (m : CoinsMap)
    (t : Uint256) :
    (l.foldl (fun m e => step m e.1 e.2) m).lookup t = (l.dlookup t).elim (m.lookup t) val := by
  induction l generalizing m with
  | nil => rfl
  | cons e rest ih =>
    rw [List.nodupKeys_cons] at hnodup
    rw [List.foldl_cons, ih hnodup.2]
    by_cases ht : t = e.1
    · subst ht
      rw [List.dlookup_cons_eq, List.dlookup_eq_none.mpr hnodup.1]
      exact hself m e.1 e.2
    · rw [List.dlookup_cons_ne _ _ ht, hother m e.1 e.2 t ht]

/-- A base that takes a batch: its entries are seen afterwards, their versions as
`ver` lets them be seen, and the others are kept. The best block of the batch
becomes the base's. -/
class LawfulStore (β : Type) extends LawfulBase β where
  refused : ∀ fWrite m p b, (batchWrite fWrite m p b).1 = false →
    flat (batchWrite fWrite m p b).2 = flat b
  coins : ∀ (ver : BitVec 32 → BitVec 32) fWrite m p b, (batchWrite fWrite m p b).1 = true →
    (∀ t c, m.lookup t = some c → ver (CoinsDb.storedVersion c.nVersion) = ver c.nVersion) →
    ∀ t, utxoMap ver (flat (batchWrite fWrite m p b).2) t =
      (m.lookup t).elim (utxoMap ver (flat b) t) (utxoOf ver)
  best : ∀ fWrite m p b, (batchWrite fWrite m p b).1 = true → (p = none → (flat b).best = none) →
    (flat (batchWrite fWrite m p b).2).best = p

theorem utxoOf_record {ver : BitVec 32 → BitVec 32} {c : CCoins}
    (hver : ver (CoinsDb.storedVersion c.nVersion) = ver c.nVersion) :
    utxoOf ver (CoinsDb.record c) = utxoOf ver c := by
  have houtput : (CoinsDb.record c).output = c.output := funext fun n => CCoins.output_cleanup c n
  have hpruned : (CoinsDb.record c).isPruned = c.isPruned := by
    rw [Bool.eq_iff_iff, CCoins.isPruned_iff, CCoins.isPruned_iff, houtput]
  unfold utxoOf
  rw [hpruned, houtput]
  split_ifs
  · rfl
  · show some _ = some _
    rw [← hver]
    rfl

instance : LawfulStore CoinsDb where
  refused fWrite m p db h := by
    cases fWrite with
    | false => rfl
    | true => cases h
  coins ver fWrite m p db h hver t := by
    cases fWrite with
    | false => cases h
    | true =>
      have hlookup := lookup_foldl CoinsDb.writeCoins
        (fun c => if c.isPruned then none else some (CoinsDb.record c))
        (fun m t c => by
          unfold CoinsDb.writeCoins
          split_ifs
          · exact AList.lookup_erase t m
          · exact AList.lookup_insert m)
        (fun m t c t' ht => by
          unfold CoinsDb.writeCoins
          split_ifs
          · exact AList.lookup_erase_ne ht
          · exact AList.lookup_insert_ne ht)
        m.entries m.nodupKeys db.coins t
      show (AList.lookup t (m.entries.foldl (fun m e => CoinsDb.writeCoins m e.1 e.2)
        db.coins)).bind (utxoOf ver) = _
      rw [hlookup]
      show ((m.lookup t).elim (db.coins.lookup t) _).bind (utxoOf ver) = _
      cases hm : m.lookup t with
      | none => rfl
      | some c =>
        dsimp only [Option.elim_some]
        by_cases hpruned : c.isPruned = true
        · rw [if_pos hpruned]
          unfold utxoOf
          rw [if_pos hpruned]
          rfl
        · rw [if_neg hpruned]
          exact utxoOf_record (hver t c hm)
  best fWrite m p db h hp := by
    cases fWrite with
    | false => cases h
    | true =>
      cases p with
      | none => exact hp rfl
      | some p => rfl

instance {β : Type} [LawfulStore β] : LawfulStore (Cache β) where
  refused fWrite m p k h := by cases h
  coins ver fWrite m p k h _ t := by
    have hlookup := lookup_foldl (fun m t c => m.insert t c) some
      (fun m t c => AList.lookup_insert m) (fun m t c t' ht => AList.lookup_insert_ne ht)
      m.entries m.nodupKeys k.cacheCoins t
    show ((AList.lookup t (m.entries.foldl (fun m e => m.insert e.1 e.2) k.cacheCoins)).orElse
      fun _ => (LawfulBase.flat k.base).coins t).bind (utxoOf ver) = _
    rw [hlookup]
    show (((m.lookup t).elim (k.cacheCoins.lookup t) some).orElse
      fun _ => (LawfulBase.flat k.base).coins t).bind (utxoOf ver) = _
    cases m.lookup t with
    | none => rfl
    | some c => rfl
  best fWrite m p k h hp := by
    cases p with
    | none =>
      have hbest : k.pindexTip.orElse (fun _ => (LawfulBase.flat k.base).best) = none := hp rfl
      show (none : Option BlockPtr).orElse (fun _ => (LawfulBase.flat k.base).best) = none
      cases htip : k.pindexTip with
      | none =>
        rw [htip] at hbest
        exact hbest
      | some p =>
        rw [htip] at hbest
        cases hbest
    | some p => rfl

/-- A view on which GetBestBlock or SetBestBlock has been called, also by a flush into
it that brought a best block. -/
inductive TipRead {β : Type} [CoinsBase β] : Cache β → Prop
  | getBestBlock (k : Cache β) : TipRead k.getBestBlock.2
  | setBestBlock (pindex : BlockPtr) (k : Cache β) : TipRead (k.setBestBlock pindex)
  | batchWrite (m : CoinsMap) (pindex : BlockPtr) (k : Cache β) :
      TipRead (k.batchWrite m (some pindex)).2
  | fetchCoins (txid : Uint256) {k : Cache β} (h : TipRead k) : TipRead (k.fetchCoins txid).2
  | setCoins (txid : Uint256) (c : CCoins) {k : Cache β} (h : TipRead k) :
      TipRead (k.setCoins txid c)
  | flush (fWrite : Bool) {k : Cache β} (h : TipRead k) : TipRead (k.flush fWrite).2

variable {β : Type} [LawfulStore β]

/-- The cached tip is unknown only when there is none below. -/
def TipKnown (k : Cache β) : Prop := k.pindexTip = none → (LawfulBase.flat k.base).best = none

theorem flush_best (fWrite : Bool) (k : Cache β) (htip : TipKnown k) :
    (k.flush fWrite).2.flat.best = k.flat.best := by
  have hrefused := LawfulStore.refused fWrite k.cacheCoins k.pindexTip k.base
  have hbest := LawfulStore.best fWrite k.cacheCoins k.pindexTip k.base
  unfold Cache.flush
  rcases hwrite : CoinsBase.batchWrite fWrite k.cacheCoins k.pindexTip k.base with ⟨ok, base⟩
  rw [hwrite] at hrefused hbest
  cases ok with
  | false =>
    show k.pindexTip.orElse (fun _ => (LawfulBase.flat base).best) = _
    rw [hrefused rfl]
    rfl
  | true =>
    show k.pindexTip.orElse (fun _ => (LawfulBase.flat base).best) = _
    rw [hbest rfl htip]
    show _ = k.pindexTip.orElse (fun _ => (LawfulBase.flat k.base).best)
    cases hnone : k.pindexTip with
    | none => exact (htip hnone).symm
    | some p => rfl

/-- Flush changes the map only where `ver` sees what a record loses. -/
theorem flush_coins {ver : BitVec 32 → BitVec 32} (fWrite : Bool) (k : Cache β)
    (hver : ∀ t c, k.cacheCoins.lookup t = some c →
      ver (CoinsDb.storedVersion c.nVersion) = ver c.nVersion) :
    utxoMap ver (k.flush fWrite).2.flat = utxoMap ver k.flat := by
  have hrefused := LawfulStore.refused fWrite k.cacheCoins k.pindexTip k.base
  have hcoins := LawfulStore.coins ver fWrite k.cacheCoins k.pindexTip k.base
  funext t
  unfold Cache.flush
  rcases hwrite : CoinsBase.batchWrite fWrite k.cacheCoins k.pindexTip k.base with ⟨ok, base⟩
  rw [hwrite] at hrefused hcoins
  cases ok with
  | false =>
    show ((k.cacheCoins.lookup t).orElse fun _ => (LawfulBase.flat base).coins t).bind
      (utxoOf ver) = _
    rw [hrefused rfl]
    rfl
  | true =>
    show utxoMap ver (LawfulBase.flat base) t = _
    rw [hcoins rfl hver t]
    show _ = ((k.cacheCoins.lookup t).orElse fun _ => (LawfulBase.flat k.base).coins t).bind
      (utxoOf ver)
    cases k.cacheCoins.lookup t with
    | none => rfl
    | some c => rfl

theorem TipRead.tipKnown {k : Cache β} (h : TipRead k) : TipKnown k := by
  induction h with
  | getBestBlock k =>
    intro hnone
    have hspec := k.getBestBlock_spec
    unfold Cache.getBestBlock at hnone hspec ⊢
    cases htip : k.pindexTip with
    | some p =>
      rw [htip] at hnone
      exact absurd (htip ▸ hnone) (by simp)
    | none =>
      rw [htip] at hnone hspec
      dsimp only at hnone hspec ⊢
      rw [hspec.2.2]
      have hbest := LawfulBase.getBestBlock_fst k.base
      exact hbest.symm.trans hnone
  | setBestBlock pindex k => exact fun hnone => absurd hnone (by simp [Cache.setBestBlock])
  | batchWrite m pindex k => exact fun hnone => absurd hnone (by simp [Cache.batchWrite])
  | @fetchCoins txid k _ ih =>
    intro hnone
    rw [(k.fetchCoins_spec txid).2.2]
    apply ih
    unfold Cache.fetchCoins at hnone
    cases hlookup : k.cacheCoins.lookup txid with
    | some c => rwa [hlookup] at hnone
    | none =>
      rw [hlookup] at hnone
      rcases hbase : CoinsBase.getCoins txid k.base with ⟨_ | c, base⟩
      · rwa [hbase] at hnone
      · rwa [hbase] at hnone
  | @setCoins txid c k _ ih => exact ih
  | @flush fWrite k _ ih =>
    intro hnone
    have hbest := flush_best fWrite k ih
    have htip : (k.flush fWrite).2.pindexTip = k.pindexTip := by
      unfold Cache.flush
      rcases CoinsBase.batchWrite fWrite k.cacheCoins k.pindexTip k.base with ⟨_ | _, base⟩
      · rfl
      · rfl
    rw [htip] at hnone
    unfold Cache.flat at hbest
    dsimp only at hbest
    rw [htip, hnone] at hbest
    exact hbest.trans (ih hnone)

theorem storedVersion_nonneg {nVersion : BitVec 32} (h : 0 ≤ nVersion.toInt) :
    CoinsDb.storedVersion nVersion = nVersion := by
  have hlt : nVersion.toInt < 2 ^ 31 := by
    have hbound := @BitVec.toInt_lt 32 nVersion
    simpa using hbound
  have hread := VarInt.readVarInt_writeVarInt 32 nVersion.toInt h (by norm_num; omega) []
  rw [List.append_nil] at hread
  unfold CoinsDb.storedVersion
  rw [hread]
  exact BitVec.ofInt_toInt

theorem storedVersion_idem (nVersion : BitVec 32) :
    CoinsDb.storedVersion (CoinsDb.storedVersion nVersion) = CoinsDb.storedVersion nVersion := by
  apply storedVersion_nonneg
  by_cases h : 0 ≤ nVersion.toInt
  · rw [storedVersion_nonneg h]
    exact h
  · have hread := VarInt.readVarInt_negative 32 nVersion.toInt (by omega) []
    rw [List.append_nil] at hread
    unfold CoinsDb.storedVersion
    rw [hread]
    show 0 ≤ (BitVec.ofInt 32 (nVersion.toInt % 128)).toInt
    rw [BitVec.toInt_ofInt_eq_self (by omega) (by omega) (by omega)]
    omega

end Flushing

section Examples

open MoneySupply

/-- A pruned entry under the id of the block's own transaction. -/
def prunedView : Cache CoinsDb :=
  genesisView.setCoins 0xb26bb784e352e5f310e5e04c2ed503653d0b71044885be30b7dce40371e39bdc .empty

def negativeTx : CTransaction := { premineTx with nVersion := BitVec.allOnes 32 }

def negativeTxid : Uint256 := 0x9147a374d50a2198af4e2cdd6b78f35341f52fa310fb316db6814691f2f0f6f7

/-- A view with the coins of a transaction of version -1. -/
def negativeView : Cache CoinsDb :=
  genesisView.getBestBlock.2.setCoins negativeTxid (.ofTx negativeTx 1)

end Examples

end UmbrellaLtc.UtxoMap
