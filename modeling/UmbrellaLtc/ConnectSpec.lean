import UmbrellaLtc.ConnectBlock
import UmbrellaLtc.Spending

/-!
What the functions of ConnectBlock do on a flat view, each by one rule. The
checks read the view and leave it as it is; UpdateCoins applies a transaction.
The fees are those of the transactions applied, and no sum overflows as long as
the supply and the fees are bounded.
-/

namespace UmbrellaLtc.ConnectSpec

open Codec Transaction Coins CoinsView CheckBlock ConnectBlock Prog Spending

/-- Failures that validation may end in: when the amounts are safe, not an overflow. -/
def Allowed (safe : Prop) (e : Failure) : Prop := safe → e ≠ .overflow

section Views

variable {f : Flat} {E : Failure → Prop}

theorem reads_getCoins (txid : Uint256) (hE : E .assertion) :
    Reads (getCoins txid : Prog Flat Failure _) f (fun c => f.coins txid = some c) E := by
  refine holds_bind (holds_act _ ?_)
  dsimp only [CoinsCache.fetchCoins]
  split
  · exact reads_pure _ (by assumption)
  · exact reads_fail _ hE

theorem reads_haveCoins (txid : Uint256) :
    Reads (haveCoins txid : Prog Flat Failure _) f
      (fun known => known = true ↔ ∃ c, f.coins txid = some c) E :=
  ⟨rfl, Option.isSome_iff_exists⟩

theorem reads_getBestBlock :
    Reads (getBestBlock : Prog Flat Failure _) f (fun best => best = f.best) E := ⟨rfl, rfl⟩

theorem holds_setCoins {Q : Unit → Flat → Prop} (txid : Uint256) (c : CCoins)
    (h : Q () (put f txid c)) : Holds (setCoins txid c : Prog Flat Failure _) f Q E := h

theorem reads_getOutputFor (txin : CTxIn) (hE : E .assertion) :
    Reads (getOutputFor txin : Prog Flat Failure _) f
      (fun out => unspent f txin.prevout = some out) E := by
  refine (reads_getCoins _ hE).bind fun c hc => ?_
  split
  · rename_i out hout
    exact reads_pure out ((unspent_eq_some_iff f _ out).mpr ⟨c, hc, hout⟩)
  · exact reads_fail _ hE

/-- HaveInputs says yes only when every input is an unspent output. -/
theorem reads_haveInputs (tx : CTransaction) (hE : E .assertion) :
    Reads (haveInputs tx : Prog Flat Failure _) f
      (fun b => b = true → ∀ o ∈ spentBy tx, ∃ out, unspent f o = some out) E := by
  unfold haveInputs spentBy
  split_ifs with hcb
  · exact reads_pure true fun _ o ho => absurd ho List.not_mem_nil
  · refine Reads.bind (reads_allM (fun txin => (reads_haveCoins _).mono fun _ _ _ => trivial)
      tx.vin) fun known _ => ?_
    split_ifs
    · have havail : ∀ txin : CTxIn, Reads (availableInput txin : Prog Flat Failure _) f
          (fun b => b = true → ∃ out, unspent f txin.prevout = some out) E := by
        intro txin
        refine (reads_getCoins _ hE).bind fun c hc => reads_pure _ fun hb => ?_
        obtain ⟨out, hout⟩ := (CCoins.isAvailable_iff c _).mp hb
        exact ⟨out, (unspent_eq_some_iff f _ out).mpr ⟨c, hc, hout⟩⟩
      refine (reads_allM havail tx.vin).mono fun b hb htrue o ho => ?_
      obtain ⟨txin, hmem, rfl⟩ := List.mem_map.mp ho
      exact hb htrue txin hmem
    · exact reads_pure false fun h => absurd h Bool.false_ne_true

end Views

/-- The value of the outputs that a transaction spends. -/
def valueIn (f : Flat) (tx : CTransaction) : ℤ := ((spentBy tx).map (valueAt f)).sum

/-- A sum over the inputs on its way to `total`. -/
structure Partial (f : Flat) (total : ℤ) (rest : List CTxIn) (n : ℤ) : Prop where
  sum : n + (rest.map fun txin => valueAt f txin.prevout).sum = total
  nonneg : NonnegOutputs f → 0 ≤ n

section Amounts

variable {f : Flat} {safe : Prop} {total : ℤ}

theorem reads_int64 (n : ℤ) (h : safe → -2 ^ 63 ≤ n ∧ n < 2 ^ 63) :
    Reads (lift (int64 n) : Prog Flat Failure _) f (fun m => m = n) (Allowed safe) := by
  refine reads_lift (fun m hm => (int64_eq hm).symm) fun e he hsafe => ?_
  rw [int64_ok n (h hsafe)] at he
  exact absurd he (by simp)

/-- One more input is added: the sum is still on its way, and has not overflowed when
the whole does not. -/
theorem Partial.step {rest : List CTxIn} {n : ℤ} {txin : CTxIn} {out : CTxOut}
    (h : Partial f total (txin :: rest) n) (hout : unspent f txin.prevout = some out)
    (hsafe : safe → NonnegOutputs f ∧ total < 2 ^ 63) :
    Reads (lift (int64 (n + out.value)) : Prog Flat Failure _) f
      (fun m => Partial f total rest m) (Allowed safe) := by
  have hvalue : valueAt f txin.prevout = out.value := by rw [valueAt, hout, Option.elim_some]
  have hsum := h.sum
  rw [List.map_cons, List.sum_cons, hvalue] at hsum
  refine (reads_int64 _ fun hs => ?_).mono ?_
  · obtain ⟨hnonneg, hbound⟩ := hsafe hs
    have hn := h.nonneg hnonneg
    have hv := hnonneg.valueAt_nonneg txin.prevout
    have hrest : 0 ≤ (rest.map fun txin => valueAt f txin.prevout).sum := by
      refine List.sum_nonneg fun v hv => ?_
      obtain ⟨i, -, rfl⟩ := List.mem_map.mp hv
      exact hnonneg.valueAt_nonneg i.prevout
    omega
  · rintro m rfl
    refine ⟨by omega, fun hnonneg => ?_⟩
    have hn := h.nonneg hnonneg
    have hv := hnonneg.valueAt_nonneg txin.prevout
    omega

theorem partial_zero (f : Flat) (tx : CTransaction) (hcb : tx.isCoinBase = false) :
    Partial f (valueIn f tx) tx.vin 0 := by
  refine ⟨?_, fun _ => le_refl 0⟩
  rw [valueIn, spentBy, hcb, zero_add]
  simp [Function.comp_def]

theorem partial_nil {n : ℤ} (h : Partial f total [] n) : n = total := by
  simpa using h.sum

/-- GetValueIn is the value of the outputs spent. -/
theorem reads_getValueIn (tx : CTransaction) (hcb : tx.isCoinBase = false)
    (hsafe : safe → NonnegOutputs f ∧ valueIn f tx < 2 ^ 63) :
    Reads (getValueIn tx : Prog Flat Failure _) f (fun n => n = valueIn f tx) (Allowed safe) := by
  unfold getValueIn
  rw [if_neg (by simp [hcb])]
  refine (reads_foldlM (Partial f (valueIn f tx)) (fun txin rest n h => ?_) tx.vin 0
    (partial_zero f tx hcb)).mono fun n hn => partial_nil hn
  exact (reads_getOutputFor txin (by simp [Allowed])).bind fun out hout => h.step hout hsafe

theorem reads_getValueOut (tx : CTransaction) (htx : TxOk tx) :
    Reads (lift (getValueOut tx) : Prog Flat Failure _) f (fun n => n = valueOut tx)
      (Allowed safe) := by
  rw [getValueOut_eq tx htx]
  exact ⟨rfl, rfl⟩

/-- One input of CheckInputs' loop; the output it looks at by index is the unspent one. -/
theorem reads_checkInputStep (nSpendHeight : ℕ) {n : ℤ} {txin : CTxIn} {rest : List CTxIn}
    {out : CTxOut} (h : Partial f total (txin :: rest) n)
    (hout : unspent f txin.prevout = some out)
    (hsafe : safe → NonnegOutputs f ∧ total < 2 ^ 63) :
    Reads (checkInputStep nSpendHeight n txin : Prog Flat Failure _) f
      (fun m => Partial f total rest m) (Allowed safe) := by
  obtain ⟨c, hc, hoc⟩ := (unspent_eq_some_iff f _ out).mp hout
  refine (reads_getCoins _ (by simp [Allowed])).bind fun coins hcoins => ?_
  obtain rfl : c = coins := Option.some.inj (hc.symm.trans hcoins)
  refine (reads_check (by simp [Allowed])).bind fun _ _ => ?_
  rw [((CCoins.output_eq_some_iff c _ out).mp hoc).1]
  refine (h.step hout hsafe).bind fun m hm => ?_
  exact (reads_check (by simp [Allowed])).bind fun _ _ => reads_pure m hm

/-- The amounts that CheckInputs lets through do not pay out more than they take in. -/
theorem reads_checkAmounts (tx : CTransaction) (hcb : tx.isCoinBase = false) (htx : TxOk tx)
    (havail : ∀ txin ∈ tx.vin, ∃ out, unspent f txin.prevout = some out)
    (hsafe : safe → NonnegOutputs f ∧ valueIn f tx < 2 ^ 62) :
    Reads (checkAmounts tx : Prog Flat Failure _) f (fun _ => valueOut tx ≤ valueIn f tx)
      (Allowed safe) := by
  have hmax := maxMoney_eq
  have hvalue := valueOut_nonneg tx htx
  have htotal := htx.total
  have hin : safe → NonnegOutputs f ∧ valueIn f tx < 2 ^ 63 := by
    intro hs
    exact ⟨(hsafe hs).1, lt_trans (hsafe hs).2 (by norm_num)⟩
  refine reads_getBestBlock.bind fun best _ => ?_
  cases best with
  | none => exact reads_fail _ (by simp [Allowed])
  | some best =>
    have hloop : Reads (tx.vin.foldlM (checkInputStep (best.nHeight + 1)) 0 : Prog Flat Failure _)
        f (fun n => n = valueIn f tx) (Allowed safe) := by
      refine (reads_foldlM (fun rest n => (∀ txin ∈ rest, ∃ out, unspent f txin.prevout = some out) ∧
        Partial f (valueIn f tx) rest n) ?_ tx.vin 0 ⟨havail, partial_zero f tx hcb⟩).mono
          fun n hn => partial_nil hn.2
      rintro txin rest n ⟨hav, hpart⟩
      obtain ⟨out, hout⟩ := hav txin List.mem_cons_self
      refine (reads_checkInputStep _ hpart hout hin).mono fun m hm => ⟨?_, hm⟩
      exact fun i hi => hav i (List.mem_cons_of_mem _ hi)
    refine hloop.bind ?_
    rintro n rfl
    refine (reads_getValueOut tx htx).bind ?_
    rintro m rfl
    refine (reads_check (by simp [Allowed])).bind fun _ hle => ?_
    refine (reads_int64 _ fun hs => ?_).bind fun fee _ => ?_
    · have hbound := (hsafe hs).2
      omega
    refine (reads_check (by simp [Allowed])).bind fun _ _ => ?_
    exact (reads_check (by simp [Allowed])).mono fun _ _ => hle

theorem reads_scriptChecks (env : Env) (tx : CTransaction) (fScriptChecks : Bool)
    (flags : BitVec 32) (fQueue : Bool) :
    Reads (scriptChecks env tx fScriptChecks flags fQueue : Prog Flat Failure _) f
      (fun _ => True) (Allowed safe) := by
  unfold scriptChecks
  split_ifs
  · refine reads_foldlM (fun _ _ => True) (fun input rest vChecks _ => ?_) _ _ trivial
    refine (reads_getCoins _ (by simp [Allowed])).bind fun coins _ => ?_
    split
    · exact reads_fail _ (by simp [Allowed])
    · dsimp only
      split_ifs
      · exact reads_pure _ trivial
      · exact reads_pure _ trivial
      · exact reads_fail _ (by simp [Allowed])
      · exact reads_fail _ (by simp [Allowed])
  · exact reads_pure _ trivial

theorem mem_vin_spentBy {tx : CTransaction} (hcb : tx.isCoinBase = false)
    (havail : ∀ o ∈ spentBy tx, ∃ out, unspent f o = some out) :
    ∀ txin ∈ tx.vin, ∃ out, unspent f txin.prevout = some out := by
  intro txin hmem
  apply havail
  rw [spentBy, hcb]
  exact List.mem_map_of_mem hmem

theorem reads_checkInputs (env : Env) (tx : CTransaction) (fScriptChecks : Bool)
    (flags : BitVec 32) (fQueue : Bool) (hcb : tx.isCoinBase = false) (htx : TxOk tx)
    (hsafe : safe → NonnegOutputs f ∧ valueIn f tx < 2 ^ 62) :
    Reads (checkInputs env tx fScriptChecks flags fQueue : Prog Flat Failure _) f
      (fun _ => valueOut tx ≤ valueIn f tx) (Allowed safe) := by
  unfold checkInputs
  rw [if_neg (by simp [hcb])]
  refine (reads_haveInputs tx (by simp [Allowed])).bind fun available havail => ?_
  refine (reads_check (by simp [Allowed])).bind fun _ htrue => ?_
  refine (reads_checkAmounts tx hcb htx (mem_vin_spentBy hcb (havail htrue)) hsafe).bind
    fun _ hle => ?_
  exact (reads_scriptChecks env tx _ _ _).mono fun _ _ => hle

theorem reads_tallyP2SH (fStrict : Bool) (nSigOps : BitVec 32) (tx : CTransaction) :
    Reads (tallyP2SH fStrict nSigOps tx : Prog Flat Failure _) f (fun _ => True)
      (Allowed safe) := by
  unfold tallyP2SH
  split_ifs
  · have hcount : Reads (getP2SHSigOpCount tx : Prog Flat Failure _) f (fun _ => True)
        (Allowed safe) := by
      unfold getP2SHSigOpCount
      split_ifs
      · exact reads_pure _ trivial
      · refine reads_foldlM (fun _ _ => True) (fun txin rest n _ => ?_) _ _ trivial
        exact (reads_getOutputFor txin (by simp [Allowed])).bind fun _ _ => reads_pure _ trivial
    refine hcount.bind fun n _ => ?_
    exact (reads_check (by simp [Allowed])).bind fun _ _ => reads_pure _ trivial
  · exact reads_pure _ trivial

/-- What one transaction adds to the tally: its fee, which is not negative. -/
theorem reads_tallyInputs (env : Env) (pars : ConnectPars) (t : Tally) (tx : CTransaction)
    (hcb : tx.isCoinBase = false) (htx : TxOk tx)
    (hsafe : safe → NonnegOutputs f ∧ supply f < 2 ^ 61 ∧ 0 ≤ t.nFees ∧ t.nFees < 2 ^ 61) :
    Reads (tallyInputs env pars t tx : Prog Flat Failure _) f
      (fun t' => t'.nFees = t.nFees + (valueIn f tx - valueOut tx) ∧
        valueOut tx ≤ valueIn f tx ∧ t'.vtxundo = t.vtxundo) (Allowed safe) := by
  have hmax := maxMoney_eq
  have hvalue := valueOut_nonneg tx htx
  have htotal := htx.total
  refine (reads_haveInputs tx (by simp [Allowed])).bind fun available havail => ?_
  refine (reads_check (by simp [Allowed])).bind fun _ htrue => ?_
  have hnodup : (spentBy tx).Nodup := by
    rw [spentBy, hcb]
    exact htx.inputs
  have hbound : safe → 0 ≤ valueIn f tx ∧ valueIn f tx < 2 ^ 61 := by
    intro hs
    obtain ⟨hnonneg, hsupply, -, -⟩ := hsafe hs
    have hle := hnonneg.sum_le_supply (spentBy tx) hnodup (havail htrue)
    refine ⟨List.sum_nonneg fun v hv => ?_, lt_of_le_of_lt hle hsupply⟩
    obtain ⟨o, -, rfl⟩ := List.mem_map.mp hv
    exact hnonneg.valueAt_nonneg o
  refine (reads_tallyP2SH _ _ tx).bind fun nSigOps _ => ?_
  refine (reads_getValueIn tx hcb fun hs => ⟨(hsafe hs).1, ?_⟩).bind ?_
  · exact lt_trans (hbound hs).2 (by norm_num)
  rintro nIn rfl
  refine (reads_getValueOut tx htx).bind ?_
  rintro nOut rfl
  refine (reads_int64 _ fun hs => ?_).bind ?_
  · have hin := hbound hs
    omega
  rintro fee rfl
  refine (reads_int64 _ fun hs => ?_).bind ?_
  · have hin := hbound hs
    have hfees := (hsafe hs).2.2
    omega
  rintro nFees rfl
  refine (reads_checkInputs env tx _ _ _ hcb htx fun hs => ⟨(hsafe hs).1, ?_⟩).bind
    fun vChecks hle => ?_
  · exact lt_trans (hbound hs).2 (by norm_num)
  · exact reads_pure _ ⟨rfl, hle, rfl⟩

end Amounts

section Applying

theorem output_ofTx {tx : CTransaction} (htx : TxOk tx) (nHeight : ℕ) :
    ∀ out ∈ (CCoins.ofTx tx nHeight).vout, out.isNull = false := by
  intro out hout
  have hrange := (htx.range out hout).1
  rw [← Bool.not_eq_true]
  intro hnull
  rw [CTxOut.isNull, beq_iff_eq] at hnull
  rw [CTxOut.value, hnull] at hrange
  exact absurd hrange (by decide)

theorem value_ofTx {tx : CTransaction} (htx : TxOk tx) (nHeight : ℕ) :
    (CCoins.ofTx tx nHeight).value = valueOut tx := by
  have hfilter : (tx.vout.filter fun out => !out.isNull) = tx.vout := by
    rw [List.filter_eq_self]
    intro out hout
    simp [output_ofTx htx nHeight out hout]
  rw [CCoins.value, valueOut]
  exact congrArg (fun l => (l.map CTxOut.value).sum) hfilter

variable {f f' : Flat} {tx : CTransaction} {nHeight : ℕ} {txid : Uint256} {undo : CTxUndo}

theorem nodup_spentBy (htx : TxOk tx) : (spentBy tx).Nodup := by
  unfold spentBy
  split_ifs
  · exact List.nodup_nil
  · exact htx.inputs

/-- A transaction moves the supply by what it pays out less what it takes in. -/
theorem Applies.supply (h : Applies f tx nHeight txid undo f') (htx : TxOk tx)
    (hv : Vacant f txid) : supply f' = supply f - valueIn f tx + valueOut tx := by
  obtain ⟨f₁, hspend, rfl⟩ := h
  have hentry : entryValue (f₁.coins txid) = 0 := by
    rw [hspend.coins_vacant hv]
    cases hc : f.coins txid with
    | none => rfl
    | some c => exact CCoins.value_of_isPruned (hv c hc)
  rw [supply_put, hentry, value_ofTx htx, hspend.supply (nodup_spentBy htx), sub_zero]
  rfl

theorem Applies.nonneg (h : Applies f tx nHeight txid undo f') (htx : TxOk tx)
    (hf : NonnegOutputs f) : NonnegOutputs f' := by
  obtain ⟨f₁, hspend, rfl⟩ := h
  intro t c hc n out hout
  by_cases ht : t = txid
  · subst ht
    rw [put_coins_self, Option.some.injEq] at hc
    subst hc
    exact (htx.range out (List.mem_of_getElem? ((CCoins.output_eq_some_iff _ n out).mp hout).1)).1
  · rw [put_coins_ne _ _ ht] at hc
    exact hf.spendAll hspend t c hc n out hout

variable {safe : Prop}

/-- UpdateCoins applies the transaction. -/
theorem holds_updateCoins (f : Flat) (tx : CTransaction) (nHeight : ℕ) (txid : Uint256) :
    Holds (updateCoins tx nHeight txid : Prog Flat Failure _) f
      (fun undo f' => Applies f tx nHeight txid undo f') (Allowed safe) := by
  have hspend : Holds (spendInputs tx : Prog Flat Failure _) f
      (fun undos f' => SpendAll f (spentBy tx) undos f') (Allowed safe) := by
    unfold spendInputs spentBy
    split_ifs
    · exact holds_pure _ (.nil f)
    · refine (holds_foldlM (fun rest undos s => ∃ done, done ++ rest.map CTxIn.prevout =
        tx.vin.map CTxIn.prevout ∧ SpendAll f done undos s) ?_ tx.vin [] f
          ⟨[], rfl, .nil f⟩).mono ?_ fun _ he => he
      · rintro txin rest undos s ⟨done, hdone, hall⟩
        refine (reads_getCoins _ (by simp [Allowed])).bind fun c hc => ?_
        split
        · exact holds_fail _ (by simp [Allowed])
        · rename_i undo c' hspend
          refine holds_bind (holds_setCoins _ _ (holds_pure _ ?_))
          refine ⟨done ++ [txin.prevout], ?_, hall.append ⟨c, c', hc, hspend, rfl⟩⟩
          rw [← hdone, List.map_cons, List.append_assoc, List.singleton_append]
      · rintro undos s ⟨done, hdone, hall⟩
        rw [List.map_nil, List.append_nil] at hdone
        rwa [← hdone]
  refine holds_bind (hspend.mono (fun undos f₁ hall => ?_) fun _ he => he)
  exact holds_bind (holds_setCoins _ _ (holds_pure _ ⟨f₁, hall, rfl⟩))

/-- BIP30: every txid of the block is vacant. -/
theorem reads_enforceBIP30 (env : Env) (f : Flat) (vtx : List CTransaction) :
    Reads (enforceBIP30 env vtx : Prog Flat Failure _) f
      (fun _ => ∀ tx ∈ vtx, Vacant f (tx.getHash env.Hash)) (Allowed safe) := by
  refine (reads_foldlM (fun rest _ => ∀ tx ∈ vtx, tx ∉ rest → Vacant f (tx.getHash env.Hash))
    ?_ vtx () fun tx hmem hnot => absurd hmem hnot).mono fun _ h tx hmem =>
      h tx hmem List.not_mem_nil
  intro tx rest _ hdone
  have hfine : Reads (notOverwritten (tx.getHash env.Hash) : Prog Flat Failure _) f
      (fun fine => fine = true → Vacant f (tx.getHash env.Hash)) (Allowed safe) := by
    refine (reads_haveCoins _).bind fun known hknown => ?_
    split_ifs with hk
    · refine (reads_getCoins _ (by simp [Allowed])).bind fun c hc => reads_pure _ ?_
      intro hpruned d hd
      obtain rfl : c = d := Option.some.inj (hc.symm.trans hd)
      exact hpruned
    · exact reads_pure _ fun _ c hc => absurd (hknown.mpr ⟨c, hc⟩) hk
  refine hfine.bind fun fine hvacant => ?_
  refine (reads_check (by simp [Allowed])).mono fun _ htrue t ht hnot => ?_
  by_cases heq : t = tx
  · subst heq
    exact hvacant htrue
  · refine hdone t ht fun hmem => ?_
    rcases List.mem_cons.mp hmem with rfl | hmem
    · exact heq rfl
    · exact hnot hmem

end Applying

/-- GetBlockValue without fees. -/
def subsidy (nHeight : ℕ) : ℤ :=
  if nHeight = 1 then PREMINED_MONEY else if nHeight < 588001 then BLOCK_REWARD else 0

theorem subsidy_bounds (nHeight : ℕ) : 0 ≤ subsidy nHeight ∧ subsidy nHeight ≤ PREMINED_MONEY := by
  unfold subsidy
  split_ifs <;> decide

theorem getBlockValue_eq (nHeight : ℕ) (nFees : ℤ) :
    getBlockValue nHeight nFees = int64 (subsidy nHeight + nFees) := by
  have hlimit : 1 + (MAX_MONEY - PREMINED_MONEY).tdiv BLOCK_REWARD = 588001 := by decide
  unfold getBlockValue subsidy
  rw [hlimit]
  dsimp only
  split_ifs <;> first | rfl | omega

section Blocks

variable {env : Env} {pars : ConnectPars} {f₁ : Flat} {all : List CTransaction} {safe : Prop}

/-- ConnectBlock's loop behind the coinbase, from the view `f₁`: what was applied so
far, and what was taken out of the supply as fees. -/
structure LoopInv (env : Env) (nHeight : ℕ) (f₁ : Flat) (all rem : List CTransaction) (t : Tally)
    (s : Flat) : Prop where
  applied : ∃ done, done ++ rem = all ∧ AppliesAll env.Hash nHeight f₁ done t.vtxundo s
  vacant : ∀ tx ∈ rem, Vacant s (tx.getHash env.Hash)
  balance : supply s + t.nFees = supply f₁
  fees : 0 ≤ t.nFees
  nonneg : NonnegOutputs f₁ → NonnegOutputs s

theorem LoopInv.bounds {nHeight : ℕ} {rem : List CTransaction} {t : Tally} {s : Flat}
    (h : LoopInv env nHeight f₁ all rem t s) {b : ℤ} (hf : NonnegOutputs f₁ ∧ supply f₁ < b) :
    NonnegOutputs s ∧ supply s < b ∧ 0 ≤ t.nFees ∧ t.nFees < b := by
  have hs := h.nonneg hf.1
  have hsupply := hs.supply_nonneg
  have hsum := h.balance
  have hfees := h.fees
  exact ⟨hs, by omega, hfees, by omega⟩

/-- One round of the loop for a transaction that is not a coinbase. -/
theorem holds_connectTx (hall : ∀ tx ∈ all, TxOk tx ∧ tx.isCoinBase = false)
    (hnodup : (all.map (CTransaction.getHash env.Hash)).Nodup)
    (hsafe : safe → NonnegOutputs f₁ ∧ supply f₁ < 2 ^ 61) {tx : CTransaction}
    {rem : List CTransaction} {t : Tally} {s : Flat}
    (h : LoopInv env pars.nHeight f₁ all (tx :: rem) t s) :
    Holds (connectTx env pars t tx : Prog Flat Failure _) s
      (fun t' s' => LoopInv env pars.nHeight f₁ all rem t' s') (Allowed safe) := by
  obtain ⟨done, hdone, happlied⟩ := h.applied
  obtain ⟨htx, hcb⟩ := hall tx (by simp [← hdone])
  refine (reads_check (by simp [Allowed])).bind fun _ _ => ?_
  rw [if_neg (by simp [hcb])]
  refine Reads.bind (reads_tallyInputs env pars _ tx hcb htx ?_) ?_
  · intro hs
    exact h.bounds (hsafe hs)
  rintro t' ⟨hfees, hle, hundo⟩
  refine holds_bind ((holds_updateCoins s tx _ _).mono (fun txundo s' happ => ?_) fun _ he => he)
  have hvacant := h.vacant tx List.mem_cons_self
  have hsupply := Applies.supply happ htx hvacant
  have hsum := h.balance
  have hold := h.fees
  dsimp only at hfees hundo
  refine holds_pure _ ⟨⟨done ++ [tx], ?_, ?_⟩, ?_, ?_, ?_, fun hn => ?_⟩
  · rw [List.append_assoc, List.singleton_append, hdone]
  · rw [hundo]
    exact happlied.append happ
  · intro tx' hmem
    refine happ.vacant ?_ (h.vacant tx' (List.mem_cons_of_mem _ hmem))
    rw [← hdone, List.map_append, List.map_cons] at hnodup
    have hnot := (List.nodup_cons.mp (List.nodup_append.mp hnodup).2.1).1
    intro heq
    exact hnot (heq ▸ List.mem_map_of_mem hmem)
  · dsimp only
    rw [hfees]
    omega
  · dsimp only
    rw [hfees]
    omega
  · exact Applies.nonneg happ htx (h.nonneg hn)

/-- What a connected block has done to the view. -/
structure Connected (env : Env) (nHeight : ℕ) (f : Flat) (coinbase : CTransaction)
    (rest : List CTransaction) (undos : List CTxUndo) (f' : Flat) : Prop where
  vacant : ∀ tx ∈ coinbase :: rest, Vacant f (tx.getHash env.Hash)
  applied : AppliesAll env.Hash nHeight f (coinbase :: rest) (⟨[]⟩ :: undos) f'
  balance : supply f' ≤ supply f + subsidy nHeight
  nonneg : NonnegOutputs f → NonnegOutputs f'

theorem spendAll_coinbase {f f' : Flat} {tx : CTransaction} {nHeight : ℕ} {txid : Uint256}
    {undo : CTxUndo} (hcb : tx.isCoinBase = true) (h : Applies f tx nHeight txid undo f') :
    undo = ⟨[]⟩ := by
  obtain ⟨f₁, hspend, -⟩ := h
  rw [spentBy, if_pos hcb] at hspend
  obtain ⟨vprevout⟩ := undo
  cases hspend
  rfl

theorem holds_connectTxs (block : CBlock) {coinbase : CTransaction} {rest : List CTransaction}
    (hok : BlockOk env block coinbase rest) (f : Flat)
    (hsafe : safe → NonnegOutputs f ∧ supply f ≤ MAX_MONEY) :
    Holds (connectTxs env pars block.vtx : Prog Flat Failure _) f
      (fun undo f' => Connected env pars.nHeight f coinbase rest undo.vtxundo f')
      (Allowed safe) := by
  have hmax := maxMoney_eq
  have hnodup := hok.txids
  rw [hok.vtx_eq, List.map_cons, List.nodup_cons] at hnodup
  have hcbok : TxOk coinbase := hok.txs coinbase (by simp [hok.vtx_eq])
  have hrestok : ∀ tx ∈ rest, TxOk tx ∧ tx.isCoinBase = false := fun tx htx =>
    ⟨hok.txs tx (by simp [hok.vtx_eq, htx]), hok.rest_not tx htx⟩
  have hout := valueOut_nonneg coinbase hcbok
  have htotal := hcbok.total
  rw [hok.vtx_eq]
  refine (reads_enforceBIP30 env f _).bind fun _ hvacant => ?_
  rw [List.foldlM_cons]
  -- the coinbase spends nothing and has no undo record
  have hfirst : Holds (connectTx env pars ⟨0, 0, [], []⟩ coinbase : Prog Flat Failure _) f
      (fun t f₁ => Applies f coinbase pars.nHeight (coinbase.getHash env.Hash) ⟨[]⟩ f₁ ∧
        LoopInv env pars.nHeight f₁ rest rest t f₁) (Allowed safe) := by
    refine (reads_check (by simp [Allowed])).bind fun _ _ => ?_
    rw [if_pos hok.coinbase_is]
    refine holds_bind ((holds_updateCoins f coinbase _ _).mono ?_ fun _ he => he)
    intro undo f₁ happ
    obtain rfl := spendAll_coinbase hok.coinbase_is happ
    refine holds_pure _ ⟨happ, ⟨⟨[], rfl, .nil f₁⟩, fun tx htx => ?_, ?_, le_refl 0, id⟩⟩
    · refine happ.vacant ?_ (hvacant tx (List.mem_cons_of_mem _ htx))
      intro heq
      exact hnodup.1 (heq ▸ List.mem_map_of_mem htx)
    · simp
  have hloop : ∀ f₁ t, supply f₁ = supply f + valueOut coinbase →
      (NonnegOutputs f → NonnegOutputs f₁) → LoopInv env pars.nHeight f₁ rest rest t f₁ →
      Holds (rest.foldlM (connectTx env pars) t : Prog Flat Failure _) f₁
        (fun t' s' => LoopInv env pars.nHeight f₁ rest [] t' s') (Allowed safe) := by
    intro f₁ t hsupply hnonneg hinv
    have hsafe₁ : safe → NonnegOutputs f₁ ∧ supply f₁ < 2 ^ 61 := by
      intro hs
      obtain ⟨hn, hbound⟩ := hsafe hs
      exact ⟨hnonneg hn, by omega⟩
    exact holds_foldlM (fun rem t s => LoopInv env pars.nHeight f₁ rest rem t s)
      (fun tx rem t s h => holds_connectTx hrestok hnodup.2 hsafe₁ h) rest t f₁ hinv
  refine holds_bind (holds_bind (hfirst.mono ?_ fun _ he => he))
  rintro t f₁ ⟨happ, hinv⟩
  have hcbvacant := hvacant coinbase List.mem_cons_self
  have hsupply₁ : supply f₁ = supply f + valueOut coinbase := by
    rw [Applies.supply happ hcbok hcbvacant, valueIn, spentBy, if_pos hok.coinbase_is]
    simp
  have hnonneg₁ := Applies.nonneg happ hcbok
  refine (hloop f₁ t hsupply₁ hnonneg₁ hinv).mono ?_ fun _ he => he
  intro t' f' hend
  obtain ⟨done, hdone, hall⟩ := hend.applied
  rw [List.append_nil] at hdone
  subst hdone
  have hsum := hend.balance
  have hfees := hend.fees
  refine (reads_getValueOut coinbase hcbok).bind ?_
  rintro nOut rfl
  rw [getBlockValue_eq]
  have hsub := subsidy_bounds pars.nHeight
  have hpre : PREMINED_MONEY = 12000000000000 := by decide
  refine (reads_int64 _ fun hs => ?_).bind ?_
  · obtain ⟨hn, hbound⟩ := hsafe hs
    have hleft := (hend.nonneg (hnonneg₁ hn)).supply_nonneg
    omega
  rintro nLimit rfl
  refine (reads_check (by simp [Allowed])).bind fun _ hle => ?_
  refine (reads_check (by simp [Allowed])).bind fun _ _ => ?_
  refine holds_pure _ ⟨hvacant, .cons happ hall, by omega, fun hn => ?_⟩
  exact hend.nonneg (hnonneg₁ hn)

/-- The two ways in which a block passes: the genesis block moves the best block
only, and any other block has its transactions applied. -/
inductive Passes (env : Env) (block : CBlock) (pindex : PIndex) (f : Flat) :
    Option CBlockUndo → Flat → Prop
  | genesis : Passes env block pindex f none { f with best := some pindex.ptr }
  | connected {coinbase : CTransaction} {rest : List CTransaction} {undo : CBlockUndo} {f' : Flat}
      (hok : BlockOk env block coinbase rest)
      (h : Connected env pindex.ptr.nHeight f coinbase rest undo.vtxundo f') :
      Passes env block pindex f (some undo) f'

theorem holds_connectView (env : Env) (block : CBlock) (pindex : PIndex) (fJustCheck : Bool)
    (f : Flat) (hsafe : safe → NonnegOutputs f ∧ supply f ≤ MAX_MONEY) :
    Holds (connectView env block pindex fJustCheck : Prog Flat Failure _) f
      (fun undo f' => pindex.pprev = f.best ∧ Passes env block pindex f undo f')
      (Allowed safe) := by
  have hcheck := checkBlock_no_overflow env block (!fJustCheck) (!fJustCheck)
  refine (reads_lift (fun _ hok => checkBlock_ok env block _ _ hok) ?_).bind ?_
  · intro e he _ hover
    exact hcheck e hover he
  rintro _ ⟨coinbase, rest, hok⟩
  refine reads_getBestBlock.bind ?_
  rintro best rfl
  refine (reads_check (by simp [Allowed])).bind fun _ hprev => ?_
  split_ifs
  · exact holds_bind (holds_act _ (holds_pure none ⟨hprev, .genesis⟩))
  · refine holds_bind ((holds_connectTxs block hok f hsafe).mono ?_ fun _ he => he)
    exact fun undo f' hconn => holds_pure _ ⟨hprev, .connected hok hconn⟩

theorem undoPosIsNull_eq (nStatus : BitVec 32) :
    undoPosIsNull nStatus = !nStatus.getLsbD 4 := by
  have hbit : BLOCK_HAVE_UNDO = BitVec.twoPow 32 4 := by decide
  rw [undoPosIsNull, hbit, BitVec.and_twoPow]
  cases nStatus.getLsbD 4 with
  | false => rfl
  | true => decide

theorem undoPosIsNull_or (nStatus : BitVec 32) :
    undoPosIsNull (nStatus ||| BLOCK_HAVE_UNDO) = false := by
  rw [undoPosIsNull_eq, BitVec.getLsbD_or]
  simp [BLOCK_HAVE_UNDO]

theorem undoPosIsNull_valid (nStatus : BitVec 32) :
    undoPosIsNull (nStatus &&& ~~~BLOCK_VALID_MASK ||| BLOCK_VALID_SCRIPTS) =
      undoPosIsNull nStatus := by
  rw [undoPosIsNull_eq, undoPosIsNull_eq, BitVec.getLsbD_or, BitVec.getLsbD_and,
    BitVec.getLsbD_not]
  simp [BLOCK_VALID_MASK, BLOCK_VALID_SCRIPTS]

theorem writeBatch_error {status : Status} {e : Failure} (h : writeBatch status = .error e) :
    ∃ msg, e = .runtimeError msg := by
  cases status <;> cases h <;> exact ⟨_, rfl⟩

theorem reads_writeBatch {κ : Type} (status : Status) (s : BlockCtx κ) :
    Reads (lift (writeBatch status)) s (fun _ => True) (Allowed safe) := by
  refine reads_lift (fun _ _ => trivial) fun e he _ => ?_
  obtain ⟨msg, rfl⟩ := writeBatch_error he
  simp

/-- The undo data is on disk afterwards: this block's when there was none before. -/
theorem holds_writeUndo {κ : Type} (io : BlockIo) (pprev : Option BlockPtr) (undo : CBlockUndo)
    (s : BlockCtx κ) :
    Holds (writeUndo io pprev undo) s (fun _ s' => s'.view = s.view ∧
      undoPosIsNull s'.nStatus = false ∧ (undoPosIsNull s.nStatus = true → s'.undo = some undo))
      (Allowed safe) := by
  have hstore : Holds (storeUndo io pprev undo (undoPosIsNull s.nStatus)) s (fun _ s' =>
      s'.view = s.view ∧ undoPosIsNull s'.nStatus = false ∧
        (undoPosIsNull s.nStatus = true → s'.undo = some undo)) (Allowed safe) := by
    unfold storeUndo
    split_ifs with hnull
    · refine (reads_check (by simp [Allowed])).bind fun _ _ => ?_
      refine (reads_check (by simp [Allowed])).bind fun _ _ => ?_
      refine (reads_check (by simp [Allowed])).bind fun _ _ => ?_
      exact holds_act _ ⟨rfl, undoPosIsNull_or _, fun _ => rfl⟩
    · exact holds_pure _ ⟨rfl, by simpa using hnull, fun h => absurd h hnull⟩
  refine holds_bind (holds_act _ ?_)
  dsimp only
  split_ifs with hwrite
  · refine holds_bind (hstore.mono (fun _ s₁ h => ?_) fun _ he => he)
    obtain ⟨hview, hbit, hundo⟩ := h
    refine holds_bind (holds_act _ ?_)
    refine (reads_writeBatch _ _).bind fun _ _ => ?_
    refine (reads_check (by simp [Allowed])).bind fun _ _ => ?_
    refine holds_act _ ⟨hview, ?_, hundo⟩
    exact (undoPosIsNull_valid _).trans hbit
  · rw [not_or, Bool.not_eq_true] at hwrite
    exact holds_pure _ ⟨rfl, hwrite.1, fun h => absurd (hwrite.1.symm.trans h) (by simp)⟩

/-- ConnectBlock on a flat view. Without fJustCheck the best block is moved and the undo
data is there to be read. -/
theorem holds_connectBlock (env : Env) (io : BlockIo) (block : CBlock) (pindex : PIndex)
    (fJustCheck : Bool) (s : BlockCtx Flat)
    (hsafe : safe → NonnegOutputs s.view ∧ supply s.view ≤ MAX_MONEY) :
    Holds (connectBlock env io block pindex fJustCheck) s (fun undo s' =>
      pindex.pprev = s.view.best ∧ ∃ f', Passes env block pindex s.view undo f' ∧
        (fJustCheck = true → s'.view = f') ∧
        (fJustCheck = false → s'.view = { f' with best := some pindex.ptr } ∧
          (undo ≠ none → undoPosIsNull s'.nStatus = false))) (Allowed safe) := by
  have hview : Holds (onView (connectView env block pindex fJustCheck)) s (fun undo s' =>
      pindex.pprev = s.view.best ∧ Passes env block pindex s.view undo s'.view) (Allowed safe) :=
    holds_zoom (holds_connectView env block pindex fJustCheck s.view hsafe)
  refine holds_bind (hview.mono (fun undo s₁ h => ?_) fun _ he => he)
  obtain ⟨hprev, hpass⟩ := h
  cases undo with
  | none =>
    refine holds_pure _ ⟨hprev, s₁.view, hpass, fun _ => rfl, fun _ => ⟨?_, by simp⟩⟩
    cases hview : s₁.view
    rw [hview] at hpass
    cases hpass
    rfl
  | some undo =>
    dsimp only
    split_ifs with hjust
    · exact holds_pure _ ⟨hprev, s₁.view, hpass, fun _ => rfl, fun h => absurd hjust (by simp [h])⟩
    · refine holds_bind ((holds_writeUndo io _ undo s₁).mono (fun _ s₂ h => ?_) fun _ he => he)
      obtain ⟨hsame, hbit, -⟩ := h
      have htx : Reads (writeTxIndex io) s₂ (fun _ => True) (Allowed safe) := by
        unfold writeTxIndex
        split_ifs
        · refine (reads_writeBatch _ _).bind fun _ _ => ?_
          exact (reads_check (by simp [Allowed])).mono fun _ _ => trivial
        · exact reads_pure _ trivial
      refine htx.bind fun _ _ => ?_
      refine holds_bind (holds_zoom (holds_act _ (holds_pure _ ?_)))
      refine ⟨hprev, s₁.view, hpass, fun h => absurd h hjust, fun _ => ⟨?_, fun _ => hbit⟩⟩
      rw [← hsame]
      rfl

end Blocks

end UmbrellaLtc.ConnectSpec
