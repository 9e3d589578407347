import UmbrellaLtc.CreateTransaction

/-!
The fee loop of CWallet::CreateTransaction: what a round drafts, the fee that is required of it,
and what the call returns.
-/

namespace UmbrellaLtc.CreateTransaction

open Transaction MachineInt Guards SelectedSum CoinSelection Rounds
open CheckBlock (Failure MAX_MONEY moneyRange moneyRange_iff maxMoney_eq valueOut)
open MemPool (Around getMinFee MAX_STANDARD_TX_SIZE)

/-! The fee, the change and the signatures of a round. -/

section Drafting

variable {Ptr : Type} {call : Call Ptr} {c : Choices Ptr} {nChange nFeeRet : int64}
  {E : Failure → Prop}

/-- What moves to the fee is taken off the change. -/
theorem moveToFee_leaves {nMinTxFee : ℤ} (hmin : nMinTxFee < 2 ^ 63) (hchange : 0 ≤ nChange.1)
    (hfee : 0 ≤ nFeeRet.1) (hsum : nChange.1 + nFeeRet.1 < 2 ^ 63) :
    Leaves (moveToFee nMinTxFee nChange nFeeRet) (fun moved => 0 ≤ moved.1.1 ∧
      nFeeRet.1 ≤ moved.2.1 ∧ moved.1.1 + moved.2.1 = nChange.1 + nFeeRet.1) E := by
  unfold moveToFee
  split_ifs with hmove
  · obtain ⟨hlow, hpos, -⟩ := hmove
    refine leaves_bind (leaves_int64Of ⟨by omega, by omega⟩) fun nMissing hmissing => ?_
    have hle := min_le_left nChange.1 nMissing.1
    have hnonneg : 0 ≤ min nChange.1 nMissing.1 := le_min hchange (by omega)
    refine leaves_bind (leaves_int64Of ⟨by omega, by omega⟩) fun nChange' hchange' => ?_
    refine leaves_bind (leaves_int64Of ⟨by omega, by omega⟩) fun nFeeRet' hfee' => ?_
    refine leaves_ok ⟨?_, ?_, ?_⟩
    all_goals
      dsimp only
      omega
  · exact leaves_ok ⟨hchange, le_rfl, rfl⟩

/-- Some outputs, and perhaps one for the change among them. -/
def WithChange (c : Choices Ptr) (vout vout' : List CTxOut) : Prop :=
  vout' = vout ∨
    ∃ newTxOut, c.change = .pay newTxOut.scriptPubKey ∧ vout'.Perm (newTxOut :: vout)

theorem length_withChange {vout vout' : List CTxOut}
    (h : WithChange c vout vout') : vout'.length ≤ vout.length + 1 := by
  obtain rfl | ⟨newTxOut, -, hperm⟩ := h
  · exact Nat.le_succ _
  · rw [hperm.length_eq, List.length_cons]

theorem sublist_insertIdx {α : Type} (l : List α) (n : ℕ) (a : α) : l.Sublist (l.insertIdx n a) := by
  induction l generalizing n with
  | nil => exact List.nil_sublist _
  | cons b rest ih =>
    cases n with
    | zero => exact List.sublist_cons_self a _
    | succ n =>
      rw [List.insertIdx_succ_cons]
      exact (ih n).cons_cons b

/-- The change is added to the outputs; it fails only where it has no script to go to. -/
theorem addChange_leaves (vout : List CTxOut) (hchange : 0 ≤ nChange.1)
    (hE : (∀ scriptChange, c.change ≠ .pay scriptChange) → ∀ e, e ≠ .overflow → E e) :
    Leaves (addChange c vout nChange nFeeRet) (fun added => added.2 = nFeeRet ∧
      vout.Sublist added.1 ∧ WithChange c vout added.1 ∧
      (added.1.map CTxOut.value).sum = (vout.map CTxOut.value).sum + nChange.1) E := by
  unfold addChange
  split_ifs with hpos
  · cases hscript : c.change with
    | badAddress => exact leaves_error (hE (by simp [hscript]) _ (by simp))
    | noKey => exact leaves_error (hE (by simp [hscript]) _ (by simp))
    | pay scriptChange =>
      have hperm := List.perm_insertIdx (⟨BitVec.ofInt 64 nChange.1, scriptChange⟩ : CTxOut) vout
        (c.position_le vout.length)
      refine leaves_ok ⟨rfl, sublist_insertIdx _ _ _, Or.inr ⟨_, hscript, hperm⟩, ?_⟩
      rw [(hperm.map CTxOut.value).sum_eq, List.map_cons, List.sum_cons, value_ofInt nChange.2,
        add_comm]
  · refine leaves_ok ⟨rfl, .refl vout, Or.inl rfl, ?_⟩
    dsimp only
    omega

theorem prevouts_setScriptSig (tx : CTransaction) (nIn : ℕ) (scriptSig : CScript) :
    (setScriptSig tx nIn scriptSig).vin.map CTxIn.prevout = tx.vin.map CTxIn.prevout := by
  refine List.ext_getElem? fun i => ?_
  unfold setScriptSig
  rw [List.getElem?_map, List.getElem?_map, List.getElem?_modify]
  cases tx.vin[i]? with
  | none => rfl
  | some txin =>
    rw [Option.map_eq_map, Option.map_some, Option.map_some, Option.map_some]
    split_ifs
    · rfl
    · rfl

theorem scriptSigs_setScriptSig {P : CScript → Prop} {tx : CTransaction} {scriptSig : CScript}
    (htx : ∀ txin ∈ tx.vin, P txin.scriptSig) (hsig : P scriptSig) (nIn : ℕ) :
    ∀ txin ∈ (setScriptSig tx nIn scriptSig).vin, P txin.scriptSig := by
  intro txin hmem
  obtain ⟨i, hi⟩ := List.mem_iff_getElem?.mp hmem
  unfold setScriptSig at hi
  rw [List.getElem?_modify, Option.map_eq_map, Option.map_eq_some_iff] at hi
  obtain ⟨txin', hold, rfl⟩ := hi
  split_ifs
  · exact hsig
  · exact htx txin' (List.mem_of_getElem? hold)

/-- Signing changes the scripts of the inputs only. -/
theorem signInputs_leaves {signSignature : CTransaction → CTransaction → ℕ → Option CScript}
    {P : CScript → Prop}
    (hP : ∀ txFrom txTo nIn s, signSignature txFrom txTo nIn = some s → P s)
    (hE : ∀ txFrom txTo nIn, signSignature txFrom txTo nIn = none → ∀ e, e ≠ .overflow → E e)
    (coins : List (Ptr × ℕ)) (nIn : ℕ) {tx : CTransaction}
    (htx : ∀ txin ∈ tx.vin, P txin.scriptSig) :
    Leaves (signInputs call signSignature coins nIn tx) (fun tx' => tx'.vout = tx.vout ∧
      tx'.vin.map CTxIn.prevout = tx.vin.map CTxIn.prevout ∧
      ∀ txin ∈ tx'.vin, P txin.scriptSig) E := by
  induction coins generalizing nIn tx with
  | nil => exact leaves_ok ⟨rfl, rfl, htx⟩
  | cons coin rest ih =>
    unfold signInputs
    cases hsign : signSignature (call.wallet.tx coin.1).tx tx nIn with
    | none => exact leaves_error (hE _ _ _ hsign _ (by simp))
    | some scriptSig =>
      refine (ih (nIn + 1) (scriptSigs_setScriptSig htx (hP _ _ _ _ hsign) nIn)).mono ?_
        fun e he => he
      rintro tx' ⟨hvout, hvin, hsigs⟩
      exact ⟨hvout, hvin.trans (prevouts_setScriptSig tx nIn scriptSig), hsigs⟩

variable [LinearOrder Ptr]

/-- What the draft of a round is: the payees and perhaps the change, paid from the selected coins,
with what is left over as the fee. `P` is what is known of the signatures. -/
structure Drafted (call : Call Ptr) (c : Choices Ptr) (P : CScript → Prop)
    (vecSend : List (CScript × int64)) (sel : Selection Ptr) (made : CTransaction × int64) :
    Prop where
  prevouts : made.1.vin.map CTxIn.prevout = (inOrder sel.setCoinsRet).map (outPoint call)
  scriptSigs : ∀ txin ∈ made.1.vin, P txin.scriptSig
  outputs : (payees vecSend).Sublist made.1.vout
  withChange : WithChange c (payees vecSend) made.1.vout
  balance : sel.nValueRet.1 = valueOut made.1 + made.2.1

theorem draft_drafted {P : CScript → Prop} (hempty : P [])
    (hP : ∀ txFrom txTo nIn s, c.signSignature txFrom txTo nIn = some s → P s)
    (hscript : (∀ scriptChange, c.change ≠ .pay scriptChange) → ∀ e, e ≠ .overflow → E e)
    (hsign : ∀ txFrom txTo nIn, c.signSignature txFrom txTo nIn = none → ∀ e, e ≠ .overflow → E e)
    {vecSend : List (CScript × int64)} {nValue : int64} {sel : Selection Ptr}
    (hmin : call.around.nMinTxFee < 2 ^ 63) (hvalue : 0 ≤ nValue.1)
    (hasked : nValue.1 = total asked vecSend) (hfee : 0 ≤ nFeeRet.1)
    (hreach : nValue.1 + nFeeRet.1 ≤ sel.nValueRet.1) :
    Leaves (draft call c vecSend nValue nFeeRet sel) (fun made =>
      Drafted call c P vecSend sel made ∧ nFeeRet.1 ≤ made.2.1) E := by
  have hin := sel.nValueRet.2.2
  unfold draft
  refine leaves_bind (leaves_int64Of ⟨by omega, by omega⟩) fun nRest hrest => ?_
  refine leaves_bind (leaves_int64Of ⟨by omega, by omega⟩) fun nChange hchange => ?_
  refine leaves_bind (moveToFee_leaves hmin (by omega) hfee (by omega)) ?_
  rintro moved ⟨hnonneg, hraised, hsum⟩
  refine leaves_bind (addChange_leaves (payees vecSend) hnonneg hscript) ?_
  rintro added ⟨hsame, hsub, hwith, hout⟩
  refine leaves_bind (signInputs_leaves hP hsign _ 0 ?_) ?_
  · intro txin hmem
    obtain ⟨coin, -, rfl⟩ := List.mem_map.mp hmem
    exact hempty
  · rintro wtxNew ⟨hvout, hvin, hsigs⟩
    have hpaid : valueOut wtxNew = total asked vecSend + moved.1.1 := by
      unfold valueOut
      rw [hvout, hout, value_payees]
    refine leaves_ok ⟨⟨?_, hsigs, ?_, ?_, ?_⟩, ?_⟩
    · rw [hvin, List.map_map]
      rfl
    · rw [hvout]
      exact hsub
    · rw [hvout]
      exact hwith
    · dsimp only
      rw [hpaid, hsame]
      omega
    · dsimp only
      rw [hsame]
      exact hraised

end Drafting

/-! The required fee. -/

section Fees

variable {Ptr : Type} {call : Call Ptr} {tx : CTransaction} {E : Failure → Prop}

/-- The greatest fee that can be required of a transaction of standard size. -/
def maxFee (call : Call Ptr) : ℤ := max (call.nTransactionFee.1 * 100) MAX_MONEY

theorem leaves_int64 {x : ℤ} (h : InRange 63 x) :
    Leaves (CheckBlock.int64 x) (fun y => y = x) E := by
  rw [CheckBlock.int64_ok x h]
  exact leaves_ok rfl

theorem baseMinFee_leaves {a : Around} (hnonneg : 0 ≤ a.nMinTxFee)
    (hbound : a.nMinTxFee * (100 + tx.vout.length) < 2 ^ 63)
    (hsize : tx.getSerializeSize < MAX_STANDARD_TX_SIZE) (fAllowFree : Bool) :
    Leaves (MemPool.baseMinFee a tx fAllowFree .send) (fun _ => True) E := by
  obtain ⟨kilo, hkilo⟩ : ∃ kilo : ℤ, kilo = 1 + (tx.getSerializeSize : ℤ) / 1000 := ⟨_, rfl⟩
  have hhundred : kilo ≤ 100 := by
    unfold MAX_STANDARD_TX_SIZE at hsize
    omega
  have hpos : 0 ≤ kilo := by omega
  have hall : 0 ≤ a.nMinTxFee * tx.vout.length := by positivity
  have hfirst : kilo * a.nMinTxFee ≤ a.nMinTxFee * 100 := by
    rw [mul_comm]
    exact mul_le_mul_of_nonneg_left hhundred hnonneg
  have hfirst' : 0 ≤ kilo * a.nMinTxFee := by positivity
  rw [mul_add] at hbound
  unfold MemPool.baseMinFee
  dsimp only
  rw [if_neg (by simp), ← hkilo]
  refine leaves_bind (leaves_int64 ⟨by omega, by omega⟩) fun nMinFee hmin => ?_
  refine (leaves_foldlM (I := fun done n => 0 ≤ n ∧
    n ≤ a.nMinTxFee * 100 + a.nMinTxFee * done.length) ⟨?_, ?_⟩ ?_).mono (fun _ _ => trivial)
    fun e he => he
  · split_ifs
    all_goals omega
  · rw [List.length_nil]
    split_ifs
    all_goals omega
  · rintro done txout rest n hsplit ⟨hlow, hhigh⟩
    have hlen : ((done ++ [txout]).length : ℤ) ≤ tx.vout.length := by
      rw [hsplit, List.length_append, List.length_append, List.length_singleton, List.length_cons]
      omega
    have hmore := mul_le_mul_of_nonneg_left hlen hnonneg
    have hsucc : a.nMinTxFee * ((done ++ [txout]).length : ℤ) =
        a.nMinTxFee * done.length + a.nMinTxFee := by
      rw [List.length_append, List.length_singleton]
      push_cast
      ring
    split_ifs
    · refine (leaves_int64 ⟨by omega, by omega⟩).mono (fun m hm => ⟨by omega, by omega⟩)
        fun e he => he
    · exact leaves_ok ⟨hlow, by omega⟩

/-- For a transaction of its own the fee is as it is without regard to the block, where it is an
amount of money. -/
theorem getMinFee_send (a : Around) (tx : CTransaction) (fAllowFree : Bool) :
    getMinFee a tx 1 fAllowFree .send = MemPool.baseMinFee a tx fAllowFree .send >>=
      fun nMinFee => .ok (if moneyRange nMinFee then nMinFee else MAX_MONEY) := by
  unfold getMinFee
  cases MemPool.baseMinFee a tx fAllowFree .send with
  | error e => rfl
  | ok n => rfl

theorem requiredFee_leaves (hnonneg : 0 ≤ call.nTransactionFee.1)
    (hfee : maxFee call < 2 ^ 63) (hmin : 0 ≤ call.around.nMinTxFee)
    (hbound : call.around.nMinTxFee * (100 + tx.vout.length) < 2 ^ 63)
    (hsize : tx.getSerializeSize < MAX_STANDARD_TX_SIZE) (fAllowFree : Bool) :
    Leaves (requiredFee call fAllowFree tx) (fun nRequired => nRequired.1 ≤ maxFee call ∧
      ∃ nMinFee, getMinFee call.around tx 1 fAllowFree .send = .ok nMinFee ∧ nRequired.1 =
        max (call.nTransactionFee.1 * (1 + tx.getSerializeSize / 1000)) nMinFee) E := by
  have hpay : call.nTransactionFee.1 * (1 + tx.getSerializeSize / 1000) ≤
      call.nTransactionFee.1 * 100 := by
    unfold MAX_STANDARD_TX_SIZE at hsize
    exact mul_le_mul_of_nonneg_left (by omega) hnonneg
  have hpay' : 0 ≤ call.nTransactionFee.1 * (1 + tx.getSerializeSize / 1000) := by positivity
  have hle := le_max_left (call.nTransactionFee.1 * 100) MAX_MONEY
  have hle' := le_max_right (call.nTransactionFee.1 * 100) MAX_MONEY
  unfold maxFee at hfee ⊢
  unfold requiredFee
  refine leaves_bind (leaves_int64Of ⟨by omega, by omega⟩) fun nPayFee hpayFee => ?_
  have hbase := @baseMinFee_leaves tx E _ hmin hbound hsize fAllowFree
  rw [getMinFee_send]
  cases hrun : MemPool.baseMinFee call.around tx fAllowFree .send with
  | error e =>
    rw [hrun] at hbase
    exact hbase
  | ok n =>
    obtain ⟨nMinFee, hminFee⟩ : ∃ m, m = if moneyRange n then n else MAX_MONEY := ⟨_, rfl⟩
    have hrange : 0 ≤ nMinFee ∧ nMinFee ≤ MAX_MONEY := by
      rw [hminFee]
      split_ifs with hmoney
      · exact (moneyRange_iff n).mp hmoney
      · exact ⟨by decide, le_rfl⟩
    have hmax : max nPayFee.1 nMinFee ≤ max (call.nTransactionFee.1 * 100) MAX_MONEY :=
      max_le_max (by omega) hrange.2
    have hpos : 0 ≤ max nPayFee.1 nMinFee := hrange.1.trans (le_max_right _ _)
    show Leaves (int64Of (max nPayFee.1 (if moneyRange n then n else MAX_MONEY))) _ E
    rw [← hminFee]
    refine (leaves_int64Of ⟨by omega, by omega⟩).mono (fun nRequired hrequired => ?_)
      fun e he => he
    refine ⟨by omega, nMinFee, ?_, ?_⟩
    · rw [hminFee]
      rfl
    · rw [hrequired, hpayFee]

end Fees

/-! The fee loop, and what it returns. -/

section Loop

variable {Ptr : Type} [LinearOrder Ptr] {call : Call Ptr} {vecSend : List (CScript × int64)}
  {E : Failure → Prop}

/-- The settings are no negative amounts, and there is room for the sums that a call makes when the
list passes. -/
structure Fits (call : Call Ptr) (vecSend : List (CScript × int64)) : Prop where
  fee : 0 ≤ call.nTransactionFee.1
  minFee : 0 ≤ call.around.nMinTxFee
  minimum : 0 ≤ call.nMinimumInputValue.1
  coins : total worth (offered call) < 2 ^ 63 - 1
  amounts : total positive vecSend + maxFee call + CENT < 2 ^ 63
  minFees : call.around.nMinTxFee * (101 + vecSend.length) < 2 ^ 63

/-- The payees are among the outputs, the inputs are the coins of the set, which pay for the
outputs and the fee, and the fee is no less than what is required. -/
structure Balanced (call : Call Ptr) (vecSend : List (CScript × int64)) (created : Created Ptr) :
    Prop where
  outputs : (payees vecSend).Sublist created.wtxNew.vout
  inputs : created.wtxNew.vin.map CTxIn.prevout = (inOrder created.setCoins).map (outPoint call)
  offers : ∀ out ∈ created.setCoins, ∃ output ∈ availableCoins call true, output.out = out
  balance : ∑ out ∈ created.setCoins, (amountAt call.wallet.tx out).1 =
    valueOut created.wtxNew + created.nFeeRet.1
  fee : ∃ nMinFee, getMinFee call.around created.wtxNew 1 created.fAllowFree .send = .ok nMinFee ∧
    max (call.nTransactionFee.1 * (1 + created.wtxNew.getSerializeSize / 1000)) nMinFee ≤
      created.nFeeRet.1

/-- What may keep a round from its end. -/
inductive Hindered (call : Call Ptr) (vecSend : List (CScript × int64)) (P : CScript → Prop)
    (c : Choices Ptr) (nTotalValue : ℤ) : Prop
  | poor (h : call.coinControl.any CCoinControl.hasSelected = true ∨
      total worth (eligible call.wallet.tx 1 6 (availableCoins call true)) < nTotalValue)
  | noScript (h : ∀ scriptChange, c.change ≠ .pay scriptChange)
  | unsigned (txFrom txTo : CTransaction) (nIn : ℕ)
      (h : c.signSignature txFrom txTo nIn = none)
  | large (nTarget : int64) (sel : Selection Ptr) (made : CTransaction × int64)
      (hsel : Selects call nTarget sel) (h : Drafted call c P vecSend sel made)
      (hlarge : MAX_STANDARD_TX_SIZE ≤ made.1.getSerializeSize)

/-- The fee at the start of a round. -/
def InLoop (call : Call Ptr) (s : ℕ × int64) : Prop := 0 ≤ s.2.1 ∧ s.2.1 ≤ maxFee call

/-- A round raises the fee, or leaves the loop with a transaction that balances. -/
theorem round_leaves (hfits : Fits call vecSend) {nValue : int64} (hvalue : 0 ≤ nValue.1)
    (hasked : nValue.1 = total asked vecSend) {P : CScript → Prop} (hempty : P []) {s : ℕ × int64}
    (hP : ∀ txFrom txTo nIn sig,
      (call.choices s.1).signSignature txFrom txTo nIn = some sig → P sig)
    (hE : Hindered call vecSend P (call.choices s.1) (nValue.1 + s.2.1) →
      ∀ e, e ≠ .overflow → E e) (hs : InLoop call s) :
    Leaves (round call vecSend nValue s)
      (Sum.elim (fun s' => InLoop call s' ∧ s.2.1 < s'.2.1) (Balanced call vecSend)) E := by
  obtain ⟨hlow, hhigh⟩ := hs
  have hpositive := asked_le_positive vecSend
  have hamounts := hfits.amounts
  have hmin : call.around.nMinTxFee < 2 ^ 63 := by
    have hone := mul_le_mul_of_nonneg_left
      (by omega : (1 : ℤ) ≤ 101 + vecSend.length) hfits.minFee
    have hbound := hfits.minFees
    omega
  unfold CENT at hamounts
  unfold round
  refine leaves_bind (leaves_int64Of ⟨by omega, by omega⟩) fun nTotalValue htotal => ?_
  refine leaves_require (fun hdust => (hdust fun txout _ => rfl).elim) fun _ => ?_
  obtain ⟨sel, hrun, hselects, hfails⟩ := selectCoins_selects hfits.minimum hfits.coins
    (by unfold CENT; omega : nTotalValue.1 + CENT < 2 ^ 63) (call.choices s.1).random
  rw [hrun]
  refine leaves_require (fun hno => ?_) fun hanswer => ?_
  · refine hE (.poor ?_) _ (by simp)
    rw [← htotal]
    exact hfails (by simpa using hno)
  have hsel := hselects hanswer
  refine leaves_bind (draft_drafted hempty hP (fun h => hE (.noScript h))
    (fun a b n h => hE (.unsigned a b n h)) hmin hvalue hasked hlow (htotal ▸ hsel.reaches)) ?_
  rintro made ⟨hmade, hraised⟩
  refine leaves_require (fun hlarge => ?_) fun hsize => ?_
  · exact hE (.large nTotalValue sel made hsel hmade (by omega)) _ (by simp)
  have hcount : call.around.nMinTxFee * (100 + made.1.vout.length) < 2 ^ 63 := by
    have hlen := length_withChange hmade.withChange
    unfold payees at hlen
    rw [List.length_map] at hlen
    exact (mul_le_mul_of_nonneg_left (by omega) hfits.minFee).trans_lt hfits.minFees
  have hmaxFee : maxFee call < 2 ^ 63 := by
    have hnonneg := total_positive_nonneg vecSend
    omega
  refine leaves_bind (requiredFee_leaves hfits.fee hmaxFee hfits.minFee hcount hsize _) ?_
  rintro nRequired ⟨hle, nMinFee, hmin', hrequired⟩
  split_ifs with hmore
  · exact leaves_ok ⟨⟨by dsimp only; omega, hle⟩, by dsimp only; omega⟩
  · refine leaves_ok ⟨hmade.outputs, hmade.prevouts, hsel.offers, ?_, nMinFee, hmin', ?_⟩
    · dsimp only
      rw [← hsel.value, hmade.balance]
    · dsimp only
      omega

/-- The call comes back with this result: true and what it leaves, or false with the reason. -/
def Returns (call : Call Ptr) (vecSend : List (CScript × int64))
    (result : Except Failure (Created Ptr)) : Prop :=
  ∃ n, createTransaction call vecSend n = result.map .inr

theorem returns_of_ends {nValue : int64} (htotal : totalAmount vecSend = .ok nValue)
    {result : Except Failure (Created Ptr)}
    (h : Ends (round call vecSend nValue) (0, call.nTransactionFee) result) :
    Returns call vecSend result := by
  obtain ⟨n, hn⟩ := h
  refine ⟨n, ?_⟩
  unfold createTransaction
  rw [htotal]
  exact hn

theorem Returns.unique {result result' : Except Failure (Created Ptr)}
    (h : Returns call vecSend result) (h' : Returns call vecSend result') : result = result' := by
  obtain ⟨n, hn⟩ := h
  obtain ⟨m, hm⟩ := h'
  unfold createTransaction at hn hm
  cases htotal : totalAmount vecSend with
  | error e =>
    rw [htotal] at hn hm
    exact map_inr_inj (hn.symm.trans hm)
  | ok nValue =>
    rw [htotal] at hn hm
    exact Ends.unique ⟨n, hn⟩ ⟨m, hm⟩

/-- A list that passes is served in a loop that ends. -/
theorem returns_balanced (hfits : Fits call vecSend) (hpass : Passes vecSend)
    {P : CScript → Prop} (hempty : P [])
    (hP : ∀ k txFrom txTo nIn sig,
      (call.choices k).signSignature txFrom txTo nIn = some sig → P sig)
    (hE : ∀ k nFeeRet, nFeeRet ≤ maxFee call →
      Hindered call vecSend P (call.choices k) (total asked vecSend + nFeeRet) →
        ∀ e, e ≠ .overflow → E e) :
    ∃ result, Returns call vecSend result ∧ Leaves result (Balanced call vecSend) E := by
  have hroom : total positive vecSend < 2 ^ 63 := by
    have hamounts := hfits.amounts
    have hfee := hfits.fee
    have hmax := le_max_left (call.nTransactionFee.1 * 100) MAX_MONEY
    unfold maxFee CENT at hamounts
    omega
  have hsum := totalAmount_leaves hroom
  cases htotal : totalAmount vecSend with
  | error e =>
    rw [htotal] at hsum
    exact (hsum.2 hpass).elim
  | ok nValue =>
    rw [htotal] at hsum
    obtain ⟨hasked, -⟩ : nValue.1 = total asked vecSend ∧ Passes vecSend := hsum
    have hvalue : 0 ≤ nValue.1 := by
      rw [hasked]
      exact hpass.2 vecSend [] (List.append_nil _).symm
    have hstart : InLoop call (0, call.nTransactionFee) := by
      have hfee := hfits.fee
      have hmax := le_max_left (call.nTransactionFee.1 * 100) MAX_MONEY
      refine ⟨hfee, ?_⟩
      unfold maxFee
      dsimp only
      omega
    obtain ⟨result, hends, hresult⟩ := @exists_ends _ _ _
      (round call vecSend nValue) _ (InLoop call) (Balanced call vecSend) E (fun s => s.2.1)
      (maxFee call) (fun s hs => hs.2) (fun s hs =>
        round_leaves hfits hvalue hasked hempty (hP s.1) (by
          rw [hasked]
          exact hE s.1 s.2.1 hs.2) hs) hstart
    exact ⟨result, returns_of_ends htotal hends, hresult⟩

end Loop

/-! What the check of the running sum lets through. -/

section Spec

variable {vecSend : List (CScript × int64)}

/-- The call ends without an overflow, and if it returns true no amount is negative and the
transaction balances. -/
def Right {Ptr : Type} [LinearOrder Ptr] (call : Call Ptr) (vecSend : List (CScript × int64)) :
    Prop :=
  ∃ result, Returns call vecSend result ∧ result ≠ .error .overflow ∧
    ∀ created, result = .ok created → NonNegative vecSend ∧ Balanced call vecSend created

theorem right_of_nonNegative {Ptr : Type} [LinearOrder Ptr] {call : Call Ptr}
    (hnonneg : Passes vecSend → NonNegative vecSend) (hroom : total positive vecSend < 2 ^ 63)
    (hfits : Passes vecSend → Fits call vecSend) : Right call vecSend := by
  by_cases hpass : Passes vecSend
  · obtain ⟨result, hreturns, hresult⟩ := @returns_balanced _ _ call vecSend (· ≠ .overflow)
      (hfits hpass) hpass (fun _ => True) trivial (fun _ _ _ _ _ _ => trivial)
      fun _ _ _ _ e he => he
    refine ⟨result, hreturns, ?_, ?_⟩
    · rintro rfl
      exact hresult rfl
    · rintro created rfl
      exact ⟨hnonneg hpass, hresult⟩
  · have hsum := totalAmount_leaves hroom
    cases htotal : totalAmount vecSend with
    | ok nValue =>
      rw [htotal] at hsum
      exact (hpass hsum.2).elim
    | error e =>
      rw [htotal] at hsum
      refine ⟨.error e, ⟨0, ?_⟩, fun heq => hsum.1 (Except.error.inj heq), fun _ heq => nomatch heq⟩
      unfold createTransaction
      rw [htotal]
      rfl

/-- A transaction to the payees with one input, not signed, and an empty script for the change. -/
def withOneInput (vecSend : List (CScript × int64)) : CTransaction :=
  ⟨1, [⟨⟨0, 0⟩, [], BitVec.allOnes 32⟩], ⟨0, []⟩ :: payees vecSend, 0⟩

/-- A list that a rich wallet can serve. -/
structure Sendable (vecSend : List (CScript × int64)) : Prop where
  amounts : total positive vecSend + MAX_MONEY + CENT < 2 ^ 63
  size : (withOneInput vecSend).getSerializeSize < MAX_STANDARD_TX_SIZE

theorem getSerializeSize_eq (tx : CTransaction) : tx.getSerializeSize =
    4 + ((getSizeOfCompactSize tx.vin.length + (tx.vin.map CTxIn.codec.size).sum) +
      ((getSizeOfCompactSize tx.vout.length + (tx.vout.map CTxOut.codec.size).sum) + 4)) := rfl

theorem getSizeOfCompactSize_mono {m n : ℕ} (h : m ≤ n) :
    getSizeOfCompactSize m ≤ getSizeOfCompactSize n := by
  unfold getSizeOfCompactSize
  split_ifs
  all_goals omega

theorem size_unsigned {txin : CTxIn} (h : txin.scriptSig = []) : CTxIn.codec.size txin = 41 := by
  obtain ⟨prevout, scriptSig, nSequence⟩ := txin
  subst h
  rfl

theorem size_change {txout : CTxOut} (h : txout.scriptPubKey = []) :
    CTxOut.codec.size txout = 9 := by
  obtain ⟨nValue, scriptPubKey⟩ := txout
  subst h
  rfl

theorem size_le_withOneInput {tx : CTransaction} (hvin : tx.vin.length ≤ 1)
    (hsigs : ∀ txin ∈ tx.vin, txin.scriptSig = [])
    (hvout : tx.vout = payees vecSend ∨ ∃ newTxOut : CTxOut, newTxOut.scriptPubKey = [] ∧
      tx.vout.Perm (newTxOut :: payees vecSend)) :
    tx.getSerializeSize ≤ (withOneInput vecSend).getSerializeSize := by
  have hin : (tx.vin.map CTxIn.codec.size).sum ≤ 41 := by
    cases hcases : tx.vin with
    | nil => exact Nat.zero_le _
    | cons txin rest =>
      rw [hcases, List.length_cons] at hvin
      have hrest : rest = [] := List.eq_nil_of_length_eq_zero (by omega)
      have hsize := size_unsigned (hsigs txin (hcases ▸ List.mem_cons_self ..))
      rw [hrest, List.map_cons, List.map_nil, List.sum_singleton, hsize]
  have hout : tx.vout.length ≤ (payees vecSend).length + 1 ∧
      (tx.vout.map CTxOut.codec.size).sum ≤ 9 + ((payees vecSend).map CTxOut.codec.size).sum := by
    obtain hsame | ⟨newTxOut, hscript, hperm⟩ := hvout
    · rw [hsame]
      exact ⟨Nat.le_succ _, Nat.le_add_left _ _⟩
    · rw [hperm.length_eq, (hperm.map CTxOut.codec.size).sum_eq, List.map_cons, List.sum_cons,
        size_change hscript]
      exact ⟨le_rfl, le_rfl⟩
  have hcount := getSizeOfCompactSize_mono hvin
  have hcount' := getSizeOfCompactSize_mono hout.1
  have hlargest : (withOneInput vecSend).getSerializeSize = 4 + ((getSizeOfCompactSize 1 + 41) +
      ((getSizeOfCompactSize ((payees vecSend).length + 1) +
        (9 + ((payees vecSend).map CTxOut.codec.size).sum)) + 4)) := rfl
  rw [getSerializeSize_eq, hlargest]
  omega

/-- A wallet with one coin, which pays everything from it; nothing fails, and the change goes to
an empty script. -/
def richCall (nCoin : int64) : Call ℕ where
  around := ⟨⟨fun _ => 0, fun _ => 0, false, 0, 0, 0, fun _ _ _ _ => true, false⟩, 0, 100000, 100000,
    fun _ => true, fun _ _ _ => true, false⟩
  nTransactionFee := 0
  nMinimumInputValue := 0
  wallet :=
    { mapWallet := [(0, 0)]
      distinct := List.nodup_singleton 0
      tx := fun _ => ⟨⟨1, [], [⟨BitVec.ofInt 64 nCoin.1, []⟩], 0⟩, false⟩
      isFinal := fun _ => true
      isConfirmed := fun _ => true
      getBlocksToMaturity := fun _ => 0
      getDepthInMainChain := fun _ => 10
      isSpent := fun _ _ => false
      isMine := fun _ => true
      isLockedCoin := fun _ _ => false }
  coinControl := none
  wtxNew := .null
  choices := fun _ =>
    { random := fun _ => default
      change := .pay []
      position := fun _ => 0
      position_le := Nat.zero_le
      signSignature := fun _ _ _ => some []
      fAllowFree := false }

theorem availableCoins_richCall {nCoin : int64} (hcoin : 0 ≤ nCoin.1) :
    availableCoins (richCall nCoin) true = [⟨0, 0, 10⟩] := by
  have hvalue : (0 : ℤ) ≤ (⟨BitVec.ofInt 64 nCoin.1, []⟩ : CTxOut).value := by
    rw [value_ofInt nCoin.2]
    exact hcoin
  have hspend : spendable (richCall nCoin) 0 0 (⟨BitVec.ofInt 64 nCoin.1, []⟩, 0) = true := by
    show (true && decide ((0 : ℤ) ≤ _) && true) = true
    rw [decide_eq_true hvalue]
    rfl
  have hone : availableCoins (richCall nCoin) true = (([(⟨BitVec.ofInt 64 nCoin.1, []⟩, 0)] :
      List (CTxOut × ℕ)).filter (spendable (richCall nCoin) 0 0)).map fun x => ⟨0, x.2, 10⟩ :=
    List.flatMap_singleton _ _
  rw [hone, List.filter_cons_of_pos hspend]
  rfl

theorem worth_richCall (nCoin : int64) :
    worth (coinOf (richCall nCoin).wallet.tx ⟨0, 0, 10⟩) = nCoin.1 := value_ofInt nCoin.2 []

theorem length_inOrder {Ptr : Type} [LinearOrder Ptr] (setCoins : Finset (Ptr × ℕ)) :
    (inOrder setCoins).length = setCoins.card := by
  unfold inOrder
  rw [List.length_map, Finset.length_sort, Finset.card_image_of_injective _ toLex.injective]

/-- The rich wallet is not hindered. -/
theorem not_hindered (hsend : Sendable vecSend) {nCoin : int64} (hcoin : 0 ≤ nCoin.1) {k : ℕ}
    {nTotalValue : ℤ} (htotal : nTotalValue ≤ nCoin.1) :
    ¬ Hindered (richCall nCoin) vecSend (· = []) ((richCall nCoin).choices k) nTotalValue := by
  have havailable := availableCoins_richCall hcoin
  rintro (h | h | ⟨_, _, _, h⟩ | ⟨nTarget, sel, made, hsel, h, hlarge⟩)
  · obtain hcontrol | hpoor := h
    · cases hcontrol
    · have hall : eligible (richCall nCoin).wallet.tx 1 6 [⟨0, 0, 10⟩] =
          [coinOf (richCall nCoin).wallet.tx ⟨0, 0, 10⟩] := rfl
      rw [havailable, hall, total_cons, total_nil, worth_richCall] at hpoor
      omega
  · exact h [] rfl
  · cases h
  · have hone : sel.setCoinsRet.card ≤ 1 := by
      refine Finset.card_le_one_iff_subset_singleton.mpr ⟨(0, 0), fun out hout => ?_⟩
      obtain ⟨output, houtput, rfl⟩ := hsel.offers out hout
      rw [havailable, List.mem_singleton] at houtput
      rw [houtput]
      exact Finset.mem_singleton_self _
    have hvin : made.1.vin.length ≤ 1 := by
      have hlen := congrArg List.length h.prevouts
      rw [List.length_map, List.length_map, length_inOrder] at hlen
      omega
    have hle := size_le_withOneInput hvin h.scriptSigs (h.withChange.imp id fun ⟨newTxOut, hpay,
      hperm⟩ => ⟨newTxOut, (Change.pay.inj hpay).symm, hperm⟩)
    have hsize := hsend.size
    omega

theorem length_lt (hsend : Sendable vecSend) : vecSend.length < 100000 := by
  have hle : ∀ l : List CTxOut, l.length ≤ (l.map CTxOut.codec.size).sum := by
    intro l
    have hsum := List.card_nsmul_le_sum (l.map CTxOut.codec.size) 1 fun n hn => by
      obtain ⟨txout, -, rfl⟩ := List.mem_map.mp hn
      have height : CTxOut.codec.size txout = 8 + script.size txout.scriptPubKey := rfl
      omega
    simpa using hsum
  have hout := hle (payees vecSend)
  have hsize := hsend.size
  have hlargest : (withOneInput vecSend).getSerializeSize = 4 + ((getSizeOfCompactSize 1 + 41) +
      ((getSizeOfCompactSize ((payees vecSend).length + 1) +
        (9 + ((payees vecSend).map CTxOut.codec.size).sum)) + 4)) := rfl
  have hlength : (payees vecSend).length = vecSend.length := List.length_map _
  unfold MAX_STANDARD_TX_SIZE at hsize
  omega

/-- The rich wallet serves every list that passes, whatever its amounts are. -/
theorem rich_created (hsend : Sendable vecSend) (hpass : Passes vecSend) :
    ∃ (call : Call ℕ) (created : Created ℕ), Fits call vecSend ∧
      Returns call vecSend (.ok created) := by
  have hroom := hsend.amounts
  have hpos := total_positive_nonneg vecSend
  have hmoney := maxMoney_eq
  unfold CENT at hroom
  obtain ⟨nCoin, hcoin⟩ : ∃ nCoin : int64, nCoin.1 = total positive vecSend + MAX_MONEY :=
    ⟨⟨total positive vecSend + MAX_MONEY, by omega, by omega⟩, rfl⟩
  have hnonneg : 0 ≤ nCoin.1 := by omega
  have hmaxFee : maxFee (richCall nCoin) = MAX_MONEY := rfl
  have hfits : Fits (richCall nCoin) vecSend := by
    refine ⟨le_rfl, (by decide : (0 : ℤ) ≤ 100000), le_rfl, ?_, ?_, ?_⟩
    · unfold offered
      rw [availableCoins_richCall hnonneg, List.map_cons, List.map_nil, total_cons, total_nil,
        worth_richCall]
      omega
    · rw [hmaxFee]
      exact hsend.amounts
    · have hlen := length_lt hsend
      show (100000 : ℤ) * (101 + vecSend.length) < 2 ^ 63
      omega
  obtain ⟨result, hreturns, hresult⟩ := @returns_balanced _ _ (richCall nCoin) vecSend
    (fun _ => False) hfits hpass (· = []) rfl
    (fun _ _ _ _ _ h => (Option.some.inj h).symm) fun k nFeeRet hle hhindered _ _ => by
      refine not_hindered hsend hnonneg ?_ hhindered
      have hasked := asked_le_positive vecSend
      rw [hmaxFee] at hle
      omega
  cases result with
  | error e => exact hresult.elim
  | ok created => exact ⟨richCall nCoin, created, hfits, hreturns⟩

/-- CreateTransaction is right for every wallet and every fee setting, where the sums have room,
if no amount of a list that passes the check is negative; and only then, if the list can be sent
at all. For a list that is refused the sum of its amounts is all that needs room. -/
theorem createTransaction_right (vecSend : List (CScript × int64)) :
    ((Passes vecSend → NonNegative vecSend) →
      ∀ call : Call ℕ, total positive vecSend < 2 ^ 63 → (Passes vecSend → Fits call vecSend) →
        Right call vecSend) ∧
    (Sendable vecSend → (∀ call : Call ℕ, Fits call vecSend → Right call vecSend) →
      Passes vecSend → NonNegative vecSend) := by
  refine ⟨fun hnonneg call hroom hfits => right_of_nonNegative hnonneg hroom hfits,
    fun hsend hright hpass => ?_⟩
  obtain ⟨call, created, hfits, hreturns⟩ := rich_created hsend hpass
  obtain ⟨result, hreturns', -, hcreated⟩ := hright call hfits
  exact (hcreated created (hreturns'.unique hreturns)).1

/-- What the wallet with five coins makes of a payment of two to the one and of minus one to the
other. -/
def negativeCreated : Created ℕ :=
  ⟨⟨1, [⟨⟨0, 0⟩, [], BitVec.allOnes 32⟩],
    [⟨399800000, []⟩, ⟨200000000, []⟩, ⟨BitVec.ofInt 64 (-100000000), []⟩], 0⟩,
    ⟨200000, by decide⟩, {(0, 0)}, false⟩

theorem negative_created :
    Returns (richCall ⟨500000000, by decide⟩)
        [([], ⟨200000000, by decide⟩), ([], ⟨-100000000, by decide⟩)] (.ok negativeCreated) ∧
      ¬ Right (richCall ⟨500000000, by decide⟩)
        [([], ⟨200000000, by decide⟩), ([], ⟨-100000000, by decide⟩)] := by
  have hrun : (createTransaction (richCall ⟨500000000, by decide⟩)
      [([], ⟨200000000, by decide⟩), ([], ⟨-100000000, by decide⟩)] 2).toOption =
        some (.inr negativeCreated) := by decide +kernel
  have hreturns : Returns (richCall ⟨500000000, by decide⟩)
      [([], ⟨200000000, by decide⟩), ([], ⟨-100000000, by decide⟩)] (.ok negativeCreated) := by
    refine ⟨2, ?_⟩
    cases hcreate : createTransaction (richCall ⟨500000000, by decide⟩)
        [([], ⟨200000000, by decide⟩), ([], ⟨-100000000, by decide⟩)] 2 with
    | error e =>
      rw [hcreate] at hrun
      cases hrun
    | ok next =>
      rw [hcreate] at hrun
      exact congrArg Except.ok (Option.some.inj hrun)
  refine ⟨hreturns, ?_⟩
  rintro ⟨result, hreturns', -, hcreated⟩
  have hnonneg := (hcreated _ (hreturns'.unique hreturns)).1 ([], ⟨-100000000, by decide⟩)
    (by simp)
  exact absurd hnonneg (by decide)

theorem createTransaction_right_one :
    Right (richCall ⟨500000000, by decide⟩) [([], ⟨200000000, by decide⟩)] := by
  refine (createTransaction_right [([], ⟨200000000, by decide⟩)]).1 (fun _ s hs => ?_)
    (richCall ⟨500000000, by decide⟩) (by decide) fun _ => ⟨by decide, by decide, by decide,
      by decide, by decide, by decide⟩
  rw [List.mem_singleton.mp hs]
  decide

end Spec

end UmbrellaLtc.CreateTransaction
