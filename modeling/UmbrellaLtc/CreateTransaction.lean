import UmbrellaLtc.CoinSelection
import UmbrellaLtc.MemPool
import UmbrellaLtc.Rounds
import Mathlib.Data.Finset.Sort
import Mathlib.Data.Prod.Lex

/-!
CWallet::CreateTransaction of wallet.cpp, with AvailableCoins and SelectCoins. What the wallet
answers about its transactions does not change during a call, which holds cs_wallet. The random
choices, the signatures, the script of the change and the priority may differ from round to round
of the fee loop and are arguments by round. An overflow of an int64 is an error of its own.
-/

namespace UmbrellaLtc.CreateTransaction

open Transaction MachineInt Guards SelectedSum CoinSelection Rounds
open CheckBlock (Failure MAX_MONEY moneyRange moneyRange_iff maxMoney_eq valueOut)
open MemPool (Around getMinFee isDust MAX_STANDARD_TX_SIZE)

section Model

/-- What is `none` in the selection of coins is an overflow. -/
def defined {α : Type} : Option α → Except Failure α
  | some a => .ok a
  | none => .error .overflow

def int64Of (x : ℤ) : Except Failure int64 := defined (machine 63 x)

structure CCoinControl where
  setSelected : List COutPoint

def CCoinControl.hasSelected (c : CCoinControl) : Bool := !c.setSelected.isEmpty

def CCoinControl.isSelected (c : CCoinControl) (hash : Uint256) (n : ℕ) : Bool :=
  decide (⟨hash, BitVec.ofNat 32 n⟩ ∈ c.setSelected)

/-- mapWallet, with a pointer to each transaction, and what the wallet answers about them. -/
structure CWallet (Ptr : Type) where
  mapWallet : List (Uint256 × Ptr)
  distinct : (mapWallet.map Prod.snd).Nodup
  tx : Ptr → CWalletTx
  isFinal : Ptr → Bool
  isConfirmed : Ptr → Bool
  getBlocksToMaturity : Ptr → ℤ
  getDepthInMainChain : Ptr → ℤ
  isSpent : Ptr → ℕ → Bool
  isMine : CTxOut → Bool
  isLockedCoin : Uint256 → ℕ → Bool

/-- Where the change goes: to a script, to an address of -change that is none of a key, or to a
new key where the pool has none left. -/
inductive Change where
  | pay (scriptChange : CScript)
  | badAddress
  | noKey

/-- What comes out differently from round to round. -/
structure Choices (Ptr : Type) where
  random : ℕ → Random Ptr
  change : Change
  position : ℕ → ℕ
  position_le : ∀ n, position n ≤ n
  signSignature : CTransaction → CTransaction → ℕ → Option CScript
  fAllowFree : Bool

/-- What a call reads besides the recipients. -/
structure Call (Ptr : Type) where
  around : Around
  nTransactionFee : int64
  nMinimumInputValue : int64
  wallet : CWallet Ptr
  coinControl : Option CCoinControl
  wtxNew : CTransaction
  choices : ℕ → Choices Ptr

/-- What a call that returns true leaves: the transaction, the fee, the coins that are spent, and
what AllowFree said of the priority. -/
structure Created (Ptr : Type) where
  wtxNew : CTransaction
  nFeeRet : int64
  setCoins : Finset (Ptr × ℕ)
  fAllowFree : Bool
deriving DecidableEq

variable {Ptr : Type} (call : Call Ptr)

/-- May AvailableCoins offer this output? -/
def spendable (hash : Uint256) (pcoin : Ptr) (x : CTxOut × ℕ) : Bool :=
  !call.wallet.isSpent pcoin x.2 && call.wallet.isMine x.1 &&
    !call.wallet.isLockedCoin hash x.2 && decide (call.nMinimumInputValue.1 ≤ x.1.value) &&
    call.coinControl.all fun c => !c.hasSelected || c.isSelected hash x.2

def outputsOf (fOnlyConfirmed : Bool) (item : Uint256 × Ptr) : List (COutput Ptr) :=
  let pcoin := item.2
  let tx := (call.wallet.tx pcoin).tx
  if call.wallet.isFinal pcoin = false then []
  else if fOnlyConfirmed = true ∧ call.wallet.isConfirmed pcoin = false then []
  else if tx.isCoinBase = true ∧ 0 < call.wallet.getBlocksToMaturity pcoin then []
  else (tx.vout.zipIdx.filter (spendable call item.1 pcoin)).map fun x =>
    ⟨pcoin, x.2, call.wallet.getDepthInMainChain pcoin⟩

/-- CWallet::AvailableCoins. -/
def availableCoins (fOnlyConfirmed : Bool) : List (COutput Ptr) :=
  call.wallet.mapWallet.flatMap (outputsOf call fOnlyConfirmed)

section Select

variable [DecidableEq Ptr]

def addOutput (ret : Selection Ptr) (out : COutput Ptr) : Option (Selection Ptr) := do
  let n := amount (← (call.wallet.tx out.tx).tx.vout[out.i]?)
  addCoin ret ⟨n, out.out⟩

/-- CWallet::SelectCoins. -/
def selectCoins (random : ℕ → Random Ptr) (nTargetValue : int64) : Option (Selection Ptr) := do
  let vCoins := availableCoins call true
  if call.coinControl.any CCoinControl.hasSelected then
    let ret ← vCoins.foldlM (addOutput call) ⟨true, ∅, 0⟩
    return { ret with answer := decide (nTargetValue.1 ≤ ret.nValueRet.1) }
  else
    let ret ← selectCoinsMinConf call.wallet.tx nTargetValue 1 6 (random 0) vCoins
    if ret.answer then return ret
    else
      let ret ← selectCoinsMinConf call.wallet.tx nTargetValue 1 1 (random 1) vCoins
      if ret.answer then return ret
      else selectCoinsMinConf call.wallet.tx nTargetValue 0 1 (random 2) vCoins

end Select

/-- One step of the sum of the amounts; the sum so far is checked before the next is added. -/
def addAmount (nValue : int64) (s : CScript × int64) : Except Failure int64 := do
  require (0 ≤ nValue.1) (.error "Transaction amounts must be positive")
  int64Of (nValue.1 + s.2.1)

def totalAmount (vecSend : List (CScript × int64)) : Except Failure int64 := do
  let nValue ← vecSend.foldlM addAmount 0
  require (vecSend ≠ [] ∧ 0 ≤ nValue.1) (.error "Transaction amounts must be positive")
  return nValue

/-- The vouts to the payees. -/
def payees (vecSend : List (CScript × int64)) : List CTxOut :=
  vecSend.map fun s => ⟨BitVec.ofInt 64 s.2.1, s.1⟩

/-- With sub-cent change the fee is raised to nMinTxFee, or until the change becomes zero. -/
def moveToFee (nMinTxFee : ℤ) (nChange nFeeRet : int64) : Except Failure (int64 × int64) :=
  if nFeeRet.1 < nMinTxFee ∧ 0 < nChange.1 ∧ nChange.1 < CENT then do
    let nMissing ← int64Of (nMinTxFee - nFeeRet.1)
    let nMoveToFee := min nChange.1 nMissing.1
    let nChange ← int64Of (nChange.1 - nMoveToFee)
    let nFeeRet ← int64Of (nFeeRet.1 + nMoveToFee)
    return (nChange, nFeeRet)
  else return (nChange, nFeeRet)

/-- The change output, at a random position; dust would be added to the fee. -/
def addChange (c : Choices Ptr) (vout : List CTxOut) (nChange nFeeRet : int64) :
    Except Failure (List CTxOut × int64) :=
  if 0 < nChange.1 then
    match c.change with
    | .badAddress => .error (.error "Bad change address")
    | .noKey => .error .assertion
    | .pay scriptChange => do
        let newTxOut : CTxOut := ⟨BitVec.ofInt 64 nChange.1, scriptChange⟩
        if isDust newTxOut then
          let nFeeRet ← int64Of (nFeeRet.1 + nChange.1)
          return (vout, nFeeRet)
        else return (vout.insertIdx (c.position vout.length) newTxOut, nFeeRet)
  else return (vout, nFeeRet)

def outPoint (coin : Ptr × ℕ) : COutPoint :=
  ⟨(call.wallet.tx coin.1).tx.getHash call.around.env.Hash, BitVec.ofNat 32 coin.2⟩

def txIn (coin : Ptr × ℕ) : CTxIn := ⟨outPoint call coin, [], BitVec.allOnes 32⟩

def setScriptSig (tx : CTransaction) (nIn : ℕ) (scriptSig : CScript) : CTransaction :=
  { tx with vin := tx.vin.modify nIn fun txin => { txin with scriptSig := scriptSig } }

/-- The loop that signs the inputs, from the input nIn on. -/
def signInputs (signSignature : CTransaction → CTransaction → ℕ → Option CScript) :
    List (Ptr × ℕ) → ℕ → CTransaction → Except Failure CTransaction
  | [], _, tx => .ok tx
  | coin :: rest, nIn, tx =>
      match signSignature (call.wallet.tx coin.1).tx tx nIn with
      | none => .error (.error "Signing transaction failed")
      | some scriptSig => signInputs signSignature rest (nIn + 1) (setScriptSig tx nIn scriptSig)

/-- `max(nPayFee, nMinFee)`. -/
def requiredFee (fAllowFree : Bool) (tx : CTransaction) : Except Failure int64 := do
  let nPayFee ← int64Of (call.nTransactionFee.1 * (1 + tx.getSerializeSize / 1000))
  let nMinFee ← getMinFee call.around tx 1 fAllowFree .send
  int64Of (max nPayFee.1 nMinFee)

variable [LinearOrder Ptr]

/-- The pairs of a set, in its order. -/
def inOrder (setCoins : Finset (Ptr × ℕ)) : List (Ptr × ℕ) :=
  ((setCoins.image toLex).sort).map ofLex

/-- The transaction of a round, signed, from the coins that are selected, with its fee. -/
def draft (c : Choices Ptr) (vecSend : List (CScript × int64)) (nValue nFeeRet : int64)
    (sel : Selection Ptr) : Except Failure (CTransaction × int64) := do
  let nRest ← int64Of (sel.nValueRet.1 - nValue.1)
  let nChange ← int64Of (nRest.1 - nFeeRet.1)
  let moved ← moveToFee call.around.nMinTxFee nChange nFeeRet
  let added ← addChange c (payees vecSend) moved.1 moved.2
  let coins := inOrder sel.setCoinsRet
  let wtxNew ← signInputs call c.signSignature coins 0
    { call.wtxNew with vin := coins.map (txIn call), vout := added.1 }
  return (wtxNew, added.2)

/-- A round of the fee loop: too low a fee is raised, and the loop goes on. -/
def round (vecSend : List (CScript × int64)) (nValue : int64) (s : ℕ × int64) :
    Except Failure ((ℕ × int64) ⊕ Created Ptr) := do
  let c := call.choices s.1
  let nTotalValue ← int64Of (nValue.1 + s.2.1)
  require (∀ txout ∈ payees vecSend, isDust txout = false)
    (.error "Transaction amount too small")
  let sel ← defined (selectCoins call c.random nTotalValue)
  require (sel.answer = true) (.error "Insufficient funds")
  let made ← draft call c vecSend nValue s.2 sel
  require (made.1.getSerializeSize < MAX_STANDARD_TX_SIZE) (.error "Transaction too large")
  let nRequired ← requiredFee call c.fAllowFree made.1
  if made.2.1 < nRequired.1 then return .inl (s.1 + 1, nRequired)
  else return .inr ⟨made.1, made.2, sel.setCoinsRet, c.fAllowFree⟩

/-- CWallet::CreateTransaction, for at most `n` rounds of its loop. -/
def createTransaction (vecSend : List (CScript × int64)) (n : ℕ) :
    Except Failure ((ℕ × int64) ⊕ Created Ptr) := do
  let nValue ← totalAmount vecSend
  rounds (round call vecSend nValue) n (0, call.nTransactionFee)

end Model

/-! The amounts that are asked for. -/

section Amounts

variable {vecSend : List (CScript × int64)} {E : Failure → Prop}

def asked (s : CScript × int64) : ℤ := s.2.1

/-- The positive part of an amount. -/
def positive (s : CScript × int64) : ℤ := max s.2.1 0

/-- No sum on the way to the total is negative, which is what is checked. -/
def Passes (vecSend : List (CScript × int64)) : Prop :=
  vecSend ≠ [] ∧ ∀ done later, vecSend = done ++ later → 0 ≤ total asked done

def NonNegative (vecSend : List (CScript × int64)) : Prop := ∀ s ∈ vecSend, 0 ≤ asked s

theorem leaves_int64Of {x : ℤ} (h : InRange 63 x) : Leaves (int64Of x) (fun n => n.1 = x) E := by
  unfold int64Of
  rw [machine_eq h]
  exact leaves_ok rfl

theorem positive_nonneg (s : CScript × int64) : 0 ≤ positive s := le_max_right _ _

theorem asked_le_positive (l : List (CScript × int64)) : total asked l ≤ total positive l :=
  List.sum_le_sum fun _ _ => le_max_left _ _

theorem total_positive_nonneg (l : List (CScript × int64)) : 0 ≤ total positive l :=
  total_nonneg fun s _ => positive_nonneg s

/-- A sum that is not refused is exact. -/
theorem totalAmount_leaves (hfits : total positive vecSend < 2 ^ 63) :
    Leaves (totalAmount vecSend) (fun nValue => nValue.1 = total asked vecSend ∧ Passes vecSend)
      (fun e => e ≠ .overflow ∧ ¬ Passes vecSend) := by
  unfold totalAmount
  refine leaves_bind (leaves_foldlM (I := fun done nValue => nValue.1 = total asked done ∧
    ∀ d l, done = d ++ l → l ≠ [] → 0 ≤ total asked d) ⟨rfl, ?_⟩ ?_) ?_
  · rintro d l hsplit hl
    exact (hl (List.append_eq_nil_iff.mp hsplit.symm).2).elim
  · rintro done s rest nValue hsplit ⟨hvalue, hpast⟩
    unfold addAmount
    refine leaves_require (fun hneg => ⟨by simp, fun hpass => hneg ?_⟩) fun hnonneg => ?_
    · rw [hvalue]
      exact hpass.2 done (s :: rest) hsplit
    · have hlow := s.2.2.1
      have hsum := asked_le_positive (done ++ [s])
      have hsub : (done ++ [s]).Sublist vecSend := by
        rw [hsplit]
        exact (List.singleton_sublist.mpr (List.mem_cons_self ..)).append_left done
      have hle := total_le_of_sublist hsub fun a _ => positive_nonneg a
      rw [total_concat] at hsum
      have hrange : InRange 63 (nValue.1 + s.2.1) := by
        have hasked : asked s = s.2.1 := rfl
        exact ⟨by omega, by omega⟩
      refine (leaves_int64Of hrange).mono (fun n hn => ⟨?_, ?_⟩) fun e he => he
      · rw [hn, hvalue, total_concat]
        rfl
      · intro d l hdl hl
        obtain ⟨l', b, rfl⟩ := List.eq_nil_or_concat l |>.resolve_left hl
        rw [List.concat_eq_append, ← List.append_assoc] at hdl
        obtain ⟨hdone, -⟩ := List.append_inj' hdl rfl
        cases l' with
        | nil =>
          rw [List.append_nil] at hdone
          rw [← hdone, ← hvalue]
          exact hnonneg
        | cons c l' => exact hpast d (c :: l') hdone (List.cons_ne_nil c l')
  · rintro nValue ⟨hvalue, hpast⟩
    refine leaves_require (fun hbad => ⟨by simp, fun hpass => hbad ⟨hpass.1, ?_⟩⟩) fun hgood =>
      leaves_ok ⟨hvalue, hgood.1, ?_⟩
    · rw [hvalue]
      exact hpass.2 vecSend [] (List.append_nil _).symm
    · intro done later hsplit
      cases later with
      | nil =>
        rw [List.append_nil] at hsplit
        rw [← hsplit, ← hvalue]
        exact hgood.2
      | cons s later => exact hpast done (s :: later) hsplit (List.cons_ne_nil s later)

theorem value_ofInt {x : ℤ} (h : InRange 63 x) (scriptPubKey : CScript) :
    (⟨BitVec.ofInt 64 x, scriptPubKey⟩ : CTxOut).value = x := by
  obtain ⟨hlow, hhigh⟩ := h
  show (BitVec.ofInt 64 x).toInt = x
  rw [BitVec.toInt_ofInt]
  exact Int.bmod_eq_of_le (by omega) (by omega)

theorem value_payees (vecSend : List (CScript × int64)) :
    ((payees vecSend).map CTxOut.value).sum = total asked vecSend := by
  unfold payees total
  rw [List.map_map]
  congr 1
  exact List.map_congr_left fun s _ => value_ofInt s.2.2 s.1

end Amounts

/-! The coins that AvailableCoins offers, and what SelectCoins takes of them. -/

section Coins

variable {Ptr : Type} {call : Call Ptr} {fOnlyConfirmed : Bool} {nTargetValue : int64}

/-- The outputs of a transaction are those that may be spent, or none. -/
theorem outputsOf_sublist (item : Uint256 × Ptr) :
    (outputsOf call fOnlyConfirmed item).Sublist
      (((call.wallet.tx item.2).tx.vout.zipIdx.filter (spendable call item.1 item.2)).map fun x =>
        ⟨item.2, x.2, call.wallet.getDepthInMainChain item.2⟩) := by
  unfold outputsOf
  dsimp only
  split_ifs
  · exact List.nil_sublist _
  · exact List.nil_sublist _
  · exact List.nil_sublist _
  · exact .refl _

theorem mem_outputsOf {item : Uint256 × Ptr} {output : COutput Ptr}
    (h : output ∈ outputsOf call fOnlyConfirmed item) :
    output.tx = item.2 ∧ ∃ txout, (call.wallet.tx output.tx).tx.vout[output.i]? = some txout ∧
      call.nMinimumInputValue.1 ≤ txout.value := by
  obtain ⟨x, hx, rfl⟩ := List.mem_map.mp ((outputsOf_sublist item).mem h)
  obtain ⟨hmem, hspend⟩ := List.mem_filter.mp hx
  rw [List.mem_zipIdx_iff_getElem?] at hmem
  simp only [spendable, Bool.and_eq_true, decide_eq_true_eq] at hspend
  exact ⟨rfl, x.1, hmem, hspend.1.2⟩

theorem mem_availableCoins {output : COutput Ptr} (h : output ∈ availableCoins call fOnlyConfirmed) :
    ∃ txout, (call.wallet.tx output.tx).tx.vout[output.i]? = some txout ∧
      call.nMinimumInputValue.1 ≤ txout.value := by
  obtain ⟨item, -, hitem⟩ := List.mem_flatMap.mp h
  exact (mem_outputsOf hitem).2

theorem exist_availableCoins : Exist call.wallet.tx (availableCoins call fOnlyConfirmed) := by
  intro output houtput
  obtain ⟨txout, hout, -⟩ := mem_availableCoins houtput
  exact (List.getElem?_eq_some_iff.mp hout).1

theorem amountAt_of_getElem? {txs : Ptr → CWalletTx} {output : COutput Ptr} {txout : CTxOut}
    (h : (txs output.tx).tx.vout[output.i]? = some txout) :
    amountAt txs output.out = amount txout := by
  unfold amountAt COutput.out
  rw [h]
  rfl

theorem amountAt_nonneg (hminimum : 0 ≤ call.nMinimumInputValue.1) :
    ∀ output ∈ availableCoins call fOnlyConfirmed, 0 ≤ (amountAt call.wallet.tx output.out).1 := by
  intro output houtput
  obtain ⟨txout, hout, hle⟩ := mem_availableCoins houtput
  rw [amountAt_of_getElem? hout]
  exact hminimum.trans hle

/-- An output is offered once. -/
theorem nodup_availableCoins : ((availableCoins call fOnlyConfirmed).map COutput.out).Nodup := by
  unfold availableCoins
  rw [List.map_flatMap, List.nodup_flatMap]
  constructor
  · intro item _
    have hindex : ((call.wallet.tx item.2).tx.vout.zipIdx.map Prod.snd).Nodup := by
      rw [List.zipIdx_map_snd]
      exact List.nodup_range'
    have hshape : ((outputsOf call fOnlyConfirmed item).map fun o => (o.out).2).Sublist
        ((call.wallet.tx item.2).tx.vout.zipIdx.map Prod.snd) := by
      refine ((outputsOf_sublist item).map fun o => (o.out).2).trans ?_
      rw [List.map_map]
      exact List.filter_sublist.map Prod.snd
    refine List.Nodup.of_map Prod.snd ?_
    rw [List.map_map]
    exact hindex.sublist hshape
  · refine (List.pairwise_map.mp call.wallet.distinct).imp fun {item item'} hne => ?_
    intro out hout hout'
    obtain ⟨o, ho, rfl⟩ := List.mem_map.mp hout
    obtain ⟨o', ho', heq⟩ := List.mem_map.mp hout'
    refine hne ?_
    rw [← (mem_outputsOf ho).1, ← (mem_outputsOf ho').1]
    exact (congrArg Prod.fst heq).symm

/-- The offered coins, with their amounts. -/
def offered (call : Call Ptr) : List (Coin Ptr) :=
  (availableCoins call true).map (coinOf call.wallet.tx)

theorem offered_nonneg (hminimum : 0 ≤ call.nMinimumInputValue.1) :
    ∀ coin ∈ offered call, 0 ≤ worth coin := by
  intro coin hcoin
  obtain ⟨output, houtput, rfl⟩ := List.mem_map.mp hcoin
  exact amountAt_nonneg hminimum output houtput

theorem eligible_sublist (nConfMine nConfTheirs : ℤ) :
    (eligible call.wallet.tx nConfMine nConfTheirs (availableCoins call true)).Sublist
      (offered call) :=
  List.filter_sublist.map _

variable [DecidableEq Ptr]

/-- A selection that is to be spent: offered outputs, with their sum, which reaches the target. -/
structure Selects (call : Call Ptr) (nTargetValue : int64) (sel : Selection Ptr) : Prop where
  offers : ∀ out ∈ sel.setCoinsRet, ∃ output ∈ availableCoins call true, output.out = out
  value : sel.nValueRet.1 = ∑ out ∈ sel.setCoinsRet, (amountAt call.wallet.tx out).1
  reaches : nTargetValue.1 ≤ sel.nValueRet.1

theorem minConf_selects (hminimum : 0 ≤ call.nMinimumInputValue.1)
    (hcoins : total worth (offered call) < 2 ^ 63 - 1) (htarget : nTargetValue.1 + CENT < 2 ^ 63)
    (nConfMine nConfTheirs : ℤ) (r : Random Ptr) :
    ∃ ret, selectCoinsMinConf call.wallet.tx nTargetValue nConfMine nConfTheirs r
        (availableCoins call true) = some ret ∧
      (ret.answer = true → Selects call nTargetValue ret) ∧
      (ret.answer = false → total worth (eligible call.wallet.tx nConfMine nConfTheirs
        (availableCoins call true)) < nTargetValue.1) := by
  have hnonneg := offered_nonneg hminimum
  have hsub := @eligible_sublist _ call nConfMine nConfTheirs
  have hmax : ∀ coin ∈ eligible call.wallet.tx nConfMine nConfTheirs (availableCoins call true),
      worth coin < 2 ^ 63 - 1 := by
    intro coin hcoin
    have hle := total_le_of_sublist (List.singleton_sublist.mpr (hsub.mem hcoin)) hnonneg
    rw [total_cons, total_nil, add_zero] at hle
    omega
  have hlower := total_le_of_sublist
    ((List.filter_sublist (p := isLower nTargetValue)).trans hsub) hnonneg
  obtain ⟨ret, hrun, hfails, hselects⟩ := selectCoinsMinConf_selected r exist_availableCoins
    (amountAt_nonneg hminimum) htarget hmax (by omega)
  refine ⟨ret, hrun, fun hanswer => ?_, hfails.mp⟩
  obtain ⟨coins, hconsists, hcoins', hreach⟩ := hselects hanswer
  obtain ⟨hset, hvalue⟩ := hconsists.spec hcoins' nodup_availableCoins
  refine ⟨fun out hout => ?_, hvalue, hreach⟩
  obtain ⟨output, houtput, -, heq⟩ := hset out hout
  exact ⟨output, houtput, heq⟩

theorem addOutputs_eq (l : List (COutput Ptr)) (hexist : Exist call.wallet.tx l)
    (ret : Selection Ptr) : l.foldlM (addOutput call) ret =
      (l.map (coinOf call.wallet.tx)).foldlM addCoin ret := by
  induction l generalizing ret with
  | nil => rfl
  | cons output rest ih =>
    have hout := List.getElem?_eq_getElem (hexist output (List.mem_cons_self ..))
    have hstep : addOutput call ret output = addCoin ret (coinOf call.wallet.tx output) := by
      unfold addOutput coinOf
      rw [hout, amountAt_of_getElem? hout]
      rfl
    rw [List.foldlM_cons, List.map_cons, List.foldlM_cons, hstep]
    exact congrArg _ (funext fun ret' =>
      ih (fun o ho => hexist o (List.mem_cons_of_mem _ ho)) ret')

/-- SelectCoins goes through; without coin control it fails for want of coins only. -/
theorem selectCoins_selects (hminimum : 0 ≤ call.nMinimumInputValue.1)
    (hcoins : total worth (offered call) < 2 ^ 63 - 1) (htarget : nTargetValue.1 + CENT < 2 ^ 63)
    (random : ℕ → Random Ptr) :
    ∃ sel, selectCoins call random nTargetValue = some sel ∧
      (sel.answer = true → Selects call nTargetValue sel) ∧
      (sel.answer = false → call.coinControl.any CCoinControl.hasSelected = true ∨
        total worth (eligible call.wallet.tx 1 6 (availableCoins call true)) < nTargetValue.1) := by
  have hminConf := fun nConfMine nConfTheirs r =>
    minConf_selects hminimum hcoins htarget nConfMine nConfTheirs r
  unfold selectCoins
  dsimp only
  split_ifs with hcontrol
  · obtain ⟨ret, hrun, hconsists⟩ := @addCoins_consists _ _ (offered call)
      ⟨offered_nonneg hminimum, by omega⟩
    rw [addOutputs_eq _ exist_availableCoins]
    unfold offered at hrun
    rw [hrun, Option.bind_eq_bind, Option.bind_some]
    refine ⟨_, rfl, fun hanswer => ?_, fun _ => Or.inl hcontrol⟩
    have hset := hconsists.outs
    unfold offered at hset
    rw [List.map_map] at hset
    have houts : ret.setCoinsRet = ((availableCoins call true).map COutput.out).toFinset := hset
    refine ⟨fun out hout => ?_, ?_, of_decide_eq_true hanswer⟩
    · rw [houts, List.mem_toFinset] at hout
      exact List.mem_map.mp hout
    · show ret.nValueRet.1 = ∑ out ∈ ret.setCoinsRet, _
      rw [houts, List.sum_toFinset _ nodup_availableCoins, List.map_map, hconsists.value, total,
        offered, List.map_map]
      rfl
  · obtain ⟨ret, hrun, hselects, hfails⟩ := hminConf 1 6 (random 0)
    rw [hrun, Option.bind_eq_bind, Option.bind_some]
    split_ifs with hanswer
    · exact ⟨ret, rfl, hselects, fun hno => absurd (hanswer.symm.trans hno) (by simp)⟩
    · have hpoor := hfails (by simpa using hanswer)
      obtain ⟨ret', hrun', hselects', -⟩ := hminConf 1 1 (random 1)
      rw [hrun', Option.bind_some]
      split_ifs with hanswer'
      · exact ⟨ret', rfl, hselects', fun _ => Or.inr hpoor⟩
      · obtain ⟨ret'', hrun'', hselects'', -⟩ := hminConf 0 1 (random 2)
        exact ⟨ret'', hrun'', hselects'', fun _ => Or.inr hpoor⟩

end Coins

end UmbrellaLtc.CreateTransaction
