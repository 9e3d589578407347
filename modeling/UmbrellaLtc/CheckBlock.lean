import UmbrellaLtc.AuxPow
import UmbrellaLtc.Kgw
import UmbrellaLtc.Script

/-!
The checks of a transaction and of a block that need no context, from main.cpp,
main.h and block.cpp. A failed check carries what CValidationState and the log
keep of it. Sums of amounts are of `int64`, and an overflow is a failure of its
own, which no check of the source stands for.
-/

namespace UmbrellaLtc.CheckBlock

open Codec Transaction Header Merkle Guards Script

/-- How validation ends when it does not return true: through state.DoS (Invalid is
DoS with level 0), with a bare `return error`, through state.Abort, with an
exception, or undefined. -/
inductive Failure where
  | dos (level : ℕ) (msg : String) (corruption : Bool)
  | error (msg : String)
  | abort (msg : String)
  | runtimeError (msg : String)
  | assertion
  | overflow
deriving DecidableEq

/-- state.IsInvalid() afterwards. -/
def Failure.isInvalid : Failure → Bool
  | .dos _ _ _ => true
  | _ => false

def COIN : ℤ := 100000000

def MAX_MONEY : ℤ := 6000000 * COIN

def PREMINED_MONEY : ℤ := 120000 * COIN

def BLOCK_REWARD : ℤ := 10 * COIN

def MAX_BLOCK_SIZE : ℕ := 1000000

def MAX_BLOCK_SIGOPS : ℕ := MAX_BLOCK_SIZE / 50

def moneyRange (nValue : ℤ) : Bool := 0 ≤ nValue && nValue ≤ MAX_MONEY

/-- A value of an `int64` expression. -/
def int64 (x : ℤ) : Except Failure ℤ :=
  if -2 ^ 63 ≤ x ∧ x < 2 ^ 63 then .ok x else .error .overflow

def getBlockValue (nHeight : ℕ) (nFees : ℤ) : Except Failure ℤ :=
  let nSubsidy := BLOCK_REWARD
  let nSubsidy := if nHeight = 1 then PREMINED_MONEY else nSubsidy
  let nSubsidy :=
    if (nHeight : ℤ) ≥ 1 + (MAX_MONEY - PREMINED_MONEY).tdiv BLOCK_REWARD then 0 else nSubsidy
  int64 (nSubsidy + nFees)

/-- One round of the loop of CTransaction::GetValueOut. -/
def valueOutStep (nValueOut : ℤ) (txout : CTxOut) : Except Failure ℤ := do
  let nValueOut ← int64 (nValueOut + txout.value)
  require (moneyRange txout.value = true ∧ moneyRange nValueOut = true)
    (.runtimeError "CTransaction::GetValueOut() : value out of range")
  return nValueOut

def getValueOut (tx : CTransaction) : Except Failure ℤ := tx.vout.foldlM valueOutStep 0

/-- One round of the value loop of CTransaction::CheckTransaction. -/
def checkValueStep (nValueOut : ℤ) (txout : CTxOut) : Except Failure ℤ := do
  require (0 ≤ txout.value)
    (.dos 100 "CTransaction::CheckTransaction() : txout.nValue negative" false)
  require (txout.value ≤ MAX_MONEY)
    (.dos 100 "CTransaction::CheckTransaction() : txout.nValue too high" false)
  let nValueOut ← int64 (nValueOut + txout.value)
  require (moneyRange nValueOut = true)
    (.dos 100 "CTransaction::CheckTransaction() : txout total out of range" false)
  return nValueOut

/-- CTransaction::CheckTransaction. -/
def checkTransaction (tx : CTransaction) : Except Failure Unit := do
  require (tx.vin ≠ []) (.dos 10 "CTransaction::CheckTransaction() : vin empty" false)
  require (tx.vout ≠ []) (.dos 10 "CTransaction::CheckTransaction() : vout empty" false)
  require (tx.getSerializeSize ≤ MAX_BLOCK_SIZE)
    (.dos 100 "CTransaction::CheckTransaction() : size limits failed" false)
  let _ ← tx.vout.foldlM checkValueStep 0
  require (tx.vin.map CTxIn.prevout).Nodup
    (.dos 100 "CTransaction::CheckTransaction() : duplicate inputs" false)
  if tx.isCoinBase then
    require (∀ txin ∈ tx.vin.head?, 2 ≤ txin.scriptSig.length ∧ txin.scriptSig.length ≤ 100)
      (.dos 100 "CTransaction::CheckTransaction() : coinbase script size" false)
  else
    require (∀ txin ∈ tx.vin, txin.prevout.isNull = false)
      (.dos 10 "CTransaction::CheckTransaction() : prevout is null" false)

structure CBlock where
  header : CBlockHeader
  vtx : List CTransaction

/-- What validation takes from outside the modelled code: the two hashes, the
network, the known genesis hash, the height of the last checkpoint, the
adjusted time, and VerifyScript. -/
structure Env where
  Hash : List Byte → Uint256
  powHash : HeaderFields → Uint256
  fTestNet : Bool
  genesisHash : Uint256
  totalBlocksEstimate : ℕ
  adjustedTime : ℤ
  verifyScript : CScript → CTransaction → ℕ → BitVec 32 → Bool
  fScriptCheckThreads : Bool

/-- CheckProofOfWork, from main.h; a fault of CAuxPow::Check is one here. -/
def checkProofOfWork (env : Env) (h : CBlockHeader) : Except Failure Bool :=
  let nBits := Compact.setCompact h.fields.nBits
  let inRange := 0 < nBits && nBits ≤ Kgw.limit env.fTestNet
  if h.fields.getChainID ≠ chainId env.fTestNet then .ok false
  else match h.auxpow with
    | none => .ok (inRange && !(decide (((env.powHash h.fields).toNat : ℤ) > nBits)))
    | some pow =>
        match AuxPow.check env.Hash env.fTestNet pow (h.fields.getHash env.Hash)
            (BitVec.ofInt 32 h.fields.getChainID) with
        | .error (.fault _) => .error .assertion
        | .error (.error _) => .ok false
        | .ok () =>
            .ok (inRange &&
              !(decide (((env.powHash pow.parentBlockHeader.fields).toNat : ℤ) > nBits)))

/-- `!fCheckPOW || CheckProofOfWork(*this)`. -/
def powOk (env : Env) (h : CBlockHeader) (fCheckPOW : Bool) : Except Failure Bool :=
  if fCheckPOW then checkProofOfWork env h else .ok true

/-- The size of the block on the network; `none` when the header cannot be written. -/
def CBlock.getSerializeSize (block : CBlock) : Option ℕ :=
  block.header.serialize.map fun bs => bs.length + (vector CTransaction.codec).size block.vtx

/-- The transaction ids that the short-term limit of August 2013 counts. -/
def lockedTxids (env : Env) (vtx : List CTransaction) : List Uint256 :=
  (vtx.map (CTransaction.getHash env.Hash) ++
    (vtx.drop 1).flatMap fun tx => tx.vin.map fun txin => txin.prevout.hash).dedup

/-- CBlock::CheckBlock. -/
def checkBlock (env : Env) (block : CBlock) (fCheckPOW fCheckMerkleRoot : Bool) :
    Except Failure Unit := do
  require (block.vtx ≠ [] ∧ block.vtx.length ≤ MAX_BLOCK_SIZE)
    (.dos 100 "CheckBlock() : size limits failed" false)
  match block.getSerializeSize with
  | none => .error .assertion
  | some nSize =>
    require (nSize ≤ MAX_BLOCK_SIZE) (.dos 100 "CheckBlock() : size limits failed" false)
    require (block.header.fields.nTime.toNat < 1376568000 →
        (lockedTxids env block.vtx).length ≤ 4500)
      (.error "CheckBlock() : 15 August maxlocks violation")
    let pow ← powOk env block.header fCheckPOW
    require (pow = true) (.dos 50 "CheckBlock() : proof of work failed" false)
    require ((block.header.fields.nTime.toNat : ℤ) ≤ env.adjustedTime + 2 * 60 * 60)
      (.dos 0 "CheckBlock() : block timestamp too far in the future" false)
    require (∃ tx ∈ block.vtx.head?, tx.isCoinBase = true)
      (.dos 100 "CheckBlock() : first tx is not coinbase" false)
    require (∀ tx ∈ block.vtx.drop 1, tx.isCoinBase = false)
      (.dos 100 "CheckBlock() : more than one coinbase" false)
    block.vtx.forM checkTransaction
    require (block.vtx.map (CTransaction.getHash env.Hash)).Nodup
      (.dos 100 "CheckBlock() : duplicate transaction" true)
    require ((block.vtx.map getLegacySigOpCount).sum.toNat ≤ MAX_BLOCK_SIGOPS)
      (.dos 100 "CheckBlock() : out-of-bounds SigOpCount" false)
    require (fCheckMerkleRoot = true →
        block.header.fields.hashMerkleRoot = buildMerkleTree env.Hash block.vtx)
      (.dos 100 "CheckBlock() : hashMerkleRoot mismatch" false)

/-- The sum of a transaction's outputs. -/
def valueOut (tx : CTransaction) : ℤ := (tx.vout.map CTxOut.value).sum

/-- What CheckTransaction leaves true of a transaction. -/
structure TxOk (tx : CTransaction) : Prop where
  vout_ne : tx.vout ≠ []
  range : ∀ txout ∈ tx.vout, 0 ≤ txout.value ∧ txout.value ≤ MAX_MONEY
  total : valueOut tx ≤ MAX_MONEY
  inputs : (tx.vin.map CTxIn.prevout).Nodup

theorem int64_ok (x : ℤ) (h : -2 ^ 63 ≤ x ∧ x < 2 ^ 63) : int64 x = .ok x := if_pos h

theorem int64_eq {x y : ℤ} (h : int64 x = .ok y) : x = y := by
  unfold int64 at h
  split_ifs at h
  exact Except.ok.inj h

theorem moneyRange_iff (n : ℤ) : moneyRange n = true ↔ 0 ≤ n ∧ n ≤ MAX_MONEY := by
  simp [moneyRange]

theorem maxMoney_eq : MAX_MONEY = 600000000000000 := by decide

/-- A loop of checks that ends well has checked every amount and their sum. -/
theorem checkValues_ok (vout : List CTxOut) (n m : ℤ)
    (h : vout.foldlM checkValueStep n = .ok m) (hn : n ≤ MAX_MONEY) :
    (∀ txout ∈ vout, 0 ≤ txout.value ∧ txout.value ≤ MAX_MONEY) ∧
      n + (vout.map CTxOut.value).sum ≤ MAX_MONEY := by
  induction vout generalizing n with
  | nil => simpa using hn
  | cons txout rest ih =>
    rw [List.foldlM_cons, seq_ok_iff] at h
    obtain ⟨next, hstep, hrest⟩ := h
    unfold checkValueStep at hstep
    simp only [↓require_ok_iff, seq_ok_iff] at hstep
    obtain ⟨hneg, hhigh, sum, hsum, hrange, hret⟩ := hstep
    cases hret
    rw [← int64_eq hsum] at hrange hrest
    obtain ⟨hall, htotal⟩ := ih _ hrest ((moneyRange_iff _).mp hrange).2
    refine ⟨?_, ?_⟩
    · intro out hout
      rcases List.mem_cons.mp hout with rfl | hmem
      · exact ⟨hneg, hhigh⟩
      · exact hall out hmem
    · rw [List.map_cons, List.sum_cons]
      omega

/-- The partial sums stay far away from the limits of an `int64`. -/
theorem checkValues_no_overflow (vout : List CTxOut) :
    Never (· = .overflow) (vout.foldlM checkValueStep 0) := by
  have hmax := maxMoney_eq
  refine never_foldlM (fun n => 0 ≤ n ∧ n ≤ MAX_MONEY) (fun n txout hn => ⟨?_, ?_⟩) vout 0 (by decide)
  · unfold checkValueStep
    refine never_guard (by simp) fun hneg => ?_
    refine never_guard (by simp) fun hhigh => ?_
    rw [int64_ok _ (by omega)]
    exact never_guard (by simp) fun _ => never_ok _
  · intro m hm
    unfold checkValueStep at hm
    simp only [↓require_ok_iff, seq_ok_iff] at hm
    obtain ⟨-, -, sum, -, hrange, hret⟩ := hm
    cases hret
    exact (moneyRange_iff _).mp hrange

theorem checkTransaction_ok (tx : CTransaction) (h : checkTransaction tx = .ok ()) : TxOk tx := by
  unfold checkTransaction at h
  simp only [↓require_ok_iff, seq_ok_iff] at h
  obtain ⟨-, hvout, -, m, hvalues, hnodup, -⟩ := h
  obtain ⟨hrange, htotal⟩ := checkValues_ok tx.vout 0 m hvalues (by decide)
  exact ⟨hvout, hrange, by simpa [valueOut] using htotal, hnodup⟩

theorem checkTransaction_no_overflow (tx : CTransaction) :
    Never (· = .overflow) (checkTransaction tx) := by
  unfold checkTransaction
  refine never_guard (by simp) fun _ => ?_
  refine never_guard (by simp) fun _ => ?_
  refine never_guard (by simp) fun _ => ?_
  refine never_bind (checkValues_no_overflow tx.vout) fun _ _ => ?_
  refine never_guard (by simp) fun _ => ?_
  split_ifs
  · exact never_require _ (by simp)
  · exact never_require _ (by simp)

/-- What CheckBlock leaves true of a block's transactions. -/
structure BlockOk (env : Env) (block : CBlock) (coinbase : CTransaction)
    (rest : List CTransaction) : Prop where
  vtx_eq : block.vtx = coinbase :: rest
  coinbase_is : coinbase.isCoinBase = true
  rest_not : ∀ tx ∈ rest, tx.isCoinBase = false
  txs : ∀ tx ∈ block.vtx, TxOk tx
  txids : (block.vtx.map (CTransaction.getHash env.Hash)).Nodup

theorem checkBlock_ok (env : Env) (block : CBlock) (fCheckPOW fCheckMerkleRoot : Bool)
    (h : checkBlock env block fCheckPOW fCheckMerkleRoot = .ok ()) :
    ∃ coinbase rest, BlockOk env block coinbase rest := by
  unfold checkBlock at h
  simp only [↓require_ok_iff] at h
  obtain ⟨-, h⟩ := h
  cases hsize : block.getSerializeSize with
  | none =>
    rw [hsize] at h
    cases h
  | some nSize =>
    rw [hsize] at h
    simp only [↓require_ok_iff, seq_ok_iff] at h
    obtain ⟨-, -, _, -, -, -, hfirst, hrest, _, htxs, hnodup, -⟩ := h
    obtain ⟨coinbase, hhead, hcb⟩ := hfirst
    obtain ⟨rest, hvtx⟩ : ∃ rest, block.vtx = coinbase :: rest := by
      cases hvtx : block.vtx with
      | nil => simp [hvtx] at hhead
      | cons tx rest =>
        rw [hvtx] at hhead
        obtain rfl : tx = coinbase := by simpa using hhead
        exact ⟨rest, rfl⟩
    refine ⟨coinbase, rest, hvtx, hcb, ?_, ?_, hnodup⟩
    · simpa [hvtx] using hrest
    · intro tx htx
      exact checkTransaction_ok tx (forM_ok checkTransaction _ htxs tx htx)

theorem checkProofOfWork_no_overflow (env : Env) (h : CBlockHeader) :
    Never (· = .overflow) (checkProofOfWork env h) := by
  unfold checkProofOfWork
  split_ifs
  · exact never_ok _
  · split
    · exact never_ok _
    · split
      · exact never_error (by simp)
      · exact never_ok _
      · exact never_ok _

theorem powOk_no_overflow (env : Env) (h : CBlockHeader) (fCheckPOW : Bool) :
    Never (· = .overflow) (powOk env h fCheckPOW) := by
  unfold powOk
  split_ifs
  · exact checkProofOfWork_no_overflow env h
  · exact never_ok _

theorem checkBlock_no_overflow (env : Env) (block : CBlock) (fCheckPOW fCheckMerkleRoot : Bool) :
    Never (· = .overflow) (checkBlock env block fCheckPOW fCheckMerkleRoot) := by
  unfold checkBlock
  refine never_guard (by simp) fun _ => ?_
  cases block.getSerializeSize with
  | none => exact never_error (by simp)
  | some nSize =>
    refine never_guard (by simp) fun _ => ?_
    refine never_guard (by simp) fun _ => ?_
    refine never_bind (powOk_no_overflow env block.header fCheckPOW) fun pow _ => ?_
    refine never_guard (by simp) fun _ => ?_
    refine never_guard (by simp) fun _ => ?_
    refine never_guard (by simp) fun _ => ?_
    refine never_guard (by simp) fun _ => ?_
    refine never_bind (never_forM checkTransaction_no_overflow block.vtx) fun _ _ => ?_
    refine never_guard (by simp) fun _ => ?_
    refine never_guard (by simp) fun _ => ?_
    exact never_require _ (by simp)

/-- GetValueOut of a checked transaction is the sum of its outputs. -/
theorem getValueOut_eq (tx : CTransaction) (h : TxOk tx) : getValueOut tx = .ok (valueOut tx) := by
  have hmax := maxMoney_eq
  have hloop : ∀ (vout : List CTxOut) (n : ℤ), 0 ≤ n →
      (∀ txout ∈ vout, 0 ≤ txout.value ∧ txout.value ≤ MAX_MONEY) →
      n + (vout.map CTxOut.value).sum ≤ MAX_MONEY →
      vout.foldlM valueOutStep n = .ok (n + (vout.map CTxOut.value).sum) := by
    intro vout
    induction vout with
    | nil =>
      intro n _ _ _
      simp [pure, Except.pure]
    | cons txout rest ih =>
      intro n hn hrange htotal
      rw [List.map_cons, List.sum_cons] at htotal ⊢
      obtain ⟨hlow, hhigh⟩ := hrange txout List.mem_cons_self
      have hrest : 0 ≤ (rest.map CTxOut.value).sum := by
        refine List.sum_nonneg fun v hv => ?_
        obtain ⟨out, hout, rfl⟩ := List.mem_map.mp hv
        exact (hrange out (List.mem_cons_of_mem _ hout)).1
      have hstep : valueOutStep n txout = .ok (n + txout.value) := by
        unfold valueOutStep
        rw [int64_ok _ (by omega)]
        have hmoney : moneyRange txout.value = true ∧ moneyRange (n + txout.value) = true :=
          ⟨(moneyRange_iff _).mpr ⟨hlow, hhigh⟩, (moneyRange_iff _).mpr ⟨by omega, by omega⟩⟩
        simp [require, hmoney, bind, Except.bind, pure, Except.pure]
      rw [List.foldlM_cons, hstep]
      have hnext := ih (n + txout.value) (by omega)
        (fun out hout => hrange out (List.mem_cons_of_mem _ hout)) (by omega)
      rw [add_assoc] at hnext
      exact hnext
  have hall := hloop tx.vout 0 (le_refl 0) h.range (by simpa [valueOut] using h.total)
  rwa [zero_add] at hall

theorem valueOut_nonneg (tx : CTransaction) (h : TxOk tx) : 0 ≤ valueOut tx := by
  refine List.sum_nonneg fun v hv => ?_
  obtain ⟨out, hout, rfl⟩ := List.mem_map.mp hv
  exact (h.range out hout).1

end UmbrellaLtc.CheckBlock
