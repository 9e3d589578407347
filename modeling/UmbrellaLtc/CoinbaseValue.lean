import UmbrellaLtc.MiningRuns
import UmbrellaLtc.ConnectSpec

/-!
The call getblocktemplate of rpcmining.cpp, with the template that it keeps between calls. The
value of a new block is put into the two outputs of its coinbase, a half each, and the call
reports the first one.
-/

namespace UmbrellaLtc.CoinbaseValue

open Codec Transaction Header CoinsView CheckBlock ConnectBlock ConnectSpec BestChain MemPool Script
  BlockTemplate MergedMining MiningRpc Runs
open OrphanBlocks (getMedianTimePast)

/-- The value of "mode" in the object that is passed. -/
inductive Mode where
  | null
  | str (s : String)
  | other
deriving DecidableEq

def RPC_INVALID_PARAMETER : ℤ := -8

def RPC_CLIENT_NOT_CONNECTED : ℤ := -9

def RPC_CLIENT_IN_INITIAL_DOWNLOAD : ℤ := -10

/-- JSONRPCError, an exception of CreateNewBlock, and a template that is not there or too short. -/
inductive RpcError where
  | jsonRpc (code : ℤ) (message : String)
  | threw (e : Failure)
  | fault
deriving DecidableEq

/-- One of "transactions"; "data" is what the transaction is written as. -/
structure Entry where
  data : CTransaction
  hash : Uint256
  depends : List ℕ
  fee : ℤ
  sigops : BitVec 32
deriving DecidableEq

/-- The answer, without what is the same in all of them. -/
structure Report where
  version : BitVec 32
  previousblockhash : Uint256
  transactions : List Entry
  coinbasevalue : ℤ
  target : Uint256
  mintime : ℕ
  curtime : BitVec 32
  bits : BitVec 32
  height : ℕ
deriving DecidableEq

/-- The static variables. -/
structure Kept where
  nTransactionsUpdatedLast : BitVec 32
  pindexPrev : Option Uint256
  nStart : ℤ
  pblocktemplate : Option CBlockTemplate

def Kept.init : Kept := ⟨0, none, 0, none⟩

section Reporting

variable (Hash : List Byte → Uint256)

/-- The loop over the transactions, of which `i` come before; none where a list of the template
is read behind its end. -/
def entries (t : CBlockTemplate) : ℕ → (Uint256 → Option ℕ) → List CTransaction →
    Option (List Entry)
  | _, _, [] => some []
  | i, setTxIndex, tx :: rest => do
      let txHash := tx.getHash Hash
      let setTxIndex := Function.update setTxIndex txHash (some i)
      let later ← entries t (i + 1) setTxIndex rest
      if tx.isCoinBase then return later
      else do
        let fee ← t.vTxFees[i]?
        let sigops ← t.vTxSigOps[i]?
        let depends := tx.vin.filterMap fun txin => setTxIndex txin.prevout.hash
        return ⟨tx, txHash, depends, fee, sigops⟩ :: later

/-- The result object, for a template whose time has been updated. -/
def report {M : Type} (s : ChainState M) (pindexPrev : Uint256) (t : CBlockTemplate) :
    Option Report := do
  let transactions ← entries Hash t 0 (fun _ => none) t.block.vtx
  let coinbase ← t.block.vtx.head?
  let out ← coinbase.vout.head?
  let fields := t.block.header.fields
  return {
    version := fields.nVersion
    previousblockhash := fields.hashPrevBlock
    transactions := transactions
    coinbasevalue := out.value
    target := hashTarget fields.nBits
    mintime := getMedianTimePast s pindexPrev + 1
    curtime := fields.nTime
    bits := fields.nBits
    height := s.height pindexPrev + 1 }

end Reporting

/-- `CScript() << OP_TRUE`. -/
def scriptDummy : CScript := [BitVec.ofNat 8 OP_1]

section Calling

variable {D M : Type} (double : Double D) (heapOps : HeapOps D)

/-- A template for both of whose scripts the dummy is taken. -/
def create (m : Moment D M) : Except Failure CBlockTemplate :=
  (createNewBlock double heapOps m.around m.opts m.io m.horizon m.clock scriptDummy scriptDummy
    m.pool m.chain).1

/-- `Update block`, where the template is too old. Failures from here on leave none. -/
def renew (m : Moment D M) (st : Kept) : Kept × Except RpcError Unit :=
  if st.pindexPrev != m.chain.pindexBest ||
      (m.nTransactionsUpdated != st.nTransactionsUpdatedLast &&
        decide (m.time - st.nStart > 5)) then
    let st : Kept := ⟨m.nTransactionsUpdated, none, m.time, none⟩
    match create double heapOps m with
    | .error e => (st, .error (.threw e))
    | .ok template =>
        ({ st with pindexPrev := m.chain.pindexBest, pblocktemplate := some template }, .ok ())
  else (st, .ok ())

/-- The part from `Update nTime` on. -/
def answer (m : Moment D M) (st : Kept) : Kept × Except RpcError Report :=
  match st.pblocktemplate, st.pindexPrev with
  | some template, some pindexPrev =>
      let nTime := updateTime (getMedianTimePast m.chain pindexPrev) m.adjustedTime
      let template := { template with block := setTimeAndNonce template.block nTime 0 }
      ({ st with pblocktemplate := some template },
        (report m.around.env.Hash m.chain pindexPrev template).elim (.error .fault) .ok)
  | _, _ => (st, .error .fault)

def getblocktemplate (m : Moment D M) (mode : Mode) (st : Kept) :
    Kept × Except RpcError Report :=
  if mode ≠ .null ∧ mode ≠ .str "template" then
    (st, .error (.jsonRpc RPC_INVALID_PARAMETER "Invalid mode"))
  else if m.fConnected = false then
    (st, .error (.jsonRpc RPC_CLIENT_NOT_CONNECTED "Umbrella-LTC is not connected!"))
  else if m.chain.pindexBest.isNone || m.fDownloading then
    (st, .error (.jsonRpc RPC_CLIENT_IN_INITIAL_DOWNLOAD "Umbrella-LTC is downloading blocks..."))
  else match renew double heapOps m st with
    | (st, .error e) => (st, .error e)
    | (st, .ok ()) => answer m st

/-- The calls before one, each with what it finds. -/
def step (st : Kept) (input : Moment D M × Mode) : Kept :=
  (getblocktemplate double heapOps input.1 input.2 st).1

/-! What a template is worth. -/

/-- The sum of the fees of the transactions behind the coinbase. -/
def totalFees (t : CBlockTemplate) : ℤ := t.vTxFees.tail.sum

/-- What the outputs of the coinbase add up to. -/
def coinbaseOut (t : CBlockTemplate) : ℤ := (t.block.vtx.head?.elim 0 valueOut)

/-- One of the calls made the template for this height. -/
def Made (moments : List (Moment D M)) (nHeight : ℕ) (t : CBlockTemplate) : Prop :=
  ∃ m ∈ moments, create double heapOps m = .ok t ∧
    ∃ pindexPrev, m.chain.pindexBest = some pindexPrev ∧ nHeight = m.chain.height pindexPrev + 1

/-- The template with another time and nonce. -/
def Stamped (t made : CBlockTemplate) : Prop :=
  t = made ∨ ∃ nTime nNonce, t = { made with block := setTimeAndNonce made.block nTime nNonce }

/-- The answer of a call is read off the template. -/
def Shows (m : Moment D M) (made : CBlockTemplate) (r : Report) : Prop :=
  ∃ pindexPrev t, Stamped t made ∧ report m.around.env.Hash m.chain pindexPrev t = some r

/-- The value of the block is reported, and is what the outputs add up to. -/
structure Faithful (nHeight : ℕ) (made : CBlockTemplate) (r : Report) : Prop where
  reported : getBlockValue nHeight (totalFees made) = .ok r.coinbasevalue
  paid : getBlockValue nHeight (totalFees made) = .ok (coinbaseOut made)

end Calling

section Fees

variable {D : Type} {double : Double D} {heap : HeapOps D} {a : Around} {opts : BlockOptions}
  {nHeight : ℕ} {κ : Type} [CoinsCache κ] {s : Assembly D} {k : κ}

/-- The fees have been summed up as they were noted, one for each transaction. -/
structure Accounted (s : Assembly D) : Prop where
  fees : s.nFees = s.vTxFees.sum
  count : s.vTxFees.length = s.vtx.length
  sigops : s.vTxSigOps.length = s.vtx.length

theorem addTx_accounted (tx : CTransaction) (nTxFees : ℤ) (nTxSigOps : BitVec 32)
    (h : Accounted s) :
    (addTx double heap a nHeight tx nTxFees nTxSigOps s).Holds k (fun t _ => Accounted t)
      fun _ => True := by
  unfold addTx
  refine Prog.holds_bind ((Prog.holds_any _ k).mono (fun _ k _ => ?_) fun _ he => he)
  refine Prog.holds_bind (Prog.holds_lift (fun nFees hfees => ?_) fun _ _ => trivial)
  refine Prog.holds_bind (Prog.holds_lift (fun queue _ => ?_) fun _ _ => trivial)
  refine Prog.holds_pure _ ⟨?_, ?_, ?_⟩
  · have hsum := int64_eq hfees
    rw [List.sum_append, List.sum_singleton, ← h.fees]
    exact hsum.symm
  · rw [List.length_append, List.length_append, h.count]
    rfl
  · rw [List.length_append, List.length_append, h.sigops]
    rfl

theorem tryTx_accounted (tx : CTransaction) (h : Accounted s) :
    (tryTx double heap a nHeight tx s).Holds k (fun t _ => Accounted t) fun _ => True := by
  unfold tryTx
  refine Prog.holds_bind ((Prog.holds_any _ k).mono (fun _ k _ => ?_) fun _ he => he)
  refine Prog.holds_bind (Prog.holds_lift (fun _ _ => ?_) fun _ _ => trivial)
  refine Prog.holds_bind (Prog.holds_lift (fun nTxFees _ => ?_) fun _ _ => trivial)
  refine Prog.holds_bind ((Prog.holds_any _ k).mono (fun n k _ => ?_) fun _ he => he)
  by_cases hlimit : MAX_BLOCK_SIGOPS ≤
      (s.nBlockSigOps + (getLegacySigOpCount tx + n)).toNat
  · rw [if_pos hlimit]
    exact Prog.holds_pure s h
  · rw [if_neg hlimit]
    refine Prog.holds_bind ((Prog.holds_any _ k).mono (fun checked k _ => ?_) fun _ he => he)
    cases checked with
    | none => exact Prog.holds_pure s h
    | some _ => exact addTx_accounted tx nTxFees _ h

theorem selectTx_accounted (next : TxPriority D) (h : Accounted s) :
    (selectTx double heap a opts nHeight s next).Holds k (fun t _ => Accounted t)
      fun _ => True := by
  have hprioritized : Accounted (prioritizeByFee double heap opts s next) := by
    unfold prioritizeByFee
    split_ifs
    · exact ⟨h.fees, h.count, h.sigops⟩
    · exact h
  unfold selectTx
  by_cases hskip : skipped double a opts s next = true
  · rw [if_pos hskip]
    exact Prog.holds_pure s h
  · rw [if_neg hskip]
    refine Prog.holds_bind ((Prog.holds_any _ k).mono (fun available k _ => ?_) fun _ he => he)
    cases available with
    | true => exact tryTx_accounted next.ptx hprioritized
    | false => exact Prog.holds_pure _ hprioritized

/-- Every round of the loop keeps the account. -/
theorem selectTxs_accounted (fuel : ℕ) (h : Accounted s) :
    (selectTxs double heap a opts nHeight fuel s).Holds k (fun t _ => Accounted t)
      fun _ => True := by
  induction fuel generalizing s k with
  | zero => exact Prog.holds_pure s h
  | succ fuel ih =>
    unfold selectTxs
    split
    · exact Prog.holds_pure s h
    · refine Prog.holds_bind ((selectTx_accounted _ ?_).mono (fun t k ht => ih ht) fun _ he => he)
      exact ⟨h.fees, h.count, h.sigops⟩

theorem chooseTxs_accounted (clock : ℕ → ℤ) (pool : CTxMemPool) :
    (chooseTxs double heap a opts clock pool nHeight).Holds k (fun t _ => Accounted t)
      fun _ => True := by
  unfold chooseTxs
  refine Prog.holds_bind ((Prog.holds_any _ k).mono (fun queue k _ => ?_) fun _ he => he)
  exact selectTxs_accounted _ ⟨rfl, rfl, rfl⟩

end Fees

section Templates

variable {D M : Type} {double : Double D} {heapOps : HeapOps D} {m : Moment D M} {nHeight : ℕ}
  {made t : CBlockTemplate} {nValue : ℤ}

/-- The value of a block is split in the coinbase, whatever the fees are. -/
structure Halved (nHeight : ℕ) (t : CBlockTemplate) (nValue : ℤ) : Prop where
  value : getBlockValue nHeight (totalFees t) = .ok nValue
  coinbase : ∃ script1 script2,
    t.block.vtx.head? = some (newCoinbase script1 script2 (nValue / 2))
  fees : t.vTxFees.length = t.block.vtx.length
  sigops : t.vTxSigOps.length = t.block.vtx.length

theorem fillBlock_halved {a : Around} {horizon : Kgw.Horizon} {script1 script2 : CScript}
    {s : ChainState M} {pindexPrev : Uint256} {adjustedTime : ℤ} {chosen : Assembly D}
    (h : fillBlock a horizon script1 script2 s pindexPrev adjustedTime chosen = .ok t)
    (hchosen : Accounted chosen) : ∃ nValue, Halved (s.height pindexPrev + 1) t nValue := by
  unfold fillBlock at h
  simp only [bind, Except.bind, pure, Except.pure] at h
  split at h
  · cases h
  · rename_i nValue hvalue
    split at h
    · cases h
    · obtain rfl := Except.ok.inj h
      refine ⟨nValue, ?_, ⟨script1, script2, rfl⟩, ?_, ?_⟩
      · rw [totalFees, List.tail_cons, ← hchosen.fees]
        exact hvalue
      · rw [List.length_cons, List.length_cons, hchosen.count]
      · rw [List.length_cons, List.length_cons, hchosen.sigops]

theorem create_halved (h : create double heapOps m = .ok t) :
    ∃ pindexPrev, m.chain.pindexBest = some pindexPrev ∧
      ∃ nValue, Halved (m.chain.height pindexPrev + 1) t nValue := by
  unfold create createNewBlock at h
  cases hbest : m.chain.pindexBest with
  | none =>
    rw [hbest] at h
    cases h
  | some pindexPrev =>
    refine ⟨pindexPrev, rfl, ?_⟩
    simp only [hbest] at h
    split at h
    · cases h
    · rename_i chosen view hrun
      have hchosen := (chooseTxs_accounted m.clock m.pool).of_ok hrun
      split at h
      · cases h
      · rename_i filled hfill
        split at h
        · obtain rfl := Except.ok.inj h
          exact fillBlock_halved hfill hchosen
        · cases h

theorem made_halved {moments : List (Moment D M)} (h : Made double heapOps moments nHeight t) :
    ∃ nValue, Halved nHeight t nValue := by
  obtain ⟨m, _, hmade, pindexPrev, hbest, rfl⟩ := h
  obtain ⟨pindexPrev', hbest', hhalved⟩ := create_halved hmade
  obtain rfl := Option.some.inj (hbest.symm.trans hbest')
  exact hhalved

theorem Made.mono {moments more : List (Moment D M)} (h : Made double heapOps moments nHeight t)
    (hsub : moments ⊆ more) : Made double heapOps more nHeight t := by
  obtain ⟨m, hm, hmade⟩ := h
  exact ⟨m, hsub hm, hmade⟩

theorem Stamped.lists (h : Stamped t made) : t.block.vtx = made.block.vtx ∧
    t.vTxFees = made.vTxFees ∧ t.vTxSigOps = made.vTxSigOps := by
  rcases h with rfl | ⟨nTime, nNonce, rfl⟩
  · exact ⟨rfl, rfl, rfl⟩
  · exact ⟨rfl, rfl, rfl⟩

theorem Stamped.stamp (h : Stamped t made) (nTime nNonce : BitVec 32) :
    Stamped { t with block := setTimeAndNonce t.block nTime nNonce } made := by
  refine Or.inr ⟨nTime, nNonce, ?_⟩
  rcases h with rfl | ⟨nTime', nNonce', rfl⟩
  · rfl
  · simp only [setTimeAndNonce, CBlockHeader.fields_build, CBlockHeader.auxpow_build]

theorem Halved.nValue_eq (h : Halved nHeight t nValue) :
    subsidy nHeight + totalFees t = nValue :=
  int64_eq ((getBlockValue_eq nHeight (totalFees t)).symm.trans h.value)

/-- A half is an int64. -/
theorem Halved.half_value (h : Halved nHeight t nValue) (script : CScript) :
    CTxOut.value ⟨(nValue / 2 : ℤ), script⟩ = nValue / 2 := by
  have hrange : -2 ^ 63 ≤ nValue ∧ nValue < 2 ^ 63 := by
    have hvalue := h.value
    rw [getBlockValue_eq, h.nValue_eq, int64] at hvalue
    split_ifs at hvalue with hrange
    exact hrange
  exact BitVec.toInt_ofInt_eq_self (by decide) (by omega) (by omega)

/-- What is reported is the first half. -/
theorem Shows.value {r : Report} (h : Shows m made r) (hhalved : Halved nHeight made nValue) :
    r.coinbasevalue = nValue / 2 := by
  obtain ⟨pindexPrev, t, hstamped, hreport⟩ := h
  obtain ⟨script1, script2, hcoinbase⟩ := hhalved.coinbase
  rw [← hstamped.lists.1] at hcoinbase
  unfold report at hreport
  rw [hcoinbase, Option.bind_eq_bind, Option.bind_eq_some_iff] at hreport
  obtain ⟨transactions, _, hrest⟩ := hreport
  obtain rfl := Option.some.inj hrest
  exact hhalved.half_value script1

theorem Halved.out (h : Halved nHeight t nValue) : coinbaseOut t = nValue / 2 + nValue / 2 := by
  obtain ⟨script1, script2, hcoinbase⟩ := h.coinbase
  rw [coinbaseOut, hcoinbase, Option.elim_some, valueOut, newCoinbase, List.map_cons, List.map_cons,
    List.map_nil, List.sum_cons, List.sum_cons, List.sum_nil, h.half_value, h.half_value, add_zero]

/-- A half is the whole only of nothing. -/
theorem faithful_iff_zero {r : Report} (hhalved : Halved nHeight made nValue)
    (hshows : Shows m made r) : Faithful nHeight made r ↔ nValue = 0 := by
  have hreported := hshows.value hhalved
  have hout := hhalved.out
  constructor
  · rintro ⟨hvalue, hpaid⟩
    have hfull := Except.ok.inj (hhalved.value.symm.trans hvalue)
    have hsum := Except.ok.inj (hhalved.value.symm.trans hpaid)
    omega
  · rintro rfl
    constructor
    · rw [hreported]
      exact hhalved.value
    · rw [hout]
      exact hhalved.value

end Templates

section Running

variable {D M : Type} {double : Double D} {heapOps : HeapOps D} {made t : CBlockTemplate}

/-- The template that is kept was made in one of the calls, and is there when its parent is. -/
structure Held (double : Double D) (heapOps : HeapOps D) (moments : List (Moment D M))
    (st : Kept) : Prop where
  made : ∀ t, st.pblocktemplate = some t → ∃ nHeight made,
    Made double heapOps moments nHeight made ∧ Stamped t made
  there : st.pindexPrev ≠ none → st.pblocktemplate ≠ none

theorem renew_held {moments : List (Moment D M)} {m : Moment D M} {st : Kept}
    (hm : m ∈ moments) (h : Held double heapOps moments st) :
    Held double heapOps moments (renew double heapOps m st).1 := by
  unfold renew
  split
  · dsimp only
    cases hmade : create double heapOps m with
    | error e => exact ⟨fun t ht => absurd ht (by simp), fun hne => absurd rfl hne⟩
    | ok template =>
      obtain ⟨pindexPrev, hbest, -⟩ := create_halved hmade
      refine ⟨fun t ht => ?_, fun _ => Option.some_ne_none template⟩
      obtain rfl := Option.some.inj ht
      exact ⟨_, template, ⟨m, hm, hmade, pindexPrev, hbest, rfl⟩, Or.inl rfl⟩
  · exact h

theorem answer_held {moments : List (Moment D M)} {m : Moment D M} {st : Kept}
    (h : Held double heapOps moments st) : Held double heapOps moments (answer m st).1 := by
  unfold answer
  split
  · rename_i template pindexPrev htemplate _
    obtain ⟨nHeight, made, hmade, hstamped⟩ := h.made template htemplate
    refine ⟨fun t ht => ?_, fun _ => Option.some_ne_none _⟩
    obtain rfl := Option.some.inj ht
    exact ⟨nHeight, made, hmade, hstamped.stamp _ _⟩
  · exact h

theorem answer_shows {moments : List (Moment D M)} {m : Moment D M} {st : Kept} {r : Report}
    (h : Held double heapOps moments st) (hr : (answer m st).2 = .ok r) :
    ∃ nHeight made, Made double heapOps moments nHeight made ∧ Shows m made r := by
  unfold answer at hr
  split at hr
  · rename_i template pindexPrev htemplate _
    obtain ⟨nHeight, made, hmade, hstamped⟩ := h.made template htemplate
    have hstamp := hstamped.stamp (updateTime (getMedianTimePast m.chain pindexPrev) m.adjustedTime) 0
    refine ⟨nHeight, made, hmade, pindexPrev, _, hstamp, ?_⟩
    dsimp only at hr
    cases hreport : report m.around.env.Hash m.chain pindexPrev _ with
    | none =>
      rw [hreport] at hr
      cases hr
    | some shown =>
      rw [hreport] at hr
      exact congrArg some (Except.ok.inj hr)
  · cases hr

theorem getblocktemplate_held {moments : List (Moment D M)} {m : Moment D M} {st : Kept}
    (mode : Mode) (hm : m ∈ moments) (h : Held double heapOps moments st) :
    Held double heapOps moments (getblocktemplate double heapOps m mode st).1 := by
  unfold getblocktemplate
  split_ifs
  · exact h
  · exact h
  · exact h
  · have hrenewed := renew_held hm h
    split
    · rename_i st' e hrenew
      rw [hrenew] at hrenewed
      exact hrenewed
    · rename_i st' hrenew
      rw [hrenew] at hrenewed
      exact answer_held hrenewed

theorem getblocktemplate_shows {moments : List (Moment D M)} {m : Moment D M} {st : Kept}
    {mode : Mode} {r : Report} (hm : m ∈ moments) (h : Held double heapOps moments st)
    (hr : (getblocktemplate double heapOps m mode st).2 = .ok r) :
    ∃ nHeight made, Made double heapOps moments nHeight made ∧ Shows m made r := by
  unfold getblocktemplate at hr
  split_ifs at hr
  · have hrenewed := renew_held hm h
    split at hr
    · cases hr
    · rename_i st' hrenew
      rw [hrenew] at hrenewed
      exact answer_shows hrenewed hr

/-- Whatever the calls find, the template that is kept is one of theirs. -/
theorem run_held {moments : List (Moment D M)} (inputs : List (Moment D M × Mode)) {st : Kept}
    (hsub : inputs.map Prod.fst ⊆ moments) (h : Held double heapOps moments st) :
    Held double heapOps moments (run (step double heapOps) st inputs) := by
  induction inputs generalizing st with
  | nil => exact h
  | cons input rest ih =>
    rw [List.map_cons, List.cons_subset] at hsub
    exact ih hsub.2 (getblocktemplate_held input.2 hsub.1 h)

theorem init_held (moments : List (Moment D M)) : Held double heapOps moments .init :=
  ⟨fun _ ht => absurd ht (by simp [Kept.init]), fun hne => absurd rfl hne⟩

theorem runs_held (inputs : List (Moment D M × Mode)) (m : Moment D M) :
    Held double heapOps (m :: inputs.map Prod.fst) (run (step double heapOps) .init inputs) :=
  run_held inputs (List.subset_cons_self _ _) (init_held _)

/-- The lists of a template that was made are long enough. -/
theorem entries_some (Hash : List Byte → Uint256) (t : CBlockTemplate) (txs : List CTransaction)
    (i : ℕ) (setTxIndex : Uint256 → Option ℕ) (hfees : i + txs.length ≤ t.vTxFees.length)
    (hsigops : i + txs.length ≤ t.vTxSigOps.length) :
    ∃ l, entries Hash t i setTxIndex txs = some l := by
  induction txs generalizing i setTxIndex with
  | nil => exact ⟨[], rfl⟩
  | cons tx rest ih =>
    rw [List.length_cons] at hfees hsigops
    obtain ⟨later, hlater⟩ := ih (i + 1)
      (Function.update setTxIndex (tx.getHash Hash) (some i)) (by omega) (by omega)
    have hfee : t.vTxFees[i]? = some t.vTxFees[i] := List.getElem?_eq_getElem (by omega)
    have hsigop : t.vTxSigOps[i]? = some t.vTxSigOps[i] := List.getElem?_eq_getElem (by omega)
    simp only [entries, hlater, Option.bind_eq_bind, Option.bind_some]
    split_ifs
    · exact ⟨later, rfl⟩
    · exact ⟨_, by rw [hfee, hsigop]; rfl⟩

theorem report_some {nHeight : ℕ} {nValue : ℤ} (hhalved : Halved nHeight made nValue)
    (hstamped : Stamped t made) (Hash : List Byte → Uint256) (s : ChainState M)
    (pindexPrev : Uint256) : ∃ r, report Hash s pindexPrev t = some r := by
  obtain ⟨hvtx, hfees, hsigops⟩ := hstamped.lists
  obtain ⟨script1, script2, hcoinbase⟩ := hhalved.coinbase
  obtain ⟨l, hl⟩ := entries_some Hash t t.block.vtx 0 (fun _ => none)
    (by rw [hvtx, hfees, hhalved.fees, Nat.zero_add])
    (by rw [hvtx, hsigops, hhalved.sigops, Nat.zero_add])
  rw [← hvtx] at hcoinbase
  rw [report, hl, hcoinbase]
  exact ⟨_, rfl⟩

theorem renew_parent {m : Moment D M} {st st' : Kept}
    (h : renew double heapOps m st = (st', .ok ())) : st'.pindexPrev = m.chain.pindexBest := by
  unfold renew at h
  split at h
  · dsimp only at h
    cases hmade : create double heapOps m with
    | error e =>
      rw [hmade] at h
      cases h
    | ok template =>
      rw [hmade] at h
      cases h
      rfl
  · rename_i hdue
    cases h
    rw [Bool.or_eq_true, not_or, bne_iff_ne, Ne, not_not] at hdue
    exact hdue.1

theorem renew_no_fault {m : Moment D M} {st st' : Kept} {e : RpcError}
    (h : renew double heapOps m st = (st', .error e)) : e ≠ .fault := by
  unfold renew at h
  split at h
  · dsimp only at h
    cases hmade : create double heapOps m with
    | error e' =>
      rw [hmade] at h
      cases h
      simp
    | ok template =>
      rw [hmade] at h
      cases h
  · cases h

theorem answer_no_fault {moments : List (Moment D M)} {m : Moment D M} {st : Kept}
    (h : Held double heapOps moments st) (hparent : st.pindexPrev ≠ none) :
    (answer m st).2 ≠ .error .fault := by
  obtain ⟨template, htemplate⟩ := Option.ne_none_iff_exists'.mp (h.there hparent)
  obtain ⟨pindexPrev, hprev⟩ := Option.ne_none_iff_exists'.mp hparent
  obtain ⟨nHeight, made, hmade, hstamped⟩ := h.made template htemplate
  obtain ⟨nValue, hhalved⟩ := made_halved hmade
  obtain ⟨r, hr⟩ := report_some hhalved (hstamped.stamp
    (updateTime (getMedianTimePast m.chain pindexPrev) m.adjustedTime) 0) m.around.env.Hash m.chain
    pindexPrev
  simp only [answer, htemplate, hprev, hr, Option.elim_some]
  simp

/-- No call uses a template that is not there, or reads behind the end of one. -/
theorem getblocktemplate_no_fault (inputs : List (Moment D M × Mode)) (m : Moment D M)
    (mode : Mode) :
    (getblocktemplate double heapOps m mode (run (step double heapOps) .init inputs)).2 ≠
      .error .fault := by
  have hheld := @runs_held D M double heapOps inputs m
  generalize run (step double heapOps) .init inputs = st at hheld
  have hrenewed := renew_held (List.mem_cons_self ..) hheld
  unfold getblocktemplate
  split_ifs with _ _ hrefused
  · simp
  · simp
  · simp
  · have hbest : m.chain.pindexBest ≠ none := by
      intro hnone
      rw [hnone] at hrefused
      exact hrefused rfl
    split
    · rename_i st' e hrenew
      intro hfault
      exact renew_no_fault hrenew (Except.error.inj hfault)
    · rename_i st' hrenew
      rw [hrenew] at hrenewed
      refine answer_no_fault hrenewed ?_
      rw [renew_parent hrenew]
      exact hbest

end Running

section Reported

variable {D M : Type} (double : Double D) (heapOps : HeapOps D)

/-- In every run of calls, what a call reports is read off a template that one of the calls made.
The value of the block for such a template's height and fees is reported, and is paid out by the
coinbase, exactly if there is nothing to be paid out. -/
theorem coinbasevalue_iff (inputs : List (Moment D M × Mode)) (m : Moment D M) (mode : Mode)
    (r : Report)
    (h : (getblocktemplate double heapOps m mode (run (step double heapOps) .init inputs)).2 =
      .ok r) :
    (∃ nHeight made, Made double heapOps (m :: inputs.map Prod.fst) nHeight made ∧
        Shows m made r) ∧
      ∀ nHeight made, Made double heapOps (m :: inputs.map Prod.fst) nHeight made →
        Shows m made r → (Faithful nHeight made r ↔ subsidy nHeight + totalFees made = 0) := by
  refine ⟨getblocktemplate_shows (List.mem_cons_self ..) (runs_held inputs m) h, ?_⟩
  intro nHeight made hmade hshows
  obtain ⟨nValue, hhalved⟩ := made_halved hmade
  rw [faithful_iff_zero hhalved hshows, hhalved.nValue_eq]

end Reported

section Examples

/-- What the first call finds: the genesis block is the best one, and the pool is empty. -/
def first : Moment ℤ (List CTransaction) := mainMoment genesisChain none

/-- Half of the premined coins. -/
theorem first_reports :
    ∃ r, (getblocktemplate intDouble listHeap first .null .init).2 = .ok r ∧
      r.coinbasevalue = 6000000000000 := by
  have hvalue : (getblocktemplate intDouble listHeap first .null .init).2.toOption.map
      Report.coinbasevalue = some 6000000000000 := by decide +kernel
  cases hr : (getblocktemplate intDouble listHeap first .null .init).2 with
  | error e =>
    rw [hr] at hvalue
    cases hvalue
  | ok r =>
    rw [hr] at hvalue
    exact ⟨r, rfl, Option.some.inj hvalue⟩

theorem coinbasevalue_first :
    ∃ r nHeight made, Made intDouble listHeap [first] nHeight made ∧ Shows first made r ∧
      (Faithful nHeight made r ↔ subsidy nHeight + totalFees made = 0) := by
  obtain ⟨r, hr, -⟩ := first_reports
  obtain ⟨⟨nHeight, made, hmade, hshows⟩, hiff⟩ :=
    coinbasevalue_iff intDouble listHeap [] first .null r hr
  exact ⟨r, nHeight, made, hmade, hshows, hiff nHeight made hmade hshows⟩

theorem half_reported :
    ¬ ∀ (inputs : List (Moment ℤ (List CTransaction) × Mode))
      (m : Moment ℤ (List CTransaction)) (mode : Mode) (r : Report),
      (getblocktemplate intDouble listHeap m mode
        (run (step intDouble listHeap) .init inputs)).2 = .ok r →
      ∀ nHeight made, Made intDouble listHeap (m :: inputs.map Prod.fst) nHeight made →
        Shows m made r → Faithful nHeight made r := by
  intro hall
  obtain ⟨r, hr, hvalue⟩ := first_reports
  obtain ⟨nHeight, made, hmade, hshows⟩ :=
    getblocktemplate_shows (List.mem_cons_self ..) (runs_held [] first) hr
  obtain ⟨nValue, hhalved⟩ := made_halved hmade
  have hzero := (faithful_iff_zero hhalved hshows).mp (hall [] first .null r hr _ _ hmade hshows)
  have hreported := hshows.value hhalved
  omega

end Examples

end UmbrellaLtc.CoinbaseValue
