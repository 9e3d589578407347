import UmbrellaLtc.Script
import UmbrellaLtc.CodecPrefix

/-!
SignatureHash of script.cpp. A copy of the transaction is edited as the hash type says
and written with the hash type behind it. Which parts of the transaction are left in
the copy is stated as a relation between two transactions: two that agree have the same
copy, and since the bytes determine the copy, equal hashes mean that they agree.
-/

namespace UmbrellaLtc.SignatureHash

open Codec Transaction Script

def OP_CODESEPARATOR : ℕ := 0xab

def SIGHASH_ALL : BitVec 32 := 1
def SIGHASH_NONE : BitVec 32 := 2
def SIGHASH_SINGLE : BitVec 32 := 3
def SIGHASH_ANYONECANPAY : BitVec 32 := 0x80

section Deleting

/-- `while (end() - pc >= (long)b.size() && memcmp(...) == 0) erase(...)`: how often, and
what is left. -/
def eraseFront (b : CScript) : ℕ → CScript → ℕ × CScript
  | 0, pc => (0, pc)
  | fuel + 1, pc =>
      if b.isPrefixOf pc then
        let (nFound, pc) := eraseFront b fuel (pc.drop b.length)
        (nFound + 1, pc)
      else (0, pc)

/-- The loop of FindAndDelete from an iterator on; the script before it stays. -/
def deleteFrom (b : CScript) : ℕ → CScript → ℕ × CScript
  | 0, pc => (0, pc)
  | fuel + 1, pc =>
      let (nFound, pc) := eraseFront b pc.length pc
      match getOp2 pc with
      | none => (nFound, pc)
      | some (_, _, rest) =>
          let (n, tail) := deleteFrom b fuel rest
          (nFound + n, pc.take (pc.length - rest.length) ++ tail)

/-- CScript::FindAndDelete: what it returns, and the script afterwards. -/
def findAndDelete (s b : CScript) : ℕ × CScript :=
  if b.isEmpty then (0, s) else deleteFrom b (s.length + 1) s

/-- `scriptCode.FindAndDelete(CScript(OP_CODESEPARATOR))`. -/
def withoutSeparators (scriptCode : CScript) : CScript :=
  (findAndDelete scriptCode [BitVec.ofNat 8 OP_CODESEPARATOR]).2

end Deleting

section Copy

/-- Every scriptSig is blanked out, and the script code put in the place of one. -/
def blankSignatures (scriptCode : CScript) (nIn : ℕ) (vin : List CTxIn) : List CTxIn :=
  vin.mapIdx fun i txin => { txin with scriptSig := if i = nIn then scriptCode else [] }

/-- Let the others update at will. -/
def releaseSequences (nIn : ℕ) (vin : List CTxIn) : List CTxIn :=
  vin.mapIdx fun i txin => if i ≠ nIn then { txin with nSequence := 0 } else txin

/-- `vout.resize(nOut+1)` of more outputs than that, and SetNull before the last. -/
def lockInOutput (nOut : ℕ) (vout : List CTxOut) : List CTxOut :=
  (vout.take (nOut + 1)).mapIdx fun i txout => if i < nOut then .null else txout

/-- Which of the outputs are blanked out. -/
inductive OutputMode where
  | none
  | single
  | all
deriving DecidableEq

def outputMode (nHashType : BitVec 32) : OutputMode :=
  if nHashType &&& 0x1f = SIGHASH_NONE then .none
  else if nHashType &&& 0x1f = SIGHASH_SINGLE then .single
  else .all

def anyoneCanPay (nHashType : BitVec 32) : Bool := nHashType &&& SIGHASH_ANYONECANPAY != 0

/-- `vin[0] = vin[nIn]; vin.resize(1);` -/
def onlyInput (nIn : ℕ) (vin : List CTxIn) : List CTxIn := vin[nIn]?.toList

/-- txTmp as it is written; `none` where the function returns one instead. -/
def txTmp (scriptCode : CScript) (txTo : CTransaction) (nIn : ℕ) (nHashType : BitVec 32) :
    Option CTransaction :=
  if txTo.vin.length ≤ nIn then none
  else
    let vin := blankSignatures (withoutSeparators scriptCode) nIn txTo.vin
    let pay := fun vin => if anyoneCanPay nHashType then onlyInput nIn vin else vin
    match outputMode nHashType with
    | .none => some { txTo with vin := pay (releaseSequences nIn vin), vout := [] }
    | .single =>
        if txTo.vout.length ≤ nIn then none
        else some { txTo with
          vin := pay (releaseSequences nIn vin), vout := lockInOutput nIn txTo.vout }
    | .all => some { txTo with vin := pay vin }

/-- What is hashed: `ss << txTmp << nHashType`. -/
def hashedBytes (txTmp : CTransaction) (nHashType : BitVec 32) : List Byte :=
  CTransaction.codec.write txTmp ++ uint32.write nHashType

def signatureHash (Hash : List Byte → Uint256) (scriptCode : CScript) (txTo : CTransaction)
    (nIn : ℕ) (nHashType : BitVec 32) : Uint256 :=
  match txTmp scriptCode txTo nIn nHashType with
  | none => 1
  | some tx => Hash (hashedBytes tx nHashType)

end Copy

section Commitment

/-- The two transactions agree in what a signature over the input at `nIn` commits to. No
scriptSig is among it. -/
structure Agree (nIn : ℕ) (nHashType : BitVec 32) (tx tx' : CTransaction) : Prop where
  nVersion : tx.nVersion = tx'.nVersion
  nLockTime : tx.nLockTime = tx'.nLockTime
  prevout : (tx.vin[nIn]?).map CTxIn.prevout = (tx'.vin[nIn]?).map CTxIn.prevout
  nSequence : (tx.vin[nIn]?).map CTxIn.nSequence = (tx'.vin[nIn]?).map CTxIn.nSequence
  prevouts : anyoneCanPay nHashType = false →
    tx.vin.map CTxIn.prevout = tx'.vin.map CTxIn.prevout
  nSequences : anyoneCanPay nHashType = false → outputMode nHashType = .all →
    tx.vin.map CTxIn.nSequence = tx'.vin.map CTxIn.nSequence
  vout : outputMode nHashType = .all → tx.vout = tx'.vout
  txout : outputMode nHashType = .single → tx.vout[nIn]? = tx'.vout[nIn]?

variable {nIn : ℕ} {vin vin' : List CTxIn} {c c' : CScript}

/-- The inputs in the copy, all modes in one: the sequences of the others are kept when
`keep` says so. -/
def blanked (keep : Bool) (scriptCode : CScript) (nIn : ℕ) (vin : List CTxIn) : List CTxIn :=
  vin.mapIdx fun i txin =>
    ⟨txin.prevout, if i = nIn then scriptCode else [],
      if i = nIn ∨ keep = true then txin.nSequence else 0⟩

theorem blankSignatures_eq : blankSignatures c nIn vin = blanked true c nIn vin := by
  unfold blankSignatures blanked
  simp

theorem releaseSequences_eq :
    releaseSequences nIn (blankSignatures c nIn vin) = blanked false c nIn vin := by
  unfold releaseSequences blankSignatures blanked
  rw [List.mapIdx_mapIdx]
  congr 1
  funext i txin
  by_cases hi : i = nIn <;> simp [hi]

theorem blanked_getElem? (keep : Bool) (i : ℕ) :
    (blanked keep c nIn vin)[i]? = vin[i]?.map fun txin =>
      ⟨txin.prevout, if i = nIn then c else [],
        if i = nIn ∨ keep = true then txin.nSequence else 0⟩ := by
  unfold blanked
  rw [List.getElem?_mapIdx]

theorem map_prevout_blanked (keep : Bool) :
    (blanked keep c nIn vin).map CTxIn.prevout = vin.map CTxIn.prevout := by
  apply List.ext_getElem?
  intro i
  rw [List.getElem?_map, List.getElem?_map, blanked_getElem?, Option.map_map]
  rfl

theorem map_nSequence_blanked :
    (blanked true c nIn vin).map CTxIn.nSequence = vin.map CTxIn.nSequence := by
  apply List.ext_getElem?
  intro i
  rw [List.getElem?_map, List.getElem?_map, blanked_getElem?, Option.map_map]
  simp only [or_true, if_true]
  rfl

/-- The signed input as it stands in the copy. -/
theorem onlyInput_blanked_iff (keep : Bool) (hlt : nIn < vin.length) (hlt' : nIn < vin'.length) :
    onlyInput nIn (blanked keep c nIn vin) = onlyInput nIn (blanked keep c' nIn vin') ↔
      c = c' ∧ vin[nIn]?.map CTxIn.prevout = vin'[nIn]?.map CTxIn.prevout ∧
        vin[nIn]?.map CTxIn.nSequence = vin'[nIn]?.map CTxIn.nSequence := by
  unfold onlyInput
  rw [blanked_getElem?, blanked_getElem?, List.getElem?_eq_getElem hlt,
    List.getElem?_eq_getElem hlt']
  simp only [Option.map_some, Option.toList_some, List.cons.injEq, CTxIn.mk.injEq, if_true,
    true_or, and_true, Option.some.injEq]
  tauto

/-- All inputs as they stand in the copy. -/
theorem blanked_iff (keep : Bool) (hlt : nIn < vin.length) (hlt' : nIn < vin'.length) :
    blanked keep c nIn vin = blanked keep c' nIn vin' ↔
      (c = c' ∧ vin[nIn]?.map CTxIn.prevout = vin'[nIn]?.map CTxIn.prevout ∧
        vin[nIn]?.map CTxIn.nSequence = vin'[nIn]?.map CTxIn.nSequence) ∧
      vin.map CTxIn.prevout = vin'.map CTxIn.prevout ∧
      (keep = true → vin.map CTxIn.nSequence = vin'.map CTxIn.nSequence) := by
  constructor
  · intro heq
    refine ⟨(onlyInput_blanked_iff keep hlt hlt').mp (congrArg _ heq), ?_, ?_⟩
    · have hmap := congrArg (List.map CTxIn.prevout) heq
      rwa [map_prevout_blanked, map_prevout_blanked] at hmap
    · rintro rfl
      have hmap := congrArg (List.map CTxIn.nSequence) heq
      rwa [map_nSequence_blanked, map_nSequence_blanked] at hmap
  · rintro ⟨⟨rfl, -, hseq⟩, hprevouts, hseqs⟩
    apply List.ext_getElem?
    intro i
    have hprevout := congrArg (·[i]?) hprevouts
    simp only [List.getElem?_map] at hprevout
    have hkept : i = nIn ∨ keep = true →
        vin[i]?.map CTxIn.nSequence = vin'[i]?.map CTxIn.nSequence := by
      rintro (rfl | hkeep)
      · exact hseq
      · have hmap := congrArg (·[i]?) (hseqs hkeep)
        simpa only [List.getElem?_map] using hmap
    rw [blanked_getElem?, blanked_getElem?]
    cases hi : vin[i]? with
    | none =>
      rw [hi] at hprevout
      cases hi' : vin'[i]? with
      | none => rfl
      | some txin' =>
        rw [hi'] at hprevout
        cases hprevout
    | some txin =>
      rw [hi] at hprevout hkept
      cases hi' : vin'[i]? with
      | none =>
        rw [hi'] at hprevout
        cases hprevout
      | some txin' =>
        rw [hi'] at hprevout hkept
        simp only [Option.map_some, Option.some.injEq] at hprevout hkept ⊢
        rw [hprevout]
        by_cases hsame : i = nIn ∨ keep = true
        · rw [if_pos hsame, if_pos hsame, hkept hsame]
        · rw [if_neg hsame, if_neg hsame]

theorem lockInOutput_getElem? {vout : List CTxOut} (hlt : nIn < vout.length) (i : ℕ) :
    (lockInOutput nIn vout)[i]? =
      if i < nIn then some .null else if i = nIn then vout[nIn]? else none := by
  unfold lockInOutput
  rw [List.getElem?_mapIdx, List.getElem?_take]
  by_cases hless : i < nIn
  · rw [if_pos (by omega), if_pos hless, List.getElem?_eq_getElem (by omega), Option.map_some,
      if_pos hless]
  · by_cases hsame : i = nIn
    · rw [if_pos (by omega), if_neg hless, if_pos hsame, hsame, List.getElem?_eq_getElem hlt,
        Option.map_some, if_neg (by omega)]
    · rw [if_neg (by omega), if_neg hless, if_neg hsame]
      rfl

theorem lockInOutput_iff {vout vout' : List CTxOut} (hlt : nIn < vout.length)
    (hlt' : nIn < vout'.length) :
    lockInOutput nIn vout = lockInOutput nIn vout' ↔ vout[nIn]? = vout'[nIn]? := by
  constructor
  · intro heq
    have hat := congrArg (·[nIn]?) heq
    simpa [lockInOutput_getElem? hlt, lockInOutput_getElem? hlt'] using hat
  · intro heq
    apply List.ext_getElem?
    intro i
    rw [lockInOutput_getElem? hlt, lockInOutput_getElem? hlt', heq]

/-- The inputs of the copy, under either setting of ANYONECANPAY. -/
theorem paid_iff (nHashType : BitVec 32) (keep : Bool) (hlt : nIn < vin.length)
    (hlt' : nIn < vin'.length) :
    (if anyoneCanPay nHashType then onlyInput nIn (blanked keep c nIn vin)
      else blanked keep c nIn vin) =
      (if anyoneCanPay nHashType then onlyInput nIn (blanked keep c' nIn vin')
        else blanked keep c' nIn vin') ↔
      (c = c' ∧ vin[nIn]?.map CTxIn.prevout = vin'[nIn]?.map CTxIn.prevout ∧
        vin[nIn]?.map CTxIn.nSequence = vin'[nIn]?.map CTxIn.nSequence) ∧
      (anyoneCanPay nHashType = false → vin.map CTxIn.prevout = vin'.map CTxIn.prevout) ∧
      (anyoneCanPay nHashType = false → keep = true →
        vin.map CTxIn.nSequence = vin'.map CTxIn.nSequence) := by
  cases hpay : anyoneCanPay nHashType with
  | true =>
    rw [if_pos rfl, if_pos rfl, onlyInput_blanked_iff keep hlt hlt']
    exact ⟨fun h => ⟨h, nofun, nofun⟩, fun h => h.1⟩
  | false =>
    rw [if_neg Bool.false_ne_true, if_neg Bool.false_ne_true, blanked_iff keep hlt hlt']
    exact ⟨fun h => ⟨h.1, fun _ => h.2.1, fun _ => h.2.2⟩, fun h => ⟨h.1, h.2.1 rfl, h.2.2 rfl⟩⟩

/-- Two copies are equal exactly when the transactions agree and the script codes do. -/
theorem txTmp_iff {scriptCode scriptCode' : CScript} {tx tx' t t' : CTransaction}
    {nHashType : BitVec 32} (ht : txTmp scriptCode tx nIn nHashType = some t)
    (ht' : txTmp scriptCode' tx' nIn nHashType = some t') :
    t = t' ↔ withoutSeparators scriptCode = withoutSeparators scriptCode' ∧
      Agree nIn nHashType tx tx' := by
  unfold txTmp at ht ht'
  by_cases hlt : nIn < tx.vin.length
  swap
  · rw [if_pos (by omega)] at ht
    cases ht
  by_cases hlt' : nIn < tx'.vin.length
  swap
  · rw [if_pos (by omega)] at ht'
    cases ht'
  rw [if_neg (by omega)] at ht ht'
  dsimp only at ht ht'
  cases hmode : outputMode nHashType with
  | none =>
    rw [hmode] at ht ht'
    dsimp only at ht ht'
    rw [releaseSequences_eq] at ht ht'
    obtain rfl := Option.some.inj ht
    obtain rfl := Option.some.inj ht'
    rw [CTransaction.mk.injEq, paid_iff nHashType false hlt hlt']
    constructor
    · rintro ⟨hversion, ⟨⟨hcode, hprevout, hseq⟩, hprevouts, -⟩, -, hlock⟩
      exact ⟨hcode, hversion, hlock, hprevout, hseq, hprevouts, by simp [hmode], by simp [hmode],
        by simp [hmode]⟩
    · rintro ⟨hcode, h⟩
      exact ⟨h.nVersion, ⟨⟨hcode, h.prevout, h.nSequence⟩, h.prevouts, nofun⟩, rfl, h.nLockTime⟩
  | single =>
    rw [hmode] at ht ht'
    dsimp only at ht ht'
    rw [releaseSequences_eq] at ht ht'
    by_cases hout : nIn < tx.vout.length
    swap
    · rw [if_pos (by omega)] at ht
      cases ht
    by_cases hout' : nIn < tx'.vout.length
    swap
    · rw [if_pos (by omega)] at ht'
      cases ht'
    rw [if_neg (by omega)] at ht ht'
    obtain rfl := Option.some.inj ht
    obtain rfl := Option.some.inj ht'
    rw [CTransaction.mk.injEq, paid_iff nHashType false hlt hlt',
      lockInOutput_iff hout hout']
    constructor
    · rintro ⟨hversion, ⟨⟨hcode, hprevout, hseq⟩, hprevouts, -⟩, htxout, hlock⟩
      exact ⟨hcode, hversion, hlock, hprevout, hseq, hprevouts, by simp [hmode], by simp [hmode],
        fun _ => htxout⟩
    · rintro ⟨hcode, h⟩
      exact ⟨h.nVersion, ⟨⟨hcode, h.prevout, h.nSequence⟩, h.prevouts, nofun⟩, h.txout hmode,
        h.nLockTime⟩
  | all =>
    rw [hmode] at ht ht'
    dsimp only at ht ht'
    rw [blankSignatures_eq] at ht ht'
    obtain rfl := Option.some.inj ht
    obtain rfl := Option.some.inj ht'
    rw [CTransaction.mk.injEq, paid_iff nHashType true hlt hlt']
    constructor
    · rintro ⟨hversion, ⟨⟨hcode, hprevout, hseq⟩, hprevouts, hseqs⟩, hvout, hlock⟩
      exact ⟨hcode, hversion, hlock, hprevout, hseq, hprevouts, fun hpay _ => hseqs hpay rfl,
        fun _ => hvout, by simp [hmode]⟩
    · rintro ⟨hcode, h⟩
      exact ⟨h.nVersion, ⟨⟨hcode, h.prevout, h.nSequence⟩, h.prevouts,
        fun hpay _ => h.nSequences hpay hmode⟩, h.vout hmode, h.nLockTime⟩

end Commitment

section Bytes

theorem compactSize_delimits : compactSize.Delimits fun n => n < 2 ^ 64 := by
  intro n m rest rest' hn hm heq
  obtain ⟨ch, body, hwrite, hread⟩ := writeCompactSize_cases hn
  obtain ⟨ch', body', hwrite', hread'⟩ := writeCompactSize_cases hm
  change writeCompactSize n ++ rest = writeCompactSize m ++ rest' at heq
  rw [hwrite, hwrite', List.cons_append, List.cons_append, List.cons.injEq] at heq
  have hback := hread rest
  rw [heq.1, heq.2, hread' rest'] at hback
  obtain ⟨hval, hrest⟩ := Prod.mk.inj (Option.some.inj hback)
  exact ⟨hval.symm, hrest.symm⟩

/-- The sizes of the vectors fit into a size_t. -/
def CTransaction.Sized (tx : CTransaction) : Prop :=
  (tx.vin.length < 2 ^ 64 ∧ ∀ txin ∈ tx.vin, txin.scriptSig.length < 2 ^ 64) ∧
    tx.vout.length < 2 ^ 64 ∧ ∀ txout ∈ tx.vout, txout.scriptPubKey.length < 2 ^ 64

theorem transaction_delimits : CTransaction.codec.Delimits CTransaction.Sized := by
  have hword32 : uint32.Delimits fun _ => True := bits_delimits 4 32 rfl
  have hscript : script.Delimits fun s => s.length < 2 ^ 64 ∧ ∀ b ∈ s, True :=
    compactSize_delimits.counted (bits_delimits 1 8 rfl)
  have hprevout : COutPoint.codec.Delimits fun o => True ∧ True :=
    ((bits_delimits 32 256 rfl).pair hword32).iso _ _ _ _
  have htxin : CTxIn.codec.Delimits _ := (hprevout.pair (hscript.pair hword32)).iso _ _ _ _
  have htxout : CTxOut.codec.Delimits _ := ((bits_delimits 8 64 rfl).pair hscript).iso _ _ _ _
  have htx : CTransaction.codec.Delimits _ :=
    (hword32.pair ((compactSize_delimits.counted htxin).pair
      ((compactSize_delimits.counted htxout).pair hword32))).iso _ _ _ _
  intro tx tx' rest rest' h h' heq
  refine htx tx tx' rest rest' ?_ ?_ heq
  · exact ⟨trivial, ⟨h.1.1, fun txin hi => ⟨⟨trivial, trivial⟩, ⟨h.1.2 txin hi, by simp⟩,
      trivial⟩⟩, ⟨h.2.1, fun txout ho => ⟨trivial, h.2.2 txout ho, by simp⟩⟩, trivial⟩
  · exact ⟨trivial, ⟨h'.1.1, fun txin hi => ⟨⟨trivial, trivial⟩, ⟨h'.1.2 txin hi, by simp⟩,
      trivial⟩⟩, ⟨h'.2.1, fun txout ho => ⟨trivial, h'.2.2 txout ho, by simp⟩⟩, trivial⟩

/-- What is hashed determines the copy and the hash type. -/
theorem hashedBytes_inj {t t' : CTransaction} {nHashType nHashType' : BitVec 32}
    (ht : CTransaction.Sized t) (ht' : CTransaction.Sized t')
    (heq : hashedBytes t nHashType = hashedBytes t' nHashType') :
    t = t' ∧ nHashType = nHashType' := by
  obtain ⟨htx, hrest⟩ := transaction_delimits t t' _ _ ht ht' heq
  have hword : uint32.Delimits fun _ => True := bits_delimits 4 32 rfl
  refine ⟨htx, (hword nHashType nHashType' [] [] trivial trivial ?_).1⟩
  rw [List.append_nil, List.append_nil]
  exact hrest

theorem eraseFront_length (b : CScript) (fuel : ℕ) (pc : CScript) :
    (eraseFront b fuel pc).2.length ≤ pc.length := by
  induction fuel generalizing pc with
  | zero => exact le_refl _
  | succ fuel ih =>
    unfold eraseFront
    split_ifs with hfront
    · have hle := ih (pc.drop b.length)
      rw [List.length_drop] at hle
      dsimp only
      omega
    · exact le_refl _

theorem deleteFrom_length (b : CScript) (fuel : ℕ) (pc : CScript) :
    (deleteFrom b fuel pc).2.length ≤ pc.length := by
  induction fuel generalizing pc with
  | zero => exact le_refl _
  | succ fuel ih =>
    have hfront := eraseFront_length b pc.length pc
    unfold deleteFrom
    dsimp only
    cases hop : getOp2 (eraseFront b pc.length pc).2 with
    | none => exact hfront
    | some r =>
      obtain ⟨opcode, data, rest⟩ := r
      have hrest := ih rest
      have hshort := getOp2_shorter hop
      dsimp only
      rw [List.length_append, List.length_take]
      omega

theorem withoutSeparators_length (scriptCode : CScript) :
    (withoutSeparators scriptCode).length ≤ scriptCode.length := by
  unfold withoutSeparators findAndDelete
  exact deleteFrom_length ..

/-- The sizes that a copy takes over. -/
def SizedFor (scriptCode : CScript) (tx : CTransaction) : Prop :=
  scriptCode.length < 2 ^ 64 ∧ tx.vin.length < 2 ^ 64 ∧ tx.vout.length < 2 ^ 64 ∧
    ∀ txout ∈ tx.vout, txout.scriptPubKey.length < 2 ^ 64

theorem blanked_sized {nIn : ℕ} {c : CScript} (vin : List CTxIn) (keep : Bool)
    (hc : c.length < 2 ^ 64) :
    (blanked keep c nIn vin).length = vin.length ∧
      ∀ txin ∈ blanked keep c nIn vin, txin.scriptSig.length < 2 ^ 64 := by
  refine ⟨List.length_mapIdx, fun txin hmem => ?_⟩
  obtain ⟨i, hi, rfl⟩ := List.mem_mapIdx.mp hmem
  dsimp only
  split_ifs
  · exact hc
  · exact Nat.two_pow_pos 64

theorem paid_sized {nIn : ℕ} {vin : List CTxIn} (nHashType : BitVec 32)
    (hlen : vin.length < 2 ^ 64) (hvin : ∀ txin ∈ vin, txin.scriptSig.length < 2 ^ 64) :
    (if anyoneCanPay nHashType then onlyInput nIn vin else vin).length < 2 ^ 64 ∧
      ∀ txin ∈ (if anyoneCanPay nHashType then onlyInput nIn vin else vin),
        txin.scriptSig.length < 2 ^ 64 := by
  split_ifs with hpay
  · unfold onlyInput
    cases hi : vin[nIn]? with
    | none => simp
    | some txin =>
      have hmem := hvin txin (List.mem_of_getElem? hi)
      simpa using hmem
  · exact ⟨hlen, hvin⟩

theorem lockInOutput_sized {nIn : ℕ} {vout : List CTxOut} (hlen : vout.length < 2 ^ 64)
    (hvout : ∀ txout ∈ vout, txout.scriptPubKey.length < 2 ^ 64) :
    (lockInOutput nIn vout).length < 2 ^ 64 ∧
      ∀ txout ∈ lockInOutput nIn vout, txout.scriptPubKey.length < 2 ^ 64 := by
  unfold lockInOutput
  refine ⟨?_, fun txout hmem => ?_⟩
  · rw [List.length_mapIdx, List.length_take]
    omega
  · obtain ⟨i, hi, rfl⟩ := List.mem_mapIdx.mp hmem
    split_ifs
    · exact Nat.two_pow_pos 64
    · exact hvout _ (List.mem_of_mem_take (List.getElem_mem hi))

theorem txTmp_sized {scriptCode : CScript} {tx t : CTransaction} {nIn : ℕ}
    {nHashType : BitVec 32} (hsized : SizedFor scriptCode tx)
    (ht : txTmp scriptCode tx nIn nHashType = some t) : CTransaction.Sized t := by
  obtain ⟨hcode, hvin, hvout⟩ := hsized
  have hshort := withoutSeparators_length scriptCode
  have hblanked := fun keep => @blanked_sized nIn (withoutSeparators scriptCode) tx.vin keep
    (by omega)
  have hpaid := fun keep => @paid_sized nIn (blanked keep (withoutSeparators scriptCode) nIn tx.vin)
    nHashType (by rw [(hblanked keep).1]; exact hvin) (hblanked keep).2
  unfold txTmp at ht
  by_cases hin : tx.vin.length ≤ nIn
  · rw [if_pos hin] at ht
    cases ht
  rw [if_neg hin] at ht
  dsimp only at ht
  cases hmode : outputMode nHashType with
  | none =>
    rw [hmode] at ht
    dsimp only at ht
    rw [releaseSequences_eq] at ht
    obtain rfl := Option.some.inj ht
    exact ⟨hpaid false, Nat.two_pow_pos 64, fun _ h => absurd h List.not_mem_nil⟩
  | single =>
    rw [hmode] at ht
    dsimp only at ht
    rw [releaseSequences_eq] at ht
    by_cases hout : tx.vout.length ≤ nIn
    · rw [if_pos hout] at ht
      cases ht
    rw [if_neg hout] at ht
    obtain rfl := Option.some.inj ht
    exact ⟨hpaid false, lockInOutput_sized hvout.1 hvout.2⟩
  | all =>
    rw [hmode] at ht
    dsimp only at ht
    rw [blankSignatures_eq] at ht
    obtain rfl := Option.some.inj ht
    exact ⟨hpaid true, hvout⟩

end Bytes

section Hashes

variable (Hash : List Byte → Uint256)

/-- The two strings that are hashed do not collide. -/
def NoCollision (nIn : ℕ) (scriptCode : CScript) (tx : CTransaction) (nHashType : BitVec 32)
    (scriptCode' : CScript) (tx' : CTransaction) (nHashType' : BitVec 32) : Prop :=
  ∀ t ∈ txTmp scriptCode tx nIn nHashType, ∀ t' ∈ txTmp scriptCode' tx' nIn nHashType',
    Hash (hashedBytes t nHashType) = Hash (hashedBytes t' nHashType') →
      hashedBytes t nHashType = hashedBytes t' nHashType'

variable {Hash}

theorem signatureHash_ne_one {nIn : ℕ} {scriptCode : CScript} {tx : CTransaction}
    {nHashType : BitVec 32} (h : signatureHash Hash scriptCode tx nIn nHashType ≠ 1) :
    ∃ t, txTmp scriptCode tx nIn nHashType = some t ∧
      signatureHash Hash scriptCode tx nIn nHashType = Hash (hashedBytes t nHashType) := by
  unfold signatureHash at h ⊢
  cases ht : txTmp scriptCode tx nIn nHashType with
  | none =>
    rw [ht] at h
    exact absurd rfl h
  | some t => exact ⟨t, rfl, rfl⟩

end Hashes

/-- Where no error is returned, the hash depends on the script code without separators,
the hash type and what transactions agree in, and on nothing else; and where the two
hashed strings do not collide, equal hashes mean equal hash types and script codes and
transactions that agree. -/
theorem signatureHash_commits (Hash : List Byte → Uint256) (nIn : ℕ)
    (scriptCode scriptCode' : CScript) (tx tx' : CTransaction) (nHashType nHashType' : BitVec 32)
    (hone : signatureHash Hash scriptCode tx nIn nHashType ≠ 1)
    (hone' : signatureHash Hash scriptCode' tx' nIn nHashType' ≠ 1) :
    (withoutSeparators scriptCode = withoutSeparators scriptCode' → nHashType = nHashType' →
      Agree nIn nHashType tx tx' →
      signatureHash Hash scriptCode tx nIn nHashType =
        signatureHash Hash scriptCode' tx' nIn nHashType') ∧
    (SizedFor scriptCode tx → SizedFor scriptCode' tx' →
      NoCollision Hash nIn scriptCode tx nHashType scriptCode' tx' nHashType' →
      signatureHash Hash scriptCode tx nIn nHashType =
        signatureHash Hash scriptCode' tx' nIn nHashType' →
      nHashType = nHashType' ∧ withoutSeparators scriptCode = withoutSeparators scriptCode' ∧
        Agree nIn nHashType tx tx') := by
  obtain ⟨t, ht, hhash⟩ := signatureHash_ne_one hone
  obtain ⟨t', ht', hhash'⟩ := signatureHash_ne_one hone'
  rw [hhash, hhash']
  constructor
  · rintro hcode rfl hagree
    rw [(txTmp_iff ht ht').mpr ⟨hcode, hagree⟩]
  · intro hsized hsized' hfree heq
    obtain ⟨rfl, rfl⟩ := hashedBytes_inj (txTmp_sized hsized ht) (txTmp_sized hsized' ht')
      (hfree t ht t' ht' heq)
    exact ⟨rfl, (txTmp_iff ht ht').mp rfl⟩

/-- A transaction with one input and one output. -/
def signedTx (scriptSig : CScript) : CTransaction :=
  ⟨1, [⟨⟨0x11, 0⟩, scriptSig, 0xffffffff⟩], [⟨100, [0x51]⟩], 0⟩

/-- The double SHA-256 of its copy. -/
def signedHash (bs : List Byte) : Uint256 :=
  ([(hashedBytes (signedTx [0x51, 0xac]) SIGHASH_ALL,
    0x97bbf827815268a75bc08df890dd4ec9821a7888f6f3c54c5bf37c7f4a151f1e)].lookup bs).getD 0

/-- Two signatures in the same transaction, over script codes that differ in a separator. -/
theorem signedTx_commits :
    signatureHash signedHash [0x51, 0xab, 0xac] (signedTx [0x00]) 0 SIGHASH_ALL =
        signatureHash signedHash [0x51, 0xac] (signedTx [0x01, 0x02]) 0 SIGHASH_ALL ∧
      Agree 0 SIGHASH_ALL (signedTx [0x00]) (signedTx [0x01, 0x02]) := by
  have hcommits := signatureHash_commits signedHash 0 [0x51, 0xab, 0xac] [0x51, 0xac]
    (signedTx [0x00]) (signedTx [0x01, 0x02]) SIGHASH_ALL SIGHASH_ALL
    (by decide +kernel) (by decide +kernel)
  have hequal := hcommits.1 (by decide +kernel) rfl
    ⟨rfl, rfl, rfl, rfl, fun _ => rfl, fun _ _ => rfl, fun _ => rfl, fun _ => rfl⟩
  refine ⟨hequal, (hcommits.2 ?_ ?_ ?_ hequal).2.2⟩
  · exact ⟨by decide, by decide, by decide, by simp [signedTx]⟩
  · exact ⟨by decide, by decide, by decide, by simp [signedTx]⟩
  · unfold NoCollision
    intro t ht t' ht' _
    have hsame : txTmp [0x51, 0xab, 0xac] (signedTx [0x00]) 0 SIGHASH_ALL =
        txTmp [0x51, 0xac] (signedTx [0x01, 0x02]) 0 SIGHASH_ALL := by decide +kernel
    rw [hsame] at ht
    rw [Option.mem_unique ht ht']

end UmbrellaLtc.SignatureHash
