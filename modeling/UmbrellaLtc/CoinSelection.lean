import UmbrellaLtc.CheckBlock
import UmbrellaLtc.MachineInt
import UmbrellaLtc.Runs
import UmbrellaLtc.SelectedSum
import Mathlib.Algebra.BigOperators.Group.Finset.Basic

/-!
ApproximateBestSubset and CWallet::SelectCoinsMinConf of wallet.cpp. Amounts are int64; an
operation on them that overflows, or an access outside of a vector, is `none`. What the shuffle,
the sort and the random bits come out as is an argument.
-/

namespace UmbrellaLtc.CoinSelection

open Transaction MachineInt Runs SelectedSum

section Model

abbrev int64 := Signed 63

def CENT : ℤ := 1000000

/-- std::numeric_limits<int64>::max(). -/
def int64Max : int64 := ⟨2 ^ 63 - 1, by decide⟩

theorem inRange_value (txout : CTxOut) : InRange 63 txout.value := by
  have hlow := BitVec.le_toInt txout.nValue
  have hhigh := BitVec.toInt_lt (x := txout.nValue)
  exact ⟨hlow, hhigh⟩

/-- nValue. -/
def amount (txout : CTxOut) : int64 := ⟨txout.value, inRange_value txout⟩

/-- A wallet transaction as the selection reads it. -/
structure CWalletTx where
  tx : CTransaction
  isFromMe : Bool

variable {Ptr : Type} [DecidableEq Ptr]

structure COutput (Ptr : Type) where
  tx : Ptr
  i : ℕ
  nDepth : ℤ

/-- The pointer and the index of an output. -/
def COutput.out (output : COutput Ptr) : Ptr × ℕ := (output.tx, output.i)

/-- `pair<int64, pair<const CWalletTx*, unsigned int> >`. -/
structure Coin (Ptr : Type) where
  value : int64
  out : Ptr × ℕ

/-- The random choices of a call: the shuffle, the order in which the sort leaves equal values,
and insecure_rand() & 1, by call of ApproximateBestSubset, repetition and coin. -/
structure Random (Ptr : Type) where
  shuffle : List (COutput Ptr) → List (COutput Ptr)
  shuffle_perm : ∀ l, (shuffle l).Perm l
  sort : List (Coin Ptr) → List (Coin Ptr)
  sort_perm : ∀ l, (sort l).Perm l
  sort_descending : ∀ l, (sort l).Pairwise fun a b => b.value.1 ≤ a.value.1
  insecureRand : ℕ → ℕ → ℕ → Bool

/-- The variables of ApproximateBestSubset. -/
structure Search where
  nTotal : int64
  vfIncluded : List Bool
  fReachedTarget : Bool
  nBest : int64
  vfBest : List Bool

/-- A coin that is taken for a trial, and given back where it reaches the target. -/
def takeCoin (nTargetValue : int64) (s : Search) (i : ℕ) (coin : Coin Ptr) : Option Search := do
  let nTotal ← machine 63 (s.nTotal.1 + coin.value.1)
  let vfIncluded := s.vfIncluded.set i true
  if nTotal.1 ≥ nTargetValue.1 then
    let best := if nTotal.1 < s.nBest.1 then (nTotal, vfIncluded) else (s.nBest, s.vfBest)
    let nTotal ← machine 63 (nTotal.1 - coin.value.1)
    return ⟨nTotal, vfIncluded.set i false, true, best.1, best.2⟩
  else return { s with nTotal := nTotal, vfIncluded := vfIncluded }

/-- The first pass takes the coins of the random bits. -/
def firstPass (nTargetValue : int64) (bits : ℕ → Bool) (s : Search) (x : Coin Ptr × ℕ) :
    Option Search :=
  if bits x.2 then takeCoin nTargetValue s x.2 x.1 else some s

/-- The second pass takes the others. -/
def secondPass (nTargetValue : int64) (s : Search) (x : Coin Ptr × ℕ) : Option Search := do
  if !(← s.vfIncluded[x.2]?) then takeCoin nTargetValue s x.2 x.1 else return s

def repetition (vValue : List (Coin Ptr)) (nTargetValue : int64) (bits : ℕ → Bool) (s : Search) :
    Option Search := do
  let s ← vValue.zipIdx.foldlM (firstPass nTargetValue bits)
    { s with
      nTotal := 0
      vfIncluded := List.replicate vValue.length false
      fReachedTarget := false }
  if s.fReachedTarget then return s
  else vValue.zipIdx.foldlM (secondPass nTargetValue) s

def repetitions (vValue : List (Coin Ptr)) (nTargetValue : int64) (bits : ℕ → ℕ → Bool) :
    ℕ → Search → Option Search
  | 0, s => some s
  | n + 1, s =>
      if s.nBest.1 ≠ nTargetValue.1 then do
        repetitions vValue nTargetValue bits n (← repetition vValue nTargetValue (bits n) s)
      else some s

/-- ApproximateBestSubset: vfBest and nBest. -/
def approximateBestSubset (vValue : List (Coin Ptr)) (nTotalLower nTargetValue : int64)
    (bits : ℕ → ℕ → Bool) (iterations : ℕ) : Option (List Bool × int64) := do
  let vfBest := List.replicate vValue.length true
  let s ← repetitions vValue nTargetValue bits iterations ⟨0, [], false, nTotalLower, vfBest⟩
  return (s.vfBest, s.nBest)

/-- coinLowestLarger, whose pointer may be null, with vValue and nTotalLower. -/
structure Lower (Ptr : Type) where
  first : int64 := int64Max
  second : Option (Ptr × ℕ) := none
  vValue : List (Coin Ptr) := []
  nTotalLower : int64 := 0

variable (txs : Ptr → CWalletTx) (nTargetValue : int64) (nConfMine nConfTheirs : ℤ)

/-- `output.nDepth < (pcoin->IsFromMe() ? nConfMine : nConfTheirs)`. -/
def tooNew (output : COutput Ptr) : Bool :=
  output.nDepth < if (txs output.tx).isFromMe then nConfMine else nConfTheirs

/-- A coin that matches exactly ends the loop; another one goes to the lower ones, or may be the
lowest of the larger ones. -/
def scanCoin (coin : Coin Ptr) (s : Lower Ptr) : Option (Coin Ptr ⊕ Lower Ptr) :=
  if coin.value.1 = nTargetValue.1 then some (.inl coin)
  else do
    if coin.value.1 < (← machine 63 (nTargetValue.1 + CENT)).1 then
      let nTotalLower ← machine 63 (s.nTotalLower.1 + coin.value.1)
      return .inr { s with vValue := s.vValue ++ [coin], nTotalLower := nTotalLower }
    else if coin.value.1 < s.first.1 then
      return .inr { s with first := coin.value, second := some coin.out }
    else return .inr s

/-- The loop over the shuffled outputs. -/
def scanOutputs : List (COutput Ptr) → Lower Ptr → Option (Coin Ptr ⊕ Lower Ptr)
  | [], s => some (.inr s)
  | output :: rest, s =>
      if tooNew txs nConfMine nConfTheirs output then scanOutputs rest s
      else do
        let n := amount (← (txs output.tx).tx.vout[output.i]?)
        match ← scanCoin nTargetValue ⟨n, output.out⟩ s with
        | .inl coin => return .inl coin
        | .inr s => scanOutputs rest s

/-- The answer, setCoinsRet and nValueRet. -/
structure Selection (Ptr : Type) where
  answer : Bool
  setCoinsRet : Finset (Ptr × ℕ)
  nValueRet : int64

/-- `setCoinsRet.insert(coin.second); nValueRet += coin.first`. -/
def addCoin (ret : Selection Ptr) (coin : Coin Ptr) : Option (Selection Ptr) := do
  return { ret with
    setCoinsRet := insert coin.out ret.setCoinsRet
    nValueRet := ← machine 63 (ret.nValueRet.1 + coin.value.1) }

/-- The coins of vValue whose flag is set. -/
def addBest (vfBest : List Bool) (ret : Selection Ptr) (x : Coin Ptr × ℕ) :
    Option (Selection Ptr) := do
  if ← vfBest[x.2]? then addCoin ret x.1 else return ret

/-- The two runs of the search, the second for change of a cent or more. -/
def solveSubset (insecureRand : ℕ → ℕ → ℕ → Bool) (vValue : List (Coin Ptr))
    (nTotalLower : int64) : Option (List Bool × int64) := do
  let best ← approximateBestSubset vValue nTotalLower nTargetValue (insecureRand 0) 1000
  if best.2.1 ≠ nTargetValue.1 then
    let nTargetCent ← machine 63 (nTargetValue.1 + CENT)
    if nTotalLower.1 ≥ nTargetCent.1 then
      approximateBestSubset vValue nTotalLower nTargetCent (insecureRand 1) 1000
    else return best
  else return best

/-- Is the bigger coin to be returned? -/
def takeLarger (first nBest : int64) : Option Bool := do
  let nearTarget ← if nBest.1 ≠ nTargetValue.1 then
      (machine 63 (nTargetValue.1 + CENT)).map fun nTargetCent => decide (nBest.1 < nTargetCent.1)
    else some false
  return nearTarget || decide (first.1 ≤ nBest.1)

/-- What follows the loop over the outputs. -/
def selectFrom (r : Random Ptr) (s : Lower Ptr) : Option (Selection Ptr) := do
  let ret : Selection Ptr := ⟨true, ∅, 0⟩
  if s.nTotalLower.1 = nTargetValue.1 then s.vValue.foldlM addCoin ret
  else if s.nTotalLower.1 < nTargetValue.1 then
    match s.second with
    | none => return { ret with answer := false }
    | some out => addCoin ret ⟨s.first, out⟩
  else
    let vValue := r.sort s.vValue
    let (vfBest, nBest) ← solveSubset nTargetValue r.insecureRand vValue s.nTotalLower
    match s.second with
    | none => vValue.zipIdx.foldlM (addBest vfBest) ret
    | some out =>
        if ← takeLarger nTargetValue s.first nBest then addCoin ret ⟨s.first, out⟩
        else vValue.zipIdx.foldlM (addBest vfBest) ret

/-- CWallet::SelectCoinsMinConf. -/
def selectCoinsMinConf (r : Random Ptr) (vCoins : List (COutput Ptr)) :
    Option (Selection Ptr) := do
  match ← scanOutputs txs nTargetValue nConfMine nConfTheirs (r.shuffle vCoins) {} with
  | .inl coin => addCoin ⟨true, ∅, 0⟩ coin
  | .inr s => selectFrom nTargetValue r s

end Model

/-! The search: the sums belong to the flags at every step. -/

section Searching

variable {Ptr : Type} {vValue : List (Coin Ptr)} {nTargetValue : int64} {s : Search}

def worth (coin : Coin Ptr) : ℤ := coin.value.1

/-- The best choice so far reaches the target, and nBest is what it is worth. -/
structure BestRight (vValue : List (Coin Ptr)) (nTargetValue : int64) (s : Search) : Prop where
  bestLength : s.vfBest.length = vValue.length
  bestSum : s.nBest.1 = total worth (selected vValue s.vfBest)
  reaches : nTargetValue.1 ≤ s.nBest.1

/-- The trial choice as well is worth what nTotal says. -/
structure TrialRight (vValue : List (Coin Ptr)) (nTargetValue : int64) (s : Search) : Prop
    extends BestRight vValue nTargetValue s where
  length : s.vfIncluded.length = vValue.length
  sum : s.nTotal.1 = total worth (selected vValue s.vfIncluded)

/-- Coins whose amounts can be added up in an int64. -/
structure Summable (vValue : List (Coin Ptr)) : Prop where
  nonneg : ∀ coin ∈ vValue, 0 ≤ worth coin
  bounded : total worth vValue < 2 ^ 63

theorem Summable.inRange_selected (h : Summable vValue) (flags : List Bool) :
    InRange 63 (total worth (selected vValue flags)) := by
  have hle := total_le_of_sublist (@selected_sublist _ vValue flags) h.nonneg
  have hnonneg : 0 ≤ total worth (selected vValue flags) :=
    total_nonneg fun a ha => h.nonneg a (selected_sublist.mem ha)
  have hbound := h.bounded
  unfold InRange
  omega

theorem takeCoin_right (hsum : Summable vValue) (h : TrialRight vValue nTargetValue s) {i : ℕ}
    {coin : Coin Ptr} (hcoin : vValue[i]? = some coin) (hoff : s.vfIncluded[i]? = some false) :
    ∃ s', takeCoin nTargetValue s i coin = some s' ∧ TrialRight vValue nTargetValue s' ∧
      ∀ j, j ≠ i → s'.vfIncluded[j]? = s.vfIncluded[j]? := by
  have htotal : total worth (selected vValue (s.vfIncluded.set i true)) =
      s.nTotal.1 + worth coin := by
    rw [total_selected_set_true hcoin hoff, h.sum]
  have hrange := hsum.inRange_selected (s.vfIncluded.set i true)
  rw [htotal] at hrange
  have hother : ∀ j, j ≠ i → (s.vfIncluded.set i true)[j]? = s.vfIncluded[j]? := fun j hj =>
    List.getElem?_set_ne hj.symm
  have hadd : machine 63 (s.nTotal.1 + coin.value.1) = some ⟨_, hrange⟩ := machine_eq hrange
  have hback : s.nTotal.1 + worth coin - coin.value.1 = s.nTotal.1 := add_sub_cancel_right _ _
  unfold takeCoin
  rw [hadd, Option.bind_eq_bind, Option.bind_some]
  dsimp only
  split_ifs with hreach hbest
  · rw [hback, machine_eq s.nTotal.2, Option.bind_some, set_true_false hoff]
    exact ⟨_, rfl, ⟨⟨by simpa using h.length, htotal.symm, hreach⟩, h.length, h.sum⟩,
      fun _ _ => rfl⟩
  · rw [hback, machine_eq s.nTotal.2, Option.bind_some, set_true_false hoff]
    exact ⟨_, rfl, ⟨⟨h.bestLength, h.bestSum, h.reaches⟩, h.length, h.sum⟩, fun _ _ => rfl⟩
  · exact ⟨_, rfl, ⟨⟨h.bestLength, h.bestSum, h.reaches⟩, by simpa using h.length, htotal.symm⟩,
      hother⟩

theorem getElem?_of_zipIdx {α : Type} {l : List α} {done later : List (α × ℕ)} {x : α × ℕ}
    (h : l.zipIdx = done ++ x :: later) : x.2 = done.length ∧ l[x.2]? = some x.1 := by
  have hx : l.zipIdx[done.length]? = some x := by simp [h]
  rw [List.getElem?_zipIdx, Option.map_eq_some_iff] at hx
  obtain ⟨a, ha, hax⟩ := hx
  rw [← hax]
  exact ⟨by simp, by simpa using ha⟩

/-- A repetition keeps the best choice right. -/
theorem repetition_right (hsum : Summable vValue) (h : BestRight vValue nTargetValue s)
    (bits : ℕ → Bool) :
    ∃ s', repetition vValue nTargetValue bits s = some s' ∧ BestRight vValue nTargetValue s' := by
  have hfirst : ∃ s', vValue.zipIdx.foldlM (firstPass nTargetValue bits) { s with
        nTotal := 0
        vfIncluded := List.replicate vValue.length false
        fReachedTarget := false } = some s' ∧ TrialRight vValue nTargetValue s' ∧
      ∀ j, vValue.zipIdx.length ≤ j → j < vValue.length → s'.vfIncluded[j]? = some false := by
    refine @exists_foldlM _ _ (firstPass nTargetValue bits) (fun done s' =>
      TrialRight vValue nTargetValue s' ∧ ∀ j, done.length ≤ j → j < vValue.length →
        s'.vfIncluded[j]? = some false) _ _ ⟨⟨⟨h.bestLength, h.bestSum, h.reaches⟩, ?_, ?_⟩, ?_⟩ ?_
    · simp
    · rw [selected_none]
      rfl
    · intro j _ hj
      simp [hj]
    · rintro done x s' ⟨later, hsplit⟩ ⟨hright, hoff⟩
      obtain ⟨hindex, hcoin⟩ := getElem?_of_zipIdx hsplit
      have hlt : x.2 < vValue.length := (List.getElem?_eq_some_iff.mp hcoin).1
      unfold firstPass
      split_ifs with hbit
      · obtain ⟨s'', htake, hright', hother⟩ := takeCoin_right hsum hright hcoin
          (hoff x.2 (by omega) hlt)
        refine ⟨s'', htake, hright', fun j hj hjlt => ?_⟩
        rw [List.length_append, List.length_singleton] at hj
        rw [hother j (by omega)]
        exact hoff j (by omega) hjlt
      · refine ⟨s', rfl, hright, fun j hj hjlt => hoff j ?_ hjlt⟩
        rw [List.length_append] at hj
        omega
  obtain ⟨s₁, hrun₁, hright₁, -⟩ := hfirst
  have hsecond : ∃ s', vValue.zipIdx.foldlM (secondPass nTargetValue) s₁ = some s' ∧
      TrialRight vValue nTargetValue s' := by
    refine @exists_foldlM _ _ (secondPass nTargetValue)
      (fun _ s' => TrialRight vValue nTargetValue s') _ _ hright₁ ?_
    rintro done x s' ⟨later, hsplit⟩ hright
    obtain ⟨-, hcoin⟩ := getElem?_of_zipIdx hsplit
    have hlt : x.2 < s'.vfIncluded.length := by
      rw [hright.length]
      exact (List.getElem?_eq_some_iff.mp hcoin).1
    unfold secondPass
    rw [List.getElem?_eq_getElem hlt, Option.bind_eq_bind, Option.bind_some]
    cases hflag : s'.vfIncluded[x.2] with
    | true => exact ⟨s', rfl, hright⟩
    | false =>
      have hoff : s'.vfIncluded[x.2]? = some false := by rw [List.getElem?_eq_getElem hlt, hflag]
      obtain ⟨s'', htake, hright', -⟩ := takeCoin_right hsum hright hcoin hoff
      exact ⟨s'', htake, hright'⟩
  obtain ⟨s₂, hrun₂, hright₂⟩ := hsecond
  unfold repetition
  rw [hrun₁, Option.bind_eq_bind, Option.bind_some]
  split_ifs with hreached
  · exact ⟨s₁, rfl, hright₁.toBestRight⟩
  · exact ⟨s₂, hrun₂, hright₂.toBestRight⟩

theorem repetitions_right (hsum : Summable vValue) (h : BestRight vValue nTargetValue s)
    (bits : ℕ → ℕ → Bool) (n : ℕ) :
    ∃ s', repetitions vValue nTargetValue bits n s = some s' ∧
      BestRight vValue nTargetValue s' := by
  induction n generalizing s with
  | zero => exact ⟨s, rfl, h⟩
  | succ n ih =>
    unfold repetitions
    split_ifs with hbest
    · obtain ⟨s₁, hrun, h₁⟩ := repetition_right hsum h (bits n)
      rw [hrun, Option.bind_eq_bind, Option.bind_some]
      exact ih h₁
    · exact ⟨s, rfl, h⟩

/-- What ApproximateBestSubset finds when all coins together reach the target: a choice that does
so too, and what it is worth. -/
def FindsSubset (vValue : List (Coin Ptr)) (nTargetValue : int64) (best : List Bool × int64) :
    Prop :=
  best.1.length = vValue.length ∧ best.2.1 = total worth (selected vValue best.1) ∧
    nTargetValue.1 ≤ best.2.1

theorem approximateBestSubset_finds (hsum : Summable vValue) {nTotalLower : int64}
    (htotal : nTotalLower.1 = total worth vValue) (hreach : nTargetValue.1 ≤ nTotalLower.1)
    (bits : ℕ → ℕ → Bool) (iterations : ℕ) :
    ∃ best, approximateBestSubset vValue nTotalLower nTargetValue bits iterations = some best ∧
      FindsSubset vValue nTargetValue best := by
  have hstart : BestRight vValue nTargetValue
      ⟨0, [], false, nTotalLower, List.replicate vValue.length true⟩ :=
    ⟨by simp, by rw [selected_all]; exact htotal, hreach⟩
  obtain ⟨s, hrun, h⟩ := repetitions_right hsum hstart bits iterations
  refine ⟨(s.vfBest, s.nBest), ?_, h.bestLength, h.bestSum, h.reaches⟩
  rw [approximateBestSubset, hrun]
  rfl

end Searching

/-! The loop over the outputs: the coins below the limit, and the lowest of the others. -/

section Scanning

variable {Ptr : Type} (txs : Ptr → CWalletTx) (nTargetValue : int64)
  (nConfMine nConfTheirs : ℤ)

/-- The amount of an output; of one that does not exist, zero. -/
def amountAt (out : Ptr × ℕ) : int64 := ((txs out.1).tx.vout[out.2]?).elim 0 amount

def coinOf (output : COutput Ptr) : Coin Ptr := ⟨amountAt txs output.out, output.out⟩

/-- The eligible coins: those that the confirmation settings do not rule out. -/
def eligible (vCoins : List (COutput Ptr)) : List (Coin Ptr) :=
  (vCoins.filter fun output => !tooNew txs nConfMine nConfTheirs output).map (coinOf txs)

def isLower (coin : Coin Ptr) : Bool := worth coin < nTargetValue.1 + CENT

def Exist (vCoins : List (COutput Ptr)) : Prop :=
  ∀ output ∈ vCoins, output.i < (txs output.tx).tx.vout.length

instance (vCoins : List (COutput Ptr)) : Decidable (Exist txs vCoins) :=
  inferInstanceAs (Decidable (∀ output ∈ vCoins, _))

/-- What the loop has made of the coins so far, none of which matches exactly. -/
structure Scanned (past : List (Coin Ptr)) (s : Lower Ptr) : Prop where
  noExact : ∀ coin ∈ past, worth coin ≠ nTargetValue.1
  vValue : s.vValue = past.filter (isLower nTargetValue)
  nTotalLower : s.nTotalLower.1 = total worth s.vValue
  noLarger : s.second = none → s.first = int64Max ∧ ∀ coin ∈ past, isLower nTargetValue coin = true
  larger : ∀ out, s.second = some out →
    (⟨s.first, out⟩ : Coin Ptr) ∈ past ∧ isLower nTargetValue ⟨s.first, out⟩ = false

variable {txs nTargetValue nConfMine nConfTheirs}

theorem isLower_iff {coin : Coin Ptr} :
    isLower nTargetValue coin = true ↔ worth coin < nTargetValue.1 + CENT := decide_eq_true_iff

theorem inRange_cent (htarget : nTargetValue.1 + CENT < 2 ^ 63) :
    InRange 63 (nTargetValue.1 + CENT) := by
  have hlow := nTargetValue.2.1
  unfold CENT at htarget ⊢
  exact ⟨by omega, htarget⟩

theorem scanCoin_scanned (htarget : nTargetValue.1 + CENT < 2 ^ 63) {past : List (Coin Ptr)}
    {s : Lower Ptr} (h : Scanned nTargetValue past s) {coin : Coin Ptr}
    (hmax : worth coin < 2 ^ 63 - 1)
    (hsum : Summable ((past ++ [coin]).filter (isLower nTargetValue))) :
    ∃ res, scanCoin nTargetValue coin s = some res ∧
      (worth coin = nTargetValue.1 ∧ res = .inl coin ∨
        ∃ s', res = .inr s' ∧ Scanned nTargetValue (past ++ [coin]) s') := by
  have hlimit := inRange_cent htarget
  unfold scanCoin
  rw [machine_eq hlimit, Option.bind_eq_bind, Option.bind_some]
  dsimp only
  split_ifs with hexact hlower hfirst
  · exact ⟨_, rfl, Or.inl ⟨hexact, rfl⟩⟩
  · -- one of the lower coins
    have hmem : isLower nTargetValue coin = true := isLower_iff.mpr hlower
    have hvalues : (past ++ [coin]).filter (isLower nTargetValue) = s.vValue ++ [coin] := by
      rw [List.filter_append, h.vValue, List.filter_cons_of_pos hmem, List.filter_nil]
    rw [hvalues] at hsum
    have htotal : s.nTotalLower.1 + coin.value.1 = total worth (s.vValue ++ [coin]) := by
      rw [total_concat, h.nTotalLower]
      rfl
    have hrange : InRange 63 (s.nTotalLower.1 + coin.value.1) := by
      have hnonneg := total_nonneg hsum.nonneg
      have hbound := hsum.bounded
      rw [htotal]
      exact ⟨by omega, hbound⟩
    rw [machine_eq hrange]
    refine ⟨_, rfl, Or.inr ⟨_, rfl, ?_, hvalues.symm, htotal, ?_, ?_⟩⟩
    · intro c hc
      obtain hc | hc := List.mem_append.mp hc
      · exact h.noExact c hc
      · rw [List.mem_singleton.mp hc]
        exact hexact
    · intro hnone
      refine ⟨(h.noLarger hnone).1, fun c hc => ?_⟩
      obtain hc | hc := List.mem_append.mp hc
      · exact (h.noLarger hnone).2 c hc
      · rw [List.mem_singleton.mp hc]
        exact hmem
    · intro out hout
      exact ⟨List.mem_append_left _ (h.larger out hout).1, (h.larger out hout).2⟩
  all_goals
    have hmem : isLower nTargetValue coin = false := by
      rw [← Bool.not_eq_true, isLower_iff]
      exact hlower
    have hvalues : (past ++ [coin]).filter (isLower nTargetValue) = s.vValue := by
      rw [List.filter_append, h.vValue, List.filter_cons_of_neg (by simp [hmem]), List.filter_nil,
        List.append_nil]
    have hno : ∀ c ∈ past ++ [coin], worth c ≠ nTargetValue.1 := by
      intro c hc
      obtain hc | hc := List.mem_append.mp hc
      · exact h.noExact c hc
      · rw [List.mem_singleton.mp hc]
        exact hexact
  · refine ⟨_, rfl, Or.inr ⟨_, rfl, hno, hvalues.symm, h.nTotalLower, by simp, ?_⟩⟩
    intro out hout
    simp only [Option.some.injEq] at hout
    rw [← hout]
    exact ⟨List.mem_append_right _ (List.mem_singleton_self coin), hmem⟩
  · refine ⟨_, rfl, Or.inr ⟨s, rfl, hno, hvalues.symm, h.nTotalLower, ?_, ?_⟩⟩
    · -- the first of the larger coins is below the greatest amount
      intro hnone
      rw [(h.noLarger hnone).1] at hfirst
      exact (hfirst hmax).elim
    · intro out hout
      exact ⟨List.mem_append_left _ (h.larger out hout).1, (h.larger out hout).2⟩

theorem Summable.of_sublist {l l' : List (Coin Ptr)} (h : Summable l) (hsub : l'.Sublist l) :
    Summable l' :=
  ⟨fun coin hcoin => h.nonneg coin (hsub.mem hcoin),
    (total_le_of_sublist hsub h.nonneg).trans_lt h.bounded⟩

/-- The loop ends: at a coin that matches exactly, or with all coins scanned. -/
theorem scanOutputs_scanned (htarget : nTargetValue.1 + CENT < 2 ^ 63) (l : List (COutput Ptr))
    {past : List (Coin Ptr)} {s : Lower Ptr} (h : Scanned nTargetValue past s)
    (hexist : Exist txs l)
    (hmax : ∀ coin ∈ eligible txs nConfMine nConfTheirs l, worth coin < 2 ^ 63 - 1)
    (hsum : Summable ((past ++ eligible txs nConfMine nConfTheirs l).filter
      (isLower nTargetValue))) :
    ∃ res, scanOutputs txs nTargetValue nConfMine nConfTheirs l s = some res ∧
      ((∃ coin ∈ eligible txs nConfMine nConfTheirs l,
          worth coin = nTargetValue.1 ∧ res = .inl coin) ∨
        ∃ s', res = .inr s' ∧
          Scanned nTargetValue (past ++ eligible txs nConfMine nConfTheirs l) s') := by
  induction l generalizing past s with
  | nil =>
    refine ⟨_, rfl, Or.inr ⟨s, rfl, ?_⟩⟩
    simpa [eligible] using h
  | cons output rest ih =>
    have hexist' : Exist txs rest := fun o ho => hexist o (List.mem_cons_of_mem _ ho)
    unfold scanOutputs
    by_cases hnew : tooNew txs nConfMine nConfTheirs output = true
    · have hskip : eligible txs nConfMine nConfTheirs (output :: rest) =
          eligible txs nConfMine nConfTheirs rest := by
        simp [eligible, hnew]
      rw [hskip] at hmax hsum ⊢
      rw [if_pos hnew]
      exact ih h hexist' hmax hsum
    · rw [if_neg hnew]
      obtain ⟨txout, hout⟩ : ∃ txout, (txs output.tx).tx.vout[output.i]? = some txout :=
        ⟨_, List.getElem?_eq_getElem (hexist output (List.mem_cons_self ..))⟩
      have hcoin : coinOf txs output = ⟨amount txout, output.out⟩ := by
        simp [coinOf, amountAt, COutput.out, hout]
      have hhead : eligible txs nConfMine nConfTheirs (output :: rest) =
          [⟨amount txout, output.out⟩] ++ eligible txs nConfMine nConfTheirs rest := by
        simp [eligible, hnew, hcoin]
      rw [hhead] at hmax hsum ⊢
      rw [← List.append_assoc] at hsum ⊢
      obtain ⟨res, hscan, hres⟩ := scanCoin_scanned htarget h
        (hmax _ (List.mem_append_left _ (List.mem_singleton_self _)))
        (hsum.of_sublist ((List.sublist_append_left _ _).filter _))
      rw [hout, Option.bind_eq_bind, Option.bind_some]
      dsimp only
      rw [hscan, Option.bind_eq_bind, Option.bind_some]
      obtain ⟨hexact, rfl⟩ | ⟨s', rfl, h'⟩ := hres
      · exact ⟨_, rfl, Or.inl ⟨_, List.mem_append_left _ (List.mem_singleton_self _), hexact, rfl⟩⟩
      · obtain ⟨res, hrun, hres⟩ := ih h' hexist'
          (fun coin hcoin => hmax coin (List.mem_append_right _ hcoin)) hsum
        refine ⟨res, hrun, hres.imp ?_ id⟩
        rintro ⟨coin, hcoin, hexact⟩
        exact ⟨coin, List.mem_append_right _ hcoin, hexact⟩

end Scanning

/-! What is returned: a set of eligible coins with the sum of their values. -/

section Selecting

variable {Ptr : Type} {nTargetValue : int64}

theorem solveSubset_finds {vValue : List (Coin Ptr)} (hsum : Summable vValue)
    (htarget : nTargetValue.1 + CENT < 2 ^ 63) {nTotalLower : int64}
    (htotal : nTotalLower.1 = total worth vValue) (hreach : nTargetValue.1 ≤ nTotalLower.1)
    (insecureRand : ℕ → ℕ → ℕ → Bool) :
    ∃ best, solveSubset nTargetValue insecureRand vValue nTotalLower = some best ∧
      FindsSubset vValue nTargetValue best := by
  obtain ⟨best, hrun, hfinds⟩ :=
    approximateBestSubset_finds hsum htotal hreach (insecureRand 0) 1000
  have hcent := inRange_cent htarget
  unfold solveSubset
  rw [hrun, Option.bind_eq_bind, Option.bind_some, machine_eq hcent]
  split_ifs with hbest
  · rw [Option.bind_eq_bind, Option.bind_some]
    split_ifs with hmore
    · obtain ⟨best', hrun', hlength, hvalue, hreach'⟩ :=
        @approximateBestSubset_finds _ _ ⟨nTargetValue.1 + CENT, hcent⟩ hsum _ htotal hmore
          (insecureRand 1) 1000
      refine ⟨best', hrun', hlength, hvalue, ?_⟩
      dsimp only [CENT] at hreach'
      omega
    · exact ⟨best, rfl, hfinds⟩
  · exact ⟨best, rfl, hfinds⟩

theorem takeLarger_total (htarget : nTargetValue.1 + CENT < 2 ^ 63) (first nBest : int64) :
    ∃ b, takeLarger nTargetValue first nBest = some b := by
  have hcent := inRange_cent htarget
  unfold takeLarger
  rw [machine_eq hcent]
  split_ifs
  · exact ⟨_, rfl⟩
  · exact ⟨_, rfl⟩

variable [DecidableEq Ptr]

/-- The selection consists of these coins. -/
structure Consists (coins : List (Coin Ptr)) (ret : Selection Ptr) : Prop where
  answer : ret.answer = true
  outs : ret.setCoinsRet = (coins.map Coin.out).toFinset
  value : ret.nValueRet.1 = total worth coins

theorem addCoins_consists {coins : List (Coin Ptr)} (hsum : Summable coins) :
    ∃ ret, coins.foldlM addCoin ⟨true, ∅, 0⟩ = some ret ∧ Consists coins ret := by
  refine @exists_foldlM _ _ addCoin (fun done ret => Consists done ret) coins _
    ⟨rfl, rfl, rfl⟩ ?_
  rintro done coin ret ⟨later, hsplit⟩ h
  have hprefix : (done ++ [coin]).Sublist coins := by
    have hcoins : coins = done ++ [coin] ++ later := by simp [hsplit]
    rw [hcoins]
    exact List.sublist_append_left _ _
  have hdone := hsum.of_sublist hprefix
  have hvalue : ret.nValueRet.1 + coin.value.1 = total worth (done ++ [coin]) := by
    rw [total_concat, h.value]
    rfl
  have hrange : InRange 63 (ret.nValueRet.1 + coin.value.1) := by
    have hnonneg := total_nonneg hdone.nonneg
    have hbound := hdone.bounded
    rw [hvalue]
    exact ⟨by omega, hbound⟩
  refine ⟨⟨ret.answer, insert coin.out ret.setCoinsRet, _, hrange⟩, ?_, h.answer, ?_, hvalue⟩
  · rw [addCoin, machine_eq hrange]
    rfl
  · dsimp only
    rw [h.outs]
    ext out
    simp

theorem addBest_eq (vValue : List (Coin Ptr)) {vfBest : List Bool} (ret : Selection Ptr) (k : ℕ)
    (hlen : vfBest.length = vValue.length + k) :
    (vValue.zipIdx k).foldlM (addBest vfBest) ret =
      (selected vValue (vfBest.drop k)).foldlM addCoin ret := by
  induction vValue generalizing ret k with
  | nil => rfl
  | cons coin rest ih =>
    have hk : k < vfBest.length := by
      rw [hlen, List.length_cons]
      omega
    rw [List.zipIdx_cons, List.foldlM_cons, addBest, List.getElem?_eq_getElem hk,
      List.drop_eq_getElem_cons hk]
    have hrest := fun ret' => ih ret' (k + 1) (by rw [hlen, List.length_cons]; omega)
    cases hflag : vfBest[k] with
    | true =>
      simp only [selected, if_true, List.foldlM_cons, Option.bind_eq_bind, Option.bind_some]
      exact congrArg _ (funext hrest)
    | false =>
      simp only [selected, Option.bind_eq_bind, Option.bind_some]
      exact hrest ret

/-- What SelectCoinsMinConf is to do with the eligible coins `all`: fail exactly where they do not
reach the target, and else select some of them that do. -/
structure SelectedRight (all : List (Coin Ptr)) (nTargetValue : int64) (ret : Selection Ptr) :
    Prop where
  fails : ret.answer = false ↔ total worth all < nTargetValue.1
  selects : ret.answer = true → ∃ coins, Consists coins ret ∧ coins.Subperm all ∧
    nTargetValue.1 ≤ ret.nValueRet.1

theorem selectedRight_of_consists {all coins : List (Coin Ptr)} {ret : Selection Ptr}
    (hnonneg : ∀ coin ∈ all, 0 ≤ worth coin) (hsub : coins.Subperm all) (h : Consists coins ret)
    (hreach : nTargetValue.1 ≤ total worth coins) : SelectedRight all nTargetValue ret := by
  obtain ⟨coins', hperm, hsub'⟩ := hsub
  have hle := total_le_of_sublist hsub' hnonneg
  rw [total_perm hperm] at hle
  refine ⟨?_, fun _ => ⟨coins, h, ⟨coins', hperm, hsub'⟩, h.value ▸ hreach⟩⟩
  rw [h.answer]
  exact iff_of_false (by simp) (by omega)

theorem singleton_right {all : List (Coin Ptr)} (hnonneg : ∀ coin ∈ all, 0 ≤ worth coin)
    {coin : Coin Ptr} (hmem : coin ∈ all) (hreach : nTargetValue.1 ≤ worth coin) :
    ∃ ret, addCoin ⟨true, ∅, 0⟩ coin = some ret ∧ SelectedRight all nTargetValue ret := by
  have hbound : worth coin < 2 ^ 63 := coin.value.2.2
  have hsum : Summable [coin] := by
    refine ⟨fun c hc => ?_, by simpa using hbound⟩
    rw [List.mem_singleton.mp hc]
    exact hnonneg coin hmem
  obtain ⟨ret, hrun, h⟩ := addCoins_consists hsum
  refine ⟨ret, ?_, selectedRight_of_consists hnonneg (List.singleton_subperm_iff.mpr hmem) h ?_⟩
  · simpa using hrun
  · simpa using hreach

/-- After the scan, each of the ways out is right. -/
theorem selectFrom_right (htarget : nTargetValue.1 + CENT < 2 ^ 63) {all : List (Coin Ptr)}
    {s : Lower Ptr} (h : Scanned nTargetValue all s) (hnonneg : ∀ coin ∈ all, 0 ≤ worth coin)
    (hsum : Summable (all.filter (isLower nTargetValue))) (r : Random Ptr) :
    ∃ ret, selectFrom nTargetValue r s = some ret ∧ SelectedRight all nTargetValue ret := by
  rw [← h.vValue] at hsum
  have hsub : s.vValue.Sublist all := by
    rw [h.vValue]
    exact List.filter_sublist
  have hlarger : ∀ out, s.second = some out →
      ∃ ret, addCoin ⟨true, ∅, 0⟩ ⟨s.first, out⟩ = some ret ∧
        SelectedRight all nTargetValue ret := by
    intro out hout
    obtain ⟨hmem, hlower⟩ := h.larger out hout
    refine singleton_right hnonneg hmem ?_
    rw [← Bool.not_eq_true, isLower_iff] at hlower
    unfold CENT at hlower
    omega
  unfold selectFrom
  dsimp only
  split_ifs with hexact hless
  · obtain ⟨ret, hrun, hret⟩ := addCoins_consists hsum
    refine ⟨ret, hrun, selectedRight_of_consists hnonneg hsub.subperm hret ?_⟩
    rw [← h.nTotalLower, hexact]
  · cases hsecond : s.second with
    | none =>
      refine ⟨_, rfl, ?_, by simp⟩
      have hall : s.vValue = all := by
        rw [h.vValue, List.filter_eq_self]
        exact (h.noLarger hsecond).2
      rw [← hall, ← h.nTotalLower]
      exact iff_of_true rfl hless
    | some out => exact hlarger out hsecond
  · have hperm := r.sort_perm s.vValue
    have hsum' : Summable (r.sort s.vValue) :=
      ⟨fun c hc => hsum.nonneg c (hperm.mem_iff.mp hc),
        by rw [total_perm hperm]; exact hsum.bounded⟩
    obtain ⟨best, hsolve, hlength, hvalue, hreach⟩ := solveSubset_finds hsum' htarget
      (by rw [total_perm hperm]; exact h.nTotalLower) (by omega) r.insecureRand
    have hbest : ∃ ret, (r.sort s.vValue).zipIdx.foldlM (addBest best.1) ⟨true, ∅, 0⟩ = some ret ∧
        SelectedRight all nTargetValue ret := by
      have hselected := @selected_sublist _ (r.sort s.vValue) best.1
      obtain ⟨ret, hrun, hret⟩ := addCoins_consists (hsum'.of_sublist hselected)
      refine ⟨ret, ?_, selectedRight_of_consists hnonneg ?_ hret (hvalue ▸ hreach)⟩
      · rw [addBest_eq _ _ 0 (by omega)]
        exact hrun
      · exact (hselected.subperm.trans hperm.subperm).trans hsub.subperm
    rw [hsolve, Option.bind_eq_bind, Option.bind_some]
    cases hsecond : s.second with
    | none => exact hbest
    | some out =>
      obtain ⟨b, hb⟩ := takeLarger_total htarget s.first best.2
      dsimp only
      rw [hb, Option.bind_eq_bind, Option.bind_some]
      cases b with
      | true => exact hlarger out hsecond
      | false => exact hbest

end Selecting

section Spec

variable {Ptr : Type} {txs : Ptr → CWalletTx} {nConfMine nConfTheirs : ℤ}
  {vCoins : List (COutput Ptr)} {nTargetValue : int64}

theorem eligible_perm {l : List (COutput Ptr)} (h : l.Perm vCoins) :
    (eligible txs nConfMine nConfTheirs l).Perm (eligible txs nConfMine nConfTheirs vCoins) :=
  (h.filter _).map _

theorem mem_eligible {coin : Coin Ptr} (h : coin ∈ eligible txs nConfMine nConfTheirs vCoins) :
    ∃ output ∈ vCoins, tooNew txs nConfMine nConfTheirs output = false ∧
      coin = coinOf txs output := by
  obtain ⟨output, houtput, rfl⟩ := List.mem_map.mp h
  obtain ⟨hmem, hnew⟩ := List.mem_filter.mp houtput
  exact ⟨output, hmem, by simpa using hnew, rfl⟩

theorem nodup_outs (hdistinct : (vCoins.map COutput.out).Nodup) :
    ((eligible txs nConfMine nConfTheirs vCoins).map Coin.out).Nodup := by
  have houts : (eligible txs nConfMine nConfTheirs vCoins).map Coin.out =
      (vCoins.filter fun output => !tooNew txs nConfMine nConfTheirs output).map COutput.out := by
    simp [eligible, coinOf]
  rw [houts]
  exact hdistinct.sublist (List.filter_sublist.map _)

variable [DecidableEq Ptr]

/-- The set and the sum of a selection belong together. -/
theorem Consists.spec {coins : List (Coin Ptr)} {ret : Selection Ptr} (h : Consists coins ret)
    (hsub : coins.Subperm (eligible txs nConfMine nConfTheirs vCoins))
    (hdistinct : (vCoins.map COutput.out).Nodup) :
    (∀ out ∈ ret.setCoinsRet, ∃ output ∈ vCoins,
        tooNew txs nConfMine nConfTheirs output = false ∧ output.out = out) ∧
      ret.nValueRet.1 = ∑ out ∈ ret.setCoinsRet, (amountAt txs out).1 := by
  have hcoin : ∀ coin ∈ coins, ∃ output ∈ vCoins,
      tooNew txs nConfMine nConfTheirs output = false ∧ coin = coinOf txs output :=
    fun coin hmem => mem_eligible (hsub.subset hmem)
  constructor
  · intro out hout
    rw [h.outs, List.mem_toFinset] at hout
    obtain ⟨coin, hmem, rfl⟩ := List.mem_map.mp hout
    obtain ⟨output, houtput, hnew, rfl⟩ := hcoin coin hmem
    exact ⟨output, houtput, hnew, rfl⟩
  · obtain ⟨coins', hperm, hsub'⟩ := hsub
    have hnodup : (coins.map Coin.out).Nodup :=
      (hperm.map Coin.out).nodup_iff.mp ((nodup_outs hdistinct).sublist (hsub'.map _))
    rw [h.outs, List.sum_toFinset _ hnodup, List.map_map, h.value, total]
    congr 1
    refine List.map_congr_left fun coin hmem => ?_
    obtain ⟨output, -, -, rfl⟩ := hcoin coin hmem
    rfl

/-- SelectCoinsMinConf does what it is to do with the eligible coins. -/
theorem selectCoinsMinConf_selected (r : Random Ptr) (hexist : Exist txs vCoins)
    (hnonneg : ∀ output ∈ vCoins, 0 ≤ (amountAt txs output.out).1)
    (htarget : nTargetValue.1 + CENT < 2 ^ 63)
    (hmax : ∀ coin ∈ eligible txs nConfMine nConfTheirs vCoins, worth coin < 2 ^ 63 - 1)
    (hlower : total worth ((eligible txs nConfMine nConfTheirs vCoins).filter
      (isLower nTargetValue)) < 2 ^ 63) :
    ∃ ret, selectCoinsMinConf txs nTargetValue nConfMine nConfTheirs r vCoins = some ret ∧
      SelectedRight (eligible txs nConfMine nConfTheirs vCoins) nTargetValue ret := by
  obtain ⟨l, hl⟩ : ∃ l, l = r.shuffle vCoins := ⟨_, rfl⟩
  have hperm : l.Perm vCoins := hl ▸ r.shuffle_perm vCoins
  have hcoins := @eligible_perm _ txs nConfMine nConfTheirs _ _ hperm
  have hnonneg' : ∀ coin ∈ eligible txs nConfMine nConfTheirs l, 0 ≤ worth coin := by
    intro coin hcoin
    obtain ⟨output, houtput, -, rfl⟩ := mem_eligible (hcoins.mem_iff.mp hcoin)
    exact hnonneg output houtput
  have hsum : Summable ((eligible txs nConfMine nConfTheirs l).filter (isLower nTargetValue)) :=
    ⟨fun coin hcoin => hnonneg' coin (List.mem_filter.mp hcoin).1,
      by rw [total_perm (hcoins.filter _)]; exact hlower⟩
  have hstart : Scanned nTargetValue [] ({} : Lower Ptr) :=
    ⟨by simp, rfl, rfl, by simp, by simp⟩
  obtain ⟨res, hscan, hres⟩ := scanOutputs_scanned htarget l hstart
    (fun output houtput => hexist output (hperm.mem_iff.mp houtput))
    (fun coin hcoin => hmax coin (hcoins.mem_iff.mp hcoin)) hsum
  have hright : ∃ ret, selectCoinsMinConf txs nTargetValue nConfMine nConfTheirs r vCoins =
      some ret ∧ SelectedRight (eligible txs nConfMine nConfTheirs l) nTargetValue ret := by
    unfold selectCoinsMinConf
    rw [← hl, hscan, Option.bind_eq_bind, Option.bind_some]
    obtain ⟨coin, hmem, hexact, rfl⟩ | ⟨s, rfl, h⟩ := hres
    · exact singleton_right hnonneg' hmem hexact.ge
    · exact selectFrom_right htarget h hnonneg' hsum r
  obtain ⟨ret, hrun, hfails, hselects⟩ := hright
  refine ⟨ret, hrun, ?_, fun hanswer => ?_⟩
  · rw [hfails, total_perm hcoins]
  · obtain ⟨coins, hconsists, hsub, hreach⟩ := hselects hanswer
    exact ⟨coins, hconsists, hsub.trans hcoins.subperm, hreach⟩

/-- SelectCoinsMinConf fails exactly where the eligible coins total less than the target; else
it returns some of them, with their sum, which reaches the target. The target leaves room for a
cent, no eligible coin has the greatest amount of all, and the coins below the target and a cent
can be added up. -/
theorem selectCoinsMinConf_right (txs : Ptr → CWalletTx) (nTargetValue : int64)
    (nConfMine nConfTheirs : ℤ) (r : Random Ptr) (vCoins : List (COutput Ptr))
    (hdistinct : (vCoins.map COutput.out).Nodup) (hexist : Exist txs vCoins)
    (hnonneg : ∀ output ∈ vCoins, 0 ≤ (amountAt txs output.out).1)
    (htarget : nTargetValue.1 + CENT < 2 ^ 63)
    (hmax : ∀ coin ∈ eligible txs nConfMine nConfTheirs vCoins, worth coin < 2 ^ 63 - 1)
    (hlower : total worth ((eligible txs nConfMine nConfTheirs vCoins).filter
      (isLower nTargetValue)) < 2 ^ 63) :
    ∃ ret, selectCoinsMinConf txs nTargetValue nConfMine nConfTheirs r vCoins = some ret ∧
      (ret.answer = false ↔
        total worth (eligible txs nConfMine nConfTheirs vCoins) < nTargetValue.1) ∧
      (ret.answer = true →
        (∀ out ∈ ret.setCoinsRet, ∃ output ∈ vCoins,
          tooNew txs nConfMine nConfTheirs output = false ∧ output.out = out) ∧
        ret.nValueRet.1 = ∑ out ∈ ret.setCoinsRet, (amountAt txs out).1 ∧
        nTargetValue.1 ≤ ret.nValueRet.1) := by
  obtain ⟨ret, hrun, hfails, hselects⟩ :=
    selectCoinsMinConf_selected r hexist hnonneg htarget hmax hlower
  refine ⟨ret, hrun, hfails, fun hanswer => ?_⟩
  obtain ⟨coins, hconsists, hsub, hreach⟩ := hselects hanswer
  obtain ⟨hset, hvalue⟩ := hconsists.spec hsub hdistinct
  exact ⟨hset, hvalue, hreach⟩

instance : Inhabited (Random Ptr) where
  default :=
    { shuffle := id
      shuffle_perm := fun _ => .rfl
      sort := fun l => l.mergeSort fun a b => b.value.1 ≤ a.value.1
      sort_perm := fun l => List.mergeSort_perm l _
      sort_descending := fun l => by
        have hsorted := @List.pairwise_mergeSort _ (fun a b : Coin Ptr => b.value.1 ≤ a.value.1)
          (by intro a b c; simp only [decide_eq_true_eq]; omega)
          (by intro a b; simp only [Bool.or_eq_true, decide_eq_true_eq]; omega) l
        exact hsorted.imp fun h => by simpa using h
      insecureRand := fun _ _ _ => true }

/-- Transactions with one output each, of these amounts. -/
def payments (amounts : List ℕ) (p : ℕ) : CWalletTx :=
  ⟨⟨1, [], [⟨BitVec.ofNat 64 (amounts.getD p 0), []⟩], 0⟩, false⟩

/-- Those outputs, ten blocks deep. -/
def paid (amounts : List ℕ) : List (COutput ℕ) :=
  (List.range amounts.length).map fun p => ⟨p, 0, 10⟩

/-- A coin of the greatest amount is never taken for the lowest larger one; the limit of the lower
coins and their sum may overflow. -/
theorem greatest_refused :
    (∃ ret, selectCoinsMinConf (payments [2 ^ 63 - 1]) ⟨1, by decide⟩ 1 6 default
        (paid [2 ^ 63 - 1]) = some ret ∧ ret.answer = false ∧
      total worth (eligible (payments [2 ^ 63 - 1]) 1 6 (paid [2 ^ 63 - 1])) = 2 ^ 63 - 1) ∧
    selectCoinsMinConf (payments [1]) int64Max 1 6 default (paid [1]) = none ∧
    selectCoinsMinConf (payments [2 ^ 62 + 1, 2 ^ 62 + 2]) ⟨2 ^ 62, by decide⟩ 1 6 default
      (paid [2 ^ 62 + 1, 2 ^ 62 + 2]) = none := by
  exact ⟨⟨⟨false, ∅, 0⟩, rfl, rfl, by decide⟩, rfl, rfl⟩

theorem selectCoinsMinConf_larger :
    ∃ ret, selectCoinsMinConf (payments [3 * 10 ^ 6, 5 * 10 ^ 6]) ⟨4 * 10 ^ 6, by decide⟩ 1 6
      default (paid [3 * 10 ^ 6, 5 * 10 ^ 6]) = some ret ∧ 4 * 10 ^ 6 ≤ ret.nValueRet.1 := by
  obtain ⟨ret, hrun, hfails, hselects⟩ :=
    selectCoinsMinConf_right (payments [3 * 10 ^ 6, 5 * 10 ^ 6]) ⟨4 * 10 ^ 6, by decide⟩ 1 6 default
      (paid [3 * 10 ^ 6, 5 * 10 ^ 6]) (by decide) (by decide) (by decide) (by decide) (by decide)
      (by decide)
  have hanswer : ret.answer = true := by
    rw [← Bool.not_eq_false, hfails]
    decide
  exact ⟨ret, hrun, (hselects hanswer).2.2⟩

end Spec

end UmbrellaLtc.CoinSelection
