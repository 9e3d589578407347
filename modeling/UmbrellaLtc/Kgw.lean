import UmbrellaLtc.Compact
import UmbrellaLtc.Guards
import Mathlib.Algebra.BigOperators.Group.List.Basic
import Mathlib.Algebra.Order.BigOperators.Group.List
import Mathlib.Tactic.Linarith

/-!
The Kimoto gravity well of algos/retarget.cpp. A chain is the list of its blocks
from the last one back to genesis, a block iterator is a suffix of it, and the
null iterator is the empty list. The floating-point test of the event horizon
is an argument: any predicate of the number of blocks, the desired time and the
actual time. All else is the code's integer arithmetic.
-/

namespace UmbrellaLtc.Kgw

open Compact Guards

/-- block::info_type. -/
structure InfoType where
  height : ℤ
  difficulty : BitVec 32
  time : BitVec 32
deriving DecidableEq

abbrev Iterator := List InfoType

/-- `dereference` and `movement` are the exceptions of a null iterator; `timespan`
marks a multiplication by a time span that is not positive, which the code does
not test. -/
inductive Fault where
  | dereference
  | movement
  | assertion
  | divisionByZero
  | timespan
deriving DecidableEq

section Parameters

variable (fTestNet : Bool)

def minDifficultyByDesign : BitVec 32 := if fTestNet then 0x1e6236f6 else 0x1e07ffff

/-- In seconds. -/
def blockPeriodByDesign : ℕ := if fTestNet then 27 else 270

/-- One hour of blocks. -/
def pastBlocksMin : ℕ := 3600 / blockPeriodByDesign fTestNet

/-- One day of blocks. -/
def pastBlocksMax : ℕ := 86400 / blockPeriodByDesign fTestNet

/-- The target limit as a number. -/
def limit : ℤ := setCompact (minDifficultyByDesign fTestNet)

end Parameters

def InfoType.target (bi : InfoType) : ℤ := setCompact bi.difficulty

def deref : Iterator → Except Fault InfoType
  | [] => .error .dereference
  | bi :: _ => .ok bi

/-- `operator++` on a copy. -/
def next : Iterator → Except Fault Iterator
  | [] => .error .movement
  | _ :: it => .ok it

/-- std::advance. -/
def advance : ℕ → Iterator → Except Fault Iterator
  | 0, it => .ok it
  | n + 1, it => do
    let it ← next it
    advance n it

def heightDiff (a b : Iterator) : Except Fault ℤ := do
  let a ← deref a
  let b ← deref b
  return a.height - b.height

/-- The time between two blocks with the timewarp fix: at least a second. -/
def timePassed (last bi : InfoType) : ℤ :=
  if last.time.toNat ≤ bi.time.toNat then 1 else last.time.toNat - bi.time.toNat

/-- The test of the event horizon, on the number of blocks and the two times. -/
abbrev Horizon := ℕ → ℤ → ℤ → Bool

/-- The lambda of find_if, with the mass it has just counted up to. -/
def breaks (fTestNet : Bool) (horizon : Horizon) (desired : ℤ) (last bi : InfoType) (mass : ℕ) :
    Except Fault Bool :=
  if mass > pastBlocksMax fTestNet then .ok true
  else do
    let desiredPassed := desired * mass
    let actualPassed := timePassed last bi
    require (actualPassed ≠ 0) .assertion
    return horizon mass desiredPassed actualPassed

/-- std::find_if from `it` on; `mass` is the count before the next block. -/
def findIf (fTestNet : Bool) (horizon : Horizon) (desired : ℤ) (last : InfoType) (rend : Iterator) :
    Iterator → ℕ → Except Fault Iterator
  | [], _ => if [] = rend then .ok [] else .error .dereference
  | bi :: rest, mass =>
      if bi :: rest = rend then .ok (bi :: rest)
      else do
        if ← breaks fTestNet horizon desired last bi (mass + 1) then .ok (bi :: rest)
        else findIf fTestNet horizon desired last rend rest (mass + 1)

/-- std::accumulate of the targets in [it, breakingEl). -/
def accumulate (breakingEl : Iterator) : Iterator → ℤ → Except Fault ℤ
  | [], acc => if [] = breakingEl then .ok acc else .error .dereference
  | bi :: rest, acc =>
      if bi :: rest = breakingEl then .ok acc
      else accumulate breakingEl rest (acc + bi.target)

/-- The values computed between the search and the result. -/
structure Retarget where
  pastDifficultyAverage : ℤ
  bnNew : ℤ

def retarget (fTestNet : Bool) (desired : ℤ) (rbegin breakingEl : Iterator) :
    Except Fault Retarget := do
  let distance ← heightDiff rbegin breakingEl
  require (0 ≤ distance) .assertion
  let sum ← accumulate breakingEl rbegin 0
  require (distance + 1 ≠ 0) .divisionByZero
  let pastDifficultyAverage := sum.tdiv (distance + 1)
  let rangeDesiredTimespan := desired * (distance + 1)
  let first ← deref rbegin
  let last ← deref breakingEl
  let rangeActualTimespan := timePassed first last
  require (rangeActualTimespan ≠ 0) .assertion
  require (0 < rangeActualTimespan) .timespan
  let bnNew :=
    if rangeDesiredTimespan ≠ 0 then
      (pastDifficultyAverage * rangeActualTimespan).tdiv rangeDesiredTimespan
    else pastDifficultyAverage
  return ⟨pastDifficultyAverage,
    if bnNew > limit fTestNet then limit fTestNet else bnNew⟩

/-- The search for the breaking element, behind the early blocks rule. -/
def breakingElement (fTestNet : Bool) (horizon : Horizon) (desired : ℤ) (rbegin rend : Iterator) :
    Except Fault Iterator := do
  let start ← advance (pastBlocksMin fTestNet - 1) rbegin
  let last ← deref rbegin
  findIf fTestNet horizon desired last rend start (pastBlocksMin fTestNet - 1)

/-- difficulty_impl<pars::kgw>::next_block_difficulty. -/
def kgwNextBlockDifficulty (fTestNet : Bool) (horizon : Horizon) (desired : ℤ)
    (rbegin rend : Iterator) : Except Fault (BitVec 32) := do
  let diff ← heightDiff rbegin rend
  if diff < pastBlocksMin fTestNet then return minDifficultyByDesign fTestNet
  let breakingEl ← breakingElement fTestNet horizon desired rbegin rend
  let r ← retarget fTestNet desired rbegin breakingEl
  return getCompact r.bnNew

/-- difficulty::next_block_difficulty(pindexLast); `chain` starts at pindexLast and
ends at pindexGenesisBlock. -/
def nextBlockDifficulty (fTestNet : Bool) (horizon : Horizon) (chain : Iterator) :
    Except Fault (BitVec 32) :=
  match chain with
  | [] => .ok (minDifficultyByDesign fTestNet)
  | [last] => .ok last.difficulty
  | _ :: _ :: _ =>
      kgwNextBlockDifficulty fTestNet horizon (blockPeriodByDesign fTestNet) chain
        (chain.drop (chain.length - 1))

/-- Each block is one higher than its pprev, and genesis has height zero. -/
def Heights : Iterator → Prop
  | [] => True
  | bi :: rest => bi.height = rest.length ∧ Heights rest

/-- difficulty::is_valid of every block. -/
def Valid (fTestNet : Bool) (chain : Iterator) : Prop :=
  ∀ bi ∈ chain, 0 < bi.target ∧ bi.target ≤ limit fTestNet

/-- The search breaks at the block `j` below the last one. -/
def Fires (fTestNet : Bool) (horizon : Horizon) (chain : Iterator) (j : ℕ) : Prop :=
  ∃ last bi, chain.head? = some last ∧ chain[j]? = some bi ∧
    (j + 1 > pastBlocksMax fTestNet ∨
      horizon (j + 1) (blockPeriodByDesign fTestNet * (j + 1 : ℕ)) (timePassed last bi) = true)

/-- The averaging runs and its search stops at the block `k` below the last one:
the first, from `pastBlocksMin - 1` on, where the test breaks or the chain ends. -/
structure BreaksAt (fTestNet : Bool) (horizon : Horizon) (chain : Iterator) (k : ℕ) : Prop where
  long : pastBlocksMin fTestNet < chain.length
  le : pastBlocksMin fTestNet - 1 ≤ k
  lt : k < chain.length
  fires : k + 1 < chain.length → Fires fTestNet horizon chain k
  quiet : ∀ j, pastBlocksMin fTestNet - 1 ≤ j → j < k → ¬ Fires fTestNet horizon chain j

theorem BreaksAt.unique {fTestNet : Bool} {horizon : Horizon} {chain : Iterator} {k l : ℕ}
    (hk : BreaksAt fTestNet horizon chain k) (hl : BreaksAt fTestNet horizon chain l) : k = l := by
  have hkl := hk.lt
  have hll := hl.lt
  rcases Nat.lt_trichotomy k l with hlt | heq | hgt
  · exact absurd (hk.fires (by omega)) (hl.quiet k hk.le hlt)
  · exact heq
  · exact absurd (hl.fires (by omega)) (hk.quiet l hl.le hgt)

/-- The count of blocks stops the search at `pastBlocksMax` at the latest. -/
theorem BreaksAt.le_max {fTestNet : Bool} {horizon : Horizon} {chain : Iterator} {k : ℕ}
    (hk : BreaksAt fTestNet horizon chain k) : k ≤ pastBlocksMax fTestNet := by
  by_contra hgt
  have hpars : pastBlocksMin fTestNet - 1 ≤ pastBlocksMax fTestNet := by
    cases fTestNet <;> decide
  have hlt := hk.lt
  obtain ⟨last, hlast⟩ : ∃ last, chain.head? = some last := by
    cases chain with
    | nil => simp at hlt
    | cons last rest => exact ⟨last, rfl⟩
  refine hk.quiet (pastBlocksMax fTestNet) hpars (by omega) ⟨last, chain[pastBlocksMax fTestNet],
    hlast, List.getElem?_eq_getElem (by omega), Or.inl (by omega)⟩

theorem timePassed_pos (last bi : InfoType) : 0 < timePassed last bi := by
  unfold timePassed
  split_ifs <;> omega

theorem breaks_eq (fTestNet : Bool) (horizon : Horizon) (desired : ℤ) (last bi : InfoType)
    (mass : ℕ) : breaks fTestNet horizon desired last bi mass =
      .ok (decide (mass > pastBlocksMax fTestNet) ||
        horizon mass (desired * mass) (timePassed last bi)) := by
  have hne : timePassed last bi ≠ 0 := (timePassed_pos last bi).ne'
  unfold breaks
  by_cases hmax : mass > pastBlocksMax fTestNet
  · simp [hmax]
  · simp [hmax, require, hne, bind, Except.bind, pure, Except.pure]

theorem drop_eq_drop_iff (chain : Iterator) (j n : ℕ) (hj : j < chain.length)
    (hn : n < chain.length) : chain.drop j = chain.drop n ↔ j = n := by
  constructor
  · intro h
    have hlen := congrArg List.length h
    rw [List.length_drop, List.length_drop] at hlen
    omega
  · intro h
    rw [h]

/-- The search from the block `j` on ends at the first block where it breaks, or
at genesis; it never looks at a null iterator. -/
theorem findIf_spec (fTestNet : Bool) (horizon : Horizon) (chain : Iterator) (last : InfoType)
    (hlast : chain.head? = some last) (m j : ℕ) (hm : j + m + 1 = chain.length) :
    ∃ k, j ≤ k ∧ k < chain.length ∧
      findIf fTestNet horizon (blockPeriodByDesign fTestNet) last
        (chain.drop (chain.length - 1)) (chain.drop j) j = .ok (chain.drop k) ∧
      (k + 1 < chain.length → Fires fTestNet horizon chain k) ∧
      ∀ i, j ≤ i → i < k → ¬ Fires fTestNet horizon chain i := by
  induction m generalizing j with
  | zero =>
    refine ⟨j, le_refl j, by omega, ?_, fun h => absurd h (by omega),
      fun i hi hik => absurd hi (by omega)⟩
    have hend : chain.length - 1 = j := by omega
    rw [hend]
    cases chain.drop j <;> simp [findIf]
  | succ m ih =>
    have hj : j < chain.length := by omega
    have hdrop : chain.drop j = chain[j] :: chain.drop (j + 1) := List.drop_eq_getElem_cons hj
    have hne : ¬ chain[j] :: chain.drop (j + 1) = chain.drop (chain.length - 1) := by
      rw [← hdrop, drop_eq_drop_iff chain j _ hj (by omega)]
      omega
    have hget : chain[j]? = some chain[j] := List.getElem?_eq_getElem hj
    rw [hdrop]
    unfold findIf
    rw [if_neg hne, breaks_eq]
    simp only [bind, Except.bind]
    by_cases hfires : Fires fTestNet horizon chain j
    · obtain ⟨last', bi, hlast', hbi, hor⟩ := hfires
      obtain rfl : last' = last := Option.some.inj (hlast'.symm.trans hlast)
      obtain rfl : bi = chain[j] := Option.some.inj (hbi.symm.trans hget)
      refine ⟨j, le_refl j, hj, ?_, fun _ => ⟨last', _, hlast, hget, hor⟩,
        fun i hi hik => absurd hi (by omega)⟩
      rw [if_pos (by simpa using hor), hdrop]
    · obtain ⟨k, hjk, hk, hfind, hstop, hquiet⟩ := ih (j + 1) (by omega)
      refine ⟨k, by omega, hk, ?_, hstop, ?_⟩
      · rw [if_neg ?_, hfind]
        intro htrue
        exact hfires ⟨last, chain[j], hlast, hget, by simpa using htrue⟩
      · intro i hi hik
        rcases Nat.eq_or_lt_of_le hi with rfl | hlt
        · exact hfires
        · exact hquiet i hlt hik

/-- The targets that the average is taken over. -/
def averagedTargets (chain : Iterator) (k : ℕ) : List ℤ := (chain.take k).map InfoType.target

theorem Heights.get {chain : Iterator} (h : Heights chain) (k : ℕ) (hk : k < chain.length) :
    chain[k].height = chain.length - 1 - k := by
  induction chain generalizing k with
  | nil => simp at hk
  | cons bi rest ih =>
    cases k with
    | zero =>
      rw [List.getElem_cons_zero, h.1, List.length_cons]
      omega
    | succ k =>
      rw [List.getElem_cons_succ, ih h.2 k (by simpa using hk), List.length_cons]
      omega

theorem deref_drop (chain : Iterator) (k : ℕ) (hk : k < chain.length) :
    deref (chain.drop k) = .ok chain[k] := by
  rw [List.drop_eq_getElem_cons hk]
  rfl

theorem heightDiff_drop {chain : Iterator} (h : Heights chain) (k : ℕ) (hk : k < chain.length) :
    heightDiff chain (chain.drop k) = .ok (k : ℤ) := by
  have hzero : 0 < chain.length := by omega
  have hfirst := deref_drop chain 0 hzero
  rw [List.drop_zero] at hfirst
  rw [heightDiff, hfirst, deref_drop chain k hk]
  simp only [bind, Except.bind, pure, Except.pure, h.get 0 hzero, h.get k hk, Except.ok.injEq]
  omega

theorem advance_eq (n : ℕ) (it : Iterator) (hn : n ≤ it.length) :
    advance n it = .ok (it.drop n) := by
  induction n generalizing it with
  | zero => rfl
  | succ n ih =>
    cases it with
    | nil => simp at hn
    | cons bi rest => exact ih rest (by simpa using hn)

theorem accumulate_spec (chain : Iterator) (k m j : ℕ) (acc : ℤ) (hk : k < chain.length)
    (hm : j + m = k) : accumulate (chain.drop k) (chain.drop j) acc =
      .ok (acc + (((chain.drop j).take m).map InfoType.target).sum) := by
  induction m generalizing j acc with
  | zero =>
    obtain rfl : j = k := by omega
    cases chain.drop j <;> simp [accumulate]
  | succ m ih =>
    have hj : j < chain.length := by omega
    have hdrop : chain.drop j = chain[j] :: chain.drop (j + 1) := List.drop_eq_getElem_cons hj
    have hne : ¬ chain[j] :: chain.drop (j + 1) = chain.drop k := by
      rw [← hdrop, drop_eq_drop_iff chain j k hj hk]
      omega
    rw [hdrop, accumulate, if_neg hne, ih (j + 1) _ (by omega), List.take_succ_cons, List.map_cons,
      List.sum_cons]
    congr 1
    omega

/-- The new target for an average over `k` blocks, before it is written. -/
def newTarget (fTestNet : Bool) (average actual : ℤ) (k : ℕ) : ℤ :=
  min ((average * actual).tdiv (blockPeriodByDesign fTestNet * (k + 1))) (limit fTestNet)

theorem blockPeriod_pos (fTestNet : Bool) : 0 < blockPeriodByDesign fTestNet := by
  cases fTestNet <;> decide

/-- PastDifficultyAverage over `k` blocks. -/
def pastAverage (chain : Iterator) (k : ℕ) : ℤ := (averagedTargets chain k).sum.tdiv (k + 1)

theorem retarget_spec (fTestNet : Bool) {chain : Iterator} (h : Heights chain) (k : ℕ)
    (first bi : InfoType) (hfirst : chain[0]? = some first) (hbi : chain[k]? = some bi) :
    retarget fTestNet (blockPeriodByDesign fTestNet) chain (chain.drop k) =
      .ok ⟨pastAverage chain k,
        newTarget fTestNet (pastAverage chain k) (timePassed first bi) k⟩ := by
  obtain ⟨h0, rfl⟩ := List.getElem?_eq_some_iff.mp hfirst
  obtain ⟨hk, rfl⟩ := List.getElem?_eq_some_iff.mp hbi
  have hderef := deref_drop chain 0 h0
  have hsum := accumulate_spec chain k k 0 0 hk (Nat.zero_add k)
  rw [List.drop_zero] at hderef hsum
  have hpos := timePassed_pos chain[0] chain[k]
  have hperiod := blockPeriod_pos fTestNet
  have hdesired : (blockPeriodByDesign fTestNet : ℤ) * ((k : ℤ) + 1) ≠ 0 := by positivity
  have hdist : (0 : ℤ) ≤ k := Int.natCast_nonneg k
  have hdist' : (k : ℤ) + 1 ≠ 0 := by omega
  unfold retarget
  rw [heightDiff_drop h k hk, hsum, hderef, deref_drop chain k hk]
  simp only [bind, Except.bind, require, hdist, hdist', hpos, hpos.ne', hdesired, if_true, ne_eq,
    not_false_eq_true, pure, Except.pure, zero_add, pastAverage, averagedTargets, newTarget, min_def,
    gt_iff_lt]
  congr 2
  split_ifs <;> omega

theorem pastBlocksMin_pos (fTestNet : Bool) : 2 ≤ pastBlocksMin fTestNet := by
  cases fTestNet <;> decide

/-- On a long chain the search stops at some block. -/
theorem breakingElement_long (fTestNet : Bool) (horizon : Horizon) (chain : Iterator)
    (hlong : pastBlocksMin fTestNet < chain.length) :
    ∃ k, BreaksAt fTestNet horizon chain k ∧
      breakingElement fTestNet horizon (blockPeriodByDesign fTestNet) chain
        (chain.drop (chain.length - 1)) = .ok (chain.drop k) := by
  have hmin := pastBlocksMin_pos fTestNet
  have h0 : 0 < chain.length := by omega
  have hhead : chain.head? = some chain[0] := by
    rw [List.head?_eq_getElem?, List.getElem?_eq_getElem h0]
  obtain ⟨k, hle, hk, hfind, hfires, hquiet⟩ := findIf_spec fTestNet horizon chain chain[0] hhead
    (chain.length - pastBlocksMin fTestNet) (pastBlocksMin fTestNet - 1) (by omega)
  have hderef := deref_drop chain 0 h0
  rw [List.drop_zero] at hderef
  refine ⟨k, ⟨hlong, hle, hk, hfires, hquiet⟩, ?_⟩
  rw [breakingElement, advance_eq _ _ (by omega), hderef]
  exact hfind

theorem breakingElement_eq (fTestNet : Bool) (horizon : Horizon) {chain : Iterator} {k : ℕ}
    (hk : BreaksAt fTestNet horizon chain k) :
    breakingElement fTestNet horizon (blockPeriodByDesign fTestNet) chain
      (chain.drop (chain.length - 1)) = .ok (chain.drop k) := by
  obtain ⟨l, hl, hbreaking⟩ := breakingElement_long fTestNet horizon chain hk.long
  rw [hk.unique hl, hbreaking]

/-- The result on a long chain is the new target for the block where the search
stops. -/
theorem nextBlockDifficulty_long (fTestNet : Bool) (horizon : Horizon) {chain : Iterator}
    (h : Heights chain) (hlong : pastBlocksMin fTestNet < chain.length) :
    ∃ k first bi, BreaksAt fTestNet horizon chain k ∧ chain[0]? = some first ∧
      chain[k]? = some bi ∧
      nextBlockDifficulty fTestNet horizon chain = .ok (getCompact
        (newTarget fTestNet (pastAverage chain k) (timePassed first bi) k)) := by
  obtain ⟨k, hk, hbreaking⟩ := breakingElement_long fTestNet horizon chain hlong
  have hklt := hk.lt
  have hfirst : chain[0]? = some chain[0] := List.getElem?_eq_getElem (by omega)
  have hbi : chain[k]? = some chain[k] := List.getElem?_eq_getElem hklt
  have hmin := pastBlocksMin_pos fTestNet
  have hdiff : ¬ ((chain.length - 1 : ℕ) : ℤ) < (pastBlocksMin fTestNet : ℤ) := by omega
  have hkgw : nextBlockDifficulty fTestNet horizon chain =
      kgwNextBlockDifficulty fTestNet horizon (blockPeriodByDesign fTestNet) chain
        (chain.drop (chain.length - 1)) := by
    rcases chain with _ | ⟨a, _ | ⟨b, rest⟩⟩
    · simp at hlong
    · simp only [List.length_singleton] at hlong
      omega
    · rfl
  refine ⟨k, chain[0], chain[k], hk, hfirst, hbi, ?_⟩
  rw [hkgw, kgwNextBlockDifficulty, heightDiff_drop h _ (by omega)]
  simp only [bind, Except.bind, if_neg hdiff, hbreaking,
    retarget_spec fTestNet h k _ _ hfirst hbi]
  rfl

/-- A chain too short for the averaging gives the limit, or the bits of genesis. -/
theorem nextBlockDifficulty_short (fTestNet : Bool) (horizon : Horizon) {chain : Iterator}
    (h : Heights chain) (hshort : chain.length ≤ pastBlocksMin fTestNet) :
    nextBlockDifficulty fTestNet horizon chain = .ok (minDifficultyByDesign fTestNet) ∨
      ∃ genesis, chain = [genesis] ∧
        nextBlockDifficulty fTestNet horizon chain = .ok genesis.difficulty := by
  rcases chain with _ | ⟨a, _ | ⟨b, rest⟩⟩
  · exact Or.inl rfl
  · exact Or.inr ⟨a, rfl, rfl⟩
  · refine Or.inl ?_
    generalize hchain : a :: b :: rest = chain at h hshort
    have hlen : 0 < chain.length := by rw [← hchain]; simp
    have hdiff : ((chain.length - 1 : ℕ) : ℤ) < (pastBlocksMin fTestNet : ℤ) := by omega
    rw [← hchain, nextBlockDifficulty, hchain, kgwNextBlockDifficulty,
      heightDiff_drop h _ (by omega)]
    simp only [bind, Except.bind, if_pos hdiff]
    rfl

theorem limit_bounds (fTestNet : Bool) : 0 < limit fTestNet ∧ limit fTestNet < 256 ^ 31 := by
  cases fTestNet <;> decide +kernel

theorem averagedTargets_length {chain : Iterator} {k : ℕ} (hk : k < chain.length) :
    (averagedTargets chain k).length = k := by
  rw [averagedTargets, List.length_map, List.length_take]
  omega

theorem Valid.averaged {fTestNet : Bool} {chain : Iterator} (h : Valid fTestNet chain) (k : ℕ) :
    ∀ t ∈ averagedTargets chain k, 0 < t ∧ t ≤ limit fTestNet := by
  intro t ht
  obtain ⟨bi, hbi, rfl⟩ := List.mem_map.mp ht
  exact h bi (List.mem_of_mem_take hbi)

theorem sum_averaged_nonneg {fTestNet : Bool} {chain : Iterator} (h : Valid fTestNet chain)
    (k : ℕ) : 0 ≤ (averagedTargets chain k).sum :=
  List.sum_nonneg fun t ht => (h.averaged k t ht).1.le

theorem pastAverage_eq {fTestNet : Bool} {chain : Iterator} (h : Valid fTestNet chain) (k : ℕ) :
    pastAverage chain k = (averagedTargets chain k).sum / (k + 1) :=
  Int.tdiv_eq_ediv_of_nonneg (sum_averaged_nonneg h k)

theorem pastAverage_nonneg {fTestNet : Bool} {chain : Iterator} (h : Valid fTestNet chain)
    (k : ℕ) : 0 ≤ pastAverage chain k := by
  rw [pastAverage_eq h]
  exact Int.ediv_nonneg (sum_averaged_nonneg h k) (by omega)

theorem newTarget_nonneg (fTestNet : Bool) (average actual : ℤ) (k : ℕ) (ha : 0 ≤ average)
    (ht : 0 < actual) : 0 ≤ newTarget fTestNet average actual k := by
  have hprod : 0 ≤ average * actual := Int.mul_nonneg ha ht.le
  have hquot : 0 ≤ (average * actual).tdiv (blockPeriodByDesign fTestNet * (k + 1)) :=
    Int.tdiv_nonneg hprod (by positivity)
  exact le_min hquot (limit_bounds fTestNet).1.le

/-- What is written for a target within the limit is non-negative, not larger,
and positive when the target is. -/
theorem round_target (fTestNet : Bool) (t : ℤ) (h0 : 0 ≤ t) (hlimit : t ≤ limit fTestNet) :
    0 ≤ setCompact (getCompact t) ∧ setCompact (getCompact t) ≤ t ∧
      (0 < t → 0 < setCompact (getCompact t)) := by
  obtain ⟨n, rfl⟩ := Int.eq_ofNat_of_zero_le h0
  have hlt : (n : ℤ) < 256 ^ 31 := hlimit.trans_lt (limit_bounds fTestNet).2
  have hbytes := numBytes_lt n 31 (by exact_mod_cast hlt)
  obtain ⟨hnonneg, hle, hpos⟩ := round_spec n (by omega)
  exact ⟨hnonneg, hle, fun h => hpos (by omega)⟩

/-- An average of targets that are large enough does not round to zero. -/
theorem newTarget_pos (fTestNet : Bool) {chain : Iterator} {k : ℕ} (actual : ℤ)
    (hvalid : Valid fTestNet chain) (hk : k < chain.length) (hone : 1 ≤ k)
    (hmax : k ≤ pastBlocksMax fTestNet) (hactual : 0 < actual)
    (hlarge : ∀ t ∈ averagedTargets chain k, 2 * 270 * ((pastBlocksMax fTestNet : ℤ) + 1) ≤ t) :
    0 < newTarget fTestNet (pastAverage chain k) actual k := by
  set P : ℤ := (pastBlocksMax fTestNet : ℤ) + 1 with hP
  have hperiod : (blockPeriodByDesign fTestNet : ℤ) ≤ 270 := by cases fTestNet <;> decide
  have hkP : (k : ℤ) + 1 ≤ P := by omega
  have hsum : (k : ℤ) * (2 * 270 * P) ≤ (averagedTargets chain k).sum := by
    have hcard := List.card_nsmul_le_sum (averagedTargets chain k) _ hlarge
    rwa [averagedTargets_length hk, nsmul_eq_mul] at hcard
  have haverage : 270 * P ≤ pastAverage chain k := by
    rw [pastAverage_eq hvalid, Int.le_ediv_iff_mul_le (by omega)]
    calc 270 * P * ((k : ℤ) + 1) ≤ 270 * P * (2 * k) := by
          apply mul_le_mul_of_nonneg_left <;> omega
      _ = k * (2 * 270 * P) := by ring
      _ ≤ (averagedTargets chain k).sum := hsum
  have hspan : (blockPeriodByDesign fTestNet : ℤ) * (k + 1) ≤ 270 * P := by
    apply mul_le_mul hperiod hkP <;> omega
  have hprod : 1 * ((blockPeriodByDesign fTestNet : ℤ) * (k + 1)) ≤ pastAverage chain k * actual := by
    rw [one_mul]
    calc (blockPeriodByDesign fTestNet : ℤ) * (k + 1) ≤ pastAverage chain k := hspan.trans haverage
      _ ≤ pastAverage chain k * actual :=
          le_mul_of_one_le_right (pastAverage_nonneg hvalid k) hactual
  have hdesired : 0 < (blockPeriodByDesign fTestNet : ℤ) * (k + 1) := by
    have := blockPeriod_pos fTestNet
    positivity
  have hquot : 1 ≤ (pastAverage chain k * actual).tdiv (blockPeriodByDesign fTestNet * (k + 1)) := by
    rw [Int.tdiv_eq_ediv_of_nonneg (by omega), Int.le_ediv_iff_mul_le hdesired]
    exact hprod
  exact lt_min (by omega) (limit_bounds fTestNet).1

/-- For every chain of valid targets, with times in any order and any event horizon:
no null iterator is used, nothing is divided by zero, every time span is
positive, and the result is a target between zero and the limit, and not zero
when the averaged targets are large enough. -/
theorem nextBlockDifficulty_safe (fTestNet : Bool) (horizon : Horizon) (chain : Iterator)
    (hheights : Heights chain) (hvalid : Valid fTestNet chain) :
    ∃ bits, nextBlockDifficulty fTestNet horizon chain = .ok bits ∧
      0 ≤ setCompact bits ∧ setCompact bits ≤ limit fTestNet ∧
      ((∀ k, BreaksAt fTestNet horizon chain k → ∀ t ∈ averagedTargets chain k,
          2 * 270 * ((pastBlocksMax fTestNet : ℤ) + 1) ≤ t) → 0 < setCompact bits) := by
  rcases Nat.lt_or_ge (pastBlocksMin fTestNet) chain.length with hlong | hshort
  · obtain ⟨k, first, bi, hk, -, -, hresult⟩ :=
      nextBlockDifficulty_long fTestNet horizon hheights hlong
    have hactual := timePassed_pos first bi
    have hnonneg := newTarget_nonneg fTestNet (pastAverage chain k) _ k
      (pastAverage_nonneg hvalid k) hactual
    have hlimit : newTarget fTestNet (pastAverage chain k) (timePassed first bi) k ≤
        limit fTestNet := min_le_right _ _
    obtain ⟨h0, hle, hpos⟩ := round_target fTestNet _ hnonneg hlimit
    refine ⟨_, hresult, h0, hle.trans hlimit, fun hlarge => hpos ?_⟩
    have hmin := pastBlocksMin_pos fTestNet
    have hone := hk.le
    exact newTarget_pos fTestNet _ hvalid hk.lt (by omega) hk.le_max hactual (hlarge k hk)
  · have hlimit := (limit_bounds fTestNet).1
    rcases nextBlockDifficulty_short fTestNet horizon hheights hshort with
      hmin | ⟨genesis, rfl, hbits⟩
    · exact ⟨_, hmin, hlimit.le, le_refl _, fun _ => hlimit⟩
    · obtain ⟨hpos, hle⟩ := hvalid genesis (List.mem_singleton.mpr rfl)
      exact ⟨_, hbits, hpos.le, hle, fun _ => hpos⟩

/-- Blocks `step` seconds apart, from height `n` down to genesis. -/
def spacedChain (bits : BitVec 32) (step : ℕ) : ℕ → Iterator
  | 0 => [⟨0, bits, BitVec.ofNat 32 1400000000⟩]
  | n + 1 => ⟨n + 1, bits, BitVec.ofNat 32 (1400000000 + step * (n + 1))⟩ :: spacedChain bits step n

theorem spacedChain_length (bits : BitVec 32) (step n : ℕ) :
    (spacedChain bits step n).length = n + 1 := by
  induction n with
  | zero => rfl
  | succ n ih => rw [spacedChain, List.length_cons, ih]

theorem heights_spacedChain (bits : BitVec 32) (step n : ℕ) : Heights (spacedChain bits step n) := by
  induction n with
  | zero => exact ⟨rfl, trivial⟩
  | succ n ih =>
    refine ⟨?_, ih⟩
    rw [spacedChain_length]
    rfl

theorem difficulty_spacedChain (bits : BitVec 32) (step n : ℕ) :
    ∀ bi ∈ spacedChain bits step n, bi.difficulty = bits := by
  induction n with
  | zero =>
    intro bi hbi
    rw [List.mem_singleton.mp hbi]
  | succ n ih =>
    intro bi hbi
    rcases List.mem_cons.mp hbi with rfl | htail
    · rfl
    · exact ih bi htail

theorem valid_spacedChain (bits : BitVec 32) (step n : ℕ) (fTestNet : Bool)
    (hpos : 0 < setCompact bits) (hle : setCompact bits ≤ limit fTestNet) :
    Valid fTestNet (spacedChain bits step n) := by
  intro bi hbi
  rw [InfoType.target, difficulty_spacedChain bits step n bi hbi]
  exact ⟨hpos, hle⟩

theorem time_spacedChain (bits : BitVec 32) (step n i : ℕ) (a : InfoType)
    (h : (spacedChain bits step n)[i]? = some a) :
    i ≤ n ∧ a.time = BitVec.ofNat 32 (1400000000 + step * (n - i)) := by
  induction n generalizing i with
  | zero =>
    cases i with
    | zero =>
      rw [← Option.some.inj h]
      exact ⟨le_refl 0, rfl⟩
    | succ i => simp [spacedChain] at h
  | succ n ih =>
    cases i with
    | zero =>
      rw [← Option.some.inj h]
      exact ⟨Nat.zero_le _, rfl⟩
    | succ i =>
      obtain ⟨hi, htime⟩ := ih i (by simpa [spacedChain] using h)
      refine ⟨by omega, ?_⟩
      rw [htime, Nat.succ_sub_succ]

/-- Fourteen blocks with one time: the search runs to genesis. -/
theorem nextBlockDifficulty_safe_sameTime :
    ∃ bits, nextBlockDifficulty false (fun _ _ _ => false) (spacedChain 0x1d00ffff 0 13) = .ok bits ∧
      0 < setCompact bits := by
  obtain ⟨bits, hok, -, -, hpos⟩ := nextBlockDifficulty_safe false (fun _ _ _ => false)
    (spacedChain 0x1d00ffff 0 13) (heights_spacedChain _ _ _)
    (valid_spacedChain _ _ _ _ (by decide +kernel) (by decide +kernel))
  refine ⟨bits, hok, hpos fun k _ t ht => ?_⟩
  obtain ⟨bi, hbi, rfl⟩ := List.mem_map.mp ht
  rw [InfoType.target, difficulty_spacedChain _ _ _ bi (List.mem_of_mem_take hbi)]
  decide +kernel

end UmbrellaLtc.Kgw
