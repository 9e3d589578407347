import UmbrellaLtc.Kgw
import Mathlib.Data.Finset.Max

/-!
The gravity well on a regular chain. The targets of `k` blocks are summed up to
but not including the block where the search stops, and the sum is divided by
`k + 1`; the desired time is taken over `k + 1` periods while the actual time
spans `k` of them. Both leave the result below the target it should keep.
-/

namespace UmbrellaLtc.KgwFixedPoint

open Compact Kgw

/-- All blocks of the chain have one canonical target and are exactly the desired
time apart. -/
structure Regular (fTestNet : Bool) (chain : Iterator) (bits : BitVec 32) : Prop where
  canonical : getCompact (setCompact bits) = bits
  same : ∀ bi ∈ chain, bi.difficulty = bits
  spaced : ∀ i a b, chain[i]? = some a → chain[i + 1]? = some b →
    a.time.toNat = b.time.toNat + blockPeriodByDesign fTestNet

/-- The two targets differ by at most one unit of the mantissa of the first. -/
def WithinUnit (bits result : BitVec 32) : Prop :=
  |setCompact bits - setCompact result| * 256 ^ 3 ≤ 256 ^ (bits >>> 24).toNat

/-- A number between the smallest and the largest element of a list. -/
def Between (x : ℤ) (l : List ℤ) : Prop := (∃ t ∈ l, t ≤ x) ∧ ∃ t ∈ l, x ≤ t

/-- What a gravity well is for: on a regular chain it returns the target it finds,
and the average it computes lies among the averaged targets. -/
def FixedPoint (fTestNet : Bool) (horizon : Horizon) (chain : Iterator) : Prop :=
  (∀ bits, Regular fTestNet chain bits →
    ∃ r, nextBlockDifficulty fTestNet horizon chain = .ok r ∧ WithinUnit bits r) ∧
  ∀ breakingEl r,
    breakingElement fTestNet horizon (blockPeriodByDesign fTestNet) chain
      (chain.drop (chain.length - 1)) = .ok breakingEl →
    retarget fTestNet (blockPeriodByDesign fTestNet) chain breakingEl = .ok r →
    Between r.pastDifficultyAverage (averagedTargets chain (chain.length - breakingEl.length))

theorem Regular.time {fTestNet : Bool} {chain : Iterator} {bits : BitVec 32}
    (h : Regular fTestNet chain bits) (k : ℕ) (first bi : InfoType)
    (hfirst : chain[0]? = some first) (hbi : chain[k]? = some bi) :
    first.time.toNat = bi.time.toNat + k * blockPeriodByDesign fTestNet := by
  induction k generalizing bi with
  | zero =>
    obtain rfl : first = bi := Option.some.inj (hfirst.symm.trans hbi)
    omega
  | succ k ih =>
    have hlt := (List.getElem?_eq_some_iff.mp hbi).1
    have hprev : chain[k]? = some chain[k] := List.getElem?_eq_getElem (by omega)
    rw [ih chain[k] hprev, h.spaced k _ _ hprev hbi]
    ring

theorem Regular.averaged {fTestNet : Bool} {chain : Iterator} {bits : BitVec 32}
    (h : Regular fTestNet chain bits) (k : ℕ) :
    ∀ t ∈ averagedTargets chain k, t = setCompact bits := by
  intro t ht
  obtain ⟨bi, hbi, rfl⟩ := List.mem_map.mp ht
  rw [InfoType.target, h.same bi (List.mem_of_mem_take hbi)]

theorem Regular.sum {fTestNet : Bool} {chain : Iterator} {bits : BitVec 32}
    (h : Regular fTestNet chain bits) (k : ℕ) (hk : k < chain.length) :
    (averagedTargets chain k).sum = k * setCompact bits := by
  have hrep := List.eq_replicate_of_mem (h.averaged k)
  rw [averagedTargets_length hk] at hrep
  rw [hrep, List.sum_replicate, nsmul_eq_mul]

/-- The code divides a sum over `k` blocks by `k + 1`, and `k` periods by `k + 1`
periods. -/
theorem Regular.newTarget_le {fTestNet : Bool} {chain : Iterator} {bits : BitVec 32}
    (h : Regular fTestNet chain bits) (hvalid : Valid fTestNet chain) (k : ℕ) (hone : 1 ≤ k)
    (first bi : InfoType) (hfirst : chain[0]? = some first) (hbi : chain[k]? = some bi) :
    newTarget fTestNet (pastAverage chain k) (timePassed first bi) k * (k + 1) ^ 2 ≤
      k ^ 2 * setCompact bits := by
  have hk := (List.getElem?_eq_some_iff.mp hbi).1
  have hperiod := blockPeriod_pos fTestNet
  have hactual : timePassed first bi = k * blockPeriodByDesign fTestNet := by
    have htime := h.time k first bi hfirst hbi
    have hspan : 0 < k * blockPeriodByDesign fTestNet := Nat.mul_pos hone hperiod
    rw [timePassed, if_neg (by omega), htime]
    push_cast
    ring
  have haverage : pastAverage chain k * (k + 1) ≤ k * setCompact bits := by
    rw [pastAverage_eq hvalid, h.sum k hk]
    exact Int.ediv_mul_le _ (by omega)
  have hquot : newTarget fTestNet (pastAverage chain k) (timePassed first bi) k *
      (blockPeriodByDesign fTestNet * (k + 1)) ≤
        pastAverage chain k * (k * blockPeriodByDesign fTestNet) := by
    have hnonneg : 0 ≤ pastAverage chain k * (k * blockPeriodByDesign fTestNet) :=
      Int.mul_nonneg (pastAverage_nonneg hvalid k) (by positivity)
    have hpos : (0 : ℤ) < blockPeriodByDesign fTestNet * (k + 1) := by positivity
    rw [← Int.le_ediv_iff_mul_le hpos, ← Int.tdiv_eq_ediv_of_nonneg hnonneg, hactual]
    exact min_le_left _ _
  have hscaled : newTarget fTestNet (pastAverage chain k) (timePassed first bi) k * (k + 1) ≤
      pastAverage chain k * k := by
    have hpos : (0 : ℤ) < blockPeriodByDesign fTestNet := by exact_mod_cast hperiod
    refine le_of_mul_le_mul_right ?_ hpos
    calc newTarget fTestNet (pastAverage chain k) (timePassed first bi) k * (k + 1) *
          blockPeriodByDesign fTestNet
        = newTarget fTestNet (pastAverage chain k) (timePassed first bi) k *
          (blockPeriodByDesign fTestNet * (k + 1)) := by ring
      _ ≤ pastAverage chain k * (k * blockPeriodByDesign fTestNet) := hquot
      _ = pastAverage chain k * k * blockPeriodByDesign fTestNet := by ring
  calc newTarget fTestNet (pastAverage chain k) (timePassed first bi) k * (k + 1) ^ 2
      = newTarget fTestNet (pastAverage chain k) (timePassed first bi) k * (k + 1) * (k + 1) := by
        ring
    _ ≤ pastAverage chain k * k * (k + 1) := mul_le_mul_of_nonneg_right hscaled (by positivity)
    _ = pastAverage chain k * (k + 1) * k := by ring
    _ ≤ k * setCompact bits * k := mul_le_mul_of_nonneg_right haverage (by positivity)
    _ = k ^ 2 * setCompact bits := by ring

/-- The mantissa of a canonical target has at least 16 bits. -/
theorem canonical_large (bits : BitVec 32) (fTestNet : Bool) (hpos : 0 < setCompact bits)
    (hle : setCompact bits ≤ limit fTestNet) (hcanonical : getCompact (setCompact bits) = bits) :
    (2 : ℤ) ^ 15 * 256 ^ (bits >>> 24).toNat ≤ setCompact bits * 256 ^ 3 := by
  obtain ⟨n, hn⟩ := Int.eq_ofNat_of_zero_le hpos.le
  have hn0 : 0 < n := by omega
  have hlt : (n : ℤ) < 256 ^ 31 := by
    rw [← hn]
    exact hle.trans_lt (limit_bounds fTestNet).2
  have hbytes := numBytes_lt n 31 (by exact_mod_cast hlt)
  obtain ⟨hlow, hhigh, hword, -⟩ := mantissa_spec n hn0
  have hcount : byteCount n < 2 ^ 8 := by
    unfold byteCount
    split_ifs <;> omega
  have hbits : (bits >>> 24).toNat = byteCount n := by
    rw [← hcanonical, hn, getCompact_eq n hn0, BitVec.toNat_ushiftRight,
      word_toNat _ _ (by omega) hcount, Nat.shiftRight_eq_div_pow]
    omega
  rw [hbits, hn]
  have hchain : 2 ^ 15 * 256 ^ byteCount n ≤ n * 256 ^ 3 :=
    (Nat.mul_le_mul_right _ hlow).trans hword
  exact_mod_cast hchain

/-- On no regular chain does the code return the chain's target: it is off by more
than one part in `k + 1`, and a unit is less than one part in 2^15. -/
theorem regular_not_withinUnit (fTestNet : Bool) (horizon : Horizon) (chain : Iterator)
    (bits : BitVec 32) (hheights : Heights chain) (hvalid : Valid fTestNet chain)
    (hlong : pastBlocksMin fTestNet < chain.length) (h : Regular fTestNet chain bits) :
    ∃ r, nextBlockDifficulty fTestNet horizon chain = .ok r ∧ ¬ WithinUnit bits r := by
  obtain ⟨k, first, bi, hk, hfirst, hbi, hresult⟩ :=
    nextBlockDifficulty_long fTestNet horizon hheights hlong
  refine ⟨_, hresult, fun hunit => ?_⟩
  have hmin := pastBlocksMin_pos fTestNet
  have hle := hk.le
  have hmax := hk.le_max
  have hmaxbound : pastBlocksMax fTestNet < 2 ^ 15 - 1 := by cases fTestNet <;> decide
  set t := newTarget fTestNet (pastAverage chain k) (timePassed first bi) k with ht
  have hnew := h.newTarget_le hvalid k (by omega) first bi hfirst hbi
  have hfirstmem : first ∈ chain := List.mem_of_getElem? hfirst
  obtain ⟨hpos, hlimit⟩ := hvalid first hfirstmem
  rw [InfoType.target, h.same first hfirstmem] at hpos hlimit
  have hlarge := canonical_large bits fTestNet hpos hlimit h.canonical
  have hround := (round_target fTestNet t (newTarget_nonneg fTestNet _ _ k
    (pastAverage_nonneg hvalid k) (timePassed_pos first bi)) (min_le_right _ _)).2.1
  set D := setCompact bits with hD
  set unit : ℤ := 256 ^ (bits >>> 24).toNat with hunitdef
  have hgap : D ≤ (D - t) * (k + 1) := by
    have hk0 : (0 : ℤ) ≤ k := Int.natCast_nonneg k
    have hk1 : (0 : ℤ) < (k : ℤ) + 1 := by omega
    refine le_of_mul_le_mul_right ?_ hk1
    nlinarith [mul_nonneg hk0 hpos.le]
  have hdiff : (D - t) * 256 ^ 3 ≤ unit := by
    have habs : D - t ≤ |D - setCompact (getCompact t)| :=
      (by omega : D - t ≤ D - setCompact (getCompact t)).trans (le_abs_self _)
    exact (mul_le_mul_of_nonneg_right habs (by norm_num)).trans hunit
  have hunitpos : 0 < unit := by positivity
  have hkbound : (k : ℤ) + 1 < 2 ^ 15 := by omega
  have hcontra : D * 256 ^ 3 < 2 ^ 15 * unit := by
    calc D * 256 ^ 3 ≤ (D - t) * (k + 1) * 256 ^ 3 := mul_le_mul_of_nonneg_right hgap (by norm_num)
      _ = (D - t) * 256 ^ 3 * (k + 1) := by ring
      _ ≤ unit * (k + 1) := mul_le_mul_of_nonneg_right hdiff (by positivity)
      _ < unit * 2 ^ 15 := mul_lt_mul_of_pos_left hkbound hunitpos
      _ = 2 ^ 15 * unit := mul_comm _ _
  exact absurd hlarge (not_le.mpr hcontra)

theorem exists_least (l : List ℤ) (hl : l ≠ []) : ∃ m ∈ l, ∀ t ∈ l, m ≤ t := by
  have hne : l.toFinset.Nonempty := List.toFinset_nonempty_iff l |>.mpr hl
  obtain ⟨m, hm, hle⟩ := l.toFinset.exists_min_image id hne
  exact ⟨m, List.mem_toFinset.mp hm, fun t ht => hle t (List.mem_toFinset.mpr ht)⟩

theorem exists_greatest (l : List ℤ) (hl : l ≠ []) : ∃ m ∈ l, ∀ t ∈ l, t ≤ m := by
  have hne : l.toFinset.Nonempty := List.toFinset_nonempty_iff l |>.mpr hl
  obtain ⟨m, hm, hle⟩ := l.toFinset.exists_max_image id hne
  exact ⟨m, List.mem_toFinset.mp hm, fun t ht => hle t (List.mem_toFinset.mpr ht)⟩

/-- How far the elements of a list lie above `m`, in total. -/
def excess (l : List ℤ) (m : ℤ) : ℤ := (l.map fun t => t - m).sum

theorem excess_eq (l : List ℤ) (m : ℤ) : excess l m = l.sum - l.length * m := by
  induction l with
  | nil => simp [excess]
  | cons t l ih =>
    simp only [excess, List.map_cons, List.sum_cons, List.length_cons] at ih ⊢
    rw [ih]
    push_cast
    ring

/-- An average over `k` elements that is divided by `k + 1` never lies above the
largest of them, and lies above the smallest when the total excess makes up
for the missing element. -/
theorem between_iff (l : List ℤ) (hl : l ≠ []) (hpos : ∀ t ∈ l, 0 < t) :
    Between (l.sum / (l.length + 1)) l ↔
      ∃ m ∈ l, (∀ t ∈ l, m ≤ t) ∧ m ≤ excess l m := by
  have hlen : (0 : ℤ) < l.length + 1 := by omega
  constructor
  · rintro ⟨⟨t, ht, hle⟩, -⟩
    obtain ⟨m, hm, hleast⟩ := exists_least l hl
    refine ⟨m, hm, hleast, ?_⟩
    have hmul := (Int.le_ediv_iff_mul_le hlen).mp ((hleast t ht).trans hle)
    rw [excess_eq]
    linarith
  · rintro ⟨m, hm, -, hexcess⟩
    obtain ⟨M, hM, hgreatest⟩ := exists_greatest l hl
    refine ⟨⟨m, hm, ?_⟩, M, hM, ?_⟩
    · rw [excess_eq] at hexcess
      rw [Int.le_ediv_iff_mul_le hlen]
      linarith
    · have hsum := List.sum_le_card_nsmul l M hgreatest
      rw [nsmul_eq_mul] at hsum
      have hM0 := hpos M hM
      rw [← Int.lt_add_one_iff, Int.ediv_lt_iff_lt_mul hlen]
      linarith

/-- On every chain where the averaging runs: when the chain is regular the result is
not its target, and the gravity well is one exactly when the averaged targets
lie far enough above the smallest of them. Targets that are all equal never
do. -/
theorem fixedPoint_iff (fTestNet : Bool) (horizon : Horizon) (chain : Iterator) (k : ℕ)
    (hheights : Heights chain) (hvalid : Valid fTestNet chain)
    (hk : BreaksAt fTestNet horizon chain k) :
    (∀ bits, Regular fTestNet chain bits →
      ∃ r, nextBlockDifficulty fTestNet horizon chain = .ok r ∧ ¬ WithinUnit bits r) ∧
    (FixedPoint fTestNet horizon chain ↔
      ∃ m ∈ averagedTargets chain k, (∀ t ∈ averagedTargets chain k, m ≤ t) ∧
        m ≤ excess (averagedTargets chain k) m) := by
  have hmin := pastBlocksMin_pos fTestNet
  have hle := hk.le
  have hklt := hk.lt
  have hlen := averagedTargets_length hklt
  have hne : averagedTargets chain k ≠ [] := by
    intro hnil
    rw [hnil, List.length_nil] at hlen
    omega
  have hpos : ∀ t ∈ averagedTargets chain k, 0 < t := fun t ht => (hvalid.averaged k t ht).1
  have hbetween := between_iff (averagedTargets chain k) hne hpos
  rw [hlen, ← pastAverage_eq hvalid] at hbetween
  have hbreaking := breakingElement_eq fTestNet horizon hk
  have hrange : chain.length - (chain.drop k).length = k := by
    rw [List.length_drop]
    omega
  have hretarget := retarget_spec fTestNet hheights k chain[0] chain[k]
    (List.getElem?_eq_getElem (by omega)) (List.getElem?_eq_getElem hklt)
  refine ⟨fun bits => regular_not_withinUnit fTestNet horizon chain bits hheights hvalid hk.long,
    ?_⟩
  rw [← hbetween]
  constructor
  · rintro ⟨-, haverage⟩
    have hresult := haverage _ _ hbreaking hretarget
    rwa [hrange] at hresult
  · intro hb
    refine ⟨fun bits hregular => ?_, ?_⟩
    · -- a regular chain has no excess at all
      obtain ⟨m, hm, -, hexcess⟩ := hbetween.mp hb
      have hm0 := hpos m hm
      rw [excess_eq, hregular.sum k hklt, hlen, hregular.averaged k m hm] at hexcess
      rw [hregular.averaged k m hm] at hm0
      omega
    · intro breakingEl r hel hr
      obtain rfl : chain.drop k = breakingEl := Except.ok.inj (hbreaking.symm.trans hel)
      obtain rfl := Except.ok.inj (hretarget.symm.trans hr)
      rw [hrange]
      exact hb

/-- A horizon that never breaks: the search runs to genesis. -/
theorem breaksAt_spacedChain (step : ℕ) :
    BreaksAt false (fun _ _ _ => false) (spacedChain 0x1d00ffff step 13) 13 := by
  have hlen := spacedChain_length 0x1d00ffff step 13
  refine ⟨by rw [hlen]; decide, by decide, by omega, fun h => absurd h (by omega), ?_⟩
  rintro j - hj ⟨_, _, _, _, hfires⟩
  have hbound : pastBlocksMax false = 320 := by decide
  rcases hfires with hmax | hhorizon
  · omega
  · exact absurd hhorizon Bool.false_ne_true

/-- Fourteen regular blocks: the next target is about 0.86 times theirs. -/
theorem gravityWell_drifts :
    Regular false (spacedChain 0x1d00ffff 270 13) 0x1d00ffff ∧
      nextBlockDifficulty false (fun _ _ _ => false) (spacedChain 0x1d00ffff 270 13) =
        .ok 0x1d00dcbb ∧
      ¬ FixedPoint false (fun _ _ _ => false) (spacedChain 0x1d00ffff 270 13) := by
  have hregular : Regular false (spacedChain 0x1d00ffff 270 13) 0x1d00ffff := by
    refine ⟨by decide, difficulty_spacedChain _ _ _, fun i a b ha hb => ?_⟩
    obtain ⟨-, hta⟩ := time_spacedChain _ _ _ _ a ha
    obtain ⟨hi, htb⟩ := time_spacedChain _ _ _ _ b hb
    have hperiod : blockPeriodByDesign false = 270 := rfl
    rw [hta, htb, BitVec.toNat_ofNat, BitVec.toNat_ofNat, hperiod, Nat.mod_eq_of_lt (by omega),
      Nat.mod_eq_of_lt (by omega)]
    omega
  refine ⟨hregular, by decide, fun hfixed => ?_⟩
  obtain ⟨r, hr, hunit⟩ := hfixed.1 _ hregular
  obtain ⟨r', hr', hnot⟩ := regular_not_withinUnit false (fun _ _ _ => false) _ _
    (heights_spacedChain 0x1d00ffff 270 13)
    (valid_spacedChain _ _ _ _ (by decide) (by decide))
    (breaksAt_spacedChain 270).long hregular
  obtain rfl := Except.ok.inj (hr.symm.trans hr')
  exact hnot hunit

theorem fixedPoint_iff_spaced :
    ¬ FixedPoint false (fun _ _ _ => false) (spacedChain 0x1d00ffff 100 13) := by
  have hall : ∀ t ∈ averagedTargets (spacedChain 0x1d00ffff 100 13) 13,
      t = setCompact 0x1d00ffff := by
    intro t ht
    obtain ⟨bi, hbi, rfl⟩ := List.mem_map.mp ht
    rw [InfoType.target, difficulty_spacedChain _ _ _ bi (List.mem_of_mem_take hbi)]
  rw [(fixedPoint_iff false (fun _ _ _ => false) (spacedChain 0x1d00ffff 100 13) 13
    (heights_spacedChain _ _ _)
    (valid_spacedChain _ _ _ _ (by decide) (by decide))
    (breaksAt_spacedChain 100)).2]
  rintro ⟨m, hm, -, hexcess⟩
  rw [hall m hm] at hexcess
  revert hexcess
  decide

end UmbrellaLtc.KgwFixedPoint
