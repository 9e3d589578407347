import UmbrellaLtc.BigFixed
import UmbrellaLtc.DifficultyWord

/-!
The DigiShield algorithm of algos/retarget.cpp. The time between the last two blocks can be
negative, and with the steps not limited only a time of zero is replaced. The limits make every
time positive.
-/

namespace UmbrellaLtc.DigiShield

open Compact MachineInt SafeInt FixedPoint BigFixed Kgw DifficultyWord

/-- The clock's duration, in seconds. -/
abbrev Duration := Signed 63

/-- The amplitude filter and the two bounds; none where a product or a difference overflows. -/
def limitTimespan (desired actual : Duration) : Option Duration := do
  let difference ← machine 63 (actual.1 - desired.1)
  let eighth ← machine 63 (difference.1.tdiv 8)
  let actual ← machine 63 (desired.1 + eighth.1)
  let triple ← machine 63 (desired.1 * 3)
  let low ← machine 63 (triple.1.tdiv 4)
  let high ← machine 63 (triple.1.tdiv 2)
  let actual := if actual.1 < low.1 then low else actual
  return if actual.1 > high.1 then high else actual

/-- nActualTimespan as it is used for the retarget. -/
def actualTimespan (limitSteps : Bool) (desired : Duration) (last prev : InfoType) :
    Option Duration := do
  let actual ← machine 63 (last.time.toNat - prev.time.toNat)
  let actual ← if limitSteps then limitTimespan desired actual else some actual
  if actual.1 = 0 then machine 63 1 else return actual

/-- difficulty_impl<pars::digishield>::next_block_difficulty; none where it throws or is
undefined. -/
def digishieldNextBlockDifficulty (fTestNet limitSteps : Bool) (desired : Duration)
    (rbegin rend : Iterator) : Option (BitVec 32) :=
  if rbegin = rend then some (minDifficultyByDesign fTestNet)
  else do
    let last ← (deref rbegin).toOption
    let prev ← (next rbegin).toOption
    let prev ← (deref prev).toOption
    let actual ← actualTimespan limitSteps desired last prev
    let bnNew ← mulAssign last.target (⟨ofInt 63 actual.1⟩ : Fixed 63 seconds)
    let bnNew ← divAssign bnNew (⟨ofInt 63 desired.1⟩ : Fixed 63 seconds)
    return getCompact (if bnNew > limit fTestNet then limit fTestNet else bnNew)

/-- Between 3/4 and 3/2 of the target. At the lower end the time is truncated to seconds, the
target to an integer and that to a compact number. -/
structure InBand (desired : Duration) (target result : ℤ) : Prop where
  low : setCompact (getCompact ((target * (desired.1 * 3 / 4)) / desired.1)) ≤ result
  high : 2 * result ≤ 3 * target

/-- What is asked of the difficulty that follows `last`. -/
def Retargeted (fTestNet limitSteps : Bool) (desired : Duration) (last : InfoType)
    (result : Option (BitVec 32)) : Prop :=
  ∃ nBits, result = some nBits ∧ isValid fTestNet nBits = true ∧
    (limitSteps = true → InBand desired last.target (setCompact nBits))

/-- The exact condition, besides the assumptions on the last difficulty. -/
def Retargetable (limitSteps : Bool) (desired : Duration) (last prev : InfoType) : Prop :=
  if limitSteps then desired.1 * 3 < 2 ^ 63
  else prev.time.toNat ≤ last.time.toNat ∧ desired.1 < 2 ^ 62

section Timespan

variable {desired actual : Duration}

/-- The bounds enclose every filtered time. -/
theorem limitTimespan_eq (hpos : 0 < desired.1) (hfits : desired.1 * 3 < 2 ^ 63)
    (hactual : actual.1.natAbs < 2 ^ 32) :
    ∃ r, limitTimespan desired actual = some r ∧ desired.1 * 3 / 4 ≤ r.1 ∧
      r.1 ≤ desired.1 * 3 / 2 := by
  obtain ⟨desired, hdesired⟩ := desired
  obtain ⟨actual, hrange⟩ := actual
  simp only at hpos hfits hactual ⊢
  have hfour : (desired * 3).tdiv 4 = desired * 3 / 4 := Int.tdiv_eq_ediv_of_nonneg (by omega)
  have htwo : (desired * 3).tdiv 2 = desired * 3 / 2 := Int.tdiv_eq_ediv_of_nonneg (by omega)
  have heighth : ((actual - desired).tdiv 8).natAbs ≤ (actual - desired).natAbs / 8 := by
    rw [Int.natAbs_tdiv]
    exact le_rfl
  have hdifference : InRange 63 (actual - desired) := by
    unfold InRange
    omega
  have hquotient : InRange 63 ((actual - desired).tdiv 8) := by
    unfold InRange
    omega
  have hsum : InRange 63 (desired + (actual - desired).tdiv 8) := by
    unfold InRange
    omega
  have htriple : InRange 63 (desired * 3) := by
    unfold InRange
    omega
  have hlow : InRange 63 (desired * 3 / 4) := by
    unfold InRange
    omega
  have hhigh : InRange 63 (desired * 3 / 2) := by
    unfold InRange
    omega
  unfold limitTimespan
  simp only [machine_eq hdifference, machine_eq hquotient, machine_eq hsum, machine_eq htriple,
    hfour, htwo, machine_eq hlow, machine_eq hhigh, Option.bind_eq_bind, Option.bind_some]
  refine ⟨_, rfl, ?_⟩
  generalize desired + (actual - desired).tdiv 8 = filtered at hsum
  have hbounds : desired * 3 / 4 ≤ desired * 3 / 2 := by omega
  by_cases hless : filtered < desired * 3 / 4
  · simp only [if_pos hless, if_neg (not_lt.mpr hbounds), gt_iff_lt]
    exact ⟨le_rfl, hbounds⟩
  · simp only [if_neg hless, gt_iff_lt]
    by_cases hmore : desired * 3 / 2 < filtered
    · rw [if_pos hmore]
      exact ⟨hbounds, le_rfl⟩
    · rw [if_neg hmore]
      exact ⟨not_lt.mp hless, not_lt.mp hmore⟩

/-- Three times the desired time is computed for every block. -/
theorem limitTimespan_none (h : ¬ desired.1 * 3 < 2 ^ 63) : limitTimespan desired actual = none := by
  have htriple : machine 63 (desired.1 * 3) = none := machine_none fun hrange => h hrange.2
  unfold limitTimespan
  simp only [htriple, Option.bind_eq_bind, Option.bind_none, Option.bind_fun_none]

theorem machine_timespan (last prev : InfoType) :
    ∃ actual : Duration, machine 63 (last.time.toNat - prev.time.toNat) = some actual ∧
      actual.1 = last.time.toNat - prev.time.toNat ∧ actual.1.natAbs < 2 ^ 32 := by
  have hlast := last.time.isLt
  have hprev := prev.time.isLt
  have hrange : InRange 63 (last.time.toNat - prev.time.toNat) := by
    unfold InRange
    omega
  exact ⟨_, machine_eq hrange, rfl, by dsimp only; omega⟩

/-- With limits the time is positive and within them. -/
theorem actualTimespan_limited (hpos : 0 < desired.1) (hfits : desired.1 * 3 < 2 ^ 63)
    (last prev : InfoType) :
    ∃ r, actualTimespan true desired last prev = some r ∧ 0 < r.1 ∧
      desired.1 * 3 / 4 ≤ r.1 ∧ r.1 ≤ desired.1 * 3 / 2 := by
  obtain ⟨actual, hmachine, -, hsmall⟩ := machine_timespan last prev
  obtain ⟨r, hlimit, hlow, hhigh⟩ := limitTimespan_eq hpos hfits hsmall
  have hone : InRange 63 1 := by decide
  unfold actualTimespan
  simp only [hmachine, hlimit, Option.bind_eq_bind, Option.bind_some, if_pos]
  by_cases hzero : r.1 = 0
  · rw [if_pos hzero]
    exact ⟨_, machine_eq hone, by simp only; omega⟩
  · rw [if_neg hzero]
    exact ⟨r, rfl, by omega⟩

theorem actualTimespan_overflow (h : ¬ desired.1 * 3 < 2 ^ 63) (last prev : InfoType) :
    actualTimespan true desired last prev = none := by
  obtain ⟨actual, hmachine, -⟩ := machine_timespan last prev
  unfold actualTimespan
  simp only [hmachine, limitTimespan_none h, Option.bind_eq_bind, Option.bind_some, if_pos,
    Option.bind_none]

/-- Without limits the time keeps its sign, and only zero is replaced. -/
theorem actualTimespan_unlimited (desired : Duration) (last prev : InfoType) :
    ∃ r, actualTimespan false desired last prev = some r ∧ r.1.natAbs < 2 ^ 62 ∧ r.1 ≠ 0 ∧
      (0 < r.1 ↔ prev.time.toNat ≤ last.time.toNat) := by
  obtain ⟨actual, hmachine, heq, hsmall⟩ := machine_timespan last prev
  have hone : InRange 63 1 := by decide
  unfold actualTimespan
  simp only [hmachine, Option.bind_eq_bind, Option.bind_some, Bool.false_eq_true, if_false]
  by_cases hzero : actual.1 = 0
  · rw [if_pos hzero]
    exact ⟨_, machine_eq hone, by simp only; omega⟩
  · rw [if_neg hzero]
    exact ⟨actual, rfl, by omega⟩

end Timespan

section Retarget

variable {fTestNet limitSteps : Bool} {desired : Duration} {last prev : InfoType}
  {rest rend : Iterator}

theorem digishield_none (hend : last :: prev :: rest ≠ rend)
    (h : actualTimespan limitSteps desired last prev = none) :
    digishieldNextBlockDifficulty fTestNet limitSteps desired (last :: prev :: rest) rend =
      none := by
  rw [digishieldNextBlockDifficulty, if_neg hend]
  show (actualTimespan limitSteps desired last prev >>= _) = none
  rw [h]
  rfl

/-- The result for a time span that is known. -/
theorem digishield_iff (hend : last :: prev :: rest ≠ rend) (hpos : 0 < desired.1) {r : Duration}
    (h : actualTimespan limitSteps desired last prev = some r) (nBits : BitVec 32) :
    digishieldNextBlockDifficulty fTestNet limitSteps desired (last :: prev :: rest) rend =
        some nBits ↔
      r.1.natAbs < 2 ^ 62 ∧ desired.1 < 2 ^ 62 ∧
        nBits = getCompact (min ((last.target * r.1).tdiv desired.1) (limit fTestNet)) := by
  have hof : ∀ x : Duration, ofInt 63 x.1 = ⟨x, true, false⟩ := fun x => ofInt_inRange x.2
  have hmin : ∀ bnNew, (if bnNew > limit fTestNet then limit fTestNet else bnNew) =
      min bnNew (limit fTestNet) := by
    intro bnNew
    split_ifs with hmore
    · exact (min_eq_right (le_of_lt hmore)).symm
    · exact (min_eq_left (not_lt.mp hmore)).symm
  have hsteps : digishieldNextBlockDifficulty fTestNet limitSteps desired
      (last :: prev :: rest) rend =
        (mulAssign last.target (⟨ofInt 63 r.1⟩ : Fixed 63 seconds) >>= fun bnNew =>
          (divAssign bnNew (⟨ofInt 63 desired.1⟩ : Fixed 63 seconds)).map fun bnNew =>
            getCompact (min bnNew (limit fTestNet))) := by
    rw [digishieldNextBlockDifficulty, if_neg hend]
    show (actualTimespan limitSteps desired last prev >>= _) = _
    rw [h]
    simp only [Option.bind_eq_bind, Option.bind_some, Option.pure_def, hmin, Option.map_eq_bind,
      Function.comp_def]
  have hdivide : ∀ a q : ℤ, divAssign a (⟨ofInt 63 desired.1⟩ : Fixed 63 seconds) = some q ↔
      desired.1 < 2 ^ 62 ∧ q = a.tdiv desired.1 := by
    intro a q
    rw [divAssign_iff _ _ _ (by rw [hof]; exact hpos.ne')]
    simp only [hof, show (seconds.den : ℤ) = 1 from rfl, fits_one_iff seconds, mul_one, true_and]
    have habs : desired.1.natAbs < 2 ^ (63 - 1) ↔ desired.1 < 2 ^ 62 := by omega
    rw [habs, and_self_left]
  have hmultiply : ∀ q : ℤ, mulAssign last.target (⟨ofInt 63 r.1⟩ : Fixed 63 seconds) = some q ↔
      r.1.natAbs < 2 ^ 62 ∧ q = last.target * r.1 := by
    intro q
    rw [mulAssign_iff]
    simp only [hof, show (seconds.den : ℤ) = 1 from rfl, Int.tdiv_one, true_and]
  rw [hsteps, Option.bind_eq_bind, Option.bind_eq_some_iff]
  simp only [Option.map_eq_some_iff, hmultiply, hdivide]
  constructor
  · rintro ⟨_, ⟨hsmall, rfl⟩, _, ⟨hdesired, rfl⟩, rfl⟩
    exact ⟨hsmall, hdesired, rfl⟩
  · rintro ⟨hsmall, hdesired, rfl⟩
    exact ⟨_, ⟨hsmall, rfl⟩, _, ⟨hdesired, rfl⟩, rfl⟩

/-- A positive time gives a target of at least one, and its compact number is valid. -/
theorem isValid_of_pos (hpos : 0 < desired.1) (hlarge : desired.1 ≤ last.target) {a : ℤ}
    (ha : 0 < a) :
    isValid fTestNet
      (getCompact (min ((last.target * a).tdiv desired.1) (limit fTestNet))) = true := by
  have hproduct : desired.1 ≤ last.target * a := by
    calc desired.1 ≤ last.target := hlarge
      _ ≤ last.target * a := le_mul_of_one_le_right (by omega) ha
  have hquotient : 0 < (last.target * a).tdiv desired.1 := by
    rw [Int.tdiv_eq_ediv_of_nonneg (by omega)]
    exact Int.le_ediv_of_mul_le hpos (by omega)
  have hbound := lt_min hquotient (limit_bounds fTestNet).1
  have hle := min_le_right ((last.target * a).tdiv desired.1) (limit fTestNet)
  obtain ⟨-, hround, hrpos⟩ := round_target fTestNet _ hbound.le hle
  rw [isValid_iff]
  exact ⟨hrpos hbound, hround.trans hle⟩

/-- The sign bit is kept. -/
theorem decoded_nonpos {n : ℤ} (hn : n < 0) : setCompact (getCompact n) ≤ 0 := by
  have hsign : getCompact n &&& 0x00800000 ≠ 0 := by
    have habsorb : ∀ word mask : BitVec 32, (word ||| mask) &&& mask = mask := by
      intro word mask
      ext i
      rw [BitVec.getElem_and, BitVec.getElem_or]
      cases word[i] <;> cases mask[i] <;> rfl
    simp only [getCompact, if_pos hn, habsorb]
    decide
  unfold setCompact
  rw [if_pos hsign]
  exact neg_nonpos.mpr (Int.natCast_nonneg _)

/-- A negative time gives a negative target. -/
theorem isValid_of_neg (hpos : 0 < desired.1) (hlarge : desired.1 ≤ last.target) {a : ℤ}
    (ha : a < 0) :
    isValid fTestNet
      (getCompact (min ((last.target * a).tdiv desired.1) (limit fTestNet))) = false := by
  have hproduct : desired.1 ≤ -(last.target * a) := by
    calc desired.1 ≤ last.target := hlarge
      _ ≤ last.target * -a := le_mul_of_one_le_right (by omega) (by omega)
      _ = -(last.target * a) := Int.mul_neg _ _
  have hquotient : (last.target * a).tdiv desired.1 < 0 := by
    have hopp : 1 ≤ -(last.target * a) / desired.1 := Int.le_ediv_of_mul_le hpos (by omega)
    rw [← Int.tdiv_eq_ediv_of_nonneg (by omega), Int.neg_tdiv] at hopp
    omega
  have hnonpos := decoded_nonpos ((min_le_left _ (limit fTestNet)).trans_lt hquotient)
  rw [Bool.eq_false_iff, Ne, isValid_iff]
  exact fun hvalid => absurd hvalid.1 (not_lt.mpr hnonpos)

/-- The times within the bounds give targets within theirs. -/
theorem inBand (hpos : 0 < desired.1) (hlarge : desired.1 ≤ last.target)
    (hvalid : isValid fTestNet last.difficulty = true) {a : ℤ}
    (hlow : desired.1 * 3 / 4 ≤ a) (hhigh : a ≤ desired.1 * 3 / 2) :
    InBand desired last.target (setCompact
      (getCompact (min ((last.target * a).tdiv desired.1) (limit fTestNet)))) := by
  have hlimit : last.target ≤ limit fTestNet := ((isValid_iff _ _).mp hvalid).2
  have hquarters : 0 ≤ last.target * (desired.1 * 3 / 4) := mul_nonneg (by omega) (by omega)
  have hscaled : last.target * (desired.1 * 3 / 4) ≤ last.target * a :=
    Int.mul_le_mul_of_nonneg_left hlow (by omega)
  have hless : last.target * (desired.1 * 3 / 4) ≤ last.target * desired.1 :=
    Int.mul_le_mul_of_nonneg_left (by omega) (by omega)
  have hquotient : (last.target * a).tdiv desired.1 = last.target * a / desired.1 :=
    Int.tdiv_eq_ediv_of_nonneg (by omega)
  have hnonneg : 0 ≤ last.target * (desired.1 * 3 / 4) / desired.1 :=
    Int.ediv_nonneg hquarters hpos.le
  have hmono : last.target * (desired.1 * 3 / 4) / desired.1 ≤
      min (last.target * a / desired.1) (limit fTestNet) := by
    refine le_min (Int.ediv_le_ediv hpos hscaled) ((Int.ediv_le_of_le_mul hpos hless).trans hlimit)
  have hmin := min_le_right (last.target * a / desired.1) (limit fTestNet)
  have hleft := min_le_left (last.target * a / desired.1) (limit fTestNet)
  rw [hquotient]
  constructor
  · obtain ⟨t, ht⟩ := Int.eq_ofNat_of_zero_le hnonneg
    obtain ⟨u, hu⟩ := Int.eq_ofNat_of_zero_le (hnonneg.trans hmono)
    rw [ht, hu] at hmono ⊢
    have hbound : (u : ℤ) < 256 ^ 31 := by
      rw [← hu]
      exact hmin.trans_lt (limit_bounds fTestNet).2
    refine CompactOrder.decoded_mono (by exact_mod_cast hmono) ?_
    calc u < 256 ^ 31 := by exact_mod_cast hbound
      _ < 2 ^ 256 := by norm_num
  · obtain ⟨-, hround, -⟩ := round_target fTestNet _ (hnonneg.trans hmono) hmin
    have hdouble : 2 * (last.target * a / desired.1) ≤ 3 * last.target := by
      refine Int.le_of_mul_le_mul_right ?_ hpos
      calc 2 * (last.target * a / desired.1) * desired.1 =
            2 * (last.target * a / desired.1 * desired.1) := by ring
        _ ≤ 2 * (last.target * a) :=
            Int.mul_le_mul_of_nonneg_left (Int.ediv_mul_le _ hpos.ne') (by omega)
        _ = last.target * (2 * a) := by ring
        _ ≤ last.target * (desired.1 * 3) :=
            Int.mul_le_mul_of_nonneg_left (by omega) (by omega)
        _ = 3 * last.target * desired.1 := by ring
    omega

end Retarget

/-- After a valid difficulty that is not below the desired time: with limited steps the next one
is valid and in the band, unless three times the desired time is no duration; without limits it
is valid just when the last block is not earlier than its parent. -/
theorem retargeted_iff (fTestNet limitSteps : Bool) (desired : Duration) (last prev : InfoType)
    (rest rend : Iterator) (hpos : 0 < desired.1)
    (hvalid : isValid fTestNet last.difficulty = true) (hlarge : desired.1 ≤ last.target)
    (hend : last :: prev :: rest ≠ rend) :
    Retargeted fTestNet limitSteps desired last
        (digishieldNextBlockDifficulty fTestNet limitSteps desired (last :: prev :: rest) rend) ↔
      Retargetable limitSteps desired last prev := by
  unfold Retargeted Retargetable
  cases limitSteps with
  | true =>
    rw [if_pos rfl]
    constructor
    · rintro ⟨nBits, hnext, -⟩
      by_contra hfits
      rw [digishield_none hend (actualTimespan_overflow hfits last prev)] at hnext
      exact absurd hnext (by simp)
    · intro hfits
      obtain ⟨r, hr, hrpos, hlow, hhigh⟩ := actualTimespan_limited hpos hfits last prev
      exact ⟨_, (digishield_iff hend hpos hr _).mpr ⟨by omega, by omega, rfl⟩,
        isValid_of_pos hpos hlarge hrpos, fun _ => inBand hpos hlarge hvalid hlow hhigh⟩
  | false =>
    rw [if_neg (by decide)]
    obtain ⟨r, hr, hsmall, hne, hsign⟩ := actualTimespan_unlimited desired last prev
    constructor
    · rintro ⟨nBits, hnext, hnew, -⟩
      obtain ⟨-, hdesired, rfl⟩ := (digishield_iff hend hpos hr _).mp hnext
      refine ⟨hsign.mp ?_, hdesired⟩
      by_contra hneg
      rw [isValid_of_neg hpos hlarge (by omega)] at hnew
      exact absurd hnew (by decide)
    · rintro ⟨horder, hdesired⟩
      exact ⟨_, (digishield_iff hend hpos hr _).mpr ⟨hsmall, hdesired, rfl⟩,
        isValid_of_pos hpos hlarge (hsign.mpr horder), fun h => absurd h (by decide)⟩

/-- The period of the live network, two blocks of the least difficulty. -/
def livePeriod : Duration := ⟨270, by decide⟩

/-- The last block is ten minutes later than its parent. -/
theorem retargeted_late :
    Retargeted false true livePeriod ⟨1, 0x1e07ffff, 600⟩
      (digishieldNextBlockDifficulty false true livePeriod
        [⟨1, 0x1e07ffff, 600⟩, ⟨0, 0x1e07ffff, 0⟩] []) :=
  (retargeted_iff false true livePeriod ⟨1, 0x1e07ffff, 600⟩ ⟨0, 0x1e07ffff, 0⟩ [] [] (by decide)
    (by decide) (by decide) (by decide)).mpr (show (270 : ℤ) * 3 < 2 ^ 63 by decide)

/-- The last block is a second earlier than its parent, and the next target negative. -/
theorem earlier_not_retargeted :
    ¬ ∀ (fTestNet limitSteps : Bool) (desired : Duration) (last prev : InfoType)
      (rest rend : Iterator), 0 < desired.1 → isValid fTestNet last.difficulty = true →
        desired.1 ≤ last.target → last :: prev :: rest ≠ rend →
          Retargeted fTestNet limitSteps desired last
            (digishieldNextBlockDifficulty fTestNet limitSteps desired (last :: prev :: rest)
              rend) := by
  intro hall
  obtain ⟨nBits, hnext, hvalid, -⟩ := hall false false livePeriod ⟨1, 0x1e07ffff, 599⟩
    ⟨0, 0x1e07ffff, 600⟩ [] [] (by decide) (by decide) (by decide) (by decide)
  have hresult : digishieldNextBlockDifficulty false false livePeriod
      [⟨1, 0x1e07ffff, 599⟩, ⟨0, 0x1e07ffff, 600⟩] [] = some 0x1d8795cd := by decide +kernel
  obtain rfl := Option.some.inj (hresult.symm.trans hnext)
  exact absurd hvalid (by decide)

end UmbrellaLtc.DigiShield
