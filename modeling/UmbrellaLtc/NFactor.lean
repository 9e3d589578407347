import Mathlib.Data.BitVec
import Mathlib.Tactic.NormNum

/-!
The scrypt parameters of n_factor.cpp. Memory, cores and total memory double with every Moore
period by shifts, and the comparisons after the shifts put back a value that has wrapped around.
The cores are an `int`, whose shift is out of its range from the thirtieth period on; up to then
the memory grows to its limit and stays there.
-/

namespace UmbrellaLtc.NFactor

/-- howard_hinnant::days_from_civil. -/
def daysFromCivil (y : ℤ) (m d : ℕ) : ℤ :=
  let y := if m ≤ 2 then y - 1 else y
  let era := (if y ≥ 0 then y else y - 399).tdiv 400
  let yoe := (y - era * 400).toNat
  let doy := (153 * (if m > 2 then m - 3 else m + 9) + 2) / 5 + d - 1
  let doe := yoe * 365 + yoe / 4 - yoe / 100 + doy
  era * 146097 + doe - 719468

/-- In seconds, as all times here. -/
def birthTime : ℕ := (daysFromCivil 2014 5 5).toNat * (3600 * 24)

def avgMonth : ℕ := 3600 * 24 * 30

def moorePeriod : ℕ := 18 * avgMonth

def initialMem : ℕ := 1024 * 1024

def initialR : ℕ := 8

def birthTotalMemory : ℕ := 128 * (1024 * 1024)

def birthCores : ℕ := 2

def maxMem : ℕ := 8 * 1024 * 1024 * 1024

/-- A block time before the birth time is taken for that. -/
def clampTime (blockTime : ℕ) : ℕ := if blockTime < birthTime then birthTime else blockTime

def mooreSteps (blockTime : ℕ) : ℕ := (clampTime blockTime - birthTime) / avgMonth / 18

/-- The shift of an unsigned type of `width` bits, which wraps around. -/
def shiftUnsigned (width value amount : ℕ) : Option ℕ :=
  if amount < width then some (value * 2 ^ amount % 2 ^ width) else none

/-- The shift of a non-negative `int`; none where it is undefined. -/
def shiftInt (value amount : ℕ) : Option ℕ :=
  if amount < 32 ∧ value * 2 ^ amount < 2 ^ 31 then some (value * 2 ^ amount) else none

/-- `mem` after all the limits. -/
def memory (mooreSteps : ℕ) : Option ℕ := do
  let mem ← shiftUnsigned 64 initialMem mooreSteps
  let mem := if mem < initialMem then initialMem else mem
  let mem := if mem > maxMem then maxMem else mem
  let mooreCores ← shiftInt birthCores mooreSteps
  let mooreCores := if mooreCores < birthCores then birthCores else mooreCores
  let mooreTotalMemory ← shiftUnsigned 64 birthTotalMemory mooreSteps
  let mooreTotalMemory :=
    if mooreTotalMemory < birthTotalMemory then birthTotalMemory else mooreTotalMemory
  let mem := if mem > mooreTotalMemory then mooreTotalMemory else mem
  return if mem / initialMem > mooreCores then initialMem * mooreCores else mem

/-- `r0`. -/
def stepR (mooreSteps : ℕ) : Option ℕ := shiftUnsigned 32 initialR (mooreSteps / 5)

/-- `r`, which doubles in five periods after the last step of `r0`. -/
def speedR (time steps r0 : ℕ) : ℕ :=
  let lastStepTime := birthTime + steps * moorePeriod
  let lastRStepTime := lastStepTime - moorePeriod * (steps % 5)
  r0 + r0 * (time - lastRStepTime) / (5 * moorePeriod)

/-- The parameters of scrypt. -/
structure Parameters where
  N : ℕ
  r : ℕ
  p : ℕ

/-- `std::numeric_limits<uint32_t>::max()`. -/
def uint32Max : ℕ := 4294967295

/-- GetNfactor; none where it is undefined or throws. -/
def getNfactor (blockTime : ℕ) : Option Parameters := do
  let steps := mooreSteps blockTime
  let mem ← memory steps
  let r0 ← stepR steps
  let N := mem / (128 * r0 * 1)
  if N > uint32Max then none else return ⟨N, speedR (clampTime blockTime) steps r0, 1⟩

/-- The memory `128 * N * r0` that the schedule is about. -/
def memoryUsed (blockTime : ℕ) : Option ℕ := do
  let parameters ← getNfactor blockTime
  let r0 ← stepR (mooreSteps blockTime)
  return 128 * parameters.N * r0

/-- Every shift is by less than the width of its type and gives the exact product. -/
structure ShiftsFit (mooreSteps : ℕ) : Prop where
  mem : mooreSteps < 64 ∧ initialMem * 2 ^ mooreSteps < 2 ^ 64
  cores : mooreSteps < 32 ∧ birthCores * 2 ^ mooreSteps < 2 ^ 31
  total : mooreSteps < 64 ∧ birthTotalMemory * 2 ^ mooreSteps < 2 ^ 64
  r0 : mooreSteps / 5 < 32 ∧ initialR * 2 ^ (mooreSteps / 5) < 2 ^ 32

/-- What is promised of the parameters at a block time. -/
structure Scheduled (nTime : BitVec 32) : Prop where
  shifts : ShiftsFit (mooreSteps nTime.toNat)
  result : ∃ parameters, getNfactor nTime.toNat = some parameters ∧
    (∃ e, parameters.N = 2 ^ e) ∧ 8 ≤ parameters.r
  limit : ∀ m, memoryUsed nTime.toNat = some m → m ≤ maxMem
  nondecreasing : ∀ earlier : BitVec 32, earlier.toNat ≤ nTime.toNat → ∀ m m',
    memoryUsed earlier.toNat = some m → memoryUsed nTime.toNat = some m' → m ≤ m'

theorem birthTime_eq : birthTime = 1399248000 := by decide

theorem mooreSteps_eq (t : ℕ) : mooreSteps t = (t - 1399248000) / 46656000 := by
  unfold mooreSteps clampTime
  rw [birthTime_eq, Nat.div_div_eq_div_mul]
  split_ifs with hearly
  · rw [Nat.sub_self, Nat.zero_div]
    omega
  · rfl

theorem mooreSteps_mono {t t' : ℕ} (h : t ≤ t') : mooreSteps t ≤ mooreSteps t' := by
  rw [mooreSteps_eq, mooreSteps_eq]
  omega

theorem steps_lt_iff (t : ℕ) : mooreSteps t < 30 ↔ t < 2798928000 := by
  rw [mooreSteps_eq]
  omega

/-- The values of the first thirty periods. -/
theorem schedule_table : ∀ k < 30, memory k = some (2 ^ (20 + min k 13)) ∧
    stepR k = some (2 ^ (3 + k / 5)) ∧
    2 ^ (20 + min k 13) / (128 * 2 ^ (3 + k / 5) * 1) = 2 ^ (10 + min k 13 - k / 5) ∧
    128 * 2 ^ (10 + min k 13 - k / 5) * 2 ^ (3 + k / 5) = 2 ^ (20 + min k 13) := by
  decide

theorem shiftsFit_table : ∀ k < 30, (k < 64 ∧ initialMem * 2 ^ k < 2 ^ 64) ∧
    (k < 32 ∧ birthCores * 2 ^ k < 2 ^ 31) ∧ (k < 64 ∧ birthTotalMemory * 2 ^ k < 2 ^ 64) ∧
    (k / 5 < 32 ∧ initialR * 2 ^ (k / 5) < 2 ^ 32) := by
  decide

/-- The result where nothing is undefined and N is a uint32_t. -/
theorem getNfactor_of {t mem r0 : ℕ} (hmem : memory (mooreSteps t) = some mem)
    (hr0 : stepR (mooreSteps t) = some r0) (hN : ¬ mem / (128 * r0 * 1) > uint32Max) :
    getNfactor t =
      some ⟨mem / (128 * r0 * 1), speedR (clampTime t) (mooreSteps t) r0, 1⟩ := by
  unfold getNfactor
  simp only [hmem, hr0, Option.bind_eq_bind, Option.bind_some, if_neg hN, Option.pure_def]

theorem getNfactor_eq {t : ℕ} (h : mooreSteps t < 30) :
    getNfactor t = some ⟨2 ^ (10 + min (mooreSteps t) 13 - mooreSteps t / 5),
      speedR (clampTime t) (mooreSteps t) (2 ^ (3 + mooreSteps t / 5)), 1⟩ := by
  obtain ⟨hmem, hr0, hN, -⟩ := schedule_table _ h
  have hsmall : ¬ 2 ^ (10 + min (mooreSteps t) 13 - mooreSteps t / 5) > uint32Max := by
    have hpow : 2 ^ (10 + min (mooreSteps t) 13 - mooreSteps t / 5) ≤ 2 ^ 23 :=
      Nat.pow_le_pow_right (by omega) (by omega)
    unfold uint32Max
    omega
  rw [getNfactor_of hmem hr0 (by rwa [hN]), hN]

theorem le_speedR (time steps k : ℕ) : 8 ≤ speedR time steps (2 ^ (3 + k)) := by
  have hpow : 2 ^ 3 ≤ 2 ^ (3 + k) := Nat.pow_le_pow_right (by omega) (by omega)
  exact Nat.le_add_right_of_le hpow

theorem memoryUsed_eq {t : ℕ} (h : mooreSteps t < 30) :
    memoryUsed t = some (2 ^ (20 + min (mooreSteps t) 13)) := by
  obtain ⟨-, hr0, -, hused⟩ := schedule_table _ h
  unfold memoryUsed
  simp only [getNfactor_eq h, hr0, Option.bind_eq_bind, Option.bind_some, Option.pure_def, hused]

/-- The cores are shifted out of an `int`. -/
theorem Scheduled.steps_lt {nTime : BitVec 32} (h : Scheduled nTime) :
    mooreSteps nTime.toNat < 30 := by
  by_contra hlate
  have hcores := h.shifts.cores.2
  have hpow : 2 ^ 30 ≤ 2 ^ mooreSteps nTime.toNat :=
    Nat.pow_le_pow_right (by omega) (Nat.le_of_not_lt hlate)
  simp only [birthCores] at hcores
  omega

/-- The promises are kept exactly before the thirtieth period after the birth time. -/
theorem scheduled_iff (nTime : BitVec 32) : Scheduled nTime ↔ nTime.toNat < 2798928000 := by
  rw [← steps_lt_iff]
  constructor
  · intro h
    exact h.steps_lt
  · intro h
    obtain ⟨hmem, hcores, htotal, hr0⟩ := shiftsFit_table _ h
    refine ⟨⟨hmem, hcores, htotal, hr0⟩,
      ⟨_, getNfactor_eq h, ⟨_, rfl⟩, le_speedR _ _ _⟩, ?_, ?_⟩
    · intro m hm
      rw [memoryUsed_eq h, Option.some.injEq] at hm
      have hpow : 2 ^ (20 + min (mooreSteps nTime.toNat) 13) ≤ 2 ^ 33 :=
        Nat.pow_le_pow_right (by omega) (by omega)
      simp only [maxMem]
      omega
    · intro earlier hle m m' hm hm'
      have hsteps := mooreSteps_mono hle
      have hmin : 20 + min (mooreSteps earlier.toNat) 13 ≤ 20 + min (mooreSteps nTime.toNat) 13 :=
        Nat.add_le_add_left (min_le_min_right 13 hsteps) 20
      rw [memoryUsed_eq (lt_of_le_of_lt hsteps h), Option.some.injEq] at hm
      rw [memoryUsed_eq h, Option.some.injEq] at hm'
      rw [← hm, ← hm']
      exact Nat.pow_le_pow_right (by norm_num) hmin

/-- The first second at which the number of cores is no `int`. -/
theorem thirtieth_not_scheduled : ¬ Scheduled 2798928000 := by
  intro h
  have hearly := (steps_lt_iff _).mp h.steps_lt
  exact absurd hearly (lt_irrefl _)

end UmbrellaLtc.NFactor
