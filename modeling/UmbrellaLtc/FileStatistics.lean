import UmbrellaLtc.BlockFiles
import Mathlib.Order.Bounds.Defs
import Mathlib.Tactic.SplitIfs

/-!
The statistics of a block file: the range of the heights and the range of the times of
its blocks. The first height follows the minimum, and both times follow theirs. The last
height is replaced by every height above the first one, so it is the last height that
rises above an earlier one, which need not be the highest.
-/

namespace UmbrellaLtc.FileStatistics

open Runs BlockFiles

section Rises

variable {α : Type} [LT α]

/-- The value lies above an earlier one. -/
def Rises (before : List α) (x : α) : Prop := ∃ y ∈ before, y < x

/-- The last value of a list that lies above an earlier one. -/
def LastRise (xs : List α) (x : α) : Prop :=
  ∃ before after, xs = before ++ x :: after ∧ Rises before x ∧
    ∀ mid y rest, after = mid ++ y :: rest → ¬ Rises (before ++ x :: mid) y

theorem LastRise.mem {xs : List α} {x : α} (h : LastRise xs x) : x ∈ xs := by
  obtain ⟨before, after, rfl, _, _⟩ := h
  simp

theorem not_lastRise_nil (x : α) : ¬ LastRise [] x := fun h => List.not_mem_nil h.mem

theorem lastRise_concat_self {xs : List α} {x : α} (h : Rises xs x) : LastRise (xs ++ [x]) x := by
  refine ⟨xs, [], rfl, h, ?_⟩
  intro mid y rest hsplit
  simp at hsplit

theorem LastRise.concat {xs : List α} {x y : α} (h : LastRise xs x) (hy : ¬ Rises xs y) :
    LastRise (xs ++ [y]) x := by
  obtain ⟨before, after, rfl, hx, hafter⟩ := h
  refine ⟨before, after ++ [y], by simp, hx, ?_⟩
  intro mid z rest hsplit
  rcases List.eq_nil_or_concat rest with rfl | ⟨rest', z', rfl⟩
  · obtain ⟨rfl, hz⟩ := List.append_inj' hsplit rfl
    obtain rfl : y = z := by simpa using hz
    exact hy
  · rw [List.concat_eq_append, ← List.cons_append, ← List.append_assoc] at hsplit
    exact hafter mid z rest' (List.append_inj' hsplit rfl).1

/-- The last value is the last rise, or it does not rise and the last rise is an earlier one. -/
theorem lastRise_concat_iff (xs : List α) (x y : α) :
    LastRise (xs ++ [y]) x ↔ (Rises xs y ∧ x = y) ∨ (¬ Rises xs y ∧ LastRise xs x) := by
  constructor
  · intro ⟨before, after, hsplit, hx, hafter⟩
    rcases List.eq_nil_or_concat after with rfl | ⟨after', z, rfl⟩
    · obtain ⟨rfl, hz⟩ := List.append_inj' hsplit rfl
      obtain rfl : y = x := by simpa using hz
      exact Or.inl ⟨hx, rfl⟩
    · rw [List.concat_eq_append] at hsplit hafter
      rw [← List.cons_append, ← List.append_assoc] at hsplit
      obtain ⟨rfl, hz⟩ := List.append_inj' hsplit rfl
      obtain rfl : y = z := by simpa using hz
      refine Or.inr ⟨hafter after' y [] rfl, before, after', rfl, hx, ?_⟩
      intro mid z rest hrest
      exact hafter mid z (rest ++ [y]) (by rw [hrest]; simp)
  · intro h
    rcases h with ⟨hy, rfl⟩ | ⟨hy, hx⟩
    · exact lastRise_concat_self hy
    · exact hx.concat hy

end Rises

/-- The arguments of AddBlock. -/
structure Arrival where
  nHeightIn : BitVec 32
  nTimeIn : BitVec 64
deriving DecidableEq

def addArrival (info : CBlockFileInfo) (a : Arrival) : CBlockFileInfo :=
  info.addBlock a.nHeightIn a.nTimeIn

/-- The entry of a file after calls of AddBlock on a fresh one. -/
def statistics (arrivals : List Arrival) : CBlockFileInfo := run addArrival .null arrivals

def heights (arrivals : List Arrival) : List (BitVec 32) := arrivals.map Arrival.nHeightIn

def times (arrivals : List Arrival) : List (BitVec 64) := arrivals.map Arrival.nTimeIn

/-- What the comments on the fields say: the number of blocks, the lowest and the highest
height, the earliest and the latest time. -/
structure Describes (info : CBlockFileInfo) (arrivals : List Arrival) : Prop where
  blocks : info.nBlocks.toNat = arrivals.length
  heightFirst : IsLeast {h | h ∈ heights arrivals} info.nHeightFirst
  heightLast : IsGreatest {h | h ∈ heights arrivals} info.nHeightLast
  timeFirst : IsLeast {t | t ∈ times arrivals} info.nTimeFirst
  timeLast : IsGreatest {t | t ∈ times arrivals} info.nTimeLast

/-- What AddBlock keeps, up to the number of calls that nBlocks can count. -/
structure Follows (info : CBlockFileInfo) (arrivals : List Arrival) : Prop where
  blocks : info.nBlocks.toNat = arrivals.length
  heightFirst : arrivals ≠ [] → IsLeast {h | h ∈ heights arrivals} info.nHeightFirst
  heightRise : ∀ h, LastRise (heights arrivals) h → info.nHeightLast = h
  heightNone : (∀ h, ¬ LastRise (heights arrivals) h) → info.nHeightLast = 0
  timeFirst : arrivals ≠ [] → IsLeast {t | t ∈ times arrivals} info.nTimeFirst
  timeLast : ∀ t ∈ times arrivals, t ≤ info.nTimeLast
  timeReached : info.nTimeLast = 0 ∨ info.nTimeLast ∈ times arrivals

section Fields

variable {n : ℕ}

/-- `if (nBlocks==0 || nFirst > nIn) nFirst = nIn;` -/
theorem isLeast_concat {xs : List (BitVec n)} {first x : BitVec n} {fresh : Prop}
    [Decidable fresh] (hfresh : fresh ↔ xs = [])
    (h : xs ≠ [] → IsLeast {y | y ∈ xs} first) :
    IsLeast {y | y ∈ xs ++ [x]} (if fresh ∨ x < first then x else first) := by
  split_ifs with hnew
  · refine ⟨by simp, ?_⟩
    intro y hy
    rcases List.mem_append.mp hy with hold | hlast
    · have hxs : xs ≠ [] := List.ne_nil_of_mem hold
      have hlt : x < first := hnew.resolve_left fun hf => hxs (hfresh.mp hf)
      exact BitVec.le_trans (BitVec.le_of_lt hlt) ((h hxs).2 hold)
    · obtain rfl := List.mem_singleton.mp hlast
      exact BitVec.le_refl y
  · obtain ⟨hne, hle⟩ := not_or.mp hnew
    have hleast := h fun hnil => hne (hfresh.mpr hnil)
    refine ⟨List.mem_append_left _ hleast.1, ?_⟩
    intro y hy
    rcases List.mem_append.mp hy with hold | hlast
    · exact hleast.2 hold
    · obtain rfl := List.mem_singleton.mp hlast
      exact BitVec.not_lt.mp hle

/-- A new value rises above the earlier ones when it lies above the least of them. -/
theorem lt_least_iff_rises {xs : List (BitVec n)} {first x : BitVec n}
    (h : IsLeast {y | y ∈ xs ++ [x]} first) : first < x ↔ Rises xs x := by
  constructor
  · intro hlt
    rcases List.mem_append.mp h.1 with hold | hlast
    · exact ⟨first, hold, hlt⟩
    · obtain rfl := List.mem_singleton.mp hlast
      exact absurd hlt (BitVec.lt_irrefl first)
  · intro ⟨y, hy, hlt⟩
    have hle : first ≤ y := h.2 (List.mem_append_left _ hy)
    simp only [BitVec.le_def, BitVec.lt_def] at hle hlt ⊢
    omega

end Fields

theorem follows_null : Follows .null [] where
  blocks := rfl
  heightFirst h := absurd rfl h
  heightRise h hrise := absurd hrise (not_lastRise_nil h)
  heightNone _ := rfl
  timeFirst h := absurd rfl h
  timeLast _ ht := absurd ht List.not_mem_nil
  timeReached := Or.inl rfl

/-- One call of AddBlock, as long as nBlocks does not wrap around. -/
theorem Follows.addArrival {info : CBlockFileInfo} {arrivals : List Arrival}
    (h : Follows info arrivals) (hcount : arrivals.length + 1 < 2 ^ 32) (a : Arrival) :
    Follows (addArrival info a) (arrivals ++ [a]) := by
  have hfresh : info.nBlocks = 0 ↔ arrivals = [] := by
    rw [← BitVec.toNat_inj, h.blocks]
    exact List.length_eq_zero_iff
  have hheights : heights (arrivals ++ [a]) = heights arrivals ++ [a.nHeightIn] := List.map_append
  have htimes : times (arrivals ++ [a]) = times arrivals ++ [a.nTimeIn] := List.map_append
  have hfirst : IsLeast {y | y ∈ heights (arrivals ++ [a])}
      (info.addBlock a.nHeightIn a.nTimeIn).nHeightFirst := by
    rw [hheights]
    apply isLeast_concat (hfresh.trans List.map_eq_nil_iff.symm)
    intro hne
    exact h.heightFirst fun hnil => hne (by rw [hnil]; rfl)
  have hrises := lt_least_iff_rises (hheights ▸ hfirst)
  -- the last height changes exactly when the new one rises
  have hlast : (info.addBlock a.nHeightIn a.nTimeIn).nHeightLast =
      if (info.addBlock a.nHeightIn a.nTimeIn).nHeightFirst < a.nHeightIn then a.nHeightIn
      else info.nHeightLast := rfl
  have htimeLast : (info.addBlock a.nHeightIn a.nTimeIn).nTimeLast =
      if info.nTimeLast < a.nTimeIn then a.nTimeIn else info.nTimeLast := rfl
  refine ⟨?_, fun _ => hfirst, ?_, ?_, ?_, ?_, ?_⟩
  · have hone : (info.nBlocks + 1).toNat = arrivals.length + 1 := by
      rw [BitVec.toNat_add, h.blocks]
      exact Nat.mod_eq_of_lt hcount
    rw [List.length_append]
    exact hone
  · intro x hx
    rw [hheights] at hx
    rcases (lastRise_concat_iff _ _ _).mp hx with ⟨hrise, rfl⟩ | ⟨hrise, hold⟩
    · exact hlast.trans (if_pos (hrises.mpr hrise))
    · exact (hlast.trans (if_neg (mt hrises.mp hrise))).trans (h.heightRise x hold)
  · intro hnone
    rw [hheights] at hnone
    have hrise : ¬ Rises (heights arrivals) a.nHeightIn :=
      fun hrise => hnone _ (lastRise_concat_self hrise)
    refine (hlast.trans (if_neg (mt hrises.mp hrise))).trans (h.heightNone ?_)
    intro x hx
    exact hnone x (hx.concat hrise)
  · intro _
    rw [htimes]
    apply isLeast_concat (hfresh.trans List.map_eq_nil_iff.symm)
    intro hne
    exact h.timeFirst fun hnil => hne (by rw [hnil]; rfl)
  · intro t ht
    rw [htimes] at ht
    show t ≤ (info.addBlock a.nHeightIn a.nTimeIn).nTimeLast
    rw [htimeLast]
    rcases List.mem_append.mp ht with hold | hnew
    · have hle := h.timeLast t hold
      split_ifs with hlt
      · exact BitVec.le_trans hle (BitVec.le_of_lt hlt)
      · exact hle
    · obtain rfl := List.mem_singleton.mp hnew
      split_ifs with hlt
      · exact BitVec.le_refl _
      · exact BitVec.not_lt.mp hlt
  · show (info.addBlock a.nHeightIn a.nTimeIn).nTimeLast = 0 ∨
      (info.addBlock a.nHeightIn a.nTimeIn).nTimeLast ∈ times (arrivals ++ [a])
    rw [htimeLast, htimes]
    split_ifs with hlt
    · exact Or.inr (by simp)
    · exact h.timeReached.imp_right fun hold => List.mem_append_left _ hold

theorem follows_statistics {arrivals : List Arrival} (hcount : arrivals.length < 2 ^ 32) :
    Follows (statistics arrivals) arrivals := by
  induction arrivals using List.reverseRecOn with
  | nil => exact follows_null
  | append_singleton arrivals a ih =>
    rw [List.length_append, List.length_singleton] at hcount
    have hbefore := ih (by omega)
    unfold statistics
    rw [run_concat]
    exact hbefore.addArrival hcount a

/-- All heights are zero, or the last height above an earlier one is the highest of all. -/
def HighestRisesLast (arrivals : List Arrival) : Prop :=
  (∀ h ∈ heights arrivals, h = 0) ∨
    ∃ highest, LastRise (heights arrivals) highest ∧ ∀ h ∈ heights arrivals, h ≤ highest

theorem Follows.isGreatest_iff {info : CBlockFileInfo} {arrivals : List Arrival}
    (h : Follows info arrivals) (hne : arrivals ≠ []) :
    IsGreatest {h | h ∈ heights arrivals} info.nHeightLast ↔ HighestRisesLast arrivals := by
  constructor
  · intro hgreatest
    by_cases hrise : ∃ x, LastRise (heights arrivals) x
    · obtain ⟨x, hx⟩ := hrise
      have hlast := h.heightRise x hx
      exact Or.inr ⟨x, hx, fun y hy => hlast ▸ hgreatest.2 hy⟩
    · have hlast := h.heightNone (not_exists.mp hrise)
      refine Or.inl fun y hy => ?_
      have hle : y ≤ info.nHeightLast := hgreatest.2 hy
      rw [hlast] at hle
      exact BitVec.le_zero_iff.mp hle
  · intro hcond
    rcases hcond with hzero | ⟨highest, hrise, hall⟩
    · have hlast : info.nHeightLast = 0 := by
        by_cases hrise : ∃ x, LastRise (heights arrivals) x
        · obtain ⟨x, hx⟩ := hrise
          exact (h.heightRise x hx).trans (hzero x hx.mem)
        · exact h.heightNone (not_exists.mp hrise)
      obtain ⟨a, ha⟩ := List.exists_mem_of_ne_nil arrivals hne
      have hmem : a.nHeightIn ∈ heights arrivals := List.mem_map_of_mem ha
      rw [hlast]
      refine ⟨hzero _ hmem ▸ hmem, ?_⟩
      intro y hy
      exact BitVec.le_zero_iff.mpr (hzero y hy)
    · rw [h.heightRise highest hrise]
      exact ⟨hrise.mem, fun y hy => hall y hy⟩

/-- A time that no earlier one exceeds is also reached when it is zero. -/
theorem Follows.isGreatest_time {info : CBlockFileInfo} {arrivals : List Arrival}
    (h : Follows info arrivals) (hne : arrivals ≠ []) :
    IsGreatest {t | t ∈ times arrivals} info.nTimeLast := by
  refine ⟨?_, fun t ht => h.timeLast t ht⟩
  rcases h.timeReached with hzero | hmem
  · obtain ⟨a, ha⟩ := List.exists_mem_of_ne_nil arrivals hne
    have hin : a.nTimeIn ∈ times arrivals := List.mem_map_of_mem ha
    have hle := h.timeLast _ hin
    rw [hzero] at hle ⊢
    have hnone : a.nTimeIn = 0 := BitVec.le_zero_iff.mp hle
    exact hnone ▸ hin
  · exact hmem

/-- The statistics are right exactly when nBlocks can count the blocks and the last height
above an earlier one is the highest of all. -/
theorem describes_iff {arrivals : List Arrival} (hne : arrivals ≠ []) :
    Describes (statistics arrivals) arrivals ↔
      arrivals.length < 2 ^ 32 ∧ HighestRisesLast arrivals := by
  constructor
  · intro h
    have hcount : arrivals.length < 2 ^ 32 := h.blocks ▸ (statistics arrivals).nBlocks.isLt
    exact ⟨hcount, ((follows_statistics hcount).isGreatest_iff hne).mp h.heightLast⟩
  · intro ⟨hcount, hrise⟩
    have h := follows_statistics hcount
    exact ⟨h.blocks, h.heightFirst hne, (h.isGreatest_iff hne).mpr hrise, h.timeFirst hne,
      h.isGreatest_time hne⟩

/-- Blocks of two forks, neither the heights nor the times of which are in order. -/
def forkBlocks : List Arrival := [⟨3, 300⟩, ⟨1, 400⟩, ⟨2, 250⟩, ⟨5, 350⟩, ⟨1, 380⟩]

theorem forkBlocks_described : Describes (statistics forkBlocks) forkBlocks := by
  have hrise : LastRise ([3, 1, 2] ++ [5] : List (BitVec 32)) 5 :=
    lastRise_concat_self ⟨3, by decide, by decide⟩
  have hlast : LastRise (heights forkBlocks) 5 := hrise.concat (by simp [Rises])
  exact (describes_iff (by decide)).mpr
    ⟨by simp [forkBlocks], Or.inr ⟨5, hlast, by simp [heights, forkBlocks]⟩⟩

/-- A second block at height one arrives behind the block at height two. -/
def sideBlock : List Arrival := [⟨0, 100⟩, ⟨1, 200⟩, ⟨2, 300⟩, ⟨1, 250⟩]

theorem lastHeight_falls :
    ¬ ∀ arrivals : List Arrival, arrivals ≠ [] → Describes (statistics arrivals) arrivals := by
  intro h
  have hle := (h sideBlock (by decide)).heightLast.2 (show 2 ∈ heights sideBlock by decide)
  have hlast : (statistics sideBlock).nHeightLast = 1 := by decide
  rw [hlast] at hle
  exact absurd hle (by decide)

end UmbrellaLtc.FileStatistics
