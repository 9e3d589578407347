import UmbrellaLtc.Runs
import Mathlib.Data.BitVec
import Mathlib.Data.List.AList
import Mathlib.Data.Set.Card
import Mathlib.Logic.Function.Basic

/-!
LockedPageManagerBase of allocators.h: memory is locked page by page, and a page is held as
long as a range that touches it is in use. The loops run over the pages of a range with a
counter of type size_t, which wraps around behind the last page of the address space, and
then they do not end.
-/

namespace UmbrellaLtc.LockedPages

open Runs

/-- size_t. -/
abbrev Size := BitVec 64

/-- A call of the locker, for a page. -/
inductive Event where
  | lock (page : Size)
  | unlock (page : Size)
deriving DecidableEq

/-- The manager, with the calls that its locker has got. -/
structure LockedPageManager where
  page_size : Size
  histogram : AList fun _ : Size => ℤ
  locker : List Event

def LockedPageManager.new (page_size : Size) : LockedPageManager := ⟨page_size, ∅, []⟩

def LockedPageManager.page_mask (m : LockedPageManager) : Size := ~~~ (m.page_size - 1)

/-- How a call goes wrong: by an assertion, by a counter of type int beyond its type, or
when it has not ended after the given number of rounds. -/
inductive Fault where
  | assertion
  | overflow
  | running
deriving DecidableEq

/-- The body of the loop in LockRange. -/
def visitLock (m : LockedPageManager) (page : Size) : Except Fault LockedPageManager :=
  match m.histogram.lookup page with
  | none => .ok { m with
      locker := m.locker ++ [.lock page]
      histogram := m.histogram.insert page 1 }
  | some count =>
      if 2 ^ 31 ≤ count + 1 then .error .overflow
      else .ok { m with histogram := m.histogram.insert page (count + 1) }

/-- The body of the loop in UnlockRange. -/
def visitUnlock (m : LockedPageManager) (page : Size) : Except Fault LockedPageManager :=
  match m.histogram.lookup page with
  | none => .error .assertion
  | some count =>
      if count - 1 = 0 then .ok { m with
        locker := m.locker ++ [.unlock page]
        histogram := m.histogram.erase page }
      else .ok { m with histogram := m.histogram.insert page (count - 1) }

/-- `for(size_t page = start_page; page <= end_page; page += page_size)` -/
def overPages (visit : LockedPageManager → Size → Except Fault LockedPageManager)
    (end_page : Size) : ℕ → Size → LockedPageManager → Except Fault LockedPageManager
  | 0, _, _ => .error .running
  | fuel + 1, page, m =>
      if page ≤ end_page then
        match visit m page with
        | .ok m' => overPages visit end_page fuel (page + m'.page_size) m'
        | .error e => .error e
      else .ok m

/-- The arguments of a call. -/
structure Range where
  p : Size
  size : Size
deriving DecidableEq

def overRange (visit : LockedPageManager → Size → Except Fault LockedPageManager) (fuel : ℕ)
    (m : LockedPageManager) (r : Range) : Except Fault LockedPageManager :=
  if r.size = 0 then .ok m
  else
    let start_page := r.p &&& m.page_mask
    let end_page := (r.p + r.size - 1) &&& m.page_mask
    overPages visit end_page fuel start_page m

def LockedPageManager.lockRange (fuel : ℕ) (m : LockedPageManager) (r : Range) :
    Except Fault LockedPageManager := overRange visitLock fuel m r

def LockedPageManager.unlockRange (fuel : ℕ) (m : LockedPageManager) (r : Range) :
    Except Fault LockedPageManager := overRange visitUnlock fuel m r

/-- `int GetLockedPageCount()`, from a size_t. -/
def LockedPageManager.getLockedPageCount (m : LockedPageManager) : ℤ :=
  (BitVec.ofNat 32 m.histogram.entries.length).toInt

inductive Call where
  | lock (r : Range)
  | unlock (r : Range)
deriving DecidableEq

def Call.range : Call → Range
  | .lock r => r
  | .unlock r => r

def Call.apply (fuel : ℕ) (m : LockedPageManager) : Call → Except Fault LockedPageManager
  | .lock r => m.lockRange fuel r
  | .unlock r => m.unlockRange fuel r

/-- A sequence of calls, each with the given number of rounds. -/
def applyAll (fuel : ℕ) (m : LockedPageManager) (calls : List Call) :
    Except Fault LockedPageManager := calls.foldlM (Call.apply fuel) m

section Purpose

/-- The ranges in use, by the calls alone. -/
def liveStep (live : List Range) : Call → List Range
  | .lock r => r :: live
  | .unlock r => live.erase r

/-- An unlock matches an earlier lock, and no range wraps around the address space. -/
def Proper (live : List Range) (c : Call) : Prop :=
  (∀ r, c = .unlock r → r ∈ live) ∧ c.range.p.toNat + c.range.size.toNat ≤ 2 ^ 64

/-- The page has a byte in common with the range. -/
def Touches (page_size : Size) (r : Range) (page : Size) : Prop :=
  page_size.toNat ∣ page.toNat ∧ 0 < r.size.toNat ∧
    page.toNat < r.p.toNat + r.size.toNat ∧ r.p.toNat < page.toNat + page_size.toNat

instance (page_size : Size) (r : Range) (page : Size) : Decidable (Touches page_size r page) :=
  inferInstanceAs (Decidable (_ ∧ _))

def touchedPages (page_size : Size) (live : List Range) : Set Size :=
  {page | ∃ r ∈ live, Touches page_size r page}

/-- What the locker was told about one page: true for Lock. -/
def told (page : Size) (events : List Event) : List Bool :=
  events.filterMap fun
    | .lock q => if q = page then some true else none
    | .unlock q => if q = page then some false else none

/-- The locker holds a page that it was last told to lock. -/
def Held (m : LockedPageManager) (page : Size) : Prop :=
  (told page m.locker).getLast? = some true

/-- Lock comes first, and no two calls in a row are the same. -/
def Alternates (l : List Bool) : Prop := l.head? ≠ some false ∧ l.IsChain (· ≠ ·)

/-- What the manager is for. -/
structure Serves (m : LockedPageManager) (live : List Range) : Prop where
  held : ∀ page, Held m page ↔ page ∈ touchedPages m.page_size live
  alternate : ∀ page, Alternates (told page m.locker)
  counted : m.getLockedPageCount = (touchedPages m.page_size live).ncard

end Purpose

section Told

theorem told_concat_lock (page q : Size) (events : List Event) :
    told page (events ++ [.lock q]) = told page events ++ if q = page then [true] else [] := by
  unfold told
  rw [List.filterMap_append]
  by_cases hq : q = page <;> simp [hq]

theorem told_concat_unlock (page q : Size) (events : List Event) :
    told page (events ++ [.unlock q]) = told page events ++ if q = page then [false] else [] := by
  unfold told
  rw [List.filterMap_append]
  by_cases hq : q = page <;> simp [hq]

theorem Alternates.concat {l : List Bool} (h : Alternates l) {b : Bool}
    (hlast : l.getLast? ≠ some b) (hfirst : l = [] → b = true) : Alternates (l ++ [b]) := by
  refine ⟨?_, ?_⟩
  · cases l with
    | nil => simp [hfirst rfl]
    | cons a l => exact h.1
  · apply List.isChain_append.mpr
    refine ⟨h.2, List.isChain_singleton b, ?_⟩
    intro x hx y hy heq
    obtain rfl : b = y := by simpa using hy
    exact hlast (heq ▸ hx)

end Told

/-- The histogram has the counts, and the locker holds the pages whose count is positive. -/
structure Counts (m : LockedPageManager) (c : Size → ℕ) : Prop where
  entry : ∀ page, m.histogram.lookup page = if c page = 0 then none else some (c page : ℤ)
  held : ∀ page, Held m page ↔ 0 < c page
  alternate : ∀ page, Alternates (told page m.locker)

theorem counts_new (page_size : Size) : Counts (.new page_size) fun _ => 0 where
  entry _ := rfl
  held _ := by simp [Held, LockedPageManager.new, told]
  alternate _ := by simp [Alternates, LockedPageManager.new, told]

theorem Counts.lock {m : LockedPageManager} {c : Size → ℕ} (h : Counts m c) {page : Size}
    (hfits : c page + 1 < 2 ^ 31) :
    ∃ m', visitLock m page = .ok m' ∧ m'.page_size = m.page_size ∧
      Counts m' (Function.update c page (c page + 1)) := by
  have hentry := h.entry page
  unfold visitLock
  by_cases hzero : c page = 0
  · rw [if_pos hzero] at hentry
    rw [hentry]
    refine ⟨_, rfl, rfl, ?_, ?_, ?_⟩
    · intro q
      by_cases hq : q = page
      · subst hq
        rw [AList.lookup_insert, Function.update_self, if_neg (Nat.succ_ne_zero _), hzero]
        rfl
      · rw [AList.lookup_insert_ne hq, Function.update_of_ne hq]
        exact h.entry q
    · intro q
      unfold Held
      rw [told_concat_lock]
      by_cases hq : page = q
      · subst hq
        rw [if_pos rfl, Function.update_self, List.getLast?_concat]
        exact iff_of_true rfl (Nat.succ_pos _)
      · rw [if_neg hq, Function.update_of_ne (Ne.symm hq), List.append_nil]
        exact h.held q
    · intro q
      rw [told_concat_lock]
      by_cases hq : page = q
      · subst hq
        rw [if_pos rfl]
        apply (h.alternate page).concat
        · intro hlast
          exact absurd ((h.held page).mp hlast) (by omega)
        · exact fun _ => rfl
      · rw [if_neg hq, List.append_nil]
        exact h.alternate q
  · rw [if_neg hzero] at hentry
    rw [hentry]
    dsimp only
    rw [if_neg (by omega)]
    refine ⟨_, rfl, rfl, ?_, ?_, h.alternate⟩
    · intro q
      by_cases hq : q = page
      · subst hq
        rw [AList.lookup_insert, Function.update_self, if_neg (Nat.succ_ne_zero _)]
        rfl
      · rw [AList.lookup_insert_ne hq, Function.update_of_ne hq]
        exact h.entry q
    · intro q
      refine (h.held q).trans ?_
      by_cases hq : q = page
      · subst hq
        rw [Function.update_self]
        omega
      · rw [Function.update_of_ne hq]

/-- The assertion holds for a page that is held. -/
theorem Counts.unlock {m : LockedPageManager} {c : Size → ℕ} (h : Counts m c) {page : Size}
    (hpos : 0 < c page) :
    ∃ m', visitUnlock m page = .ok m' ∧ m'.page_size = m.page_size ∧
      Counts m' (Function.update c page (c page - 1)) := by
  have hentry := h.entry page
  rw [if_neg (by omega)] at hentry
  unfold visitUnlock
  rw [hentry]
  dsimp only
  by_cases hone : c page = 1
  · rw [if_pos (by omega)]
    refine ⟨_, rfl, rfl, ?_, ?_, ?_⟩
    · intro q
      by_cases hq : q = page
      · subst hq
        rw [AList.lookup_erase, Function.update_self, if_pos (by omega)]
      · rw [AList.lookup_erase_ne hq, Function.update_of_ne hq]
        exact h.entry q
    · intro q
      unfold Held
      rw [told_concat_unlock]
      by_cases hq : page = q
      · subst hq
        rw [if_pos rfl, Function.update_self, List.getLast?_concat]
        exact iff_of_false (by decide) (by omega)
      · rw [if_neg hq, Function.update_of_ne (Ne.symm hq), List.append_nil]
        exact h.held q
    · intro q
      rw [told_concat_unlock]
      by_cases hq : page = q
      · subst hq
        rw [if_pos rfl]
        have hheld : (told page m.locker).getLast? = some true := (h.held page).mpr hpos
        apply (h.alternate page).concat
        · rw [hheld]
          decide
        · intro hnil
          rw [hnil] at hheld
          cases hheld
      · rw [if_neg hq, List.append_nil]
        exact h.alternate q
  · rw [if_neg (by omega)]
    refine ⟨_, rfl, rfl, ?_, ?_, h.alternate⟩
    · intro q
      by_cases hq : q = page
      · subst hq
        rw [AList.lookup_insert, Function.update_self, if_neg (by omega)]
        congr 1
        omega
      · rw [AList.lookup_insert_ne hq, Function.update_of_ne hq]
        exact h.entry q
    · intro q
      refine (h.held q).trans ?_
      by_cases hq : q = page
      · subst hq
        rw [Function.update_self]
        omega
      · rw [Function.update_of_ne hq]

section Loop

/-- The pages from one to another. -/
def Between (page_size lo hi q : Size) : Prop :=
  page_size.toNat ∣ q.toNat ∧ lo.toNat ≤ q.toNat ∧ q.toNat ≤ hi.toNat

instance (page_size lo hi q : Size) : Decidable (Between page_size lo hi q) :=
  inferInstanceAs (Decidable (_ ∧ _))

theorem between_iff {page_size lo hi q next : Size} (hlo : page_size.toNat ∣ lo.toNat)
    (hle : lo.toNat ≤ hi.toNat) (hnext : next.toNat = lo.toNat + page_size.toNat) :
    Between page_size lo hi q ↔ q = lo ∨ Between page_size next hi q := by
  unfold Between
  constructor
  · intro ⟨hq, hfirst, hlast⟩
    by_cases heq : q = lo
    · exact Or.inl heq
    · have hne : q.toNat ≠ lo.toNat := fun h => heq (BitVec.eq_of_toNat_eq h)
      have hstep := Nat.le_of_dvd (by omega) (Nat.dvd_sub hq hlo)
      exact Or.inr ⟨hq, by omega, hlast⟩
  · intro h
    rcases h with rfl | ⟨hq, hfirst, hlast⟩
    · exact ⟨hlo, Nat.le_refl _, hle⟩
    · exact ⟨hq, by omega, hlast⟩

variable {visit : LockedPageManager → Size → Except Fault LockedPageManager} {good : ℕ → Prop}
  {change : ℕ → ℕ} {page_size end_page : Size}

/-- What the body of a loop does to the count of its page. -/
def Changes (visit : LockedPageManager → Size → Except Fault LockedPageManager)
    (good : ℕ → Prop) (change : ℕ → ℕ) : Prop :=
  ∀ m c page, Counts m c → good (c page) →
    ∃ m', visit m page = .ok m' ∧ m'.page_size = m.page_size ∧
      Counts m' (Function.update c page (change (c page)))

/-- The loop ends behind the last page when the counter does not wrap around there, and has
changed the count of each page once. The induction is on the rounds that are left. -/
theorem overPages_spec (hvisit : Changes visit good change) (hpos : 0 < page_size.toNat)
    (hend : end_page.toNat + page_size.toNat < 2 ^ 64) (rounds : ℕ) (page : Size)
    (m : LockedPageManager) (c : Size → ℕ) (hcounts : Counts m c) (hsize : m.page_size = page_size)
    (hpage : page_size.toNat ∣ page.toNat)
    (hrounds : page.toNat + rounds * page_size.toNat = end_page.toNat + page_size.toNat)
    (hgood : ∀ q, Between page_size page end_page q → good (c q)) :
    ∃ m', (∀ fuel, rounds < fuel → overPages visit end_page fuel page m = .ok m') ∧
      m'.page_size = page_size ∧
      Counts m' fun q => if Between page_size page end_page q then change (c q) else c q := by
  induction rounds generalizing page m c with
  | zero =>
    have hbehind : ¬ page ≤ end_page := by
      rw [BitVec.le_def]
      omega
    have hnone : ∀ q, ¬ Between page_size page end_page q := by
      intro q ⟨_, hfirst, hlast⟩
      omega
    refine ⟨m, ?_, hsize, ?_⟩
    · intro fuel hfuel
      obtain ⟨fuel, rfl⟩ := Nat.exists_eq_succ_of_ne_zero (Nat.ne_of_gt hfuel)
      exact if_neg hbehind
    · simp only [hnone, if_false]
      exact hcounts
  | succ rounds ih =>
    have hstep : page.toNat + rounds * page_size.toNat = end_page.toNat := by
      rw [Nat.add_mul] at hrounds
      omega
    have hle : page.toNat ≤ end_page.toNat := by omega
    have hnext : (page + page_size).toNat = page.toNat + page_size.toNat := by
      rw [BitVec.toNat_add, Nat.mod_eq_of_lt (by omega)]
    have hbetween := fun q => between_iff (q := q) hpage hle hnext
    obtain ⟨m₁, hfirst, hsize₁, hcounts₁⟩ :=
      hvisit m c page hcounts (hgood page ((hbetween page).mpr (Or.inl rfl)))
    have hapart : ∀ q, Between page_size (page + page_size) end_page q → q ≠ page := by
      intro q ⟨_, hq, _⟩ heq
      rw [heq, hnext] at hq
      omega
    obtain ⟨m', hrest, hsize', hcounts'⟩ := ih (page + page_size) m₁
      (Function.update c page (change (c page))) hcounts₁ (hsize₁.trans hsize)
      (hnext ▸ Nat.dvd_add hpage (Nat.dvd_refl _)) (by omega) fun q hq => by
        rw [Function.update_of_ne (hapart q hq)]
        exact hgood q ((hbetween q).mpr (Or.inr hq))
    refine ⟨m', ?_, hsize', ?_⟩
    · intro fuel hfuel
      obtain ⟨fuel, rfl⟩ := Nat.exists_eq_succ_of_ne_zero (show fuel ≠ 0 by omega)
      unfold overPages
      rw [if_pos (BitVec.le_def.mpr hle), hfirst]
      dsimp only
      rw [hsize₁, hsize]
      exact hrest fuel (by omega)
    · convert hcounts' using 2 with q
      by_cases hq : q = page
      · have hnot : ¬ Between page_size (page + page_size) end_page page :=
          fun hb => hapart page hb rfl
        rw [hq, if_pos ((hbetween page).mpr (Or.inl rfl)), if_neg hnot, Function.update_self]
      · rw [Function.update_of_ne hq]
        exact if_congr ((hbetween q).trans (or_iff_right hq)) rfl rfl

end Loop

section Ranges

variable {k : ℕ}

/-- A page size that the constructor is meant for. -/
def pageSize (k : ℕ) : Size := BitVec.twoPow 64 k

theorem pageSize_toNat (hk : k < 64) : (pageSize k).toNat = 2 ^ k := by
  unfold pageSize
  rw [BitVec.toNat_twoPow]
  exact Nat.mod_eq_of_lt (Nat.pow_lt_pow_right (by decide) hk)

/-- The mask rounds down to the page. -/
theorem mask_toNat (hk : k < 64) (x : Size) :
    (x &&& ~~~ (pageSize k - 1)).toNat = x.toNat / 2 ^ k * 2 ^ k := by
  have hlow : pageSize k - 1 = BitVec.ofNat 64 (2 ^ k - 1) := by
    apply BitVec.eq_of_toNat_eq
    have hpos : 0 < 2 ^ k := Nat.two_pow_pos k
    have hone : (1 : Size).toNat = 1 := rfl
    rw [BitVec.toNat_sub_of_le (by rw [BitVec.le_def, pageSize_toNat hk, hone]; omega),
      pageSize_toNat hk, BitVec.toNat_ofNat, hone]
    have hlt : 2 ^ k < 2 ^ 64 := Nat.pow_lt_pow_right (by decide) hk
    rw [Nat.mod_eq_of_lt (by omega)]
  have hshift : x &&& ~~~ (pageSize k - 1) = (x >>> k) <<< k := by
    apply BitVec.eq_of_getLsbD_eq
    intro i hi
    rw [hlow, BitVec.getLsbD_and, BitVec.getLsbD_not, BitVec.getLsbD_ofNat,
      BitVec.getLsbD_shiftLeft, BitVec.getLsbD_ushiftRight, Nat.testBit_two_pow_sub_one]
    by_cases hik : i < k
    · simp [hik]
    · have hplace : k + (i - k) = i := by omega
      simp [hik, hi, hplace]
  have hle := Nat.div_mul_le_self x.toNat (2 ^ k)
  rw [hshift, BitVec.toNat_shiftLeft, BitVec.toNat_ushiftRight, Nat.shiftRight_eq_div_pow,
    Nat.shiftLeft_eq, Nat.mod_eq_of_lt (by omega)]

variable {visit : LockedPageManager → Size → Except Fault LockedPageManager} {good : ℕ → Prop}
  {change : ℕ → ℕ}

/-- The pages from the first to the last one are those that the range touches. -/
theorem between_iff_touches (hk : k < 64) {r : Range} {lo hi : Size} (hsize : 0 < r.size.toNat)
    (hlo : lo.toNat = r.p.toNat / 2 ^ k * 2 ^ k)
    (hhi : hi.toNat = (r.p.toNat + r.size.toNat - 1) / 2 ^ k * 2 ^ k) (q : Size) :
    Between (pageSize k) lo hi q ↔ Touches (pageSize k) r q := by
  have hpos : 0 < 2 ^ k := Nat.two_pow_pos k
  unfold Between Touches
  rw [pageSize_toNat hk, hlo, hhi]
  refine and_congr_right fun hdvd => ?_
  obtain ⟨n, hn⟩ := hdvd
  have hmul : q.toNat = n * 2 ^ k := by rw [hn, Nat.mul_comm]
  rw [hmul, Nat.mul_le_mul_right_iff hpos, Nat.mul_le_mul_right_iff hpos,
    Nat.le_div_iff_mul_le hpos]
  have hfirst : r.p.toNat / 2 ^ k ≤ n ↔ r.p.toNat < n * 2 ^ k + 2 ^ k := by
    rw [← Nat.lt_succ_iff, Nat.div_lt_iff_lt_mul hpos, Nat.succ_mul]
  rw [hfirst]
  constructor
  · intro ⟨hlow, hhigh⟩
    exact ⟨hsize, by omega, hlow⟩
  · intro ⟨_, hhigh, hlow⟩
    exact ⟨hlow, by omega⟩

/-- A range that does not reach the last page of the address space. -/
def BelowLastPage (page_size : Size) (r : Range) : Prop :=
  0 < r.size.toNat → r.p.toNat + r.size.toNat ≤ 2 ^ 64 - page_size.toNat

theorem overRange_spec (hk : k < 64) (hvisit : Changes visit good change) {m : LockedPageManager}
    {c : Size → ℕ} (hcounts : Counts m c) (hsize : m.page_size = pageSize k) {r : Range}
    (hbelow : BelowLastPage (pageSize k) r)
    (hgood : ∀ q, Touches (pageSize k) r q → good (c q)) :
    ∃ m', (∀ fuel, 2 ^ 64 < fuel → overRange visit fuel m r = .ok m') ∧
      m'.page_size = pageSize k ∧
      Counts m' fun q => if Touches (pageSize k) r q then change (c q) else c q := by
  unfold overRange
  by_cases hempty : r.size = 0
  · have hnone : ∀ q, ¬ Touches (pageSize k) r q := by
      intro q ⟨_, hpos, _⟩
      rw [hempty] at hpos
      exact absurd hpos (by decide)
    refine ⟨m, fun _ _ => if_pos hempty, hsize, ?_⟩
    simp only [hnone, if_false]
    exact hcounts
  · have hpositive : 0 < r.size.toNat := by
      apply Nat.pos_of_ne_zero
      exact fun hzero => hempty (BitVec.eq_of_toNat_eq hzero)
    have hlast := hbelow hpositive
    have hpos : 0 < 2 ^ k := Nat.two_pow_pos k
    have hlt : 2 ^ k < 2 ^ 64 := Nat.pow_lt_pow_right (by decide) hk
    rw [pageSize_toNat hk] at hlast
    have hlo : (r.p &&& m.page_mask).toNat = r.p.toNat / 2 ^ k * 2 ^ k := by
      unfold LockedPageManager.page_mask
      rw [hsize]
      exact mask_toNat hk r.p
    have hend : (r.p + r.size - 1).toNat = r.p.toNat + r.size.toNat - 1 := by
      have hone : (1 : Size).toNat = 1 := rfl
      have hsum : (r.p + r.size).toNat = r.p.toNat + r.size.toNat := by
        rw [BitVec.toNat_add, Nat.mod_eq_of_lt (by omega)]
      rw [BitVec.toNat_sub_of_le (by rw [BitVec.le_def, hsum, hone]; omega), hsum, hone]
    have hhi : ((r.p + r.size - 1) &&& m.page_mask).toNat =
        (r.p.toNat + r.size.toNat - 1) / 2 ^ k * 2 ^ k := by
      unfold LockedPageManager.page_mask
      rw [hsize, mask_toNat hk, hend]
    have htouch := between_iff_touches hk hpositive hlo hhi
    -- the number of rounds
    have horder : r.p.toNat / 2 ^ k ≤ (r.p.toNat + r.size.toNat - 1) / 2 ^ k :=
      Nat.div_le_div_right (by omega)
    have hrounds : r.p.toNat / 2 ^ k * 2 ^ k + ((r.p.toNat + r.size.toNat - 1) / 2 ^ k -
        r.p.toNat / 2 ^ k + 1) * 2 ^ k =
          (r.p.toNat + r.size.toNat - 1) / 2 ^ k * 2 ^ k + 2 ^ k := by
      rw [← Nat.add_mul, ← Nat.succ_mul]
      congr 1
      omega
    have hfew : (r.p.toNat + r.size.toNat - 1) / 2 ^ k - r.p.toNat / 2 ^ k + 1 ≤ 2 ^ 64 := by
      have hself := Nat.div_le_self (r.p.toNat + r.size.toNat - 1) (2 ^ k)
      have hsub := Nat.sub_le ((r.p.toNat + r.size.toNat - 1) / 2 ^ k) (r.p.toNat / 2 ^ k)
      calc (r.p.toNat + r.size.toNat - 1) / 2 ^ k - r.p.toNat / 2 ^ k + 1
          ≤ r.p.toNat + r.size.toNat - 1 + 1 := Nat.succ_le_succ (hsub.trans hself)
        _ ≤ 2 ^ 64 := by omega
    have hdown := Nat.div_mul_le_self (r.p.toNat + r.size.toNat - 1) (2 ^ k)
    obtain ⟨m', hrun, hsize', hcounts'⟩ := overPages_spec hvisit
      (by rw [pageSize_toNat hk]; exact hpos) (by rw [hhi, pageSize_toNat hk]; omega) _
      (r.p &&& m.page_mask) m c hcounts hsize
      (by rw [hlo, pageSize_toNat hk]; exact Nat.dvd_mul_left _ _)
      (by rw [hlo, hhi, pageSize_toNat hk]; exact hrounds)
      fun q hq => hgood q ((htouch q).mp hq)
    refine ⟨m', ?_, hsize', ?_⟩
    · intro fuel hfuel
      rw [if_neg hempty]
      exact hrun fuel (Nat.lt_of_le_of_lt hfew hfuel)
    · simp only [htouch] at hcounts'
      exact hcounts'

/-- The number of live ranges that touch a page. -/
def users (page_size : Size) (live : List Range) (page : Size) : ℕ :=
  live.countP fun r => Touches page_size r page

theorem users_pos_iff (page_size : Size) (live : List Range) (page : Size) :
    0 < users page_size live page ↔ page ∈ touchedPages page_size live := by
  unfold users touchedPages
  rw [List.countP_pos_iff]
  simp

/-- What the types and the loops can take: no range reaches the last page, and neither the
users of a page nor the pages in use exceed an int. -/
def Within (page_size : Size) (live : List Range) (c : Call) : Prop :=
  BelowLastPage page_size c.range ∧
    (∀ page, users page_size (liveStep live c) page < 2 ^ 31) ∧
    (touchedPages page_size (liveStep live c)).ncard < 2 ^ 31

theorem changes_lock : Changes visitLock (fun n => n + 1 < 2 ^ 31) (· + 1) :=
  fun _ _ _ hcounts hgood => hcounts.lock hgood

theorem changes_unlock : Changes visitUnlock (fun n => 0 < n) (· - 1) :=
  fun _ _ _ hcounts hgood => hcounts.unlock hgood

/-- One call keeps the counts equal to the users. -/
theorem apply_spec (hk : k < 64) {m : LockedPageManager} {live : List Range}
    (hcounts : Counts m (users (pageSize k) live)) (hsize : m.page_size = pageSize k) {c : Call}
    (hproper : Proper live c) (hwithin : Within (pageSize k) live c) :
    ∃ m', (∀ fuel, 2 ^ 64 < fuel → c.apply fuel m = .ok m') ∧ m'.page_size = pageSize k ∧
      Counts m' (users (pageSize k) (liveStep live c)) := by
  obtain ⟨hbelow, hfits, -⟩ := hwithin
  cases c with
  | lock r =>
    have husers : ∀ q, users (pageSize k) (r :: live) q =
        if Touches (pageSize k) r q then users (pageSize k) live q + 1
        else users (pageSize k) live q := by
      intro q
      unfold users
      rw [List.countP_cons]
      by_cases htouch : Touches (pageSize k) r q <;> simp [htouch]
    have hgood : ∀ q, Touches (pageSize k) r q → users (pageSize k) live q + 1 < 2 ^ 31 := by
      intro q hq
      have hq' : users (pageSize k) (r :: live) q < 2 ^ 31 := hfits q
      rw [husers, if_pos hq] at hq'
      exact hq'
    obtain ⟨m', hrun, hsize', hcounts'⟩ :=
      overRange_spec hk changes_lock hcounts hsize hbelow hgood
    exact ⟨m', hrun, hsize', (funext husers : users (pageSize k) (r :: live) = _) ▸ hcounts'⟩
  | unlock r =>
    have hmem : r ∈ live := hproper.1 r rfl
    have husers : ∀ q, users (pageSize k) (live.erase r) q =
        if Touches (pageSize k) r q then users (pageSize k) live q - 1
        else users (pageSize k) live q := by
      intro q
      unfold users
      rw [List.countP_erase]
      by_cases htouch : Touches (pageSize k) r q <;> simp [htouch, hmem]
    have hgood : ∀ q, Touches (pageSize k) r q → 0 < users (pageSize k) live q :=
      fun q hq => (users_pos_iff _ _ _).mpr ⟨r, hmem, hq⟩
    obtain ⟨m', hrun, hsize', hcounts'⟩ :=
      overRange_spec hk changes_unlock hcounts hsize hbelow hgood
    exact ⟨m', hrun, hsize', (funext husers : users (pageSize k) (live.erase r) = _) ▸ hcounts'⟩

theorem applyAll_spec (hk : k < 64) {calls : List Call} {m : LockedPageManager}
    {live : List Range} (hcounts : Counts m (users (pageSize k) live))
    (hsize : m.page_size = pageSize k) (hproper : EachStep liveStep Proper live calls)
    (hwithin : EachStep liveStep (Within (pageSize k)) live calls) :
    ∃ m', (∀ fuel, 2 ^ 64 < fuel → applyAll fuel m calls = .ok m') ∧
      m'.page_size = pageSize k ∧ Counts m' (users (pageSize k) (run liveStep live calls)) := by
  induction calls generalizing m live with
  | nil => exact ⟨m, fun _ _ => rfl, hsize, hcounts⟩
  | cons c calls ih =>
    obtain ⟨m₁, hfirst, hsize₁, hcounts₁⟩ :=
      apply_spec hk hcounts hsize hproper.1 hwithin.1
    obtain ⟨m', hrest, hsize', hcounts'⟩ := ih hcounts₁ hsize₁ hproper.2 hwithin.2
    refine ⟨m', ?_, hsize', hcounts'⟩
    intro fuel hfuel
    have hrun := hrest fuel hfuel
    unfold applyAll at hrun ⊢
    rw [List.foldlM_cons, hfirst fuel hfuel]
    exact hrun

/-- The histogram has one entry for each page in use. -/
theorem entries_length {m : LockedPageManager} {page_size : Size} {live : List Range}
    (hcounts : Counts m (users page_size live)) :
    m.histogram.entries.length = (touchedPages page_size live).ncard := by
  have hkeys : touchedPages page_size live = ↑m.histogram.keys.toFinset := by
    ext page
    rw [← users_pos_iff, List.coe_toFinset]
    show _ ↔ page ∈ m.histogram.keys
    rw [← AList.mem_keys, ← AList.lookup_isSome, hcounts.entry]
    by_cases hzero : users page_size live page = 0
    · simp [hzero]
    · simp [hzero, Nat.pos_of_ne_zero hzero]
  rw [hkeys, Set.ncard_coe_finset, List.toFinset_card_of_nodup m.histogram.keys_nodup]
  exact (List.length_map _).symm

theorem serves_of_counts {m : LockedPageManager} {page_size : Size} {live : List Range}
    (hsize : m.page_size = page_size) (hcounts : Counts m (users page_size live))
    (hfew : (touchedPages page_size live).ncard < 2 ^ 31) : Serves m live where
  held page := by
    rw [hsize]
    exact (hcounts.held page).trans (users_pos_iff _ _ _)
  alternate := hcounts.alternate
  counted := by
    rw [hsize]
    unfold LockedPageManager.getLockedPageCount
    rw [entries_length hcounts, BitVec.toInt_eq_toNat_of_lt]
    · rw [BitVec.toNat_ofNat, Nat.mod_eq_of_lt (by omega)]
    · rw [BitVec.toNat_ofNat, Nat.mod_eq_of_lt (by omega)]
      omega

theorem touchedPages_nil (page_size : Size) : touchedPages page_size [] = ∅ := by
  ext page
  simp [touchedPages]

theorem within_last {page_size : Size} {live : List Range} {calls : List Call}
    (h : EachStep liveStep (Within page_size) live calls)
    (hlive : (touchedPages page_size live).ncard < 2 ^ 31) :
    (touchedPages page_size (run liveStep live calls)).ncard < 2 ^ 31 := by
  induction calls generalizing live with
  | nil => exact hlive
  | cons c calls ih => exact ih h.2 h.1.2.2

/-- As long as no range reaches the last page of the address space and the counters fit, all
calls end, no assertion fails, and exactly the pages in use are held. -/
theorem manager_serves (hk : k < 64) {calls : List Call}
    (hproper : EachStep liveStep Proper [] calls)
    (hwithin : EachStep liveStep (Within (pageSize k)) [] calls) :
    ∃ m, (∀ fuel, 2 ^ 64 < fuel → applyAll fuel (.new (pageSize k)) calls = .ok m) ∧
      Serves m (run liveStep [] calls) := by
  obtain ⟨m, hrun, hsize, hcounts⟩ :=
    applyAll_spec hk (counts_new (pageSize k)) rfl hproper hwithin
  have hnone : (touchedPages (pageSize k) []).ncard < 2 ^ 31 := by
    rw [touchedPages_nil, Set.ncard_empty]
    decide
  exact ⟨m, hrun, serves_of_counts hsize hcounts (within_last hwithin hnone)⟩

end Ranges

def key : Range := ⟨0x1000, 10⟩

theorem within_key :
    EachStep liveStep (Within (pageSize 12)) [] [.lock key, .unlock key] := by
  have hempty : (touchedPages (pageSize 12) []).ncard < 2 ^ 31 := by
    rw [touchedPages_nil, Set.ncard_empty]
    decide
  have hone : (touchedPages (pageSize 12) [key]).ncard < 2 ^ 31 := by
    have hsub : touchedPages (pageSize 12) [key] ⊆ {0x1000} := by
      intro page ⟨r, hr, hdvd, _, hhigh, hlow⟩
      obtain rfl := List.mem_singleton.mp hr
      have hp : (pageSize 12).toNat = 4096 := by decide
      have hk : key.p.toNat = 4096 := by decide
      have hs : key.size.toNat = 10 := by decide
      rw [hp] at hdvd hlow
      rw [hk] at hlow hhigh
      rw [hs] at hhigh
      apply BitVec.eq_of_toNat_eq
      show page.toNat = 4096
      omega
    have hle := Set.ncard_le_ncard hsub
    rw [Set.ncard_singleton] at hle
    omega
  refine ⟨⟨fun _ => by decide, ?_, hone⟩, ⟨fun _ => by decide, ?_, hempty⟩, trivial⟩
  · intro page
    have hle : users (pageSize 12) [key] page ≤ [key].length := List.countP_le_length
    exact Nat.lt_of_le_of_lt hle (by decide)
  · intro page
    exact Nat.two_pow_pos 31

theorem manager_serves_key :
    ∃ m, (∀ fuel, 2 ^ 64 < fuel →
        applyAll fuel (.new (pageSize 12)) [.lock key, .unlock key] = .ok m) ∧
      Serves m (run liveStep [] [.lock key, .unlock key]) :=
  manager_serves (by decide)
    ⟨⟨fun _ h => Call.noConfusion h, by decide⟩,
      ⟨fun r h => Call.unlock.inj h ▸ List.mem_cons_self, by decide⟩, trivial⟩ within_key

/-- The last byte of the address space. -/
def lastByte : Range := ⟨0xFFFFFFFFFFFFFFFF, 1⟩

/-- From an aligned page on, the loop over the last page of the address space does not end. -/
theorem overPages_last (fuel : ℕ) (page : Size) (m : LockedPageManager) (hpage : 4096 ∣ page.toNat)
    (hsize : m.page_size = 4096) (m' : LockedPageManager) :
    overPages visitLock 0xFFFFFFFFFFFFF000 fuel page m ≠ .ok m' := by
  induction fuel generalizing page m with
  | zero =>
    intro h
    cases h
  | succ fuel ih =>
    have hle : page ≤ 0xFFFFFFFFFFFFF000 := by
      have hlt := page.isLt
      show page.toNat ≤ 0xFFFFFFFFFFFFF000
      omega
    unfold overPages
    rw [if_pos hle]
    cases hvisit : visitLock m page with
    | error e =>
      intro h
      cases h
    | ok m₁ =>
      have hsize₁ : m₁.page_size = 4096 := by
        unfold visitLock at hvisit
        split at hvisit
        · cases hvisit
          exact hsize
        · split_ifs at hvisit
          cases hvisit
          exact hsize
      apply ih _ _ _ hsize₁
      rw [hsize₁, BitVec.toNat_add]
      show 4096 ∣ (page.toNat + 4096) % 2 ^ 64
      omega

theorem lastPage_never_ends :
    ¬ ∀ k < 64, ∀ calls, EachStep liveStep Proper [] calls →
      ∃ m, (∃ fuel, applyAll fuel (.new (pageSize k)) calls = .ok m) ∧
        Serves m (run liveStep [] calls) := by
  intro h
  obtain ⟨m, ⟨fuel, hrun⟩, -⟩ := h 12 (by decide) [.lock lastByte]
    ⟨⟨fun _ h => Call.noConfusion h, by decide⟩, trivial⟩
  have hone : applyAll fuel (.new (pageSize 12)) [.lock lastByte] =
      overPages visitLock 0xFFFFFFFFFFFFF000 fuel 0xFFFFFFFFFFFFF000 (.new (pageSize 12)) :=
    bind_pure _
  rw [hone] at hrun
  exact overPages_last fuel _ _ (by decide) (by decide) m hrun

end UmbrellaLtc.LockedPages
