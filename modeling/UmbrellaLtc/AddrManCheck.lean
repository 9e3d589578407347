import UmbrellaLtc.AddrMan

/-!
What it means that CAddrMan::Check_ returns 0: the loops that erase ids from a set and count
them down in a map say that the tried buckets hold each tried entry once, and the new buckets
each new entry as often as it is referred to.
-/

namespace UmbrellaLtc.AddrMan

open Codec Transaction NetAddr

namespace CAddrMan

section Containers

theorem lookup_modify {α : Type} (m : Std.TreeMap ℤ α) (k n : ℤ) (f : α → α) :
    (m.modify k f)[n]? = if k = n then m[n]?.map f else m[n]? := by
  rw [Std.TreeMap.getElem?_modify]
  by_cases h : k = n
  · subst h
    simp
  · simp [h]

theorem lookup_insert {α : Type} (m : Std.TreeMap ℤ α) (k n : ℤ) (a : α) :
    (m.insert k a)[n]? = if k = n then some a else m[n]? := by
  rw [Std.TreeMap.getElem?_insert]
  simp

theorem lookup_erase {α : Type} (m : Std.TreeMap ℤ α) (k n : ℤ) :
    (m.erase k)[n]? = if k = n then none else m[n]? := by
  rw [Std.TreeMap.getElem?_erase]
  simp

theorem mem_set_insert (s : Std.TreeSet ℤ) (k n : ℤ) : n ∈ s.insert k ↔ k = n ∨ n ∈ s := by
  rw [Std.TreeSet.mem_insert]
  simp

theorem mem_set_erase (s : Std.TreeSet ℤ) (k n : ℤ) : n ∈ s.erase k ↔ k ≠ n ∧ n ∈ s := by
  rw [Std.TreeSet.mem_erase]
  simp

theorem eraseAll_eq_nil (ids setTried : List ℤ) :
    (∃ left, eraseAll ids setTried = some left ∧ left.length = 0) ↔ ids.Perm setTried := by
  induction ids generalizing setTried with
  | nil =>
    simp only [eraseAll, Option.some.injEq, exists_eq_left', List.length_eq_zero_iff]
    exact ⟨fun h => h ▸ List.Perm.refl _, fun h => h.symm.eq_nil⟩
  | cons n rest ih =>
    rw [List.cons_perm_iff_perm_erase, ← ih]
    by_cases hn : n ∈ setTried
    · simp only [eraseAll, hn, if_true, true_and]
    · simp only [eraseAll, hn, if_false, reduceCtorEq, false_and, exists_false]

/-- The counts in the map are positive, so that an id is there as long as its count is. -/
theorem countDown_eq_nil (ids : List ℤ) (mapNew : Std.TreeMap ℤ ℤ)
    (hpos : ∀ (n c : ℤ), mapNew[n]? = some c → 0 < c) :
    (∃ left, countDown ids mapNew = some left ∧ left.size = 0) ↔
      ∀ n : ℤ, (ids.count n : ℤ) = mapNew[n]?.getD 0 := by
  induction ids generalizing mapNew with
  | nil =>
    simp only [countDown, Option.some.injEq, exists_eq_left', List.count_nil, Nat.cast_zero]
    constructor
    · intro hsize n
      have hempty : mapNew.isEmpty = true := by
        rw [Std.TreeMap.isEmpty_eq_size_eq_zero]
        simpa using hsize
      rw [Std.TreeMap.getElem?_of_isEmpty hempty]
      rfl
    · intro h
      have hempty : mapNew.isEmpty = true := by
        rw [Std.TreeMap.isEmpty_iff_forall_not_mem]
        intro n hn
        obtain ⟨c, hc⟩ := Option.isSome_iff_exists.mp
          ((Std.TreeMap.mem_iff_isSome_getElem?).mp hn)
        have hval := h n
        have hc0 := hpos n c hc
        rw [hc, Option.getD_some] at hval
        omega
      rw [Std.TreeMap.isEmpty_eq_size_eq_zero] at hempty
      simpa using hempty
  | cons k rest ih =>
    unfold countDown
    cases hk : mapNew[k]? with
    | none =>
      simp only [Option.bind_eq_bind, Option.bind_none, reduceCtorEq, false_and, exists_false,
        false_iff]
      intro h
      have hval := h k
      rw [hk, Option.getD_none, List.count_cons_self] at hval
      omega
    | some c =>
      have hc := hpos k c hk
      -- the map after the count of `k` has gone down
      obtain ⟨mapNew', hstep, hlookup⟩ : ∃ mapNew' : Std.TreeMap ℤ ℤ,
          (if c - 1 = 0 then countDown rest (mapNew.erase k)
            else countDown rest (mapNew.insert k (c - 1))) = countDown rest mapNew' ∧
          ∀ n : ℤ, mapNew'[n]? = if k = n then (if c - 1 = 0 then none else some (c - 1))
            else mapNew[n]? := by
        by_cases hone : c - 1 = 0
        · refine ⟨mapNew.erase k, if_pos hone, fun n => ?_⟩
          rw [lookup_erase, if_pos hone]
        · refine ⟨mapNew.insert k (c - 1), if_neg hone, fun n => ?_⟩
          rw [lookup_insert, if_neg hone]
      have hpos' : ∀ (n c : ℤ), mapNew'[n]? = some c → 0 < c := by
        intro n c' hc'
        rw [hlookup] at hc'
        split_ifs at hc' with hn hone
        · simp only [Option.some.injEq] at hc'
          omega
        · exact hpos n c' hc'
      simp only [Option.bind_eq_bind, Option.bind_some]
      rw [hstep, ih mapNew' hpos']
      apply forall_congr'
      intro n
      rw [hlookup]
      by_cases hn : k = n
      · subst hn
        rw [if_pos rfl, hk, Option.getD_some, List.count_cons_self]
        split_ifs with hone
        · rw [Option.getD_none]
          omega
        · rw [Option.getD_some]
          omega
      · rw [if_neg hn, List.count_cons_of_ne hn]

end Containers

section Checked

theorem firstError_eq_zero (tests : List (Bool × ℤ)) (hcodes : ∀ t ∈ tests, t.2 ≠ 0) :
    firstError tests = 0 ↔ ∀ t ∈ tests, t.1 = false := by
  induction tests with
  | nil => simp [firstError]
  | cons t rest ih =>
    obtain ⟨fFails, code⟩ := t
    have hcode : code ≠ 0 := hcodes (fFails, code) (List.mem_cons_self ..)
    have hrest := ih fun t ht => hcodes t (List.mem_cons_of_mem _ ht)
    cases fFails with
    | true => simp [firstError, hcode]
    | false => simp [firstError, hrest]

/-- What Check_ tests of an entry. -/
structure EntryChecked (am : CAddrMan) (n : ℤ) (info : CAddrInfo) : Prop where
  tried : info.fInTried = true → info.nLastSuccess ≠ 0 ∧ info.nRefCount = 0
  refs : info.fInTried = false →
    1 ≤ info.nRefCount ∧ info.nRefCount ≤ ADDRMAN_NEW_BUCKETS_PER_ADDRESS
  addr : (am.mapAddr.lookup info.toCNetAddr).getD 0 = n
  pos : 0 ≤ info.nRandomPos ∧ am.vRandom[info.nRandomPos.toNat]? = some n
  lastTry : 0 ≤ info.nLastTry.toInt
  lastSuccess : 0 ≤ info.nLastSuccess.toInt

theorem checkInfo_eq_zero (am : CAddrMan) (n : ℤ) (info : CAddrInfo) :
    am.checkInfo n info = 0 ↔ EntryChecked am n info := by
  unfold checkInfo
  rw [firstError_eq_zero _ (by simp)]
  simp only [List.forall_mem_cons, List.not_mem_nil, false_implies, implies_true, and_true,
    Bool.and_eq_false_iff, Bool.or_eq_false_iff, bne_eq_false_iff_eq, decide_eq_false_iff_not,
    beq_eq_false_iff_ne, Bool.not_eq_false', not_lt, not_le]
  constructor
  · intro h
    obtain ⟨h1, h2, h3, h4, h5, ⟨⟨h6, -⟩, h7⟩, h8, h9⟩ := h
    refine ⟨?_, ?_, h5, ⟨h6, h7⟩, h8, h9⟩
    · intro ht
      simp only [ht, reduceCtorEq, false_or] at h1 h2
      exact ⟨h1, h2⟩
    · intro ht
      simp only [ht, reduceCtorEq, false_or] at h3 h4
      exact ⟨by omega, h3.2⟩
  · intro h
    have hlt : info.nRandomPos < (am.vRandom.length : ℤ) := by
      have hsome := List.getElem?_eq_some_iff.mp h.pos.2
      obtain ⟨hlen, -⟩ := hsome
      have hpos := h.pos.1
      omega
    refine ⟨?_, ?_, ?_, ?_, h.addr, ⟨⟨h.pos.1, hlt⟩, h.pos.2⟩, h.lastTry, h.lastSuccess⟩
    · cases ht : info.fInTried with
      | true => exact .inr (h.tried ht).1
      | false => exact .inl rfl
    · cases ht : info.fInTried with
      | true => exact .inr (h.tried ht).2
      | false => exact .inl rfl
    · cases ht : info.fInTried with
      | true => exact .inl rfl
      | false =>
        have hrefs := h.refs ht
        exact .inr ⟨by omega, hrefs.2⟩
    · cases ht : info.fInTried with
      | true => exact .inl rfl
      | false =>
        have hrefs := h.refs ht
        exact .inr (by omega)

/-- What Check_ tests. -/
structure Checked (am : CAddrMan) : Prop where
  random_length : (am.vRandom.length : ℤ) = (BitVec.ofInt 32 (am.nTried + am.nNew)).toInt
  entries : ∀ (n : ℤ) info, am.mapInfo[n]? = some info → EntryChecked am n info
  tried_length : (am.setTried.length : ℤ) = am.nTried
  new_size : (am.mapNew.size : ℤ) = am.nNew
  tried_once : am.triedIds.Perm am.setTried
  new_counts : ∀ n : ℤ, (am.newIds.count n : ℤ) = am.mapNew[n]?.getD 0

theorem mapNew_lookup (am : CAddrMan) (n : ℤ) :
    am.mapNew[n]? = am.mapInfo[n]?.bind fun info =>
      if info.fInTried then none else some info.nRefCount :=
  Std.TreeMap.getElem?_filterMap'

theorem entries_checked (am : CAddrMan) :
    (am.mapInfo.toList.map fun e => am.checkInfo e.1 e.2).find? (· != 0) = none ↔
      ∀ (n : ℤ) info, am.mapInfo[n]? = some info → EntryChecked am n info := by
  simp only [List.find?_eq_none, List.mem_map, bne_iff_ne, ne_eq, not_not, forall_exists_index,
    and_imp, Prod.forall, Std.TreeMap.mem_toList_iff_getElem?_eq_some]
  constructor
  · intro h n info hinfo
    exact (checkInfo_eq_zero am n info).mp (h _ n info hinfo rfl)
  · intro h code n info hinfo hcode
    rw [← hcode]
    exact (checkInfo_eq_zero am n info).mpr (h n info hinfo)

theorem mapNew_pos {am : CAddrMan}
    (h : ∀ (n : ℤ) info, am.mapInfo[n]? = some info → EntryChecked am n info) :
    ∀ (n c : ℤ), am.mapNew[n]? = some c → 0 < c := by
  intro n c hc
  rw [mapNew_lookup, Option.bind_eq_some_iff] at hc
  obtain ⟨info, hinfo, hc⟩ := hc
  split_ifs at hc with ht
  have hrefs := (h n info hinfo).refs (by simpa using ht)
  simp only [Option.some.injEq] at hc
  omega

/-- Check_ returns 0 exactly for these. -/
theorem check_eq_zero_iff (am : CAddrMan) : am.check_ = 0 ↔ Checked am := by
  have hentries := entries_checked am
  constructor
  · intro h
    unfold check_ at h
    by_cases hrandom : (am.vRandom.length : ℤ) = (BitVec.ofInt 32 (am.nTried + am.nNew)).toInt
    · rw [if_neg (not_not.mpr hrandom)] at h
      cases hfind : (am.mapInfo.toList.map fun e => am.checkInfo e.1 e.2).find? (· != 0) with
      | some code =>
        rw [hfind] at h
        have hcode := List.find?_some hfind
        simp only [bne_iff_ne] at hcode
        exact absurd h hcode
      | none =>
        have hall := hentries.mp hfind
        rw [hfind] at h
        dsimp only at h
        by_cases htried : (am.setTried.length : ℤ) = am.nTried
        · by_cases hnew : (am.mapNew.size : ℤ) = am.nNew
          · rw [if_neg (not_not.mpr htried), if_neg (not_not.mpr hnew)] at h
            have honce := eraseAll_eq_nil am.triedIds am.setTried
            have hcount := countDown_eq_nil am.newIds am.mapNew (mapNew_pos hall)
            cases herase : eraseAll am.triedIds am.setTried with
            | none =>
              rw [herase] at h
              simp at h
            | some left =>
              cases hdown : countDown am.newIds am.mapNew with
              | none =>
                rw [herase, hdown] at h
                simp at h
              | some left' =>
                rw [herase, hdown] at h
                dsimp only at h
                split_ifs at h with hleft hleft'
                exact ⟨hrandom, hall, htried, hnew, honce.mp ⟨left, herase, not_not.mp hleft⟩,
                  hcount.mp ⟨left', hdown, not_not.mp hleft'⟩⟩
          · rw [if_neg (not_not.mpr htried), if_pos hnew] at h
            simp at h
        · rw [if_pos htried] at h
          simp at h
    · rw [if_pos hrandom] at h
      simp at h
  · intro h
    obtain ⟨left, herase, hleft⟩ := (eraseAll_eq_nil _ _).mpr h.tried_once
    obtain ⟨left', hdown, hleft'⟩ :=
      (countDown_eq_nil am.newIds am.mapNew (mapNew_pos h.entries)).mpr h.new_counts
    unfold check_
    rw [if_neg (not_not.mpr h.random_length), hentries.mpr h.entries]
    dsimp only
    rw [if_neg (not_not.mpr h.tried_length), if_neg (not_not.mpr h.new_size), herase, hdown]
    dsimp only
    rw [if_neg (not_not.mpr hleft), if_neg (not_not.mpr hleft')]

end Checked

end CAddrMan

end UmbrellaLtc.AddrMan
