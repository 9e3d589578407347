import UmbrellaLtc.AddrManRuns

/-!
Which entry leaves a full tried bucket. SelectTried looks at four entries, which it moves to the
front of the bucket, and remembers where the oldest of them was before it was moved. What is at
that place afterwards is another entry, unless the oldest was drawn where it already was.
-/

namespace UmbrellaLtc.AddrMan

open Codec Transaction NetAddr Runs

namespace CAddrMan

section Inspecting

variable (rnd : ℕ → ℕ)

/-- The position that is drawn in the `i`-th round, in a bucket of so many entries. -/
def drawn (nSize i : ℕ) : ℕ := getRandInt (nSize - i) (rnd i) + i

/-- The entries that SelectTried looks at, in `k` rounds from the `i`-th on. -/
def inspectedFrom : ℕ → ℕ → List ℤ → List ℤ
  | 0, _, _ => []
  | k + 1, i, vTried =>
      match vTried[drawn rnd vTried.length i]?, vTried[i]? with
      | some nTemp, some nFront =>
          nTemp :: inspectedFrom k (i + 1)
            ((vTried.set (drawn rnd vTried.length i) nFront).set i nTemp)
      | _, _ => []

def inspected (vTried : List ℤ) : List ℤ :=
  inspectedFrom rnd (min ADDRMAN_TRIED_ENTRIES_INSPECT_ON_EVICT vTried.length) 0 vTried

end Inspecting

section Oldest

/-- `mapInfo[nId].nLastSuccess`. -/
def lastSuccess (am : CAddrMan) (nId : ℤ) : ℤ :=
  (am.mapInfo[nId]?.map fun info => info.nLastSuccess.toInt).getD 0

variable (am : CAddrMan)

/-- An entry that no other of a list is older than. -/
def IsOldest (ids : List ℤ) (m : ℤ) : Prop := ∀ x ∈ ids, am.lastSuccess m ≤ am.lastSuccess x

/-- The first round that an oldest entry is inspected in. -/
def FirstOldest (ids : List ℤ) (r : ℕ) : Prop :=
  ∃ m, ids[r]? = some m ∧ am.IsOldest ids m ∧ ∀ x ∈ ids.take r, am.lastSuccess m < am.lastSuccess x

variable {am} {ids : List ℤ} {r : ℕ} {m x : ℤ}

theorem FirstOldest.unique (h : am.FirstOldest ids r) {r' : ℕ} (h' : am.FirstOldest ids r') :
    r = r' := by
  have hle : ∀ {a b : ℕ}, am.FirstOldest ids a → am.FirstOldest ids b → a ≤ b := by
    intro a b ⟨m, _, _, hbefore⟩ ⟨m', hget', hleast', _⟩
    by_contra hlt
    have hlen := (List.getElem?_eq_some_iff.mp hget').1
    have hmem : m' ∈ ids.take a := by
      apply List.mem_of_getElem? (i := b)
      rw [List.getElem?_take, if_pos (by omega)]
      exact hget'
    have hmem' : m ∈ ids := by
      apply List.mem_of_getElem?
      assumption
    exact absurd (hbefore m' hmem) (not_lt.mpr (hleast' m hmem'))
  exact le_antisymm (hle h h') (hle h' h)

theorem firstOldest_singleton (x : ℤ) : am.FirstOldest [x] 0 := by
  refine ⟨x, rfl, fun y hy => ?_, fun y hy => by cases hy⟩
  rw [List.mem_singleton.mp hy]

/-- A round that finds an older entry than all before. -/
theorem FirstOldest.older (h : am.FirstOldest ids r) (hm : ids[r]? = some m)
    (hlt : am.lastSuccess x < am.lastSuccess m) : am.FirstOldest (ids ++ [x]) ids.length := by
  obtain ⟨m', hm', hleast, _⟩ := h
  obtain rfl := Option.some.inj (hm.symm.trans hm')
  refine ⟨x, List.getElem?_concat_length, fun y hy => ?_, fun y hy => ?_⟩
  · rcases List.mem_append.mp hy with hy | hy
    · have hy' := hleast y hy
      omega
    · rw [List.mem_singleton.mp hy]
  · rw [List.take_left] at hy
    have hy' := hleast y hy
    omega

/-- A round that finds none. -/
theorem FirstOldest.newer (h : am.FirstOldest ids r) (hm : ids[r]? = some m)
    (hle : ¬am.lastSuccess x < am.lastSuccess m) : am.FirstOldest (ids ++ [x]) r := by
  obtain ⟨m', hm', hleast, hbefore⟩ := h
  obtain rfl := Option.some.inj (hm.symm.trans hm')
  have hlt := (List.getElem?_eq_some_iff.mp hm).1
  refine ⟨m, ?_, fun y hy => ?_, ?_⟩
  · rw [List.getElem?_append_left hlt]
    exact hm
  · rcases List.mem_append.mp hy with hy | hy
    · exact hleast y hy
    · rw [List.mem_singleton.mp hy]
      omega
  · rw [List.take_append_of_le_length hlt.le]
    exact hbefore

end Oldest

section Rounds

variable {am : CAddrMan} {rnd : ℕ → ℕ}

theorem lastSuccess_eq {nId : ℤ} {info : CAddrInfo} (h : am.mapInfo[nId]? = some info) :
    am.lastSuccess nId = info.nLastSuccess.toInt := by
  rw [lastSuccess, h]
  rfl

theorem drawn_bounds (rnd : ℕ → ℕ) {nSize i : ℕ} (hi : i < nSize) :
    i ≤ drawn rnd nSize i ∧ drawn rnd nSize i < nSize := by
  have hlt := getRandInt_lt (show 0 < nSize - i by omega) (rnd i)
  unfold drawn
  omega

/-- The bucket after the `i`-th round, which has moved an entry to the place `i`. -/
structure Shuffled (vTried shuffled : List ℤ) (i : ℕ) (nTemp : ℤ) : Prop where
  perm : shuffled.Perm vTried
  front : shuffled.take (i + 1) = vTried.take i ++ [nTemp]
  room : i < vTried.length

theorem shuffled_set {vTried : List ℤ} {i p : ℕ} (hge : i ≤ p) (hp : p < vTried.length) :
    Shuffled vTried ((vTried.set p vTried[i]).set i vTried[p]) i vTried[p] := by
  have hi : i < vTried.length := by omega
  refine ⟨List.set_set_perm hp hi, ?_, hi⟩
  have hself : ((vTried.set p vTried[i]).set i vTried[p])[i]? = some vTried[p] :=
    List.getElem?_set_self (by rwa [List.length_set])
  rw [List.take_add_one, List.take_set_of_le le_rfl, List.take_set_of_le hge, hself]
  rfl

section Shuffled

variable {vTried shuffled : List ℤ} {i r : ℕ} {nTemp nOldest nOldestPos : ℤ}

theorem Shuffled.self (h : Shuffled vTried shuffled i nTemp) : shuffled[i]? = some nTemp := by
  have hfront := congrArg (fun l => l[i]?) h.front
  have hlen : (vTried.take i).length = i := List.length_take_of_le h.room.le
  rw [List.getElem?_take, if_pos (Nat.lt_succ_self i), List.getElem?_append_right hlen.le, hlen,
    Nat.sub_self] at hfront
  exact hfront

theorem Shuffled.before (h : Shuffled vTried shuffled i nTemp) (hr : r < i) :
    shuffled[r]? = vTried[r]? := by
  have hfront := congrArg (fun l => l[r]?) h.front
  have hlen : (vTried.take i).length = i := List.length_take_of_le h.room.le
  rw [List.getElem?_take, if_pos (by omega), List.getElem?_append_left (by omega),
    List.getElem?_take, if_pos hr] at hfront
  exact hfront

variable (am rnd) in
/-- What SelectTried remembers after `i` rounds. -/
structure Remembered (i : ℕ) (vTried : List ℤ) (nOldest nOldestPos : ℤ) (r : ℕ) : Prop where
  oldest : am.FirstOldest (vTried.take i) r
  entry : vTried[r]? = some nOldest
  pos : nOldestPos = drawn rnd vTried.length r

theorem Remembered.lt (h : Remembered am rnd i vTried nOldest nOldestPos r) : r < i := by
  obtain ⟨m, hm, _⟩ := h.oldest
  have hlt := (List.getElem?_eq_some_iff.mp hm).1
  rw [List.length_take] at hlt
  omega

theorem Remembered.entry_take (h : Remembered am rnd i vTried nOldest nOldestPos r) :
    (vTried.take i)[r]? = some nOldest := by
  rw [List.getElem?_take, if_pos h.lt]
  exact h.entry

/-- The first round remembers its entry. -/
theorem Shuffled.remembered_first (hs : Shuffled vTried shuffled 0 nTemp) :
    Remembered am rnd 1 shuffled nTemp (drawn rnd vTried.length 0) 0 := by
  refine ⟨?_, hs.self, by rw [hs.perm.length_eq]⟩
  rw [hs.front]
  exact firstOldest_singleton nTemp

/-- A later one does where its entry is older. -/
theorem Remembered.older (h : Remembered am rnd i vTried nOldest nOldestPos r)
    (hs : Shuffled vTried shuffled i nTemp) (hlt : am.lastSuccess nTemp < am.lastSuccess nOldest) :
    Remembered am rnd (i + 1) shuffled nTemp (drawn rnd vTried.length i) i := by
  refine ⟨?_, hs.self, by rw [hs.perm.length_eq]⟩
  have holder := h.oldest.older h.entry_take hlt
  rw [List.length_take_of_le hs.room.le] at holder
  rwa [hs.front]

theorem Remembered.newer (h : Remembered am rnd i vTried nOldest nOldestPos r)
    (hs : Shuffled vTried shuffled i nTemp) (hle : ¬am.lastSuccess nTemp < am.lastSuccess nOldest) :
    Remembered am rnd (i + 1) shuffled nOldest nOldestPos r := by
  refine ⟨?_, (hs.before h.lt).trans h.entry, by rw [hs.perm.length_eq, h.pos]⟩
  rw [hs.front]
  exact h.oldest.newer h.entry_take hle

/-- One round of SelectTried. -/
theorem selectTriedLoop_round (k : ℕ) (hi : i < vTried.length)
    (hall : ∀ m ∈ vTried, 0 ≤ m ∧ ∃ info, am.mapInfo[m]? = some info)
    (hold : i = 0 ∧ nOldest = -1 ∨ ∃ r, Remembered am rnd i vTried nOldest nOldestPos r) :
    ∃ shuffled nTemp nOldest' nOldestPos', Shuffled vTried shuffled i nTemp ∧
      (∃ r, Remembered am rnd (i + 1) shuffled nOldest' nOldestPos' r) ∧
      am.selectTriedLoop rnd (k + 1) i vTried nOldest nOldestPos =
        am.selectTriedLoop rnd k (i + 1) shuffled nOldest' nOldestPos' ∧
      inspectedFrom rnd (k + 1) i vTried = nTemp :: inspectedFrom rnd k (i + 1) shuffled := by
  obtain ⟨hge, hpos⟩ := drawn_bounds rnd hi
  have hs := shuffled_set hge hpos
  have hinspected : inspectedFrom rnd (k + 1) i vTried =
      vTried[drawn rnd vTried.length i] :: inspectedFrom rnd k (i + 1)
        ((vTried.set (drawn rnd vTried.length i) vTried[i]).set i
          vTried[drawn rnd vTried.length i]) := by
    simp only [inspectedFrom, List.getElem?_eq_getElem hpos, List.getElem?_eq_getElem hi]
  obtain ⟨-, info, hinfo⟩ := hall _ (List.getElem_mem hpos)
  have hsuccess := lastSuccess_eq hinfo
  rw [selectTriedLoop]
  have hdrawn : getRandInt (vTried.length - i) (rnd i) + i = drawn rnd vTried.length i := rfl
  simp only [hdrawn, List.getElem?_eq_getElem hpos, List.getElem?_eq_getElem hi,
    Option.bind_eq_bind, Option.bind_some]
  rcases hold with ⟨rfl, hnone⟩ | ⟨r, hr⟩
  · rw [if_pos hnone]
    exact ⟨_, _, _, _, hs, ⟨0, hs.remembered_first⟩, rfl, hinspected⟩
  · obtain ⟨hidOld, infoOldest, hinfoOldest⟩ := hall nOldest (List.mem_of_getElem? hr.entry)
    have hsuccessOld := lastSuccess_eq hinfoOldest
    rw [if_neg (by omega), hinfo, hinfoOldest]
    dsimp only [Option.bind_some]
    rw [← hsuccess, ← hsuccessOld]
    split_ifs with hlt
    · exact ⟨_, _, _, _, hs, ⟨i, hr.older hs hlt⟩, rfl, hinspected⟩
    · exact ⟨_, _, _, _, hs, ⟨r, hr.newer hs hlt⟩, rfl, hinspected⟩

end Shuffled

/-- The rounds of SelectTried: the entries that have been inspected are in front, and the position
that is returned was drawn in the first round that met an oldest one. -/
theorem selectTriedLoop_inspected (k i : ℕ) {vTried : List ℤ} {nOldest nOldestPos : ℤ}
    (hrounds : i + k ≤ vTried.length)
    (hall : ∀ m ∈ vTried, 0 ≤ m ∧ ∃ info, am.mapInfo[m]? = some info)
    (hold : i = 0 ∧ nOldest = -1 ∨ ∃ r, Remembered am rnd i vTried nOldest nOldestPos r) :
    ∃ vTried' nPos, am.selectTriedLoop rnd k i vTried nOldest nOldestPos = some (vTried', nPos) ∧
      vTried'.Perm vTried ∧
      vTried'.take (i + k) = vTried.take i ++ inspectedFrom rnd k i vTried ∧
      (0 < i + k → ∃ r, am.FirstOldest (vTried'.take (i + k)) r ∧
        nPos = drawn rnd vTried.length r) := by
  induction k generalizing i vTried nOldest nOldestPos with
  | zero =>
    refine ⟨vTried, nOldestPos, rfl, .refl _, ?_, fun hpos => ?_⟩
    · rw [Nat.add_zero, inspectedFrom, List.append_nil]
    · rcases hold with ⟨hzero, _⟩ | ⟨r, hr⟩
      · omega
      · exact ⟨r, hr.oldest, hr.pos⟩
  | succ k ih =>
    obtain ⟨shuffled, nTemp, nOldest', nOldestPos', hs, hkept, hrun, hinspected⟩ :=
      selectTriedLoop_round k (by omega) hall hold
    have hlength := hs.perm.length_eq
    obtain ⟨vTried', nPos, hrun', hperm, hfront, holdest⟩ := ih (i + 1) (by omega)
      (fun m hm => hall m (hs.perm.mem_iff.mp hm)) (Or.inr hkept)
    have hsum : i + 1 + k = i + (k + 1) := by omega
    rw [hsum, hs.front, List.append_assoc, List.singleton_append] at hfront
    rw [hsum, hlength] at holdest
    exact ⟨vTried', nPos, hrun.trans hrun', hperm.trans hs.perm, by rw [hinspected, hfront],
      holdest⟩

end Rounds

section Evicting

variable {Hash : List Byte → Uint256} {am : CAddrMan} {n : ℤ} {o : NewBucket} {k : TriedBucket}

/-- A new entry that is to be tried, for which the tried bucket has no place. -/
structure FullBucket (Hash : List Byte → Uint256) (am : CAddrMan) (n : ℤ) (o : NewBucket)
    (k : TriedBucket) : Prop where
  new : n ∈ am.vvNew o
  entry : ∃ info, am.mapInfo[n]? = some info ∧ info.nRefCount = (am.holders n).card ∧
    info.getTriedBucket Hash am.nKey = k
  full : (am.vvTried k).length = ADDRMAN_TRIED_BUCKET_SIZE
  nodup : (am.vvTried k).Nodup
  known : ∀ m ∈ am.vvTried k, 0 ≤ m ∧ ∃ info, am.mapInfo[m]? = some info
  fresh : n ∉ am.vvTried k

/-- The entry was in a tried bucket and is in a new one instead. -/
def MovedBack (am am' : CAddrMan) (m : ℤ) : Prop :=
  ∃ k, m ∈ am.vvTried k ∧ m ∉ am'.vvTried k ∧ ∃ b, m ∈ am'.vvNew b

theorem mem_update_insert (vvNew : NewBucket → Std.TreeSet ℤ) (b : NewBucket) (n : ℤ) :
    ∃ c, n ∈ Function.update vvNew b ((vvNew b).insert n) c := by
  refine ⟨b, ?_⟩
  rw [Function.update_self]
  apply (mem_set_insert _ _ _).mpr
  exact Or.inl rfl

theorem evict_moves {nOld : ℤ} {infoOld : CAddrInfo} (hinfo : am.mapInfo[nOld]? = some infoOld) :
    ∃ am', am.evict Hash nOld o = some am' ∧ am'.vvTried = am.vvTried ∧
      ∃ b, nOld ∈ am'.vvNew b := by
  unfold evict
  rw [hinfo]
  exact ⟨_, rfl, rfl, mem_update_insert _ _ _⟩

theorem leaveNew_entry {info : CAddrInfo} (hinfo : am.mapInfo[n]? = some info)
    (href : info.nRefCount = (am.holders n).card) :
    (am.leaveNew n).mapInfo[n]? = some { info with nRefCount := 0 } := by
  show (am.update n _).mapInfo[n]? = _
  rw [update_lookup, if_pos rfl, hinfo, Option.map_some, href, sub_self]

theorem leaveNew_lastSuccess : (am.leaveNew n).lastSuccess = am.lastSuccess := by
  funext m
  show ((am.update n _).mapInfo[m]?.map _).getD 0 = _
  rw [update_lookup]
  split_ifs
  · rw [Option.map_map]
    rfl
  · rfl

theorem leaveNew_firstOldest {ids : List ℤ} {r : ℕ} :
    (am.leaveNew n).FirstOldest ids r ↔ am.FirstOldest ids r := by
  unfold FirstOldest IsOldest
  rw [leaveNew_lastSuccess]

/-- The bucket after the shuffle, with what SelectTried has found in it. -/
structure Selected (am : CAddrMan) (rnd : ℕ → ℕ) (bucket vTried : List ℤ) (nPos : ℤ) (r : ℕ) :
    Prop where
  perm : vTried.Perm bucket
  front : vTried.take ADDRMAN_TRIED_ENTRIES_INSPECT_ON_EVICT = inspected rnd bucket
  oldest : am.FirstOldest (inspected rnd bucket) r
  pos : nPos = drawn rnd bucket.length r

theorem selectTried_selected (rnd : ℕ → ℕ)
    (hfull : (am.vvTried k).length = ADDRMAN_TRIED_BUCKET_SIZE)
    (hknown : ∀ m ∈ am.vvTried k, 0 ≤ m ∧ ∃ info, am.mapInfo[m]? = some info) :
    ∃ vTried nPos r, am.selectTried k rnd = some (vTried, nPos) ∧
      Selected am rnd (am.vvTried k) vTried nPos r := by
  have hrounds : min ADDRMAN_TRIED_ENTRIES_INSPECT_ON_EVICT (am.vvTried k).length =
      ADDRMAN_TRIED_ENTRIES_INSPECT_ON_EVICT := by
    rw [hfull]
    rfl
  obtain ⟨vTried, nPos, hrun, hperm, hfront, holdest⟩ :=
    @selectTriedLoop_inspected am rnd ADDRMAN_TRIED_ENTRIES_INSPECT_ON_EVICT 0 (am.vvTried k) (-1)
      (-1) (by rw [hfull]; decide) hknown (Or.inl ⟨rfl, rfl⟩)
  rw [List.take_zero, List.nil_append, Nat.zero_add] at hfront
  obtain ⟨r, hr, hpos⟩ := holdest (by decide)
  rw [Nat.zero_add, hfront] at hr
  have hinspected : inspected rnd (am.vvTried k) =
      inspectedFrom rnd ADDRMAN_TRIED_ENTRIES_INSPECT_ON_EVICT 0 (am.vvTried k) := by
    rw [inspected, hrounds]
  refine ⟨vTried, nPos, r, ?_, hperm, ?_, ?_, hpos⟩
  · rw [selectTried, hrounds]
    exact hrun
  · rw [hinspected]
    exact hfront
  · rw [hinspected]
    exact hr

theorem mem_set_iff {l : List ℤ} {p : ℕ} {nOld m : ℤ} (hget : l[p]? = some nOld)
    (hnodup : l.Nodup) : m ∈ l.set p n ↔ m = n ∨ m ∈ l ∧ m ≠ nOld := by
  obtain ⟨hlt, rfl⟩ := List.getElem?_eq_some_iff.mp hget
  have hcons := List.getElem_cons_eraseIdx_perm hlt
  have hout := (List.nodup_cons.mp (hcons.symm.nodup hnodup)).1
  rw [(List.set_perm_cons_eraseIdx hlt n).mem_iff, List.mem_cons, ← hcons.mem_iff, List.mem_cons]
  constructor
  · intro h
    apply h.imp_right
    intro hm
    exact ⟨Or.inr hm, fun heq => hout (heq ▸ hm)⟩
  · intro h
    apply h.imp_right
    intro ⟨hm, hne⟩
    exact hm.resolve_left hne

/-- The position that SelectTried returns is one of the bucket. -/
theorem Selected.pos_lt {bucket vTried : List ℤ} {nPos : ℤ} {r : ℕ} {rnd : ℕ → ℕ}
    (h : Selected am rnd bucket vTried nPos r)
    (hfull : bucket.length = ADDRMAN_TRIED_BUCKET_SIZE) :
    0 ≤ nPos ∧ nPos.toNat < vTried.length := by
  obtain ⟨m, hm, _⟩ := h.oldest
  have hlt := (List.getElem?_eq_some_iff.mp hm).1
  rw [← h.front, List.length_take] at hlt
  have hr : r < bucket.length := by
    rw [← h.perm.length_eq]
    omega
  have hdraw := (drawn_bounds rnd hr).2
  rw [h.pos, h.perm.length_eq]
  omega

theorem FullBucket.leaveNew_known (h : FullBucket Hash am n o k) :
    ∀ m ∈ (am.leaveNew n).vvTried k, 0 ≤ m ∧
      ∃ info, (am.leaveNew n).mapInfo[m]? = some info := by
  intro m hm
  obtain ⟨hid, infoOld, hinfoOld⟩ := h.known m hm
  have hne : n ≠ m := fun heq => h.fresh (heq ▸ hm)
  refine ⟨hid, infoOld, ?_⟩
  show (am.update n _).mapInfo[m]? = _
  rw [update_lookup, if_neg hne]
  exact hinfoOld

/-- MakeTried of an entry for which the tried bucket has no place. -/
theorem FullBucket.makeTried_run (h : FullBucket Hash am n o k) {rnd : ℕ → ℕ} {vTried : List ℤ}
    {nPos nOld : ℤ} {am₁ : CAddrMan}
    (hselect : (am.leaveNew n).selectTried k rnd = some (vTried, nPos)) (hpos : 0 ≤ nPos)
    (hget : vTried[nPos.toNat]? = some nOld)
    (hevict : (am.leaveNew n).evict Hash nOld o = some am₁) :
    am.makeTried Hash n o rnd = some
      (({ am₁ with vvTried := Function.update am₁.vvTried k (vTried.set nPos.toNat n) } :
        CAddrMan).update n fun info => { info with fInTried := true }) := by
  obtain ⟨info, hinfo, href, hk⟩ := h.entry
  have hself := leaveNew_entry hinfo href
  have hk' : CAddrInfo.getTriedBucket Hash { info with nRefCount := 0 } (am.leaveNew n).nKey = k :=
    hk
  have hfits : ¬((am.leaveNew n).vvTried k).length < ADDRMAN_TRIED_BUCKET_SIZE :=
    not_lt.mpr h.full.ge
  unfold makeTried
  rw [if_neg (not_not.mpr h.new)]
  simp only [hself, Option.bind_eq_bind, Option.bind_some]
  rw [if_neg (by simp), hk', if_neg hfits, hselect]
  simp only [Option.bind_some]
  rw [if_neg (by omega), hget]
  simp only [Option.bind_some, hevict]
  rfl

/-- Where one bucket has the new entry in the place of an old one and no other bucket is changed,
the old entry is the one that is moved back. -/
theorem movedBack_iff {am' : CAddrMan} {vTried : List ℤ} {p : ℕ} {nOld m : ℤ}
    (hother : ∀ c, c ≠ k → am'.vvTried c = am.vvTried c) (hself : am'.vvTried k = vTried.set p n)
    (hperm : vTried.Perm (am.vvTried k)) (hnodup : (am.vvTried k).Nodup)
    (hget : vTried[p]? = some nOld) (hfresh : n ∉ am.vvTried k)
    (hback : ∃ b, nOld ∈ am'.vvNew b) : MovedBack am am' m ↔ m = nOld := by
  have hold : nOld ∈ am.vvTried k := hperm.mem_iff.mp (List.mem_of_getElem? hget)
  have hmem : m ∈ am'.vvTried k ↔ m = n ∨ m ∈ am.vvTried k ∧ m ≠ nOld := by
    rw [hself, mem_set_iff hget (hperm.symm.nodup hnodup), hperm.mem_iff]
  constructor
  · intro ⟨c, hin, hout, _⟩
    by_cases hc : c = k
    · subst hc
      by_contra hne
      exact hout (hmem.mpr (Or.inr ⟨hin, hne⟩))
    · rw [hother c hc] at hout
      exact absurd hin hout
  · rintro rfl
    refine ⟨k, hold, fun hin => ?_, hback⟩
    rcases hmem.mp hin with rfl | ⟨_, hne⟩
    · exact hfresh hold
    · exact hne rfl

/-- The entry that leaves the bucket is the one at the position that SelectTried returns, and no
other is moved back. -/
theorem makeTried_evicts (h : FullBucket Hash am n o k) (rnd : ℕ → ℕ) :
    ∃ am' vTried nPos r nOld, am.makeTried Hash n o rnd = some am' ∧
      Selected am rnd (am.vvTried k) vTried nPos r ∧ vTried[nPos.toNat]? = some nOld ∧
      ∀ m, MovedBack am am' m ↔ m = nOld := by
  obtain ⟨vTried, nPos, r, hselect, hselected⟩ :=
    @selectTried_selected (am.leaveNew n) k rnd h.full h.leaveNew_known
  have hperm : vTried.Perm (am.vvTried k) := hselected.perm
  obtain ⟨hpos, hlt⟩ := hselected.pos_lt h.full
  have hget : vTried[nPos.toNat]? = some vTried[nPos.toNat] := List.getElem?_eq_getElem hlt
  generalize vTried[nPos.toNat] = nOld at hget
  have hold : nOld ∈ am.vvTried k := hperm.mem_iff.mp (List.mem_of_getElem? hget)
  obtain ⟨-, infoOld, hinfoOld⟩ := h.leaveNew_known nOld hold
  obtain ⟨am₁, hevict, htried, hback⟩ := @evict_moves Hash _ o _ _ hinfoOld
  refine ⟨_, vTried, nPos, r, nOld, h.makeTried_run hselect hpos hget hevict,
    ⟨hperm, hselected.front, leaveNew_firstOldest.mp hselected.oldest, hselected.pos⟩, hget,
    fun m => ?_⟩
  refine movedBack_iff (fun c hc => ?_) ?_ hperm h.nodup hget h.fresh hback
  · show Function.update am₁.vvTried k _ c = _
    rw [Function.update_of_ne hc, htried]
    rfl
  · exact Function.update_self ..

/-- MakeTried evicts an oldest one of the entries that were inspected exactly when the position
that was drawn for the first of them that is oldest is one of the first positions, with an entry
there that is as old. -/
theorem makeTried_oldest_iff (h : FullBucket Hash am n o k) (rnd : ℕ → ℕ) :
    ∃ am', am.makeTried Hash n o rnd = some am' ∧ (∃ m, MovedBack am am' m) ∧
      ((∀ m, MovedBack am am' m →
          m ∈ inspected rnd (am.vvTried k) ∧ am.IsOldest (inspected rnd (am.vvTried k)) m) ↔
        ∀ r, am.FirstOldest (inspected rnd (am.vvTried k)) r →
          ∃ m, (inspected rnd (am.vvTried k))[drawn rnd ADDRMAN_TRIED_BUCKET_SIZE r]? = some m ∧
            am.IsOldest (inspected rnd (am.vvTried k)) m) := by
  obtain ⟨am', vTried, nPos, r, nOld, hrun, hselected, hget, hmoved⟩ := makeTried_evicts h rnd
  have hnodup : vTried.Nodup := hselected.perm.symm.nodup h.nodup
  have hpos : nPos.toNat = drawn rnd ADDRMAN_TRIED_BUCKET_SIZE r := by
    rw [hselected.pos, h.full, Int.toNat_natCast]
  rw [hpos] at hget
  have hplace : ∀ p m, (inspected rnd (am.vvTried k))[p]? = some m ↔
      p < ADDRMAN_TRIED_ENTRIES_INSPECT_ON_EVICT ∧ vTried[p]? = some m := by
    intro p m
    rw [← hselected.front, List.getElem?_take]
    split_ifs with hp
    · exact (and_iff_right hp).symm
    · exact iff_of_false (by simp) fun h => hp h.1
  refine ⟨am', hrun, ⟨nOld, (hmoved nOld).mpr rfl⟩, ?_⟩
  constructor
  · intro hclaim r' hr'
    obtain rfl := hselected.oldest.unique hr'
    obtain ⟨hmem, hleast⟩ := hclaim nOld ((hmoved nOld).mpr rfl)
    obtain ⟨p, hp⟩ := List.mem_iff_getElem?.mp hmem
    -- an entry is in the bucket once, so that it was drawn at the position where it is
    have hsame : p = drawn rnd ADDRMAN_TRIED_BUCKET_SIZE r := by
      have hlt := (List.getElem?_eq_some_iff.mp hget).1
      have hboth := hget.trans ((hplace p nOld).mp hp).2.symm
      exact ((List.getElem?_inj hlt hnodup).mp hboth).symm
    exact ⟨nOld, hsame ▸ hp, hleast⟩
  · intro hcond m hm
    obtain rfl := (hmoved m).mp hm
    obtain ⟨m', hm', hleast⟩ := hcond r hselected.oldest
    obtain rfl := Option.some.inj (hget.symm.trans ((hplace _ m').mp hm').2)
    exact ⟨List.mem_of_getElem? hm', hleast⟩

end Evicting

section Reached

variable {Hash : List Byte → Uint256} {am : CAddrMan}

/-- What SelectTried relies on is so in every manager that is reached before the count of ids
overflows. -/
theorem reached_fullBucket (nKey : List Byte) {calls : List Call}
    (hcalls : ∀ call ∈ calls, call.TimesPositive)
    (hcounts : EachStep (step Hash) (fun s call => call.Counts s) (some (.init nKey)) calls)
    (hrun : run (step Hash) (some (.init nKey)) calls = some am) {n : ℤ} {o : NewBucket}
    (hnew : n ∈ am.vvNew o) {info : CAddrInfo} (hinfo : am.mapInfo[n]? = some info)
    (hfull : (am.vvTried (info.getTriedBucket Hash am.nKey)).length = ADDRMAN_TRIED_BUCKET_SIZE) :
    FullBucket Hash am n o (info.getTriedBucket Hash am.nKey) := by
  obtain ⟨am', hrun', hsound⟩ := ((init_sound Hash nKey).run hcalls hcounts).last
  obtain rfl := Option.some.inj (hrun.symm.trans hrun')
  obtain ⟨info', hinfo', hfalse⟩ := hsound.placed.new_mem o n hnew
  obtain rfl := Option.some.inj (hinfo.symm.trans hinfo')
  have href := (hsound.placed.new_entry n info hinfo hfalse (by simp)).1
  refine ⟨hnew, ⟨info, hinfo, href, rfl⟩, hfull, hsound.placed.tried_nodup _, fun m hm => ?_,
    hsound.placed.not_tried hinfo hfalse _⟩
  obtain ⟨infoOld, hinfoOld, _⟩ := hsound.placed.tried_mem _ m hm
  exact ⟨(hsound.indexed.fresh m infoOld hinfoOld).1, infoOld, hinfoOld⟩

end Reached

section FullManager

/-- The entry with a number; the higher the number, the longer ago the last success. -/
def numbered (i : ℕ) : CAddrInfo :=
  { CAddrInfo.make { peer with ip := peer.ip + BitVec.ofNat 128 i } peer.toCNetAddr with
    nLastSuccess := BitVec.ofNat 64 (1400000000 - i)
    nRefCount := if i < ADDRMAN_TRIED_BUCKET_SIZE then 0 else 1
    fInTried := decide (i < ADDRMAN_TRIED_BUCKET_SIZE)
    nRandomPos := i }

def firstTried : TriedBucket := ⟨0, by decide⟩

def firstNew : NewBucket := ⟨0, by decide⟩

/-- A tried bucket with 64 entries, and a new entry that belongs there too, under a hash that is
zero. -/
def fullManager : CAddrMan where
  nKey := [7]
  nIdCount := 65
  mapInfo := (List.range 65).foldl (fun m (i : ℕ) => m.insert (i : ℤ) (numbered i)) ∅
  mapAddr := (List.range 65).foldl (fun m (i : ℕ) => m.insert (numbered i).toCNetAddr (i : ℤ)) ∅
  vRandom := (List.range 65).map fun (i : ℕ) => (i : ℤ)
  nTried := 64
  vvTried b := if b = firstTried then (List.range 64).map fun (i : ℕ) => (i : ℤ) else []
  nNew := 1
  vvNew b := if b = firstNew then Std.TreeSet.empty.insert 64 else ∅

def zeroHash : List Byte → Uint256 := fun _ => 0

theorem fullManager_check : fullManager.check_ = 0 := by decide +kernel

theorem fullManager_full : FullBucket zeroHash fullManager 64 firstNew firstTried where
  new := by decide
  entry := ⟨numbered 64, by decide, by decide, by decide⟩
  full := by decide
  nodup := by decide
  known := by
    have hall : ∀ m ∈ fullManager.vvTried firstTried,
        0 ≤ m ∧ fullManager.mapInfo[m]?.isSome = true := by
      decide
    intro m hm
    exact ⟨(hall m hm).1, Option.isSome_iff_exists.mp (hall m hm).2⟩
  fresh := by decide

/-- The draws of four rounds: the first takes the entry at position ten, the others draw where they
are. -/
def tenFirst (i : ℕ) : ℕ := if i = 0 then 10 else 0

/-- The entry that is evicted has not been inspected, and is younger than every one that has. -/
theorem youngest_evicted : fullManager.check_ = 0 ∧
    FullBucket zeroHash fullManager 64 firstNew firstTried ∧
    ∃ am', fullManager.makeTried zeroHash 64 firstNew tenFirst = some am' ∧
      MovedBack fullManager am' 0 ∧ 0 ∉ inspected tenFirst (fullManager.vvTried firstTried) ∧
      ∀ m ∈ inspected tenFirst (fullManager.vvTried firstTried),
        fullManager.lastSuccess m < fullManager.lastSuccess 0 := by
  have hrun : (fullManager.makeTried zeroHash 64 firstNew tenFirst).any (fun am' =>
      decide ((0 : ℤ) ∉ am'.vvTried firstTried) && (am'.vvNew firstNew).contains 0) = true := by
    decide
  obtain ⟨am', hmake, hmoved⟩ := (Option.any_eq_true _ _).mp hrun
  rw [Bool.and_eq_true, decide_eq_true_eq] at hmoved
  refine ⟨fullManager_check, fullManager_full, am', hmake,
    ⟨firstTried, by decide, hmoved.1, firstNew, ?_⟩, by decide, by decide⟩
  exact Std.TreeSet.contains_iff_mem.mp hmoved.2

/-- With an oldest entry that is drawn where it is, it is the one that is evicted. -/
theorem makeTried_oldest_iff_third : ∃ am',
    fullManager.makeTried zeroHash 64 firstNew (fun _ => 0) = some am' ∧
      (∃ m, MovedBack fullManager am' m) ∧ ∀ m, MovedBack fullManager am' m →
        fullManager.IsOldest [0, 1, 2, 3] m := by
  obtain ⟨am', hrun, hsome, hiff⟩ := makeTried_oldest_iff fullManager_full fun _ => 0
  have hinspected : inspected (fun _ => 0) (fullManager.vvTried firstTried) = [0, 1, 2, 3] := by
    decide
  rw [hinspected] at hiff
  have hthird : fullManager.FirstOldest [0, 1, 2, 3] 3 :=
    ⟨3, rfl, by unfold IsOldest; decide, by decide⟩
  refine ⟨am', hrun, hsome, fun m hm => (hiff.mpr (fun r hr => ?_) m hm).2⟩
  obtain rfl := hthird.unique hr
  exact ⟨3, by decide, by unfold IsOldest; decide⟩

end FullManager

end CAddrMan

end UmbrellaLtc.AddrMan
