import UmbrellaLtc.AddrManEvict
import UmbrellaLtc.AddrManRoundTrip

/-!
What Check_ accepts can be written and read again: the new entries are there with their buckets,
and the tried entries as far as there is room in the buckets that they belong to.
-/

namespace UmbrellaLtc.AddrMan

open Codec Transaction NetAddr

namespace CAddrMan

section Entries

variable {am : CAddrMan}

theorem Checked.addr_inj (h : Checked am) {m n : ℤ} {info info' : CAddrInfo}
    (hm : am.mapInfo[m]? = some info) (hn : am.mapInfo[n]? = some info')
    (haddr : info.toCNetAddr = info'.toCNetAddr) : m = n := by
  rw [← (h.entries m info hm).addr, haddr, (h.entries n info' hn).addr]

theorem Checked.mem_newEntries (h : Checked am) (e : ℤ × CAddrInfo) :
    e ∈ am.newEntries ↔ am.mapInfo[e.1]? = some e.2 ∧ e.2.fInTried = false := by
  obtain ⟨n, info⟩ := e
  rw [newEntries, List.mem_filter, Std.TreeMap.mem_toList_iff_getElem?_eq_some, isNew, bne_iff_ne]
  apply and_congr_right
  intro hinfo
  have hentry := h.entries n info hinfo
  constructor
  · intro href
    by_contra hin
    exact href (hentry.tried (by simpa using hin)).2
  · intro hin
    have hrefs := hentry.refs hin
    show info.nRefCount ≠ 0
    omega

theorem mem_triedEntries (am : CAddrMan) (e : ℤ × CAddrInfo) :
    e ∈ am.triedEntries ↔ am.mapInfo[e.1]? = some e.2 ∧ e.2.fInTried = true := by
  rw [triedEntries, List.mem_filter, Std.TreeMap.mem_toList_iff_getElem?_eq_some, isTried]

theorem Checked.triedEntries_length (h : Checked am) :
    (am.triedEntries.length : ℤ) = am.nTried := by
  rw [← h.tried_length, setTried, List.length_map]
  rfl

theorem Checked.newEntries_length (h : Checked am) : (am.newEntries.length : ℤ) = am.nNew := by
  have hsplit := size_split am
  have htried : am.setTried.length = am.triedEntries.length := by
    rw [setTried, List.length_map]
    rfl
  have hnew : am.newEntries = am.mapInfo.toList.filter fun e => !isTried e := by
    apply List.filter_congr
    intro e he
    have hmem := h.mem_newEntries e
    have hlook := Std.TreeMap.mem_toList_iff_getElem?_eq_some.mp he
    rw [newEntries, List.mem_filter] at hmem
    rw [Bool.eq_iff_iff, Bool.not_eq_true', isTried]
    exact ⟨fun hn => (hmem.mp ⟨he, hn⟩).2, fun hin => (hmem.mpr ⟨hlook, hin⟩).2⟩
  have hlength := List.length_eq_length_filter_add (l := am.mapInfo.toList) isTried
  rw [← hnew, Std.TreeMap.length_toList] at hlength
  rw [← h.new_size]
  have htried' : am.triedEntries = am.mapInfo.toList.filter isTried := rfl
  rw [htried'] at htried
  omega

/-- The sum of the counters is an int, since Check_ compares it with a size. -/
theorem Checked.total_lt (h : Checked am) (hnew : IsInt am.nNew) (htried : IsInt am.nTried) :
    am.nNew + am.nTried < 2 ^ 31 := by
  have hrandom := h.random_length
  have hnewSize := h.new_size
  have htriedLength := h.tried_length
  unfold IsInt at hnew htried
  rw [BitVec.toInt_ofInt, Int.bmod_def] at hrandom
  norm_num at hrandom
  split_ifs at hrandom
  · omega
  · omega

theorem Checked.entries_nodup (h : Checked am) : (am.newEntries ++ am.triedEntries).Nodup := by
  have hall : am.mapInfo.toList.Nodup := am.ids_nodup.of_map _
  rw [List.nodup_append']
  refine ⟨hall.sublist List.filter_sublist, hall.sublist List.filter_sublist, ?_⟩
  intro e hnew htried
  have hout := ((h.mem_newEntries e).mp hnew).2
  rw [((mem_triedEntries am e).mp htried).2] at hout
  cases hout

/-- The reference count of a new entry says in how many buckets it is. -/
theorem Checked.holders_card (h : Checked am) {n : ℤ} {info : CAddrInfo}
    (hinfo : am.mapInfo[n]? = some info) (hin : info.fInTried = false) :
    ((am.holders n).card : ℤ) = info.nRefCount := by
  have hcount := h.new_counts n
  rw [newIds_count, mapNew_lookup, hinfo, Option.bind_some, hin] at hcount
  simpa using hcount

/-- What is in a new bucket is a new entry. -/
theorem Checked.new_mem (h : Checked am) {b : NewBucket} {n : ℤ} (hn : n ∈ am.vvNew b) :
    ∃ info, am.mapInfo[n]? = some info ∧ info.fInTried = false := by
  have hcount := h.new_counts n
  have hpos : 0 < (am.holders n).card := Finset.card_pos.mpr ⟨b, by rwa [mem_holders]⟩
  rw [newIds_count, mapNew_lookup] at hcount
  cases hinfo : am.mapInfo[n]? with
  | none =>
    rw [hinfo, Option.bind_none, Option.getD_none] at hcount
    omega
  | some info =>
    rw [hinfo, Option.bind_some] at hcount
    cases hin : info.fInTried with
    | false => exact ⟨info, rfl, hin⟩
    | true =>
      rw [hin, if_pos rfl, Option.getD_none] at hcount
      omega

end Entries

section Renumbering

/-- The number of an entry in the file. -/
def place (S : List (ℤ × CAddrInfo)) (n : ℤ) : ℤ := ((S.map Prod.fst).idxOf n : ℤ)

theorem place_getElem {S : List (ℤ × CAddrInfo)} (hS : (S.map Prod.fst).Nodup) {k : ℕ}
    {e : ℤ × CAddrInfo} (hk : S[k]? = some e) : place S e.1 = k := by
  obtain ⟨hlt, hget⟩ := List.getElem?_eq_some_iff.mp hk
  have hidx := hS.idxOf_getElem k (by simpa using hlt)
  rw [List.getElem_map, hget] at hidx
  rw [place, hidx]

theorem place_inj {S : List (ℤ × CAddrInfo)} {e : ℤ × CAddrInfo} (he : e ∈ S) {n : ℤ}
    (heq : place S e.1 = place S n) : e.1 = n := by
  unfold place at heq
  exact (List.idxOf_inj (List.mem_map_of_mem he)).mp (by omega)

/-- The number does not change where more entries follow. -/
theorem place_append {S : List (ℤ × CAddrInfo)} {e : ℤ × CAddrInfo} (he : e ∈ S)
    (S' : List (ℤ × CAddrInfo)) :
    place (S ++ S') e.1 = place S e.1 := by
  rw [place, place, List.map_append, List.idxOf_append_of_mem (List.mem_map_of_mem he)]

end Renumbering

section File

variable {am : CAddrMan}

/-- What the file holds of a new bucket. -/
def bucketNumbers (am : CAddrMan) (b : NewBucket) : List ℤ :=
  (am.vvNew b).toList.map (place am.newEntries)

theorem newIds_nodup (am : CAddrMan) : (am.newEntries.map Prod.fst).Nodup :=
  am.ids_nodup.sublist (List.filter_sublist.map _)

theorem Checked.mem_bucket (h : Checked am) {b : NewBucket} {n : ℤ} (hn : n ∈ am.vvNew b) :
    ∃ info, (n, info) ∈ am.newEntries := by
  obtain ⟨info, hinfo, hin⟩ := h.new_mem hn
  exact ⟨info, (h.mem_newEntries (n, info)).mpr ⟨hinfo, hin⟩⟩

theorem mem_bucketNumbers {b : NewBucket} {e : ℤ × CAddrInfo}
    (he : e ∈ am.newEntries) :
    place am.newEntries e.1 ∈ am.bucketNumbers b ↔ e.1 ∈ am.vvNew b := by
  rw [bucketNumbers, List.mem_map]
  constructor
  · intro hmem
    obtain ⟨n, hn, heq⟩ := hmem
    rw [place_inj he heq.symm]
    exact Std.TreeSet.mem_toList.mp hn
  · intro hmem
    exact ⟨e.1, Std.TreeSet.mem_toList.mpr hmem, rfl⟩

theorem Checked.bucketNumbers_nodup (h : Checked am) (b : NewBucket) :
    (am.bucketNumbers b).Nodup := by
  apply List.Nodup.map_on _ (toList_nodup (am.vvNew b))
  intro m hm n _ heq
  obtain ⟨info, he⟩ := h.mem_bucket (Std.TreeSet.mem_toList.mp hm)
  exact place_inj he heq

/-- A number in a bucket is the place of a new entry. -/
theorem Checked.bucketNumbers_range (h : Checked am) {b : NewBucket} {m : ℤ}
    (hm : m ∈ am.bucketNumbers b) :
    ∃ (k : ℕ) (e : ℤ × CAddrInfo), am.newEntries[k]? = some e ∧ m = k ∧ e.1 ∈ am.vvNew b := by
  rw [bucketNumbers, List.mem_map] at hm
  obtain ⟨n, hn, rfl⟩ := hm
  have hn' := Std.TreeSet.mem_toList.mp hn
  obtain ⟨info, he⟩ := h.mem_bucket hn'
  obtain ⟨k, hk⟩ := List.mem_iff_getElem?.mp he
  exact ⟨k, (n, info), hk, place_getElem am.newIds_nodup hk, hn'⟩

theorem Checked.bucketNumbers_length (h : Checked am) (b : NewBucket) :
    (am.bucketNumbers b).length ≤ am.newEntries.length := by
  have hsub : (am.vvNew b).toList ⊆ am.newEntries.map Prod.fst := by
    intro n hn
    obtain ⟨info, he⟩ := h.mem_bucket (Std.TreeSet.mem_toList.mp hn)
    exact List.mem_map_of_mem he
  have hle := ((toList_nodup (am.vvNew b)).subperm hsub).length_le
  rwa [List.length_map, ← List.length_map (f := place am.newEntries)] at hle

/-- The layout of the file. -/
theorem Checked.serialize_eq (h : Checked am) : am.serialize =
    uchar.write 0 ++ (script.write am.nKey ++ (writeInt am.nNew ++ (writeInt am.nTried ++
      (writeInt ADDRMAN_NEW_BUCKET_COUNT ++ (am.newEntries.flatMap (fun e => writeInfo e.2) ++
        (am.triedEntries.flatMap (fun e => writeInfo e.2) ++
          (List.finRange ADDRMAN_NEW_BUCKET_COUNT).flatMap fun b =>
            writeInt (am.bucketNumbers b).length ++ (am.bucketNumbers b).flatMap writeInt)))))) := by
  have hnew := h.newEntries_length
  have htried := h.triedEntries_length
  obtain ⟨hbytes, -, hnum⟩ := writeNew_spec am.nNew am.mapInfo.toList 0 ∅ am.ids_nodup
    (by rw [← hnew, newEntries]; omega)
  have hwrite := writeTried_eq am.nTried am.mapInfo.toList 0 (by rw [← htried, triedEntries]; omega)
  unfold serialize
  generalize writeNew am.nNew am.mapInfo.toList 0 ∅ = written at hbytes hnum
  obtain ⟨mapUnkIds, infos⟩ := written
  dsimp only at hbytes hnum ⊢
  have hnumber : ∀ b, ∀ n ∈ (am.vvNew b).toList,
      mapUnkIds[n]?.getD 0 = place am.newEntries n := by
    intro b n hn
    obtain ⟨info, he⟩ := h.mem_bucket (Std.TreeSet.mem_toList.mp hn)
    obtain ⟨k, hk⟩ := List.mem_iff_getElem?.mp he
    have hplace := place_getElem am.newIds_nodup hk
    dsimp only at hplace
    have hlook := hnum k (n, info) hk
    dsimp only at hlook
    rw [hplace, hlook, Option.getD_some, Int.zero_add]
  have hbucket : ∀ b, writeBucket mapUnkIds (am.vvNew b) =
      writeInt (am.bucketNumbers b).length ++ (am.bucketNumbers b).flatMap writeInt := by
    intro b
    rw [writeBucket, bucketNumbers, List.length_map, Std.TreeSet.length_toList, List.flatMap_map]
    congr 1
    apply List.flatMap_congr
    intro n hn
    rw [hnumber b n hn]
  rw [hbytes, hwrite]
  simp only [hbucket]
  rfl

/-- The fields of an entry that are read, with the mark of the tried ones. -/
def saved (info : CAddrInfo) : CAddrInfo :=
  { info with nLastTry := 0, nRefCount := 0, nRandomPos := -1 }

theorem saved_new {info : CAddrInfo} (hin : info.fInTried = false) : stored info = saved info := by
  rw [stored, saved, hin]

theorem saved_tried {info : CAddrInfo} (hin : info.fInTried = true) :
    asTried (stored info) = saved info := by
  rw [asTried, stored, saved, hin]

theorem Checked.entry_lookup (h : Checked am) {e : ℤ × CAddrInfo}
    (he : e ∈ am.newEntries ++ am.triedEntries) : am.mapInfo[e.1]? = some e.2 := by
  rcases List.mem_append.mp he with hnew | htried
  · exact ((h.mem_newEntries e).mp hnew).1
  · exact ((mem_triedEntries am e).mp htried).1

theorem Checked.entry_unique (h : Checked am) {e e' : ℤ × CAddrInfo}
    (he : e ∈ am.newEntries ++ am.triedEntries) (he' : e' ∈ am.newEntries ++ am.triedEntries)
    (hid : e.1 = e'.1) : e = e' := by
  have hinfo := h.entry_lookup he
  rw [hid, h.entry_lookup he'] at hinfo
  exact Prod.ext hid (by simpa using hinfo.symm)

theorem Checked.addrs_nodup (h : Checked am) :
    ((am.newEntries ++ am.triedEntries).map fun e => e.2.toCNetAddr).Nodup := by
  apply List.Nodup.map_on _ h.entries_nodup
  intro e he e' he' heq
  exact h.entry_unique he he' (h.addr_inj (h.entry_lookup he) (h.entry_lookup he') heq)

/-- The pairs of the buckets and the numbers in them. -/
def numberPairs (am : CAddrMan) : List (NewBucket × ℤ) :=
  (List.finRange ADDRMAN_NEW_BUCKET_COUNT).flatMap fun b => (am.bucketNumbers b).map (Prod.mk b)

theorem mem_numberPairs (b : NewBucket) (n : ℤ) :
    (b, n) ∈ am.numberPairs ↔ n ∈ am.bucketNumbers b := by
  simp [numberPairs]

theorem Checked.numberPairs_nodup (h : Checked am) : am.numberPairs.Nodup := by
  rw [numberPairs, List.nodup_flatMap]
  constructor
  · intro b _
    exact (h.bucketNumbers_nodup b).map (Prod.mk_right_injective b)
  · apply (List.nodup_finRange _).imp
    intro b c hbc p hb hc
    obtain ⟨m, -, rfl⟩ := List.mem_map.mp hb
    obtain ⟨n, -, heq⟩ := List.mem_map.mp hc
    exact hbc (congrArg Prod.fst heq).symm

/-- No number is in more than four buckets. -/
theorem Checked.numberPairs_refs (h : Checked am) (n : ℤ) :
    (({c : NewBucket | (c, n) ∈ am.numberPairs} : Finset NewBucket).card : ℤ) ≤
      ADDRMAN_NEW_BUCKETS_PER_ADDRESS := by
  by_cases hsome : ∃ b, n ∈ am.bucketNumbers b
  · obtain ⟨b, hb⟩ := hsome
    obtain ⟨k, e, hk, rfl, -⟩ := h.bucketNumbers_range hb
    have he := List.mem_of_getElem? hk
    have hplace := place_getElem am.newIds_nodup hk
    have hset : ({c : NewBucket | (c, (k : ℤ)) ∈ am.numberPairs} : Finset NewBucket) =
        am.holders e.1 := by
      ext c
      rw [Finset.mem_filter_univ, mem_numberPairs, ← hplace, mem_bucketNumbers he, mem_holders]
    obtain ⟨hinfo, hin⟩ := (h.mem_newEntries e).mp he
    rw [hset, h.holders_card hinfo hin]
    exact ((h.entries e.1 e.2 hinfo).refs hin).2
  · have hset : ({c : NewBucket | (c, n) ∈ am.numberPairs} : Finset NewBucket) = ∅ := by
      ext c
      rw [Finset.mem_filter_univ, mem_numberPairs]
      simp only [Finset.notMem_empty, iff_false]
      exact fun hc => hsome ⟨c, hc⟩
    rw [hset]
    decide

end File

section Restoring

variable {Hash : List Byte → Uint256} {am : CAddrMan}

theorem Lined.congr {E : List CAddrInfo} {am' : CAddrMan} (h : Lined Hash E am)
    (hkey : am'.nKey = am.nKey) (hinfo : am'.mapInfo = am.mapInfo)
    (haddr : am'.mapAddr = am.mapAddr) (hrandom : am'.vRandom = am.vRandom)
    (htried : am'.vvTried = am.vvTried) (hnew : am'.vvNew = am.vvNew) : Lined Hash E am' := by
  have hplace : am'.inPlace = am.inPlace := by
    funext k info
    rw [inPlace, inPlace, holders, holders, hnew]
  constructor
  · rw [hrandom]
    exact h.random
  · rw [hinfo, hplace]
    exact h.entry
  · rw [hinfo]
    exact h.natural
  · rw [haddr]
    exact h.addr
  · rw [htried, hkey]
    exact h.tried

/-- The places are ids, and positions in vRandom. -/
theorem Lined.indexed {E : List CAddrInfo} (h : Lined Hash E am)
    (hid : am.nIdCount.toInt = E.length) : Indexed am := by
  have hrandom : ∀ (k : ℕ) (n : ℤ), am.vRandom[k]? = some n ↔ k < E.length ∧ n = k := by
    intro k n
    rw [h.random, List.getElem?_map, Option.map_eq_some_iff]
    constructor
    · intro hk
      obtain ⟨j, hj, rfl⟩ := hk
      obtain ⟨hlt, hget⟩ := List.getElem?_eq_some_iff.mp hj
      rw [List.length_range] at hlt
      rw [List.getElem_range] at hget
      exact ⟨hlt, by omega⟩
    · intro hk
      exact ⟨k, List.getElem?_range hk.1, hk.2.symm⟩
  have hlt : ∀ (k : ℕ) (e : CAddrInfo), E[k]? = some e → k < E.length := by
    intro k e hk
    obtain ⟨hlt, -⟩ := List.getElem?_eq_some_iff.mp hk
    exact hlt
  constructor
  · omega
  · intro n info hn
    obtain ⟨k, e, rfl, hk, -⟩ := h.lookup hn
    have hk' := hlt k e hk
    omega
  · intro n info hn
    obtain ⟨k, e, rfl, hk, rfl⟩ := h.lookup hn
    refine ⟨Int.natCast_nonneg k, ?_⟩
    show am.vRandom[(k : ℤ).toNat]? = _
    rw [Int.toNat_natCast, hrandom]
    exact ⟨hlt k e hk, rfl⟩
  · intro k n hk
    obtain ⟨hk', rfl⟩ := (hrandom k n).mp hk
    have hentry := h.entry k
    rw [List.getElem?_eq_getElem hk', Option.map_some] at hentry
    exact ⟨_, hentry, rfl⟩
  · intro n info hn
    obtain ⟨k, e, rfl, hk, rfl⟩ := h.lookup hn
    exact (h.addr _ _).mpr ⟨k, e, rfl, hk, rfl⟩
  · intro a n ha
    obtain ⟨k, e, rfl, hk, rfl⟩ := (h.addr a n).mp ha
    have hentry := h.entry k
    rw [hk, Option.map_some] at hentry
    exact ⟨_, hentry, rfl⟩

theorem init_lined (nKey : List Byte) : Lined Hash [] (.init nKey) := by
  constructor
  all_goals simp [init, bucketPlaces]

/-- While the file is read, the manager holds the entries of the file up to here. -/
structure Reading (Hash : List Byte → Uint256) (am : CAddrMan) (S : List (ℤ × CAddrInfo))
    (am' : CAddrMan) : Prop where
  lined : Lined Hash (S.map fun e => saved e.2) am'
  nKey : am'.nKey = am.nKey
  nNew : am'.nNew = am.nNew

theorem Checked.stored_addrs (h : Checked am) :
    (((am.newEntries.map fun e => saved e.2) ++
      am.triedEntries.map fun e => stored e.2).map (·.toCNetAddr)).Nodup := by
  have haddrs := h.addrs_nodup
  rw [List.map_append] at haddrs
  rw [List.map_append, List.map_map, List.map_map]
  exact haddrs

/-- A loop that reads back the entries that were written. -/
theorem readInfos_write {σ : Type} (take : σ → CAddrInfo → σ) (l : List (ℤ × CAddrInfo)) (s : σ)
    (rest : List Byte) :
    readLoop readInfo take l.length s (l.flatMap (fun e => writeInfo e.2) ++ rest) =
      some ((l.map fun e => stored e.2).foldl take s, rest) := by
  have hread : ∀ e ∈ l, ∀ rest, readInfo (writeInfo e.2 ++ rest) = some (stored e.2, rest) := by
    intro e _ rest
    rw [readInfo_writeInfo]
  generalize readInfo = read at hread ⊢
  exact readLoop_write take hread s rest

theorem Checked.readNew (h : Checked am) (Hash : List Byte → Uint256) (rest : List Byte) :
    ∃ am', readLoop readInfo (CAddrMan.takeNew Hash ADDRMAN_NEW_BUCKET_COUNT)
        am.newEntries.length ({ init am.nKey with nNew := am.nNew, nTried := am.nTried }, 0)
        (am.newEntries.flatMap (fun e => writeInfo e.2) ++ rest) =
          some ((am', (am.newEntries.length : ℤ)), rest) ∧
      Reading Hash am am.newEntries am' ∧ am'.nTried = am.nTried ∧ ∀ b, ∀ n, n ∉ am'.vvNew b := by
  have hsaved : (am.newEntries.map fun e => stored e.2) = am.newEntries.map fun e => saved e.2 := by
    apply List.map_congr_left
    intro e he
    exact saved_new ((h.mem_newEntries e).mp he).2
  let base := { init am.nKey with nNew := am.nNew, nTried := am.nTried }
  have hbase : Lined Hash [] base := (init_lined am.nKey).congr rfl rfl rfl rfl rfl rfl
  have hempty : ∀ b, ∀ n, n ∉ base.vvNew b := fun b n => by simp [base, init]
  have hl : ∀ info ∈ am.newEntries.map fun e => saved e.2,
      info.nRefCount = 0 ∧ info.fInTried = false := by
    intro info hinfo
    obtain ⟨e, he, rfl⟩ := List.mem_map.mp hinfo
    exact ⟨rfl, ((h.mem_newEntries e).mp he).2⟩
  obtain ⟨am', hrun, hlined, hheader, hnew⟩ := hbase.takeNew hempty _ hl
    (h.stored_addrs.sublist ((List.sublist_append_left _ _).map _))
  refine ⟨am', ?_, ⟨hlined, hheader.nKey, hheader.nNew⟩, hheader.nTried, by rwa [hnew]⟩
  rw [readInfos_write, hsaved]
  simpa using hrun

theorem Checked.readTried (h : Checked am) {am1 : CAddrMan}
    (hread : Reading Hash am am.newEntries am1) (hid : am1.nIdCount.toInt = am.nNew)
    (hmany : am.nNew + am.nTried < 2 ^ 31)
    (hempty : ∀ b, ∀ n, n ∉ am1.vvNew b) (rest : List Byte) :
    ∃ am' kept, readLoop readInfo (CAddrMan.takeTried Hash) am.triedEntries.length (am1, 0)
        (am.triedEntries.flatMap (fun e => writeInfo e.2) ++ rest) =
          some ((am', (am.triedEntries.length - kept.length : ℤ)), rest) ∧
      kept.Sublist am.triedEntries ∧ Reading Hash am (am.newEntries ++ kept) am' ∧
      am'.nIdCount.toInt = (am.newEntries ++ kept).length ∧ am'.nTried = am1.nTried ∧
      (∀ b, ∀ n, n ∉ am'.vvNew b) ∧
      ((∀ b, am.triedEntries.countP (fun e => e.2.getTriedBucket Hash am.nKey == b) ≤
        ADDRMAN_TRIED_BUCKET_SIZE) → kept = am.triedEntries) := by
  have hlength : am1.nIdCount.toInt = (am.newEntries.map fun e => saved e.2).length := by
    rw [hid, List.length_map, h.newEntries_length]
  have hrefs : ∀ info ∈ am.triedEntries.map fun e => stored e.2, info.nRefCount = 0 := by
    intro info hinfo
    obtain ⟨e, -, rfl⟩ := List.mem_map.mp hinfo
    rfl
  have hroom : (am.newEntries.map fun e => saved e.2).length +
      (am.triedEntries.map fun e => stored e.2).length < 2 ^ 31 := by
    have hnewLength := h.newEntries_length
    have htriedLength := h.triedEntries_length
    rw [List.length_map, List.length_map]
    omega
  obtain ⟨am', keptInfos, hrun, hsub, hlined, hid', hheader, hnew, hall⟩ :=
    hread.lined.takeTried hlength hempty _ 0 hroom hrefs h.stored_addrs
  obtain ⟨kept, hkept, rfl⟩ := List.sublist_map_iff.mp hsub
  have hsaved : ((kept.map fun e => stored e.2).map asTried) = kept.map fun e => saved e.2 := by
    rw [List.map_map]
    apply List.map_congr_left
    intro e he
    exact saved_tried ((mem_triedEntries am e).mp (hkept.subset he)).2
  rw [hsaved, ← List.map_append] at hlined
  refine ⟨am', kept, ?_, hkept, ⟨hlined, hheader.nKey.trans hread.nKey,
    hheader.nNew.trans hread.nNew⟩, ?_, hheader.nTried, by rwa [hnew], ?_⟩
  · rw [readInfos_write, hrun]
    simp only [List.length_map, Int.zero_add]
  · rw [hid']
    simp
  · intro hfits
    apply hkept.eq_of_length
    have hlengths := congrArg List.length (hall fun b => ?_)
    · simpa using hlengths
    · -- the buckets are empty before
      have hnone : am1.vvTried b = [] := by
        rw [hread.lined.tried, List.eq_nil_iff_forall_not_mem]
        intro n hn
        obtain ⟨k, e, -, hk, hin, -⟩ := (mem_bucketPlaces _ _ _ _).mp hn
        obtain ⟨e', he', rfl⟩ := List.mem_map.mp (List.mem_of_getElem? hk)
        have hout := ((h.mem_newEntries e').mp he').2
        have hin' : e'.2.fInTried = true := hin
        rw [hout] at hin'
        cases hin'
      rw [hnone, List.length_nil, Nat.zero_add, List.countP_map, hread.nKey]
      exact hfits b

theorem Checked.readNumbers (h : Checked am) (hint : IsInt am.nNew) {kept : List (ℤ × CAddrInfo)}
    {am1 : CAddrMan} (hread : Reading Hash am (am.newEntries ++ kept) am1)
    (hempty : ∀ b, ∀ n, n ∉ am1.vvNew b) (rest : List Byte) :
    ∃ am', readBuckets ADDRMAN_NEW_BUCKET_COUNT ADDRMAN_NEW_BUCKET_COUNT 0 am1
        (((List.finRange ADDRMAN_NEW_BUCKET_COUNT).flatMap fun b =>
          writeInt (am.bucketNumbers b).length ++ (am.bucketNumbers b).flatMap writeInt) ++ rest) =
          some (am', rest) ∧
      Reading Hash am (am.newEntries ++ kept) am' ∧ am'.nIdCount = am1.nIdCount ∧
      am'.nTried = am1.nTried ∧ ∀ b n, n ∈ am'.vvNew b ↔ n ∈ am.bucketNumbers b := by
  have hlength := h.newEntries_length
  have hrange : ∀ p ∈ am.numberPairs,
      ∃ k < ((am.newEntries ++ kept).map fun e => saved e.2).length, p.2 = (k : ℤ) := by
    intro p hp
    obtain ⟨b, n⟩ := p
    obtain ⟨k, e, hk, hn, -⟩ := h.bucketNumbers_range ((mem_numberPairs b n).mp hp)
    obtain ⟨hlt, -⟩ := List.getElem?_eq_some_iff.mp hk
    refine ⟨k, ?_, hn⟩
    rw [List.length_map, List.length_append]
    omega
  obtain ⟨am', hrun, hlined, hmem, hheader, hid⟩ := hread.lined.takeIndices am.numberPairs []
    (fun c n => by simpa using hempty c n) h.numberPairs_nodup hrange h.numberPairs_refs
  have hsize : ∀ b, IsInt (am.bucketNumbers b).length := by
    intro b
    have hle := h.bucketNumbers_length b
    unfold IsInt at hint ⊢
    omega
  have hints : ∀ b, ∀ n ∈ am.bucketNumbers b, IsInt n := by
    intro b n hn
    obtain ⟨k, e, hk, hn, -⟩ := h.bucketNumbers_range hn
    obtain ⟨hlt, -⟩ := List.getElem?_eq_some_iff.mp hk
    unfold IsInt at hint ⊢
    omega
  have hread' := readBuckets_write am.bucketNumbers hsize hints
    (List.finRange ADDRMAN_NEW_BUCKET_COUNT) 0 (by simp [List.range_eq_range']) am1 rest
  rw [List.length_finRange] at hread'
  refine ⟨am', hread'.trans ?_, ⟨hlined, hheader.nKey.trans hread.nKey,
    hheader.nNew.trans hread.nNew⟩, hid, hheader.nTried, ?_⟩
  · rw [← hrun]
    rfl
  · intro b n
    rw [hmem, List.nil_append, mem_numberPairs]

/-- What is read back: the new entries with their buckets, and the tried entries that are kept. -/
theorem Checked.unserialize (h : Checked am) (Hash : List Byte → Uint256)
    (hkey : am.nKey.length ≤ MAX_SIZE) (hnew : IsInt am.nNew) (htried : IsInt am.nTried)
    (rest : List Byte) :
    ∃ am' kept, CAddrMan.unserialize Hash (am.serialize ++ rest) = some (am', rest) ∧
      kept.Sublist am.triedEntries ∧ Reading Hash am (am.newEntries ++ kept) am' ∧
      am'.nIdCount.toInt = (am.newEntries ++ kept).length ∧ am'.nTried = kept.length ∧
      (∀ b n, n ∈ am'.vvNew b ↔ n ∈ am.bucketNumbers b) ∧
      ((∀ b, am.triedEntries.countP (fun e => e.2.getTriedBucket Hash am.nKey == b) ≤
        ADDRMAN_TRIED_BUCKET_SIZE) → kept = am.triedEntries) := by
  have hnewLength := h.newEntries_length
  have htriedLength := h.triedEntries_length
  obtain ⟨am1, hrun1, hread1, htried1, hempty1⟩ := h.readNew Hash
    (am.triedEntries.flatMap (fun e => writeInfo e.2) ++
      ((List.finRange ADDRMAN_NEW_BUCKET_COUNT).flatMap (fun b =>
        writeInt (am.bucketNumbers b).length ++ (am.bucketNumbers b).flatMap writeInt) ++ rest))
  let am2 := { am1 with nIdCount := BitVec.ofInt 32 am.nNew }
  have hread2 : Reading Hash am am.newEntries am2 :=
    ⟨hread1.lined.congr rfl rfl rfl rfl rfl rfl, hread1.nKey, hread1.nNew⟩
  obtain ⟨am3, kept, hrun3, hkept, hread3, hid3, htried3, hempty3, hall⟩ :=
    h.readTried hread2 (BitVec.toInt_ofInt_eq_self (by decide) hnew.1 hnew.2)
      (h.total_lt hnew htried) hempty1
      ((List.finRange ADDRMAN_NEW_BUCKET_COUNT).flatMap (fun b =>
        writeInt (am.bucketNumbers b).length ++ (am.bucketNumbers b).flatMap writeInt) ++ rest)
  let am4 := { am3 with nTried := am.nTried - (am.triedEntries.length - kept.length : ℤ) }
  have hread4 : Reading Hash am (am.newEntries ++ kept) am4 :=
    ⟨hread3.lined.congr rfl rfl rfl rfl rfl rfl, hread3.nKey, hread3.nNew⟩
  obtain ⟨am5, hrun5, hread5, hid5, htried5, hmem5⟩ := h.readNumbers hnew hread4 hempty3 rest
  refine ⟨am5, kept, ?_, hkept, hread5, (congrArg BitVec.toInt hid5).trans hid3, ?_, hmem5, hall⟩
  · have hcount : IsInt (ADDRMAN_NEW_BUCKET_COUNT : ℤ) := by
      unfold IsInt ADDRMAN_NEW_BUCKET_COUNT
      omega
    have hscript : script.Good am.nKey := ⟨hkey, fun _ _ => trivial⟩
    have hnewNat : am.nNew.toNat = am.newEntries.length := by omega
    have htriedNat : am.nTried.toNat = am.triedEntries.length := by omega
    rw [h.serialize_eq]
    simp only [CAddrMan.unserialize, List.append_assoc, uchar.read_write 0 _ trivial,
      script.read_write am.nKey _ hscript, readInt_writeInt hnew, readInt_writeInt htried,
      readInt_writeInt hcount, Option.bind_eq_bind, Option.bind_some, hnewNat, htriedNat]
    rw [hrun1, Option.bind_some]
    dsimp only
    rw [hrun3, Option.bind_some]
    exact hrun5
  · rw [htried5]
    show am.nTried - _ = _
    omega

end Restoring

section Restored

variable {Hash : List Byte → Uint256} {am : CAddrMan}

/-- An entry after it was written and read: the time of the last try is in memory only, and the
position is the new id. -/
def reread (nId : ℤ) (info : CAddrInfo) : CAddrInfo :=
  { info with nLastTry := 0, nRandomPos := nId }

/-- The manager that was read, when the entries `kept` are left of the tried ones. -/
structure Reread (Hash : List Byte → Uint256) (am : CAddrMan) (kept : List (ℤ × CAddrInfo))
    (am' : CAddrMan) : Prop where
  checked : Checked am
  sub : kept.Sublist am.triedEntries
  reading : Reading Hash am (am.newEntries ++ kept) am'
  nIdCount : am'.nIdCount.toInt = (am.newEntries ++ kept).length
  nTried : am'.nTried = kept.length
  buckets : ∀ b n, n ∈ am'.vvNew b ↔ n ∈ am.bucketNumbers b

namespace Reread

variable {kept : List (ℤ × CAddrInfo)} {am' : CAddrMan}

theorem subset (h : Reread Hash am kept am') :
    am.newEntries ++ kept ⊆ am.newEntries ++ am.triedEntries :=
  (h.sub.append_left am.newEntries).subset

theorem lookup (h : Reread Hash am kept am') {e : ℤ × CAddrInfo}
    (he : e ∈ am.newEntries ++ kept) : am.mapInfo[e.1]? = some e.2 :=
  h.checked.entry_lookup (h.subset he)

theorem ids_nodup (h : Reread Hash am kept am') :
    ((am.newEntries ++ kept).map Prod.fst).Nodup := by
  apply List.Nodup.map_on
  · intro e he e' he' heq
    exact h.checked.entry_unique (h.subset he) (h.subset he') heq
  · exact h.checked.entries_nodup.sublist (h.sub.append_left am.newEntries)

/-- A new entry is in the buckets in which it was. -/
theorem new_bucket (h : Reread Hash am kept am') {e : ℤ × CAddrInfo} (he : e ∈ am.newEntries)
    (b : NewBucket) : place (am.newEntries ++ kept) e.1 ∈ am'.vvNew b ↔ e.1 ∈ am.vvNew b := by
  rw [h.buckets, place_append he kept, mem_bucketNumbers he]

/-- A tried entry is in no new bucket. -/
theorem tried_bucket (h : Reread Hash am kept am') {e : ℤ × CAddrInfo} (he : e ∈ kept)
    (b : NewBucket) : place (am.newEntries ++ kept) e.1 ∉ am'.vvNew b := by
  intro hmem
  rw [h.buckets] at hmem
  obtain ⟨k, e', hk, heq, -⟩ := h.checked.bucketNumbers_range hmem
  have he' := List.mem_of_getElem? hk
  have hplace := place_getElem (newIds_nodup am) hk
  rw [← hplace, ← place_append he' kept] at heq
  have hid := place_inj (List.mem_append_right _ he) heq
  have hsame := h.checked.entry_unique (h.subset (List.mem_append_right _ he))
    (List.mem_append_left _ he') hid
  have hin := ((mem_triedEntries am e).mp (h.sub.subset he)).2
  rw [hsame, ((h.checked.mem_newEntries e').mp he').2] at hin
  cases hin

/-- The references of an entry are counted again. -/
theorem holders_card (h : Reread Hash am kept am') {e : ℤ × CAddrInfo}
    (he : e ∈ am.newEntries ++ kept) :
    ((am'.holders (place (am.newEntries ++ kept) e.1)).card : ℤ) = e.2.nRefCount := by
  rcases List.mem_append.mp he with hnew | htried
  · have hholders : am'.holders (place (am.newEntries ++ kept) e.1) = am.holders e.1 := by
      ext b
      rw [mem_holders, mem_holders, h.new_bucket hnew]
    obtain ⟨hinfo, hin⟩ := (h.checked.mem_newEntries e).mp hnew
    rw [hholders, h.checked.holders_card hinfo hin]
  · have hholders : am'.holders (place (am.newEntries ++ kept) e.1) = ∅ := by
      ext b
      rw [mem_holders]
      simp only [Finset.notMem_empty, iff_false]
      exact h.tried_bucket htried b
    obtain ⟨hinfo, hin⟩ := (mem_triedEntries am e).mp (h.sub.subset htried)
    rw [hholders, ((h.checked.entries e.1 e.2 hinfo).tried hin).2]
    rfl

theorem inPlace_saved (h : Reread Hash am kept am') {k : ℕ} {e : ℤ × CAddrInfo}
    (hk : (am.newEntries ++ kept)[k]? = some e) :
    am'.inPlace k (saved e.2) = reread (place (am.newEntries ++ kept) e.1) e.2 := by
  have hcard := h.holders_card (List.mem_of_getElem? hk)
  rw [place_getElem h.ids_nodup hk] at hcard ⊢
  rw [inPlace, hcard]
  rfl

theorem entry (h : Reread Hash am kept am') {e : ℤ × CAddrInfo}
    (he : e ∈ am.newEntries ++ kept) :
    am'.mapInfo[place (am.newEntries ++ kept) e.1]? =
      some (reread (place (am.newEntries ++ kept) e.1) e.2) := by
  obtain ⟨k, hk⟩ := List.mem_iff_getElem?.mp he
  have hentry := h.reading.lined.entry k
  rw [List.getElem?_map, hk, Option.map_some, Option.map_some, h.inPlace_saved hk] at hentry
  rw [← hentry, place_getElem h.ids_nodup hk]

theorem origin (h : Reread Hash am kept am') {m : ℤ} {info' : CAddrInfo}
    (hm : am'.mapInfo[m]? = some info') : ∃ e ∈ am.newEntries ++ kept,
      place (am.newEntries ++ kept) e.1 = m ∧ info' = reread m e.2 := by
  obtain ⟨k, saved', rfl, hk, hinfo⟩ := h.reading.lined.lookup hm
  rw [List.getElem?_map, Option.map_eq_some_iff] at hk
  obtain ⟨e, hk, rfl⟩ := hk
  have hplace := place_getElem h.ids_nodup hk
  refine ⟨e, List.mem_of_getElem? hk, hplace, ?_⟩
  rw [hinfo, h.inPlace_saved hk, hplace]

theorem mem_vvTried (h : Reread Hash am kept am') (b : TriedBucket) (n : ℤ) :
    n ∈ am'.vvTried b ↔ ∃ e ∈ kept, n = place (am.newEntries ++ kept) e.1 ∧
      e.2.getTriedBucket Hash am.nKey = b := by
  rw [h.reading.lined.tried, mem_bucketPlaces, h.reading.nKey]
  constructor
  · intro hn
    obtain ⟨k, info, hkn, hk, hin, hb⟩ := hn
    rw [List.getElem?_map, Option.map_eq_some_iff] at hk
    obtain ⟨e, hk, rfl⟩ := hk
    have hplace := place_getElem h.ids_nodup hk
    refine ⟨e, ?_, hkn.trans hplace.symm, hb⟩
    rcases List.mem_append.mp (List.mem_of_getElem? hk) with hnew | htried
    · have hin' : e.2.fInTried = true := hin
      rw [((h.checked.mem_newEntries e).mp hnew).2] at hin'
      cases hin'
    · exact htried
  · intro hn
    obtain ⟨e, he, rfl, hb⟩ := hn
    obtain ⟨k, hk⟩ := List.mem_iff_getElem?.mp (List.mem_append_right am.newEntries he)
    have hin := ((mem_triedEntries am e).mp (h.sub.subset he)).2
    refine ⟨k, saved e.2, place_getElem h.ids_nodup hk, ?_, hin, hb⟩
    rw [List.getElem?_map, hk]
    rfl

theorem indexed (h : Reread Hash am kept am') : Indexed am' := by
  apply h.reading.lined.indexed
  rw [h.nIdCount, List.length_map]

theorem timed (h : Reread Hash am kept am') : Timed am' := by
  intro m info' hm
  obtain ⟨e, he, -, rfl⟩ := h.origin hm
  have hentry := h.checked.entries e.1 e.2 (h.lookup he)
  exact ⟨le_refl 0, hentry.lastSuccess, fun hin => (hentry.tried hin).1⟩

theorem filed (h : Reread Hash am kept am') : Filed Hash am' := by
  constructor
  · intro b m hm
    obtain ⟨e, he, rfl, hb⟩ := (h.mem_vvTried b m).mp hm
    refine ⟨_, h.entry (List.mem_append_right _ he), ?_, ?_⟩
    · exact ((mem_triedEntries am e).mp (h.sub.subset he)).2
    · rw [h.reading.nKey]
      exact hb
  · intro b
    rw [h.reading.lined.tried]
    exact bucketPlaces_nodup _ _ b
  · intro m info' hm hin
    obtain ⟨e, he, rfl, rfl⟩ := h.origin hm
    have htried : e ∈ kept := by
      rcases List.mem_append.mp he with hnew | htried
      · have hin' : e.2.fInTried = true := hin
        rw [((h.checked.mem_newEntries e).mp hnew).2] at hin'
        cases hin'
      · exact htried
    have hentry := h.checked.entries e.1 e.2 (h.lookup he)
    refine ⟨(h.mem_vvTried _ _).mpr ⟨e, htried, rfl, ?_⟩, (hentry.tried hin).2⟩
    rw [h.reading.nKey]
    rfl
  · intro b m hm
    obtain ⟨k, e, hk, rfl, -⟩ := h.checked.bucketNumbers_range ((h.buckets b m).mp hm)
    have he := List.mem_of_getElem? hk
    have hentry := h.entry (List.mem_append_left kept he)
    rw [place_append he kept, place_getElem am.newIds_nodup hk] at hentry
    exact ⟨_, hentry, ((h.checked.mem_newEntries e).mp he).2⟩
  · intro m info' hm hin
    obtain ⟨e, he, rfl, rfl⟩ := h.origin hm
    have hrefs := (h.checked.entries e.1 e.2 (h.lookup he)).refs hin
    exact ⟨(h.holders_card he).symm, hrefs⟩

/-- The tried buckets hold the tried entries that are left. -/
theorem triedIds_perm (h : Reread Hash am kept am') :
    am'.triedIds.Perm (kept.map fun e => place (am.newEntries ++ kept) e.1) := by
  have hnodup : (kept.map fun e => place (am.newEntries ++ kept) e.1).Nodup := by
    have hkept : kept.Nodup := by
      have hall := h.checked.entries_nodup.sublist (h.sub.append_left am.newEntries)
      exact hall.of_append_right
    apply hkept.map_on
    intro e he e' he' heq
    have hid := place_inj (List.mem_append_right _ he) heq
    exact h.checked.entry_unique (h.subset (List.mem_append_right _ he))
      (h.subset (List.mem_append_right _ he')) hid
  rw [List.perm_ext_iff_of_nodup (h.filed.triedIds_perm.symm.nodup (setTried_nodup am')) hnodup]
  intro m
  rw [mem_triedIds, List.mem_map]
  constructor
  · intro hm
    obtain ⟨b, hb⟩ := hm
    obtain ⟨e, he, rfl, -⟩ := (h.mem_vvTried b m).mp hb
    exact ⟨e, he, rfl⟩
  · intro hm
    obtain ⟨e, he, rfl⟩ := hm
    exact ⟨_, (h.mem_vvTried _ _).mpr ⟨e, he, rfl, rfl⟩⟩

theorem counted (h : Reread Hash am kept am') : Counted am' := by
  constructor
  · rw [← triedIds_length, h.triedIds_perm.length_eq, List.length_map, h.nTried]
  · have hlength := h.checked.newEntries_length
    rw [h.reading.lined.random_length, h.nTried, h.reading.nNew, List.length_map,
      List.length_append]
    omega

/-- Check_ finds no error in what was read. -/
theorem restored_checked (h : Reread Hash am kept am') : Checked am' :=
  h.filed.checked h.indexed h.timed h.counted

end Reread

/-- The tried buckets hold entries that belong to them, and are not over-full. -/
structure TriedInPlace (Hash : List Byte → Uint256) (am : CAddrMan) : Prop where
  bucket : ∀ b, ∀ n ∈ am.vvTried b, ∀ info, am.mapInfo[n]? = some info →
    info.getTriedBucket Hash am.nKey = b
  size : ∀ b, (am.vvTried b).length ≤ ADDRMAN_TRIED_BUCKET_SIZE

theorem TriedInPlace.perm (h : TriedInPlace Hash am) (hchecked : Checked am) (b : TriedBucket) :
    (am.vvTried b).Perm ((am.triedEntries.filter
      fun e => e.2.getTriedBucket Hash am.nKey == b).map Prod.fst) := by
  have hperm := hchecked.tried_once
  have hids : am.triedIds.Nodup := hperm.symm.nodup (setTried_nodup am)
  rw [triedIds, List.nodup_flatMap] at hids
  have hnodup : ((am.triedEntries.filter
      fun e => e.2.getTriedBucket Hash am.nKey == b).map Prod.fst).Nodup :=
    am.ids_nodup.sublist ((List.filter_sublist.trans List.filter_sublist).map _)
  rw [List.perm_ext_iff_of_nodup (hids.1 b (List.mem_finRange b)) hnodup]
  intro n
  rw [List.mem_map]
  constructor
  · intro hn
    have htried := hperm.mem_iff.mp ((mem_triedIds am n).mpr ⟨b, hn⟩)
    obtain ⟨info, hinfo, hin⟩ := (mem_setTried am n).mp htried
    refine ⟨(n, info), ?_, rfl⟩
    rw [List.mem_filter, mem_triedEntries, beq_iff_eq]
    exact ⟨⟨hinfo, hin⟩, h.bucket b n hn info hinfo⟩
  · intro hn
    obtain ⟨e, he, rfl⟩ := hn
    rw [List.mem_filter, mem_triedEntries, beq_iff_eq] at he
    obtain ⟨⟨hinfo, hin⟩, hb⟩ := he
    have htried := hperm.mem_iff.mpr ((mem_setTried am e.1).mpr ⟨e.2, hinfo, hin⟩)
    obtain ⟨c, hc⟩ := (mem_triedIds am e.1).mp htried
    rw [← hb, h.bucket c e.1 hc e.2 hinfo]
    exact hc

/-- The manager has the entries of another under new ids. The new entries are all there, in the
new buckets in which they were, and so are the tried entries if their buckets are as they should
be. Nothing else is there. -/
structure Restored (Hash : List Byte → Uint256) (renumber : ℤ → ℤ) (am am' : CAddrMan) :
    Prop where
  nKey : am'.nKey = am.nKey
  indexed : Indexed am'
  distinct : ∀ m n : ℤ, renumber m ∈ am'.mapInfo → renumber m = renumber n → m = n
  origin : ∀ (m : ℤ) info', am'.mapInfo[m]? = some info' →
    ∃ (n : ℤ) (info : CAddrInfo), am.mapInfo[n]? = some info ∧ renumber n = m ∧
      info' = reread m info
  new_entry : ∀ (n : ℤ) info, am.mapInfo[n]? = some info → info.fInTried = false →
    am'.mapInfo[renumber n]? = some (reread (renumber n) info)
  new_bucket : ∀ (n : ℤ) info, am.mapInfo[n]? = some info → info.fInTried = false →
    ∀ b, renumber n ∈ am'.vvNew b ↔ n ∈ am.vvNew b
  tried_entry : TriedInPlace Hash am → ∀ (n : ℤ) info, am.mapInfo[n]? = some info →
    info.fInTried = true → am'.mapInfo[renumber n]? = some (reread (renumber n) info)
  tried_bucket : TriedInPlace Hash am →
    ∀ b, (am'.vvTried b).Perm ((am.vvTried b).map renumber)

theorem Reread.restored {kept : List (ℤ × CAddrInfo)} {am' : CAddrMan}
    (h : Reread Hash am kept am') (hkept : TriedInPlace Hash am → kept = am.triedEntries) :
    Restored Hash (place (am.newEntries ++ kept)) am am' := by
  refine ⟨h.reading.nKey, h.indexed, ?_, ?_, ?_, ?_, ?_, ?_⟩
  · intro m n hm heq
    rw [Std.TreeMap.mem_iff_isSome_getElem?, Option.isSome_iff_exists] at hm
    obtain ⟨info', hinfo'⟩ := hm
    obtain ⟨e, he, hplace, -⟩ := h.origin hinfo'
    rw [← place_inj he hplace, place_inj he (hplace.trans heq)]
  · intro m info' hm
    obtain ⟨e, he, hplace, heq⟩ := h.origin hm
    exact ⟨e.1, e.2, h.lookup he, hplace, heq⟩
  · intro n info hinfo hin
    have he : (n, info) ∈ am.newEntries := (h.checked.mem_newEntries (n, info)).mpr ⟨hinfo, hin⟩
    exact h.entry (List.mem_append_left kept he)
  · intro n info hinfo hin b
    have he : (n, info) ∈ am.newEntries := (h.checked.mem_newEntries (n, info)).mpr ⟨hinfo, hin⟩
    exact h.new_bucket he b
  · intro hplaced n info hinfo hin
    have he : (n, info) ∈ kept := by
      rw [hkept hplaced]
      exact (mem_triedEntries am (n, info)).mpr ⟨hinfo, hin⟩
    exact h.entry (List.mem_append_right am.newEntries he)
  · intro hplaced b
    have hperm := hplaced.perm h.checked b
    have hall := hkept hplaced
    apply List.Perm.trans _ (hperm.symm.map _)
    have hids : ((am.triedEntries.filter
        fun e => e.2.getTriedBucket Hash am.nKey == b).map Prod.fst).Nodup :=
      am.ids_nodup.sublist ((List.filter_sublist.trans List.filter_sublist).map _)
    have hnodup := hids.map_on (f := place (am.newEntries ++ kept)) fun m hm n _ heq => by
      obtain ⟨e, he, rfl⟩ := List.mem_map.mp hm
      have he' : e ∈ kept := hall ▸ List.mem_of_mem_filter he
      exact place_inj (List.mem_append_right _ he') heq
    rw [List.perm_ext_iff_of_nodup (h.filed.tried_nodup b) hnodup]
    intro m
    rw [h.mem_vvTried, List.map_map, List.mem_map]
    constructor
    · intro hm
      obtain ⟨e, he, rfl, hb⟩ := hm
      exact ⟨e, List.mem_filter.mpr ⟨hall ▸ he, beq_iff_eq.mpr hb⟩, rfl⟩
    · intro hm
      obtain ⟨e, he, rfl⟩ := hm
      obtain ⟨he', hb⟩ := List.mem_filter.mp he
      exact ⟨e, hall ▸ he', rfl, beq_iff_eq.mp hb⟩

/-- For every manager that Check_ accepts, what Serialize writes is read back without an error
into a manager that Check_ accepts, with the same key, entries and buckets. -/
theorem serialize_round_trip (Hash : List Byte → Uint256) {am : CAddrMan} (hcheck : am.check_ = 0)
    (hkey : am.nKey.length ≤ MAX_SIZE) (hnew : IsInt am.nNew) (htried : IsInt am.nTried)
    (rest : List Byte) :
    ∃ am' renumber, unserialize Hash (am.serialize ++ rest) = some (am', rest) ∧
      am'.check_ = 0 ∧ Restored Hash renumber am am' := by
  have hchecked := (check_eq_zero_iff am).mp hcheck
  obtain ⟨am', kept, hrun, hsub, hread, hid, hcount, hbuckets, hall⟩ :=
    hchecked.unserialize Hash hkey hnew htried rest
  have hreread : Reread Hash am kept am' := ⟨hchecked, hsub, hread, hid, hcount, hbuckets⟩
  refine ⟨am', _, hrun, (check_eq_zero_iff am').mpr hreread.restored_checked,
    hreread.restored ?_⟩
  intro hplaced
  apply hall
  intro b
  have hlength := (hplaced.perm hchecked b).length_eq
  rw [List.length_map, ← List.countP_eq_length_filter] at hlength
  rw [← hlength]
  exact hplaced.size b

/-- A full tried bucket, and a new entry that was created after the others and comes first in the
file. -/
theorem fullManager_round_trip :
    ∃ am' renumber, unserialize zeroHash (fullManager.serialize ++ [1]) = some (am', [1]) ∧
      am'.check_ = 0 ∧ Restored zeroHash renumber fullManager am' :=
  serialize_round_trip zeroHash fullManager_check (by decide) ⟨by decide, by decide⟩
    ⟨by decide, by decide⟩ [1]

/-- The manager after the calls for one peer, which is tried then. -/
def peerMan : CAddrMan :=
  (peerCalls.foldlM (CAddrMan.perform fun _ => 5) (.init [7])).getD (.init [7])

theorem triedBucketCount_pos : 0 < ADDRMAN_TRIED_BUCKET_COUNT := by decide

/-- The bucket that the entry does not belong to. -/
def wrongBucket : TriedBucket := ⟨0, triedBucketCount_pos⟩

/-- The same manager with the entry in this bucket, which Check_ does not notice. -/
def misfiledMan : CAddrMan :=
  { peerMan with vvTried := fun b => if b = wrongBucket then [0] else [] }

/-- The time of the last try of an entry is lost, and an entry in a wrong tried bucket goes to the
right one. -/
theorem round_trip_changes :
    (∃ am' info, peerMan.check_ = 0 ∧
      unserialize (fun _ => 5) peerMan.serialize = some (am', []) ∧
      peerMan.mapInfo[(0 : ℤ)]? = some info ∧
      ∀ (m : ℤ) info', am'.mapInfo[m]? = some info' → info'.toCAddress ≠ info.toCAddress) ∧
    ∃ am', misfiledMan.check_ = 0 ∧ (∀ b, (misfiledMan.vvTried b).length ≤ 1) ∧
      unserialize (fun _ => 5) misfiledMan.serialize = some (am', []) ∧
      misfiledMan.vvTried wrongBucket = [0] ∧ am'.vvTried wrongBucket = [] := by
  constructor
  · have hread : (unserialize (fun _ => 5) peerMan.serialize).any (fun p =>
        p.2 == [] && p.1.mapInfo.toList.all fun e => e.2.nLastTry == 0) = true := by
      decide +kernel
    have hinfo : (peerMan.mapInfo[(0 : ℤ)]?).any (fun info => info.nLastTry != 0) = true := by
      decide
    obtain ⟨⟨am', rest⟩, hrun, hcond⟩ := (Option.any_eq_true _ _).mp hread
    obtain ⟨info, hinfo, hne⟩ := (Option.any_eq_true _ _).mp hinfo
    rw [Bool.and_eq_true, beq_iff_eq, List.all_eq_true] at hcond
    obtain ⟨hrest, hall⟩ := hcond
    dsimp only at hrest hall
    refine ⟨am', info, by decide +kernel, by rw [hrun, hrest], hinfo, ?_⟩
    intro m info' hm heq
    have hzero := hall _ (Std.TreeMap.mem_toList_iff_getElem?_eq_some.mpr hm)
    rw [beq_iff_eq] at hzero
    rw [bne_iff_ne, ← heq, hzero] at hne
    exact hne rfl
  · have hread : (unserialize (fun _ => 5) misfiledMan.serialize).any (fun p =>
        p.2 == [] && p.1.vvTried wrongBucket == []) = true := by
      decide +kernel
    obtain ⟨⟨am', rest⟩, hrun, hcond⟩ := (Option.any_eq_true _ _).mp hread
    rw [Bool.and_eq_true, beq_iff_eq, beq_iff_eq] at hcond
    obtain ⟨hrest, hempty⟩ := hcond
    dsimp only at hrest hempty
    refine ⟨am', by decide +kernel, ?_, by rw [hrun, hrest], rfl, hempty⟩
    intro b
    simp only [misfiledMan]
    split_ifs <;> simp

end Restored

end CAddrMan

end UmbrellaLtc.AddrMan
