import UmbrellaLtc.AddrManSerialize

/-!
The address manager that is read from what was written has the entries of the one before, under
new ids. Until the buckets are read, the id of an entry is its place in the file and in vRandom,
so that one list of entries says what the maps, vRandom and the tried buckets hold.
-/

namespace UmbrellaLtc.AddrMan

open Codec Transaction NetAddr

namespace CAddrMan

section Writing

/-- What is written with the new entries, and with the tried ones. -/
def isNew (e : ℤ × CAddrInfo) : Bool := e.2.nRefCount != 0

def isTried (e : ℤ × CAddrInfo) : Bool := e.2.fInTried

def newEntries (am : CAddrMan) : List (ℤ × CAddrInfo) := am.mapInfo.toList.filter isNew

def triedEntries (am : CAddrMan) : List (ℤ × CAddrInfo) := am.mapInfo.toList.filter isTried

/-- With the right count, all tried entries are written. -/
theorem writeTried_eq (nTried : ℤ) (l : List (ℤ × CAddrInfo)) (nIds : ℤ)
    (hcount : nIds + (l.filter isTried).length = nTried) :
    writeTried nTried l nIds = (l.filter isTried).flatMap fun e => writeInfo e.2 := by
  induction l generalizing nIds with
  | nil => rfl
  | cons e rest ih =>
    obtain ⟨n, info⟩ := e
    by_cases hend : nIds = nTried
    · have hnil : ((n, info) :: rest).filter isTried = [] := by
        apply List.eq_nil_of_length_eq_zero
        omega
      rw [hnil, writeTried, if_pos hend, List.flatMap_nil]
    · rw [writeTried, if_neg hend]
      by_cases hin : isTried (n, info) = true
      · rw [List.filter_cons_of_pos hin] at hcount ⊢
        rw [List.length_cons] at hcount
        have hrest : nIds + 1 + (rest.filter isTried).length = nTried := by omega
        rw [List.flatMap_cons, ← ih (nIds + 1) hrest]
        exact if_pos hin
      · rw [List.filter_cons_of_neg hin] at hcount ⊢
        rw [← ih nIds hcount]
        exact if_neg hin

/-- With the right count, all entries with references are written, and numbered in this order. -/
theorem writeNew_spec (nNew : ℤ) (l : List (ℤ × CAddrInfo)) (nIds : ℤ)
    (mapUnkIds : Std.TreeMap ℤ ℤ) (hkeys : (l.map Prod.fst).Nodup)
    (hcount : nIds + (l.filter isNew).length = nNew) :
    (writeNew nNew l nIds mapUnkIds).2 =
        (l.filter isNew).flatMap (fun e => writeInfo e.2) ∧
      (∀ n ∉ l.map Prod.fst, (writeNew nNew l nIds mapUnkIds).1[n]? = mapUnkIds[n]?) ∧
      ∀ (k : ℕ) e, (l.filter isNew)[k]? = some e →
        (writeNew nNew l nIds mapUnkIds).1[e.1]? = some (nIds + k) := by
  induction l generalizing nIds mapUnkIds with
  | nil => simp [writeNew]
  | cons e rest ih =>
    obtain ⟨n, info⟩ := e
    rw [List.map_cons, List.nodup_cons] at hkeys
    by_cases hend : nIds = nNew
    · have hnil : ((n, info) :: rest).filter isNew = [] := by
        apply List.eq_nil_of_length_eq_zero
        omega
      rw [hnil, writeNew, if_pos hend]
      refine ⟨rfl, fun _ _ => rfl, fun k e he => ?_⟩
      simp at he
    · by_cases href : info.nRefCount ≠ 0
      · have hpos : isNew (n, info) = true := by simpa [isNew] using href
        rw [List.filter_cons_of_pos hpos] at hcount ⊢
        simp only [List.length_cons] at hcount
        obtain ⟨hbytes, hout, hnum⟩ := ih (nIds + 1) (mapUnkIds.insert n nIds) hkeys.2 (by omega)
        simp only [writeNew, if_neg hend, if_pos href]
        refine ⟨?_, ?_, ?_⟩
        · rw [hbytes, List.flatMap_cons]
        · intro m hm
          rw [List.map_cons, List.mem_cons, not_or] at hm
          rw [hout m hm.2, lookup_insert, if_neg (Ne.symm hm.1)]
        · intro k e he
          cases k with
          | zero =>
            simp only [List.getElem?_cons_zero, Option.some.injEq] at he
            rw [← he, hout n hkeys.1, lookup_insert, if_pos rfl]
            simp
          | succ k =>
            rw [hnum k e he]
            congr 1
            omega
      · have hneg : ¬ isNew (n, info) = true := by simpa [isNew] using href
        rw [List.filter_cons_of_neg hneg] at hcount ⊢
        obtain ⟨hbytes, hout, hnum⟩ := ih nIds (mapUnkIds.insert n nIds) hkeys.2 hcount
        simp only [writeNew, if_neg hend, if_neg href]
        refine ⟨hbytes, ?_, hnum⟩
        intro m hm
        rw [List.map_cons, List.mem_cons, not_or] at hm
        rw [hout m hm.2, lookup_insert, if_neg (Ne.symm hm.1)]

end Writing

section Reading

variable {Hash : List Byte → Uint256}

theorem readLoop_write {α β σ : Type} {read : List Byte → Option (α × List Byte)}
    (take : σ → α → σ) {write : β → List Byte} {g : β → α} {l : List β}
    (hread : ∀ b ∈ l, ∀ rest, read (write b ++ rest) = some (g b, rest)) (s : σ)
    (rest : List Byte) :
    readLoop read take l.length s (l.flatMap write ++ rest) =
      some ((l.map g).foldl take s, rest) := by
  induction l generalizing s with
  | nil => rfl
  | cons b l ih =>
    rw [List.length_cons, List.flatMap_cons, List.append_assoc, readLoop,
      hread b (List.mem_cons_self ..), Option.bind_eq_bind, Option.bind_some]
    exact ih (fun c hc => hread c (List.mem_cons_of_mem b hc)) (take s (g b))

/-- The numbers in the buckets are taken in one after another. -/
theorem readBuckets_write (f : NewBucket → List ℤ) (hsize : ∀ c, IsInt (f c).length)
    (hints : ∀ c, ∀ n ∈ f c, IsInt n) (cs : List NewBucket) (b : ℕ)
    (hcs : cs.map Fin.val = List.range' b cs.length) (am : CAddrMan) (rest : List Byte) :
    readBuckets ADDRMAN_NEW_BUCKET_COUNT cs.length b am
        (cs.flatMap (fun c => writeInt (f c).length ++ (f c).flatMap writeInt) ++ rest) =
      some ((cs.flatMap fun c => (f c).map (Prod.mk c)).foldl
        (fun am p => takeIndex ADDRMAN_NEW_BUCKET_COUNT p.1.val am p.2) am, rest) := by
  have hreadInt : ∀ c, ∀ n ∈ f c, ∀ rest, readInt (writeInt n ++ rest) = some (id n, rest) :=
    fun c n hn rest => readInt_writeInt (hints c n hn) rest
  induction cs generalizing b am with
  | nil => rfl
  | cons c cs ih =>
    rw [List.map_cons, List.length_cons, List.range'_succ, List.cons_eq_cons] at hcs
    obtain ⟨rfl, hcs⟩ := hcs
    have hloop := readLoop_write (takeIndex ADDRMAN_NEW_BUCKET_COUNT c.val)
      (hreadInt c) am
      (cs.flatMap (fun c => writeInt (f c).length ++ (f c).flatMap writeInt) ++ rest)
    rw [List.length_cons, List.flatMap_cons, List.append_assoc, List.append_assoc, readBuckets,
      readInt_writeInt (hsize c), Option.bind_eq_bind, Option.bind_some]
    dsimp only
    rw [Int.toNat_natCast, hloop, Option.bind_eq_bind, Option.bind_some]
    dsimp only
    rw [ih _ hcs, List.flatMap_cons, List.foldl_append, List.map_id, List.foldl_map]

end Reading

section Lines

variable (Hash : List Byte → Uint256)

/-- An entry in its place, referred to by the buckets that it is in. -/
def inPlace (am : CAddrMan) (k : ℕ) (info : CAddrInfo) : CAddrInfo :=
  { info with nRandomPos := k, nRefCount := (am.holders k).card }

/-- The places of the tried entries that belong to a bucket. -/
def bucketPlaces (nKey : List Byte) (E : List CAddrInfo) (b : TriedBucket) : List ℤ :=
  (E.zipIdx.filter fun e => e.1.fInTried && e.1.getTriedBucket Hash nKey == b).map
    fun e => (e.2 : ℤ)

/-- The entries of the manager are those of the list, with their places as ids. -/
structure Lined (E : List CAddrInfo) (am : CAddrMan) : Prop where
  random : am.vRandom = (List.range E.length).map fun k : ℕ => (k : ℤ)
  entry : ∀ k : ℕ, am.mapInfo[(k : ℤ)]? = E[k]?.map (am.inPlace k)
  natural : ∀ (n : ℤ) info, am.mapInfo[n]? = some info → 0 ≤ n
  addr : ∀ a n, am.mapAddr.lookup a = some n ↔
    ∃ (k : ℕ) (info : CAddrInfo), (k : ℤ) = n ∧ E[k]? = some info ∧ info.toCNetAddr = a
  tried : ∀ b, am.vvTried b = bucketPlaces Hash am.nKey E b

variable {Hash}

theorem Lined.lookup {E : List CAddrInfo} {am : CAddrMan} (h : Lined Hash E am) {n : ℤ}
    {info : CAddrInfo} (hinfo : am.mapInfo[n]? = some info) :
    ∃ (k : ℕ) (e : CAddrInfo), n = k ∧ E[k]? = some e ∧ info = am.inPlace k e := by
  obtain ⟨k, rfl⟩ := Int.eq_ofNat_of_zero_le (h.natural n info hinfo)
  have hentry := h.entry k
  rw [hinfo, eq_comm, Option.map_eq_some_iff] at hentry
  obtain ⟨e, he, heq⟩ := hentry
  exact ⟨k, e, rfl, he, heq.symm⟩

theorem Lined.random_length {E : List CAddrInfo} {am : CAddrMan} (h : Lined Hash E am) :
    am.vRandom.length = E.length := by
  rw [h.random, List.length_map, List.length_range]

theorem mem_bucketPlaces (nKey : List Byte) (E : List CAddrInfo) (b : TriedBucket) (n : ℤ) :
    n ∈ bucketPlaces Hash nKey E b ↔ ∃ (k : ℕ) (e : CAddrInfo), n = k ∧ E[k]? = some e ∧
      e.fInTried = true ∧ e.getTriedBucket Hash nKey = b := by
  simp only [bucketPlaces, List.mem_map, List.mem_filter, Bool.and_eq_true, beq_iff_eq]
  constructor
  · intro h
    obtain ⟨⟨e, k⟩, ⟨hmem, hin, hb⟩, hn⟩ := h
    exact ⟨k, e, hn.symm, List.mem_zipIdx_iff_getElem?.mp hmem, hin, hb⟩
  · intro h
    obtain ⟨k, e, hn, hk, hin, hb⟩ := h
    exact ⟨(e, k), ⟨List.mem_zipIdx_iff_getElem?.mpr hk, hin, hb⟩, hn.symm⟩

theorem bucketPlaces_nodup (nKey : List Byte) (E : List CAddrInfo) (b : TriedBucket) :
    (bucketPlaces Hash nKey E b).Nodup := by
  have hall : (E.zipIdx.map fun e => (e.2 : ℤ)).Nodup := by
    have hsnd : E.zipIdx.map (fun e => (e.2 : ℤ)) =
        (E.zipIdx.map Prod.snd).map fun k : ℕ => (k : ℤ) := by
      rw [List.map_map]
      rfl
    rw [hsnd, List.zipIdx_map_snd]
    exact List.Nodup.map Nat.cast_injective (List.nodup_range' 1)
  exact hall.sublist (List.filter_sublist.map _)

theorem bucketPlaces_append (nKey : List Byte) (E : List CAddrInfo) (info : CAddrInfo)
    (b : TriedBucket) :
    bucketPlaces Hash nKey (E ++ [info]) b = bucketPlaces Hash nKey E b ++
      if info.fInTried && info.getTriedBucket Hash nKey == b then [(E.length : ℤ)] else [] := by
  unfold bucketPlaces
  rw [List.zipIdx_append, List.filter_append, List.map_append, List.zipIdx_singleton]
  congr 1
  rw [List.filter_singleton]
  cases info.fInTried && info.getTriedBucket Hash nKey == b with
  | true => simp
  | false => simp

/-- One more entry comes to the end. -/
theorem Lined.append {E : List CAddrInfo} {am am' : CAddrMan} (h : Lined Hash E am)
    (info : CAddrInfo) (hother : ∀ e ∈ E, e.toCNetAddr ≠ info.toCNetAddr)
    (hunused : ∀ b, (E.length : ℤ) ∉ am.vvNew b) (href : info.nRefCount = 0)
    (hkey : am'.nKey = am.nKey) (hnew : am'.vvNew = am.vvNew)
    (hrandom : am'.vRandom = am.vRandom ++ [(E.length : ℤ)])
    (hinfo : am'.mapInfo =
      am.mapInfo.insert (E.length : ℤ) { info with nRandomPos := am.vRandom.length })
    (haddr : am'.mapAddr = am.mapAddr.insert info.toCNetAddr (E.length : ℤ))
    (htried : ∀ b, am'.vvTried b = am.vvTried b ++
      if info.fInTried && info.getTriedBucket Hash am.nKey == b then [(E.length : ℤ)] else []) :
    Lined Hash (E ++ [info]) am' := by
  have hholders : ∀ n, am'.holders n = am.holders n := by
    intro n
    rw [holders, holders, hnew]
  have hnone : am.holders E.length = ∅ := by
    ext b
    rw [mem_holders]
    simp [hunused b]
  have hplace : ∀ k, am'.inPlace k = am.inPlace k := by
    intro k
    funext e
    rw [inPlace, inPlace, hholders]
  constructor
  · rw [hrandom, h.random, List.length_append, List.length_singleton, List.range_succ,
      List.map_append]
    rfl
  · intro k
    rw [hinfo, lookup_insert, hplace]
    by_cases hk : E.length = k
    · subst hk
      rw [if_pos rfl, List.getElem?_append_right (le_refl _), Nat.sub_self,
        List.getElem?_cons_zero, Option.map_some, inPlace, hnone, h.random_length,
        Finset.card_empty, Nat.cast_zero, ← href]
    · have hcast : (E.length : ℤ) ≠ k := by omega
      rw [if_neg hcast, h.entry k]
      by_cases hlt : k < E.length
      · rw [List.getElem?_append_left hlt]
      · rw [List.getElem?_eq_none (by omega), List.getElem?_eq_none]
        rw [List.length_append, List.length_singleton]
        omega
  · intro n info' hn
    rw [hinfo, lookup_insert] at hn
    split_ifs at hn with heq
    · omega
    · exact h.natural n info' hn
  · intro a n
    rw [haddr]
    by_cases ha : a = info.toCNetAddr
    · subst ha
      rw [AList.lookup_insert]
      constructor
      · intro hn
        refine ⟨E.length, info, by simpa using hn, ?_, rfl⟩
        rw [List.getElem?_append_right (le_refl _), Nat.sub_self, List.getElem?_cons_zero]
      · intro hn
        obtain ⟨k, e, hkn, hk, he⟩ := hn
        by_cases hlt : k < E.length
        · rw [List.getElem?_append_left hlt] at hk
          exact absurd he (hother e (List.mem_of_getElem? hk))
        · obtain ⟨hlen, -⟩ := List.getElem?_eq_some_iff.mp hk
          rw [List.length_append, List.length_singleton] at hlen
          have hlast : k = E.length := by omega
          rw [← hkn, hlast]
    · rw [AList.lookup_insert_ne ha, h.addr a n]
      constructor
      · intro hn
        obtain ⟨k, e, hkn, hk, he⟩ := hn
        obtain ⟨hlt, -⟩ := List.getElem?_eq_some_iff.mp hk
        exact ⟨k, e, hkn, by rw [List.getElem?_append_left hlt, hk], he⟩
      · intro hn
        obtain ⟨k, e, hkn, hk, he⟩ := hn
        by_cases hlt : k < E.length
        · rw [List.getElem?_append_left hlt] at hk
          exact ⟨k, e, hkn, hk, he⟩
        · rw [List.getElem?_append_right (by omega), List.getElem?_singleton] at hk
          split_ifs at hk with hzero
          simp only [Option.some.injEq] at hk
          exact absurd (hk ▸ he.symm) ha
  · intro b
    rw [htried, h.tried, hkey, bucketPlaces_append]

end Lines

section Rounds

variable {Hash : List Byte → Uint256}

/-- The fields that were read before the loops. -/
structure SameHeader (am am' : CAddrMan) : Prop where
  nKey : am'.nKey = am.nKey
  nNew : am'.nNew = am.nNew
  nTried : am'.nTried = am.nTried

theorem SameHeader.trans {am am' am'' : CAddrMan} (h : SameHeader am am')
    (h' : SameHeader am' am'') : SameHeader am am'' :=
  ⟨h'.nKey.trans h.nKey, h'.nNew.trans h.nNew, h'.nTried.trans h.nTried⟩

/-- The new entries are numbered in the order in which they are read. -/
theorem Lined.takeNew {E : List CAddrInfo} {am : CAddrMan} (h : Lined Hash E am)
    (hempty : ∀ b, ∀ n, n ∉ am.vvNew b) (l : List CAddrInfo)
    (hl : ∀ info ∈ l, info.nRefCount = 0 ∧ info.fInTried = false)
    (haddrs : ((E ++ l).map (·.toCNetAddr)).Nodup) :
    ∃ am', l.foldl (CAddrMan.takeNew Hash ADDRMAN_NEW_BUCKET_COUNT) (am, (E.length : ℤ)) =
        (am', ((E ++ l).length : ℤ)) ∧ Lined Hash (E ++ l) am' ∧ SameHeader am am' ∧
      am'.vvNew = am.vvNew := by
  induction l generalizing E am with
  | nil => exact ⟨am, by simp, by simpa using h, ⟨rfl, rfl, rfl⟩, rfl⟩
  | cons info l ih =>
    obtain ⟨href, hin⟩ := hl info (List.mem_cons_self ..)
    have hassoc : E ++ info :: l = (E ++ [info]) ++ l := by simp
    rw [hassoc] at haddrs ⊢
    have hother : ∀ e ∈ E, e.toCNetAddr ≠ info.toCNetAddr := by
      intro e he
      rw [List.map_append, List.map_append, List.nodup_append, List.nodup_append] at haddrs
      exact haddrs.1.2.2 _ (List.mem_map_of_mem he) _ (by simp)
    let am2 := { am with
      mapInfo := am.mapInfo.insert (E.length : ℤ) { info with nRandomPos := am.vRandom.length }
      mapAddr := am.mapAddr.insert info.toCNetAddr (E.length : ℤ)
      vRandom := am.vRandom ++ [(E.length : ℤ)] }
    have hstep : CAddrMan.takeNew Hash ADDRMAN_NEW_BUCKET_COUNT (am, (E.length : ℤ)) info =
        (am2, ((E ++ [info]).length : ℤ)) := by
      simp [CAddrMan.takeNew, am2]
    have hlined : Lined Hash (E ++ [info]) am2 := by
      refine h.append info hother (fun b => hempty b _) href ?_ ?_ ?_ ?_ ?_ ?_
      · rfl
      · rfl
      · rfl
      · rfl
      · rfl
      · intro b
        simp [am2, hin]
    have hheader : SameHeader am am2 := ⟨rfl, rfl, rfl⟩
    obtain ⟨am', hrun, hlined', hheader', hnew⟩ := ih hlined hempty
      (fun e he => hl e (List.mem_cons_of_mem info he)) haddrs
    refine ⟨am', ?_, hlined', hheader.trans hheader', hnew⟩
    rw [List.foldl_cons, hstep, hrun]

/-- An entry of the file with the mark of the tried ones. -/
def asTried (info : CAddrInfo) : CAddrInfo := { info with fInTried := true }

/-- A tried entry whose bucket has room gets the next id. -/
theorem Lined.takeTried_room {E : List CAddrInfo} {am : CAddrMan} (h : Lined Hash E am)
    (hid : am.nIdCount.toInt = E.length) (hempty : ∀ b, ∀ n, n ∉ am.vvNew b) {info : CAddrInfo}
    (hmany : E.length + 1 < 2 ^ 31) (href : info.nRefCount = 0)
    (hother : ∀ e ∈ E, e.toCNetAddr ≠ info.toCNetAddr)
    (hroom : (am.vvTried (info.getTriedBucket Hash am.nKey)).length < ADDRMAN_TRIED_BUCKET_SIZE)
    (nLost : ℤ) :
    ∃ am', CAddrMan.takeTried Hash (am, nLost) info = (am', nLost) ∧
      Lined Hash (E ++ [asTried info]) am' ∧
      am'.nIdCount.toInt = (E ++ [asTried info]).length ∧ SameHeader am am' ∧
      am'.vvNew = am.vvNew ∧
      ∀ b, (am'.vvTried b).length =
        (am.vvTried b).length + if info.getTriedBucket Hash am.nKey = b then 1 else 0 := by
  generalize hk : info.getTriedBucket Hash am.nKey = k at hroom ⊢
  let am2 := { am with
    vRandom := am.vRandom ++ [am.nIdCount.toInt]
    mapInfo := am.mapInfo.insert am.nIdCount.toInt
      { info with nRandomPos := am.vRandom.length, fInTried := true }
    mapAddr := am.mapAddr.insert info.toCNetAddr am.nIdCount.toInt
    vvTried := Function.update am.vvTried k (am.vvTried k ++ [am.nIdCount.toInt])
    nIdCount := am.nIdCount + 1 }
  have hstep : CAddrMan.takeTried Hash (am, nLost) info = (am2, nLost) := by
    subst hk
    exact if_pos hroom
  have hvv : ∀ b, am2.vvTried b = am.vvTried b ++ if k = b then [(E.length : ℤ)] else [] := by
    intro b
    show Function.update am.vvTried k (am.vvTried k ++ [am.nIdCount.toInt]) b = _
    rw [Function.update_apply, hid]
    by_cases hb : k = b
    · subst hb
      rw [if_pos rfl, if_pos rfl]
    · rw [if_neg (Ne.symm hb), if_neg hb, List.append_nil]
  refine ⟨am2, hstep, ?_, ?_, ⟨rfl, rfl, rfl⟩, rfl, fun b => ?_⟩
  · refine h.append (asTried info) hother (fun b => hempty b _) href rfl rfl ?_ ?_ ?_ ?_
    · simp [am2, hid]
    · simp [am2, hid, asTried]
    · simp [am2, hid, asTried]
    · intro b
      have hbucket : (asTried info).getTriedBucket Hash am.nKey = k := hk
      rw [hvv, hbucket]
      show _ = am.vvTried b ++ if true && k == b then [(E.length : ℤ)] else []
      simp
  · rw [List.length_append, List.length_singleton, Nat.cast_succ, ← hid]
    exact toInt_count_add_one (by omega)
  · rw [hvv, List.length_append]
    split_ifs
    · rfl
    · rfl

/-- Of the tried entries some are kept, and all where the buckets are large enough. -/
theorem Lined.takeTried {E : List CAddrInfo} {am : CAddrMan} (h : Lined Hash E am)
    (hid : am.nIdCount.toInt = E.length) (hempty : ∀ b, ∀ n, n ∉ am.vvNew b) (l : List CAddrInfo)
    (nLost : ℤ) (hmany : E.length + l.length < 2 ^ 31) (hl : ∀ info ∈ l, info.nRefCount = 0)
    (haddrs : ((E ++ l).map (·.toCNetAddr)).Nodup) :
    ∃ am' kept, l.foldl (CAddrMan.takeTried Hash) (am, nLost) =
        (am', nLost + (l.length - kept.length : ℤ)) ∧ kept.Sublist l ∧
      Lined Hash (E ++ kept.map asTried) am' ∧ am'.nIdCount.toInt = E.length + kept.length ∧
      SameHeader am am' ∧ am'.vvNew = am.vvNew ∧
      ((∀ b, (am.vvTried b).length + l.countP (fun info => info.getTriedBucket Hash am.nKey == b) ≤
        ADDRMAN_TRIED_BUCKET_SIZE) → kept = l) := by
  induction l generalizing E am nLost with
  | nil => exact ⟨am, [], by simp, List.Sublist.refl _, by simpa using h, by simpa using hid,
      ⟨rfl, rfl, rfl⟩, rfl, fun _ => rfl⟩
  | cons info l ih =>
    have href := hl info (List.mem_cons_self ..)
    have hrest : ∀ e ∈ l, e.nRefCount = 0 := fun e he => hl e (List.mem_cons_of_mem info he)
    rw [List.length_cons] at hmany
    by_cases hroom : (am.vvTried (info.getTriedBucket Hash am.nKey)).length <
        ADDRMAN_TRIED_BUCKET_SIZE
    · have hassoc : E ++ info :: l = (E ++ [info]) ++ l := by simp
      rw [hassoc] at haddrs
      have hother : ∀ e ∈ E, e.toCNetAddr ≠ info.toCNetAddr := by
        intro e he
        rw [List.map_append, List.map_append, List.nodup_append, List.nodup_append] at haddrs
        exact haddrs.1.2.2 _ (List.mem_map_of_mem he) _ (by simp)
      obtain ⟨am2, hstep, hlined, hid2, hheader, hvvNew, hvvTried⟩ :=
        h.takeTried_room hid hempty (by omega) href hother hroom nLost
      have haddrs2 : ((E ++ [asTried info] ++ l).map (·.toCNetAddr)).Nodup := by
        simpa [asTried] using haddrs
      have hempty2 : ∀ b, ∀ n, n ∉ am2.vvNew b := by
        rw [hvvNew]
        exact hempty
      obtain ⟨am', kept, hrun, hsub, hlined', hid', hheader', hnew, hall⟩ :=
        ih hlined hid2 hempty2 nLost (by rw [List.length_append, List.length_singleton]; omega)
          hrest haddrs2
      refine ⟨am', info :: kept, ?_, hsub.cons_cons info, ?_, ?_, hheader.trans hheader',
        hnew.trans hvvNew, ?_⟩
      · rw [List.foldl_cons, hstep, hrun, List.length_cons, List.length_cons]
        congr 1
        push_cast
        omega
      · simpa using hlined'
      · rw [hid', List.length_append, List.length_singleton, List.length_cons]
        push_cast
        omega
      · intro hfits
        rw [hall]
        intro b
        have hfit := hfits b
        rw [List.countP_cons] at hfit
        simp only [beq_iff_eq] at hfit
        rw [hvvTried, hheader.nKey]
        omega
    · have hstep : CAddrMan.takeTried Hash (am, nLost) info = (am, nLost + 1) := if_neg hroom
      have haddrs2 : ((E ++ l).map (·.toCNetAddr)).Nodup :=
        haddrs.sublist (((List.sublist_cons_self info l).append_left E).map _)
      obtain ⟨am', kept, hrun, hsub, hlined', hid', hheader, hnew, hall⟩ :=
        ih h hid hempty (nLost + 1) (by omega) hrest haddrs2
      refine ⟨am', kept, ?_, hsub.cons info, hlined', hid', hheader, hnew, ?_⟩
      · rw [List.foldl_cons, hstep, hrun, List.length_cons]
        congr 1
        push_cast
        omega
      · intro hfits
        have hfit := hfits (info.getTriedBucket Hash am.nKey)
        rw [List.countP_cons_of_pos (by simp)] at hfit
        omega

theorem takeIndex_lookup {am : CAddrMan} {m : ℤ} {info : CAddrInfo} {b : NewBucket}
    (hinfo : am.mapInfo[m]? = some info)
    (hroom : info.nRefCount < ADDRMAN_NEW_BUCKETS_PER_ADDRESS) (n : ℤ) :
    (takeIndex ADDRMAN_NEW_BUCKET_COUNT b.val am m).mapInfo[n]? =
      if m = n then some { info with nRefCount := info.nRefCount + 1 } else am.mapInfo[n]? := by
  have hthere : m ∈ am.mapInfo := by
    rw [Std.TreeMap.mem_iff_isSome_getElem?, hinfo]
    rfl
  have hsame : ∀ n : ℤ, (am.mapInfo.insertIfNew m CAddrInfo.empty)[n]? = am.mapInfo[n]? := by
    intro n
    rw [Std.TreeMap.getElem?_insertIfNew, if_neg]
    simp [hthere]
  unfold takeIndex
  rw [hinfo, Option.getD_some]
  dsimp only
  rw [if_pos ⟨rfl, hroom⟩]
  dsimp only
  rw [update_lookup]
  dsimp only
  rw [hsame]
  by_cases hn : m = n
  · subst hn
    rw [if_pos rfl, if_pos rfl, hinfo]
    rfl
  · rw [if_neg hn, if_neg hn]

theorem takeIndex_mem {am : CAddrMan} {m : ℤ} {info : CAddrInfo} {b : NewBucket}
    (hinfo : am.mapInfo[m]? = some info)
    (hroom : info.nRefCount < ADDRMAN_NEW_BUCKETS_PER_ADDRESS) (c : NewBucket) (n : ℤ) :
    n ∈ (takeIndex ADDRMAN_NEW_BUCKET_COUNT b.val am m).vvNew c ↔
      (c, n) = (b, m) ∨ n ∈ am.vvNew c := by
  unfold takeIndex
  rw [hinfo, Option.getD_some]
  dsimp only
  rw [if_pos ⟨rfl, hroom⟩]
  dsimp only [update]
  by_cases hc : c = b
  · subst hc
    rw [if_pos rfl, mem_set_insert, Prod.mk.injEq, eq_comm]
    simp
  · have hval : ¬ c.val = b.val := fun h => hc (Fin.ext h)
    rw [if_neg hval, Prod.mk.injEq]
    simp [hc]

theorem takeIndex_frame (nUBuckets : ℤ) (b : ℕ) (am : CAddrMan) (n : ℤ) :
    takeIndex nUBuckets b am n = { am with
      mapInfo := (takeIndex nUBuckets b am n).mapInfo
      vvNew := (takeIndex nUBuckets b am n).vvNew } := by
  unfold takeIndex
  dsimp only
  split_ifs
  · rfl
  · rfl

/-- An entry that is in less than four buckets is put into one more. -/
theorem Lined.takeIndex {E : List CAddrInfo} {am : CAddrMan} (h : Lined Hash E am)
    {b : NewBucket} {k : ℕ} (hk : k < E.length) (hb : (k : ℤ) ∉ am.vvNew b)
    (hroom : ((am.holders k).card : ℤ) < ADDRMAN_NEW_BUCKETS_PER_ADDRESS) :
    Lined Hash E (CAddrMan.takeIndex ADDRMAN_NEW_BUCKET_COUNT b.val am k) ∧
      ∀ c n, n ∈ (CAddrMan.takeIndex ADDRMAN_NEW_BUCKET_COUNT b.val am k).vvNew c ↔
        (c, n) = (b, (k : ℤ)) ∨ n ∈ am.vvNew c := by
  have hinfo := h.entry k
  rw [List.getElem?_eq_getElem hk, Option.map_some] at hinfo
  have hlookup := takeIndex_lookup (b := b) hinfo hroom
  have hmem := takeIndex_mem (b := b) hinfo hroom
  have hframe := takeIndex_frame ADDRMAN_NEW_BUCKET_COUNT b.val am k
  generalize CAddrMan.takeIndex ADDRMAN_NEW_BUCKET_COUNT b.val am k = am' at hlookup hmem hframe ⊢
  have hothers : ∀ j : ℕ, j ≠ k → am'.holders j = am.holders j := by
    intro j hj
    ext c
    rw [mem_holders, mem_holders, hmem]
    simp [hj]
  have hcard : (am'.holders k).card = (am.holders k).card + 1 := by
    have hinsert : am'.holders k = insert b (am.holders k) := by
      ext c
      rw [mem_holders, Finset.mem_insert, mem_holders, hmem]
      simp
    rw [hinsert, Finset.card_insert_of_notMem]
    rwa [mem_holders]
  refine ⟨⟨?_, ?_, ?_, ?_, ?_⟩, hmem⟩
  · rw [hframe]
    exact h.random
  · intro j
    rw [hlookup]
    by_cases hj : j = k
    · subst hj
      rw [if_pos rfl, List.getElem?_eq_getElem hk, Option.map_some]
      simp [inPlace, hcard]
    · have hne : (k : ℤ) ≠ j := by omega
      rw [if_neg hne, h.entry j]
      have hplace : am'.inPlace j = am.inPlace j := by
        funext e
        rw [inPlace, inPlace, hothers j hj]
      rw [hplace]
  · intro n info hn
    rw [hlookup] at hn
    split_ifs at hn with heq
    · omega
    · exact h.natural n info hn
  · rw [hframe]
    exact h.addr
  · rw [hframe]
    exact h.tried

/-- After all numbers are taken in, the buckets hold them, and the references are counted. No
number is left out, since no entry was in more than four buckets before. -/
theorem Lined.takeIndices {E : List CAddrInfo} {am : CAddrMan} (h : Lined Hash E am)
    (pairs done : List (NewBucket × ℤ)) (hdone : ∀ c n, n ∈ am.vvNew c ↔ (c, n) ∈ done)
    (hnodup : (done ++ pairs).Nodup) (hrange : ∀ p ∈ pairs, ∃ k < E.length, p.2 = (k : ℤ))
    (hrefs : ∀ n : ℤ, ({c : NewBucket | (c, n) ∈ done ++ pairs} : Finset NewBucket).card ≤
      ADDRMAN_NEW_BUCKETS_PER_ADDRESS) :
    ∃ am', pairs.foldl (fun am p => CAddrMan.takeIndex ADDRMAN_NEW_BUCKET_COUNT p.1.val am p.2) am =
        am' ∧ Lined Hash E am' ∧ (∀ c n, n ∈ am'.vvNew c ↔ (c, n) ∈ done ++ pairs) ∧
      SameHeader am am' ∧ am'.nIdCount = am.nIdCount := by
  induction pairs generalizing am done with
  | nil => exact ⟨am, rfl, h, by simpa using hdone, ⟨rfl, rfl, rfl⟩, rfl⟩
  | cons p pairs ih =>
    obtain ⟨b, n⟩ := p
    obtain ⟨k, hk, hn⟩ := hrange (b, n) (List.mem_cons_self ..)
    dsimp only at hn
    subst hn
    have hassoc : done ++ (b, (k : ℤ)) :: pairs = (done ++ [(b, (k : ℤ))]) ++ pairs := by simp
    have hfresh : (b, (k : ℤ)) ∉ done := by
      intro hmem
      rw [List.nodup_append] at hnodup
      exact hnodup.2.2 _ hmem _ (List.mem_cons_self ..) rfl
    have hroom : ((am.holders k).card : ℤ) < ADDRMAN_NEW_BUCKETS_PER_ADDRESS := by
      have hlt : (am.holders k).card <
          ({c : NewBucket | (c, (k : ℤ)) ∈ done ++ (b, (k : ℤ)) :: pairs} :
            Finset NewBucket).card := by
        apply Finset.card_lt_card
        rw [Finset.ssubset_iff_of_subset]
        · refine ⟨b, by simp, ?_⟩
          rwa [mem_holders, hdone]
        · intro c hc
          rw [mem_holders, hdone] at hc
          simp [hc]
      have hle := hrefs k
      omega
    obtain ⟨hlined, hmem⟩ := h.takeIndex (b := b) hk (fun hb => hfresh ((hdone b k).mp hb)) hroom
    rw [hassoc] at hnodup hrefs ⊢
    obtain ⟨am', hrun, hlined', hmem', hheader', hid⟩ := ih hlined (done ++ [(b, (k : ℤ))])
      (fun c n => by rw [hmem, hdone, List.mem_append, List.mem_singleton, or_comm]) hnodup
      (fun p hp => hrange p (List.mem_cons_of_mem _ hp)) hrefs
    have hframe := takeIndex_frame ADDRMAN_NEW_BUCKET_COUNT b.val am k
    have hheader : SameHeader am (CAddrMan.takeIndex ADDRMAN_NEW_BUCKET_COUNT b.val am k) := by
      rw [hframe]
      exact ⟨rfl, rfl, rfl⟩
    refine ⟨am', hrun, hlined', hmem', hheader.trans hheader', hid.trans ?_⟩
    rw [hframe]

end Rounds

end CAddrMan

end UmbrellaLtc.AddrMan
