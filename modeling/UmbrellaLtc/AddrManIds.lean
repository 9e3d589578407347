import UmbrellaLtc.AddrManRuns

/-!
Where the ids of the address manager run out. The count of ids is never reset, so that after enough
entries have come and gone it is at the id of an entry that is still there: the new entry takes
the place of that one in mapInfo, and the tried bucket that holds the id holds one that is not tried.
-/

namespace UmbrellaLtc.AddrMan

open Codec Transaction NetAddr Runs

namespace CAddrMan

section Thinned

/-- Entries may have been moved and deleted, but none was put in and the tried buckets are as they
were. -/
structure Thinned (am am' : CAddrMan) : Prop where
  nIdCount : am'.nIdCount = am.nIdCount
  vvTried : am'.vvTried = am.vvTried
  addr : ∀ a, am.mapAddr.lookup a = none → am'.mapAddr.lookup a = none
  entry : ∀ (n : ℤ) info', am'.mapInfo[n]? = some info' →
    ∃ info, am.mapInfo[n]? = some info ∧ info'.fInTried = info.fInTried

theorem Thinned.refl (am : CAddrMan) : Thinned am am :=
  ⟨rfl, rfl, fun _ h => h, fun _ info' h => ⟨info', h, rfl⟩⟩

theorem Thinned.trans {am am' am'' : CAddrMan} (h : Thinned am am') (h' : Thinned am' am'') :
    Thinned am am'' := by
  refine ⟨h'.nIdCount.trans h.nIdCount, h'.vvTried.trans h.vvTried,
    fun a ha => h'.addr a (h.addr a ha), ?_⟩
  intro n info'' hinfo''
  obtain ⟨info', hinfo', heq'⟩ := h'.entry n info'' hinfo''
  obtain ⟨info, hinfo, heq⟩ := h.entry n info' hinfo'
  exact ⟨info, hinfo, heq'.trans heq⟩

theorem thinned_update (am : CAddrMan) (k : ℤ) {f : CAddrInfo → CAddrInfo}
    (hf : ∀ info, (f info).fInTried = info.fInTried) : Thinned am (am.update k f) := by
  refine ⟨rfl, rfl, fun _ h => h, ?_⟩
  intro n info' hinfo'
  rw [update_lookup] at hinfo'
  split_ifs at hinfo' with hk
  · obtain ⟨info, hinfo, rfl⟩ := Option.map_eq_some_iff.mp hinfo'
    exact ⟨info, hinfo, hf info⟩
  · exact ⟨info', hinfo', rfl⟩

theorem thinned_swapRandom {am am' : CAddrMan} {p1 p2 : ℤ}
    (hrun : am.swapRandom p1 p2 = some am') : Thinned am am' := by
  unfold swapRandom at hrun
  split_ifs at hrun with heq hneg
  · obtain rfl := Option.some.inj hrun
    exact Thinned.refl am
  · simp only [Option.bind_eq_bind, Option.bind_eq_some_iff, Option.pure_def,
      Option.some.injEq] at hrun
    obtain ⟨n1, -, n2, -, -, -, -, -, rfl⟩ := hrun
    have hfirst := am.thinned_update n1 (f := fun info => { info with nRandomPos := p2 })
      fun _ => rfl
    have hboth := hfirst.trans (thinned_update (am.update n1 _) n2
      (f := fun info => { info with nRandomPos := p1 }) fun _ => rfl)
    exact ⟨hboth.nIdCount, hboth.vvTried, hboth.addr, hboth.entry⟩

theorem thinned_dropNew {am am' : CAddrMan} {b : NewBucket} {n : ℤ}
    (hrun : am.dropNew b n = some am') : Thinned am am' := by
  unfold dropNew at hrun
  rw [Option.bind_eq_bind, Option.bind_eq_some_iff] at hrun
  obtain ⟨info, -, hrun⟩ := hrun
  have hless := am.thinned_update n (f := fun info => { info with nRefCount := info.nRefCount - 1 })
    fun _ => rfl
  by_cases hlast : info.nRefCount - 1 = 0
  · -- the entry was in this bucket only, and it is deleted
    simp only [if_pos hlast, Option.bind_eq_bind, Option.bind_eq_some_iff, Option.pure_def,
      Option.some.injEq] at hrun
    obtain ⟨am2, hswap, -, rfl, rfl⟩ := hrun
    have hmoved := hless.trans (thinned_swapRandom hswap)
    refine ⟨hmoved.nIdCount, hmoved.vvTried, ?_, ?_⟩
    · intro a ha
      have hnone := hmoved.addr a ha
      by_cases heq : a = info.toCNetAddr
      · subst heq
        exact AList.lookup_erase _ _
      · exact (AList.lookup_erase_ne heq).trans hnone
    · intro m info' hinfo'
      have herase : (am2.mapInfo.erase n)[m]? = some info' := hinfo'
      rw [lookup_erase] at herase
      split_ifs at herase with hm
      exact hmoved.entry m info' herase
  · simp only [if_neg hlast, Option.bind_eq_bind, Option.pure_def, Option.bind_some,
      Option.some.injEq] at hrun
    obtain rfl := hrun
    exact ⟨hless.nIdCount, hless.vvTried, hless.addr, hless.entry⟩

theorem thinned_shrinkNew {am : CAddrMan} {b : NewBucket} {nNow : ℤ} {rnd : ℕ → ℕ}
    {r : CAddrMan × ℕ} (hrun : am.shrinkNew b nNow rnd = some r) : Thinned am r.1 := by
  simp only [shrinkNew, Option.bind_eq_bind, Option.bind_eq_some_iff] at hrun
  obtain ⟨found, -, hrun⟩ := hrun
  cases found with
  | some n =>
    obtain ⟨am', hdrop, hr⟩ := Option.bind_eq_some_iff.mp hrun
    obtain rfl := Option.some.inj hr
    exact thinned_dropNew hdrop
  | none =>
    obtain ⟨n, -, hrun⟩ := Option.bind_eq_some_iff.mp hrun
    obtain ⟨am', hdrop, hr⟩ := Option.bind_eq_some_iff.mp hrun
    obtain rfl := Option.some.inj hr
    exact thinned_dropNew hdrop

variable {Hash : List Byte → Uint256}

theorem thinned_putNew {am am' : CAddrMan} {n : ℤ} {source : CNetAddr} {nNow : ℤ}
    {rnd : ℕ → ℕ} (hrun : am.putNew Hash n source nNow rnd = some am') : Thinned am am' := by
  simp only [putNew, Option.bind_eq_bind, Option.bind_eq_some_iff] at hrun
  obtain ⟨info, -, hrun⟩ := hrun
  split_ifs at hrun with hin hfull
  · obtain rfl := Option.some.inj hrun
    exact Thinned.refl am
  all_goals
    have hmore := am.thinned_update n
      (f := fun info => { info with nRefCount := info.nRefCount + 1 }) fun _ => rfl
    obtain ⟨am1, hput, ham'⟩ := Option.bind_eq_some_iff.mp hrun
    obtain rfl := Option.some.inj ham'
  · obtain ⟨r, hshrink, rfl⟩ := Option.map_eq_some_iff.mp hput
    have hthin := hmore.trans (thinned_shrinkNew hshrink)
    exact ⟨hthin.nIdCount, hthin.vvTried, hthin.addr, hthin.entry⟩
  · obtain rfl := Option.some.inj hput
    exact ⟨hmore.nIdCount, hmore.vvTried, hmore.addr, hmore.entry⟩

/-- What Add_ does with an address that it does not know. -/
structure Added (am am' : CAddrMan) (addr : CNetAddr) : Prop where
  nIdCount : am'.nIdCount = am.nIdCount + 1
  vvTried : am'.vvTried = am.vvTried
  addr : ∀ a, a ≠ addr → am.mapAddr.lookup a = none → am'.mapAddr.lookup a = none
  entry : ∀ info, am'.mapInfo[am.nIdCount.toInt]? = some info → info.fInTried = false

theorem added_of_unknown {am : CAddrMan} {addr : CAddress} (hroutable : addr.isRoutable = true)
    (hfree : am.mapAddr.lookup addr.toCNetAddr = none) {source : CNetAddr}
    {nTimePenalty nNow : ℤ} {rnd : ℕ → ℕ} {r : CAddrMan × Bool}
    (hrun : am.add_ Hash addr source nTimePenalty nNow rnd = some r) :
    Added am r.1 addr.toCNetAddr := by
  have hfind : am.find addr.toCNetAddr = none := by simp [find, hfree]
  simp only [add_, hroutable, hfind, Bool.true_eq_false, if_false, Option.map_eq_some_iff] at hrun
  obtain ⟨am', hput, rfl⟩ := hrun
  have hthin := thinned_putNew hput
  refine ⟨hthin.nIdCount, hthin.vvTried, ?_, ?_⟩
  · intro a hne ha
    exact hthin.addr a ((AList.lookup_insert_ne hne).trans ha)
  · intro info' hinfo'
    obtain ⟨info, hinfo, heq⟩ := hthin.entry _ info' hinfo'
    have hmade : ((am.create addr source).update am.nIdCount.toInt fun info =>
        { info with nTime := BitVec.ofInt 32 (max 0 (info.nTime.toNat - nTimePenalty)) }).mapInfo[
          am.nIdCount.toInt]? = some info := hinfo
    rw [update_lookup, if_pos rfl, create_lookup, if_pos rfl, Option.map_some] at hmade
    rw [heq, ← Option.some.inj hmade]
    rfl

end Thinned

section Repeat

variable {Hash : List Byte → Uint256}

theorem putNew_empty (Hash : List Byte → Uint256) (am : CAddrMan) {n : ℤ} {info : CAddrInfo}
    (source : CNetAddr) (nNow : ℤ) (rnd : ℕ → ℕ) (hinfo : am.mapInfo[n]? = some info)
    (hempty : am.vvNew = fun _ => ∅) :
    ∃ am' info' b, am.putNew Hash n source nNow rnd = some am' ∧ am'.mapAddr = am.mapAddr ∧
      am'.vvTried = am.vvTried ∧ am'.mapInfo[n]? = some info' ∧
      info'.toCService = info.toCService ∧ info'.fInTried = info.fInTried ∧ n ∈ am'.vvNew b := by
  have hroom : (am.vvNew (info.getNewBucket Hash am.nKey source)).size ≠
      ADDRMAN_NEW_BUCKET_SIZE := by
    rw [hempty]
    exact of_decide_eq_true rfl
  have hout : (am.vvNew (info.getNewBucket Hash am.nKey source)).contains n = false := by
    rw [hempty]
    rfl
  refine ⟨{ am.update n fun info => { info with nRefCount := info.nRefCount + 1 } with
    vvNew := Function.update am.vvNew (info.getNewBucket Hash am.nKey source)
      ((am.vvNew (info.getNewBucket Hash am.nKey source)).insert n) },
    { info with nRefCount := info.nRefCount + 1 }, info.getNewBucket Hash am.nKey source, ?_,
    rfl, rfl, ?_, rfl, rfl, ?_⟩
  · simp only [putNew, hinfo, hout, Option.bind_eq_bind, Option.bind_some, Bool.false_eq_true,
      if_false, if_neg hroom]
    rfl
  · have hself := am.update_lookup n n fun info => { info with nRefCount := info.nRefCount + 1 }
    rwa [if_pos rfl, hinfo] at hself
  · simp [Function.update_self]

/-- The first address of an empty manager is put in an empty bucket. -/
theorem init_add (Hash : List Byte → Uint256) (nKey : List Byte) {addr : CAddress}
    (hroutable : addr.isRoutable = true) (source : CNetAddr) (nTimePenalty nNow : ℤ)
    (rnd : ℕ → ℕ) :
    ∃ am info b, (init nKey).add_ Hash addr source nTimePenalty nNow rnd = some (am, true) ∧
      am.find addr.toCNetAddr = some (0, info) ∧ info.toCService = addr.toCService ∧
      info.fInTried = false ∧ 0 ∈ am.vvNew b ∧ am.vvTried = fun _ => [] := by
  have hfind : (init nKey).find addr.toCNetAddr = none := rfl
  have hzero : (init nKey).nIdCount.toInt = 0 := rfl
  simp only [add_, hroutable, hfind, Bool.true_eq_false, if_false, hzero]
  have hmade : ((init nKey).create addr source).mapInfo[(0 : ℤ)]? =
      some { CAddrInfo.make addr source with nRandomPos := 0 } := by
    rw [create_lookup, if_pos hzero]
    rfl
  have hself := ((init nKey).create addr source).update_lookup 0 0 fun info =>
    { info with nTime := BitVec.ofInt 32 (max 0 (info.nTime.toNat - nTimePenalty)) }
  rw [if_pos rfl, hmade] at hself
  obtain ⟨am, info, b, hput, haddr, htried, hinfo, hservice, hin, hb⟩ :=
    putNew_empty Hash
      { (((init nKey).create addr source).update 0 fun info =>
        { info with nTime := BitVec.ofInt 32 (max 0 (info.nTime.toNat - nTimePenalty)) }) with
          nNew := (init nKey).nNew + 1 } source nNow (fun i => rnd (i + 1)) hself rfl
  refine ⟨am, info, b, ?_, ?_, hservice, hin, hb, htried⟩
  · rw [Option.map_eq_some_iff]
    exact ⟨am, hput, rfl⟩
  · have hlookup : ((init nKey).create addr source).mapAddr.lookup addr.toCNetAddr = some 0 :=
      AList.lookup_insert _
    rw [find, haddr]
    simp only [update, hlookup, hinfo, Option.bind_eq_bind, Option.bind_some, Option.pure_def]

/-- The search of Good_ goes through all buckets. -/
theorem findBucket_some (am : CAddrMan) {n : ℤ} {b : NewBucket} (hb : n ∈ am.vvNew b) (r : ℕ) :
    ∃ b', am.findBucket n r = some b' := by
  have hb256 : b.val < 256 := b.isLt
  have hat : (⟨((b.val + 256 - r % 256) % 256 + r) % 256, Nat.mod_lt _ (by decide)⟩ : NewBucket)
      = b := by
    apply Fin.ext
    show ((b.val + 256 - r % 256) % 256 + r) % 256 = b.val
    omega
  rw [← Option.isSome_iff_exists, findBucket, List.find?_isSome]
  have hround : (b.val + 256 - r % 256) % 256 < ADDRMAN_NEW_BUCKET_COUNT :=
    Nat.mod_lt _ (by decide)
  refine ⟨b, List.mem_map.mpr ⟨(b.val + 256 - r % 256) % 256, ?_, hat⟩, by simpa using hb⟩
  simp only [List.bind_eq_flatMap, List.pure_def, List.mem_flatMap, List.mem_singleton]
  exact ⟨⟨_, hround⟩, List.mem_finRange _, rfl⟩

theorem makeTried_empty (am : CAddrMan) {am' : CAddrMan} {n : ℤ} {b : NewBucket} {rnd : ℕ → ℕ}
    (htried : am.vvTried = fun _ => []) (hrun : am.makeTried Hash n b rnd = some am') :
    am'.nIdCount = am.nIdCount ∧ am'.mapAddr = am.mapAddr ∧ ∃ k, n ∈ am'.vvTried k := by
  unfold makeTried at hrun
  split_ifs at hrun with hin
  rw [Option.bind_eq_bind, Option.bind_eq_some_iff] at hrun
  obtain ⟨info, -, hrun⟩ := hrun
  split_ifs at hrun with href
  have hempty : (am.leaveNew n).vvTried = fun _ => [] := htried
  have hroom : ([] : List ℤ).length < ADDRMAN_TRIED_BUCKET_SIZE := by decide
  simp only [hempty, if_pos hroom, Option.pure_def, Option.some.injEq] at hrun
  obtain rfl := hrun
  refine ⟨rfl, rfl, info.getTriedBucket Hash am.nKey, ?_⟩
  show n ∈ Function.update (fun _ => ([] : List ℤ)) (info.getTriedBucket Hash am.nKey) [n] _
  simp

/-- A new entry is moved to a tried bucket that is empty. -/
theorem good_tried {am am' : CAddrMan} {addr : CService} {info : CAddrInfo} {n : ℤ}
    {b : NewBucket} (hfind : am.find addr.toCNetAddr = some (n, info))
    (hservice : info.toCService = addr) (hnew : info.fInTried = false) (hb : n ∈ am.vvNew b)
    (htried : am.vvTried = fun _ => []) {nTime : BitVec 64} {rnd : ℕ → ℕ}
    (hrun : am.good_ Hash addr nTime rnd = some am') :
    am'.nIdCount = am.nIdCount ∧ am'.mapAddr = am.mapAddr ∧ ∃ k, n ∈ am'.vvTried k := by
  simp only [good_, hfind, hservice, ne_eq, not_true, if_false, hnew, Bool.false_eq_true] at hrun
  split at hrun
  · rename_i hnone
    obtain ⟨b', hsome⟩ := findBucket_some (am.update n _) hb
      (getRandInt ADDRMAN_NEW_BUCKET_COUNT (rnd 0))
    rw [hsome] at hnone
    cases hnone
  · exact makeTried_empty (am.update n _) htried hrun

/-- An IPv6 address in 2a00::/32, of which there are more than ids. -/
def farPeer (i : ℕ) : CAddress :=
  { ip := BitVec.ofNat 128 (0x2a + i * 2 ^ 32), port := 9333, nServices := 1, nTime := 1400000000
    nLastTry := 0 }

theorem farPeer_routable (i : ℕ) : (farPeer i).isRoutable = true := by
  have hbytes : ∃ rest, (farPeer i).bytes = 0x2a :: rest := by
    refine ⟨leBytes 15 ((farPeer i).ip.toNat / 256), ?_⟩
    rw [CNetAddr.bytes, leBytes, List.cons.injEq]
    refine ⟨?_, rfl⟩
    apply BitVec.eq_of_toNat_eq
    rw [farPeer, BitVec.toNat_ofNat, BitVec.toNat_ofNat, show (0x2a : Byte).toNat = 42 from rfl]
    omega
  obtain ⟨rest, hbytes⟩ := hbytes
  simp [CNetAddr.isRoutable, CNetAddr.isValid, CNetAddr.startsWith, CNetAddr.isRFC1918,
    CNetAddr.isRFC3927, CNetAddr.isRFC4862, CNetAddr.isRFC4193, CNetAddr.isRFC4843,
    CNetAddr.isLocal, CNetAddr.isIPv4, CNetAddr.isRFC3849, CNetAddr.getByte, CNetAddr.pchIPv4,
    hbytes]

theorem farPeer_ne {i j : ℕ} (hi : i ≤ 2 ^ 32) (hj : j ≤ 2 ^ 32) (hne : i ≠ j) :
    (farPeer i).toCNetAddr ≠ (farPeer j).toCNetAddr := by
  intro heq
  have hip := congrArg (fun a : CNetAddr => a.ip.toNat) heq
  simp only [farPeer, BitVec.toNat_ofNat] at hip
  omega

theorem ofNat_wraps : BitVec.ofNat 32 (2 ^ 32) = 0 := by
  apply BitVec.eq_of_toNat_eq
  rw [BitVec.toNat_ofNat, Nat.mod_self]
  rfl

/-- After so many ids the id 0 is in a tried bucket, and no address from this one on is known. -/
structure Ahead (k : ℕ) (am : CAddrMan) : Prop where
  nIdCount : am.nIdCount = BitVec.ofNat 32 k
  tried : ∃ b, 0 ∈ am.vvTried b
  unknown : ∀ i, k ≤ i → i ≤ 2 ^ 32 → am.mapAddr.lookup (farPeer i).toCNetAddr = none

def farCall (i : ℕ) : Call := .add (farPeer i) (farPeer i).toCNetAddr 0 1400000100 fun _ => 0

/-- Check_ finds no error, and no assertion has failed. -/
def Passes (s : Option CAddrMan) : Prop := ∃ am, s = some am ∧ am.check_ = 0

theorem Ahead.add_ {k : ℕ} {am : CAddrMan} (h : Ahead k am) (hk : k ≤ 2 ^ 32)
    (hrun : Passes (step Hash (some am) (farCall k))) :
    k < 2 ^ 32 ∧ ∃ am', step Hash (some am) (farCall k) = some am' ∧ Ahead (k + 1) am' := by
  obtain ⟨am', hstep, hcheck⟩ := hrun
  have hperform := hstep
  rw [step, Option.bind_some, farCall, perform, Option.map_eq_some_iff] at hperform
  obtain ⟨r, hadd, rfl⟩ := hperform
  have hadded := added_of_unknown (farPeer_routable k) (h.unknown k le_rfl hk) hadd
  obtain ⟨b, hb⟩ := h.tried
  have hb' : 0 ∈ r.1.vvTried b := by rwa [hadded.vvTried]
  constructor
  · -- otherwise the count is back at 0, and the new entry is not marked as tried
    by_contra hlast
    have hwrap : am.nIdCount.toInt = 0 := by
      have hlast' : k = 2 ^ 32 := by omega
      rw [h.nIdCount, hlast', ofNat_wraps]
      rfl
    have hchecked := (check_eq_zero_iff r.1).mp hcheck
    have hmem := hchecked.tried_once.mem_iff.mp ((mem_triedIds r.1 0).mpr ⟨b, hb'⟩)
    obtain ⟨info, hinfo, hin⟩ := (mem_setTried r.1 0).mp hmem
    have hnot := hadded.entry info (by rwa [hwrap])
    rw [hin] at hnot
    cases hnot
  · refine ⟨r.1, hstep, ?_, ⟨b, hb'⟩, ?_⟩
    · rw [hadded.nIdCount, h.nIdCount, BitVec.ofNat_add, BitVec.ofNat_eq_ofNat]
    · intro i hi hi'
      exact hadded.addr _ (farPeer_ne hi' hk (by omega)) (h.unknown i (by omega) hi')

/-- From there on the next addresses are added, until the ids have all been issued. -/
theorem Ahead.not_throughout {m k : ℕ} {am : CAddrMan} (h : Ahead k am) (hk : k ≤ 2 ^ 32)
    (hm : k + m = 2 ^ 32 + 1) :
    ¬ Throughout (step Hash) Passes (some am) ((List.range' k m).map farCall) := by
  induction m generalizing k am with
  | zero => omega
  | succ m ih =>
    intro hrun
    rw [List.range'_succ, List.map_cons] at hrun
    obtain ⟨-, hrest⟩ := hrun
    obtain ⟨hlt, am', hstep, hahead⟩ := h.add_ hk hrest.first
    rw [hstep] at hrest
    exact ih hahead hlt (by omega) hrest

/-- The first address is moved to a tried bucket, and 4294967296 more are heard of. -/
def repeatCalls : List Call :=
  farCall 0 :: .good (farPeer 0).toCService 1400000200 (fun _ => 0) ::
    (List.range' 1 (2 ^ 32)).map farCall

theorem repeatCalls_times : ∀ call ∈ repeatCalls, call.TimesPositive := by
  intro call hcall
  rw [repeatCalls, List.mem_cons, List.mem_cons, List.mem_map] at hcall
  obtain rfl | rfl | ⟨i, -, rfl⟩ := hcall
  · trivial
  · exact (by decide : 0 < (1400000200 : BitVec 64).toInt)
  · trivial

/-- Whatever the hash, those calls do not all leave a table that Check_ accepts. -/
theorem ids_repeat : (∀ call ∈ repeatCalls, call.TimesPositive) ∧
    ¬ ∃ Hash, Throughout (step Hash) Passes (some (.init [7])) repeatCalls := by
  refine ⟨repeatCalls_times, ?_⟩
  rintro ⟨Hash, hrun⟩
  obtain ⟨am, info, b, hadd, hfind, hservice, hnew, hb, htried⟩ :=
    init_add Hash [7] (farPeer_routable 0) (farPeer 0).toCNetAddr 0 1400000100 fun _ => 0
  have hadded := added_of_unknown (farPeer_routable 0) rfl hadd
  have hfirst : step Hash (some (.init [7])) (farCall 0) = some am := by
    rw [step, Option.bind_some, farCall, perform, hadd]
    rfl
  rw [repeatCalls, throughout_cons, throughout_cons, hfirst] at hrun
  obtain ⟨-, -, hrun⟩ := hrun
  obtain ⟨am', hgood, -⟩ := hrun.first
  rw [hgood] at hrun
  rw [step, Option.bind_some, perform] at hgood
  obtain ⟨hcount, haddr, hk⟩ := good_tried hfind hservice hnew hb htried hgood
  have hahead : Ahead 1 am' := by
    refine ⟨by rw [hcount, hadded.nIdCount]; rfl, hk, ?_⟩
    intro i hi hi'
    rw [haddr]
    exact hadded.addr _ (farPeer_ne hi' (by norm_num) (by omega)) rfl
  exact hahead.not_throughout (by norm_num) (by norm_num) hrun

end Repeat

end CAddrMan

end UmbrellaLtc.AddrMan
