import UmbrellaLtc.AddrManCheck
import UmbrellaLtc.Runs
import Mathlib.Algebra.BigOperators.Fin

/-!
The address manager stays consistent. The invariant has three parts: that mapInfo, mapAddr and
vRandom index each other, that the entries are in the buckets where they should be, and that
the counters count them. In the middle of an operation one entry may be out of its place.
-/

namespace UmbrellaLtc.AddrMan

open Codec Transaction NetAddr Runs

namespace CAddrMan

section Index

/-- mapInfo, mapAddr and vRandom are inverse to each other, and the ids are counted up from
zero. -/
structure Indexed (am : CAddrMan) : Prop where
  count : 0 ≤ am.nIdCount.toInt
  fresh : ∀ (n : ℤ) info, am.mapInfo[n]? = some info → 0 ≤ n ∧ n < am.nIdCount.toInt
  pos : ∀ (n : ℤ) info, am.mapInfo[n]? = some info →
    0 ≤ info.nRandomPos ∧ am.vRandom[info.nRandomPos.toNat]? = some n
  rnd : ∀ (k : ℕ) (n : ℤ), am.vRandom[k]? = some n →
    ∃ info, am.mapInfo[n]? = some info ∧ info.nRandomPos = (k : ℤ)
  addr : ∀ (n : ℤ) info, am.mapInfo[n]? = some info →
    am.mapAddr.lookup info.toCNetAddr = some n
  back : ∀ a n, am.mapAddr.lookup a = some n →
    ∃ info, am.mapInfo[n]? = some info ∧ info.toCNetAddr = a

/-- The entries of two managers agree in a view of them. -/
def Agree {α : Type} (view : CAddrInfo → α) (am am' : CAddrMan) : Prop :=
  ∀ n : ℤ, am'.mapInfo[n]?.map view = am.mapInfo[n]?.map view

theorem Agree.back {α : Type} {view : CAddrInfo → α} {am am' : CAddrMan}
    (h : Agree view am am') {n : ℤ} {info' : CAddrInfo} (hn : am'.mapInfo[n]? = some info') :
    ∃ info, am.mapInfo[n]? = some info ∧ view info = view info' := by
  have hview := h n
  rw [hn, Option.map_some, eq_comm, Option.map_eq_some_iff] at hview
  exact hview

theorem Agree.symm {α : Type} {view : CAddrInfo → α} {am am' : CAddrMan}
    (h : Agree view am am') : Agree view am' am := fun n => (h n).symm

theorem Agree.trans {α : Type} {view : CAddrInfo → α} {am am' am'' : CAddrMan}
    (h : Agree view am am') (h' : Agree view am' am'') : Agree view am am'' :=
  fun n => (h' n).trans (h n)

theorem Agree.mono {α β : Type} {view : CAddrInfo → α} {view' : CAddrInfo → β}
    {am am' : CAddrMan} (h : Agree view am am')
    (hview : ∀ info info', view info = view info' → view' info = view' info') :
    Agree view' am am' := by
  intro n
  cases hn : am'.mapInfo[n]? with
  | none =>
    have hnone := h n
    rw [hn, Option.map_none, eq_comm, Option.map_eq_none_iff] at hnone
    rw [hnone]
  | some info' =>
    obtain ⟨info, hinfo, heq⟩ := h.back hn
    rw [hinfo, Option.map_some, Option.map_some, hview info info' heq]

/-- The entries but for one agree in a view. -/
def AgreeOff {α : Type} (view : CAddrInfo → α) (k : ℤ) (am am' : CAddrMan) : Prop :=
  ∀ n : ℤ, k ≠ n → am'.mapInfo[n]?.map view = am.mapInfo[n]?.map view

theorem AgreeOff.symm {α : Type} {view : CAddrInfo → α} {k : ℤ} {am am' : CAddrMan}
    (h : AgreeOff view k am am') : AgreeOff view k am' am := fun n hn => (h n hn).symm

theorem AgreeOff.back {α : Type} {view : CAddrInfo → α} {k : ℤ} {am am' : CAddrMan}
    (h : AgreeOff view k am am') {n : ℤ} {info' : CAddrInfo} (hk : k ≠ n)
    (hn : am'.mapInfo[n]? = some info') :
    ∃ info, am.mapInfo[n]? = some info ∧ view info = view info' := by
  have hview := h n hk
  rw [hn, Option.map_some, eq_comm, Option.map_eq_some_iff] at hview
  exact hview

theorem update_lookup (am : CAddrMan) (k n : ℤ) (f : CAddrInfo → CAddrInfo) :
    (am.update k f).mapInfo[n]? = if k = n then am.mapInfo[n]?.map f else am.mapInfo[n]? :=
  lookup_modify am.mapInfo k n f

theorem update_agree {α : Type} {view : CAddrInfo → α} (am : CAddrMan) (k : ℤ)
    {f : CAddrInfo → CAddrInfo} (hf : ∀ info, view (f info) = view info) :
    Agree view am (am.update k f) := by
  intro n
  rw [update_lookup]
  split_ifs with hn
  · rw [Option.map_map]
    congr 1
    funext info
    exact hf info
  · rfl

/-- What the index has to do with of an entry. -/
def indexView (info : CAddrInfo) : ℤ × CNetAddr := (info.nRandomPos, info.toCNetAddr)

theorem Indexed.congr {am am' : CAddrMan} (h : Indexed am) (hid : am'.nIdCount = am.nIdCount)
    (hrandom : am'.vRandom = am.vRandom) (haddr : am'.mapAddr = am.mapAddr)
    (hagree : Agree indexView am am') : Indexed am' := by
  constructor
  · rw [hid]
    exact h.count
  · intro n info' hn
    obtain ⟨info, hinfo, -⟩ := hagree.back hn
    rw [hid]
    exact h.fresh n info hinfo
  · intro n info' hn
    obtain ⟨info, hinfo, hview⟩ := hagree.back hn
    obtain ⟨hpos, -⟩ := Prod.mk.inj hview
    rw [← hpos, hrandom]
    exact h.pos n info hinfo
  · intro k n hk
    rw [hrandom] at hk
    obtain ⟨info, hinfo, hpos⟩ := h.rnd k n hk
    obtain ⟨info', hn, hview⟩ := hagree.symm.back hinfo
    obtain ⟨hpos', -⟩ := Prod.mk.inj hview
    exact ⟨info', hn, hpos'.trans hpos⟩
  · intro n info' hn
    obtain ⟨info, hinfo, hview⟩ := hagree.back hn
    obtain ⟨-, heq⟩ := Prod.mk.inj hview
    rw [← heq, haddr]
    exact h.addr n info hinfo
  · intro a n ha
    rw [haddr] at ha
    obtain ⟨info, hinfo, heq⟩ := h.back a n ha
    obtain ⟨info', hn, hview⟩ := hagree.symm.back hinfo
    obtain ⟨-, heq'⟩ := Prod.mk.inj hview
    exact ⟨info', hn, heq'.trans heq⟩

/-- Two entries at one position are one. -/
theorem Indexed.pos_inj {am : CAddrMan} (h : Indexed am) {n m : ℤ} {info info' : CAddrInfo}
    (hn : am.mapInfo[n]? = some info) (hm : am.mapInfo[m]? = some info')
    (heq : info.nRandomPos = info'.nRandomPos) : n = m := by
  have hn' := (h.pos n info hn).2
  have hm' := (h.pos m info' hm).2
  rw [heq, hm'] at hn'
  simpa using hn'.symm

theorem Indexed.addr_inj {am : CAddrMan} (h : Indexed am) {n m : ℤ} {info info' : CAddrInfo}
    (hn : am.mapInfo[n]? = some info) (hm : am.mapInfo[m]? = some info')
    (heq : info.toCNetAddr = info'.toCNetAddr) : n = m := by
  have hn' := h.addr n info hn
  rw [heq, h.addr m info' hm] at hn'
  simpa using hn'.symm

theorem Indexed.find_none {am : CAddrMan} (h : Indexed am) {a : CNetAddr}
    (hfind : am.find a = none) : am.mapAddr.lookup a = none := by
  cases ha : am.mapAddr.lookup a with
  | none => rfl
  | some n =>
    obtain ⟨info, hinfo, -⟩ := h.back a n ha
    simp [find, ha, hinfo] at hfind

theorem find_some {am : CAddrMan} {a : CNetAddr} {n : ℤ} {info : CAddrInfo}
    (hfind : am.find a = some (n, info)) : am.mapInfo[n]? = some info := by
  simp only [find, Option.bind_eq_bind, Option.bind_eq_some_iff, Option.pure_def,
    Option.some.injEq, Prod.mk.injEq] at hfind
  obtain ⟨n', -, info', hinfo, rfl, rfl⟩ := hfind
  exact hinfo

theorem init_indexed (nKey : List Byte) : Indexed (.init nKey) := by
  constructor
  all_goals simp [init]

theorem create_lookup (am : CAddrMan) (addr : CAddress) (source : CNetAddr) (n : ℤ) :
    (am.create addr source).mapInfo[n]? =
      if am.nIdCount.toInt = n then
        some { CAddrInfo.make addr source with nRandomPos := am.vRandom.length }
      else am.mapInfo[n]? :=
  lookup_insert am.mapInfo am.nIdCount.toInt n _

/-- The count of ids goes up, as long as it fits. -/
theorem toInt_count_add_one {c : BitVec 32} (h : c.toInt + 1 < 2 ^ 31) :
    (c + 1).toInt = c.toInt + 1 := by
  have hlow := BitVec.le_toInt c
  rw [BitVec.toInt_add]
  exact Int.bmod_eq_of_le (by simp at hlow ⊢; omega) (by simp at h ⊢; omega)

theorem Indexed.create {am : CAddrMan} (h : Indexed am) {addr : CAddress} (source : CNetAddr)
    (hfree : am.mapAddr.lookup addr.toCNetAddr = none) (hfits : am.nIdCount.toInt + 1 < 2 ^ 31) :
    Indexed (am.create addr source) := by
  have hcount : (am.create addr source).nIdCount.toInt = am.nIdCount.toInt + 1 :=
    toInt_count_add_one hfits
  have hnat := h.count
  have hother : ∀ (n : ℤ) info, am.mapInfo[n]? = some info →
      am.nIdCount.toInt ≠ n ∧ info.toCNetAddr ≠ addr.toCNetAddr := by
    intro n info hn
    have hlt := h.fresh n info hn
    refine ⟨by omega, fun heq => ?_⟩
    have haddr := h.addr n info hn
    rw [heq, hfree] at haddr
    cases haddr
  constructor
  · omega
  · intro n info hn
    rw [create_lookup] at hn
    rw [hcount]
    split_ifs at hn with heq
    · omega
    · have hlt := h.fresh n info hn
      omega
  · intro n info hn
    rw [create_lookup] at hn
    show _ ∧ (am.vRandom ++ [am.nIdCount.toInt])[info.nRandomPos.toNat]? = some n
    split_ifs at hn with heq
    · simp only [Option.some.injEq] at hn
      rw [← hn, ← heq]
      simp
    · obtain ⟨hpos, hat⟩ := h.pos n info hn
      obtain ⟨hlt, -⟩ := List.getElem?_eq_some_iff.mp hat
      rw [List.getElem?_append_left hlt]
      exact ⟨hpos, hat⟩
  · intro k n hk
    have hk' : (am.vRandom ++ [am.nIdCount.toInt])[k]? = some n := hk
    rw [create_lookup]
    by_cases hlt : k < am.vRandom.length
    · rw [List.getElem?_append_left hlt] at hk'
      obtain ⟨info, hinfo, hpos⟩ := h.rnd k n hk'
      rw [if_neg (hother n info hinfo).1]
      exact ⟨info, hinfo, hpos⟩
    · rw [List.getElem?_append_right (by omega)] at hk'
      have hzero : k - am.vRandom.length = 0 := by
        by_contra hne
        rw [List.getElem?_eq_none (by simpa using Nat.one_le_iff_ne_zero.mpr hne)] at hk'
        cases hk'
      rw [hzero] at hk'
      have hn : am.nIdCount.toInt = n := by simpa using hk'
      rw [if_pos hn]
      refine ⟨_, rfl, ?_⟩
      dsimp only
      omega
  · intro n info hn
    rw [create_lookup] at hn
    show (am.mapAddr.insert addr.toCNetAddr am.nIdCount.toInt).lookup info.toCNetAddr = some n
    split_ifs at hn with heq
    · simp only [Option.some.injEq] at hn
      have haddr : info.toCNetAddr = addr.toCNetAddr := by rw [← hn]; rfl
      rw [haddr, AList.lookup_insert, heq]
    · rw [AList.lookup_insert_ne (hother n info hn).2]
      exact h.addr n info hn
  · intro a n ha
    have ha' : (am.mapAddr.insert addr.toCNetAddr am.nIdCount.toInt).lookup a = some n := ha
    rw [create_lookup]
    by_cases heq : a = addr.toCNetAddr
    · subst heq
      rw [AList.lookup_insert] at ha'
      rw [if_pos (by simpa using ha')]
      exact ⟨_, rfl, rfl⟩
    · rw [AList.lookup_insert_ne heq] at ha'
      obtain ⟨info, hinfo, haddr⟩ := h.back a n ha'
      rw [if_neg (hother n info hinfo).1]
      exact ⟨info, hinfo, haddr⟩

/-- The entry but for its position. -/
def unplaced (info : CAddrInfo) : CAddrInfo := { info with nRandomPos := 0 }

/-- Only the order of vRandom has changed. -/
structure Reordered (am am' : CAddrMan) : Prop where
  frame : am' = { am with mapInfo := am'.mapInfo, vRandom := am'.vRandom }
  length : am'.vRandom.length = am.vRandom.length
  agree : Agree unplaced am am'

theorem Reordered.refl (am : CAddrMan) : Reordered am am := ⟨rfl, rfl, fun _ => rfl⟩

theorem unplaced_addr {info info' : CAddrInfo} (h : unplaced info = unplaced info') :
    info.toCNetAddr = info'.toCNetAddr := by
  simp only [unplaced, CAddrInfo.mk.injEq] at h
  rw [h.1]

/-- The entries `n1` and `n2` of two positions change places. -/
def exchange (am : CAddrMan) (p1 p2 : ℕ) (n1 n2 : ℤ) : CAddrMan :=
  { (am.update n1 fun info => { info with nRandomPos := (p2 : ℤ) }).update n2
      fun info => { info with nRandomPos := (p1 : ℤ) } with
    vRandom := (am.vRandom.set p1 n2).set p2 n1 }

section Exchange

variable {am : CAddrMan} {p1 p2 : ℕ} {n1 n2 : ℤ}

theorem exchange_random (hn1 : am.vRandom[p1]? = some n1) (hn2 : am.vRandom[p2]? = some n2)
    (k : ℕ) : (am.exchange p1 p2 n1 n2).vRandom[k]? =
      if p2 = k then some n1 else if p1 = k then some n2 else am.vRandom[k]? := by
  obtain ⟨hp1, -⟩ := List.getElem?_eq_some_iff.mp hn1
  obtain ⟨hp2, -⟩ := List.getElem?_eq_some_iff.mp hn2
  show ((am.vRandom.set p1 n2).set p2 n1)[k]? = _
  rw [List.getElem?_set, List.getElem?_set]
  simp only [List.length_set, hp1, hp2, if_true]

theorem exchange_lookup (hne : n1 ≠ n2) (n : ℤ) :
    (am.exchange p1 p2 n1 n2).mapInfo[n]? =
      if n2 = n then am.mapInfo[n]?.map fun info => { info with nRandomPos := (p1 : ℤ) }
      else if n1 = n then am.mapInfo[n]?.map fun info => { info with nRandomPos := (p2 : ℤ) }
      else am.mapInfo[n]? := by
  show ((am.update n1 _).update n2 _).mapInfo[n]? = _
  rw [update_lookup, update_lookup]
  by_cases h2 : n2 = n
  · subst h2
    rw [if_pos rfl, if_pos rfl, if_neg hne]
  · rw [if_neg h2, if_neg h2]

theorem exchange_reordered : Reordered am (am.exchange p1 p2 n1 n2) := by
  refine ⟨rfl, by simp [exchange], ?_⟩
  have hone : Agree unplaced am (am.update n1 fun info => { info with nRandomPos := (p2 : ℤ) }) :=
    update_agree am n1 fun info => rfl
  exact hone.trans (update_agree _ n2 fun info => rfl)

/-- An id is at one position. -/
theorem Indexed.random_inj (h : Indexed am) {k l : ℕ} {n : ℤ} (hk : am.vRandom[k]? = some n)
    (hl : am.vRandom[l]? = some n) : k = l := by
  obtain ⟨info, hinfo, hpos⟩ := h.rnd k n hk
  obtain ⟨info', hinfo', hpos'⟩ := h.rnd l n hl
  rw [hinfo] at hinfo'
  cases hinfo'
  omega

variable (h : Indexed am) (hne : p1 ≠ p2) (hn1 : am.vRandom[p1]? = some n1)
  (hn2 : am.vRandom[p2]? = some n2)

include h hne hn1 hn2

theorem Indexed.exchange_ne : n1 ≠ n2 := by
  rintro rfl
  exact hne (h.random_inj hn1 hn2)

theorem Indexed.exchange_pos (n : ℤ) (info : CAddrInfo)
    (hn : (am.exchange p1 p2 n1 n2).mapInfo[n]? = some info) :
    0 ≤ info.nRandomPos ∧
      (am.exchange p1 p2 n1 n2).vRandom[info.nRandomPos.toNat]? = some n := by
  rw [exchange_lookup (h.exchange_ne hne hn1 hn2)] at hn
  rw [exchange_random hn1 hn2]
  split_ifs at hn with h2 h1
  · obtain ⟨info', -, rfl⟩ := Option.map_eq_some_iff.mp hn
    simp [Ne.symm hne, h2]
  · obtain ⟨info', -, rfl⟩ := Option.map_eq_some_iff.mp hn
    simp [h1]
  · obtain ⟨hpos, hat⟩ := h.pos n info hn
    have hk2 : p2 ≠ info.nRandomPos.toNat := by
      intro hk
      rw [← hk, hn2] at hat
      exact h2 (Option.some.inj hat)
    have hk1 : p1 ≠ info.nRandomPos.toNat := by
      intro hk
      rw [← hk, hn1] at hat
      exact h1 (Option.some.inj hat)
    rw [if_neg hk2, if_neg hk1]
    exact ⟨hpos, hat⟩

theorem Indexed.exchange_rnd (k : ℕ) (n : ℤ)
    (hk : (am.exchange p1 p2 n1 n2).vRandom[k]? = some n) :
    ∃ info, (am.exchange p1 p2 n1 n2).mapInfo[n]? = some info ∧ info.nRandomPos = (k : ℤ) := by
  have hids := h.exchange_ne hne hn1 hn2
  rw [exchange_random hn1 hn2] at hk
  rw [exchange_lookup hids]
  split_ifs at hk with hk2 hk1
  · obtain rfl : n1 = n := Option.some.inj hk
    obtain ⟨info, hinfo, -⟩ := h.rnd p1 n1 hn1
    rw [if_neg (Ne.symm hids), if_pos rfl, hinfo]
    exact ⟨_, rfl, by simpa using hk2⟩
  · obtain rfl : n2 = n := Option.some.inj hk
    obtain ⟨info, hinfo, -⟩ := h.rnd p2 n2 hn2
    rw [if_pos rfl, hinfo]
    exact ⟨_, rfl, by simpa using hk1⟩
  · have h2 : n2 ≠ n := fun heq => hk2 (h.random_inj hn2 (heq ▸ hk))
    have h1 : n1 ≠ n := fun heq => hk1 (h.random_inj hn1 (heq ▸ hk))
    rw [if_neg h2, if_neg h1]
    exact h.rnd k n hk

theorem Indexed.exchange : Indexed (am.exchange p1 p2 n1 n2) where
  count := h.count
  fresh n info hn := by
    obtain ⟨info', hinfo', -⟩ := exchange_reordered.agree.back hn
    exact h.fresh n info' hinfo'
  pos := h.exchange_pos hne hn1 hn2
  rnd := h.exchange_rnd hne hn1 hn2
  addr n info hn := by
    obtain ⟨info', hinfo', heq⟩ := exchange_reordered.agree.back hn
    rw [← unplaced_addr heq]
    exact h.addr n info' hinfo'
  back a n ha := by
    obtain ⟨info, hinfo, haddr⟩ := h.back a n ha
    have hagree : Agree unplaced am (am.exchange p1 p2 n1 n2) := exchange_reordered.agree
    obtain ⟨info', hinfo', heq⟩ := hagree.symm.back hinfo
    exact ⟨info', hinfo', (unplaced_addr heq).trans haddr⟩

theorem Indexed.swapRandom_exchange : am.swapRandom p1 p2 = some (am.exchange p1 p2 n1 n2) := by
  obtain ⟨info1, hinfo1, -⟩ := h.rnd p1 n1 hn1
  obtain ⟨info2, hinfo2, -⟩ := h.rnd p2 n2 hn2
  simp [CAddrMan.swapRandom, hne, hn1, hn2, hinfo1, hinfo2, CAddrMan.exchange, update]

end Exchange

/-- SwapRandom succeeds, and what was at the first position is then at the second. -/
theorem Indexed.swapRandom {am : CAddrMan} (h : Indexed am) {p1 p2 : ℕ}
    (hp1 : p1 < am.vRandom.length) (hp2 : p2 < am.vRandom.length) :
    ∃ am', am.swapRandom p1 p2 = some am' ∧ Indexed am' ∧ Reordered am am' ∧
      am'.vRandom[p2]? = am.vRandom[p1]? := by
  by_cases heq : p1 = p2
  · subst heq
    exact ⟨am, by simp [CAddrMan.swapRandom], h, .refl am, rfl⟩
  obtain ⟨n1, hn1⟩ : ∃ n, am.vRandom[p1]? = some n := ⟨_, List.getElem?_eq_getElem hp1⟩
  obtain ⟨n2, hn2⟩ : ∃ n, am.vRandom[p2]? = some n := ⟨_, List.getElem?_eq_getElem hp2⟩
  refine ⟨am.exchange p1 p2 n1 n2, h.swapRandom_exchange heq hn1 hn2, h.exchange heq hn1 hn2,
    exchange_reordered, ?_⟩
  rw [exchange_random hn1 hn2, if_pos rfl, hn1]

/-- The entry at the end of vRandom is deleted. -/
theorem Indexed.remove {am : CAddrMan} (h : Indexed am) {n : ℤ} {info : CAddrInfo}
    (hn : am.mapInfo[n]? = some info) (hlast : info.nRandomPos = (am.vRandom.length : ℤ) - 1) :
    Indexed { am with
      vRandom := am.vRandom.dropLast
      mapAddr := am.mapAddr.erase info.toCNetAddr
      mapInfo := am.mapInfo.erase n } := by
  have hne : ∀ (m : ℤ) info', am.mapInfo[m]? = some info' → n ≠ m →
      info'.toCNetAddr ≠ info.toCNetAddr ∧ info'.nRandomPos.toNat < am.vRandom.length - 1 := by
    intro m info' hm hnm
    obtain ⟨hpos, hat⟩ := h.pos m info' hm
    obtain ⟨hlt, -⟩ := List.getElem?_eq_some_iff.mp hat
    refine ⟨fun heq => hnm (h.addr_inj hn hm heq.symm), ?_⟩
    have hpos' : info'.nRandomPos ≠ info.nRandomPos := fun heq => hnm (h.pos_inj hn hm heq.symm)
    omega
  constructor
  · exact h.count
  · intro m info' hm
    rw [lookup_erase] at hm
    split_ifs at hm with hnm
    exact h.fresh m info' hm
  · intro m info' hm
    rw [lookup_erase] at hm
    split_ifs at hm with hnm
    obtain ⟨hpos, hat⟩ := h.pos m info' hm
    rw [List.getElem?_dropLast, if_pos (hne m info' hm hnm).2]
    exact ⟨hpos, hat⟩
  · intro k m hk
    dsimp only at hk
    rw [List.getElem?_dropLast] at hk
    split_ifs at hk with hlt
    obtain ⟨info', hm, hpos⟩ := h.rnd k m hk
    refine ⟨info', ?_, hpos⟩
    rw [lookup_erase, if_neg]
    · exact hm
    · intro hnm
      rw [← hnm, hn] at hm
      cases hm
      omega
  · intro m info' hm
    rw [lookup_erase] at hm
    split_ifs at hm with hnm
    dsimp only
    rw [AList.lookup_erase_ne (hne m info' hm hnm).1]
    exact h.addr m info' hm
  · intro a m ha
    dsimp only at ha
    by_cases heq : a = info.toCNetAddr
    · subst heq
      rw [AList.lookup_erase] at ha
      cases ha
    · rw [AList.lookup_erase_ne heq] at ha
      obtain ⟨info', hm, haddr⟩ := h.back a m ha
      refine ⟨info', ?_, haddr⟩
      rw [lookup_erase, if_neg]
      · exact hm
      · intro hnm
        rw [← hnm, hn] at hm
        cases hm
        exact heq haddr.symm

/-- An entry is moved to the end of vRandom and deleted. -/
theorem Indexed.delete {am : CAddrMan} (h : Indexed am) {n : ℤ} {info : CAddrInfo}
    (hn : am.mapInfo[n]? = some info) :
    ∃ am', am.swapRandom info.nRandomPos ((am.vRandom.length : ℤ) - 1) = some am' ∧
      Reordered am am' ∧ 0 < am.vRandom.length ∧ Indexed { am' with
        vRandom := am'.vRandom.dropLast
        mapAddr := am'.mapAddr.erase info.toCNetAddr
        mapInfo := am'.mapInfo.erase n } := by
  obtain ⟨hpos, hat⟩ := h.pos n info hn
  obtain ⟨hlt, -⟩ := List.getElem?_eq_some_iff.mp hat
  have hlast : am.vRandom.length - 1 < am.vRandom.length := by omega
  obtain ⟨am', hswap, hindex, hreorder, hend⟩ := h.swapRandom hlt hlast
  rw [hat] at hend
  obtain ⟨info', hinfo', hpos'⟩ := hindex.rnd _ n hend
  have haddr : info.toCNetAddr = info'.toCNetAddr := by
    obtain ⟨info'', hinfo'', hview⟩ := hreorder.agree.back hinfo'
    rw [hn] at hinfo''
    cases hinfo''
    exact unplaced_addr hview
  have hlength := hreorder.length
  refine ⟨am', ?_, hreorder, by omega, ?_⟩
  · rw [← hswap]
    congr 1
    · exact (Int.toNat_of_nonneg hpos).symm
    · omega
  · rw [haddr]
    exact hindex.remove hinfo' (by omega)

end Index

section Places

variable (Hash : List Byte → Uint256)

/-- The times that Check_ tests. -/
def Timed (am : CAddrMan) : Prop :=
  ∀ (n : ℤ) info, am.mapInfo[n]? = some info →
    0 ≤ info.nLastTry.toInt ∧ 0 ≤ info.nLastSuccess.toInt ∧
      (info.fInTried = true → info.nLastSuccess ≠ 0)

/-- The entries are in their buckets, but for a new entry that may be out of its place. -/
structure Placed (x : Option ℤ) (am : CAddrMan) : Prop where
  tried_mem : ∀ b, ∀ n ∈ am.vvTried b, ∃ info, am.mapInfo[n]? = some info ∧
    info.fInTried = true ∧ info.getTriedBucket Hash am.nKey = b
  tried_nodup : ∀ b, (am.vvTried b).Nodup
  tried_size : ∀ b, (am.vvTried b).length ≤ ADDRMAN_TRIED_BUCKET_SIZE
  tried_entry : ∀ (n : ℤ) info, am.mapInfo[n]? = some info → info.fInTried = true →
    n ∈ am.vvTried (info.getTriedBucket Hash am.nKey) ∧ info.nRefCount = 0
  new_mem : ∀ b, ∀ n ∈ am.vvNew b, ∃ info, am.mapInfo[n]? = some info ∧ info.fInTried = false
  new_size : ∀ b, (am.vvNew b).size ≤ ADDRMAN_NEW_BUCKET_SIZE
  new_entry : ∀ (n : ℤ) info, am.mapInfo[n]? = some info → info.fInTried = false →
    x ≠ some n → info.nRefCount = (am.holders n).card ∧ 1 ≤ info.nRefCount ∧
      info.nRefCount ≤ ADDRMAN_NEW_BUCKETS_PER_ADDRESS

/-- The counters of tried and new entries. -/
structure Counted (am : CAddrMan) : Prop where
  tried : am.nTried = ∑ b, ((am.vvTried b).length : ℤ)
  total : am.nTried + am.nNew = (am.vRandom.length : ℤ)

structure Sound (x : Option ℤ) (am : CAddrMan) : Prop where
  indexed : Indexed am
  timed : Timed am
  placed : Placed Hash x am
  counted : Counted am

theorem init_sound (nKey : List Byte) : Sound Hash none (.init nKey) := by
  refine ⟨init_indexed nKey, ?_, ?_, ?_⟩
  · simp [Timed, init]
  · constructor
    all_goals simp [init]
  · constructor
    all_goals simp [init]

/-- What the places have to do with of an entry. -/
def placeView (info : CAddrInfo) : Bool × ℤ × CService :=
  (info.fInTried, info.nRefCount, info.toCService)

theorem placeView_bucket {info info' : CAddrInfo} (h : placeView info = placeView info')
    (nKey : List Byte) : info.getTriedBucket Hash nKey = info'.getTriedBucket Hash nKey := by
  simp only [placeView, Prod.mk.injEq] at h
  simp only [CAddrInfo.getTriedBucket, h.2.2]

theorem mem_holders (am : CAddrMan) (n : ℤ) (b : NewBucket) :
    b ∈ am.holders n ↔ n ∈ am.vvNew b := by
  simp [holders]

variable {Hash}

/-- The times of an entry, and whether it is tried. -/
def timeView (info : CAddrInfo) : BitVec 64 × BitVec 64 × Bool :=
  (info.nLastTry, info.nLastSuccess, info.fInTried)

theorem Timed.of_back {am am' : CAddrMan} (h : Timed am)
    (hback : ∀ (n : ℤ) info', am'.mapInfo[n]? = some info' →
      ∃ info, am.mapInfo[n]? = some info ∧ timeView info = timeView info') : Timed am' := by
  intro n info' hn
  obtain ⟨info, hinfo, hview⟩ := hback n info' hn
  simp only [timeView, Prod.mk.injEq] at hview
  rw [← hview.1, ← hview.2.1, ← hview.2.2]
  exact h n info hinfo

theorem Timed.congr {am am' : CAddrMan} (h : Timed am) (hagree : Agree timeView am am') :
    Timed am' := h.of_back fun _ _ hn => hagree.back hn

theorem unplaced_place {info info' : CAddrInfo} (h : unplaced info = unplaced info') :
    placeView info = placeView info' := by
  simp only [unplaced, CAddrInfo.mk.injEq] at h
  simp only [placeView, h]

theorem unplaced_time {info info' : CAddrInfo} (h : unplaced info = unplaced info') :
    timeView info = timeView info' := by
  simp only [unplaced, CAddrInfo.mk.injEq] at h
  simp only [timeView, h]

theorem Placed.congr {x : Option ℤ} {am am' : CAddrMan} (h : Placed Hash x am)
    (hkey : am'.nKey = am.nKey) (htried : am'.vvTried = am.vvTried) (hnew : am'.vvNew = am.vvNew)
    (hagree : Agree placeView am am') : Placed Hash x am' := by
  have hback : ∀ (n : ℤ) info', am'.mapInfo[n]? = some info' → ∃ info, am.mapInfo[n]? = some info ∧
      info.fInTried = info'.fInTried ∧ info.nRefCount = info'.nRefCount ∧
      info.getTriedBucket Hash am'.nKey = info'.getTriedBucket Hash am'.nKey := by
    intro n info' hn
    obtain ⟨info, hinfo, hview⟩ := hagree.back hn
    have hbucket := placeView_bucket Hash hview am'.nKey
    simp only [placeView, Prod.mk.injEq] at hview
    exact ⟨info, hinfo, hview.1, hview.2.1, hbucket⟩
  have hforth : ∀ (n : ℤ) info, am.mapInfo[n]? = some info → ∃ info', am'.mapInfo[n]? = some info' ∧
      info'.fInTried = info.fInTried ∧
      info'.getTriedBucket Hash am.nKey = info.getTriedBucket Hash am.nKey := by
    intro n info hn
    obtain ⟨info', hinfo', hview⟩ := hagree.symm.back hn
    have hbucket := placeView_bucket Hash hview am.nKey
    simp only [placeView, Prod.mk.injEq] at hview
    exact ⟨info', hinfo', hview.1, hbucket⟩
  constructor
  · intro b n hn
    rw [htried] at hn
    obtain ⟨info, hinfo, hin, hb⟩ := h.tried_mem b n hn
    obtain ⟨info', hinfo', hin', hb'⟩ := hforth n info hinfo
    refine ⟨info', hinfo', hin'.trans hin, ?_⟩
    rw [hkey]
    exact hb'.trans hb
  · rw [htried]
    exact h.tried_nodup
  · rw [htried]
    exact h.tried_size
  · intro n info' hn hin
    obtain ⟨info, hinfo, hin', href, hb⟩ := hback n info' hn
    rw [← href, ← hb, htried, hkey]
    exact h.tried_entry n info hinfo (hin'.trans hin)
  · intro b n hn
    rw [hnew] at hn
    obtain ⟨info, hinfo, hin⟩ := h.new_mem b n hn
    obtain ⟨info', hinfo', hin', -⟩ := hforth n info hinfo
    exact ⟨info', hinfo', hin'.trans hin⟩
  · rw [hnew]
    exact h.new_size
  · intro n info' hn hin hx
    obtain ⟨info, hinfo, hin', href, -⟩ := hback n info' hn
    have hholders : am'.holders n = am.holders n := by
      simp only [holders, hnew]
    rw [← href, hholders]
    exact h.new_entry n info hinfo (hin'.trans hin) hx

end Places

section Shrinking

variable {Hash : List Byte → Uint256}

/-- One entry changes, and the buckets change in that entry only: what has to be shown is about
that entry and the sizes. -/
theorem Placed.change {x x' : Option ℤ} {am am' : CAddrMan} (h : Placed Hash x am) (n : ℤ)
    (hkey : am'.nKey = am.nKey) (hother : AgreeOff placeView n am am')
    (hx : ∀ m, n ≠ m → x' ≠ some m → x ≠ some m)
    (htried : ∀ c m, n ≠ m → (m ∈ am'.vvTried c ↔ m ∈ am.vvTried c))
    (hnew : ∀ c m, n ≠ m → (m ∈ am'.vvNew c ↔ m ∈ am.vvNew c))
    (htried_mem : ∀ c, n ∈ am'.vvTried c → ∃ info, am'.mapInfo[n]? = some info ∧
      info.fInTried = true ∧ info.getTriedBucket Hash am'.nKey = c)
    (htried_nodup : ∀ c, (am'.vvTried c).Nodup)
    (htried_size : ∀ c, (am'.vvTried c).length ≤ ADDRMAN_TRIED_BUCKET_SIZE)
    (htried_entry : ∀ info, am'.mapInfo[n]? = some info → info.fInTried = true →
      n ∈ am'.vvTried (info.getTriedBucket Hash am'.nKey) ∧ info.nRefCount = 0)
    (hnew_mem : ∀ c, n ∈ am'.vvNew c → ∃ info, am'.mapInfo[n]? = some info ∧
      info.fInTried = false)
    (hnew_size : ∀ c, (am'.vvNew c).size ≤ ADDRMAN_NEW_BUCKET_SIZE)
    (hnew_entry : ∀ info, am'.mapInfo[n]? = some info → info.fInTried = false → x' ≠ some n →
      info.nRefCount = (am'.holders n).card ∧ 1 ≤ info.nRefCount ∧
        info.nRefCount ≤ ADDRMAN_NEW_BUCKETS_PER_ADDRESS) :
    Placed Hash x' am' := by
  constructor
  · intro c m hm
    by_cases hne : n = m
    · subst hne
      exact htried_mem c hm
    · obtain ⟨info, hinfo, hin, hc⟩ := h.tried_mem c m ((htried c m hne).mp hm)
      obtain ⟨info', hinfo', hview⟩ := hother.symm.back hne hinfo
      refine ⟨info', hinfo', ?_, ?_⟩
      · rw [← hin]
        exact (Prod.mk.inj hview).1
      · rw [hkey, placeView_bucket Hash hview]
        exact hc
  · exact htried_nodup
  · exact htried_size
  · intro m info' hm hin
    by_cases hne : n = m
    · subst hne
      exact htried_entry info' hm hin
    · obtain ⟨info, hinfo, hview⟩ := hother.back hne hm
      have hentry := h.tried_entry m info hinfo
      rw [placeView_bucket Hash hview] at hentry
      simp only [placeView, Prod.mk.injEq] at hview
      rw [htried _ m hne, hkey, ← hview.2.1]
      exact hentry (hview.1.trans hin)
  · intro c m hm
    by_cases hne : n = m
    · subst hne
      exact hnew_mem c hm
    · obtain ⟨info, hinfo, hin⟩ := h.new_mem c m ((hnew c m hne).mp hm)
      obtain ⟨info', hinfo', hview⟩ := hother.symm.back hne hinfo
      exact ⟨info', hinfo', (Prod.mk.inj hview).1.trans hin⟩
  · exact hnew_size
  · intro m info' hm hin hxm
    by_cases hne : n = m
    · subst hne
      exact hnew_entry info' hm hin hxm
    · obtain ⟨info, hinfo, hview⟩ := hother.back hne hm
      have hholders : am'.holders m = am.holders m := by
        ext c
        rw [mem_holders, mem_holders, hnew c m hne]
      simp only [placeView, Prod.mk.injEq] at hview
      rw [hholders, ← hview.2.1]
      exact h.new_entry m info hinfo (hview.1.trans hin) (hx m hne hxm)

/-- A new entry is in no tried bucket. -/
theorem Placed.not_tried {x : Option ℤ} {am : CAddrMan} (h : Placed Hash x am) {n : ℤ}
    {info : CAddrInfo} (hinfo : am.mapInfo[n]? = some info) (hfalse : info.fInTried = false)
    (c : TriedBucket) : n ∉ am.vvTried c := by
  intro hn
  obtain ⟨info', hinfo', hin, -⟩ := h.tried_mem c n hn
  rw [hinfo] at hinfo'
  cases hinfo'
  simp [hfalse] at hin

/-- A tried entry is in no new bucket. -/
theorem Placed.not_new {x : Option ℤ} {am : CAddrMan} (h : Placed Hash x am) {n : ℤ}
    {c : TriedBucket} (hn : n ∈ am.vvTried c) (b : NewBucket) : n ∉ am.vvNew b := by
  intro hnew
  obtain ⟨info, hinfo, htrue, -⟩ := h.tried_mem c n hn
  obtain ⟨info', hinfo', hfalse⟩ := h.new_mem b n hnew
  rw [hinfo] at hinfo'
  cases hinfo'
  rw [htrue] at hfalse
  cases hfalse

theorem Placed.tried_inj {x : Option ℤ} {am : CAddrMan} (h : Placed Hash x am) {n : ℤ}
    {c k : TriedBucket} (hc : n ∈ am.vvTried c) (hk : n ∈ am.vvTried k) : c = k := by
  obtain ⟨info, hinfo, -, hinfoc⟩ := h.tried_mem c n hc
  obtain ⟨info', hinfo', -, hinfok⟩ := h.tried_mem k n hk
  rw [hinfo] at hinfo'
  cases hinfo'
  exact hinfoc.symm.trans hinfok

/-- The entry leaves a new bucket: its count goes down with the buckets that hold it, and it is
gone when there are none. -/
theorem Placed.drop {x : Option ℤ} {am am' : CAddrMan} (h : Placed Hash x am) {b : NewBucket}
    {n : ℤ} {info : CAddrInfo} (hn : n ∈ am.vvNew b) (hinfo : am.mapInfo[n]? = some info)
    (hx : x ≠ some n) (hkey : am'.nKey = am.nKey) (htried : am'.vvTried = am.vvTried)
    (hnew : am'.vvNew = Function.update am.vvNew b ((am.vvNew b).erase n))
    (hother : AgreeOff placeView n am am')
    (hself : am'.mapInfo[n]?.map placeView =
      if info.nRefCount - 1 = 0 then none else some (false, info.nRefCount - 1, info.toCService)) :
    Placed Hash x am' := by
  have hfalse : info.fInTried = false := by
    obtain ⟨info', hinfo', hin⟩ := h.new_mem b n hn
    rw [hinfo] at hinfo'
    cases hinfo'
    exact hin
  obtain ⟨href, hone, hfour⟩ := h.new_entry n info hinfo hfalse hx
  have hmem : ∀ c m, m ∈ am'.vvNew c ↔ m ∈ am.vvNew c ∧ ¬ (c = b ∧ n = m) := by
    intro c m
    rw [hnew]
    by_cases hc : c = b
    · subst hc
      rw [Function.update_self, mem_set_erase]
      simp [and_comm]
    · rw [Function.update_of_ne hc]
      simp [hc]
  have hholders : am'.holders n = (am.holders n).erase b := by
    ext c
    simp only [Finset.mem_erase, mem_holders, hmem]
    tauto
  have hmine : ∀ info', am'.mapInfo[n]? = some info' →
      info'.fInTried = false ∧ info'.nRefCount = info.nRefCount - 1 ∧ info.nRefCount - 1 ≠ 0 := by
    intro info' hinfo'
    rw [hinfo', Option.map_some] at hself
    split_ifs at hself with hzero
    simp only [placeView, Option.some.injEq, Prod.mk.injEq] at hself
    exact ⟨hself.1, hself.2.1, hzero⟩
  apply h.change n hkey hother
  · exact fun m _ hxm => hxm
  · exact fun c m _ => by rw [htried]
  · intro c m hne
    rw [hmem]
    exact ⟨fun hm => hm.1, fun hm => ⟨hm, fun heq => hne heq.2⟩⟩
  · intro c hc
    rw [htried] at hc
    exact absurd hc (h.not_tried hinfo hfalse c)
  · rw [htried]
    exact h.tried_nodup
  · rw [htried]
    exact h.tried_size
  · intro info' hinfo' hin
    simp [(hmine info' hinfo').1] at hin
  · -- another bucket holds the entry, so that it is not deleted
    intro c hc
    rw [hmem] at hc
    have hcb : c ≠ b := fun heq => hc.2 ⟨heq, rfl⟩
    have htwo : ({b, c} : Finset NewBucket) ⊆ am.holders n := by
      intro d hd
      simp only [Finset.mem_insert, Finset.mem_singleton] at hd
      rw [mem_holders]
      obtain rfl | rfl := hd
      · exact hn
      · exact hc.1
    have hcard := Finset.card_le_card htwo
    rw [Finset.card_pair (Ne.symm hcb)] at hcard
    rw [if_neg (by omega), Option.map_eq_some_iff] at hself
    obtain ⟨info', hinfo', hview⟩ := hself
    exact ⟨info', hinfo', (Prod.mk.inj hview).1⟩
  · intro c
    rw [hnew]
    by_cases hc : c = b
    · subst hc
      rw [Function.update_self]
      exact (Std.TreeSet.size_erase_le).trans (h.new_size c)
    · rw [Function.update_of_ne hc]
      exact h.new_size c
  · intro info' hinfo' _ _
    obtain ⟨-, hcount, hzero⟩ := hmine info' hinfo'
    rw [hholders, Finset.card_erase_of_mem ((mem_holders am n b).mpr hn), hcount]
    omega

/-- What is left after an entry was taken out of a bucket: those that were not in it are as
before. -/
structure Shrunk (b : NewBucket) (am am' : CAddrMan) : Prop where
  key : am'.nKey = am.nKey
  size : (am'.vvNew b).size + 1 = (am.vvNew b).size
  holders : ∀ p, p ∉ am.vvNew b → am'.holders p = am.holders p
  infos : ∀ p : ℤ, p ∉ am.vvNew b →
    am'.mapInfo[p]?.map unplaced = am.mapInfo[p]?.map unplaced

theorem Shrunk.of_erase {b : NewBucket} {n : ℤ} {am am' : CAddrMan} (hn : n ∈ am.vvNew b)
    (hkey : am'.nKey = am.nKey)
    (hnew : am'.vvNew = Function.update am.vvNew b ((am.vvNew b).erase n))
    (hother : ∀ m : ℤ, n ≠ m → am'.mapInfo[m]?.map unplaced = am.mapInfo[m]?.map unplaced) :
    Shrunk b am am' := by
  have hne : ∀ p, p ∉ am.vvNew b → n ≠ p := fun p hp heq => hp (heq ▸ hn)
  constructor
  · exact hkey
  · rw [hnew, Function.update_self, Std.TreeSet.size_erase,
      if_pos (Std.TreeSet.contains_iff_mem.mpr hn)]
    have hpos : 0 < (am.vvNew b).size := by
      rw [← Std.TreeSet.length_toList]
      exact List.length_pos_of_mem (Std.TreeSet.mem_toList.mpr hn)
    omega
  · intro p hp
    ext c
    simp only [mem_holders, hnew]
    by_cases hc : c = b
    · subst hc
      rw [Function.update_self, mem_set_erase]
      simp [hne p hp]
    · rw [Function.update_of_ne hc]
  · intro p hp
    exact hother p (hne p hp)

/-- The reference count of an entry goes down. -/
def lessRef (info : CAddrInfo) : CAddrInfo := { info with nRefCount := info.nRefCount - 1 }

theorem Sound.dropped {x : Option ℤ} {am am' : CAddrMan} (h : Sound Hash x am) {b : NewBucket}
    {n : ℤ} {info : CAddrInfo} (hn : n ∈ am.vvNew b) (hinfo : am.mapInfo[n]? = some info)
    (hx : x ≠ some n) (hindex : Indexed am') (hkey : am'.nKey = am.nKey)
    (htried : am'.vvTried = am.vvTried ∧ am'.nTried = am.nTried)
    (hnew : am'.vvNew = Function.update am.vvNew b ((am.vvNew b).erase n))
    (htotal : am'.nNew - (am'.vRandom.length : ℤ) = am.nNew - (am.vRandom.length : ℤ))
    (hother : AgreeOff unplaced n am am')
    (hself : am'.mapInfo[n]?.map unplaced =
      if info.nRefCount - 1 = 0 then none else some (unplaced (lessRef info))) :
    Sound Hash x am' ∧ Shrunk b am am' := by
  have hfalse : info.fInTried = false := by
    obtain ⟨info', hinfo', hin⟩ := h.placed.new_mem b n hn
    rw [hinfo] at hinfo'
    cases hinfo'
    exact hin
  have hplace : ∀ {o o' : Option CAddrInfo}, o.map unplaced = o'.map unplaced →
      o.map placeView = o'.map placeView := by
    intro o o' heq
    cases o with
    | none =>
      rw [Option.map_none, eq_comm, Option.map_eq_none_iff] at heq
      rw [heq]
    | some info =>
      rw [Option.map_some, eq_comm, Option.map_eq_some_iff] at heq
      obtain ⟨info', rfl, hview⟩ := heq
      rw [Option.map_some, Option.map_some, unplaced_place hview]
  refine ⟨⟨hindex, ?_, ?_, ?_⟩, .of_erase hn hkey hnew hother⟩
  · apply h.timed.of_back
    intro m info' hm
    by_cases hne : n = m
    · subst hne
      rw [hm, Option.map_some] at hself
      split_ifs at hself with hzero
      refine ⟨info, hinfo, ?_⟩
      have hview := unplaced_time (Option.some.inj hself)
      exact hview.symm
    · have hview := hother m hne
      rw [hm, Option.map_some, eq_comm, Option.map_eq_some_iff] at hview
      obtain ⟨info'', hinfo'', hview⟩ := hview
      exact ⟨info'', hinfo'', unplaced_time hview⟩
  · apply h.placed.drop hn hinfo hx hkey htried.1 hnew
    · exact fun m hm => hplace (hother m hm)
    · have hself' : am'.mapInfo[n]?.map unplaced =
          (if info.nRefCount - 1 = 0 then none else some (lessRef info)).map unplaced := by
        rw [hself]
        split_ifs <;> rfl
      rw [hplace hself']
      split_ifs
      · rfl
      · simp [placeView, lessRef, hfalse]
  · have hcount := h.counted.total
    refine ⟨?_, ?_⟩
    · rw [htried.1, htried.2]
      exact h.counted.tried
    · rw [htried.2]
      omega

theorem Sound.dropNew {x : Option ℤ} {am : CAddrMan} (h : Sound Hash x am) {b : NewBucket}
    {n : ℤ} (hn : n ∈ am.vvNew b) (hx : x ≠ some n) :
    ∃ am', am.dropNew b n = some am' ∧ Sound Hash x am' ∧ Shrunk b am am' := by
  obtain ⟨info, hinfo, hfalse⟩ := h.placed.new_mem b n hn
  have hindex : Indexed (am.update n lessRef) :=
    h.indexed.congr rfl rfl rfl (update_agree am n fun _ => rfl)
  have hself : (am.update n lessRef).mapInfo[n]? = some (lessRef info) := by
    rw [update_lookup, if_pos rfl, hinfo]
    rfl
  have hother : ∀ m : ℤ, n ≠ m → (am.update n lessRef).mapInfo[m]? = am.mapInfo[m]? := by
    intro m hm
    rw [update_lookup, if_neg hm]
  by_cases hzero : info.nRefCount - 1 = 0
  · -- the entry was in this bucket only, and it is deleted
    obtain ⟨am2, hswap, hreorder, hpos, hindex2⟩ := hindex.delete hself
    have hagree := hreorder.agree
    have hlength := hreorder.length
    have hframe := hreorder.frame
    obtain ⟨nKey, nIdCount, mapInfo, mapAddr, vRandom, nTried, vvTried, nNew, vvNew⟩ := am2
    simp only [update, CAddrMan.mk.injEq, true_and] at hframe
    obtain ⟨rfl, rfl, rfl, rfl, rfl, rfl, rfl⟩ := hframe
    let am' : CAddrMan := { am with
      mapInfo := mapInfo.erase n
      mapAddr := am.mapAddr.erase info.toCNetAddr
      vRandom := vRandom.dropLast
      nNew := am.nNew - 1
      vvNew := Function.update am.vvNew b ((am.vvNew b).erase n) }
    have hrun : am.dropNew b n = some am' := by
      have hswap' : (am.update n fun info => { info with nRefCount := info.nRefCount - 1 }).swapRandom
          info.nRandomPos ((am.vRandom.length : ℤ) - 1) = _ := hswap
      simp only [CAddrMan.dropNew, hinfo, Option.bind_eq_bind, Option.bind_some, if_pos hzero]
      rw [show (am.update n fun info => { info with nRefCount := info.nRefCount - 1 }).vRandom =
        am.vRandom from rfl, hswap']
      rfl
    refine ⟨am', hrun, h.dropped hn hinfo hx (hindex2.congr rfl rfl rfl fun _ => rfl) rfl
      ⟨rfl, rfl⟩ rfl ?_ ?_ ?_⟩
    · have hlength' : vRandom.length = am.vRandom.length := hlength
      have hpos' : 0 < am.vRandom.length := hpos
      simp only [am', List.length_dropLast, hlength']
      omega
    · intro m hm
      show (mapInfo.erase n)[m]?.map unplaced = _
      rw [lookup_erase, if_neg hm, ← hother m hm]
      exact hagree m
    · show (mapInfo.erase n)[n]?.map unplaced = _
      rw [lookup_erase, if_pos rfl, if_pos hzero]
      rfl
  · let am' : CAddrMan := { am.update n lessRef with
      vvNew := Function.update am.vvNew b ((am.vvNew b).erase n) }
    have hrun : am.dropNew b n = some am' := by
      simp only [CAddrMan.dropNew, hinfo, Option.bind_eq_bind, Option.bind_some, if_neg hzero]
      rfl
    refine ⟨am', hrun, h.dropped hn hinfo hx (hindex.congr rfl rfl rfl fun _ => rfl) rfl
      ⟨rfl, rfl⟩ rfl rfl ?_ ?_⟩
    · intro m hm
      show (am.update n lessRef).mapInfo[m]?.map unplaced = _
      rw [hother m hm]
    · show (am.update n lessRef).mapInfo[n]?.map unplaced = _
      rw [hself, if_neg hzero]
      rfl

theorem getRandInt_lt {nMax : ℕ} (h : 0 < nMax) (r : ℕ) : getRandInt nMax r < nMax := by
  rw [getRandInt, if_neg (by omega)]
  exact Nat.mod_lt r h

theorem firstTerrible_spec {am : CAddrMan} (nNow : ℤ) {ids : List ℤ}
    (hall : ∀ n ∈ ids, ∃ info, am.mapInfo[n]? = some info) :
    ∃ r, am.firstTerrible nNow ids = some r ∧ ∀ n, r = some n → n ∈ ids := by
  induction ids with
  | nil => exact ⟨none, rfl, fun n hn => by cases hn⟩
  | cons n rest ih =>
    obtain ⟨info, hinfo⟩ := hall n (List.mem_cons_self ..)
    obtain ⟨r, hrun, hmem⟩ := ih fun m hm => hall m (List.mem_cons_of_mem n hm)
    simp only [firstTerrible, hinfo, Option.bind_eq_bind, Option.bind_some]
    split_ifs with hterrible
    · refine ⟨some n, rfl, fun m hm => ?_⟩
      cases hm
      exact List.mem_cons_self ..
    · exact ⟨r, hrun, fun m hm => List.mem_cons_of_mem n (hmem m hm)⟩

/-- The entry that is chosen is one of those that were picked, unless there are none. -/
theorem oldestPicked_spec {am : CAddrMan} (picked : ℕ → Bool) {ids : List ℤ} (nI : ℕ)
    {nOldest : ℤ} (hall : ∀ n ∈ ids, ∃ info, am.mapInfo[n]? = some info)
    (hold : nOldest ≠ -1 → ∃ info, am.mapInfo[nOldest]? = some info) :
    ∃ n, am.oldestPicked picked nI ids nOldest = some n ∧
      (n ∈ ids ∨ (n = nOldest ∧ (nOldest ≠ -1 ∨ ∀ k < ids.length, picked (nI + k) = false))) := by
  induction ids generalizing nI nOldest with
  | nil => exact ⟨nOldest, rfl, .inr ⟨rfl, .inr fun k hk => by simp at hk⟩⟩
  | cons n rest ih =>
    obtain ⟨info, hinfo⟩ := hall n (List.mem_cons_self ..)
    have hrest := fun m hm => hall m (List.mem_cons_of_mem n hm)
    have htake : ∃ m, am.oldestPicked picked (nI + 1) rest n = some m ∧ m ∈ n :: rest := by
      obtain ⟨m, hrun, hm⟩ := ih (nI + 1) hrest fun _ => ⟨info, hinfo⟩
      refine ⟨m, hrun, ?_⟩
      obtain hm | ⟨rfl, -⟩ := hm
      · exact List.mem_cons_of_mem n hm
      · exact List.mem_cons_self ..
    unfold oldestPicked
    by_cases hpick : picked nI = true
    · rw [if_pos hpick]
      by_cases hnone : nOldest = -1
      · rw [if_pos hnone]
        obtain ⟨m, hrun, hm⟩ := htake
        exact ⟨m, hrun, .inl hm⟩
      · obtain ⟨infoOldest, hinfoOldest⟩ := hold hnone
        rw [if_neg hnone]
        simp only [hinfo, hinfoOldest, Option.bind_eq_bind, Option.bind_some]
        split_ifs
        · obtain ⟨m, hrun, hm⟩ := htake
          exact ⟨m, hrun, .inl hm⟩
        · obtain ⟨m, hrun, hm⟩ := ih (nI + 1) hrest hold
          refine ⟨m, hrun, ?_⟩
          obtain hm | ⟨rfl, -⟩ := hm
          · exact .inl (List.mem_cons_of_mem n hm)
          · exact .inr ⟨rfl, .inl hnone⟩
    · rw [if_neg hpick]
      obtain ⟨m, hrun, hm⟩ := ih (nI + 1) hrest hold
      refine ⟨m, hrun, ?_⟩
      obtain hm | ⟨heq, hm⟩ := hm
      · exact .inl (List.mem_cons_of_mem n hm)
      · refine .inr ⟨heq, ?_⟩
        obtain hm | hm := hm
        · exact .inl hm
        · refine .inr fun k hk => ?_
          cases k with
          | zero => simpa using hpick
          | succ k =>
            have hk' : k < rest.length := by
              simp only [List.length_cons] at hk
              omega
            rw [show nI + (k + 1) = nI + 1 + k by omega]
            exact hm k hk'

theorem Sound.shrinkNew {x : Option ℤ} {am : CAddrMan} (h : Sound Hash x am) {b : NewBucket}
    (hsize : 0 < (am.vvNew b).size) (hx : ∀ p, x = some p → p ∉ am.vvNew b) (nNow : ℤ)
    (rnd : ℕ → ℕ) :
    ∃ am' code, am.shrinkNew b nNow rnd = some (am', code) ∧ Sound Hash x am' ∧
      Shrunk b am am' := by
  have hall : ∀ n ∈ (am.vvNew b).toList, ∃ info, am.mapInfo[n]? = some info := by
    intro n hn
    obtain ⟨info, hinfo, -⟩ := h.placed.new_mem b n (Std.TreeSet.mem_toList.mp hn)
    exact ⟨info, hinfo⟩
  have hdrop : ∀ n ∈ (am.vvNew b).toList, ∃ am', am.dropNew b n = some am' ∧
      Sound Hash x am' ∧ Shrunk b am am' := by
    intro n hn
    have hn' := Std.TreeSet.mem_toList.mp hn
    exact h.dropNew hn' fun heq => hx n heq hn'
  obtain ⟨r, hfirst, hmem⟩ := firstTerrible_spec nNow hall
  unfold CAddrMan.shrinkNew
  simp only [hfirst, Option.bind_eq_bind, Option.bind_some]
  cases r with
  | some n =>
    obtain ⟨am', hrun, hsound⟩ := hdrop n (hmem n rfl)
    exact ⟨am', 0, by simp [hrun], hsound⟩
  | none =>
    obtain ⟨n, hold, hn⟩ := oldestPicked_spec (picked (am.vvNew b).size rnd) 0 hall
      (fun hne => absurd rfl hne)
    have hn' : n ∈ (am.vvNew b).toList := by
      obtain hn | ⟨-, hne | hnone⟩ := hn
      · exact hn
      · exact absurd rfl hne
      · have hlt := getRandInt_lt hsize (rnd 0)
        have hfalse := hnone (getRandInt (am.vvNew b).size (rnd 0)) (by
          rw [Std.TreeSet.length_toList]
          exact hlt)
        simp [picked, List.range_succ] at hfalse
    obtain ⟨am', hrun, hsound⟩ := hdrop n hn'
    exact ⟨am', 1, by simp [hold, hrun], hsound⟩

end Shrinking

section Moves

variable {Hash : List Byte → Uint256}

/-- The entry joins a new bucket, and is in no tried bucket from then on. -/
theorem Placed.join {x x' : Option ℤ} {am am' : CAddrMan} (h : Placed Hash x am) {b : NewBucket}
    {n : ℤ} {info : CAddrInfo} (hkey : am'.nKey = am.nKey) (hother : AgreeOff placeView n am am')
    (hx : ∀ m, n ≠ m → x' ≠ some m → x ≠ some m)
    (htried : ∀ c, (am'.vvTried c).Perm ((am.vvTried c).erase n))
    (hnew : am'.vvNew = Function.update am.vvNew b ((am.vvNew b).insert n))
    (hn : n ∉ am.vvNew b) (hsize : (am.vvNew b).size < ADDRMAN_NEW_BUCKET_SIZE)
    (hinfo : am'.mapInfo[n]? = some info) (hfalse : info.fInTried = false)
    (href : info.nRefCount = (am.holders n).card + 1)
    (hfour : info.nRefCount ≤ ADDRMAN_NEW_BUCKETS_PER_ADDRESS) : Placed Hash x' am' := by
  have hmem : ∀ c m, m ∈ am'.vvNew c ↔ m ∈ am.vvNew c ∨ (c = b ∧ n = m) := by
    intro c m
    rw [hnew]
    by_cases hc : c = b
    · subst hc
      rw [Function.update_self, mem_set_insert]
      simp [or_comm]
    · rw [Function.update_of_ne hc]
      simp [hc]
  have hholders : am'.holders n = insert b (am.holders n) := by
    ext c
    simp only [Finset.mem_insert, mem_holders, hmem]
    tauto
  have hcard : (am'.holders n).card = (am.holders n).card + 1 := by
    rw [hholders, Finset.card_insert_of_notMem (fun hb => hn ((mem_holders am n b).mp hb))]
  have hmine : ∀ info', am'.mapInfo[n]? = some info' → info' = info := by
    intro info' hinfo'
    rw [hinfo] at hinfo'
    exact (Option.some.inj hinfo').symm
  apply h.change n hkey hother hx
  · intro c m hne
    rw [(htried c).mem_iff]
    exact List.mem_erase_of_ne (Ne.symm hne)
  · intro c m hne
    rw [hmem]
    exact ⟨fun hm => hm.resolve_right fun heq => hne heq.2, .inl⟩
  · intro c hc
    rw [(htried c).mem_iff] at hc
    exact absurd hc (h.tried_nodup c).not_mem_erase
  · exact fun c => (htried c).symm.nodup ((h.tried_nodup c).erase n)
  · intro c
    rw [(htried c).length_eq]
    exact (List.length_erase_le).trans (h.tried_size c)
  · intro info' hinfo' hin
    rw [hmine info' hinfo', hfalse] at hin
    cases hin
  · exact fun _ _ => ⟨info, hinfo, hfalse⟩
  · intro c
    rw [hnew]
    by_cases hc : c = b
    · subst hc
      rw [Function.update_self, Std.TreeSet.size_insert]
      split_ifs <;> omega
    · rw [Function.update_of_ne hc]
      exact h.new_size c
  · intro info' hinfo' _ _
    rw [hmine info' hinfo', href, hcard]
    omega

/-- The entry is removed from all new buckets. -/
theorem Placed.leaveNew {am : CAddrMan} (h : Placed Hash none am) {n : ℤ} {info : CAddrInfo}
    (hinfo : am.mapInfo[n]? = some info) (hfalse : info.fInTried = false) :
    Placed Hash (some n) (am.leaveNew n) ∧ (am.leaveNew n).holders n = ∅ ∧
      (am.leaveNew n).mapInfo[n]? = some { info with nRefCount := 0 } := by
  have hmem : ∀ c m, m ∈ (am.leaveNew n).vvNew c ↔ n ≠ m ∧ m ∈ am.vvNew c :=
    fun c m => mem_set_erase (am.vvNew c) n m
  have hother : AgreeOff placeView n am (am.leaveNew n) := by
    intro m hne
    show (am.update n _).mapInfo[m]?.map placeView = _
    rw [update_lookup, if_neg hne]
  have href := (h.new_entry n info hinfo hfalse (by simp)).1
  have hself : (am.leaveNew n).mapInfo[n]? = some { info with nRefCount := 0 } := by
    show (am.update n _).mapInfo[n]? = _
    rw [update_lookup, if_pos rfl, hinfo, Option.map_some, href, sub_self]
  refine ⟨?_, ?_, hself⟩
  · apply h.change n (show (am.leaveNew n).nKey = am.nKey from rfl) hother
    · exact fun m hne _ => by simp
    · exact fun c m _ => Iff.rfl
    · intro c m hne
      rw [hmem]
      exact ⟨fun hm => hm.2, fun hm => ⟨hne, hm⟩⟩
    · exact fun c hc => absurd hc (h.not_tried hinfo hfalse c)
    · exact h.tried_nodup
    · exact h.tried_size
    · intro info' hinfo' hin
      rw [hself] at hinfo'
      cases hinfo'
      simp [hfalse] at hin
    · intro c hc
      rw [hmem] at hc
      exact absurd rfl hc.1
    · exact fun c => (Std.TreeSet.size_erase_le).trans (h.new_size c)
    · exact fun _ _ _ hx => absurd rfl hx
  · ext c
    rw [mem_holders, hmem]
    simp

/-- An entry that is in no bucket enters its tried bucket. -/
theorem Placed.enter {am am' : CAddrMan} {n : ℤ} (h : Placed Hash (some n) am)
    {info : CAddrInfo} {k : TriedBucket} (hnone : ∀ c, n ∉ am.vvTried c)
    (hholders : am.holders n = ∅) (hkey : am'.nKey = am.nKey)
    (hother : AgreeOff placeView n am am') (hnew : am'.vvNew = am.vvNew)
    (htried : ∀ c, c ≠ k → am'.vvTried c = am.vvTried c)
    (hperm : (am'.vvTried k).Perm (n :: am.vvTried k))
    (hsize : (am'.vvTried k).length ≤ ADDRMAN_TRIED_BUCKET_SIZE)
    (hinfo : am'.mapInfo[n]? = some info) (htrue : info.fInTried = true)
    (href : info.nRefCount = 0) (hk : info.getTriedBucket Hash am'.nKey = k) :
    Placed Hash none am' := by
  have hempty : ∀ c, n ∉ am'.vvNew c := by
    intro c hc
    rw [hnew, ← mem_holders, hholders] at hc
    simp at hc
  have hmine : ∀ info', am'.mapInfo[n]? = some info' → info' = info := by
    intro info' hinfo'
    rw [hinfo] at hinfo'
    exact (Option.some.inj hinfo').symm
  apply h.change n hkey hother
  · exact fun m hne _ => by simpa using hne
  · intro c m hne
    by_cases hc : c = k
    · subst hc
      rw [hperm.mem_iff, List.mem_cons]
      exact ⟨fun hm => hm.resolve_left (Ne.symm hne), .inr⟩
    · rw [htried c hc]
  · exact fun c m _ => by rw [hnew]
  · intro c hc
    refine ⟨info, hinfo, htrue, ?_⟩
    rw [hk]
    by_contra hne
    rw [htried c (Ne.symm hne)] at hc
    exact hnone c hc
  · intro c
    by_cases hc : c = k
    · subst hc
      exact hperm.symm.nodup (List.nodup_cons.mpr ⟨hnone c, h.tried_nodup c⟩)
    · rw [htried c hc]
      exact h.tried_nodup c
  · intro c
    by_cases hc : c = k
    · subst hc
      exact hsize
    · rw [htried c hc]
      exact h.tried_size c
  · intro info' hinfo' _
    rw [hmine info' hinfo', hk, hperm.mem_iff]
    exact ⟨List.mem_cons_self .., href⟩
  · exact fun c hc => absurd hc (hempty c)
  · rw [hnew]
    exact h.new_size
  · intro info' hinfo' hin _
    rw [hmine info' hinfo', htrue] at hin
    cases hin

end Moves

section Adding

variable {Hash : List Byte → Uint256}

/-- The entry that may be out of its place is in it. -/
theorem Placed.settle {am : CAddrMan} {n : ℤ} (h : Placed Hash (some n) am) {info : CAddrInfo}
    (hinfo : am.mapInfo[n]? = some info)
    (hentry : info.nRefCount = (am.holders n).card ∧ 1 ≤ info.nRefCount ∧
      info.nRefCount ≤ ADDRMAN_NEW_BUCKETS_PER_ADDRESS) : Placed Hash none am := by
  refine ⟨h.tried_mem, h.tried_nodup, h.tried_size, h.tried_entry, h.new_mem, h.new_size, ?_⟩
  intro m info' hm hin _
  by_cases hne : n = m
  · subst hne
    rw [hinfo] at hm
    cases hm
    exact hentry
  · exact h.new_entry m info' hm hin (by simpa using hne)

theorem Placed.unsettle {am : CAddrMan} (h : Placed Hash none am) (n : ℤ) :
    Placed Hash (some n) am :=
  ⟨h.tried_mem, h.tried_nodup, h.tried_size, h.tried_entry, h.new_mem, h.new_size,
    fun m info hm hin _ => h.new_entry m info hm hin (by simp)⟩

/-- A change of the reference count of the entry that may be out of its place. -/
theorem Placed.recount {am : CAddrMan} {n : ℤ} (h : Placed Hash (some n) am) {info : CAddrInfo}
    (hinfo : am.mapInfo[n]? = some info) (hfalse : info.fInTried = false)
    {f : CAddrInfo → CAddrInfo} (hf : ∀ info, (f info).fInTried = info.fInTried) :
    Placed Hash (some n) (am.update n f) := by
  have hother : AgreeOff placeView n am (am.update n f) := by
    intro m hne
    rw [update_lookup, if_neg hne]
  have hself : (am.update n f).mapInfo[n]? = some (f info) := by
    rw [update_lookup, if_pos rfl, hinfo]
    rfl
  apply h.change n (show (am.update n f).nKey = am.nKey from rfl) hother
  · exact fun m _ hm => hm
  · exact fun c m _ => Iff.rfl
  · exact fun c m _ => Iff.rfl
  · exact fun c hc => absurd hc (h.not_tried hinfo hfalse c)
  · exact h.tried_nodup
  · exact h.tried_size
  · intro info' hinfo' hin
    rw [hself] at hinfo'
    cases hinfo'
    rw [hf, hfalse] at hin
    cases hin
  · exact fun c _ => ⟨f info, hself, (hf info).trans hfalse⟩
  · exact h.new_size
  · exact fun _ _ _ hx => absurd rfl hx

/-- The end of Add_: a new entry is put into one more bucket, where another may have to leave. -/
theorem Sound.putNew {am : CAddrMan} {n : ℤ} (h : Sound Hash (some n) am) {info : CAddrInfo}
    (hinfo : am.mapInfo[n]? = some info) (hfalse : info.fInTried = false)
    (href : info.nRefCount = (am.holders n).card)
    (hfour : info.nRefCount < ADDRMAN_NEW_BUCKETS_PER_ADDRESS) (source : CNetAddr) (nNow : ℤ)
    (rnd : ℕ → ℕ) :
    ∃ am', am.putNew Hash n source nNow rnd = some am' ∧ Sound Hash none am' := by
  unfold CAddrMan.putNew
  simp only [hinfo, Option.bind_eq_bind, Option.bind_some]
  generalize info.getNewBucket Hash am.nKey source = b
  by_cases hcontains : (am.vvNew b).contains n = true
  · rw [if_pos hcontains]
    have hb : b ∈ am.holders n := (mem_holders am n b).mpr (Std.TreeSet.contains_iff_mem.mp hcontains)
    have hpos := Finset.card_pos.mpr ⟨b, hb⟩
    exact ⟨am, rfl, h.indexed, h.timed,
      h.placed.settle hinfo ⟨href, by omega, by omega⟩, h.counted⟩
  · rw [if_neg hcontains]
    have hn : n ∉ am.vvNew b := fun hn => hcontains (Std.TreeSet.contains_iff_mem.mpr hn)
    let more := fun info : CAddrInfo => { info with nRefCount := info.nRefCount + 1 }
    have hself : (am.update n more).mapInfo[n]? = some (more info) := by
      rw [update_lookup, if_pos rfl, hinfo]
      rfl
    have hsound : Sound Hash (some n) (am.update n more) :=
      ⟨h.indexed.congr rfl rfl rfl (update_agree am n fun _ => rfl),
        h.timed.congr (update_agree am n fun _ => rfl),
        h.placed.recount hinfo hfalse fun _ => rfl, ⟨h.counted.tried, h.counted.total⟩⟩
    -- the manager before the entry is inserted
    obtain ⟨am2, hrun, hsound2, hsize, hn2, hcard, info2, hinfo2, hview⟩ :
        ∃ am2, (if (am.vvNew b).size = ADDRMAN_NEW_BUCKET_SIZE then
            ((am.update n more).shrinkNew b nNow rnd).map Prod.fst
          else some (am.update n more)) = some am2 ∧ Sound Hash (some n) am2 ∧
          (am2.vvNew b).size < ADDRMAN_NEW_BUCKET_SIZE ∧ n ∉ am2.vvNew b ∧
          am2.holders n = am.holders n ∧ ∃ info2, am2.mapInfo[n]? = some info2 ∧
            unplaced info2 = unplaced (more info) := by
      by_cases hfull : (am.vvNew b).size = ADDRMAN_NEW_BUCKET_SIZE
      · have hpos : 0 < ((am.update n more).vvNew b).size := by
          show 0 < (am.vvNew b).size
          rw [hfull]
          decide
        obtain ⟨am2, code, hrun, hsound2, hshrunk⟩ := hsound.shrinkNew hpos
          (fun p hp => by cases hp; exact hn) nNow rnd
        have hholders : am2.holders n = am.holders n := hshrunk.holders n hn
        have hinfos := hshrunk.infos n hn
        rw [hself, Option.map_some, Option.map_eq_some_iff] at hinfos
        have hless : (am2.vvNew b).size + 1 = (am.vvNew b).size := hshrunk.size
        refine ⟨am2, by rw [if_pos hfull, hrun]; rfl, hsound2, by omega, ?_, hholders, hinfos⟩
        rw [← mem_holders, hholders, mem_holders]
        exact hn
      · have hle := h.placed.new_size b
        refine ⟨am.update n more, if_neg hfull, hsound, ?_, hn, rfl, _, hself, rfl⟩
        show (am.vvNew b).size < ADDRMAN_NEW_BUCKET_SIZE
        omega
    have hplace := unplaced_place hview
    simp only [placeView, more, Prod.mk.injEq] at hplace
    refine ⟨{ am2 with vvNew := Function.update am2.vvNew b ((am2.vvNew b).insert n) }, ?_,
      hsound2.indexed.congr rfl rfl rfl fun _ => rfl,
      hsound2.timed.congr fun _ => rfl, ?_, ⟨hsound2.counted.tried, hsound2.counted.total⟩⟩
    · by_cases hfull : (am.vvNew b).size = ADDRMAN_NEW_BUCKET_SIZE
      · rw [if_pos hfull] at hrun ⊢
        rw [hrun]
        rfl
      · rw [if_neg hfull] at hrun ⊢
        cases hrun
        rfl
    · have hfalse2 : info2.fInTried = false := hplace.1.trans hfalse
      refine hsound2.placed.join ?_ ?_ ?_ ?_ ?_ hn2 hsize hinfo2 hfalse2 ?_ ?_
      · rfl
      · exact fun _ _ => rfl
      · exact fun m hne _ => by simpa using hne
      · intro c
        rw [List.erase_of_not_mem (hsound2.placed.not_tried hinfo2 hfalse2 c)]
      · rfl
      · rw [hcard]
        omega
      · omega

/-- A change of what the invariant does not depend on. -/
theorem Sound.touch {x : Option ℤ} {am : CAddrMan} (h : Sound Hash x am) (n : ℤ)
    {f : CAddrInfo → CAddrInfo} (hindex : ∀ info, indexView (f info) = indexView info)
    (hplace : ∀ info, placeView (f info) = placeView info) (htimed : Timed (am.update n f)) :
    Sound Hash x (am.update n f) :=
  ⟨h.indexed.congr rfl rfl rfl (update_agree am n hindex), htimed,
    h.placed.congr rfl rfl rfl (update_agree am n hplace), ⟨h.counted.tried, h.counted.total⟩⟩

/-- A fresh entry, that is in no bucket yet. -/
theorem Sound.create {am : CAddrMan} (h : Sound Hash none am) {addr : CAddress}
    (source : CNetAddr) (hfree : am.mapAddr.lookup addr.toCNetAddr = none)
    (hfits : am.nIdCount.toInt + 1 < 2 ^ 31)
    {f : CAddrInfo → CAddrInfo} (hindex : ∀ info, indexView (f info) = indexView info)
    (htime : ∀ info, timeView (f info) = timeView info)
    (hplace : ∀ info, placeView (f info) = placeView info) :
    let am1 := (am.create addr source).update am.nIdCount.toInt f
    Sound Hash (some am.nIdCount.toInt) { am1 with nNew := am1.nNew + 1 } ∧
      am1.holders am.nIdCount.toInt = ∅ ∧
      ∃ info, am1.mapInfo[am.nIdCount.toInt]? = some info ∧ info.fInTried = false ∧
        info.nRefCount = 0 := by
  intro am1
  let info0 : CAddrInfo :=
    { CAddrInfo.make addr source with nRandomPos := am.vRandom.length }
  have hself : am1.mapInfo[am.nIdCount.toInt]? = some (f info0) := by
    show ((am.create addr source).update am.nIdCount.toInt f).mapInfo[am.nIdCount.toInt]? = _
    rw [update_lookup, if_pos rfl, create_lookup, if_pos rfl]
    rfl
  have hother : ∀ m : ℤ, am.nIdCount.toInt ≠ m → am1.mapInfo[m]? = am.mapInfo[m]? := by
    intro m hm
    show ((am.create addr source).update am.nIdCount.toInt f).mapInfo[m]? = _
    rw [update_lookup, if_neg hm, create_lookup, if_neg hm]
  have hview := hplace info0
  have htimes := htime info0
  simp only [placeView, Prod.mk.injEq] at hview
  simp only [timeView, Prod.mk.injEq] at htimes
  have hnew : ∀ c, am.nIdCount.toInt ∉ am.vvNew c := by
    intro c hc
    obtain ⟨info, hinfo, -⟩ := h.placed.new_mem c _ hc
    have hlt := h.indexed.fresh _ info hinfo
    omega
  have htried : ∀ c, am.nIdCount.toInt ∉ am.vvTried c := by
    intro c hc
    obtain ⟨info, hinfo, -⟩ := h.placed.tried_mem c _ hc
    have hlt := h.indexed.fresh _ info hinfo
    omega
  refine ⟨⟨?_, ?_, ?_, ?_⟩, ?_, f info0, hself, hview.1, hview.2.1⟩
  · have hcreate := h.indexed.create source hfree hfits
    have hupdate : Indexed am1 := hcreate.congr rfl rfl rfl (update_agree _ _ hindex)
    exact hupdate.congr rfl rfl rfl fun _ => rfl
  · intro m info hm
    by_cases hne : am.nIdCount.toInt = m
    · subst hne
      have heq : f info0 = info := by
        rw [← Option.some.injEq, ← hself]
        exact hm
      rw [← heq, htimes.1, htimes.2.1, htimes.2.2]
      simp [info0, CAddrInfo.make]
    · have hm' : am1.mapInfo[m]? = some info := hm
      rw [hother m hne] at hm'
      exact h.timed m info hm'
  · refine h.placed.change am.nIdCount.toInt ?_ ?_ ?_ ?_ ?_ ?_ ?_ ?_ ?_ ?_ ?_ ?_
    · rfl
    · intro m hne
      show am1.mapInfo[m]?.map placeView = _
      rw [hother m hne]
    · exact fun m _ _ => by simp
    · exact fun c m _ => Iff.rfl
    · exact fun c m _ => Iff.rfl
    · exact fun c hc => absurd hc (htried c)
    · exact h.placed.tried_nodup
    · exact h.placed.tried_size
    · intro info hm hin
      have heq : f info0 = info := by
        rw [← Option.some.injEq, ← hself]
        exact hm
      rw [← heq, hview.1] at hin
      cases hin
    · exact fun c hc => absurd hc (hnew c)
    · exact h.placed.new_size
    · exact fun _ _ _ hx => absurd rfl hx
  · refine ⟨h.counted.tried, ?_⟩
    have htotal := h.counted.total
    show am.nTried + (am.nNew + 1) = ((am.vRandom ++ [am.nIdCount.toInt]).length : ℤ)
    rw [List.length_append, List.length_singleton]
    omega
  · ext c
    have hc : am.nIdCount.toInt ∉ am1.vvNew c := hnew c
    rw [mem_holders]
    simpa using hc

theorem Sound.add_ {am : CAddrMan} (h : Sound Hash none am) (addr : CAddress) (source : CNetAddr)
    (nTimePenalty nNow : ℤ) (rnd : ℕ → ℕ)
    (hfits : addr.isRoutable = true → am.find addr.toCNetAddr = none →
      am.nIdCount.toInt + 1 < 2 ^ 31) :
    ∃ am' fNew, am.add_ Hash addr source nTimePenalty nNow rnd = some (am', fNew) ∧
      Sound Hash none am' := by
  unfold CAddrMan.add_
  by_cases hroute : addr.isRoutable = false
  · exact ⟨am, false, if_pos hroute, h⟩
  rw [if_neg hroute]
  cases hfind : am.find addr.toCNetAddr with
  | some found =>
    obtain ⟨n, info⟩ := found
    have hinfo := find_some hfind
    dsimp only
    have hself : (am.update n (refreshed addr nTimePenalty nNow)).mapInfo[n]? =
        some (refreshed addr nTimePenalty nNow info) := by
      rw [update_lookup, if_pos rfl, hinfo]
      rfl
    have hsound : Sound Hash none (am.update n (refreshed addr nTimePenalty nNow)) :=
      h.touch n (fun _ => rfl) (fun _ => rfl) (h.timed.congr (update_agree am n fun _ => rfl))
    by_cases hkeep : keepsAsIs addr (refreshed addr nTimePenalty nNow info) (rnd 0) = true
    · rw [if_pos hkeep]
      exact ⟨_, false, rfl, hsound⟩
    · rw [if_neg hkeep]
      simp only [keepsAsIs, Bool.or_eq_true, not_or, decide_eq_true_eq, Bool.not_eq_true] at hkeep
      obtain ⟨⟨⟨-, hfalse⟩, hfour⟩, -⟩ := hkeep
      obtain ⟨href, -, hle⟩ := hsound.placed.new_entry n _ hself hfalse (by simp)
      have hspecial : Sound Hash (some n) (am.update n (refreshed addr nTimePenalty nNow)) :=
        ⟨hsound.indexed, hsound.timed, hsound.placed.unsettle n, hsound.counted⟩
      obtain ⟨am', hrun, hsound'⟩ := hspecial.putNew hself hfalse href (by omega) source nNow
        fun i => rnd (i + 1)
      exact ⟨am', false, by rw [hrun]; rfl, hsound'⟩
  | none =>
    have hfree := h.indexed.find_none hfind
    dsimp only
    obtain ⟨hsound, hholders, info, hinfo, hfalse, href⟩ := h.create source hfree
      (hfits (by simpa using hroute) hfind) (f := fun info =>
        { info with nTime := BitVec.ofInt 32 (max 0 (info.nTime.toNat - nTimePenalty)) })
      (fun _ => rfl) (fun _ => rfl) (fun _ => rfl)
    obtain ⟨am', hrun, hsound'⟩ := hsound.putNew hinfo hfalse
      (by rw [href]; exact (congrArg (fun s : Finset NewBucket => (s.card : ℤ)) hholders).symm)
      (by rw [href]; decide) source nNow fun i => rnd (i + 1)
    exact ⟨am', true, by rw [hrun]; rfl, hsound'⟩

end Adding

section Trying

variable {Hash : List Byte → Uint256}

/-- The rounds of SelectTried shuffle the bucket, and remember a position in it. -/
theorem selectTriedLoop_spec {am : CAddrMan} (rnd : ℕ → ℕ) (k i : ℕ) {vTried : List ℤ}
    {nOldest nOldestPos : ℤ} (hrounds : i + k ≤ vTried.length)
    (hall : ∀ n ∈ vTried, ∃ info, am.mapInfo[n]? = some info)
    (hold : nOldest ≠ -1 → (∃ info, am.mapInfo[nOldest]? = some info) ∧ 0 ≤ nOldestPos ∧
      nOldestPos.toNat < vTried.length) :
    ∃ vTried' nPos, am.selectTriedLoop rnd k i vTried nOldest nOldestPos = some (vTried', nPos) ∧
      vTried'.Perm vTried ∧
      (0 < k ∨ (0 ≤ nOldestPos ∧ nOldestPos.toNat < vTried.length) →
        0 ≤ nPos ∧ nPos.toNat < vTried.length) := by
  induction k generalizing i vTried nOldest nOldestPos with
  | zero => exact ⟨vTried, nOldestPos, rfl, .refl _, fun h => h.resolve_left (lt_irrefl 0)⟩
  | succ k ih =>
    have hi : i < vTried.length := by omega
    have hpos : getRandInt (vTried.length - i) (rnd i) + i < vTried.length := by
      have hlt := getRandInt_lt (show 0 < vTried.length - i by omega) (rnd i)
      omega
    unfold selectTriedLoop
    generalize getRandInt (vTried.length - i) (rnd i) + i = nPos at hpos ⊢
    simp only [List.getElem?_eq_getElem hpos, List.getElem?_eq_getElem hi, Option.bind_eq_bind,
      Option.bind_some]
    have hperm : ((vTried.set nPos vTried[i]).set i vTried[nPos]).Perm vTried :=
      List.set_set_perm hpos hi
    have hlength := hperm.length_eq
    have hall' : ∀ n ∈ (vTried.set nPos vTried[i]).set i vTried[nPos],
        ∃ info, am.mapInfo[n]? = some info := fun n hn => hall n (hperm.mem_iff.mp hn)
    obtain ⟨info, hinfo⟩ := hall vTried[nPos] (List.getElem_mem hpos)
    -- the entry of this round is remembered
    have htake : ∃ vTried' nPos', am.selectTriedLoop rnd k (i + 1)
        ((vTried.set nPos vTried[i]).set i vTried[nPos]) vTried[nPos] nPos =
          some (vTried', nPos') ∧ vTried'.Perm vTried ∧
          (0 ≤ nPos' ∧ nPos'.toNat < vTried.length) := by
      have hvalid : 0 ≤ (nPos : ℤ) ∧
          (nPos : ℤ).toNat < ((vTried.set nPos vTried[i]).set i vTried[nPos]).length := by
        rw [hlength]
        exact ⟨by omega, by simpa using hpos⟩
      obtain ⟨vTried', nPos', hrun, hperm', hres⟩ := ih (i + 1) (by omega) hall'
        fun _ => ⟨⟨info, hinfo⟩, hvalid⟩
      have hres' := hres (.inr hvalid)
      rw [hlength] at hres'
      exact ⟨vTried', nPos', hrun, hperm'.trans hperm, hres'⟩
    by_cases hnone : nOldest = -1
    · rw [if_pos hnone]
      obtain ⟨vTried', nPos', hrun, hperm', hres⟩ := htake
      exact ⟨vTried', nPos', hrun, hperm', fun _ => hres⟩
    · obtain ⟨⟨infoOldest, hinfoOldest⟩, hvalid⟩ := hold hnone
      rw [if_neg hnone]
      simp only [hinfo, hinfoOldest, Option.bind_some]
      split_ifs
      · obtain ⟨vTried', nPos', hrun, hperm', hres⟩ := htake
        exact ⟨vTried', nPos', hrun, hperm', fun _ => hres⟩
      · rw [← hlength] at hvalid
        obtain ⟨vTried', nPos', hrun, hperm', hres⟩ := ih (i + 1) (by omega) hall'
          fun _ => ⟨⟨infoOldest, hinfoOldest⟩, hvalid⟩
        have hres' := hres (.inr hvalid)
        rw [hlength] at hres'
        exact ⟨vTried', nPos', hrun, hperm'.trans hperm, fun _ => hres'⟩

/-- The bucket with another entry in the place that SelectTried chose. -/
theorem selectTried_spec {am : CAddrMan} {k : TriedBucket} (rnd : ℕ → ℕ) (n : ℤ)
    (hall : ∀ m ∈ am.vvTried k, ∃ info, am.mapInfo[m]? = some info)
    (hpos : 0 < (am.vvTried k).length) :
    ∃ (vTried : List ℤ) (nPos nOld : ℤ), am.selectTried k rnd = some (vTried, nPos) ∧ 0 ≤ nPos ∧
      vTried[nPos.toNat]? = some nOld ∧ nOld ∈ am.vvTried k ∧
      (vTried.set nPos.toNat n).Perm (n :: (am.vvTried k).erase nOld) := by
  have hrounds : 0 + min ADDRMAN_TRIED_ENTRIES_INSPECT_ON_EVICT (am.vvTried k).length ≤
      (am.vvTried k).length := by omega
  obtain ⟨vTried, nPos, hrun, hperm, hres⟩ :=
    @selectTriedLoop_spec am rnd _ 0 _ (-1) (-1) hrounds hall fun hne => absurd rfl hne
  obtain ⟨hnonneg, hlt⟩ := hres (.inl (by
    unfold ADDRMAN_TRIED_ENTRIES_INSPECT_ON_EVICT
    omega))
  rw [← hperm.length_eq] at hlt
  refine ⟨vTried, nPos, vTried[nPos.toNat], hrun, hnonneg, List.getElem?_eq_getElem hlt,
    hperm.mem_iff.mp (List.getElem_mem hlt), ?_⟩
  have hset := List.set_perm_cons_eraseIdx hlt n
  have hrest : (vTried.eraseIdx nPos.toNat).Perm ((am.vvTried k).erase vTried[nPos.toNat]) := by
    have hcons := List.getElem_cons_eraseIdx_perm hlt
    exact (List.cons_perm_iff_perm_erase.mp (hcons.trans hperm)).2
  exact hset.trans (hrest.cons n)

/-- One bucket changes. -/
theorem sum_length_change (F F' : TriedBucket → List ℤ) (k : TriedBucket)
    (h : ∀ c, c ≠ k → F' c = F c) :
    ∑ b, ((F' b).length : ℤ) + (F k).length = ∑ b, ((F b).length : ℤ) + (F' k).length := by
  have hsum := Finset.add_sum_erase Finset.univ (fun b => ((F b).length : ℤ)) (Finset.mem_univ k)
  have hsum' := Finset.add_sum_erase Finset.univ (fun b => ((F' b).length : ℤ)) (Finset.mem_univ k)
  have hrest : ∑ b ∈ Finset.univ.erase k, ((F' b).length : ℤ) =
      ∑ b ∈ Finset.univ.erase k, ((F b).length : ℤ) := by
    apply Finset.sum_congr rfl
    intro c hc
    rw [h c (Finset.ne_of_mem_erase hc)]
  omega

theorem leaveNew_timed {am : CAddrMan} (h : Timed am) (n : ℤ) : Timed (am.leaveNew n) := by
  have hupdate : Timed (am.update n fun info =>
      { info with nRefCount := info.nRefCount - (am.holders n).card }) :=
    h.congr (update_agree am n fun _ => rfl)
  exact hupdate.congr fun _ => rfl

theorem leaveNew_indexed {am : CAddrMan} (h : Indexed am) (n : ℤ) : Indexed (am.leaveNew n) := by
  have hupdate : Indexed (am.update n fun info =>
      { info with nRefCount := info.nRefCount - (am.holders n).card }) :=
    h.congr rfl rfl rfl (update_agree am n fun _ => rfl)
  exact hupdate.congr rfl rfl rfl fun _ => rfl

/-- An entry that is in no bucket is marked as tried and put in its bucket there. -/
theorem enter_sound {am am' : CAddrMan} {n : ℤ} (hindex : Indexed am) (htimed : Timed am)
    (hplaced : Placed Hash (some n) am) {info : CAddrInfo} (hinfo : am.mapInfo[n]? = some info)
    (hfalse : info.fInTried = false) (href : info.nRefCount = 0)
    (hsuccess : info.nLastSuccess ≠ 0) (hholders : am.holders n = ∅)
    (hself : am' = { am.update n fun info => { info with fInTried := true } with
      vvTried := am'.vvTried, nTried := am'.nTried })
    (htried : ∀ c, c ≠ info.getTriedBucket Hash am.nKey → am'.vvTried c = am.vvTried c)
    (hperm : (am'.vvTried (info.getTriedBucket Hash am.nKey)).Perm
      (n :: am.vvTried (info.getTriedBucket Hash am.nKey)))
    (hsize : (am'.vvTried (info.getTriedBucket Hash am.nKey)).length ≤ ADDRMAN_TRIED_BUCKET_SIZE)
    (hcounted : Counted am') : Sound Hash none am' := by
  let mark := fun info : CAddrInfo => { info with fInTried := true }
  have hlookup : ∀ m : ℤ, am'.mapInfo[m]? = (am.update n mark).mapInfo[m]? := by
    intro m
    rw [hself]
  have hmark : am'.mapInfo[n]? = some (mark info) := by
    rw [hlookup, update_lookup, if_pos rfl, hinfo]
    rfl
  have hkey : am'.nKey = am.nKey := by
    rw [hself]
    rfl
  refine ⟨?_, ?_, ?_, hcounted⟩
  · have hupdate : Indexed (am.update n mark) :=
      hindex.congr rfl rfl rfl (update_agree am n fun _ => rfl)
    rw [hself]
    exact hupdate.congr rfl rfl rfl fun _ => rfl
  · intro m info' hm
    by_cases hne : n = m
    · subst hne
      rw [hmark] at hm
      cases hm
      obtain ⟨htry, hlast, -⟩ := htimed n info hinfo
      exact ⟨htry, hlast, fun _ => hsuccess⟩
    · rw [hlookup, update_lookup, if_neg hne] at hm
      exact htimed m info' hm
  · refine hplaced.enter (hplaced.not_tried hinfo hfalse) hholders hkey ?_ ?_ htried hperm hsize
      hmark rfl href ?_
    · intro m hne
      rw [hlookup, update_lookup, if_neg hne]
    · rw [hself]
      rfl
    · rw [hkey]
      rfl

theorem Timed.update {am : CAddrMan} (h : Timed am) (n : ℤ) {f : CAddrInfo → CAddrInfo}
    (hf : ∀ info, am.mapInfo[n]? = some info → 0 ≤ (f info).nLastTry.toInt ∧
      0 ≤ (f info).nLastSuccess.toInt ∧
      ((f info).fInTried = true → (f info).nLastSuccess ≠ 0)) : Timed (am.update n f) := by
  intro m info hm
  rw [update_lookup] at hm
  split_ifs at hm with hne
  · subst hne
    obtain ⟨info', hinfo', rfl⟩ := Option.map_eq_some_iff.mp hm
    exact hf info' hinfo'
  · exact h m info hm

/-- The entry that is replaced goes to a new bucket: the manager without it in its tried
bucket. -/
theorem evict_spec {am : CAddrMan} {n nOld : ℤ} (hindex : Indexed am) (htimed : Timed am)
    (hplaced : Placed Hash (some n) am) {k : TriedBucket} (hold : nOld ∈ am.vvTried k)
    (hne : nOld ≠ n) {o : NewBucket} (hroom : (am.vvNew o).size < ADDRMAN_NEW_BUCKET_SIZE) :
    ∃ am' mapInfo vvNew, am.evict Hash nOld o = some am' ∧
      am' = { am with mapInfo := mapInfo, vvNew := vvNew, nNew := am.nNew + 1 } ∧
      am'.mapInfo[n]? = am.mapInfo[n]? ∧ am'.holders n = am.holders n ∧
      (let am2 := { am' with
         vvTried := Function.update am.vvTried k ((am.vvTried k).erase nOld) }
       Indexed am2 ∧ Timed am2 ∧ Placed Hash (some n) am2) := by
  obtain ⟨infoOld, hinfoOld, htrue, hk⟩ := hplaced.tried_mem k nOld hold
  let back := fun info : CAddrInfo => { info with fInTried := false, nRefCount := 1 }
  obtain ⟨b, hb, hsize⟩ : ∃ b : NewBucket,
      (if (am.vvNew (infoOld.getNewBucket Hash am.nKey infoOld.source)).size <
        ADDRMAN_NEW_BUCKET_SIZE then infoOld.getNewBucket Hash am.nKey infoOld.source else o) = b ∧
      (am.vvNew b).size < ADDRMAN_NEW_BUCKET_SIZE := by
    split_ifs with hown
    · exact ⟨_, rfl, hown⟩
    · exact ⟨o, rfl, hroom⟩
  have hself : (am.update nOld back).mapInfo[nOld]? = some (back infoOld) := by
    rw [update_lookup, if_pos rfl, hinfoOld]
    rfl
  have hother : ∀ m : ℤ, nOld ≠ m → (am.update nOld back).mapInfo[m]? = am.mapInfo[m]? := by
    intro m hm
    rw [update_lookup, if_neg hm]
  let vvNew := Function.update am.vvNew b ((am.vvNew b).insert nOld)
  let am' := { am.update nOld back with vvNew := vvNew, nNew := am.nNew + 1 }
  have hrun : am.evict Hash nOld o = some am' := by
    have hb' : (if ((am.update nOld back).vvNew
        (infoOld.getNewBucket Hash am.nKey infoOld.source)).size < ADDRMAN_NEW_BUCKET_SIZE then
        infoOld.getNewBucket Hash am.nKey infoOld.source else o) = b := hb
    simp only [evict, hinfoOld, Option.bind_eq_bind, Option.bind_some]
    rw [show (fun info : CAddrInfo => { info with fInTried := false, nRefCount := 1 }) = back from
      rfl, hb']
    rfl
  refine ⟨am', (am.update nOld back).mapInfo, vvNew, hrun, rfl, hother n hne, ?_, ?_, ?_, ?_⟩
  · ext c
    rw [mem_holders, mem_holders]
    show n ∈ Function.update am.vvNew b ((am.vvNew b).insert nOld) c ↔ _
    by_cases hc : c = b
    · subst hc
      rw [Function.update_self, mem_set_insert]
      simp [hne]
    · rw [Function.update_of_ne hc]
  · have hupdate : Indexed (am.update nOld back) :=
      hindex.congr rfl rfl rfl (update_agree am nOld fun _ => rfl)
    exact hupdate.congr rfl rfl rfl fun _ => rfl
  · have hupdate : Timed (am.update nOld back) :=
      htimed.update nOld fun info hinfo =>
        ⟨(htimed nOld info hinfo).1, (htimed nOld info hinfo).2.1, fun h => by cases h⟩
    exact hupdate
  · refine hplaced.join ?_ ?_ ?_ ?_ ?_ (hplaced.not_new hold b) hsize hself rfl ?_ ?_
    · rfl
    · intro m hm
      show (am.update nOld back).mapInfo[m]?.map placeView = _
      rw [hother m hm]
    · exact fun m _ hm => hm
    · intro c
      by_cases hc : c = k
      · subst hc
        show (Function.update am.vvTried c _ c).Perm _
        rw [Function.update_self]
      · show (Function.update am.vvTried k _ c).Perm _
        rw [Function.update_of_ne hc,
          List.erase_of_not_mem fun hmem => hc (hplaced.tried_inj hmem hold)]
    · rfl
    · have hempty : am.holders nOld = ∅ := by
        ext c
        rw [mem_holders]
        simpa using hplaced.not_new hold c
      rw [hempty]
      rfl
    · show (1 : ℤ) ≤ 4
      omega

/-- An entry that leaves a bucket makes place in it. -/
theorem leaveNew_room {am : CAddrMan} {n : ℤ} {o : NewBucket} (hn : n ∈ am.vvNew o)
    (hsize : (am.vvNew o).size ≤ ADDRMAN_NEW_BUCKET_SIZE) :
    ((am.leaveNew n).vvNew o).size < ADDRMAN_NEW_BUCKET_SIZE := by
  show ((am.vvNew o).erase n).size < ADDRMAN_NEW_BUCKET_SIZE
  have hpos : 0 < (am.vvNew o).size := by
    rw [← Std.TreeSet.length_toList]
    exact List.length_pos_of_mem (Std.TreeSet.mem_toList.mpr hn)
  rw [Std.TreeSet.size_erase, if_pos (Std.TreeSet.contains_iff_mem.mpr hn)]
  omega

/-- The counters fit when one tried bucket has changed and nTried with it. -/
theorem counted_change {am am' : CAddrMan} {k : TriedBucket}
    (htried : am.nTried = ∑ b, ((am.vvTried b).length : ℤ))
    (hother : ∀ c, c ≠ k → am'.vvTried c = am.vvTried c)
    (hn : am'.nTried + (am.vvTried k).length = am.nTried + (am'.vvTried k).length)
    (htotal : am'.nTried + am'.nNew = (am'.vRandom.length : ℤ)) : Counted am' := by
  have hsum := sum_length_change am.vvTried am'.vvTried k hother
  refine ⟨?_, htotal⟩
  omega

variable (Hash) in
/-- The manager when the entry has left the new buckets for a tried one. -/
structure Left (n : ℤ) (info : CAddrInfo) (am : CAddrMan) : Prop where
  indexed : Indexed am
  timed : Timed am
  placed : Placed Hash (some n) am
  entry : am.mapInfo[n]? = some info
  new : info.fInTried = false
  unheld : info.nRefCount = 0
  success : info.nLastSuccess ≠ 0
  holders : am.holders n = ∅
  tried : am.nTried = ∑ b, ((am.vvTried b).length : ℤ)
  total : am.nTried + am.nNew + 1 = (am.vRandom.length : ℤ)

theorem Sound.left {am : CAddrMan} (h : Sound Hash none am) {n : ℤ} {info : CAddrInfo}
    (hinfo : am.mapInfo[n]? = some info) (hfalse : info.fInTried = false)
    (hsuccess : info.nLastSuccess ≠ 0) :
    Left Hash n { info with nRefCount := 0 } (am.leaveNew n) := by
  obtain ⟨hplaced, hholders, hself⟩ := h.placed.leaveNew hinfo hfalse
  refine ⟨leaveNew_indexed h.indexed n, leaveNew_timed h.timed n, hplaced, hself, hfalse, rfl,
    hsuccess, hholders, h.counted.tried, ?_⟩
  have htotal := h.counted.total
  show am.nTried + (am.nNew - 1) + 1 = (am.vRandom.length : ℤ)
  omega

section Entering

variable {am : CAddrMan} {n : ℤ} {info : CAddrInfo} {k : TriedBucket}

/-- The entry is put in a tried bucket that has room. -/
theorem Left.append (h : Left Hash n info am) (hk : info.getTriedBucket Hash am.nKey = k)
    (hfits : (am.vvTried k).length < ADDRMAN_TRIED_BUCKET_SIZE) :
    Sound Hash none ({ am with
      vvTried := Function.update am.vvTried k (am.vvTried k ++ [n])
      nTried := am.nTried + 1 }.update n fun info => { info with fInTried := true }) := by
  subst hk
  have hother : ∀ c, c ≠ info.getTriedBucket Hash am.nKey →
      Function.update am.vvTried (info.getTriedBucket Hash am.nKey)
        (am.vvTried (info.getTriedBucket Hash am.nKey) ++ [n]) c = am.vvTried c :=
    fun c hc => Function.update_of_ne hc ..
  refine enter_sound h.indexed h.timed h.placed h.entry h.new h.unheld h.success h.holders rfl
    hother ?_ ?_ (counted_change h.tried hother ?_ ?_)
  · show (Function.update am.vvTried _ _ _).Perm _
    rw [Function.update_self]
    exact List.perm_append_singleton n _
  · show (Function.update am.vvTried _ _ _).length ≤ _
    rw [Function.update_self, List.length_append, List.length_singleton]
    omega
  · show am.nTried + 1 + _ = am.nTried + ((Function.update am.vvTried _ _ _).length : ℤ)
    rw [Function.update_self, List.length_append, List.length_singleton]
    omega
  · have htotal := h.total
    show am.nTried + 1 + am.nNew = (am.vRandom.length : ℤ)
    omega

/-- The entry takes the place of one of a full tried bucket. -/
theorem Left.replace (h : Left Hash n info am) (hk : info.getTriedBucket Hash am.nKey = k)
    (hfull : 0 < (am.vvTried k).length) {o : NewBucket}
    (hroom : (am.vvNew o).size < ADDRMAN_NEW_BUCKET_SIZE) (rnd : ℕ → ℕ) :
    ∃ vTried nPos nOld am', am.selectTried k rnd = some (vTried, nPos) ∧ 0 ≤ nPos ∧
      vTried[nPos.toNat]? = some nOld ∧ am.evict Hash nOld o = some am' ∧
      Sound Hash none ({ am' with
        vvTried := Function.update am'.vvTried k (vTried.set nPos.toNat n) }.update n
          fun info => { info with fInTried := true }) := by
  have hall : ∀ m ∈ am.vvTried k, ∃ info, am.mapInfo[m]? = some info := by
    intro m hm
    obtain ⟨info, hinfo, -⟩ := h.placed.tried_mem k m hm
    exact ⟨info, hinfo⟩
  obtain ⟨vTried, nPos, nOld, hselect, hpos, hat, hold, hperm⟩ := selectTried_spec rnd n hall hfull
  have hne : nOld ≠ n := by
    rintro rfl
    exact h.placed.not_tried h.entry h.new k hold
  obtain ⟨am', mapInfo, vvNew, hevict, hframe, hentry, hholders, hindex, htimed, hplaced⟩ :=
    evict_spec h.indexed h.timed h.placed hold hne hroom
  refine ⟨vTried, nPos, nOld, am', hselect, hpos, hat, hevict, ?_⟩
  have hvv : am'.vvTried = am.vvTried := by rw [hframe]
  have hlen : (vTried.set nPos.toNat n).length = (am.vvTried k).length := by
    rw [hperm.length_eq, List.length_cons, List.length_erase_of_mem hold]
    omega
  have hk' : info.getTriedBucket Hash am'.nKey = k := by
    rw [hframe]
    exact hk
  have hother : ∀ c, c ≠ k →
      Function.update am'.vvTried k (vTried.set nPos.toNat n) c = am.vvTried c := by
    intro c hc
    rw [Function.update_of_ne hc, hvv]
  refine enter_sound hindex htimed hplaced (hentry.trans h.entry) h.new h.unheld h.success
    (hholders.trans h.holders) rfl ?_ ?_ ?_ (counted_change h.tried hother ?_ ?_)
  · intro c hc
    rw [hk'] at hc
    exact (hother c hc).trans (Function.update_of_ne hc ..).symm
  · dsimp only
    rw [hk']
    show (Function.update am'.vvTried k _ k).Perm (n :: Function.update am.vvTried k _ k)
    rw [Function.update_self, Function.update_self]
    exact hperm
  · dsimp only
    rw [hk']
    show (Function.update am'.vvTried k _ k).length ≤ _
    rw [Function.update_self, hlen]
    exact h.placed.tried_size k
  · show am'.nTried + _ = am.nTried + ((Function.update am'.vvTried k _ k).length : ℤ)
    rw [Function.update_self, hlen, hframe]
  · have htotal := h.total
    rw [hframe]
    show am.nTried + (am.nNew + 1) = (am.vRandom.length : ℤ)
    omega

end Entering

theorem Sound.makeTried {am : CAddrMan} (h : Sound Hash none am) {n : ℤ} {o : NewBucket}
    (hn : n ∈ am.vvNew o) {info : CAddrInfo} (hinfo : am.mapInfo[n]? = some info)
    (hfalse : info.fInTried = false) (hsuccess : info.nLastSuccess ≠ 0) (rnd : ℕ → ℕ) :
    ∃ am', am.makeTried Hash n o rnd = some am' ∧ Sound Hash none am' := by
  have hleft := h.left hinfo hfalse hsuccess
  have hroom := leaveNew_room hn (h.placed.new_size o)
  unfold CAddrMan.makeTried
  rw [if_neg (not_not.mpr hn)]
  simp only [hleft.entry, Option.bind_eq_bind, Option.bind_some]
  rw [if_neg (by simp)]
  generalize hk : CAddrInfo.getTriedBucket Hash { info with nRefCount := 0 }
    (am.leaveNew n).nKey = k
  by_cases hfits : ((am.leaveNew n).vvTried k).length < ADDRMAN_TRIED_BUCKET_SIZE
  · rw [if_pos hfits]
    exact ⟨_, rfl, hleft.append hk hfits⟩
  · rw [if_neg hfits]
    have hfull : 0 < ((am.leaveNew n).vvTried k).length := by
      unfold ADDRMAN_TRIED_BUCKET_SIZE at hfits
      omega
    obtain ⟨vTried, nPos, nOld, am', hselect, hpos, hat, hevict, hsound⟩ :=
      hleft.replace hk hfull hroom rnd
    simp only [hselect, Option.bind_some]
    rw [if_neg (by omega)]
    simp only [hat, hevict, Option.bind_some]
    exact ⟨_, rfl, hsound⟩

end Trying

section Calls

variable {Hash : List Byte → Uint256}

theorem Sound.good_ {am : CAddrMan} (h : Sound Hash none am) (addr : CService)
    {nTime : BitVec 64} (htime : 0 < nTime.toInt) (rnd : ℕ → ℕ) :
    ∃ am', am.good_ Hash addr nTime rnd = some am' ∧ Sound Hash none am' := by
  unfold CAddrMan.good_
  cases hfind : am.find addr.toCNetAddr with
  | none => exact ⟨am, rfl, h⟩
  | some found =>
    obtain ⟨n, info⟩ := found
    have hinfo := find_some hfind
    dsimp only
    by_cases hservice : info.toCService ≠ addr
    · exact ⟨am, if_pos hservice, h⟩
    rw [if_neg hservice]
    let seen := fun info : CAddrInfo => { info with
      nLastSuccess := nTime, nLastTry := nTime, nTime := nTime.setWidth 32, nAttempts := 0 }
    have hne : nTime ≠ 0 := by
      intro hzero
      rw [hzero] at htime
      simp at htime
    have hsound : Sound Hash none (am.update n seen) :=
      h.touch n (fun _ => rfl) (fun _ => rfl)
        (h.timed.update n fun _ _ => ⟨le_of_lt htime, le_of_lt htime, fun _ => hne⟩)
    by_cases hin : info.fInTried = true
    · exact ⟨am.update n seen, if_pos hin, hsound⟩
    · rw [if_neg hin]
      have hself : (am.update n seen).mapInfo[n]? = some (seen info) := by
        rw [update_lookup, if_pos rfl, hinfo]
        rfl
      cases hbucket : (am.update n seen).findBucket n
          (getRandInt ADDRMAN_NEW_BUCKET_COUNT (rnd 0)) with
      | none => exact ⟨am.update n seen, rfl, hsound⟩
      | some b =>
        have hb := List.find?_some hbucket
        obtain ⟨am', hrun, hsound'⟩ := hsound.makeTried
          (Std.TreeSet.contains_iff_mem.mp hb) hself (by simpa using hin) hne fun i => rnd (i + 1)
        exact ⟨am', hrun, hsound'⟩

theorem Sound.attempt_ {am : CAddrMan} (h : Sound Hash none am) (addr : CService)
    {nTime : BitVec 64} (htime : 0 < nTime.toInt) : Sound Hash none (am.attempt_ addr nTime) := by
  unfold CAddrMan.attempt_
  cases hfind : am.find addr.toCNetAddr with
  | none => exact h
  | some found =>
    obtain ⟨n, info⟩ := found
    dsimp only
    split_ifs
    · exact h
    · refine h.touch n ?_ ?_ (h.timed.update n ?_)
      · exact fun _ => rfl
      · exact fun _ => rfl
      · intro info' hinfo'
        obtain ⟨-, hlast, hsuccess⟩ := h.timed n info' hinfo'
        exact ⟨le_of_lt htime, hlast, hsuccess⟩

theorem Sound.connected_ {am : CAddrMan} (h : Sound Hash none am) (addr : CService)
    (nTime : BitVec 64) : Sound Hash none (am.connected_ addr nTime) := by
  unfold CAddrMan.connected_
  cases hfind : am.find addr.toCNetAddr with
  | none => exact h
  | some found =>
    obtain ⟨n, info⟩ := found
    dsimp only
    split_ifs
    · exact h
    · apply h.touch n
      · intro info
        split_ifs <;> rfl
      · intro info
        split_ifs <;> rfl
      · apply h.timed.congr
        apply update_agree
        intro info
        split_ifs <;> rfl

theorem Sound.reordered {am am' : CAddrMan} (h : Sound Hash none am) (hindex : Indexed am')
    (hreorder : Reordered am am') : Sound Hash none am' := by
  have hframe := hreorder.frame
  have hlength := hreorder.length
  have hagree := hreorder.agree
  refine ⟨hindex, h.timed.congr (hagree.mono fun _ _ => unplaced_time), ?_, ?_⟩
  · apply h.placed.congr _ _ _ (hagree.mono fun _ _ => unplaced_place)
    all_goals rw [hframe]
  · constructor
    · rw [hframe]
      exact h.counted.tried
    · rw [hlength, hframe]
      exact h.counted.total

theorem Sound.getAddrLoop {am : CAddrMan} (h : Sound Hash none am) (rnd : ℕ → ℕ) (k n : ℕ)
    (hrounds : n + k ≤ am.vRandom.length) (vAddr : List CAddress) :
    ∃ am' vAddr', CAddrMan.getAddrLoop rnd k n am vAddr = some (am', vAddr') ∧
      Sound Hash none am' := by
  induction k generalizing am n vAddr with
  | zero => exact ⟨am, vAddr, rfl, h⟩
  | succ k ih =>
    have hn : n < am.vRandom.length := by omega
    have hpos : getRandInt (am.vRandom.length - n) (rnd n) + n < am.vRandom.length := by
      have hlt := getRandInt_lt (show 0 < am.vRandom.length - n by omega) (rnd n)
      omega
    obtain ⟨am2, hswap, hindex, hreorder, -⟩ := h.indexed.swapRandom hn hpos
    have hlength := hreorder.length
    have hn2 : n < am2.vRandom.length := by omega
    obtain ⟨info, hinfo, -⟩ := hindex.rnd n _ (List.getElem?_eq_getElem hn2)
    obtain ⟨am', vAddr', hrun, hsound⟩ := ih (h.reordered hindex hreorder) (n + 1) (by omega)
      (vAddr ++ [info.toCAddress])
    refine ⟨am', vAddr', ?_, hsound⟩
    simp only [CAddrMan.getAddrLoop, hswap, List.getElem?_eq_getElem hn2, hinfo,
      Option.bind_eq_bind, Option.bind_some]
    exact hrun

theorem Sound.getAddr_ {am : CAddrMan} (h : Sound Hash none am) (rnd : ℕ → ℕ) :
    ∃ am' vAddr, am.getAddr_ rnd = some (am', vAddr) ∧ Sound Hash none am' := by
  apply h.getAddrLoop
  unfold ADDRMAN_GETADDR_MAX_PCT
  omega

/-- The loops of Select_ find an entry for every id that is in a bucket. -/
theorem selectLoop_some {am : CAddrMan} {m : ℕ} [NeZero m] {buckets : Fin m → List ℤ}
    (hall : ∀ b, ∀ n ∈ buckets b, ∃ info, am.mapInfo[n]? = some info)
    (draws : List (ℕ × ℕ × Bool)) : ∃ r, am.selectLoop buckets draws = some r := by
  induction draws with
  | nil => exact ⟨none, rfl⟩
  | cons draw draws ih =>
    obtain ⟨nBucket, nPos, fTake⟩ := draw
    rw [selectLoop]
    split_ifs with hempty htake
    · exact ih
    · have hpos := getRandInt_lt (Nat.pos_of_ne_zero hempty) nPos
      obtain ⟨info, hinfo⟩ := hall _ _ (List.getElem_mem hpos)
      rw [List.getElem?_eq_getElem hpos]
      exact ⟨some info, by rw [Option.bind_eq_bind, Option.bind_some, hinfo]; rfl⟩
    · have hpos := getRandInt_lt (Nat.pos_of_ne_zero hempty) nPos
      obtain ⟨info, hinfo⟩ := hall _ _ (List.getElem_mem hpos)
      obtain ⟨r, hr⟩ := ih
      rw [List.getElem?_eq_getElem hpos]
      exact ⟨r, by rw [Option.bind_eq_bind, Option.bind_some, hinfo]; exact hr⟩

theorem Sound.select_ {am : CAddrMan} (h : Sound Hash none am) (fTried : Bool)
    (draws : List (ℕ × ℕ × Bool)) : ∃ r, am.select_ fTried draws = some r := by
  have htried := @selectLoop_some am 64 _ am.vvTried (fun b n hn => by
    obtain ⟨info, hinfo, -⟩ := h.placed.tried_mem b n hn
    exact ⟨info, hinfo⟩) draws
  have hnew := @selectLoop_some am 256 _ (fun b => (am.vvNew b).toList) (fun b n hn => by
    obtain ⟨info, hinfo, -⟩ := h.placed.new_mem b n (Std.TreeSet.mem_toList.mp hn)
    exact ⟨info, hinfo⟩) draws
  unfold CAddrMan.select_
  split_ifs
  · exact ⟨_, rfl⟩
  · obtain ⟨r, hrun⟩ := htried
    exact ⟨r.map CAddrInfo.toCAddress, by rw [hrun]; rfl⟩
  · obtain ⟨r, hrun⟩ := hnew
    exact ⟨r.map CAddrInfo.toCAddress, by rw [hrun]; rfl⟩

/-- The times that are passed to the operations are positive. -/
def Call.TimesPositive : Call → Prop
  | .good _ nTime _ => 0 < nTime.toInt
  | .attempt _ nTime => 0 < nTime.toInt
  | .connected _ nTime => 0 < nTime.toInt
  | _ => True

/-- An operation, as long as no assertion has failed. -/
def step (Hash : List Byte → Uint256) (s : Option CAddrMan) (call : Call) : Option CAddrMan :=
  s.bind fun am => am.perform Hash call

/-- Where the operation creates an entry, the count of ids can go up. -/
def Call.Counts (s : Option CAddrMan) : Call → Prop
  | .add addr _ _ _ _ =>
      ∀ am, s = some am → addr.isRoutable = true → am.find addr.toCNetAddr = none →
        am.nIdCount.toInt + 1 < 2 ^ 31
  | _ => True

theorem Sound.perform {am : CAddrMan} (h : Sound Hash none am) {call : Call}
    (hcall : call.TimesPositive) (hcounts : call.Counts (some am)) :
    ∃ am', am.perform Hash call = some am' ∧ Sound Hash none am' := by
  cases call with
  | add addr source nTimePenalty nNow rnd =>
    obtain ⟨am', fNew, hrun, hsound⟩ := h.add_ addr source nTimePenalty nNow rnd (hcounts am rfl)
    exact ⟨am', by simp [CAddrMan.perform, hrun], hsound⟩
  | good addr nTime rnd => exact h.good_ addr hcall rnd
  | attempt addr nTime => exact ⟨_, rfl, h.attempt_ addr hcall⟩
  | connected addr nTime => exact ⟨_, rfl, h.connected_ addr nTime⟩
  | select fTried draws =>
    obtain ⟨r, hrun⟩ := h.select_ fTried draws
    exact ⟨am, by simp [CAddrMan.perform, hrun], h⟩
  | getAddr rnd =>
    obtain ⟨am', vAddr, hrun, hsound⟩ := h.getAddr_ rnd
    exact ⟨am', by simp [CAddrMan.perform, hrun], hsound⟩

/-- The managers that no failed assertion has stopped, in order. -/
def SoundState (Hash : List Byte → Uint256) (s : Option CAddrMan) : Prop :=
  ∃ am, s = some am ∧ Sound Hash none am

theorem Sound.run {am : CAddrMan} (h : Sound Hash none am) {calls : List Call}
    (hcalls : ∀ call ∈ calls, call.TimesPositive)
    (hcounts : EachStep (step Hash) (fun s call => call.Counts s) (some am) calls) :
    Throughout (step Hash) (SoundState Hash) (some am) calls := by
  induction calls generalizing am with
  | nil => exact ⟨am, rfl, h⟩
  | cons call calls ih =>
    obtain ⟨hfirst, hrest⟩ := hcounts
    obtain ⟨am', hrun, hsound⟩ := h.perform (hcalls call (List.mem_cons_self ..)) hfirst
    have hstep : step Hash (some am) call = some am' := hrun
    rw [hstep] at hrest
    refine ⟨⟨am, rfl, h⟩, ?_⟩
    rw [hstep]
    exact ih hsound (fun c hc => hcalls c (List.mem_cons_of_mem call hc)) hrest

end Calls

section Consistency

variable {Hash : List Byte → Uint256}

theorem mem_setTried (am : CAddrMan) (n : ℤ) :
    n ∈ am.setTried ↔ ∃ info, am.mapInfo[n]? = some info ∧ info.fInTried = true := by
  simp only [setTried, List.mem_map, List.mem_filter, Prod.exists,
    Std.TreeMap.mem_toList_iff_getElem?_eq_some, exists_eq_right, exists_and_right]

theorem ids_nodup (am : CAddrMan) : (am.mapInfo.toList.map Prod.fst).Nodup := by
  rw [Std.TreeMap.map_fst_toList_eq_keys]
  exact Std.TreeMap.nodup_keys

theorem setTried_nodup (am : CAddrMan) : am.setTried.Nodup :=
  am.ids_nodup.sublist (List.filter_sublist.map _)

theorem mem_triedIds (am : CAddrMan) (n : ℤ) : n ∈ am.triedIds ↔ ∃ b, n ∈ am.vvTried b := by
  simp [triedIds]

theorem triedIds_length (am : CAddrMan) :
    (am.triedIds.length : ℤ) = ∑ b, ((am.vvTried b).length : ℤ) := by
  rw [triedIds, List.length_flatMap, Fin.sum_univ_def]
  push_cast
  rw [List.map_map]
  rfl

theorem toList_nodup (s : Std.TreeSet ℤ) : s.toList.Nodup :=
  (Std.TreeSet.distinct_toList).imp Std.ReflCmp.ne_of_cmp_ne_eq

/-- How many new buckets hold an entry. -/
theorem newIds_count (am : CAddrMan) (n : ℤ) : am.newIds.count n = (am.holders n).card := by
  have hone : ∀ b, (am.vvNew b).toList.count n = if n ∈ am.vvNew b then 1 else 0 := by
    intro b
    have hnodup := toList_nodup (am.vvNew b)
    split_ifs with hn
    · exact List.count_eq_one_of_mem hnodup (Std.TreeSet.mem_toList.mpr hn)
    · exact List.count_eq_zero_of_not_mem fun h => hn (Std.TreeSet.mem_toList.mp h)
  rw [newIds, List.count_flatMap, holders, Finset.card_filter, Fin.sum_univ_def]
  congr 1
  apply List.map_congr_left
  intro b _
  exact hone b

/-- The entries are in their buckets, however large these are. -/
structure Filed (Hash : List Byte → Uint256) (am : CAddrMan) : Prop where
  tried_mem : ∀ b, ∀ n ∈ am.vvTried b, ∃ info, am.mapInfo[n]? = some info ∧
    info.fInTried = true ∧ info.getTriedBucket Hash am.nKey = b
  tried_nodup : ∀ b, (am.vvTried b).Nodup
  tried_entry : ∀ (n : ℤ) info, am.mapInfo[n]? = some info → info.fInTried = true →
    n ∈ am.vvTried (info.getTriedBucket Hash am.nKey) ∧ info.nRefCount = 0
  new_mem : ∀ b, ∀ n ∈ am.vvNew b, ∃ info, am.mapInfo[n]? = some info ∧ info.fInTried = false
  new_entry : ∀ (n : ℤ) info, am.mapInfo[n]? = some info → info.fInTried = false →
    info.nRefCount = (am.holders n).card ∧ 1 ≤ info.nRefCount ∧
      info.nRefCount ≤ ADDRMAN_NEW_BUCKETS_PER_ADDRESS

theorem Placed.filed {am : CAddrMan} (h : Placed Hash none am) : Filed Hash am :=
  ⟨h.tried_mem, h.tried_nodup, h.tried_entry, h.new_mem,
    fun n info hinfo hin => h.new_entry n info hinfo hin (by simp)⟩

theorem Filed.triedIds_perm {am : CAddrMan} (h : Filed Hash am) :
    am.triedIds.Perm am.setTried := by
  have hnodup : am.triedIds.Nodup := by
    rw [triedIds, List.nodup_flatMap]
    refine ⟨fun b _ => h.tried_nodup b, ?_⟩
    apply (List.nodup_finRange _).imp
    intro b c hbc n hb hc
    obtain ⟨info, hinfo, -, hb'⟩ := h.tried_mem b n hb
    obtain ⟨info', hinfo', -, hc'⟩ := h.tried_mem c n hc
    rw [hinfo] at hinfo'
    cases hinfo'
    exact hbc (hb'.symm.trans hc')
  rw [List.perm_ext_iff_of_nodup hnodup (setTried_nodup am)]
  intro n
  rw [mem_triedIds, mem_setTried]
  constructor
  · intro hn
    obtain ⟨b, hb⟩ := hn
    obtain ⟨info, hinfo, hin, -⟩ := h.tried_mem b n hb
    exact ⟨info, hinfo, hin⟩
  · intro hn
    obtain ⟨info, hinfo, hin⟩ := hn
    exact ⟨_, (h.tried_entry n info hinfo hin).1⟩

theorem Indexed.nodup {am : CAddrMan} (h : Indexed am) : am.vRandom.Nodup := by
  rw [List.nodup_iff_getElem?_ne_getElem?]
  intro i j hij hj heq
  obtain ⟨n, hn⟩ : ∃ n, am.vRandom[j]? = some n := ⟨_, List.getElem?_eq_getElem hj⟩
  rw [hn] at heq
  obtain ⟨info, hinfo, hi⟩ := h.rnd i n heq
  obtain ⟨info', hinfo', hj'⟩ := h.rnd j n hn
  rw [hinfo] at hinfo'
  cases hinfo'
  omega

/-- There are no more entries than ids were counted. -/
theorem Indexed.length_le {am : CAddrMan} (h : Indexed am) :
    (am.vRandom.length : ℤ) ≤ am.nIdCount.toInt := by
  have hrange : ∀ n ∈ am.vRandom, 0 ≤ n ∧ n < am.nIdCount.toInt := by
    intro n hn
    obtain ⟨k, hk⟩ := List.mem_iff_getElem?.mp hn
    obtain ⟨info, hinfo, -⟩ := h.rnd k n hk
    exact h.fresh n info hinfo
  have hnodup : (am.vRandom.map Int.toNat).Nodup := by
    apply h.nodup.map_on
    intro n hn m hm heq
    have hn' := (hrange n hn).1
    have hm' := (hrange m hm).1
    omega
  have hsub : am.vRandom.map Int.toNat ⊆ List.range am.nIdCount.toInt.toNat := by
    intro k hk
    obtain ⟨n, hn, rfl⟩ := List.mem_map.mp hk
    have hlt := hrange n hn
    rw [List.mem_range]
    omega
  have hle := (hnodup.subperm hsub).length_le
  rw [List.length_map, List.length_range] at hle
  have hcount := h.count
  omega

theorem Indexed.size {am : CAddrMan} (h : Indexed am) : am.mapInfo.size = am.vRandom.length := by
  have hperm : am.mapInfo.keys.Perm am.vRandom := by
    rw [List.perm_ext_iff_of_nodup Std.TreeMap.nodup_keys h.nodup]
    intro n
    rw [Std.TreeMap.mem_keys, Std.TreeMap.mem_iff_isSome_getElem?, Option.isSome_iff_exists]
    constructor
    · intro hn
      obtain ⟨info, hinfo⟩ := hn
      exact List.mem_of_getElem? (h.pos n info hinfo).2
    · intro hn
      obtain ⟨k, hk⟩ := List.mem_iff_getElem?.mp hn
      obtain ⟨info, hinfo, -⟩ := h.rnd k n hk
      exact ⟨info, hinfo⟩
  rw [← Std.TreeMap.length_keys, hperm.length_eq]

/-- The entries are the tried and the others. -/
theorem size_split (am : CAddrMan) : am.setTried.length + am.mapNew.size = am.mapInfo.size := by
  have htried : am.setTried.length = am.mapInfo.toList.countP fun e => e.2.fInTried := by
    rw [setTried, List.length_map, List.countP_eq_length_filter]
  have hnew : am.mapNew.size = am.mapInfo.toList.countP fun e => !e.2.fInTried := by
    rw [← Std.TreeMap.length_toList, mapNew, Std.TreeMap.toList_filterMap,
      List.length_filterMap_eq_countP]
    apply List.countP_congr
    intro e _
    cases e.2.fInTried <;> simp
  have hlength := List.length_eq_countP_add_countP (fun e : ℤ × CAddrInfo => e.2.fInTried)
    (l := am.mapInfo.toList)
  rw [htried, hnew, ← Std.TreeMap.length_toList, hlength]
  simp

/-- Check_ finds no error in a manager with its index, its places and its counters right. -/
theorem Filed.checked {am : CAddrMan} (h : Filed Hash am) (hindex : Indexed am)
    (htimed : Timed am) (hcount : Counted am) : Checked am := by
  have hperm := h.triedIds_perm
  have htried : (am.setTried.length : ℤ) = am.nTried := by
    rw [hcount.tried, ← triedIds_length, hperm.length_eq]
  have hsplit := size_split am
  have hsize := hindex.size
  have htotal := hcount.total
  have hfits : am.nTried + am.nNew < 2 ^ 31 := by
    have hle := hindex.length_le
    have hlt : am.nIdCount.toInt < 2 ^ 31 := BitVec.toInt_lt
    omega
  constructor
  · rw [BitVec.toInt_ofInt_eq_self (by decide) (by omega) (by simpa using hfits), htotal]
  · intro n info hinfo
    obtain ⟨htry, hlast, hsuccess⟩ := htimed n info hinfo
    refine ⟨?_, ?_, ?_, hindex.pos n info hinfo, htry, hlast⟩
    · intro hin
      exact ⟨hsuccess hin, (h.tried_entry n info hinfo hin).2⟩
    · intro hin
      exact (h.new_entry n info hinfo hin).2
    · rw [hindex.addr n info hinfo]
      rfl
  · exact htried
  · omega
  · exact hperm
  · intro n
    rw [newIds_count, mapNew_lookup]
    cases hinfo : am.mapInfo[n]? with
    | none =>
      have hempty : am.holders n = ∅ := by
        ext b
        rw [mem_holders]
        simp only [Finset.notMem_empty, iff_false]
        intro hb
        obtain ⟨info, hinfo', -⟩ := h.new_mem b n hb
        rw [hinfo] at hinfo'
        cases hinfo'
      rw [hempty]
      rfl
    | some info =>
      rw [Option.bind_some]
      cases hin : info.fInTried with
      | true =>
        have hempty : am.holders n = ∅ := by
          ext b
          rw [mem_holders]
          simp only [Finset.notMem_empty, iff_false]
          intro hb
          obtain ⟨info', hinfo', hin'⟩ := h.new_mem b n hb
          rw [hinfo] at hinfo'
          cases hinfo'
          simp [hin] at hin'
        rw [hempty]
        rfl
      | false => exact (h.new_entry n info hinfo hin).1.symm

theorem Sound.checked {am : CAddrMan} (h : Sound Hash none am) : Checked am :=
  h.placed.filed.checked h.indexed h.timed h.counted

/-- The manager is consistent: the maps and vRandom are inverse to each other, the counters are
right, each tried entry is in the tried buckets once and no other is, each new entry is in as
many new buckets as it has references and no other is in any, and no bucket is too large. -/
structure Consistent (am : CAddrMan) : Prop where
  indexed : Indexed am
  nTried : (am.setTried.length : ℤ) = am.nTried
  nNew : (am.mapNew.size : ℤ) = am.nNew
  tried_once : am.triedIds.Nodup
  tried_marked : ∀ n, n ∈ am.triedIds ↔ ∃ info, am.mapInfo[n]? = some info ∧ info.fInTried = true
  new_unmarked : ∀ b, ∀ n ∈ am.vvNew b, ∃ info, am.mapInfo[n]? = some info ∧
    info.fInTried = false
  references : ∀ (n : ℤ) info, am.mapInfo[n]? = some info → info.fInTried = false →
    0 < info.nRefCount ∧ info.nRefCount = (am.holders n).card
  tried_size : ∀ b, (am.vvTried b).length ≤ ADDRMAN_TRIED_BUCKET_SIZE
  new_size : ∀ b, (am.vvNew b).size ≤ ADDRMAN_NEW_BUCKET_SIZE

theorem Sound.consistent {am : CAddrMan} (h : Sound Hash none am) : Consistent am := by
  have hchecked := h.checked
  have hperm := hchecked.tried_once
  refine ⟨h.indexed, hchecked.tried_length, hchecked.new_size,
    hperm.symm.nodup (setTried_nodup am), ?_, h.placed.new_mem, ?_, h.placed.tried_size,
    h.placed.new_size⟩
  · intro n
    rw [hperm.mem_iff, mem_setTried]
  · intro n info hinfo hin
    obtain ⟨href, hone, -⟩ := h.placed.new_entry n info hinfo hin (by simp)
    exact ⟨by omega, href⟩

/-- After each operation of every sequence on an empty manager, whatever is drawn, no assertion has
failed, Check_ returns 0 and the manager is consistent, as long as the count of ids does not
overflow. -/
theorem run_consistent (Hash : List Byte → Uint256) (nKey : List Byte) (calls : List Call)
    (hcalls : ∀ call ∈ calls, call.TimesPositive)
    (hcounts : EachStep (step Hash) (fun s call => call.Counts s) (some (.init nKey)) calls) :
    Throughout (step Hash) (fun s => ∃ am, s = some am ∧ am.check_ = 0 ∧ Consistent am)
      (some (.init nKey)) calls := by
  apply ((init_sound Hash nKey).run hcalls hcounts).mono
  rintro s ⟨am, rfl, hsound⟩
  exact ⟨am, rfl, (check_eq_zero_iff am).mpr hsound.checked, hsound.consistent⟩

/-- An address in 1.2.0.0/16 that is heard of, connected to and asked for. -/
def peer : CAddress :=
  { ip := 0x04030201ffff00000000000000000000, port := 9333, nServices := 1, nTime := 1400000000
    nLastTry := 0 }

def peerCalls : List Call :=
  [.add peer peer.toCNetAddr 0 1400000100 id, .good peer.toCService 1400000200 id, .getAddr id,
    .select true [(0, 0, false), (0, 0, true)]]

theorem peerCalls_consistent :
    Throughout (step fun _ => 5) (fun s => ∃ am, s = some am ∧ am.check_ = 0 ∧ Consistent am)
      (some (.init [7])) peerCalls :=
  run_consistent (fun _ => 5) [7] peerCalls (by
    simp only [peerCalls, List.forall_mem_cons, List.not_mem_nil, false_implies, implies_true,
      and_true]
    exact ⟨trivial, show 0 < (1400000200 : BitVec 64).toInt by decide, trivial, trivial⟩)
    ⟨fun am ham _ _ => by obtain rfl := Option.some.inj ham; decide, trivial, trivial, trivial,
      trivial⟩

end Consistency

end CAddrMan

end UmbrellaLtc.AddrMan
