import UmbrellaLtc.Runs
import Mathlib.Data.List.AList
import Mathlib.Data.List.Sort
import Mathlib.Order.Defs.LinearOrder

/-!
The limited map of limitedmap.h, over any keys and ordered values. The iterators in rmap are the
keys that they point to. A failed assertion, and the first entry of an empty rmap, is `none`. The
size is compared with the limit for equality after the new entry is in map but before it is in
rmap, so that the map holds one entry less than the limit, and any number when the limit has been
lowered to its size.
-/

namespace UmbrellaLtc.LimitedMap

open Runs

structure limitedmap (K V : Type) where
  map : AList fun _ : K => V
  rmap : List (V × K)
  nMaxSize : ℕ

section Operations

variable {K V : Type} [DecidableEq K] [LinearOrder V]

/-- A multimap is sorted by its keys, and a new entry comes behind those with the same key. -/
def rmapInsert (v : V) (k : K) : List (V × K) → List (V × K)
  | [] => [(v, k)]
  | (w, j) :: rest => if v < w then (v, k) :: (w, j) :: rest else (w, j) :: rmapInsert v k rest

/-- The loop over the entries with one key, up to the one that points to an entry of map. -/
def rmapErase (v : V) (k : K) : List (V × K) → Option (List (V × K))
  | [] => none
  | (w, j) :: rest =>
      if w = v ∧ j = k then some rest else (rmapErase v k rest).map fun rest => (w, j) :: rest

namespace limitedmap

variable (m : limitedmap K V)

/-- `limitedmap(nMaxSizeIn)`. -/
def new (nMaxSizeIn : ℕ) : limitedmap K V := ⟨∅, [], nMaxSizeIn⟩

def size : ℕ := m.map.keys.length

/-- `map.erase(rmap.begin()->second); rmap.erase(rmap.begin());` -/
def eraseFirst : Option (limitedmap K V) :=
  match m.rmap with
  | [] => none
  | (_, k) :: rest => if k ∈ m.map then some ⟨m.map.erase k, rest, m.nMaxSize⟩ else none

/-- The test of `insert`, when the new entry is in map. -/
def makeRoom : Option (limitedmap K V) :=
  if m.nMaxSize ≠ 0 ∧ m.size = m.nMaxSize then m.eraseFirst else some m

def insert (k : K) (v : V) : Option (limitedmap K V) :=
  if k ∈ m.map then some m
  else do
    let m ← makeRoom { m with map := m.map.insert k v }
    return { m with rmap := rmapInsert v k m.rmap }

def erase (k : K) : Option (limitedmap K V) :=
  match m.map.lookup k with
  | none => some m
  | some v => do
      let rmap ← rmapErase v k m.rmap
      return { m with map := m.map.erase k, rmap := rmap }

/-- The iterator is the key of its entry. -/
def update (k : K) (v : V) : Option (limitedmap K V) :=
  match m.map.lookup k with
  | none => some m
  | some old => do
      let rmap ← rmapErase old k m.rmap
      return { m with map := m.map.insert k v, rmap := rmapInsert v k rmap }

/-- `while (map.size() > s)`, for so many rounds at most. -/
def shrink (s : ℕ) : ℕ → limitedmap K V → Option (limitedmap K V)
  | 0, m => some m
  | n + 1, m =>
      if s < m.size then do
        let m ← m.eraseFirst
        shrink s n m
      else some m

/-- `max_size(s)`. -/
def setMaxSize (s : ℕ) : Option (limitedmap K V) := do
  let m ← if s ≠ 0 then shrink s m.size m else some m
  return { m with nMaxSize := s }

end limitedmap

inductive Call (K V : Type) where
  | insert (k : K) (v : V)
  | erase (k : K)
  | update (k : K) (v : V)
  | max_size (s : ℕ)

def perform (m : limitedmap K V) : Call K V → Option (limitedmap K V)
  | .insert k v => m.insert k v
  | .erase k => m.erase k
  | .update k v => m.update k v
  | .max_size s => m.setMaxSize s

/-- A step of a run, which has no state any more after what is undefined. -/
def step (s : Option (limitedmap K V)) (call : Call K V) : Option (limitedmap K V) :=
  s.bind fun m => perform m call

end Operations

section Multimap

variable {K V : Type} [DecidableEq K] [LinearOrder V] {l : List (V × K)} {v : V} {k : K}

omit [DecidableEq K] in
theorem rmapInsert_perm (v : V) (k : K) (l : List (V × K)) :
    (rmapInsert v k l).Perm ((v, k) :: l) := by
  induction l with
  | nil => exact .refl _
  | cons e rest ih =>
    unfold rmapInsert
    split_ifs
    · exact .refl _
    · exact (ih.cons e).trans (.swap _ _ _)

/-- In the order of the values. -/
def Ascending (l : List (V × K)) : Prop := l.Pairwise fun a b => a.1 ≤ b.1

omit [DecidableEq K] in
theorem Ascending.rmapInsert (h : Ascending l) : Ascending (rmapInsert v k l) := by
  induction l with
  | nil => exact List.pairwise_singleton _ _
  | cons e rest ih =>
    obtain ⟨hfirst, hrest⟩ := List.pairwise_cons.mp h
    unfold LimitedMap.rmapInsert
    split_ifs with hlt
    · apply List.pairwise_cons.mpr
      refine ⟨fun b hb => ?_, h⟩
      rcases List.mem_cons.mp hb with rfl | hb
      · exact hlt.le
      · exact hlt.le.trans (hfirst b hb)
    · apply List.pairwise_cons.mpr
      refine ⟨fun b hb => ?_, ih hrest⟩
      rcases List.mem_cons.mp ((rmapInsert_perm v k rest).mem_iff.mp hb) with rfl | hb
      · exact not_lt.mp hlt
      · exact hfirst b hb

theorem rmapErase_spec (h : (v, k) ∈ l) : ∃ l', rmapErase v k l = some l' ∧
    l.Perm ((v, k) :: l') ∧ l'.Sublist l := by
  induction l with
  | nil => cases h
  | cons e rest ih =>
    obtain ⟨w, j⟩ := e
    unfold rmapErase
    split_ifs with heq
    · obtain ⟨rfl, rfl⟩ := heq
      exact ⟨rest, rfl, .refl _, List.sublist_cons_self _ _⟩
    · have hmem : (v, k) ∈ rest := by
        rcases List.mem_cons.mp h with hsame | hmem
        · obtain ⟨rfl, rfl⟩ := Prod.mk.inj hsame
          exact absurd ⟨rfl, rfl⟩ heq
        · exact hmem
      obtain ⟨l', hrun, hperm, hsub⟩ := ih hmem
      refine ⟨(w, j) :: l', ?_, ?_, hsub.cons_cons _⟩
      · rw [hrun]
        rfl
      · exact (hperm.cons _).trans (.swap _ _ _)

end Multimap

section Lookups

variable {K V : Type} [DecidableEq K] {s : AList fun _ : K => V} {j k : K} {v w : V}

theorem length_keys_insert (hnew : k ∉ s) :
    (s.insert k v).keys.length = s.keys.length + 1 := by
  rw [AList.keys_insert, List.erase_of_not_mem (fun hmem => hnew hmem), List.length_cons]

theorem length_keys_erase (hmem : k ∈ s) :
    (s.erase k).keys.length + 1 = s.keys.length := by
  have hpos : 0 < s.keys.length := List.length_pos_of_mem hmem
  rw [AList.keys_erase, List.length_erase_of_mem hmem]
  omega

theorem insert_erase :
    (s.erase k).insert k v = s.insert k v := by
  apply AList.ext
  show List.kinsert k v (List.kerase k s.entries) = List.kinsert k v s.entries
  rw [List.kinsert_def, List.kinsert_def, List.kerase_of_notMem_keys]
  exact List.notMem_keys_kerase k s.nodupKeys

theorem lookup_erase_iff :
    (s.erase k).lookup j = some w ↔ j ≠ k ∧ s.lookup j = some w := by
  by_cases hjk : j = k
  · subst hjk
    simp
  · rw [AList.lookup_erase_ne hjk]
    simp [hjk]

theorem lookup_insert_iff :
    (s.insert k v).lookup j = some w ↔ (j = k ∧ w = v) ∨ (j ≠ k ∧ s.lookup j = some w) := by
  by_cases hjk : j = k
  · subst hjk
    simp [eq_comm]
  · rw [AList.lookup_insert_ne hjk]
    simp [hjk]

end Lookups

section Links

variable {K V : Type} [DecidableEq K] [LinearOrder V]

/-- Each entry of map is once in rmap, under its value, and nothing else is. -/
structure Linked (m : limitedmap K V) : Prop where
  entries : ∀ k v, (v, k) ∈ m.rmap ↔ m.map.lookup k = some v
  once : (m.rmap.map Prod.snd).Nodup
  ascending : Ascending m.rmap

namespace Linked

variable {m : limitedmap K V} {k : K} {v : V} {rest : List (V × K)}

theorem new (N : ℕ) : Linked (limitedmap.new N : limitedmap K V) := by
  refine ⟨fun k v => ?_, List.nodup_nil, List.Pairwise.nil⟩
  simp [limitedmap.new]

theorem setLimit (h : Linked m) (N : ℕ) : Linked { m with nMaxSize := N } :=
  ⟨h.entries, h.once, h.ascending⟩

theorem remove (h : Linked m) (hperm : m.rmap.Perm ((v, k) :: rest)) (hsub : rest.Sublist m.rmap) :
    Linked { m with map := m.map.erase k, rmap := rest } := by
  have honce : (((v, k) :: rest).map Prod.snd).Nodup := (hperm.map Prod.snd).nodup_iff.mp h.once
  obtain ⟨hnot, hnodup⟩ := List.nodup_cons.mp honce
  refine ⟨fun j w => ?_, hnodup, h.ascending.sublist hsub⟩
  rw [lookup_erase_iff, ← h.entries, hperm.mem_iff, List.mem_cons]
  constructor
  · intro hmem
    refine ⟨?_, .inr hmem⟩
    rintro rfl
    exact hnot (List.mem_map.mpr ⟨_, hmem, rfl⟩)
  · intro ⟨hne, hmem⟩
    rcases hmem with hsame | hmem
    · exact absurd (congrArg Prod.snd hsame) hne
    · exact hmem

theorem add (h : Linked m) (hnew : k ∉ m.map) :
    Linked { m with map := m.map.insert k v, rmap := rmapInsert v k m.rmap } := by
  have hperm := rmapInsert_perm v k m.rmap
  have hnone : m.map.lookup k = none := AList.lookup_eq_none.mpr hnew
  refine ⟨fun j w => ?_, (hperm.map Prod.snd).nodup_iff.mpr ?_, h.ascending.rmapInsert⟩
  · rw [lookup_insert_iff, ← h.entries, hperm.mem_iff, List.mem_cons, Prod.mk.injEq]
    constructor
    · rintro (⟨rfl, rfl⟩ | hmem)
      · exact .inl ⟨rfl, rfl⟩
      · refine .inr ⟨?_, hmem⟩
        rintro rfl
        rw [h.entries, hnone] at hmem
        cases hmem
    · rintro (⟨rfl, rfl⟩ | ⟨-, hmem⟩)
      · exact .inl ⟨rfl, rfl⟩
      · exact .inr hmem
  · rw [List.map_cons, List.nodup_cons]
    refine ⟨fun hmem => ?_, h.once⟩
    obtain ⟨⟨w, j⟩, hentry, hsame⟩ := List.mem_map.mp hmem
    obtain rfl : j = k := hsame
    rw [h.entries, hnone] at hentry
    cases hentry

end Linked

end Links

section Steps

variable {K V : Type} [DecidableEq K] [LinearOrder V] {m : limitedmap K V} {k : K} {v : V}

/-- What an operation leaves of a map with linked entries. -/
structure Leaves (m m' : limitedmap K V) : Prop where
  linked : Linked m'
  size_le : m'.size ≤ m.size
  limit : m'.nMaxSize = m.nMaxSize

theorem eraseFirst_spec (h : Linked m) (hsize : m.size ≠ 0) :
    ∃ m', m.eraseFirst = some m' ∧ Leaves m m' ∧ m'.size + 1 = m.size := by
  obtain ⟨j, hj⟩ := List.exists_mem_of_length_pos (Nat.pos_of_ne_zero hsize)
  obtain ⟨w, hw⟩ := Option.isSome_iff_exists.mp (AList.lookup_isSome.mpr hj)
  have hne := List.ne_nil_of_mem ((h.entries j w).mpr hw)
  obtain ⟨⟨v, k⟩, rest, hrmap⟩ := List.exists_cons_of_ne_nil hne
  have hlookup : m.map.lookup k = some v :=
    (h.entries k v).mp (hrmap ▸ List.mem_cons_self)
  have hmem : k ∈ m.map := AList.lookup_isSome.mp (by rw [hlookup]; rfl)
  have hsmaller := length_keys_erase hmem
  refine ⟨{ m with map := m.map.erase k, rmap := rest }, ?_, ⟨?_, ?_, rfl⟩, hsmaller⟩
  · unfold limitedmap.eraseFirst
    simp only [hrmap, if_pos hmem]
  · apply h.remove (v := v)
    · rw [hrmap]
    · rw [hrmap]
      exact List.sublist_cons_self _ _
  · exact Nat.le_of_succ_le hsmaller.le

theorem shrink_spec {s : ℕ} (n : ℕ) (h : Linked m) (hn : m.size ≤ s + n) :
    ∃ m', limitedmap.shrink s n m = some m' ∧ Linked m' ∧ m'.size ≤ s := by
  induction n generalizing m with
  | zero => exact ⟨m, rfl, h, hn⟩
  | succ n ih =>
    unfold limitedmap.shrink
    split_ifs with hlt
    · obtain ⟨m₁, hfirst, hleaves, hsize⟩ := eraseFirst_spec h (by omega)
      obtain ⟨m', hrun, hlinked, hle⟩ := ih hleaves.linked (by omega)
      refine ⟨m', ?_, hlinked, hle⟩
      rw [hfirst]
      exact hrun
    · exact ⟨m, rfl, h, not_lt.mp hlt⟩

theorem setMaxSize_spec (h : Linked m) (s : ℕ) : ∃ m', m.setMaxSize s = some m' ∧ Linked m' ∧
    m'.nMaxSize = s ∧ (s ≠ 0 → m'.size ≤ s) := by
  unfold limitedmap.setMaxSize
  by_cases hs : s ≠ 0
  · obtain ⟨m', hrun, hlinked, hle⟩ := shrink_spec m.size h (Nat.le_add_left m.size s)
    refine ⟨{ m' with nMaxSize := s }, ?_, hlinked.setLimit s, rfl, fun _ => hle⟩
    rw [if_pos hs, hrun]
    rfl
  · refine ⟨{ m with nMaxSize := s }, ?_, h.setLimit s, rfl, fun h => absurd h hs⟩
    rw [if_neg hs]
    rfl

theorem erase_spec (h : Linked m) (k : K) : ∃ m', m.erase k = some m' ∧ Leaves m m' := by
  unfold limitedmap.erase
  cases hlookup : m.map.lookup k with
  | none => exact ⟨m, rfl, h, le_rfl, rfl⟩
  | some v =>
    obtain ⟨rest, hrun, hperm, hsub⟩ := rmapErase_spec ((h.entries k v).mpr hlookup)
    have hmem : k ∈ m.map := AList.lookup_isSome.mp (by rw [hlookup]; rfl)
    refine ⟨{ m with map := m.map.erase k, rmap := rest }, ?_, h.remove hperm hsub, ?_, rfl⟩
    · simp only [hrun]
      rfl
    · exact Nat.le_of_succ_le (length_keys_erase hmem).le

theorem update_spec (h : Linked m) (k : K) (v : V) : ∃ m', m.update k v = some m' ∧
    Leaves m m' := by
  unfold limitedmap.update
  cases hlookup : m.map.lookup k with
  | none => exact ⟨m, rfl, h, le_rfl, rfl⟩
  | some old =>
    obtain ⟨rest, hrun, hperm, hsub⟩ := rmapErase_spec ((h.entries k old).mpr hlookup)
    have hmem : k ∈ m.map := AList.lookup_isSome.mp (by rw [hlookup]; rfl)
    have hgone : k ∉ m.map.erase k := fun hk => (AList.mem_erase.mp hk).1 rfl
    have hadd := (h.remove hperm hsub).add (v := v) hgone
    refine ⟨{ m with map := m.map.insert k v, rmap := rmapInsert v k rest }, ?_, ?_, ?_, rfl⟩
    · simp only [hrun]
      rfl
    · rw [← insert_erase]
      exact hadd
    · show (m.map.insert k v).keys.length ≤ m.map.keys.length
      rw [← insert_erase, length_keys_insert hgone]
      exact (length_keys_erase hmem).le

end Steps

section Highest

variable {K V : Type} [DecidableEq K] [LinearOrder V] {m : limitedmap K V} {k : K} {v : V}

/-- What an insertion is for: a key that is there keeps its value, and a new one comes to the
others, of which and itself one with the smallest value is dropped when the map was full. -/
def Inserted (m m' : limitedmap K V) (k : K) (v : V) : Prop :=
  if k ∈ m.map then m' = m
  else if m.nMaxSize ≠ 0 ∧ m.nMaxSize ≤ m.size then
    ∃ j w, (m.map.insert k v).lookup j = some w ∧
      (∀ i x, (m.map.insert k v).lookup i = some x → w ≤ x) ∧
      ∀ i, m'.map.lookup i = ((m.map.insert k v).erase j).lookup i
  else ∀ i, m'.map.lookup i = (m.map.insert k v).lookup i

/-- The call is defined and leaves linked entries, no more than the limit. -/
def Meets (m : limitedmap K V) (call : Call K V) : Prop :=
  ∃ m', perform m call = some m' ∧ Linked m' ∧ (m'.nMaxSize ≠ 0 → m'.size ≤ m'.nMaxSize) ∧
    ∀ k v, call = .insert k v → Inserted m m' k v

/-- With its entry, the map is not yet at the limit. -/
def HasRoom (m : limitedmap K V) : Call K V → Prop
  | .insert k _ => k ∈ m.map ∨ m.nMaxSize = 0 ∨ m.size + 1 < m.nMaxSize
  | _ => True

structure Bounded (m : limitedmap K V) : Prop where
  linked : Linked m
  size_le : m.nMaxSize ≠ 0 → m.size ≤ m.nMaxSize

theorem Bounded.new (N : ℕ) : Bounded (limitedmap.new N : limitedmap K V) :=
  ⟨Linked.new N, fun _ => Nat.zero_le N⟩

theorem Bounded.leaves {m' : limitedmap K V} (h : Bounded m) (hleaves : Leaves m m') :
    Bounded m' := by
  refine ⟨hleaves.linked, fun hne => ?_⟩
  rw [hleaves.limit] at hne ⊢
  exact hleaves.size_le.trans (h.size_le hne)

theorem insert_of_room (hnew : k ∉ m.map) (hroom : m.nMaxSize = 0 ∨ m.size + 1 ≠ m.nMaxSize) :
    m.insert k v = some { m with map := m.map.insert k v, rmap := rmapInsert v k m.rmap } := by
  have hstays : limitedmap.makeRoom { m with map := m.map.insert k v } =
      some { m with map := m.map.insert k v } := by
    apply if_neg
    intro ⟨hne, heq⟩
    have hsize : m.size + 1 = m.nMaxSize := (length_keys_insert hnew).symm.trans heq
    exact hroom.elim hne (absurd hsize)
  unfold limitedmap.insert
  rw [if_neg hnew, hstays]
  rfl

/-- The entry that goes was there before, and the new one is not looked at. -/
theorem insert_at_limit (h : Linked m) (hnew : k ∉ m.map) (hne : m.nMaxSize ≠ 0)
    (hsize : m.size + 1 = m.nMaxSize) {m' : limitedmap K V} (hrun : m.insert k v = some m') :
    ∃ j ∈ m.map, j ∉ m'.map := by
  have hevicts : limitedmap.makeRoom { m with map := m.map.insert k v } =
      limitedmap.eraseFirst { m with map := m.map.insert k v } :=
    if_pos ⟨hne, (length_keys_insert hnew).trans hsize⟩
  unfold limitedmap.insert at hrun
  rw [if_neg hnew, hevicts] at hrun
  obtain ⟨m₁, hfirst, hrest⟩ := Option.bind_eq_some_iff.mp hrun
  obtain rfl := Option.some.inj hrest
  unfold limitedmap.eraseFirst at hfirst
  cases hrmap : m.rmap with
  | nil => simp [hrmap] at hfirst
  | cons e rest =>
    obtain ⟨w, j⟩ := e
    simp only [hrmap] at hfirst
    split_ifs at hfirst with hmem
    obtain rfl := Option.some.inj hfirst
    have hlookup : m.map.lookup j = some w := (h.entries j w).mp (hrmap ▸ List.mem_cons_self)
    refine ⟨j, AList.lookup_isSome.mp (by rw [hlookup]; rfl), fun hj => ?_⟩
    exact (AList.mem_erase.mp hj).1 rfl

theorem meets_insert_iff (h : Bounded m) : Meets m (.insert k v) ↔ HasRoom m (.insert k v) := by
  by_cases hmem : k ∈ m.map
  · refine iff_of_true ⟨m, if_pos hmem, h.linked, h.size_le, fun k' v' hcall => ?_⟩ (.inl hmem)
    obtain ⟨rfl, rfl⟩ := Call.insert.inj hcall
    unfold Inserted
    rw [if_pos hmem]
  constructor
  · intro ⟨m', hrun, _, hbound, hspec⟩
    have hspec := hspec k v rfl
    rw [HasRoom, or_iff_right hmem]
    by_contra hnone
    rw [not_or, not_lt] at hnone
    obtain ⟨hne, hfull⟩ := hnone
    by_cases hsize : m.size + 1 = m.nMaxSize
    · obtain ⟨j, hj, hgone⟩ := insert_at_limit h.linked hmem hne hsize hrun
      unfold Inserted at hspec
      rw [if_neg hmem, if_neg (fun h => by omega)] at hspec
      apply hgone
      rw [← AList.lookup_isSome, hspec, AList.lookup_isSome, AList.mem_insert]
      exact .inr hj
    · rw [perform, insert_of_room hmem (.inr hsize)] at hrun
      obtain rfl := Option.some.inj hrun
      have hle : m.size + 1 ≤ m.nMaxSize := (length_keys_insert hmem).symm.le.trans (hbound hne)
      omega
  · intro hroom
    have hroom := hroom.resolve_left hmem
    refine ⟨_, insert_of_room hmem (hroom.imp_right fun h => h.ne), h.linked.add hmem, ?_, ?_⟩
    · intro hne
      have hlt := hroom.resolve_left hne
      exact (length_keys_insert hmem).le.trans hlt.le
    · intro k' v' hcall
      obtain ⟨rfl, rfl⟩ := Call.insert.inj hcall
      unfold Inserted
      rw [if_neg hmem, if_neg (fun hfull => by omega)]
      exact fun i => rfl

theorem meets_iff (h : Bounded m) (call : Call K V) : Meets m call ↔ HasRoom m call := by
  cases call with
  | insert k v => exact meets_insert_iff h
  | erase k =>
    obtain ⟨m', hrun, hleaves⟩ := erase_spec h.linked k
    have hbound := h.leaves hleaves
    exact iff_of_true ⟨m', hrun, hbound.linked, hbound.size_le, fun k v hcall => by cases hcall⟩ trivial
  | update k v =>
    obtain ⟨m', hrun, hleaves⟩ := update_spec h.linked k v
    have hbound := h.leaves hleaves
    exact iff_of_true ⟨m', hrun, hbound.linked, hbound.size_le, fun k v hcall => by cases hcall⟩ trivial
  | max_size s =>
    obtain ⟨m', hrun, hlinked, hlimit, hsize⟩ := setMaxSize_spec h.linked s
    refine iff_of_true ⟨m', hrun, hlinked, ?_, fun k v hcall => by cases hcall⟩ trivial
    rw [hlimit]
    exact hsize

/-- A run keeps the entries with the highest values, as far as the claim of the class goes, just
when no new key is inserted at the limit or one entry below it. -/
theorem eachStep_meets_iff (N : ℕ) (calls : List (Call K V)) :
    EachStep step (fun s call => ∃ m ∈ s, Meets m call) (some (limitedmap.new N)) calls ↔
      EachStep step (fun s call => ∀ m ∈ s, HasRoom m call) (some (limitedmap.new N)) calls := by
  refine @eachStep_iff_of_keeps _ _ _ (fun s => ∃ m ∈ s, Bounded m) _ _ (fun s call hs => ?_)
    (fun s call hs hmeets => ?_) _ _ ⟨limitedmap.new N, rfl, Bounded.new N⟩
  · obtain ⟨m, hm, hbound⟩ := hs
    obtain rfl : s = some m := hm
    simp [meets_iff hbound]
  · obtain ⟨m, hm, m', hrun, hlinked, hsize, -⟩ := hmeets
    obtain rfl : s = some m := hm
    exact ⟨m', hrun, hlinked, hsize⟩

/-- With a limit of one there is no entry to drop, below the limit a higher one is dropped than
there must be, and after the limit has been lowered there may be more entries. -/
theorem lower_kept :
    run step (some (limitedmap.new 1)) [.insert 1 10] = none ∧
      (run step (some (limitedmap.new 2)) [.insert 1 20, .insert 2 10]).map (·.map.keys) =
        some [2] ∧
      (run step (some (limitedmap.new 3))
        [.insert 1 10, .insert 2 20, .max_size 2, .insert 3 30]).map (·.size) = some 3 ∧
      ¬∀ N ≥ 1, ∀ calls : List (Call ℕ ℕ),
        EachStep step (fun s call => ∃ m ∈ s, Meets m call) (some (limitedmap.new N)) calls := by
  have hnone : perform (limitedmap.new 1) (.insert 1 10) = none := by decide +kernel
  refine ⟨hnone, by decide +kernel, by decide +kernel, fun hclaim => ?_⟩
  obtain ⟨m, hm, m', hrun, -⟩ := (hclaim 1 le_rfl [.insert 1 10]).1
  obtain rfl := Option.some.inj hm
  rw [hnone] at hrun
  cases hrun

end Highest

end UmbrellaLtc.LimitedMap
