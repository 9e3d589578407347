import UmbrellaLtc.Components
import UmbrellaLtc.PointerHeap
import UmbrellaLtc.Runs
import UmbrellaLtc.Solver
import Std.Data.ExtTreeSet

/-!
CWallet::GetAddressGroupings of wallet.cpp. The first part makes a set of groups of addresses; the
second merges the groups that overlap, through a map of pointers to objects on the heap. An access
to an element that does not exist, or through a pointer that is not in use, is `none`.
-/

namespace UmbrellaLtc.AddressGroups

open Codec Transaction EvalScript KeyStore Solver Components PointerHeap Runs

section Sets

variable {A : Type} [Ord A]

/-- std::set. -/
abbrev StdSet (A : Type) [Ord A] := Std.ExtTreeSet A compare

variable [Std.TransOrd A]

/-- Sets are compared element by element, in the order of the elements. -/
instance : Ord (StdSet A) := ⟨compareOn Std.ExtTreeSet.toList⟩

instance : Std.TransOrd (StdSet A) := inferInstanceAs (Std.TransCmp (compareOn _))

instance [Std.LawfulEqOrd A] : Std.LawfulEqOrd (StdSet A) where
  eq_of_compare {s t} h := by
    have hlists : s.toList = t.toList := Std.LawfulEqOrd.eq_of_compare h
    exact Std.ExtTreeSet.toList_inj.mp hlists

end Sets

section Destinations

def which : CTxDestination → ℕ
  | .noDestination => 0
  | .keyID _ => 1
  | .scriptID _ => 2

def bits : CTxDestination → BitVec 160
  | .noDestination => 0
  | .keyID id => id
  | .scriptID id => id

/-- `operator<` of boost::variant: the alternatives in turn, the values within one. The source
has two CNoDestination below each other; no group holds one. -/
instance : Ord CTxDestination := ⟨compareLex (compareOn which) (compareOn bits)⟩

instance : Std.TransOrd CTxDestination := inferInstanceAs (Std.TransCmp (compareLex _ _))

instance : Std.LawfulEqOrd CTxDestination where
  eq_of_compare {a b} h := by
    have hboth : compareLex (compareOn which) (compareOn bits) a b = .eq := h
    obtain ⟨hwhich, hbits⟩ := compareLex_eq_eq.mp hboth
    have h₁ : which a = which b := Std.LawfulEqOrd.eq_of_compare hwhich
    have h₂ : bits a = bits b := Std.LawfulEqOrd.eq_of_compare hbits
    cases a <;> cases b <;> simp_all [which, bits]

end Destinations

section Grouping

/-- The wallet as the grouping reads it: the outputs that the key store can spend, by script and
by destination, the address book and the transactions. -/
structure CWallet where
  isMineScript : CScript → Bool
  isMineDestination : CTxDestination → Bool
  mapAddressBook : Std.ExtTreeMap CTxDestination String compare
  mapWallet : Std.ExtTreeMap Uint256 CTransaction compare

variable (crypto : Crypto) (w : CWallet)

/-- CWallet::IsMine of an output. -/
def isMineOut (txout : CTxOut) : Bool := w.isMineScript txout.scriptPubKey

/-- CWallet::IsMine of an input. -/
def isMineIn (txin : CTxIn) : Bool :=
  match w.mapWallet[txin.prevout.hash]? with
  | none => false
  | some prev => (prev.vout[txin.prevout.n.toNat]?).any (isMineOut w)

def isChange (txout : CTxOut) : Option Bool := do
  match ← extractDestination crypto txout.scriptPubKey with
  | none => return false
  | some address =>
      return w.isMineDestination address && !w.mapAddressBook.contains address

abbrev Group := StdSet CTxDestination

/-- One input: the grouping and any_mine. -/
def groupInput (st : Group × Bool) (txin : CTxIn) : Option (Group × Bool) := do
  if !isMineIn w txin then return st
  else
    let prev ← w.mapWallet[txin.prevout.hash]?
    let txout ← prev.vout[txin.prevout.n.toNat]?
    match ← extractDestination crypto txout.scriptPubKey with
    | none => return st
    | some address => return (st.1.insert address, true)

def groupChange (grouping : Group) (txout : CTxOut) : Option Group := do
  if ← isChange crypto w txout then
    match ← extractDestination crypto txout.scriptPubKey with
    | none => return grouping
    | some txoutAddr => return grouping.insert txoutAddr
  else return grouping

/-- The set of groups, and the one under construction. -/
abbrev Grouping := StdSet Group × Group

def groupLone (st : Grouping) (txout : CTxOut) : Option Grouping := do
  if isMineOut w txout then
    match ← extractDestination crypto txout.scriptPubKey with
    | none => return st
    | some address => return (st.1.insert (st.2.insert address), ∅)
  else return st

/-- The inputs of a transaction, and its change where an input is the wallet's own. -/
def groupInputs (st : Grouping) (pcoin : CTransaction) : Option Grouping := do
  let (grouping, anyMine) ← pcoin.vin.foldlM (groupInput crypto w) (st.2, false)
  let grouping ← if anyMine then pcoin.vout.foldlM (groupChange crypto w) grouping
    else pure grouping
  if grouping.size > 0 then return (st.1.insert grouping, ∅) else return (st.1, grouping)

def groupTx (st : Grouping) (pcoin : CTransaction) : Option Grouping := do
  let st ← (if pcoin.vin.length > 0 then groupInputs crypto w st pcoin else pure st)
  pcoin.vout.foldlM (groupLone crypto w) st

def collectGroupings : Option (StdSet Group) := do
  let (groupings, _) ← (w.mapWallet.toList.map Prod.snd).foldlM (groupTx crypto w) (∅, ∅)
  return groupings

end Grouping

section Merging

variable {A : Type} [Ord A] [Std.TransOrd A]

/-- The objects on the heap, uniqueGroupings and setmap. -/
structure Merging (A : Type) [Ord A] where
  heap : Heap (StdSet A)
  uniqueGroupings : StdSet ℕ
  setmap : Std.ExtTreeMap A ℕ compare

/-- The pointers to all the groups hit by this new group. -/
def findHits (setmap : Std.ExtTreeMap A ℕ compare) (grouping : StdSet A) : StdSet ℕ :=
  grouping.toList.foldl (fun hits address =>
    match setmap[address]? with
    | none => hits
    | some p => hits.insert p) ∅

/-- One of the hit groups goes into the merged one, and is deleted. -/
def mergeHit (merged : ℕ) (s : Merging A) (hit : ℕ) : Option (Merging A) := do
  let old ← s.heap.read hit
  let group ← s.heap.read merged
  let heap ← s.heap.write merged (old.toList.foldl Std.ExtTreeSet.insert group)
  let heap ← heap.delete hit
  return { s with heap := heap, uniqueGroupings := s.uniqueGroupings.erase hit }

def mergeGrouping (alloc : Allocator (StdSet A)) (s : Merging A) (grouping : StdSet A) :
    Option (Merging A) := do
  let hits := findHits s.setmap grouping
  let (merged, heap) := s.heap.new alloc grouping
  let s ← hits.toList.foldlM (mergeHit merged) { s with heap := heap }
  let group ← s.heap.read merged
  return { s with
    uniqueGroupings := s.uniqueGroupings.insert merged
    setmap := group.toList.foldl (fun setmap element => setmap.insert element merged) s.setmap }

/-- One pointer of uniqueGroupings at the end. -/
def takeGroup (ret : StdSet (StdSet A) × Heap (StdSet A)) (uniqueGrouping : ℕ) :
    Option (StdSet (StdSet A) × Heap (StdSet A)) := do
  let group ← ret.2.read uniqueGrouping
  let heap ← ret.2.delete uniqueGrouping
  return (ret.1.insert group, heap)

def mergeGroupings (alloc : Allocator (StdSet A)) (groupings : StdSet (StdSet A)) :
    Option (StdSet (StdSet A) × Heap (StdSet A)) := do
  let s ← groupings.toList.foldlM (mergeGrouping alloc) ⟨.empty, ∅, ∅⟩
  s.uniqueGroupings.toList.foldlM takeGroup (∅, s.heap)

end Merging

/-- CWallet::GetAddressGroupings: its answer, and the heap that it leaves. -/
def getAddressGroupings (crypto : Crypto) (alloc : Allocator Group) (w : CWallet) :
    Option (StdSet Group × Heap Group) := do
  mergeGroupings alloc (← collectGroupings crypto w)

/-! The groups that the first part makes. -/

section Groups

/-- ExtractDestination never reads outside of the solutions, and finds no CNoDestination. -/
theorem exists_extractDestination (crypto : Crypto) (s : CScript) :
    ∃ r, extractDestination crypto s = some r ∧ r ≠ some .noDestination := by
  by_cases hstandard : ∃ t vSolutions, Standard s vSolutions t
  · obtain ⟨t, vSolutions, h⟩ := hstandard
    rw [extractDestination, solver_of_standard h]
    cases t with
    | nonstandard => exact h.elim
    | pubkey =>
      obtain ⟨c, k, -, -, rfl⟩ := h
      exact ⟨_, rfl, by simp⟩
    | pubkeyhash =>
      obtain ⟨c, k, -, -, rfl⟩ := h
      exact ⟨_, rfl, by simp⟩
    | scripthash =>
      obtain ⟨k, -, -, rfl⟩ := h
      exact ⟨_, rfl, by simp⟩
    | multisig => exact ⟨_, rfl, by simp⟩
  · simp only [not_exists] at hstandard
    by_cases hcounted : IllCounted s
    · obtain ⟨vSolutions, -, hsolved⟩ := solver_of_illCounted hcounted
      rw [extractDestination, hsolved]
      exact ⟨_, rfl, by simp⟩
    · rw [extractDestination, solver_of_neither hstandard hcounted]
      exact ⟨_, rfl, by simp⟩

variable (crypto : Crypto) (w : CWallet)

def HasAddress (txout : CTxOut) (a : CTxDestination) : Prop :=
  extractDestination crypto txout.scriptPubKey = some (some a)

/-- The input spends an output of the wallet that pays to the address. -/
def SpendsFrom (txin : CTxIn) (a : CTxDestination) : Prop :=
  ∃ prev txout, w.mapWallet[txin.prevout.hash]? = some prev ∧
    prev.vout[txin.prevout.n.toNat]? = some txout ∧ isMineOut w txout = true ∧
    HasAddress crypto txout a

/-- The output pays to an address that is the wallet's own, but not in the address book. -/
def ChangeTo (txout : CTxOut) (a : CTxDestination) : Prop :=
  HasAddress crypto txout a ∧ w.isMineDestination a = true ∧ a ∉ w.mapAddressBook

def InputAddress (tx : CTransaction) (a : CTxDestination) : Prop :=
  ∃ txin ∈ tx.vin, SpendsFrom crypto w txin a

/-- The groups of a transaction: the addresses that are spent together, with the change, and
each address of the wallet by itself. -/
inductive TxGroup (tx : CTransaction) : Set CTxDestination → Prop
  | coSpent (hmine : ∃ a, InputAddress crypto w tx a) :
      TxGroup tx {a | InputAddress crypto w tx a ∨ ∃ txout ∈ tx.vout, ChangeTo crypto w txout a}
  | lone {txout : CTxOut} {a : CTxDestination} (hout : txout ∈ tx.vout)
      (hmine : isMineOut w txout = true) (haddress : HasAddress crypto txout a) : TxGroup tx {a}

def WalletGroups : Set (Set CTxDestination) :=
  {g | ∃ (hash : Uint256) (tx : CTransaction), w.mapWallet[hash]? = some tx ∧ TxGroup crypto w tx g}

variable {crypto w}

theorem isMineIn_iff {txin : CTxIn} : isMineIn w txin = true ↔ ∃ prev txout,
    w.mapWallet[txin.prevout.hash]? = some prev ∧
      prev.vout[txin.prevout.n.toNat]? = some txout ∧ isMineOut w txout = true := by
  unfold isMineIn
  cases hprev : w.mapWallet[txin.prevout.hash]? with
  | none => simp
  | some prev =>
    cases hout : prev.vout[txin.prevout.n.toNat]? with
    | none => simp [hout]
    | some txout => simp [hout]

theorem mem_insert_iff {A : Type} [Ord A] [Std.TransOrd A] [Std.LawfulEqOrd A] {s : StdSet A}
    {a b : A} : a ∈ s.insert b ↔ a ∈ s ∨ a = b := by
  rw [Std.ExtTreeSet.mem_insert, Std.compare_eq_iff_eq, eq_comm, or_comm]

variable (crypto w)

theorem groupInput_spec (st : Group × Bool) (txin : CTxIn) :
    ∃ st', groupInput crypto w st txin = some st' ∧
      (∀ a, a ∈ st'.1 ↔ a ∈ st.1 ∨ SpendsFrom crypto w txin a) ∧
      (st'.2 = true ↔ st.2 = true ∨ ∃ a, SpendsFrom crypto w txin a) := by
  unfold groupInput
  cases hmine : isMineIn w txin with
  | false =>
    have hnone : ∀ a, ¬ SpendsFrom crypto w txin a := by
      rintro a ⟨prev, txout, hprev, hout, hm, -⟩
      rw [isMineIn_iff.mpr ⟨prev, txout, hprev, hout, hm⟩] at hmine
      cases hmine
    exact ⟨st, rfl, by simp [hnone], by simp [hnone]⟩
  | true =>
    obtain ⟨prev, txout, hprev, hout, hm⟩ := isMineIn_iff.mp hmine
    have hspends : ∀ a, SpendsFrom crypto w txin a ↔ HasAddress crypto txout a := by
      intro a
      constructor
      · rintro ⟨prev', txout', hprev', hout', -, ha⟩
        rw [hprev, Option.some.injEq] at hprev'
        rw [← hprev', hout, Option.some.injEq] at hout'
        rw [hout']
        exact ha
      · exact fun ha => ⟨prev, txout, hprev, hout, hm, ha⟩
    obtain ⟨r, hr, -⟩ := exists_extractDestination crypto txout.scriptPubKey
    simp only [hspends, HasAddress, hprev, hout, hr, Bool.not_true, Bool.false_eq_true, if_false,
      Option.bind_eq_bind, Option.bind_some]
    cases r with
    | none => exact ⟨st, rfl, by simp, by simp⟩
    | some address =>
      refine ⟨_, rfl, fun a => ?_, ?_⟩
      · rw [mem_insert_iff]
        simp [eq_comm]
      · simp

theorem groupChange_spec (grouping : Group) (txout : CTxOut) :
    ∃ grouping', groupChange crypto w grouping txout = some grouping' ∧
      ∀ a, a ∈ grouping' ↔ a ∈ grouping ∨ ChangeTo crypto w txout a := by
  obtain ⟨r, hr, -⟩ := exists_extractDestination crypto txout.scriptPubKey
  unfold groupChange isChange ChangeTo HasAddress
  rw [hr]
  cases r with
  | none => exact ⟨grouping, rfl, by simp⟩
  | some address =>
    simp only [Option.bind_eq_bind, Option.bind_some, Option.pure_def]
    split_ifs with hchange
    · refine ⟨_, rfl, fun a => ?_⟩
      rw [mem_insert_iff]
      simp only [Bool.and_eq_true, Bool.not_eq_true', ← Bool.not_eq_true,
        Std.ExtTreeMap.contains_iff_mem] at hchange
      constructor
      · rintro (ha | rfl)
        · exact Or.inl ha
        · exact Or.inr ⟨rfl, hchange⟩
      · rintro (ha | ⟨ha, -⟩)
        · exact Or.inl ha
        · simp only [Option.some.injEq] at ha
          exact Or.inr ha.symm
    · refine ⟨_, rfl, fun a => ?_⟩
      simp only [Bool.and_eq_true, Bool.not_eq_true', ← Bool.not_eq_true,
        Std.ExtTreeMap.contains_iff_mem] at hchange
      constructor
      · exact Or.inl
      · rintro (ha | ⟨ha, hmine⟩)
        · exact ha
        · simp only [Option.some.injEq] at ha
          rw [← ha] at hmine
          exact (hchange hmine).elim

def elems {A : Type} [Ord A] [Std.TransOrd A] (s : StdSet A) : Set A := {a | a ∈ s}

/-- A set of sets, as the sets that are in it. -/
def family {A : Type} [Ord A] [Std.TransOrd A] (groupings : StdSet (StdSet A)) : Set (Set A) :=
  {g | ∃ s ∈ groupings, g = elems s}

section Families

variable {A : Type} [Ord A] [Std.TransOrd A] [Std.LawfulEqOrd A]

theorem mem_family_insert {groupings : StdSet (StdSet A)} {s : StdSet A} {g : Set A} :
    g ∈ family (groupings.insert s) ↔ g ∈ family groupings ∨ g = elems s := by
  constructor
  · rintro ⟨t, ht, rfl⟩
    obtain ht | rfl := mem_insert_iff.mp ht
    · exact Or.inl ⟨t, ht, rfl⟩
    · exact Or.inr rfl
  · rintro (⟨t, ht, rfl⟩ | rfl)
    · exact ⟨t, mem_insert_iff.mpr (Or.inl ht), rfl⟩
    · exact ⟨s, mem_insert_iff.mpr (Or.inr rfl), rfl⟩

theorem elems_insert_empty (a : A) : elems ((∅ : StdSet A).insert a) = {a} := by
  ext b
  have hnot : ¬ b ∈ (∅ : StdSet A) := Std.ExtTreeSet.not_mem_empty
  exact mem_insert_iff.trans (or_iff_right hnot)

end Families

theorem groupLone_spec (groupings : StdSet Group) (txout : CTxOut) :
    ∃ groupings', groupLone crypto w (groupings, ∅) txout = some (groupings', ∅) ∧
      ∀ g, g ∈ family groupings' ↔ g ∈ family groupings ∨
        isMineOut w txout = true ∧ ∃ a, HasAddress crypto txout a ∧ g = {a} := by
  unfold groupLone HasAddress
  split_ifs with hmine
  · obtain ⟨r, hr, -⟩ := exists_extractDestination crypto txout.scriptPubKey
    rw [hr]
    cases r with
    | none => exact ⟨groupings, rfl, by simp⟩
    | some address =>
      refine ⟨_, rfl, fun g => ?_⟩
      rw [mem_family_insert, elems_insert_empty]
      simp [hmine]
  · exact ⟨groupings, rfl, by simp [hmine]⟩

theorem groupLones_spec (groupings : StdSet Group) (vout : List CTxOut) :
    ∃ groupings', vout.foldlM (groupLone crypto w) (groupings, ∅) = some (groupings', ∅) ∧
      ∀ g, g ∈ family groupings' ↔ g ∈ family groupings ∨
        ∃ txout ∈ vout, isMineOut w txout = true ∧ ∃ a, HasAddress crypto txout a ∧ g = {a} := by
  obtain ⟨⟨groupings', rest⟩, hrun, hrest, h⟩ := @exists_foldlM _ _ (groupLone crypto w)
    (fun done st => st.2 = ∅ ∧ ∀ g, g ∈ family st.1 ↔ g ∈ family groupings ∨
      ∃ txout ∈ done, isMineOut w txout = true ∧ ∃ a, HasAddress crypto txout a ∧ g = {a})
    vout (groupings, ∅) ⟨rfl, by simp⟩ (by
      rintro done txout ⟨gs, rest⟩ - ⟨hrest, h⟩
      dsimp only at hrest h
      subst hrest
      obtain ⟨gs', hstep, h'⟩ := groupLone_spec crypto w gs txout
      refine ⟨_, hstep, rfl, fun g => ?_⟩
      rw [h', h, or_assoc]
      simp only [List.mem_append, List.mem_singleton, or_and_right, exists_or, exists_eq_left])
  dsimp only at hrest h
  subst hrest
  exact ⟨groupings', hrun, h⟩

theorem groupVin_spec (vin : List CTxIn) :
    ∃ st, vin.foldlM (groupInput crypto w) (∅, false) = some st ∧
      (∀ a, a ∈ st.1 ↔ ∃ txin ∈ vin, SpendsFrom crypto w txin a) ∧
      (st.2 = true ↔ ∃ a, ∃ txin ∈ vin, SpendsFrom crypto w txin a) := by
  refine @exists_foldlM _ _ (groupInput crypto w) (fun done st =>
      (∀ a, a ∈ st.1 ↔ ∃ txin ∈ done, SpendsFrom crypto w txin a) ∧
      (st.2 = true ↔ ∃ a, ∃ txin ∈ done, SpendsFrom crypto w txin a)) vin (∅, false)
    ⟨by simp, by simp⟩ ?_
  rintro done txin st - ⟨haddresses, hany⟩
  obtain ⟨st', hstep, haddresses', hany'⟩ := groupInput_spec crypto w st txin
  refine ⟨st', hstep, fun a => ?_, ?_⟩
  · rw [haddresses', haddresses]
    simp only [List.mem_append, List.mem_singleton, or_and_right, exists_or, exists_eq_left]
  · rw [hany', hany]
    simp only [List.mem_append, List.mem_singleton, or_and_right, exists_or, exists_eq_left]

theorem groupVout_spec (grouping : Group) (vout : List CTxOut) :
    ∃ grouping', vout.foldlM (groupChange crypto w) grouping = some grouping' ∧
      ∀ a, a ∈ grouping' ↔ a ∈ grouping ∨ ∃ txout ∈ vout, ChangeTo crypto w txout a := by
  refine @exists_foldlM _ _ (groupChange crypto w) (fun done grouping' =>
      ∀ a, a ∈ grouping' ↔ a ∈ grouping ∨ ∃ txout ∈ done, ChangeTo crypto w txout a) vout grouping
    (by simp) ?_
  intro done txout grouping' _ h
  obtain ⟨grouping'', hstep, h'⟩ := groupChange_spec crypto w grouping' txout
  refine ⟨grouping'', hstep, fun a => ?_⟩
  rw [h', h, or_assoc]
  simp only [List.mem_append, List.mem_singleton, or_and_right, exists_or, exists_eq_left]

theorem size_pos_of_mem {A : Type} [Ord A] [Std.TransOrd A] {s : StdSet A} {a : A} (h : a ∈ s) :
    s.size > 0 := by
  rw [← Std.ExtTreeSet.length_toList]
  by_contra hzero
  have hnil : s.toList = [] := List.length_eq_zero_iff.mp (by omega)
  rw [Std.ExtTreeSet.toList_eq_nil_iff] at hnil
  exact Std.ExtTreeSet.not_mem_empty (hnil ▸ h)

theorem groupInputs_spec (groupings : StdSet Group) (pcoin : CTransaction) :
    ∃ groupings', groupInputs crypto w (groupings, ∅) pcoin = some (groupings', ∅) ∧
      ∀ g, g ∈ family groupings' ↔ g ∈ family groupings ∨
        (∃ a, InputAddress crypto w pcoin a) ∧
          g = {a | InputAddress crypto w pcoin a ∨ ∃ txout ∈ pcoin.vout, ChangeTo crypto w txout a}
    := by
  obtain ⟨⟨grouping, anyMine⟩, hvin, haddresses, hany⟩ :=
    groupVin_spec crypto w pcoin.vin
  obtain ⟨grouping', hvout, hchange⟩ :=
    groupVout_spec crypto w grouping pcoin.vout
  dsimp only at haddresses hany
  unfold groupInputs
  dsimp only
  rw [hvin]
  cases anyMine with
  | false =>
    have hnone : ¬ ∃ a, InputAddress crypto w pcoin a := by
      intro h
      cases hany.mpr h
    have hempty : grouping = ∅ := by
      refine Std.ExtTreeSet.ext_mem fun a => ?_
      exact iff_of_false (fun ha => hnone ⟨a, (haddresses a).mp ha⟩) Std.ExtTreeSet.not_mem_empty
    rw [hempty]
    exact ⟨groupings, rfl, by simp [hnone]⟩
  | true =>
    obtain ⟨a, ha⟩ := hany.mp rfl
    have hsize := size_pos_of_mem ((hchange a).mpr (Or.inl ((haddresses a).mpr ha)))
    have helems : elems grouping' =
        {a | InputAddress crypto w pcoin a ∨ ∃ txout ∈ pcoin.vout, ChangeTo crypto w txout a} := by
      ext b
      exact (hchange b).trans (or_congr_left (haddresses b))
    refine ⟨groupings.insert grouping', ?_, fun g => ?_⟩
    · simp [hvout, hsize]
    · rw [mem_family_insert, helems]
      exact or_congr_right ⟨fun hg => ⟨⟨a, ha⟩, hg⟩, And.right⟩

theorem groupTx_spec (groupings : StdSet Group) (pcoin : CTransaction) :
    ∃ groupings', groupTx crypto w (groupings, ∅) pcoin = some (groupings', ∅) ∧
      ∀ g, g ∈ family groupings' ↔ g ∈ family groupings ∨ TxGroup crypto w pcoin g := by
  have hinputs : ∃ gs, (if pcoin.vin.length > 0 then groupInputs crypto w (groupings, ∅) pcoin
        else pure (groupings, ∅)) = some (gs, ∅) ∧
      ∀ g, g ∈ family gs ↔ g ∈ family groupings ∨ (∃ a, InputAddress crypto w pcoin a) ∧
        g = {a | InputAddress crypto w pcoin a ∨
          ∃ txout ∈ pcoin.vout, ChangeTo crypto w txout a} := by
    split_ifs with hvin
    · exact groupInputs_spec crypto w groupings pcoin
    · have hnil : pcoin.vin = [] := List.length_eq_zero_iff.mp (by omega)
      exact ⟨groupings, rfl, by simp [InputAddress, hnil]⟩
  obtain ⟨gs, hgs, hco⟩ := hinputs
  obtain ⟨groupings', hrun, hlone⟩ := groupLones_spec crypto w gs pcoin.vout
  refine ⟨groupings', ?_, fun g => ?_⟩
  · unfold groupTx
    rw [hgs]
    exact hrun
  · rw [hlone, hco, or_assoc]
    refine or_congr_right ⟨?_, ?_⟩
    · rintro (⟨hmine, rfl⟩ | ⟨txout, hout, hmine, a, haddress, rfl⟩)
      · exact .coSpent hmine
      · exact .lone hout hmine haddress
    · intro h
      cases h with
      | coSpent hmine => exact Or.inl ⟨hmine, rfl⟩
      | lone hout hmine haddress => exact Or.inr ⟨_, hout, hmine, _, haddress, rfl⟩

/-- The first part ends, with the groups of the wallet's transactions. -/
theorem collectGroupings_spec :
    ∃ groupings, collectGroupings crypto w = some groupings ∧
      family groupings = WalletGroups crypto w := by
  obtain ⟨⟨groupings, rest⟩, hrun, -, h⟩ := @exists_foldlM _ _ (groupTx crypto w)
    (fun done st => st.2 = ∅ ∧ ∀ g, g ∈ family st.1 ↔ ∃ tx ∈ done, TxGroup crypto w tx g)
    (w.mapWallet.toList.map Prod.snd) (∅, ∅) ⟨rfl, by simp [family]⟩ (by
      rintro done tx ⟨gs, rest⟩ - ⟨hrest, h⟩
      dsimp only at hrest h
      subst hrest
      obtain ⟨gs', hstep, h'⟩ := groupTx_spec crypto w gs tx
      refine ⟨_, hstep, rfl, fun g => ?_⟩
      rw [h', h]
      simp only [List.mem_append, List.mem_singleton, or_and_right, exists_or, exists_eq_left])
  refine ⟨groupings, by rw [collectGroupings, hrun]; rfl, ?_⟩
  ext g
  rw [h]
  constructor
  · rintro ⟨tx, htx, hg⟩
    obtain ⟨⟨hash, tx'⟩, hentry, rfl⟩ := List.mem_map.mp htx
    exact ⟨hash, tx', Std.ExtTreeMap.mem_toList_iff_getElem?_eq_some.mp hentry, hg⟩
  · rintro ⟨hash, tx, htx, hg⟩
    have hentry := Std.ExtTreeMap.mem_toList_iff_getElem?_eq_some.mpr htx
    exact ⟨tx, List.mem_map.mpr ⟨_, hentry, rfl⟩, hg⟩

variable {crypto w}

theorem nonempty_of_mem_walletGroups {g : Set CTxDestination} (h : g ∈ WalletGroups crypto w) :
    g.Nonempty := by
  obtain ⟨hash, tx, -, hg⟩ := h
  cases hg with
  | coSpent hmine =>
    obtain ⟨a, ha⟩ := hmine
    exact ⟨a, Or.inl ha⟩
  | lone _ _ _ => exact Set.singleton_nonempty _

theorem noDestination_not_mem {g : Set CTxDestination} (h : g ∈ WalletGroups crypto w) :
    .noDestination ∉ g := by
  have hne : ∀ txout, ¬ HasAddress crypto txout .noDestination := by
    intro txout haddress
    obtain ⟨r, hr, hne⟩ := exists_extractDestination crypto txout.scriptPubKey
    rw [HasAddress, hr, Option.some.injEq] at haddress
    exact hne haddress
  obtain ⟨hash, tx, -, hg⟩ := h
  cases hg with
  | coSpent hmine =>
    rintro (⟨txin, -, prev, txout, -, -, -, haddress⟩ | ⟨txout, -, haddress, -⟩)
    · exact hne txout haddress
    · exact hne txout haddress
  | lone hout hmine haddress =>
    rintro rfl
    exact hne _ haddress

end Groups

/-! The second part keeps the classes of the groups on the heap. -/

section Closure

variable {A : Type} [Ord A] [Std.TransOrd A]

/-- The elements of the set that a pointer leads to. -/
def members (h : Heap (StdSet A)) (p : ℕ) : Set A := {a | ∃ s, h.read p = some s ∧ a ∈ s}

theorem members_of_read {h : Heap (StdSet A)} {p : ℕ} {g : StdSet A} (hread : h.read p = some g) :
    members h p = elems g := by
  ext a
  simp [members, elems, hread]

theorem members_of_none {h : Heap (StdSet A)} {p : ℕ} (hread : h.read p = none) :
    members h p = ∅ := by
  ext a
  simp [members, hread]

/-- The object of the pointer shares an address with the group. -/
def Hit (s : Merging A) (grouping : StdSet A) (p : ℕ) : Prop :=
  (members s.heap p ∩ elems grouping).Nonempty

theorem Hit.exists_read {s : Merging A} {grouping : StdSet A} {p : ℕ} (h : Hit s grouping p) :
    ∃ t, s.heap.read p = some t := by
  obtain ⟨a, ⟨t, ht, -⟩, -⟩ := h
  exact ⟨t, ht⟩

/-- The pointers in uniqueGroupings are those in use, setmap leads from each address to the
pointer whose set holds it, and the sets are the classes of the groups. -/
structure Represents (G : Set (Set A)) (s : Merging A) : Prop where
  live : ∀ p, p ∈ s.uniqueGroupings ↔ (s.heap.read p).isSome
  nonempty : ∀ p g, s.heap.read p = some g → ∃ a, a ∈ g
  owner : ∀ a p, s.setmap[a]? = some p ↔ a ∈ members s.heap p
  classes : Classes G (members s.heap)

/-- What a round of the merging does: `g` is the new group with all that it hits, behind a new
pointer, and the objects that were hit are gone. -/
structure Merged (s s' : Merging A) (grouping g : StdSet A) (merged : ℕ) : Prop where
  fresh : s.heap.read merged = none
  content : s'.heap.read merged = some g
  mem_iff : ∀ a, a ∈ g ↔ a ∈ elems grouping ∨ ∃ p, Hit s grouping p ∧ a ∈ members s.heap p
  gone : ∀ p, p ≠ merged → Hit s grouping p → s'.heap.read p = none
  kept : ∀ p, p ≠ merged → ¬ Hit s grouping p → s'.heap.read p = s.heap.read p
  unique : ∀ p, p ∈ s'.uniqueGroupings ↔
    p = merged ∨ p ∈ s.uniqueGroupings ∧ ¬ Hit s grouping p
  moved : ∀ a ∈ g, s'.setmap[a]? = some merged
  unmoved : ∀ a, a ∉ g → s'.setmap[a]? = s.setmap[a]?

/-- After a round, the objects are the classes of one more group. -/
theorem Merged.represents {G : Set (Set A)} {s s' : Merging A} {grouping g : StdSet A}
    {merged : ℕ} (hm : Merged s s' grouping g merged) (h : Represents G s)
    (hne : (elems grouping).Nonempty) : Represents (insert (elems grouping) G) s' := by
  have hempty : members s.heap merged = ∅ := members_of_none hm.fresh
  have hcontent : members s'.heap merged = elems g := members_of_read hm.content
  have hother : ∀ p, p ≠ merged → ∀ a, a ∈ members s'.heap p ↔
      ¬ Hit s grouping p ∧ a ∈ members s.heap p := by
    intro p hp a
    by_cases hhit : Hit s grouping p
    · rw [members_of_none (hm.gone p hp hhit)]
      exact iff_of_false id fun hmem => hmem.1 hhit
    · simp only [members, hm.kept p hp hhit, hhit, not_false_iff, true_and]
  have hclasses : Classes (insert (elems grouping) G) (members s'.heap) :=
    h.classes.merge hempty (fun a => by rw [hcontent]; exact hm.mem_iff a) hother
  refine ⟨fun p => ?_, fun p t ht => ?_, fun a p => ?_, hclasses⟩
  · rw [hm.unique, h.live]
    by_cases hp : p = merged
    · simp [hp, hm.content]
    · by_cases hhit : Hit s grouping p
      · simp [hp, hhit, hm.gone p hp hhit]
      · simp [hp, hhit, hm.kept p hp hhit]
  · by_cases hp : p = merged
    · obtain ⟨a, ha⟩ := hne
      rw [hp, hm.content, Option.some.injEq] at ht
      exact ⟨a, ht ▸ (hm.mem_iff a).mpr (Or.inl ha)⟩
    · by_cases hhit : Hit s grouping p
      · rw [hm.gone p hp hhit] at ht
        cases ht
      · exact h.nonempty p t (hm.kept p hp hhit ▸ ht)
  · by_cases ha : a ∈ g
    · have hmem : a ∈ members s'.heap merged := hcontent ▸ ha
      rw [hm.moved a ha, Option.some.injEq]
      constructor
      · rintro rfl
        exact hmem
      · exact hclasses.disjoint a merged p hmem
    · have hnot : a ∉ members s'.heap merged := hcontent ▸ ha
      rw [hm.unmoved a ha, h.owner]
      by_cases hp : p = merged
      · rw [hp, hempty]
        exact iff_of_false id hnot
      · rw [hother p hp]
        refine ⟨fun hmem => ⟨fun hhit => ha ?_, hmem⟩, And.right⟩
        exact (hm.mem_iff a).mpr (Or.inr ⟨p, hhit, hmem⟩)

variable [Std.LawfulEqOrd A]


theorem mem_foldl_insert {l : List A} {s : StdSet A} {a : A} :
    a ∈ l.foldl Std.ExtTreeSet.insert s ↔ a ∈ s ∨ a ∈ l := by
  induction l generalizing s with
  | nil => simp
  | cons b l ih => rw [List.foldl_cons, ih, mem_insert_iff, List.mem_cons, or_assoc]

theorem getElem?_foldl_insert {l : List A} {setmap : Std.ExtTreeMap A ℕ compare} {p : ℕ} {a : A} :
    (a ∈ l → (l.foldl (fun setmap element => setmap.insert element p) setmap)[a]? = some p) ∧
      (a ∉ l →
        (l.foldl (fun setmap element => setmap.insert element p) setmap)[a]? = setmap[a]?) := by
  induction l using List.reverseRecOn with
  | nil => simp
  | append_singleton l b ih =>
    simp only [List.foldl_concat, Std.ExtTreeMap.getElem?_insert, Std.compare_eq_iff_eq]
    by_cases hab : b = a
    · simp [hab]
    · have hba : ¬ a = b := Ne.symm hab
      simpa [hab, hba] using ih

theorem mem_findHits {setmap : Std.ExtTreeMap A ℕ compare} {grouping : StdSet A} {p : ℕ} :
    p ∈ findHits setmap grouping ↔ ∃ a ∈ grouping, setmap[a]? = some p := by
  have hfold : ∀ l : List A, p ∈ l.foldl (fun hits address =>
      match setmap[address]? with
      | none => hits
      | some p => hits.insert p) (∅ : StdSet ℕ) ↔ ∃ a ∈ l, setmap[a]? = some p := by
    intro l
    induction l using List.reverseRecOn with
    | nil => simp
    | append_singleton l b ih =>
      rw [List.foldl_concat]
      simp only [List.mem_append, List.mem_singleton, or_and_right, exists_or, exists_eq_left]
      cases hb : setmap[b]? with
      | none => simpa using ih
      | some q =>
        simp only [mem_insert_iff, Option.some.injEq]
        rw [ih, @eq_comm _ p]
  rw [findHits, hfold]
  simp only [Std.ExtTreeSet.mem_toList]

theorem mergeHits_spec {s : Merging A} {hits : List ℕ} {merged : ℕ} {grouping : StdSet A}
    (hnodup : hits.Nodup) (hlive : ∀ p ∈ hits, p ≠ merged ∧ (s.heap.read p).isSome)
    (hmerged : s.heap.read merged = some grouping) :
    ∃ s' g, hits.foldlM (mergeHit merged) s = some s' ∧ s'.setmap = s.setmap ∧
      (∀ p, p ∈ s'.uniqueGroupings ↔ p ∈ s.uniqueGroupings ∧ p ∉ hits) ∧
      s'.heap.read merged = some g ∧
      (∀ a, a ∈ g ↔ a ∈ grouping ∨ ∃ p ∈ hits, a ∈ members s.heap p) ∧
      ∀ p, p ≠ merged → s'.heap.read p = if p ∈ hits then none else s.heap.read p := by
  obtain ⟨s', hrun, hsetmap, hunique, ⟨g, hg, helems⟩, hother⟩ :=
    @exists_foldlM _ _ (mergeHit merged) (fun done s' => s'.setmap = s.setmap ∧
      (∀ p, p ∈ s'.uniqueGroupings ↔ p ∈ s.uniqueGroupings ∧ p ∉ done) ∧
      (∃ g, s'.heap.read merged = some g ∧
        ∀ a, a ∈ g ↔ a ∈ grouping ∨ ∃ p ∈ done, a ∈ members s.heap p) ∧
      ∀ p, p ≠ merged → s'.heap.read p = if p ∈ done then none else s.heap.read p) hits s
      ⟨rfl, by simp, ⟨grouping, hmerged, by simp⟩, by simp⟩ (by
    rintro done hit s' ⟨later, hsplit⟩ ⟨hsetmap, hunique, ⟨g, hg, helems⟩, hother⟩
    have hmem : hit ∈ hits := by simp [hsplit]
    have hnew : hit ∉ done := by
      rw [hsplit] at hnodup
      have hdisjoint := (List.nodup_append.mp hnodup).2.2
      exact fun hdone => hdisjoint hit hdone hit (List.mem_cons_self ..) rfl
    obtain ⟨hne, hsome⟩ := hlive hit hmem
    obtain ⟨old, hold⟩ := Option.isSome_iff_exists.mp hsome
    have hread : s'.heap.read hit = some old := by rw [hother hit hne, if_neg hnew, hold]
    obtain ⟨h₁, hwrite, hread₁⟩ :=
      Heap.exists_write (v := old.toList.foldl Std.ExtTreeSet.insert g) hg
    obtain ⟨h₂, hdelete, hread₂⟩ :=
      Heap.exists_delete ((hread₁ hit).trans ((if_neg hne).trans hread))
    refine ⟨⟨h₂, s'.uniqueGroupings.erase hit, s'.setmap⟩, ?_, hsetmap, fun p => ?_,
      ⟨old.toList.foldl Std.ExtTreeSet.insert g, ?_, fun a => ?_⟩, fun p hp => ?_⟩
    · simp [mergeHit, hread, hg, hwrite, hdelete]
    · rw [Std.ExtTreeSet.mem_erase, hunique, ne_eq, Std.compare_eq_iff_eq]
      simp only [List.mem_append, List.mem_singleton, not_or]
      grind
    · rw [hread₂, if_neg (Ne.symm hne), hread₁, if_pos rfl]
    · rw [mem_foldl_insert, Std.ExtTreeSet.mem_toList, helems, or_assoc]
      simp only [List.mem_append, List.mem_singleton, or_and_right, exists_or, exists_eq_left]
      have hmembers : a ∈ members s.heap hit ↔ a ∈ old := by
        simp [members, hold]
      rw [hmembers]
    · rw [hread₂, hread₁, if_neg hp, hother p hp]
      simp only [List.mem_append, List.mem_singleton]
      grind)
  exact ⟨s', g, hrun, hsetmap, hunique, hg, helems, hother⟩

/-- The pointers that are hit are those whose sets meet the group. -/
theorem mem_findHits_iff {G : Set (Set A)} {s : Merging A} (h : Represents G s)
    {grouping : StdSet A} {p : ℕ} :
    p ∈ (findHits s.setmap grouping).toList ↔ Hit s grouping p := by
  rw [Std.ExtTreeSet.mem_toList, mem_findHits]
  simp only [h.owner]
  exact ⟨fun ⟨a, ha, hp⟩ => ⟨a, hp, ha⟩, fun ⟨a, hp, ha⟩ => ⟨a, ha, hp⟩⟩

/-- A round goes through: no access is made through a pointer that is not in use. -/
theorem mergeGrouping_merged {G : Set (Set A)} {s : Merging A} (h : Represents G s)
    (alloc : Allocator (StdSet A)) (grouping : StdSet A) :
    ∃ s' g merged, mergeGrouping alloc s grouping = some s' ∧ Merged s s' grouping g merged := by
  obtain ⟨merged, hmerged⟩ : ∃ m, m = (s.heap.new alloc grouping).1 := ⟨_, rfl⟩
  have hfresh : s.heap.read merged = none := hmerged ▸ Heap.read_fresh alloc
  have hread : ∀ p, (s.heap.new alloc grouping).2.read p =
      if p = merged then some grouping else s.heap.read p := by
    intro p
    rw [hmerged]
    exact Heap.read_new alloc
  have hhits : ∀ p, p ∈ (findHits s.setmap grouping).toList ↔ Hit s grouping p := fun p =>
    mem_findHits_iff h
  have hapart : ∀ p, Hit s grouping p → p ≠ merged := by
    rintro p hhit rfl
    obtain ⟨t, ht⟩ := hhit.exists_read
    rw [hfresh] at ht
    cases ht
  have hmembers : ∀ p, p ≠ merged →
      members (s.heap.new alloc grouping).2 p = members s.heap p := by
    intro p hp
    simp only [members, hread, if_neg hp]
  have hnodup : (findHits s.setmap grouping).toList.Nodup :=
    Std.ExtTreeSet.distinct_toList.imp fun hcmp heq => hcmp (Std.compare_eq_iff_eq.mpr heq)
  have hlive : ∀ p ∈ (findHits s.setmap grouping).toList,
      p ≠ merged ∧ ((s.heap.new alloc grouping).2.read p).isSome := by
    intro p hp
    have hhit := (hhits p).mp hp
    obtain ⟨t, ht⟩ := hhit.exists_read
    refine ⟨hapart p hhit, ?_⟩
    rw [hread, if_neg (hapart p hhit), ht]
    rfl
  obtain ⟨s₂, g, hrun, hsetmap, hunique, hg, helems, hother⟩ :=
    @mergeHits_spec _ _ _ _ { s with heap := (s.heap.new alloc grouping).2 } _ merged grouping
      hnodup hlive (by rw [hread, if_pos rfl])
  dsimp only at hsetmap hunique helems hother
  refine ⟨{ s₂ with
    uniqueGroupings := s₂.uniqueGroupings.insert merged
    setmap := g.toList.foldl (fun setmap element => setmap.insert element merged) s₂.setmap },
    g, merged, ?_, ?_⟩
  · rw [hmerged] at hrun hg ⊢
    simp [mergeGrouping, hrun, hg]
  constructor
  · exact hfresh
  · exact hg
  · intro a
    refine (helems a).trans (or_congr_right ⟨?_, ?_⟩)
    · rintro ⟨p, hp, ha⟩
      have hhit := (hhits p).mp hp
      exact ⟨p, hhit, hmembers p (hapart p hhit) ▸ ha⟩
    · rintro ⟨p, hhit, ha⟩
      exact ⟨p, (hhits p).mpr hhit, (hmembers p (hapart p hhit)).symm ▸ ha⟩
  · intro p hp hhit
    exact (hother p hp).trans (if_pos ((hhits p).mpr hhit))
  · intro p hp hhit
    rw [← hhits] at hhit
    exact ((hother p hp).trans (if_neg hhit)).trans ((hread p).trans (if_neg hp))
  · intro p
    rw [mem_insert_iff, hunique, hhits, or_comm]
  · exact fun a ha => getElem?_foldl_insert.1 (Std.ExtTreeSet.mem_toList.mpr ha)
  · intro a ha
    rw [← hsetmap]
    exact getElem?_foldl_insert.2 fun hmem => ha (Std.ExtTreeSet.mem_toList.mp hmem)

theorem mergeGroupings_represents (alloc : Allocator (StdSet A))
    {groupings : List (StdSet A)} (hne : ∀ g ∈ groupings, (elems g).Nonempty) :
    ∃ s, groupings.foldlM (mergeGrouping alloc) ⟨.empty, ∅, ∅⟩ = some s ∧
      Represents {g | ∃ t ∈ groupings, g = elems t} s := by
  refine @exists_foldlM _ _ (mergeGrouping alloc)
    (fun done s => Represents {g | ∃ t ∈ done, g = elems t} s) groupings ⟨.empty, ∅, ∅⟩ ?_ ?_
  · have hempty : ∀ p, members (Heap.empty : Heap (StdSet A)) p = ∅ := fun p =>
      members_of_none Heap.read_empty
    constructor
    · simp
    · simp
    · simp [hempty]
    · have hfamily : members (Heap.empty : Heap (StdSet A)) = fun _ => ∅ := funext hempty
      have hgroups : {g : Set A | ∃ t ∈ ([] : List (StdSet A)), g = elems t} = ∅ := by simp
      rw [hfamily, hgroups]
      exact Classes.empty
  · rintro done t s ⟨later, hsplit⟩ h
    obtain ⟨s', g, merged, hstep, hm⟩ := mergeGrouping_merged h alloc t
    refine ⟨s', hstep, ?_⟩
    have hgroups : {g | ∃ u ∈ done ++ [t], g = elems u} =
        insert (elems t) {g | ∃ u ∈ done, g = elems u} := by
      ext g
      simp only [List.mem_append, List.mem_singleton, or_and_right, exists_or, exists_eq_left,
        Set.mem_ofPred_eq, Set.mem_insert_iff]
      exact or_comm
    rw [hgroups]
    exact hm.represents h (hne t (by simp [hsplit]))

/-- Each pointer is followed and its object freed: the sets are returned, and nothing is left. -/
theorem takeGroups_spec {h : Heap (StdSet A)} {pointers : List ℕ} (hnodup : pointers.Nodup)
    (hlive : ∀ p, p ∈ pointers ↔ (h.read p).isSome) :
    ∃ ret h', pointers.foldlM takeGroup (∅, h) = some (ret, h') ∧ (∀ p, h'.read p = none) ∧
      ∀ g, g ∈ ret ↔ ∃ p, h.read p = some g := by
  obtain ⟨⟨ret, h'⟩, hrun, hread, hret⟩ := @exists_foldlM _ _ takeGroup
    (fun done st => (∀ p, st.2.read p = if p ∈ done then none else h.read p) ∧
      ∀ g, g ∈ st.1 ↔ ∃ p ∈ done, h.read p = some g) pointers (∅, h) ⟨by simp, by simp⟩ (by
    rintro done p ⟨ret, h'⟩ ⟨later, hsplit⟩ ⟨hread, hret⟩
    dsimp only at hread hret
    have hnew : p ∉ done := by
      rw [hsplit] at hnodup
      exact fun hdone => (List.nodup_append.mp hnodup).2.2 p hdone p (List.mem_cons_self ..) rfl
    obtain ⟨g, hg⟩ := Option.isSome_iff_exists.mp ((hlive p).mp (by simp [hsplit]))
    have hg' : h'.read p = some g := by rw [hread, if_neg hnew, hg]
    obtain ⟨h₂, hdelete, hread₂⟩ := Heap.exists_delete hg'
    refine ⟨(ret.insert g, h₂), by simp [takeGroup, hg', hdelete], fun q => ?_, fun t => ?_⟩
    · rw [hread₂, hread]
      simp only [List.mem_append, List.mem_singleton]
      grind
    · rw [mem_insert_iff, hret]
      simp only [List.mem_append, List.mem_singleton, or_and_right, exists_or, exists_eq_left, hg,
        Option.some.injEq, @eq_comm _ t])
  refine ⟨ret, h', hrun, fun p => ?_, fun g => ?_⟩
  · dsimp only at hread
    rw [hread]
    split_ifs with hp
    · rfl
    · rw [hlive] at hp
      exact Option.not_isSome_iff_eq_none.mp hp
  · rw [hret]
    constructor
    · rintro ⟨p, -, hg⟩
      exact ⟨p, hg⟩
    · rintro ⟨p, hg⟩
      exact ⟨p, (hlive p).mpr (Option.isSome_of_eq_some hg), hg⟩

end Closure

/-- GetAddressGroupings returns the classes of the wallet's groups: sets that are not empty and
apart, of the addresses that occur in a group, with two addresses in one set exactly when a chain
of groups connects them. However the heap chooses its pointers, none is followed that is not in
use, and each is freed exactly as often as it is made. -/
theorem getAddressGroupings_classes (crypto : Crypto) (alloc : Allocator Group) (w : CWallet) :
    ∃ ret heap, getAddressGroupings crypto alloc w = some (ret, heap) ∧
      (∀ r ∈ ret, ∃ a, a ∈ r) ∧
      (∀ r₁ ∈ ret, ∀ r₂ ∈ ret, ∀ a, a ∈ r₁ → a ∈ r₂ → r₁ = r₂) ∧
      (∀ a, (∃ r ∈ ret, a ∈ r) ↔ ∃ g ∈ WalletGroups crypto w, a ∈ g) ∧
      (∀ a b, (∃ r ∈ ret, a ∈ r ∧ b ∈ r) ↔ Connected (WalletGroups crypto w) a b) ∧
      (∀ p, heap.read p = none) ∧ ∀ p, ∃ n, history heap.log p = freed p n := by
  obtain ⟨groupings, hcollect, hfamily⟩ := collectGroupings_spec crypto w
  have hne : ∀ g ∈ groupings.toList, (elems g).Nonempty := by
    intro g hg
    have hmem : elems g ∈ family groupings := ⟨g, Std.ExtTreeSet.mem_toList.mp hg, rfl⟩
    rw [hfamily] at hmem
    exact nonempty_of_mem_walletGroups hmem
  obtain ⟨s, hmerge, h⟩ := mergeGroupings_represents alloc hne
  have hgroups : {g | ∃ t ∈ groupings.toList, g = elems t} = WalletGroups crypto w := by
    rw [← hfamily]
    ext g
    simp [family]
  rw [hgroups] at h
  have hnodup : s.uniqueGroupings.toList.Nodup :=
    Std.ExtTreeSet.distinct_toList.imp fun hcmp heq => hcmp (Std.compare_eq_iff_eq.mpr heq)
  obtain ⟨ret, heap, htake, hread, hret⟩ := takeGroups_spec hnodup fun p => by
    rw [Std.ExtTreeSet.mem_toList, h.live]
  have hmembers : ∀ a b, (∃ r ∈ ret, a ∈ r ∧ b ∈ r) ↔
      ∃ p, a ∈ members s.heap p ∧ b ∈ members s.heap p := by
    intro a b
    constructor
    · rintro ⟨r, hr, ha, hb⟩
      obtain ⟨p, hp⟩ := (hret r).mp hr
      exact ⟨p, ⟨r, hp, ha⟩, r, hp, hb⟩
    · rintro ⟨p, ⟨r, hp, ha⟩, r', hp', hb⟩
      rw [hp, Option.some.injEq] at hp'
      exact ⟨r, (hret r).mpr ⟨p, hp⟩, ha, hp' ▸ hb⟩
  refine ⟨ret, heap, ?_, ?_, ?_, fun a => ?_, fun a b => ?_, hread, Heap.history_of_empty hread⟩
  · simp [getAddressGroupings, hcollect, mergeGroupings, hmerge, htake]
  · intro r hr
    obtain ⟨p, hp⟩ := (hret r).mp hr
    exact h.nonempty p r hp
  · intro r₁ hr₁ r₂ hr₂ a ha₁ ha₂
    obtain ⟨p, hp⟩ := (hret r₁).mp hr₁
    obtain ⟨q, hq⟩ := (hret r₂).mp hr₂
    have hpq := h.classes.disjoint a p q ⟨r₁, hp, ha₁⟩ ⟨r₂, hq, ha₂⟩
    rw [hpq, hq, Option.some.injEq] at hp
    exact hp.symm
  · rw [← h.classes.mem_iff]
    simpa using hmembers a a
  · rw [hmembers, h.classes.mem_mem_iff]

end UmbrellaLtc.AddressGroups
