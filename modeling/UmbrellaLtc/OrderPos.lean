import UmbrellaLtc.MachineInt
import UmbrellaLtc.Renumber
import UmbrellaLtc.Transaction
import Mathlib.Data.List.Sort

/-!
CWalletDB::ReorderTransactions of walletdb.cpp. The wallet's transactions and the accounting
entries of the default account get positions in the order of their time; the entries of other
accounts are not read. A position that has no int64 is an overflow.
-/

namespace UmbrellaLtc.OrderPos

open MachineInt Renumber Transaction

section Model

abbrev int64 := Signed 63

structure CWalletTx where
  hash : Uint256
  nTimeReceived : BitVec 32
  nOrderPos : int64

structure CAccountingEntry where
  strAccount : String
  nEntryNo : BitVec 64
  nTime : int64
  nOrderPos : int64

/-- One of the two pointers is null. -/
inductive TxPair where
  | wtx (wtx : CWalletTx)
  | acentry (acentry : CAccountingEntry)

namespace TxPair

def nOrderPos : TxPair → int64
  | .wtx pwtx => pwtx.nOrderPos
  | .acentry pacentry => pacentry.nOrderPos

def time : TxPair → ℤ
  | .wtx pwtx => pwtx.nTimeReceived.toNat
  | .acentry pacentry => pacentry.nTime.1

def setOrderPos (nOrderPos : int64) : TxPair → TxPair
  | .wtx pwtx => .wtx { pwtx with nOrderPos := nOrderPos }
  | .acentry pacentry => .acentry { pacentry with nOrderPos := nOrderPos }

def isEntry : TxPair → Bool
  | .wtx _ => false
  | .acentry _ => true

end TxPair

/-- mapWallet, in the order of the hashes, and the accounting entries of the database, in the
order of the cursor. -/
structure CWallet where
  mapWallet : List CWalletTx
  acentries : List CAccountingEntry

/-- CWalletDB::ListAccountCreditDebit. -/
def listAccountCreditDebit (strAccount : String) (acentries : List CAccountingEntry) :
    List CAccountingEntry :=
  if strAccount = "*" then acentries else acentries.filter (·.strAccount = strAccount)

/-- What is inserted into txByTime, in turn. -/
def txItems (w : CWallet) : List TxPair :=
  w.mapWallet.map .wtx ++ (listAccountCreditDebit "" w.acentries).map .acentry

/-- The multimap txByTime keeps equal times in the order of insertion. -/
def txByTime (w : CWallet) : List TxPair := (txItems w).insertionSort fun a b => a.time ≤ b.time

/-- What keeps ReorderTransactions from DB_LOAD_OK. -/
inductive Stop where
  | overflow
  | loadFail
deriving DecidableEq

def checked (x : ℤ) : Except Stop int64 :=
  match machine 63 x with
  | none => .error .overflow
  | some n => .ok n

def stdMax (a b : int64) : int64 := if a.1 < b.1 then b else a

/-- The items so far with their new positions, nOrderPosNext and nOrderPosOffsets. -/
structure Order where
  moved : List TxPair
  nOrderPosNext : int64
  nOrderPosOffsets : List int64

/-- nOrderPosOff. -/
def orderPosOff (nOrderPosOffsets : List int64) (nOrderPos : int64) : Except Stop int64 :=
  nOrderPosOffsets.foldlM (fun nOrderPosOff nOffsetStart =>
    if nOrderPos.1 ≥ nOffsetStart.1 then checked (nOrderPosOff.1 + 1) else .ok nOrderPosOff) 0

/-- WriteTx or WriteAccountingEntry, which may fail. -/
def writeBack (write : TxPair → Bool) (item : TxPair) : Except Stop Unit :=
  if write item then .ok () else .error .loadFail

/-- One item of txByTime. -/
def reorderOne (write : TxPair → Bool) (s : Order) (item : TxPair) : Except Stop Order := do
  if item.nOrderPos.1 = -1 then
    let nOrderPosNext ← checked (s.nOrderPosNext.1 + 1)
    let item := item.setOrderPos s.nOrderPosNext
    if item.isEntry then writeBack write item
    return ⟨s.moved ++ [item], nOrderPosNext, s.nOrderPosOffsets ++ [s.nOrderPosNext]⟩
  else
    let nOrderPosOff ← orderPosOff s.nOrderPosOffsets item.nOrderPos
    let nOrderPos ← checked (item.nOrderPos.1 + nOrderPosOff.1)
    let above ← checked (nOrderPos.1 + 1)
    let nOrderPosNext := stdMax s.nOrderPosNext above
    let item := item.setOrderPos nOrderPos
    if nOrderPosOff.1 ≠ 0 then writeBack write item
    return ⟨s.moved ++ [item], nOrderPosNext, s.nOrderPosOffsets⟩

/-- CWalletDB::ReorderTransactions: the items that it reads, with their new positions, and
nOrderPosNext. -/
def reorderTransactions (write : TxPair → Bool) (w : CWallet) : Except Stop (List TxPair × int64) :=
  do
    let s ← (txByTime w).foldlM (reorderOne write) ⟨[], 0, []⟩
    return (s.moved, s.nOrderPosNext)

end Model

section Numbers

def positions (items : List TxPair) : List ℤ := items.map fun item => item.nOrderPos.1

/-- The same entries but for their positions. -/
def SameEntries (olds news : List TxPair) : Prop :=
  List.Forall₂ (fun old new => new = old.setOrderPos new.nOrderPos) olds news

variable {write : TxPair → Bool} {done : List TxPair} {s : Order} {item : TxPair}

@[simp] theorem nOrderPos_setOrderPos (n : int64) :
    (item.setOrderPos n).nOrderPos = n := by cases item <;> rfl

theorem positions_concat : positions (done ++ [item]) = positions done ++ [item.nOrderPos.1] :=
  List.map_append

/-- The state of the loop is the numbering of the items so far. -/
structure Follows (done : List TxPair) (s : Order) : Prop where
  next : s.nOrderPosNext.1 = (number (positions done)).next
  offsets : s.nOrderPosOffsets.map Subtype.val = (number (positions done)).offsets
  moved : positions s.moved = (number (positions done)).placed.map Prod.snd
  same : SameEntries done s.moved

/-- How the loop stands after the items: an overflow comes from a next number that is too large,
and a failure from a write. -/
def Stands (write : TxPair → Bool) (done : List TxPair) : Except Stop Order → Prop
  | .ok s => Follows done s
  | .error .overflow => 2 ^ 63 ≤ (number (positions done)).next
  | .error .loadFail => ∃ item, write item = false

theorem checked_cases (x : ℤ) :
    (∃ n : int64, checked x = .ok n ∧ n.1 = x) ∨
      checked x = .error .overflow ∧ ¬ InRange 63 x := by
  unfold checked
  by_cases h : InRange 63 x
  · rw [machine_eq h]
    exact Or.inl ⟨_, rfl, rfl⟩
  · rw [machine_none h]
    exact Or.inr ⟨rfl, h⟩

theorem writeBack_cases (write : TxPair → Bool) (item : TxPair) :
    writeBack write item = .ok () ∨
      writeBack write item = .error .loadFail ∧ write item = false := by
  unfold writeBack
  cases write item with
  | true => exact Or.inl rfl
  | false => exact Or.inr ⟨rfl, rfl⟩

theorem orderPosOff_spec {offsets : List int64} (hlength : (offsets.length : ℤ) < 2 ^ 63)
    (p : int64) : ∃ n : int64, orderPosOff offsets p = .ok n ∧
      n.1 = ((offsets.map Subtype.val).countP (· ≤ p.1) : ℕ) := by
  unfold orderPosOff
  induction offsets using List.reverseRecOn with
  | nil => exact ⟨0, rfl, rfl⟩
  | append_singleton offsets d ih =>
    rw [List.length_append, List.length_singleton] at hlength
    push_cast at hlength
    obtain ⟨n, hrun, hn⟩ := ih (by omega)
    rw [List.foldlM_append, hrun, List.map_append, List.countP_append]
    have hle : (offsets.map Subtype.val).countP (· ≤ p.1) ≤ offsets.length := by
      simpa using @List.countP_le_length _ (fun d => decide (d ≤ p.1)) (offsets.map Subtype.val)
    by_cases hd : d.1 ≤ p.1
    · have hrange : InRange 63 (n.1 + 1) := by
        unfold InRange
        omega
      refine ⟨⟨n.1 + 1, hrange⟩, ?_, ?_⟩
      · have hchecked : checked (n.1 + 1) = .ok ⟨n.1 + 1, hrange⟩ := by
          rw [checked, machine_eq hrange]
        simp only [List.foldlM_cons, List.foldlM_nil, ge_iff_le, if_pos hd]
        exact congrArg (· >>= pure) hchecked
      · simp [hd, hn]
    · refine ⟨n, ?_, by simp [hd, hn]⟩
      simp only [List.foldlM_cons, List.foldlM_nil, ge_iff_le, if_neg hd]
      rfl

theorem sameEntries_concat (h : SameEntries done s.moved) (n : int64) :
    SameEntries (done ++ [item]) (s.moved ++ [item.setOrderPos n]) := by
  refine List.rel_append h (List.Forall₂.cons ?_ .nil)
  rw [nOrderPos_setOrderPos]

/-- What is left to do is to write the item back, or nothing. -/
theorem stands_writeBack {s' : Order} (h : Follows (done ++ [item]) s') (moved : TxPair)
    (asked : Prop) [Decidable asked] :
    Stands write (done ++ [item])
      (if asked then writeBack write moved >>= fun _ => .ok s' else .ok s') := by
  split_ifs
  · obtain hwrite | ⟨hwrite, hfail⟩ := writeBack_cases write moved
    · rw [hwrite]
      exact h
    · rw [hwrite]
      exact ⟨moved, hfail⟩
  · exact h

/-- An item without a position. -/
theorem reorderOne_none (h : Follows done s) (hdone : Numbers (positions done))
    (hnone : item.nOrderPos.1 = -1) :
    Stands write (done ++ [item]) (reorderOne write s item) := by
  have hnumber : number (positions (done ++ [item])) = place (number (positions done)) (-1) := by
    rw [positions_concat, number_concat, hnone]
  rw [place, if_pos rfl] at hnumber
  have hnext := h.next
  unfold reorderOne
  rw [if_pos hnone]
  obtain ⟨next, hchecked, hval⟩ | ⟨hchecked, hrange⟩ := checked_cases (s.nOrderPosNext.1 + 1)
  · have hfollows : Follows (done ++ [item]) ⟨s.moved ++ [item.setOrderPos s.nOrderPosNext], next,
        s.nOrderPosOffsets ++ [s.nOrderPosNext]⟩ := by
      refine ⟨?_, ?_, ?_, sameEntries_concat h.same _⟩
      · rw [hnumber, hval, hnext]
      · rw [hnumber, List.map_append, h.offsets, ← hnext]
        rfl
      · rw [hnumber, positions_concat, h.moved, List.map_append, ← hnext, nOrderPos_setOrderPos]
        rfl
    rw [hchecked]
    exact stands_writeBack hfollows _ ((item.setOrderPos s.nOrderPosNext).isEntry = true)
  · rw [hchecked]
    show 2 ^ 63 ≤ (number (positions (done ++ [item]))).next
    rw [hnumber]
    dsimp only
    have hnonneg := (sound_number hdone).nonneg
    have hsmall := s.nOrderPosNext.2.2
    unfold InRange at hrange
    omega

/-- nOrderPosOff is the number of offsets up to the position, with no overflow. -/
theorem Follows.orderPosOff_item (h : Follows done s) (hdone : Numbers (positions done))
    (pair : TxPair) :
    ∃ off : int64, orderPosOff s.nOrderPosOffsets pair.nOrderPos = .ok off ∧
      pair.nOrderPos.1 + off.1 = shift (number (positions done)).offsets pair.nOrderPos.1 := by
  have hlength : (s.nOrderPosOffsets.length : ℤ) < 2 ^ 63 := by
    have hle := (sound_number hdone).length_offsets_le
    have hnext := h.next
    have hsmall := s.nOrderPosNext.2.2
    rw [← h.offsets, List.length_map] at hle
    omega
  obtain ⟨off, hoff, hval⟩ := orderPosOff_spec hlength pair.nOrderPos
  rw [h.offsets] at hval
  refine ⟨off, hoff, ?_⟩
  rw [hval]
  rfl

section Positioned

variable (h : Follows done s) (hnone : item.nOrderPos.1 ≠ -1)

include hnone in
theorem number_positioned : number (positions (done ++ [item])) =
    ⟨(number (positions done)).placed ++ [(item.nOrderPos.1,
        shift (number (positions done)).offsets item.nOrderPos.1)],
      max (number (positions done)).next
        (shift (number (positions done)).offsets item.nOrderPos.1 + 1),
      (number (positions done)).offsets⟩ := by
  rw [positions_concat, number_concat, place, if_neg hnone]

include h hnone

/-- The item is moved, and the next position is above it. -/
theorem Follows.moved_item {n above : int64}
    (hn : n.1 = shift (number (positions done)).offsets item.nOrderPos.1)
    (habove : above.1 = n.1 + 1) :
    Follows (done ++ [item]) ⟨s.moved ++ [item.setOrderPos n], stdMax s.nOrderPosNext above,
      s.nOrderPosOffsets⟩ := by
  have hnumber := @number_positioned done item hnone
  refine ⟨?_, ?_, ?_, sameEntries_concat h.same _⟩
  · rw [hnumber]
    dsimp only
    rw [← h.next, ← hn, ← habove]
    unfold stdMax
    split_ifs with hlt
    · rw [max_eq_right hlt.le]
    · rw [max_eq_left (not_lt.mp hlt)]
  · rw [hnumber]
    exact h.offsets
  · rw [hnumber, positions_concat, h.moved, List.map_append, nOrderPos_setOrderPos, hn]
    rfl

/-- An item with a position. -/
theorem reorderOne_some (hdone : Numbers (positions done)) (hnonneg : 0 ≤ item.nOrderPos.1) :
    Stands write (done ++ [item]) (reorderOne write s item) := by
  obtain ⟨off, hoff, hshift⟩ := h.orderPosOff_item hdone item
  have hle := le_shift (number (positions done)).offsets item.nOrderPos.1
  have hover : ∀ x, x ≤ shift (number (positions done)).offsets item.nOrderPos.1 + 1 → 0 ≤ x →
      ¬ InRange 63 x → 2 ^ 63 ≤ (number (positions (done ++ [item]))).next := by
    intro x hx hx0 hrange
    rw [number_positioned hnone]
    refine le_trans ?_ (le_max_right _ _)
    unfold InRange at hrange
    omega
  unfold reorderOne
  rw [if_neg hnone, hoff]
  dsimp only [bind, Except.bind]
  obtain ⟨n, hchecked, hval⟩ | ⟨hchecked, hrange⟩ := checked_cases (item.nOrderPos.1 + off.1)
  · rw [hchecked]
    dsimp only
    obtain ⟨above, habove, haval⟩ | ⟨habove, hrange⟩ := checked_cases (n.1 + 1)
    · rw [habove]
      exact stands_writeBack (h.moved_item hnone (hval.trans hshift) haval) _ (off.1 ≠ 0)
    · rw [habove]
      exact hover _ (by omega) (by omega) hrange
  · rw [hchecked]
    exact hover _ (by omega) (by omega) hrange

end Positioned

theorem reorderOne_stands (h : Follows done s) (hpos : Numbers (positions (done ++ [item]))) :
    Stands write (done ++ [item]) (reorderOne write s item) := by
  rw [positions_concat] at hpos
  have hdone : Numbers (positions done) := fun p hp => hpos p (List.mem_append_left _ hp)
  obtain hnone | hnonneg :=
    hpos item.nOrderPos.1 (List.mem_append_right _ (List.mem_singleton_self _))
  · exact reorderOne_none h hdone hnone
  · exact reorderOne_some h (by omega) hdone hnonneg

/-- The whole loop. -/
theorem reorder_stands (items : List TxPair) (h : Follows done s)
    (hpos : Numbers (positions (done ++ items))) :
    Stands write (done ++ items) (items.foldlM (reorderOne write) s) := by
  induction items generalizing done s with
  | nil =>
    rw [List.append_nil]
    exact h
  | cons item rest ih =>
    have hsplit : done ++ item :: rest = (done ++ [item]) ++ rest := by simp
    rw [hsplit] at hpos ⊢
    have hsame : positions (done ++ [item] ++ rest) =
        positions (done ++ [item]) ++ positions rest := List.map_append
    have hone : Stands write (done ++ [item]) (reorderOne write s item) :=
      reorderOne_stands h fun p hp => hpos p (by rw [hsame]; exact List.mem_append_left _ hp)
    rw [List.foldlM_cons]
    cases hrun : reorderOne write s item with
    | ok s' =>
      rw [hrun] at hone
      exact ih hone hpos
    | error stop =>
      rw [hrun] at hone
      cases stop with
      | overflow =>
        show 2 ^ 63 ≤ (number (positions (done ++ [item] ++ rest))).next
        rw [hsame]
        exact le_trans hone (next_mono _ _)
      | loadFail => exact hone

end Numbers

section Spec

/-- The transactions and all accounting entries. -/
def allItems (w : CWallet) : List TxPair :=
  w.mapWallet.map .wtx ++ w.acentries.map .acentry

/-- The positions of the entries of other accounts. -/
def others (w : CWallet) : List ℤ :=
  (w.acentries.filter fun e => !(e.strAccount = "")).map fun e => e.nOrderPos.1

/-- The same entries have new positions: distinct ones, of which nOrderPosNext is above all, in the
old order where there was one, and after all items before it for an item that had none. -/
structure RightlyOrdered (w : CWallet) (moved : List TxPair) (nOrderPosNext : int64) : Prop where
  same : SameEntries (txByTime w) moved
  renumbered :
    Renumbered ((positions (txByTime w)).zip (positions moved)) nOrderPosNext.1 (others w)

/-- No operation overflows, and unless a write fails the order is right. -/
def ReordersRight (w : CWallet) : Prop :=
  ∀ write, reorderTransactions write w ≠ .error .overflow ∧
    ∀ moved nOrderPosNext, reorderTransactions write w = .ok (moved, nOrderPosNext) →
      RightlyOrdered w moved nOrderPosNext

/-- There is room for the items without a position, below the int64 limit. -/
def HasRoom (w : CWallet) : Prop :=
  Separated (positions (txByTime w)) (others w) ∧ room (positions (txByTime w)) < 2 ^ 63

variable {w : CWallet}

theorem perm_positions (w : CWallet) :
    (positions (txByTime w) ++ others w).Perm (positions (allItems w)) := by
  have hsorted : (positions (txByTime w)).Perm (positions (txItems w)) :=
    (List.perm_insertionSort _ (txItems w)).map _
  have hentries : ((listAccountCreditDebit "" w.acentries).map (fun e => e.nOrderPos.1) ++
      others w).Perm (w.acentries.map fun e => e.nOrderPos.1) := by
    rw [others, ← List.map_append]
    exact (List.filter_append_perm (fun e : CAccountingEntry => decide (e.strAccount = ""))
      w.acentries).map _
  refine (hsorted.append_right _).trans ?_
  simp only [positions, txItems, allItems, List.map_append, List.map_map, List.append_assoc]
  exact hentries.append_left _

theorem numbers_of_all (hpos : Numbers (positions (allItems w))) :
    Numbers (positions (txByTime w)) := fun p hp =>
  hpos p ((perm_positions w).mem_iff.mp (List.mem_append_left _ hp))

theorem distinct_of_all (hdistinct : ((positions (allItems w)).filter (· ≠ -1)).Nodup) :
    Distinct (positions (txByTime w)) (others w) :=
  ((perm_positions w).filter _).nodup_iff.mpr hdistinct

theorem follows_nil : Follows [] ⟨[], 0, []⟩ := ⟨rfl, rfl, rfl, .nil⟩

/-- Where the loop goes through, it leaves the numbering of the positions. -/
theorem reorderTransactions_ok (hpos : Numbers (positions (txByTime w))) {write : TxPair → Bool}
    {moved : List TxPair} {nOrderPosNext : int64}
    (hrun : reorderTransactions write w = .ok (moved, nOrderPosNext)) :
    SameEntries (txByTime w) moved ∧
      nOrderPosNext.1 = (number (positions (txByTime w))).next ∧
      (positions (txByTime w)).zip (positions moved) =
        (number (positions (txByTime w))).placed := by
  have hstands := @reorder_stands write _ _ (txByTime w) follows_nil hpos
  unfold reorderTransactions at hrun
  rw [List.nil_append] at hstands
  cases hloop : (txByTime w).foldlM (reorderOne write) ⟨[], 0, []⟩ with
  | error stop =>
    rw [hloop] at hrun
    cases hrun
  | ok s =>
    rw [hloop] at hrun hstands
    cases hrun
    have hfollows : Follows (txByTime w) s := hstands
    exact ⟨hfollows.same, hfollows.next,
      (List.zip_of_prod (sound_number hpos).olds hfollows.moved.symm).symm⟩

theorem reorderTransactions_error (hpos : Numbers (positions (txByTime w))) {write : TxPair → Bool}
    {stop : Stop} (hrun : reorderTransactions write w = .error stop) :
    Stands write (txByTime w) (.error stop) := by
  have hstands := @reorder_stands write _ _ (txByTime w) follows_nil hpos
  unfold reorderTransactions at hrun
  rw [List.nil_append] at hstands
  cases hloop : (txByTime w).foldlM (reorderOne write) ⟨[], 0, []⟩ with
  | error stop' =>
    rw [hloop] at hrun hstands
    cases hrun
    exact hstands
  | ok s =>
    rw [hloop] at hrun
    cases hrun

/-- ReorderTransactions is right on every wallet that has room, and where the positions leave no
gap on no other. -/
theorem reorderTransactions_right (w : CWallet) (hpos : Numbers (positions (allItems w)))
    (hdistinct : ((positions (allItems w)).filter (· ≠ -1)).Nodup) :
    (HasRoom w → ReordersRight w) ∧
      (Gapless (positions (txByTime w)) (others w) → (ReordersRight w ↔ HasRoom w)) := by
  have hnumbers := numbers_of_all hpos
  have henough : HasRoom w → ReordersRight w := by
    rintro ⟨hsep, hroom⟩ write
    constructor
    · intro hrun
      have hover : 2 ^ 63 ≤ (number (positions (txByTime w))).next :=
        reorderTransactions_error hnumbers hrun
      have hbounded := (sound_number hnumbers).bounded
      omega
    · intro moved nOrderPosNext hrun
      obtain ⟨hsame, hnext, hplaced⟩ := reorderTransactions_ok hnumbers hrun
      refine ⟨hsame, ?_⟩
      rw [hplaced, hnext]
      exact renumbered_of_separated hnumbers (distinct_of_all hdistinct) hsep
  refine ⟨henough, fun hgapless => ⟨fun hright => ?_, henough⟩⟩
  -- with writes that do not fail, the loop can only go through
  obtain ⟨hover, hok⟩ := hright fun _ => true
  cases hrun : reorderTransactions (fun _ => true) w with
  | error stop =>
    cases stop with
    | overflow => exact (hover hrun).elim
    | loadFail =>
      obtain ⟨item, hfail⟩ := reorderTransactions_error hnumbers hrun
      cases hfail
  | ok result =>
    obtain ⟨moved, nOrderPosNext⟩ := result
    obtain ⟨-, hnext, hplaced⟩ := reorderTransactions_ok hnumbers hrun
    have hrenumbered := (hok moved nOrderPosNext hrun).renumbered
    rw [hplaced, hnext] at hrenumbered
    refine ⟨separated_of_renumbered hnumbers hgapless hrenumbered, ?_⟩
    have hroom := room_le_next hnumbers hgapless hrenumbered (List.append_nil _).symm
    have hsmall := nOrderPosNext.2.2
    omega

/-- Transactions with these positions, received a second apart. -/
def received (pos : List ℤ) : List CWalletTx :=
  pos.zipIdx.map fun x => ⟨BitVec.ofNat 256 x.2, BitVec.ofNat 32 x.2, wrap 63 x.1⟩

theorem reorderTransactions_right_three : ReordersRight ⟨received [0, -1, 2], []⟩ := by
  have hpos : Numbers (positions (allItems ⟨received [0, -1, 2], []⟩)) := by
    unfold Numbers
    decide
  have hitems : positions (txByTime ⟨received [0, -1, 2], []⟩) = [0, -1, 2] := by decide
  have hroom : HasRoom ⟨received [0, -1, 2], []⟩ := by
    unfold HasRoom
    rw [hitems]
    refine ⟨⟨fun before after hl q hq hlt => ?_, by simp [others], by simp [others]⟩, by decide⟩
    rcases before with _ | ⟨a, _ | ⟨b, before⟩⟩
    · simp at hl
    · simp only [List.cons_append, List.nil_append, List.cons.injEq] at hl
      obtain ⟨rfl, -, rfl⟩ := hl
      rw [List.mem_singleton.mp hq]
      decide
    · rcases before with _ | ⟨c, before⟩
      · simp at hl
      · simp at hl
  exact (reorderTransactions_right _ hpos (by decide)).1 hroom

/-- Of four transactions the first and the third have no position: the third and the fourth both
get the position 2. An entry of another account without a position keeps none. -/
theorem interleaved_collide :
    (∃ moved nOrderPosNext, reorderTransactions (fun _ => true) ⟨received [-1, 0, -1, 1], []⟩ =
        .ok (moved, nOrderPosNext) ∧ positions moved = [0, 1, 2, 2] ∧
      ¬ RightlyOrdered ⟨received [-1, 0, -1, 1], []⟩ moved nOrderPosNext) ∧
    ∃ nOrderPosNext, reorderTransactions (fun _ => true) ⟨[], [⟨"a", 1, 0, wrap 63 (-1)⟩]⟩ =
        .ok ([], nOrderPosNext) ∧
      ¬ RightlyOrdered ⟨[], [⟨"a", 1, 0, wrap 63 (-1)⟩]⟩ [] nOrderPosNext := by
  refine ⟨⟨_, _, rfl, by decide, fun h => ?_⟩, _, rfl, fun h => ?_⟩
  · have hdistinct := h.renumbered.distinct
    revert hdistinct
    decide
  · have hbounds := h.renumbered.bounds (-1, -1)
    revert hbounds
    decide

end Spec

end UmbrellaLtc.OrderPos
