import UmbrellaLtc.Transaction
import Mathlib.Data.List.DropRight
import Mathlib.Algebra.BigOperators.Group.List.Basic
import Mathlib.Tactic.Linarith

/-!
The coins of one transaction, from main.h. Spent outputs are null outputs in the
middle of vout and are dropped at its end, so that an object is read through
`output`: the unspent output at an index, if there is one. Spending remembers
what is needed to undo it, and the header only with the last output.
-/

namespace UmbrellaLtc.Coins

open Codec Transaction

structure CCoins where
  fCoinBase : Bool
  vout : List CTxOut
  nHeight : ℕ
  nVersion : BitVec 32
deriving DecidableEq

structure CTxInUndo where
  txout : CTxOut
  fCoinBase : Bool
  nHeight : ℕ
  nVersion : BitVec 32
deriving DecidableEq

structure CTxUndo where
  vprevout : List CTxInUndo
deriving DecidableEq

structure CBlockUndo where
  vtxundo : List CTxUndo
deriving DecidableEq

namespace CCoins

/-- `CCoins(tx, nHeightIn)`. -/
def ofTx (tx : CTransaction) (nHeight : ℕ) : CCoins :=
  ⟨tx.isCoinBase, tx.vout, nHeight, tx.nVersion⟩

/-- `CCoins()`. -/
def empty : CCoins := ⟨false, [], 0, 0⟩

def cleanup (c : CCoins) : CCoins := { c with vout := c.vout.rdropWhile CTxOut.isNull }

def isAvailable (c : CCoins) (nPos : ℕ) : Bool :=
  match c.vout[nPos]? with
  | none => false
  | some out => !out.isNull

def isPruned (c : CCoins) : Bool := c.vout.all CTxOut.isNull

/-- CCoins::Spend; `none` when it returns false. -/
def spend (c : CCoins) (n : ℕ) : Option (CTxInUndo × CCoins) :=
  match c.vout[n]? with
  | none => none
  | some out =>
      if out.isNull then none
      else
        let c' := cleanup { c with vout := c.vout.set n CTxOut.null }
        let undo :=
          if c'.vout.length = 0 then ⟨out, c'.fCoinBase, c'.nHeight, c'.nVersion⟩
          else ⟨out, false, 0, 0⟩
        some (undo, c')

/-- The unspent output at an index. -/
def output (c : CCoins) (n : ℕ) : Option CTxOut := c.vout[n]?.filter fun out => !out.isNull

/-- The sum of the unspent outputs. -/
def value (c : CCoins) : ℤ := ((c.vout.filter fun out => !out.isNull).map CTxOut.value).sum

/-- The last output of vout is not null. -/
def Trimmed (c : CCoins) : Prop := ∀ out, c.vout.getLast? = some out → out.isNull = false

end CCoins

/-- `vout.resize(n)` when vout is shorter; the new outputs are null. -/
def CCoins.resize (c : CCoins) (n : ℕ) : CCoins :=
  if c.vout.length < n then
    { c with vout := c.vout ++ List.replicate (n - c.vout.length) CTxOut.null }
  else c

/-- The object that an output is put back into: a new one with the header of the
undo record when it has one. -/
def restoreBase (coins : CCoins) (undo : CTxInUndo) : CCoins :=
  if undo.nHeight ≠ 0 then
    { CCoins.empty with
      fCoinBase := undo.fCoinBase
      nHeight := undo.nHeight
      nVersion := undo.nVersion }
  else coins

/-- The part of DisconnectBlock that puts one output back, with the flag that says
whether nothing was wrong. -/
def restore (coins : CCoins) (undo : CTxInUndo) (n : ℕ) : Bool × CCoins :=
  let fClean := if undo.nHeight ≠ 0 then coins.isPruned else !coins.isPruned
  let coins := restoreBase coins undo
  let fClean := fClean && !coins.isAvailable n
  let coins := coins.resize (n + 1)
  (fClean, { coins with vout := coins.vout.set n undo.txout })

/-- The same unspent outputs under the same header; the header of an object without
unspent outputs does not count. -/
structure Same (a b : CCoins) : Prop where
  output : ∀ n, a.output n = b.output n
  header : a.isPruned = false →
    a.fCoinBase = b.fCoinBase ∧ a.nHeight = b.nHeight ∧ a.nVersion = b.nVersion

namespace CCoins

theorem isAvailable_iff (c : CCoins) (n : ℕ) :
    c.isAvailable n = true ↔ ∃ out, c.output n = some out := by
  unfold isAvailable output
  cases c.vout[n]? with
  | none => simp
  | some out => cases hnull : out.isNull <;> simp [hnull]

theorem output_eq_some_iff (c : CCoins) (n : ℕ) (out : CTxOut) :
    c.output n = some out ↔ c.vout[n]? = some out ∧ out.isNull = false := by
  unfold output
  rw [Option.filter_eq_some_iff]
  simp

theorem isPruned_iff (c : CCoins) : c.isPruned = true ↔ ∀ n, c.output n = none := by
  rw [isPruned, List.all_eq_true]
  constructor
  · intro h n
    rw [Option.eq_none_iff_forall_ne_some]
    intro out hout
    obtain ⟨hget, hnull⟩ := (output_eq_some_iff c n out).mp hout
    rw [h out (List.mem_of_getElem? hget)] at hnull
    exact absurd hnull (by simp)
  · intro h out hmem
    obtain ⟨n, hlt, hget⟩ := List.getElem_of_mem hmem
    by_contra hnull
    have hsome : c.output n = some out :=
      (output_eq_some_iff c n out).mpr
        ⟨List.getElem?_eq_some_iff.mpr ⟨hlt, hget⟩, by simpa using hnull⟩
    rw [h n] at hsome
    exact absurd hsome (by simp)

theorem isPruned_empty : empty.isPruned = true := rfl

theorem not_isPruned_of_output {c : CCoins} {n : ℕ} {out : CTxOut} (h : c.output n = some out) :
    c.isPruned = false := by
  rw [← Bool.not_eq_true, isPruned_iff]
  intro hall
  rw [hall n] at h
  exact absurd h (by simp)

/-- Dropping spent outputs at the end changes no unspent output. -/
theorem output_cleanup (c : CCoins) (n : ℕ) : c.cleanup.output n = c.output n := by
  obtain ⟨fCoinBase, vout, nHeight, nVersion⟩ := c
  simp only [cleanup, output]
  induction vout using List.reverseRecOn with
  | nil => rfl
  | append_singleton l out ih =>
    by_cases hnull : out.isNull = true
    · rw [List.rdropWhile_concat_pos _ _ _ hnull, ih]
      rcases Nat.lt_trichotomy n l.length with hlt | heq | hgt
      · rw [List.getElem?_append_left hlt]
      · subst heq
        rw [List.getElem?_append_right (le_refl _), List.getElem?_eq_none (le_refl l.length)]
        simp [Option.filter, hnull]
      · rw [List.getElem?_append_right hgt.le, List.getElem?_eq_none hgt.le,
          List.getElem?_eq_none (by rw [List.length_singleton]; omega)]
    · rw [List.rdropWhile_concat_neg _ _ _ hnull]

theorem trimmed_cleanup (c : CCoins) : c.cleanup.Trimmed := by
  intro out hlast
  have hne : c.vout.rdropWhile CTxOut.isNull ≠ [] := by
    intro hnil
    rw [cleanup, hnil] at hlast
    exact absurd hlast (by simp)
  have hget := List.rdropWhile_last_not CTxOut.isNull c.vout hne
  rw [cleanup, List.getLast?_eq_some_getLast hne, Option.some.injEq] at hlast
  rw [← hlast]
  simpa using hget

/-- Without outputs at the end to drop, an object is pruned only when it is empty. -/
theorem Trimmed.isPruned_iff {c : CCoins} (h : c.Trimmed) : c.isPruned = true ↔ c.vout = [] := by
  constructor
  · intro hpruned
    by_contra hne
    have hlast := List.getLast?_eq_some_getLast hne
    have hnull := h _ hlast
    rw [isPruned, List.all_eq_true] at hpruned
    rw [hpruned _ (List.getLast_mem hne)] at hnull
    exact absurd hnull (by simp)
  · intro hnil
    rw [isPruned, hnil]
    rfl

theorem output_set (c : CCoins) (n m : ℕ) (out : CTxOut) (hn : n < c.vout.length) :
    ({ c with vout := c.vout.set n out } : CCoins).output m =
      if m = n then (if out.isNull then none else some out) else c.output m := by
  unfold output
  rw [List.getElem?_set]
  by_cases hm : m = n
  · subst hm
    cases hnull : out.isNull <;> simp [hn, hnull]
  · simp [hm, Ne.symm hm]

/-- What Spend does: it takes one output away and keeps the rest, and its undo record
has the output, and the header when nothing is left. -/
structure Spends (c : CCoins) (n : ℕ) (undo : CTxInUndo) (c' : CCoins) : Prop where
  output_self : c.output n = some undo.txout
  output_spent : c'.output n = none
  output_other : ∀ m, m ≠ n → c'.output m = c.output m
  trimmed : c'.Trimmed
  fCoinBase : c'.fCoinBase = c.fCoinBase
  nHeight : c'.nHeight = c.nHeight
  nVersion : c'.nVersion = c.nVersion
  undo_last : c'.isPruned = true →
    undo.fCoinBase = c.fCoinBase ∧ undo.nHeight = c.nHeight ∧ undo.nVersion = c.nVersion
  undo_more : c'.isPruned = false → undo.nHeight = 0

theorem spend_spec {c : CCoins} {n : ℕ} {undo : CTxInUndo} {c' : CCoins}
    (h : c.spend n = some (undo, c')) : Spends c n undo c' := by
  unfold spend at h
  cases hget : c.vout[n]? with
  | none => simp [hget] at h
  | some out =>
    have hn : n < c.vout.length := (List.getElem?_eq_some_iff.mp hget).1
    rw [hget] at h
    dsimp only at h
    split_ifs at h with hnull hlen
    all_goals
      simp only [Option.some.injEq, Prod.mk.injEq] at h
      obtain ⟨rfl, rfl⟩ := h
    all_goals
      have htrim : (cleanup { c with vout := c.vout.set n CTxOut.null }).Trimmed :=
        trimmed_cleanup _
      have hself : c.output n = some out :=
        (output_eq_some_iff c n out).mpr ⟨hget, by simpa using hnull⟩
      have hout : ∀ m, (cleanup { c with vout := c.vout.set n CTxOut.null }).output m =
          if m = n then none else c.output m := by
        intro m
        rw [output_cleanup, output_set c n m _ hn]
        rfl
      have hspent := (hout n).trans (if_pos rfl)
      have hother := fun m hm => (hout m).trans (if_neg hm)
    · refine ⟨hself, hspent, hother, htrim, rfl, rfl, rfl, fun _ => ⟨rfl, rfl, rfl⟩, fun hp => ?_⟩
      have hpruned := htrim.isPruned_iff.mpr (List.length_eq_zero_iff.mp hlen)
      rw [hpruned] at hp
      exact absurd hp (by simp)
    · refine ⟨hself, hspent, hother, htrim, rfl, rfl, rfl, fun hp => ?_, fun _ => rfl⟩
      have hnil := htrim.isPruned_iff.mp hp
      rw [hnil] at hlen
      exact absurd rfl hlen

/-- Spend succeeds on every available output. -/
theorem spend_isSome {c : CCoins} {n : ℕ} (h : c.isAvailable n = true) :
    ∃ undo c', c.spend n = some (undo, c') := by
  obtain ⟨out, hout⟩ := (isAvailable_iff c n).mp h
  obtain ⟨hget, hnull⟩ := (output_eq_some_iff c n out).mp hout
  unfold spend
  rw [hget]
  simp [hnull]

/-- Null outputs at the end change no unspent output. -/
theorem output_resize (c : CCoins) (k m : ℕ) : (c.resize k).output m = c.output m := by
  unfold resize
  split_ifs with hlen
  · unfold output
    rcases Nat.lt_or_ge m c.vout.length with hlt | hge
    · rw [List.getElem?_append_left hlt]
    · rw [List.getElem?_append_right hge, List.getElem?_eq_none hge, List.getElem?_replicate]
      split_ifs <;> rfl
  · rfl

theorem length_resize (c : CCoins) (k : ℕ) : (c.resize k).vout.length = max c.vout.length k := by
  unfold resize
  split_ifs with hlen
  · rw [List.length_append, List.length_replicate]
    omega
  · omega

theorem value_cleanup (c : CCoins) : c.cleanup.value = c.value := by
  obtain ⟨fCoinBase, vout, nHeight, nVersion⟩ := c
  simp only [cleanup, value]
  induction vout using List.reverseRecOn with
  | nil => rfl
  | append_singleton l out ih =>
    by_cases hnull : out.isNull = true
    · rw [List.rdropWhile_concat_pos _ _ _ hnull, ih, List.filter_append]
      simp [hnull]
    · rw [List.rdropWhile_concat_neg _ _ _ hnull]

theorem value_set_null (c : CCoins) (n : ℕ) (out : CTxOut) (h : c.output n = some out) :
    ({ c with vout := c.vout.set n CTxOut.null } : CCoins).value = c.value - out.value := by
  obtain ⟨hget, hnull⟩ := (output_eq_some_iff c n out).mp h
  obtain ⟨hn, rfl⟩ := List.getElem?_eq_some_iff.mp hget
  have hsplit : c.vout = c.vout.take n ++ c.vout[n] :: c.vout.drop (n + 1) := by
    rw [← List.drop_eq_getElem_cons hn, List.take_append_drop]
  have hvalue : c.value =
      (((c.vout.take n ++ c.vout[n] :: c.vout.drop (n + 1)).filter fun out => !out.isNull).map
        CTxOut.value).sum := by
    rw [← hsplit, value]
  rw [hvalue, value, List.set_eq_take_append_cons_drop, if_pos hn]
  simp only [List.filter_append, List.filter_cons, hnull, CTxOut.isNull_null, Bool.not_true,
    Bool.not_false, Bool.false_eq_true, if_true, if_false, List.map_append, List.map_cons,
    List.sum_append, List.sum_cons]
  ring

theorem value_spend {c : CCoins} {n : ℕ} {undo : CTxInUndo} {c' : CCoins}
    (h : c.spend n = some (undo, c')) : c'.value = c.value - undo.txout.value := by
  have hself := (spend_spec h).output_self
  unfold spend at h
  cases hget : c.vout[n]? with
  | none => simp [hget] at h
  | some out =>
    rw [hget] at h
    dsimp only at h
    split_ifs at h
    all_goals
      simp only [Option.some.injEq, Prod.mk.injEq] at h
      obtain ⟨rfl, rfl⟩ := h
      rw [value_cleanup, value_set_null c n out hself]

theorem value_of_isPruned {c : CCoins} (h : c.isPruned = true) : c.value = 0 := by
  have hfilter : (c.vout.filter fun out => !out.isNull) = [] := by
    rw [List.filter_eq_nil_iff]
    intro out hmem
    rw [isPruned, List.all_eq_true] at h
    simp [h out hmem]
  rw [value, hfilter]
  rfl

end CCoins

theorem Same.refl (c : CCoins) : Same c c := ⟨fun _ => rfl, fun _ => ⟨rfl, rfl, rfl⟩⟩

theorem Same.isPruned {a b : CCoins} (h : Same a b) : a.isPruned = b.isPruned := by
  rw [Bool.eq_iff_iff, CCoins.isPruned_iff, CCoins.isPruned_iff]
  constructor
  · intro ha n
    rw [← h.output n, ha n]
  · intro hb n
    rw [h.output n, hb n]

theorem Same.symm {a b : CCoins} (h : Same a b) : Same b a := by
  refine ⟨fun n => (h.output n).symm, fun hp => ?_⟩
  obtain ⟨h1, h2, h3⟩ := h.header (h.isPruned.trans hp)
  exact ⟨h1.symm, h2.symm, h3.symm⟩

theorem Same.trans {a b c : CCoins} (hab : Same a b) (hbc : Same b c) : Same a c := by
  refine ⟨fun n => (hab.output n).trans (hbc.output n), fun hp => ?_⟩
  obtain ⟨h1, h2, h3⟩ := hab.header hp
  obtain ⟨h1', h2', h3'⟩ := hbc.header (hab.isPruned ▸ hp)
  exact ⟨h1.trans h1', h2.trans h2', h3.trans h3'⟩

theorem same_of_isPruned {a b : CCoins} (ha : a.isPruned = true) (hb : b.isPruned = true) :
    Same a b := by
  refine ⟨fun n => ?_, fun hp => absurd (ha.symm.trans hp) (by simp)⟩
  rw [(CCoins.isPruned_iff a).mp ha n, (CCoins.isPruned_iff b).mp hb n]

theorem restore_output (d : CCoins) (undo : CTxInUndo) (n m : ℕ) (hnull : undo.txout.isNull = false) :
    (restore d undo n).2.output m =
      if m = n then some undo.txout else (restoreBase d undo).output m := by
  have hlen : n < ((restoreBase d undo).resize (n + 1)).vout.length := by
    rw [CCoins.length_resize]
    omega
  unfold restore
  rw [CCoins.output_set _ n m _ hlen, CCoins.output_resize, hnull]
  rfl

theorem restore_trimmed (d : CCoins) (undo : CTxInUndo) (n : ℕ) (hnull : undo.txout.isNull = false)
    (hd : (restoreBase d undo).Trimmed) : (restore d undo n).2.Trimmed := by
  intro out hlast
  simp only [restore, List.getLast?_eq_getElem?, List.getElem?_set, List.length_set,
    CCoins.length_resize] at hlast
  by_cases hn : n = max (restoreBase d undo).vout.length (n + 1) - 1
  · rw [if_pos hn, if_pos (by omega), Option.some.injEq] at hlast
    rw [← hlast]
    exact hnull
  · -- the last output is behind the restored one and was there before
    have hkeep : (restoreBase d undo).resize (n + 1) = restoreBase d undo := by
      rw [CCoins.resize, if_neg (by omega)]
    rw [if_neg hn, hkeep, Nat.max_eq_left (by omega), ← List.getLast?_eq_getElem?] at hlast
    exact hd out hlast

/-- Undoing a spend, on an object that is the same as the spent one: it succeeds
cleanly and gives back what was spent from. -/
theorem restore_spends {c c' d : CCoins} {n : ℕ} {undo : CTxInUndo}
    (h : CCoins.Spends c n undo c') (hheight : c.nHeight ≠ 0) (hd : Same d c')
    (htrim : d.isPruned = false → d.Trimmed) :
    (restore d undo n).1 = true ∧ Same (restore d undo n).2 c ∧ (restore d undo n).2.Trimmed := by
  have hnull : undo.txout.isNull = false := ((CCoins.output_eq_some_iff c n _).mp h.output_self).2
  have hunpruned : c.isPruned = false := CCoins.not_isPruned_of_output h.output_self
  by_cases hlast : c'.isPruned = true
  · obtain ⟨hcb, hh, hv⟩ := h.undo_last hlast
    have hne : undo.nHeight ≠ 0 := by
      rw [hh]
      exact hheight
    have hbase : restoreBase d undo = ⟨undo.fCoinBase, [], undo.nHeight, undo.nVersion⟩ := by
      rw [restoreBase, if_pos hne]
      rfl
    have hprunedBase : (restoreBase d undo).isPruned = true := by
      rw [hbase]
      rfl
    have hbaseOut := (CCoins.isPruned_iff _).mp hprunedBase
    refine ⟨?_, ⟨fun m => ?_, fun _ => ?_⟩, restore_trimmed d undo n hnull ?_⟩
    · have havail : (restoreBase d undo).isAvailable n = false := by
        rw [hbase]
        rfl
      simp only [restore, if_pos hne, havail, hd.isPruned, hlast]
      rfl
    · rw [restore_output d undo n m hnull]
      split_ifs with hm
      · rw [hm, h.output_self]
      · rw [hbaseOut m, ← h.output_other m hm, (CCoins.isPruned_iff c').mp hlast m]
    · have hheader : (restore d undo n).2.fCoinBase = undo.fCoinBase ∧
          (restore d undo n).2.nHeight = undo.nHeight ∧
          (restore d undo n).2.nVersion = undo.nVersion := by
        simp only [restore, hbase, CCoins.resize]
        split_ifs <;> exact ⟨rfl, rfl, rfl⟩
      exact ⟨hheader.1.trans hcb, hheader.2.1.trans hh, hheader.2.2.trans hv⟩
    · intro out hout
      rw [hbase] at hout
      exact absurd hout (by simp)
  · have hmore : c'.isPruned = false := by simpa using hlast
    have hzero := h.undo_more hmore
    have hbase : restoreBase d undo = d := by
      rw [restoreBase, if_neg (not_not.mpr hzero)]
    have hdmore : d.isPruned = false := hd.isPruned.trans hmore
    refine ⟨?_, ⟨fun m => ?_, fun _ => ?_⟩, restore_trimmed d undo n hnull ?_⟩
    · have havail : d.isAvailable n = false := by
        rw [← Bool.not_eq_true, CCoins.isAvailable_iff]
        rintro ⟨out, hout⟩
        rw [hd.output n, h.output_spent] at hout
        exact absurd hout (by simp)
      simp only [restore, if_neg (not_not.mpr hzero), hbase, havail, hdmore]
      rfl
    · rw [restore_output d undo n m hnull, hbase]
      split_ifs with hm
      · rw [hm, h.output_self]
      · rw [hd.output m, h.output_other m hm]
    · obtain ⟨hcb, hh, hv⟩ := hd.header hdmore
      have hheader : (restore d undo n).2.fCoinBase = d.fCoinBase ∧
          (restore d undo n).2.nHeight = d.nHeight ∧
          (restore d undo n).2.nVersion = d.nVersion := by
        simp only [restore, hbase, CCoins.resize]
        split_ifs <;> exact ⟨rfl, rfl, rfl⟩
      exact ⟨hheader.1.trans (hcb.trans h.fCoinBase), hheader.2.1.trans (hh.trans h.nHeight),
        hheader.2.2.trans (hv.trans h.nVersion)⟩
    · rw [hbase]
      exact htrim hdmore

/-- Two trimmed objects with the same unspent outputs, one of them without null
outputs, have the same vout. -/
theorem vout_eq_of_same {a b : CCoins} (h : Same a b) (ha : a.Trimmed)
    (hb : ∀ out ∈ b.vout, out.isNull = false) : a.vout = b.vout := by
  have hget : ∀ (n : ℕ) (out : CTxOut), b.vout[n]? = some out → a.vout[n]? = some out := by
    intro n out hn
    have hout : b.output n = some out :=
      (CCoins.output_eq_some_iff b n out).mpr ⟨hn, hb out (List.mem_of_getElem? hn)⟩
    rw [← h.output n] at hout
    exact ((CCoins.output_eq_some_iff a n out).mp hout).1
  have hlen : a.vout.length ≤ b.vout.length := by
    by_contra hlt
    have hne : a.vout ≠ [] := by
      intro hnil
      rw [hnil, List.length_nil] at hlt
      omega
    have hlast := List.getLast?_eq_some_getLast hne
    have hnull := ha _ hlast
    rw [List.getLast?_eq_getElem?] at hlast
    have hout := (CCoins.output_eq_some_iff a _ _).mpr ⟨hlast, hnull⟩
    rw [h.output, CCoins.output_eq_some_iff] at hout
    have := (List.getElem?_eq_some_iff.mp hout.1).1
    omega
  apply List.ext_getElem?
  intro n
  rcases Nat.lt_or_ge n b.vout.length with hlt | hge
  · rw [List.getElem?_eq_getElem hlt]
    exact hget n _ (List.getElem?_eq_getElem hlt)
  · rw [List.getElem?_eq_none hge, List.getElem?_eq_none (by omega)]

end UmbrellaLtc.Coins
