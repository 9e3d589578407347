import UmbrellaLtc.CoinsView
import Mathlib.Algebra.BigOperators.Pi
import Mathlib.Algebra.Order.BigOperators.Group.Finset
import Mathlib.Data.Fintype.OfMap

/-!
What connecting transactions does to a flat view, as relations between views:
one output spent, the inputs of a transaction spent in order, a transaction
applied, a list of them applied. The supply of a view is the sum of its unspent
outputs, and each relation says how it moves.
-/

namespace UmbrellaLtc.Spending

open Codec Transaction Coins CoinsView

/-- One entry replaced. -/
def put (f : Flat) (txid : Uint256) (c : CCoins) : Flat :=
  { f with coins := Function.update f.coins txid (some c) }

/-- The unspent output at an outpoint. -/
def unspent (f : Flat) (o : COutPoint) : Option CTxOut :=
  (f.coins o.hash).bind fun c => c.output o.n.toNat

/-- The entry under a txid has no unspent outputs, or there is none. -/
def Vacant (f : Flat) (txid : Uint256) : Prop :=
  ∀ c, f.coins txid = some c → c.isPruned = true

/-- One output spent, with the undo record that Spend makes. -/
def SpendOf (f : Flat) (o : COutPoint) (undo : CTxInUndo) (f' : Flat) : Prop :=
  ∃ c c', f.coins o.hash = some c ∧ c.spend o.n.toNat = some (undo, c') ∧ f' = put f o.hash c'

/-- Outputs spent one after the other. -/
inductive SpendAll : Flat → List COutPoint → List CTxInUndo → Flat → Prop
  | nil (f : Flat) : SpendAll f [] [] f
  | cons {f f₁ f' : Flat} {o : COutPoint} {undo : CTxInUndo} {rest : List COutPoint}
      {undos : List CTxInUndo} (h : SpendOf f o undo f₁) (hrest : SpendAll f₁ rest undos f') :
      SpendAll f (o :: rest) (undo :: undos) f'

/-- The outputs that UpdateCoins spends. -/
def spentBy (tx : CTransaction) : List COutPoint :=
  if tx.isCoinBase then [] else tx.vin.map CTxIn.prevout

/-- UpdateCoins: the inputs are spent and the outputs are entered. -/
def Applies (f : Flat) (tx : CTransaction) (nHeight : ℕ) (txid : Uint256) (undo : CTxUndo)
    (f' : Flat) : Prop :=
  ∃ f₁, SpendAll f (spentBy tx) undo.vprevout f₁ ∧ f' = put f₁ txid (CCoins.ofTx tx nHeight)

/-- Transactions applied one after the other. -/
inductive AppliesAll (Hash : List Byte → Uint256) (nHeight : ℕ) :
    Flat → List CTransaction → List CTxUndo → Flat → Prop
  | nil (f : Flat) : AppliesAll Hash nHeight f [] [] f
  | cons {f f₁ f' : Flat} {tx : CTransaction} {undo : CTxUndo} {rest : List CTransaction}
      {undos : List CTxUndo} (h : Applies f tx nHeight (tx.getHash Hash) undo f₁)
      (hrest : AppliesAll Hash nHeight f₁ rest undos f') :
      AppliesAll Hash nHeight f (tx :: rest) (undo :: undos) f'

@[simp] theorem put_coins_self (f : Flat) (txid : Uint256) (c : CCoins) :
    (put f txid c).coins txid = some c := Function.update_self ..

theorem put_coins_ne (f : Flat) {txid t : Uint256} (c : CCoins) (h : t ≠ txid) :
    (put f txid c).coins t = f.coins t := Function.update_of_ne h ..

@[simp] theorem put_best (f : Flat) (txid : Uint256) (c : CCoins) : (put f txid c).best = f.best :=
  rfl

theorem unspent_eq_some_iff (f : Flat) (o : COutPoint) (out : CTxOut) :
    unspent f o = some out ↔ ∃ c, f.coins o.hash = some c ∧ c.output o.n.toNat = some out := by
  rw [unspent, Option.bind_eq_some_iff]

theorem SpendOf.best {f f' : Flat} {o : COutPoint} {undo : CTxInUndo} (h : SpendOf f o undo f') :
    f'.best = f.best := by
  obtain ⟨c, c', -, -, rfl⟩ := h
  rfl

theorem SpendAll.best {f f' : Flat} {os : List COutPoint} {undos : List CTxInUndo}
    (h : SpendAll f os undos f') : f'.best = f.best := by
  induction h with
  | nil => rfl
  | cons h _ ih => exact ih.trans h.best

theorem SpendAll.append {f f₁ f₂ : Flat} {os : List COutPoint} {undos : List CTxInUndo}
    {o : COutPoint} {undo : CTxInUndo} (h : SpendAll f os undos f₁) (ho : SpendOf f₁ o undo f₂) :
    SpendAll f (os ++ [o]) (undos ++ [undo]) f₂ := by
  induction h with
  | nil f => exact .cons ho (.nil _)
  | cons h _ ih => exact .cons h (ih ho)

theorem AppliesAll.append {Hash : List Byte → Uint256} {nHeight : ℕ} {f f₁ f₂ : Flat}
    {txs : List CTransaction} {undos : List CTxUndo} {tx : CTransaction} {undo : CTxUndo}
    (h : AppliesAll Hash nHeight f txs undos f₁)
    (htx : Applies f₁ tx nHeight (tx.getHash Hash) undo f₂) :
    AppliesAll Hash nHeight f (txs ++ [tx]) (undos ++ [undo]) f₂ := by
  induction h with
  | nil f => exact .cons htx (.nil _)
  | cons h _ ih => exact .cons h (ih htx)

/-- Spending one output takes it away and keeps every other. -/
theorem SpendOf.unspent_self {f f' : Flat} {o : COutPoint} {undo : CTxInUndo}
    (h : SpendOf f o undo f') : unspent f o = some undo.txout := by
  obtain ⟨c, c', hc, hspend, -⟩ := h
  exact (unspent_eq_some_iff f o _).mpr ⟨c, hc, (CCoins.spend_spec hspend).output_self⟩

theorem SpendOf.unspent_ne {f f' : Flat} {o p : COutPoint} {undo : CTxInUndo}
    (h : SpendOf f o undo f') (hp : p ≠ o) : unspent f' p = unspent f p := by
  obtain ⟨c, c', hc, hspend, rfl⟩ := h
  by_cases hhash : p.hash = o.hash
  · have hn : p.n.toNat ≠ o.n.toNat := by
      intro hn
      apply hp
      rw [COutPoint.mk.injEq]
      exact ⟨hhash, BitVec.eq_of_toNat_eq hn⟩
    rw [unspent, unspent, hhash, put_coins_self, hc]
    exact (CCoins.spend_spec hspend).output_other _ hn
  · rw [unspent, unspent, put_coins_ne _ _ hhash]

/-- Nothing is spent from a vacant entry. -/
theorem SpendOf.ne_of_vacant {f f' : Flat} {o : COutPoint} {undo : CTxInUndo} {txid : Uint256}
    (h : SpendOf f o undo f') (hv : Vacant f txid) : txid ≠ o.hash := by
  rintro rfl
  obtain ⟨c, c', hc, hspend, -⟩ := h
  have hunpruned := CCoins.not_isPruned_of_output (CCoins.spend_spec hspend).output_self
  rw [hv c hc] at hunpruned
  exact absurd hunpruned (by simp)

theorem SpendOf.coins_vacant {f f' : Flat} {o : COutPoint} {undo : CTxInUndo} {txid : Uint256}
    (h : SpendOf f o undo f') (hv : Vacant f txid) : f'.coins txid = f.coins txid := by
  have hne := h.ne_of_vacant hv
  obtain ⟨c, c', -, -, rfl⟩ := h
  exact put_coins_ne f c' hne

theorem SpendAll.coins_vacant {f f' : Flat} {os : List COutPoint} {undos : List CTxInUndo}
    {txid : Uint256} (h : SpendAll f os undos f') (hv : Vacant f txid) :
    f'.coins txid = f.coins txid := by
  induction h with
  | nil => rfl
  | cons h _ ih =>
    have hsame := h.coins_vacant hv
    have hv₁ : Vacant _ txid := fun c hc => hv c (hsame ▸ hc)
    exact (ih hv₁).trans hsame

/-- What is vacant stays so when a transaction with another id is applied. -/
theorem Applies.vacant {f f' : Flat} {tx : CTransaction} {nHeight : ℕ} {txid t : Uint256}
    {undo : CTxUndo} (h : Applies f tx nHeight txid undo f') (hne : t ≠ txid) (hv : Vacant f t) :
    Vacant f' t := by
  obtain ⟨f₁, hspend, rfl⟩ := h
  intro c hc
  rw [put_coins_ne _ _ hne, hspend.coins_vacant hv] at hc
  exact hv c hc

theorem Applies.best {f f' : Flat} {tx : CTransaction} {nHeight : ℕ} {txid : Uint256}
    {undo : CTxUndo} (h : Applies f tx nHeight txid undo f') : f'.best = f.best := by
  obtain ⟨f₁, hspend, rfl⟩ := h
  exact hspend.best

/-- The undo records hold the outputs as they were before the first was spent. -/
theorem SpendAll.undos {f f' : Flat} {os : List COutPoint} {undos : List CTxInUndo}
    (h : SpendAll f os undos f') (hnodup : os.Nodup) :
    os.map (unspent f) = undos.map fun undo => some undo.txout := by
  induction h with
  | nil => rfl
  | @cons f f₁ f' o undo rest undos h _ ih =>
    rw [List.nodup_cons] at hnodup
    have hrest : rest.map (unspent f) = rest.map (unspent f₁) := by
      refine List.map_congr_left fun p hp => (h.unspent_ne ?_).symm
      rintro rfl
      exact hnodup.1 hp
    rw [List.map_cons, List.map_cons, h.unspent_self, hrest, ih hnodup.2]

/-- Distinct unspent outputs can be spent. -/
theorem exists_spendAll (f : Flat) (os : List COutPoint) (hnodup : os.Nodup)
    (havail : ∀ o ∈ os, ∃ out, unspent f o = some out) :
    ∃ undos f', SpendAll f os undos f' := by
  induction os generalizing f with
  | nil => exact ⟨[], f, .nil f⟩
  | cons o rest ih =>
    rw [List.nodup_cons] at hnodup
    obtain ⟨out, hout⟩ := havail o List.mem_cons_self
    obtain ⟨c, hc, hoc⟩ := (unspent_eq_some_iff f o out).mp hout
    obtain ⟨undo, c', hspend⟩ := CCoins.spend_isSome ((CCoins.isAvailable_iff c _).mpr ⟨out, hoc⟩)
    have ho : SpendOf f o undo (put f o.hash c') := ⟨c, c', hc, hspend, rfl⟩
    have hrest : ∀ p ∈ rest, ∃ out, unspent (put f o.hash c') p = some out := by
      intro p hp
      have hne : p ≠ o := by
        rintro rfl
        exact hnodup.1 hp
      rw [ho.unspent_ne hne]
      exact havail p (List.mem_cons_of_mem _ hp)
    obtain ⟨undos, f', hall⟩ := ih _ hnodup.2 hrest
    exact ⟨undo :: undos, f', .cons ho hall⟩

section Supply

local instance : Fintype Uint256 := Fintype.ofSurjective BitVec.ofFin fun h => ⟨h.toFin, rfl⟩

def entryValue (entry : Option CCoins) : ℤ := entry.elim 0 CCoins.value

/-- The sum of the values of all unspent outputs. -/
noncomputable def supply (f : Flat) : ℤ := ∑ txid, entryValue (f.coins txid)

def valueAt (f : Flat) (o : COutPoint) : ℤ := (unspent f o).elim 0 CTxOut.value

theorem supply_put (f : Flat) (txid : Uint256) (c : CCoins) :
    supply (put f txid c) = supply f - entryValue (f.coins txid) + c.value := by
  have hvalues : ∀ t, entryValue ((put f txid c).coins t) =
      Function.update (fun t => entryValue (f.coins t)) txid c.value t := by
    intro t
    by_cases ht : t = txid
    · subst ht
      rw [put_coins_self, Function.update_self]
      rfl
    · rw [put_coins_ne f c ht, Function.update_of_ne ht]
  have hsplit := Finset.add_sum_erase Finset.univ (fun t => entryValue (f.coins t))
    (Finset.mem_univ txid)
  rw [supply, Finset.sum_congr rfl fun t _ => hvalues t,
    Finset.sum_update_of_mem (Finset.mem_univ txid), ← Finset.erase_eq]
  rw [supply, ← hsplit]
  ring

theorem SpendOf.supply {f f' : Flat} {o : COutPoint} {undo : CTxInUndo}
    (h : SpendOf f o undo f') : supply f' = supply f - undo.txout.value := by
  obtain ⟨c, c', hc, hspend, rfl⟩ := h
  rw [supply_put, hc, CCoins.value_spend hspend]
  simp only [entryValue, Option.elim_some]
  ring

theorem SpendAll.supply {f f' : Flat} {os : List COutPoint} {undos : List CTxInUndo}
    (h : SpendAll f os undos f') (hnodup : os.Nodup) :
    supply f' = supply f - (os.map (valueAt f)).sum := by
  have hvalues : os.map (valueAt f) = undos.map fun undo => undo.txout.value := by
    have hundos := congrArg (List.map fun out : Option CTxOut => out.elim 0 CTxOut.value)
      (h.undos hnodup)
    rw [List.map_map, List.map_map] at hundos
    exact hundos
  rw [hvalues]
  clear hvalues hnodup
  induction h with
  | nil => simp
  | cons h _ ih =>
    rw [ih, h.supply, List.map_cons, List.sum_cons]
    ring

/-- No unspent output has a negative value. -/
def NonnegOutputs (f : Flat) : Prop :=
  ∀ txid c, f.coins txid = some c → ∀ n out, c.output n = some out → 0 ≤ out.value

theorem NonnegOutputs.spendOf {f f' : Flat} {o : COutPoint} {undo : CTxInUndo}
    (hf : NonnegOutputs f) (h : SpendOf f o undo f') : NonnegOutputs f' := by
  obtain ⟨c, c', hc, hspend, rfl⟩ := h
  have hspec := CCoins.spend_spec hspend
  intro txid d hd n out hout
  by_cases ht : txid = o.hash
  · subst ht
    rw [put_coins_self, Option.some.injEq] at hd
    subst hd
    by_cases hn : n = o.n.toNat
    · rw [hn, hspec.output_spent] at hout
      exact absurd hout (by simp)
    · rw [hspec.output_other n hn] at hout
      exact hf _ c hc n out hout
  · rw [put_coins_ne f c' ht] at hd
    exact hf txid d hd n out hout

theorem NonnegOutputs.spendAll {f f' : Flat} {os : List COutPoint} {undos : List CTxInUndo}
    (hf : NonnegOutputs f) (h : SpendAll f os undos f') : NonnegOutputs f' := by
  induction h with
  | nil => exact hf
  | cons h _ ih => exact ih (hf.spendOf h)

theorem NonnegOutputs.valueAt_nonneg {f : Flat} (hf : NonnegOutputs f) (o : COutPoint) :
    0 ≤ valueAt f o := by
  unfold valueAt
  cases hout : unspent f o with
  | none => exact le_refl 0
  | some out =>
    obtain ⟨c, hc, hoc⟩ := (unspent_eq_some_iff f o out).mp hout
    exact hf _ c hc _ out hoc

theorem NonnegOutputs.supply_nonneg {f : Flat} (hf : NonnegOutputs f) : 0 ≤ supply f := by
  refine Finset.sum_nonneg fun txid _ => ?_
  cases hc : f.coins txid with
  | none => exact le_refl 0
  | some c =>
    refine List.sum_nonneg fun v hv => ?_
    obtain ⟨out, hmem, rfl⟩ := List.mem_map.mp hv
    obtain ⟨hmem, hnull⟩ := List.mem_filter.mp hmem
    obtain ⟨n, hn, hget⟩ := List.getElem_of_mem hmem
    refine hf txid c hc n out ((CCoins.output_eq_some_iff c n out).mpr ⟨?_, by simpa using hnull⟩)
    exact List.getElem?_eq_some_iff.mpr ⟨hn, hget⟩

/-- Distinct unspent outputs are worth at most the supply: spend them all, and what
is left is not negative. -/
theorem NonnegOutputs.sum_le_supply {f : Flat} (hf : NonnegOutputs f) (os : List COutPoint)
    (hnodup : os.Nodup) (havail : ∀ o ∈ os, ∃ out, unspent f o = some out) :
    (os.map (valueAt f)).sum ≤ supply f := by
  obtain ⟨undos, f', hall⟩ := exists_spendAll f os hnodup havail
  have hsupply := hall.supply hnodup
  have hleft := (hf.spendAll hall).supply_nonneg
  omega

end Supply

end UmbrellaLtc.Spending
