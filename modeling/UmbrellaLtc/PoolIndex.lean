import UmbrellaLtc.MemPool

/-!
The two maps of the memory pool agree. mapNextTx has exactly the inputs of the
transactions of mapTx, so that remove finds the transactions that spend an output
through the index it is changing. Removing with descendants ends because a
transaction cannot spend what comes of it, and leaves no spender of what it has
taken away.
-/

namespace UmbrellaLtc.MemPool

open Codec Transaction Coins CoinsView CheckBlock ConnectBlock Guards

section Maps

variable {κ β γ : Type} [DecidableEq κ]

theorem lookup_foldl_insert_not_mem (key : γ → κ) (val : γ → β) (l : List γ)
    (m : AList fun _ : κ => β) {k : κ} (hk : k ∉ l.map key) :
    (l.foldl (fun m c => m.insert (key c) (val c)) m).lookup k = m.lookup k := by
  induction l generalizing m with
  | nil => rfl
  | cons c rest ih =>
    simp only [List.map_cons, List.mem_cons, not_or] at hk
    rw [List.foldl_cons, ih _ hk.2, AList.lookup_insert_ne hk.1]

/-- Distinct keys entered one by one. -/
theorem lookup_foldl_insert (key : γ → κ) (val : γ → β) (l : List γ) (hnodup : (l.map key).Nodup)
    (m : AList fun _ : κ => β) {c : γ} (hc : c ∈ l) :
    (l.foldl (fun m c => m.insert (key c) (val c)) m).lookup (key c) = some (val c) := by
  induction l generalizing m with
  | nil => cases hc
  | cons d rest ih =>
    rw [List.map_cons, List.nodup_cons] at hnodup
    rw [List.foldl_cons]
    rcases List.mem_cons.mp hc with rfl | hmem
    · rw [lookup_foldl_insert_not_mem key val rest _ hnodup.1, AList.lookup_insert]
    · exact ih hnodup.2 _ hmem

theorem lookup_foldl_erase (key : γ → κ) (l : List γ) (m : AList fun _ : κ => β) (k : κ) :
    (l.foldl (fun m c => m.erase (key c)) m).lookup k =
      if k ∈ l.map key then none else m.lookup k := by
  induction l generalizing m with
  | nil => rfl
  | cons c rest ih =>
    rw [List.foldl_cons, ih, List.map_cons]
    by_cases hrest : k ∈ rest.map key
    · rw [if_pos hrest, if_pos (List.mem_cons_of_mem _ hrest)]
    · rw [if_neg hrest]
      by_cases hkey : k = key c
      · rw [hkey, AList.lookup_erase, if_pos List.mem_cons_self]
      · rw [AList.lookup_erase_ne hkey, if_neg]
        exact fun hmem => (List.mem_cons.mp hmem).elim hkey hrest

end Maps

section Ids

variable (Hash : List Byte → Uint256)

/-- `u` has an input that names `t`. -/
def Refers (t u : CTransaction) : Prop := ∃ txin ∈ u.vin, txin.prevout.hash = t.getHash Hash

/-- The ids of the transactions that come up are distinct, and a transaction does not
name its own descendants. -/
structure TxIds (T : Set CTransaction) : Prop where
  inj : Set.InjOn (CTransaction.getHash Hash) T
  acyclic : ∃ rank : CTransaction → ℕ, ∀ t ∈ T, ∀ u ∈ T, Refers Hash t u → rank t < rank u

variable {Hash} in
theorem TxIds.mono {T U : Set CTransaction} (h : TxIds Hash U) (hsub : T ⊆ U) :
    TxIds Hash T := by
  obtain ⟨rank, hrank⟩ := h.acyclic
  exact ⟨h.inj.mono hsub, rank, fun t ht u hu => hrank t (hsub ht) u (hsub hu)⟩

end Ids

/-- The outpoint of an output. -/
def outpoint (Hash : List Byte → Uint256) (tx : CTransaction) (i : ℕ) : COutPoint :=
  ⟨tx.getHash Hash, BitVec.ofNat 32 i⟩

/-- `u` spends an output of `t`. -/
def SpendsFrom (Hash : List Byte → Uint256) (t u : CTransaction) : Prop :=
  ∃ i < t.vout.length, ∃ txin ∈ u.vin, txin.prevout = outpoint Hash t i

theorem SpendsFrom.refers {Hash : List Byte → Uint256} {t u : CTransaction}
    (h : SpendsFrom Hash t u) : Refers Hash t u := by
  obtain ⟨i, -, txin, hmem, heq⟩ := h
  exact ⟨txin, hmem, congrArg COutPoint.hash heq⟩

section Index

variable (Hash : List Byte → Uint256)

/-- mapTx and mapNextTx agree: a transaction is under its id, each of its inputs is
indexed as this input of this transaction, and nothing else is indexed. -/
structure Coherent (pool : CTxMemPool) : Prop where
  key : ∀ h tx, pool.mapTx.lookup h = some tx → h = tx.getHash Hash
  short : ∀ h tx, pool.mapTx.lookup h = some tx → tx.vin.length < 2 ^ 32
  forward : ∀ h tx, pool.mapTx.lookup h = some tx → ∀ i txin, tx.vin[i]? = some txin →
    pool.mapNextTx.lookup txin.prevout = some ⟨h, BitVec.ofNat 32 i⟩
  backward : ∀ o p, pool.mapNextTx.lookup o = some p → ∃ tx txin,
    pool.mapTx.lookup p.ptx = some tx ∧ tx.vin[p.n.toNat]? = some txin ∧ txin.prevout = o

/-- Every transaction of the pool is one of `T`. -/
def PoolOf (T : Set CTransaction) (pool : CTxMemPool) : Prop :=
  ∀ h tx, pool.mapTx.lookup h = some tx → tx ∈ T

/-- What is left is in the pool as it was. -/
def SubPool (pool' pool : CTxMemPool) : Prop :=
  ∀ h tx, pool'.mapTx.lookup h = some tx → pool.mapTx.lookup h = some tx

/-- No transaction of the pool spends an output of `tx`. -/
def Unspent (pool : CTxMemPool) (tx : CTransaction) : Prop :=
  ∀ i < tx.vout.length, pool.mapNextTx.lookup (outpoint Hash tx i) = none

variable {Hash} {pool pool' : CTxMemPool}

theorem coherent_empty : Coherent Hash .empty := by
  refine ⟨?_, ?_, ?_, ?_⟩
  · intro h tx hlookup
    cases hlookup
  · intro h tx hlookup
    cases hlookup
  · intro h tx hlookup
    cases hlookup
  · intro o p hlookup
    cases hlookup

theorem Coherent.lookup_input (h : Coherent Hash pool) {k : Uint256} {tx : CTransaction}
    (hk : pool.mapTx.lookup k = some tx) {txin : CTxIn} (hmem : txin ∈ tx.vin) :
    ∃ n, pool.mapNextTx.lookup txin.prevout = some ⟨k, n⟩ := by
  obtain ⟨i, hi⟩ := List.getElem?_of_mem hmem
  exact ⟨_, h.forward k tx hk i txin hi⟩

/-- The transaction that an entry of the index points at. -/
theorem Coherent.spender (h : Coherent Hash pool) {o : COutPoint} {p : CInPoint}
    (hp : pool.mapNextTx.lookup o = some p) :
    ∃ tx, pool.mapTx.lookup p.ptx = some tx ∧ ∃ txin ∈ tx.vin, txin.prevout = o := by
  obtain ⟨tx, txin, hk, hi, ho⟩ := h.backward o p hp
  exact ⟨tx, hk, txin, List.mem_of_getElem? hi, ho⟩

/-- Two transactions of the pool do not spend the same output. -/
theorem Coherent.same_spender (h : Coherent Hash pool) {k l : Uint256} {t u : CTransaction}
    (hk : pool.mapTx.lookup k = some t) (hl : pool.mapTx.lookup l = some u) {txin txin' : CTxIn}
    (hmem : txin ∈ t.vin) (hmem' : txin' ∈ u.vin) (heq : txin.prevout = txin'.prevout) :
    k = l := by
  obtain ⟨n, hn⟩ := h.lookup_input hk hmem
  obtain ⟨m, hm⟩ := h.lookup_input hl hmem'
  rw [heq, hm, Option.some.injEq, CInPoint.mk.injEq] at hn
  exact hn.1.symm

theorem SubPool.refl (pool : CTxMemPool) : SubPool pool pool := fun _ _ h => h

theorem SubPool.trans {pool₁ pool₂ : CTxMemPool} (h : SubPool pool₂ pool₁)
    (h' : SubPool pool₁ pool) : SubPool pool₂ pool := fun k tx hk => h' k tx (h k tx hk)

theorem SubPool.same (h : SubPool pool' pool) {k : Uint256} {t t' : CTransaction}
    (hk : pool.mapTx.lookup k = some t) (hk' : pool'.mapTx.lookup k = some t') : t' = t := by
  have heq := h k t' hk'
  rw [hk, Option.some.injEq] at heq
  exact heq.symm

theorem SubPool.poolOf {T : Set CTransaction} (h : SubPool pool' pool) (hT : PoolOf T pool) :
    PoolOf T pool' := fun k tx hk => hT k tx (h k tx hk)

/-- A smaller pool has a smaller index. -/
theorem SubPool.lookup_none (hsub : SubPool pool' pool) (h : Coherent Hash pool)
    (h' : Coherent Hash pool') {o : COutPoint} (ho : pool.mapNextTx.lookup o = none) :
    pool'.mapNextTx.lookup o = none := by
  rw [Option.eq_none_iff_forall_ne_some]
  intro p hp
  obtain ⟨tx, hk, txin, hmem, rfl⟩ := h'.spender hp
  obtain ⟨n, hn⟩ := h.lookup_input (hsub _ tx hk) hmem
  rw [ho] at hn
  cases hn

theorem SubPool.unspent (hsub : SubPool pool' pool) (h : Coherent Hash pool)
    (h' : Coherent Hash pool') {tx : CTransaction} (htx : Unspent Hash pool tx) :
    Unspent Hash pool' tx := fun i hi => hsub.lookup_none h h' (htx i hi)

/-- An output whose spender has left has none. -/
theorem SubPool.spender_gone (hsub : SubPool pool' pool) (h : Coherent Hash pool)
    (h' : Coherent Hash pool') {o : COutPoint} {p : CInPoint}
    (hp : pool.mapNextTx.lookup o = some p) (hgone : pool'.mapTx.lookup p.ptx = none) :
    pool'.mapNextTx.lookup o = none := by
  rw [Option.eq_none_iff_forall_ne_some]
  intro q hq
  obtain ⟨tx, hk, txin, hmem, rfl⟩ := h'.spender hq
  obtain ⟨n, hn⟩ := h.lookup_input (hsub _ tx hk) hmem
  rw [hp, Option.some.injEq] at hn
  rw [hn, hk] at hgone
  cases hgone

end Index

section Adding

variable {Hash : List Byte → Uint256} {pool : CTxMemPool}

theorem vin_length_le (tx : CTransaction) : tx.vin.length ≤ tx.getSerializeSize := by
  have hsum : tx.vin.length ≤ (tx.vin.map CTxIn.codec.size).sum := by
    have hone : ∀ l : List CTxIn, l.length ≤ (l.map CTxIn.codec.size).sum := by
      intro l
      induction l with
      | nil => exact le_refl 0
      | cons txin rest ih =>
        have hpos : 1 ≤ CTxIn.codec.size txin := by
          show 1 ≤ COutPoint.codec.size txin.prevout + _
          have hout : COutPoint.codec.size txin.prevout = 32 + 4 := rfl
          omega
        rw [List.length_cons, List.map_cons, List.sum_cons]
        omega
    exact hone tx.vin
  show _ ≤ _ + ((_ + (tx.vin.map CTxIn.codec.size).sum) + _)
  omega

theorem vin_length_lt {tx : CTransaction} (h : checkTransaction tx = .ok ()) :
    tx.vin.length < 2 ^ 32 := by
  unfold checkTransaction at h
  simp only [↓require_ok_iff] at h
  have hsize := h.2.2.1
  have hlen := vin_length_le tx
  have hmax : MAX_BLOCK_SIZE = 1000000 := rfl
  omega

theorem zipIdx_prevouts (l : List CTxIn) :
    l.zipIdx.map (fun input => input.1.prevout) = l.map CTxIn.prevout := by
  calc
    l.zipIdx.map (fun input => input.1.prevout) = (l.zipIdx.map Prod.fst).map CTxIn.prevout := by
      rw [List.map_map]
      rfl
    _ = l.map CTxIn.prevout := by rw [List.zipIdx_map_fst]

theorem addUnchecked_mapNextTx_self (tx : CTransaction)
    (hnodup : (tx.vin.map CTxIn.prevout).Nodup) (hash : Uint256) {i : ℕ} {txin : CTxIn}
    (hi : tx.vin[i]? = some txin) :
    (pool.addUnchecked hash tx).mapNextTx.lookup txin.prevout =
      some ⟨hash, BitVec.ofNat 32 i⟩ := by
  have hmem : (txin, i) ∈ tx.vin.zipIdx := List.mk_mem_zipIdx_iff_getElem?.mpr hi
  exact lookup_foldl_insert (fun input => input.1.prevout)
    (fun input => (⟨hash, BitVec.ofNat 32 input.2⟩ : CInPoint)) tx.vin.zipIdx
    (zipIdx_prevouts tx.vin ▸ hnodup) pool.mapNextTx hmem

theorem addUnchecked_mapNextTx_other (tx : CTransaction) (hash : Uint256) {o : COutPoint}
    (ho : o ∉ tx.vin.map CTxIn.prevout) :
    (pool.addUnchecked hash tx).mapNextTx.lookup o = pool.mapNextTx.lookup o := by
  refine lookup_foldl_insert_not_mem (fun input : CTxIn × ℕ => input.1.prevout)
    (fun input => (⟨hash, BitVec.ofNat 32 input.2⟩ : CInPoint)) tx.vin.zipIdx pool.mapNextTx ?_
  rwa [zipIdx_prevouts]

/-- A transaction that is not in the pool and spends nothing that is spent there can be
added. -/
theorem Coherent.addUnchecked (h : Coherent Hash pool) {tx : CTransaction}
    (hnodup : (tx.vin.map CTxIn.prevout).Nodup) (hshort : tx.vin.length < 2 ^ 32)
    (hnew : pool.mapTx.lookup (tx.getHash Hash) = none)
    (hfree : ∀ txin ∈ tx.vin, pool.mapNextTx.lookup txin.prevout = none) :
    Coherent Hash (pool.addUnchecked (tx.getHash Hash) tx) := by
  have hself : (pool.addUnchecked (tx.getHash Hash) tx).mapTx.lookup (tx.getHash Hash) = some tx :=
    AList.lookup_insert _
  have hother : ∀ k, k ≠ tx.getHash Hash →
      (pool.addUnchecked (tx.getHash Hash) tx).mapTx.lookup k = pool.mapTx.lookup k :=
    fun k hk => AList.lookup_insert_ne hk
  refine ⟨?_, ?_, ?_, ?_⟩
  · intro k t hk
    by_cases hkey : k = tx.getHash Hash
    · rw [hkey, hself, Option.some.injEq] at hk
      rw [hkey, hk]
    · rw [hother k hkey] at hk
      exact h.key k t hk
  · intro k t hk
    by_cases hkey : k = tx.getHash Hash
    · rw [hkey, hself, Option.some.injEq] at hk
      exact hk ▸ hshort
    · rw [hother k hkey] at hk
      exact h.short k t hk
  · intro k t hk i txin hi
    by_cases hkey : k = tx.getHash Hash
    · rw [hkey, hself, Option.some.injEq] at hk
      subst hk
      rw [hkey]
      exact addUnchecked_mapNextTx_self tx hnodup _ hi
    · rw [hother k hkey] at hk
      -- the input is indexed already, so that it is none of the new ones
      have hindexed := h.forward k t hk i txin hi
      rw [addUnchecked_mapNextTx_other tx, hindexed]
      intro hmem
      obtain ⟨txin', hmem', heq⟩ := List.mem_map.mp hmem
      rw [← heq, hfree txin' hmem'] at hindexed
      cases hindexed
  · intro o p hp
    by_cases ho : o ∈ tx.vin.map CTxIn.prevout
    · obtain ⟨txin, hmem, rfl⟩ := List.mem_map.mp ho
      obtain ⟨i, hi⟩ := List.getElem?_of_mem hmem
      rw [addUnchecked_mapNextTx_self tx hnodup _ hi, Option.some.injEq] at hp
      have hlt : i < tx.vin.length := (List.getElem?_eq_some_iff.mp hi).1
      have hnat : (BitVec.ofNat 32 i).toNat = i := by
        rw [BitVec.toNat_ofNat]
        exact Nat.mod_eq_of_lt (by omega)
      refine ⟨tx, txin, ?_, ?_, rfl⟩
      · rw [← hp]
        exact hself
      · rw [← hp, hnat]
        exact hi
    · rw [addUnchecked_mapNextTx_other tx _ ho] at hp
      obtain ⟨t, txin, hk, hi, heq⟩ := h.backward o p hp
      refine ⟨t, txin, ?_, hi, heq⟩
      rw [hother, hk]
      intro hkey
      rw [hkey, hnew] at hk
      cases hk

end Adding

section Removing

variable {Hash : List Byte → Uint256} {T : Set CTransaction} {pool pool' : CTxMemPool}

theorem erase_mapTx (hash : Uint256) (tx : CTransaction) (pool : CTxMemPool) (k : Uint256) :
    (pool.erase hash tx).mapTx.lookup k = if k = hash then none else pool.mapTx.lookup k := by
  unfold CTxMemPool.erase
  by_cases hin : (pool.mapTx.lookup hash).isSome = true
  · rw [if_pos hin]
    by_cases hk : k = hash
    · rw [hk, if_pos rfl]
      exact AList.lookup_erase _ _
    · rw [if_neg hk]
      exact AList.lookup_erase_ne hk
  · rw [if_neg hin]
    rw [Bool.not_eq_true, Option.isSome_eq_false_iff, Option.isNone_iff_eq_none] at hin
    by_cases hk : k = hash
    · rw [hk, if_pos rfl, hin]
    · rw [if_neg hk]

theorem erase_subPool (hash : Uint256) (tx : CTransaction) (pool : CTxMemPool) :
    SubPool (pool.erase hash tx) pool := by
  intro k t hk
  rw [erase_mapTx] at hk
  split_ifs at hk with hkey
  exact hk

/-- The transaction that is erased is the one of the pool with this id, if there is one. -/
theorem Coherent.erase (h : Coherent Hash pool) (hids : TxIds Hash T) (hpool : PoolOf T pool)
    {tx : CTransaction} (htx : tx ∈ T) : Coherent Hash (pool.erase (tx.getHash Hash) tx) := by
  cases hin : pool.mapTx.lookup (tx.getHash Hash) with
  | none =>
    have hsame : pool.erase (tx.getHash Hash) tx = pool := by
      unfold CTxMemPool.erase
      rw [hin]
      rfl
    rw [hsame]
    exact h
  | some tx' =>
    obtain rfl : tx' = tx := hids.inj (hpool _ _ hin) htx (h.key _ _ hin).symm
    have hsub := erase_subPool (tx'.getHash Hash) tx' pool
    have hnext : ∀ o, (pool.erase (tx'.getHash Hash) tx').mapNextTx.lookup o =
        if o ∈ tx'.vin.map CTxIn.prevout then none else pool.mapNextTx.lookup o := by
      intro o
      unfold CTxMemPool.erase
      rw [hin]
      exact lookup_foldl_erase CTxIn.prevout tx'.vin pool.mapNextTx o
    have hne : ∀ k t, (pool.erase (tx'.getHash Hash) tx').mapTx.lookup k = some t →
        k ≠ tx'.getHash Hash := by
      intro k t hk hkey
      rw [erase_mapTx, if_pos hkey] at hk
      cases hk
    refine ⟨fun k t hk => h.key k t (hsub k t hk), fun k t hk => h.short k t (hsub k t hk), ?_, ?_⟩
    · intro k t hk i txin hi
      rw [hnext, if_neg]
      · exact h.forward k t (hsub k t hk) i txin hi
      · intro hmem
        obtain ⟨txin', hmem', heq⟩ := List.mem_map.mp hmem
        exact hne k t hk (h.same_spender (hsub k t hk) hin (List.mem_of_getElem? hi) hmem' heq.symm)
    · intro o p hp
      rw [hnext] at hp
      split_ifs at hp with hmem
      obtain ⟨t, txin, hk, hi, heq⟩ := h.backward o p hp
      refine ⟨t, txin, ?_, hi, heq⟩
      rw [erase_mapTx, if_neg, hk]
      -- an input of the erased transaction would not be indexed any more
      intro hkey
      rw [hkey, hin, Option.some.injEq] at hk
      subst hk
      exact hmem (List.mem_map.mpr ⟨txin, List.mem_of_getElem? hi, heq⟩)

/-- `v` is `t` or comes of it through transactions of the pool. -/
inductive Descends (Hash : List Byte → Uint256) (pool : CTxMemPool) (t : CTransaction) :
    CTransaction → Prop
  | refl : Descends Hash pool t t
  | step {u v : CTransaction} {k : Uint256} (h : Descends Hash pool t u)
      (hv : pool.mapTx.lookup k = some v) (hspend : SpendsFrom Hash u v) : Descends Hash pool t v

theorem Descends.mono {t v : CTransaction} (hsub : SubPool pool' pool)
    (h : Descends Hash pool' t v) : Descends Hash pool t v := by
  induction h with
  | refl => exact .refl
  | step _ hv hspend ih => exact .step ih (hsub _ _ hv) hspend

theorem Descends.trans {t u v : CTransaction} (h : Descends Hash pool t u)
    (h' : Descends Hash pool u v) : Descends Hash pool t v := by
  induction h' with
  | refl => exact h
  | step _ hv hspend ih => exact .step ih hv hspend

/-- Transactions have left the pool, and with them every transaction that spent from
one of them. -/
structure Shrinks (Hash : List Byte → Uint256) (pool pool' : CTxMemPool) : Prop where
  coherent : Coherent Hash pool'
  sub : SubPool pool' pool
  cut : ∀ k t, pool.mapTx.lookup k = some t → pool'.mapTx.lookup k = none → Unspent Hash pool' t

/-- What `remove(tx, true)` does. -/
structure Removes (Hash : List Byte → Uint256) (tx : CTransaction) (pool pool' : CTxMemPool) :
    Prop extends Shrinks Hash pool pool' where
  gone : pool'.mapTx.lookup (tx.getHash Hash) = none
  unspent : Unspent Hash pool' tx
  only : ∀ k t, pool.mapTx.lookup k = some t → pool'.mapTx.lookup k = none →
    Descends Hash pool tx t

theorem Shrinks.refl (h : Coherent Hash pool) : Shrinks Hash pool pool := by
  refine ⟨h, .refl pool, fun k t hk hgone => ?_⟩
  rw [hk] at hgone
  cases hgone

theorem Shrinks.trans {pool₁ pool₂ : CTxMemPool} (h : Shrinks Hash pool pool₁)
    (h' : Shrinks Hash pool₁ pool₂) : Shrinks Hash pool pool₂ := by
  refine ⟨h'.coherent, h'.sub.trans h.sub, fun k t hk hgone => ?_⟩
  cases hk₁ : pool₁.mapTx.lookup k with
  | none => exact h'.sub.unspent h.coherent h'.coherent (h.cut k t hk hk₁)
  | some t' =>
    obtain rfl := h.sub.same hk hk₁
    exact h'.cut k t' hk₁ hgone

/-- The transactions of the pool that come later than `tx` in the order of a rank. -/
def later (rank : CTransaction → ℕ) (tx : CTransaction) (pool : CTxMemPool) :
    List (Sigma fun _ : Uint256 => CTransaction) :=
  pool.mapTx.entries.filter fun e => rank tx < rank e.2

theorem later_nodup (rank : CTransaction → ℕ) (tx : CTransaction) (pool : CTxMemPool) :
    (later rank tx pool).Nodup :=
  (pool.mapTx.nodupKeys.nodup).filter _

theorem mem_later {rank : CTransaction → ℕ} {tx t : CTransaction} {k : Uint256} :
    (⟨k, t⟩ : Sigma fun _ : Uint256 => CTransaction) ∈ later rank tx pool ↔
      pool.mapTx.lookup k = some t ∧ rank tx < rank t := by
  unfold later
  rw [List.mem_filter, decide_eq_true_eq, ← AList.mem_lookup_iff, Option.mem_def]

theorem later_length_le {rank : CTransaction → ℕ} {tx : CTransaction} (hsub : SubPool pool' pool) :
    (later rank tx pool').length ≤ (later rank tx pool).length := by
  refine (List.subperm_of_subset (later_nodup rank tx pool') ?_).length_le
  rintro ⟨k, t⟩ hmem
  obtain ⟨hk, hrank⟩ := mem_later.mp hmem
  exact mem_later.mpr ⟨hsub k t hk, hrank⟩

/-- A later transaction has fewer that are later still. -/
theorem later_length_lt {rank : CTransaction → ℕ} {tx child : CTransaction} {k : Uint256}
    (hk : pool.mapTx.lookup k = some child) (hrank : rank tx < rank child) :
    (later rank child pool).length < (later rank tx pool).length := by
  have hnodup : (⟨k, child⟩ :: later rank child pool).Nodup := by
    refine List.nodup_cons.mpr ⟨fun hmem => ?_, later_nodup rank child pool⟩
    exact lt_irrefl _ (mem_later.mp hmem).2
  have hsubset : ⟨k, child⟩ :: later rank child pool ⊆ later rank tx pool := by
    rintro ⟨l, t⟩ hmem
    rcases List.mem_cons.mp hmem with heq | hmem
    · cases heq
      exact mem_later.mpr ⟨hk, hrank⟩
    · obtain ⟨hl, hlt⟩ := mem_later.mp hmem
      exact mem_later.mpr ⟨hl, hrank.trans hlt⟩
  have hlen := (List.subperm_of_subset hnodup hsubset).length_le
  rw [List.length_cons] at hlen
  omega

/-- The loop over the outputs, as far as it has come. -/
structure CutTo (Hash : List Byte → Uint256) (tx : CTransaction) (pool pool' : CTxMemPool)
    (n : ℕ) : Prop extends Shrinks Hash pool pool' where
  done : ∀ i < n, pool'.mapNextTx.lookup (outpoint Hash tx i) = none
  only : ∀ k t, pool.mapTx.lookup k = some t → pool'.mapTx.lookup k = none →
    Descends Hash pool tx t

/-- One output: its spender comes later in the order, so that the call for it ends and
leaves nothing of it. -/
theorem cutOutput_spec {rank : CTransaction → ℕ}
    (hrank : ∀ t ∈ T, ∀ u ∈ T, Refers Hash t u → rank t < rank u) {fuel : ℕ}
    (ih : ∀ tx ∈ T, ∀ pool, Coherent Hash pool → PoolOf T pool →
      (later rank tx pool).length < fuel →
      ∃ pool', CTxMemPool.removeRecursive Hash fuel tx pool = some pool' ∧
        Removes Hash tx pool pool')
    {tx : CTransaction} (htx : tx ∈ T) (hpool : PoolOf T pool)
    (hfuel : (later rank tx pool).length < fuel + 1) {n : ℕ} (hn : n < tx.vout.length)
    (h : CutTo Hash tx pool pool' n) :
    ∃ pool'', CTxMemPool.cutOutput (CTxMemPool.removeRecursive Hash fuel) (tx.getHash Hash) pool' n
        = some pool'' ∧ CutTo Hash tx pool pool'' (n + 1) := by
  unfold CTxMemPool.cutOutput
  cases hit : pool'.mapNextTx.lookup ⟨tx.getHash Hash, BitVec.ofNat 32 n⟩ with
  | none =>
    refine ⟨pool', rfl, h.toShrinks, fun i hi => ?_, h.only⟩
    rcases Nat.lt_succ_iff_lt_or_eq.mp hi with hlt | rfl
    · exact h.done i hlt
    · exact hit
  | some it =>
    obtain ⟨child, hchild, txin, hmem, heq⟩ := h.coherent.spender hit
    have hspend : SpendsFrom Hash tx child := ⟨n, hn, txin, hmem, heq⟩
    have hchildT := h.sub.poolOf hpool _ _ hchild
    have hlater : (later rank child pool').length < fuel := by
      have hlt := later_length_lt hchild (hrank tx htx child hchildT hspend.refers)
      have hle : (later rank tx pool').length ≤ _ := later_length_le h.sub
      omega
    obtain ⟨pool'', hrun, hrem⟩ := ih child hchildT pool' h.coherent (h.sub.poolOf hpool) hlater
    refine ⟨pool'', ?_, h.toShrinks.trans hrem.toShrinks, fun i hi => ?_, fun k t hk hgone => ?_⟩
    · dsimp only
      rw [hchild]
      exact hrun
    · rcases Nat.lt_succ_iff_lt_or_eq.mp hi with hlt | rfl
      · exact hrem.sub.lookup_none h.coherent hrem.coherent (h.done i hlt)
      · have hkey := h.coherent.key _ _ hchild
        exact hrem.sub.spender_gone h.coherent hrem.coherent hit (hkey ▸ hrem.gone)
    · cases hk' : pool'.mapTx.lookup k with
      | none => exact h.only k t hk hk'
      | some t' =>
        obtain rfl := h.sub.same hk hk'
        exact (Descends.step .refl (h.sub _ _ hchild) hspend).trans
          ((hrem.only k t' hk' hgone).mono h.sub)

/-- Removing with descendants ends, whether the transaction is in the pool or not. -/
theorem removeRecursive_spec (hids : TxIds Hash T) {rank : CTransaction → ℕ}
    (hrank : ∀ t ∈ T, ∀ u ∈ T, Refers Hash t u → rank t < rank u) (fuel : ℕ) :
    ∀ tx ∈ T, ∀ pool, Coherent Hash pool → PoolOf T pool → (later rank tx pool).length < fuel →
      ∃ pool', CTxMemPool.removeRecursive Hash fuel tx pool = some pool' ∧
        Removes Hash tx pool pool' := by
  induction fuel with
  | zero =>
    intro tx _ pool _ _ hfuel
    omega
  | succ fuel ih =>
    intro tx htx pool h hpool hfuel
    have hloop : ∀ n ≤ tx.vout.length, ∃ pool',
        (List.range n).foldlM (CTxMemPool.cutOutput (CTxMemPool.removeRecursive Hash fuel)
          (tx.getHash Hash)) pool = some pool' ∧ CutTo Hash tx pool pool' n := by
      intro n
      induction n with
      | zero =>
        intro _
        refine ⟨pool, rfl, .refl h, fun i hi => absurd hi (Nat.not_lt_zero i), ?_⟩
        intro k t hk hgone
        rw [hk] at hgone
        cases hgone
      | succ n ihn =>
        intro hn
        obtain ⟨pool', hrun, hcut⟩ := ihn (by omega)
        obtain ⟨pool'', hstep, hcut'⟩ := cutOutput_spec hrank ih htx hpool hfuel (by omega) hcut
        refine ⟨pool'', ?_, hcut'⟩
        rw [List.range_succ, List.foldlM_append, hrun, Option.bind_eq_bind, Option.bind_some,
          List.foldlM_cons, hstep]
        rfl
    obtain ⟨pool', hrun, hcut⟩ := hloop _ (le_refl _)
    have hsub := erase_subPool (tx.getHash Hash) tx pool'
    have hcoh := hcut.coherent.erase hids (hcut.sub.poolOf hpool) htx
    have hgone : (pool'.erase (tx.getHash Hash) tx).mapTx.lookup (tx.getHash Hash) = none := by
      rw [erase_mapTx, if_pos rfl]
    have hunspent : Unspent Hash (pool'.erase (tx.getHash Hash) tx) tx :=
      hsub.unspent hcut.coherent hcoh hcut.done
    have hkept : ∀ k t, pool'.mapTx.lookup k = some t →
        (pool'.erase (tx.getHash Hash) tx).mapTx.lookup k = none → t = tx := by
      intro k t hk hnone
      rw [erase_mapTx] at hnone
      split_ifs at hnone with hkey
      · refine hids.inj (hcut.sub.poolOf hpool k t hk) htx ?_
        rw [← hcut.coherent.key k t hk, hkey]
      · rw [hk] at hnone
        cases hnone
    refine ⟨pool'.erase (tx.getHash Hash) tx, ?_, ⟨⟨hcoh, hsub.trans hcut.sub, ?_⟩, hgone,
      hunspent, ?_⟩⟩
    · unfold CTxMemPool.removeRecursive
      dsimp only
      rw [hrun]
      rfl
    · intro k t hk hnone
      cases hk' : pool'.mapTx.lookup k with
      | none => exact hsub.unspent hcut.coherent hcoh (hcut.cut k t hk hk')
      | some t' =>
        rw [← hcut.sub.same hk hk', hkept k t' hk' hnone]
        exact hunspent
    · intro k t hk hnone
      cases hk' : pool'.mapTx.lookup k with
      | none => exact hcut.only k t hk hk'
      | some t' =>
        rw [← hcut.sub.same hk hk', hkept k t' hk' hnone]
        exact .refl

/-- remove(tx, true) on a pool of the run. -/
theorem remove_recursive (hids : TxIds Hash T) {tx : CTransaction} (htx : tx ∈ T)
    (h : Coherent Hash pool) (hpool : PoolOf T pool) :
    ∃ pool', CTxMemPool.remove Hash tx true pool = some pool' ∧ Removes Hash tx pool pool' := by
  obtain ⟨rank, hrank⟩ := hids.acyclic
  refine removeRecursive_spec hids hrank _ tx htx pool h hpool ?_
  have hle := List.length_filter_le
    (fun e : Sigma fun _ : Uint256 => CTransaction => decide (rank tx < rank e.2))
    pool.mapTx.entries
  have hkeys : pool.mapTx.keys.length = pool.mapTx.entries.length := List.length_map _
  unfold later
  omega

/-- remove(tx, false): only the transaction leaves, and its spenders stay. -/
theorem remove_single (hids : TxIds Hash T) {tx : CTransaction} (htx : tx ∈ T)
    (h : Coherent Hash pool) (hpool : PoolOf T pool) :
    ∃ pool', CTxMemPool.remove Hash tx false pool = some pool' ∧ Coherent Hash pool' ∧
      ∀ k, pool'.mapTx.lookup k = if k = tx.getHash Hash then none else pool.mapTx.lookup k :=
  ⟨_, rfl, h.erase hids hpool htx, erase_mapTx _ _ _⟩

/-- What removeConflicts does for some of the inputs of `tx`. -/
structure Resolves (Hash : List Byte → Uint256) (tx : CTransaction) (inputs : List CTxIn)
    (pool pool' : CTxMemPool) : Prop extends Shrinks Hash pool pool' where
  resolved : ∀ txin ∈ inputs, ∀ p, pool'.mapNextTx.lookup txin.prevout = some p →
    pool'.mapTx.lookup p.ptx = some tx
  only : ∀ k t, pool.mapTx.lookup k = some t → pool'.mapTx.lookup k = none →
    ∃ l c, pool.mapTx.lookup l = some c ∧ c ≠ tx ∧
      (∃ txin ∈ inputs, ∃ txin' ∈ c.vin, txin'.prevout = txin.prevout) ∧ Descends Hash pool c t

theorem removeConflict_spec (hids : TxIds Hash T) (tx : CTransaction) (txin : CTxIn)
    (h : Coherent Hash pool) (hpool : PoolOf T pool) :
    ∃ pool', CTxMemPool.removeConflict Hash tx pool txin = some pool' ∧
      Resolves Hash tx [txin] pool pool' := by
  unfold CTxMemPool.removeConflict
  have hstay : (∀ p, pool.mapNextTx.lookup txin.prevout = some p →
      pool.mapTx.lookup p.ptx = some tx) → Resolves Hash tx [txin] pool pool := by
    intro hres
    refine ⟨.refl h, fun i hi => ?_, fun k t hk hgone => ?_⟩
    · rw [List.mem_singleton.mp hi]
      exact hres
    · rw [hk] at hgone
      cases hgone
  cases hit : pool.mapNextTx.lookup txin.prevout with
  | none =>
    refine ⟨pool, rfl, hstay fun p hp => ?_⟩
    rw [hit] at hp
    cases hp
  | some it =>
    obtain ⟨conflict, hk, txin', hmem, heq⟩ := h.spender hit
    dsimp only
    rw [hk, Option.bind_some]
    by_cases hne : conflict ≠ tx
    · rw [if_pos hne]
      obtain ⟨pool', hrun, hrem⟩ := remove_recursive hids (hpool _ _ hk) h hpool
      refine ⟨pool', hrun, hrem.toShrinks, fun i hi p hp => ?_, fun k t hkt hgone => ?_⟩
      · have hgone := hrem.gone
        rw [← h.key _ _ hk] at hgone
        rw [List.mem_singleton.mp hi, hrem.sub.spender_gone h hrem.coherent hit hgone] at hp
        cases hp
      · exact ⟨_, conflict, hk, hne, ⟨txin, List.mem_singleton.mpr rfl, txin', hmem, heq⟩,
          hrem.only k t hkt hgone⟩
    · rw [if_neg hne]
      rw [not_not] at hne
      refine ⟨pool, rfl, hstay fun p hp => ?_⟩
      rw [hit, Option.some.injEq] at hp
      rw [← hp, hk, hne]

theorem Resolves.cons {tx : CTransaction} {txin : CTxIn} {rest : List CTxIn}
    {pool₁ pool₂ : CTxMemPool} (h₁ : Resolves Hash tx [txin] pool pool₁)
    (h₂ : Resolves Hash tx rest pool₁ pool₂) : Resolves Hash tx (txin :: rest) pool pool₂ := by
  refine ⟨h₁.toShrinks.trans h₂.toShrinks, fun i hi p hp => ?_, fun k t hk hgone => ?_⟩
  · rcases List.mem_cons.mp hi with rfl | hmem
    · -- the spender that is left was left by the first step
      obtain ⟨t, ht, txin', hmem', heq⟩ := h₂.coherent.spender hp
      obtain ⟨n, hn⟩ := h₁.coherent.lookup_input (h₂.sub _ _ ht) hmem'
      rw [heq] at hn
      have htx := h₁.resolved i List.mem_cons_self _ hn
      rw [← h₂.sub.same htx ht]
      exact ht
    · exact h₂.resolved i hmem p hp
  · cases hk₁ : pool₁.mapTx.lookup k with
    | none =>
      obtain ⟨l, c, hl, hne, ⟨i, hi, hspend⟩, hdesc⟩ := h₁.only k t hk hk₁
      rw [List.mem_singleton.mp hi] at hspend
      exact ⟨l, c, hl, hne, ⟨txin, List.mem_cons_self, hspend⟩, hdesc⟩
    | some t' =>
      obtain rfl := h₁.sub.same hk hk₁
      obtain ⟨l, c, hl, hne, ⟨i, hi, hspend⟩, hdesc⟩ := h₂.only k t' hk₁ hgone
      exact ⟨l, c, h₁.sub l c hl, hne, ⟨i, List.mem_cons_of_mem _ hi, hspend⟩, hdesc.mono h₁.sub⟩

theorem removeConflicts_spec (hids : TxIds Hash T) (tx : CTransaction) (inputs : List CTxIn)
    (h : Coherent Hash pool) (hpool : PoolOf T pool) :
    ∃ pool', inputs.foldlM (CTxMemPool.removeConflict Hash tx) pool = some pool' ∧
      Resolves Hash tx inputs pool pool' := by
  induction inputs generalizing pool with
  | nil =>
    refine ⟨pool, rfl, .refl h, fun i hi => absurd hi List.not_mem_nil, fun k t hk hgone => ?_⟩
    rw [hk] at hgone
    cases hgone
  | cons txin rest ih =>
    obtain ⟨pool₁, hstep, h₁⟩ := removeConflict_spec hids tx txin h hpool
    obtain ⟨pool₂, hrun, h₂⟩ := ih h₁.coherent (h₁.sub.poolOf hpool)
    refine ⟨pool₂, ?_, h₁.cons h₂⟩
    rw [List.foldlM_cons, hstep]
    exact hrun

end Removing

section Accepting

variable {β : Type} [CoinsBase β]

/-- accept adds the transaction after every check, or leaves the pool as it is. -/
theorem accept_cases (a : Around) (tx : CTransaction) (fCheckInputs fLimitFree : Bool)
    (pool : CTxMemPool) (tip : β) :
    (accept a tx fCheckInputs fLimitFree pool tip).1 = .accepted ∧
        (accept a tx fCheckInputs fLimitFree pool tip).2.1 =
          pool.addUnchecked (tx.getHash a.env.Hash) tx ∧
        preChecks a tx pool = .ok () ∧
        (fCheckInputs = true →
          ((acceptInputs a tx fLimitFree).run (Cache.new (⟨tip, pool⟩ : CCoinsViewMemPool β))).1 =
            .ok true) ∨
      (accept a tx fCheckInputs fLimitFree pool tip).1 ≠ .accepted ∧
        (accept a tx fCheckInputs fLimitFree pool tip).2.1 = pool := by
  unfold accept
  cases hpre : preChecks a tx pool with
  | error e => exact Or.inr ⟨by simp, rfl⟩
  | ok u =>
    dsimp only
    cases fCheckInputs with
    | false => exact Or.inl ⟨rfl, rfl, rfl, by simp⟩
    | true =>
      rw [if_pos rfl]
      rcases hrun : (acceptInputs a tx fLimitFree).run
        (Cache.new (⟨tip, pool⟩ : CCoinsViewMemPool β)) with ⟨e | _ | _, view⟩
      · exact Or.inr ⟨by simp, rfl⟩
      · exact Or.inr ⟨by simp, rfl⟩
      · exact Or.inl ⟨rfl, rfl, rfl, fun _ => rfl⟩

/-- What the checks before the coins leave true. -/
structure PreChecked (a : Around) (tx : CTransaction) (pool : CTxMemPool) : Prop where
  checked : checkTransaction tx = .ok ()
  not_coinbase : tx.isCoinBase = false
  new : pool.mapTx.lookup (tx.getHash a.env.Hash) = none
  free : ∀ txin ∈ tx.vin, pool.mapNextTx.lookup txin.prevout = none

theorem preChecks_ok {a : Around} {tx : CTransaction} {pool : CTxMemPool}
    (h : preChecks a tx pool = .ok ()) : PreChecked a tx pool := by
  unfold preChecks at h
  rw [seq_ok_iff] at h
  obtain ⟨_, hchecked, h⟩ := h
  simp only [↓require_ok_iff, seq_ok_iff] at h
  obtain ⟨hcb, -, _, hstandard, hnew, hfree⟩ := h
  refine ⟨hchecked, hcb, Option.isNone_iff_eq_none.mp hnew, ?_⟩
  unfold require at hfree
  split_ifs at hfree with hall
  exact fun txin hmem => Option.isNone_iff_eq_none.mp (hall txin hmem)

theorem PreChecked.coherent {a : Around} {tx : CTransaction} {pool : CTxMemPool}
    (h : PreChecked a tx pool) (hpool : Coherent a.env.Hash pool) :
    Coherent a.env.Hash (pool.addUnchecked (tx.getHash a.env.Hash) tx) :=
  hpool.addUnchecked (checkTransaction_ok tx h.checked).inputs (vin_length_lt h.checked) h.new h.free

end Accepting

section Runs

/-- The calls of a pool. Each accept comes with what it finds around it. -/
inductive PoolOp where
  | accept (a : Around) (tip : Cache CoinsDb) (tx : CTransaction) (fCheckInputs fLimitFree : Bool)
  | remove (tx : CTransaction) (fRecursive : Bool)
  | removeConflicts (tx : CTransaction)
  | clear

/-- The transaction that a call is about. -/
def PoolOp.tx? : PoolOp → Option CTransaction
  | .accept _ _ tx _ _ => some tx
  | .remove tx _ => some tx
  | .removeConflicts tx => some tx
  | .clear => none

def Around.on (a : Around) (Hash : List Byte → Uint256) : Around :=
  { a with env := { a.env with Hash := Hash } }

/-- The pool after one call. -/
def PoolOp.apply (Hash : List Byte → Uint256) (pool : CTxMemPool) : PoolOp → Option CTxMemPool
  | .accept a tip tx fCheckInputs fLimitFree =>
      some (MemPool.accept (a.on Hash) tx fCheckInputs fLimitFree pool tip).2.1
  | .remove tx fRecursive => pool.remove Hash tx fRecursive
  | .removeConflicts tx => pool.removeConflicts Hash tx
  | .clear => some pool.clear

variable {Hash : List Byte → Uint256} {T : Set CTransaction} {pool : CTxMemPool}

theorem poolOf_addUnchecked {tx : CTransaction} (hpool : PoolOf T pool) (htx : tx ∈ T)
    (hash : Uint256) : PoolOf T (pool.addUnchecked hash tx) := by
  intro k t hk
  by_cases hkey : k = hash
  · subst hkey
    have hself : (pool.addUnchecked k tx).mapTx.lookup k = some tx := AList.lookup_insert _
    rw [hself, Option.some.injEq] at hk
    exact hk ▸ htx
  · have hother : (pool.addUnchecked hash tx).mapTx.lookup k = pool.mapTx.lookup k :=
      AList.lookup_insert_ne hkey
    rw [hother] at hk
    exact hpool k t hk

theorem apply_coherent (hids : TxIds Hash T) (op : PoolOp) (hop : ∀ tx ∈ op.tx?, tx ∈ T)
    (h : Coherent Hash pool) (hpool : PoolOf T pool) :
    ∃ pool', op.apply Hash pool = some pool' ∧ Coherent Hash pool' ∧ PoolOf T pool' := by
  cases op with
  | accept a tip tx fCheckInputs fLimitFree =>
    refine ⟨_, rfl, ?_⟩
    rcases accept_cases (a.on Hash) tx fCheckInputs fLimitFree pool tip with
      ⟨-, hadd, hpre, -⟩ | ⟨-, hsame⟩
    · rw [hadd]
      exact ⟨(preChecks_ok hpre).coherent h, poolOf_addUnchecked hpool (hop tx rfl) _⟩
    · rw [hsame]
      exact ⟨h, hpool⟩
  | remove tx fRecursive =>
    cases fRecursive with
    | true =>
      obtain ⟨pool', hrun, hrem⟩ := remove_recursive hids (hop tx rfl) h hpool
      exact ⟨pool', hrun, hrem.coherent, hrem.sub.poolOf hpool⟩
    | false =>
      have hsub := erase_subPool (tx.getHash Hash) tx pool
      exact ⟨_, rfl, h.erase hids hpool (hop tx rfl), hsub.poolOf hpool⟩
  | removeConflicts tx =>
    obtain ⟨pool', hrun, hres⟩ := removeConflicts_spec hids tx tx.vin h hpool
    exact ⟨pool', hrun, hres.coherent, hres.sub.poolOf hpool⟩
  | clear => exact ⟨.empty, rfl, coherent_empty, nofun⟩

theorem runs_coherent (hids : TxIds Hash T) (ops : List PoolOp)
    (hops : ∀ op ∈ ops, ∀ tx ∈ op.tx?, tx ∈ T) (h : Coherent Hash pool) (hpool : PoolOf T pool) :
    ∃ pool', ops.foldlM (PoolOp.apply Hash) pool = some pool' ∧ Coherent Hash pool' ∧
      PoolOf T pool' := by
  induction ops generalizing pool with
  | nil => exact ⟨pool, rfl, h, hpool⟩
  | cons op rest ih =>
    obtain ⟨pool₁, hstep, h₁, hpool₁⟩ := apply_coherent hids op (hops op List.mem_cons_self) h hpool
    obtain ⟨pool₂, hrun, h₂⟩ := ih (fun o ho => hops o (List.mem_cons_of_mem _ ho)) h₁ hpool₁
    refine ⟨pool₂, ?_, h₂⟩
    rw [List.foldlM_cons, hstep]
    exact hrun

/-- Over every sequence of calls mapTx and mapNextTx agree, provided the ids of the
transactions in it do not collide and do not form a cycle: no call fails to return
or follows a pointer to nowhere, an output has one spender in the pool, and an
entry of the index points at an input of a transaction that is there. -/
theorem pool_index_agrees (Hash : List Byte → Uint256) (ops : List PoolOp)
    (hids : TxIds Hash { tx | ∃ op ∈ ops, op.tx? = some tx }) :
    ∃ pool, ops.foldlM (PoolOp.apply Hash) .empty = some pool ∧
      (∀ h tx, pool.mapTx.lookup h = some tx → h = tx.getHash Hash ∧
        ∀ i txin, tx.vin[i]? = some txin →
          pool.mapNextTx.lookup txin.prevout = some ⟨h, BitVec.ofNat 32 i⟩ ∧ i < 2 ^ 32) ∧
      (∀ o p, pool.mapNextTx.lookup o = some p → ∃ tx txin,
        pool.mapTx.lookup p.ptx = some tx ∧ tx.vin[p.n.toNat]? = some txin ∧ txin.prevout = o) ∧
      ∀ h h' t t', pool.mapTx.lookup h = some t → pool.mapTx.lookup h' = some t' →
        ∀ txin ∈ t.vin, ∀ txin' ∈ t'.vin, txin.prevout = txin'.prevout → h = h' := by
  have hops : ∀ op ∈ ops, ∀ tx ∈ op.tx?, tx ∈ { tx | ∃ op ∈ ops, op.tx? = some tx } :=
    fun op hop tx htx => ⟨op, hop, htx⟩
  obtain ⟨pool, hrun, h, -⟩ := runs_coherent hids ops hops coherent_empty nofun
  refine ⟨pool, hrun, ?_, h.backward, ?_⟩
  · intro k tx hk
    refine ⟨h.key k tx hk, fun i txin hi => ⟨h.forward k tx hk i txin hi, ?_⟩⟩
    have hlt := (List.getElem?_eq_some_iff.mp hi).1
    have hshort := h.short k tx hk
    omega
  · intro k l t u hk hl txin hmem txin' hmem' heq
    exact h.same_spender hk hl hmem hmem' heq

end Runs

section Examples

/-- Pay to the public key whose secret is one. -/
def payToOne : CScript :=
  [0x21, 0x02, 0x79, 0xbe, 0x66, 0x7e, 0xf9, 0xdc, 0xbb, 0xac, 0x55, 0xa0, 0x62, 0x95, 0xce,
    0x87, 0x0b, 0x07, 0x02, 0x9b, 0xfc, 0xdb, 0x2d, 0xce, 0x28, 0xd9, 0x59, 0xf2, 0x81, 0x5b,
    0x16, 0xf8, 0x17, 0x98, 0xac]

def spendSig : CScript :=
  [0x48, 0x30, 0x45, 0x02, 0x21, 0x00, 0xa0, 0x92, 0xb7, 0xf4, 0x37, 0xd5, 0x11, 0x45, 0x71,
    0xfb, 0xf8, 0x64, 0x55, 0x2f, 0xa9, 0xb2, 0x98, 0x37, 0x9f, 0x4b, 0xf3, 0x19, 0x3a, 0x53,
    0x66, 0x4f, 0x32, 0xa4, 0xa2, 0x0e, 0xe8, 0xce, 0x02, 0x20, 0x01, 0x80, 0x6e, 0x62, 0x05,
    0xae, 0x41, 0x6c, 0x83, 0xda, 0x6f, 0x65, 0x53, 0x6b, 0x0a, 0xc3, 0x09, 0xc2, 0x57, 0x9e,
    0x72, 0xc7, 0xa9, 0x88, 0xd4, 0x4e, 0xd2, 0x5b, 0xfe, 0xb3, 0x08, 0x18, 0x01]

def respendSig : CScript :=
  [0x47, 0x30, 0x44, 0x02, 0x20, 0x11, 0x26, 0x29, 0xa7, 0x97, 0xfa, 0xbd, 0x94, 0x68, 0x6f,
    0xc8, 0x33, 0xa6, 0x69, 0x82, 0x11, 0x35, 0xcf, 0xf8, 0x65, 0x19, 0x56, 0xfc, 0xc1, 0x42,
    0xcb, 0x14, 0x42, 0x1b, 0xda, 0xea, 0xdd, 0x02, 0x20, 0x56, 0x29, 0x16, 0x7e, 0x86, 0x5f,
    0x47, 0x52, 0xc9, 0x86, 0x7d, 0xe3, 0xab, 0xc3, 0x88, 0x9b, 0xa3, 0x04, 0xcd, 0x4c, 0xd2,
    0xe5, 0x9f, 0xc1, 0x38, 0xd7, 0x6e, 0xe3, 0xb4, 0xfd, 0x11, 0x07, 0x01]

/-- A coinbase that pays the premine to the key. -/
def mintTx : CTransaction :=
  ⟨1, [⟨⟨0, BitVec.allOnes 32⟩, [2, 1, 1], BitVec.allOnes 32⟩], [⟨12000000000000, payToOne⟩], 0⟩

def mintTxid : Uint256 := 0x9081b9ba47327c4da60cdea6ffeb96d07e42436f9eb735ea24e1c7dda965b116

/-- A signed transaction that spends it. -/
def spendTx : CTransaction :=
  ⟨1, [⟨⟨mintTxid, 0⟩, spendSig, BitVec.allOnes 32⟩], [⟨11999900000000, payToOne⟩], 0⟩

def spendTxid : Uint256 := 0x69c5a08069fec25dd9cafb30e4cba154642bdfd93c3ff21fab0fb71e281569ad

/-- A signed transaction that spends the one before. -/
def respendTx : CTransaction :=
  ⟨1, [⟨⟨spendTxid, 0⟩, respendSig, BitVec.allOnes 32⟩], [⟨11999800000000, payToOne⟩], 0⟩

def respendTxid : Uint256 := 0x51a98b755db74f86290483167a03a004ff51679fb5f5bdbb32bcfa4fc39ad75d

/-- The double SHA-256 of the two. -/
def spendHash (bs : List Byte) : Uint256 :=
  ([(CTransaction.codec.write spendTx, spendTxid),
    (CTransaction.codec.write respendTx, respendTxid)].lookup bs).getD 0

def spendAround : Around where
  env := {
    Hash := spendHash
    powHash := fun _ => 0
    fTestNet := false
    genesisHash := 0
    totalBlocksEstimate := 0
    adjustedTime := 1405861925
    verifyScript := fun _ _ _ _ => true
    fScriptCheckThreads := false }
  nBestHeight := 100
  nMinTxFee := 100000
  nMinRelayTxFee := 100000
  isStandard s := s == payToOne
  inputStandard _ _ _ := true
  rateLimited := false

/-- Two transactions in, a conflict that is none, and both out again. -/
def spendOps : List PoolOp :=
  [.accept spendAround (.new ⟨∅, none⟩) spendTx false true,
    .accept spendAround (.new ⟨∅, none⟩) respendTx false true,
    .removeConflicts respendTx,
    .remove spendTx true]

theorem spendOps_txs {tx : CTransaction} (h : tx ∈ { tx | ∃ op ∈ spendOps, op.tx? = some tx }) :
    tx = spendTx ∨ tx = respendTx := by
  obtain ⟨op, hop, htx⟩ := h
  simp only [spendOps, List.mem_cons, List.not_mem_nil, or_false] at hop
  rcases hop with rfl | rfl | rfl | rfl
  · exact Or.inl (Option.some.inj htx).symm
  · exact Or.inr (Option.some.inj htx).symm
  · exact Or.inr (Option.some.inj htx).symm
  · exact Or.inl (Option.some.inj htx).symm

theorem spendOps_ids : TxIds spendHash { tx | ∃ op ∈ spendOps, op.tx? = some tx } := by
  have hne : spendTx.getHash spendHash ≠ respendTx.getHash spendHash := by decide +kernel
  refine ⟨?_, fun tx => if tx = spendTx then 0 else 1, ?_⟩
  · intro t ht u hu heq
    rcases spendOps_txs ht with rfl | rfl
    · rcases spendOps_txs hu with rfl | rfl
      · rfl
      · exact absurd heq hne
    · rcases spendOps_txs hu with rfl | rfl
      · exact absurd heq.symm hne
      · rfl
  · intro t ht u hu hrefers
    rcases spendOps_txs ht with rfl | rfl
    · rcases spendOps_txs hu with rfl | rfl
      · exact absurd hrefers (by unfold Refers; decide +kernel)
      · decide +kernel
    · rcases spendOps_txs hu with rfl | rfl
      · exact absurd hrefers (by unfold Refers; decide +kernel)
      · exact absurd hrefers (by unfold Refers; decide +kernel)

theorem pool_index_agrees_spend :
    ((spendOps.take 2).foldlM (PoolOp.apply spendHash) .empty).map (fun p => p.mapTx.keys) =
        some [respendTxid, spendTxid] ∧
      ∃ pool, spendOps.foldlM (PoolOp.apply spendHash) .empty = some pool := by
  refine ⟨by decide +kernel, ?_⟩
  obtain ⟨pool, hrun, -⟩ := pool_index_agrees spendHash spendOps spendOps_ids
  exact ⟨pool, hrun⟩

end Examples

end UmbrellaLtc.MemPool
