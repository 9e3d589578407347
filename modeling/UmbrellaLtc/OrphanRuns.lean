import UmbrellaLtc.OrphanTx
import UmbrellaLtc.Runs

/-!
Runs of the functions that change the orphan transactions. The index by previous transaction
stays exact and the limit is kept, whatever happens; a set without elements is left behind when
a `tx` message is accepted that no orphan has waited for.
-/

namespace UmbrellaLtc.MemPool

open Codec Transaction Coins CoinsView CheckBlock ConnectBlock Runs

section Sets

variable {m : AList fun _ : Uint256 => List Uint256}

/-- mapOrphanTransactionsByPrev has no empty sets. -/
def NoEmpty (m : AList fun _ : Uint256 => List Uint256) : Prop := ∀ k, m.lookup k ≠ some []

theorem insertSet_ne_nil (hash : Uint256) (s : List Uint256) : insertSet hash s ≠ [] := by
  intro hnil
  have hmem : hash ∈ insertSet hash s := mem_insertSet.mpr (Or.inl rfl)
  rw [hnil] at hmem
  cases hmem

theorem NoEmpty.insert (h : NoEmpty m) (k : Uint256) {s : List Uint256} (hs : s ≠ []) :
    NoEmpty (m.insert k s) := by
  intro j hj
  by_cases hjk : j = k
  · rw [hjk, AList.lookup_insert] at hj
    exact hs (Option.some.inj hj)
  · rw [AList.lookup_insert_ne hjk] at hj
    exact h j hj

theorem NoEmpty.erase (h : NoEmpty m) (k : Uint256) : NoEmpty (m.erase k) := by
  intro j hj
  by_cases hjk : j = k
  · rw [hjk, AList.lookup_erase] at hj
    cases hj
  · rw [AList.lookup_erase_ne hjk] at hj
    exact h j hj

theorem NoEmpty.foldl_indexInput (hash : Uint256) (vin : List CTxIn) (h : NoEmpty m) :
    NoEmpty (vin.foldl (indexInput hash) m) := by
  induction vin generalizing m with
  | nil => exact h
  | cons txin vin ih => exact ih (h.insert _ (insertSet_ne_nil hash _))

theorem NoEmpty.unindexInput (hash : Uint256) (txin : CTxIn) (h : NoEmpty m) :
    NoEmpty (unindexInput hash m txin) := by
  unfold MemPool.unindexInput
  dsimp only
  split_ifs with hrest
  · exact h.erase _
  · exact h.insert _ hrest

theorem NoEmpty.foldl_unindexInput (hash : Uint256) (vin : List CTxIn) (h : NoEmpty m) :
    NoEmpty (vin.foldl (MemPool.unindexInput hash) m) := by
  induction vin generalizing m with
  | nil => exact h
  | cons txin vin ih => exact ih (h.unindexInput hash txin)

/-- The sets of other transactions are left alone. -/
theorem lookup_foldl_unindexInput_ne {hash k : Uint256} {vin : List CTxIn}
    (hk : ∀ txin ∈ vin, txin.prevout.hash ≠ k) :
    (vin.foldl (unindexInput hash) m).lookup k = m.lookup k := by
  induction vin generalizing m with
  | nil => rfl
  | cons txin vin ih =>
    have hne : k ≠ txin.prevout.hash := fun heq => hk txin List.mem_cons_self heq.symm
    rw [List.foldl_cons, ih fun t ht => hk t (List.mem_cons_of_mem _ ht)]
    unfold unindexInput
    dsimp only
    split_ifs
    · rw [AList.lookup_erase_ne hne]
    · rw [AList.lookup_insert_ne hne]

end Sets

section Orphans

variable {o : Orphans}

theorem NoEmpty.addOrphanTx (Hash : List Byte → Uint256) (tx : CTransaction)
    (h : NoEmpty o.mapOrphanTransactionsByPrev) :
    NoEmpty (addOrphanTx Hash tx o).2.mapOrphanTransactionsByPrev := by
  unfold MemPool.addOrphanTx
  dsimp only
  split_ifs
  · exact h
  · exact h
  · exact h.foldl_indexInput _ tx.vin

theorem NoEmpty.eraseOrphanTx (hash : Uint256) (h : NoEmpty o.mapOrphanTransactionsByPrev) :
    NoEmpty (eraseOrphanTx hash o).mapOrphanTransactionsByPrev := by
  unfold MemPool.eraseOrphanTx
  cases o.lookup hash with
  | none => exact h
  | some tx => exact h.foldl_unindexInput hash tx.vin

theorem NoEmpty.foldl_eraseOrphanTx (hashes : List Uint256)
    (h : NoEmpty o.mapOrphanTransactionsByPrev) :
    NoEmpty (hashes.foldl (fun o hash => MemPool.eraseOrphanTx hash o)
      o).mapOrphanTransactionsByPrev := by
  induction hashes generalizing o with
  | nil => exact h
  | cons hash rest ih => exact ih (h.eraseOrphanTx hash)

theorem NoEmpty.limitOrphanTxSize (n : ℕ) (random : ℕ → Uint256) (rounds : ℕ)
    (h : NoEmpty o.mapOrphanTransactionsByPrev) :
    NoEmpty (limitOrphanTxSize n random rounds o).mapOrphanTransactionsByPrev := by
  induction rounds generalizing o with
  | zero => exact h
  | succ rounds ih =>
    unfold MemPool.limitOrphanTxSize
    split_ifs
    · apply ih
      cases pickOrphan o (random rounds) with
      | none => exact h
      | some hash => exact h.eraseOrphanTx hash
    · exact h

theorem pickOrphan_mem (randomhash : Uint256) (hpos : 0 < o.mapOrphanTransactions.keys.length) :
    ∃ hash ∈ o.mapOrphanTransactions.keys, pickOrphan o randomhash = some hash := by
  have hmem : ∀ hash, hash ∈ o.mapOrphanTransactions.keys.mergeSort (· ≤ ·) →
      hash ∈ o.mapOrphanTransactions.keys := fun hash => List.mem_mergeSort.mp
  unfold pickOrphan
  dsimp only
  cases hfind : (o.mapOrphanTransactions.keys.mergeSort (· ≤ ·)).find? (randomhash ≤ ·) with
  | some hash => exact ⟨hash, hmem hash (List.mem_of_find?_eq_some hfind), rfl⟩
  | none =>
    cases hkeys : o.mapOrphanTransactions.keys.mergeSort (· ≤ ·) with
    | nil =>
      have hlength := (List.mergeSort_perm o.mapOrphanTransactions.keys (· ≤ ·)).length_eq
      rw [hkeys] at hlength
      rw [← hlength] at hpos
      cases hpos
    | cons hash rest => exact ⟨hash, hmem hash (by rw [hkeys]; exact List.mem_cons_self), rfl⟩

theorem length_eraseOrphanTx {hash : Uint256} (h : hash ∈ o.mapOrphanTransactions.keys) :
    (eraseOrphanTx hash o).mapOrphanTransactions.keys.length =
      o.mapOrphanTransactions.keys.length - 1 := by
  have hsome : (o.lookup hash).isSome := AList.lookup_isSome.mpr h
  obtain ⟨tx, htx⟩ := Option.isSome_iff_exists.mp hsome
  unfold eraseOrphanTx
  rw [htx]
  show (o.mapOrphanTransactions.erase hash).keys.length = _
  rw [AList.keys_erase, List.length_erase_of_mem h]

/-- As many rounds as there are orphans are enough. -/
theorem limitOrphanTxSize_le (n : ℕ) (random : ℕ → Uint256) (rounds : ℕ)
    (hrounds : o.mapOrphanTransactions.keys.length ≤ n + rounds) :
    (limitOrphanTxSize n random rounds o).mapOrphanTransactions.keys.length ≤ n := by
  induction rounds generalizing o with
  | zero => exact hrounds
  | succ rounds ih =>
    unfold limitOrphanTxSize
    split_ifs with hfull
    · obtain ⟨hash, hmem, hpick⟩ := pickOrphan_mem (random rounds) (Nat.zero_lt_of_lt hfull)
      have hlength := length_eraseOrphanTx hmem
      rw [hpick]
      apply ih
      rw [Option.elim_some, hlength]
      omega
    · omega

end Orphans

section Messages

variable {β : Type} [LawfulBase β] {around : ℕ → Around} {Hash : List Byte → Uint256}

/-- A stored orphan spends an output of the transaction. -/
def Awaited (Hash : List Byte → Uint256) (o : Orphans) (tx : CTransaction) : Prop :=
  ∃ h orphan, o.lookup h = some orphan ∧ Refers Hash tx orphan

theorem awaited_iff {o : Orphans} (h : Indexed Hash o) (tx : CTransaction) :
    Awaited Hash o tx ↔ o.byPrev (tx.getHash Hash) ≠ [] := by
  constructor
  · intro ⟨hash, orphan, hin, href⟩ hnil
    have hmem := (h.index (tx.getHash Hash) hash).mpr ⟨orphan, hin, href⟩
    rw [hnil] at hmem
    cases hmem
  · intro hne
    obtain ⟨hash, hmem⟩ := List.exists_mem_of_ne_nil _ hne
    exact ⟨hash, (h.index _ hash).mp hmem⟩

theorem touchByPrev_awaited {o : Orphans} {k : Uint256} (h : o.byPrev k ≠ []) :
    o.touchByPrev k = o := by
  apply if_pos
  cases hlookup : o.mapOrphanTransactionsByPrev.lookup k with
  | some s => rfl
  | none => exact absurd (by rw [Orphans.byPrev, hlookup]; rfl) h

/-- The set that the loop makes for a transaction that nothing waits for stays, even if the
transaction itself was an orphan. -/
theorem lookup_touched {o : Orphans} {k : Uint256} (h : Indexed Hash o)
    (hnoEmpty : NoEmpty o.mapOrphanTransactionsByPrev) (hk : o.byPrev k = []) :
    (eraseOrphanTx k (o.touchByPrev k)).mapOrphanTransactionsByPrev.lookup k = some [] := by
  have hnone : o.mapOrphanTransactionsByPrev.lookup k = none := by
    cases hlookup : o.mapOrphanTransactionsByPrev.lookup k with
    | none => rfl
    | some s =>
      rw [Orphans.byPrev, hlookup] at hk
      exact absurd (hk ▸ hlookup) (hnoEmpty k)
  have htouched : (o.touchByPrev k).mapOrphanTransactionsByPrev.lookup k = some [] := by
    unfold Orphans.touchByPrev
    rw [hnone]
    exact AList.lookup_insert _
  unfold eraseOrphanTx
  cases hlookup : (o.touchByPrev k).lookup k with
  | none => exact htouched
  | some tx =>
    have hself : ∀ txin ∈ tx.vin, txin.prevout.hash ≠ k := by
      intro txin hmem heq
      rw [lookup_touchByPrev] at hlookup
      have hin : k ∈ o.byPrev k := (h.index k k).mpr ⟨tx, hlookup, txin, hmem, heq⟩
      rw [hk] at hin
      cases hin
    show (tx.vin.foldl (unindexInput k)
      (o.touchByPrev k).mapOrphanTransactionsByPrev).lookup k = some []
    rw [lookup_foldl_unindexInput_ne hself]
    exact htouched

theorem callAccept_rejected {tx : CTransaction} {s : TxNode β}
    (hacc : (accept (around s.clock) tx true true s.pool s.tip).1 ≠ .accepted) :
    (callAccept around tx s).1 ≠ .accepted := by
  unfold callAccept acceptToMemoryPool
  dsimp only
  rcases haccept : accept (around s.clock) tx true true s.pool s.tip with ⟨v, r⟩
  rw [haccept] at hacc
  cases v with
  | accepted => exact absurd rfl hacc
  | missingInputs => exact nofun
  | rejected e => cases e <;> exact nofun

/-- The handler returns, and leaves an empty set behind exactly when it accepts a transaction
that no orphan has waited for. -/
theorem processTx_noEmpty_iff (hHash : ∀ n, (around n).env.Hash = Hash) (random : ℕ → Uint256)
    (tx : CTransaction) {s : TxNode β} (hindexed : Indexed Hash s.orphans)
    (hnoEmpty : NoEmpty s.orphans.mapOrphanTransactionsByPrev) :
    ∃ s', processTx around Hash random tx s = some s' ∧
      (NoEmpty s'.orphans.mapOrphanTransactionsByPrev ↔
        ((accept (around s.clock) tx true true s.pool s.tip).1 = .accepted →
          Awaited Hash s.orphans tx)) := by
  by_cases hacc : (accept (around s.clock) tx true true s.pool s.tip).1 = .accepted
  · obtain ⟨s', hrun, hdone⟩ := processTx_accepted hHash random hindexed hacc
    refine ⟨s', hrun, ?_⟩
    rw [hdone.orphans, awaited_iff hindexed]
    by_cases hwaits : s.orphans.byPrev (tx.getHash Hash) = []
    · rw [hwaits]
      refine iff_of_false (fun h => h (tx.getHash Hash) ?_) fun h => h hacc rfl
      exact lookup_touched hindexed hnoEmpty hwaits
    · rw [touchByPrev_awaited hwaits]
      exact iff_of_true (hnoEmpty.foldl_eraseOrphanTx _) fun _ => hwaits
  · have hcall : (callAccept around tx { s with calls := [] }).1 ≠ .accepted :=
      callAccept_rejected hacc
    have horphans : (callAccept around tx { s with calls := [] }).2.orphans = s.orphans := rfl
    unfold processTx
    rcases hresult : callAccept around tx { s with calls := [] } with ⟨v, s₁⟩
    rw [hresult] at hcall horphans
    dsimp only at hcall horphans
    cases v with
    | accepted => exact absurd rfl hcall
    | missingInputs =>
      refine ⟨_, rfl, iff_of_true ?_ fun h => absurd h hacc⟩
      apply NoEmpty.limitOrphanTxSize
      apply NoEmpty.addOrphanTx
      rw [horphans]
      exact hnoEmpty
    | rejected e =>
      refine ⟨_, rfl, iff_of_true ?_ fun h => absurd h hacc⟩
      rw [horphans]
      exact hnoEmpty

end Messages

section Runs

variable {β : Type} [LawfulBase β] (around : ℕ → Around) (Hash : List Byte → Uint256)

inductive OrphanCall
  | addOrphanTx (tx : CTransaction)
  | eraseOrphanTx (hash : Uint256)
  | limitOrphanTxSize (nMaxOrphans : ℕ) (random : ℕ → Uint256)
  | message (tx : CTransaction) (random : ℕ → Uint256)

/-- LimitOrphanTxSize with as many rounds as there are orphans. -/
def limited (o : Orphans) (nMaxOrphans : ℕ) (random : ℕ → Uint256) : Orphans :=
  limitOrphanTxSize nMaxOrphans random o.mapOrphanTransactions.keys.length o

def OrphanCall.perform (s : TxNode β) : OrphanCall → TxNode β
  | addOrphanTx tx => { s with orphans := (MemPool.addOrphanTx Hash tx s.orphans).2 }
  | eraseOrphanTx hash => { s with orphans := MemPool.eraseOrphanTx hash s.orphans }
  | limitOrphanTxSize nMaxOrphans random =>
      { s with orphans := limited s.orphans nMaxOrphans random }
  | message tx random => (processTx around Hash random tx s).getD s

/-- What is said of the two maps, and of the functions that are called next. -/
structure MapsKept (s : TxNode β) : Prop where
  indexed : Indexed Hash s.orphans
  noEmpty : NoEmpty s.orphans.mapOrphanTransactionsByPrev
  limit : ∀ nMaxOrphans random,
    (limited s.orphans nMaxOrphans random).mapOrphanTransactions.keys.length ≤ nMaxOrphans
  returns : ∀ tx random, (processTx around Hash random tx s).isSome

/-- If a `tx` message is accepted, then a stored orphan has waited for it. -/
def OrphanCall.Awaited (s : TxNode β) : OrphanCall → Prop
  | message tx _ => (accept (around s.clock) tx true true s.pool s.tip).1 = .accepted →
      MemPool.Awaited Hash s.orphans tx
  | _ => True

variable {around Hash} {s : TxNode β}

theorem mapsKept_of_stored (hHash : ∀ n, (around n).env.Hash = Hash) (hstored : Stored Hash s.orphans)
    (hnoEmpty : NoEmpty s.orphans.mapOrphanTransactionsByPrev) : MapsKept around Hash s where
  indexed := hstored.indexed
  noEmpty := hnoEmpty
  limit _ _ := limitOrphanTxSize_le _ _ _ (Nat.le_add_left _ _)
  returns tx random := by
    obtain ⟨s', hrun, -⟩ := processTx_noEmpty_iff hHash random tx hstored.indexed hnoEmpty
    rw [hrun]
    rfl

theorem perform_stored (call : OrphanCall) (hs : Stored Hash s.orphans) :
    Stored Hash (call.perform around Hash s).orphans := by
  cases call with
  | addOrphanTx tx => exact .add tx hs
  | eraseOrphanTx hash => exact .erase hash hs
  | limitOrphanTxSize nMaxOrphans random => exact hs.limitOrphanTxSize _ _ _
  | message tx random =>
    show Stored Hash ((processTx around Hash random tx s).getD s).orphans
    cases hrun : processTx around Hash random tx s with
    | none => exact hs
    | some s' => exact processTx_stored hrun hs

theorem perform_noEmpty_iff (hHash : ∀ n, (around n).env.Hash = Hash) (call : OrphanCall)
    (hindexed : Indexed Hash s.orphans)
    (hnoEmpty : NoEmpty s.orphans.mapOrphanTransactionsByPrev) :
    NoEmpty (call.perform around Hash s).orphans.mapOrphanTransactionsByPrev ↔
      call.Awaited around Hash s := by
  cases call with
  | addOrphanTx tx => exact iff_of_true (hnoEmpty.addOrphanTx Hash tx) trivial
  | eraseOrphanTx hash => exact iff_of_true (hnoEmpty.eraseOrphanTx hash) trivial
  | limitOrphanTxSize nMaxOrphans random =>
    exact iff_of_true (hnoEmpty.limitOrphanTxSize _ _ _) trivial
  | message tx random =>
    obtain ⟨s', hrun, hiff⟩ := processTx_noEmpty_iff hHash random tx hindexed hnoEmpty
    show NoEmpty ((processTx around Hash random tx s).getD s).orphans.mapOrphanTransactionsByPrev ↔ _
    rw [hrun]
    exact hiff

/-- From a node without orphans, the maps are kept throughout a run exactly when every accepted
transaction was awaited. -/
theorem orphan_maps_kept_iff (hHash : ∀ n, (around n).env.Hash = Hash) (s : TxNode β)
    (hempty : s.orphans = .empty) (calls : List OrphanCall) :
    Throughout (OrphanCall.perform around Hash) (MapsKept around Hash) s calls ↔
      EachStep (OrphanCall.perform around Hash) (fun s call => call.Awaited around Hash s) s
        calls := by
  have hstart : Stored Hash s.orphans ∧ NoEmpty s.orphans.mapOrphanTransactionsByPrev := by
    rw [hempty]
    exact ⟨.empty, nofun⟩
  have hstep : ∀ (s : TxNode β) (call : OrphanCall),
      Stored Hash s.orphans ∧ NoEmpty s.orphans.mapOrphanTransactionsByPrev →
      call.Awaited around Hash s →
      Stored Hash (call.perform around Hash s).orphans ∧
        NoEmpty (call.perform around Hash s).orphans.mapOrphanTransactionsByPrev := by
    intro s call hs hawaited
    exact ⟨perform_stored call hs.1, (perform_noEmpty_iff hHash call hs.1.indexed hs.2).mpr hawaited⟩
  constructor
  · exact eachStep_of_throughout fun s call hs hs' =>
      (perform_noEmpty_iff hHash call hs.indexed hs.noEmpty).mp hs'.noEmpty
  · intro hcalls
    exact (throughout_of_eachStep hstep hstart hcalls).mono fun _ hs =>
      mapsKept_of_stored hHash hs.1 hs.2

/-- The node with the coins but without the orphan. -/
def idleNode : TxNode (Cache CoinsDb) := { waitingNode with orphans := .empty }

theorem orphan_maps_kept_awaited :
    Throughout (OrphanCall.perform spendAlways spendHash) (MapsKept spendAlways spendHash) idleNode
      [.addOrphanTx respendTx, .message spendTx fun _ => 0] := by
  refine (orphan_maps_kept_iff (fun _ => rfl) idleNode rfl _).mpr ⟨trivial, fun _ => ?_, trivial⟩
  exact ⟨respendTxid, respendTx, by decide, by unfold Refers; decide⟩

/-- One accepted transaction is enough for an empty set. -/
theorem orphan_maps_not_kept :
    ¬ Throughout (OrphanCall.perform spendAlways spendHash) (MapsKept spendAlways spendHash) idleNode
      [.message spendTx fun _ => 0] := by
  intro hkept
  have hafter := hkept.2.first.noEmpty
  have hawaited := (perform_noEmpty_iff (fun _ => rfl) (.message spendTx fun _ => 0)
    hkept.first.indexed hkept.first.noEmpty).mp hafter
  have hacc : (accept (spendAlways idleNode.clock) spendTx true true idleNode.pool
      idleNode.tip).1 = .accepted := by decide
  obtain ⟨h, orphan, hin, -⟩ := hawaited hacc
  cases hin

end Runs

end UmbrellaLtc.MemPool
