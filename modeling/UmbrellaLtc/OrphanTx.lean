import UmbrellaLtc.PoolFlush
import Mathlib.Data.List.Sort

/-!
Transactions whose inputs are missing, from main.cpp: AddOrphanTx, EraseOrphanTx,
LimitOrphanTxSize, and the part of ProcessMessage that handles a `tx` message. The
index by previous transaction has exactly the stored orphans. The loop over the
orphans that waited for the new transaction asks AcceptToMemoryPool about the new
transaction again and not about the orphan, so that none of them gets into the
pool and all of them are erased.
-/

namespace UmbrellaLtc.MemPool

open Codec Transaction Coins CoinsView CheckBlock ConnectBlock

def MAX_ORPHAN_TRANSACTIONS : ℕ := MAX_BLOCK_SIZE / 100

/-- mapOrphanTransactions and mapOrphanTransactionsByPrev; a set is the list of its
elements in their order. -/
structure Orphans where
  mapOrphanTransactions : AList fun _ : Uint256 => CTransaction
  mapOrphanTransactionsByPrev : AList fun _ : Uint256 => List Uint256

namespace Orphans

def empty : Orphans := ⟨∅, ∅⟩

def lookup (o : Orphans) (hash : Uint256) : Option CTransaction := o.mapOrphanTransactions.lookup hash

def byPrev (o : Orphans) (hashPrev : Uint256) : List Uint256 :=
  (o.mapOrphanTransactionsByPrev.lookup hashPrev).getD []

/-- `mapOrphanTransactionsByPrev[hashPrev]`, which makes an empty set where there is none. -/
def touchByPrev (o : Orphans) (hashPrev : Uint256) : Orphans :=
  if (o.mapOrphanTransactionsByPrev.lookup hashPrev).isSome then o
  else { o with
    mapOrphanTransactionsByPrev := o.mapOrphanTransactionsByPrev.insert hashPrev [] }

/-- `mapOrphanTransactions[orphanHash]`, which makes a transaction where there is none. -/
def touch (o : Orphans) (orphanHash : Uint256) : Orphans :=
  if (o.lookup orphanHash).isSome then o
  else { o with
    mapOrphanTransactions := o.mapOrphanTransactions.insert orphanHash .null }

end Orphans

/-- `set<uint256>::insert`. -/
def insertSet (hash : Uint256) (s : List Uint256) : List Uint256 :=
  if s.contains hash then s else s.orderedInsert (· ≤ ·) hash

def indexInput (hash : Uint256) (m : AList fun _ : Uint256 => List Uint256) (txin : CTxIn) :
    AList fun _ : Uint256 => List Uint256 :=
  m.insert txin.prevout.hash (insertSet hash ((m.lookup txin.prevout.hash).getD []))

def addOrphanTx (Hash : List Byte → Uint256) (tx : CTransaction) (o : Orphans) : Bool × Orphans :=
  let hash := tx.getHash Hash
  if (o.lookup hash).isSome then (false, o)
  else if 5000 < tx.getSerializeSize then (false, o)
  else
    (true,
      { mapOrphanTransactions := o.mapOrphanTransactions.insert hash tx
        mapOrphanTransactionsByPrev :=
          tx.vin.foldl (indexInput hash) o.mapOrphanTransactionsByPrev })

/-- One input in EraseOrphanTx: the hash leaves the set, and a set without elements is
erased. -/
def unindexInput (hash : Uint256) (m : AList fun _ : Uint256 => List Uint256) (txin : CTxIn) :
    AList fun _ : Uint256 => List Uint256 :=
  let rest := ((m.lookup txin.prevout.hash).getD []).filter (· ≠ hash)
  if rest = [] then m.erase txin.prevout.hash else m.insert txin.prevout.hash rest

def eraseOrphanTx (hash : Uint256) (o : Orphans) : Orphans :=
  match o.lookup hash with
  | none => o
  | some tx =>
      { mapOrphanTransactions := o.mapOrphanTransactions.erase hash
        mapOrphanTransactionsByPrev :=
          tx.vin.foldl (unindexInput hash) o.mapOrphanTransactionsByPrev }

/-- `lower_bound(randomhash)`, or the first when that is the end. -/
def pickOrphan (o : Orphans) (randomhash : Uint256) : Option Uint256 :=
  let keys := o.mapOrphanTransactions.keys.mergeSort (· ≤ ·)
  (keys.find? (randomhash ≤ ·)).orElse fun _ => keys.head?

/-- LimitOrphanTxSize on the values that GetRandHash will give; each round evicts one. -/
def limitOrphanTxSize (nMaxOrphans : ℕ) (random : ℕ → Uint256) : ℕ → Orphans → Orphans
  | 0, o => o
  | rounds + 1, o =>
      if nMaxOrphans < o.mapOrphanTransactions.keys.length then
        limitOrphanTxSize nMaxOrphans random rounds
          ((pickOrphan o (random rounds)).elim o fun hash => eraseOrphanTx hash o)
      else o

/-- A node as the message handler sees it, with the two queues of the handler and, of
every call of AcceptToMemoryPool, the transaction and how the call ended. -/
structure TxNode (β : Type) where
  orphans : Orphans
  pool : CTxMemPool
  tip : β
  clock : ℕ
  vWorkQueue : List Uint256
  vEraseQueue : List Uint256
  calls : List (CTransaction × Verdict)

section Message

variable {β : Type} [CoinsBase β] (around : ℕ → Around)

/-- `tx.AcceptToMemoryPool(state, true, true, &fMissingInputs)`. -/
def callAccept (tx : CTransaction) (s : TxNode β) : Verdict × TxNode β :=
  let r := acceptToMemoryPool (around s.clock) tx true true s.pool s.tip
  (r.1,
    { s with
      pool := r.2.1
      tip := r.2.2
      clock := s.clock + 1
      calls := s.calls ++ [(tx, r.1)] })

/-- One orphan of the set: the accepted transaction is tried again, in the orphan's
place. -/
def orphanStep (tx : CTransaction) (s : TxNode β) (orphanHash : Uint256) : TxNode β :=
  match callAccept around tx { s with orphans := s.orphans.touch orphanHash } with
  | (.accepted, s) =>
      { s with
        vWorkQueue := s.vWorkQueue ++ [orphanHash]
        vEraseQueue := s.vEraseQueue ++ [orphanHash] }
  | (.missingInputs, s) => s
  | (.rejected _, s) => { s with vEraseQueue := s.vEraseQueue ++ [orphanHash] }

/-- The loop over vWorkQueue. -/
def workLoop (tx : CTransaction) : ℕ → TxNode β → Option (TxNode β)
  | 0, _ => none
  | fuel + 1, s =>
      match s.vWorkQueue with
      | [] => some s
      | hashPrev :: rest =>
          workLoop tx fuel
            ((s.orphans.byPrev hashPrev).foldl (orphanStep around tx)
              { s with orphans := s.orphans.touchByPrev hashPrev, vWorkQueue := rest })

def eraseAll (s : TxNode β) : TxNode β :=
  { s with orphans := s.vEraseQueue.foldl (fun o hash => eraseOrphanTx hash o) s.orphans }

/-- The handler of a `tx` message. Every hash in vWorkQueue is that of the transaction or
of an orphan. -/
def processTx (Hash : List Byte → Uint256) (random : ℕ → Uint256) (tx : CTransaction)
    (s : TxNode β) : Option (TxNode β) :=
  let hash := tx.getHash Hash
  match callAccept around tx { s with calls := [] } with
  | (.accepted, s) =>
      (workLoop around tx (s.orphans.mapOrphanTransactions.keys.length + 2)
        { s with vWorkQueue := [hash], vEraseQueue := [hash] }).map eraseAll
  | (.missingInputs, s) =>
      let orphans := (addOrphanTx Hash tx s.orphans).2
      some { s with
        orphans := limitOrphanTxSize MAX_ORPHAN_TRANSACTIONS random
          orphans.mapOrphanTransactions.keys.length orphans }
  | (.rejected _, s) => some s

end Message

section Index

variable (Hash : List Byte → Uint256)

/-- A store that has come about through the functions that change it. -/
inductive Stored : Orphans → Prop
  | empty : Stored .empty
  | add (tx : CTransaction) {o : Orphans} (h : Stored o) : Stored (addOrphanTx Hash tx o).2
  | erase (hash : Uint256) {o : Orphans} (h : Stored o) : Stored (eraseOrphanTx hash o)
  | touchByPrev (hashPrev : Uint256) {o : Orphans} (h : Stored o) :
      Stored (o.touchByPrev hashPrev)

/-- The stored transactions are under their ids, and the index has each of them under
every transaction that it names. -/
structure Indexed (o : Orphans) : Prop where
  key : ∀ h tx, o.lookup h = some tx → h = tx.getHash Hash
  index : ∀ k h, h ∈ o.byPrev k ↔ ∃ tx, o.lookup h = some tx ∧ ∃ txin ∈ tx.vin, txin.prevout.hash = k

variable {Hash}

theorem mem_insertSet {h hash : Uint256} {s : List Uint256} :
    h ∈ insertSet hash s ↔ h = hash ∨ h ∈ s := by
  unfold insertSet
  split_ifs with hmem
  · constructor
    · exact Or.inr
    · rintro (rfl | h)
      · exact List.contains_iff_mem.mp hmem
      · exact h
  · exact List.mem_orderedInsert _

theorem mem_indexInput {hash h k : Uint256} {m : AList fun _ : Uint256 => List Uint256}
    {txin : CTxIn} :
    h ∈ ((indexInput hash m txin).lookup k).getD [] ↔
      (h = hash ∧ txin.prevout.hash = k) ∨ h ∈ (m.lookup k).getD [] := by
  unfold indexInput
  by_cases hk : k = txin.prevout.hash
  · subst hk
    rw [AList.lookup_insert, Option.getD_some, mem_insertSet]
    simp
  · rw [AList.lookup_insert_ne hk]
    simp [Ne.symm hk]

theorem mem_foldl_indexInput {hash h k : Uint256} (vin : List CTxIn)
    (m : AList fun _ : Uint256 => List Uint256) :
    h ∈ ((vin.foldl (indexInput hash) m).lookup k).getD [] ↔
      (h = hash ∧ ∃ txin ∈ vin, txin.prevout.hash = k) ∨ h ∈ (m.lookup k).getD [] := by
  induction vin generalizing m with
  | nil => simp
  | cons txin rest ih =>
    rw [List.foldl_cons, ih, mem_indexInput, List.exists_mem_cons_iff, and_or_left, or_assoc,
      or_left_comm]

theorem mem_unindexInput {hash h k : Uint256} {m : AList fun _ : Uint256 => List Uint256}
    {txin : CTxIn} :
    h ∈ ((unindexInput hash m txin).lookup k).getD [] ↔
      h ∈ (m.lookup k).getD [] ∧ ¬ (h = hash ∧ txin.prevout.hash = k) := by
  have hfilter : h ∈ ((m.lookup txin.prevout.hash).getD []).filter (· ≠ hash) ↔
      h ∈ (m.lookup txin.prevout.hash).getD [] ∧ ¬ h = hash := by
    rw [List.mem_filter, decide_eq_true_eq]
  unfold unindexInput
  dsimp only
  by_cases hk : k = txin.prevout.hash
  · subst hk
    split_ifs with hempty
    · rw [hempty] at hfilter
      rw [AList.lookup_erase]
      simpa using hfilter
    · rw [AList.lookup_insert, Option.getD_some, hfilter]
      simp
  · have hother : ¬ txin.prevout.hash = k := fun heq => hk heq.symm
    split_ifs
    · rw [AList.lookup_erase_ne hk]
      simp [hother]
    · rw [AList.lookup_insert_ne hk]
      simp [hother]

theorem mem_foldl_unindexInput {hash h k : Uint256} (vin : List CTxIn)
    (m : AList fun _ : Uint256 => List Uint256) :
    h ∈ ((vin.foldl (unindexInput hash) m).lookup k).getD [] ↔
      h ∈ (m.lookup k).getD [] ∧ ¬ (h = hash ∧ ∃ txin ∈ vin, txin.prevout.hash = k) := by
  induction vin generalizing m with
  | nil => simp
  | cons txin rest ih =>
    rw [List.foldl_cons, ih, mem_unindexInput, List.exists_mem_cons_iff, and_or_left, not_or,
      and_assoc]

theorem lookup_eraseOrphanTx (hash : Uint256) (o : Orphans) (h : Uint256) :
    (eraseOrphanTx hash o).lookup h = if h = hash then none else o.lookup h := by
  unfold eraseOrphanTx
  cases hin : o.lookup hash with
  | none =>
    by_cases hh : h = hash
    · rw [if_pos hh, hh]
      exact hin
    · rw [if_neg hh]
  | some tx =>
    by_cases hh : h = hash
    · rw [if_pos hh, hh]
      exact AList.lookup_erase _ _
    · rw [if_neg hh]
      exact AList.lookup_erase_ne hh

theorem eq_of_lookup_addOrphanTx_empty {tx t : CTransaction} {k : Uint256}
    (h : (addOrphanTx Hash tx .empty).2.lookup k = some t) : t = tx := by
  unfold MemPool.addOrphanTx at h
  dsimp only at h
  split_ifs at h with hin hbig
  · cases h
  · cases h
  · rw [Orphans.lookup] at h
    by_cases hk : k = tx.getHash Hash
    · rw [hk, AList.lookup_insert] at h
      exact (Option.some.inj h).symm
    · rw [AList.lookup_insert_ne hk] at h
      cases h

theorem Indexed.addOrphanTx {o : Orphans} (h : Indexed Hash o) (tx : CTransaction) :
    Indexed Hash (addOrphanTx Hash tx o).2 := by
  unfold MemPool.addOrphanTx
  dsimp only
  split_ifs with hin hbig
  · exact h
  · exact h
  · have hnone : o.lookup (tx.getHash Hash) = none := by simpa using hin
    have hlookup : ∀ k, AList.lookup k (o.mapOrphanTransactions.insert (tx.getHash Hash) tx) =
        if k = tx.getHash Hash then some tx else o.lookup k := by
      intro k
      by_cases hk : k = tx.getHash Hash
      · rw [if_pos hk, hk, AList.lookup_insert]
      · rw [if_neg hk]
        exact AList.lookup_insert_ne hk
    refine ⟨fun k t hk => ?_, fun k t => ?_⟩
    · have hk' := (hlookup k).symm.trans hk
      split_ifs at hk' with hkey
      · rw [hkey, Option.some.inj hk']
      · exact h.key k t hk'
    · show t ∈ ((tx.vin.foldl (indexInput (tx.getHash Hash))
        o.mapOrphanTransactionsByPrev).lookup k).getD [] ↔ ∃ tx', AList.lookup t
          (o.mapOrphanTransactions.insert (tx.getHash Hash) tx) = some tx' ∧ _
      rw [mem_foldl_indexInput, hlookup]
      by_cases ht : t = tx.getHash Hash
      · rw [if_pos ht]
        have hout : ¬ t ∈ o.byPrev k := by
          rw [h.index, ht, hnone]
          rintro ⟨_, hnot, -⟩
          cases hnot
        constructor
        · rintro (⟨-, hspend⟩ | hmem)
          · exact ⟨tx, rfl, hspend⟩
          · exact absurd hmem hout
        · rintro ⟨tx', heq, hspend⟩
          rw [← Option.some.inj heq] at hspend
          exact Or.inl ⟨ht, hspend⟩
      · rw [if_neg ht]
        constructor
        · rintro (⟨heq, -⟩ | hmem)
          · exact absurd heq ht
          · exact (h.index k t).mp hmem
        · exact fun hmem => Or.inr ((h.index k t).mpr hmem)

theorem Indexed.eraseOrphanTx {o : Orphans} (h : Indexed Hash o) (hash : Uint256) :
    Indexed Hash (eraseOrphanTx hash o) := by
  refine ⟨fun k t hk => ?_, fun k t => ?_⟩
  · rw [lookup_eraseOrphanTx] at hk
    split_ifs at hk
    exact h.key k t hk
  · rw [lookup_eraseOrphanTx]
    have hbyPrev : t ∈ (MemPool.eraseOrphanTx hash o).byPrev k ↔ t ∈ o.byPrev k ∧ t ≠ hash := by
      unfold MemPool.eraseOrphanTx
      cases hin : o.lookup hash with
      | none =>
        refine ⟨fun hmem => ⟨hmem, ?_⟩, fun hmem => hmem.1⟩
        rintro rfl
        obtain ⟨tx, htx, -⟩ := (h.index k t).mp hmem
        rw [hin] at htx
        cases htx
      | some tx =>
        show t ∈ ((tx.vin.foldl (unindexInput hash)
          o.mapOrphanTransactionsByPrev).lookup k).getD [] ↔ _
        rw [mem_foldl_unindexInput]
        refine and_congr_right fun hmem => ?_
        -- the transaction is indexed only under what it names
        constructor
        · rintro hnot rfl
          obtain ⟨tx', htx', hspend⟩ := (h.index k t).mp hmem
          rw [hin, Option.some.injEq] at htx'
          exact hnot ⟨rfl, htx' ▸ hspend⟩
        · rintro hne ⟨heq, -⟩
          exact hne heq
    rw [hbyPrev, h.index]
    by_cases ht : t = hash
    · simp [ht]
    · simp [ht]

theorem byPrev_touchByPrev (o : Orphans) (hashPrev k : Uint256) :
    (o.touchByPrev hashPrev).byPrev k = o.byPrev k := by
  unfold Orphans.touchByPrev
  split_ifs with hsome
  · rfl
  · have hnone : o.mapOrphanTransactionsByPrev.lookup hashPrev = none := by simpa using hsome
    unfold Orphans.byPrev
    by_cases hk : k = hashPrev
    · subst hk
      rw [AList.lookup_insert, hnone]
      rfl
    · rw [AList.lookup_insert_ne hk]

theorem lookup_touchByPrev (o : Orphans) (hashPrev h : Uint256) :
    (o.touchByPrev hashPrev).lookup h = o.lookup h := by
  unfold Orphans.touchByPrev
  split_ifs
  · rfl
  · rfl

theorem touch_of_stored {o : Orphans} {hash : Uint256} (h : (o.lookup hash).isSome) :
    o.touch hash = o := if_pos h

theorem Indexed.touchByPrev {o : Orphans} (h : Indexed Hash o) (hashPrev : Uint256) :
    Indexed Hash (o.touchByPrev hashPrev) where
  key k tx hk := h.key k tx ((lookup_touchByPrev o hashPrev k).symm.trans hk)
  index k t := by
    rw [byPrev_touchByPrev, lookup_touchByPrev]
    exact h.index k t

/-- What is under a previous transaction is stored. -/
theorem Indexed.stored {o : Orphans} (h : Indexed Hash o) {k t : Uint256} (ht : t ∈ o.byPrev k) :
    (o.lookup t).isSome := by
  obtain ⟨tx, htx, -⟩ := (h.index k t).mp ht
  rw [htx]
  rfl

theorem Stored.indexed {o : Orphans} (h : Stored Hash o) : Indexed Hash o := by
  induction h with
  | empty =>
    refine ⟨nofun, fun k t => ⟨nofun, ?_⟩⟩
    rintro ⟨tx, hnot, -⟩
    cases hnot
  | add tx _ ih => exact ih.addOrphanTx tx
  | erase hash _ ih => exact ih.eraseOrphanTx hash
  | touchByPrev hashPrev _ ih => exact ih.touchByPrev hashPrev

theorem Stored.limitOrphanTxSize (n : ℕ) (random : ℕ → Uint256) (rounds : ℕ) {o : Orphans}
    (h : Stored Hash o) : Stored Hash (limitOrphanTxSize n random rounds o) := by
  induction rounds generalizing o with
  | zero => exact h
  | succ rounds ih =>
    unfold MemPool.limitOrphanTxSize
    split_ifs
    · apply ih
      cases pickOrphan o (random rounds) with
      | none => exact h
      | some hash => exact .erase hash h
    · exact h

end Index

section Handler

variable {β : Type} [LawfulBase β] {around : ℕ → Around} {Hash : List Byte → Uint256}

/-- The orphan waits for `tx`, or for another one that does. -/
inductive DependsOn (Hash : List Byte → Uint256) (o : Orphans) (tx : CTransaction) :
    CTransaction → Prop
  | direct {orphan : CTransaction} {h : Uint256} (hin : o.lookup h = some orphan)
      (href : Refers Hash tx orphan) : DependsOn Hash o tx orphan
  | through {orphan other : CTransaction} {h : Uint256} (hother : DependsOn Hash o tx other)
      (hin : o.lookup h = some orphan) (href : Refers Hash other orphan) :
      DependsOn Hash o tx orphan

/-- What the handler should have done with the orphans when it has accepted `tx`: one that
depends on it is in the pool and no orphan any more, unless it would not be accepted
into the pool as it is now; and one is erased only if it was itself accepted, or
rejected for another reason than missing inputs. -/
structure Resolved (around : ℕ → Around) (Hash : List Byte → Uint256) (tx : CTransaction)
    (s s' : TxNode β) : Prop where
  joins : ∀ h orphan, s.orphans.lookup h = some orphan → DependsOn Hash s.orphans tx orphan →
    (s'.pool.mapTx.lookup h = some orphan ∧ s'.orphans.lookup h = none) ∨
      ∀ n, verdict (around n) orphan true true s'.pool (LawfulBase.flat s'.tip) ≠ .accepted
  erased : ∀ h orphan, s.orphans.lookup h = some orphan → s'.orphans.lookup h = none →
    (orphan, .accepted) ∈ s'.calls ∨ ∃ e, (orphan, .rejected e) ∈ s'.calls

/-- A transaction that is in the pool is refused, whatever else there is. -/
theorem acceptToMemoryPool_again {a : Around} {tx : CTransaction} {pool : CTxMemPool} (tip : β)
    (h : (pool.mapTx.lookup (tx.getHash a.env.Hash)).isSome = true) :
    (∃ e, (acceptToMemoryPool a tx true true pool tip).1 = .rejected e) ∧
      (acceptToMemoryPool a tx true true pool tip).2.1 = pool := by
  have hpre : ∃ e, preChecks a tx pool = .error e := by
    cases hpre : preChecks a tx pool with
    | error e => exact ⟨e, rfl⟩
    | ok u =>
      rw [(preChecks_ok hpre).new] at h
      cases h
  obtain ⟨e, he⟩ := hpre
  have haccept : accept a tx true true pool tip = (.rejected e, pool, tip) := by
    unfold accept
    rw [he]
  unfold acceptToMemoryPool
  rw [haccept]
  cases e with
  | runtimeError what => exact ⟨⟨_, rfl⟩, rfl⟩
  | _ => exact ⟨⟨_, rfl⟩, rfl⟩

/-- What the inner loop leaves: nothing but entries of the queue and records of calls. -/
structure Retried (tx : CTransaction) (hashes : List Uint256) (s s' : TxNode β) : Prop where
  orphans : s'.orphans = s.orphans
  pool : s'.pool = s.pool
  vWorkQueue : s'.vWorkQueue = s.vWorkQueue
  vEraseQueue : s'.vEraseQueue = s.vEraseQueue ++ hashes
  calls : ∃ l, s'.calls = s.calls ++ l ∧ ∀ c ∈ l, c.1 = tx

theorem orphanStep_retried (hHash : ∀ n, (around n).env.Hash = Hash) {tx : CTransaction}
    {s : TxNode β} (h : (s.pool.mapTx.lookup (tx.getHash Hash)).isSome = true) {hash : Uint256}
    (hstored : (s.orphans.lookup hash).isSome) :
    Retried tx [hash] s (orphanStep around tx s hash) := by
  have hin : (s.pool.mapTx.lookup (tx.getHash (around s.clock).env.Hash)).isSome = true := by
    rw [hHash]
    exact h
  obtain ⟨⟨e, he⟩, hpool⟩ := acceptToMemoryPool_again s.tip hin
  unfold orphanStep callAccept
  dsimp only
  rw [he, touch_of_stored hstored]
  exact ⟨rfl, hpool, rfl, rfl, _, rfl, fun c hc => by rw [List.mem_singleton.mp hc]⟩

theorem foldl_retried (hHash : ∀ n, (around n).env.Hash = Hash) {tx : CTransaction}
    (hashes : List Uint256) {s : TxNode β}
    (h : (s.pool.mapTx.lookup (tx.getHash Hash)).isSome = true)
    (hstored : ∀ hash ∈ hashes, (s.orphans.lookup hash).isSome) :
    Retried tx hashes s (hashes.foldl (orphanStep around tx) s) := by
  induction hashes generalizing s with
  | nil => exact ⟨rfl, rfl, rfl, (List.append_nil _).symm, [], (List.append_nil _).symm, nofun⟩
  | cons hash rest ih =>
    have hstep := orphanStep_retried hHash h (hstored hash List.mem_cons_self)
    have hrest := ih (s := orphanStep around tx s hash) (by rw [hstep.pool]; exact h)
      (by rw [hstep.orphans]; exact fun hash hh => hstored hash (List.mem_cons_of_mem _ hh))
    obtain ⟨l, hl, hltx⟩ := hstep.calls
    obtain ⟨l', hl', hltx'⟩ := hrest.calls
    refine ⟨hrest.orphans.trans hstep.orphans, hrest.pool.trans hstep.pool,
      hrest.vWorkQueue.trans hstep.vWorkQueue, ?_, l ++ l', ?_, ?_⟩
    · rw [List.foldl_cons, hrest.vEraseQueue, hstep.vEraseQueue, List.append_assoc]
      rfl
    · rw [List.foldl_cons, hl', hl, List.append_assoc]
    · intro c hc
      rcases List.mem_append.mp hc with hc | hc
      · exact hltx c hc
      · exact hltx' c hc

theorem lookup_foldl_eraseOrphanTx (hashes : List Uint256) (o : Orphans) (h : Uint256) :
    (hashes.foldl (fun o hash => eraseOrphanTx hash o) o).lookup h =
      if h ∈ hashes then none else o.lookup h := by
  induction hashes generalizing o with
  | nil => rfl
  | cons hash rest ih =>
    rw [List.foldl_cons, ih, lookup_eraseOrphanTx]
    by_cases hrest : h ∈ rest
    · rw [if_pos hrest, if_pos (List.mem_cons_of_mem _ hrest)]
    · rw [if_neg hrest]
      by_cases hh : h = hash
      · rw [if_pos hh, if_pos (hh ▸ List.mem_cons_self)]
      · rw [if_neg hh, if_neg]
        exact fun hmem => (List.mem_cons.mp hmem).elim hh hrest

/-- What the handler leaves of an accepted transaction: the orphans that name it are gone,
and AcceptToMemoryPool was asked about nothing else. -/
structure Handled (Hash : List Byte → Uint256) (tx : CTransaction) (s s' : TxNode β) : Prop where
  orphans : s'.orphans =
    (tx.getHash Hash :: s.orphans.byPrev (tx.getHash Hash)).foldl
      (fun o hash => eraseOrphanTx hash o) (s.orphans.touchByPrev (tx.getHash Hash))
  lookup : ∀ h, s'.orphans.lookup h =
    if h = tx.getHash Hash ∨ h ∈ s.orphans.byPrev (tx.getHash Hash) then none
    else s.orphans.lookup h
  accepted : (tx, .accepted) ∈ s'.calls
  calls : ∀ c ∈ s'.calls, c.1 = tx

theorem callAccept_accepted (hHash : ∀ n, (around n).env.Hash = Hash) {tx : CTransaction}
    {s : TxNode β} (hacc : (accept (around s.clock) tx true true s.pool s.tip).1 = .accepted) :
    ∃ s₁, callAccept around tx s = (.accepted, s₁) ∧ s₁.orphans = s.orphans ∧
      (s₁.pool.mapTx.lookup (tx.getHash Hash)).isSome = true ∧
      s₁.calls = s.calls ++ [(tx, .accepted)] := by
  have hpool : (accept (around s.clock) tx true true s.pool s.tip).2.1 =
      s.pool.addUnchecked (tx.getHash Hash) tx := by
    rw [← hHash s.clock]
    rcases accept_cases (around s.clock) tx true true s.pool s.tip with h | h
    · exact h.2.1
    · exact absurd hacc h.1
  have hsame : acceptToMemoryPool (around s.clock) tx true true s.pool s.tip =
      accept (around s.clock) tx true true s.pool s.tip := by
    unfold acceptToMemoryPool
    rcases hr : accept (around s.clock) tx true true s.pool s.tip with ⟨v, r⟩
    rw [hr] at hacc
    obtain rfl : v = .accepted := hacc
    rfl
  have hself : (s.pool.addUnchecked (tx.getHash Hash) tx).mapTx.lookup (tx.getHash Hash) =
      some tx := AList.lookup_insert _
  unfold callAccept
  dsimp only
  rw [hsame, hacc, hpool]
  refine ⟨_, rfl, rfl, ?_, rfl⟩
  dsimp only
  rw [hself]
  rfl

/-- One round of the work queue is all there is. -/
theorem workLoop_accepted (hHash : ∀ n, (around n).env.Hash = Hash) {tx : CTransaction}
    {s : TxNode β} (hindexed : Indexed Hash s.orphans)
    (hin : (s.pool.mapTx.lookup (tx.getHash Hash)).isSome = true)
    (hwork : s.vWorkQueue = [tx.getHash Hash]) (n : ℕ) :
    ∃ s', workLoop around tx (n + 2) s = some s' ∧
      Retried tx (s.orphans.byPrev (tx.getHash Hash))
        { s with orphans := s.orphans.touchByPrev (tx.getHash Hash), vWorkQueue := [] } s' := by
  have hstored : ∀ hash ∈ s.orphans.byPrev (tx.getHash Hash),
      ((s.orphans.touchByPrev (tx.getHash Hash)).lookup hash).isSome := by
    intro hash hh
    rw [lookup_touchByPrev]
    exact hindexed.stored hh
  have hret := @foldl_retried β _ around Hash hHash tx (s.orphans.byPrev (tx.getHash Hash))
    { s with orphans := s.orphans.touchByPrev (tx.getHash Hash), vWorkQueue := [] } hin hstored
  refine ⟨_, ?_, hret⟩
  show workLoop around tx (n + 1 + 1) s = _
  unfold workLoop
  rw [hwork]
  dsimp only
  unfold workLoop
  rw [hret.vWorkQueue]

theorem processTx_accepted (hHash : ∀ n, (around n).env.Hash = Hash) (random : ℕ → Uint256)
    {tx : CTransaction} {s : TxNode β} (hindexed : Indexed Hash s.orphans)
    (hacc : (accept (around s.clock) tx true true s.pool s.tip).1 = .accepted) :
    ∃ s', processTx around Hash random tx s = some s' ∧ Handled Hash tx s s' := by
  obtain ⟨s₁, hcall, horphans, hin, hcalls⟩ :=
    callAccept_accepted hHash (s := { s with calls := [] }) hacc
  obtain ⟨s₂, hloop, hret⟩ := workLoop_accepted hHash
    (s := { s₁ with vWorkQueue := [tx.getHash Hash], vEraseQueue := [tx.getHash Hash] })
    (by rw [horphans]; exact hindexed) hin rfl s₁.orphans.mapOrphanTransactions.keys.length
  obtain ⟨l, hl, hltx⟩ := hret.calls
  have herased : (eraseAll s₂).orphans =
      (tx.getHash Hash :: s.orphans.byPrev (tx.getHash Hash)).foldl
        (fun o hash => eraseOrphanTx hash o) (s.orphans.touchByPrev (tx.getHash Hash)) := by
    unfold eraseAll
    dsimp only
    rw [hret.vEraseQueue, hret.orphans, horphans]
    rfl
  refine ⟨eraseAll s₂, ?_, herased, fun h => ?_, ?_, fun c hc => ?_⟩
  · unfold processTx
    rw [hcall]
    dsimp only
    rw [hloop]
    rfl
  · rw [herased, lookup_foldl_eraseOrphanTx, lookup_touchByPrev]
    simp only [List.mem_cons]
  · show _ ∈ s₂.calls
    rw [hl, hcalls]
    exact List.mem_cons_self
  · have hc' : c ∈ s₂.calls := hc
    rw [hl, hcalls] at hc'
    rcases List.mem_cons.mp hc' with rfl | hc'
    · rfl
    · exact hltx c hc'

/-- Without an orphan that waits for the transaction there is none that depends on it. -/
theorem DependsOn.false {o : Orphans} {tx orphan : CTransaction}
    (hnone : ∀ h orphan, o.lookup h = some orphan → ¬ Refers Hash tx orphan)
    (h : DependsOn Hash o tx orphan) : False := by
  induction h with
  | direct hin href => exact hnone _ _ hin href
  | through _ _ _ ih => exact ih

/-- When a `tx` message's transaction is accepted, the handler returns, and it has done
with the orphans as it should exactly when no stored orphan spends an output of the
transaction. -/
theorem orphans_resolved_iff (around : ℕ → Around) (Hash : List Byte → Uint256)
    (hHash : ∀ n, (around n).env.Hash = Hash) (random : ℕ → Uint256) (tx : CTransaction)
    (s : TxNode β) (hstored : Stored Hash s.orphans)
    (hids : TxIds Hash ({ t | ∃ h, s.orphans.lookup h = some t } ∪ {tx}))
    (hacc : (accept (around s.clock) tx true true s.pool s.tip).1 = .accepted) :
    ∃ s', processTx around Hash random tx s = some s' ∧
      (Resolved around Hash tx s s' ↔
        ∀ h orphan, s.orphans.lookup h = some orphan → ¬ Refers Hash tx orphan) := by
  have hindexed := hstored.indexed
  obtain ⟨s', hrun, hdone⟩ := processTx_accepted hHash random hindexed hacc
  refine ⟨s', hrun, fun hres h orphan hin href => ?_, fun hnone => ⟨?_, ?_⟩⟩
  · have hgone : s'.orphans.lookup h = none := by
      rw [hdone.lookup, if_pos (Or.inr ((hindexed.index _ h).mpr ⟨orphan, hin, href⟩))]
    have hself : orphan = tx := by
      rcases hres.erased h orphan hin hgone with hcall | ⟨e, hcall⟩
      · exact hdone.calls _ hcall
      · exact hdone.calls _ hcall
    -- a transaction cannot spend from itself
    obtain ⟨rank, hrank⟩ := hids.acyclic
    subst hself
    exact lt_irrefl _ (hrank orphan (Or.inr rfl) orphan (Or.inr rfl) href)
  · intro h orphan _ hdep
    exact (hdep.false hnone).elim
  · intro h orphan hin hgone
    rw [hdone.lookup] at hgone
    split_ifs at hgone with hqueued
    · rcases hqueued with rfl | hwaits
      · have hkey := hindexed.key _ _ hin
        rw [hids.inj (Or.inl ⟨_, hin⟩) (Or.inr rfl) hkey.symm]
        exact Or.inl hdone.accepted
      · obtain ⟨orphan', hin', href⟩ := (hindexed.index _ h).mp hwaits
        exact absurd href (hnone h orphan' hin')
    · rw [hin] at hgone
      cases hgone

theorem orphanStep_orphans (tx : CTransaction) {s : TxNode β} {hash : Uint256}
    (h : (s.orphans.lookup hash).isSome) :
    (orphanStep around tx s hash).orphans = s.orphans := by
  have horphans : (callAccept around tx
      { s with orphans := s.orphans.touch hash }).2.orphans = s.orphans.touch hash := rfl
  rw [touch_of_stored h] at horphans
  unfold orphanStep
  rw [touch_of_stored h]
  rcases hcall : callAccept around tx { s with orphans := s.orphans } with ⟨_ | _ | _, s₁⟩
  all_goals
    rw [hcall] at horphans
    exact horphans

theorem workLoop_stored {tx : CTransaction} (fuel : ℕ) {s s' : TxNode β}
    (h : workLoop around tx fuel s = some s') (hs : Stored Hash s.orphans) :
    Stored Hash s'.orphans := by
  have hfold : ∀ (l : List Uint256) (s : TxNode β),
      (∀ hash ∈ l, (s.orphans.lookup hash).isSome) →
      (l.foldl (orphanStep around tx) s).orphans = s.orphans := by
    intro l
    induction l with
    | nil => exact fun _ _ => rfl
    | cons hash rest ih =>
      intro s hl
      have hstep : (orphanStep around tx s hash).orphans = s.orphans :=
        orphanStep_orphans tx (hl hash List.mem_cons_self)
      rw [List.foldl_cons, ih _ fun t ht => ?_, hstep]
      rw [hstep]
      exact hl t (List.mem_cons_of_mem _ ht)
  induction fuel generalizing s with
  | zero => cases h
  | succ fuel ih =>
    unfold workLoop at h
    split at h
    · rw [← Option.some.inj h]
      exact hs
    · rename_i hashPrev rest _
      refine ih h ?_
      rw [hfold]
      · exact hs.touchByPrev hashPrev
      · intro hash hh
        rw [lookup_touchByPrev]
        exact hs.indexed.stored hh

/-- The store stays one that its functions have made. -/
theorem processTx_stored {random : ℕ → Uint256} {tx : CTransaction} {s s' : TxNode β}
    (h : processTx around Hash random tx s = some s') (hs : Stored Hash s.orphans) :
    Stored Hash s'.orphans := by
  have hcallOrphans : (callAccept around tx { s with calls := [] }).2.orphans = s.orphans := rfl
  have herase : ∀ (l : List Uint256) (o : Orphans), Stored Hash o →
      Stored Hash (l.foldl (fun o hash => eraseOrphanTx hash o) o) := by
    intro l
    induction l with
    | nil => exact fun _ ho => ho
    | cons hash rest ih => exact fun o ho => ih _ (.erase hash ho)
  unfold processTx at h
  rcases hcall : callAccept around tx { s with calls := [] } with ⟨_ | _ | _, s₁⟩
  all_goals
    rw [hcall] at h hcallOrphans
    dsimp only at h hcallOrphans
  · obtain ⟨s₂, hloop, rfl⟩ := Option.map_eq_some_iff.mp h
    exact herase _ _ (workLoop_stored _ hloop (hcallOrphans ▸ hs))
  · cases h
    exact Stored.limitOrphanTxSize _ _ _ (.add tx (hcallOrphans ▸ hs))
  · cases h
    exact hcallOrphans ▸ hs

end Handler

section Examples

/-- A node with the coins that the transaction spends and one orphan that waits for it. -/
def waitingNode : TxNode (Cache CoinsDb) :=
  ⟨(addOrphanTx spendHash respendTx .empty).2, .empty, flushedTip, 0, [], [], []⟩

def spendAlways : ℕ → Around := fun _ => spendAround

theorem waitingNode_ids :
    TxIds spendHash ({ t | ∃ h, waitingNode.orphans.lookup h = some t } ∪ {spendTx}) := by
  apply spendOps_ids.mono
  rintro t (⟨h, hin⟩ | rfl)
  · obtain rfl := eq_of_lookup_addOrphanTx_empty hin
    exact ⟨spendOps[1], by simp [spendOps], rfl⟩
  · exact ⟨spendOps[0], by simp [spendOps], rfl⟩

/-- A transaction that spends from the orphan of `waitingNode`. -/
def strayTx : CTransaction :=
  ⟨1, [⟨⟨respendTxid, 0⟩, respendSig, BitVec.allOnes 32⟩], [⟨11999700000000, payToOne⟩], 0⟩

def strayTxid : Uint256 := 0xa43f36dc366b70296010e003b317f03b7ebe8ab0cdf4033c156342b65bda0730

/-- The double SHA-256 of the three. -/
def strayHash (bs : List Byte) : Uint256 :=
  ([(CTransaction.codec.write strayTx, strayTxid)].lookup bs).getD (spendHash bs)

def strayAround : Around := { spendAround with env := { spendAround.env with Hash := strayHash } }

/-- Here the orphan waits for a transaction that the node has not seen. -/
def strayNode : TxNode (Cache CoinsDb) :=
  { waitingNode with orphans := (addOrphanTx strayHash strayTx .empty).2 }

theorem strayNode_ids :
    TxIds strayHash ({ t | ∃ h, strayNode.orphans.lookup h = some t } ∪ {spendTx}) := by
  have hmem : ∀ t ∈ ({ t | ∃ h, strayNode.orphans.lookup h = some t } ∪ {spendTx} :
      Set CTransaction), t = strayTx ∨ t = spendTx := by
    rintro t (⟨h, hin⟩ | heq)
    · exact Or.inl (eq_of_lookup_addOrphanTx_empty hin)
    · exact Or.inr heq
  have hne : strayTx.getHash strayHash ≠ spendTx.getHash strayHash := by decide
  refine ⟨?_, fun _ => 0, ?_⟩
  · intro t ht u hu heq
    rcases hmem t ht with rfl | rfl
    · rcases hmem u hu with rfl | rfl
      · rfl
      · exact absurd heq hne
    · rcases hmem u hu with rfl | rfl
      · exact absurd heq.symm hne
      · rfl
  · intro t ht u hu href
    rcases hmem t ht with rfl | rfl
    · rcases hmem u hu with rfl | rfl
      · exact absurd href (by unfold Refers; decide)
      · exact absurd href (by unfold Refers; decide)
    · rcases hmem u hu with rfl | rfl
      · exact absurd href (by unfold Refers; decide)
      · exact absurd href (by unfold Refers; decide)

/-- The orphan that waits for another transaction is left alone; the one that waits for this
one is not dealt with as it should. -/
theorem orphans_resolved_stray :
    (∃ s', processTx (fun _ => strayAround) strayHash (fun _ => 0) spendTx strayNode = some s' ∧
        s'.orphans.lookup strayTxid = some strayTx ∧
        Resolved (fun _ => strayAround) strayHash spendTx strayNode s') ∧
      ∃ s', processTx spendAlways spendHash (fun _ => 0) spendTx waitingNode = some s' ∧
        ¬ Resolved spendAlways spendHash spendTx waitingNode s' := by
  obtain ⟨stray, hstray, hiff⟩ := orphans_resolved_iff (fun _ => strayAround) strayHash
    (fun _ => rfl) (fun _ => 0) spendTx strayNode (.add strayTx .empty) strayNode_ids (by decide)
  obtain ⟨waiting, hwaiting, hiff'⟩ := orphans_resolved_iff spendAlways spendHash (fun _ => rfl)
    (fun _ => 0) spendTx waitingNode (.add respendTx .empty) waitingNode_ids (by decide)
  refine ⟨⟨stray, hstray, ?_, hiff.mpr ?_⟩, waiting, hwaiting, fun hres => ?_⟩
  · have hleft : (processTx (fun _ => strayAround) strayHash (fun _ => 0) spendTx strayNode).map
        (fun s => s.orphans.lookup strayTxid) = some (some strayTx) := by decide
    rw [hstray] at hleft
    exact Option.some.inj hleft
  · intro h orphan hin
    obtain rfl := eq_of_lookup_addOrphanTx_empty hin
    unfold Refers
    decide
  · exact hiff'.mp hres respendTxid respendTx (by decide) (by unfold Refers; decide)

def afterSpend : TxNode (Cache CoinsDb) :=
  (processTx spendAlways spendHash (fun _ => 0) spendTx waitingNode).getD waitingNode

/-- The orphan could go into the pool behind the transaction it waited for; it is not
there, it is erased, and it was never tried. -/
theorem orphan_dropped :
    (accept spendAround spendTx true true waitingNode.pool waitingNode.tip).1 = .accepted ∧
      processTx spendAlways spendHash (fun _ => 0) spendTx waitingNode = some afterSpend ∧
      waitingNode.orphans.lookup respendTxid = some respendTx ∧
      afterSpend.orphans.lookup respendTxid = none ∧
      ¬ Resolved spendAlways spendHash spendTx waitingNode afterSpend := by
  have hsome : (processTx spendAlways spendHash (fun _ => 0) spendTx waitingNode).isSome = true := by
    decide
  have hrun : processTx spendAlways spendHash (fun _ => 0) spendTx waitingNode = some afterSpend := by
    obtain ⟨s', hs'⟩ := Option.isSome_iff_exists.mp hsome
    unfold afterSpend
    rw [hs']
    rfl
  have hin : waitingNode.orphans.lookup respendTxid = some respendTx := by decide
  refine ⟨by decide, hrun, hin, by decide, fun hres => ?_⟩
  have hdep : DependsOn spendHash waitingNode.orphans spendTx respendTx :=
    .direct hin (by unfold Refers; decide)
  rcases hres.joins respendTxid respendTx hin hdep with hjoined | hrefused
  · have hout : afterSpend.pool.mapTx.lookup respendTxid = none := by decide
    rw [hout] at hjoined
    cases hjoined.1
  · exact hrefused 0 (by decide)

end Examples

end UmbrellaLtc.MemPool
