import UmbrellaLtc.ConnectSpec
import UmbrellaLtc.FlatView

/-!
DisconnectBlock undoes ConnectBlock. Transactions and inputs are taken back in
the reverse of the order in which they were applied, and at each point the view
has the same unspent outputs, under the same headers, as the view had on the
way up at that point.
-/

namespace UmbrellaLtc.Disconnect

open Codec Transaction Header Coins CoinsView CheckBlock ConnectBlock Prog Spending ConnectSpec
open FlatView

/-- An entry, where a missing one counts as an empty one. -/
def entry (f : Flat) (txid : Uint256) : CCoins := (f.coins txid).getD CCoins.empty

/-- The same abstract content: the entries are the same up to pruned ones. -/
def SameCoins (d f : Flat) : Prop := ∀ txid, Same (entry d txid) (entry f txid)

/-- Entries with unspent outputs have a height and end in an unspent output. -/
def Tidy (f : Flat) : Prop :=
  ∀ txid c, f.coins txid = some c → c.isPruned = false → 1 ≤ c.nHeight ∧ c.Trimmed

def TrimmedView (d : Flat) : Prop :=
  ∀ txid, (entry d txid).isPruned = false → (entry d txid).Trimmed

/-- The view on the way down, beside the view it stands for on the way up. -/
structure Like (d f : Flat) : Prop where
  same : SameCoins d f
  trimmed : TrimmedView d

theorem entry_of_coins {f : Flat} {txid : Uint256} {c : CCoins} (h : f.coins txid = some c) :
    entry f txid = c := by
  rw [entry, h, Option.getD_some]

theorem entry_put_self (f : Flat) (txid : Uint256) (c : CCoins) : entry (put f txid c) txid = c :=
  entry_of_coins (put_coins_self f txid c)

theorem entry_put_ne (f : Flat) {txid t : Uint256} (c : CCoins) (h : t ≠ txid) :
    entry (put f txid c) t = entry f t := by
  rw [entry, put_coins_ne f c h, entry]

theorem isPruned_entry {f : Flat} {txid : Uint256} (h : Vacant f txid) :
    (entry f txid).isPruned = true := by
  cases hc : f.coins txid with
  | none =>
    rw [entry, hc]
    rfl
  | some c =>
    rw [entry_of_coins hc]
    exact h c hc

theorem coins_of_entry {f : Flat} {txid : Uint256} (h : (entry f txid).isPruned = false) :
    f.coins txid = some (entry f txid) := by
  cases hc : f.coins txid with
  | none =>
    rw [entry, hc] at h
    exact absurd h (by decide)
  | some c => rw [entry_of_coins hc]

/-- Replacing the same entry on both sides. -/
theorem Like.put {d f : Flat} (h : Like d f) {txid : Uint256} {a b : CCoins} (hab : Same a b)
    (ha : a.isPruned = false → a.Trimmed) : Like (put d txid a) (put f txid b) := by
  constructor
  · intro t
    by_cases ht : t = txid
    · subst ht
      rw [entry_put_self, entry_put_self]
      exact hab
    · rw [entry_put_ne d a ht, entry_put_ne f b ht]
      exact h.same t
  · intro t
    by_cases ht : t = txid
    · subst ht
      rw [entry_put_self]
      exact ha
    · rw [entry_put_ne d a ht]
      exact h.trimmed t

theorem put_put (f : Flat) (txid : Uint256) (a b : CCoins) :
    put (put f txid a) txid b = put f txid b := by
  simp [Spending.put]

theorem put_same {f : Flat} {txid : Uint256} {c : CCoins} (h : f.coins txid = some c) :
    put f txid c = f := by
  rw [Spending.put, ← h, Function.update_eq_self]

section Up

theorem Tidy.put {f : Flat} (h : Tidy f) {txid : Uint256} {c : CCoins}
    (hc : c.isPruned = false → 1 ≤ c.nHeight ∧ c.Trimmed) : Tidy (put f txid c) := by
  intro t d hd
  by_cases ht : t = txid
  · subst ht
    rw [put_coins_self, Option.some.injEq] at hd
    subst hd
    exact hc
  · rw [put_coins_ne f c ht] at hd
    exact h t d hd

theorem Tidy.spendOf {f f' : Flat} {o : COutPoint} {undo : CTxInUndo} (h : Tidy f)
    (ho : SpendOf f o undo f') : Tidy f' := by
  obtain ⟨c, c', hc, hspend, rfl⟩ := ho
  have hspec := CCoins.spend_spec hspend
  have hheight := (h _ c hc (CCoins.not_isPruned_of_output hspec.output_self)).1
  apply h.put
  intro _
  exact ⟨hspec.nHeight ▸ hheight, hspec.trimmed⟩

theorem Tidy.spendAll {f f' : Flat} {os : List COutPoint} {undos : List CTxInUndo} (h : Tidy f)
    (hos : SpendAll f os undos f') : Tidy f' := by
  induction hos with
  | nil => exact h
  | cons ho _ ih => exact ih (h.spendOf ho)

/-- The outputs of a checked transaction are all unspent, so nothing is to be trimmed. -/
theorem trimmed_ofTx {tx : CTransaction} (htx : TxOk tx) (nHeight : ℕ) :
    (CCoins.ofTx tx nHeight).Trimmed := by
  intro out hlast
  exact output_ofTx htx nHeight out (List.mem_of_getLast? hlast)

theorem not_isPruned_ofTx {tx : CTransaction} (htx : TxOk tx) (nHeight : ℕ) :
    (CCoins.ofTx tx nHeight).isPruned = false := by
  obtain ⟨out, hout⟩ := List.exists_mem_of_ne_nil _ htx.vout_ne
  have hnull := output_ofTx htx nHeight out hout
  rw [← Bool.not_eq_true, CCoins.isPruned, List.all_eq_true]
  intro hall
  rw [hall out hout] at hnull
  exact absurd hnull (by simp)

theorem Tidy.applies {f f' : Flat} {tx : CTransaction} {nHeight : ℕ} {txid : Uint256}
    {undo : CTxUndo} (h : Tidy f) (htx : TxOk tx) (hheight : 1 ≤ nHeight)
    (happ : Applies f tx nHeight txid undo f') : Tidy f' := by
  obtain ⟨f₁, hspend, rfl⟩ := happ
  apply (h.spendAll hspend).put
  intro _
  exact ⟨hheight, trimmed_ofTx htx nHeight⟩

theorem Tidy.appliesAll {Hash : List Byte → Uint256} {f f' : Flat} {txs : List CTransaction}
    {nHeight : ℕ} {undos : List CTxUndo} (h : Tidy f) (htxs : ∀ tx ∈ txs, TxOk tx)
    (hheight : 1 ≤ nHeight) (hall : AppliesAll Hash nHeight f txs undos f') : Tidy f' := by
  induction hall with
  | nil => exact h
  | cons happ _ ih =>
    apply ih (h.applies (htxs _ List.mem_cons_self) hheight happ)
    intro tx hmem
    exact htxs tx (List.mem_cons_of_mem _ hmem)

theorem Tidy.like {f : Flat} (h : Tidy f) : Like f f := by
  constructor
  · intro txid
    exact Same.refl _
  · intro txid hpruned
    exact (h txid _ (coins_of_entry hpruned) hpruned).2

end Up

section Down

/-- A program that succeeds. -/
abbrev Succeeds {σ α : Type} (x : Prog σ Failure α) (s : σ) (Q : α → σ → Prop) : Prop :=
  Holds x s Q fun _ => False

/-- One input put back. -/
theorem restoreStep_undoes {f f' d : Flat} {txin : CTxIn} {undo : CTxInUndo} (hf : Tidy f)
    (h : SpendOf f txin.prevout undo f') (hd : Like d f') :
    Succeeds (restoreStep true (txin, undo) : Prog Flat Failure _) d
      (fun fClean d' => fClean = true ∧ Like d' f ∧ d'.best = d.best) := by
  obtain ⟨c, c', hc, hspend, rfl⟩ := h
  have hspec := CCoins.spend_spec hspend
  have hheight : c.nHeight ≠ 0 := by
    have hpos := (hf _ c hc (CCoins.not_isPruned_of_output hspec.output_self)).1
    omega
  have hsame := hd.same txin.prevout.hash
  rw [entry_put_self] at hsame
  obtain ⟨hclean, hback, htrim⟩ := restore_spends hspec hheight hsame (hd.trimmed _)
  have hlike : Like (put d txin.prevout.hash _) (put (put f txin.prevout.hash c') _ c) :=
    hd.put hback fun _ => htrim
  rw [put_put, put_same hc] at hlike
  exact ⟨by rw [Bool.true_and]; exact hclean, hlike, rfl⟩

/-- The inputs of a transaction put back, the last one first. -/
theorem restoreInputs_undoes {f f' d : Flat} {vin : List CTxIn} {undos : List CTxInUndo}
    (hf : Tidy f) (h : SpendAll f (vin.map CTxIn.prevout) undos f') (hd : Like d f') :
    Succeeds ((vin.zip undos).reverse.foldlM restoreStep true : Prog Flat Failure _) d
      (fun fClean d' => fClean = true ∧ Like d' f ∧ d'.best = d.best) := by
  induction vin generalizing f undos with
  | nil =>
    cases h
    exact holds_pure true ⟨rfl, hd, rfl⟩
  | cons txin rest ih =>
    rw [List.map_cons] at h
    cases h with
    | cons ho hrest =>
      rw [List.zip_cons_cons, List.reverse_cons, List.foldlM_append]
      apply holds_bind
      apply (ih (hf.spendOf ho) hrest).mono _ fun _ he => he
      intro fClean d₁ h₁
      obtain ⟨rfl, hlike, hbest⟩ := h₁
      apply holds_bind
      apply (restoreStep_undoes hf ho hlike).mono _ fun _ he => he
      intro fClean d₂ h₂
      obtain ⟨rfl, hlike₂, hbest₂⟩ := h₂
      exact holds_pure true ⟨rfl, hlike₂, hbest₂.trans hbest⟩

theorem SpendAll.length_eq {f f' : Flat} {os : List COutPoint} {undos : List CTxInUndo}
    (h : SpendAll f os undos f') : undos.length = os.length := by
  induction h with
  | nil => rfl
  | cons _ _ ih => rw [List.length_cons, List.length_cons, ih]

/-- The part of a round in front of the inputs: the outputs are found as the transaction
made them, and taken away. -/
theorem takeOutputs_undoes {f₁ d : Flat} {tx : CTransaction} {nHeight : ℕ} {txid : Uint256}
    (htx : TxOk tx) (hv : Vacant f₁ txid)
    (hd : Like d (put f₁ txid (CCoins.ofTx tx nHeight))) :
    d.coins txid = some (CCoins.ofTx tx nHeight) ∧ Like (put d txid CCoins.empty) f₁ := by
  have hsame := hd.same txid
  rw [entry_put_self] at hsame
  have hunpruned : (entry d txid).isPruned = false :=
    hsame.isPruned.trans (not_isPruned_ofTx htx nHeight)
  have hvout := vout_eq_of_same hsame (hd.trimmed txid hunpruned) (output_ofTx htx nHeight)
  obtain ⟨hcb, hh, hver⟩ := hsame.header hunpruned
  have hentry : entry d txid = CCoins.ofTx tx nHeight := by
    rw [CCoins.mk.injEq]
    exact ⟨hcb, hvout, hh, hver⟩
  constructor
  · rw [coins_of_entry hunpruned, hentry]
  · constructor
    · intro t
      by_cases ht : t = txid
      · subst ht
        rw [entry_put_self]
        exact same_of_isPruned CCoins.isPruned_empty (isPruned_entry hv)
      · rw [entry_put_ne d _ ht]
        have hother := hd.same t
        rwa [entry_put_ne f₁ _ ht] at hother
    · intro t hpruned
      by_cases ht : t = txid
      · subst ht
        rw [entry_put_self] at hpruned
        exact absurd hpruned (by decide)
      · rw [entry_put_ne d _ ht] at hpruned ⊢
        exact hd.trimmed t hpruned

/-- One transaction taken back. -/
theorem disconnectTx_undoes {env : Env} {f f' d : Flat} {tx : CTransaction} {nHeight : ℕ}
    {undo : CTxUndo} {record : Option CTxUndo} (hf : Tidy f) (htx : TxOk tx)
    (hv : Vacant f (tx.getHash env.Hash))
    (hrecord : record = if tx.isCoinBase then none else some undo)
    (h : Applies f tx nHeight (tx.getHash env.Hash) undo f') (hd : Like d f') :
    Succeeds (disconnectTx env nHeight true (tx, record) : Prog Flat Failure _) d
      (fun fClean d' => fClean = true ∧ Like d' f ∧ d'.best = d.best) := by
  obtain ⟨f₁, hspend, rfl⟩ := h
  have hv₁ : Vacant f₁ (tx.getHash env.Hash) := by
    intro c hc
    rw [hspend.coins_vacant hv] at hc
    exact hv c hc
  obtain ⟨hcoins, hlike⟩ := takeOutputs_undoes htx hv₁ hd
  have hknown : Reads (ensureCoins (tx.getHash env.Hash) : Prog Flat Failure _) d
      (fun known => known = true) fun _ => False := by
    apply (reads_haveCoins _).bind
    intro known hiff
    rw [if_pos (hiff.mpr ⟨_, hcoins⟩)]
    exact reads_pure true rfl
  apply hknown.bind
  intro known hk
  have hget : Reads (getCoins (tx.getHash env.Hash) : Prog Flat Failure _) d
      (fun c => c = CCoins.ofTx tx nHeight) fun _ => False := by
    apply holds_bind
    apply holds_act
    dsimp only [CoinsCache.fetchCoins]
    rw [hcoins]
    exact reads_pure _ rfl
  apply hget.bind
  intro outs houts
  subst houts
  have hversion : (if (CCoins.ofTx tx nHeight).nVersion.toInt < 0 then
      { CCoins.ofTx tx nHeight with nVersion := (CCoins.ofTx tx nHeight).nVersion }
      else CCoins.ofTx tx nHeight) = CCoins.ofTx tx nHeight := ite_self _
  dsimp only
  rw [hversion, hk]
  simp only [Bool.and_self, decide_true]
  apply holds_bind
  apply holds_setCoins
  by_cases hcb : tx.isCoinBase = true
  · rw [if_pos hcb] at hrecord
    subst hrecord
    have hsame : f₁ = f := by
      rw [spentBy, if_pos hcb] at hspend
      generalize undo.vprevout = undos at hspend
      cases hspend
      rfl
    subst hsame
    exact holds_pure true ⟨rfl, hlike, rfl⟩
  · rw [if_neg hcb] at hrecord
    subst hrecord
    rw [spentBy, if_neg hcb] at hspend
    have hlen : undo.vprevout.length = tx.vin.length := by
      rw [SpendAll.length_eq hspend, List.length_map]
    apply Reads.bind (reads_check fun hne => hne hlen)
    intro _ _
    exact restoreInputs_undoes hf hspend hlike

/-- A transaction with the record that the undo data has of it. -/
def withRecord (tx : CTransaction) (undo : CTxUndo) : CTransaction × Option CTxUndo :=
  (tx, if tx.isCoinBase then none else some undo)

/-- Transactions taken back, the last one first. -/
theorem disconnectAll_undoes {env : Env} {f f' d : Flat} {txs : List CTransaction} {nHeight : ℕ}
    {undos : List CTxUndo} (hf : Tidy f) (hheight : 1 ≤ nHeight) (htxs : ∀ tx ∈ txs, TxOk tx)
    (hnodup : (txs.map (CTransaction.getHash env.Hash)).Nodup)
    (hv : ∀ tx ∈ txs, Vacant f (tx.getHash env.Hash))
    (h : AppliesAll env.Hash nHeight f txs undos f') (hd : Like d f') :
    Succeeds ((List.zipWith withRecord txs undos).reverse.foldlM (disconnectTx env nHeight) true :
        Prog Flat Failure _) d
      (fun fClean d' => fClean = true ∧ Like d' f ∧ d'.best = d.best) := by
  induction h with
  | nil => exact holds_pure true ⟨rfl, hd, rfl⟩
  | @cons f f₁ f' tx undo rest undos happ hrest ih =>
    rw [List.map_cons, List.nodup_cons] at hnodup
    have htx := htxs tx List.mem_cons_self
    have hvrest : ∀ tx' ∈ rest, Vacant f₁ (tx'.getHash env.Hash) := by
      intro tx' hmem
      apply happ.vacant
      · intro heq
        exact hnodup.1 (heq ▸ List.mem_map_of_mem hmem)
      · exact hv tx' (List.mem_cons_of_mem _ hmem)
    have hrestok : ∀ tx' ∈ rest, TxOk tx' := fun tx' hmem => htxs tx' (List.mem_cons_of_mem _ hmem)
    rw [List.zipWith_cons_cons, List.reverse_cons, List.foldlM_append]
    apply holds_bind
    apply (ih (hf.applies htx hheight happ) hrestok hnodup.2 hvrest hd).mono _ fun _ he => he
    intro fClean d₁ h₁
    obtain ⟨rfl, hlike, hbest⟩ := h₁
    apply holds_bind
    apply (disconnectTx_undoes hf htx (hv tx List.mem_cons_self) rfl happ hlike).mono _
      fun _ he => he
    intro fClean d₂ h₂
    obtain ⟨rfl, hlike₂, hbest₂⟩ := h₂
    exact holds_pure true ⟨rfl, hlike₂, hbest₂.trans hbest⟩

theorem AppliesAll.length_eq {Hash : List Byte → Uint256} {nHeight : ℕ} {f f' : Flat}
    {txs : List CTransaction} {undos : List CTxUndo}
    (h : AppliesAll Hash nHeight f txs undos f') : undos.length = txs.length := by
  induction h with
  | nil => rfl
  | cons _ _ ih => rw [List.length_cons, List.length_cons, ih]

theorem undoEntries_eq {coinbase : CTransaction} {rest : List CTransaction}
    (hcb : coinbase.isCoinBase = true) (hrest : ∀ tx ∈ rest, tx.isCoinBase = false)
    (undos : List CTxUndo) :
    undoEntries (coinbase :: rest) undos =
      List.zipWith withRecord (coinbase :: rest) (⟨[]⟩ :: undos) := by
  have hothers : rest.zip (undos.map some) = List.zipWith withRecord rest undos := by
    induction rest generalizing undos with
    | nil => rfl
    | cons tx rest ih =>
      cases undos with
      | nil => rfl
      | cons undo undos =>
        have htail := ih (fun tx' hmem => hrest tx' (List.mem_cons_of_mem _ hmem)) undos
        rw [List.map_cons, List.zip_cons_cons, List.zipWith_cons_cons, htail, withRecord,
          hrest tx List.mem_cons_self]
        rfl
  rw [undoEntries, List.zip_cons_cons, List.zipWith_cons_cons, hothers, withRecord, hcb]
  rfl

/-- The transactions of a connected block taken back. -/
theorem disconnectTxs_undoes {env : Env} {block : CBlock} {coinbase : CTransaction}
    {rest : List CTransaction} {nHeight : ℕ} {f f' d : Flat} {undo : CBlockUndo}
    (hok : BlockOk env block coinbase rest) (hf : Tidy f) (hheight : 1 ≤ nHeight)
    (h : Connected env nHeight f coinbase rest undo.vtxundo f') (hd : Like d f') :
    Succeeds (disconnectTxs env nHeight block.vtx undo : Prog Flat Failure _) d
      (fun fClean d' => fClean = true ∧ Like d' f) := by
  have htxs := hok.txs
  have hnodup := hok.txids
  rw [hok.vtx_eq] at htxs hnodup
  have hlen : undo.vtxundo.length + 1 = block.vtx.length := by
    have happlied := AppliesAll.length_eq h.applied
    rw [hok.vtx_eq]
    simpa using happlied
  apply Reads.bind (reads_check fun hne => hne hlen)
  intro _ _
  rw [hok.vtx_eq, undoEntries_eq hok.coinbase_is hok.rest_not]
  apply (disconnectAll_undoes hf hheight htxs hnodup h.vacant h.applied hd).mono _ fun _ he => he
  intro fClean d' h'
  exact ⟨h'.1, h'.2.1⟩

/-- DisconnectBlock on the flat view that ConnectBlock has left. -/
theorem disconnectBlock_undoes {env : Env} {io : BlockIo} {block : CBlock} {coinbase : CTransaction}
    {rest : List CTransaction} {pindex : PIndex} {pprev : BlockPtr} {f f' : Flat}
    {undo : CBlockUndo} {s : BlockCtx Flat} (hok : BlockOk env block coinbase rest) (hf : Tidy f)
    (hheight : 1 ≤ pindex.ptr.nHeight) (hprev : pindex.pprev = some pprev)
    (h : Connected env pindex.ptr.nHeight f coinbase rest undo.vtxundo f')
    (hview : s.view = { f' with best := some pindex.ptr })
    (hstatus : undoPosIsNull s.nStatus = false) (hread : io.readUndo = true)
    (hundo : s.undo = some undo) :
    Succeeds (disconnectBlock env io block pindex) s (fun fClean s' =>
      fClean = true ∧ SameCoins s'.view f ∧ s'.view.best = some pprev) := by
  have htxs := hok.txs
  rw [hok.vtx_eq] at htxs
  have htidy := hf.appliesAll htxs hheight h.applied
  have hlike : Like s.view f' := by
    rw [hview]
    exact ⟨htidy.like.same, htidy.like.trimmed⟩
  have hbest : s.view.best = some pindex.ptr := by rw [hview]
  apply holds_bind
  apply holds_zoom
  apply holds_act
  apply Reads.bind (reads_check fun hne => hne hbest.symm)
  intro _ _
  apply holds_bind
  apply holds_act
  apply Reads.bind (reads_check fun hne => hne hstatus)
  intro _ _
  apply holds_bind
  apply holds_act
  have hfound : (s.setView (CoinsCache.getBestBlock s.view).2).undo = some undo := hundo
  rw [if_pos hread, hfound, hprev]
  dsimp only
  apply holds_bind
  apply holds_zoom
  apply (disconnectTxs_undoes hok hf hheight h hlike).mono _ fun _ he => he
  intro fClean d' h'
  obtain ⟨rfl, hd'⟩ := h'
  apply holds_bind
  apply holds_zoom
  apply holds_act
  exact holds_pure true ⟨rfl, hd'.same, rfl⟩

end Down

theorem exists_ok {σ α : Type} {x : Prog σ Failure α} {s : σ} {Q : α → σ → Prop}
    (h : Succeeds x s Q) : ∃ a s', x.run s = (.ok a, s') ∧ Q a s' := by
  rcases hx : x.run s with ⟨e | a, s'⟩
  · exact absurd (h.of_error hx) id
  · exact ⟨a, s', rfl, h.of_ok hx⟩

/-- Whatever block ConnectBlock has connected on top of a view, DisconnectBlock with the
undo data that it has made, once this is read, succeeds cleanly, and gives back the content and
the best block that the view had. -/
theorem disconnect_connect {β : Type} [LawfulBase β] (env : Env) (io io' : BlockIo)
    (block : CBlock) (pindex : PIndex) (pprev : BlockPtr) (undo : CBlockUndo)
    (s s' : BlockCtx (Cache β))
    (hview : Tidy s.view.flat) (hheight : 1 ≤ pindex.ptr.nHeight)
    (hprev : pindex.pprev = some pprev) (hread : io'.readUndo = true)
    (hconnect : (connectBlock env io block pindex false).run s = (.ok (some undo), s')) :
    ∃ s'', (disconnectBlock env io' block pindex).run { s' with undo := some undo } = (.ok true, s'') ∧
      SameCoins s''.view.flat s.view.flat ∧ s''.view.flat.best = s.view.flat.best := by
  have hflat := (connectBlock_flat env io block pindex false s).1
  rw [hconnect] at hflat
  have hspec : Holds (connectBlock env io block pindex false) (flatCtx s) _ (Allowed False) :=
    holds_connectBlock env io block pindex false (flatCtx s) False.elim
  obtain ⟨hbest, f', hpass, -, hdone⟩ := hspec.of_ok hflat
  obtain ⟨hview', hstatus⟩ := hdone rfl
  cases hpass with
  | connected hok hconn =>
    have hdisc := disconnectBlock_undoes (s := flatCtx { s' with undo := some undo }) hok hview
      hheight hprev hconn hview' (hstatus (by simp)) hread rfl
    obtain ⟨fClean, t, hrun, rfl, hsame, htbest⟩ := exists_ok hdisc
    rw [(disconnectBlock_flat env io' block pindex { s' with undo := some undo }).1] at hrun
    rcases hdown : (disconnectBlock env io' block pindex).run { s' with undo := some undo } with
      ⟨r, s''⟩
    rw [hdown] at hrun
    obtain ⟨rfl, rfl⟩ := Prod.mk.inj hrun
    exact ⟨s'', rfl, hsame, htbest.trans (hprev.symm.trans hbest)⟩

/-- The premine, spent at height 151. -/
def premineTxid : Uint256 := 0xb26bb784e352e5f310e5e04c2ed503653d0b71044885be30b7dce40371e39bdc

def rewardTx : CTransaction :=
  ⟨1, [⟨⟨0, BitVec.allOnes 32⟩, [0x02, 0x97, 0x00], BitVec.allOnes 32⟩],
    [⟨1000000000, [0x51]⟩], 0⟩

/-- Spends the last output of an old transaction. -/
def splitTx : CTransaction :=
  ⟨1, [⟨⟨premineTxid, 0⟩, [], BitVec.allOnes 32⟩],
    [⟨7000000000000, [0x51]⟩, ⟨5000000000000, [0x51]⟩], 0⟩

/-- Spends an output of the same block. -/
def chainedTx : CTransaction :=
  ⟨1, [⟨⟨0x3f1586032d33d8ad3fc39367c58f5f5163724008364232d3d662303c017ded71, 0⟩, [],
    BitVec.allOnes 32⟩], [⟨7000000000000, [0x51]⟩], 0⟩

def spendHeader : HeaderFields :=
  ⟨904855554, 0x96, 0x3526f5ff51d76b5fc67664f79b52917843d405b49d017683e190a21319473311,
    1403795000, 0x1e6236f6, 147548⟩

/-- The double SHA-256 on what is hashed: the transactions, the nodes of the merkle
tree, and the header. -/
def spendDigests : List (List Byte × Uint256) :=
  let reward := 0x447d810fd09ae508c560bf7434a160e5c933d036bfd5538c87afcf21f78de414
  let split := 0x3f1586032d33d8ad3fc39367c58f5f5163724008364232d3d662303c017ded71
  let chained := 0x7b1f107986d5eb2ce3c6bf5c0d5ce8d9129ccc3b27242b9d0ae73cd9d52b3336
  let left := 0x78750e94ca4ee8fc75f0bb96ac9d9d18bee5a59c97e1dec236258f3d8eecd4d6
  let right := 0x320dd26bd8c6117483ee4939c14061f933ce246a1a5b9e0befc45584e3206af3
  [(CTransaction.codec.write rewardTx, reward),
    (CTransaction.codec.write splitTx, split),
    (CTransaction.codec.write chainedTx, chained),
    (Merkle.pairBytes reward split, left),
    (Merkle.pairBytes chained chained, right),
    (Merkle.pairBytes left right, spendHeader.hashMerkleRoot),
    (HeaderFields.codec.write spendHeader,
      0xb385e77e0498cd5a47c81a05e79e95268c699628545c35db03fa56feb2137c6b)]

def spendEnv : Env where
  Hash bs := (spendDigests.lookup bs).getD 0
  powHash _ := 0x56eea7251f453e226bb6a81f09137153e43611e052fa6749e35839ed033f
  fTestNet := true
  genesisHash := 0x45906cdafda66bb13095deef71b5e5b768eb037f91b556c0cb996e50c3303bb3
  totalBlocksEstimate := 0
  adjustedTime := 1403795000
  verifyScript scriptPubKey _ _ _ := scriptPubKey == [0x51]
  fScriptCheckThreads := false

def spendBlock : CBlock := ⟨.plain spendHeader, [rewardTx, splitTx, chainedTx]⟩

def spendIndex : PIndex :=
  ⟨⟨0xb385e77e0498cd5a47c81a05e79e95268c699628545c35db03fa56feb2137c6b, 151⟩,
    some ⟨0x96, 150⟩, 1403795000⟩

/-- A database that holds the premine only. -/
def spendDb : CoinsDb :=
  ⟨(∅ : CoinsMap).insert premineTxid ⟨true, [⟨12000000000000, [0x51]⟩], 1, 1⟩,
    some ⟨0x96, 150⟩⟩

def spendCtx : BlockCtx (Cache CoinsDb) :=
  ⟨.new spendDb, BLOCK_VALID_TRANSACTIONS ||| BLOCK_HAVE_DATA, none,
    BLOCK_VALID_TRANSACTIONS ||| BLOCK_HAVE_DATA⟩

def spendIo : BlockIo := ⟨true, true, .ok, false, .ok, true⟩

theorem tidy_spendDb : Tidy (Cache.flat (.new spendDb)) := by
  intro txid c hc _
  by_cases ht : txid = premineTxid
  · subst ht
    obtain rfl : (⟨true, [⟨12000000000000, [0x51]⟩], 1, 1⟩ : CCoins) = c := Option.some.inj hc
    constructor
    · decide
    · intro out hlast
      obtain rfl := Option.some.inj hlast
      decide
  · have hnone : (Cache.flat (.new spendDb)).coins txid = none := by
      show ((∅ : CoinsMap).insert premineTxid _).lookup txid = none
      rw [AList.lookup_insert_ne ht]
      rfl
    rw [hnone] at hc
    exact absurd hc (by simp)

theorem disconnect_connect_spend :
    ∃ undo s' s'',
      (connectBlock spendEnv spendIo spendBlock spendIndex false).run spendCtx =
        (.ok (some undo), s') ∧
      (disconnectBlock spendEnv spendIo spendBlock spendIndex).run { s' with undo := some undo } =
        (.ok true, s'') ∧
      SameCoins s''.view.flat spendCtx.view.flat ∧
      s''.view.flat.best = some ⟨0x96, 150⟩ := by
  have hok : ((connectBlock spendEnv spendIo spendBlock spendIndex false).run
      spendCtx).1.toOption.join.isSome = true := by decide +kernel
  rcases hconn : (connectBlock spendEnv spendIo spendBlock spendIndex false).run spendCtx with
    ⟨_ | _ | undo, s'⟩
  · rw [hconn] at hok
    exact absurd hok Bool.false_ne_true
  · rw [hconn] at hok
    exact absurd hok Bool.false_ne_true
  · obtain ⟨s'', hrun, hsame, hbest⟩ := disconnect_connect spendEnv spendIo spendIo spendBlock
      spendIndex ⟨0x96, 150⟩ undo spendCtx s' tidy_spendDb (by decide) rfl rfl hconn
    exact ⟨undo, s', s'', rfl, hrun, hsame, hbest⟩

end UmbrellaLtc.Disconnect
