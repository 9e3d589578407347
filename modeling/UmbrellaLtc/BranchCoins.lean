import UmbrellaLtc.ConnectSpec
import UmbrellaLtc.PoolIndex

/-!
What the two branches of a reorganisation do to the outputs that can be spent. A
block that is disconnected cleanly takes its own outputs away and no others. A
block that is connected takes away what its transactions spend, and what they
pay out is there afterwards unless a later transaction spends it.
-/

namespace UmbrellaLtc.BranchCoins

open Codec Transaction Header Coins CoinsView CheckBlock ConnectBlock ConnectSpec Spending Prog
  MemPool

/-- The output is there to be spent. -/
def Available (f : Flat) (o : COutPoint) : Prop := ∃ out, unspent f o = some out

/-- `o` is an output of `tx`. -/
def OutputOf (Hash : List Byte → Uint256) (tx : CTransaction) (o : COutPoint) : Prop :=
  o.hash = tx.getHash Hash ∧ o.n.toNat < tx.vout.length

section Disconnecting

variable {f f' : Flat} {o : COutPoint}

theorem available_iff : Available f o ↔
    ∃ c out, f.coins o.hash = some c ∧ c.output o.n.toNat = some out := by
  unfold Available
  constructor
  · rintro ⟨out, hout⟩
    obtain ⟨c, hc, hc'⟩ := (unspent_eq_some_iff f o out).mp hout
    exact ⟨c, out, hc, hc'⟩
  · rintro ⟨c, out, hc, hc'⟩
    exact ⟨out, (unspent_eq_some_iff f o out).mpr ⟨c, hc, hc'⟩⟩

theorem available_put_ne (f : Flat) {txid : Uint256} (c : CCoins) (h : o.hash ≠ txid) :
    Available (put f txid c) o ↔ Available f o := by
  rw [available_iff, available_iff, put_coins_ne _ _ h]

theorem available_put_self (f : Flat) (c : CCoins) :
    Available (put f o.hash c) o ↔ ∃ out, c.output o.n.toNat = some out := by
  rw [available_iff]
  simp

/-- An output put back cleanly takes the place of no other. -/
theorem restore_keeps {c : CCoins} {undo : CTxInUndo} {n m : ℕ} {out : CTxOut}
    (hclean : (restore c undo n).1 = true) (hout : c.output m = some out) :
    ∃ out, (restore c undo n).2.output m = some out := by
  unfold restore at hclean
  rw [Bool.and_eq_true] at hclean
  have hunpruned := CCoins.not_isPruned_of_output hout
  have hbase : restoreBase c undo = c := by
    unfold restoreBase
    split_ifs with hheight
    · rw [if_pos hheight, hunpruned] at hclean
      exact absurd hclean.1 (by simp)
    · rfl
  rw [hbase] at hclean
  have hne : m ≠ n := by
    rintro rfl
    have havail := (CCoins.isAvailable_iff c m).mpr ⟨out, hout⟩
    rw [havail] at hclean
    exact absurd hclean.2 (by simp)
  have hlen : n < (c.resize (n + 1)).vout.length := by
    rw [CCoins.length_resize]
    omega
  unfold restore
  rw [hbase]
  refine ⟨out, ?_⟩
  rw [CCoins.output_set _ n m _ hlen, if_neg hne, CCoins.output_resize]
  exact hout

/-- Every output that was there still is. -/
def Keeps (f f' : Flat) : Prop := ∀ o, Available f o → Available f' o

theorem holds_restoreStep (fClean : Bool) (input : CTxIn × CTxInUndo) (f : Flat) :
    Holds (restoreStep fClean input : Prog Flat Failure Bool) f
      (fun fClean' f' => fClean' = true → fClean = true ∧ Keeps f f') (fun _ => True) := by
  refine holds_bind (holds_act _ ?_)
  refine holds_bind (holds_setCoins _ _ (holds_pure _ ?_))
  intro hclean
  rw [Bool.and_eq_true] at hclean
  refine ⟨hclean.1, fun o ho => ?_⟩
  by_cases hhash : o.hash = input.1.prevout.hash
  · obtain ⟨c, out, hc, hout⟩ := available_iff.mp ho
    have hfetch : (CoinsCache.fetchCoins o.hash f).1 = some c := hc
    rw [← hhash, hfetch] at hclean
    rw [← hhash, hfetch, available_put_self]
    exact restore_keeps hclean.2 hout
  · exact (available_put_ne f _ hhash).mpr ho

theorem holds_restoreInputs (fClean : Bool) (tx : CTransaction) (txundo : CTxUndo) (f : Flat) :
    Holds (restoreInputs fClean tx txundo : Prog Flat Failure Bool) f
      (fun fClean' f' => fClean' = true → fClean = true ∧ Keeps f f') (fun _ => True) := by
  refine holds_check (fun _ => trivial) fun _ => ?_
  refine holds_foldlM (fun _ c s => c = true → fClean = true ∧ Keeps f s) ?_ _ fClean f
    fun hclean => ⟨hclean, fun _ ho => ho⟩
  intro input rest c s hinv
  refine (holds_restoreStep c input s).mono (fun c' s' hstep hclean => ?_) fun _ he => he
  obtain ⟨hc, hkeeps⟩ := hstep hclean
  exact ⟨(hinv hc).1, fun o ho => hkeeps o ((hinv hc).2 o ho)⟩

variable {Hash : List Byte → Uint256}

/-- What was there is there, but for outputs of the transactions of a list. -/
def Sheds (Hash : List Byte → Uint256) (f : Flat) (D : List CTransaction) (f' : Flat) : Prop :=
  ∀ o, Available f o → Available f' o ∨ ∃ d ∈ D, OutputOf Hash d o

theorem Sheds.nil (f : Flat) : Sheds Hash f [] f := fun _ ho => Or.inl ho

theorem Sheds.append {f₁ f₂ : Flat} {D E : List CTransaction} (h : Sheds Hash f D f₁)
    (h' : Sheds Hash f₁ E f₂) : Sheds Hash f (D ++ E) f₂ := by
  intro o ho
  rcases h o ho with ho | ⟨d, hd, hout⟩
  · rcases h' o ho with ho | ⟨d, hd, hout⟩
    · exact Or.inl ho
    · exact Or.inr ⟨d, List.mem_append_right D hd, hout⟩
  · exact Or.inr ⟨d, List.mem_append_left E hd, hout⟩

theorem Sheds.mono {D E : List CTransaction} (h : Sheds Hash f D f') (hsub : ∀ d ∈ D, d ∈ E) :
    Sheds Hash f E f' := by
  intro o ho
  rcases h o ho with ho | ⟨d, hd, hout⟩
  · exact Or.inl ho
  · exact Or.inr ⟨d, hsub d hd, hout⟩

theorem holds_ensureCoins (txid : Uint256) (f : Flat) :
    Holds (ensureCoins txid : Prog Flat Failure Bool) f (fun known f' => known = true → f' = f)
      (fun _ => True) := by
  refine (reads_haveCoins txid).bind fun known _ => ?_
  split_ifs
  · exact holds_pure true fun _ => rfl
  · exact holds_bind (holds_setCoins _ _ (holds_pure false fun h => by cases h))

/-- The outputs of a transaction leave, when the entry is the one that the block has made. -/
theorem sheds_take {tx : CTransaction} {nHeight : ℕ} {c : CCoins}
    (hc : f.coins (tx.getHash Hash) = some c)
    (hsame : (if (CCoins.ofTx tx nHeight).nVersion.toInt < 0 then
      { c with nVersion := (CCoins.ofTx tx nHeight).nVersion } else c) = CCoins.ofTx tx nHeight) :
    Sheds Hash f [tx] (put f (tx.getHash Hash) CCoins.empty) := by
  have hvout : c.vout = tx.vout := by
    have hvout := congrArg CCoins.vout hsame
    split_ifs at hvout
    · exact hvout
    · exact hvout
  intro o ho
  by_cases hhash : o.hash = tx.getHash Hash
  · obtain ⟨c', out, hc', hout⟩ := available_iff.mp ho
    rw [hhash, hc] at hc'
    obtain rfl := Option.some.inj hc'
    have hlt := (List.getElem?_eq_some_iff.mp ((CCoins.output_eq_some_iff c _ out).mp hout).1).1
    rw [hvout] at hlt
    exact Or.inr ⟨tx, List.mem_singleton.mpr rfl, hhash, hlt⟩
  · exact Or.inl ((available_put_ne f _ hhash).mpr ho)

/-- One round of DisconnectBlock. -/
theorem holds_disconnectTx (env : Env) (nHeight : ℕ) (fClean : Bool)
    (entry : CTransaction × Option CTxUndo) (f : Flat) :
    Holds (disconnectTx env nHeight fClean entry : Prog Flat Failure Bool) f
      (fun fClean' f' => fClean' = true → fClean = true ∧ Sheds env.Hash f [entry.1] f')
      (fun _ => True) := by
  obtain ⟨tx, record⟩ := entry
  refine holds_bind ((holds_ensureCoins _ f).mono (fun known f₁ hknown => ?_) fun _ he => he)
  refine (reads_getCoins _ trivial).bind fun c hc => ?_
  refine holds_bind (holds_setCoins _ _ ?_)
  have hshed : (fClean && known && decide ((if (CCoins.ofTx tx nHeight).nVersion.toInt < 0 then
      { c with nVersion := (CCoins.ofTx tx nHeight).nVersion } else c) =
        CCoins.ofTx tx nHeight)) = true →
      fClean = true ∧ Sheds env.Hash f [tx] (put f₁ (tx.getHash env.Hash) .empty) := by
    intro hclean
    rw [Bool.and_eq_true, Bool.and_eq_true, decide_eq_true_eq] at hclean
    obtain rfl := hknown hclean.1.2
    exact ⟨hclean.1.1, sheds_take hc hclean.2⟩
  cases record with
  | none => exact holds_pure _ hshed
  | some txundo =>
    refine (holds_restoreInputs _ tx txundo _).mono (fun b' f' h hclean => ?_) fun _ he => he
    obtain ⟨hfirst, hkeeps⟩ := h hclean
    refine ⟨(hshed hfirst).1, fun o ho => ?_⟩
    exact ((hshed hfirst).2 o ho).imp_left (hkeeps o)

/-- The loop of DisconnectBlock over the transactions. -/
theorem holds_disconnectTxs (env : Env) (nHeight : ℕ) (vtx : List CTransaction)
    (blockUndo : CBlockUndo) (f : Flat) :
    Holds (disconnectTxs env nHeight vtx blockUndo : Prog Flat Failure Bool) f
      (fun fClean f' => fClean = true → Sheds env.Hash f vtx f') (fun _ => True) := by
  refine holds_check (fun _ => trivial) fun _ => ?_
  have hmem : ∀ e ∈ (undoEntries vtx blockUndo.vtxundo).reverse, e.1 ∈ vtx := fun e he =>
    (List.of_mem_zip (List.mem_reverse.mp he)).1
  refine (holds_foldlM (fun rest c s => (∀ e ∈ rest, e.1 ∈ vtx) ∧
    (c = true → Sheds env.Hash f vtx s)) ?_ _ true f ⟨hmem, fun _ _ ho => Or.inl ho⟩).mono
    (fun c s h => h.2) fun _ he => he
  rintro e rest c s ⟨hall, hinv⟩
  refine (holds_disconnectTx env nHeight c e s).mono (fun c' s' hstep => ?_) fun _ he => he
  refine ⟨fun e' he' => hall e' (List.mem_cons_of_mem _ he'), fun hclean => ?_⟩
  obtain ⟨hc, hsheds⟩ := hstep hclean
  refine ((hinv hc).append hsheds).mono fun d hd => ?_
  rcases List.mem_append.mp hd with hd | hd
  · exact hd
  · rw [List.mem_singleton.mp hd]
    exact hall e List.mem_cons_self

/-- DisconnectBlock, when it is clean, takes away the outputs of the block. -/
theorem holds_disconnectBlock (env : Env) (io : BlockIo) (block : CBlock) (pindex : PIndex)
    (s : BlockCtx Flat) :
    Holds (disconnectBlock env io block pindex) s
      (fun fClean s' => fClean = true → Sheds env.Hash s.view block.vtx s'.view)
      (fun _ => True) := by
  refine holds_bind (holds_zoom (holds_act _ ?_))
  refine holds_check (fun _ => trivial) fun _ => ?_
  refine holds_bind (holds_act _ (holds_check (fun _ => trivial) fun _ => ?_))
  refine holds_bind (holds_act _ ?_)
  split
  · exact holds_fail _ trivial
  · exact holds_fail _ trivial
  · rename_i pprev blockUndo _ _
    refine holds_bind (holds_zoom ((holds_disconnectTxs env _ block.vtx blockUndo _).mono
      (fun fClean f' h => ?_) fun _ he => he))
    exact holds_bind (holds_zoom (holds_act _ (holds_pure fClean h)))

end Disconnecting

section Connecting

variable {Hash : List Byte → Uint256} {f f' : Flat} {o : COutPoint} {nHeight : ℕ}

theorem keeps_spendAll {os : List COutPoint} {undos : List CTxInUndo} (h : SpendAll f os undos f')
    (ho : Available f o) (hnot : o ∉ os) : Available f' o := by
  induction h with
  | nil => exact ho
  | cons h _ ih =>
    rw [List.mem_cons, not_or] at hnot
    refine ih ?_ hnot.2
    unfold Available
    rw [h.unspent_ne hnot.1]
    exact ho

theorem keeps_applies {tx : CTransaction} {txid : Uint256} {undo : CTxUndo}
    (h : Applies f tx nHeight txid undo f') (hne : o.hash ≠ txid) (ho : Available f o) :
    Available f' o ∨ o ∈ spentBy tx := by
  obtain ⟨f₁, hspend, rfl⟩ := h
  by_cases hmem : o ∈ spentBy tx
  · exact Or.inr hmem
  · exact Or.inl ((available_put_ne f₁ _ hne).mpr (keeps_spendAll hspend ho hmem))

theorem keeps_appliesAll {txs : List CTransaction} {undos : List CTxUndo}
    (h : AppliesAll Hash nHeight f txs undos f') (hne : o.hash ∉ txs.map (CTransaction.getHash Hash))
    (ho : Available f o) : Available f' o ∨ ∃ t ∈ txs, o ∈ spentBy t := by
  induction h with
  | nil => exact Or.inl ho
  | @cons f f₁ f' tx undo rest undos h _ ih =>
    rw [List.map_cons, List.mem_cons, not_or] at hne
    rcases keeps_applies h hne.1 ho with ho | hspent
    · rcases ih hne.2 ho with ho | ⟨t, ht, hspent⟩
      · exact Or.inl ho
      · exact Or.inr ⟨t, List.mem_cons_of_mem _ ht, hspent⟩
    · exact Or.inr ⟨tx, List.mem_cons_self, hspent⟩

theorem available_applies {tx : CTransaction} {undo : CTxUndo} (htx : TxOk tx)
    (h : Applies f tx nHeight (tx.getHash Hash) undo f') (ho : OutputOf Hash tx o) :
    Available f' o := by
  obtain ⟨f₁, -, rfl⟩ := h
  obtain ⟨hhash, hlt⟩ := ho
  have hget : tx.vout[o.n.toNat]? = some tx.vout[o.n.toNat] := List.getElem?_eq_getElem hlt
  rw [← hhash, available_put_self]
  refine ⟨tx.vout[o.n.toNat], (CCoins.output_eq_some_iff _ _ _).mpr ⟨hget, ?_⟩⟩
  exact output_ofTx htx nHeight _ (List.getElem_mem hlt)

/-- What transactions have done that were connected one after the other: an output that
was there has been spent by one of them or is left, and so has an output of one of
them been spent by a later one or is left. -/
structure Grows (Hash : List Byte → Uint256) (f : Flat) (C : List CTransaction) (f' : Flat) :
    Prop where
  kept : ∀ o, Available f o → Available f' o ∨ ∃ c ∈ C, o ∈ spentBy c
  made : ∀ pre c post, C = pre ++ c :: post → ∀ o, OutputOf Hash c o →
    Available f' o ∨ ∃ t ∈ post, o ∈ spentBy t

theorem Grows.nil (f : Flat) : Grows Hash f [] f where
  kept _ ho := Or.inl ho
  made pre c post h := by simp at h

/-- Only what can be spent counts. -/
theorem Grows.congr {f'' : Flat} {C : List CTransaction} (h : Grows Hash f C f')
    (hsame : ∀ o, unspent f'' o = unspent f' o) : Grows Hash f C f'' := by
  have havail : ∀ o, Available f'' o ↔ Available f' o := by
    intro o
    unfold Available
    rw [hsame]
  refine ⟨fun o ho => ?_, fun pre c post hsplit o ho => ?_⟩
  · rw [havail]
    exact h.kept o ho
  · rw [havail]
    exact h.made pre c post hsplit o ho

theorem Grows.append {f₁ f₂ : Flat} {C E : List CTransaction} (h : Grows Hash f C f₁)
    (h' : Grows Hash f₁ E f₂) : Grows Hash f (C ++ E) f₂ where
  kept o ho := by
    rcases h.kept o ho with ho | ⟨c, hc, hspent⟩
    · rcases h'.kept o ho with ho | ⟨c, hc, hspent⟩
      · exact Or.inl ho
      · exact Or.inr ⟨c, List.mem_append_right C hc, hspent⟩
    · exact Or.inr ⟨c, List.mem_append_left E hc, hspent⟩
  made pre c post hsplit o ho := by
    rcases List.append_eq_append_iff.mp hsplit with ⟨as, rfl, hE⟩ | ⟨bs, hC, hpost⟩
    · exact h'.made as c post hE o ho
    · cases bs with
      | nil =>
        rw [List.append_nil] at hC
        exact h'.made [] c post hpost.symm o ho
      | cons b bs =>
        rw [List.cons_append, List.cons.injEq] at hpost
        obtain ⟨rfl, rfl⟩ := hpost
        rcases h.made pre c bs hC o ho with ho | ⟨t, ht, hspent⟩
        · rcases h'.kept o ho with ho | ⟨t, ht, hspent⟩
          · exact Or.inl ho
          · exact Or.inr ⟨t, List.mem_append_right bs ht, hspent⟩
        · exact Or.inr ⟨t, List.mem_append_left E ht, hspent⟩

theorem made_appliesAll {txs : List CTransaction} {undos : List CTxUndo}
    (h : AppliesAll Hash nHeight f txs undos f') (hok : ∀ tx ∈ txs, TxOk tx)
    (hids : (txs.map (CTransaction.getHash Hash)).Nodup) {pre post : List CTransaction}
    {c : CTransaction} (hsplit : txs = pre ++ c :: post) (ho : OutputOf Hash c o) :
    Available f' o ∨ ∃ t ∈ post, o ∈ spentBy t := by
  induction h generalizing pre with
  | nil => simp at hsplit
  | @cons f f₁ f' tx undo rest undos h hrest ih =>
    rw [List.map_cons, List.nodup_cons] at hids
    cases pre with
    | nil =>
      obtain ⟨rfl, rfl⟩ := List.cons.inj hsplit
      have havail := available_applies (hok tx List.mem_cons_self) h ho
      refine keeps_appliesAll hrest ?_ havail
      rw [ho.1]
      exact hids.1
    | cons p pre =>
      obtain ⟨-, hsplit⟩ := List.cons.inj hsplit
      exact ih (fun t ht => hok t (List.mem_cons_of_mem _ ht)) hids.2 hsplit

/-- A connected block. -/
theorem Connected.grows {env : Env} {block : CBlock} {coinbase : CTransaction}
    {rest : List CTransaction} {undos : List CTxUndo} (hok : BlockOk env block coinbase rest)
    (h : Connected env nHeight f coinbase rest undos f') : Grows env.Hash f block.vtx f' := by
  have hids := hok.txids
  have htxs := hok.txs
  rw [hok.vtx_eq] at hids htxs ⊢
  refine ⟨fun o ho => ?_, fun pre c post hsplit o ho => ?_⟩
  · refine keeps_appliesAll h.applied ?_ ho
    intro hmem
    obtain ⟨tx, htx, hhash⟩ := List.mem_map.mp hmem
    obtain ⟨c, out, hc, hout⟩ := available_iff.mp ho
    have hpruned := h.vacant tx htx c (hhash ▸ hc)
    rw [CCoins.not_isPruned_of_output hout] at hpruned
    cases hpruned
  · exact made_appliesAll h.applied htxs hids hsplit ho

theorem connectView_some (env : Env) (block : CBlock) (pindex : PIndex) (fJustCheck : Bool)
    (hne : block.header.fields.getHash env.Hash ≠ env.genesisHash) (f : Flat) :
    Holds (connectView env block pindex fJustCheck : Prog Flat Failure _) f
      (fun undo _ => undo ≠ none) (fun _ => True) := by
  refine holds_bind (holds_lift (fun _ _ => ?_) fun _ _ => trivial)
  refine holds_bind (holds_act _ (holds_check (fun _ => trivial) fun _ => ?_))
  rw [if_neg hne]
  exact holds_bind ((holds_any _ _).mono (fun undo f' _ => holds_pure _ (by simp)) fun _ he => he)

theorem connectBlock_some (env : Env) (io : BlockIo) (block : CBlock) (pindex : PIndex)
    (hne : block.header.fields.getHash env.Hash ≠ env.genesisHash) (s : BlockCtx Flat) :
    Holds (connectBlock env io block pindex false) s (fun undo _ => undo ≠ none)
      (fun _ => True) := by
  refine holds_bind (holds_zoom ((connectView_some env block pindex false hne s.view).mono
    (fun undo f' hsome => ?_) fun _ he => he))
  cases undo with
  | none => exact absurd rfl hsome
  | some undo =>
    dsimp only
    rw [if_neg (by simp)]
    refine holds_bind ((holds_any _ _).mono (fun _ _ _ => ?_) fun _ he => he)
    refine holds_bind ((holds_any _ _).mono (fun _ _ _ => ?_) fun _ he => he)
    exact holds_bind (holds_zoom (holds_act _ (holds_pure _ (by simp))))

/-- ConnectBlock on a block other than the genesis block. -/
theorem connectBlock_grows {env : Env} {io : BlockIo} {block : CBlock} {pindex : PIndex}
    (hne : block.header.fields.getHash env.Hash ≠ env.genesisHash) {s s' : BlockCtx Flat}
    {undo : Option CBlockUndo}
    (hrun : (connectBlock env io block pindex false).run s = (.ok undo, s')) :
    Grows env.Hash s.view block.vtx s'.view := by
  have hsome := (connectBlock_some env io block pindex hne s).of_ok hrun
  have hsafe : False → NonnegOutputs s.view ∧ supply s.view ≤ MAX_MONEY := False.elim
  obtain ⟨-, f', hpass, -, hview⟩ :=
    (holds_connectBlock env io block pindex false s hsafe).of_ok hrun
  rw [(hview rfl).1]
  cases hpass with
  | genesis => exact absurd rfl hsome
  | connected hok h =>
    have hgrows := Connected.grows hok h
    exact ⟨hgrows.kept, hgrows.made⟩

end Connecting

end UmbrellaLtc.BranchCoins
