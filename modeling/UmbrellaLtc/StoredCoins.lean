import UmbrellaLtc.CoinRecord
import UmbrellaLtc.MoneySupply
import UmbrellaLtc.Disconnect

/-!
What ConnectBlock makes can be stored. In every view that blocks are connected to, and
disconnected from, the unspent outputs are amounts of money under scripts no longer than a block,
and the heights are above zero, so that the undo data of the next block comes back from the file
as it was, but for negative versions.
-/

namespace UmbrellaLtc.StoredCoins

open Codec Transaction Header Coins CoinsView CheckBlock ConnectBlock Guards ConnectSpec Spending Prog
  MoneySupply FlatView VarInt SerializedSize Script ScriptCompressor CoinRecord

section Entries

/-- An entry of the view that can be stored. -/
structure GoodEntry (c : CCoins) : Prop where
  height : c.isPruned = false → 1 ≤ c.nHeight ∧ c.nHeight < 2 ^ 31
  outs : ∀ n out, c.output n = some out → GoodOut out

theorem goodEntry_empty : GoodEntry CCoins.empty where
  height h := by cases h
  outs n out h := by cases h

theorem spend_undo {c c' : CCoins} {n : ℕ} {undo : CTxInUndo} (h : c.spend n = some (undo, c')) :
    undo.nHeight = c.nHeight ∨ undo.nHeight = 0 ∧ undo.nVersion = 0 := by
  unfold CCoins.spend at h
  cases hget : c.vout[n]? with
  | none => simp [hget] at h
  | some out =>
    rw [hget] at h
    dsimp only at h
    split_ifs at h with hnull hlen
    · obtain ⟨rfl, rfl⟩ := Prod.mk.inj (Option.some.inj h)
      exact Or.inl rfl
    · obtain ⟨rfl, rfl⟩ := Prod.mk.inj (Option.some.inj h)
      exact Or.inr ⟨rfl, rfl⟩

theorem GoodEntry.spend {c c' : CCoins} {n : ℕ} {undo : CTxInUndo} (hc : GoodEntry c)
    (h : c.spend n = some (undo, c')) : GoodEntry c' ∧ GoodUndo undo := by
  have hspec := CCoins.spend_spec h
  have hheight := hc.height (CCoins.not_isPruned_of_output hspec.output_self)
  refine ⟨⟨fun _ => ?_, fun m out hout => ?_⟩, ⟨hc.outs n _ hspec.output_self, ?_, fun hzero => ?_⟩⟩
  · rw [hspec.nHeight]
    exact hheight
  · by_cases hm : m = n
    · rw [hm, hspec.output_spent] at hout
      cases hout
    · rw [hspec.output_other m hm] at hout
      exact hc.outs m out hout
  · rcases spend_undo h with hsame | ⟨hzero, -⟩
    · omega
    · omega
  · rcases spend_undo h with hsame | ⟨-, hversion⟩
    · omega
    · exact hversion

/-- An output that is put back, when nothing is wrong. -/
theorem GoodEntry.restore {c : CCoins} {undo : CTxInUndo} {n : ℕ} (hc : GoodEntry c)
    (hundo : GoodUndo undo) (hclean : (restore c undo n).1 = true) :
    GoodEntry (restore c undo n).2 := by
  have hbase : (restoreBase c undo).nHeight ≥ 1 ∧ (restoreBase c undo).nHeight < 2 ^ 31 ∧
      ∀ m out, (restoreBase c undo).output m = some out → GoodOut out := by
    unfold Coins.restore at hclean
    rw [Bool.and_eq_true] at hclean
    unfold restoreBase
    split_ifs with hheight
    · exact ⟨Nat.one_le_iff_ne_zero.mpr hheight, hundo.height, fun m out h => by cases h⟩
    · rw [if_neg hheight, Bool.not_eq_true'] at hclean
      exact ⟨(hc.height hclean.1).1, (hc.height hclean.1).2, hc.outs⟩
  obtain ⟨hpos, hlt, houts⟩ := hbase
  have hlen : n < ((restoreBase c undo).resize (n + 1)).vout.length := by
    rw [CCoins.length_resize]
    omega
  have hheader : ((restoreBase c undo).resize (n + 1)).nHeight = (restoreBase c undo).nHeight := by
    unfold CCoins.resize
    split_ifs <;> rfl
  refine ⟨fun _ => ?_, fun m out hout => ?_⟩
  · show 1 ≤ ((restoreBase c undo).resize (n + 1)).nHeight ∧
      ((restoreBase c undo).resize (n + 1)).nHeight < 2 ^ 31
    rw [hheader]
    exact ⟨hpos, hlt⟩
  · unfold Coins.restore at hout
    rw [CCoins.output_set _ n m _ hlen] at hout
    split_ifs at hout with hm
    · obtain rfl := Option.some.inj hout
      exact hundo.txout
    · rw [CCoins.output_resize] at hout
      exact houts m out hout

end Entries

/-- A view whose entries can all be stored. -/
def Storable (f : Flat) : Prop := ∀ txid c, f.coins txid = some c → GoodEntry c

theorem Storable.put {f : Flat} (h : Storable f) {txid : Uint256} {c : CCoins} (hc : GoodEntry c) :
    Storable (put f txid c) := by
  intro t d hd
  by_cases ht : t = txid
  · rw [ht, put_coins_self] at hd
    obtain rfl := Option.some.inj hd
    exact hc
  · rw [put_coins_ne f c ht] at hd
    exact h t d hd

section Connecting

variable {f f' : Flat}

theorem Storable.spendAll (h : Storable f) {os : List COutPoint} {undos : List CTxInUndo}
    (hspend : SpendAll f os undos f') :
    Storable f' ∧ undos.length = os.length ∧ ∀ undo ∈ undos, GoodUndo undo := by
  induction hspend with
  | nil => exact ⟨h, rfl, fun undo hmem => by cases hmem⟩
  | @cons f f₁ f' o undo rest undos hone hrest ih =>
    obtain ⟨c, c', hc, hspend, rfl⟩ := hone
    obtain ⟨hgood, hundo⟩ := (h _ c hc).spend hspend
    obtain ⟨hend, hlen, hundos⟩ := ih (h.put hgood)
    refine ⟨hend, by rw [List.length_cons, List.length_cons, hlen], fun u hu => ?_⟩
    rcases List.mem_cons.mp hu with rfl | hu
    · exact hundo
    · exact hundos u hu

/-- A transaction whose size has been checked. -/
structure Sized (tx : CTransaction) : Prop where
  inputs : tx.vin.length ≤ MAX_SIZE
  scripts : ∀ txout ∈ tx.vout, txout.scriptPubKey.length < 2 ^ 32 - nSpecialScripts

theorem le_sum_of_mem {l : List ℕ} {n : ℕ} (h : n ∈ l) : n ≤ l.sum := by
  obtain ⟨pre, post, rfl⟩ := List.append_of_mem h
  rw [List.sum_append, List.sum_cons]
  omega

theorem sized_of_checkTransaction {tx : CTransaction} (h : checkTransaction tx = .ok ()) :
    Sized tx := by
  unfold checkTransaction at h
  simp only [↓require_ok_iff, seq_ok_iff] at h
  obtain ⟨-, -, hsize, -⟩ := h
  have htotal : tx.getSerializeSize = 4 + (compactSize.size tx.vin.length +
      (tx.vin.map CTxIn.codec.size).sum + (compactSize.size tx.vout.length +
        (tx.vout.map CTxOut.codec.size).sum + 4)) := rfl
  unfold MAX_BLOCK_SIZE at hsize
  refine ⟨?_, fun txout hmem => ?_⟩
  · have hvin := List.length_le_sum_of_one_le (tx.vin.map CTxIn.codec.size) (by
      intro n hn
      obtain ⟨txin, -, rfl⟩ := List.mem_map.mp hn
      have hone : CTxIn.codec.size txin = 36 + (script.size txin.scriptSig + 4) := rfl
      omega)
    rw [List.length_map] at hvin
    unfold MAX_SIZE
    omega
  · have hout := le_sum_of_mem (List.mem_map_of_mem (f := CTxOut.codec.size) hmem)
    have hone : CTxOut.codec.size txout = 8 + (compactSize.size txout.scriptPubKey.length +
        (txout.scriptPubKey.map uchar.size).sum) := rfl
    have hscript := List.length_le_sum_of_one_le (txout.scriptPubKey.map uchar.size) (by
      intro n hn
      obtain ⟨b, -, rfl⟩ := List.mem_map.mp hn
      exact le_rfl)
    rw [List.length_map] at hscript
    unfold nSpecialScripts
    omega

theorem sized_of_checkBlock {env : Env} {block : CBlock} {fCheckPOW fCheckMerkleRoot : Bool}
    (h : checkBlock env block fCheckPOW fCheckMerkleRoot = .ok ()) :
    block.vtx.length ≤ MAX_SIZE ∧ ∀ tx ∈ block.vtx, Sized tx := by
  unfold checkBlock at h
  simp only [↓require_ok_iff] at h
  obtain ⟨⟨-, hlen⟩, h⟩ := h
  cases hsize : block.getSerializeSize with
  | none =>
    rw [hsize] at h
    cases h
  | some nSize =>
    rw [hsize] at h
    simp only [↓require_ok_iff, seq_ok_iff] at h
    obtain ⟨-, -, _, -, -, -, -, -, _, htxs, -⟩ := h
    refine ⟨hlen.trans (by decide), fun tx htx => ?_⟩
    exact sized_of_checkTransaction (forM_ok checkTransaction _ htxs tx htx)

theorem goodEntry_ofTx {tx : CTransaction} (hok : TxOk tx) (hsize : Sized tx) {nHeight : ℕ}
    (hpos : 1 ≤ nHeight) (hlt : nHeight < 2 ^ 31) : GoodEntry (CCoins.ofTx tx nHeight) where
  height _ := ⟨hpos, hlt⟩
  outs n out hout := by
    have hmem := List.mem_of_getElem? ((CCoins.output_eq_some_iff _ n out).mp hout).1
    exact ⟨hok.range out hmem, hsize.scripts out hmem⟩

/-- The undo data of transactions that are connected one after the other. -/
theorem Storable.appliesAll (h : Storable f) {Hash : List Byte → Uint256} {nHeight : ℕ}
    (hpos : 1 ≤ nHeight) (hlt : nHeight < 2 ^ 31) {txs : List CTransaction} {undos : List CTxUndo}
    (happ : AppliesAll Hash nHeight f txs undos f') (htxs : ∀ tx ∈ txs, TxOk tx ∧ Sized tx) :
    Storable f' ∧ undos.length = txs.length ∧ ∀ txundo ∈ undos,
      txundo.vprevout.length ≤ MAX_SIZE ∧ ∀ prevout ∈ txundo.vprevout, GoodUndo prevout := by
  induction happ with
  | nil => exact ⟨h, rfl, fun undo hmem => by cases hmem⟩
  | @cons f f₁ f' tx undo rest undos hone hrest ih =>
    obtain ⟨f₂, hspend, rfl⟩ := hone
    obtain ⟨hok, hsize⟩ := htxs tx List.mem_cons_self
    obtain ⟨hspent, hlenSpent, hgood⟩ := h.spendAll hspend
    obtain ⟨hend, hlen, hundos⟩ := ih (hspent.put (goodEntry_ofTx hok hsize hpos hlt))
      fun t ht => htxs t (List.mem_cons_of_mem tx ht)
    refine ⟨hend, by rw [List.length_cons, List.length_cons, hlen], fun txundo hmem => ?_⟩
    rcases List.mem_cons.mp hmem with rfl | hmem
    · refine ⟨?_, hgood⟩
      rw [hlenSpent, spentBy]
      split_ifs
      · exact Nat.zero_le _
      · rw [List.length_map]
        exact hsize.inputs
    · exact hundos txundo hmem

/-- The block has been checked, and undo data is made for no genesis block. -/
theorem connectBlock_checked (env : Env) (io : BlockIo) (block : CBlock) (pindex : PIndex)
    (s : BlockCtx Flat) :
    Holds (connectBlock env io block pindex false) s
      (fun undo _ => checkBlock env block true true = .ok () ∧
        (undo ≠ none → block.header.fields.getHash env.Hash ≠ env.genesisHash))
      (fun _ => True) := by
  have hview : Holds (connectView env block pindex false : Prog Flat Failure _) s.view
      (fun undo _ => checkBlock env block true true = .ok () ∧
        (undo ≠ none → block.header.fields.getHash env.Hash ≠ env.genesisHash))
      (fun _ => True) := by
    refine holds_bind (holds_lift (fun _ hok => ?_) fun _ _ => trivial)
    refine holds_bind (holds_act _ (holds_check (fun _ => trivial) fun _ => ?_))
    split_ifs with hgenesis
    · exact holds_bind (holds_act _ (holds_pure none ⟨hok, fun h => absurd rfl h⟩))
    · refine holds_bind ((holds_any _ _).mono (fun undo f' _ => ?_) fun _ he => he)
      exact holds_pure _ ⟨hok, fun _ => hgenesis⟩
  refine holds_bind (holds_zoom (hview.mono (fun undo f' h => ?_) fun _ he => he))
  cases undo with
  | none => exact holds_pure _ h
  | some undo =>
    dsimp only
    rw [if_neg (by simp)]
    refine holds_bind ((holds_any _ _).mono (fun _ _ _ => ?_) fun _ he => he)
    refine holds_bind ((holds_any _ _).mono (fun _ _ _ => ?_) fun _ he => he)
    exact holds_bind (holds_zoom (holds_act _ (holds_pure _ h)))

/-- The height of an index entry is an int, and zero for the genesis block only. -/
structure Indexed (c : Connection) : Prop where
  pos : c.block.header.fields.getHash c.env.Hash ≠ c.env.genesisHash → 1 ≤ c.pindex.ptr.nHeight
  lt : c.pindex.ptr.nHeight < 2 ^ 31

theorem Storable.connect {c : Connection} (h : Storable f) (hindex : Indexed c)
    {undo : Option CBlockUndo} {s : BlockCtx Flat} (hrun : c.connect false f = (.ok undo, s)) :
    Storable s.view ∧ ∀ u ∈ undo, GoodBlockUndo u := by
  obtain ⟨hcheck, hother⟩ := (connectBlock_checked c.env c.io c.block c.pindex _).of_ok hrun
  obtain ⟨hcount, hsized⟩ := sized_of_checkBlock hcheck
  have hsafe : False → NonnegOutputs f ∧ supply f ≤ MAX_MONEY := False.elim
  obtain ⟨-, f', hpass, -, hview⟩ :=
    (holds_connectBlock c.env c.io c.block c.pindex false _ hsafe).of_ok hrun
  rw [(hview rfl).1]
  cases hpass with
  | genesis => exact ⟨h, fun u hu => by cases hu⟩
  | @connected coinbase rest undo f' hok hconn =>
    have hpos := hindex.pos (hother (by simp))
    have htxs : ∀ tx ∈ coinbase :: rest, TxOk tx ∧ Sized tx := by
      intro tx htx
      rw [← hok.vtx_eq] at htx
      exact ⟨hok.txs tx htx, hsized tx htx⟩
    obtain ⟨hend, hlen, hundos⟩ := h.appliesAll hpos hindex.lt hconn.applied htxs
    rw [hok.vtx_eq] at hcount
    refine ⟨hend, fun u hu => ?_⟩
    obtain rfl := Option.some.inj hu
    refine ⟨?_, fun txundo hmem => ?_, fun txundo hmem => ?_⟩
    · rw [List.length_cons] at hlen
      omega
    · exact (hundos txundo (List.mem_cons_of_mem _ hmem)).1
    · exact (hundos txundo (List.mem_cons_of_mem _ hmem)).2

end Connecting

section Disconnecting

variable {f f' : Flat}

theorem storable_restoreStep (fClean : Bool) (input : CTxIn × CTxInUndo) (h : Storable f)
    (hundo : GoodUndo input.2) :
    Holds (restoreStep fClean input : Prog Flat Failure Bool) f
      (fun fClean' f' => fClean' = true → fClean = true ∧ Storable f') (fun _ => True) := by
  refine holds_bind (holds_act _ ?_)
  refine holds_bind (holds_setCoins _ _ (holds_pure _ ?_))
  intro hclean
  rw [Bool.and_eq_true] at hclean
  refine ⟨hclean.1, h.put ?_⟩
  refine GoodEntry.restore ?_ hundo hclean.2
  cases hfetch : f.coins input.1.prevout.hash with
  | none =>
    show GoodEntry ((f.coins input.1.prevout.hash).getD CCoins.empty)
    rw [hfetch]
    exact goodEntry_empty
  | some c =>
    show GoodEntry ((f.coins input.1.prevout.hash).getD CCoins.empty)
    rw [hfetch]
    exact h _ c hfetch

theorem storable_restoreInputs (fClean : Bool) (tx : CTransaction) (txundo : CTxUndo)
    (h : fClean = true → Storable f) (hundo : ∀ prevout ∈ txundo.vprevout, GoodUndo prevout) :
    Holds (restoreInputs fClean tx txundo : Prog Flat Failure Bool) f
      (fun fClean' f' => fClean' = true → fClean = true ∧ Storable f') (fun _ => True) := by
  refine holds_check (fun _ => trivial) fun _ => ?_
  have hmem : ∀ e ∈ (tx.vin.zip txundo.vprevout).reverse, GoodUndo e.2 := fun e he =>
    hundo e.2 (List.of_mem_zip (List.mem_reverse.mp he)).2
  refine (holds_foldlM (fun rest c s => (∀ e ∈ rest, GoodUndo e.2) ∧
    (c = true → fClean = true ∧ Storable s)) ?_ _ fClean f
      ⟨hmem, fun hclean => ⟨hclean, h hclean⟩⟩).mono (fun c s h => h.2) fun _ he => he
  rintro input rest c s ⟨hall, hinv⟩
  cases c with
  | true =>
    refine (storable_restoreStep true input (hinv rfl).2 (hall input List.mem_cons_self)).mono
      (fun c' s' hstep => ?_) fun _ he => he
    exact ⟨fun e he => hall e (List.mem_cons_of_mem _ he),
      fun hclean => ⟨(hinv rfl).1, (hstep hclean).2⟩⟩
  | false =>
    -- a flag that has been cleared stays so
    refine holds_bind (holds_act _ (holds_bind (holds_setCoins _ _ (holds_pure _ ?_))))
    refine ⟨fun e he => hall e (List.mem_cons_of_mem _ he), fun hclean => ?_⟩
    rw [Bool.false_and] at hclean
    cases hclean

theorem storable_disconnectTx (env : Env) (nHeight : ℕ) (fClean : Bool)
    (entry : CTransaction × Option CTxUndo) (h : fClean = true → Storable f)
    (hundo : ∀ txundo ∈ entry.2, ∀ prevout ∈ txundo.vprevout, GoodUndo prevout) :
    Holds (disconnectTx env nHeight fClean entry : Prog Flat Failure Bool) f
      (fun fClean' f' => fClean' = true → Storable f') (fun _ => True) := by
  obtain ⟨tx, record⟩ := entry
  have hensure : Holds (ensureCoins (tx.getHash env.Hash) : Prog Flat Failure Bool) f
      (fun _ f' => fClean = true → Storable f') (fun _ => True) := by
    refine (reads_haveCoins _).bind fun known _ => ?_
    split_ifs
    · exact holds_pure true h
    · exact holds_bind (holds_setCoins _ _ (holds_pure false fun hc => (h hc).put goodEntry_empty))
  refine holds_bind (hensure.mono (fun known f₁ hf => ?_) fun _ he => he)
  refine (reads_getCoins _ trivial).bind fun c _ => ?_
  refine holds_bind (holds_setCoins _ _ ?_)
  cases record with
  | none =>
    refine holds_pure _ fun hclean => ?_
    rw [Bool.and_eq_true, Bool.and_eq_true] at hclean
    exact (hf hclean.1.1).put goodEntry_empty
  | some txundo =>
    refine (storable_restoreInputs _ tx txundo (fun hclean => ?_) (hundo txundo rfl)).mono
      (fun b' f' hstep hclean => (hstep hclean).2) fun _ he => he
    rw [Bool.and_eq_true, Bool.and_eq_true] at hclean
    exact (hf hclean.1.1).put goodEntry_empty

/-- A block that is disconnected cleanly, on undo data that could be stored. -/
theorem storable_disconnectBlock (env : Env) (io : BlockIo) (block : CBlock) (pindex : PIndex)
    (s : BlockCtx Flat) (h : Storable s.view) (hundo : ∀ undo ∈ s.undo, GoodBlockUndo undo) :
    Holds (disconnectBlock env io block pindex) s
      (fun fClean s' => fClean = true → Storable s'.view) (fun _ => True) := by
  refine holds_bind (holds_zoom (holds_act _ ?_))
  refine holds_check (fun _ => trivial) fun _ => ?_
  refine holds_bind (holds_act _ (holds_check (fun _ => trivial) fun _ => ?_))
  refine holds_bind (holds_act _ ?_)
  split
  · exact holds_fail _ trivial
  · exact holds_fail _ trivial
  · rename_i pprev blockUndo _ hread
    have hgood : GoodBlockUndo blockUndo := by
      split_ifs at hread
      exact hundo blockUndo hread
    have htxs : Holds (disconnectTxs env pindex.ptr.nHeight block.vtx blockUndo :
        Prog Flat Failure Bool) s.view (fun fClean f' => fClean = true → Storable f')
        (fun _ => True) := by
      refine holds_check (fun _ => trivial) fun _ => ?_
      have hmem : ∀ e ∈ (undoEntries block.vtx blockUndo.vtxundo).reverse, ∀ txundo ∈ e.2,
          ∀ prevout ∈ txundo.vprevout, GoodUndo prevout := by
        intro e he txundo htxundo
        have hrecord := (List.of_mem_zip (List.mem_reverse.mp he)).2
        rw [Option.mem_def.mp htxundo] at hrecord
        rcases List.mem_cons.mp hrecord with hnone | hsome
        · cases hnone
        · obtain ⟨old, hold, heq⟩ := List.mem_map.mp hsome
          obtain rfl := Option.some.inj heq
          exact hgood.undos old hold
      refine (holds_foldlM (fun rest c s => (∀ e ∈ rest, ∀ txundo ∈ e.2,
        ∀ prevout ∈ txundo.vprevout, GoodUndo prevout) ∧ (c = true → Storable s)) ?_ _ true _
          ⟨hmem, fun _ => h⟩).mono (fun c s h => h.2) fun _ he => he
      rintro e rest c s ⟨hall, hinv⟩
      refine (storable_disconnectTx env _ c e hinv (hall e List.mem_cons_self)).mono
        (fun c' s' hstep => ?_) fun _ he => he
      exact ⟨fun e he => hall e (List.mem_cons_of_mem _ he), hstep⟩
    refine holds_bind (holds_zoom (htxs.mono (fun fClean f' h => ?_) fun _ he => he))
    exact holds_bind (holds_zoom (holds_act _ (holds_pure fClean h)))

end Disconnecting

section Runs

/-- The views that come of no coins by blocks that are connected, and disconnected cleanly, with
the undo data that ConnectBlock has made on the way. What DisconnectBlock reads is what one of
these was written as. -/
inductive Reached (curve : Curve) : Flat → List CBlockUndo → Prop
  | start {f : Flat} (h : ∀ txid, f.coins txid = none) : Reached curve f []
  | connect {f : Flat} {made : List CBlockUndo} {β : Type} [LawfulBase β] {view : Cache β}
      {c : Connection} {undo : Option CBlockUndo} {s : BlockCtx (Cache β)}
      (h : Reached curve f made) (hview : view.flat = f) (hindex : Indexed c)
      (hrun : c.connect false view = (.ok undo, s)) :
      Reached curve s.view.flat (undo.toList ++ made)
  | disconnect {f : Flat} {made : List CBlockUndo} {β : Type} [LawfulBase β]
      {s s' : BlockCtx (Cache β)} {env : Env} {io : BlockIo} {block : CBlock} {pindex : PIndex}
      {written undo : CBlockUndo} {bytes rest : List Byte}
      (h : Reached curve f made) (hview : s.view.flat = f) (hmade : written ∈ made)
      (hwrite : writeBlockUndo curve written = some bytes)
      (hread : readBlockUndo curve (bytes ++ rest) = some (undo, rest)) (hundo : s.undo = some undo)
      (hrun : (disconnectBlock env io block pindex).run s = (.ok true, s')) :
      Reached curve s'.view.flat made

theorem Reached.storable {curve : Curve} (hcurve : Inverts curve) {f : Flat}
    {made : List CBlockUndo} (h : Reached curve f made) :
    Storable f ∧ ∀ undo ∈ made, GoodBlockUndo undo := by
  induction h with
  | start h =>
    refine ⟨fun txid c hc => ?_, fun undo hmem => by cases hmem⟩
    rw [h txid] at hc
    cases hc
  | @connect f made β _ view c undo s _ hview hindex hrun ih =>
    have hflat := connect_flat c false view
    rw [hview, hrun] at hflat
    obtain ⟨hend, hgood⟩ := ih.1.connect hindex hflat
    refine ⟨hend, fun u hu => ?_⟩
    rcases List.mem_append.mp hu with hu | hu
    · exact hgood u (Option.mem_toList.mp hu)
    · exact ih.2 u hu
  | @disconnect f made β _ s s' env io block pindex written undo bytes rest _ hview hmade hwrite hread
      hundo hrun ih =>
    have hflat := (disconnectBlock_flat env io block pindex s).1
    rw [hrun] at hflat
    have hgood : GoodBlockUndo undo := by
      obtain ⟨bytes', hwrite', -, hback⟩ := returns_blockUndo hcurve (ih.2 written hmade)
      obtain rfl := Option.some.inj (hwrite.symm.trans hwrite')
      rw [hback rest] at hread
      obtain ⟨rfl, -⟩ := Prod.mk.inj (Option.some.inj hread)
      exact (ih.2 written hmade).blockUndoRead
    refine ⟨?_, ih.2⟩
    refine (storable_disconnectBlock env io block pindex (flatCtx s) ?_ ?_).of_ok hflat rfl
    · rw [← hview] at ih
      exact ih.1
    · intro u hu
      obtain rfl := Option.some.inj (hundo.symm.trans hu)
      exact hgood

/-- Records of the coin database come back, and so does every record of the undo data that
ConnectBlock makes. -/
theorem coinRecord_roundTrip {curve : Curve} (hcurve : Inverts curve) :
    (∀ c : CCoins, c.isPruned = false → c.Trimmed → 0 ≤ c.nVersion.toInt → c.nHeight < 2 ^ 31 →
      c.vout.length < 2 ^ 20 →
      (∀ out ∈ c.vout, out = CTxOut.null ∨ 0 ≤ out.value ∧ out.value ≤ MAX_MONEY) →
      (∀ out ∈ c.vout, out.scriptPubKey.length < 2 ^ 32 - nSpecialScripts) →
      RoundTrips (writeCoins curve) (coinsSize curve) (readCoins curve) c) ∧
    ∀ f made, Reached curve f made → ∀ undo ∈ made,
      (∀ txundo ∈ undo.vtxundo,
        (∀ prevout ∈ txundo.vprevout, 0 ≤ prevout.nVersion.toInt →
          RoundTrips (writeTxInUndo curve) (txInUndoSize curve) (readTxInUndo curve) prevout) ∧
        ((∀ prevout ∈ txundo.vprevout, 0 ≤ prevout.nVersion.toInt) →
          RoundTrips (writeTxUndo curve) (txUndoSize curve) (readTxUndo curve) txundo)) ∧
      ((∀ txundo ∈ undo.vtxundo, ∀ prevout ∈ txundo.vprevout, 0 ≤ prevout.nVersion.toInt) →
        RoundTrips (writeBlockUndo curve) (blockUndoSize curve) (readBlockUndo curve) undo) := by
  refine ⟨fun c hunpruned htrim hversion hheight hlen houts hscripts => ?_,
    fun f made hreached undo hmem => ⟨fun txundo htxundo => ⟨fun prevout hprevout hversion => ?_,
      fun hversions => ?_⟩, fun hversions => ?_⟩⟩
  · refine roundTrips_coins hcurve ⟨hunpruned, htrim, hversion, hheight, fun out hout => ?_, hlen⟩
    exact (houts out hout).imp_right fun hrange => ⟨hrange, hscripts out hout⟩
  all_goals have hgood := (hreached.storable hcurve).2 undo hmem
  · have hback := returns_txInUndo hcurve (hgood.undos txundo htxundo prevout hprevout)
    rwa [undoRead_eq hversion] at hback
  · have hback := returns_txUndo hcurve (hgood.lengths txundo htxundo) (hgood.undos txundo htxundo)
    rwa [txUndoRead_eq hversions] at hback
  · have hback := returns_blockUndo hcurve hgood
    rwa [blockUndoRead_eq hversions] at hback

/-- A spent output before one that pays a public key. -/
def paidCoins : CCoins :=
  ⟨true, [CTxOut.null, ⟨5000000000, [65] ++ generator ++ [opcode OP_CHECKSIG]⟩], 1, 1⟩

open Disconnect (spendEnv spendBlock spendHeader)

def maturingTx : CTransaction :=
  ⟨1, [⟨⟨0, BitVec.allOnes 32⟩, [0x02, 0x96, 0x00], BitVec.allOnes 32⟩], [⟨1000000000, [0x51]⟩], 0⟩

def maturingHeader : HeaderFields :=
  ⟨904855554, premine.pindex.ptr.hash,
    0x6a2f47db06d617f1e0dfd272c09bbd2658c2fc1b8a25fad6b146b02b80fa7280, 1403794000, 0x1e6236f6,
    37909⟩

def maturingHash : Uint256 := 0x9adf987c6080c87a2ddc16b10aad08c0cef3447cf6307051fdbc28edba607644

def spendingHeader : HeaderFields :=
  { spendHeader with hashPrevBlock := maturingHash, nNonce := 21214 }

def spendingHash : Uint256 := 0x09e75b6a76539793707a8c229ecc40de335488f07d988cbc3f6d218a04811a422

/-- The double SHA-256 on the two headers and what is in the blocks, and scrypt on the headers. -/
def spendingEnv : Env :=
  { spendEnv with
    Hash := fun bs =>
      ([(CTransaction.codec.write maturingTx, maturingHeader.hashMerkleRoot),
        (HeaderFields.codec.write maturingHeader, maturingHash),
        (HeaderFields.codec.write spendingHeader, spendingHash)].lookup bs).getD (spendEnv.Hash bs)
    powHash := fun h =>
      if h.nNonce = 37909 then 0x5c45da991c6cfcf509cee4432de225be20baeba26b1579f6aa396b88b4cb
      else 0x360c2faad5e302d940b9aaa34736991a1feb5c71d7b968b494bd94283d3 }

/-- A block at height 150. The blocks at the heights below have no part in this. -/
def maturing : Connection :=
  { premine with
    env := spendingEnv
    block := ⟨.plain maturingHeader, [maturingTx]⟩
    pindex := ⟨⟨maturingHash, 150⟩, some premine.pindex.ptr, 1403794000⟩ }

/-- The block behind it spends the premine and an output of its own. -/
def spending : Connection :=
  { premine with
    env := spendingEnv
    block := ⟨.plain spendingHeader, spendBlock.vtx⟩
    pindex := ⟨⟨spendingHash, 151⟩, some maturing.pindex.ptr, 1403795000⟩ }

def maturingView : Cache CoinsDb := (maturing.connect false premineView).2.view

/-- What the block spends: the premine, and the first output of the transaction that spends it. -/
def spendingUndo : CBlockUndo :=
  ⟨[⟨[⟨⟨12000000000000, [0x51]⟩, true, 1, 1⟩]⟩, ⟨[⟨⟨7000000000000, [0x51]⟩, false, 0, 0⟩]⟩]⟩

theorem eq_ok_of_toOption {α : Type} {r : Except Failure α} {a : α} (h : r.toOption = some a) :
    r = .ok a := by
  cases r with
  | error e => cases h
  | ok b =>
    obtain rfl := Option.some.inj h
    rfl

theorem spending_connects : (premine.connect false genesisView).1 = .ok (some ⟨[]⟩) ∧
    (maturing.connect false premineView).1 = .ok (some ⟨[]⟩) ∧
    (spending.connect false maturingView).1 = .ok (some spendingUndo) := by
  refine ⟨eq_ok_of_toOption ?_, eq_ok_of_toOption ?_, eq_ok_of_toOption ?_⟩
  · decide
  · decide
  · decide

/-- Such an entry, and the undo data of a block that spends. -/
theorem coinRecord_roundTrip_spending :
    RoundTrips (writeCoins generatorCurve) (coinsSize generatorCurve) (readCoins generatorCurve)
      paidCoins ∧
    Reached generatorCurve (spending.connect false maturingView).2.view.flat
      [spendingUndo, ⟨[]⟩, ⟨[]⟩] ∧
    RoundTrips (writeBlockUndo generatorCurve) (blockUndoSize generatorCurve)
      (readBlockUndo generatorCurve) spendingUndo := by
  obtain ⟨hpremine, hmaturing, hspending⟩ := spending_connects
  have hpaid : Reached generatorCurve premineView.flat [⟨[]⟩] :=
    .connect (.start fun _ => rfl) rfl ⟨fun _ => le_rfl, by decide⟩ (Prod.ext hpremine rfl)
  have hmatured : Reached generatorCurve maturingView.flat [⟨[]⟩, ⟨[]⟩] :=
    .connect hpaid rfl ⟨fun _ => by decide, by decide⟩ (Prod.ext hmaturing rfl)
  have hreached : Reached generatorCurve (spending.connect false maturingView).2.view.flat
      [spendingUndo, ⟨[]⟩, ⟨[]⟩] :=
    .connect hmatured rfl ⟨fun _ => by decide, by decide⟩ (Prod.ext hspending rfl)
  have h := coinRecord_roundTrip generatorCurve_inverts
  refine ⟨h.1 paidCoins (by decide) ?_ (by decide) (by decide) (by decide) (by decide) (by decide),
    hreached, (h.2 _ _ hreached spendingUndo List.mem_cons_self).2 (by decide)⟩
  intro out hlast
  obtain rfl := Option.some.inj hlast
  decide

/-- An output under a script whose size does not fit is lost. -/
theorem overlong_coin_lost : ∃ c : CCoins, c.isPruned = false ∧ c.Trimmed ∧
    0 ≤ c.nVersion.toInt ∧ c.nHeight < 2 ^ 31 ∧ c.vout.length < 2 ^ 20 ∧
    (∀ out ∈ c.vout, 0 ≤ out.value ∧ out.value ≤ MAX_MONEY) ∧
    ¬RoundTrips (writeCoins generatorCurve) (coinsSize generatorCurve) (readCoins generatorCurve)
      c := by
  obtain ⟨script, hscript⟩ : ∃ script : CScript, script.length = 2 ^ 32 - nSpecialScripts :=
    ⟨List.replicate _ 0, List.length_replicate⟩
  refine ⟨⟨false, [⟨1, script⟩], 1, 1⟩, rfl, fun out hlast => ?_, ?_, ?_, ?_, fun out hmem => ?_, ?_⟩
  · obtain rfl := Option.some.inj hlast
    rfl
  · show 0 ≤ (1 : BitVec 32).toInt
    decide
  · show 1 < 2 ^ 31
    decide
  · show 1 < 2 ^ 20
    decide
  · obtain rfl := List.mem_singleton.mp hmem
    show 0 ≤ (1 : BitVec 64).toInt ∧ (1 : BitVec 64).toInt ≤ MAX_MONEY
    decide
  · rintro ⟨bytes, -, -, hread⟩
    have hshort := readCoins_scripts (hread []) ⟨1, script⟩ List.mem_cons_self
    dsimp only at hshort
    omega

end Runs

end UmbrellaLtc.StoredCoins
