import UmbrellaLtc.Reorganise

/-!
ConnectBestBlock, InvalidBlockFound and AddToBlockIndex over the chain state. Each
keeps `ChainInv` as far as SetBestChain does, and only AddToBlockIndex changes
the tree, by one new leaf.
-/

namespace UmbrellaLtc.IndexSteps

open Codec Transaction Header Coins CoinsView CheckBlock ConnectBlock BestChain ChainFrame
  ChainLinks Reorganise Prog

variable {M : Type} (node : Node M)

/-- A chain in order, over a tree that has not changed. -/
def InTree (s₀ s : ChainState M) : Prop := ChainInv s ∧ SameTree s₀ s

theorem InTree.frame {s₀ s s' : ChainState M} (hs : InTree s₀ s) (h : Frame s s') : InTree s₀ s' :=
  ⟨hs.1.frame h, IsTrans.trans _ _ _ hs.2 (Frame.sameTree h)⟩

section Choosing

variable {s₀ : ChainState M} {P : Prop}

theorem catchRuntimeError_run (x : Prog (ChainState M) Fault Unit) (s : ChainState M) :
    ((catchRuntimeError x).run s).2 = (x.run s).2 ∧
      ∀ a, ((catchRuntimeError x).run s).1 = .ok a ↔ (x.run s).1 = .ok a := by
  unfold catchRuntimeError Prog.run
  rcases hx : x s with ⟨e | a, s'⟩
  · rcases e with e | _
    · cases e with
      | runtimeError what => simp [hx]
      | _ => simp [hx]
    · simp [hx]
  · simp [hx]

theorem keeps_catch {I : ChainState M → Prop} {x : Prog (ChainState M) Fault Unit}
    (hx : Keeps P I x) : Keeps P I (catchRuntimeError x) := by
  intro s hs hend
  obtain ⟨hstate, hok⟩ := catchRuntimeError_run x s
  rw [hstate]
  apply hx s hs
  rcases hend with hP | ⟨a, ha⟩
  · exact Or.inl hP
  · exact Or.inr ⟨a, (hok a).mp ha⟩

theorem keepsTree_setBestChain (nested : Prog (ChainState M) Fault Unit) (h : Uint256) :
    Keeps (∀ t, LateOk (node.world t)) (InTree s₀) (setBestChain node nested h) := by
  intro s hs hend
  rcases hrun : (setBestChain node nested h).run s with ⟨e | a, s'⟩
  · rw [hrun] at hend
    rcases hend with hlate | ⟨a, ha⟩
    · exact hs.frame (setBestChain_frame node nested hlate hs.1 hrun)
    · cases ha
  · have hswitched := setBestChain_switched node nested hs.1 hrun
    exact ⟨hswitched.inv, IsTrans.trans _ _ _ hs.2 hswitched.tree⟩

/-- The rest of a round that has found a failed ancestor. -/
def failRound (fuel : ℕ) (pindexNewBest : Uint256) (passed : List Uint256) :
    Prog (ChainState M) Fault Unit := do
  plain (passed.forM (markFailedChild node))
  plain (invalidChainFound node pindexNewBest)
  connectBestBlock node fuel

/-- The rest of a round that has found what to attach. -/
def attachRound (fuel : ℕ) (vAttach : List Uint256) : Prog (ChainState M) Fault Unit :=
  vAttach.forM fun h => catchRuntimeError (setBestChain node (connectBestBlock node fuel) h)

/-- There is nothing to do for a candidate. -/
def UpToDate (s : ChainState M) (pindexNewBest : Uint256) : Prop :=
  s.pindexBest = some pindexNewBest ∨
    bestWork s = some ((s.entry pindexNewBest).elim 0 CBlockIndex.nChainWork)

/-- The ways in which a round of ConnectBestBlock goes on. -/
theorem connectBestBlock_cases {fuel : ℕ} {s s' : ChainState M} {r : Except Fault Unit}
    (hrun : (connectBestBlock node (fuel + 1)).run s = (r, s')) :
    (s.lastValid = none ∧ r = .ok () ∧ s' = s) ∨
    ∃ b, s.lastValid = some b ∧ ((UpToDate s b ∧ r = .ok () ∧ s' = s) ∨ ¬ UpToDate s b ∧
      ((∃ e, checkAncestry s (bestWork s) (walkFuel s (some b)) b [] [] = .error e ∧
        r = .error e ∧ s' = s) ∨
      (∃ passed, checkAncestry s (bestWork s) (walkFuel s (some b)) b [] [] =
        .ok (.failed passed) ∧ (failRound node fuel b passed).run s = (r, s')) ∨
      (∃ vAttach, checkAncestry s (bestWork s) (walkFuel s (some b)) b [] [] =
        .ok (.attach vAttach) ∧ (attachRound node fuel vAttach).run s = (r, s')))) := by
  unfold connectBestBlock Prog.run at hrun
  dsimp only at hrun
  cases hlast : s.lastValid with
  | none =>
    rw [hlast] at hrun
    cases hrun
    exact Or.inl ⟨rfl, rfl, rfl⟩
  | some b =>
    rw [hlast] at hrun
    refine Or.inr ⟨b, rfl, ?_⟩
    dsimp only at hrun
    split_ifs at hrun with hdone
    · cases hrun
      exact Or.inl ⟨hdone, rfl, rfl⟩
    refine Or.inr ⟨hdone, ?_⟩
    cases hcheck : checkAncestry s (bestWork s) (walkFuel s (some b)) b [] [] with
    | error e =>
      rw [hcheck] at hrun
      cases hrun
      exact Or.inl ⟨e, rfl, rfl, rfl⟩
    | ok ancestry =>
      rw [hcheck] at hrun
      cases ancestry with
      | failed passed => exact Or.inr (Or.inl ⟨passed, rfl, hrun⟩)
      | attach vAttach => exact Or.inr (Or.inr ⟨vAttach, rfl, hrun⟩)

/-- What SetBestChain keeps, ConnectBestBlock keeps, by induction on the rounds. -/
theorem keeps_connectBestBlock_of {I : ChainState M → Prop}
    (hframe : ∀ s s', Frame s s' → I s → I s')
    (hset : ∀ nested h, Keeps P I (setBestChain node nested h)) (fuel : ℕ) :
    Keeps P I (connectBestBlock node fuel) := by
  induction fuel with
  | zero =>
    intro s hs _
    exact hs
  | succ fuel ih =>
    intro s hs hend
    rcases hrun : (connectBestBlock node (fuel + 1)).run s with ⟨r, s'⟩
    rw [hrun] at hend
    rcases connectBestBlock_cases node hrun with ⟨-, -, rfl⟩ | ⟨b, -, ⟨-, -, rfl⟩ | ⟨-,
      ⟨e, -, -, rfl⟩ | ⟨passed, -, hround⟩ | ⟨vAttach, -, hround⟩⟩⟩
    · exact hs
    · exact hs
    · exact hs
    · have hkeeps : Keeps P I (failRound node fuel b passed) := by
        refine keeps_bind (keeps_of_within hframe (within_plain ?_)) fun _ => ?_
        · exact within_forM (within_markFailedChild node) passed
        refine keeps_bind (keeps_of_within hframe (within_plain ?_)) fun _ => ih
        exact within_invalidChainFound node b
      have hafter := hkeeps s hs
      rw [hround] at hafter
      exact hafter hend
    · have hkeeps : Keeps P I (attachRound node fuel vAttach) :=
        keeps_forM (fun h => keeps_catch (hset _ h)) vAttach
      have hafter := hkeeps s hs
      rw [hround] at hafter
      exact hafter hend

/-- ConnectBestBlock keeps the chain in order. -/
theorem keeps_connectBestBlock (fuel : ℕ) :
    Keeps (∀ t, LateOk (node.world t)) (InTree s₀) (connectBestBlock node fuel) :=
  keeps_connectBestBlock_of node (fun _ _ h hs => hs.frame h) (keepsTree_setBestChain node) fuel

theorem ignoreResult_state (x : Prog (ChainState M) Fault Unit) (s : ChainState M) :
    ((ignoreResult x).run s).2 = (x.run s).2 := by
  unfold ignoreResult run
  dsimp only
  rcases x s with ⟨e | a, s'⟩
  · cases e with
    | failed e => rfl
    | noFuel => rfl
  · rfl

/-- InvalidBlockFound, which does not look at how ConnectBestBlock has ended. -/
theorem keeps_invalidBlockFound_of {I : ChainState M → Prop} (hP : P)
    (hframe : ∀ s s', Frame s s' → I s → I s')
    (hset : ∀ nested h, Keeps P I (setBestChain node nested h)) (fuel : ℕ) (h : Uint256) :
    Keeps True I (invalidBlockFound node (connectBestBlock node fuel) h) := by
  refine keeps_bind (keeps_of_within hframe (within_plain (within_markFailed node h))) fun _ => ?_
  refine keeps_bind (keeps_of_within hframe ?_) fun e => ?_
  · exact within_plain (within_find h)
  split_ifs
  · intro s hs _
    have hafter := keeps_connectBestBlock_of node hframe hset fuel s hs (Or.inl hP)
    rw [ignoreResult_state]
    exact hafter
  · exact keeps_pure ()

theorem keeps_invalidBlockFound (hlate : ∀ t, LateOk (node.world t)) (fuel : ℕ) (h : Uint256) :
    Keeps True (InTree s₀) (invalidBlockFound node (connectBestBlock node fuel) h) :=
  keeps_invalidBlockFound_of node hlate (fun _ _ h hs => hs.frame h)
    (keepsTree_setBestChain node) fuel h

end Choosing

/-- What AcceptBlock and InitBlockIndex see to before AddToBlockIndex: the previous block
is in the index, or the block is the genesis block. -/
def Accepted (s : ChainState M) (block : CBlock) : Prop :=
  (s.entry block.header.fields.hashPrevBlock).isSome ∨
    block.header.fields.hashPrevBlock = 0 ∧ block.header.fields.getHash node.Hash ≠ 0

section Adding

variable {node} {s : ChainState M} {block : CBlock}

theorem Accepted.ne (h : Accepted node s block)
    (hnew : s.entry (block.header.fields.getHash node.Hash) = none) :
    block.header.fields.hashPrevBlock ≠ block.header.fields.getHash node.Hash := by
  intro heq
  rcases h with hsome | ⟨hzero, hne⟩
  · rw [heq, hnew] at hsome
    cases hsome
  · exact hne (heq.symm.trans hzero)

/-- The entry that a new block gets. -/
def leaf (s : ChainState M) (block : CBlock) : CBlockIndex := newEntry s.mapBlockIndex block

theorem entry_insertEntry {hash : Uint256} (hne : block.header.fields.hashPrevBlock ≠ hash)
    (t : Uint256) :
    ((insertEntry hash block s).insertValid hash).entry t =
      if t = hash then some (leaf s block) else s.entry t := by
  have hvalid : ((insertEntry hash block s).insertValid hash).entry t =
      (insertEntry hash block s).entry t := by
    unfold ChainState.insertValid
    split_ifs
    · rfl
    · rfl
  have hleaf : newEntry (s.mapBlockIndex.insert hash (.ofHeader block.header.fields)) block =
      leaf s block := by
    unfold leaf newEntry
    rw [AList.lookup_insert_ne hne]
  rw [hvalid]
  show ((s.mapBlockIndex.insert hash _).insert hash (newEntry _ block)).lookup t = _
  rw [hleaf]
  split_ifs with ht
  · rw [ht]
    exact AList.lookup_insert _
  · rw [AList.lookup_insert_ne ht, AList.lookup_insert_ne ht]
    rfl

/-- A state with one entry more. -/
structure Grown (s s' : ChainState M) (hash : Uint256) (e : CBlockIndex) : Prop where
  entry : ∀ t, s'.entry t = if t = hash then some e else s.entry t
  rest : s' = { s with
    mapBlockIndex := s'.mapBlockIndex, setBlockIndexValid := s'.setBlockIndexValid }

theorem grown_insertEntry {hash : Uint256} (hne : block.header.fields.hashPrevBlock ≠ hash) :
    Grown s ((insertEntry hash block s).insertValid hash) hash (leaf s block) where
  entry := entry_insertEntry hne
  rest := by
    unfold ChainState.insertValid
    split_ifs
    · rfl
    · rfl

variable {s' : ChainState M} {hash : Uint256} {e : CBlockIndex}

theorem Grown.entry_ne (h : Grown s s' hash e) {t : Uint256} (ht : t ≠ hash) :
    s'.entry t = s.entry t := by
  rw [h.entry, if_neg ht]

theorem Grown.entry_self (h : Grown s s' hash e) : s'.entry hash = some e := by
  rw [h.entry, if_pos rfl]

theorem Grown.height_ne (h : Grown s s' hash e) {t : Uint256} (ht : t ≠ hash) :
    s'.height t = s.height t := by
  rw [ChainState.height, h.entry_ne ht]
  rfl

theorem Grown.parent_eq (h : Grown s s' hash e) :
    parent s' = Function.update (parent s) hash e.pprev := by
  funext t
  by_cases ht : t = hash
  · rw [ht, Function.update_self]
    exact parent_of_entry h.entry_self
  · rw [Function.update_of_ne ht, parent, h.entry_ne ht]
    rfl

theorem Grown.next_eq (h : Grown s s' hash e) (hnew : s.entry hash = none) (he : e.pnext = none) :
    next s' = next s := by
  funext t
  by_cases ht : t = hash
  · rw [ht, next, next, h.entry_self, hnew]
    exact he
  · rw [next, h.entry_ne ht]
    rfl

/-- A new entry above a known one, or without parent, keeps the tree. -/
theorem Grown.tree (h : Grown s s' hash e) (hs : Tree s) (hnew : s.entry hash = none)
    (hp : ∀ p, e.pprev = some p → (s.entry p).isSome ∧ s.height p < e.nHeight) : Tree s' := by
  have hold : ∀ t, (s.entry t).isSome → t ≠ hash := by
    intro t ht heq
    rw [heq, hnew] at ht
    cases ht
  constructor
  · intro c p hcp
    have hknown : (s.entry p).isSome := by
      rw [h.parent_eq] at hcp
      by_cases hc : c = hash
      · rw [hc, Function.update_self] at hcp
        exact (hp p hcp).1
      · rw [Function.update_of_ne hc] at hcp
        exact hs.known c p hcp
    rw [h.entry_ne (hold p hknown)]
    exact hknown
  · intro c p hcp
    rw [h.parent_eq] at hcp
    by_cases hc : c = hash
    · rw [hc, Function.update_self] at hcp
      rw [h.height_ne (hold p (hp p hcp).1), hc, height_of_entry h.entry_self]
      exact (hp p hcp).2
    · rw [Function.update_of_ne hc] at hcp
      rw [h.height_ne (hold p (hs.known c p hcp)), h.height_ne hc]
      exact hs.graded c p hcp
  · intro t d hd
    rw [h.rest] at hd
    obtain ⟨e', he', hdisk⟩ := hs.stored t d hd
    refine ⟨e', ?_, hdisk⟩
    rw [h.entry_ne (hold t (by rw [he']; rfl))]
    exact he'

theorem Grown.inv (h : Grown s s' hash e) (hs : ChainInv s) (hnew : s.entry hash = none)
    (hpnext : e.pnext = none)
    (hp : ∀ p, e.pprev = some p → (s.entry p).isSome ∧ s.height p < e.nHeight) : ChainInv s' := by
  have hbest : s'.pindexBest = s.pindexBest := by rw [h.rest]
  have hne : ∀ b, s.pindexBest = some b → b ≠ hash := by
    intro b hb heq
    have hknown := (hs.best b hb).known
    rw [heq, hnew] at hknown
    cases hknown
  refine ⟨h.tree hs.tree hnew hp, ?_, ?_, ?_⟩
  · rw [h.parent_eq, h.next_eq hnew hpnext, hbest]
    apply hs.links.grow
    · intro c hc
      have hknown := hs.tree.known c hash hc
      rw [hnew] at hknown
      cases hknown
    · rw [parent, hnew]
      rfl
    · intro habs
      exact hne hash habs rfl
  · intro b hb
    rw [hbest] at hb
    obtain ⟨hknown, hhash, hheight, hwork⟩ := hs.best b hb
    have hentry := h.entry_ne (hne b hb)
    refine ⟨by rw [hentry]; exact hknown, ?_, ?_, ?_⟩
    · rw [h.rest]
      exact hhash
    · rw [h.height_ne (hne b hb), h.rest]
      exact hheight
    · rw [hentry, h.rest]
      exact hwork
  · have hcoins : s'.pcoinsTip = s.pcoinsTip := by rw [h.rest]
    rw [hcoins, hs.coins, hbest]
    cases hb : s.pindexBest with
    | none => rfl
    | some b =>
      show some (s.ptr b) = some (s'.ptr b)
      rw [ChainState.ptr, ChainState.ptr, h.height_ne (hne b hb)]

/-- A new entry is put on top of the one of the previous block, if there is one. -/
theorem leaf_cases (s : ChainState M) (block : CBlock) :
    (∃ p, s.entry block.header.fields.hashPrevBlock = some p ∧
      (leaf s block).pprev = some block.header.fields.hashPrevBlock ∧
      (leaf s block).nHeight = p.nHeight + 1 ∧
      (leaf s block).nChainWork = p.nChainWork + (leaf s block).getBlockWork) ∨
    (s.entry block.header.fields.hashPrevBlock = none ∧ (leaf s block).pprev = none ∧
      (leaf s block).nHeight = 0 ∧
      (leaf s block).nChainWork = 0 + (leaf s block).getBlockWork) := by
  unfold leaf newEntry ChainState.entry
  cases s.mapBlockIndex.lookup block.header.fields.hashPrevBlock with
  | some p => exact Or.inl ⟨p, rfl, rfl, rfl, rfl⟩
  | none => exact Or.inr ⟨rfl, rfl, rfl, rfl⟩

theorem leaf_pprev {p : Uint256} (hp : (leaf s block).pprev = some p) :
    (s.entry p).isSome ∧ s.height p < (leaf s block).nHeight := by
  rcases leaf_cases s block with ⟨e, he, hprev, hheight, -⟩ | ⟨-, hnone, -⟩
  · obtain rfl := Option.some.inj (hprev.symm.trans hp)
    rw [he, hheight, height_of_entry he]
    exact ⟨rfl, Nat.lt_succ_self _⟩
  · rw [hnone] at hp
    cases hp

/-- The record of an entry is written, or the write has failed. -/
theorem writeDiskBlockIndex_cases {h : Uint256} {r : Except Failure Unit}
    (hrun : (writeDiskBlockIndex node h).run s = (r, s')) :
    (r ≠ .ok () ∧ s' = { s with clock := s.clock + 1 }) ∨
    ∃ e, s.entry h = some e ∧ r = .ok () ∧
      s' = { s with
        clock := s.clock + 1
        blockTree := { s.blockTree with diskIndex := s.blockTree.diskIndex.insert h e.toDisk } } := by
  have hask : (ask node).run s = (.ok (node.world s.clock), { s with clock := s.clock + 1 }) := rfl
  unfold writeDiskBlockIndex at hrun
  rw [run_bind_ok hask] at hrun
  cases hwrite : writeBatch (node.world s.clock).indexWrite with
  | error err =>
    rw [hwrite] at hrun
    cases hrun
    exact Or.inl ⟨by simp, rfl⟩
  | ok written =>
    rw [hwrite, run_bind_ok (run_lift _ _)] at hrun
    have hfind : (find h).run { s with clock := s.clock + 1 } =
        ((s.entry h).elim (.error .assertion) .ok, { s with clock := s.clock + 1 }) := find_run h _
    cases he : s.entry h with
    | none =>
      rw [he] at hfind
      rw [run_bind_error hfind] at hrun
      cases hrun
      exact Or.inl ⟨by simp, rfl⟩
    | some e =>
      rw [he] at hfind
      rw [run_bind_ok hfind] at hrun
      cases hrun
      exact Or.inr ⟨e, rfl, rfl, rfl⟩

theorem keeps_writeDiskBlockIndex (h : Uint256) :
    Keeps True ChainInv (writeDiskBlockIndex node h) := by
  intro s hs _
  rcases hrun : (writeDiskBlockIndex node h).run s with ⟨r, s'⟩
  rcases writeDiskBlockIndex_cases hrun with ⟨-, rfl⟩ | ⟨e, he, -, rfl⟩
  · exact ⟨⟨hs.tree.known, hs.tree.graded, hs.tree.stored⟩, hs.links,
      fun b hb => ⟨(hs.best b hb).known, (hs.best b hb).hashBestChain, (hs.best b hb).nBestHeight,
        (hs.best b hb).nBestChainWork⟩, hs.coins⟩
  · refine ⟨⟨hs.tree.known, hs.tree.graded, ?_⟩, hs.links,
      fun b hb => ⟨(hs.best b hb).known, (hs.best b hb).hashBestChain, (hs.best b hb).nBestHeight,
        (hs.best b hb).nBestChainWork⟩, hs.coins⟩
    intro t d hd
    change (s.blockTree.diskIndex.insert h e.toDisk).lookup t = some d at hd
    by_cases ht : t = h
    · rw [ht, AList.lookup_insert] at hd
      rw [ht]
      exact ⟨e, he, Option.some.inj hd⟩
    · rw [AList.lookup_insert_ne ht] at hd
      exact hs.tree.stored t d hd

/-- AddToBlockIndex refuses a block that it has, or makes the entry and writes it. -/
theorem storeEntry_cases {r : Except Failure Unit}
    (hrun : (storeEntry node block).run s = (r, s')) :
    (r ≠ .ok () ∧ s' = s) ∨
    s.entry (block.header.fields.getHash node.Hash) = none ∧
      (do writeDiskBlockIndex node (block.header.fields.getHash node.Hash)
          writeBlockIndex node (block.header.fields.getHash node.Hash) :
        Prog (ChainState M) Failure Unit).run
        ((insertEntry (block.header.fields.getHash node.Hash) block s).insertValid
          (block.header.fields.getHash node.Hash)) = (r, s') := by
  cases he : s.entry (block.header.fields.getHash node.Hash) with
  | some e =>
    left
    have hdup : (storeEntry node block).run s =
        (.error (.dos 0 "AddToBlockIndex() : %s already exists" false), s) := by
      unfold storeEntry
      dsimp only
      rw [run_bind_ok (show (act _).run s = (.ok true, s) from by
        show (Except.ok (s.entry _).isSome, s) = _
        rw [he]
        rfl)]
      rfl
    rw [hdup] at hrun
    cases hrun
    exact ⟨by simp, rfl⟩
  | none =>
    right
    refine ⟨rfl, ?_⟩
    unfold storeEntry at hrun
    dsimp only at hrun
    rw [run_bind_ok (show (act _).run s = (.ok false, s) from by
      show (Except.ok (s.entry _).isSome, s) = _
      rw [he]
      rfl)] at hrun
    exact hrun

/-- AddToBlockIndex in front of ConnectBestBlock keeps the chain in order. -/
theorem storeEntry_inv (hs : ChainInv s) (hacc : Accepted node s block) :
    ChainInv ((storeEntry node block).run s).2 := by
  rcases hrun : (storeEntry node block).run s with ⟨r, s'⟩
  rcases storeEntry_cases hrun with ⟨-, rfl⟩ | ⟨hnew, hwrites⟩
  · exact hs
  · have hgrown := grown_insertEntry (s := s) (hacc.ne hnew)
    have hinv := hgrown.inv hs hnew rfl fun p hp => leaf_pprev hp
    have hkeeps : Keeps True ChainInv (do
        writeDiskBlockIndex node (block.header.fields.getHash node.Hash)
        writeBlockIndex node (block.header.fields.getHash node.Hash) :
        Prog (ChainState M) Failure Unit) := by
      refine keeps_bind (keeps_writeDiskBlockIndex _) fun _ => ?_
      exact keeps_of_within (fun _ _ hst hs => hs.frame hst) (within_writeBlockIndex node _)
    have hafter := hkeeps _ hinv (Or.inl trivial)
    rw [hwrites] at hafter
    exact hafter

end Adding

end UmbrellaLtc.IndexSteps
