import UmbrellaLtc.ChainRuns

/-!
The main chain. Over runs in which every call succeeds the block index is exact:
heights and chain work are those that the parents give, and every entry is on
disk. A restart then finds the same tree and sets the same links.
-/

namespace UmbrellaLtc.MainChain

open Codec Transaction Header Coins CoinsView CheckBlock ConnectBlock BestChain ChainFrame
  ChainLinks Reorganise IndexSteps Loading ChainRuns Prog Runs

variable {M : Type} (node : Node M)

/-- Chain work and chain transactions are those of the parent and the block's own. -/
structure Worked (s : ChainState M) (e : CBlockIndex) : Prop where
  nChainWork : e.nChainWork =
    (e.pprev.bind s.entry).elim 0 CBlockIndex.nChainWork + e.getBlockWork
  nChainTx : e.nChainTx = (e.pprev.bind s.entry).elim 0 CBlockIndex.nChainTx + e.nTx

/-- The block index is what the blocks give, and is on disk. -/
structure Exact (s : ChainState M) : Prop where
  height : ∀ c e, s.entry c = some e → e.nHeight = e.pprev.elim 0 fun p => s.height p + 1
  worked : ∀ c e, s.entry c = some e → Worked s e
  disk : ∀ c e, s.entry c = some e → s.blockTree.diskIndex.lookup c = some e.toDisk
  status : ∀ c e, s.entry c = some e → (s.blockTree.blockIndex.lookup c).isSome
  hash : ∀ c e, s.entry c = some e → c ≠ 0 ∧ e.toDisk.calcBlockHash node.Hash = c

section Same

variable {node} {s s' : ChainState M}

/-- The entries of the same tree, read off their cores. -/
theorem SameTree.entry_core (h : SameTree s s') {c : Uint256} {e : CBlockIndex}
    (he : s'.entry c = some e) : ∃ e₀, s.entry c = some e₀ ∧ core e = core e₀ := by
  have hcore := h.cores c
  rw [he] at hcore
  cases he₀ : s.entry c with
  | none =>
    rw [he₀] at hcore
    cases hcore
  | some e₀ =>
    rw [he₀] at hcore
    exact ⟨e₀, rfl, Option.some.inj hcore⟩

theorem read_core {β : Type} {e e₀ : CBlockIndex} (h : core e = core e₀) (g : CBlockIndex → β)
    (hg : ∀ e, g (core e) = g e) : g e = g e₀ := by
  rw [← hg e, ← hg e₀, h]

theorem Worked.sameTree (h : SameTree s s') {e e₀ : CBlockIndex} (hcore : core e = core e₀)
    (he : Worked s e₀) : Worked s' e := by
  have hpprev := read_core hcore CBlockIndex.pprev fun _ => rfl
  have hread : ∀ {n : ℕ} (g : CBlockIndex → BitVec n), (∀ e, g (core e) = g e) →
      (e₀.pprev.bind s'.entry).elim 0 g = (e₀.pprev.bind s.entry).elim 0 g := by
    intro n g hg
    cases e₀.pprev with
    | none => rfl
    | some p => exact h.read 0 g hg p
  constructor
  · rw [hpprev, hread CBlockIndex.nChainWork fun _ => rfl,
      read_core hcore CBlockIndex.nChainWork fun _ => rfl,
      read_core hcore CBlockIndex.getBlockWork fun _ => rfl]
    exact he.nChainWork
  · rw [hpprev, hread CBlockIndex.nChainTx fun _ => rfl,
      read_core hcore CBlockIndex.nChainTx fun _ => rfl,
      read_core hcore CBlockIndex.nTx fun _ => rfl]
    exact he.nChainTx

theorem Exact.sameTree (hs : Exact node s) (h : SameTree s s') : Exact node s' := by
  constructor
  · intro c e he
    obtain ⟨e₀, he₀, hcore⟩ := SameTree.entry_core h he
    rw [read_core hcore CBlockIndex.nHeight fun _ => rfl,
      read_core hcore CBlockIndex.pprev fun _ => rfl, h.height_eq]
    exact hs.height c e₀ he₀
  · intro c e he
    obtain ⟨e₀, he₀, hcore⟩ := SameTree.entry_core h he
    exact (hs.worked c e₀ he₀).sameTree h hcore
  · intro c e he
    obtain ⟨e₀, he₀, hcore⟩ := SameTree.entry_core h he
    rw [read_core hcore CBlockIndex.toDisk fun _ => rfl, h.diskIndex]
    exact hs.disk c e₀ he₀
  · intro c e he
    obtain ⟨e₀, he₀, -⟩ := SameTree.entry_core h he
    exact h.statuses c (hs.status c e₀ he₀)
  · intro c e he
    obtain ⟨e₀, he₀, hcore⟩ := SameTree.entry_core h he
    rw [read_core hcore CBlockIndex.toDisk fun _ => rfl]
    exact hs.hash c e₀ he₀

end Same

section Adding

variable {node} {s s' : ChainState M} {block : CBlock}

/-- The second record of an entry is on disk once it has been written. -/
theorem holds_writeBlockIndex (h : Uint256) (s : ChainState M) :
    Holds (writeBlockIndex node h) s (fun _ s' => s'.mapBlockIndex = s.mapBlockIndex ∧
      (s'.blockTree.blockIndex.lookup h).isSome) (fun _ => True) := by
  refine holds_bind (holds_act _ ?_)
  refine holds_bind (holds_lift (fun _ _ => ?_) fun _ _ => trivial)
  apply holds_bind
  unfold Holds
  rw [find_run]
  cases ChainState.entry _ h with
  | none => trivial
  | some e =>
    refine ⟨rfl, ?_⟩
    show ((s.blockTree.blockIndex.insert h _).lookup h).isSome
    rw [AList.lookup_insert]
    rfl

/-- AddToBlockIndex has a new entry and both its records on disk when it goes on to
ConnectBestBlock. -/
structure Stored (node : Node M) (s s' : ChainState M) (block : CBlock) : Prop where
  fresh : s.entry (block.header.fields.getHash node.Hash) = none
  entry : ∀ t, s'.entry t =
    if t = block.header.fields.getHash node.Hash then some (leaf s block) else s.entry t
  disk : s'.blockTree.diskIndex = s.blockTree.diskIndex.insert
    (block.header.fields.getHash node.Hash) (leaf s block).toDisk
  status : (s'.blockTree.blockIndex.lookup (block.header.fields.getHash node.Hash)).isSome
  statuses : ∀ t, (s.blockTree.blockIndex.lookup t).isSome →
    (s'.blockTree.blockIndex.lookup t).isSome

theorem storeEntry_stored (hacc : Accepted node s block)
    (hrun : (storeEntry node block).run s = (.ok (), s')) : Stored node s s' block := by
  rcases storeEntry_cases hrun with ⟨hne, -⟩ | ⟨hnew, hwrites⟩
  · exact absurd rfl hne
  have hgrown := grown_insertEntry (s := s) (hacc.ne hnew)
  generalize (insertEntry (block.header.fields.getHash node.Hash) block s).insertValid
    (block.header.fields.getHash node.Hash) = s₁ at hgrown hwrites
  rcases hdisk : (writeDiskBlockIndex node (block.header.fields.getHash node.Hash)).run s₁ with
    ⟨r, s₂⟩
  rcases writeDiskBlockIndex_cases hdisk with ⟨hne, -⟩ | ⟨e, he, rfl, rfl⟩
  · cases r with
    | ok a => exact absurd rfl hne
    | error err =>
      rw [run_bind_error hdisk] at hwrites
      cases hwrites
  · rw [run_bind_ok hdisk] at hwrites
    obtain rfl : leaf s block = e := Option.some.inj (hgrown.entry_self.symm.trans he)
    obtain ⟨hframe, hmap, hstatus⟩ :=
      ((holds_writeBlockIndex _ _).and_within (within_writeBlockIndex node _)).of_ok hwrites
    have htree : s₁.blockTree = s.blockTree := by rw [hgrown.rest]
    refine ⟨hnew, fun t => ?_, ?_, hstatus, fun t ht => hframe.statuses t ?_⟩
    · rw [ChainState.entry, hmap]
      exact hgrown.entry t
    · rw [hframe.diskIndex]
      show s₁.blockTree.diskIndex.insert _ _ = _
      rw [htree]
    · show (s₁.blockTree.blockIndex.lookup t).isSome
      rw [htree]
      exact ht

/-- The work of a new entry, where its parent is still the one that it was made with. -/
theorem worked_leaf
    (h : s'.entry block.header.fields.hashPrevBlock = s.entry block.header.fields.hashPrevBlock) :
    Worked s' (leaf s block) := by
  have hprev : (leaf s block).pprev.bind s'.entry = s.entry block.header.fields.hashPrevBlock := by
    rcases leaf_cases s block with ⟨p, hp, hpprev, -⟩ | ⟨hnone, hpprev, -⟩
    · rw [hpprev]
      exact h
    · rw [hpprev, hnone]
      rfl
  constructor
  · rw [hprev]
    rfl
  · rw [hprev]
    rfl

/-- The record of a new entry has the header of the block. -/
theorem calcBlockHash_leaf (hacc : Accepted node s block) :
    (leaf s block).toDisk.calcBlockHash node.Hash = block.header.fields.getHash node.Hash := by
  have hprev : (leaf s block).pprev.getD 0 = block.header.fields.hashPrevBlock := by
    rcases leaf_cases s block with ⟨p, -, hpprev, -⟩ | ⟨hnone, hpprev, -⟩
    · rw [hpprev]
      rfl
    · rw [hpprev]
      rcases hacc with hsome | ⟨hzero, -⟩
      · rw [hnone] at hsome
        cases hsome
      · exact hzero.symm
  show HeaderFields.getHash node.Hash
    { block.header.fields with hashPrevBlock := (leaf s block).pprev.getD 0 } = _
  rw [hprev]

/-- A new entry is exact. -/
theorem Stored.exact (h : Stored node s s' block) (hs : Exact node s) (htree : Tree s)
    (hacc : Accepted node s block) (hzero : block.header.fields.getHash node.Hash ≠ 0) :
    Exact node s' := by
  have hold : ∀ {t e}, s.entry t = some e → t ≠ block.header.fields.getHash node.Hash := by
    intro t e he heq
    rw [heq, h.fresh] at he
    cases he
  have hkeep : ∀ t, t ≠ block.header.fields.getHash node.Hash → s'.entry t = s.entry t := by
    intro t ht
    rw [h.entry, if_neg ht]
  have hheight : ∀ t, t ≠ block.header.fields.getHash node.Hash → s'.height t = s.height t := by
    intro t ht
    rw [ChainState.height, hkeep t ht]
    rfl
  have hparent : ∀ {c e p}, s.entry c = some e → e.pprev = some p →
      p ≠ block.header.fields.getHash node.Hash := by
    intro c e p he hp
    have hknown := htree.known c p ((parent_of_entry he).trans hp)
    obtain ⟨e', he'⟩ := Option.isSome_iff_exists.mp hknown
    exact hold he'
  have hprev := hacc.ne h.fresh
  have hcases : ∀ {c e}, s'.entry c = some e → c ≠ block.header.fields.getHash node.Hash ∧
      s.entry c = some e ∨ c = block.header.fields.getHash node.Hash ∧ leaf s block = e := by
    intro c e he
    by_cases hc : c = block.header.fields.getHash node.Hash
    · rw [h.entry, if_pos hc] at he
      exact Or.inr ⟨hc, Option.some.inj he⟩
    · rw [hkeep c hc] at he
      exact Or.inl ⟨hc, he⟩
  constructor
  · intro c e he
    rcases hcases he with ⟨-, he⟩ | ⟨-, rfl⟩
    · rw [hs.height c e he]
      cases hp : e.pprev with
      | none => rfl
      | some p =>
        show s.height p + 1 = s'.height p + 1
        rw [hheight p (hparent he hp)]
    · rcases leaf_cases s block with ⟨p, hp, hpprev, hnHeight, -⟩ | ⟨-, hpprev, hnHeight, -⟩
      · rw [hpprev, hnHeight]
        show _ = s'.height _ + 1
        rw [hheight _ hprev, height_of_entry hp]
      · rw [hpprev, hnHeight]
        rfl
  · intro c e he
    rcases hcases he with ⟨-, he⟩ | ⟨-, rfl⟩
    · have hbind : e.pprev.bind s'.entry = e.pprev.bind s.entry := by
        cases hp : e.pprev with
        | none => rfl
        | some p => exact hkeep p (hparent he hp)
      obtain ⟨hwork, htx⟩ := hs.worked c e he
      rw [← hbind] at hwork htx
      exact ⟨hwork, htx⟩
    · exact worked_leaf (hkeep _ hprev)
  · intro c e he
    rw [h.disk]
    rcases hcases he with ⟨hc, he⟩ | ⟨rfl, rfl⟩
    · rw [AList.lookup_insert_ne hc]
      exact hs.disk c e he
    · rw [AList.lookup_insert]
  · intro c e he
    rcases hcases he with ⟨-, he⟩ | ⟨rfl, rfl⟩
    · exact h.statuses c (hs.status c e he)
    · exact h.status
  · intro c e he
    rcases hcases he with ⟨-, he⟩ | ⟨rfl, rfl⟩
    · exact hs.hash c e he
    · exact ⟨hzero, calcBlockHash_leaf hacc⟩

end Adding

section Sorting

/-- The loop over vSortedByHeight meets every parent before its children, so that the
chain work of what is done does not change any more. -/
theorem worked_foldl (l done : List Uint256) (s : ChainState M)
    (hsorted : l.Pairwise fun a b => s.height a ≤ s.height b) (hnodup : l.Nodup)
    (hnew : ∀ x ∈ l, x ∉ done) (hall : ∀ t, (s.entry t).isSome → t ∈ done ∨ t ∈ l)
    (hknown : ∀ c p, parent s c = some p → (s.entry p).isSome)
    (hgraded : Forest.Graded (parent s) s.height)
    (hdone : ∀ c ∈ done, ∀ e, s.entry c = some e → Worked s e ∧ ∀ p, e.pprev = some p → p ∈ done)
    (c : Uint256) (e : CBlockIndex) (he : (l.foldl loadChainWork s).entry c = some e) :
    Worked (l.foldl loadChainWork s) e := by
  induction l generalizing done s with
  | nil =>
    have hmem : c ∈ done := by
      have hsome : (s.entry c).isSome := by
        rw [show s.entry c = some e from he]
        rfl
      rcases hall c hsome with hdone | hnil
      · exact hdone
      · exact absurd hnil List.not_mem_nil
    exact (hdone c hmem e he).1
  | cons x rest ih =>
    have hrework := reworked_loadChainWork s x
    obtain ⟨hx, hrest⟩ := List.pairwise_cons.mp hsorted
    obtain ⟨hxrest, hrestNodup⟩ := List.nodup_cons.mp hnodup
    have hxdone : x ∉ done := hnew x List.mem_cons_self
    -- the parent of the entry in turn is done: it is lower, and what is left is not
    have hparent : ∀ p, parent s x = some p → p ∈ done := by
      intro p hp
      have hlt := hgraded x p hp
      rcases hall p (hknown x p hp) with hdone | hmem
      · exact hdone
      · rcases List.mem_cons.mp hmem with rfl | hmem
        · omega
        · have hle := hx p hmem
          omega
    have hbind : ∀ q : Option Uint256, (∀ p, q = some p → p ∈ done) →
        q.bind (loadChainWork s x).entry = q.bind s.entry := by
      intro q hq
      cases q with
      | none => rfl
      | some p =>
        have hpx : p ≠ x := fun heq => hxdone (heq ▸ hq p rfl)
        show (loadChainWork s x).entry p = s.entry p
        rw [entry_loadChainWork, if_neg hpx]
    apply ih (x :: done) (loadChainWork s x) _ hrestNodup _ _ _ _ _ he
    · rw [hrework.height_eq]
      exact hrest
    · intro y hy hmem
      rcases List.mem_cons.mp hmem with rfl | hmem
      · exact hxrest hy
      · exact hnew y (List.mem_cons_of_mem _ hy) hmem
    · intro t ht
      rw [hrework.isSome_eq] at ht
      rcases hall t ht with hdone | hmem
      · exact Or.inl (List.mem_cons_of_mem _ hdone)
      · rcases List.mem_cons.mp hmem with rfl | hmem
        · exact Or.inl List.mem_cons_self
        · exact Or.inr hmem
    · intro c p hp
      rw [hrework.parent_eq] at hp
      rw [hrework.isSome_eq]
      exact hknown c p hp
    · rw [hrework.parent_eq, hrework.height_eq]
      exact hgraded
    · intro d hd e he
      rw [entry_loadChainWork] at he
      by_cases hdx : d = x
      · rw [if_pos hdx] at he
        obtain ⟨e₁, he₁, rfl⟩ := Option.map_eq_some_iff.mp he
        have hup : ∀ p, e₁.pprev = some p → p ∈ done := by
          intro p hp
          exact hparent p ((parent_of_entry he₁).trans hp)
        refine ⟨⟨?_, ?_⟩, fun p hp => List.mem_cons_of_mem _ (hup p hp)⟩
        · show _ = (e₁.pprev.bind (loadChainWork s x).entry).elim 0 _ + _
          rw [hbind e₁.pprev hup]
          rfl
        · show _ = (e₁.pprev.bind (loadChainWork s x).entry).elim 0 _ + _
          rw [hbind e₁.pprev hup]
          rfl
      · rw [if_neg hdx] at he
        have hmem : d ∈ done := by
          rcases List.mem_cons.mp hd with heq | hmem
          · exact absurd heq hdx
          · exact hmem
        obtain ⟨⟨hwork, htx⟩, hup⟩ := hdone d hmem e he
        rw [← hbind e.pprev hup] at hwork htx
        exact ⟨⟨hwork, htx⟩, fun p hp => List.mem_cons_of_mem _ (hup p hp)⟩

/-- The loop over all entries of a tree. -/
theorem worked_sorted {s : ChainState M} (hs : Tree s) (c : Uint256) (e : CBlockIndex)
    (he : ((sortedByHeight s).foldl loadChainWork s).entry c = some e) :
    Worked ((sortedByHeight s).foldl loadChainWork s) e := by
  have hperm : (sortedByHeight s).Perm s.mapBlockIndex.keys := List.mergeSort_perm _ _
  apply worked_foldl (sortedByHeight s) [] s _ _ _ _ hs.known hs.graded _ c e he
  · have hpair : (sortedByHeight s).Pairwise fun a b => decide (s.height a ≤ s.height b) = true :=
      List.pairwise_mergeSort
        (fun a b c hab hbc => by simp only [decide_eq_true_eq] at *; omega)
        (fun a b => by simp only [Bool.or_eq_true, decide_eq_true_eq]; omega) s.mapBlockIndex.keys
    exact hpair.imp of_decide_eq_true
  · exact hperm.nodup_iff.mpr s.mapBlockIndex.nodupKeys
  · intro x _
    exact List.not_mem_nil
  · intro t ht
    right
    rw [hperm.mem_iff]
    exact AList.lookup_isSome.mp ht
  · intro c hc
    exact absurd hc List.not_mem_nil

end Sorting

section Loading

variable {node} {s₀ s : ChainState M}

/-- A parent is not the null hash. -/
theorem Exact.pprev_ne (hx : Exact node s₀) (hs : Tree s₀) {c p : Uint256} {e : CBlockIndex}
    (he : s₀.entry c = some e) (hp : e.pprev = some p) : p ≠ 0 := by
  have hknown := hs.known c p ((parent_of_entry he).trans hp)
  obtain ⟨e', he'⟩ := Option.isSome_iff_exists.mp hknown
  exact (hx.hash p e' he').1

/-- What is loaded for an entry that is on disk, but for its chain work. -/
theorem Exact.loaded_entry (hx : Exact node s₀) (hs : Tree s₀) (h : HasIndex s₀.blockTree s)
    {c : Uint256} {e₀ : CBlockIndex} (he₀ : s₀.entry c = some e₀) :
    ∃ e, s.entry c = some e ∧ noWork (core e) = noWork (core e₀) := by
  obtain ⟨e, status, he, hload⟩ := h.record (hx.disk c e₀ he₀)
  refine ⟨e, he, ?_⟩
  have hpprev : (loaded e₀.toDisk status).pprev = e₀.pprev := by
    show (if e₀.pprev.getD 0 = 0 then none else some (e₀.pprev.getD 0)) = e₀.pprev
    cases hp : e₀.pprev with
    | none => rfl
    | some p => exact if_neg (hx.pprev_ne hs he₀ hp)
  calc noWork (core e) = core (noWork e) := rfl
    _ = core (loaded e₀.toDisk status) := by rw [hload]
    _ = noWork (core { e₀ with pprev := (loaded e₀.toDisk status).pprev }) := rfl
    _ = noWork (core e₀) := by rw [hpprev]

/-- Nothing else is loaded. -/
theorem none_of_none (h : HasIndex s₀.blockTree s) (hs : Tree s₀) {c : Uint256}
    (hc : s₀.entry c = none) : s.entry c = none := by
  obtain ⟨map, hix, hentries⟩ := h.index
  have hmap := congrArg Option.isSome (hentries c)
  rw [Option.isSome_map, Option.isSome_map] at hmap
  by_contra hne
  rw [Option.ne_none_iff_isSome.mp hne] at hmap
  rcases hix.needed c hmap.symm with hsome | ⟨t, d, hd, rfl, hne⟩
  · obtain ⟨d, hd⟩ := Option.isSome_iff_exists.mp hsome
    obtain ⟨e, he, -⟩ := hs.stored c d hd
    rw [hc] at he
    cases he
  · have hknown := hs.known t d.hashPrev (parent_of_record hs hd hne).1
    rw [hc] at hknown
    cases hknown

/-- The chain work comes back, by induction on the height. -/
theorem Exact.core_eq (hx : Exact node s₀) (hs : Tree s₀) (h : HasIndex s₀.blockTree s)
    (hwork : ∀ c e, s.entry c = some e → Worked s e) (n : ℕ) :
    ∀ c, s₀.height c < n → (s.entry c).map core = (s₀.entry c).map core := by
  induction n with
  | zero =>
    intro c hc
    omega
  | succ n ih =>
    intro c hc
    cases he₀ : s₀.entry c with
    | none => rw [none_of_none h hs he₀]
    | some e₀ =>
      obtain ⟨e, he, hcore⟩ := hx.loaded_entry hs h he₀
      have hfield : ∀ {β : Type} (g : CBlockIndex → β), (∀ e, g (noWork (core e)) = g e) →
          g e = g e₀ := by
        intro β g hg
        rw [← hg e, ← hg e₀, hcore]
      have hread : ∀ {w : ℕ} (g : CBlockIndex → BitVec w), (∀ e, g (core e) = g e) →
          (e₀.pprev.bind s.entry).elim 0 g = (e₀.pprev.bind s₀.entry).elim 0 g := by
        intro w g hg
        cases hp : e₀.pprev with
        | none => rfl
        | some p =>
          have hlt := hs.graded c p ((parent_of_entry he₀).trans hp)
          have hfun : g ∘ core = g := funext hg
          show (s.entry p).elim 0 g = (s₀.entry p).elim 0 g
          rw [← hfun, ← Option.elim_map, ← Option.elim_map, ih p (by omega)]
      have hchainWork : e.nChainWork = e₀.nChainWork := by
        rw [(hwork c e he).nChainWork, (hx.worked c e₀ he₀).nChainWork,
          hfield CBlockIndex.pprev fun _ => rfl, hfield CBlockIndex.getBlockWork fun _ => rfl,
          hread CBlockIndex.nChainWork fun _ => rfl]
      have hchainTx : e.nChainTx = e₀.nChainTx := by
        rw [(hwork c e he).nChainTx, (hx.worked c e₀ he₀).nChainTx,
          hfield CBlockIndex.pprev fun _ => rfl, hfield CBlockIndex.nTx fun _ => rfl,
          hread CBlockIndex.nChainTx fun _ => rfl]
      have hsplit : ∀ e : CBlockIndex, core e =
          { noWork (core e) with nChainWork := e.nChainWork, nChainTx := e.nChainTx } :=
        fun _ => rfl
      rw [he]
      show some (core e) = some (core e₀)
      rw [hsplit e, hsplit e₀, hcore, hchainWork, hchainTx]

/-- The block index of a node comes back as it was. -/
theorem sameTree_loadIndex (hx : Exact node s₀) (hs : Tree s₀) {map : BlockMap}
    (hguts : loadBlockIndexGuts node s₀.blockTree = .ok map) :
    SameTree s₀ (loadIndex (stopped node s₀) map) := by
  have hindex : HasIndex s₀.blockTree (loadIndex (stopped node s₀) map) :=
    @hasIndex_loadIndex M node (stopped node s₀) map hguts
  have hbase : HasIndex s₀.blockTree { stopped node s₀ with mapBlockIndex := map } :=
    ⟨⟨map, indexed_of_guts node hguts, fun _ => rfl⟩, rfl⟩
  have hwork : ∀ c e, (loadIndex (stopped node s₀) map).entry c = some e →
      Worked (loadIndex (stopped node s₀) map) e := by
    intro c e he
    obtain ⟨hwork, htx⟩ := worked_sorted (hbase.isTree hs) c e he
    exact ⟨hwork, htx⟩
  constructor
  · intro c
    exact hx.core_eq hs hindex hwork (s₀.height c + 1) c (Nat.lt_succ_self _)
  · exact hindex.diskIndex
  · intro c hc
    have hrest := (reworked_foldl (sortedByHeight { stopped node s₀ with mapBlockIndex := map })
      { stopped node s₀ with mapBlockIndex := map }).rest
    show ((((sortedByHeight _).foldl loadChainWork _).blockTree.blockIndex).lookup c).isSome
    rw [hrest]
    exact hc

theorem loadEntry_ok {tree : CBlockTreeDB} (map : BlockMap) {r : Record} (hne : r.1 ≠ 0)
    (hhash : r.2.calcBlockHash node.Hash = r.1) (hstatus : (tree.blockIndex.lookup r.1).isSome) :
    ∃ map', loadEntry node tree map r = .ok map' := by
  obtain ⟨status, hs⟩ := Option.isSome_iff_exists.mp hstatus
  have hgood : ¬ (r.1 = 0 ∨ r.2.calcBlockHash node.Hash ≠ r.1) := by
    intro hbad
    rcases hbad with hzero | hother
    · exact hne hzero
    · exact hother hhash
  unfold loadEntry readMutable
  dsimp only
  rw [if_neg hgood, hs]
  exact ⟨_, rfl⟩

/-- The records of an exact index can be read. -/
theorem loadBlockIndexGuts_ok (hx : Exact node s₀) (hs : Tree s₀) :
    ∃ map, loadBlockIndexGuts node s₀.blockTree = .ok map := by
  have hloop : ∀ (l : List Record) (map : BlockMap),
      (∀ r ∈ l, s₀.blockTree.diskIndex.lookup r.1 = some r.2) →
      ∃ map', l.foldlM (loadEntry node s₀.blockTree) map = .ok map' := by
    intro l
    induction l with
    | nil => exact fun map _ => ⟨map, rfl⟩
    | cons r rest ih =>
      intro map hl
      obtain ⟨e, he, hdisk⟩ := hs.stored r.1 r.2 (hl r List.mem_cons_self)
      obtain ⟨hne, hhash⟩ := hx.hash r.1 e he
      rw [hdisk] at hhash
      obtain ⟨map₁, hstep⟩ := loadEntry_ok map hne hhash (hx.status r.1 e he)
      rw [List.foldlM_cons, hstep]
      exact ih map₁ fun q hq => hl q (List.mem_cons_of_mem _ hq)
  apply hloop
  intro r hr
  exact AList.mem_lookup_iff.mpr hr

theorem loadBest_ok (hs : Tree s) : ∃ s', loadBest s = .ok s' := by
  unfold loadBest
  dsimp only
  cases resolveBest s s.pcoinsTip.base.best with
  | none => exact ⟨_, rfl⟩
  | some p =>
    have htree : Tree (setBest p.hash
        { s with pcoinsTip := .new { s.pcoinsTip.base with best := some p } }) :=
      ⟨hs.known, hs.graded, hs.stored⟩
    have hfuel : s.height p.hash < s.height p.hash + 2 := by omega
    exact linkBestChain_ne htree hfuel

/-- The best block of the coins database is found in every index of the same tree. -/
theorem SameTree.resolveBest_hash (h : SameTree s₀ s) (best : Option BlockPtr) :
    (resolveBest s best).map BlockPtr.hash = (resolveBest s₀ best).map BlockPtr.hash := by
  cases best with
  | none => rfl
  | some p =>
    show ((s.entry p.hash).map _).map BlockPtr.hash = ((s₀.entry p.hash).map _).map BlockPtr.hash
    have hsome := h.isSome_eq p.hash
    cases he₀ : s₀.entry p.hash with
    | none =>
      rw [he₀] at hsome
      rw [Option.not_isSome_iff_eq_none.mp (Bool.eq_false_iff.mp hsome)]
    | some e₀ =>
      rw [he₀] at hsome
      obtain ⟨e, he⟩ := Option.isSome_iff_exists.mp hsome
      rw [he]
      rfl

theorem pcoinsTip_loadIndex (map : BlockMap) :
    (loadIndex s map).pcoinsTip = s.pcoinsTip := by
  have hrest := (reworked_foldl (sortedByHeight { s with mapBlockIndex := map })
    { s with mapBlockIndex := map }).rest
  show ((sortedByHeight _).foldl loadChainWork _).pcoinsTip = _
  rw [hrest]

/-- A node that starts on the databases of another one. -/
theorem start_run (hx : Exact node s₀) (hs : Tree s₀) :
    ∃ s', (start node).run s₀ = (.ok (), s') ∧ ChainInv s' ∧ SameTree s₀ s' ∧
      s'.pindexBest = (resolveBest s₀ s₀.pcoinsTip.base.best).map BlockPtr.hash := by
  obtain ⟨map, hguts⟩ := loadBlockIndexGuts_ok hx hs
  have hsame := sameTree_loadIndex hx hs hguts
  have hindex : HasIndex s₀.blockTree (loadIndex (stopped node s₀) map) :=
    @hasIndex_loadIndex M node (stopped node s₀) map hguts
  have htree := hindex.isTree hs
  obtain ⟨s', hload⟩ := loadBest_ok htree
  obtain ⟨hinv, hbest, hpindex⟩ :=
    loadBest_inv htree hindex.next_none (pindexBest_loadIndex map) hload
  refine ⟨s', ?_, hinv, IsTrans.trans _ _ _ hsame hbest, ?_⟩
  · have hdb : loadBlockIndexDB node (stopped node s₀) = .ok s' := by
      unfold loadBlockIndexDB
      rw [show loadBlockIndexGuts node (stopped node s₀).blockTree = .ok map from hguts]
      exact hload
    unfold start Prog.run
    dsimp only
    rw [hdb]
  · rw [hpindex, pcoinsTip_loadIndex]
    exact SameTree.resolveBest_hash hsame s₀.pcoinsTip.base.best

end Loading

/-- The same entries, links and best block. -/
structure Rebuilt (s s' : ChainState M) : Prop where
  pindexBest : s'.pindexBest = s.pindexBest
  entries : ∀ h, (s'.entry h).map (fun e => (e.pprev, e.pnext, e.nHeight, e.nChainWork)) =
    (s.entry h).map fun e => (e.pprev, e.pnext, e.nHeight, e.nChainWork)

/-- The coins database has the best block when the node has stopped: the coins are
flushed, or they were written already. -/
def BestOnDisk (s : ChainState M) : Bool → Prop
  | true => (node.world s.clock).coinsWrite = .ok
  | false => s.pcoinsTip.base.best.map BlockPtr.hash = s.pindexBest

section Restarting

variable {node} {s s' : ChainState M}

theorem rebuilt_of_sameTree (hs : ChainInv s) (hs' : ChainInv s') (htree : SameTree s s')
    (hbest : s'.pindexBest = s.pindexBest) : Rebuilt s s' := by
  have hlinks := hs'.links
  rw [hbest, htree.parent_eq] at hlinks
  have hnext : next s' = next s := hlinks.unique hs.links
  refine ⟨hbest, fun h => ?_⟩
  have hcore := htree.cores h
  have hpnext := congrFun hnext h
  unfold next at hpnext
  cases he' : s'.entry h with
  | none =>
    rw [he'] at hcore
    rw [Option.map_eq_none_iff.mp hcore.symm]
  | some e' =>
    obtain ⟨e, he, hsame⟩ := SameTree.entry_core htree he'
    rw [he, he'] at hpnext
    rw [he]
    show some (e'.pprev, e'.pnext, e'.nHeight, e'.nChainWork) =
      some (e.pprev, e.pnext, e.nHeight, e.nChainWork)
    rw [read_core hsame CBlockIndex.pprev fun _ => rfl, show e'.pnext = e.pnext from hpnext,
      read_core hsame CBlockIndex.nHeight fun _ => rfl,
      read_core hsame CBlockIndex.nChainWork fun _ => rfl]

/-- The best block is in the coins database when the node has stopped. -/
theorem shutdown_run (hs : ChainInv s) {fShutdown : Bool} (hdisk : BestOnDisk node s fShutdown) :
    ∃ t, (shutdown node fShutdown).run s = (.ok (), t) ∧ Written s t ∧
      t.pcoinsTip.base.best.map BlockPtr.hash = t.pindexBest := by
  cases fShutdown with
  | false => exact ⟨{ s with clock := s.clock + 1 }, rfl, ⟨rfl, rfl⟩, hdisk⟩
  | true =>
    refine ⟨{ s with clock := s.clock + 1, pcoinsTip := (s.pcoinsTip.flush true).2 }, ?_,
      ⟨rfl, flush_best true s.pcoinsTip⟩, ?_⟩
    · have hask : (ask node).run s = (.ok (node.world s.clock), { s with clock := s.clock + 1 }) :=
        rfl
      unfold shutdown
      rw [run_bind_ok hask]
      show (flushCoins _).run _ = _
      unfold flushCoins
      rw [show (node.world s.clock).coinsWrite = .ok from hdisk]
      rfl
    · show s.pcoinsTip.flat.best.map BlockPtr.hash = s.pindexBest
      rw [hs.coins, Option.map_map]
      exact congrFun Option.map_id s.pindexBest

/-- A restart rebuilds the index with its links, when the best block is on disk. -/
theorem restart_rebuilds (hx : Exact node s) (hs : ChainInv s) {fShutdown : Bool}
    (hdisk : BestOnDisk node s fShutdown) :
    ∃ s', (restart node fShutdown).run s = (.ok (), s') ∧ Rebuilt s s' := by
  obtain ⟨t, hrun, hwritten, hbest⟩ := shutdown_run hs hdisk
  have hst : SameTree s t := hwritten.sameTree
  have hpindex : t.pindexBest = s.pindexBest := by rw [hwritten.rest]
  have ht := chainInv_written hs hwritten
  obtain ⟨s', hstart, hs', htree, hs'best⟩ := start_run (hx.sameTree hst) (hst.tree hs.tree)
  have hplain := plain_run (shutdown node fShutdown) s
  rw [hrun] at hplain
  refine ⟨s', ?_, rebuilt_of_sameTree hs hs' (IsTrans.trans _ _ _ hst htree) ?_⟩
  · unfold restart
    rw [run_bind_ok hplain]
    exact hstart
  · -- the best block has an entry, so that it is found again
    rw [hs'best, ← hpindex, ← hbest]
    cases hb : t.pcoinsTip.base.best with
    | none => rfl
    | some p =>
      rw [hb] at hbest
      obtain ⟨e, he⟩ := Option.isSome_iff_exists.mp (ht.best p.hash hbest.symm).known
      show ((t.entry p.hash).map _).map BlockPtr.hash = some p.hash
      rw [he]
      rfl

end Restarting

/-- What the code that walks the main chain relies on. -/
structure MainChainLinks (s : ChainState M) : Prop where
  pnext : ∀ h e, s.entry h = some e →
    (e.pnext ≠ none ↔ ∃ b, s.pindexBest = some b ∧ Forest.Anc (parent s) h b ∧ h ≠ b)
  pnext_pprev : ∀ h e n, s.entry h = some e → e.pnext = some n →
    ∃ e', s.entry n = some e' ∧ e'.pprev = some h
  pprev : ∀ h e p, s.entry h = some e → e.pprev = some p →
    ∃ e', s.entry p = some e' ∧ e.nHeight = e'.nHeight + 1 ∧
      e.nChainWork = e'.nChainWork + e.getBlockWork
  root : ∀ h e, s.entry h = some e → e.pprev = none →
    e.nHeight = 0 ∧ e.nChainWork = e.getBlockWork
  best : ∀ b, s.pindexBest = some b → ∃ e, s.entry b = some e ∧ s.hashBestChain = b ∧
    s.nBestHeight = e.nHeight ∧ s.nBestChainWork = e.nChainWork
  isInMainChain : ∀ h e, s.entry h = some e →
    (s.isInMainChain h = true ↔ ∃ b, s.pindexBest = some b ∧ Forest.Anc (parent s) h b)
  restart : ∀ fShutdown, BestOnDisk node s fShutdown →
    ∃ s', (BestChain.restart node fShutdown).run s = (.ok (), s') ∧ Rebuilt s s'

section Reading

variable {node} {s : ChainState M}

/-- An entry has a link just when it is a proper ancestor of the best block. -/
theorem pnext_iff (hs : ChainInv s) {h : Uint256} {e : CBlockIndex} (he : s.entry h = some e) :
    e.pnext ≠ none ↔ ∃ b, s.pindexBest = some b ∧ Forest.Anc (parent s) h b ∧ h ≠ b := by
  have hnext : next s h = e.pnext := by
    rw [next, he]
    rfl
  rw [← hnext]
  exact hs.links.isSome_iff hs.tree.graded

theorem isInMainChain_of_linked (hgraded : Forest.Graded (parent s) s.height)
    (hlinks : Forest.Linked (parent s) (next s) s.pindexBest) (h : Uint256) :
    s.isInMainChain h = true ↔ ∃ b, s.pindexBest = some b ∧ Forest.Anc (parent s) h b := by
  have hnext : (s.entry h).any (fun e => e.pnext.isSome) = (next s h).isSome := by
    unfold next
    cases s.entry h with
    | none => rfl
    | some e => rfl
  unfold ChainState.isInMainChain
  rw [hnext, Bool.or_eq_true, beq_iff_eq, ← Option.ne_none_iff_isSome, hlinks.isSome_iff hgraded]
  constructor
  · rintro (⟨b, hb, hanc, -⟩ | hb)
    · exact ⟨b, hb, hanc⟩
    · exact ⟨h, hb, Relation.ReflTransGen.refl⟩
  · rintro ⟨b, hb, hanc⟩
    by_cases hself : h = b
    · right
      rw [hb, hself]
    · exact Or.inl ⟨b, hb, hanc, hself⟩

theorem mainChainLinks_of_exact (hs : ChainInv s) (hx : Exact node s) : MainChainLinks node s where
  pnext _ _ he := pnext_iff hs he
  pnext_pprev h e n he hn := by
    have hnext : next s h = some n := by
      rw [next, he]
      exact hn
    have hparent := hs.links.parent_next hnext
    cases he' : s.entry n with
    | none =>
      rw [parent, he'] at hparent
      cases hparent
    | some e' => exact ⟨e', rfl, (parent_of_entry he').symm.trans hparent⟩
  pprev h e p he hp := by
    have hknown := hs.tree.known h p ((parent_of_entry he).trans hp)
    obtain ⟨e', he'⟩ := Option.isSome_iff_exists.mp hknown
    have hheight := hx.height h e he
    have hwork := (hx.worked h e he).nChainWork
    rw [hp] at hheight hwork
    refine ⟨e', he', ?_, ?_⟩
    · rw [hheight, ← height_of_entry he']
      rfl
    · rw [hwork]
      show (s.entry p).elim 0 _ + _ = _
      rw [he']
      rfl
  root h e he hp := by
    have hheight := hx.height h e he
    have hwork := (hx.worked h e he).nChainWork
    rw [hp] at hheight hwork
    exact ⟨hheight, hwork.trans (BitVec.zero_add _)⟩
  best b hb := by
    obtain ⟨hknown, hhash, hheight, hwork⟩ := hs.best b hb
    obtain ⟨e, he⟩ := Option.isSome_iff_exists.mp hknown
    rw [height_of_entry he] at hheight
    rw [he] at hwork
    exact ⟨e, he, hhash, hheight, hwork⟩
  isInMainChain h _ _ := isInMainChain_of_linked hs.tree.graded hs.links h
  restart _ hdisk := restart_rebuilds hx hs hdisk

end Reading

section Running

/-- What the callers see to, where nothing has gone wrong: no block has the null hash. -/
def Call.Forward (s : ChainState M) : Call → Prop
  | .storeEntry block => Accepted node s block ∧ block.header.fields.getHash node.Hash ≠ 0
  | .addToBlockIndex block => Accepted node s block ∧ block.header.fields.getHash node.Hash ≠ 0
  | .invalidBlockFound _ => False
  | _ => True

/-- A call that succeeds. -/
def Succeeds (s : ChainState M) (c : Call × ℕ) : Prop :=
  Call.Forward node s c.1 ∧ ((c.1.prog node c.2).run s).1 = .ok ()

/-- A chain in order over an exact index. -/
def ExactChain (s : ChainState M) : Prop := ChainInv s ∧ Exact node s

variable {node} {s s' : ChainState M}

theorem exact_init (pool : PoolOps M) : ExactChain node (ChainState.init pool) := by
  refine ⟨chainInv_init pool, ?_⟩
  constructor <;> intro c e he <;> cases he

theorem exact_connectBestBlock (hs : ExactChain node s) {fuel : ℕ}
    (hrun : (connectBestBlock node fuel).run s = (.ok (), s')) : ExactChain node s' := by
  have htree : InTree s s := ⟨hs.1, refl s⟩
  have hkeeps := keeps_connectBestBlock node fuel s htree
  rw [hrun] at hkeeps
  obtain ⟨hinv, hsame⟩ := hkeeps (Or.inr ⟨(), rfl⟩)
  exact ⟨hinv, hs.2.sameTree hsame⟩

theorem exact_storeEntry (hs : ExactChain node s) {block : CBlock}
    (hacc : Accepted node s block) (hzero : block.header.fields.getHash node.Hash ≠ 0)
    (hrun : (plain (storeEntry node block)).run s = (.ok (), s')) :
    ExactChain node s' := by
  have hstore := plain_ok hrun
  have hinv := storeEntry_inv hs.1 hacc
  rw [hstore] at hinv
  exact ⟨hinv, (storeEntry_stored hacc hstore).exact hs.2 hs.1.tree hacc hzero⟩

theorem exact_restart (hs : ExactChain node s) {fShutdown : Bool}
    (hrun : (restart node fShutdown).run s = (.ok (), s')) : ExactChain node s' := by
  unfold restart at hrun
  obtain ⟨_, t, hstop, hstart⟩ := bind_ok_cases hrun
  have hwritten := within_plain (within_shutdown node fShutdown) s
  rw [hstop] at hwritten
  have hst : SameTree s t := hwritten.sameTree
  have hxt := hs.2.sameTree hst
  obtain ⟨s₁, hrun₁, hinv, hsame, -⟩ := start_run hxt (hst.tree hs.1.tree)
  obtain rfl : s₁ = s' := congrArg Prod.snd (hrun₁.symm.trans hstart)
  exact ⟨hinv, hxt.sameTree hsame⟩

/-- A call that succeeds keeps the index exact. -/
theorem exact_call {call : Call} {fuel : ℕ} (hs : ExactChain node s)
    (hcall : Call.Forward node s call) (hrun : (call.prog node fuel).run s = (.ok (), s')) :
    ExactChain node s' := by
  cases call with
  | storeEntry block => exact exact_storeEntry hs hcall.1 hcall.2 hrun
  | addToBlockIndex block =>
    obtain ⟨_, t, hstore, hsearch⟩ := bind_ok_cases hrun
    exact exact_connectBestBlock (exact_storeEntry hs hcall.1 hcall.2 hstore) hsearch
  | invalidBlockFound pindex => exact absurd hcall id
  | connectBestBlock => exact exact_connectBestBlock hs hrun
  | setBestChain pindexNew =>
    have hswitched := setBestChain_switched node _ hs.1 hrun
    exact ⟨hswitched.inv, hs.2.sameTree hswitched.tree⟩
  | restart fShutdown => exact exact_restart hs hrun

theorem exact_step (s : ChainState M) (c : Call × ℕ) (hs : ExactChain node s)
    (hc : Succeeds node s c) : ExactChain node (step node s c) := by
  obtain ⟨hforward, hok⟩ := hc
  exact exact_call hs hforward (Prod.ext hok rfl)

/-- In every run of calls that succeed the links, heights and chain work are those of the
best chain, and a restart rebuilds them. -/
theorem mainChainLinks_throughout (node : Node M) (calls : List (Call × ℕ))
    (hcalls : EachStep (step node) (Succeeds node) (.init node.pool) calls) :
    Throughout (step node) (MainChainLinks node) (.init node.pool) calls := by
  have hrun := throughout_of_eachStep exact_step (exact_init node.pool) hcalls
  exact hrun.mono fun _ hs => mainChainLinks_of_exact hs.1 hs.2

/-- The genesis block and a block on it. -/
def premineRun : List (Call × ℕ) :=
  [(.addToBlockIndex genesis, 2), (.addToBlockIndex premineBlock, 2)]

def calm (t : ℕ) : Io := mainIo (t < 4)

theorem succeeds_premine :
    EachStep (step (mainNode calm)) (Succeeds (mainNode calm)) (.init listPool) premineRun := by
  have hgenesis : genesis.header.fields.getHash mainHash ≠ 0 := by decide +kernel
  have hpremine : premineBlock.header.fields.getHash mainHash ≠ 0 := by decide +kernel
  have hfirst : Succeeds (mainNode calm) (.init listPool) (.addToBlockIndex genesis, 2) :=
    ⟨⟨Or.inr ⟨rfl, hgenesis⟩, hgenesis⟩, by decide +kernel⟩
  have hsecond : Succeeds (mainNode calm)
      (step (mainNode calm) (.init listPool) (.addToBlockIndex genesis, 2))
      (.addToBlockIndex premineBlock, 2) :=
    ⟨⟨Or.inl (by decide +kernel), hpremine⟩, by decide +kernel⟩
  exact ⟨hfirst, hsecond, trivial⟩

theorem mainChainLinks_premine :
    (run (step (mainNode calm)) (.init listPool) premineRun).pindexBest = some premineHash ∧
      MainChainLinks (mainNode calm) (run (step (mainNode calm)) (.init listPool) premineRun) := by
  refine ⟨by decide +kernel, ?_⟩
  exact (mainChainLinks_throughout (mainNode calm) premineRun succeeds_premine).last

end Running

end UmbrellaLtc.MainChain
