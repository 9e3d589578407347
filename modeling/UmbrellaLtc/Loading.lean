import UmbrellaLtc.IndexSteps

/-!
LoadBlockIndexDB. The block index that it makes of the records on disk is a tree
again, whatever of the records is there; linked to the best block of the coins
database it is in order. When every entry had been written, entries, links and
chain work come back as they were.
-/

namespace UmbrellaLtc.Loading

open Codec Transaction Header Coins CoinsView CheckBlock ConnectBlock BestChain ChainFrame
  ChainLinks Reorganise IndexSteps Prog

variable {M : Type} (node : Node M)

section Guts

/-- The entry that is made of two records. -/
def loaded (d : CDiskBlockIndex) (status : StatusRecord) : CBlockIndex :=
  { CBlockIndex.blank with
    pprev := if d.hashPrev = 0 then none else some d.hashPrev
    nHeight := d.nHeight
    nTx := d.nTx
    nStatus := status.nStatus
    header := d.header
    undo := status.undo }

theorem toDisk_loaded (d : CDiskBlockIndex) (status : StatusRecord) :
    (loaded d status).toDisk = d := by
  have hprev : (if d.hashPrev = 0 then none else some d.hashPrev).getD 0 = d.hashPrev := by
    split_ifs with hzero
    · exact hzero.symm
    · rfl
  show CDiskBlockIndex.mk ((if d.hashPrev = 0 then none else some d.hashPrev).getD 0) d.nHeight
    d.nTx d.header = d
  rw [hprev]

theorem lookup_insertBlockIndex (map : BlockMap) (h t : Uint256) :
    (insertBlockIndex map h).lookup t =
      if t = h ∧ h ≠ 0 then some ((map.lookup t).getD .blank) else map.lookup t := by
  unfold insertBlockIndex
  by_cases hkeep : h = 0 ∨ (map.lookup h).isSome
  · rw [if_pos hkeep]
    split_ifs with ht
    · obtain ⟨rfl, hne⟩ := ht
      rcases hkeep with hzero | hsome
      · exact absurd hzero hne
      · obtain ⟨e, he⟩ := Option.isSome_iff_exists.mp hsome
        rw [he]
        rfl
    · rfl
  · rw [if_neg hkeep]
    obtain ⟨hne, hsome⟩ := not_or.mp hkeep
    have hnone : map.lookup h = none := Option.not_isSome_iff_eq_none.mp hsome
    by_cases ht : t = h
    · rw [if_pos ⟨ht, hne⟩, ht, AList.lookup_insert, hnone]
      rfl
    · rw [if_neg fun hboth => ht hboth.1, AList.lookup_insert_ne ht]

abbrev Record := Sigma fun _ : Uint256 => CDiskBlockIndex

/-- The block index after some of the records. -/
structure Guts (done : List Record) (map : BlockMap) : Prop where
  records : ∀ r ∈ done, ∃ status, map.lookup r.1 = some (loaded r.2 status)
  others : ∀ h, (∀ r ∈ done, r.1 ≠ h) → ∀ e, map.lookup h = some e → e = .blank
  parents : ∀ r ∈ done, r.2.hashPrev ≠ 0 → (map.lookup r.2.hashPrev).isSome
  needed : ∀ h, (map.lookup h).isSome → ∃ r ∈ done, r.1 = h ∨ r.2.hashPrev = h ∧ h ≠ 0

theorem lookup_loadEntry {tree : CBlockTreeDB} {map map' : BlockMap} {r : Record}
    (h : loadEntry node tree map r = .ok map')
    (hblank : ∀ e, map.lookup r.1 = some e → e = .blank) :
    ∃ status, ∀ t, map'.lookup t = if t = r.1 then some (loaded r.2 status)
      else if t = r.2.hashPrev ∧ r.2.hashPrev ≠ 0 then some ((map.lookup t).getD .blank)
      else map.lookup t := by
  have hblank₁ : ((insertBlockIndex (insertBlockIndex map r.1) r.2.hashPrev).lookup r.1).getD
      .blank = .blank := by
    have hget : (map.lookup r.1).getD .blank = .blank := by
      cases he : map.lookup r.1 with
      | none => rfl
      | some e => exact hblank e he
    rw [lookup_insertBlockIndex, lookup_insertBlockIndex]
    split_ifs <;> simp [hget]
  unfold loadEntry at h
  dsimp only at h
  by_cases hbad : r.1 = 0 ∨ r.2.calcBlockHash node.Hash ≠ r.1
  · rw [if_pos hbad] at h
    cases h
  · rw [if_neg hbad, hblank₁] at h
    cases hstatus : readMutable node tree r.1 with
    | error e =>
      rw [hstatus] at h
      cases h
    | ok status =>
      rw [hstatus] at h
      obtain rfl := Except.ok.inj h
      refine ⟨status, fun t => ?_⟩
      by_cases ht : t = r.1
      · rw [ht, AList.lookup_insert, if_pos rfl]
        rfl
      · rw [AList.lookup_insert_ne ht, if_neg ht, lookup_insertBlockIndex,
          lookup_insertBlockIndex, if_neg fun hboth : t = r.1 ∧ _ => ht hboth.1]

/-- One record more. -/
theorem Guts.step {tree : CBlockTreeDB} {done : List Record} {map map' : BlockMap} {r : Record}
    (hg : Guts done map) (hnew : ∀ q ∈ done, q.1 ≠ r.1)
    (h : loadEntry node tree map r = .ok map') : Guts (r :: done) map' := by
  obtain ⟨status, hlookup⟩ := lookup_loadEntry node h (hg.others r.1 hnew)
  constructor
  · intro q hq
    rw [hlookup]
    rcases List.mem_cons.mp hq with rfl | hmem
    · exact ⟨status, if_pos rfl⟩
    · obtain ⟨old, hold⟩ := hg.records q hmem
      refine ⟨old, ?_⟩
      rw [if_neg (hnew q hmem), hold]
      split_ifs
      · rfl
      · rfl
  · intro t ht e he
    have htr : t ≠ r.1 := fun heq => ht r List.mem_cons_self heq.symm
    have hold := hg.others t fun q hq => ht q (List.mem_cons_of_mem _ hq)
    rw [hlookup, if_neg htr] at he
    split_ifs at he
    · obtain rfl := Option.some.inj he
      cases hmap : map.lookup t with
      | none => rfl
      | some e => exact hold e hmap
    · exact hold e he
  · intro q hq hne
    rw [hlookup]
    split_ifs with hself hprev
    · rfl
    · rfl
    · rcases List.mem_cons.mp hq with rfl | hmem
      · exact absurd ⟨rfl, hne⟩ hprev
      · exact hg.parents q hmem hne
  · intro t ht
    rw [hlookup] at ht
    split_ifs at ht with hself hprev
    · exact ⟨r, List.mem_cons_self, Or.inl hself.symm⟩
    · exact ⟨r, List.mem_cons_self, Or.inr ⟨hprev.1.symm, hprev.1 ▸ hprev.2⟩⟩
    · obtain ⟨q, hq, hcase⟩ := hg.needed t ht
      exact ⟨q, List.mem_cons_of_mem _ hq, hcase⟩

/-- The loop over the records. -/
theorem guts_foldlM {tree : CBlockTreeDB} (l : List Record) {done : List Record}
    {map map' : BlockMap} (hg : Guts done map) (hl : l.NodupKeys)
    (hnew : ∀ r ∈ l, ∀ q ∈ done, q.1 ≠ r.1)
    (h : l.foldlM (loadEntry node tree) map = .ok map') :
    Guts (l.reverse ++ done) map' := by
  induction l generalizing done map with
  | nil =>
    cases h
    exact hg
  | cons r rest ih =>
    rw [List.foldlM_cons] at h
    cases hstep : loadEntry node tree map r with
    | error e =>
      rw [hstep] at h
      cases h
    | ok map₁ =>
      rw [hstep] at h
      have hkeys := List.nodupKeys_cons.mp hl
      rw [List.reverse_cons, List.append_assoc]
      apply ih (hg.step node (hnew r List.mem_cons_self) hstep) hkeys.2 _ h
      intro q hq p hp
      rcases List.mem_cons.mp hp with rfl | hmem
      · intro heq
        apply hkeys.1
        rw [heq]
        exact List.mem_keys_of_mem hq
      · exact hnew q (List.mem_cons_of_mem _ hq) p hmem

/-- The block index of a database: the entries of the records, and empty ones for the
previous blocks that have none. -/
structure Indexed (tree : CBlockTreeDB) (map : BlockMap) : Prop where
  records : ∀ h d, tree.diskIndex.lookup h = some d →
    ∃ status, map.lookup h = some (loaded d status)
  others : ∀ h, tree.diskIndex.lookup h = none → ∀ e, map.lookup h = some e → e = .blank
  parents : ∀ h d, tree.diskIndex.lookup h = some d → d.hashPrev ≠ 0 →
    (map.lookup d.hashPrev).isSome
  needed : ∀ h, (map.lookup h).isSome → (tree.diskIndex.lookup h).isSome ∨
    ∃ t d, tree.diskIndex.lookup t = some d ∧ d.hashPrev = h ∧ h ≠ 0

theorem indexed_of_guts {tree : CBlockTreeDB} {map : BlockMap}
    (h : loadBlockIndexGuts node tree = .ok map) : Indexed tree map := by
  have hempty : Guts [] (∅ : BlockMap) := by
    constructor
    · intro r hr
      exact absurd hr List.not_mem_nil
    · intro t _ e he
      cases he
    · intro r hr
      exact absurd hr List.not_mem_nil
    · intro t ht
      cases ht
  have hg := guts_foldlM node _ hempty tree.diskIndex.nodupKeys
    (fun _ _ q hq => absurd hq List.not_mem_nil) h
  rw [List.append_nil] at hg
  have hmem : ∀ t d, tree.diskIndex.lookup t = some d ↔
      (⟨t, d⟩ : Record) ∈ tree.diskIndex.entries.reverse := by
    intro t d
    rw [List.mem_reverse]
    exact AList.mem_lookup_iff
  constructor
  · intro t d hd
    exact hg.records ⟨t, d⟩ ((hmem t d).mp hd)
  · intro t ht
    apply hg.others t
    intro r hr heq
    have hsome := (hmem r.1 r.2).mpr hr
    rw [heq, ht] at hsome
    cases hsome
  · intro t d hd
    exact hg.parents ⟨t, d⟩ ((hmem t d).mp hd)
  · intro t ht
    obtain ⟨r, hr, hcase⟩ := hg.needed t ht
    have hsome := (hmem r.1 r.2).mpr hr
    rcases hcase with heq | ⟨hprev, hne⟩
    · left
      rw [← heq, hsome]
      rfl
    · exact Or.inr ⟨r.1, r.2, hsome, hprev, hne⟩

end Guts

section Working

/-- An entry without what the loop over vSortedByHeight computes. -/
def noWork (e : CBlockIndex) : CBlockIndex := { e with nChainWork := 0, nChainTx := 0 }

/-- The same entries but for their chain work, and another set. -/
structure Reworked (s s' : ChainState M) : Prop where
  entries : ∀ h, (s'.entry h).map noWork = (s.entry h).map noWork
  rest : s' = { s with
    mapBlockIndex := s'.mapBlockIndex, setBlockIndexValid := s'.setBlockIndexValid }

theorem Reworked.trans {s t u : ChainState M} (hst : Reworked s t) (htu : Reworked t u) :
    Reworked s u := by
  constructor
  · intro h
    exact (htu.entries h).trans (hst.entries h)
  · rw [htu.rest, hst.rest]

theorem Reworked.parent_eq {s s' : ChainState M} (h : Reworked s s') : parent s' = parent s := by
  funext t
  show (s'.entry t).bind (CBlockIndex.pprev ∘ noWork) = (s.entry t).bind (CBlockIndex.pprev ∘ noWork)
  rw [← Option.bind_map, ← Option.bind_map, h.entries t]

theorem Reworked.height_eq {s s' : ChainState M} (h : Reworked s s') : s'.height = s.height := by
  funext t
  show (s'.entry t).elim 0 (CBlockIndex.nHeight ∘ noWork) =
    (s.entry t).elim 0 (CBlockIndex.nHeight ∘ noWork)
  rw [← Option.elim_map, ← Option.elim_map, h.entries t]

theorem Reworked.isSome_eq {s s' : ChainState M} (h : Reworked s s') (t : Uint256) :
    (s'.entry t).isSome = (s.entry t).isSome := by
  have hmap := congrArg Option.isSome (h.entries t)
  rwa [Option.isSome_map, Option.isSome_map] at hmap

/-- What one round computes. -/
def reworkEntry (s : ChainState M) (e : CBlockIndex) : CBlockIndex :=
  { e with
    nChainWork := (e.pprev.bind s.entry).elim 0 CBlockIndex.nChainWork + e.getBlockWork
    nChainTx := (e.pprev.bind s.entry).elim 0 CBlockIndex.nChainTx + e.nTx }

theorem entry_insertValid (s : ChainState M) (h t : Uint256) :
    (s.insertValid h).entry t = s.entry t := by
  unfold ChainState.insertValid
  split_ifs
  · rfl
  · rfl

/-- A round changes the work of one entry, and may put the entry into the set. -/
theorem loadChainWork_cases {s : ChainState M} {h : Uint256} {e : CBlockIndex}
    (he : s.entry h = some e) :
    ∃ s₁ : ChainState M, (∀ t, s₁.entry t = if t = h then some (reworkEntry s e) else s.entry t) ∧
      s₁ = { s with mapBlockIndex := s₁.mapBlockIndex } ∧
      (loadChainWork s h = s₁ ∨ loadChainWork s h = s₁.insertValid h ∧ e.failed = false) := by
  refine ⟨s.modify h fun e' => { e' with
    nChainWork := (e.pprev.bind s.entry).elim 0 CBlockIndex.nChainWork + e'.getBlockWork
    nChainTx := (e.pprev.bind s.entry).elim 0 CBlockIndex.nChainTx + e'.nTx }, ?_, ?_, ?_⟩
  · intro t
    rw [entry_modify]
    split_ifs with ht
    · rw [ht, he]
      rfl
    · rfl
  · exact modify_eq s h _
  · unfold loadChainWork
    rw [he]
    dsimp only
    split_ifs with hvalid
    · exact Or.inr ⟨rfl, hvalid.2⟩
    · exact Or.inl rfl

theorem entry_loadChainWork (s : ChainState M) (h t : Uint256) :
    (loadChainWork s h).entry t =
      if t = h then (s.entry h).map (reworkEntry s) else s.entry t := by
  cases he : s.entry h with
  | none =>
    unfold loadChainWork
    rw [he]
    split_ifs with ht
    · rw [ht]
      exact he
    · rfl
  | some e =>
    obtain ⟨s₁, hentry, -, hround | ⟨hround, -⟩⟩ := loadChainWork_cases he
    · rw [hround]
      exact hentry t
    · rw [hround, entry_insertValid]
      exact hentry t

theorem reworked_loadChainWork (s : ChainState M) (h : Uint256) :
    Reworked s (loadChainWork s h) := by
  constructor
  · intro t
    rw [entry_loadChainWork]
    split_ifs with ht
    · rw [ht, Option.map_map]
      rfl
    · rfl
  · cases he : s.entry h with
    | none =>
      unfold loadChainWork
      rw [he]
    | some e =>
      obtain ⟨s₁, -, hrest, hround | ⟨hround, -⟩⟩ := loadChainWork_cases he
      · rw [hround, hrest]
      · rw [hround, hrest]
        unfold ChainState.insertValid
        split_ifs
        · rfl
        · rfl

theorem reworked_foldl (l : List Uint256) (s : ChainState M) :
    Reworked s (l.foldl loadChainWork s) := by
  induction l generalizing s with
  | nil => exact ⟨fun _ => rfl, rfl⟩
  | cons h rest ih => exact (reworked_loadChainWork s h).trans (ih _)

end Working

/-- A state that has the entries of a database, whatever their chain work. -/
structure HasIndex (tree : CBlockTreeDB) (s : ChainState M) : Prop where
  index : ∃ map, Indexed tree map ∧ ∀ h, (s.entry h).map noWork = (map.lookup h).map noWork
  diskIndex : s.blockTree.diskIndex = tree.diskIndex

section Tree

variable {tree : CBlockTreeDB} {s₀ s : ChainState M}

theorem HasIndex.record (h : HasIndex tree s) {t : Uint256} {d : CDiskBlockIndex}
    (hd : tree.diskIndex.lookup t = some d) :
    ∃ e status, s.entry t = some e ∧ noWork e = loaded d status := by
  obtain ⟨map, hix, hentries⟩ := h.index
  obtain ⟨status, hstatus⟩ := hix.records t d hd
  have hmap := hentries t
  rw [hstatus] at hmap
  cases he : s.entry t with
  | none =>
    rw [he] at hmap
    cases hmap
  | some e =>
    rw [he] at hmap
    exact ⟨e, status, rfl, Option.some.inj hmap⟩

theorem HasIndex.noRecord (h : HasIndex tree s) {t : Uint256} {e : CBlockIndex}
    (hd : tree.diskIndex.lookup t = none) (he : s.entry t = some e) : noWork e = .blank := by
  obtain ⟨map, hix, hentries⟩ := h.index
  have hmap := hentries t
  rw [he] at hmap
  cases hl : map.lookup t with
  | none =>
    rw [hl] at hmap
    cases hmap
  | some e' =>
    rw [hl, hix.others t hd e' hl] at hmap
    exact Option.some.inj hmap

theorem HasIndex.isSome_of_prev (h : HasIndex tree s) {t : Uint256} {d : CDiskBlockIndex}
    (hd : tree.diskIndex.lookup t = some d) (hne : d.hashPrev ≠ 0) :
    (s.entry d.hashPrev).isSome := by
  obtain ⟨map, hix, hentries⟩ := h.index
  have hmap := congrArg Option.isSome (hentries d.hashPrev)
  rw [Option.isSome_map, Option.isSome_map] at hmap
  rw [hmap]
  exact hix.parents t d hd hne

/-- A parent in the block index is the previous block of a record. -/
theorem HasIndex.parent_cases (h : HasIndex tree s) {c p : Uint256}
    (hp : parent s c = some p) :
    ∃ d, tree.diskIndex.lookup c = some d ∧ d.hashPrev = p ∧ p ≠ 0 ∧ s.height c = d.nHeight := by
  cases he : s.entry c with
  | none =>
    rw [parent, he] at hp
    cases hp
  | some e =>
    rw [parent_of_entry he] at hp
    cases hd : tree.diskIndex.lookup c with
    | none =>
      have hpprev : e.pprev = none := congrArg CBlockIndex.pprev (h.noRecord hd he)
      rw [hpprev] at hp
      cases hp
    | some d =>
      obtain ⟨e', status, he', hload⟩ := h.record hd
      obtain rfl : e = e' := Option.some.inj (he.symm.trans he')
      have hpprev : e.pprev = if d.hashPrev = 0 then none else some d.hashPrev :=
        congrArg CBlockIndex.pprev hload
      have hheight : e.nHeight = d.nHeight := congrArg CBlockIndex.nHeight hload
      rw [hpprev] at hp
      split_ifs at hp with hzero
      obtain rfl := Option.some.inj hp
      exact ⟨d, rfl, rfl, hzero, (height_of_entry he).trans hheight⟩

/-- The heights of a loaded index are those of the entries that were written, or zero. -/
theorem HasIndex.height_le (h : HasIndex s₀.blockTree s) (hs : Tree s₀) (t : Uint256) :
    s.height t ≤ s₀.height t := by
  cases he : s.entry t with
  | none =>
    rw [ChainState.height, he]
    exact Nat.zero_le _
  | some e =>
    rw [height_of_entry he]
    cases hd : s₀.blockTree.diskIndex.lookup t with
    | none =>
      have hheight : e.nHeight = 0 := congrArg CBlockIndex.nHeight (h.noRecord hd he)
      omega
    | some d =>
      obtain ⟨e', status, he', hload⟩ := h.record hd
      obtain rfl : e = e' := Option.some.inj (he.symm.trans he')
      obtain ⟨e₀, he₀, hdisk⟩ := hs.stored t d hd
      have hheight : e.nHeight = d.nHeight := congrArg CBlockIndex.nHeight hload
      have hheight₀ : e₀.nHeight = d.nHeight := congrArg CDiskBlockIndex.nHeight hdisk
      rw [height_of_entry he₀]
      omega

/-- The previous block of a record was the parent of the entry. -/
theorem parent_of_record (hs : Tree s₀) {c : Uint256} {d : CDiskBlockIndex}
    (hd : s₀.blockTree.diskIndex.lookup c = some d) (hne : d.hashPrev ≠ 0) :
    parent s₀ c = some d.hashPrev ∧ s₀.height c = d.nHeight := by
  obtain ⟨e, he, hdisk⟩ := hs.stored c d hd
  have hprev : e.pprev.getD 0 = d.hashPrev := congrArg CDiskBlockIndex.hashPrev hdisk
  have hheight : e.nHeight = d.nHeight := congrArg CDiskBlockIndex.nHeight hdisk
  rw [parent_of_entry he, height_of_entry he]
  refine ⟨?_, hheight⟩
  cases hp : e.pprev with
  | none =>
    rw [hp] at hprev
    exact absurd hprev.symm hne
  | some p =>
    rw [hp] at hprev
    exact congrArg some hprev

/-- What is loaded from the records of a tree is a tree. -/
theorem HasIndex.isTree (h : HasIndex s₀.blockTree s) (hs : Tree s₀) : Tree s := by
  constructor
  · intro c p hp
    obtain ⟨d, hd, rfl, hne, -⟩ := h.parent_cases hp
    exact h.isSome_of_prev hd hne
  · intro c p hp
    obtain ⟨d, hd, rfl, hne, hheight⟩ := h.parent_cases hp
    obtain ⟨hparent, hold⟩ := parent_of_record hs hd hne
    have hlt := hs.graded c d.hashPrev hparent
    have hle := h.height_le hs d.hashPrev
    omega
  · intro t d hd
    rw [h.diskIndex] at hd
    obtain ⟨e, status, he, hload⟩ := h.record hd
    refine ⟨e, he, ?_⟩
    rw [← toDisk_loaded d status, ← hload]
    rfl

theorem HasIndex.next_none (h : HasIndex tree s) : next s = fun _ => none := by
  funext t
  cases he : s.entry t with
  | none =>
    rw [next, he]
    rfl
  | some e =>
    rw [next, he]
    show e.pnext = none
    cases hd : tree.diskIndex.lookup t with
    | none => exact congrArg CBlockIndex.pnext (h.noRecord hd he)
    | some d =>
      obtain ⟨e', status, he', hload⟩ := h.record hd
      obtain rfl : e = e' := Option.some.inj (he.symm.trans he')
      exact congrArg CBlockIndex.pnext hload

end Tree

section Best

variable {s s' : ChainState M}

/-- The links are set along the whole branch of the best block. -/
theorem linkBestChain_ok {fuel : ℕ} {h : Uint256} (hs : linkBestChain fuel h s = .ok s') :
    ∃ l, Forest.Branch (parent s) (some h) l none ∧ s' = setLinks some l s := by
  induction fuel generalizing h s with
  | zero => cases hs
  | succ fuel ih =>
    unfold linkBestChain at hs
    cases hp : parent s h with
    | none =>
      rw [show (s.entry h).bind CBlockIndex.pprev = none from hp] at hs
      have hsame := Except.ok.inj hs
      subst hsame
      refine ⟨[h], .cons ?_, ?_⟩
      · rw [hp]
        exact .nil none
      · show s = (parent s h).elim s _
        rw [hp]
        rfl
    | some p =>
      rw [show (s.entry h).bind CBlockIndex.pprev = some p from hp] at hs
      obtain ⟨l, hl, rfl⟩ := ih hs
      have hsame : SameTree s (s.setPnext p (some h)) :=
        sameTree_of_unlinked (unlinked_setPnext s p (some h)) (by
          rw [ChainState.setPnext, modify_eq])
      rw [hsame.parent_eq] at hl
      refine ⟨h :: l, .cons ?_, ?_⟩
      · rw [hp]
        exact hl
      · show _ = setLinks some l ((parent s h).elim s _)
        rw [hp]
        rfl

theorem linkBestChain_ne {fuel : ℕ} {h : Uint256} (hs : Tree s) (hfuel : s.height h < fuel) :
    ∃ s', linkBestChain fuel h s = .ok s' := by
  induction fuel generalizing h s with
  | zero => omega
  | succ fuel ih =>
    unfold linkBestChain
    cases hp : parent s h with
    | none =>
      rw [show (s.entry h).bind CBlockIndex.pprev = none from hp]
      exact ⟨s, rfl⟩
    | some p =>
      rw [show (s.entry h).bind CBlockIndex.pprev = some p from hp]
      have hsame : SameTree s (s.setPnext p (some h)) :=
        sameTree_of_unlinked (unlinked_setPnext s p (some h)) (by
          rw [ChainState.setPnext, modify_eq])
      have hlt := hs.graded h p hp
      apply ih (hsame.tree hs)
      rw [hsame.height_eq]
      omega

/-- A tree without links, and a best block among its entries: the links are set to it. -/
theorem linkBestChain_inv {fuel : ℕ} {b : Uint256} (hs : Tree s) (hnext : next s = fun _ => none)
    (hbest : s.pindexBest = some b) (hb : BestIs s b)
    (hcoins : s.pcoinsTip.flat.best = some (s.ptr b)) (hlink : linkBestChain fuel b s = .ok s') :
    ChainInv s' ∧ SameTree s s' ∧ s'.pindexBest = some b := by
  obtain ⟨l, hl, rfl⟩ := linkBestChain_ok hlink
  obtain ⟨hunlinked, hlinks, hrest⟩ := setLinks_spec some l s hs.known
  have hsame : SameTree s (setLinks some l s) := sameTree_of_unlinked hunlinked (by rw [hrest])
  have hpindex : (setLinks some l s).pindexBest = some b := by
    rw [hrest]
    exact hbest
  refine ⟨⟨hsame.tree hs, ?_, ?_, ?_⟩, hsame, hpindex⟩
  · rw [hpindex, hlinks, hsame.parent_eq, hnext]
    exact Forest.linked_none.switch hs.graded (.nil none) hl fun c => Iff.rfl
  · intro c hc
    obtain rfl := Option.some.inj (hpindex.symm.trans hc)
    constructor
    · rw [hsame.isSome_eq]
      exact hb.known
    · rw [hrest]
      exact hb.hashBestChain
    · rw [hsame.height_eq, hrest]
      exact hb.nBestHeight
    · rw [hsame.read 0 CBlockIndex.nChainWork fun _ => rfl, hrest]
      exact hb.nBestChainWork
  · have hptr : (setLinks some l s).ptr b = s.ptr b := by
      rw [ChainState.ptr, ChainState.ptr, hsame.height_eq]
    rw [hpindex]
    show (setLinks some l s).pcoinsTip.flat.best = some ((setLinks some l s).ptr b)
    rw [hptr, hrest]
    exact hcoins

/-- The block index is linked to the best block of the coins database, if it has it. -/
theorem loadBest_inv (hs : Tree s) (hnext : next s = fun _ => none) (hbest : s.pindexBest = none)
    (hload : loadBest s = .ok s') :
    ChainInv s' ∧ SameTree s s' ∧
      s'.pindexBest = (resolveBest s s.pcoinsTip.base.best).map BlockPtr.hash := by
  unfold loadBest at hload
  dsimp only at hload
  cases hresolve : resolveBest s s.pcoinsTip.base.best with
  | none =>
    rw [hresolve] at hload
    cases hload
    refine ⟨⟨⟨hs.known, hs.graded, hs.stored⟩, ?_, ?_, ?_⟩, ⟨fun _ => rfl, rfl, fun _ h => h⟩, hbest⟩
    · show Forest.Linked (parent s) (next s) s.pindexBest
      rw [hnext, hbest]
      exact Forest.linked_none
    · intro b hb
      rw [show s.pindexBest = some b from hb] at hbest
      cases hbest
    · show none = s.pindexBest.map _
      rw [hbest]
      rfl
  | some p =>
    rw [hresolve] at hload
    dsimp only at hload
    have hp : (s.entry p.hash).isSome ∧ p = s.ptr p.hash := by
      unfold resolveBest at hresolve
      obtain ⟨q, -, hmap⟩ := Option.bind_eq_some_iff.mp hresolve
      obtain ⟨e, he, rfl⟩ := Option.map_eq_some_iff.mp hmap
      dsimp only
      rw [he, ChainState.ptr, height_of_entry he]
      exact ⟨rfl, rfl⟩
    obtain ⟨hinv, hsame, hpindex⟩ := @linkBestChain_inv M
      (setBest p.hash { s with pcoinsTip := .new { s.pcoinsTip.base with best := some p } }) s' _
      p.hash ⟨hs.known, hs.graded, hs.stored⟩ hnext rfl ⟨hp.1, rfl, rfl, rfl⟩
      (congrArg some hp.2) hload
    exact ⟨hinv, ⟨hsame.cores, hsame.diskIndex, hsame.statuses⟩, hpindex⟩

theorem hasIndex_loadIndex {map : BlockMap} (h : loadBlockIndexGuts node s.blockTree = .ok map) :
    HasIndex s.blockTree (loadIndex s map) := by
  have hwork := reworked_foldl (sortedByHeight { s with mapBlockIndex := map })
    { s with mapBlockIndex := map }
  constructor
  · exact ⟨map, indexed_of_guts node h, hwork.entries⟩
  · show ((sortedByHeight _).foldl loadChainWork _).blockTree.diskIndex = _
    rw [hwork.rest]

theorem pindexBest_loadIndex (map : BlockMap) : (loadIndex s map).pindexBest = s.pindexBest := by
  have hwork := reworked_foldl (sortedByHeight { s with mapBlockIndex := map })
    { s with mapBlockIndex := map }
  show ((sortedByHeight _).foldl loadChainWork _).pindexBest = _
  rw [hwork.rest]

/-- LoadBlockIndexDB on the databases of a node that had a tree. -/
theorem loadBlockIndexDB_inv (hs : Tree s) (hload : loadBlockIndexDB node (stopped node s) = .ok s') :
    ChainInv s' := by
  unfold loadBlockIndexDB at hload
  cases hguts : loadBlockIndexGuts node (stopped node s).blockTree with
  | error e =>
    rw [hguts] at hload
    cases hload
  | ok map =>
    rw [hguts] at hload
    have hindex : HasIndex s.blockTree (loadIndex (stopped node s) map) :=
      hasIndex_loadIndex node hguts
    have hbest : (loadIndex (stopped node s) map).pindexBest = none := pindexBest_loadIndex map
    exact (loadBest_inv (hindex.isTree hs) hindex.next_none hbest hload).1

theorem within_shutdown (fShutdown : Bool) : Within Written (shutdown node fShutdown) := by
  refine within_bind (fun s => ⟨rfl, rfl⟩) fun io => ?_
  split_ifs
  · exact within_flushCoins io
  · exact within_pure ()

/-- A restart, whether or not the coins were flushed before it. -/
theorem keeps_restart (fShutdown : Bool) : Keeps True ChainInv (restart node fShutdown) := by
  have hwithin := within_plain (within_shutdown node fShutdown)
  refine keeps_bind (keeps_of_within ?_ hwithin) fun _ => ?_
  · intro s t hst hs
    exact chainInv_written hs hst
  · intro s hs _
    unfold start Prog.run
    dsimp only
    cases hload : loadBlockIndexDB node (stopped node s) with
    | error e => exact hs
    | ok loaded => exact loadBlockIndexDB_inv node hs.tree hload

end Best

end UmbrellaLtc.Loading
