import UmbrellaLtc.BlockTemplate
import UmbrellaLtc.ForkChoice
import UmbrellaLtc.OrderStatistic

/-!
CBlockIndex::GetMedianTimePast over the blocks that AcceptBlock has accepted. The times
of a block and of the ten before it are one window, and the window of a block is
that of its parent with one time more in front. Since AcceptBlock lets no block
through whose time is not above the median of its parent's window, the median
does not fall from parent to child.
-/

namespace UmbrellaLtc.MedianTime

open Codec Transaction Header Coins CoinsView CheckBlock ConnectBlock Guards BestChain ChainFrame
  ChainLinks Reorganise IndexSteps ForkChoice OrphanBlocks OrderStatistic Prog Runs
open BlockTemplate (updateTime)
open ChainRuns (genesisHash)

variable {M : Type}

section Windows

variable {s s' : ChainState M}

/-- More fuel than the height asks for changes nothing. -/
theorem ancestors_succ (hs : Forest.Graded (parent s) s.height) {fuel : ℕ} {x : Option Uint256}
    (hfuel : walkFuel s x ≤ fuel) : ancestors s (fuel + 1) x = ancestors s fuel x := by
  induction fuel generalizing x with
  | zero => exact absurd hfuel (walkFuel_pos x)
  | succ fuel ih =>
    cases x with
    | none => rfl
    | some h =>
      unfold ancestors
      rw [Option.bind_some]
      cases he : s.entry h with
      | none => rfl
      | some e => exact congrArg (e :: ·) (ih (walkFuel_pprev hs he hfuel))

theorem ancestors_enough (hs : Forest.Graded (parent s) s.height) {fuel : ℕ}
    {x : Option Uint256} (hfuel : walkFuel s x ≤ fuel) :
    ancestors s fuel x = ancestors s (walkFuel s x) x := by
  induction fuel, hfuel using Nat.le_induction with
  | base => rfl
  | succ fuel hle ih => exact (ancestors_succ hs hle).trans ih

theorem blockChain_cons (hs : Forest.Graded (parent s) s.height) {h p : Uint256}
    {e : CBlockIndex} (he : s.entry h = some e) (hp : e.pprev = some p) :
    blockChain s h = e :: blockChain s p := by
  have hstep : blockChain s h = e :: ancestors s (s.height h + 1) e.pprev := by
    show ancestors s (s.height h + 1 + 1) (some h) = _
    rw [ancestors, Option.bind_some, he]
  have hfuel : walkFuel s e.pprev ≤ s.height h + 1 := walkFuel_pprev hs he (Nat.le_refl _)
  rw [hstep, ancestors_enough hs hfuel, hp]
  rfl

/-- The times that GetMedianTimePast sorts, the latest block first. -/
def window (s : ChainState M) (h : Uint256) : List ℕ :=
  ((blockChain s h).take nMedianTimeSpan).map fun e => e.header.nTime.toNat

theorem getMedianTimePast_eq (s : ChainState M) (h : Uint256) :
    getMedianTimePast s h = upperMedian (window s h) 0 := rfl

theorem window_cons (hs : Forest.Graded (parent s) s.height) {h p : Uint256} {e : CBlockIndex}
    (he : s.entry h = some e) (hp : e.pprev = some p) :
    window s h = (e.header.nTime.toNat :: window s p).take nMedianTimeSpan := by
  unfold window
  rw [blockChain_cons hs he hp, List.map_take, List.map_take, List.map_cons]
  unfold nMedianTimeSpan
  rw [List.take_succ_cons, List.take_succ_cons, List.take_take]
  rfl

theorem window_length_le (s : ChainState M) (h : Uint256) :
    (window s h).length ≤ nMedianTimeSpan := by
  unfold window
  rw [List.length_map]
  exact List.length_take_le _ _

theorem window_ne_nil {h : Uint256} (hknown : (s.entry h).isSome) : window s h ≠ [] := by
  obtain ⟨e, he⟩ := Option.isSome_iff_exists.mp hknown
  have hstep : blockChain s h = e :: ancestors s (s.height h + 1) e.pprev := by
    show ancestors s (s.height h + 1 + 1) (some h) = _
    rw [ancestors, Option.bind_some, he]
  unfold window
  rw [hstep]
  exact List.cons_ne_nil _ _

theorem SameCores.ancestors (h : SameCores s s') (fuel : ℕ) (x : Option Uint256) :
    (ancestors s' fuel x).map core = (ancestors s fuel x).map core := by
  induction fuel generalizing x with
  | zero => rfl
  | succ fuel ih =>
    cases x with
    | none => rfl
    | some t =>
      have hcore := h t
      unfold OrphanBlocks.ancestors
      rw [Option.bind_some, Option.bind_some]
      cases he : s.entry t with
      | none =>
        rw [he, Option.map_none, Option.map_eq_none_iff] at hcore
        rw [hcore]
      | some e =>
        rw [he, Option.map_some] at hcore
        obtain ⟨e', he', heq⟩ := Option.map_eq_some_iff.mp hcore
        have hpprev : (core e').pprev = (core e).pprev := congrArg CBlockIndex.pprev heq
        rw [he']
        show core e' :: (OrphanBlocks.ancestors s' fuel (core e').pprev).map core = core e :: _
        rw [hpprev, heq, ih]
        rfl

theorem SameCores.getMedianTimePast (h : SameCores s s') (t : Uint256) :
    getMedianTimePast s' t = getMedianTimePast s t := by
  have hwindow : ∀ l : List CBlockIndex, (l.take nMedianTimeSpan).map (fun e =>
      e.header.nTime.toNat) = ((l.map core).take nMedianTimeSpan).map fun e =>
      e.header.nTime.toNat := by
    intro l
    rw [← List.map_take, List.map_map]
    rfl
  have hchain : (blockChain s' t).map core = (blockChain s t).map core := by
    unfold blockChain walkFuel
    rw [h.height_eq]
    exact SameCores.ancestors h _ _
  rw [getMedianTimePast_eq, getMedianTimePast_eq, window, window, hwindow, hchain, ← hwindow]

end Windows

section Rule

variable {s s' : ChainState M}

/-- Each block is one higher than its parent, and its time is above the median of the
times of its parent and of the ten blocks before that one. -/
structure Timed (s : ChainState M) : Prop where
  above : ∀ h e p, s.entry h = some e → e.pprev = some p →
    ∃ d, s.entry p = some d ∧ e.nHeight = d.nHeight + 1
  later : ∀ h e p, s.entry h = some e → e.pprev = some p →
    getMedianTimePast s p < e.header.nTime.toNat

theorem Timed.graded (hs : Timed s) : Forest.Graded (parent s) s.height := by
  intro c p hcp
  obtain ⟨e, he, hp⟩ := Option.bind_eq_some_iff.mp hcp
  obtain ⟨d, hd, hheight⟩ := hs.above c e p he hp
  rw [height_of_entry he, height_of_entry hd]
  omega

theorem timed_of_roots (h : ∀ t e, s.entry t = some e → e.pprev = none) : Timed s := by
  have habs : ∀ t e p, s.entry t = some e → e.pprev ≠ some p := by
    intro t e p he hp
    rw [h t e he] at hp
    cases hp
  exact ⟨fun t e p he hp => absurd hp (habs t e p he),
    fun t e p he hp => absurd hp (habs t e p he)⟩

/-- The median does not fall from a parent to its child. -/
theorem Timed.rises (hs : Timed s) {h p : Uint256} {e : CBlockIndex} (he : s.entry h = some e)
    (hp : e.pprev = some p) : getMedianTimePast s p ≤ getMedianTimePast s h := by
  obtain ⟨d, hd, -⟩ := hs.above h e p he hp
  have hlater := hs.later h e p he hp
  have hne : window s p ≠ [] := window_ne_nil (by rw [hd]; rfl)
  rw [getMedianTimePast_eq] at hlater
  rw [getMedianTimePast_eq, getMedianTimePast_eq, window_cons hs.graded he hp]
  exact upperMedian_le_slide hne (window_length_le s p) hlater.le

theorem Timed.cores (hs : Timed s) (h : SameCores s s') : Timed s' := by
  constructor
  · intro t e' p he' hp'
    obtain ⟨e, he, heq⟩ := h.entry_core he'
    have hp : (core e).pprev = some p := by
      rw [heq]
      exact hp'
    obtain ⟨d, hd, hheight⟩ := hs.above t e p he hp
    have hcore := h p
    rw [hd] at hcore
    obtain ⟨d', hd', hdeq⟩ := Option.map_eq_some_iff.mp hcore
    refine ⟨d', hd', ?_⟩
    show (core e').nHeight = (core d').nHeight + 1
    rw [← heq, hdeq]
    exact hheight
  · intro t e' p he' hp'
    obtain ⟨e, he, heq⟩ := h.entry_core he'
    have hp : (core e).pprev = some p := by
      rw [heq]
      exact hp'
    rw [SameCores.getMedianTimePast h]
    show _ < (core e').header.nTime.toNat
    rw [← heq]
    exact hs.later t e p he hp

/-- A new entry is no ancestor of the others. -/
theorem Grown.ancestors {hash : Uint256} {e : CBlockIndex} (h : Grown s s' hash e) (hs : Timed s)
    (hnew : s.entry hash = none) (fuel : ℕ) {x : Option Uint256} (hx : x ≠ some hash) :
    ancestors s' fuel x = ancestors s fuel x := by
  induction fuel generalizing x with
  | zero => rfl
  | succ fuel ih =>
    cases x with
    | none => rfl
    | some t =>
      have ht : t ≠ hash := fun heq => hx (congrArg some heq)
      unfold OrphanBlocks.ancestors
      rw [Option.bind_some, Option.bind_some, h.entry_ne ht]
      cases he : s.entry t with
      | none => rfl
      | some d =>
        refine congrArg (d :: ·) (ih fun hprev => ?_)
        obtain ⟨d', hd', -⟩ := hs.above t d hash he hprev
        rw [hnew] at hd'
        cases hd'

theorem Grown.getMedianTimePast {hash : Uint256} {e : CBlockIndex} (h : Grown s s' hash e)
    (hs : Timed s) (hnew : s.entry hash = none) {t : Uint256} (ht : t ≠ hash) :
    getMedianTimePast s' t = getMedianTimePast s t := by
  have hchain : blockChain s' t = blockChain s t := by
    unfold blockChain walkFuel
    rw [Option.elim_some, Option.elim_some, h.height_ne ht]
    exact Grown.ancestors h hs hnew _ fun heq => ht (Option.some.inj heq)
  rw [getMedianTimePast_eq, getMedianTimePast_eq, window, window, hchain]

/-- The entry of a block whose time is above the median of its parent's window. -/
theorem Timed.grown {block : CBlock} {hash : Uint256} (hs : Timed s)
    (h : Grown s s' hash (leaf s block)) (hnew : s.entry hash = none)
    (hlater : ∀ p, (leaf s block).pprev = some p →
      getMedianTimePast s p < block.header.fields.nTime.toNat) : Timed s' := by
  have hold : ∀ t d, s.entry t = some d → t ≠ hash := by
    intro t d hd heq
    rw [heq, hnew] at hd
    cases hd
  have hparent : ∀ t e p, s'.entry t = some e → e.pprev = some p →
      ∃ d, s.entry p = some d ∧ e.nHeight = d.nHeight + 1 := by
    intro t e p he hp
    rw [h.entry] at he
    split_ifs at he with ht
    · obtain rfl := Option.some.inj he
      rcases leaf_cases s block with ⟨d, hd, hprev, hheight, -⟩ | ⟨-, hnone, -⟩
      · obtain rfl := Option.some.inj (hprev.symm.trans hp)
        exact ⟨d, hd, hheight⟩
      · rw [hnone] at hp
        cases hp
    · exact hs.above t e p he hp
  constructor
  · intro t e p he hp
    obtain ⟨d, hd, hheight⟩ := hparent t e p he hp
    refine ⟨d, ?_, hheight⟩
    rw [h.entry_ne (hold p d hd)]
    exact hd
  · intro t e p he hp
    obtain ⟨d, hd, -⟩ := hparent t e p he hp
    rw [Grown.getMedianTimePast h hs hnew (hold p d hd)]
    rw [h.entry] at he
    split_ifs at he with ht
    · obtain rfl := Option.some.inj he
      exact hlater p hp
    · exact hs.later t e p he hp

end Rule

section Accepting

variable (node : Node M) (rules : Rules)

/-- What AcceptBlock's timestamp check asks of a block. -/
def Timely (s : ChainState M) (block : CBlock) : Prop :=
  getMedianTimePast s block.header.fields.hashPrevBlock < block.header.fields.nTime.toNat

instance (s : ChainState M) (block : CBlock) : Decidable (Timely s block) :=
  inferInstanceAs (Decidable (_ < _))

/-- The failure of that check. -/
def tooEarly : Failure := .dos 0 "AcceptBlock() : block's timestamp is too early" false

variable {node rules} {io : Io} {block : CBlock} {s s' : ChainState M}

theorem timely_of_checkParent (h : checkParent node rules io block s = .ok ()) :
    (s.entry block.header.fields.hashPrevBlock).isSome ∧ Timely s block := by
  unfold checkParent at h
  cases hp : s.entry block.header.fields.hashPrevBlock with
  | none =>
    rw [hp] at h
    cases h
  | some pindexPrev =>
    rw [hp] at h
    obtain ⟨nBits, -, h⟩ := (seq_ok_iff _ _ _).mp h
    rw [require_ok_iff, require_ok_iff] at h
    exact ⟨rfl, h.2.1⟩

theorem nextBlockDifficulty_never (fTestNet : Bool) (horizon : Kgw.Horizon) (pindexLast : Uint256) :
    Never (· = tooEarly) (nextBlockDifficulty fTestNet horizon s pindexLast) := by
  rintro e rfl h
  unfold nextBlockDifficulty at h
  cases hd : Kgw.nextBlockDifficulty fTestNet horizon ((blockChain s pindexLast).map infoOf) with
  | ok nBits =>
    rw [hd] at h
    cases h
  | error f =>
    rw [hd] at h
    have hfault : ofKgwFault f = tooEarly := Except.error.inj h
    cases f <;> cases hfault

/-- A timely block is not refused for its timestamp. -/
theorem checkParent_never (h : Timely s block) :
    Never (· = tooEarly) (checkParent node rules io block s) := by
  unfold checkParent
  cases s.entry block.header.fields.hashPrevBlock with
  | none => exact never_error (by decide)
  | some pindexPrev =>
    refine never_bind (nextBlockDifficulty_never _ _ _) fun nBits _ => ?_
    refine never_guard (by decide) fun _ => never_of_holds h ?_
    refine never_guard (by decide) fun _ => never_guard (by decide) fun _ => ?_
    exact never_require _ (by decide)

/-- The index has the genesis block, and its blocks obey the rule. -/
structure Ruled (node : Node M) (s : ChainState M) : Prop where
  timed : Timed s
  genesis : ∀ t, Known s (node.world t).env.genesisHash

theorem Ruled.cores (hs : Ruled node s) (h : SameCores s s') : Ruled node s' :=
  ⟨hs.timed.cores h, fun t => (h.sameKnown _).mpr (hs.genesis t)⟩

/-- AcceptBlock keeps the rule, however it ends. -/
theorem keeps_acceptBlock (fuel : ℕ) (block : CBlock) (dbp : Bool) :
    Keeps True (Ruled node) (acceptBlock node rules fuel block dbp) := by
  intro s hs _
  rcases hrun : (acceptBlock node rules fuel block dbp).run s with ⟨r, s'⟩
  rcases acceptBlock_made hrun with ⟨-, hsame⟩ | ⟨hcheck, hmade⟩
  · exact hs.cores hsame
  have hfresh : s.entry (hashOf node block) = none := hmade.fresh
  have hother : hashOf node block ≠ (node.world s.clock).env.genesisHash := by
    intro heq
    have hknown := hs.genesis s.clock
    unfold Known at hknown
    rw [← heq, hfresh] at hknown
    cases hknown
  unfold checkContext at hcheck
  rw [if_neg (not_not.mpr hfresh), if_pos hother] at hcheck
  obtain ⟨hparent, htimely⟩ := timely_of_checkParent hcheck
  have hne : block.header.fields.hashPrevBlock ≠ hashOf node block := by
    intro heq
    rw [heq, hfresh] at hparent
    cases hparent
  have hsame : SameCores s { s with clock := s.clock + 1 } := fun _ => rfl
  have hcounted := hs.cores hsame
  have hgrown := grown_insertEntry (s := { s with clock := s.clock + 1 }) hne
  refine Ruled.cores ⟨?_, fun t => ?_⟩ hmade.cores
  · refine hcounted.timed.grown hgrown hfresh fun p hp => ?_
    rcases leaf_cases { s with clock := s.clock + 1 } block with ⟨d, -, hprev, -⟩ | ⟨-, hnone, -⟩
    · obtain rfl := Option.some.inj (hprev.symm.trans hp)
      exact (SameCores.getMedianTimePast hsame _).trans_lt htimely
    · rw [hnone] at hp
      cases hp
  · exact (known_insertEntry _ _ _ _).mpr (Or.inl (hcounted.genesis t))

theorem keeps_inChain {α : Type} {I : ChainState M → Prop} {x : Prog (ChainState M) Fault α}
    (hx : Keeps True I x) : Keeps True (fun s : BlockNode M => I s.chain) (inChain x) :=
  keeps_zoom (fun _ _ => rfl) hx

theorem keeps_returned {I : ChainState M → Prop} {x : Prog (ChainState M) Fault Unit}
    (hx : Keeps True I x) : Keeps True I (returned x) := by
  intro s hs _
  have hstate : ((returned x).run s).2 = (x.run s).2 := by
    unfold returned Prog.run
    dsimp only
    rcases x s with ⟨e | u, s'⟩
    · cases e with
      | failed e => rfl
      | noFuel => rfl
    · rfl
  rw [hstate]
  exact hx s hs (Or.inl trivial)

/-- The orphans behind a block keep the rule, by induction on the rounds. -/
theorem keeps_processOrphans (fuel rounds : ℕ) (q : List Uint256) :
    Keeps True (fun s : BlockNode M => Ruled node s.chain)
      (processOrphans node rules fuel rounds q) := by
  induction rounds generalizing q with
  | zero =>
    cases q with
    | nil => exact keeps_pure ()
    | cons h q => exact fun s hs _ => hs
  | succ rounds ih =>
    cases q with
    | nil => exact keeps_pure ()
    | cons h q =>
      refine keeps_bind (keeps_act fun _ hs => hs) fun orphans => ?_
      refine keeps_bind (keeps_foldlM (fun q orphan => ?_) orphans q) fun q => ?_
      · refine keeps_bind (keeps_inChain (keeps_returned (keeps_acceptBlock fuel orphan false)))
          fun fAccepted => ?_
        exact keeps_bind (keeps_act fun _ hs => hs) fun _ => keeps_pure _
      · exact keeps_bind (keeps_act fun _ hs => hs) fun _ => ih q

theorem keeps_processBlock (fuel : ℕ) (c : Arrival) :
    Keeps True (fun s : BlockNode M => Ruled node s.chain) (processBlock node rules fuel c) := by
  intro s hs _
  rcases hrun : (processBlock node rules fuel c).run s with ⟨r, s'⟩
  have hasked : Ruled node (asked s).chain := hs.cores fun _ => rfl
  have hacc : Ruled node ((acceptBlock node rules fuel c.block c.dbp).run (asked s).chain).2 :=
    keeps_acceptBlock fuel c.block c.dbp (asked s).chain hasked (Or.inl trivial)
  rcases processBlock_cases hrun with ⟨-, rfl⟩ | ⟨-, -, rfl⟩ | ⟨-, e, chain, hfail, rfl⟩ |
    ⟨-, chain, hok, hqueue⟩
  · exact hasked
  · exact hasked
  · rw [hfail] at hacc
    exact hacc
  · rw [hok] at hacc
    have hafter : Ruled node ((processOrphans node rules fuel
        (s.mapOrphanBlocksByPrev.length + 1) [hashOf node c.block]).run
          { s with chain := chain }).2.chain :=
      keeps_processOrphans fuel _ _ { s with chain := chain } hacc (Or.inl trivial)
    rw [hqueue] at hafter
    exact hafter

end Accepting

section Updating

theorem updateTime_toNat (medianTimePast : ℕ) (adjustedTime : ℤ) :
    ((updateTime medianTimePast adjustedTime).toNat : ℤ) =
      max (medianTimePast + 1 : ℤ) adjustedTime % 2 ^ 32 := by
  unfold updateTime
  rw [BitVec.toNat_ofInt]
  exact Int.toNat_of_nonneg (Int.emod_nonneg _ (by decide))

/-- The greater of the two times that UpdateTime compares. -/
def latest (s : ChainState M) (pindexPrev : Uint256) (adjustedTime : ℤ) : ℤ :=
  max (getMedianTimePast s pindexPrev + 1) adjustedTime

/-- The rule as AcceptBlock enforces it, the median that does not fall, and the times that
UpdateTime gives a block. -/
structure MedianRule (node : Node M) (rules : Rules) (s : ChainState M) : Prop where
  later : ∀ h e p, s.entry h = some e → e.pprev = some p →
    getMedianTimePast s p < e.header.nTime.toNat
  rises : ∀ h e p, s.entry h = some e → e.pprev = some p →
    getMedianTimePast s p ≤ getMedianTimePast s h
  updated : ∀ block p adjustedTime, block.header.fields.hashPrevBlock = p →
    block.header.fields.nTime = updateTime (getMedianTimePast s p) adjustedTime →
    (Timely s block ↔ (getMedianTimePast s p : ℤ) < latest s p adjustedTime % 2 ^ 32) ∧
      (latest s p adjustedTime < 2 ^ 32 → Timely s block)
  accepts : ∀ io block, Timely s block → checkParent node rules io block s ≠ .error tooEarly
  refuses : ∀ io block, ¬ Timely s block → checkParent node rules io block s ≠ .ok ()

theorem timely_updated {s : ChainState M} {block : CBlock} {p : Uint256} {adjustedTime : ℤ}
    (hp : block.header.fields.hashPrevBlock = p)
    (ht : block.header.fields.nTime = updateTime (getMedianTimePast s p) adjustedTime) :
    Timely s block ↔ (getMedianTimePast s p : ℤ) < latest s p adjustedTime % 2 ^ 32 := by
  unfold Timely latest
  rw [hp, ht, ← updateTime_toNat, Nat.cast_lt]

theorem Ruled.medianRule {node : Node M} (rules : Rules) {s : ChainState M} (hs : Ruled node s) :
    MedianRule node rules s where
  later := hs.timed.later
  rises _ _ _ he hp := hs.timed.rises he hp
  updated block p adjustedTime hp ht := by
    refine ⟨timely_updated hp ht, fun hlt => (timely_updated hp ht).mpr ?_⟩
    have hge : (getMedianTimePast s p : ℤ) + 1 ≤ latest s p adjustedTime := le_max_left _ _
    rw [Int.emod_eq_of_lt (by omega) hlt]
    omega
  accepts _ _ h := checkParent_never h _ rfl
  refuses _ _ h hok := h (timely_of_checkParent hok).2

/-- In every state of every run of ProcessBlock, from an index that has the genesis block and
no block on top of another. -/
theorem median_time_past (node : Node M) (rules : Rules) (chain : ChainState M)
    (hroots : ∀ h e, chain.entry h = some e → e.pprev = none)
    (hgenesis : ∀ t, Known chain (node.world t).env.genesisHash) (calls : List (Arrival × ℕ)) :
    Throughout (step node rules) (fun s => MedianRule node rules s.chain) (.start chain) calls := by
  have hinv : Throughout (step node rules) (fun s => Ruled node s.chain) (.start chain) calls :=
    throughout_of_step (fun s c hs => keeps_processBlock c.2 c.1 s hs (Or.inl trivial))
      ⟨timed_of_roots hroots, hgenesis⟩
  exact hinv.mono fun _ hs => hs.medianRule rules

end Updating

section MainNetwork

theorem mem_of_entry {s : ChainState M} {h : Uint256} {e : CBlockIndex} (he : s.entry h = some e) :
    ⟨h, e⟩ ∈ s.mapBlockIndex.entries := List.of_mem_dlookup he

theorem atGenesis_roots (h : Uint256) (e : CBlockIndex) (he : atGenesis.entry h = some e) :
    e.pprev = none := by
  have hall : ∀ p ∈ atGenesis.mapBlockIndex.entries, p.2.pprev = none := by decide +kernel
  exact hall ⟨h, e⟩ (mem_of_entry he)

theorem median_time_past_swapped :
    Throughout (step blockNode openRules) (fun s => MedianRule blockNode openRules s.chain)
      (.start atGenesis) swapped :=
  median_time_past blockNode openRules atGenesis atGenesis_roots
    (fun _ => show (atGenesis.entry genesisHash).isSome by decide +kernel) swapped

/-- A block on the genesis block that has its time from UpdateTime when the adjusted time does
not fit into 32 bits. -/
def lateBlock : CBlock :=
  minedBlock genesisHash MemPool.mintTxid
    (updateTime (getMedianTimePast atGenesis genesisHash) (2 ^ 32)) 2188448 [MemPool.mintTx]

theorem lateBlock_too_early :
    lateBlock.header.fields.hashPrevBlock = genesisHash ∧
      lateBlock.header.fields.nTime =
        updateTime (getMedianTimePast atGenesis genesisHash) (2 ^ 32) ∧
      ¬ Timely atGenesis lateBlock ∧
      checkParent blockNode openRules blockIo lateBlock atGenesis = .error tooEarly := by
  decide +kernel

end MainNetwork

end UmbrellaLtc.MedianTime
