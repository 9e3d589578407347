import UmbrellaLtc.Locator
import UmbrellaLtc.OrphanBlocks

/-!
FindBlockByHeight of main.cpp, which starts from the genesis block, from the best block or from
the block that it has found the last time, and SetBestChain, which makes it forget that block.
As long as the coins can be written whenever SetBestChain tries to, the block that
is remembered is in the main chain, and the block at the height is found from
wherever the search starts.
-/

namespace UmbrellaLtc.HeightLookup

open Codec Transaction Header Coins CoinsView CheckBlock ConnectBlock BestChain ChainFrame
  ChainLinks Reorganise IndexSteps Loading ChainRuns Locator Prog Runs
open OrphanBlocks (SameCores Made storeEntry_made hashOf)

variable {M : Type}

/-- A search that does not end with a block: it has followed a null link, or has come to the
bound that the model sets to the loops. -/
inductive Stop where
  | nullLink
  | noFuel
deriving DecidableEq

section Searching

variable (s : ChainState M)

def follow (pindex : Option Uint256) : Except Stop (Uint256 × CBlockIndex) :=
  match pindex with
  | none => .error .nullLink
  | some h => (s.entry h).elim (.error .nullLink) fun e => .ok (h, e)

/-- `while (pblockindex->nHeight > nHeight) pblockindex = pblockindex->pprev`. -/
def walkDown (nHeight : ℤ) : ℕ → Option Uint256 → Except Stop Uint256
  | 0, _ => .error .noFuel
  | fuel + 1, pblockindex => do
      let (h, e) ← follow s pblockindex
      if (e.nHeight : ℤ) > nHeight then walkDown nHeight fuel e.pprev else return h

/-- `while (pblockindex->nHeight < nHeight) pblockindex = pblockindex->pnext`. -/
def walkUp (nHeight : ℤ) : ℕ → Option Uint256 → Except Stop Uint256
  | 0, _ => .error .noFuel
  | fuel + 1, pblockindex => do
      let (h, e) ← follow s pblockindex
      if (e.nHeight : ℤ) < nHeight then walkUp nHeight fuel e.pnext else return h

/-- Where the search starts. -/
def startOf (pindexGenesisBlock pblockindexFBBHLast : Option Uint256) (nHeight : ℤ) :
    Except Stop (Option Uint256) :=
  let pblockindex :=
    if nHeight < s.nBestHeight.tdiv 2 then pindexGenesisBlock else s.pindexBest
  match pblockindexFBBHLast with
  | none => return pblockindex
  | some last => do
      let (_, e) ← follow s pblockindex
      let (_, eLast) ← follow s (some last)
      return if |nHeight - e.nHeight| > |nHeight - eLast.nHeight| then some last else pblockindex

/-- FindBlockByHeight. -/
def findBlockByHeight (pindexGenesisBlock pblockindexFBBHLast : Option Uint256) (fuel : ℕ)
    (nHeight : ℤ) : Except Stop Uint256 := do
  let start ← startOf s pindexGenesisBlock pblockindexFBBHLast nHeight
  let low ← walkDown s nHeight fuel start
  walkUp s nHeight fuel (some low)

end Searching

section Spec

variable {s : ChainState M} {genesis b : Uint256}

theorem follow_ok {h : Uint256} {e : CBlockIndex} (he : s.entry h = some e) :
    follow s (some h) = .ok (h, e) := by
  unfold follow
  dsimp only
  rw [he]
  rfl

theorem follow_none {h : Uint256} (he : s.entry h = none) :
    follow s (some h) = .error .nullLink := by
  unfold follow
  dsimp only
  rw [he]
  rfl

/-- Down from an ancestor of the best block, by induction on its height. -/
theorem walkDown_spec (hs : IndexTree s genesis) (hbest : (s.entry b).isSome) {nHeight : ℕ}
    {fuel : ℕ} {p : Uint256} (hp : Forest.Anc (parent s) p b) (hfuel : s.height p < fuel) :
    ∃ q, walkDown s nHeight fuel (some p) = .ok q ∧ Forest.Anc (parent s) q b ∧
      s.height q ≤ nHeight := by
  induction fuel generalizing p with
  | zero => exact absurd hfuel (Nat.not_lt_zero _)
  | succ fuel ih =>
    obtain ⟨e, he⟩ := Option.isSome_iff_exists.mp (hs.known_of_anc hp hbest)
    have hheight := hs.height p e he
    unfold walkDown
    rw [follow_ok he]
    show ∃ q, (if (e.nHeight : ℤ) > nHeight then _ else _) = _ ∧ _
    split_ifs with hhigh
    · cases hprev : e.pprev with
      | none =>
        rw [hprev] at hheight
        change e.nHeight = 0 at hheight
        omega
      | some q =>
        have hq : parent s p = some q := (parent_of_entry he).trans hprev
        have hlower := hs.exact p q hq
        exact ih (hp.parent_of hq) (by omega)
    · refine ⟨p, rfl, hp, ?_⟩
      rw [height_of_entry he]
      omega

/-- Up to the height that is asked for, which is not above the best block. -/
theorem walkUp_spec (hs : IndexTree s genesis) (hb : s.pindexBest = some b) {nHeight : ℕ}
    (hle : nHeight ≤ s.height b) {fuel : ℕ} {p : Uint256} (hp : Forest.Anc (parent s) p b)
    (hlow : s.height p ≤ nHeight) (hfuel : nHeight - s.height p < fuel) :
    ∃ q, walkUp s nHeight fuel (some p) = .ok q ∧ Forest.Anc (parent s) q b ∧
      s.height q = nHeight := by
  induction fuel generalizing p with
  | zero => exact absurd hfuel (Nat.not_lt_zero _)
  | succ fuel ih =>
    obtain ⟨e, he⟩ := Option.isSome_iff_exists.mp (hs.known_of_anc hp (hs.best b hb))
    have hheight := height_of_entry he
    unfold walkUp
    rw [follow_ok he]
    show ∃ q, (if (e.nHeight : ℤ) < nHeight then _ else _) = _ ∧ _
    split_ifs with hless
    · have hne : p ≠ b := by
        rintro rfl
        omega
      obtain ⟨c, hc, hanc⟩ := hp.child hne
      have hnext : e.pnext = some c := by
        have hlink := (hs.links p c).mpr ⟨hc, b, hb, hanc⟩
        rw [next, he] at hlink
        exact hlink
      have hhigher := hs.exact c p hc
      rw [hnext]
      exact ih hanc (by omega) (by omega)
    · exact ⟨p, rfl, hp, by omega⟩

/-- The search starts in the main chain. -/
theorem startOf_spec (hs : IndexTree s genesis) (hb : s.pindexBest = some b)
    {pblockindexFBBHLast : Option Uint256}
    (hlast : ∀ l ∈ pblockindexFBBHLast, Forest.Anc (parent s) l b) (nHeight : ℤ) :
    ∃ p, startOf s (some genesis) pblockindexFBBHLast nHeight = .ok (some p) ∧
      Forest.Anc (parent s) p b := by
  have hknown := hs.best b hb
  have hfirst : ∃ p, (if nHeight < s.nBestHeight.tdiv 2 then some genesis else s.pindexBest) =
      some p ∧ Forest.Anc (parent s) p b := by
    split_ifs
    · exact ⟨genesis, rfl, hs.genesis_anc hknown⟩
    · exact ⟨b, hb, Relation.ReflTransGen.refl⟩
  obtain ⟨p, hp, hanc⟩ := hfirst
  unfold startOf
  dsimp only
  rw [hp]
  cases hl : pblockindexFBBHLast with
  | none => exact ⟨p, rfl, hanc⟩
  | some l =>
    have hlanc := hlast l hl
    obtain ⟨e, he⟩ := Option.isSome_iff_exists.mp (hs.known_of_anc hanc hknown)
    obtain ⟨eLast, heLast⟩ := Option.isSome_iff_exists.mp (hs.known_of_anc hlanc hknown)
    dsimp only
    rw [follow_ok he, follow_ok heLast]
    show ∃ q, Except.ok (if |nHeight - e.nHeight| > |nHeight - eLast.nHeight| then _ else _) = _ ∧ _
    split_ifs
    · exact ⟨l, rfl, hlanc⟩
    · exact ⟨p, rfl, hanc⟩

/-- The links lead from the main chain to nowhere else. -/
theorem walkDown_anc {nHeight : ℤ} {fuel : ℕ} {p q : Uint256} (hp : Forest.Anc (parent s) p b)
    (h : walkDown s nHeight fuel (some p) = .ok q) : Forest.Anc (parent s) q b := by
  induction fuel generalizing p with
  | zero => cases h
  | succ fuel ih =>
    unfold walkDown at h
    cases he : s.entry p with
    | none =>
      rw [follow_none he] at h
      cases h
    | some e =>
      rw [follow_ok he] at h
      change (if (e.nHeight : ℤ) > nHeight then _ else _) = _ at h
      split_ifs at h with hhigh
      · cases hprev : e.pprev with
        | none =>
          rw [hprev] at h
          cases fuel <;> cases h
        | some r =>
          rw [hprev] at h
          exact ih (hp.parent_of ((parent_of_entry he).trans hprev)) h
      · cases h
        exact hp

theorem walkUp_anc (hs : IndexTree s genesis) (hb : s.pindexBest = some b) {nHeight : ℤ} {fuel : ℕ}
    {p q : Uint256} (hp : Forest.Anc (parent s) p b)
    (h : walkUp s nHeight fuel (some p) = .ok q) : Forest.Anc (parent s) q b := by
  induction fuel generalizing p with
  | zero => cases h
  | succ fuel ih =>
    unfold walkUp at h
    cases he : s.entry p with
    | none =>
      rw [follow_none he] at h
      cases h
    | some e =>
      rw [follow_ok he] at h
      change (if (e.nHeight : ℤ) < nHeight then _ else _) = _ at h
      split_ifs at h with hless
      · cases hnext : e.pnext with
        | none =>
          rw [hnext] at h
          cases fuel <;> cases h
        | some c =>
          rw [hnext] at h
          have hlink : next s p = some c := by
            rw [next, he]
            exact hnext
          obtain ⟨-, b', hb', hanc⟩ := (hs.links p c).mp hlink
          obtain rfl := Option.some.inj (hb.symm.trans hb')
          exact ih hanc h
      · cases h
        exact hp

theorem findBlockByHeight_anc (hs : IndexTree s genesis) (hb : s.pindexBest = some b)
    {pblockindexFBBHLast : Option Uint256}
    (hlast : ∀ l ∈ pblockindexFBBHLast, Forest.Anc (parent s) l b) {nHeight : ℤ} {fuel : ℕ}
    {h : Uint256}
    (hfind : findBlockByHeight s (some genesis) pblockindexFBBHLast fuel nHeight = .ok h) :
    Forest.Anc (parent s) h b := by
  obtain ⟨p, hstart, hp⟩ := startOf_spec hs hb hlast nHeight
  unfold findBlockByHeight at hfind
  rw [hstart] at hfind
  change (walkDown s nHeight fuel (some p) >>= _) = _ at hfind
  obtain ⟨q, hdown, hup⟩ := (Guards.seq_ok_iff _ _ _).mp hfind
  exact walkUp_anc hs hb (walkDown_anc hp hdown) hup

/-- The block of the main chain at a height. -/
def At (s : ChainState M) (nHeight : ℤ) (h : Uint256) : Prop :=
  (∃ b, s.pindexBest = some b ∧ Forest.Anc (parent s) h b) ∧ (s.height h : ℤ) = nHeight

theorem At.unique (hs : IndexTree s genesis) {nHeight : ℤ} {h h' : Uint256}
    (hh : At s nHeight h) (hh' : At s nHeight h') : h = h' := by
  obtain ⟨⟨b, hb, hanc⟩, hheight⟩ := hh
  obtain ⟨⟨b', hb', hanc'⟩, hheight'⟩ := hh'
  obtain rfl := Option.some.inj (hb.symm.trans hb')
  rcases hanc.total hanc' with habove | habove
  · exact (habove.eq_of_height hs.graded (by omega)).symm
  · exact habove.eq_of_height hs.graded (by omega)

theorem findBlockByHeight_spec (hs : IndexTree s genesis) (hb : s.pindexBest = some b)
    {pblockindexFBBHLast : Option Uint256}
    (hlast : ∀ l ∈ pblockindexFBBHLast, Forest.Anc (parent s) l b) {nHeight : ℤ}
    (hlow : 0 ≤ nHeight) (hhigh : nHeight ≤ s.height b) :
    ∃ h, At s nHeight h ∧ ∀ fuel, s.height b < fuel →
      findBlockByHeight s (some genesis) pblockindexFBBHLast fuel nHeight = .ok h := by
  have hfind : ∀ fuel, s.height b < fuel → ∃ h, At s nHeight h ∧
      findBlockByHeight s (some genesis) pblockindexFBBHLast fuel nHeight = .ok h := by
    intro fuel hfuel
    obtain ⟨n, rfl⟩ := Int.eq_ofNat_of_zero_le hlow
    obtain ⟨p, hstart, hp⟩ := startOf_spec hs hb hlast (n : ℤ)
    have hple := hp.height_le hs.graded
    obtain ⟨q, hdown, hq, hqle⟩ : ∃ q, walkDown s n fuel (some p) = .ok q ∧
        Forest.Anc (parent s) q b ∧ s.height q ≤ n :=
      walkDown_spec hs (hs.best b hb) hp (hple.trans_lt hfuel)
    obtain ⟨h, hup, hanc, hheight⟩ := walkUp_spec hs hb (by omega) hq hqle
      (show n - s.height q < fuel by omega)
    refine ⟨h, ⟨⟨b, hb, hanc⟩, by rw [hheight]⟩, ?_⟩
    unfold findBlockByHeight
    rw [hstart]
    show walkDown s n fuel (some p) >>= _ = _
    rw [hdown]
    exact hup
  obtain ⟨h, hat, -⟩ := hfind (s.height b + 1) (Nat.lt_succ_self _)
  refine ⟨h, hat, fun fuel hfuel => ?_⟩
  obtain ⟨h', hat', hok⟩ := hfind fuel hfuel
  rw [hok, hat.unique hs hat']

/-- A search that starts below the height, at a block whose link is not set. -/
theorem findBlockByHeight_nullLink {pindexGenesisBlock pblockindexFBBHLast : Option Uint256}
    {nHeight : ℤ} {p : Uint256} {e : CBlockIndex}
    (hstart : startOf s pindexGenesisBlock pblockindexFBBHLast nHeight = .ok (some p))
    (he : s.entry p = some e) (hlow : (e.nHeight : ℤ) < nHeight) (hnext : e.pnext = none)
    (fuel : ℕ) :
    findBlockByHeight s pindexGenesisBlock pblockindexFBBHLast (fuel + 2) nHeight =
      .error .nullLink := by
  have hdown : walkDown s nHeight (fuel + 2) (some p) = .ok p := by
    unfold walkDown
    rw [follow_ok he]
    exact if_neg (not_lt.mpr hlow.le)
  have hup : walkUp s nHeight (fuel + 2) (some p) = .error .nullLink := by
    unfold walkUp
    rw [follow_ok he]
    show (if (e.nHeight : ℤ) < nHeight then walkUp s nHeight (fuel + 1) e.pnext else _) = _
    rw [if_pos hlow, hnext]
    rfl
  unfold findBlockByHeight
  rw [hstart]
  show walkDown s nHeight (fuel + 2) (some p) >>= _ = _
  rw [hdown]
  exact hup

end Spec

/-- The chain state with the pointer that FindBlockByHeight keeps. -/
structure Lookups (M : Type) where
  chain : ChainState M
  pblockindexFBBHLast : Option Uint256

inductive Op where
  | find (nHeight : ℤ)
  | call (c : Call)

section Running

variable (node : Node M) (genesis : Uint256)

/-- SetBestChain has made a block the best one, in a call of its own or from within another
call, which then ends at a best block of more work. -/
def Resets (c : Call) (r : Except Fault Unit) (before after : Option Uint256) : Bool :=
  match c, r with
  | .setBestChain _, .ok _ => true
  | _, _ => decide (after ≠ before)

theorem resets_of_ne (c : Call) (r : Except Fault Unit) {before after : Option Uint256}
    (h : after ≠ before) : Resets c r before after = true := by
  unfold Resets
  split
  · rfl
  · exact decide_eq_true h

/-- A call with fuel for its loops. -/
def step (s : Lookups M) (o : Op × ℕ) : Lookups M :=
  match o.1 with
  | .find nHeight =>
      match findBlockByHeight s.chain (some genesis) s.pblockindexFBBHLast o.2 nHeight with
      | .ok h => { s with pblockindexFBBHLast := some h }
      | .error _ => s
  | .call c =>
      let result := (c.prog node o.2).run s.chain
      ⟨result.2, if Resets c result.1 s.chain.pindexBest result.2.pindexBest then none
        else s.pblockindexFBBHLast⟩

/-- What the callers see to. A height is looked up only up to that of the best block. -/
def Op.Allowed (s : Lookups M) : Op → Prop
  | .find nHeight => 0 ≤ nHeight ∧ nHeight ≤ s.chain.nBestHeight
  | .call c => c.Allowed node s.chain ∧ Call.Grounded genesis node c ∧ ∀ b, c ≠ .restart b

/-- The block at every height of the main chain is found. -/
def FindsAll (s : Lookups M) : Prop :=
  ∀ nHeight : ℤ, 0 ≤ nHeight → nHeight ≤ s.chain.nBestHeight →
    ∃ h, At s.chain nHeight h ∧ ∀ fuel : ℕ, s.chain.nBestHeight < fuel →
      findBlockByHeight s.chain (some genesis) s.pblockindexFBBHLast fuel nHeight = .ok h

/-- A chain in order over a tree with exact heights. -/
structure Sound (s : ChainState M) : Prop where
  inv : ChainInv s
  heights : ∀ c e, s.entry c = some e → e.nHeight = e.pprev.elim 0 fun p => s.height p + 1
  rooted : Rooted genesis s
  empty : s.pindexBest = none → s.nBestHeight = -1

variable {node genesis} {s s' : ChainState M}

theorem Sound.indexTree (hs : Sound genesis s) : IndexTree s genesis where
  known := hs.inv.tree.known
  height := hs.heights
  root := hs.rooted
  links := hs.inv.links
  best b hb := (hs.inv.best b hb).known

theorem sound_init (pool : PoolOps M) : Sound genesis (ChainState.init pool) where
  inv := chainInv_init pool
  heights _ _ he := by cases he
  rooted _ _ he := by cases he
  empty _ := rfl

theorem heights_of_sameTree (h : SameTree s s')
    (hs : ∀ c e, s.entry c = some e → e.nHeight = e.pprev.elim 0 fun p => s.height p + 1)
    (c : Uint256) (e : CBlockIndex) (he : s'.entry c = some e) :
    e.nHeight = e.pprev.elim 0 fun p => s'.height p + 1 := by
  obtain ⟨e₀, he₀, hcore⟩ := MainChain.SameTree.entry_core h he
  rw [h.height_eq, MainChain.read_core hcore CBlockIndex.pprev fun _ => rfl,
    MainChain.read_core hcore CBlockIndex.nHeight fun _ => rfl]
  exact hs c e₀ he₀

theorem Sound.frame (hs : Sound genesis s) (h : Frame s s') : Sound genesis s' where
  inv := hs.inv.frame h
  heights := heights_of_sameTree (Frame.sameTree h) hs.heights
  rooted := hs.rooted.sameTree (Frame.sameTree h)
  empty hnone := by
    rw [h.pindexBest] at hnone
    rw [h.nBestHeight]
    exact hs.empty hnone

theorem keeps_sound_setBestChain (nested : Prog (ChainState M) Fault Unit) (h : Uint256) :
    Keeps (∀ t, LateOk (node.world t)) (Sound genesis) (setBestChain node nested h) := by
  intro s hs hend
  rcases hrun : (setBestChain node nested h).run s with ⟨e | a, s'⟩
  · rw [hrun] at hend
    rcases hend with hlate | ⟨a, ha⟩
    · exact hs.frame (setBestChain_frame node nested hlate hs.inv hrun)
    · cases ha
  · have hswitched := setBestChain_switched node nested hs.inv hrun
    refine ⟨hswitched.inv, heights_of_sameTree hswitched.tree hs.heights,
      hs.rooted.sameTree hswitched.tree, fun hnone => ?_⟩
    change s'.pindexBest = none at hnone
    rw [hswitched.best] at hnone
    cases hnone

theorem made_grown {block : CBlock} (h : Made node s s' block) (hacc : Accepted node s block) :
    Grown s ((insertEntry (hashOf node block) block s).insertValid (hashOf node block))
      (hashOf node block) (leaf s block) :=
  grown_insertEntry (hacc.ne h.fresh)

/-- The entries after AddToBlockIndex has made one. -/
theorem made_entry {block : CBlock} (h : Made node s s' block) (hacc : Accepted node s block)
    {c : Uint256} {e' : CBlockIndex} (he' : s'.entry c = some e') :
    (c = hashOf node block ∧ core e' = core (leaf s block)) ∨
      c ≠ hashOf node block ∧ ∃ e, s.entry c = some e ∧ core e' = core e := by
  obtain ⟨e, he, hcore⟩ := h.cores.entry_core he'
  rw [(made_grown h hacc).entry] at he
  split_ifs at he with hc
  · obtain rfl := Option.some.inj he
    exact Or.inl ⟨hc, hcore.symm⟩
  · exact Or.inr ⟨hc, e, he, hcore.symm⟩

theorem made_height {block : CBlock} (h : Made node s s' block) (hacc : Accepted node s block)
    {c : Uint256} (hc : c ≠ hashOf node block) : s'.height c = s.height c := by
  rw [h.cores.height_eq]
  exact (made_grown h hacc).height_ne hc

/-- No known block has another parent afterwards. -/
theorem made_parent {block : CBlock} (h : Made node s s' block) (hacc : Accepted node s block)
    {c p : Uint256} (hcp : parent s c = some p) : parent s' c = some p := by
  obtain ⟨e, he, hp⟩ := Option.bind_eq_some_iff.mp hcp
  have hne : c ≠ hashOf node block := by
    rintro rfl
    rw [h.fresh] at he
    cases he
  have hcore := h.cores c
  rw [(made_grown h hacc).entry_ne hne, he] at hcore
  obtain ⟨e', he', heq⟩ := Option.map_eq_some_iff.mp hcore
  rw [parent_of_entry he']
  exact (MainChain.read_core heq CBlockIndex.pprev fun _ => rfl).trans hp

theorem heights_of_made {block : CBlock} (hs : Sound genesis s) (h : Made node s s' block)
    (hacc : Accepted node s block) (c : Uint256) (e' : CBlockIndex) (he' : s'.entry c = some e') :
    e'.nHeight = e'.pprev.elim 0 fun p => s'.height p + 1 := by
  have hold : ∀ p, (s.entry p).isSome → s'.height p = s.height p := by
    intro p hp
    refine made_height h hacc ?_
    rintro rfl
    rw [h.fresh] at hp
    cases hp
  rcases made_entry h hacc he' with ⟨-, hcore⟩ | ⟨-, e, he, hcore⟩
  · rw [MainChain.read_core hcore CBlockIndex.pprev fun _ => rfl,
      MainChain.read_core hcore CBlockIndex.nHeight fun _ => rfl]
    rcases leaf_cases s block with ⟨d, hd, hprev, hheight, -⟩ | ⟨-, hnone, hheight, -⟩
    · rw [hprev, hheight, Option.elim_some, hold _ (by rw [hd]; rfl), height_of_entry hd]
    · rw [hnone, hheight]
      rfl
  · rw [MainChain.read_core hcore CBlockIndex.pprev fun _ => rfl,
      MainChain.read_core hcore CBlockIndex.nHeight fun _ => rfl, hs.heights c e he]
    cases hp : e.pprev with
    | none => rfl
    | some p =>
      have hknown := hs.inv.tree.known c p ((parent_of_entry he).trans hp)
      rw [Option.elim_some, Option.elim_some, hold p hknown]

theorem rooted_of_made {block : CBlock} (hs : Rooted genesis s) (h : Made node s s' block)
    (hacc : Accepted node s block)
    (hground : block.header.fields.hashPrevBlock = 0 → hashOf node block = genesis) :
    Rooted genesis s' := by
  intro c e' he' hroot
  rcases made_entry h hacc he' with ⟨rfl, hcore⟩ | ⟨-, e, he, hcore⟩
  · rw [MainChain.read_core hcore CBlockIndex.pprev fun _ => rfl] at hroot
    rcases leaf_cases s block with ⟨d, -, hprev, -⟩ | ⟨hnone, -⟩
    · rw [hprev] at hroot
      cases hroot
    · rcases hacc with hsome | ⟨hzero, -⟩
      · rw [hnone] at hsome
        cases hsome
      · exact hground hzero
  · rw [MainChain.read_core hcore CBlockIndex.pprev fun _ => rfl] at hroot
    exact hs c e he hroot

/-- The same best block, at the same height. -/
structure SameBest (s s' : ChainState M) : Prop where
  pindexBest : s'.pindexBest = s.pindexBest
  nBestHeight : s'.nBestHeight = s.nBestHeight

instance : IsPreorder (ChainState M) SameBest where
  refl _ := ⟨rfl, rfl⟩
  trans _ _ _ hst htu :=
    ⟨htu.pindexBest.trans hst.pindexBest, htu.nBestHeight.trans hst.nBestHeight⟩

theorem within_storeEntry (block : CBlock) : Within SameBest (storeEntry node block) := by
  intro s
  rcases hrun : (storeEntry node block).run s with ⟨r, s'⟩
  rcases storeEntry_cases hrun with ⟨-, rfl⟩ | ⟨-, hwrite⟩
  · exact ⟨rfl, rfl⟩
  have hinsert : SameBest s ((insertEntry (block.header.fields.getHash node.Hash) block s).insertValid
      (block.header.fields.getHash node.Hash)) := by
    unfold ChainState.insertValid
    split_ifs
    · exact ⟨rfl, rfl⟩
    · exact ⟨rfl, rfl⟩
  have hwrites : Within SameBest (writeDiskBlockIndex node (block.header.fields.getHash node.Hash)
      >>= fun _ => writeBlockIndex node (block.header.fields.getHash node.Hash)) := by
    refine within_bind (fun t => ?_) fun _ t => ?_
    · rcases hdisk : (writeDiskBlockIndex node (block.header.fields.getHash node.Hash)).run t with
        ⟨r, t'⟩
      rcases writeDiskBlockIndex_cases hdisk with ⟨-, rfl⟩ | ⟨e, -, -, rfl⟩
      · exact ⟨rfl, rfl⟩
      · exact ⟨rfl, rfl⟩
    · have hframe := within_writeBlockIndex node (block.header.fields.getHash node.Hash) t
      exact ⟨hframe.pindexBest, hframe.nBestHeight⟩
  have hafter := hwrites ((insertEntry (block.header.fields.getHash node.Hash) block s).insertValid
    (block.header.fields.getHash node.Hash))
  rw [hwrite] at hafter
  exact IsTrans.trans _ _ _ hinsert hafter

/-- Blocks that are known keep their parents. -/
def KeepsParents (s s' : ChainState M) : Prop := ∀ c p, parent s c = some p → parent s' c = some p

instance : IsPreorder (ChainState M) KeepsParents where
  refl _ _ _ h := h
  trans _ _ _ hst htu c p h := htu c p (hst c p h)

theorem keepsParents_anc (h : KeepsParents s s') {a b : Uint256} (hab : Forest.Anc (parent s) a b) :
    Forest.Anc (parent s') a b := Relation.ReflTransGen.mono h _ _ hab

/-- AddToBlockIndex in front of ConnectBestBlock. -/
theorem sound_storeEntry (hs : Sound genesis s) {block : CBlock} (hacc : Accepted node s block)
    (hground : block.header.fields.hashPrevBlock = 0 → hashOf node block = genesis) :
    Sound genesis ((storeEntry node block).run s).2 ∧
      KeepsParents s ((storeEntry node block).run s).2 := by
  have hinv := storeEntry_inv hs.inv hacc
  have hbest : SameBest s ((storeEntry node block).run s).2 := within_storeEntry block s
  rcases hrun : (storeEntry node block).run s with ⟨r, s'⟩
  rw [hrun] at hinv hbest
  rcases storeEntry_made hrun with ⟨-, rfl⟩ | hmade
  · exact ⟨hs, fun _ _ h => h⟩
  · refine ⟨⟨hinv, heights_of_made hs hmade hacc, rooted_of_made hs.rooted hmade hacc hground,
      fun hnone => ?_⟩, fun _ _ h => made_parent hmade hacc h⟩
    change s'.pindexBest = none at hnone
    rw [hbest.pindexBest] at hnone
    exact hbest.nBestHeight.trans (hs.empty hnone)

theorem sound_connectBestBlock (hlate : ∀ t, LateOk (node.world t)) (hs : Sound genesis s)
    (fuel : ℕ) : Sound genesis ((connectBestBlock node fuel).run s).2 ∧
      KeepsParents s ((connectBestBlock node fuel).run s).2 := by
  have htree : InTree s s := ⟨hs.inv, refl s⟩
  have hsame := (keeps_connectBestBlock node fuel s htree (Or.inl hlate)).2
  refine ⟨keeps_connectBestBlock_of node (fun _ _ h hs => hs.frame h) keeps_sound_setBestChain fuel
    s hs (Or.inl hlate), fun c p hcp => ?_⟩
  rw [hsame.parent_eq]
  exact hcp

/-- A call other than a restart, however it ends. -/
theorem sound_call (hlate : ∀ t, LateOk (node.world t)) (hs : Sound genesis s) {c : Call}
    (fuel : ℕ) (hallowed : c.Allowed node s) (hground : Call.Grounded genesis node c)
    (hc : ∀ b, c ≠ .restart b) :
    Sound genesis ((c.prog node fuel).run s).2 ∧ KeepsParents s ((c.prog node fuel).run s).2 := by
  have htree : InTree s s := ⟨hs.inv, refl s⟩
  have hparents : ∀ {s'}, SameTree s s' → KeepsParents s s' := by
    intro s' hsame c p hcp
    rw [hsame.parent_eq]
    exact hcp
  cases c with
  | storeEntry block =>
    show Sound genesis ((plain (BestChain.storeEntry node block)).run s).2 ∧
      KeepsParents s ((plain (BestChain.storeEntry node block)).run s).2
    rw [plain_run]
    exact sound_storeEntry hs hallowed hground
  | addToBlockIndex block =>
    show Sound genesis ((plain (BestChain.storeEntry node block) >>= fun _ =>
        BestChain.connectBestBlock node fuel).run s).2 ∧
      KeepsParents s ((plain (BestChain.storeEntry node block) >>= fun _ =>
        BestChain.connectBestBlock node fuel).run s).2
    obtain ⟨hstore, hkept⟩ := sound_storeEntry hs hallowed hground
    have hrun := plain_run (BestChain.storeEntry node block) s
    rcases hr : (BestChain.storeEntry node block).run s with ⟨e | a, t⟩
    · rw [hr] at hrun hstore hkept
      rw [run_bind_error hrun]
      exact ⟨hstore, hkept⟩
    · rw [hr] at hrun hstore hkept
      rw [run_bind_ok hrun]
      obtain ⟨hsearch, hafter⟩ := sound_connectBestBlock hlate hstore fuel
      exact ⟨hsearch, IsTrans.trans _ _ _ hkept hafter⟩
  | invalidBlockFound pindex =>
    have hsame := (keeps_invalidBlockFound node hlate fuel pindex s htree (Or.inl trivial)).2
    exact ⟨keeps_invalidBlockFound_of node hlate (fun _ _ h hs => hs.frame h)
      keeps_sound_setBestChain fuel pindex s hs (Or.inl trivial), hparents hsame⟩
  | connectBestBlock => exact sound_connectBestBlock hlate hs fuel
  | setBestChain pindexNew =>
    have hsame := (keepsTree_setBestChain node (BestChain.connectBestBlock node fuel) pindexNew s
      htree (Or.inl hlate)).2
    exact ⟨keeps_sound_setBestChain _ pindexNew s hs (Or.inl hlate), hparents hsame⟩
  | restart fShutdown => exact absurd rfl (hc fShutdown)

/-- The block that is remembered is in the main chain. -/
structure Remembers (genesis : Uint256) (s : Lookups M) : Prop where
  sound : Sound genesis s.chain
  cached : ∀ l ∈ s.pblockindexFBBHLast,
    ∃ b, s.chain.pindexBest = some b ∧ Forest.Anc (parent s.chain) l b

theorem Remembers.last {s : Lookups M} (hs : Remembers genesis s) {b : Uint256}
    (hb : s.chain.pindexBest = some b) :
    ∀ l ∈ s.pblockindexFBBHLast, Forest.Anc (parent s.chain) l b := by
  intro l hl
  obtain ⟨b', hb', hanc⟩ := hs.cached l hl
  obtain rfl := Option.some.inj (hb.symm.trans hb')
  exact hanc

theorem Remembers.best {s : Lookups M} (hs : Remembers genesis s) {nHeight : ℤ}
    (hlow : 0 ≤ nHeight) (hhigh : nHeight ≤ s.chain.nBestHeight) :
    ∃ b, s.chain.pindexBest = some b ∧ s.chain.nBestHeight = s.chain.height b := by
  cases hb : s.chain.pindexBest with
  | none =>
    have hempty := hs.sound.empty hb
    omega
  | some b => exact ⟨b, rfl, (hs.sound.inv.best b hb).nBestHeight⟩

theorem Remembers.findsAll {s : Lookups M} (hs : Remembers genesis s) : FindsAll genesis s := by
  intro nHeight hlow hhigh
  obtain ⟨b, hb, hheight⟩ := hs.best hlow hhigh
  obtain ⟨h, hat, hfound⟩ :=
    findBlockByHeight_spec hs.sound.indexTree hb (hs.last hb) hlow (hheight ▸ hhigh)
  exact ⟨h, hat, fun fuel hfuel => hfound fuel (by omega)⟩

/-- A step keeps the remembered block in the main chain, or forgets it. -/
theorem remembers_step (hlate : ∀ t, LateOk (node.world t)) (s : Lookups M) (o : Op × ℕ)
    (hs : Remembers genesis s) (ho : o.1.Allowed node genesis s) :
    Remembers genesis (step node genesis s o) := by
  obtain ⟨op, fuel⟩ := o
  cases op with
  | find nHeight =>
    obtain ⟨b, hb, -⟩ := hs.best ho.1 ho.2
    unfold step
    dsimp only
    cases hfind : findBlockByHeight s.chain (some genesis) s.pblockindexFBBHLast fuel nHeight with
    | error e => exact hs
    | ok h =>
      refine ⟨hs.sound, fun l hl => ?_⟩
      obtain rfl := Option.some.inj hl
      exact ⟨b, hb, findBlockByHeight_anc hs.sound.indexTree hb (hs.last hb) hfind⟩
  | call c =>
    obtain ⟨hallowed, hground, hc⟩ := ho
    obtain ⟨hsound, hkept⟩ := sound_call hlate hs.sound fuel hallowed hground hc
    refine ⟨hsound, fun l hl => ?_⟩
    unfold step at hl ⊢
    dsimp only at hl ⊢
    split_ifs at hl with hreset
    · cases hl
    · obtain ⟨b, hb, hanc⟩ := hs.cached l hl
      have hsame : ((c.prog node fuel).run s.chain).2.pindexBest = s.chain.pindexBest := by
        by_contra hne
        exact hreset (resets_of_ne _ _ hne)
      exact ⟨b, hsame.trans hb, keepsParents_anc hkept hanc⟩

variable (node genesis) in
/-- In every run of lookups and of calls that change the best chain, as long as the coins can be
written whenever SetBestChain tries to, every height is found. -/
theorem findBlockByHeight_finds (hlate : ∀ t, LateOk (node.world t)) (ops : List (Op × ℕ))
    (hops : EachStep (step node genesis) (fun s o => o.1.Allowed node genesis s)
      ⟨.init node.pool, none⟩ ops) :
    Throughout (step node genesis) (FindsAll genesis) ⟨.init node.pool, none⟩ ops := by
  have hinit : Remembers genesis (⟨.init node.pool, none⟩ : Lookups M) :=
    ⟨sound_init node.pool, fun l hl => by cases hl⟩
  have hrun := throughout_of_eachStep
    (fun s o hs ho => remembers_step hlate s o hs ho) hinit hops
  exact hrun.mono fun _ hs => hs.findsAll

end Running

section MainNetwork

open OrphanBlocks (minedBlock coinbaseTx firstHash firstBlock secondHash secondBlock blockDigests
  blockIo blockPow)

def thirdHash : Uint256 := 0x14da5b086c01e8a864a4672cc5e327cf73c9110ca174825b8a8720412a4c3412

/-- A block on the second one. -/
def thirdBlock : CBlock :=
  minedBlock secondHash 0x67a72ce81d21d6d130301482103289e430bf29693d249df4abde28f0f7e07653
    1405803125 53288 [coinbaseTx [2, 3, 2]]

def threeHash (bs : List Byte) : Uint256 :=
  ((blockDigests ++ [(CTransaction.codec.write (coinbaseTx [2, 3, 2]),
      thirdBlock.header.fields.hashMerkleRoot),
    (HeaderFields.codec.write thirdBlock.header.fields, thirdHash)]).lookup bs).getD 0

def threePow (h : HeaderFields) : Uint256 :=
  if h.nNonce = 53288 then 0x538754f5336ba81a7ad7086fc9b772484d9548e3f8a4e853602f461df54
  else blockPow h

/-- Three blocks on the genesis block, and room on the disk or not. -/
def threeIo (room : Bool) : Io :=
  { blockIo with
    env := { blockIo.env with Hash := threeHash, powHash := threePow }
    readFile := fun h => [(genesisHash, genesis), (firstHash, firstBlock),
      (secondHash, secondBlock), (thirdHash, thirdBlock)].lookup h
    checkDiskSpace := room }

def threeNode (room : ℕ → Bool) : Node (List CTransaction) :=
  { mainNode (fun t => threeIo (room t)) with Hash := threeHash }

/-- The blocks arrive one after the other, and then the lowest of them is looked up. -/
def threeBlocks : List (Op × ℕ) :=
  [(.call (.addToBlockIndex genesis), 3), (.call (.addToBlockIndex firstBlock), 3),
    (.call (.addToBlockIndex secondBlock), 3), (.call (.addToBlockIndex thirdBlock), 3),
    (.find 0, 3)]

def after (room : ℕ → Bool) (n : ℕ) : Lookups (List CTransaction) :=
  run (step (threeNode room) genesisHash) ⟨.init listPool, none⟩ (threeBlocks.take n)

/-- The run is one of the node, where the previous block of each block is there. -/
theorem allowed_threeBlocks {room : ℕ → Bool}
    (hprev : ((after room 1).chain.entry genesisHash).isSome ∧
      ((after room 2).chain.entry firstHash).isSome ∧
      ((after room 3).chain.entry secondHash).isSome ∧ 0 ≤ (after room 4).chain.nBestHeight) :
    EachStep (step (threeNode room) genesisHash)
      (fun s o => o.1.Allowed (threeNode room) genesisHash s) ⟨.init listPool, none⟩
      threeBlocks := by
  obtain ⟨hfirst, hsecond, hthird, hfind⟩ := hprev
  have hgenesis : genesis.header.fields.getHash threeHash = genesisHash := by decide +kernel
  have hother : ∀ block ∈ [firstBlock, secondBlock, thirdBlock],
      block.header.fields.hashPrevBlock ≠ 0 := by
    decide
  refine ⟨⟨Or.inr ⟨rfl, ?_⟩, fun _ => hgenesis, fun _ h => by cases h⟩,
    ⟨Or.inl hfirst, fun h => absurd h (hother firstBlock (by simp)), fun _ h => by cases h⟩,
    ⟨Or.inl hsecond, fun h => absurd h (hother secondBlock (by simp)), fun _ h => by cases h⟩,
    ⟨Or.inl hthird, fun h => absurd h (hother thirdBlock (by simp)), fun _ h => by cases h⟩,
    ⟨le_rfl, hfind⟩, trivial⟩
  show genesis.header.fields.getHash threeHash ≠ 0
  rw [hgenesis]
  decide

theorem findBlockByHeight_finds_three :
    Throughout (step (threeNode fun _ => true) genesisHash) (FindsAll genesisHash)
      ⟨.init listPool, none⟩ threeBlocks :=
  findBlockByHeight_finds (threeNode fun _ => true) genesisHash
    (fun _ => ⟨rfl, rfl, rfl⟩) threeBlocks (allowed_threeBlocks (by decide +kernel))

/-- There is no room on the disk when the coins of the first block are to be written. The second
block makes itself and the third the best ones, but the link from the genesis block to the first
is never set. -/
def fullOnce (t : ℕ) : Bool := t != 7

theorem findBlockByHeight_null :
    EachStep (step (threeNode fullOnce) genesisHash)
        (fun s o => o.1.Allowed (threeNode fullOnce) genesisHash s) ⟨.init listPool, none⟩
        threeBlocks ∧
      (after fullOnce 5).chain.nBestHeight = 3 ∧
      (∀ fuel, findBlockByHeight (after fullOnce 5).chain (some genesisHash)
        (after fullOnce 5).pblockindexFBBHLast (fuel + 2) 1 = .error .nullLink) ∧
      ¬ Throughout (step (threeNode fullOnce) genesisHash) (FindsAll genesisHash)
        ⟨.init listPool, none⟩ threeBlocks := by
  -- one evaluation for all of them
  obtain ⟨hprev, hheight, hstart, hentry⟩ :
      (((after fullOnce 1).chain.entry genesisHash).isSome ∧
        ((after fullOnce 2).chain.entry firstHash).isSome ∧
        ((after fullOnce 3).chain.entry secondHash).isSome ∧
        0 ≤ (after fullOnce 4).chain.nBestHeight) ∧
      (after fullOnce 5).chain.nBestHeight = 3 ∧
      startOf (after fullOnce 5).chain (some genesisHash) (after fullOnce 5).pblockindexFBBHLast 1 =
        .ok (some genesisHash) ∧
      ((after fullOnce 5).chain.entry genesisHash).map (fun e => (e.nHeight, e.pnext)) =
        some (0, none) := by
    decide +kernel
  obtain ⟨e, he, hpair⟩ := Option.map_eq_some_iff.mp hentry
  obtain ⟨hzero, hnext⟩ := Prod.mk.inj hpair
  have hnull := findBlockByHeight_nullLink hstart he (by rw [hzero]; decide) hnext
  refine ⟨allowed_threeBlocks hprev, hheight, hnull, fun hall => ?_⟩
  have hfinds : FindsAll genesisHash (after fullOnce 5) := by
    unfold after
    rw [show threeBlocks.take 5 = threeBlocks from rfl]
    exact hall.last
  obtain ⟨h, -, hfound⟩ := hfinds 1 (by decide) (by rw [hheight]; decide)
  have hok := hfound 4 (by rw [hheight]; decide)
  rw [hnull 2] at hok
  cases hok

end MainNetwork

end UmbrellaLtc.HeightLookup
