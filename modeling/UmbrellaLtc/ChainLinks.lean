import UmbrellaLtc.ChainFrame
import UmbrellaLtc.ConnectSpec
import UmbrellaLtc.Forest

/-!
The block index as a tree with links to the best block. `ChainInv` is what
SetBestChain keeps whenever it succeeds: the links lead to pindexBest, the
best fields are those of pindexBest, and the coins are those of its chain.
When it fails in front of the flush of the view nothing of this has changed.
-/

namespace UmbrellaLtc.ChainLinks

open Codec Transaction Header Coins CoinsView CheckBlock ConnectBlock BestChain ChainFrame Prog
  FlatView ConnectSpec

variable {M : Type}

def parent (s : ChainState M) (h : Uint256) : Option Uint256 :=
  (s.entry h).bind CBlockIndex.pprev

def next (s : ChainState M) (h : Uint256) : Option Uint256 :=
  (s.entry h).bind CBlockIndex.pnext

/-- An entry without its link. -/
def unlinked (e : CBlockIndex) : CBlockIndex := { e with pnext := none }

/-- The part of an entry that is fixed when the entry is made. -/
def core (e : CBlockIndex) : CBlockIndex := shape (unlinked e)

/-- The same tree, in memory and on disk. -/
structure SameTree (s s' : ChainState M) : Prop where
  cores : ∀ h, (s'.entry h).map core = (s.entry h).map core
  diskIndex : s'.blockTree.diskIndex = s.blockTree.diskIndex
  statuses : ∀ h, (s.blockTree.blockIndex.lookup h).isSome →
    (s'.blockTree.blockIndex.lookup h).isSome

instance : IsPreorder (ChainState M) SameTree where
  refl _ := ⟨fun _ => Eq.refl _, Eq.refl _, fun _ h => h⟩
  trans _ _ _ hst htu :=
    ⟨fun h => (htu.cores h).trans (hst.cores h), htu.diskIndex.trans hst.diskIndex,
      fun h hh => htu.statuses h (hst.statuses h hh)⟩

/-- Parents have entries and are lower, and the records on disk are those of entries. -/
structure Tree (s : ChainState M) : Prop where
  known : ∀ c p, parent s c = some p → (s.entry p).isSome
  graded : Forest.Graded (parent s) s.height
  stored : ∀ h d, s.blockTree.diskIndex.lookup h = some d → ∃ e, s.entry h = some e ∧ e.toDisk = d

/-- The best fields are those of an entry. -/
structure BestIs (s : ChainState M) (b : Uint256) : Prop where
  known : (s.entry b).isSome
  hashBestChain : s.hashBestChain = b
  nBestHeight : s.nBestHeight = s.height b
  nBestChainWork : s.nBestChainWork = (s.entry b).elim 0 CBlockIndex.nChainWork

structure ChainInv (s : ChainState M) : Prop where
  tree : Tree s
  links : Forest.Linked (parent s) (next s) s.pindexBest
  best : ∀ b, s.pindexBest = some b → BestIs s b
  coins : s.pcoinsTip.flat.best = s.pindexBest.map s.ptr

section Same

variable {s s' : ChainState M}

/-- What is read off the core of an entry is the same in the same tree. -/
theorem SameTree.read (h : SameTree s s') {β : Type} (b : β) (g : CBlockIndex → β)
    (hg : ∀ e, g (core e) = g e) (t : Uint256) : (s'.entry t).elim b g = (s.entry t).elim b g := by
  have hfun : g ∘ core = g := funext hg
  rw [← hfun, ← Option.elim_map, ← Option.elim_map, h.cores t]

theorem SameTree.parent_eq (h : SameTree s s') : parent s' = parent s := by
  funext t
  show (s'.entry t).bind (CBlockIndex.pprev ∘ core) = (s.entry t).bind (CBlockIndex.pprev ∘ core)
  rw [← Option.bind_map, ← Option.bind_map, h.cores t]

theorem SameTree.height_eq (h : SameTree s s') : s'.height = s.height := by
  funext t
  exact h.read 0 CBlockIndex.nHeight (fun _ => rfl) t

theorem SameTree.isSome_eq (h : SameTree s s') (t : Uint256) :
    (s'.entry t).isSome = (s.entry t).isSome := by
  have hcore := congrArg Option.isSome (h.cores t)
  rwa [Option.isSome_map, Option.isSome_map] at hcore

theorem SameTree.tree (h : SameTree s s') (hs : Tree s) : Tree s' where
  known c p hp := by
    rw [h.parent_eq] at hp
    rw [h.isSome_eq]
    exact hs.known c p hp
  graded := by
    rw [h.parent_eq, h.height_eq]
    exact hs.graded
  stored t d hd := by
    rw [h.diskIndex] at hd
    obtain ⟨e, he, hdisk⟩ := hs.stored t d hd
    have hread := h.read none (fun e => some e.toDisk) (fun _ => rfl) t
    rw [he] at hread
    cases he' : s'.entry t with
    | none =>
      rw [he'] at hread
      exact absurd hread (by simp)
    | some e' =>
      rw [he'] at hread
      exact ⟨e', rfl, (Option.some.inj hread).trans hdisk⟩

theorem Frame.sameTree (h : Frame s s') : SameTree s s' where
  cores t := by
    have hshape := congrArg (Option.map unlinked) (h.shapes t)
    rw [Option.map_map, Option.map_map] at hshape
    exact hshape
  diskIndex := h.diskIndex
  statuses := h.statuses

theorem Frame.next_eq (h : Frame s s') : next s' = next s := by
  funext t
  show (s'.entry t).bind (CBlockIndex.pnext ∘ shape) = (s.entry t).bind (CBlockIndex.pnext ∘ shape)
  rw [← Option.bind_map, ← Option.bind_map, h.shapes t]

/-- A state with the same shapes and best fields. -/
theorem ChainInv.frame (hs : ChainInv s) (h : Frame s s') : ChainInv s' where
  tree := (Frame.sameTree h).tree hs.tree
  links := by
    rw [(Frame.sameTree h).parent_eq, Frame.next_eq h, h.pindexBest]
    exact hs.links
  best b hb := by
    rw [h.pindexBest] at hb
    obtain ⟨hknown, hhash, hheight, hwork⟩ := hs.best b hb
    constructor
    · rw [(Frame.sameTree h).isSome_eq]
      exact hknown
    · exact h.hashBestChain.trans hhash
    · rw [h.nBestHeight, (Frame.sameTree h).height_eq]
      exact hheight
    · rw [h.nBestChainWork, (Frame.sameTree h).read 0 CBlockIndex.nChainWork fun _ => rfl]
      exact hwork
  coins := by
    have hptr : s'.ptr = s.ptr := by
      funext t
      unfold ChainState.ptr
      rw [(Frame.sameTree h).height_eq]
    rw [h.coins, h.pindexBest, hptr]
    exact hs.coins

end Same

section Search

variable {s : ChainState M}

theorem parent_of_entry {h : Uint256} {e : CBlockIndex} (he : s.entry h = some e) :
    parent s h = e.pprev := by
  rw [parent, he]
  rfl

theorem height_of_entry {h : Uint256} {e : CBlockIndex} (he : s.entry h = some e) :
    s.height h = e.nHeight := by
  rw [ChainState.height, he]
  rfl

/-- The ancestors that are low enough are still ancestors of where the walk stops. -/
theorem lower_spec {nHeight fuel : ℕ} {x y : Uint256}
    (h : lower s nHeight fuel x = .ok y) :
    s.height y ≤ nHeight ∧
      ∀ a, Forest.Anc (parent s) a x → s.height a ≤ nHeight → Forest.Anc (parent s) a y := by
  induction fuel generalizing x with
  | zero => cases h
  | succ fuel ih =>
    unfold lower at h
    cases he : s.entry x with
    | none =>
      rw [he] at h
      cases h
    | some e =>
      rw [he] at h
      dsimp only at h
      split_ifs at h with hlt
      · cases hp : e.pprev with
        | none =>
          rw [hp] at h
          cases h
        | some p =>
          rw [hp] at h
          obtain ⟨hle, hanc⟩ := ih h
          refine ⟨hle, fun a ha hlow => hanc a ?_ hlow⟩
          apply ha.of_parent _ ((parent_of_entry he).trans hp)
          rintro rfl
          rw [height_of_entry he] at hlow
          omega
      · cases h
        rw [height_of_entry he]
        exact ⟨Nat.le_of_not_lt hlt, fun a ha _ => ha⟩

/-- The fork is below both, and above every common ancestor. -/
theorem findFork_spec (hs : Tree s) {fuel : ℕ} {pfork plonger : Uint256} {found : Option Uint256}
    (h : findFork s fuel (some pfork) plonger = .ok found) :
    ∃ f, found = some f ∧ ∀ a, Forest.Anc (parent s) a pfork → Forest.Anc (parent s) a plonger →
      Forest.Anc (parent s) a f := by
  induction fuel generalizing pfork plonger with
  | zero => cases h
  | succ fuel ih =>
    unfold findFork at h
    split_ifs at h with heq
    · cases h
      exact ⟨pfork, rfl, fun a ha _ => ha⟩
    cases he : s.entry pfork with
    | none =>
      rw [he] at h
      cases h
    | some e =>
      rw [he] at h
      dsimp only at h
      cases hlower : lower s e.nHeight (s.height plonger + 1) plonger with
      | error err =>
        rw [hlower] at h
        cases h
      | ok y =>
        obtain ⟨hle, hanc⟩ := lower_spec hlower
        rw [hlower] at h
        change (if pfork = y then _ else _) = _ at h
        split_ifs at h with hy
        · cases h
          exact ⟨pfork, rfl, fun a ha _ => ha⟩
        cases hp : e.pprev with
        | none =>
          rw [hp] at h
          cases h
        | some p =>
          rw [hp] at h
          obtain ⟨f, hf, hcommon⟩ := ih h
          refine ⟨f, hf, fun a ha hb => ?_⟩
          have hlow : s.height a ≤ e.nHeight := by
            rw [← height_of_entry he]
            exact ha.height_le hs.graded
          have hay := hanc a hb hlow
          apply hcommon a _ hay
          -- pfork is not an ancestor of what the walk has come to, so `a` is another one
          apply ha.of_parent _ ((parent_of_entry he).trans hp)
          rintro rfl
          apply hy
          apply hay.eq_of_height hs.graded
          rw [height_of_entry he]
          exact hle

theorem branch_spec {pfork start : Option Uint256} {fuel : ℕ} {l : List Uint256}
    (h : branch s pfork fuel start = .ok l) : Forest.Branch (parent s) start l pfork := by
  induction fuel generalizing start l with
  | zero => cases h
  | succ fuel ih =>
    unfold branch at h
    split_ifs at h with heq
    · cases h
      rw [heq]
      exact .nil pfork
    cases start with
    | none => cases h
    | some x =>
      dsimp only at h
      cases he : s.entry x with
      | none =>
        rw [he] at h
        cases h
      | some e =>
        rw [he] at h
        dsimp only at h
        cases hrest : branch s pfork fuel e.pprev with
        | error err =>
          rw [hrest] at h
          cases h
        | ok rest =>
          rw [hrest] at h
          cases h
          apply Forest.Branch.cons
          rw [parent_of_entry he]
          exact ih hrest

theorem findBranches_ok {best : Option Uint256} {pindexNew : Uint256}
    {vDisconnect vConnect : List Uint256}
    (h : findBranches s best pindexNew = .ok (vDisconnect, vConnect)) :
    ∃ pfork up, findFork s (walkFuel s best) best pindexNew = .ok pfork ∧
      branch s pfork (walkFuel s best) best = .ok vDisconnect ∧
      branch s pfork (walkFuel s (some pindexNew)) (some pindexNew) = .ok up ∧
      vConnect = up.reverse := by
  unfold findBranches at h
  cases hfork : findFork s (walkFuel s best) best pindexNew with
  | error err =>
    rw [hfork] at h
    cases h
  | ok pfork =>
    rw [hfork] at h
    change (branch s pfork (walkFuel s best) best >>= _) = _ at h
    cases hdown : branch s pfork (walkFuel s best) best with
    | error err =>
      rw [hdown] at h
      cases h
    | ok down =>
      rw [hdown] at h
      change (branch s pfork (walkFuel s (some pindexNew)) (some pindexNew) >>= _) = _ at h
      cases hup : branch s pfork (walkFuel s (some pindexNew)) (some pindexNew) with
      | error err =>
        rw [hup] at h
        cases h
      | ok up =>
        rw [hup] at h
        cases h
        exact ⟨pfork, up, rfl, hdown, hup, rfl⟩

/-- vDisconnect and vConnect are the branches down to one entry, and vConnect has no
ancestor of the old best block. -/
structure Branches (s : ChainState M) (best : Option Uint256) (pindexNew : Uint256)
    (vDisconnect vConnect : List Uint256) : Prop where
  branches : ∃ stop up, Forest.Branch (parent s) best vDisconnect stop ∧
    Forest.Branch (parent s) (some pindexNew) up stop ∧ vConnect = up.reverse
  fresh : ∀ h ∈ vConnect, ∀ b, best = some b → ¬ Forest.Anc (parent s) h b

theorem findBranches_spec (hs : Tree s) {best : Option Uint256} {pindexNew : Uint256}
    {vDisconnect vConnect : List Uint256}
    (h : findBranches s best pindexNew = .ok (vDisconnect, vConnect)) :
    Branches s best pindexNew vDisconnect vConnect := by
  obtain ⟨pfork, up, hfork, hdown, hup, rfl⟩ := findBranches_ok h
  constructor
  · exact ⟨pfork, up, branch_spec hdown, branch_spec hup, rfl⟩
  · rintro h hmem b rfl
    obtain ⟨f, rfl, hcommon⟩ := findFork_spec hs hfork
    exact (branch_spec hup).not_anc hs.graded hcommon (List.mem_reverse.mp hmem)

/-- A new best block that was found to have branches has an entry. -/
theorem entry_of_findBranches {best : Option Uint256} {pindexNew : Uint256}
    {vDisconnect vConnect : List Uint256} (hbest : ∀ b, best = some b → (s.entry b).isSome)
    (h : findBranches s best pindexNew = .ok (vDisconnect, vConnect)) :
    (s.entry pindexNew).isSome := by
  obtain ⟨pfork, up, hfork, -, hup, -⟩ := findBranches_ok h
  by_contra hnone
  rw [Option.not_isSome_iff_eq_none] at hnone
  cases best with
  | none =>
    obtain rfl : none = pfork := by
      cases hfork
      rfl
    change branch s none (_ + 1) (some pindexNew) = _ at hup
    unfold branch at hup
    rw [if_neg (by simp)] at hup
    dsimp only at hup
    rw [hnone] at hup
    cases hup
  | some b =>
    obtain ⟨e, he⟩ := Option.isSome_iff_exists.mp (hbest b rfl)
    have hne : b ≠ pindexNew := by
      rintro rfl
      rw [hnone] at he
      cases he
    have hlower : lower s e.nHeight (s.height pindexNew + 1) pindexNew =
        .error (.failed .assertion) := by
      unfold lower
      rw [hnone]
    change findFork s (_ + 1) (some b) pindexNew = _ at hfork
    unfold findFork at hfork
    rw [if_neg hne, he] at hfork
    dsimp only at hfork
    rw [hlower] at hfork
    cases hfork

end Search

section Relinking

theorem sameTree_of_unlinked {s s' : ChainState M}
    (h : ∀ t, (s'.entry t).map unlinked = (s.entry t).map unlinked)
    (hdisk : s'.blockTree = s.blockTree) : SameTree s s' where
  cores t := by
    have hshape := congrArg (Option.map shape) (h t)
    rw [Option.map_map, Option.map_map] at hshape
    exact hshape
  diskIndex := by rw [hdisk]
  statuses h hh := by
    rw [hdisk]
    exact hh

theorem unlinked_setPnext (s : ChainState M) (p : Uint256) (v : Option Uint256) (t : Uint256) :
    ((s.setPnext p v).entry t).map unlinked = (s.entry t).map unlinked := by
  rw [ChainState.setPnext, entry_modify]
  split_ifs
  · rw [Option.map_map]
    rfl
  · rfl

theorem next_setPnext {s : ChainState M} {p : Uint256} (v : Option Uint256)
    (hp : (s.entry p).isSome) : next (s.setPnext p v) = Function.update (next s) p v := by
  funext t
  rw [next, ChainState.setPnext, entry_modify]
  split_ifs with ht
  · subst ht
    obtain ⟨e, he⟩ := Option.isSome_iff_exists.mp hp
    rw [he, Function.update_self]
    rfl
  · rw [Function.update_of_ne ht]
    rfl

/-- The loop over the links is the assignment of links in a forest. -/
theorem setLinks_spec (value : Uint256 → Option Uint256) (l : List Uint256) (s : ChainState M)
    (hs : ∀ c p, parent s c = some p → (s.entry p).isSome) :
    (∀ t, ((setLinks value l s).entry t).map unlinked = (s.entry t).map unlinked) ∧
      next (setLinks value l s) = Forest.assign (parent s) value (next s) l ∧
      setLinks value l s = { s with mapBlockIndex := (setLinks value l s).mapBlockIndex } := by
  induction l generalizing s with
  | nil => exact ⟨fun _ => rfl, rfl, rfl⟩
  | cons h rest ih =>
    have hstep : setLinks value (h :: rest) s =
        setLinks value rest ((parent s h).elim s fun p => s.setPnext p (value h)) := rfl
    rw [hstep]
    unfold Forest.assign
    cases hp : parent s h with
    | none => exact ih s hs
    | some p =>
      have hother : s.setPnext p (value h) =
          { s with mapBlockIndex := (s.setPnext p (value h)).mapBlockIndex } := modify_eq s p _
      have hsame : SameTree s (s.setPnext p (value h)) :=
        sameTree_of_unlinked (unlinked_setPnext s p (value h)) (by rw [hother])
      have hknown : ∀ c q, parent (s.setPnext p (value h)) c = some q →
          ((s.setPnext p (value h)).entry q).isSome := by
        intro c q hq
        rw [hsame.isSome_eq]
        rw [hsame.parent_eq] at hq
        exact hs c q hq
      obtain ⟨hrest, hnext, hrestOther⟩ := ih _ hknown
      refine ⟨fun t => (hrest t).trans (unlinked_setPnext s p (value h) t), ?_, ?_⟩
      · dsimp only [Option.elim]
        rw [hnext, hsame.parent_eq, next_setPnext _ (hs h p hp)]
      · dsimp only [Option.elim]
        rw [hrestOther, hother]

end Relinking

section Tips

variable {β : Type} [LawfulBase β]

/-- A cache that has the best block itself, and the flat view of it. -/
def HasTip (b : Flat) (k : Cache β) (f : Flat) : Prop := Stands b k f ∧ k.pindexTip = f.best

theorem cacheSim_hasTip (b : Flat) : CacheSim (fun (k : Cache β) (f : Flat) => HasTip b k f) where
  fetchCoins txid k f h := by
    obtain ⟨hval, hstands⟩ := (cacheSim_stands b).fetchCoins txid k f h.1
    refine ⟨hval, hstands, ?_⟩
    show (Cache.fetchCoins txid k).2.pindexTip = f.best
    rw [← h.2]
    unfold Cache.fetchCoins
    split
    · rfl
    · split
      · rfl
      · rfl
  setCoins txid c k f h := ⟨(cacheSim_stands b).setCoins txid c k f h.1, h.2⟩
  getBestBlock k f h := by
    obtain ⟨hval, hstands⟩ := (cacheSim_stands b).getBestBlock k f h.1
    refine ⟨hval, hstands, ?_⟩
    show (Cache.getBestBlock k).2.pindexTip = f.best
    have hfst : (Cache.getBestBlock k).1 = f.best := hval
    rw [← hfst]
    unfold Cache.getBestBlock
    split
    · rename_i p hp
      exact hp
    · rfl
  setBestBlock pindex k f h := ⟨(cacheSim_stands b).setBestBlock pindex k f h.1, rfl⟩

variable {env : Env} {io : BlockIo} {block : CBlock} {pindex : PIndex} {s s' : BlockCtx (Cache β)}

theorem disconnectBlock_best (env : Env) (io : BlockIo) (block : CBlock) (pindex : PIndex)
    (s : BlockCtx Flat) :
    Holds (disconnectBlock env io block pindex) s (fun _ s' => s'.view.best = pindex.pprev)
      (fun _ => True) := by
  refine holds_bind ((holds_any _ s).mono (fun best s _ => ?_) fun _ h => h)
  refine holds_check (fun _ => trivial) fun _ => ?_
  refine holds_bind ((holds_any _ s).mono (fun nStatus s _ => ?_) fun _ h => h)
  refine holds_check (fun _ => trivial) fun _ => ?_
  refine holds_bind ((holds_any _ s).mono (fun undo s _ => ?_) fun _ h => h)
  rcases pindex.pprev with _ | pprev
  · trivial
  rcases undo with _ | undo
  · trivial
  refine holds_bind ((holds_any _ s).mono (fun fClean s _ => ?_) fun _ h => h)
  exact rfl

/-- DisconnectBlock leaves the best block of the previous entry in the cache. -/
theorem disconnectBlock_tip (htip : s.view.pindexTip = s.view.flat.best) {fClean : Bool}
    (h : (disconnectBlock env io block pindex).run s = (.ok fClean, s')) :
    s'.view.pindexTip = pindex.pprev ∧ s'.view.flat.best = pindex.pprev := by
  have hs : CtxRel (HasTip (LawfulBase.flat s.view.base)) s (flatCtx s) :=
    ⟨⟨⟨rfl, rfl⟩, htip⟩, rfl, rfl, rfl⟩
  have hsim := sim_disconnectBlock (cacheSim_hasTip (β := β) (LawfulBase.flat s.view.base)) env
    io block pindex
  obtain ⟨hval, hrel⟩ := hsim s (flatCtx s) hs
  rw [h] at hval hrel
  have hbest := (disconnectBlock_best env io block pindex (flatCtx s)).of_ok (Prod.ext hval.symm rfl)
  obtain ⟨⟨hflat, -⟩, htip'⟩ := hrel.view
  dsimp only at hflat htip'
  rw [htip', hflat]
  exact ⟨hbest, hbest⟩

theorem connectBlock_tip {io : BlockIo} (htip : s.view.pindexTip = s.view.flat.best)
    {undo : Option CBlockUndo}
    (h : (connectBlock env io block pindex false).run s = (.ok undo, s')) :
    s'.view.pindexTip = some pindex.ptr ∧ s'.view.flat.best = some pindex.ptr := by
  have hs : CtxRel (HasTip (LawfulBase.flat s.view.base)) s (flatCtx s) :=
    ⟨⟨⟨rfl, rfl⟩, htip⟩, rfl, rfl, rfl⟩
  have hsim := sim_connectBlock (cacheSim_hasTip (β := β) (LawfulBase.flat s.view.base)) env io
    block pindex false
  obtain ⟨hval, hrel⟩ := hsim s (flatCtx s) hs
  rw [h] at hval hrel
  have hspec := (@holds_connectBlock False env io block pindex false (flatCtx s)
    (fun hf => absurd hf id)).of_ok (Prod.ext hval.symm rfl)
  obtain ⟨-, f', -, -, hview⟩ := hspec
  obtain ⟨hbest, -⟩ := hview rfl
  obtain ⟨⟨hflat, -⟩, htip'⟩ := hrel.view
  dsimp only at hflat htip'
  rw [htip', hflat, hbest]
  exact ⟨rfl, rfl⟩

end Tips

section Loops

variable (node : Node M) {sw : Switch M}

/-- The view has the best block, in the cache itself. -/
def AtTip (sw : Switch M) (best : Option BlockPtr) : Prop :=
  sw.view.pindexTip = best ∧ sw.view.flat.best = best

theorem holds_openBlock (h : Uint256) (sw : Switch M) :
    Holds (openBlock node h) sw
      (fun _ sw' => sw'.view = sw.view ∧ sw'.chain.mapBlockIndex = sw.chain.mapBlockIndex)
      (fun _ => True) := by
  refine holds_bind (holds_zoom (holds_act _ ?_))
  refine holds_bind (holds_zoom ?_)
  unfold Holds
  rw [find_run]
  cases ChainState.entry _ h with
  | none => trivial
  | some e =>
    refine holds_bind (holds_lift (fun found _ => ?_) fun _ _ => trivial)
    cases found with
    | none => trivial
    | some block => exact holds_pure _ ⟨rfl, rfl⟩

/-- A step that leaves the best block `best e` of an entry in the cache. -/
theorem holds_onBlock {α : Type} {h : Uint256}
    {x : PIndex → Prog (BlockCtx (Cache (Cache CoinsDb))) Failure α}
    (best : PIndex → Option BlockPtr) (hbest : ∀ pindex s a s',
      s.view.pindexTip = s.view.flat.best → (x pindex).run s = (.ok a, s') →
        s'.view.pindexTip = best pindex ∧ s'.view.flat.best = best pindex)
    (htip : sw.view.pindexTip = sw.view.flat.best) :
    Holds (onBlock h x) sw (fun _ sw' => ∃ e, sw.chain.entry h = some e ∧
      AtTip sw' (best (sw.chain.pindex h e))) (fun _ => True) := by
  unfold Holds
  cases he : sw.chain.entry h with
  | none =>
    rw [onBlock_run_none he]
    trivial
  | some e =>
    rw [onBlock_run he]
    rcases hrun : (x (sw.chain.pindex h e)).run (blockCtx sw h e) with ⟨err | a, ctx⟩
    · trivial
    · exact ⟨e, rfl, hbest _ _ a ctx htip hrun⟩

theorem holds_disconnectStep (vResurrect : List CTransaction) (h : Uint256)
    (htip : sw.view.pindexTip = sw.view.flat.best) :
    Holds (disconnectStep node vResurrect h) sw
      (fun _ sw' => AtTip sw' ((parent sw.chain h).map sw.chain.ptr)) (fun _ => True) := by
  refine holds_bind ((holds_openBlock node h sw).mono ?_ fun _ he => he)
  rintro ⟨io, e, block⟩ sw₁ ⟨hview, hmap⟩
  have htip₁ : sw₁.view.pindexTip = sw₁.view.flat.best := by
    rw [hview]
    exact htip
  refine holds_bind ((holds_onBlock PIndex.pprev ?_ htip₁).mono ?_ fun _ he => he)
  · intro pindex s a s' htip hrun
    exact disconnectBlock_tip htip hrun
  · rintro _ sw' ⟨e, he, hat⟩
    have hentry : sw.chain.entry h = some e := by
      rw [← he, ChainState.entry, ChainState.entry, hmap]
    have hptr : sw₁.chain.ptr = sw.chain.ptr := by
      funext t
      rw [ChainState.ptr, ChainState.height, ChainState.entry, hmap]
      rfl
    rw [parent_of_entry hentry, ← hptr]
    refine holds_check (fun _ => trivial) fun _ => ?_
    exact holds_pure _ hat

theorem holds_blame {α : Type} {x : Prog (Switch M) Failure α} {Q : α → Switch M → Prop}
    (pindex : Option Uint256) (h : Holds x sw Q fun _ => True) :
    Holds (blame pindex x) sw Q (fun f => f.pindex = pindex) := by
  unfold Holds at h ⊢
  rw [blame_run]
  rcases hrun : x.run sw with ⟨e | a, sw'⟩
  · rfl
  · rw [hrun] at h
    exact h

theorem holds_connectStep (vDelete : List CTransaction) (h : Uint256)
    (htip : sw.view.pindexTip = sw.view.flat.best) :
    Holds (connectStep node vDelete h) sw (fun _ sw' => AtTip sw' (some (sw.chain.ptr h)))
      (fun f => ∀ t, f.pindex = some t → t = h) := by
  refine holds_bind ((holds_blame none (holds_openBlock node h sw)).mono ?_ ?_)
  · rintro ⟨io, e, block⟩ sw₁ ⟨hview, hmap⟩
    have htip₁ : sw₁.view.pindexTip = sw₁.view.flat.best := by
      rw [hview]
      exact htip
    have hblock : Holds (onBlock h fun pindex => connectBlock (node.env io) io.block block pindex
        false) sw₁ (fun _ sw' => ∃ e, sw₁.chain.entry h = some e ∧
          AtTip sw' (some (sw₁.chain.pindex h e).ptr)) (fun _ => True) := by
      apply holds_onBlock (fun pindex => some pindex.ptr) _ htip₁
      intro pindex s a s' htip hrun
      exact connectBlock_tip htip hrun
    refine holds_bind ((holds_blame (some h) hblock).mono ?_ ?_)
    · rintro _ sw' ⟨e, he, hat⟩
      have hentry : sw.chain.entry h = some e := by
        rw [← he, ChainState.entry, ChainState.entry, hmap]
      rw [ChainState.ptr, height_of_entry hentry]
      exact holds_pure _ hat
    · intro f hf t ht
      exact Option.some.inj (ht.symm.trans hf)
  · intro f hf t ht
    rw [hf] at ht
    cases ht

theorem SwitchFrame.ptr_eq {sw sw' : Switch M} (h : SwitchFrame sw sw') :
    sw'.chain.ptr = sw.chain.ptr := by
  have hheight : sw'.chain.height = sw.chain.height := (Frame.sameTree h.close).height_eq
  funext t
  rw [ChainState.ptr, hheight]
  rfl

theorem SwitchFrame.parent_eq {sw sw' : Switch M} (h : SwitchFrame sw sw') :
    parent sw'.chain = parent sw.chain := (Frame.sameTree h.close).parent_eq

/-- The loop that disconnects the blocks of a branch comes to where the branch stops. -/
theorem holds_disconnects {start stop : Option Uint256} {l : List Uint256}
    (hl : Forest.Branch (parent sw.chain) start l stop)
    (htip : AtTip sw (start.map sw.chain.ptr)) (vResurrect : List CTransaction) :
    Holds (l.foldlM (disconnectStep node) vResurrect) sw
      (fun _ sw' => SwitchFrame sw sw' ∧ AtTip sw' (stop.map sw.chain.ptr)) (fun _ => True) := by
  refine (holds_foldlM (fun rest _ sw' => SwitchFrame sw sw' ∧
    ∃ x, Forest.Branch (parent sw.chain) x rest stop ∧ AtTip sw' (x.map sw.chain.ptr))
    ?_ l vResurrect sw ⟨refl sw, start, hl, htip⟩).mono ?_ fun _ he => he
  · rintro c rest v sw' ⟨hframe, x, hbranch, hat⟩
    cases hbranch with
    | cons hrest =>
      have hstep := holds_disconnectStep node v c (hat.1.trans hat.2.symm)
      refine (hstep.and_within (within_disconnectStep node v c)).mono ?_ fun _ he => he
      rintro _ sw'' ⟨hmove, hat'⟩
      rw [SwitchFrame.parent_eq hframe, SwitchFrame.ptr_eq hframe] at hat'
      exact ⟨IsTrans.trans _ _ _ hframe hmove, _, hrest, hat'⟩
  · rintro _ sw' ⟨hframe, x, hbranch, hat⟩
    cases hbranch
    exact ⟨hframe, hat⟩

/-- The loop that connects the blocks of a list comes to the last of them. -/
theorem holds_connects {l : List Uint256} {last : Uint256}
    (hl : l.getLast? = some last ∨ l = [] ∧ AtTip sw (some (sw.chain.ptr last)))
    (htip : sw.view.pindexTip = sw.view.flat.best) (vDelete : List CTransaction) :
    Holds (l.foldlM (connectStep node) vDelete) sw
      (fun _ sw' => AtTip sw' (some (sw.chain.ptr last)))
      (fun f => ∀ t, f.pindex = some t → t ∈ l) := by
  refine (holds_foldlM (fun rest _ sw' => SwitchFrame sw sw' ∧ (∀ c ∈ rest, c ∈ l) ∧
    sw'.view.pindexTip = sw'.view.flat.best ∧ (rest.getLast? = some last ∨ rest = [] ∧
      AtTip sw' (some (sw.chain.ptr last)))) ?_ l vDelete sw
    ⟨refl sw, fun _ hc => hc, htip, hl⟩).mono ?_ fun _ he => he
  · rintro c rest v sw' ⟨hframe, hsub, htip', hlast⟩
    have hstep := holds_connectStep node v c htip'
    refine (hstep.and_within (within_connectStep node v c)).mono ?_ ?_
    · rintro _ sw'' ⟨hmove, hat⟩
      rw [SwitchFrame.ptr_eq hframe] at hat
      refine ⟨IsTrans.trans _ _ _ hframe hmove, fun d hd => hsub d (List.mem_cons_of_mem _ hd),
        hat.1.trans hat.2.symm, ?_⟩
      rcases hlast with hlast | ⟨habs, -⟩
      · cases rest with
        | nil =>
          obtain rfl : c = last := by simpa using hlast
          exact Or.inr ⟨rfl, hat⟩
        | cons d rest =>
          rw [List.getLast?_cons_cons] at hlast
          exact Or.inl hlast
      · cases habs
    · intro f hf t ht
      rw [hf t ht]
      exact hsub c List.mem_cons_self
  · rintro _ sw' ⟨-, -, -, hlast | ⟨-, hat⟩⟩
    · cases hlast
    · exact hat

end Loops

end UmbrellaLtc.ChainLinks
