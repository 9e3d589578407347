import UmbrellaLtc.ChainLinks

/-!
SetBestChain as a whole. When it succeeds the chain state is in order around the
new best block. When it fails nothing but status data has changed, as long as
the coins can be written once the view has been flushed.
-/

namespace UmbrellaLtc.Reorganise

open Codec Transaction Header Coins CoinsView CheckBlock ConnectBlock BestChain ChainFrame
  ChainLinks Prog

variable {M : Type}

section Switching

variable (node : Node M) {sw : Switch M} {best : Option Uint256} {pindexNew : Uint256}
  {vDisconnect vConnect : List Uint256}

/-- The loops over both branches come to the new best block. -/
theorem holds_switchBranches (hb : Branches sw.chain best pindexNew vDisconnect vConnect)
    (htip : AtTip sw (best.map sw.chain.ptr)) :
    Holds (switchBranches node vDisconnect vConnect) sw
      (fun _ sw' => AtTip sw' (some (sw.chain.ptr pindexNew)))
      (fun f => ∀ h, f.pindex = some h → h ∈ vConnect) := by
  obtain ⟨stop, up, hdown, hup, rfl⟩ := hb.branches
  refine holds_bind ((holds_blame none (holds_disconnects node hdown htip [])).mono ?_ ?_)
  · rintro vResurrect sw₁ ⟨hframe, hat⟩
    have hptr := SwitchFrame.ptr_eq hframe
    have hlast : up.reverse.getLast? = some pindexNew ∨
        up.reverse = [] ∧ AtTip sw₁ (some (sw₁.chain.ptr pindexNew)) := by
      cases hup with
      | nil =>
        rw [hptr]
        exact Or.inr ⟨rfl, hat⟩
      | cons hrest =>
        left
        rw [List.getLast?_reverse]
        rfl
    have hconnects := holds_connects node hlast (hat.1.trans hat.2.symm) []
    rw [hptr] at hconnects
    exact holds_bind (hconnects.mono (fun vDelete sw₂ hat => holds_pure _ hat) fun _ he => he)
  · intro f hf h hh
    rw [hf] at hh
    cases hh

end Switching

/-- The coins can be written, if that is asked for at this moment of the world. -/
def LateOk (io : Io) : Prop := io.checkDiskSpace = true ∧ io.sync = .ok ∧ io.coinsWrite = .ok

/-- Nothing but the coins and the clock differs, and the best block of the coins is the
same. -/
structure Written (s s' : ChainState M) : Prop where
  rest : s' = { s with pcoinsTip := s'.pcoinsTip, clock := s'.clock }
  best : s'.pcoinsTip.flat.best = s.pcoinsTip.flat.best

instance : IsPreorder (ChainState M) Written where
  refl _ := ⟨rfl, rfl⟩
  trans s t u hst htu := by
    constructor
    · rw [htu.rest, hst.rest]
    · exact htu.best.trans hst.best

theorem Written.sameTree {s s' : ChainState M} (h : Written s s') : SameTree s s' := by
  rw [h.rest]
  exact ⟨fun _ => rfl, rfl, fun _ h => h⟩

theorem chainInv_written {s s' : ChainState M} (hs : ChainInv s) (h : Written s s') :
    ChainInv s' := by
  obtain ⟨hrest, hbest⟩ := h
  have hcoins : s'.pcoinsTip.flat.best = s'.pindexBest.map s'.ptr := by
    rw [hbest, hs.coins, hrest]
    rfl
  rw [hrest] at hcoins ⊢
  exact ⟨⟨hs.tree.known, hs.tree.graded, hs.tree.stored⟩, hs.links,
    fun b hb => ⟨(hs.best b hb).known, (hs.best b hb).hashBestChain, (hs.best b hb).nBestHeight,
      (hs.best b hb).nBestChainWork⟩, hcoins⟩

section Writing

theorem flush_best (fWrite : Bool) (k : Cache CoinsDb) :
    (k.flush fWrite).2.flat.best = k.flat.best := by
  cases fWrite with
  | false => rfl
  | true =>
    show (k.pindexTip.orElse fun _ => k.pindexTip.orElse fun _ => k.base.best) =
      k.pindexTip.orElse fun _ => k.base.best
    cases k.pindexTip with
    | none => rfl
    | some p => rfl

theorem within_flushCoins (io : Io) : Within (Written (M := M)) (flushCoins io) := by
  refine within_bind (within_lift _) fun written => ?_
  refine within_bind (fun s => ⟨rfl, ?_⟩) fun fOk => within_check _ _
  exact flush_best written s.pcoinsTip

theorem within_writeCoins (io : Io) : Within (Written (M := M)) (writeCoins io) := by
  refine within_bind (fun s => refl (r := Written) s) fun nCacheSize => ?_
  split_ifs
  · refine within_bind (within_check _ _) fun _ => ?_
    refine within_bind (within_lift _) fun _ => ?_
    exact within_flushCoins io
  · exact within_pure ()

theorem writeBatch_eq {status : Status} {e : Failure} (h : writeBatch status = .error e) :
    status ≠ .ok := by
  rintro rfl
  cases h

theorem writeBatch_true {status : Status} {written : Bool} (h : writeBatch status = .ok written) :
    written = true := by
  cases status <;> cases h
  rfl

/-- The coins are written unless the world does not let them. -/
theorem holds_writeCoins (io : Io) (s : ChainState M) :
    Holds (writeCoins io) s (fun _ s' => Written s s') (fun _ => ¬ LateOk io) := by
  have hend : Holds (writeCoins io) s (fun _ _ => True) (fun _ => ¬ LateOk io) := by
    refine holds_bind (holds_act _ ?_)
    dsimp only
    split_ifs
    · refine holds_check (fun hspace hlate => hspace hlate.1) fun _ => ?_
      refine holds_bind (holds_lift (fun _ _ => ?_) fun e he hlate => ?_)
      · refine holds_bind (holds_lift (fun written hwritten => ?_) fun e he hlate => ?_)
        · obtain rfl := writeBatch_true hwritten
          refine holds_bind (holds_act _ ?_)
          exact Holds.mono (reads_check fun hne => absurd rfl hne) (fun _ _ _ => trivial)
            fun _ he => he
        · exact writeBatch_eq he hlate.2.2
      · exact writeBatch_eq he hlate.2.1
    · trivial
  exact (hend.and_within (within_writeCoins io)).mono (fun _ _ h => h.1) fun _ h => h

end Writing

section Committing

variable (node : Node M)

/-- The memory pool takes the transactions: the pool changes and the coins stand for the
same. -/
structure Pooled (s s' : ChainState M) : Prop where
  rest : s' = { s with pcoinsTip := s'.pcoinsTip, mempool := s'.mempool }
  coins : s'.pcoinsTip.flat = s.pcoinsTip.flat

theorem Pooled.trans {s t u : ChainState M} (hst : Pooled s t) (htu : Pooled t u) :
    Pooled s u := by
  constructor
  · rw [htu.rest, hst.rest]
  · exact htu.coins.trans hst.coins

theorem pooled_resurrect (s : ChainState M) (tx : CTransaction) :
    Pooled s (resurrect node s tx) := ⟨rfl, (node.pool.accept tx s.pcoinsTip s.mempool).2.2.2⟩

theorem pooled_foldl {f : ChainState M → CTransaction → ChainState M}
    (hf : ∀ s tx, Pooled s (f s tx)) (txs : List CTransaction) (s : ChainState M) :
    Pooled s (txs.foldl f s) := by
  induction txs generalizing s with
  | nil => exact ⟨rfl, rfl⟩
  | cons tx rest ih => exact (hf s tx).trans (ih _)

theorem pooled_commit (txs : List CTransaction × List CTransaction) (s : ChainState M) :
    Pooled s (txs.2.foldl (removeConnected node) (txs.1.foldl (resurrect node) s)) := by
  have hremove : ∀ s tx, Pooled s (removeConnected node s tx) := fun s tx => ⟨rfl, rfl⟩
  exact (pooled_foldl (pooled_resurrect node) txs.1 s).trans (pooled_foldl hremove txs.2 _)

/-- What the part behind the flush comes to, unless the coins cannot be written. -/
theorem holds_commit (pindexNew : Uint256) (vDisconnect vConnect : List Uint256)
    (txs : List CTransaction × List CTransaction) (s : ChainState M) :
    Holds (commit node pindexNew vDisconnect vConnect txs) s
      (fun _ s' => ∃ t u, Written s t ∧
        Pooled (setLinks some vConnect (setLinks (fun _ => none) vDisconnect t)) u ∧
        s' = setBest pindexNew u) (fun _ => ¬ ∀ t, LateOk (node.world t)) := by
  refine holds_bind (holds_act _ ?_)
  refine holds_bind ((holds_writeCoins _ _).mono ?_ ?_)
  · intro _ t hwritten
    have hask : Written s { s with clock := s.clock + 1 } := ⟨rfl, rfl⟩
    exact ⟨t, _, IsTrans.trans _ _ _ hask hwritten, pooled_commit node txs _, rfl⟩
  · intro _ hnot hlate
    exact hnot (hlate s.clock)

/-- The state that a successful SetBestChain leaves. -/
structure Switched (s s' : ChainState M) (pindexNew : Uint256) : Prop where
  inv : ChainInv s'
  best : s'.pindexBest = some pindexNew
  tree : SameTree s s'
  setBlockIndexValid : s'.setBlockIndexValid = s.setBlockIndexValid
  failed : ∀ h, (s'.entry h).map CBlockIndex.failed = (s.entry h).map CBlockIndex.failed

/-- The links are moved to the new best block, whose coins are in pcoinsTip already. -/
theorem switched_commit {s t u : ChainState M} {best : Option Uint256} {pindexNew : Uint256}
    {vDisconnect vConnect : List Uint256} (hs : Tree s)
    (hlinks : Forest.Linked (parent s) (next s) best)
    (hb : Branches s best pindexNew vDisconnect vConnect) (hknown : (s.entry pindexNew).isSome)
    (hcoins : s.pcoinsTip.flat.best = some (s.ptr pindexNew)) (hwritten : Written s t)
    (hpooled : Pooled (setLinks some vConnect (setLinks (fun _ => none) vDisconnect t)) u) :
    Switched s (setBest pindexNew u) pindexNew := by
  have hwrite := hwritten.rest
  have hst : SameTree s t := hwritten.sameTree
  have htknown := (hst.tree hs).known
  obtain ⟨hdown, hdownNext, hdownRest⟩ := setLinks_spec (fun _ => none) vDisconnect t htknown
  generalize hd : setLinks (fun _ => none) vDisconnect t = d at hdown hdownNext hdownRest hpooled
  have htd : SameTree t d := sameTree_of_unlinked hdown (by rw [hdownRest])
  have hsd : SameTree s d := IsTrans.trans _ _ _ hst htd
  have hdknown := (hsd.tree hs).known
  obtain ⟨hup, hupNext, hupRest⟩ := setLinks_spec some vConnect d hdknown
  generalize hl : setLinks some vConnect d = l at hup hupNext hupRest hpooled
  have hdl : SameTree d l := sameTree_of_unlinked hup (by rw [hupRest])
  have hsl : SameTree s l := IsTrans.trans _ _ _ hsd hdl
  have hpool := hpooled.rest
  have hentry : ∀ h, (setBest pindexNew u).entry h = l.entry h := by
    intro h
    show u.entry h = l.entry h
    rw [hpool]
    rfl
  have htree : SameTree s (setBest pindexNew u) := by
    constructor
    · intro h
      rw [hentry]
      exact hsl.cores h
    · show u.blockTree.diskIndex = _
      rw [hpool]
      exact hsl.diskIndex
    · intro h hh
      show (u.blockTree.blockIndex.lookup h).isSome
      rw [hpool]
      exact hsl.statuses h hh
  have hunlinked : ∀ h, ((setBest pindexNew u).entry h).map unlinked = (s.entry h).map unlinked := by
    intro h
    rw [hentry, hup h, hdown h, hwrite]
    rfl
  refine ⟨⟨htree.tree hs, ?_, ?_, ?_⟩, rfl, htree, ?_, ?_⟩
  · have hnext : next (setBest pindexNew u) =
        Forest.link (parent s) (Forest.unlink (parent s) (next s) vDisconnect) vConnect := by
      have hsame : next (setBest pindexNew u) = next l := by
        funext h
        rw [next, hentry]
        rfl
      have htnext : next t = next s := by
        funext h
        rw [next, hwrite]
        rfl
      rw [hsame, hupNext, hdownNext, hsd.parent_eq, hst.parent_eq, htnext]
      rfl
    obtain ⟨stop, up, hbdown, hbup, rfl⟩ := hb.branches
    rw [htree.parent_eq, hnext]
    exact hlinks.switch hs.graded hbdown hbup fun c => List.mem_reverse
  · intro b hbest
    obtain rfl := Option.some.inj hbest
    refine ⟨?_, rfl, rfl, rfl⟩
    rw [htree.isSome_eq]
    exact hknown
  · have hlbest : l.pcoinsTip.flat.best = s.pcoinsTip.flat.best := by
      rw [hupRest, hdownRest]
      exact hwritten.best
    have hbest : (setBest pindexNew u).pcoinsTip.flat.best = s.pcoinsTip.flat.best :=
      (congrArg Flat.best hpooled.coins).trans hlbest
    rw [hbest, hcoins]
    show some (s.ptr pindexNew) = some ((setBest pindexNew u).ptr pindexNew)
    rw [ChainState.ptr, ChainState.ptr, htree.height_eq]
  · show u.setBlockIndexValid = _
    rw [hpool, hupRest, hdownRest, hwrite]
  · intro h
    have hmap := congrArg (Option.map CBlockIndex.failed) (hunlinked h)
    rw [Option.map_map, Option.map_map] at hmap
    exact hmap

end Committing

section GivingUp

variable (node : Node M) (nested : Prog (ChainState M) Fault Unit)

theorem holds_plain {α : Type} {x : Prog (ChainState M) Failure α} {s : ChainState M}
    {Q : α → ChainState M → Prop} (h : Holds x s Q fun _ => True) :
    Holds (plain x) s Q (· ≠ .noFuel) := by
  unfold Holds at h ⊢
  rw [plain_run]
  rcases hrun : x.run s with ⟨e | a, s'⟩
  · intro habs
    cases habs
  · rw [hrun] at h
    exact h

/-- Without a link there is nothing to reorganise away from. -/
theorem reorganiseAway_run {h : Uint256} {s : ChainState M} (hnext : next s h = none) :
    (reorganiseAway nested h).run s =
      ((s.entry h).elim (.error (.failed .assertion)) fun _ => .ok (), s) := by
  have hfind := plain_run (find h) s
  rw [find_run] at hfind
  unfold reorganiseAway
  cases he : s.entry h with
  | none =>
    rw [he] at hfind
    rw [run_bind_error hfind]
    rfl
  | some e =>
    rw [he] at hfind
    rw [run_bind_ok hfind]
    have hpnext : e.pnext = none := by
      rw [next, he] at hnext
      exact hnext
    rw [if_neg (fun hne => hne hpnext)]
    rfl

theorem keeps_plain {α : Type} {s : ChainState M} {x : Prog (ChainState M) Failure α}
    (hx : Within Frame x) : Keeps True (Frame s) (plain x) :=
  keeps_of_within (fun _ _ htu hst => hst.trans htu) (within_plain hx)

/-- When the branches cannot be switched only status data changes. -/
theorem giveUp_frame {pindexNew : Uint256} {f : SwitchFailure} {s : ChainState M}
    (hfresh : ∀ h, f.pindex = some h → next s h = none) :
    Frame s ((giveUp node nested pindexNew f).run s).2 := by
  unfold giveUp
  cases hp : f.pindex with
  | none => exact Frame.rfl
  | some h =>
    dsimp only
    split_ifs
    · have haway : Keeps True (Frame s) (reorganiseAway nested h) := by
        intro t ht _
        rw [reorganiseAway_run nested ((congrFun (Frame.next_eq ht) h).trans (hfresh h hp))]
        exact ht
      have hkeeps : Keeps True (Frame s) (do
          plain (invalidChainFound node pindexNew)
          invalidBlockFound node nested h
          .fail (.failed f.failure) : Prog (ChainState M) Fault Unit) := by
        refine keeps_bind (keeps_plain (within_invalidChainFound node _)) fun _ => ?_
        refine keeps_bind (keeps_bind (keeps_plain (within_markFailed node h)) fun _ => haway)
          fun _ => ?_
        intro t ht _
        exact ht
      exact hkeeps s Frame.rfl (Or.inl trivial)
    · exact Frame.rfl

/-- A failure to switch is reported as it is. -/
theorem holds_giveUp {pindexNew : Uint256} {f : SwitchFailure} {s : ChainState M}
    (hfresh : ∀ h, f.pindex = some h → next s h = none) :
    Holds (giveUp node nested pindexNew f) s (fun _ _ => False) (· ≠ .noFuel) := by
  have hfail : ∀ t, Holds (fail (.failed f.failure) : Prog (ChainState M) Fault Unit) t
      (fun _ _ => False) (· ≠ .noFuel) := by
    intro t habs
    cases habs
  unfold giveUp
  cases hp : f.pindex with
  | none => exact hfail s
  | some h =>
    dsimp only
    split_ifs
    · refine holds_bind ((holds_plain (holds_any _ s)).and_within
        (within_plain (within_invalidChainFound node _)) |>.mono ?_ fun _ he => he)
      rintro _ t ⟨hst, -⟩
      refine holds_bind (holds_bind ((holds_plain (holds_any _ t)).and_within
        (within_plain (within_markFailed node h)) |>.mono ?_ fun _ he => he))
      rintro _ u ⟨htu, -⟩
      have hnext : next u h = none :=
        (congrFun (Frame.next_eq (hst.trans htu)) h).trans (hfresh h hp)
      unfold Holds
      rw [reorganiseAway_run nested hnext]
      cases u.entry h with
      | none =>
        intro habs
        cases habs
      | some e => exact hfail u
    · exact hfail s

end GivingUp

section Whole

variable (node : Node M) (nested : Prog (ChainState M) Fault Unit) {s s' : ChainState M}
  {pindexNew : Uint256}

theorem Branches.congr {best : Option Uint256} {vDisconnect vConnect : List Uint256}
    (hp : parent s' = parent s) (hb : Branches s best pindexNew vDisconnect vConnect) :
    Branches s' best pindexNew vDisconnect vConnect := by
  constructor
  · rw [hp]
    exact hb.branches
  · rw [hp]
    exact hb.fresh

/-- The links of the blocks to connect are not set. -/
theorem Branches.next_none {best : Option Uint256} {vDisconnect vConnect : List Uint256}
    (hb : Branches s best pindexNew vDisconnect vConnect)
    (hlinks : Forest.Linked (parent s) (next s) best) {h : Uint256} (hmem : h ∈ vConnect) :
    next s h = none := by
  by_contra hne
  obtain ⟨c, hc⟩ := Option.ne_none_iff_exists'.mp hne
  obtain ⟨hp, b, hbest, hanc⟩ := (hlinks h c).mp hc
  exact hb.fresh h hmem b hbest (hanc.parent_of hp)

theorem setBestChain_run {best : Option BlockPtr} {view : Cache (Cache CoinsDb)}
    (hget : (Cache.new s.pcoinsTip).getBestBlock = (best, view)) :
    (setBestChain node nested pindexNew).run s =
      match findBranches s (best.map BlockPtr.hash) pindexNew with
      | .error e => (.error e, Switch.close ⟨s, view⟩)
      | .ok (vDisconnect, vConnect) =>
          match (switchBranches node vDisconnect vConnect).run ⟨s, view⟩ with
          | (.error f, sw) => (giveUp node nested pindexNew f).run sw.close
          | (.ok txs, sw) =>
              (plain (commit node pindexNew vDisconnect vConnect txs)).run sw.flush := by
  have hbest : best = (Cache.new s.pcoinsTip).getBestBlock.1 := (congrArg Prod.fst hget).symm
  have hview : view = (Cache.new s.pcoinsTip).getBestBlock.2 := (congrArg Prod.snd hget).symm
  rw [hbest, hview]
  rfl

/-- The ways in which SetBestChain ends: no branches, a failure before the flush, a failure
behind the flush, or success. -/
theorem setBestChain_cases (hs : ChainInv s) {r : Except Fault Unit}
    (hrun : (setBestChain node nested pindexNew).run s = (r, s')) :
    (∃ e, findBranches s s.pindexBest pindexNew = .error e ∧ r = .error e ∧ Frame s s' ∧
      SameValid s s') ∨
    (∃ f t, Frame s t ∧ SameValid s t ∧ (∀ h, f.pindex = some h → next t h = none) ∧
      (giveUp node nested pindexNew f).run t = (r, s')) ∨
    (∃ e, r = .error (.failed e) ∧ ¬ ∀ t, LateOk (node.world t)) ∨
    (r = .ok () ∧ Switched s s' pindexNew) := by
  obtain ⟨hbest, hflat, hbase⟩ := (Cache.new s.pcoinsTip).getBestBlock_spec
  have hcoins : (Cache.new s.pcoinsTip).flat.best = s.pindexBest.map s.ptr := hs.coins
  have htip : (Cache.new s.pcoinsTip).getBestBlock.2.pindexTip =
      (Cache.new s.pcoinsTip).getBestBlock.1 := rfl
  rcases hget : (Cache.new s.pcoinsTip).getBestBlock with ⟨best, view⟩
  rw [setBestChain_run node nested hget] at hrun
  rw [hget] at hbest hflat hbase htip
  dsimp only at hbest hflat hbase htip
  have hold : best.map BlockPtr.hash = s.pindexBest := by
    rw [hbest, hcoins, Option.map_map]
    have hid : BlockPtr.hash ∘ s.ptr = id := rfl
    rw [hid, Option.map_id]
    rfl
  have hopen : Frame s (Switch.close ⟨s, view⟩) :=
    ⟨fun _ => rfl, rfl, rfl, rfl, rfl, hbase, rfl, rfl, fun _ h => h⟩
  have hat : AtTip ⟨s, view⟩ (s.pindexBest.map s.ptr) := by
    constructor
    · exact htip.trans (hbest.trans hcoins)
    · exact (congrArg Flat.best hflat).trans hcoins
  rw [hold] at hrun
  cases hfind : findBranches s s.pindexBest pindexNew with
  | error e =>
    rw [hfind] at hrun
    cases hrun
    exact Or.inl ⟨e, rfl, rfl, hopen, rfl, fun _ => rfl⟩
  | ok lists =>
    obtain ⟨vDisconnect, vConnect⟩ := lists
    rw [hfind] at hrun
    dsimp only at hrun
    have hb := findBranches_spec hs.tree hfind
    have hloops := @holds_switchBranches M node ⟨s, view⟩ _ _ _ _ hb hat
    have hmove := within_switchBranches node vDisconnect vConnect ⟨s, view⟩
    rcases hsw : (switchBranches node vDisconnect vConnect).run ⟨s, view⟩ with ⟨f | txs, sw⟩
    · have hpindex := hloops.of_error hsw
      rw [hsw] at hrun hmove
      have hframe := hopen.trans hmove.close
      have hvalid : SameValid s sw.close := ⟨hmove.setBlockIndexValid, hmove.failed⟩
      refine Or.inr (Or.inl ⟨f, sw.close, hframe, hvalid, ?_, hrun⟩)
      intro h hh
      rw [congrFun (Frame.next_eq hframe) h]
      exact Branches.next_none hb hs.links (hpindex h hh)
    · have hend := hloops.of_ok hsw
      rw [hsw] at hrun hmove
      have hframe := hopen.trans hmove.close
      have htree : SameTree s sw.flush :=
        ⟨(Frame.sameTree hframe).cores, hframe.diskIndex, hframe.statuses⟩
      have hknown := entry_of_findBranches (fun b hb => (hs.best b hb).known) hfind
      have hcommit := holds_commit node pindexNew vDisconnect vConnect txs sw.flush
      dsimp only at hrun
      rw [plain_run] at hrun
      rcases hc : (commit node pindexNew vDisconnect vConnect txs).run sw.flush with ⟨e | a, t⟩
      · rw [hc] at hrun
        cases hrun
        exact Or.inr (Or.inr (Or.inl ⟨e, rfl, hcommit.of_error hc⟩))
      · rw [hc] at hrun
        cases hrun
        obtain ⟨t, u, hwritten, hpooled, rfl⟩ := hcommit.of_ok hc
        have hswitched := switched_commit (htree.tree hs.tree) ?_
          (Branches.congr htree.parent_eq hb) ?_ ?_ hwritten hpooled
        · exact Or.inr (Or.inr (Or.inr ⟨rfl, hswitched.inv, hswitched.best,
            IsTrans.trans _ _ _ htree hswitched.tree,
            hswitched.setBlockIndexValid.trans hmove.setBlockIndexValid,
            fun h => (hswitched.failed h).trans (hmove.failed h)⟩))
        · have hnext : next sw.flush = next s := by
            show next sw.close = next s
            exact Frame.next_eq hframe
          rw [htree.parent_eq, hnext]
          exact hs.links
        · rw [htree.isSome_eq]
          exact hknown
        · have hptr : sw.flush.ptr = s.ptr := by
            funext h
            rw [ChainState.ptr, htree.height_eq]
            rfl
          have hflush : sw.flush.pcoinsTip.pindexTip = sw.view.pindexTip := rfl
          rw [hend.1] at hflush
          rw [hptr, Cache.flat, hflush]
          rfl

/-- A SetBestChain that fails leaves everything but status data, if the coins can be written. -/
theorem setBestChain_frame (hlate : ∀ t, LateOk (node.world t)) (hs : ChainInv s) {e : Fault}
    (hrun : (setBestChain node nested pindexNew).run s = (.error e, s')) : Frame s s' := by
  rcases setBestChain_cases node nested hs hrun with ⟨-, -, -, hframe, -⟩ | ⟨f, t, hst, -, hfresh,
    hgive⟩ | ⟨-, -, hnot⟩ | ⟨habs, -⟩
  · exact hframe
  · have hframe : Frame t ((giveUp node nested pindexNew f).run t).2 :=
      giveUp_frame node nested hfresh
    rw [hgive] at hframe
    exact hst.trans hframe
  · exact absurd hlate hnot
  · cases habs

theorem setBestChain_switched (hs : ChainInv s)
    (hrun : (setBestChain node nested pindexNew).run s = (.ok (), s')) :
    Switched s s' pindexNew := by
  rcases setBestChain_cases node nested hs hrun with ⟨e, -, habs, -⟩ | ⟨f, t, -, -, hfresh,
    hgive⟩ | ⟨e, habs, -⟩ | ⟨-, hswitched⟩
  · cases habs
  · exact absurd ((holds_giveUp node nested hfresh).of_ok hgive) id
  · cases habs
  · exact hswitched

theorem keeps_setBestChain : Keeps (∀ t, LateOk (node.world t)) ChainInv
    (setBestChain node nested pindexNew) := by
  intro s hs hend
  rcases hrun : (setBestChain node nested pindexNew).run s with ⟨e | a, s'⟩
  · rw [hrun] at hend
    rcases hend with hlate | ⟨a, ha⟩
    · exact hs.frame (setBestChain_frame node nested hlate hs hrun)
    · cases ha
  · exact (setBestChain_switched node nested hs hrun).inv

end Whole

end UmbrellaLtc.Reorganise
