import UmbrellaLtc.ChainRuns

/-!
The choice of the best chain. As long as every write to the databases succeeds, no
candidate in setBlockIndexValid is marked as failed; each round of
ConnectBestBlock that does not return then takes its candidate out of the set,
so that the loop ends, and with a candidate of the most work.
-/

namespace UmbrellaLtc.ForkChoice

open Guards Codec Transaction Header Coins CoinsView CheckBlock ConnectBlock BestChain ChainFrame
  ChainLinks Reorganise IndexSteps Loading ChainRuns Prog Runs

variable {M : Type}

section Walks

variable {s : ChainState M}

/-- The walks along pprev end, since the heights fall. -/
theorem lower_ends (hs : Tree s) (nHeight : ℕ) {fuel : ℕ} {x : Uint256}
    (hfuel : s.height x < fuel) : Never (· = .noFuel) (lower s nHeight fuel x) := by
  induction fuel generalizing x with
  | zero => omega
  | succ fuel ih =>
    unfold lower
    cases he : s.entry x with
    | none => exact never_error (by simp)
    | some e =>
      dsimp only
      split_ifs
      · cases hp : e.pprev with
        | none => exact never_error (by simp)
        | some p =>
          have hlt := hs.graded x p ((parent_of_entry he).trans hp)
          exact ih (by omega)
      · exact never_ok x

/-- What is left of the fuel is enough for the parent. -/
theorem walkFuel_pprev (hs : Forest.Graded (parent s) s.height) {fuel : ℕ} {x : Uint256}
    {e : CBlockIndex} (he : s.entry x = some e) (hfuel : walkFuel s (some x) ≤ fuel + 1) :
    walkFuel s e.pprev ≤ fuel := by
  have hwalk : s.height x + 2 ≤ fuel + 1 := hfuel
  cases hp : e.pprev with
  | none =>
    show 1 ≤ fuel
    omega
  | some p =>
    have hlt := hs x p ((parent_of_entry he).trans hp)
    show s.height p + 2 ≤ fuel
    omega

theorem walkFuel_pos (start : Option Uint256) : ¬ walkFuel s start ≤ 0 := by
  cases start with
  | none => exact Nat.not_succ_le_zero 0
  | some x => exact Nat.not_succ_le_zero _

theorem findFork_ends (hs : Tree s) {fuel : ℕ} {pfork : Option Uint256} (x : Uint256)
    (hfuel : walkFuel s pfork ≤ fuel) : Never (· = .noFuel) (findFork s fuel pfork x) := by
  induction fuel generalizing pfork x with
  | zero => exact absurd hfuel (walkFuel_pos pfork)
  | succ fuel ih =>
    cases pfork with
    | none => exact never_ok none
    | some p =>
      unfold findFork
      split_ifs
      · exact never_ok (some p)
      cases he : s.entry p with
      | none => exact never_error (by simp)
      | some e =>
        have hnext := walkFuel_pprev hs.graded he hfuel
        refine never_bind (lower_ends hs e.nHeight (Nat.lt_succ_self _)) fun y _ => ?_
        split_ifs
        · exact never_ok (some p)
        cases hp : e.pprev with
        | none => exact never_error (by simp)
        | some q =>
          rw [hp] at hnext
          exact ih y hnext

theorem branch_ends (hs : Tree s) (pfork : Option Uint256) {fuel : ℕ} {start : Option Uint256}
    (hfuel : walkFuel s start ≤ fuel) : Never (· = .noFuel) (branch s pfork fuel start) := by
  induction fuel generalizing start with
  | zero => exact absurd hfuel (walkFuel_pos start)
  | succ fuel ih =>
    unfold branch
    split_ifs
    · exact never_ok []
    cases start with
    | none => exact never_error (by simp)
    | some h =>
      dsimp only
      cases he : s.entry h with
      | none => exact never_error (by simp)
      | some e => exact never_bind (ih (walkFuel_pprev hs.graded he hfuel)) fun _ _ => never_ok _

theorem findBranches_ends (hs : Tree s) (best : Option Uint256) (pindexNew : Uint256) :
    Never (· = .noFuel) (findBranches s best pindexNew) := by
  refine never_bind (findFork_ends hs pindexNew (Nat.le_refl _)) fun pfork _ => ?_
  refine never_bind (branch_ends hs pfork (Nat.le_refl _)) fun vDisconnect _ => ?_
  exact never_bind (branch_ends hs pfork (Nat.le_refl _)) fun vConnect _ => never_ok _

/-- vAttach after one entry of the walk. -/
def attached (bestWork : Option Uint256) (e : CBlockIndex) (x : Uint256)
    (vAttach : List Uint256) : List Uint256 :=
  if bestWork.all fun work => decide (work < e.nChainWork) then vAttach ++ [x] else vAttach

/-- The ways in which the walk over the ancestors goes on. -/
theorem checkAncestry_cases {bestWork : Option Uint256} {fuel : ℕ} {x : Uint256}
    {passed vAttach : List Uint256} {e : CBlockIndex} (he : s.entry x = some e)
    {r : Except Fault Ancestry}
    (hr : checkAncestry s bestWork (fuel + 1) x passed vAttach = r) :
    e.failed = true ∧ r = .ok (.failed passed) ∨
    e.failed = false ∧ (r = .ok (.attach (attached bestWork e x vAttach).reverse) ∨
      ∃ p, e.pprev = some p ∧
        checkAncestry s bestWork fuel p (passed ++ [x]) (attached bestWork e x vAttach) = r) := by
  unfold checkAncestry at hr
  rw [he] at hr
  dsimp only at hr
  by_cases hfailed : e.failed = true
  · rw [if_pos hfailed] at hr
    exact Or.inl ⟨hfailed, hr.symm⟩
  rw [if_neg hfailed] at hr
  refine Or.inr ⟨Bool.eq_false_iff.mpr hfailed, ?_⟩
  cases hp : e.pprev with
  | none =>
    rw [hp] at hr
    exact Or.inl hr.symm
  | some p =>
    rw [hp] at hr
    dsimp only at hr
    by_cases hpnext : e.pnext ≠ none
    · rw [if_pos hpnext] at hr
      exact Or.inl hr.symm
    · rw [if_neg hpnext] at hr
      exact Or.inr ⟨p, rfl, hr⟩

theorem checkAncestry_none {bestWork : Option Uint256} {fuel : ℕ} {x : Uint256}
    (passed vAttach : List Uint256) (he : s.entry x = none) :
    checkAncestry s bestWork (fuel + 1) x passed vAttach = .error (.failed .assertion) := by
  unfold checkAncestry
  rw [he]

theorem checkAncestry_ends (hs : Tree s) (bestWork : Option Uint256) {fuel : ℕ}
    {x : Uint256} (passed vAttach : List Uint256) (hfuel : walkFuel s (some x) ≤ fuel) :
    Never (· = .noFuel) (checkAncestry s bestWork fuel x passed vAttach) := by
  induction fuel generalizing x passed vAttach with
  | zero => exact absurd hfuel (walkFuel_pos (some x))
  | succ fuel ih =>
    cases he : s.entry x with
    | none =>
      rw [checkAncestry_none passed vAttach he]
      exact never_error (by simp)
    | some e =>
      have hnext := walkFuel_pprev hs.graded he hfuel
      generalize hr : checkAncestry s bestWork (fuel + 1) x passed vAttach = r
      rcases checkAncestry_cases he hr with ⟨-, rfl⟩ | ⟨-, rfl | ⟨p, hp, rfl⟩⟩
      · exact never_ok _
      · exact never_ok _
      · rw [hp] at hnext
        exact ih _ _ hnext

/-- The entries on the way to a failed one are collected behind those that were there. -/
theorem checkAncestry_failed {bestWork : Option Uint256} {fuel : ℕ} {x : Uint256}
    {passed vAttach all : List Uint256}
    (h : checkAncestry s bestWork fuel x passed vAttach = .ok (.failed all)) :
    ∃ more, all = passed ++ more := by
  induction fuel generalizing x passed vAttach with
  | zero => cases h
  | succ fuel ih =>
    cases he : s.entry x with
    | none =>
      rw [checkAncestry_none passed vAttach he] at h
      cases h
    | some e =>
      rcases checkAncestry_cases he h with ⟨-, hr⟩ | ⟨-, hr | ⟨p, -, hr⟩⟩
      · cases hr
        exact ⟨[], (List.append_nil _).symm⟩
      · cases hr
      · obtain ⟨more, hmore⟩ := ih hr
        exact ⟨x :: more, by rw [hmore, List.append_assoc]; rfl⟩

/-- What is attached further down has more work than the best block. -/
theorem checkAncestry_attach {bestWork : Option Uint256} {fuel : ℕ} {x : Uint256}
    {passed vAttach all : List Uint256}
    (h : checkAncestry s bestWork fuel x passed vAttach = .ok (.attach all)) :
    ∃ more, all = more ++ vAttach.reverse ∧ ∀ y ∈ more, ∀ work, bestWork = some work →
      work < (s.entry y).elim 0 CBlockIndex.nChainWork := by
  induction fuel generalizing x passed vAttach with
  | zero => cases h
  | succ fuel ih =>
    cases he : s.entry x with
    | none =>
      rw [checkAncestry_none passed vAttach he] at h
      cases h
    | some e =>
      have hone : ∃ more, (attached bestWork e x vAttach).reverse = more ++ vAttach.reverse ∧
          ∀ y ∈ more, ∀ work, bestWork = some work →
            work < (s.entry y).elim 0 CBlockIndex.nChainWork := by
        unfold attached
        split_ifs with hwork
        · refine ⟨[x], by simp, fun y hy work hbest => ?_⟩
          obtain rfl := List.mem_singleton.mp hy
          rw [hbest] at hwork
          rw [he]
          simpa using hwork
        · exact ⟨[], rfl, fun y hy => absurd hy List.not_mem_nil⟩
      obtain ⟨one, hone, hmost⟩ := hone
      rcases checkAncestry_cases he h with ⟨-, hr⟩ | ⟨-, hr | ⟨p, -, hr⟩⟩
      · cases hr
      · cases hr
        exact ⟨one, hone, hmost⟩
      · obtain ⟨more, hmore, hless⟩ := ih hr
        refine ⟨more ++ one, by rw [hmore, hone, List.append_assoc], fun y hy => ?_⟩
        rcases List.mem_append.mp hy with hy | hy
        · exact hless y hy
        · exact hmost y hy

end Walks

/-- The chain work of an entry. -/
def workOf (s : ChainState M) (h : Uint256) : Uint256 :=
  (s.entry h).elim 0 CBlockIndex.nChainWork

section Candidates

variable {s : ChainState M}

theorem workLess_true {a b : Uint256} (h : s.workLess a b = true) : workOf s a ≤ workOf s b := by
  unfold ChainState.workLess at h
  dsimp only at h
  split_ifs at h with hba hab
  · exact BitVec.le_of_lt hab
  · exact BitVec.not_lt.mp hba

theorem workLess_false {a b : Uint256} (h : s.workLess a b = false) : workOf s b ≤ workOf s a := by
  unfold ChainState.workLess at h
  dsimp only at h
  split_ifs at h with hba hab
  · exact BitVec.le_of_lt hba
  · exact BitVec.not_lt.mp hab
  · exact BitVec.not_lt.mp hab

/-- The last candidate is one of the candidates, and none has more work. -/
theorem lastValid_foldl (l : List Uint256) (m : Uint256) :
    ∃ b, l.foldl (fun last h => last.elim (some h) fun m => some (if s.workLess m h then h else m))
        (some m) = some b ∧ (b = m ∨ b ∈ l) ∧ workOf s m ≤ workOf s b ∧
      ∀ h ∈ l, workOf s h ≤ workOf s b := by
  induction l generalizing m with
  | nil => exact ⟨m, rfl, Or.inl rfl, BitVec.le_refl _, fun h hh => absurd hh List.not_mem_nil⟩
  | cons x rest ih =>
    obtain ⟨b, hb, hmem, hle, hrest⟩ := ih (if s.workLess m x then x else m)
    have hboth : workOf s m ≤ workOf s b ∧ workOf s x ≤ workOf s b ∧ (b = m ∨ b ∈ x :: rest) := by
      by_cases hless : s.workLess m x = true
      · rw [if_pos hless] at hle hmem
        refine ⟨BitVec.le_trans (workLess_true hless) hle, hle, ?_⟩
        rcases hmem with heq | hin
        · exact Or.inr (heq ▸ List.mem_cons_self)
        · exact Or.inr (List.mem_cons_of_mem _ hin)
      · rw [if_neg hless] at hle hmem
        refine ⟨hle, BitVec.le_trans (workLess_false (Bool.eq_false_iff.mpr hless)) hle, ?_⟩
        rcases hmem with heq | hin
        · exact Or.inl heq
        · exact Or.inr (List.mem_cons_of_mem _ hin)
    refine ⟨b, hb, hboth.2.2, hboth.1, fun h hh => ?_⟩
    rcases List.mem_cons.mp hh with rfl | hin
    · exact hboth.2.1
    · exact hrest h hin

theorem lastValid_max {b : Uint256} (h : s.lastValid = some b) :
    b ∈ s.setBlockIndexValid ∧ ∀ x ∈ s.setBlockIndexValid, workOf s x ≤ workOf s b := by
  unfold ChainState.lastValid at h
  cases hset : s.setBlockIndexValid with
  | nil =>
    rw [hset] at h
    cases h
  | cons m rest =>
    rw [hset] at h
    obtain ⟨b', hb', hmem, hle, hrest⟩ := @lastValid_foldl M s rest m
    obtain rfl : b' = b := Option.some.inj (hb'.symm.trans h)
    constructor
    · rcases hmem with heq | hin
      · exact heq ▸ List.mem_cons_self
      · exact List.mem_cons_of_mem _ hin
    · intro x hx
      rcases List.mem_cons.mp hx with rfl | hin
      · exact hle
      · exact hrest x hin

theorem lastValid_none (h : s.lastValid = none) : s.setBlockIndexValid = [] := by
  cases hset : s.setBlockIndexValid with
  | nil => rfl
  | cons m rest =>
    unfold ChainState.lastValid at h
    rw [hset] at h
    obtain ⟨b, hb, -⟩ := @lastValid_foldl M s rest m
    exact absurd (hb.symm.trans h) (by simp)

end Candidates

/-- No candidate is marked as failed. -/
def NoFailed (s : ChainState M) : Prop :=
  ∀ h ∈ s.setBlockIndexValid, ∃ e, s.entry h = some e ∧ e.failed = false

section Marking

variable (node : Node M) {s s' : ChainState M}

theorem NoFailed.same (hs : NoFailed s) (h : SameValid s s') : NoFailed s' := by
  intro t ht
  rw [h.setBlockIndexValid] at ht
  obtain ⟨e, he, hfailed⟩ := hs t ht
  have hmap := h.failed t
  rw [he] at hmap
  obtain ⟨e', he', hsame⟩ := Option.map_eq_some_iff.mp hmap
  exact ⟨e', he', hsame.trans hfailed⟩

/-- An entry may be marked when it leaves the set. -/
theorem NoFailed.mark (hs : NoFailed s) (h : Uint256) (f : CBlockIndex → CBlockIndex) :
    NoFailed ((s.modify h f).eraseValid h) := by
  intro t ht
  have hset : (s.modify h f).setBlockIndexValid = s.setBlockIndexValid := by rw [modify_eq]
  have hmem : t ∈ s.setBlockIndexValid ∧ t ≠ h := by
    have hin : t ∈ (s.modify h f).setBlockIndexValid.filter (· ≠ h) := ht
    rw [hset, List.mem_filter] at hin
    exact ⟨hin.1, of_decide_eq_true hin.2⟩
  show ∃ e, (s.modify h f).entry t = some e ∧ e.failed = false
  rw [entry_modify, if_neg hmem.2]
  exact hs t hmem.1

theorem valid_writeBlockIndex (h : Uint256) : Within SameValid (writeBlockIndex node h) := by
  refine within_bind (fun s => ⟨rfl, fun _ => rfl⟩) fun io => ?_
  refine within_bind (within_lift _) fun _ => ?_
  refine within_bind (fun s => ?_) fun e s => ⟨rfl, fun _ => rfl⟩
  rw [find_run]
  exact ⟨rfl, fun _ => rfl⟩

theorem valid_invalidChainFound (h : Uint256) : Within SameValid (invalidChainFound node h) := by
  refine within_bind (fun s => ?_) fun e => ?_
  · rw [find_run]
    exact ⟨rfl, fun _ => rfl⟩
  refine within_bind ?_ fun _ => ?_
  · refine within_bind (fun s => ⟨rfl, fun _ => rfl⟩) fun most => ?_
    split_ifs
    · refine within_bind (fun s => ⟨rfl, fun _ => rfl⟩) fun _ => ?_
      refine within_bind (fun s => ⟨rfl, fun _ => rfl⟩) fun io => ?_
      exact within_bind (within_lift _) fun _ s => ⟨rfl, fun _ => rfl⟩
    · exact within_pure ()
  · exact within_bind (fun s => ⟨rfl, fun _ => rfl⟩) fun best => within_check _ _

theorem keeps_same {P : Prop} {ε α : Type} {x : Prog (ChainState M) ε α}
    (hx : Within SameValid x) : Keeps P NoFailed x :=
  keeps_of_within (fun _ _ hst hs => hs.same hst) hx

theorem keeps_markFailedChild {P : Prop} (h : Uint256) :
    Keeps P NoFailed (markFailedChild node h) := by
  intro s hs hend
  exact keeps_same (valid_writeBlockIndex node h) _ (hs.mark h _) hend

variable {node}

/-- The record of an entry is written when the database does not fail. -/
theorem writeBlockIndex_ok (hwrite : ∀ t, (node.world t).indexWrite = .ok) {h : Uint256}
    {e : CBlockIndex} (he : s.entry h = some e) :
    ((writeBlockIndex node h).run s).1 = .ok () := by
  have hask : (ask node).run s = (.ok (node.world s.clock), { s with clock := s.clock + 1 }) := rfl
  have hfind : (find h).run { s with clock := s.clock + 1 } =
      (.ok e, { s with clock := s.clock + 1 }) := by
    rw [find_run]
    show ((s.entry h).elim _ _, _) = _
    rw [he]
    rfl
  have hbatch : writeBatch (node.world s.clock).indexWrite = .ok true := by
    rw [hwrite]
    rfl
  unfold writeBlockIndex
  rw [run_bind_ok hask, run_bind_ok ((run_lift _ _).trans (by rw [hbatch])), run_bind_ok hfind]
  rfl

theorem SameValid.erase (h : SameValid s s') (t : Uint256) :
    SameValid (s.eraseValid t) (s'.eraseValid t) := by
  constructor
  · show s'.setBlockIndexValid.filter _ = s.setBlockIndexValid.filter _
    rw [h.setBlockIndexValid]
  · exact h.failed

theorem NoFailed.erase (hs : NoFailed s) (h : Uint256) : NoFailed (s.eraseValid h) := by
  intro t ht
  exact hs t (List.mem_filter.mp ht).1

/-- The entry of a block that has failed leaves the set, where its record can be written. -/
theorem keeps_markFailed {P : Prop} (hwrite : ∀ t, (node.world t).indexWrite = .ok)
    (h : Uint256) : Keeps P NoFailed (markFailed node h) := by
  intro s hs _
  have hadd : (addStatus BLOCK_FAILED_VALID h).run s = (.ok (), s.modify h fun e =>
    { e with nStatus := e.nStatus ||| BLOCK_FAILED_VALID }) := rfl
  have herase : Keeps True NoFailed (act fun s => ((), s.eraseValid h) :
      Prog (ChainState M) Failure Unit) := fun s hs _ => hs.erase h
  have hfound : Keeps True NoFailed (invalidChainFound node h) :=
    keeps_same (valid_invalidChainFound node h)
  unfold markFailed
  rw [run_bind_ok hadd]
  cases he : s.entry h with
  | none =>
    -- there is nothing to mark, and no candidate to leave the set
    have hsame : s.modify h (fun e => { e with nStatus := e.nStatus ||| BLOCK_FAILED_VALID }) =
        s := by
      unfold ChainState.modify
      rw [he]
    rw [hsame]
    exact keeps_bind (keeps_same (valid_writeBlockIndex node h))
      (fun _ => keeps_bind herase fun _ => hfound) s hs (Or.inl trivial)
  | some e =>
    have hmarked := hs.mark h fun e => { e with nStatus := e.nStatus ||| BLOCK_FAILED_VALID }
    have hentry := entry_modify s h h fun e => { e with nStatus := e.nStatus ||| BLOCK_FAILED_VALID }
    rw [if_pos rfl, he] at hentry
    generalize s.modify h (fun e => { e with nStatus := e.nStatus ||| BLOCK_FAILED_VALID }) = s₁
      at hmarked hentry
    have hok := writeBlockIndex_ok hwrite hentry
    have hvalid := valid_writeBlockIndex node h s₁
    rcases hrun : (writeBlockIndex node h).run s₁ with ⟨r, s₂⟩
    rw [hrun] at hok hvalid
    subst hok
    rw [run_bind_ok hrun]
    have hact : (act fun s => ((), s.eraseValid h) : Prog (ChainState M) Failure Unit).run s₂ =
        (.ok (), s₂.eraseValid h) := rfl
    rw [run_bind_ok hact]
    exact hfound _ (hmarked.same (SameValid.erase hvalid h)) (Or.inl trivial)

theorem keeps_plain_of {P : Prop} {I : ChainState M → Prop} {α : Type}
    {x : Prog (ChainState M) Failure α} (hx : Keeps True I x) : Keeps P I (plain x) := by
  intro s hs _
  rw [plain_run]
  exact hx s hs (Or.inl trivial)

end Marking

/-- A chain in order whose candidates are not marked as failed. -/
def Choosable (s : ChainState M) : Prop := ChainInv s ∧ NoFailed s

section Choosing

variable {node : Node M} {s s' : ChainState M}

theorem keeps_choosable {P : Prop} {x : Prog (ChainState M) Failure Unit}
    (hframe : Within Frame x) (hx : Keeps True NoFailed x) : Keeps P Choosable (plain x) := by
  intro s hs hend
  have hinv : Frame s ((plain x).run s).2 := within_plain hframe s
  exact ⟨hs.1.frame hinv, keeps_plain_of hx s hs.2 hend⟩

/-- A SetBestChain that gives up marks the block that has failed, and calls nothing else. -/
theorem giveUp_noFailed (hwrite : ∀ t, (node.world t).indexWrite = .ok)
    (nested : Prog (ChainState M) Fault Unit) (pindexNew : Uint256) {f : SwitchFailure}
    (hfresh : ∀ h, f.pindex = some h → next s h = none) (hs : NoFailed s) :
    NoFailed ((giveUp node nested pindexNew f).run s).2 := by
  unfold giveUp
  cases hp : f.pindex with
  | none => exact hs
  | some h =>
    dsimp only
    split_ifs
    · have hboth : ∀ {α : Type} {x : Prog (ChainState M) Failure α}, Within Frame x →
          Keeps True NoFailed x → Keeps True (fun t => Frame s t ∧ NoFailed t) (plain x) := by
        intro α x hframe hx t ht hend
        exact ⟨keeps_plain hframe t ht.1 hend, keeps_plain_of hx t ht.2 hend⟩
      have haway : Keeps True (fun t => Frame s t ∧ NoFailed t) (reorganiseAway nested h) := by
        intro t ht _
        rw [reorganiseAway_run nested ((congrFun (Frame.next_eq ht.1) h).trans (hfresh h hp))]
        exact ht
      have hkeeps : Keeps True (fun t => Frame s t ∧ NoFailed t) (do
          plain (invalidChainFound node pindexNew)
          invalidBlockFound node nested h
          .fail (.failed f.failure) : Prog (ChainState M) Fault Unit) := by
        refine keeps_bind (hboth (within_invalidChainFound node _) ?_) fun _ => ?_
        · exact keeps_same (valid_invalidChainFound node _)
        refine keeps_bind (keeps_bind (hboth (within_markFailed node h) ?_) fun _ => haway)
          fun _ t ht _ => ht
        exact keeps_markFailed hwrite h
      exact (hkeeps s ⟨Frame.rfl, hs⟩ (Or.inl trivial)).2
    · exact hs

theorem keeps_chooseSetBest (hlate : ∀ t, LateOk (node.world t))
    (hwrite : ∀ t, (node.world t).indexWrite = .ok) (nested : Prog (ChainState M) Fault Unit)
    (h : Uint256) : Keeps True Choosable (setBestChain node nested h) := by
  intro s hs _
  refine ⟨keeps_setBestChain node nested s hs.1 (Or.inl hlate), ?_⟩
  rcases hrun : (setBestChain node nested h).run s with ⟨r, s'⟩
  rcases setBestChain_cases node nested hs.1 hrun with ⟨e, -, -, -, hvalid⟩ | ⟨f, t, -, hvalid,
    hfresh, hgive⟩ | ⟨e, -, hnot⟩ | ⟨-, hswitched⟩
  · exact hs.2.same hvalid
  · have hafter := giveUp_noFailed hwrite nested h hfresh (hs.2.same hvalid)
    rw [hgive] at hafter
    exact hafter
  · exact absurd hlate hnot
  · exact hs.2.same ⟨hswitched.setBlockIndexValid, hswitched.failed⟩

/-- ConnectBestBlock leaves no candidate marked as failed, by induction on the rounds. -/
theorem keeps_chooseConnectBest (hlate : ∀ t, LateOk (node.world t))
    (hwrite : ∀ t, (node.world t).indexWrite = .ok) (fuel : ℕ) :
    Keeps True Choosable (connectBestBlock node fuel) := by
  induction fuel with
  | zero =>
    intro s hs _
    exact hs
  | succ fuel ih =>
    intro s hs _
    rcases hrun : (connectBestBlock node (fuel + 1)).run s with ⟨r, s'⟩
    rcases connectBestBlock_cases node hrun with ⟨-, -, rfl⟩ | ⟨b, -, ⟨-, -, rfl⟩ | ⟨-,
      ⟨e, -, -, rfl⟩ | ⟨passed, -, hround⟩ | ⟨vAttach, -, hround⟩⟩⟩
    · exact hs
    · exact hs
    · exact hs
    · have hkeeps : Keeps True Choosable (failRound node fuel b passed) := by
        refine keeps_bind (keeps_choosable ?_ ?_) fun _ => ?_
        · exact within_forM (within_markFailedChild node) passed
        · exact keeps_forM (keeps_markFailedChild node) passed
        refine keeps_bind (keeps_choosable (within_invalidChainFound node b) ?_) fun _ => ih
        exact keeps_same (valid_invalidChainFound node b)
      have hafter := hkeeps s hs (Or.inl trivial)
      rw [hround] at hafter
      exact hafter
    · have hkeeps : Keeps True Choosable (attachRound node fuel vAttach) :=
        keeps_forM (fun h => keeps_catch (keeps_chooseSetBest hlate hwrite _ h)) vAttach
      have hafter := hkeeps s hs (Or.inl trivial)
      rw [hround] at hafter
      exact hafter

theorem keeps_chooseInvalid (hlate : ∀ t, LateOk (node.world t))
    (hwrite : ∀ t, (node.world t).indexWrite = .ok) (fuel : ℕ) (h : Uint256) :
    Keeps True Choosable (invalidBlockFound node (connectBestBlock node fuel) h) := by
  refine keeps_bind (keeps_choosable (within_markFailed node h) (keeps_markFailed hwrite h))
    fun _ => ?_
  refine keeps_bind ?_ fun e => ?_
  · intro s hs _
    rw [plain_run, find_run]
    exact hs
  split_ifs
  · intro s hs _
    rw [ignoreResult_state]
    exact keeps_chooseConnectBest hlate hwrite fuel s hs (Or.inl trivial)
  · exact keeps_pure ()

end Choosing

section Adding

variable {node : Node M} {s s' : ChainState M}

theorem leaf_failed (s : ChainState M) (block : CBlock) : (leaf s block).failed = false := by
  show ((BLOCK_VALID_TRANSACTIONS ||| BLOCK_HAVE_DATA) &&& BLOCK_FAILED_MASK != 0) = false
  decide

/-- A new entry is a candidate, and has not failed. -/
theorem NoFailed.insertEntry {block : CBlock} {hash : Uint256} (hs : NoFailed s)
    (hne : block.header.fields.hashPrevBlock ≠ hash) :
    NoFailed ((insertEntry hash block s).insertValid hash) := by
  have hentry := entry_insertEntry (s := s) hne
  have hset : ∀ t, t ∈ ((BestChain.insertEntry hash block s).insertValid hash).setBlockIndexValid →
      t = hash ∨ t ∈ s.setBlockIndexValid := by
    intro t ht
    unfold ChainState.insertValid at ht
    split_ifs at ht
    · exact Or.inr ht
    · exact List.mem_cons.mp ht
  intro t ht
  rw [hentry t]
  by_cases heq : t = hash
  · rw [if_pos heq]
    exact ⟨leaf s block, rfl, leaf_failed s block⟩
  · rw [if_neg heq]
    exact hs t ((hset t ht).resolve_left heq)

theorem valid_writeDiskBlockIndex (h : Uint256) :
    Within SameValid (writeDiskBlockIndex node h) := by
  refine within_bind (fun s => ⟨rfl, fun _ => rfl⟩) fun io => ?_
  refine within_bind (within_lift _) fun _ => ?_
  refine within_bind (fun s => ?_) fun e s => ⟨rfl, fun _ => rfl⟩
  rw [find_run]
  exact ⟨rfl, fun _ => rfl⟩

theorem storeEntry_noFailed {block : CBlock} (hs : NoFailed s) (hacc : Accepted node s block) :
    NoFailed ((storeEntry node block).run s).2 := by
  rcases hrun : (storeEntry node block).run s with ⟨r, s'⟩
  rcases storeEntry_cases hrun with ⟨-, rfl⟩ | ⟨hnew, hwrites⟩
  · exact hs
  · have hwithin : Within SameValid (do
        writeDiskBlockIndex node (block.header.fields.getHash node.Hash)
        writeBlockIndex node (block.header.fields.getHash node.Hash) :
        Prog (ChainState M) Failure Unit) :=
      within_bind (valid_writeDiskBlockIndex _) fun _ => valid_writeBlockIndex node _
    have hvalid := hwithin ((insertEntry (block.header.fields.getHash node.Hash) block
      s).insertValid (block.header.fields.getHash node.Hash))
    rw [hwrites] at hvalid
    exact (hs.insertEntry (hacc.ne hnew)).same hvalid

/-- Only entries that have not failed are made candidates when the index is loaded. -/
theorem NoFailed.loadChainWork (hs : NoFailed s) (h : Uint256) :
    NoFailed (loadChainWork s h) := by
  cases he : s.entry h with
  | none =>
    unfold BestChain.loadChainWork
    rw [he]
    exact hs
  | some e =>
    obtain ⟨s₁, hentry, hrest, hround⟩ := loadChainWork_cases he
    have hset : s₁.setBlockIndexValid = s.setBlockIndexValid := by rw [hrest]
    have hold : ∀ t ∈ s.setBlockIndexValid, ∃ e', s₁.entry t = some e' ∧ e'.failed = false := by
      intro t ht
      obtain ⟨e', he', hfailed⟩ := hs t ht
      rw [hentry t]
      split_ifs with heq
      · subst heq
        obtain rfl : e' = e := Option.some.inj (he'.symm.trans he)
        exact ⟨reworkEntry s e', rfl, hfailed⟩
      · exact ⟨e', he', hfailed⟩
    rcases hround with hround | ⟨hround, hfailed⟩
    · rw [hround]
      intro t ht
      rw [hset] at ht
      exact hold t ht
    · rw [hround]
      intro t ht
      rw [entry_insertValid]
      have hmem : t = h ∨ t ∈ s.setBlockIndexValid := by
        unfold ChainState.insertValid at ht
        split_ifs at ht
        · exact Or.inr (hset ▸ ht)
        · rcases List.mem_cons.mp ht with heq | hin
          · exact Or.inl heq
          · exact Or.inr (hset ▸ hin)
      rcases hmem with rfl | hin
      · rw [hentry t, if_pos rfl]
        exact ⟨reworkEntry s e, rfl, hfailed⟩
      · exact hold t hin

theorem noFailed_loadIndex (map : BlockMap) (hs : s.setBlockIndexValid = []) :
    NoFailed (loadIndex s map) := by
  have hloop : ∀ (l : List Uint256) (t : ChainState M), NoFailed t →
      NoFailed (l.foldl BestChain.loadChainWork t) := by
    intro l
    induction l with
    | nil => exact fun t ht => ht
    | cons h rest ih => exact fun t ht => ih _ (ht.loadChainWork h)
  apply hloop
  intro t ht
  have hnil : t ∈ s.setBlockIndexValid := ht
  rw [hs] at hnil
  exact absurd hnil List.not_mem_nil

theorem valid_loadBest (hs : Tree s) (hload : loadBest s = .ok s') : SameValid s s' := by
  unfold loadBest at hload
  dsimp only at hload
  cases hresolve : resolveBest s s.pcoinsTip.base.best with
  | none =>
    rw [hresolve] at hload
    cases hload
    exact ⟨rfl, fun _ => rfl⟩
  | some p =>
    rw [hresolve] at hload
    obtain ⟨l, -, rfl⟩ := linkBestChain_ok hload
    obtain ⟨hunlinked, -, hrest⟩ := setLinks_spec some l
      (setBest p.hash { s with pcoinsTip := .new { s.pcoinsTip.base with best := some p } }) hs.known
    constructor
    · rw [hrest]
      rfl
    · intro h
      have hmap := congrArg (Option.map CBlockIndex.failed) (hunlinked h)
      rw [Option.map_map, Option.map_map] at hmap
      exact hmap

theorem keeps_chooseRestart (fShutdown : Bool) :
    Keeps True Choosable (restart node fShutdown) := by
  intro s hs hend
  refine ⟨keeps_restart node fShutdown s hs.1 hend, ?_⟩
  have hvalid : Within SameValid (plain (shutdown node fShutdown)) := by
    apply within_plain
    intro t
    have hrest := (within_shutdown node fShutdown t).rest
    rw [hrest]
    exact ⟨rfl, fun _ => rfl⟩
  have hstart : Keeps True Choosable (start node) := by
    intro t ht _
    unfold start Prog.run
    dsimp only
    cases hload : loadBlockIndexDB node (stopped node t) with
    | error e => exact ht
    | ok loaded =>
      refine ⟨loadBlockIndexDB_inv node ht.1.tree hload, ?_⟩
      unfold loadBlockIndexDB at hload
      cases hguts : loadBlockIndexGuts node (stopped node t).blockTree with
      | error e =>
        rw [hguts] at hload
        cases hload
      | ok map =>
        rw [hguts] at hload
        have hindex : HasIndex t.blockTree (loadIndex (stopped node t) map) :=
          @hasIndex_loadIndex M node (stopped node t) map hguts
        exact (noFailed_loadIndex map rfl).same (valid_loadBest (hindex.isTree ht.1.tree) hload)
  have hstop : Keeps True Choosable (plain (shutdown node fShutdown)) := by
    intro t ht _
    have hwritten := within_plain (within_shutdown node fShutdown) t
    exact ⟨chainInv_written ht.1 hwritten, ht.2.same (hvalid t)⟩
  exact (keeps_bind hstop (fun _ => hstart) s hs (Or.inl trivial)).2

end Adding

section Ending

variable {node : Node M} {s s' : ChainState M}

/-- SetBestChain does not run out of fuel: the blocks it connects have no links, so that
InvalidBlockFound has nothing to reorganise away from. -/
theorem holds_setBestChain (nested : Prog (ChainState M) Fault Unit) (h : Uint256)
    (hs : ChainInv s) :
    Holds (setBestChain node nested h) s (fun _ s' => Switched s s' h) (· ≠ .noFuel) := by
  unfold Holds
  rcases hrun : (setBestChain node nested h).run s with ⟨e | a, s'⟩
  · rcases setBestChain_cases node nested hs hrun with ⟨e', hfind, heq, -⟩ | ⟨f, t, -, -, hfresh,
      hgive⟩ | ⟨e', heq, -⟩ | ⟨habs, -⟩
    · cases heq
      intro habs
      exact findBranches_ends hs.tree s.pindexBest h _ habs hfind
    · exact (holds_giveUp node nested hfresh).of_error hgive
    · cases heq
      simp
    · cases habs
  · exact setBestChain_switched node nested hs hrun

/-- What a round that attaches comes to. -/
structure Attached (s s' : ChainState M) (vAttach : List Uint256) : Prop where
  inv : ChainInv s'
  tree : SameTree s s'
  setBlockIndexValid : s'.setBlockIndexValid = s.setBlockIndexValid
  best : s'.pindexBest = vAttach.getLast?.or s.pindexBest

theorem holds_catch {x : Prog (ChainState M) Fault Unit} {Q : Unit → ChainState M → Prop}
    (hx : Holds x s Q (· ≠ .noFuel)) : Holds (catchRuntimeError x) s Q (· ≠ .noFuel) := by
  unfold Holds catchRuntimeError Prog.run at *
  rcases hrun : x s with ⟨e | a, s'⟩
  · rw [hrun] at hx
    rcases e with e | _
    · cases e with
      | runtimeError what => simp [hrun]
      | _ => simp [hrun]
    · exact absurd rfl hx
  · rw [hrun] at hx
    simpa [hrun] using hx

theorem holds_attachRound (fuel : ℕ) (vAttach : List Uint256) (hs : ChainInv s) :
    Holds (attachRound node fuel vAttach) s (fun _ s' => Attached s s' vAttach)
      (· ≠ .noFuel) := by
  induction vAttach generalizing s with
  | nil => exact ⟨hs, refl s, rfl, rfl⟩
  | cons h rest ih =>
    refine holds_bind ((holds_catch (holds_setBestChain _ h hs)).mono ?_ fun _ he => he)
    intro _ t hswitched
    refine (ih hswitched.inv).mono ?_ fun _ he => he
    intro _ u hattached
    refine ⟨hattached.inv, IsTrans.trans _ _ _ hswitched.tree hattached.tree,
      hattached.setBlockIndexValid.trans hswitched.setBlockIndexValid, ?_⟩
    rw [hattached.best, hswitched.best]
    cases rest with
    | nil => rfl
    | cons x more =>
      obtain ⟨y, hy⟩ : ∃ y, (x :: more).getLast? = some y :=
        ⟨_, List.getLast?_eq_some_getLast (by simp)⟩
      rw [List.getLast?_cons_cons, hy]
      rfl

/-- Candidates only leave the set. -/
def Shrinks (s s' : ChainState M) : Prop :=
  s'.setBlockIndexValid.Sublist s.setBlockIndexValid

instance : IsPreorder (ChainState M) Shrinks where
  refl _ := List.Sublist.refl _
  trans _ _ _ hst htu := List.Sublist.trans htu hst

theorem SameValid.shrinks (h : SameValid s s') : Shrinks s s' := by
  unfold Shrinks
  rw [h.setBlockIndexValid]

theorem markFailedChild_state (h : Uint256) :
    ∃ t, t.setBlockIndexValid = s.setBlockIndexValid.filter (· ≠ h) ∧
      SameValid t ((markFailedChild node h).run s).2 := by
  refine ⟨(s.modify h fun e => { e with nStatus := e.nStatus ||| BLOCK_FAILED_CHILD }).eraseValid h,
    ?_, valid_writeBlockIndex node h _⟩
  show (s.modify h _).setBlockIndexValid.filter _ = _
  rw [modify_eq]

theorem shrinks_markFailedChild (h : Uint256) : Within Shrinks (markFailedChild node h) := by
  intro s
  obtain ⟨t, hset, hvalid⟩ := @markFailedChild_state M node s h
  apply IsTrans.trans _ _ _ _ (SameValid.shrinks hvalid)
  unfold Shrinks
  rw [hset]
  exact List.filter_sublist

/-- A round that goes on has taken its candidate out of the set. -/
theorem holds_markPassed {b : Uint256} (rest : List Uint256) (hs : Choosable s)
    (hb : b ∈ s.setBlockIndexValid) :
    Holds (plain ((b :: rest).forM (markFailedChild node))) s
      (fun _ t => Choosable t ∧ t.setBlockIndexValid.length < s.setBlockIndexValid.length)
      (· ≠ .noFuel) := by
  have hkeeps : Keeps True Choosable (plain ((b :: rest).forM (markFailedChild node))) :=
    keeps_choosable (within_forM (within_markFailedChild node) _)
      (keeps_forM (keeps_markFailedChild node) _)
  have hkept := hkeeps s hs (Or.inl trivial)
  have hend := holds_plain (holds_any ((b :: rest).forM (markFailedChild node)) s)
  unfold Holds at hend ⊢
  rcases hrun : (plain ((b :: rest).forM (markFailedChild node))).run s with ⟨e | a, s'⟩
  · rw [hrun] at hend
    exact hend
  rw [hrun] at hkept
  refine ⟨hkept, ?_⟩
  have hloop := plain_ok hrun
  change (markFailedChild node b >>= fun _ => rest.forM (markFailedChild node)).run s = _ at hloop
  obtain ⟨_, t, hfirst, hmore⟩ := bind_ok_cases hloop
  obtain ⟨u, hset, hvalid⟩ := @markFailedChild_state M node s b
  have hrest := within_forM (@shrinks_markFailedChild _ node) rest t
  rw [hmore] at hrest
  rw [hfirst] at hvalid
  have hlt : (s.setBlockIndexValid.filter (· ≠ b)).length < s.setBlockIndexValid.length := by
    apply List.length_filter_lt_length_iff_exists.mpr
    exact ⟨b, hb, by simp⟩
  have hle : s'.setBlockIndexValid.length ≤ t.setBlockIndexValid.length := hrest.length_le
  rw [hvalid.setBlockIndexValid, hset] at hle
  omega

theorem holds_found (b : Uint256) (hs : Choosable s) :
    Holds (plain (invalidChainFound node b)) s
      (fun _ t => Choosable t ∧ t.setBlockIndexValid = s.setBlockIndexValid) (· ≠ .noFuel) := by
  have hkeeps : Keeps True Choosable (plain (invalidChainFound node b)) :=
    keeps_choosable (within_invalidChainFound node b) (keeps_same (valid_invalidChainFound node b))
  have hkept := hkeeps s hs (Or.inl trivial)
  have hvalid := within_plain (valid_invalidChainFound node b) s
  have hend := holds_plain (holds_any (invalidChainFound node b) s)
  unfold Holds at hend ⊢
  rcases hrun : (plain (invalidChainFound node b)).run s with ⟨e | a, t⟩
  · rw [hrun] at hend
    exact hend
  · rw [hrun] at hkept hvalid
    exact ⟨hkept, hvalid.setBlockIndexValid⟩

/-- No candidate has more work than the best block. -/
def Maximal (s : ChainState M) : Prop :=
  s.setBlockIndexValid ≠ [] →
    ∃ b, s.pindexBest = some b ∧ ∀ h ∈ s.setBlockIndexValid, workOf s h ≤ workOf s b

/-- A round that finds nothing to do. -/
theorem maximal_upToDate {b : Uint256} (hlast : s.lastValid = some b) (hdone : UpToDate s b) :
    Maximal s := by
  obtain ⟨-, hmax⟩ := lastValid_max hlast
  intro _
  rcases hdone with hbest | hwork
  · exact ⟨b, hbest, hmax⟩
  · obtain ⟨c, hc, heq⟩ := Option.map_eq_some_iff.mp hwork
    refine ⟨c, hc, fun h hh => ?_⟩
    have hle := hmax h hh
    rw [show workOf s c = workOf s b from heq]
    exact hle

/-- A round that attaches what it has found. The candidate comes last, unless it has less
work than the best block. -/
theorem maximal_attached {b : Uint256} {fuel : ℕ} {vAttach : List Uint256}
    (hlast : s.lastValid = some b)
    (hcheck : checkAncestry s (bestWork s) (fuel + 1) b [] [] = .ok (.attach vAttach))
    (h : Attached s s' vAttach) : Maximal s' := by
  obtain ⟨-, hmax⟩ := lastValid_max hlast
  have hwork : ∀ t, workOf s' t = workOf s t :=
    h.tree.read 0 CBlockIndex.nChainWork fun _ => rfl
  cases he : s.entry b with
  | none =>
    rw [checkAncestry_none [] [] he] at hcheck
    cases hcheck
  | some e =>
    have hlist : ∃ more, vAttach = more ++ (attached (bestWork s) e b []).reverse ∧
        ∀ y ∈ more, ∀ work, bestWork s = some work → work < workOf s y := by
      rcases checkAncestry_cases he hcheck with ⟨-, habs⟩ | ⟨-, hall | ⟨p, -, hnext⟩⟩
      · cases habs
      · cases hall
        exact ⟨[], rfl, fun y hy => absurd hy List.not_mem_nil⟩
      · exact checkAncestry_attach hnext
    obtain ⟨more, hmore, hless⟩ := hlist
    intro _
    rw [h.setBlockIndexValid, h.best]
    unfold attached at hmore
    split_ifs at hmore with hall
    · refine ⟨b, ?_, fun x hx => ?_⟩
      · rw [hmore]
        simp
      · rw [hwork, hwork]
        exact hmax x hx
    · obtain ⟨work, hbest⟩ : ∃ work, bestWork s = some work := by
        cases hbest : bestWork s with
        | none =>
          rw [hbest] at hall
          exact absurd rfl hall
        | some work => exact ⟨work, rfl⟩
      have hlow : workOf s b ≤ work := by
        rw [hbest] at hall
        rw [workOf, he]
        exact BitVec.not_lt.mp (by simpa using hall)
      obtain ⟨c, hc, hcwork⟩ := Option.map_eq_some_iff.mp hbest
      have hbound : ∀ x ∈ s.setBlockIndexValid, workOf s x ≤ work :=
        fun x hx => BitVec.le_trans (hmax x hx) hlow
      have hvAttach : vAttach = more := hmore.trans (List.append_nil more)
      rw [hvAttach]
      cases hend : more.getLast? with
      | none =>
        refine ⟨c, hc, fun x hx => ?_⟩
        rw [hwork, hwork, show workOf s c = work from hcwork]
        exact hbound x hx
      | some y =>
        refine ⟨y, rfl, fun x hx => ?_⟩
        rw [hwork, hwork]
        exact BitVec.le_trans (hbound x hx)
          (BitVec.le_of_lt (hless y (List.mem_of_getLast? hend) work hbest))

/-- ConnectBestBlock ends after no more rounds than there are candidates, and with none that
has more work than the best block. -/
theorem holds_connectBestBlock (fuel : ℕ) (hs : Choosable s) :
    Holds (connectBestBlock node fuel) s (fun _ s' => Maximal s')
      (fun e => s.setBlockIndexValid.length < fuel → e ≠ .noFuel) := by
  induction fuel generalizing s with
  | zero =>
    intro habs
    omega
  | succ fuel ih =>
    unfold Holds
    rcases hrun : (connectBestBlock node (fuel + 1)).run s with ⟨r, s'⟩
    rcases connectBestBlock_cases node hrun with ⟨hlast, rfl, rfl⟩ | ⟨b, hlast, ⟨hdone, rfl, rfl⟩ |
      ⟨-, ⟨e, hcheck, rfl, -⟩ | ⟨passed, hcheck, hround⟩ | ⟨vAttach, hcheck, hround⟩⟩⟩
    · intro hne
      exact absurd (lastValid_none hlast) hne
    · exact maximal_upToDate hlast hdone
    · intro _ habs
      exact checkAncestry_ends hs.1.tree _ [] [] (Nat.le_refl _) _ habs hcheck
    · -- the candidate itself is not marked, so that it is the first of those passed
      have hmem := (lastValid_max hlast).1
      obtain ⟨e, he, hfailed⟩ := hs.2 b hmem
      obtain ⟨rest, rfl⟩ : ∃ rest, passed = b :: rest := by
        rcases checkAncestry_cases he hcheck with ⟨habs, -⟩ | ⟨-, habs | ⟨p, -, hnext⟩⟩
        · rw [hfailed] at habs
          cases habs
        · cases habs
        · obtain ⟨more, hmore⟩ := checkAncestry_failed hnext
          exact ⟨more, hmore⟩
      have hrest : Holds (failRound node fuel b (b :: rest)) s (fun _ s' => Maximal s')
          (fun e => s.setBlockIndexValid.length < fuel + 1 → e ≠ .noFuel) := by
        refine holds_bind ((holds_markPassed rest hs hmem).mono ?_ fun _ he _ => he)
        rintro _ t ⟨ht, hlt⟩
        refine holds_bind ((holds_found b ht).mono ?_ fun _ he _ => he)
        rintro _ u ⟨hu, hset⟩
        refine (ih hu).mono (fun _ _ hmax => hmax) fun _ he hfuel => he ?_
        rw [hset]
        omega
      unfold Holds at hrest
      rw [hround] at hrest
      exact hrest
    · have hrest := @holds_attachRound M node s fuel vAttach hs.1
      unfold Holds at hrest
      rw [hround] at hrest
      cases r with
      | error e => exact fun _ => hrest
      | ok a => exact maximal_attached hlast hcheck hrest

end Ending

/-- What the choice of the best chain is to do in a state: no candidate is marked as failed,
the loop ends, and when it returns true no candidate has more work than the best block. -/
structure ChoosesBest (node : Node M) (s : ChainState M) : Prop where
  candidates : ∀ h ∈ s.setBlockIndexValid, ∃ e, s.entry h = some e ∧ e.failed = false
  ends : ∀ fuel, s.setBlockIndexValid.length < fuel →
    ((connectBestBlock node fuel).run s).1 ≠ .error .noFuel
  maximal : ∀ fuel s', (connectBestBlock node fuel).run s = (.ok (), s') →
    s'.setBlockIndexValid ≠ [] → ∃ b, s'.pindexBest = some b ∧
      ∀ h ∈ s'.setBlockIndexValid, workOf s' h ≤ workOf s' b

section Running

variable {node : Node M} {s : ChainState M}

theorem choosesBest_of_choosable (hs : Choosable s) : ChoosesBest node s where
  candidates := hs.2
  ends fuel hfuel habs := by
    have hend := @holds_connectBestBlock M node s fuel hs
    exact hend.of_error (Prod.ext habs rfl) hfuel rfl
  maximal fuel s' hrun := (holds_connectBestBlock fuel hs).of_ok hrun

/-- A step leaves no candidate marked as failed. -/
theorem choosable_step (hlate : ∀ t, LateOk (node.world t))
    (hwrite : ∀ t, (node.world t).indexWrite = .ok) (s : ChainState M) (c : Call × ℕ)
    (hs : Choosable s) (hc : c.1.Allowed node s) : Choosable (step node s c) := by
  have hinv : ChainInv (step node s c) := chainInv_step hlate c hs.1 hc
  obtain ⟨call, fuel⟩ := c
  cases call with
  | storeEntry block =>
    refine ⟨hinv, ?_⟩
    show NoFailed ((plain (BestChain.storeEntry node block)).run s).2
    rw [plain_run]
    exact storeEntry_noFailed hs.2 hc
  | addToBlockIndex block =>
    show Choosable ((plain (BestChain.storeEntry node block) >>= fun _ =>
      BestChain.connectBestBlock node fuel).run s).2
    have hstore : Choosable ((BestChain.storeEntry node block).run s).2 :=
      ⟨storeEntry_inv hs.1 hc, storeEntry_noFailed hs.2 hc⟩
    have hrun := plain_run (BestChain.storeEntry node block) s
    rcases hr : (BestChain.storeEntry node block).run s with ⟨e | a, t⟩
    · rw [hr] at hrun hstore
      rw [run_bind_error hrun]
      exact hstore
    · rw [hr] at hrun hstore
      rw [run_bind_ok hrun]
      exact keeps_chooseConnectBest hlate hwrite fuel t hstore (Or.inl trivial)
  | invalidBlockFound pindex =>
    exact keeps_chooseInvalid hlate hwrite fuel pindex s hs (Or.inl trivial)
  | connectBestBlock => exact keeps_chooseConnectBest hlate hwrite fuel s hs (Or.inl trivial)
  | setBestChain pindexNew =>
    exact keeps_chooseSetBest hlate hwrite _ pindexNew s hs (Or.inl trivial)
  | restart fShutdown => exact keeps_chooseRestart fShutdown s hs (Or.inl trivial)

/-- In every run of a node whose databases can be written whenever it tries to, the choice
of the best chain ends and is right. -/
theorem choosesBest_throughout (node : Node M) (hlate : ∀ t, LateOk (node.world t))
    (hwrite : ∀ t, (node.world t).indexWrite = .ok) (calls : List (Call × ℕ))
    (hcalls : EachStep (step node) (fun s c => c.1.Allowed node s) (.init node.pool) calls) :
    Throughout (step node) (ChoosesBest node) (.init node.pool) calls := by
  have hinit : Choosable (.init node.pool) :=
    ⟨chainInv_init node.pool, fun _ hh => absurd hh List.not_mem_nil⟩
  have hrun := throughout_of_eachStep (choosable_step hlate hwrite) hinit hcalls
  exact hrun.mono fun _ hs => choosesBest_of_choosable hs

/-- The genesis block, and a block that cannot be connected to it. -/
def greedyRun : List (Call × ℕ) :=
  [(.addToBlockIndex genesis, 2), (.addToBlockIndex greedyBlock, 2)]

/-- Nothing goes wrong but the block. -/
def quiet (t : ℕ) : Io := mainIo (t < 4)

theorem choosesBest_greedy :
    (run (step (mainNode quiet)) (.init listPool) greedyRun).setBlockIndexValid = [genesisHash] ∧
      ChoosesBest (mainNode quiet) (run (step (mainNode quiet)) (.init listPool) greedyRun) := by
  have hlate : ∀ t, LateOk ((mainNode quiet).world t) := fun _ => ⟨rfl, rfl, rfl⟩
  refine ⟨by decide +kernel, ?_⟩
  exact (choosesBest_throughout (mainNode quiet) hlate (fun _ => rfl) greedyRun
    (allowed_afterGenesis (Or.inl (by decide +kernel)))).last

/-- A candidate that is marked as failed is looked at for ever. -/
theorem connectBestBlock_spins {b c : Uint256} {e : CBlockIndex} (hlast : s.lastValid = some b)
    (hnot : ¬ UpToDate s b) (he : s.entry b = some e) (hfailed : e.failed = true)
    (hwork : ¬ s.nBestInvalidWork < e.nChainWork) (hbest : s.pindexBest = some c) (fuel : ℕ) :
    (connectBestBlock node fuel).run s = (.error .noFuel, s) := by
  induction fuel with
  | zero => rfl
  | succ fuel ih =>
    have hfind : (find b).run s = (.ok e, s) := by
      rw [find_run, he]
      rfl
    have hfound : (invalidChainFound node b).run s = (.ok (), s) := by
      have hless : (moreInvalidWork node e.nChainWork).run s = (.ok (), s) := by
        show (if s.nBestInvalidWork < e.nChainWork then _ else _ : Prog _ _ _).run s = _
        rw [if_neg hwork]
        rfl
      unfold invalidChainFound
      rw [run_bind_ok hfind, run_bind_ok hless]
      show (check (s.pindexBest ≠ none) _ : Prog _ _ _).run s = _
      rw [hbest]
      rfl
    have hplain : (plain (invalidChainFound node b)).run s = (.ok (), s) := by
      rw [plain_run, hfound]
      rfl
    have hround : (failRound node fuel b []).run s = (.error .noFuel, s) := by
      have hnone : (plain ([].forM (markFailedChild node))).run s = (.ok (), s) := rfl
      unfold failRound
      rw [run_bind_ok hnone, run_bind_ok hplain]
      exact ih
    rcases hrun : (connectBestBlock node (fuel + 1)).run s with ⟨r, s'⟩
    have hcheck : ∀ {r}, checkAncestry s (bestWork s) (walkFuel s (some b)) b [] [] = r →
        r = .ok (.failed []) := by
      intro r hr
      rcases checkAncestry_cases he hr with ⟨-, hr⟩ | ⟨habs, -⟩
      · exact hr
      · rw [hfailed] at habs
        cases habs
    rcases connectBestBlock_cases node hrun with ⟨habs, -⟩ | ⟨b', hlast', hcases⟩
    · rw [hlast] at habs
      cases habs
    obtain rfl := Option.some.inj (hlast.symm.trans hlast')
    rcases hcases with ⟨hdone, -⟩ | ⟨-, ⟨err, herr, -⟩ | ⟨passed, hpassed, hfail⟩ | ⟨v, hv, -⟩⟩
    · exact absurd hdone hnot
    · cases hcheck herr
    · cases hcheck hpassed
      rw [← hfail, hround]
    · cases hcheck hv

/-- The record of the failed block cannot be written. -/
def brokenIndex (t : ℕ) : Io :=
  if t = 8 then { mainIo false with indexWrite := .ioError } else mainIo (t < 4)

def afterGreedy : ChainState (List CTransaction) :=
  run (step (mainNode brokenIndex)) (.init listPool) greedyRun

/-- The failed block stays a candidate, and ConnectBestBlock does not end. -/
theorem connectBestBlock_spins_greedy :
    EachStep (step (mainNode brokenIndex)) (fun s c => c.1.Allowed (mainNode brokenIndex) s)
        (.init listPool) greedyRun ∧
      greedyHash ∈ afterGreedy.setBlockIndexValid ∧
      (afterGreedy.entry greedyHash).map CBlockIndex.failed = some true ∧
      ∀ fuel, (connectBestBlock (mainNode brokenIndex) fuel).run afterGreedy =
        (.error .noFuel, afterGreedy) := by
  -- one evaluation for all of them
  obtain ⟨hentry, hnot, hmember, hlast, hbest⟩ :
      (afterGreedy.entry greedyHash).map (fun e =>
        (e.failed, decide (afterGreedy.nBestInvalidWork < e.nChainWork))) = some (true, false) ∧
      ¬ (afterGreedy.pindexBest = some greedyHash ∨ bestWork afterGreedy =
        some ((afterGreedy.entry greedyHash).elim 0 CBlockIndex.nChainWork)) ∧
      greedyHash ∈ afterGreedy.setBlockIndexValid ∧
      afterGreedy.lastValid = some greedyHash ∧
      afterGreedy.pindexBest = some genesisHash := by
    decide +kernel
  obtain ⟨e, he, hboth⟩ := Option.map_eq_some_iff.mp hentry
  obtain ⟨hfailed, hless⟩ := Prod.mk.inj hboth
  have hwork : ¬ afterGreedy.nBestInvalidWork < e.nChainWork := of_decide_eq_false hless
  refine ⟨allowed_afterGenesis (Or.inl (by decide +kernel)), hmember, ?_, ?_⟩
  · rw [he]
    exact congrArg some hfailed
  · exact connectBestBlock_spins hlast hnot he hfailed hwork hbest

end Running

end UmbrellaLtc.ForkChoice
