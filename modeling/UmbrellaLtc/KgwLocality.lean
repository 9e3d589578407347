import UmbrellaLtc.Kgw

/-!
The gravity well looks at a window of recent blocks. The count of blocks ends the search at
`pastBlocksMax` below the last block, the average and the two times are taken from what was
searched, and the distances are those of the heights. Two chains that look alike there have the
same next difficulty, whatever is below.
-/

namespace UmbrellaLtc.KgwLocality

open Compact Guards Kgw

/-- Each block is one higher than its pprev. The lowest block that is known need not be genesis. -/
def Linked (chain : Iterator) : Prop := chain.IsChain fun bi prev => bi.height = prev.height + 1

/-- What the retargeting reads of a block. -/
def seen (bi : InfoType) : ℤ × ℤ × BitVec 32 := (bi.height, bi.target, bi.time)

/-- The last `n` blocks are seen alike. -/
def Agree (n : ℕ) (chain₁ chain₂ : Iterator) : Prop :=
  ∀ i < n, (chain₁[i]?).map seen = (chain₂[i]?).map seen

/-- The iterator to the lowest block. -/
def lowest (chain : Iterator) : Iterator := chain.drop (chain.length - 1)

theorem Heights.linked {chain : Iterator} (h : Heights chain) : Linked chain := by
  induction chain with
  | nil => exact List.IsChain.nil
  | cons bi rest ih =>
    cases rest with
    | nil => exact List.IsChain.singleton bi
    | cons prev rest =>
      refine List.IsChain.cons_cons ?_ (ih h.2)
      rw [h.1, h.2.1, List.length_cons]
      push_cast
      ring

theorem Linked.height {chain : Iterator} (h : Linked chain) (h0 : 0 < chain.length) (k : ℕ)
    (hk : k < chain.length) : chain[0].height = chain[k].height + k := by
  induction k with
  | zero => simp
  | succ k ih =>
    have hstep := List.isChain_iff_getElem.mp h k (by omega)
    rw [ih (by omega), hstep]
    push_cast
    ring

theorem Linked.heightDiff {chain : Iterator} (h : Linked chain) (k : ℕ) (hk : k < chain.length) :
    heightDiff chain (chain.drop k) = .ok (k : ℤ) := by
  have hzero : 0 < chain.length := by omega
  have hfirst := deref_drop chain 0 hzero
  rw [List.drop_zero] at hfirst
  rw [Kgw.heightDiff, hfirst, deref_drop chain k hk]
  simp only [bind, Except.bind, pure, Except.pure, Except.ok.injEq]
  have hheight := h.height hzero k hk
  omega

/-! What agreement gives. -/

section Agreement

variable {n : ℕ} {chain₁ chain₂ : Iterator}

theorem Agree.seen_eq (h : Agree n chain₁ chain₂) {i : ℕ} (hi : i < n) (h₁ : i < chain₁.length)
    (h₂ : i < chain₂.length) : seen chain₁[i] = seen chain₂[i] := by
  have hget := h i hi
  rw [List.getElem?_eq_getElem h₁, List.getElem?_eq_getElem h₂] at hget
  exact Option.some.inj hget

theorem timePassed_eq {a b a' b' : InfoType} (ha : seen a = seen a') (hb : seen b = seen b') :
    timePassed a b = timePassed a' b' := by
  simp only [seen, Prod.mk.injEq] at ha hb
  rw [timePassed, timePassed, ha.2.2, hb.2.2]

theorem Agree.averagedTargets_eq (h : Agree n chain₁ chain₂) {k : ℕ} (hk : k ≤ n) :
    averagedTargets chain₁ k = averagedTargets chain₂ k := by
  refine List.ext_getElem? fun i => ?_
  unfold averagedTargets
  rw [List.getElem?_map, List.getElem?_map]
  by_cases hi : i < k
  · have htarget := congrArg (Option.map fun s : ℤ × ℤ × BitVec 32 => s.2.1) (h i (by omega))
    rw [List.getElem?_take_of_lt hi, List.getElem?_take_of_lt hi]
    simpa only [Option.map_map, Function.comp_def, seen] using htarget
  · rw [List.getElem?_eq_none (by rw [List.length_take]; omega),
      List.getElem?_eq_none (by rw [List.length_take]; omega)]

end Agreement

section Local

variable {fTestNet : Bool} {chain₁ chain₂ : Iterator}

/-- One step of the search above the lowest block. -/
theorem findIf_step (horizon : Horizon) (desired : ℤ) (last : InfoType) (chain : Iterator) {j : ℕ}
    (hj : j + 1 < chain.length) :
    findIf fTestNet horizon desired last (lowest chain) (chain.drop j) j =
      if decide (j + 1 > pastBlocksMax fTestNet) ||
          horizon (j + 1) (desired * (j + 1 : ℕ)) (timePassed last chain[j]) then
        .ok (chain.drop j)
      else findIf fTestNet horizon desired last (lowest chain) (chain.drop (j + 1)) (j + 1) := by
  have hdrop : chain.drop j = chain[j] :: chain.drop (j + 1) :=
    List.drop_eq_getElem_cons (by omega)
  have hne : ¬ chain[j] :: chain.drop (j + 1) = lowest chain := by
    rw [← hdrop, lowest, drop_eq_drop_iff chain j _ (by omega) (by omega)]
    omega
  rw [hdrop]
  conv_lhs => unfold findIf
  rw [if_neg hne, breaks_eq]
  rfl

/-- The search ends at one place of the two chains, inside the window. -/
theorem findIf_local (horizon : Horizon) (desired : ℤ) {last₁ last₂ : InfoType}
    (hlast : seen last₁ = seen last₂) (h₁ : pastBlocksMax fTestNet + 1 < chain₁.length)
    (h₂ : pastBlocksMax fTestNet + 1 < chain₂.length)
    (hagree : Agree (pastBlocksMax fTestNet + 1) chain₁ chain₂) (m j : ℕ)
    (hm : j + m = pastBlocksMax fTestNet) :
    ∃ k ≤ pastBlocksMax fTestNet,
      findIf fTestNet horizon desired last₁ (lowest chain₁) (chain₁.drop j) j =
        .ok (chain₁.drop k) ∧
      findIf fTestNet horizon desired last₂ (lowest chain₂) (chain₂.drop j) j =
        .ok (chain₂.drop k) := by
  induction m generalizing j with
  | zero =>
    have hcount : decide (j + 1 > pastBlocksMax fTestNet) = true := decide_eq_true (by omega)
    refine ⟨j, by omega, ?_, ?_⟩
    · rw [findIf_step horizon desired last₁ chain₁ (by omega), hcount, Bool.true_or, if_pos rfl]
    · rw [findIf_step horizon desired last₂ chain₂ (by omega), hcount, Bool.true_or, if_pos rfl]
  | succ m ih =>
    have hget := hagree.seen_eq (i := j) (by omega) (by omega) (by omega)
    rw [findIf_step horizon desired last₁ chain₁ (by omega),
      findIf_step horizon desired last₂ chain₂ (by omega), timePassed_eq hlast hget]
    by_cases hstop : (decide (j + 1 > pastBlocksMax fTestNet) ||
        horizon (j + 1) (desired * (j + 1 : ℕ)) (timePassed last₂ chain₂[j])) = true
    · rw [if_pos hstop, if_pos hstop]
      exact ⟨j, by omega, rfl, rfl⟩
    · rw [if_neg hstop, if_neg hstop]
      exact ih (j + 1) (by omega)

/-- What is computed from a place in the window is the same. -/
theorem retarget_local (desired : ℤ) (hl₁ : Linked chain₁) (hl₂ : Linked chain₂) {n k : ℕ}
    (hagree : Agree n chain₁ chain₂) (hk : k < n) (h₁ : k < chain₁.length)
    (h₂ : k < chain₂.length) :
    retarget fTestNet desired chain₁ (chain₁.drop k) =
      retarget fTestNet desired chain₂ (chain₂.drop k) := by
  have hzero₁ : 0 < chain₁.length := by omega
  have hzero₂ : 0 < chain₂.length := by omega
  have hderef₁ := deref_drop chain₁ 0 hzero₁
  have hderef₂ := deref_drop chain₂ 0 hzero₂
  have hsum₁ := accumulate_spec chain₁ k k 0 0 h₁ (Nat.zero_add k)
  have hsum₂ := accumulate_spec chain₂ k k 0 0 h₂ (Nat.zero_add k)
  rw [List.drop_zero] at hderef₁ hderef₂ hsum₁ hsum₂
  have htargets : (chain₁.take k).map InfoType.target = (chain₂.take k).map InfoType.target :=
    hagree.averagedTargets_eq (by omega)
  have htime : timePassed chain₁[0] chain₁[k] = timePassed chain₂[0] chain₂[k] :=
    timePassed_eq (hagree.seen_eq (by omega) hzero₁ hzero₂) (hagree.seen_eq hk h₁ h₂)
  unfold retarget
  rw [hl₁.heightDiff k h₁, hl₂.heightDiff k h₂, hsum₁, hsum₂, htargets, hderef₁, hderef₂,
    deref_drop chain₁ k h₁, deref_drop chain₂ k h₂]
  simp only [bind, Except.bind, htime]

/-- Two chains that agree on the last `pastBlocksMax + 1` blocks and reach below them have the
same next difficulty. -/
theorem kgwNextBlockDifficulty_local (horizon : Horizon) (desired : ℤ) (hl₁ : Linked chain₁)
    (hl₂ : Linked chain₂) (h₁ : pastBlocksMax fTestNet + 1 < chain₁.length)
    (h₂ : pastBlocksMax fTestNet + 1 < chain₂.length)
    (hagree : Agree (pastBlocksMax fTestNet + 1) chain₁ chain₂) :
    kgwNextBlockDifficulty fTestNet horizon desired chain₁ (lowest chain₁) =
      kgwNextBlockDifficulty fTestNet horizon desired chain₂ (lowest chain₂) := by
  have hpars : pastBlocksMin fTestNet - 1 ≤ pastBlocksMax fTestNet ∧
      pastBlocksMin fTestNet ≤ pastBlocksMax fTestNet := by
    cases fTestNet <;> decide
  have hzero₁ : 0 < chain₁.length := by omega
  have hzero₂ : 0 < chain₂.length := by omega
  have hderef₁ := deref_drop chain₁ 0 hzero₁
  have hderef₂ := deref_drop chain₂ 0 hzero₂
  rw [List.drop_zero] at hderef₁ hderef₂
  obtain ⟨k, hk, hfind₁, hfind₂⟩ := findIf_local horizon desired
    (hagree.seen_eq (by omega) hzero₁ hzero₂) h₁ h₂ hagree
    (pastBlocksMax fTestNet - (pastBlocksMin fTestNet - 1)) (pastBlocksMin fTestNet - 1) (by omega)
  have hbreak₁ : breakingElement fTestNet horizon desired chain₁ (lowest chain₁) =
      .ok (chain₁.drop k) := by
    rw [breakingElement, advance_eq _ _ (by omega), hderef₁]
    exact hfind₁
  have hbreak₂ : breakingElement fTestNet horizon desired chain₂ (lowest chain₂) =
      .ok (chain₂.drop k) := by
    rw [breakingElement, advance_eq _ _ (by omega), hderef₂]
    exact hfind₂
  have hdiff₁ : ¬ ((chain₁.length - 1 : ℕ) : ℤ) < pastBlocksMin fTestNet := by omega
  have hdiff₂ : ¬ ((chain₂.length - 1 : ℕ) : ℤ) < pastBlocksMin fTestNet := by omega
  have hretarget := @retarget_local fTestNet _ _ desired hl₁ hl₂ _ k hagree (by omega) (by omega)
    (by omega)
  unfold kgwNextBlockDifficulty
  rw [hbreak₁, hbreak₂, lowest, lowest, hl₁.heightDiff _ (by omega),
    hl₂.heightDiff _ (by omega)]
  simp only [bind, Except.bind, if_neg hdiff₁, if_neg hdiff₂, hretarget]

end Local

/-- A chain and the same chain without its lowest 79 blocks. -/
theorem kgwNextBlockDifficulty_local_recent :
    kgwNextBlockDifficulty false (fun _ _ _ => false) 270 (spacedChain 0x1e07ffff 270 400)
        (lowest (spacedChain 0x1e07ffff 270 400)) =
      kgwNextBlockDifficulty false (fun _ _ _ => false) 270
        ((spacedChain 0x1e07ffff 270 400).take 322)
        (lowest ((spacedChain 0x1e07ffff 270 400).take 322)) := by
  have hmax : pastBlocksMax false = 320 := by decide
  have hlinked := Heights.linked (heights_spacedChain 0x1e07ffff 270 400)
  have hlen := spacedChain_length 0x1e07ffff 270 400
  refine kgwNextBlockDifficulty_local _ _ hlinked (hlinked.take 322) (by omega) ?_ ?_
  · rw [List.length_take]
    omega
  · intro i hi
    rw [List.getElem?_take_of_lt (by omega)]

end UmbrellaLtc.KgwLocality
