import UmbrellaLtc.MainChain
import Mathlib.Data.Nat.Log

/-!
The block locators of main.h. The hashes that CBlockLocator::Set lists go back one block at a
time at first and in steps that double later on; GetDistanceBack has no more than the list to
find the same steps again. Heights are those of an int, so that nStep does not overflow while
it is in use.
-/

namespace UmbrellaLtc.Locator

open Codec Transaction Header Coins CoinsView CheckBlock ConnectBlock BestChain ChainFrame
  ChainLinks Reorganise IndexSteps Loading ChainRuns MainChain Prog Runs

variable {M : Type}

section Locators

variable (s : ChainState M)

/-- The loop of CBlockLocator::Set; none when the fuel does not last. -/
def setLoop : ℕ → Option Uint256 → ℕ → List Uint256 → Option (List Uint256)
  | _, none, _, vHave => some vHave
  | 0, some _, _, _ => none
  | fuel + 1, some pindex, nStep, vHave =>
      setLoop fuel (Forest.back (parent s) nStep (some pindex))
        (if 10 < (vHave ++ [pindex]).length then nStep * 2 else nStep) (vHave ++ [pindex])

def set (genesis : Uint256) (fuel : ℕ) (pindex : Uint256) : Option (List Uint256) :=
  (setLoop s fuel (some pindex) 1 []).map (· ++ [genesis])

/-- The hash is in mapBlockIndex, and its entry in the main chain. -/
def inMainChain (hash : Uint256) : Bool := (s.entry hash).isSome && s.isInMainChain hash

def distanceLoop : List Uint256 → ℕ → ℕ → ℕ
  | [], nDistance, _ => nDistance
  | hash :: vHave, nDistance, nStep =>
      if inMainChain s hash then nDistance
      else distanceLoop vHave (nDistance + nStep)
        (if 10 < nDistance + nStep then nStep * 2 else nStep)

def getDistanceBack (vHave : List Uint256) : ℕ := distanceLoop s vHave 0 1

def getBlockIndex (pindexGenesisBlock : Option Uint256) (vHave : List Uint256) : Option Uint256 :=
  (vHave.find? (inMainChain s)).or pindexGenesisBlock

end Locators

section Steps

/-- The step that follows an entry of the list. -/
def stepAt (k : ℕ) : ℕ := 2 ^ (k - 10)

/-- How far back an entry of the list is. -/
def offset : ℕ → ℕ
  | 0 => 0
  | k + 1 => offset k + stepAt k

theorem stepAt_pos (k : ℕ) : 0 < stepAt k := Nat.two_pow_pos _

theorem stepAt_succ (k : ℕ) : stepAt (k + 1) = if 10 < k + 1 then stepAt k * 2 else stepAt k := by
  unfold stepAt
  split_ifs with h
  · rw [← Nat.pow_succ]
    congr 1
    omega
  · congr 1
    omega

theorem offset_of_le {k : ℕ} (h : k ≤ 11) : offset k = k := by
  induction k with
  | zero => rfl
  | succ k ih =>
    have hstep : stepAt k = 1 := by
      rw [stepAt, Nat.sub_eq_zero_of_le (by omega), Nat.pow_zero]
    rw [offset, ih (by omega), hstep]

theorem offset_of_ge {k : ℕ} (h : 11 ≤ k) : offset k = 9 + 2 ^ (k - 10) := by
  induction k, h using Nat.le_induction with
  | base => rfl
  | succ k hk ih =>
    have hsucc : k + 1 - 10 = (k - 10) + 1 := by omega
    rw [offset, ih, stepAt, hsucc, Nat.pow_succ]
    omega

/-- GetDistanceBack doubles its step where Set does. -/
theorem offset_succ_gt (k : ℕ) : 10 < offset (k + 1) ↔ 10 < k + 1 := by
  by_cases h : k + 1 ≤ 11
  · rw [offset_of_le h]
  · have hpos : 0 < 2 ^ (k + 1 - 10) := Nat.two_pow_pos _
    have hbig : 2 ^ 1 ≤ 2 ^ (k + 1 - 10) := Nat.pow_le_pow_right (by omega) (by omega)
    rw [offset_of_ge (by omega)]
    omega

/-- The entries become scarce quickly. -/
theorem lt_of_offset_le {k n : ℕ} (h : offset k ≤ n) : k ≤ Nat.log 2 n + 10 := by
  by_cases hk : k ≤ 10
  · omega
  · rw [offset_of_ge (by omega)] at h
    have hlog : k - 10 ≤ Nat.log 2 n := by
      apply Nat.le_log_of_pow_le (by omega)
      omega
    omega

end Steps

section Trees

/-- A block index over one genesis block, with the links of a main chain. -/
structure IndexTree (s : ChainState M) (genesis : Uint256) : Prop where
  known : ∀ c p, parent s c = some p → (s.entry p).isSome
  height : ∀ c e, s.entry c = some e → e.nHeight = e.pprev.elim 0 fun p => s.height p + 1
  root : ∀ c e, s.entry c = some e → e.pprev = none → c = genesis
  links : Forest.Linked (parent s) (next s) s.pindexBest
  best : ∀ b, s.pindexBest = some b → (s.entry b).isSome

variable {s : ChainState M} {genesis : Uint256}

theorem IndexTree.exact (hs : IndexTree s genesis) (c p : Uint256) (h : parent s c = some p) :
    s.height c = s.height p + 1 := by
  cases he : s.entry c with
  | none =>
    rw [parent, he] at h
    cases h
  | some e =>
    have hheight := hs.height c e he
    rw [parent_of_entry he] at h
    rw [h] at hheight
    rw [height_of_entry he, hheight]
    rfl

theorem IndexTree.graded (hs : IndexTree s genesis) : Forest.Graded (parent s) s.height := by
  intro c p h
  have hexact := hs.exact c p h
  omega

theorem IndexTree.known_of_anc (hs : IndexTree s genesis) {a b : Uint256}
    (h : Forest.Anc (parent s) a b) (hb : (s.entry b).isSome) : (s.entry a).isSome := by
  cases h.cases_tail with
  | inl heq =>
    rw [heq]
    exact hb
  | inr hstep =>
    obtain ⟨c, _, hc⟩ := hstep
    exact hs.known c a hc

/-- The genesis block is below every entry. -/
theorem IndexTree.genesis_anc (hs : IndexTree s genesis) {b : Uint256}
    (hb : (s.entry b).isSome) : Forest.Anc (parent s) genesis b := by
  obtain ⟨a, hanc, hroot⟩ := Forest.exists_root hs.graded b
  obtain ⟨e, he⟩ := Option.isSome_iff_exists.mp (hs.known_of_anc hanc hb)
  rw [parent_of_entry he] at hroot
  rwa [← hs.root a e he hroot]

/-- The genesis block is in the main chain, unless there is none. -/
theorem IndexTree.inMainChain_genesis (hs : IndexTree s genesis) {b : Uint256}
    (hb : s.pindexBest = some b) : inMainChain s genesis = true := by
  have hanc := hs.genesis_anc (hs.best b hb)
  rw [inMainChain, Bool.and_eq_true]
  refine ⟨hs.known_of_anc hanc (hs.best b hb), ?_⟩
  exact (isInMainChain_of_linked hs.graded hs.links genesis).mpr ⟨b, hb, hanc⟩

end Trees

section Agreement

variable {s : ChainState M} {genesis pindex : Uint256}

/-- The list goes on with the entries at the next offsets. -/
theorem setLoop_spec (hs : IndexTree s genesis) :
    ∀ (fuel k : ℕ) (x : Option Uint256) (vHave : List Uint256),
      Forest.back (parent s) (offset k) (some pindex) = x → vHave.length = k →
      (x.elim 0 fun h => s.height h + 1) ≤ fuel →
      ∃ l : List Uint256, setLoop s fuel x (stepAt k) vHave = some (vHave ++ l) ∧
        ∀ i (hi : i < l.length),
          Forest.back (parent s) (offset (k + i)) (some pindex) = some l[i] := by
  intro fuel
  induction fuel with
  | zero =>
    intro k x vHave hx hlength hfuel
    cases x with
    | none => exact ⟨[], by rw [List.append_nil, setLoop], nofun⟩
    | some h => simp at hfuel
  | succ fuel ih =>
    intro k x vHave hx hlength hfuel
    cases x with
    | none => exact ⟨[], by rw [List.append_nil, setLoop], nofun⟩
    | some h =>
      have hnext : Forest.back (parent s) (offset (k + 1)) (some pindex) =
          Forest.back (parent s) (stepAt k) (some h) := by
        rw [offset, Forest.back_add, hx]
      have hlower : ((Forest.back (parent s) (stepAt k) (some h)).elim 0
          fun h => s.height h + 1) ≤ fuel := by
        cases hup : Forest.back (parent s) (stepAt k) (some h) with
        | none => exact Nat.zero_le _
        | some g =>
          have hheight := Forest.back_height hs.exact hup
          have hstep := stepAt_pos k
          simp only [Option.elim_some] at hfuel ⊢
          omega
      have hgrown : (vHave ++ [h]).length = k + 1 := by
        rw [List.length_append, hlength]
        rfl
      obtain ⟨l, hl, hback⟩ := ih (k + 1) _ (vHave ++ [h]) hnext hgrown hlower
      refine ⟨h :: l, ?_, ?_⟩
      · rw [setLoop, hgrown, ← stepAt_succ, hl, List.append_assoc]
        rfl
      · intro i hi
        cases i with
        | zero => exact hx
        | succ i =>
          rw [List.getElem_cons_succ, ← hback i (by simpa using hi)]
          congr 2
          omega

/-- GetDistanceBack takes the steps that Set took. -/
theorem distanceLoop_spec {pre post : List Uint256} {found : Uint256}
    (hfound : inMainChain s found = true) :
    ∀ k, (∀ h ∈ pre, inMainChain s h = false) →
      distanceLoop s (pre ++ found :: post) (offset k) (stepAt k) = offset (k + pre.length) := by
  induction pre with
  | nil =>
    intro k _
    simp [distanceLoop, hfound]
  | cons h pre ih =>
    intro k hpre
    have hrest := ih (k + 1) fun h hh => hpre h (List.mem_cons_of_mem _ hh)
    have hstep : (if 10 < offset k + stepAt k then stepAt k * 2 else stepAt k) =
        stepAt (k + 1) := by
      rw [stepAt_succ]
      exact if_congr (offset_succ_gt k) rfl rfl
    rw [List.cons_append, distanceLoop, hpre h List.mem_cons_self, if_neg Bool.false_ne_true,
      hstep, List.length_cons, Nat.add_comm pre.length, ← Nat.add_assoc]
    exact hrest

theorem setLoop_mono {r : List Uint256} :
    ∀ {fuel fuel' nStep : ℕ} {x : Option Uint256} {vHave : List Uint256}, fuel ≤ fuel' →
      setLoop s fuel x nStep vHave = some r → setLoop s fuel' x nStep vHave = some r := by
  intro fuel
  induction fuel with
  | zero =>
    intro fuel' nStep x vHave _ h
    cases x with
    | none => rw [setLoop] at h ⊢; exact h
    | some => cases h
  | succ fuel ih =>
    intro fuel' nStep x vHave hle h
    cases x with
    | none => rw [setLoop] at h ⊢; exact h
    | some pindex =>
      obtain ⟨fuel', rfl⟩ := Nat.exists_eq_add_of_le' (Nat.le_trans (Nat.le_add_left 1 fuel) hle)
      rw [setLoop] at h ⊢
      exact ih (by omega) h

/-- What Set lists: entries at the offsets, and the genesis hash behind them. -/
theorem set_spec (hs : IndexTree s genesis) (pindex : Uint256) :
    ∃ l : List Uint256,
      (∀ fuel, s.height pindex < fuel → set s genesis fuel pindex = some (l ++ [genesis])) ∧
      ∀ i (hi : i < l.length), Forest.back (parent s) (offset i) (some pindex) = some l[i] := by
  obtain ⟨l, hl, hback⟩ := setLoop_spec hs (s.height pindex + 1) 0 (some pindex) [] rfl rfl
    (Nat.le_refl _)
  refine ⟨l, fun fuel hfuel => ?_, fun i hi => ?_⟩
  · have hloop := setLoop_mono hfuel hl
    rw [set, show (1 : ℕ) = stepAt 0 from rfl, hloop]
    rfl
  · rw [← hback i hi, Nat.zero_add]

/-- The number of hashes is logarithmic in the height. -/
theorem length_le (hs : IndexTree s genesis) {l : List Uint256}
    (hback : ∀ i (hi : i < l.length),
      Forest.back (parent s) (offset i) (some pindex) = some l[i]) :
    l.length ≤ Nat.log 2 (s.height pindex) + 11 := by
  cases hlength : l.length with
  | zero => exact Nat.zero_le _
  | succ n =>
    have hheight := Forest.back_height hs.exact (hback n (by omega))
    have hoffset : n ≤ Nat.log 2 (s.height pindex) + 10 := lt_of_offset_le (by omega)
    omega

/-- What the first entry of a list that is in the main chain says. -/
structure Found (s : ChainState M) (pindex : Uint256) (pindexGenesisBlock : Option Uint256)
    (pre : List Uint256) (found : Uint256) (post : List Uint256) : Prop where
  first : ∀ h ∈ pre, inMainChain s h = false
  main : inMainChain s found = true
  index : getBlockIndex s pindexGenesisBlock (pre ++ found :: post) = some found
  anc : Forest.Anc (parent s) found pindex
  distance : post ≠ [] →
    s.height pindex = s.height found + getDistanceBack s (pre ++ found :: post)

theorem found_spec (hs : IndexTree s genesis) (hknown : (s.entry pindex).isSome)
    (pindexGenesisBlock : Option Uint256) {l pre post : List Uint256} {found : Uint256}
    (hback : ∀ i (hi : i < l.length),
      Forest.back (parent s) (offset i) (some pindex) = some l[i])
    (hsplit : l ++ [genesis] = pre ++ found :: post)
    (hmain : inMainChain s found = true) (hfirst : ∀ h ∈ pre, inMainChain s h = false) :
    Found s pindex pindexGenesisBlock pre found post := by
  have hlength := congrArg List.length hsplit
  simp only [List.length_append, List.length_cons, List.length_nil] at hlength
  have hat : (l ++ [genesis])[pre.length]? = some found := by
    rw [hsplit, List.getElem?_append_right (Nat.le_refl _), Nat.sub_self]
    rfl
  have hlisted : pre.length < l.length →
      Forest.back (parent s) (offset pre.length) (some pindex) = some found := by
    intro hlt
    rw [List.getElem?_append_left hlt, List.getElem?_eq_getElem hlt] at hat
    rw [hback pre.length hlt, hat]
  refine ⟨hfirst, hmain, ?_, ?_, fun hpost => ?_⟩
  · have hfind : (pre ++ found :: post).find? (inMainChain s) = some found := by
      rw [List.find?_eq_some_iff_append]
      exact ⟨hmain, pre, post, rfl, fun h hh => by rw [hfirst h hh]; rfl⟩
    rw [getBlockIndex, hfind]
    rfl
  · by_cases hlt : pre.length < l.length
    · exact Forest.back_anc (hlisted hlt)
    · rw [List.getElem?_append_right (by omega)] at hat
      obtain rfl : genesis = found := by
        rw [show pre.length - l.length = 0 by omega] at hat
        exact Option.some.inj hat
      exact hs.genesis_anc hknown
  · have hpos : 0 < post.length := List.length_pos_iff.mpr hpost
    have hheight := Forest.back_height hs.exact (hlisted (by omega))
    have hdistance := @distanceLoop_spec _ s pre post found hmain 0 hfirst
    rw [Nat.zero_add] at hdistance
    rw [hheight, getDistanceBack, ← hdistance]
    rfl

/-- A locator of an entry: how Set ends with it, and what is read from it. -/
structure Agreement (s : ChainState M) (genesis pindex : Uint256)
    (pindexGenesisBlock : Option Uint256) (vHave : List Uint256) : Prop where
  terminates : ∀ fuel, s.height pindex < fuel → set s genesis fuel pindex = some vHave
  last : vHave.getLast? = some genesis
  length : vHave.length ≤ Nat.log 2 (s.height pindex) + 12
  found : (∃ pre found post, vHave = pre ++ found :: post ∧
      Found s pindex pindexGenesisBlock pre found post) ∨
    s.pindexBest = none ∧ (∀ h ∈ vHave, inMainChain s h = false) ∧
      getBlockIndex s pindexGenesisBlock vHave = pindexGenesisBlock

/-- Unless there is no main chain, the two readers find the first entry that is in it. -/
theorem locator_agrees (hs : IndexTree s genesis) (hknown : (s.entry pindex).isSome)
    (pindexGenesisBlock : Option Uint256) :
    ∃ vHave : List Uint256, Agreement s genesis pindex pindexGenesisBlock vHave := by
  obtain ⟨l, hset, hback⟩ := set_spec hs pindex
  have hlength := length_le hs hback
  refine ⟨l ++ [genesis], hset, List.getLast?_concat, ?_, ?_⟩
  · rw [List.length_append]
    exact Nat.succ_le_succ hlength
  · cases hfind : (l ++ [genesis]).find? (inMainChain s) with
    | some found =>
      obtain ⟨hmain, pre, post, hsplit, hfirst⟩ := List.find?_eq_some_iff_append.mp hfind
      have hfirst' : ∀ h ∈ pre, inMainChain s h = false := by
        intro h hh
        simpa using hfirst h hh
      exact Or.inl ⟨pre, found, post, hsplit,
        found_spec hs hknown pindexGenesisBlock hback hsplit hmain hfirst'⟩
    | none =>
      have hnone : ∀ h ∈ l ++ [genesis], inMainChain s h = false := by
        intro h hh
        simpa using List.find?_eq_none.mp hfind h hh
      refine Or.inr ⟨?_, hnone, ?_⟩
      · cases hbest : s.pindexBest with
        | none => rfl
        | some b =>
          have hin := hs.inMainChain_genesis hbest
          rw [hnone genesis (by simp)] at hin
          cases hin
      · rw [getBlockIndex, hfind]
        rfl

end Agreement

section Running

variable {node : Node M} {s s' : ChainState M} {genesis : Uint256}

/-- Only the genesis block is without a parent. -/
def Rooted (genesis : Uint256) (s : ChainState M) : Prop :=
  ∀ c e, s.entry c = some e → e.pprev = none → c = genesis

theorem Rooted.sameTree (hs : Rooted genesis s) (h : SameTree s s') : Rooted genesis s' := by
  intro c e he hroot
  obtain ⟨e₀, he₀, hcore⟩ := SameTree.entry_core h he
  have hpprev := read_core hcore CBlockIndex.pprev fun _ => rfl
  exact hs c e₀ he₀ (hpprev.symm.trans hroot)

theorem Rooted.stored (hs : Rooted genesis s) {block : CBlock} (h : Stored node s s' block)
    (hacc : Accepted node s block)
    (hgenesis : block.header.fields.hashPrevBlock = 0 →
      block.header.fields.getHash node.Hash = genesis) : Rooted genesis s' := by
  intro c e he hroot
  rw [h.entry c] at he
  split_ifs at he with hc
  · cases he
    obtain ⟨p, _, hprev, _⟩ | ⟨hnone, _⟩ := leaf_cases s block
    · rw [hprev] at hroot
      cases hroot
    · obtain hsome | ⟨hzero, _⟩ := hacc
      · rw [hnone] at hsome
        cases hsome
      · rw [hc, hgenesis hzero]
  · exact hs c e he hroot

/-- Where no block but the genesis block goes without a previous one. -/
def Call.Grounded (genesis : Uint256) (node : Node M) : Call → Prop
  | .storeEntry block => block.header.fields.hashPrevBlock = 0 →
      block.header.fields.getHash node.Hash = genesis
  | .addToBlockIndex block => block.header.fields.hashPrevBlock = 0 →
      block.header.fields.getHash node.Hash = genesis
  | _ => True

theorem rooted_connectBestBlock (hs : ExactChain node s) (hroot : Rooted genesis s) {fuel : ℕ}
    (hrun : (connectBestBlock node fuel).run s = (.ok (), s')) : Rooted genesis s' := by
  have htree : InTree s s := ⟨hs.1, refl s⟩
  have hkeeps := keeps_connectBestBlock node fuel s htree
  rw [hrun] at hkeeps
  exact hroot.sameTree (hkeeps (Or.inr ⟨(), rfl⟩)).2

theorem rooted_restart (hs : ExactChain node s) (hroot : Rooted genesis s) {fShutdown : Bool}
    (hrun : (restart node fShutdown).run s = (.ok (), s')) : Rooted genesis s' := by
  unfold restart at hrun
  obtain ⟨_, t, hstop, hstart⟩ := bind_ok_cases hrun
  have hwritten := within_plain (within_shutdown node fShutdown) s
  rw [hstop] at hwritten
  have hst : SameTree s t := hwritten.sameTree
  obtain ⟨s₁, hrun₁, _, hsame, -⟩ := start_run (hs.2.sameTree hst) (hst.tree hs.1.tree)
  obtain rfl : s₁ = s' := congrArg Prod.snd (hrun₁.symm.trans hstart)
  exact (hroot.sameTree hst).sameTree hsame

theorem rooted_call {call : Call} {fuel : ℕ} (hs : ExactChain node s) (hroot : Rooted genesis s)
    (hcall : Call.Forward node s call) (hground : Call.Grounded genesis node call)
    (hrun : (call.prog node fuel).run s = (.ok (), s')) : Rooted genesis s' := by
  cases call with
  | storeEntry block =>
    exact hroot.stored (storeEntry_stored hcall.1 (plain_ok hrun)) hcall.1 hground
  | addToBlockIndex block =>
    obtain ⟨_, t, hstore, hsearch⟩ := bind_ok_cases hrun
    have ht := hroot.stored (storeEntry_stored hcall.1 (plain_ok hstore)) hcall.1 hground
    exact rooted_connectBestBlock (exact_storeEntry hs hcall.1 hcall.2 hstore) ht hsearch
  | invalidBlockFound pindex => exact absurd hcall id
  | connectBestBlock => exact rooted_connectBestBlock hs hroot hrun
  | setBestChain pindexNew => exact hroot.sameTree (setBestChain_switched node _ hs.1 hrun).tree
  | restart fShutdown => exact rooted_restart hs hroot hrun

theorem indexTree_of_exact (hs : ExactChain node s) (hroot : Rooted genesis s) :
    IndexTree s genesis where
  known := hs.1.tree.known
  height := hs.2.height
  root := hroot
  links := hs.1.links
  best b hb := (hs.1.best b hb).known

/-- In every run of calls that succeed the block index is a tree over the genesis block. -/
theorem indexTree_throughout (node : Node M) (genesis : Uint256) (calls : List (Call × ℕ))
    (hcalls : EachStep (step node)
      (fun s c => Succeeds node s c ∧ Call.Grounded genesis node c.1) (.init node.pool) calls) :
    Throughout (step node) (fun s => IndexTree s genesis) (.init node.pool) calls := by
  have hinit : ExactChain node (.init node.pool) ∧ Rooted genesis (.init node.pool) := by
    refine ⟨exact_init node.pool, ?_⟩
    intro c e he
    cases he
  have hstep : ∀ (s : ChainState M) (c : Call × ℕ), ExactChain node s ∧ Rooted genesis s →
      Succeeds node s c ∧ Call.Grounded genesis node c.1 →
      ExactChain node (step node s c) ∧ Rooted genesis (step node s c) := by
    intro s c hs hc
    exact ⟨exact_step s c hs.1 hc.1, rooted_call hs.1 hs.2 hc.1.1 hc.2 (Prod.ext hc.1.2 rfl)⟩
  have hrun := throughout_of_eachStep hstep hinit hcalls
  exact hrun.mono fun _ hs => indexTree_of_exact hs.1 hs.2

/-- The chain of the genesis block and the block on it. -/
def premineChain : ChainState (List CTransaction) :=
  Runs.run (step (mainNode calm)) (.init listPool) premineRun

theorem locator_agrees_premine : premineChain.pindexBest = some premineHash ∧
    ∃ vHave, Agreement premineChain genesisHash premineHash (some genesisHash) vHave := by
  obtain ⟨hfirst, hsecond, -⟩ := succeeds_premine
  have hgenesis : genesis.header.fields.getHash mainHash = genesisHash := by decide +kernel
  have hprev : premineBlock.header.fields.hashPrevBlock ≠ 0 := by decide +kernel
  have htree := indexTree_throughout (mainNode calm) genesisHash premineRun
    ⟨⟨hfirst, fun _ => hgenesis⟩, ⟨hsecond, fun hzero => absurd hzero hprev⟩, trivial⟩
  exact ⟨by decide +kernel, locator_agrees htree.last (by decide +kernel) (some genesisHash)⟩

end Running

end UmbrellaLtc.Locator
