import UmbrellaLtc.PartialMerkleTree

/-!
ExtractMatches on a partial tree that a peer has chosen. Its cursors are unsigned
ints and its accesses to the two vectors are made only after a comparison with their
sizes; here an access out of bounds is an outcome of its own, and no run has it. The
walk is then compared with the tree of a block of the same size: a node at which the
two agree has the same children on both sides, down to the leaves that are reported.
-/

namespace UmbrellaLtc.MerkleExtraction

open Codec Transaction Merkle CheckBlock HashTree MerkleRoot PartialMerkleTree

section Accesses

variable (Hash : List Byte → Uint256) (t : CPartialMerkleTree)

/-- The variables that TraverseAndExtract takes by reference. -/
structure Cursors where
  fBad : Bool
  nBitsUsed : BitVec 32
  nHashUsed : BitVec 32
  vMatch : List Uint256
deriving DecidableEq

/-- The stored hash of a node at which the walk stops. -/
def useHashAt (fMatched : Bool) (s : Cursors) : Option (Uint256 × Cursors) :=
  if t.vHash.length ≤ s.nHashUsed.toNat then some (0, { s with fBad := true })
  else
    t.vHash[s.nHashUsed.toNat]?.map fun hash =>
      (hash, { s with
        nHashUsed := s.nHashUsed + 1
        vMatch := if fMatched then s.vMatch ++ [hash] else s.vMatch })

/-- TraverseAndExtract with its accesses: `none` is one out of bounds. -/
def traverseAndExtractAt : ℕ → ℕ → Cursors → Option (Uint256 × Cursors)
  | 0, _, s =>
      if t.vBits.length ≤ s.nBitsUsed.toNat then some (0, { s with fBad := true })
      else
        t.vBits[s.nBitsUsed.toNat]?.bind fun fParentOfMatch =>
          useHashAt t fParentOfMatch { s with nBitsUsed := s.nBitsUsed + 1 }
  | height + 1, pos, s =>
      if t.vBits.length ≤ s.nBitsUsed.toNat then some (0, { s with fBad := true })
      else
        t.vBits[s.nBitsUsed.toNat]?.bind fun fParentOfMatch =>
          if fParentOfMatch then
            (traverseAndExtractAt height (pos * 2) { s with nBitsUsed := s.nBitsUsed + 1 }).bind
              fun (left, s) =>
                if pos * 2 + 1 < calcTreeWidth t.nTransactions height then
                  (traverseAndExtractAt height (pos * 2 + 1) s).map fun (right, s) =>
                    (pairHash Hash left right, s)
                else some (pairHash Hash left left, s)
          else useHashAt t false { s with nBitsUsed := s.nBitsUsed + 1 }

/-- The tests after the walk, on what it has left behind. -/
def concluded (hashMerkleRoot : Uint256) (fBad : Bool) (nBitsUsed nHashUsed : ℕ) : Uint256 :=
  if fBad then 0
  else if (nBitsUsed + 7) / 8 ≠ (t.vBits.length + 7) / 8 then 0
  else if nHashUsed ≠ t.vHash.length then 0
  else hashMerkleRoot

/-- ExtractMatches with its accesses. -/
def extractMatchesAt : Option (Uint256 × List Uint256) :=
  if t.nTransactions.toNat = 0 then some (0, [])
  else if t.nTransactions.toNat > MAX_BLOCK_SIZE / 60 then some (0, [])
  else if t.vHash.length > t.nTransactions.toNat then some (0, [])
  else if t.vBits.length < t.vHash.length then some (0, [])
  else
    (traverseAndExtractAt Hash t (treeHeight t.nTransactions) 0 ⟨t.fBad, 0, 0, []⟩).map
      fun (hashMerkleRoot, s) =>
        (concluded t hashMerkleRoot s.fBad s.nBitsUsed.toNat s.nHashUsed.toNat, s.vMatch)

/-- The cursors that stand at the given positions. -/
def Cursors.at (s : Extraction) : Cursors :=
  ⟨s.fBad, BitVec.ofNat 32 s.nBitsUsed, BitVec.ofNat 32 s.nHashUsed, s.vMatch⟩

/-- Both positions are at least `n` steps away from where an unsigned int wraps. -/
def Room (s : Extraction) (n : ℕ) : Prop :=
  s.nBitsUsed + n < 2 ^ 32 ∧ s.nHashUsed + n < 2 ^ 32

variable {Hash t}

theorem extractMatches_concluded (h₀ : t.nTransactions.toNat ≠ 0)
    (h₁ : t.nTransactions.toNat ≤ MAX_BLOCK_SIZE / 60)
    (h₂ : t.vHash.length ≤ t.nTransactions.toNat) (h₃ : t.vHash.length ≤ t.vBits.length) :
    extractMatches Hash t =
      let r := traverseAndExtract Hash t (treeHeight t.nTransactions) 0 ⟨t.fBad, 0, 0, []⟩
      (concluded t r.1 r.2.fBad r.2.nBitsUsed r.2.nHashUsed, r.2.vMatch) := by
  unfold extractMatches concluded
  rw [if_neg h₀, if_neg (by omega), if_neg (by omega), if_neg (by omega)]
  dsimp only
  split_ifs <;> rfl

theorem useHash_moves (fMatched : Bool) (s : Extraction) :
    (useHash t fMatched s).2.nBitsUsed = s.nBitsUsed ∧
      (useHash t fMatched s).2.nHashUsed ≤ s.nHashUsed + 1 := by
  unfold useHash
  split
  · exact ⟨rfl, Nat.le_succ _⟩
  · exact ⟨rfl, le_refl _⟩

theorem useHashAt_eq (fMatched : Bool) {s : Extraction} (hroom : Room s 1) :
    useHashAt t fMatched (Cursors.at s) =
      some ((useHash t fMatched s).1, Cursors.at (useHash t fMatched s).2) := by
  obtain ⟨-, hhashes⟩ := hroom
  have hcursor : (BitVec.ofNat 32 s.nHashUsed).toNat = s.nHashUsed := by
    rw [BitVec.toNat_ofNat]
    omega
  unfold useHashAt useHash
  rw [show (Cursors.at s).nHashUsed.toNat = s.nHashUsed from hcursor]
  by_cases hend : t.vHash.length ≤ s.nHashUsed
  · rw [if_pos hend, List.getElem?_eq_none hend]
    rfl
  · rw [if_neg hend, List.getElem?_eq_getElem (by omega)]
    simp [Cursors.at, BitVec.ofNat_add]

variable (Hash) in
/-- The walk from a node of height `k` moves each cursor by fewer than `2 ^ (k + 1)`. -/
theorem traverseAndExtract_moves (k p : ℕ) (s : Extraction) :
    (traverseAndExtract Hash t k p s).2.nBitsUsed < s.nBitsUsed + 2 ^ (k + 1) ∧
      (traverseAndExtract Hash t k p s).2.nHashUsed < s.nHashUsed + 2 ^ (k + 1) := by
  induction k generalizing p s with
  | zero =>
    unfold traverseAndExtract
    split
    · constructor <;> dsimp only <;> omega
    · next fParentOfMatch _ =>
      have hmoves := useHash_moves (t := t) fParentOfMatch { s with nBitsUsed := s.nBitsUsed + 1 }
      dsimp only at hmoves
      omega
  | succ k ih =>
    have hpow : 2 ^ (k + 1 + 1) = 2 ^ (k + 1) + 2 ^ (k + 1) := by ring
    have hpos : 0 < 2 ^ (k + 1) := Nat.two_pow_pos (k + 1)
    unfold traverseAndExtract
    split
    · constructor <;> dsimp only <;> omega
    · have hmoves := useHash_moves (t := t) false { s with nBitsUsed := s.nBitsUsed + 1 }
      dsimp only at hmoves
      omega
    · dsimp only
      have hfirst := ih (p * 2) { s with nBitsUsed := s.nBitsUsed + 1 }
      dsimp only at hfirst
      split_ifs with hright
      · have hsecond := ih (p * 2 + 1)
          (traverseAndExtract Hash t k (p * 2) { s with nBitsUsed := s.nBitsUsed + 1 }).2
        dsimp only
        omega
      · dsimp only
        omega

/-- No access of the walk is out of bounds, and no cursor wraps. -/
theorem traverseAndExtractAt_eq (k p : ℕ) {s : Extraction} (hroom : Room s (2 ^ (k + 1))) :
    traverseAndExtractAt Hash t k p (Cursors.at s) =
      some ((traverseAndExtract Hash t k p s).1,
        Cursors.at (traverseAndExtract Hash t k p s).2) := by
  induction k generalizing p s with
  | zero =>
    obtain ⟨hbits, hhashes⟩ := hroom
    have hcursor : (BitVec.ofNat 32 s.nBitsUsed).toNat = s.nBitsUsed := by
      rw [BitVec.toNat_ofNat]
      omega
    unfold traverseAndExtractAt traverseAndExtract
    rw [show (Cursors.at s).nBitsUsed.toNat = s.nBitsUsed from hcursor]
    by_cases hend : t.vBits.length ≤ s.nBitsUsed
    · rw [if_pos hend, List.getElem?_eq_none hend]
      rfl
    · rw [if_neg hend, List.getElem?_eq_getElem (by omega), Option.bind_some]
      have hnext : ({ Cursors.at s with nBitsUsed := (Cursors.at s).nBitsUsed + 1 } : Cursors) =
          Cursors.at { s with nBitsUsed := s.nBitsUsed + 1 } := by
        simp [Cursors.at, BitVec.ofNat_add]
      rw [hnext]
      apply useHashAt_eq
      exact ⟨by dsimp only; omega, by dsimp only; omega⟩
  | succ k ih =>
    obtain ⟨hbits, hhashes⟩ := hroom
    have hpow : 2 ^ (k + 1 + 1) = 2 ^ (k + 1) + 2 ^ (k + 1) := by ring
    have hpos : 2 ≤ 2 ^ (k + 1) := by
      have hone : 0 < 2 ^ k := Nat.two_pow_pos k
      have htwo : 2 ^ (k + 1) = 2 * 2 ^ k := by ring
      omega
    have hcursor : (BitVec.ofNat 32 s.nBitsUsed).toNat = s.nBitsUsed := by
      rw [BitVec.toNat_ofNat]
      omega
    have hnext : ({ Cursors.at s with nBitsUsed := (Cursors.at s).nBitsUsed + 1 } : Cursors) =
        Cursors.at { s with nBitsUsed := s.nBitsUsed + 1 } := by
      simp [Cursors.at, BitVec.ofNat_add]
    unfold traverseAndExtractAt traverseAndExtract
    rw [show (Cursors.at s).nBitsUsed.toNat = s.nBitsUsed from hcursor]
    by_cases hend : t.vBits.length ≤ s.nBitsUsed
    · rw [if_pos hend, List.getElem?_eq_none hend]
      rfl
    · rw [if_neg hend, List.getElem?_eq_getElem (by omega), Option.bind_some, hnext]
      cases hbit : t.vBits[s.nBitsUsed] with
      | false =>
        rw [if_neg Bool.false_ne_true]
        apply useHashAt_eq
        exact ⟨by dsimp only; omega, by dsimp only; omega⟩
      | true =>
        rw [if_pos rfl]
        obtain ⟨hb, hh⟩ := traverseAndExtract_moves Hash (t := t) k (p * 2)
          { s with nBitsUsed := s.nBitsUsed + 1 }
        dsimp only at hb hh
        rw [ih _ ⟨by dsimp only; omega, by dsimp only; omega⟩, Option.bind_some]
        dsimp only
        split_ifs with hright
        · rw [ih _ ⟨by omega, by omega⟩, Option.map_some]
        · rfl

variable (Hash t) in
theorem extractMatchesAt_eq : extractMatchesAt Hash t = some (extractMatches Hash t) := by
  by_cases h₀ : t.nTransactions.toNat = 0
  · unfold extractMatchesAt extractMatches
    rw [if_pos h₀, if_pos h₀]
  by_cases h₁ : t.nTransactions.toNat > MAX_BLOCK_SIZE / 60
  · unfold extractMatchesAt extractMatches
    rw [if_neg h₀, if_neg h₀, if_pos h₁, if_pos h₁]
  by_cases h₂ : t.vHash.length > t.nTransactions.toNat
  · unfold extractMatchesAt extractMatches
    rw [if_neg h₀, if_neg h₀, if_neg h₁, if_neg h₁, if_pos h₂, if_pos h₂]
  by_cases h₃ : t.vBits.length < t.vHash.length
  · unfold extractMatchesAt extractMatches
    rw [if_neg h₀, if_neg h₀, if_neg h₁, if_neg h₁, if_neg h₂, if_neg h₂, if_pos h₃, if_pos h₃]
  rw [extractMatches_concluded h₀ (by omega) (by omega) (by omega)]
  unfold extractMatchesAt
  rw [if_neg h₀, if_neg h₁, if_neg h₂, if_neg h₃]
  set k := treeHeight t.nTransactions with hk
  have hheight : k ≤ 15 := by
    rw [hk, treeHeight_eq (by omega)]
    exact height_le (by omega)
  have hpow : 2 ^ (k + 1) ≤ 2 ^ 16 := Nat.pow_le_pow_right (by omega) (by omega)
  obtain ⟨hbits, hhashes⟩ := traverseAndExtract_moves Hash (t := t) k 0 ⟨t.fBad, 0, 0, []⟩
  dsimp only at hbits hhashes
  have hroom : Room ⟨t.fBad, 0, 0, []⟩ (2 ^ (k + 1)) := by
    constructor <;> dsimp only <;> omega
  have hwalk := @traverseAndExtractAt_eq Hash t k 0 _ hroom
  rw [show (⟨t.fBad, 0, 0, []⟩ : Cursors) = Cursors.at ⟨t.fBad, 0, 0, []⟩ from rfl, hwalk]
  have hbitsAt : ∀ n, n < 2 ^ 32 → (BitVec.ofNat 32 n).toNat = n := by
    intro n hn
    rw [BitVec.toNat_ofNat]
    omega
  rw [Option.map_some]
  dsimp only [Cursors.at]
  rw [hbitsAt _ (by omega), hbitsAt _ (by omega)]

end Accesses

section Soundness

variable (Hash : List Byte → Uint256) (t : CPartialMerkleTree)

/-- The pairs that the walk from a node hashes. -/
def walkPairs : ℕ → ℕ → Extraction → List (Uint256 × Uint256)
  | 0, _, _ => []
  | height + 1, pos, s =>
      match t.vBits[s.nBitsUsed]? with
      | some true =>
          let s := { s with nBitsUsed := s.nBitsUsed + 1 }
          let left := traverseAndExtract Hash t height (pos * 2) s
          if pos * 2 + 1 < calcTreeWidth t.nTransactions height then
            let right := traverseAndExtract Hash t height (pos * 2 + 1) left.2
            (left.1, right.1) ::
              (walkPairs height (pos * 2) s ++ walkPairs height (pos * 2 + 1) left.2)
          else (left.1, left.1) :: walkPairs height (pos * 2) s
      | _ => []

/-- The pair hash is injective between the pairs of a block's tree and those that
ExtractMatches hashes. -/
def PairsApart (vTxid : List Uint256) : Prop :=
  ∀ x ∈ joined (pairHash Hash) (leafOf vTxid) vTxid.length,
    ∀ y ∈ walkPairs Hash t (treeHeight t.nTransactions) 0 ⟨t.fBad, 0, 0, []⟩,
      pairHash Hash x.1 x.2 = pairHash Hash y.1 y.2 → x = y

instance (vTxid : List Uint256) : Decidable (PairsApart Hash t vTxid) :=
  @List.decidableBAll _ _ (fun _ => List.decidableBAll _ _) _

variable {Hash t} {vTxid : List Uint256}

theorem useHash_vMatch (s : Extraction) (fMatched : Bool) :
    ∃ found, (useHash t fMatched s).2.vMatch = s.vMatch ++ found ∧
      (fMatched = false → found = []) ∧
      (found = [] ∨ found = [(useHash t fMatched s).1]) := by
  unfold useHash
  split
  · exact ⟨[], by simp⟩
  · cases fMatched with
    | false => exact ⟨[], by simp⟩
    | true => exact ⟨_, rfl, by simp, .inr rfl⟩

/-- A walk that ends in a node of the block's tree has found leaves below that node, in
order. -/
theorem traverseAndExtract_sound (hmax : vTxid.length ≤ MAX_BLOCK_SIZE / 60)
    (hcount : t.nTransactions.toNat = vTxid.length) (k p : ℕ) (hk : k ≤ height vTxid.length)
    (hp : p < width vTxid.length k) (s : Extraction)
    (hapart : ∀ x ∈ joined (pairHash Hash) (leafOf vTxid) vTxid.length,
      ∀ y ∈ walkPairs Hash t k p s, pairHash Hash x.1 x.2 = pairHash Hash y.1 y.2 → x = y) :
    ∃ found, (traverseAndExtract Hash t k p s).2.vMatch = s.vMatch ++ found ∧
      ((traverseAndExtract Hash t k p s).1 = treeNode Hash vTxid k p →
        found.Sublist ((covered vTxid.length k p).map (leafOf vTxid))) := by
  have hheight := height_le hmax
  induction k generalizing p s with
  | zero =>
    rw [width_zero] at hp
    unfold traverseAndExtract
    split
    · exact ⟨[], by simp⟩
    · next fParentOfMatch hbit =>
      obtain ⟨found, hfound, -, hone⟩ :=
        useHash_vMatch (t := t) { s with nBitsUsed := s.nBitsUsed + 1 } fParentOfMatch
      refine ⟨found, hfound, fun hnode => ?_⟩
      obtain rfl | rfl := hone
      · exact List.nil_sublist _
      · rw [hnode, covered_zero hp]
        exact List.Sublist.refl _
  | succ k ih =>
    have hleft : p * 2 < width vTxid.length k := by
      have hchild := leftChild_lt hp
      omega
    have hwidth : calcTreeWidth t.nTransactions k = width vTxid.length k := by
      rw [calcTreeWidth_eq (by omega) (by omega), hcount]
    have htree : ∀ x y, treeNode Hash vTxid (k + 1) p = pairHash Hash x y →
        (x, y) ∈ walkPairs Hash t (k + 1) p s →
        treeNode Hash vTxid k (p * 2) = x ∧
          treeNode Hash vTxid k (rightChild vTxid.length k p) = y := by
      intro x y hxy hmem
      have hpair := hapart _ (mem_joined (pairHash Hash) (leafOf vTxid) vTxid.length
        (Nat.lt_of_succ_le hk) hp) (x, y) hmem hxy
      rw [Nat.mul_comm p 2]
      exact Prod.mk.inj hpair
    cases hbit : t.vBits[s.nBitsUsed]? with
    | none =>
      unfold traverseAndExtract
      rw [hbit]
      exact ⟨[], by simp⟩
    | some fParentOfMatch =>
      cases fParentOfMatch with
      | false =>
        obtain ⟨found, hfound, hnone, -⟩ :=
          useHash_vMatch (t := t) { s with nBitsUsed := s.nBitsUsed + 1 } false
        rw [hnone rfl] at hfound
        unfold traverseAndExtract
        rw [hbit]
        exact ⟨[], hfound, fun _ => List.nil_sublist _⟩
      | true =>
        unfold traverseAndExtract
        unfold walkPairs at hapart htree
        rw [hbit] at hapart htree ⊢
        dsimp only at hapart htree ⊢
        rw [hwidth] at hapart htree ⊢
        by_cases hright : p * 2 + 1 < width vTxid.length k
        · rw [if_pos hright] at hapart htree ⊢
          obtain ⟨found₁, hfound₁, hsound₁⟩ := ih (p * 2) (by omega) hleft
            { s with nBitsUsed := s.nBitsUsed + 1 } fun x hx y hy =>
              hapart x hx y (List.mem_cons_of_mem _ (List.mem_append_left _ hy))
          obtain ⟨found₂, hfound₂, hsound₂⟩ := ih (p * 2 + 1) (by omega) hright
            (traverseAndExtract Hash t k (p * 2) { s with nBitsUsed := s.nBitsUsed + 1 }).2
            fun x hx y hy =>
              hapart x hx y (List.mem_cons_of_mem _ (List.mem_append_right _ hy))
          refine ⟨found₁ ++ found₂, by rw [hfound₂, hfound₁, List.append_assoc], fun hnode => ?_⟩
          obtain ⟨hl, hr⟩ := htree _ _ hnode.symm List.mem_cons_self
          have hchild : rightChild vTxid.length k p = p * 2 + 1 := by
            unfold rightChild
            rw [Nat.mul_comm, if_pos hright]
          rw [hchild] at hr
          rw [covered_split hright, List.map_append]
          exact (hsound₁ hl.symm).append (hsound₂ hr.symm)
        · rw [if_neg hright] at hapart htree ⊢
          obtain ⟨found, hfound, hsound⟩ := ih (p * 2) (by omega) hleft
            { s with nBitsUsed := s.nBitsUsed + 1 } fun x hx y hy =>
              hapart x hx y (List.mem_cons_of_mem _ hy)
          refine ⟨found, hfound, fun hnode => ?_⟩
          obtain ⟨hl, -⟩ := htree _ _ hnode.symm List.mem_cons_self
          rw [covered_single hright]
          exact hsound hl.symm

theorem map_leafOf_range (vTxid : List Uint256) :
    (List.range vTxid.length).map (leafOf vTxid) = vTxid := by
  apply List.ext_getElem
  · simp
  · intro i hi₁ hi₂
    rw [List.getElem_map, List.getElem_range, leafOf, List.getD_eq_getElem _ _ hi₂]

/-- The matches that come with a root other than zero. -/
theorem matches_sublist (hcount : t.nTransactions.toNat = vTxid.length)
    (hapart : PairsApart Hash t vTxid) (hzero : idsRoot Hash vTxid ≠ 0)
    (hroot : (extractMatches Hash t).1 = idsRoot Hash vTxid) :
    (extractMatches Hash t).2.Sublist vTxid := by
  by_cases h₀ : t.nTransactions.toNat = 0
  · unfold extractMatches
    rw [if_pos h₀]
    exact List.nil_sublist _
  by_cases h₁ : t.nTransactions.toNat > MAX_BLOCK_SIZE / 60
  · unfold extractMatches
    rw [if_neg h₀, if_pos h₁]
    exact List.nil_sublist _
  by_cases h₂ : t.vHash.length > t.nTransactions.toNat
  · unfold extractMatches
    rw [if_neg h₀, if_neg h₁, if_pos h₂]
    exact List.nil_sublist _
  by_cases h₃ : t.vBits.length < t.vHash.length
  · unfold extractMatches
    rw [if_neg h₀, if_neg h₁, if_neg h₂, if_pos h₃]
    exact List.nil_sublist _
  have hpos : 0 < vTxid.length := by omega
  have hheight : treeHeight t.nTransactions = height vTxid.length := by
    rw [treeHeight_eq (by omega), hcount]
  unfold PairsApart at hapart
  rw [extractMatches_concluded h₀ (by omega) (by omega) (by omega)] at hroot ⊢
  rw [hheight] at hroot hapart ⊢
  dsimp only at hroot ⊢
  obtain ⟨found, hfound, hsound⟩ := traverseAndExtract_sound (by omega) hcount
    (height vTxid.length) 0 (le_refl _) (width_pos _ hpos) ⟨t.fBad, 0, 0, []⟩ hapart
  rw [hfound, List.nil_append]
  rw [covered_root, map_leafOf_range] at hsound
  apply hsound
  rw [idsRoot_eq Hash vTxid (List.length_pos_iff.mp hpos)] at hroot hzero
  unfold concluded at hroot
  -- a failed test gives zero, which is not the root
  split_ifs at hroot
  · exact absurd hroot.symm hzero
  · exact absurd hroot.symm hzero
  · exact absurd hroot.symm hzero
  · exact hroot

/-- The loop that looks for the height stops at the first level of one node. -/
theorem treeHeight_first {nTransactions : BitVec 32}
    (hmax : nTransactions.toNat ≤ MAX_BLOCK_SIZE / 60) :
    calcTreeWidth nTransactions (treeHeight nTransactions) ≤ 1 ∧
      ∀ k < treeHeight nTransactions, 1 < calcTreeWidth nTransactions k := by
  have hle := height_le hmax
  rw [treeHeight_eq hmax]
  constructor
  · rw [calcTreeWidth_eq hmax hle]
    exact (height_le_iff _ _).mp (le_refl _)
  · intro k hk
    have hiff := height_le_iff nTransactions.toNat k
    rw [calcTreeWidth_eq hmax (by omega)]
    omega

end Soundness

/-- On every partial tree the loop for the height ends, the walk makes no access out of
bounds, and where a block has as many transactions, no pair collides and the block's
root, not zero, is returned, the matches are a subsequence of the block's ids. -/
theorem extractMatches_sound (Hash : List Byte → Uint256) (t : CPartialMerkleTree) :
    (t.nTransactions.toNat ≤ MAX_BLOCK_SIZE / 60 →
      calcTreeWidth t.nTransactions (treeHeight t.nTransactions) ≤ 1 ∧
        ∀ k < treeHeight t.nTransactions, 1 < calcTreeWidth t.nTransactions k) ∧
    extractMatchesAt Hash t = some (extractMatches Hash t) ∧
    ∀ vtx : List CTransaction, t.nTransactions.toNat = vtx.length →
      PairsApart Hash t (txids Hash vtx) → buildMerkleTree Hash vtx ≠ 0 →
      (extractMatches Hash t).1 = buildMerkleTree Hash vtx →
      (extractMatches Hash t).2.Sublist (txids Hash vtx) := by
  refine ⟨treeHeight_first, extractMatchesAt_eq Hash t, ?_⟩
  intro vtx hcount hapart hzero hroot
  have hlen : (txids Hash vtx).length = vtx.length := List.length_map _
  rw [buildMerkleTree_idsRoot] at hzero hroot
  exact matches_sublist (by omega) hapart hzero hroot

/-- What a peer sends for three transactions with a match at both ends. -/
def sentTree : CPartialMerkleTree :=
  CPartialMerkleTree.build dummyHash dummyIds [true, false, true]

theorem sentTree_sound :
    (txids dummyHash threeTxs).Nodup ∧
      (extractMatches dummyHash sentTree).1 = buildMerkleTree dummyHash threeTxs ∧
      (extractMatches dummyHash sentTree).2.Sublist (txids dummyHash threeTxs) := by
  have hroot : (extractMatches dummyHash sentTree).1 = buildMerkleTree dummyHash threeTxs := by
    decide
  have hapart : PairsApart dummyHash sentTree (txids dummyHash threeTxs) := by
    decide
  exact ⟨by decide, hroot, (extractMatches_sound dummyHash sentTree).2.2 threeTxs
    (by decide) hapart (by decide) hroot⟩

/-- A hash under which one transaction has the id zero. -/
def zeroHash (bs : List Byte) : Uint256 :=
  if bs = CTransaction.codec.write (dummyTx 1) then 0 else dummyHash bs

/-- One matched leaf, with more bits than the walk uses. -/
def failingTree : CPartialMerkleTree :=
  ⟨1, List.replicate 16 true, (dummyIds.drop 1).take 1, false⟩

/-- A failure returns zero and leaves what the walk has found. Where zero is the root of a
block, that is not told apart from a success. -/
theorem zero_root_unsound :
    failingTree.nTransactions.toNat = [dummyTx 1].length ∧
      (txids zeroHash [dummyTx 1]).Nodup ∧
      PairsApart zeroHash failingTree (txids zeroHash [dummyTx 1]) ∧
      (extractMatches zeroHash failingTree).1 = buildMerkleTree zeroHash [dummyTx 1] ∧
      ¬ (extractMatches zeroHash failingTree).2.Sublist (txids zeroHash [dummyTx 1]) := by
  have hapart : PairsApart zeroHash failingTree (txids zeroHash [dummyTx 1]) := by
    decide
  exact ⟨by decide, by decide, hapart, by decide, by decide⟩

end UmbrellaLtc.MerkleExtraction
