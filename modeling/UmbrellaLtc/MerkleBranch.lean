import UmbrellaLtc.HonestMining

/-!
BuildMerkleTree and GetMerkleBranch with the arithmetic of their `int` indices and the reads of
vMerkleTree checked. As long as the tree has fewer entries than there are ints, no check fails
and the branch leads to the root; that is so up to 2^30 transactions, and no further.
-/

namespace UmbrellaLtc.MerkleBranch

open Codec Transaction Merkle MergedMining HashTree MerkleRoot HonestMining

/-- The sum of two ints that are not negative; none where it is no int. -/
def addInt (a b : ℕ) : Option ℕ := if a + b < 2 ^ 31 then some (a + b) else none

/-- The read `vMerkleTree[j+i]`. -/
def readTree (vMerkleTree : List Uint256) (j i : ℕ) : Option Uint256 :=
  (addInt j i).bind fun index => vMerkleTree[index]?

variable (Hash : List Byte → Uint256)

/-- The pass of BuildMerkleTree's inner loop. -/
def merkleLevelInt (tree : List Uint256) (j nSize : ℕ) : Option (List Uint256) :=
  (List.range ((nSize + 1) / 2)).mapM fun k => do
    let i := 2 * k
    let i2 := min (i + 1) (nSize - 1)
    let left ← readTree tree j i
    let right ← readTree tree j i2
    pure (pairHash Hash left right)

/-- The outer loop. Where `nSize + 1` is no int, the offset is none at the next level. -/
def merkleLevelsInt : ℕ → List Uint256 → ℕ → ℕ → Option (List Uint256)
  | 0, tree, _, _ => some tree
  | fuel + 1, tree, j, nSize =>
      if nSize > 1 then do
        let next ← merkleLevelInt Hash tree j nSize
        let j ← addInt j nSize
        merkleLevelsInt fuel (tree ++ next) j ((nSize + 1) / 2)
      else some tree

def merkleTreeInt (vtx : List CTransaction) : Option (List Uint256) :=
  merkleLevelsInt Hash vtx.length (vtx.map (CTransaction.getHash Hash)) 0 vtx.length

def buildMerkleTreeInt (vtx : List CTransaction) : Option Uint256 :=
  (merkleTreeInt Hash vtx).map fun tree => tree.getLast?.getD 0

/-- The loop of GetMerkleBranch. -/
def branchLoopInt (vMerkleTree : List Uint256) : ℕ → ℕ → ℕ → ℕ → Option (List Uint256)
  | 0, _, _, _ => some []
  | fuel + 1, nSize, j, nIndex =>
      if nSize > 1 then do
        let i := min (nIndex ^^^ 1) (nSize - 1)
        let otherside ← readTree vMerkleTree j i
        let j ← addInt j nSize
        let rest ← branchLoopInt vMerkleTree fuel ((nSize + 1) / 2) j (nIndex / 2)
        pure (otherside :: rest)
      else some []

def getMerkleBranchInt (vtx : List CTransaction) (nIndex : ℕ) : Option (List Uint256) := do
  let tree ← merkleTreeInt Hash vtx
  branchLoopInt tree vtx.length vtx.length 0 nIndex

theorem addInt_eq {a b : ℕ} (h : a + b < 2 ^ 31) : addInt a b = some (a + b) := if_pos h

theorem mapM_eq_some {α β : Type} {f : α → Option β} {g : α → β} {l : List α}
    (h : ∀ a ∈ l, f a = some (g a)) : l.mapM f = some (l.map g) := by
  induction l with
  | nil => rfl
  | cons a l ih =>
    rw [List.mapM_cons, h a List.mem_cons_self, ih fun b hb => h b (List.mem_cons_of_mem _ hb)]
    rfl

section Levels

variable (leaf : ℕ → Uint256) (n : ℕ)

theorem readTree_level (done rest : List Uint256) {k p : ℕ} (hp : p < width n k)
    (hint : done.length + width n k ≤ 2 ^ 31) :
    readTree (done ++ (level (pairHash Hash) leaf n k ++ rest)) done.length p =
      some (node (pairHash Hash) leaf n k p) := by
  rw [readTree, addInt_eq (by omega), Option.bind_some, List.getElem?_append_right (by omega),
    Nat.add_sub_cancel_left, List.getElem?_append_left (by rwa [level_length]),
    level_getElem? _ _ _ _ _ hp]

/-- A pass whose offsets are ints makes the next level. -/
theorem merkleLevelInt_eq (done : List Uint256) (k : ℕ)
    (hint : done.length + width n k ≤ 2 ^ 31) :
    merkleLevelInt Hash (done ++ level (pairHash Hash) leaf n k) done.length (width n k) =
      some (level (pairHash Hash) leaf n (k + 1)) := by
  have hread : ∀ p < width n k,
      readTree (done ++ level (pairHash Hash) leaf n k) done.length p =
        some (node (pairHash Hash) leaf n k p) := by
    intro p hp
    have h := readTree_level Hash leaf n done [] hp hint
    rwa [List.append_nil] at h
  unfold merkleLevelInt
  rw [← width_succ]
  refine mapM_eq_some fun p hp => ?_
  have hlt : p < width n (k + 1) := List.mem_range.mp hp
  have hright : min (2 * p + 1) (width n k - 1) = rightChild n k p := by
    have hleft := leftChild_lt hlt
    unfold rightChild
    split_ifs with hlast
    · omega
    · omega
  dsimp only
  rw [hright, hread _ (leftChild_lt hlt), hread _ (rightChild_lt hlt)]
  rfl

theorem levelsFrom_length_pos (hn : 0 < n) (k j : ℕ) :
    0 < (levelsFrom Hash leaf n k j).length := by
  have hwidth := width_pos k hn
  cases j with
  | zero => rwa [levelsFrom, level_length]
  | succ j =>
    rw [levelsFrom, List.length_append, level_length]
    omega

theorem one_lt_width {j k : ℕ} (hk : k + (j + 1) = height n) : 1 < width n k := by
  by_contra hone
  have hle := (height_le_iff n k).mpr (Nat.le_of_not_lt hone)
  omega

/-- Each level has at most half as many nodes as a power of two above the one below it. -/
theorem levelsFrom_length_lt (j k m : ℕ) (hk : k + j = height n) (hwidth : width n k ≤ 2 ^ m) :
    (levelsFrom Hash leaf n k j).length < 2 ^ (m + 1) := by
  induction j generalizing k m with
  | zero =>
    rw [levelsFrom, level_length, pow_succ]
    have hpos : 0 < 2 ^ m := by positivity
    omega
  | succ j ih =>
    have hmany := one_lt_width n hk
    cases m with
    | zero => omega
    | succ m =>
      have hpow : 2 ^ (m + 1) = 2 * 2 ^ m := by ring
      have hrest := ih (k + 1) m (by omega) (by rw [width_succ]; omega)
      rw [levelsFrom, List.length_append, level_length, pow_succ]
      omega

theorem merkleLevelsInt_eq (hn : 0 < n) (j fuel : ℕ) (done : List Uint256) (k : ℕ)
    (hk : k + j = height n) (hfuel : width n k ≤ fuel)
    (hint : done.length + (levelsFrom Hash leaf n k j).length ≤ 2 ^ 31) :
    merkleLevelsInt Hash fuel (done ++ level (pairHash Hash) leaf n k) done.length (width n k) =
      some (done ++ levelsFrom Hash leaf n k j) := by
  induction j generalizing fuel done k with
  | zero =>
    obtain rfl : k = height n := by omega
    cases fuel with
    | zero => rfl
    | succ fuel => rw [merkleLevelsInt, width_height hn, if_neg (by omega), levelsFrom]
  | succ j ih =>
    have hmany := one_lt_width n hk
    cases fuel with
    | zero => omega
    | succ fuel =>
      have hnext := width_succ n k
      have hlen : (done ++ level (pairHash Hash) leaf n k).length = done.length + width n k := by
        rw [List.length_append, level_length]
      have hpos := levelsFrom_length_pos Hash leaf n hn (k + 1) j
      rw [levelsFrom, List.length_append, level_length] at hint
      have hrest := ih fuel (done ++ level (pairHash Hash) leaf n k) (k + 1) (by omega) (by omega)
        (by omega)
      rw [merkleLevelsInt, if_pos hmany, merkleLevelInt_eq Hash leaf n done k (by omega),
        addInt_eq (by omega), ← width_succ, levelsFrom, ← List.append_assoc, ← hrest, hlen]
      rfl

/-- The reads of GetMerkleBranch are in bounds and collect the siblings. -/
theorem branchLoopInt_eq (hn : 0 < n) (j fuel : ℕ) (done : List Uint256) (k p : ℕ)
    (hk : k + j = height n) (hfuel : width n k ≤ fuel) (hp : p < width n k)
    (hint : done.length + (levelsFrom Hash leaf n k j).length ≤ 2 ^ 31) :
    branchLoopInt (done ++ levelsFrom Hash leaf n k j) fuel (width n k) done.length p =
      some (branch (pairHash Hash) leaf n j k p) := by
  induction j generalizing fuel done k p with
  | zero =>
    obtain rfl : k = height n := by omega
    cases fuel with
    | zero => rfl
    | succ fuel => rw [branchLoopInt, width_height hn, if_neg (by omega), branch]
  | succ j ih =>
    have hmany := one_lt_width n hk
    cases fuel with
    | zero => omega
    | succ fuel =>
      have hnext := width_succ n k
      have hlen : (done ++ level (pairHash Hash) leaf n k).length = done.length + width n k := by
        rw [List.length_append, level_length]
      have hpos := levelsFrom_length_pos Hash leaf n hn (k + 1) j
      rw [levelsFrom, List.length_append, level_length] at hint
      have hread := readTree_level Hash leaf n done (levelsFrom Hash leaf n (k + 1) j)
        (sibling_lt n hp) (by omega)
      have hrest := ih fuel (done ++ level (pairHash Hash) leaf n k) (k + 1) (p / 2) (by omega)
        (by omega) (by omega) (by omega)
      rw [List.append_assoc, hlen] at hrest
      rw [branchLoopInt, if_pos hmany]
      dsimp only
      rw [xor_one_sibling n hp, levelsFrom, hread, addInt_eq (by omega), ← width_succ]
      dsimp only [bind, Option.bind]
      rw [hrest]
      rfl

end Levels

section Blocks

variable (vtx : List CTransaction)

theorem levelsFrom_length_le (hsize : vtx.length ≤ 2 ^ 30) (leaf : ℕ → Uint256) :
    (levelsFrom Hash leaf vtx.length 0 (height vtx.length)).length < 2 ^ 31 :=
  levelsFrom_length_lt Hash leaf vtx.length (height vtx.length) 0 30 (Nat.zero_add _)
    (by rwa [width_zero])

theorem merkleTreeInt_eq (hne : vtx ≠ []) (hsize : vtx.length ≤ 2 ^ 30) :
    merkleTreeInt Hash vtx =
      some (levelsFrom Hash (leafOf (txids Hash vtx)) vtx.length 0 (height vtx.length)) := by
  have hpos : 0 < vtx.length := List.length_pos_iff.mpr hne
  have hids : (txids Hash vtx).length = vtx.length := by rw [txids, List.length_map]
  have hlevel := level_zero Hash (txids Hash vtx)
  have hlen := levelsFrom_length_le Hash vtx hsize (leafOf (txids Hash vtx))
  have htree := merkleLevelsInt_eq Hash (leafOf (txids Hash vtx)) vtx.length hpos
    (height vtx.length) vtx.length [] 0 (Nat.zero_add _) (by rw [width_zero])
    (by rw [List.length_nil]; omega)
  rw [hids] at hlevel
  rw [hlevel, width_zero] at htree
  exact htree

/-- Up to 2^30 transactions every int and every read of BuildMerkleTree and GetMerkleBranch is in
range, and the branch of each transaction leads to the root. -/
theorem branch_reaches_root (hsize : vtx.length ≤ 2 ^ 30) (nIndex : ℕ) (tx : CTransaction)
    (htx : vtx[nIndex]? = some tx) :
    ∃ root vMerkleBranch, buildMerkleTreeInt Hash vtx = some root ∧
      getMerkleBranchInt Hash vtx nIndex = some vMerkleBranch ∧
      checkMerkleBranch Hash (tx.getHash Hash) vMerkleBranch (BitVec.ofNat 32 nIndex) = root := by
  obtain ⟨hlt, -⟩ := List.getElem?_eq_some_iff.mp htx
  have hpos : 0 < vtx.length := by omega
  have hne : vtx ≠ [] := List.length_pos_iff.mp hpos
  have htree := merkleTreeInt_eq Hash vtx hne hsize
  have hlen := levelsFrom_length_le Hash vtx hsize (leafOf (txids Hash vtx))
  have hloop := branchLoopInt_eq Hash (leafOf (txids Hash vtx)) vtx.length hpos
    (height vtx.length) vtx.length [] 0 nIndex (Nat.zero_add _) (by rw [width_zero])
    (by rwa [width_zero]) (by rw [List.length_nil]; omega)
  have hbranch : getMerkleBranchInt Hash vtx nIndex = some (getMerkleBranch Hash vtx nIndex) := by
    rw [width_zero, List.nil_append, List.length_nil] at hloop
    rw [getMerkleBranchInt, htree, getMerkleBranch_eq Hash vtx hlt]
    exact hloop
  refine ⟨buildMerkleTree Hash vtx, _, ?_, hbranch,
    checkMerkleBranch_getMerkleBranch Hash vtx tx htx (by omega)⟩
  have hplain := merkleLevels_levelsFrom Hash (leafOf (txids Hash vtx)) vtx.length hpos
    (height vtx.length) vtx.length [] 0 (Nat.zero_add _) (by rw [width_zero])
  have hids : (txids Hash vtx).length = vtx.length := by rw [txids, List.length_map]
  have hlevel := level_zero Hash (txids Hash vtx)
  rw [hids] at hlevel
  rw [hlevel, width_zero] at hplain
  rw [buildMerkleTreeInt, htree, buildMerkleTree]
  exact congrArg (fun tree : List Uint256 => some (tree.getLast?.getD 0)) hplain.symm

end Blocks

theorem branch_reaches_root_three :
    ∃ root vMerkleBranch, buildMerkleTreeInt dummyHash threeTxs = some root ∧
      getMerkleBranchInt dummyHash threeTxs 2 = some vMerkleBranch ∧
      checkMerkleBranch dummyHash ((dummyTx 3).getHash dummyHash) vMerkleBranch
        (BitVec.ofNat 32 2) = root :=
  branch_reaches_root dummyHash threeTxs (by decide) 2 (dummyTx 3) rfl

/-! Larger lists. -/

/-- The offset past `d + 1` levels, each more than half as large as the one below it. -/
theorem offset_lt_of_branchLoopInt (vMerkleTree : List Uint256) (d fuel nSize j nIndex : ℕ)
    (vMerkleBranch : List Uint256)
    (h : branchLoopInt vMerkleTree fuel nSize j nIndex = some vMerkleBranch)
    (hsize : 2 ^ d < nSize) (hfuel : nSize ≤ fuel) : j + 2 ^ (d + 1) + d < 2 ^ 31 := by
  induction d generalizing fuel nSize j nIndex vMerkleBranch with
  | zero =>
    cases fuel with
    | zero => omega
    | succ fuel =>
      rw [branchLoopInt, if_pos (by omega)] at h
      simp only [Option.bind_eq_bind, Option.bind_eq_some_iff, addInt,
        Option.ite_none_right_eq_some] at h
      obtain ⟨_, _, _, ⟨hint, _⟩, _⟩ := h
      omega
  | succ d ih =>
    have hpos : 0 < 2 ^ d := by positivity
    have hpow : 2 ^ (d + 1) = 2 * 2 ^ d := by ring
    have hpow2 : 2 ^ (d + 1 + 1) = 4 * 2 ^ d := by ring
    cases fuel with
    | zero => omega
    | succ fuel =>
      rw [branchLoopInt, if_pos (by omega)] at h
      simp only [Option.bind_eq_bind, Option.bind_eq_some_iff, addInt,
        Option.ite_none_right_eq_some] at h
      obtain ⟨_, _, _, ⟨_, hj⟩, rest, hrest, _⟩ := h
      have hnext := ih fuel _ _ _ rest hrest (by omega) (by omega)
      simp only [Option.some.injEq] at hj
      omega

/-- One transaction more and the offset of a level is no int. -/
theorem branch_undefined :
    ¬ ∀ (Hash : List Byte → Uint256) (vtx : List CTransaction) (nIndex : ℕ) (tx : CTransaction),
      vtx[nIndex]? = some tx → ∃ root vMerkleBranch, buildMerkleTreeInt Hash vtx = some root ∧
        getMerkleBranchInt Hash vtx nIndex = some vMerkleBranch ∧
        checkMerkleBranch Hash (tx.getHash Hash) vMerkleBranch (BitVec.ofNat 32 nIndex) =
          root := by
  intro hall
  have hfirst : (List.replicate (2 ^ 30 + 1) CTransaction.null)[0]? = some CTransaction.null := by
    rw [List.getElem?_replicate, if_pos (by omega)]
  obtain ⟨_, vMerkleBranch, _, hbranch, _⟩ := hall dummyHash _ 0 _ hfirst
  rw [getMerkleBranchInt, Option.bind_eq_bind, Option.bind_eq_some_iff] at hbranch
  obtain ⟨tree, _, hloop⟩ := hbranch
  rw [List.length_replicate] at hloop
  have hlt := offset_lt_of_branchLoopInt tree 30 _ _ _ _ _ hloop (by omega) le_rfl
  omega

end UmbrellaLtc.MerkleBranch
