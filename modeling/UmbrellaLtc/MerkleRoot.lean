import UmbrellaLtc.CheckBlock
import UmbrellaLtc.HashTree
import Mathlib.Data.List.GetD

/-!
The root of CBlock::BuildMerkleTree binds the transaction ids of a block. The
vector vMerkleTree holds the levels of a hash tree one after another, and its
last entry is the root of that tree. Two lists of transactions with one root are
equal or one of them has a transaction twice, which CheckBlock refuses.
-/

namespace UmbrellaLtc.MerkleRoot

open Codec Transaction Merkle CheckBlock Guards HashTree

variable (Hash : List Byte → Uint256)

/-- The transaction ids, in order. -/
def txids (vtx : List CTransaction) : List Uint256 := vtx.map (CTransaction.getHash Hash)

/-- The leaves of the tree over a list of ids. -/
def leafOf (vTxid : List Uint256) (i : ℕ) : Uint256 := vTxid.getD i 0

theorem level_zero (vTxid : List Uint256) :
    level (pairHash Hash) (leafOf vTxid) vTxid.length 0 = vTxid := by
  apply List.ext_getElem
  · rw [level_length, width_zero]
  · intro i hi hlen
    simp [level, node, leafOf, hlen]

section Levels

variable (leaf : ℕ → Uint256) (n : ℕ)

/-- One pass of the inner loop makes the next level. -/
theorem merkleLevel_eq (done : List Uint256) (k : ℕ) :
    merkleLevel Hash (done ++ level (pairHash Hash) leaf n k) done.length (width n k) =
      level (pairHash Hash) leaf n (k + 1) := by
  have hget : ∀ p < width n k,
      (done ++ level (pairHash Hash) leaf n k).getD (done.length + p) 0 =
        node (pairHash Hash) leaf n k p := by
    intro p hp
    rw [List.getD_eq_getElem?_getD, List.getElem?_append_right (by omega), Nat.add_sub_cancel_left,
      level_getElem? _ _ _ _ _ hp]
    rfl
  unfold merkleLevel
  rw [← width_succ]
  refine List.map_congr_left fun p hp => ?_
  have hlt : p < width n (k + 1) := List.mem_range.mp hp
  have hleft := leftChild_lt hlt
  have hright : min (2 * p + 1) (width n k - 1) = rightChild n k p := by
    unfold rightChild
    split_ifs with hlast
    · omega
    · omega
  show pairHash Hash _ _ = pairHash Hash _ _
  rw [hright, hget _ hleft, hget _ (rightChild_lt hlt)]

/-- The outer loop, from a level on, ends with the root. -/
theorem merkleLevels_last (hn : 0 < n) (fuel : ℕ) (done : List Uint256) (k : ℕ)
    (hk : k ≤ height n) (hfuel : width n k ≤ fuel) :
    (merkleLevels Hash fuel (done ++ level (pairHash Hash) leaf n k) done.length
      (width n k)).getLast? = some (root (pairHash Hash) leaf n) := by
  induction fuel generalizing done k with
  | zero =>
    have hpos := width_pos k hn
    omega
  | succ fuel ih =>
    unfold merkleLevels
    split_ifs with hmany
    · have hbelow : ¬ height n ≤ k := by
        rw [height_le_iff]
        omega
      have hnext := width_succ n k
      have hlen : done.length + width n k = (done ++ level (pairHash Hash) leaf n k).length := by
        rw [List.length_append, level_length]
      rw [merkleLevel_eq Hash leaf n done k, ← width_succ, hlen]
      exact ih _ (k + 1) (by omega) (by omega)
    · -- a level of one node is the root's
      have htop : height n ≤ k := (height_le_iff n k).mpr (by omega)
      obtain rfl : k = height n := by omega
      have hlevel : level (pairHash Hash) leaf n (height n) = [root (pairHash Hash) leaf n] := by
        unfold level
        rw [width_height hn]
        rfl
      rw [hlevel, List.getLast?_append_cons]
      rfl

end Levels

/-- The loops of BuildMerkleTree over the ids alone. -/
def idsRoot (vTxid : List Uint256) : Uint256 :=
  (merkleLevels Hash vTxid.length vTxid 0 vTxid.length).getLast?.getD 0

theorem buildMerkleTree_idsRoot (vtx : List CTransaction) :
    buildMerkleTree Hash vtx = idsRoot Hash (txids Hash vtx) := by
  unfold buildMerkleTree merkleTree idsRoot txids
  rw [List.length_map]

theorem idsRoot_eq (vTxid : List Uint256) (hne : vTxid ≠ []) :
    idsRoot Hash vTxid = root (pairHash Hash) (leafOf vTxid) vTxid.length := by
  have hpos : 0 < vTxid.length := List.length_pos_iff.mpr hne
  have hlast := merkleLevels_last Hash (leafOf vTxid) vTxid.length hpos vTxid.length [] 0
    (Nat.zero_le _) (by rw [width_zero])
  rw [level_zero, width_zero] at hlast
  exact congrArg (Option.getD · 0) hlast

theorem buildMerkleTree_eq (vtx : List CTransaction) (hvtx : vtx ≠ []) :
    buildMerkleTree Hash vtx =
      root (pairHash Hash) (leafOf (txids Hash vtx)) vtx.length := by
  have hids : txids Hash vtx ≠ [] := by simpa [txids] using hvtx
  rw [buildMerkleTree_idsRoot, idsRoot_eq Hash _ hids]
  unfold txids
  rw [List.length_map]

/-- The pair hash has no collision among the pairs that the two trees hash, and
gives none of the transaction ids. -/
def TxidsApart (vtx₁ vtx₂ : List CTransaction) : Prop :=
  Apart (pairHash Hash) (leafOf (txids Hash vtx₁)) vtx₁.length
    (leafOf (txids Hash vtx₂)) vtx₂.length

/-- The duplication trick: at a level of odd width, the second tree has the last
node once more. -/
def DuplicatesLast (vtx₁ vtx₂ : List CTransaction) (k : ℕ) : Prop :=
  RepeatsLast (pairHash Hash) (leafOf (txids Hash vtx₁)) vtx₁.length
    (leafOf (txids Hash vtx₂)) vtx₂.length k

theorem leafOf_inj {vTxid : List Uint256} (hnodup : vTxid.Nodup) :
    ∀ i < vTxid.length, ∀ j < vTxid.length, leafOf vTxid i = leafOf vTxid j → i = j := by
  intro i hi j hj heq
  unfold leafOf at heq
  rw [List.getD_eq_getElem _ _ hi, List.getD_eq_getElem _ _ hj] at heq
  exact (List.Nodup.getElem_inj_iff hnodup).mp heq

variable {Hash}

theorem txids_eq_of_root (vtx₁ vtx₂ : List CTransaction) (h₁ : vtx₁ ≠ []) (h₂ : vtx₂ ≠ [])
    (hapart : TxidsApart Hash vtx₁ vtx₂) (hnodup₁ : (txids Hash vtx₁).Nodup)
    (hnodup₂ : (txids Hash vtx₂).Nodup)
    (hroot : buildMerkleTree Hash vtx₁ = buildMerkleTree Hash vtx₂) :
    txids Hash vtx₁ = txids Hash vtx₂ := by
  have hlen : ∀ vtx : List CTransaction, (txids Hash vtx).length = vtx.length := fun vtx =>
    List.length_map _
  rw [buildMerkleTree_eq Hash vtx₁ h₁, buildMerkleTree_eq Hash vtx₂ h₂] at hroot
  have hinj₁ := leafOf_inj hnodup₁
  have hinj₂ := leafOf_inj hnodup₂
  rw [hlen] at hinj₁ hinj₂
  obtain ⟨hcount, hleaves⟩ := Apart.leaves_eq hapart (List.length_pos_iff.mpr h₁)
    (List.length_pos_iff.mpr h₂) hinj₁ hinj₂ hroot
  apply List.ext_getElem
  · rw [hlen, hlen, hcount]
  · intro i hi₁ hi₂
    have hleaf := hleaves i (by rwa [hlen] at hi₁)
    unfold leafOf at hleaf
    rwa [List.getD_eq_getElem _ _ hi₁, List.getD_eq_getElem _ _ hi₂] at hleaf

/-- CheckBlock refuses a block with a transaction twice. -/
theorem checkBlock_duplicate (env : Env) (block : CBlock)
    (hdup : ¬ (txids env.Hash block.vtx).Nodup) (fCheckPOW fCheckMerkleRoot : Bool) :
    checkBlock env block fCheckPOW fCheckMerkleRoot ≠ .ok () := by
  intro hok
  obtain ⟨coinbase, rest, hblock⟩ := checkBlock_ok env block fCheckPOW fCheckMerkleRoot hok
  exact hdup hblock.txids

/-- The duplication trick on a complete level: the transactions under its last
node are appended once more. -/
theorem duplicatesLast_append (Hash : List Byte → Uint256) (vtx : List CTransaction) (k w : ℕ)
    (hodd : w % 2 = 1)
    (hmany : 1 < w) (hlen : vtx.length = w * 2 ^ k) :
    DuplicatesLast Hash vtx (vtx ++ vtx.drop ((w - 1) * 2 ^ k)) k := by
  have hsplit : w * 2 ^ k = (w - 1) * 2 ^ k + 2 ^ k := by
    rw [← Nat.succ_mul, Nat.succ_eq_add_one, Nat.sub_add_cancel (by omega)]
  have hlast : (vtx.drop ((w - 1) * 2 ^ k)).length = 2 ^ k := by
    rw [List.length_drop, hlen, hsplit, Nat.add_sub_cancel_left]
  refine repeatsLast_append hodd hmany hlen (by rw [List.length_append, hlast]) ?_ ?_
  · intro i hi
    unfold leafOf txids
    rw [List.map_append, List.getD_append _ _ _ _ (by rwa [List.length_map])]
  · intro i hi
    unfold leafOf txids
    rw [List.map_append, List.getD_append_right _ _ _ _ (by rw [List.length_map]; omega),
      List.length_map, Nat.add_sub_cancel_left, List.map_drop]
    simp [List.getD_eq_getElem?_getD]

/-- Two lists of transactions without a duplicate and with one root have the same
transaction ids. A list made by the duplication trick has the root of the other,
and CheckBlock refuses one of the two. -/
theorem merkleRoot_binds (env : Env) (block₁ block₂ : CBlock) (h₁ : block₁.vtx ≠ [])
    (h₂ : block₂.vtx ≠ []) (hapart : TxidsApart env.Hash block₁.vtx block₂.vtx) :
    ((txids env.Hash block₁.vtx).Nodup → (txids env.Hash block₂.vtx).Nodup →
        buildMerkleTree env.Hash block₁.vtx = buildMerkleTree env.Hash block₂.vtx →
        txids env.Hash block₁.vtx = txids env.Hash block₂.vtx) ∧
      ∀ k, DuplicatesLast env.Hash block₁.vtx block₂.vtx k →
        buildMerkleTree env.Hash block₁.vtx = buildMerkleTree env.Hash block₂.vtx ∧
        ∃ block ∈ [block₁, block₂], ¬ (txids env.Hash block.vtx).Nodup ∧
          ∀ fCheckPOW fCheckMerkleRoot,
            checkBlock env block fCheckPOW fCheckMerkleRoot ≠ .ok () := by
  refine ⟨txids_eq_of_root _ _ h₁ h₂ hapart, fun k htrick => ?_⟩
  have hroot : buildMerkleTree env.Hash block₁.vtx = buildMerkleTree env.Hash block₂.vtx := by
    rw [buildMerkleTree_eq _ _ h₁, buildMerkleTree_eq _ _ h₂]
    exact (RepeatsLast.root_eq htrick (List.length_pos_iff.mpr h₁)).symm
  refine ⟨hroot, ?_⟩
  by_cases hnodup₁ : (txids env.Hash block₁.vtx).Nodup
  · by_cases hnodup₂ : (txids env.Hash block₂.vtx).Nodup
    · -- equal ids would make the lists equally long
      exfalso
      have hids := txids_eq_of_root _ _ h₁ h₂ hapart hnodup₁ hnodup₂ hroot
      have hlen := congrArg List.length hids
      simp only [txids, List.length_map] at hlen
      exact RepeatsLast.count_ne htrick hlen
    · exact ⟨block₂, by simp, hnodup₂, checkBlock_duplicate env block₂ hnodup₂⟩
  · exact ⟨block₁, by simp, hnodup₁, checkBlock_duplicate env block₁ hnodup₁⟩

/-- Transactions that differ in nLockTime only, as in pmt_tests.cpp. -/
def dummyTx (nLockTime : BitVec 32) : CTransaction := { CTransaction.null with nLockTime }

def dummyIds : List Uint256 :=
  [0x257cbd7bcf77cfa018eb2dc069f7a878a8ed66b256c36089fc4edeb5b6f9d176,
    0x676ccec7964dd1075827ca5999931adab786599d27300227b6a58fa2d7156e1a,
    0x405b74b487da38c111dae3fb6202d5c0f2b78d78257123fcfa25f244172c9751]

def dummyPairs : List Uint256 :=
  [0xe1d5da27a3c71b3d94e0b1c503bc91310cc1623416389d6c292410dfb0b67d81,
    0xfb918fab08750bb5ab8d36431ddbbea3494f9f9eb4b4e5a45e8eb71abb814f2a]

def dummyRoot : Uint256 := 0xa5127c203c2151e2e6259b5335cb6782f09df1ebdd4ba70f666b79c10d41efb5

/-- The double SHA-256 of three transactions and of the pairs above them. -/
def dummyHash (bs : List Byte) : Uint256 :=
  ([(CTransaction.codec.write (dummyTx 1), dummyIds[0]),
    (CTransaction.codec.write (dummyTx 2), dummyIds[1]),
    (CTransaction.codec.write (dummyTx 3), dummyIds[2]),
    (pairBytes dummyIds[0] dummyIds[1], dummyPairs[0]),
    (pairBytes dummyIds[2] dummyIds[2], dummyPairs[1]),
    (pairBytes dummyPairs[0] dummyPairs[1], dummyRoot)].lookup bs).getD 0

def dummyEnv : Env where
  Hash := dummyHash
  powHash _ := 0
  fTestNet := false
  genesisHash := 0
  totalBlocksEstimate := 0
  adjustedTime := 0
  verifyScript _ _ _ _ := false
  fScriptCheckThreads := false

def dummyBlock (vtx : List CTransaction) : CBlock := ⟨.plain ⟨2, 0, dummyRoot, 0, 0, 0⟩, vtx⟩

def threeTxs : List CTransaction := [dummyTx 1, dummyTx 2, dummyTx 3]

/-- Three transactions and the last of them again. -/
theorem merkleRoot_binds_three :
    ¬ (txids dummyHash (threeTxs ++ threeTxs.drop 2)).Nodup ∧
      buildMerkleTree dummyHash threeTxs =
        buildMerkleTree dummyHash (threeTxs ++ threeTxs.drop 2) := by
  have happart : TxidsApart dummyHash threeTxs (threeTxs ++ threeTxs.drop 2) := by
    unfold TxidsApart Apart
    decide +kernel
  have hbinds := merkleRoot_binds dummyEnv (dummyBlock threeTxs)
    (dummyBlock (threeTxs ++ threeTxs.drop 2)) (by decide) (by decide) happart
  have htrick := duplicatesLast_append dummyHash threeTxs 0 3 rfl (by omega) rfl
  exact ⟨by decide +kernel, (hbinds.2 0 htrick).1⟩

end UmbrellaLtc.MerkleRoot
