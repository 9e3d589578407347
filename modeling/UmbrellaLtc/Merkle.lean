import UmbrellaLtc.Transaction

/-!
The merkle functions of block.cpp. Two branches of equal length that start at
different hashes and end at the same root, walked with the same index, have a
collision among the pairs they hash.
-/

namespace UmbrellaLtc.Merkle

open Codec Transaction

variable (Hash : List Byte → Uint256)

/-- The 64 bytes that `Hash(BEGIN(left), END(left), BEGIN(right), END(right))` reads. -/
def pairBytes (left right : Uint256) : List Byte := uint256Bytes left ++ uint256Bytes right

def pairHash (left right : Uint256) : Uint256 := Hash (pairBytes left right)

theorem pairBytes_inj {a b c d : Uint256} (h : pairBytes a b = pairBytes c d) :
    a = c ∧ b = d := by
  have hlen : (uint256Bytes a).length = (uint256Bytes c).length := by
    rw [uint256Bytes_length, uint256Bytes_length]
  obtain ⟨hleft, hright⟩ := List.append_inj h hlen
  exact ⟨uint256Bytes_inj hleft, uint256Bytes_inj hright⟩

/-- The pass of BuildMerkleTree's inner loop over the `nSize` hashes from `j` on. -/
def merkleLevel (tree : List Uint256) (j nSize : ℕ) : List Uint256 :=
  (List.range ((nSize + 1) / 2)).map fun k =>
    let i := 2 * k
    let i2 := min (i + 1) (nSize - 1)
    pairHash Hash (tree.getD (j + i) 0) (tree.getD (j + i2) 0)

/-- The outer loop. The size halves each time, so `nSize` is fuel enough. -/
def merkleLevels : ℕ → List Uint256 → ℕ → ℕ → List Uint256
  | 0, tree, _, _ => tree
  | fuel + 1, tree, j, nSize =>
      if nSize > 1 then
        merkleLevels fuel (tree ++ merkleLevel Hash tree j nSize) (j + nSize) ((nSize + 1) / 2)
      else tree

/-- The vector vMerkleTree after CBlock::BuildMerkleTree. -/
def merkleTree (vtx : List CTransaction) : List Uint256 :=
  merkleLevels Hash vtx.length (vtx.map (CTransaction.getHash Hash)) 0 vtx.length

def buildMerkleTree (vtx : List CTransaction) : Uint256 :=
  (merkleTree Hash vtx).getLast?.getD 0

/-- What is hashed at one level, with the sides chosen by the low bit. -/
def levelBytes (hash otherside : Uint256) (nIndex : BitVec 32) : List Byte :=
  if nIndex &&& 1 ≠ 0 then pairBytes otherside hash else pairBytes hash otherside

/-- The loop of CBlock::CheckMerkleBranch. The index is an `int`, so the shift
keeps its sign. -/
def foldBranch (hash : Uint256) : List Uint256 → BitVec 32 → Uint256
  | [], _ => hash
  | otherside :: branch, nIndex =>
      foldBranch (Hash (levelBytes hash otherside nIndex)) branch (nIndex.sshiftRight 1)

/-- CBlock::CheckMerkleBranch; the index -1 gives the zero hash. -/
def checkMerkleBranch (hash : Uint256) (vMerkleBranch : List Uint256) (nIndex : BitVec 32) :
    Uint256 :=
  if nIndex = BitVec.allOnes 32 then 0 else foldBranch Hash hash vMerkleBranch nIndex

/-- The byte strings that the loop hashes, from the leaf up. -/
def branchBytes (hash : Uint256) : List Uint256 → BitVec 32 → List (List Byte)
  | [], _ => []
  | otherside :: branch, nIndex =>
      levelBytes hash otherside nIndex ::
        branchBytes (Hash (levelBytes hash otherside nIndex)) branch (nIndex.sshiftRight 1)

theorem levelBytes_inj {h1 h2 o1 o2 : Uint256} {nIndex : BitVec 32}
    (h : levelBytes h1 o1 nIndex = levelBytes h2 o2 nIndex) : h1 = h2 := by
  unfold levelBytes at h
  split_ifs at h with hbit
  · exact (pairBytes_inj h).2
  · exact (pairBytes_inj h).1

/-- Branches of one length, walked with one index to one root, start at one hash,
unless two of the strings they hash collide. -/
theorem foldBranch_inj (b1 b2 : List Uint256) (h1 h2 : Uint256) (nIndex : BitVec 32)
    (hlen : b1.length = b2.length)
    (hinj : ∀ x ∈ branchBytes Hash h1 b1 nIndex, ∀ y ∈ branchBytes Hash h2 b2 nIndex,
      Hash x = Hash y → x = y)
    (hroot : foldBranch Hash h1 b1 nIndex = foldBranch Hash h2 b2 nIndex) : h1 = h2 := by
  induction b1 generalizing b2 h1 h2 nIndex with
  | nil =>
    cases b2 with
    | nil => exact hroot
    | cons o2 b2 => simp at hlen
  | cons o1 b1 ih =>
    cases b2 with
    | nil => simp at hlen
    | cons o2 b2 =>
      -- the next level's hashes agree first, then the strings under them
      have hnext := ih b2 _ _ (nIndex.sshiftRight 1) (by simpa using hlen)
        (fun x hx y hy => hinj x (List.mem_cons_of_mem _ hx) y (List.mem_cons_of_mem _ hy)) hroot
      have hbytes := hinj _ List.mem_cons_self _ List.mem_cons_self hnext
      exact levelBytes_inj hbytes

end UmbrellaLtc.Merkle
