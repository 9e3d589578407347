import UmbrellaLtc.MerkleRoot
import Mathlib.Data.List.Range

/-!
CPartialMerkleTree of main.cpp and main.h: the part of a block's merkle tree that
leads to the matched transactions. Building it walks the tree and writes a bit for
every node it visits and a hash for every node it stops at; extracting walks the
same nodes and reads them back. On the wire the bits are packed into bytes.
-/

namespace UmbrellaLtc.PartialMerkleTree

open Codec Transaction Merkle CheckBlock HashTree MerkleRoot

structure CPartialMerkleTree where
  nTransactions : BitVec 32
  vBits : List Bool
  vHash : List Uint256
  fBad : Bool
deriving DecidableEq

/-- In unsigned arithmetic. -/
def calcTreeWidth (nTransactions : BitVec 32) (height : ℕ) : ℕ :=
  (nTransactions.toNat + 2 ^ height - 1) % 2 ^ 32 / 2 ^ height

/-- `while (CalcTreeWidth(nHeight) > 1) nHeight++;`. At height 31 the width is at
most one, so 32 rounds are enough. -/
def heightLoop (nTransactions : BitVec 32) : ℕ → ℕ → ℕ
  | 0, nHeight => nHeight
  | fuel + 1, nHeight =>
      if calcTreeWidth nTransactions nHeight > 1 then heightLoop nTransactions fuel (nHeight + 1)
      else nHeight

def treeHeight (nTransactions : BitVec 32) : ℕ := heightLoop nTransactions 32 0

section Build

variable (Hash : List Byte → Uint256) (nTransactions : BitVec 32) (vTxid : List Uint256)
  (vMatch : List Bool)

def calcHash : ℕ → ℕ → Uint256
  | 0, pos => vTxid.getD pos 0
  | height + 1, pos =>
      let left := calcHash height (pos * 2)
      let right :=
        if pos * 2 + 1 < calcTreeWidth nTransactions height then calcHash height (pos * 2 + 1)
        else left
      pairHash Hash left right

/-- The leaves below a node. -/
def covered (n height pos : ℕ) : List ℕ :=
  List.range' (pos * 2 ^ height) (min ((pos + 1) * 2 ^ height) n - pos * 2 ^ height)

/-- The loop that determines fParentOfMatch. -/
def parentOfMatch (height pos : ℕ) : Bool :=
  (covered nTransactions.toNat height pos).any fun p => vMatch.getD p false

/-- CPartialMerkleTree::TraverseAndBuild. -/
def traverseAndBuild : ℕ → ℕ → CPartialMerkleTree → CPartialMerkleTree
  | 0, pos, t =>
      { t with
        vBits := t.vBits ++ [parentOfMatch nTransactions vMatch 0 pos]
        vHash := t.vHash ++ [calcHash Hash nTransactions vTxid 0 pos] }
  | height + 1, pos, t =>
      let fParentOfMatch := parentOfMatch nTransactions vMatch (height + 1) pos
      let t := { t with vBits := t.vBits ++ [fParentOfMatch] }
      if fParentOfMatch then
        let t := traverseAndBuild height (pos * 2) t
        if pos * 2 + 1 < calcTreeWidth nTransactions height then
          traverseAndBuild height (pos * 2 + 1) t
        else t
      else { t with vHash := t.vHash ++ [calcHash Hash nTransactions vTxid (height + 1) pos] }

/-- The constructor from a list of ids and a mask. -/
def CPartialMerkleTree.build : CPartialMerkleTree :=
  let nTransactions := BitVec.ofNat 32 vTxid.length
  traverseAndBuild Hash nTransactions vTxid vMatch (treeHeight nTransactions) 0
    ⟨nTransactions, [], [], false⟩

end Build

section Extract

variable (Hash : List Byte → Uint256) (t : CPartialMerkleTree)

/-- What TraverseAndExtract changes. -/
structure Extraction where
  fBad : Bool
  nBitsUsed : ℕ
  nHashUsed : ℕ
  vMatch : List Uint256
deriving DecidableEq

/-- The stored hash of a node at which the walk stops; a matched leaf is noted. -/
def useHash (fMatched : Bool) (s : Extraction) : Uint256 × Extraction :=
  match t.vHash[s.nHashUsed]? with
  | none => (0, { s with fBad := true })
  | some hash =>
      (hash, { s with
        nHashUsed := s.nHashUsed + 1
        vMatch := if fMatched then s.vMatch ++ [hash] else s.vMatch })

/-- CPartialMerkleTree::TraverseAndExtract. A failure sets fBad and the walk goes on. -/
def traverseAndExtract : ℕ → ℕ → Extraction → Uint256 × Extraction
  | 0, _, s =>
      match t.vBits[s.nBitsUsed]? with
      | none => (0, { s with fBad := true })
      | some fParentOfMatch =>
          useHash t fParentOfMatch { s with nBitsUsed := s.nBitsUsed + 1 }
  | height + 1, pos, s =>
      match t.vBits[s.nBitsUsed]? with
      | none => (0, { s with fBad := true })
      | some false => useHash t false { s with nBitsUsed := s.nBitsUsed + 1 }
      | some true =>
          let (left, s) := traverseAndExtract height (pos * 2)
            { s with nBitsUsed := s.nBitsUsed + 1 }
          if pos * 2 + 1 < calcTreeWidth t.nTransactions height then
            let (right, s) := traverseAndExtract height (pos * 2 + 1) s
            (pairHash Hash left right, s)
          else (pairHash Hash left left, s)

/-- CPartialMerkleTree::ExtractMatches: the root, or zero, and the matched ids. -/
def extractMatches : Uint256 × List Uint256 :=
  if t.nTransactions.toNat = 0 then (0, [])
  else if t.nTransactions.toNat > MAX_BLOCK_SIZE / 60 then (0, [])
  else if t.vHash.length > t.nTransactions.toNat then (0, [])
  else if t.vBits.length < t.vHash.length then (0, [])
  else
    let (hashMerkleRoot, s) :=
      traverseAndExtract Hash t (treeHeight t.nTransactions) 0 ⟨t.fBad, 0, 0, []⟩
    if s.fBad then (0, s.vMatch)
    else if (s.nBitsUsed + 7) / 8 ≠ (t.vBits.length + 7) / 8 then (0, s.vMatch)
    else if s.nHashUsed ≠ t.vHash.length then (0, s.vMatch)
    else (hashMerkleRoot, s.vMatch)

end Extract

section Wire

/-- `vBytes[p / 8] |= vBits[p] << (p % 8)` for every bit, from zero bytes. -/
def packBits (vBits : List Bool) : List Byte :=
  (List.range vBits.length).foldl
    (fun vBytes p => vBytes.modify (p / 8) fun byte =>
      byte ||| (BitVec.ofBool (vBits.getD p false)).setWidth 8 <<< (p % 8))
    (List.replicate ((vBits.length + 7) / 8) 0)

/-- `vBits[p] = (vBytes[p / 8] & (1 << (p % 8))) != 0` for every bit. -/
def unpackBits (vBytes : List Byte) : List Bool :=
  (List.range (vBytes.length * 8)).map fun p => vBytes.getD (p / 8) 0 &&& 1#8 <<< (p % 8) != 0

/-- The fields that READWRITE lists. -/
def wire : Codec (BitVec 32 × List Uint256 × List Byte) :=
  pair uint32 (pair (vector uint256) (vector uchar))

def CPartialMerkleTree.serialize (t : CPartialMerkleTree) : List Byte :=
  wire.write (t.nTransactions, t.vHash, packBits t.vBits)

def CPartialMerkleTree.unserialize (bs : List Byte) : Option (CPartialMerkleTree × List Byte) :=
  (wire.read bs).map fun p => (⟨p.1.1, unpackBits p.1.2.2, p.1.2.1, false⟩, p.2)

end Wire

section Packing

theorem testBit_eq (byte : Byte) (j : ℕ) (hj : j < 8) :
    (byte &&& 1#8 <<< j != 0) = byte.getLsbD j := by
  rw [← BitVec.twoPow_eq, BitVec.and_twoPow]
  by_cases hbit : byte.getLsbD j = true
  · have hne : BitVec.twoPow 8 j ≠ 0 := by
      intro hzero
      have hset := congrArg (·.getLsbD j) hzero
      simp [hj] at hset
    simpa [hbit] using hne
  · simp [hbit]

/-- The bytes after the first `q` rounds of the packing loop. -/
def packed (vBits : List Bool) (q : ℕ) : List Byte :=
  (List.range q).foldl
    (fun vBytes p => vBytes.modify (p / 8) fun byte =>
      byte ||| (BitVec.ofBool (vBits.getD p false)).setWidth 8 <<< (p % 8))
    (List.replicate ((vBits.length + 7) / 8) 0)

theorem packed_succ (vBits : List Bool) (q : ℕ) :
    packed vBits (q + 1) = (packed vBits q).modify (q / 8) fun byte =>
      byte ||| (BitVec.ofBool (vBits.getD q false)).setWidth 8 <<< (q % 8) := by
  unfold packed
  rw [List.range_succ, List.foldl_append]
  rfl

theorem packed_length (vBits : List Bool) (q : ℕ) :
    (packed vBits q).length = (vBits.length + 7) / 8 := by
  induction q with
  | zero => simp [packed]
  | succ q ih => rw [packed_succ, List.length_modify, ih]

/-- One round sets one bit. -/
theorem getLsbD_setBit (byte : Byte) (b : Bool) (r j : ℕ) (hr : r < 8) (hj : j < 8) :
    (byte ||| (BitVec.ofBool b).setWidth 8 <<< r).getLsbD j =
      (byte.getLsbD j || (decide (j = r) && b)) := by
  by_cases hjr : j = r
  · subst hjr
    simp [hj]
  · by_cases hlt : j < r
    · simp [hj, hjr, hlt]
    · have hsub : j - r ≠ 0 := by omega
      simp [hj, hjr, hlt, hsub]

theorem packed_bit (vBits : List Bool) (q i j : ℕ) (hi : i < (vBits.length + 7) / 8)
    (hj : j < 8) :
    ((packed vBits q).getD i 0).getLsbD j =
      (decide (8 * i + j < q) && vBits.getD (8 * i + j) false) := by
  induction q with
  | zero => simp [packed, List.getD_eq_getElem?_getD, hi]
  | succ q ih =>
    have hlen := packed_length vBits q
    rw [List.getD_eq_getElem _ _ (by omega)] at ih
    rw [packed_succ, List.getD_eq_getElem _ _ (by rw [List.length_modify]; omega),
      List.getElem_modify]
    by_cases hsame : q / 8 = i
    · rw [if_pos hsame, getLsbD_setBit _ _ _ _ (Nat.mod_lt _ (by omega)) hj, ih]
      by_cases hbit : j = q % 8
      · have hq : 8 * i + j = q := by omega
        rw [hq]
        simp [hbit]
      · have hiff : 8 * i + j < q + 1 ↔ 8 * i + j < q := by omega
        simp [hbit, hiff]
    · have hiff : 8 * i + j < q + 1 ↔ 8 * i + j < q := by omega
      rw [if_neg hsame, ih]
      simp [hiff]

/-- The bits come back, with zeros up to a whole number of bytes. -/
theorem unpackBits_packBits (vBits : List Bool) :
    unpackBits (packBits vBits) =
      vBits ++ List.replicate ((vBits.length + 7) / 8 * 8 - vBits.length) false := by
  have hpack : packBits vBits = packed vBits vBits.length := rfl
  have hlen := packed_length vBits vBits.length
  rw [hpack]
  unfold unpackBits
  apply List.ext_getElem
  · rw [List.length_map, List.length_range, hlen, List.length_append, List.length_replicate]
    omega
  · intro p hp _
    rw [List.length_map, List.length_range, hlen] at hp
    rw [List.getElem_map, List.getElem_range, testBit_eq _ _ (Nat.mod_lt _ (by omega)),
      packed_bit _ _ _ _ (by omega) (Nat.mod_lt _ (by omega)), Nat.div_add_mod]
    by_cases hbit : p < vBits.length
    · rw [List.getElem_append_left hbit, List.getD_eq_getElem _ _ hbit]
      simp [hbit]
    · rw [List.getElem_append_right (by omega), List.getElem_replicate]
      simp [hbit]

end Packing

section Sizes

variable {nTransactions : BitVec 32}

theorem maxTransactions_eq : MAX_BLOCK_SIZE / 60 = 16666 := rfl

theorem calcTreeWidth_eq (hmax : nTransactions.toNat ≤ MAX_BLOCK_SIZE / 60) {k : ℕ} (hk : k ≤ 15) :
    calcTreeWidth nTransactions k = width nTransactions.toNat k := by
  rw [maxTransactions_eq] at hmax
  have hpow : 2 ^ k ≤ 2 ^ 15 := Nat.pow_le_pow_right (by omega) hk
  have hpos : 0 < 2 ^ k := Nat.two_pow_pos k
  unfold calcTreeWidth width
  rw [Nat.mod_eq_of_lt (by omega)]

theorem height_le {n : ℕ} (hmax : n ≤ MAX_BLOCK_SIZE / 60) : height n ≤ 15 := by
  rw [maxTransactions_eq] at hmax
  rw [height_le_iff, width_le_one_iff]
  omega

theorem heightLoop_eq (hmax : nTransactions.toNat ≤ MAX_BLOCK_SIZE / 60) (fuel k : ℕ)
    (hk : k ≤ height nTransactions.toNat) (hfuel : height nTransactions.toNat < fuel + k) :
    heightLoop nTransactions fuel k = height nTransactions.toNat := by
  have hle := height_le hmax
  induction fuel generalizing k with
  | zero => omega
  | succ fuel ih =>
    have hiff := height_le_iff nTransactions.toNat k
    unfold heightLoop
    rw [calcTreeWidth_eq hmax (by omega)]
    split_ifs with hmany
    · exact ih (k + 1) (by omega) (by omega)
    · omega

theorem treeHeight_eq (hmax : nTransactions.toNat ≤ MAX_BLOCK_SIZE / 60) :
    treeHeight nTransactions = height nTransactions.toNat := by
  have hle := height_le hmax
  exact heightLoop_eq hmax 32 0 (by omega) (by omega)

end Sizes

section Covered

variable {n k p : ℕ}

/-- A node covers its first leaf. -/
theorem covered_length_pos (hp : p < width n k) : 0 < (covered n k p).length := by
  have hlow := (lt_width_iff n k p).mp hp
  have hpos : 0 < 2 ^ k := Nat.two_pow_pos k
  have hnext : (p + 1) * 2 ^ k = p * 2 ^ k + 2 ^ k := by ring
  unfold covered
  rw [List.length_range', hnext]
  omega

theorem covered_zero (hp : p < n) : covered n 0 p = [p] := by
  unfold covered
  have hmin : min ((p + 1) * 2 ^ 0) n - p * 2 ^ 0 = 1 := by omega
  rw [hmin, pow_zero, mul_one]
  rfl

theorem range'_split {a b c n : ℕ} (hab : a ≤ b) (hbc : b ≤ c) (hbn : b ≤ n) :
    List.range' a (min c n - a) = List.range' a (min b n - a) ++ List.range' b (min c n - b) := by
  have hleft : min b n = b := by omega
  have hsum : min c n - a = (b - a) + (min c n - b) := by omega
  have hnext : a + 1 * (b - a) = b := by omega
  rw [hleft, hsum, ← List.range'_append, hnext]

/-- With two children, a node covers what they cover, in order. -/
theorem covered_split (hright : p * 2 + 1 < width n k) :
    covered n (k + 1) p = covered n k (p * 2) ++ covered n k (p * 2 + 1) := by
  have hlow := (lt_width_iff n k (p * 2 + 1)).mp hright
  have hstart : p * 2 ^ (k + 1) = p * 2 * 2 ^ k := by ring
  have hend : (p + 1) * 2 ^ (k + 1) = (p * 2 + 1 + 1) * 2 ^ k := by ring
  unfold covered
  rw [hstart, hend]
  exact range'_split (Nat.mul_le_mul_right _ (by omega)) (Nat.mul_le_mul_right _ (by omega))
    (le_of_lt hlow)

theorem covered_single (hright : ¬ p * 2 + 1 < width n k) :
    covered n (k + 1) p = covered n k (p * 2) := by
  have hlow : n ≤ (p * 2 + 1) * 2 ^ k := by
    rw [lt_width_iff] at hright
    omega
  have hstart : p * 2 ^ (k + 1) = p * 2 * 2 ^ k := by ring
  have hend : (p * 2 + 1) * 2 ^ k ≤ (p + 1) * 2 ^ (k + 1) := by
    have heq : (p + 1) * 2 ^ (k + 1) = (p * 2 + 2) * 2 ^ k := by ring
    rw [heq]
    exact Nat.mul_le_mul_right _ (by omega)
  unfold covered
  rw [hstart, min_eq_right hlow, min_eq_right (le_trans hlow hend)]

/-- The root covers all leaves. -/
theorem covered_root (n : ℕ) : covered n (height n) 0 = List.range n := by
  have hle := (width_le_one_iff n (height n)).mp ((height_le_iff n _).mp (le_refl _))
  have hmin : min ((0 + 1) * 2 ^ height n) n - 0 * 2 ^ height n = n := by omega
  unfold covered
  rw [hmin, zero_mul, List.range_eq_range']

end Covered

section Walk

variable (Hash : List Byte → Uint256) (vTxid : List Uint256) (vMatch : List Bool)

/-- The nodes of the whole tree. -/
def treeNode (k p : ℕ) : Uint256 := node (pairHash Hash) (leafOf vTxid) vTxid.length k p

def matchBelow (k p : ℕ) : Bool :=
  (covered vTxid.length k p).any fun i => vMatch.getD i false

/-- The matched ids among the given leaves. -/
def matchedIn (leaves : List ℕ) : List Uint256 :=
  (leaves.filter fun i => vMatch.getD i false).map (leafOf vTxid)

/-- The bits and the hashes that the walk from a node writes. -/
def emitted : ℕ → ℕ → List Bool × List Uint256
  | 0, p => ([matchBelow vTxid vMatch 0 p], [treeNode Hash vTxid 0 p])
  | k + 1, p =>
      if matchBelow vTxid vMatch (k + 1) p then
        if p * 2 + 1 < width vTxid.length k then
          (true :: (emitted k (p * 2)).1 ++ (emitted k (p * 2 + 1)).1,
            (emitted k (p * 2)).2 ++ (emitted k (p * 2 + 1)).2)
        else (true :: (emitted k (p * 2)).1, (emitted k (p * 2)).2)
      else ([false], [treeNode Hash vTxid (k + 1) p])

variable {Hash vTxid vMatch}

theorem treeNode_both {k p : ℕ} (hright : p * 2 + 1 < width vTxid.length k) :
    treeNode Hash vTxid (k + 1) p =
      pairHash Hash (treeNode Hash vTxid k (p * 2)) (treeNode Hash vTxid k (p * 2 + 1)) := by
  have hchild : rightChild vTxid.length k p = p * 2 + 1 := by
    unfold rightChild
    rw [Nat.mul_comm, if_pos hright]
  show pairHash Hash _ _ = _
  rw [hchild, Nat.mul_comm]
  rfl

theorem treeNode_left {k p : ℕ} (hright : ¬ p * 2 + 1 < width vTxid.length k) :
    treeNode Hash vTxid (k + 1) p =
      pairHash Hash (treeNode Hash vTxid k (p * 2)) (treeNode Hash vTxid k (p * 2)) := by
  have hchild : rightChild vTxid.length k p = p * 2 := by
    unfold rightChild
    rw [Nat.mul_comm, if_neg hright]
  show pairHash Hash _ _ = _
  rw [hchild, Nat.mul_comm]
  rfl

theorem matchedIn_append (l₁ l₂ : List ℕ) :
    matchedIn vTxid vMatch (l₁ ++ l₂) = matchedIn vTxid vMatch l₁ ++ matchedIn vTxid vMatch l₂ := by
  simp [matchedIn]

theorem matchedIn_none {k p : ℕ} (hnone : matchBelow vTxid vMatch k p = false) :
    matchedIn vTxid vMatch (covered vTxid.length k p) = [] := by
  unfold matchBelow at hnone
  unfold matchedIn
  rw [List.filter_eq_nil_iff.mpr (by simpa using hnone), List.map_nil]

variable (Hash vTxid vMatch) in
/-- What is written fits what is covered: no more hashes than bits, at most one for
each leaf, and at most one bit for each leaf and level. -/
theorem emitted_sizes (k p : ℕ) (hp : p < width vTxid.length k) :
    (emitted Hash vTxid vMatch k p).2.length ≤ (emitted Hash vTxid vMatch k p).1.length ∧
      (emitted Hash vTxid vMatch k p).2.length ≤ (covered vTxid.length k p).length ∧
      (emitted Hash vTxid vMatch k p).1.length ≤ (k + 1) * (covered vTxid.length k p).length := by
  induction k generalizing p with
  | zero =>
    rw [width_zero] at hp
    simp [emitted, covered_zero hp]
  | succ k ih =>
    have hcover := covered_length_pos hp
    have hleft : p * 2 < width vTxid.length k := by
      have hchild := leftChild_lt hp
      omega
    obtain ⟨hl₁, hl₂, hl₃⟩ := ih (p * 2) hleft
    unfold emitted
    split_ifs with hmatch hright
    · obtain ⟨hr₁, hr₂, hr₃⟩ := ih (p * 2 + 1) hright
      rw [covered_split hright] at hcover ⊢
      simp only [List.length_append, List.length_cons] at hcover ⊢
      have hsplit : ∀ x y : ℕ, (k + 1 + 1) * (x + y) = (k + 1) * x + (k + 1) * y + (x + y) :=
        fun x y => by ring
      rw [hsplit]
      omega
    · rw [covered_single hright] at hcover ⊢
      simp only [List.length_cons]
      have hsplit : ∀ x : ℕ, (k + 1 + 1) * x = (k + 1) * x + x := fun x => by ring
      rw [hsplit]
      omega
    · have hlong : 1 * 1 ≤ (k + 1 + 1) * (covered vTxid.length (k + 1) p).length :=
        Nat.mul_le_mul (by omega) hcover
      simp only [List.length_singleton]
      omega

/-- The next entry of a stream, and what comes after it. -/
theorem next_of_drop {α : Type} {l rest : List α} {a : α} {i : ℕ} (hdrop : l.drop i = a :: rest) :
    l[i]? = some a ∧ l.drop (i + 1) = rest := by
  have hhead : (l.drop i)[0]? = l[i + 0]? := List.getElem?_drop
  rw [hdrop] at hhead
  refine ⟨hhead.symm, ?_⟩
  rw [← List.drop_drop, hdrop]
  rfl

section Sized

variable (hmax : vTxid.length ≤ MAX_BLOCK_SIZE / 60)

include hmax

theorem toNat_count : (BitVec.ofNat 32 vTxid.length).toNat = vTxid.length := by
  rw [maxTransactions_eq] at hmax
  rw [BitVec.toNat_ofNat, Nat.mod_eq_of_lt (by omega)]

theorem width_count {k : ℕ} (hk : k ≤ 15) :
    calcTreeWidth (BitVec.ofNat 32 vTxid.length) k = width vTxid.length k := by
  have hcount := toNat_count hmax
  rw [calcTreeWidth_eq (by omega) hk, hcount]

theorem calcHash_eq (k p : ℕ) (hk : k ≤ 15) :
    calcHash Hash (BitVec.ofNat 32 vTxid.length) vTxid k p = treeNode Hash vTxid k p := by
  induction k generalizing p with
  | zero => rfl
  | succ k ih =>
    unfold calcHash
    dsimp only
    rw [width_count hmax (by omega), ih _ (by omega)]
    by_cases hright : p * 2 + 1 < width vTxid.length k
    · rw [treeNode_both hright, if_pos hright, ih _ (by omega)]
    · rw [treeNode_left hright, if_neg hright]

theorem traverseAndBuild_eq (k p : ℕ) (hk : k ≤ 15) (t : CPartialMerkleTree) :
    traverseAndBuild Hash (BitVec.ofNat 32 vTxid.length) vTxid vMatch k p t =
      { t with
        vBits := t.vBits ++ (emitted Hash vTxid vMatch k p).1
        vHash := t.vHash ++ (emitted Hash vTxid vMatch k p).2 } := by
  have hparent : ∀ j q, parentOfMatch (BitVec.ofNat 32 vTxid.length) vMatch j q =
      matchBelow vTxid vMatch j q := by
    intro j q
    unfold parentOfMatch matchBelow
    rw [toNat_count hmax]
  induction k generalizing p t with
  | zero =>
    unfold traverseAndBuild emitted
    rw [hparent, calcHash_eq hmax 0 p hk]
  | succ k ih =>
    unfold traverseAndBuild emitted
    rw [hparent, calcHash_eq hmax (k + 1) p hk, width_count hmax (by omega)]
    by_cases hmatch : matchBelow vTxid vMatch (k + 1) p = true
    · by_cases hright : p * 2 + 1 < width vTxid.length k
      · simp only [hmatch, hright, if_true, ih _ (by omega), List.append_assoc, List.cons_append,
          List.nil_append]
      · simp only [hmatch, hright, if_true, if_false, ih _ (by omega), List.append_assoc,
          List.cons_append, List.nil_append]
    · simp only [Bool.not_eq_true] at hmatch
      simp [hmatch]

variable (Hash vMatch) in
/-- Walking back over what the walk from a node wrote gives the node's hash and the
matched ids below it, and uses up exactly what was written. -/
theorem traverseAndExtract_eq (t : CPartialMerkleTree)
    (hcount : t.nTransactions = BitVec.ofNat 32 vTxid.length) (k p : ℕ) (hk : k ≤ 15)
    (hp : p < width vTxid.length k) (s : Extraction) (restBits : List Bool)
    (restHashes : List Uint256)
    (hbits : t.vBits.drop s.nBitsUsed = (emitted Hash vTxid vMatch k p).1 ++ restBits)
    (hhashes : t.vHash.drop s.nHashUsed = (emitted Hash vTxid vMatch k p).2 ++ restHashes) :
    traverseAndExtract Hash t k p s = (treeNode Hash vTxid k p,
      { s with
        nBitsUsed := s.nBitsUsed + (emitted Hash vTxid vMatch k p).1.length
        nHashUsed := s.nHashUsed + (emitted Hash vTxid vMatch k p).2.length
        vMatch := s.vMatch ++ matchedIn vTxid vMatch (covered vTxid.length k p) }) := by
  induction k generalizing p s restBits restHashes with
  | zero =>
    rw [width_zero] at hp
    unfold emitted at hbits hhashes
    obtain ⟨hbit, -⟩ := next_of_drop hbits
    obtain ⟨hhash, -⟩ := next_of_drop hhashes
    unfold traverseAndExtract useHash emitted
    rw [hbit]
    dsimp only
    rw [hhash, covered_zero hp]
    have hone : matchBelow vTxid vMatch 0 p = vMatch.getD p false := by
      unfold matchBelow
      rw [covered_zero hp]
      simp
    rw [hone]
    by_cases hmatch : vMatch.getD p false = true
    · simp only [hmatch, if_true, matchedIn, List.filter_cons, List.filter_nil, List.map_cons,
        List.map_nil, List.length_singleton]
      rfl
    · simp only [Bool.not_eq_true] at hmatch
      simp only [hmatch, matchedIn, List.filter_cons, List.filter_nil, List.map_nil,
        List.length_singleton, Bool.false_eq_true, if_false, List.append_nil]
  | succ k ih =>
    have hleft : p * 2 < width vTxid.length k := by
      have hchild := leftChild_lt hp
      omega
    by_cases hmatch : matchBelow vTxid vMatch (k + 1) p = true
    · by_cases hright : p * 2 + 1 < width vTxid.length k
      · -- both children were visited, the left one first
        simp only [emitted, hmatch, hright, if_true] at hbits hhashes
        rw [List.cons_append, List.cons_append, List.append_assoc] at hbits
        rw [List.append_assoc] at hhashes
        obtain ⟨hbit, hbits⟩ := next_of_drop hbits
        have hfirst := ih (p * 2) (by omega) hleft { s with nBitsUsed := s.nBitsUsed + 1 } _ _
          hbits hhashes
        have hbits₂ := congrArg (List.drop (emitted Hash vTxid vMatch k (p * 2)).1.length) hbits
        rw [List.drop_drop, List.drop_left] at hbits₂
        have hhashes₂ := congrArg (List.drop (emitted Hash vTxid vMatch k (p * 2)).2.length) hhashes
        rw [List.drop_drop, List.drop_left] at hhashes₂
        have hsecond := ih (p * 2 + 1) (by omega) hright
          (s := { s with
            nBitsUsed := s.nBitsUsed + 1 + (emitted Hash vTxid vMatch k (p * 2)).1.length
            nHashUsed := s.nHashUsed + (emitted Hash vTxid vMatch k (p * 2)).2.length
            vMatch := s.vMatch ++ matchedIn vTxid vMatch (covered vTxid.length k (p * 2)) })
          _ _ hbits₂ hhashes₂
        unfold traverseAndExtract
        rw [hbit]
        dsimp only
        rw [hfirst, hcount, width_count hmax (by omega), if_pos hright]
        dsimp only
        rw [hsecond, treeNode_both hright, covered_split hright, matchedIn_append]
        simp only [emitted, hmatch, hright, if_true, List.length_append, List.length_cons,
          List.append_assoc]
        congr 2
        · omega
        · omega
      · simp only [emitted, hmatch, hright, if_true, if_false] at hbits hhashes
        rw [List.cons_append] at hbits
        obtain ⟨hbit, hbits⟩ := next_of_drop hbits
        have hfirst := ih (p * 2) (by omega) hleft { s with nBitsUsed := s.nBitsUsed + 1 } _ _
          hbits hhashes
        unfold traverseAndExtract
        rw [hbit]
        dsimp only
        rw [hfirst, hcount, width_count hmax (by omega), if_neg hright, treeNode_left hright,
          covered_single hright]
        simp only [emitted, hmatch, hright, if_true, if_false, List.length_cons]
        congr 2
        omega
    · simp only [Bool.not_eq_true] at hmatch
      simp only [emitted, hmatch, Bool.false_eq_true, if_false] at hbits hhashes
      obtain ⟨hbit, -⟩ := next_of_drop hbits
      obtain ⟨hhash, -⟩ := next_of_drop hhashes
      unfold traverseAndExtract useHash
      rw [hbit]
      dsimp only
      rw [hhash, matchedIn_none hmatch]
      simp [emitted, hmatch]

end Sized

end Walk

section RoundTrip

variable (Hash : List Byte → Uint256) (vTxid : List Uint256) (vMatch : List Bool)

/-- The ids that the mask selects, in order. -/
def selected : List Uint256 := ((vTxid.zip vMatch).filter Prod.snd).map Prod.fst

variable {Hash vTxid vMatch}

theorem matchedIn_range (hmask : vMatch.length = vTxid.length) :
    matchedIn vTxid vMatch (List.range vTxid.length) = selected vTxid vMatch := by
  have hzip : vTxid.zip vMatch =
      (List.range vTxid.length).map fun i => (leafOf vTxid i, vMatch.getD i false) := by
    apply List.ext_getElem
    · simp [hmask]
    · intro i hi₁ hi₂
      have hi : i < vTxid.length := by simpa using hi₂
      rw [List.getElem_zip, List.getElem_map, List.getElem_range, leafOf,
        List.getD_eq_getElem _ _ hi, List.getD_eq_getElem _ _ (by omega)]
  unfold selected matchedIn
  rw [hzip, List.filter_map, List.map_map]
  rfl

variable (hpos : 1 ≤ vTxid.length) (hmax : vTxid.length ≤ MAX_BLOCK_SIZE / 60)

include hmax

variable (Hash vMatch) in
/-- What the constructor makes. -/
theorem build_eq :
    CPartialMerkleTree.build Hash vTxid vMatch =
      ⟨BitVec.ofNat 32 vTxid.length,
        (emitted Hash vTxid vMatch (height vTxid.length) 0).1,
        (emitted Hash vTxid vMatch (height vTxid.length) 0).2, false⟩ := by
  have hcount := toNat_count hmax
  have hheight := height_le hmax
  unfold CPartialMerkleTree.build
  dsimp only
  rw [treeHeight_eq (by omega), hcount, traverseAndBuild_eq hmax _ _ hheight]
  rfl

include hpos

/-- The tree as it arrives: the bits are padded, the rest is as built. -/
theorem unserialize_serialize (rest : List Byte) :
    CPartialMerkleTree.unserialize
        ((CPartialMerkleTree.build Hash vTxid vMatch).serialize ++ rest) =
      some ({ CPartialMerkleTree.build Hash vTxid vMatch with
        vBits := unpackBits (packBits (CPartialMerkleTree.build Hash vTxid vMatch).vBits) },
        rest) := by
  have hbuild := build_eq Hash vMatch hmax
  obtain ⟨-, hhashes, hbits⟩ := emitted_sizes Hash vTxid vMatch
    (height vTxid.length) 0 (width_pos _ hpos)
  rw [covered_root, List.length_range] at hhashes hbits
  have hcount := toNat_count hmax
  have hheight := height_le hmax
  rw [maxTransactions_eq] at hmax
  have hproduct : (height vTxid.length + 1) * vTxid.length ≤ 16 * 16666 :=
    Nat.mul_le_mul (by omega) hmax
  have hgood : wire.Good ((CPartialMerkleTree.build Hash vTxid vMatch).nTransactions,
      (CPartialMerkleTree.build Hash vTxid vMatch).vHash,
      packBits (CPartialMerkleTree.build Hash vTxid vMatch).vBits) := by
    have hlen := packed_length (CPartialMerkleTree.build Hash vTxid vMatch).vBits
      (CPartialMerkleTree.build Hash vTxid vMatch).vBits.length
    rw [hbuild] at hlen ⊢
    refine ⟨trivial, ⟨?_, fun _ _ => trivial⟩, ?_, fun _ _ => trivial⟩
    · show _ ≤ MAX_SIZE
      unfold MAX_SIZE
      dsimp only
      omega
    · show (packed _ _).length ≤ MAX_SIZE
      unfold MAX_SIZE
      dsimp only at hlen ⊢
      omega
  unfold CPartialMerkleTree.unserialize CPartialMerkleTree.serialize
  rw [wire.read_write _ rest hgood, hbuild]
  rfl

theorem extractMatches_padded (hmask : vMatch.length = vTxid.length) :
    extractMatches Hash { CPartialMerkleTree.build Hash vTxid vMatch with
        vBits := unpackBits (packBits (CPartialMerkleTree.build Hash vTxid vMatch).vBits) } =
      (idsRoot Hash vTxid, selected vTxid vMatch) := by
  have hcount := toNat_count hmax
  have hheight := height_le hmax
  obtain ⟨hle, hhashes, -⟩ := emitted_sizes Hash vTxid vMatch
    (height vTxid.length) 0 (width_pos _ hpos)
  rw [covered_root, List.length_range] at hhashes
  rw [build_eq Hash vMatch hmax, unpackBits_packBits]
  set bits := (emitted Hash vTxid vMatch (height vTxid.length) 0).1 with hbits
  set hashes := (emitted Hash vTxid vMatch (height vTxid.length) 0).2 with hhash
  set pad := List.replicate ((bits.length + 7) / 8 * 8 - bits.length) false with hpad
  have hwalk := traverseAndExtract_eq Hash vMatch hmax
    ⟨BitVec.ofNat 32 vTxid.length, bits ++ pad, hashes, false⟩ rfl (height vTxid.length) 0 hheight
    (width_pos _ hpos) ⟨false, 0, 0, []⟩ pad [] rfl (List.append_nil _).symm
  rw [← hbits, ← hhash, covered_root, matchedIn_range hmask] at hwalk
  have hpadded : (bits ++ pad).length = (bits.length + 7) / 8 * 8 := by
    rw [List.length_append, hpad, List.length_replicate]
    omega
  have hne : vTxid ≠ [] := List.length_pos_iff.mp hpos
  unfold extractMatches
  dsimp only
  rw [hcount, if_neg (by omega), if_neg (by omega), if_neg (by omega),
    if_neg (by rw [hpadded]; omega), treeHeight_eq (by omega), hcount, hwalk, hpadded,
    idsRoot_eq Hash vTxid hne]
  dsimp only
  rw [if_neg (by simp), if_neg (by omega), if_neg (by omega), List.nil_append]
  rfl

end RoundTrip

/-- Built, written, read back and extracted, a partial tree gives the merkle root of
the list and exactly the matched ids, in order. -/
theorem extractMatches_roundTrip (Hash : List Byte → Uint256) (vTxid : List Uint256)
    (vMatch : List Bool) (hpos : 1 ≤ vTxid.length) (hmax : vTxid.length ≤ MAX_BLOCK_SIZE / 60)
    (hmask : vMatch.length = vTxid.length) (rest : List Byte) :
    ∃ t, CPartialMerkleTree.unserialize
        ((CPartialMerkleTree.build Hash vTxid vMatch).serialize ++ rest) = some (t, rest) ∧
      extractMatches Hash t = (idsRoot Hash vTxid, selected vTxid vMatch) ∧
      ∀ vtx, txids Hash vtx = vTxid → buildMerkleTree Hash vtx = idsRoot Hash vTxid := by
  refine ⟨_, unserialize_serialize hpos hmax rest, extractMatches_padded hpos hmax hmask, ?_⟩
  intro vtx hids
  rw [buildMerkleTree_idsRoot, hids]

/-- Three transactions, of which the second does not match. -/
theorem extractMatches_roundTrip_three :
    ∃ t, CPartialMerkleTree.unserialize
        (CPartialMerkleTree.build dummyHash dummyIds [true, false, true]).serialize =
          some (t, []) ∧
      extractMatches dummyHash t = (dummyRoot, [dummyIds[0], dummyIds[2]]) := by
  obtain ⟨t, hread, hextract, -⟩ := extractMatches_roundTrip dummyHash dummyIds
    [true, false, true] (by decide) (by decide) rfl []
  have hroot : idsRoot dummyHash dummyIds = dummyRoot := by decide +kernel
  rw [List.append_nil] at hread
  rw [hroot] at hextract
  exact ⟨t, hread, hextract⟩

end UmbrellaLtc.PartialMerkleTree
