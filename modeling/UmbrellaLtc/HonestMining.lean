import UmbrellaLtc.MergedMining
import UmbrellaLtc.MerkleRoot
import UmbrellaLtc.ScriptOps
import UmbrellaLtc.EvalLimits
import Mathlib.Data.Nat.Bitwise

/-!
Honest merged mining is accepted. The coinbase script is parsed back into what was put into it,
the branch of a transaction leads to the merkle root of its block, and the slot, the size and
the nonce in the script are those that the check reads there.
-/

namespace UmbrellaLtc.HonestMining

open Codec Transaction Header Merkle Script EvalScript Compact AuxPow CheckBlock
  MergedMining MerkleRoot HashTree ScriptOps

/-! Scripts that are parsed back. -/

section Parsing

theorem getOp_pushScript (data rest : List Byte) (h : data.length < 2 ^ 32) :
    ∃ opcode, getOp (pushScript data ++ rest) = (opcode, data, rest) := by
  obtain ⟨opcode, hop⟩ := getOp2_pushScript data rest h
  exact ⟨opcode, by rw [getOp, hop, Option.getD_some]⟩

/-- An opcode above the pushes stands for itself. -/
theorem getOp_opcode (n : ℕ) (rest : List Byte) (hlow : OP_PUSHDATA4 < n) (hhigh : n < 256) :
    getOp (BitVec.ofNat 8 n :: rest) = (n, [], rest) := by
  have hnat : (BitVec.ofNat 8 n).toNat = n := by
    rw [BitVec.toNat_ofNat]
    omega
  rw [getOp, getOp2, hnat, if_neg (by omega), Option.getD_some]

theorem setCompact_natAbs_lt (nBits : BitVec 32) : (setCompact nBits).natAbs < 256 ^ 256 := by
  have hsize : (nBits >>> 24).toNat < 256 := by
    have hlt := nBits.isLt
    rw [BitVec.toNat_ushiftRight, Nat.shiftRight_eq_div_pow]
    omega
  have hword : (nBits &&& 0x007fffff).toNat < 256 ^ 3 := by
    have hle : nBits.toNat &&& 0x007fffff ≤ 0x007fffff := Nat.and_le_right
    rw [BitVec.toNat_and]
    exact lt_of_le_of_lt hle (by norm_num)
  have hmag : ∀ nSize nWord : ℕ, nSize < 256 → nWord < 256 ^ 3 →
      (if nSize ≤ 3 then nWord >>> (8 * (3 - nSize)) else nWord <<< (8 * (nSize - 3))) <
        256 ^ 256 := by
    intro nSize nWord hsize hword
    split_ifs with hsmall
    · rw [Nat.shiftRight_eq_div_pow]
      calc nWord / 2 ^ (8 * (3 - nSize)) ≤ nWord := Nat.div_le_self _ _
        _ < 256 ^ 3 := hword
        _ ≤ 256 ^ 256 := Nat.pow_le_pow_right (by norm_num) (by norm_num)
    · rw [Nat.shiftLeft_eq, pow_eight]
      calc nWord * 256 ^ (nSize - 3) < 256 ^ 3 * 256 ^ (nSize - 3) :=
            Nat.mul_lt_mul_of_pos_right hword (by positivity)
        _ = 256 ^ nSize := by rw [← pow_add]; congr 1; omega
        _ ≤ 256 ^ 256 := Nat.pow_le_pow_right (by norm_num) (by omega)
  have h := hmag _ _ hsize hword
  unfold setCompact
  dsimp only
  by_cases hneg : nBits &&& 0x00800000 ≠ 0
  · rwa [if_pos hneg, Int.natAbs_neg, Int.natAbs_natCast]
  · rwa [if_neg hneg, Int.natAbs_natCast]

theorem getOp_pushCompact (nBits : BitVec 32) (rest : List Byte) :
    ∃ opcode data, getOp (pushCompact nBits ++ rest) = (opcode, data, rest) := by
  have hlen := getvch_length _ 256 (setCompact_natAbs_lt nBits)
  obtain ⟨opcode, hop⟩ := getOp_pushScript (getvch (setCompact nBits)) rest
    (lt_of_le_of_lt hlen (by norm_num))
  exact ⟨opcode, _, hop⟩

theorem getOp_pushUint64 (n : BitVec 32) (rest : List Byte) :
    ∃ opcode data, getOp (pushUint64 n.toNat ++ rest) = (opcode, data, rest) := by
  unfold pushUint64
  by_cases hsmall : 1 ≤ n.toNat ∧ n.toNat ≤ 16
  · rw [if_pos hsmall, List.singleton_append]
    refine ⟨_, _, getOp_opcode _ rest ?_ ?_⟩
    · simp only [OP_PUSHDATA4, OP_1]
      omega
    · simp only [OP_1]
      omega
  · have hlt : ((n.toNat : ℤ)).natAbs < 256 ^ 4 := by
      have h := n.isLt
      rw [Int.natAbs_natCast]
      omega
    have hlen := getvch_length _ 4 hlt
    obtain ⟨opcode, hop⟩ := getOp_pushScript (getvch n.toNat) rest
      (lt_of_le_of_lt hlen (by norm_num))
    rw [if_neg hsmall]
    exact ⟨opcode, _, hop⟩

/-- What was put into a coinbase script is found there again. -/
theorem parseAux_makeCoinbaseWithAux (nBits nExtraNonce : BitVec 32) (vchAux : List Byte)
    (h : (pchMergedMiningHeader ++ vchAux).length < 2 ^ 32) :
    parseAux (makeCoinbaseWithAux nBits nExtraNonce vchAux) = .ok vchAux := by
  have hfound : find pchMergedMiningHeader (pchMergedMiningHeader ++ vchAux) = 0 := by
    have hpre : pchMergedMiningHeader.isPrefixOf (pchMergedMiningHeader ++ vchAux) = true :=
      List.isPrefixOf_iff_prefix.mpr (List.prefix_append _ _)
    rw [pchMergedMiningHeader, List.cons_append] at hpre ⊢
    rw [find, if_pos hpre]
  obtain ⟨op1, data1, h1⟩ := getOp_pushCompact nBits (pushUint64 nExtraNonce.toNat ++
    ([BitVec.ofNat 8 OP_2] ++ pushScript (pchMergedMiningHeader ++ vchAux)))
  obtain ⟨op2, data2, h2⟩ := getOp_pushUint64 nExtraNonce
    ([BitVec.ofNat 8 OP_2] ++ pushScript (pchMergedMiningHeader ++ vchAux))
  have h3 := getOp_opcode OP_2 (pushScript (pchMergedMiningHeader ++ vchAux)) (by decide) (by decide)
  obtain ⟨op4, h4⟩ := getOp_pushScript (pchMergedMiningHeader ++ vchAux) [] h
  rw [List.append_nil] at h4
  rw [makeCoinbaseWithAux, List.append_assoc, List.append_assoc, parseAux, h1]
  dsimp only
  rw [h2]
  dsimp only
  rw [List.singleton_append, h3]
  dsimp only
  rw [h4, if_neg (by decide), removeMergedMiningHeader, hfound]
  simp

end Parsing

/-! Merkle branches. -/

section Branches

variable (Hash : List Byte → Uint256) (leaf : ℕ → Uint256) (n : ℕ)

/-- The levels from `k` on, one after another. -/
def levelsFrom : ℕ → ℕ → List Uint256
  | k, 0 => level (pairHash Hash) leaf n k
  | k, j + 1 => level (pairHash Hash) leaf n k ++ levelsFrom (k + 1) j

theorem merkleLevels_levelsFrom (hn : 0 < n) (j fuel : ℕ) (done : List Uint256) (k : ℕ)
    (hk : k + j = height n) (hfuel : width n k ≤ fuel) :
    merkleLevels Hash fuel (done ++ level (pairHash Hash) leaf n k) done.length (width n k) =
      done ++ levelsFrom Hash leaf n k j := by
  induction j generalizing fuel done k with
  | zero =>
    obtain rfl : k = height n := by omega
    cases fuel with
    | zero => rfl
    | succ fuel => rw [merkleLevels, width_height hn, if_neg (by omega), levelsFrom]
  | succ j ih =>
    have hmany : 1 < width n k := by
      by_contra hone
      have hle := (height_le_iff n k).mpr (Nat.le_of_not_lt hone)
      omega
    cases fuel with
    | zero => omega
    | succ fuel =>
      have hnext := width_succ n k
      have hlen : done.length + width n k = (done ++ level (pairHash Hash) leaf n k).length := by
        rw [List.length_append, level_length]
      rw [merkleLevels, if_pos hmany, merkleLevel_eq Hash leaf n done k, ← width_succ, hlen,
        ih fuel _ (k + 1) (by omega) (by omega), levelsFrom, List.append_assoc]

theorem xor_one_sibling {k p : ℕ} (hp : p < width n k) :
    min (p ^^^ 1) (width n k - 1) = sibling n k p := by
  unfold sibling rightChild
  by_cases hodd : p % 2 = 1
  · rw [Nat.xor_one_of_odd (Nat.odd_iff.mpr hodd), if_pos hodd]
    omega
  · rw [Nat.xor_one_of_even (Nat.even_iff.mpr (by omega)), if_neg hodd]
    split_ifs with hlast
    · omega
    · omega

theorem sibling_lt {k p : ℕ} (hp : p < width n k) : sibling n k p < width n k := by
  rw [← xor_one_sibling n hp]
  omega

/-- The loop of GetMerkleBranch collects the siblings. -/
theorem branchLoop_eq (hn : 0 < n) (j fuel : ℕ) (done : List Uint256) (k p : ℕ)
    (hk : k + j = height n) (hfuel : width n k ≤ fuel) (hp : p < width n k) :
    branchLoop (done ++ levelsFrom Hash leaf n k j) fuel (width n k) done.length p =
      branch (pairHash Hash) leaf n j k p := by
  induction j generalizing fuel done k p with
  | zero =>
    obtain rfl : k = height n := by omega
    cases fuel with
    | zero => rfl
    | succ fuel => rw [branchLoop, width_height hn, if_neg (by omega), branch]
  | succ j ih =>
    have hmany : 1 < width n k := by
      by_contra hone
      have hle := (height_le_iff n k).mpr (Nat.le_of_not_lt hone)
      omega
    cases fuel with
    | zero => omega
    | succ fuel =>
      have hnext := width_succ n k
      have hlen : done.length + width n k = (done ++ level (pairHash Hash) leaf n k).length := by
        rw [List.length_append, level_length]
      have hget : (done ++ (level (pairHash Hash) leaf n k ++ levelsFrom Hash leaf n (k + 1) j)).getD
          (done.length + sibling n k p) 0 = node (pairHash Hash) leaf n k (sibling n k p) := by
        have hlt := sibling_lt n hp
        rw [List.getD_eq_getElem?_getD, List.getElem?_append_right (by omega),
          Nat.add_sub_cancel_left, List.getElem?_append_left (by rwa [level_length]),
          level_getElem? _ _ _ _ _ hlt]
        rfl
      rw [branchLoop, if_pos hmany, branch]
      dsimp only
      rw [xor_one_sibling n hp, levelsFrom, hget, ← width_succ, hlen, ← List.append_assoc,
        ih fuel _ (k + 1) (p / 2) (by omega) (by omega) (by omega)]

theorem getMerkleBranch_eq (vtx : List CTransaction) {p : ℕ} (hp : p < vtx.length) :
    getMerkleBranch Hash vtx p =
      branch (pairHash Hash) (leafOf (txids Hash vtx)) vtx.length (height vtx.length) 0 p := by
  have hpos : 0 < vtx.length := by omega
  have hids : (txids Hash vtx).length = vtx.length := by rw [txids, List.length_map]
  have hlevel := level_zero Hash (txids Hash vtx)
  have htree := merkleLevels_levelsFrom Hash (leafOf (txids Hash vtx)) vtx.length hpos
    (height vtx.length) vtx.length [] 0 (Nat.zero_add _) (by rw [width_zero])
  have hloop := branchLoop_eq Hash (leafOf (txids Hash vtx)) vtx.length hpos (height vtx.length)
    vtx.length [] 0 p (Nat.zero_add _) (by rw [width_zero]) (by rwa [width_zero])
  rw [hids] at hlevel
  rw [← htree, hlevel, width_zero] at hloop
  exact hloop

/-- An index that is not negative as an `int` walks a branch as a position does. -/
theorem foldBranch_eq (x : Uint256) (branch : List Uint256) (nIndex : BitVec 32)
    (h : nIndex.toNat < 2 ^ 31) :
    foldBranch Hash x branch nIndex = climb (pairHash Hash) x branch nIndex.toNat := by
  induction branch generalizing x nIndex with
  | nil => rfl
  | cons y branch ih =>
    have hmsb : nIndex.msb = false := by
      rw [BitVec.msb_eq_decide, decide_eq_false_iff_not]
      omega
    have hshift : (nIndex.sshiftRight 1).toNat = nIndex.toNat / 2 := by
      rw [BitVec.toNat_sshiftRight_of_msb_false hmsb, Nat.shiftRight_eq_div_pow, pow_one]
    have hbit : nIndex &&& 1 ≠ 0 ↔ nIndex.toNat % 2 = 1 := by
      have hand : (nIndex &&& 1).toNat = nIndex.toNat % 2 := by
        rw [BitVec.toNat_and]
        exact Nat.and_one_is_mod _
      rw [← not_iff_not, not_not, ← BitVec.toNat_inj, hand]
      simp
    rw [foldBranch, climb, ih _ _ (by rw [hshift]; omega), hshift]
    congr 1
    unfold levelBytes pairHash
    by_cases hodd : nIndex.toNat % 2 = 1
    · rw [if_pos (hbit.mpr hodd), if_pos hodd]
    · rw [if_neg (fun hb => hodd (hbit.mp hb)), if_neg hodd]

theorem checkMerkleBranch_eq (x : Uint256) (branch : List Uint256) (nIndex : BitVec 32)
    (h : nIndex.toNat < 2 ^ 31) :
    checkMerkleBranch Hash x branch nIndex = climb (pairHash Hash) x branch nIndex.toNat := by
  have hne : nIndex ≠ BitVec.allOnes 32 := by
    rintro rfl
    rw [BitVec.toNat_allOnes] at h
    omega
  rw [checkMerkleBranch, if_neg hne, foldBranch_eq Hash x branch nIndex h]

/-- The branch of a transaction in its block is accepted. -/
theorem checkMerkleBranch_getMerkleBranch (vtx : List CTransaction) (tx : CTransaction) {p : ℕ}
    (hp : vtx[p]? = some tx) (hlen : p < 2 ^ 31) :
    checkMerkleBranch Hash (tx.getHash Hash) (getMerkleBranch Hash vtx p) (BitVec.ofNat 32 p) =
      buildMerkleTree Hash vtx := by
  obtain ⟨hlt, htx⟩ := List.getElem?_eq_some_iff.mp hp
  have hne : vtx ≠ [] := List.length_pos_iff.mp (by omega)
  have hnat : (BitVec.ofNat 32 p).toNat = p := by
    rw [BitVec.toNat_ofNat]
    omega
  have hleaf : tx.getHash Hash = leafOf (txids Hash vtx) p := by
    rw [leafOf, txids, List.getD_eq_getElem?_getD, List.getElem?_map, hp]
    rfl
  rw [checkMerkleBranch_eq Hash _ _ _ (by rwa [hnat]), hnat, getMerkleBranch_eq Hash vtx hlt,
    hleaf, climb_root hlt, buildMerkleTree_eq Hash vtx hne]

end Branches

/-! Searches in a script. -/

section Searching

/-- The offsets at which `pat` stands in `script`. -/
def occurrences (pat script : List Byte) : List ℕ :=
  (List.range script.length).filter fun i => pat.isPrefixOf (script.drop i)

theorem mem_occurrences {pat script : List Byte} {i : ℕ} :
    i ∈ occurrences pat script ↔ i < script.length ∧ pat <+: script.drop i := by
  rw [occurrences, List.mem_filter, List.mem_range, List.isPrefixOf_iff_prefix]

theorem occurrences_cons (pat : List Byte) (b : Byte) (bs : List Byte) :
    occurrences pat (b :: bs) = (if pat.isPrefixOf (b :: bs) then [0] else []) ++
      (occurrences pat bs).map (· + 1) := by
  simp only [occurrences, List.length_cons, List.range_succ_eq_map, List.filter_cons,
    List.drop_zero, List.filter_map]
  split
  · rfl
  · rfl

/-- A search finds the first occurrence, or the end where there is none. -/
theorem find_eq (pat script : List Byte) :
    find pat script = (occurrences pat script).head?.getD script.length := by
  induction script with
  | nil => rfl
  | cons b bs ih =>
    rw [occurrences_cons, find]
    split
    · rfl
    · rw [ih, List.nil_append, List.head?_map, List.length_cons]
      cases (occurrences pat bs).head? <;> rfl

/-- Behind the only occurrence there is none. -/
theorem find_drop_of_once {pat script : List Byte} {p : ℕ}
    (honce : (occurrences pat script).length = 1) (hp : p ∈ occurrences pat script) :
    p + 1 + find pat (script.drop (p + 1)) = script.length := by
  have hlt := (mem_occurrences.mp hp).1
  have hle := find_le pat (script.drop (p + 1))
  rw [List.length_drop] at hle
  by_contra hne
  have hfound := find_spec pat (script.drop (p + 1)) (by rw [List.length_drop]; omega)
  rw [List.drop_drop] at hfound
  have hagain : p + 1 + find pat (script.drop (p + 1)) ∈ occurrences pat script :=
    mem_occurrences.mpr ⟨by omega, hfound⟩
  obtain ⟨q, hq⟩ := List.length_eq_one_iff.mp honce
  rw [hq, List.mem_singleton] at hp hagain
  omega

theorem find_of_once {pat script : List Byte} {p : ℕ}
    (honce : (occurrences pat script).length = 1) (hp : p ∈ occurrences pat script) :
    find pat script = p := by
  obtain ⟨q, hq⟩ := List.length_eq_one_iff.mp honce
  rw [hq, List.mem_singleton] at hp
  rw [find_eq, hq, hp]
  rfl

/-- A script with one header magic and its root right behind that passes the tests. -/
theorem checkRootPosition_of_once {script root : List Byte} {p : ℕ}
    (honce : (occurrences pchMergedMiningHeader script).length = 1)
    (hp : p ∈ occurrences pchMergedMiningHeader script)
    (hroot : (occurrences root script).head? = some (p + 4)) :
    checkRootPosition script root = .ok (p + 4) := by
  have hlt := (mem_occurrences.mp hp).1
  have hpre := (mem_occurrences.mp hp).2.length_le
  have hmem := mem_occurrences.mp (List.mem_of_mem_head? hroot)
  have hrootAt : find root script = p + 4 := by rw [find_eq, hroot, Option.getD_some]
  have hagain := find_drop_of_once honce hp
  rw [List.length_drop] at hpre
  have hmagic : pchMergedMiningHeader.length = 4 := rfl
  have hnext : p + 1 ≤ script.length := hlt
  have hbehind : p + 4 ≤ script.length := by omega
  simp only [checkRootPosition, search_zero, find_of_once honce hp, hrootAt]
  simp only [bind, Except.bind, Guards.require, pure, Except.pure, advance, search, hmagic, hagain,
    hnext, hbehind, Nat.ne_of_lt hlt, Nat.ne_of_lt hmem.1, ne_eq, not_false_eq_true, if_true]

end Searching

/-! The chain merkle tree and the proof. -/

section Proofs

variable (Hash : List Byte → Uint256) (leaf : ℕ → Uint256) (k : ℕ)
  (nNonce nChainID : BitVec 32)

/-- The slot of a chain in a tree of `2 ^ k` leaves. -/
def chainSlot : BitVec 32 := slotRand nNonce nChainID % (1 : BitVec 32) <<< k

def chainRoot : Uint256 := root (pairHash Hash) leaf (2 ^ k)

def chainBranch : List Uint256 :=
  branch (pairHash Hash) leaf (2 ^ k) k 0 (chainSlot k nNonce nChainID).toNat

/-- The root of the chain merkle tree, its size and the nonce, as a pool hands them over. -/
def auxData : List Byte :=
  vchRootHash (chainRoot Hash leaf k) ++ leBytes 4 (2 ^ k) ++ leBytes 4 nNonce.toNat

variable {Hash leaf k nNonce nChainID}

theorem auxData_length : (auxData Hash leaf k nNonce).length = 40 := by
  simp [auxData, vchRootHash_length]

theorem chainSlot_lt (hk : k ≤ 30) : (chainSlot k nNonce nChainID).toNat < 2 ^ k := by
  rw [chainSlot, BitVec.toNat_umod, one_shiftLeft_toNat k hk]
  exact Nat.mod_lt _ (Nat.two_pow_pos k)

/-- The branch from the slot leads to the root that is in the aux data. -/
theorem checkMerkleBranch_chainBranch (hk : k ≤ 30) :
    checkMerkleBranch Hash (leaf (chainSlot k nNonce nChainID).toNat)
      (chainBranch Hash leaf k nNonce nChainID) (chainSlot k nNonce nChainID) =
        chainRoot Hash leaf k := by
  have hlt := @chainSlot_lt k nNonce nChainID hk
  have hpow : 2 ^ k ≤ 2 ^ 30 := Nat.pow_le_pow_right (by norm_num) hk
  have hclimb := @climb_root _ (pairHash Hash) leaf (2 ^ k) _ hlt
  rw [height_two_pow] at hclimb
  rw [checkMerkleBranch_eq Hash _ _ _ (by omega), chainBranch, hclimb, chainRoot]

theorem wordAt_append (pre rest : List Byte) (n : ℕ) :
    wordAt (pre ++ (leBytes 4 n ++ rest)) pre.length = BitVec.ofNat 32 n := by
  have htake : (leBytes 4 n ++ rest).take 4 = leBytes 4 n := by
    rw [List.take_append_of_le_length (by simp), List.take_of_length_le (by simp)]
  rw [wordAt, List.drop_left, htake, ofLeBytes_leBytes]
  apply BitVec.eq_of_toNat_eq
  rw [BitVec.toNat_ofNat, BitVec.toNat_ofNat]
  omega

/-- Where the script of a merged-mining coinbase has its parts. -/
theorem makeCoinbaseWithAux_eq (nBits nExtraNonce : BitVec 32) :
    ∃ pre, makeCoinbaseWithAux nBits nExtraNonce (auxData Hash leaf k nNonce) =
      pre ++ (pchMergedMiningHeader ++ (vchRootHash (chainRoot Hash leaf k) ++
        (leBytes 4 (2 ^ k) ++ leBytes 4 nNonce.toNat))) := by
  have hlen : (pchMergedMiningHeader ++ auxData Hash leaf k nNonce).length = 44 := by
    rw [List.length_append, auxData_length]
    rfl
  refine ⟨pushCompact nBits ++ pushUint64 nExtraNonce.toNat ++ [BitVec.ofNat 8 OP_2] ++
    [BitVec.ofNat 8 44], ?_⟩
  rw [makeCoinbaseWithAux, pushScript, hlen, if_pos (by decide), auxData]
  simp only [List.append_assoc]

/-- The tests of Check that look into the coinbase script. -/
theorem checkSlot_honest (hk : k ≤ 30) {script pre : List Byte}
    (hscript : script = pre ++ (pchMergedMiningHeader ++ (vchRootHash (chainRoot Hash leaf k) ++
      (leBytes 4 (2 ^ k) ++ leBytes 4 nNonce.toNat)))) :
    checkSlot script (pre.length + 36) k (chainSlot k nNonce nChainID) nChainID = .ok () := by
  have hlen : script.length = pre.length + 44 := by
    rw [hscript]
    simp [vchRootHash_length, pchMergedMiningHeader]
  have hfront : (pre ++ (pchMergedMiningHeader ++ vchRootHash (chainRoot Hash leaf k))).length =
      pre.length + 36 := by
    simp [vchRootHash_length, pchMergedMiningHeader]
  have hsize : wordAt script (pre.length + 36) = (1 : BitVec 32) <<< k := by
    have hword := wordAt_append
      (pre ++ (pchMergedMiningHeader ++ vchRootHash (chainRoot Hash leaf k)))
      (leBytes 4 nNonce.toNat) (2 ^ k)
    rw [hfront] at hword
    have hone := one_shiftLeft_toNat k hk
    rw [hscript]
    simp only [List.append_assoc] at hword ⊢
    rw [hword, ← hone, BitVec.ofNat_toNat, BitVec.setWidth_eq]
  have hnonce : wordAt script (pre.length + 36 + 4) = nNonce := by
    have hword := wordAt_append
      (pre ++ (pchMergedMiningHeader ++ (vchRootHash (chainRoot Hash leaf k) ++ leBytes 4 (2 ^ k))))
      [] nNonce.toNat
    have hlen' : (pre ++ (pchMergedMiningHeader ++ (vchRootHash (chainRoot Hash leaf k) ++
        leBytes 4 (2 ^ k)))).length = pre.length + 36 + 4 := by
      simp [vchRootHash_length, pchMergedMiningHeader]
    rw [hlen'] at hword
    rw [hscript]
    simp only [List.append_assoc, List.append_nil] at hword ⊢
    rw [hword, BitVec.ofNat_toNat, BitVec.setWidth_eq]
  have hroom : 8 ≤ script.length - (pre.length + 36) := by omega
  have hread : pre.length + 36 + 4 ≤ script.length := by omega
  have hread' : pre.length + 36 + 4 + 4 ≤ script.length := by omega
  have hshift : k < 31 := by omega
  have hne : (1 : BitVec 32) <<< k ≠ 0 := by
    intro hzero
    have hone := one_shiftLeft_toNat k hk
    have hpos := Nat.two_pow_pos k
    rw [hzero] at hone
    exact absurd hone hpos.ne
  simp only [checkSlot, readWord, shiftOne, modulo, bind, Except.bind, Guards.require, pure,
    Except.pure, hroom, hread, hread', hshift, if_true, hsize, hnonce, hne, ne_eq,
    not_false_eq_true, chainSlot]

/-- A proof whose transaction leads to the parent's merkle root and whose script commits to the
chain merkle tree passes. -/
theorem check_of_parts {p : CAuxPow} {fTestNet : Bool} {txin : CTxIn} {vin : List CTxIn}
    {pre : List Byte} (hk : k ≤ 30) (hindex : p.aux.nIndex = 0)
    (hchain : p.parentBlockHeader.fields.getChainID ≠ nChainID.toInt)
    (hbranch : p.aux.vChainMerkleBranch = chainBranch Hash leaf k nNonce nChainID)
    (hslot : p.aux.nChainIndex = chainSlot k nNonce nChainID)
    (hparent : checkMerkleBranch Hash (p.aux.tx.getHash Hash) p.aux.vMerkleBranch 0 =
      p.parentBlockHeader.fields.hashMerkleRoot)
    (hvin : p.aux.tx.vin = txin :: vin)
    (hscript : txin.scriptSig = pre ++ (pchMergedMiningHeader ++
      (vchRootHash (chainRoot Hash leaf k) ++ (leBytes 4 (2 ^ k) ++ leBytes 4 nNonce.toNat))))
    (honce : (occurrences pchMergedMiningHeader txin.scriptSig).length = 1)
    (hroot : ∀ i ∈ occurrences pchMergedMiningHeader txin.scriptSig,
      (occurrences (vchRootHash (chainRoot Hash leaf k)) txin.scriptSig).head? = some (i + 4)) :
    check Hash fTestNet p (leaf (chainSlot k nNonce nChainID).toNat) nChainID = .ok () := by
  have hlen : p.aux.vChainMerkleBranch.length = k := by
    rw [hbranch, chainBranch, branch_length]
  have hchainRoot := @checkMerkleBranch_chainBranch Hash leaf k nNonce nChainID hk
  have hmagic : pre.length ∈ occurrences pchMergedMiningHeader txin.scriptSig := by
    rw [mem_occurrences, hscript, List.drop_left]
    refine ⟨?_, List.prefix_append _ _⟩
    simp [pchMergedMiningHeader]
  have hsize : txin.scriptSig.length = pre.length + 44 := by
    rw [hscript]
    simp [vchRootHash_length, pchMergedMiningHeader]
  have hposition := checkRootPosition_of_once honce hmagic (hroot _ hmagic)
  have hslotOk := @checkSlot_honest Hash leaf k nNonce nChainID hk txin.scriptSig pre hscript
  have hadvance : pre.length + 4 + 32 ≤ txin.scriptSig.length := by omega
  simp only [check, hindex, hslot, hbranch, hchainRoot, hparent, hvin, hposition, bind, Except.bind,
    Guards.require, pure, Except.pure, hchain, ne_eq, not_false_eq_true, or_true, if_true, advance,
    vchRootHash_length, hadvance]
  rw [← hbranch, hlen, if_pos hk]
  exact hslotOk

theorem setMerkleBranch_first {aux : AuxFields} {block : CBlock} {rest : List CTransaction}
    (h : block.vtx = aux.tx :: rest) :
    setMerkleBranch Hash aux block =
      { aux with
        hashBlock := block.header.fields.getHash Hash
        nIndex := 0
        vMerkleBranch := getMerkleBranch Hash block.vtx 0 } := by
  have hfirst : block.vtx.findIdx? (· = aux.tx) = some 0 := by
    rw [h, List.findIdx?_cons, if_pos (decide_eq_true rfl)]
  simp only [setMerkleBranch, hfirst]
  rfl

/-- The proof that is built on a block with such a script in its coinbase passes. -/
theorem check_auxProof {block : CBlock} {coinbase : CTransaction} {rest : List CTransaction}
    {txin : CTxIn} {vin : List CTxIn} {fTestNet : Bool} {script pre : List Byte} (hk : k ≤ 30)
    (hvtx : block.vtx = coinbase :: rest) (hvin : coinbase.vin = txin :: vin)
    (hchain : block.header.fields.getChainID ≠ nChainID.toInt)
    (hscript : script = pre ++ (pchMergedMiningHeader ++
      (vchRootHash (chainRoot Hash leaf k) ++ (leBytes 4 (2 ^ k) ++ leBytes 4 nNonce.toNat))))
    (honce : (occurrences pchMergedMiningHeader script).length = 1)
    (hroot : ∀ i ∈ occurrences pchMergedMiningHeader script,
      (occurrences (vchRootHash (chainRoot Hash leaf k)) script).head? = some (i + 4)) :
    check Hash fTestNet (auxProof Hash (setCoinbaseScript Hash block script)
      (chainSlot k nNonce nChainID) (chainBranch Hash leaf k nNonce nChainID))
      (leaf (chainSlot k nNonce nChainID).toNat) nChainID = .ok () := by
  have hsolved : (setCoinbaseScript Hash block script).vtx =
      { coinbase with vin := { txin with scriptSig := script } :: vin } :: rest := by
    simp [setCoinbaseScript, hvtx, hvin]
  have hmerkle : (setCoinbaseScript Hash block script).header.fields.hashMerkleRoot =
      buildMerkleTree Hash (setCoinbaseScript Hash block script).vtx := by
    simp [setCoinbaseScript]
  have hversion : (setCoinbaseScript Hash block script).header.fields.nVersion =
      block.header.fields.nVersion := by
    simp [setCoinbaseScript]
  have hwalk := checkMerkleBranch_getMerkleBranch Hash _ _
    (show (setCoinbaseScript Hash block script).vtx[0]? = some
      { coinbase with vin := { txin with scriptSig := script } :: vin } by rw [hsolved]; rfl)
    (by norm_num)
  have hhead : (setCoinbaseScript Hash block script).vtx.headD CTransaction.null =
      { coinbase with vin := { txin with scriptSig := script } :: vin } := by
    rw [hsolved]
    rfl
  rw [auxProof, setMerkleBranch_first (by rw [hsolved]; rfl), hhead]
  refine @check_of_parts Hash leaf k nNonce nChainID _ fTestNet { txin with scriptSig := script }
    vin pre hk rfl ?_ rfl rfl (hwalk.trans hmerkle.symm) rfl hscript honce hroot
  rwa [HeaderFields.getChainID, hversion]

/-- Honest merged mining is accepted: the aux data is parsed out of the saved block again, and
the proof that is then built for the aux block in its slot passes the check. -/
theorem honest_mining_accepted (Hash : List Byte → Uint256) (fTestNet : Bool)
    (hashAuxBlock : Uint256) (nChainID nNonce nExtraNonce lastExtraNonce nTime nBlockNonce : BitVec 32)
    (k : ℕ) (leaf : ℕ → Uint256) (block : CBlock) (coinbase : CTransaction)
    (rest : List CTransaction) (txin : CTxIn) (vin : List CTxIn) (hk : k ≤ 30)
    (hleaf : leaf (chainSlot k nNonce nChainID).toNat = hashAuxBlock)
    (hvtx : block.vtx = coinbase :: rest) (hvin : coinbase.vin = txin :: vin)
    (hscript : txin.scriptSig = makeCoinbaseWithAux block.header.fields.nBits lastExtraNonce
      (auxData Hash leaf k nNonce))
    (honce : (occurrences pchMergedMiningHeader (makeCoinbaseWithAux block.header.fields.nBits
      nExtraNonce (auxData Hash leaf k nNonce))).length = 1)
    (hroot : ∀ i ∈ occurrences pchMergedMiningHeader (makeCoinbaseWithAux
        block.header.fields.nBits nExtraNonce (auxData Hash leaf k nNonce)),
      (occurrences (vchRootHash (chainRoot Hash leaf k)) (makeCoinbaseWithAux
        block.header.fields.nBits nExtraNonce (auxData Hash leaf k nNonce))).head? = some (i + 4))
    (hchain : block.header.fields.getChainID ≠ nChainID.toInt) :
    parseAux txin.scriptSig = .ok (auxData Hash leaf k nNonce) ∧
      ∃ solved, restoreWork Hash block nExtraNonce nTime nBlockNonce =
          (solved, .ok (auxData Hash leaf k nNonce)) ∧
        check Hash fTestNet (auxProof Hash solved (chainSlot k nNonce nChainID)
          (chainBranch Hash leaf k nNonce nChainID)) hashAuxBlock nChainID = .ok () := by
  have hparse : parseAux txin.scriptSig = .ok (auxData Hash leaf k nNonce) := by
    rw [hscript]
    refine parseAux_makeCoinbaseWithAux _ _ _ ?_
    rw [List.length_append, auxData_length]
    decide
  have hfound : coinbaseScript? (setTimeAndNonce block nTime nBlockNonce) = some txin.scriptSig := by
    simp [coinbaseScript?, setTimeAndNonce, hvtx, hvin]
  have hbits : (setTimeAndNonce block nTime nBlockNonce).header.fields.nBits =
      block.header.fields.nBits := by
    simp [setTimeAndNonce]
  obtain ⟨pre, hpre⟩ := @makeCoinbaseWithAux_eq Hash leaf k nNonce block.header.fields.nBits
    nExtraNonce
  refine ⟨hparse, setCoinbaseScript Hash (setTimeAndNonce block nTime nBlockNonce)
    (makeCoinbaseWithAux block.header.fields.nBits nExtraNonce (auxData Hash leaf k nNonce)),
    by simp only [restoreWork, hfound, hparse, hbits], ?_⟩
  rw [← hleaf]
  refine check_auxProof hk hvtx hvin ?_ hpre honce hroot
  rw [setTimeAndNonce, CBlockHeader.fields_build]
  exact hchain

end Proofs

/-- Two chains mined together, ours in the first slot. -/
def twoChains (i : ℕ) : Uint256 := if i = 0 then 7 else 9

def twoChainsRoot : Uint256 := 0xbf9ed11ae9c3c19edcf6391946f85823437226a10563bcef969a84aa792bd082

def twoChainsTx : CTransaction :=
  ⟨1, [⟨⟨0, BitVec.allOnes 32⟩, makeCoinbaseWithAux 0x1e0ffff0 1
    (vchRootHash twoChainsRoot ++ leBytes 4 2 ++ leBytes 4 0), BitVec.allOnes 32⟩], [], 0⟩

def twoChainsTxid : Uint256 := 0x7529b00ace2946d9d51409b7736486002c1a5671752565e18624ee42c202a592

/-- The double SHA-256 of the three strings that are hashed on the way. -/
def twoChainsHash (bs : List Byte) : Uint256 :=
  if bs = pairBytes 7 9 then twoChainsRoot
  else if bs = CTransaction.codec.write twoChainsTx then twoChainsTxid
  else if bs = HeaderFields.codec.write ⟨1, 0, twoChainsTxid, 0, 0x1e0ffff0, 0⟩ then
    0xd561009e5e96799d2e9e5cd20c9ef4572f1ebb978e57f86391283ea2d07d29fd
  else 0

def twoChainsBlock : CBlock := ⟨.plain ⟨1, 0, twoChainsTxid, 0, 0x1e0ffff0, 0⟩, [twoChainsTx]⟩

theorem honest_mining_two_chains :
    ∃ solved, restoreWork twoChainsHash twoChainsBlock 1 0 0 =
        (solved, .ok (auxData twoChainsHash twoChains 1 0)) ∧
      check twoChainsHash false (auxProof twoChainsHash solved (chainSlot 1 0 13804)
        (chainBranch twoChainsHash twoChains 1 0 13804)) 7 13804 = .ok () :=
  (honest_mining_accepted twoChainsHash false 7 13804 0 1 1 0 0 1 twoChains twoChainsBlock
    twoChainsTx [] (twoChainsTx.vin.headD ⟨⟨0, 0⟩, [], 0⟩) [] (by norm_num) (by decide) rfl rfl
    (by decide) (by decide) (by decide) (by decide)).2

end UmbrellaLtc.HonestMining
