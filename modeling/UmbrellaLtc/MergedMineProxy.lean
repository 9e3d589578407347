import UmbrellaLtc.Hex
import UmbrellaLtc.MerkleBranch
import UmbrellaLtc.Prog
import Mathlib.Data.Int.ModEq
import Mathlib.Data.List.TakeWhile

/-!
The script merged-mine-proxy: the size that it chooses for the chain merkle tree, the slots and
the tree of its aux blocks, the aux string that it announces, and the branches that it hands out.
Python's integers are integers, and an exception that is raised leaves the listener as it is by
then. The targets, which decide nothing of this, are left out.
-/

namespace UmbrellaLtc.MergedMineProxy

open Codec Transaction Header Merkle MergedMining HashTree MerkleBranch Hex

section Script

inductive PyError where
  | nameError (name : String)
  | unboundLocalError (name : String)
  | typeError
  | valueError (msg : String)
  | indexError
  | keyError
  | zeroDivisionError
deriving DecidableEq

def MERKLE_TREES_TO_KEEP : ℕ := 24

/-- What getauxblock of an aux chain returns; the hash comes as digits. -/
structure AuxBlock where
  hash : Uint256
  chainid : BitVec 32

/-- uint256::GetHex: the digits of the last byte first. -/
def getHex (h : Uint256) : List Char := encode (uint256Bytes h).reverse

structure Listener where
  chainIds : List (Option ℤ)
  merkleSize : ℕ
  merkleTreeQueue : List (List Char)
  merkleTrees : List (List Char × List (List Char))
deriving DecidableEq

/-- Listener.__init__ for so many aux chains. -/
def Listener.new (auxs merkleSize : ℕ) : Except PyError Listener :=
  if merkleSize > 255 then .error (.valueError "merkle size up to 255")
  else .ok ⟨List.replicate auxs none, merkleSize, [], []⟩

/-- The merkle size where none is given: `i` itself, and None where the loop finds nothing. -/
def defaultMerkleSize (auxs : ℕ) : Option ℕ := (List.range 8).find? fun i => auxs < 1 <<< i

/-- The listener that main starts; None is less than every number. -/
def main (auxs : ℕ) (merkleSize : Option ℕ) : Except PyError Listener :=
  match merkleSize.or (defaultMerkleSize auxs) with
  | none => .error (.valueError
      "the merkle size must be at least as large as the number of aux chains")
  | some merkleSize =>
      if auxs > merkleSize then .error (.valueError
        "the merkle size must be at least as large as the number of aux chains")
      else Listener.new auxs merkleSize

/-- `& 0xffffffff`. -/
def mask (x : ℤ) : ℤ := x % 2 ^ 32

def Listener.calcMerkleIndex (l : Listener) (chain : ℕ) : Except PyError ℕ :=
  match l.chainIds[chain]? with
  | none => .error .indexError
  | some none => .error .typeError
  | some (some chainId) =>
      let rand := mask (0 * 1103515245 + 12345)
      let rand := rand + chainId
      let rand := mask (rand * 1103515245 + 12345)
      if l.merkleSize = 0 then .error .zeroDivisionError else .ok (rand % l.merkleSize).toNat

/-- The loop of merkleBranch. The step halves each time, so it is fuel enough itself. -/
def branchSteps (merkleTree : List (List Char)) :
    ℕ → ℕ → ℕ → ℕ → Except PyError (List (List Char))
  | 0, _, _, _ => .ok []
  | fuel + 1, step, j, i1 =>
      if step > 1 then
        let i := min (i1 ^^^ 1) (step - 1)
        match merkleTree[i + j]? with
        | none => .error .indexError
        | some entry => do
            let rest ← branchSteps merkleTree fuel ((step + 1) / 2) (j + step) (i1 >>> 1)
            return entry :: rest
      else .ok []

def Listener.merkleBranch (l : Listener) (chainIndex : ℕ) (merkleTree : List (List Char)) :
    Except PyError (List (List Char)) :=
  branchSteps merkleTree l.merkleSize l.merkleSize 0 chainIndex

/-- What three names are bound to that the script uses and does not import:
`MerkleTree(leaves, detailed=True).detail`, and two functions of binascii. -/
structure Names where
  merkleTree : Option (List (List Byte) → List (List Byte))
  a2bHex : Option (List Char → Except PyError (List Byte))
  b2aHex : Option (List Byte → List Char)

def global {α : Type} (name : String) : Option α → Except PyError α
  | none => .error (.nameError name)
  | some a => .ok a

/-- `"%02x"`. -/
def hex02 (n : ℕ) : List Char :=
  if (Nat.toDigits 16 n).length < 2 then '0' :: Nat.toDigits 16 n else Nat.toDigits 16 n

/-- The leaves before the aux chains are asked. -/
def arbitraryLeaves (merkleSize : ℕ) : List (List Char) :=
  (List.range merkleSize).map fun x => List.replicate 63 '0' ++ hex02 x

/-- The tree of more than one leaf. -/
def detail (names : Names) (merkleLeaves : List (List Char)) :
    Except PyError (List (List Char)) := do
  let merkleTree ← global "MerkleTree" names.merkleTree
  let leaves ← merkleLeaves.mapM fun s => do
    let f ← global "a2b_hex" names.a2bHex
    let bytes ← f s
    return bytes.reverse
  (merkleTree leaves).mapM fun s => do
    let f ← global "b2a_hex" names.b2aHex
    return f s.reverse

/-- merkleTree and merkleRoot; the root is assigned in one of the branches only. -/
def treeAndRoot (names : Names) (merkleLeaves : List (List Char)) :
    Except PyError (List (List Char) × Option (List Char)) := do
  if merkleLeaves.length > 1 then
    let merkleTree ← detail names merkleLeaves
    return (merkleTree, none)
  else
    match merkleLeaves.getLast? with
    | none => .error .indexError
    | some merkleRoot => return (merkleLeaves, some merkleRoot)

/-- A read of the local variable merkleRoot. -/
def merkleRoot : Option (List Char) → Except PyError (List Char)
  | none => .error (.unboundLocalError "merkle_root")
  | some merkleRoot => .ok merkleRoot

/-- The oldest tree is forgotten where there are too many. -/
def forget (l : Listener) : Except PyError Listener :=
  if l.merkleTreeQueue.length > MERKLE_TREES_TO_KEEP then
    match l.merkleTreeQueue with
    | [] => .error .indexError
    | oldRoot :: queue =>
        if (l.merkleTrees.lookup oldRoot).isSome then
          .ok { l with
            merkleTreeQueue := queue
            merkleTrees := l.merkleTrees.filter fun item => item.1 ≠ oldRoot }
        else .error .keyError
  else .ok l

/-- A new tree is remembered under its root. -/
def remember (l : Listener) (merkleTree : List (List Char)) (merkleRoot : List Char) :
    Except PyError Listener :=
  if (l.merkleTrees.lookup merkleRoot).isSome then .ok l
  else forget { l with
    merkleTrees := l.merkleTrees ++ [(merkleRoot, merkleTree)]
    merkleTreeQueue := l.merkleTreeQueue ++ [merkleRoot] }

/-- An aux chain's block is put into its slot. -/
def askChain (merkleLeaves : List (List Char)) (x : AuxBlock × ℕ) :
    Prog Listener PyError (List (List Char)) := do
  Prog.act fun l => ((), { l with chainIds := l.chainIds.set x.2 (some x.1.chainid.toInt) })
  let l ← Prog.act fun l => (l, l)
  let chainMerkleIndex ← Prog.lift (l.calcMerkleIndex x.2)
  Prog.check (chainMerkleIndex < merkleLeaves.length) .indexError
  return merkleLeaves.set chainMerkleIndex (getHex x.1.hash)

/-- Listener.updateAuxs, where the aux chains answer with these blocks. -/
def updateAuxs (names : Names) (auxBlocks : List AuxBlock) : Prog Listener PyError Unit := do
  let l ← Prog.act fun l => (l, l)
  let merkleLeaves ← auxBlocks.zipIdx.foldlM askChain (arbitraryLeaves l.merkleSize)
  let tree ← Prog.lift (treeAndRoot names merkleLeaves)
  let merkleRoot ← Prog.lift (merkleRoot tree.2)
  let l ← Prog.act fun l => (l, l)
  let l ← Prog.lift (remember l tree.1 merkleRoot)
  Prog.act fun _ => ((), l)

/-- The aux string of rpc_getaux and of rpc_getwork: root, size and nonce. -/
def Listener.aux (l : Listener) : Except PyError (List Char) :=
  match l.merkleTreeQueue.getLast? with
  | none => .error .indexError
  | some merkleRoot =>
      .ok (merkleRoot ++ (hex02 l.merkleSize ++ List.replicate 6 '0') ++ List.replicate 8 '0')

/-- The listener after updateAuxs has been called with these answers, one call after another. -/
def updates (names : Names) (past : List (List AuxBlock)) (l : Listener) : Listener :=
  past.foldl (fun l auxBlocks => ((updateAuxs names auxBlocks).run l).2) l

end Script

/-! How the node reads what the proxy sends. -/

section Node

def isspace (c : Char) : Bool := c.isWhitespace || c.toNat = 11 || c.toNat = 12

/-- ParseHex, which stops at the first character that is no digit. -/
def parseHex : List Char → List Byte
  | [] => []
  | [_] => []
  | c :: d :: rest =>
      if isspace c then parseHex (d :: rest)
      else
        match digitValue c, digitValue d with
        | some x, some y => BitVec.ofNat 8 (16 * x + y) :: parseHex rest
        | _, _ => []

/-- uint256::SetHex. -/
def setHex (s : List Char) : Uint256 :=
  let psz := s.dropWhile isspace
  let psz := if psz.head? = some '0' ∧ (psz.tail.head?.map Char.toLower) = some 'x'
    then psz.drop 2 else psz
  BitVec.ofNat 256 (number (psz.takeWhile fun c => (digitValue c).isSome))

end Node

section Reading

theorem isspace_digit {n : ℕ} (h : n < 16) : isspace (digit n) = false := by
  have hall : ∀ n : Fin 16, isspace (digit n) = false := by decide
  exact hall ⟨n, h⟩

theorem toLower_digit_ne {n : ℕ} (h : n < 16) : (digit n).toLower ≠ 'x' := by
  have hall : ∀ n : Fin 16, (digit n).toLower ≠ 'x' := by decide
  exact hall ⟨n, h⟩

/-- ParseHex reads digits that were written, up to what follows them. -/
theorem parseHex_encode_append (bs : List Byte) (rest : List Char) :
    parseHex (encode bs ++ rest) = bs ++ parseHex rest := by
  induction bs with
  | nil => rfl
  | cons b bs ih =>
    have hspace := isspace_digit (by omega : b.toNat / 16 < 16)
    rw [encode_cons, List.cons_append, List.cons_append, parseHex, if_neg (by simp [hspace]),
      digitValue_high, digitValue_low]
    dsimp only
    rw [ih, byte_of_digits, List.cons_append]

theorem parseHex_encode (bs : List Byte) : parseHex (encode bs) = bs := by
  have hparse := parseHex_encode_append bs []
  rw [List.append_nil] at hparse
  rw [hparse]
  exact List.append_nil bs

/-- Digits that were written have no spaces in front. -/
theorem dropWhile_isspace_encode (bs : List Byte) :
    (encode bs).dropWhile isspace = encode bs := by
  cases bs with
  | nil => rfl
  | cons b bs =>
    rw [encode_cons, List.dropWhile_cons_of_neg]
    rw [isspace_digit (by omega)]
    exact Bool.false_ne_true

theorem encode_plain (bs : List Byte) :
    ¬ ((encode bs).head? = some '0' ∧ (encode bs).tail.head?.map Char.toLower = some 'x') := by
  intro ⟨_, hx⟩
  cases bs with
  | nil => cases hx
  | cons b bs => exact toLower_digit_ne (by omega) (Option.some.inj hx)

/-- SetHex reads what GetHex has written. -/
theorem setHex_getHex (h : Uint256) : setHex (getHex h) = h := by
  obtain ⟨bs, hbs⟩ : ∃ bs, bs = (uint256Bytes h).reverse := ⟨_, rfl⟩
  have hnumber : number (encode bs) = h.toNat := by
    rw [hbs, number_encode_reverse, uint256Bytes, ofLeBytes_leBytes]
    exact Nat.mod_eq_of_lt h.isLt
  have hall : (encode bs).takeWhile (fun c => (digitValue c).isSome) = encode bs :=
    List.takeWhile_eq_self_iff.mpr (isSome_digitValue_encode bs)
  have hget : getHex h = encode bs := by rw [hbs, getHex]
  unfold setHex
  rw [hget]
  dsimp only
  rw [dropWhile_isspace_encode, if_neg (encode_plain bs), hall, hnumber, BitVec.ofNat_toNat,
    BitVec.setWidth_eq]

theorem hex02_eq {n : ℕ} (h : n < 256) : hex02 n = encode [BitVec.ofNat 8 n] := by
  have hall : ∀ n : Fin 256, hex02 n = encode [BitVec.ofNat 8 n] := by decide +kernel
  exact hall ⟨n, h⟩

theorem leBytes_four {n : ℕ} (h : n < 256) : leBytes 4 n = [BitVec.ofNat 8 n, 0, 0, 0] := by
  have hzero : n / 256 = 0 := Nat.div_eq_of_lt h
  simp [leBytes, hzero]

/-- What the node finds in an aux string: the root from its last byte on, and two words. -/
theorem parseHex_aux (root : Uint256) {n : ℕ} (h : n < 256) :
    parseHex (getHex root ++ (hex02 n ++ List.replicate 6 '0') ++ List.replicate 8 '0') =
      AuxPow.vchRootHash root ++ (leBytes 4 n ++ leBytes 4 0) := by
  have hzeros : List.replicate 6 '0' ++ List.replicate 8 '0' = encode [0, 0, 0, 0, 0, 0, 0] := by
    decide
  have hdigits : getHex root ++ (hex02 n ++ List.replicate 6 '0') ++ List.replicate 8 '0' =
      encode ((uint256Bytes root).reverse ++ ([BitVec.ofNat 8 n] ++ [0, 0, 0, 0, 0, 0, 0])) := by
    rw [encode_append, encode_append, ← hzeros, ← hex02_eq h, getHex]
    simp only [List.append_assoc]
  rw [hdigits, parseHex_encode, AuxPow.vchRootHash, leBytes_four h, leBytes_four (by omega)]
  rfl

end Reading

/-! The slots, the tree and the branches. -/

section Trees

variable (Hash : List Byte → Uint256)

theorem toNat_slotRand (nChainID : BitVec 32) : (AuxPow.slotRand 0 nChainID).toNat =
    ((12345 + nChainID.toNat) * 1103515245 + 12345) % 2 ^ 32 := by
  have hzero : (0 * 1103515245 + 12345 : BitVec 32) = 12345 := by decide
  have hfirst : (12345 : BitVec 32).toNat = 12345 := by decide
  have hfactor : (1103515245 : BitVec 32).toNat = 1103515245 := by decide
  rw [AuxPow.slotRand, hzero, BitVec.toNat_add, BitVec.toNat_mul, BitVec.toNat_add, hfirst,
    hfactor]
  exact ((Nat.mod_modEq _ _).trans ((Nat.mod_modEq _ _).mul_right _)).add_right _

theorem mask_slotRand (nChainID : BitVec 32) :
    mask ((mask (0 * 1103515245 + 12345) + nChainID.toInt) * 1103515245 + 12345) =
      (AuxPow.slotRand 0 nChainID).toNat := by
  have hword : nChainID.toInt ≡ nChainID.toNat [ZMOD 2 ^ 32] := by
    rw [BitVec.toInt_eq_toNat_bmod]
    exact Int.bmod_emod
  have hfirst : mask (0 * 1103515245 + 12345) = 12345 := by decide
  have hmod := ((hword.add_left 12345).mul_right 1103515245).add_right 12345
  rw [toNat_slotRand, hfirst, mask, hmod]
  push_cast
  rfl

/-- calc_merkle_index gives the slot that the node computes for nonce 0. -/
theorem calcMerkleIndex_eq {l : Listener} {chain k : ℕ} {nChainID : BitVec 32} (hk : k ≤ 30)
    (hsize : l.merkleSize = 2 ^ k) (hid : l.chainIds[chain]? = some (some nChainID.toInt)) :
    l.calcMerkleIndex chain = .ok (HonestMining.chainSlot k 0 nChainID).toNat := by
  have hne : l.merkleSize ≠ 0 := by
    rw [hsize]
    exact (Nat.two_pow_pos k).ne'
  have hslot : (HonestMining.chainSlot k 0 nChainID).toNat =
      (((AuxPow.slotRand 0 nChainID).toNat : ℤ) % l.merkleSize).toNat := by
    rw [HonestMining.chainSlot, BitVec.toNat_umod, AuxPow.one_shiftLeft_toNat k hk, hsize,
      ← Int.natCast_mod, Int.toNat_natCast]
  simp only [Listener.calcMerkleIndex, hid, mask_slotRand, if_neg hne, hslot]

/-- The loop of merkle_branch reads what the node's loop reads. -/
theorem branchSteps_getHex (tree : List Uint256) (fuel step j i1 : ℕ) {entries : List Uint256}
    (h : branchLoopInt tree fuel step j i1 = some entries) :
    branchSteps (tree.map getHex) fuel step j i1 = .ok (entries.map getHex) := by
  induction fuel generalizing step j i1 entries with
  | zero =>
    cases h
    rfl
  | succ fuel ih =>
    unfold branchLoopInt at h
    unfold branchSteps
    split_ifs at h ⊢ with hmany
    · simp only [Option.bind_eq_bind, Option.bind_eq_some_iff] at h
      obtain ⟨otherside, hread, j', hj, rest, hrest, hentries⟩ := h
      cases hentries
      have hindex : tree[min (i1 ^^^ 1) (step - 1) + j]? = some otherside := by
        unfold readTree addInt at hread
        split_ifs at hread
        · rwa [Option.bind_some, Nat.add_comm] at hread
        · cases hread
      have hnext : j' = j + step := by
        unfold addInt at hj
        split_ifs at hj
        · exact (Option.some.inj hj).symm
      rw [hnext] at hrest
      dsimp only
      rw [List.getElem?_map, hindex, Option.map_some]
      dsimp only
      rw [Nat.shiftRight_one, ih _ _ _ hrest]
      rfl
    · cases h
      rfl

/-- The usual flattened tree over byte strings: the leaves, and level by level what is hashed
from pairs of them. -/
def flattened (leaves : List (List Byte)) : List (List Byte) :=
  let hashes := leaves.map fun bs => BitVec.ofNat 256 (ofLeBytes bs)
  (merkleLevels Hash hashes.length hashes 0 hashes.length).map uint256Bytes

/-- binascii.a2b_hex. -/
def a2bHex (s : List Char) : Except PyError (List Byte) := (decode s).elim (.error .typeError) .ok

/-- The three names, were they imported. -/
def imported : Names := ⟨some (flattened Hash), some a2bHex, some encode⟩

theorem mapM_eq_ok {ε α β : Type} {f : α → Except ε β} {g : α → β} {l : List α}
    (h : ∀ a ∈ l, f a = .ok (g a)) : l.mapM f = .ok (l.map g) := by
  induction l with
  | nil => rfl
  | cons a l ih =>
    rw [List.mapM_cons, h a List.mem_cons_self, ih fun b hb => h b (List.mem_cons_of_mem _ hb)]
    rfl

theorem ofLeBytes_uint256Bytes (h : Uint256) :
    BitVec.ofNat 256 (ofLeBytes (uint256Bytes h)) = h := by
  have hpow : (256 : ℕ) ^ 32 = 2 ^ 256 := by norm_num
  rw [uint256Bytes, ofLeBytes_leBytes, hpow, Nat.mod_eq_of_lt h.isLt, BitVec.ofNat_toNat,
    BitVec.setWidth_eq]

/-- The tree of leaves that are all hashes. -/
theorem detail_imported (hashes : List Uint256) :
    detail (imported Hash) (hashes.map getHex) =
      .ok ((merkleLevels Hash hashes.length hashes 0 hashes.length).map getHex) := by
  have hleaves : (hashes.map getHex).mapM (fun s => do
      let f ← global "a2b_hex" (imported Hash).a2bHex
      let bytes ← f s
      return bytes.reverse) =
        (.ok (((hashes.map getHex).map fun s => uint256Bytes (setHex s))) :
          Except PyError (List (List Byte))) := by
    refine mapM_eq_ok fun s hs => ?_
    obtain ⟨h, -, rfl⟩ := List.mem_map.mp hs
    rw [setHex_getHex]
    show (a2bHex (getHex h) >>= fun bytes => .ok bytes.reverse) = _
    unfold a2bHex getHex
    rw [decode_encode]
    show Except.ok (uint256Bytes h).reverse.reverse = _
    rw [List.reverse_reverse]
  have hsame : ((hashes.map getHex).map fun s => uint256Bytes (setHex s)).map
      (fun bs => BitVec.ofNat 256 (ofLeBytes bs)) = hashes := by
    rw [List.map_map, List.map_map]
    refine (List.map_congr_left fun h _ => ?_).trans (List.map_id hashes)
    simp only [Function.comp, setHex_getHex, ofLeBytes_uint256Bytes, id]
  unfold detail
  show ((hashes.map getHex).mapM (fun s => do
      let f ← global "a2b_hex" (imported Hash).a2bHex
      let bytes ← f s
      return bytes.reverse) >>= fun leaves => (flattened Hash leaves).mapM fun s => do
        let f ← global "b2a_hex" (imported Hash).b2aHex
        return f s.reverse) = _
  rw [hleaves]
  show (flattened Hash _).mapM _ = _
  rw [flattened, hsame]
  have hback : ∀ bs ∈ (merkleLevels Hash hashes.length hashes 0 hashes.length).map uint256Bytes,
      (do let f ← global "b2a_hex" (imported Hash).b2aHex
          return f bs.reverse : Except PyError (List Char)) = .ok (encode bs.reverse) := by
    intro bs _
    rfl
  rw [mapM_eq_ok hback, List.map_map]
  rfl

/-- Along the branch that merkle_branch gives for a slot the node comes to the root of the tree. -/
theorem merkleBranch_reaches {hashes : List Uint256} {k slot : ℕ} (hk : k ≤ 7)
    (hlen : hashes.length = 2 ^ k) {hash : Uint256} (hslot : hashes[slot]? = some hash)
    {l : Listener} (hsize : l.merkleSize = 2 ^ k) :
    ∃ (root : Uint256) (branch : List (List Char)),
      (merkleLevels Hash hashes.length hashes 0 hashes.length).getLast? = some root ∧
      l.merkleBranch slot ((merkleLevels Hash hashes.length hashes 0 hashes.length).map getHex) =
        .ok branch ∧
      branch.length = k ∧
      checkMerkleBranch Hash hash (branch.map setHex) (BitVec.ofNat 32 slot) = root := by
  obtain ⟨hlt, -⟩ := List.getElem?_eq_some_iff.mp hslot
  have hpow : 2 ^ k ≤ 2 ^ 7 := Nat.pow_le_pow_right (by omega) hk
  have hpos : 0 < hashes.length := by omega
  have hlevel := MerkleRoot.level_zero Hash hashes
  have hheight : height hashes.length = k := by rw [hlen, height_two_pow]
  have htree := HonestMining.merkleLevels_levelsFrom Hash (MerkleRoot.leafOf hashes) hashes.length
    hpos k hashes.length [] 0 (by rw [hheight, Nat.zero_add]) (by rw [width_zero])
  have hshort := levelsFrom_length_lt Hash (MerkleRoot.leafOf hashes) hashes.length k 0 7
    (by rw [hheight, Nat.zero_add]) (by rw [width_zero]; omega)
  have hloop := branchLoopInt_eq Hash (MerkleRoot.leafOf hashes) hashes.length hpos k
    hashes.length [] 0 slot (by rw [hheight, Nat.zero_add]) (by rw [width_zero])
    (by rwa [width_zero]) (by rw [List.length_nil]; omega)
  have hlast := MerkleRoot.merkleLevels_last Hash (MerkleRoot.leafOf hashes) hashes.length hpos
    hashes.length [] 0 (Nat.zero_le _) (by rw [width_zero])
  rw [← htree, hlevel, width_zero] at hloop
  rw [hlevel, width_zero] at hlast
  have hleaf : MerkleRoot.leafOf hashes slot = hash := by
    rw [MerkleRoot.leafOf, List.getD_eq_getElem?_getD, hslot]
    rfl
  have hclimb := @climb_root _ (pairHash Hash) (MerkleRoot.leafOf hashes) hashes.length slot hlt
  have hindex : (BitVec.ofNat 32 slot).toNat = slot := by
    rw [BitVec.toNat_ofNat]
    omega
  rw [hheight, hleaf] at hclimb
  refine ⟨_, (branch (pairHash Hash) (MerkleRoot.leafOf hashes) hashes.length k 0 slot).map getHex,
    hlast, ?_, ?_, ?_⟩
  · rw [Listener.merkleBranch, hsize, ← hlen]
    exact branchSteps_getHex _ _ _ _ _ hloop
  · rw [List.length_map, branch_length]
  · have hback : setHex ∘ getHex = id := funext setHex_getHex
    rw [List.map_map, hback, List.map_id,
      HonestMining.checkMerkleBranch_eq Hash _ _ _ (by omega), hindex, hclimb]

end Trees

/-! What the proxy promises, over its runs. -/

section Runs

variable (Hash : List Byte → Uint256)

/-- A proof from the parent chain: its coinbase commits to the aux data, once and with the root
right behind the magic, and the chain's slot and branch are those that the proxy has given. -/
structure Carries (aux : List Byte) (slot : ℕ) (branch : List Uint256) (nChainID : BitVec 32)
    (p : CAuxPow) : Prop where
  index : p.aux.nIndex = 0
  chain : p.parentBlockHeader.fields.getChainID ≠ nChainID.toInt
  slot : p.aux.nChainIndex = BitVec.ofNat 32 slot
  branch : p.aux.vChainMerkleBranch = branch
  parent : checkMerkleBranch Hash (p.aux.tx.getHash Hash) p.aux.vMerkleBranch 0 =
    p.parentBlockHeader.fields.hashMerkleRoot
  script : ∃ txin vin pre, p.aux.tx.vin = txin :: vin ∧
    txin.scriptSig = pre ++ (AuxPow.pchMergedMiningHeader ++ aux) ∧
    (HonestMining.occurrences AuxPow.pchMergedMiningHeader txin.scriptSig).length = 1 ∧
    ∀ i ∈ HonestMining.occurrences AuxPow.pchMergedMiningHeader txin.scriptSig,
      (HonestMining.occurrences (aux.take 32) txin.scriptSig).head? = some (i + 4)

/-- What the proxy announces is the root of a tree that it remembers, over the aux blocks of one
call, and for each of them the slot and the branch that it gives lead to that root and make a
proof that is accepted. -/
def Agrees (past : List (List AuxBlock)) (l : Listener) : Prop :=
  ∃ aux root merkleTree auxBlocks, l.aux = .ok aux ∧
    parseHex aux = AuxPow.vchRootHash root ++ (leBytes 4 l.merkleSize ++ leBytes 4 0) ∧
    l.merkleTrees.lookup (getHex root) = some merkleTree ∧ auxBlocks ∈ past ∧
    ∀ (chain : ℕ) (b : AuxBlock), auxBlocks[chain]? = some b →
      ∃ slot branch, l.calcMerkleIndex chain = .ok slot ∧
        merkleTree[slot]? = some (getHex b.hash) ∧ l.merkleBranch slot merkleTree = .ok branch ∧
        checkMerkleBranch Hash b.hash (branch.map setHex) (BitVec.ofNat 32 slot) = root ∧
        ∀ fTestNet p, Carries Hash (parseHex aux) slot (branch.map setHex) b.chainid p →
          AuxPow.check Hash fTestNet p b.hash b.chainid = .ok ()

/-- The slots of the chains are different ones. -/
def Apart (k : ℕ) (auxBlocks : List AuxBlock) : Prop :=
  (auxBlocks.map fun b => (HonestMining.chainSlot k 0 b.chainid).toNat).Nodup

instance (k : ℕ) (auxBlocks : List AuxBlock) : Decidable (Apart k auxBlocks) :=
  inferInstanceAs (Decidable (List.Nodup _))

/-- What a call that fails on its way leaves as it is. -/
structure SameTrees (l l' : Listener) : Prop where
  queue : l'.merkleTreeQueue = l.merkleTreeQueue
  size : l'.merkleSize = l.merkleSize

instance : IsPreorder Listener SameTrees where
  refl _ := ⟨Eq.refl _, Eq.refl _⟩
  trans _ _ _ hst htu := ⟨htu.queue.trans hst.queue, htu.size.trans hst.size⟩

theorem askChain_sameTrees (merkleLeaves : List (List Char)) (x : AuxBlock × ℕ) :
    Prog.Within SameTrees (askChain merkleLeaves x) := by
  refine Prog.within_bind (fun l => ⟨rfl, rfl⟩) fun _ => ?_
  refine Prog.within_bind (fun l => ⟨rfl, rfl⟩) fun l => ?_
  refine Prog.within_bind (Prog.within_lift _) fun chainMerkleIndex => ?_
  exact Prog.within_bind (Prog.within_check _ _) fun _ => Prog.within_pure _

theorem length_askChain (merkleLeaves : List (List Char)) (x : AuxBlock × ℕ) (l : Listener) :
    Prog.Holds (askChain merkleLeaves x) l
      (fun leaves _ => leaves.length = merkleLeaves.length) (fun _ => True) := by
  refine Prog.holds_bind (Prog.holds_act _ (Prog.holds_bind (Prog.holds_act _ ?_)))
  refine Prog.holds_bind (Prog.holds_lift (fun chainMerkleIndex _ => ?_) fun _ _ => trivial)
  refine Prog.holds_check (fun _ => trivial) fun _ => ?_
  exact Prog.holds_pure _ List.length_set

theorem run_read (l : Listener) :
    (Prog.act fun l => (l, l) : Prog Listener PyError Listener).run l = (.ok l, l) := rfl

/-- With more leaves than one no root is assigned. -/
theorem treeAndRoot_many {names : Names} {merkleLeaves : List (List Char)}
    (h : 1 < merkleLeaves.length) {tree : List (List Char) × Option (List Char)}
    (htree : treeAndRoot names merkleLeaves = .ok tree) : tree.2 = none := by
  unfold treeAndRoot at htree
  rw [if_pos h] at htree
  rcases hdetail : detail names merkleLeaves with e | merkleTree
  · rw [hdetail] at htree
    cases htree
  · rw [hdetail] at htree
    cases htree
    rfl

/-- A call in a tree of more than one leaf remembers nothing. -/
theorem updateAuxs_sameTrees (names : Names) (auxBlocks : List AuxBlock) {l : Listener}
    (hmany : 1 < l.merkleSize) : SameTrees l ((updateAuxs names auxBlocks).run l).2 := by
  have hwithin := Prog.within_foldlM askChain_sameTrees auxBlocks.zipIdx
    (arbitraryLeaves l.merkleSize) l
  have hlength := Prog.holds_foldlM (f := askChain)
    (fun _ leaves _ => leaves.length = l.merkleSize)
    (fun x _ leaves l hleaves => (length_askChain leaves x l).mono
      (fun leaves' _ h => h.trans hleaves) fun _ h => h)
    auxBlocks.zipIdx (arbitraryLeaves l.merkleSize) l (by simp [arbitraryLeaves])
  unfold updateAuxs
  rw [Prog.run_bind_ok (run_read l)]
  rcases hask : (auxBlocks.zipIdx.foldlM askChain (arbitraryLeaves l.merkleSize)).run l with
    ⟨e | merkleLeaves, l'⟩
  · rw [hask] at hwithin
    rw [Prog.run_bind_error hask]
    exact hwithin
  · rw [hask] at hwithin
    have hleaves := hlength.of_ok hask
    rw [Prog.run_bind_ok hask]
    rcases htree : treeAndRoot names merkleLeaves with e | tree
    · rw [Prog.run_bind_error (Prog.run_lift _ _)]
      exact hwithin
    · rw [Prog.run_bind_ok (Prog.run_lift _ _),
        treeAndRoot_many (by omega : 1 < merkleLeaves.length) htree]
      exact hwithin

theorem updates_cons (names : Names) (auxBlocks : List AuxBlock) (past : List (List AuxBlock))
    (l : Listener) : updates names (auxBlocks :: past) l =
      updates names past ((updateAuxs names auxBlocks).run l).2 := rfl

theorem updates_sameTrees (names : Names) (past : List (List AuxBlock)) {l : Listener}
    (hmany : 1 < l.merkleSize) : SameTrees l (updates names past l) := by
  induction past generalizing l with
  | nil => exact refl l
  | cons auxBlocks past ih =>
    have hstep := updateAuxs_sameTrees names auxBlocks hmany
    rw [updates_cons]
    exact IsTrans.trans _ _ _ hstep (ih (by rw [hstep.size]; exact hmany))

/-- One chain in a tree of one leaf: the trees that are remembered, in the order of the queue. -/
structure Single (past : List (List AuxBlock)) (l : Listener) : Prop where
  size : l.merkleSize = 1
  ids : l.chainIds.length = 1
  keys : l.merkleTrees.map Prod.fst = l.merkleTreeQueue
  nodup : l.merkleTreeQueue.Nodup
  trees : ∀ item ∈ l.merkleTrees, ∃ b, [b] ∈ past ∧ item = (getHex b.hash, [getHex b.hash])

theorem Single.mem_queue_iff {past : List (List AuxBlock)} {l : Listener} (hl : Single past l)
    (key : List Char) : (l.merkleTrees.lookup key).isSome ↔ key ∈ l.merkleTreeQueue := by
  rw [List.lookup_isSome_iff, ← hl.keys, List.mem_map]
  constructor
  · rintro ⟨item, hitem, hkey⟩
    exact ⟨item, hitem, (eq_of_beq hkey).symm⟩
  · rintro ⟨item, hitem, rfl⟩
    exact ⟨item, hitem, beq_self_eq_true _⟩

theorem Single.lookup {past : List (List AuxBlock)} {l : Listener} (hl : Single past l)
    {key : List Char} (hkey : key ∈ l.merkleTreeQueue) :
    ∃ b, [b] ∈ past ∧ key = getHex b.hash ∧
      l.merkleTrees.lookup key = some [getHex b.hash] := by
  obtain ⟨tree, htree⟩ := Option.isSome_iff_exists.mp ((hl.mem_queue_iff key).mpr hkey)
  obtain ⟨_, _, hsplit, -⟩ := List.lookup_eq_some_iff.mp htree
  obtain ⟨b, hb, hitem⟩ := hl.trees (key, tree) (by rw [hsplit]; simp)
  obtain ⟨rfl, rfl⟩ := Prod.mk.inj hitem
  exact ⟨b, hb, rfl, htree⟩

/-- The oldest root is among the trees, and what is left is not empty. -/
theorem Single.forget {past : List (List AuxBlock)} {l : Listener} (hl : Single past l)
    (hne : l.merkleTreeQueue ≠ []) :
    ∃ l', forget l = .ok l' ∧ Single past l' ∧ l'.merkleTreeQueue ≠ [] ∧
      l'.chainIds = l.chainIds := by
  unfold MergedMineProxy.forget
  split_ifs with hmany
  · obtain ⟨oldRoot, queue, hqueue⟩ := List.exists_cons_of_ne_nil hne
    have hsome := (hl.mem_queue_iff oldRoot).mpr (by rw [hqueue]; exact List.mem_cons_self)
    have hnodup := hl.nodup
    rw [hqueue] at hnodup hmany ⊢
    obtain ⟨hnot, hrest⟩ := List.nodup_cons.mp hnodup
    dsimp only
    rw [if_pos hsome]
    refine ⟨_, rfl, ⟨hl.size, hl.ids, ?_, hrest, fun item hitem => ?_⟩, ?_, rfl⟩
    · have hfilter : (l.merkleTrees.filter fun item => item.1 ≠ oldRoot).map Prod.fst =
          (l.merkleTrees.map Prod.fst).filter fun key => key ≠ oldRoot := by
        rw [List.filter_map]
        rfl
      show (l.merkleTrees.filter fun item => item.1 ≠ oldRoot).map Prod.fst = queue
      rw [hfilter, hl.keys, hqueue, List.filter_cons_of_neg (by simp), List.filter_eq_self]
      intro key hkey
      refine decide_eq_true fun heq => ?_
      rw [heq] at hkey
      exact hnot hkey
    · exact hl.trees item (List.mem_of_mem_filter hitem)
    · rintro rfl
      simp [MERKLE_TREES_TO_KEEP] at hmany
  · exact ⟨l, rfl, hl, hne, rfl⟩

theorem Single.remember {past : List (List AuxBlock)} {l : Listener} (hl : Single past l)
    {b : AuxBlock} (hb : [b] ∈ past) :
    ∃ l', remember l [getHex b.hash] (getHex b.hash) = .ok l' ∧ Single past l' ∧
      l'.merkleTreeQueue ≠ [] ∧ l'.chainIds = l.chainIds := by
  unfold MergedMineProxy.remember
  split_ifs with hknown
  · exact ⟨l, rfl, hl, List.ne_nil_of_mem ((hl.mem_queue_iff _).mp hknown), rfl⟩
  · have hnew : getHex b.hash ∉ l.merkleTreeQueue := fun hmem =>
      hknown ((hl.mem_queue_iff _).mpr hmem)
    refine Single.forget ⟨hl.size, hl.ids, ?_, ?_, fun item hitem => ?_⟩ (by simp)
    · show (l.merkleTrees ++ [(getHex b.hash, [getHex b.hash])]).map Prod.fst = _
      rw [List.map_append, hl.keys]
      rfl
    · exact List.Nodup.append hl.nodup (List.nodup_singleton _)
        (List.disjoint_singleton.mpr hnew)
    · rcases List.mem_append.mp hitem with hold | hlast
      · exact hl.trees item hold
      · exact ⟨b, hb, List.mem_singleton.mp hlast⟩

/-- A call in a run of one chain. -/
theorem Single.updateAuxs (names : Names) {past : List (List AuxBlock)} {l : Listener}
    (hl : Single past l) (b : AuxBlock) :
    Single (past ++ [[b]]) ((updateAuxs names [b]).run l).2 ∧
      ((updateAuxs names [b]).run l).2.merkleTreeQueue ≠ [] ∧
      ((updateAuxs names [b]).run l).2.chainIds = [some b.chainid.toInt] := by
  obtain ⟨chainId, hids⟩ := List.length_eq_one_iff.mp hl.ids
  have hset : Single (past ++ [[b]]) { l with chainIds := [some b.chainid.toInt] } :=
    ⟨hl.size, rfl, hl.keys, hl.nodup, fun item hitem => by
      obtain ⟨b', hb', hitem'⟩ := hl.trees item hitem
      exact ⟨b', List.mem_append_left _ hb', hitem'⟩⟩
  obtain ⟨l', hremember, hl', hne, hids'⟩ := hset.remember (b := b)
    (List.mem_append_right _ (List.mem_singleton.mpr rfl))
  have hindex : ({ l with chainIds := [some b.chainid.toInt] } : Listener).calcMerkleIndex 0 =
      .ok 0 := by
    have hlt := @HonestMining.chainSlot_lt 0 0 b.chainid (by omega)
    refine (@calcMerkleIndex_eq { l with chainIds := [some b.chainid.toInt] } 0 0 b.chainid
      (by omega) hl.size rfl).trans ?_
    rw [Nat.lt_one_iff.mp hlt]
  have hask : (askChain (arbitraryLeaves l.merkleSize) (b, 0)).run l =
      (.ok [getHex b.hash], { l with chainIds := [some b.chainid.toInt] }) := by
    have hids' : l.chainIds.set 0 (some b.chainid.toInt) = [some b.chainid.toInt] := by
      rw [hids]
      rfl
    have hfirst : (Prog.act fun l => ((), { l with
        chainIds := l.chainIds.set 0 (some b.chainid.toInt) }) :
          Prog Listener PyError Unit).run l =
        (.ok (), { l with chainIds := [some b.chainid.toInt] }) := by
      rw [← hids']
      rfl
    rw [askChain, Prog.run_bind_ok hfirst, Prog.run_bind_ok (run_read _),
      Prog.run_bind_ok (by rw [Prog.run_lift, hindex]), hl.size]
    rfl
  have hrun : (MergedMineProxy.updateAuxs names [b]).run l = (.ok (), l') := by
    have hfold : ([b].zipIdx.foldlM askChain (arbitraryLeaves l.merkleSize)).run l =
        (.ok [getHex b.hash], { l with chainIds := [some b.chainid.toInt] }) := by
      rw [List.zipIdx_singleton, List.foldlM_cons, Prog.run_bind_ok hask]
      rfl
    rw [MergedMineProxy.updateAuxs, Prog.run_bind_ok (run_read _), Prog.run_bind_ok hfold,
      Prog.run_bind_ok (show (Prog.lift (treeAndRoot names [getHex b.hash])).run _ =
        (.ok ([getHex b.hash], some (getHex b.hash)), _) from rfl)]
    dsimp only
    rw [Prog.run_bind_ok (show (Prog.lift (merkleRoot (some (getHex b.hash)))).run _ =
        (.ok (getHex b.hash), _) from rfl), Prog.run_bind_ok (run_read _),
      Prog.run_bind_ok (by rw [Prog.run_lift, hremember])]
    rfl
  rw [hrun]
  exact ⟨hl', hne, hids'⟩

/-- The listener of one chain after its calls, of which there was one at least. -/
theorem updates_single (names : Names) (blocks : List AuxBlock) {past : List (List AuxBlock)}
    {l : Listener} (hl : Single past l) (hne : blocks ≠ []) :
    Single (past ++ blocks.map fun b => [b]) (updates names (blocks.map fun b => [b]) l) ∧
      (updates names (blocks.map fun b => [b]) l).merkleTreeQueue ≠ [] ∧
      ∃ b : AuxBlock,
        (updates names (blocks.map fun b => [b]) l).chainIds = [some b.chainid.toInt] := by
  induction blocks generalizing past l with
  | nil => exact absurd rfl hne
  | cons b blocks ih =>
    obtain ⟨hstep, hqueue, hids⟩ := hl.updateAuxs names b
    cases hblocks : blocks with
    | nil => exact ⟨hstep, hqueue, b, hids⟩
    | cons b' rest =>
      have hrest := ih hstep (by rw [hblocks]; exact List.cons_ne_nil _ _)
      rw [hblocks, List.append_assoc, List.singleton_append] at hrest
      rw [List.map_cons, updates_cons]
      exact hrest

/-- With one chain in a tree of one leaf, what the proxy announces is accepted. -/
theorem Single.agrees {past : List (List AuxBlock)} {l : Listener} (hl : Single past l)
    (hne : l.merkleTreeQueue ≠ []) (hids : ∃ b : AuxBlock, l.chainIds = [some b.chainid.toInt]) :
    Agrees Hash past l := by
  obtain ⟨latest, hids⟩ := hids
  have hlast := List.getLast?_eq_some_getLast hne
  obtain ⟨b, hb, hkey, htree⟩ := hl.lookup (List.getLast_mem hne)
  have haux : l.aux = .ok (getHex b.hash ++ (hex02 1 ++ List.replicate 6 '0') ++
      List.replicate 8 '0') := by
    rw [Listener.aux, hlast, hkey, hl.size]
  have hparse := parseHex_aux b.hash (by norm_num : 1 < 256)
  rw [hkey] at htree
  refine ⟨_, b.hash, [getHex b.hash], [b], haux, by rw [hparse, hl.size], htree, hb, ?_⟩
  intro chain b' hchain
  obtain rfl : chain = 0 := by
    have hlt := (List.getElem?_eq_some_iff.mp hchain).1
    rwa [List.length_singleton, Nat.lt_one_iff] at hlt
  obtain rfl : b = b' := Option.some.inj hchain
  have hslot : ∀ nChainID : BitVec 32, (HonestMining.chainSlot 0 0 nChainID).toNat = 0 :=
    fun nChainID => Nat.lt_one_iff.mp (HonestMining.chainSlot_lt (by omega))
  have hindex := @calcMerkleIndex_eq l 0 0 latest.chainid (by omega) hl.size (by rw [hids]; rfl)
  have hbranch : l.merkleBranch 0 [getHex b.hash] = .ok [] := by
    rw [Listener.merkleBranch, hl.size]
    rfl
  rw [hslot] at hindex
  refine ⟨0, [], hindex, rfl, hbranch, rfl, fun fTestNet p hp => ?_⟩
  obtain ⟨txin, vin, pre, hvin, hscript, honce, hroot⟩ := hp.script
  have hleafRoot : HonestMining.chainRoot Hash (fun _ => b.hash) 0 = b.hash := by
    show root (pairHash Hash) (fun _ => b.hash) 1 = b.hash
    rfl
  have htake : (AuxPow.vchRootHash b.hash ++ (leBytes 4 1 ++ leBytes 4 0)).take 32 =
      AuxPow.vchRootHash b.hash := List.take_left' (AuxPow.vchRootHash_length b.hash)
  rw [hparse] at hscript hroot
  rw [htake] at hroot
  refine @HonestMining.check_of_parts Hash (fun _ => b.hash) 0 0 b.chainid p fTestNet txin vin pre
    (by omega) hp.index hp.chain (hp.branch.trans rfl) ?_ hp.parent hvin ?_ honce ?_
  · rw [hp.slot]
    refine BitVec.eq_of_toNat_eq ?_
    rw [hslot]
    rfl
  · rw [hleafRoot]
    exact hscript
  · rw [hleafRoot]
    exact hroot

theorem main_ok {n k : ℕ} {l : Listener} (h : main n (some (2 ^ k)) = .ok l) :
    n ≤ 2 ^ k ∧ l = ⟨List.replicate n none, 2 ^ k, [], []⟩ := by
  unfold main Listener.new at h
  rw [Option.some_or] at h
  dsimp only at h
  split_ifs at h with hsmall hbig
  exact ⟨Nat.le_of_not_lt hsmall, (Except.ok.inj h).symm⟩

theorem map_singleton_flatten {α : Type} {ls : List (List α)} (h : ∀ l ∈ ls, l.length = 1) :
    ls.flatten.map (fun a => [a]) = ls := by
  induction ls with
  | nil => rfl
  | cons l ls ih =>
    obtain ⟨a, rfl⟩ := List.length_eq_one_iff.mp (h l List.mem_cons_self)
    rw [List.flatten_cons, List.map_append, ih fun l' hl' => h l' (List.mem_cons_of_mem _ hl')]
    rfl

/-- The number of bits is below a number of chains from three on. -/
theorem defaultMerkleSize_small {n : ℕ} (hlow : 3 ≤ n) (hhigh : n ≤ 127) :
    (defaultMerkleSize n).getD 0 < n := by
  have hall : ∀ n : Fin 128, 3 ≤ n.val → (defaultMerkleSize n).getD 0 < n := by decide
  exact hall ⟨n, by omega⟩ hlow

/-- The default size is a power of two that is large enough up to two chains and no further, and
the announced tree and its proofs are right where the tree has one leaf and nowhere else, under
every binding of the names. The slots and the branches themselves are what the node computes. -/
theorem proxy_agrees_iff (Hash : List Byte → Uint256) :
    (∀ n, 1 ≤ n → n ≤ 127 → ((∃ i, defaultMerkleSize n = some (2 ^ i) ∧ n ≤ 2 ^ i) ↔ n ≤ 2)) ∧
      (∀ (names : Names) (n k : ℕ) (l : Listener) (past : List (List AuxBlock)), 1 ≤ n →
        main n (some (2 ^ k)) = .ok l → past ≠ [] →
        (∀ auxBlocks ∈ past, auxBlocks.length = n ∧ Apart k auxBlocks) →
        (Agrees Hash past (updates names past l) ↔ k = 0)) ∧
      (∀ (l : Listener) (chain k : ℕ) (nChainID : BitVec 32), k ≤ 7 → l.merkleSize = 2 ^ k →
        l.chainIds[chain]? = some (some nChainID.toInt) →
        l.calcMerkleIndex chain = .ok (HonestMining.chainSlot k 0 nChainID).toNat) ∧
      (∀ (hashes : List Uint256) (k slot : ℕ) (hash : Uint256) (l : Listener), k ≤ 7 →
        hashes.length = 2 ^ k → hashes[slot]? = some hash → l.merkleSize = 2 ^ k →
        ∃ tree root branch, detail (imported Hash) (hashes.map getHex) = .ok tree ∧
          tree.getLast? = some (getHex root) ∧ l.merkleBranch slot tree = .ok branch ∧
          branch.length = k ∧
          checkMerkleBranch Hash hash (branch.map setHex) (BitVec.ofNat 32 slot) = root) := by
  refine ⟨?_, ?_, fun l chain k nChainID hk => calcMerkleIndex_eq (by omega), ?_⟩
  · intro n hlow hhigh
    constructor
    · rintro ⟨i, hsize, hfits⟩
      by_contra hmany
      have hsmall := defaultMerkleSize_small (by omega : 3 ≤ n) hhigh
      rw [hsize, Option.getD_some] at hsmall
      omega
    · intro hfew
      obtain rfl | rfl : n = 1 ∨ n = 2 := by omega
      · exact ⟨0, by decide, by decide⟩
      · exact ⟨1, by decide, by decide⟩
  · intro names n k l past hn hmain hne hpast
    obtain ⟨hfits, rfl⟩ := main_ok hmain
    constructor
    · intro hagrees
      by_contra hk
      obtain ⟨aux, root, merkleTree, auxBlocks, haux, -⟩ := hagrees
      have hmany : 1 < 2 ^ k := Nat.one_lt_two_pow hk
      have hqueue := (@updates_sameTrees names past ⟨List.replicate n none, 2 ^ k, [], []⟩
        hmany).queue
      rw [Listener.aux, hqueue] at haux
      cases haux
    · rintro rfl
      obtain rfl : n = 1 := by omega
      obtain ⟨blocks, rfl⟩ : ∃ blocks : List AuxBlock, past = blocks.map fun b => [b] :=
        ⟨past.flatten, (map_singleton_flatten fun l hl => (hpast l hl).1).symm⟩
      have hstart : Single [] ⟨List.replicate 1 none, 2 ^ 0, [], []⟩ :=
        ⟨rfl, rfl, rfl, List.nodup_nil, fun item hitem => absurd hitem List.not_mem_nil⟩
      obtain ⟨hl, hqueue, hids⟩ := updates_single names blocks hstart fun h => hne (by rw [h]; rfl)
      exact hl.agrees Hash hqueue hids
  · intro hashes k slot hash l hk hlen hslot hsize
    obtain ⟨root, branch, hroot, hbranch, hcount, hcheck⟩ :=
      merkleBranch_reaches Hash hk hlen hslot hsize
    refine ⟨_, root, branch, detail_imported Hash hashes, ?_, hbranch, hcount, hcheck⟩
    rw [List.getLast?_map, hroot]
    rfl

theorem proxy_agrees_iff_one :
    Agrees (fun _ => 0) [[⟨5, 7⟩]] (updates ⟨none, none, none⟩ [[⟨5, 7⟩]] ⟨[none], 1, [], []⟩) ∧
      ¬ Agrees (fun _ => 0) [[⟨5, 7⟩, ⟨6, 8⟩]]
        (updates (imported fun _ => 0) [[⟨5, 7⟩, ⟨6, 8⟩]] ⟨[none, none], 2, [], []⟩) := by
  have h := (proxy_agrees_iff fun _ => 0).2.1
  constructor
  · refine (h ⟨none, none, none⟩ 1 0 ⟨[none], 1, [], []⟩ [[⟨5, 7⟩]] (by decide) (by decide)
      (List.cons_ne_nil _ _) ?_).mpr rfl
    intro auxBlocks hblocks
    rw [List.mem_singleton.mp hblocks]
    exact ⟨rfl, List.nodup_singleton _⟩
  · intro hagrees
    refine absurd ((h (imported fun _ => 0) 2 1 ⟨[none, none], 2, [], []⟩ [[⟨5, 7⟩, ⟨6, 8⟩]]
      (by decide) (by decide) (List.cons_ne_nil _ _) ?_).mp hagrees) (by decide)
    intro auxBlocks hblocks
    rw [List.mem_singleton.mp hblocks]
    exact ⟨rfl, by decide⟩

/-- Three chains get the size two, with which the script does not start. Two chains get a tree,
whose root is asked for and was not assigned. -/
theorem two_chains_unannounced :
    defaultMerkleSize 3 = some 2 ∧
      main 3 none = .error (.valueError
        "the merkle size must be at least as large as the number of aux chains") ∧
      main 2 none = .ok ⟨[none, none], 2, [], []⟩ ∧ Apart 1 [⟨5, 7⟩, ⟨6, 8⟩] ∧
      ((updateAuxs (imported fun _ => 0) [⟨5, 7⟩, ⟨6, 8⟩]).run ⟨[none, none], 2, [], []⟩).1 =
        .error (.unboundLocalError "merkle_root") ∧
      (updates (imported fun _ => 0) [[⟨5, 7⟩, ⟨6, 8⟩]] ⟨[none, none], 2, [], []⟩).aux =
        .error .indexError := by
  refine ⟨by decide, by decide, by decide, by decide, by decide,
    by decide⟩

end Runs

end UmbrellaLtc.MergedMineProxy
