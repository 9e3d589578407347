import UmbrellaLtc.Header
import UmbrellaLtc.Merkle
import UmbrellaLtc.Guards

/-!
CAuxPow::Check, from auxpow.cpp. Iterators into the coinbase script are offsets
from its start, and the end iterator is its length. Each access that the
machine does not check is one that may fault here: the element of vin, moving
an iterator, the two words read after the root, the shift and the modulus.
-/

namespace UmbrellaLtc.AuxPow

open Codec Transaction Header Merkle Guards

inductive Fault where
  | vin
  | iterator
  | read
  | shift
  | modulus
deriving DecidableEq

/-- How Check ends when it does not return true: it logs an error and returns
false, or it does something undefined. -/
inductive Stop where
  | error (msg : String)
  | fault (f : Fault)
deriving DecidableEq

def pchMergedMiningHeader : List Byte := [0xfa, 0xbe, 0x6d, 0x6d]

/-- The offset of the first place where `pat` stands, or the length. -/
def find (pat : List Byte) : List Byte → ℕ
  | [] => 0
  | b :: bs => if pat.isPrefixOf (b :: bs) then 0 else find pat bs + 1

/-- `std::search(script.begin() + first, script.end(), pat.begin(), pat.end())`. -/
def search (script : CScript) (first : ℕ) (pat : List Byte) : Except Stop ℕ := do
  require (first ≤ script.length) (.fault .iterator)
  return first + find pat (script.drop first)

def advance (script : CScript) (pc n : ℕ) : Except Stop ℕ := do
  require (pc + n ≤ script.length) (.fault .iterator)
  return pc + n

/-- The four bytes from `pc` on as a little-endian word. -/
def wordAt (script : CScript) (pc : ℕ) : BitVec 32 :=
  BitVec.ofNat 32 (ofLeBytes ((script.drop pc).take 4))

/-- `memcpy(&n, &pc[0], 4)`. -/
def readWord (script : CScript) (pc : ℕ) : Except Stop (BitVec 32) := do
  require (pc + 4 ≤ script.length) (.fault .read)
  return wordAt script pc

/-- `1 << n` for an `int`. -/
def shiftOne (n : ℕ) : Except Stop (BitVec 32) := do
  require (n < 31) (.fault .shift)
  return (1 : BitVec 32) <<< n

def modulo (a n : BitVec 32) : Except Stop (BitVec 32) := do
  require (n ≠ 0) (.fault .modulus)
  return a % n

/-- The pseudo-random number that chooses the slot in the chain merkle tree. -/
def slotRand (nNonce nChainID : BitVec 32) : BitVec 32 :=
  let rand := nNonce
  let rand := rand * 1103515245 + 12345
  let rand := rand + nChainID
  rand * 1103515245 + 12345

def vchRootHash (nRootHash : Uint256) : List Byte := (uint256Bytes nRootHash).reverse

/-- Where the root must stand in the coinbase; the result is the iterator to it. -/
def checkRootPosition (script : CScript) (root : List Byte) : Except Stop ℕ := do
  let pcHead ← search script 0 pchMergedMiningHeader
  let pc ← search script 0 root
  require (pcHead ≠ script.length)
    (.error "MergedMiningHeader missing from parent coinbase")
  require (pc ≠ script.length)
    (.error "Aux POW missing chain merkle root in parent coinbase")
  if pcHead ≠ script.length then
    let second ← advance script pcHead 1
    let again ← search script second pchMergedMiningHeader
    require (script.length = again)
      (.error "Multiple merged mining headers in coinbase")
    let next ← advance script pcHead pchMergedMiningHeader.length
    require (next = pc)
      (.error "Merged mining header is not just before chain merkle root")
    return pc
  else
    -- the branch for backward compatibility, after a test that excludes it
    require (pc ≤ 20)
      (.error "Aux POW chain merkle root must start in the first 20 bytes of the parent coinbase")
    return pc

/-- The size and nonce words after the root, and the slot they give. -/
def checkSlot (script : CScript) (pc branchLength : ℕ) (nChainIndex nChainID : BitVec 32) :
    Except Stop Unit := do
  require (8 ≤ script.length - pc)
    (.error "Aux POW missing chain merkle tree size and nonce in parent coinbase")
  let nSize ← readWord script pc
  let size ← shiftOne branchLength
  require (nSize = size)
    (.error "Aux POW merkle branch size does not match parent coinbase")
  let nNonce ← readWord script (pc + 4)
  let slot ← modulo (slotRand nNonce nChainID) nSize
  require (nChainIndex = slot) (.error "Aux POW wrong index")

/-- CAuxPow::Check. -/
def check (Hash : List Byte → Uint256) (fTestNet : Bool) (p : CAuxPow) (hashAuxBlock : Uint256)
    (nChainID : BitVec 32) : Except Stop Unit := do
  require (p.aux.nIndex = 0) (.error "AuxPow is not a generate")
  require (fTestNet = true ∨ p.parentBlockHeader.fields.getChainID ≠ nChainID.toInt)
    (.error "Aux POW parent has our chain ID")
  require (p.aux.vChainMerkleBranch.length ≤ 30)
    (.error "Aux POW chain merkle branch too long")
  let nRootHash :=
    checkMerkleBranch Hash hashAuxBlock p.aux.vChainMerkleBranch p.aux.nChainIndex
  let root := vchRootHash nRootHash
  require (checkMerkleBranch Hash (p.aux.tx.getHash Hash) p.aux.vMerkleBranch p.aux.nIndex =
      p.parentBlockHeader.fields.hashMerkleRoot) (.error "Aux POW merkle root incorrect")
  match p.aux.tx.vin with
  | [] => .error (.fault .vin)
  | txin :: _ =>
    let script := txin.scriptSig
    let pc ← checkRootPosition script root
    let pc ← advance script pc root.length
    checkSlot script pc p.aux.vChainMerkleBranch.length p.aux.nChainIndex nChainID

theorem find_le (pat s : List Byte) : find pat s ≤ s.length := by
  induction s with
  | nil => simp [find]
  | cons b bs ih =>
    unfold find
    split_ifs with hpre
    · exact Nat.zero_le _
    · simp only [List.length_cons]
      omega

/-- A search that does not come to the end stops where the pattern stands. -/
theorem find_spec (pat s : List Byte) (h : find pat s < s.length) :
    pat <+: s.drop (find pat s) := by
  induction s with
  | nil => simp [find] at h
  | cons b bs ih =>
    by_cases hpre : pat.isPrefixOf (b :: bs) = true
    · simp only [find, hpre, if_true, List.drop_zero]
      exact List.isPrefixOf_iff_prefix.mp hpre
    · simp only [find, hpre, Bool.false_eq_true, if_false, List.length_cons] at h ⊢
      rw [List.drop_succ_cons]
      exact ih (by omega)

theorem find_found (pat s : List Byte) (h : find pat s ≠ s.length) :
    (s.drop (find pat s)).take pat.length = pat ∧ find pat s + pat.length ≤ s.length := by
  have hle := find_le pat s
  have hpre := find_spec pat s (by omega)
  have hlen := hpre.length_le
  rw [List.length_drop] at hlen
  exact ⟨(List.prefix_iff_eq_take.mp hpre).symm, by omega⟩

theorem vchRootHash_length (root : Uint256) : (vchRootHash root).length = 32 := by
  rw [vchRootHash, List.length_reverse, uint256Bytes_length]

theorem vchRootHash_inj {g h : Uint256} (heq : vchRootHash g = vchRootHash h) : g = h :=
  uint256Bytes_inj (List.reverse_injective heq)

theorem search_zero (script : CScript) (pat : List Byte) :
    search script 0 pat = .ok (find pat script) := by
  simp [search, require, bind, Except.bind, pure, Except.pure]

/-- The offset of the root that the first header magic of a script prescribes. -/
def rootOffset (script : CScript) : ℕ :=
  find pchMergedMiningHeader script + pchMergedMiningHeader.length

theorem advance_ok (script : CScript) (pc n next : ℕ) (h : advance script pc n = .ok next) :
    next = pc + n ∧ next ≤ script.length := by
  simp only [advance, require_ok_iff, pure, Except.pure, Except.ok.injEq] at h
  omega

theorem readWord_ok (script : CScript) (pc : ℕ) (n : BitVec 32)
    (h : readWord script pc = .ok n) : n = wordAt script pc := by
  simp only [readWord, require_ok_iff, pure, Except.pure, Except.ok.injEq] at h
  exact h.2.symm

/-- A root that is accepted stands right after the first header magic. -/
theorem checkRootPosition_ok (script : CScript) (root : List Byte) (pc : ℕ)
    (h : checkRootPosition script root = .ok pc) :
    pc = rootOffset script ∧ (script.drop pc).take root.length = root ∧
      pc + root.length ≤ script.length := by
  simp only [checkRootPosition, search_zero, seq_ok_iff, ↓require_ok_iff] at h
  obtain ⟨pcHead, hHead, pc', hpc, hmagic, hroot, hrest⟩ := h
  cases hHead
  cases hpc
  rw [if_pos hmagic] at hrest
  simp only [seq_ok_iff, ↓require_ok_iff] at hrest
  obtain ⟨-, -, -, -, -, next, hnext, heq, hret⟩ := hrest
  cases hret
  obtain ⟨hfound, hlen⟩ := find_found root script hroot
  have hoff := (advance_ok script _ _ next hnext).1
  exact ⟨by rw [rootOffset, ← hoff, heq], hfound, hlen⟩

/-- What the script says about a chain merkle tree: the root after the magic, the
size and nonce after the root, and the slot that they give. -/
structure Commits (script : CScript) (root : Uint256) (height : ℕ)
    (nChainIndex nChainID : BitVec 32) : Prop where
  root_eq : (script.drop (rootOffset script)).take 32 = vchRootHash root
  height_le : height ≤ 30
  size_eq : wordAt script (rootOffset script + 32) = (1 : BitVec 32) <<< height
  index_eq : nChainIndex =
    slotRand (wordAt script (rootOffset script + 36)) nChainID % (1 : BitVec 32) <<< height

theorem checkSlot_ok (script : CScript) (pc height : ℕ) (nChainIndex nChainID : BitVec 32)
    (h : checkSlot script pc height nChainIndex nChainID = .ok ()) :
    wordAt script pc = (1 : BitVec 32) <<< height ∧
      nChainIndex = slotRand (wordAt script (pc + 4)) nChainID % (1 : BitVec 32) <<< height := by
  unfold checkSlot at h
  simp only [seq_ok_iff, ↓require_ok_iff] at h
  obtain ⟨-, nSize, hsize, size, hshift, heq, nNonce, hnonce, slot, hslot, hindex⟩ := h
  simp only [shiftOne, modulo, require_ok_iff, pure, Except.pure, Except.ok.injEq] at hshift hslot
  have hindex : nChainIndex = slot := by
    by_contra hne
    simp [require, hne] at hindex
  rw [readWord_ok script pc nSize hsize] at heq hslot
  rw [readWord_ok script (pc + 4) nNonce hnonce, heq, ← hshift.2] at hslot
  exact ⟨heq.trans hshift.2.symm, hindex.trans hslot.2.symm⟩

/-- A proof that is accepted has an input, and its script commits to the root that
the aux hash and the chain merkle branch give. -/
theorem check_ok (Hash : List Byte → Uint256) (fTestNet : Bool) (p : CAuxPow)
    (hashAuxBlock : Uint256) (nChainID : BitVec 32)
    (h : check Hash fTestNet p hashAuxBlock nChainID = .ok ()) :
    ∃ txin rest, p.aux.tx.vin = txin :: rest ∧
      Commits txin.scriptSig
        (checkMerkleBranch Hash hashAuxBlock p.aux.vChainMerkleBranch p.aux.nChainIndex)
        p.aux.vChainMerkleBranch.length p.aux.nChainIndex nChainID := by
  simp only [check, ↓require_ok_iff] at h
  obtain ⟨-, -, hheight, -, hvin⟩ := h
  cases hinputs : p.aux.tx.vin with
  | nil =>
    rw [hinputs] at hvin
    cases hvin
  | cons txin rest =>
    rw [hinputs] at hvin
    simp only [seq_ok_iff] at hvin
    obtain ⟨pc, hpos, next, hnext, hslot⟩ := hvin
    obtain ⟨hpc, hroot, -⟩ := checkRootPosition_ok _ _ pc hpos
    have hnext := (advance_ok _ _ _ next hnext).1
    rw [vchRootHash_length] at hroot hnext
    obtain ⟨hsize, hindex⟩ := checkSlot_ok _ _ _ _ _ hslot
    rw [hnext, hpc] at hsize hindex
    rw [hpc] at hroot
    exact ⟨txin, rest, rfl, hroot, hheight, hsize, hindex⟩

theorem one_shiftLeft_toNat (k : ℕ) (hk : k ≤ 30) : ((1 : BitVec 32) <<< k).toNat = 2 ^ k := by
  have hpow : 2 ^ k ≤ 2 ^ 30 := Nat.pow_le_pow_right (by norm_num) hk
  have hone : (1 : BitVec 32).toNat = 1 := rfl
  rw [BitVec.toNat_shiftLeft, Nat.shiftLeft_eq, hone]
  omega

/-- A slot is an index into at most 2^30 leaves, never the index -1. -/
theorem Commits.index_ne {script : CScript} {root : Uint256} {height : ℕ}
    {nChainIndex nChainID : BitVec 32}
    (h : Commits script root height nChainIndex nChainID) :
    nChainIndex ≠ BitVec.allOnes 32 := by
  intro hall
  have hsize := one_shiftLeft_toNat height h.height_le
  have hpow : 2 ^ height ≤ 2 ^ 30 := Nat.pow_le_pow_right (by norm_num) h.height_le
  have hlt : nChainIndex.toNat < 2 ^ height := by
    rw [h.index_eq, BitVec.toNat_umod, hsize]
    exact Nat.mod_lt _ (by positivity)
  rw [hall, BitVec.toNat_allOnes] at hlt
  omega

/-- One script commits to one root, one size and one slot. -/
theorem Commits.unique {script : CScript} {root1 root2 : Uint256} {height1 height2 : ℕ}
    {index1 index2 nChainID : BitVec 32}
    (h1 : Commits script root1 height1 index1 nChainID)
    (h2 : Commits script root2 height2 index2 nChainID) :
    root1 = root2 ∧ height1 = height2 ∧ index1 = index2 := by
  have hroot : root1 = root2 := vchRootHash_inj (h1.root_eq.symm.trans h2.root_eq)
  have hpow : 2 ^ height1 = 2 ^ height2 := by
    rw [← one_shiftLeft_toNat height1 h1.height_le, ← one_shiftLeft_toNat height2 h2.height_le,
      ← h1.size_eq, h2.size_eq]
  have hheight : height1 = height2 := Nat.pow_right_injective (le_refl 2) hpow
  refine ⟨hroot, hheight, ?_⟩
  rw [h1.index_eq, h2.index_eq, hheight]

/-- Merged-mining work cannot be reused: two proofs with one coinbase script that
are accepted for one chain are accepted for one block. The pair hash is asked
to be injective on the strings that the two branch walks hash. -/
theorem check_same_script (Hash : List Byte → Uint256) (fTestNet : Bool) (p1 p2 : CAuxPow)
    (h1 h2 : Uint256) (nChainID : BitVec 32) (in1 in2 : CTxIn) (rest1 rest2 : List CTxIn)
    (hvin1 : p1.aux.tx.vin = in1 :: rest1) (hvin2 : p2.aux.tx.vin = in2 :: rest2)
    (hscript : in1.scriptSig = in2.scriptSig)
    (hinj : ∀ x ∈ branchBytes Hash h1 p1.aux.vChainMerkleBranch p1.aux.nChainIndex,
      ∀ y ∈ branchBytes Hash h2 p2.aux.vChainMerkleBranch p2.aux.nChainIndex,
        Hash x = Hash y → x = y)
    (hcheck1 : check Hash fTestNet p1 h1 nChainID = .ok ())
    (hcheck2 : check Hash fTestNet p2 h2 nChainID = .ok ()) : h1 = h2 := by
  obtain ⟨txin1, _, htx1, hc1⟩ := check_ok Hash fTestNet p1 h1 nChainID hcheck1
  obtain ⟨txin2, _, htx2, hc2⟩ := check_ok Hash fTestNet p2 h2 nChainID hcheck2
  rw [hvin1] at htx1
  rw [hvin2] at htx2
  obtain ⟨rfl, -⟩ := List.cons.inj htx1
  obtain ⟨rfl, -⟩ := List.cons.inj htx2
  rw [hscript] at hc1
  obtain ⟨hroot, hheight, hindex⟩ := hc1.unique hc2
  rw [checkMerkleBranch, if_neg hc1.index_ne, checkMerkleBranch, if_neg hc2.index_ne,
    hindex] at hroot
  rw [hindex] at hinj
  exact foldBranch_inj Hash _ _ h1 h2 _ hheight hinj hroot

/-- A chain merkle tree of two leaves, ours on the left, committed to in a coinbase. -/
def coinbaseScript : CScript :=
  pchMergedMiningHeader ++
    vchRootHash 0xbf9ed11ae9c3c19edcf6391946f85823437226a10563bcef969a84aa792bd082 ++
    leBytes 4 2 ++ leBytes 4 0

def coinbaseTx (nLockTime : BitVec 32) : CTransaction :=
  ⟨1, [⟨⟨0, BitVec.allOnes 32⟩, coinbaseScript, BitVec.allOnes 32⟩], [], nLockTime⟩

/-- The double SHA-256 on the three strings that the two calls hash. -/
def digests (bs : List Byte) : Uint256 :=
  if bs = pairBytes 7 9 then
    0xbf9ed11ae9c3c19edcf6391946f85823437226a10563bcef969a84aa792bd082
  else if bs = CTransaction.codec.write (coinbaseTx 0) then
    0xf83b475c933c7c7a63b853d74a649ee81f4013884d3d0993c21627d43f6f63d1
  else if bs = CTransaction.codec.write (coinbaseTx 1) then
    0x280a8f7eea1d98ba880dd25c0cf7a69e1a87c44b205ca54b9c5a880895f78c91
  else 0

/-- A proof whose parent block has the coinbase as its only transaction. -/
def coinbaseProof (nLockTime : BitVec 32) : CAuxPow :=
  ⟨⟨coinbaseTx nLockTime, 0, [], 0, [9], 0⟩,
    .plain ⟨1, 0, digests (CTransaction.codec.write (coinbaseTx nLockTime)), 0, 0, 0⟩⟩

/-- Two parent blocks with the same commitment. -/
theorem check_same_script_two_parents :
    coinbaseProof 0 ≠ coinbaseProof 1 ∧
      check digests false (coinbaseProof 0) 7 13804 = .ok () ∧
      check digests false (coinbaseProof 1) 7 13804 = .ok () ∧ (7 : Uint256) = 7 := by
  have h0 : check digests false (coinbaseProof 0) 7 13804 = .ok () := by decide +kernel
  have h1 : check digests false (coinbaseProof 1) 7 13804 = .ok () := by decide +kernel
  refine ⟨by decide +kernel, h0, h1, ?_⟩
  refine check_same_script digests false (coinbaseProof 0) (coinbaseProof 1) 7 7 13804 _ _ _ _
    rfl rfl rfl ?_ h0 h1
  intro x hx y hy _
  rw [List.mem_singleton.mp hx, List.mem_singleton.mp hy]
  rfl

/-- Undefined behaviour, as opposed to a logged error. -/
def isFault : Stop → Prop
  | .error _ => False
  | .fault _ => True

theorem not_isFault_error (msg : String) : ¬ isFault (.error msg) := id

theorem checkRootPosition_safe (script : CScript) (root : List Byte) :
    Never isFault (checkRootPosition script root) := by
  unfold checkRootPosition
  rw [search_zero, search_zero]
  refine never_guard (not_isFault_error _) fun hmagic => ?_
  refine never_guard (not_isFault_error _) fun hroot => ?_
  rw [if_pos hmagic]
  have hlen := (find_found _ _ hmagic).2
  have hmagicLen : pchMergedMiningHeader.length = 4 := rfl
  refine never_bind (never_of_holds (by omega) (never_ok _)) fun second hsecond => ?_
  have hsecond := (advance_ok _ _ _ _ hsecond).2
  refine never_bind (never_of_holds hsecond (never_ok _)) fun again _ => ?_
  refine never_guard (not_isFault_error _) fun _ => ?_
  refine never_bind (never_of_holds hlen (never_ok _)) fun next _ => ?_
  exact never_guard (not_isFault_error _) fun _ => never_ok _

theorem checkSlot_safe (script : CScript) (pc height : ℕ) (nChainIndex nChainID : BitVec 32)
    (hheight : height ≤ 30) :
    Never isFault (checkSlot script pc height nChainIndex nChainID) := by
  unfold checkSlot
  refine never_guard (not_isFault_error _) fun hroom => ?_
  refine never_bind (never_of_holds (by omega) (never_ok _)) fun nSize _ => ?_
  refine never_bind (never_of_holds (by omega) (never_ok _)) fun size hsize => ?_
  refine never_guard (not_isFault_error _) fun heq => ?_
  refine never_bind (never_of_holds (by omega) (never_ok _)) fun nNonce _ => ?_
  have hne : nSize ≠ 0 := by
    intro hzero
    have hpow := one_shiftLeft_toNat height hheight
    simp only [shiftOne, require_ok_iff, pure, Except.pure, Except.ok.injEq] at hsize
    rw [hsize.2, ← heq, hzero] at hpow
    exact absurd hpow (Nat.ne_of_lt (by positivity))
  exact never_bind (never_of_holds hne (never_ok _)) fun slot _ =>
    never_require _ (not_isFault_error _)

/-- Check is safe exactly when it does not come to the coinbase script of a
transaction that has no input: every access behind that one is guarded. -/
theorem check_safe_iff (Hash : List Byte → Uint256) (fTestNet : Bool) (p : CAuxPow)
    (hashAuxBlock : Uint256) (nChainID : BitVec 32) :
    (∀ f, check Hash fTestNet p hashAuxBlock nChainID ≠ .error (.fault f)) ↔
      ¬ (p.aux.tx.vin = [] ∧ p.aux.nIndex = 0 ∧
        (fTestNet = true ∨ p.parentBlockHeader.fields.getChainID ≠ nChainID.toInt) ∧
        p.aux.vChainMerkleBranch.length ≤ 30 ∧
        checkMerkleBranch Hash (p.aux.tx.getHash Hash) p.aux.vMerkleBranch p.aux.nIndex =
          p.parentBlockHeader.fields.hashMerkleRoot) := by
  constructor
  · rintro hsafe ⟨hvin, hindex, hchain, hlen, hroot⟩
    refine hsafe .vin ?_
    unfold check
    simp only [require_error_iff, hvin]
    exact Or.inr ⟨hindex, Or.inr ⟨hchain, Or.inr ⟨hlen, Or.inr ⟨hroot, trivial⟩⟩⟩⟩
  · intro hguard
    suffices hnever : Never isFault (check Hash fTestNet p hashAuxBlock nChainID) from
      fun f => hnever (.fault f) trivial
    unfold check
    refine never_guard (not_isFault_error _) fun hindex => ?_
    refine never_guard (not_isFault_error _) fun hchain => ?_
    refine never_guard (not_isFault_error _) fun hlen => ?_
    refine never_guard (not_isFault_error _) fun hroot => ?_
    cases hvin : p.aux.tx.vin with
    | nil => exact absurd ⟨hvin, hindex, hchain, hlen, hroot⟩ hguard
    | cons txin rest =>
      refine never_bind (checkRootPosition_safe _ _) fun pc hpc => ?_
      have hroom := (checkRootPosition_ok _ _ pc hpc).2.2
      refine never_bind (never_of_holds hroom (never_ok _)) fun next _ => ?_
      exact checkSlot_safe _ _ _ _ _ hlen

/-- A proof whose transaction has no inputs and is alone in the parent block. -/
def noInputProof : CAuxPow :=
  ⟨⟨CTransaction.null, 0, [], 0, [], 0⟩,
    .plain ⟨1, 0, 0xd21633ba23f70118185227be58a63527675641ad37967e2aa461559f577aec43, 0, 0, 0⟩⟩

def noInputBytes : List Byte :=
  AuxFields.codec.write noInputProof.aux ++
    HeaderFields.codec.write noInputProof.parentBlockHeader.fields

/-- The double SHA-256 of the transaction without inputs and outputs. -/
def emptyTxDigest (bs : List Byte) : Uint256 :=
  if bs = CTransaction.codec.write CTransaction.null then
    0xd21633ba23f70118185227be58a63527675641ad37967e2aa461559f577aec43
  else 0

/-- The proof can be read from a stream, and Check reads vin[0] of an empty vector. -/
theorem check_reads_empty_vin :
    CAuxPow.unserialize noInputBytes = some (noInputProof, []) ∧
      check emptyTxDigest false noInputProof 7 13804 = .error (.fault .vin) := by
  constructor
  · have hbit : noInputProof.parentBlockHeader.fields.isAuxPow = false := by decide
    have hread := CAuxPow.unserialize_serialize noInputProof
      (HeaderFields.codec.write noInputProof.parentBlockHeader.fields) []
      (AuxFields.good_of_empty 0 0 0) rfl hbit (CBlockHeader.fields_good _)
    rwa [List.append_nil] at hread
  · decide +kernel

end UmbrellaLtc.AuxPow
