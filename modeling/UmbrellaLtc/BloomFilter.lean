import UmbrellaLtc.Solver
import UmbrellaLtc.Runs

/-!
The Bloom filter of bloom.cpp with MurmurHash3, and the messages by which a peer loads its filter,
adds to it and clears it. A modulus by zero, an access outside of vData and one outside of the
solutions of Solver are `none`. The keys that have been inserted since the filter was loaded are
recorded beside it, for the statement that none of them is missed.
-/

namespace UmbrellaLtc.BloomFilter

open Codec Transaction Script ScriptOps EvalScript Solver Runs

section Murmur

def ROTL32 (x : BitVec 32) (r : ℕ) : BitVec 32 := x <<< r ||| x >>> (32 - r)

def mix (k1 : BitVec 32) : BitVec 32 := ROTL32 (k1 * 0xcc9e2d51) 15 * 0x1b873593

/-- The tail of less than four bytes. -/
def murmurTail (h1 : BitVec 32) : List Byte → BitVec 32
  | [b0, b1, b2] =>
      h1 ^^^ mix (b2.setWidth 32 <<< 16 ^^^ b1.setWidth 32 <<< 8 ^^^ b0.setWidth 32)
  | [b0, b1] => h1 ^^^ mix (b1.setWidth 32 <<< 8 ^^^ b0.setWidth 32)
  | [b0] => h1 ^^^ mix (b0.setWidth 32)
  | _ => h1

def murmurBody (h1 : BitVec 32) : List Byte → BitVec 32
  | b0 :: b1 :: b2 :: b3 :: rest =>
      let k1 := BitVec.ofNat 32 (ofLeBytes [b0, b1, b2, b3])
      murmurBody (ROTL32 (h1 ^^^ mix k1) 13 * 5 + 0xe6546b64) rest
  | tail => murmurTail h1 tail

/-- MurmurHash3. -/
def murmurHash3 (nHashSeed : BitVec 32) (vDataToHash : List Byte) : BitVec 32 :=
  let h1 := murmurBody nHashSeed vDataToHash ^^^ BitVec.ofNat 32 vDataToHash.length
  let h1 := (h1 ^^^ h1 >>> 16) * 0x85ebca6b
  let h1 := (h1 ^^^ h1 >>> 13) * 0xc2b2ae35
  h1 ^^^ h1 >>> 16

end Murmur

section Filter

def MAX_BLOOM_FILTER_SIZE : ℕ := 36000
def MAX_HASH_FUNCS : ℕ := 50

def BLOOM_UPDATE_ALL : Byte := 1
def BLOOM_UPDATE_P2PUBKEY_ONLY : Byte := 2
def BLOOM_UPDATE_MASK : Byte := 3

structure CBloomFilter where
  vData : List Byte
  isFull : Bool
  isEmpty : Bool
  nHashFuncs : BitVec 32
  nTweak : BitVec 32
  nFlags : Byte
deriving DecidableEq

def bit_mask : List Byte := [0x01, 0x02, 0x04, 0x08, 0x10, 0x20, 0x40, 0x80]

/-- `vData[nIndex >> 3] |= bit_mask[7 & nIndex]`. -/
def setBit (vData : List Byte) (nIndex : ℕ) : Option (List Byte) := do
  let b ← vData[nIndex >>> 3]?
  let mask ← bit_mask[7 &&& nIndex]?
  return vData.set (nIndex >>> 3) (b ||| mask)

/-- `vData[nIndex >> 3] & bit_mask[7 & nIndex]`. -/
def getBit (vData : List Byte) (nIndex : ℕ) : Option Bool := do
  let b ← vData[nIndex >>> 3]?
  let mask ← bit_mask[7 &&& nIndex]?
  return b &&& mask != 0

namespace CBloomFilter

variable (f : CBloomFilter)

/-- CBloomFilter::Hash. -/
def hash (nHashNum : ℕ) (vDataToHash : List Byte) : Option ℕ :=
  let nBits := f.vData.length * 8
  if nBits = 0 then none
  else some ((murmurHash3 (BitVec.ofNat 32 nHashNum * 0xFBA4C795 + f.nTweak) vDataToHash).toNat %
    nBits)

/-- A round of the loop of `insert`. -/
def setHash (vKey : List Byte) (f : CBloomFilter) (i : ℕ) : Option CBloomFilter := do
  let nIndex ← f.hash i vKey
  let vData ← setBit f.vData nIndex
  return { f with vData := vData }

def insert (vKey : List Byte) : Option CBloomFilter :=
  if f.isFull then some f
  else do
    let f ← (List.range f.nHashFuncs.toNat).foldlM (setHash vKey) f
    return { f with isEmpty := false }

/-- A round of the loop of `contains`. -/
def testHash (vKey : List Byte) (i : ℕ) : Option Bool := do
  let nIndex ← f.hash i vKey
  getBit f.vData nIndex

def contains (vKey : List Byte) : Option Bool :=
  if f.isFull then some true
  else if f.isEmpty then some false
  else (List.range f.nHashFuncs.toNat).allM (f.testHash vKey)

def isWithinSizeConstraints : Bool :=
  f.vData.length ≤ MAX_BLOOM_FILTER_SIZE && f.nHashFuncs.toNat ≤ MAX_HASH_FUNCS

def updateEmptyFull : CBloomFilter :=
  { f with isFull := f.vData.all (· == 0xff), isEmpty := f.vData.all (· == 0) }

/-- The loop over the operands of a script, up to the first one that is contained. -/
def matchScript : ℕ → CScript → Option Bool
  | 0, _ => some false
  | fuel + 1, pc =>
      match getOp2 pc with
      | none => some false
      | some (_, data, pc) =>
          if data.length = 0 then matchScript fuel pc
          else do
            let fMatch ← f.contains data
            if fMatch then return true else matchScript fuel pc

/-- Whether a match in this output is followed by an insertion. -/
def updates (scriptPubKey : CScript) : Option Bool :=
  if f.nFlags &&& BLOOM_UPDATE_MASK = BLOOM_UPDATE_ALL then some true
  else if f.nFlags &&& BLOOM_UPDATE_MASK = BLOOM_UPDATE_P2PUBKEY_ONLY then do
    let (fRet, type, _) ← solver scriptPubKey []
    return fRet && (type == .pubkey || type == .multisig)
  else some false

end CBloomFilter

/-- The keys of an outpoint and of a hash. -/
def outPointKey (o : COutPoint) : List Byte := COutPoint.codec.write o

/-- What has been found while the outputs are scanned, with the filter, and the keys that have gone
into it. -/
structure Scan where
  fFound : Bool
  filter : CBloomFilter
  inserted : List (List Byte)

/-- A round of the loop over the outputs. -/
def matchOutput (hash : Uint256) (s : Scan) (out : CTxOut × ℕ) : Option Scan := do
  let scriptPubKey := out.1.scriptPubKey
  let fMatch ← s.filter.matchScript scriptPubKey.length scriptPubKey
  if fMatch then do
    let fUpdate ← s.filter.updates scriptPubKey
    if fUpdate then do
      let key := outPointKey ⟨hash, BitVec.ofNat 32 out.2⟩
      let filter ← s.filter.insert key
      return ⟨true, filter, s.inserted ++ [key]⟩
    else return { s with fFound := true }
  else return s

/-- A round of the loop over the inputs. -/
def matchInput (f : CBloomFilter) (txin : CTxIn) : Option Bool := do
  let fMatch ← f.contains (outPointKey txin.prevout)
  if fMatch then return true
  else f.matchScript txin.scriptSig.length txin.scriptSig

/-- CBloomFilter::IsRelevantAndUpdate: its answer, the filter, and the keys that it inserts. -/
def CBloomFilter.isRelevantAndUpdate (f : CBloomFilter) (tx : CTransaction) (hash : Uint256) :
    Option (Bool × CBloomFilter × List (List Byte)) :=
  if f.isFull then some (true, f, [])
  else if f.isEmpty then some (false, f, [])
  else do
    let fFound ← f.contains (uint256Bytes hash)
    let s ← tx.vout.zipIdx.foldlM (matchOutput hash) ⟨fFound, f, []⟩
    if s.fFound then return (true, s.filter, s.inserted)
    else do
      let fRelevant ← tx.vin.anyM (matchInput s.filter)
      return (fRelevant, s.filter, s.inserted)

end Filter

section Messages

/-- What a peer's messages about its filter change. `inserted` is what has gone into the filter since
it was loaded. -/
structure CNode where
  pfilter : Option CBloomFilter
  fRelayTxes : Bool
  isLocal : Bool
  nMisbehavior : ℤ
  inserted : List (List Byte)

/-- `new CBloomFilter()`, which sets isFull; vData is empty, and the other members are what the memory
holds. -/
def CBloomFilter.new (memory : CBloomFilter) : CBloomFilter :=
  { memory with vData := [], isFull := true }

inductive Event where
  | filterload (vRecv : List Byte)
  | filteradd (vRecv : List Byte)
  | filterclear (memory : CBloomFilter)
  | isRelevantAndUpdate (tx : CTransaction) (hash : Uint256)

/-- `IMPLEMENT_SERIALIZE` of the filter. -/
def filterCodec : Codec (List Byte × BitVec 32 × BitVec 32 × Byte) :=
  (vector uchar).pair (uint32.pair (uint32.pair uchar))

namespace CNode

/-- The constructor. -/
def new (memory : CBloomFilter) (isLocal : Bool) : CNode := ⟨some (.new memory), false, isLocal, 0, []⟩

variable (pfrom : CNode)

/-- The score of Misbehaving. -/
def misbehaving (howmuch : ℤ) : CNode :=
  if pfrom.isLocal then pfrom else { pfrom with nMisbehavior := pfrom.nMisbehavior + howmuch }

/-- What reading throws at leaves the node as it is. -/
def filterload (vRecv : List Byte) : CNode :=
  match filterCodec.read vRecv with
  | none => pfrom
  | some ((vData, nHashFuncs, nTweak, nFlags), _) =>
      let filter : CBloomFilter := ⟨vData, true, true, nHashFuncs, nTweak, nFlags⟩
      let pfrom := if !filter.isWithinSizeConstraints then pfrom.misbehaving 100
        else { pfrom with pfilter := some filter.updateEmptyFull, inserted := [] }
      { pfrom with fRelayTxes := true }

def filteradd (vRecv : List Byte) : Option CNode :=
  match (vector uchar).read vRecv with
  | none => some pfrom
  | some (vData, _) =>
      if vData.length > MAX_SCRIPT_ELEMENT_SIZE then some (pfrom.misbehaving 100)
      else match pfrom.pfilter with
        | none => some (pfrom.misbehaving 100)
        | some pfilter => do
            let pfilter ← pfilter.insert vData
            return { pfrom with pfilter := some pfilter, inserted := pfrom.inserted ++ [vData] }

def filterclear (memory : CBloomFilter) : CNode :=
  { pfrom with pfilter := some (.new memory), fRelayTxes := true }

/-- A transaction that is offered to the peer. -/
def offer (tx : CTransaction) (hash : Uint256) : Option CNode :=
  match pfrom.pfilter with
  | none => some pfrom
  | some pfilter => do
      let (_, pfilter, keys) ← pfilter.isRelevantAndUpdate tx hash
      return { pfrom with pfilter := some pfilter, inserted := pfrom.inserted ++ keys }

/-- Without fBloomFilters the messages disconnect the peer. -/
def step (fBloomFilters : Bool) (pfrom : CNode) (event : Event) : Option CNode :=
  match event with
  | .filterload vRecv => some (if fBloomFilters then pfrom.filterload vRecv else pfrom)
  | .filteradd vRecv => if fBloomFilters then pfrom.filteradd vRecv else some pfrom
  | .filterclear memory => some (if fBloomFilters then pfrom.filterclear memory else pfrom)
  | .isRelevantAndUpdate tx hash => pfrom.offer tx hash

end CNode

end Messages

section Bits

variable {vData : List Byte} {nIndex : ℕ}

theorem exists_byte (h : nIndex < vData.length * 8) : ∃ b, vData[nIndex >>> 3]? = some b := by
  have hlt : nIndex >>> 3 < vData.length := by
    rw [Nat.shiftRight_eq_div_pow]
    omega
  exact ⟨_, List.getElem?_eq_getElem hlt⟩

theorem exists_mask (nIndex : ℕ) : ∃ mask, bit_mask[7 &&& nIndex]? = some mask ∧ mask ≠ 0 := by
  have hlt : 7 &&& nIndex < 8 := by
    have hle : 7 &&& nIndex ≤ 7 := Nat.and_le_left
    omega
  have hall : ∀ j < 8, ∃ mask, bit_mask[j]? = some mask ∧ mask ≠ 0 := by decide
  exact hall _ hlt

theorem getBit_iff {b mask : Byte} (hb : vData[nIndex >>> 3]? = some b)
    (hmask : bit_mask[7 &&& nIndex]? = some mask) :
    getBit vData nIndex = some true ↔ b &&& mask ≠ 0 := by
  simp only [getBit, hb, hmask, Option.bind_eq_bind, Option.bind_some, Option.pure_def,
    Option.some.injEq, bne_iff_ne]

theorem getBit_defined (h : nIndex < vData.length * 8) : ∃ b, getBit vData nIndex = some b := by
  obtain ⟨b, hb⟩ := exists_byte h
  obtain ⟨mask, hmask, -⟩ := exists_mask nIndex
  exact ⟨b &&& mask != 0, by simp [getBit, hb, hmask]⟩

theorem or_and_ne_zero_left {b m m' : Byte} (h : b &&& m' ≠ 0) : (b ||| m) &&& m' ≠ 0 := by
  intro hzero
  apply h
  apply BitVec.eq_of_getElem_eq
  intro i hi
  have hbit := congrArg (·[i]) hzero
  simp only [BitVec.getElem_and, BitVec.getElem_or] at hbit ⊢
  grind

theorem or_and_ne_zero_right {b m : Byte} (h : m ≠ 0) : (b ||| m) &&& m ≠ 0 := by
  intro hzero
  apply h
  apply BitVec.eq_of_getElem_eq
  intro i hi
  have hbit := congrArg (·[i]) hzero
  simp only [BitVec.getElem_and, BitVec.getElem_or] at hbit ⊢
  grind

/-- A bit is set, and the others stay set. -/
theorem setBit_spec (h : nIndex < vData.length * 8) :
    ∃ vData', setBit vData nIndex = some vData' ∧ vData'.length = vData.length ∧
      getBit vData' nIndex = some true ∧
      ∀ j, getBit vData j = some true → getBit vData' j = some true := by
  obtain ⟨b, hb⟩ := exists_byte h
  obtain ⟨mask, hmask, hne⟩ := exists_mask nIndex
  have hlt : nIndex >>> 3 < vData.length := by
    rw [Nat.shiftRight_eq_div_pow]
    omega
  have hat : (vData.set (nIndex >>> 3) (b ||| mask))[nIndex >>> 3]? = some (b ||| mask) := by
    simp [hlt]
  refine ⟨vData.set (nIndex >>> 3) (b ||| mask), ?_, List.length_set .., ?_, fun j hj => ?_⟩
  · simp [setBit, hb, hmask]
  · exact (getBit_iff hat hmask).mpr (or_and_ne_zero_right hne)
  · obtain ⟨mask', hmask', -⟩ := exists_mask j
    by_cases hsame : j >>> 3 = nIndex >>> 3
    · rw [← hsame] at hb hat ⊢
      exact (getBit_iff hat hmask').mpr (or_and_ne_zero_left ((getBit_iff hb hmask').mp hj))
    · have hother : (vData.set (nIndex >>> 3) (b ||| mask))[j >>> 3]? = vData[j >>> 3]? :=
        List.getElem?_set_ne (Ne.symm hsame)
      rw [getBit, hother]
      exact hj

end Bits

section Keys

/-- What an insertion changes: some bits are set. -/
structure Extends (f f' : CBloomFilter) : Prop where
  length : f'.vData.length = f.vData.length
  isFull : f'.isFull = f.isFull
  nHashFuncs : f'.nHashFuncs = f.nHashFuncs
  nTweak : f'.nTweak = f.nTweak
  bits : ∀ j, getBit f.vData j = some true → getBit f'.vData j = some true

variable {f f' : CBloomFilter} {keys : List (List Byte)} {k : List Byte} {i : ℕ}

theorem Extends.refl (f : CBloomFilter) : Extends f f := ⟨rfl, rfl, rfl, rfl, fun _ h => h⟩

theorem Extends.hash (h : Extends f f') : f'.hash i k = f.hash i k := by
  unfold CBloomFilter.hash
  rw [h.length, h.nTweak]

theorem Extends.testHash (h : Extends f f') (htest : f.testHash k i = some true) :
    f'.testHash k i = some true := by
  obtain ⟨nIndex, hindex, hbit⟩ := Option.bind_eq_some_iff.mp htest
  exact Option.bind_eq_some_iff.mpr ⟨nIndex, h.hash.trans hindex, h.bits _ hbit⟩

theorem hash_spec (h : f.vData ≠ []) (k : List Byte) (i : ℕ) :
    ∃ nIndex, f.hash i k = some nIndex ∧ nIndex < f.vData.length * 8 := by
  have hpos : 0 < f.vData.length * 8 := by
    have hlen := List.length_pos_iff.mpr h
    omega
  exact ⟨_, if_neg hpos.ne', Nat.mod_lt _ hpos⟩

theorem testHash_defined (h : f.vData ≠ []) (k : List Byte) (i : ℕ) : ∃ b, f.testHash k i = some b := by
  obtain ⟨nIndex, hindex, hlt⟩ := hash_spec h k i
  obtain ⟨b, hb⟩ := getBit_defined hlt
  exact ⟨b, Option.bind_eq_some_iff.mpr ⟨nIndex, hindex, hb⟩⟩

theorem setHash_spec (h : f.vData ≠ []) (k : List Byte) (i : ℕ) :
    ∃ f', CBloomFilter.setHash k f i = some f' ∧ Extends f f' ∧ f'.testHash k i = some true := by
  obtain ⟨nIndex, hindex, hlt⟩ := hash_spec h k i
  obtain ⟨vData, hset, hlen, hbit, hbits⟩ := setBit_spec hlt
  have hext : Extends f { f with vData := vData } := ⟨hlen, rfl, rfl, rfl, hbits⟩
  refine ⟨{ f with vData := vData }, ?_, hext, ?_⟩
  · simp [CBloomFilter.setHash, hindex, hset]
  · exact Option.bind_eq_some_iff.mpr ⟨nIndex, hext.hash.trans hindex, hbit⟩

/-- The bits of a key are set. -/
def Holds (f : CBloomFilter) (k : List Byte) : Prop :=
  ∀ i < f.nHashFuncs.toNat, f.testHash k i = some true

theorem Extends.holds (h : Extends f f') (hk : Holds f k) : Holds f' k := by
  intro i hi
  rw [h.nHashFuncs] at hi
  exact h.testHash (hk i hi)

/-- The filter is full, or it has bytes, is not taken for empty and holds the keys. -/
def Covers (f : CBloomFilter) (keys : List (List Byte)) : Prop :=
  f.isFull = true ∨
    (f.vData ≠ [] ∧ (keys ≠ [] → f.isEmpty = false) ∧ ∀ k ∈ keys, Holds f k)

theorem Extends.trans {f₁ : CBloomFilter} (h : Extends f f₁) (h₁ : Extends f₁ f') :
    Extends f f' where
  length := h₁.length.trans h.length
  isFull := h₁.isFull.trans h.isFull
  nHashFuncs := h₁.nHashFuncs.trans h.nHashFuncs
  nTweak := h₁.nTweak.trans h.nTweak
  bits j hj := h₁.bits j (h.bits j hj)

theorem Extends.vData_ne_nil (h : Extends f f') (hne : f.vData ≠ []) : f'.vData ≠ [] := by
  rw [← List.length_pos_iff, h.length]
  exact List.length_pos_iff.mpr hne

theorem insertLoop_spec (h : f.vData ≠ []) (k : List Byte) (n : ℕ) :
    ∃ f', (List.range n).foldlM (CBloomFilter.setHash k) f = some f' ∧ Extends f f' ∧
      ∀ i < n, f'.testHash k i = some true := by
  induction n with
  | zero => exact ⟨f, rfl, Extends.refl f, fun i hi => absurd hi (Nat.not_lt_zero i)⟩
  | succ n ih =>
    obtain ⟨f₁, hrun, hext, htests⟩ := ih
    obtain ⟨f', hlast, hext', htest⟩ := setHash_spec (hext.vData_ne_nil h) k n
    refine ⟨f', ?_, hext.trans hext', fun i hi => ?_⟩
    · rw [List.range_succ, List.foldlM_append, hrun]
      simp [hlast]
    · rcases Nat.lt_succ_iff_lt_or_eq.mp hi with hlt | rfl
      · exact hext'.testHash (htests i hlt)
      · exact htest

theorem insert_spec (h : Covers f keys) (k : List Byte) :
    ∃ f', f.insert k = some f' ∧ Covers f' (keys ++ [k]) := by
  unfold CBloomFilter.insert
  by_cases hfull : f.isFull = true
  · exact ⟨f, if_pos hfull, .inl hfull⟩
  · obtain ⟨hne, -, hkeys⟩ := h.resolve_left hfull
    obtain ⟨f', hrun, hext, htests⟩ := insertLoop_spec hne k f.nHashFuncs.toNat
    refine ⟨{ f' with isEmpty := false }, ?_, .inr ⟨hext.vData_ne_nil hne, fun _ => rfl, ?_⟩⟩
    · rw [if_neg hfull, hrun]
      rfl
    · intro k' hk'
      rcases List.mem_append.mp hk' with hk' | hk'
      · exact hext.holds (hkeys k' hk')
      · obtain rfl := List.mem_singleton.mp hk'
        intro i hi
        exact htests i (hext.nHashFuncs ▸ hi)

theorem allM_spec {p : ℕ → Option Bool} (l : List ℕ) (h : ∀ i, ∃ b, p i = some b) :
    ∃ b, l.allM p = some b ∧ ((∀ i ∈ l, p i = some true) → b = true) := by
  induction l with
  | nil => exact ⟨true, rfl, fun _ => rfl⟩
  | cons i l ih =>
    obtain ⟨b, hb, hall⟩ := ih
    obtain ⟨b₁, hb₁⟩ := h i
    cases b₁ with
    | false =>
      refine ⟨false, by simp [List.allM, hb₁], fun htrue => ?_⟩
      have hfirst := htrue i List.mem_cons_self
      rw [hb₁] at hfirst
      cases hfirst
    | true =>
      refine ⟨b, by simp [List.allM, hb₁, hb], fun htrue => ?_⟩
      exact hall fun j hj => htrue j (List.mem_cons_of_mem _ hj)

/-- Whether a key is in the filter is always defined, and the inserted keys are. -/
theorem contains_spec (h : Covers f keys) (k : List Byte) :
    ∃ b, f.contains k = some b ∧ (k ∈ keys → b = true) := by
  unfold CBloomFilter.contains
  by_cases hfull : f.isFull = true
  · exact ⟨true, if_pos hfull, fun _ => rfl⟩
  · obtain ⟨hne, hempty, hkeys⟩ := h.resolve_left hfull
    rw [if_neg hfull]
    by_cases hisEmpty : f.isEmpty = true
    · refine ⟨false, if_pos hisEmpty, fun hk => ?_⟩
      have hfalse := hempty (List.ne_nil_of_mem hk)
      rw [hisEmpty] at hfalse
      cases hfalse
    · obtain ⟨b, hb, hall⟩ := allM_spec (List.range f.nHashFuncs.toNat)
        fun i => testHash_defined hne k i
      refine ⟨b, (if_neg hisEmpty).trans hb, fun hk => hall fun i hi => ?_⟩
      exact hkeys k hk i (List.mem_range.mp hi)

end Keys

section Scripts

variable {f : CBloomFilter} {keys : List (List Byte)}

/-- A script pushes these bytes in front of the first opcode that cannot be read. -/
def IsPush (s : CScript) (data : List Byte) : Prop :=
  ∃ op ∈ (parse s).1, op.opcode ≤ OP_PUSHDATA4 ∧ op.data = data

theorem matchScript_written (h : Covers f keys) {tail : CScript} (htail : getOp2 tail = none)
    (ops : List Op) {fuel : ℕ} (hfuel : (written ops ++ tail).length ≤ fuel) :
    ∃ b, f.matchScript fuel (written ops ++ tail) = some b ∧
      ∀ op ∈ ops, op.data ≠ [] → op.data ∈ keys → b = true := by
  induction ops generalizing fuel with
  | nil =>
    refine ⟨false, ?_, fun op hop => absurd hop List.not_mem_nil⟩
    cases fuel with
    | zero => rfl
    | succ fuel => simp [CBloomFilter.matchScript, htail]
  | cons op ops ih =>
    have hpos := List.length_pos_iff.mpr op.bytes_ne_nil
    rw [written_cons, List.append_assoc] at hfuel ⊢
    rw [List.length_append] at hfuel
    obtain ⟨fuel, rfl⟩ := Nat.exists_eq_succ_of_ne_zero (show fuel ≠ 0 by omega)
    obtain ⟨b, hrest, hops⟩ := @ih fuel (by omega)
    simp only [CBloomFilter.matchScript, op.reads_append]
    by_cases hlen : op.data.length = 0
    · refine ⟨b, (if_pos hlen).trans hrest, fun op' hop' hne hkey => ?_⟩
      rcases List.mem_cons.mp hop' with rfl | hop'
      · exact absurd (List.length_eq_zero_iff.mp hlen) hne
      · exact hops op' hop' hne hkey
    · obtain ⟨bFirst, hcontains, hfirst⟩ := contains_spec h op.data
      rw [if_neg hlen, hcontains]
      cases bFirst with
      | true => exact ⟨true, rfl, fun _ _ _ _ => rfl⟩
      | false =>
        refine ⟨b, hrest, fun op' hop' hne hkey => ?_⟩
        rcases List.mem_cons.mp hop' with rfl | hop'
        · cases hfirst hkey
        · exact hops op' hop' hne hkey

theorem matchScript_spec (h : Covers f keys) (s : CScript) :
    ∃ b, f.matchScript s.length s = some b ∧ ∀ k ∈ keys, k ≠ [] → IsPush s k → b = true := by
  obtain ⟨ops, tail, rfl, htail⟩ := exists_parse s
  obtain ⟨b, hrun, hops⟩ := matchScript_written h htail ops le_rfl
  refine ⟨b, hrun, fun k hk hne hpush => ?_⟩
  obtain ⟨op, hop, -, rfl⟩ := hpush
  rw [parse_written ops htail] at hop
  exact hops op hop hne hk

theorem solver_defined (s : CScript) : ∃ r, solver s [] = some r := by
  by_cases hcounted : IllCounted s
  · obtain ⟨vSolutions, -, hsolved⟩ := solver_of_illCounted hcounted
    exact ⟨_, hsolved⟩
  · exact Option.isSome_iff_exists.mp (solvedRight_iff.mpr hcounted).inBounds

theorem updates_defined (f : CBloomFilter) (s : CScript) : ∃ b, f.updates s = some b := by
  unfold CBloomFilter.updates
  split_ifs
  · exact ⟨true, rfl⟩
  · obtain ⟨⟨fRet, type, vSolutions⟩, hsolved⟩ := solver_defined s
    exact ⟨fRet && (type == .pubkey || type == .multisig), by rw [hsolved]; rfl⟩
  · exact ⟨false, rfl⟩

end Scripts

section Transactions

variable {f : CBloomFilter} {keys : List (List Byte)}

theorem Covers.anti {keys' : List (List Byte)} (h : Covers f keys) (hsub : keys' ⊆ keys) :
    Covers f keys' := by
  refine h.imp_right fun ⟨hne, hempty, hkeys⟩ => ⟨hne, fun hne' => ?_, fun k hk => ?_⟩
  · obtain ⟨k, hk⟩ := List.exists_mem_of_ne_nil _ hne'
    exact hempty (List.ne_nil_of_mem (hsub hk))
  · exact hkeys k (hsub hk)

theorem matchOutput_spec (hash : Uint256) {s : Scan} (h : Covers s.filter (keys ++ s.inserted))
    (out : CTxOut × ℕ) :
    ∃ s', matchOutput hash s out = some s' ∧ Covers s'.filter (keys ++ s'.inserted) ∧
      (s.fFound = true → s'.fFound = true) ∧
      ∀ k ∈ keys, k ≠ [] → IsPush out.1.scriptPubKey k → s'.fFound = true := by
  obtain ⟨fMatch, hmatch, hpush⟩ :=
    matchScript_spec (h.anti (List.subset_append_left _ _)) out.1.scriptPubKey
  obtain ⟨fUpdate, hupdate⟩ := updates_defined s.filter out.1.scriptPubKey
  unfold matchOutput
  cases fMatch with
  | false =>
    refine ⟨s, by simp [hmatch], h, id, fun k hk hne hp => ?_⟩
    cases hpush k hk hne hp
  | true =>
    cases fUpdate with
    | false => exact ⟨⟨true, s.filter, s.inserted⟩, by simp [hmatch, hupdate], h, fun _ => rfl,
        fun _ _ _ _ => rfl⟩
    | true =>
      obtain ⟨filter, hinsert, hcovers⟩ :=
        insert_spec h (outPointKey ⟨hash, BitVec.ofNat 32 out.2⟩)
      rw [List.append_assoc] at hcovers
      exact ⟨⟨true, filter, _⟩, by simp [hmatch, hupdate, hinsert], hcovers, fun _ => rfl,
        fun _ _ _ _ => rfl⟩

/-- The loop over the outputs. -/
theorem matchOutputs_spec (h : Covers f keys) (hash : Uint256) (fFound : Bool)
    (vout : List CTxOut) :
    ∃ s, vout.zipIdx.foldlM (matchOutput hash) ⟨fFound, f, []⟩ = some s ∧
      Covers s.filter (keys ++ s.inserted) ∧ (fFound = true → s.fFound = true) ∧
      ∀ txout ∈ vout, ∀ k ∈ keys, k ≠ [] → IsPush txout.scriptPubKey k → s.fFound = true := by
  obtain ⟨s, hrun, hcovers, hfound, houts⟩ := @exists_foldlM _ _ (matchOutput hash)
    (fun done s => Covers s.filter (keys ++ s.inserted) ∧ (fFound = true → s.fFound = true) ∧
      ∀ out ∈ done, ∀ k ∈ keys, k ≠ [] → IsPush out.1.scriptPubKey k → s.fFound = true)
    vout.zipIdx ⟨fFound, f, []⟩ ⟨by simpa using h, id, fun _ hout => absurd hout List.not_mem_nil⟩
    (fun done out s _ ⟨hcovers, hfound, houts⟩ => by
      obtain ⟨s', hstep, hcovers', hkept, hpush⟩ := matchOutput_spec hash hcovers out
      refine ⟨s', hstep, hcovers', fun h => hkept (hfound h), fun out' hout' k hk hne hp => ?_⟩
      rcases List.mem_append.mp hout' with hout' | hout'
      · exact hkept (houts out' hout' k hk hne hp)
      · obtain rfl := List.mem_singleton.mp hout'
        exact hpush k hk hne hp)
  refine ⟨s, hrun, hcovers, hfound, fun txout htxout k hk hne hp => ?_⟩
  obtain ⟨n, hn⟩ := List.getElem?_of_mem htxout
  exact houts (txout, n) (List.mk_mem_zipIdx_iff_getElem?.mpr hn) k hk hne hp

theorem matchInput_spec (h : Covers f keys) (txin : CTxIn) :
    ∃ b, matchInput f txin = some b ∧ (outPointKey txin.prevout ∈ keys → b = true) ∧
      ∀ k ∈ keys, k ≠ [] → IsPush txin.scriptSig k → b = true := by
  obtain ⟨bFirst, hcontains, hfirst⟩ := contains_spec h (outPointKey txin.prevout)
  unfold matchInput
  rw [hcontains]
  cases bFirst with
  | true => exact ⟨true, rfl, fun _ => rfl, fun _ _ _ _ => rfl⟩
  | false =>
    obtain ⟨b, hrun, hpush⟩ := matchScript_spec h txin.scriptSig
    exact ⟨b, hrun, fun hkey => Bool.noConfusion (hfirst hkey), hpush⟩

theorem matchInputs_spec (h : Covers f keys) (vin : List CTxIn) :
    ∃ b, vin.anyM (matchInput f) = some b ∧ ∀ txin ∈ vin,
      (outPointKey txin.prevout ∈ keys → b = true) ∧
        ∀ k ∈ keys, k ≠ [] → IsPush txin.scriptSig k → b = true := by
  induction vin with
  | nil => exact ⟨false, rfl, fun txin htxin => absurd htxin List.not_mem_nil⟩
  | cons txin vin ih =>
    obtain ⟨bFirst, hfirst, hkey, hpush⟩ := matchInput_spec h txin
    cases bFirst with
    | true =>
      exact ⟨true, by simp [List.anyM, hfirst], fun _ _ => ⟨fun _ => rfl, fun _ _ _ _ => rfl⟩⟩
    | false =>
      obtain ⟨b, hrest, hall⟩ := ih
      refine ⟨b, by simp [List.anyM, hfirst, hrest], fun txin' htxin' => ?_⟩
      rcases List.mem_cons.mp htxin' with rfl | htxin'
      · exact ⟨fun hk => Bool.noConfusion (hkey hk),
          fun k hk hne hp => Bool.noConfusion (hpush k hk hne hp)⟩
      · exact hall txin' htxin'

/-- A transaction has a key as its hash, as an operand in a script or as an outpoint that it
spends. -/
def Matches (tx : CTransaction) (hash : Uint256) (k : List Byte) : Prop :=
  k = uint256Bytes hash ∨ (∃ txout ∈ tx.vout, IsPush txout.scriptPubKey k) ∨
    ∃ txin ∈ tx.vin, k = outPointKey txin.prevout ∨ IsPush txin.scriptSig k

theorem isRelevantAndUpdate_spec (h : Covers f keys) (tx : CTransaction) (hash : Uint256) :
    ∃ fRelevant f' inserted,
      f.isRelevantAndUpdate tx hash = some (fRelevant, f', inserted) ∧
        Covers f' (keys ++ inserted) ∧
        ∀ k ∈ keys, k ≠ [] → Matches tx hash k → fRelevant = true := by
  unfold CBloomFilter.isRelevantAndUpdate
  by_cases hfull : f.isFull = true
  · exact ⟨true, f, [], if_pos hfull, .inl hfull, fun _ _ _ _ => rfl⟩
  rw [if_neg hfull]
  by_cases hempty : f.isEmpty = true
  · refine ⟨false, f, [], if_pos hempty, by rwa [List.append_nil], fun k hk => ?_⟩
    have hfalse := (h.resolve_left hfull).2.1 (List.ne_nil_of_mem hk)
    rw [hempty] at hfalse
    cases hfalse
  rw [if_neg hempty]
  obtain ⟨fFound, hhash, hkey⟩ := contains_spec h (uint256Bytes hash)
  obtain ⟨s, houts, hcovers, hfound, hpush⟩ := matchOutputs_spec h hash fFound tx.vout
  obtain ⟨fRelevant, hins, hin⟩ :=
    matchInputs_spec (hcovers.anti (List.subset_append_left _ _)) tx.vin
  by_cases hs : s.fFound = true
  · exact ⟨true, s.filter, s.inserted, by simp [hhash, houts, hs], hcovers, fun _ _ _ _ => rfl⟩
  · refine ⟨fRelevant, s.filter, s.inserted, by simp [hhash, houts, hs, hins], hcovers, ?_⟩
    rintro k hk hne (rfl | ⟨txout, htxout, hp⟩ | ⟨txin, htxin, rfl | hp⟩)
    · exact absurd (hfound (hkey hk)) hs
    · exact absurd (hpush txout htxout k hk hne hp) hs
    · exact (hin txin htxin).1 hk
    · exact (hin txin htxin).2 k hk hne hp

end Transactions

section Runs

/-- Each of the keys is contained and makes a transaction relevant, and no test is undefined. -/
structure NeverMisses (f : CBloomFilter) (keys : List (List Byte)) : Prop where
  contains : ∀ k, ∃ b, f.contains k = some b ∧ (k ∈ keys → b = true)
  relevant : ∀ tx hash, ∃ fRelevant f' inserted,
    f.isRelevantAndUpdate tx hash = some (fRelevant, f', inserted) ∧
      ∀ k ∈ keys, k ≠ [] → Matches tx hash k → fRelevant = true

theorem Covers.neverMisses {f : CBloomFilter} {keys : List (List Byte)} (h : Covers f keys) :
    NeverMisses f keys where
  contains := contains_spec h
  relevant tx hash := by
    obtain ⟨fRelevant, f', inserted, hrun, -, hkeys⟩ := isRelevantAndUpdate_spec h tx hash
    exact ⟨fRelevant, f', inserted, hrun, hkeys⟩

/-- Without data every byte is 0xff, and the filter is full. -/
theorem covers_updateEmptyFull (f : CBloomFilter) : Covers f.updateEmptyFull [] := by
  by_cases hnil : f.vData = []
  · left
    simp [CBloomFilter.updateEmptyFull, hnil]
  · exact .inr ⟨hnil, fun hne => absurd rfl hne, fun k hk => absurd hk List.not_mem_nil⟩

/-- The peer's filter, if there is one, covers what has been inserted. -/
def Sound (pfrom : CNode) : Prop := ∀ f, pfrom.pfilter = some f → Covers f pfrom.inserted

variable {pfrom : CNode}

theorem Sound.misbehaving (h : Sound pfrom) (howmuch : ℤ) : Sound (pfrom.misbehaving howmuch) := by
  unfold CNode.misbehaving
  split_ifs <;> exact h

theorem Sound.filterload (h : Sound pfrom) (vRecv : List Byte) : Sound (pfrom.filterload vRecv) := by
  unfold CNode.filterload
  cases filterCodec.read vRecv with
  | none => exact h
  | some r =>
    obtain ⟨⟨vData, nHashFuncs, nTweak, nFlags⟩, rest⟩ := r
    dsimp only
    split_ifs with hbig
    · exact h.misbehaving 100
    · intro f hf
      obtain rfl := Option.some.inj hf
      exact covers_updateEmptyFull _

theorem Sound.filteradd (h : Sound pfrom) (vRecv : List Byte) :
    ∃ p, pfrom.filteradd vRecv = some p ∧ Sound p := by
  unfold CNode.filteradd
  cases (vector uchar).read vRecv with
  | none => exact ⟨pfrom, rfl, h⟩
  | some r =>
    obtain ⟨vData, rest⟩ := r
    dsimp only
    split_ifs with hbig
    · exact ⟨_, rfl, h.misbehaving 100⟩
    · cases hfilter : pfrom.pfilter with
      | none => exact ⟨_, rfl, h.misbehaving 100⟩
      | some f =>
        obtain ⟨f', hinsert, hcovers⟩ := insert_spec (h f hfilter) vData
        refine ⟨{ pfrom with pfilter := some f', inserted := pfrom.inserted ++ [vData] }, ?_, ?_⟩
        · simp [hinsert]
        · intro g hg
          obtain rfl := Option.some.inj hg
          exact hcovers

theorem Sound.offer (h : Sound pfrom) (tx : CTransaction) (hash : Uint256) :
    ∃ p, pfrom.offer tx hash = some p ∧ Sound p := by
  unfold CNode.offer
  cases hfilter : pfrom.pfilter with
  | none => exact ⟨pfrom, rfl, h⟩
  | some f =>
    obtain ⟨fRelevant, f', keys, hrun, hcovers, -⟩ :=
      isRelevantAndUpdate_spec (h f hfilter) tx hash
    refine ⟨{ pfrom with pfilter := some f', inserted := pfrom.inserted ++ keys }, ?_, ?_⟩
    · simp [hrun]
    · intro g hg
      obtain rfl := Option.some.inj hg
      exact hcovers

theorem sound_filterclear (pfrom : CNode) (memory : CBloomFilter) :
    Sound (pfrom.filterclear memory) := by
  intro f hf
  obtain rfl := Option.some.inj hf
  exact .inl rfl

theorem Sound.step (h : Sound pfrom) (fBloomFilters : Bool) (event : Event) :
    ∃ p, pfrom.step fBloomFilters event = some p ∧ Sound p := by
  cases event with
  | filterload vRecv =>
    refine ⟨_, rfl, ?_⟩
    split_ifs
    · exact h.filterload vRecv
    · exact h
  | filteradd vRecv =>
    unfold CNode.step
    cases fBloomFilters with
    | false => exact ⟨pfrom, rfl, h⟩
    | true => exact h.filteradd vRecv
  | filterclear memory =>
    refine ⟨_, rfl, ?_⟩
    split_ifs
    · exact sound_filterclear pfrom memory
    · exact h
  | isRelevantAndUpdate tx hash => exact h.offer tx hash

theorem sound_new (memory : CBloomFilter) (isLocal : Bool) : Sound (CNode.new memory isLocal) := by
  intro f hf
  obtain rfl := Option.some.inj hf
  exact .inl rfl

theorem Sound.run (h : Sound pfrom) (fBloomFilters : Bool) (events : List Event) :
    ∃ p, events.foldlM (CNode.step fBloomFilters) pfrom = some p ∧ Sound p := by
  induction events generalizing pfrom with
  | nil => exact ⟨pfrom, rfl, h⟩
  | cons event events ih =>
    obtain ⟨p₁, hstep, h₁⟩ := h.step fBloomFilters event
    obtain ⟨p, hrun, hp⟩ := ih h₁
    exact ⟨p, by simp [hstep, hrun], hp⟩

/-- Whatever a peer sends and is offered, its filter does not miss what has been inserted since it
was loaded, but that an operand without bytes is not looked up. -/
theorem neverMisses_run (fBloomFilters isLocal : Bool) (memory : CBloomFilter)
    (events : List Event) :
    ∃ p, events.foldlM (CNode.step fBloomFilters) (.new memory isLocal) = some p ∧
      ∀ f, p.pfilter = some f → NeverMisses f p.inserted := by
  obtain ⟨p, hrun, hp⟩ := (sound_new memory isLocal).run fBloomFilters events
  exact ⟨p, hrun, fun f hf => (hp f hf).neverMisses⟩

/-- A filter of eight bytes without a bit, with one hash function. -/
def emptyFilter : List Byte := 8 :: List.replicate 8 0 ++ [1, 0, 0, 0, 0, 0, 0, 0, 0]

/-- The operand of the only output is empty. -/
def emptyOperand : CTransaction := ⟨1, [], [⟨0, [0x00]⟩], 0⟩

theorem isPush_empty : IsPush [0x00] [] := by
  have hparse := parse_append ⟨0, [], [0x00], rfl⟩ []
  refine ⟨⟨0, [], [0x00], rfl⟩, ?_, by decide, rfl⟩
  rw [List.append_nil] at hparse
  rw [hparse]
  exact List.mem_cons_self

theorem empty_operand_missed :
    ¬∀ (fBloomFilters isLocal : Bool) (memory : CBloomFilter) (events : List Event) (p : CNode),
      events.foldlM (CNode.step fBloomFilters) (.new memory isLocal) = some p →
      ∀ f, p.pfilter = some f → ∀ tx hash, ∀ k ∈ p.inserted, Matches tx hash k →
        (f.isRelevantAndUpdate tx hash).map Prod.fst = some true := by
  intro hclaim
  have hrun : ∃ p f, [Event.filterload emptyFilter, .filteradd [0]].foldlM (CNode.step true)
      (.new ⟨[], true, true, 0, 0, 0⟩ false) = some p ∧ p.pfilter = some f ∧ p.inserted = [[]] ∧
      (f.isRelevantAndUpdate emptyOperand 0).map Prod.fst = some false := by
    refine ⟨_, _, rfl, rfl, by decide, by decide⟩
  obtain ⟨p, f, hp, hf, hkeys, hmissed⟩ := hrun
  have hrelevant := hclaim true false _ _ p hp f hf emptyOperand 0 [] (by simp [hkeys])
    (.inr (.inl ⟨_, List.mem_cons_self, isPush_empty⟩))
  rw [hmissed] at hrelevant
  cases hrelevant

end Runs

end UmbrellaLtc.BloomFilter
