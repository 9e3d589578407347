import UmbrellaLtc.Header
import UmbrellaLtc.Runs

/-!
The producers of block headers. Each copies the fields by hand and chooses by
itself whether to copy the version and the auxpow pointer, while the writer
trusts the version bit. Runs of producers over a pool of header objects are
followed step by step: which steps keep bit and pointer together is decided
exactly, on the object the step is applied to.
-/

namespace UmbrellaLtc.HeaderCoherence

open Codec Transaction Header Runs

/-- CBlockHeader::SetNull. The pointer is not reset. -/
def setNull (fTestNet : Bool) (h : CBlockHeader) : CBlockHeader :=
  CBlockHeader.build (HeaderFields.null fTestNet) h.auxpow

/-- `CBlockHeader()`: SetNull on an object whose pointer starts as null. -/
def construct (fTestNet : Bool) : CBlockHeader :=
  setNull fTestNet (CBlockHeader.plain ⟨0, 0, 0, 0, 0, 0⟩)

/-- CBlockHeader::SetAuxPow. -/
def setAuxPow (h : CBlockHeader) (pow : Option CAuxPow) : CBlockHeader :=
  let nVersion :=
    if pow.isSome then h.fields.nVersion ||| BLOCK_VERSION_AUXPOW
    else h.fields.nVersion &&& ~~~BLOCK_VERSION_AUXPOW
  CBlockHeader.build { h.fields with nVersion := nVersion } pow

/-- `CBlock(const CBlockHeader&)`: SetNull, then the base class assignment. -/
def blockFromHeader (header : CBlockHeader) : CBlockHeader := header

/-- CBlock::GetBlockHeader: six assignments into a new CBlockHeader. -/
def getBlockHeader (fTestNet : Bool) (h : CBlockHeader) : CBlockHeader :=
  let block := construct fTestNet
  CBlockHeader.build
    { block.fields with
      nVersion := h.fields.nVersion
      hashPrevBlock := h.fields.hashPrevBlock
      hashMerkleRoot := h.fields.hashMerkleRoot
      nTime := h.fields.nTime
      nBits := h.fields.nBits
      nNonce := h.fields.nNonce } block.auxpow

/-- The header that CMerkleBlock's constructor stores. -/
def merkleBlockHeader (fTestNet : Bool) (block : CBlockHeader) : CBlockHeader :=
  getBlockHeader fTestNet block

/-- ReadDiskBlockIndex into a new CDiskBlockIndex: the pointer stays null when the
read fails, and its result is not looked at. The record was written by
AddToBlockIndex from the block `h`, under the same version bit. -/
def readDiskAuxPow (h : CBlockHeader) (fRead : Bool) : Option CAuxPow :=
  if fRead then
    (h.serialize.bind CBlockHeader.unserialize).bind fun p => p.1.auxpow
  else none

/-- CBlockIndex::GetBlockHeader of the entry that was made from the block `h`. -/
def indexGetBlockHeader (fTestNet : Bool) (h : CBlockHeader) (pprev : Option Uint256)
    (fRead : Bool) : CBlockHeader :=
  let block := construct fTestNet
  let auxpow := if h.fields.isAuxPow then readDiskAuxPow h fRead else block.auxpow
  CBlockHeader.build
    { block.fields with
      nVersion := h.fields.nVersion
      hashPrevBlock := pprev.getD block.fields.hashPrevBlock
      hashMerkleRoot := h.fields.hashMerkleRoot
      nTime := h.fields.nTime
      nBits := h.fields.nBits
      nNonce := h.fields.nNonce } auxpow

/-- Where the argument of SetAuxPow comes from: NULL, `new CAuxPow()`, or a proof
read from a stream. -/
inductive PowSource where
  | null
  | fresh (nChainIndex : BitVec 32)
  | stream (bs : List Byte)

inductive HeaderOp where
  | construct
  | unserialize (bs : List Byte)
  | setNull (i : ℕ)
  | setAuxPow (i : ℕ) (pow : PowSource)
  | blockFromHeader (i : ℕ)
  | getBlockHeader (i : ℕ)
  | indexGetBlockHeader (i : ℕ) (pprev : Option Uint256) (fRead : Bool)
  | merkleBlock (i : ℕ)

abbrev Pool := List CBlockHeader

/-- The outer `none` is the exception of a failed read. -/
def powArgument (fTestNet : Bool) : PowSource → Option (Option CAuxPow)
  | .null => some none
  | .fresh nChainIndex => some (some ⟨AuxFields.fresh nChainIndex, construct fTestNet⟩)
  | .stream bs => (CAuxPow.unserialize bs).map fun p => some p.1

def appendSome (pool : Pool) : Option CBlockHeader → Pool
  | none => pool
  | some h => pool ++ [h]

def setSome (pool : Pool) (i : ℕ) : Option CBlockHeader → Pool
  | none => pool
  | some h => pool.set i h

/-- SetNull and SetAuxPow change an object in place; the others make a new one. -/
def step (fTestNet : Bool) (pool : Pool) : HeaderOp → Pool
  | .construct => appendSome pool (some (construct fTestNet))
  | .unserialize bs => appendSome pool ((CBlockHeader.unserialize bs).map fun p => p.1)
  | .setNull i => setSome pool i (pool[i]?.map (setNull fTestNet))
  | .setAuxPow i source =>
      setSome pool i (pool[i]?.bind fun h => (powArgument fTestNet source).map (setAuxPow h))
  | .blockFromHeader i => appendSome pool (pool[i]?.map blockFromHeader)
  | .getBlockHeader i => appendSome pool (pool[i]?.map (getBlockHeader fTestNet))
  | .indexGetBlockHeader i pprev fRead =>
      appendSome pool (pool[i]?.map fun h => indexGetBlockHeader fTestNet h pprev fRead)
  | .merkleBlock i => appendSome pool (pool[i]?.map (merkleBlockHeader fTestNet))

/-- A header whose bit and pointer agree, that can be written, and whose bytes
read back as the same header. -/
def Sound (h : CBlockHeader) : Prop :=
  (h.fields.isAuxPow = true ↔ h.auxpow.isSome = true) ∧
    ∃ bs, h.serialize = some bs ∧ CBlockHeader.unserialize bs = some (h, [])

/-- The condition on a step, on the object it is applied to. -/
def Allowed (pool : Pool) : HeaderOp → Prop
  | .setNull i => ∀ h, pool[i]? = some h → h.auxpow = none
  | .getBlockHeader i => ∀ h, pool[i]? = some h → h.fields.isAuxPow = false
  | .merkleBlock i => ∀ h, pool[i]? = some h → h.fields.isAuxPow = false
  | .indexGetBlockHeader i _ fRead =>
      ∀ h, pool[i]? = some h → h.fields.isAuxPow = true → fRead = true
  | _ => True

/-- The invariant behind `Sound`: coherence all the way down the parents. -/
def Fine (h : CBlockHeader) : Prop := h.Coherent ∧ h.Good

theorem sound_of_fine (h : CBlockHeader) (hf : Fine h) : Sound h := by
  obtain ⟨hc, hg⟩ := hf
  refine ⟨((CBlockHeader.coherent_iff h).mp hc).1, ?_⟩
  obtain ⟨bs, hbs⟩ := Option.ne_none_iff_exists'.mp (CBlockHeader.serialize_ne_none h hc)
  have hround := CBlockHeader.unserialize_serialize h bs [] hbs hc hg
  exact ⟨bs, hbs, by simpa using hround⟩

theorem fine_plain (f : HeaderFields) (hbit : f.isAuxPow = false) :
    Fine (CBlockHeader.plain f) := ⟨hbit, CBlockHeader.fields_good f⟩

theorem fine_construct (fTestNet : Bool) : Fine (construct fTestNet) :=
  fine_plain _ (HeaderFields.isAuxPow_null fTestNet)

theorem fine_setNull (fTestNet : Bool) (h : CBlockHeader) (hnull : h.auxpow = none) :
    Fine (setNull fTestNet h) := by
  rw [setNull, hnull]
  exact fine_plain _ (HeaderFields.isAuxPow_null fTestNet)

theorem isAuxPow_or (v : BitVec 32) :
    (v ||| BLOCK_VERSION_AUXPOW) &&& BLOCK_VERSION_AUXPOW = BLOCK_VERSION_AUXPOW := by
  ext i
  simp only [BitVec.getElem_and, BitVec.getElem_or]
  cases BLOCK_VERSION_AUXPOW[i] <;> simp

theorem isAuxPow_clear (v : BitVec 32) :
    (v &&& ~~~BLOCK_VERSION_AUXPOW) &&& BLOCK_VERSION_AUXPOW = 0 := by
  ext i
  simp only [BitVec.getElem_and, BitVec.getElem_not]
  cases BLOCK_VERSION_AUXPOW[i] <;> simp

/-- A proof whose own parts can be written and read back. -/
def FinePow : Option CAuxPow → Prop
  | none => True
  | some pow => AuxFields.codec.Good pow.aux ∧ Fine pow.parentBlockHeader

theorem fine_build (f : HeaderFields) (pow : Option CAuxPow)
    (hbit : f.isAuxPow = pow.isSome) (hpow : FinePow pow) : Fine (CBlockHeader.build f pow) := by
  cases pow with
  | none => exact fine_plain f hbit
  | some pow =>
    obtain ⟨haux, hc, hg⟩ := hpow
    exact ⟨⟨hbit, hc⟩, CBlockHeader.fields_good f, haux, hg⟩

theorem fine_setAuxPow (h : CBlockHeader) (pow : Option CAuxPow) (hpow : FinePow pow) :
    Fine (setAuxPow h pow) := by
  refine fine_build _ pow ?_ hpow
  cases pow with
  | none => simp [HeaderFields.isAuxPow, isAuxPow_clear]
  | some pow =>
    simp only [HeaderFields.isAuxPow, Option.isSome_some, if_true, isAuxPow_or]
    decide

theorem finePow_argument (fTestNet : Bool) (source : PowSource) (pow : Option CAuxPow)
    (h : powArgument fTestNet source = some pow) : FinePow pow := by
  cases source with
  | null =>
    simp only [powArgument, Option.some.injEq] at h
    rw [← h]
    trivial
  | fresh nChainIndex =>
    simp only [powArgument, Option.some.injEq] at h
    rw [← h]
    exact ⟨AuxFields.good_of_empty _ _ nChainIndex, fine_construct fTestNet⟩
  | stream bs =>
    simp only [powArgument, Option.map_eq_some_iff] at h
    obtain ⟨⟨p, rest⟩, hread, rfl⟩ := h
    exact CAuxPow.unserialize_spec bs rest p hread

/-- The record of a fine header gives its own proof back. -/
theorem readDiskAuxPow_fine (h : CBlockHeader) (hf : Fine h) : readDiskAuxPow h true = h.auxpow := by
  obtain ⟨-, bs, hbs, hread⟩ := sound_of_fine h hf
  simp [readDiskAuxPow, hbs, hread]

theorem finePow_of_fine (h : CBlockHeader) (hf : Fine h) : FinePow h.auxpow := by
  obtain ⟨hc, hg⟩ := hf
  cases h with
  | plain f => trivial
  | merged f aux parent => exact ⟨hg.2.1, hc.2, hg.2.2⟩

theorem fine_indexGetBlockHeader (fTestNet : Bool) (h : CBlockHeader) (pprev : Option Uint256)
    (fRead : Bool) (hf : Fine h) (hread : h.fields.isAuxPow = true → fRead = true) :
    Fine (indexGetBlockHeader fTestNet h pprev fRead) := by
  have hbit := (((CBlockHeader.coherent_iff h).mp hf.1).1)
  unfold indexGetBlockHeader
  by_cases hset : h.fields.isAuxPow = true
  · have haux : readDiskAuxPow h fRead = h.auxpow := by
      rw [hread hset]
      exact readDiskAuxPow_fine h hf
    simp only [hset, if_true, haux]
    refine fine_build _ _ ?_ (finePow_of_fine h hf)
    simp only [HeaderFields.isAuxPow] at hset ⊢
    rw [hset, (hbit.mp hset)]
  · simp only [hset, Bool.false_eq_true, if_false]
    exact fine_plain _ (by simpa [HeaderFields.isAuxPow] using hset)

theorem fine_append (pool : Pool) (new : Option CBlockHeader) (hpool : ∀ h ∈ pool, Fine h)
    (hnew : ∀ h, new = some h → Fine h) : ∀ h ∈ appendSome pool new, Fine h := by
  cases new with
  | none => exact hpool
  | some g =>
    intro h hmem
    rcases List.mem_append.mp hmem with hold | hlast
    · exact hpool h hold
    · rw [List.mem_singleton.mp hlast]
      exact hnew g rfl

theorem fine_set (pool : Pool) (i : ℕ) (new : Option CBlockHeader) (hpool : ∀ h ∈ pool, Fine h)
    (hnew : ∀ h, new = some h → Fine h) : ∀ h ∈ setSome pool i new, Fine h := by
  cases new with
  | none => exact hpool
  | some g =>
    intro h hmem
    rcases List.mem_or_eq_of_mem_set hmem with hold | rfl
    · exact hpool h hold
    · exact hnew h rfl

/-- One allowed step keeps every object of the pool fine. -/
theorem fine_step (fTestNet : Bool) (pool : Pool) (op : HeaderOp)
    (hpool : ∀ h ∈ pool, Fine h) (hop : Allowed pool op) :
    ∀ h ∈ step fTestNet pool op, Fine h := by
  have hget : ∀ {i : ℕ} {h : CBlockHeader}, pool[i]? = some h → Fine h :=
    fun hi => hpool _ (List.mem_of_getElem? hi)
  cases op with
  | construct =>
    refine fine_append pool (some (construct fTestNet)) hpool fun h hh => ?_
    rw [← Option.some.inj hh]
    exact fine_construct fTestNet
  | unserialize bs =>
    refine fine_append pool _ hpool fun h hh => ?_
    obtain ⟨⟨g, rest⟩, hread, rfl⟩ := Option.map_eq_some_iff.mp hh
    exact CBlockHeader.unserialize_spec bs rest g hread
  | setNull i =>
    refine fine_set pool i _ hpool fun h hh => ?_
    obtain ⟨g, hg, rfl⟩ := Option.map_eq_some_iff.mp hh
    exact fine_setNull fTestNet g (hop g hg)
  | setAuxPow i source =>
    refine fine_set pool i _ hpool fun h hh => ?_
    obtain ⟨g, hg, hpow⟩ := Option.bind_eq_some_iff.mp hh
    obtain ⟨pow, hsource, rfl⟩ := Option.map_eq_some_iff.mp hpow
    exact fine_setAuxPow g pow (finePow_argument fTestNet source pow hsource)
  | blockFromHeader i =>
    refine fine_append pool _ hpool fun h hh => ?_
    obtain ⟨g, hg, rfl⟩ := Option.map_eq_some_iff.mp hh
    exact hget hg
  | getBlockHeader i =>
    refine fine_append pool _ hpool fun h hh => ?_
    obtain ⟨g, hg, rfl⟩ := Option.map_eq_some_iff.mp hh
    exact fine_plain g.fields (hop g hg)
  | indexGetBlockHeader i pprev fRead =>
    refine fine_append pool _ hpool fun h hh => ?_
    obtain ⟨g, hg, rfl⟩ := Option.map_eq_some_iff.mp hh
    exact fine_indexGetBlockHeader fTestNet g pprev fRead (hget hg) (hop g hg)
  | merkleBlock i =>
    refine fine_append pool _ hpool fun h hh => ?_
    obtain ⟨g, hg, rfl⟩ := Option.map_eq_some_iff.mp hh
    exact fine_plain g.fields (hop g hg)

/-- The bit of a sound header without a proof is clear. -/
theorem bit_clear_of_sound (f : HeaderFields) (h : Sound (CBlockHeader.plain f)) :
    f.isAuxPow = false := by
  have hbit := h.1
  simpa [CBlockHeader.fields, CBlockHeader.auxpow] using hbit

theorem mem_appendSome (pool : Pool) (h : CBlockHeader) : h ∈ appendSome pool (some h) :=
  List.mem_append_right pool (List.mem_singleton.mpr rfl)

/-- A step that leaves only sound objects behind was an allowed one. -/
theorem allowed_of_sound (fTestNet : Bool) (pool : Pool) (op : HeaderOp)
    (hnext : ∀ h ∈ step fTestNet pool op, Sound h) : Allowed pool op := by
  cases op with
  | construct => trivial
  | unserialize bs => trivial
  | setAuxPow i source => trivial
  | blockFromHeader i => trivial
  | setNull i =>
    intro h hi
    have hlt : i < pool.length := (List.getElem?_eq_some_iff.mp hi).1
    have hmem : setNull fTestNet h ∈ step fTestNet pool (.setNull i) := by
      simp only [step, hi, Option.map_some, setSome]
      exact List.mem_set hlt _
    have hbit := (hnext _ hmem).1
    simpa [setNull, HeaderFields.isAuxPow_null] using hbit
  | getBlockHeader i =>
    intro h hi
    refine bit_clear_of_sound h.fields (hnext _ ?_)
    simp only [step, hi, Option.map_some]
    exact mem_appendSome pool _
  | merkleBlock i =>
    intro h hi
    refine bit_clear_of_sound h.fields (hnext _ ?_)
    simp only [step, hi, Option.map_some]
    exact mem_appendSome pool _
  | indexGetBlockHeader i pprev fRead =>
    intro h hi hset
    have hmem : indexGetBlockHeader fTestNet h pprev fRead ∈
        step fTestNet pool (.indexGetBlockHeader i pprev fRead) := by
      simp only [step, hi, Option.map_some]
      exact mem_appendSome pool _
    have hbit := (hnext _ hmem).1
    cases fRead with
    | true => rfl
    | false =>
      simp only [indexGetBlockHeader, hset, if_true, CBlockHeader.fields_build,
        CBlockHeader.auxpow_build, readDiskAuxPow, Bool.false_eq_true, if_false] at hbit
      have hclear : h.fields.isAuxPow = false := by
        simpa [HeaderFields.isAuxPow] using hbit
      rw [hclear] at hset
      exact absurd hset Bool.false_ne_true

/-- Over every sequence of header operations from an empty pool, all headers stay
sound exactly when no step drops the proof of a merge-mined header: SetNull on
a header that owns one, GetBlockHeader or CMerkleBlock on a block whose bit is
set, or an index entry whose record cannot be read. -/
theorem headers_sound_iff (fTestNet : Bool) (ops : List HeaderOp) :
    Throughout (step fTestNet) (fun pool => ∀ h ∈ pool, Sound h) [] ops ↔
      EachStep (step fTestNet) Allowed [] ops := by
  constructor
  · intro h
    exact eachStep_of_throughout (fun pool op _ hnext => allowed_of_sound fTestNet pool op hnext) h
  · intro h
    have hfine : Throughout (step fTestNet) (fun pool => ∀ g ∈ pool, Fine g) [] ops :=
      throughout_of_eachStep (fun pool op => fine_step fTestNet pool op)
        (fun g hg => absurd hg List.not_mem_nil) h
    exact hfine.mono fun pool hpool g hg => sound_of_fine g (hpool g hg)

/-- A merge-mined header of the main network, with an empty proof. -/
def mergeMined : CBlockHeader :=
  setAuxPow (construct false) (some ⟨AuxFields.fresh 0, construct false⟩)

def mergeMinedBytes : List Byte := mergeMined.serialize.getD []

theorem unserialize_mergeMinedBytes :
    CBlockHeader.unserialize mergeMinedBytes = some (mergeMined, []) := by
  have hfine : Fine mergeMined :=
    fine_setAuxPow _ _ ⟨AuxFields.good_of_empty _ _ 0, fine_construct false⟩
  obtain ⟨-, bs, hbs, hread⟩ := sound_of_fine mergeMined hfine
  rw [mergeMinedBytes, hbs]
  exact hread

/-- A merge-mined header comes in from a stream, and a filtered block is made of
it for a peer: the copy has the bit and no proof, and writing it dereferences
the null pointer. -/
theorem merkleBlock_of_merged_faults :
    (∃ h ∈ run (step false) [] [.unserialize mergeMinedBytes, .merkleBlock 0],
      h.fields.isAuxPow = true ∧ h.auxpow = none ∧ h.serialize = none) ∧
    ¬ Throughout (step false) (fun pool => ∀ h ∈ pool, Sound h) []
      [.unserialize mergeMinedBytes, .merkleBlock 0] := by
  have hbit : mergeMined.fields.isAuxPow = true := by decide
  have hpool : run (step false) [] [.unserialize mergeMinedBytes, .merkleBlock 0] =
      [mergeMined, CBlockHeader.plain mergeMined.fields] := by
    simp only [run, List.foldl_cons, List.foldl_nil, step, unserialize_mergeMinedBytes]
    rfl
  have hmem : CBlockHeader.plain mergeMined.fields ∈
      run (step false) [] [.unserialize mergeMinedBytes, .merkleBlock 0] := by
    rw [hpool]
    exact List.mem_cons_of_mem _ (List.mem_singleton.mpr rfl)
  refine ⟨⟨_, hmem, hbit, rfl, ?_⟩, fun hsound => ?_⟩
  · simp only [CBlockHeader.serialize, hbit, if_true]
  · have hclear := bit_clear_of_sound _ (hsound.last _ hmem)
    rw [hbit] at hclear
    exact absurd hclear (by decide)

end UmbrellaLtc.HeaderCoherence
