import UmbrellaLtc.BufferedFile
import UmbrellaLtc.CheckBlock

/-!
LoadExternalBlockFile of main.cpp: the search for blocks in a file, from the end of what has been
indexed. The states at the head of the loop are those of a run; what SetPos was asked for and where
it has landed, and the blocks that have gone to ProcessBlock, are recorded. Over it stand the
records of the file: a scan that goes on with the next byte wherever there is no record.
-/

namespace UmbrellaLtc.ExternalBlockFile

open Codec Transaction Header CheckBlock BufferedFile Prog

/-! How a block is read from a stream. -/

section Blocks

def number (n : ℕ) : Reader ℕ := .read n fun bs => .done (ofLeBytes bs)

def sizeBody (chSize : Byte) : Reader ℕ :=
  if chSize.toNat < 253 then .done chSize.toNat
  else if chSize = 253 then number 2
  else if chSize = 254 then number 4
  else number 8

def compactSizeReader : Reader ℕ := do
  let chSize ← Reader.word 1 8
  let nSizeRet ← sizeBody chSize
  if nSizeRet > MAX_SIZE then .fail else return nSizeRet

def uint32Reader : Reader (BitVec 32) := Reader.word 4 32

def uint256Reader : Reader Uint256 := Reader.word 32 256

/-- The bytes of a script come in chunks of at most so many. -/
def scriptReader : Reader CScript := Reader.byteVector compactSizeReader 5000000

def vectorReader {α : Type} (r : Reader α) : Reader (List α) := Reader.counted compactSizeReader r

/-- FLATDATA: the 36 bytes at once. -/
def outPointReader : Reader COutPoint :=
  .read 36 fun bs =>
    .done ⟨BitVec.ofNat 256 (ofLeBytes (bs.take 32)), BitVec.ofNat 32 (ofLeBytes (bs.drop 32))⟩

def txInReader : Reader CTxIn :=
  Reader.map (fun p => ⟨p.1, p.2.1, p.2.2⟩)
    (Reader.pair outPointReader (Reader.pair scriptReader uint32Reader))

def txOutReader : Reader CTxOut :=
  Reader.map (fun p => ⟨p.1, p.2⟩) (Reader.pair (Reader.word 8 64) scriptReader)

def transactionReader : Reader CTransaction :=
  Reader.map (fun p => ⟨p.1, p.2.1, p.2.2.1, p.2.2.2⟩)
    (Reader.pair uint32Reader (Reader.pair (vectorReader txInReader)
      (Reader.pair (vectorReader txOutReader) uint32Reader)))

def fieldsReader : Reader HeaderFields :=
  Reader.map (fun p => ⟨p.1, p.2.1, p.2.2.1, p.2.2.2.1, p.2.2.2.2.1, p.2.2.2.2.2⟩)
    (Reader.pair uint32Reader (Reader.pair uint256Reader (Reader.pair uint256Reader
      (Reader.pair uint32Reader (Reader.pair uint32Reader uint32Reader)))))

def auxReader : Reader AuxFields :=
  Reader.map (fun p => ⟨p.1, p.2.1, p.2.2.1, p.2.2.2.1, p.2.2.2.2.1, p.2.2.2.2.2⟩)
    (Reader.pair transactionReader (Reader.pair uint256Reader
      (Reader.pair (vectorReader uint256Reader)
        (Reader.pair uint32Reader (Reader.pair (vectorReader uint256Reader) uint32Reader)))))

/-- The header of a block; the fuel bounds the nesting. -/
def headerReader : ℕ → Reader CBlockHeader
  | 0 => .fail
  | fuel + 1 => do
      let f ← fieldsReader
      if f.isAuxPow then
        let aux ← auxReader
        let parent ← headerReader fuel
        return .merged f aux parent
      else return .plain f

def blockReader (fuel : ℕ) : Reader CBlock := do
  let header ← headerReader fuel
  let vtx ← vectorReader transactionReader
  return ⟨header, vtx⟩

/-- The block in front of a list of bytes. -/
def unserializeBlock (bs : List Byte) : Option (CBlock × List Byte) := do
  let (header, bs) ← CBlockHeader.unserialize bs
  let (vtx, bs) ← (vector CTransaction.codec).read bs
  return (⟨header, vtx⟩, bs)

open Reader

theorem agrees_compactSize : Agrees compactSizeReader compactSize.read := by
  intro bs
  unfold compactSizeReader
  rw [parse_bind]
  cases bs with
  | nil => rfl
  | cons ch bs =>
    have hch : (word 1 8).parse (ch :: bs) = some (ch, bs) := by simp [word, parse, ofLeBytes]
    have hbody : (sizeBody ch).parse bs = readSizeBody ch bs := by
      unfold sizeBody readSizeBody
      split_ifs <;> rfl
    rw [hch, Option.bind_some, parse_bind, hbody]
    show _ = (readSizeBody ch bs).bind _
    congr 1
    funext p
    by_cases hbig : p.1 > MAX_SIZE
    · simp [hbig, parse]
    · simp [hbig, parse_pure]

theorem agrees_vector {α : Type} {r : Reader α} {c : Codec α} (h : Agrees r c.read) :
    Agrees (vectorReader r) (vector c).read := agrees_counted agrees_compactSize h

theorem agrees_script : Agrees scriptReader script.read :=
  agrees_byteVector (by decide) agrees_compactSize

theorem agrees_uint32 : Agrees uint32Reader uint32.read := agrees_word 4 32 rfl

theorem agrees_uint256 : Agrees uint256Reader uint256.read := agrees_word 32 256 rfl

theorem agrees_outPoint : Agrees outPointReader COutPoint.codec.read := by
  intro bs
  show (if bs.length < 36 then none else some (_, bs.drop 36)) =
    ((do
      let (a, bs) ← uint256.read bs
      let (b, bs) ← uint32.read bs
      return ((a, b), bs) : Option ((Uint256 × BitVec 32) × List Byte)).map fun p =>
        ((⟨p.1.1, p.1.2⟩ : COutPoint), p.2))
  by_cases hshort : bs.length < 32
  · have hhash : uint256.read bs = none := if_pos hshort
    rw [hhash, if_pos (by omega)]
    rfl
  have hhash : uint256.read bs = some (BitVec.ofNat 256 (ofLeBytes (bs.take 32)), bs.drop 32) :=
    if_neg hshort
  have hlen : (bs.drop 32).length = bs.length - 32 := List.length_drop
  by_cases hend : bs.length < 36
  · have hindex : uint32.read (bs.drop 32) = none := if_pos (by omega)
    simp [hhash, hindex, hend]
  · have hindex : uint32.read (bs.drop 32) =
        some (BitVec.ofNat 32 (ofLeBytes ((bs.drop 32).take 4)), (bs.drop 32).drop 4) :=
      if_neg (by omega)
    have htake : (bs.take 36).take 32 = bs.take 32 := by
      rw [List.take_take]
      rfl
    have hdrop : (bs.take 36).drop 32 = (bs.drop 32).take 4 := List.drop_take
    simp [hhash, hindex, hend, htake, hdrop]

theorem agrees_transaction : Agrees transactionReader CTransaction.codec.read := by
  have htxIn : Agrees txInReader CTxIn.codec.read :=
    agrees_iso _ _ (agrees_pair agrees_outPoint (agrees_pair agrees_script agrees_uint32))
  have htxOut : Agrees txOutReader CTxOut.codec.read :=
    agrees_iso _ _ (agrees_pair (agrees_word 8 64 rfl) agrees_script)
  exact agrees_iso _ _ (agrees_pair agrees_uint32 (agrees_pair (agrees_vector htxIn)
    (agrees_pair (agrees_vector htxOut) agrees_uint32)))

theorem agrees_fields : Agrees fieldsReader HeaderFields.codec.read :=
  agrees_iso _ _ (agrees_pair agrees_uint32 (agrees_pair agrees_uint256 (agrees_pair agrees_uint256
    (agrees_pair agrees_uint32 (agrees_pair agrees_uint32 agrees_uint32)))))

theorem agrees_aux : Agrees auxReader AuxFields.codec.read :=
  agrees_iso _ _ (agrees_pair agrees_transaction (agrees_pair agrees_uint256
    (agrees_pair (agrees_vector agrees_uint256) (agrees_pair agrees_uint32
      (agrees_pair (agrees_vector agrees_uint256) agrees_uint32)))))

theorem agrees_header (fuel : ℕ) :
    Agrees (headerReader fuel) (CBlockHeader.unserializeFuel fuel) := by
  induction fuel with
  | zero => exact fun _ => rfl
  | succ fuel ih =>
    intro bs
    unfold headerReader CBlockHeader.unserializeFuel
    rw [parse_bind, agrees_fields bs]
    show _ = (HeaderFields.codec.read bs).bind _
    congr 1
    funext p
    by_cases hbit : p.1.isAuxPow = true
    · simp only [if_pos hbit]
      rw [parse_bind, agrees_aux p.2]
      show _ = (AuxFields.codec.read p.2).bind _
      congr 1
      funext q
      rw [parse_bind, ih q.2]
      rfl
    · simp only [if_neg hbit]
      rfl

/-- A header takes bytes. -/
theorem fields_shorter {bs rest : List Byte} {f : HeaderFields}
    (h : HeaderFields.codec.read bs = some (f, rest)) : rest.length < bs.length := by
  obtain ⟨next, hnext⟩ : ∃ next, fieldsReader = .read 4 next := ⟨_, rfl⟩
  rw [← agrees_fields bs, hnext, parse] at h
  split_ifs at h with hshort
  have hle := parse_shorter h
  rw [List.length_drop] at hle
  omega

theorem unserializeFuel_eq {fuel fuel' : ℕ} {bs : List Byte} (h : bs.length < fuel)
    (h' : bs.length < fuel') :
    CBlockHeader.unserializeFuel fuel bs = CBlockHeader.unserializeFuel fuel' bs := by
  induction fuel generalizing fuel' bs with
  | zero => omega
  | succ fuel ih =>
    cases fuel' with
    | zero => omega
    | succ fuel' =>
      unfold CBlockHeader.unserializeFuel
      cases hfields : HeaderFields.codec.read bs with
      | none => rfl
      | some p =>
        obtain ⟨f, bs₁⟩ := p
        have hshorter := fields_shorter hfields
        simp only [Option.bind_eq_bind, Option.bind_some]
        by_cases hbit : f.isAuxPow = true
        · simp only [if_pos hbit]
          cases haux : AuxFields.codec.read bs₁ with
          | none => rfl
          | some q =>
            obtain ⟨aux, bs₂⟩ := q
            have hle := AuxFields.codec.read_shorter bs₁ aux bs₂ haux
            simp only [Option.bind_some]
            rw [@ih fuel' bs₂ (by omega) (by omega)]
        · simp only [if_neg hbit]

/-- On the bytes up to a limit, fuel for each of them is enough. -/
theorem parse_block {fuel : ℕ} {bs : List Byte} (h : bs.length < fuel) :
    (blockReader fuel).parse bs = unserializeBlock bs := by
  unfold blockReader unserializeBlock CBlockHeader.unserialize
  rw [parse_bind, agrees_header fuel bs, @unserializeFuel_eq fuel (bs.length + 1) bs h (by omega)]
  show _ = (CBlockHeader.unserializeFuel (bs.length + 1) bs).bind _
  congr 1
  funext p
  rw [parse_bind, agrees_vector agrees_transaction p.2]
  rfl

theorem modest_block (fuel : ℕ) {nSize : ℕ} (h : nSize ≤ MAX_BLOCK_SIZE) :
    Modest (MAX_BLOCK_SIZE - 8) nSize (blockReader (fuel + 1)) := by
  obtain ⟨next, hnext⟩ : ∃ next : List Byte → List Byte → Reader CBlock,
      blockReader (fuel + 1) = .read 4 fun bs => .read 32 (next bs) := ⟨_, rfl⟩
  rw [hnext]
  refine ⟨fun _ => by decide, fun bs _ => ⟨fun _ => by decide, fun bs' _ => modest_of_le ?_ _⟩⟩
  unfold MAX_BLOCK_SIZE at h ⊢
  omega

end Blocks

/-! The records of a file. -/

section Records

variable (magic : List Byte) (data : List Byte)

/-- A record in front of the bytes: the magic, a size within the bounds and a block that is read
within the size. With the block comes how many bytes it has taken. -/
def recordAt (bs : List Byte) : Option (CBlock × ℕ) :=
  let nSize := ofLeBytes ((bs.drop 4).take 4)
  let body := (bs.drop 8).take nSize
  if bs.take 4 = magic ∧ 8 ≤ bs.length ∧ 80 ≤ nSize ∧ nSize ≤ MAX_BLOCK_SIZE then
    (unserializeBlock body).map fun (block, rest) => (block, 8 + (body.length - rest.length))
  else none

/-- The records that begin at a position or behind, each outside of those before it. -/
def records : ℕ → ℕ → List (ℕ × CBlock)
  | 0, _ => []
  | fuel + 1, pos =>
      match recordAt magic (data.drop pos) with
      | some (block, n) => (pos + 8, block) :: records fuel (pos + n)
      | none => records fuel (pos + 1)

def recordsFrom (pos : ℕ) : List (ℕ × CBlock) := records magic data (data.length - pos) pos

variable {magic : List Byte} {data : List Byte} {pos : ℕ}

theorem recordAt_header {bs : List Byte} {block : CBlock} {n : ℕ}
    (h : recordAt magic bs = some (block, n)) :
    bs.take 4 = magic ∧ 8 ≤ bs.length ∧ 0 < n := by
  unfold recordAt at h
  dsimp only at h
  split_ifs at h with hheader
  obtain ⟨r, -, hn⟩ := Option.map_eq_some_iff.mp h
  obtain ⟨-, rfl⟩ := Prod.mk.inj hn
  exact ⟨hheader.1, hheader.2.1, by omega⟩

theorem recordAt_nil_of_ge (h : data.length ≤ pos) : recordAt magic (data.drop pos) = none := by
  rw [Option.eq_none_iff_forall_ne_some]
  intro r hr
  have hlen := (recordAt_header hr).2.1
  rw [List.length_drop] at hlen
  omega

theorem records_nil (fuel : ℕ) (h : data.length ≤ pos) : records magic data fuel pos = [] := by
  induction fuel generalizing pos with
  | zero => rfl
  | succ fuel ih =>
    unfold records
    rw [recordAt_nil_of_ge h]
    exact ih (by omega)

theorem records_eq {fuel fuel' : ℕ} (h : data.length - pos ≤ fuel)
    (h' : data.length - pos ≤ fuel') :
    records magic data fuel pos = records magic data fuel' pos := by
  induction fuel generalizing fuel' pos with
  | zero => rw [records_nil 0 (by omega), records_nil fuel' (by omega)]
  | succ fuel ih =>
    cases fuel' with
    | zero => rw [records_nil (fuel + 1) (by omega), records_nil 0 (by omega)]
    | succ fuel' =>
      unfold records
      cases hrecord : recordAt magic (data.drop pos) with
      | none => exact ih (by omega) (by omega)
      | some r =>
        obtain ⟨block, n⟩ := r
        have hpos := (recordAt_header hrecord).2.2
        exact congrArg _ (ih (by omega) (by omega))

theorem recordsFrom_nil (h : data.length ≤ pos) : recordsFrom magic data pos = [] :=
  records_nil _ h

theorem recordsFrom_none (h : recordAt magic (data.drop pos) = none) :
    recordsFrom magic data pos = recordsFrom magic data (pos + 1) := by
  have hfuel := @records_eq magic data pos _ (data.length - pos + 1) le_rfl (by omega)
  unfold recordsFrom
  rw [hfuel, records, h]
  exact records_eq (by omega) le_rfl

theorem recordsFrom_some {block : CBlock} {n : ℕ}
    (h : recordAt magic (data.drop pos) = some (block, n)) :
    recordsFrom magic data pos = (pos + 8, block) :: recordsFrom magic data (pos + n) := by
  have hfuel := @records_eq magic data pos _ (data.length - pos + 1) le_rfl (by omega)
  unfold recordsFrom
  rw [hfuel, records, h]
  exact congrArg _ (records_eq (by omega) le_rfl)

/-- No record begins where the first byte of the magic is not. -/
theorem recordsFrom_skip {first : Byte} (hfirst : magic.head? = some first) {p : ℕ}
    (hle : pos ≤ p) (h : ∀ i, pos ≤ i → i < p → data[i]? ≠ some first) :
    recordsFrom magic data pos = recordsFrom magic data p := by
  induction p, hle using Nat.le_induction with
  | base => rfl
  | succ p hle ih =>
    rw [ih fun i hi hlt => h i hi (by omega)]
    apply recordsFrom_none
    rw [Option.eq_none_iff_forall_ne_some]
    intro r hr
    have hmagic := (recordAt_header hr).1
    apply h p hle (by omega)
    rw [← hfirst, ← hmagic, List.head?_take, if_neg (by decide), List.head?_drop]

end Records

/-! The loop. -/

section Loop

/-- The state at the head of the loop, with the number of blocks that were taken, whether the loop
has been left, what SetPos has been asked for and where it has landed, and the blocks that have been
passed to ProcessBlock with their positions. -/
structure Scan where
  blkdat : CBufferedFile
  nRewind : ℕ
  nLoaded : ℕ
  left : Bool
  seeks : List (ℕ × ℕ)
  passed : List (ℕ × CBlock)

variable (pchMessageStart : BitVec 32)

def magicBytes : List Byte := leBytes 4 pchMessageStart.toNat

/-- The magic and the size; none where they are not those of a block. -/
def readHeader : FileProg (Option ℕ) := do
  let buf ← read 4
  if buf ≠ magicBytes pchMessageStart then return none
  else do
    let size ← read 4
    let nSize := ofLeBytes size
    if nSize < 80 ∨ nSize > MAX_BLOCK_SIZE then return none else return some nSize

-- what ProcessBlock returns for the last of these blocks, with state.IsError(), or it throws
variable (processBlock : List (ℕ × CBlock) → Option (Bool × Bool))

def process (s : Scan) (nBlockPos : ℕ) (block : CBlock) : Scan :=
  let passed := s.passed ++ [(nBlockPos, block)]
  match processBlock passed with
  | none => { s with passed := passed }
  | some (fOk, fError) =>
      { s with
        passed := passed
        nLoaded := if fOk then s.nLoaded + 1 else s.nLoaded
        left := fError }

-- the end of what has been indexed
variable (nStartByte : ℕ)

/-- The block of a header that has been read. -/
def loadBlock (s : Scan) (nSize : ℕ) : Scan :=
  let nBlockPos := s.blkdat.nReadPos
  match (exec (blockReader (nSize + 1))).run (s.blkdat.setLimit (some (nBlockPos + nSize))) with
  | (.error _, blkdat) => { s with blkdat := blkdat }
  | (.ok block, blkdat) =>
      let s := { s with blkdat := blkdat, nRewind := blkdat.nReadPos }
      if nBlockPos ≥ nStartByte then process processBlock s nBlockPos block else s

/-- A round of the loop. -/
def round (s : Scan) : Scan :=
  let blkdat := (s.blkdat.setPos s.nRewind).setLimit none
  let seeks := s.seeks ++ [(s.nRewind, blkdat.nReadPos)]
  match (findByte (BitVec.ofNat 8 pchMessageStart.toNat)).run blkdat with
  | (.error _, blkdat) =>
      { s with blkdat := blkdat, seeks := seeks, nRewind := s.nRewind + 1, left := true }
  | (.ok _, blkdat) =>
      let nRewind := blkdat.nReadPos + 1
      match (readHeader pchMessageStart).run blkdat with
      | (.error _, blkdat) =>
          { s with blkdat := blkdat, seeks := seeks, nRewind := nRewind, left := true }
      | (.ok none, blkdat) => { s with blkdat := blkdat, seeks := seeks, nRewind := nRewind }
      | (.ok (some nSize), blkdat) =>
          loadBlock processBlock nStartByte
            { s with blkdat := blkdat, seeks := seeks, nRewind := nRewind } nSize

/-- The condition of the loop. -/
def Scan.running (s : Scan) : Bool := !s.left && s.blkdat.good && !s.blkdat.eof

def step (s : Scan) : Scan :=
  if s.running then round pchMessageStart processBlock nStartByte s else s

/-- In front of the loop; `skip` is the end of an indexed part, where there is one. -/
def begin (content : List Byte) (skip : Option ℕ) : Scan :=
  let blkdat := CBufferedFile.new content (2 * MAX_BLOCK_SIZE) (MAX_BLOCK_SIZE + 8)
  let blkdat := match skip with
    | none => blkdat
    | some nSize => blkdat.seek nSize
  ⟨blkdat, blkdat.nReadPos, 0, false, [], []⟩

end Loop

section Rounds

variable {pchMessageStart : BitVec 32} {processBlock : List (ℕ × CBlock) → Option (Bool × Bool)}
  {data : List Byte} {start : ℕ} {c : CBufferedFile}

/-- The file as it is opened. -/
structure Opened (data : List Byte) (start : ℕ) (c : CBufferedFile) : Prop where
  coherent : Coherent data start c
  size : c.size = 2 * MAX_BLOCK_SIZE
  nRewind : c.nRewind = MAX_BLOCK_SIZE + 8

theorem Opened.same {c' : CBufferedFile} (h : Opened data start c) (h' : Coherent data start c')
    (hsame : Same c c') : Opened data start c' :=
  ⟨h', hsame.size.trans h.size, hsame.nRewind.trans h.nRewind⟩

theorem magicBytes_head :
    (magicBytes pchMessageStart).head? = some (BitVec.ofNat 8 pchMessageStart.toNat) := rfl

/-- What the header at the reading position says. -/
theorem readHeader_spec (h : Opened data start c) (hlimit : c.nReadLimit = none) :
    (∃ e c', (readHeader pchMessageStart).run c = (.error e, c') ∧ Opened data start c' ∧
        Same c c' ∧ recordAt (magicBytes pchMessageStart) (data.drop c.nReadPos) = none) ∨
      (∃ c', (readHeader pchMessageStart).run c = (.ok none, c') ∧ Opened data start c' ∧
        Same c c' ∧ recordAt (magicBytes pchMessageStart) (data.drop c.nReadPos) = none) ∨
      ∃ nSize c', (readHeader pchMessageStart).run c = (.ok (some nSize), c') ∧
        Opened data start c' ∧ Same c c' ∧ c'.nReadPos = c.nReadPos + 8 ∧
        80 ≤ nSize ∧ nSize ≤ MAX_BLOCK_SIZE ∧
        nSize = ofLeBytes (((data.drop c.nReadPos).drop 4).take 4) ∧
        (data.drop c.nReadPos).take 4 = magicBytes pchMessageStart ∧
        8 ≤ (data.drop c.nReadPos).length := by
  have hroom : 4 + c.nRewind ≤ c.size := by
    rw [h.size, h.nRewind]
    unfold MAX_BLOCK_SIZE
    omega
  have hshort : (data.drop c.nReadPos).length < 8 →
      recordAt (magicBytes pchMessageStart) (data.drop c.nReadPos) = none := by
    intro hlt
    rw [Option.eq_none_iff_forall_ne_some]
    intro r hr
    have hlen := (recordAt_header hr).2.1
    omega
  have hlen : (data.drop c.nReadPos).length = data.length - c.nReadPos := List.length_drop
  rcases read_spec h.coherent (by simp [hlimit]) hroom with
    ⟨hn, c₁, hread, h₁, hsame, hpos⟩ | ⟨hn, e, c₁, hread, h₁, hsame⟩
  · by_cases hmagic : (data.drop c.nReadPos).take 4 = magicBytes pchMessageStart
    · have hsize : (data.drop c₁.nReadPos).take 4 = ((data.drop c.nReadPos).drop 4).take 4 := by
        rw [List.drop_drop, hpos]
      have hroom₁ : 4 + c₁.nRewind ≤ c₁.size := by rw [hsame.nRewind, hsame.size]; exact hroom
      have hlimit₁ : ∀ l ∈ c₁.nReadLimit, 4 + c₁.nReadPos ≤ l := by
        simp [hsame.nReadLimit, hlimit]
      have hrest : (readHeader pchMessageStart).run c = (do
          let size ← read 4
          let nSize := ofLeBytes size
          if nSize < 80 ∨ nSize > MAX_BLOCK_SIZE then return none
          else return some nSize : FileProg (Option ℕ)).run c₁ := by
        unfold readHeader
        rw [run_bind_ok hread, if_neg (not_not.mpr hmagic)]
      rw [hrest]
      rcases read_spec h₁ hlimit₁ hroom₁ with
        ⟨hn₁, c₂, hread₁, h₂, hsame₁, hpos₁⟩ | ⟨hn₁, e, c₂, hread₁, h₂, hsame₁⟩
      · have hopened := h.same h₂ (hsame.trans hsame₁)
        obtain ⟨nSize, hnSize⟩ : ∃ n, n = ofLeBytes (((data.drop c.nReadPos).drop 4).take 4) :=
          ⟨_, rfl⟩
        rw [hsize] at hread₁
        rw [run_bind_ok hread₁, ← hnSize]
        by_cases hrange : nSize < 80 ∨ nSize > MAX_BLOCK_SIZE
        · right; left
          refine ⟨c₂, by rw [if_pos hrange]; rfl, hopened, hsame.trans hsame₁, ?_⟩
          unfold recordAt
          rw [← hnSize]
          exact if_neg fun hheader => by omega
        · right; right
          refine ⟨nSize, c₂, by rw [if_neg hrange]; rfl, hopened, hsame.trans hsame₁, by omega,
            by omega, by omega, rfl, hmagic, by omega⟩
      · exact .inl ⟨e, c₂, run_bind_error hread₁, h.same h₂ (hsame.trans hsame₁),
          hsame.trans hsame₁, hshort (by omega)⟩
    · right; left
      refine ⟨c₁, ?_, h.same h₁ hsame, hsame, ?_⟩
      · unfold readHeader
        rw [run_bind_ok hread, if_pos hmagic]
        rfl
      · rw [Option.eq_none_iff_forall_ne_some]
        exact fun r hr => hmagic (recordAt_header hr).1
  · exact .inl ⟨e, c₁, run_bind_error hread, h.same h₁ hsame, hsame, hshort (by omega)⟩

theorem setLimit_none (c : CBufferedFile) : c.setLimit none = { c with nReadLimit := none } :=
  if_neg fun ⟨_, hn, _⟩ => by cases hn

theorem setLimit_some {n : ℕ} (h : c.nReadPos ≤ n) :
    c.setLimit (some n) = { c with nReadLimit := some n } := by
  apply if_neg
  intro ⟨m, hm, hlt⟩
  obtain rfl := Option.some.inj hm
  omega

/-- The block at the reading position is read where a record begins `8` bytes before. -/
theorem readBlock_spec (h : Opened data start c) {p nSize : ℕ} (hpos : c.nReadPos = p + 8)
    (hmin : 80 ≤ nSize) (hmax : nSize ≤ MAX_BLOCK_SIZE)
    (hsize : nSize = ofLeBytes (((data.drop p).drop 4).take 4))
    (hmagic : (data.drop p).take 4 = magicBytes pchMessageStart)
    (hlen : 8 ≤ (data.drop p).length) :
    (∃ block c', (exec (blockReader (nSize + 1))).run (c.setLimit (some (c.nReadPos + nSize))) =
        (.ok block, c') ∧ Opened data start c' ∧ c.nSrcPos ≤ c'.nSrcPos ∧
        ∃ n, recordAt (magicBytes pchMessageStart) (data.drop p) = some (block, n) ∧
          c'.nReadPos = p + n) ∨
      ∃ e c', (exec (blockReader (nSize + 1))).run (c.setLimit (some (c.nReadPos + nSize))) =
        (.error e, c') ∧ Opened data start c' ∧ c.nSrcPos ≤ c'.nSrcPos ∧
        recordAt (magicBytes pchMessageStart) (data.drop p) = none := by
  obtain ⟨c₀, hc₀⟩ : ∃ c₀, c₀ = c.setLimit (some (c.nReadPos + nSize)) := ⟨_, rfl⟩
  have hset : c₀ = { c with nReadLimit := some (c.nReadPos + nSize) } :=
    hc₀.trans (setLimit_some (Nat.le_add_right _ _))
  have h₀ : Opened data start c₀ := by
    refine ⟨hc₀ ▸ h.coherent.setLimit _, ?_, ?_⟩
    · rw [hset]
      exact h.size
    · rw [hset]
      exact h.nRewind
  have hpos₀ : c₀.nReadPos = p + 8 := by rw [hset, ← hpos]
  have hsrc₀ : c₀.nSrcPos = c.nSrcPos := by rw [hset]
  have hlimit : c₀.nReadLimit = some (p + 8 + nSize) := by rw [hset, ← hpos]
  have hmodest : Modest (c₀.size - c₀.nRewind) (p + 8 + nSize - c₀.nReadPos)
      (blockReader (nSize + 1)) := by
    have hroom : c₀.size - c₀.nRewind = MAX_BLOCK_SIZE - 8 := by
      rw [h₀.size, h₀.nRewind]
      unfold MAX_BLOCK_SIZE
      omega
    rw [hroom, hpos₀, Nat.add_sub_cancel_left]
    exact modest_block nSize hmax
  have hbody : upTo data (p + 8 + nSize) c₀ = ((data.drop p).drop 8).take nSize := by
    rw [upTo, hpos₀, Nat.add_sub_cancel_left, List.drop_drop]
  have hbodyLen : (((data.drop p).drop 8).take nSize).length < nSize + 1 := by
    rw [List.length_take]
    omega
  have hrecord : recordAt (magicBytes pchMessageStart) (data.drop p) =
      (unserializeBlock (((data.drop p).drop 8).take nSize)).map fun r =>
        (r.1, 8 + ((((data.drop p).drop 8).take nSize).length - r.2.length)) := by
    unfold recordAt
    rw [← hsize]
    exact if_pos ⟨hmagic, hlen, hmin, hmax⟩
  rw [← hc₀]
  rcases exec_spec (blockReader (nSize + 1)) h₀.coherent hlimit (by omega) hmodest with
    ⟨block, rest, c', hexec, hparse, h', hsame, hend⟩ | ⟨e, c', hexec, hparse, h', hsame⟩
  · rw [hbody] at hparse hend
    have hshorter := Reader.parse_shorter hparse
    rw [parse_block hbodyLen] at hparse
    have hfound : recordAt (magicBytes pchMessageStart) (data.drop p) =
        some (block, 8 + ((((data.drop p).drop 8).take nSize).length - rest.length)) := by
      rw [hrecord, hparse]
      rfl
    exact .inl ⟨block, c', hexec, h₀.same h' hsame, hsrc₀ ▸ hsame.nSrcPos, _, hfound, by omega⟩
  · rw [hbody, parse_block hbodyLen] at hparse
    refine .inr ⟨e, c', hexec, h₀.same h' hsame, hsrc₀ ▸ hsame.nSrcPos, ?_⟩
    rw [hrecord, hparse]
    rfl

theorem process_spec (s : Scan) (nBlockPos : ℕ) (block : CBlock) :
    (process processBlock s nBlockPos block).blkdat = s.blkdat ∧
      (process processBlock s nBlockPos block).nRewind = s.nRewind ∧
      (process processBlock s nBlockPos block).seeks = s.seeks ∧
      (process processBlock s nBlockPos block).passed = s.passed ++ [(nBlockPos, block)] := by
  unfold process
  dsimp only
  cases processBlock (s.passed ++ [(nBlockPos, block)]) with
  | none => exact ⟨rfl, rfl, rfl, rfl⟩
  | some r => exact ⟨rfl, rfl, rfl, rfl⟩

/-- Where SetPos lands. -/
def landing (s : Scan) : ℕ := (s.blkdat.setPos s.nRewind).nReadPos

/-- What a round does: it goes forward, and when SetPos lands where it should, the records that are
still ahead are passed on or are still ahead. -/
structure Advances (magic data : List Byte) (start : ℕ) (s s' : Scan) : Prop where
  opened : Opened data start s'.blkdat
  forward : s.nRewind < s'.nRewind
  nSrcPos : s'.left = false → s'.nRewind ≤ s'.blkdat.nSrcPos
  seeks : s'.seeks = s.seeks ++ [(s.nRewind, landing s)]
  ahead : landing s = s.nRewind →
    s'.passed ++ recordsFrom magic data s'.nRewind = s.passed ++ recordsFrom magic data s.nRewind

theorem le_landing {s : Scan} (h : s.nRewind ≤ s.blkdat.nSrcPos) : s.nRewind ≤ landing s := by
  unfold landing CBufferedFile.setPos
  split_ifs <;> dsimp only <;> omega

theorem round_spec {s : Scan} (h : Opened data start s.blkdat) (hstart : start ≤ s.nRewind)
    (hsrc : s.nRewind ≤ s.blkdat.nSrcPos) :
    Advances (magicBytes pchMessageStart) data start s
      (round pchMessageStart processBlock start s) := by
  obtain ⟨c₀, hc₀⟩ : ∃ c₀, c₀ = (s.blkdat.setPos s.nRewind).setLimit none := ⟨_, rfl⟩
  have hset : c₀ = { s.blkdat.setPos s.nRewind with nReadLimit := none } :=
    hc₀.trans (setLimit_none _)
  have hpos₀ : c₀.nReadPos = landing s := by rw [hset, landing]
  have hland := le_landing hsrc
  have h₀ : Opened data start c₀ := by
    refine ⟨hc₀ ▸ (h.coherent.setPos hstart).setLimit none, ?_, ?_⟩
    · rw [hset, ← h.size]
      unfold CBufferedFile.setPos
      split_ifs <;> rfl
    · rw [hset, ← h.nRewind]
      unfold CBufferedFile.setPos
      split_ifs <;> rfl
  unfold round
  dsimp only
  rw [← hc₀, hpos₀]
  rcases findByte_spec (BitVec.ofNat 8 pchMessageStart.toNat) h₀.coherent with
    ⟨c₁, hfind, h₁, hsame₁, hle, hin, hat, hbefore⟩ | ⟨e, c₁, hfind, h₁, hsame₁, hnone⟩
  · have hlimit₁ : c₁.nReadLimit = none := hsame₁.nReadLimit.trans (by rw [hset])
    have hskip : landing s = s.nRewind →
        recordsFrom (magicBytes pchMessageStart) data s.nRewind =
          recordsFrom (magicBytes pchMessageStart) data c₁.nReadPos := fun hexact =>
      recordsFrom_skip magicBytes_head (by omega) fun i hi hlt => hbefore i (by omega) hlt
    rw [hfind]
    dsimp only
    rcases readHeader_spec (h₀.same h₁ hsame₁) hlimit₁ with
      ⟨e, c₂, hread, h₂, hsame₂, hrecord⟩ | ⟨c₂, hread, h₂, hsame₂, hrecord⟩ |
      ⟨nSize, c₂, hread, h₂, hsame₂, hpos₂, hmin, hmax, hsize, hmagic, hlen⟩
    · rw [hread]
      refine ⟨h₂, Nat.lt_succ_of_le (by omega), fun hleft => Bool.noConfusion hleft, rfl,
        fun hexact => ?_⟩
      rw [hskip hexact, recordsFrom_none hrecord]
    · rw [hread]
      refine ⟨h₂, Nat.lt_succ_of_le (by omega), fun _ => hin.trans_le hsame₂.nSrcPos, rfl,
        fun hexact => ?_⟩
      rw [hskip hexact, recordsFrom_none hrecord]
    · rw [hread]
      dsimp only
      unfold loadBlock
      dsimp only
      rcases readBlock_spec h₂ hpos₂ hmin hmax hsize hmagic hlen with
        ⟨block, c₃, hexec, h₃, hsrc₃, n, hrecord, hpos₃⟩ | ⟨e, c₃, hexec, h₃, hsrc₃, hrecord⟩
      · have hn := (recordAt_header hrecord).2.2
        rw [hexec]
        dsimp only
        rw [if_pos (by omega)]
        obtain ⟨hblkdat, hnRewind, hseeks, hpassed⟩ := @process_spec processBlock
          { s with
            blkdat := c₃
            seeks := s.seeks ++ [(s.nRewind, landing s)]
            nRewind := c₃.nReadPos } c₂.nReadPos block
        refine ⟨hblkdat ▸ h₃, ?_, fun _ => ?_, hseeks, fun hexact => ?_⟩
        · rw [hnRewind]
          dsimp only
          omega
        · rw [hnRewind, hblkdat]
          exact h₃.coherent.read_le
        · rw [hnRewind, hpassed, hskip hexact, recordsFrom_some hrecord, hpos₂]
          dsimp only
          rw [hpos₃, List.append_assoc]
          rfl
      · rw [hexec]
        refine ⟨h₃, Nat.lt_succ_of_le (by omega),
          fun _ => hin.trans_le (hsame₂.nSrcPos.trans hsrc₃), rfl, fun hexact => ?_⟩
        rw [hskip hexact, recordsFrom_none hrecord]
  · rw [hfind]
    dsimp only
    refine ⟨h₀.same h₁ hsame₁, Nat.lt_succ_self _, fun hleft => Bool.noConfusion hleft, rfl,
      fun hexact => ?_⟩
    have hempty : ∀ q, s.nRewind ≤ q → recordsFrom (magicBytes pchMessageStart) data q = [] := by
      intro q hq
      rw [@recordsFrom_skip _ data q _ magicBytes_head (max q data.length) (Nat.le_max_left _ _)
        fun i hi _ => hnone i (by omega)]
      exact recordsFrom_nil (Nat.le_max_right _ _)
    rw [hempty _ (Nat.le_succ _), hempty _ le_rfl]

end Rounds

/-! The whole run. -/

section Run

variable (pchMessageStart : BitVec 32) (processBlock : List (ℕ × CBlock) → Option (Bool × Bool))
  (data : List Byte) (skip : Option ℕ)

/-- Where the scan begins. -/
def nStartByte : ℕ := skip.getD 0

/-- The state at the head of the loop after `i` rounds. -/
def state (i : ℕ) : Scan :=
  (step pchMessageStart processBlock (nStartByte skip))^[i] (begin data skip)

/-- The loop ends and goes forward with each round, SetPos lands where it should, each read gives
what the file has there, and the records of the file have been passed to ProcessBlock. -/
structure LoadsAll : Prop where
  ends : ∃ i, (state pchMessageStart processBlock data skip i).running = false
  forward : ∀ i, (state pchMessageStart processBlock data skip i).running = true →
    (state pchMessageStart processBlock data skip i).nRewind <
      (state pchMessageStart processBlock data skip (i + 1)).nRewind
  exact : ∀ i, ∀ seek ∈ (state pchMessageStart processBlock data skip i).seeks, seek.2 = seek.1
  reads : ∀ i, ∀ r ∈ (state pchMessageStart processBlock data skip i).blkdat.reads,
    r.2 = (data.drop r.1).take r.2.length
  passed : ∀ i, (state pchMessageStart processBlock data skip i).running = false →
    (state pchMessageStart processBlock data skip i).passed =
      recordsFrom (magicBytes pchMessageStart) data (nStartByte skip)

/-- The loop goes on where the source has not been read further than rewinding reaches back, and it
is left where no record is ahead. -/
def Scan.Sound (s : Scan) : Prop :=
  if s.running then s.blkdat.nSrcPos ≤ s.nRewind + s.blkdat.nRewind
  else recordsFrom (magicBytes pchMessageStart) data s.nRewind = []

variable {pchMessageStart : BitVec 32} {processBlock : List (ℕ × CBlock) → Option (Bool × Bool)}
  {data : List Byte} {skip : Option ℕ}

/-- What holds at the head of the loop. -/
structure Inv (magic data : List Byte) (start : ℕ) (s : Scan) : Prop where
  opened : Opened data start s.blkdat
  start_le : start ≤ s.nRewind
  nSrcPos : s.left = false → s.nRewind ≤ s.blkdat.nSrcPos
  ahead : (∀ seek ∈ s.seeks, seek.2 = seek.1) →
    s.passed ++ recordsFrom magic data s.nRewind = recordsFrom magic data start

theorem left_of_running {s : Scan} (h : s.running = true) : s.left = false := by
  unfold Scan.running at h
  simp only [Bool.and_eq_true, Bool.not_eq_true'] at h
  exact h.1.1

theorem inv_begin : Inv (magicBytes pchMessageStart) data (nStartByte skip) (begin data skip) := by
  have hroom : MAX_BLOCK_SIZE + 8 < 2 * MAX_BLOCK_SIZE := by decide
  have hseek := fun n => @coherent_seek
    (CBufferedFile.new data (2 * MAX_BLOCK_SIZE) (MAX_BLOCK_SIZE + 8)) hroom rfl n
  cases skip with
  | none => exact ⟨⟨{ hseek 0 with }, rfl, rfl⟩, le_rfl, fun _ => le_rfl, fun _ => rfl⟩
  | some n => exact ⟨⟨hseek n, rfl, rfl⟩, le_rfl, fun _ => le_rfl, fun _ => rfl⟩

theorem Inv.advances {start : ℕ} {s : Scan} (h : Inv (magicBytes pchMessageStart) data start s)
    (hrun : s.running = true) :
    Advances (magicBytes pchMessageStart) data start s
      (step pchMessageStart processBlock start s) := by
  unfold step
  rw [if_pos hrun]
  exact round_spec h.opened h.start_le (h.nSrcPos (left_of_running hrun))

theorem Inv.step {start : ℕ} {s : Scan} (h : Inv (magicBytes pchMessageStart) data start s) :
    Inv (magicBytes pchMessageStart) data start (step pchMessageStart processBlock start s) := by
  by_cases hrun : s.running = true
  · have hadv := @Inv.advances _ processBlock _ _ _ h hrun
    refine ⟨hadv.opened, h.start_le.trans hadv.forward.le, hadv.nSrcPos, fun hexact => ?_⟩
    rw [hadv.seeks] at hexact
    rw [hadv.ahead (hexact _ (List.mem_append_right _ (List.mem_singleton_self _)))]
    exact h.ahead fun seek hseek => hexact seek (List.mem_append_left _ hseek)
  · unfold ExternalBlockFile.step
    rw [if_neg hrun]
    exact h

theorem state_succ (i : ℕ) : state pchMessageStart processBlock data skip (i + 1) =
    step pchMessageStart processBlock (nStartByte skip)
      (state pchMessageStart processBlock data skip i) :=
  Function.iterate_succ_apply' _ _ _

theorem inv_state (i : ℕ) : Inv (magicBytes pchMessageStart) data (nStartByte skip)
    (state pchMessageStart processBlock data skip i) := by
  induction i with
  | zero => exact inv_begin
  | succ i ih =>
    rw [state_succ]
    exact ih.step

theorem landing_eq_iff {s : Scan} (h : s.nRewind ≤ s.blkdat.nSrcPos) :
    landing s = s.nRewind ↔ s.blkdat.nSrcPos ≤ s.nRewind + s.blkdat.nRewind := by
  unfold landing CBufferedFile.setPos
  split_ifs <;> dsimp only <;> omega

theorem advances_state {i : ℕ}
    (h : (state pchMessageStart processBlock data skip i).running = true) :
    Advances (magicBytes pchMessageStart) data (nStartByte skip)
      (state pchMessageStart processBlock data skip i)
      (state pchMessageStart processBlock data skip (i + 1)) := by
  rw [state_succ]
  exact (inv_state i).advances h

theorem le_nRewind {i : ℕ}
    (h : ∀ i, (state pchMessageStart processBlock data skip i).running = true) :
    i ≤ (state pchMessageStart processBlock data skip i).nRewind := by
  induction i with
  | zero => exact Nat.zero_le _
  | succ i ih =>
    have hforward := (advances_state (h i)).forward
    omega

/-- The position goes forward with each round and is never behind the end of the file. -/
theorem exists_ended : ∃ i, (state pchMessageStart processBlock data skip i).running = false := by
  by_contra hnone
  have hall : ∀ i, (state pchMessageStart processBlock data skip i).running = true := by
    intro i
    by_contra hi
    exact hnone ⟨i, Bool.eq_false_iff.mpr hi⟩
  obtain ⟨n, hn⟩ : ∃ n, n = max data.length (nStartByte skip) + 1 := ⟨_, rfl⟩
  have hinv := @inv_state pchMessageStart processBlock data skip n
  have hle := @le_nRewind pchMessageStart processBlock data skip n hall
  have hsrc := hinv.nSrcPos (left_of_running (hall n))
  have hend := hinv.opened.coherent.src_le
  omega

theorem seeks_of_sound
    (h : ∀ i, (state pchMessageStart processBlock data skip i).Sound pchMessageStart data) (i : ℕ) :
    ∀ seek ∈ (state pchMessageStart processBlock data skip i).seeks, seek.2 = seek.1 := by
  induction i with
  | zero => exact fun seek hseek => absurd hseek List.not_mem_nil
  | succ i ih =>
    by_cases hrun : (state pchMessageStart processBlock data skip i).running = true
    · have hsound := h i
      unfold Scan.Sound at hsound
      rw [if_pos hrun] at hsound
      have hle := (inv_state i).nSrcPos (left_of_running hrun)
      intro seek hseek
      rw [(advances_state hrun).seeks] at hseek
      rcases List.mem_append.mp hseek with hseek | hseek
      · exact ih seek hseek
      · obtain rfl := List.mem_singleton.mp hseek
        exact (landing_eq_iff hle).mpr hsound
    · rw [state_succ]
      unfold step
      rw [if_neg hrun]
      exact ih

/-- A file is loaded as it should be just when no round begins where rewinding does not reach, and
the loop is not left where a record is ahead. -/
theorem loadsAll_iff (pchMessageStart : BitVec 32)
    (processBlock : List (ℕ × CBlock) → Option (Bool × Bool)) (data : List Byte)
    (skip : Option ℕ) :
    LoadsAll pchMessageStart processBlock data skip ↔
      ∀ i, (state pchMessageStart processBlock data skip i).Sound pchMessageStart data := by
  constructor
  · intro h i
    have hinv := @inv_state pchMessageStart processBlock data skip i
    unfold Scan.Sound
    by_cases hrun : (state pchMessageStart processBlock data skip i).running = true
    · rw [if_pos hrun]
      apply (landing_eq_iff (hinv.nSrcPos (left_of_running hrun))).mp
      have hseek := h.exact (i + 1)
      rw [(advances_state hrun).seeks] at hseek
      exact hseek _ (List.mem_append_right _ (List.mem_singleton_self _))
    · rw [if_neg hrun]
      have hahead := hinv.ahead (h.exact i)
      rw [h.passed i (Bool.eq_false_iff.mpr hrun)] at hahead
      exact List.append_right_eq_self.mp hahead
  · intro h
    refine ⟨exists_ended, fun i hrun => (advances_state hrun).forward, seeks_of_sound h,
      fun i => (inv_state i).opened.coherent.reads, fun i hrun => ?_⟩
    have hsound := h i
    unfold Scan.Sound at hsound
    rw [hrun, if_neg Bool.false_ne_true] at hsound
    have hahead := (inv_state i).ahead (seeks_of_sound h i)
    rw [hsound, List.append_nil] at hahead
    exact hahead

/-- A magic with a size of 1000 bytes, and a record of 89 bytes behind it, with which the file
ends. -/
def falseHeader : List Byte :=
  [0x0f, 0x11, 0x0a, 0x05, 0xe8, 0x03, 0, 0] ++ [0x0f, 0x11, 0x0a, 0x05, 0x51, 0, 0, 0] ++
    [2, 0, 0, 0] ++ List.replicate 72 0 ++ [1, 0, 0, 0] ++ [0]

/-- Reading the false block runs into the end of the file, and the record is not passed on. -/
theorem record_missed : ¬LoadsAll 0x050a110f (fun _ => some (true, false)) falseHeader none := by
  intro h
  have hend : (state 0x050a110f (fun _ => some (true, false)) falseHeader none 1).running =
      false := by decide +kernel
  have hpassed := congrArg List.length (h.passed 1 hend)
  revert hpassed
  decide +kernel

end Run

end UmbrellaLtc.ExternalBlockFile
