import UmbrellaLtc.Runs
import Mathlib.Data.List.Lookmap
import Mathlib.Data.List.Nodup
import Mathlib.Data.BitVec

/-!
FindBlockPos of main.cpp: where the next block goes in the block files. The size of
the last file is kept in memory and written to the block tree database after every
block; the sizes of the other files are read from there when the last file changes.
A fresh block is placed at the recorded size. A known block lies somewhere in the file
already, and the recorded size still grows by the size of its record only.
-/

namespace UmbrellaLtc.BlockFiles

open Runs

def MAX_BLOCKFILE_SIZE : BitVec 32 := 0x8000000

def BLOCKFILE_CHUNK_SIZE : BitVec 32 := 0x1000000

structure CDiskBlockPos where
  nFile : ℤ
  nPos : BitVec 32
deriving DecidableEq

structure CBlockFileInfo where
  nBlocks : BitVec 32
  nSize : BitVec 32
  nUndoSize : BitVec 32
  nHeightFirst : BitVec 32
  nHeightLast : BitVec 32
  nTimeFirst : BitVec 64
  nTimeLast : BitVec 64
deriving DecidableEq

def CBlockFileInfo.null : CBlockFileInfo := ⟨0, 0, 0, 0, 0, 0, 0⟩

/-- CBlockFileInfo::AddBlock. The last height is compared with the first one. -/
def CBlockFileInfo.addBlock (info : CBlockFileInfo) (nHeightIn : BitVec 32) (nTimeIn : BitVec 64) :
    CBlockFileInfo :=
  let nHeightFirst :=
    if info.nBlocks = 0 ∨ nHeightIn < info.nHeightFirst then nHeightIn else info.nHeightFirst
  let nTimeFirst :=
    if info.nBlocks = 0 ∨ nTimeIn < info.nTimeFirst then nTimeIn else info.nTimeFirst
  { info with
    nBlocks := info.nBlocks + 1
    nHeightFirst := nHeightFirst
    nTimeFirst := nTimeFirst
    nHeightLast := if nHeightFirst < nHeightIn then nHeightIn else info.nHeightLast
    nTimeLast := if info.nTimeLast < nTimeIn then nTimeIn else info.nTimeLast }

/-- `infoLastBlockFile.nSize += nAddSize; infoLastBlockFile.AddBlock(nHeight, nTime);` -/
def CBlockFileInfo.grow (info : CBlockFileInfo) (nAddSize nHeight : BitVec 32)
    (nTime : BitVec 64) : CBlockFileInfo :=
  { info with nSize := info.nSize + nAddSize }.addBlock nHeight nTime

/-- The globals, and what the block tree database holds of them, newest first. -/
structure FileState where
  nLastBlockFile : ℤ
  infoLastBlockFile : CBlockFileInfo
  fileInfos : List (ℤ × CBlockFileInfo)
  lastBlockFile : Option ℤ
deriving DecidableEq

/-- The state before the first block. -/
def FileState.empty : FileState := ⟨0, .null, [], none⟩

/-- SetNull and ReadBlockFileInfo, which can fail just fine. -/
def FileState.readBlockFileInfo (s : FileState) (nFile : ℤ) : CBlockFileInfo :=
  (s.fileInfos.lookup nFile).getD .null

/-- The arguments of a call, and how the disk answers: CheckDiskSpace,
WriteBlockFileInfo and WriteLastBlockFile. -/
structure Call where
  pos : CDiskBlockPos
  nAddSize : BitVec 32
  nHeight : BitVec 32
  nTime : BitVec 64
  fKnown : Bool
  fDiskSpace : Bool
  fInfoWritten : Bool
  fLastWritten : Bool
deriving DecidableEq

/-- `while (infoLastBlockFile.nSize + nAddSize >= MAX_BLOCKFILE_SIZE)`: the file that the
loop ends at, or `none` when it has not ended after the given number of rounds. -/
def leaveFiles (s : FileState) (nAddSize : BitVec 32) :
    ℕ → ℤ → CBlockFileInfo → Option (ℤ × CBlockFileInfo)
  | 0, _, _ => none
  | fuel + 1, nFile, info =>
      if MAX_BLOCKFILE_SIZE ≤ info.nSize + nAddSize then
        leaveFiles s nAddSize fuel (nFile + 1) (s.readBlockFileInfo (nFile + 1))
      else some (nFile, info)

def chunks (nSize : BitVec 32) : BitVec 32 :=
  (nSize + BLOCKFILE_CHUNK_SIZE - 1) / BLOCKFILE_CHUNK_SIZE

/-- The file that a call ends at, and its entry. Files without an entry are empty, so that
the loop ends there or not at all. -/
def chosenFile (s : FileState) (c : Call) : Option (ℤ × CBlockFileInfo) :=
  if c.fKnown then
    if s.nLastBlockFile ≠ c.pos.nFile then some (c.pos.nFile, s.readBlockFileInfo c.pos.nFile)
    else some (s.nLastBlockFile, s.infoLastBlockFile)
  else leaveFiles s c.nAddSize (s.fileInfos.length + 2) s.nLastBlockFile s.infoLastBlockFile

/-- FindBlockPos: whether it succeeds, the position, and the state afterwards; `none` when
it does not return. -/
def findBlockPos (s : FileState) (c : Call) : Option (Bool × CDiskBlockPos × FileState) :=
  (chosenFile s c).map fun (nFile, info) =>
    let pos := if c.fKnown then c.pos else ⟨nFile, info.nSize⟩
    let info := info.grow c.nAddSize c.nHeight c.nTime
    let s' := { s with nLastBlockFile := nFile, infoLastBlockFile := info }
    if !c.fKnown && decide (chunks pos.nPos < chunks info.nSize) && !c.fDiskSpace then
      (false, pos, s')
    else if !c.fInfoWritten then (false, pos, s')
    else
      let s' := { s' with fileInfos := (nFile, info) :: s.fileInfos }
      if nFile ≠ s.nLastBlockFile && c.fLastWritten then
        (true, pos, { s' with lastBlockFile := some nFile })
      else (true, pos, s')

section Ledger

/-- The bytes of a block in its file, the eight bytes before it included. -/
structure Allocation where
  nFile : ℤ
  start : ℕ
  size : ℕ
  fKnown : Bool
deriving DecidableEq

def Allocation.Covers (a : Allocation) (nFile : ℤ) (byte : ℕ) : Prop :=
  a.nFile = nFile ∧ a.start ≤ byte ∧ byte < a.start + a.size

/-- A known position is that of the block, behind the magic number and the size; a fresh
one is where these two are written. -/
def Call.allocation (c : Call) (pos : CDiskBlockPos) : Allocation :=
  ⟨pos.nFile, if c.fKnown then pos.nPos.toNat - 8 else pos.nPos.toNat, c.nAddSize.toNat, c.fKnown⟩

/-- The files and the blocks that were given a place, newest first. -/
structure Ledger where
  files : FileState
  allocated : List Allocation
deriving DecidableEq

/-- A call that fails or does not return gives no place. -/
def Ledger.step (l : Ledger) (c : Call) : Ledger :=
  match findBlockPos l.files c with
  | none => l
  | some (true, pos, files) => ⟨files, c.allocation pos :: l.allocated⟩
  | some (false, _, files) => ⟨files, l.allocated⟩

/-- Every fresh place is apart from all places given before. -/
def Ledger.NoOverlap (l : Ledger) : Prop :=
  l.allocated.Pairwise fun later earlier => later.fKnown = false →
    ∀ nFile byte, ¬ (later.Covers nFile byte ∧ earlier.Covers nFile byte)

end Ledger

section Steps

variable {s : FileState} {c : Call}

/-- The entry of a file as a call finds it: in memory for the last one. -/
def FileState.entry (s : FileState) (nFile : ℤ) : CBlockFileInfo :=
  if nFile = s.nLastBlockFile then s.infoLastBlockFile else s.readBlockFileInfo nFile

theorem FileState.entry_last : s.entry s.nLastBlockFile = s.infoLastBlockFile := if_pos rfl

theorem FileState.entry_other {nFile : ℤ} (h : nFile ≠ s.nLastBlockFile) :
    s.entry nFile = s.readBlockFileInfo nFile := if_neg h

theorem leaveFiles_entry {nAddSize : BitVec 32} {fuel : ℕ} {nFile nFile' : ℤ}
    {info info' : CBlockFileInfo} (hlast : s.nLastBlockFile ≤ nFile) (hinfo : info = s.entry nFile)
    (h : leaveFiles s nAddSize fuel nFile info = some (nFile', info')) :
    info' = s.entry nFile' ∧ s.nLastBlockFile ≤ nFile' := by
  induction fuel generalizing nFile info with
  | zero => cases h
  | succ fuel ih =>
    unfold leaveFiles at h
    split_ifs at h with hfull
    · refine ih (by omega) ?_ h
      rw [FileState.entry_other (by omega)]
    · obtain ⟨rfl, rfl⟩ := Prod.mk.inj (Option.some.inj h)
      exact ⟨hinfo, hlast⟩

theorem chosenFile_entry {nFile : ℤ} {info : CBlockFileInfo}
    (h : chosenFile s c = some (nFile, info)) :
    info = s.entry nFile ∧ if c.fKnown then nFile = c.pos.nFile else s.nLastBlockFile ≤ nFile := by
  unfold chosenFile at h
  split_ifs at h ⊢ with hknown hother
  · obtain ⟨rfl, rfl⟩ := Prod.mk.inj (Option.some.inj h)
    exact ⟨(FileState.entry_other (Ne.symm hother)).symm, rfl⟩
  · obtain ⟨rfl, rfl⟩ := Prod.mk.inj (Option.some.inj h)
    exact ⟨FileState.entry_last.symm, not_not.mp hother⟩
  · exact leaveFiles_entry (le_refl _) FileState.entry_last.symm h

@[simp] theorem grow_nSize (info : CBlockFileInfo) (nAddSize nHeight : BitVec 32)
    (nTime : BitVec 64) : (info.grow nAddSize nHeight nTime).nSize = info.nSize + nAddSize := rfl

/-- All that a call does: it goes to a file, makes its entry in memory larger, and where it
succeeds writes the entry. -/
theorem findBlockPos_cases {ok : Bool} {pos : CDiskBlockPos} {s' : FileState}
    (h : findBlockPos s c = some (ok, pos, s')) :
    ∃ nFile info, info = (s.entry nFile).grow c.nAddSize c.nHeight c.nTime ∧
      pos = (if c.fKnown then c.pos else ⟨nFile, (s.entry nFile).nSize⟩) ∧
      (if c.fKnown then nFile = c.pos.nFile else s.nLastBlockFile ≤ nFile) ∧
      s'.nLastBlockFile = nFile ∧ s'.infoLastBlockFile = info ∧
      s'.fileInfos = if ok then (nFile, info) :: s.fileInfos else s.fileInfos := by
  unfold findBlockPos at h
  rw [Option.map_eq_some_iff] at h
  obtain ⟨⟨nFile, info⟩, hchosen, h⟩ := h
  obtain ⟨rfl, hfile⟩ := chosenFile_entry hchosen
  refine ⟨nFile, _, rfl, ?_⟩
  dsimp only at h
  split_ifs at h <;> obtain ⟨rfl, rfl, rfl⟩ := Prod.mk.inj h |>.imp id Prod.mk.inj
  all_goals simp_all

/-- A file without an entry is empty, so that the loop ends within one round for each
entry and one more, unless the block alone is too large. -/
theorem leaveFiles_returns {nAddSize : BitVec 32} (hsize : nAddSize < MAX_BLOCKFILE_SIZE)
    {fuel : ℕ} {nFile : ℤ} {info : CBlockFileInfo}
    (h : leaveFiles s nAddSize (fuel + 1) nFile info = none) :
    ∀ i < fuel, nFile + 1 + i ∈ s.fileInfos.map Prod.fst := by
  induction fuel generalizing nFile info with
  | zero =>
    intro i hi
    omega
  | succ fuel ih =>
    unfold leaveFiles at h
    split_ifs at h with hfull
    have hrest := ih h
    intro i hi
    cases i with
    | zero =>
      -- the next file has an entry: from an empty one the loop would not go on
      rw [leaveFiles] at h
      split_ifs at h with hnext
      cases hlookup : s.fileInfos.lookup (nFile + 1) with
      | none =>
        unfold FileState.readBlockFileInfo at hnext
        rw [hlookup] at hnext
        have hzero : (0 : BitVec 32) + nAddSize = nAddSize := BitVec.zero_add nAddSize
        change MAX_BLOCKFILE_SIZE ≤ 0 + nAddSize at hnext
        rw [hzero] at hnext
        exact absurd hsize (BitVec.not_lt.mpr hnext)
      | some entry =>
        obtain ⟨l₁, l₂, hsplit, -⟩ := List.lookup_eq_some_iff.mp hlookup
        rw [hsplit]
        simp
    | succ i =>
      have hmem := hrest i (by omega)
      have hindex : nFile + 1 + 1 + (i : ℤ) = nFile + 1 + ((i + 1 : ℕ) : ℤ) := by
        push_cast
        omega
      rwa [hindex] at hmem

/-- A call for a known block, or for one that fits into a file, returns. -/
theorem findBlockPos_returns (hfits : c.fKnown = true ∨ c.nAddSize < MAX_BLOCKFILE_SIZE) :
    (findBlockPos s c).isSome := by
  unfold findBlockPos
  rw [Option.isSome_map]
  unfold chosenFile
  split_ifs with hknown hother
  · rfl
  · rfl
  · by_contra hnone
    rw [Option.not_isSome_iff_eq_none] at hnone
    have hall := leaveFiles_returns (hfits.resolve_left hknown) hnone
    have hnodup : ((List.range (s.fileInfos.length + 1)).map
        fun i : ℕ => s.nLastBlockFile + 1 + i).Nodup := by
      refine List.nodup_range.map fun i j hij => ?_
      omega
    have hsubset : (List.range (s.fileInfos.length + 1)).map
        (fun i : ℕ => s.nLastBlockFile + 1 + i) ⊆ s.fileInfos.map Prod.fst := by
      intro f hf
      obtain ⟨i, hi, rfl⟩ := List.mem_map.mp hf
      exact hall i (List.mem_range.mp hi)
    have hlen := (hnodup.subperm hsubset).length_le
    simp only [List.length_map, List.length_range] at hlen
    omega

end Steps

section Invariant

/-- The known block begins, its header included, within the recorded size of its file or
right after it, and the recorded size does not pass the range of an unsigned int. -/
def Contiguous (l : Ledger) (c : Call) : Prop :=
  if c.fKnown then
    c.pos.nPos.toNat ≤ (l.files.entry c.pos.nFile).nSize.toNat + 8 ∧
      (l.files.entry c.pos.nFile).nSize.toNat + c.nAddSize.toNat < 2 ^ 32
  else
    ∀ nFile, l.files.nLastBlockFile ≤ nFile →
      (l.files.entry nFile).nSize.toNat + c.nAddSize.toNat < 2 ^ 32

/-- The entries in the database cover all places that were given. -/
structure Recorded (l : Ledger) : Prop where
  inside : ∀ a ∈ l.allocated,
    a.start + a.size ≤ (l.files.readBlockFileInfo a.nFile).nSize.toNat
  memory : (l.files.readBlockFileInfo l.files.nLastBlockFile).nSize.toNat ≤
    l.files.infoLastBlockFile.nSize.toNat
  apart : l.NoOverlap

theorem Recorded.entry {l : Ledger} (h : Recorded l) (nFile : ℤ) :
    (l.files.readBlockFileInfo nFile).nSize.toNat ≤ (l.files.entry nFile).nSize.toNat := by
  unfold FileState.entry
  split_ifs with hlast
  · rw [hlast]
    exact h.memory
  · exact le_refl _

theorem readBlockFileInfo_cons {s s' : FileState} {nFile : ℤ} {info : CBlockFileInfo}
    (h : s'.fileInfos = (nFile, info) :: s.fileInfos) (f : ℤ) :
    s'.readBlockFileInfo f = if f = nFile then info else s.readBlockFileInfo f := by
  unfold FileState.readBlockFileInfo
  rw [h, List.lookup_cons]
  by_cases hf : f = nFile
  · simp [hf]
  · have hne : (f == nFile) = false := by simpa using hf
    rw [hne, if_neg hf]

theorem recorded_step {l : Ledger} {c : Call} (hl : Recorded l) (hc : Contiguous l c) :
    Recorded (l.step c) := by
  unfold Ledger.step
  cases hfind : findBlockPos l.files c with
  | none => exact hl
  | some r =>
    obtain ⟨ok, pos, s'⟩ := r
    obtain ⟨nFile, info, rfl, rfl, hfile, hlast, hinfo, hdb⟩ := findBlockPos_cases hfind
    have hstored := hl.entry nFile
    -- the new size of the file, without wrapping
    have hsum : (l.files.entry nFile).nSize.toNat + c.nAddSize.toNat < 2 ^ 32 := by
      unfold Contiguous at hc
      split_ifs at hc hfile with hknown
      · rw [hfile]
        exact hc.2
      · exact hc nFile hfile
    have hgrown : (s'.infoLastBlockFile).nSize.toNat =
        (l.files.entry nFile).nSize.toNat + c.nAddSize.toNat := by
      rw [hinfo, grow_nSize, BitVec.toNat_add, Nat.mod_eq_of_lt hsum]
    cases ok with
    | false =>
      have hsame : ∀ f, s'.readBlockFileInfo f = l.files.readBlockFileInfo f := by
        intro f
        unfold FileState.readBlockFileInfo
        rw [hdb]
        rfl
      refine ⟨fun a ha => ?_, ?_, hl.apart⟩
      · dsimp only
        rw [hsame]
        exact hl.inside a ha
      · dsimp only
        rw [hsame, hgrown, hlast]
        omega
    | true =>
      have hread := readBlockFileInfo_cons hdb
      rw [← hinfo] at hread
      have hfresh : (c.allocation (if c.fKnown then c.pos else
          ⟨nFile, (l.files.entry nFile).nSize⟩)).nFile = nFile ∧
          (c.allocation (if c.fKnown then c.pos else
            ⟨nFile, (l.files.entry nFile).nSize⟩)).start ≤ (l.files.entry nFile).nSize.toNat := by
        unfold Call.allocation
        unfold Contiguous at hc
        split_ifs at hc hfile ⊢ with hknown
        · dsimp only
          rw [hfile]
          exact ⟨rfl, by omega⟩
        · exact ⟨rfl, le_refl _⟩
      refine ⟨fun a ha => ?_, ?_, ?_⟩
      · dsimp only
        rw [hread]
        obtain rfl | ha := List.mem_cons.mp ha
        · rw [if_pos hfresh.1, hgrown]
          exact Nat.add_le_add_right hfresh.2 _
        · have hinside := hl.inside a ha
          split_ifs with hsame
          · rw [hsame] at hinside
            omega
          · exact hinside
      · dsimp only
        rw [hread, if_pos hlast]
      · refine List.pairwise_cons.mpr ⟨fun a ha hknown f byte hboth => ?_, hl.apart⟩
        obtain ⟨⟨hf, hlow, -⟩, haf, -, hhigh⟩ := hboth
        have hinside := hl.inside a ha
        change c.fKnown = false at hknown
        rw [hfresh.1] at hf
        rw [haf, ← hf] at hinside
        unfold Call.allocation at hlow
        rw [if_neg (by rw [hknown]; exact Bool.false_ne_true),
          if_neg (by rw [hknown]; exact Bool.false_ne_true)] at hlow
        dsimp only at hlow
        omega

theorem recorded_empty : Recorded ⟨.empty, []⟩ :=
  ⟨fun _ ha => absurd ha List.not_mem_nil, le_refl _, List.Pairwise.nil⟩

end Invariant

/-- In every run whose known blocks leave no gap behind the recorded size of their file,
and in which no recorded size passes the range of an unsigned int, every fresh place is
apart from all places given before, in every state reached. -/
theorem allocations_apart (calls : List Call)
    (hcalls : EachStep Ledger.step Contiguous ⟨.empty, []⟩ calls) :
    Throughout Ledger.step Ledger.NoOverlap ⟨.empty, []⟩ calls :=
  (throughout_of_eachStep (fun _ _ => recorded_step) recorded_empty hcalls).mono
    fun _ h => h.apart

section Gaps

/-- A call that the disk lets through. -/
def answered (nFile : ℤ) (nPos nAddSize : BitVec 32) (fKnown : Bool) : Call :=
  ⟨⟨nFile, nPos⟩, nAddSize, 0, 0, fKnown, true, true, true⟩

/-- Two blocks of a file that is read again, and a new block. -/
theorem allocations_apart_three :
    Throughout Ledger.step Ledger.NoOverlap ⟨.empty, []⟩
      [answered 0 8 300 true, answered 0 308 500 true, answered 0 0 1000 false] := by
  refine allocations_apart _ ⟨?_, ?_, ?_, trivial⟩
  · exact ⟨by decide, by decide⟩
  · exact ⟨by decide, by decide⟩
  · intro nFile hnFile
    by_cases hfile : nFile = 0
    · rw [hfile]
      decide
    · have hother : ∀ s : FileState, s.nLastBlockFile = 0 → s.fileInfos.map Prod.fst = [0, 0] →
          s.entry nFile = .null := by
        intro s hlast hkeys
        rw [FileState.entry_other (by omega), FileState.readBlockFileInfo,
          List.lookup_eq_none_iff.mpr]
        · rfl
        · intro p hp
          have hkey := List.mem_map_of_mem (f := Prod.fst) hp
          rw [hkeys] at hkey
          simp only [List.mem_cons, List.not_mem_nil, or_false, or_self] at hkey
          rw [hkey]
          simpa using hfile
      rw [hother _ (by decide) (by decide)]
      decide

/-- A thousand bytes that are no record, a known block behind them, and a fresh one. -/
def gapCalls : List Call := [answered 0 1008 300 true, answered 0 0 1000 false]

/-- The recorded size is then three hundred, and the fresh block is put over the known
one. -/
theorem gapCalls_overlap :
    (run Ledger.step ⟨.empty, []⟩ gapCalls).allocated =
        [⟨0, 300, 1000, false⟩, ⟨0, 1000, 300, true⟩] ∧
      ¬ Throughout Ledger.step Ledger.NoOverlap ⟨.empty, []⟩ gapCalls := by
  have hrun : (run Ledger.step ⟨.empty, []⟩ gapCalls).allocated =
      [⟨0, 300, 1000, false⟩, ⟨0, 1000, 300, true⟩] := by decide
  refine ⟨hrun, fun h => ?_⟩
  have hlast := h.last
  unfold Ledger.NoOverlap at hlast
  rw [hrun] at hlast
  have hpair := (List.pairwise_cons.mp hlast).1 _ List.mem_cons_self rfl 0 1000
  exact hpair ⟨⟨rfl, by decide, by decide⟩, rfl, by decide, by decide⟩

end Gaps

end UmbrellaLtc.BlockFiles
