import UmbrellaLtc.Prog
import UmbrellaLtc.Reader
import Mathlib.Data.List.GetD

/-!
CBufferedFile of serialize.h, over the content of the file. The ring buffer is a function of the
index. What each read has given is recorded with the position that it was for; from a coherent
state this is always what the file holds there, however the buffer has been filled and rewound.
-/

namespace UmbrellaLtc.BufferedFile

open Codec Prog

section Operations

/-- A file that is open for reading. -/
structure FILE where
  content : List Byte
  offset : ℕ
  feof : Bool

structure CBufferedFile where
  src : FILE
  nSrcPos : ℕ
  nReadPos : ℕ
  nReadLimit : Option ℕ
  nRewind : ℕ
  size : ℕ
  vchBuf : ℕ → Byte
  failbit : Bool
  reads : List (ℕ × List Byte)

abbrev FileProg := Prog CBufferedFile String

namespace CBufferedFile

def new (content : List Byte) (nBufSize nRewindIn : ℕ) : CBufferedFile where
  src := ⟨content, 0, false⟩
  nSrcPos := 0
  nReadPos := 0
  nReadLimit := none
  nRewind := nRewindIn
  size := nBufSize
  vchBuf := fun _ => 0
  failbit := false
  reads := []

variable (c : CBufferedFile)

def good : Bool := !c.failbit

def eof : Bool := c.nReadPos == c.nSrcPos && c.src.feof

def setPos (nPos : ℕ) : CBufferedFile :=
  if nPos + c.nRewind < c.nSrcPos then { c with nReadPos := c.nSrcPos - c.nRewind }
  else if nPos > c.nSrcPos then { c with nReadPos := c.nSrcPos }
  else { c with nReadPos := nPos }

/-- `Seek`, which no file refuses. -/
def seek (nPos : ℕ) : CBufferedFile :=
  { c with
    src := ⟨c.src.content, nPos, false⟩
    nSrcPos := nPos
    nReadPos := nPos
    failbit := false }

/-- `SetLimit`; without an argument it removes the limit. -/
def setLimit (nPos : Option ℕ) : CBufferedFile :=
  if ∃ n ∈ nPos, n < c.nReadPos then c else { c with nReadLimit := nPos }

end CBufferedFile

/-- What `fread` copies, from this index on. -/
def overwrite (vchBuf : ℕ → Byte) (pos : ℕ) (bytes : List Byte) (i : ℕ) : Byte :=
  if i < pos then vchBuf i else bytes.getD (i - pos) (vchBuf i)

def fill : FileProg Bool := fun c =>
  let pos := c.nSrcPos % c.size
  let nAvail := c.size - (c.nSrcPos - c.nReadPos) - c.nRewind
  let readNow := min (c.size - pos) nAvail
  if readNow = 0 then (.ok false, c)
  else
    let read := (c.src.content.drop c.src.offset).take readNow
    let src : FILE := ⟨c.src.content, c.src.offset + read.length,
      c.src.feof || read.length < readNow⟩
    if read = [] then
      (.error "CBufferedFile::Fill : end of file", { c with src := src, failbit := true })
    else
      (.ok true, { c with
        src := src
        nSrcPos := c.nSrcPos + read.length
        vchBuf := overwrite c.vchBuf pos read })

/-- `if (nReadPos == nSrcPos) Fill();`. -/
def refill : FileProg Unit := fun c =>
  if c.nReadPos = c.nSrcPos then (do let _ ← fill) c else (.ok (), c)

/-- The bytes that one round of `read` copies. -/
def copy (nSize : ℕ) : FileProg (List Byte) := act fun c =>
  let pos := c.nReadPos % c.size
  let nNow := min (min nSize (c.size - pos)) (c.nSrcPos - c.nReadPos)
  ((List.range nNow).map fun i => c.vchBuf (pos + i), { c with nReadPos := c.nReadPos + nNow })

/-- The loop of `read`, for so many rounds at most. -/
def readLoop : ℕ → ℕ → FileProg (List Byte)
  | 0, _ => pure []
  | fuel + 1, nSize =>
      if nSize = 0 then pure []
      else do
        refill
        let part ← copy nSize
        let rest ← readLoop fuel (nSize - part.length)
        return part ++ rest

/-- Notes what has been read. -/
def note (nPos : ℕ) (bytes : List Byte) : FileProg Unit := act fun c =>
  ((), { c with reads := c.reads ++ [(nPos, bytes)] })

def read (nSize : ℕ) : FileProg (List Byte) := fun c =>
  if ∃ limit ∈ c.nReadLimit, nSize + c.nReadPos > limit then
    (.error "Read attempted past buffer limit", c)
  else if nSize + c.nRewind > c.size then (.error "Read larger than buffer size", c)
  else (do
    let bytes ← readLoop nSize nSize
    note c.nReadPos bytes
    return bytes : FileProg (List Byte)) c

/-- The byte at the reading position. -/
def peek : FileProg Byte := act fun c => (c.vchBuf (c.nReadPos % c.size), c)

/-- The loop of `FindByte`, for so many rounds at most. -/
def findLoop (ch : Byte) : ℕ → FileProg Unit
  | 0 => fail "out of rounds"
  | fuel + 1 => do
      refill
      let b ← peek
      note (← act fun c => (c.nReadPos, c)) [b]
      if b = ch then pure ()
      else do
        act fun c => ((), { c with nReadPos := c.nReadPos + 1 })
        findLoop ch fuel

/-- `FindByte`. A round takes the position forward or comes to the end of the file. -/
def findByte (ch : Byte) : FileProg Unit := fun c => findLoop ch (c.src.content.length + 1) c

/-- A reader that reads from the file. -/
def exec {α : Type} : Reader α → FileProg α
  | .done a => pure a
  | .fail => fail "deserialization failed"
  | .read n next => do
      let bs ← read n
      exec (next bs)

end Operations

section Coherence

variable {data : List Byte} {start : ℕ} {c c' : CBufferedFile}

/-- The buffer holds what the file has at the last positions before nSrcPos, from where reading has
started. -/
structure Coherent (data : List Byte) (start : ℕ) (c : CBufferedFile) : Prop where
  content : c.src.content = data
  offset : c.src.offset = c.nSrcPos
  room : c.nRewind < c.size
  start_le : start ≤ c.nReadPos
  read_le : c.nReadPos ≤ c.nSrcPos
  window : c.nSrcPos ≤ c.nReadPos + c.size
  src_le : c.nSrcPos ≤ max data.length start
  held : ∀ i, start ≤ i → i < c.nSrcPos → c.nSrcPos ≤ i + c.size →
    data[i]? = some (c.vchBuf (i % c.size))
  reads : ∀ r ∈ c.reads, r.2 = (data.drop r.1).take r.2.length

/-- What reading leaves as it is; and nothing is given back to the source. -/
structure Same (c c' : CBufferedFile) : Prop where
  nReadLimit : c'.nReadLimit = c.nReadLimit
  nRewind : c'.nRewind = c.nRewind
  size : c'.size = c.size
  nSrcPos : c.nSrcPos ≤ c'.nSrcPos

theorem Same.refl (c : CBufferedFile) : Same c c := ⟨rfl, rfl, rfl, le_rfl⟩

theorem Same.trans {c₁ : CBufferedFile} (h : Same c c₁) (h₁ : Same c₁ c') : Same c c' :=
  ⟨h₁.nReadLimit.trans h.nReadLimit, h₁.nRewind.trans h.nRewind, h₁.size.trans h.size,
    h.nSrcPos.trans h₁.nSrcPos⟩

/-- Two positions in one window of the buffer have different places. -/
theorem mod_ne {i j n : ℕ} (hij : i < j) (hwindow : j < i + n) : i % n ≠ j % n := by
  intro heq
  have hdvd : n ∣ j - i := (Nat.modEq_iff_dvd' hij.le).mp heq
  have hle := Nat.le_of_dvd (by omega) hdvd
  omega

theorem mod_add {n src d : ℕ} (h : src % n + d < n) : (src + d) % n = src % n + d := by
  have hsplit : src + d = src % n + d + n * (src / n) := by
    have hdiv := Nat.mod_add_div src n
    omega
  rw [hsplit, Nat.add_mul_mod_self_left, Nat.mod_eq_of_lt h]

/-- The new bytes stand at their places, and the older ones of the window where they were. -/
theorem overwrite_spec {vchBuf : ℕ → Byte} {n src : ℕ} {read : List Byte} (hn : 0 < n)
    (hfits : read.length ≤ n - src % n) {i : ℕ} (hwindow : src + read.length ≤ i + n)
    (hlt : i < src + read.length) :
    overwrite vchBuf (src % n) read (i % n) =
      if i < src then vchBuf (i % n) else read.getD (i - src) 0 := by
  have hmod := Nat.mod_lt src hn
  unfold overwrite
  by_cases hold : i < src
  · rw [if_pos hold]
    by_cases hplace : i % n < src % n
    · exact if_pos hplace
    · rw [if_neg hplace]
      apply List.getD_eq_default
      by_contra hin
      -- the place would be that of a new byte
      have hsame := @mod_add n src (i % n - src % n)
        (by have hi := Nat.mod_lt i hn; omega)
      have hne := @mod_ne i (src + (i % n - src % n)) n (by omega) (by omega)
      omega
  · rw [if_neg hold]
    obtain ⟨d, rfl⟩ := Nat.exists_eq_add_of_le (not_lt.mp hold)
    have hd : d < read.length := by omega
    rw [mod_add (by omega), if_neg (by omega), Nat.add_sub_cancel_left, Nat.add_sub_cancel_left,
      List.getD_eq_getElem _ _ hd, List.getD_eq_getElem _ _ hd]

/-- A round of reading from the source takes bytes, or the file is at its end. -/
theorem fill_spec (h : Coherent data start c) (heq : c.nReadPos = c.nSrcPos) :
    (∃ c', fill.run c = (.ok true, c') ∧ Coherent data start c' ∧ Same c c' ∧
        c'.nReadPos = c.nReadPos ∧ c'.nReadPos < c'.nSrcPos) ∨
      ∃ e c', fill.run c = (.error e, c') ∧ Coherent data start c' ∧ Same c c' ∧
        c'.nReadPos = c.nReadPos ∧ data.length ≤ c.nReadPos := by
  have hsize : 0 < c.size := (Nat.zero_le _).trans_lt h.room
  have hmod := Nat.mod_lt c.nSrcPos hsize
  have hroom := h.room
  have hrun : fill.run c = fill c := rfl
  obtain ⟨readNow, hreadNow⟩ : ∃ n, n = min (c.size - c.nSrcPos % c.size)
    (c.size - (c.nSrcPos - c.nReadPos) - c.nRewind) := ⟨_, rfl⟩
  obtain ⟨read, hread⟩ : ∃ l, l = (c.src.content.drop c.src.offset).take readNow := ⟨_, rfl⟩
  obtain ⟨src, hsrc⟩ : ∃ s : FILE, s = ⟨c.src.content, c.src.offset + read.length,
    c.src.feof || read.length < readNow⟩ := ⟨_, rfl⟩
  have hpos : readNow ≠ 0 := by omega
  have hlen : read.length = min readNow (data.length - c.nSrcPos) := by
    rw [hread, h.content, h.offset, List.length_take, List.length_drop]
  unfold fill at hrun
  dsimp only at hrun
  rw [← hreadNow, if_neg hpos, ← hread, ← hsrc] at hrun
  have hcontent : src.content = data := hsrc ▸ h.content
  have hoffset : src.offset = c.nSrcPos + read.length := by rw [hsrc, ← h.offset]
  by_cases hnil : read = []
  · right
    rw [if_pos hnil] at hrun
    rw [hnil, List.length_nil] at hlen hoffset
    refine ⟨_, _, hrun, ?_, ⟨rfl, rfl, rfl, le_rfl⟩, rfl, by omega⟩
    exact { h with content := hcontent, offset := hoffset }
  · left
    rw [if_neg hnil] at hrun
    have hne := List.length_pos_iff.mpr hnil
    have hstart := h.start_le
    refine ⟨_, hrun, ?_, ⟨rfl, rfl, rfl, Nat.le_add_right _ _⟩, rfl, by dsimp only; omega⟩
    refine { h with
      content := hcontent
      offset := hoffset
      read_le := by dsimp only; omega
      window := by dsimp only; omega
      src_le := by dsimp only; omega
      held := fun i hi hlt hwindow => ?_ }
    dsimp only at hi hlt hwindow ⊢
    rw [overwrite_spec hsize (by omega) hwindow hlt]
    by_cases hold : i < c.nSrcPos
    · rw [if_pos hold]
      exact h.held i hi hold (by omega)
    · have hd : i - c.nSrcPos < read.length := by omega
      rw [if_neg hold, List.getD_eq_getElem _ _ hd, ← List.getElem?_eq_getElem hd, hread,
        h.content, h.offset, List.getElem?_take_of_lt (by omega), List.getElem?_drop]
      congr 1
      omega

theorem refill_spec (h : Coherent data start c) :
    (∃ c', refill.run c = (.ok (), c') ∧ Coherent data start c' ∧ Same c c' ∧
        c'.nReadPos = c.nReadPos ∧ c'.nReadPos < c'.nSrcPos) ∨
      ∃ e c', refill.run c = (.error e, c') ∧ Coherent data start c' ∧ Same c c' ∧
        c'.nReadPos = c.nReadPos ∧ data.length ≤ c.nReadPos := by
  by_cases heq : c.nReadPos = c.nSrcPos
  · have hrun : refill.run c = (do let _ ← fill : FileProg Unit).run c := if_pos heq
    rcases fill_spec h heq with ⟨c', hfill, hspec⟩ | ⟨e, c', hfill, hspec⟩
    · exact .inl ⟨c', hrun.trans (run_bind_ok hfill), hspec⟩
    · exact .inr ⟨e, c', hrun.trans (run_bind_error hfill), hspec⟩
  · have hread := h.read_le
    exact .inl ⟨c, if_neg heq, h, Same.refl c, rfl, by omega⟩

/-- The bytes that are copied are those of the file. -/
theorem copy_spec (h : Coherent data start c) (hread : c.nReadPos < c.nSrcPos) {nSize : ℕ}
    (hsize : nSize ≠ 0) :
    ∃ k c', (copy nSize).run c = (.ok ((data.drop c.nReadPos).take k), c') ∧ 0 < k ∧ k ≤ nSize ∧
      k ≤ data.length - c.nReadPos ∧ Coherent data start c' ∧ Same c c' ∧
      c'.nReadPos = c.nReadPos + k := by
  have hroom := h.room
  have hmod := Nat.mod_lt c.nReadPos ((Nat.zero_le _).trans_lt hroom)
  have hstart := h.start_le
  have hsrc := h.src_le
  have hwindow := h.window
  obtain ⟨k, hk⟩ : ∃ k, k = min (min nSize (c.size - c.nReadPos % c.size))
    (c.nSrcPos - c.nReadPos) := ⟨_, rfl⟩
  have hbytes : ((List.range k).map fun i => c.vchBuf (c.nReadPos % c.size + i)) =
      (data.drop c.nReadPos).take k := by
    apply List.ext_getElem
    · rw [List.length_map, List.length_range, List.length_take, List.length_drop]
      omega
    · intro i hi hi'
      rw [List.length_map, List.length_range] at hi
      have hheld := h.held (c.nReadPos + i) (by omega) (by omega) (by omega)
      rw [mod_add (by omega)] at hheld
      rw [List.getElem_map, List.getElem_range, List.getElem_take, List.getElem_drop]
      exact (Option.some.inj ((List.getElem?_eq_getElem _).symm.trans hheld)).symm
  refine ⟨k, { c with nReadPos := c.nReadPos + k }, ?_, by omega, by omega, by omega, ?_,
    ⟨rfl, rfl, rfl, le_rfl⟩, rfl⟩
  · rw [← hbytes, hk]
    rfl
  · exact { h with
      start_le := by dsimp only; omega
      read_le := by dsimp only; omega
      window := by dsimp only; omega }

/-- What a program that reads `n` bytes ends in: they have been read, or the file has less. -/
def ReadsFile (data : List Byte) (start n : ℕ) (c : CBufferedFile)
    (x : FileProg (List Byte)) : Prop :=
  (n ≤ data.length - c.nReadPos ∧ ∃ c', x.run c = (.ok ((data.drop c.nReadPos).take n), c') ∧
      Coherent data start c' ∧ Same c c' ∧ c'.nReadPos = c.nReadPos + n) ∨
    (data.length - c.nReadPos < n ∧ ∃ e c', x.run c = (.error e, c') ∧
      Coherent data start c' ∧ Same c c')

theorem readLoop_spec (fuel : ℕ) {n : ℕ} (hn : n ≤ fuel) (h : Coherent data start c) :
    ReadsFile data start n c (readLoop fuel n) := by
  induction fuel generalizing n c with
  | zero =>
    obtain rfl := Nat.le_zero.mp hn
    exact .inl ⟨Nat.zero_le _, c, rfl, h, Same.refl c, rfl⟩
  | succ fuel ih =>
    unfold readLoop
    by_cases hzero : n = 0
    · subst hzero
      exact .inl ⟨Nat.zero_le _, c, rfl, h, Same.refl c, rfl⟩
    rw [if_neg hzero]
    rcases refill_spec h with ⟨c₁, hfill, h₁, hsame₁, hpos₁, hlt⟩ | ⟨e, c₁, hfill, h₁, hsame₁, _, hend⟩
    · obtain ⟨k, c₂, hcopy, hkpos, hkn, hkdata, h₂, hsame₂, hpos₂⟩ := copy_spec h₁ hlt hzero
      have hlen : ((data.drop c₁.nReadPos).take k).length = k := by
        rw [List.length_take, List.length_drop]
        omega
      have hrest := ih (n := n - k) (by omega) h₂
      unfold ReadsFile at hrest ⊢
      rw [run_bind_ok hfill, run_bind_ok hcopy, hlen]
      rw [hpos₂, hpos₁] at hrest
      rw [hpos₁] at hkdata ⊢
      rcases hrest with ⟨hle, c₃, hloop, h₃, hsame₃, hpos₃⟩ | ⟨hlt', e, c₃, hloop, h₃, hsame₃⟩
      · refine .inl ⟨by omega, c₃, ?_, h₃, (hsame₁.trans hsame₂).trans hsame₃, by omega⟩
        rw [run_bind_ok hloop, ← List.drop_drop, ← List.take_add]
        have hall : k + (n - k) = n := by omega
        rw [hall]
        rfl
      · exact .inr ⟨by omega, e, c₃, run_bind_error hloop, h₃, (hsame₁.trans hsame₂).trans hsame₃⟩
    · exact .inr ⟨by omega, e, c₁, run_bind_error hfill, h₁, hsame₁⟩

theorem Coherent.note (h : Coherent data start c) {nPos : ℕ} {bytes : List Byte}
    (hbytes : bytes = (data.drop nPos).take bytes.length) :
    Coherent data start { c with reads := c.reads ++ [(nPos, bytes)] } := by
  refine { h with reads := fun r hr => ?_ }
  rcases List.mem_append.mp hr with hr | hr
  · exact h.reads r hr
  · obtain rfl := List.mem_singleton.mp hr
    exact hbytes

theorem Coherent.setLimit (h : Coherent data start c) (nPos : Option ℕ) :
    Coherent data start (c.setLimit nPos) := by
  unfold CBufferedFile.setLimit
  split_ifs
  · exact h
  · exact { h with }

/-- Rewinding stays within the window. -/
theorem Coherent.setPos (h : Coherent data start c) {nPos : ℕ} (hstart : start ≤ nPos) :
    Coherent data start (c.setPos nPos) := by
  have hroom := h.room
  have hread := h.read_le
  have hwindow := h.window
  have hfirst := h.start_le
  unfold CBufferedFile.setPos
  split_ifs with hfar hbeyond
  all_goals exact { h with
    start_le := by dsimp only; omega
    read_le := by dsimp only; omega
    window := by dsimp only; omega }

theorem coherent_seek (hroom : c.nRewind < c.size) (hreads : c.reads = []) (nPos : ℕ) :
    Coherent c.src.content nPos (c.seek nPos) where
  content := rfl
  offset := rfl
  room := hroom
  start_le := le_rfl
  read_le := le_rfl
  window := Nat.le_add_right _ _
  src_le := Nat.le_max_right _ _
  held i hi hlt := absurd hlt (not_lt.mpr hi)
  reads r hr := by
    rw [show (c.seek nPos).reads = [] from hreads] at hr
    cases hr

theorem take_drop_self (n p : ℕ) :
    (data.drop p).take n = (data.drop p).take ((data.drop p).take n).length := by
  rw [List.length_take, List.take_eq_take_iff]
  omega

/-- `read`, when neither limit is in its way. -/
theorem read_spec {n : ℕ} (h : Coherent data start c)
    (hlimit : ∀ limit ∈ c.nReadLimit, n + c.nReadPos ≤ limit) (hsize : n + c.nRewind ≤ c.size) :
    ReadsFile data start n c (read n) := by
  have hrun : (read n).run c = (do
      let bytes ← readLoop n n
      note c.nReadPos bytes
      return bytes : FileProg (List Byte)).run c := by
    show read n c = _
    unfold read
    rw [if_neg (by push Not; exact hlimit), if_neg (by omega)]
    rfl
  unfold ReadsFile
  rw [hrun]
  rcases readLoop_spec n le_rfl h with ⟨hle, c', hloop, h', hsame, hpos⟩ | ⟨hlt, e, c', hloop, hspec⟩
  · refine .inl ⟨hle, _, run_bind_ok hloop, h'.note (take_drop_self n c.nReadPos),
      ⟨hsame.1, hsame.2, hsame.3, hsame.4⟩, hpos⟩
  · exact .inr ⟨hlt, e, c', run_bind_error hloop, hspec⟩

/-- The byte at the reading position is that of the file, and is noted. -/
theorem peek_spec (h : Coherent data start c) (hread : c.nReadPos < c.nSrcPos) :
    ∃ b, data[c.nReadPos]? = some b ∧ peek.run c = (.ok b, c) ∧
      Coherent data start { c with reads := c.reads ++ [(c.nReadPos, [b])] } := by
  have hheld := h.held c.nReadPos h.start_le hread h.window
  refine ⟨_, hheld, rfl, h.note ?_⟩
  rw [List.length_singleton, List.take_one, List.head?_drop, hheld]
  rfl

/-- A program that looks for a byte comes to its next place, or there is none. -/
def Finds (data : List Byte) (start : ℕ) (ch : Byte) (c : CBufferedFile) (x : FileProg Unit) :
    Prop :=
  (∃ c', x.run c = (.ok (), c') ∧ Coherent data start c' ∧ Same c c' ∧
      c.nReadPos ≤ c'.nReadPos ∧ c'.nReadPos < c'.nSrcPos ∧ data[c'.nReadPos]? = some ch ∧
      ∀ i, c.nReadPos ≤ i → i < c'.nReadPos → data[i]? ≠ some ch) ∨
    ∃ e c', x.run c = (.error e, c') ∧ Coherent data start c' ∧ Same c c' ∧
      ∀ i, c.nReadPos ≤ i → data[i]? ≠ some ch

theorem findLoop_spec (ch : Byte) (fuel : ℕ) (hfuel : data.length < fuel + c.nReadPos)
    (h : Coherent data start c) : Finds data start ch c (findLoop ch fuel) := by
  induction fuel generalizing c with
  | zero =>
    refine .inr ⟨_, c, rfl, h, Same.refl c, fun i hi => ?_⟩
    rw [List.getElem?_eq_none (by omega)]
    exact (Option.some_ne_none ch).symm
  | succ fuel ih =>
    rcases refill_spec h with ⟨c₁, hfill, h₁, hsame₁, hpos₁, hlt⟩ | ⟨e, c₁, hfill, h₁, hsame₁, _, hend⟩
    · obtain ⟨b, hb, hpeek, h₂⟩ := peek_spec h₁ hlt
      rw [hpos₁] at hb
      by_cases hch : b = ch
      · refine .inl ⟨{ c₁ with reads := c₁.reads ++ [(c₁.nReadPos, [b])] }, ?_, h₂,
          ⟨hsame₁.1, hsame₁.2, hsame₁.3, hsame₁.4⟩, hpos₁.ge, hlt, ?_, fun i hi hlt' => ?_⟩
        · unfold findLoop
          rw [run_bind_ok hfill, run_bind_ok hpeek]
          simp only [if_pos hch]
          rfl
        · rw [← hch, ← hb, ← hpos₁]
        · exact absurd hlt' (by dsimp only; omega)
      · obtain ⟨c₂, hc₂⟩ : ∃ c₂ : CBufferedFile, c₂ = { c₁ with
            reads := c₁.reads ++ [(c₁.nReadPos, [b])]
            nReadPos := c₁.nReadPos + 1 } := ⟨_, rfl⟩
        have hpos₂ : c₂.nReadPos = c.nReadPos + 1 := by rw [hc₂, ← hpos₁]
        have hcoherent : Coherent data start c₂ := by
          have hwindow := h₁.window
          have hstart := h₁.start_le
          rw [hc₂]
          exact { h₂ with
            start_le := by dsimp only; omega
            read_le := by dsimp only; omega
            window := by dsimp only; omega }
        have hsame₂ : Same c c₂ := hc₂ ▸ ⟨hsame₁.1, hsame₁.2, hsame₁.3, hsame₁.4⟩
        have hrun : (findLoop ch (fuel + 1)).run c = (findLoop ch fuel).run c₂ := by
          rw [findLoop, run_bind_ok hfill, run_bind_ok hpeek]
          simp only [if_neg hch]
          rw [hc₂]
          rfl
        have hhere : ∀ i, c.nReadPos ≤ i → i < c.nReadPos + 1 → data[i]? ≠ some ch := by
          intro i hi hlt'
          obtain rfl : i = c.nReadPos := by omega
          rw [hb]
          exact fun heq => hch (Option.some.inj heq)
        unfold Finds
        rw [hrun]
        rcases ih (by omega) hcoherent with ⟨c₃, hfind, h₃, hsame₃, hle, hin, hat, hbefore⟩ |
          ⟨e, c₃, hfind, h₃, hsame₃, hnone⟩
        · refine .inl ⟨c₃, hfind, h₃, hsame₂.trans hsame₃, by omega, hin, hat, fun i hi hlt' => ?_⟩
          by_cases hnext : i < c.nReadPos + 1
          · exact hhere i hi hnext
          · exact hbefore i (by omega) hlt'
        · refine .inr ⟨e, c₃, hfind, h₃, hsame₂.trans hsame₃, fun i hi => ?_⟩
          by_cases hnext : i < c.nReadPos + 1
          · exact hhere i hi hnext
          · exact hnone i (by omega)
    · refine .inr ⟨e, c₁, run_bind_error hfill, h₁, hsame₁, fun i hi => ?_⟩
      rw [List.getElem?_eq_none (by omega)]
      exact (Option.some_ne_none ch).symm

theorem findByte_spec (ch : Byte) (h : Coherent data start c) :
    Finds data start ch c (findByte ch) := by
  have hrun : (findByte ch).run c = (findLoop ch (data.length + 1)).run c := by
    rw [← h.content]
    rfl
  unfold Finds
  rw [hrun]
  exact findLoop_spec ch (data.length + 1) (by omega) h

end Coherence

section Readers

variable {α : Type} {data : List Byte} {start : ℕ} {c : CBufferedFile}

/-- Up to a limit that is `left` bytes away, a reader does not ask for more than `room` bytes. -/
def Modest (room : ℕ) : ℕ → Reader α → Prop
  | left, .read n next =>
      (n ≤ left → n ≤ room) ∧ ∀ bs, bs.length = n → Modest room (left - n) (next bs)
  | _, _ => True

theorem modest_of_le {room left : ℕ} (h : left ≤ room) (r : Reader α) : Modest room left r := by
  induction r generalizing left with
  | done a => trivial
  | fail => trivial
  | read n next ih => exact ⟨fun hn => hn.trans h, fun bs _ => ih bs (by omega)⟩

/-- What lies between the reading position and a limit. -/
def upTo (data : List Byte) (limit : ℕ) (c : CBufferedFile) : List Byte :=
  (data.drop c.nReadPos).take (limit - c.nReadPos)

/-- A reader gives on the file what it gives on the bytes up to the limit. -/
theorem exec_spec (r : Reader α) {limit : ℕ} (h : Coherent data start c)
    (hlimit : c.nReadLimit = some limit) (hle : c.nReadPos ≤ limit)
    (hmodest : Modest (c.size - c.nRewind) (limit - c.nReadPos) r) :
    (∃ a rest c', (exec r).run c = (.ok a, c') ∧ r.parse (upTo data limit c) = some (a, rest) ∧
        Coherent data start c' ∧ Same c c' ∧
        c'.nReadPos + rest.length = c.nReadPos + (upTo data limit c).length) ∨
      ∃ e c', (exec r).run c = (.error e, c') ∧ r.parse (upTo data limit c) = none ∧
        Coherent data start c' ∧ Same c c' := by
  induction r generalizing c with
  | done a => exact .inl ⟨a, _, c, rfl, rfl, h, Same.refl c, rfl⟩
  | fail => exact .inr ⟨_, c, rfl, rfl, h, Same.refl c⟩
  | read n next ih =>
    have hroom := h.room
    have hlen : (upTo data limit c).length = min (limit - c.nReadPos) (data.length - c.nReadPos) := by
      rw [upTo, List.length_take, List.length_drop]
    obtain ⟨hsmall, hnext⟩ := hmodest
    by_cases hpast : limit < n + c.nReadPos
    · -- the read is refused, and the bytes up to the limit are less
      have hrefused : (read n).run c = (.error "Read attempted past buffer limit", c) :=
        if_pos ⟨limit, hlimit, hpast⟩
      refine .inr ⟨_, c, run_bind_error hrefused, ?_, h, Same.refl c⟩
      rw [Reader.parse, if_pos (by omega)]
    have hsize : n + c.nRewind ≤ c.size := by
      have hn := hsmall (by omega)
      omega
    have hlimits : ∀ l ∈ c.nReadLimit, n + c.nReadPos ≤ l := by
      intro l hl
      rw [hlimit] at hl
      obtain rfl := Option.some.inj hl
      omega
    rcases read_spec h hlimits hsize with ⟨hn, c₁, hread, h₁, hsame, hpos⟩ |
      ⟨hn, e, c₁, hread, h₁, hsame⟩
    · have hparse : (Reader.read n next).parse (upTo data limit c) =
          (next ((data.drop c.nReadPos).take n)).parse (upTo data limit c₁) := by
        rw [Reader.parse, if_neg (by omega), upTo, upTo, List.take_take,
          Nat.min_eq_left (by omega), List.drop_take, List.drop_drop, hpos]
        congr 2
        omega
      have htaken : ((data.drop c.nReadPos).take n).length = n := by
        rw [List.length_take, List.length_drop]
        omega
      have hrest := hnext _ htaken
      rw [← hsame.size, ← hsame.nRewind, Nat.sub_sub, ← hpos] at hrest
      have hlen₁ : (upTo data limit c₁).length + n = (upTo data limit c).length := by
        rw [hlen, upTo, List.length_take, List.length_drop]
        omega
      rw [hparse]
      rcases ih _ h₁ (hsame.nReadLimit.trans hlimit) (by omega) hrest with
        ⟨a, rest, c₂, hexec, hp, h₂, hsame₂, hend⟩ | ⟨e, c₂, hexec, hp, h₂, hsame₂⟩
      · exact .inl ⟨a, rest, c₂, (run_bind_ok hread).trans hexec, hp, h₂, hsame.trans hsame₂,
          by omega⟩
      · exact .inr ⟨e, c₂, (run_bind_ok hread).trans hexec, hp, h₂, hsame.trans hsame₂⟩
    · refine .inr ⟨e, c₁, run_bind_error hread, ?_, h₁, hsame⟩
      rw [Reader.parse, if_pos (by omega)]

end Readers

end UmbrellaLtc.BufferedFile
