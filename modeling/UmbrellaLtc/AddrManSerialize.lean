import UmbrellaLtc.AddrManRuns

/-!
How the address manager is stored in peers.dat, from the IMPLEMENT_SERIALIZE blocks of addrman.h,
protocol.h and netbase.h, for a stream of the type SER_DISK. The entries are numbered anew, and
the tried buckets are not written but filled again when the file is read.
-/

namespace UmbrellaLtc.AddrMan

open Codec Transaction NetAddr

section Fields

def writeInt (n : ℤ) : List Byte := uint32.write (BitVec.ofInt 32 n)

def readInt (bs : List Byte) : Option (ℤ × List Byte) :=
  (uint32.read bs).map fun p => (p.1.toInt, p.2)

/-- An integer that the type int can hold. -/
def IsInt (n : ℤ) : Prop := -2 ^ 31 ≤ n ∧ n < 2 ^ 31

theorem readInt_writeInt {n : ℤ} (hn : IsInt n) (rest : List Byte) :
    readInt (writeInt n ++ rest) = some (n, rest) := by
  obtain ⟨hlow, hhigh⟩ := hn
  have hval : (BitVec.ofInt 32 n).toInt = n := by
    rw [BitVec.toInt_ofInt, Int.bmod_eq_of_le]
    · omega
    · omega
  rw [readInt, writeInt, uint32.read_write _ rest trivial, Option.map_some, hval]

/-- htons, and ntohs as well, on a machine with the lowest byte first. -/
def htons (x : BitVec 16) : BitVec 16 := x.extractLsb' 0 8 ++ x.extractLsb' 8 8

theorem htons_htons (x : BitVec 16) : htons (htons x) = x := by
  unfold htons
  rw [BitVec.extractLsb'_append_eq_right, BitVec.extractLsb'_append_eq_left,
    BitVec.extractLsb'_append_extractLsb'_eq_extractLsb' (show 8 = 0 + 8 from rfl)]
  exact BitVec.extractLsb'_eq_self

/-- The fields of an entry in the file: nVersion, nTime, nServices, the address and the port of
the service, the address of the source, nLastSuccess and nAttempts. -/
def diskInfo : Codec (BitVec 32 × BitVec 32 × BitVec 64 × BitVec 128 × BitVec 16 × BitVec 128 ×
    BitVec 64 × BitVec 32) :=
  pair uint32 (pair uint32 (pair uint64 (pair (bits 16 128 rfl) (pair (bits 2 16 rfl)
    (pair (bits 16 128 rfl) (pair uint64 uint32))))))

/-- The version is the one of the manager's format, since the byte for that has the name of the
parameter. -/
def writeInfo (info : CAddrInfo) : List Byte :=
  diskInfo.write (0, info.nTime, info.nServices, info.ip, htons info.port, info.source.ip,
    info.nLastSuccess, info.nAttempts)

/-- An entry is read over one from the constructor. -/
def readInfo (bs : List Byte) : Option (CAddrInfo × List Byte) := do
  let ((_, nTime, nServices, ip, portN, source, nLastSuccess, nAttempts), bs) ← diskInfo.read bs
  return ({ ip := ip, port := htons portN, nServices := nServices, nTime := nTime, nLastTry := 0,
            source := ⟨source⟩, nLastSuccess := nLastSuccess, nAttempts := nAttempts,
            nRefCount := 0, fInTried := false, nRandomPos := -1 }, bs)

/-- What the file keeps of an entry. -/
def stored (info : CAddrInfo) : CAddrInfo :=
  { info with nLastTry := 0, nRefCount := 0, fInTried := false, nRandomPos := -1 }

theorem readInfo_writeInfo (info : CAddrInfo) (rest : List Byte) :
    readInfo (writeInfo info ++ rest) = some (stored info, rest) := by
  have hgood : ∀ fields, diskInfo.Good fields := by
    simp [diskInfo, pair, uint32, uint64, bits]
  rw [readInfo, writeInfo, diskInfo.read_write _ rest (hgood _)]
  simp only [Option.bind_eq_bind, Option.bind_some, htons_htons]
  rfl

/-- CAddrInfo(). -/
def CAddrInfo.empty : CAddrInfo :=
  { ip := 0, port := 0, nServices := 1, nTime := 100000000, nLastTry := 0, source := ⟨0⟩,
    nLastSuccess := 0, nAttempts := 0, nRefCount := 0, fInTried := false, nRandomPos := -1 }

end Fields

namespace CAddrMan

section Writer

/-- The loop over the entries that writes those with references, with the numbers that it gives
them. -/
def writeNew (nNew : ℤ) : List (ℤ × CAddrInfo) → ℤ → Std.TreeMap ℤ ℤ →
    Std.TreeMap ℤ ℤ × List Byte
  | [], _, mapUnkIds => (mapUnkIds, [])
  | (nId, info) :: rest, nIds, mapUnkIds =>
      if nIds = nNew then (mapUnkIds, [])
      else
        let mapUnkIds := mapUnkIds.insert nId nIds
        if info.nRefCount ≠ 0 then
          let (mapUnkIds, bs) := writeNew nNew rest (nIds + 1) mapUnkIds
          (mapUnkIds, writeInfo info ++ bs)
        else writeNew nNew rest nIds mapUnkIds

/-- The loop over the entries that writes the tried ones. -/
def writeTried (nTried : ℤ) : List (ℤ × CAddrInfo) → ℤ → List Byte
  | [], _ => []
  | (_, info) :: rest, nIds =>
      if nIds = nTried then []
      else if info.fInTried then writeInfo info ++ writeTried nTried rest (nIds + 1)
      else writeTried nTried rest nIds

/-- The size of a new bucket, and its entries by their numbers in the file. -/
def writeBucket (mapUnkIds : Std.TreeMap ℤ ℤ) (vNew : Std.TreeSet ℤ) : List Byte :=
  writeInt vNew.size ++ vNew.toList.flatMap fun nId => writeInt (mapUnkIds[nId]?.getD 0)

/-- CAddrMan::Serialize. -/
def serialize (am : CAddrMan) : List Byte :=
  let (mapUnkIds, infos) := writeNew am.nNew am.mapInfo.toList 0 ∅
  uchar.write 0 ++ (script.write am.nKey ++ (writeInt am.nNew ++ (writeInt am.nTried ++
    (writeInt ADDRMAN_NEW_BUCKET_COUNT ++ (infos ++ (writeTried am.nTried am.mapInfo.toList 0 ++
      (List.finRange ADDRMAN_NEW_BUCKET_COUNT).flatMap
        fun b => writeBucket mapUnkIds (am.vvNew b)))))))

end Writer

section Reader

variable (Hash : List Byte → Uint256)

/-- A loop of the reader that takes in one value in a round. -/
def readLoop {α σ : Type} (read : List Byte → Option (α × List Byte)) (take : σ → α → σ) :
    ℕ → σ → List Byte → Option (σ × List Byte)
  | 0, s, bs => some (s, bs)
  | k + 1, s, bs => do
      let (a, bs) ← read bs
      readLoop read take k (take s a) bs

/-- A new entry gets the number `n` of the round. For another count of buckets in the file it is
put into one bucket again. -/
def takeNew (nUBuckets : ℤ) (s : CAddrMan × ℤ) (info : CAddrInfo) : CAddrMan × ℤ :=
  let (am, n) := s
  let am := { am with
    mapInfo := am.mapInfo.insert n { info with nRandomPos := am.vRandom.length }
    mapAddr := am.mapAddr.insert info.toCNetAddr n
    vRandom := am.vRandom ++ [n] }
  if nUBuckets ≠ ADDRMAN_NEW_BUCKET_COUNT then
    let b := info.getNewBucket Hash am.nKey info.source
    let am := { am with vvNew := Function.update am.vvNew b ((am.vvNew b).insert n) }
    (am.update n fun info => { info with nRefCount := info.nRefCount + 1 }, n + 1)
  else (am, n + 1)

/-- A tried entry goes to its bucket, or is lost where that is full. -/
def takeTried (s : CAddrMan × ℤ) (info : CAddrInfo) : CAddrMan × ℤ :=
  let (am, nLost) := s
  let nKBucket := info.getTriedBucket Hash am.nKey
  let vTried := am.vvTried nKBucket
  let nId := am.nIdCount.toInt
  if vTried.length < ADDRMAN_TRIED_BUCKET_SIZE then
    ({ am with
       vRandom := am.vRandom ++ [nId]
       mapInfo := am.mapInfo.insert nId
         { info with nRandomPos := am.vRandom.length, fInTried := true }
       mapAddr := am.mapAddr.insert info.toCNetAddr nId
       vvTried := Function.update am.vvTried nKBucket (vTried ++ [nId])
       nIdCount := am.nIdCount + 1 }, nLost)
  else (am, nLost + 1)

/-- An entry is put into the new bucket `b`, by its number. A number that no entry has creates
an empty one. -/
def takeIndex (nUBuckets : ℤ) (b : ℕ) (am : CAddrMan) (nIndex : ℤ) : CAddrMan :=
  let info := am.mapInfo[nIndex]?.getD CAddrInfo.empty
  let am := { am with mapInfo := am.mapInfo.insertIfNew nIndex CAddrInfo.empty }
  if nUBuckets = ADDRMAN_NEW_BUCKET_COUNT ∧ info.nRefCount < ADDRMAN_NEW_BUCKETS_PER_ADDRESS then
    { am.update nIndex fun info => { info with nRefCount := info.nRefCount + 1 } with
      vvNew := fun c => if c.val = b then (am.vvNew c).insert nIndex else am.vvNew c }
  else am

/-- The loop over the buckets from `b` on, `k` rounds long. -/
def readBuckets (nUBuckets : ℤ) : ℕ → ℕ → CAddrMan → List Byte → Option (CAddrMan × List Byte)
  | 0, _, am, bs => some (am, bs)
  | k + 1, b, am, bs => do
      let (nSize, bs) ← readInt bs
      let (am, bs) ← readLoop readInt (takeIndex nUBuckets b) nSize.toNat am bs
      readBuckets nUBuckets k (b + 1) am bs

/-- CAddrMan::Unserialize, which overwrites all that was there before. -/
def unserialize (bs : List Byte) : Option (CAddrMan × List Byte) := do
  let (_, bs) ← uchar.read bs
  let (nKey, bs) ← script.read bs
  let (nNew, bs) ← readInt bs
  let (nTried, bs) ← readInt bs
  let (nUBuckets, bs) ← readInt bs
  let am := { CAddrMan.init nKey with nNew := nNew, nTried := nTried }
  let ((am, _), bs) ← readLoop readInfo (takeNew Hash nUBuckets) nNew.toNat (am, 0) bs
  let am := { am with nIdCount := BitVec.ofInt 32 nNew }
  let ((am, nLost), bs) ← readLoop readInfo (takeTried Hash) nTried.toNat (am, 0) bs
  let am := { am with nTried := nTried - nLost }
  readBuckets nUBuckets nUBuckets.toNat 0 am bs

end Reader

end CAddrMan

end UmbrellaLtc.AddrMan
