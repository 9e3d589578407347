import UmbrellaLtc.NetAddr
import Mathlib.Data.List.AList
import Mathlib.Data.Fintype.Card

/-!
The address manager of addrman.cpp. A failed assertion, and a reference to an entry that is not
there, is `none`. The numbers that GetRandInt draws are arguments, and so is the time. The count of
ids is an int that is never reset, which wraps around where it overflows.
-/

namespace UmbrellaLtc.AddrMan

open Codec Transaction NetAddr

/-- Of the maps, mapAddr is never iterated over. The tables bound nTried and nNew, which are
integers, but not nIdCount. -/
structure CAddrMan where
  nKey : List Byte
  nIdCount : BitVec 32
  mapInfo : Std.TreeMap ℤ CAddrInfo
  mapAddr : AList fun _ : CNetAddr => ℤ
  vRandom : List ℤ
  nTried : ℤ
  vvTried : TriedBucket → List ℤ
  nNew : ℤ
  vvNew : NewBucket → Std.TreeSet ℤ

/-- The constructor; the key is drawn at random. -/
def CAddrMan.init (nKey : List Byte) : CAddrMan :=
  ⟨nKey, 0, ∅, ∅, [], 0, fun _ => [], 0, fun _ => ∅⟩

/-- GetRandInt: a number below nMax, from an arbitrary one. -/
def getRandInt (nMax r : ℕ) : ℕ := if nMax = 0 then 0 else r % nMax

namespace CAddrMan

section Helpers

variable (am : CAddrMan)

/-- A change of an entry through a reference to it. -/
def update (nId : ℤ) (f : CAddrInfo → CAddrInfo) : CAddrMan :=
  { am with mapInfo := am.mapInfo.modify nId f }

def find (addr : CNetAddr) : Option (ℤ × CAddrInfo) := do
  let nId ← am.mapAddr.lookup addr
  let info ← am.mapInfo[nId]?
  return (nId, info)

/-- CAddrMan::Create, for which the id is the count of ids before. -/
def create (addr : CAddress) (addrSource : CNetAddr) : CAddrMan :=
  let nId := am.nIdCount.toInt
  { am with
    nIdCount := am.nIdCount + 1
    mapInfo := am.mapInfo.insert nId
      { CAddrInfo.make addr addrSource with nRandomPos := am.vRandom.length }
    mapAddr := am.mapAddr.insert addr.toCNetAddr nId
    vRandom := am.vRandom ++ [nId] }

def swapRandom (nRndPos1 nRndPos2 : ℤ) : Option CAddrMan :=
  if nRndPos1 = nRndPos2 then some am
  else if nRndPos1 < 0 ∨ nRndPos2 < 0 then none
  else do
    let nId1 ← am.vRandom[nRndPos1.toNat]?
    let nId2 ← am.vRandom[nRndPos2.toNat]?
    let _ ← am.mapInfo[nId1]?
    let _ ← am.mapInfo[nId2]?
    let am := am.update nId1 fun info => { info with nRandomPos := nRndPos2 }
    let am := am.update nId2 fun info => { info with nRandomPos := nRndPos1 }
    return { am with vRandom := (am.vRandom.set nRndPos1.toNat nId2).set nRndPos2.toNat nId1 }

/-- The loop of SelectTried from the `i`-th round on, `k` rounds long. The position that is
remembered is the one that the entry was at before it was moved to the front. -/
def selectTriedLoop (rnd : ℕ → ℕ) : ℕ → ℕ → List ℤ → ℤ → ℤ → Option (List ℤ × ℤ)
  | 0, _, vTried, _, nOldestPos => some (vTried, nOldestPos)
  | k + 1, i, vTried, nOldest, nOldestPos => do
      let nPos := getRandInt (vTried.length - i) (rnd i) + i
      let nTemp ← vTried[nPos]?
      let nFront ← vTried[i]?
      let vTried := (vTried.set nPos nFront).set i nTemp
      if nOldest = -1 then selectTriedLoop rnd k (i + 1) vTried nTemp nPos
      else
        let info ← am.mapInfo[nTemp]?
        let infoOldest ← am.mapInfo[nOldest]?
        if info.nLastSuccess.toInt < infoOldest.nLastSuccess.toInt then
          selectTriedLoop rnd k (i + 1) vTried nTemp nPos
        else selectTriedLoop rnd k (i + 1) vTried nOldest nOldestPos

/-- CAddrMan::SelectTried: the bucket as it is shuffled, and the position to replace. -/
def selectTried (nKBucket : TriedBucket) (rnd : ℕ → ℕ) : Option (List ℤ × ℤ) :=
  let vTried := am.vvTried nKBucket
  let nRounds := min ADDRMAN_TRIED_ENTRIES_INSPECT_ON_EVICT vTried.length
  am.selectTriedLoop rnd nRounds 0 vTried (-1) (-1)

/-- An entry of a new bucket is taken out of it, and deleted when it was in no other. -/
def dropNew (nUBucket : NewBucket) (nId : ℤ) : Option CAddrMan := do
  let info ← am.mapInfo[nId]?
  let am := am.update nId fun info => { info with nRefCount := info.nRefCount - 1 }
  let am ←
    if info.nRefCount - 1 = 0 then do
      let am ← am.swapRandom info.nRandomPos (am.vRandom.length - 1)
      pure { am with
        vRandom := am.vRandom.dropLast
        mapAddr := am.mapAddr.erase info.toCNetAddr
        mapInfo := am.mapInfo.erase nId
        nNew := am.nNew - 1 }
    else pure am
  return { am with vvNew := Function.update am.vvNew nUBucket ((am.vvNew nUBucket).erase nId) }

/-- The first entry that can be deleted. -/
def firstTerrible (nNow : ℤ) : List ℤ → Option (Option ℤ)
  | [] => some none
  | nId :: rest => do
      let info ← am.mapInfo[nId]?
      if info.isTerrible nNow then return some nId else firstTerrible nNow rest

/-- The entry with the lowest time of those that are picked. -/
def oldestPicked (picked : ℕ → Bool) : ℕ → List ℤ → ℤ → Option ℤ
  | _, [], nOldest => some nOldest
  | nI, nId :: rest, nOldest =>
      if picked nI then
        if nOldest = -1 then oldestPicked picked (nI + 1) rest nId
        else do
          let info ← am.mapInfo[nId]?
          let infoOldest ← am.mapInfo[nOldest]?
          if info.nTime.toNat < infoOldest.nTime.toNat then oldestPicked picked (nI + 1) rest nId
          else oldestPicked picked (nI + 1) rest nOldest
      else oldestPicked picked (nI + 1) rest nOldest

/-- The positions in a bucket of which the oldest entry is replaced. -/
def picked (nSize : ℕ) (rnd : ℕ → ℕ) (nI : ℕ) : Bool :=
  (List.range 4).any fun k => nI == getRandInt nSize (rnd k)

/-- CAddrMan::ShrinkNew, with the number that it returns. -/
def shrinkNew (nUBucket : NewBucket) (nNow : ℤ) (rnd : ℕ → ℕ) : Option (CAddrMan × ℕ) := do
  let vNew := am.vvNew nUBucket
  match ← am.firstTerrible nNow vNew.toList with
  | some nId => return (← am.dropNew nUBucket nId, 0)
  | none =>
      let nOldest ← am.oldestPicked (picked vNew.size rnd) 0 vNew.toList (-1)
      return (← am.dropNew nUBucket nOldest, 1)

end Helpers

variable (Hash : List Byte → Uint256)

section Operations

variable (am : CAddrMan)

/-- The buckets that an entry is in. -/
def holders (nId : ℤ) : Finset NewBucket := {b | nId ∈ am.vvNew b}

/-- The entry is removed from all new buckets. -/
def leaveNew (nId : ℤ) : CAddrMan :=
  { am.update nId fun info => { info with nRefCount := info.nRefCount - (am.holders nId).card } with
    vvNew := fun b => (am.vvNew b).erase nId
    nNew := am.nNew - 1 }

/-- The entry of a tried bucket that is replaced goes back to a new bucket: to its own, or where
that is full to the one that the other came from. -/
def evict (nOld : ℤ) (nOrigin : NewBucket) : Option CAddrMan := do
  let infoOld ← am.mapInfo[nOld]?
  let nUBucket := infoOld.getNewBucket Hash am.nKey infoOld.source
  let am := am.update nOld fun info => { info with fInTried := false, nRefCount := 1 }
  let b := if (am.vvNew nUBucket).size < ADDRMAN_NEW_BUCKET_SIZE then nUBucket else nOrigin
  return { am with
    vvNew := Function.update am.vvNew b ((am.vvNew b).insert nOld)
    nNew := am.nNew + 1 }

def makeTried (nId : ℤ) (nOrigin : NewBucket) (rnd : ℕ → ℕ) : Option CAddrMan :=
  if nId ∉ am.vvNew nOrigin then none
  else do
    let am := am.leaveNew nId
    let info ← am.mapInfo[nId]?
    if info.nRefCount ≠ 0 then none
    else
      let nKBucket := info.getTriedBucket Hash am.nKey
      let vTried := am.vvTried nKBucket
      if vTried.length < ADDRMAN_TRIED_BUCKET_SIZE then
        let am := { am with
          vvTried := Function.update am.vvTried nKBucket (vTried ++ [nId])
          nTried := am.nTried + 1 }
        return am.update nId fun info => { info with fInTried := true }
      else
        let (vTried, nPos) ← am.selectTried nKBucket rnd
        if nPos < 0 then none
        else
          let nOld ← vTried[nPos.toNat]?
          let am ← am.evict Hash nOld nOrigin
          let am := { am with
            vvTried := Function.update am.vvTried nKBucket (vTried.set nPos.toNat nId) }
          return am.update nId fun info => { info with fInTried := true }

/-- The bucket that Good_ finds the entry in, from a random one on. -/
def findBucket (nId : ℤ) (nRnd : ℕ) : Option NewBucket :=
  ((List.finRange ADDRMAN_NEW_BUCKET_COUNT).map
    fun n => (⟨(n + nRnd) % ADDRMAN_NEW_BUCKET_COUNT, Nat.mod_lt _ (by decide)⟩ : NewBucket)).find?
      fun b => (am.vvNew b).contains nId

def good_ (addr : CService) (nTime : BitVec 64) (rnd : ℕ → ℕ) : Option CAddrMan :=
  match am.find addr.toCNetAddr with
  | none => some am
  | some (nId, info) =>
      if info.toCService ≠ addr then some am
      else
        let am := am.update nId fun info =>
          { info with
            nLastSuccess := nTime, nLastTry := nTime, nTime := nTime.setWidth 32, nAttempts := 0 }
        if info.fInTried then some am
        else match am.findBucket nId (getRandInt ADDRMAN_NEW_BUCKET_COUNT (rnd 0)) with
          | none => some am
          | some nUBucket => am.makeTried Hash nId nUBucket fun i => rnd (i + 1)

/-- The end of Add_: the entry is put in the bucket of the source. -/
def putNew (nId : ℤ) (source : CNetAddr) (nNow : ℤ) (rnd : ℕ → ℕ) : Option CAddrMan := do
  let info ← am.mapInfo[nId]?
  let nUBucket := info.getNewBucket Hash am.nKey source
  let vNew := am.vvNew nUBucket
  if vNew.contains nId then return am
  else
    let am := am.update nId fun info => { info with nRefCount := info.nRefCount + 1 }
    let am ←
      if vNew.size = ADDRMAN_NEW_BUCKET_SIZE then (am.shrinkNew nUBucket nNow rnd).map Prod.fst
      else pure am
    return { am with vvNew := Function.update am.vvNew nUBucket ((am.vvNew nUBucket).insert nId) }

/-- What Add_ makes of the time and the services of an entry that is there. -/
def refreshed (addr : CAddress) (nTimePenalty nNow : ℤ) (info : CAddrInfo) : CAddrInfo :=
  let fCurrentlyOnline := nNow - addr.nTime.toNat < 24 * 60 * 60
  let nUpdateInterval : ℤ := if fCurrentlyOnline then 60 * 60 else 24 * 60 * 60
  let nTime :=
    if addr.nTime ≠ 0 ∧ (info.nTime = 0 ∨
        (info.nTime.toNat : ℤ) < addr.nTime.toNat - nUpdateInterval - nTimePenalty) then
      BitVec.ofInt 32 (max 0 (addr.nTime.toNat - nTimePenalty))
    else info.nTime
  { info with nTime := nTime, nServices := info.nServices ||| addr.nServices }

/-- Whether Add_ ends at an entry that is there, which has been refreshed. -/
def keepsAsIs (addr : CAddress) (info : CAddrInfo) (r : ℕ) : Bool :=
  decide (addr.nTime = 0 ∨ (info.nTime ≠ 0 ∧ addr.nTime.toNat ≤ info.nTime.toNat)) ||
    info.fInTried || decide (info.nRefCount = ADDRMAN_NEW_BUCKETS_PER_ADDRESS) ||
    (let nFactor := 2 ^ info.nRefCount.toNat
     decide (nFactor > 1) && getRandInt nFactor r != 0)

def add_ (addr : CAddress) (source : CNetAddr) (nTimePenalty nNow : ℤ) (rnd : ℕ → ℕ) :
    Option (CAddrMan × Bool) :=
  if addr.isRoutable = false then some (am, false)
  else match am.find addr.toCNetAddr with
    | some (nId, info) =>
        let am := am.update nId (refreshed addr nTimePenalty nNow)
        if keepsAsIs addr (refreshed addr nTimePenalty nNow info) (rnd 0) then some (am, false)
        else (am.putNew Hash nId source nNow fun i => rnd (i + 1)).map fun am => (am, false)
    | none =>
        let nId := am.nIdCount.toInt
        let am := (am.create addr source).update nId fun info =>
          { info with nTime := BitVec.ofInt 32 (max 0 (info.nTime.toNat - nTimePenalty)) }
        let am := { am with nNew := am.nNew + 1 }
        (am.putNew Hash nId source nNow fun i => rnd (i + 1)).map fun am => (am, true)

def attempt_ (addr : CService) (nTime : BitVec 64) : CAddrMan :=
  match am.find addr.toCNetAddr with
  | none => am
  | some (nId, info) =>
      if info.toCService ≠ addr then am
      else am.update nId fun info =>
        { info with nLastTry := nTime, nAttempts := info.nAttempts + 1 }

def connected_ (addr : CService) (nTime : BitVec 64) : CAddrMan :=
  match am.find addr.toCNetAddr with
  | none => am
  | some (nId, info) =>
      if info.toCService ≠ addr then am
      else am.update nId fun info =>
        if nTime.toInt - info.nTime.toNat > 20 * 60 then
          { info with nTime := nTime.setWidth 32 }
        else info

/-- The loops of Select_ over the buckets of one table. What the draws and the chances, which are
floating point numbers, come to is an argument; `none` when an assertion fails. After so many
rounds there is an entry, or the loop goes on. -/
def selectLoop {m : ℕ} [NeZero m] (buckets : Fin m → List ℤ) :
    List (ℕ × ℕ × Bool) → Option (Option CAddrInfo)
  | [] => some none
  | (nBucket, nPos, fTake) :: draws =>
      let bucket := buckets (Fin.ofNat m nBucket)
      if bucket.length = 0 then selectLoop buckets draws
      else do
        let nId ← bucket[getRandInt bucket.length nPos]?
        let info ← am.mapInfo[nId]?
        if fTake then return some info else selectLoop buckets draws

/-- CAddrMan::Select_, which changes nothing. -/
def select_ (fTried : Bool) (draws : List (ℕ × ℕ × Bool)) : Option (Option CAddress) :=
  if am.vRandom.length = 0 then some (some ⟨⟨⟨0⟩, 0⟩, 1, 100000000, 0⟩)
  else
    (if fTried then selectLoop am (m := 64) am.vvTried draws
      else selectLoop am (m := 256) (fun b => (am.vvNew b).toList) draws).map
        (Option.map CAddrInfo.toCAddress)

/-- The loop of GetAddr_ from the `n`-th round on, `k` rounds long. -/
def getAddrLoop (rnd : ℕ → ℕ) : ℕ → ℕ → CAddrMan → List CAddress →
    Option (CAddrMan × List CAddress)
  | 0, _, am, vAddr => some (am, vAddr)
  | k + 1, n, am, vAddr => do
      let nRndPos := getRandInt (am.vRandom.length - n) (rnd n) + n
      let am ← am.swapRandom n nRndPos
      let nId ← am.vRandom[n]?
      let info ← am.mapInfo[nId]?
      getAddrLoop rnd k (n + 1) am (vAddr ++ [info.toCAddress])

def getAddr_ (rnd : ℕ → ℕ) : Option (CAddrMan × List CAddress) :=
  let nNodes := min (ADDRMAN_GETADDR_MAX_PCT * am.vRandom.length / 100) ADDRMAN_GETADDR_MAX
  getAddrLoop rnd nNodes 0 am []

end Operations

section Calls

/-- The operations with their arguments, the time and the numbers that are drawn. -/
inductive Call where
  | add (addr : CAddress) (source : CNetAddr) (nTimePenalty nNow : ℤ) (rnd : ℕ → ℕ)
  | good (addr : CService) (nTime : BitVec 64) (rnd : ℕ → ℕ)
  | attempt (addr : CService) (nTime : BitVec 64)
  | connected (addr : CService) (nTime : BitVec 64)
  | select (fTried : Bool) (draws : List (ℕ × ℕ × Bool))
  | getAddr (rnd : ℕ → ℕ)

/-- The state after an operation. -/
def perform (am : CAddrMan) : Call → Option CAddrMan
  | .add addr source nTimePenalty nNow rnd =>
      (am.add_ Hash addr source nTimePenalty nNow rnd).map Prod.fst
  | .good addr nTime rnd => am.good_ Hash addr nTime rnd
  | .attempt addr nTime => some (am.attempt_ addr nTime)
  | .connected addr nTime => some (am.connected_ addr nTime)
  | .select fTried draws => (am.select_ fTried draws).map fun _ => am
  | .getAddr rnd => (am.getAddr_ rnd).map Prod.fst

end Calls

section Check

/-- The code of the first test that fails, or 0. -/
def firstError : List (Bool × ℤ) → ℤ
  | [] => 0
  | (fFails, code) :: rest => if fFails then code else firstError rest

variable (am : CAddrMan)

/-- The tests of an entry in Check_. Where mapAddr has no value, it gives the id 0. -/
def checkInfo (n : ℤ) (info : CAddrInfo) : ℤ :=
  firstError
    [(info.fInTried && info.nLastSuccess == 0, -1),
      (info.fInTried && info.nRefCount != 0, -2),
      (!info.fInTried && (decide (info.nRefCount < 0) ||
        decide (ADDRMAN_NEW_BUCKETS_PER_ADDRESS < info.nRefCount)), -3),
      (!info.fInTried && info.nRefCount == 0, -4),
      ((am.mapAddr.lookup info.toCNetAddr).getD 0 != n, -5),
      (decide (info.nRandomPos < 0) || decide ((am.vRandom.length : ℤ) ≤ info.nRandomPos) ||
        am.vRandom[info.nRandomPos.toNat]? != some n, -14),
      (decide (info.nLastTry.toInt < 0), -6),
      (decide (info.nLastSuccess.toInt < 0), -8)]

/-- Every element is found in the set and erased from it; what is left of the set. -/
def eraseAll : List ℤ → List ℤ → Option (List ℤ)
  | [], setTried => some setTried
  | n :: rest, setTried => if n ∈ setTried then eraseAll rest (setTried.erase n) else none

/-- Every element is found in the map and counted down in it; what is left of the map. -/
def countDown : List ℤ → Std.TreeMap ℤ ℤ → Option (Std.TreeMap ℤ ℤ)
  | [], mapNew => some mapNew
  | n :: rest, mapNew => do
      let nRefCount ← mapNew[n]?
      if nRefCount - 1 = 0 then countDown rest (mapNew.erase n)
      else countDown rest (mapNew.insert n (nRefCount - 1))

/-- The ids of the entries that are marked as tried. -/
def setTried : List ℤ := (am.mapInfo.toList.filter fun e => e.2.fInTried).map Prod.fst

/-- The reference counts of the other entries. -/
def mapNew : Std.TreeMap ℤ ℤ :=
  am.mapInfo.filterMap fun _ info => if info.fInTried then none else some info.nRefCount

def triedIds : List ℤ := (List.finRange ADDRMAN_TRIED_BUCKET_COUNT).flatMap am.vvTried

def newIds : List ℤ :=
  (List.finRange ADDRMAN_NEW_BUCKET_COUNT).flatMap fun b => (am.vvNew b).toList

/-- CAddrMan::Check_. The counters are added as ints. -/
def check_ : ℤ :=
  if (am.vRandom.length : ℤ) ≠ (BitVec.ofInt 32 (am.nTried + am.nNew)).toInt then -7
  else match (am.mapInfo.toList.map fun e => am.checkInfo e.1 e.2).find? (· != 0) with
    | some code => code
    | none =>
        if (am.setTried.length : ℤ) ≠ am.nTried then -9
        else if (am.mapNew.size : ℤ) ≠ am.nNew then -10
        else match eraseAll am.triedIds am.setTried with
          | none => -11
          | some setTried => match countDown am.newIds am.mapNew with
            | none => -12
            | some mapNew =>
                if setTried.length ≠ 0 then -13
                else if mapNew.size ≠ 0 then -15
                else 0

end Check

end CAddrMan

end UmbrellaLtc.AddrMan
