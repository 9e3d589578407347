import UmbrellaLtc.Transaction

/-!
Network addresses, from netbase.cpp and protocol.h: which of them can be routed, the groups
that they fall into, and the buckets of the address manager that are computed from these.
-/

namespace UmbrellaLtc.NetAddr

open Codec Transaction

/-- The sixteen bytes of an address as a number, of which `ip[0]` is the lowest byte. -/
structure CNetAddr where
  ip : BitVec 128
deriving DecidableEq

/-- The port is in host order. -/
structure CService extends CNetAddr where
  port : BitVec 16
deriving DecidableEq

structure CAddress extends CService where
  nServices : BitVec 64
  nTime : BitVec 32
  nLastTry : BitVec 64
deriving DecidableEq

structure CAddrInfo extends CAddress where
  source : CNetAddr
  nLastSuccess : BitVec 64
  nAttempts : BitVec 32
  nRefCount : ℤ
  fInTried : Bool
  nRandomPos : ℤ
deriving DecidableEq

/-- The constructor from an address and where it was heard of. -/
def CAddrInfo.make (addr : CAddress) (source : CNetAddr) : CAddrInfo :=
  { addr with nLastTry := 0, source := source, nLastSuccess := 0, nAttempts := 0, nRefCount := 0,
              fInTried := false, nRandomPos := -1 }

namespace CNetAddr

section Kinds

variable (addr : CNetAddr)

def bytes : List Byte := leBytes 16 addr.ip.toNat

/-- CNetAddr::GetByte: the bytes are counted from the last. -/
def getByte (n : ℕ) : Byte := addr.bytes.getD (15 - n) 0

/-- `memcmp(ip, pch, sizeof(pch)) == 0`. -/
def startsWith (pch : List Byte) : Bool := addr.bytes.take pch.length == pch

def pchIPv4 : List Byte := [0, 0, 0, 0, 0, 0, 0, 0, 0, 0, 0xff, 0xff]

def pchOnionCat : List Byte := [0xfd, 0x87, 0xd8, 0x7e, 0xeb, 0x43]

def isIPv4 : Bool := addr.startsWith pchIPv4

def isRFC1918 : Bool :=
  addr.isIPv4 &&
    (addr.getByte 3 == 10 || (addr.getByte 3 == 192 && addr.getByte 2 == 168) ||
      (addr.getByte 3 == 172 && 16 ≤ (addr.getByte 2).toNat && (addr.getByte 2).toNat ≤ 31))

def isRFC3927 : Bool := addr.isIPv4 && (addr.getByte 3 == 169 && addr.getByte 2 == 254)

def isRFC3849 : Bool :=
  addr.getByte 15 == 0x20 && addr.getByte 14 == 0x01 && addr.getByte 13 == 0x0d &&
    addr.getByte 12 == 0xb8

def isRFC3964 : Bool := addr.getByte 15 == 0x20 && addr.getByte 14 == 0x02

def isRFC6052 : Bool := addr.startsWith [0, 0x64, 0xff, 0x9b, 0, 0, 0, 0, 0, 0, 0, 0]

def isRFC4380 : Bool :=
  addr.getByte 15 == 0x20 && addr.getByte 14 == 0x01 && addr.getByte 13 == 0 &&
    addr.getByte 12 == 0

def isRFC4862 : Bool := addr.startsWith [0xfe, 0x80, 0, 0, 0, 0, 0, 0]

def isRFC4193 : Bool := addr.getByte 15 &&& 0xfe == 0xfc

def isRFC6145 : Bool := addr.startsWith [0, 0, 0, 0, 0, 0, 0, 0, 0xff, 0xff, 0, 0]

def isRFC4843 : Bool :=
  addr.getByte 15 == 0x20 && addr.getByte 14 == 0x01 && addr.getByte 13 == 0 &&
    addr.getByte 12 &&& 0xf0 == 0x10

def isTor : Bool := addr.startsWith pchOnionCat

def isLocal : Bool :=
  (addr.isIPv4 && (addr.getByte 3 == 127 || addr.getByte 3 == 0)) ||
    addr.startsWith [0, 0, 0, 0, 0, 0, 0, 0, 0, 0, 0, 0, 0, 0, 0, 1]

def isValid : Bool :=
  if addr.startsWith (pchIPv4.drop 3) then false
  else if addr.startsWith (List.replicate 16 0) then false
  else if addr.isRFC3849 then false
  else if addr.isIPv4 then
    addr.bytes.drop 12 != List.replicate 4 0xff && addr.bytes.drop 12 != List.replicate 4 0
  else true

def isRoutable : Bool :=
  addr.isValid &&
    !(addr.isRFC1918 || addr.isRFC3927 || addr.isRFC4862 || (addr.isRFC4193 && !addr.isTor) ||
      addr.isRFC4843 || addr.isLocal)

end Kinds

def NET_UNROUTABLE : Byte := 0
def NET_IPV4 : Byte := 1
def NET_IPV6 : Byte := 2
def NET_TOR : Byte := 3

/-- The class of a group, and the bytes of the address with the bits that do not count set. -/
def groupBytes (addr : CNetAddr) (nClass : Byte) (nStartByte nBits : ℕ) : List Byte :=
  nClass :: ((List.range (nBits / 8)).map (fun i => addr.getByte (15 - (nStartByte + i))) ++
    if nBits % 8 > 0 then
      [addr.getByte (15 - (nStartByte + nBits / 8)) ||| BitVec.ofNat 8 (2 ^ (nBits % 8) - 1)]
    else [])

/-- CNetAddr::GetGroup. The class that is chosen for local addresses is overwritten, since they
are not routable. -/
def getGroup (addr : CNetAddr) : List Byte :=
  if !addr.isRoutable then addr.groupBytes NET_UNROUTABLE 0 0
  else if addr.isIPv4 || addr.isRFC6145 || addr.isRFC6052 then addr.groupBytes NET_IPV4 12 16
  else if addr.isRFC3964 then addr.groupBytes NET_IPV4 2 16
  else if addr.isRFC4380 then [NET_IPV4, addr.getByte 3 ^^^ 0xff, addr.getByte 2 ^^^ 0xff]
  else if addr.isTor then addr.groupBytes NET_TOR 6 4
  else if addr.getByte 15 == 0x20 && addr.getByte 14 == 0x01 && addr.getByte 13 == 0x04 &&
      addr.getByte 12 == 0x70 then addr.groupBytes NET_IPV6 0 36
  else addr.groupBytes NET_IPV6 0 32

end CNetAddr

/-- CService::GetKey. -/
def CService.getKey (s : CService) : List Byte :=
  s.bytes ++ [BitVec.ofNat 8 (s.port.toNat / 0x100), BitVec.ofNat 8 s.port.toNat]

section Buckets

def ADDRMAN_TRIED_BUCKET_COUNT : ℕ := 64
def ADDRMAN_TRIED_BUCKET_SIZE : ℕ := 64
def ADDRMAN_NEW_BUCKET_COUNT : ℕ := 256
def ADDRMAN_NEW_BUCKET_SIZE : ℕ := 64
def ADDRMAN_TRIED_BUCKETS_PER_GROUP : ℕ := 4
def ADDRMAN_NEW_BUCKETS_PER_SOURCE_GROUP : ℕ := 32
def ADDRMAN_NEW_BUCKETS_PER_ADDRESS : ℤ := 4
def ADDRMAN_TRIED_ENTRIES_INSPECT_ON_EVICT : ℕ := 4
def ADDRMAN_HORIZON_DAYS : ℤ := 30
def ADDRMAN_RETRIES : ℤ := 3
def ADDRMAN_MAX_FAILURES : ℤ := 10
def ADDRMAN_MIN_FAIL_DAYS : ℤ := 7
def ADDRMAN_GETADDR_MAX_PCT : ℕ := 23
def ADDRMAN_GETADDR_MAX : ℕ := 2500

abbrev TriedBucket := Fin ADDRMAN_TRIED_BUCKET_COUNT
abbrev NewBucket := Fin ADDRMAN_NEW_BUCKET_COUNT

variable (Hash : List Byte → Uint256)

/-- A vector of bytes in a stream. -/
def writeVch (vch : List Byte) : List Byte := writeCompactSize vch.length ++ vch

/-- `Hash(..).Get64()`: the lowest 64 bits. -/
def hash64 (bs : List Byte) : ℕ := (Hash bs).toNat % 2 ^ 64

/-- CAddrInfo::GetTriedBucket. -/
def CAddrInfo.getTriedBucket (info : CAddrInfo) (nKey : List Byte) : TriedBucket :=
  let hash1 := hash64 Hash (writeVch nKey ++ writeVch info.getKey)
  let hash2 := hash64 Hash (writeVch nKey ++ (writeVch info.getGroup ++
    leBytes 8 (hash1 % ADDRMAN_TRIED_BUCKETS_PER_GROUP)))
  ⟨hash2 % ADDRMAN_TRIED_BUCKET_COUNT, Nat.mod_lt _ (by decide)⟩

/-- CAddrInfo::GetNewBucket. -/
def CAddrInfo.getNewBucket (info : CAddrInfo) (nKey : List Byte) (src : CNetAddr) : NewBucket :=
  let hash1 := hash64 Hash (writeVch nKey ++ (writeVch info.getGroup ++ writeVch src.getGroup))
  let hash2 := hash64 Hash (writeVch nKey ++ (writeVch src.getGroup ++
    leBytes 8 (hash1 % ADDRMAN_NEW_BUCKETS_PER_SOURCE_GROUP)))
  ⟨hash2 % ADDRMAN_NEW_BUCKET_COUNT, Nat.mod_lt _ (by decide)⟩

/-- CAddrInfo::IsTerrible. -/
def CAddrInfo.isTerrible (info : CAddrInfo) (nNow : ℤ) : Bool :=
  let nTime : ℤ := info.nTime.toNat
  let nLastTry := info.nLastTry.toInt
  let nLastSuccess := info.nLastSuccess.toInt
  let nAttempts := info.nAttempts.toInt
  if nLastTry ≠ 0 ∧ nLastTry ≥ nNow - 60 then false
  else if nTime > nNow + 10 * 60 then true
  else if nTime = 0 ∨ nNow - nTime > ADDRMAN_HORIZON_DAYS * 86400 then true
  else if nLastSuccess = 0 ∧ nAttempts ≥ ADDRMAN_RETRIES then true
  else decide (nNow - nLastSuccess > ADDRMAN_MIN_FAIL_DAYS * 86400 ∧
    nAttempts ≥ ADDRMAN_MAX_FAILURES)

end Buckets

end UmbrellaLtc.NetAddr
