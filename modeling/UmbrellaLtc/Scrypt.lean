import UmbrellaLtc.Codec
import Mathlib.Algebra.BigOperators.Fin
import Mathlib.Data.Fintype.Basic
import Mathlib.Data.List.GetD
import Mathlib.Logic.Function.Iterate
import Mathlib.Tactic.IntervalCases

/-!
scrypt by its standard definition, on octets, over any hash of octet strings. A block of 64 octets
is read as 16 words or as one number, least significant octet first in both.
-/

namespace UmbrellaLtc.ScryptSpec

open Codec

abbrev Word := BitVec 32

abbrev Words := Vector Word 16

/-- A block of 64 octets. -/
abbrev Octets := Vector Byte 64

section Blocks

def words (x : Octets) : Words := Vector.ofFn fun i =>
  x[4 * i.val + 3] ++ x[4 * i.val + 2] ++ x[4 * i.val + 1] ++ x[4 * i.val]

def octets (w : Words) : Octets := Vector.ofFn fun j =>
  w[j.val / 4].extractLsb' (8 * (j.val % 4)) 8

def xor {w n : ℕ} (x y : Vector (BitVec w) n) : Vector (BitVec w) n :=
  Vector.zipWith (· ^^^ ·) x y

/-- The block as a number. -/
def toNat (x : Octets) : ℕ := ∑ j : Fin 64, x[j].toNat * 256 ^ j.val

end Blocks

section Salsa

def rotl (a : Word) (b : ℕ) : Word := (a <<< b) ||| (a >>> (32 - b))

/-- The first half of a double round. -/
def columns (x : Words) : Words :=
  let x4 := x[4] ^^^ rotl (x[0] + x[12]) 7
  let x8 := x[8] ^^^ rotl (x4 + x[0]) 9
  let x12 := x[12] ^^^ rotl (x8 + x4) 13
  let x0 := x[0] ^^^ rotl (x12 + x8) 18
  let x9 := x[9] ^^^ rotl (x[5] + x[1]) 7
  let x13 := x[13] ^^^ rotl (x9 + x[5]) 9
  let x1 := x[1] ^^^ rotl (x13 + x9) 13
  let x5 := x[5] ^^^ rotl (x1 + x13) 18
  let x14 := x[14] ^^^ rotl (x[10] + x[6]) 7
  let x2 := x[2] ^^^ rotl (x14 + x[10]) 9
  let x6 := x[6] ^^^ rotl (x2 + x14) 13
  let x10 := x[10] ^^^ rotl (x6 + x2) 18
  let x3 := x[3] ^^^ rotl (x[15] + x[11]) 7
  let x7 := x[7] ^^^ rotl (x3 + x[15]) 9
  let x11 := x[11] ^^^ rotl (x7 + x3) 13
  let x15 := x[15] ^^^ rotl (x11 + x7) 18
  #v[x0, x1, x2, x3, x4, x5, x6, x7, x8, x9, x10, x11, x12, x13, x14, x15]

def rows (x : Words) : Words :=
  let x1 := x[1] ^^^ rotl (x[0] + x[3]) 7
  let x2 := x[2] ^^^ rotl (x1 + x[0]) 9
  let x3 := x[3] ^^^ rotl (x2 + x1) 13
  let x0 := x[0] ^^^ rotl (x3 + x2) 18
  let x6 := x[6] ^^^ rotl (x[5] + x[4]) 7
  let x7 := x[7] ^^^ rotl (x6 + x[5]) 9
  let x4 := x[4] ^^^ rotl (x7 + x6) 13
  let x5 := x[5] ^^^ rotl (x4 + x7) 18
  let x11 := x[11] ^^^ rotl (x[10] + x[9]) 7
  let x8 := x[8] ^^^ rotl (x11 + x[10]) 9
  let x9 := x[9] ^^^ rotl (x8 + x11) 13
  let x10 := x[10] ^^^ rotl (x9 + x8) 18
  let x12 := x[12] ^^^ rotl (x[15] + x[14]) 7
  let x13 := x[13] ^^^ rotl (x12 + x[15]) 9
  let x14 := x[14] ^^^ rotl (x13 + x12) 13
  let x15 := x[15] ^^^ rotl (x14 + x13) 18
  #v[x0, x1, x2, x3, x4, x5, x6, x7, x8, x9, x10, x11, x12, x13, x14, x15]

/-- The Salsa20/8 core on words. -/
def core (x : Words) : Words := Vector.zipWith (· + ·) ((fun x => rows (columns x))^[4] x) x

def salsa (x : Octets) : Octets := octets (core (words x))

end Salsa

section Mixing

variable {r : ℕ} [NeZero r]

/-- `B[0], ..., B[2r - 1]`. -/
abbrev Blocks (r : ℕ) := Vector Octets (2 * r)

def last {α : Type} (B : Vector α (2 * r)) : α :=
  have := NeZero.pos r
  B[2 * r - 1]

/-- What X is before step `i` of scryptBlockMix; `Y[i]` is X after it. -/
def mixX (B : Blocks r) : (i : ℕ) → i ≤ 2 * r → Octets
  | 0, _ => last B
  | i + 1, _ => salsa (xor (mixX B i (by omega)) B[i])

/-- scryptBlockMix: first the `Y` of even index, then those of odd index. -/
def scryptBlockMix (B : Blocks r) : Blocks r := Vector.ofFn fun j =>
  if _h : j.val < r then mixX B (2 * j.val + 1) (by omega)
  else mixX B (2 * (j.val - r) + 2) (by omega)

def integerify (B : Blocks r) : ℕ := toNat (last B)

/-- One step of the second loop of scryptROMix; `V[i]` is BlockMix applied `i` times. -/
def romixStep (B : Blocks r) (N : ℕ) (X : Blocks r) : Blocks r :=
  scryptBlockMix (Vector.zipWith xor X (scryptBlockMix^[integerify X % N] B))

def scryptROMix (B : Blocks r) (N : ℕ) : Blocks r :=
  (romixStep B N)^[N] (scryptBlockMix^[N] B)

end Mixing

section Deriving

variable (digest : List Byte → List Byte)

def padKey (K : List Byte) : List Byte :=
  let K := if K.length > 64 then digest K else K
  K ++ List.replicate (64 - K.length) 0

/-- HMAC of a hash with blocks of 64 octets. -/
def hmac (K text : List Byte) : List Byte :=
  digest ((padKey digest K).map (0x5c ^^^ ·) ++
    digest ((padKey digest K).map (0x36 ^^^ ·) ++ text))

def xorOctets (x y : List Byte) : List Byte := List.zipWith (· ^^^ ·) x y

/-- The encoding of a number in four octets, most significant octet first. -/
def int (i : ℕ) : List Byte := (leBytes 4 i).reverse

/-- `U_(j + 1)` of block `i`. -/
def prfChain (P S : List Byte) (i : ℕ) : ℕ → List Byte
  | 0 => hmac digest P (S ++ int i)
  | j + 1 => hmac digest P (prfChain P S i j)

/-- `U_1 xor ... xor U_(j + 1)`. -/
def prfXor (P S : List Byte) (i : ℕ) : ℕ → List Byte
  | 0 => prfChain digest P S i 0
  | j + 1 => xorOctets (prfXor P S i j) (prfChain digest P S i (j + 1))

/-- PBKDF2 with HMAC: `T_1, T_2, ...`, cut off after `dkLen` octets. -/
def pbkdf2 (P S : List Byte) (c dkLen : ℕ) : List Byte :=
  ((List.range ((dkLen + 31) / 32)).flatMap fun i =>
    prfXor digest P S (i + 1) (c - 1)).take dkLen

/-- The 64 octets from `64 * i` on. -/
def octetsAt (bytes : List Byte) (i : ℕ) : Octets :=
  Vector.ofFn fun j => bytes.getD (64 * i + j.val) 0

def flatten {n : ℕ} (B : Vector Octets n) : List Byte := B.toList.flatMap Vector.toList

/-- scrypt for the cost `N`, the block size `r` and the parallelisation `p`. -/
def scrypt (P S : List Byte) (N r p dkLen : ℕ) [NeZero r] : List Byte :=
  let B := pbkdf2 digest P S 1 (p * 128 * r)
  let B := (List.range p).flatMap fun i =>
    let Bi : Blocks r := Vector.ofFn fun j => octetsAt B (2 * r * i + j.val)
    flatten (scryptROMix Bi N)
  pbkdf2 digest P B 1 dkLen

end Deriving

end UmbrellaLtc.ScryptSpec

/-!
scrypt of hash/scrypt.hpp, with PBKDF2_SHA256 and the Salsa20/8 of hash/scrypt.cpp and that of
hash/scrypt-sse2.cpp. The templates are over the operations that they use of a SalsaBlockT, and
SHA256 is that of OpenSSL. A word is stored least significant byte first.
-/

namespace UmbrellaLtc.Scrypt

open Codec
open ScryptSpec (Word Words Octets words octets octetsAt flatten last)

section Pbkdf2

/-- SHA256_CTX with SHA256_Init, SHA256_Update and SHA256_Final. A context stands for all that it
has been fed. -/
structure Sha256 where
  Ctx : Type
  init : Ctx
  update : Ctx → List Byte → Ctx
  final : Ctx → List Byte
  digest : List Byte → List Byte
  digest_length : ∀ m, (digest m).length = 32
  final_eq : ∀ parts : List (List Byte), final (parts.foldl update init) = digest parts.flatten

variable (sha : Sha256)

structure HmacSha256Ctx where
  ictx : sha.Ctx
  octx : sha.Ctx

/-- The pad of 64 times `byte`, xored with the key. -/
def pad (byte : Byte) (K : List Byte) : List Byte :=
  (List.range 64).map fun i => if i < K.length then byte ^^^ K.getD i 0 else byte

def hmacSha256Init (K : List Byte) : HmacSha256Ctx sha :=
  let K := if K.length > 64 then sha.final (sha.update sha.init K) else K
  ⟨sha.update sha.init (pad 0x36 K), sha.update sha.init (pad 0x5c K)⟩

def hmacSha256Update (ctx : HmacSha256Ctx sha) (bytes : List Byte) : HmacSha256Ctx sha :=
  { ctx with ictx := sha.update ctx.ictx bytes }

def hmacSha256Final (ctx : HmacSha256Ctx sha) : List Byte :=
  sha.final (sha.update ctx.octx (sha.final ctx.ictx))

def be32enc (x : Word) : List Byte :=
  [((x >>> 24) &&& 0xff).setWidth 8, ((x >>> 16) &&& 0xff).setWidth 8,
    ((x >>> 8) &&& 0xff).setWidth 8, (x &&& 0xff).setWidth 8]

/-- T for the block `i`. The loop runs for `j` from 2 to `c`. -/
def pbkdf2Block (passwd salt : List Byte) (c i : ℕ) : List Byte :=
  let PShctx := hmacSha256Update sha (hmacSha256Init sha passwd) salt
  let U := hmacSha256Final sha (hmacSha256Update sha PShctx (be32enc (BitVec.ofNat 32 (i + 1))))
  let round (UT : List Byte × List Byte) : List Byte × List Byte :=
    let U := hmacSha256Final sha (hmacSha256Update sha (hmacSha256Init sha passwd) UT.1)
    (U, List.zipWith (· ^^^ ·) UT.2 U)
  (round^[c - 1] (U, U)).2

/-- The blocks from `i` on; of the last one as many bytes as necessary. -/
def pbkdf2Blocks (T : ℕ → List Byte) (dkLen i : ℕ) : List Byte :=
  if i * 32 < dkLen then
    (T i).take (min (dkLen - i * 32) 32) ++ pbkdf2Blocks T dkLen (i + 1)
  else []
termination_by dkLen - i * 32

def PBKDF2_SHA256 (passwd salt : List Byte) (c dkLen : ℕ) : List Byte :=
  pbkdf2Blocks (pbkdf2Block sha passwd salt c) dkLen 0

end Pbkdf2

section Templates

/-- What the templates use of a SalsaBlockT. `integerify` is that of the element 0 of a block. -/
structure SalsaBlockOps (α : Type) where
  xorSalsa8 : α → α → α
  xorAssign : α → α → α
  integerify : α → Word
  rearrangeBefore : α → α
  rearrangeAfter : α → α
  ofMemory : Octets → α
  toMemory : α → Octets

variable {α : Type} (ops : SalsaBlockOps α) {r : ℕ} [NeZero r]

/-- `x` and `b1` of block_mix after `i` rounds. What is in `b1` at first does not matter, as each
element is assigned. -/
def blockMixLoop (b : Vector α (2 * r)) : (i : ℕ) → i ≤ r → α × Vector α (2 * r)
  | 0, _ => (last b, b)
  | i + 1, _ =>
      let (x, b1) := blockMixLoop b i (by omega)
      let x := ops.xorSalsa8 x b[2 * i]
      let b1 := b1.set i x
      let x := ops.xorSalsa8 x b[2 * i + 1]
      (x, b1.set (r + i) x)

def blockMix (b : Vector α (2 * r)) : Vector α (2 * r) := (blockMixLoop ops b r le_rfl).2

variable {N : ℕ} [NeZero N]

/-- `x` and the work area after `i` rounds of the first loop of romix. -/
def fillLoop (x : Vector α (2 * r)) (v : Vector (Vector α (2 * r)) N) :
    (i : ℕ) → i ≤ N → Vector α (2 * r) × Vector (Vector α (2 * r)) N
  | 0, _ => (x, v)
  | i + 1, _ =>
      let (x, v) := fillLoop x v i (by omega)
      (blockMix ops x, v.set i x)

/-- A round of the second loop of romix. -/
def mixRound (v : Vector (Vector α (2 * r)) N) (x : Vector α (2 * r)) : Vector α (2 * r) :=
  let j := (ops.integerify (last x)).toNat % N
  have : j < N := Nat.mod_lt _ (NeZero.pos N)
  blockMix ops (Vector.zipWith ops.xorAssign x v[j])

def romix (x : Vector α (2 * r)) (v : Vector (Vector α (2 * r)) N) :
    Vector α (2 * r) × Vector (Vector α (2 * r)) N :=
  let (x, v) := fillLoop ops (x.map ops.rearrangeBefore) v N le_rfl
  let x := (mixRound ops v)^[N] x
  (x.map ops.rearrangeAfter, v)

/-- scrypt_256_sp_templ for `p == 1`; the value is what is in `output`, which has `size` bytes. -/
def scrypt256SpTempl (sha : Sha256) (password salt : List Byte) (size : ℕ)
    (scratchpad : Vector (Vector α (2 * r)) N) : List Byte :=
  let bytes := PBKDF2_SHA256 sha password salt 1 (128 * r)
  let B : Vector α (2 * r) := Vector.ofFn fun i => ops.ofMemory (octetsAt bytes i)
  let (B, _) := romix ops B scratchpad
  PBKDF2_SHA256 sha password (flatten (B.map ops.toMemory)) 1 size

end Templates

namespace Generic

/-- The macro ROTL. -/
def ROTL (a : Word) (b : ℕ) : Word := (a <<< b) ||| (a >>> (32 - b))

/-- Operate on columns. -/
def columns (x : Words) : Words :=
  let x04 := x[4] ^^^ ROTL (x[0] + x[12]) 7
  let x09 := x[9] ^^^ ROTL (x[5] + x[1]) 7
  let x14 := x[14] ^^^ ROTL (x[10] + x[6]) 7
  let x03 := x[3] ^^^ ROTL (x[15] + x[11]) 7
  let x08 := x[8] ^^^ ROTL (x04 + x[0]) 9
  let x13 := x[13] ^^^ ROTL (x09 + x[5]) 9
  let x02 := x[2] ^^^ ROTL (x14 + x[10]) 9
  let x07 := x[7] ^^^ ROTL (x03 + x[15]) 9
  let x12 := x[12] ^^^ ROTL (x08 + x04) 13
  let x01 := x[1] ^^^ ROTL (x13 + x09) 13
  let x06 := x[6] ^^^ ROTL (x02 + x14) 13
  let x11 := x[11] ^^^ ROTL (x07 + x03) 13
  let x00 := x[0] ^^^ ROTL (x12 + x08) 18
  let x05 := x[5] ^^^ ROTL (x01 + x13) 18
  let x10 := x[10] ^^^ ROTL (x06 + x02) 18
  let x15 := x[15] ^^^ ROTL (x11 + x07) 18
  #v[x00, x01, x02, x03, x04, x05, x06, x07, x08, x09, x10, x11, x12, x13, x14, x15]

/-- Operate on rows. -/
def rows (x : Words) : Words :=
  let x01 := x[1] ^^^ ROTL (x[0] + x[3]) 7
  let x06 := x[6] ^^^ ROTL (x[5] + x[4]) 7
  let x11 := x[11] ^^^ ROTL (x[10] + x[9]) 7
  let x12 := x[12] ^^^ ROTL (x[15] + x[14]) 7
  let x02 := x[2] ^^^ ROTL (x01 + x[0]) 9
  let x07 := x[7] ^^^ ROTL (x06 + x[5]) 9
  let x08 := x[8] ^^^ ROTL (x11 + x[10]) 9
  let x13 := x[13] ^^^ ROTL (x12 + x[15]) 9
  let x03 := x[3] ^^^ ROTL (x02 + x01) 13
  let x04 := x[4] ^^^ ROTL (x07 + x06) 13
  let x09 := x[9] ^^^ ROTL (x08 + x11) 13
  let x14 := x[14] ^^^ ROTL (x13 + x12) 13
  let x00 := x[0] ^^^ ROTL (x03 + x02) 18
  let x05 := x[5] ^^^ ROTL (x04 + x07) 18
  let x10 := x[10] ^^^ ROTL (x09 + x08) 18
  let x15 := x[15] ^^^ ROTL (x14 + x13) 18
  #v[x00, x01, x02, x03, x04, x05, x06, x07, x08, x09, x10, x11, x12, x13, x14, x15]

def xorSalsa8 (B Bx : Words) : Words :=
  let B := Vector.zipWith (· ^^^ ·) B Bx
  let x := (fun x => rows (columns x))^[4] B
  Vector.zipWith (· + ·) B x

def ops : SalsaBlockOps Words where
  xorSalsa8 := xorSalsa8
  xorAssign := Vector.zipWith (· ^^^ ·)
  integerify a := a[0]
  rearrangeBefore := id
  rearrangeAfter := id
  ofMemory := words
  toMemory := octets

end Generic

namespace Sse2

/-- An __m128i as four lanes of 32 bits, the lowest one first. -/
structure M128 where
  l0 : Word
  l1 : Word
  l2 : Word
  l3 : Word

section Intrinsics

def lane (a : M128) : ℕ → Word
  | 0 => a.l0
  | 1 => a.l1
  | 2 => a.l2
  | _ => a.l3

def map (f : Word → Word) (a : M128) : M128 := ⟨f a.l0, f a.l1, f a.l2, f a.l3⟩

def map2 (f : Word → Word → Word) (a b : M128) : M128 :=
  ⟨f a.l0 b.l0, f a.l1 b.l1, f a.l2 b.l2, f a.l3 b.l3⟩

def xorSi128 : M128 → M128 → M128 := map2 (· ^^^ ·)

def andSi128 : M128 → M128 → M128 := map2 (· &&& ·)

def addEpi32 : M128 → M128 → M128 := map2 (· + ·)

def slliEpi32 (a : M128) (n : ℕ) : M128 := map (· <<< n) a

def srliEpi32 (a : M128) (n : ℕ) : M128 := map (· >>> n) a

/-- Two bits of the constant for each lane say where it comes from. -/
def shuffleEpi32 (a : M128) (imm : ℕ) : M128 :=
  ⟨lane a (imm % 4), lane a (imm / 4 % 4), lane a (imm / 16 % 4), lane a (imm / 64 % 4)⟩

def cvtsi32Si128 (a : Word) : M128 := ⟨a, 0, 0, 0⟩

def cvtsi128Si32 (a : M128) : Word := a.l0

end Intrinsics

structure SalsaBlock where
  b0 : M128
  b1 : M128
  b2 : M128
  b3 : M128

/-- `T = a + b` and the two assignments to X that follow it. -/
def assign (X a b : M128) (left right : ℕ) : M128 :=
  let T := addEpi32 a b
  let X := xorSi128 X (slliEpi32 T left)
  xorSi128 X (srliEpi32 T right)

/-- Operate on "columns". -/
def columns (X : SalsaBlock) : SalsaBlock :=
  let X1 := assign X.b1 X.b0 X.b3 7 25
  let X2 := assign X.b2 X1 X.b0 9 23
  let X3 := assign X.b3 X2 X1 13 19
  let X0 := assign X.b0 X3 X2 18 14
  ⟨X0, X1, X2, X3⟩

/-- Operate on "rows". -/
def rows (X : SalsaBlock) : SalsaBlock :=
  let X3 := assign X.b3 X.b0 X.b1 7 25
  let X2 := assign X.b2 X3 X.b0 9 23
  let X1 := assign X.b1 X2 X3 13 19
  let X0 := assign X.b0 X1 X2 18 14
  ⟨X0, X1, X2, X3⟩

/-- Rearrange data. -/
def rearrange (X : SalsaBlock) (imm1 imm2 imm3 : ℕ) : SalsaBlock :=
  ⟨X.b0, shuffleEpi32 X.b1 imm1, shuffleEpi32 X.b2 imm2, shuffleEpi32 X.b3 imm3⟩

def doubleRound (X : SalsaBlock) : SalsaBlock :=
  let X := columns X
  let X := rearrange X 0x93 0x4E 0x39
  let X := rows X
  rearrange X 0x39 0x4E 0x93

def mapBlocks (f : M128 → M128 → M128) (x y : SalsaBlock) : SalsaBlock :=
  ⟨f x.b0 y.b0, f x.b1 y.b1, f x.b2 y.b2, f x.b3 y.b3⟩

def xorSalsa8 (B Bx : SalsaBlock) : SalsaBlock :=
  let B := mapBlocks xorSi128 B Bx
  let X := doubleRound^[4] B
  mapBlocks addEpi32 B X

def integerify (a : M128) : Word :=
  let mask := cvtsi32Si128 (BitVec.allOnes 32)
  cvtsi128Si32 (andSi128 a mask)

/-- `reinterpret_cast<generic::SalsaBlock&>(x)`. -/
def asWords (x : SalsaBlock) : Words :=
  #v[x.b0.l0, x.b0.l1, x.b0.l2, x.b0.l3, x.b1.l0, x.b1.l1, x.b1.l2, x.b1.l3,
    x.b2.l0, x.b2.l1, x.b2.l2, x.b2.l3, x.b3.l0, x.b3.l1, x.b3.l2, x.b3.l3]

def ofWords (w : Words) : SalsaBlock :=
  ⟨⟨w[0], w[1], w[2], w[3]⟩, ⟨w[4], w[5], w[6], w[7]⟩, ⟨w[8], w[9], w[10], w[11]⟩,
    ⟨w[12], w[13], w[14], w[15]⟩⟩

def rearrangeBefore (x : SalsaBlock) : SalsaBlock :=
  let x1 := asWords x
  ofWords (Vector.ofFn fun i => x1[i.val * 5 % 16])

def rearrangeAfter (x : SalsaBlock) : SalsaBlock :=
  let x1 := asWords x
  ofWords ((List.finRange 16).foldl (fun x2 i => x2.set (i.val * 5 % 16) x1[i.val]) x1)

def ops : SalsaBlockOps SalsaBlock where
  xorSalsa8 := xorSalsa8
  xorAssign := mapBlocks xorSi128
  integerify x := integerify x.b0
  rearrangeBefore := rearrangeBefore
  rearrangeAfter := rearrangeAfter
  ofMemory x := ofWords (words x)
  toMemory x := octets (asWords x)

end Sse2

end UmbrellaLtc.Scrypt

/-!
Both Salsa blocks give scrypt by its standard definition. The templates are followed for any type
that represents the blocks of 64 octets; the words do, and so do the four vectors in the order
that the SSE2 code keeps them in.
-/

namespace UmbrellaLtc.Scrypt

open Codec
open ScryptSpec (Word Words Octets Blocks words octets xor rotl salsa core mixX scryptBlockMix
  romixStep scryptROMix last)

section Pbkdf2

variable (sha : Sha256)

theorem pad_eq (byte : Byte) {K : List Byte} (hK : K.length ≤ 64) :
    pad byte K = (K ++ List.replicate (64 - K.length) 0).map (byte ^^^ ·) := by
  apply List.ext_getElem
  · simp only [pad, List.length_map, List.length_range, List.length_append, List.length_replicate]
    omega
  · intro i hi hi'
    simp only [pad, List.getElem_map, List.getElem_range]
    by_cases hlt : i < K.length
    · rw [if_pos hlt, List.getElem_append_left hlt, List.getD_eq_getElem _ _ hlt]
    · rw [if_neg hlt, List.getElem_append_right (by omega), List.getElem_replicate]
      exact (BitVec.xor_zero).symm

theorem final_update (bytes : List Byte) :
    sha.final (sha.update sha.init bytes) = sha.digest bytes := by
  have h := sha.final_eq [bytes]
  simpa using h

/-- The two contexts of HMAC have been fed the padded key. -/
theorem hmac_eq (K : List Byte) (parts : List (List Byte)) :
    hmacSha256Final sha (parts.foldl (hmacSha256Update sha) (hmacSha256Init sha K)) =
      ScryptSpec.hmac sha.digest K parts.flatten := by
  let key := if K.length > 64 then sha.digest K else K
  have hkey : key.length ≤ 64 := by
    by_cases hlong : K.length > 64
    · simp [key, if_pos hlong, sha.digest_length]
    · simpa [key, if_neg hlong] using hlong
  have hinit : hmacSha256Init sha K =
      ⟨sha.update sha.init (pad 0x36 key), sha.update sha.init (pad 0x5c key)⟩ := by
    simp only [hmacSha256Init, final_update, key]
  have hfold : ∀ (parts : List (List Byte)) (ctx : HmacSha256Ctx sha),
      parts.foldl (hmacSha256Update sha) ctx = ⟨parts.foldl sha.update ctx.ictx, ctx.octx⟩ := by
    intro parts
    induction parts with
    | nil => exact fun ctx => rfl
    | cons part parts ih => exact fun ctx => ih _
  have hinner := sha.final_eq (pad 0x36 key :: parts)
  have houter := sha.final_eq [pad 0x5c key, sha.digest (pad 0x36 key ++ parts.flatten)]
  simp only [List.foldl_cons, List.foldl_nil, List.flatten_cons, List.flatten_nil,
    List.append_nil] at hinner houter
  have hpad : ScryptSpec.padKey sha.digest K = key ++ List.replicate (64 - key.length) 0 := rfl
  rw [hinit, hfold, hmacSha256Final, hinner, houter, ScryptSpec.hmac, hpad, pad_eq _ hkey,
    pad_eq _ hkey]

theorem low_byte (x : Word) : (x &&& 0xff).setWidth 8 = x.setWidth 8 := by
  apply BitVec.eq_of_toNat_eq
  have hand : x.toNat % 256 &&& 255 = x.toNat % 256 % 256 :=
    Nat.and_two_pow_sub_one_eq_mod (x.toNat % 256) 8
  simp [hand]

theorem be32enc_eq (i : ℕ) : be32enc (BitVec.ofNat 32 i) = ScryptSpec.int i := by
  have hbyte : ∀ n ≤ 24, ((BitVec.ofNat 32 i) >>> n).setWidth 8 = BitVec.ofNat 8 (i / 2 ^ n) := by
    intro n hn
    apply BitVec.eq_of_toNat_eq
    have hmod : i % 2 ^ 32 / 2 ^ n % 2 ^ 8 = i / 2 ^ n % 2 ^ 8 := by
      rw [← Nat.mod_mul_right_div_self, ← Nat.mod_mul_right_div_self (m := i), ← pow_add,
        Nat.mod_mod_of_dvd _ (Nat.pow_dvd_pow 2 (by omega))]
    simpa [Nat.shiftRight_eq_div_pow] using hmod
  have h8 := hbyte 8 (by omega)
  have h16 := hbyte 16 (by omega)
  have h24 := hbyte 24 le_rfl
  simp only [be32enc, low_byte, h8, h16, h24, ScryptSpec.int, leBytes]
  simp [Nat.div_div_eq_div_mul]

/-- The loops of PBKDF2_SHA256 for one block give the sum of its chain. -/
theorem pbkdf2Block_eq (passwd salt : List Byte) (c i : ℕ) :
    pbkdf2Block sha passwd salt c i = ScryptSpec.prfXor sha.digest passwd salt (i + 1) (c - 1) := by
  have hfirst := hmac_eq sha passwd [salt, be32enc (BitVec.ofNat 32 (i + 1))]
  have hnext : ∀ U, hmacSha256Final sha (hmacSha256Update sha (hmacSha256Init sha passwd) U) =
      ScryptSpec.hmac sha.digest passwd U := by
    intro U
    simpa using hmac_eq sha passwd [U]
  simp only [List.foldl_cons, List.foldl_nil, List.flatten_cons, List.flatten_nil,
    List.append_nil, be32enc_eq] at hfirst
  have hloop : ∀ n,
      (fun UT : List Byte × List Byte =>
        (hmacSha256Final sha (hmacSha256Update sha (hmacSha256Init sha passwd) UT.1),
          List.zipWith (· ^^^ ·) UT.2
            (hmacSha256Final sha (hmacSha256Update sha (hmacSha256Init sha passwd) UT.1))))^[n]
        (ScryptSpec.prfChain sha.digest passwd salt (i + 1) 0,
          ScryptSpec.prfChain sha.digest passwd salt (i + 1) 0) =
      (ScryptSpec.prfChain sha.digest passwd salt (i + 1) n,
        ScryptSpec.prfXor sha.digest passwd salt (i + 1) n) := by
    intro n
    induction n with
    | zero => rfl
    | succ n ih =>
      rw [Function.iterate_succ_apply', ih]
      simp only [hnext]
      rfl
  unfold pbkdf2Block
  simp only [be32enc_eq, hfirst]
  exact congrArg Prod.snd (hloop (c - 1))

theorem prfXor_length (P S : List Byte) (i n : ℕ) :
    (ScryptSpec.prfXor sha.digest P S i n).length = 32 := by
  have hchain : ∀ n, (ScryptSpec.prfChain sha.digest P S i n).length = 32 := by
    intro n
    cases n with
    | zero => exact sha.digest_length _
    | succ n => exact sha.digest_length _
  induction n with
  | zero => exact hchain 0
  | succ n ih =>
    rw [ScryptSpec.prfXor, ScryptSpec.xorOctets, List.length_zipWith, ih, hchain, min_self]

/-- Blocks of 32 octets one after another, cut off where the last one is. -/
theorem pbkdf2Blocks_eq {T : ℕ → List Byte} (hT : ∀ i, (T i).length = 32) (dkLen i : ℕ) :
    pbkdf2Blocks T dkLen i =
      ((List.range ((dkLen - i * 32 + 31) / 32)).flatMap fun j => T (i + j)).take
        (dkLen - i * 32) := by
  induction hn : dkLen - i * 32 using Nat.strong_induction_on generalizing i with
  | h n ih =>
    rw [pbkdf2Blocks]
    by_cases hlt : i * 32 < dkLen
    · have hrest := ih (dkLen - (i + 1) * 32) (by omega) (i + 1) rfl
      have hcount : (n + 31) / 32 = (dkLen - (i + 1) * 32 + 31) / 32 + 1 := by omega
      have hshift : (fun j => T (i + Nat.succ j)) = fun j => T (i + 1 + j) := by
        funext j
        rw [show i + Nat.succ j = i + 1 + j by omega]
      rw [if_pos hlt, hrest, hcount, List.range_succ_eq_map, List.flatMap_cons, List.take_append,
        hT, hn, List.flatMap_map, hshift, show n - 32 = dkLen - (i + 1) * 32 by omega]
      congr 1
      by_cases hlast : n ≤ 32
      · rw [min_eq_left hlast, Nat.add_zero]
      · rw [min_eq_right (by omega), List.take_of_length_le (by rw [hT]),
          List.take_of_length_le (by rw [hT]; omega), Nat.add_zero]
    · rw [if_neg hlt, show n = 0 by omega, List.take_zero]

theorem PBKDF2_SHA256_eq (passwd salt : List Byte) (c dkLen : ℕ) :
    PBKDF2_SHA256 sha passwd salt c dkLen = ScryptSpec.pbkdf2 sha.digest passwd salt c dkLen := by
  have hT : pbkdf2Block sha passwd salt c =
      fun i => ScryptSpec.prfXor sha.digest passwd salt (i + 1) (c - 1) :=
    funext fun i => pbkdf2Block_eq sha passwd salt c i
  rw [PBKDF2_SHA256, hT, pbkdf2Blocks_eq fun i => prfXor_length sha passwd salt (i + 1) (c - 1)]
  simp only [Nat.zero_mul, Nat.sub_zero, Nat.zero_add, ScryptSpec.pbkdf2]

end Pbkdf2

section Blocks

theorem octet_word (a b c d : Byte) {n : ℕ} (hn : n < 4) :
    (a ++ b ++ c ++ d : Word).extractLsb' (8 * n) 8 =
      if n = 0 then d else if n = 1 then c else if n = 2 then b else a := by
  ext i hi
  interval_cases n
  all_goals
    simp only [BitVec.getElem_extractLsb', BitVec.getLsbD_append]
    grind

theorem word_octets (w : Word) :
    (w.extractLsb' 24 8 ++ w.extractLsb' 16 8 ++ w.extractLsb' 8 8 ++ w.extractLsb' 0 8 : Word) =
      w := by
  ext i hi
  simp only [BitVec.getElem_append, BitVec.getElem_extractLsb']
  grind

@[simp] theorem words_octets (w : Words) : words (octets w) = w := by
  apply Vector.ext
  intro i hi
  have h3 : (4 * i + 3) / 4 = i ∧ (4 * i + 3) % 4 = 3 := by omega
  have h2 : (4 * i + 2) / 4 = i ∧ (4 * i + 2) % 4 = 2 := by omega
  have h1 : (4 * i + 1) / 4 = i ∧ (4 * i + 1) % 4 = 1 := by omega
  have h0 : 4 * i / 4 = i ∧ 4 * i % 4 = 0 := by omega
  simp only [words, octets, Vector.getElem_ofFn, h3, h2, h1, h0]
  exact word_octets w[i]

@[simp] theorem octets_words (x : Octets) : octets (words x) = x := by
  apply Vector.ext
  intro j hj
  simp only [octets, words, Vector.getElem_ofFn,
    octet_word _ _ _ _ (Nat.mod_lt j (by omega : 0 < 4))]
  split_ifs
  all_goals
    congr 1
    omega

theorem append_xor (a b c d a' b' c' d' : Byte) :
    ((a ^^^ a') ++ (b ^^^ b') ++ (c ^^^ c') ++ (d ^^^ d') : Word) =
      (a ++ b ++ c ++ d : Word) ^^^ (a' ++ b' ++ c' ++ d' : Word) := by
  ext i hi
  simp only [BitVec.getElem_xor, BitVec.getElem_append]
  grind

theorem words_xor (x y : Octets) : words (xor x y) = xor (words x) (words y) := by
  apply Vector.ext
  intro i hi
  simp only [words, ScryptSpec.xor, Vector.getElem_ofFn, Vector.getElem_zipWith, append_xor]

theorem toNat_append_byte {n : ℕ} (x : BitVec n) (y : Byte) :
    (x ++ y).toNat = x.toNat * 256 + y.toNat := by
  rw [BitVec.toNat_append, ← Nat.shiftLeft_add_eq_or_of_lt y.isLt, Nat.shiftLeft_eq]

/-- Modulo a power of two, only the first word counts. -/
theorem toNat_mod (x : Octets) {k : ℕ} (hk : k ≤ 32) :
    ScryptSpec.toNat x % 2 ^ k = (words x)[0].toNat % 2 ^ k := by
  have hword : (words x)[0].toNat =
      x[0].toNat + x[1].toNat * 256 + x[2].toNat * 256 ^ 2 + x[3].toNat * 256 ^ 3 := by
    simp only [words, Vector.getElem_ofFn, toNat_append_byte]
    ring
  have hrest : 2 ^ 32 ∣ ∑ j : Fin 60, x[4 + j.val].toNat * 256 ^ (4 + j.val) := by
    apply Finset.dvd_sum
    intro j _
    exact ⟨x[4 + j.val].toNat * 256 ^ j.val, by ring⟩
  obtain ⟨rest, hrest⟩ := hrest
  have hsum : ScryptSpec.toNat x = (words x)[0].toNat + 2 ^ 32 * rest := by
    have hsplit := Fin.sum_univ_add (a := 4) (b := 60)
      fun j : Fin 64 => x[j].toNat * 256 ^ j.val
    rw [hword, ← hrest, ScryptSpec.toNat, hsplit, Fin.sum_univ_four]
    simp
  have hpow : 2 ^ 32 = 2 ^ k * 2 ^ (32 - k) := by
    rw [← pow_add, Nat.add_sub_cancel' hk]
  rw [hsum, hpow, Nat.mul_assoc, Nat.add_mul_mod_self_left]

end Blocks

section Salsa

/-- Shifting both ways into the same word is a rotation. -/
theorem xor_shifts (x t : Word) {n : ℕ} (hn : n ≤ 32) :
    x ^^^ (t <<< n) ^^^ (t >>> (32 - n)) = x ^^^ rotl t n := by
  rw [BitVec.xor_assoc]
  congr 1
  ext i hi
  simp only [rotl, BitVec.getElem_xor, BitVec.getElem_or, BitVec.getElem_shiftLeft,
    BitVec.getElem_ushiftRight]
  by_cases hlt : i < n
  · simp [hlt]
  · have hout : 32 ≤ 32 - n + i := by omega
    simp [hlt, BitVec.getLsbD_of_ge _ _ hout]

theorem columns_eq (x : Words) : Generic.columns x = ScryptSpec.columns x := rfl

theorem rows_eq (x : Words) : Generic.rows x = ScryptSpec.rows x := rfl

theorem xorSalsa8_eq (x b : Words) : Generic.xorSalsa8 x b = core (xor x b) := by
  have hxor : Vector.zipWith (· ^^^ ·) x b = xor x b := rfl
  apply Vector.ext
  intro i hi
  simp only [Generic.xorSalsa8, core, hxor, Vector.getElem_zipWith, columns_eq, rows_eq]
  exact BitVec.add_comm _ _

/-- The words of a block in the order in which the vectors hold them. -/
def diagonal (w : Words) : Sse2.SalsaBlock :=
  ⟨⟨w[0], w[5], w[10], w[15]⟩, ⟨w[4], w[9], w[14], w[3]⟩, ⟨w[8], w[13], w[2], w[7]⟩,
    ⟨w[12], w[1], w[6], w[11]⟩⟩

/-- The order between the half rounds. -/
def transposed (w : Words) : Sse2.SalsaBlock :=
  ⟨⟨w[0], w[5], w[10], w[15]⟩, ⟨w[3], w[4], w[9], w[14]⟩, ⟨w[2], w[7], w[8], w[13]⟩,
    ⟨w[1], w[6], w[11], w[12]⟩⟩

theorem rearrangeBefore_eq (w : Words) :
    Sse2.rearrangeBefore (Sse2.ofWords w) = diagonal w := by
  simp only [Sse2.rearrangeBefore, Sse2.ofWords, Vector.getElem_ofFn]
  rfl

theorem asWords_ofWords (w : Words) : Sse2.asWords (Sse2.ofWords w) = w := by
  apply Vector.ext
  intro i hi
  interval_cases i
  all_goals rfl

theorem rearrangeAfter_eq (w : Words) :
    Sse2.asWords (Sse2.rearrangeAfter (diagonal w)) = w := by
  have hrange : List.finRange 16 = [0, 1, 2, 3, 4, 5, 6, 7, 8, 9, 10, 11, 12, 13, 14, 15] := by
    decide
  rw [Sse2.rearrangeAfter, asWords_ofWords, hrange]
  simp only [List.foldl_cons, List.foldl_nil]
  apply Vector.ext
  intro i hi
  simp only [Vector.getElem_set]
  interval_cases i
  all_goals rfl

/-- What the assignments to X come to, with a rotation by `n`. -/
def rotXor (X a b : Sse2.M128) (n : ℕ) : Sse2.M128 :=
  Sse2.map2 (· ^^^ ·) X (Sse2.map (fun t => rotl t n) (Sse2.map2 (· + ·) a b))

theorem assign_eq (X a b : Sse2.M128) {n : ℕ} (hn : n ≤ 32) :
    Sse2.assign X a b n (32 - n) = rotXor X a b n := by
  simp only [Sse2.assign, Sse2.xorSi128, Sse2.slliEpi32, Sse2.srliEpi32, Sse2.addEpi32, rotXor,
    Sse2.map2, Sse2.map, xor_shifts _ _ hn]

theorem assign_7 (X a b : Sse2.M128) : Sse2.assign X a b 7 25 = rotXor X a b 7 :=
  assign_eq X a b (by omega)

theorem assign_9 (X a b : Sse2.M128) : Sse2.assign X a b 9 23 = rotXor X a b 9 :=
  assign_eq X a b (by omega)

theorem assign_13 (X a b : Sse2.M128) : Sse2.assign X a b 13 19 = rotXor X a b 13 :=
  assign_eq X a b (by omega)

theorem assign_18 (X a b : Sse2.M128) : Sse2.assign X a b 18 14 = rotXor X a b 18 :=
  assign_eq X a b (by omega)

theorem columns_diagonal (w : Words) :
    Sse2.columns (diagonal w) = diagonal (ScryptSpec.columns w) := by
  simp only [Sse2.columns, assign_7, assign_9, assign_13, assign_18]
  rfl

theorem rows_transposed (w : Words) :
    Sse2.rows (transposed w) = transposed (ScryptSpec.rows w) := by
  simp only [Sse2.rows, assign_7, assign_9, assign_13, assign_18]
  rfl

theorem rearrange_diagonal (w : Words) :
    Sse2.rearrange (diagonal w) 0x93 0x4E 0x39 = transposed w := rfl

theorem rearrange_transposed (w : Words) :
    Sse2.rearrange (transposed w) 0x39 0x4E 0x93 = diagonal w := rfl

/-- A double round on the vectors is one on the words. -/
theorem doubleRound_diagonal (w : Words) :
    Sse2.doubleRound (diagonal w) = diagonal (ScryptSpec.rows (ScryptSpec.columns w)) := by
  rw [Sse2.doubleRound, columns_diagonal, rearrange_diagonal, rows_transposed,
    rearrange_transposed]

theorem diagonal_xor (x y : Words) :
    Sse2.mapBlocks Sse2.xorSi128 (diagonal x) (diagonal y) = diagonal (xor x y) := by
  simp [Sse2.mapBlocks, Sse2.xorSi128, Sse2.map2, diagonal, ScryptSpec.xor]

theorem diagonal_add (x y : Words) :
    Sse2.mapBlocks Sse2.addEpi32 (diagonal x) (diagonal y) =
      diagonal (Vector.zipWith (· + ·) x y) := by
  simp [Sse2.mapBlocks, Sse2.addEpi32, Sse2.map2, diagonal]

theorem xorSalsa8_diagonal (x b : Words) :
    Sse2.xorSalsa8 (diagonal x) (diagonal b) = diagonal (core (xor x b)) := by
  have hrounds : Sse2.doubleRound^[4] (diagonal (xor x b)) =
      diagonal ((fun w => ScryptSpec.rows (ScryptSpec.columns w))^[4] (xor x b)) :=
    ((show Function.Semiconj diagonal (fun w => ScryptSpec.rows (ScryptSpec.columns w))
      Sse2.doubleRound from fun w => (doubleRound_diagonal w).symm).iterate_right 4 _).symm
  have hadd := xorSalsa8_eq x b
  rw [Sse2.xorSalsa8, diagonal_xor]
  simp only [hrounds, diagonal_add]
  rw [← hadd]
  rfl

theorem integerify_diagonal (w : Words) : Sse2.integerify (diagonal w).b0 = w[0] :=
  BitVec.and_allOnes

end Salsa

section Templates

/-- The values of a SalsaBlockT that stand for the blocks of octets between the rearrangements. -/
structure Represents {α : Type} (ops : SalsaBlockOps α) (φ : Octets → α) : Prop where
  xorSalsa8 : ∀ x b, ops.xorSalsa8 (φ x) (φ b) = φ (salsa (xor x b))
  xorAssign : ∀ x y, ops.xorAssign (φ x) (φ y) = φ (xor x y)
  integerify : ∀ x, ops.integerify (φ x) = (words x)[0]
  before : ∀ x, ops.rearrangeBefore (ops.ofMemory x) = φ x
  after : ∀ x, ops.toMemory (ops.rearrangeAfter (φ x)) = x

theorem represents_generic : Represents Generic.ops words where
  xorSalsa8 x b := by
    show Generic.xorSalsa8 (words x) (words b) = _
    rw [xorSalsa8_eq, salsa, words_octets, words_xor]
  xorAssign x y := (words_xor x y).symm
  integerify _ := rfl
  before _ := rfl
  after := octets_words

theorem represents_sse2 : Represents Sse2.ops fun x => diagonal (words x) where
  xorSalsa8 x b := by
    show Sse2.xorSalsa8 (diagonal (words x)) (diagonal (words b)) = _
    rw [xorSalsa8_diagonal, salsa, words_octets, words_xor]
  xorAssign x y := by
    show Sse2.mapBlocks Sse2.xorSi128 (diagonal (words x)) (diagonal (words y)) = _
    rw [diagonal_xor, words_xor]
  integerify x := integerify_diagonal (words x)
  before x := rearrangeBefore_eq (words x)
  after x := by
    show octets (Sse2.asWords (Sse2.rearrangeAfter (diagonal (words x)))) = x
    rw [rearrangeAfter_eq, octets_words]

variable {r : ℕ} [NeZero r]

theorem last_map {β γ : Type} (f : β → γ) (B : Vector β (2 * r)) : last (B.map f) = f (last B) := by
  simp [last]

variable {α : Type} {ops : SalsaBlockOps α} {φ : Octets → α} (h : Represents ops φ)
include h

/-- After `i` rounds, X is what it is after `2 * i` steps, and the first `i` elements of both
halves are assigned. -/
theorem blockMixLoop_spec (B : Blocks r) (i : ℕ) (hi : i ≤ r) :
    (blockMixLoop ops (B.map φ) i hi).1 = φ (mixX B (2 * i) (by omega)) ∧
      (∀ j (hj : j < i), (blockMixLoop ops (B.map φ) i hi).2[j] =
        φ (mixX B (2 * j + 1) (by omega))) ∧
      ∀ j (hj : j < i), (blockMixLoop ops (B.map φ) i hi).2[r + j] =
        φ (mixX B (2 * j + 2) (by omega)) := by
  induction i with
  | zero =>
    refine ⟨last_map φ B, ?_, ?_⟩
    · intro j hj
      omega
    · intro j hj
      omega
  | succ i ih =>
    obtain ⟨hx, heven, hodd⟩ := ih (by omega)
    have hx1 : ops.xorSalsa8 (blockMixLoop ops (B.map φ) i (by omega)).1 (B.map φ)[2 * i] =
        φ (mixX B (2 * i + 1) (by omega)) := by
      rw [hx, Vector.getElem_map, h.xorSalsa8]
      rfl
    have hx2 : ops.xorSalsa8 (φ (mixX B (2 * i + 1) (by omega))) (B.map φ)[2 * i + 1] =
        φ (mixX B (2 * i + 2) (by omega)) := by
      rw [Vector.getElem_map, h.xorSalsa8]
      rfl
    simp only [blockMixLoop, hx1, hx2]
    refine ⟨rfl, ?_, ?_⟩
    · intro j hj
      rw [Vector.getElem_set_ne _ _ (by omega)]
      by_cases hji : j = i
      · subst hji
        exact Vector.getElem_set_self _
      · rw [Vector.getElem_set_ne _ _ (by omega)]
        exact heven j (by omega)
    · intro j hj
      by_cases hji : j = i
      · subst hji
        exact Vector.getElem_set_self _
      · rw [Vector.getElem_set_ne _ _ (by omega), Vector.getElem_set_ne _ _ (by omega)]
        exact hodd j (by omega)

theorem blockMix_map (B : Blocks r) : blockMix ops (B.map φ) = (scryptBlockMix B).map φ := by
  obtain ⟨-, heven, hodd⟩ := blockMixLoop_spec h B r le_rfl
  apply Vector.ext
  intro j hj
  rw [Vector.getElem_map, scryptBlockMix, Vector.getElem_ofFn]
  by_cases hlt : j < r
  · simp only [hlt, dif_pos]
    exact heven j hlt
  · simp only [hlt, dif_neg, not_false_eq_true]
    have hodd := hodd (j - r) (by omega)
    simp only [Nat.add_sub_cancel' (Nat.le_of_not_lt hlt)] at hodd
    exact hodd

variable {N : ℕ}

theorem fillLoop_spec (X : Blocks r) (v : Vector (Vector α (2 * r)) N) (i : ℕ) (hi : i ≤ N) :
    (fillLoop ops (X.map φ) v i hi).1 = (scryptBlockMix^[i] X).map φ ∧
      ∀ j (hj : j < i), (fillLoop ops (X.map φ) v i hi).2[j] = (scryptBlockMix^[j] X).map φ := by
  induction i with
  | zero =>
    refine ⟨rfl, ?_⟩
    intro j hj
    omega
  | succ i ih =>
    obtain ⟨hx, hv⟩ := ih (by omega)
    simp only [fillLoop]
    constructor
    · rw [hx, blockMix_map h, Function.iterate_succ_apply']
    · intro j hj
      by_cases hji : j = i
      · subst hji
        rw [Vector.getElem_set_self, hx]
      · rw [Vector.getElem_set_ne _ _ (by omega)]
        exact hv j (by omega)

variable [NeZero N]

theorem mixRound_map {B X : Blocks r} {v : Vector (Vector α (2 * r)) N}
    (hv : ∀ j (_ : j < N), v[j] = (scryptBlockMix^[j] B).map φ)
    (hN : ∀ x, ScryptSpec.toNat x % N = (words x)[0].toNat % N) :
    mixRound ops v (X.map φ) = (romixStep B N X).map φ := by
  have hj : (ops.integerify (last (X.map φ))).toNat % N = ScryptSpec.integerify X % N := by
    rw [last_map, h.integerify, ScryptSpec.integerify, hN]
  have hxor : ∀ Y : Blocks r,
      Vector.zipWith ops.xorAssign (X.map φ) (Y.map φ) =
        (Vector.zipWith ScryptSpec.xor X Y).map φ := by
    intro Y
    apply Vector.ext
    intro i hi
    simp only [Vector.getElem_zipWith, Vector.getElem_map, h.xorAssign]
  unfold mixRound
  simp only [hj]
  rw [hv _ (Nat.mod_lt _ (NeZero.pos N)), hxor, blockMix_map h, romixStep]

theorem romix_map (B : Blocks r) (v : Vector (Vector α (2 * r)) N)
    (hN : ∀ x, ScryptSpec.toNat x % N = (words x)[0].toNat % N) :
    (romix ops (B.map ops.ofMemory) v).1.map ops.toMemory = scryptROMix B N := by
  have hbefore : (B.map ops.ofMemory).map ops.rearrangeBefore = B.map φ := by
    apply Vector.ext
    intro i hi
    simp only [Vector.getElem_map, h.before]
  obtain ⟨hx, hv⟩ := fillLoop_spec h B v N le_rfl
  have hmix : ∀ n X, (mixRound ops (fillLoop ops (B.map φ) v N le_rfl).2)^[n] (X.map φ) =
      ((romixStep B N)^[n] X).map φ := by
    intro n X
    induction n with
    | zero => rfl
    | succ n ih =>
      rw [Function.iterate_succ_apply', Function.iterate_succ_apply', ih, mixRound_map h hv hN]
  have hafter : ∀ X : Blocks r, ((X.map φ).map ops.rearrangeAfter).map ops.toMemory = X := by
    intro X
    apply Vector.ext
    intro i hi
    simp only [Vector.getElem_map, h.after]
  simp only [romix, hbefore, hx, hmix, hafter]
  rfl

theorem scrypt256SpTempl_eq (sha : Sha256) (password salt : List Byte) (size : ℕ)
    (scratchpad : Vector (Vector α (2 * r)) N)
    (hN : ∀ x, ScryptSpec.toNat x % N = (words x)[0].toNat % N) :
    scrypt256SpTempl ops sha password salt size scratchpad =
      ScryptSpec.scrypt sha.digest password salt N r 1 size := by
  let bytes := ScryptSpec.pbkdf2 sha.digest password salt 1 (1 * 128 * r)
  let B : Blocks r := Vector.ofFn fun i => ScryptSpec.octetsAt bytes i
  have hB : (Vector.ofFn fun i : Fin (2 * r) => ops.ofMemory (ScryptSpec.octetsAt bytes i)) =
      B.map ops.ofMemory := by
    apply Vector.ext
    intro i hi
    simp only [B, Vector.getElem_map, Vector.getElem_ofFn]
  have hspec : ScryptSpec.scrypt sha.digest password salt N r 1 size =
      ScryptSpec.pbkdf2 sha.digest password (ScryptSpec.flatten (scryptROMix B N)) 1 size := by
    simp only [ScryptSpec.scrypt, List.range_one, List.flatMap_cons, List.flatMap_nil,
      List.append_nil, Nat.mul_zero, Nat.zero_add]
    rfl
  have hbytes : PBKDF2_SHA256 sha password salt 1 (128 * r) = bytes := by
    rw [PBKDF2_SHA256_eq, show 128 * r = 1 * 128 * r by omega]
  rw [hspec, ← romix_map h B scratchpad hN, ← PBKDF2_SHA256_eq, ← hB, ← hbytes]
  rfl

end Templates

/-- With either Salsa block, and whatever is in the scratchpad, the output is that of scrypt. -/
theorem scrypt_implementations_agree (sha : Sha256) {k : ℕ} (hk : k < 32) (r : ℕ) [NeZero r]
    (password salt : List Byte) (size : ℕ) (generic : Vector (Vector Words (2 * r)) (2 ^ k))
    (sse2 : Vector (Vector Sse2.SalsaBlock (2 * r)) (2 ^ k)) :
    scrypt256SpTempl Generic.ops sha password salt size generic =
        scrypt256SpTempl Sse2.ops sha password salt size sse2 ∧
      scrypt256SpTempl Generic.ops sha password salt size generic =
        ScryptSpec.scrypt sha.digest password salt (2 ^ k) r 1 size := by
  have hN : ∀ x, ScryptSpec.toNat x % 2 ^ k = (words x)[0].toNat % 2 ^ k :=
    fun x => toNat_mod x hk.le
  have hgeneric := scrypt256SpTempl_eq represents_generic sha password salt size generic hN
  have hsse2 := scrypt256SpTempl_eq represents_sse2 sha password salt size sse2 hN
  exact ⟨hgeneric.trans hsse2.symm, hgeneric⟩

section Sha256

def roundConstants : List Word := [
  0x428a2f98, 0x71374491, 0xb5c0fbcf, 0xe9b5dba5, 0x3956c25b, 0x59f111f1, 0x923f82a4, 0xab1c5ed5,
  0xd807aa98, 0x12835b01, 0x243185be, 0x550c7dc3, 0x72be5d74, 0x80deb1fe, 0x9bdc06a7, 0xc19bf174,
  0xe49b69c1, 0xefbe4786, 0x0fc19dc6, 0x240ca1cc, 0x2de92c6f, 0x4a7484aa, 0x5cb0a9dc, 0x76f988da,
  0x983e5152, 0xa831c66d, 0xb00327c8, 0xbf597fc7, 0xc6e00bf3, 0xd5a79147, 0x06ca6351, 0x14292967,
  0x27b70a85, 0x2e1b2138, 0x4d2c6dfc, 0x53380d13, 0x650a7354, 0x766a0abb, 0x81c2c92e, 0x92722c85,
  0xa2bfe8a1, 0xa81a664b, 0xc24b8b70, 0xc76c51a3, 0xd192e819, 0xd6990624, 0xf40e3585, 0x106aa070,
  0x19a4c116, 0x1e376c08, 0x2748774c, 0x34b0bcb5, 0x391c0cb3, 0x4ed8aa4a, 0x5b9cca4f, 0x682e6ff3,
  0x748f82ee, 0x78a5636f, 0x84c87814, 0x8cc70208, 0x90befffa, 0xa4506ceb, 0xbef9a3f7, 0xc67178f2]

/-- `n` more words of the schedule, which has the last word first. -/
def extend : ℕ → List Word → List Word
  | 0, w => w
  | n + 1, w =>
      let a := w.getD 14 0
      let b := w.getD 1 0
      let s0 := a.rotateRight 7 ^^^ a.rotateRight 18 ^^^ (a >>> 3)
      let s1 := b.rotateRight 17 ^^^ b.rotateRight 19 ^^^ (b >>> 10)
      extend n ((w.getD 15 0 + s0 + w.getD 6 0 + s1) :: w)

def shaRound (x : Vector Word 8) (kw : Word × Word) : Vector Word 8 :=
  let s1 := x[4].rotateRight 6 ^^^ x[4].rotateRight 11 ^^^ x[4].rotateRight 25
  let ch := (x[4] &&& x[5]) ^^^ (~~~x[4] &&& x[6])
  let t1 := x[7] + s1 + ch + kw.1 + kw.2
  let s0 := x[0].rotateRight 2 ^^^ x[0].rotateRight 13 ^^^ x[0].rotateRight 22
  let maj := (x[0] &&& x[1]) ^^^ (x[0] &&& x[2]) ^^^ (x[1] &&& x[2])
  #v[t1 + (s0 + maj), x[0], x[1], x[2], x[3] + t1, x[4], x[5], x[6]]

def compress (x : Vector Word 8) (chunk : List Byte) : Vector Word 8 :=
  let w := (List.range 16).map fun i =>
    BitVec.ofNat 32 (ofLeBytes ((chunk.drop (4 * i)).take 4).reverse)
  Vector.zipWith (· + ·) x ((roundConstants.zip (extend 48 w.reverse).reverse).foldl shaRound x)

def sha256 (m : List Byte) : List Byte :=
  let zeros := List.replicate ((119 - m.length % 64) % 64) 0
  let padded := m ++ 0x80 :: zeros ++ (leBytes 8 (8 * m.length)).reverse
  let start : Vector Word 8 := #v[0x6a09e667, 0xbb67ae85, 0x3c6ef372, 0xa54ff53a, 0x510e527f,
    0x9b05688c, 0x1f83d9ab, 0x5be0cd19]
  let x := (List.range (padded.length / 64)).foldl
    (fun x i => compress x ((padded.drop (64 * i)).take 64)) start
  (List.range 8).flatMap fun i => be32enc (x.toList.getD i 0)

/-- A context that keeps what it is fed. -/
def keptSha256 : Sha256 where
  Ctx := List Byte
  init := []
  update := List.append
  final := sha256
  digest := sha256
  digest_length m := by simp [sha256, be32enc]
  final_eq parts := by
    have happend : ∀ (parts : List (List Byte)) (fed : List Byte),
        parts.foldl List.append fed = fed ++ parts.flatten := by
      intro parts
      induction parts with
      | nil => simp
      | cons part parts ih =>
        intro fed
        rw [List.foldl_cons, ih, List.flatten_cons]
        exact List.append_assoc fed part parts.flatten
    rw [happend, List.nil_append]

example : sha256 [] =
    (leBytes 32 0xe3b0c44298fc1c149afbf4c8996fb92427ae41e4649b934ca495991b7852b855).reverse := by
  decide +kernel

theorem scrypt_agree_1024 :
    scrypt256SpTempl Generic.ops keptSha256 [0x61] [0x62] 32
        (Vector.replicate (2 ^ 10) (Vector.replicate (2 * 8) (Vector.replicate 16 0))) =
      ScryptSpec.scrypt sha256 [0x61] [0x62] (2 ^ 10) 8 1 32 :=
  (scrypt_implementations_agree keptSha256 (by decide) 8 [0x61] [0x62] 32 _
    (Vector.replicate (2 ^ 10) (Vector.replicate (2 * 8)
      (Sse2.ofWords (Vector.replicate 16 0))))).2

end Sha256

end UmbrellaLtc.Scrypt
