import UmbrellaLtc.SignatureHash

/-!
The script interpreter of script.cpp. A stack is a list with its top in front, so that
stacktop(-1) is the head. A round of the loop goes on with a machine, returns false, or
strays: it would access an element that a stack does not have. Where it returns false, the
stack is left as the opcode had changed it by then, since callers read it all the same. The
functions of OpenSSL are arguments. Each machine counts the calls of CheckSig that were made
on the way.
-/

namespace UmbrellaLtc.EvalScript

open Codec Transaction Script SignatureHash

section Opcodes

def OP_1NEGATE : ℕ := 0x4f
def OP_NOP : ℕ := 0x61
def OP_IF : ℕ := 0x63
def OP_NOTIF : ℕ := 0x64
def OP_ELSE : ℕ := 0x67
def OP_ENDIF : ℕ := 0x68
def OP_VERIFY : ℕ := 0x69
def OP_RETURN : ℕ := 0x6a
def OP_TOALTSTACK : ℕ := 0x6b
def OP_FROMALTSTACK : ℕ := 0x6c
def OP_2DROP : ℕ := 0x6d
def OP_2DUP : ℕ := 0x6e
def OP_3DUP : ℕ := 0x6f
def OP_2OVER : ℕ := 0x70
def OP_2ROT : ℕ := 0x71
def OP_2SWAP : ℕ := 0x72
def OP_IFDUP : ℕ := 0x73
def OP_DEPTH : ℕ := 0x74
def OP_DROP : ℕ := 0x75
def OP_DUP : ℕ := 0x76
def OP_NIP : ℕ := 0x77
def OP_OVER : ℕ := 0x78
def OP_PICK : ℕ := 0x79
def OP_ROLL : ℕ := 0x7a
def OP_ROT : ℕ := 0x7b
def OP_SWAP : ℕ := 0x7c
def OP_TUCK : ℕ := 0x7d
def OP_CAT : ℕ := 0x7e
def OP_SUBSTR : ℕ := 0x7f
def OP_LEFT : ℕ := 0x80
def OP_RIGHT : ℕ := 0x81
def OP_SIZE : ℕ := 0x82
def OP_INVERT : ℕ := 0x83
def OP_AND : ℕ := 0x84
def OP_OR : ℕ := 0x85
def OP_XOR : ℕ := 0x86
def OP_EQUALVERIFY : ℕ := 0x88
def OP_1ADD : ℕ := 0x8b
def OP_1SUB : ℕ := 0x8c
def OP_2MUL : ℕ := 0x8d
def OP_2DIV : ℕ := 0x8e
def OP_NEGATE : ℕ := 0x8f
def OP_ABS : ℕ := 0x90
def OP_NOT : ℕ := 0x91
def OP_0NOTEQUAL : ℕ := 0x92
def OP_ADD : ℕ := 0x93
def OP_SUB : ℕ := 0x94
def OP_MUL : ℕ := 0x95
def OP_DIV : ℕ := 0x96
def OP_MOD : ℕ := 0x97
def OP_LSHIFT : ℕ := 0x98
def OP_RSHIFT : ℕ := 0x99
def OP_BOOLAND : ℕ := 0x9a
def OP_BOOLOR : ℕ := 0x9b
def OP_NUMEQUAL : ℕ := 0x9c
def OP_NUMEQUALVERIFY : ℕ := 0x9d
def OP_NUMNOTEQUAL : ℕ := 0x9e
def OP_LESSTHAN : ℕ := 0x9f
def OP_GREATERTHAN : ℕ := 0xa0
def OP_LESSTHANOREQUAL : ℕ := 0xa1
def OP_GREATERTHANOREQUAL : ℕ := 0xa2
def OP_MIN : ℕ := 0xa3
def OP_MAX : ℕ := 0xa4
def OP_WITHIN : ℕ := 0xa5
def OP_RIPEMD160 : ℕ := 0xa6
def OP_SHA1 : ℕ := 0xa7
def OP_SHA256 : ℕ := 0xa8
def OP_HASH256 : ℕ := 0xaa
def OP_NOP1 : ℕ := 0xb0
def OP_NOP10 : ℕ := 0xb9

def MAX_SCRIPT_ELEMENT_SIZE : ℕ := 520

def SCRIPT_VERIFY_P2SH : BitVec 32 := 1
def SCRIPT_VERIFY_STRICTENC : BitVec 32 := 2
def SCRIPT_VERIFY_NOCACHE : BitVec 32 := 4

end Opcodes

abbrev Valtype := List Byte

section Numbers

/-- The bytes of a number, least significant first and none that is not needed. -/
def magnitude : ℕ → ℕ → List Byte
  | 0, _ => []
  | fuel + 1, n => if n = 0 then [] else BitVec.ofNat 8 n :: magnitude fuel (n / 256)

/-- CBigNum::getvch: the sign is the highest bit, for which a byte is added where it is
taken. -/
def getvch (n : ℤ) : Valtype :=
  let sign : Byte := if n < 0 then 0x80 else 0
  match (magnitude n.natAbs n.natAbs).reverse with
  | [] => []
  | high :: rest =>
      if high &&& 0x80 = 0 then ((high ||| sign) :: rest).reverse
      else (sign :: high :: rest).reverse

/-- CBigNum::setvch. -/
def setvch (vch : Valtype) : ℤ :=
  match vch.reverse with
  | [] => 0
  | high :: rest =>
      if high &&& 0x80 = 0 then ofLeBytes vch
      else -(ofLeBytes (((high &&& 0x7f) :: rest).reverse) : ℤ)

/-- CastToBigNum, which throws on more than four bytes. -/
def castToBigNum (vch : Valtype) : Option ℤ := if 4 < vch.length then none else some (setvch vch)

/-- CastToBool: whether a byte is set, but for negative zero. -/
def castToBool : Valtype → Bool
  | [] => false
  | [b] => b != 0 && b != 0x80
  | b :: vch => b != 0 || castToBool vch

def vchTrue : Valtype := [1]

def vchFalse : Valtype := []

def boolVch (f : Bool) : Valtype := if f then vchTrue else vchFalse

/-- A bool assigned to a CBigNum. -/
def boolNum (f : Bool) : ℤ := if f then 1 else 0

end Numbers

section Signatures

/-- The functions of OpenSSL that scripts use. -/
structure Crypto where
  ripemd160 : List Byte → BitVec 160
  sha1 : List Byte → BitVec 160
  sha256 : List Byte → BitVec 256
  verify : Valtype → Uint256 → Valtype → Bool

def Crypto.hash256 (crypto : Crypto) (bs : List Byte) : Uint256 :=
  crypto.sha256 (leBytes 32 (crypto.sha256 bs).toNat)

def Crypto.hash160 (crypto : Crypto) (bs : List Byte) : BitVec 160 :=
  crypto.ripemd160 (leBytes 32 (crypto.sha256 bs).toNat)

/-- The other arguments of EvalScript. -/
structure Context where
  crypto : Crypto
  txTo : CTransaction
  nIn : ℕ
  flags : BitVec 32
  nHashType : BitVec 32

/-- CPubKey::GetLen. -/
def getLen (chHeader : Byte) : ℕ :=
  if chHeader = 2 ∨ chHeader = 3 then 33
  else if chHeader = 4 ∨ chHeader = 6 ∨ chHeader = 7 then 65
  else 0

/-- Whether a CPubKey made of the bytes is valid. -/
def isValidPubKey : Valtype → Bool
  | [] => false
  | b :: vch => getLen b == vch.length + 1

def isCanonicalPubKey (vchPubKey : Valtype) : Bool :=
  33 ≤ vchPubKey.length &&
    if vchPubKey[0]? = some 0x04 then vchPubKey.length == 65
    else if vchPubKey[0]? = some 0x02 ∨ vchPubKey[0]? = some 0x03 then vchPubKey.length == 33
    else false

/-- The tests of R and S in IsCanonicalSignature, on the bytes from their length on. -/
def isCanonicalPart (vchSig : Valtype) (start nLen : ℕ) : Bool :=
  let byte := fun i => vchSig.getD i 0
  byte (start - 2) == 0x02 && nLen != 0 && byte start &&& 0x80 == 0 &&
    !(1 < nLen && byte start == 0 && byte (start + 1) &&& 0x80 == 0)

def isCanonicalSignature (vchSig : Valtype) : Bool :=
  let byte := fun i => vchSig.getD i 0
  let nHashType := byte (vchSig.length - 1) &&& ~~~0x80
  let nLenR := (byte 3).toNat
  let nLenS := (byte (5 + nLenR)).toNat
  9 ≤ vchSig.length && vchSig.length ≤ 73 && 1 ≤ nHashType.toNat && nHashType.toNat ≤ 3 &&
    byte 0 == 0x30 && (byte 1).toNat == vchSig.length - 3 && 5 + nLenR < vchSig.length &&
    nLenR + nLenS + 7 == vchSig.length && isCanonicalPart vchSig 4 nLenR &&
    isCanonicalPart vchSig (6 + nLenR) nLenS

/-- CheckSig, but for the cache of what has been verified before. -/
def checkSig (ctx : Context) (vchSig vchPubKey : Valtype) (scriptCode : CScript) : Bool :=
  if !isValidPubKey vchPubKey then false
  else match vchSig.getLast? with
    | none => false
    | some back =>
        let last : BitVec 32 := back.setWidth 32
        if ctx.nHashType ≠ 0 ∧ ctx.nHashType ≠ last then false
        else ctx.crypto.verify vchPubKey
          (signatureHash ctx.crypto.hash256 scriptCode ctx.txTo ctx.nIn last) vchSig.dropLast

/-- CScript(vchSig): the script that pushes the bytes. -/
def pushScript (b : Valtype) : CScript :=
  (if b.length < OP_PUSHDATA1 then [BitVec.ofNat 8 b.length]
    else if b.length ≤ 0xff then BitVec.ofNat 8 OP_PUSHDATA1 :: leBytes 1 b.length
    else if b.length ≤ 0xffff then BitVec.ofNat 8 OP_PUSHDATA2 :: leBytes 2 b.length
    else BitVec.ofNat 8 OP_PUSHDATA4 :: leBytes 4 b.length) ++ b

end Signatures

section Machines

/-- The variables of the loop. The iterators are what is left of the script from them
on. -/
structure Machine where
  pc : CScript
  pbegincodehash : CScript
  stack : List Valtype
  altstack : List Valtype
  vfExec : List Bool
  nOpCount : ℕ
  nChecks : ℕ

inductive Outcome where
  | next (m : Machine)
  | stop (stack : List Valtype) (nChecks : ℕ)
  | stray

/-- `return false;` -/
def Machine.fail (m : Machine) : Outcome := .stop m.stack m.nChecks

def Machine.push (m : Machine) (vch : Valtype) : Machine := { m with stack := vch :: m.stack }

/-- What an operation makes of the stack, or the stack that it leaves where it fails. -/
inductive Access (α : Type) where
  | ok (a : α)
  | fail (stack : List Valtype)
  | stray

/-- An opcode that needs `n` elements and changes the stack only. -/
def stackOp (n : ℕ) (f : List Valtype → Access (List Valtype)) (m : Machine) : Outcome :=
  if m.stack.length < n then m.fail
  else match f m.stack with
    | .ok stack => .next { m with stack := stack }
    | .fail stack => { m with stack := stack }.fail
    | .stray => .stray

def opVerify : List Valtype → Access (List Valtype)
  | vch :: stack => if castToBool vch then .ok stack else .fail (vch :: stack)
  | _ => .stray

def op2Drop : List Valtype → Access (List Valtype)
  | _ :: _ :: stack => .ok stack
  | _ => .stray

def op2Dup : List Valtype → Access (List Valtype)
  | x2 :: x1 :: stack => .ok (x2 :: x1 :: x2 :: x1 :: stack)
  | _ => .stray

def op3Dup : List Valtype → Access (List Valtype)
  | x3 :: x2 :: x1 :: stack => .ok (x3 :: x2 :: x1 :: x3 :: x2 :: x1 :: stack)
  | _ => .stray

def op2Over : List Valtype → Access (List Valtype)
  | x4 :: x3 :: x2 :: x1 :: stack => .ok (x2 :: x1 :: x4 :: x3 :: x2 :: x1 :: stack)
  | _ => .stray

def op2Rot : List Valtype → Access (List Valtype)
  | x6 :: x5 :: x4 :: x3 :: x2 :: x1 :: stack => .ok (x2 :: x1 :: x6 :: x5 :: x4 :: x3 :: stack)
  | _ => .stray

def op2Swap : List Valtype → Access (List Valtype)
  | x4 :: x3 :: x2 :: x1 :: stack => .ok (x2 :: x1 :: x4 :: x3 :: stack)
  | _ => .stray

def opIfDup : List Valtype → Access (List Valtype)
  | vch :: stack => .ok (if castToBool vch then vch :: vch :: stack else vch :: stack)
  | _ => .stray

def opDepth (stack : List Valtype) : Access (List Valtype) := .ok (getvch stack.length :: stack)

def opDrop : List Valtype → Access (List Valtype)
  | _ :: stack => .ok stack
  | _ => .stray

def opDup : List Valtype → Access (List Valtype)
  | vch :: stack => .ok (vch :: vch :: stack)
  | _ => .stray

def opNip : List Valtype → Access (List Valtype)
  | x2 :: _ :: stack => .ok (x2 :: stack)
  | _ => .stray

def opOver : List Valtype → Access (List Valtype)
  | x2 :: x1 :: stack => .ok (x1 :: x2 :: x1 :: stack)
  | _ => .stray

/-- OP_PICK and OP_ROLL: the index is taken from the stack. -/
def opPick (fRoll : Bool) : List Valtype → Access (List Valtype)
  | vch :: stack =>
      match castToBigNum vch with
      | none => .fail (vch :: stack)
      | some n =>
          -- the index is popped before it is tested
          if n < 0 ∨ (stack.length : ℤ) ≤ n then .fail stack
          else match stack[n.toNat]? with
            | none => .stray
            | some x => .ok (x :: if fRoll then stack.eraseIdx n.toNat else stack)
  | _ => .stray

def opRot : List Valtype → Access (List Valtype)
  | x3 :: x2 :: x1 :: stack => .ok (x1 :: x3 :: x2 :: stack)
  | _ => .stray

def opSwap : List Valtype → Access (List Valtype)
  | x2 :: x1 :: stack => .ok (x1 :: x2 :: stack)
  | _ => .stray

def opTuck : List Valtype → Access (List Valtype)
  | x2 :: x1 :: stack => .ok (x2 :: x1 :: x2 :: stack)
  | _ => .stray

def opSize : List Valtype → Access (List Valtype)
  | vch :: stack => .ok (getvch vch.length :: vch :: stack)
  | _ => .stray

def opEqual (fVerify : Bool) : List Valtype → Access (List Valtype)
  | vch2 :: vch1 :: stack =>
      if fVerify then if vch1 = vch2 then .ok stack else .fail (vchFalse :: stack)
      else .ok (boolVch (vch1 = vch2) :: stack)
  | _ => .stray

/-- The opcodes from one number to one. -/
def opUnary (f : ℤ → ℤ) : List Valtype → Access (List Valtype)
  | vch :: stack =>
      match castToBigNum vch with
      | none => .fail (vch :: stack)
      | some bn => .ok (getvch (f bn) :: stack)
  | _ => .stray

/-- The opcodes from two numbers to one. -/
def opBinary (f : ℤ → ℤ → ℤ) : List Valtype → Access (List Valtype)
  | vch2 :: vch1 :: stack =>
      match castToBigNum vch1, castToBigNum vch2 with
      | some bn1, some bn2 => .ok (getvch (f bn1 bn2) :: stack)
      | _, _ => .fail (vch2 :: vch1 :: stack)
  | _ => .stray

def opNumEqualVerify (stack : List Valtype) : Access (List Valtype) :=
  match opBinary (fun bn1 bn2 => boolNum (bn1 = bn2)) stack with
  | .ok stack => opVerify stack
  | .fail stack => .fail stack
  | .stray => .stray

def opWithin : List Valtype → Access (List Valtype)
  | vch3 :: vch2 :: vch1 :: stack =>
      match castToBigNum vch1, castToBigNum vch2, castToBigNum vch3 with
      | some bn1, some bn2, some bn3 => .ok (boolVch (bn2 ≤ bn1 ∧ bn1 < bn3) :: stack)
      | _, _, _ => .fail (vch3 :: vch2 :: vch1 :: stack)
  | _ => .stray

/-- The opcodes that put a hash in the place of an element. -/
def opHash {w : ℕ} (n : ℕ) (hash : List Byte → BitVec w) : List Valtype → Access (List Valtype)
  | vch :: stack => .ok (leBytes n (hash vch).toNat :: stack)
  | _ => .stray

/-- Whether statements are executed at this point. -/
def Machine.fExec (m : Machine) : Bool := m.vfExec.all id

/-- OP_IF and OP_NOTIF. -/
def opIf (fNot : Bool) (m : Machine) : Outcome :=
  if m.fExec then
    if m.stack.length < 1 then m.fail
    else match m.stack with
      | vch :: stack =>
          .next { m with stack := stack, vfExec := (castToBool vch != fNot) :: m.vfExec }
      | _ => .stray
  else .next { m with vfExec := false :: m.vfExec }

def opElse (m : Machine) : Outcome :=
  match m.vfExec with
  | [] => m.fail
  | f :: vfExec => .next { m with vfExec := (!f) :: vfExec }

def opEndIf (m : Machine) : Outcome :=
  match m.vfExec with
  | [] => m.fail
  | _ :: vfExec => .next { m with vfExec := vfExec }

def opToAltStack (m : Machine) : Outcome :=
  if m.stack.length < 1 then m.fail
  else match m.stack with
    | vch :: stack => .next { m with stack := stack, altstack := vch :: m.altstack }
    | _ => .stray

def opFromAltStack (m : Machine) : Outcome :=
  if m.altstack.length < 1 then m.fail
  else match m.altstack with
    | vch :: altstack => .next { m with stack := vch :: m.stack, altstack := altstack }
    | _ => .stray

/-- Hash starts after the code separator. -/
def opCodeSeparator (m : Machine) : Outcome := .next { m with pbegincodehash := m.pc }

/-- The end of the opcodes that check signatures: the result is pushed, and with VERIFY it
decides and is popped where it is true. -/
def Machine.conclude (m : Machine) (fVerify fSuccess : Bool) : Outcome :=
  if fVerify then if fSuccess then .next m else (m.push vchFalse).fail
  else .next (m.push (boolVch fSuccess))

/-- Whether the encodings are such that CheckSig is called. -/
def encodingOk (ctx : Context) (vchSig vchPubKey : Valtype) : Bool :=
  ctx.flags &&& SCRIPT_VERIFY_STRICTENC == 0 ||
    (isCanonicalSignature vchSig && isCanonicalPubKey vchPubKey)

/-- OP_CHECKSIG and OP_CHECKSIGVERIFY. -/
def opCheckSig (ctx : Context) (fVerify : Bool) (m : Machine) : Outcome :=
  if m.stack.length < 2 then m.fail
  else match m.stack with
    | vchPubKey :: vchSig :: stack =>
        let scriptCode := (findAndDelete m.pbegincodehash (pushScript vchSig)).2
        let fCalled := encodingOk ctx vchSig vchPubKey
        let fSuccess := fCalled && checkSig ctx vchSig vchPubKey scriptCode
        let nChecks := if fCalled then m.nChecks + 1 else m.nChecks
        { m with stack := stack, nChecks := nChecks }.conclude fVerify fSuccess
    | _ => .stray

/-- The loop over the signatures and keys of OP_CHECKMULTISIG: whether it succeeds, and the
calls of CheckSig; `none` when it strays. -/
def multiSigLoop (ctx : Context) (stack : List Valtype) (scriptCode : CScript) :
    ℕ → ℕ → ℕ → ℕ → ℕ → ℕ → Option (Bool × ℕ)
  | 0, _, _, _, _, nChecks => some (true, nChecks)
  | fuel + 1, isig, ikey, nSigsCount, nKeysCount, nChecks =>
      if nSigsCount = 0 then some (true, nChecks)
      else
        match stack[isig - 1]?, stack[ikey - 1]? with
        | some vchSig, some vchPubKey =>
            let fCalled := encodingOk ctx vchSig vchPubKey
            let fOk := fCalled && checkSig ctx vchSig vchPubKey scriptCode
            let nChecks := if fCalled then nChecks + 1 else nChecks
            let isig := if fOk then isig + 1 else isig
            let nSigsCount := if fOk then nSigsCount - 1 else nSigsCount
            if nKeysCount - 1 < nSigsCount then some (false, nChecks)
            else multiSigLoop ctx stack scriptCode fuel isig (ikey + 1) nSigsCount
              (nKeysCount - 1) nChecks
        | _, _ => none

/-- `scriptCode.FindAndDelete(CScript(vchSig))` for the signatures from an index on. -/
def dropSignatures (stack : List Valtype) (isig : ℕ) : ℕ → CScript → Option CScript
  | 0, scriptCode => some scriptCode
  | n + 1, scriptCode => do
      let scriptCode ← dropSignatures stack isig n scriptCode
      let vchSig ← stack[isig + n - 1]?
      return (findAndDelete scriptCode (pushScript vchSig)).2

/-- `CastToBigNum(stacktop(-i)).getint()`. -/
def stackInt (stack : List Valtype) (i : ℕ) : Access ℤ :=
  match stack[i - 1]? with
  | none => .stray
  | some vch =>
      match castToBigNum vch with
      | none => .fail stack
      | some n => .ok n

/-- The part of OP_CHECKMULTISIG behind the counts, with `i` as it is there. -/
def checkSignatures (ctx : Context) (fVerify : Bool) (m : Machine) (nKeysCount nSigsCount : ℕ) :
    Outcome :=
  let isig := 3 + nKeysCount
  let i := isig + nSigsCount
  if m.stack.length < i then m.fail
  else
    match dropSignatures m.stack isig nSigsCount m.pbegincodehash with
    | none => .stray
    | some scriptCode =>
        match multiSigLoop ctx m.stack scriptCode (nKeysCount + 1) isig 2 nSigsCount nKeysCount
            m.nChecks with
        | none => .stray
        | some (fSuccess, nChecks) =>
            { m with stack := m.stack.drop i, nChecks := nChecks }.conclude fVerify fSuccess

/-- OP_CHECKMULTISIG and OP_CHECKMULTISIGVERIFY. -/
def opCheckMultiSig (ctx : Context) (fVerify : Bool) (m : Machine) : Outcome :=
  if m.stack.length < 1 then m.fail
  else match stackInt m.stack 1 with
    | .stray => .stray
    | .fail _ => m.fail
    | .ok nKeysCount =>
        if nKeysCount < 0 ∨ 20 < nKeysCount then m.fail
        else
          let m := { m with nOpCount := m.nOpCount + nKeysCount.toNat }
          if 201 < m.nOpCount then m.fail
          else if m.stack.length < 2 + nKeysCount.toNat then m.fail
          else match stackInt m.stack (2 + nKeysCount.toNat) with
            | .stray => .stray
            | .fail _ => m.fail
            | .ok nSigsCount =>
                if nSigsCount < 0 ∨ nKeysCount < nSigsCount then m.fail
                else checkSignatures ctx fVerify m nKeysCount.toNat nSigsCount.toNat

end Machines

section Loop

/-- The opcodes that return false wherever they stand. -/
def disabledOpcodes : List ℕ :=
  [OP_CAT, OP_SUBSTR, OP_LEFT, OP_RIGHT, OP_INVERT, OP_AND, OP_OR, OP_XOR, OP_2MUL, OP_2DIV,
    OP_MUL, OP_DIV, OP_MOD, OP_LSHIFT, OP_RSHIFT]

abbrev Handler := Machine → Outcome

def controlHandlers : List (ℕ × Handler) :=
  [(OP_NOP, .next), (OP_IF, opIf false), (OP_NOTIF, opIf true), (OP_ELSE, opElse),
    (OP_ENDIF, opEndIf), (OP_RETURN, Machine.fail), (OP_TOALTSTACK, opToAltStack),
    (OP_FROMALTSTACK, opFromAltStack), (OP_CODESEPARATOR, opCodeSeparator)]

/-- The opcodes that change the stack only, with the number of elements that they need. -/
def stackOps : List (ℕ × ℕ × (List Valtype → Access (List Valtype))) :=
  [(OP_VERIFY, 1, opVerify), (OP_2DROP, 2, op2Drop), (OP_2DUP, 2, op2Dup), (OP_3DUP, 3, op3Dup),
    (OP_2OVER, 4, op2Over), (OP_2ROT, 6, op2Rot), (OP_2SWAP, 4, op2Swap), (OP_IFDUP, 1, opIfDup),
    (OP_DEPTH, 0, opDepth), (OP_DROP, 1, opDrop), (OP_DUP, 1, opDup), (OP_NIP, 2, opNip),
    (OP_OVER, 2, opOver), (OP_PICK, 2, opPick false), (OP_ROLL, 2, opPick true),
    (OP_ROT, 3, opRot), (OP_SWAP, 2, opSwap), (OP_TUCK, 2, opTuck), (OP_SIZE, 1, opSize),
    (OP_EQUAL, 2, opEqual false), (OP_EQUALVERIFY, 2, opEqual true)]

def unaryOps : List (ℕ × (ℤ → ℤ)) :=
  [(OP_1ADD, fun bn => bn + 1), (OP_1SUB, fun bn => bn - 1), (OP_NEGATE, fun bn => -bn),
    (OP_ABS, fun bn => if bn < 0 then -bn else bn), (OP_NOT, fun bn => boolNum (bn = 0)),
    (OP_0NOTEQUAL, fun bn => boolNum (bn ≠ 0))]

def binaryOps : List (ℕ × (ℤ → ℤ → ℤ)) :=
  [(OP_ADD, fun bn1 bn2 => bn1 + bn2), (OP_SUB, fun bn1 bn2 => bn1 - bn2),
    (OP_BOOLAND, fun bn1 bn2 => boolNum (bn1 ≠ 0 ∧ bn2 ≠ 0)),
    (OP_BOOLOR, fun bn1 bn2 => boolNum (bn1 ≠ 0 ∨ bn2 ≠ 0)),
    (OP_NUMEQUAL, fun bn1 bn2 => boolNum (bn1 = bn2)),
    (OP_NUMNOTEQUAL, fun bn1 bn2 => boolNum (bn1 ≠ bn2)),
    (OP_LESSTHAN, fun bn1 bn2 => boolNum (bn1 < bn2)),
    (OP_GREATERTHAN, fun bn1 bn2 => boolNum (bn1 > bn2)),
    (OP_LESSTHANOREQUAL, fun bn1 bn2 => boolNum (bn1 ≤ bn2)),
    (OP_GREATERTHANOREQUAL, fun bn1 bn2 => boolNum (bn1 ≥ bn2)),
    (OP_MIN, fun bn1 bn2 => if bn1 < bn2 then bn1 else bn2),
    (OP_MAX, fun bn1 bn2 => if bn1 > bn2 then bn1 else bn2)]

def numericOps : List (ℕ × ℕ × (List Valtype → Access (List Valtype))) :=
  unaryOps.map (fun op => (op.1, 1, opUnary op.2)) ++
    (binaryOps.map (fun op => (op.1, 2, opBinary op.2)) ++
      [(OP_NUMEQUALVERIFY, 2, opNumEqualVerify), (OP_WITHIN, 3, opWithin)])

def hashOps (crypto : Crypto) : List (ℕ × ℕ × (List Valtype → Access (List Valtype))) :=
  [(OP_RIPEMD160, 1, opHash 20 crypto.ripemd160), (OP_SHA1, 1, opHash 20 crypto.sha1),
    (OP_SHA256, 1, opHash 32 crypto.sha256), (OP_HASH160, 1, opHash 20 crypto.hash160),
    (OP_HASH256, 1, opHash 32 crypto.hash256)]

def signatureHandlers (ctx : Context) : List (ℕ × Handler) :=
  [(OP_CHECKSIG, opCheckSig ctx false), (OP_CHECKSIGVERIFY, opCheckSig ctx true),
    (OP_CHECKMULTISIG, opCheckMultiSig ctx false),
    (OP_CHECKMULTISIGVERIFY, opCheckMultiSig ctx true)]

/-- The cases of the switch but for constants and the opcodes that do nothing. -/
def handlers (ctx : Context) : List (ℕ × Handler) :=
  controlHandlers ++
    ((stackOps ++ (numericOps ++ hashOps ctx.crypto)).map (fun op => (op.1, stackOp op.2.1 op.2.2)) ++
      signatureHandlers ctx)

/-- The switch. -/
def execute (ctx : Context) (opcode : ℕ) (m : Machine) : Outcome :=
  if opcode = OP_1NEGATE ∨ (OP_1 ≤ opcode ∧ opcode ≤ OP_16) then
    .next (m.push (getvch ((opcode : ℤ) - (OP_1 - 1))))
  else if OP_NOP1 ≤ opcode ∧ opcode ≤ OP_NOP10 then .next m
  else match (handlers ctx).lookup opcode with
    | some handler => handler m
    | none => m.fail

/-- What is done with an instruction that was read. -/
def perform (ctx : Context) (opcode : ℕ) (vchPushValue : Valtype) (m : Machine) : Outcome :=
  if m.fExec ∧ opcode ≤ OP_PUSHDATA4 then .next (m.push vchPushValue)
  else if m.fExec ∨ (OP_IF ≤ opcode ∧ opcode ≤ OP_ENDIF) then execute ctx opcode m
  else .next m

/-- One round of the loop. -/
def step (ctx : Context) (m : Machine) : Outcome :=
  match getOp2 m.pc with
  | none => m.fail
  | some (opcode, vchPushValue, pc) =>
      if vchPushValue.length > MAX_SCRIPT_ELEMENT_SIZE then m.fail
      else
        let nOpCount := if opcode > OP_16 then m.nOpCount + 1 else m.nOpCount
        if opcode > OP_16 ∧ nOpCount > 201 then m.fail
        else if opcode ∈ disabledOpcodes then m.fail
        else
          match perform ctx opcode vchPushValue { m with pc := pc, nOpCount := nOpCount } with
          | .next m' => if m'.stack.length + m'.altstack.length > 1000 then m'.fail else .next m'
          | outcome => outcome

/-- What EvalScript returns, the stack and the calls of CheckSig; or that it strayed. -/
inductive Evaluation where
  | returned (fRet : Bool) (stack : List Valtype) (nChecks : ℕ)
  | stray
deriving DecidableEq

def loop (ctx : Context) : ℕ → Machine → Evaluation
  | 0, m => .returned m.vfExec.isEmpty m.stack m.nChecks
  | fuel + 1, m =>
      if m.pc.isEmpty then .returned m.vfExec.isEmpty m.stack m.nChecks
      else match step ctx m with
        | .next m' => loop ctx fuel m'
        | .stop stack nChecks => .returned false stack nChecks
        | .stray => .stray

/-- The variables before the first round. -/
def Machine.start (stack : List Valtype) (script : CScript) : Machine :=
  ⟨script, script, stack, [], [], 0, 0⟩

/-- EvalScript. Every round takes a byte at least, so that the length is fuel enough. -/
def evalScript (ctx : Context) (stack : List Valtype) (script : CScript) : Evaluation :=
  if script.length > 10000 then .returned false stack 0
  else loop ctx script.length (.start stack script)

/-- CScript::IsPushOnly. -/
def isPushOnly : ℕ → CScript → Bool
  | 0, _ => true
  | fuel + 1, pc =>
      if pc.isEmpty then true
      else match getOp2 pc with
        | none => false
        | some (opcode, _, pc) => if opcode > OP_16 then false else isPushOnly fuel pc

/-- What VerifyScript returns and the calls of CheckSig while the redeem script is executed;
`none` when an assertion fails or an evaluation strays. -/
def verifyScript (ctx : Context) (scriptSig scriptPubKey : CScript) : Option (Bool × ℕ) :=
  match evalScript ctx [] scriptSig with
  | .stray => none
  | .returned false _ _ => some (false, 0)
  | .returned true stackCopy _ =>
      match evalScript ctx stackCopy scriptPubKey with
      | .stray => none
      | .returned false _ _ => some (false, 0)
      | .returned true stack _ =>
          match stack with
          | [] => some (false, 0)
          | back :: _ =>
              if castToBool back = false then some (false, 0)
              else if ctx.flags &&& SCRIPT_VERIFY_P2SH ≠ 0 ∧ isPayToScriptHash scriptPubKey then
                if isPushOnly scriptSig.length scriptSig = false then some (false, 0)
                else match stackCopy with
                  | [] => none
                  | pubKeySerialized :: stackCopy =>
                      match evalScript ctx stackCopy pubKeySerialized with
                      | .stray => none
                      | .returned fRet stack nChecks =>
                          some (fRet && (stack.head?.map castToBool).getD false, nChecks)
              else some (true, 0)

end Loop

end UmbrellaLtc.EvalScript
