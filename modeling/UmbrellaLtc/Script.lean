import UmbrellaLtc.Transaction

/-!
Counting signature operations, from script.h and script.cpp. A script iterator
is the rest of the script it points at.
-/

namespace UmbrellaLtc.Script

open Codec Transaction

def OP_0 : ℕ := 0x00
def OP_PUSHDATA1 : ℕ := 0x4c
def OP_PUSHDATA2 : ℕ := 0x4d
def OP_PUSHDATA4 : ℕ := 0x4e
def OP_1 : ℕ := 0x51
def OP_16 : ℕ := 0x60
def OP_EQUAL : ℕ := 0x87
def OP_HASH160 : ℕ := 0xa9
def OP_CHECKSIG : ℕ := 0xac
def OP_CHECKSIGVERIFY : ℕ := 0xad
def OP_CHECKMULTISIG : ℕ := 0xae
def OP_CHECKMULTISIGVERIFY : ℕ := 0xaf
def OP_INVALIDOPCODE : ℕ := 0xff

/-- The size of an immediate operand: in the opcode, or in the 1, 2 or 4 bytes
after it. -/
def operandSize (opcode : ℕ) (pc : CScript) : Option (ℕ × CScript) :=
  if opcode < OP_PUSHDATA1 then some (opcode, pc)
  else if opcode = OP_PUSHDATA1 then readLe 1 pc
  else if opcode = OP_PUSHDATA2 then readLe 2 pc
  else readLe 4 pc

/-- CScript::GetOp2: the opcode, its operand and the rest; `none` when it returns
false. -/
def getOp2 : CScript → Option (ℕ × List Byte × CScript)
  | [] => none
  | b :: pc =>
      let opcode := b.toNat
      if opcode ≤ OP_PUSHDATA4 then do
        let (nSize, pc) ← operandSize opcode pc
        if pc.length < nSize then none
        else return (opcode, pc.take nSize, pc.drop nSize)
      else some (opcode, [], pc)

theorem operandSize_shorter {opcode : ℕ} {pc rest : CScript} {n : ℕ}
    (h : operandSize opcode pc = some (n, rest)) : rest.length ≤ pc.length := by
  unfold operandSize at h
  split_ifs at h
  · simp only [Option.some.injEq, Prod.mk.injEq] at h
    rw [h.2]
  · exact readLe_shorter h
  · exact readLe_shorter h
  · exact readLe_shorter h

/-- Every opcode takes a byte, so that the length of the script is fuel enough. -/
theorem getOp2_shorter {pc rest : CScript} {opcode : ℕ} {data : List Byte}
    (h : getOp2 pc = some (opcode, data, rest)) : rest.length < pc.length := by
  cases pc with
  | nil => simp [getOp2] at h
  | cons b pc =>
    simp only [getOp2] at h
    split_ifs at h with hpush
    · simp only [Option.bind_eq_bind, Option.bind_eq_some_iff] at h
      obtain ⟨⟨nSize, pc'⟩, hsize, h⟩ := h
      dsimp only at h
      split_ifs at h with hroom
      simp only [Option.pure_def, Option.some.injEq, Prod.mk.injEq] at h
      have hshort := operandSize_shorter hsize
      rw [← h.2.2, List.length_drop, List.length_cons]
      omega
    · simp only [Option.some.injEq, Prod.mk.injEq] at h
      rw [← h.2.2, List.length_cons]
      omega

/-- CScript::DecodeOP_N of an opcode from OP_1 to OP_16. -/
def decodeOpN (opcode : ℕ) : ℕ := opcode - (OP_1 - 1)

/-- What one opcode adds to the count. -/
def sigOps (fAccurate : Bool) (opcode lastOpcode : ℕ) : BitVec 32 :=
  if opcode = OP_CHECKSIG ∨ opcode = OP_CHECKSIGVERIFY then 1
  else if opcode = OP_CHECKMULTISIG ∨ opcode = OP_CHECKMULTISIGVERIFY then
    if fAccurate = true ∧ OP_1 ≤ lastOpcode ∧ lastOpcode ≤ OP_16 then
      BitVec.ofNat 32 (decodeOpN lastOpcode)
    else 20
  else 0

def countSigOps (fAccurate : Bool) : ℕ → CScript → ℕ → BitVec 32 → BitVec 32
  | 0, _, _, n => n
  | fuel + 1, pc, lastOpcode, n =>
      match getOp2 pc with
      | none => n
      | some (opcode, _, pc) =>
          countSigOps fAccurate fuel pc opcode (n + sigOps fAccurate opcode lastOpcode)

/-- More fuel than bytes changes nothing: the loop ends at the end of the script. -/
theorem countSigOps_fuel (fAccurate : Bool) (fuel k : ℕ) (pc : CScript) (lastOpcode : ℕ)
    (n : BitVec 32) (h : pc.length ≤ fuel) :
    countSigOps fAccurate (fuel + k) pc lastOpcode n =
      countSigOps fAccurate fuel pc lastOpcode n := by
  induction fuel generalizing pc lastOpcode n with
  | zero =>
    obtain rfl : pc = [] := List.length_eq_zero_iff.mp (by omega)
    cases k with
    | zero => rfl
    | succ k => simp [countSigOps, getOp2]
  | succ fuel ih =>
    rw [Nat.add_right_comm]
    simp only [countSigOps]
    cases hop : getOp2 pc with
    | none => rfl
    | some r =>
      obtain ⟨opcode, data, rest⟩ := r
      have hshort := getOp2_shorter hop
      exact ih rest opcode _ (by omega)

/-- CScript::GetSigOpCount(bool). -/
def getSigOpCount (fAccurate : Bool) (s : CScript) : BitVec 32 :=
  countSigOps fAccurate s.length s OP_INVALIDOPCODE 0

def isPayToScriptHash (s : CScript) : Bool :=
  s.length == 23 && s[0]? == some (BitVec.ofNat 8 OP_HASH160) && s[1]? == some 0x14 &&
    s[22]? == some (BitVec.ofNat 8 OP_EQUAL)

/-- The last item that a scriptSig pushes; `none` when it is not push only. -/
def lastPush : ℕ → CScript → List Byte → Option (List Byte)
  | 0, _, data => some data
  | fuel + 1, pc, data =>
      if pc = [] then some data
      else match getOp2 pc with
        | none => none
        | some (opcode, data, pc) => if opcode > OP_16 then none else lastPush fuel pc data

/-- CScript::GetSigOpCount(const CScript&) of a scriptPubKey. -/
def getSigOpCountP2SH (s scriptSig : CScript) : BitVec 32 :=
  if isPayToScriptHash s then
    match lastPush scriptSig.length scriptSig [] with
    | none => 0
    | some data => getSigOpCount true data
  else getSigOpCount true s

/-- CTransaction::GetLegacySigOpCount. -/
def getLegacySigOpCount (tx : CTransaction) : BitVec 32 :=
  (tx.vin.map fun txin => getSigOpCount false txin.scriptSig).sum +
    (tx.vout.map fun txout => getSigOpCount false txout.scriptPubKey).sum

end UmbrellaLtc.Script
