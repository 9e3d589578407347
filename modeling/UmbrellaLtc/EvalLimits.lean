import UmbrellaLtc.EvalScript
import Mathlib.Logic.Relation

/-!
The limits of the interpreter. What an opcode may do with a machine is said once, for every
entry of the tables of the switch: it never strays, it moves no iterator but the one of the
code separator, it makes at most so many calls of CheckSig, and it leaves short elements and
a bounded count of opcodes. The bound on the depth of the stacks is tested in the loop.
-/

namespace UmbrellaLtc.EvalScript

open Codec Transaction Script SignatureHash

section NumberSizes

theorem magnitude_length (fuel n k : ℕ) (h : n < 256 ^ k) :
    (magnitude fuel n).length ≤ k := by
  induction fuel generalizing n k with
  | zero => simp [magnitude]
  | succ fuel ih =>
    by_cases hn : n = 0
    · simp [magnitude, hn]
    · cases k with
      | zero =>
        rw [pow_zero] at h
        omega
      | succ k =>
        rw [pow_succ] at h
        have hdiv : n / 256 < 256 ^ k := by omega
        have hlen := ih (n / 256) k hdiv
        rw [magnitude, if_neg hn, List.length_cons]
        omega

/-- A number takes a byte more than its magnitude at most, for the sign. -/
theorem getvch_length (n : ℤ) (k : ℕ) (h : n.natAbs < 256 ^ k) :
    (getvch n).length ≤ k + 1 := by
  have hmag := magnitude_length n.natAbs n.natAbs k h
  rw [← List.length_reverse] at hmag
  unfold getvch
  cases hrev : (magnitude n.natAbs n.natAbs).reverse with
  | nil => simp
  | cons high rest =>
    rw [hrev, List.length_cons] at hmag
    dsimp only
    split_ifs <;> simp only [List.length_reverse, List.length_cons] <;> omega

theorem setvch_bound (vch : Valtype) : (setvch vch).natAbs < 256 ^ vch.length := by
  unfold setvch
  cases hrev : vch.reverse with
  | nil => simp
  | cons high rest =>
    have hlen : vch.length = rest.length + 1 := by
      rw [← List.length_reverse, hrev, List.length_cons]
    dsimp only
    split_ifs
    · rw [Int.natAbs_natCast]
      exact ofLeBytes_lt vch
    · have hlt := ofLeBytes_lt (((high &&& 0x7f) :: rest).reverse)
      rw [List.length_reverse, List.length_cons, ← hlen] at hlt
      rw [Int.natAbs_neg, Int.natAbs_natCast]
      exact hlt

/-- The numbers that opcodes compute with have four bytes. -/
theorem castToBigNum_bound {vch : Valtype} {n : ℤ} (h : castToBigNum vch = some n) :
    n.natAbs < 256 ^ 4 := by
  unfold castToBigNum at h
  split_ifs at h with hlen
  obtain rfl : setvch vch = n := by simpa using h
  have hbound := setvch_bound vch
  have hpow : 256 ^ vch.length ≤ 256 ^ 4 := Nat.pow_le_pow_right (by decide) (by omega)
  omega

end NumberSizes

section StackOps

def Short (stack : List Valtype) : Prop :=
  ∀ vch ∈ stack, vch.length ≤ MAX_SCRIPT_ELEMENT_SIZE

theorem short_nil : Short [] := by simp [Short]

@[simp]
theorem short_cons (vch : Valtype) (stack : List Valtype) :
    Short (vch :: stack) ↔ vch.length ≤ MAX_SCRIPT_ELEMENT_SIZE ∧ Short stack := by
  simp [Short]

theorem Short.mono {stack stack' : List Valtype} (h : Short stack) (hsub : stack' ⊆ stack) :
    Short stack' := fun vch hvch => h vch (hsub hvch)

theorem getvch_short {n : ℤ} (h : n.natAbs < 256 ^ 5) :
    (getvch n).length ≤ MAX_SCRIPT_ELEMENT_SIZE := by
  have hlen := getvch_length n 5 h
  unfold MAX_SCRIPT_ELEMENT_SIZE
  omega

@[simp]
theorem boolVch_short (f : Bool) : (boolVch f).length ≤ MAX_SCRIPT_ELEMENT_SIZE := by
  cases f <;> decide

/-- An access that is within the stack, whatever comes of it. -/
def Access.Holds {α : Type} (P : α → Prop) : Access α → Prop
  | .ok a => P a
  | .fail _ => True
  | .stray => False

/-- With as many elements as are tested for, the operation does not stray, and short elements
stay short. -/
def Guarded (n : ℕ) (f : List Valtype → Access (List Valtype)) : Prop :=
  ∀ stack, n ≤ stack.length →
    (f stack).Holds fun stack' => stack.length ≤ 1000 → Short stack → Short stack'

theorem guarded_verify : Guarded 1 opVerify := by
  intro stack hlen
  match stack, hlen with
  | vch :: stack, _ =>
    simp only [opVerify]
    split_ifs
    · exact fun _ h => ((short_cons vch stack).mp h).2
    · trivial

theorem guarded_2drop : Guarded 2 op2Drop := by
  intro stack hlen
  match stack, hlen with
  | x2 :: x1 :: stack, _ =>
    intro _ h
    simp_all

theorem guarded_2dup : Guarded 2 op2Dup := by
  intro stack hlen
  match stack, hlen with
  | x2 :: x1 :: stack, _ =>
    intro _ h
    simp_all

theorem guarded_3dup : Guarded 3 op3Dup := by
  intro stack hlen
  match stack, hlen with
  | x3 :: x2 :: x1 :: stack, _ =>
    intro _ h
    simp_all

theorem guarded_2over : Guarded 4 op2Over := by
  intro stack hlen
  match stack, hlen with
  | x4 :: x3 :: x2 :: x1 :: stack, _ =>
    intro _ h
    simp_all

theorem guarded_2rot : Guarded 6 op2Rot := by
  intro stack hlen
  match stack, hlen with
  | x6 :: x5 :: x4 :: x3 :: x2 :: x1 :: stack, _ =>
    intro _ h
    simp_all

theorem guarded_2swap : Guarded 4 op2Swap := by
  intro stack hlen
  match stack, hlen with
  | x4 :: x3 :: x2 :: x1 :: stack, _ =>
    intro _ h
    simp_all

theorem guarded_ifDup : Guarded 1 opIfDup := by
  intro stack hlen
  match stack, hlen with
  | vch :: stack, _ =>
    intro _ h
    split_ifs <;> simp_all

theorem guarded_depth : Guarded 0 opDepth := by
  intro stack _ hdepth h
  have hnum : (stack.length : ℤ).natAbs < 256 ^ 5 := by
    rw [Int.natAbs_natCast]
    omega
  exact (short_cons _ _).mpr ⟨getvch_short hnum, h⟩

theorem guarded_drop : Guarded 1 opDrop := by
  intro stack hlen
  match stack, hlen with
  | vch :: stack, _ =>
    intro _ h
    simp_all

theorem guarded_dup : Guarded 1 opDup := by
  intro stack hlen
  match stack, hlen with
  | vch :: stack, _ =>
    intro _ h
    simp_all

theorem guarded_nip : Guarded 2 opNip := by
  intro stack hlen
  match stack, hlen with
  | x2 :: x1 :: stack, _ =>
    intro _ h
    simp_all

theorem guarded_over : Guarded 2 opOver := by
  intro stack hlen
  match stack, hlen with
  | x2 :: x1 :: stack, _ =>
    intro _ h
    simp_all

/-- The index that is taken from the stack is compared with what is left of it. -/
theorem guarded_pick (fRoll : Bool) : Guarded 2 (opPick fRoll) := by
  intro stack hlen
  match stack, hlen with
  | vch :: stack, _ =>
    simp only [opPick]
    cases castToBigNum vch with
    | none => trivial
    | some n =>
      dsimp only
      by_cases hrange : n < 0 ∨ (stack.length : ℤ) ≤ n
      · rw [if_pos hrange]
        trivial
      · have hidx : n.toNat < stack.length := by omega
        rw [if_neg hrange, List.getElem?_eq_getElem hidx]
        intro _ h
        have hrest := ((short_cons vch stack).mp h).2
        refine (short_cons _ _).mpr ⟨hrest _ (List.getElem_mem hidx), ?_⟩
        cases fRoll
        · exact hrest
        · exact hrest.mono List.eraseIdx_subset

theorem guarded_rot : Guarded 3 opRot := by
  intro stack hlen
  match stack, hlen with
  | x3 :: x2 :: x1 :: stack, _ =>
    intro _ h
    simp_all

theorem guarded_swap : Guarded 2 opSwap := by
  intro stack hlen
  match stack, hlen with
  | x2 :: x1 :: stack, _ =>
    intro _ h
    simp_all

theorem guarded_tuck : Guarded 2 opTuck := by
  intro stack hlen
  match stack, hlen with
  | x2 :: x1 :: stack, _ =>
    intro _ h
    simp_all

theorem guarded_size : Guarded 1 opSize := by
  intro stack hlen
  match stack, hlen with
  | vch :: stack, _ =>
    intro _ h
    have hvch := ((short_cons vch stack).mp h).1
    have hnum : (vch.length : ℤ).natAbs < 256 ^ 5 := by
      rw [Int.natAbs_natCast]
      unfold MAX_SCRIPT_ELEMENT_SIZE at hvch
      omega
    exact (short_cons _ _).mpr ⟨getvch_short hnum, h⟩

theorem guarded_equal (fVerify : Bool) : Guarded 2 (opEqual fVerify) := by
  intro stack hlen
  match stack, hlen with
  | vch2 :: vch1 :: stack, _ =>
    simp only [opEqual]
    split_ifs
    · intro _ h
      simp_all
    · trivial
    · intro _ h
      simp_all

theorem guarded_unary {f : ℤ → ℤ} (hf : ∀ n, (f n).natAbs ≤ n.natAbs + 1) :
    Guarded 1 (opUnary f) := by
  intro stack hlen
  match stack, hlen with
  | vch :: stack, _ =>
    simp only [opUnary]
    cases hcast : castToBigNum vch with
    | none => trivial
    | some bn =>
      intro _ h
      have hbn := castToBigNum_bound hcast
      have hgrow := hf bn
      exact (short_cons _ _).mpr ⟨getvch_short (by omega), ((short_cons _ _).mp h).2⟩

theorem guarded_binary {f : ℤ → ℤ → ℤ}
    (hf : ∀ n1 n2, (f n1 n2).natAbs ≤ n1.natAbs + n2.natAbs + 1) : Guarded 2 (opBinary f) := by
  intro stack hlen
  match stack, hlen with
  | vch2 :: vch1 :: stack, _ =>
    simp only [opBinary]
    cases hcast1 : castToBigNum vch1 with
    | none => trivial
    | some bn1 =>
      cases hcast2 : castToBigNum vch2 with
      | none => trivial
      | some bn2 =>
        intro _ h
        have hbn1 := castToBigNum_bound hcast1
        have hbn2 := castToBigNum_bound hcast2
        have hgrow := hf bn1 bn2
        simp only [short_cons] at h
        exact (short_cons _ _).mpr ⟨getvch_short (by omega), h.2.2⟩

theorem boolNum_natAbs (f : Bool) : (boolNum f).natAbs ≤ 1 := by
  cases f <;> decide

theorem unaryOps_grow : ∀ op ∈ unaryOps, ∀ n, (op.2 n).natAbs ≤ n.natAbs + 1 := by
  have hbool := boolNum_natAbs
  intro op hop n
  simp only [unaryOps, List.mem_cons, List.not_mem_nil, or_false] at hop
  obtain rfl | rfl | rfl | rfl | rfl | rfl := hop <;> dsimp only
  · omega
  · omega
  · omega
  · split_ifs <;> omega
  · have := hbool (decide (n = 0))
    omega
  · have := hbool (decide (n ≠ 0))
    omega

theorem guarded_numEqualVerify : Guarded 2 opNumEqualVerify := by
  intro stack hlen
  match stack, hlen with
  | vch2 :: vch1 :: stack, _ =>
    simp only [opNumEqualVerify, opBinary]
    cases castToBigNum vch1 with
    | none => trivial
    | some bn1 =>
      cases castToBigNum vch2 with
      | none => trivial
      | some bn2 =>
        dsimp only [opVerify]
        split_ifs
        · intro _ h
          simp_all
        · trivial

theorem guarded_within : Guarded 3 opWithin := by
  intro stack hlen
  match stack, hlen with
  | vch3 :: vch2 :: vch1 :: stack, _ =>
    simp only [opWithin]
    cases castToBigNum vch1 with
    | none => trivial
    | some bn1 =>
      cases castToBigNum vch2 with
      | none => trivial
      | some bn2 =>
        cases castToBigNum vch3 with
        | none => trivial
        | some bn3 =>
          intro _ h
          simp_all

theorem guarded_hash {w n : ℕ} (hash : List Byte → BitVec w) (hn : n ≤ MAX_SCRIPT_ELEMENT_SIZE) :
    Guarded 1 (opHash n hash) := by
  intro stack hlen
  match stack, hlen with
  | vch :: stack, _ =>
    intro _ h
    refine (short_cons _ _).mpr ⟨?_, ((short_cons _ _).mp h).2⟩
    rw [leBytes_length]
    exact hn

theorem binaryOps_grow :
    ∀ op ∈ binaryOps, ∀ n1 n2, (op.2 n1 n2).natAbs ≤ n1.natAbs + n2.natAbs + 1 := by
  have hbool : ∀ f n, (boolNum f).natAbs ≤ n + 1 := by
    intro f n
    have := boolNum_natAbs f
    omega
  intro op hop n1 n2
  simp only [binaryOps, List.mem_cons, List.not_mem_nil, or_false] at hop
  obtain rfl | rfl | rfl | rfl | rfl | rfl | rfl | rfl | rfl | rfl | rfl | rfl := hop <;>
    dsimp only
  · omega
  · omega
  iterate 8 exact hbool _ _
  · split_ifs <;> omega
  · split_ifs <;> omega

theorem stackOps_guarded : ∀ op ∈ stackOps, Guarded op.2.1 op.2.2 := by
  simp only [stackOps, List.forall_mem_cons, List.not_mem_nil, false_implies, implies_true,
    and_true]
  exact ⟨guarded_verify, guarded_2drop, guarded_2dup, guarded_3dup, guarded_2over,
    guarded_2rot, guarded_2swap, guarded_ifDup, guarded_depth, guarded_drop, guarded_dup,
    guarded_nip, guarded_over, guarded_pick false, guarded_pick true, guarded_rot,
    guarded_swap, guarded_tuck, guarded_size, guarded_equal false, guarded_equal true⟩

theorem numericOps_guarded : ∀ op ∈ numericOps, Guarded op.2.1 op.2.2 := by
  intro op hop
  simp only [numericOps, List.mem_append, List.mem_map, List.mem_cons, List.not_mem_nil,
    or_false] at hop
  obtain ⟨op, hop, rfl⟩ | ⟨op, hop, rfl⟩ | rfl | rfl := hop
  · exact guarded_unary (unaryOps_grow op hop)
  · exact guarded_binary (binaryOps_grow op hop)
  · exact guarded_numEqualVerify
  · exact guarded_within

theorem hashOps_guarded (crypto : Crypto) : ∀ op ∈ hashOps crypto, Guarded op.2.1 op.2.2 := by
  simp only [hashOps, List.forall_mem_cons, List.not_mem_nil, false_implies, implies_true,
    and_true]
  have h20 : 20 ≤ MAX_SCRIPT_ELEMENT_SIZE := by decide
  have h32 : 32 ≤ MAX_SCRIPT_ELEMENT_SIZE := by decide
  exact ⟨guarded_hash _ h20, guarded_hash _ h20, guarded_hash _ h32, guarded_hash _ h20,
    guarded_hash _ h32⟩

end StackOps

section Handlers

structure Tidy (m : Machine) : Prop where
  stack : Short m.stack
  altstack : Short m.altstack
  nOpCount : m.nOpCount ≤ 201

/-- What holds between two opcodes. -/
structure Bounded (m : Machine) : Prop extends Tidy m where
  depth : m.stack.length + m.altstack.length ≤ 1000

/-- What an opcode may make of a machine, with so many calls of CheckSig at most. -/
def Outcome.Within (m : Machine) (budget : ℕ) : Outcome → Prop
  | .next m' => m'.pc = m.pc ∧ m'.nChecks ≤ m.nChecks + budget ∧ (Bounded m → Tidy m')
  | .stop _ nChecks => nChecks ≤ m.nChecks + budget
  | .stray => False

theorem fail_within (m : Machine) (budget : ℕ) : m.fail.Within m budget :=
  Nat.le_add_right m.nChecks budget

theorem next_within (m : Machine) (budget : ℕ) : (Outcome.next m).Within m budget :=
  ⟨rfl, Nat.le_add_right m.nChecks budget, Bounded.toTidy⟩

/-- A change of the other variables before the opcode. -/
theorem Outcome.Within.before {m m' : Machine} {b : ℕ} {o : Outcome} (h : o.Within m' b)
    (hpc : m'.pc = m.pc) (hchecks : m'.nChecks = m.nChecks) (hbounded : Bounded m → Bounded m') :
    o.Within m b := by
  cases o with
  | next m'' => exact ⟨h.1.trans hpc, hchecks ▸ h.2.1, fun hm => h.2.2 (hbounded hm)⟩
  | stop stack n =>
    have hle : n ≤ m'.nChecks + b := h
    rw [hchecks] at hle
    exact hle
  | stray => exact h

theorem stackOp_within {n : ℕ} {f : List Valtype → Access (List Valtype)} (hf : Guarded n f)
    (m : Machine) : (stackOp n f m).Within m 0 := by
  unfold stackOp
  by_cases hlen : m.stack.length < n
  · rw [if_pos hlen]
    exact fail_within m 0
  · rw [if_neg hlen]
    have hguard := hf m.stack (by omega)
    cases hres : f m.stack with
    | ok stack =>
      rw [hres] at hguard
      refine ⟨rfl, le_rfl, fun h => ⟨?_, h.altstack, h.nOpCount⟩⟩
      have hdepth := h.depth
      exact hguard (by omega) h.stack
    | fail stack => exact fail_within { m with stack := stack } 0
    | stray =>
      rw [hres] at hguard
      exact hguard

theorem opIf_within (fNot : Bool) (m : Machine) : (opIf fNot m).Within m 0 := by
  unfold opIf
  split_ifs with hexec hlen
  · exact fail_within m 0
  · cases hstack : m.stack with
    | nil => simp [hstack] at hlen
    | cons vch stack =>
      refine ⟨rfl, le_rfl, fun h => ⟨?_, h.altstack, h.nOpCount⟩⟩
      have hshort := h.stack
      rw [hstack, short_cons] at hshort
      exact hshort.2
  · exact ⟨rfl, le_rfl, fun h => ⟨h.stack, h.altstack, h.nOpCount⟩⟩

theorem opElse_within (m : Machine) : (opElse m).Within m 0 := by
  unfold opElse
  cases m.vfExec with
  | nil => exact fail_within m 0
  | cons f vfExec => exact ⟨rfl, le_rfl, fun h => ⟨h.stack, h.altstack, h.nOpCount⟩⟩

theorem opEndIf_within (m : Machine) : (opEndIf m).Within m 0 := by
  unfold opEndIf
  cases m.vfExec with
  | nil => exact fail_within m 0
  | cons f vfExec => exact ⟨rfl, le_rfl, fun h => ⟨h.stack, h.altstack, h.nOpCount⟩⟩

theorem opToAltStack_within (m : Machine) : (opToAltStack m).Within m 0 := by
  unfold opToAltStack
  split_ifs with hlen
  · exact fail_within m 0
  · cases hstack : m.stack with
    | nil => simp [hstack] at hlen
    | cons vch stack =>
      refine ⟨rfl, le_rfl, fun h => ?_⟩
      have hshort := h.stack
      rw [hstack, short_cons] at hshort
      exact ⟨hshort.2, (short_cons _ _).mpr ⟨hshort.1, h.altstack⟩, h.nOpCount⟩

theorem opFromAltStack_within (m : Machine) : (opFromAltStack m).Within m 0 := by
  unfold opFromAltStack
  split_ifs with hlen
  · exact fail_within m 0
  · cases hstack : m.altstack with
    | nil => simp [hstack] at hlen
    | cons vch altstack =>
      refine ⟨rfl, le_rfl, fun h => ?_⟩
      have hshort := h.altstack
      rw [hstack, short_cons] at hshort
      exact ⟨(short_cons _ _).mpr ⟨hshort.1, h.stack⟩, hshort.2, h.nOpCount⟩

theorem opCodeSeparator_within (m : Machine) : (opCodeSeparator m).Within m 0 :=
  ⟨rfl, le_rfl, fun h => ⟨h.stack, h.altstack, h.nOpCount⟩⟩

theorem conclude_within {m m' : Machine} {budget : ℕ} (hpc : m'.pc = m.pc)
    (hchecks : m'.nChecks ≤ m.nChecks + budget) (htidy : Bounded m → Tidy m')
    (fVerify fSuccess : Bool) : (m'.conclude fVerify fSuccess).Within m budget := by
  unfold Machine.conclude
  split_ifs
  · exact ⟨hpc, hchecks, htidy⟩
  · exact hchecks
  · refine ⟨hpc, hchecks, fun h => ?_⟩
    have h' := htidy h
    exact ⟨(short_cons _ _).mpr ⟨boolVch_short fSuccess, h'.stack⟩, h'.altstack, h'.nOpCount⟩

theorem opCheckSig_within (ctx : Context) (fVerify : Bool) (m : Machine) :
    (opCheckSig ctx fVerify m).Within m 1 := by
  unfold opCheckSig
  split_ifs with hlen
  · exact fail_within m 1
  · match hstack : m.stack with
    | [] => simp [hstack] at hlen
    | [vchPubKey] => simp [hstack] at hlen
    | vchPubKey :: vchSig :: stack =>
      apply conclude_within
      · rfl
      · dsimp only
        split_ifs <;> omega
      · intro h
        have hshort := h.stack
        simp only [hstack, short_cons] at hshort
        exact ⟨hshort.2.2, h.altstack, h.nOpCount⟩

theorem stackInt_holds (stack : List Valtype) (i : ℕ) (hi : 0 < i) (hlen : i ≤ stack.length) :
    (stackInt stack i).Holds fun _ => True := by
  unfold stackInt
  rw [List.getElem?_eq_getElem (show i - 1 < stack.length by omega)]
  dsimp only
  cases castToBigNum _ <;> trivial

theorem dropSignatures_within (stack : List Valtype) (isig n : ℕ) (scriptCode : CScript)
    (hpos : 0 < isig) (hlen : isig + n ≤ stack.length + 1) :
    ∃ scriptCode', dropSignatures stack isig n scriptCode = some scriptCode' := by
  induction n with
  | zero => exact ⟨scriptCode, rfl⟩
  | succ n ih =>
    obtain ⟨scriptCode', hdrop⟩ := ih (by omega)
    have hidx : isig + n - 1 < stack.length := by omega
    simp [dropSignatures, hdrop, List.getElem?_eq_getElem hidx]

/-- Every round uses up a key, and there are as many keys left as signatures: the sums of the
indices and the counts that are left stay the same, so that the accesses stay below them. -/
theorem multiSigLoop_within (ctx : Context) (stack : List Valtype) (scriptCode : CScript)
    (fuel isig ikey nSigsCount nKeysCount nChecks : ℕ) (hfuel : nKeysCount < fuel)
    (hle : nSigsCount ≤ nKeysCount) (hsig : 0 < isig) (hkey : 0 < ikey)
    (hsigs : isig + nSigsCount ≤ stack.length + 1)
    (hkeys : ikey + nKeysCount ≤ stack.length + 1) :
    ∃ fSuccess nChecks', multiSigLoop ctx stack scriptCode fuel isig ikey nSigsCount nKeysCount
        nChecks = some (fSuccess, nChecks') ∧ nChecks' ≤ nChecks + nKeysCount := by
  induction fuel generalizing isig ikey nSigsCount nKeysCount nChecks with
  | zero => omega
  | succ fuel ih =>
    by_cases hdone : nSigsCount = 0
    · exact ⟨true, nChecks, by simp [multiSigLoop, hdone], by omega⟩
    · have hsidx : isig - 1 < stack.length := by omega
      have hkidx : ikey - 1 < stack.length := by omega
      rw [multiSigLoop, if_neg hdone, List.getElem?_eq_getElem hsidx,
        List.getElem?_eq_getElem hkidx]
      dsimp only
      generalize encodingOk ctx _ _ = fCalled
      generalize (fCalled && checkSig ctx _ _ scriptCode) = fOk
      generalize hcalls : (if fCalled = true then nChecks + 1 else nChecks) = calls
      generalize hisig : (if fOk = true then isig + 1 else isig) = isig'
      generalize hleft : (if fOk = true then nSigsCount - 1 else nSigsCount) = nSigsLeft
      have hcalls' : calls ≤ nChecks + 1 := by
        split_ifs at hcalls <;> omega
      have hsum : isig' + nSigsLeft = isig + nSigsCount ∧ 0 < isig' := by
        split_ifs at hisig hleft <;> omega
      split_ifs with hshort
      · exact ⟨false, calls, rfl, by omega⟩
      · obtain ⟨fSuccess, nChecks', hloop, hchecks⟩ := ih isig' (ikey + 1) nSigsLeft
          (nKeysCount - 1) calls (by omega) (by omega) (by omega) (by omega) (by omega) (by omega)
        exact ⟨fSuccess, nChecks', hloop, by omega⟩

/-- The keys that OP_CHECKMULTISIG would try, where their count is within its limits. -/
def keysOnTop (stack : List Valtype) : ℕ :=
  match stackInt stack 1 with
  | .ok n => if n < 0 ∨ 20 < n then 0 else n.toNat
  | _ => 0

theorem keysOnTop_le (stack : List Valtype) : keysOnTop stack ≤ 20 := by
  unfold keysOnTop
  split
  · split_ifs <;> omega
  · omega

theorem checkSignatures_within (ctx : Context) (fVerify : Bool) (m : Machine)
    (nKeysCount nSigsCount : ℕ) (hle : nSigsCount ≤ nKeysCount) :
    (checkSignatures ctx fVerify m nKeysCount nSigsCount).Within m nKeysCount := by
  unfold checkSignatures
  dsimp only
  split_ifs with hlen
  · exact fail_within m nKeysCount
  · obtain ⟨scriptCode, hdrop⟩ := dropSignatures_within m.stack (3 + nKeysCount) nSigsCount
      m.pbegincodehash (by omega) (by omega)
    obtain ⟨fSuccess, nChecks, hloop, hchecks⟩ := multiSigLoop_within ctx m.stack scriptCode
      (nKeysCount + 1) (3 + nKeysCount) 2 nSigsCount nKeysCount m.nChecks (by omega) hle
      (by omega) (by omega) (by omega) (by omega)
    rw [hdrop]
    dsimp only
    rw [hloop]
    apply conclude_within
    · rfl
    · exact hchecks
    · intro h
      exact ⟨h.stack.mono (List.drop_subset _ _), h.altstack, h.nOpCount⟩

theorem opCheckMultiSig_within (ctx : Context) (fVerify : Bool) (m : Machine) :
    (opCheckMultiSig ctx fVerify m).Within m (keysOnTop m.stack) := by
  unfold opCheckMultiSig keysOnTop
  split_ifs with hlen
  · exact fail_within m _
  have haccess := stackInt_holds m.stack 1 (by omega) (by omega)
  cases hkeys : stackInt m.stack 1 with
  | stray =>
    rw [hkeys] at haccess
    exact haccess
  | fail => exact fail_within m _
  | ok nKeysCount =>
    dsimp only
    by_cases hrange : nKeysCount < 0 ∨ 20 < nKeysCount
    · rw [if_pos hrange, if_pos hrange]
      exact fail_within m _
    rw [if_neg hrange, if_neg hrange]
    by_cases hcount : 201 < m.nOpCount + nKeysCount.toNat
    · rw [if_pos hcount]
      exact fail_within m _
    rw [if_neg hcount]
    by_cases hdeep : m.stack.length < 2 + nKeysCount.toNat
    · rw [if_pos hdeep]
      exact fail_within m _
    rw [if_neg hdeep]
    have haccess := stackInt_holds m.stack (2 + nKeysCount.toNat) (by omega) (by omega)
    cases hsigs : stackInt m.stack (2 + nKeysCount.toNat) with
    | stray =>
      rw [hsigs] at haccess
      exact haccess
    | fail => exact fail_within m _
    | ok nSigsCount =>
      dsimp only
      by_cases hsrange : nSigsCount < 0 ∨ nKeysCount < nSigsCount
      · rw [if_pos hsrange]
        exact fail_within m _
      rw [if_neg hsrange]
      have hle : nSigsCount.toNat ≤ nKeysCount.toNat := by omega
      refine (checkSignatures_within ctx fVerify _ _ _ hle).before rfl rfl ?_
      intro h
      exact ⟨⟨h.stack, h.altstack, by simpa using hcount⟩, h.depth⟩

/-- The calls of CheckSig that an opcode may make. -/
def budget (opcode : ℕ) (m : Machine) : ℕ :=
  if opcode = OP_CHECKSIG ∨ opcode = OP_CHECKSIGVERIFY then 1
  else if opcode = OP_CHECKMULTISIG ∨ opcode = OP_CHECKMULTISIGVERIFY then keysOnTop m.stack
  else 0

theorem controlHandlers_within (m : Machine) : ∀ p ∈ controlHandlers, (p.2 m).Within m 0 := by
  simp only [controlHandlers, List.forall_mem_cons, List.not_mem_nil, false_implies,
    implies_true, and_true]
  exact ⟨next_within m 0, opIf_within false m, opIf_within true m, opElse_within m,
    opEndIf_within m, fail_within m 0, opToAltStack_within m, opFromAltStack_within m,
    opCodeSeparator_within m⟩

theorem signatureHandlers_within (ctx : Context) (m : Machine) :
    ∀ p ∈ signatureHandlers ctx, (p.2 m).Within m (budget p.1 m) := by
  simp only [signatureHandlers, List.forall_mem_cons, List.not_mem_nil, false_implies,
    implies_true, and_true]
  exact ⟨opCheckSig_within ctx false m, opCheckSig_within ctx true m,
    opCheckMultiSig_within ctx false m, opCheckMultiSig_within ctx true m⟩

theorem Outcome.Within.more {m : Machine} {b b' : ℕ} {o : Outcome} (h : o.Within m b)
    (hle : b ≤ b') : o.Within m b' := by
  cases o with
  | next m' =>
    obtain ⟨hpc, hchecks, htidy⟩ := h
    exact ⟨hpc, by omega, htidy⟩
  | stop stack n =>
    have hchecks : n ≤ m.nChecks + b := h
    exact hchecks.trans (by omega)
  | stray => exact h

theorem handlers_within (ctx : Context) (m : Machine) :
    ∀ p ∈ handlers ctx, (p.2 m).Within m (budget p.1 m) := by
  intro p hp
  simp only [handlers, List.mem_append, List.mem_map] at hp
  obtain hp | ⟨op, hop, rfl⟩ | hp := hp
  · exact (controlHandlers_within m p hp).more (Nat.zero_le _)
  · apply (stackOp_within _ m).more (Nat.zero_le _)
    obtain hop | hop | hop := hop
    · exact stackOps_guarded op hop
    · exact numericOps_guarded op hop
    · exact hashOps_guarded ctx.crypto op hop
  · exact signatureHandlers_within ctx m p hp

theorem push_within {m : Machine} {vch : Valtype} (hvch : vch.length ≤ MAX_SCRIPT_ELEMENT_SIZE) :
    (Outcome.next (m.push vch)).Within m 0 :=
  ⟨rfl, le_rfl, fun h => ⟨(short_cons _ _).mpr ⟨hvch, h.stack⟩, h.altstack, h.nOpCount⟩⟩

theorem lookup_mem {α β : Type} [BEq α] [LawfulBEq α] {l : List (α × β)} {a : α} {b : β}
    (h : l.lookup a = some b) : (a, b) ∈ l := by
  obtain ⟨l₁, l₂, rfl, _⟩ := List.lookup_eq_some_iff.mp h
  simp

theorem execute_within (ctx : Context) (opcode : ℕ) (m : Machine) :
    (execute ctx opcode m).Within m (budget opcode m) := by
  unfold execute
  split_ifs with hconst hnop
  · have hnum : ((opcode : ℤ) - (OP_1 - 1)).natAbs < 256 ^ 5 := by
      unfold OP_1NEGATE OP_1 OP_16 at *
      omega
    exact (push_within (getvch_short hnum)).more (Nat.zero_le _)
  · exact next_within m _
  · cases hlookup : (handlers ctx).lookup opcode with
    | none => exact fail_within m _
    | some handler => exact handlers_within ctx m (opcode, handler) (lookup_mem hlookup)

theorem perform_within (ctx : Context) (opcode : ℕ) {vchPushValue : Valtype} (m : Machine)
    (hvch : vchPushValue.length ≤ MAX_SCRIPT_ELEMENT_SIZE) :
    (perform ctx opcode vchPushValue m).Within m (budget opcode m) := by
  unfold perform
  split_ifs
  · exact (push_within hvch).more (Nat.zero_le _)
  · exact execute_within ctx opcode m
  · exact next_within m _

/-- One round of the loop: it fails before the opcode, or the opcode ends it, or the opcode goes
on with a machine of which the depth is tested. -/
theorem step_cases (ctx : Context) (m : Machine) :
    step ctx m = m.fail ∨
      ∃ opcode vchPushValue pc nOpCount, getOp2 m.pc = some (opcode, vchPushValue, pc) ∧
        vchPushValue.length ≤ MAX_SCRIPT_ELEMENT_SIZE ∧ (m.nOpCount ≤ 201 → nOpCount ≤ 201) ∧
        ((∃ stack n, perform ctx opcode vchPushValue { m with pc := pc, nOpCount := nOpCount } =
              .stop stack n ∧ step ctx m = .stop stack n) ∨
          ∃ m', perform ctx opcode vchPushValue { m with pc := pc, nOpCount := nOpCount } =
              .next m' ∧ (step ctx m = m'.fail ∨
                (step ctx m = .next m' ∧ m'.stack.length + m'.altstack.length ≤ 1000))) := by
  unfold step
  cases hop : getOp2 m.pc with
  | none => exact .inl rfl
  | some r =>
    obtain ⟨opcode, vchPushValue, pc⟩ := r
    dsimp only
    generalize hcount : (if opcode > OP_16 then m.nOpCount + 1 else m.nOpCount) = nOpCount
    by_cases hsize : vchPushValue.length > MAX_SCRIPT_ELEMENT_SIZE
    · exact .inl (if_pos hsize)
    by_cases hmany : opcode > OP_16 ∧ nOpCount > 201
    · exact .inl ((if_neg hsize).trans (if_pos hmany))
    by_cases hdisabled : opcode ∈ disabledOpcodes
    · exact .inl ((if_neg hsize).trans ((if_neg hmany).trans (if_pos hdisabled)))
    rw [if_neg hsize, if_neg hmany, if_neg hdisabled]
    refine .inr ⟨opcode, vchPushValue, pc, nOpCount, rfl, by omega, ?_, ?_⟩
    · intro h
      split_ifs at hcount <;> omega
    · have hwithin := perform_within ctx opcode { m with pc := pc, nOpCount := nOpCount }
        (not_lt.mp hsize)
      cases hperform : perform ctx opcode vchPushValue
          { m with pc := pc, nOpCount := nOpCount } with
      | next m' =>
        refine .inr ⟨m', rfl, ?_⟩
        by_cases hdepth : m'.stack.length + m'.altstack.length > 1000
        · exact .inl (if_pos hdepth)
        · exact .inr ⟨if_neg hdepth, by omega⟩
      | stop stack n => exact .inl ⟨stack, n, rfl, rfl⟩
      | stray =>
        rw [hperform] at hwithin
        exact hwithin.elim

end Handlers

section Runs

theorem step_bounded {ctx : Context} {m m' : Machine} (h : Bounded m)
    (hstep : step ctx m = .next m') : Bounded m' := by
  obtain hfail | ⟨opcode, vchPushValue, pc, nOpCount, -, hsize, hcount, hrest⟩ := step_cases ctx m
  · rw [hfail] at hstep
    cases hstep
  obtain ⟨_, n, -, hstop⟩ | ⟨m'', hperform, hfail | ⟨hnext, hdepth⟩⟩ := hrest
  · rw [hstop] at hstep
    cases hstep
  · rw [hfail] at hstep
    cases hstep
  · rw [hnext] at hstep
    cases hstep
    have hwithin := perform_within ctx opcode { m with pc := pc, nOpCount := nOpCount } hsize
    rw [hperform] at hwithin
    have hbounded : Bounded { m with pc := pc, nOpCount := nOpCount } :=
      ⟨⟨h.stack, h.altstack, hcount h.nOpCount⟩, h.depth⟩
    exact ⟨hwithin.2.2 hbounded, hdepth⟩

theorem step_ne_stray (ctx : Context) (m : Machine) : step ctx m ≠ .stray := by
  intro hstray
  obtain hfail | ⟨_, _, _, _, -, -, -, ⟨_, n, -, hstop⟩ | ⟨m', -, hfail | ⟨hnext, -⟩⟩⟩ :=
    step_cases ctx m
  · rw [hfail] at hstray
    cases hstray
  · rw [hstop] at hstray
    cases hstray
  · rw [hfail] at hstray
    cases hstray
  · rw [hnext] at hstray
    cases hstray

/-- The machines between the opcodes of a run. -/
def Reaches (ctx : Context) : Machine → Machine → Prop :=
  Relation.ReflTransGen fun m m' => m.pc ≠ [] ∧ step ctx m = .next m'

theorem Reaches.bounded {ctx : Context} {m m' : Machine} (h : Bounded m)
    (hreaches : Reaches ctx m m') : Bounded m' := by
  induction hreaches with
  | refl => exact h
  | tail _ hstep ih => exact step_bounded ih hstep.2

theorem start_bounded {stack : List Valtype} (script : CScript) (hdepth : stack.length ≤ 1000)
    (hshort : Short stack) : Bounded (.start stack script) := by
  refine ⟨⟨hshort, short_nil, by simp [Machine.start]⟩, ?_⟩
  simpa [Machine.start] using hdepth

theorem loop_ne_stray (ctx : Context) (fuel : ℕ) (m : Machine) : loop ctx fuel m ≠ .stray := by
  induction fuel generalizing m with
  | zero => simp [loop]
  | succ fuel ih =>
    unfold loop
    split_ifs
    · simp
    · have hstep := step_ne_stray ctx m
      cases hout : step ctx m with
      | next m' => exact ih m'
      | stop stack n => simp
      | stray => exact absurd hout hstep

theorem evalScript_ne_stray (ctx : Context) (stack : List Valtype) (script : CScript) :
    evalScript ctx stack script ≠ .stray := by
  unfold evalScript
  split_ifs
  · simp
  · exact loop_ne_stray ctx _ _

/-- Between the opcodes of every run from a stack within the limits, the two stacks hold 1000
elements of 520 bytes at most and 201 opcodes at most were counted; and no opcode makes an access
that is not within the stack. -/
theorem evalScript_limits (ctx : Context) (stack : List Valtype) (script : CScript)
    (hdepth : stack.length ≤ 1000)
    (hshort : ∀ vch ∈ stack, vch.length ≤ MAX_SCRIPT_ELEMENT_SIZE) :
    (∀ m, Reaches ctx (.start stack script) m →
      m.stack.length + m.altstack.length ≤ 1000 ∧
        (∀ vch ∈ m.stack ++ m.altstack, vch.length ≤ MAX_SCRIPT_ELEMENT_SIZE) ∧
        m.nOpCount ≤ 201 ∧ step ctx m ≠ .stray) ∧
      evalScript ctx stack script ≠ .stray := by
  refine ⟨fun m hreaches => ?_, evalScript_ne_stray ctx stack script⟩
  have hbounded := hreaches.bounded (start_bounded script hdepth hshort)
  refine ⟨hbounded.depth, ?_, hbounded.nOpCount, step_ne_stray ctx m⟩
  intro vch hvch
  obtain hvch | hvch := List.mem_append.mp hvch
  · exact hbounded.stack vch hvch
  · exact hbounded.altstack vch hvch

/-- No function of OpenSSL is called in the example. -/
def pickContext : Context where
  crypto := ⟨fun _ => 0, fun _ => 0, fun _ => 0, fun _ _ _ => false⟩
  txTo := ⟨1, [], [], 0⟩
  nIn := 0
  flags := 0
  nHashType := 0

/-- After OP_1 OP_PICK on two elements. -/
def picked : Machine := ⟨[], [0x51, 0x79], [[5], [9], [5]], [], [], 1, 0⟩

theorem picked_reached : Reaches pickContext (.start [[9], [5]] [0x51, 0x79]) picked := by
  have hone : step pickContext (.start [[9], [5]] [0x51, 0x79]) =
      .next ⟨[0x79], [0x51, 0x79], [[1], [9], [5]], [], [], 0, 0⟩ := rfl
  have htwo : step pickContext ⟨[0x79], [0x51, 0x79], [[1], [9], [5]], [], [], 0, 0⟩ =
      .next picked := rfl
  exact (Relation.ReflTransGen.single ⟨by decide, hone⟩).tail ⟨by decide, htwo⟩

theorem picked_limits :
    picked.stack.length + picked.altstack.length ≤ 1000 ∧
      (∀ vch ∈ picked.stack ++ picked.altstack, vch.length ≤ MAX_SCRIPT_ELEMENT_SIZE) ∧
      picked.nOpCount ≤ 201 ∧ step pickContext picked ≠ .stray :=
  (evalScript_limits pickContext [[9], [5]] [0x51, 0x79] (by decide) (by decide)).1 picked
    picked_reached

end Runs

end UmbrellaLtc.EvalScript
