import UmbrellaLtc.EvalLimits

/-!
The count of signature operations bounds the signatures that are checked. The counter reads
the same instructions as the interpreter, branches that are not taken included; where it
charges less than 20 for OP_CHECKMULTISIG, the opcode before it was OP_1 to OP_16, and if the
one is executed then so was the other, and its number is on top of the stack.
-/

namespace UmbrellaLtc.EvalScript

open Codec Transaction Script SignatureHash

section Counting

/-- The loop of GetSigOpCount on numbers that do not wrap around. -/
def countNat (fAccurate : Bool) : ℕ → CScript → ℕ → ℕ
  | 0, _, _ => 0
  | fuel + 1, pc, lastOpcode =>
      match getOp2 pc with
      | none => 0
      | some (opcode, _, pc) =>
          (sigOps fAccurate opcode lastOpcode).toNat + countNat fAccurate fuel pc opcode

theorem countSigOps_eq (fAccurate : Bool) (fuel : ℕ) (pc : CScript) (lastOpcode : ℕ)
    (n : BitVec 32) :
    countSigOps fAccurate fuel pc lastOpcode n =
      n + BitVec.ofNat 32 (countNat fAccurate fuel pc lastOpcode) := by
  induction fuel generalizing pc lastOpcode n with
  | zero => simp [countSigOps, countNat]
  | succ fuel ih =>
    simp only [countSigOps, countNat]
    cases getOp2 pc with
    | none => simp
    | some r =>
      dsimp only
      rw [ih, BitVec.ofNat_add, BitVec.ofNat_toNat, BitVec.setWidth_eq, BitVec.add_assoc]

theorem sigOps_le (fAccurate : Bool) (opcode lastOpcode : ℕ) :
    (sigOps fAccurate opcode lastOpcode).toNat ≤ 20 := by
  unfold sigOps decodeOpN OP_1 OP_16
  split_ifs with hsig hmulti hlast
  · decide
  · rw [BitVec.toNat_ofNat]
    omega
  · decide
  · decide

theorem countNat_le (fAccurate : Bool) (fuel : ℕ) (pc : CScript) (lastOpcode : ℕ) :
    countNat fAccurate fuel pc lastOpcode ≤ 20 * pc.length := by
  induction fuel generalizing pc lastOpcode with
  | zero => simp [countNat]
  | succ fuel ih =>
    simp only [countNat]
    cases hop : getOp2 pc with
    | none => simp
    | some r =>
      obtain ⟨opcode, data, rest⟩ := r
      have hshort := getOp2_shorter hop
      have hone := sigOps_le fAccurate opcode lastOpcode
      have hrest := ih rest opcode
      dsimp only
      omega

theorem getSigOpCount_toNat (fAccurate : Bool) (script : CScript)
    (hlen : script.length ≤ 10000) :
    (getSigOpCount fAccurate script).toNat =
      countNat fAccurate script.length script OP_INVALIDOPCODE := by
  have hle := countNat_le fAccurate script.length script OP_INVALIDOPCODE
  rw [getSigOpCount, countSigOps_eq, BitVec.ofNat_eq_ofNat, BitVec.zero_add,
    BitVec.toNat_ofNat]
  exact Nat.mod_eq_of_lt (by omega)

end Counting

section Checks

/-- After OP_1 to OP_16 in a branch that is executed, the number is on top of the stack. -/
def NumberOnTop (lastOpcode : ℕ) (m : Machine) : Prop :=
  OP_1 ≤ lastOpcode → lastOpcode ≤ OP_16 → m.fExec = true →
    m.stack.head? = some (getvch (decodeOpN lastOpcode))

theorem castToBigNum_getvch_small : ∀ k < 17, castToBigNum (getvch (k : ℕ)) = some (k : ℤ) := by
  decide

theorem keysOnTop_number {lastOpcode : ℕ} {m : Machine} (h : NumberOnTop lastOpcode m)
    (hlow : OP_1 ≤ lastOpcode) (hhigh : lastOpcode ≤ OP_16) (hexec : m.fExec = true) :
    keysOnTop m.stack = decodeOpN lastOpcode := by
  have hsmall : decodeOpN lastOpcode < 17 := by
    unfold decodeOpN OP_1 OP_16 at *
    omega
  have hint : stackInt m.stack 1 = .ok (decodeOpN lastOpcode : ℤ) := by
    have hhead := h hlow hhigh hexec
    rw [List.head?_eq_getElem?] at hhead
    simp only [stackInt, Nat.sub_self, hhead, castToBigNum_getvch_small _ hsmall]
  simp only [keysOnTop, hint]
  rw [if_neg (by omega), Int.toNat_natCast]

/-- What an opcode may spend is what the counter charges for it. -/
theorem budget_le {fAccurate : Bool} {opcode lastOpcode : ℕ} {m : Machine}
    (h : NumberOnTop lastOpcode m) (hexec : m.fExec = true) :
    budget opcode m ≤ (sigOps fAccurate opcode lastOpcode).toNat := by
  unfold budget sigOps
  split_ifs with hsig hmulti hlast
  · decide
  · obtain ⟨-, hlow, hhigh⟩ := hlast
    rw [keysOnTop_number h hlow hhigh hexec, BitVec.toNat_ofNat]
    unfold decodeOpN OP_1 OP_16 at *
    omega
  · exact keysOnTop_le m.stack
  · simp

theorem budget_conditional {opcode : ℕ} (m : Machine) (h : OP_IF ≤ opcode ∧ opcode ≤ OP_ENDIF) :
    budget opcode m = 0 := by
  unfold budget OP_CHECKSIG OP_CHECKSIGVERIFY OP_CHECKMULTISIG OP_CHECKMULTISIGVERIFY
  unfold OP_IF OP_ENDIF at h
  rw [if_neg (by omega), if_neg (by omega)]

theorem perform_charged (ctx : Context) (fAccurate : Bool) (opcode : ℕ) {lastOpcode : ℕ}
    {vchPushValue : Valtype} {m : Machine} (h : NumberOnTop lastOpcode m)
    (hvch : vchPushValue.length ≤ MAX_SCRIPT_ELEMENT_SIZE) :
    (perform ctx opcode vchPushValue m).Within m
      (sigOps fAccurate opcode lastOpcode).toNat := by
  unfold perform
  split_ifs with hpush hrun
  · exact (push_within hvch).more (Nat.zero_le _)
  · apply (execute_within ctx opcode m).more
    obtain hexec | hcond := hrun
    · exact budget_le h hexec
    · rw [budget_conditional m hcond]
      exact Nat.zero_le _
  · exact next_within m _

/-- The opcodes above the pushes up to OP_16: they push a number or fail. -/
theorem execute_constant (ctx : Context) {opcode : ℕ} (m : Machine) (hlow : OP_PUSHDATA4 < opcode)
    (hhigh : opcode ≤ OP_16) :
    execute ctx opcode m = .next (m.push (getvch ((opcode : ℤ) - (OP_1 - 1)))) ∨
      (opcode = OP_1 - 1 ∧ execute ctx opcode m = m.fail) := by
  by_cases hnum : opcode = OP_1NEGATE ∨ (OP_1 ≤ opcode ∧ opcode ≤ OP_16)
  · exact .inl (if_pos hnum)
  · have hreserved : opcode = OP_1 - 1 := by
      unfold OP_PUSHDATA4 OP_1 OP_16 OP_1NEGATE at *
      omega
    subst hreserved
    exact .inr ⟨rfl, rfl⟩

theorem perform_numberOnTop {ctx : Context} {opcode : ℕ} {vchPushValue : Valtype}
    {m m' : Machine} (h : perform ctx opcode vchPushValue m = .next m') :
    NumberOnTop opcode m' := by
  intro hlow hhigh hexec
  have hpush : ¬ (m.fExec ∧ opcode ≤ OP_PUSHDATA4) := by
    unfold OP_PUSHDATA4 OP_1 at *
    omega
  rw [perform, if_neg hpush] at h
  by_cases hrun : m.fExec ∨ (OP_IF ≤ opcode ∧ opcode ≤ OP_ENDIF)
  · rw [if_pos hrun, execute, if_pos (.inr ⟨hlow, hhigh⟩)] at h
    cases h
    have hnum : ((opcode : ℤ) - (OP_1 - 1)) = (decodeOpN opcode : ℤ) := by
      unfold decodeOpN OP_1 at *
      omega
    simp only [Machine.push, hnum, List.head?_cons]
  · rw [if_neg hrun] at h
    cases h
    exact absurd (.inl hexec) hrun

/-- A run spends at most what the counter charges for what is left of the script. -/
theorem loop_checks (ctx : Context) (fAccurate : Bool) (fuel : ℕ) (m : Machine) (lastOpcode : ℕ)
    (h : NumberOnTop lastOpcode m) :
    ∃ fRet stack n, loop ctx fuel m = .returned fRet stack n ∧
      n ≤ m.nChecks + countNat fAccurate fuel m.pc lastOpcode := by
  induction fuel generalizing m lastOpcode with
  | zero => exact ⟨_, _, _, rfl, Nat.le_add_right _ _⟩
  | succ fuel ih =>
    unfold loop
    split_ifs with hend
    · exact ⟨_, _, _, rfl, Nat.le_add_right _ _⟩
    obtain hfail | ⟨opcode, vchPushValue, pc, nOpCount, hop, hsize, -, hrest⟩ := step_cases ctx m
    · rw [hfail]
      exact ⟨_, _, _, rfl, Nat.le_add_right _ _⟩
    have hcount : countNat fAccurate (fuel + 1) m.pc lastOpcode =
        (sigOps fAccurate opcode lastOpcode).toNat + countNat fAccurate fuel pc opcode := by
      simp only [countNat, hop]
    have hwithin := perform_charged ctx fAccurate opcode
      (m := { m with pc := pc, nOpCount := nOpCount }) h hsize
    obtain ⟨_, n, hperform, hstop⟩ | ⟨m', hperform, hout⟩ := hrest
    · rw [hperform] at hwithin
      have hle : n ≤ m.nChecks + (sigOps fAccurate opcode lastOpcode).toNat := hwithin
      rw [hstop, hcount]
      exact ⟨_, _, _, rfl, by omega⟩
    · rw [hperform] at hwithin
      obtain ⟨hpc, hle, -⟩ := hwithin
      dsimp only at hpc hle
      rw [hcount]
      obtain hfail | ⟨hnext, -⟩ := hout
      · rw [hfail]
        exact ⟨_, _, _, rfl, by omega⟩
      · rw [hnext]
        obtain ⟨fRet, stack, n, hloop, hn⟩ := ih m' opcode (perform_numberOnTop hperform)
        rw [hpc] at hn
        exact ⟨fRet, stack, n, hloop, by omega⟩

theorem evalScript_checks (ctx : Context) (fAccurate : Bool) (stack : List Valtype)
    (script : CScript) :
    ∃ fRet stack' n, evalScript ctx stack script = .returned fRet stack' n ∧
      n ≤ (getSigOpCount fAccurate script).toNat := by
  unfold evalScript
  split_ifs with hlen
  · exact ⟨_, _, _, rfl, Nat.zero_le _⟩
  · have hstart : NumberOnTop OP_INVALIDOPCODE (.start stack script) := by
      intro _ hhigh
      unfold OP_INVALIDOPCODE OP_16 at hhigh
      omega
    obtain ⟨fRet, stack', n, hloop, hn⟩ :=
      loop_checks ctx fAccurate script.length (.start stack script) OP_INVALIDOPCODE hstart
    refine ⟨fRet, stack', n, hloop, ?_⟩
    rw [getSigOpCount_toNat fAccurate script (by omega)]
    simpa [Machine.start] using hn

end Checks

section Redeem

/-- The top of the stack is the data that was pushed last, or a script without signature
operations. -/
def TopCounted (stack : List Valtype) (data : List Byte) : Prop :=
  ∀ vch, stack.head? = some vch → vch = data ∨ getSigOpCount true vch = 0

theorem number_counts_nothing :
    ∀ opcode < OP_16 + 1, OP_PUSHDATA4 < opcode →
      getSigOpCount true (getvch ((opcode : ℤ) - (OP_1 - 1))) = 0 := by
  decide

/-- The opcodes of a script that only pushes, outside of every branch. -/
theorem perform_pushOnly {ctx : Context} {opcode : ℕ} {vchPushValue : Valtype} {m m' : Machine}
    (hopcode : opcode ≤ OP_16) (hexec : m.vfExec = [])
    (h : perform ctx opcode vchPushValue m = .next m') :
    m'.vfExec = [] ∧ TopCounted m'.stack vchPushValue := by
  have hfExec : m.fExec = true := by simp [Machine.fExec, hexec]
  unfold perform at h
  by_cases hpush : opcode ≤ OP_PUSHDATA4
  · rw [if_pos ⟨hfExec, hpush⟩] at h
    cases h
    refine ⟨hexec, ?_⟩
    intro vch hvch
    exact .inl (by simpa [Machine.push] using hvch.symm)
  · rw [if_neg (fun hc => hpush hc.2), if_pos (.inl hfExec)] at h
    obtain hnum | ⟨-, hfail⟩ := execute_constant ctx m (by omega) hopcode
    · rw [hnum] at h
      cases h
      refine ⟨hexec, ?_⟩
      intro vch hvch
      obtain rfl : getvch ((opcode : ℤ) - (OP_1 - 1)) = vch := by
        simpa [Machine.push] using hvch
      exact .inr (number_counts_nothing opcode (by omega) (by omega))
    · rw [hfail] at h
      cases h

theorem loop_pushOnly (ctx : Context) (fuel : ℕ) (m : Machine) (data : List Byte)
    (hexec : m.vfExec = []) (htop : TopCounted m.stack data)
    (hpush : isPushOnly fuel m.pc = true) {stack : List Valtype} {n : ℕ}
    (hrun : loop ctx fuel m = .returned true stack n) :
    ∃ data', lastPush fuel m.pc data = some data' ∧ TopCounted stack data' := by
  induction fuel generalizing m data with
  | zero =>
    simp only [loop, Evaluation.returned.injEq] at hrun
    exact ⟨data, rfl, hrun.2.1 ▸ htop⟩
  | succ fuel ih =>
    unfold loop at hrun
    unfold isPushOnly at hpush
    unfold lastPush
    by_cases hend : m.pc = []
    · simp only [hend, List.isEmpty_nil, if_true, Evaluation.returned.injEq] at hrun
      exact ⟨data, if_pos hend, hrun.2.1 ▸ htop⟩
    have hempty : m.pc.isEmpty = false := by simpa using hend
    simp only [hempty, Bool.false_eq_true, if_false] at hrun hpush
    rw [if_neg hend]
    obtain hfail | ⟨opcode, vchPushValue, pc, nOpCount, hop, hsize, -, hrest⟩ := step_cases ctx m
    · rw [hfail] at hrun
      cases hrun
    rw [hop] at hpush ⊢
    dsimp only at hpush ⊢
    by_cases hopcode : opcode > OP_16
    · simp [hopcode] at hpush
    rw [if_neg hopcode] at hpush ⊢
    obtain ⟨_, _, -, hstop⟩ | ⟨m', hperform, hfail | ⟨hnext, -⟩⟩ := hrest
    · rw [hstop] at hrun
      cases hrun
    · rw [hfail] at hrun
      cases hrun
    · rw [hnext] at hrun
      have hwithin := perform_within ctx opcode { m with pc := pc, nOpCount := nOpCount } hsize
      rw [hperform] at hwithin
      obtain ⟨hexec', htop'⟩ := perform_pushOnly (m := { m with pc := pc, nOpCount := nOpCount })
        (not_lt.mp hopcode) hexec hperform
      have hpc : m'.pc = pc := hwithin.1
      rw [← hpc] at hpush ⊢
      exact ih m' vchPushValue hexec' htop' hpush hrun

/-- The data that the counter takes for the redeem script. -/
theorem scriptSig_top {ctx : Context} {scriptSig : CScript} {stack : List Valtype} {n : ℕ}
    (hrun : evalScript ctx [] scriptSig = .returned true stack n)
    (hpush : isPushOnly scriptSig.length scriptSig = true) :
    ∃ data, lastPush scriptSig.length scriptSig [] = some data ∧ TopCounted stack data := by
  unfold evalScript at hrun
  have htop : TopCounted [] [] := fun vch hvch => by cases hvch
  split_ifs at hrun
  · cases hrun
  · exact loop_pushOnly ctx scriptSig.length (.start [] scriptSig) [] rfl htop hpush hrun

/-- A pay-to-script-hash output cannot be spent with an empty stack, so that the assertion in
VerifyScript holds. -/
theorem payToScriptHash_nonempty {ctx : Context} {scriptPubKey : CScript} {stack : List Valtype}
    {n : ℕ} (hp2sh : isPayToScriptHash scriptPubKey = true) :
    evalScript ctx [] scriptPubKey ≠ .returned true stack n := by
  intro hrun
  simp only [isPayToScriptHash, Bool.and_eq_true, beq_iff_eq] at hp2sh
  obtain ⟨⟨⟨hlen, hfirst⟩, -⟩, -⟩ := hp2sh
  cases scriptPubKey with
  | nil => simp at hlen
  | cons b rest =>
    obtain rfl : b = BitVec.ofNat 8 OP_HASH160 := by simpa using hfirst
    have hstep : step ctx (.start [] (BitVec.ofNat 8 OP_HASH160 :: rest)) = .stop [] 0 := rfl
    rw [evalScript, if_neg (by omega), List.length_cons, loop, hstep] at hrun
    simp [Machine.start] at hrun

theorem verifyScript_checks (ctx : Context) {scriptSig scriptPubKey : CScript}
    (hp2sh : isPayToScriptHash scriptPubKey = true) :
    ∃ fRet n, verifyScript ctx scriptSig scriptPubKey = some (fRet, n) ∧
      n ≤ (getSigOpCountP2SH scriptPubKey scriptSig).toNat := by
  unfold verifyScript
  obtain ⟨fSig, stackCopy, nSig, hsig, -⟩ := evalScript_checks ctx true [] scriptSig
  rw [hsig]
  cases fSig with
  | false => exact ⟨false, 0, rfl, Nat.zero_le _⟩
  | true =>
    obtain ⟨fKey, stack, nKey, hkey, -⟩ := evalScript_checks ctx true stackCopy scriptPubKey
    dsimp only
    rw [hkey]
    cases fKey with
    | false => exact ⟨false, 0, rfl, Nat.zero_le _⟩
    | true =>
      cases stack with
      | nil => exact ⟨false, 0, rfl, Nat.zero_le _⟩
      | cons back rest =>
        dsimp only
        by_cases hback : castToBool back = false
        · exact ⟨false, 0, if_pos hback, Nat.zero_le _⟩
        rw [if_neg hback]
        by_cases hflag : ctx.flags &&& SCRIPT_VERIFY_P2SH ≠ 0 ∧ isPayToScriptHash scriptPubKey
        · rw [if_pos hflag]
          by_cases hpush : isPushOnly scriptSig.length scriptSig = false
          · exact ⟨false, 0, if_pos hpush, Nat.zero_le _⟩
          rw [if_neg hpush]
          cases stackCopy with
          | nil => exact absurd hkey (payToScriptHash_nonempty hp2sh)
          | cons pubKeySerialized stackCopy =>
            obtain ⟨fRet, stack', n, hredeem, hn⟩ :=
              evalScript_checks ctx true stackCopy pubKeySerialized
            obtain ⟨data, hlast, htop⟩ := scriptSig_top hsig (by simpa using hpush)
            dsimp only
            rw [hredeem]
            refine ⟨_, n, rfl, ?_⟩
            rw [getSigOpCountP2SH, if_pos hp2sh, hlast]
            obtain rfl | hnone := htop pubKeySerialized rfl
            · exact hn
            · rw [hnone] at hn
              exact hn.trans (Nat.zero_le _)
        · exact ⟨true, 0, if_neg hflag, Nat.zero_le _⟩

/-- Every evaluation of a script checks at most as many signatures as GetSigOpCount(false) counts
in it; and every verification of a pay-to-script-hash spend ends, having checked at most as many
in the redeem script as the output's GetSigOpCount(scriptSig) counts. -/
theorem sigOps_bound_checks :
    (∀ (ctx : Context) (stack : List Valtype) (script : CScript), ∃ fRet stack' n,
      evalScript ctx stack script = .returned fRet stack' n ∧
        n ≤ (getSigOpCount false script).toNat) ∧
      ∀ (ctx : Context) (scriptSig scriptPubKey : CScript),
        isPayToScriptHash scriptPubKey = true → ∃ fRet n,
          verifyScript ctx scriptSig scriptPubKey = some (fRet, n) ∧
            n ≤ (getSigOpCountP2SH scriptPubKey scriptSig).toNat :=
  ⟨fun ctx stack script => evalScript_checks ctx false stack script,
    fun ctx _ _ hp2sh => verifyScript_checks ctx hp2sh⟩

/-- With a hash function that is constant on the script OP_CHECKSIG. -/
def redeemContext : Context := { pickContext with flags := SCRIPT_VERIFY_P2SH }

/-- A signature and a key of one byte, and the redeem script. -/
def redeemSig : CScript := [0x01, 0x30, 0x01, 0x02, 0x01, 0xac]

def redeemPubKey : CScript := [0xa9, 0x14] ++ (List.replicate 20 0 ++ [0x87])

theorem redeem_checked :
    verifyScript redeemContext redeemSig redeemPubKey = some (false, 1) ∧
      1 ≤ (getSigOpCountP2SH redeemPubKey redeemSig).toNat := by
  obtain ⟨fRet, n, hrun, hn⟩ :=
    sigOps_bound_checks.2 redeemContext redeemSig redeemPubKey (by decide)
  have hchecked : verifyScript redeemContext redeemSig redeemPubKey = some (false, 1) := by
    decide +kernel
  rw [hchecked] at hrun
  cases hrun
  exact ⟨hchecked, hn⟩

end Redeem

end UmbrellaLtc.EvalScript
