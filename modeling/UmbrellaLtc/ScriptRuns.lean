import UmbrellaLtc.EvalSigOps
import UmbrellaLtc.FindAndDelete
import UmbrellaLtc.GreedyMatch

/-!
Runs of EvalScript through scripts whose opcodes are known: pushes, and the opcodes that check
signatures. The loop of OP_CHECKMULTISIG is the greedy scan over the keys, last ones first.
-/

namespace UmbrellaLtc.EvalScript

open Codec Transaction Script SignatureHash ScriptOps GreedyMatch

section Reaching

variable {ctx : Context} {m m' : Machine}

theorem step_shorter (h : step ctx m = .next m') : m'.pc.length < m.pc.length := by
  obtain hfail | ⟨opcode, vchPushValue, pc, nOpCount, hop, hsize, -, hrest⟩ := step_cases ctx m
  · rw [hfail] at h
    cases h
  have hshort := getOp2_shorter hop
  have hwithin := perform_within ctx opcode { m with pc := pc, nOpCount := nOpCount } hsize
  obtain ⟨_, _, -, hstop⟩ | ⟨m'', hperform, hfail | ⟨hnext, -⟩⟩ := hrest
  · rw [hstop] at h
    cases h
  · rw [hfail] at h
    cases h
  · rw [hnext] at h
    cases h
    rw [hperform] at hwithin
    rw [hwithin.1]
    exact hshort

theorem loop_nil (ctx : Context) (fuel : ℕ) (h : m.pc = []) :
    loop ctx fuel m = .returned m.vfExec.isEmpty m.stack m.nChecks := by
  cases fuel with
  | zero => rfl
  | succ fuel => rw [loop, h, List.isEmpty_nil, if_pos rfl]

/-- A run to the end of the script is what the loop returns. -/
theorem loop_reaches (h : Reaches ctx m m') (hend : m'.pc = []) {fuel : ℕ}
    (hfuel : m.pc.length ≤ fuel) :
    loop ctx fuel m = .returned m'.vfExec.isEmpty m'.stack m'.nChecks := by
  induction h using Relation.ReflTransGen.head_induction_on generalizing fuel with
  | refl => exact loop_nil ctx fuel hend
  | @head m m₁ hstep _ ih =>
    obtain ⟨hne, hnext⟩ := hstep
    have hshort := step_shorter hnext
    obtain ⟨n, rfl⟩ : ∃ n, fuel = n + 1 := ⟨fuel - 1, by omega⟩
    have hmore : m.pc.isEmpty = false := by
      rw [← Bool.not_eq_true, List.isEmpty_iff]
      exact hne
    rw [loop, hmore, hnext]
    exact ih (by omega)

theorem evalScript_reaches {stack : List Valtype} {script : CScript}
    (hlen : script.length ≤ 10000) (h : Reaches ctx (.start stack script) m') (hend : m'.pc = []) :
    evalScript ctx stack script = .returned m'.vfExec.isEmpty m'.stack m'.nChecks := by
  rw [evalScript, if_neg (Nat.not_lt.mpr hlen)]
  exact loop_reaches h hend (le_refl _)

/-- A run to an opcode that fails. -/
theorem loop_stops (h : Reaches ctx m m') (hend : m'.pc ≠ []) {stack : List Valtype} {n : ℕ}
    (hstop : step ctx m' = .stop stack n) {fuel : ℕ} (hfuel : m.pc.length ≤ fuel) :
    loop ctx fuel m = .returned false stack n := by
  induction h using Relation.ReflTransGen.head_induction_on generalizing fuel with
  | refl =>
    have hpos := List.length_pos_of_ne_nil hend
    obtain ⟨k, rfl⟩ : ∃ k, fuel = k + 1 := ⟨fuel - 1, by omega⟩
    have hmore : m'.pc.isEmpty = false := by
      rw [← Bool.not_eq_true, List.isEmpty_iff]
      exact hend
    rw [loop, hmore, hstop]
    rfl
  | @head m m₁ hstep _ ih =>
    obtain ⟨hne, hnext⟩ := hstep
    have hshort := step_shorter hnext
    obtain ⟨k, rfl⟩ : ∃ k, fuel = k + 1 := ⟨fuel - 1, by omega⟩
    have hmore : m.pc.isEmpty = false := by
      rw [← Bool.not_eq_true, List.isEmpty_iff]
      exact hne
    rw [loop, hmore, hnext]
    exact ih (by omega)

end Reaching

section Pushes

variable {ctx : Context} {m : Machine} {op : ℕ × Valtype} {pc : CScript}

/-- The value that a push puts on the stack. -/
def pushValue (op : ℕ × Valtype) : Valtype :=
  if op.1 ≤ OP_PUSHDATA4 then op.2 else getvch ((op.1 : ℤ) - (OP_1 - 1))

/-- An opcode that pushes a value. The one opcode of IsPushOnly that pushes none is left out. -/
structure IsPush (op : ℕ × Valtype) : Prop where
  opcode_le : op.1 ≤ OP_16
  not_reserved : op.1 ≠ OP_1 - 1
  size : op.2.length ≤ MAX_SCRIPT_ELEMENT_SIZE

theorem disabled_above : ∀ opcode ∈ disabledOpcodes, OP_16 < opcode := by decide

theorem perform_push (hpush : IsPush op) (hexec : m.vfExec = []) :
    perform ctx op.1 op.2 m = .next (m.push (pushValue op)) := by
  have hfExec : m.fExec = true := by simp [Machine.fExec, hexec]
  unfold perform pushValue
  by_cases hlow : op.1 ≤ OP_PUSHDATA4
  · rw [if_pos ⟨hfExec, hlow⟩, if_pos hlow]
  · rw [if_neg fun h => hlow h.2, if_pos (Or.inl hfExec), if_neg hlow]
    obtain hnum | ⟨hreserved, -⟩ := execute_constant ctx m (Nat.lt_of_not_le hlow) hpush.opcode_le
    · exact hnum
    · exact absurd hreserved hpush.not_reserved

theorem pc_ne_nil {r : ℕ × List Byte × CScript} (hop : getOp2 m.pc = some r) : m.pc ≠ [] := by
  intro hnil
  rw [hnil] at hop
  cases hop

theorem reaches_push (hop : getOp2 m.pc = some (op.1, op.2, pc)) (hpush : IsPush op)
    (hexec : m.vfExec = []) (hdepth : m.stack.length + m.altstack.length < 1000) :
    Reaches ctx m { m with pc := pc, stack := pushValue op :: m.stack } := by
  refine .single ⟨pc_ne_nil hop, ?_⟩
  have hsize := hpush.size
  have hlow := hpush.opcode_le
  have hdisabled : op.1 ∉ disabledOpcodes :=
    fun h => absurd (disabled_above _ h) (Nat.not_lt.mpr hlow)
  have hperform : perform ctx op.1 op.2 { m with pc := pc } =
      .next (Machine.push { m with pc := pc } (pushValue op)) := perform_push hpush hexec
  unfold step
  rw [hop]
  simp only
  rw [if_neg (Nat.not_lt.mpr hsize), if_neg (Nat.not_lt.mpr hlow), if_neg fun h => by omega,
    if_neg hdisabled, hperform]
  exact if_neg (by simp only [Machine.push, List.length_cons]; omega)

/-- Pushes in front of other opcodes. -/
theorem reaches_pushes (ops : List (ℕ × Valtype)) {more : List (ℕ × Valtype)} (m : Machine)
    (hpc : opcodes m.pc = some (ops ++ more)) (hops : ∀ op ∈ ops, IsPush op)
    (hexec : m.vfExec = [])
    (hdepth : m.stack.length + m.altstack.length + ops.length ≤ 1000) :
    ∃ pc, opcodes pc = some more ∧
      Reaches ctx m { m with pc := pc, stack := (ops.map pushValue).reverse ++ m.stack } := by
  induction ops generalizing m with
  | nil => exact ⟨m.pc, hpc, .refl⟩
  | cons op ops ih =>
    obtain ⟨pc, hop, hrest⟩ := opcodes_eq_cons.mp hpc
    obtain ⟨hpush, hops⟩ := List.forall_mem_cons.mp hops
    rw [List.length_cons] at hdepth
    have hfirst := @reaches_push ctx m op pc hop hpush hexec (by omega)
    obtain ⟨pc', hpc', hreaches⟩ := ih { m with pc := pc, stack := pushValue op :: m.stack } hrest
      hops hexec (by simp only [List.length_cons]; omega)
    refine ⟨pc', hpc', hfirst.trans ?_⟩
    rw [List.map_cons, List.reverse_cons, List.append_assoc, List.singleton_append]
    exact hreaches

/-- A script that only pushes leaves its values. -/
theorem evalScript_pushes {ops : List (ℕ × Valtype)} {script : CScript} {stack : List Valtype}
    (hops : opcodes script = some ops) (hpush : ∀ op ∈ ops, IsPush op)
    (hlen : script.length ≤ 10000) (hdepth : stack.length + ops.length ≤ 1000) :
    evalScript ctx stack script = .returned true ((ops.map pushValue).reverse ++ stack) 0 := by
  obtain ⟨pc, hpc, hreaches⟩ := @reaches_pushes ctx ops [] (.start stack script)
    (by rw [List.append_nil]; exact hops) hpush rfl (by simpa [Machine.start] using hdepth)
  rw [opcodes_eq_nil] at hpc
  exact evalScript_reaches hlen hreaches hpc

end Pushes

section Opcodes

variable {ctx : Context} {m m' : Machine} {pc : CScript} {opcode : ℕ}

/-- An opcode of the switch, where statements are executed. -/
theorem perform_opcode (hop : getOp2 m.pc = some (opcode, [], pc)) (hhigh : OP_16 < opcode)
    (henabled : opcode ∉ disabledOpcodes) (hcount : m.nOpCount < 201) (hexec : m.vfExec = []) :
    (∀ m', execute ctx opcode { m with pc := pc, nOpCount := m.nOpCount + 1 } = .next m' →
      m'.stack.length + m'.altstack.length ≤ 1000 → step ctx m = .next m') ∧
    ∀ stack n, execute ctx opcode { m with pc := pc, nOpCount := m.nOpCount + 1 } =
      .stop stack n → step ctx m = .stop stack n := by
  have hlow : ¬ opcode ≤ OP_PUSHDATA4 := by
    unfold OP_16 at hhigh
    unfold OP_PUSHDATA4
    omega
  have hfExec : Machine.fExec { m with pc := pc, nOpCount := m.nOpCount + 1 } = true := by
    simp [Machine.fExec, hexec]
  have hperform : perform ctx opcode [] { m with pc := pc, nOpCount := m.nOpCount + 1 } =
      execute ctx opcode { m with pc := pc, nOpCount := m.nOpCount + 1 } := by
    rw [perform, if_neg fun h => hlow h.2, if_pos (Or.inl hfExec)]
  unfold step
  rw [hop]
  simp only [List.length_nil]
  rw [if_neg (by decide), if_pos hhigh, if_neg fun h => by omega, if_neg henabled, hperform]
  constructor
  · intro m' hexecute hdepth
    rw [hexecute]
    exact if_neg (Nat.not_lt.mpr hdepth)
  · intro stack n hexecute
    rw [hexecute]

theorem reaches_opcode (hop : getOp2 m.pc = some (opcode, [], pc)) (hhigh : OP_16 < opcode)
    (henabled : opcode ∉ disabledOpcodes) (hcount : m.nOpCount < 201) (hexec : m.vfExec = [])
    (hexecute : execute ctx opcode { m with pc := pc, nOpCount := m.nOpCount + 1 } = .next m')
    (hdepth : m'.stack.length + m'.altstack.length ≤ 1000) : Reaches ctx m m' :=
  .single ⟨pc_ne_nil hop, (perform_opcode hop hhigh henabled hcount hexec).1 m' hexecute hdepth⟩

theorem execute_checkSig (fVerify : Bool) (m : Machine) :
    execute ctx (if fVerify then OP_CHECKSIGVERIFY else OP_CHECKSIG) m =
      opCheckSig ctx fVerify m := by
  cases fVerify
  · rfl
  · rfl

theorem execute_checkMultiSig (m : Machine) :
    execute ctx OP_CHECKMULTISIG m = opCheckMultiSig ctx false m := rfl

theorem execute_dup (m : Machine) : execute ctx OP_DUP m = stackOp 1 opDup m := rfl

theorem execute_hash160 (m : Machine) :
    execute ctx OP_HASH160 m = stackOp 1 (opHash 20 ctx.crypto.hash160) m := rfl

theorem execute_equal (m : Machine) : execute ctx OP_EQUAL m = stackOp 2 (opEqual false) m := rfl

theorem execute_equalVerify (m : Machine) :
    execute ctx OP_EQUALVERIFY m = stackOp 2 (opEqual true) m := rfl

end Opcodes

section Signatures

variable {ctx : Context}

/-- What a round of the loop of OP_CHECKMULTISIG asks of a signature and a key. -/
def fits (ctx : Context) (scriptCode : CScript) (vchSig vchPubKey : Valtype) : Bool :=
  encodingOk ctx vchSig vchPubKey && checkSig ctx vchSig vchPubKey scriptCode

theorem drop_cons {l : List Valtype} {n : ℕ} {a : Valtype} {as tail : List Valtype} (hn : 0 < n)
    (h : l.drop (n - 1) = a :: as ++ tail) : l[n - 1]? = some a ∧ l.drop n = as ++ tail := by
  have hat : (l.drop (n - 1))[0]? = some a := by
    rw [h]
    rfl
  have hnext : (l.drop (n - 1)).drop 1 = as ++ tail := by
    rw [h]
    rfl
  rw [List.getElem?_drop, Nat.add_zero] at hat
  rw [List.drop_drop, Nat.sub_add_cancel hn] at hnext
  exact ⟨hat, hnext⟩

/-- The loop is the greedy scan: it leaves as soon as there are fewer keys than signatures. -/
theorem multiSigLoop_greedy (scriptCode : CScript) {stack sigs keys sigsTail keysTail : List Valtype}
    {fuel isig ikey : ℕ} (nChecks : ℕ) (hisig : 0 < isig) (hikey : 0 < ikey)
    (hsigs : stack.drop (isig - 1) = sigs ++ sigsTail)
    (hkeys : stack.drop (ikey - 1) = keys ++ keysTail) (hle : sigs.length ≤ keys.length)
    (hfuel : keys.length < fuel) :
    ∃ n, multiSigLoop ctx stack scriptCode fuel isig ikey sigs.length keys.length nChecks =
      some (greedy (fits ctx scriptCode) sigs keys, n) := by
  induction fuel generalizing isig ikey sigs keys nChecks with
  | zero => omega
  | succ fuel ih =>
    cases sigs with
    | nil => exact ⟨nChecks, by simp [multiSigLoop, greedy]⟩
    | cons vchSig sigs =>
      cases keys with
      | nil => simp at hle
      | cons vchPubKey keys =>
        obtain ⟨hsig, hsigs'⟩ := drop_cons hisig hsigs
        obtain ⟨hkey, hkeys'⟩ := drop_cons hikey hkeys
        simp only [List.length_cons] at hle hfuel ⊢
        rw [multiSigLoop, if_neg (by omega), hsig, hkey]
        simp only
        have hgreedy : greedy (fits ctx scriptCode) (vchSig :: sigs) (vchPubKey :: keys) =
            if fits ctx scriptCode vchSig vchPubKey then greedy (fits ctx scriptCode) sigs keys
            else greedy (fits ctx scriptCode) (vchSig :: sigs) keys := rfl
        rw [hgreedy]
        change ∃ n, (if keys.length + 1 - 1 <
          (if fits ctx scriptCode vchSig vchPubKey then sigs.length + 1 - 1
            else sigs.length + 1) then _ else multiSigLoop ctx stack scriptCode fuel
              (if fits ctx scriptCode vchSig vchPubKey then isig + 1 else isig) (ikey + 1)
              (if fits ctx scriptCode vchSig vchPubKey then sigs.length + 1 - 1
                else sigs.length + 1) (keys.length + 1 - 1) _) = _
        by_cases hfits : fits ctx scriptCode vchSig vchPubKey = true
        · rw [if_pos hfits, if_pos hfits, if_neg (by omega), if_pos hfits]
          exact ih _ (by omega) (by omega) (by simpa using hsigs') (by simpa using hkeys') (by omega)
            (by omega)
        · rw [if_neg hfits, if_neg hfits, if_neg hfits]
          by_cases hfew : keys.length + 1 - 1 < sigs.length + 1
          · rw [if_pos hfew, greedy_of_length_lt (by simp only [List.length_cons]; omega)]
            exact ⟨_, rfl⟩
          · rw [if_neg hfew]
            exact @ih (vchSig :: sigs) keys isig (ikey + 1) _ hisig (by omega) hsigs (by simpa using hkeys')
              (by simp only [List.length_cons]; omega) (by omega)

/-- A script in which no push of a signature stands, is not changed by FindAndDelete. -/
def Fresh (script : CScript) (vchSig : Valtype) : Prop :=
  ∀ op ∈ (parse script).1, op.bytes ≠ pushScript vchSig

theorem findAndDelete_fresh {script : CScript} {vchSig : Valtype} (hsize : vchSig.length < 2 ^ 32)
    (h : Fresh script vchSig) : (findAndDelete script (pushScript vchSig)).2 = script := by
  obtain ⟨opcode, hop⟩ := getOp2_pushScript vchSig [] hsize
  rw [List.append_nil] at hop
  obtain ⟨⟨hscript, -⟩, hfind, -⟩ := FindAndDelete.findAndDelete_exact (s := script) hop
  have hall : (parse script).1.filter (·.bytes ≠ pushScript vchSig) = (parse script).1 :=
    List.filter_eq_self.mpr fun op hmem => by simpa using h op hmem
  rw [hfind, hall]
  exact hscript.symm

theorem dropSignatures_fresh {stack sigs tail : List Valtype} {isig : ℕ} {scriptCode : CScript}
    (hisig : 0 < isig) (hsigs : stack.drop (isig - 1) = sigs ++ tail)
    (hfresh : ∀ vchSig ∈ sigs, vchSig.length < 2 ^ 32 ∧ Fresh scriptCode vchSig) :
    dropSignatures stack isig sigs.length scriptCode = some scriptCode := by
  have hall : ∀ n ≤ sigs.length, dropSignatures stack isig n scriptCode = some scriptCode := by
    intro n
    induction n with
    | zero => exact fun _ => rfl
    | succ n ih =>
      intro hn
      have hat : stack[isig + n - 1]? = some sigs[n] := by
        have hdrop : (stack.drop (isig - 1))[n]? = some sigs[n] := by
          rw [hsigs, List.getElem?_append_left (by omega), List.getElem?_eq_getElem (by omega)]
        rw [List.getElem?_drop] at hdrop
        rw [← hdrop]
        congr 1
        omega
      obtain ⟨hsize, hnew⟩ := hfresh sigs[n] (List.getElem_mem _)
      rw [dropSignatures, ih (by omega)]
      simp only [Option.bind_eq_bind, Option.bind_some, hat, findAndDelete_fresh hsize hnew,
        Option.pure_def]
  exact hall sigs.length (le_refl _)

theorem stackInt_small {stack : List Valtype} {i n : ℕ} (hn : n < 17)
    (h : stack[i - 1]? = some (getvch n)) : stackInt stack i = .ok n := by
  simp only [stackInt, h, castToBigNum_getvch_small n hn]

/-- OP_CHECKMULTISIG on the keys, the signatures and the value below them that is popped too. -/
theorem opCheckMultiSig_greedy {m : Machine} {sigs keys rest : List Valtype} {dummy : Valtype}
    (hstack : m.stack = getvch keys.length :: (keys ++ getvch sigs.length :: (sigs ++
      dummy :: rest))) (hkeys : keys.length < 17) (hle : sigs.length ≤ keys.length)
    (hcount : m.nOpCount + keys.length ≤ 201)
    (hfresh : ∀ vchSig ∈ sigs, vchSig.length < 2 ^ 32 ∧ Fresh m.pbegincodehash vchSig) :
    ∃ n, opCheckMultiSig ctx false m = .next { m with
      stack := boolVch (greedy (fits ctx m.pbegincodehash) sigs keys) :: rest
      nOpCount := m.nOpCount + keys.length
      nChecks := n } := by
  have hlen : m.stack.length = keys.length + sigs.length + 3 + rest.length := by
    rw [hstack]
    simp only [List.length_cons, List.length_append]
    omega
  have hn : stackInt m.stack 1 = .ok (keys.length : ℕ) :=
    stackInt_small hkeys (by rw [hstack]; rfl)
  have hm : stackInt m.stack (2 + keys.length) = .ok (sigs.length : ℕ) := by
    refine stackInt_small (by omega) ?_
    rw [hstack, show 2 + keys.length - 1 = keys.length + 1 by omega, List.getElem?_cons_succ,
      List.getElem?_append_right (le_refl _), Nat.sub_self]
    rfl
  have hkeysAt : m.stack.drop (2 - 1) = keys ++ (getvch sigs.length :: (sigs ++ dummy :: rest)) := by
    rw [hstack]
    rfl
  have hsigsAt : m.stack.drop (3 + keys.length - 1) = sigs ++ (dummy :: rest) := by
    rw [hstack, show 3 + keys.length - 1 = keys.length + 1 + 1 by omega, List.drop_succ_cons,
      List.drop_append, List.drop_of_length_le (by omega), List.nil_append,
      show keys.length + 1 - keys.length = 1 by omega]
    rfl
  have hrestAt : m.stack.drop (3 + keys.length + sigs.length) = rest := by
    rw [show 3 + keys.length + sigs.length = 3 + keys.length - 1 + (sigs.length + 1) by omega,
      ← List.drop_drop, hsigsAt, List.drop_append, List.drop_of_length_le (by omega),
      List.nil_append, show sigs.length + 1 - sigs.length = 1 by omega]
    rfl
  have hdrop := dropSignatures_fresh (by omega : 0 < 3 + keys.length) hsigsAt hfresh
  obtain ⟨n, hloop⟩ := @multiSigLoop_greedy ctx m.pbegincodehash m.stack sigs keys _ _ _ _ 2
    m.nChecks (by omega : 0 < 3 + keys.length) (by omega : 0 < 2) hsigsAt hkeysAt hle (Nat.lt_succ_self _)
  refine ⟨n, ?_⟩
  unfold opCheckMultiSig
  rw [if_neg (by omega), hn]
  simp only
  rw [if_neg (by omega), if_neg (by simp only [Int.toNat_natCast]; omega),
    if_neg (by simp only [Int.toNat_natCast]; omega)]
  simp only [Int.toNat_natCast]
  rw [hm]
  simp only
  rw [if_neg (by omega)]
  unfold checkSignatures
  simp only [Int.toNat_natCast]
  rw [if_neg (by omega), hdrop]
  simp only
  rw [hloop]
  simp only [Machine.conclude, Bool.false_eq_true, if_false, Machine.push, hrestAt]

end Signatures

section Contexts

/-- What EvalScript takes from the context is the same in both. -/
structure Agree (ctx ctx' : Context) : Prop where
  crypto : ctx'.crypto = ctx.crypto
  flags : ctx'.flags = ctx.flags
  checkSig : EvalScript.checkSig ctx' = EvalScript.checkSig ctx

variable {ctx ctx' : Context}

theorem Agree.encodingOk (h : Agree ctx ctx') : encodingOk ctx' = encodingOk ctx := by
  funext vchSig vchPubKey
  unfold EvalScript.encodingOk
  rw [h.flags]

theorem Agree.multiSigLoop (h : Agree ctx ctx') (stack : List Valtype) (scriptCode : CScript)
    (fuel isig ikey nSigsCount nKeysCount nChecks : ℕ) :
    multiSigLoop ctx' stack scriptCode fuel isig ikey nSigsCount nKeysCount nChecks =
      multiSigLoop ctx stack scriptCode fuel isig ikey nSigsCount nKeysCount nChecks := by
  induction fuel generalizing isig ikey nSigsCount nKeysCount nChecks with
  | zero => rfl
  | succ fuel ih =>
    unfold EvalScript.multiSigLoop
    simp only [h.encodingOk, h.checkSig, ih]

theorem Agree.opCheckSig (h : Agree ctx ctx') : opCheckSig ctx' = opCheckSig ctx := by
  funext fVerify m
  unfold EvalScript.opCheckSig
  simp only [h.encodingOk, h.checkSig]

theorem Agree.opCheckMultiSig (h : Agree ctx ctx') :
    opCheckMultiSig ctx' = opCheckMultiSig ctx := by
  funext fVerify m
  unfold EvalScript.opCheckMultiSig checkSignatures
  simp only [h.multiSigLoop]

theorem Agree.step (h : Agree ctx ctx') : step ctx' = step ctx := by
  have hhandlers : handlers ctx' = handlers ctx := by
    unfold handlers signatureHandlers
    rw [h.crypto, h.opCheckSig, h.opCheckMultiSig]
  have hexecute : execute ctx' = execute ctx := by
    funext opcode m
    unfold execute
    rw [hhandlers]
  funext m
  unfold EvalScript.step perform
  rw [hexecute]

theorem Agree.loop (h : Agree ctx ctx') (fuel : ℕ) (m : Machine) :
    loop ctx' fuel m = loop ctx fuel m := by
  induction fuel generalizing m with
  | zero => rfl
  | succ fuel ih =>
    unfold EvalScript.loop
    simp only [h.step, ih]

theorem Agree.evalScript (h : Agree ctx ctx') (stack : List Valtype) (script : CScript) :
    evalScript ctx' stack script = evalScript ctx stack script := by
  unfold EvalScript.evalScript
  rw [h.loop]

theorem Agree.verifyScript (h : Agree ctx ctx') (scriptSig scriptPubKey : CScript) :
    verifyScript ctx' scriptSig scriptPubKey = verifyScript ctx scriptSig scriptPubKey := by
  unfold EvalScript.verifyScript
  simp only [h.evalScript, h.flags]

end Contexts

end UmbrellaLtc.EvalScript
