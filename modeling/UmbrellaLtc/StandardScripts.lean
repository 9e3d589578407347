import UmbrellaLtc.ScriptRuns
import UmbrellaLtc.Solver

/-!
What EvalScript makes of the standard scripts: a script that pays to a key, to the hash of a key or
to several keys takes its signatures from the stack and leaves its answer there.
-/

namespace UmbrellaLtc.StandardScripts

open Codec Transaction Script SignatureHash EvalScript ScriptOps Solver GreedyMatch KeyStore

section Opcodes

variable {s : CScript}

/-- An operand is read by a push. -/
theorem getOp2_operand {pc rest : CScript} {opcode : ℕ} {data : List Byte}
    (h : getOp2 pc = some (opcode, data, rest)) (hdata : data ≠ []) : opcode ≤ OP_PUSHDATA4 := by
  cases pc with
  | nil => cases h
  | cons b pc =>
    simp only [getOp2] at h
    split_ifs at h with hpush
    · simp only [Option.bind_eq_bind, Option.bind_eq_some_iff] at h
      obtain ⟨⟨nSize, pc'⟩, -, h⟩ := h
      dsimp only at h
      split_ifs at h
      simp only [Option.pure_def, Option.some.injEq, Prod.mk.injEq] at h
      rw [← h.1]
      exact hpush
    · simp only [Option.some.injEq, Prod.mk.injEq] at h
      exact absurd h.2.1.symm hdata

theorem opcodes_operand {l : List (ℕ × List Byte)} (h : opcodes s = some l) {op : ℕ × List Byte}
    (hop : op ∈ l) (hdata : op.2 ≠ []) : op.1 ≤ OP_PUSHDATA4 := by
  induction l generalizing s with
  | nil => cases hop
  | cons op' l ih =>
    obtain ⟨rest, hread, hrest⟩ := opcodes_eq_cons.mp h
    obtain rfl | hmem := List.mem_cons.mp hop
    · exact getOp2_operand hread hdata
    · exact ih hrest hmem

theorem opcodes_parse {l : List (ℕ × List Byte)} (h : opcodes s = some l) :
    l = (parse s).1.map fun op => (op.opcode, op.data) := by
  unfold opcodes at h
  split_ifs at h
  exact (Option.some.inj h).symm

/-- A signature that no operand equals is not pushed in the script. -/
theorem fresh_of_operands {l : List (ℕ × List Byte)} (h : opcodes s = some l) {vchSig : Valtype}
    (hsize : vchSig.length < 2 ^ 32)
    (hnew : ∀ op ∈ l, op.1 ≤ OP_PUSHDATA4 → op.2 ≠ vchSig) : Fresh s vchSig := by
  intro op hop hbytes
  obtain ⟨opcode, hread⟩ := getOp2_pushScript vchSig [] hsize
  rw [List.append_nil, ← hbytes, op.reads] at hread
  simp only [Option.some.injEq, Prod.mk.injEq, and_true] at hread
  obtain ⟨rfl, hdata⟩ := hread
  have hmem : (op.opcode, op.data) ∈ l := by
    rw [opcodes_parse h]
    exact List.mem_map_of_mem hop
  refine hnew _ hmem ?_ hdata
  -- the opcode of a push, whether its operand is empty or not
  have hpush := op.reads
  rw [hbytes] at hpush
  unfold pushScript at hpush
  cases hcase : vchSig with
  | nil =>
    subst hcase
    have hzero : op.opcode = 0 := by
      have hread : getOp2 (pushScript ([] : Valtype)) = some (0, [], []) := rfl
      rw [← hbytes, op.reads] at hread
      simp only [Option.some.injEq, Prod.mk.injEq] at hread
      exact hread.1
    rw [hzero]
    exact Nat.zero_le _
  | cons b bs =>
    exact getOp2_operand op.reads (by rw [hdata, hcase]; exact List.cons_ne_nil _ _)

theorem readLe_length {n x : ℕ} {pc rest : CScript} (h : readLe n pc = some (x, rest)) :
    pc.length ≤ rest.length + n := by
  unfold readLe at h
  split_ifs at h
  simp only [Option.some.injEq, Prod.mk.injEq] at h
  rw [← h.2, List.length_drop]
  omega

theorem getOp2_length {pc rest : CScript} {opcode : ℕ} {data : List Byte}
    (h : getOp2 pc = some (opcode, data, rest)) : pc.length ≤ rest.length + (data.length + 5) := by
  cases pc with
  | nil => cases h
  | cons b pc =>
    simp only [getOp2] at h
    split_ifs at h with hpush
    · simp only [Option.bind_eq_bind, Option.bind_eq_some_iff] at h
      obtain ⟨⟨nSize, pc'⟩, hsize, h⟩ := h
      dsimp only at h
      split_ifs at h with hroom
      simp only [Option.pure_def, Option.some.injEq, Prod.mk.injEq] at h
      have hheader : pc.length ≤ pc'.length + 4 := by
        unfold operandSize at hsize
        split_ifs at hsize
        · simp only [Option.some.injEq, Prod.mk.injEq] at hsize
          rw [hsize.2]
          omega
        · exact (readLe_length hsize).trans (by omega)
        · exact (readLe_length hsize).trans (by omega)
        · exact readLe_length hsize
      rw [← h.2.1, ← h.2.2, List.length_cons, List.length_take, List.length_drop]
      omega
    · simp only [Option.some.injEq, Prod.mk.injEq] at h
      rw [← h.2.2, List.length_cons]
      omega

/-- A script is not much longer than its operands. -/
theorem opcodes_length {l : List (ℕ × List Byte)} (h : opcodes s = some l) :
    s.length ≤ (l.map fun op => op.2.length + 5).sum := by
  induction l generalizing s with
  | nil =>
    rw [opcodes_eq_nil.mp h]
    exact Nat.zero_le _
  | cons op l ih =>
    obtain ⟨rest, hread, hrest⟩ := opcodes_eq_cons.mp h
    have hone := getOp2_length hread
    have hmore := ih hrest
    rw [List.map_cons, List.sum_cons]
    omega

end Opcodes

section Pushing

variable {ctx : Context}

/-- PushAll. -/
def pushAll (values : List Valtype) : CScript := values.flatMap pushScript

@[simp] theorem pushAll_nil : pushAll [] = [] := rfl

@[simp] theorem pushAll_cons (v : Valtype) (values : List Valtype) :
    pushAll (v :: values) = pushScript v ++ pushAll values := rfl

theorem pushAll_append (values more : List Valtype) :
    pushAll (values ++ more) = pushAll values ++ pushAll more := List.flatMap_append

theorem getOp2_pushed {v : Valtype} (rest : CScript) (h : v.length < 2 ^ 32) :
    ∃ opcode, opcode ≤ OP_PUSHDATA4 ∧ getOp2 (pushScript v ++ rest) = some (opcode, v, rest) := by
  obtain ⟨opcode, hop⟩ := getOp2_pushScript v rest h
  refine ⟨opcode, ?_, hop⟩
  cases v with
  | nil =>
    have hzero : getOp2 (pushScript ([] : Valtype) ++ rest) = some (0, [], rest) := rfl
    rw [hzero] at hop
    simp only [Option.some.injEq, Prod.mk.injEq] at hop
    rw [← hop.1]
    exact Nat.zero_le _
  | cons b v => exact getOp2_operand hop (List.cons_ne_nil _ _)

/-- The opcodes of a script of pushes. -/
theorem opcodes_pushAll {values : List Valtype} (h : ∀ v ∈ values, v.length < 2 ^ 32) :
    ∃ ops, opcodes (pushAll values) = some ops ∧ ops.map Prod.snd = values ∧
      ∀ op ∈ ops, op.1 ≤ OP_PUSHDATA4 := by
  induction values with
  | nil => exact ⟨[], rfl, rfl, List.forall_mem_nil _⟩
  | cons v values ih =>
    obtain ⟨hv, hvalues⟩ := List.forall_mem_cons.mp h
    obtain ⟨ops, hops, hdata, hlow⟩ := ih hvalues
    obtain ⟨opcode, hle, hop⟩ := getOp2_pushed (pushAll values) hv
    refine ⟨(opcode, v) :: ops, opcodes_eq_cons.mpr ⟨_, hop, hops⟩, ?_, ?_⟩
    · rw [List.map_cons, hdata]
    · exact List.forall_mem_cons.mpr ⟨hle, hlow⟩

theorem pushes_of_low {ops : List (ℕ × Valtype)} (hlow : ∀ op ∈ ops, op.1 ≤ OP_PUSHDATA4)
    (hsize : ∀ v ∈ ops.map Prod.snd, v.length ≤ MAX_SCRIPT_ELEMENT_SIZE) :
    (∀ op ∈ ops, IsPush op) ∧ ops.map pushValue = ops.map Prod.snd := by
  constructor
  · intro op hop
    have hle := hlow op hop
    simp only [OP_PUSHDATA4] at hle
    refine ⟨?_, ?_, hsize _ (List.mem_map_of_mem hop)⟩
    · simp only [OP_16]
      omega
    · simp only [OP_1]
      omega
  · exact List.map_congr_left fun op hop => if_pos (hlow op hop)

theorem evalScript_pushAll {values : List Valtype}
    (hsize : ∀ v ∈ values, v.length ≤ MAX_SCRIPT_ELEMENT_SIZE) (hcount : values.length ≤ 1000)
    (hlen : (pushAll values).length ≤ 10000) :
    evalScript ctx [] (pushAll values) = .returned true values.reverse 0 := by
  obtain ⟨ops, hops, rfl, hlow⟩ := opcodes_pushAll fun v hv =>
    (hsize v hv).trans_lt (by decide)
  obtain ⟨hpush, hvalues⟩ := pushes_of_low hlow hsize
  have heval := @evalScript_pushes ctx ops (pushAll (ops.map Prod.snd)) [] hops hpush hlen
    (by simpa using hcount)
  rw [heval, hvalues, List.append_nil]

/-- A value that is too long to be pushed ends the script. -/
theorem evalScript_oversized {values : List Valtype} {v : Valtype}
    (hsize : ∀ v ∈ values, v.length ≤ MAX_SCRIPT_ELEMENT_SIZE) (hcount : values.length ≤ 1000)
    (hbig : MAX_SCRIPT_ELEMENT_SIZE < v.length) (hv : v.length < 2 ^ 32) :
    ∃ stack n, evalScript ctx [] (pushAll (values ++ [v])) = .returned false stack n := by
  by_cases hlen : (pushAll (values ++ [v])).length ≤ 10000
  · obtain ⟨ops, hops, hdata, hlow⟩ := @opcodes_pushAll (values ++ [v]) (by
      rw [List.forall_mem_append, List.forall_mem_singleton]
      exact ⟨fun v hv => (hsize v hv).trans_lt (by decide), hv⟩)
    obtain ⟨front, back, rfl, rfl, hback⟩ := List.map_eq_append_iff.mp hdata
    obtain ⟨op, rfl, hop⟩ := List.map_eq_singleton_iff.mp hback
    rw [List.forall_mem_append] at hlow
    obtain ⟨hpush, -⟩ := pushes_of_low hlow.1 hsize
    obtain ⟨pc, hpc, hreach⟩ := @reaches_pushes ctx front [op]
      (.start [] (pushAll (front.map Prod.snd ++ [v]))) hops hpush rfl (by
        simpa [Machine.start] using hcount)
    obtain ⟨rest, hread, -⟩ := opcodes_eq_cons.mp hpc
    subst hop
    have hstop := @loop_stops ctx _ _ hreach (pc_ne_nil hread) _ 0 (by
      unfold step
      rw [hread]
      exact if_pos hbig) _ (le_refl _)
    exact ⟨_, _, (if_neg (Nat.not_lt.mpr hlen)).trans hstop⟩
  · exact ⟨[], 0, if_pos (Nat.lt_of_not_le hlen)⟩

theorem isPushOnly_opcodes {ops : List (ℕ × Valtype)} (hlow : ∀ op ∈ ops, op.1 ≤ OP_PUSHDATA4)
    {script : CScript} (hops : opcodes script = some ops) {fuel : ℕ}
    (hfuel : script.length ≤ fuel) : isPushOnly fuel script = true := by
  induction ops generalizing script fuel with
  | nil =>
    rw [opcodes_eq_nil] at hops
    subst hops
    cases fuel with
    | zero => rfl
    | succ fuel => rfl
  | cons op ops ih =>
    obtain ⟨rest, hop, hrest⟩ := opcodes_eq_cons.mp hops
    obtain ⟨hle, hlow⟩ := List.forall_mem_cons.mp hlow
    have hshort := getOp2_shorter hop
    obtain ⟨n, rfl⟩ : ∃ n, fuel = n + 1 := ⟨fuel - 1, by omega⟩
    have hnot : ¬ op.1 > OP_16 := by
      simp only [OP_PUSHDATA4] at hle
      simp only [OP_16]
      omega
    rw [isPushOnly]
    split_ifs with hempty
    · rfl
    · rw [hop]
      simp only
      rw [if_neg hnot]
      exact ih hlow hrest (by omega)

theorem isPushOnly_pushAll {values : List Valtype} (h : ∀ v ∈ values, v.length < 2 ^ 32) :
    isPushOnly (pushAll values).length (pushAll values) = true := by
  obtain ⟨ops, hops, -, hlow⟩ := opcodes_pushAll h
  exact isPushOnly_opcodes hlow hops (le_refl _)

theorem pushScript_length (v : Valtype) (h : v.length < 2 ^ 32) :
    (pushScript v).length ≤ v.length + 5 := by
  obtain ⟨opcode, hop⟩ := getOp2_pushScript v [] h
  have hlen := getOp2_length hop
  rw [List.append_nil, List.length_nil] at hlen
  omega

theorem pushAll_length {values : List Valtype} {n : ℕ} (h : ∀ v ∈ values, v.length ≤ n)
    (hn : n < 2 ^ 32) : (pushAll values).length ≤ values.length * (n + 5) := by
  induction values with
  | nil => simp
  | cons v values ih =>
    obtain ⟨hv, hvalues⟩ := List.forall_mem_cons.mp h
    have hone := pushScript_length v (hv.trans_lt hn)
    have hrest := ih hvalues
    rw [pushAll_cons, List.length_append, List.length_cons, Nat.succ_mul]
    omega

end Pushing

section Evaluating

variable {ctx : Context} {s : CScript} {stack rest : List Valtype} {m : Machine}

theorem castToBool_boolVch (b : Bool) : castToBool (boolVch b) = b := by
  cases b
  · rfl
  · rfl

/-- The last opcode of a script, which leaves its answer on the stack. -/
theorem evalScript_last {m' : Machine} {opcode : ℕ} (hreach : Reaches ctx (.start stack s) m)
    (hlen : s.length ≤ 10000) (hpc : opcodes m.pc = some [(opcode, [])]) (hhigh : OP_16 < opcode)
    (henabled : opcode ∉ disabledOpcodes) (hcount : m.nOpCount < 201) (hexec : m.vfExec = [])
    (hexecute : execute ctx opcode { m with pc := [], nOpCount := m.nOpCount + 1 } = .next m')
    (hpc' : m'.pc = []) (hexec' : m'.vfExec = [])
    (hdepth : m'.stack.length + m'.altstack.length ≤ 1000) :
    evalScript ctx stack s = .returned true m'.stack m'.nChecks := by
  obtain ⟨pc, hop, hend⟩ := opcodes_eq_cons.mp hpc
  rw [opcodes_eq_nil] at hend
  subst hend
  have hlast := reaches_opcode hop hhigh henabled hcount hexec hexecute hdepth
  rw [evalScript_reaches hlen (hreach.trans hlast) hpc', hexec']
  rfl

theorem evalScript_checkSig {vchSig vchPubKey : Valtype} (hreach : Reaches ctx (.start stack s) m)
    (hlen : s.length ≤ 10000) (hpc : opcodes m.pc = some [(OP_CHECKSIG, [])])
    (hstack : m.stack = vchPubKey :: vchSig :: rest) (hcode : m.pbegincodehash = s)
    (hcount : m.nOpCount < 201) (hexec : m.vfExec = [])
    (hdepth : rest.length + 1 + m.altstack.length ≤ 1000) (hsize : vchSig.length < 2 ^ 32)
    (hfresh : Fresh s vchSig) :
    ∃ n, evalScript ctx stack s = .returned true (boolVch (fits ctx s vchSig vchPubKey) :: rest) n := by
  have hexecute : execute ctx OP_CHECKSIG { m with pc := [], nOpCount := m.nOpCount + 1 } =
      .next { m with
        pc := []
        nOpCount := m.nOpCount + 1
        stack := boolVch (fits ctx s vchSig vchPubKey) :: rest
        nChecks := if encodingOk ctx vchSig vchPubKey then m.nChecks + 1 else m.nChecks } := by
    refine (execute_checkSig false _).trans ?_
    simp only [opCheckSig, hstack, hcode, List.length_cons, findAndDelete_fresh hsize hfresh]
    rw [if_neg (by omega)]
    rfl
  exact ⟨_, evalScript_last hreach hlen hpc (by decide) (by decide) hcount hexec hexecute rfl hexec
    (by simpa using hdepth)⟩

theorem evalScript_pubkey {c : ℕ} {k vchSig : Valtype} (hk : keySized k = true)
    (hs : opcodes s = some [(c, k), (OP_CHECKSIG, [])]) (hlen : s.length ≤ 10000)
    (hdepth : rest.length ≤ 900) (hsize : vchSig.length < 2 ^ 32) (hfresh : Fresh s vchSig) :
    ∃ n, evalScript ctx (vchSig :: rest) s =
      .returned true (boolVch (fits ctx s vchSig k) :: rest) n := by
  have hsized : 33 ≤ k.length ∧ k.length ≤ 120 := by simpa [keySized] using hk
  have hne : k ≠ [] := by
    intro hnil
    simp [hnil] at hsized
  have hlow : c ≤ OP_PUSHDATA4 := opcodes_operand hs List.mem_cons_self hne
  obtain ⟨hpush, hvalues⟩ := @pushes_of_low [(c, k)] (by simpa using hlow)
    (by simp only [List.map_cons, List.map_nil, List.mem_singleton, forall_eq,
      MAX_SCRIPT_ELEMENT_SIZE]; omega)
  obtain ⟨pc, hpc, hreach⟩ := @reaches_pushes ctx [(c, k)] [(OP_CHECKSIG, [])]
    (.start (vchSig :: rest) s) hs hpush rfl
    (by simp only [Machine.start, List.length_cons, List.length_nil]; omega)
  rw [hvalues] at hreach
  exact evalScript_checkSig hreach hlen hpc rfl rfl (by simp [Machine.start]) rfl
    (by simp only [Machine.start, List.length_nil]; omega) hsize hfresh

theorem evalScript_pubkeyhash {c : ℕ} {h k vchSig : Valtype} (hh : h.length = 20)
    (hs : opcodes s = some [(OP_DUP, []), (OP_HASH160, []), (c, h), (OP_EQUALVERIFY, []),
      (OP_CHECKSIG, [])]) (hhash : leBytes 20 (ctx.crypto.hash160 k).toNat = h)
    (hlen : s.length ≤ 10000) (hdepth : rest.length ≤ 900) (hsize : vchSig.length < 2 ^ 32)
    (hfresh : Fresh s vchSig) :
    ∃ n, evalScript ctx (k :: vchSig :: rest) s =
      .returned true (boolVch (fits ctx s vchSig k) :: rest) n := by
  have hne : h ≠ [] := by
    intro hnil
    simp [hnil] at hh
  have hlow : c ≤ OP_PUSHDATA4 := @opcodes_operand s _ hs (c, h) (by simp) hne
  obtain ⟨pc₁, hop₁, hs₁⟩ := opcodes_eq_cons.mp hs
  obtain ⟨pc₂, hop₂, hs₂⟩ := opcodes_eq_cons.mp hs₁
  -- the key is copied, and the copy hashed
  let m₁ : Machine := ⟨pc₁, s, k :: k :: vchSig :: rest, [], [], 1, 0⟩
  let m₂ : Machine := ⟨pc₂, s, h :: k :: vchSig :: rest, [], [], 2, 0⟩
  have hdup : Reaches ctx (.start (k :: vchSig :: rest) s) m₁ := by
    refine reaches_opcode hop₁ (by decide) (by decide) (by simp [Machine.start]) rfl ?_
      (by simp only [m₁, List.length_cons, List.length_nil]; omega)
    rw [execute_dup]
    simp [stackOp, Machine.start, opDup, m₁]
  have hhash160 : Reaches ctx m₁ m₂ := by
    refine reaches_opcode hop₂ (by decide) (by decide) (by simp [m₁]) rfl ?_
      (by simp only [m₂, List.length_cons, List.length_nil]; omega)
    rw [execute_hash160]
    simp [stackOp, opHash, hhash, m₁, m₂]
  -- the hash in the script is compared with that of the key
  obtain ⟨hpush, hvalues⟩ := @pushes_of_low [(c, h)] (by simpa using hlow)
    (by simp only [List.map_cons, List.map_nil, List.mem_singleton, forall_eq,
      MAX_SCRIPT_ELEMENT_SIZE]; omega)
  obtain ⟨pc₃, hpc₃, hreach⟩ := @reaches_pushes ctx [(c, h)]
    [(OP_EQUALVERIFY, []), (OP_CHECKSIG, [])] m₂ hs₂ hpush rfl
    (by simp only [m₂, List.length_cons, List.length_nil]; omega)
  rw [hvalues] at hreach
  obtain ⟨pc₄, hop₄, hs₄⟩ := opcodes_eq_cons.mp hpc₃
  let m₄ : Machine := ⟨pc₄, s, k :: vchSig :: rest, [], [], 3, 0⟩
  have hequal : Reaches ctx { m₂ with pc := pc₃, stack := h :: h :: k :: vchSig :: rest } m₄ := by
    refine reaches_opcode hop₄ (by decide) (by decide) (by simp [m₂]) rfl ?_
      (by simp only [m₄, List.length_cons, List.length_nil]; omega)
    rw [execute_equalVerify]
    simp [stackOp, opEqual, m₂, m₄]
  exact evalScript_checkSig (((hdup.trans hhash160).trans hreach).trans hequal) hlen hs₄ rfl rfl
    (by simp [m₄]) rfl (by simp only [m₄, List.length_nil]; omega) hsize hfresh

theorem pushValue_opN {n : ℕ} (hn : n ≤ 16) (hpos : 1 ≤ n) :
    IsPush (opN n, []) ∧ pushValue (opN n, []) = getvch n := by
  have hopN : opN n = 80 + n := rfl
  refine ⟨⟨?_, ?_, Nat.zero_le _⟩, ?_⟩
  · simp only [hopN, OP_16]
    omega
  · simp only [hopN, OP_1]
    omega
  · have hhigh : ¬ opN n ≤ OP_PUSHDATA4 := by
      simp only [hopN, OP_PUSHDATA4]
      omega
    have hval : ((opN n : ℕ) : ℤ) - (OP_1 - 1) = n := by
      simp only [hopN, OP_1]
      omega
    rw [pushValue, if_neg hhigh]
    simp only [hval]

/-- A multisig script pushes its numbers and its keys. -/
theorem reaches_multisig {numSigs : ℕ} {keys : List (ℕ × Valtype)} (hm : 1 ≤ numSigs)
    (hmn : numSigs ≤ keys.length) (hn : keys.length ≤ 16) (hkeys : Keys keys)
    (hs : opcodes s = some ((opN numSigs, []) ::
      (keys ++ [(opN keys.length, []), (OP_CHECKMULTISIG, [])])))
    (hdepth : stack.length ≤ 900) :
    ∃ pc, opcodes pc = some [(OP_CHECKMULTISIG, [])] ∧ Reaches ctx (.start stack s)
      ⟨pc, s, getvch keys.length :: ((keys.map Prod.snd).reverse ++ getvch numSigs :: stack),
        [], [], 0, 0⟩ := by
  have hsized : ∀ op ∈ keys, 33 ≤ op.2.length ∧ op.2.length ≤ 120 := fun op hop => by
    simpa [keySized] using hkeys op hop
  have hlow : ∀ op ∈ keys, op.1 ≤ OP_PUSHDATA4 := by
    intro op hop
    refine opcodes_operand hs (by simp [hop]) fun hnil => ?_
    have hlong := (hsized op hop).1
    simp [hnil] at hlong
  obtain ⟨hpush, hvalues⟩ := pushes_of_low hlow (by
    intro v hv
    obtain ⟨op, hop, rfl⟩ := List.mem_map.mp hv
    have hshort := (hsized op hop).2
    simp only [MAX_SCRIPT_ELEMENT_SIZE]
    omega)
  obtain ⟨hpushM, hvalueM⟩ := pushValue_opN (hmn.trans hn) hm
  obtain ⟨hpushN, hvalueN⟩ := pushValue_opN hn (hm.trans hmn)
  let pushes : List (ℕ × Valtype) := (opN numSigs, []) :: (keys ++ [(opN keys.length, [])])
  have hops : opcodes s = some (pushes ++ [(OP_CHECKMULTISIG, [])]) := by
    rw [hs]
    simp only [pushes, List.cons_append, List.append_assoc, List.nil_append]
  have hall : ∀ op ∈ pushes, IsPush op := by
    intro op hop
    simp only [pushes, List.mem_cons, List.mem_append, List.not_mem_nil, or_false] at hop
    obtain rfl | hop | rfl := hop
    · exact hpushM
    · exact hpush op hop
    · exact hpushN
  have hcount : pushes.length = keys.length + 2 := by
    simp only [pushes, List.length_cons, List.length_append, List.length_nil]
  have hvals : (pushes.map pushValue).reverse =
      getvch keys.length :: ((keys.map Prod.snd).reverse ++ [getvch numSigs]) := by
    simp only [pushes, List.map_cons, List.map_append, List.map_nil, hvalues, hvalueM, hvalueN,
      List.reverse_cons, List.reverse_append, List.reverse_nil, List.nil_append,
      List.cons_append]
  obtain ⟨pc, hpc, hreach⟩ := @reaches_pushes ctx pushes [(OP_CHECKMULTISIG, [])] (.start stack s)
    hops hall rfl (by simp only [Machine.start, List.length_nil]; omega)
  refine ⟨pc, hpc, ?_⟩
  have hstack : (pushes.map pushValue).reverse ++ stack =
      getvch keys.length :: ((keys.map Prod.snd).reverse ++ getvch numSigs :: stack) := by
    simp only [hvals, List.cons_append, List.append_assoc, List.nil_append]
  rw [← hstack]
  exact hreach

/-- A multisig script, with as many signatures on the stack as it asks for and a value below. -/
theorem evalScript_multisig {numSigs : ℕ} {keys : List (ℕ × Valtype)} {sigs : List Valtype}
    {dummy : Valtype} (hm : 1 ≤ numSigs) (hmn : numSigs ≤ keys.length) (hn : keys.length ≤ 16)
    (hkeys : Keys keys)
    (hs : opcodes s = some ((opN numSigs, []) ::
      (keys ++ [(opN keys.length, []), (OP_CHECKMULTISIG, [])])))
    (hlen : s.length ≤ 10000) (hsigs : sigs.length = numSigs) (hdepth : rest.length ≤ 800)
    (hfresh : ∀ vchSig ∈ sigs, vchSig.length < 2 ^ 32 ∧ Fresh s vchSig) :
    ∃ n, evalScript ctx (sigs ++ dummy :: rest) s = .returned true
      (boolVch (greedy (fits ctx s) sigs (keys.map Prod.snd).reverse) :: rest) n := by
  obtain ⟨pc, hpc, hreach⟩ := @reaches_multisig ctx s (sigs ++ dummy :: rest) numSigs keys hm hmn hn
    hkeys hs (by simp only [List.length_append, List.length_cons]; omega)
  have hkeyCount : ((keys.map Prod.snd).reverse).length = keys.length := by
    rw [List.length_reverse, List.length_map]
  obtain ⟨n, hop⟩ := @opCheckMultiSig_greedy ctx ⟨[], s, getvch keys.length ::
      ((keys.map Prod.snd).reverse ++ getvch numSigs :: (sigs ++ dummy :: rest)), [], [], 1, 0⟩ sigs
    (keys.map Prod.snd).reverse rest dummy (by rw [hkeyCount, hsigs]) (by omega) (by omega)
    (by simp only [hkeyCount]; omega) hfresh
  exact ⟨n, evalScript_last hreach hlen hpc (by decide) (by decide) (Nat.zero_lt_succ _) rfl
    ((execute_checkMultiSig _).trans hop) rfl rfl
    (by simp only [List.length_cons, List.length_nil]; omega)⟩

/-- A multisig script fails on a stack without as many signatures and the value below them. -/
theorem evalScript_multisig_short {numSigs : ℕ} {keys : List (ℕ × Valtype)} (hm : 1 ≤ numSigs)
    (hmn : numSigs ≤ keys.length) (hn : keys.length ≤ 16) (hkeys : Keys keys)
    (hs : opcodes s = some ((opN numSigs, []) ::
      (keys ++ [(opN keys.length, []), (OP_CHECKMULTISIG, [])])))
    (hlen : s.length ≤ 10000) (hshort : stack.length ≤ numSigs) :
    ∃ stack' n, evalScript ctx stack s = .returned false stack' n := by
  obtain ⟨pc, hpc, hreach⟩ := @reaches_multisig ctx s stack numSigs keys hm hmn hn hkeys hs
    (by omega)
  obtain ⟨rest, hread, hend⟩ := opcodes_eq_cons.mp hpc
  let m : Machine := ⟨pc, s, getvch keys.length ::
    ((keys.map Prod.snd).reverse ++ getvch numSigs :: stack), [], [], 0, 0⟩
  let m' : Machine := { m with pc := rest, nOpCount := 1 }
  have hkeyCount : ((keys.map Prod.snd).reverse).length = keys.length := by
    rw [List.length_reverse, List.length_map]
  have hn' : stackInt m'.stack 1 = .ok (keys.length : ℕ) := stackInt_small (by omega) rfl
  have hm' : stackInt m'.stack (2 + keys.length) = .ok (numSigs : ℕ) := by
    refine stackInt_small (by omega) ?_
    rw [show 2 + keys.length - 1 = keys.length + 1 by omega, List.getElem?_cons_succ,
      List.getElem?_append_right (le_of_eq hkeyCount), hkeyCount, Nat.sub_self]
    rfl
  have hstack : m'.stack.length = keys.length + stack.length + 2 := by
    simp only [m', m, List.length_cons, List.length_append, hkeyCount]
    omega
  have hfail : opCheckMultiSig ctx false m' = .stop m'.stack 0 := by
    unfold opCheckMultiSig
    rw [if_neg (by omega), hn']
    simp only [Int.toNat_natCast]
    rw [if_neg (by omega), if_neg (by simp only [m']; omega), if_neg (by omega), hm']
    simp only
    rw [if_neg (by omega)]
    unfold checkSignatures
    simp only [Int.toNat_natCast]
    exact if_pos (by omega)
  have hstep := (@perform_opcode ctx m rest OP_CHECKMULTISIG hread (by decide) (by decide)
    (Nat.zero_lt_succ _) rfl).2 _ 0 ((execute_checkMultiSig _).trans hfail)
  have hstop := loop_stops hreach (pc_ne_nil hread) hstep (le_refl _)
  exact ⟨_, _, (if_neg (Nat.not_lt.mpr hlen)).trans hstop⟩

end Evaluating

section Verifying

variable {ctx : Context} {scriptSig scriptPubKey s : CScript} {t : TxnOutType}
  {vSolutions : List Valtype}

/-- Solver says that a script hash is one, and of nothing else. -/
theorem isPayToScriptHash_standard (h : Standard s vSolutions t) :
    isPayToScriptHash s = true ↔ t = .scripthash := by
  constructor
  · intro hp
    have hsolved := solver_of_standard h
    rw [solver, if_pos hp] at hsolved
    simp only [Option.some.injEq, Prod.mk.injEq, true_and] at hsolved
    exact hsolved.1.symm
  · rintro rfl
    obtain ⟨k, hk, hs, -⟩ := h
    exact isPayToScriptHash_iff.mpr ⟨k, opcodes_scriptHash.mp hs⟩

theorem verifyScript_plain {stack rest : List Valtype} {b : Bool} {n n' : ℕ}
    (hsig : evalScript ctx [] scriptSig = .returned true stack n)
    (heval : evalScript ctx stack scriptPubKey = .returned true (boolVch b :: rest) n')
    (hplain : isPayToScriptHash scriptPubKey = false) :
    verifyScript ctx scriptSig scriptPubKey = some (b, 0) := by
  unfold verifyScript
  rw [hsig]
  simp only [heval, castToBool_boolVch, hplain, Bool.false_eq_true, and_false, if_false]
  cases b
  · rfl
  · rfl

/-- The script that pays to a hash compares it with that of the value on the stack. -/
theorem evalScript_scripthash {h redeem : Valtype} {stack : List Valtype} (hh : h.length = 20)
    (hs : opcodes s = some [(OP_HASH160, []), (20, h), (OP_EQUAL, [])])
    (hdepth : stack.length ≤ 900) :
    evalScript ctx (redeem :: stack) s = .returned true
      (boolVch (leBytes 20 (ctx.crypto.hash160 redeem).toNat = h) :: stack) 0 := by
  have hlen : s.length ≤ 10000 := by
    rw [(opcodes_scriptHash.mp hs).2, scriptHashScript]
    simp only [List.length_cons, List.length_append, List.length_nil, hh]
    omega
  obtain ⟨pc₁, hop₁, hs₁⟩ := opcodes_eq_cons.mp hs
  let hash : Valtype := leBytes 20 (ctx.crypto.hash160 redeem).toNat
  let m₁ : Machine := ⟨pc₁, s, hash :: stack, [], [], 1, 0⟩
  have hhash160 : Reaches ctx (.start (redeem :: stack) s) m₁ := by
    refine reaches_opcode hop₁ (by decide) (by decide) (by simp [Machine.start]) rfl ?_
      (by simp only [m₁, List.length_cons, List.length_nil]; omega)
    rw [execute_hash160]
    simp [stackOp, opHash, Machine.start, m₁, hash]
  obtain ⟨hpush, hvalues⟩ := @pushes_of_low [(20, h)] (by simp [OP_PUSHDATA4])
    (by simp [MAX_SCRIPT_ELEMENT_SIZE, hh])
  obtain ⟨pc₂, hpc₂, hreach⟩ := @reaches_pushes ctx [(20, h)] [(OP_EQUAL, [])] m₁ hs₁ hpush rfl
    (by simp only [m₁, List.length_cons, List.length_nil]; omega)
  rw [hvalues] at hreach
  refine @evalScript_last ctx s (redeem :: stack) _
    ⟨[], s, boolVch (hash = h) :: stack, [], [], 2, 0⟩ OP_EQUAL (hhash160.trans hreach) hlen hpc₂
    (by decide) (by decide) (by simp [m₁]) rfl ?_ rfl rfl
    (by simp only [List.length_cons, List.length_nil]; omega)
  rw [execute_equal]
  simp [stackOp, opEqual, m₁]

theorem evalScript_scripthash_empty {h : Valtype} (hh : h.length = 20)
    (hs : opcodes s = some [(OP_HASH160, []), (20, h), (OP_EQUAL, [])]) :
    evalScript ctx [] s = .returned false [] 0 := by
  have hlen : s.length ≤ 10000 := by
    rw [(opcodes_scriptHash.mp hs).2, scriptHashScript]
    simp only [List.length_cons, List.length_append, List.length_nil, hh]
    omega
  obtain ⟨pc, hop, -⟩ := opcodes_eq_cons.mp hs
  have hstop : step ctx (.start [] s) = .stop [] 0 :=
    (@perform_opcode ctx (.start [] s) pc OP_HASH160 hop (by decide) (by decide)
      (Nat.zero_lt_succ _) rfl).2 [] 0 ((execute_hash160 _).trans rfl)
  exact (if_neg (Nat.not_lt.mpr hlen)).trans
    (loop_stops .refl (pc_ne_nil hop) hstop (le_refl _))

/-- A redeem script on top of the values that it takes. -/
theorem verifyScript_redeem {values stack : List Valtype} {h redeem : Valtype} {fRet : Bool} {n : ℕ}
    (hflags : ctx.flags &&& SCRIPT_VERIFY_P2SH ≠ 0) (hh : h.length = 20)
    (hs : opcodes scriptPubKey = some [(OP_HASH160, []), (20, h), (OP_EQUAL, [])])
    (hhash : leBytes 20 (ctx.crypto.hash160 redeem).toNat = h)
    (hsize : ∀ v ∈ values ++ [redeem], v.length ≤ MAX_SCRIPT_ELEMENT_SIZE)
    (hcount : values.length ≤ 18)
    (heval : evalScript ctx values.reverse redeem = .returned fRet stack n) :
    verifyScript ctx (pushAll (values ++ [redeem])) scriptPubKey =
      some (fRet && (stack.head?.map castToBool).getD false, n) := by
  have hsmall : ∀ v ∈ values ++ [redeem], v.length < 2 ^ 32 := fun v hv =>
    (hsize v hv).trans_lt (by decide)
  have hlen := pushAll_length hsize (by decide)
  rw [List.length_append, List.length_singleton, MAX_SCRIPT_ELEMENT_SIZE] at hlen
  have hroom : (values.length + 1) * (520 + 5) ≤ 19 * (520 + 5) :=
    Nat.mul_le_mul_right _ (by omega)
  have hsig := @evalScript_pushAll ctx _ hsize (by
    rw [List.length_append, List.length_singleton]
    omega) (by omega)
  rw [List.reverse_append, List.reverse_singleton, List.singleton_append] at hsig
  have hcompare := @evalScript_scripthash ctx scriptPubKey h redeem values.reverse hh hs
    (by rw [List.length_reverse]; omega)
  have hp2sh : isPayToScriptHash scriptPubKey = true :=
    isPayToScriptHash_iff.mpr ⟨h, opcodes_scriptHash.mp hs⟩
  unfold verifyScript
  rw [hsig]
  simp only [hcompare, hhash, decide_true, castToBool_boolVch, Bool.true_eq_false, if_false, hflags,
    hp2sh, ne_eq, not_false_eq_true, and_self, if_true, isPushOnly_pushAll hsmall, heval]

end Verifying

end UmbrellaLtc.StandardScripts
