import UmbrellaLtc.EvalScript

/-!
A script as the list of its opcodes. What GetOp2 takes off the front of a script does not depend
on what is behind, so a script is the bytes of its opcodes one after another, and a tail that
GetOp2 does not read.
-/

namespace UmbrellaLtc.ScriptOps

open Codec Transaction Script EvalScript

section Fronts

variable {pc rest : CScript}

theorem readLe_front {n x : ℕ} (h : readLe n pc = some (x, rest)) :
    ∃ front, pc = front ++ rest ∧ ∀ more, readLe n (front ++ more) = some (x, more) := by
  unfold readLe at h
  split_ifs at h with hshort
  simp only [Option.some.injEq, Prod.mk.injEq] at h
  obtain ⟨hx, rfl⟩ := h
  have hlen : (pc.take n).length = n := List.length_take_of_le (by omega)
  refine ⟨pc.take n, (List.take_append_drop n pc).symm, fun more => ?_⟩
  have hroom : ¬ (pc.take n ++ more).length < n := by
    rw [List.length_append, hlen]
    omega
  rw [readLe, if_neg hroom, List.take_left' hlen, List.drop_left' hlen, hx]

theorem operandSize_front {opcode n : ℕ} (h : operandSize opcode pc = some (n, rest)) :
    ∃ front, pc = front ++ rest ∧ ∀ more, operandSize opcode (front ++ more) = some (n, more) := by
  unfold operandSize at h
  split_ifs at h with h0 h1 h2
  · simp only [Option.some.injEq, Prod.mk.injEq] at h
    obtain ⟨rfl, rfl⟩ := h
    exact ⟨[], rfl, fun more => by rw [operandSize, if_pos h0, List.nil_append]⟩
  · obtain ⟨front, hpc, hmore⟩ := readLe_front h
    exact ⟨front, hpc, fun more => by rw [operandSize, if_neg h0, if_pos h1, hmore]⟩
  · obtain ⟨front, hpc, hmore⟩ := readLe_front h
    exact ⟨front, hpc, fun more => by rw [operandSize, if_neg h0, if_neg h1, if_pos h2, hmore]⟩
  · obtain ⟨front, hpc, hmore⟩ := readLe_front h
    exact ⟨front, hpc, fun more => by rw [operandSize, if_neg h0, if_neg h1, if_neg h2, hmore]⟩

/-- What GetOp2 reads, it reads whatever comes behind. -/
theorem getOp2_front {opcode : ℕ} {data : List Byte} (h : getOp2 pc = some (opcode, data, rest)) :
    ∃ front, pc = front ++ rest ∧ ∀ more, getOp2 (front ++ more) = some (opcode, data, more) := by
  cases pc with
  | nil => simp [getOp2] at h
  | cons b pc =>
    simp only [getOp2] at h
    split_ifs at h with hpush
    · simp only [Option.bind_eq_bind, Option.bind_eq_some_iff] at h
      obtain ⟨⟨n, pc'⟩, hsize, h⟩ := h
      dsimp only at h
      split_ifs at h with hroom
      simp only [Option.pure_def, Option.some.injEq, Prod.mk.injEq] at h
      obtain ⟨rfl, rfl, rfl⟩ := h
      obtain ⟨front, rfl, hmore⟩ := operandSize_front hsize
      have hlen : (pc'.take n).length = n := List.length_take_of_le (by omega)
      refine ⟨b :: (front ++ pc'.take n), ?_, fun more => ?_⟩
      · rw [List.cons_append, List.append_assoc, List.take_append_drop]
      · have hroom' : ¬ (pc'.take n ++ more).length < n := by
          rw [List.length_append, hlen]
          omega
        rw [List.cons_append, List.append_assoc]
        simp only [getOp2, if_pos hpush, hmore, Option.bind_eq_bind, Option.bind_some,
          if_neg hroom', List.take_left' hlen, List.drop_left' hlen, Option.pure_def]
    · simp only [Option.some.injEq, Prod.mk.injEq] at h
      obtain ⟨rfl, rfl, rfl⟩ := h
      refine ⟨[b], rfl, fun more => ?_⟩
      simp only [List.singleton_append, getOp2, if_neg hpush]

/-- The bytes that GetOp2 has gone past. -/
theorem getOp2_taken {opcode : ℕ} {data : List Byte} (h : getOp2 pc = some (opcode, data, rest)) :
    pc = pc.take (pc.length - rest.length) ++ rest ∧
      ∀ more, getOp2 (pc.take (pc.length - rest.length) ++ more) = some (opcode, data, more) := by
  obtain ⟨front, rfl, hmore⟩ := getOp2_front h
  have htake : (front ++ rest).take ((front ++ rest).length - rest.length) = front := by
    rw [List.length_append, Nat.add_sub_cancel, List.take_left]
  rw [htake]
  exact ⟨rfl, hmore⟩

/-- A data push is read back. -/
theorem getOp2_pushScript (data rest : List Byte) (h : data.length < 2 ^ 32) :
    ∃ opcode, getOp2 (pushScript data ++ rest) = some (opcode, data, rest) := by
  have hroom : ¬ (data ++ rest).length < data.length := by
    rw [List.length_append]
    omega
  have hread : ∀ n : ℕ, data.length < 256 ^ n →
      readLe n (leBytes n data.length ++ (data ++ rest)) = some (data.length, data ++ rest) :=
    fun n hn => readLe_leBytes n _ _ hn
  unfold pushScript
  by_cases h1 : data.length < OP_PUSHDATA1
  · have hnat : (BitVec.ofNat 8 data.length).toNat = data.length := by
      rw [BitVec.toNat_ofNat]
      simp only [OP_PUSHDATA1] at h1
      omega
    have hle : data.length ≤ OP_PUSHDATA4 := by
      simp only [OP_PUSHDATA1, OP_PUSHDATA4] at h1 ⊢
      omega
    refine ⟨data.length, ?_⟩
    rw [if_pos h1, List.append_assoc, List.singleton_append]
    simp only [getOp2, hnat, if_pos hle, operandSize, if_pos h1, Option.bind_eq_bind,
      Option.bind_some, if_neg hroom, List.take_left, List.drop_left, Option.pure_def]
  rw [if_neg h1]
  by_cases h2 : data.length ≤ 0xff
  · refine ⟨OP_PUSHDATA1, ?_⟩
    rw [if_pos h2, List.cons_append, List.cons_append, List.append_assoc]
    simp [getOp2, operandSize, OP_PUSHDATA1, OP_PUSHDATA4, hread 1 (by omega)]
  rw [if_neg h2]
  by_cases h3 : data.length ≤ 0xffff
  · refine ⟨OP_PUSHDATA2, ?_⟩
    rw [if_pos h3, List.cons_append, List.cons_append, List.append_assoc]
    simp [getOp2, operandSize, OP_PUSHDATA1, OP_PUSHDATA2, OP_PUSHDATA4, hread 2 (by omega)]
  · refine ⟨OP_PUSHDATA4, ?_⟩
    rw [if_neg h3, List.cons_append, List.cons_append, List.append_assoc]
    simp [getOp2, operandSize, OP_PUSHDATA1, OP_PUSHDATA2, OP_PUSHDATA4, hread 4 (by omega)]

end Fronts

/-- An opcode with its operand, and the bytes it stands in a script as. -/
structure Op where
  opcode : ℕ
  data : List Byte
  bytes : CScript
  reads : getOp2 bytes = some (opcode, data, [])
deriving DecidableEq

theorem Op.reads_append (op : Op) (more : CScript) :
    getOp2 (op.bytes ++ more) = some (op.opcode, op.data, more) := by
  obtain ⟨front, hbytes, hmore⟩ := getOp2_front op.reads
  rw [List.append_nil] at hbytes
  rw [hbytes]
  exact hmore more

theorem Op.bytes_ne_nil (op : Op) : op.bytes ≠ [] := by
  intro hnil
  have hreads := op.reads
  rw [hnil] at hreads
  cases hreads

/-- The opcode in front of a script, and the script behind it. -/
def readOp (pc : CScript) : Option (Op × CScript) :=
  match h : getOp2 pc with
  | none => none
  | some (opcode, data, rest) =>
      some (⟨opcode, data, pc.take (pc.length - rest.length),
        by simpa using (getOp2_taken h).2 []⟩, rest)

theorem readOp_none {pc : CScript} : readOp pc = none ↔ getOp2 pc = none := by
  unfold readOp
  split <;> simp_all

theorem readOp_append (op : Op) (rest : CScript) : readOp (op.bytes ++ rest) = some (op, rest) := by
  have hreads := op.reads_append rest
  unfold readOp
  split
  · rename_i hnone
    rw [hnone] at hreads
    cases hreads
  · rename_i opcode data rest' hsome
    rw [hsome] at hreads
    simp only [Option.some.injEq, Prod.mk.injEq] at hreads
    obtain ⟨rfl, rfl, rfl⟩ := hreads
    have htake : (op.bytes ++ rest').take ((op.bytes ++ rest').length - rest'.length) =
        op.bytes := by
      rw [List.length_append, Nat.add_sub_cancel, List.take_left]
    simp only [htake]

theorem readOp_some {pc rest : CScript} {op : Op} (h : readOp pc = some (op, rest)) :
    pc = op.bytes ++ rest := by
  unfold readOp at h
  split at h
  · cases h
  · rename_i hsome
    simp only [Option.some.injEq, Prod.mk.injEq] at h
    obtain ⟨rfl, rfl⟩ := h
    exact (getOp2_taken hsome).1

/-- Two opcodes with the same bytes are the same. -/
theorem Op.ext_bytes {op op' : Op} (h : op.bytes = op'.bytes) : op = op' := by
  have hfirst := readOp_append op []
  rw [h, readOp_append op' []] at hfirst
  simpa using hfirst.symm

def readOps : ℕ → CScript → List Op × CScript
  | 0, pc => ([], pc)
  | fuel + 1, pc =>
      match readOp pc with
      | none => ([], pc)
      | some (op, rest) =>
          let (ops, tail) := readOps fuel rest
          (op :: ops, tail)

/-- The opcodes of a script, and the tail that is not read. -/
def parse (s : CScript) : List Op × CScript := readOps s.length s

/-- The bytes of opcodes, one after another. -/
def written (ops : List Op) : CScript := ops.flatMap Op.bytes

@[simp] theorem written_nil : written [] = [] := rfl

@[simp] theorem written_cons (op : Op) (ops : List Op) :
    written (op :: ops) = op.bytes ++ written ops := rfl

theorem readOps_written (ops : List Op) {tail : CScript} (htail : getOp2 tail = none) (k : ℕ) :
    readOps ((written ops ++ tail).length + k) (written ops ++ tail) = (ops, tail) := by
  induction ops generalizing k with
  | nil =>
    rw [written_nil, List.nil_append]
    cases hfuel : tail.length + k with
    | zero => rfl
    | succ fuel => rw [readOps, readOp_none.mpr htail]
  | cons op ops ih =>
    obtain ⟨n, hn⟩ : ∃ n, op.bytes.length = n + 1 :=
      Nat.exists_eq_succ_of_ne_zero (by simpa using op.bytes_ne_nil)
    rw [written_cons, List.append_assoc, List.length_append]
    have hfuel : op.bytes.length + (written ops ++ tail).length + k =
        (written ops ++ tail).length + (n + k) + 1 := by omega
    rw [hfuel, readOps, readOp_append]
    dsimp only
    rw [ih]

/-- The one way to take a script apart. -/
theorem parse_written (ops : List Op) {tail : CScript} (htail : getOp2 tail = none) :
    parse (written ops ++ tail) = (ops, tail) := readOps_written ops htail 0

theorem exists_parse (s : CScript) :
    ∃ ops tail, s = written ops ++ tail ∧ getOp2 tail = none := by
  generalize hn : s.length = n
  induction n using Nat.strong_induction_on generalizing s with
  | _ n ih =>
    cases hop : readOp s with
    | none => exact ⟨[], s, rfl, readOp_none.mp hop⟩
    | some r =>
      obtain ⟨op, rest⟩ := r
      have hs := readOp_some hop
      have hshort : rest.length < n := by
        have hpos := List.length_pos_iff.mpr op.bytes_ne_nil
        rw [← hn, hs, List.length_append]
        omega
      obtain ⟨ops, tail, hrest, htail⟩ := ih _ hshort rest rfl
      exact ⟨op :: ops, tail, by rw [hs, hrest, written_cons, List.append_assoc], htail⟩

theorem parse_spec (s : CScript) :
    s = written (parse s).1 ++ (parse s).2 ∧ getOp2 (parse s).2 = none := by
  obtain ⟨ops, tail, hs, htail⟩ := exists_parse s
  rw [hs, parse_written ops htail]
  exact ⟨rfl, htail⟩

theorem parse_append (op : Op) (rest : CScript) :
    parse (op.bytes ++ rest) = (op :: (parse rest).1, (parse rest).2) := by
  obtain ⟨ops, tail, rfl, htail⟩ := exists_parse rest
  rw [← List.append_assoc, ← written_cons, parse_written _ htail, parse_written _ htail]

theorem parse_of_none {s : CScript} (h : getOp2 s = none) : parse s = ([], s) := by
  have hparse := parse_written [] h
  rwa [written_nil, List.nil_append] at hparse

section Opcodes

/-- The opcodes with their operands, of a script that is read to its end. -/
def opcodes (s : CScript) : Option (List (ℕ × List Byte)) :=
  if (parse s).2 = [] then some ((parse s).1.map fun op => (op.opcode, op.data)) else none

@[simp] theorem opcodes_nil : opcodes [] = some [] := rfl

theorem opcodes_of_none {s : CScript} (h : getOp2 s = none) (hne : s ≠ []) : opcodes s = none := by
  rw [opcodes, parse_of_none h, if_neg hne]

theorem opcodes_of_some {s rest : CScript} {opcode : ℕ} {data : List Byte}
    (h : getOp2 s = some (opcode, data, rest)) :
    opcodes s = (opcodes rest).map ((opcode, data) :: ·) := by
  obtain ⟨front, rfl, hmore⟩ := getOp2_front h
  obtain ⟨op, rfl, rfl, rfl⟩ :
      ∃ op : Op, op.opcode = opcode ∧ op.data = data ∧ op.bytes = front :=
    ⟨⟨opcode, data, front, by simpa using hmore []⟩, rfl, rfl, rfl⟩
  unfold opcodes
  rw [parse_append]
  split_ifs
  · rfl
  · rfl

theorem opcodes_eq_nil {s : CScript} : opcodes s = some [] ↔ s = [] := by
  constructor
  · intro h
    cases hop : getOp2 s with
    | none =>
      by_contra hne
      rw [opcodes_of_none hop hne] at h
      cases h
    | some r =>
      obtain ⟨opcode, data, rest⟩ := r
      rw [opcodes_of_some hop] at h
      simp at h
  · rintro rfl
    rfl

theorem opcodes_eq_cons {s : CScript} {opcode : ℕ} {data : List Byte}
    {l : List (ℕ × List Byte)} :
    opcodes s = some ((opcode, data) :: l) ↔
      ∃ rest, getOp2 s = some (opcode, data, rest) ∧ opcodes rest = some l := by
  constructor
  · intro h
    cases hop : getOp2 s with
    | none =>
      have hne : s ≠ [] := by
        rintro rfl
        simp at h
      rw [opcodes_of_none hop hne] at h
      cases h
    | some r =>
      obtain ⟨opcode', data', rest⟩ := r
      rw [opcodes_of_some hop, Option.map_eq_some_iff] at h
      obtain ⟨l', hl', heq⟩ := h
      simp only [List.cons.injEq, Prod.mk.injEq] at heq
      obtain ⟨⟨rfl, rfl⟩, rfl⟩ := heq
      exact ⟨rest, rfl, hl'⟩
  · rintro ⟨rest, hop, hrest⟩
    rw [opcodes_of_some hop, hrest]
    rfl

/-- An opcode without an operand. -/
theorem getOp2_opcode {n : ℕ} (rest : CScript) (hlow : OP_PUSHDATA4 < n) (hhigh : n < 256) :
    getOp2 (BitVec.ofNat 8 n :: rest) = some (n, [], rest) := by
  have hnat : (BitVec.ofNat 8 n).toNat = n := by
    rw [BitVec.toNat_ofNat]
    omega
  simp only [getOp2, hnat, if_neg (Nat.not_le.mpr hlow)]

/-- A push whose size stands in the opcode. -/
theorem getOp2_push {data : List Byte} (rest : CScript) (h : data.length < OP_PUSHDATA1) :
    getOp2 (BitVec.ofNat 8 data.length :: (data ++ rest)) = some (data.length, data, rest) := by
  have hnat : (BitVec.ofNat 8 data.length).toNat = data.length := by
    rw [BitVec.toNat_ofNat]
    simp only [OP_PUSHDATA1] at h
    omega
  have hle : data.length ≤ OP_PUSHDATA4 := by
    simp only [OP_PUSHDATA1, OP_PUSHDATA4] at h ⊢
    omega
  have hroom : ¬ (data ++ rest).length < data.length := by
    rw [List.length_append]
    omega
  simp only [getOp2, hnat, if_pos hle, operandSize, if_pos h, Option.bind_eq_bind,
    Option.bind_some, if_neg hroom, List.take_left, List.drop_left, Option.pure_def]

theorem getOp2_eq_opcode {s rest : CScript} {n : ℕ} {data : List Byte} (hlow : OP_PUSHDATA4 < n)
    (h : getOp2 s = some (n, data, rest)) : s = BitVec.ofNat 8 n :: rest ∧ data = [] := by
  cases s with
  | nil => cases h
  | cons b s =>
    simp only [getOp2] at h
    split_ifs at h with hpush
    · simp only [Option.bind_eq_bind, Option.bind_eq_some_iff] at h
      obtain ⟨⟨nSize, pc⟩, hsize, h⟩ := h
      dsimp only at h
      split_ifs at h
      simp only [Option.pure_def, Option.some.injEq, Prod.mk.injEq] at h
      omega
    · simp only [Option.some.injEq, Prod.mk.injEq] at h
      obtain ⟨rfl, rfl, rfl⟩ := h
      exact ⟨by rw [BitVec.ofNat_toNat, BitVec.setWidth_eq], rfl⟩

theorem getOp2_eq_push {s rest : CScript} {n : ℕ} {data : List Byte} (h : n < OP_PUSHDATA1)
    (hop : getOp2 s = some (n, data, rest)) :
    s = BitVec.ofNat 8 n :: (data ++ rest) ∧ data.length = n := by
  cases s with
  | nil => cases hop
  | cons b s =>
    simp only [OP_PUSHDATA1] at h
    simp only [getOp2] at hop
    split_ifs at hop with hpush
    · simp only [Option.bind_eq_bind, Option.bind_eq_some_iff] at hop
      obtain ⟨⟨nSize, pc⟩, hsize, hop⟩ := hop
      dsimp only at hop
      split_ifs at hop with hroom
      simp only [Option.pure_def, Option.some.injEq, Prod.mk.injEq] at hop
      obtain ⟨rfl, rfl, rfl⟩ := hop
      rw [operandSize, if_pos (by simp only [OP_PUSHDATA1]; omega)] at hsize
      simp only [Option.some.injEq, Prod.mk.injEq] at hsize
      obtain ⟨rfl, rfl⟩ := hsize
      refine ⟨?_, List.length_take_of_le (by omega)⟩
      rw [List.take_append_drop, BitVec.ofNat_toNat, BitVec.setWidth_eq]
    · simp only [Option.some.injEq, Prod.mk.injEq] at hop
      simp only [OP_PUSHDATA4] at hpush
      omega

end Opcodes

end UmbrellaLtc.ScriptOps
