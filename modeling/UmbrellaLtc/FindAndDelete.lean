import UmbrellaLtc.ScriptOps

/-!
CScript::FindAndDelete of one opcode. The loop compares bytes, but only where an opcode begins,
and there the bytes of an opcode are a prefix of the script just where that opcode stands.
-/

namespace UmbrellaLtc.FindAndDelete

open Codec Transaction Script SignatureHash ScriptOps

variable (op : Op)

theorem isPrefixOf_written (ops : List Op) {tail : CScript} (htail : getOp2 tail = none) :
    op.bytes.isPrefixOf (written ops ++ tail) = true ↔ ops.head? = some op := by
  rw [List.isPrefixOf_iff_prefix]
  constructor
  · rintro ⟨rest, hrest⟩
    have hop := readOp_append op rest
    rw [hrest] at hop
    cases ops with
    | nil => rw [written_nil, List.nil_append, readOp_none.mpr htail] at hop; cases hop
    | cons op' ops =>
      rw [written_cons, List.append_assoc, readOp_append] at hop
      simp only [Option.some.injEq, Prod.mk.injEq] at hop
      rw [List.head?_cons, hop.1]
  · intro hhead
    obtain ⟨ops', rfl⟩ := List.head?_eq_some_iff.mp hhead
    exact ⟨written ops' ++ tail, by rw [written_cons, List.append_assoc]⟩

/-- The inner loop takes away all copies of the opcode that follow at once. -/
theorem eraseFront_written (ops : List Op) {tail : CScript} (htail : getOp2 tail = none)
    {fuel : ℕ} (hfuel : (written ops ++ tail).length ≤ fuel) :
    eraseFront op.bytes fuel (written ops ++ tail) =
      ((ops.takeWhile (· = op)).length, written (ops.dropWhile (· = op)) ++ tail) := by
  induction ops generalizing fuel with
  | nil =>
    have hnot : ¬ op.bytes.isPrefixOf (written [] ++ tail) = true := by
      rw [isPrefixOf_written op [] htail]
      simp
    cases fuel with
    | zero => rfl
    | succ fuel => rw [eraseFront, if_neg hnot]; rfl
  | cons op' ops ih =>
    have hpos := List.length_pos_iff.mpr op'.bytes_ne_nil
    rw [written_cons, List.append_assoc, List.length_append] at hfuel
    obtain ⟨n, rfl⟩ : ∃ n, fuel = n + 1 := ⟨fuel - 1, by omega⟩
    by_cases hsame : op' = op
    · subst hsame
      have hprefix : op'.bytes.isPrefixOf (written (op' :: ops) ++ tail) = true := by
        rw [isPrefixOf_written op' _ htail, List.head?_cons]
      rw [eraseFront, if_pos hprefix, written_cons, List.append_assoc, List.drop_left,
        ih (by omega)]
      simp
    · have hnot : ¬ op.bytes.isPrefixOf (written (op' :: ops) ++ tail) = true := by
        rw [isPrefixOf_written op _ htail]
        simp [hsame]
      rw [eraseFront, if_neg hnot]
      simp [hsame]

theorem count_eq_takeWhile (ops : List Op) :
    ops.count op = (ops.takeWhile (· = op)).length + (ops.dropWhile (· = op)).count op := by
  induction ops with
  | nil => rfl
  | cons op' ops ih =>
    by_cases hsame : op' = op
    · simp only [hsame, List.count_cons_self, decide_true, List.takeWhile_cons_of_pos,
        List.dropWhile_cons_of_pos, List.length_cons, ih]
      omega
    · simp [hsame]

theorem filter_dropWhile (ops : List Op) :
    (ops.dropWhile (· = op)).filter (· ≠ op) = ops.filter (· ≠ op) := by
  induction ops with
  | nil => rfl
  | cons op' ops ih =>
    by_cases hsame : op' = op
    · rw [List.dropWhile_cons_of_pos (by simp [hsame]), ih,
        List.filter_cons_of_neg (by simp [hsame])]
    · rw [List.dropWhile_cons_of_neg (by simp [hsame])]

/-- The loop from an opcode boundary on, with fuel for each opcode. -/
theorem deleteFrom_written (ops : List Op) {tail : CScript} (htail : getOp2 tail = none)
    {fuel : ℕ} (hfuel : ops.length < fuel) :
    deleteFrom op.bytes fuel (written ops ++ tail) =
      (ops.count op, written (ops.filter (· ≠ op)) ++ tail) := by
  induction fuel generalizing ops with
  | zero => omega
  | succ fuel ih =>
    have hlen := (ops.dropWhile_suffix (· = op)).length_le
    rw [count_eq_takeWhile, ← filter_dropWhile, deleteFrom,
      eraseFront_written op ops htail (le_refl _)]
    dsimp only
    cases hdrop : ops.dropWhile (· = op) with
    | nil =>
      rw [written_nil, List.nil_append, htail]
      rfl
    | cons op' rest =>
      have hother : op' ≠ op := by
        have hhead := List.head?_dropWhile_not (p := (· = op)) ops
        rw [hdrop] at hhead
        simpa using hhead
      rw [hdrop, List.length_cons] at hlen
      have htake : (op'.bytes ++ (written rest ++ tail)).take
          ((op'.bytes ++ (written rest ++ tail)).length - (written rest ++ tail).length) =
          op'.bytes := by
        rw [List.length_append, Nat.add_sub_cancel, List.take_left]
      rw [written_cons, List.append_assoc, op'.reads_append]
      dsimp only
      rw [ih rest (by omega), htake]
      simp [hother]

theorem length_le_written (ops : List Op) (tail : CScript) :
    ops.length ≤ (written ops ++ tail).length := by
  induction ops with
  | nil => exact Nat.zero_le _
  | cons op ops ih =>
    have hpos := List.length_pos_iff.mpr op.bytes_ne_nil
    rw [written_cons, List.append_assoc, List.length_append, List.length_cons]
    omega

theorem length_filter_written (ops : List Op) (tail : CScript) :
    ops.count op * op.bytes.length + (written (ops.filter (· ≠ op)) ++ tail).length =
      (written ops ++ tail).length := by
  induction ops with
  | nil => simp
  | cons op' ops ih =>
    rw [List.length_append] at ih
    by_cases hsame : op' = op
    · subst hsame
      rw [List.count_cons_self, List.filter_cons_of_neg (by simp)]
      simp only [written_cons, List.length_append, Nat.add_mul] at ih ⊢
      omega
    · rw [List.count_cons_of_ne hsame, List.filter_cons_of_pos (by simp [hsame])]
      simp only [written_cons, List.length_append] at ih ⊢
      omega

theorem findAndDelete_written (ops : List Op) {tail : CScript} (htail : getOp2 tail = none) :
    findAndDelete (written ops ++ tail) op.bytes =
      (ops.count op, written (ops.filter (· ≠ op)) ++ tail) := by
  have hne : ¬ op.bytes.isEmpty = true := by
    rw [List.isEmpty_iff]
    exact op.bytes_ne_nil
  rw [findAndDelete, if_neg hne]
  exact deleteFrom_written op ops htail (Nat.lt_succ_of_le (length_le_written ops tail))

/-- Fuel past the length of the script is not used. -/
theorem deleteFrom_fuel (s : CScript) (k : ℕ) :
    deleteFrom op.bytes (s.length + 1 + k) s = deleteFrom op.bytes (s.length + 1) s := by
  obtain ⟨ops, tail, rfl, htail⟩ := exists_parse s
  have hlen := length_le_written ops tail
  rw [deleteFrom_written op ops htail (by omega), deleteFrom_written op ops htail (by omega)]

theorem eraseFront_fuel (pc : CScript) (k : ℕ) :
    eraseFront op.bytes (pc.length + k) pc = eraseFront op.bytes pc.length pc := by
  obtain ⟨ops, tail, rfl, htail⟩ := exists_parse pc
  rw [eraseFront_written op ops htail (Nat.le_add_right _ _),
    eraseFront_written op ops htail (le_refl _)]

/-- Just the opcodes that stand in the script as `b` are removed and counted. The other opcodes
and the tail stay as they are, so that nothing is left for a second call. -/
theorem findAndDelete_exact {s b : CScript} {opcode : ℕ} {data : List Byte}
    (hb : getOp2 b = some (opcode, data, [])) :
    (s = written (parse s).1 ++ (parse s).2 ∧ getOp2 (parse s).2 = none) ∧
      findAndDelete s b = (((parse s).1.filter (·.bytes = b)).length,
        written ((parse s).1.filter (·.bytes ≠ b)) ++ (parse s).2) ∧
      (findAndDelete s b).1 * b.length + (findAndDelete s b).2.length = s.length ∧
      parse (findAndDelete s b).2 = ((parse s).1.filter (·.bytes ≠ b), (parse s).2) ∧
      findAndDelete (findAndDelete s b).2 b = (0, (findAndDelete s b).2) ∧
      (∀ k, deleteFrom b (s.length + 1 + k) s = deleteFrom b (s.length + 1) s) ∧
      ∀ pc k, eraseFront b (pc.length + k) pc = eraseFront b pc.length pc := by
  obtain ⟨op, rfl⟩ : ∃ op : Op, op.bytes = b := ⟨⟨opcode, data, b, hb⟩, rfl⟩
  obtain ⟨ops, tail, rfl, htail⟩ := exists_parse s
  have hsame : ∀ op' : Op, op'.bytes = op.bytes ↔ op' = op :=
    fun op' => ⟨Op.ext_bytes, fun h => by rw [h]⟩
  have hleft : op ∉ ops.filter (· ≠ op) := by simp
  have hfind := findAndDelete_written op ops htail
  have hcount : (ops.filter (· = op)).length = ops.count op := by
    rw [List.count_eq_length_filter]
    rfl
  rw [parse_written ops htail]
  simp only [hsame, ne_eq, hcount]
  refine ⟨⟨trivial, htail⟩, hfind, ?_, ?_, ?_, deleteFrom_fuel op _, eraseFront_fuel op⟩
  · rw [hfind]
    exact length_filter_written op ops tail
  · rw [hfind]
    exact parse_written _ htail
  · rw [hfind]
    dsimp only
    rw [findAndDelete_written op _ htail, List.count_eq_zero_of_not_mem hleft]
    simp only [ne_eq, List.filter_filter, Bool.and_self]

/-- A separator in an operand and one in the tail are none. -/
theorem findAndDelete_exact_separators :
    findAndDelete [0xab, 0x01, 0xab, 0xab, 0xab, 0x02, 0xab] [0xab] =
        (3, [0x01, 0xab, 0x02, 0xab]) ∧
      findAndDelete [0x01, 0xab, 0x02, 0xab] [0xab] = (0, [0x01, 0xab, 0x02, 0xab]) := by
  have hfirst : findAndDelete [0xab, 0x01, 0xab, 0xab, 0xab, 0x02, 0xab] [0xab] =
      (3, [0x01, 0xab, 0x02, 0xab]) := by decide
  have hsecond := (findAndDelete_exact (s := [0xab, 0x01, 0xab, 0xab, 0xab, 0x02, 0xab])
    (by decide : getOp2 [0xab] = some (OP_CODESEPARATOR, [], []))).2.2.2.2.1
  rw [hfirst] at hsecond
  exact ⟨hfirst, hsecond⟩

end UmbrellaLtc.FindAndDelete
