import UmbrellaLtc.ScriptOps
import UmbrellaLtc.KeyStore
import UmbrellaLtc.MergedMining

/-!
Solver, ExtractDestination and ExtractDestinations of script.cpp, and the scripts that
SetDestination and SetMultisig make. A script and a template are read side by side; the keys of
a multisig script are read by a loop of their own. An access outside of the solutions is `none`.
-/

namespace UmbrellaLtc.Solver

open Codec Transaction Script EvalScript KeyStore MergedMining ScriptOps

section Templates

def OP_SMALLINTEGER : ℕ := 0xfa
def OP_PUBKEYS : ℕ := 0xfb
def OP_PUBKEYHASH : ℕ := 0xfd
def OP_PUBKEY : ℕ := 0xfe

inductive TxnOutType where
  | nonstandard
  | pubkey
  | pubkeyhash
  | scripthash
  | multisig
deriving DecidableEq

/-- A script of opcodes without operands. -/
def opcodeScript (opcodes : List ℕ) : CScript := opcodes.map (BitVec.ofNat 8)

/-- mTemplates, in the order of its keys. -/
def mTemplates : List (TxnOutType × CScript) :=
  [(.pubkey, opcodeScript [OP_PUBKEY, OP_CHECKSIG]),
    (.pubkeyhash, opcodeScript [OP_DUP, OP_HASH160, OP_PUBKEYHASH, OP_EQUALVERIFY, OP_CHECKSIG]),
    (.multisig, opcodeScript [OP_SMALLINTEGER, OP_PUBKEYS, OP_SMALLINTEGER, OP_CHECKMULTISIG])]

end Templates

section Matching

/-- `vch1.size() >= 33 && vch1.size() <= 120`. -/
def keySized (vch : Valtype) : Bool := 33 ≤ vch.length && vch.length ≤ 120

def isSmallInteger (opcode : ℕ) : Bool := opcode == OP_0 || (OP_1 ≤ opcode && opcode ≤ OP_16)

/-- CScript::DecodeOP_N of an opcode that passes its assertion. -/
def decodeOP_N (opcode : ℕ) : ℕ := if opcode = OP_0 then 0 else opcode - (OP_1 - 1)

/-- What GetOp has read last of the script, and the solutions so far. -/
structure Cursor where
  opcode1 : ℕ
  vch1 : Valtype
  pc1 : CScript
  vSolutionsRet : List Valtype

/-- The loop over the keys, which ends at the first opcode that is no key, or where GetOp fails. -/
def readKeys : ℕ → Cursor → Cursor
  | 0, c => c
  | fuel + 1, c =>
      if keySized c.vch1 then
        let (opcode1, vch1, pc1) := getOp c.pc1
        let next : Cursor := ⟨opcode1, vch1, pc1, c.vSolutionsRet ++ [c.vch1]⟩
        if (getOp2 c.pc1).isNone then next else readKeys fuel next
      else c

/-- The tests on one opcode of the script against one of the template: the solutions, or a
break. -/
def matchOne (opcode2 : ℕ) (vch2 : Valtype) (c : Cursor) : Option (List Valtype) :=
  if opcode2 = OP_PUBKEY then
    if keySized c.vch1 then some (c.vSolutionsRet ++ [c.vch1]) else none
  else if opcode2 = OP_PUBKEYHASH then
    if c.vch1.length ≠ 20 then none else some (c.vSolutionsRet ++ [c.vch1])
  else if opcode2 = OP_SMALLINTEGER then
    if isSmallInteger c.opcode1 then
      some (c.vSolutionsRet ++ [[BitVec.ofNat 8 (decodeOP_N c.opcode1)]])
    else none
  else if c.opcode1 ≠ opcode2 ∨ c.vch1 ≠ vch2 then none
  else some c.vSolutionsRet

/-- The comparison of a script with a template: the solutions where both end together, none
where the loop breaks. -/
def compareTemplate : ℕ → CScript → CScript → List Valtype → Option (List Valtype)
  | 0, _, _, _ => none
  | fuel + 1, pc1, pc2, vSolutionsRet =>
      if pc1 = [] ∧ pc2 = [] then some vSolutionsRet
      else do
        let (opcode1, vch1, pc1) ← getOp2 pc1
        let (opcode2, vch2, pc2) ← getOp2 pc2
        let c : Cursor := ⟨opcode1, vch1, pc1, vSolutionsRet⟩
        if opcode2 = OP_PUBKEYS then
          let c := readKeys (pc1.length + 1) c
          let (opcode2, vch2, pc2) ← getOp2 pc2
          let vSolutionsRet ← matchOne opcode2 vch2 c
          compareTemplate fuel c.pc1 pc2 vSolutionsRet
        else
          let vSolutionsRet ← matchOne opcode2 vch2 c
          compareTemplate fuel pc1 pc2 vSolutionsRet

/-- What Solver returns: its answer, typeRet and vSolutionsRet. -/
abbrev Solved := Bool × TxnOutType × List Valtype

/-- The additional checks for TX_MULTISIG; `none` where front() or back() do not exist, or have
no first byte. -/
def checkMultisig (vSolutionsRet : List Valtype) : Option Solved := do
  let front ← vSolutionsRet.head?
  let back ← vSolutionsRet.getLast?
  let m ← front[0]?
  let n ← back[0]?
  if m < 1 ∨ n < 1 ∨ n < m ∨ vSolutionsRet.length - 2 ≠ n.toNat then
    return (false, .multisig, vSolutionsRet)
  else return (true, .multisig, vSolutionsRet)

def scanTemplates (scriptPubKey : CScript) : List (TxnOutType × CScript) → Option Solved
  | [] => some (false, .nonstandard, [])
  | (typeRet, script2) :: templates =>
      match compareTemplate (script2.length + 1) scriptPubKey script2 [] with
      | none => scanTemplates scriptPubKey templates
      | some vSolutionsRet =>
          if typeRet = .multisig then checkMultisig vSolutionsRet
          else some (true, typeRet, vSolutionsRet)

/-- Solver. The solutions of a script hash come behind those that the caller has passed. -/
def solver (scriptPubKey : CScript) (vSolutionsRet : List Valtype) : Option Solved :=
  if isPayToScriptHash scriptPubKey then
    some (true, .scripthash, vSolutionsRet ++ [(scriptPubKey.drop 2).take 20])
  else scanTemplates scriptPubKey mTemplates

end Matching

section Destinations

abbrev CScriptID := BitVec 160

inductive CTxDestination where
  | noDestination
  | keyID (id : CKeyID)
  | scriptID (id : CScriptID)
deriving DecidableEq

/-- uint160 of a vector. -/
def uint160 (vch : Valtype) : BitVec 160 :=
  if vch.length = 20 then BitVec.ofNat 160 (ofLeBytes vch) else 0

variable (crypto : Crypto)

/-- ExtractDestination: addressRet, where it returns true. The outer `none` is an access outside
of the solutions. -/
def extractDestination (scriptPubKey : CScript) : Option (Option CTxDestination) := do
  let (fRet, whichType, vSolutions) ← solver scriptPubKey []
  if !fRet then return none
  else match whichType with
    | .pubkey => return some (.keyID ((CPubKey.set (← vSolutions[0]?)).getID crypto))
    | .pubkeyhash => return some (.keyID (uint160 (← vSolutions[0]?)))
    | .scripthash => return some (.scriptID (uint160 (← vSolutions[0]?)))
    | _ => return none

/-- ExtractDestinations: its answer, typeRet, addressRet and nRequiredRet, which may keep the
value that it has. -/
def extractDestinations (scriptPubKey : CScript) (nRequiredRet : ℤ) :
    Option (Bool × TxnOutType × List CTxDestination × ℤ) := do
  let (fRet, typeRet, vSolutions) ← solver scriptPubKey []
  if !fRet then return (false, typeRet, [], nRequiredRet)
  else if typeRet = .multisig then
    let m ← (← vSolutions.head?)[0]?
    let keys := (vSolutions.drop 1).take (vSolutions.length - 1 - 1)
    return (true, typeRet, keys.map fun vch => .keyID ((CPubKey.set vch).getID crypto), m.toNat)
  else match ← extractDestination crypto scriptPubKey with
    | none => return (false, typeRet, [], 1)
    | some address => return (true, typeRet, [address], 1)

/-- `operator<<` of a uint160. -/
def pushUint160 (b : BitVec 160) : CScript := BitVec.ofNat 8 20 :: leBytes 20 b.toNat

/-- CScript::SetDestination. -/
def setDestination : CTxDestination → CScript
  | .noDestination => []
  | .keyID keyID =>
      opcodeScript [OP_DUP, OP_HASH160] ++ pushUint160 keyID ++
        opcodeScript [OP_EQUALVERIFY, OP_CHECKSIG]
  | .scriptID scriptID => opcodeScript [OP_HASH160] ++ pushUint160 scriptID ++ opcodeScript [OP_EQUAL]

/-- CScript::EncodeOP_N; none where its assertion fails. -/
def encodeOP_N (n : ℤ) : Option ℕ :=
  if 0 ≤ n ∧ n ≤ 16 then some (if n = 0 then OP_0 else OP_1 + n.toNat - 1) else none

/-- `operator<<` of a CPubKey; none where its assertion fails. -/
def pushKey (key : CPubKey) : Option CScript :=
  if key.vch.length < OP_PUSHDATA1 then some (BitVec.ofNat 8 key.vch.length :: key.vch) else none

/-- CScript::SetMultisig. -/
def setMultisig (nRequired : ℤ) (keys : List CPubKey) : Option CScript := do
  let m ← encodeOP_N nRequired
  let pushed ← keys.mapM pushKey
  let n ← encodeOP_N keys.length
  return opcodeScript [m] ++ pushed.flatten ++ opcodeScript [n, OP_CHECKMULTISIG]

end Destinations

/-! What the templates match, as opcodes with their operands. -/

section Comparing

variable {fuel : ℕ} {pc2 : CScript} {sols : List Valtype}

/-- From `pc2` on, with the solutions so far, the template matches the opcodes `l` and leaves the
solutions `r` just where `Q l r`. -/
def Matches (fuel : ℕ) (pc2 : CScript) (sols : List Valtype)
    (Q : List (ℕ × Valtype) → List Valtype → Prop) : Prop :=
  ∀ s r, compareTemplate fuel s pc2 sols = some r ↔ ∃ l, opcodes s = some l ∧ Q l r

theorem Matches.nil : Matches (fuel + 1) [] sols fun l r => l = [] ∧ r = sols := by
  intro s r
  have hnil : (∃ l, opcodes s = some l ∧ l = [] ∧ r = sols) ↔ s = [] ∧ sols = r := by
    rw [← opcodes_eq_nil]
    constructor
    · rintro ⟨l, hl, rfl, rfl⟩
      exact ⟨hl, rfl⟩
    · rintro ⟨hl, rfl⟩
      exact ⟨[], hl, rfl, rfl⟩
  rw [hnil, compareTemplate]
  by_cases hs : s = []
  · simp [hs]
  · rw [if_neg (by simp [hs])]
    cases hop : getOp2 s with
    | none => simp [hs]
    | some op => simp [hs, getOp2]

theorem getOp2_opcodes {s pc1 : CScript} {opcode1 : ℕ} {vch1 : Valtype} {l : List (ℕ × Valtype)}
    (hop : getOp2 s = some (opcode1, vch1, pc1)) :
    opcodes s = some l ↔ ∃ l', opcodes pc1 = some l' ∧ l = (opcode1, vch1) :: l' := by
  rw [opcodes_of_some hop, Option.map_eq_some_iff]
  constructor
  · rintro ⟨l', hl', rfl⟩
    exact ⟨l', hl', rfl⟩
  · rintro ⟨l', hl', rfl⟩
    exact ⟨l', hl', rfl⟩

/-- A round of the loop, but for the keys: the opcodes that pass the tests, and the solutions
afterwards. -/
theorem Matches.one {opcode2 : ℕ} (hlow : OP_PUSHDATA4 < opcode2) (hhigh : opcode2 < 256)
    (hkeys : opcode2 ≠ OP_PUBKEYS) {T : ℕ → Valtype → Prop} {f : ℕ → Valtype → List Valtype}
    {Q : ℕ → Valtype → List (ℕ × Valtype) → List Valtype → Prop}
    (htest : ∀ s opcode1 vch1 pc1 sols', getOp2 s = some (opcode1, vch1, pc1) →
      (matchOne opcode2 [] ⟨opcode1, vch1, pc1, sols⟩ = some sols' ↔
        T opcode1 vch1 ∧ sols' = f opcode1 vch1))
    (h : ∀ opcode1 vch1, Matches fuel pc2 (f opcode1 vch1) (Q opcode1 vch1)) :
    Matches (fuel + 1) (BitVec.ofNat 8 opcode2 :: pc2) sols fun l r =>
      ∃ opcode1 vch1 l', T opcode1 vch1 ∧ l = (opcode1, vch1) :: l' ∧ Q opcode1 vch1 l' r := by
  intro s r
  rw [compareTemplate, if_neg (by simp), getOp2_opcode pc2 hlow hhigh]
  cases hop : getOp2 s with
  | none =>
    simp only [Option.bind_eq_bind, Option.bind_none, reduceCtorEq, false_iff, not_exists]
    rintro l ⟨hl, opcode1, vch1, l', -, rfl, -⟩
    obtain ⟨rest, hrest, -⟩ := opcodes_eq_cons.mp hl
    rw [hop] at hrest
    cases hrest
  | some op =>
    obtain ⟨opcode1, vch1, pc1⟩ := op
    simp only [Option.bind_eq_bind, Option.bind_some, if_neg hkeys, Option.bind_eq_some_iff]
    constructor
    · rintro ⟨sols', hmatch, hrest⟩
      obtain ⟨hT, rfl⟩ := (htest s _ _ _ _ hop).mp hmatch
      obtain ⟨l', hl', hQ⟩ := (h opcode1 vch1 pc1 r).mp hrest
      exact ⟨_, (getOp2_opcodes hop).mpr ⟨l', hl', rfl⟩, opcode1, vch1, l', hT, rfl, hQ⟩
    · rintro ⟨l, hl, opcode1', vch1', l', hT, rfl, hQ⟩
      obtain ⟨l'', hl'', heq⟩ := (getOp2_opcodes hop).mp hl
      simp only [List.cons.injEq, Prod.mk.injEq] at heq
      obtain ⟨⟨rfl, rfl⟩, rfl⟩ := heq
      exact ⟨_, (htest s _ _ _ _ hop).mpr ⟨hT, rfl⟩, (h _ _ pc1 r).mpr ⟨_, hl'', hQ⟩⟩

/-- An opcode that has to be there as it is. -/
theorem Matches.same {opcode2 : ℕ} (hlow : OP_PUSHDATA4 < opcode2)
    (hhigh : opcode2 < OP_SMALLINTEGER) {Q : List (ℕ × Valtype) → List Valtype → Prop}
    (h : Matches fuel pc2 sols Q) :
    Matches (fuel + 1) (BitVec.ofNat 8 opcode2 :: pc2) sols fun l r =>
      ∃ opcode1 vch1 l', (opcode1 = opcode2 ∧ vch1 = []) ∧ l = (opcode1, vch1) :: l' ∧ Q l' r := by
  simp only [OP_SMALLINTEGER] at hhigh
  refine Matches.one hlow (by omega) (by simp only [OP_PUBKEYS]; omega)
    (f := fun _ _ => sols) (fun s opcode1 vch1 pc1 sols' _ => ?_) fun _ _ => h
  unfold matchOne
  rw [if_neg (by simp only [OP_PUBKEY]; omega), if_neg (by simp only [OP_PUBKEYHASH]; omega),
    if_neg (by simp only [OP_SMALLINTEGER]; omega)]
  dsimp only
  split_ifs with hdiffer
  · simp only [false_iff, not_and]
    rintro ⟨hop, hvch⟩
    simp [hop, hvch] at hdiffer
  · simp only [not_or, not_not] at hdiffer
    simp [hdiffer.1, hdiffer.2, eq_comm]

theorem Matches.pubkey {Q : Valtype → List (ℕ × Valtype) → List Valtype → Prop}
    (h : ∀ k, Matches fuel pc2 (sols ++ [k]) (Q k)) :
    Matches (fuel + 1) (BitVec.ofNat 8 OP_PUBKEY :: pc2) sols fun l r =>
      ∃ c k l', keySized k = true ∧ l = (c, k) :: l' ∧ Q k l' r := by
  refine Matches.one (by decide) (by decide) (by decide) (f := fun _ k => sols ++ [k])
    (fun s opcode1 vch1 pc1 sols' _ => ?_) fun _ k => h k
  simp only [matchOne, if_true]
  split_ifs with hsized
  · simp [hsized, eq_comm]
  · simp [hsized]

theorem Matches.pubkeyhash {Q : Valtype → List (ℕ × Valtype) → List Valtype → Prop}
    (h : ∀ k, Matches fuel pc2 (sols ++ [k]) (Q k)) :
    Matches (fuel + 1) (BitVec.ofNat 8 OP_PUBKEYHASH :: pc2) sols fun l r =>
      ∃ c k l', k.length = 20 ∧ l = (c, k) :: l' ∧ Q k l' r := by
  refine Matches.one (by decide) (by decide) (by decide) (f := fun _ k => sols ++ [k])
    (fun s opcode1 vch1 pc1 sols' _ => ?_) fun _ k => h k
  have hne : ¬ OP_PUBKEYHASH = OP_PUBKEY := by decide
  simp only [matchOne, if_neg hne, if_true]
  split_ifs with hlen
  · simp [hlen]
  · simp [not_not.mp hlen, eq_comm]

theorem isSmallInteger_iff {opcode : ℕ} :
    isSmallInteger opcode = true ↔ opcode = OP_0 ∨ OP_1 ≤ opcode ∧ opcode ≤ OP_16 := by
  simp [isSmallInteger]

/-- A small integer has no operand. -/
theorem vch_of_smallInteger {s pc1 : CScript} {opcode1 : ℕ} {vch1 : Valtype}
    (hop : getOp2 s = some (opcode1, vch1, pc1)) (hsmall : isSmallInteger opcode1 = true) :
    vch1 = [] := by
  cases s with
  | nil => cases hop
  | cons b s =>
    simp only [getOp2] at hop
    split_ifs at hop with hpush
    · simp only [Option.bind_eq_bind, Option.bind_eq_some_iff] at hop
      obtain ⟨⟨n, pc⟩, hsize, hop⟩ := hop
      dsimp only at hop
      split_ifs at hop
      simp only [Option.pure_def, Option.some.injEq, Prod.mk.injEq] at hop
      obtain ⟨rfl, rfl, -⟩ := hop
      have hzero : b.toNat = 0 := by
        rw [isSmallInteger_iff] at hsmall
        simp only [OP_0, OP_1, OP_PUSHDATA4] at hsmall hpush
        omega
      rw [operandSize, if_pos (by rw [hzero]; decide)] at hsize
      simp only [Option.some.injEq, Prod.mk.injEq] at hsize
      rw [← hsize.1, hzero, List.take_zero]
    · simp only [Option.some.injEq, Prod.mk.injEq] at hop
      exact hop.2.1.symm

theorem matchOne_smallInteger {s pc1 : CScript} {opcode1 : ℕ} {vch1 : Valtype}
    {sols' : List Valtype} (hop : getOp2 s = some (opcode1, vch1, pc1)) :
    matchOne OP_SMALLINTEGER [] ⟨opcode1, vch1, pc1, sols⟩ = some sols' ↔
      (isSmallInteger opcode1 = true ∧ vch1 = []) ∧
        sols' = sols ++ [[BitVec.ofNat 8 (decodeOP_N opcode1)]] := by
  have hne₁ : ¬ OP_SMALLINTEGER = OP_PUBKEY := by decide
  have hne₂ : ¬ OP_SMALLINTEGER = OP_PUBKEYHASH := by decide
  simp only [matchOne, if_neg hne₁, if_neg hne₂, if_true]
  split_ifs with hsmall
  · simp [hsmall, vch_of_smallInteger hop hsmall, eq_comm]
  · simp [hsmall]

theorem Matches.smallInteger {Q : ℕ → List (ℕ × Valtype) → List Valtype → Prop}
    (h : ∀ opcode1, Matches fuel pc2 (sols ++ [[BitVec.ofNat 8 (decodeOP_N opcode1)]])
      (Q opcode1)) :
    Matches (fuel + 1) (BitVec.ofNat 8 OP_SMALLINTEGER :: pc2) sols fun l r =>
      ∃ opcode1 vch1 l', (isSmallInteger opcode1 = true ∧ vch1 = []) ∧
        l = (opcode1, vch1) :: l' ∧ Q opcode1 l' r :=
  Matches.one (by decide) (by decide) (by decide) (fun _ _ _ _ _ hop => matchOne_smallInteger hop)
    fun opcode1 _ => h opcode1

section Keys

/-- The keys of a multisig script, with the opcodes that push them. -/
def Keys (keys : List (ℕ × Valtype)) : Prop := ∀ key ∈ keys, keySized key.2 = true

/-- Where the loop over the keys stops at a small integer, it has read keys before it. -/
theorem readKeys_reads {fuel : ℕ} {s pc1 : CScript} {opcode1 : ℕ} {vch1 : Valtype}
    {sols : List Valtype} (hop : getOp2 s = some (opcode1, vch1, pc1)) (hfuel : pc1.length < fuel)
    (hsmall : isSmallInteger (readKeys fuel ⟨opcode1, vch1, pc1, sols⟩).opcode1 = true) :
    ∃ keys, Keys keys ∧
      (readKeys fuel ⟨opcode1, vch1, pc1, sols⟩).vSolutionsRet = sols ++ keys.map Prod.snd ∧
      ∀ l, opcodes (readKeys fuel ⟨opcode1, vch1, pc1, sols⟩).pc1 = some l →
        opcodes s = some (keys ++
          ((readKeys fuel ⟨opcode1, vch1, pc1, sols⟩).opcode1, []) :: l) := by
  induction fuel generalizing s pc1 opcode1 vch1 sols with
  | zero => omega
  | succ fuel ih =>
    rw [readKeys] at hsmall ⊢
    dsimp only at hsmall ⊢
    by_cases hsized : keySized vch1 = true
    · rw [if_pos hsized] at hsmall ⊢
      cases hnext : getOp2 pc1 with
      | none =>
        simp only [hnext, getOp, Option.isNone_none, if_true, Option.getD_none] at hsmall
        cases hsmall
      | some op =>
        obtain ⟨opcode1', vch1', pc1'⟩ := op
        have hshort := getOp2_shorter hnext
        simp only [hnext, getOp, Option.isNone_some, Bool.false_eq_true, if_false,
          Option.getD_some] at hsmall ⊢
        obtain ⟨keys, hkeys, hsols, hrest⟩ := ih hnext (by omega) hsmall
        refine ⟨(opcode1, vch1) :: keys, ?_, ?_, fun l hl => ?_⟩
        · exact List.forall_mem_cons.mpr ⟨hsized, hkeys⟩
        · rw [hsols, List.append_assoc]
          rfl
        · exact opcodes_eq_cons.mpr ⟨pc1, hop, hrest l hl⟩
    · rw [if_neg hsized] at hsmall ⊢
      have hvch := vch_of_smallInteger hop hsmall
      refine ⟨[], List.forall_mem_nil _, (List.append_nil _).symm, fun l hl => ?_⟩
      exact opcodes_eq_cons.mpr ⟨pc1, by rw [← hvch]; exact hop, hl⟩

/-- The loop over the keys stops behind them. -/
theorem readKeys_stops {fuel : ℕ} {s pc1 : CScript} {opcode1 b : ℕ} {vch1 : Valtype}
    {sols : List Valtype} {keys l : List (ℕ × Valtype)}
    (hop : getOp2 s = some (opcode1, vch1, pc1)) (hfuel : pc1.length < fuel) (hkeys : Keys keys)
    (hs : opcodes s = some (keys ++ (b, []) :: l)) :
    ∃ rest s', getOp2 s' = some (b, [], rest) ∧ opcodes rest = some l ∧
      readKeys fuel ⟨opcode1, vch1, pc1, sols⟩ = ⟨b, [], rest, sols ++ keys.map Prod.snd⟩ := by
  induction fuel generalizing s pc1 opcode1 vch1 sols keys with
  | zero => omega
  | succ fuel ih =>
    cases keys with
    | nil =>
      obtain ⟨rest, hop', hrest⟩ := opcodes_eq_cons.mp hs
      rw [hop] at hop'
      simp only [Option.some.injEq, Prod.mk.injEq] at hop'
      obtain ⟨rfl, rfl, rfl⟩ := hop'
      exact ⟨pc1, s, hop, hrest, by simp [readKeys, keySized]⟩
    | cons key keys =>
      obtain ⟨o, d⟩ := key
      obtain ⟨rest, hop', hrest⟩ := opcodes_eq_cons.mp hs
      rw [hop] at hop'
      simp only [Option.some.injEq, Prod.mk.injEq] at hop'
      obtain ⟨rfl, rfl, rfl⟩ := hop'
      obtain ⟨hsized, hkeys⟩ := List.forall_mem_cons.mp hkeys
      obtain ⟨⟨opcode1', vch1'⟩, l', hl'⟩ : ∃ op l', keys ++ (b, []) :: l = op :: l' :=
        List.exists_cons_of_ne_nil (by simp)
      have hhead := hrest
      rw [show keys.append ((b, []) :: l) = (opcode1', vch1') :: l' from hl'] at hhead
      obtain ⟨pc1', hnext, -⟩ := opcodes_eq_cons.mp hhead
      have hshort := getOp2_shorter hnext
      obtain ⟨rest, s', hop'', hl, hread⟩ := @ih pc1 pc1' opcode1' vch1' (sols ++ [vch1]) keys hnext
        (by omega) hkeys hrest
      refine ⟨rest, s', hop'', hl, ?_⟩
      rw [readKeys]
      simp only [if_pos hsized, hnext, getOp, Option.isNone_some, Bool.false_eq_true, if_false,
        Option.getD_some, hread, List.map_cons, List.append_assoc, List.singleton_append]

theorem Matches.pubkeys {Q : List Valtype → ℕ → List (ℕ × Valtype) → List Valtype → Prop}
    (h : ∀ keys b, Matches fuel pc2
      (sols ++ keys ++ [[BitVec.ofNat 8 (decodeOP_N b)]]) (Q keys b)) :
    Matches (fuel + 1) (BitVec.ofNat 8 OP_PUBKEYS :: BitVec.ofNat 8 OP_SMALLINTEGER :: pc2) sols
      fun l r => ∃ keys b l', Keys keys ∧ isSmallInteger b = true ∧ l = keys ++ (b, []) :: l' ∧
        Q (keys.map Prod.snd) b l' r := by
  intro s r
  rw [compareTemplate, if_neg (by simp), getOp2_opcode _ (by decide) (by decide)]
  cases hop : getOp2 s with
  | none =>
    simp only [Option.bind_eq_bind, Option.bind_none, reduceCtorEq, false_iff, not_exists]
    rintro l ⟨hl, keys, b, l', -, -, rfl, -⟩
    obtain ⟨op, l'', hl''⟩ : ∃ op l'', keys ++ (b, []) :: l' = op :: l'' :=
      List.exists_cons_of_ne_nil (by simp)
    rw [hl''] at hl
    obtain ⟨rest, hrest, -⟩ := opcodes_eq_cons.mp hl
    rw [hop] at hrest
    cases hrest
  | some op =>
    obtain ⟨opcode1, vch1, pc1⟩ := op
    have hne₁ : ¬ OP_SMALLINTEGER = OP_PUBKEY := by decide
    have hne₂ : ¬ OP_SMALLINTEGER = OP_PUBKEYHASH := by decide
    simp only [Option.bind_eq_bind, Option.bind_some, if_true,
      getOp2_opcode pc2 (by decide : OP_PUSHDATA4 < OP_SMALLINTEGER) (by decide), matchOne,
      if_neg hne₁, if_neg hne₂, Option.bind_eq_some_iff]
    constructor
    · rintro ⟨sols', hmatch, hrest⟩
      split_ifs at hmatch with hsmall
      simp only [Option.some.injEq] at hmatch
      subst hmatch
      obtain ⟨keys, hkeys, hsols, hread⟩ := readKeys_reads hop (Nat.lt_succ_self _) hsmall
      rw [hsols] at hrest
      obtain ⟨l', hl', hQ⟩ := (h _ _ _ r).mp hrest
      exact ⟨_, hread l' hl', keys, _, l', hkeys, hsmall, rfl, hQ⟩
    · rintro ⟨l, hl, keys, b, l', hkeys, hsmall, rfl, hQ⟩
      obtain ⟨rest, s', -, hrest, hread⟩ :=
        @readKeys_stops (pc1.length + 1) s pc1 opcode1 b vch1 sols keys l' hop
          (Nat.lt_succ_self _) hkeys hl
      rw [hread]
      exact ⟨_, if_pos hsmall, (h _ b rest r).mpr ⟨l', hrest, hQ⟩⟩

end Keys

/-- The opcodes of a multisig script, whatever the two numbers in it are. -/
def MultisigShape (s : CScript) (a : ℕ) (keys : List (ℕ × Valtype)) (b : ℕ) : Prop :=
  isSmallInteger a = true ∧ isSmallInteger b = true ∧ Keys keys ∧
    opcodes s = some ((a, []) :: (keys ++ [(b, []), (OP_CHECKMULTISIG, [])]))

variable {s : CScript} {r : List Valtype}

theorem compare_pubkey :
    compareTemplate 3 s (opcodeScript [OP_PUBKEY, OP_CHECKSIG]) [] = some r ↔
      ∃ c k, keySized k = true ∧ opcodes s = some [(c, k), (OP_CHECKSIG, [])] ∧ r = [k] := by
  have hmatch := @Matches.pubkey 2 _ [] _ fun k =>
    (@Matches.nil 0 [k]).same (by decide : OP_PUSHDATA4 < OP_CHECKSIG) (by decide)
  refine (hmatch s r).trans ⟨?_, ?_⟩
  · rintro ⟨l, hl, c, k, l', hk, rfl, _, _, _, ⟨rfl, rfl⟩, rfl, rfl, rfl⟩
    exact ⟨c, k, hk, hl, rfl⟩
  · rintro ⟨c, k, hk, hl, rfl⟩
    exact ⟨_, hl, c, k, _, hk, rfl, _, _, _, ⟨rfl, rfl⟩, rfl, rfl, rfl⟩

theorem compare_pubkeyhash :
    compareTemplate 6 s
        (opcodeScript [OP_DUP, OP_HASH160, OP_PUBKEYHASH, OP_EQUALVERIFY, OP_CHECKSIG]) [] =
        some r ↔
      ∃ c h, h.length = 20 ∧ opcodes s = some [(OP_DUP, []), (OP_HASH160, []), (c, h),
        (OP_EQUALVERIFY, []), (OP_CHECKSIG, [])] ∧ r = [h] := by
  have hhash := @Matches.pubkeyhash 3 _ [] _ fun h =>
    ((@Matches.nil 0 [h]).same (by decide : OP_PUSHDATA4 < OP_CHECKSIG) (by decide)).same
      (by decide : OP_PUSHDATA4 < OP_EQUALVERIFY) (by decide)
  have hmatch := (hhash.same (by decide : OP_PUSHDATA4 < OP_HASH160) (by decide)).same
    (by decide : OP_PUSHDATA4 < OP_DUP) (by decide)
  refine (hmatch s r).trans ⟨?_, ?_⟩
  · rintro ⟨l, hl, _, _, _, ⟨rfl, rfl⟩, rfl, _, _, _, ⟨rfl, rfl⟩, rfl, c, h, _, hh, rfl,
      _, _, _, ⟨rfl, rfl⟩, rfl, _, _, _, ⟨rfl, rfl⟩, rfl, rfl, rfl⟩
    exact ⟨c, h, hh, hl, rfl⟩
  · rintro ⟨c, h, hh, hl, rfl⟩
    exact ⟨_, hl, _, _, _, ⟨rfl, rfl⟩, rfl, _, _, _, ⟨rfl, rfl⟩, rfl, c, h, _, hh, rfl,
      _, _, _, ⟨rfl, rfl⟩, rfl, _, _, _, ⟨rfl, rfl⟩, rfl, rfl, rfl⟩

theorem compare_multisig :
    compareTemplate 5 s
        (opcodeScript [OP_SMALLINTEGER, OP_PUBKEYS, OP_SMALLINTEGER, OP_CHECKMULTISIG]) [] =
        some r ↔
      ∃ a keys b, MultisigShape s a keys b ∧
        r = [BitVec.ofNat 8 (decodeOP_N a)] ::
          (keys.map Prod.snd ++ [[BitVec.ofNat 8 (decodeOP_N b)]]) := by
  have hmatch := @Matches.smallInteger 4 _ [] _ fun a =>
    @Matches.pubkeys 3 _ [[BitVec.ofNat 8 (decodeOP_N a)]] _ fun keys b =>
      (@Matches.nil 1 ([[BitVec.ofNat 8 (decodeOP_N a)]] ++ keys ++
        [[BitVec.ofNat 8 (decodeOP_N b)]])).same (by decide : OP_PUSHDATA4 < OP_CHECKMULTISIG)
          (by decide)
  refine (hmatch s r).trans ⟨?_, ?_⟩
  · rintro ⟨l, hl, a, _, _, ⟨ha, rfl⟩, rfl, keys, b, _, hkeys, hb, rfl, _, _, _, ⟨rfl, rfl⟩, rfl,
      rfl, rfl⟩
    exact ⟨a, keys, b, ⟨ha, hb, hkeys, hl⟩, rfl⟩
  · rintro ⟨a, keys, b, ⟨ha, hb, hkeys, hl⟩, rfl⟩
    exact ⟨_, hl, a, _, _, ⟨ha, rfl⟩, rfl, keys, b, _, hkeys, hb, rfl, _, _, _, ⟨rfl, rfl⟩, rfl,
      rfl, rfl⟩

end Comparing

section Solving

variable {s : CScript}

/-- The 23 bytes of a pay-to-script-hash script. -/
def scriptHashScript (h : Valtype) : CScript :=
  BitVec.ofNat 8 OP_HASH160 :: BitVec.ofNat 8 20 :: (h ++ [BitVec.ofNat 8 OP_EQUAL])

theorem isPayToScriptHash_iff :
    isPayToScriptHash s = true ↔ ∃ h : Valtype, h.length = 20 ∧ s = scriptHashScript h := by
  constructor
  · intro hp
    simp only [isPayToScriptHash, Bool.and_eq_true, beq_iff_eq] at hp
    obtain ⟨⟨⟨hlen, h0⟩, h1⟩, h22⟩ := hp
    match s, hlen, h0, h1, h22 with
    | a :: b :: rest, hlen, h0, h1, h22 =>
      simp only [List.length_cons, List.getElem?_cons_zero, List.getElem?_cons_succ,
        Option.some.injEq] at hlen h0 h1 h22
      have hrest : rest.length = 21 := by omega
      refine ⟨rest.take 20, List.length_take_of_le (by omega), ?_⟩
      have hlast : rest.drop 20 = [BitVec.ofNat 8 OP_EQUAL] := by
        rw [List.drop_eq_getElem_cons (by omega), List.drop_of_length_le (by omega)]
        rw [List.getElem?_eq_getElem (by omega), Option.some.injEq] at h22
        rw [h22]
      rw [scriptHashScript, ← hlast, List.take_append_drop, h0, h1]
      rfl
  · rintro ⟨h, hlen, rfl⟩
    simp [isPayToScriptHash, scriptHashScript, hlen]

theorem opcodes_scriptHash {h : Valtype} :
    opcodes s = some [(OP_HASH160, []), (20, h), (OP_EQUAL, [])] ↔
      h.length = 20 ∧ s = scriptHashScript h := by
  constructor
  · intro hs
    obtain ⟨s₁, hop₁, hs⟩ := opcodes_eq_cons.mp hs
    obtain ⟨s₂, hop₂, hs⟩ := opcodes_eq_cons.mp hs
    obtain ⟨s₃, hop₃, hs⟩ := opcodes_eq_cons.mp hs
    obtain rfl := opcodes_eq_nil.mp hs
    obtain ⟨rfl, -⟩ := getOp2_eq_opcode (by decide) hop₁
    obtain ⟨rfl, hlen⟩ := getOp2_eq_push (by decide) hop₂
    obtain ⟨rfl, -⟩ := getOp2_eq_opcode (by decide) hop₃
    exact ⟨hlen, rfl⟩
  · rintro ⟨hlen, rfl⟩
    have hpush := @getOp2_push h [BitVec.ofNat 8 OP_EQUAL] (by rw [hlen]; decide)
    rw [hlen] at hpush
    exact opcodes_eq_cons.mpr ⟨_, getOp2_opcode _ (by decide) (by decide),
      opcodes_eq_cons.mpr ⟨_, hpush,
        opcodes_eq_cons.mpr ⟨_, getOp2_opcode _ (by decide) (by decide), rfl⟩⟩⟩

/-- OP_1 to OP_16. -/
def opN (n : ℕ) : ℕ := OP_1 - 1 + n

/-- The standard scripts of each kind, with the data that they push. -/
def Standard (s : CScript) (vSolutions : List Valtype) : TxnOutType → Prop
  | .nonstandard => False
  | .pubkey => ∃ c k, keySized k = true ∧ opcodes s = some [(c, k), (OP_CHECKSIG, [])] ∧
      vSolutions = [k]
  | .pubkeyhash => ∃ c h, h.length = 20 ∧ opcodes s = some [(OP_DUP, []), (OP_HASH160, []), (c, h),
      (OP_EQUALVERIFY, []), (OP_CHECKSIG, [])] ∧ vSolutions = [h]
  | .scripthash => ∃ h, h.length = 20 ∧
      opcodes s = some [(OP_HASH160, []), (20, h), (OP_EQUAL, [])] ∧ vSolutions = [h]
  | .multisig => ∃ (m : ℕ) (keys : List (ℕ × Valtype)), 1 ≤ m ∧ m ≤ keys.length ∧
      keys.length ≤ 16 ∧ Keys keys ∧
      opcodes s = some ((opN m, []) ::
        (keys ++ [(opN keys.length, []), (OP_CHECKMULTISIG, [])])) ∧
      vSolutions = [BitVec.ofNat 8 m] :: (keys.map Prod.snd ++ [[BitVec.ofNat 8 keys.length]])

/-- A multisig script whose numbers do not go with its keys. -/
def IllCounted (s : CScript) : Prop :=
  ∃ a keys b, MultisigShape s a keys b ∧
    ¬ (1 ≤ decodeOP_N a ∧ decodeOP_N a ≤ decodeOP_N b ∧ keys.length = decodeOP_N b)

theorem decodeOP_N_eq {opcode : ℕ} (h : OP_1 ≤ opcode) : decodeOP_N opcode = opcode - 80 := by
  have hne : ¬ opcode = OP_0 := by
    simp only [OP_0, OP_1] at h ⊢
    omega
  rw [decodeOP_N, if_neg hne]
  rfl

theorem decodeOP_N_le {opcode : ℕ} (h : isSmallInteger opcode = true) : decodeOP_N opcode ≤ 16 := by
  rcases isSmallInteger_iff.mp h with rfl | ⟨hlow, hhigh⟩
  · decide
  · rw [decodeOP_N_eq hlow]
    simp only [OP_16] at hhigh
    omega

theorem opN_decodeOP_N {opcode : ℕ} (h : isSmallInteger opcode = true)
    (hpos : 1 ≤ decodeOP_N opcode) : opN (decodeOP_N opcode) = opcode := by
  rcases isSmallInteger_iff.mp h with rfl | ⟨hlow, hhigh⟩
  · exact absurd hpos (by decide)
  · rw [decodeOP_N_eq hlow]
    simp only [opN, OP_1] at hlow ⊢
    omega

theorem decodeOP_N_opN {n : ℕ} (h : n ≤ 16) (hpos : 1 ≤ n) :
    isSmallInteger (opN n) = true ∧ decodeOP_N (opN n) = n := by
  have hlow : OP_1 ≤ opN n := by
    simp only [opN, OP_1]
    omega
  have hhigh : opN n ≤ OP_16 := by
    simp only [opN, OP_1, OP_16]
    omega
  refine ⟨isSmallInteger_iff.mpr (Or.inr ⟨hlow, hhigh⟩), ?_⟩
  rw [decodeOP_N_eq hlow]
  simp only [opN, OP_1]
  omega

theorem checkMultisig_eq {a b : ℕ} (ha : isSmallInteger a = true) (hb : isSmallInteger b = true)
    (keys : List (ℕ × Valtype)) :
    checkMultisig ([BitVec.ofNat 8 (decodeOP_N a)] ::
        (keys.map Prod.snd ++ [[BitVec.ofNat 8 (decodeOP_N b)]])) =
      some (decide (1 ≤ decodeOP_N a ∧ decodeOP_N a ≤ decodeOP_N b ∧
          keys.length = decodeOP_N b), .multisig,
        [BitVec.ofNat 8 (decodeOP_N a)] ::
          (keys.map Prod.snd ++ [[BitVec.ofNat 8 (decodeOP_N b)]])) := by
  have hla := decodeOP_N_le ha
  have hlb := decodeOP_N_le hb
  have hlast : ([BitVec.ofNat 8 (decodeOP_N a)] ::
      (keys.map Prod.snd ++ [[BitVec.ofNat 8 (decodeOP_N b)]])).getLast? =
      some [BitVec.ofNat 8 (decodeOP_N b)] := by
    rw [← List.cons_append, List.getLast?_append_of_ne_nil _ (by simp)]
    rfl
  have hnat : ∀ k ≤ 16, (BitVec.ofNat 8 k).toNat = k := fun k hk => by
    rw [BitVec.toNat_ofNat]
    omega
  have hcond : (BitVec.ofNat 8 (decodeOP_N a) < 1 ∨ BitVec.ofNat 8 (decodeOP_N b) < 1 ∨
      BitVec.ofNat 8 (decodeOP_N b) < BitVec.ofNat 8 (decodeOP_N a) ∨
      ([BitVec.ofNat 8 (decodeOP_N a)] ::
        (keys.map Prod.snd ++ [[BitVec.ofNat 8 (decodeOP_N b)]])).length - 2 ≠
          (BitVec.ofNat 8 (decodeOP_N b)).toNat) ↔
      ¬ (1 ≤ decodeOP_N a ∧ decodeOP_N a ≤ decodeOP_N b ∧ keys.length = decodeOP_N b) := by
    simp only [BitVec.lt_def, hnat _ hla, hnat _ hlb, List.length_cons, List.length_append,
      List.length_map, List.length_nil]
    have hone : (1 : BitVec 8).toNat = 1 := rfl
    rw [hone]
    omega
  unfold checkMultisig
  simp only [List.head?_cons, Option.bind_eq_bind, Option.bind_some, hlast,
    List.getElem?_cons_zero]
  by_cases hgood : 1 ≤ decodeOP_N a ∧ decodeOP_N a ≤ decodeOP_N b ∧ keys.length = decodeOP_N b
  · rw [if_neg (by rw [hcond]; exact not_not.mpr hgood), decide_eq_true hgood]
    rfl
  · rw [if_pos (by rw [hcond]; exact hgood), decide_eq_false hgood]
    rfl

/-- The last opcode of a script, by which the templates differ. -/
def lastOp (s : CScript) : Option (ℕ × Valtype) := (opcodes s).bind List.getLast?

theorem MultisigShape.lastOp {a b : ℕ} {keys : List (ℕ × Valtype)}
    (h : MultisigShape s a keys b) : lastOp s = some (OP_CHECKMULTISIG, []) := by
  unfold Solver.lastOp
  rw [h.2.2.2, Option.bind_some, ← List.cons_append, List.getLast?_append_of_ne_nil _ (by simp)]
  rfl

theorem solver_scripthash {h : Valtype} (hlen : h.length = 20)
    (hs : opcodes s = some [(OP_HASH160, []), (20, h), (OP_EQUAL, [])]) :
    solver s [] = some (true, .scripthash, [h]) := by
  obtain ⟨-, rfl⟩ := opcodes_scriptHash.mp hs
  have hhash : ((scriptHashScript h).drop 2).take 20 = h := List.take_left' hlen
  rw [solver, if_pos (isPayToScriptHash_iff.mpr ⟨h, hlen, rfl⟩), hhash]
  rfl

/-- A script that is not read as a script hash is compared with the templates. -/
theorem solver_scan (hs : lastOp s ≠ some (OP_EQUAL, [])) :
    solver s [] = scanTemplates s mTemplates := by
  have hnot : ¬ isPayToScriptHash s = true := by
    rw [isPayToScriptHash_iff]
    rintro ⟨h, hlen⟩
    have hops := opcodes_scriptHash.mpr hlen
    apply hs
    rw [lastOp, hops]
    rfl
  rw [solver, if_neg hnot]

theorem compare_pubkey_none (hs : lastOp s ≠ some (OP_CHECKSIG, [])) :
    compareTemplate 3 s (opcodeScript [OP_PUBKEY, OP_CHECKSIG]) [] = none := by
  rw [Option.eq_none_iff_forall_ne_some]
  intro r hr
  obtain ⟨c, k, -, hops, -⟩ := compare_pubkey.mp hr
  apply hs
  rw [lastOp, hops]
  rfl

theorem compare_pubkeyhash_none (hs : lastOp s ≠ some (OP_CHECKSIG, [])) :
    compareTemplate 6 s
      (opcodeScript [OP_DUP, OP_HASH160, OP_PUBKEYHASH, OP_EQUALVERIFY, OP_CHECKSIG]) [] = none := by
  rw [Option.eq_none_iff_forall_ne_some]
  intro r hr
  obtain ⟨c, k, -, hops, -⟩ := compare_pubkeyhash.mp hr
  apply hs
  rw [lastOp, hops]
  rfl

theorem scanTemplates_cons (typeRet : TxnOutType) (script2 : CScript)
    (templates : List (TxnOutType × CScript)) :
    scanTemplates s ((typeRet, script2) :: templates) =
      (compareTemplate (script2.length + 1) s script2 []).elim (scanTemplates s templates)
        fun vSolutionsRet =>
          if typeRet = .multisig then checkMultisig vSolutionsRet
          else some (true, typeRet, vSolutionsRet) := by
  rw [scanTemplates]
  cases compareTemplate (script2.length + 1) s script2 [] with
  | none => rfl
  | some vSolutionsRet => rfl

/-- The three comparisons, one after another. -/
theorem scanTemplates_eq (s : CScript) :
    scanTemplates s mTemplates =
      (compareTemplate 3 s (opcodeScript [OP_PUBKEY, OP_CHECKSIG]) []).elim
        ((compareTemplate 6 s
          (opcodeScript [OP_DUP, OP_HASH160, OP_PUBKEYHASH, OP_EQUALVERIFY, OP_CHECKSIG]) []).elim
          ((compareTemplate 5 s (opcodeScript
            [OP_SMALLINTEGER, OP_PUBKEYS, OP_SMALLINTEGER, OP_CHECKMULTISIG]) []).elim
            (some (false, .nonstandard, [])) checkMultisig)
          fun vSolutionsRet => some (true, .pubkeyhash, vSolutionsRet))
        fun vSolutionsRet => some (true, .pubkey, vSolutionsRet) := by
  rw [mTemplates, scanTemplates_cons, scanTemplates_cons, scanTemplates_cons]
  rfl

theorem solver_pubkey {c : ℕ} {k : Valtype} (hk : keySized k = true)
    (hs : opcodes s = some [(c, k), (OP_CHECKSIG, [])]) :
    solver s [] = some (true, .pubkey, [k]) := by
  have hlast : lastOp s = some (OP_CHECKSIG, []) := by rw [lastOp, hs]; rfl
  rw [solver_scan (by rw [hlast]; decide), scanTemplates_eq,
    compare_pubkey.mpr ⟨c, k, hk, hs, rfl⟩]
  rfl

theorem solver_pubkeyhash {c : ℕ} {h : Valtype} (hh : h.length = 20)
    (hs : opcodes s = some [(OP_DUP, []), (OP_HASH160, []), (c, h), (OP_EQUALVERIFY, []),
      (OP_CHECKSIG, [])]) :
    solver s [] = some (true, .pubkeyhash, [h]) := by
  have hlast : lastOp s = some (OP_CHECKSIG, []) := by rw [lastOp, hs]; rfl
  have hfirst : compareTemplate 3 s (opcodeScript [OP_PUBKEY, OP_CHECKSIG]) [] = none := by
    rw [Option.eq_none_iff_forall_ne_some]
    intro r hr
    obtain ⟨c', k, -, hs', -⟩ := compare_pubkey.mp hr
    rw [hs] at hs'
    simp at hs'
  rw [solver_scan (by rw [hlast]; decide), scanTemplates_eq, hfirst,
    compare_pubkeyhash.mpr ⟨c, h, hh, hs, rfl⟩]
  rfl

theorem solver_multisig {a b : ℕ} {keys : List (ℕ × Valtype)} (h : MultisigShape s a keys b) :
    solver s [] = some (decide (1 ≤ decodeOP_N a ∧ decodeOP_N a ≤ decodeOP_N b ∧
        keys.length = decodeOP_N b), .multisig,
      [BitVec.ofNat 8 (decodeOP_N a)] ::
        (keys.map Prod.snd ++ [[BitVec.ofNat 8 (decodeOP_N b)]])) := by
  have hlast := h.lastOp
  rw [solver_scan (by rw [hlast]; decide), scanTemplates_eq,
    compare_pubkey_none (by rw [hlast]; decide), compare_pubkeyhash_none (by rw [hlast]; decide),
    compare_multisig.mpr ⟨a, keys, b, h, rfl⟩]
  exact checkMultisig_eq h.1 h.2.1 keys

/-- What a standard script is solved to. -/
theorem solver_of_standard {t : TxnOutType} {vSolutions : List Valtype}
    (h : Standard s vSolutions t) : solver s [] = some (true, t, vSolutions) := by
  cases t with
  | nonstandard => exact h.elim
  | pubkey =>
    obtain ⟨c, k, hk, hs, rfl⟩ := h
    exact solver_pubkey hk hs
  | pubkeyhash =>
    obtain ⟨c, k, hk, hs, rfl⟩ := h
    exact solver_pubkeyhash hk hs
  | scripthash =>
    obtain ⟨k, hk, hs, rfl⟩ := h
    exact solver_scripthash hk hs
  | multisig =>
    obtain ⟨m, keys, hm, hmn, hn, hkeys, hs, rfl⟩ := h
    obtain ⟨hsmall, hdecode⟩ := decodeOP_N_opN (hmn.trans hn) hm
    obtain ⟨hsmall', hdecode'⟩ := decodeOP_N_opN hn (hm.trans hmn)
    have hsolved := solver_multisig ⟨hsmall, hsmall', hkeys, hs⟩
    rw [hdecode, hdecode', decide_eq_true ⟨hm, hmn, rfl⟩] at hsolved
    exact hsolved

theorem solver_of_illCounted (h : IllCounted s) :
    ∃ vSolutions, vSolutions ≠ [] ∧ solver s [] = some (false, .multisig, vSolutions) := by
  obtain ⟨a, keys, b, hshape, hcount⟩ := h
  have hsolved := solver_multisig hshape
  rw [decide_eq_false hcount] at hsolved
  exact ⟨_, List.cons_ne_nil _ _, hsolved⟩

/-- Every script is standard, ill counted or neither. -/
theorem solver_of_neither (hstandard : ∀ t vSolutions, ¬ Standard s vSolutions t)
    (hcounted : ¬ IllCounted s) : solver s [] = some (false, .nonstandard, []) := by
  have hhash : ¬ isPayToScriptHash s = true := by
    rw [isPayToScriptHash_iff]
    rintro ⟨h, hlen⟩
    exact hstandard .scripthash [h] ⟨h, hlen.1, opcodes_scriptHash.mpr hlen, rfl⟩
  have h₁ : compareTemplate 3 s (opcodeScript [OP_PUBKEY, OP_CHECKSIG]) [] = none := by
    rw [Option.eq_none_iff_forall_ne_some]
    exact fun r hr => hstandard .pubkey r (compare_pubkey.mp hr)
  have h₂ : compareTemplate 6 s (opcodeScript
      [OP_DUP, OP_HASH160, OP_PUBKEYHASH, OP_EQUALVERIFY, OP_CHECKSIG]) [] = none := by
    rw [Option.eq_none_iff_forall_ne_some]
    exact fun r hr => hstandard .pubkeyhash r (compare_pubkeyhash.mp hr)
  have h₃ : compareTemplate 5 s (opcodeScript
      [OP_SMALLINTEGER, OP_PUBKEYS, OP_SMALLINTEGER, OP_CHECKMULTISIG]) [] = none := by
    rw [Option.eq_none_iff_forall_ne_some]
    intro r hr
    obtain ⟨a, keys, b, hshape, rfl⟩ := compare_multisig.mp hr
    by_cases hcount : 1 ≤ decodeOP_N a ∧ decodeOP_N a ≤ decodeOP_N b ∧ keys.length = decodeOP_N b
    · obtain ⟨hm, hmn, hlen⟩ := hcount
      have hn := decodeOP_N_le hshape.2.1
      refine hstandard .multisig _ ⟨decodeOP_N a, keys, hm, by omega, by omega, hshape.2.2.1, ?_, rfl⟩
      rw [hlen, opN_decodeOP_N hshape.1 hm, opN_decodeOP_N hshape.2.1 (hm.trans hmn)]
      exact hshape.2.2.2
    · exact hcounted ⟨a, keys, b, hshape, hcount⟩
  rw [solver, if_neg hhash, scanTemplates_eq, h₁, h₂, h₃]
  rfl

/-- What is expected of Solver at a script: no access outside of the solutions, the standard
scripts and no others accepted, and nothing left behind by a refusal. -/
structure SolvedRight (s : CScript) : Prop where
  inBounds : (solver s []).isSome = true
  accepts : ∀ t vSolutions, solver s [] = some (true, t, vSolutions) ↔ Standard s vSolutions t
  refuses : ∀ t vSolutions, solver s [] = some (false, t, vSolutions) →
    t = .nonstandard ∧ vSolutions = []

theorem solvedRight_iff : SolvedRight s ↔ ¬ IllCounted s := by
  constructor
  · intro h hcounted
    obtain ⟨vSolutions, hne, hsolved⟩ := solver_of_illCounted hcounted
    exact hne (h.refuses _ _ hsolved).2
  · intro hcounted
    by_cases hstandard : ∃ t vSolutions, Standard s vSolutions t
    · obtain ⟨t, vSolutions, h⟩ := hstandard
      have hsolved := solver_of_standard h
      refine ⟨by rw [hsolved]; rfl, fun t' sols => ⟨fun h' => ?_, solver_of_standard⟩, ?_⟩
      · rw [hsolved] at h'
        simp only [Option.some.injEq, Prod.mk.injEq, true_and] at h'
        obtain ⟨rfl, rfl⟩ := h'
        exact h
      · intro t' sols h'
        rw [hsolved] at h'
        simp at h'
    · simp only [not_exists] at hstandard
      have hsolved := solver_of_neither hstandard hcounted
      refine ⟨by rw [hsolved]; rfl, fun t' sols => ⟨fun h' => ?_, solver_of_standard⟩, ?_⟩
      · rw [hsolved] at h'
        simp at h'
      · intro t' sols h'
        rw [hsolved] at h'
        simp only [Option.some.injEq, Prod.mk.injEq, true_and] at h'
        exact ⟨h'.1.symm, h'.2.symm⟩

end Solving

/-! The scripts that SetDestination and SetMultisig make. -/

section Inverting

theorem uint160_leBytes (id : BitVec 160) : uint160 (leBytes 20 id.toNat) = id := by
  have hlt : id.toNat < 256 ^ 20 := by
    have hid := id.isLt
    norm_num at hid ⊢
    exact hid
  rw [uint160, if_pos (leBytes_length 20 _), ofLeBytes_leBytes, Nat.mod_eq_of_lt hlt,
    BitVec.ofNat_toNat, BitVec.setWidth_eq]

theorem standard_keyID (keyID : CKeyID) :
    Standard (setDestination (.keyID keyID)) [leBytes 20 keyID.toNat] .pubkeyhash := by
  have hlen := leBytes_length 20 keyID.toNat
  have hpush := @getOp2_push (leBytes 20 keyID.toNat)
    (opcodeScript [OP_EQUALVERIFY, OP_CHECKSIG]) (by rw [hlen]; decide)
  rw [hlen] at hpush
  refine ⟨20, leBytes 20 keyID.toNat, hlen, ?_, rfl⟩
  exact opcodes_eq_cons.mpr ⟨_, getOp2_opcode _ (by decide) (by decide),
    opcodes_eq_cons.mpr ⟨_, getOp2_opcode _ (by decide) (by decide),
      opcodes_eq_cons.mpr ⟨_, hpush,
        opcodes_eq_cons.mpr ⟨_, getOp2_opcode _ (by decide) (by decide),
          opcodes_eq_cons.mpr ⟨_, getOp2_opcode _ (by decide) (by decide), rfl⟩⟩⟩⟩⟩

theorem standard_scriptID (scriptID : CScriptID) :
    Standard (setDestination (.scriptID scriptID)) [leBytes 20 scriptID.toNat] .scripthash := by
  have hlen := leBytes_length 20 scriptID.toNat
  exact ⟨_, hlen, opcodes_scriptHash.mpr ⟨hlen, rfl⟩, rfl⟩

variable (crypto : Crypto)

theorem extractDestination_setDestination (dest : CTxDestination) :
    extractDestination crypto (setDestination dest) =
      some (if dest = .noDestination then none else some dest) := by
  cases dest with
  | noDestination => rfl
  | keyID keyID =>
    rw [extractDestination, solver_of_standard (standard_keyID keyID)]
    simp [uint160_leBytes]
  | scriptID scriptID =>
    rw [extractDestination, solver_of_standard (standard_scriptID scriptID)]
    simp [uint160_leBytes]

/-- The scripts of the destinations, their type and the one address in them. -/
theorem extractDestinations_setDestination (dest : CTxDestination) (nRequired : ℤ)
    (hdest : dest ≠ .noDestination) :
    ∃ t, extractDestinations crypto (setDestination dest) nRequired =
      some (true, t, [dest], 1) := by
  have hextract := extractDestination_setDestination crypto dest
  rw [if_neg hdest] at hextract
  cases dest with
  | noDestination => exact (hdest rfl).elim
  | keyID keyID =>
    refine ⟨.pubkeyhash, ?_⟩
    rw [extractDestinations, solver_of_standard (standard_keyID keyID)]
    simp [hextract]
  | scriptID scriptID =>
    refine ⟨.scripthash, ?_⟩
    rw [extractDestinations, solver_of_standard (standard_scriptID scriptID)]
    simp [hextract]

/-- The keys that SetMultisig takes. -/
def ValidKeys (keys : List CPubKey) : Prop := ∀ key ∈ keys, key.isValid = true

theorem vch_of_valid {key : CPubKey} (h : key.isValid = true) :
    isValidPubKey key.vch = true ∧ (key.vch.length = 33 ∨ key.vch.length = 65) := by
  have hvalid := key.header
  rcases hvalid with hnil | hvalid
  · simp [CPubKey.isValid, hnil] at h
  · refine ⟨hvalid, ?_⟩
    cases hvch : key.vch with
    | nil => simp [CPubKey.isValid, hvch] at h
    | cons b vch =>
      rw [hvch, isValidPubKey, beq_iff_eq] at hvalid
      rw [List.length_cons, ← hvalid]
      unfold getLen at hvalid ⊢
      split_ifs at hvalid ⊢
      · exact Or.inl rfl
      · exact Or.inr rfl

theorem set_vch {key : CPubKey} (h : key.isValid = true) : CPubKey.set key.vch = key := by
  rw [CPubKey.set, dif_pos (vch_of_valid h).1]

theorem mapM_pushKey {keys : List CPubKey} (h : ValidKeys keys) :
    keys.mapM pushKey = some (keys.map fun key => BitVec.ofNat 8 key.vch.length :: key.vch) := by
  induction keys with
  | nil => rfl
  | cons key keys ih =>
    obtain ⟨hkey, hkeys⟩ := List.forall_mem_cons.mp h
    have hshort : key.vch.length < OP_PUSHDATA1 := by
      simp only [OP_PUSHDATA1]
      have hlen := (vch_of_valid hkey).2
      omega
    rw [List.mapM_cons, ih hkeys, pushKey, if_pos hshort]
    rfl

theorem opcodes_keys {keys : List CPubKey} (h : ValidKeys keys) {tail : CScript}
    {l : List (ℕ × Valtype)} (htail : opcodes tail = some l) :
    opcodes ((keys.map fun key => BitVec.ofNat 8 key.vch.length :: key.vch).flatten ++ tail) =
      some ((keys.map fun key => (key.vch.length, key.vch)) ++ l) := by
  induction keys with
  | nil => exact htail
  | cons key keys ih =>
    obtain ⟨hkey, hkeys⟩ := List.forall_mem_cons.mp h
    have hshort : key.vch.length < OP_PUSHDATA1 := by
      simp only [OP_PUSHDATA1]
      have hlen := (vch_of_valid hkey).2
      omega
    rw [List.map_cons, List.flatten_cons, List.append_assoc, List.cons_append]
    exact opcodes_eq_cons.mpr ⟨_, getOp2_push _ hshort, ih hkeys⟩

theorem encodeOP_N_eq {n : ℕ} (hpos : 1 ≤ n) (h : n ≤ 16) : encodeOP_N n = some (opN n) := by
  have hrange : (0 : ℤ) ≤ n ∧ (n : ℤ) ≤ 16 := by omega
  have hne : ¬ (n : ℤ) = 0 := by omega
  rw [encodeOP_N, if_pos hrange, if_neg hne, Int.toNat_natCast]
  simp only [opN, OP_1, Option.some.injEq]
  omega

/-- The script of SetMultisig is standard. -/
theorem standard_setMultisig {keys : List CPubKey} {m : ℕ} (hm : 1 ≤ m) (hmn : m ≤ keys.length)
    (hn : keys.length ≤ 16) (hkeys : ValidKeys keys) :
    ∃ s, setMultisig m keys = some s ∧
      Standard s ([BitVec.ofNat 8 m] ::
        (keys.map CPubKey.vch ++ [[BitVec.ofNat 8 keys.length]])) .multisig := by
  refine ⟨opcodeScript [opN m] ++
    (keys.map fun key => BitVec.ofNat 8 key.vch.length :: key.vch).flatten ++
      opcodeScript [opN keys.length, OP_CHECKMULTISIG], ?_, ?_⟩
  · rw [setMultisig, encodeOP_N_eq hm (hmn.trans hn), mapM_pushKey hkeys,
      encodeOP_N_eq (hm.trans hmn) hn]
    rfl
  · have hrange : ∀ n, 1 ≤ n → n ≤ 16 → OP_PUSHDATA4 < opN n ∧ opN n < 256 := by
      intro n hpos hle
      simp only [opN, OP_1, OP_PUSHDATA4]
      omega
    obtain ⟨hlow, hhigh⟩ := hrange m hm (hmn.trans hn)
    obtain ⟨hlow', hhigh'⟩ := hrange keys.length (hm.trans hmn) hn
    have htail : opcodes (opcodeScript [opN keys.length, OP_CHECKMULTISIG]) =
        some [(opN keys.length, []), (OP_CHECKMULTISIG, [])] :=
      opcodes_eq_cons.mpr ⟨_, getOp2_opcode _ hlow' hhigh',
        opcodes_eq_cons.mpr ⟨_, getOp2_opcode _ (by decide) (by decide), rfl⟩⟩
    refine ⟨m, keys.map fun key => (key.vch.length, key.vch), hm, ?_, ?_, ?_, ?_, ?_⟩
    · rw [List.length_map]
      exact hmn
    · rw [List.length_map]
      exact hn
    · intro key hkey
      obtain ⟨key', hmem, rfl⟩ := List.mem_map.mp hkey
      have hlen := (vch_of_valid (hkeys key' hmem)).2
      simp only [keySized, Bool.and_eq_true, decide_eq_true_eq]
      omega
    · rw [List.length_map, List.append_assoc]
      exact opcodes_eq_cons.mpr ⟨_, getOp2_opcode _ hlow hhigh, opcodes_keys hkeys htail⟩
    · rw [List.length_map, List.map_map]
      rfl

theorem extractDestinations_setMultisig {keys : List CPubKey} {m : ℕ} (nRequired : ℤ) (hm : 1 ≤ m)
    (hmn : m ≤ keys.length) (hn : keys.length ≤ 16) (hkeys : ValidKeys keys) :
    ∃ s, setMultisig m keys = some s ∧
      extractDestinations crypto s nRequired =
        some (true, TxnOutType.multisig,
          keys.map fun key => CTxDestination.keyID (key.getID crypto), (m : ℤ)) := by
  obtain ⟨s, hs, hstandard⟩ := standard_setMultisig hm hmn hn hkeys
  refine ⟨s, hs, ?_⟩
  have hcount : (BitVec.ofNat 8 m).toNat = m := by
    rw [BitVec.toNat_ofNat]
    omega
  have hids : (keys.map CPubKey.vch).map
      (fun vch => CTxDestination.keyID ((CPubKey.set vch).getID crypto)) =
      keys.map fun key => .keyID (key.getID crypto) := by
    rw [List.map_map]
    refine List.map_congr_left fun key hmem => ?_
    rw [Function.comp_apply, set_vch (hkeys key hmem)]
  rw [extractDestinations, solver_of_standard hstandard]
  simp [hcount, hids]

end Inverting

/-- Solver is right exactly at the scripts that are not an ill counted multisig script, and the
scripts that are made for destinations and for keys give these back. -/
theorem solver_right_iff (crypto : Crypto) :
    (∀ s, SolvedRight s ↔ ¬ IllCounted s) ∧
      (∀ dest, extractDestination crypto (setDestination dest) =
        some (if dest = .noDestination then none else some dest)) ∧
      (∀ dest nRequired, dest ≠ .noDestination →
        ∃ t, extractDestinations crypto (setDestination dest) nRequired =
          some (true, t, [dest], 1)) ∧
      ∀ (keys : List CPubKey) (m : ℕ) (nRequired : ℤ), 1 ≤ m → m ≤ keys.length →
        keys.length ≤ 16 → ValidKeys keys →
        ∃ s, setMultisig m keys = some s ∧
          extractDestinations crypto s nRequired =
            some (true, TxnOutType.multisig,
          keys.map fun key => CTxDestination.keyID (key.getID crypto), (m : ℤ)) :=
  ⟨fun _ => solvedRight_iff, extractDestination_setDestination crypto,
    fun dest nRequired => extractDestinations_setDestination crypto dest nRequired,
    fun _ _ nRequired hm hmn hn hkeys =>
      extractDestinations_setMultisig crypto nRequired hm hmn hn hkeys⟩

/-- Two signatures are asked for and there is one key. -/
def twoOfOne : CScript :=
  opcodeScript [opN 2] ++ BitVec.ofNat 8 33 :: 0x02 :: List.replicate 32 0x11 ++
    opcodeScript [opN 1, OP_CHECKMULTISIG]

theorem twoOfOne_not_right :
    solver twoOfOne [] =
        some (false, .multisig, [[2], 0x02 :: List.replicate 32 0x11, [1]]) ∧
      ¬ SolvedRight twoOfOne := by
  have hsolved : solver twoOfOne [] =
      some (false, .multisig, [[2], 0x02 :: List.replicate 32 0x11, [1]]) := by decide
  refine ⟨hsolved, fun h => ?_⟩
  have hrefused := h.refuses _ _ hsolved
  cases hrefused.1

end UmbrellaLtc.Solver
