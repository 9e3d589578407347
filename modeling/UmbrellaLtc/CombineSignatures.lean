import UmbrellaLtc.Signing
import Std.Data.ExtTreeSet

/-!
CombineSignatures of script.cpp, which merges the signatures of two scripts for one input. For a
multisig script the signatures of both are matched with the keys, and the first of the keys that
have one, as many as are required, keep theirs.
-/

namespace UmbrellaLtc.CombineSignatures

open Codec Transaction Script SignatureHash EvalScript ScriptOps Solver GreedyMatch KeyStore
  StandardScripts Signing

section Functions

variable (ctx : Context) (scriptPubKey : CScript)

/-- `set<valtype>`. -/
abbrev ValtypeSet := Std.ExtTreeSet Valtype compare

/-- `map<valtype, valtype>`. -/
abbrev ValtypeMap := Std.TreeMap Valtype Valtype

def insertNonempty (allsigs : ValtypeSet) (v : Valtype) : ValtypeSet :=
  if v.isEmpty then allsigs else allsigs.insert v

/-- allsigs. -/
def allSigs (sigs1 sigs2 : List Valtype) : ValtypeSet :=
  sigs2.foldl insertNonempty (sigs1.foldl insertNonempty ∅)

/-- The loop over the keys, which gives a signature to the first that has none and takes it. -/
def matchKey (sig : Valtype) : List Valtype → ValtypeMap → ValtypeMap
  | [], sigs => sigs
  | pubkey :: pubkeys, sigs =>
      if sigs.contains pubkey then matchKey sig pubkeys sigs
      else if checkSig ctx sig pubkey scriptPubKey then sigs.insert pubkey sig
      else matchKey sig pubkeys sigs

/-- sigs, when all signatures have been matched. -/
def matchSigs (pubkeys : List Valtype) (allsigs : List Valtype) : ValtypeMap :=
  allsigs.foldl (fun sigs sig => matchKey ctx scriptPubKey sig pubkeys sigs) ∅

/-- The signatures of the first keys that have one. -/
def pickSigs (sigs : ValtypeMap) (nSigsRequired : ℕ) (pubkeys : List Valtype) : List Valtype :=
  (pubkeys.filterMap fun pubkey => sigs[pubkey]?).take nSigsRequired

/-- CombineMultisig. A failed assertion, and a first byte that does not exist, are none. -/
def combineMultisig (vSolutions sigs1 sigs2 : List Valtype) : Option CScript := do
  if vSolutions.length ≤ 1 then none
  else
    let nSigsRequired := (← (← vSolutions.head?)[0]?).toNat
    let pubkeys := (vSolutions.drop 1).take (vSolutions.length - 1 - 1)
    let sigs := matchSigs ctx scriptPubKey pubkeys (allSigs sigs1 sigs2).toList
    let picked := pickSigs sigs nSigsRequired pubkeys
    return pushAll ([] :: (picked ++ List.replicate (nSigsRequired - picked.length) []))

/-- The CombineSignatures that calls itself, on stacks with their tops in front. Each call takes an
element off the first. -/
def combineStacks : ℕ → CScript → TxnOutType → List Valtype → List Valtype → List Valtype →
    Option CScript
  | 0, _, _, _, _, _ => none
  | fuel + 1, scriptPubKey, txType, vSolutions, sigs1, sigs2 =>
      match txType with
      | .nonstandard =>
          if sigs2.length ≤ sigs1.length then some (pushAll sigs1.reverse)
          else some (pushAll sigs2.reverse)
      | .pubkey | .pubkeyhash =>
          match sigs1.getLast? with
          | none => some (pushAll sigs2.reverse)
          | some front =>
              if front.isEmpty then some (pushAll sigs2.reverse) else some (pushAll sigs1.reverse)
      | .scripthash =>
          match sigs1 with
          | [] => some (pushAll sigs2.reverse)
          | spk :: sigs1 =>
              if spk.isEmpty then some (pushAll sigs2.reverse)
              else match sigs2 with
                | [] => some (pushAll (spk :: sigs1).reverse)
                | back :: sigs2 =>
                    if back.isEmpty then some (pushAll (spk :: sigs1).reverse)
                    else do
                      let (_, txType2, vSolutions2) ← Solver.solver spk []
                      let result ← combineStacks fuel spk txType2 vSolutions2 sigs1 sigs2
                      return result ++ pushScript spk
      | .multisig => combineMultisig ctx scriptPubKey vSolutions sigs1.reverse sigs2.reverse

/-- The context in which the two scripts are evaluated, with a transaction of no inputs. -/
def pushContext (crypto : Crypto) : Context where
  crypto := crypto
  txTo := ⟨1, [], [], 0⟩
  nIn := 0
  flags := SCRIPT_VERIFY_STRICTENC
  nHashType := 0

/-- CombineSignatures. -/
def combineSignatures (scriptSig1 scriptSig2 : CScript) : Option CScript := do
  let (_, txType, vSolutions) ← Solver.solver scriptPubKey []
  match evalScript (pushContext ctx.crypto) [] scriptSig1,
      evalScript (pushContext ctx.crypto) [] scriptSig2 with
  | .returned _ stack1 _, .returned _ stack2 _ =>
      combineStacks ctx (stack1.length + 1) scriptPubKey txType vSolutions stack1 stack2
  | _, _ => none

end Functions

section Matching

variable {ctx : Context} {scriptPubKey : CScript} {pubkeys : List Valtype}

theorem mem_insertNonempty {allsigs : ValtypeSet} {v w : Valtype} :
    w ∈ insertNonempty allsigs v ↔ w ∈ allsigs ∨ w = v ∧ v ≠ [] := by
  unfold insertNonempty
  cases v with
  | nil => simp
  | cons b v =>
    simp only [List.isEmpty_cons, Bool.false_eq_true, if_false, Std.ExtTreeSet.mem_insert,
      Std.compare_eq_iff_eq, ne_eq, reduceCtorEq, not_false_eq_true, and_true]
    rw [eq_comm, or_comm]

theorem mem_foldl_insertNonempty {sigs : List Valtype} {allsigs : ValtypeSet} {w : Valtype} :
    w ∈ sigs.foldl insertNonempty allsigs ↔ w ∈ allsigs ∨ w ∈ sigs ∧ w ≠ [] := by
  induction sigs generalizing allsigs with
  | nil => simp
  | cons v sigs ih =>
    rw [List.foldl_cons, ih, mem_insertNonempty, List.mem_cons]
    constructor
    · rintro ((h | ⟨rfl, hne⟩) | ⟨h, hne⟩)
      · exact Or.inl h
      · exact Or.inr ⟨Or.inl rfl, hne⟩
      · exact Or.inr ⟨Or.inr h, hne⟩
    · rintro (h | ⟨rfl | h, hne⟩)
      · exact Or.inl (Or.inl h)
      · exact Or.inl (Or.inr ⟨rfl, hne⟩)
      · exact Or.inr ⟨h, hne⟩

/-- Every signature of the two scripts is among allsigs, and no placeholder. -/
theorem mem_allSigs {sigs1 sigs2 : List Valtype} {w : Valtype} :
    w ∈ (allSigs sigs1 sigs2).toList ↔ (w ∈ sigs1 ∨ w ∈ sigs2) ∧ w ≠ [] := by
  rw [Std.ExtTreeSet.mem_toList, allSigs, mem_foldl_insertNonempty, mem_foldl_insertNonempty]
  simp only [Std.ExtTreeSet.not_mem_empty, false_or]
  rw [or_and_right]

theorem allSigs_comm (sigs1 sigs2 : List Valtype) : allSigs sigs1 sigs2 = allSigs sigs2 sigs1 := by
  apply Std.ExtTreeSet.ext_mem
  intro w
  rw [← Std.ExtTreeSet.mem_toList, ← Std.ExtTreeSet.mem_toList, mem_allSigs, mem_allSigs, or_comm]

/-- A signature goes to a key that it is right for and that has none, if there is one. -/
theorem matchKey_spec (sig : Valtype) (sigs : ValtypeMap) :
    (matchKey ctx scriptPubKey sig pubkeys sigs = sigs ∧ ∀ k ∈ pubkeys,
      checkSig ctx sig k scriptPubKey = true → k ∈ sigs) ∨
    ∃ k ∈ pubkeys, k ∉ sigs ∧ checkSig ctx sig k scriptPubKey = true ∧
      matchKey ctx scriptPubKey sig pubkeys sigs = sigs.insert k sig := by
  induction pubkeys with
  | nil => exact Or.inl ⟨rfl, fun k hk => by cases hk⟩
  | cons k pubkeys ih =>
    rw [matchKey]
    by_cases hin : k ∈ sigs
    · rw [if_pos (Std.TreeMap.mem_iff_contains.mp hin)]
      obtain ⟨hsame, hall⟩ | ⟨k', hk', hnot, hcheck, hinsert⟩ := ih
      · exact Or.inl ⟨hsame, List.forall_mem_cons.mpr ⟨fun _ => hin, hall⟩⟩
      · exact Or.inr ⟨k', List.mem_cons_of_mem _ hk', hnot, hcheck, hinsert⟩
    · rw [if_neg (fun h => hin (Std.TreeMap.mem_iff_contains.mpr h))]
      by_cases hcheck : checkSig ctx sig k scriptPubKey = true
      · rw [if_pos hcheck]
        exact Or.inr ⟨k, List.mem_cons_self, hin, hcheck, rfl⟩
      · rw [if_neg hcheck]
        obtain ⟨hsame, hall⟩ | ⟨k', hk', hnot, hcheck', hinsert⟩ := ih
        · exact Or.inl ⟨hsame, List.forall_mem_cons.mpr ⟨fun h => absurd h hcheck, hall⟩⟩
        · exact Or.inr ⟨k', List.mem_cons_of_mem _ hk', hnot, hcheck', hinsert⟩

/-- No value is a signature for two of the keys. -/
def Separate (ctx : Context) (scriptPubKey : CScript) (pubkeys values : List Valtype) : Prop :=
  ∀ v ∈ values, ∀ k ∈ pubkeys, ∀ k' ∈ pubkeys, checkSig ctx v k scriptPubKey = true →
    checkSig ctx v k' scriptPubKey = true → k = k'

/-- What is in the map when the signatures `done` have been matched. -/
structure Matched (ctx : Context) (scriptPubKey : CScript) (pubkeys done : List Valtype)
    (sigs : ValtypeMap) : Prop where
  right : ∀ (k sig : Valtype), sigs[k]? = some sig →
    k ∈ pubkeys ∧ sig ∈ done ∧ checkSig ctx sig k scriptPubKey = true
  all : ∀ sig ∈ done, ∀ k ∈ pubkeys, checkSig ctx sig k scriptPubKey = true → k ∈ sigs

theorem Matched.step {done : List Valtype} {sigs : ValtypeMap} {sig : Valtype}
    (h : Matched ctx scriptPubKey pubkeys done sigs)
    (hone : Separate ctx scriptPubKey pubkeys [sig]) :
    Matched ctx scriptPubKey pubkeys (done ++ [sig])
      (matchKey ctx scriptPubKey sig pubkeys sigs) := by
  obtain ⟨hsame, hall⟩ | ⟨k, hk, hnot, hcheck, hinsert⟩ :=
    @matchKey_spec ctx scriptPubKey pubkeys sig sigs
  · rw [hsame]
    refine ⟨fun k w hw => ?_, fun w hw k hk hcheck => ?_⟩
    · obtain ⟨hk, hdone, hcheck⟩ := h.right k w hw
      exact ⟨hk, List.mem_append_left _ hdone, hcheck⟩
    · obtain hw | hw := List.mem_append.mp hw
      · exact h.all w hw k hk hcheck
      · obtain rfl := List.mem_singleton.mp hw
        exact hall k hk hcheck
  · rw [hinsert]
    refine ⟨fun k' w hw => ?_, fun w hw k' hk' hcheck' => ?_⟩
    · rw [Std.TreeMap.getElem?_insert] at hw
      split at hw
      · rename_i heq
        obtain rfl := Std.LawfulEqCmp.eq_of_compare heq
        obtain rfl := Option.some.inj hw
        exact ⟨hk, List.mem_append_right _ (List.mem_singleton_self _), hcheck⟩
      · obtain ⟨hk', hdone, hcheck'⟩ := h.right k' w hw
        exact ⟨hk', List.mem_append_left _ hdone, hcheck'⟩
    · rw [Std.TreeMap.mem_insert]
      obtain hw | hw := List.mem_append.mp hw
      · exact Or.inr (h.all w hw k' hk' hcheck')
      · obtain rfl := List.mem_singleton.mp hw
        obtain rfl := hone w (List.mem_singleton_self _) k hk k' hk' hcheck hcheck'
        exact Or.inl Std.ReflCmp.compare_self

theorem matchSigs_matched {allsigs : List Valtype}
    (hone : Separate ctx scriptPubKey pubkeys allsigs) :
    Matched ctx scriptPubKey pubkeys allsigs (matchSigs ctx scriptPubKey pubkeys allsigs) := by
  induction allsigs using List.reverseRecOn with
  | nil =>
    refine ⟨fun k sig h => ?_, fun sig h => by cases h⟩
    simp [matchSigs] at h
  | append_singleton allsigs sig ih =>
    have hrest : Separate ctx scriptPubKey pubkeys allsigs :=
      fun v hv => hone v (List.mem_append_left _ hv)
    have hlast : Separate ctx scriptPubKey pubkeys [sig] :=
      fun v hv => hone v (List.mem_append_right _ hv)
    unfold matchSigs
    rw [List.foldl_append, List.foldl_cons, List.foldl_nil]
    exact (ih hrest).step hlast

/-- A key of the script has a signature among the values. -/
def hasSig (ctx : Context) (scriptPubKey : CScript) (values : List Valtype) (k : Valtype) : Bool :=
  values.any fun v => !v.isEmpty && checkSig ctx v k scriptPubKey

theorem hasSig_iff {values : List Valtype} {k : Valtype} :
    hasSig ctx scriptPubKey values k = true ↔
      ∃ v ∈ values, v ≠ [] ∧ checkSig ctx v k scriptPubKey = true := by
  simp [hasSig, List.any_eq_true]

/-- What the merged script holds for the keys. -/
structure Picked (ctx : Context) (scriptPubKey : CScript) (pubkeys values : List Valtype)
    (nSigsRequired : ℕ) (picked : List Valtype) : Prop where
  embeds : Embeds (fun sig k => checkSig ctx sig k scriptPubKey) picked pubkeys
  mem : ∀ sig ∈ picked, sig ∈ values ∧ sig ≠ []
  length : picked.length = min nSigsRequired (pubkeys.countP (hasSig ctx scriptPubKey values))
  covers : pubkeys.countP (hasSig ctx scriptPubKey values) ≤ nSigsRequired →
    ∀ k ∈ pubkeys, hasSig ctx scriptPubKey values k = true → hasSig ctx scriptPubKey picked k = true

theorem pickSigs_picked {sigs1 sigs2 : List Valtype} (nSigsRequired : ℕ)
    (hone : Separate ctx scriptPubKey pubkeys (sigs1 ++ sigs2)) :
    Picked ctx scriptPubKey pubkeys (sigs1 ++ sigs2) nSigsRequired
      (pickSigs (matchSigs ctx scriptPubKey pubkeys (allSigs sigs1 sigs2).toList) nSigsRequired
        pubkeys) := by
  have hmem : ∀ w, w ∈ (allSigs sigs1 sigs2).toList ↔ w ∈ sigs1 ++ sigs2 ∧ w ≠ [] := by
    intro w
    rw [mem_allSigs, List.mem_append]
  have hmatched := @matchSigs_matched ctx scriptPubKey pubkeys (allSigs sigs1 sigs2).toList
    fun v hv => hone v ((hmem v).mp hv).1
  generalize matchSigs ctx scriptPubKey pubkeys (allSigs sigs1 sigs2).toList = sigs at hmatched
  have hhas : ∀ k ∈ pubkeys, (sigs[k]?).isSome = hasSig ctx scriptPubKey (sigs1 ++ sigs2) k := by
    intro k hk
    rw [Bool.eq_iff_iff, hasSig_iff, Option.isSome_iff_exists]
    constructor
    · rintro ⟨sig, hsig⟩
      obtain ⟨-, hdone, hcheck⟩ := hmatched.right k sig hsig
      obtain ⟨hin, hne⟩ := (hmem sig).mp hdone
      exact ⟨sig, hin, hne, hcheck⟩
    · rintro ⟨v, hin, hne, hcheck⟩
      have hk' := hmatched.all v ((hmem v).mpr ⟨hin, hne⟩) k hk hcheck
      exact Option.isSome_iff_exists.mp (Std.TreeMap.isSome_getElem?_iff_mem.mpr hk')
  have hcount : (pubkeys.filterMap fun k => sigs[k]?).length =
      pubkeys.countP (hasSig ctx scriptPubKey (sigs1 ++ sigs2)) := by
    rw [List.length_filterMap_eq_countP]
    exact List.countP_congr fun k hk => by rw [hhas k hk]
  have hembeds := @embeds_filterMap _ _ (fun sig k => checkSig ctx sig k scriptPubKey) pubkeys
    (fun k => sigs[k]?) fun k _ sig hsig => (hmatched.right k sig hsig).2.2
  refine ⟨hembeds.of_sublist (List.take_sublist _ _), fun sig hsig => ?_, ?_, fun hfew k hk hk' => ?_⟩
  · obtain ⟨k, -, hlook⟩ := List.mem_filterMap.mp (List.mem_of_mem_take hsig)
    exact (hmem sig).mp (hmatched.right k sig hlook).2.1
  · rw [pickSigs, List.length_take, hcount]
  · have hlook := hhas k hk
    rw [hk', Option.isSome_iff_exists] at hlook
    obtain ⟨sig, hsig⟩ := hlook
    obtain ⟨-, hdone, hcheck⟩ := hmatched.right k sig hsig
    rw [pickSigs, List.take_of_length_le (by rwa [hcount]), hasSig_iff]
    exact ⟨sig, List.mem_filterMap.mpr ⟨k, hk, hsig⟩, ((hmem sig).mp hdone).2, hcheck⟩

end Matching

section Outputs

/-- An output that pays to several keys, with a script or with the hash of one. -/
structure MultisigOutput (crypto : Crypto) where
  numSigs : ℕ
  keys : List (ℕ × Valtype)
  script : CScript
  scriptPubKey : CScript
  pos : 1 ≤ numSigs
  le : numSigs ≤ keys.length
  few : keys.length ≤ 16
  opcodes_eq : opcodes script = some ((opN numSigs, []) ::
    (keys ++ [(opN keys.length, []), (OP_CHECKMULTISIG, [])]))
  canonical : ∀ k ∈ keys.map Prod.snd, isCanonicalPubKey k = true
  pays : scriptPubKey = script ∨ script.length ≤ MAX_SCRIPT_ELEMENT_SIZE ∧
    scriptPubKey = setDestination (.scriptID (scriptGetID crypto script))

namespace MultisigOutput

variable {crypto : Crypto} (out : MultisigOutput crypto)

/-- The keys, in their order. -/
def pubkeys : List Valtype := out.keys.map Prod.snd

/-- What comes behind the signatures in the script of an input. -/
def redeemPart : List Valtype := if out.scriptPubKey = out.script then [] else [out.script]

/-- The script of an input, with values for the signatures. -/
def scriptSig : List Valtype → CScript
  | [] => []
  | v :: values => pushAll (v :: values ++ out.redeemPart)

theorem sized : Keys out.keys := by
  intro key hkey
  have hcanonical := out.canonical _ (List.mem_map_of_mem hkey)
  unfold isCanonicalPubKey at hcanonical
  simp only [Bool.and_eq_true, decide_eq_true_eq] at hcanonical
  obtain ⟨hlow, hrest⟩ := hcanonical
  simp only [keySized, Bool.and_eq_true, decide_eq_true_eq]
  refine ⟨hlow, ?_⟩
  split_ifs at hrest
  · rw [beq_iff_eq] at hrest
    omega
  · rw [beq_iff_eq] at hrest
    omega

/-- The solutions that the script has. -/
def solutions : List Valtype :=
  [BitVec.ofNat 8 out.numSigs] :: (out.pubkeys ++ [[BitVec.ofNat 8 out.keys.length]])

theorem standard : Standard out.script out.solutions .multisig :=
  ⟨out.numSigs, out.keys, out.pos, out.le, out.few, out.sized, out.opcodes_eq, rfl⟩

theorem script_length : out.script.length ≤ 10000 := by
  have hfew := out.few
  refine length_of_operands out.opcodes_eq (fun op hop => ?_) ?_
  · simp only [List.mem_cons, List.mem_append, List.not_mem_nil, or_false] at hop
    obtain rfl | hop | rfl | rfl := hop
    · exact Nat.zero_le _
    · have hsized : 33 ≤ op.2.length ∧ op.2.length ≤ 120 := by
        simpa [keySized] using out.sized op hop
      exact hsized.2
    · exact Nat.zero_le _
    · exact Nat.zero_le _
  · simp only [List.length_cons, List.length_append, List.length_nil]
    omega

theorem script_ne_nil : out.script ≠ [] := by
  intro hnil
  have hs := out.opcodes_eq
  rw [hnil] at hs
  cases hs

/-- A value that is no key is not pushed in the script. -/
theorem fresh {v : Valtype} (hv : v = [] ∨ isCanonicalSignature v = true) :
    v.length < 2 ^ 32 ∧ Fresh out.script v := by
  have hsize : v.length ≤ 73 := by
    obtain rfl | hsig := hv
    · exact Nat.zero_le _
    · exact (canonical_size hsig).2
  refine ⟨by omega, fresh_of_operands out.opcodes_eq (by omega) fun op hop hlow => ?_⟩
  simp only [List.mem_cons, List.mem_append, List.not_mem_nil, or_false] at hop
  have hpos : ∀ n, 1 ≤ n → ¬opN n ≤ OP_PUSHDATA4 := by
    intro n hn h
    simp only [opN, OP_1, OP_PUSHDATA4] at h
    omega
  obtain rfl | hop | rfl | rfl := hop
  · exact absurd hlow (hpos _ out.pos)
  · have hcanonical := out.canonical _ (List.mem_map_of_mem hop)
    obtain rfl | hsig := hv
    · intro hnil
      rw [hnil] at hcanonical
      cases hcanonical
    · exact canonical_ne hsig hcanonical
  · exact absurd hlow (hpos _ (out.pos.trans out.le))
  · exact absurd hlow (by decide)

theorem hashed (hbare : out.scriptPubKey ≠ out.script) :
    out.script.length ≤ MAX_SCRIPT_ELEMENT_SIZE ∧
      opcodes out.scriptPubKey = some [(OP_HASH160, []),
        (20, leBytes 20 (crypto.hash160 out.script).toNat), (OP_EQUAL, [])] := by
  obtain heq | ⟨hsize, heq⟩ := out.pays
  · exact absurd heq hbare
  · rw [heq]
    obtain ⟨h, -, hs, hsol⟩ := standard_scriptID (scriptGetID crypto out.script)
    obtain rfl := (List.cons.inj hsol).1
    exact ⟨hsize, hs⟩

theorem redeemPart_size : ∀ v ∈ out.redeemPart, v.length ≤ MAX_SCRIPT_ELEMENT_SIZE := by
  intro v hv
  unfold redeemPart at hv
  split_ifs at hv with hbare
  · cases hv
  · obtain rfl := List.mem_singleton.mp hv
    exact (out.hashed hbare).1

theorem redeemPart_count : out.redeemPart.length ≤ 1 := by
  unfold redeemPart
  split_ifs
  · exact Nat.zero_le _
  · exact le_refl _

theorem not_scriptHash (hbare : out.scriptPubKey = out.script) :
    isPayToScriptHash out.scriptPubKey = false := by
  rw [hbare, ← Bool.not_eq_true, isPayToScriptHash_standard out.standard]
  exact fun h => by cases h

theorem scriptSig_ne_nil {values : List Valtype} (hne : values ≠ []) :
    out.scriptSig values = pushAll (values ++ out.redeemPart) := by
  cases values with
  | nil => exact absurd rfl hne
  | cons v values => rfl

/-- The stack that the script of an input leaves. -/
theorem evalScript_scriptSig {values : List Valtype} (ctx : Context) (hne : values ≠ [])
    (hsize : ∀ v ∈ values, v.length ≤ 100) (hcount : values.length ≤ 17) :
    evalScript ctx [] (out.scriptSig values) =
      .returned true (out.redeemPart.reverse ++ values.reverse) 0 := by
  have hsizes : ∀ v ∈ values ++ out.redeemPart, v.length ≤ MAX_SCRIPT_ELEMENT_SIZE := by
    rw [List.forall_mem_append]
    refine ⟨fun v hv => (hsize v hv).trans ?_, out.redeemPart_size⟩
    simp [MAX_SCRIPT_ELEMENT_SIZE]
  have hredeem := out.redeemPart_count
  have hlength : (values ++ out.redeemPart).length ≤ 18 := by
    rw [List.length_append]
    omega
  have hlen := pushAll_length hsizes (by decide)
  rw [MAX_SCRIPT_ELEMENT_SIZE] at hlen
  have hroom : (values ++ out.redeemPart).length * (520 + 5) ≤ 18 * (520 + 5) :=
    Nat.mul_le_mul_right _ hlength
  rw [out.scriptSig_ne_nil hne, ← List.reverse_append]
  exact evalScript_pushAll hsizes (by omega) (by omega)

end MultisigOutput

end Outputs

section Filling

variable {crypto : Crypto} {out : MultisigOutput crypto} {txTo : CTransaction} {i : ℕ}
  {values values' picked : List Valtype} {j : ℕ}

theorem checkSig_nil (ctx : Context) (k : Valtype) (scriptCode : CScript) :
    checkSig ctx [] k scriptCode = false := by
  unfold checkSig
  split_ifs
  · rfl
  · rfl

variable (out txTo i) in
/-- Values that CHECKMULTISIG takes: an empty one, signatures in the order of the keys that they
are for, and then empty ones. -/
structure Filled (values picked : List Valtype) (j : ℕ) : Prop where
  values_eq : values = [] :: (picked ++ List.replicate j [])
  room : picked.length + j ≤ out.numSigs
  embeds : Embeds (fun sig k => checkSig (verifyContext crypto txTo i) sig k out.script)
    picked out.pubkeys
  canonical : ∀ v ∈ picked, isCanonicalSignature v = true

theorem Filled.ne_nil (h : Filled out txTo i values picked j) : values ≠ [] := by
  rw [h.values_eq]
  exact List.cons_ne_nil _ _

theorem Filled.count (h : Filled out txTo i values picked j) : values.length ≤ 17 := by
  have hroom := h.room
  have hle := out.le
  have hfew := out.few
  rw [h.values_eq]
  simp only [List.length_cons, List.length_append, List.length_replicate]
  omega

theorem Filled.mem (h : Filled out txTo i values picked j) {v : Valtype} (hv : v ∈ values) :
    v = [] ∨ v ∈ picked := by
  rw [h.values_eq] at hv
  simp only [List.mem_cons, List.mem_append, List.mem_replicate] at hv
  obtain hv | hv | ⟨-, hv⟩ := hv
  · exact Or.inl hv
  · exact Or.inr hv
  · exact Or.inl hv

theorem Filled.size (h : Filled out txTo i values picked j) : ∀ v ∈ values, v.length ≤ 100 := by
  intro v hv
  obtain rfl | hv := h.mem hv
  · exact Nat.zero_le _
  · exact (canonical_size (h.canonical v hv)).2.trans (by omega)

/-- The signatures are encoded as is asked for, so that they fit where CheckSig takes them. -/
theorem Filled.fits (h : Filled out txTo i values picked j) :
    Embeds (fits (verifyContext crypto txTo i) out.script) picked out.pubkeys := by
  refine sublistForall₂_imp h.embeds fun v hv k hk hcheck => ?_
  unfold EvalScript.fits encodingOk
  rw [h.canonical v hv, out.canonical k hk, Bool.and_self, Bool.or_true, Bool.true_and]
  exact hcheck

/-- What the multisig script makes of the values. -/
theorem Filled.evaluates (h : Filled out txTo i values picked j) :
    ∃ fRet stack n, evalScript (verifyContext crypto txTo i) values.reverse out.script =
        .returned fRet stack n ∧
      (fRet && (stack.head?.map castToBool).getD false) = decide (picked.length = out.numSigs) ∧
      (fRet = true → stack ≠ []) := by
  have hroom := h.room
  have hvalues := h.values_eq
  by_cases hfull : picked.length + j = out.numSigs
  · obtain ⟨n, heval⟩ := @evalScript_multisig (verifyContext crypto txTo i) out.script []
      out.numSigs out.keys (picked ++ List.replicate j []).reverse [] out.pos out.le out.few
      out.sized out.opcodes_eq out.script_length (by
        rw [List.length_reverse, List.length_append, List.length_replicate]
        exact hfull) (by simp) (by
        intro v hv
        rw [List.mem_reverse, List.mem_append] at hv
        obtain hv | hv := hv
        · exact out.fresh (Or.inr (h.canonical v hv))
        · exact out.fresh (Or.inl (List.mem_replicate.mp hv).2))
    refine ⟨true, _, n, by rw [hvalues, List.reverse_cons]; exact heval, ?_, fun _ => by simp⟩
    rw [List.head?_cons, Option.map_some, Option.getD_some, Bool.true_and, castToBool_boolVch,
      Bool.eq_iff_iff, greedy_iff, embeds_reverse, decide_eq_true_eq]
    constructor
    · intro hembeds
      cases j with
      | zero => exact hfull
      | succ j =>
        -- an empty value is no signature
        obtain ⟨k, -, hfits⟩ := exists_of_sublistForall₂ hembeds []
          (List.mem_append_right _ (List.mem_replicate.mpr ⟨Nat.succ_ne_zero _, rfl⟩))
        rw [EvalScript.fits, checkSig_nil, Bool.and_false] at hfits
        cases hfits
    · intro hlength
      obtain rfl : j = 0 := by omega
      rw [List.replicate_zero, List.append_nil]
      exact h.fits
  · obtain ⟨stack, n, heval⟩ := @evalScript_multisig_short (verifyContext crypto txTo i)
      out.script values.reverse out.numSigs out.keys out.pos out.le out.few out.sized
      out.opcodes_eq out.script_length (by
        rw [List.length_reverse, hvalues]
        simp only [List.length_cons, List.length_append, List.length_replicate]
        omega)
    refine ⟨false, stack, n, heval, ?_, fun h => by cases h⟩
    rw [Bool.false_and, eq_comm, decide_eq_false_iff_not]
    omega

theorem verifyScript_fails {ctx : Context} {scriptSig scriptPubKey : CScript}
    {stack stack' : List Valtype} {n n' : ℕ}
    (hsig : evalScript ctx [] scriptSig = .returned true stack n)
    (heval : evalScript ctx stack scriptPubKey = .returned false stack' n') :
    verifyScript ctx scriptSig scriptPubKey = some (false, 0) := by
  unfold verifyScript
  rw [hsig]
  simp only [heval]

/-- The script of the input verifies just where all the signatures that are asked for are there. -/
theorem Filled.verifies (h : Filled out txTo i values picked j) :
    ∃ n, verifyScript (verifyContext crypto txTo i) (out.scriptSig values) out.scriptPubKey =
      some (decide (picked.length = out.numSigs), n) := by
  have hsig := out.evalScript_scriptSig (verifyContext crypto txTo i) h.ne_nil h.size h.count
  obtain ⟨fRet, stack, n, heval, hanswer, hstack⟩ := h.evaluates
  rw [← hanswer]
  by_cases hbare : out.scriptPubKey = out.script
  · have hnone : out.redeemPart = [] := if_pos hbare
    rw [hnone, List.reverse_nil, List.nil_append] at hsig
    refine ⟨0, ?_⟩
    have hplain := out.not_scriptHash hbare
    rw [hbare] at hplain ⊢
    cases fRet with
    | false => exact verifyScript_fails hsig heval
    | true =>
      cases stack with
      | nil => exact absurd rfl (hstack rfl)
      | cons back stack =>
        unfold verifyScript
        rw [hsig]
        simp only [heval, hplain, Bool.false_eq_true, and_false, if_false, List.head?_cons,
          Option.map_some, Option.getD_some, Bool.true_and]
        cases hback : castToBool back with
        | false => rfl
        | true => rfl
  · obtain ⟨hsize, hs⟩ := out.hashed hbare
    have hsome : out.redeemPart = [out.script] := if_neg hbare
    rw [out.scriptSig_ne_nil h.ne_nil, hsome]
    refine ⟨n, verifyScript_redeem (flags_p2sh _ _ _) (leBytes_length 20 _) hs rfl ?_ ?_ heval⟩
    · rw [List.forall_mem_append, List.forall_mem_singleton]
      refine ⟨fun v hv => (h.size v hv).trans ?_, hsize⟩
      simp [MAX_SCRIPT_ELEMENT_SIZE]
    · exact (h.count).trans (by omega)

theorem multisig_merged (hseparate : Separate (verifyContext crypto txTo i) out.script out.pubkeys
    (values ++ values')) :
    ∃ merged, combineMultisig (verifyContext crypto txTo i) out.script out.solutions values values' =
        some (pushAll ([] :: (merged ++ List.replicate (out.numSigs - merged.length) []))) ∧
      combineMultisig (verifyContext crypto txTo i) out.script out.solutions values' values =
        some (pushAll ([] :: (merged ++ List.replicate (out.numSigs - merged.length) []))) ∧
      Picked (verifyContext crypto txTo i) out.script out.pubkeys (values ++ values') out.numSigs
        merged := by
  have hnum : (BitVec.ofNat 8 out.numSigs).toNat = out.numSigs :=
    toNat_ofNat_small (out.le.trans out.few)
  refine ⟨_, ?_, ?_, pickSigs_picked out.numSigs hseparate⟩
  · unfold combineMultisig
    rw [if_neg (by simp [MultisigOutput.solutions])]
    simp only [MultisigOutput.solutions, Option.bind_eq_bind, List.head?_cons, Option.bind_some,
      List.getElem?_cons_zero, multisig_slice, hnum, Option.pure_def]
  · unfold combineMultisig
    rw [if_neg (by simp [MultisigOutput.solutions]), allSigs_comm]
    simp only [MultisigOutput.solutions, Option.bind_eq_bind, List.head?_cons, Option.bind_some,
      List.getElem?_cons_zero, multisig_slice, hnum, Option.pure_def]

/-- What is merged can be checked, if the signatures are encoded as is asked for. -/
theorem Picked.filled (h : Picked (verifyContext crypto txTo i) out.script out.pubkeys values
    out.numSigs picked) (hcanonical : ∀ v ∈ values, ∀ k ∈ out.pubkeys,
      checkSig (verifyContext crypto txTo i) v k out.script = true →
        isCanonicalSignature v = true) :
    Filled out txTo i ([] :: (picked ++ List.replicate (out.numSigs - picked.length) [])) picked
      (out.numSigs - picked.length) := by
  refine ⟨rfl, ?_, h.embeds, fun v hv => ?_⟩
  · have hle : picked.length ≤ out.numSigs := by
      rw [h.length]
      exact Nat.min_le_left _ _
    omega
  · obtain ⟨k, hk, hcheck⟩ := exists_of_sublistForall₂ h.embeds v hv
    exact hcanonical v (h.mem v hv).1 k hk hcheck

/-- What CombineSignatures makes of two scripts that leave values on the stack, and the redeem
script behind them. -/
theorem combineSignatures_stacks {scriptSig scriptSig' : CScript} {n n' : ℕ} {fRet fRet' : Bool}
    (hsig : evalScript (pushContext crypto) [] scriptSig =
      .returned fRet (out.redeemPart.reverse ++ values.reverse) n)
    (hsig' : evalScript (pushContext crypto) [] scriptSig' =
      .returned fRet' (out.redeemPart.reverse ++ values'.reverse) n')
    {merged : List Valtype} (hmerged : combineMultisig (verifyContext crypto txTo i) out.script
      out.solutions values values' = some (pushAll ([] :: merged))) :
    combineSignatures (verifyContext crypto txTo i) out.scriptPubKey scriptSig scriptSig' =
      some (out.scriptSig ([] :: merged)) := by
  have hsolved := solver_of_standard out.standard
  have hctx : (verifyContext crypto txTo i).crypto = crypto := rfl
  rw [out.scriptSig_ne_nil (List.cons_ne_nil _ _)]
  by_cases hbare : out.scriptPubKey = out.script
  · have hnone : out.redeemPart = [] := if_pos hbare
    rw [hnone, List.reverse_nil, List.nil_append] at hsig hsig'
    rw [hnone, List.append_nil, hbare, combineSignatures, hsolved, hctx, hsig, hsig', ← hmerged]
    simp only [Option.bind_eq_bind, Option.bind_some, combineStacks, List.reverse_reverse]
  · obtain ⟨-, hs⟩ := out.hashed hbare
    have hhash := solver_scripthash (leBytes_length 20 _) hs
    have hsome : out.redeemPart = [out.script] := if_neg hbare
    have hisEmpty : out.script.isEmpty = false := by
      rw [← Bool.not_eq_true, List.isEmpty_iff]
      exact out.script_ne_nil
    rw [hsome] at hsig hsig'
    rw [hsome, pushAll_append, pushAll_cons out.script, pushAll_nil, List.append_nil,
      combineSignatures, hhash, hctx, hsig, hsig']
    simp only [Option.bind_eq_bind, Option.bind_some, List.reverse_singleton,
      List.singleton_append, combineStacks, hisEmpty, Bool.false_eq_true, if_false, hsolved,
      List.length_cons, List.reverse_reverse, hmerged, Option.pure_def]

/-- CombineSignatures on any two scripts that leave values on the stack, whatever their order, some
of them signatures and some not. The result is the same either way, and verifies just where as many
keys as are asked for have a signature in one of the two. -/
theorem combineSignatures_verifies {scriptSig scriptSig' : CScript} {n n' : ℕ} {fRet fRet' : Bool}
    (hsig : evalScript (pushContext crypto) [] scriptSig =
      .returned fRet (out.redeemPart.reverse ++ values.reverse) n)
    (hsig' : evalScript (pushContext crypto) [] scriptSig' =
      .returned fRet' (out.redeemPart.reverse ++ values'.reverse) n')
    (hseparate : Separate (verifyContext crypto txTo i) out.script out.pubkeys (values ++ values'))
    (hcanonical : ∀ v ∈ values ++ values', ∀ k ∈ out.pubkeys,
      checkSig (verifyContext crypto txTo i) v k out.script = true →
        isCanonicalSignature v = true) :
    ∃ merged n, combineSignatures (verifyContext crypto txTo i) out.scriptPubKey scriptSig
        scriptSig' = some merged ∧
      combineSignatures (verifyContext crypto txTo i) out.scriptPubKey scriptSig' scriptSig =
        some merged ∧
      verifyScript (verifyContext crypto txTo i) merged out.scriptPubKey =
        some (decide (out.numSigs ≤ out.pubkeys.countP
          (hasSig (verifyContext crypto txTo i) out.script (values ++ values'))), n) := by
  obtain ⟨picked, hmerged, hmerged', hpicked⟩ := multisig_merged hseparate
  obtain ⟨n, hverify⟩ := (hpicked.filled hcanonical).verifies
  refine ⟨_, n, combineSignatures_stacks hsig hsig' hmerged,
    combineSignatures_stacks hsig' hsig hmerged', ?_⟩
  rw [hverify, hpicked.length]
  congr 3
  rw [eq_iff_iff]
  exact min_eq_left_iff

end Filling

section Demonstration

def demoPubkey (b : Byte) : Valtype := 2 :: b :: List.replicate 31 0

/-- Two of three keys. -/
def demoScript : CScript :=
  [BitVec.ofNat 8 (opN 2)] ++ pushAll [demoPubkey 1, demoPubkey 3, demoPubkey 5] ++
    [BitVec.ofNat 8 (opN 3), BitVec.ofNat 8 OP_CHECKMULTISIG]

def demoOutput : MultisigOutput demoSigner.toCrypto where
  numSigs := 2
  keys := [(33, demoPubkey 1), (33, demoPubkey 3), (33, demoPubkey 5)]
  script := demoScript
  scriptPubKey := setDestination (.scriptID (scriptGetID demoSigner.toCrypto demoScript))
  pos := by decide
  le := by decide
  few := by decide
  opcodes_eq := by decide
  canonical := by decide
  pays := Or.inr ⟨by decide, rfl⟩

/-- A signature tells the key that it is for. -/
theorem demo_checkSig_unique {txTo : CTransaction} {i : ℕ} {v k k' : Valtype}
    (hk : k ∈ demoOutput.pubkeys) (hk' : k' ∈ demoOutput.pubkeys)
    (hcheck : checkSig (verifyContext demoSigner.toCrypto txTo i) v k demoScript = true)
    (hcheck' : checkSig (verifyContext demoSigner.toCrypto txTo i) v k' demoScript = true) :
    k = k' := by
  have hkeys : ∀ k ∈ demoOutput.pubkeys, (k.drop 1).take 32 = k.drop 1 ∧ k = 2 :: k.drop 1 ∧
      (k.drop 1).length = 32 := by
    decide
  obtain ⟨htake, hcons, hlength⟩ := hkeys k hk
  obtain ⟨htake', hcons', hlength'⟩ := hkeys k' hk'
  have hsigned : ∀ {k : Valtype}, (k.drop 1).take 32 = k.drop 1 →
      checkSig (verifyContext demoSigner.toCrypto txTo i) v k demoScript = true →
        ∃ hash, v.dropLast = demoSignature (k.drop 1) hash := by
    intro k htake hcheck
    unfold checkSig at hcheck
    split_ifs at hcheck
    cases hlast : v.getLast? with
    | none => simp [hlast] at hcheck
    | some back =>
      rw [hlast] at hcheck
      simp only [verifyContext, ne_eq, not_true, false_and, if_false, demoSigner, htake,
        beq_iff_eq] at hcheck
      exact ⟨_, hcheck⟩
  obtain ⟨hash, hsig⟩ := hsigned htake hcheck
  obtain ⟨hash', hsig'⟩ := hsigned htake' hcheck'
  rw [hsig] at hsig'
  simp only [demoSignature, List.cons.injEq, true_and] at hsig'
  have hvch := (List.append_inj hsig' (by rw [hlength, hlength'])).1
  rw [hcons, hcons', hvch]

/-- What the holder of a key signs. -/
def demoSig (b : Byte) : Valtype :=
  demoSigner.ecdsaSign (demoKey b).vch
    (signatureHash demoSigner.hash256 demoScript demoSpend 0 1) 0 ++ [1]

theorem demo_combined : ∃ merged n,
    combineSignatures (verifyContext demoSigner.toCrypto demoSpend 0) demoOutput.scriptPubKey
      (demoOutput.scriptSig [[], demoSig 3]) (demoOutput.scriptSig [demoSig 1, []]) = some merged ∧
    combineSignatures (verifyContext demoSigner.toCrypto demoSpend 0) demoOutput.scriptPubKey
      (demoOutput.scriptSig [demoSig 1, []]) (demoOutput.scriptSig [[], demoSig 3]) = some merged ∧
    verifyScript (verifyContext demoSigner.toCrypto demoSpend 0) merged demoOutput.scriptPubKey =
      some (decide (2 ≤ demoOutput.pubkeys.countP
        (hasSig (verifyContext demoSigner.toCrypto demoSpend 0) demoScript
          ([[], demoSig 3] ++ [demoSig 1, []]))), n) := by
  have hcanonical : ∀ b : Byte, (demoKey b).fValid = true →
      isCanonicalSignature (demoSig b) = true :=
    fun b hvalid => demo_signs.canonical _ _ hvalid 1 (by decide)
  have hsig1 := hcanonical 1 rfl
  have hsig3 := hcanonical 3 rfl
  have hsize : ∀ v ∈ [[], demoSig 3] ++ [demoSig 1, []], v.length ≤ 100 := by
    have h1 := (canonical_size hsig1).2
    have h3 := (canonical_size hsig3).2
    simp only [List.cons_append, List.nil_append, List.forall_mem_cons, List.not_mem_nil,
      false_implies, implies_true, and_true, List.length_nil]
    omega
  refine combineSignatures_verifies
    (demoOutput.evalScript_scriptSig _ (List.cons_ne_nil _ _)
      (fun v hv => hsize v (List.mem_append_left _ hv)) (by decide))
    (demoOutput.evalScript_scriptSig _ (List.cons_ne_nil _ _)
      (fun v hv => hsize v (List.mem_append_right _ hv)) (by decide))
    (fun v _ k hk k' hk' => demo_checkSig_unique hk hk') fun v hv k hk hcheck => ?_
  simp only [List.cons_append, List.nil_append, List.mem_cons, List.not_mem_nil, or_false] at hv
  obtain rfl | rfl | rfl | rfl := hv
  · rw [checkSig_nil] at hcheck
    cases hcheck
  · exact hsig3
  · exact hsig1
  · rw [checkSig_nil] at hcheck
    cases hcheck

end Demonstration

end UmbrellaLtc.CombineSignatures
