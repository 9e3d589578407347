import UmbrellaLtc.CombineSignatures

/-!
Several holders of keys sign one transaction with signrawtransaction. Copies of it go from one to
another in any order, and a holder who gets several merges them. An input that pays to several keys
verifies as soon as the holders that a copy comes from have as many of its keys as it asks for.
-/

namespace UmbrellaLtc.CoSigning

open Codec Transaction Script SignatureHash EvalScript ScriptOps Solver GreedyMatch KeyStore
  StandardScripts Signing CombineSignatures

section Functions

variable (crypto : SignCrypto)

/-- `(nHashType & ~SIGHASH_ANYONECANPAY) == SIGHASH_SINGLE`. -/
def fHashSingle (nHashType : BitVec 32) : Bool :=
  nHashType &&& ~~~SIGHASH_ANYONECANPAY == SIGHASH_SINGLE

/-- The signature of signrawtransaction for an input, whose scriptSig has been cleared. -/
def signCleared (keystore : CKeyStore) (draws : ℕ → ℕ) (nHashType : BitVec 32)
    (prevPubKey : CScript) (mergedTx : CTransaction) (i : ℕ) : Option CTransaction :=
  let mergedTx := setScriptSig mergedTx i []
  if !fHashSingle nHashType || i < mergedTx.vout.length then
    (signSignature crypto keystore draws prevPubKey mergedTx i nHashType).map Prod.snd
  else some mergedTx

/-- `txin.scriptSig = CombineSignatures(…)` for the variants, one after another. An input that a
variant does not have is none. -/
def mergeVariants (prevPubKey : CScript) (i : ℕ) :
    List CTransaction → CTransaction → Option CTransaction
  | [], mergedTx => some mergedTx
  | txv :: txVariants, mergedTx => do
      let txin ← mergedTx.vin[i]?
      let variant ← txv.vin[i]?
      let scriptSig ← combineSignatures (verifyContext crypto.toCrypto mergedTx i) prevPubKey
        txin.scriptSig variant.scriptSig
      mergeVariants prevPubKey i txVariants (setScriptSig mergedTx i scriptSig)

/-- The body of the loop over the inputs: whether the input is complete, and mergedTx. -/
def signOne (coins : COutPoint → Option CScript) (keystore : CKeyStore) (draws : ℕ → ℕ)
    (nHashType : BitVec 32) (txVariants : List CTransaction) (mergedTx : CTransaction) (i : ℕ) :
    Option (Bool × CTransaction) := do
  let txin ← mergedTx.vin[i]?
  match coins txin.prevout with
  | none => return (false, mergedTx)
  | some prevPubKey =>
      let mergedTx ← signCleared crypto keystore draws nHashType prevPubKey mergedTx i
      let mergedTx ← mergeVariants crypto prevPubKey i txVariants mergedTx
      let txin ← mergedTx.vin[i]?
      let (fRet, _) ← verifyScript (verifyContext crypto.toCrypto mergedTx i) txin.scriptSig prevPubKey
      return (fRet, mergedTx)

/-- The loop over the inputs, from one on: fComplete and mergedTx. -/
def signFrom (coins : COutPoint → Option CScript) (keystore : CKeyStore) (draws : ℕ → ℕ → ℕ)
    (nHashType : BitVec 32) (txVariants : List CTransaction) :
    List ℕ → Bool → CTransaction → Option (Bool × CTransaction)
  | [], fComplete, mergedTx => some (fComplete, mergedTx)
  | i :: inputs, fComplete, mergedTx => do
      let (fRet, mergedTx) ←
        signOne crypto coins keystore (draws i) nHashType txVariants mergedTx i
      signFrom coins keystore draws nHashType txVariants inputs (fComplete && fRet) mergedTx

/-- What signrawtransaction does with the transactions it is given: `complete` and the transaction
that it returns; none where it throws, or strays. -/
def signRawTransaction (coins : COutPoint → Option CScript) (keystore : CKeyStore)
    (draws : ℕ → ℕ → ℕ) (nHashType : BitVec 32) (txVariants : List CTransaction) :
    Option (Bool × CTransaction) := do
  let mergedTx ← txVariants.head?
  signFrom crypto coins keystore draws nHashType txVariants (List.range mergedTx.vin.length) true
    mergedTx

end Functions

section Copies

variable {crypto : SignCrypto} (out : MultisigOutput crypto.toCrypto) (txTo : CTransaction) (i : ℕ)

/-- A signature that a holder of the key makes for the input. -/
def Genuine (vchSig k : Valtype) : Prop :=
  ∃ nHashType ∈ hashTypes, SignedFor crypto txTo i out.script nHashType vchSig k

/-- What is assumed of the keys of the script: no signature that is made for one of them is right
for another. -/
def OneKey : Prop :=
  ∀ vchSig, ∀ k ∈ out.pubkeys, Genuine out txTo i vchSig k → ∀ k' ∈ out.pubkeys,
    checkSig (verifyContext crypto.toCrypto txTo i) vchSig k' out.script = true → k' = k

/-- The store can sign for a key of the output: where the script is behind a hash, the store has it
too. -/
def contributes (k : Valtype) (keystore : CKeyStore) : Bool :=
  canSign crypto.toCrypto keystore k && (out.scriptPubKey == out.script ||
    keystore.getCScript (scriptGetID crypto.toCrypto out.script) == some out.script)

/-- What a copy of the transaction holds for the input: signatures of the holders that it comes
from. -/
structure Holds (holders : List CKeyStore) (values : List Valtype) (picked : List Valtype)
    (j : ℕ) : Prop extends Filled out txTo i values picked j where
  genuine : ∀ v ∈ picked, ∃ k ∈ out.pubkeys, Genuine out txTo i v k ∧
    holders.any (contributes out k) = true
  full : min out.numSigs (out.pubkeys.countP
    (hasSig (verifyContext crypto.toCrypto txTo i) out.script picked)) ≤ picked.length
  covers : out.numSigs ≤ out.pubkeys.countP
      (hasSig (verifyContext crypto.toCrypto txTo i) out.script picked) ∨
    ∀ k ∈ out.pubkeys, holders.any (contributes out k) = true →
      hasSig (verifyContext crypto.toCrypto txTo i) out.script picked k = true

variable {out txTo i} {holders holders' : List CKeyStore} {values values' picked picked' : List Valtype}
  {j j' : ℕ}

theorem Genuine.size (hsigns : Signs crypto) {v k : Valtype} (h : Genuine out txTo i v k) :
    v ≠ [] ∧ v.length ≤ 73 ∧ isCanonicalSignature v = true := by
  obtain ⟨t, ht, hsigned⟩ := h
  have hsize := hsigned.size hsigns ht
  refine ⟨?_, hsize.2, (hsigned.canonical hsigns ht).1⟩
  rintro rfl
  simp at hsize

theorem hasSig_mono {ctx : Context} {script : CScript} {vs ws : List Valtype}
    (h : ∀ v ∈ vs, v ≠ [] → v ∈ ws) {k : Valtype} (hk : hasSig ctx script vs k = true) :
    hasSig ctx script ws k = true := by
  rw [hasSig_iff] at hk ⊢
  obtain ⟨v, hv, hne, hcheck⟩ := hk
  exact ⟨v, h v hv hne, hne, hcheck⟩

theorem Holds.picked_sub (h : Holds out txTo i holders values picked j) :
    ∀ v ∈ picked, v ∈ values := by
  intro v hv
  rw [h.values_eq]
  exact List.mem_cons_of_mem _ (List.mem_append_left _ hv)

/-- A key has a signature in the copy only if a holder that the copy comes from has the key. -/
theorem Holds.contributed (hone : OneKey out txTo i)
    (h : Holds out txTo i holders values picked j) {k : Valtype} (hk : k ∈ out.pubkeys)
    {v : Valtype} (hv : v ∈ picked)
    (hcheck : checkSig (verifyContext crypto.toCrypto txTo i) v k out.script = true) :
    holders.any (contributes out k) = true := by
  obtain ⟨k', hk', hgenuine, hholder⟩ := h.genuine v hv
  obtain rfl := hone v k' hk' hgenuine k hk hcheck
  exact hholder

variable (out txTo i) in
/-- A copy of the transaction, with the values of the input: as it was at first, or signed. -/
inductive Copy (holders : List CKeyStore) : List Valtype → Prop
  | blank : (∀ k ∈ out.pubkeys, holders.any (contributes out k) = false) → Copy holders []
  | signed {values picked : List Valtype} {j : ℕ} :
      Holds out txTo i holders values picked j → Copy holders values

theorem Copy.genuine (h : Copy out txTo i holders values) :
    ∀ v ∈ values, v ≠ [] → ∃ k ∈ out.pubkeys, Genuine out txTo i v k ∧
      holders.any (contributes out k) = true := by
  intro v hv hne
  cases h with
  | blank hnone => cases hv
  | signed hholds => exact hholds.genuine v ((hholds.toFilled.mem hv).resolve_left hne)

theorem Copy.covers (h : Copy out txTo i holders values) {vs : List Valtype}
    (hsub : ∀ v ∈ values, v ∈ vs) (hfew : out.pubkeys.countP
      (hasSig (verifyContext crypto.toCrypto txTo i) out.script vs) < out.numSigs)
    {k : Valtype} (hk : k ∈ out.pubkeys) (hmine : holders.any (contributes out k) = true) :
    hasSig (verifyContext crypto.toCrypto txTo i) out.script vs k = true := by
  cases h with
  | blank hnone =>
    rw [hnone k hk] at hmine
    cases hmine
  | @signed _ picked _ hholds =>
    have hmono : ∀ k, hasSig (verifyContext crypto.toCrypto txTo i) out.script picked k = true →
        hasSig (verifyContext crypto.toCrypto txTo i) out.script vs k = true :=
      fun k hk => hasSig_mono (fun v hv _ => hsub v (hholds.picked_sub v hv)) hk
    obtain hfull | hcovers := hholds.covers
    · have hle := List.countP_mono_left (l := out.pubkeys) fun k _ => hmono k
      omega
    · exact hmono k (hcovers k hk hmine)

theorem Holds.of_same (h : Holds out txTo i holders values picked j)
    (hsame : ∀ k ∈ out.pubkeys, holders'.any (contributes out k) = holders.any (contributes out k)) :
    Holds out txTo i holders' values picked j := by
  refine ⟨h.toFilled, fun v hv => ?_, h.full, ?_⟩
  · obtain ⟨k, hk, hgenuine, hholder⟩ := h.genuine v hv
    exact ⟨k, hk, hgenuine, by rwa [hsame k hk]⟩
  · obtain hfull | hcovers := h.covers
    · exact Or.inl hfull
    · exact Or.inr fun k hk hholder => hcovers k hk (by rwa [← hsame k hk])

/-- Two copies are merged. -/
theorem Copy.merge (hsigns : Signs crypto) (hone : OneKey out txTo i)
    (h : Copy out txTo i holders values) (h' : Copy out txTo i holders' values') :
    ∃ merged, combineMultisig (verifyContext crypto.toCrypto txTo i) out.script out.solutions values
        values' =
          some (pushAll ([] :: (merged ++ List.replicate (out.numSigs - merged.length) []))) ∧
      Holds out txTo i (holders ++ holders')
        ([] :: (merged ++ List.replicate (out.numSigs - merged.length) [])) merged
        (out.numSigs - merged.length) := by
  -- a value of the copies is a signature of one of their holders
  have hgenuine : ∀ v ∈ values ++ values', v ≠ [] → ∃ k ∈ out.pubkeys, Genuine out txTo i v k ∧
      (holders ++ holders').any (contributes out k) = true := by
    intro v hv hne
    simp only [List.any_append, Bool.or_eq_true]
    obtain hv | hv := List.mem_append.mp hv
    · obtain ⟨k, hk, hgen, hmine⟩ := h.genuine v hv hne
      exact ⟨k, hk, hgen, Or.inl hmine⟩
    · obtain ⟨k, hk, hgen, hmine⟩ := h'.genuine v hv hne
      exact ⟨k, hk, hgen, Or.inr hmine⟩
  have hseparate : Separate (verifyContext crypto.toCrypto txTo i) out.script out.pubkeys
      (values ++ values') := by
    intro v hv k hk k' hk' hcheck hcheck'
    have hne : v ≠ [] := by
      rintro rfl
      rw [checkSig_nil] at hcheck
      cases hcheck
    obtain ⟨k₀, hk₀, hgen, -⟩ := hgenuine v hv hne
    rw [hone v k₀ hk₀ hgen k hk hcheck, hone v k₀ hk₀ hgen k' hk' hcheck']
  obtain ⟨merged, hmerged, -, hpicked⟩ := multisig_merged hseparate
  refine ⟨merged, hmerged, ⟨hpicked.filled fun v hv k hk hcheck => ?_, ?_, ?_, ?_⟩⟩
  · have hne : v ≠ [] := by
      rintro rfl
      rw [checkSig_nil] at hcheck
      cases hcheck
    obtain ⟨k', -, hgen, -⟩ := hgenuine v hv hne
    exact (hgen.size hsigns).2.2
  · intro v hv
    obtain ⟨hin, hne⟩ := hpicked.mem v hv
    exact hgenuine v hin hne
  · rw [hpicked.length]
    apply min_le_min_left
    apply List.countP_mono_left
    exact fun k _ hk => hasSig_mono (fun v hv _ => (hpicked.mem v hv).1) hk
  · by_cases hmany : out.numSigs ≤ out.pubkeys.countP
        (hasSig (verifyContext crypto.toCrypto txTo i) out.script (values ++ values'))
    · apply Or.inl
      have hcount := hpicked.embeds.length_le_countP
        (p := hasSig (verifyContext crypto.toCrypto txTo i) out.script merged)
        fun sig hsig k _ hcheck => hasSig_iff.mpr ⟨sig, hsig, (hpicked.mem sig hsig).2, hcheck⟩
      rwa [hpicked.length, Nat.min_eq_left hmany] at hcount
    · apply Or.inr
      intro k hk hmine
      apply hpicked.covers (by omega) k hk
      rw [List.any_append, Bool.or_eq_true] at hmine
      obtain hmine | hmine := hmine
      · exact h.covers (fun v hv => List.mem_append_left _ hv) (by omega) hk hmine
      · exact h'.covers (fun v hv => List.mem_append_right _ hv) (by omega) hk hmine

end Copies

section Scripts

variable {crypto : SignCrypto} {out : MultisigOutput crypto.toCrypto} {txTo txTo' : CTransaction}
  {i : ℕ} {holders holders' : List CKeyStore} {values values' picked : List Valtype} {j : ℕ}

/-- The copy has all the signatures that are asked for just where its holders have the keys. -/
theorem Holds.complete_iff (hone : OneKey out txTo i)
    (h : Holds out txTo i holders values picked j) :
    picked.length = out.numSigs ↔
      out.numSigs ≤ out.pubkeys.countP fun k => holders.any (contributes out k) := by
  constructor
  · intro hlength
    rw [← hlength]
    exact h.embeds.length_le_countP fun v hv k hk hcheck => h.contributed hone hk hv hcheck
  · intro hmany
    have hroom := h.room
    have hfull := h.full
    have hhas : out.numSigs ≤ out.pubkeys.countP
        (hasSig (verifyContext crypto.toCrypto txTo i) out.script picked) := by
      obtain hcovers | hcovers := h.covers
      · exact hcovers
      · exact hmany.trans (List.countP_mono_left hcovers)
    rw [Nat.min_eq_left hhas] at hfull
    omega

/-- A copy verifies just where its holders have the keys. -/
theorem Copy.verifies (hone : OneKey out txTo i)
    (h : Copy out txTo i holders values) :
    ∃ n, verifyScript (verifyContext crypto.toCrypto txTo i) (out.scriptSig values)
      out.scriptPubKey = some (decide (out.numSigs ≤
        out.pubkeys.countP fun k => holders.any (contributes out k)), n) := by
  cases h with
  | blank hnone =>
    have hcount : ¬out.numSigs ≤ out.pubkeys.countP fun k => holders.any (contributes out k) := by
      have hzero : (out.pubkeys.countP fun k => holders.any (contributes out k)) = 0 :=
        List.countP_eq_zero.mpr fun k hk => by rw [hnone k hk]; exact Bool.false_ne_true
      have hpos := out.pos
      omega
    rw [decide_eq_false hcount]
    have hempty : evalScript (verifyContext crypto.toCrypto txTo i) [] [] = .returned true [] 0 := rfl
    refine ⟨0, ?_⟩
    by_cases hbare : out.scriptPubKey = out.script
    · obtain ⟨stack, n, heval⟩ := @evalScript_multisig_short (verifyContext crypto.toCrypto txTo i)
        out.script [] out.numSigs out.keys out.pos out.le out.few out.sized out.opcodes_eq
        out.script_length (Nat.zero_le _)
      rw [hbare]
      exact verifyScript_fails hempty heval
    · obtain ⟨-, hs⟩ := out.hashed hbare
      exact verifyScript_fails hempty (evalScript_scripthash_empty (leBytes_length 20 _) hs)
  | @signed _ picked j hholds =>
    obtain ⟨n, hverify⟩ := hholds.toFilled.verifies
    rw [hverify, decide_eq_decide.mpr (hholds.complete_iff hone)]
    exact ⟨n, rfl⟩

/-- The stack that the script of a copy leaves. -/
theorem Holds.evalScript_scriptSig (h : Holds out txTo i holders values picked j) (ctx : Context) :
    evalScript ctx [] (out.scriptSig values) =
      .returned true (out.redeemPart.reverse ++ values.reverse) 0 :=
  out.evalScript_scriptSig ctx h.ne_nil h.size h.count

/-- Behind a hash, the script that is empty gives way to the other. -/
theorem combineSignatures_blank {scriptSig' : CScript} {stack' : List Valtype} {fRet' : Bool} {n' : ℕ}
    {ctx : Context} (hbare : out.scriptPubKey ≠ out.script)
    (hsig' : evalScript (pushContext ctx.crypto) [] scriptSig' = .returned fRet' stack' n') :
    combineSignatures ctx out.scriptPubKey [] scriptSig' = some (pushAll stack'.reverse) := by
  obtain ⟨-, hs⟩ := out.hashed hbare
  have hempty : evalScript (pushContext ctx.crypto) [] [] = .returned true [] 0 := rfl
  rw [combineSignatures, solver_scripthash (leBytes_length 20 _) hs, hempty, hsig']
  simp only [Option.bind_eq_bind, Option.bind_some, combineStacks]

theorem combineSignatures_onto_blank {scriptSig : CScript} {stack : List Valtype} {fRet : Bool} {n : ℕ}
    {ctx : Context} (hbare : out.scriptPubKey ≠ out.script)
    (hsig : evalScript (pushContext ctx.crypto) [] scriptSig =
      .returned fRet (out.script :: stack) n) :
    combineSignatures ctx out.scriptPubKey scriptSig [] =
      some (pushAll (out.script :: stack).reverse) := by
  obtain ⟨-, hs⟩ := out.hashed hbare
  have hempty : evalScript (pushContext ctx.crypto) [] [] = .returned true [] 0 := rfl
  have hisEmpty : out.script.isEmpty = false := by
    rw [← Bool.not_eq_true, List.isEmpty_iff]
    exact out.script_ne_nil
  rw [combineSignatures, solver_scripthash (leBytes_length 20 _) hs, hempty, hsig]
  simp only [Option.bind_eq_bind, Option.bind_some, combineStacks, hisEmpty, Bool.false_eq_true,
    if_false]

/-- The scripts of two copies are combined to that of a copy, which comes from the holders of
both. -/
theorem Copy.combine (hsigns : Signs crypto) (hone : OneKey out txTo i)
    (h : Copy out txTo i holders values) (h' : Copy out txTo i holders' values') :
    ∃ merged, combineSignatures (verifyContext crypto.toCrypto txTo i) out.scriptPubKey
        (out.scriptSig values) (out.scriptSig values') = some (out.scriptSig merged) ∧
      Copy out txTo i (holders ++ holders') merged := by
  obtain ⟨picked, hcombine, hholds⟩ := h.merge hsigns hone h'
  by_cases hbare : out.scriptPubKey = out.script
  · have hnone : out.redeemPart = [] := if_pos hbare
    have hstack : ∀ {hs : List CKeyStore} {vs : List Valtype}, Copy out txTo i hs vs →
        evalScript (pushContext crypto.toCrypto) [] (out.scriptSig vs) =
          .returned true (out.redeemPart.reverse ++ vs.reverse) 0 := by
      intro hs vs hcopy
      cases hcopy with
      | blank => rw [hnone]; rfl
      | signed hholds => exact hholds.evalScript_scriptSig _
    exact ⟨_, combineSignatures_stacks (hstack h) (hstack h') hcombine, .signed hholds⟩
  · have hsome : out.redeemPart = [out.script] := if_neg hbare
    cases h with
    | blank hnone =>
      cases h' with
      | blank hnone' =>
        have hempty : evalScript (pushContext crypto.toCrypto) [] [] = .returned true [] 0 := rfl
        refine ⟨[], combineSignatures_blank hbare hempty, .blank fun k hk => ?_⟩
        rw [List.any_append, hnone k hk, hnone' k hk]
        rfl
      | signed hholds' =>
        have hscript := @combineSignatures_blank crypto out _ _ _ _
          (verifyContext crypto.toCrypto txTo i) hbare (hholds'.evalScript_scriptSig _)
        rw [← List.reverse_append, List.reverse_reverse, ← out.scriptSig_ne_nil hholds'.ne_nil]
          at hscript
        refine ⟨values', hscript, .signed (hholds'.of_same fun k hk => ?_)⟩
        rw [List.any_append, hnone k hk, Bool.false_or]
    | signed hholds₁ =>
      cases h' with
      | blank hnone' =>
        have hsig := hholds₁.evalScript_scriptSig (pushContext crypto.toCrypto)
        rw [hsome, List.reverse_singleton, List.singleton_append] at hsig
        have hscript := @combineSignatures_onto_blank crypto out _ _ _ _
          (verifyContext crypto.toCrypto txTo i) hbare hsig
        rw [List.reverse_cons, List.reverse_reverse, ← hsome, ← out.scriptSig_ne_nil hholds₁.ne_nil]
          at hscript
        refine ⟨values, hscript, .signed (hholds₁.of_same fun k hk => ?_)⟩
        rw [List.any_append, hnone' k hk, Bool.or_false]
      | signed hholds' =>
        exact ⟨_, combineSignatures_stacks (hholds₁.evalScript_scriptSig _)
          (hholds'.evalScript_scriptSig _) hcombine, .signed hholds⟩

/-- What a copy holds does not depend on the scripts of the inputs. -/
theorem Copy.of_unsigned (htx : unsigned txTo' = unsigned txTo)
    (h : Copy out txTo i holders values) : Copy out txTo' i holders values := by
  have hcheck : checkSig (verifyContext crypto.toCrypto txTo' i) =
      checkSig (verifyContext crypto.toCrypto txTo i) := checkSig_unsigned htx
  have hhas : hasSig (verifyContext crypto.toCrypto txTo' i) out.script =
      hasSig (verifyContext crypto.toCrypto txTo i) out.script := by
    unfold hasSig
    rw [hcheck]
  have hgenuine : Genuine out txTo' i = Genuine out txTo i := by
    unfold Genuine SignedFor
    funext v k
    simp only [signatureHash_unsigned _ _ _ htx]
  cases h with
  | blank hnone => exact .blank hnone
  | @signed _ picked j hholds =>
    refine @Copy.signed _ out txTo' i holders values picked j
      ⟨⟨hholds.values_eq, hholds.room, ?_, hholds.canonical⟩, ?_, ?_, ?_⟩
    · rw [hcheck]
      exact hholds.embeds
    · rw [hgenuine]
      exact hholds.genuine
    · rw [hhas]
      exact hholds.full
    · rw [hhas]
      exact hholds.covers

theorem OneKey.of_unsigned (htx : unsigned txTo' = unsigned txTo) (h : OneKey out txTo i) :
    OneKey out txTo' i := by
  have hgenuine : Genuine out txTo' i = Genuine out txTo i := by
    unfold Genuine SignedFor
    funext v k
    simp only [signatureHash_unsigned _ _ _ htx]
  unfold OneKey at h ⊢
  rw [hgenuine, checkSig_unsigned htx]
  exact h

end Scripts

section Holders

variable {crypto : SignCrypto} {out : MultisigOutput crypto.toCrypto} {txTo : CTransaction} {i : ℕ}
  {keystore : CKeyStore} {nHashType : BitVec 32}

/-- What is asked of a holder: the store is sound, and takes no key and no script of the output for
another of the same address. -/
structure Holder (out : MultisigOutput crypto.toCrypto) (keystore : CKeyStore) : Prop where
  sound : Sound crypto.toKeyCrypto keystore
  distinct : Distinct crypto.toCrypto keystore out.script
  script : ∀ redeem, keystore.getCScript (scriptGetID crypto.toCrypto out.script) = some redeem →
    redeem = out.script

/-- The signatures that a holder makes are a copy. -/
theorem holds_signed (hsigns : Signs crypto) (hone : OneKey out txTo i)
    (htype : nHashType ∈ hashTypes) {sigs : List Valtype}
    (hcan : ∀ k ∈ out.pubkeys, contributes out k keystore = canSign crypto.toCrypto keystore k)
    (hsub : List.SublistForall₂ (fun vchSig k =>
      Signed crypto (signatureHash crypto.hash256 out.script txTo i nHashType) nHashType vchSig k ∧
        canSign crypto.toCrypto keystore k = true) sigs out.pubkeys)
    (hlen : sigs.length = min out.numSigs (out.pubkeys.countP (canSign crypto.toCrypto keystore))) :
    Holds out txTo i [keystore] ([] :: sigs) sigs 0 := by
  have hany : ∀ k ∈ out.pubkeys, [keystore].any (contributes out k) =
      canSign crypto.toCrypto keystore k := by
    intro k hk
    rw [List.any_cons, List.any_nil, Bool.or_false, hcan k hk]
  have hgenuine : ∀ v ∈ sigs, ∃ k ∈ out.pubkeys, Genuine out txTo i v k ∧
      canSign crypto.toCrypto keystore k = true := by
    intro v hv
    obtain ⟨k, hk, hsigned, hmine⟩ := exists_of_sublistForall₂ hsub v hv
    exact ⟨k, hk, ⟨nHashType, htype, hsigned⟩, hmine⟩
  have hembeds : Embeds (fun sig k => checkSig (verifyContext crypto.toCrypto txTo i) sig k
      out.script) sigs out.pubkeys := by
    refine sublistForall₂_imp hsub fun v _ k _ hR => ?_
    have hfits := hR.1.fits hsigns htype
    rw [EvalScript.fits, Bool.and_eq_true] at hfits
    exact hfits.2
  have hhas : ∀ k ∈ out.pubkeys,
      hasSig (verifyContext crypto.toCrypto txTo i) out.script sigs k = true →
        canSign crypto.toCrypto keystore k = true := by
    intro k hk hsig
    obtain ⟨v, hv, -, hcheck⟩ := hasSig_iff.mp hsig
    obtain ⟨k', hk', hgen, hmine⟩ := hgenuine v hv
    obtain rfl := hone v k' hk' hgen k hk hcheck
    exact hmine
  have hcount : sigs.length ≤
      out.pubkeys.countP (hasSig (verifyContext crypto.toCrypto txTo i) out.script sigs) := by
    refine hembeds.length_le_countP fun v hv k hk hcheck => hasSig_iff.mpr ⟨v, hv, ?_, hcheck⟩
    obtain ⟨k', -, hgen, -⟩ := hgenuine v hv
    exact (hgen.size hsigns).1
  refine ⟨⟨by rw [List.replicate_zero, List.append_nil], ?_, hembeds, fun v hv => ?_⟩, ?_, ?_, ?_⟩
  · rw [hlen, Nat.add_zero]
    exact Nat.min_le_left _ _
  · obtain ⟨k, -, hgen, -⟩ := hgenuine v hv
    exact (hgen.size hsigns).2.2
  · intro v hv
    obtain ⟨k, hk, hgen, hmine⟩ := hgenuine v hv
    exact ⟨k, hk, hgen, by rwa [hany k hk]⟩
  · rw [hlen]
    exact min_le_min_left _ (List.countP_mono_left hhas)
  · by_cases hmany : out.numSigs ≤ out.pubkeys.countP (canSign crypto.toCrypto keystore)
    · rw [Nat.min_eq_left hmany] at hlen
      exact Or.inl (by omega)
    · rw [Nat.min_eq_right (by omega)] at hlen
      apply Or.inr
      intro k hk hmine
      rw [hany k hk] at hmine
      exact GreedyMatch.of_countP_le hhas (by omega) hk hmine

theorem signInput_plain {draws : ℕ → ℕ} {fromPubKey scriptSig : CScript} {fRet : Bool}
    {t : TxnOutType} (hsolve : Signing.solver crypto keystore draws fromPubKey
      (signatureHash crypto.hash256 fromPubKey txTo i nHashType) nHashType =
        some (fRet, t, scriptSig)) (ht : t ≠ .scripthash) :
    signInput crypto keystore draws fromPubKey txTo i nHashType = some (fRet, scriptSig) := by
  cases fRet with
  | false => simp [signInput, hsolve]
  | true => simp [signInput, hsolve, ht]

theorem signInput_hash {draws : ℕ → ℕ} {fromPubKey redeem scriptSig : CScript} {fRet : Bool}
    {t : TxnOutType} (houter : Signing.solver crypto keystore draws fromPubKey
      (signatureHash crypto.hash256 fromPubKey txTo i nHashType) nHashType =
        some (true, .scripthash, redeem))
    (hsolve : Signing.solver crypto keystore draws redeem
      (signatureHash crypto.hash256 redeem txTo i nHashType) nHashType = some (fRet, t, scriptSig))
    (ht : t ≠ .scripthash) :
    signInput crypto keystore draws fromPubKey txTo i nHashType =
      some (fRet, scriptSig ++ pushScript redeem) := by
  simp [signInput, houter, hsolve, ht]

/-- SignSignature puts the script into the input, where the test of it gives an answer. -/
theorem signSignature_of_signInput {draws : ℕ → ℕ} {fromPubKey scriptSig : CScript}
    {fSolved : Bool} (hi : i < txTo.vin.length)
    (hinput : signInput crypto keystore draws fromPubKey txTo i nHashType =
      some (fSolved, scriptSig))
    (htest : ∃ b n, verifyScript (verifyContext crypto.toCrypto (setScriptSig txTo i scriptSig) i)
      scriptSig fromPubKey = some (b, n)) :
    ∃ ok, signSignature crypto keystore draws fromPubKey txTo i nHashType =
      some (ok, setScriptSig txTo i scriptSig) := by
  obtain ⟨b, n, hverify⟩ := htest
  rw [signSignature, if_neg (Nat.not_le.mpr hi), hinput]
  simp only [Option.bind_eq_bind, Option.bind_some, hverify, Option.pure_def]
  cases fSolved with
  | false => exact ⟨false, rfl⟩
  | true => exact ⟨b, rfl⟩

/-- What SignSignature makes of the input is a copy of the holder's own. -/
theorem signSignature_copy (hsigns : Signs crypto) (hone : OneKey out txTo i)
    (htype : nHashType ∈ hashTypes) (hholder : Holder out keystore) (hi : i < txTo.vin.length)
    (draws : ℕ → ℕ) :
    ∃ ok values, signSignature crypto keystore draws out.scriptPubKey txTo i nHashType =
        some (ok, setScriptSig txTo i (out.scriptSig values)) ∧
      Copy out txTo i [keystore] values := by
  obtain ⟨sigs, hsolve, hsub, hlen⟩ := solver_multisig_signs hsigns hholder.sound out.pos out.le
    out.few out.sized out.opcodes_eq hholder.distinct draws
    (signatureHash crypto.hash256 out.script txTo i nHashType) nHashType
  have hholds : (∀ k ∈ out.pubkeys, contributes out k keystore =
      canSign crypto.toCrypto keystore k) → Copy out txTo i [keystore] ([] :: sigs) :=
    fun hcan => .signed (holds_signed hsigns hone htype hcan hsub hlen)
  -- the test of a copy gives an answer
  have hsign : ∀ {values : List Valtype} {fSolved : Bool},
      signInput crypto keystore draws out.scriptPubKey txTo i nHashType =
        some (fSolved, out.scriptSig values) → Copy out txTo i [keystore] values →
      ∃ ok values, signSignature crypto keystore draws out.scriptPubKey txTo i nHashType =
          some (ok, setScriptSig txTo i (out.scriptSig values)) ∧
        Copy out txTo i [keystore] values := by
    intro values fSolved hinput hcopy
    have htx := unsigned_setScriptSig txTo i (out.scriptSig values)
    obtain ⟨n, hverify⟩ := (hcopy.of_unsigned htx).verifies (hone.of_unsigned htx)
    obtain ⟨ok, hok⟩ := signSignature_of_signInput hi hinput ⟨_, n, hverify⟩
    exact ⟨ok, values, hok, hcopy⟩
  have hscript : out.scriptSig ([] :: sigs) = pushAll ([] :: sigs) ++ pushAll (out.redeemPart) := by
    rw [out.scriptSig_ne_nil (List.cons_ne_nil _ _), pushAll_append]
  by_cases hbare : out.scriptPubKey = out.script
  · have hnone : out.redeemPart = [] := if_pos hbare
    rw [hnone, pushAll_nil, List.append_nil] at hscript
    rw [← hbare] at hsolve
    have hinput := signInput_plain hsolve (fun h => by cases h)
    rw [← hscript] at hinput
    refine hsign hinput (hholds fun k _ => ?_)
    rw [contributes, hbare, beq_self_eq_true, Bool.true_or, Bool.and_true]
  · obtain ⟨-, hs⟩ := out.hashed hbare
    have hhash := solver_scripthash (leBytes_length 20 _) hs
    have hid : uint160 (leBytes 20 (crypto.hash160 out.script).toNat) =
        scriptGetID crypto.toCrypto out.script := uint160_leBytes _
    cases hget : keystore.getCScript (scriptGetID crypto.toCrypto out.script) with
    | none =>
      have houter : Signing.solver crypto keystore draws out.scriptPubKey
          (signatureHash crypto.hash256 out.scriptPubKey txTo i nHashType) nHashType =
            some (false, .scripthash, []) := by
        simp [Signing.solver, hhash, hid, hget]
      have hinput : signInput crypto keystore draws out.scriptPubKey txTo i nHashType =
          some (false, out.scriptSig []) := by
        simp [signInput, houter, MultisigOutput.scriptSig]
      refine hsign hinput (.blank fun k _ => ?_)
      have hbeq : (out.scriptPubKey == out.script) = false := beq_eq_false_iff_ne.mpr hbare
      simp [contributes, hbeq, hget]
    | some redeem =>
      obtain rfl := hholder.script redeem hget
      have houter : Signing.solver crypto keystore draws out.scriptPubKey
          (signatureHash crypto.hash256 out.scriptPubKey txTo i nHashType) nHashType =
            some (true, .scripthash, out.script) := by
        simp [Signing.solver, hhash, hid, hget]
      have hsome : out.redeemPart = [out.script] := if_neg hbare
      rw [hsome, pushAll_cons out.script, pushAll_nil, List.append_nil] at hscript
      have hinput := signInput_hash houter hsolve (fun h => by cases h)
      rw [← hscript] at hinput
      refine hsign hinput (hholds fun k _ => ?_)
      rw [contributes, hget, beq_self_eq_true, Bool.or_true, Bool.and_true]

end Holders

section Frames

variable {crypto : SignCrypto} {coins : COutPoint → Option CScript} {keystore : CKeyStore}
  {nHashType : BitVec 32} {txVariants : List CTransaction} {txTo txTo' txTo'' : CTransaction}
  {i j : ℕ} {scriptPubKey : CScript}

/-- The transactions differ in the script of an input only. -/
structure SameBut (i : ℕ) (txTo txTo' : CTransaction) : Prop where
  unsigned : unsigned txTo' = unsigned txTo
  other : ∀ j, j ≠ i → txTo'.vin[j]? = txTo.vin[j]?

theorem SameBut.refl (i : ℕ) (txTo : CTransaction) : SameBut i txTo txTo :=
  ⟨rfl, fun _ _ => rfl⟩

theorem SameBut.trans (h : SameBut i txTo txTo') (h' : SameBut i txTo' txTo'') :
    SameBut i txTo txTo'' :=
  ⟨h'.unsigned.trans h.unsigned, fun j hj => (h'.other j hj).trans (h.other j hj)⟩

theorem sameBut_setScriptSig (txTo : CTransaction) (i : ℕ) (scriptSig : CScript) :
    SameBut i txTo (setScriptSig txTo i scriptSig) := by
  refine ⟨unsigned_setScriptSig _ _ _, fun j hj => ?_⟩
  simp [setScriptSig, Ne.symm hj]

theorem length_of_unsigned (h : unsigned txTo' = unsigned txTo) :
    txTo'.vin.length = txTo.vin.length := by
  have hvin := congrArg (fun tx => tx.vin.length) h
  simpa [unsigned] using hvin

theorem vout_of_unsigned (h : unsigned txTo' = unsigned txTo) : txTo'.vout = txTo.vout := by
  have hvout := congrArg CTransaction.vout h
  exact hvout

theorem prevout_of_unsigned (h : unsigned txTo' = unsigned txTo) {txin txin' : CTxIn}
    (hvin : txTo.vin[i]? = some txin) (hvin' : txTo'.vin[i]? = some txin') :
    txin'.prevout = txin.prevout := by
  have hget := congrArg (fun tx => tx.vin[i]?.map CTxIn.prevout) h
  simpa [unsigned, hvin, hvin'] using hget

theorem signSignature_sameBut {draws : ℕ → ℕ} {ok : Bool}
    (h : signSignature crypto keystore draws scriptPubKey txTo i nHashType = some (ok, txTo')) :
    SameBut i txTo txTo' := by
  rw [signSignature] at h
  split_ifs at h with hroom
  simp only [Option.bind_eq_bind, Option.bind_eq_some_iff] at h
  obtain ⟨⟨fSolved, scriptSig⟩, -, h⟩ := h
  cases fSolved with
  | false =>
    obtain ⟨-, rfl⟩ := Prod.mk.inj (Option.some.inj h)
    exact sameBut_setScriptSig _ _ _
  | true =>
    simp only [Bool.not_true, Bool.false_eq_true, if_false, Option.bind_eq_some_iff] at h
    obtain ⟨⟨fRet, n⟩, -, h⟩ := h
    obtain ⟨-, rfl⟩ := Prod.mk.inj (Option.some.inj h)
    exact sameBut_setScriptSig _ _ _

theorem signCleared_sameBut {draws : ℕ → ℕ}
    (h : signCleared crypto keystore draws nHashType scriptPubKey txTo i = some txTo') :
    SameBut i txTo txTo' := by
  have hclear := sameBut_setScriptSig txTo i []
  simp only [signCleared] at h
  split_ifs at h with hsign
  · rw [Option.map_eq_some_iff] at h
    obtain ⟨⟨ok, tx⟩, hrun, rfl⟩ := h
    exact hclear.trans (signSignature_sameBut hrun)
  · obtain rfl := Option.some.inj h
    exact hclear

theorem mergeVariants_sameBut
    (h : mergeVariants crypto scriptPubKey i txVariants txTo = some txTo') :
    SameBut i txTo txTo' := by
  induction txVariants generalizing txTo with
  | nil =>
    obtain rfl := Option.some.inj h
    exact .refl _ _
  | cons txv txVariants ih =>
    simp only [mergeVariants, Option.bind_eq_bind, Option.bind_eq_some_iff] at h
    obtain ⟨txin, -, variant, -, scriptSig, -, h⟩ := h
    exact (sameBut_setScriptSig _ _ _).trans (ih h)

/-- What a round of the loop leaves: the other inputs are as before, and it tells whether its own
verifies. -/
theorem signOne_spec {draws : ℕ → ℕ} {fRet : Bool}
    (h : signOne crypto coins keystore draws nHashType txVariants txTo i = some (fRet, txTo')) :
    SameBut i txTo txTo' ∧ (fRet = true ↔ ∃ txin scriptPubKey, txTo'.vin[i]? = some txin ∧
      coins txin.prevout = some scriptPubKey ∧
      Verifies crypto.toCrypto scriptPubKey txTo' i) := by
  simp only [signOne, Option.bind_eq_bind, Option.bind_eq_some_iff] at h
  obtain ⟨txin, htxin, h⟩ := h
  cases hcoin : coins txin.prevout with
  | none =>
    rw [hcoin] at h
    obtain ⟨rfl, rfl⟩ := Prod.mk.inj (Option.some.inj h)
    refine ⟨.refl _ _, iff_of_false Bool.false_ne_true ?_⟩
    rintro ⟨txin', scriptPubKey, htxin', hcoin', -⟩
    obtain rfl := Option.some.inj (htxin.symm.trans htxin')
    rw [hcoin] at hcoin'
    cases hcoin'
  | some scriptPubKey =>
    rw [hcoin] at h
    simp only [Option.bind_eq_some_iff] at h
    obtain ⟨tx₁, hclear, tx₂, hmerge, txin₂, htxin₂, ⟨b, n⟩, hverify, h⟩ := h
    obtain ⟨rfl, rfl⟩ := Prod.mk.inj (Option.some.inj h)
    have hsame := (signCleared_sameBut hclear).trans (mergeVariants_sameBut hmerge)
    refine ⟨hsame, ?_⟩
    have hprevout := prevout_of_unsigned hsame.unsigned htxin htxin₂
    constructor
    · rintro rfl
      exact ⟨txin₂, scriptPubKey, htxin₂, by rw [hprevout, hcoin], txin₂, n, htxin₂, hverify⟩
    · rintro ⟨txin', scriptPubKey', htxin', hcoin', txin'', n', htxin'', hverify'⟩
      obtain rfl := Option.some.inj (htxin₂.symm.trans htxin')
      obtain rfl := Option.some.inj (htxin₂.symm.trans htxin'')
      rw [hprevout, hcoin] at hcoin'
      obtain rfl := Option.some.inj hcoin'
      rw [hverify] at hverify'
      exact (Prod.mk.inj (Option.some.inj hverify')).1

theorem agree_of_unsigned (crypto : Crypto) (h : unsigned txTo' = unsigned txTo) :
    Agree (verifyContext crypto txTo i) (verifyContext crypto txTo' i) :=
  ⟨rfl, rfl, checkSig_unsigned h⟩

/-- Whether an input verifies depends on its own script and on what is signed. -/
theorem verifies_congr {crypto : Crypto} (h : unsigned txTo' = unsigned txTo)
    (hvin : txTo'.vin[i]? = txTo.vin[i]?) :
    Verifies crypto scriptPubKey txTo' i ↔ Verifies crypto scriptPubKey txTo i := by
  unfold Verifies
  simp only [hvin, (agree_of_unsigned crypto h).verifyScript]

/-- The input is known, and verifies. -/
def Complete (crypto : Crypto) (coins : COutPoint → Option CScript) (txTo : CTransaction)
    (i : ℕ) : Prop :=
  ∃ txin scriptPubKey, txTo.vin[i]? = some txin ∧ coins txin.prevout = some scriptPubKey ∧
    Verifies crypto scriptPubKey txTo i

/-- The loop leaves the inputs that it does not come to, and tells whether those that it comes to
are complete. -/
theorem signFrom_spec {draws : ℕ → ℕ → ℕ} {inputs : List ℕ} {fComplete fRet : Bool}
    (hnodup : inputs.Nodup)
    (h : signFrom crypto coins keystore draws nHashType txVariants inputs fComplete txTo =
      some (fRet, txTo')) :
    unsigned txTo' = unsigned txTo ∧ (∀ i, i ∉ inputs → txTo'.vin[i]? = txTo.vin[i]?) ∧
      (fRet = true ↔
        fComplete = true ∧ ∀ i ∈ inputs, Complete crypto.toCrypto coins txTo' i) := by
  induction inputs generalizing fComplete txTo with
  | nil =>
    obtain ⟨rfl, rfl⟩ := Prod.mk.inj (Option.some.inj h)
    exact ⟨rfl, fun _ _ => rfl, by simp⟩
  | cons i inputs ih =>
    obtain ⟨hi, hrest⟩ := List.nodup_cons.mp hnodup
    simp only [signFrom, Option.bind_eq_bind, Option.bind_eq_some_iff] at h
    obtain ⟨⟨b, tx⟩, hone, h⟩ := h
    obtain ⟨hsame, hb⟩ := signOne_spec hone
    obtain ⟨hunsigned, hother, hfRet⟩ := ih hrest h
    refine ⟨hunsigned.trans hsame.unsigned, fun j hj => ?_, ?_⟩
    · obtain ⟨hji, hj⟩ := not_or.mp (fun h => hj (List.mem_cons.mpr h))
      rw [hother j hj, hsame.other j hji]
    · have hcomplete : b = true ↔ Complete crypto.toCrypto coins txTo' i := by
        rw [hb]
        unfold Complete
        simp only [hother i hi, verifies_congr hunsigned (hother i hi)]
      rw [hfRet, Bool.and_eq_true, List.forall_mem_cons, hcomplete, and_assoc]

/-- signrawtransaction tells the truth: `complete` is set just where every input spends an output
that is known, and verifies in the transaction that is returned. It changes nothing but scripts of
inputs. -/
theorem signRawTransaction_complete {draws : ℕ → ℕ → ℕ} {fComplete : Bool}
    (h : signRawTransaction crypto coins keystore draws nHashType (txTo :: txVariants) =
      some (fComplete, txTo')) :
    unsigned txTo' = unsigned txTo ∧
      (fComplete = true ↔
        ∀ i < txTo'.vin.length, Complete crypto.toCrypto coins txTo' i) := by
  simp only [signRawTransaction, Option.bind_eq_bind, List.head?_cons, Option.bind_some] at h
  obtain ⟨hunsigned, -, hcomplete⟩ := signFrom_spec List.nodup_range h
  refine ⟨hunsigned, ?_⟩
  rw [hcomplete, length_of_unsigned hunsigned]
  simp

end Frames

section Circulation

variable {crypto : SignCrypto} {out : MultisigOutput crypto.toCrypto}
  {coins : COutPoint → Option CScript} {keystore : CKeyStore} {nHashType : BitVec 32}
  {txTo tx tx' : CTransaction} {i : ℕ} {holders : List CKeyStore}

variable (out txTo i) in
/-- A transaction that carries a copy for the input. -/
structure Carries (holders : List CKeyStore) (tx : CTransaction) : Prop where
  unsigned : unsigned tx = unsigned txTo
  copy : ∃ txin values, tx.vin[i]? = some txin ∧ txin.scriptSig = out.scriptSig values ∧
    Copy out txTo i holders values

/-- Who signs the input: with SIGHASH_SINGLE only where it has an output. -/
def signers (keystore : CKeyStore) (nHashType : BitVec 32) (txTo : CTransaction) (i : ℕ) :
    List CKeyStore :=
  if !fHashSingle nHashType || i < txTo.vout.length then [keystore] else []

theorem carries_setScriptSig (hunsigned : unsigned tx = unsigned txTo) (hi : i < tx.vin.length)
    {values : List Valtype} (h : Copy out txTo i holders values) :
    Carries out txTo i holders (setScriptSig tx i (out.scriptSig values)) := by
  refine ⟨(unsigned_setScriptSig _ _ _).trans hunsigned,
    { tx.vin[i] with scriptSig := out.scriptSig values }, values, ?_, rfl, h⟩
  simp [setScriptSig, List.getElem?_eq_getElem hi]

theorem Carries.lt (h : Carries out txTo i holders tx) : i < tx.vin.length := by
  obtain ⟨txin, values, htxin, -, -⟩ := h.copy
  exact List.getElem?_eq_some_iff.mp htxin |>.1

theorem Carries.of_same (h : Carries out txTo i holders tx)
    (hunsigned : Signing.unsigned tx' = Signing.unsigned tx)
    (hvin : tx'.vin[i]? = tx.vin[i]?) : Carries out txTo i holders tx' := by
  obtain ⟨txin, values, htxin, hscript, hcopy⟩ := h.copy
  exact ⟨hunsigned.trans h.unsigned, txin, values, hvin.trans htxin, hscript, hcopy⟩

/-- Signing makes a copy of the holder's own. -/
theorem signCleared_carries (hsigns : Signs crypto) (hone : OneKey out txTo i)
    (htype : nHashType ∈ hashTypes) (hholder : Holder out keystore) (draws : ℕ → ℕ)
    (hunsigned : unsigned tx = unsigned txTo) (hi : i < tx.vin.length) :
    ∃ tx', signCleared crypto keystore draws nHashType out.scriptPubKey tx i = some tx' ∧
      Carries out txTo i (signers keystore nHashType txTo i) tx' := by
  have hclear : Carries out txTo i [] (setScriptSig tx i []) :=
    carries_setScriptSig hunsigned hi (.blank fun _ _ => rfl)
  have hvout := vout_of_unsigned hclear.unsigned
  simp only [signCleared, signers, hvout]
  split_ifs with hsign
  · obtain ⟨ok, values, hrun, hcopy⟩ := signSignature_copy hsigns
      (hone.of_unsigned hclear.unsigned) htype hholder hclear.lt draws
    rw [hrun]
    exact ⟨_, rfl, carries_setScriptSig hclear.unsigned hclear.lt
      (hcopy.of_unsigned hclear.unsigned.symm)⟩
  · exact ⟨_, rfl, hclear⟩

/-- The copies are merged, one after another. -/
theorem mergeVariants_carries (hsigns : Signs crypto) (hone : OneKey out txTo i)
    {copies : List (CTransaction × List CKeyStore)}
    (hcopies : ∀ c ∈ copies, Carries out txTo i c.2 c.1) (h : Carries out txTo i holders tx) :
    ∃ tx', mergeVariants crypto out.scriptPubKey i (copies.map Prod.fst) tx = some tx' ∧
      Carries out txTo i (holders ++ copies.flatMap Prod.snd) tx' := by
  induction copies generalizing tx holders with
  | nil => exact ⟨tx, rfl, by rwa [List.flatMap_nil, List.append_nil]⟩
  | cons c copies ih =>
    obtain ⟨hc, hrest⟩ := List.forall_mem_cons.mp hcopies
    obtain ⟨txin, values, htxin, hscript, hcopy⟩ := h.copy
    obtain ⟨variant, values', hvariant, hscript', hcopy'⟩ := hc.copy
    obtain ⟨merged, hcombine, hmerged⟩ := (hcopy.of_unsigned h.unsigned).combine hsigns
      (hone.of_unsigned h.unsigned) (hcopy'.of_unsigned h.unsigned)
    obtain ⟨tx', hrun, hcarries⟩ := ih hrest (carries_setScriptSig h.unsigned h.lt
      (hmerged.of_unsigned h.unsigned.symm))
    refine ⟨tx', ?_, by rwa [List.flatMap_cons, ← List.append_assoc]⟩
    rw [List.map_cons, mergeVariants]
    simp only [Option.bind_eq_bind, htxin, hvariant, Option.bind_some, hscript, hscript', hcombine]
    exact hrun

/-- The round of the loop that comes to the input. -/
theorem signOne_carries (hsigns : Signs crypto) (hone : OneKey out txTo i)
    (htype : nHashType ∈ hashTypes) (hholder : Holder out keystore) (draws : ℕ → ℕ)
    {copies : List (CTransaction × List CKeyStore)}
    (hcopies : ∀ c ∈ copies, Carries out txTo i c.2 c.1) {txin : CTxIn}
    (htxin : txTo.vin[i]? = some txin) (hcoin : coins txin.prevout = some out.scriptPubKey)
    (hunsigned : unsigned tx = unsigned txTo) :
    ∃ fRet tx', signOne crypto coins keystore draws nHashType (copies.map Prod.fst) tx i =
        some (fRet, tx') ∧
      Carries out txTo i (signers keystore nHashType txTo i ++ copies.flatMap Prod.snd) tx' := by
  have hi : i < tx.vin.length := by
    rw [length_of_unsigned hunsigned]
    exact (List.getElem?_eq_some_iff.mp htxin).1
  have hprevout : tx.vin[i].prevout = txin.prevout :=
    prevout_of_unsigned hunsigned htxin (List.getElem?_eq_getElem hi)
  obtain ⟨tx₁, hclear, hcarries₁⟩ := signCleared_carries hsigns hone htype hholder draws hunsigned hi
  obtain ⟨tx₂, hmerge, hcarries₂⟩ := mergeVariants_carries hsigns hone hcopies hcarries₁
  obtain ⟨txin₂, values, htxin₂, hscript, hcopy⟩ := hcarries₂.copy
  obtain ⟨b, n, hverify⟩ : ∃ b n, verifyScript (verifyContext crypto.toCrypto tx₂ i)
      (out.scriptSig values) out.scriptPubKey = some (b, n) :=
    ⟨_, (hcopy.of_unsigned hcarries₂.unsigned).verifies
      (hone.of_unsigned hcarries₂.unsigned)⟩
  refine ⟨b, tx₂, ?_, hcarries₂⟩
  rw [signOne, List.getElem?_eq_getElem hi]
  simp only [Option.bind_eq_bind, Option.bind_some, hprevout, hcoin, hclear, hmerge, htxin₂,
    hscript, hverify]
  rfl

theorem signFrom_append {draws : ℕ → ℕ → ℕ} {txVariants : List CTransaction} (l r : List ℕ)
    (fComplete : Bool) (tx : CTransaction) :
    signFrom crypto coins keystore draws nHashType txVariants (l ++ r) fComplete tx =
      (signFrom crypto coins keystore draws nHashType txVariants l fComplete tx).bind fun p =>
        signFrom crypto coins keystore draws nHashType txVariants r p.1 p.2 := by
  induction l generalizing fComplete tx with
  | nil => rfl
  | cons i l ih =>
    simp only [List.cons_append, signFrom, Option.bind_eq_bind, ih, Option.bind_assoc]

/-- A run of signrawtransaction on copies gives a copy, from the holders of all. -/
theorem signRawTransaction_carries (hsigns : Signs crypto) (hone : OneKey out txTo i)
    (htype : nHashType ∈ hashTypes) (hholder : Holder out keystore) (draws : ℕ → ℕ → ℕ)
    {copies : List (CTransaction × List CKeyStore)}
    (hcopies : ∀ c ∈ copies, Carries out txTo i c.2 c.1) {txin : CTxIn}
    (htxin : txTo.vin[i]? = some txin) (hcoin : coins txin.prevout = some out.scriptPubKey)
    {fComplete : Bool} (hrun : signRawTransaction crypto coins keystore draws nHashType
      (copies.map Prod.fst) = some (fComplete, tx)) :
    Carries out txTo i (signers keystore nHashType txTo i ++ copies.flatMap Prod.snd) tx := by
  obtain ⟨fst, hfst, hrun⟩ := Option.bind_eq_some_iff.mp hrun
  obtain ⟨c, hc, rfl⟩ := List.mem_map.mp (List.mem_of_mem_head? hfst)
  have hcarries := hcopies c hc
  obtain ⟨l, r, hsplit⟩ := List.append_of_mem (List.mem_range.mpr hcarries.lt)
  have hnodup : (l ++ i :: r).Nodup := hsplit ▸ List.nodup_range
  obtain ⟨hl, hir, hdisjoint⟩ := List.nodup_append.mp hnodup
  obtain ⟨hi, hr⟩ := List.nodup_cons.mp hir
  rw [hsplit, signFrom_append, Option.bind_eq_some_iff] at hrun
  obtain ⟨⟨b, tx₁⟩, hbefore, hrun⟩ := hrun
  obtain ⟨hunsigned₁, -, -⟩ := signFrom_spec hl hbefore
  simp only [signFrom, Option.bind_eq_bind, Option.bind_eq_some_iff] at hrun
  obtain ⟨⟨b', tx₂⟩, hround, hrun⟩ := hrun
  obtain ⟨hunsigned₂, hother₂, -⟩ := signFrom_spec hr hrun
  obtain ⟨fRet, tx₃, hround', hcarries'⟩ := signOne_carries hsigns hone htype hholder (draws i)
    hcopies htxin hcoin (hunsigned₁.trans hcarries.unsigned)
  rw [hround'] at hround
  obtain ⟨-, rfl⟩ := Prod.mk.inj (Option.some.inj hround)
  exact hcarries'.of_same hunsigned₂ (hother₂ i hi)

/-- Of a transaction with one input, a holder's run always returns. -/
theorem signRawTransaction_single (hsigns : Signs crypto) (hone : OneKey out txTo 0)
    (htype : nHashType ∈ hashTypes) (hholder : Holder out keystore) (draws : ℕ → ℕ → ℕ)
    (htx : Carries out txTo 0 holders tx) {txin : CTxIn}
    (hvin : txTo.vin = [txin]) (hcoin : coins txin.prevout = some out.scriptPubKey) :
    ∃ fComplete tx', signRawTransaction crypto coins keystore draws nHashType [tx] =
      some (fComplete, tx') := by
  have htxin : txTo.vin[0]? = some txin := by rw [hvin]; rfl
  obtain ⟨fRet, tx', hround, -⟩ := @signOne_carries _ _ coins _ _ _ tx 0 hsigns hone htype hholder
    (draws 0) [(tx, holders)] (by simpa using htx) txin htxin hcoin htx.unsigned
  have hlen : tx.vin.length = 1 := by
    rw [length_of_unsigned htx.unsigned, hvin]
    rfl
  refine ⟨fRet, tx', ?_⟩
  simp only [signRawTransaction, Option.bind_eq_bind, List.head?_cons, Option.bind_some, hlen]
  rw [show List.range 1 = [0] from rfl, signFrom]
  simp only [Option.bind_eq_bind]
  rw [show [tx] = [(tx, holders)].map Prod.fst from rfl, hround]
  rfl

variable (out txTo i) in
/-- The copies of a transaction that go round, each with the holders that it comes from: the
transaction as it was made, and what signrawtransaction makes of copies, in the hands of a holder
who knows the output. -/
inductive Circulates : CTransaction → List CKeyStore → Prop
  | made : Circulates txTo []
  | signed {copies : List (CTransaction × List CKeyStore)} {keystore : CKeyStore}
      {coins : COutPoint → Option CScript} {draws : ℕ → ℕ → ℕ} {nHashType : BitVec 32}
      {txin : CTxIn} {fComplete : Bool} {tx : CTransaction}
      (hcopies : ∀ c ∈ copies, Circulates c.1 c.2) (hholder : Holder out keystore)
      (htype : nHashType ∈ hashTypes) (htxin : txTo.vin[i]? = some txin)
      (hcoin : coins txin.prevout = some out.scriptPubKey)
      (hrun : signRawTransaction crypto coins keystore draws nHashType (copies.map Prod.fst) =
        some (fComplete, tx)) :
      Circulates tx (signers keystore nHashType txTo i ++ copies.flatMap Prod.snd)

theorem circulates_carries (hsigns : Signs crypto) (hone : OneKey out txTo i) {txin : CTxIn}
    (htxin : txTo.vin[i]? = some txin) (hblank : txin.scriptSig = [])
    (h : Circulates out txTo i tx holders) : Carries out txTo i holders tx := by
  induction h with
  | made => exact ⟨rfl, txin, [], htxin, hblank, .blank fun _ _ => rfl⟩
  | signed hcopies hholder htype htxin hcoin hrun ih =>
    exact signRawTransaction_carries hsigns hone htype hholder _ ih htxin hcoin hrun

/-- However the copies went round, and in whatever order they were merged: an input that pays to
several keys verifies in a copy just where the holders that the copy comes from have as many of the
keys as the output asks for. No signature is lost, and none is needed twice. -/
theorem circulates_verifies (hsigns : Signs crypto) (hone : OneKey out txTo i) {txin : CTxIn}
    (htxin : txTo.vin[i]? = some txin) (hblank : txin.scriptSig = [])
    (h : Circulates out txTo i tx holders) :
    Verifies crypto.toCrypto out.scriptPubKey tx i ↔
      out.numSigs ≤ out.pubkeys.countP fun k => holders.any (contributes out k) := by
  have hcarries := circulates_carries hsigns hone htxin hblank h
  obtain ⟨txin', values, htxin', hscript, hcopy⟩ := hcarries.copy
  obtain ⟨n, hverify⟩ := (hcopy.of_unsigned hcarries.unsigned).verifies
    (hone.of_unsigned hcarries.unsigned)
  constructor
  · rintro ⟨txin'', n', htxin'', hverify'⟩
    obtain rfl := Option.some.inj (htxin'.symm.trans htxin'')
    rw [hscript, hverify] at hverify'
    exact of_decide_eq_true (Prod.mk.inj (Option.some.inj hverify')).1
  · intro hmany
    rw [decide_eq_true hmany] at hverify
    exact ⟨txin', n, htxin', by rw [hscript, hverify]⟩

end Circulation

section Demonstration

def demoHolder (b : Byte) : CKeyStore :=
  cryptoStore demoSigner.toKeyCrypto (demoKeys b)
    ([demoScript].foldl (addCScript demoSigner.toCrypto) ∅)

set_option maxRecDepth 4000 in
theorem demo_holder {b : Byte} (hb : b = 1 ∨ b = 3) : Holder demoOutput (demoHolder b) := by
  have hreach : ∀ b, b = 1 ∨ b = 3 → ∃ added, Reach demoSigner.toKeyCrypto (demoKeys b) added := by
    rintro b (rfl | rfl)
    · exact ⟨_, Reach.empty.next (demoAdd 1) rfl rfl⟩
    · exact ⟨_, Reach.empty.next (demoAdd 3) rfl rfl⟩
  obtain ⟨added, hreach⟩ := hreach b hb
  refine ⟨reach_sound demoSigner_ciphers hreach ?_ [demoScript], ?_, ?_⟩
  · obtain rfl | rfl := hb
    · rfl
    · rfl
  · have hkeys : ∀ b, b = 1 ∨ b = 3 → ∀ op ∈ [((opN 2, []) : ℕ × Valtype), (33, demoPubkey 1),
        (33, demoPubkey 3), (33, demoPubkey 5), (opN 3, []), (OP_CHECKMULTISIG, [])],
        ∀ pubkey, (demoHolder b).getPubKey (keyAddress demoSigner.toCrypto op.2) = some pubkey →
          pubkey = CPubKey.set op.2 := by
      rintro b (rfl | rfl)
      · decide
      · decide
    intro l hl op hop
    have heq := Option.some.inj (hl.symm.trans demoOutput.opcodes_eq)
    rw [heq] at hop
    exact hkeys b hb op hop
  · intro redeem hget
    obtain rfl | rfl := hb
    · exact (Option.some.inj hget).symm
    · exact (Option.some.inj hget).symm

theorem demo_oneKey : OneKey demoOutput demoSpend 0 := by
  intro vchSig k hk ⟨t, ht, hsigned⟩ k' hk' hcheck
  have hfits := hsigned.fits demo_signs ht
  rw [EvalScript.fits, Bool.and_eq_true] at hfits
  exact (demo_checkSig_unique hk hk' hfits.2 hcheck).symm

/-- A holder signs a copy. -/
theorem demo_signed {b : Byte} (hb : b = 1 ∨ b = 3) {tx : CTransaction} {holders : List CKeyStore}
    (h : Circulates demoOutput demoSpend 0 tx holders) :
    ∃ tx', Circulates demoOutput demoSpend 0 tx' (demoHolder b :: holders) := by
  have htype : (1 : BitVec 32) ∈ hashTypes := by decide
  obtain ⟨fComplete, tx', hrun⟩ := @signRawTransaction_single _ demoOutput
    (fun _ => some demoOutput.scriptPubKey) _ _ demoSpend _ _ demo_signs demo_oneKey htype
    (demo_holder hb) (fun _ => id) (circulates_carries demo_signs demo_oneKey rfl rfl h) _ rfl rfl
  refine ⟨tx', ?_⟩
  have hsigned := @Circulates.signed _ demoOutput demoSpend 0 [(tx, holders)] _ _ _ 1 _ _ tx'
    (by simpa using h) (demo_holder hb) htype rfl rfl hrun
  rw [List.flatMap_singleton] at hsigned
  exact hsigned

set_option maxRecDepth 4000 in
/-- Two holders sign, the second the copy of the first. -/
theorem demo_circulates : ∃ tx, Verifies demoSigner.toCrypto demoOutput.scriptPubKey tx 0 := by
  obtain ⟨tx₁, h₁⟩ := demo_signed (Or.inl rfl) .made
  obtain ⟨tx₂, h₂⟩ := demo_signed (Or.inr rfl) h₁
  exact ⟨tx₂, (circulates_verifies demo_signs demo_oneKey rfl rfl h₂).mpr (by decide)⟩

/-- A transaction with two inputs, one that pays to a key and one that pays to two of three. -/
def demoTwo : CTransaction := ⟨1, [⟨⟨0, 0⟩, [], 0⟩, ⟨⟨0, 1⟩, [], 0⟩], [], 0⟩

def demoCoins (prevout : COutPoint) : Option CScript :=
  if prevout.n = 0 then some (demoPays 1) else some demoOutput.scriptPubKey

def demoOnce : Option (Bool × CTransaction) :=
  signRawTransaction demoSigner demoCoins (demoHolder 3) (fun _ => id) 1 [demoTwo]

def demoTwice : Option (Bool × CTransaction) :=
  demoOnce.bind fun r =>
    signRawTransaction demoSigner demoCoins (demoHolder 1) (fun _ => id) 1 [r.2]

theorem demo_runs : demoOnce.map Prod.fst = some false ∧ demoTwice.map Prod.fst = some true := by
  decide +kernel

/-- One holder can sign the second input only, and not complete it; the other one completes both,
the first of them before the second. -/
theorem demo_complete : ∃ tx tx', demoOnce = some (false, tx) ∧ demoTwice = some (true, tx') ∧
    unsigned tx' = unsigned demoTwo ∧
    (¬ ∀ i < tx.vin.length, Complete demoSigner.toCrypto demoCoins tx i) ∧
    ∀ i < tx'.vin.length, Complete demoSigner.toCrypto demoCoins tx' i := by
  obtain ⟨hfirst, hsecond⟩ := demo_runs
  obtain ⟨⟨_, tx⟩, honce, rfl⟩ := Option.map_eq_some_iff.mp hfirst
  obtain ⟨⟨_, tx'⟩, htwice, rfl⟩ := Option.map_eq_some_iff.mp hsecond
  have hrun : signRawTransaction demoSigner demoCoins (demoHolder 1) (fun _ => id) 1 [tx] =
      some (true, tx') := by
    rw [← htwice, demoTwice, honce, Option.bind_some]
  obtain ⟨hunsigned, hincomplete⟩ := signRawTransaction_complete honce
  obtain ⟨hunsigned', hcomplete⟩ := signRawTransaction_complete hrun
  exact ⟨tx, tx', honce, htwice, hunsigned'.trans hunsigned,
    fun hall => Bool.false_ne_true (hincomplete.mpr hall), hcomplete.mp rfl⟩

end Demonstration
end UmbrellaLtc.CoSigning
