import UmbrellaLtc.KeyStoreRuns
import UmbrellaLtc.StandardScripts

/-!
SignSignature and IsMine of script.cpp over a key store. The signatures of a script are made with
what the store has; a script that pays to a hash takes its redeem script from the store.
-/

namespace UmbrellaLtc.Signing

open Codec Transaction Script SignatureHash EvalScript ScriptOps Solver GreedyMatch KeyStore
  StandardScripts

section Stores

/-- With ECDSA_sign, which draws a number for each signature. -/
structure SignCrypto extends KeyCrypto where
  ecdsaSign : List Byte → Uint256 → ℕ → Valtype

/-- The functions of CKeyStore that signing uses, each with what it writes where it returns true. -/
structure CKeyStore where
  haveKey : CKeyID → Bool
  getKey : CKeyID → Option CKey
  getPubKey : CKeyID → Option CPubKey
  getCScript : CScriptID → Option CScript

/-- CScript::GetID. -/
def scriptGetID (crypto : Crypto) (script : CScript) : CScriptID := crypto.hash160 script

abbrev ScriptMap := Std.TreeMap CScriptID CScript

/-- AddCScript. -/
def addCScript (crypto : Crypto) (mapScripts : ScriptMap) (redeemScript : CScript) : ScriptMap :=
  mapScripts.insert (scriptGetID crypto redeemScript) redeemScript

theorem unset_checked :
    false = true → ([] : List Byte).length = 32 ∧ KeyStore.check [] = true := by
  intro h
  cases h

/-- The key that GetKey writes to, as the constructor leaves it. -/
def unsetKey : CKey := ⟨false, false, [], unset_checked⟩

/-- CCryptoKeyStore::GetPubKey. -/
def getPubKey (crypto : KeyCrypto) (s : CCryptoKeyStore) (address : CKeyID) : Option CPubKey :=
  if !s.isCrypted then
    (s.getKey crypto address unsetKey).bind (·.getPubKey crypto)
  else s.mapCryptedKeys[address]?.map Prod.fst

/-- A CCryptoKeyStore with the scripts that it inherits. -/
def cryptoStore (crypto : KeyCrypto) (s : CCryptoKeyStore) (mapScripts : ScriptMap) : CKeyStore where
  haveKey := s.haveKey
  getKey address := s.getKey crypto address unsetKey
  getPubKey := getPubKey crypto s
  getCScript id := mapScripts[id]?

end Stores

section Functions

variable (crypto : SignCrypto) (keystore : CKeyStore) (draw : ℕ)

/-- CKey::Sign; none where it returns false. -/
def keySign (key : CKey) (hash : Uint256) : Option Valtype :=
  if key.fValid then some (crypto.ecdsaSign key.vch hash draw) else none

/-- Sign1: its answer, and scriptSigRet. -/
def sign1 (address : CKeyID) (hash : Uint256) (nHashType : BitVec 32) (scriptSigRet : CScript) :
    Bool × CScript :=
  match keystore.getKey address with
  | none => (false, scriptSigRet)
  | some key =>
      match keySign crypto draw key hash with
      | none => (false, scriptSigRet)
      | some vchSig => (true, scriptSigRet ++ pushScript (vchSig ++ [nHashType.setWidth 8]))

variable (draws : ℕ → ℕ)

/-- The loop of SignN over the keys: nSigned and scriptSigRet at its end. -/
def signLoop (nRequired : ℕ) (hash : Uint256) (nHashType : BitVec 32) :
    List Valtype → ℕ → CScript → ℕ × CScript
  | [], nSigned, scriptSigRet => (nSigned, scriptSigRet)
  | pubkey :: pubkeys, nSigned, scriptSigRet =>
      if nSigned < nRequired then
        let keyID := (CPubKey.set pubkey).getID crypto.toCrypto
        match sign1 crypto keystore (draws pubkeys.length) keyID hash nHashType scriptSigRet with
        | (true, scriptSigRet) =>
            signLoop nRequired hash nHashType pubkeys (nSigned + 1) scriptSigRet
        | (false, scriptSigRet) => signLoop nRequired hash nHashType pubkeys nSigned scriptSigRet
      else (nSigned, scriptSigRet)

/-- SignN; none where front() does not exist, or has no first byte. -/
def signN (multisigdata : List Valtype) (hash : Uint256) (nHashType : BitVec 32)
    (scriptSigRet : CScript) : Option (Bool × CScript) := do
  let nRequired ← (← multisigdata.head?)[0]?
  let pubkeys := (multisigdata.drop 1).take (multisigdata.length - 1 - 1)
  let (nSigned, scriptSigRet) :=
    signLoop crypto keystore draws nRequired.toNat hash nHashType pubkeys 0 scriptSigRet
  return (nSigned == nRequired.toNat, scriptSigRet)

/-- The Solver that signs: its answer, whichTypeRet and scriptSigRet. -/
def solver (scriptPubKey : CScript) (hash : Uint256) (nHashType : BitVec 32) :
    Option (Bool × TxnOutType × CScript) := do
  let (fRet, whichTypeRet, vSolutions) ← Solver.solver scriptPubKey []
  if !fRet then return (false, whichTypeRet, [])
  else match whichTypeRet with
    | .nonstandard => return (false, whichTypeRet, [])
    | .pubkey =>
        let keyID := (CPubKey.set (← vSolutions[0]?)).getID crypto.toCrypto
        let (fRet, scriptSigRet) := sign1 crypto keystore (draws 0) keyID hash nHashType []
        return (fRet, whichTypeRet, scriptSigRet)
    | .pubkeyhash =>
        let keyID := uint160 (← vSolutions[0]?)
        match sign1 crypto keystore (draws 0) keyID hash nHashType [] with
        | (false, scriptSigRet) => return (false, whichTypeRet, scriptSigRet)
        | (true, scriptSigRet) =>
            let vch := (keystore.getPubKey keyID).getD .invalid
            return (true, whichTypeRet, scriptSigRet ++ (← pushKey vch))
    | .scripthash =>
        match keystore.getCScript (uint160 (← vSolutions[0]?)) with
        | none => return (false, whichTypeRet, [])
        | some redeemScript => return (true, whichTypeRet, redeemScript)
    | .multisig =>
        let (fRet, scriptSigRet) ←
          signN crypto keystore draws vSolutions hash nHashType [BitVec.ofNat 8 OP_0]
        return (fRet, whichTypeRet, scriptSigRet)

/-- `txin.scriptSig`, where `txin` is `txTo.vin[nIn]`. -/
def setScriptSig (txTo : CTransaction) (nIn : ℕ) (scriptSig : CScript) : CTransaction :=
  { txTo with vin := txTo.vin.modify nIn fun txin => { txin with scriptSig := scriptSig } }

/-- How SignSignature and signrawtransaction verify. -/
def verifyContext (crypto : Crypto) (txTo : CTransaction) (nIn : ℕ) : Context where
  crypto := crypto
  txTo := txTo
  nIn := nIn
  flags := SCRIPT_VERIFY_P2SH ||| SCRIPT_VERIFY_STRICTENC
  nHashType := 0

/-- The script that SignSignature puts into the input, and whether it comes to the test. -/
def signInput (fromPubKey : CScript) (txTo : CTransaction) (nIn : ℕ) (nHashType : BitVec 32) :
    Option (Bool × CScript) := do
  let hash := signatureHash crypto.hash256 fromPubKey txTo nIn nHashType
  let (fRet, whichType, scriptSig) ← solver crypto keystore draws fromPubKey hash nHashType
  if !fRet then return (false, scriptSig)
  else if whichType = .scripthash then
    let subscript := scriptSig
    let hash2 := signatureHash crypto.hash256 subscript txTo nIn nHashType
    let (fRet, subType, scriptSig) ← solver crypto keystore draws subscript hash2 nHashType
    let fSolved := fRet && subType ≠ .scripthash
    return (fSolved, scriptSig ++ pushScript subscript)
  else return (true, scriptSig)

/-- SignSignature: its answer, and the transaction afterwards. An assertion that fails and an access
outside of the solutions are none. -/
def signSignature (fromPubKey : CScript) (txTo : CTransaction) (nIn : ℕ) (nHashType : BitVec 32) :
    Option (Bool × CTransaction) :=
  if txTo.vin.length ≤ nIn then none
  else do
    let (fSolved, scriptSig) ← signInput crypto keystore draws fromPubKey txTo nIn nHashType
    let txTo := setScriptSig txTo nIn scriptSig
    if !fSolved then return (false, txTo)
    else
      let (fRet, _) ← verifyScript (verifyContext crypto.toCrypto txTo nIn) scriptSig fromPubKey
      return (fRet, txTo)

/-- HaveKeys. -/
def haveKeys (pubkeys : List Valtype) : ℕ :=
  pubkeys.countP fun pubkey => keystore.haveKey ((CPubKey.set pubkey).getID crypto.toCrypto)

/-- IsMine of a script, which calls itself for a redeem script; none where the calls do not end
within the fuel. -/
def isMine : ℕ → CScript → Option Bool
  | 0, _ => none
  | fuel + 1, scriptPubKey => do
      let (fRet, whichType, vSolutions) ← Solver.solver scriptPubKey []
      if !fRet then return false
      else match whichType with
        | .nonstandard => return false
        | .pubkey =>
            return keystore.haveKey ((CPubKey.set (← vSolutions[0]?)).getID crypto.toCrypto)
        | .pubkeyhash => return keystore.haveKey (uint160 (← vSolutions[0]?))
        | .scripthash =>
            match keystore.getCScript (uint160 (← vSolutions[0]?)) with
            | none => return false
            | some subscript => isMine fuel subscript
        | .multisig =>
            let keys := (vSolutions.drop 1).take (vSolutions.length - 1 - 1)
            return haveKeys crypto keystore keys == keys.length

end Functions

section Hashes

variable {txTo txTo' : CTransaction} {nIn : ℕ}

/-- A transaction without what SignSignature changes. -/
def unsigned (txTo : CTransaction) : CTransaction :=
  { txTo with vin := txTo.vin.map fun txin => { txin with scriptSig := [] } }

theorem unsigned_setScriptSig (txTo : CTransaction) (nIn : ℕ) (scriptSig : CScript) :
    unsigned (setScriptSig txTo nIn scriptSig) = unsigned txTo := by
  unfold unsigned setScriptSig
  congr 1
  apply List.ext_getElem?
  intro i
  simp only [List.getElem?_map, List.getElem?_modify, Option.map_eq_map, Option.map_map]
  congr 1
  funext txin
  simp only [Function.comp]
  split_ifs
  · rfl
  · rfl

theorem txTmp_unsigned (scriptCode : CScript) (nHashType : BitVec 32) :
    txTmp scriptCode (unsigned txTo) nIn nHashType = txTmp scriptCode txTo nIn nHashType := by
  have hblank : blankSignatures (withoutSeparators scriptCode) nIn (unsigned txTo).vin =
      blankSignatures (withoutSeparators scriptCode) nIn txTo.vin := by
    apply List.ext_getElem?
    intro i
    simp only [blankSignatures, unsigned, List.getElem?_mapIdx, List.getElem?_map, Option.map_map]
    rfl
  have hlen : (unsigned txTo).vin.length = txTo.vin.length := List.length_map _
  unfold txTmp
  rw [hblank, hlen]
  rfl

/-- No scriptSig is signed. -/
theorem signatureHash_unsigned (Hash : List Byte → Uint256) (scriptCode : CScript)
    (nHashType : BitVec 32) (h : unsigned txTo' = unsigned txTo) :
    signatureHash Hash scriptCode txTo' nIn nHashType =
      signatureHash Hash scriptCode txTo nIn nHashType := by
  unfold signatureHash
  rw [← @txTmp_unsigned txTo', h, txTmp_unsigned]

theorem checkSig_unsigned {crypto : Crypto} (h : unsigned txTo' = unsigned txTo) :
    checkSig (verifyContext crypto txTo' nIn) = checkSig (verifyContext crypto txTo nIn) := by
  funext vchSig vchPubKey scriptCode
  simp only [checkSig, verifyContext, signatureHash_unsigned _ _ _ h]
  rfl

theorem fits_unsigned {crypto : Crypto} (h : unsigned txTo' = unsigned txTo) :
    fits (verifyContext crypto txTo' nIn) = fits (verifyContext crypto txTo nIn) := by
  funext scriptCode vchSig vchPubKey
  unfold fits
  rw [checkSig_unsigned h]
  rfl

end Hashes

section Genuine

variable {crypto : SignCrypto}

/-- The hash types that IsCanonicalSignature takes. -/
def hashTypes : List (BitVec 32) := [0x01, 0x02, 0x03, 0x81, 0x82, 0x83]

/-- What is assumed of OpenSSL: its public keys and signatures are canonical, and a signature is
right for the public key of the key that made it. -/
structure Signs (crypto : SignCrypto) : Prop where
  pubkey : ∀ {key : CKey} {pubkey : CPubKey}, key.getPubKey crypto.toKeyCrypto = some pubkey →
    isCanonicalPubKey pubkey.vch = true
  canonical : ∀ {key : CKey} (hash : Uint256) (draw : ℕ), key.fValid = true →
    ∀ nHashType ∈ hashTypes, isCanonicalSignature
      (crypto.ecdsaSign key.vch hash draw ++ [nHashType.setWidth 8]) = true
  verifies : ∀ {key : CKey} {pubkey : CPubKey} (hash : Uint256) (draw : ℕ),
    key.getPubKey crypto.toKeyCrypto = some pubkey →
      crypto.verify pubkey.vch hash (crypto.ecdsaSign key.vch hash draw) = true
  long : ∀ (key : CKey) (hash : Uint256) (draw : ℕ), key.fValid = true →
    20 ≤ (crypto.ecdsaSign key.vch hash draw).length

/-- A signature that Sign1 makes for a public key. -/
def Signed (crypto : SignCrypto) (hash : Uint256) (nHashType : BitVec 32)
    (vchSig vchPubKey : Valtype) : Prop :=
  ∃ (key : CKey) (pubkey : CPubKey) (draw : ℕ), key.getPubKey crypto.toKeyCrypto = some pubkey ∧
    pubkey.vch = vchPubKey ∧
    vchSig = crypto.ecdsaSign key.vch hash draw ++ [nHashType.setWidth 8]

variable {hash : Uint256} {nHashType : BitVec 32} {vchSig vchPubKey : Valtype}

theorem setWidth_hashType (h : nHashType ∈ hashTypes) :
    (nHashType.setWidth 8).setWidth 32 = nHashType := by
  have hall : ∀ t ∈ hashTypes, (t.setWidth 8).setWidth 32 = t := by simp [hashTypes]
  exact hall nHashType h

theorem Signed.canonical (hsigns : Signs crypto) (htype : nHashType ∈ hashTypes)
    (h : Signed crypto hash nHashType vchSig vchPubKey) :
    isCanonicalSignature vchSig = true ∧ isCanonicalPubKey vchPubKey = true := by
  obtain ⟨key, pubkey, draw, hpub, rfl, rfl⟩ := h
  exact ⟨hsigns.canonical hash draw (valid_of_getPubKey hpub) nHashType htype, hsigns.pubkey hpub⟩

theorem canonical_size (h : isCanonicalSignature vchSig = true) :
    9 ≤ vchSig.length ∧ vchSig.length ≤ 73 := by
  unfold isCanonicalSignature at h
  simp only [Bool.and_eq_true, decide_eq_true_eq] at h
  obtain ⟨⟨⟨⟨⟨⟨⟨⟨⟨hlow, hhigh⟩, -⟩, -⟩, -⟩, -⟩, -⟩, -⟩, -⟩, -⟩ := h
  exact ⟨hlow, hhigh⟩

/-- A signature begins with another byte than a public key. -/
theorem canonical_ne (hsig : isCanonicalSignature vchSig = true)
    (hpub : isCanonicalPubKey vchPubKey = true) : vchPubKey ≠ vchSig := by
  rintro rfl
  unfold isCanonicalSignature at hsig
  simp only [Bool.and_eq_true, beq_iff_eq] at hsig
  obtain ⟨⟨⟨⟨⟨⟨-, hfirst⟩, -⟩, -⟩, -⟩, -⟩, -⟩ := hsig
  unfold isCanonicalPubKey at hpub
  cases hkey : vchPubKey with
  | nil => simp [hkey] at hpub
  | cons b vch =>
    rw [hkey, List.getD_cons_zero] at hfirst
    simp [hkey, hfirst] at hpub

theorem canonical_valid (h : isCanonicalPubKey vchPubKey = true) :
    isValidPubKey vchPubKey = true := by
  cases vchPubKey with
  | nil => simp [isCanonicalPubKey] at h
  | cons b vch =>
    simp only [isCanonicalPubKey, List.getElem?_cons_zero, Option.some.injEq, List.length_cons,
      Bool.and_eq_true] at h
    rw [isValidPubKey, beq_iff_eq, getLen]
    obtain ⟨-, h⟩ := h
    split_ifs at h with h4 h23
    · have hnot : ¬(b = 2 ∨ b = 3) := by
        rw [h4]
        decide
      rw [if_neg hnot, if_pos (Or.inl h4)]
      exact (beq_iff_eq.mp h).symm
    · rw [if_pos h23]
      exact (beq_iff_eq.mp h).symm

/-- A round of the loops that check signatures accepts it. -/
theorem Signed.fits (hsigns : Signs crypto) (htype : nHashType ∈ hashTypes) {scriptCode : CScript}
    {txTo : CTransaction} {nIn : ℕ}
    (h : Signed crypto (signatureHash crypto.hash256 scriptCode txTo nIn nHashType) nHashType vchSig
      vchPubKey) :
    EvalScript.fits (verifyContext crypto.toCrypto txTo nIn) scriptCode vchSig vchPubKey = true := by
  obtain ⟨hsig, hpub⟩ := h.canonical hsigns htype
  have hvalid := canonical_valid hpub
  obtain ⟨key, pubkey, draw, hkey, rfl, rfl⟩ := h
  have hverify := hsigns.verifies (signatureHash crypto.hash256 scriptCode txTo nIn nHashType) draw
    hkey
  simp only [EvalScript.fits, encodingOk, hsig, hpub, checkSig, hvalid, verifyContext,
    List.getLast?_append, List.getLast?_singleton, Option.some_or, setWidth_hashType htype,
    List.dropLast_concat, hverify, Bool.and_self, Bool.or_true, Bool.not_true, Bool.false_eq_true,
    if_false, ne_eq, not_true, false_and]

end Genuine

section Soundness

variable {crypto : KeyCrypto} {keystore : CKeyStore}

/-- What signing relies on: the keys that the store has can be had, with their public keys, and its
scripts are found by their own hash. -/
structure Sound (crypto : KeyCrypto) (keystore : CKeyStore) : Prop where
  had : ∀ address, keystore.haveKey address = true → ∃ key pubkey,
    keystore.getKey address = some key ∧ key.getPubKey crypto = some pubkey ∧
      keystore.getPubKey address = some pubkey ∧ pubkey.getID crypto.toCrypto = address
  missing : ∀ address, keystore.haveKey address = false → keystore.getKey address = none
  scripts : ∀ id script, keystore.getCScript id = some script →
    scriptGetID crypto.toCrypto script = id

theorem getCScript_id (crypto : Crypto) (redeemScripts : List CScript) {id : CScriptID}
    {script : CScript}
    (h : (redeemScripts.foldl (addCScript crypto) (∅ : ScriptMap))[id]? = some script) :
    scriptGetID crypto script = id := by
  induction redeemScripts using List.reverseRecOn generalizing id script with
  | nil => simp at h
  | append_singleton redeemScripts redeem ih =>
    rw [List.foldl_append, List.foldl_cons, List.foldl_nil, addCScript,
      Std.TreeMap.getElem?_insert] at h
    split at h
    · rename_i heq
      cases h
      exact Std.LawfulEqCmp.eq_of_compare heq
    · exact ih h

/-- A store that calls lead to from the empty one can sign with all its keys while it is not
locked. -/
theorem reach_sound (hciphers : Ciphers crypto) {s : CCryptoKeyStore} {added : KeyMap}
    (hreach : Reach crypto s added) (hlocked : s.isLocked = false) (redeemScripts : List CScript) :
    Sound crypto (cryptoStore crypto s
      (redeemScripts.foldl (addCScript crypto.toCrypto) ∅)) := by
  have hconsistent := reach_consistent hciphers hreach
  have hhave := haveKey_eq hconsistent
  refine ⟨fun address hmine => ?_, fun address hnot => ?_, fun id script => getCScript_id _ _⟩
  · change s.haveKey address = true at hmine
    rw [hhave, Std.TreeMap.contains_eq_isSome_getElem?, Option.isSome_iff_exists] at hmine
    obtain ⟨key, hkey⟩ := hmine
    obtain ⟨pubkey, hpub, hid⟩ := hconsistent.own address key hkey
    cases hmode : s.fUseCrypto with
    | false =>
      have hplain : s.getKey crypto address unsetKey = some key := by
        rw [CCryptoKeyStore.getKey, CCryptoKeyStore.isCrypted, hmode, Bool.not_false, if_pos rfl,
          (hconsistent.plain hmode).2.2, hkey]
      refine ⟨key, pubkey, hplain, hpub, ?_, hid⟩
      change getPubKey crypto s address = some pubkey
      rw [getPubKey, CCryptoKeyStore.isCrypted, hmode, Bool.not_false, if_pos rfl, hplain]
      exact hpub
    | true =>
      obtain ⟨vMasterKey, hrel, hmaster⟩ := hconsistent.crypted hmode
      have hat := hrel address
      rw [hkey] at hat
      cases hlook : s.mapCryptedKeys[address]? with
      | none =>
        rw [hlook] at hat
        cases hat
      | some crypted =>
        rw [hlook] at hat
        cases hat with
        | some hunder =>
          have hopen : s.vMasterKey = vMasterKey := by
            obtain hnil | hnone | heq := hmaster
            · simp [CCryptoKeyStore.isLocked, CCryptoKeyStore.isCrypted, hmode, hnil] at hlocked
            · rw [hnone address] at hkey
              cases hkey
            · exact heq
          subst hopen
          obtain rfl : crypted.1 = pubkey := Option.some.inj (hunder.1.symm.trans hpub)
          refine ⟨key, crypted.1, getKey_unlocked hciphers hmode hlook hunder, hpub, ?_, hid⟩
          change getPubKey crypto s address = some crypted.1
          rw [getPubKey, CCryptoKeyStore.isCrypted, hmode, hlook]
          rfl
  · change s.haveKey address = false at hnot
    change s.getKey crypto address _ = none
    unfold CCryptoKeyStore.haveKey at hnot
    unfold CCryptoKeyStore.getKey
    cases hmode : s.isCrypted with
    | false =>
      rw [hmode, Bool.not_false, if_pos rfl, Std.TreeMap.contains_eq_isSome_getElem?,
        Option.isSome_eq_false_iff, Option.isNone_iff_eq_none] at hnot
      rw [Bool.not_false, if_pos rfl, hnot]
    | true =>
      rw [hmode, Bool.not_true, if_neg Bool.false_ne_true, Std.TreeMap.contains_eq_isSome_getElem?,
        Option.isSome_eq_false_iff, Option.isNone_iff_eq_none] at hnot
      rw [Bool.not_true, if_neg Bool.false_ne_true, hnot]

end Soundness

section Signing

variable {crypto : SignCrypto} {keystore : CKeyStore} {script : CScript} {hash : Uint256}
  {nHashType : BitVec 32}

/-- The address of a key in a script. -/
def keyAddress (crypto : Crypto) (pubkey : Valtype) : CKeyID := (CPubKey.set pubkey).getID crypto

/-- The store has the key of a script. -/
def canSign (crypto : Crypto) (keystore : CKeyStore) (pubkey : Valtype) : Bool :=
  keystore.haveKey (keyAddress crypto pubkey)

/-- No operand of the script has the address of a key of the store without being that key. -/
def Distinct (crypto : Crypto) (keystore : CKeyStore) (script : CScript) : Prop :=
  ∀ l, opcodes script = some l → ∀ op ∈ l, ∀ pubkey,
    keystore.getPubKey (keyAddress crypto op.2) = some pubkey → pubkey = CPubKey.set op.2

theorem set_vch_of_canonical {k : Valtype} (h : isCanonicalPubKey (CPubKey.set k).vch = true) :
    (CPubKey.set k).vch = k := by
  unfold CPubKey.set at h ⊢
  split_ifs at h ⊢ with hvalid
  · rfl
  · simp [CPubKey.invalid, isCanonicalPubKey] at h

/-- Sign1 where the store has the key of a script. -/
theorem sign1_had (hsigns : Signs crypto) (hsound : Sound crypto.toKeyCrypto keystore) {k : Valtype}
    (hdistinct : ∀ pubkey, keystore.getPubKey (keyAddress crypto.toCrypto k) = some pubkey →
      pubkey = CPubKey.set k)
    (hmine : canSign crypto.toCrypto keystore k = true) (draw : ℕ) :
    ∃ vchSig, Signed crypto hash nHashType vchSig k ∧ ∀ scriptSigRet,
      sign1 crypto keystore draw (keyAddress crypto.toCrypto k) hash nHashType scriptSigRet =
        (true, scriptSigRet ++ pushScript vchSig) := by
  obtain ⟨key, pubkey, hkey, hpub, hget, -⟩ := hsound.had _ hmine
  have hset := hdistinct pubkey hget
  have hvch : pubkey.vch = k := by
    have hcanonical := hsigns.pubkey hpub
    rw [hset] at hcanonical ⊢
    exact set_vch_of_canonical hcanonical
  refine ⟨_, ⟨key, pubkey, draw, hpub, hvch, rfl⟩, fun scriptSigRet => ?_⟩
  simp only [sign1, hkey, keySign, valid_of_getPubKey hpub, if_true]

theorem sign1_missing (hsound : Sound crypto.toKeyCrypto keystore) {address : CKeyID}
    (hnot : keystore.haveKey address = false) (draw : ℕ) (scriptSigRet : CScript) :
    sign1 crypto keystore draw address hash nHashType scriptSigRet = (false, scriptSigRet) := by
  simp only [sign1, hsound.missing address hnot]

/-- SignN makes signatures for the first keys that the store has, as many as are required. -/
theorem signLoop_spec (hsigns : Signs crypto) (hsound : Sound crypto.toKeyCrypto keystore)
    (draws : ℕ → ℕ) (nRequired : ℕ) {keys : List Valtype}
    (hdistinct : ∀ k ∈ keys, ∀ pubkey,
      keystore.getPubKey (keyAddress crypto.toCrypto k) = some pubkey → pubkey = CPubKey.set k)
    (nSigned : ℕ) (scriptSigRet : CScript) :
    ∃ sigs, signLoop crypto keystore draws nRequired hash nHashType keys nSigned scriptSigRet =
        (nSigned + sigs.length, scriptSigRet ++ pushAll sigs) ∧
      List.SublistForall₂ (fun vchSig k => Signed crypto hash nHashType vchSig k ∧
        canSign crypto.toCrypto keystore k = true) sigs keys ∧
      sigs.length = min (nRequired - nSigned) (keys.countP (canSign crypto.toCrypto keystore)) := by
  induction keys generalizing nSigned scriptSigRet with
  | nil => exact ⟨[], by simp [signLoop], .nil, by simp⟩
  | cons k keys ih =>
    obtain ⟨hk, hkeys⟩ := List.forall_mem_cons.mp hdistinct
    rw [signLoop]
    by_cases hfew : nSigned < nRequired
    · rw [if_pos hfew]
      cases hmine : canSign crypto.toCrypto keystore k with
      | true =>
        obtain ⟨vchSig, hsigned, hsign⟩ := @sign1_had crypto keystore hash nHashType hsigns hsound k
          hk hmine (draws keys.length)
        obtain ⟨sigs, hloop, hembeds, hlen⟩ := ih hkeys (nSigned + 1)
          (scriptSigRet ++ pushScript vchSig)
        refine ⟨vchSig :: sigs, ?_, .cons ⟨hsigned, hmine⟩ hembeds, ?_⟩
        · unfold keyAddress at hsign
          simp only [hsign, hloop, List.length_cons, pushAll_cons, List.append_assoc,
            Prod.mk.injEq, and_true]
          omega
        · rw [List.length_cons, hlen, List.countP_cons_of_pos hmine]
          omega
      | false =>
        obtain ⟨sigs, hloop, hembeds, hlen⟩ := ih hkeys nSigned scriptSigRet
        refine ⟨sigs, ?_, hembeds.cons_right, ?_⟩
        · have hsign := @sign1_missing crypto keystore hash nHashType hsound _ hmine
            (draws keys.length) scriptSigRet
          unfold keyAddress at hsign
          simp only [hsign, hloop]
        · rw [hlen, List.countP_cons_of_neg (by rw [hmine]; exact Bool.false_ne_true)]
    · rw [if_neg hfew]
      refine ⟨[], by simp, .nil, ?_⟩
      rw [show nRequired - nSigned = 0 by omega]
      simp

/-- The values that signing a script pushes: the script succeeds on them, whatever the signatures of
the other inputs are. -/
structure Satisfies (crypto : Crypto) (txTo : CTransaction) (nIn : ℕ) (script : CScript)
    (values : List Valtype) : Prop where
  count : values.length ≤ 17
  size : ∀ v ∈ values, v.length ≤ MAX_SCRIPT_ELEMENT_SIZE
  succeeds : ∀ txTo', unsigned txTo' = unsigned txTo → ∃ rest n,
    evalScript (verifyContext crypto txTo' nIn) values.reverse script =
      .returned true (boolVch true :: rest) n

variable {txTo : CTransaction} {nIn : ℕ} {draws : ℕ → ℕ} {fuel : ℕ}

/-- A signature for what the script commits to. -/
abbrev SignedFor (crypto : SignCrypto) (txTo : CTransaction) (nIn : ℕ) (script : CScript)
    (nHashType : BitVec 32) : Valtype → Valtype → Prop :=
  Signed crypto (signatureHash crypto.hash256 script txTo nIn nHashType) nHashType

theorem Signed.fits_unsigned (hsigns : Signs crypto) (htype : nHashType ∈ hashTypes)
    {vchSig k : Valtype} {txTo' : CTransaction}
    (h : SignedFor crypto txTo nIn script nHashType vchSig k)
    (htx : unsigned txTo' = unsigned txTo) :
    EvalScript.fits (verifyContext crypto.toCrypto txTo' nIn) script vchSig k = true := by
  rw [Signing.fits_unsigned htx]
  exact h.fits hsigns htype

theorem Signed.size (hsigns : Signs crypto) (htype : nHashType ∈ hashTypes) {vchSig k : Valtype}
    (h : Signed crypto hash nHashType vchSig k) : 21 ≤ vchSig.length ∧ vchSig.length ≤ 73 := by
  have hsize := canonical_size (h.canonical hsigns htype).1
  obtain ⟨key, pubkey, draw, hpub, -, rfl⟩ := h
  have hlong := hsigns.long key hash draw (valid_of_getPubKey hpub)
  rw [List.length_append, List.length_singleton] at hsize ⊢
  exact ⟨by omega, hsize.2⟩

theorem length_of_operands {l : List (ℕ × List Byte)} (hs : opcodes script = some l)
    (hsize : ∀ op ∈ l, op.2.length ≤ 120) (hcount : l.length ≤ 19) : script.length ≤ 10000 := by
  have hlen := opcodes_length hs
  have hsum : (l.map fun op => op.2.length + 5).sum ≤ l.length * 125 := by
    have hle := List.sum_le_card_nsmul (l.map fun op => op.2.length + 5) 125 (by
      intro n hn
      obtain ⟨op, hop, rfl⟩ := List.mem_map.mp hn
      have hshort := hsize op hop
      omega)
    rwa [List.length_map, Nat.nsmul_eq_mul] at hle
  omega

theorem signs_pubkey (hsigns : Signs crypto) (hsound : Sound crypto.toKeyCrypto keystore)
    (htype : nHashType ∈ hashTypes) {vSolutions : List Valtype}
    (hstandard : Standard script vSolutions .pubkey)
    (hdistinct : Distinct crypto.toCrypto keystore script)
    (hmine : isMine crypto keystore (fuel + 1) script = some true) :
    ∃ values, solver crypto keystore draws script
        (signatureHash crypto.hash256 script txTo nIn nHashType) nHashType =
          some (true, .pubkey, pushAll values) ∧
      Satisfies crypto.toCrypto txTo nIn script values := by
  have hsolved := solver_of_standard hstandard
  obtain ⟨c, k, hk, hs, rfl⟩ := hstandard
  simp only [isMine, hsolved, Option.bind_eq_bind, Option.bind_some, Bool.not_true,
    Bool.false_eq_true, if_false, List.getElem?_cons_zero, Option.pure_def,
    Option.some.injEq] at hmine
  obtain ⟨vchSig, hsigned, hsign⟩ := @sign1_had crypto keystore
    (signatureHash crypto.hash256 script txTo nIn nHashType) nHashType hsigns hsound k
    (hdistinct _ hs _ List.mem_cons_self) hmine (draws 0)
  have hsize := hsigned.size hsigns htype
  have hsized : 33 ≤ k.length ∧ k.length ≤ 120 := by simpa [keySized] using hk
  refine ⟨[vchSig], ?_, by simp, ?_, fun txTo' htx => ?_⟩
  · unfold keyAddress at hsign
    simp [solver, hsolved, hsign]
  · simp only [List.mem_singleton, forall_eq, MAX_SCRIPT_ELEMENT_SIZE]
    omega
  · have hcanonical := hsigned.canonical hsigns htype
    have hfresh := fresh_of_operands hs (by omega : vchSig.length < 2 ^ 32) (by
      simp only [List.mem_cons, List.not_mem_nil, or_false, forall_eq_or_imp, forall_eq]
      exact ⟨fun _ => canonical_ne hcanonical.1 hcanonical.2, fun h => absurd h (by decide)⟩)
    have hlen := length_of_operands hs (by simp [hsized.2]) (by simp)
    obtain ⟨n, heval⟩ := @evalScript_pubkey (verifyContext crypto.toCrypto txTo' nIn) script []
      c k vchSig hk hs hlen (by simp) (by omega) hfresh
    rw [hsigned.fits_unsigned hsigns htype htx] at heval
    exact ⟨[], n, heval⟩

theorem leBytes_uint160 {h : Valtype} (hh : h.length = 20) : leBytes 20 (uint160 h).toNat = h := by
  have hlt := ofLeBytes_lt h
  rw [hh] at hlt
  have hnat : (uint160 h).toNat = ofLeBytes h := by
    rw [uint160, if_pos hh, BitVec.toNat_ofNat]
    exact Nat.mod_eq_of_lt (hlt.trans_le (by norm_num))
  have hback := leBytes_ofLeBytes h
  rwa [hh, ← hnat] at hback

theorem signs_pubkeyhash (hsigns : Signs crypto) (hsound : Sound crypto.toKeyCrypto keystore)
    (htype : nHashType ∈ hashTypes) {vSolutions : List Valtype}
    (hstandard : Standard script vSolutions .pubkeyhash)
    (hmine : isMine crypto keystore (fuel + 1) script = some true) :
    ∃ values, solver crypto keystore draws script
        (signatureHash crypto.hash256 script txTo nIn nHashType) nHashType =
          some (true, .pubkeyhash, pushAll values) ∧
      Satisfies crypto.toCrypto txTo nIn script values := by
  have hsolved := solver_of_standard hstandard
  obtain ⟨c, h, hh, hs, rfl⟩ := hstandard
  simp only [isMine, hsolved, Option.bind_eq_bind, Option.bind_some, Bool.not_true,
    Bool.false_eq_true, if_false, List.getElem?_cons_zero, Option.pure_def,
    Option.some.injEq] at hmine
  obtain ⟨key, pubkey, hkey, hpub, hget, hid⟩ := hsound.had _ hmine
  have hvalid := valid_of_getPubKey hpub
  have hcanonical := hsigns.pubkey hpub
  obtain ⟨vchSig, hvchSig⟩ : ∃ vchSig, vchSig = crypto.ecdsaSign key.vch
      (signatureHash crypto.hash256 script txTo nIn nHashType) (draws 0) ++
        [nHashType.setWidth 8] := ⟨_, rfl⟩
  have hsigned : SignedFor crypto txTo nIn script nHashType vchSig pubkey.vch :=
    ⟨key, pubkey, draws 0, hpub, rfl, hvchSig⟩
  have hsize := hsigned.size hsigns htype
  have hkeySize : pubkey.vch.length = 33 ∨ pubkey.vch.length = 65 := by
    refine (vch_of_valid ?_).2
    have hlong : 33 ≤ pubkey.vch.length := by
      simp only [isCanonicalPubKey, Bool.and_eq_true, decide_eq_true_eq] at hcanonical
      exact hcanonical.1
    simp only [CPubKey.isValid, decide_eq_true_eq]
    omega
  refine ⟨[vchSig, pubkey.vch], ?_, by simp, ?_, fun txTo' htx => ?_⟩
  · have hpush : pushKey pubkey = some (pushScript pubkey.vch) := by
      have hshort : pubkey.vch.length < OP_PUSHDATA1 := by
        simp only [OP_PUSHDATA1]
        omega
      rw [pushKey, if_pos hshort, pushScript, if_pos hshort]
      rfl
    simp [solver, hsolved, sign1, hkey, keySign, hvalid, hget, hpush, ← hvchSig]
  · simp only [List.mem_cons, List.not_mem_nil, or_false, forall_eq_or_imp, forall_eq,
      MAX_SCRIPT_ELEMENT_SIZE]
    omega
  · have hfresh := fresh_of_operands hs (by omega : vchSig.length < 2 ^ 32) (by
      simp only [List.mem_cons, List.not_mem_nil, or_false, forall_eq_or_imp, forall_eq]
      refine ⟨fun h => absurd h (by decide), fun h => absurd h (by decide), fun _ heq => ?_,
        fun h => absurd h (by decide), fun h => absurd h (by decide)⟩
      rw [heq] at hh
      omega)
    have hlen := length_of_operands hs (by simp [hh]) (by simp)
    have hhash : leBytes 20 ((verifyContext crypto.toCrypto txTo' nIn).crypto.hash160
        pubkey.vch).toNat = h := by
      rw [← leBytes_uint160 hh, ← hid]
      rfl
    obtain ⟨n, heval⟩ := @evalScript_pubkeyhash (verifyContext crypto.toCrypto txTo' nIn) script []
      c h pubkey.vch vchSig hh hs hhash hlen (by simp) (by omega) hfresh
    rw [hsigned.fits_unsigned hsigns htype htx] at heval
    exact ⟨[], n, heval⟩

/-- The keys between the two numbers of a multisig script. -/
theorem multisig_slice (m n : Valtype) (keys : List Valtype) :
    ((m :: (keys ++ [n])).drop 1).take ((m :: (keys ++ [n])).length - 1 - 1) = keys := by
  rw [List.drop_succ_cons, List.drop_zero]
  simp

theorem toNat_ofNat_small {n : ℕ} (h : n ≤ 16) : (BitVec.ofNat 8 n).toNat = n := by
  rw [BitVec.toNat_ofNat]
  omega

/-- What the signing Solver makes of a multisig script: an empty value, and signatures for the first
keys that the store has. -/
theorem solver_multisig_signs (hsigns : Signs crypto) (hsound : Sound crypto.toKeyCrypto keystore)
    {m : ℕ} {keys : List (ℕ × Valtype)} (hm : 1 ≤ m) (hmn : m ≤ keys.length)
    (hn : keys.length ≤ 16) (hkeys : Keys keys)
    (hs : opcodes script = some ((opN m, []) ::
      (keys ++ [(opN keys.length, []), (OP_CHECKMULTISIG, [])])))
    (hdistinct : Distinct crypto.toCrypto keystore script) (draws : ℕ → ℕ) (hash : Uint256)
    (nHashType : BitVec 32) :
    ∃ sigs, solver crypto keystore draws script hash nHashType =
        some (sigs.length == m, .multisig, pushAll ([] :: sigs)) ∧
      List.SublistForall₂ (fun vchSig k => Signed crypto hash nHashType vchSig k ∧
        canSign crypto.toCrypto keystore k = true) sigs (keys.map Prod.snd) ∧
      sigs.length = min m ((keys.map Prod.snd).countP (canSign crypto.toCrypto keystore)) := by
  have hsolved := solver_of_standard (t := .multisig) ⟨m, keys, hm, hmn, hn, hkeys, hs, rfl⟩
  have hkeysDistinct : ∀ k ∈ keys.map Prod.snd, ∀ pubkey,
      keystore.getPubKey (keyAddress crypto.toCrypto k) = some pubkey → pubkey = CPubKey.set k := by
    intro k hk
    obtain ⟨op, hop, rfl⟩ := List.mem_map.mp hk
    exact hdistinct _ hs op (by simp [hop])
  obtain ⟨sigs, hloop, hembeds, hlen⟩ := @signLoop_spec crypto keystore hash nHashType hsigns hsound
    draws m (keys.map Prod.snd) hkeysDistinct 0 [BitVec.ofNat 8 OP_0]
  rw [Nat.sub_zero] at hlen
  refine ⟨sigs, ?_, hembeds, hlen⟩
  have hpush : [BitVec.ofNat 8 OP_0] ++ pushAll sigs = pushAll ([] :: sigs) := rfl
  have hmN : m % 256 = m := Nat.mod_eq_of_lt (by omega)
  simp only [solver, hsolved, Option.bind_eq_bind, Option.bind_some, Bool.not_true,
    Bool.false_eq_true, if_false, signN, List.head?_cons, List.getElem?_cons_zero, multisig_slice,
    BitVec.toNat_ofNat, Nat.reducePow, hmN, hloop, Nat.zero_add, hpush, Option.pure_def]

theorem signs_multisig (hsigns : Signs crypto) (hsound : Sound crypto.toKeyCrypto keystore)
    (htype : nHashType ∈ hashTypes) {vSolutions : List Valtype}
    (hstandard : Standard script vSolutions .multisig)
    (hdistinct : Distinct crypto.toCrypto keystore script)
    (hmine : isMine crypto keystore (fuel + 1) script = some true) :
    ∃ values, solver crypto keystore draws script
        (signatureHash crypto.hash256 script txTo nIn nHashType) nHashType =
          some (true, .multisig, pushAll values) ∧
      Satisfies crypto.toCrypto txTo nIn script values := by
  have hsolved := solver_of_standard hstandard
  obtain ⟨m, keys, hm, hmn, hn, hkeys, hs, rfl⟩ := hstandard
  simp only [isMine, hsolved, Option.bind_eq_bind, Option.bind_some, Bool.not_true,
    Bool.false_eq_true, if_false, multisig_slice, Option.pure_def, Option.some.injEq,
    beq_iff_eq] at hmine
  obtain ⟨sigs, hsign, hembeds, hlen⟩ := solver_multisig_signs hsigns hsound hm hmn hn hkeys hs
    hdistinct draws (signatureHash crypto.hash256 script txTo nIn nHashType) nHashType
  have hall : (keys.map Prod.snd).countP (canSign crypto.toCrypto keystore) = keys.length := by
    have hmine' : (keys.map Prod.snd).countP (canSign crypto.toCrypto keystore) =
        (keys.map Prod.snd).length := hmine
    rw [hmine', List.length_map]
  rw [hall, Nat.min_eq_left hmn] at hlen
  rw [hlen, beq_self_eq_true] at hsign
  have hsigned : ∀ vchSig ∈ sigs, ∃ k ∈ keys.map Prod.snd,
      SignedFor crypto txTo nIn script nHashType vchSig k := by
    intro vchSig hvchSig
    obtain ⟨k, hk, hR⟩ := exists_of_sublistForall₂ hembeds vchSig hvchSig
    exact ⟨k, hk, hR.1⟩
  have hsizes : ∀ vchSig ∈ sigs, vchSig.length ≤ 73 := fun vchSig hvchSig => by
    obtain ⟨k, -, hk⟩ := hsigned vchSig hvchSig
    exact (hk.size hsigns htype).2
  -- the store has every key, so that every key of the script is canonical
  have hcanonical : ∀ k ∈ keys.map Prod.snd, isCanonicalPubKey k = true := by
    intro k hk
    have hk' := List.countP_eq_length.mp (hall.trans (List.length_map _).symm) k hk
    obtain ⟨key, pubkey, -, hpub, hget, -⟩ := hsound.had _ hk'
    obtain ⟨op, hop, rfl⟩ := List.mem_map.mp hk
    have hset := hdistinct _ hs op (by simp [hop]) pubkey hget
    have hkey := hsigns.pubkey hpub
    rw [hset] at hkey
    rwa [set_vch_of_canonical hkey] at hkey
  refine ⟨[] :: sigs, hsign, by simp only [List.length_cons, hlen]; omega, ?_, fun txTo' htx => ?_⟩
  · rw [List.forall_mem_cons]
    refine ⟨Nat.zero_le _, fun v hv => (hsizes v hv).trans ?_⟩
    simp [MAX_SCRIPT_ELEMENT_SIZE]
  · have hfresh : ∀ vchSig ∈ sigs.reverse, vchSig.length < 2 ^ 32 ∧ Fresh script vchSig := by
      intro vchSig hvchSig
      rw [List.mem_reverse] at hvchSig
      have hsize := hsizes vchSig hvchSig
      obtain ⟨k, -, hk⟩ := hsigned vchSig hvchSig
      have hsig := (hk.canonical hsigns htype).1
      have hlong := canonical_size hsig
      refine ⟨by omega, fresh_of_operands hs (by omega) fun op hop hlow => ?_⟩
      simp only [List.mem_cons, List.mem_append, List.not_mem_nil, or_false] at hop
      rintro rfl
      obtain rfl | hop | rfl | rfl := hop
      · simp at hlong
      · exact canonical_ne hsig (hcanonical _ (List.mem_map_of_mem hop)) rfl
      · simp at hlong
      · simp at hlong
    have hlen' := length_of_operands hs (by
      intro op hop
      simp only [List.mem_cons, List.mem_append, List.not_mem_nil, or_false] at hop
      obtain rfl | hop | rfl | rfl := hop
      · exact Nat.zero_le _
      · have hsized : 33 ≤ op.2.length ∧ op.2.length ≤ 120 := by
          simpa [keySized] using hkeys op hop
        exact hsized.2
      · exact Nat.zero_le _
      · exact Nat.zero_le _) (by
        simp only [List.length_cons, List.length_append, List.length_nil]
        omega)
    obtain ⟨n, heval⟩ := @evalScript_multisig (verifyContext crypto.toCrypto txTo' nIn) script []
      m keys sigs.reverse [] hm hmn hn hkeys hs hlen' (by rw [List.length_reverse, hlen]) (by simp)
      hfresh
    have hgreedy : greedy (EvalScript.fits (verifyContext crypto.toCrypto txTo' nIn) script)
        sigs.reverse (keys.map Prod.snd).reverse = true := by
      rw [greedy_iff, embeds_reverse]
      exact sublistForall₂_imp hembeds fun vchSig _ k _ hR =>
        Signed.fits_unsigned hsigns htype hR.1 htx
    rw [hgreedy] at heval
    exact ⟨[], n, by rw [List.reverse_cons]; exact heval⟩

theorem signs_plain (hsigns : Signs crypto) (hsound : Sound crypto.toKeyCrypto keystore)
    (htype : nHashType ∈ hashTypes) {t : TxnOutType} {vSolutions : List Valtype}
    (hstandard : Standard script vSolutions t) (hplain : t ≠ .scripthash)
    (hdistinct : Distinct crypto.toCrypto keystore script)
    (hmine : isMine crypto keystore (fuel + 1) script = some true) :
    ∃ values, solver crypto keystore draws script
        (signatureHash crypto.hash256 script txTo nIn nHashType) nHashType =
          some (true, t, pushAll values) ∧
      Satisfies crypto.toCrypto txTo nIn script values := by
  cases t with
  | nonstandard => exact hstandard.elim
  | pubkey => exact signs_pubkey hsigns hsound htype hstandard hdistinct hmine
  | pubkeyhash => exact signs_pubkeyhash hsigns hsound htype hstandard hmine
  | scripthash => exact absurd rfl hplain
  | multisig => exact signs_multisig hsigns hsound htype hstandard hdistinct hmine

theorem standard_of_solver {t : TxnOutType} {vSolutions : List Valtype}
    (h : Solver.solver script [] = some (true, t, vSolutions)) : Standard script vSolutions t := by
  have hcounted : ¬IllCounted script := by
    intro hbad
    obtain ⟨sols, -, hsolved⟩ := solver_of_illCounted hbad
    rw [h] at hsolved
    simp at hsolved
  exact ((solvedRight_iff.mpr hcounted).accepts t vSolutions).mp h

theorem isMine_standard (h : isMine crypto keystore fuel script = some true) :
    ∃ t vSolutions, Standard script vSolutions t := by
  cases fuel with
  | zero => cases h
  | succ fuel =>
    rw [isMine] at h
    cases hsolved : Solver.solver script [] with
    | none => simp [hsolved] at h
    | some solved =>
      obtain ⟨fRet, t, vSolutions⟩ := solved
      cases fRet with
      | false => simp [hsolved] at h
      | true => exact ⟨t, vSolutions, standard_of_solver hsolved⟩

/-- The redeem script that the store has for a script. -/
def redeemScript (keystore : CKeyStore) (scriptPubKey : CScript) : Option CScript :=
  if isPayToScriptHash scriptPubKey then keystore.getCScript (uint160 ((scriptPubKey.drop 2).take 20))
  else none

/-- The redeem script can be pushed, and pays to no script hash itself. -/
def Redeemable (keystore : CKeyStore) (scriptPubKey : CScript) : Prop :=
  ∀ redeem, redeemScript keystore scriptPubKey = some redeem →
    redeem.length ≤ MAX_SCRIPT_ELEMENT_SIZE ∧ isPayToScriptHash redeem = false

theorem redeemScript_plain {t : TxnOutType} {vSolutions : List Valtype}
    (hstandard : Standard script vSolutions t) (hplain : t ≠ .scripthash) :
    redeemScript keystore script = none := by
  have hnot : ¬isPayToScriptHash script = true :=
    fun hp => hplain ((isPayToScriptHash_standard hstandard).mp hp)
  exact if_neg hnot

theorem redeemScript_hash {h : Valtype} (hstandard : Standard script [h] .scripthash) :
    redeemScript keystore script = keystore.getCScript (uint160 h) := by
  have hp := (isPayToScriptHash_standard hstandard).mpr rfl
  obtain ⟨k, hk, hs, heq⟩ := hstandard
  obtain rfl := (List.cons.inj heq).1
  rw [redeemScript, if_pos hp, (opcodes_scriptHash.mp hs).2]
  congr 2
  exact List.take_left' hk

theorem evalScript_satisfies {values : List Valtype} {txTo' : CTransaction}
    (h : Satisfies crypto.toCrypto txTo nIn script values) :
    evalScript (verifyContext crypto.toCrypto txTo' nIn) [] (pushAll values) =
      .returned true values.reverse 0 := by
  have hcount := h.count
  have hlen := pushAll_length h.size (by decide)
  rw [MAX_SCRIPT_ELEMENT_SIZE] at hlen
  have hroom : values.length * (520 + 5) ≤ 17 * (520 + 5) := Nat.mul_le_mul_right _ hcount
  exact evalScript_pushAll h.size (by omega) (by omega)

theorem flags_p2sh (crypto : Crypto) (txTo : CTransaction) (nIn : ℕ) :
    (verifyContext crypto txTo nIn).flags &&& SCRIPT_VERIFY_P2SH ≠ 0 := by
  change (SCRIPT_VERIFY_P2SH ||| SCRIPT_VERIFY_STRICTENC) &&& SCRIPT_VERIFY_P2SH ≠ 0
  decide

theorem verifyScript_oversized {values : List Valtype} {redeem : Valtype} {ctx : Context}
    (h : Satisfies crypto.toCrypto txTo nIn script values)
    (hbig : MAX_SCRIPT_ELEMENT_SIZE < redeem.length) (hsize : redeem.length < 2 ^ 32)
    (scriptPubKey : CScript) :
    verifyScript ctx (pushAll (values ++ [redeem])) scriptPubKey = some (false, 0) := by
  have hcount := h.count
  obtain ⟨stack, n, heval⟩ := @evalScript_oversized ctx values redeem h.size (by omega) hbig hsize
  unfold verifyScript
  rw [heval]

theorem isMine_fuel (hmine : isMine crypto keystore fuel script = some true) :
    ∃ n, fuel = n + 1 := by
  cases fuel with
  | zero => cases hmine
  | succ n => exact ⟨n, rfl⟩

theorem not_isPayToScriptHash {t : TxnOutType} {vSolutions : List Valtype}
    (hstandard : Standard script vSolutions t) (hplain : t ≠ .scripthash) :
    isPayToScriptHash script = false := by
  rw [← Bool.not_eq_true, isPayToScriptHash_standard hstandard]
  exact hplain

/-- An output that pays to no script hash. -/
theorem signSignature_plain (hnIn : nIn < txTo.vin.length) {t : TxnOutType}
    {vSolutions values : List Valtype} (hstandard : Standard script vSolutions t)
    (hplain : t ≠ .scripthash)
    (hsolve : solver crypto keystore draws script
      (signatureHash crypto.hash256 script txTo nIn nHashType) nHashType =
        some (true, t, pushAll values))
    (hvalues : Satisfies crypto.toCrypto txTo nIn script values) :
    signSignature crypto keystore draws script txTo nIn nHashType =
      some (true, setScriptSig txTo nIn (pushAll values)) := by
  have hroom : ¬txTo.vin.length ≤ nIn := Nat.not_le.mpr hnIn
  obtain ⟨rest, n, heval⟩ := hvalues.succeeds _ (unsigned_setScriptSig txTo nIn (pushAll values))
  have hverify := verifyScript_plain (evalScript_satisfies hvalues) heval
    (not_isPayToScriptHash hstandard hplain)
  simp [signSignature, hroom, signInput, hsolve, hplain, hverify]

section ScriptHash

variable {h : Valtype} {redeem : CScript}

/-- Of an output that pays to the hash of a script, the redeem script is signed next. -/
theorem solver_scriptHash (hstandard : Standard script [h] .scripthash)
    (hget : keystore.getCScript (uint160 h) = some redeem) :
    solver crypto keystore draws script hash nHashType = some (true, .scripthash, redeem) := by
  simp [solver, solver_of_standard hstandard, hget]

/-- A redeem script that pays to a script hash itself is not signed. -/
theorem signSignature_nested (hnIn : nIn < txTo.vin.length)
    (hstandard : Standard script [h] .scripthash)
    (hget : keystore.getCScript (uint160 h) = some redeem) {vSolutions : List Valtype}
    (hnested : Standard redeem vSolutions .scripthash) :
    ∃ txTo', signSignature crypto keystore draws script txTo nIn nHashType =
      some (false, txTo') ∧ unsigned txTo' = unsigned txTo := by
  have hroom : ¬txTo.vin.length ≤ nIn := Nat.not_le.mpr hnIn
  have hsolved := solver_of_standard hnested
  obtain ⟨h', -, -, rfl⟩ := hnested
  obtain ⟨fRet, scriptSig, hinner⟩ : ∃ fRet scriptSig, solver crypto keystore draws redeem
      (signatureHash crypto.hash256 redeem txTo nIn nHashType) nHashType =
        some (fRet, .scripthash, scriptSig) := by
    cases hget' : keystore.getCScript (uint160 h') with
    | none => exact ⟨false, [], by simp [solver, hsolved, hget']⟩
    | some redeem' => exact ⟨true, redeem', by simp [solver, hsolved, hget']⟩
  refine ⟨setScriptSig txTo nIn (scriptSig ++ pushScript redeem), ?_, unsigned_setScriptSig _ _ _⟩
  simp [signSignature, hroom, signInput, solver_scriptHash hstandard hget, hinner]

/-- What satisfies the redeem script, and the redeem script behind it, are verified. -/
theorem signSignature_inner (hnIn : nIn < txTo.vin.length)
    (hstandard : Standard script [h] .scripthash)
    (hget : keystore.getCScript (uint160 h) = some redeem) {t : TxnOutType} {values : List Valtype}
    (hplain : t ≠ .scripthash)
    (hinner : solver crypto keystore draws redeem
      (signatureHash crypto.hash256 redeem txTo nIn nHashType) nHashType =
        some (true, t, pushAll values)) {b : Bool} {n : ℕ}
    (hverify : verifyScript (verifyContext crypto.toCrypto
        (setScriptSig txTo nIn (pushAll (values ++ [redeem]))) nIn)
      (pushAll (values ++ [redeem])) script = some (b, n)) :
    signSignature crypto keystore draws script txTo nIn nHashType =
      some (b, setScriptSig txTo nIn (pushAll (values ++ [redeem]))) := by
  have hroom : ¬txTo.vin.length ≤ nIn := Nat.not_le.mpr hnIn
  have hscriptSig : pushAll values ++ pushScript redeem = pushAll (values ++ [redeem]) := by
    rw [pushAll_append, pushAll_cons, pushAll_nil, List.append_nil]
  simp [signSignature, hroom, signInput, solver_scriptHash hstandard hget, hinner, hplain,
    hscriptSig, hverify]

/-- With a redeem script that can be pushed the input verifies. -/
theorem verifyScript_signed (hsound : Sound crypto.toKeyCrypto keystore)
    (hstandard : Standard script [h] .scripthash)
    (hget : keystore.getCScript (uint160 h) = some redeem) {values : List Valtype}
    (hvalues : Satisfies crypto.toCrypto txTo nIn redeem values)
    (hsmall : redeem.length ≤ MAX_SCRIPT_ELEMENT_SIZE) {txTo' : CTransaction}
    (hunsigned : unsigned txTo' = unsigned txTo) :
    ∃ n, verifyScript (verifyContext crypto.toCrypto txTo' nIn) (pushAll (values ++ [redeem]))
      script = some (true, n) := by
  obtain ⟨h', hh, hs, heq⟩ := hstandard
  obtain rfl := (List.cons.inj heq).1
  obtain ⟨rest, n, heval⟩ := hvalues.succeeds txTo' hunsigned
  have hhash : leBytes 20 ((verifyContext crypto.toCrypto txTo' nIn).crypto.hash160
      redeem).toNat = h := by
    have hid := hsound.scripts _ _ hget
    rw [← leBytes_uint160 hh, ← hid]
    rfl
  have hsize : ∀ v ∈ values ++ [redeem], v.length ≤ MAX_SCRIPT_ELEMENT_SIZE := by
    rw [List.forall_mem_append, List.forall_mem_singleton]
    exact ⟨hvalues.size, hsmall⟩
  have hcount : values.length ≤ 18 := hvalues.count.trans (by decide)
  exact ⟨n, verifyScript_redeem (flags_p2sh _ _ _) hh hs hhash hsize hcount heval⟩

/-- A script that can be run is not as long as an operand can be. -/
theorem Satisfies.length_lt {values : List Valtype}
    (hvalues : Satisfies crypto.toCrypto txTo nIn redeem values) : redeem.length < 2 ^ 32 := by
  obtain ⟨rest, n, heval⟩ := hvalues.succeeds txTo rfl
  by_contra hlong
  rw [evalScript, if_pos (by omega)] at heval
  simp at heval

/-- An output that pays to the hash of a script of the store. -/
theorem signSignature_scriptHash (hsigns : Signs crypto)
    (hsound : Sound crypto.toKeyCrypto keystore) (htype : nHashType ∈ hashTypes)
    (hnIn : nIn < txTo.vin.length) (hstandard : Standard script [h] .scripthash)
    (hget : keystore.getCScript (uint160 h) = some redeem)
    (hmine : isMine crypto keystore fuel redeem = some true)
    (hdistinct : Distinct crypto.toCrypto keystore redeem) :
    ∃ ok txTo', signSignature crypto keystore draws script txTo nIn nHashType = some (ok, txTo') ∧
      unsigned txTo' = unsigned txTo ∧ (ok = true ↔ Redeemable keystore script) := by
  have hfound := (redeemScript_hash hstandard).trans hget
  have hredeemable : Redeemable keystore script ↔
      redeem.length ≤ MAX_SCRIPT_ELEMENT_SIZE ∧ isPayToScriptHash redeem = false := by
    simp [Redeemable, hfound]
  obtain ⟨k, rfl⟩ := isMine_fuel hmine
  obtain ⟨t, vSolutions, hstandard'⟩ := isMine_standard hmine
  rw [hredeemable]
  by_cases hnested : t = .scripthash
  · subst hnested
    obtain ⟨txTo', hsign, hunsigned⟩ := @signSignature_nested crypto keystore script nHashType txTo
      nIn draws h redeem hnIn hstandard hget _ hstandard'
    refine ⟨false, txTo', hsign, hunsigned, iff_of_false Bool.false_ne_true fun hnot => ?_⟩
    rw [(isPayToScriptHash_standard hstandard').mpr rfl] at hnot
    cases hnot.2
  · obtain ⟨values, hinner, hvalues⟩ := @signs_plain crypto keystore redeem nHashType txTo nIn
      draws k hsigns hsound htype t vSolutions hstandard' hnested hdistinct hmine
    have hnot := not_isPayToScriptHash hstandard' hnested
    have hunsigned := unsigned_setScriptSig txTo nIn (pushAll (values ++ [redeem]))
    by_cases hsmall : redeem.length ≤ MAX_SCRIPT_ELEMENT_SIZE
    · obtain ⟨n, hverify⟩ := verifyScript_signed hsound hstandard hget hvalues hsmall hunsigned
      exact ⟨true, _, signSignature_inner hnIn hstandard hget hnested hinner hverify, hunsigned,
        iff_of_true rfl ⟨hsmall, hnot⟩⟩
    · have hverify := @verifyScript_oversized _ _ _ _ _ _ (verifyContext crypto.toCrypto
        (setScriptSig txTo nIn (pushAll (values ++ [redeem]))) nIn) hvalues
        (Nat.lt_of_not_le hsmall) hvalues.length_lt script
      exact ⟨false, _, signSignature_inner hnIn hstandard hget hnested hinner hverify, hunsigned,
        iff_of_false Bool.false_ne_true fun hand => hsmall hand.1⟩

end ScriptHash

/-- What SignSignature makes of an output whose script is the store's own. -/
theorem signSignature_mine (hsigns : Signs crypto) (hsound : Sound crypto.toKeyCrypto keystore)
    (htype : nHashType ∈ hashTypes) (hnIn : nIn < txTo.vin.length)
    (hmine : isMine crypto keystore fuel script = some true)
    (hdistinct : Distinct crypto.toCrypto keystore script)
    (hredeem : ∀ redeem, redeemScript keystore script = some redeem →
      Distinct crypto.toCrypto keystore redeem) :
    ∃ ok txTo', signSignature crypto keystore draws script txTo nIn nHashType = some (ok, txTo') ∧
      unsigned txTo' = unsigned txTo ∧ (ok = true ↔ Redeemable keystore script) := by
  obtain ⟨t, vSolutions, hstandard⟩ := isMine_standard hmine
  obtain ⟨n, rfl⟩ := isMine_fuel hmine
  by_cases hplain : t = .scripthash
  · subst hplain
    have hsolved := solver_of_standard hstandard
    obtain ⟨h, hh, hs, rfl⟩ := hstandard
    have hhash : Standard script [h] .scripthash := ⟨h, hh, hs, rfl⟩
    rw [isMine, hsolved] at hmine
    cases hget : keystore.getCScript (uint160 h) with
    | none => simp [hget] at hmine
    | some redeem =>
      have hsub : isMine crypto keystore n redeem = some true := by simpa [hget] using hmine
      have hdistinct' := hredeem redeem ((redeemScript_hash hhash).trans hget)
      exact signSignature_scriptHash hsigns hsound htype hnIn hhash hget hsub hdistinct'
  · obtain ⟨values, hsolve, hvalues⟩ := @signs_plain crypto keystore script nHashType txTo nIn
      draws n hsigns hsound htype t vSolutions hstandard hplain hdistinct hmine
    refine ⟨true, setScriptSig txTo nIn (pushAll values),
      signSignature_plain hnIn hstandard hplain hsolve hvalues, unsigned_setScriptSig _ _ _,
      iff_of_true rfl fun redeem hfound => ?_⟩
    rw [redeemScript_plain hstandard hplain] at hfound
    cases hfound

/-- The script of the input verifies. -/
def Verifies (crypto : Crypto) (scriptPubKey : CScript) (txTo : CTransaction) (nIn : ℕ) : Prop :=
  ∃ txin n, txTo.vin[nIn]? = some txin ∧
    verifyScript (verifyContext crypto txTo nIn) txin.scriptSig scriptPubKey = some (true, n)

theorem signSignature_verifies {txTo' : CTransaction} (hnIn : nIn < txTo.vin.length)
    (h : signSignature crypto keystore draws script txTo nIn nHashType = some (true, txTo')) :
    Verifies crypto.toCrypto script txTo' nIn := by
  rw [signSignature, if_neg (Nat.not_le.mpr hnIn)] at h
  simp only [Option.bind_eq_bind, Option.bind_eq_some_iff] at h
  obtain ⟨⟨fSolved, scriptSig⟩, -, h⟩ := h
  cases fSolved with
  | false => simp at h
  | true =>
    simp only [Bool.not_true, Bool.false_eq_true, if_false, Option.bind_eq_some_iff,
      Option.pure_def, Option.some.injEq, Prod.mk.injEq] at h
    obtain ⟨⟨fRet, n⟩, hverify, rfl, rfl⟩ := h
    refine ⟨{ txTo.vin[nIn] with scriptSig := scriptSig }, n, ?_, hverify⟩
    simp [setScriptSig, List.getElem?_eq_getElem hnIn]

/-- What IsMine accepts, an unlocked store can spend: SignSignature makes a script that VerifyScript
accepts, and changes nothing else. Only a redeem script that cannot be pushed, or that pays to a
script hash again, is never spent. -/
theorem mine_signed {crypto : SignCrypto} (hciphers : Ciphers crypto.toKeyCrypto)
    (hsigns : Signs crypto) {s : CCryptoKeyStore} {added : KeyMap}
    (hreach : Reach crypto.toKeyCrypto s added) (hlocked : s.isLocked = false)
    (redeemScripts : List CScript) (draws : ℕ → ℕ) {scriptPubKey : CScript} {txTo : CTransaction}
    {nIn : ℕ} {nHashType : BitVec 32} {keystore : CKeyStore}
    (hkeystore : keystore = cryptoStore crypto.toKeyCrypto s
      (redeemScripts.foldl (addCScript crypto.toCrypto) ∅))
    (htype : nHashType ∈ hashTypes) (hnIn : nIn < txTo.vin.length) {fuel : ℕ}
    (hmine : isMine crypto keystore fuel scriptPubKey = some true)
    (hdistinct : Distinct crypto.toCrypto keystore scriptPubKey)
    (hredeem : ∀ redeem, redeemScript keystore scriptPubKey = some redeem →
      Distinct crypto.toCrypto keystore redeem) :
    ∃ ok txTo', signSignature crypto keystore draws scriptPubKey txTo nIn nHashType =
        some (ok, txTo') ∧
      unsigned txTo' = unsigned txTo ∧ (ok = true ↔ Redeemable keystore scriptPubKey) ∧
      (ok = true → Verifies crypto.toCrypto scriptPubKey txTo' nIn) := by
  have hsound := reach_sound hciphers hreach hlocked redeemScripts
  rw [← hkeystore] at hsound
  obtain ⟨ok, txTo', hsign, hunsigned, hok⟩ := signSignature_mine hsigns hsound htype hnIn hmine
    hdistinct hredeem
  refine ⟨ok, txTo', hsign, hunsigned, hok, fun htrue => ?_⟩
  rw [htrue] at hsign
  exact signSignature_verifies hnIn hsign

end Signing

section Demonstration

/-- A signature that tells the key and the hash. -/
def demoSignature (vch : List Byte) (hash : Uint256) : Valtype :=
  0x30 :: 70 :: 2 :: 33 :: 1 :: (vch ++ 2 :: 33 :: 1 :: uint256Bytes hash)

def demoSigner : SignCrypto where
  toKeyCrypto := { demoCrypto with
    verify := fun vchPubKey hash vchSig =>
      vchSig == demoSignature ((vchPubKey.drop 1).take 32) hash }
  ecdsaSign vch hash _ := demoSignature vch hash

theorem demoSigner_ciphers : Ciphers demoSigner.toKeyCrypto := by
  refine ⟨?_, ?_, ?_⟩
  · intro vMasterKey vchSecret nIV vchCryptedSecret h
    exact @Ciphers.inverts _ demo_ciphers vMasterKey vchSecret nIV vchCryptedSecret h
  · exact demo_ciphers.wrongKey
  · exact demo_ciphers.form

theorem demoSigner_pubkey {key : CKey} {pubkey : CPubKey}
    (h : key.getPubKey demoSigner.toKeyCrypto = some pubkey) :
    key.vch.length = 32 ∧ pubkey.vch = (if key.fCompressed then 2 :: key.vch
      else 4 :: (key.vch ++ key.vch)) := by
  have hvalid := valid_of_getPubKey h
  have hlength := (key.checked hvalid).1
  rw [getPubKey_of_valid hvalid] at h
  cases h
  refine ⟨hlength, ?_⟩
  cases hform : key.fCompressed with
  | true => simp [demoSigner, demoCrypto, CPubKey.set, isValidPubKey, getLen, hlength]
  | false => simp [demoSigner, demoCrypto, CPubKey.set, isValidPubKey, getLen, hlength]

theorem demo_signs : Signs demoSigner := by
  refine ⟨?_, ?_, ?_, ?_⟩
  · intro key pubkey h
    obtain ⟨hlength, hvch⟩ := demoSigner_pubkey h
    rw [hvch]
    cases hform : key.fCompressed with
    | true => simp [isCanonicalPubKey, hlength]
    | false => simp [isCanonicalPubKey, hlength]
  · intro key hash draw hvalid nHashType htype
    have hlength := (key.checked hvalid).1
    have hhash : (uint256Bytes hash).length = 32 := leBytes_length 32 _
    have htypes : ∀ t ∈ hashTypes, 1 ≤ t.toNat % 256 &&& 127 ∧ t.toNat % 256 &&& 127 ≤ 3 := by
      simp [hashTypes]
    simp [isCanonicalSignature, isCanonicalPart, demoSigner, demoSignature, hlength, hhash,
      htypes _ htype]
  · intro key pubkey hash draw h
    obtain ⟨hlength, hvch⟩ := demoSigner_pubkey h
    cases hform : key.fCompressed with
    | true => simp [demoSigner, hvch, hform, ← hlength]
    | false => simp [demoSigner, hvch, hform, ← hlength]
  · intro key hash draw hvalid
    simp [demoSigner, demoSignature, (key.checked hvalid).1]
    omega

/-- The store of one key, and the script that pays to it. -/
def demoKeys (b : Byte) : CCryptoKeyStore := Call.after demoSigner.toKeyCrypto {} (demoAdd b)

def demoPays (b : Byte) : CScript :=
  setDestination (.keyID ((demoCrypto.ecPubKey (demoKey b).vch true).getID demoCrypto.toCrypto))

def demoSpend : CTransaction := ⟨1, [⟨⟨0, 0⟩, [], 0⟩], [], 0⟩

def demoKeystore (b : Byte) : CKeyStore := cryptoStore demoSigner.toKeyCrypto (demoKeys b) ∅

theorem demo_distinct : Distinct demoSigner.toCrypto (demoKeystore 1) (demoPays 1) := by
  intro l hl op hop pubkey hget
  have hkeys : ∀ l, opcodes (demoPays 1) = some l → ∀ op ∈ l,
      (demoKeystore 1).getPubKey (keyAddress demoSigner.toCrypto op.2) = none := by
    decide
  rw [hkeys l hl op hop] at hget
  cases hget

theorem demo_mine_signed : ∃ ok txTo', signSignature demoSigner (demoKeystore 1) id (demoPays 1)
      demoSpend 0 1 = some (ok, txTo') ∧
    unsigned txTo' = unsigned demoSpend ∧ (ok = true ↔ Redeemable (demoKeystore 1) (demoPays 1)) ∧
    (ok = true → Verifies demoSigner.toCrypto (demoPays 1) txTo' 0) :=
  mine_signed demoSigner_ciphers demo_signs (Reach.empty.next (demoAdd 1) rfl rfl) rfl [] id rfl
    (by decide) (by decide)
    (show isMine demoSigner (demoKeystore 1) 1 (demoPays 1) = some true from rfl) demo_distinct
    fun redeem h => by
      rw [show redeemScript (demoKeystore 1) (demoPays 1) = none from rfl] at h
      cases h

end Demonstration

end UmbrellaLtc.Signing
