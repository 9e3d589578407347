import UmbrellaLtc.EvalScript
import Mathlib.Data.Option.Basic

/-!
The keys of key.h and the key stores of keystore.cpp, with the encryption of crypter.cpp. The
functions of OpenSSL are arguments. A failed assertion is `none`; a method that returns false
may still have changed the store.
-/

namespace UmbrellaLtc.KeyStore

open Codec Transaction EvalScript

section Keys

abbrev CKeyID := BitVec 160

/-- The bytes from begin() to end(), of which an invalid key has none. -/
structure CPubKey where
  vch : List Byte
  header : vch = [] ∨ isValidPubKey vch = true
deriving DecidableEq

namespace CPubKey

def invalid : CPubKey := ⟨[], Or.inl rfl⟩

def set (vch : List Byte) : CPubKey :=
  if h : isValidPubKey vch = true then ⟨vch, Or.inr h⟩ else invalid

def isValid (pubkey : CPubKey) : Bool := 0 < pubkey.vch.length

def isCompressed (pubkey : CPubKey) : Bool := pubkey.vch.length == 33

def getID (crypto : Crypto) (pubkey : CPubKey) : CKeyID := crypto.hash160 pubkey.vch

def getHash (crypto : Crypto) (pubkey : CPubKey) : Uint256 := crypto.hash256 pubkey.vch

end CPubKey

def vchMax : List Byte :=
  [0xFF, 0xFF, 0xFF, 0xFF, 0xFF, 0xFF, 0xFF, 0xFF, 0xFF, 0xFF, 0xFF, 0xFF, 0xFF, 0xFF, 0xFF, 0xFE,
    0xBA, 0xAE, 0xDC, 0xE6, 0xAF, 0x48, 0xA0, 0x3B, 0xBF, 0xD2, 0x5E, 0x8C, 0xD0, 0x36, 0x41, 0x40]

/-- The second loop of CKey::Check. -/
def checkMax : List Byte → List Byte → Bool
  | b :: vch, m :: max => if b < m then true else if m < b then false else checkMax vch max
  | _, _ => true

/-- CKey::Check, on 32 bytes. -/
def check (vch : List Byte) : Bool := !vch.all (· == 0) && checkMax vch vchMax

/-- The bytes are arbitrary while the key is not valid. -/
structure CKey where
  fValid : Bool
  fCompressed : Bool
  vch : List Byte
  checked : fValid = true → vch.length = 32 ∧ check vch = true
deriving DecidableEq

/-- CKey::Set. -/
def CKey.set (key : CKey) (vch : List Byte) (fCompressedIn : Bool) : CKey :=
  if h : vch.length = 32 ∧ check vch = true then ⟨true, fCompressedIn, vch, fun _ => h⟩
  else { key with fValid := false, checked := nofun }

/-- The bytes from begin() to end(). -/
def CKey.bytes (key : CKey) : List Byte := if key.fValid then key.vch else []

abbrev CKeyingMaterial := List Byte

/-- The functions of OpenSSL that keys use: the public key of a secret, in a form that is
compressed or not, and AES-256-CBC with a key and an IV. -/
structure KeyCrypto extends Crypto where
  ecPubKey : List Byte → Bool → CPubKey
  aesEncrypt : List Byte → List Byte → CKeyingMaterial → Option (List Byte)
  aesDecrypt : List Byte → List Byte → List Byte → Option CKeyingMaterial

def CKey.getPubKey (crypto : KeyCrypto) (key : CKey) : Option CPubKey :=
  if key.fValid then some (crypto.ecPubKey key.vch key.fCompressed) else none

def WALLET_CRYPTO_KEY_SIZE : ℕ := 32

/-- EncryptSecret. CCrypter::SetKey wants a key of 32 bytes; the IV has them. -/
def encryptSecret (crypto : KeyCrypto) (vMasterKey vchPlaintext : CKeyingMaterial)
    (nIV : Uint256) : Option (List Byte) :=
  if vMasterKey.length ≠ WALLET_CRYPTO_KEY_SIZE then none
  else crypto.aesEncrypt vMasterKey (uint256Bytes nIV) vchPlaintext

def decryptSecret (crypto : KeyCrypto) (vMasterKey : CKeyingMaterial) (vchCiphertext : List Byte)
    (nIV : Uint256) : Option CKeyingMaterial :=
  if vMasterKey.length ≠ WALLET_CRYPTO_KEY_SIZE then none
  else crypto.aesDecrypt vMasterKey (uint256Bytes nIV) vchCiphertext

end Keys

section Store

abbrev KeyMap := Std.TreeMap CKeyID CKey
abbrev CryptedKeyMap := Std.TreeMap CKeyID (CPubKey × List Byte)

structure CCryptoKeyStore where
  mapKeys : KeyMap := ∅
  mapCryptedKeys : CryptedKeyMap := ∅
  vMasterKey : CKeyingMaterial := []
  fUseCrypto : Bool := false

namespace CCryptoKeyStore

variable (crypto : KeyCrypto) (s : CCryptoKeyStore)

def isCrypted : Bool := s.fUseCrypto

def isLocked : Bool := s.isCrypted && s.vMasterKey.isEmpty

def haveKey (address : CKeyID) : Bool :=
  if !s.isCrypted then s.mapKeys.contains address else s.mapCryptedKeys.contains address

/-- GetKey, with the key that it writes to; none where it returns false. -/
def getKey (address : CKeyID) (keyOut : CKey) : Option CKey :=
  if !s.isCrypted then s.mapKeys[address]?
  else match s.mapCryptedKeys[address]? with
    | none => none
    | some (vchPubKey, vchCryptedSecret) =>
        match decryptSecret crypto s.vMasterKey vchCryptedSecret
            (vchPubKey.getHash crypto.toCrypto) with
        | none => none
        | some vchSecret =>
            if vchSecret.length ≠ 32 then none
            else some (keyOut.set vchSecret vchPubKey.isCompressed)

def setCrypted : Bool × CCryptoKeyStore :=
  if s.fUseCrypto then (true, s)
  else if !s.mapKeys.isEmpty then (false, s)
  else (true, { s with fUseCrypto := true })

def lock : Bool × CCryptoKeyStore :=
  match s.setCrypted with
  | (false, s) => (false, s)
  | (true, s) => (true, { s with vMasterKey := [] })

/-- The loop leaves with the first stored key, whatever it is. -/
def unlock (vMasterKeyIn : CKeyingMaterial) : Option (Bool × CCryptoKeyStore) :=
  match s.setCrypted with
  | (false, s) => some (false, s)
  | (true, s) =>
      match s.mapCryptedKeys.toList.head? with
      | none => some (true, { s with vMasterKey := vMasterKeyIn })
      | some (_, vchPubKey, vchCryptedSecret) =>
          match decryptSecret crypto vMasterKeyIn vchCryptedSecret
              (vchPubKey.getHash crypto.toCrypto) with
          | none => some (false, s)
          | some vchSecret =>
              if vchSecret.length ≠ 32 then some (false, s)
              else do
                let key := (CKey.mk false false [] nofun).set vchSecret vchPubKey.isCompressed
                if (← key.getPubKey crypto) = vchPubKey then
                  return (true, { s with vMasterKey := vMasterKeyIn })
                else return (false, s)

def addCryptedKey (vchPubKey : CPubKey) (vchCryptedSecret : List Byte) :
    Bool × CCryptoKeyStore :=
  match s.setCrypted with
  | (false, s) => (false, s)
  | (true, s) =>
      (true, { s with
        mapCryptedKeys := s.mapCryptedKeys.insert (vchPubKey.getID crypto.toCrypto)
          (vchPubKey, vchCryptedSecret) })

def addKeyPubKey (key : CKey) (pubkey : CPubKey) : Bool × CCryptoKeyStore :=
  if !s.isCrypted then
    (true, { s with mapKeys := s.mapKeys.insert (pubkey.getID crypto.toCrypto) key })
  else if s.isLocked then (false, s)
  else match encryptSecret crypto s.vMasterKey key.bytes (pubkey.getHash crypto.toCrypto) with
    | none => (false, s)
    | some vchCryptedSecret => s.addCryptedKey crypto pubkey vchCryptedSecret

/-- The loop of EncryptKeys. -/
def encryptLoop (vMasterKeyIn : CKeyingMaterial) :
    List (CKeyID × CKey) → CCryptoKeyStore → Option (Bool × CCryptoKeyStore)
  | [], s => some (true, s)
  | (_, key) :: mapKeys, s =>
      match key.getPubKey crypto with
      | none => none
      | some vchPubKey =>
          match encryptSecret crypto vMasterKeyIn key.bytes
              (vchPubKey.getHash crypto.toCrypto) with
          | none => some (false, s)
          | some vchCryptedSecret =>
              match s.addCryptedKey crypto vchPubKey vchCryptedSecret with
              | (false, s) => some (false, s)
              | (true, s) => encryptLoop vMasterKeyIn mapKeys s

def encryptKeys (vMasterKeyIn : CKeyingMaterial) : Option (Bool × CCryptoKeyStore) :=
  if !s.mapCryptedKeys.isEmpty || s.isCrypted then some (false, s)
  else match encryptLoop crypto vMasterKeyIn s.mapKeys.toList { s with fUseCrypto := true } with
    | none => none
    | some (false, s) => some (false, s)
    | some (true, s) => some (true, { s with mapKeys := ∅ })

end CCryptoKeyStore

end Store

section Encryption

variable {crypto : KeyCrypto} {s s' : CCryptoKeyStore} {vMasterKeyIn : CKeyingMaterial}

theorem setCrypted_of_crypted (h : s.fUseCrypto = true) : s.setCrypted = (true, s) := by
  simp [CCryptoKeyStore.setCrypted, h]

theorem addCryptedKey_of_crypted (h : s.fUseCrypto = true) (vchPubKey : CPubKey)
    (vchCryptedSecret : List Byte) :
    s.addCryptedKey crypto vchPubKey vchCryptedSecret = (true, { s with
      mapCryptedKeys := s.mapCryptedKeys.insert (vchPubKey.getID crypto.toCrypto)
        (vchPubKey, vchCryptedSecret) }) := by
  simp [CCryptoKeyStore.addCryptedKey, setCrypted_of_crypted h]

/-- What EncryptKeys stores for a key; none if OpenSSL fails. -/
def encryptKey (crypto : KeyCrypto) (vMasterKeyIn : CKeyingMaterial) (key : CKey) :
    Option (List Byte) :=
  (key.getPubKey crypto).bind fun vchPubKey =>
    encryptSecret crypto vMasterKeyIn key.bytes (vchPubKey.getHash crypto.toCrypto)

theorem getPubKey_of_valid {key : CKey} (h : key.fValid = true) :
    key.getPubKey crypto = some (crypto.ecPubKey key.vch key.fCompressed) := by
  simp [CKey.getPubKey, h]

theorem getPubKey_of_invalid {key : CKey} (h : key.fValid = false) :
    key.getPubKey crypto = none := by
  simp [CKey.getPubKey, h]

theorem encryptLoop_crypted {mapKeys : List (CKeyID × CKey)} {ok : Bool} :
    ∀ {s : CCryptoKeyStore}, s.fUseCrypto = true →
      CCryptoKeyStore.encryptLoop crypto vMasterKeyIn mapKeys s = some (ok, s') →
      s'.fUseCrypto = true := by
  induction mapKeys with
  | nil =>
    intro s hs hrun
    simp only [CCryptoKeyStore.encryptLoop, Option.some.injEq, Prod.mk.injEq] at hrun
    rw [← hrun.2]
    exact hs
  | cons entry mapKeys ih =>
    intro s hs hrun
    simp only [CCryptoKeyStore.encryptLoop] at hrun
    split at hrun
    · cases hrun
    · split at hrun
      · simp only [Option.some.injEq, Prod.mk.injEq] at hrun
        rw [← hrun.2]
        exact hs
      · simp only [addCryptedKey_of_crypted hs] at hrun
        refine ih ?_ hrun
        exact hs

/-- The loop fails at the first key that cannot be encrypted, unless an invalid key stops the
program before. -/
theorem encryptLoop_fails_iff (mapKeys : List (CKeyID × CKey)) :
    ∀ {s : CCryptoKeyStore}, s.fUseCrypto = true →
      ((∃ s', CCryptoKeyStore.encryptLoop crypto vMasterKeyIn mapKeys s = some (false, s')) ↔
        ∃ entry ∈ mapKeys.takeWhile (fun entry => entry.2.fValid),
          encryptKey crypto vMasterKeyIn entry.2 = none) := by
  induction mapKeys with
  | nil =>
    intro s _
    simp [CCryptoKeyStore.encryptLoop]
  | cons entry mapKeys ih =>
    intro s hs
    obtain ⟨address, key⟩ := entry
    cases hvalid : key.fValid with
    | false =>
      simp [CCryptoKeyStore.encryptLoop, getPubKey_of_invalid hvalid, hvalid]
    | true =>
      have hpub : key.getPubKey crypto = some (crypto.ecPubKey key.vch key.fCompressed) :=
        getPubKey_of_valid hvalid
      cases hsecret : encryptSecret crypto vMasterKeyIn key.bytes
          ((crypto.ecPubKey key.vch key.fCompressed).getHash crypto.toCrypto) with
      | none =>
        have hkey : encryptKey crypto vMasterKeyIn key = none := by
          simp [encryptKey, hpub, hsecret]
        simp [CCryptoKeyStore.encryptLoop, hpub, hsecret, hvalid, hkey]
      | some vchCryptedSecret =>
        have hkey : encryptKey crypto vMasterKeyIn key ≠ none := by
          simp [encryptKey, hpub, hsecret]
        simp only [CCryptoKeyStore.encryptLoop, hpub, hsecret, addCryptedKey_of_crypted hs,
          List.takeWhile_cons, hvalid, if_true, List.mem_cons, exists_eq_or_imp, hkey, false_or]
        refine ih ?_
        exact hs

/-- A call that returns false leaves the store as it was, and every key can still be had. -/
def Atomic (crypto : KeyCrypto) (s : CCryptoKeyStore) (vMasterKeyIn : CKeyingMaterial) : Prop :=
  ∀ s', s.encryptKeys crypto vMasterKeyIn = some (false, s') →
    s' = s ∧ ∀ address keyOut key, s.getKey crypto address keyOut = some key →
      s'.getKey crypto address keyOut = some key

/-- The keys that EncryptKeys comes to are those before the first invalid one. -/
def AllEncrypt (crypto : KeyCrypto) (s : CCryptoKeyStore) (vMasterKeyIn : CKeyingMaterial) : Prop :=
  ∀ entry ∈ s.mapKeys.toList.takeWhile (fun entry => entry.2.fValid),
    encryptKey crypto vMasterKeyIn entry.2 ≠ none

/-- The mode is switched before the loop, and no failure switches it back. -/
theorem encryptKeys_fails (hcrypted : s.isCrypted = false)
    (hempty : s.mapCryptedKeys.isEmpty = true)
    (hfail : s.encryptKeys crypto vMasterKeyIn = some (false, s')) :
    s'.fUseCrypto = true ∧ ¬AllEncrypt crypto s vMasterKeyIn := by
  simp only [CCryptoKeyStore.encryptKeys, hcrypted, hempty, Bool.not_true, Bool.or_self,
    Bool.false_eq_true, if_false] at hfail
  split at hfail
  · cases hfail
  · rename_i t hloop
    cases hfail
    refine ⟨encryptLoop_crypted rfl hloop, ?_⟩
    obtain ⟨entry, hmem, hnone⟩ := (encryptLoop_fails_iff s.mapKeys.toList rfl).mp ⟨_, hloop⟩
    exact fun hall => hall entry hmem hnone
  · cases hfail

theorem encryptKeys_returns_false (hcrypted : s.isCrypted = false)
    (hempty : s.mapCryptedKeys.isEmpty = true) (hsome : ¬AllEncrypt crypto s vMasterKeyIn) :
    ∃ s', s.encryptKeys crypto vMasterKeyIn = some (false, s') := by
  simp only [AllEncrypt, ne_eq, not_forall, not_not] at hsome
  obtain ⟨entry, hmem, hnone⟩ := hsome
  obtain ⟨t, hloop⟩ := (@encryptLoop_fails_iff crypto vMasterKeyIn s.mapKeys.toList
    { s with fUseCrypto := true } rfl).mpr ⟨entry, hmem, hnone⟩
  refine ⟨t, ?_⟩
  simp [CCryptoKeyStore.encryptKeys, hcrypted, hempty, hloop]

theorem encryptKeys_atomic_iff (crypto : KeyCrypto) (s : CCryptoKeyStore)
    (vMasterKeyIn : CKeyingMaterial) :
    Atomic crypto s vMasterKeyIn ↔
      s.isCrypted = true ∨ s.mapCryptedKeys.isEmpty = false ∨ AllEncrypt crypto s vMasterKeyIn := by
  constructor
  · intro hatomic
    by_contra hcond
    simp only [not_or, Bool.not_eq_true, Bool.not_eq_false] at hcond
    obtain ⟨hcrypted, hempty, hsome⟩ := hcond
    obtain ⟨s', hfail⟩ := encryptKeys_returns_false hcrypted hempty hsome
    have hmode := (encryptKeys_fails hcrypted hempty hfail).1
    rw [(hatomic s' hfail).1] at hmode
    simp [CCryptoKeyStore.isCrypted, hmode] at hcrypted
  · intro hcond s' hfail
    by_cases hguard : (!s.mapCryptedKeys.isEmpty || s.isCrypted) = true
    · simp only [CCryptoKeyStore.encryptKeys, hguard, if_true, Option.some.injEq,
        Prod.mk.injEq, true_and] at hfail
      subst hfail
      exact ⟨rfl, fun _ _ _ h => h⟩
    · simp only [Bool.or_eq_true, Bool.not_eq_true', not_or, Bool.not_eq_true,
        Bool.not_eq_false] at hguard
      obtain ⟨hempty, hcrypted⟩ := hguard
      have hsome := (encryptKeys_fails hcrypted hempty hfail).2
      simp [hcrypted, hempty, hsome] at hcond

/-- A cipher that puts the key in front, and fails on the secrets that begin with two. -/
def demoCrypto : KeyCrypto where
  ripemd160 bs := BitVec.ofNat 160 (ofLeBytes bs)
  sha1 _ := 0
  sha256 bs := BitVec.ofNat 256 (ofLeBytes bs)
  verify _ _ _ := false
  ecPubKey vch fCompressed := CPubKey.set (if fCompressed then 2 :: vch else 4 :: (vch ++ vch))
  aesEncrypt chKey _ vchPlaintext :=
    if vchPlaintext.head? = some 2 then none else some (chKey ++ vchPlaintext)
  aesDecrypt chKey _ vchCiphertext :=
    if vchCiphertext.take 32 = chKey then some (vchCiphertext.drop 32) else none

def demoKey (b : Byte) : CKey :=
  (CKey.mk false false [] nofun).set (b :: List.replicate 31 0) true

def demoMasterKey : CKeyingMaterial := List.replicate 32 7

/-- Two keys, of which the second cannot be encrypted. -/
def demoStore : CCryptoKeyStore :=
  let s := (CCryptoKeyStore.addKeyPubKey demoCrypto {} (demoKey 1)
    (demoCrypto.ecPubKey (demoKey 1).vch true)).2
  (s.addKeyPubKey demoCrypto (demoKey 2) (demoCrypto.ecPubKey (demoKey 2).vch true)).2

theorem encryptKeys_not_atomic : ¬Atomic demoCrypto demoStore demoMasterKey := by
  intro hatomic
  have hcrypted : demoStore.isCrypted = false := rfl
  have hempty : demoStore.mapCryptedKeys.isEmpty = true := by decide +kernel
  have hsome : ¬AllEncrypt demoCrypto demoStore demoMasterKey := by
    unfold AllEncrypt
    decide +kernel
  obtain ⟨s', hfail⟩ := encryptKeys_returns_false hcrypted hempty hsome
  have hmode := (encryptKeys_fails hcrypted hempty hfail).1
  rw [(hatomic s' hfail).1] at hmode
  cases hmode

end Encryption

end UmbrellaLtc.KeyStore
