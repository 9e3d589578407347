import UmbrellaLtc.KeyStore

/-!
Runs of a key store from the empty one. All that is encrypted is encrypted under one master key,
so that the one key that Unlock tries is enough.
-/

namespace UmbrellaLtc.KeyStore

open Codec Transaction EvalScript

section Runs

variable {crypto : KeyCrypto}

/-- What is assumed of the ciphers. -/
structure Ciphers (crypto : KeyCrypto) : Prop where
  inverts : ∀ {vMasterKey vchSecret nIV vchCryptedSecret},
    encryptSecret crypto vMasterKey vchSecret nIV = some vchCryptedSecret →
      decryptSecret crypto vMasterKey vchCryptedSecret nIV = some vchSecret
  /-- Decryption with a wrong key does not give a secret of the public key. -/
  wrongKey : ∀ {vMasterKey vMasterKey' : CKeyingMaterial} {key key' : CKey} {vchPubKey : CPubKey}
      {vchCryptedSecret vchSecret : List Byte},
    key.getPubKey crypto = some vchPubKey →
      encryptSecret crypto vMasterKey key.bytes (vchPubKey.getHash crypto.toCrypto) =
        some vchCryptedSecret →
      decryptSecret crypto vMasterKey' vchCryptedSecret (vchPubKey.getHash crypto.toCrypto) =
        some vchSecret →
      (key'.set vchSecret vchPubKey.isCompressed).getPubKey crypto = some vchPubKey →
      vMasterKey' = vMasterKey
  /-- The form that is asked for is the form of the public key. -/
  form : ∀ {key : CKey} {vchPubKey : CPubKey},
    key.getPubKey crypto = some vchPubKey → vchPubKey.isCompressed = key.fCompressed

inductive Call
  | addKeyPubKey (key : CKey) (pubkey : CPubKey)
  | encryptKeys (vMasterKeyIn : CKeyingMaterial)
  | setCrypted
  | lock
  | unlock (vMasterKeyIn : CKeyingMaterial)

def Call.run (crypto : KeyCrypto) (s : CCryptoKeyStore) : Call → Option (Bool × CCryptoKeyStore)
  | addKeyPubKey key pubkey => some (s.addKeyPubKey crypto key pubkey)
  | encryptKeys vMasterKeyIn => s.encryptKeys crypto vMasterKeyIn
  | setCrypted => some s.setCrypted
  | lock => some s.lock
  | unlock vMasterKeyIn => s.unlock crypto vMasterKeyIn

/-- Every caller of AddKeyPubKey has the public key from the key. -/
def Call.Paired (crypto : KeyCrypto) : Call → Prop
  | addKeyPubKey key pubkey => key.getPubKey crypto = some pubkey
  | _ => True

/-- The keys that were added, by their addresses. -/
def Call.record (crypto : KeyCrypto) (added : KeyMap) : Call → KeyMap
  | addKeyPubKey key pubkey => added.insert (pubkey.getID crypto.toCrypto) key
  | _ => added

/-- The stores that calls that succeed lead to, with what was added. -/
inductive Reach (crypto : KeyCrypto) : CCryptoKeyStore → KeyMap → Prop
  | empty : Reach crypto {} ∅
  | step {s s' : CCryptoKeyStore} {added : KeyMap} (call : Call) :
      Reach crypto s added → call.Paired crypto → call.run crypto s = some (true, s') →
      Reach crypto s' (call.record crypto added)

/-- A stored ciphertext is that of the key under the master key. -/
def EncryptedUnder (crypto : KeyCrypto) (vMasterKey : CKeyingMaterial) (key : CKey)
    (crypted : CPubKey × List Byte) : Prop :=
  key.getPubKey crypto = some crypted.1 ∧
    encryptSecret crypto vMasterKey key.bytes (crypted.1.getHash crypto.toCrypto) =
      some crypted.2

/-- The invariant of the runs. -/
structure Consistent (crypto : KeyCrypto) (s : CCryptoKeyStore) (added : KeyMap) : Prop where
  own : ∀ (address : CKeyID) (key : CKey), added[address]? = some key →
    ∃ vchPubKey, key.getPubKey crypto = some vchPubKey ∧
      vchPubKey.getID crypto.toCrypto = address
  plain : s.fUseCrypto = false →
    s.vMasterKey = [] ∧ s.mapCryptedKeys.isEmpty = true ∧
      ∀ address : CKeyID, s.mapKeys[address]? = added[address]?
  moved : s.fUseCrypto = true → s.mapKeys.isEmpty = true
  crypted : s.fUseCrypto = true → ∃ vMasterKey : CKeyingMaterial,
    (∀ address : CKeyID, Option.Rel (EncryptedUnder crypto vMasterKey) added[address]?
      s.mapCryptedKeys[address]?) ∧
    (s.vMasterKey = [] ∨ (∀ address : CKeyID, added[address]? = none) ∨
      s.vMasterKey = vMasterKey)

theorem consistent_empty : Consistent crypto {} ∅ := by
  refine ⟨?_, fun _ => ⟨rfl, rfl, fun _ => rfl⟩, nofun, nofun⟩
  intro address key h
  simp at h

theorem own_insert {added : KeyMap} {key : CKey} {pubkey : CPubKey}
    (hpair : key.getPubKey crypto = some pubkey)
    (hown : ∀ (address : CKeyID) (key : CKey), added[address]? = some key →
      ∃ vchPubKey, key.getPubKey crypto = some vchPubKey ∧
        vchPubKey.getID crypto.toCrypto = address) :
    ∀ (address : CKeyID) (key' : CKey),
      (added.insert (pubkey.getID crypto.toCrypto) key)[address]? = some key' →
      ∃ vchPubKey, key'.getPubKey crypto = some vchPubKey ∧
        vchPubKey.getID crypto.toCrypto = address := by
  intro address key' h
  rw [Std.TreeMap.getElem?_insert] at h
  split at h
  · rename_i heq
    cases h
    exact ⟨pubkey, hpair, Std.LawfulEqCmp.eq_of_compare heq⟩
  · exact hown address key' h

theorem rel_insert {added : KeyMap} {mapCryptedKeys : CryptedKeyMap}
    {R : CKey → CPubKey × List Byte → Prop}
    {key : CKey} {crypted : CPubKey × List Byte} {address : CKeyID} (hnew : R key crypted)
    (hrel : ∀ address : CKeyID, Option.Rel R added[address]? mapCryptedKeys[address]?) :
    ∀ address' : CKeyID, Option.Rel R (added.insert address key)[address']?
      (mapCryptedKeys.insert address crypted)[address']? := by
  intro address'
  rw [Std.TreeMap.getElem?_insert, Std.TreeMap.getElem?_insert]
  split
  · exact Option.Rel.some hnew
  · exact hrel address'

theorem mapKeys_none {α : Type} {m : Std.TreeMap CKeyID α} (h : m.isEmpty = true)
    (address : CKeyID) : m[address]? = none := by
  rw [Std.TreeMap.getElem?_eq_none]
  exact Std.TreeMap.isEmpty_iff_forall_not_mem.mp h address

theorem addKeyPubKey_consistent {s s' : CCryptoKeyStore} {added : KeyMap} {key : CKey}
    {pubkey : CPubKey} (h : Consistent crypto s added)
    (hpair : key.getPubKey crypto = some pubkey)
    (hrun : s.addKeyPubKey crypto key pubkey = (true, s')) :
    Consistent crypto s' (added.insert (pubkey.getID crypto.toCrypto) key) := by
  have hown := own_insert hpair h.own
  cases hmode : s.fUseCrypto with
  | false =>
    obtain ⟨hmaster, hempty, hsame⟩ := h.plain hmode
    simp only [CCryptoKeyStore.addKeyPubKey, CCryptoKeyStore.isCrypted, hmode, Bool.not_false,
      if_true, Prod.mk.injEq, true_and] at hrun
    subst hrun
    refine ⟨hown, fun _ => ⟨hmaster, hempty, ?_⟩, fun hc => ?_, fun hc => ?_⟩
    · intro address
      simp only [Std.TreeMap.getElem?_insert, hsame]
    · simp at hc
    · simp at hc
  | true =>
    obtain ⟨vMasterKey, hrel, hmaster⟩ := h.crypted hmode
    cases hempty : s.vMasterKey.isEmpty with
    | true =>
      simp [CCryptoKeyStore.addKeyPubKey, CCryptoKeyStore.isCrypted, CCryptoKeyStore.isLocked,
        hmode, hempty] at hrun
    | false =>
      cases hsecret : encryptSecret crypto s.vMasterKey key.bytes
          (pubkey.getHash crypto.toCrypto) with
      | none =>
        simp [CCryptoKeyStore.addKeyPubKey, CCryptoKeyStore.isCrypted, CCryptoKeyStore.isLocked,
          hmode, hempty, hsecret] at hrun
      | some vchCryptedSecret =>
        simp only [CCryptoKeyStore.addKeyPubKey, CCryptoKeyStore.isCrypted,
          CCryptoKeyStore.isLocked, hmode, hempty, hsecret, addCryptedKey_of_crypted hmode,
          Bool.not_true, Bool.and_false, Bool.false_eq_true, if_false, Prod.mk.injEq,
          true_and] at hrun
        subst hrun
        have hnew : EncryptedUnder crypto s.vMasterKey key (pubkey, vchCryptedSecret) :=
          ⟨hpair, hsecret⟩
        have hunder : ∀ address : CKeyID, Option.Rel (EncryptedUnder crypto s.vMasterKey)
            added[address]? s.mapCryptedKeys[address]? := by
          intro address
          have hat := hrel address
          obtain hnil | hnone | hkey := hmaster
          · simp [hnil] at hempty
          · rw [hnone address] at hat ⊢
            generalize s.mapCryptedKeys[address]? = entry at hat ⊢
            cases hat
            exact Option.Rel.none
          · rwa [hkey]
        refine ⟨hown, fun hc => ?_, fun _ => h.moved hmode, fun _ => ⟨s.vMasterKey, ?_, ?_⟩⟩
        · simp at hc
        · exact rel_insert hnew hunder
        · exact Or.inr (Or.inr rfl)

/-- The loop puts every key of the list into the map of encrypted keys, and nothing else. -/
theorem encryptLoop_spec {vMasterKeyIn : CKeyingMaterial} {mapKeys : List (CKeyID × CKey)}
    {s' : CCryptoKeyStore} :
    ∀ {s : CCryptoKeyStore}, s.fUseCrypto = true →
      (∀ entry ∈ mapKeys, ∃ vchPubKey, entry.2.getPubKey crypto = some vchPubKey ∧
        vchPubKey.getID crypto.toCrypto = entry.1) →
      (mapKeys.map Prod.fst).Nodup →
      CCryptoKeyStore.encryptLoop crypto vMasterKeyIn mapKeys s = some (true, s') →
      s'.vMasterKey = s.vMasterKey ∧
        (∀ entry ∈ mapKeys, ∃ crypted, s'.mapCryptedKeys[entry.1]? = some crypted ∧
          EncryptedUnder crypto vMasterKeyIn entry.2 crypted) ∧
        ∀ address ∉ mapKeys.map Prod.fst,
          s'.mapCryptedKeys[address]? = s.mapCryptedKeys[address]? := by
  induction mapKeys with
  | nil =>
    intro s hs hown hnodup hrun
    simp only [CCryptoKeyStore.encryptLoop, Option.some.injEq, Prod.mk.injEq, true_and] at hrun
    subst hrun
    exact ⟨rfl, by simp, fun _ _ => rfl⟩
  | cons entry mapKeys ih =>
    intro s hs hown hnodup hrun
    obtain ⟨address, key⟩ := entry
    obtain ⟨vchPubKey, hpub, hid⟩ := hown (address, key) List.mem_cons_self
    rw [List.map_cons, List.nodup_cons] at hnodup
    simp only [CCryptoKeyStore.encryptLoop, hpub] at hrun
    split at hrun
    · cases hrun
    · rename_i vchCryptedSecret hsecret
      simp only [addCryptedKey_of_crypted hs] at hrun
      obtain ⟨hmaster, hin, hout⟩ := ih (by exact hs)
        (fun entry hmem => hown entry (List.mem_cons_of_mem _ hmem)) hnodup.2 hrun
      simp only [hid] at hout
      refine ⟨hmaster, ?_, ?_⟩
      · intro entry hmem
        obtain rfl | hmem := List.mem_cons.mp hmem
        · refine ⟨(vchPubKey, vchCryptedSecret), ?_, hpub, hsecret⟩
          rw [hout _ hnodup.1, Std.TreeMap.getElem?_insert_self]
        · exact hin entry hmem
      · intro address' hnot
        rw [List.map_cons, List.mem_cons, not_or] at hnot
        rw [hout address' hnot.2, Std.TreeMap.getElem?_insert, if_neg]
        exact fun heq => hnot.1 (Std.LawfulEqCmp.eq_of_compare heq).symm

theorem encryptKeys_consistent {s s' : CCryptoKeyStore} {added : KeyMap}
    {vMasterKeyIn : CKeyingMaterial} (h : Consistent crypto s added)
    (hrun : s.encryptKeys crypto vMasterKeyIn = some (true, s')) :
    Consistent crypto s' added := by
  cases hmode : s.fUseCrypto with
  | true => simp [CCryptoKeyStore.encryptKeys, CCryptoKeyStore.isCrypted, hmode] at hrun
  | false =>
    obtain ⟨hmaster, hempty, hsame⟩ := h.plain hmode
    simp only [CCryptoKeyStore.encryptKeys, CCryptoKeyStore.isCrypted, hmode, hempty,
      Bool.not_true, Bool.or_self, Bool.false_eq_true, if_false] at hrun
    split at hrun
    · cases hrun
    · cases hrun
    · rename_i t hloop
      cases hrun
      have hown : ∀ entry ∈ s.mapKeys.toList, ∃ vchPubKey,
          entry.2.getPubKey crypto = some vchPubKey ∧
            vchPubKey.getID crypto.toCrypto = entry.1 := by
        intro entry hmem
        have hlook := Std.TreeMap.mem_toList_iff_getElem?_eq_some.mp hmem
        exact h.own entry.1 entry.2 ((hsame entry.1).symm.trans hlook)
      have hnodup : (s.mapKeys.toList.map Prod.fst).Nodup := by
        rw [Std.TreeMap.map_fst_toList_eq_keys]
        exact Std.TreeMap.nodup_keys
      have hcrypted := encryptLoop_crypted rfl hloop
      obtain ⟨hmaster', hin, hout⟩ := encryptLoop_spec rfl hown hnodup hloop
      refine ⟨h.own, fun hc => ?_, fun _ => rfl, fun _ => ⟨vMasterKeyIn, ?_, ?_⟩⟩
      · simp [hcrypted] at hc
      · intro address
        rw [← hsame address]
        cases hkey : s.mapKeys[address]? with
        | some key =>
          obtain ⟨crypted, hlook, hunder⟩ := hin (address, key)
            (Std.TreeMap.mem_toList_iff_getElem?_eq_some.mpr hkey)
          rw [hlook]
          exact Option.Rel.some hunder
        | none =>
          have hnot : address ∉ s.mapKeys.toList.map Prod.fst := by
            rw [Std.TreeMap.map_fst_toList_eq_keys, Std.TreeMap.mem_keys,
              Std.TreeMap.mem_iff_isSome_getElem?, hkey]
            exact Bool.false_ne_true
          rw [hout address hnot, mapKeys_none hempty]
          exact Option.Rel.none
      · exact Or.inl (hmaster'.trans hmaster)

/-- A store without keys may become encrypted at any time. -/
theorem setCrypted_consistent {s s' : CCryptoKeyStore} {added : KeyMap}
    (h : Consistent crypto s added) (hrun : s.setCrypted = (true, s')) :
    Consistent crypto s' added ∧ s'.fUseCrypto = true ∧ s'.vMasterKey = s.vMasterKey := by
  cases hmode : s.fUseCrypto with
  | true =>
    rw [setCrypted_of_crypted hmode, Prod.mk.injEq] at hrun
    rw [← hrun.2]
    exact ⟨h, hmode, rfl⟩
  | false =>
    obtain ⟨hmaster, hempty, hsame⟩ := h.plain hmode
    cases hkeys : s.mapKeys.isEmpty with
    | false => simp [CCryptoKeyStore.setCrypted, hmode, hkeys] at hrun
    | true =>
      simp only [CCryptoKeyStore.setCrypted, hmode, hkeys, Bool.not_true, Bool.false_eq_true,
        if_false, Prod.mk.injEq, true_and] at hrun
      subst hrun
      have hadded : ∀ address : CKeyID, added[address]? = none := by
        intro address
        rw [← hsame address]
        exact mapKeys_none hkeys address
      refine ⟨⟨h.own, by simp, fun _ => hkeys, fun _ => ⟨[], fun address => ?_, ?_⟩⟩, rfl, rfl⟩
      · rw [hadded address, mapKeys_none hempty]
        exact Option.Rel.none
      · exact Or.inl hmaster

/-- The master key of an encrypted store only matters once there are keys. -/
theorem setMasterKey_consistent {s : CCryptoKeyStore} {added : KeyMap}
    {vMasterKey : CKeyingMaterial} (h : Consistent crypto s added) (hmode : s.fUseCrypto = true)
    (hkey : ∀ vMasterKey' : CKeyingMaterial,
      (∀ address : CKeyID, Option.Rel (EncryptedUnder crypto vMasterKey') added[address]?
        s.mapCryptedKeys[address]?) →
      vMasterKey = [] ∨ (∀ address : CKeyID, added[address]? = none) ∨
        vMasterKey = vMasterKey') :
    Consistent crypto { s with vMasterKey := vMasterKey } added := by
  obtain ⟨vMasterKey', hrel, _⟩ := h.crypted hmode
  refine ⟨h.own, fun hc => ?_, h.moved, fun _ => ⟨vMasterKey', hrel, hkey vMasterKey' hrel⟩⟩
  simp only at hc
  rw [hmode] at hc
  cases hc

theorem lock_consistent {s s' : CCryptoKeyStore} {added : KeyMap}
    (h : Consistent crypto s added) (hrun : s.lock = (true, s')) :
    Consistent crypto s' added := by
  unfold CCryptoKeyStore.lock at hrun
  split at hrun
  · cases hrun
  · rename_i t hset
    cases hrun
    obtain ⟨ht, hmode, _⟩ := setCrypted_consistent h hset
    exact setMasterKey_consistent ht hmode fun _ _ => Or.inl rfl

/-- The key that opens the first entry is the one under which all are encrypted. -/
theorem unlock_key (hciphers : Ciphers crypto) {s s' : CCryptoKeyStore} {added : KeyMap}
    {vMasterKeyIn : CKeyingMaterial} (h : Consistent crypto s added)
    (hrun : s.unlock crypto vMasterKeyIn = some (true, s')) :
    ∃ t, Consistent crypto t added ∧ t.fUseCrypto = true ∧
      s' = { t with vMasterKey := vMasterKeyIn } ∧
      ∀ vMasterKey : CKeyingMaterial,
        (∀ address : CKeyID, Option.Rel (EncryptedUnder crypto vMasterKey) added[address]?
          t.mapCryptedKeys[address]?) →
        (∀ address : CKeyID, added[address]? = none) ∨ vMasterKeyIn = vMasterKey := by
  unfold CCryptoKeyStore.unlock at hrun
  split at hrun
  · cases hrun
  · rename_i t hset
    obtain ⟨ht, hmode, _⟩ := setCrypted_consistent h hset
    refine ⟨t, ht, hmode, ?_⟩
    split at hrun
    · rename_i hhead
      cases hrun
      refine ⟨rfl, fun vMasterKey hrel => Or.inl fun address => ?_⟩
      have hat := hrel address
      have hnone : t.mapCryptedKeys[address]? = none := by
        apply mapKeys_none
        rw [← Std.TreeMap.isEmpty_toList, List.head?_eq_none_iff.mp hhead]
        rfl
      rw [hnone] at hat
      generalize added[address]? = key at hat ⊢
      cases hat
      rfl
    · rename_i address vchPubKey vchCryptedSecret hhead
      split at hrun
      · cases hrun
      · rename_i vchSecret hdecrypt
        split at hrun
        · cases hrun
        · simp only [Option.bind_eq_bind, Option.bind_eq_some_iff] at hrun
          obtain ⟨vchPubKey', hpub, hrun⟩ := hrun
          split at hrun
          · rename_i heq
            cases hrun
            refine ⟨rfl, fun vMasterKey hrel => Or.inr ?_⟩
            have hlook := Std.TreeMap.mem_toList_iff_getElem?_eq_some.mp
              (List.mem_of_head? hhead)
            have hat := hrel address
            rw [hlook] at hat
            generalize added[address]? = key at hat
            cases hat with
            | some hunder =>
              exact hciphers.wrongKey hunder.1 hunder.2 hdecrypt (heq ▸ hpub)
          · cases hrun

theorem unlock_consistent (hciphers : Ciphers crypto) {s s' : CCryptoKeyStore} {added : KeyMap}
    {vMasterKeyIn : CKeyingMaterial} (h : Consistent crypto s added)
    (hrun : s.unlock crypto vMasterKeyIn = some (true, s')) :
    Consistent crypto s' added := by
  obtain ⟨t, ht, hmode, rfl, hkey⟩ := unlock_key hciphers h hrun
  exact setMasterKey_consistent ht hmode fun vMasterKey hrel => Or.inr (hkey vMasterKey hrel)

theorem reach_consistent (hciphers : Ciphers crypto) {s : CCryptoKeyStore} {added : KeyMap}
    (h : Reach crypto s added) : Consistent crypto s added := by
  induction h with
  | empty => exact consistent_empty
  | step call _ hpair hrun ih =>
    cases call with
    | addKeyPubKey key pubkey => exact addKeyPubKey_consistent ih hpair (Option.some.inj hrun)
    | encryptKeys vMasterKeyIn => exact encryptKeys_consistent ih hrun
    | setCrypted => exact (setCrypted_consistent ih (Option.some.inj hrun)).1
    | lock => exact lock_consistent ih (Option.some.inj hrun)
    | unlock vMasterKeyIn => exact unlock_consistent hciphers ih hrun

/-- GetKey writes all of the key that it is given. -/
theorem set_bytes {key : CKey} (hvalid : key.fValid = true) (keyOut : CKey) :
    keyOut.set key.bytes key.fCompressed = key := by
  obtain ⟨fValid, fCompressed, vch, checked⟩ := key
  subst hvalid
  simp [CKey.set, CKey.bytes, checked rfl]

theorem valid_of_getPubKey {key : CKey} {vchPubKey : CPubKey}
    (h : key.getPubKey crypto = some vchPubKey) : key.fValid = true := by
  cases hvalid : key.fValid with
  | true => rfl
  | false =>
    rw [getPubKey_of_invalid hvalid] at h
    cases h

theorem getKey_unlocked (hciphers : Ciphers crypto) {s : CCryptoKeyStore} {key keyOut : CKey}
    {address : CKeyID} {crypted : CPubKey × List Byte} (hmode : s.fUseCrypto = true)
    (hlook : s.mapCryptedKeys[address]? = some crypted)
    (hunder : EncryptedUnder crypto s.vMasterKey key crypted) :
    s.getKey crypto address keyOut = some key := by
  obtain ⟨hpub, hsecret⟩ := hunder
  have hvalid := valid_of_getPubKey hpub
  have hlength : key.bytes.length = 32 := by
    rw [CKey.bytes, if_pos hvalid]
    exact (key.checked hvalid).1
  simp only [CCryptoKeyStore.getKey, CCryptoKeyStore.isCrypted, hmode, hlook,
    hciphers.inverts hsecret, hlength, hciphers.form hpub, set_bytes hvalid, Bool.not_true,
    Bool.false_eq_true, if_false, ne_eq, not_true]

theorem getKey_locked {s : CCryptoKeyStore} {address : CKeyID} {keyOut : CKey}
    (hlocked : s.isLocked = true) : s.getKey crypto address keyOut = none := by
  simp only [CCryptoKeyStore.isLocked, Bool.and_eq_true, List.isEmpty_iff] at hlocked
  simp only [CCryptoKeyStore.getKey, hlocked.1, hlocked.2, Bool.not_true, Bool.false_eq_true,
    if_false]
  split
  · rfl
  · simp [decryptSecret, WALLET_CRYPTO_KEY_SIZE]

theorem haveKey_eq {s : CCryptoKeyStore} {added : KeyMap} (h : Consistent crypto s added)
    (address : CKeyID) : s.haveKey address = added.contains address := by
  simp only [CCryptoKeyStore.haveKey, CCryptoKeyStore.isCrypted,
    Std.TreeMap.contains_eq_isSome_getElem?]
  cases hmode : s.fUseCrypto with
  | false => simp [(h.plain hmode).2.2 address]
  | true =>
    obtain ⟨vMasterKey, hrel, _⟩ := h.crypted hmode
    have hat := hrel address
    generalize added[address]? = key at hat ⊢
    generalize s.mapCryptedKeys[address]? = crypted at hat ⊢
    cases hat with
    | some _ => rfl
    | none => rfl

theorem one_master_key {s : CCryptoKeyStore} {added : KeyMap} (h : Consistent crypto s added) :
    ∃ vMasterKey : CKeyingMaterial,
      (∀ (address : CKeyID) (crypted : CPubKey × List Byte),
        s.mapCryptedKeys[address]? = some crypted →
          ∃ key, added[address]? = some key ∧ EncryptedUnder crypto vMasterKey key crypted) ∧
      (s.vMasterKey = [] ∨ ((∃ address, s.haveKey address = true) →
        s.vMasterKey = vMasterKey)) := by
  cases hmode : s.fUseCrypto with
  | false =>
    obtain ⟨hmaster, hempty, _⟩ := h.plain hmode
    refine ⟨[], fun address crypted hlook => ?_, Or.inl hmaster⟩
    rw [mapKeys_none hempty] at hlook
    cases hlook
  | true =>
    obtain ⟨vMasterKey, hrel, hmaster⟩ := h.crypted hmode
    refine ⟨vMasterKey, fun address crypted hlook => ?_, ?_⟩
    · have hat := hrel address
      rw [hlook] at hat
      generalize added[address]? = key at hat ⊢
      cases hat with
      | some hunder => exact ⟨_, rfl, hunder⟩
    · obtain hnil | hnone | hkey := hmaster
      · exact Or.inl hnil
      · refine Or.inr fun ⟨address, hhave⟩ => ?_
        rw [haveKey_eq h, Std.TreeMap.contains_eq_isSome_getElem?, hnone] at hhave
        cases hhave
      · exact Or.inr fun _ => hkey

/-- What the users of a store rely on. -/
structure Reliable (crypto : KeyCrypto) (s : CCryptoKeyStore) (added : KeyMap) : Prop where
  oneKey : ∃ vMasterKey : CKeyingMaterial,
    (∀ (address : CKeyID) (crypted : CPubKey × List Byte),
      s.mapCryptedKeys[address]? = some crypted →
        ∃ key, added[address]? = some key ∧ EncryptedUnder crypto vMasterKey key crypted) ∧
    (s.vMasterKey = [] ∨ ((∃ address, s.haveKey address = true) → s.vMasterKey = vMasterKey))
  moved : s.fUseCrypto = true → s.mapKeys.isEmpty = true
  stored : ∀ address, s.haveKey address = added.contains address
  opened : ∀ (vMasterKeyIn : CKeyingMaterial) (s' : CCryptoKeyStore),
    s.unlock crypto vMasterKeyIn = some (true, s') →
      ∀ (address : CKeyID) (key keyOut : CKey), added[address]? = some key →
        s'.getKey crypto address keyOut = some key
  closed : s.isLocked = true → ∀ address keyOut, s.getKey crypto address keyOut = none

theorem reach_reliable (hciphers : Ciphers crypto) {s : CCryptoKeyStore} {added : KeyMap}
    (hreach : Reach crypto s added) : Reliable crypto s added := by
  have h := reach_consistent hciphers hreach
  refine ⟨one_master_key h, h.moved, haveKey_eq h, ?_, fun hlocked _ _ => getKey_locked hlocked⟩
  intro vMasterKeyIn s' hunlock address key keyOut hadded
  obtain ⟨t, ht, hmode, rfl, hkey⟩ := unlock_key hciphers h hunlock
  obtain ⟨vMasterKey, hrel, _⟩ := ht.crypted hmode
  have hat := hrel address
  rw [hadded] at hat
  cases hlook : t.mapCryptedKeys[address]? with
  | none =>
    rw [hlook] at hat
    cases hat
  | some crypted =>
    rw [hlook] at hat
    cases hat with
    | some hunder =>
      obtain hnone | rfl := hkey vMasterKey hrel
      · rw [hnone address] at hadded
        cases hadded
      · exact getKey_unlocked hciphers hmode hlook hunder

/-- The store after a call. -/
def Call.after (crypto : KeyCrypto) (s : CCryptoKeyStore) (call : Call) : CCryptoKeyStore :=
  ((call.run crypto s).map Prod.snd).getD s

theorem Reach.next {s : CCryptoKeyStore} {added : KeyMap} (h : Reach crypto s added) (call : Call)
    (hpair : call.Paired crypto) (hok : (call.run crypto s).map Prod.fst = some true) :
    Reach crypto (call.after crypto s) (call.record crypto added) := by
  refine Reach.step call h hpair ?_
  obtain ⟨⟨ok, s'⟩, hrun, rfl⟩ := Option.map_eq_some_iff.mp hok
  simp [Call.after, hrun]

theorem demo_encryptSecret {vMasterKey vchSecret : CKeyingMaterial} {nIV : Uint256}
    {vchCryptedSecret : List Byte}
    (h : encryptSecret demoCrypto vMasterKey vchSecret nIV = some vchCryptedSecret) :
    vMasterKey.length = 32 ∧ vchCryptedSecret = vMasterKey ++ vchSecret := by
  unfold encryptSecret at h
  by_cases hlength : vMasterKey.length ≠ WALLET_CRYPTO_KEY_SIZE
  · rw [if_pos hlength] at h
    cases h
  · rw [if_neg hlength] at h
    refine ⟨not_not.mp hlength, ?_⟩
    simp only [demoCrypto] at h
    split at h
    · cases h
    · exact (Option.some.inj h).symm

theorem demo_ciphers : Ciphers demoCrypto := by
  refine ⟨?_, ?_, ?_⟩
  · intro vMasterKey vchSecret nIV vchCryptedSecret h
    obtain ⟨hlength, rfl⟩ := demo_encryptSecret h
    simp [decryptSecret, WALLET_CRYPTO_KEY_SIZE, demoCrypto, hlength]
  · intro vMasterKey vMasterKey' key key' vchPubKey vchCryptedSecret vchSecret _ h h' _
    obtain ⟨hlength, rfl⟩ := demo_encryptSecret h
    unfold decryptSecret at h'
    by_cases hlength' : vMasterKey'.length ≠ WALLET_CRYPTO_KEY_SIZE
    · rw [if_pos hlength'] at h'
      cases h'
    · rw [if_neg hlength'] at h'
      simp only [demoCrypto, ← hlength, List.take_left] at h'
      split at h'
      · rename_i heq
        exact heq.symm
      · cases h'
  · intro key vchPubKey h
    have hvalid := valid_of_getPubKey h
    have hlength := (key.checked hvalid).1
    rw [getPubKey_of_valid hvalid] at h
    cases h
    cases hform : key.fCompressed with
    | true => simp [demoCrypto, CPubKey.set, CPubKey.isCompressed, isValidPubKey, getLen, hlength]
    | false => simp [demoCrypto, CPubKey.set, CPubKey.isCompressed, isValidPubKey, getLen, hlength]

def demoAdd (b : Byte) : Call :=
  .addKeyPubKey (demoKey b) (demoCrypto.ecPubKey (demoKey b).vch true)

/-- One key before the store is encrypted, and one while it is unlocked. -/
def demoCalls : List Call :=
  [demoAdd 1, .encryptKeys demoMasterKey, .unlock demoMasterKey, demoAdd 3, .lock]

def demoLocked : CCryptoKeyStore :=
  demoCalls.foldl (Call.after demoCrypto) {}

def demoAdded : KeyMap :=
  demoCalls.foldl (Call.record demoCrypto) ∅

theorem demo_reliable : demoLocked.isLocked = true ∧ demoAdded.size = 2 ∧
    Reliable demoCrypto demoLocked demoAdded := by
  refine ⟨by decide, by decide, reach_reliable demo_ciphers ?_⟩
  exact ((((Reach.empty.next (demoAdd 1) rfl rfl).next
    (.encryptKeys demoMasterKey) trivial (by decide)).next
    (.unlock demoMasterKey) trivial (by decide)).next
    (demoAdd 3) rfl (by decide)).next .lock trivial (by decide)

end Runs

end UmbrellaLtc.KeyStore
