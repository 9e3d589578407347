import UmbrellaLtc.KeyStore

/-!
The cache of verified signatures in script.cpp. It is a set of triples in the order of the
program. The hashes that GetRandHash draws are an argument, and so is -maxsigcachesize.
-/

namespace UmbrellaLtc.SigCache

open Codec Transaction Script SignatureHash EvalScript KeyStore

section Cache

/-- sigdata_type. -/
structure SigData where
  hash : Uint256
  vchSig : Valtype
  pubKey : CPubKey

/-- What operator< of a key reads: the header and the bytes behind it. The header of an invalid
key is 0xFF. -/
def keyData (pubKey : CPubKey) : List Byte := if pubKey.vch.isEmpty then [0xFF] else pubKey.vch

theorem keyData_injective {a b : CPubKey} (h : keyData a = keyData b) : a = b := by
  have hheader : ∀ k : CPubKey, k.vch ≠ [0xFF] := by
    intro k hk
    obtain hnil | hvalid := k.header
    · simp [hk] at hnil
    · rw [hk] at hvalid
      cases hvalid
  have hvch : a.vch = b.vch := by
    unfold keyData at h
    split_ifs at h with ha hb hb
    · rw [List.isEmpty_iff.mp ha, List.isEmpty_iff.mp hb]
    · exact absurd h.symm (hheader b)
    · exact absurd h (hheader a)
    · exact h
  cases a
  cases b
  cases hvch
  rfl

/-- operator< of the tuples. -/
def SigData.cmp : SigData → SigData → Ordering :=
  compareLex (compareOn SigData.hash)
    (compareLex (compareOn SigData.vchSig) (compareOn fun d => keyData d.pubKey))

instance : Std.TransCmp SigData.cmp :=
  inferInstanceAs (Std.TransCmp (compareLex _ (compareLex _ _)))

instance : Std.LawfulEqCmp SigData.cmp where
  eq_of_compare {a b} h := by
    simp only [SigData.cmp, compareLex_eq_eq, compareOn, Std.compare_eq_iff_eq] at h
    obtain ⟨hhash, hsig, hkey⟩ := h
    cases a
    cases b
    cases hhash
    cases hsig
    cases keyData_injective hkey
    rfl

abbrev CSignatureCache := Std.TreeSet SigData SigData.cmp

namespace CSignatureCache

variable (setValid : CSignatureCache)

def get (hash : Uint256) (vchSig : Valtype) (pubKey : CPubKey) : Bool :=
  setValid.contains ⟨hash, vchSig, pubKey⟩

/-- The entry from which lower_bound goes on, or the first one. -/
def randomEntry (randomHash : Uint256) : Option SigData :=
  (setValid.toList.find? fun d => (SigData.cmp d ⟨randomHash, [], CPubKey.invalid⟩).isGE).or
    setValid.toList.head?

def evict (randomHash : Uint256) : CSignatureCache :=
  match setValid.randomEntry randomHash with
  | none => setValid
  | some d => setValid.erase d

/-- The loop of Set; every round takes an entry away. -/
def evictLoop (nMaxCacheSize : ℤ) (randomHash : ℕ → Uint256) :
    ℕ → CSignatureCache → CSignatureCache
  | 0, setValid => setValid
  | fuel + 1, setValid =>
      if nMaxCacheSize < setValid.size then
        evictLoop nMaxCacheSize randomHash fuel (setValid.evict (randomHash fuel))
      else setValid

def set (nMaxCacheSize : ℤ) (randomHash : ℕ → Uint256) (hash : Uint256) (vchSig : Valtype)
    (pubKey : CPubKey) : CSignatureCache :=
  if nMaxCacheSize ≤ 0 then setValid
  else (evictLoop nMaxCacheSize randomHash setValid.size setValid).insert ⟨hash, vchSig, pubKey⟩

end CSignatureCache

theorem mem_of_mem_evict {setValid : CSignatureCache} {randomHash : Uint256} {d : SigData}
    (h : d ∈ setValid.evict randomHash) : d ∈ setValid := by
  unfold CSignatureCache.evict at h
  split at h
  · exact h
  · exact (Std.TreeSet.mem_erase.mp h).2

theorem mem_of_mem_evictLoop {nMaxCacheSize : ℤ} {randomHash : ℕ → Uint256} {d : SigData} :
    ∀ {fuel : ℕ} {setValid : CSignatureCache},
      d ∈ setValid.evictLoop nMaxCacheSize randomHash fuel → d ∈ setValid
  | 0, _, h => h
  | fuel + 1, setValid, h => by
    rw [CSignatureCache.evictLoop] at h
    split at h
    · exact mem_of_mem_evict (mem_of_mem_evictLoop h)
    · exact h

end Cache

section Checking

/-- CheckSig with its cache, and the cache afterwards. -/
def checkSigCached (ctx : Context) (setValid : CSignatureCache) (nMaxCacheSize : ℤ)
    (randomHash : ℕ → Uint256) (vchSig vchPubKey : Valtype) (scriptCode : CScript) :
    Bool × CSignatureCache :=
  let pubkey := CPubKey.set vchPubKey
  if !pubkey.isValid then (false, setValid)
  else match vchSig.getLast? with
    | none => (false, setValid)
    | some back =>
        let last : BitVec 32 := back.setWidth 32
        if ctx.nHashType ≠ 0 ∧ ctx.nHashType ≠ last then (false, setValid)
        else
          let sighash := signatureHash ctx.crypto.hash256 scriptCode ctx.txTo ctx.nIn last
          if setValid.get sighash vchSig.dropLast pubkey then (true, setValid)
          else if !ctx.crypto.verify pubkey.vch sighash vchSig.dropLast then (false, setValid)
          else if ctx.flags &&& SCRIPT_VERIFY_NOCACHE = 0 then
            (true, setValid.set nMaxCacheSize randomHash sighash vchSig.dropLast pubkey)
          else (true, setValid)

/-- The arguments of a call, with what is drawn and set for it. -/
structure Query where
  vchSig : Valtype
  vchPubKey : Valtype
  scriptCode : CScript
  txTo : CTransaction
  nIn : ℕ
  nHashType : BitVec 32
  flags : BitVec 32
  nMaxCacheSize : ℤ
  randomHash : ℕ → Uint256

def Query.context (crypto : Crypto) (q : Query) : Context :=
  ⟨crypto, q.txTo, q.nIn, q.flags, q.nHashType⟩

def Query.checkSigCached (crypto : Crypto) (setValid : CSignatureCache) (q : Query) :
    Bool × CSignatureCache :=
  SigCache.checkSigCached (q.context crypto) setValid q.nMaxCacheSize q.randomHash q.vchSig
    q.vchPubKey q.scriptCode

/-- The cache that a sequence of calls leaves. -/
def cacheAfter (crypto : Crypto) (calls : List Query) : CSignatureCache :=
  calls.foldl (fun setValid q => (q.checkSigCached crypto setValid).2) ∅

/-- The invariant of the cache. -/
def Verified (crypto : Crypto) (setValid : CSignatureCache) : Prop :=
  ∀ d ∈ setValid, crypto.verify d.pubKey.vch d.hash d.vchSig = true

theorem verified_set {crypto : Crypto} {setValid : CSignatureCache} {nMaxCacheSize : ℤ}
    {randomHash : ℕ → Uint256} {hash : Uint256} {vchSig : Valtype} {pubKey : CPubKey}
    (h : Verified crypto setValid) (hverify : crypto.verify pubKey.vch hash vchSig = true) :
    Verified crypto (setValid.set nMaxCacheSize randomHash hash vchSig pubKey) := by
  intro d hd
  unfold CSignatureCache.set at hd
  split at hd
  · exact h d hd
  · obtain heq | hmem := Std.TreeSet.mem_insert.mp hd
    · rw [← Std.LawfulEqCmp.eq_of_compare heq]
      exact hverify
    · exact h d (mem_of_mem_evictLoop hmem)

theorem verified_get {crypto : Crypto} {setValid : CSignatureCache} {hash : Uint256}
    {vchSig : Valtype} {pubKey : CPubKey} (h : Verified crypto setValid)
    (hget : setValid.get hash vchSig pubKey = true) :
    crypto.verify pubKey.vch hash vchSig = true :=
  h ⟨hash, vchSig, pubKey⟩ (Std.TreeSet.mem_iff_contains.mpr hget)

theorem isValid_set (vchPubKey : Valtype) :
    (CPubKey.set vchPubKey).isValid = isValidPubKey vchPubKey := by
  unfold CPubKey.set
  split_ifs with h
  · rw [h]
    cases vchPubKey with
    | nil => cases h
    | cons => simp [CPubKey.isValid]
  · rw [Bool.not_eq_true] at h
    rw [h]
    rfl

theorem vch_set {vchPubKey : Valtype} (h : isValidPubKey vchPubKey = true) :
    (CPubKey.set vchPubKey).vch = vchPubKey := by
  rw [CPubKey.set, dif_pos h]

/-- One call keeps the invariant and answers as the signature itself would. -/
theorem checkSigCached_spec {ctx : Context} {setValid : CSignatureCache}
    (h : Verified ctx.crypto setValid) (nMaxCacheSize : ℤ) (randomHash : ℕ → Uint256)
    (vchSig vchPubKey : Valtype) (scriptCode : CScript) :
    (checkSigCached ctx setValid nMaxCacheSize randomHash vchSig vchPubKey scriptCode).1 =
        checkSig ctx vchSig vchPubKey scriptCode ∧
      Verified ctx.crypto
        (checkSigCached ctx setValid nMaxCacheSize randomHash vchSig vchPubKey scriptCode).2 := by
  simp only [checkSigCached, checkSig, isValid_set]
  cases hvalid : isValidPubKey vchPubKey with
  | false => exact ⟨rfl, h⟩
  | true =>
    simp only [Bool.not_true, Bool.false_eq_true, if_false]
    cases hback : vchSig.getLast? with
    | none => exact ⟨rfl, h⟩
    | some back =>
      simp only
      by_cases htype : ctx.nHashType ≠ 0 ∧ ctx.nHashType ≠ back.setWidth 32
      · rw [if_pos htype, if_pos htype]
        exact ⟨rfl, h⟩
      · rw [if_neg htype, if_neg htype, vch_set hvalid]
        generalize signatureHash _ _ _ _ _ = sighash
        by_cases hget : setValid.get sighash vchSig.dropLast (CPubKey.set vchPubKey) = true
        · have hverify := verified_get h hget
          rw [vch_set hvalid] at hverify
          rw [if_pos hget]
          exact ⟨hverify.symm, h⟩
        · rw [if_neg hget]
          cases hverify : ctx.crypto.verify vchPubKey sighash vchSig.dropLast with
          | false => exact ⟨rfl, h⟩
          | true =>
            simp only [Bool.not_true, Bool.false_eq_true, if_false]
            by_cases hflag : ctx.flags &&& SCRIPT_VERIFY_NOCACHE = 0
            · rw [if_pos hflag]
              refine ⟨rfl, verified_set h ?_⟩
              rw [vch_set hvalid]
              exact hverify
            · rw [if_neg hflag]
              exact ⟨rfl, h⟩

theorem query_spec {crypto : Crypto} {setValid : CSignatureCache}
    (h : Verified crypto setValid) (q : Query) :
    (q.checkSigCached crypto setValid).1 =
        checkSig (q.context crypto) q.vchSig q.vchPubKey q.scriptCode ∧
      Verified crypto (q.checkSigCached crypto setValid).2 :=
  @checkSigCached_spec (q.context crypto) setValid h _ _ _ _ _

theorem cacheAfter_verified (crypto : Crypto) (calls : List Query) :
    Verified crypto (cacheAfter crypto calls) := by
  have aux : ∀ (calls : List Query) (setValid : CSignatureCache), Verified crypto setValid →
      Verified crypto (calls.foldl (fun setValid q => (q.checkSigCached crypto setValid).2)
        setValid) := by
    intro calls
    induction calls with
    | nil => exact fun _ h => h
    | cons q calls ih => exact fun setValid h => ih _ (query_spec h q).2
  refine aux calls ∅ fun d hd => ?_
  simp at hd

/-- Whatever was checked before, the answer is that of the signature itself. -/
theorem checkSigCached_transparent (crypto : Crypto) (calls : List Query) (q : Query) :
    (q.checkSigCached crypto (cacheAfter crypto calls)).1 =
      checkSig (q.context crypto) q.vchSig q.vchPubKey q.scriptCode :=
  (query_spec (cacheAfter_verified crypto calls) q).1

end Checking

end UmbrellaLtc.SigCache
