import UmbrellaLtc.Coins
import UmbrellaLtc.Prog
import UmbrellaLtc.VarInt
import Mathlib.Data.List.AList

/-!
The coins views of main.cpp and txdb.cpp. Every view is read through `flat`: one
map and one best block. A cache over a base fills itself from the base when it
is read, which changes neither, so that code written against the methods of a
cache runs on a flat view as it does on any stack.
-/

namespace UmbrellaLtc.CoinsView

open Codec Transaction Coins VarInt

/-- What validation reads of a CBlockIndex that a view points at. -/
structure BlockPtr where
  hash : Uint256
  nHeight : ℕ
deriving DecidableEq

abbrev CoinsMap := AList fun _ : Uint256 => CCoins

/-- The methods of CCoinsView that a cache calls on its base. The first argument
of BatchWrite says whether the disk takes the batch. -/
class CoinsBase (β : Type) where
  getCoins : Uint256 → β → Option CCoins × β
  getBestBlock : β → Option BlockPtr × β
  batchWrite : Bool → CoinsMap → Option BlockPtr → β → Bool × β

/-- The methods of CCoinsViewCache that validation calls. FetchCoins gives `none`
for the end iterator. SetBestBlock is never called with NULL. -/
class CoinsCache (κ : Type) where
  fetchCoins : Uint256 → κ → Option CCoins × κ
  setCoins : Uint256 → CCoins → κ → κ
  getBestBlock : κ → Option BlockPtr × κ
  setBestBlock : BlockPtr → κ → κ

/-- CCoinsViewDB. The best block is stored by its hash and found in mapBlockIndex. -/
structure CoinsDb where
  coins : CoinsMap
  best : Option BlockPtr

namespace CoinsDb

/-- The version of a coin record after CCoins::Serialize and Unserialize, which pass
the `int` through VARINT. -/
def storedVersion (nVersion : BitVec 32) : BitVec 32 :=
  ((readVarInt 0 (writeVarInt 32 nVersion.toInt)).map fun p => BitVec.ofInt 32 p.1).getD 0

/-- What Unserialize gives of what Serialize wrote: null outputs at the end are
dropped, and the version is as VARINT keeps it. The height is not negative, and
amounts and scripts come back as they are. -/
def record (c : CCoins) : CCoins := { c.cleanup with nVersion := storedVersion c.nVersion }

/-- BatchWriteCoins: a pruned entry is erased. -/
def writeCoins (coins : CoinsMap) (txid : Uint256) (c : CCoins) : CoinsMap :=
  if c.isPruned then coins.erase txid else coins.insert txid (record c)

def batchWrite (fWrite : Bool) (mapCoins : CoinsMap) (pindex : Option BlockPtr) (db : CoinsDb) :
    Bool × CoinsDb :=
  if fWrite then
    (true,
      { coins := mapCoins.entries.foldl (fun m e => writeCoins m e.1 e.2) db.coins
        best := pindex.orElse fun _ => db.best })
  else (false, db)

instance : CoinsBase CoinsDb where
  getCoins txid db := (db.coins.lookup txid, db)
  getBestBlock db := (db.best, db)
  batchWrite := batchWrite

end CoinsDb

/-- CCoinsViewCache. -/
structure Cache (β : Type) where
  base : β
  cacheCoins : CoinsMap
  pindexTip : Option BlockPtr

namespace Cache

variable {β : Type}

/-- `CCoinsViewCache(base, true)`. -/
def new (base : β) : Cache β := ⟨base, ∅, none⟩

variable [CoinsBase β]

/-- GetCoins and FetchCoins: look in the cache, then in the base, and keep what was
found there. -/
def fetchCoins (txid : Uint256) (k : Cache β) : Option CCoins × Cache β :=
  match k.cacheCoins.lookup txid with
  | some c => (some c, k)
  | none =>
      match CoinsBase.getCoins txid k.base with
      | (none, base) => (none, { k with base := base })
      | (some c, base) =>
          (some c, { k with base := base, cacheCoins := k.cacheCoins.insert txid c })

def setCoins (txid : Uint256) (c : CCoins) (k : Cache β) : Cache β :=
  { k with cacheCoins := k.cacheCoins.insert txid c }

def getBestBlock (k : Cache β) : Option BlockPtr × Cache β :=
  match k.pindexTip with
  | some p => (some p, k)
  | none =>
      let (p, base) := CoinsBase.getBestBlock k.base
      (p, { k with base := base, pindexTip := p })

def setBestBlock (pindex : BlockPtr) (k : Cache β) : Cache β := { k with pindexTip := some pindex }

def batchWrite (mapCoins : CoinsMap) (pindex : Option BlockPtr) (k : Cache β) : Bool × Cache β :=
  (true,
    { k with
      cacheCoins := mapCoins.entries.foldl (fun m e => m.insert e.1 e.2) k.cacheCoins
      pindexTip := pindex })

/-- CCoinsViewCache::Flush. -/
def flush (fWrite : Bool) (k : Cache β) : Bool × Cache β :=
  match CoinsBase.batchWrite fWrite k.cacheCoins k.pindexTip k.base with
  | (true, base) => (true, { k with base := base, cacheCoins := ∅ })
  | (false, base) => (false, { k with base := base })

def getCacheSize (k : Cache β) : ℕ := k.cacheCoins.entries.length

instance : CoinsBase (Cache β) where
  getCoins := fetchCoins
  getBestBlock := getBestBlock
  batchWrite _ := batchWrite

instance : CoinsCache (Cache β) where
  fetchCoins := fetchCoins
  setCoins := setCoins
  getBestBlock := getBestBlock
  setBestBlock := setBestBlock

end Cache

/-- What a view stands for: a map and a best block. -/
@[ext] structure Flat where
  coins : Uint256 → Option CCoins
  best : Option BlockPtr

instance : CoinsCache Flat where
  fetchCoins txid f := (f.coins txid, f)
  setCoins txid c f := { f with coins := Function.update f.coins txid (some c) }
  getBestBlock f := (f.best, f)
  setBestBlock pindex f := { f with best := some pindex }

/-- A base that reading leaves as it is. -/
class LawfulBase (β : Type) extends CoinsBase β where
  flat : β → Flat
  getCoins_fst : ∀ txid b, (getCoins txid b).1 = (flat b).coins txid
  getCoins_flat : ∀ txid b, flat (getCoins txid b).2 = flat b
  getBestBlock_fst : ∀ b, (getBestBlock b).1 = (flat b).best
  getBestBlock_flat : ∀ b, flat (getBestBlock b).2 = flat b

instance : LawfulBase CoinsDb where
  flat db := ⟨fun txid => db.coins.lookup txid, db.best⟩
  getCoins_fst _ _ := rfl
  getCoins_flat _ _ := rfl
  getBestBlock_fst _ := rfl
  getBestBlock_flat _ := rfl

namespace Cache

variable {β : Type} [LawfulBase β]

def flat (k : Cache β) : Flat where
  coins txid := (k.cacheCoins.lookup txid).orElse fun _ => (LawfulBase.flat k.base).coins txid
  best := k.pindexTip.orElse fun _ => (LawfulBase.flat k.base).best

/-- FetchCoins reads the flat view, and leaves it and that of the base. -/
theorem fetchCoins_spec (txid : Uint256) (k : Cache β) :
    (fetchCoins txid k).1 = (flat k).coins txid ∧ flat (fetchCoins txid k).2 = flat k ∧
      LawfulBase.flat (fetchCoins txid k).2.base = LawfulBase.flat k.base := by
  have hfst := LawfulBase.getCoins_fst txid k.base
  have hflat := LawfulBase.getCoins_flat txid k.base
  unfold fetchCoins
  cases hcache : k.cacheCoins.lookup txid with
  | some c => simp [flat, hcache]
  | none =>
    rcases hbase : CoinsBase.getCoins txid k.base with ⟨_ | c, base⟩
    · rw [hbase] at hfst hflat
      dsimp only at hfst hflat ⊢
      refine ⟨?_, ?_, hflat⟩
      · simp [flat, hcache, ← hfst]
      · simp [flat, hflat]
    · rw [hbase] at hfst hflat
      dsimp only at hfst hflat ⊢
      refine ⟨?_, ?_, hflat⟩
      · simp [flat, hcache, ← hfst]
      · simp only [flat, hflat, Flat.mk.injEq, and_true]
        funext t
        by_cases ht : t = txid
        · subst ht
          rw [AList.lookup_insert, hcache, ← hfst]
          rfl
        · rw [AList.lookup_insert_ne ht]

theorem getBestBlock_spec (k : Cache β) :
    (getBestBlock k).1 = (flat k).best ∧ flat (getBestBlock k).2 = flat k ∧
      LawfulBase.flat (getBestBlock k).2.base = LawfulBase.flat k.base := by
  have hfst := LawfulBase.getBestBlock_fst k.base
  have hflat := LawfulBase.getBestBlock_flat k.base
  unfold getBestBlock
  cases htip : k.pindexTip with
  | some p => simp [flat, htip]
  | none =>
    dsimp only
    refine ⟨?_, ?_, hflat⟩
    · simp [flat, htip, hfst]
    · simp only [flat, hflat, htip, hfst]
      cases (LawfulBase.flat k.base).best <;> rfl

theorem flat_setCoins (txid : Uint256) (c : CCoins) (k : Cache β) :
    flat (setCoins txid c k) = CoinsCache.setCoins txid c (flat k) := by
  simp only [flat, setCoins, CoinsCache.setCoins, Flat.mk.injEq, and_true]
  funext t
  by_cases ht : t = txid
  · subst ht
    rw [AList.lookup_insert, Function.update_self]
    rfl
  · rw [AList.lookup_insert_ne ht, Function.update_of_ne ht]

instance : LawfulBase (Cache β) where
  flat := flat
  getCoins_fst txid k := (fetchCoins_spec txid k).1
  getCoins_flat txid k := (fetchCoins_spec txid k).2.1
  getBestBlock_fst k := (getBestBlock_spec k).1
  getBestBlock_flat k := (getBestBlock_spec k).2.1

end Cache

/-- A relation between two kinds of cache that all methods respect. -/
structure CacheSim {κ κ' : Type} [CoinsCache κ] [CoinsCache κ'] (R : κ → κ' → Prop) : Prop where
  fetchCoins : ∀ txid k k', R k k' →
    (CoinsCache.fetchCoins txid k).1 = (CoinsCache.fetchCoins txid k').1 ∧
      R (CoinsCache.fetchCoins txid k).2 (CoinsCache.fetchCoins txid k').2
  setCoins : ∀ txid c k k', R k k' →
    R (CoinsCache.setCoins txid c k) (CoinsCache.setCoins txid c k')
  getBestBlock : ∀ k k', R k k' →
    (CoinsCache.getBestBlock k).1 = (CoinsCache.getBestBlock k').1 ∧
      R (CoinsCache.getBestBlock k).2 (CoinsCache.getBestBlock k').2
  setBestBlock : ∀ pindex k k', R k k' →
    R (CoinsCache.setBestBlock pindex k) (CoinsCache.setBestBlock pindex k')

/-- A cache and its flat view, over a base that keeps standing for `b`. -/
def Stands {β : Type} [LawfulBase β] (b : Flat) (k : Cache β) (f : Flat) : Prop :=
  k.flat = f ∧ LawfulBase.flat k.base = b

theorem cacheSim_stands {β : Type} [LawfulBase β] (b : Flat) :
    CacheSim (fun (k : Cache β) (f : Flat) => Stands b k f) where
  fetchCoins txid k f h := by
    obtain ⟨rfl, hb⟩ := h
    obtain ⟨hfst, hflat, hbase⟩ := Cache.fetchCoins_spec txid k
    exact ⟨hfst, hflat, hbase.trans hb⟩
  setCoins txid c k f h := by
    obtain ⟨rfl, hb⟩ := h
    exact ⟨Cache.flat_setCoins txid c k, hb⟩
  getBestBlock k f h := by
    obtain ⟨rfl, hb⟩ := h
    obtain ⟨hfst, hflat, hbase⟩ := Cache.getBestBlock_spec k
    exact ⟨hfst, hflat, hbase.trans hb⟩
  setBestBlock pindex k f h := by
    obtain ⟨rfl, hb⟩ := h
    exact ⟨rfl, hb⟩

end UmbrellaLtc.CoinsView
