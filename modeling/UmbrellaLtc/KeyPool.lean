import UmbrellaLtc.KeyStore
import UmbrellaLtc.Runs
import Mathlib.Data.Finset.Max
import Mathlib.Data.Finset.Sort
import Mathlib.Data.List.AList

/-!
The key pool of wallet.cpp. A reserved index leaves setKeyPool and keeps its record in the
database until the key is kept. New indexes are counted from setKeyPool alone, so that the index
of a reservation may be given again.
-/

namespace UmbrellaLtc.KeyPool

open Codec EvalScript KeyStore Runs

section Pool

structure CKeyPool where
  nTime : ℤ
  vchPubKey : CPubKey

/-- The members of CWallet that the key pool uses, the `pool` records of the database, and how
many keys have been generated. -/
structure CWallet where
  setKeyPool : Finset ℤ
  pool : AList fun _ : ℤ => CKeyPool
  keys : List CPubKey
  nGenerated : ℕ
  vchDefaultKey : CPubKey
  fFileBacked : Bool

/-- The surroundings of a call: -keypool, whether the wallet is locked, the time, and the
indexes whose record can be written. -/
structure Env where
  nKeypool : ℤ
  fLocked : Bool
  nTime : ℤ
  written : ℤ → Bool

/-- How ReserveKeyFromKeyPool ends: with an exception before there is an index, without an
index, with an exception or a failed assertion behind it, or with a key. -/
inductive Reserved
  | threw
  | none
  | failed (nIndex : ℤ)
  | key (nIndex : ℤ) (keypool : CKeyPool)

namespace CWallet

variable (gen : ℕ → CPubKey) (crypto : Crypto) (env : Env) (w : CWallet)

def generateNewKey : CPubKey × CWallet :=
  (gen w.nGenerated,
    { w with keys := gen w.nGenerated :: w.keys, nGenerated := w.nGenerated + 1 })

def haveKey (address : CKeyID) : Bool := w.keys.any fun key => key.getID crypto == address

/-- `*(--setKeyPool.end()) + 1`, or 1 for the empty set. -/
def nextIndex : ℤ := w.setKeyPool.max.unbotD 0 + 1

/-- The record and the index of a new key. -/
def addKey (nIndex : ℤ) (keypool : CKeyPool) : CWallet :=
  { w with
    pool := w.pool.insert nIndex keypool
    setKeyPool := insert nIndex w.setKeyPool }

/-- The loop of TopUpKeyPool; false where a record cannot be written. -/
def topUpLoop : ℕ → CWallet → Bool × CWallet
  | 0, w => (true, w)
  | rounds + 1, w =>
      let nEnd := w.nextIndex
      let (key, w) := w.generateNewKey gen
      if env.written nEnd then topUpLoop rounds (w.addKey nEnd ⟨env.nTime, key⟩)
      else (false, w)

/-- How many rounds there are; the sizes are unsigned. -/
def missing : ℕ := ((max env.nKeypool 0).toNat % 2 ^ 32 + 1) % 2 ^ 32 - w.setKeyPool.card

/-- None for an exception. -/
def topUpKeyPool : Option Bool × CWallet :=
  if env.fLocked then (some false, w)
  else
    match topUpLoop gen env (w.missing env) w with
    | (true, w) => (some true, w)
    | (false, w) => (none, w)

/-- One round of NewKeyPool, which does not look at what WritePool returns. -/
def newKey (w : CWallet) (i : ℕ) : CWallet :=
  let nIndex : ℤ := i + 1
  let (key, w) := w.generateNewKey gen
  if env.written nIndex then w.addKey nIndex ⟨env.nTime, key⟩
  else { w with setKeyPool := insert nIndex w.setKeyPool }

/-- The records of the pool are erased, and the pool is empty. -/
def clear : CWallet :=
  { w with
    pool := (w.setKeyPool.sort (· ≤ ·)).foldl (fun pool nIndex => pool.erase nIndex) w.pool
    setKeyPool := ∅ }

def newKeyPool : Bool × CWallet :=
  if env.fLocked then (false, w.clear)
  else (true, (List.range (max env.nKeypool 0).toNat).foldl (newKey gen env) w.clear)

/-- ReserveKeyFromKeyPool from the oldest key on. -/
def takeOldest : Reserved × CWallet :=
  if h : w.setKeyPool.Nonempty then
    let nIndex := w.setKeyPool.min' h
    let w := { w with setKeyPool := w.setKeyPool.erase nIndex }
    match w.pool.lookup nIndex with
    | none => (.failed nIndex, w)
    | some keypool =>
        if w.haveKey crypto (keypool.vchPubKey.getID crypto) && keypool.vchPubKey.isValid then
          (.key nIndex keypool, w)
        else (.failed nIndex, w)
  else (.none, w)

def reserveKeyFromKeyPool : Reserved × CWallet :=
  match w.topUpKeyPool gen env with
  | (none, w) => (.threw, w)
  | (some _, w) => w.takeOldest crypto

/-- None where setKeyPool is empty and has no last element; no index for an exception. -/
def addReserveKey (keypool : CKeyPool) : Option (Option ℤ × CWallet) :=
  if w.setKeyPool = ∅ then none
  else if env.written w.nextIndex then some (some w.nextIndex, w.addKey w.nextIndex keypool)
  else some (none, w)

def keepKey (nIndex : ℤ) : CWallet :=
  if w.fFileBacked then { w with pool := w.pool.erase nIndex } else w

def returnKey (nIndex : ℤ) : CWallet := { w with setKeyPool := insert nIndex w.setKeyPool }

/-- GetKeyFromPool; none where it returns false or an exception passes through it. -/
def getKeyFromPool (fAllowReuse : Bool) : Option CPubKey × CWallet :=
  match w.reserveKeyFromKeyPool gen crypto env with
  | (.threw, w) => (none, w)
  | (.failed _, w) => (none, w)
  | (.none, w) =>
      if fAllowReuse && w.vchDefaultKey.isValid then (some w.vchDefaultKey, w)
      else if env.fLocked then (none, w)
      else (some (w.generateNewKey gen).1, (w.generateNewKey gen).2)
  | (.key nIndex keypool, w) => (some keypool.vchPubKey, w.keepKey nIndex)

end CWallet

end Pool

section Runs

/-- A wallet with the reservations that are outstanding, and the keys of those that were kept.
A reservation has no key if the call failed behind its index. -/
structure PoolState where
  wallet : CWallet
  outstanding : List (ℤ × Option CPubKey)
  kept : List CPubKey

inductive PoolCall
  | topUpKeyPool (env : Env)
  | newKeyPool (env : Env)
  | reserveKeyFromKeyPool (env : Env)
  | keepKey (nIndex : ℤ) (key : Option CPubKey)
  | returnKey (nIndex : ℤ) (key : Option CPubKey)
  | addReserveKey (env : Env) (keypool : CKeyPool)
  | getKeyFromPool (env : Env) (fAllowReuse : Bool)

variable (gen : ℕ → CPubKey) (crypto : Crypto)

def PoolCall.perform (s : PoolState) : PoolCall → PoolState
  | topUpKeyPool env => { s with wallet := (s.wallet.topUpKeyPool gen env).2 }
  | newKeyPool env => { s with wallet := (s.wallet.newKeyPool gen env).2 }
  | reserveKeyFromKeyPool env =>
      let (reserved, wallet) := s.wallet.reserveKeyFromKeyPool gen crypto env
      match reserved with
      | .threw => { s with wallet }
      | .none => { s with wallet }
      | .failed nIndex => { s with wallet, outstanding := (nIndex, none) :: s.outstanding }
      | .key nIndex keypool =>
          { s with wallet, outstanding := (nIndex, some keypool.vchPubKey) :: s.outstanding }
  | keepKey nIndex key =>
      { wallet := s.wallet.keepKey nIndex
        outstanding := s.outstanding.erase (nIndex, key)
        kept := key.toList ++ s.kept }
  | returnKey nIndex key =>
      { s with
        wallet := s.wallet.returnKey nIndex
        outstanding := s.outstanding.erase (nIndex, key) }
  | addReserveKey env keypool =>
      { s with wallet := (s.wallet.addReserveKey env keypool).elim s.wallet Prod.snd }
  | getKeyFromPool env fAllowReuse =>
      let wallet := (s.wallet.getKeyFromPool gen crypto env fAllowReuse).2
      match (s.wallet.reserveKeyFromKeyPool gen crypto env).1 with
      | .key _ keypool => { s with wallet, kept := keypool.vchPubKey :: s.kept }
      | _ => { s with wallet }

/-- The index is in the pool or belongs to a reservation. -/
def PoolState.Live (s : PoolState) (nIndex : ℤ) : Prop :=
  nIndex ∈ s.wallet.setKeyPool ∨ nIndex ∈ s.outstanding.map Prod.fst

/-- The indexes of the reservations are their own, live indexes have records, and no key was
kept twice. -/
structure PoolKept (s : PoolState) : Prop where
  distinct : (s.outstanding.map Prod.fst).Nodup
  disjoint : ∀ nIndex ∈ s.outstanding.map Prod.fst, nIndex ∉ s.wallet.setKeyPool
  recorded : ∀ nIndex, s.Live nIndex → (s.wallet.pool.lookup nIndex).isSome
  keptOnce : s.kept.Nodup

end Runs

end UmbrellaLtc.KeyPool
