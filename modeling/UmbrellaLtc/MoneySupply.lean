import UmbrellaLtc.ConnectSpec
import UmbrellaLtc.FlatView

/-!
The money supply. Blocks connected one on top of the other, from an empty view,
never bring more into the view than GetBlockValue grants without fees, which
is never more than MAX_MONEY, and so no sum of amounts on the way overflows.
-/

namespace UmbrellaLtc.MoneySupply

open Codec Transaction Header Coins CoinsView CheckBlock ConnectBlock Prog Spending ConnectSpec
open FlatView

/-- A call of ConnectBlock: the block and its index entry, and what is around. -/
structure Connection where
  env : Env
  io : BlockIo
  block : CBlock
  pindex : PIndex
  nStatus : BitVec 32
  undo : Option CBlockUndo
  diskStatus : BitVec 32

def Connection.connect {κ : Type} [CoinsCache κ] (c : Connection) (fJustCheck : Bool) (view : κ) :
    Except Failure (Option CBlockUndo) × BlockCtx κ :=
  (connectBlock c.env c.io c.block c.pindex fJustCheck).run
    ⟨view, c.nStatus, c.undo, c.diskStatus⟩

/-- Blocks connected one after the other, for as long as it goes well. -/
def connectChain {κ : Type} [CoinsCache κ] (view : κ) : List Connection → Except Failure κ
  | [] => .ok view
  | c :: rest =>
      match c.connect false view with
      | (.ok _, s) => connectChain s.view rest
      | (.error e, _) => .error e

/-- The heights follow each other from `1` on. -/
def HeightsFromOne (steps : List Connection) : Prop :=
  steps.map (fun c => c.pindex.ptr.nHeight) = List.range' 1 steps.length

section Chain

variable {β : Type} [LawfulBase β]

theorem connect_flat (c : Connection) (fJustCheck : Bool) (view : Cache β) :
    c.connect fJustCheck view.flat =
      ((c.connect fJustCheck view).1, flatCtx (c.connect fJustCheck view).2) :=
  (connectBlock_flat c.env c.io c.block c.pindex fJustCheck
    ⟨view, c.nStatus, c.undo, c.diskStatus⟩).1

theorem connectChain_flat {view view' : Cache β} {steps : List Connection}
    (h : connectChain view steps = .ok view') :
    connectChain view.flat steps = .ok view'.flat := by
  induction steps generalizing view with
  | nil =>
    obtain rfl := Except.ok.inj h
    rfl
  | cons c rest ih =>
    have hflat := connect_flat c false view
    unfold connectChain at h ⊢
    rcases hconn : c.connect false view with ⟨e | undo, s⟩
    · rw [hconn] at h
      exact absurd h (by simp)
    · rw [hconn] at h hflat
      rw [hflat]
      exact ih h

end Chain

/-- A view that amounts are safe in. -/
structure Solvent (f : Flat) (limit : ℤ) : Prop where
  nonneg : NonnegOutputs f
  bound : supply f ≤ limit

theorem supply_best (f : Flat) (best : Option BlockPtr) :
    supply { f with best := best } = supply f := rfl

/-- One block: nothing overflows, and the supply grows by no more than the subsidy. -/
theorem holds_connect (c : Connection) (fJustCheck : Bool) (f : Flat) {limit : ℤ}
    (hf : Solvent f limit) (hlimit : limit ≤ MAX_MONEY) :
    Holds (connectBlock c.env c.io c.block c.pindex fJustCheck)
      ⟨f, c.nStatus, c.undo, c.diskStatus⟩
      (fun _ s' => Solvent s'.view (limit + subsidy c.pindex.ptr.nHeight)) (· ≠ .overflow) := by
  have hsafe : NonnegOutputs f ∧ supply f ≤ MAX_MONEY := ⟨hf.nonneg, hf.bound.trans hlimit⟩
  have hallowed : ∀ e, Allowed True e → e ≠ .overflow := fun e he => he trivial
  refine (holds_connectBlock c.env c.io c.block c.pindex fJustCheck _ fun _ => hsafe).mono ?_
    hallowed
  rintro undo s' ⟨-, f', hpass, hjust, hconn⟩
  dsimp only at hpass
  have hsub := subsidy_bounds c.pindex.ptr.nHeight
  have hbound := hf.bound
  have hf' : Solvent f' (limit + subsidy c.pindex.ptr.nHeight) := by
    cases hpass with
    | genesis => exact ⟨hf.nonneg, by rw [supply_best]; omega⟩
    | connected hok h =>
      have hbalance := h.balance
      exact ⟨h.nonneg hf.nonneg, by omega⟩
  cases fJustCheck with
  | true =>
    rw [hjust rfl]
    exact hf'
  | false =>
    rw [(hconn rfl).1]
    exact ⟨hf'.nonneg, hf'.bound⟩

/-- The premine and 587999 rewards. -/
theorem sum_subsidy_le (n : ℕ) : ((List.range' 1 n).map subsidy).sum ≤ MAX_MONEY := by
  have hclosed : ∀ n : ℕ, ((List.range' 1 (n + 1)).map subsidy).sum =
      PREMINED_MONEY + BLOCK_REWARD * (min n 587999 : ℕ) := by
    intro n
    induction n with
    | zero => decide
    | succ n ih =>
      rw [List.range'_concat, List.map_append, List.sum_append, ih]
      simp only [List.map_cons, List.map_nil, List.sum_cons, List.sum_nil, add_zero, one_mul]
      unfold subsidy
      split_ifs with hone hlow
      · omega
      · rw [min_eq_left (by omega), min_eq_left (by omega)]
        push_cast
        ring
      · rw [min_eq_right (by omega), min_eq_right (by omega), add_zero]
  cases n with
  | zero => decide
  | succ n =>
    have hmax : PREMINED_MONEY + BLOCK_REWARD * (587999 : ℕ) ≤ MAX_MONEY := by decide
    have hreward : (0 : ℤ) ≤ BLOCK_REWARD := by decide
    rw [hclosed]
    refine le_trans (Int.add_le_add_left (mul_le_mul_of_nonneg_left ?_ hreward) _) hmax
    exact_mod_cast min_le_right n 587999

/-- A chain of blocks on a flat view, with the subsidies of their heights. -/
theorem connectChain_solvent (steps : List Connection) (f f' : Flat) (limit : ℤ)
    (hf : Solvent f limit)
    (hlimit : ∀ k, limit + ((steps.take k).map fun c => subsidy c.pindex.ptr.nHeight).sum ≤
      MAX_MONEY)
    (h : connectChain f steps = .ok f') :
    Solvent f' (limit + (steps.map fun c => subsidy c.pindex.ptr.nHeight).sum) := by
  induction steps generalizing f limit with
  | nil =>
    obtain rfl := Except.ok.inj h
    simpa using hf
  | cons c rest ih =>
    unfold connectChain at h
    have hstep := holds_connect c false f hf (by simpa using hlimit 0)
    rcases hconn : c.connect false f with ⟨e | undo, s⟩
    · rw [hconn] at h
      exact absurd h (by simp)
    · rw [hconn] at h
      have hnext := hstep.of_ok hconn
      rw [List.map_cons, List.sum_cons, ← add_assoc]
      refine ih s.view _ hnext (fun k => ?_) h
      have hk := hlimit (k + 1)
      rwa [List.take_succ_cons, List.map_cons, List.sum_cons, ← add_assoc] at hk

theorem mapM_getBlockValue (heights : List ℕ) :
    heights.mapM (fun h => getBlockValue h 0) = .ok (heights.map subsidy) := by
  have hpre : PREMINED_MONEY = 12000000000000 := by decide
  induction heights with
  | nil => rfl
  | cons h rest ih =>
    have hsub := subsidy_bounds h
    rw [List.mapM_cons, ih, getBlockValue_eq, add_zero, int64_ok _ (by omega)]
    rfl

theorem solvent_empty {f : Flat} (h : ∀ txid, f.coins txid = none) : Solvent f 0 := by
  refine ⟨fun txid c hc => ?_, ?_⟩
  · rw [h txid] at hc
    exact absurd hc (by simp)
  · refine le_of_eq (Finset.sum_eq_zero fun txid _ => ?_)
    rw [h txid]
    rfl

/-- After any chain of connected blocks from height one on, the unspent outputs are
worth no more than GetBlockValue grants for these heights, and no more than
MAX_MONEY; and whatever block comes next, connecting it overflows nowhere. -/
theorem supply_bounded {β : Type} [LawfulBase β] (view view' : Cache β) (steps : List Connection)
    (hempty : ∀ txid, view.flat.coins txid = none) (hheights : HeightsFromOne steps)
    (hchain : connectChain view steps = .ok view') :
    (∃ values, (List.range' 1 steps.length).mapM (fun h => getBlockValue h 0) = .ok values ∧
      supply view'.flat ≤ values.sum) ∧
    supply view'.flat ≤ MAX_MONEY ∧
    ∀ (next : Connection) (fJustCheck : Bool),
      (next.connect fJustCheck view').1 ≠ .error .overflow := by
  have hsteps : ∀ l : List Connection, (l.map fun c => subsidy c.pindex.ptr.nHeight) =
      (l.map fun c => c.pindex.ptr.nHeight).map subsidy := fun l => by
    rw [List.map_map]
    rfl
  have hlimit : ∀ k, 0 + ((steps.take k).map fun c => subsidy c.pindex.ptr.nHeight).sum ≤
      MAX_MONEY := by
    intro k
    rw [zero_add, hsteps, List.map_take, hheights]
    rcases Nat.le_total k steps.length with hle | hge
    · rw [List.take_range'_of_length_ge hle]
      exact sum_subsidy_le k
    · rw [List.take_range'_of_length_le hge]
      exact sum_subsidy_le steps.length
  have hend := connectChain_solvent steps view.flat view'.flat 0 (solvent_empty hempty) hlimit
    (connectChain_flat hchain)
  rw [zero_add, hsteps, hheights] at hend
  have hmoney := sum_subsidy_le steps.length
  refine ⟨⟨_, mapM_getBlockValue _, hend.bound⟩, hend.bound.trans hmoney, ?_⟩
  intro next fJustCheck hover
  have hstep := holds_connect next fJustCheck view'.flat hend hmoney
  have hflat := connect_flat next fJustCheck view'
  rw [hover] at hflat
  exact hstep.of_error hflat rfl

/-- The genesis block of the test network. -/
def genesisPtr : BlockPtr :=
  ⟨0x45906cdafda66bb13095deef71b5e5b768eb037f91b556c0cb996e50c3303bb3, 0⟩

def premineTx : CTransaction :=
  ⟨1, [⟨⟨0, BitVec.allOnes 32⟩, [0x51, 0x51], BitVec.allOnes 32⟩],
    [⟨12000000000000, [0x51]⟩], 0⟩

def premineHeader : HeaderFields :=
  ⟨904855554, genesisPtr.hash, 0xb26bb784e352e5f310e5e04c2ed503653d0b71044885be30b7dce40371e39bdc,
    1403787200, 0x1e6236f6, 82915⟩

/-- The double SHA-256 on the transaction and the header, and scrypt on the header. -/
def premineEnv : Env where
  Hash bs :=
    if bs = CTransaction.codec.write premineTx then
      0xb26bb784e352e5f310e5e04c2ed503653d0b71044885be30b7dce40371e39bdc
    else if bs = HeaderFields.codec.write premineHeader then
      0x6cb51be331a25cabb097e095fb8c65fdd5e18a1c18578a699a68c1f51cee9fd4
    else 0
  powHash _ := 0x183aa5faa1936fee1a5f01b3789c8b9b83f5d4071a0c82bd834764642962
  fTestNet := true
  genesisHash := genesisPtr.hash
  totalBlocksEstimate := 0
  adjustedTime := 1403787200
  verifyScript scriptPubKey _ _ _ := scriptPubKey == [0x51]
  fScriptCheckThreads := true

/-- The block at height one, which may pay out the premine. -/
def premine : Connection where
  env := premineEnv
  io := ⟨true, true, .ok, false, .ok, true⟩
  block := ⟨.plain premineHeader, [premineTx]⟩
  pindex :=
    ⟨⟨0x6cb51be331a25cabb097e095fb8c65fdd5e18a1c18578a699a68c1f51cee9fd4, 1⟩, some genesisPtr,
      1403787200⟩
  nStatus := BLOCK_VALID_TRANSACTIONS ||| BLOCK_HAVE_DATA
  undo := none
  diskStatus := BLOCK_VALID_TRANSACTIONS ||| BLOCK_HAVE_DATA

def genesisView : Cache CoinsDb := .new ⟨∅, some genesisPtr⟩

def premineView : Cache CoinsDb := (premine.connect false genesisView).2.view

theorem supply_bounded_premine :
    connectChain genesisView [premine] = .ok premineView ∧
      supply premineView.flat ≤ 120000 * COIN ∧ supply premineView.flat ≤ MAX_MONEY := by
  have hok : (premine.connect false genesisView).1.isOk = true := by decide +kernel
  have hchain : connectChain genesisView [premine] = .ok premineView := by
    rw [connectChain, premineView]
    rcases hconn : premine.connect false genesisView with ⟨e | undo, s⟩
    · rw [hconn] at hok
      exact absurd hok (by simp [Except.isOk, Except.toBool])
    · rfl
  obtain ⟨⟨values, hvalues, hsum⟩, hmax, -⟩ :=
    supply_bounded genesisView premineView [premine] (fun _ => rfl) rfl hchain
  obtain rfl : [120000 * COIN] = values := Except.ok.inj hvalues
  exact ⟨hchain, by simpa using hsum, hmax⟩

end UmbrellaLtc.MoneySupply
