import UmbrellaLtc.MiningRpc
import UmbrellaLtc.Locator

/-!
Runs of getworkaux and getauxblock under any changes of the best block and of the pool between
the calls. The two share the heap, each with templates of its own.
-/

namespace UmbrellaLtc.MiningRpc

open Codec Transaction Header CheckBlock ConnectBlock BestChain MemPool Script BlockTemplate
  MergedMining Runs
open HeaderCoherence (setAuxPow)

section Previous

/-! Which block a template is built on is all that matters of it. -/

def prevOf (template : CBlockTemplate) : Uint256 :=
  template.block.header.fields.hashPrevBlock

def Heap.builtOn (heap : Heap) (p : ℕ) : Option Uint256 :=
  (heap p).map prevOf

variable {D M : Type} (double : Double D) (heapOps : HeapOps D) (m : Moment D M)

theorem createNewBlock_best {a : Around} {opts : BlockOptions} {io : BlockIo}
    {horizon : Kgw.Horizon} {clock : ℕ → ℤ} {script1 script2 : CScript} {pool : CTxMemPool}
    {s : ChainState M} {template : CBlockTemplate}
    (h : (createNewBlock double heapOps a opts io horizon clock script1 script2 pool s).1 =
      .ok template) : s.pindexBest = some (prevOf template) := by
  unfold createNewBlock at h
  cases hbest : s.pindexBest with
  | none => rw [hbest] at h; cases h
  | some pindexPrev =>
    simp only [hbest] at h
    split at h
    · cases h
    · split at h
      · cases h
      · rename_i t _ _ filled hfill
        have hprev : prevOf filled = pindexPrev := by
          unfold fillBlock at hfill
          simp only [bind, Except.bind, pure, Except.pure] at hfill
          split at hfill
          · cases hfill
          · split at hfill
            · cases hfill
            · cases hfill; rfl
        split at h
        · cases h
          rw [hprev]
        · cases h

theorem createNewBlockWithKey_best {template : CBlockTemplate}
    (h : m.createNewBlockWithKey double heapOps = .made template) :
    m.chain.pindexBest = some (prevOf template) := by
  unfold Moment.createNewBlockWithKey at h
  split at h
  · cases h
  · split at h
    · cases h
    · rename_i made hmade
      cases h
      exact createNewBlock_best double heapOps hmade

variable (Hash : List Byte → Uint256)

@[simp] theorem setTimeAndNonce_prev (block : CBlock) (nTime nNonce : BitVec 32) :
    (setTimeAndNonce block nTime nNonce).header.fields.hashPrevBlock =
      block.header.fields.hashPrevBlock := by
  simp [setTimeAndNonce]

@[simp] theorem setCoinbaseScript_prev (block : CBlock) (script : CScript) :
    (setCoinbaseScript Hash block script).header.fields.hashPrevBlock =
      block.header.fields.hashPrevBlock := by
  simp [setCoinbaseScript]

@[simp] theorem setAuxPow_prev (header : CBlockHeader) (pow : Option CAuxPow) :
    (setAuxPow header pow).fields.hashPrevBlock = header.fields.hashPrevBlock := by
  simp [setAuxPow]

theorem restoreWork_prev {block restored : CBlock} {nExtraNonce nTime nNonce : BitVec 32}
    {r : Except Refusal (List Byte)}
    (h : restoreWork Hash block nExtraNonce nTime nNonce = (restored, r)) :
    restored.header.fields.hashPrevBlock = block.header.fields.hashPrevBlock := by
  unfold restoreWork at h
  simp only at h
  split at h
  · cases h
    exact setTimeAndNonce_prev block nTime nNonce
  · split at h
    · cases h
      exact setTimeAndNonce_prev block nTime nNonce
    · cases h
      rw [setCoinbaseScript_prev, setTimeAndNonce_prev]

theorem prepareBlock_prev (template : CBlockTemplate) (pindexPrev : Uint256) :
    (prepareBlock m template pindexPrev).header.fields.hashPrevBlock =
      prevOf template := by
  simp [prepareBlock, prevOf]

/-- A saved block that is changed stays on the block that it was built on. -/
theorem builtOn_setBlock {s : Mining} {p : ℕ} {template : CBlockTemplate} {block : CBlock}
    (hp : s.heap p = some template)
    (hprev : block.header.fields.hashPrevBlock = prevOf template) :
    (setBlock s p template block).heap.builtOn = s.heap.builtOn := by
  funext q
  by_cases hq : q = p
  · subst hq
    simp [Heap.builtOn, setBlock, hp, prevOf, hprev]
  · simp [Heap.builtOn, setBlock, hq]

theorem builtOn_update (heap : Heap) (p : ℕ) (template : CBlockTemplate) :
    Heap.builtOn (Function.update heap p (some template)) =
      Function.update heap.builtOn p (some (prevOf template)) := by
  funext q
  by_cases hq : q = p
  · subst hq
    simp [Heap.builtOn]
  · simp [Heap.builtOn, hq]

theorem deleteAll_spec {ps : List ℕ} {heap : Heap} (hnodup : ps.Nodup)
    (hlive : ∀ p ∈ ps, (heap.builtOn p).isSome = true) :
    ∃ rest, heap.deleteAll ps = some rest ∧
      ∀ q, rest.builtOn q = if q ∈ ps then none else heap.builtOn q := by
  induction ps generalizing heap with
  | nil => exact ⟨heap, rfl, fun q => rfl⟩
  | cons p ps ih =>
    obtain ⟨hp, hps⟩ := List.nodup_cons.mp hnodup
    have hkeeps : ∀ q, q ≠ p → (Function.update heap p none) q = heap q :=
      fun q hq => Function.update_of_ne hq _ _
    have hlive' : ∀ q ∈ ps,
        (Heap.builtOn (Function.update heap p none) q).isSome = true := by
      intro q hq
      have hne : q ≠ p := fun heq => hp (heq ▸ hq)
      have hlive := hlive q (List.mem_cons_of_mem _ hq)
      unfold Heap.builtOn at hlive ⊢
      rwa [hkeeps q hne]
    obtain ⟨rest, hrest, hspec⟩ := ih hps hlive'
    obtain ⟨template, hp'⟩ : ∃ template, heap p = some template := by
      have hlive := hlive p List.mem_cons_self
      simpa [Heap.builtOn, Option.isSome_iff_exists] using hlive
    refine ⟨rest, by simp only [Heap.deleteAll, hp', hrest], ?_⟩
    intro q
    rw [hspec q]
    by_cases hq : q = p
    · subst hq
      simp [hp, Heap.builtOn]
    · simp [hq, Heap.builtOn]

end Previous

section Keeping

variable {D M V : Type} {m : Moment D M} {ptr : V → ℕ} {st : Statics V} {pointer : Option ℕ}
  {failed : Bool} {prev prev' : ℕ → Option Uint256} {allocated : ℕ}

/-- What holds of the static variables of a call between calls. `pointer` is the template that
work is handed out from, and `failed` says that it cannot be, since the last attempt to make a
new one failed; `prev` is what the templates on the heap are built on. -/
structure Kept (ptr : V → ℕ) (st : Statics V) (pointer : Option ℕ) (failed : Bool)
    (prev : ℕ → Option Uint256) (allocated : ℕ) : Prop where
  saved : ∀ key v, st.mapNewBlock key = some v → ptr v ∈ st.vNewBlockTemplate
  built : ∀ p ∈ st.vNewBlockTemplate, ∃ hash, st.pindexPrev = some hash ∧ prev p = some hash
  below : ∀ p ∈ st.vNewBlockTemplate, p < allocated
  nodup : st.vNewBlockTemplate.Nodup
  started : st.pindexPrev = none → pointer = none
  fresh : st.pindexPrev.isSome = true → failed = false →
    ∃ p ∈ st.vNewBlockTemplate, pointer = some p
  dead : failed = true → ∀ p, pointer = some p → p < allocated ∧ prev p = none

@[simp] theorem Statics.note_pindexPrev (m : Moment D M) (st : Statics V) :
    (st.note m).pindexPrev = m.chain.pindexBest := rfl

theorem Kept.init : Kept ptr .init none false prev allocated where
  saved _ _ h := by cases h
  built _ h := by cases h
  below _ h := by cases h
  nodup := List.nodup_nil
  started _ := rfl
  fresh h := by cases h
  dead h := by cases h

theorem Kept.live (h : Kept ptr st pointer failed prev allocated) {p : ℕ}
    (hp : p ∈ st.vNewBlockTemplate) : (prev p).isSome = true := by
  obtain ⟨hash, -, hprev⟩ := h.built p hp
  rw [hprev]
  rfl

/-- What happens to the templates of the other call, and new allocations, change nothing. -/
theorem Kept.frame (h : Kept ptr st pointer failed prev allocated) {allocated' : ℕ}
    (hle : allocated ≤ allocated') (hlive : ∀ p ∈ st.vNewBlockTemplate, prev' p = prev p)
    (hdead : ∀ p < allocated, prev p = none → prev' p = none) :
    Kept ptr st pointer failed prev' allocated' where
  saved := h.saved
  built p hp := by
    rw [hlive p hp]
    exact h.built p hp
  below p hp := by
    have := h.below p hp
    omega
  nodup := h.nodup
  started := h.started
  fresh := h.fresh
  dead hfailed p hp := by
    obtain ⟨hlt, hnone⟩ := h.dead hfailed p hp
    exact ⟨by omega, hdead p hlt hnone⟩

/-- The other call has made a template. -/
theorem Kept.frame_push (h : Kept ptr st pointer failed prev allocated) (hash : Option Uint256) :
    Kept ptr st pointer failed (Function.update prev allocated hash) (allocated + 1) := by
  have hsame : ∀ p < allocated, Function.update prev allocated hash p = prev p :=
    fun p hp => Function.update_of_ne hp.ne _ _
  refine h.frame (Nat.le_succ _) (fun p hp => hsame p (h.below p hp)) ?_
  intro p hp hnone
  rw [hsame p hp, hnone]

theorem Kept.save (h : Kept ptr st pointer failed prev allocated) {key : Uint256} {v : V}
    (hv : ptr v ∈ st.vNewBlockTemplate) :
    Kept ptr (st.save key v) pointer failed prev allocated where
  saved k w hw := by
    by_cases hk : k = key
    · subst hk
      rw [show (st.save k v).mapNewBlock k = some v from Function.update_self _ _ _] at hw
      cases hw
      exact hv
    · rw [show (st.save key v).mapNewBlock k = st.mapNewBlock k from
        Function.update_of_ne hk _ _] at hw
      exact h.saved k w hw
  built := h.built
  below := h.below
  nodup := h.nodup
  started := h.started
  fresh := h.fresh
  dead := h.dead

/-- The pointer to a template is set apart from the static variable for it. -/
theorem Kept.setPointer (h : Kept ptr st pointer failed prev allocated) {p : Option ℕ} :
    Kept ptr { st with pblocktemplate := p } pointer failed prev allocated :=
  ⟨h.saved, h.built, h.below, h.nodup, h.started, h.fresh, h.dead⟩

theorem Kept.null (h : Kept ptr st pointer failed prev allocated) :
    Kept ptr { st with pblocktemplate := none } none true prev allocated where
  saved := h.saved
  built := h.built
  below := h.below
  nodup := h.nodup
  started _ := rfl
  fresh _ hfailed := by cases hfailed
  dead _ _ hp := by cases hp

/-- The template that was made is the next allocation. -/
theorem Kept.push (h : Kept ptr st pointer failed prev allocated) {hash : Uint256}
    {st' : Statics V} (hprev : st.pindexPrev = some hash)
    (hmap : st'.mapNewBlock = st.mapNewBlock) (hbest : st'.pindexPrev = st.pindexPrev)
    (hpush : st'.vNewBlockTemplate = st.vNewBlockTemplate ++ [allocated]) :
    Kept ptr st' (some allocated) false (Function.update prev allocated (some hash))
      (allocated + 1) where
  saved key v hv := by
    rw [hmap] at hv
    rw [hpush]
    exact List.mem_append_left _ (h.saved key v hv)
  built p hp := by
    rw [hbest]
    rw [hpush] at hp
    rcases List.mem_append.mp hp with hp | hp
    · have hne : p ≠ allocated := (h.below p hp).ne
      rw [Function.update_of_ne hne]
      exact h.built p hp
    · cases List.mem_singleton.mp hp
      exact ⟨hash, hprev, Function.update_self _ _ _⟩
  below p hp := by
    rw [hpush] at hp
    rcases List.mem_append.mp hp with hp | hp
    · have := h.below p hp
      omega
    · cases List.mem_singleton.mp hp
      exact Nat.lt_succ_self _
  nodup := by
    rw [hpush]
    refine List.Nodup.append h.nodup (List.nodup_singleton _) ?_
    intro p hp hnew
    cases List.mem_singleton.mp hnew
    exact absurd (h.below _ hp) (lt_irrefl _)
  started hnone := by
    rw [hbest, hprev] at hnone
    cases hnone
  fresh _ _ := ⟨allocated, by simp [hpush], rfl⟩
  dead hfailed := by cases hfailed

/-- When all its templates are deleted, the pointer of a call is to none that is there. -/
theorem Kept.gone_of_deleted (h : Kept ptr st pointer failed prev allocated)
    (hdelete : ∀ q, prev' q = if q ∈ st.vNewBlockTemplate then none else prev q) (p : ℕ)
    (hp : pointer = some p) : p < allocated ∧ prev' p = none := by
  cases hfailed : failed with
  | true =>
    obtain ⟨hlt, hnone⟩ := h.dead hfailed p hp
    exact ⟨hlt, by rw [hdelete p, hnone, ite_self]⟩
  | false =>
    have hsome : st.pindexPrev.isSome = true := by
      rw [Option.isSome_iff_ne_none]
      intro hnone
      rw [h.started hnone] at hp
      cases hp
    obtain ⟨q, hq, hpointer⟩ := h.fresh hsome hfailed
    cases hp.symm.trans hpointer
    exact ⟨h.below p hq, by rw [hdelete p, if_pos hq]⟩

/-- Before a new block is made, the templates are deallocated when the tip has moved. If no block
is made then, the pointer is to a template that is gone. -/
theorem Kept.renew {heap : Heap} (h : Kept ptr st pointer failed heap.builtOn allocated)
    (hbest : m.chain.pindexBest.isSome = true) :
    ∃ st' rest, st.deallocate m heap = some (st', rest) ∧
      Kept ptr (st'.note m) pointer (failed || st.moved m) rest.builtOn allocated ∧
      st'.vNewBlockTemplate ⊆ st.vNewBlockTemplate ∧
      (∀ q ∉ st.vNewBlockTemplate, rest.builtOn q = heap.builtOn q) ∧
      ∀ q, heap.builtOn q = none → rest.builtOn q = none := by
  by_cases hmoved : st.moved m = true
  · obtain ⟨rest, hdelete, hspec⟩ := deleteAll_spec h.nodup fun p hp => h.live hp
    have hgone : ∀ q, heap.builtOn q = none → rest.builtOn q = none := by
      intro q hq
      rw [hspec q, hq, ite_self]
    refine ⟨_, rest, by rw [Statics.deallocate, if_pos hmoved, hdelete]; rfl, ?_,
      List.nil_subset _, fun q hq => by rw [hspec q, if_neg hq], hgone⟩
    refine ⟨fun _ _ hv => ?_, fun _ hp => ?_, fun _ hp => ?_, List.nodup_nil, fun hnone => ?_,
      fun _ hfailed => ?_, fun _ p hp => ?_⟩
    · cases hv
    · cases hp
    · cases hp
    · rw [Statics.note_pindexPrev] at hnone
      simp [hnone] at hbest
    · simp [hmoved] at hfailed
    · exact h.gone_of_deleted hspec p ‹_›
  · have hsame : st.pindexPrev = m.chain.pindexBest := by
      simpa [Statics.moved] using hmoved
    refine ⟨st, heap, by rw [Statics.deallocate, if_neg hmoved], ?_, fun _ hp => hp,
      fun _ _ => rfl, fun _ hq => hq⟩
    have hnote : (st.note m).pindexPrev = st.pindexPrev := hsame.symm
    have hflag : (failed || st.moved m) = failed := by simp [hmoved]
    rw [hflag]
    exact ⟨h.saved, fun p hp => hnote ▸ h.built p hp, h.below, h.nodup,
      fun hnone => h.started (hnote ▸ hnone), fun hsome => h.fresh (hnote ▸ hsome), h.dead⟩

end Keeping

section Calling

/-- Of each call, whether its last attempt to make a block has failed such that it cannot hand
out work. -/
structure Failed where
  work : Bool
  aux : Bool

/-- The templates that a call holds. -/
def Call.held (s : Mining) : Call → List ℕ
  | .askWork _ | .backWork _ _ _ => s.work.vNewBlockTemplate
  | .askBlock | .backBlock _ _ => s.aux.vNewBlockTemplate

variable {D M : Type} (double : Double D) (heapOps : HeapOps D) (m : Moment D M)

/-- Whether the call is one that makes a new block. -/
def Call.renews (s : Mining) : Call → Bool
  | .askWork vchAux => s.work.toStatics.due m || vchAux != s.work.vchAuxPrev
  | .askBlock => s.aux.toStatics.due m
  | _ => false

/-- The attempts of getworkaux fail with a null pointer, or with an exception once the tip has
moved and the old templates are deleted; those of getauxblock, whose pointer is one to the block,
only in the second case. -/
def Failed.after (failed : Failed) (c : Call) (s : Mining) : Failed :=
  if m.refuses || !c.renews m s then failed
  else match c, m.createNewBlockWithKey double heapOps with
    | .askWork _, .made _ => { failed with work := false }
    | .askWork _, .null => { failed with work := true }
    | .askWork _, .threw => { failed with work := failed.work || s.work.toStatics.moved m }
    | .askBlock, .made _ => { failed with aux := false }
    | .askBlock, _ => { failed with aux := failed.aux || s.aux.toStatics.moved m }
    | _, _ => failed

/-- Work is asked for after a failed attempt, and the call makes no new one. -/
def Slip (failed : Failed) (c : Call) (s : Mining) : Prop :=
  m.refuses = false ∧ c.renews m s = false ∧
    match c with
    | .askWork _ => failed.work = true
    | .askBlock => failed.aux = true
    | _ => False

/-- A call fails with an error, or it works on a template that is held and has not been deleted;
work is handed out on top of the best block, and CheckWork passes it on top of that only. -/
def Serves (held : List ℕ) (heap : Heap) : Outcome → Prop
  | .threw | .unknown => True
  | .gave p => p ∈ held ∧ ∃ template, heap p = some template ∧
      m.chain.pindexBest = some (prevOf template)
  | .took p r => p ∈ held ∧ ∃ template, heap p = some template ∧
      (r = .checked (.ok true) → m.chain.hashBestChain = prevOf template)
  | .fault => False

structure Inv (s : Mining) (failed : Failed) : Prop where
  work : Kept Prod.fst s.work.toStatics s.work.pblocktemplate failed.work s.heap.builtOn
    s.allocated
  aux : Kept id s.aux.toStatics s.aux.pblock failed.aux s.heap.builtOn s.allocated
  apart : s.work.vNewBlockTemplate.Disjoint s.aux.vNewBlockTemplate

theorem Inv.init : Inv .init ⟨false, false⟩ := by
  refine ⟨Kept.init, Kept.init, ?_⟩
  intro p hp
  cases hp

theorem builtOn_some {heap : Heap} {p : ℕ} {hash : Uint256} (h : heap.builtOn p = some hash) :
    ∃ template, heap p = some template ∧ prevOf template = hash := by
  simpa [Heap.builtOn] using h

theorem builtOn_none {heap : Heap} {p : ℕ} (h : heap.builtOn p = none) : heap p = none := by
  simpa [Heap.builtOn] using h

theorem hashPrevBlock_of_checkWork {block : CBlock} (h : checkWork m block = .ok true) :
    m.chain.hashBestChain = block.header.fields.hashPrevBlock := by
  unfold checkWork at h
  cases hunder : underTarget m block with
  | error f => rw [hunder] at h; cases h
  | ok solved =>
    rw [hunder] at h
    simp only [Except.map, Except.ok.injEq, Bool.and_eq_true, beq_iff_eq] at h
    exact h.1.2.symm

variable {m} {s : Mining} {failed : Failed}

theorem giveWork_dead (h : Inv s failed) (hfailed : failed.work = true) (vchAux : List Byte) :
    giveWork m vchAux s = (s, .fault) := by
  unfold giveWork
  cases hp : s.work.pblocktemplate with
  | none => rfl
  | some p => simp only [builtOn_none (h.work.dead hfailed p hp).2]

theorem giveBlock_dead (h : Inv s failed) (hfailed : failed.aux = true) :
    giveBlock s = (s, .fault) := by
  unfold giveBlock
  cases hp : s.aux.pblock with
  | none => rfl
  | some p => simp only [builtOn_none (h.aux.dead hfailed p hp).2]

theorem giveWork_spec (h : Inv s failed) (hfailed : failed.work = false) {best : Uint256}
    (hprev : s.work.pindexPrev = some best) (hbest : m.chain.pindexBest = some best)
    (vchAux : List Byte) :
    Inv (giveWork m vchAux s).1 failed ∧
      Serves m (giveWork m vchAux s).1.work.vNewBlockTemplate (giveWork m vchAux s).1.heap
        (giveWork m vchAux s).2 := by
  obtain ⟨p, hp, hpointer⟩ := h.work.fresh (by rw [hprev]; rfl) hfailed
  obtain ⟨hash, hpindexPrev, hbuilt⟩ := h.work.built p hp
  obtain ⟨template, htemplate, rfl⟩ := builtOn_some hbuilt
  cases hprev.symm.trans hpindexPrev
  unfold giveWork
  simp only [hpointer, htemplate, hprev]
  set block := (incrementExtraNonceWithAux m.around.env.Hash
    (setTimeAndNonce template.block (updateTime _ _) 0) s.work.hashPrevBlock s.work.nExtraNonce
      vchAux).1 with hblock
  have hsame : block.header.fields.hashPrevBlock = prevOf template := by
    rw [hblock, incrementExtraNonceWithAux]
    simp [prevOf]
  have hheap := builtOn_setBlock htemplate hsame
  refine ⟨⟨?_, ?_, h.apart⟩, hp, _, Function.update_self _ _ _, ?_⟩
  · show Kept Prod.fst (s.work.save _ _) s.work.pblocktemplate failed.work
      (setBlock s p template block).heap.builtOn s.allocated
    rw [hheap]
    exact h.work.save hp
  · show Kept id s.aux.toStatics s.aux.pblock failed.aux
      (setBlock s p template block).heap.builtOn s.allocated
    rw [hheap]
    exact h.aux
  · rw [hbest]
    exact congrArg some hsame.symm

theorem giveBlock_spec (h : Inv s failed) (hfailed : failed.aux = false) {best : Uint256}
    (hprev : s.aux.pindexPrev = some best) (hbest : m.chain.pindexBest = some best) :
    Inv (giveBlock s).1 failed ∧
      Serves m (giveBlock s).1.aux.vNewBlockTemplate (giveBlock s).1.heap (giveBlock s).2 := by
  obtain ⟨p, hp, hpointer⟩ := h.aux.fresh (by rw [hprev]; rfl) hfailed
  obtain ⟨hash, hpindexPrev, hbuilt⟩ := h.aux.built p hp
  obtain ⟨template, htemplate, rfl⟩ := builtOn_some hbuilt
  cases hprev.symm.trans hpindexPrev
  simp only [giveBlock, hpointer, htemplate]
  exact ⟨h, hp, template, htemplate, hbest⟩

/-- The state of getworkaux in which the attempt to make a block is made. -/
theorem Inv.renew_work (h : Inv s failed) (hbest : m.chain.pindexBest.isSome = true)
    (vchAux : List Byte) :
    ∃ st rest, s.work.toStatics.deallocate m s.heap = some (st, rest) ∧
      Inv { s with heap := rest, work := { s.work with toStatics := st.note m,
                                                       vchAuxPrev := vchAux } }
        { failed with work := failed.work || s.work.toStatics.moved m } := by
  obtain ⟨st, rest, hdeallocate, hkept, hsub, hsame, hgone⟩ := h.work.renew hbest
  have hpointer : st.pblocktemplate = s.work.pblocktemplate := by
    unfold Statics.deallocate at hdeallocate
    split at hdeallocate
    · obtain ⟨_, -, hst⟩ := Option.map_eq_some_iff.mp hdeallocate
      cases hst
      rfl
    · cases hdeallocate
      rfl
  refine ⟨st, rest, hdeallocate, ?_, ?_, ?_⟩
  · show Kept Prod.fst (st.note m) st.pblocktemplate _ rest.builtOn s.allocated
    rw [hpointer]
    exact hkept
  · exact h.aux.frame le_rfl (fun p hp => hsame p fun hw => h.apart hw hp) fun p _ => hgone p
  · intro p hp
    exact h.apart (hsub hp)

theorem Inv.renew_aux (h : Inv s failed) (hbest : m.chain.pindexBest.isSome = true) :
    ∃ st rest, s.aux.toStatics.deallocate m s.heap = some (st, rest) ∧
      Inv { s with heap := rest, aux := { s.aux with toStatics := st.note m } }
        { failed with aux := failed.aux || s.aux.toStatics.moved m } := by
  obtain ⟨st, rest, hdeallocate, hkept, hsub, hsame, hgone⟩ := h.aux.renew hbest
  refine ⟨st, rest, hdeallocate, ?_, hkept, ?_⟩
  · exact h.work.frame le_rfl (fun p hp => hsame p fun ha => h.apart hp ha) fun p _ => hgone p
  · intro p hp ha
    exact h.apart hp (hsub ha)

theorem Inv.push_work (h : Inv s failed) {template : CBlockTemplate}
    (hprev : s.work.pindexPrev = some (prevOf template)) :
    Inv { s with
          heap := Function.update s.heap s.allocated (some template)
          allocated := s.allocated + 1
          work := { s.work with
            pblocktemplate := some s.allocated
            vNewBlockTemplate := s.work.vNewBlockTemplate ++ [s.allocated] } }
      { failed with work := false } := by
  refine ⟨?_, ?_, ?_⟩
  · show Kept _ _ _ _ (Heap.builtOn (Function.update s.heap s.allocated (some template))) _
    rw [builtOn_update]
    exact h.work.push hprev rfl rfl rfl
  · show Kept _ _ _ _ (Heap.builtOn (Function.update s.heap s.allocated (some template))) _
    rw [builtOn_update]
    exact h.aux.frame_push _
  · intro p hp ha
    rcases List.mem_append.mp hp with hp | hp
    · exact h.apart hp ha
    · cases List.mem_singleton.mp hp
      exact absurd (h.aux.below _ ha) (lt_irrefl _)

theorem Inv.push_aux (h : Inv s failed) {template : CBlockTemplate} (key : Uint256)
    (hprev : s.aux.pindexPrev = some (prevOf template)) :
    Inv { s with
          heap := Function.update s.heap s.allocated (some template)
          allocated := s.allocated + 1
          aux := { s.aux.toStatics.save key s.allocated with
            pblocktemplate := some s.allocated
            vNewBlockTemplate := s.aux.vNewBlockTemplate ++ [s.allocated]
            pblock := some s.allocated } }
      { failed with aux := false } := by
  refine ⟨?_, ?_, ?_⟩
  · show Kept _ _ _ _ (Heap.builtOn (Function.update s.heap s.allocated (some template))) _
    rw [builtOn_update]
    exact h.work.frame_push _
  · show Kept _ _ _ _ (Heap.builtOn (Function.update s.heap s.allocated (some template))) _
    rw [builtOn_update]
    let st := { s.aux.toStatics with
      vNewBlockTemplate := s.aux.vNewBlockTemplate ++ [s.allocated] }
    have hpush : Kept id st (some s.allocated) false
        (Function.update s.heap.builtOn s.allocated (some (prevOf template)))
        (s.allocated + 1) := h.aux.push hprev rfl rfl rfl
    have hnew : id s.allocated ∈ st.vNewBlockTemplate := by simp [st]
    have hsave : Kept id (st.save key s.allocated) _ _ _ _ := hpush.save hnew
    exact hsave.setPointer
  · intro p hp ha
    rcases List.mem_append.mp ha with ha | ha
    · exact h.apart hp ha
    · cases List.mem_singleton.mp ha
      exact absurd (h.work.below _ hp) (lt_irrefl _)

theorem best_of_not_refuses (hasks : m.refuses = false) :
    ∃ best, m.chain.pindexBest = some best := by
  unfold Moment.refuses at hasks
  cases hbest : m.chain.pindexBest with
  | none => simp [hbest] at hasks
  | some best => exact ⟨best, rfl⟩

theorem pindexPrev_of_not_due {V : Type} {st : Statics V} (hdue : st.due m = false) :
    st.pindexPrev = m.chain.pindexBest := by
  unfold Statics.due at hdue
  simp only [Bool.or_eq_false_iff] at hdue
  simpa [Statics.moved] using hdue.1

variable {double heapOps}

theorem askWork_spec (h : Inv s failed) (hasks : m.refuses = false) {vchAux : List Byte}
    (hslip : ¬ Slip m failed (.askWork vchAux) s) :
    Inv (askWork double heapOps m vchAux s).1
        (failed.after double heapOps m (.askWork vchAux) s) ∧
      Serves m (askWork double heapOps m vchAux s).1.work.vNewBlockTemplate
        (askWork double heapOps m vchAux s).1.heap (askWork double heapOps m vchAux s).2 := by
  obtain ⟨best, hbest⟩ := best_of_not_refuses hasks
  cases hrenews : (Call.askWork vchAux).renews m s with
  | false =>
    have hfailed : failed.work = false := by
      by_contra hfailed
      exact hslip ⟨hasks, hrenews, by simpa using hfailed⟩
    have hafter : failed.after double heapOps m (.askWork vchAux) s = failed := by
      simp [Failed.after, hrenews]
    have hdue : s.work.toStatics.due m = false := (Bool.or_eq_false_iff.mp hrenews).1
    rw [hafter, askWork, if_neg (by simpa [Call.renews] using hrenews)]
    exact giveWork_spec h hfailed ((pindexPrev_of_not_due hdue).trans hbest) hbest vchAux
  | true =>
    obtain ⟨st, rest, hdeallocate, hinv⟩ := h.renew_work (by rw [hbest]; rfl) vchAux
    have hdue : (s.work.toStatics.due m || vchAux != s.work.vchAuxPrev) = true := hrenews
    rw [askWork, if_pos hdue, hdeallocate]
    cases hmade : m.createNewBlockWithKey double heapOps with
    | threw =>
      have hafter : failed.after double heapOps m (.askWork vchAux) s =
          { failed with work := failed.work || s.work.toStatics.moved m } := by
        simp [Failed.after, hrenews, hasks, hmade]
      rw [hafter]
      exact ⟨hinv, trivial⟩
    | null =>
      have hafter : failed.after double heapOps m (.askWork vchAux) s =
          { failed with work := true } := by
        simp [Failed.after, hrenews, hasks, hmade]
      rw [hafter]
      exact ⟨⟨hinv.work.null, hinv.aux, hinv.apart⟩, trivial⟩
    | made template =>
      have hafter : failed.after double heapOps m (.askWork vchAux) s =
          { failed with work := false } := by
        simp [Failed.after, hrenews, hasks, hmade]
      rw [hafter]
      have hprev := createNewBlockWithKey_best double heapOps m hmade
      have hpush := hinv.push_work hprev
      exact giveWork_spec hpush rfl hbest hbest vchAux

theorem askBlock_spec (h : Inv s failed) (hasks : m.refuses = false)
    (hslip : ¬ Slip m failed .askBlock s) :
    Inv (askBlock double heapOps m s).1 (failed.after double heapOps m .askBlock s) ∧
      Serves m (askBlock double heapOps m s).1.aux.vNewBlockTemplate
        (askBlock double heapOps m s).1.heap (askBlock double heapOps m s).2 := by
  obtain ⟨best, hbest⟩ := best_of_not_refuses hasks
  cases hrenews : Call.askBlock.renews m s with
  | false =>
    have hfailed : failed.aux = false := by
      by_contra hfailed
      exact hslip ⟨hasks, hrenews, by simpa using hfailed⟩
    have hafter : failed.after double heapOps m .askBlock s = failed := by
      simp [Failed.after, hrenews]
    rw [hafter, askBlock, if_neg (by simpa [Call.renews] using hrenews)]
    exact giveBlock_spec h hfailed ((pindexPrev_of_not_due hrenews).trans hbest) hbest
  | true =>
    obtain ⟨st, rest, hdeallocate, hinv⟩ := h.renew_aux (by rw [hbest]; rfl)
    have hdue : s.aux.toStatics.due m = true := hrenews
    rw [askBlock, if_pos hdue, hdeallocate]
    cases hmade : m.createNewBlockWithKey double heapOps with
    | threw =>
      have hafter : failed.after double heapOps m .askBlock s =
          { failed with aux := failed.aux || s.aux.toStatics.moved m } := by
        simp [Failed.after, hrenews, hasks, hmade]
      rw [hafter]
      exact ⟨hinv, trivial⟩
    | null =>
      have hafter : failed.after double heapOps m .askBlock s =
          { failed with aux := failed.aux || s.aux.toStatics.moved m } := by
        simp [Failed.after, hrenews, hasks, hmade]
      rw [hafter]
      exact ⟨⟨hinv.work, hinv.aux.setPointer, hinv.apart⟩, trivial⟩
    | made template =>
      have hafter : failed.after double heapOps m .askBlock s = { failed with aux := false } := by
        simp [Failed.after, hrenews, hasks, hmade]
      rw [hafter]
      have hprev := createNewBlockWithKey_best double heapOps m hmade
      simp only [Statics.note_pindexPrev, hbest]
      have hprev' : m.chain.pindexBest =
          some (prevOf { template with block := prepareBlock m template best }) :=
        hprev.trans (congrArg some (prepareBlock_prev m template best).symm)
      have hpush :=
        hinv.push_aux ((prepareBlock m template best).header.fields.getHash m.around.env.Hash) hprev'
      exact giveBlock_spec hpush rfl hbest hbest

/-- A saved block is changed and stays on the block that it is built on. -/
theorem Inv.setBlock (h : Inv s failed) {p : ℕ} {template : CBlockTemplate} {block : CBlock}
    (hp : s.heap p = some template)
    (hprev : block.header.fields.hashPrevBlock = prevOf template) :
    Inv (MiningRpc.setBlock s p template block) failed := by
  have hheap := builtOn_setBlock hp hprev
  refine ⟨?_, ?_, h.apart⟩
  · rw [hheap]
    exact h.work
  · rw [hheap]
    exact h.aux

theorem backWork_spec (h : Inv s failed) (how : String) (data : List Byte)
    (chain : Option (BitVec 32 × List Uint256)) :
    Inv (backWork m how data chain s).1 failed ∧
      Serves m (backWork m how data chain s).1.work.vNewBlockTemplate
        (backWork m how data chain s).1.heap (backWork m how data chain s).2 := by
  unfold backWork
  by_cases hparams : (how ≠ "submit" ∧ how ≠ "") ∨ data.length ≠ 128
  · rw [if_pos hparams]
    exact ⟨h, trivial⟩
  rw [if_neg hparams]
  split
  · exact ⟨h, trivial⟩
  rename_i pdata _ _
  split
  · exact ⟨h, trivial⟩
  rename_i p nExtraNonce hsaved
  have hp : p ∈ s.work.vNewBlockTemplate := h.work.saved _ _ hsaved
  obtain ⟨hash, -, hbuilt⟩ := h.work.built p hp
  obtain ⟨template, htemplate, rfl⟩ := builtOn_some hbuilt
  rw [htemplate]
  simp only
  split
  · rename_i block e hrestore
    have hprev := restoreWork_prev m.around.env.Hash hrestore
    refine ⟨h.setBlock htemplate hprev, hp, _, Function.update_self _ _ _, ?_⟩
    intro hr
    cases hr
  · rename_i block vchAux hrestore
    have hprev := restoreWork_prev m.around.env.Hash hrestore
    refine ⟨h.setBlock htemplate hprev, hp, _, Function.update_self _ _ _, ?_⟩
    intro hr
    unfold answerWork at hr
    split at hr
    · cases hr
    · split at hr
      · exact hashPrevBlock_of_checkWork m (Taken.checked.inj hr)
      · cases hr

theorem backBlock_spec (h : Inv s failed) (hash : Uint256) (vchAuxPow : List Byte) :
    Inv (backBlock m hash vchAuxPow s).1 failed ∧
      Serves m (backBlock m hash vchAuxPow s).1.aux.vNewBlockTemplate
        (backBlock m hash vchAuxPow s).1.heap (backBlock m hash vchAuxPow s).2 := by
  unfold backBlock
  split
  · exact ⟨h, trivial⟩
  rename_i pow _ _
  split
  · exact ⟨h, trivial⟩
  rename_i p hsaved
  have hp : p ∈ s.aux.vNewBlockTemplate := h.aux.saved _ _ hsaved
  obtain ⟨hash, -, hbuilt⟩ := h.aux.built p hp
  obtain ⟨template, htemplate, rfl⟩ := builtOn_some hbuilt
  rw [htemplate]
  have hprev := setAuxPow_prev template.block.header (some pow)
  refine ⟨h.setBlock htemplate hprev, hp, _, Function.update_self _ _ _, ?_⟩
  intro hr
  exact hashPrevBlock_of_checkWork m (Taken.checked.inj hr)

theorem call_spec (h : Inv s failed) {c : Call} (hslip : ¬ Slip m failed c s) :
    Inv (call double heapOps m c s).1 (failed.after double heapOps m c s) ∧
      Serves m (c.held (call double heapOps m c s).1) (call double heapOps m c s).1.heap
        (call double heapOps m c s).2 := by
  cases hasks : m.refuses with
  | true =>
    have hafter : failed.after double heapOps m c s = failed := by simp [Failed.after, hasks]
    rw [hafter, call, if_pos hasks]
    exact ⟨h, trivial⟩
  | false =>
    rw [call, if_neg (by rw [hasks]; decide)]
    cases c with
    | askWork vchAux => exact askWork_spec h hasks hslip
    | askBlock => exact askBlock_spec h hasks hslip
    | backWork how data chain =>
      have hafter : failed.after double heapOps m (.backWork how data chain) s = failed := by
        simp [Failed.after, Call.renews]
      rw [hafter]
      exact backWork_spec h how data chain
    | backBlock hash vchAuxPow =>
      have hafter : failed.after double heapOps m (.backBlock hash vchAuxPow) s = failed := by
        simp [Failed.after, Call.renews]
      rw [hafter]
      exact backBlock_spec h hash vchAuxPow

theorem call_slip (h : Inv s failed) {c : Call} (hslip : Slip m failed c s) :
    call double heapOps m c s = (s, .fault) ∧ failed.after double heapOps m c s = failed := by
  obtain ⟨hasks, hrenews, hfailed⟩ := hslip
  have hafter : failed.after double heapOps m c s = failed := by simp [Failed.after, hrenews]
  refine ⟨?_, hafter⟩
  rw [call, if_neg (by rw [hasks]; decide)]
  cases c with
  | askWork vchAux =>
    have hdue : ¬ (s.work.toStatics.due m || vchAux != s.work.vchAuxPrev) = true := by
      simpa [Call.renews] using hrenews
    show askWork double heapOps m vchAux s = _
    rw [askWork, if_neg hdue]
    exact giveWork_dead h hfailed vchAux
  | askBlock =>
    have hdue : ¬ s.aux.toStatics.due m = true := by simpa [Call.renews] using hrenews
    show askBlock double heapOps m s = _
    rw [askBlock, if_neg hdue]
    exact giveBlock_dead h hfailed
  | backWork how data chain => exact hfailed.elim
  | backBlock hash vchAuxPow => exact hfailed.elim

end Calling

section Running

variable {D M : Type} (double : Double D) (heapOps : HeapOps D)

def start : Mining × Failed := (.init, ⟨false, false⟩)

/-- A call in a run, with what it finds. -/
def step (s : Mining × Failed) (i : Moment D M × Call) : Mining × Failed :=
  ((call double heapOps i.1 i.2 s.1).1, s.2.after double heapOps i.1 i.2 s.1)

def Served (s : Mining × Failed) (i : Moment D M × Call) : Prop :=
  Serves i.1 (i.2.held (step double heapOps s i).1) (step double heapOps s i).1.heap
    (call double heapOps i.1 i.2 s.1).2

/-- Every saved block is one of a template that is held and has not been deleted. -/
def Held (s : Mining × Failed) : Prop :=
  (∀ key p nExtraNonce, s.1.work.mapNewBlock key = some (p, nExtraNonce) →
    p ∈ s.1.work.vNewBlockTemplate ∧ (s.1.heap p).isSome = true) ∧
  ∀ key p, s.1.aux.mapNewBlock key = some p →
    p ∈ s.1.aux.vNewBlockTemplate ∧ (s.1.heap p).isSome = true

def NoSlip (s : Mining × Failed) (i : Moment D M × Call) : Prop := ¬ Slip i.1 s.2 i.2 s.1

theorem Inv.held {s : Mining × Failed} (h : Inv s.1 s.2) : Held s := by
  constructor
  · intro key p nExtraNonce hsaved
    have hp := h.work.saved key _ hsaved
    exact ⟨hp, by simpa [Heap.builtOn] using h.work.live hp⟩
  · intro key p hsaved
    have hp := h.aux.saved key _ hsaved
    exact ⟨hp, by simpa [Heap.builtOn] using h.aux.live hp⟩

theorem step_inv (s : Mining × Failed) (i : Moment D M × Call) (h : Inv s.1 s.2) :
    Inv (step double heapOps s i).1 (step double heapOps s i).2 := by
  by_cases hslip : Slip i.1 s.2 i.2 s.1
  · have hcall : call double heapOps i.1 i.2 s.1 = (s.1, .fault) := (call_slip h hslip).1
    have hafter : s.2.after double heapOps i.1 i.2 s.1 = s.2 := (call_slip h hslip).2
    have hstep : step double heapOps s i = s := by
      unfold step
      rw [hcall, hafter]
    rwa [hstep]
  · exact (call_spec h hslip).1

theorem served_iff {s : Mining × Failed} (i : Moment D M × Call) (h : Inv s.1 s.2) :
    Served double heapOps s i ↔ NoSlip s i := by
  constructor
  · intro hserved hslip
    unfold Served at hserved
    rw [(call_slip h hslip).1] at hserved
    exact hserved
  · intro hslip
    exact (call_spec h hslip).2

/-- In a run from the start, every call is served exactly when none asks for work after a failed
attempt without making a new one; and then every saved block is held. -/
theorem templates_live (calls : List (Moment D M × Call)) :
    (EachStep (step double heapOps) (Served double heapOps) start calls ↔
      EachStep (step double heapOps) NoSlip start calls) ∧
    (EachStep (step double heapOps) NoSlip start calls →
      Throughout (step double heapOps) Held start calls) := by
  have hinv : Throughout (step double heapOps) (fun s => Inv s.1 s.2) start calls :=
    throughout_of_step (step_inv double heapOps) Inv.init
  have hiff : ∀ (s : Mining × Failed) (i : Moment D M × Call), Inv s.1 s.2 →
      (Served double heapOps s i ↔ NoSlip s i) := fun _ i h => served_iff double heapOps i h
  constructor
  · exact eachStep_congr hiff hinv
  · intro _
    exact hinv.mono fun _ h => h.held

/-- Without an error, the template is there and is built on the best block of the moment. -/
def OnBest (s : Mining × Failed) (i : Moment D M × Call) : Prop :=
  match (call double heapOps i.1 i.2 s.1).2 with
  | .threw | .unknown => True
  | .gave p | .took p _ =>
      ∃ template, (step double heapOps s i).1.heap p = some template ∧
        i.1.chain.pindexBest = some (prevOf template)
  | .fault => False

variable {s : Mining × Failed} {i : Moment D M × Call}

theorem not_onBest_of_fault (h : (call double heapOps i.1 i.2 s.1).2 = .fault) :
    ¬ OnBest double heapOps s i := by
  intro hbest
  rwa [OnBest, h] at hbest

theorem not_onBest_of_took {p : ℕ} {r : Taken} {hash best : Uint256}
    (h : (call double heapOps i.1 i.2 s.1).2 = .took p r)
    (hbuilt : (step double heapOps s i).1.heap.builtOn p = some hash)
    (hbest : i.1.chain.pindexBest = some best) (hne : hash ≠ best) :
    ¬ OnBest double heapOps s i := by
  intro hon
  rw [OnBest, h] at hon
  obtain ⟨template, htemplate, hprev⟩ := hon
  apply hne
  rw [Heap.builtOn, htemplate] at hbuilt
  exact Option.some.inj (hbuilt.symm.trans (hprev.symm.trans hbest))

end Running

section Examples

open ChainRuns (mainIo mainNode listPool genesis genesisHash premineHash)
open MainChain (calm)
open Locator (premineChain)

def intDouble : Double ℤ :=
  ⟨id, (· + ·), (· * ·), (· / ·), fun a b => decide (a = b), fun a b => decide (a < b)⟩

def listHeap : HeapOps ℤ where
  makeHeap _ l := l
  popHeap _ l := l.tail
  pushHeap _ l a := a :: l
  makeHeap_perm _ l := List.Perm.refl l
  popHeap_perm _ _ l := List.Perm.refl l
  pushHeap_perm _ l a := List.Perm.refl (a :: l)

/-- A connected node with an empty pool, and the key that it has for the coinbase. -/
def mainMoment (chain : ChainState (List CTransaction)) (reservedKey : Option (List Byte)) :
    Moment ℤ (List CTransaction) where
  fConnected := true
  fDownloading := false
  around := ⟨(mainIo false).env, 0, 100000, 100000, fun _ => true, fun _ _ _ => true, false⟩
  opts := ⟨250000, 27000, 0, false⟩
  io := (mainIo false).block
  horizon _ _ _ := false
  clock _ := 1405801800
  pool := .empty
  chain := chain
  nTransactionsUpdated := 0
  time := 1405801800
  adjustedTime := 1405801800
  reservedKey := reservedKey
  fProcessed := true
  uninitialised := 0

def genesisChain : ChainState (List CTransaction) :=
  ChainRuns.step (mainNode calm) (.init listPool) (.addToBlockIndex genesis, 2)

/-- Work is asked for when the best block is the genesis block, and there is no key. -/
def askKeyless : Moment ℤ (List CTransaction) × Call :=
  (mainMoment genesisChain none, .askWork [])

def ask : Moment ℤ (List CTransaction) × Call :=
  (mainMoment genesisChain (some [2]), .askWork [])

/-- The work is handed back when the best block is another one. -/
def backLate : Moment ℤ (List CTransaction) × Call :=
  (mainMoment premineChain (some [2]), .backWork "" (List.replicate 128 0) none)

theorem templates_live_late :
    EachStep (step intDouble listHeap) (Served intDouble listHeap) start [ask, backLate] ∧
      Throughout (step intDouble listHeap) Held start [ask, backLate] := by
  have hslip : EachStep (step intDouble listHeap) NoSlip start [ask, backLate] := by
    refine ⟨fun h => ?_, fun h => h.2.2, trivial⟩
    have hrenews : ask.2.renews ask.1 start.1 = true := by decide +kernel
    exact absurd (hrenews.symm.trans h.2.1) (by decide)
  obtain ⟨hiff, hheld⟩ := templates_live intDouble listHeap [ask, backLate]
  exact ⟨hiff.mpr hslip, hheld hslip⟩

theorem templates_not_live :
    ¬ EachStep (step intDouble listHeap) (OnBest intDouble listHeap) start [askKeyless, ask] ∧
      ¬ EachStep (step intDouble listHeap) (OnBest intDouble listHeap) start
        [ask, backLate] := by
  have hfault : (call intDouble listHeap ask.1 ask.2
      (step intDouble listHeap start askKeyless).1).2 = .fault := by decide +kernel
  -- one evaluation for the run
  obtain ⟨htook, hbuilt, hbest⟩ :
      (call intDouble listHeap backLate.1 backLate.2
        (step intDouble listHeap start ask).1).2 = .took 0 (.data [] 0) ∧
      (step intDouble listHeap (step intDouble listHeap start ask)
        backLate).1.heap.builtOn 0 = some genesisHash ∧
      backLate.1.chain.pindexBest = some premineHash := by
    decide +kernel
  constructor
  · exact not_eachStep_second (not_onBest_of_fault _ _ hfault)
  · exact not_eachStep_second (not_onBest_of_took _ _ htook hbuilt hbest (by decide))

end Examples

end UmbrellaLtc.MiningRpc
