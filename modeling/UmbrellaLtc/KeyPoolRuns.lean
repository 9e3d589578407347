import UmbrellaLtc.KeyPool

/-!
Runs of the key pool in which no new record gets the index of a reservation.
-/

namespace UmbrellaLtc.KeyPool

open Codec EvalScript KeyStore Runs

section Invariant

variable {gen : ℕ → CPubKey} {total : ℕ}

/-- The key does not come from a later one of the first `total` generations. -/
def Past (gen : ℕ → CPubKey) (total n : ℕ) (key : CPubKey) : Prop :=
  ∀ m, m < total → gen m = key → m < n

theorem Past.mono {n n' : ℕ} {key : CPubKey} (h : Past gen total n key) (hle : n ≤ n') :
    Past gen total n' key := fun m hm heq => lt_of_lt_of_le (h m hm heq) hle

theorem past_gen (hgen : Set.InjOn gen (Set.Iio total)) {n : ℕ} (hn : n < total) :
    Past gen total (n + 1) (gen n) := by
  intro m hm heq
  rw [hgen hm hn heq]
  exact Nat.lt_succ_self n

theorem Past.ne_gen {n : ℕ} {key : CPubKey} (h : Past gen total n key) (hn : n < total) :
    key ≠ gen n :=
  fun heq => lt_irrefl n (h n hn heq.symm)

/-- The invariant: live indexes have records with keys of their own that nobody has kept. -/
structure Sound (gen : ℕ → CPubKey) (total : ℕ) (s : PoolState) : Prop where
  distinct : (s.outstanding.map Prod.fst).Nodup
  disjoint : ∀ i ∈ s.outstanding.map Prod.fst, i ∉ s.wallet.setKeyPool
  record : ∀ i, s.Live i → ∃ keypool, s.wallet.pool.lookup i = some keypool ∧
    Past gen total s.wallet.nGenerated keypool.vchPubKey ∧ keypool.vchPubKey ∉ s.kept
  oneKey : ∀ i j keypool keypool', s.Live i → s.Live j →
    s.wallet.pool.lookup i = some keypool → s.wallet.pool.lookup j = some keypool' →
    keypool.vchPubKey = keypool'.vchPubKey → i = j
  handed : ∀ i key, (i, some key) ∈ s.outstanding → ∃ keypool,
    s.wallet.pool.lookup i = some keypool ∧ keypool.vchPubKey = key
  keptPast : ∀ key ∈ s.kept, Past gen total s.wallet.nGenerated key
  keptOnce : s.kept.Nodup

theorem Sound.poolKept {s : PoolState} (h : Sound gen total s) : PoolKept s where
  distinct := h.distinct
  disjoint := h.disjoint
  recorded i hi := by
    obtain ⟨keypool, hlookup, -⟩ := h.record i hi
    rw [hlookup]
    rfl
  keptOnce := h.keptOnce

/-- A key that no live record has and that nobody has kept. -/
structure Unused (s : PoolState) (key : CPubKey) : Prop where
  live : ∀ i keypool, s.Live i → s.wallet.pool.lookup i = some keypool → keypool.vchPubKey ≠ key
  kept : key ∉ s.kept

theorem Sound.unused_gen {s : PoolState} (h : Sound gen total s)
    (hn : s.wallet.nGenerated < total) : Unused s (gen s.wallet.nGenerated) where
  live i keypool hi hlookup := by
    obtain ⟨keypool', hlookup', hpast, -⟩ := h.record i hi
    rw [hlookup] at hlookup'
    cases hlookup'
    exact hpast.ne_gen hn
  kept hkey := (h.keptPast _ hkey).ne_gen hn rfl

variable {s : PoolState} {w : CWallet}

/-- More keys may be generated at any time. -/
theorem Sound.generate (h : Sound gen total s) (hset : w.setKeyPool = s.wallet.setKeyPool)
    (hpool : w.pool = s.wallet.pool) (hle : s.wallet.nGenerated ≤ w.nGenerated) :
    Sound gen total { s with wallet := w } := by
  obtain ⟨hdistinct, hdisjoint, hrecord, honeKey, hhanded, hkeptPast, hkeptOnce⟩ := h
  have hlive : ∀ i, PoolState.Live { s with wallet := w } i → s.Live i := by
    intro i hi
    simpa only [PoolState.Live, hset] using hi
  constructor
  · exact hdistinct
  · simpa only [hset] using hdisjoint
  · intro i hi
    obtain ⟨keypool, hlookup, hpast, hkept⟩ := hrecord i (hlive i hi)
    exact ⟨keypool, by rw [hpool]; exact hlookup, hpast.mono hle, hkept⟩
  · intro i j keypool keypool' hi hj hlookup hlookup'
    rw [hpool] at hlookup hlookup'
    exact honeKey i j keypool keypool' (hlive i hi) (hlive j hj) hlookup hlookup'
  · simpa only [hpool] using hhanded
  · exact fun key hkey => (hkeptPast key hkey).mono hle
  · exact hkeptOnce

/-- A new index gets a key that is not in use. -/
theorem Sound.create (h : Sound gen total s) {i : ℤ} {keypool : CKeyPool} {n : ℕ}
    (hlive : ¬ s.Live i) (hunused : Unused s keypool.vchPubKey)
    (hle : s.wallet.nGenerated ≤ n) (hpast : Past gen total n keypool.vchPubKey)
    (hset : w.setKeyPool = insert i s.wallet.setKeyPool)
    (hpool : w.pool = s.wallet.pool.insert i keypool) (hn : w.nGenerated = n) :
    Sound gen total { s with wallet := w } := by
  have hcases : ∀ j, PoolState.Live { s with wallet := w } j → j = i ∨ j ≠ i ∧ s.Live j := by
    intro j hj
    simp only [PoolState.Live, hset, Finset.mem_insert] at hj
    by_cases hji : j = i
    · exact Or.inl hji
    · obtain (heq | hmem) | hout := hj
      · exact absurd heq hji
      · exact Or.inr ⟨hji, Or.inl hmem⟩
      · exact Or.inr ⟨hji, Or.inr hout⟩
  have hself : w.pool.lookup i = some keypool := by
    rw [hpool, AList.lookup_insert]
  have hother : ∀ j, j ≠ i → w.pool.lookup j = s.wallet.pool.lookup j := by
    intro j hj
    rw [hpool, AList.lookup_insert_ne hj]
  constructor
  · exact h.distinct
  · intro j hj hmem
    simp only [hset, Finset.mem_insert] at hmem
    obtain rfl | hmem := hmem
    · exact hlive (Or.inr hj)
    · exact h.disjoint j hj hmem
  · intro j hj
    obtain rfl | ⟨hji, hj⟩ := hcases j hj
    · exact ⟨keypool, hself, hn ▸ hpast, hunused.kept⟩
    · obtain ⟨keypool', hlookup, hpast', hkept⟩ := h.record j hj
      exact ⟨keypool', (hother j hji).trans hlookup, hpast'.mono (hn ▸ hle), hkept⟩
  · intro j k a b hj hk ha hb heq
    obtain rfl | ⟨hji, hj⟩ := hcases j hj
    · obtain rfl | ⟨hki, hk⟩ := hcases k hk
      · rfl
      · rw [hother k hki] at hb
        cases ha.symm.trans hself
        exact absurd heq.symm (hunused.live k b hk hb)
    · rw [hother j hji] at ha
      obtain rfl | ⟨hki, hk⟩ := hcases k hk
      · cases hb.symm.trans hself
        exact absurd heq (hunused.live j a hj ha)
      · rw [hother k hki] at hb
        exact h.oneKey j k a b hj hk ha hb heq
  · intro j key hout
    have hmem : j ∈ s.outstanding.map Prod.fst := List.mem_map_of_mem hout
    have hji : j ≠ i := fun heq => hlive (heq ▸ Or.inr hmem)
    obtain ⟨keypool', hlookup, heq⟩ := h.handed j key hout
    exact ⟨keypool', (hother j hji).trans hlookup, heq⟩
  · exact fun key hkey => (h.keptPast key hkey).mono (hn ▸ hle)
  · exact h.keptOnce

/-- Fewer live indexes whose records are the same. -/
theorem Sound.shrink (h : Sound gen total s) {s' : PoolState}
    (hout : s'.outstanding.Sublist s.outstanding) (hkept : s'.kept = s.kept)
    (hn : s'.wallet.nGenerated = s.wallet.nGenerated)
    (hset : s'.wallet.setKeyPool ⊆ s.wallet.setKeyPool)
    (hpool : ∀ i, s'.Live i → s'.wallet.pool.lookup i = s.wallet.pool.lookup i) :
    Sound gen total s' := by
  have hsub : ∀ i, i ∈ s'.outstanding.map Prod.fst → i ∈ s.outstanding.map Prod.fst :=
    fun i hi => (hout.map Prod.fst).subset hi
  have hlive : ∀ i, s'.Live i → s.Live i := by
    intro i hi
    obtain hmem | hmem := hi
    · exact Or.inl (hset hmem)
    · exact Or.inr (hsub i hmem)
  constructor
  · exact h.distinct.sublist (hout.map Prod.fst)
  · exact fun i hi hmem => h.disjoint i (hsub i hi) (hset hmem)
  · intro i hi
    obtain ⟨keypool, hlookup, hpast, hnot⟩ := h.record i (hlive i hi)
    exact ⟨keypool, (hpool i hi).trans hlookup, hn ▸ hpast, hkept ▸ hnot⟩
  · intro i j a b hi hj ha hb
    rw [hpool i hi] at ha
    rw [hpool j hj] at hb
    exact h.oneKey i j a b (hlive i hi) (hlive j hj) ha hb
  · intro i key hi
    obtain ⟨keypool, hlookup, heq⟩ := h.handed i key (hout.subset hi)
    have hi' : s'.Live i := Or.inr (List.mem_map_of_mem hi)
    exact ⟨keypool, (hpool i hi').trans hlookup, heq⟩
  · rw [hkept, hn]
    exact h.keptPast
  · rw [hkept]
    exact h.keptOnce

/-- An index that changes between the pool and the reservations. -/
theorem Sound.move (h : Sound gen total s) {s' : PoolState} (hkept : s'.kept = s.kept)
    (hn : s'.wallet.nGenerated = s.wallet.nGenerated) (hpool : s'.wallet.pool = s.wallet.pool)
    (hlive : ∀ i, s'.Live i → s.Live i) (hdistinct : (s'.outstanding.map Prod.fst).Nodup)
    (hdisjoint : ∀ i ∈ s'.outstanding.map Prod.fst, i ∉ s'.wallet.setKeyPool)
    (hhanded : ∀ i key, (i, some key) ∈ s'.outstanding → ∃ keypool,
      s.wallet.pool.lookup i = some keypool ∧ keypool.vchPubKey = key) : Sound gen total s' := by
  constructor
  · exact hdistinct
  · exact hdisjoint
  · intro i hi
    rw [hkept, hn, hpool]
    exact h.record i (hlive i hi)
  · intro i j a b hi hj
    rw [hpool]
    exact h.oneKey i j a b (hlive i hi) (hlive j hj)
  · rw [hpool]
    exact hhanded
  · rw [hkept, hn]
    exact h.keptPast
  · rw [hkept]
    exact h.keptOnce

theorem Sound.take (h : Sound gen total s) {i : ℤ} {key : Option CPubKey}
    (hi : i ∈ s.wallet.setKeyPool)
    (hkey : ∀ k, key = some k → ∃ keypool,
      s.wallet.pool.lookup i = some keypool ∧ keypool.vchPubKey = k) :
    Sound gen total { s with
      wallet := { s.wallet with setKeyPool := s.wallet.setKeyPool.erase i }
      outstanding := (i, key) :: s.outstanding } := by
  have hnot : i ∉ s.outstanding.map Prod.fst := fun hmem => h.disjoint i hmem hi
  refine h.move rfl rfl rfl ?_ ?_ ?_ ?_
  · intro j hj
    obtain hmem | hmem := hj
    · exact Or.inl (Finset.mem_of_mem_erase hmem)
    · obtain rfl | hmem := List.mem_cons.mp hmem
      · exact Or.inl hi
      · exact Or.inr hmem
  · exact List.nodup_cons.mpr ⟨hnot, h.distinct⟩
  · intro j hj hmem
    rw [Finset.mem_erase] at hmem
    obtain rfl | hj := List.mem_cons.mp hj
    · exact hmem.1 rfl
    · exact h.disjoint j hj hmem.2
  · intro j k hout
    obtain heq | hout := List.mem_cons.mp hout
    · cases heq
      exact hkey k rfl
    · exact h.handed j k hout

/-- Of a reservation that has ended there is no other one with its index. -/
theorem Sound.not_mem_erase (h : Sound gen total s) {i : ℤ} {key : Option CPubKey}
    (hout : (i, key) ∈ s.outstanding) :
    i ∉ (s.outstanding.erase (i, key)).map Prod.fst := by
  have hperm := (List.perm_cons_erase hout).map Prod.fst
  have hnodup := hperm.nodup_iff.mp h.distinct
  exact (List.nodup_cons.mp hnodup).1

theorem Sound.return (h : Sound gen total s) {i : ℤ} {key : Option CPubKey}
    (hout : (i, key) ∈ s.outstanding) :
    Sound gen total { s with
      wallet := s.wallet.returnKey i
      outstanding := s.outstanding.erase (i, key) } := by
  have hsub : (s.outstanding.erase (i, key)).Sublist s.outstanding := List.erase_sublist
  refine h.move rfl rfl rfl ?_ ?_ ?_ ?_
  · intro j hj
    obtain hmem | hmem := hj
    · obtain rfl | hmem := Finset.mem_insert.mp hmem
      · exact Or.inr (List.mem_map_of_mem hout)
      · exact Or.inl hmem
    · exact Or.inr ((hsub.map Prod.fst).subset hmem)
  · exact h.distinct.sublist (hsub.map Prod.fst)
  · intro j hj hmem
    obtain rfl | hmem := Finset.mem_insert.mp hmem
    · exact h.not_mem_erase hout hj
    · exact h.disjoint j ((hsub.map Prod.fst).subset hj) hmem
  · exact fun j k hj => h.handed j k (hsub.subset hj)

/-- The record goes, and the key with it. -/
theorem Sound.keep (h : Sound gen total s) {i : ℤ} {key : Option CPubKey}
    (hout : (i, key) ∈ s.outstanding) :
    Sound gen total {
      wallet := s.wallet.keepKey i
      outstanding := s.outstanding.erase (i, key)
      kept := key.toList ++ s.kept } := by
  have hsub : (s.outstanding.erase (i, key)).Sublist s.outstanding := List.erase_sublist
  have hlive : s.Live i := Or.inr (List.mem_map_of_mem hout)
  have hset : (s.wallet.keepKey i).setKeyPool = s.wallet.setKeyPool := by
    unfold CWallet.keepKey
    split_ifs <;> rfl
  have hn : (s.wallet.keepKey i).nGenerated = s.wallet.nGenerated := by
    unfold CWallet.keepKey
    split_ifs <;> rfl
  have hother : ∀ j, j ≠ i → (s.wallet.keepKey i).pool.lookup j = s.wallet.pool.lookup j := by
    intro j hj
    unfold CWallet.keepKey
    split_ifs
    · exact AList.lookup_erase_ne hj
    · rfl
  have hgone : ∀ j, j ∈ s.wallet.setKeyPool ∨ j ∈ (s.outstanding.erase (i, key)).map Prod.fst →
      j ≠ i ∧ s.Live j := by
    intro j hj
    obtain hmem | hmem := hj
    · refine ⟨fun heq => ?_, Or.inl hmem⟩
      exact h.disjoint i (List.mem_map_of_mem hout) (heq ▸ hmem)
    · exact ⟨fun heq => h.not_mem_erase hout (heq ▸ hmem),
        Or.inr ((hsub.map Prod.fst).subset hmem)⟩
  -- the key that is kept has its record at the index
  have hkey : ∀ k ∈ key.toList, ∃ keypool, s.wallet.pool.lookup i = some keypool ∧
      keypool.vchPubKey = k := by
    intro k hk
    exact h.handed i k (Option.mem_toList.mp hk ▸ hout)
  constructor
  · exact h.distinct.sublist (hsub.map Prod.fst)
  · intro j hj
    rw [hset]
    exact h.disjoint j ((hsub.map Prod.fst).subset hj)
  · intro j hj
    rw [PoolState.Live, hset] at hj
    obtain ⟨hji, hj⟩ := hgone j hj
    obtain ⟨keypool, hlookup, hpast, hnot⟩ := h.record j hj
    refine ⟨keypool, (hother j hji).trans hlookup, hn ▸ hpast, ?_⟩
    rw [List.mem_append, not_or]
    refine ⟨fun hk => hji ?_, hnot⟩
    obtain ⟨keypool', hlookup', heq⟩ := hkey _ hk
    exact h.oneKey j i keypool keypool' hj hlive hlookup hlookup' heq.symm
  · intro j k a b hj hk ha hb heq
    rw [PoolState.Live, hset] at hj hk
    obtain ⟨hji, hj⟩ := hgone j hj
    obtain ⟨hki, hk⟩ := hgone k hk
    rw [hother j hji] at ha
    rw [hother k hki] at hb
    exact h.oneKey j k a b hj hk ha hb heq
  · intro j k hj
    have hji := (hgone j (Or.inr (List.mem_map_of_mem hj))).1
    obtain ⟨keypool, hlookup, heq⟩ := h.handed j k (hsub.subset hj)
    exact ⟨keypool, (hother j hji).trans hlookup, heq⟩
  · intro k hk
    rw [hn]
    obtain hk | hk := List.mem_append.mp hk
    · obtain ⟨keypool, hlookup, rfl⟩ := hkey k hk
      obtain ⟨keypool', hlookup', hpast, -⟩ := h.record i hlive
      cases hlookup.symm.trans hlookup'
      exact hpast
    · exact h.keptPast k hk
  · cases key with
    | none => exact h.keptOnce
    | some k =>
      refine List.nodup_cons.mpr ⟨?_, h.keptOnce⟩
      obtain ⟨keypool, hlookup, rfl⟩ := hkey k (List.mem_singleton.mpr rfl)
      obtain ⟨keypool', hlookup', -, hnot⟩ := h.record i hlive
      cases hlookup.symm.trans hlookup'
      exact hnot

end Invariant

section Operations

variable {gen : ℕ → CPubKey} {total : ℕ} {crypto : Crypto} {env : Env} {s : PoolState}

theorem le_nextIndex {w : CWallet} {i : ℤ} (hi : i ∈ w.setKeyPool) : i < w.nextIndex := by
  obtain ⟨m, hm⟩ := Finset.max_of_mem hi
  have hle : i ≤ m := Finset.le_max_of_eq hi hm
  rw [CWallet.nextIndex, hm]
  exact Int.lt_add_one_of_le hle

theorem nextIndex_insert {w w' : CWallet}
    (hset : w'.setKeyPool = insert w.nextIndex w.setKeyPool) :
    w'.nextIndex = w.nextIndex + 1 := by
  have hmax : w'.setKeyPool.max = w.nextIndex := by
    apply le_antisymm
    · apply Finset.max_le
      intro i hi
      rw [hset] at hi
      obtain rfl | hi := Finset.mem_insert.mp hi
      · exact le_rfl
      · exact WithBot.coe_le_coe.mpr (le_nextIndex hi).le
    · apply Finset.le_max
      rw [hset]
      exact Finset.mem_insert_self _ _
  rw [CWallet.nextIndex, hmax]
  rfl

/-- No index that TopUpKeyPool comes to in so many rounds belongs to a reservation. -/
def Clear (env : Env) (w : CWallet) (outstanding : List (ℤ × Option CPubKey)) (rounds : ℕ) : Prop :=
  ∀ j : ℕ, j < rounds → (∀ l : ℕ, l ≤ j → env.written (w.nextIndex + l) = true) →
    w.nextIndex + j ∉ outstanding.map Prod.fst

/-- A generated key gets an index that is not live. -/
theorem Sound.addKey (hgen : Set.InjOn gen (Set.Iio total)) {w : CWallet}
    (h : Sound gen total { s with wallet := w }) (hn : w.nGenerated < total) {i : ℤ} (nTime : ℤ)
    (hset : i ∉ w.setKeyPool)
    (hout : i ∉ s.outstanding.map Prod.fst) :
    Sound gen total { s with
      wallet := (w.generateNewKey gen).2.addKey i ⟨nTime, (w.generateNewKey gen).1⟩ } := by
  have hlive : ¬ PoolState.Live { s with wallet := w } i := by
    rintro (hmem | hmem)
    · exact hset hmem
    · exact hout hmem
  exact h.create hlive (h.unused_gen hn) (Nat.le_succ _) (past_gen hgen hn) rfl rfl rfl

theorem topUpLoop_le (rounds : ℕ) (w : CWallet) :
    w.nGenerated ≤ (CWallet.topUpLoop gen env rounds w).2.nGenerated := by
  induction rounds generalizing w with
  | zero => exact le_rfl
  | succ rounds ih =>
    rw [CWallet.topUpLoop]
    dsimp only
    split
    · exact Nat.le_of_succ_le (ih ((w.generateNewKey gen).2.addKey w.nextIndex
        ⟨env.nTime, (w.generateNewKey gen).1⟩))
    · exact Nat.le_succ _

theorem topUpLoop_sound (hgen : Set.InjOn gen (Set.Iio total)) :
    ∀ (rounds : ℕ) {w : CWallet}, Sound gen total { s with wallet := w } →
      (CWallet.topUpLoop gen env rounds w).2.nGenerated ≤ total →
      Clear env w s.outstanding rounds →
      Sound gen total { s with wallet := (CWallet.topUpLoop gen env rounds w).2 } := by
  intro rounds
  induction rounds with
  | zero => exact fun h _ _ => h
  | succ rounds ih =>
    intro w h htotal hclear
    rw [CWallet.topUpLoop] at htotal ⊢
    dsimp only at htotal ⊢
    split at htotal
    · rename_i hwritten
      have hfirst : w.nextIndex ∉ s.outstanding.map Prod.fst := by
        have h0 := hclear 0 (Nat.succ_pos _) fun l hl => by
          rw [Nat.le_zero.mp hl, Nat.cast_zero, add_zero]
          exact hwritten
        rwa [Nat.cast_zero, add_zero] at h0
      have hnew : w.nextIndex ∉ w.setKeyPool := fun hmem => lt_irrefl _ (le_nextIndex hmem)
      have hn : w.nGenerated < total := (topUpLoop_le rounds _).trans htotal
      rw [if_pos hwritten]
      refine ih (h.addKey hgen hn env.nTime hnew hfirst) htotal ?_
      intro j hj hall
      have hnext := @nextIndex_insert w ((w.generateNewKey gen).2.addKey w.nextIndex
        ⟨env.nTime, (w.generateNewKey gen).1⟩) rfl
      rw [hnext] at hall ⊢
      have hstep := hclear (j + 1) (Nat.succ_lt_succ hj) fun l hl => ?_
      · rwa [Nat.cast_succ, add_comm (j : ℤ), ← add_assoc] at hstep
      · cases l with
        | zero =>
          rw [Nat.cast_zero, add_zero]
          exact hwritten
        | succ l =>
          rw [Nat.cast_succ, add_comm (l : ℤ), ← add_assoc]
          exact hall l (Nat.le_of_succ_le_succ hl)
    · rename_i hwritten
      rw [if_neg hwritten]
      exact h.generate rfl rfl (Nat.le_succ _)

theorem topUpKeyPool_nGenerated (hlocked : env.fLocked = false) (w : CWallet) :
    (w.topUpKeyPool gen env).2.nGenerated =
      (CWallet.topUpLoop gen env (w.missing env) w).2.nGenerated := by
  unfold CWallet.topUpKeyPool
  simp only [hlocked, Bool.false_eq_true, if_false]
  split
  · rename_i hrun
    rw [hrun]
  · rename_i hrun
    rw [hrun]

theorem topUpKeyPool_le (w : CWallet) : w.nGenerated ≤ (w.topUpKeyPool gen env).2.nGenerated := by
  cases hlocked : env.fLocked with
  | true =>
    rw [CWallet.topUpKeyPool, if_pos hlocked]
  | false =>
    rw [topUpKeyPool_nGenerated hlocked]
    exact topUpLoop_le _ w

theorem topUpKeyPool_sound (hgen : Set.InjOn gen (Set.Iio total)) (h : Sound gen total s)
    (htotal : (s.wallet.topUpKeyPool gen env).2.nGenerated ≤ total)
    (hclear : env.fLocked = false → Clear env s.wallet s.outstanding (s.wallet.missing env)) :
    Sound gen total { s with wallet := (s.wallet.topUpKeyPool gen env).2 } := by
  cases hlocked : env.fLocked with
  | true =>
    rw [CWallet.topUpKeyPool, if_pos hlocked]
    exact h
  | false =>
    rw [topUpKeyPool_nGenerated hlocked] at htotal
    have hloop := topUpLoop_sound hgen _ h htotal (hclear hlocked)
    simp only [CWallet.topUpKeyPool, hlocked, Bool.false_eq_true, if_false]
    split
    · rename_i w hrun
      rw [hrun] at hloop
      exact hloop
    · rename_i w hrun
      rw [hrun] at hloop
      exact hloop

/-- The oldest index leaves the pool, and the call has its record. -/
theorem takeOldest_cases (w : CWallet) :
    (w.takeOldest crypto).1 = .none ∧ (w.takeOldest crypto).2 = w ∨
      ∃ i ∈ w.setKeyPool,
        (w.takeOldest crypto).2 = { w with setKeyPool := w.setKeyPool.erase i } ∧
        ((w.takeOldest crypto).1 = .failed i ∨
          ∃ keypool, w.pool.lookup i = some keypool ∧
            (w.takeOldest crypto).1 = .key i keypool) := by
  unfold CWallet.takeOldest
  split
  · rename_i hne
    refine Or.inr ⟨w.setKeyPool.min' hne, Finset.min'_mem _ hne, ?_⟩
    dsimp only
    split
    · exact ⟨rfl, Or.inl rfl⟩
    · rename_i keypool hlookup
      split
      · exact ⟨rfl, Or.inr ⟨keypool, hlookup, rfl⟩⟩
      · exact ⟨rfl, Or.inl rfl⟩
  · exact Or.inl ⟨rfl, rfl⟩

theorem takeOldest_nGenerated (w : CWallet) :
    (w.takeOldest crypto).2.nGenerated = w.nGenerated := by
  obtain ⟨-, hw⟩ | ⟨i, -, hw, -⟩ := @takeOldest_cases crypto w
  · rw [hw]
  · rw [hw]

theorem reserve_nGenerated (w : CWallet) :
    (w.reserveKeyFromKeyPool gen crypto env).2.nGenerated =
      (w.topUpKeyPool gen env).2.nGenerated := by
  unfold CWallet.reserveKeyFromKeyPool
  split
  · rename_i hrun
    rw [hrun]
  · rename_i hrun
    rw [hrun, takeOldest_nGenerated]

/-- What ReserveKeyFromKeyPool leaves, as it ends. -/
theorem reserve_cases (hgen : Set.InjOn gen (Set.Iio total)) (h : Sound gen total s)
    (hclear : env.fLocked = false → Clear env s.wallet s.outstanding (s.wallet.missing env))
    {reserved : Reserved} {w : CWallet}
    (hrun : s.wallet.reserveKeyFromKeyPool gen crypto env = (reserved, w))
    (htotal : w.nGenerated ≤ total) :
    match reserved with
    | .threw => Sound gen total { s with wallet := w }
    | .none => Sound gen total { s with wallet := w }
    | .failed i => Sound gen total { s with wallet := w, outstanding := (i, none) :: s.outstanding }
    | .key i keypool =>
        Sound gen total { s with
          wallet := w, outstanding := (i, some keypool.vchPubKey) :: s.outstanding } := by
  have hn := congrArg (fun r : Reserved × CWallet => r.2.nGenerated) hrun
  rw [reserve_nGenerated] at hn
  have htop := topUpKeyPool_sound hgen h (hn.trans_le htotal) hclear
  unfold CWallet.reserveKeyFromKeyPool at hrun
  split at hrun
  · rename_i w' hw'
    rw [hw'] at htop
    cases hrun
    exact htop
  · rename_i w' hw'
    rw [hw'] at htop
    obtain ⟨hnone, hsame⟩ | ⟨i, hi, hw, hcases⟩ := @takeOldest_cases crypto w'
    · rw [hrun] at hnone hsame
      cases hnone
      cases hsame
      exact htop
    · rw [hrun] at hw hcases
      cases hw
      obtain hfailed | ⟨keypool, hlookup, hkey⟩ := hcases
      · cases hfailed
        exact htop.take hi nofun
      · cases hkey
        refine htop.take hi fun k hk => ⟨keypool, hlookup, Option.some.inj hk⟩

theorem lookup_foldl_erase {pool : AList fun _ : ℤ => CKeyPool} {l : List ℤ} {i : ℤ}
    (hi : i ∉ l) : (l.foldl (fun pool j => pool.erase j) pool).lookup i = pool.lookup i := by
  induction l generalizing pool with
  | nil => rfl
  | cons j l ih =>
    rw [List.mem_cons, not_or] at hi
    rw [List.foldl_cons, ih hi.2, AList.lookup_erase_ne hi.1]

theorem Sound.clear (h : Sound gen total s) :
    Sound gen total { s with wallet := s.wallet.clear } := by
  refine h.shrink (List.Sublist.refl _) rfl rfl (Finset.empty_subset _) ?_
  intro i hi
  obtain hmem | hmem := hi
  · cases hmem
  · apply lookup_foldl_erase
    rw [Finset.mem_sort]
    exact h.disjoint i hmem

theorem newKey_nGenerated (w : CWallet) (i : ℕ) :
    (w.newKey gen env i).nGenerated = w.nGenerated + 1 := by
  simp only [CWallet.newKey]
  split <;> rfl

theorem newKeyPool_le (w : CWallet) : w.nGenerated ≤ (w.newKeyPool gen env).2.nGenerated := by
  have hloop : ∀ n : ℕ, w.nGenerated ≤
      ((List.range n).foldl (CWallet.newKey gen env) w.clear).nGenerated := by
    intro n
    induction n with
    | zero => exact le_rfl
    | succ n ih =>
      rw [List.range_succ, List.foldl_append, List.foldl_cons, List.foldl_nil, newKey_nGenerated]
      exact Nat.le_succ_of_le ih
  unfold CWallet.newKeyPool
  split
  · exact le_rfl
  · exact hloop _

/-- After so many rounds the pool has the indexes up to there. -/
theorem newKeyLoop_sound (hgen : Set.InjOn gen (Set.Iio total)) {w : CWallet}
    (h : Sound gen total { s with wallet := w }) (hempty : w.setKeyPool = ∅) :
    ∀ n : ℕ, ((List.range n).foldl (CWallet.newKey gen env) w).nGenerated ≤ total →
      (∀ i : ℕ, i < n → env.written (i + 1) = true ∧ (i + 1 : ℤ) ∉ s.outstanding.map Prod.fst) →
      Sound gen total { s with wallet := (List.range n).foldl (CWallet.newKey gen env) w } ∧
        ∀ i ∈ ((List.range n).foldl (CWallet.newKey gen env) w).setKeyPool, i ≤ n := by
  intro n
  induction n with
  | zero =>
    intro _ _
    refine ⟨h, fun i hi => ?_⟩
    simp [hempty] at hi
  | succ n ih =>
    intro htotal hclear
    rw [List.range_succ, List.foldl_append, List.foldl_cons, List.foldl_nil] at htotal ⊢
    rw [newKey_nGenerated] at htotal
    obtain ⟨hsound, hle⟩ := ih (Nat.le_of_succ_le htotal) fun i hi => hclear i (Nat.lt_succ_of_lt hi)
    obtain ⟨hwritten, hout⟩ := hclear n (Nat.lt_succ_self n)
    generalize (List.range n).foldl (CWallet.newKey gen env) w = w' at htotal hsound hle ⊢
    have hround : w'.newKey gen env n = (w'.generateNewKey gen).2.addKey (n + 1)
        ⟨env.nTime, (w'.generateNewKey gen).1⟩ := by
      simp only [CWallet.newKey, hwritten, if_true]
    have hnew : (n + 1 : ℤ) ∉ w'.setKeyPool := by
      intro hmem
      have hbound := hle _ hmem
      omega
    rw [hround]
    refine ⟨hsound.addKey hgen htotal env.nTime hnew hout, fun i hi => ?_⟩
    obtain rfl | hi := Finset.mem_insert.mp hi
    · push_cast
      exact le_rfl
    · have hbound := hle i hi
      push_cast
      omega

theorem newKeyPool_sound (hgen : Set.InjOn gen (Set.Iio total)) (h : Sound gen total s)
    (htotal : (s.wallet.newKeyPool gen env).2.nGenerated ≤ total)
    (hclear : env.fLocked = false → ∀ i : ℕ, i < (max env.nKeypool 0).toNat →
      env.written (i + 1) = true ∧ (i + 1 : ℤ) ∉ s.outstanding.map Prod.fst) :
    Sound gen total { s with wallet := (s.wallet.newKeyPool gen env).2 } := by
  unfold CWallet.newKeyPool at htotal ⊢
  cases hlocked : env.fLocked with
  | true => exact h.clear
  | false =>
    rw [hlocked] at htotal
    exact (newKeyLoop_sound hgen h.clear rfl _ htotal (hclear hlocked)).1

theorem addReserveKey_sound (h : Sound gen total s) {keypool : CKeyPool} {w : CWallet}
    {r : Option ℤ} (hrun : s.wallet.addReserveKey env keypool = some (r, w))
    (hclear : env.written s.wallet.nextIndex = true →
      s.wallet.nextIndex ∉ s.outstanding.map Prod.fst ∧ Unused s keypool.vchPubKey ∧
        Past gen total s.wallet.nGenerated keypool.vchPubKey) :
    Sound gen total { s with wallet := w } := by
  unfold CWallet.addReserveKey at hrun
  split at hrun
  · cases hrun
  · split at hrun
    · rename_i hwritten
      cases hrun
      obtain ⟨hout, hunused, hpast⟩ := hclear hwritten
      have hlive : ¬ s.Live s.wallet.nextIndex := by
        rintro (hmem | hmem)
        · exact lt_irrefl _ (le_nextIndex hmem)
        · exact hout hmem
      exact h.create hlive hunused le_rfl hpast rfl rfl rfl
    · cases hrun
      exact h

theorem getKeyFromPool_le (w : CWallet) (fAllowReuse : Bool) :
    (w.reserveKeyFromKeyPool gen crypto env).2.nGenerated ≤
      (w.getKeyFromPool gen crypto env fAllowReuse).2.nGenerated := by
  unfold CWallet.getKeyFromPool
  split
  · rename_i hrun
    rw [hrun]
  · rename_i hrun
    rw [hrun]
  · rename_i hrun
    rw [hrun]
    split
    · exact le_rfl
    · split
      · exact le_rfl
      · exact Nat.le_succ _
  · rename_i nIndex keypool w' hrun
    rw [hrun, CWallet.keepKey]
    split <;> exact le_rfl

/-- A reservation that is kept at once. -/
theorem getKeyFromPool_sound (hgen : Set.InjOn gen (Set.Iio total)) (h : Sound gen total s)
    (hclear : env.fLocked = false → Clear env s.wallet s.outstanding (s.wallet.missing env))
    {fAllowReuse : Bool}
    (htotal : (s.wallet.getKeyFromPool gen crypto env fAllowReuse).2.nGenerated ≤ total) :
    Sound gen total (PoolCall.perform gen crypto s (.getKeyFromPool env fAllowReuse)) := by
  have hle := (getKeyFromPool_le s.wallet fAllowReuse).trans htotal
  rcases hrun : s.wallet.reserveKeyFromKeyPool gen crypto env with ⟨reserved, w⟩
  rw [hrun] at hle
  have hcases := reserve_cases hgen h hclear hrun hle
  simp only [PoolCall.perform, CWallet.getKeyFromPool, hrun]
  cases reserved with
  | threw => exact hcases
  | none =>
    dsimp only at hcases ⊢
    split
    · exact hcases
    · split
      · exact hcases
      · exact hcases.generate rfl rfl (Nat.le_succ _)
  | failed i =>
    refine Sound.shrink hcases (List.sublist_cons_self _ _) rfl rfl (Finset.Subset.refl _) ?_
    exact fun _ _ => rfl
  | key i keypool =>
    have hkeep := hcases.keep (List.mem_cons_self)
    rw [List.erase_cons_head] at hkeep
    exact hkeep

end Operations

section Runs

variable (gen : ℕ → CPubKey) (total : ℕ) (crypto : Crypto)

/-- The callers keep and return what they have reserved. -/
def PoolCall.Proper (s : PoolState) : PoolCall → Prop
  | keepKey nIndex key => (nIndex, key) ∈ s.outstanding
  | returnKey nIndex key => (nIndex, key) ∈ s.outstanding
  | _ => True

/-- No record is made under the index of a reservation, or with a key that is in use, and none
that NewKeyPool makes is lost. -/
def PoolCall.Safe (s : PoolState) : PoolCall → Prop
  | topUpKeyPool env =>
      env.fLocked = false → Clear env s.wallet s.outstanding (s.wallet.missing env)
  | newKeyPool env =>
      env.fLocked = false → ∀ i : ℕ, i < (max env.nKeypool 0).toNat →
        env.written (i + 1) = true ∧ (i + 1 : ℤ) ∉ s.outstanding.map Prod.fst
  | reserveKeyFromKeyPool env =>
      env.fLocked = false → Clear env s.wallet s.outstanding (s.wallet.missing env)
  | getKeyFromPool env _ =>
      env.fLocked = false → Clear env s.wallet s.outstanding (s.wallet.missing env)
  | addReserveKey env keypool =>
      s.wallet.setKeyPool ≠ ∅ ∧ (env.written s.wallet.nextIndex = true →
        s.wallet.nextIndex ∉ s.outstanding.map Prod.fst ∧ Unused s keypool.vchPubKey ∧
          Past gen total s.wallet.nGenerated keypool.vchPubKey)
  | _ => True

variable {gen total crypto}

theorem perform_le (s : PoolState) (call : PoolCall) :
    s.wallet.nGenerated ≤ (call.perform gen crypto s).wallet.nGenerated := by
  have hreserve : ∀ env, s.wallet.nGenerated ≤
      (s.wallet.reserveKeyFromKeyPool gen crypto env).2.nGenerated := by
    intro env
    rw [reserve_nGenerated]
    exact topUpKeyPool_le s.wallet
  cases call with
  | topUpKeyPool env => exact topUpKeyPool_le s.wallet
  | newKeyPool env => exact newKeyPool_le s.wallet
  | reserveKeyFromKeyPool env =>
    have hle := hreserve env
    simp only [PoolCall.perform]
    split <;> exact hle
  | keepKey nIndex key =>
    simp only [PoolCall.perform, CWallet.keepKey]
    split <;> exact le_rfl
  | returnKey nIndex key => exact le_rfl
  | addReserveKey env keypool =>
    simp only [PoolCall.perform, CWallet.addReserveKey]
    split
    · exact le_rfl
    · split <;> exact le_rfl
  | getKeyFromPool env fAllowReuse =>
    have hle := (hreserve env).trans (getKeyFromPool_le s.wallet fAllowReuse)
    simp only [PoolCall.perform]
    split <;> exact hle

theorem perform_sound (hgen : Set.InjOn gen (Set.Iio total)) {s : PoolState} {call : PoolCall}
    (h : Sound gen total s) (hproper : call.Proper s) (hsafe : call.Safe gen total s)
    (htotal : (call.perform gen crypto s).wallet.nGenerated ≤ total) :
    Sound gen total (call.perform gen crypto s) := by
  cases call with
  | topUpKeyPool env => exact topUpKeyPool_sound hgen h htotal hsafe
  | newKeyPool env => exact newKeyPool_sound hgen h htotal hsafe
  | reserveKeyFromKeyPool env =>
    rcases hrun : s.wallet.reserveKeyFromKeyPool gen crypto env with ⟨reserved, w⟩
    simp only [PoolCall.perform, hrun] at htotal ⊢
    cases reserved with
    | threw => exact reserve_cases hgen h hsafe hrun htotal
    | none => exact reserve_cases hgen h hsafe hrun htotal
    | failed i => exact reserve_cases hgen h hsafe hrun htotal
    | key i keypool => exact reserve_cases hgen h hsafe hrun htotal
  | keepKey nIndex key => exact h.keep hproper
  | returnKey nIndex key => exact h.return hproper
  | addReserveKey env keypool =>
    simp only [PoolCall.perform]
    cases hrun : s.wallet.addReserveKey env keypool with
    | none => exact h
    | some r => exact addReserveKey_sound h hrun hsafe.2
  | getKeyFromPool env fAllowReuse =>
    refine getKeyFromPool_sound hgen h hsafe ?_
    simp only [PoolCall.perform] at htotal
    split at htotal <;> exact htotal

theorem run_le (calls : List PoolCall) (s : PoolState) :
    s.wallet.nGenerated ≤ (run (PoolCall.perform gen crypto) s calls).wallet.nGenerated := by
  induction calls generalizing s with
  | nil => exact le_rfl
  | cons call calls ih => exact (perform_le s call).trans (ih _)

theorem run_kept (hgen : Set.InjOn gen (Set.Iio total)) {calls : List PoolCall} {s : PoolState}
    (h : Sound gen total s)
    (hcalls : EachStep (PoolCall.perform gen crypto)
      (fun s call => call.Proper s ∧ call.Safe gen total s) s calls)
    (htotal : (run (PoolCall.perform gen crypto) s calls).wallet.nGenerated ≤ total) :
    Throughout (PoolCall.perform gen crypto) PoolKept s calls := by
  induction calls generalizing s with
  | nil => exact h.poolKept
  | cons call calls ih =>
    obtain ⟨⟨hproper, hsafe⟩, hrest⟩ := hcalls
    have hle := (run_le calls _).trans htotal
    exact ⟨h.poolKept, ih (perform_sound hgen h hproper hsafe hle) hrest htotal⟩

/-- Of a wallet in order without reservations, whose keys are generated but once, the pool is
kept throughout a run in which no new record meets a reservation. -/
theorem pool_kept_throughout {w : CWallet} {calls : List PoolCall}
    (htotal : total = (run (PoolCall.perform gen crypto) ⟨w, [], []⟩ calls).wallet.nGenerated)
    (hgen : Set.InjOn gen (Set.Iio total)) (hstart : Sound gen total ⟨w, [], []⟩)
    (hcalls : EachStep (PoolCall.perform gen crypto)
      (fun s call => call.Proper s ∧ call.Safe gen total s) ⟨w, [], []⟩ calls) :
    Throughout (PoolCall.perform gen crypto) PoolKept ⟨w, [], []⟩ calls :=
  run_kept hgen hstart hcalls htotal.ge

def emptyWallet : CWallet := ⟨∅, ∅, [], 0, CPubKey.invalid, true⟩

theorem sound_empty : Sound gen total ⟨emptyWallet, [], []⟩ := by
  have hdead : ∀ i, ¬ PoolState.Live ⟨emptyWallet, [], []⟩ i := by
    rintro i (hmem | hmem)
    · cases hmem
    · cases hmem
  exact ⟨List.nodup_nil, nofun, fun i hi => absurd hi (hdead i),
    fun i _ _ _ hi => absurd hi (hdead i), nofun, nofun, List.nodup_nil⟩

def demoGen (n : ℕ) : CPubKey := CPubKey.set (2 :: leBytes 32 n)

theorem demoGen_injOn : Set.InjOn demoGen (Set.Iio 3) := by
  have hall : ∀ m < 3, ∀ n < 3, demoGen m = demoGen n → m = n := by decide
  exact fun m hm n hn => hall m hm n hn

def demoEnv (nKeypool : ℤ) : Env := ⟨nKeypool, false, 1405801325, fun _ => true⟩

/-- Two reservations, of which one is returned and taken by GetKeyFromPool, and one kept. -/
def demoPoolCalls : List PoolCall :=
  [.reserveKeyFromKeyPool (demoEnv 1), .reserveKeyFromKeyPool (demoEnv 1),
    .returnKey 1 (some (demoGen 0)), .getKeyFromPool (demoEnv 1) false,
    .keepKey 2 (some (demoGen 1))]

theorem pool_kept_demo :
    Throughout (PoolCall.perform demoGen demoCrypto.toCrypto) PoolKept ⟨emptyWallet, [], []⟩
      demoPoolCalls := by
  refine @pool_kept_throughout demoGen 3 _ emptyWallet _ (by decide) demoGen_injOn
    sound_empty ?_
  refine ⟨⟨trivial, fun _ => ?_⟩, ⟨trivial, fun _ => ?_⟩, ⟨?_, trivial⟩, ⟨trivial, fun _ => ?_⟩,
    ⟨?_, trivial⟩, trivial⟩
  · unfold Clear
    decide
  · unfold Clear
    decide
  · unfold PoolCall.Proper
    decide
  · unfold Clear
    decide
  · unfold PoolCall.Proper
    decide

/-- Two reservations from a pool of size zero have one index; the key of the second one is
given again when the first one is returned. -/
def drainedCalls : List PoolCall :=
  [.reserveKeyFromKeyPool (demoEnv 0), .reserveKeyFromKeyPool (demoEnv 0),
    .returnKey 1 (some (demoGen 0)), .reserveKeyFromKeyPool (demoEnv 0),
    .keepKey 1 (some (demoGen 1)), .keepKey 1 (some (demoGen 1))]

theorem pool_not_kept :
    EachStep (PoolCall.perform demoGen demoCrypto.toCrypto) (fun s call => call.Proper s)
        ⟨emptyWallet, [], []⟩ drainedCalls ∧
      ¬ Throughout (PoolCall.perform demoGen demoCrypto.toCrypto) PoolKept ⟨emptyWallet, [], []⟩
        drainedCalls := by
  have hkept : (run (PoolCall.perform demoGen demoCrypto.toCrypto) ⟨emptyWallet, [], []⟩
      drainedCalls).kept = [demoGen 1, demoGen 1] := by decide
  refine ⟨⟨trivial, trivial, ?_, trivial, ?_, ?_, trivial⟩, fun h => ?_⟩
  · unfold PoolCall.Proper
    decide
  · unfold PoolCall.Proper
    decide
  · unfold PoolCall.Proper
    decide
  · have honce := h.last.keptOnce
    rw [hkept] at honce
    exact (List.nodup_cons.mp honce).1 List.mem_cons_self

end Runs

end UmbrellaLtc.KeyPool
