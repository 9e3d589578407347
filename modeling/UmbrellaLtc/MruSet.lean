import UmbrellaLtc.Runs
import Mathlib.Data.Finset.Basic

/-!
The set of mruset.h, which keeps the most recent elements. The elements stand in a queue as
well, in the order in which they came in; an insertion into a full set and a smaller maximum
evict from its front. What has come in is at all times what was evicted, in the same order,
followed by the queue.
-/

namespace UmbrellaLtc.MruSet

open Runs

variable {T : Type} [DecidableEq T]

structure Mruset (T : Type) where
  set : Finset T
  queue : List T
  nMaxSize : ℕ

def Mruset.new (nMaxSizeIn : ℕ) : Mruset T := ⟨∅, [], nMaxSizeIn⟩

/-- `set.erase(queue.front()); queue.pop_front();`, which the code does on a queue with
elements only. -/
def Mruset.evictFront (s : Mruset T) : Mruset T :=
  match s.queue with
  | [] => s
  | front :: rest => { s with set := s.set.erase front, queue := rest }

/-- The set afterwards, and whether the element was inserted. -/
def Mruset.insert (s : Mruset T) (x : T) : Mruset T × Bool :=
  if x ∈ s.set then (s, false)
  else
    let s := { s with set := Insert.insert x s.set }
    let s := if s.nMaxSize ≠ 0 ∧ s.queue.length = s.nMaxSize then s.evictFront else s
    ({ s with queue := s.queue ++ [x] }, true)

/-- `while (queue.size() > s)`, along the queue. -/
def evictAbove (s : ℕ) : Finset T → List T → Finset T × List T
  | set, [] => (set, [])
  | set, front :: rest =>
      if s < rest.length + 1 then evictAbove s (set.erase front) rest else (set, front :: rest)

def Mruset.maxSize (m : Mruset T) (s : ℕ) : Mruset T :=
  if s ≠ 0 then
    let (set, queue) := evictAbove s m.set m.queue
    ⟨set, queue, s⟩
  else { m with nMaxSize := s }

inductive Call (T : Type) where
  | insert (x : T)
  | maxSize (s : ℕ)
deriving DecidableEq

/-- The set, with the elements that calls of insert reported as new and those that left the
set, both in their order. -/
structure History (T : Type) where
  mru : Mruset T
  admitted : List T
  evicted : List T

def History.start (nMaxSizeIn : ℕ) : History T := ⟨Mruset.new nMaxSizeIn, [], []⟩

def Call.apply (m : Mruset T) : Call T → Mruset T × List T
  | .insert x => ((m.insert x).1, if (m.insert x).2 then [x] else [])
  | .maxSize s => (m.maxSize s, [])

def History.step (h : History T) (c : Call T) : History T where
  mru := (c.apply h.mru).1
  admitted := h.admitted ++ (c.apply h.mru).2
  evicted := h.evicted ++ h.mru.queue.filter fun y => y ∉ (c.apply h.mru).1.set

/-- How many of `k` elements the maximum leaves; the maximum 0 leaves all of them. -/
def kept (nMaxSize k : ℕ) : ℕ := if nMaxSize = 0 then k else min nMaxSize k

/-- The last elements of a list, as many as the maximum leaves. -/
def keepLast (nMaxSize : ℕ) (l : List T) : List T := l.drop (l.length - kept nMaxSize l.length)

theorem kept_le (nMaxSize k : ℕ) : kept nMaxSize k ≤ k := by
  unfold kept
  split_ifs
  · exact Nat.le_refl k
  · exact Nat.min_le_right _ _

omit [DecidableEq T] in
theorem keepLast_length (nMaxSize : ℕ) (l : List T) :
    (keepLast nMaxSize l).length = kept nMaxSize l.length := by
  have hle := kept_le nMaxSize l.length
  unfold keepLast
  rw [List.length_drop]
  omega

omit [DecidableEq T] in
theorem keepLast_of_le {nMaxSize : ℕ} {l : List T} (h : nMaxSize = 0 ∨ l.length ≤ nMaxSize) :
    keepLast nMaxSize l = l := by
  have hkept : kept nMaxSize l.length = l.length := by
    unfold kept
    split_ifs <;> omega
  unfold keepLast
  rw [hkept, Nat.sub_self]
  rfl

omit [DecidableEq T] in
/-- Elements that were dropped before are dropped all the more with others behind them. -/
theorem keepLast_append (nMaxSize : ℕ) (l later : List T) :
    keepLast nMaxSize (keepLast nMaxSize l ++ later) = keepLast nMaxSize (l ++ later) := by
  have hlength := keepLast_length nMaxSize l
  have hle := kept_le nMaxSize l.length
  unfold keepLast at hlength ⊢
  rw [← List.drop_append_of_le_length (by omega), List.drop_drop]
  congr 1
  simp only [List.length_drop, List.length_append]
  unfold kept
  split_ifs <;> omega

/-- What every call keeps. -/
structure Sound (h : History T) : Prop where
  same : ∀ x, x ∈ h.mru.set ↔ x ∈ h.mru.queue
  nodup : h.mru.queue.Nodup
  bounded : 0 < h.mru.nMaxSize → h.mru.queue.length ≤ h.mru.nMaxSize
  fifo : h.admitted = h.evicted ++ h.mru.queue

theorem evictAbove_spec (s : ℕ) (set : Finset T) (queue : List T)
    (hsame : ∀ x, x ∈ set ↔ x ∈ queue) (hnodup : queue.Nodup) :
    (∀ x, x ∈ (evictAbove s set queue).1 ↔ x ∈ (evictAbove s set queue).2) ∧
      (evictAbove s set queue).2 = queue.drop (queue.length - s) := by
  induction queue generalizing set with
  | nil => exact ⟨hsame, List.drop_nil.symm⟩
  | cons front rest ih =>
    obtain ⟨hfront, hrest⟩ := List.nodup_cons.mp hnodup
    unfold evictAbove
    split_ifs with hlong
    · have herased : ∀ x, x ∈ set.erase front ↔ x ∈ rest := by
        intro x
        rw [Finset.mem_erase, hsame x, List.mem_cons]
        constructor
        · intro ⟨hne, hmem⟩
          exact hmem.resolve_left hne
        · intro hmem
          exact ⟨fun heq => hfront (heq ▸ hmem), Or.inr hmem⟩
      obtain ⟨hset, hqueue⟩ := ih (set.erase front) herased hrest
      have hdrop : (front :: rest).length - s = rest.length - s + 1 := by
        rw [List.length_cons]
        omega
      exact ⟨hset, by rw [hqueue, hdrop, List.drop_succ_cons]⟩
    · have hdrop : (front :: rest).length - s = 0 := by
        rw [List.length_cons]
        omega
      exact ⟨hsame, by rw [hdrop]; rfl⟩

/-- The queue after a call, by the last elements of the queue before it. -/
theorem Sound.maxSize_spec {h : History T} (hsound : Sound h) (s : ℕ) :
    (∀ x, x ∈ (h.mru.maxSize s).set ↔ x ∈ (h.mru.maxSize s).queue) ∧
      (h.mru.maxSize s).queue = keepLast s h.mru.queue ∧ (h.mru.maxSize s).nMaxSize = s := by
  obtain ⟨hset, hqueue⟩ := evictAbove_spec s h.mru.set h.mru.queue hsound.same hsound.nodup
  unfold Mruset.maxSize
  by_cases hzero : s = 0
  · rw [if_neg (by omega)]
    exact ⟨hsound.same, (keepLast_of_le (Or.inl hzero)).symm, rfl⟩
  · have hdrop : h.mru.queue.length - kept s h.mru.queue.length = h.mru.queue.length - s := by
      unfold kept
      rw [if_neg hzero]
      omega
    rw [if_pos hzero]
    unfold keepLast
    rw [hdrop]
    exact ⟨hset, hqueue, rfl⟩

theorem insert_of_mem {m : Mruset T} {x : T} (hx : x ∈ m.set) : m.insert x = (m, false) :=
  if_pos hx

theorem Sound.insert_spec {h : History T} (hsound : Sound h) {x : T} (hx : x ∉ h.mru.set) :
    (h.mru.insert x).2 = true ∧
      (∀ y, y ∈ (h.mru.insert x).1.set ↔ y ∈ (h.mru.insert x).1.queue) ∧
      (h.mru.insert x).1.queue = keepLast h.mru.nMaxSize (h.mru.queue ++ [x]) ∧
      (h.mru.insert x).1.nMaxSize = h.mru.nMaxSize := by
  have hnew : x ∉ h.mru.queue := mt (hsound.same x).mpr hx
  unfold Mruset.insert
  rw [if_neg hx]
  dsimp only
  split_ifs with hfull
  · obtain ⟨hpos, hlen⟩ := hfull
    cases hq : h.mru.queue with
    | nil =>
      rw [hq] at hlen
      exact absurd hlen.symm hpos
    | cons front rest =>
      have hnodup := hsound.nodup
      rw [hq] at hlen hnew hnodup
      obtain ⟨hfront, -⟩ := List.nodup_cons.mp hnodup
      have hdrop : (front :: rest ++ [x]).length -
          kept h.mru.nMaxSize (front :: rest ++ [x]).length = 1 := by
        unfold kept
        rw [List.length_append, List.length_singleton, if_neg hpos]
        omega
      simp only [Mruset.evictFront]
      refine ⟨trivial, ?_, ?_, trivial⟩
      · intro y
        rw [Finset.mem_erase, Finset.mem_insert, hsound.same, hq, List.mem_append,
          List.mem_singleton, List.mem_cons]
        constructor
        · intro ⟨hne, hmem⟩
          exact hmem.symm.imp_left fun hold => hold.resolve_left hne
        · intro hmem
          rcases hmem with hold | rfl
          · exact ⟨fun heq => hfront (heq ▸ hold), Or.inr (Or.inr hold)⟩
          · exact ⟨fun heq => hnew (heq ▸ List.mem_cons_self), Or.inl rfl⟩
      · unfold keepLast
        rw [hdrop]
        rfl
  · refine ⟨rfl, ?_, ?_, rfl⟩
    · intro y
      rw [Finset.mem_insert, hsound.same, List.mem_append, List.mem_singleton]
      exact Or.comm
    · apply Eq.symm (keepLast_of_le _)
      rw [List.length_append, List.length_singleton]
      have hbound := hsound.bounded
      by_cases hzero : h.mru.nMaxSize = 0
      · exact Or.inl hzero
      · have hne : h.mru.queue.length ≠ h.mru.nMaxSize := fun heq => hfull ⟨hzero, heq⟩
        have hle := hbound (Nat.pos_of_ne_zero hzero)
        exact Or.inr (Nat.lt_of_le_of_ne hle hne)

/-- The elements that leave are those that are not kept. -/
theorem filter_dropped {queue new : List T} (hnodup : (queue ++ new).Nodup) {d : ℕ}
    (hd : d ≤ queue.length) :
    queue.filter (fun y => y ∉ (queue ++ new).drop d) = queue.take d := by
  have hdrop : (queue ++ new).drop d = queue.drop d ++ new := List.drop_append_of_le_length hd
  conv_lhs =>
    arg 2
    rw [← List.take_append_drop d queue]
  rw [List.filter_append, hdrop]
  have hsplit : (queue.take d ++ (queue.drop d ++ new)).Nodup := by
    rw [← List.append_assoc, List.take_append_drop]
    exact hnodup
  have hdisjoint := List.disjoint_of_nodup_append hsplit
  have hleave : (queue.take d).filter (fun y => y ∉ queue.drop d ++ new) = queue.take d := by
    apply List.filter_eq_self.mpr
    intro y hy
    exact decide_eq_true (hdisjoint hy)
  have hstay : (queue.drop d).filter (fun y => y ∉ queue.drop d ++ new) = [] := by
    apply List.filter_eq_nil_iff.mpr
    intro y hy
    simp [hy]
  rw [hleave, hstay, List.append_nil]

/-- A call that admits some elements and keeps the last ones of the queue and these. -/
theorem Sound.keep {h : History T} (hsound : Sound h) {m : Mruset T} {new : List T}
    (hsame : ∀ x, x ∈ m.set ↔ x ∈ m.queue) (hnodup : (h.mru.queue ++ new).Nodup)
    (hqueue : m.queue = keepLast m.nMaxSize (h.mru.queue ++ new))
    (hfits : m.nMaxSize = 0 ∨ new.length ≤ m.nMaxSize) :
    Sound ⟨m, h.admitted ++ new, h.evicted ++ h.mru.queue.filter fun y => y ∉ m.set⟩ where
  same := hsame
  nodup := by
    show m.queue.Nodup
    rw [hqueue]
    exact hnodup.sublist (List.drop_sublist _ _)
  bounded hpos := by
    show m.queue.length ≤ m.nMaxSize
    rw [hqueue, keepLast_length, kept, if_neg (by exact Nat.ne_of_gt hpos)]
    exact Nat.min_le_left _ _
  fifo := by
    show h.admitted ++ new = (h.evicted ++ h.mru.queue.filter fun y => y ∉ m.set) ++ m.queue
    have hd : (h.mru.queue ++ new).length - kept m.nMaxSize (h.mru.queue ++ new).length ≤
        h.mru.queue.length := by
      unfold kept
      rw [List.length_append]
      split_ifs <;> omega
    have hleave := filter_dropped hnodup hd
    have hset : (fun y => decide (y ∉ m.set)) = fun y => decide (y ∉ m.queue) := by
      funext y
      simp only [hsame]
    have htake : h.mru.queue.take _ = (h.mru.queue ++ new).take _ :=
      (List.take_append_of_le_length hd).symm
    rw [hset, hqueue]
    unfold keepLast
    rw [hleave, htake, List.append_assoc, List.take_append_drop, hsound.fifo, List.append_assoc]

omit [DecidableEq T] in
theorem Sound.nodup_concat {h : History T} (hsound : Sound h) {x : T} (hx : x ∉ h.mru.set) :
    (h.mru.queue ++ [x]).Nodup := by
  have hnew : x ∉ h.mru.queue := mt (hsound.same x).mpr hx
  exact List.nodup_append'.mpr ⟨hsound.nodup, List.nodup_singleton x, by simpa using hnew⟩

theorem apply_insert_present {m : Mruset T} {x : T} (hx : x ∈ m.set) :
    Call.apply m (.insert x) = (m, []) := by
  show ((m.insert x).1, if (m.insert x).2 then [x] else []) = (m, [])
  rw [insert_of_mem hx]
  rfl

theorem apply_insert_new {m : Mruset T} {x : T} (hret : (m.insert x).2 = true) :
    Call.apply m (.insert x) = ((m.insert x).1, [x]) := by
  show ((m.insert x).1, if (m.insert x).2 then [x] else []) = ((m.insert x).1, [x])
  rw [hret]
  rfl

theorem Sound.step {h : History T} (hsound : Sound h) (c : Call T) : Sound (h.step c) := by
  have hnodup : (h.mru.queue ++ []).Nodup := by
    rw [List.append_nil]
    exact hsound.nodup
  cases c with
  | insert x =>
    by_cases hx : x ∈ h.mru.set
    · unfold History.step
      rw [apply_insert_present hx]
      apply hsound.keep hsound.same hnodup _ (Or.inr (Nat.zero_le _))
      rw [List.append_nil, keepLast_of_le]
      exact (Nat.eq_zero_or_pos h.mru.nMaxSize).imp_right hsound.bounded
    · obtain ⟨hret, hsame, hqueue, hmax⟩ := hsound.insert_spec hx
      unfold History.step
      rw [apply_insert_new hret]
      apply hsound.keep hsame (hsound.nodup_concat hx) (by rw [hmax, hqueue])
      rw [List.length_singleton]
      omega
  | maxSize s =>
    obtain ⟨hsame, hqueue, hmax⟩ := hsound.maxSize_spec s
    apply hsound.keep hsame hnodup _ (Or.inr (Nat.zero_le _))
    rw [List.append_nil, hmax, hqueue]

theorem Sound.calls {h : History T} (hsound : Sound h) (calls : List (Call T)) :
    Sound (run History.step h calls) := by
  have hstep : ∀ (g : History T) c, Sound g → Sound (g.step c) := fun g c hg => hg.step c
  exact (throughout_of_step hstep hsound).last

omit [DecidableEq T] in
theorem sound_start (nMaxSizeIn : ℕ) : Sound (History.start nMaxSizeIn : History T) where
  same x := iff_of_false (Finset.notMem_empty x) List.not_mem_nil
  nodup := List.nodup_nil
  bounded _ := Nat.zero_le _
  fifo := rfl

/-- The history of some calls on a new set. -/
def reached (nMaxSizeIn : ℕ) (calls : List (Call T)) : History T :=
  run History.step (History.start nMaxSizeIn) calls

theorem sound_reached (nMaxSizeIn : ℕ) (calls : List (Call T)) :
    Sound (reached nMaxSizeIn calls) :=
  (sound_start nMaxSizeIn).calls calls

/-- With insertions only, the queue is the end of what it was and what came in since. -/
theorem Sound.inserts {h : History T} (hsound : Sound h) (later : List T) :
    (run History.step h (later.map Call.insert)).mru.nMaxSize = h.mru.nMaxSize ∧
      ∃ new, (run History.step h (later.map Call.insert)).admitted = h.admitted ++ new ∧
        (run History.step h (later.map Call.insert)).mru.queue =
          keepLast h.mru.nMaxSize (h.mru.queue ++ new) := by
  induction later using List.reverseRecOn with
  | nil =>
    refine ⟨rfl, [], (List.append_nil _).symm, ?_⟩
    rw [List.append_nil, keepLast_of_le]
    · rfl
    · exact (Nat.eq_zero_or_pos h.mru.nMaxSize).imp_right hsound.bounded
  | append_singleton later x ih =>
    obtain ⟨hmax, new, hadmitted, hqueue⟩ := ih
    have hmid := hsound.calls (later.map Call.insert)
    rw [List.map_append, List.map_singleton, run_concat]
    generalize run History.step h (later.map Call.insert) = g at hmax hadmitted hqueue hmid
    by_cases hx : x ∈ g.mru.set
    · unfold History.step
      rw [apply_insert_present hx]
      exact ⟨hmax, new, by rw [List.append_nil]; exact hadmitted, hqueue⟩
    · obtain ⟨hret, -, hnext, hmax'⟩ := hmid.insert_spec hx
      unfold History.step
      rw [apply_insert_new hret]
      refine ⟨hmax'.trans hmax, new ++ [x], ?_, ?_⟩
      · show g.admitted ++ [x] = _
        rw [hadmitted, List.append_assoc]
      · show (g.mru.insert x).1.queue = _
        rw [hnext, hmax, hqueue, keepLast_append, List.append_assoc]

/-- What has come in is what was evicted followed by the queue, and an insertion or a new
maximum keeps the last elements. -/
theorem mruset_recent (nMaxSizeIn : ℕ) (calls : List (Call T)) :
    Sound (reached nMaxSizeIn calls) ∧
      (∀ x, ((reached nMaxSizeIn calls).mru.insert x).2 = true ↔
        x ∉ (reached nMaxSizeIn calls).mru.queue) ∧
      (∀ later : List T, ∃ new,
        (reached nMaxSizeIn (calls ++ later.map Call.insert)).admitted =
          (reached nMaxSizeIn calls).admitted ++ new ∧
        (reached nMaxSizeIn (calls ++ later.map Call.insert)).mru.queue =
          keepLast (reached nMaxSizeIn calls).mru.nMaxSize
            ((reached nMaxSizeIn calls).mru.queue ++ new)) ∧
      ∀ s, (reached nMaxSizeIn (calls ++ [Call.maxSize s])).mru.queue =
        keepLast s (reached nMaxSizeIn calls).mru.queue := by
  have hsound : Sound (reached nMaxSizeIn calls) := sound_reached nMaxSizeIn calls
  refine ⟨hsound, ?_, ?_, ?_⟩
  · intro x
    rw [← hsound.same x]
    constructor
    · intro hret hx
      rw [insert_of_mem hx] at hret
      cases hret
    · intro hx
      exact (hsound.insert_spec hx).1
  · intro later
    unfold reached
    rw [run, List.foldl_append]
    exact (hsound.inserts later).2
  · intro s
    unfold reached
    rw [run_concat]
    exact (hsound.maxSize_spec s).2.1

end UmbrellaLtc.MruSet
