import UmbrellaLtc.Runs
import Mathlib.Algebra.BigOperators.Fin
import Mathlib.Algebra.Order.BigOperators.Group.Finset
import Mathlib.Algebra.Order.Group.Multiset
import Mathlib.Data.Fintype.Option
import Mathlib.Tactic.Abel

/-!
CCheckQueue of checkqueue.h: the master and any number of workers that run Loop. A
thread takes the mutex, accounts for the batch that it has finished, and then returns,
waits or takes a new batch, all in one critical section; the checks of a batch are
evaluated one by one without the mutex, in any order with what the other threads do.
A wait may end at any time, so that the notifications only say when it ends soon. The
counters are natural numbers: they fit into 32 bits as long as fewer than 2^32 checks are
outstanding at once and there are fewer than 2^31 threads.
-/

namespace UmbrellaLtc.CheckQueue

open Runs

section Model

variable {T ι : Type}

/-- The members that the mutex protects. -/
structure CCheckQueue (T : Type) where
  queue : List T
  nIdle : ℕ
  nTotal : ℕ
  fAllOk : Bool
  nTodo : ℕ
  fQuit : Bool

/-- Where a thread is in Loop: not in it, before its first critical section, behind the
clean-up of one, in the wait of one, or at its batch, with what is left of it. -/
inductive Stage (T : Type) where
  | outside
  | entering
  | locked
  | waiting
  | working (vChecks : List T) (nNow : ℕ) (fOk : Bool)

/-- The queue, its threads, of which `none` is the master, and what has happened to the
checks: all that were added, those evaluated and those passed over, and since the last
return of Wait those that were added and those that no thread has any more. -/
structure Pool (T ι : Type) where
  q : CCheckQueue T
  stage : Option ι → Stage T
  added : Multiset T
  executed : Multiset T
  skipped : Multiset T
  since : Multiset T
  settled : Multiset T

def Pool.init : Pool T ι :=
  ⟨⟨[], 0, 0, true, 0, false⟩, fun _ => .outside, 0, 0, 0, 0, 0⟩

variable [DecidableEq ι]

def Pool.goto (s : Pool T ι) (t : Option ι) (stage : Stage T) : Pool T ι :=
  { s with stage := Function.update s.stage t stage }

/-- CCheckQueue::Add, which the master calls between two calls of Wait. -/
def Pool.add (s : Pool T ι) (vChecks : List T) : Pool T ι :=
  let q := { s.q with queue := s.q.queue ++ vChecks, nTodo := s.q.nTodo + vChecks.length }
  { s with q := q, added := s.added + vChecks, since := s.since + vChecks }

/-- From the lock to the clean-up; `none` while the thread is not about to take it. -/
def Pool.cleanUp (s : Pool T ι) (t : Option ι) : Option (Pool T ι) :=
  match s.stage t with
  | .entering => some ({ s with q := { s.q with nTotal := s.q.nTotal + 1 } }.goto t .locked)
  | .waiting => some ({ s with q := { s.q with nIdle := s.q.nIdle - 1 } }.goto t .locked)
  | .working [] nNow fOk =>
      let q := { s.q with fAllOk := s.q.fAllOk && fOk, nTodo := s.q.nTodo - nNow }
      some ({ s with q := q }.goto t .locked)
  | _ => none

/-- How many work units to process now. -/
def CCheckQueue.nNow (q : CCheckQueue T) (nBatchSize : ℕ) : ℕ :=
  max 1 (min nBatchSize (q.queue.length / (q.nTotal + q.nIdle + 1)))

/-- `if (fMaster) fAllOk = true;`: the master starts a new account. -/
def Pool.reset (s : Pool T ι) : Pool T ι :=
  { s with q := { s.q with fAllOk := true }, since := 0, settled := 0 }

def Pool.leave (s : Pool T ι) (t : Option ι) : Pool T ι :=
  let s := if t.isNone then s.reset else s
  { s with q := { s.q with nTotal := s.q.nTotal - 1 } }.goto t .outside

/-- `nIdle++; cond.wait(lock);` -/
def Pool.sleep (s : Pool T ι) (t : Option ι) : Pool T ι :=
  { s with q := { s.q with nIdle := s.q.nIdle + 1 } }.goto t .waiting

/-- The batch is swapped out from the back of the queue. -/
def Pool.takeBatch (nBatchSize : ℕ) (s : Pool T ι) (t : Option ι) : Pool T ι :=
  let nNow := s.q.nNow nBatchSize
  let q := { s.q with queue := s.q.queue.take (s.q.queue.length - nNow) }
  { s with q := q }.goto t (.working (s.q.queue.reverse.take nNow) nNow s.q.fAllOk)

/-- The rest of the critical section, and what Loop returns, if it does. -/
def Pool.takeWork (nBatchSize : ℕ) (s : Pool T ι) (t : Option ι) : Pool T ι × Option Bool :=
  if s.q.queue.isEmpty then
    if (t.isNone || s.q.fQuit) && s.q.nTodo == 0 then (s.leave t, some s.q.fAllOk)
    else (s.sleep t, none)
  else (s.takeBatch nBatchSize t, none)

/-- One critical section of Loop. -/
def Pool.lock (nBatchSize : ℕ) (s : Pool T ι) (t : Option ι) : Option (Pool T ι × Option Bool) :=
  (s.cleanUp t).map fun s => s.takeWork nBatchSize t

/-- `if (fOk) fOk = check();` for the next check of a batch. -/
def Pool.evaluate (check : T → Bool) (s : Pool T ι) (t : Option ι) : Pool T ι :=
  match s.stage t with
  | .working (c :: vChecks) nNow fOk =>
      let s := s.goto t (.working vChecks nNow (if fOk then check c else fOk))
      let s := { s with settled := c ::ₘ s.settled }
      if fOk then { s with executed := c ::ₘ s.executed }
      else { s with skipped := c ::ₘ s.skipped }
  | _ => s

/-- What may happen next: the master adds checks or calls Wait, a worker thread starts, a
thread runs its critical section, a thread evaluates a check. -/
inductive Event (T ι : Type) where
  | add (vChecks : List T)
  | wait
  | thread (i : ι)
  | lock (t : Option ι)
  | evaluate (t : Option ι)

/-- An event that cannot happen leaves the pool as it is. -/
def Pool.step (check : T → Bool) (nBatchSize : ℕ) (s : Pool T ι) : Event T ι → Pool T ι
  | .add vChecks =>
      match s.stage none with
      | .outside => s.add vChecks
      | _ => s
  | .wait =>
      match s.stage none with
      | .outside => s.goto none .entering
      | _ => s
  | .thread i =>
      match s.stage (some i) with
      | .outside => s.goto (some i) .entering
      | _ => s
  | .lock t =>
      match s.lock nBatchSize t with
      | some (s', _) => s'
      | none => s
  | .evaluate t => s.evaluate check t

end Model

section Stages

variable {T : Type}

namespace Stage

/-- What the thread still has to take off nTodo. -/
def pending : Stage T → ℕ
  | working _ nNow _ => nNow
  | _ => 0

/-- The checks of its batch that it has not come to. -/
def rest : Stage T → Multiset T
  | working vChecks _ _ => vChecks
  | _ => 0

def ok : Stage T → Bool
  | working _ _ fOk => fOk
  | _ => true

def idle : Stage T → ℕ
  | waiting => 1
  | _ => 0

def counted : Stage T → ℕ
  | outside => 0
  | entering => 0
  | _ => 1

/-- A batch has at least one check. -/
def Batched : Stage T → Prop
  | working _ nNow _ => 1 ≤ nNow
  | _ => True

end Stage

variable {ι : Type} [DecidableEq ι] [Fintype ι]

/-- A sum over the threads when one of them moves. -/
theorem sum_update {M : Type} [AddCommMonoid M] (f : Stage T → M) (stage : Option ι → Stage T)
    (t : Option ι) (x : Stage T) :
    ∑ u, f (Function.update stage t x u) + f (stage t) = ∑ u, f (stage u) + f x := by
  have hcomp : ∀ u, f (Function.update stage t x u) =
      Function.update (fun v => f (stage v)) t (f x) u := by
    intro u
    by_cases hu : u = t
    · rw [hu, Function.update_self, Function.update_self]
    · rw [Function.update_of_ne hu, Function.update_of_ne hu]
  have hsplit : ∑ u, f (stage u) = f (stage t) + ∑ u ∈ Finset.univ \ {t}, f (stage u) := by
    rw [Finset.sdiff_singleton_eq_erase]
    exact (Finset.add_sum_erase _ (fun u => f (stage u)) (Finset.mem_univ t)).symm
  simp only [hcomp]
  rw [Finset.sum_update_of_mem (Finset.mem_univ t), hsplit]
  abel

omit [DecidableEq ι] in
theorem single_le (f : Stage T → ℕ) (stage : Option ι → Stage T) (t : Option ι) :
    f (stage t) ≤ ∑ u, f (stage u) :=
  Finset.single_le_sum (f := fun u => f (stage u)) (fun _ _ => Nat.zero_le _) (Finset.mem_univ t)

end Stages

section Balance

variable {T ι : Type} [DecidableEq ι] [Fintype ι] (check : T → Bool)

/-- The books of the pool: nTodo counts the queue and the batches, the checks are where
they were added and nowhere else, and while no flag is down every check that is settled
has evaluated to true; a flag that is down has a check that did not. -/
structure Balanced (s : Pool T ι) : Prop where
  todo : s.q.nTodo = s.q.queue.length + ∑ t, (s.stage t).pending
  idle : s.q.nIdle = ∑ t, (s.stage t).idle
  total : s.q.nTotal = ∑ t, (s.stage t).counted
  since : s.since = s.settled + s.q.queue + ∑ t, (s.stage t).rest
  added : s.added = s.executed + s.skipped + s.q.queue + ∑ t, (s.stage t).rest
  pass : s.q.fAllOk = true → (∀ t, (s.stage t).ok = true) → ∀ c ∈ s.settled, check c = true
  fail : (s.q.fAllOk = false ∨ ∃ t, (s.stage t).ok = false) → ∃ c ∈ s.since, check c = false
  batched : ∀ t, (s.stage t).Batched

variable {check} {s s' : Pool T ι} {t : Option ι} {x : Stage T}

omit [DecidableEq ι] in
theorem balanced_init : Balanced check (Pool.init : Pool T ι) where
  todo := by simp [Pool.init, Stage.pending]
  idle := by simp [Pool.init, Stage.idle]
  total := by simp [Pool.init, Stage.counted]
  since := by simp [Pool.init, Stage.rest]
  added := by simp [Pool.init, Stage.rest]
  pass := by simp [Pool.init]
  fail := by simp [Pool.init, Stage.ok]
  batched := by simp [Pool.init, Stage.Batched]

/-- One thread moves on, and the books follow. -/
theorem Balanced.goto (h : Balanced check s) (hstage : s'.stage = Function.update s.stage t x)
    (hbatched : x.Batched)
    (htodo : s'.q.nTodo + s.q.queue.length + (s.stage t).pending =
      s.q.nTodo + s'.q.queue.length + x.pending)
    (hidle : s'.q.nIdle + (s.stage t).idle = s.q.nIdle + x.idle)
    (htotal : s'.q.nTotal + (s.stage t).counted = s.q.nTotal + x.counted)
    (hsince : s'.since = s.since)
    (hsettled : s'.settled + s'.q.queue + x.rest = s.settled + s.q.queue + (s.stage t).rest)
    (hadded : s'.added = s.added)
    (hexecuted : s'.executed + s'.skipped + s'.q.queue + x.rest =
      s.executed + s.skipped + s.q.queue + (s.stage t).rest)
    (hpass : s'.q.fAllOk = true → x.ok = true →
      s.q.fAllOk = true ∧ (s.stage t).ok = true ∧
        ∀ c ∈ s'.settled, c ∈ s.settled ∨ check c = true)
    (hfail : s'.q.fAllOk = false ∨ x.ok = false →
      s.q.fAllOk = false ∨ (s.stage t).ok = false ∨ ∃ c ∈ s.since, check c = false) :
    Balanced check s' := by
  have hpending := sum_update Stage.pending s.stage t x
  have hidles := sum_update Stage.idle s.stage t x
  have hcounted := sum_update Stage.counted s.stage t x
  have hrest := sum_update Stage.rest s.stage t x
  rw [← hstage] at hpending hidles hcounted hrest
  have hself : s'.stage t = x := by rw [hstage, Function.update_self]
  have hothers : ∀ u, u ≠ t → s'.stage u = s.stage u := by
    intro u hu
    rw [hstage, Function.update_of_ne hu]
  -- a part of the checks that moves with the thread leaves the whole as it was
  have hwhole : ∀ a b : Multiset T, a + s'.q.queue + x.rest = b + s.q.queue + (s.stage t).rest →
      a + s'.q.queue + ∑ u, (s'.stage u).rest = b + s.q.queue + ∑ u, (s.stage u).rest := by
    intro a b hab
    apply add_right_cancel (b := (s.stage t).rest)
    rw [add_assoc (a + _), hrest, add_comm (∑ u, _), ← add_assoc, hab]
    abel
  have htodo₀ := h.todo
  have hidle₀ := h.idle
  have htotal₀ := h.total
  refine ⟨by omega, by omega, by omega, ?_, ?_, ?_, ?_, ?_⟩
  · rw [hsince, h.since, hwhole _ _ hsettled]
  · rw [hadded, h.added]
    exact (hwhole _ _ hexecuted).symm
  · intro hall hoks c hc
    obtain ⟨hall₀, hok₀, hold⟩ := hpass hall (hself ▸ hoks t)
    obtain hc | hc := hold c hc
    · refine h.pass hall₀ (fun u => ?_) c hc
      by_cases hu : u = t
      · rw [hu]
        exact hok₀
      · rw [← hothers u hu]
        exact hoks u
    · exact hc
  · intro hdown
    rw [hsince]
    have hmine : (s'.q.fAllOk = false ∨ x.ok = false) ∨ ∃ u, (s.stage u).ok = false := by
      obtain hdown | ⟨u, hu⟩ := hdown
      · exact .inl (.inl hdown)
      · by_cases hut : u = t
        · rw [hut, hself] at hu
          exact .inl (.inr hu)
        · rw [hothers u hut] at hu
          exact .inr ⟨u, hu⟩
    obtain hmine | hother := hmine
    · obtain hold | hold | hfalse := hfail hmine
      · exact h.fail (.inl hold)
      · exact h.fail (.inr ⟨t, hold⟩)
      · exact hfalse
    · exact h.fail (.inr hother)
  · intro u
    by_cases hu : u = t
    · rw [hu, hself]
      exact hbatched
    · rw [hothers u hu]
      exact h.batched u

omit [DecidableEq ι] in
theorem balanced_add (h : Balanced check s) (vChecks : List T) :
    Balanced check (s.add vChecks) := by
  have htodo := h.todo
  unfold Pool.add
  refine ⟨?_, h.idle, h.total, ?_, ?_, h.pass, ?_, h.batched⟩
  · simp only [List.length_append]
    omega
  · simp only [h.since, ← Multiset.coe_add]
    abel
  · simp only [h.added, ← Multiset.coe_add]
    abel
  · intro hdown
    obtain ⟨c, hc, hfalse⟩ := h.fail hdown
    exact ⟨c, Multiset.mem_add.mpr (.inl hc), hfalse⟩

theorem balanced_entering (h : Balanced check s) (hstage : s.stage t = .outside) :
    Balanced check (s.goto t .entering) := by
  refine h.goto rfl trivial ?_ ?_ ?_ rfl ?_ rfl ?_ ?_ ?_
  all_goals simp [Pool.goto, hstage, Stage.pending, Stage.idle, Stage.counted, Stage.rest, Stage.ok]
  all_goals tauto

omit [DecidableEq ι] in
/-- What a thread still has to take off is part of nTodo. -/
theorem Balanced.pending_le (h : Balanced check s) (t : Option ι) :
    (s.stage t).pending ≤ s.q.nTodo := by
  have htodo := h.todo
  have hle := single_le Stage.pending s.stage t
  omega

omit [DecidableEq ι] in
theorem Balanced.idle_le (h : Balanced check s) (t : Option ι) :
    (s.stage t).idle ≤ s.q.nIdle := by
  have hidle := h.idle
  have hle := single_le Stage.idle s.stage t
  omega

omit [DecidableEq ι] in
theorem Balanced.counted_le (h : Balanced check s) (t : Option ι) :
    (s.stage t).counted ≤ s.q.nTotal := by
  have htotal := h.total
  have hle := single_le Stage.counted s.stage t
  omega

/-- The clean-up leaves the books in order and touches neither the queue nor what was
added. -/
theorem balanced_cleanUp (h : Balanced check s) (hclean : s.cleanUp t = some s') :
    Balanced check s' ∧ s'.stage t = .locked ∧ s'.since = s.since ∧ s'.added = s.added := by
  have hpending := h.pending_le t
  have hidle := h.idle_le t
  unfold Pool.cleanUp at hclean
  split at hclean
  · next hstage =>
    obtain rfl := Option.some.inj hclean
    refine ⟨h.goto rfl trivial ?_ ?_ ?_ rfl ?_ rfl ?_ ?_ ?_, Function.update_self .., rfl, rfl⟩
    all_goals simp [Pool.goto, hstage, Stage.pending, Stage.idle, Stage.counted, Stage.rest,
      Stage.ok]
    all_goals tauto
  · next hstage =>
    obtain rfl := Option.some.inj hclean
    rw [hstage] at hidle
    simp only [Stage.idle] at hidle
    refine ⟨h.goto rfl trivial ?_ ?_ ?_ rfl ?_ rfl ?_ ?_ ?_, Function.update_self .., rfl, rfl⟩
    all_goals simp [Pool.goto, hstage, Stage.pending, Stage.idle, Stage.counted, Stage.rest,
      Stage.ok]
    · omega
    all_goals tauto
  · next nNow fOk hstage =>
    obtain rfl := Option.some.inj hclean
    rw [hstage] at hpending
    simp only [Stage.pending] at hpending
    have hboth : (s.q.fAllOk && fOk) = false → s.q.fAllOk = false ∨ fOk = false :=
      Bool.and_eq_false_iff.mp
    refine ⟨h.goto rfl trivial ?_ ?_ ?_ rfl ?_ rfl ?_ ?_ ?_, Function.update_self .., rfl, rfl⟩
    all_goals simp only [Pool.goto, hstage, Stage.pending, Stage.idle, Stage.counted, Stage.rest,
      Stage.ok]
    · omega
    · rfl
    · rfl
    · simp only [Bool.and_eq_true]
      tauto
    · tauto
  · cases hclean

theorem nNow_pos (q : CCheckQueue T) (nBatchSize : ℕ) : 1 ≤ q.nNow nBatchSize := le_max_left 1 _

/-- A batch is taken from what is there. -/
theorem nNow_le (q : CCheckQueue T) (nBatchSize : ℕ) (hne : q.queue ≠ []) :
    q.nNow nBatchSize ≤ q.queue.length := by
  have hpos := List.length_pos_iff.mpr hne
  have hdiv := Nat.div_le_self q.queue.length (q.nTotal + q.nIdle + 1)
  unfold CCheckQueue.nNow
  omega

/-- The batch and what stays in the queue are the queue. -/
theorem batch_add (queue : List T) (n : ℕ) :
    ((queue.take (queue.length - n) : List T) : Multiset T) + ((queue.reverse.take n : List T)) =
      (queue : Multiset T) := by
  have hback : ((queue.reverse.take n : List T) : Multiset T) =
      (queue.drop (queue.length - n) : List T) := by
    rw [List.take_reverse]
    exact Multiset.coe_reverse _
  rw [hback, Multiset.coe_add, List.take_append_drop]

omit [DecidableEq ι] in
/-- When Loop returns to the master, no thread has a batch. -/
theorem Balanced.none_working (h : Balanced check s) (htodo : s.q.nTodo = 0) (u : Option ι) :
    (s.stage u).ok = true ∧ (s.stage u).rest = 0 := by
  have hle := h.pending_le u
  have hbatched := h.batched u
  cases hstage : s.stage u with
  | working vChecks nNow fOk =>
    rw [hstage] at hle hbatched
    simp only [Stage.pending, Stage.Batched] at hle hbatched
    omega
  | _ => exact ⟨rfl, rfl⟩

omit [DecidableEq ι] in
/-- The flag then tells whether every check has evaluated to true. -/
theorem Balanced.verdict (h : Balanced check s) (hqueue : s.q.queue = []) (htodo : s.q.nTodo = 0) :
    s.q.fAllOk = true ↔ ∀ c ∈ s.since, check c = true := by
  have hnone := h.none_working htodo
  have hsettled : s.since = s.settled := by
    rw [h.since, hqueue, Finset.sum_eq_zero fun u _ => (hnone u).2]
    simp
  constructor
  · intro hall
    rw [hsettled]
    exact h.pass hall fun u => (hnone u).1
  · intro hevery
    by_contra hdown
    obtain ⟨c, hc, hfalse⟩ := h.fail (.inl (Bool.not_eq_true _ ▸ hdown))
    rw [hevery c hc] at hfalse
    cases hfalse

omit [DecidableEq ι] in
theorem balanced_reset (h : Balanced check s) (hqueue : s.q.queue = []) (htodo : s.q.nTodo = 0) :
    Balanced check s.reset := by
  have hnone := h.none_working htodo
  have hrest : ∑ u, (s.stage u).rest = 0 := Finset.sum_eq_zero fun u _ => (hnone u).2
  refine ⟨h.todo, h.idle, h.total, ?_, h.added, ?_, ?_, h.batched⟩
  · simp [Pool.reset, hqueue, hrest]
  · simp [Pool.reset]
  · rintro (hdown | ⟨u, hu⟩)
    · cases hdown
    · have hok := (hnone u).1
      change (s.stage u).ok = false at hu
      rw [hok] at hu
      cases hu

theorem balanced_leave (h : Balanced check s) (hstage : s.stage t = .locked)
    (hqueue : s.q.queue = []) (htodo : s.q.nTodo = 0) : Balanced check (s.leave t) := by
  have hafter : Balanced check (if t.isNone then s.reset else s) ∧
      (if t.isNone then s.reset else s).stage = s.stage := by
    split_ifs
    · exact ⟨balanced_reset h hqueue htodo, rfl⟩
    · exact ⟨h, rfl⟩
  unfold Pool.leave
  dsimp only
  generalize (if t.isNone then s.reset else s) = s₁ at hafter ⊢
  obtain ⟨hs₁, hstages⟩ := hafter
  rw [← hstages] at hstage
  have hcounted := hs₁.counted_le t
  rw [hstage] at hcounted
  simp only [Stage.counted] at hcounted
  refine hs₁.goto rfl trivial ?_ ?_ ?_ rfl ?_ rfl ?_ ?_ ?_
  all_goals simp [Pool.goto, hstage, Stage.pending, Stage.idle, Stage.counted, Stage.rest,
    Stage.ok]
  · omega
  all_goals tauto

theorem balanced_sleep (h : Balanced check s) (hstage : s.stage t = .locked) :
    Balanced check (s.sleep t) := by
  refine h.goto rfl trivial ?_ ?_ ?_ rfl ?_ rfl ?_ ?_ ?_
  all_goals simp [Pool.sleep, Pool.goto, hstage, Stage.pending, Stage.idle, Stage.counted,
    Stage.rest, Stage.ok]
  all_goals tauto

theorem balanced_takeBatch (nBatchSize : ℕ) (h : Balanced check s) (hstage : s.stage t = .locked)
    (hne : s.q.queue ≠ []) : Balanced check (s.takeBatch nBatchSize t) := by
  have hpos := nNow_pos s.q nBatchSize
  have hle := nNow_le s.q nBatchSize hne
  have hbatch := batch_add s.q.queue (s.q.nNow nBatchSize)
  refine h.goto rfl hpos ?_ ?_ ?_ rfl ?_ rfl ?_ ?_ ?_
  all_goals simp only [Pool.takeBatch, Pool.goto, hstage, Stage.pending, Stage.idle,
    Stage.counted, Stage.rest, Stage.ok, add_zero]
  · rw [List.length_take]
    omega
  · rw [add_assoc, hbatch]
  · rw [add_assoc, hbatch]
  · tauto
  · tauto

theorem balanced_takeWork (nBatchSize : ℕ) (h : Balanced check s) (hstage : s.stage t = .locked) :
    Balanced check (s.takeWork nBatchSize t).1 := by
  unfold Pool.takeWork
  split_ifs with hempty hreturn
  · rw [List.isEmpty_iff] at hempty
    simp only [Bool.and_eq_true, beq_iff_eq] at hreturn
    exact balanced_leave h hstage hempty hreturn.2
  · exact balanced_sleep h hstage
  · rw [List.isEmpty_iff] at hempty
    exact balanced_takeBatch nBatchSize h hstage hempty

theorem balanced_evaluate (h : Balanced check s) : Balanced check (s.evaluate check t) := by
  unfold Pool.evaluate
  split
  · next c vChecks nNow fOk hstage =>
    have hbatched := h.batched t
    rw [hstage] at hbatched
    -- the check at hand was added since the last return of Wait
    have hmem : c ∈ s.since := by
      rw [h.since]
      refine Multiset.mem_add.mpr (.inr ?_)
      rw [Multiset.mem_sum]
      refine ⟨t, Finset.mem_univ t, ?_⟩
      rw [hstage]
      exact List.mem_cons_self
    cases fOk with
    | true =>
      refine h.goto rfl hbatched ?_ ?_ ?_ rfl ?_ rfl ?_ ?_ ?_
      all_goals simp only [Pool.goto, hstage, Stage.pending, Stage.idle, Stage.counted,
        Stage.rest, Stage.ok, if_true, ← Multiset.cons_coe, ← Multiset.singleton_add]
      · abel
      · abel
      · intro hall hcheck
        refine ⟨hall, trivial, fun d hd => ?_⟩
        obtain hd | hd := Multiset.mem_add.mp hd
        · rw [Multiset.mem_singleton.mp hd]
          exact .inr hcheck
        · exact .inl hd
      · rintro (hall | hcheck)
        · exact .inl hall
        · exact .inr (.inr ⟨c, hmem, hcheck⟩)
    | false =>
      refine h.goto rfl hbatched ?_ ?_ ?_ rfl ?_ rfl ?_ ?_ ?_
      all_goals simp only [Pool.goto, hstage, Stage.pending, Stage.idle, Stage.counted,
        Stage.rest, Stage.ok, Bool.false_eq_true, if_false, ← Multiset.cons_coe,
        ← Multiset.singleton_add]
      · abel
      · abel
      · tauto
      · tauto
  · exact h

theorem balanced_step (nBatchSize : ℕ) (event : Event T ι) (h : Balanced check s) :
    Balanced check (s.step check nBatchSize event) := by
  cases event with
  | add vChecks =>
    simp only [Pool.step]
    split
    · exact balanced_add h vChecks
    · exact h
  | wait =>
    simp only [Pool.step]
    split
    · next hstage => exact balanced_entering h hstage
    · exact h
  | thread i =>
    simp only [Pool.step]
    split
    · next hstage => exact balanced_entering h hstage
    · exact h
  | lock t =>
    simp only [Pool.step, Pool.lock]
    cases hclean : s.cleanUp t with
    | none => exact h
    | some s₁ =>
      obtain ⟨hs₁, hstage, -⟩ := balanced_cleanUp h hclean
      exact balanced_takeWork nBatchSize hs₁ hstage
  | evaluate t => exact balanced_evaluate h

/-- Between two critical sections no thread is inside of one. -/
def Unlocked (s : Pool T ι) : Prop := ∀ t, s.stage t ≠ .locked

omit [Fintype ι] in
theorem unlocked_goto (h : ∀ u, u ≠ t → s.stage u ≠ .locked) (hx : x ≠ .locked) :
    Unlocked (s.goto t x) := by
  intro u
  by_cases hu : u = t
  · have hself : (s.goto t x).stage t = x := Function.update_self ..
    rw [hu, hself]
    exact hx
  · have hother : (s.goto t x).stage u = s.stage u := Function.update_of_ne hu ..
    rw [hother]
    exact h u hu

omit [Fintype ι] in
theorem unlocked_takeWork (nBatchSize : ℕ) (h : ∀ u, u ≠ t → s.stage u ≠ .locked) :
    Unlocked (s.takeWork nBatchSize t).1 := by
  unfold Pool.takeWork
  split_ifs
  · unfold Pool.leave
    refine unlocked_goto (fun u hu => ?_) nofun
    dsimp only
    split_ifs
    · exact h u hu
    · exact h u hu
  · exact unlocked_goto h nofun
  · exact unlocked_goto h nofun

omit [Fintype ι] in
theorem cleanUp_others (hclean : s.cleanUp t = some s') (u : Option ι) (hu : u ≠ t) :
    s'.stage u = s.stage u := by
  unfold Pool.cleanUp at hclean
  split at hclean
  · obtain rfl := Option.some.inj hclean
    exact Function.update_of_ne hu ..
  · obtain rfl := Option.some.inj hclean
    exact Function.update_of_ne hu ..
  · obtain rfl := Option.some.inj hclean
    exact Function.update_of_ne hu ..
  · cases hclean

omit [Fintype ι] in
theorem unlocked_step (nBatchSize : ℕ) (event : Event T ι) (h : Unlocked s) :
    Unlocked (s.step check nBatchSize event) := by
  cases event with
  | add vChecks =>
    simp only [Pool.step]
    split
    · exact h
    · exact h
  | wait =>
    simp only [Pool.step]
    split
    · exact unlocked_goto (fun u _ => h u) nofun
    · exact h
  | thread i =>
    simp only [Pool.step]
    split
    · exact unlocked_goto (fun u _ => h u) nofun
    · exact h
  | lock t =>
    simp only [Pool.step, Pool.lock]
    cases hclean : s.cleanUp t with
    | none => exact h
    | some s₁ =>
      refine unlocked_takeWork nBatchSize fun u hu => ?_
      rw [cleanUp_others hclean u hu]
      exact h u
  | evaluate t =>
    simp only [Pool.step, Pool.evaluate]
    split
    · split_ifs
      · exact unlocked_goto (fun u _ => h u) nofun
      · exact unlocked_goto (fun u _ => h u) nofun
    · exact h

omit [DecidableEq ι] in
/-- With nothing to do, every thread that is counted is idle. -/
theorem Balanced.total_eq_idle (h : Balanced check s) (hunlocked : Unlocked s)
    (htodo : s.q.nTodo = 0) : s.q.nTotal = s.q.nIdle := by
  rw [h.total, h.idle]
  refine Finset.sum_congr rfl fun u _ => ?_
  have hpending := h.pending_le u
  have hbatched := h.batched u
  have hlocked := hunlocked u
  cases hstage : s.stage u with
  | working vChecks nNow fOk =>
    rw [hstage] at hpending hbatched
    simp only [Stage.pending, Stage.Batched] at hpending hbatched
    omega
  | locked => exact absurd hstage hlocked
  | _ => rfl

end Balance

section Runs

variable {T ι : Type} [DecidableEq ι] [Fintype ι]

/-- What holds in every state: no check is evaluated more often than it was added; and
where Wait returns next, it returns whether all checks that were added since its last
return evaluate to true, with an empty queue, nothing to do, all threads idle and the
flag up for the next batch. -/
structure Correct (check : T → Bool) (nBatchSize : ℕ) (s : Pool T ι) : Prop where
  once : s.executed ≤ s.added
  verdict : ∀ s' fRet, s.lock nBatchSize none = some (s', some fRet) →
    (fRet = true ↔ ∀ c ∈ s.since, check c = true) ∧
      s'.q.queue = [] ∧ s'.q.nTodo = 0 ∧ s'.q.nTotal = s'.q.nIdle ∧ s'.q.fAllOk = true

theorem correct_of_balanced {check : T → Bool} {s : Pool T ι} (nBatchSize : ℕ)
    (h : Balanced check s) (hunlocked : Unlocked s) : Correct check nBatchSize s := by
  constructor
  · rw [h.added, add_assoc, add_assoc]
    exact Multiset.le_add_right _ _
  · intro s' fRet hlock
    unfold Pool.lock at hlock
    rw [Option.map_eq_some_iff] at hlock
    obtain ⟨s₁, hclean, hwork⟩ := hlock
    obtain ⟨hs₁, hstage, hsince, -⟩ := balanced_cleanUp h hclean
    have hbalanced := balanced_takeWork nBatchSize hs₁ hstage
    have hfree := @unlocked_takeWork _ _ _ s₁ none nBatchSize fun u hu =>
      cleanUp_others hclean u hu ▸ hunlocked u
    rw [hwork] at hbalanced hfree
    unfold Pool.takeWork at hwork
    split_ifs at hwork with hempty hreturn
    · rw [List.isEmpty_iff] at hempty
      simp only [Bool.and_eq_true, beq_iff_eq] at hreturn
      obtain ⟨rfl, hret⟩ := Prod.mk.inj hwork
      have htodo : (s₁.leave none).q.nTodo = 0 := hreturn.2
      refine ⟨?_, hempty, htodo, hbalanced.total_eq_idle hfree htodo, rfl⟩
      rw [← hsince, ← hs₁.verdict hempty hreturn.2, Option.some.inj hret]
    · cases (Prod.mk.inj hwork).2
    · cases (Prod.mk.inj hwork).2

/-- For any number of workers, any batch size and any order of the critical sections and
the evaluations, from the empty queue. -/
theorem checkQueue_correct (check : T → Bool) (nBatchSize : ℕ) (events : List (Event T ι)) :
    Throughout (Pool.step check nBatchSize) (Correct check nBatchSize) Pool.init events := by
  have hinv : Throughout (Pool.step check nBatchSize)
      (fun s => Balanced check s ∧ Unlocked s) (Pool.init : Pool T ι) events :=
    throughout_of_step (fun s event hs =>
      ⟨balanced_step nBatchSize event hs.1, unlocked_step nBatchSize event hs.2⟩)
      ⟨balanced_init, fun _ => nofun⟩
  exact hinv.mono fun s hs => correct_of_balanced nBatchSize hs.1 hs.2

/-- What the counters count: the checks in the queue and in the batches, and the threads. -/
structure Counts (s : Pool T ι) : Prop where
  todo : s.q.nTodo = s.q.queue.length + ∑ t, (s.stage t).pending
  idle : s.q.nIdle ≤ s.q.nTotal
  total : s.q.nTotal ≤ Fintype.card ι + 1

/-- The counters stay as small as what they count, so that they fit where that does. -/
theorem counters_count (nBatchSize : ℕ) (events : List (Event T ι)) :
    Throughout (Pool.step check nBatchSize) Counts Pool.init events := by
  have hinv : Throughout (Pool.step check nBatchSize) (Balanced check) (Pool.init : Pool T ι)
      events :=
    throughout_of_step (fun s event hs => balanced_step nBatchSize event hs) balanced_init
  apply hinv.mono
  intro s hs
  refine ⟨hs.todo, ?_, ?_⟩
  · rw [hs.idle, hs.total]
    apply Finset.sum_le_sum
    intro t _
    cases s.stage t <;> simp [Stage.idle, Stage.counted]
  · rw [hs.total, ← Fintype.card_option]
    have hone : ∀ t ∈ Finset.univ, (s.stage t).counted ≤ 1 := by
      intro t _
      cases s.stage t <;> simp [Stage.counted]
    exact (Finset.sum_le_card_nsmul _ _ 1 hone).trans (by simp [Finset.card_univ])

/-- Two checks, of which the master takes the second, which is false, and a worker the
first: Wait returns that not all of them are true. -/
example : ((run (Pool.step id 128) (Pool.init : Pool Bool (Fin 1))
    [.thread 0, .lock (some 0), .add [true, false], .wait, .lock none, .lock (some 0),
      .evaluate none, .lock none, .evaluate (some 0), .lock (some 0)]).lock 128 none).map
        Prod.snd = some (some false) := by
  decide

end Runs

end UmbrellaLtc.CheckQueue
