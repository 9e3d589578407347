import Std.Data.ExtTreeMap
import Mathlib.Data.List.Basic

/-!
A heap of objects that `new` makes and `delete` frees. A pointer may be given out again once its
object is freed; reading, writing or deleting through any other pointer is `none`. The heap keeps
the history of its pointers, in which each is freed once for each time that it was made.
-/

namespace UmbrellaLtc.PointerHeap

inductive Event where
  | new (p : ℕ)
  | delete (p : ℕ)
deriving DecidableEq

def Event.pointer : Event → ℕ
  | .new p => p
  | .delete p => p

/-- What has happened to a pointer that was given out `n` times and is free. -/
def freed (p n : ℕ) : List Event := (List.replicate n [Event.new p, Event.delete p]).flatten

def history (log : List Event) (p : ℕ) : List Event := log.filter fun e => e.pointer = p

theorem freed_succ (p n : ℕ) : freed p n ++ [.new p] ++ [.delete p] = freed p (n + 1) := by
  simp [freed, List.replicate_succ', List.flatten_append]

theorem history_concat (log : List Event) (e : Event) (p : ℕ) :
    history (log ++ [e]) p = history log p ++ if e.pointer = p then [e] else [] := by
  by_cases heq : e.pointer = p
  · simp [history, List.filter_append, heq]
  · simp [history, List.filter_append, heq]

structure Heap (β : Type) where
  cells : Std.ExtTreeMap ℕ β compare
  log : List Event
  balanced : ∀ p, ∃ n, history log p = freed p n ++ if p ∈ cells then [.new p] else []

variable {β : Type}

/-- How the heap chooses a pointer for a new object: any that is not in use. -/
structure Allocator (β : Type) where
  next : Heap β → ℕ
  fresh : ∀ h, next h ∉ h.cells

/-- A choice that is never in use: a number above all that are. -/
instance : Inhabited (Allocator β) where
  default :=
    { next := fun h => h.cells.keys.max?.getD 0 + 1
      fresh := fun h hmem => by
        have hle := @List.le_max?_getD_of_mem _ _ 0 (Std.ExtTreeMap.mem_keys.mpr hmem)
        omega }

namespace Heap

def empty : Heap β := ⟨∅, [], fun _ => ⟨0, by simp [history, freed]⟩⟩

def read (h : Heap β) (p : ℕ) : Option β := h.cells[p]?

def new (alloc : Allocator β) (h : Heap β) (v : β) : ℕ × Heap β :=
  (alloc.next h,
    { cells := h.cells.insert (alloc.next h) v
      log := h.log ++ [.new (alloc.next h)]
      balanced := by
        intro p
        obtain ⟨n, hn⟩ := h.balanced p
        refine ⟨n, ?_⟩
        rw [history_concat, hn]
        by_cases heq : alloc.next h = p
        · rw [if_neg (heq ▸ alloc.fresh h)]
          simp [Event.pointer, heq]
        · simp [Event.pointer, heq] })

def write (h : Heap β) (p : ℕ) (v : β) : Option (Heap β) :=
  if hp : p ∈ h.cells then
    some
      { cells := h.cells.insert p v
        log := h.log
        balanced := by
          intro q
          obtain ⟨n, hn⟩ := h.balanced q
          refine ⟨n, ?_⟩
          rw [hn]
          by_cases heq : p = q
          · simp [heq, heq ▸ hp]
          · simp [heq] }
  else none

def delete (h : Heap β) (p : ℕ) : Option (Heap β) :=
  if hp : p ∈ h.cells then
    some
      { cells := h.cells.erase p
        log := h.log ++ [.delete p]
        balanced := by
          intro q
          obtain ⟨n, hn⟩ := h.balanced q
          rw [history_concat, hn]
          by_cases heq : p = q
          · refine ⟨n + 1, ?_⟩
            rw [← heq, if_pos hp, ← freed_succ]
            simp [Event.pointer]
          · exact ⟨n, by simp [Event.pointer, heq]⟩ }
  else none

variable {h : Heap β} {p q : ℕ} {v w : β}

theorem mem_cells_of_read (hread : h.read p = some v) : p ∈ h.cells := by
  rw [Std.ExtTreeMap.mem_iff_isSome_getElem?]
  exact Option.isSome_of_eq_some hread

@[simp] theorem read_empty : (empty : Heap β).read p = none := by simp [read, empty]

theorem read_fresh (alloc : Allocator β) : h.read (h.new alloc v).1 = none :=
  Std.ExtTreeMap.getElem?_eq_none (alloc.fresh h)

theorem read_new (alloc : Allocator β) :
    (h.new alloc v).2.read p = if p = (h.new alloc v).1 then some v else h.read p := by
  simp only [new, read, Std.ExtTreeMap.getElem?_insert, Nat.compare_eq_eq, @eq_comm _ p]

theorem exists_write (hread : h.read p = some w) :
    ∃ h', h.write p v = some h' ∧ ∀ q, h'.read q = if q = p then some v else h.read q := by
  refine ⟨_, dif_pos (mem_cells_of_read hread), fun q => ?_⟩
  simp only [read, Std.ExtTreeMap.getElem?_insert, Nat.compare_eq_eq, @eq_comm _ q]

theorem exists_delete (hread : h.read p = some w) :
    ∃ h', h.delete p = some h' ∧ ∀ q, h'.read q = if q = p then none else h.read q := by
  refine ⟨_, dif_pos (mem_cells_of_read hread), fun q => ?_⟩
  simp only [read, Std.ExtTreeMap.getElem?_erase, Nat.compare_eq_eq, @eq_comm _ q]

/-- Once the heap is empty, each pointer was freed exactly as often as it was made, and never
before it was. -/
theorem history_of_empty (hempty : ∀ p, h.read p = none) (p : ℕ) :
    ∃ n, history h.log p = freed p n := by
  obtain ⟨n, hn⟩ := h.balanced p
  have hp : p ∉ h.cells := by
    rw [Std.ExtTreeMap.mem_iff_isSome_getElem?]
    exact Option.not_isSome_iff_eq_none.mpr (hempty p)
  rw [if_neg hp, List.append_nil] at hn
  exact ⟨n, hn⟩

end Heap

end UmbrellaLtc.PointerHeap
