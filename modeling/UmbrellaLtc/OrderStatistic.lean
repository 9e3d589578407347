import Mathlib.Data.List.GetD
import Mathlib.Data.List.Sort

/-!
The elements of a list by their rank. An element of a sorted list is at least `v`
exactly if no more elements than stand in front of it are below `v`, so that a rank
can be bounded by counting in the list as it was. The upper median of a window
that slides over a sequence then does not fall, as long as what enters is not below it.
-/

namespace UmbrellaLtc.OrderStatistic

variable {α : Type} [LinearOrder α]

theorem countP_lt_eq_zero {l : List α} {v : α} (h : ∀ b ∈ l, v ≤ b) :
    l.countP (fun b => decide (b < v)) = 0 := by
  rw [List.countP_eq_zero]
  intro b hb
  rw [decide_eq_true_eq, not_lt]
  exact h b hb

theorem le_getElem_iff {l : List α} (hl : l.Pairwise (· ≤ ·)) {k : ℕ} (hk : k < l.length)
    (v : α) : v ≤ l[k] ↔ l.countP (fun b => decide (b < v)) ≤ k := by
  induction l generalizing k with
  | nil => exact absurd hk (Nat.not_lt_zero k)
  | cons a l ih =>
    obtain ⟨hfirst, hrest⟩ := List.pairwise_cons.mp hl
    rw [List.countP_cons]
    rcases lt_or_ge a v with ha | ha
    · rw [if_pos (decide_eq_true ha)]
      cases k with
      | zero =>
        rw [List.getElem_cons_zero]
        exact iff_of_false (not_le.mpr ha) (by omega)
      | succ k =>
        rw [List.getElem_cons_succ, ih hrest, Nat.add_le_add_iff_right]
    · have hall : ∀ b ∈ l, v ≤ b := fun b hb => ha.trans (hfirst b hb)
      rw [countP_lt_eq_zero hall, if_neg (by simp [ha])]
      refine iff_of_true ?_ (Nat.zero_le k)
      rcases List.mem_cons.mp (List.getElem_mem hk) with heq | hmem
      · rw [heq]
        exact ha
      · exact hall _ hmem

/-- The element at index `k` in order, or `d` if there is none. -/
def ranked (l : List α) (k : ℕ) (d : α) : α := (l.insertionSort (· ≤ ·)).getD k d

theorem le_ranked_iff {l : List α} {k : ℕ} (hk : k < l.length) (d v : α) :
    v ≤ ranked l k d ↔ l.countP (fun b => decide (b < v)) ≤ k := by
  have hlen : k < (l.insertionSort (· ≤ ·)).length := by
    rw [List.length_insertionSort]
    exact hk
  unfold ranked
  rw [List.getD_eq_getElem _ _ hlen, le_getElem_iff (List.pairwise_insertionSort (· ≤ ·) l),
    (List.perm_insertionSort (· ≤ ·) l).countP_eq]

/-- The middle element, or the upper one of the two in the middle. -/
def upperMedian (l : List α) (d : α) : α := ranked l (l.length / 2) d

/-- A new first element that is not below the median, while the window grows or its
last element drops out. -/
theorem upperMedian_le_slide {w : List α} {t d : α} {n : ℕ} (hw : w ≠ []) (hn : w.length ≤ n)
    (ht : upperMedian w d ≤ t) :
    upperMedian w d ≤ upperMedian ((t :: w).take n) d := by
  have hpos := List.length_pos_iff.mpr hw
  have hlen : w.length ≤ ((t :: w).take n).length := by
    rw [List.length_take, List.length_cons]
    omega
  have hself : w.countP (fun b => decide (b < upperMedian w d)) ≤ w.length / 2 :=
    (le_ranked_iff (Nat.div_lt_self hpos (by omega)) d _).mp le_rfl
  have hdrop : ((t :: w).take n).countP (fun b => decide (b < upperMedian w d)) ≤
      w.countP fun b => decide (b < upperMedian w d) := by
    refine ((List.take_sublist n (t :: w)).countP_le).trans ?_
    rw [List.countP_cons_of_neg (by simp [ht])]
  refine (le_ranked_iff (Nat.div_lt_self (by omega) (by omega)) d _).mpr ?_
  exact hdrop.trans (hself.trans (Nat.div_le_div_right hlen))

end UmbrellaLtc.OrderStatistic
