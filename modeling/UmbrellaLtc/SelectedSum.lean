import Mathlib.Algebra.BigOperators.Group.List.Basic
import Mathlib.Algebra.Order.Group.Int
import Mathlib.Tactic.Linarith

/-!
Sums over the elements of a list that a list of flags selects. Setting or clearing one flag moves
the sum by the value of its element.
-/

namespace UmbrellaLtc.SelectedSum

variable {α : Type}

/-- The elements whose flag is set. -/
def selected : List α → List Bool → List α
  | a :: l, b :: flags => if b then a :: selected l flags else selected l flags
  | _, _ => []

variable (value : α → ℤ)

def total (l : List α) : ℤ := (l.map value).sum

variable {value} {l : List α} {flags : List Bool} {a : α} {i : ℕ}

@[simp] theorem total_nil : total value [] = 0 := rfl

@[simp] theorem total_cons : total value (a :: l) = value a + total value l := List.sum_cons

theorem total_concat : total value (l ++ [a]) = total value l + value a := by
  simp [total]

theorem total_perm {l' : List α} (h : l.Perm l') : total value l = total value l' :=
  (h.map value).sum_eq

theorem selected_sublist : (selected l flags).Sublist l := by
  induction l generalizing flags with
  | nil => simp [selected]
  | cons a l ih =>
    cases flags with
    | nil => exact List.nil_sublist _
    | cons b flags =>
      cases b with
      | true => exact ih.cons_cons a
      | false => exact ih.cons a

theorem selected_all : selected l (List.replicate l.length true) = l := by
  induction l with
  | nil => rfl
  | cons a l ih => simpa [selected, List.replicate_succ] using ih

theorem selected_none (n : ℕ) : selected l (List.replicate n false) = [] := by
  induction l generalizing n with
  | nil => rfl
  | cons a l ih =>
    cases n with
    | zero => rfl
    | succ n => exact ih n

/-- Setting a flag adds the value of its element. -/
theorem total_selected_set_true (ha : l[i]? = some a) (hoff : flags[i]? = some false) :
    total value (selected l (flags.set i true)) = total value (selected l flags) + value a := by
  induction l generalizing flags i with
  | nil => cases ha
  | cons c l ih =>
    cases flags with
    | nil => cases hoff
    | cons b flags =>
      cases i with
      | zero =>
        simp only [List.getElem?_cons_zero, Option.some.injEq] at ha hoff
        rw [ha, hoff]
        simp [selected, add_comm]
      | succ i =>
        have hrest := ih ha hoff
        cases b with
        | true =>
          show value c + total value (selected l (flags.set i true)) =
            value c + total value (selected l flags) + value a
          rw [hrest, add_assoc]
        | false => exact hrest

/-- Clearing a flag that was set for a trial gives the flags back. -/
theorem set_true_false (hoff : flags[i]? = some false) : (flags.set i true).set i false = flags := by
  obtain ⟨hlt, hget⟩ := List.getElem?_eq_some_iff.mp hoff
  rw [List.set_set, ← hget, List.set_getElem_self]

theorem total_le_of_sublist {l' : List α} (hsub : l'.Sublist l) (hnonneg : ∀ a ∈ l, 0 ≤ value a) :
    total value l' ≤ total value l := by
  induction hsub with
  | slnil => exact le_rfl
  | cons a hsub ih =>
    have hrest := ih fun b hb => hnonneg b (List.mem_cons_of_mem a hb)
    have ha := hnonneg a (List.mem_cons_self ..)
    rw [total_cons]
    omega
  | cons_cons a hsub ih =>
    have hrest := ih fun b hb => hnonneg b (List.mem_cons_of_mem a hb)
    rw [total_cons, total_cons]
    omega

theorem total_nonneg (hnonneg : ∀ a ∈ l, 0 ≤ value a) : 0 ≤ total value l :=
  total_le_of_sublist (List.nil_sublist l) hnonneg

end UmbrellaLtc.SelectedSum
