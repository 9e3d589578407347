import Mathlib.Data.List.Basic
import Mathlib.Data.Nat.Digits.Lemmas

/-!
Strings of digits in a base, the most significant one first, with the zeros in front. A string is
the number of these zeros and the value of the whole: in one base and in another, the same two
numbers stand for a string each.
-/

namespace UmbrellaLtc.Positional

/-- The zeros in front. -/
def leading (l : List ℕ) : ℕ := (l.takeWhile fun d => d = 0).length

def value (b : ℕ) (l : List ℕ) : ℕ := Nat.ofDigits b l.reverse

/-- The string with `z` zeros in front of the digits of `n`. -/
def expand (b z n : ℕ) : List ℕ := List.replicate z 0 ++ (b.digits n).reverse

section Values

variable {b : ℕ}

theorem value_concat (b : ℕ) (l : List ℕ) (d : ℕ) : value b (l ++ [d]) = value b l * b + d := by
  rw [value, List.reverse_concat, Nat.ofDigits_cons, value]
  ring

theorem value_append (b : ℕ) (l l' : List ℕ) :
    value b (l ++ l') = value b l * b ^ l'.length + value b l' := by
  rw [value, List.reverse_append, Nat.ofDigits_append, List.length_reverse, value, value]
  ring

theorem value_cons (b d : ℕ) (l : List ℕ) : value b (d :: l) = d * b ^ l.length + value b l := by
  rw [← List.singleton_append, value_append]
  simp [value]

theorem value_lt (hb : 1 < b) {l : List ℕ} (hl : ∀ d ∈ l, d < b) : value b l < b ^ l.length := by
  rw [value, ← List.length_reverse]
  exact Nat.ofDigits_lt_base_pow_length hb fun d hd => hl d (List.mem_reverse.mp hd)

theorem value_replicate_append (b z : ℕ) (l : List ℕ) :
    value b (List.replicate z 0 ++ l) = value b l := by
  rw [value, List.reverse_append, List.reverse_replicate, Nat.ofDigits_append_replicate_zero,
    value]

theorem value_expand (b z n : ℕ) : value b (expand b z n) = n := by
  rw [expand, value_replicate_append, value, List.reverse_reverse]
  exact Nat.ofDigits_digits b n

theorem leading_replicate_append (z : ℕ) {l : List ℕ} (h : ∀ d ∈ l.head?, d ≠ 0) :
    leading (List.replicate z 0 ++ l) = z := by
  have hstop : l.takeWhile (fun d => d = 0) = [] := by
    cases l with
    | nil => rfl
    | cons d l => exact List.takeWhile_cons_of_neg (by simpa using h d rfl)
  rw [leading, List.takeWhile_append_of_pos, hstop, List.append_nil, List.length_replicate]
  intro d hd
  simp [List.eq_of_mem_replicate hd]

theorem head_digits_ne_zero (b n : ℕ) : ∀ d ∈ (b.digits n).reverse.head?, d ≠ 0 := by
  intro d hd
  rw [List.head?_reverse] at hd
  obtain ⟨hne, rfl⟩ := List.mem_getLast?_eq_getLast hd
  exact Nat.getLast_digit_ne_zero b (Nat.digits_ne_nil_iff_ne_zero.mp hne)

theorem leading_expand (b z n : ℕ) : leading (expand b z n) = z :=
  leading_replicate_append z (head_digits_ne_zero b n)

theorem exists_replicate_append (l : List ℕ) :
    ∃ z rest, l = List.replicate z 0 ++ rest ∧ ∀ d ∈ rest.head?, d ≠ 0 := by
  induction l with
  | nil => exact ⟨0, [], rfl, fun d hd => by simp at hd⟩
  | cons d l ih =>
    by_cases hd : d = 0
    · obtain ⟨z, rest, rfl, hrest⟩ := ih
      exact ⟨z + 1, rest, by rw [hd]; rfl, hrest⟩
    · exact ⟨0, d :: l, rfl, fun d' hd' => by simpa using (Option.some.inj hd') ▸ hd⟩

/-- A string of digits is what its zeros and its value give. -/
theorem expand_leading_value (hb : 1 < b) {l : List ℕ} (hl : ∀ d ∈ l, d < b) :
    expand b (leading l) (value b l) = l := by
  obtain ⟨z, rest, rfl, hrest⟩ := exists_replicate_append l
  have hdigits : b.digits (Nat.ofDigits b rest.reverse) = rest.reverse := by
    apply Nat.digits_ofDigits b hb
    · intro d hd
      exact hl d (List.mem_append_right _ (List.mem_reverse.mp hd))
    · intro hne
      rw [List.getLast_reverse]
      exact hrest _ (List.head_mem_head? _)
  rw [leading_replicate_append z hrest, value_replicate_append, expand, value, hdigits,
    List.reverse_reverse]

theorem lt_of_mem_expand (hb : 1 < b) {z n d : ℕ} (h : d ∈ expand b z n) : d < b := by
  rcases List.mem_append.mp h with h | h
  · rw [List.eq_of_mem_replicate h]
    exact Nat.zero_lt_of_lt hb
  · exact Nat.digits_lt_base hb (List.mem_reverse.mp h)

/-- From one base to another and back. -/
theorem expand_expand {b' : ℕ} (hb : 1 < b) {l : List ℕ} (hl : ∀ d ∈ l, d < b) :
    expand b (leading (expand b' (leading l) (value b l)))
      (value b' (expand b' (leading l) (value b l))) = l := by
  rw [leading_expand, value_expand, expand_leading_value hb hl]

end Values

end UmbrellaLtc.Positional
