import Mathlib.Data.List.Forall2

/-!
Matching one list into another in order. A scan gives each element to the first partner that is
left and fits. It succeeds just where the elements have partners in the order of the partners.
-/

namespace UmbrellaLtc.GreedyMatch

variable {α β : Type*} {fits : α → β → Bool} {as : List α} {bs : List β}

/-- The elements have partners that fit, in the same order. -/
abbrev Embeds (fits : α → β → Bool) : List α → List β → Prop :=
  List.SublistForall₂ fun a b => fits a b = true

/-- The scan over the partners, with the elements that wait for one. -/
def greedy (fits : α → β → Bool) : List α → List β → Bool
  | [], _ => true
  | _ :: _, [] => false
  | a :: as, b :: bs => if fits a b then greedy fits as bs else greedy fits (a :: as) bs

section Relations

variable {R R' : α → β → Prop}

theorem sublistForall₂_imp (h : List.SublistForall₂ R as bs)
    (himp : ∀ a ∈ as, ∀ b ∈ bs, R a b → R' a b) : List.SublistForall₂ R' as bs := by
  induction h with
  | nil => exact .nil
  | @cons a b as bs hab _ ih =>
    refine .cons (himp a List.mem_cons_self b List.mem_cons_self hab) ?_
    exact ih fun a' ha' b' hb' =>
      himp a' (List.mem_cons_of_mem _ ha') b' (List.mem_cons_of_mem _ hb')
  | cons_right _ ih => exact (ih fun a ha b hb => himp a ha b (List.mem_cons_of_mem _ hb)).cons_right

theorem exists_of_sublistForall₂ (h : List.SublistForall₂ R as bs) :
    ∀ a ∈ as, ∃ b ∈ bs, R a b := by
  obtain ⟨bs', hforall, hsub⟩ := List.sublistForall₂_iff.mp h
  intro a ha
  obtain ⟨i, hi, rfl⟩ := List.mem_iff_getElem.mp ha
  have hi' : i < bs'.length := by rwa [← hforall.length_eq]
  exact ⟨bs'[i], hsub.subset (List.getElem_mem hi'), hforall.get hi hi'⟩

end Relations

theorem Embeds.tail {a : α} (h : Embeds fits (a :: as) bs) : Embeds fits as bs := by
  induction bs with
  | nil => cases h
  | cons b bs ih =>
    cases h with
    | cons _ hrest => exact hrest.cons_right
    | cons_right hrest => exact (ih hrest).cons_right

theorem Embeds.length_le (h : Embeds fits as bs) : as.length ≤ bs.length := by
  obtain ⟨bs', hforall, hsub⟩ := List.sublistForall₂_iff.mp h
  rw [hforall.length_eq]
  exact hsub.length_le

/-- The first partner that fits can always be taken. -/
theorem greedy_iff : greedy fits as bs = true ↔ Embeds fits as bs := by
  induction bs generalizing as with
  | nil =>
    cases as with
    | nil => exact iff_of_true rfl .nil
    | cons a as => exact iff_of_false (by simp [greedy]) (by rintro ⟨⟩)
  | cons b bs ih =>
    cases as with
    | nil => exact iff_of_true rfl .nil
    | cons a as =>
      rw [greedy]
      by_cases hfits : fits a b = true
      · rw [if_pos hfits, ih]
        constructor
        · exact fun h => .cons hfits h
        · intro h
          cases h with
          | cons _ hrest => exact hrest
          | cons_right hrest => exact Embeds.tail hrest
      · rw [if_neg hfits, ih]
        constructor
        · exact fun h => h.cons_right
        · intro h
          cases h with
          | cons hpair _ => exact absurd hpair hfits
          | cons_right hrest => exact hrest

theorem greedy_of_length_lt (h : bs.length < as.length) : greedy fits as bs = false := by
  rw [Bool.eq_false_iff, ne_eq, greedy_iff]
  intro hembeds
  have hle := hembeds.length_le
  omega

theorem Embeds.reverse (h : Embeds fits as bs) : Embeds fits as.reverse bs.reverse := by
  obtain ⟨bs', hforall, hsub⟩ := List.sublistForall₂_iff.mp h
  exact List.sublistForall₂_iff.mpr ⟨bs'.reverse, List.rel_reverse hforall, hsub.reverse⟩

theorem embeds_reverse : Embeds fits as.reverse bs.reverse ↔ Embeds fits as bs := by
  constructor
  · intro h
    have hback := h.reverse
    rwa [List.reverse_reverse, List.reverse_reverse] at hback
  · exact Embeds.reverse

/-- What is picked for some of the partners fits them in order. -/
theorem embeds_filterMap {pick : β → Option α}
    (h : ∀ b ∈ bs, ∀ a, pick b = some a → fits a b = true) :
    Embeds fits (bs.filterMap pick) bs := by
  induction bs with
  | nil => exact .nil
  | cons b bs ih =>
    obtain ⟨hb, hbs⟩ := List.forall_mem_cons.mp h
    cases hpick : pick b with
    | none =>
      rw [List.filterMap_cons_none hpick]
      exact (ih hbs).cons_right
    | some a =>
      rw [List.filterMap_cons_some hpick]
      exact .cons (hb a hpick) (ih hbs)

theorem Embeds.of_sublist {as' : List α} (h : Embeds fits as bs) (hsub : as'.Sublist as) :
    Embeds fits as' bs := by
  induction h generalizing as' with
  | nil =>
    rw [List.eq_nil_of_sublist_nil hsub]
    exact .nil
  | cons hfits _ ih =>
    cases hsub with
    | cons _ hrest => exact (ih hrest).cons_right
    | cons_cons _ hrest => exact .cons hfits (ih hrest)
  | cons_right _ ih => exact (ih hsub).cons_right

/-- As many partners have an element that fits them as there are elements. -/
theorem Embeds.length_le_countP (h : Embeds fits as bs) {p : β → Bool}
    (hp : ∀ a ∈ as, ∀ b ∈ bs, fits a b = true → p b = true) : as.length ≤ bs.countP p := by
  induction h with
  | nil => exact Nat.zero_le _
  | @cons a b as bs hfits _ ih =>
    have hb : p b = true := hp a List.mem_cons_self b List.mem_cons_self hfits
    rw [List.countP_cons_of_pos hb, List.length_cons]
    apply Nat.succ_le_succ
    exact ih fun a' ha' b' hb' => hp a' (List.mem_cons_of_mem _ ha') b' (List.mem_cons_of_mem _ hb')
  | @cons_right b as bs _ ih =>
    have hle := ih fun a' ha' b' hb' => hp a' ha' b' (List.mem_cons_of_mem _ hb')
    have hcount : bs.countP p ≤ (b :: bs).countP p := (List.sublist_cons_self b bs).countP_le
    omega

/-- A condition that follows from another and holds as seldom holds of the same partners. -/
theorem of_countP_le {p q : β → Bool} (hpq : ∀ b ∈ bs, p b = true → q b = true)
    (hle : bs.countP q ≤ bs.countP p) {b : β} (hb : b ∈ bs) (hqb : q b = true) : p b = true := by
  have hkept : (bs.filter p).filter q = bs.filter p :=
    List.filter_eq_self.mpr fun c hc => hpq c (List.mem_filter.mp hc).1 (List.mem_filter.mp hc).2
  have hsub : (bs.filter p).Sublist (bs.filter q) := by
    rw [← hkept]
    exact List.Sublist.filter q List.filter_sublist
  have heq : bs.filter p = bs.filter q := by
    refine hsub.eq_of_length_le ?_
    rwa [← List.countP_eq_length_filter, ← List.countP_eq_length_filter]
  have hmem : b ∈ bs.filter p := heq ▸ List.mem_filter.mpr ⟨hb, hqb⟩
  exact (List.mem_filter.mp hmem).2

end UmbrellaLtc.GreedyMatch
