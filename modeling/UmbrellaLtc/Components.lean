import Mathlib.Logic.Relation
import Mathlib.Logic.Function.Basic
import Mathlib.Data.Set.Lattice

/-!
Groups of elements that may overlap, and the classes into which they fall: two elements are in
one class where a chain of groups, each sharing an element with the next, leads from one to the
other. The classes are a family of sets, of which some may be empty, so that two of them can be
merged in place.
-/

namespace UmbrellaLtc.Components

variable {α ι : Type*} {G : Set (Set α)} {R : ι → Set α} {a b c : α}

/-- One of the groups holds both. -/
def Linked (G : Set (Set α)) (a b : α) : Prop := ∃ g ∈ G, a ∈ g ∧ b ∈ g

/-- A chain of groups leads from one to the other. -/
def Connected (G : Set (Set α)) : α → α → Prop := Relation.TransGen (Linked G)

theorem Linked.symm (h : Linked G a b) : Linked G b a := by
  obtain ⟨g, hg, ha, hb⟩ := h
  exact ⟨g, hg, hb, ha⟩

theorem Linked.connected (h : Linked G a b) : Connected G a b := Relation.TransGen.single h

theorem Connected.mono {G' : Set (Set α)} (hsub : G ⊆ G') (h : Connected G a b) :
    Connected G' a b := by
  have hlinked : Linked G ≤ Linked G' := by
    rintro a b ⟨g, hg, hab⟩
    exact ⟨g, hsub hg, hab⟩
  exact Relation.TransGen.mono hlinked a b h

theorem Connected.trans (hab : Connected G a b) (hbc : Connected G b c) : Connected G a c :=
  Relation.TransGen.trans hab hbc

theorem Connected.symm (h : Connected G a b) : Connected G b a := by
  induction h with
  | single h => exact h.symm.connected
  | tail _ h ih => exact h.symm.connected.trans ih

/-- What is connected to anything is in a group. -/
theorem Connected.mem_left (h : Connected G a b) : ∃ g ∈ G, a ∈ g := by
  induction h with
  | single h =>
    obtain ⟨g, hg, ha, -⟩ := h
    exact ⟨g, hg, ha⟩
  | tail _ _ ih => exact ih

/-- The family `R` is the family of the classes of the groups `G`. -/
structure Classes (G : Set (Set α)) (R : ι → Set α) : Prop where
  disjoint : ∀ a i j, a ∈ R i → a ∈ R j → i = j
  inside : ∀ g ∈ G, ∃ i, g ⊆ R i
  joined : ∀ i, ∀ a ∈ R i, ∀ b ∈ R i, Connected G a b

namespace Classes

theorem mem_iff (h : Classes G R) : (∃ i, a ∈ R i) ↔ ∃ g ∈ G, a ∈ g := by
  constructor
  · rintro ⟨i, ha⟩
    exact (h.joined i a ha a ha).mem_left
  · rintro ⟨g, hg, ha⟩
    obtain ⟨i, hi⟩ := h.inside g hg
    exact ⟨i, hi ha⟩

theorem linked_mem (h : Classes G R) {i : ι} (hlinked : Linked G a b) (ha : a ∈ R i) :
    b ∈ R i := by
  obtain ⟨g, hg, hag, hbg⟩ := hlinked
  obtain ⟨j, hj⟩ := h.inside g hg
  rw [h.disjoint _ i j ha (hj hag)]
  exact hj hbg

/-- Two elements are in one class just where a chain of groups connects them. -/
theorem mem_mem_iff (h : Classes G R) : (∃ i, a ∈ R i ∧ b ∈ R i) ↔ Connected G a b := by
  constructor
  · rintro ⟨i, ha, hb⟩
    exact h.joined i a ha b hb
  · intro hab
    obtain ⟨i, ha⟩ := h.mem_iff.mpr hab.mem_left
    refine ⟨i, ha, ?_⟩
    -- along the chain, no step leaves the class of its start
    induction hab with
    | single hlinked => exact h.linked_mem hlinked ha
    | tail _ hlinked ih => exact h.linked_mem hlinked ih

theorem empty : Classes (∅ : Set (Set α)) fun _ : ι => ∅ where
  disjoint := fun _ _ _ ha => ha.elim
  inside := fun _ hg => hg.elim
  joined := fun _ _ ha => ha.elim

/-- A class of the merged group's reach is connected to the group. -/
theorem connected_hit (h : Classes G R) {g : Set α} {i : ι} (hhit : (R i ∩ g).Nonempty)
    (ha : a ∈ R i) : ∃ c ∈ g, Connected (insert g G) a c := by
  obtain ⟨c, hc, hcg⟩ := hhit
  exact ⟨c, hcg, (h.joined i a ha c hc).mono (Set.subset_insert g G)⟩

/-- One more group is merged with the classes that it hits, in a place `m` that was empty. -/
theorem merge (h : Classes G R) {g : Set α} {m : ι} {R' : ι → Set α} (hfree : R m = ∅)
    (hmerged : ∀ a, a ∈ R' m ↔ a ∈ g ∨ ∃ i, (R i ∩ g).Nonempty ∧ a ∈ R i)
    (hother : ∀ i, i ≠ m → ∀ a, a ∈ R' i ↔ ¬ (R i ∩ g).Nonempty ∧ a ∈ R i) :
    Classes (insert g G) R' := by
  have hapart : ∀ i, i ≠ m → ∀ a, a ∈ R' m → a ∉ R' i := by
    intro i hi a ham hai
    obtain ⟨hmiss, hai⟩ := (hother i hi a).mp hai
    obtain hag | ⟨j, hj, haj⟩ := (hmerged a).mp ham
    · exact hmiss ⟨a, hai, hag⟩
    · rw [h.disjoint _ i j hai haj] at hmiss
      exact hmiss hj
  have hreach : ∀ a ∈ R' m, ∃ c ∈ g, Connected (insert g G) a c := by
    intro a ha
    obtain hag | ⟨j, hj, haj⟩ := (hmerged a).mp ha
    · exact ⟨a, hag, Linked.connected ⟨g, Set.mem_insert g G, hag, hag⟩⟩
    · exact h.connected_hit hj haj
  constructor
  · intro a i j hi hj
    by_cases him : i = m
    · by_cases hjm : j = m
      · rw [him, hjm]
      · rw [him] at hi
        exact (hapart j hjm a hi hj).elim
    · by_cases hjm : j = m
      · rw [hjm] at hj
        exact (hapart i him a hj hi).elim
      · exact h.disjoint _ i j ((hother i him a).mp hi).2 ((hother j hjm a).mp hj).2
  · intro g' hg'
    rcases hg' with rfl | hg'
    · exact ⟨m, fun a ha => (hmerged a).mpr (Or.inl ha)⟩
    · obtain ⟨i, hi⟩ := h.inside g' hg'
      by_cases hhit : (R i ∩ g).Nonempty
      · exact ⟨m, fun a ha => (hmerged a).mpr (Or.inr ⟨i, hhit, hi ha⟩)⟩
      · by_cases him : i = m
        · rw [him, hfree] at hi
          exact ⟨m, fun a ha => (hi ha).elim⟩
        · exact ⟨i, fun a ha => (hother i him a).mpr ⟨hhit, hi ha⟩⟩
  · intro i a ha b hb
    by_cases him : i = m
    · rw [him] at ha hb
      obtain ⟨c, hc, hac⟩ := hreach a ha
      obtain ⟨d, hd, hbd⟩ := hreach b hb
      have hcd : Connected (insert g G) c d :=
        Linked.connected ⟨g, Set.mem_insert g G, hc, hd⟩
      exact (hac.trans hcd).trans hbd.symm
    · exact (h.joined i a ((hother i him a).mp ha).2 b ((hother i him b).mp hb).2).mono
        (Set.subset_insert g G)

end Classes

end UmbrellaLtc.Components
