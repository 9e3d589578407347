import Mathlib.Logic.Relation
import Mathlib.Logic.Function.Basic
import Mathlib.Data.List.Basic

/-!
Trees given by a parent pointer, with a height that grows from parent to child. A
branch is the list of nodes from one node up to another. Successor
links along the path to one node, the best, are moved to another node by
clearing those of one branch and setting those of another.
-/

namespace UmbrellaLtc.Forest

variable {α : Type} {parent : α → Option α} {height : α → ℕ}

/-- Heights grow from parent to child. -/
def Graded (parent : α → Option α) (height : α → ℕ) : Prop :=
  ∀ c p, parent c = some p → height p < height c

/-- `a` is `b`, or an ancestor of it. -/
def Anc (parent : α → Option α) (a b : α) : Prop :=
  Relation.ReflTransGen (fun c p => parent c = some p) b a

/-- The nodes from the first argument on, along the parents, as far as the last. -/
inductive Branch (parent : α → Option α) : Option α → List α → Option α → Prop
  | nil (x : Option α) : Branch parent x [] x
  | cons {c : α} {rest : List α} {stop : Option α} (h : Branch parent (parent c) rest stop) :
      Branch parent (some c) (c :: rest) stop

/-- `next` leads from every proper ancestor of the best node to it, and from nowhere else. -/
def Linked (parent next : α → Option α) (best : Option α) : Prop :=
  ∀ p c, next p = some c ↔ parent c = some p ∧ ∃ b, best = some b ∧ Anc parent c b

section Ancestors

variable {a b c d : α}

theorem Anc.height_le (hg : Graded parent height) (h : Anc parent a b) : height a ≤ height b := by
  induction h with
  | refl => exact Nat.le_refl _
  | tail _ hstep ih =>
    have hup := hg _ _ hstep
    omega

theorem Anc.eq_of_height (hg : Graded parent height) (h : Anc parent a b)
    (hh : height b ≤ height a) : a = b := by
  cases h.cases_head with
  | inl heq => exact heq.symm
  | inr hstep =>
    obtain ⟨p, hp, hanc⟩ := hstep
    have hup := hg b p hp
    have hle := Anc.height_le hg (show Anc parent a p from hanc)
    omega

/-- Of two ancestors of one node, one is an ancestor of the other. -/
theorem Anc.total (ha : Anc parent a d) (hb : Anc parent b d) : Anc parent b a ∨ Anc parent a b := by
  have huniq : Relator.RightUnique fun c p : α => parent c = some p := by
    intro x y z hy hz
    exact Option.some.inj (hy.symm.trans hz)
  exact Relation.ReflTransGen.total_of_right_unique huniq ha hb

/-- A proper ancestor is an ancestor of the parent. -/
theorem Anc.of_parent (h : Anc parent a b) (hne : a ≠ b) (hp : parent b = some c) :
    Anc parent a c := by
  cases h.cases_head with
  | inl heq => exact absurd heq.symm hne
  | inr hstep =>
    obtain ⟨p, hp', hanc⟩ := hstep
    obtain rfl := Option.some.inj (hp.symm.trans hp')
    exact hanc

/-- Two ancestors of one node with the same parent are the same. -/
theorem Anc.sibling (hg : Graded parent height) (ha : Anc parent a d) (hb : Anc parent b d)
    (hap : parent a = some c) (hbp : parent b = some c) : a = b := by
  have hac := hg a c hap
  have hbc := hg b c hbp
  by_contra hne
  rcases ha.total hb with hba | hab
  · have hle := (hba.of_parent (Ne.symm hne) hap).height_le hg
    omega
  · have hle := (hab.of_parent hne hbp).height_le hg
    omega

theorem Anc.child (h : Anc parent a b) (hne : a ≠ b) :
    ∃ c, parent c = some a ∧ Anc parent c b := by
  cases h.cases_tail with
  | inl heq => exact absurd heq.symm hne.symm
  | inr hstep =>
    obtain ⟨c, hanc, hc⟩ := hstep
    exact ⟨c, hc, hanc⟩

theorem Anc.parent_of (h : Anc parent c b) (hc : parent c = some a) : Anc parent a b :=
  Relation.ReflTransGen.tail h hc

end Ancestors

section Upwards

variable {a b : α}

/-- As many parents up as there are, at most so many. -/
def back (parent : α → Option α) : ℕ → Option α → Option α
  | 0, x => x
  | _ + 1, none => none
  | n + 1, some b => back parent n (parent b)

@[simp] theorem back_none (n : ℕ) : back parent n none = none := by
  cases n <;> rfl

theorem back_add (m n : ℕ) (x : Option α) :
    back parent (m + n) x = back parent n (back parent m x) := by
  induction m generalizing x with
  | zero => rw [Nat.zero_add, back]
  | succ m ih =>
    rw [Nat.succ_add]
    cases x with
    | none => rw [back_none, back_none, back_none]
    | some b => exact ih (parent b)

theorem back_anc {n : ℕ} (h : back parent n (some b) = some a) : Anc parent a b := by
  induction n generalizing b with
  | zero =>
    cases h
    exact Relation.ReflTransGen.refl
  | succ n ih =>
    rw [back] at h
    cases hp : parent b with
    | none => simp [hp] at h
    | some p =>
      rw [hp] at h
      exact Relation.ReflTransGen.head hp (ih h)

/-- Where heights are exact, so many parents up is so much lower. -/
theorem back_height (hexact : ∀ c p, parent c = some p → height c = height p + 1) {n : ℕ}
    (h : back parent n (some b) = some a) : height b = height a + n := by
  induction n generalizing b with
  | zero =>
    cases h
    rfl
  | succ n ih =>
    rw [back] at h
    cases hp : parent b with
    | none => simp [hp] at h
    | some p =>
      rw [hp] at h
      have hup := hexact b p hp
      have hrest := ih h
      omega

/-- Every node has a root above it. -/
theorem exists_root (hg : Graded parent height) (b : α) :
    ∃ a, Anc parent a b ∧ parent a = none := by
  induction hn : height b using Nat.strongRecOn generalizing b with
  | ind n ih =>
    cases hp : parent b with
    | none => exact ⟨b, Relation.ReflTransGen.refl, hp⟩
    | some p =>
      have hup := hg b p hp
      obtain ⟨a, hanc, hroot⟩ := ih (height p) (by omega) p rfl
      exact ⟨a, Relation.ReflTransGen.head hp hanc, hroot⟩

end Upwards

section Branches

variable {b c : α} {l : List α} {start stop : Option α}

/-- The members of a branch are ancestors of its start. -/
theorem Branch.anc (h : Branch parent start l stop) (hc : c ∈ l) :
    ∃ b, start = some b ∧ Anc parent c b := by
  induction h with
  | nil => exact absurd hc List.not_mem_nil
  | @cons d rest stop _ ih =>
    refine ⟨d, rfl, ?_⟩
    rcases List.mem_cons.mp hc with rfl | hmem
    · exact Relation.ReflTransGen.refl
    · obtain ⟨b, hb, hanc⟩ := ih hmem
      exact Relation.ReflTransGen.head hb hanc

/-- The node where a branch stops is an ancestor of its start. -/
theorem Branch.stop_anc (h : Branch parent start l stop) {f : α} (hf : stop = some f) :
    ∃ b, start = some b ∧ Anc parent f b := by
  induction h with
  | nil => exact ⟨f, hf, Relation.ReflTransGen.refl⟩
  | @cons d rest stop _ ih =>
    obtain ⟨b, hb, hanc⟩ := ih hf
    exact ⟨d, rfl, Relation.ReflTransGen.head hb hanc⟩

/-- An ancestor of the start is in the branch, or beyond where it stops. -/
theorem Branch.split (h : Branch parent start l stop) (hb : start = some b)
    (hc : Anc parent c b) : c ∈ l ∨ ∃ f, stop = some f ∧ Anc parent c f := by
  induction h generalizing b with
  | nil => exact Or.inr ⟨b, hb, hc⟩
  | @cons d rest stop _ ih =>
    obtain rfl := Option.some.inj hb
    cases hc.cases_head with
    | inl heq =>
      subst heq
      exact Or.inl List.mem_cons_self
    | inr hstep =>
      obtain ⟨p, hp, hanc⟩ := hstep
      rcases ih hp hanc with hmem | hbeyond
      · exact Or.inl (List.mem_cons_of_mem _ hmem)
      · exact Or.inr hbeyond

/-- The members of a branch are higher than where it stops. -/
theorem Branch.height_lt (hg : Graded parent height) (h : Branch parent start l stop) {f : α}
    (hf : stop = some f) (hc : c ∈ l) : height f < height c := by
  induction h with
  | nil => exact absurd hc List.not_mem_nil
  | @cons d rest stop hrest ih =>
    rcases List.mem_cons.mp hc with rfl | hmem
    · obtain ⟨p, hp, hanc⟩ := hrest.stop_anc hf
      have hup := hg c p hp
      have hle := hanc.height_le hg
      omega
    · exact ih hf hmem

/-- A branch down to the last common ancestor has no other ancestor of the old node. -/
theorem Branch.not_anc (hg : Graded parent height) {old new f : α}
    (h : Branch parent (some new) l (some f))
    (hfork : ∀ a, Anc parent a old → Anc parent a new → Anc parent a f) (hc : c ∈ l) :
    ¬ Anc parent c old := by
  intro hold
  obtain ⟨b, hb, hnew⟩ := h.anc hc
  obtain rfl := Option.some.inj hb
  have hle := (hfork c hold hnew).height_le hg
  have hlt := h.height_lt hg rfl hc
  omega

/-- One parent has one child in a branch. -/
theorem Branch.parent_inj (hg : Graded parent height) (h : Branch parent start l stop) {d p : α}
    (hc : c ∈ l) (hd : d ∈ l) (hcp : parent c = some p) (hdp : parent d = some p) : d = c := by
  obtain ⟨b, hb, hcb⟩ := h.anc hc
  obtain ⟨b', hb', hdb⟩ := h.anc hd
  obtain rfl : b = b' := Option.some.inj (hb.symm.trans hb')
  exact hdb.sibling hg hcb hdp hcp

end Branches

section Links

variable [DecidableEq α]

/-- The links of the parents of some nodes set, one after the other. -/
def assign (parent value : α → Option α) (next : α → Option α) : List α → α → Option α
  | [] => next
  | c :: rest =>
      match parent c with
      | none => assign parent value next rest
      | some p => assign parent value (Function.update next p (value c)) rest

variable {value next : α → Option α} {l : List α}

theorem assign_of_notMem {p : α} (h : ∀ c ∈ l, parent c ≠ some p) :
    assign parent value next l p = next p := by
  induction l generalizing next with
  | nil => rfl
  | cons c rest ih =>
    have hrest : ∀ d ∈ rest, parent d ≠ some p := fun d hd => h d (List.mem_cons_of_mem _ hd)
    have hc := h c List.mem_cons_self
    unfold assign
    cases hp : parent c with
    | none => exact ih hrest
    | some q =>
      dsimp only
      rw [ih hrest, Function.update_of_ne]
      rintro rfl
      exact hc hp

theorem assign_of_mem {c p : α} (hc : c ∈ l) (hp : parent c = some p)
    (huniq : ∀ d ∈ l, parent d = some p → d = c) :
    assign parent value next l p = value c := by
  induction l generalizing next with
  | nil => exact absurd hc List.not_mem_nil
  | cons d rest ih =>
    have hrest : ∀ e ∈ rest, parent e = some p → e = c :=
      fun e he => huniq e (List.mem_cons_of_mem _ he)
    by_cases hmem : c ∈ rest
    · unfold assign
      cases parent d with
      | none => exact ih hmem hrest
      | some q => exact ih hmem hrest
    · have hdc : c = d := by
        rcases List.mem_cons.mp hc with heq | hin
        · exact heq
        · exact absurd hin hmem
      subst hdc
      have hnone : ∀ e ∈ rest, parent e ≠ some p := by
        intro e he hep
        exact hmem (hrest e he hep ▸ he)
      unfold assign
      rw [hp]
      dsimp only
      rw [assign_of_notMem hnone, Function.update_self]

/-- The links of the parents cleared. -/
def unlink (parent next : α → Option α) (l : List α) : α → Option α :=
  assign parent (fun _ => none) next l

/-- The links of the parents set. -/
def link (parent next : α → Option α) (l : List α) : α → Option α :=
  assign parent some next l

/-- Moving the links from one best node to another, across the fork of their branches. -/
theorem Linked.switch (hg : Graded parent height) {old stop : Option α} {new : α}
    {down up up' : List α} (h : Linked parent next old) (hdown : Branch parent old down stop)
    (hup : Branch parent (some new) up stop) (hperm : ∀ c, c ∈ up' ↔ c ∈ up) :
    Linked parent (link parent (unlink parent next down) up') (some new) := by
  intro p c
  by_cases hset : ∃ d ∈ up, parent d = some p
  · obtain ⟨d, hd, hdp⟩ := hset
    have hvalue : link parent (unlink parent next down) up' p = some d := by
      apply assign_of_mem ((hperm d).mpr hd) hdp
      intro e he hep
      exact hup.parent_inj hg hd ((hperm e).mp he) hdp hep
    rw [hvalue]
    constructor
    · intro heq
      obtain rfl := Option.some.inj heq
      exact ⟨hdp, hup.anc hd⟩
    · rintro ⟨hcp, b, hb, hanc⟩
      obtain ⟨b', hb', hdanc⟩ := hup.anc hd
      rw [Option.some.inj (hb'.symm.trans hb)] at hdanc
      congr 1
      exact hdanc.sibling hg hanc hdp hcp
  · have hkeep : link parent (unlink parent next down) up' p = unlink parent next down p := by
      apply assign_of_notMem
      intro e he hep
      exact hset ⟨e, (hperm e).mp he, hep⟩
    rw [hkeep]
    by_cases hcleared : ∃ d ∈ down, parent d = some p
    · obtain ⟨d, hd, hdp⟩ := hcleared
      have hvalue : unlink parent next down p = none := by
        apply assign_of_mem hd hdp
        intro e he hep
        exact hdown.parent_inj hg hd he hdp hep
      rw [hvalue]
      constructor
      · intro habs
        exact absurd habs (by simp)
      · -- a child on the new side would be as high as one that is cleared
        rintro ⟨hcp, b, hb, hanc⟩
        rcases hup.split hb hanc with hmem | ⟨f, hf, hcf⟩
        · exact absurd ⟨c, hmem, hcp⟩ hset
        · have hlt := hdown.height_lt hg hf hd
          have hle := hcf.height_le hg
          obtain ⟨b', hb', hfb⟩ := hdown.stop_anc hf
          obtain ⟨b'', hb'', hdb⟩ := hdown.anc hd
          obtain rfl := Option.some.inj (hb'.symm.trans hb'')
          have hcb : Anc parent c b' := Relation.ReflTransGen.trans hfb hcf
          rw [hcb.sibling hg hdb hcp hdp] at hle
          omega
    · have hold : unlink parent next down p = next p := by
        apply assign_of_notMem
        intro e he hep
        exact hcleared ⟨e, he, hep⟩
      rw [hold, h p c]
      constructor
      · rintro ⟨hcp, b, hb, hanc⟩
        refine ⟨hcp, new, rfl, ?_⟩
        rcases hdown.split hb hanc with hmem | ⟨f, hf, hcf⟩
        · exact absurd ⟨c, hmem, hcp⟩ hcleared
        · obtain ⟨b', hb', hfb⟩ := hup.stop_anc hf
          obtain rfl := Option.some.inj hb'
          exact Relation.ReflTransGen.trans hfb hcf
      · rintro ⟨hcp, b, hb, hanc⟩
        refine ⟨hcp, ?_⟩
        rcases hup.split hb hanc with hmem | ⟨f, hf, hcf⟩
        · exact absurd ⟨c, hmem, hcp⟩ hset
        · obtain ⟨b', hb', hfb⟩ := hdown.stop_anc hf
          exact ⟨b', hb', Relation.ReflTransGen.trans hfb hcf⟩

end Links

section Growing

variable [DecidableEq α] {next : α → Option α} {x : α} {v : Option α}

/-- A new node without children changes no ancestor of the nodes that were there. -/
theorem anc_update {b c : α} (hleaf : ∀ c, parent c ≠ some x) (hb : b ≠ x) :
    Anc (Function.update parent x v) c b ↔ Anc parent c b := by
  have hsame : ∀ d, d ≠ x → Function.update parent x v d = parent d := by
    intro d hd
    exact Function.update_of_ne hd _ _
  constructor
  · intro h
    have hboth : Anc parent c b ∧ c ≠ x := by
      induction h with
      | refl => exact ⟨Relation.ReflTransGen.refl, hb⟩
      | tail _ hstep ih =>
        rw [hsame _ ih.2] at hstep
        refine ⟨ih.1.parent_of hstep, ?_⟩
        rintro rfl
        exact hleaf _ hstep
    exact hboth.1
  · intro h
    have hboth : Anc (Function.update parent x v) c b ∧ c ≠ x := by
      induction h with
      | refl => exact ⟨Relation.ReflTransGen.refl, hb⟩
      | tail _ hstep ih =>
        refine ⟨ih.1.parent_of ((hsame _ ih.2).trans hstep), ?_⟩
        rintro rfl
        exact hleaf _ hstep
    exact hboth.1

theorem Linked.grow {best : Option α} (h : Linked parent next best)
    (hleaf : ∀ c, parent c ≠ some x) (hroot : parent x = none) (hbest : best ≠ some x) :
    Linked (Function.update parent x v) next best := by
  intro p c
  rw [h p c]
  by_cases hc : c = x
  · subst hc
    constructor
    · rintro ⟨hp, -⟩
      rw [hroot] at hp
      exact absurd hp (by simp)
    · rintro ⟨-, b, rfl, hanc⟩
      have hb : b ≠ c := fun heq => hbest (congrArg some heq)
      rw [anc_update hleaf hb] at hanc
      obtain ⟨d, hd, -⟩ := hanc.child (Ne.symm hb)
      exact absurd hd (hleaf d)
  · rw [Function.update_of_ne hc]
    apply and_congr_right
    intro _
    apply exists_congr
    intro b
    apply and_congr_right
    rintro rfl
    exact (anc_update hleaf fun heq => hbest (congrArg some heq)).symm

end Growing

section Reading

variable {next : α → Option α} {p c : α}

theorem linked_none : Linked parent (fun _ => none) none := by
  intro p c
  simp

/-- Tree and best node determine the links. -/
theorem Linked.unique {next' : α → Option α} {best : Option α} (h : Linked parent next best)
    (h' : Linked parent next' best) : next = next' := by
  funext p
  apply Option.ext
  intro c
  exact (h p c).trans (h' p c).symm

/-- The link of a node, where there is one, is to a child of the node. -/
theorem Linked.parent_next {best : Option α} (h : Linked parent next best)
    (hn : next p = some c) : parent c = some p := ((h p c).mp hn).1

/-- A node has a link just when it is a proper ancestor of the best node. -/
theorem Linked.isSome_iff (hg : Graded parent height) {best : Option α}
    (h : Linked parent next best) :
    next p ≠ none ↔ ∃ b, best = some b ∧ Anc parent p b ∧ p ≠ b := by
  constructor
  · intro hne
    obtain ⟨c, hc⟩ := Option.ne_none_iff_exists'.mp hne
    obtain ⟨hcp, b, hb, hanc⟩ := (h p c).mp hc
    refine ⟨b, hb, hanc.parent_of hcp, ?_⟩
    rintro rfl
    have hup := hg c p hcp
    have hle := hanc.height_le hg
    omega
  · rintro ⟨b, hb, hanc, hne⟩
    obtain ⟨c, hcp, hcb⟩ := hanc.child hne
    rw [(h p c).mpr ⟨hcp, b, hb, hcb⟩]
    simp

end Reading

end UmbrellaLtc.Forest
