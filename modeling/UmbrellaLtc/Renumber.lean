import Mathlib.Algebra.Order.Group.Int
import Mathlib.Data.Int.Interval
import Mathlib.Data.List.Induction
import Mathlib.Tactic.Linarith
import Mathlib.Tactic.Ring

/-!
Numbers for items that have none. The items of a list come one after another, each with a number
or with -1; an item without a number gets the next one, and the numbers that come later and are
not below it move up by one. The comparison is between an old number and a new one, which is the
same as a comparison of old ones only while the old numbers leave room.
-/

namespace UmbrellaLtc.Renumber

/-- The items so far, each with its old number and its new one, the next number, and the numbers
that were given to items without one. -/
structure Numbering where
  placed : List (ℤ × ℤ)
  next : ℤ
  offsets : List ℤ

def shift (offsets : List ℤ) (p : ℤ) : ℤ := p + (offsets.countP (· ≤ p) : ℕ)

def place (s : Numbering) (p : ℤ) : Numbering :=
  if p = -1 then ⟨s.placed ++ [(p, s.next)], s.next + 1, s.offsets ++ [s.next]⟩
  else ⟨s.placed ++ [(p, shift s.offsets p)], max s.next (shift s.offsets p + 1), s.offsets⟩

def number (l : List ℤ) : Numbering := l.foldl place ⟨[], 0, []⟩

/-- The greatest number of the items, or -1. -/
def greatest (l : List ℤ) : ℤ := l.foldl max (-1)

/-- The numbers that the items take when those with a number leave no gap. -/
def room (l : List ℤ) : ℤ := greatest l + 1 + (l.count (-1) : ℕ)

theorem number_concat (l : List ℤ) (p : ℤ) : number (l ++ [p]) = place (number l) p :=
  List.foldl_concat place _ p l

theorem greatest_concat (l : List ℤ) (p : ℤ) : greatest (l ++ [p]) = max (greatest l) p :=
  List.foldl_concat max _ p l

theorem neg_one_le_greatest (l : List ℤ) : -1 ≤ greatest l := by
  induction l using List.reverseRecOn with
  | nil => exact le_rfl
  | append_singleton l p ih =>
    rw [greatest_concat]
    exact ih.trans (le_max_left _ _)

theorem le_greatest {l : List ℤ} {p : ℤ} (hp : p ∈ l) : p ≤ greatest l := by
  induction l using List.reverseRecOn with
  | nil => cases hp
  | append_singleton l q ih =>
    rw [greatest_concat]
    obtain hp | hp := List.mem_append.mp hp
    · exact (ih hp).trans (le_max_left _ _)
    · rw [List.mem_singleton.mp hp]
      exact le_max_right _ _

theorem greatest_mem {l : List ℤ} (h : greatest l ≠ -1) : greatest l ∈ l := by
  induction l using List.reverseRecOn with
  | nil => exact (h rfl).elim
  | append_singleton l p ih =>
    rw [greatest_concat] at h ⊢
    rcases max_choice (greatest l) p with hmax | hmax
    · rw [hmax] at h ⊢
      exact List.mem_append_left _ (ih h)
    · rw [hmax]
      exact List.mem_append_right _ (List.mem_singleton_self p)

theorem room_concat_none (l : List ℤ) : room (l ++ [-1]) = room l + 1 := by
  have hlow := neg_one_le_greatest l
  unfold room
  rw [greatest_concat, max_eq_left hlow, List.count_append, List.count_singleton_self]
  push_cast
  ring

theorem room_concat_some (l : List ℤ) {p : ℤ} (hp : p ≠ -1) :
    room (l ++ [p]) = max (greatest l) p + 1 + (l.count (-1) : ℕ) := by
  unfold room
  rw [greatest_concat, List.count_append, List.count_singleton, if_neg (by simpa using hp),
    add_zero]

theorem le_shift (offsets : List ℤ) (p : ℤ) : p ≤ shift offsets p := by
  unfold shift
  omega

theorem shift_lt {offsets : List ℤ} {p q : ℤ} (h : p < q) : shift offsets p < shift offsets q := by
  have hcount : offsets.countP (· ≤ p) ≤ offsets.countP (· ≤ q) :=
    List.countP_mono_left fun d _ hd => by
      simp only [decide_eq_true_eq] at hd ⊢
      omega
  unfold shift
  omega

/-- A number above the item's own does not move it. -/
theorem shift_concat {offsets : List ℤ} {p d : ℤ} (h : p < d) :
    shift (offsets ++ [d]) p = shift offsets p := by
  simp [shift, List.countP_append, h]

theorem lt_shift_of_mem {offsets : List ℤ} {p d : ℤ} (hd : d ∈ offsets) (h : d ≤ p) :
    p < shift offsets p := by
  have hpos : 0 < offsets.countP (· ≤ p) := List.countP_pos_iff.mpr ⟨d, hd, by simpa using h⟩
  unfold shift
  omega

/-- A list of numbers, in which -1 stands for none. -/
def Numbers (l : List ℤ) : Prop := ∀ p ∈ l, p = -1 ∨ 0 ≤ p

/-- What holds of the numbering after any items. -/
structure Sound (l : List ℤ) (s : Numbering) : Prop where
  olds : s.placed.map Prod.fst = l
  bounds : ∀ x ∈ s.placed, 0 ≤ x.2 ∧ x.2 < s.next
  offsets : ∀ d, d ∈ s.offsets ↔ (-1, d) ∈ s.placed
  count : s.offsets.length = l.count (-1)
  increasing : s.offsets.Pairwise (· < ·)
  shifted : ∀ x ∈ s.placed, x.1 ≠ -1 → x.2 = shift s.offsets x.1
  inTime : s.placed.Pairwise fun x y => y.1 = -1 → x.2 < y.2
  nonneg : 0 ≤ s.next
  bounded : s.next ≤ room l

theorem sound_place_none {l : List ℤ} {s : Numbering} (h : Sound l s) :
    Sound (l ++ [-1]) (place s (-1)) := by
  have hoffset : ∀ d ∈ s.offsets, d < s.next := fun d hd => (h.bounds _ ((h.offsets d).mp hd)).2
  unfold place
  rw [if_pos rfl]
  constructor
  · simp [h.olds]
  · intro x hx
    have hnonneg := h.nonneg
    obtain hx | hx := List.mem_append.mp hx
    · have hbounds := h.bounds x hx
      dsimp only
      omega
    · rw [List.mem_singleton.mp hx]
      dsimp only
      omega
  · intro d
    simp only [List.mem_append, List.mem_singleton, Prod.mk.injEq, true_and, h.offsets]
  · simp [h.count]
  · rw [List.pairwise_append]
    exact ⟨h.increasing, List.pairwise_singleton _ _, fun d hd e he => by
      rw [List.mem_singleton.mp he]; exact hoffset d hd⟩
  · intro x hx hne
    obtain hx | hx := List.mem_append.mp hx
    · -- the new offset is above all numbers given so far
      have hlt : x.1 < s.next :=
        (le_shift s.offsets x.1).trans_lt (h.shifted x hx hne ▸ (h.bounds x hx).2)
      dsimp only
      rw [shift_concat hlt]
      exact h.shifted x hx hne
    · rw [List.mem_singleton.mp hx] at hne
      exact (hne rfl).elim
  · rw [List.pairwise_append]
    exact ⟨h.inTime, List.pairwise_singleton _ _, fun x hx y hy _ => by
      rw [List.mem_singleton.mp hy]; exact (h.bounds x hx).2⟩
  · have hnonneg := h.nonneg
    dsimp only
    omega
  · have hbounded := h.bounded
    rw [room_concat_none]
    dsimp only
    omega

theorem sound_place_some {l : List ℤ} {s : Numbering} (h : Sound l s) {p : ℤ} (hp : 0 ≤ p) :
    Sound (l ++ [p]) (place s p) := by
  have hne : p ≠ -1 := by omega
  have hle := le_shift s.offsets p
  have hcount : (s.offsets.countP (· ≤ p) : ℕ) ≤ l.count (-1) := by
    rw [← h.count]
    exact List.countP_le_length
  unfold place
  rw [if_neg hne]
  constructor
  · simp [h.olds]
  · intro x hx
    obtain hx | hx := List.mem_append.mp hx
    · exact ⟨(h.bounds x hx).1, (h.bounds x hx).2.trans_le (le_max_left _ _)⟩
    · rw [List.mem_singleton.mp hx]
      exact ⟨by dsimp only; omega, (lt_add_one _).trans_le (le_max_right _ _)⟩
  · intro d
    simp [h.offsets, hne.symm]
  · simp [h.count, hne]
  · exact h.increasing
  · intro x hx hx'
    obtain hx | hx := List.mem_append.mp hx
    · exact h.shifted x hx hx'
    · rw [List.mem_singleton.mp hx]
  · rw [List.pairwise_append]
    refine ⟨h.inTime, List.pairwise_singleton _ _, fun x _ y hy hnone => ?_⟩
    rw [List.mem_singleton.mp hy] at hnone
    exact (hne hnone).elim
  · exact h.nonneg.trans (le_max_left _ _)
  · have hbounded := h.bounded
    rw [room_concat_some l hne]
    unfold room shift at *
    have hleft := le_max_left (greatest l) p
    have hright := le_max_right (greatest l) p
    refine max_le ?_ ?_
    · omega
    · omega

theorem sound_number {l : List ℤ} (h : Numbers l) : Sound l (number l) := by
  induction l using List.reverseRecOn with
  | nil =>
    exact ⟨rfl, by simp [number], by simp [number], rfl, .nil, by simp [number], .nil, le_rfl,
      le_rfl⟩
  | append_singleton l p ih =>
    have hl : Numbers l := fun q hq => h q (List.mem_append_left _ hq)
    rw [number_concat]
    obtain rfl | hp := h p (List.mem_append_right _ (List.mem_singleton_self p))
    · exact sound_place_none (ih hl)
    · exact sound_place_some (ih hl) hp

theorem number_append (l later : List ℤ) :
    (∃ more, (number (l ++ later)).placed = (number l).placed ++ more) ∧
      ∃ more, (number (l ++ later)).offsets = (number l).offsets ++ more := by
  induction later using List.reverseRecOn with
  | nil => exact ⟨⟨[], by simp⟩, [], by simp⟩
  | append_singleton later p ih =>
    obtain ⟨⟨more, hmore⟩, more', hmore'⟩ := ih
    rw [← List.append_assoc, number_concat, place, hmore, hmore']
    split_ifs
    · exact ⟨⟨_, List.append_assoc _ _ _⟩, _, List.append_assoc _ _ _⟩
    · exact ⟨⟨_, List.append_assoc _ _ _⟩, more', rfl⟩

theorem next_mono (l later : List ℤ) : (number l).next ≤ (number (l ++ later)).next := by
  induction later using List.reverseRecOn with
  | nil => simp
  | append_singleton later p ih =>
    rw [← List.append_assoc, number_concat, place]
    split_ifs
    · dsimp only
      omega
    · exact ih.trans (le_max_left _ _)

/-- The offsets are the next numbers at the items that have none. -/
theorem mem_offsets_iff {l : List ℤ} {d : ℤ} :
    d ∈ (number l).offsets ↔
      ∃ before after, l = before ++ -1 :: after ∧ d = (number before).next := by
  constructor
  · induction l using List.reverseRecOn with
    | nil => simp [number]
    | append_singleton l p ih =>
      rw [number_concat, place]
      split_ifs with hp
      · intro hd
        obtain hd | hd := List.mem_append.mp hd
        · obtain ⟨before, after, hl, hnext⟩ := ih hd
          exact ⟨before, after ++ [p], by rw [hl]; simp, hnext⟩
        · exact ⟨l, [], by rw [hp], List.mem_singleton.mp hd⟩
      · intro hd
        obtain ⟨before, after, hl, hnext⟩ := ih hd
        exact ⟨before, after ++ [p], by rw [hl]; simp, hnext⟩
  · rintro ⟨before, after, rfl, rfl⟩
    obtain ⟨-, more, hmore⟩ := number_append (before ++ [-1]) after
    rw [← List.append_cons] at hmore
    rw [hmore, number_concat, place, if_pos rfl]
    simp

/-- The items with the others, which keep their numbers. -/
def pairs (placed : List (ℤ × ℤ)) (others : List ℤ) : List (ℤ × ℤ) :=
  placed ++ others.map fun p => (p, p)

/-- The new numbers are distinct numbers below the next one; the items that had numbers keep their
order, and the items that had none come after all items before them. -/
structure Renumbered (placed : List (ℤ × ℤ)) (next : ℤ) (others : List ℤ) : Prop where
  bounds : ∀ x ∈ pairs placed others, 0 ≤ x.2 ∧ x.2 < next
  distinct : ((pairs placed others).map Prod.snd).Nodup
  ordered : ∀ x ∈ pairs placed others, ∀ y ∈ pairs placed others,
    0 ≤ x.1 → x.1 < y.1 → x.2 < y.2
  inTime : placed.Pairwise fun x y => y.1 = -1 → x.2 < y.2

/-- Each time that an item without a number comes, the numbers above the greatest one so far leave
room for all that have none so far; the others have numbers, which are below that room. -/
structure Separated (l others : List ℤ) : Prop where
  apart : ∀ before after, l = before ++ -1 :: after → ∀ q ∈ after,
    greatest before < q → room before ≤ q
  below : ∀ before after, l = before ++ -1 :: after → ∀ q ∈ others, q < room before
  others : ∀ q ∈ others, 0 ≤ q ∧ q < room l

/-- The numbers of the items and the others are distinct, where there are any. -/
def Distinct (l others : List ℤ) : Prop := ((l ++ others).filter (· ≠ -1)).Nodup

section Sufficient

variable {l others : List ℤ}

/-- The greatest number so far is given up to the next one. -/
theorem shift_greatest_lt {before after : List ℤ} (h : Numbers (before ++ after))
    (hgreatest : greatest before ≠ -1) :
    shift (number (before ++ after)).offsets (greatest before) < (number before).next := by
  have hbefore := sound_number fun p hp => h p (List.mem_append_left _ hp)
  have hall := sound_number h
  obtain ⟨more, hmore⟩ := (number_append before after).1
  have hmem : greatest before ∈ (number before).placed.map Prod.fst := by
    rw [hbefore.olds]
    exact greatest_mem hgreatest
  obtain ⟨x, hx, hxg⟩ := List.mem_map.mp hmem
  have hx' : x ∈ (number (before ++ after)).placed := by
    rw [hmore]
    exact List.mem_append_left _ hx
  rw [← hxg] at hgreatest ⊢
  rw [← hall.shifted x hx' hgreatest]
  exact (hbefore.bounds x hx).2

/-- No number is moved to one that was given to an item without. -/
theorem shift_not_mem (h : Numbers l) (hsep : Separated l others) {q : ℤ} (hq : q ∈ l)
    (hne : q ≠ -1) : shift (number l).offsets q ∉ (number l).offsets := by
  intro hmem
  obtain ⟨before, after, hl, hnext⟩ := mem_offsets_iff.mp hmem
  by_cases hle : q ≤ greatest before
  · have hgreatest : greatest before ≠ -1 := by
      have hnonneg := h q hq
      omega
    have hlt : shift (number l).offsets (greatest before) < (number before).next := by
      rw [hl] at h ⊢
      exact shift_greatest_lt h hgreatest
    have hshift : shift (number l).offsets q ≤ shift (number l).offsets (greatest before) := by
      obtain hlt | heq := hle.lt_or_eq
      · exact (shift_lt hlt).le
      · rw [heq]
    omega
  · have hafter : q ∈ after := by
      rw [hl] at hq
      obtain hq | hq := List.mem_append.mp hq
      · exact (hle (le_greatest hq)).elim
      · exact (List.mem_cons.mp hq).resolve_left hne
    have hroom := hsep.apart before after hl q hafter (by omega)
    have hbounded := (sound_number fun p hp =>
      h p (by rw [hl]; exact List.mem_append_left _ hp) : Sound before (number before)).bounded
    have hlt := lt_shift_of_mem hmem (p := q) (by omega)
    omega

/-- Where there is room, the numbering uses all of it. -/
theorem next_eq_room (h : Numbers l) (hsep : Separated l others) {before after : List ℤ}
    (hl : l = before ++ after) : (number before).next = room before := by
  induction before using List.reverseRecOn generalizing after with
  | nil => rfl
  | append_singleton before p ih =>
    have hsplit : l = before ++ p :: after := by rw [hl]; simp
    have hbefore : Numbers before := fun q hq =>
      h q (by rw [hsplit]; exact List.mem_append_left _ hq)
    have hnext := ih hsplit
    have hsound := sound_number hbefore
    have hbounded := (sound_number fun q hq =>
      h q (by rw [hl]; exact List.mem_append_left _ hq) :
        Sound (before ++ [p]) (number (before ++ [p]))).bounded
    refine le_antisymm hbounded ?_
    rw [number_concat, place]
    have hlow := neg_one_le_greatest before
    split_ifs with hp
    · rw [hp, room_concat_none, hnext]
    · rw [room_concat_some before hp]
      unfold room at hnext
      dsimp only
      by_cases hle : p ≤ greatest before
      · rw [max_eq_left hle, hnext]
        have hmax := le_max_left (greatest before + 1 + (before.count (-1) : ℕ))
          (shift (number before).offsets p + 1)
        omega
      · -- the new greatest number is above all that were given to items without one
        have hall : (number before).offsets.countP (· ≤ p) = before.count (-1) := by
          rw [← hsound.count, List.countP_eq_length]
          intro d hd
          obtain ⟨first, between, hfirst, hd'⟩ := mem_offsets_iff.mp hd
          have hfirstLe : greatest first ≤ greatest before := by
            by_cases hg : greatest first = -1
            · rw [hg]
              exact hlow
            · exact le_greatest (by rw [hfirst]; exact List.mem_append_left _ (greatest_mem hg))
          have hroom := hsep.apart first (between ++ p :: after) (by rw [hsplit, hfirst]; simp) p
            (by simp) (by omega)
          have hle' := (sound_number fun q hq =>
            hbefore q (by rw [hfirst]; exact List.mem_append_left _ hq) :
              Sound first (number first)).bounded
          simp only [decide_eq_true_eq]
          omega
        have hmax := le_max_right (number before).next (shift (number before).offsets p + 1)
        rw [max_eq_right (by omega)]
        unfold shift at hmax ⊢
        rw [hall] at hmax ⊢
        omega

theorem fst_mem_of_placed (h : Numbers l) {x : ℤ × ℤ} (hx : x ∈ (number l).placed) : x.1 ∈ l := by
  rw [← (sound_number h).olds]
  exact List.mem_map_of_mem hx

/-- The numbers of the others are below all that are given to items without one. -/
theorem lt_offset (h : Numbers l) (hsep : Separated l others) {d : ℤ}
    (hd : d ∈ (number l).offsets) {q : ℤ} (hq : q ∈ others) : q < d := by
  obtain ⟨before, after, hl, rfl⟩ := mem_offsets_iff.mp hd
  rw [next_eq_room h hsep hl]
  exact hsep.below before after hl q hq

/-- A number that moves stays on its side of the others. -/
theorem placed_side (h : Numbers l) (hsep : Separated l others) {x : ℤ × ℤ}
    (hx : x ∈ (number l).placed) (hne : x.1 ≠ -1) {q : ℤ} (hq : q ∈ others) :
    (x.1 < q → x.2 < q) ∧ (q < x.1 → q < x.2) := by
  rw [(sound_number h).shifted x hx hne]
  refine ⟨fun hlt => ?_, fun hlt => hlt.trans_le (le_shift _ _)⟩
  have hnone : (number l).offsets.countP (· ≤ x.1) = 0 := by
    rw [List.countP_eq_zero]
    intro d hd
    have hlow := lt_offset h hsep hd hq
    simp only [decide_eq_true_eq]
    omega
  unfold shift
  omega

theorem Distinct.ne_other (hdistinct : Distinct l others) {p q : ℤ} (hp : p ∈ l) (hq : q ∈ others)
    (hne : p ≠ -1) : p ≠ q := by
  intro heq
  unfold Distinct at hdistinct
  rw [List.filter_append] at hdistinct
  refine (List.nodup_append.mp hdistinct).2.2 p ?_ q ?_ heq
  · exact List.mem_filter.mpr ⟨hp, by simpa using hne⟩
  · exact List.mem_filter.mpr ⟨hq, by simpa [← heq] using hne⟩

theorem Distinct.pairwise (hdistinct : Distinct l others) :
    l.Pairwise fun p q => q ≠ -1 → p ≠ q := by
  unfold Distinct at hdistinct
  rw [List.filter_append] at hdistinct
  have hnodup := (List.nodup_append.mp hdistinct).1
  rw [List.Nodup, List.pairwise_filter] at hnodup
  refine hnodup.imp fun {p q} hpq hne heq => ?_
  exact hpq (by simpa [heq] using hne) (by simpa using hne) heq

theorem Distinct.nodup_others (hdistinct : Distinct l others) (hothers : ∀ q ∈ others, 0 ≤ q) :
    others.Nodup := by
  unfold Distinct at hdistinct
  rw [List.filter_append] at hdistinct
  have hfilter : others.filter (· ≠ -1) = others := by
    rw [List.filter_eq_self]
    intro q hq
    have hnonneg := hothers q hq
    simp only [ne_eq, decide_eq_true_eq]
    omega
  rw [hfilter] at hdistinct
  exact (List.nodup_append.mp hdistinct).2.1

/-- The items get numbers that are distinct. -/
theorem placed_nodup (h : Numbers l) (hdistinct : Distinct l others) (hsep : Separated l others) :
    ((number l).placed.map Prod.snd).Nodup := by
  have hsound := sound_number h
  have holds := hdistinct.pairwise
  rw [← hsound.olds, List.pairwise_map] at holds
  rw [List.Nodup, List.pairwise_map]
  refine (hsound.inTime.and holds).imp_of_mem fun {x y} hx hy hxy heq => ?_
  by_cases hy' : y.1 = -1
  · exact (hxy.1 hy').ne heq
  · have hyshift := hsound.shifted y hy hy'
    by_cases hx' : x.1 = -1
    · refine shift_not_mem h hsep (fst_mem_of_placed h hy) hy' ?_
      rw [← hyshift, ← heq]
      exact (hsound.offsets x.2).mpr (by rw [← hx']; exact hx)
    · rw [hsound.shifted x hx hx', hyshift] at heq
      rcases lt_trichotomy x.1 y.1 with hlt | hlt | hlt
      · exact (shift_lt hlt).ne heq
      · exact hxy.2 hy' hlt
      · exact (shift_lt hlt).ne heq.symm

/-- No item gets a number of the others. -/
theorem placed_ne_other (h : Numbers l) (hdistinct : Distinct l others)
    (hsep : Separated l others) {x : ℤ × ℤ} (hx : x ∈ (number l).placed) {q : ℤ}
    (hq : q ∈ others) : x.2 ≠ q := by
  intro heq
  by_cases hx' : x.1 = -1
  · have hd : x.2 ∈ (number l).offsets :=
      ((sound_number h).offsets x.2).mpr (by rw [← hx']; exact hx)
    exact (lt_offset h hsep hd hq).ne heq.symm
  · obtain ⟨hbelow, habove⟩ := placed_side h hsep hx hx' hq
    rcases (hdistinct.ne_other (fst_mem_of_placed h hx) hq hx').lt_or_gt with hlt | hlt
    · exact (hbelow hlt).ne heq
    · exact (habove hlt).ne heq.symm

theorem mem_pairs {placed : List (ℤ × ℤ)} {x : ℤ × ℤ} :
    x ∈ pairs placed others ↔ x ∈ placed ∨ ∃ q ∈ others, x = (q, q) := by
  simp [pairs, eq_comm]

/-- While there is room, the items are numbered anew as they are to be. -/
theorem renumbered_of_separated (h : Numbers l) (hdistinct : Distinct l others)
    (hsep : Separated l others) :
    Renumbered (number l).placed (number l).next others := by
  have hsound := sound_number h
  refine ⟨?_, ?_, ?_, hsound.inTime⟩
  · intro x hx
    obtain hx | ⟨q, hq, rfl⟩ := mem_pairs.mp hx
    · exact hsound.bounds x hx
    · rw [next_eq_room h hsep (List.append_nil l).symm]
      exact hsep.others q hq
  · have hid : (Prod.snd ∘ fun q : ℤ => (q, q)) = id := rfl
    rw [pairs, List.map_append, List.map_map, hid, List.map_id, List.nodup_append]
    refine ⟨placed_nodup h hdistinct hsep,
      hdistinct.nodup_others fun q hq => (hsep.others q hq).1, fun b hb q hq => ?_⟩
    obtain ⟨x, hx, rfl⟩ := List.mem_map.mp hb
    exact placed_ne_other h hdistinct hsep hx hq
  · intro x hx y hy hnonneg hlt
    have hx' : x.1 ≠ -1 := by omega
    have hy' : y.1 ≠ -1 := by omega
    obtain hx | ⟨q, hq, rfl⟩ := mem_pairs.mp hx
    · obtain hy | ⟨q, hq, rfl⟩ := mem_pairs.mp hy
      · rw [hsound.shifted x hx hx', hsound.shifted y hy hy']
        exact shift_lt hlt
      · exact (placed_side h hsep hx hx' hq).1 hlt
    · obtain hy | ⟨q', hq', rfl⟩ := mem_pairs.mp hy
      · exact (placed_side h hsep hy hy' hq).2 hlt
      · exact hlt

end Sufficient

section Necessary

variable {l others : List ℤ}

/-- The numbers of the items and the others leave no gap. -/
def Gapless (l others : List ℤ) : Prop :=
  ∀ n, 0 ≤ n → (∃ q ∈ l ++ others, n ≤ q) → n ∈ l ++ others

/-- Distinct numbers from 0 to below `d` are at most `d`. -/
theorem length_le_of_lt {values : List ℤ} {d : ℤ} (hnodup : values.Nodup)
    (h : ∀ v ∈ values, 0 ≤ v ∧ v < d) : (values.length : ℤ) ≤ max d 0 := by
  have hsub : values.toFinset ⊆ Finset.Ico 0 d := fun v hv =>
    Finset.mem_Ico.mpr (h v (List.mem_toFinset.mp hv))
  have hcard := Finset.card_le_card hsub
  rw [List.toFinset_card_of_nodup hnodup, Int.card_Ico, sub_zero] at hcard
  omega

theorem Sound.length_offsets_le {s : Numbering} (h : Sound l s) :
    (s.offsets.length : ℤ) ≤ s.next := by
  have hle := length_le_of_lt (h.increasing.imp fun h => h.ne) fun d hd =>
    h.bounds _ ((h.offsets d).mp hd)
  rwa [max_eq_left h.nonneg] at hle

theorem fst_pairs (h : Numbers l) :
    (pairs (number l).placed others).map Prod.fst = l ++ others := by
  have hid : (Prod.fst ∘ fun q : ℤ => (q, q)) = id := rfl
  rw [pairs, List.map_append, (sound_number h).olds, List.map_map, hid, List.map_id]

/-- Two items with one new number are one. -/
theorem Renumbered.inj {placed : List (ℤ × ℤ)} {next : ℤ} (h : Renumbered placed next others)
    {x y : ℤ × ℤ} (hx : x ∈ pairs placed others) (hy : y ∈ pairs placed others)
    (heq : x.2 = y.2) : x = y :=
  List.inj_on_of_nodup_map h.distinct hx hy heq

/-- The items with the numbers up to `n` and some without a number, when all get numbers below
`d`, are at most `d`. -/
theorem Renumbered.length_le {placed : List (ℤ × ℤ)} {next : ℤ} (h : Renumbered placed next others)
    {n d : ℤ} {ds : List ℤ} (hn : -1 ≤ n) (hd : 0 ≤ d)
    (hvalue : ∀ i, 0 ≤ i → i ≤ n → ∃ b, (i, b) ∈ pairs placed others ∧ b < d)
    (hnodup : ds.Nodup) (hds : ∀ e ∈ ds, (-1, e) ∈ pairs placed others ∧ e < d) :
    n + 1 + ds.length ≤ d := by
  choose! value hmem hlt using hvalue
  have hrange : ∀ i ∈ List.range (n + 1).toNat, 0 ≤ (i : ℤ) ∧ (i : ℤ) ≤ n := by
    intro i hi
    rw [List.mem_range] at hi
    omega
  have hvalues : ((List.range (n + 1).toNat).map fun i : ℕ => value (i : ℤ)).Nodup := by
    refine List.Nodup.map_on (fun i hi j hj heq => ?_) List.nodup_range
    have hi' := hrange i hi
    have hj' := hrange j hj
    have hpair := h.inj (hmem i hi'.1 hi'.2) (hmem j hj'.1 hj'.2) heq
    simp only [Prod.mk.injEq] at hpair
    omega
  have hall : (((List.range (n + 1).toNat).map fun i : ℕ => value (i : ℤ)) ++ ds).Nodup := by
    refine List.nodup_append.mpr ⟨hvalues, hnodup, fun b hb e he heq => ?_⟩
    obtain ⟨i, hi, rfl⟩ := List.mem_map.mp hb
    have hi' := hrange i hi
    have hpair := h.inj (hmem i hi'.1 hi'.2) (hds e he).1 heq
    simp only [Prod.mk.injEq] at hpair
    omega
  have hlength := length_le_of_lt hall (d := d) fun v hv => by
    obtain hv | hv := List.mem_append.mp hv
    · obtain ⟨i, hi, rfl⟩ := List.mem_map.mp hv
      have hi' := hrange i hi
      exact ⟨(h.bounds _ (hmem i hi'.1 hi'.2)).1, hlt i hi'.1 hi'.2⟩
    · exact ⟨(h.bounds _ (hds v hv).1).1, (hds v hv).2⟩
  rw [List.length_append, List.length_map, List.length_range, max_eq_left hd] at hlength
  push_cast at hlength
  omega

theorem exists_pair (h : Numbers l) (hgapless : Gapless l others) {n q : ℤ} (hn : 0 ≤ n)
    (hq : q ∈ l ++ others) (hle : n ≤ q) :
    ∃ b, (n, b) ∈ pairs (number l).placed others := by
  have hmem := hgapless n hn ⟨q, hq, hle⟩
  rw [← fst_pairs h] at hmem
  obtain ⟨⟨n', b⟩, hx, rfl⟩ := List.mem_map.mp hmem
  exact ⟨b, hx⟩

section Prefix

variable {before after : List ℤ}

theorem mem_pairs_of_append (hl : l = before ++ after) {x : ℤ × ℤ}
    (hx : x ∈ (number before).placed) : x ∈ pairs (number l).placed others := by
  obtain ⟨more, hmore⟩ := (number_append before after).1
  rw [hl, pairs, hmore]
  exact List.mem_append_left _ (List.mem_append_left _ hx)

/-- The items with the numbers up to the greatest one so far are below the next number. -/
theorem exists_pair_lt (h : Numbers l) (hgapless : Gapless l others)
    (hright : Renumbered (number l).placed (number l).next others) (hl : l = before ++ after)
    {n : ℤ} (hn : 0 ≤ n) (hle : n ≤ greatest before) :
    ∃ b, (n, b) ∈ pairs (number l).placed others ∧ b < (number before).next := by
  have hbefore := sound_number fun p hp =>
    h p (by rw [hl]; exact List.mem_append_left _ hp)
  have hmem : greatest before ∈ before := greatest_mem (by omega)
  have hold : greatest before ∈ (number before).placed.map Prod.fst := by
    rw [hbefore.olds]
    exact hmem
  obtain ⟨⟨m, c⟩, hy, hm⟩ := List.mem_map.mp hold
  dsimp only at hm
  rw [hm] at hy
  have hnext := (hbefore.bounds _ hy).2
  obtain hlt | heq := hle.lt_or_eq
  · obtain ⟨b, hb⟩ := exists_pair h hgapless hn
      (List.mem_append_left others (by rw [hl]; exact List.mem_append_left _ hmem)) hle
    exact ⟨b, hb, (hright.ordered _ hb _ (mem_pairs_of_append hl hy) hn hlt).trans hnext⟩
  · exact ⟨c, by rw [heq]; exact mem_pairs_of_append hl hy, hnext⟩

theorem offsets_append (h : Numbers l) (hl : l = before ++ after) :
    (number before).offsets.Nodup ∧ ∀ e ∈ (number before).offsets,
      (-1, e) ∈ pairs (number l).placed others ∧ e < (number before).next := by
  have hbefore := sound_number fun p hp =>
    h p (by rw [hl]; exact List.mem_append_left _ hp)
  refine ⟨hbefore.increasing.imp fun h => h.ne, fun e he => ?_⟩
  have hmem := (hbefore.offsets e).mp he
  exact ⟨mem_pairs_of_append hl hmem, (hbefore.bounds _ hmem).2⟩

/-- Up to a place in the list, the items fill the numbers up to the next one. -/
theorem room_le_next (h : Numbers l) (hgapless : Gapless l others)
    (hright : Renumbered (number l).placed (number l).next others) (hl : l = before ++ after) :
    room before ≤ (number before).next := by
  have hbefore := sound_number fun p hp =>
    h p (by rw [hl]; exact List.mem_append_left _ hp)
  obtain ⟨hnodup, hds⟩ := @offsets_append l others _ _ h hl
  have hlength := hright.length_le (neg_one_le_greatest before) hbefore.nonneg
    (fun i hi hle => exists_pair_lt h hgapless hright hl hi hle) hnodup hds
  rw [hbefore.count] at hlength
  exact hlength

/-- The number after the greatest one so far is not below the room. -/
theorem room_le_of_mem (h : Numbers l) (hgapless : Gapless l others)
    (hright : Renumbered (number l).placed (number l).next others)
    (hl : l = before ++ -1 :: after) {q : ℤ} (hq : q ∈ l ++ others) (hlt : greatest before < q) :
    room before ≤ q := by
  by_contra hroom
  have hbefore := sound_number fun p hp =>
    h p (by rw [hl]; exact List.mem_append_left _ hp)
  have hlow := neg_one_le_greatest before
  obtain ⟨d, hd⟩ : ∃ d, d = (number before).next := ⟨_, rfl⟩
  have hdroom : d = room before :=
    hd.trans (le_antisymm hbefore.bounded (room_le_next h hgapless hright hl))
  have hz : (-1, d) ∈ pairs (number l).placed others := by
    have hmem : d ∈ (number l).offsets := mem_offsets_iff.mpr ⟨before, after, hl, hd⟩
    exact List.mem_append_left _ (((sound_number h).offsets d).mp hmem)
  obtain ⟨b, hb⟩ := exists_pair h hgapless (n := greatest before + 1) (by omega) hq (by omega)
  have hbd : d < b := by
    obtain hbd | hbd | hbd := lt_trichotomy b d
    · -- with that number as well, there are too many below the next one
      obtain ⟨hnodup, hds⟩ := @offsets_append l others _ _ h hl
      have hlength := hright.length_le (n := greatest before + 1) (by omega) hbefore.nonneg
        (fun i hi hle => by
          by_cases heq : i = greatest before + 1
          · exact ⟨b, by rw [heq]; exact hb, by omega⟩
          · exact exists_pair_lt h hgapless hright hl hi (by omega)) hnodup hds
      rw [hbefore.count, ← hd, hdroom] at hlength
      unfold room at hlength
      omega
    · have hpair := hright.inj hb hz hbd
      simp only [Prod.mk.injEq] at hpair
      omega
    · exact hbd
  obtain hplaced | hother := List.mem_append.mp hb
  · have hshift := (sound_number h).shifted _ hplaced (by dsimp only; omega)
    dsimp only at hshift
    obtain ⟨more, hmore⟩ := (number_append (before ++ [-1]) after).2
    rw [← List.append_cons, ← hl, number_concat, place, if_pos rfl, ← hd] at hmore
    have hcount : (number l).offsets.countP (· ≤ greatest before + 1) ≤ before.count (-1) := by
      have hincreasing := (sound_number h).increasing
      rw [hmore, List.pairwise_append] at hincreasing
      have hdbig : ¬ d ≤ greatest before + 1 := by omega
      have hmoreNone : more.countP (· ≤ greatest before + 1) = 0 := by
        rw [List.countP_eq_zero]
        intro e he
        have hlt' := hincreasing.2.2 d (List.mem_append_right _ (List.mem_singleton_self d)) e he
        simp only [decide_eq_true_eq]
        omega
      rw [hmore, List.countP_append, List.countP_append, hmoreNone, ← hbefore.count]
      simpa [hdbig] using List.countP_le_length
    unfold shift at hshift
    unfold room at hdroom
    omega
  · obtain ⟨q', -, hq'⟩ := List.mem_map.mp hother
    simp only [Prod.mk.injEq] at hq'
    omega

/-- The other items have numbers below the room as well. -/
theorem others_lt_room (h : Numbers l) (hgapless : Gapless l others)
    (hright : Renumbered (number l).placed (number l).next others)
    (hl : l = before ++ -1 :: after) {q : ℤ} (hq : q ∈ others) : q < room before := by
  have hbefore := sound_number fun p hp =>
    h p (by rw [hl]; exact List.mem_append_left _ hp)
  obtain ⟨d, hd⟩ : ∃ d, d = (number before).next := ⟨_, rfl⟩
  have hdroom : d = room before :=
    hd.trans (le_antisymm hbefore.bounded (room_le_next h hgapless hright hl))
  have hdmem : d ∈ (number l).offsets := mem_offsets_iff.mpr ⟨before, after, hl, hd⟩
  have hz : (-1, d) ∈ pairs (number l).placed others :=
    List.mem_append_left _ (((sound_number h).offsets d).mp hdmem)
  have hd0 : 0 ≤ d := hd ▸ hbefore.nonneg
  rw [← hdroom]
  by_contra hle
  -- from the offset on, every number has moved
  have hmoved : ∀ n, d ≤ n → n ≤ q → ∀ b, (n, b) ∈ pairs (number l).placed others → n < b := by
    intro n hn
    induction n, hn using Int.leInduction with
    | base =>
      intro _ b hb
      obtain hplaced | hother := List.mem_append.mp hb
      · have hshift := (sound_number h).shifted _ hplaced (by dsimp only; omega)
        exact (lt_shift_of_mem hdmem le_rfl).trans_eq hshift.symm
      · obtain ⟨q', -, hq'⟩ := List.mem_map.mp hother
        simp only [Prod.mk.injEq] at hq'
        have hpair := hright.inj hb hz (by dsimp only; omega)
        simp only [Prod.mk.injEq] at hpair
        omega
    | succ n hn ih =>
      intro hnq b hb
      obtain ⟨c, hc⟩ := exists_pair h hgapless (n := n) (by omega)
        (List.mem_append_right l hq) (by omega)
      have hlt := ih (by omega) c hc
      have hordered := hright.ordered _ hc _ hb (by dsimp only; omega) (by dsimp only; omega)
      dsimp only at hordered
      omega
  have hself : (q, q) ∈ pairs (number l).placed others :=
    List.mem_append_right _ (List.mem_map.mpr ⟨q, hq, rfl⟩)
  exact lt_irrefl q (hmoved q (by omega) le_rfl q hself)

end Prefix

/-- Where the numbers leave no gap, it takes the room for the items to be numbered as they are
to be. -/
theorem separated_of_renumbered (h : Numbers l) (hgapless : Gapless l others)
    (hright : Renumbered (number l).placed (number l).next others) : Separated l others := by
  refine ⟨fun before after hl q hq hlt => ?_, fun before after hl q hq =>
    others_lt_room h hgapless hright hl hq, fun q hq => ?_⟩
  · refine room_le_of_mem h hgapless hright hl (List.mem_append_left _ ?_) hlt
    rw [hl]
    exact List.mem_append_right _ (List.mem_cons_of_mem _ hq)
  · have hself : (q, q) ∈ pairs (number l).placed others :=
      List.mem_append_right _ (List.mem_map.mpr ⟨q, hq, rfl⟩)
    have hbounds := hright.bounds _ hself
    exact ⟨hbounds.1, hbounds.2.trans_le (sound_number h).bounded⟩

end Necessary

end UmbrellaLtc.Renumber
