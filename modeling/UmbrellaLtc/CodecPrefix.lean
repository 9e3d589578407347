import UmbrellaLtc.Codec

/-!
What a writer puts out can be told from what follows it, also for values that its
reader refuses. The combinators keep this, so that a record's bytes determine it.
-/

namespace UmbrellaLtc.Codec

variable {α β : Type}

/-- Two values of a kind with the same bytes in front of any rests are equal, and so are
the rests. -/
def Delimits (c : Codec α) (P : α → Prop) : Prop :=
  ∀ a b rest rest', P a → P b → c.write a ++ rest = c.write b ++ rest' → a = b ∧ rest = rest'

theorem bits_delimits (n w : ℕ) (hw : w = 8 * n) : (bits n w hw).Delimits fun _ => True := by
  intro a b rest rest' _ _ heq
  have hread := (bits n w hw).read_write a rest trivial
  rw [heq, (bits n w hw).read_write b rest' trivial] at hread
  obtain ⟨hval, hrest⟩ := Prod.mk.inj (Option.some.inj hread)
  exact ⟨hval.symm, hrest.symm⟩

theorem Delimits.pair {c : Codec α} {d : Codec β} {P : α → Prop} {Q : β → Prop}
    (hc : c.Delimits P) (hd : d.Delimits Q) : (pair c d).Delimits fun p => P p.1 ∧ Q p.2 := by
  intro a b rest rest' ha hb heq
  change (c.write a.1 ++ d.write a.2) ++ rest = (c.write b.1 ++ d.write b.2) ++ rest' at heq
  rw [List.append_assoc, List.append_assoc] at heq
  obtain ⟨hfirst, heq⟩ := hc a.1 b.1 _ _ ha.1 hb.1 heq
  obtain ⟨hsecond, hrest⟩ := hd a.2 b.2 _ _ ha.2 hb.2 heq
  exact ⟨Prod.ext hfirst hsecond, hrest⟩

theorem Delimits.iso {c : Codec α} {P : α → Prop} (hc : c.Delimits P) (f : α → β) (g : β → α)
    (hfg : ∀ b, f (g b) = b) (hgf : ∀ a, g (f a) = a) :
    (c.iso f g hfg hgf).Delimits fun b => P (g b) := by
  intro a b rest rest' ha hb heq
  obtain ⟨hval, hrest⟩ := hc (g a) (g b) rest rest' ha hb heq
  exact ⟨by rw [← hfg a, hval, hfg], hrest⟩

/-- Equally many values, one after another. -/
theorem Delimits.flatten {c : Codec α} {P : α → Prop} (hc : c.Delimits P) (l m : List α)
    (rest rest' : List Byte) (hlen : l.length = m.length) (hl : ∀ a ∈ l, P a) (hm : ∀ a ∈ m, P a)
    (heq : (l.map c.write).flatten ++ rest = (m.map c.write).flatten ++ rest') :
    l = m ∧ rest = rest' := by
  induction l generalizing m with
  | nil =>
    obtain rfl := List.length_eq_zero_iff.mp hlen.symm
    exact ⟨rfl, heq⟩
  | cons a l ih =>
    cases m with
    | nil => cases hlen
    | cons b m =>
      simp only [List.map_cons, List.flatten_cons, List.append_assoc] at heq
      obtain ⟨rfl, htail⟩ := hc a b _ _ (hl a List.mem_cons_self) (hm b List.mem_cons_self) heq
      obtain ⟨rfl, hrest⟩ := ih m (Nat.succ.inj hlen)
        (fun x hx => hl x (List.mem_cons_of_mem _ hx))
        (fun x hx => hm x (List.mem_cons_of_mem _ hx)) htail
      exact ⟨rfl, hrest⟩

theorem Delimits.counted {count : Codec ℕ} {N : ℕ → Prop} (hcount : count.Delimits N)
    {c : Codec α} {P : α → Prop} (hc : c.Delimits P) :
    (counted count c).Delimits fun l => N l.length ∧ ∀ a ∈ l, P a := by
  intro l m rest rest' hl hm heq
  change (count.write l.length ++ (l.map c.write).flatten) ++ rest =
    (count.write m.length ++ (m.map c.write).flatten) ++ rest' at heq
  rw [List.append_assoc, List.append_assoc] at heq
  obtain ⟨hlen, heq⟩ := hcount _ _ _ _ hl.1 hm.1 heq
  exact hc.flatten l m rest rest' hlen hl.2 hm.2 heq

end UmbrellaLtc.Codec
