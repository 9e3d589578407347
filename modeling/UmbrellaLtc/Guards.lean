import Mathlib.Logic.Basic
import Mathlib.Tactic.SplitIfs

/-!
Computations that stop at the first failed check. A check either lets the rest
run or stops with its own error, so a computation that ends well has passed
all of them, and one that stops has passed those before the one that failed.
-/

namespace UmbrellaLtc.Guards

variable {ε α β : Type}

def require (c : Prop) [Decidable c] (e : ε) : Except ε Unit :=
  if c then .ok () else .error e

/-- A sequence ends well exactly when its first part does and the rest does on
the value it leaves. -/
theorem seq_ok_iff (first : Except ε α) (rest : α → Except ε β) (b : β) :
    (first >>= rest) = .ok b ↔ ∃ a, first = .ok a ∧ rest a = .ok b := by
  rcases first with e | a
  · constructor
    · intro h
      cases h
    · rintro ⟨_, h, _⟩
      cases h
  · constructor
    · intro h
      exact ⟨a, rfl, h⟩
    · rintro ⟨_, ⟨⟩, h⟩
      exact h

theorem seq_error_iff (first : Except ε α) (rest : α → Except ε β) (e : ε) :
    (first >>= rest) = .error e ↔
      first = .error e ∨ ∃ a, first = .ok a ∧ rest a = .error e := by
  rcases first with e' | a
  · constructor
    · intro h
      cases h
      exact Or.inl rfl
    · rintro (h | ⟨_, h, _⟩)
      · cases h
        rfl
      · cases h
  · constructor
    · intro h
      exact Or.inr ⟨a, rfl, h⟩
    · rintro (h | ⟨_, ⟨⟩, h⟩)
      · cases h
      · exact h

theorem require_ok_iff (c : Prop) [Decidable c] (e : ε) (rest : Unit → Except ε β) (b : β) :
    (require c e >>= rest) = .ok b ↔ c ∧ rest () = .ok b := by
  by_cases hc : c <;> simp [require, hc, bind, Except.bind]

theorem require_error_iff (c : Prop) [Decidable c] (e e' : ε) (rest : Unit → Except ε β) :
    (require c e >>= rest) = .error e' ↔ (¬ c ∧ e = e') ∨ (c ∧ rest () = .error e') := by
  by_cases hc : c <;> simp [require, hc, bind, Except.bind]

/-- The computation does not stop with one of the bad errors. -/
def Never (bad : ε → Prop) (x : Except ε α) : Prop := ∀ e, bad e → x ≠ .error e

variable {bad : ε → Prop}

theorem never_bind {first : Except ε α} {rest : α → Except ε β} (hfirst : Never bad first)
    (hrest : ∀ a, first = .ok a → Never bad (rest a)) : Never bad (first >>= rest) := by
  intro e he h
  rcases (seq_error_iff first rest e).mp h with hstop | ⟨a, hok, hstop⟩
  · exact hfirst e he hstop
  · exact hrest a hok e he hstop

theorem never_ok (a : α) : Never bad (.ok a) := fun _ _ h => nomatch h

theorem never_error {e : ε} (he : ¬ bad e) : Never bad (.error e : Except ε α) := by
  intro e' hbad h
  cases h
  exact he hbad

theorem never_require (c : Prop) [Decidable c] {e : ε} (he : ¬ bad e) : Never bad (require c e) := by
  unfold require
  split_ifs
  · exact never_ok ()
  · exact never_error he

/-- A check with an error of its own guards the rest. -/
theorem never_guard {c : Prop} [Decidable c] {e : ε} {rest : Unit → Except ε β} (he : ¬ bad e)
    (hrest : c → Never bad (rest ())) : Never bad (require c e >>= rest) := by
  refine never_bind (never_require c he) fun _ hok => hrest ?_
  unfold require at hok
  split_ifs at hok with hc
  exact hc

theorem never_of_holds {c : Prop} [Decidable c] {e : ε} {rest : Unit → Except ε β} (hc : c)
    (hrest : Never bad (rest ())) : Never bad (require c e >>= rest) := by
  simpa [require, hc, bind, Except.bind] using hrest

theorem never_foldlM {f : β → α → Except ε β} (I : β → Prop)
    (hstep : ∀ b a, I b → Never bad (f b a) ∧ ∀ b', f b a = .ok b' → I b') (l : List α) (b : β)
    (hb : I b) : Never bad (l.foldlM f b) := by
  induction l generalizing b with
  | nil => exact never_ok b
  | cons a rest ih =>
    rw [List.foldlM_cons]
    obtain ⟨hnever, hkeep⟩ := hstep b a hb
    exact never_bind hnever fun b' hb' => ih b' (hkeep b' hb')

theorem never_forM {f : α → Except ε Unit} (hf : ∀ a, Never bad (f a)) (l : List α) :
    Never bad (l.forM f) := by
  induction l with
  | nil => exact never_ok ()
  | cons a rest ih => exact never_bind (hf a) fun _ _ => ih

theorem forM_ok (f : α → Except ε Unit) (l : List α) (h : l.forM f = .ok ()) :
    ∀ a ∈ l, f a = .ok () := by
  induction l with
  | nil => exact fun a ha => absurd ha List.not_mem_nil
  | cons a rest ih =>
    obtain ⟨_, ha, hrest⟩ := (seq_ok_iff (f a) (fun _ => rest.forM f) ()).mp h
    intro b hb
    rcases List.mem_cons.mp hb with rfl | hmem
    · exact ha
    · exact ih hrest b hmem

end UmbrellaLtc.Guards
