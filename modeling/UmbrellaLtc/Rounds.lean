import UmbrellaLtc.Guards
import Mathlib.Algebra.Order.Group.Int

/-!
Computations that may fail, and loops of them that are left from within. `Leaves` is the rule for
what a computation leaves behind, or stops with. A round of a loop goes on with a new state, leaves
the loop with a result, or fails; `rounds` makes at most so many of them. A measure that grows with
every round and has a bound makes the loop end.
-/

namespace UmbrellaLtc.Rounds

open Guards

variable {σ α β ε : Type}

/-- A value in `Q`, or an error in `E`. -/
def Leaves (x : Except ε α) (Q : α → Prop) (E : ε → Prop) : Prop :=
  match x with
  | .ok a => Q a
  | .error e => E e

section Leaving

variable {x : Except ε α} {Q Q' : α → Prop} {E E' : ε → Prop}

theorem leaves_ok {a : α} (h : Q a) : Leaves (.ok a : Except ε α) Q E := h

theorem leaves_error {e : ε} (h : E e) : Leaves (.error e : Except ε α) Q E := h

theorem Leaves.mono (h : Leaves x Q E) (hQ : ∀ a, Q a → Q' a) (hE : ∀ e, E e → E' e) :
    Leaves x Q' E' := by
  cases x with
  | error e => exact hE e h
  | ok a => exact hQ a h

theorem leaves_bind {f : α → Except ε β} {P : β → Prop} (hx : Leaves x Q E)
    (hf : ∀ a, Q a → Leaves (f a) P E) : Leaves (x >>= f) P E := by
  cases x with
  | error e => exact hx
  | ok a => exact hf a hx

theorem leaves_require {c : Prop} [Decidable c] {e : ε} {f : Unit → Except ε β} {P : β → Prop}
    (he : ¬ c → E e) (hf : c → Leaves (f ()) P E) : Leaves (require c e >>= f) P E := by
  by_cases hc : c
  · have hok : require c e = .ok () := if_pos hc
    rw [hok]
    exact hf hc
  · have herror : require c e = .error e := if_neg hc
    rw [herror]
    exact he hc

/-- A loop over a list, with an invariant of the elements that it has met. -/
theorem leaves_foldlM {f : β → α → Except ε β} {I : List α → β → Prop} {l : List α} {b : β}
    (hb : I [] b)
    (hstep : ∀ done a rest b, l = done ++ a :: rest → I done b →
      Leaves (f b a) (I (done ++ [a])) E) : Leaves (l.foldlM f b) (I l) E := by
  suffices h : ∀ later done b, l = done ++ later → I done b →
      Leaves (later.foldlM f b) (I l) E from h l [] b rfl hb
  intro later
  induction later with
  | nil =>
    intro done b hsplit hI
    rw [hsplit, List.append_nil]
    exact leaves_ok hI
  | cons a rest ih =>
    intro done b hsplit hI
    rw [List.foldlM_cons]
    refine leaves_bind (hstep done a rest b hsplit hI) fun b' hb' => ih (done ++ [a]) b' ?_ hb'
    rw [hsplit, List.append_assoc, List.singleton_append]

end Leaving

/-- At most `n` rounds of the loop. -/
def rounds (body : σ → Except ε (σ ⊕ α)) : ℕ → σ → Except ε (σ ⊕ α)
  | 0, s => .ok (.inl s)
  | n + 1, s => do
      match ← body s with
      | .inl s => rounds body n s
      | .inr a => return .inr a

/-- The loop ends with this result. -/
def Ends (body : σ → Except ε (σ ⊕ α)) (s : σ) (result : Except ε α) : Prop :=
  ∃ n, rounds body n s = result.map .inr

section Looping

variable {body : σ → Except ε (σ ⊕ α)} {s s' : σ} {result result' : Except ε α}

theorem rounds_of_again (hbody : body s = .ok (.inl s')) (n : ℕ) :
    rounds body (n + 1) s = rounds body n s' := by
  rw [rounds, hbody]
  rfl

theorem rounds_of_left (hbody : body s = result.map .inr) (n : ℕ) :
    rounds body (n + 1) s = result.map .inr := by
  rw [rounds, hbody]
  cases result with
  | error e => rfl
  | ok a => rfl

theorem Ends.of_left (hbody : body s = result.map .inr) : Ends body s result :=
  ⟨1, rounds_of_left hbody 0⟩

theorem Ends.of_again (hbody : body s = .ok (.inl s')) (h : Ends body s' result) :
    Ends body s result := by
  obtain ⟨n, hn⟩ := h
  exact ⟨n + 1, by rw [rounds_of_again hbody, hn]⟩

/-- More rounds than it takes change nothing. -/
theorem rounds_add {n : ℕ} (h : rounds body n s = result.map .inr) (m : ℕ) :
    rounds body (n + m) s = result.map .inr := by
  induction n generalizing s with
  | zero =>
    cases result with
    | error e => cases h
    | ok a => cases h
  | succ n ih =>
    rw [Nat.add_right_comm]
    cases hbody : body s with
    | error e =>
      rw [rounds, hbody] at h ⊢
      exact h
    | ok next =>
      cases next with
      | inl s' =>
        rw [rounds_of_again hbody] at h ⊢
        exact ih h
      | inr a =>
        rw [rounds, hbody] at h ⊢
        exact h

theorem map_inr_inj (h : (result.map .inr : Except ε (σ ⊕ α)) = result'.map .inr) :
    result = result' := by
  cases result with
  | error e =>
    cases result' with
    | error e' =>
      cases h
      rfl
    | ok a' => cases h
  | ok a =>
    cases result' with
    | error e' => cases h
    | ok a' =>
      cases h
      rfl

theorem Ends.unique (h : Ends body s result) (h' : Ends body s result') : result = result' := by
  obtain ⟨n, hn⟩ := h
  obtain ⟨m, hm⟩ := h'
  have hn' := rounds_add hn m
  have hm' := rounds_add hm n
  rw [Nat.add_comm, hn'] at hm'
  exact map_inr_inj hm'

/-- An invariant that bounds a measure, and that every round keeps while it makes the measure
grow, makes the loop end. -/
theorem exists_ends {I : σ → Prop} {Q : α → Prop} {E : ε → Prop} {measure : σ → ℤ} {bound : ℤ}
    (hbound : ∀ s, I s → measure s ≤ bound)
    (hstep : ∀ s, I s →
      Leaves (body s) (Sum.elim (fun s' => I s' ∧ measure s < measure s') Q) E) (hs : I s) :
    ∃ result, Ends body s result ∧ Leaves result Q E := by
  obtain ⟨n, hn⟩ : ∃ n : ℕ, bound - measure s < n := ⟨(bound - measure s).toNat + 1, by omega⟩
  induction n generalizing s with
  | zero =>
    have hle := hbound s hs
    omega
  | succ n ih =>
    have hround := hstep s hs
    cases hbody : body s with
    | error e =>
      rw [hbody] at hround
      exact ⟨.error e, .of_left hbody, hround⟩
    | ok next =>
      rw [hbody] at hround
      cases next with
      | inl s' =>
        obtain ⟨hs', hgrow⟩ : I s' ∧ measure s < measure s' := hround
        obtain ⟨result, hends, hresult⟩ := ih hs' (by omega)
        exact ⟨result, .of_again hbody hends, hresult⟩
      | inr a => exact ⟨.ok a, .of_left hbody, hround⟩

end Looping

end UmbrellaLtc.Rounds
