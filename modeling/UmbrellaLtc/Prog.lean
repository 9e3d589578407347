import Mathlib.Logic.Basic
import Mathlib.Order.Defs.Unbundled
import Mathlib.Tactic.SplitIfs

/-!
Programs over a mutable state that may fail. The state survives a failure, as
objects passed by reference do. `Holds` is the rule for what a program leaves
behind: a postcondition for the value and the state of a run that ends well,
and a condition on the error of one that does not. `Sim` relates the runs of
one text over two kinds of state.
-/

namespace UmbrellaLtc

def Prog (σ ε α : Type) : Type := σ → Except ε α × σ

namespace Prog

variable {σ τ ε α β γ : Type}

def run (x : Prog σ ε α) (s : σ) : Except ε α × σ := x s

def seq (x : Prog σ ε α) (f : α → Prog σ ε β) : Prog σ ε β := fun s =>
  match x s with
  | (.ok a, s') => f a s'
  | (.error e, s') => (.error e, s')

instance : Monad (Prog σ ε) where
  pure a := fun s => (.ok a, s)
  bind := seq

instance : LawfulMonad (Prog σ ε) := LawfulMonad.mk' (Prog σ ε)
  (by
    intro α x
    funext s
    show seq x (fun a s => (.ok (id a), s)) s = x s
    rcases hx : x s with ⟨e | a, s'⟩ <;> simp [seq, hx])
  (fun _ _ => rfl)
  (by
    intro α β γ x f g
    funext s
    show seq (seq x f) g s = seq x (fun a => seq (f a) g) s
    rcases hx : x s with ⟨e | a, s'⟩ <;> simp [seq, hx])

/-- A step that cannot fail. -/
def act (f : σ → α × σ) : Prog σ ε α := fun s => (.ok (f s).1, (f s).2)

def fail (e : ε) : Prog σ ε α := fun s => (.error e, s)

def check (c : Prop) [Decidable c] (e : ε) : Prog σ ε Unit := if c then pure () else fail e

def lift (x : Except ε α) : Prog σ ε α := fun s => (x, s)

/-- A program on a part of the state. -/
def zoom (get : σ → τ) (put : σ → τ → σ) (x : Prog τ ε α) : Prog σ ε α := fun s =>
  ((x (get s)).1, put s (x (get s)).2)

theorem run_lift (y : Except ε α) (s : σ) : (lift y).run s = (y, s) := rfl

theorem run_bind_ok {x : Prog σ ε α} {f : α → Prog σ ε β} {s s' : σ} {a : α}
    (h : x.run s = (.ok a, s')) : (x >>= f).run s = (f a).run s' := by
  simp only [run, bind, seq] at h ⊢
  rw [h]

theorem run_bind_error {x : Prog σ ε α} {f : α → Prog σ ε β} {s s' : σ} {e : ε}
    (h : x.run s = (.error e, s')) : (x >>= f).run s = (.error e, s') := by
  simp only [run, bind, seq] at h ⊢
  rw [h]

/-- A sequence that has succeeded, taken apart. -/
theorem bind_ok_cases {x : Prog σ ε α} {f : α → Prog σ ε β} {s s' : σ} {b : β}
    (h : (x >>= f).run s = (.ok b, s')) :
    ∃ a t, x.run s = (.ok a, t) ∧ (f a).run t = (.ok b, s') := by
  rcases hx : x.run s with ⟨e | a, t⟩
  · rw [run_bind_error hx] at h
    cases h
  · rw [run_bind_ok hx] at h
    exact ⟨a, t, rfl, h⟩

def Holds (x : Prog σ ε α) (s : σ) (Q : α → σ → Prop) (E : ε → Prop) : Prop :=
  match x.run s with
  | (.ok a, s') => Q a s'
  | (.error e, _) => E e

section Rules

variable {x : Prog σ ε α} {s : σ} {Q : α → σ → Prop} {E : ε → Prop}

theorem holds_pure (a : α) (h : Q a s) : Holds (pure a : Prog σ ε α) s Q E := h

theorem holds_fail (e : ε) (h : E e) : Holds (fail e : Prog σ ε α) s Q E := h

theorem holds_act (f : σ → α × σ) (h : Q (f s).1 (f s).2) :
    Holds (act f : Prog σ ε α) s Q E := h

theorem holds_bind {f : α → Prog σ ε β} {Q : β → σ → Prop}
    (h : Holds x s (fun a s' => Holds (f a) s' Q E) E) : Holds (x >>= f) s Q E := by
  simp only [Holds, run, bind, seq] at h ⊢
  rcases hx : x s with ⟨e | a, s'⟩
  · simpa [hx] using h
  · simpa [hx] using h

theorem Holds.mono {Q' : α → σ → Prop} {E' : ε → Prop} (h : Holds x s Q E)
    (hQ : ∀ a s', Q a s' → Q' a s') (hE : ∀ e, E e → E' e) : Holds x s Q' E' := by
  unfold Holds at h ⊢
  rcases hx : x.run s with ⟨e | a, s'⟩
  · rw [hx] at h
    exact hE e h
  · rw [hx] at h
    exact hQ a s' h

theorem holds_check {c : Prop} [Decidable c] {e : ε} {f : Unit → Prog σ ε β}
    {Q : β → σ → Prop} (hE : ¬ c → E e) (hf : c → Holds (f ()) s Q E) :
    Holds (check c e >>= f) s Q E := by
  apply holds_bind
  unfold check
  split_ifs with hc
  · exact hf hc
  · exact hE hc

theorem holds_lift {y : Except ε α} (hok : ∀ a, y = .ok a → Q a s) (herr : ∀ e, y = .error e → E e) :
    Holds (lift y) s Q E := by
  cases y with
  | error e => exact herr e rfl
  | ok a => exact hok a rfl

theorem holds_zoom {get : σ → τ} {put : σ → τ → σ} {y : Prog τ ε α}
    (h : Holds y (get s) (fun a t => Q a (put s t)) E) : Holds (zoom get put y) s Q E := by
  simp only [Holds, run, zoom] at h ⊢
  rcases hy : y (get s) with ⟨e | a, t⟩
  · simpa [hy] using h
  · simpa [hy] using h

theorem holds_any (x : Prog σ ε α) (s : σ) : Holds x s (fun _ _ => True) (fun _ => True) := by
  unfold Holds
  split
  · trivial
  · trivial

/-- The rule for a loop, with an invariant of the elements still to do. -/
theorem holds_foldlM {f : β → α → Prog σ ε β} (I : List α → β → σ → Prop)
    (hstep : ∀ a rest b s, I (a :: rest) b s → Holds (f b a) s (fun b' s' => I rest b' s') E)
    (l : List α) (b : β) (s : σ) (h : I l b s) :
    Holds (l.foldlM f b) s (fun b' s' => I [] b' s') E := by
  induction l generalizing b s with
  | nil => exact holds_pure b h
  | cons a rest ih =>
    rw [List.foldlM_cons]
    exact holds_bind ((hstep a rest b s h).mono (fun b' s' => ih b' s') (fun _ he => he))

/-- A run that ends well, read off from a rule. -/
theorem Holds.of_ok (h : Holds x s Q E) {a : α} {s' : σ} (hx : x.run s = (.ok a, s')) :
    Q a s' := by
  simpa [Holds, hx] using h

theorem Holds.of_error (h : Holds x s Q E) {e : ε} {s' : σ} (hx : x.run s = (.error e, s')) :
    E e := by
  simpa [Holds, hx] using h

end Rules

/-- A program that leaves the state as it is, and whose value satisfies `P`. -/
def Reads (x : Prog σ ε α) (s : σ) (P : α → Prop) (E : ε → Prop) : Prop :=
  Holds x s (fun a s' => s' = s ∧ P a) E

section Reading

variable {x : Prog σ ε α} {s : σ} {P : α → Prop} {E : ε → Prop}

theorem reads_pure (a : α) (h : P a) : Reads (pure a : Prog σ ε α) s P E := ⟨rfl, h⟩

theorem reads_fail (e : ε) (h : E e) : Reads (fail e : Prog σ ε α) s P E := h

theorem reads_lift {y : Except ε α} (hok : ∀ a, y = .ok a → P a) (herr : ∀ e, y = .error e → E e) :
    Reads (lift y) s P E :=
  holds_lift (fun a ha => ⟨rfl, hok a ha⟩) herr

/-- What follows a reading program runs in the same state. -/
theorem Reads.bind {f : α → Prog σ ε β} {Q : β → σ → Prop} (h : Reads x s P E)
    (hf : ∀ a, P a → Holds (f a) s Q E) : Holds (x >>= f) s Q E := by
  refine holds_bind (h.mono ?_ fun _ he => he)
  rintro a s' ⟨rfl, ha⟩
  exact hf a ha

theorem Reads.mono {P' : α → Prop} (h : Reads x s P E) (hP : ∀ a, P a → P' a) :
    Reads x s P' E :=
  Holds.mono h (fun a _ ha => ⟨ha.1, hP a ha.2⟩) (fun _ he => he)

theorem reads_check {c : Prop} [Decidable c] {e : ε} (hE : ¬ c → E e) :
    Reads (check c e : Prog σ ε Unit) s (fun _ => c) E := by
  unfold check
  split_ifs with hc
  · exact ⟨rfl, hc⟩
  · exact hE hc

/-- The loop rule for a body that leaves the state as it is. -/
theorem reads_foldlM {f : β → α → Prog σ ε β} (I : List α → β → Prop)
    (hstep : ∀ a rest b, I (a :: rest) b → Reads (f b a) s (fun b' => I rest b') E)
    (l : List α) (b : β) (h : I l b) : Reads (l.foldlM f b) s (fun b' => I [] b') E := by
  refine holds_foldlM (fun rest b s' => s' = s ∧ I rest b) ?_ l b s ⟨rfl, h⟩
  rintro a rest b s' ⟨rfl, hI⟩
  exact hstep a rest b hI

theorem reads_allM {p : α → Prog σ ε Bool} {C : α → Prop}
    (hp : ∀ a, Reads (p a) s (fun b => b = true → C a) E) (l : List α) :
    Reads (l.allM p) s (fun b => b = true → ∀ a ∈ l, C a) E := by
  induction l with
  | nil => exact reads_pure true fun _ a ha => absurd ha List.not_mem_nil
  | cons a rest ih =>
    refine Reads.bind (hp a) fun b hb => ?_
    cases b with
    | false => exact reads_pure false fun h => absurd h Bool.false_ne_true
    | true =>
      refine ih.mono fun b' hrest hb' => ?_
      rintro a' (_ | ⟨_, hmem⟩)
      · exact hb rfl
      · exact hrest hb' a' hmem

end Reading

/-- Every run of the program, whether it ends well or not, moves the state along `R`. -/
def Within (R : σ → σ → Prop) (x : Prog σ ε α) : Prop := ∀ s, R s (x.run s).2

/-- What holds of a run, together with how the run moves. -/
theorem Holds.and_within {R : σ → σ → Prop} {x : Prog σ ε α} {s : σ} {Q : α → σ → Prop} {E : ε → Prop}
    (h : Holds x s Q E) (hx : Within R x) : Holds x s (fun a s' => R s s' ∧ Q a s') E := by
  have hmove := hx s
  unfold Holds at h ⊢
  rcases hrun : x.run s with ⟨e | a, s'⟩
  · rw [hrun] at h
    exact h
  · rw [hrun] at h hmove
    exact ⟨hmove, h⟩

section Moving

variable {R : σ → σ → Prop} [IsPreorder σ R]

theorem within_pure (a : α) : Within R (pure a : Prog σ ε α) := fun s => refl s

theorem within_fail (e : ε) : Within R (fail e : Prog σ ε α) := fun s => refl s

theorem within_lift (y : Except ε α) : Within R (lift y) := fun s => refl s

theorem within_check (c : Prop) [Decidable c] (e : ε) :
    Within R (check c e : Prog σ ε Unit) := by
  unfold check
  split_ifs
  · exact within_pure ()
  · exact within_fail e

theorem within_bind {x : Prog σ ε α} {f : α → Prog σ ε β} (hx : Within R x)
    (hf : ∀ a, Within R (f a)) : Within R (x >>= f) := by
  intro s
  have hfirst := hx s
  simp only [run, bind, seq] at hfirst ⊢
  rcases hxs : x s with ⟨e | a, s'⟩
  · rw [hxs] at hfirst
    exact hfirst
  · rw [hxs] at hfirst
    exact IsTrans.trans _ _ _ hfirst (hf a s')

theorem within_foldlM {f : β → α → Prog σ ε β} (hf : ∀ b a, Within R (f b a)) (l : List α)
    (b : β) : Within R (l.foldlM f b) := by
  induction l generalizing b with
  | nil => exact within_pure b
  | cons a rest ih =>
    rw [List.foldlM_cons]
    exact within_bind (hf b a) ih

theorem within_forM {f : α → Prog σ ε Unit} (hf : ∀ a, Within R (f a)) (l : List α) :
    Within R (l.forM f) := by
  induction l with
  | nil => exact within_pure ()
  | cons a rest ih => exact within_bind (hf a) fun _ => ih

end Moving

/-- `I` is kept by the runs that end well, and by every run when `P` holds. -/
def Keeps (P : Prop) (I : σ → Prop) (x : Prog σ ε α) : Prop :=
  ∀ s, I s → P ∨ (∃ a, (x.run s).1 = .ok a) → I (x.run s).2

section Keeping

variable {P : Prop} {I : σ → Prop}

theorem keeps_of_within {R : σ → σ → Prop} {x : Prog σ ε α} (hR : ∀ s s', R s s' → I s → I s')
    (hx : Within R x) : Keeps P I x := fun s hs _ => hR s _ (hx s) hs

theorem keeps_pure (a : α) : Keeps P I (pure a : Prog σ ε α) := fun _ hs _ => hs

theorem keeps_act {f : σ → α × σ} (h : ∀ s, I s → I (f s).2) :
    Keeps P I (act f : Prog σ ε α) := fun s hs _ => h s hs

theorem keeps_zoom {J : τ → Prop} {get : σ → τ} {put : σ → τ → σ} {x : Prog τ ε α}
    (hput : ∀ s t, get (put s t) = t) (hx : Keeps P J x) :
    Keeps P (fun s => J (get s)) (zoom get put x) := by
  intro s hs hend
  show J (get (put s _))
  rw [hput]
  exact hx (get s) hs hend

theorem keeps_bind {x : Prog σ ε α} {f : α → Prog σ ε β} (hx : Keeps P I x)
    (hf : ∀ a, Keeps P I (f a)) : Keeps P I (x >>= f) := by
  intro s hs hend
  have hfirst := hx s hs
  simp only [run, bind, seq] at hfirst hend ⊢
  rcases hxs : x s with ⟨e | a, s'⟩
  · rw [hxs] at hfirst hend
    rcases hend with hP | ⟨b, hb⟩
    · exact hfirst (Or.inl hP)
    · cases hb
  · rw [hxs] at hfirst hend
    exact hf a s' (hfirst (Or.inr ⟨a, rfl⟩)) hend

theorem keeps_forM {f : α → Prog σ ε Unit} (hf : ∀ a, Keeps P I (f a)) (l : List α) :
    Keeps P I (l.forM f) := by
  induction l with
  | nil => exact keeps_pure ()
  | cons a rest ih => exact keeps_bind (hf a) fun _ => ih

theorem keeps_foldlM {f : β → α → Prog σ ε β} (hf : ∀ b a, Keeps P I (f b a)) (l : List α)
    (b : β) : Keeps P I (l.foldlM f b) := by
  induction l generalizing b with
  | nil => exact keeps_pure b
  | cons a rest ih =>
    rw [List.foldlM_cons]
    exact keeps_bind (hf b a) ih

end Keeping

/-- Two programs that give the same value or error from related states, and leave
related states. -/
def Sim (R : σ → τ → Prop) (x : Prog σ ε α) (y : Prog τ ε α) : Prop :=
  ∀ s t, R s t → (x.run s).1 = (y.run t).1 ∧ R (x.run s).2 (y.run t).2

section Simulation

variable {R : σ → τ → Prop}

theorem sim_pure (a : α) : Sim R (pure a : Prog σ ε α) (pure a) := fun _ _ h => ⟨rfl, h⟩

theorem sim_fail (e : ε) : Sim R (fail e : Prog σ ε α) (fail e) := fun _ _ h => ⟨rfl, h⟩

theorem sim_lift (y : Except ε α) : Sim R (lift y) (lift y) := fun _ _ h => ⟨rfl, h⟩

theorem sim_check (c : Prop) [Decidable c] (e : ε) :
    Sim R (check c e : Prog σ ε Unit) (check c e) := by
  unfold check
  split_ifs
  · exact sim_pure ()
  · exact sim_fail e

theorem sim_act {f : σ → α × σ} {g : τ → α × τ}
    (h : ∀ s t, R s t → (f s).1 = (g t).1 ∧ R (f s).2 (g t).2) :
    Sim R (act f : Prog σ ε α) (act g) := by
  intro s t hR
  obtain ⟨hval, hR'⟩ := h s t hR
  exact ⟨congrArg Except.ok hval, hR'⟩

theorem sim_bind {x : Prog σ ε α} {y : Prog τ ε α} {f : α → Prog σ ε β} {g : α → Prog τ ε β}
    (hx : Sim R x y) (hf : ∀ a, Sim R (f a) (g a)) : Sim R (x >>= f) (y >>= g) := by
  intro s t hR
  obtain ⟨hval, hR'⟩ := hx s t hR
  simp only [run, bind, seq] at hval hR' ⊢
  rcases hxs : x s with ⟨v, s'⟩
  rcases hyt : y t with ⟨w, t'⟩
  rw [hxs, hyt] at hval hR'
  obtain rfl : v = w := hval
  cases v with
  | error e => exact ⟨rfl, hR'⟩
  | ok a => exact hf a s' t' hR'

theorem sim_ite {c : Prop} [Decidable c] {x x' : Prog σ ε α} {y y' : Prog τ ε α}
    (h : c → Sim R x y) (h' : ¬ c → Sim R x' y') :
    Sim R (if c then x else x') (if c then y else y') := by
  split_ifs with hc
  · exact h hc
  · exact h' hc

theorem sim_foldlM_mem {f : β → α → Prog σ ε β} {g : β → α → Prog τ ε β} (l : List α)
    (h : ∀ a ∈ l, ∀ b, Sim R (f b a) (g b a)) (b : β) : Sim R (l.foldlM f b) (l.foldlM g b) := by
  induction l generalizing b with
  | nil => exact sim_pure b
  | cons a rest ih =>
    rw [List.foldlM_cons, List.foldlM_cons]
    exact sim_bind (h a List.mem_cons_self b) (ih fun c hc => h c (List.mem_cons_of_mem a hc))

theorem sim_foldlM {f : β → α → Prog σ ε β} {g : β → α → Prog τ ε β}
    (h : ∀ b a, Sim R (f b a) (g b a)) (l : List α) (b : β) :
    Sim R (l.foldlM f b) (l.foldlM g b) :=
  sim_foldlM_mem l (fun a _ b => h b a) b

theorem sim_allM_mem {p : α → Prog σ ε Bool} {q : α → Prog τ ε Bool} (l : List α)
    (h : ∀ a ∈ l, Sim R (p a) (q a)) : Sim R (l.allM p) (l.allM q) := by
  induction l with
  | nil => exact sim_pure true
  | cons a rest ih =>
    refine sim_bind (h a List.mem_cons_self) fun b => ?_
    cases b with
    | false => exact sim_pure false
    | true => exact ih fun c hc => h c (List.mem_cons_of_mem a hc)

theorem sim_allM {p : α → Prog σ ε Bool} {q : α → Prog τ ε Bool} (h : ∀ a, Sim R (p a) (q a))
    (l : List α) : Sim R (l.allM p) (l.allM q) :=
  sim_allM_mem l fun a _ => h a

/-- States made of a part and a rest: the rests are equal and the parts related. -/
theorem sim_zoom {σ' τ' : Type} {S : σ' → τ' → Prop} {get : σ → σ'} {put : σ → σ' → σ}
    {get' : τ → τ'} {put' : τ → τ' → τ} {x : Prog σ' ε α} {y : Prog τ' ε α} (hx : Sim S x y)
    (hget : ∀ s t, R s t → S (get s) (get' t))
    (hput : ∀ s t s' t', R s t → S s' t' → R (put s s') (put' t t')) :
    Sim R (zoom get put x) (zoom get' put' y) := by
  intro s t hR
  obtain ⟨hval, hS⟩ := hx (get s) (get' t) (hget s t hR)
  exact ⟨hval, hput s t _ _ hR hS⟩

/-- Reading what is known to hold of the states. -/
theorem Sim.weaken {R' : σ → τ → Prop} {x : Prog σ ε α} {y : Prog τ ε α} (h : Sim R' x y)
    {s : σ} {t : τ} (hR : R' s t) (hback : ∀ s' t', R' s' t' → R s' t') :
    (x.run s).1 = (y.run t).1 ∧ R (x.run s).2 (y.run t).2 :=
  ⟨(h s t hR).1, hback _ _ (h s t hR).2⟩

end Simulation

/-- Results with related values or the same error. -/
inductive Agree {ε α β : Type} (V : α → β → Prop) : Except ε α → Except ε β → Prop
  | ok {a : α} {b : β} (h : V a b) : Agree V (.ok a) (.ok b)
  | error (e : ε) : Agree V (.error e) (.error e)

/-- Like `Sim`, with values that are related instead of equal. -/
def SimUpTo (R : σ → τ → Prop) (V : α → β → Prop) (x : Prog σ ε α) (y : Prog τ ε β) : Prop :=
  ∀ s t, R s t → Agree V (x.run s).1 (y.run t).1 ∧ R (x.run s).2 (y.run t).2

section UpTo

variable {R : σ → τ → Prop} {α' β' : Type}

theorem Sim.upTo {x : Prog σ ε α} {y : Prog τ ε α} (h : Sim R x y) : SimUpTo R Eq x y := by
  intro s t hR
  obtain ⟨hval, hR'⟩ := h s t hR
  refine ⟨?_, hR'⟩
  rw [hval]
  cases (y.run t).1 with
  | error e => exact .error e
  | ok a => exact .ok rfl

theorem Agree.eq {r r' : Except ε α} (h : Agree Eq r r') : r = r' := by
  cases h with
  | ok h => rw [h]
  | error e => rfl

theorem SimUpTo.sim {x : Prog σ ε α} {y : Prog τ ε α} (h : SimUpTo R Eq x y) : Sim R x y :=
  fun s t hR => ⟨(h s t hR).1.eq, (h s t hR).2⟩

theorem simUpTo_pure {V : α → β → Prop} {a : α} {b : β} (h : V a b) :
    SimUpTo R V (pure a : Prog σ ε α) (pure b) := fun _ _ hR => ⟨.ok h, hR⟩

theorem simUpTo_fail {V : α → β → Prop} (e : ε) :
    SimUpTo R V (fail e : Prog σ ε α) (fail e) := fun _ _ hR => ⟨.error e, hR⟩

theorem simUpTo_bind {V : α → β → Prop} {W : α' → β' → Prop} {x : Prog σ ε α} {y : Prog τ ε β}
    {f : α → Prog σ ε α'} {g : β → Prog τ ε β'} (hx : SimUpTo R V x y)
    (hf : ∀ a b, V a b → SimUpTo R W (f a) (g b)) : SimUpTo R W (x >>= f) (y >>= g) := by
  intro s t hR
  obtain ⟨hval, hR'⟩ := hx s t hR
  simp only [run, bind, seq] at hval hR' ⊢
  rcases hxs : x s with ⟨v, s'⟩
  rcases hyt : y t with ⟨w, t'⟩
  rw [hxs, hyt] at hval hR'
  cases hval with
  | error e => exact ⟨.error e, hR'⟩
  | ok h => exact hf _ _ h s' t' hR'

/-- After a step that gives one value on both sides. -/
theorem Sim.bind_upTo {W : α' → β' → Prop} {x : Prog σ ε α} {y : Prog τ ε α}
    {f : α → Prog σ ε α'} {g : α → Prog τ ε β'} (hx : Sim R x y)
    (hf : ∀ a, SimUpTo R W (f a) (g a)) : SimUpTo R W (x >>= f) (y >>= g) := by
  refine simUpTo_bind hx.upTo fun a b hab => ?_
  subst hab
  exact hf a

theorem simUpTo_ite {V : α → β → Prop} {c : Prop} [Decidable c] {x x' : Prog σ ε α}
    {y y' : Prog τ ε β} (h : c → SimUpTo R V x y) (h' : ¬ c → SimUpTo R V x' y') :
    SimUpTo R V (if c then x else x') (if c then y else y') := by
  split_ifs with hc
  · exact h hc
  · exact h' hc

theorem simUpTo_foldlM {W : β → β' → Prop} {f : β → α → Prog σ ε β} {g : β' → α → Prog τ ε β'}
    (h : ∀ b b' a, W b b' → SimUpTo R W (f b a) (g b' a)) (l : List α) {b : β} {b' : β'}
    (hb : W b b') : SimUpTo R W (l.foldlM f b) (l.foldlM g b') := by
  induction l generalizing b b' with
  | nil => exact simUpTo_pure hb
  | cons a rest ih =>
    rw [List.foldlM_cons, List.foldlM_cons]
    exact simUpTo_bind (h b b' a hb) fun c c' hc => ih hc

theorem simUpTo_zoom {σ' τ' : Type} {S : σ' → τ' → Prop} {V : α → β → Prop} {get : σ → σ'}
    {put : σ → σ' → σ} {get' : τ → τ'} {put' : τ → τ' → τ} {x : Prog σ' ε α} {y : Prog τ' ε β}
    (hx : SimUpTo S V x y) (hget : ∀ s t, R s t → S (get s) (get' t))
    (hput : ∀ s t s' t', R s t → S s' t' → R (put s s') (put' t t')) :
    SimUpTo R V (zoom get put x) (zoom get' put' y) := by
  intro s t hR
  obtain ⟨hval, hS⟩ := hx (get s) (get' t) (hget s t hR)
  exact ⟨hval, hput s t _ _ hR hS⟩

end UpTo

end Prog

end UmbrellaLtc
