import Mathlib.Data.List.Basic
import Mathlib.Data.Nat.Bitwise
import Mathlib.Tactic.Ring

/-!
Words of a fixed width as a stream of bits, the highest bit of each first, and machines that take
words of one width in and give words of another out. Such a machine holds the bits that came in
and have not gone out, and a packing is the same stream with zeros behind it.
-/

namespace UmbrellaLtc.BitStream

def bits : ℕ → ℕ → List Bool
  | 0, _ => []
  | w + 1, n => n.testBit w :: bits w n

def stream (w : ℕ) (l : List ℕ) : List Bool := l.flatMap (bits w)

def Words (w : ℕ) (l : List ℕ) : Prop := ∀ d ∈ l, d < 2 ^ w

section Streams

variable {w : ℕ}

@[simp] theorem length_bits (w n : ℕ) : (bits w n).length = w := by
  induction w with
  | zero => rfl
  | succ w ih => rw [bits, List.length_cons, ih]

theorem testBit_of_bits_eq {a b : ℕ} (h : bits w a = bits w b) :
    ∀ i < w, a.testBit i = b.testBit i := by
  induction w with
  | zero => exact fun i hi => absurd hi (Nat.not_lt_zero i)
  | succ w ih =>
    intro i hi
    obtain ⟨htop, hrest⟩ := List.cons.inj h
    rcases Nat.lt_succ_iff_lt_or_eq.mp hi with hi | rfl
    · exact ih hrest i hi
    · exact htop

theorem testBit_high {n : ℕ} (h : n < 2 ^ w) {i : ℕ} (hi : w ≤ i) : n.testBit i = false :=
  Nat.testBit_lt_two_pow (h.trans_le (Nat.pow_le_pow_right (by decide) hi))

theorem bits_inj {a b : ℕ} (ha : a < 2 ^ w) (hb : b < 2 ^ w) (h : bits w a = bits w b) :
    a = b := by
  apply Nat.eq_of_testBit_eq
  intro i
  by_cases hi : i < w
  · exact testBit_of_bits_eq h i hi
  · rw [testBit_high ha (Nat.le_of_not_lt hi), testBit_high hb (Nat.le_of_not_lt hi)]

theorem bits_zero (w : ℕ) : bits w 0 = List.replicate w false := by
  induction w with
  | zero => rfl
  | succ w ih => rw [bits, ih, Nat.zero_testBit, List.replicate_succ]

@[simp] theorem stream_nil (w : ℕ) : stream w [] = [] := rfl

@[simp] theorem stream_cons (w d : ℕ) (l : List ℕ) : stream w (d :: l) = bits w d ++ stream w l :=
  List.flatMap_cons

theorem stream_append (w : ℕ) (l l' : List ℕ) : stream w (l ++ l') = stream w l ++ stream w l' :=
  List.flatMap_append

theorem length_stream (w : ℕ) (l : List ℕ) : (stream w l).length = w * l.length := by
  induction l with
  | nil => rfl
  | cons d l ih =>
    rw [stream_cons, List.length_append, length_bits, ih, List.length_cons]
    ring

/-- A stream is cut into words in one way, up to a rest shorter than a word. -/
theorem stream_append_inj {l l' : List ℕ} {r r' : List Bool} (hl : Words w l) (hl' : Words w l')
    (hr : r.length < w) (hr' : r'.length < w) (h : stream w l ++ r = stream w l' ++ r') :
    l = l' ∧ r = r' := by
  induction l generalizing l' with
  | nil =>
    cases l' with
    | nil => exact ⟨rfl, h⟩
    | cons d l' =>
      have hlen := congrArg List.length h
      simp only [stream_nil, stream_cons, List.nil_append, List.length_append, length_bits] at hlen
      omega
  | cons d l ih =>
    cases l' with
    | nil =>
      have hlen := congrArg List.length h
      simp only [stream_nil, stream_cons, List.nil_append, List.length_append, length_bits] at hlen
      omega
    | cons d' l' =>
      rw [stream_cons, stream_cons, List.append_assoc, List.append_assoc] at h
      obtain ⟨hbits, hrest⟩ := List.append_inj h (by rw [length_bits, length_bits])
      obtain ⟨rfl, hrr⟩ := ih (fun x hx => hl x (List.mem_cons_of_mem d hx))
        (fun x hx => hl' x (List.mem_cons_of_mem d' hx)) hrest
      have hd := bits_inj (hl d List.mem_cons_self) (hl' d' List.mem_cons_self) hbits
      exact ⟨by rw [hd], hrr⟩

/-! Bounds on the words that shifts and masks make. -/

theorem shiftRight_lt {n k : ℕ} (h : n < 2 ^ (w + k)) : n >>> k < 2 ^ w := by
  rw [Nat.shiftRight_eq_div_pow]
  apply Nat.div_lt_of_lt_mul
  rwa [mul_comm, ← pow_add]

theorem shiftLeft_lt {n k : ℕ} (h : n < 2 ^ w) : n <<< k < 2 ^ (w + k) := by
  rw [Nat.shiftLeft_eq, pow_add]
  exact Nat.mul_lt_mul_of_pos_right h (Nat.two_pow_pos k)

theorem words_nil (w : ℕ) : Words w [] := fun d hd => by cases hd

theorem words_one {a : ℕ} (ha : a < 2 ^ w) : Words w [a] := by
  intro d hd
  rwa [List.mem_singleton.mp hd]

theorem words_two {a b : ℕ} (ha : a < 2 ^ w) (hb : b < 2 ^ w) : Words w [a, b] := by
  intro d hd
  rcases List.mem_cons.mp hd with rfl | hd
  · exact ha
  · exact words_one hb d hd

end Streams

section Packings

variable {w w' z z' : ℕ} {l l' : List ℕ}

/-- The words `l` of `w` bits as words `l'` of `w'` bits, filled up with `z` zeros. -/
structure Packs (w w' : ℕ) (l l' : List ℕ) (z : ℕ) : Prop where
  fill_lt : z < w'
  words : Words w' l'
  stream_eq : stream w' l' = stream w l ++ List.replicate z false

theorem Packs.length_eq (h : Packs w w' l l' z) : w' * l'.length = w * l.length + z := by
  have hlen := congrArg List.length h.stream_eq
  rwa [length_stream, List.length_append, length_stream, List.length_replicate] at hlen

/-- What the words are packed into. -/
theorem Packs.target_unique {m m' : List ℕ} (h : Packs w w' l m z) (h' : Packs w w' l m' z') :
    m = m' ∧ z = z' := by
  have hz : z = z' := by
    have hlen := h.length_eq
    have hlen' := h'.length_eq
    have hfill := h.fill_lt
    have hfill' := h'.fill_lt
    rcases Nat.lt_trichotomy m.length m'.length with hlt | heq | hlt
    · have hmul := Nat.mul_le_mul_left w' (Nat.succ_le_of_lt hlt)
      rw [Nat.mul_succ] at hmul
      omega
    · rw [heq] at hlen
      omega
    · have hmul := Nat.mul_le_mul_left w' (Nat.succ_le_of_lt hlt)
      rw [Nat.mul_succ] at hmul
      omega
  subst hz
  have hpos : ([] : List Bool).length < w' := Nat.zero_lt_of_lt h.fill_lt
  have hstream : stream w' m ++ [] = stream w' m' ++ [] := by
    rw [h.stream_eq, h'.stream_eq]
  exact ⟨(stream_append_inj h.words h'.words hpos hpos hstream).1, rfl⟩

end Packings

section Machines

variable {σ : Type} {step : σ → ℕ → List ℕ × σ} {w w' : ℕ} {Held : σ → List Bool → Prop}

/-- The words that go out while words come in, and the state in the end. -/
def feed (step : σ → ℕ → List ℕ × σ) : σ → List ℕ → List ℕ × σ
  | s, [] => ([], s)
  | s, d :: ds =>
      let (out, s') := step s d
      let (outs, last) := feed step s' ds
      (out ++ outs, last)

/-- No bit is lost: `Held s p` says that the state `s` holds the bits `p`. -/
def Repacks (w w' : ℕ) (step : σ → ℕ → List ℕ × σ) (Held : σ → List Bool → Prop) : Prop :=
  ∀ s p d, Held s p → d < 2 ^ w →
    ∃ p', Held (step s d).2 p' ∧ Words w' (step s d).1 ∧
      stream w' (step s d).1 ++ p' = p ++ bits w d

theorem feed_cons (step : σ → ℕ → List ℕ × σ) (s : σ) (d : ℕ) (ds : List ℕ) :
    feed step s (d :: ds) =
      ((step s d).1 ++ (feed step (step s d).2 ds).1, (feed step (step s d).2 ds).2) := rfl

theorem Repacks.feed_spec (h : Repacks w w' step Held) {s : σ} {p : List Bool} (hs : Held s p)
    {ds : List ℕ} (hds : Words w ds) :
    ∃ p', Held (feed step s ds).2 p' ∧ Words w' (feed step s ds).1 ∧
      stream w' (feed step s ds).1 ++ p' = p ++ stream w ds := by
  induction ds generalizing s p with
  | nil =>
    refine ⟨p, hs, words_nil w', ?_⟩
    rw [feed, stream_nil, stream_nil, List.nil_append, List.append_nil]
  | cons d ds ih =>
    obtain ⟨q, hq, hwords, hstream⟩ := h s p d hs (hds d List.mem_cons_self)
    obtain ⟨p', hp', hwords', hstream'⟩ := ih hq fun x hx => hds x (List.mem_cons_of_mem d hx)
    rw [feed_cons]
    refine ⟨p', hp', ?_, ?_⟩
    · intro x hx
      exact (List.mem_append.mp hx).elim (hwords x) (hwords' x)
    · rw [stream_append, List.append_assoc, hstream', ← List.append_assoc, hstream,
        List.append_assoc, stream_cons]

end Machines

end UmbrellaLtc.BitStream
