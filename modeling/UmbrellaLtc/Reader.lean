import UmbrellaLtc.Codec

/-!
Readers as programs: a reader asks a stream for so many bytes at a time and goes on with what it is
given. On a list of bytes it does what a function from lists does; how a stream answers is up to
the stream.
-/

namespace UmbrellaLtc

open Codec

inductive Reader (α : Type) : Type where
  | done (a : α)
  | fail
  | read (n : ℕ) (next : List Byte → Reader α)

namespace Reader

variable {α β : Type}

protected def bind : Reader α → (α → Reader β) → Reader β
  | done a, f => f a
  | fail, _ => fail
  | read n next, f => read n fun bs => (next bs).bind f

instance : Monad Reader where
  pure := done
  bind := Reader.bind

/-- What a reader gives on a list of bytes, with the rest of them. -/
def parse : Reader α → List Byte → Option (α × List Byte)
  | done a, bs => some (a, bs)
  | fail, _ => none
  | read n next, bs => if bs.length < n then none else (next (bs.take n)).parse (bs.drop n)

theorem parse_pure (a : α) (bs : List Byte) : (pure a : Reader α).parse bs = some (a, bs) := rfl

theorem parse_bind (r : Reader α) (f : α → Reader β) (bs : List Byte) :
    (r >>= f).parse bs = (r.parse bs).bind fun p => (f p.1).parse p.2 := by
  induction r generalizing bs with
  | done a => rfl
  | fail => rfl
  | read n next ih =>
    show (if bs.length < n then none else ((next (bs.take n)).bind f).parse (bs.drop n)) = _
    rw [parse]
    split_ifs
    · rfl
    · exact ih (bs.take n) (bs.drop n)

theorem parse_shorter {r : Reader α} {bs rest : List Byte} {a : α}
    (h : r.parse bs = some (a, rest)) : rest.length ≤ bs.length := by
  induction r generalizing bs with
  | done b =>
    obtain ⟨-, rfl⟩ := Prod.mk.inj (Option.some.inj h)
    exact le_rfl
  | fail => cases h
  | read n next ih =>
    unfold parse at h
    split_ifs at h with hshort
    have hle := ih _ h
    rw [List.length_drop] at hle
    omega

/-- A reader does what a function from lists does. -/
def Agrees (r : Reader α) (f : List Byte → Option (α × List Byte)) : Prop :=
  ∀ bs, r.parse bs = f bs

section Combinators

variable {r : Reader α} {c : Codec α} {d : Codec β}

/-- A machine word of `n` bytes. -/
def word (n w : ℕ) : Reader (BitVec w) := read n fun bs => done (BitVec.ofNat w (ofLeBytes bs))

theorem agrees_word (n w : ℕ) (hw : w = 8 * n) : Agrees (word n w) (bits n w hw).read :=
  fun _ => rfl

def pair (r : Reader α) (s : Reader β) : Reader (α × β) := do
  let a ← r
  let b ← s
  return (a, b)

theorem agrees_pair {s : Reader β} (h : Agrees r c.read) (hs : Agrees s d.read) :
    Agrees (pair r s) (c.pair d).read := by
  intro bs
  unfold pair
  rw [parse_bind, h bs]
  show _ = (c.read bs).bind _
  congr 1
  funext p
  rw [parse_bind, hs p.2]
  rfl

def map (f : α → β) (r : Reader α) : Reader β := do
  let a ← r
  return f a

theorem agrees_iso {f : α → β} {g : β → α} (hfg : ∀ b, f (g b) = b) (hgf : ∀ a, g (f a) = a)
    (h : Agrees r c.read) : Agrees (map f r) (c.iso f g hfg hgf).read := by
  intro bs
  unfold map
  rw [parse_bind, h bs]
  show _ = (c.read bs).map _
  cases c.read bs <;> rfl

/-- Exactly `n` values, one after another. -/
def many (r : Reader α) : ℕ → Reader (List α)
  | 0 => done []
  | n + 1 => do
      let a ← r
      let as ← many r n
      return a :: as

theorem agrees_many (h : Agrees r c.read) (n : ℕ) : Agrees (many r n) (c.readMany n) := by
  induction n with
  | zero => exact fun _ => rfl
  | succ n ih =>
    intro bs
    unfold many Codec.readMany
    rw [parse_bind, h bs]
    show _ = (c.read bs).bind _
    congr 1
    funext p
    rw [parse_bind, ih p.2]
    rfl

/-- A list of values after their number. -/
def counted (count : Reader ℕ) (r : Reader α) : Reader (List α) := do
  let n ← count
  many r n

theorem agrees_counted {count : Reader ℕ} {k : Codec ℕ} (hcount : Agrees count k.read)
    (h : Agrees r c.read) : Agrees (counted count r) (Codec.counted k c).read := by
  intro bs
  unfold counted
  rw [parse_bind, hcount bs]
  show _ = (k.read bs).bind _
  congr 1
  funext p
  exact agrees_many h p.1 p.2

end Combinators

section Chunks

/-- `n` bytes in chunks of at most `k`. -/
def chunks (k : ℕ) : ℕ → ℕ → Reader (List Byte)
  | 0, _ => done []
  | fuel + 1, n =>
      if n = 0 then done []
      else read (min n k) fun bs => do
        let rest ← chunks k fuel (n - min n k)
        return bs ++ rest

theorem parse_chunks {k : ℕ} (hk : 0 < k) (fuel n : ℕ) (hn : n ≤ fuel) (bs : List Byte) :
    (chunks k fuel n).parse bs = if bs.length < n then none else some (bs.take n, bs.drop n) := by
  induction fuel generalizing n bs with
  | zero =>
    obtain rfl := Nat.le_zero.mp hn
    rfl
  | succ fuel ih =>
    unfold chunks
    by_cases hzero : n = 0
    · rw [if_pos hzero, hzero]
      rfl
    rw [if_neg hzero, parse]
    by_cases hshort : bs.length < min n k
    · rw [if_pos hshort, if_pos (by omega)]
    rw [if_neg hshort, parse_bind, ih (n - min n k) (by omega), List.length_drop]
    by_cases hall : bs.length < n
    · rw [if_pos hall, if_pos (by omega)]
      rfl
    · rw [if_neg hall, if_neg (by omega)]
      obtain ⟨m, hm⟩ : ∃ m, n = min n k + m := ⟨n - min n k, by omega⟩
      have hrest : n - min n k = m := by omega
      have htake : bs.take n = bs.take (min n k) ++ (bs.drop (min n k)).take m := by
        rw [← List.take_add, ← hm]
      have hdrop : bs.drop n = (bs.drop (min n k)).drop m := by
        rw [List.drop_drop, ← hm]
      rw [hrest, htake, hdrop]
      rfl

theorem readMany_bytes (n : ℕ) (bs : List Byte) : Codec.readMany (bits 1 8 rfl) n bs =
    if bs.length < n then none else some (bs.take n, bs.drop n) := by
  induction n generalizing bs with
  | zero => simp [Codec.readMany]
  | succ n ih =>
    unfold Codec.readMany
    cases bs with
    | nil => rfl
    | cons b bs =>
      have hbyte : (bits 1 8 rfl).read (b :: bs) = some (b, bs) := by simp [bits, ofLeBytes]
      simp only [hbyte, ih, Option.bind_eq_bind, Option.bind_some]
      by_cases hshort : bs.length < n <;> simp [hshort]

/-- A vector of bytes, of which `k` are read at a time. -/
def byteVector (count : Reader ℕ) (k : ℕ) : Reader (List Byte) := do
  let n ← count
  chunks k n n

theorem agrees_byteVector {count : Reader ℕ} {c : Codec ℕ} {k : ℕ} (hk : 0 < k)
    (hcount : Agrees count c.read) :
    Agrees (byteVector count k) (Codec.counted c (bits 1 8 rfl)).read := by
  intro bs
  unfold byteVector
  rw [parse_bind, hcount bs]
  show _ = (c.read bs).bind _
  congr 1
  funext p
  rw [parse_chunks hk p.1 p.1 le_rfl]
  exact (readMany_bytes p.1 p.2).symm

end Chunks

end Reader

end UmbrellaLtc
