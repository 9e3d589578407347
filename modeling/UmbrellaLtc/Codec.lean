import Mathlib.Data.List.Basic
import Mathlib.Data.BitVec
import Mathlib.Tactic.NormNum
import Mathlib.Tactic.Ring
import Mathlib.Tactic.SplitIfs

/-!
Byte codecs. A codec gives the reader, the writer and the announced size of one
type together, as a single list of fields read and written in the same order
does, and carries the round trip as a field. Values are read back only when
they are good: a reader may refuse a count that a writer can still print. The
combinators keep the laws, so that a record's codec is built from its fields'.
-/

namespace UmbrellaLtc.Codec

abbrev Byte := BitVec 8

/-- The low `n` bytes of a number, least significant byte first. -/
def leBytes : ℕ → ℕ → List Byte
  | 0, _ => []
  | n + 1, x => BitVec.ofNat 8 x :: leBytes n (x / 256)

def ofLeBytes : List Byte → ℕ
  | [] => 0
  | b :: bs => b.toNat + 256 * ofLeBytes bs

@[simp] theorem leBytes_length (n x : ℕ) : (leBytes n x).length = n := by
  induction n generalizing x with
  | zero => rfl
  | succ n ih => simp [leBytes, ih]

theorem ofLeBytes_leBytes (n x : ℕ) : ofLeBytes (leBytes n x) = x % 256 ^ n := by
  induction n generalizing x with
  | zero => simp [leBytes, ofLeBytes, Nat.mod_one]
  | succ n ih =>
    have hstep : x % 256 ^ (n + 1) = x % 256 + 256 * (x / 256 % 256 ^ n) := by
      rw [Nat.pow_succ, Nat.mul_comm]
      exact Nat.mod_mul
    simp only [leBytes, ofLeBytes, ih, BitVec.toNat_ofNat, hstep]

theorem ofLeBytes_lt (bs : List Byte) : ofLeBytes bs < 256 ^ bs.length := by
  induction bs with
  | nil => simp [ofLeBytes]
  | cons b bs ih =>
    have hb : b.toNat < 256 := b.isLt
    simp only [ofLeBytes, List.length_cons, Nat.pow_succ]
    omega

theorem leBytes_ofLeBytes (bs : List Byte) : leBytes bs.length (ofLeBytes bs) = bs := by
  induction bs with
  | nil => rfl
  | cons b bs ih =>
    have hb : b.toNat < 256 := b.isLt
    have hdiv : (b.toNat + 256 * ofLeBytes bs) / 256 = ofLeBytes bs := by omega
    have hlow : BitVec.ofNat 8 (b.toNat + 256 * ofLeBytes bs) = b := by
      apply BitVec.eq_of_toNat_eq
      rw [BitVec.toNat_ofNat]
      omega
    rw [List.length_cons, ofLeBytes, leBytes, hdiv, hlow, ih]

theorem ofLeBytes_append (bs bs' : List Byte) :
    ofLeBytes (bs ++ bs') = ofLeBytes bs + 256 ^ bs.length * ofLeBytes bs' := by
  induction bs with
  | nil => simp [ofLeBytes]
  | cons b bs ih =>
    rw [List.cons_append, ofLeBytes, ofLeBytes, ih, List.length_cons, Nat.pow_succ]
    ring

/-- Two numbers below `256 ^ n` with the same `n` bytes are equal. -/
theorem leBytes_inj {n x y : ℕ} (hx : x < 256 ^ n) (hy : y < 256 ^ n)
    (h : leBytes n x = leBytes n y) : x = y := by
  have hval := congrArg ofLeBytes h
  rwa [ofLeBytes_leBytes, ofLeBytes_leBytes, Nat.mod_eq_of_lt hx, Nat.mod_eq_of_lt hy] at hval

end Codec

open Codec

/-- A reader and a writer of one type over the same byte layout. -/
structure Codec (α : Type) where
  size : α → ℕ
  write : α → List Byte
  read : List Byte → Option (α × List Byte)
  Good : α → Prop
  write_length : ∀ a, (write a).length = size a
  read_write : ∀ a rest, Good a → read (write a ++ rest) = some (a, rest)
  read_good : ∀ bs a rest, read bs = some (a, rest) → Good a
  read_shorter : ∀ bs a rest, read bs = some (a, rest) → rest.length ≤ bs.length

namespace Codec

variable {α β : Type}

/-- A machine word of `n` bytes, least significant byte first. -/
def bits (n w : ℕ) (hw : w = 8 * n) : Codec (BitVec w) where
  size _ := n
  write x := leBytes n x.toNat
  read bs := if bs.length < n then none
    else some (BitVec.ofNat w (ofLeBytes (bs.take n)), bs.drop n)
  Good _ := True
  write_length x := leBytes_length n x.toNat
  read_write x rest _ := by
    have hlt : x.toNat < 256 ^ n := by
      have hx := x.isLt
      subst hw
      rwa [Nat.pow_mul] at hx
    have htake : (leBytes n x.toNat ++ rest).take n = leBytes n x.toNat := by
      rw [List.take_append_of_le_length (by simp), List.take_of_length_le (by simp)]
    have hdrop : (leBytes n x.toNat ++ rest).drop n = rest := by
      rw [List.drop_append_of_le_length (by simp), List.drop_of_length_le (by simp),
        List.nil_append]
    have hlen : ¬ (leBytes n x.toNat ++ rest).length < n := by simp
    rw [if_neg hlen, htake, hdrop, ofLeBytes_leBytes, Nat.mod_eq_of_lt hlt,
      BitVec.ofNat_toNat, BitVec.setWidth_eq]
  read_good _ _ _ _ := trivial
  read_shorter bs a rest h := by
    split_ifs at h with hshort
    simp only [Option.some.injEq, Prod.mk.injEq] at h
    rw [← h.2, List.length_drop]
    omega

/-- One value after another. -/
def pair (c : Codec α) (d : Codec β) : Codec (α × β) where
  size p := c.size p.1 + d.size p.2
  write p := c.write p.1 ++ d.write p.2
  read bs := do
    let (a, bs) ← c.read bs
    let (b, bs) ← d.read bs
    return ((a, b), bs)
  Good p := c.Good p.1 ∧ d.Good p.2
  write_length p := by rw [List.length_append, c.write_length, d.write_length]
  read_write p rest hp := by
    rw [List.append_assoc, c.read_write p.1 _ hp.1]
    simp [d.read_write p.2 rest hp.2]
  read_good bs p rest h := by
    simp only [Option.bind_eq_bind, Option.bind_eq_some_iff] at h
    obtain ⟨⟨a, bs'⟩, ha, ⟨b, bs''⟩, hb, heq⟩ := h
    simp only [Option.pure_def, Option.some.injEq, Prod.mk.injEq] at heq
    rw [← heq.1]
    exact ⟨c.read_good bs a bs' ha, d.read_good bs' b bs'' hb⟩
  read_shorter bs p rest h := by
    simp only [Option.bind_eq_bind, Option.bind_eq_some_iff] at h
    obtain ⟨⟨a, bs'⟩, ha, ⟨b, bs''⟩, hb, heq⟩ := h
    simp only [Option.pure_def, Option.some.injEq, Prod.mk.injEq] at heq
    have h1 := c.read_shorter bs a bs' ha
    have h2 := d.read_shorter bs' b bs'' hb
    rw [← heq.2]
    exact le_trans h2 h1

/-- A record seen through its tuple of fields. -/
def iso (c : Codec α) (f : α → β) (g : β → α)
    (hfg : ∀ b, f (g b) = b) (hgf : ∀ a, g (f a) = a) : Codec β where
  size b := c.size (g b)
  write b := c.write (g b)
  read bs := (c.read bs).map fun p => (f p.1, p.2)
  Good b := c.Good (g b)
  write_length b := c.write_length (g b)
  read_write b rest hb := by
    rw [c.read_write (g b) rest hb]
    simp [hfg b]
  read_good bs b rest h := by
    simp only [Option.map_eq_some_iff, Prod.mk.injEq] at h
    obtain ⟨⟨a, bs'⟩, ha, hb, -⟩ := h
    rw [← hb, hgf]
    exact c.read_good bs a bs' ha
  read_shorter bs b rest h := by
    simp only [Option.map_eq_some_iff, Prod.mk.injEq] at h
    obtain ⟨⟨a, bs'⟩, ha, -, hrest⟩ := h
    rw [← hrest]
    exact c.read_shorter bs a bs' ha

/-- Exactly `n` values, one after another. -/
def readMany (c : Codec α) : ℕ → List Byte → Option (List α × List Byte)
  | 0, bs => some ([], bs)
  | n + 1, bs => do
    let (a, bs) ← c.read bs
    let (as, bs) ← readMany c n bs
    return (a :: as, bs)

theorem readMany_write (c : Codec α) (l : List α) (rest : List Byte)
    (hl : ∀ a ∈ l, c.Good a) :
    readMany c l.length ((l.map c.write).flatten ++ rest) = some (l, rest) := by
  induction l with
  | nil => rfl
  | cons a l ih =>
    have ha : c.Good a := hl a (List.mem_cons_self ..)
    have htail := ih fun b hb => hl b (List.mem_cons_of_mem a hb)
    simp only [List.length_cons, readMany, List.map_cons, List.flatten_cons, List.append_assoc]
    rw [c.read_write a _ ha]
    simp [htail]

theorem readMany_spec (c : Codec α) (n : ℕ) (bs : List Byte) (l : List α) (rest : List Byte)
    (h : readMany c n bs = some (l, rest)) :
    l.length = n ∧ (∀ a ∈ l, c.Good a) ∧ rest.length ≤ bs.length := by
  induction n generalizing bs l with
  | zero =>
    simp only [readMany, Option.some.injEq, Prod.mk.injEq] at h
    simp [← h.1, ← h.2]
  | succ n ih =>
    simp only [readMany, Option.bind_eq_bind, Option.bind_eq_some_iff] at h
    obtain ⟨⟨a, bs'⟩, ha, ⟨as, bs''⟩, has, heq⟩ := h
    simp only [Option.pure_def, Option.some.injEq, Prod.mk.injEq] at heq
    obtain ⟨rfl, rfl⟩ := heq
    obtain ⟨hlen, hgood, hshort⟩ := ih bs' as has
    refine ⟨by simp [hlen], ?_, le_trans hshort (c.read_shorter bs a bs' ha)⟩
    intro b hb
    rcases List.mem_cons.mp hb with rfl | hb
    · exact c.read_good bs b bs' ha
    · exact hgood b hb

/-- A list written after its count. -/
def counted (count : Codec ℕ) (c : Codec α) : Codec (List α) where
  size l := count.size l.length + (l.map c.size).sum
  write l := count.write l.length ++ (l.map c.write).flatten
  read bs := do
    let (n, bs) ← count.read bs
    readMany c n bs
  Good l := count.Good l.length ∧ ∀ a ∈ l, c.Good a
  write_length l := by
    rw [List.length_append, count.write_length, List.length_flatten, List.map_map]
    congr 2
    exact List.map_congr_left fun a _ => c.write_length a
  read_write l rest hl := by
    rw [List.append_assoc, count.read_write l.length _ hl.1]
    exact readMany_write c l rest hl.2
  read_good bs l rest h := by
    simp only [Option.bind_eq_bind, Option.bind_eq_some_iff] at h
    obtain ⟨⟨n, bs'⟩, hn, hmany⟩ := h
    obtain ⟨hlen, hgood, -⟩ := readMany_spec c n bs' l rest hmany
    rw [hlen]
    exact ⟨count.read_good bs n bs' hn, hgood⟩
  read_shorter bs l rest h := by
    simp only [Option.bind_eq_bind, Option.bind_eq_some_iff] at h
    obtain ⟨⟨n, bs'⟩, hn, hmany⟩ := h
    have hshort := (readMany_spec c n bs' l rest hmany).2.2
    exact le_trans hshort (count.read_shorter bs n bs' hn)

end Codec

end UmbrellaLtc
