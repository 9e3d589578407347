import UmbrellaLtc.CompactOrder
import UmbrellaLtc.Kgw

/-!
The difficulty words that a block may carry. AcceptBlock compares the word with the one that was
computed from the parent as big numbers, so that all encodings of the computed number pass. How
many there are depends on the number: small ones drop low bytes of the mantissa, and a mantissa
that ends with a zero byte can be shifted.
-/

namespace UmbrellaLtc.DifficultyWord

open Compact CompactOrder Kgw

/-- compact_bignum_t has no `operator !=`; CBigNum's compares the decoded numbers. -/
def differs (nBits o : BitVec 32) : Bool := decide (setCompact nBits ≠ setCompact o)

/-- difficulty::is_valid. -/
def isValid (fTestNet : Bool) (nBits : BitVec 32) : Bool :=
  gt nBits 0 && le nBits (minDifficultyByDesign fTestNet)

/-- The words that pass AcceptBlock's test against the parent, whose chain is given, and the range
test of CheckProofOfWork. -/
def Accepted (fTestNet : Bool) (horizon : Horizon) (chain : Iterator) (nBits : BitVec 32) : Prop :=
  ∃ next, nextBlockDifficulty fTestNet horizon chain = .ok next ∧ differs nBits next = false ∧
    isValid fTestNet nBits = true

theorem isValid_iff (fTestNet : Bool) (nBits : BitVec 32) :
    isValid fTestNet nBits = true ↔ 0 < setCompact nBits ∧ setCompact nBits ≤ limit fTestNet := by
  obtain ⟨-, hgt, -, -⟩ := orderedAsNumbers nBits 0
  obtain ⟨-, -, hle, -⟩ := orderedAsNumbers nBits (minDifficultyByDesign fTestNet)
  rw [isValid, Bool.and_eq_true, hgt, hle, setCompact_zero, limit, gt_iff_lt]

/-- A word of a positive number is a mantissa and a byte count, without a sign. -/
theorem exists_word {a : BitVec 32} (h : 0 < setCompact a) :
    ∃ m s, m < 2 ^ 23 ∧ s < 2 ^ 8 ∧ a = word m s := by
  have hlt := a.isLt
  have hsign : ¬ a &&& 0x00800000 ≠ 0 := by
    intro hneg
    unfold setCompact at h
    rw [if_pos hneg] at h
    exact absurd h (not_lt.mpr (neg_nonpos.mpr (Int.natCast_nonneg _)))
  rw [signBit_iff] at hsign
  refine ⟨a.toNat % 2 ^ 23, a.toNat / 2 ^ 24, by omega, by omega, BitVec.eq_of_toNat_eq ?_⟩
  rw [word_toNat _ _ (by omega) (by omega)]
  omega

theorem word_inj {m s m' s' : ℕ} (hm : m < 2 ^ 23) (hm' : m' < 2 ^ 23) (hs : s < 2 ^ 8)
    (hs' : s' < 2 ^ 8) (h : word m s = word m' s') : m = m' ∧ s = s' := by
  have hnat := congrArg BitVec.toNat h
  rw [word_toNat _ _ (by omega) hs, word_toNat _ _ (by omega) hs'] at hnat
  omega

section Encodings

variable {t : ℕ}

/-- The parts of a number that has a word account for all of it. -/
theorem normal_exact {m s M S : ℕ} (hm : m < 2 ^ 23) (h : magnitude m s = t)
    (hnormal : Normal t M S) : M * 256 ^ S = t * 256 ^ 3 := by
  obtain ⟨m', hm', hexact⟩ : ∃ m' < 2 ^ 23, t * 256 ^ 3 = m' * 256 ^ s := by
    unfold magnitude at h
    by_cases hs : s ≤ 3
    · rw [if_pos hs] at h
      have hle : m / 256 ^ (3 - s) * 256 ^ (3 - s) ≤ m := Nat.div_mul_le_self _ _
      refine ⟨t * 256 ^ (3 - s), by rw [← h]; omega, ?_⟩
      rw [Nat.mul_assoc, ← pow_add, Nat.sub_add_cancel hs]
    · rw [if_neg hs] at h
      refine ⟨m, hm, ?_⟩
      rw [← h, Nat.mul_assoc, ← pow_add, Nat.sub_add_cancel (by omega)]
  have hle := hnormal.le
  have hlt := hnormal.lt
  rw [hexact] at hle hlt ⊢
  rcases Nat.lt_or_ge s S with hless | hge
  · -- a mantissa of sixteen bits that far up is more than the number
    exfalso
    have hchain : 2 ^ 23 * 256 ^ s < 2 ^ 23 * 256 ^ s := by
      calc 2 ^ 23 * 256 ^ s = 2 ^ 15 * 256 ^ (s + 1) := by ring
        _ ≤ M * 256 ^ S := Nat.mul_le_mul hnormal.low (Nat.pow_le_pow_right (by omega) hless)
        _ ≤ m' * 256 ^ s := hle
        _ < 2 ^ 23 * 256 ^ s := Nat.mul_lt_mul_of_pos_right hm' (by positivity)
    exact lt_irrefl _ hchain
  · obtain ⟨k, rfl⟩ := Nat.exists_eq_add_of_le hge
    have hsplit : m' * 256 ^ (S + k) = m' * 256 ^ k * 256 ^ S := by ring
    rw [hsplit] at hle hlt ⊢
    have hlow := Nat.le_of_mul_le_mul_right hle (by positivity)
    have hhigh := Nat.lt_of_mul_lt_mul_right hlt
    have heq : M = m' * 256 ^ k := by omega
    rw [heq]

/-- A number of sixteen bits or more, whose mantissa does not end with a zero byte, has no other
parts. -/
theorem parts_unique {m s M S : ℕ} (hm : m < 2 ^ 23) (h : magnitude m s = t)
    (hnormal : Normal t M S) (hlarge : 2 ^ 15 ≤ t) (hbyte : M % 256 ≠ 0) : m = M ∧ s = S := by
  have hexact := normal_exact hm h hnormal
  unfold magnitude at h
  by_cases hs : s ≤ 3
  · rw [if_pos hs] at h
    have hthree : s = 3 := by
      by_contra hne
      have hpow : 256 ^ 1 ≤ 256 ^ (3 - s) := Nat.pow_le_pow_right (by omega) (by omega)
      have hdiv : m / 256 ^ (3 - s) ≤ m / 256 ^ 1 := Nat.div_le_div_left hpow (by positivity)
      omega
    subst hthree
    rw [Nat.sub_self, pow_zero, Nat.div_one] at h
    subst h
    exact Normal.unique ⟨hlarge, hm, le_rfl, by omega⟩ hnormal
  · rw [if_neg hs] at h
    have hscaled : t * 256 ^ 3 = m * 256 ^ s := by
      rw [← h, Nat.mul_assoc, ← pow_add, Nat.sub_add_cancel (by omega)]
    by_cases hsixteen : 2 ^ 15 ≤ m
    · refine Normal.unique ⟨hsixteen, hm, hscaled.ge, ?_⟩ hnormal
      have hpos : 0 < 256 ^ s := by positivity
      rw [hscaled, Nat.add_mul]
      omega
    · -- a shorter mantissa is further up, and the normal one ends with zero bytes
      exfalso
      rw [hscaled] at hexact
      have hless : S < s := by
        by_contra hge
        have hchain : 2 ^ 15 * 256 ^ S < 2 ^ 15 * 256 ^ S := by
          calc 2 ^ 15 * 256 ^ S ≤ M * 256 ^ S := Nat.mul_le_mul_right _ hnormal.low
            _ = m * 256 ^ s := hexact
            _ ≤ m * 256 ^ S :=
                Nat.mul_le_mul_left _ (Nat.pow_le_pow_right (by omega) (by omega))
            _ < 2 ^ 15 * 256 ^ S := Nat.mul_lt_mul_of_pos_right (by omega) (by positivity)
        exact lt_irrefl _ hchain
      obtain ⟨k, rfl⟩ := Nat.exists_eq_add_of_lt hless
      have hsplit : m * 256 ^ (S + k + 1) = m * 256 ^ k * 256 * 256 ^ S := by ring
      rw [hsplit] at hexact
      have heq := Nat.eq_of_mul_eq_mul_right (by positivity) hexact
      rw [heq] at hbyte
      omega

/-- A number with a word has parts. -/
theorem exists_parts {a : BitVec 32} (ha : setCompact a = t) (hpos : 0 < t) :
    ∃ m s, m < 2 ^ 23 ∧ s < 2 ^ 8 ∧ a = word m s ∧ magnitude m s = t := by
  obtain ⟨m, s, hm, hs, rfl⟩ := exists_word (by omega : 0 < setCompact a)
  rw [setCompact_word m s hm hs] at ha
  exact ⟨m, s, hm, hs, rfl, by exact_mod_cast ha⟩

/-- The low byte of the mantissa is dropped. -/
theorem two_words_of_small (hsmall : t < 2 ^ 15) :
    ∃ a b : BitVec 32, setCompact a = t ∧ setCompact b = t ∧ a ≠ b := by
  refine ⟨word (t * 256) 2, word (t * 256 + 1) 2, ?_, ?_, fun heq => ?_⟩
  · rw [setCompact_word _ _ (by omega) (by omega), magnitude, if_pos (by omega)]
    norm_num
  · rw [setCompact_word _ _ (by omega) (by omega), magnitude, if_pos (by omega)]
    norm_num
    omega
  · obtain ⟨hm, -⟩ := word_inj (by omega) (by omega) (by omega) (by omega) heq
    omega

/-- The mantissa is shifted by a byte. -/
theorem two_words_of_shift (hexact : mantissa t * 256 ^ byteCount t = t * 256 ^ 3)
    (hhigh : mantissa t < 2 ^ 23) (hcount : byteCount t + 1 < 2 ^ 8)
    (hbyte : mantissa t % 256 = 0) :
    ∃ a b : BitVec 32, setCompact a = t ∧ setCompact b = t ∧ a ≠ b := by
  refine ⟨word (mantissa t) (byteCount t), word (mantissa t / 256) (byteCount t + 1), ?_, ?_,
    fun heq => ?_⟩
  · rw [setCompact_word _ _ hhigh (by omega), magnitude_eq, hexact]
    norm_num
  · have hshift : mantissa t / 256 * 256 ^ (byteCount t + 1) = t * 256 ^ 3 := by
      rw [← hexact, pow_succ, Nat.mul_comm (256 ^ byteCount t), ← Nat.mul_assoc,
        Nat.div_mul_cancel (Nat.dvd_of_mod_eq_zero hbyte)]
    rw [setCompact_word _ _ (by omega) hcount, magnitude_eq, hshift]
    norm_num
  · obtain ⟨-, hs⟩ := word_inj hhigh (by omega) (by omega) hcount heq
    omega

/-- How the words of one number are counted. -/
theorem words_unique_iff (next : BitVec 32) (hnext : setCompact next = t) (hpos : 0 < t)
    (ht : t < 2 ^ 256) :
    (∀ a b : BitVec 32, setCompact a = t → setCompact b = t → a = b) ↔
      2 ^ 15 ≤ t ∧ (getCompact t).toNat % 256 ≠ 0 := by
  have hnormal := normal_mantissa t hpos
  have hlowbyte : (getCompact t).toNat % 256 = mantissa t % 256 := by
    rw [getCompact_toNat hpos ht]
    omega
  have hcount : byteCount t + 1 < 2 ^ 8 := by
    have hbytes := numBytes_lt t 32 (by calc t < 2 ^ 256 := ht
      _ = 256 ^ 32 := by norm_num)
    unfold byteCount
    split_ifs
    · omega
    · omega
  rw [hlowbyte]
  constructor
  · intro huniq
    constructor
    · by_contra hsmall
      obtain ⟨a, b, ha, hb, hne⟩ := two_words_of_small (Nat.lt_of_not_le hsmall)
      exact hne (huniq a b ha hb)
    · intro hbyte
      obtain ⟨m, s, hm, -, -, hmag⟩ := exists_parts hnext hpos
      obtain ⟨a, b, ha, hb, hne⟩ :=
        two_words_of_shift (normal_exact hm hmag hnormal) hnormal.high hcount hbyte
      exact hne (huniq a b ha hb)
  · rintro ⟨hlarge, hbyte⟩ a b ha hb
    obtain ⟨m, s, hm, -, rfl, hmag⟩ := exists_parts ha hpos
    obtain ⟨m', s', hm', -, rfl, hmag'⟩ := exists_parts hb hpos
    obtain ⟨rfl, rfl⟩ := parts_unique hm hmag hnormal hlarge hbyte
    obtain ⟨rfl, rfl⟩ := parts_unique hm' hmag' hnormal hlarge hbyte
    rfl

end Encodings

/-- The words that are accepted after a parent all stand for the number computed from it. There is
one word at most exactly if the number is out of range, or is of sixteen bits or more and is not
written with a zero as the low byte. -/
theorem accepted_words (fTestNet : Bool) (horizon : Horizon) (chain : Iterator) (next : BitVec 32)
    (h : nextBlockDifficulty fTestNet horizon chain = .ok next) :
    (∀ nBits, Accepted fTestNet horizon chain nBits → setCompact nBits = setCompact next) ∧
      ((∀ a b, Accepted fTestNet horizon chain a → Accepted fTestNet horizon chain b → a = b) ↔
        (0 < setCompact next → setCompact next ≤ limit fTestNet →
          2 ^ 15 ≤ setCompact next ∧ (getCompact (setCompact next)).toNat % 256 ≠ 0)) := by
  have haccepted : ∀ nBits, Accepted fTestNet horizon chain nBits ↔
      setCompact nBits = setCompact next ∧ 0 < setCompact next ∧
        setCompact next ≤ limit fTestNet := by
    intro nBits
    constructor
    · rintro ⟨next', hnext, hsame, hvalid⟩
      obtain rfl := Except.ok.inj (h.symm.trans hnext)
      rw [differs, decide_eq_false_iff_not, not_not] at hsame
      rw [isValid_iff, hsame] at hvalid
      exact ⟨hsame, hvalid⟩
    · rintro ⟨hsame, hvalid⟩
      refine ⟨next, h, ?_, ?_⟩
      · rw [differs, decide_eq_false_iff_not, not_not]
        exact hsame
      · rw [isValid_iff, hsame]
        exact hvalid
  refine ⟨fun nBits hn => ((haccepted nBits).mp hn).1, ?_⟩
  have hlimit := (limit_bounds fTestNet).2
  by_cases hrange : 0 < setCompact next ∧ setCompact next ≤ limit fTestNet
  · obtain ⟨hpos, hle⟩ := hrange
    obtain ⟨t, ht⟩ := Int.eq_ofNat_of_zero_le hpos.le
    have hbound : t < 2 ^ 256 := by
      have hlt : (t : ℤ) < 256 ^ 31 := by omega
      have hnat : t < 256 ^ 31 := by exact_mod_cast hlt
      exact hnat.trans (by norm_num)
    have hunique := words_unique_iff next ht (by omega) hbound
    simp only [haccepted, ht] at hunique ⊢
    rw [ht] at hpos hle
    have hlarge : (2 : ℤ) ^ 15 ≤ t ↔ 2 ^ 15 ≤ t := by norm_cast
    rw [hlarge]
    constructor
    · intro huniq _ _
      exact hunique.mp fun a b ha hb => huniq a b ⟨ha, hpos, hle⟩ ⟨hb, hpos, hle⟩
    · intro hword a b ha hb
      exact hunique.mpr (hword hpos hle) a b ha.1 hb.1
  · constructor
    · intro _ hpos hle
      exact absurd ⟨hpos, hle⟩ hrange
    · intro _ a _ ha _
      exact absurd ((haccepted a).mp ha).2 hrange

/-- Two blocks: the least difficulty is asked for, and only in its own word. -/
theorem accepted_words_two :
    Accepted false (fun _ _ _ => false) (spacedChain 0x1e07ffff 270 1) 0x1e07ffff ∧
      ∀ a b, Accepted false (fun _ _ _ => false) (spacedChain 0x1e07ffff 270 1) a →
        Accepted false (fun _ _ _ => false) (spacedChain 0x1e07ffff 270 1) b → a = b := by
  have hnext : nextBlockDifficulty false (fun _ _ _ => false) (spacedChain 0x1e07ffff 270 1) =
      .ok 0x1e07ffff := by decide
  refine ⟨⟨_, hnext, by decide, by decide⟩, ?_⟩
  exact (accepted_words false (fun _ _ _ => false) (spacedChain 0x1e07ffff 270 1) 0x1e07ffff
    hnext).2.mpr fun _ _ => by decide

/-- After fourteen blocks of the least difficulty, 298 seconds apart, two words are accepted. -/
theorem two_words :
    ¬ ∀ (fTestNet : Bool) (horizon : Horizon) (chain : Iterator) (a b : BitVec 32),
      Accepted fTestNet horizon chain a → Accepted fTestNet horizon chain b → a = b := by
  intro hall
  have hnext : nextBlockDifficulty false (fun _ _ _ => false) (spacedChain 0x1e07ffff 298 13) =
      .ok 0x1e079d00 := by decide
  have hfirst : Accepted false (fun _ _ _ => false) (spacedChain 0x1e07ffff 298 13) 0x1e079d00 :=
    ⟨_, hnext, by decide, by decide⟩
  have hsecond : Accepted false (fun _ _ _ => false) (spacedChain 0x1e07ffff 298 13) 0x1f00079d :=
    ⟨_, hnext, by decide, by decide⟩
  exact absurd (hall _ _ _ _ _ hfirst hsecond) (by decide)

end UmbrellaLtc.DifficultyWord
