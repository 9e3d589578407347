import UmbrellaLtc.EvalScript
import UmbrellaLtc.Guards

/-!
IsCanonicalSignature with its accesses to the vector and its error texts. An access outside the
vector is an error of its own, so that no access ever is outside when that error never occurs. What
is accepted is given by the grammar in the comment of the source.
-/

namespace UmbrellaLtc.CanonicalSignature

open Codec Guards EvalScript
open SignatureHash (SIGHASH_ALL SIGHASH_SINGLE SIGHASH_ANYONECANPAY)

inductive Failure where
  | outside
  | error (msg : String)
deriving DecidableEq

section Check

variable (vchSig : Valtype)

/-- `vchSig[i]`. -/
def access (i : ℕ) : Except Failure Byte :=
  match vchSig[i]? with
  | some b => .ok b
  | none => .error .outside

/-- The tests of R, and of S, from the pointer to its first byte on. -/
def checkValue (name : String) (start nLen : ℕ) : Except Failure Unit := do
  let fault := fun text => Failure.error ("Non-canonical signature: " ++ name ++ text)
  let _ ← access vchSig start
  let type ← access vchSig (start - 2)
  require (type = 0x02) (fault " value type mismatch")
  require (nLen ≠ 0) (fault " length is zero")
  let first ← access vchSig start
  require (first &&& 0x80 = 0) (fault " value negative")
  if 1 < nLen ∧ first = 0x00 then do
    let second ← access vchSig (start + 1)
    require (second &&& 0x80 ≠ 0) (fault " value excessively padded")
  else .ok ()

def isCanonicalSignature : Except Failure Unit := do
  require (9 ≤ vchSig.length) (.error "Non-canonical signature: too short")
  require (vchSig.length ≤ 73) (.error "Non-canonical signature: too long")
  let last ← access vchSig (vchSig.length - 1)
  let nHashType := last &&& ~~~SIGHASH_ANYONECANPAY.setWidth 8
  require (SIGHASH_ALL.toNat ≤ nHashType.toNat ∧ nHashType.toNat ≤ SIGHASH_SINGLE.toNat)
    (.error "Non-canonical signature: unknown hashtype byte")
  let type ← access vchSig 0
  require (type = 0x30) (.error "Non-canonical signature: wrong type")
  let marker ← access vchSig 1
  require (marker.toNat = vchSig.length - 3) (.error "Non-canonical signature: wrong length marker")
  let nLenR ← access vchSig 3
  require (5 + nLenR.toNat < vchSig.length) (.error "Non-canonical signature: S length misplaced")
  let nLenS ← access vchSig (5 + nLenR.toNat)
  require (nLenR.toNat + nLenS.toNat + 7 = vchSig.length)
    (.error "Non-canonical signature: R+S length mismatch")
  checkValue vchSig "R" 4 nLenR.toNat
  checkValue vchSig "S" (6 + nLenR.toNat) nLenS.toNat

end Check

/-- The bytes of a value that is not negative, none of which can be left out. -/
structure IsValue (v : Valtype) : Prop where
  nonempty : v ≠ []
  nonneg : ∀ b ∈ v.head?, b.toNat < 0x80
  unpadded : ∀ b rest, v = 0x00 :: b :: rest → 0x80 ≤ b.toNat

/-- `<30> <total len> <02> <len R> <R> <02> <len S> <S> <hashtype>`. -/
def signature (R S : Valtype) (hashtype : Byte) : Valtype :=
  [0x30, BitVec.ofNat 8 (4 + R.length + S.length), 0x02, BitVec.ofNat 8 R.length] ++ R ++
    [0x02, BitVec.ofNat 8 S.length] ++ S ++ [hashtype]

/-- A word of the grammar. -/
structure Canonical (vchSig : Valtype) (R S : Valtype) (hashtype : Byte) : Prop where
  form : vchSig = signature R S hashtype
  size : 9 ≤ vchSig.length ∧ vchSig.length ≤ 73
  valueR : IsValue R
  valueS : IsValue S
  hashtype : 1 ≤ hashtype.toNat % 0x80 ∧ hashtype.toNat % 0x80 ≤ 3

section Accesses

variable {vchSig : Valtype}

theorem access_ok_iff {i : ℕ} {b : Byte} : access vchSig i = .ok b ↔ vchSig[i]? = some b := by
  unfold access
  cases vchSig[i]? with
  | none => simp
  | some b' => simp

theorem never_access {i : ℕ} (h : i < vchSig.length) : Never (· = .outside) (access vchSig i) := by
  unfold access
  rw [List.getElem?_eq_getElem h]
  exact never_ok _

/-- The part of R or S in the vector. -/
def valueAt (vchSig : Valtype) (start nLen : ℕ) : Valtype := (vchSig.drop start).take nLen

theorem isValue_iff (first : Byte) (rest : Valtype) : IsValue (first :: rest) ↔
    first &&& 0x80 = 0 ∧ (first = 0x00 → ∀ second ∈ rest.head?, second &&& 0x80 ≠ 0) := by
  have hbit : ∀ b : Byte, b &&& 0x80 = 0 ↔ b.toNat < 0x80 := by decide
  constructor
  · intro h
    refine ⟨(hbit first).mpr (h.nonneg first rfl), fun hzero second hsecond => ?_⟩
    rw [ne_eq, hbit, not_lt]
    cases rest with
    | nil => cases hsecond
    | cons b rest =>
      obtain rfl := Option.some.inj hsecond
      rw [hzero] at h
      exact h.unpadded b rest rfl
  · intro ⟨hfirst, hsecond⟩
    refine ⟨List.cons_ne_nil first rest, fun b hb => ?_, fun b tail heq => ?_⟩
    · obtain rfl := Option.some.inj hb
      exact (hbit first).mp hfirst
    · obtain ⟨hzero, rfl⟩ := List.cons.inj heq
      have hhigh := hsecond hzero b rfl
      rw [ne_eq, hbit, not_lt] at hhigh
      exact hhigh

theorem valueAt_succ {start n : ℕ} {first : Byte} (h : vchSig[start]? = some first) :
    valueAt vchSig start (n + 1) = first :: valueAt vchSig (start + 1) n := by
  obtain ⟨hlt, rfl⟩ := List.getElem?_eq_some_iff.mp h
  unfold valueAt
  rw [List.drop_eq_getElem_cons hlt, List.take_succ_cons]

theorem head?_valueAt (start n : ℕ) :
    (valueAt vchSig start (n + 1)).head? = vchSig[start]? := by
  unfold valueAt
  rw [List.head?_take, if_neg (Nat.succ_ne_zero n), List.head?_drop]

/-- The test of the second byte, which a single zero byte has not. -/
theorem padding_ok_iff {start n : ℕ} {first : Byte} (e : Failure)
    (hfit : start + (n + 1) ≤ vchSig.length) :
    (if 1 < n + 1 ∧ first = 0x00 then do
      let second ← access vchSig (start + 1)
      require (second &&& 0x80 ≠ 0) e
    else .ok ()) = .ok () ↔
      (first = 0x00 → ∀ second ∈ (valueAt vchSig (start + 1) n).head?, second &&& 0x80 ≠ 0) := by
  cases n with
  | zero =>
    rw [if_neg fun h => absurd h.1 (lt_irrefl 1)]
    exact iff_of_true rfl fun _ second h => by cases h
  | succ n =>
    rw [head?_valueAt]
    by_cases hzero : first = 0x00
    · obtain ⟨second, hsecond⟩ : ∃ second, vchSig[start + 1]? = some second :=
        ⟨_, List.getElem?_eq_getElem (by omega)⟩
      have hread : access vchSig (start + 1) = .ok second := access_ok_iff.mpr hsecond
      rw [if_pos ⟨by omega, hzero⟩, hread, hsecond]
      show require (second &&& 0x80 ≠ 0) e = .ok () ↔ _
      simp [require, hzero]
    · rw [if_neg fun h => hzero h.2]
      exact iff_of_true rfl fun h => absurd h hzero

/-- What a value has passed that lies inside the vector. -/
theorem checkValue_ok_iff (name : String) {start nLen : ℕ} (hfit : start + nLen ≤ vchSig.length)
    (hstart : start < vchSig.length) : checkValue vchSig name start nLen = .ok () ↔
      vchSig[start - 2]? = some 0x02 ∧ IsValue (valueAt vchSig start nLen) := by
  obtain ⟨first, hfirst⟩ : ∃ first, vchSig[start]? = some first :=
    ⟨_, List.getElem?_eq_getElem hstart⟩
  unfold checkValue
  simp only [↓require_ok_iff, seq_ok_iff, access_ok_iff, hfirst, Option.some.injEq,
    exists_eq_left']
  cases nLen with
  | zero =>
    constructor
    · intro ⟨_, _, _, hlen, _⟩
      exact absurd rfl hlen
    · intro ⟨_, hvalue⟩
      exact absurd rfl hvalue.nonempty
  | succ n =>
    rw [valueAt_succ hfirst, isValue_iff, ← padding_ok_iff _ hfit]
    constructor
    · intro ⟨type, htype, heq, _, hneg, hpad⟩
      exact ⟨heq ▸ htype, hneg, hpad⟩
    · intro ⟨htype, hneg, hpad⟩
      exact ⟨0x02, htype, rfl, Nat.succ_ne_zero n, hneg, hpad⟩

/-- No access is outside while a value is tested that lies inside. -/
theorem never_checkValue (name : String) {start nLen : ℕ} (hfit : start + nLen ≤ vchSig.length)
    (hstart : start < vchSig.length) :
    Never (· = .outside) (checkValue vchSig name start nLen) := by
  unfold checkValue
  refine never_bind (never_access hstart) fun _ _ => ?_
  refine never_bind (never_access (by omega)) fun _ _ => ?_
  refine never_guard (by simp) fun _ => ?_
  refine never_guard (by simp) fun _ => ?_
  refine never_bind (never_access hstart) fun first _ => ?_
  refine never_guard (by simp) fun _ => ?_
  split_ifs with hpad
  · exact never_bind (never_access (by omega)) fun _ _ => never_require _ (by simp)
  · exact never_ok _

/-- The checks on a length come before it is used. -/
theorem never_isCanonicalSignature (vchSig : Valtype) :
    Never (· = .outside) (isCanonicalSignature vchSig) := by
  unfold isCanonicalSignature
  refine never_guard (by simp) fun hshort => ?_
  refine never_guard (by simp) fun _ => ?_
  refine never_bind (never_access (by omega)) fun _ _ => ?_
  refine never_guard (by simp) fun _ => ?_
  refine never_bind (never_access (by omega)) fun _ _ => ?_
  refine never_guard (by simp) fun _ => ?_
  refine never_bind (never_access (by omega)) fun _ _ => ?_
  refine never_guard (by simp) fun _ => ?_
  refine never_bind (never_access (by omega)) fun nLenR _ => ?_
  refine never_guard (by simp) fun hplace => ?_
  refine never_bind (never_access hplace) fun nLenS _ => ?_
  refine never_guard (by simp) fun hsum => ?_
  refine never_bind (never_checkValue "R" (by omega) (by omega)) fun _ _ => ?_
  exact never_checkValue "S" (by omega) (by omega)

end Accesses

section Grammar

variable {vchSig : Valtype}

theorem length_signature (R S : Valtype) (hashtype : Byte) :
    (signature R S hashtype).length = R.length + S.length + 7 := by
  simp only [signature, List.length_append, List.length_cons, List.length_nil]
  omega

theorem drop_signature (R S : Valtype) (hashtype : Byte) :
    (signature R S hashtype).drop (4 + R.length) =
      0x02 :: BitVec.ofNat 8 S.length :: (S ++ [hashtype]) := by
  unfold signature
  rw [List.append_assoc _ S, List.append_assoc _ _ (S ++ [hashtype])]
  refine List.drop_left' ?_
  simp only [List.length_append, List.length_cons, List.length_nil]

/-- The accesses to a word of the grammar. -/
theorem signature_accesses (R S : Valtype) (hashtype : Byte) :
    (signature R S hashtype)[0]? = some 0x30 ∧
    (signature R S hashtype)[1]? = some (BitVec.ofNat 8 (4 + R.length + S.length)) ∧
    (signature R S hashtype)[2]? = some 0x02 ∧
    (signature R S hashtype)[3]? = some (BitVec.ofNat 8 R.length) ∧
    (signature R S hashtype)[4 + R.length]? = some 0x02 ∧
    (signature R S hashtype)[5 + R.length]? = some (BitVec.ofNat 8 S.length) ∧
    (signature R S hashtype)[R.length + S.length + 6]? = some hashtype := by
  have hmid : ∀ k, (signature R S hashtype)[4 + R.length + k]? =
      (0x02 :: BitVec.ofNat 8 S.length :: (S ++ [hashtype]))[k]? := by
    intro k
    rw [← drop_signature, List.getElem?_drop]
  have hlast : R.length + S.length + 6 = 4 + R.length + (S.length + 2) := by omega
  have hfive : 5 + R.length = 4 + R.length + 1 := by omega
  refine ⟨rfl, rfl, rfl, rfl, hmid 0, ?_, ?_⟩
  · rw [hfive, hmid]
    rfl
  · rw [hlast, hmid]
    simp

theorem signature_values (R S : Valtype) (hashtype : Byte) :
    valueAt (signature R S hashtype) 4 R.length = R ∧
      valueAt (signature R S hashtype) (6 + R.length) S.length = S := by
  unfold valueAt
  constructor
  · unfold signature
    simp
  · have hsix : 6 + R.length = 4 + R.length + 2 := by omega
    rw [hsix, ← List.drop_drop, drop_signature]
    simp

theorem drop_of_access {i : ℕ} {b : Byte} (h : vchSig[i]? = some b) :
    vchSig.drop i = b :: vchSig.drop (i + 1) := by
  obtain ⟨hlt, rfl⟩ := List.getElem?_eq_some_iff.mp h
  exact List.drop_eq_getElem_cons hlt

theorem drop_eq_valueAt (start nLen : ℕ) :
    vchSig.drop start = valueAt vchSig start nLen ++ vchSig.drop (start + nLen) := by
  rw [valueAt, ← List.drop_drop, List.take_append_drop]

/-- Bytes that are in their places are a word of the grammar, but for the values themselves. -/
theorem eq_signature {marker last : Byte} {nR nS : ℕ} (hlen : nR + nS + 7 = vchSig.length)
    (hsize : vchSig.length ≤ 73) (htype : vchSig[0]? = some 0x30) (hmarker : vchSig[1]? = some marker)
    (hmarkerVal : marker.toNat = vchSig.length - 3) (hR : vchSig[2]? = some 0x02)
    (hnR : vchSig[3]? = some (BitVec.ofNat 8 nR)) (hS : vchSig[4 + nR]? = some 0x02)
    (hnS : vchSig[5 + nR]? = some (BitVec.ofNat 8 nS)) (hlast : vchSig[nR + nS + 6]? = some last) :
    vchSig = signature (valueAt vchSig 4 nR) (valueAt vchSig (6 + nR) nS) last := by
  have hlenR : (valueAt vchSig 4 nR).length = nR := by
    rw [valueAt, List.length_take, List.length_drop]
    omega
  have hlenS : (valueAt vchSig (6 + nR) nS).length = nS := by
    rw [valueAt, List.length_take, List.length_drop]
    omega
  have hbyte : marker = BitVec.ofNat 8 (4 + nR + nS) := by
    apply BitVec.eq_of_toNat_eq
    rw [BitVec.toNat_ofNat, hmarkerVal]
    omega
  have hend : vchSig.drop (6 + nR + nS) = [last] := by
    have hsum : 6 + nR + nS = nR + nS + 6 := by omega
    rw [hsum, drop_of_access hlast, List.drop_of_length_le (by omega)]
  have hhead : vchSig = 0x30 :: marker :: 0x02 :: BitVec.ofNat 8 nR :: vchSig.drop 4 := by
    rw [← drop_of_access hnR, ← drop_of_access hR, ← drop_of_access hmarker,
      ← drop_of_access htype, List.drop_zero]
  have hmid : vchSig.drop (4 + nR) = 0x02 :: BitVec.ofNat 8 nS :: vchSig.drop (6 + nR) := by
    have hfive : 4 + nR + 1 = 5 + nR := by omega
    have hsix : 5 + nR + 1 = 6 + nR := by omega
    rw [drop_of_access hS, hfive, drop_of_access hnS, hsix]
  unfold signature
  rw [hlenR, hlenS, ← hbyte]
  calc vchSig
      = 0x30 :: marker :: 0x02 :: BitVec.ofNat 8 nR :: vchSig.drop 4 := hhead
    _ = 0x30 :: marker :: 0x02 :: BitVec.ofNat 8 nR :: (valueAt vchSig 4 nR ++
          0x02 :: BitVec.ofNat 8 nS :: (valueAt vchSig (6 + nR) nS ++ [last])) := by
        rw [drop_eq_valueAt 4 nR, hmid, drop_eq_valueAt (6 + nR) nS, hend]
    _ = _ := by simp

/-- The bit that the check ignores. -/
theorem hashtype_iff (last : Byte) :
    (SIGHASH_ALL.toNat ≤ (last &&& ~~~SIGHASH_ANYONECANPAY.setWidth 8).toNat ∧
      (last &&& ~~~SIGHASH_ANYONECANPAY.setWidth 8).toNat ≤ SIGHASH_SINGLE.toNat) ↔
      1 ≤ last.toNat % 0x80 ∧ last.toNat % 0x80 ≤ 3 := by
  revert last
  decide

theorem canonical_of_ok (h : isCanonicalSignature vchSig = .ok ()) :
    ∃ R S hashtype, Canonical vchSig R S hashtype := by
  unfold isCanonicalSignature at h
  simp only [↓require_ok_iff, seq_ok_iff, access_ok_iff] at h
  obtain ⟨hshort, hlong, last, hlast, hhash, _, htype, rfl, marker, hmarker, hmarkerVal, nLenR, hnR,
    hplace, nLenS, hnS, hsum, _, hR, hS⟩ := h
  rw [checkValue_ok_iff "R" (by omega) (by omega)] at hR
  rw [checkValue_ok_iff "S" (by omega) (by omega)] at hS
  have hlastPos : vchSig.length - 1 = nLenR.toNat + nLenS.toNat + 6 := by omega
  have hback : 6 + nLenR.toNat - 2 = 4 + nLenR.toNat := by omega
  rw [hlastPos] at hlast
  rw [hback] at hS
  refine ⟨valueAt vchSig 4 nLenR.toNat, valueAt vchSig (6 + nLenR.toNat) nLenS.toNat, last,
    ?_, ⟨hshort, hlong⟩, hR.2, hS.2, (hashtype_iff last).mp hhash⟩
  refine eq_signature hsum hlong htype hmarker hmarkerVal hR.1 ?_ hS.1 ?_ hlast
  · rw [BitVec.ofNat_toNat, BitVec.setWidth_eq]
    exact hnR
  · rw [BitVec.ofNat_toNat, BitVec.setWidth_eq]
    exact hnS

theorem Canonical.ok {R S : Valtype} {hashtype : Byte} (h : Canonical vchSig R S hashtype) :
    isCanonicalSignature vchSig = .ok () := by
  obtain ⟨rfl, ⟨hshort, hlong⟩, hvalueR, hvalueS, hhash⟩ := h
  have hlen := length_signature R S hashtype
  obtain ⟨htype, hmarker, hR, hnR, hS, hnS, hlast⟩ := signature_accesses R S hashtype
  obtain ⟨hpartR, hpartS⟩ := signature_values R S hashtype
  have hposR := List.length_pos_iff.mpr hvalueR.nonempty
  have hposS := List.length_pos_iff.mpr hvalueS.nonempty
  generalize signature R S hashtype = vchSig at *
  have hbyteR : (BitVec.ofNat 8 R.length).toNat = R.length := by
    rw [BitVec.toNat_ofNat]
    omega
  have hbyteS : (BitVec.ofNat 8 S.length).toNat = S.length := by
    rw [BitVec.toNat_ofNat]
    omega
  have hlastPos : vchSig.length - 1 = R.length + S.length + 6 := by omega
  have hback : 6 + R.length - 2 = 4 + R.length := by omega
  unfold isCanonicalSignature
  simp only [↓require_ok_iff, seq_ok_iff, access_ok_iff]
  refine ⟨hshort, hlong, hashtype, hlastPos ▸ hlast, (hashtype_iff hashtype).mpr hhash, 0x30, htype,
    rfl, _, hmarker, ?_, _, hnR, ?_, BitVec.ofNat 8 S.length, ?_, ?_, (), ?_, ?_⟩
  · rw [BitVec.toNat_ofNat]
    omega
  · omega
  · rwa [hbyteR]
  · omega
  · rw [hbyteR, checkValue_ok_iff "R" (by omega) (by omega), hpartR]
    exact ⟨hR, hvalueR⟩
  · rw [hbyteR, hbyteS, checkValue_ok_iff "S" (by omega) (by omega), hpartS, hback]
    exact ⟨hS, hvalueS⟩

/-- For every vector no access is outside, and what is accepted are the words of the grammar. -/
theorem isCanonicalSignature_iff (vchSig : Valtype) :
    isCanonicalSignature vchSig ≠ .error .outside ∧
      (isCanonicalSignature vchSig = .ok () ↔ ∃ R S hashtype, Canonical vchSig R S hashtype) :=
  ⟨never_isCanonicalSignature vchSig .outside rfl, canonical_of_ok, fun ⟨_, _, _, h⟩ => h.ok⟩

end Grammar

/-! The check inside EvalScript, whose model has no accesses of its own, is the same. -/

section Plain

variable {vchSig : Valtype}

theorem access_getD {i : ℕ} (h : i < vchSig.length) : access vchSig i = .ok (vchSig.getD i 0) := by
  rw [access_ok_iff, List.getD_eq_getElem?_getD, List.getElem?_eq_getElem h, Option.getD_some]

theorem isCanonicalPart_iff (name : String) {start nLen : ℕ} (hfit : start + nLen ≤ vchSig.length)
    (hstart : start < vchSig.length) : isCanonicalPart vchSig start nLen = true ↔
      checkValue vchSig name start nLen = .ok () := by
  unfold checkValue isCanonicalPart
  rw [access_getD hstart, access_getD (show start - 2 < vchSig.length by omega)]
  by_cases hlong : 1 < nLen
  · rw [access_getD (show start + 1 < vchSig.length by omega)]
    simp [bind, Except.bind, require, hlong]
    grind
  · simp [bind, Except.bind, require, hlong]
    grind

theorem evalScript_isCanonicalSignature (vchSig : Valtype) :
    EvalScript.isCanonicalSignature vchSig = true ↔ isCanonicalSignature vchSig = .ok () := by
  unfold EvalScript.isCanonicalSignature isCanonicalSignature
  simp only [Bool.and_eq_true, decide_eq_true_eq, beq_iff_eq, ↓require_ok_iff, seq_ok_iff]
  have hflag : ~~~SIGHASH_ANYONECANPAY.setWidth 8 = ~~~(0x80 : Byte) := by decide
  rw [hflag]
  constructor
  · intro ⟨⟨⟨⟨⟨⟨⟨⟨⟨hshort, hlong⟩, hlow⟩, hhigh⟩, htype⟩, hmarker⟩, hplace⟩, hsum⟩, hR⟩, hS⟩
    exact ⟨hshort, hlong, _, access_getD (by omega), ⟨hlow, hhigh⟩, _, access_getD (by omega), htype,
      _, access_getD (by omega), hmarker, _, access_getD (by omega), hplace, _, access_getD hplace,
      hsum, (), (isCanonicalPart_iff "R" (by omega) (by omega)).mp hR,
      (isCanonicalPart_iff "S" (by omega) (by omega)).mp hS⟩
  · intro ⟨hshort, hlong, last, hlast, ⟨hlow, hhigh⟩, type, htype, htypeVal, marker, hmarker,
      hmarkerVal, nLenR, hnR, hplace, nLenS, hnS, hsum, _, hR, hS⟩
    rw [access_getD (by omega)] at hlast htype hmarker hnR
    obtain rfl := Except.ok.inj hlast
    obtain rfl := Except.ok.inj htype
    obtain rfl := Except.ok.inj hmarker
    obtain rfl := Except.ok.inj hnR
    rw [access_getD hplace] at hnS
    obtain rfl := Except.ok.inj hnS
    exact ⟨⟨⟨⟨⟨⟨⟨⟨⟨hshort, hlong⟩, hlow⟩, hhigh⟩, htypeVal⟩, hmarkerVal⟩, hplace⟩, hsum⟩,
      (isCanonicalPart_iff "R" (by omega) (by omega)).mpr hR⟩,
      (isCanonicalPart_iff "S" (by omega) (by omega)).mpr hS⟩

end Plain

end UmbrellaLtc.CanonicalSignature
