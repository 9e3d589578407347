import UmbrellaLtc.MergedMineProxy
import UmbrellaLtc.Positional

/-!
Base58 of base58.cpp. A big number is an integer, with the byte vectors of CBigNum, and psz is the
characters in front of the zero that ends it. Both directions keep the number of leading zeros and
the value, in base 58 and in base 256, so that the round trips are those of digits.
-/

namespace UmbrellaLtc.Base58

open Codec Transaction EvalScript Positional
open MergedMineProxy (isspace)

section Functions

def pszBase58 : List Char := "123456789ABCDEFGHJKLMNPQRSTUVWXYZabcdefghijkmnopqrstuvwxyz".toList

/-- `pszBase58[c]`. -/
def digit (c : ℕ) : Char := pszBase58.getD c '1'

/-- The loop of EncodeBase58 over the big number, which is fuel enough for it. -/
def encodeLoop : ℕ → ℤ → List Char
  | 0, _ => []
  | fuel + 1, bn => if bn > 0 then digit (bn % 58).toNat :: encodeLoop fuel (bn / 58) else []

def encodeBase58 (vch : List Byte) : List Char :=
  let bn := setvch (vch.reverse ++ [0])
  let str := encodeLoop bn.toNat bn
  let str := str ++ (vch.takeWhile fun p => p = 0).map fun _ => digit 0
  str.reverse

/-- The loop of DecodeBase58 over the characters, up to the whitespace at the end. -/
def decodeLoop (bn : ℤ) : List Char → Option ℤ
  | [] => some bn
  | p :: rest =>
      match pszBase58.idxOf? p with
      | none => if (p :: rest).dropWhile isspace = [] then some bn else none
      | some p1 => decodeLoop (bn * 58 + p1) rest

/-- Trims the sign byte. -/
def trimSign (vchTmp : List Byte) : List Byte :=
  match vchTmp.reverse with
  | sign :: high :: rest => if sign = 0 ∧ 0x80 ≤ high then (high :: rest).reverse else vchTmp
  | _ => vchTmp

/-- DecodeBase58 of a C string. -/
def decodeBase58 (psz : List Char) : Option (List Byte) := do
  let psz := psz.dropWhile isspace
  let bn ← decodeLoop 0 psz
  let vchTmp := trimSign (getvch bn)
  let nLeadingZeros := (psz.takeWhile fun p => p = digit 0).length
  return List.replicate nLeadingZeros 0 ++ vchTmp.reverse

def nul : Char := Char.ofNat 0

/-- `str.c_str()`. -/
def c_str (str : List Char) : List Char := str.takeWhile fun c => c ≠ nul

/-- DecodeBase58 of a std::string. -/
def decodeBase58Str (str : List Char) : Option (List Byte) := decodeBase58 (c_str str)

variable (Hash : List Byte → Uint256)

def encodeBase58Check (vchIn : List Byte) : List Char :=
  encodeBase58 (vchIn ++ (uint256Bytes (Hash vchIn)).take 4)

def decodeBase58Check (psz : List Char) : Option (List Byte) := do
  let vchRet ← decodeBase58 psz
  if vchRet.length < 4 then none
  else
    let vch := vchRet.take (vchRet.length - 4)
    if (uint256Bytes (Hash vch)).take 4 ≠ vchRet.drop (vchRet.length - 4) then none
    else return vch

def decodeBase58CheckStr (str : List Char) : Option (List Byte) :=
  decodeBase58Check Hash (c_str str)

end Functions

section Digits

theorem pszBase58_eq : pszBase58 =
    ['1', '2', '3', '4', '5', '6', '7', '8', '9', 'A', 'B', 'C', 'D', 'E', 'F', 'G', 'H', 'J', 'K',
      'L', 'M', 'N', 'P', 'Q', 'R', 'S', 'T', 'U', 'V', 'W', 'X', 'Y', 'Z', 'a', 'b', 'c', 'd', 'e',
      'f', 'g', 'h', 'i', 'j', 'k', 'm', 'n', 'o', 'p', 'q', 'r', 's', 't', 'u', 'v', 'w', 'x', 'y',
      'z'] :=
  String.toList_ofList

theorem length_pszBase58 : pszBase58.length = 58 := by
  rw [pszBase58_eq]
  rfl

theorem idxOf?_digit {d : ℕ} (h : d < 58) : pszBase58.idxOf? (digit d) = some d := by
  have hall : (List.range 58).all (fun d => pszBase58.idxOf? (digit d) == some d) = true := by
    unfold digit
    rw [pszBase58_eq]
    rfl
  exact beq_iff_eq.mp (List.all_eq_true.mp hall d (List.mem_range.mpr h))

theorem digit_ne {d : ℕ} (h : d < 58) : isspace (digit d) = false ∧ digit d ≠ nul := by
  have hall : pszBase58.all (fun c => !isspace c && c != nul) = true := by
    rw [pszBase58_eq]
    rfl
  have hlt : d < pszBase58.length := by rwa [length_pszBase58]
  rw [digit, List.getD_eq_getElem _ _ hlt]
  have hdigit := List.all_eq_true.mp hall _ (List.getElem_mem hlt)
  rw [Bool.and_eq_true, Bool.not_eq_true', bne_iff_ne] at hdigit
  exact hdigit

theorem exists_digit {c : Char} {d : ℕ} (h : pszBase58.idxOf? c = some d) :
    d < 58 ∧ digit d = c := by
  obtain ⟨hlt, hc, -⟩ := List.idxOf?_eq_some_iff.mp h
  rw [digit, List.getD_eq_getElem _ _ hlt]
  exact ⟨by rwa [length_pszBase58] at hlt, hc⟩

theorem digit_eq_zero {d : ℕ} (h : d < 58) : digit d = digit 0 ↔ d = 0 := by
  constructor
  · intro heq
    have hd := idxOf?_digit h
    rw [heq, idxOf?_digit (by decide : 0 < 58)] at hd
    exact (Option.some.inj hd).symm
  · intro hd
    rw [hd]

end Digits

section Numbers

/-- The bytes of a vector as digits. -/
def places (vch : List Byte) : List ℕ := vch.map BitVec.toNat

theorem lt_of_mem_places {vch : List Byte} : ∀ d ∈ places vch, d < 256 := by
  intro d hd
  obtain ⟨p, -, rfl⟩ := List.mem_map.mp hd
  exact p.isLt

theorem places_ofNat {l : List ℕ} (h : ∀ d ∈ l, d < 256) :
    places (l.map (BitVec.ofNat 8)) = l := by
  rw [places, List.map_map]
  refine List.map_congr_left (fun d hd => ?_) |>.trans (List.map_id l)
  exact Nat.mod_eq_of_lt (h d hd)

theorem ofNat_places (vch : List Byte) : (places vch).map (BitVec.ofNat 8) = vch := by
  rw [places, List.map_map]
  refine List.map_congr_left (fun p _ => ?_) |>.trans (List.map_id vch)
  simp

theorem ofLeBytes_eq (vch : List Byte) : ofLeBytes vch = Nat.ofDigits 256 (places vch) := by
  induction vch with
  | nil => rfl
  | cons p vch ih =>
    rw [ofLeBytes, ih]
    simp [places, Nat.ofDigits_cons]

/-- The zero that comes behind makes the number positive. -/
theorem setvch_reverse (vch : List Byte) :
    setvch (vch.reverse ++ [0]) = (value 256 (places vch) : ℤ) := by
  have hrev : (vch.reverse ++ [(0 : Byte)]).reverse = 0 :: vch := by
    rw [List.reverse_concat, List.reverse_reverse]
  have hplaces : places (vch.reverse ++ [0]) = (places vch).reverse ++ List.replicate 1 0 := by
    simp [places]
  unfold setvch
  rw [hrev]
  dsimp only
  rw [if_pos (by decide), ofLeBytes_eq, hplaces, Nat.ofDigits_append_replicate_zero, value]

theorem magnitude_eq (fuel n : ℕ) (h : n ≤ fuel) :
    magnitude fuel n = ((256).digits n).map (BitVec.ofNat 8) := by
  induction fuel generalizing n with
  | zero =>
    obtain rfl := Nat.le_zero.mp h
    rfl
  | succ fuel ih =>
    unfold magnitude
    split_ifs with hn
    · rw [hn]
      rfl
    · rw [ih (n / 256) (by omega), Nat.digits_def' (by decide) (Nat.pos_of_ne_zero hn),
        List.map_cons]
      congr 1
      apply BitVec.eq_of_toNat_eq
      simp

theorem encodeLoop_eq (fuel n : ℕ) (h : n ≤ fuel) :
    encodeLoop fuel n = ((58).digits n).map digit := by
  induction fuel generalizing n with
  | zero =>
    obtain rfl := Nat.le_zero.mp h
    rfl
  | succ fuel ih =>
    unfold encodeLoop
    split_ifs with hn
    · have hpos : 0 < n := by omega
      have hrest := ih (n / 58) (by omega)
      rw [Nat.digits_def' (by decide) hpos, List.map_cons]
      congr 1
    · obtain rfl : n = 0 := by omega
      rfl

/-- The highest byte of a number is not zero. -/
theorem head_bytes_ne_zero {n : ℕ} {high : Byte} {rest : List Byte}
    (h : (((256).digits n).map (BitVec.ofNat 8)).reverse = high :: rest) : high ≠ 0 := by
  rw [← List.map_reverse] at h
  obtain ⟨d, l, hdigits, rfl, -⟩ := List.map_eq_cons_iff.mp h
  have hmem : d ∈ (256).digits n := List.mem_reverse.mp (hdigits ▸ List.mem_cons_self)
  have hlt : d < 256 := Nat.digits_lt_base (by decide) hmem
  have hne : d ≠ 0 := head_digits_ne_zero 256 n d (by rw [hdigits]; rfl)
  intro hzero
  have hnat := congrArg BitVec.toNat hzero
  rw [BitVec.toNat_ofNat, Nat.mod_eq_of_lt hlt] at hnat
  exact hne hnat

/-- The sign byte goes, and no other byte. -/
theorem trimSign_getvch (n : ℕ) :
    trimSign (getvch n) = ((256).digits n).map (BitVec.ofNat 8) := by
  have hmag := magnitude_eq n n le_rfl
  have hneg : ¬(n : ℤ) < 0 := by omega
  have hhigh : ∀ b : Byte, b &&& 0x80 ≠ 0 → 0x80 ≤ b := by decide
  unfold getvch
  rw [Int.natAbs_natCast, hmag, if_neg hneg]
  cases hrev : (((256).digits n).map (BitVec.ofNat 8)).reverse with
  | nil =>
    rw [List.reverse_eq_nil_iff.mp hrev]
    rfl
  | cons high rest =>
    have hne := head_bytes_ne_zero hrev
    have hbytes := List.reverse_eq_iff.mp hrev
    dsimp only
    split_ifs with hbit
    · have hor : high ||| 0 = high := BitVec.or_zero
      rw [hor, ← hbytes]
      unfold trimSign
      rw [hrev]
      cases rest with
      | nil => rfl
      | cons second rest => exact if_neg fun h => hne h.1
    · rw [hbytes]
      unfold trimSign
      rw [List.reverse_reverse]
      exact if_pos ⟨rfl, hhigh high hbit⟩

end Numbers

section RoundTrips

/-- The zeros and the value of the bytes, in base 58. -/
theorem encodeBase58_eq (vch : List Byte) : encodeBase58 vch =
    (expand 58 (leading (places vch)) (value 256 (places vch))).map digit := by
  have hzeros : (vch.takeWhile fun p => p = 0).length = leading (places vch) := by
    rw [leading, places, List.takeWhile_map, List.length_map]
    congr 2
    funext p
    simp [← BitVec.toNat_inj]
  unfold encodeBase58
  dsimp only
  rw [setvch_reverse, Int.toNat_natCast, encodeLoop_eq _ _ le_rfl, List.map_const', hzeros]
  simp [expand]

theorem dropWhile_digits {ds : List ℕ} (h : ∀ d ∈ ds, d < 58) :
    (ds.map digit).dropWhile isspace = ds.map digit := by
  cases ds with
  | nil => rfl
  | cons d ds =>
    rw [List.map_cons, List.dropWhile_cons_of_neg]
    simp [(digit_ne (h d List.mem_cons_self)).1]

theorem decodeLoop_digits (front : List ℕ) {ds : List ℕ} (h : ∀ d ∈ ds, d < 58) :
    decodeLoop (value 58 front) (ds.map digit) = some ((value 58 (front ++ ds) : ℕ) : ℤ) := by
  induction ds generalizing front with
  | nil => rw [List.append_nil, List.map_nil, decodeLoop]
  | cons d ds ih =>
    obtain ⟨hd, hds⟩ := List.forall_mem_cons.mp h
    have hrest := ih (front ++ [d]) hds
    rw [List.append_assoc, List.singleton_append, value_concat] at hrest
    rw [List.map_cons, decodeLoop, idxOf?_digit hd]
    push_cast at hrest
    exact hrest

/-- The zeros and the value of the digits, in base 256. -/
theorem decodeBase58_digits {ds : List ℕ} (h : ∀ d ∈ ds, d < 58) :
    decodeBase58 (ds.map digit) =
      some ((expand 256 (leading ds) (value 58 ds)).map (BitVec.ofNat 8)) := by
  have hzeros : ((ds.map digit).takeWhile fun p => p = digit 0).length = leading ds := by
    induction ds with
    | nil => rfl
    | cons d ds ih =>
      obtain ⟨hd, hds⟩ := List.forall_mem_cons.mp h
      by_cases hzero : d = 0
      · simpa [leading, hzero] using ih hds
      · simp [leading, hzero, (digit_eq_zero hd).not.mpr hzero]
  have hloop : decodeLoop 0 (ds.map digit) = some ((value 58 ds : ℕ) : ℤ) := decodeLoop_digits [] h
  unfold decodeBase58
  simp only [dropWhile_digits h, hloop, hzeros, trimSign_getvch, Option.bind_eq_bind,
    Option.bind_some, Option.pure_def]
  simp [expand]

theorem nul_not_mem_digits {ds : List ℕ} (h : ∀ d ∈ ds, d < 58) : nul ∉ ds.map digit := by
  intro hmem
  obtain ⟨d, hd, hnul⟩ := List.mem_map.mp hmem
  exact (digit_ne (h d hd)).2 hnul

theorem c_str_of_not_mem {str : List Char} (h : nul ∉ str) : c_str str = str := by
  unfold c_str
  rw [List.takeWhile_eq_self_iff]
  intro c hc
  have hne : c ≠ nul := fun hnul => h (hnul ▸ hc)
  simpa using hne

/-- A string that is read consists of digits and of whitespace behind them. -/
theorem exists_digits {bn r : ℤ} {psz : List Char} (h : decodeLoop bn psz = some r) :
    ∃ (ds : List ℕ) (rest : List Char), psz = ds.map digit ++ rest ∧ (∀ d ∈ ds, d < 58) ∧
      rest.dropWhile isspace = [] := by
  induction psz generalizing bn with
  | nil => exact ⟨[], [], rfl, fun d hd => absurd hd List.not_mem_nil, rfl⟩
  | cons p psz ih =>
    unfold decodeLoop at h
    cases hp : pszBase58.idxOf? p with
    | none =>
      simp only [hp] at h
      split_ifs at h with hspace
      exact ⟨[], p :: psz, rfl, fun d hd => absurd hd List.not_mem_nil, hspace⟩
    | some d =>
      simp only [hp] at h
      obtain ⟨hd, rfl⟩ := exists_digit hp
      obtain ⟨ds, rest, rfl, hds, hrest⟩ := ih h
      exact ⟨d :: ds, rest, rfl, List.forall_mem_cons.mpr ⟨hd, hds⟩, hrest⟩

theorem decodeBase58Str_encodeBase58 (vch : List Byte) :
    decodeBase58Str (encodeBase58 vch) = some vch := by
  have hlt : ∀ d ∈ expand 58 (leading (places vch)) (value 256 (places vch)), d < 58 :=
    fun d hd => lt_of_mem_expand (by decide) hd
  rw [encodeBase58_eq, decodeBase58Str, c_str_of_not_mem (nul_not_mem_digits hlt),
    decodeBase58_digits hlt, expand_expand (by decide) lt_of_mem_places, ofNat_places]

theorem encodeBase58_bytes {ds : List ℕ} (h : ∀ d ∈ ds, d < 58) :
    encodeBase58 ((expand 256 (leading ds) (value 58 ds)).map (BitVec.ofNat 8)) =
      ds.map digit := by
  have hlt : ∀ d ∈ expand 256 (leading ds) (value 58 ds), d < 256 :=
    fun d hd => lt_of_mem_expand (by decide) hd
  rw [encodeBase58_eq, places_ofNat hlt, expand_expand (by decide) h]

/-- There is no whitespace at either end. -/
def Unspaced (str : List Char) : Prop :=
  (∀ c ∈ str.head?, isspace c = false) ∧ ∀ c ∈ str.getLast?, isspace c = false

theorem Unspaced.exists_digits {str : List Char} {bn r : ℤ} (h : Unspaced str)
    (hread : decodeLoop bn (str.dropWhile isspace) = some r) :
    ∃ ds : List ℕ, str = ds.map digit ∧ ∀ d ∈ ds, d < 58 := by
  have hfront : str.dropWhile isspace = str := by
    cases str with
    | nil => rfl
    | cons c str => exact List.dropWhile_cons_of_neg (by simp [h.1 c rfl])
  rw [hfront] at hread
  obtain ⟨ds, rest, hstr, hds, hrest⟩ := Base58.exists_digits hread
  refine ⟨ds, ?_, hds⟩
  cases hlast : rest.getLast? with
  | none => rw [hstr, List.getLast?_eq_none_iff.mp hlast, List.append_nil]
  | some c =>
    -- the last character of the whitespace is the last one of the string
    have hspace := List.dropWhile_eq_nil_iff.mp hrest c (List.mem_of_getLast? hlast)
    have hnot := h.2 c (by rw [hstr, List.getLast?_append, hlast]; rfl)
    rw [hspace] at hnot
    cases hnot

/-- What has been read from a string without whitespace around it is written as this string again,
but for what stands behind a zero. -/
theorem encodeBase58_eq_iff {str : List Char} {vch : List Byte}
    (h : decodeBase58Str str = some vch) (hspace : Unspaced str) :
    encodeBase58 vch = str ↔ nul ∉ str := by
  constructor
  · rintro rfl
    rw [encodeBase58_eq]
    exact nul_not_mem_digits fun d hd => lt_of_mem_expand (by decide) hd
  · intro hnul
    rw [decodeBase58Str, c_str_of_not_mem hnul] at h
    obtain ⟨bn, hloop, -⟩ := Option.bind_eq_some_iff.mp h
    obtain ⟨ds, rfl, hds⟩ := hspace.exists_digits hloop
    rw [decodeBase58_digits hds] at h
    rw [← Option.some.inj h]
    exact encodeBase58_bytes hds

theorem decodeBase58CheckStr_encodeBase58Check (Hash : List Byte → Uint256) (vchIn : List Byte) :
    decodeBase58CheckStr Hash (encodeBase58Check Hash vchIn) = some vchIn := by
  have hlen : ((uint256Bytes (Hash vchIn)).take 4).length = 4 := by
    rw [List.length_take, uint256Bytes_length]
    rfl
  have hread := decodeBase58Str_encodeBase58 (vchIn ++ (uint256Bytes (Hash vchIn)).take 4)
  unfold decodeBase58Str at hread
  unfold decodeBase58CheckStr decodeBase58Check encodeBase58Check
  rw [hread]
  simp [hlen]

/-- Encoding and decoding are inverse to each other, but that a string is read up to its first zero
character. -/
theorem base58_bijection :
    (∀ vch, decodeBase58Str (encodeBase58 vch) = some vch) ∧
      (∀ str vch, decodeBase58Str str = some vch → Unspaced str →
        (encodeBase58 vch = str ↔ nul ∉ str)) ∧
      ∀ Hash vchIn, decodeBase58CheckStr Hash (encodeBase58Check Hash vchIn) = some vchIn :=
  ⟨decodeBase58Str_encodeBase58, fun _ _ h hspace => encodeBase58_eq_iff h hspace,
    decodeBase58CheckStr_encodeBase58Check⟩

theorem base58_bijection_2g : encodeBase58 [0x61] = ['2', 'g'] :=
  (base58_bijection.2.1 ['2', 'g'] [0x61] (by decide)
    ⟨by simp [isspace], by simp [isspace]⟩).mpr (by decide)

/-- What stands behind the zero is lost. -/
theorem behind_nul_lost :
    ¬∀ str vch, decodeBase58Str str = some vch → Unspaced str → encodeBase58 vch = str := by
  intro hclaim
  have hread : decodeBase58Str ['1', nul, 'x'] = some [0] := by decide
  have hsame := hclaim _ _ hread ⟨by simp [isspace], by simp [isspace]⟩
  have hother : encodeBase58 [0] ≠ ['1', nul, 'x'] := by decide
  exact hother hsame

end RoundTrips

end UmbrellaLtc.Base58
