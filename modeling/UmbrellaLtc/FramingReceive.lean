import UmbrellaLtc.Framing

/-!
What the receiver of a stream of messages holds. After any number of bytes it has the messages
that have come in whole and a part of the next one, whatever pieces the bytes arrived in.
-/

namespace UmbrellaLtc.Framing

open Codec Transaction CMessageHeader

/-- A message as its sender hands it over. -/
structure Message where
  pszCommand : List Byte
  payload : List Byte
  fits : payload.length ≤ MAX_SIZE

variable (pchMessageStart : BitVec 32) (Hash : List Byte → Uint256)

/-- The first four bytes of the hash of the payload. -/
def checksum (payload : List Byte) : BitVec 32 := (Hash payload).setWidth 32

/-- The header under which a message travels. -/
def Message.header (m : Message) : CMessageHeader :=
  { CMessageHeader.make pchMessageStart m.pszCommand (BitVec.ofNat 32 m.payload.length) with
    nChecksum := checksum Hash m.payload }

def Message.wire (m : Message) : List Byte :=
  codec.write (m.header pchMessageStart Hash) ++ m.payload

/-- The bytes of all the messages, one after another. -/
def stream (ms : List Message) : List Byte := (ms.map (Message.wire pchMessageStart Hash)).flatten

/-! What the receiver holds. -/

section Received

variable (m : Message)

theorem Message.size_toNat :
    (m.header pchMessageStart Hash).nMessageSize.toNat = m.payload.length := by
  have hfits := m.fits
  simp only [Message.header, make, BitVec.toNat_ofNat, MAX_SIZE] at hfits ⊢
  omega

@[simp] theorem Message.wire_length :
    (m.wire pchMessageStart Hash).length = HEADER_SIZE + m.payload.length := by
  simp [Message.wire]

/-- The received message when `k` bytes of the header of `m` have come in. -/
def Message.inHeader (k : ℕ) (hk : k < HEADER_SIZE) : CNetMessage where
  in_data := false
  hdrbuf := (codec.write (m.header pchMessageStart Hash)).take k ++
    List.replicate (HEADER_SIZE - k) 0
  hdr := .empty pchMessageStart
  nHdrPos := k
  vRecv := []
  nDataPos := 0
  header_open _ := ⟨hk, rfl⟩
  data_bound := empty_bound pchMessageStart

/-- The received message when the header and `j` bytes of the payload have come in. -/
def Message.inData (j : ℕ) (hj : j ≤ m.payload.length) : CNetMessage where
  in_data := true
  hdrbuf := []
  hdr := m.header pchMessageStart Hash
  nHdrPos := HEADER_SIZE
  vRecv := m.payload.take j ++ List.replicate (m.payload.length - j) 0
  nDataPos := j
  header_open h := by cases h
  data_bound _ := by rw [m.size_toNat]; exact hj

theorem Message.inHeader_zero (h0 : 0 < HEADER_SIZE) :
    m.inHeader pchMessageStart Hash 0 h0 = .new pchMessageStart := by
  simp [Message.inHeader, CNetMessage.new]

theorem Message.inHeader_complete {k : ℕ} (hk : k < HEADER_SIZE) :
    (m.inHeader pchMessageStart Hash k hk).complete = false := rfl

theorem Message.inData_complete {j : ℕ} (hj : j ≤ m.payload.length) :
    (m.inData pchMessageStart Hash j hj).complete = decide (j = m.payload.length) := by
  simp only [CNetMessage.complete, Message.inData, Bool.true_and, m.size_toNat]
  rw [Bool.eq_iff_iff, beq_iff_eq, decide_eq_true_iff]
  omega

/-- More bytes of `l` behind those that are there. -/
theorem memcpy_fill (l src : List Byte) {k : ℕ} (hk : k + src.length ≤ l.length)
    (hsrc : src = (l.drop k).take src.length) :
    memcpy (l.take k ++ List.replicate (l.length - k) 0) k src =
      l.take (k + src.length) ++ List.replicate (l.length - (k + src.length)) 0 := by
  have hlen : (l.take k).length = k := by
    rw [List.length_take]
    omega
  have htake : (l.take k ++ List.replicate (l.length - k) (0 : Byte)).take k = l.take k := by
    rw [List.take_append_of_le_length (by omega), List.take_of_length_le (by omega)]
  have hdrop : (l.take k ++ List.replicate (l.length - k) (0 : Byte)).drop (k + src.length) =
      List.replicate (l.length - (k + src.length)) 0 := by
    rw [List.drop_append, List.drop_of_length_le (by omega), hlen, List.nil_append,
      List.drop_replicate]
    congr 1
    omega
  rw [memcpy, htake, hdrop, List.take_add, ← hsrc]

theorem take_of_prefix {a b : List Byte} (h : a <+: b) {c : ℕ} (hc : c ≤ a.length) :
    a.take c = b.take c := by
  obtain ⟨t, rfl⟩ := h
  exact (List.take_append_of_le_length hc).symm

variable {m} {pch rest : List Byte}

theorem Message.inHeader_part {k : ℕ} (hk : k < HEADER_SIZE)
    (hshort : k + pch.length < HEADER_SIZE)
    (hpch : pch <+: (m.wire pchMessageStart Hash).drop k ++ rest) :
    (m.inHeader pchMessageStart Hash k hk).absorb pch =
      some (m.inHeader pchMessageStart Hash (k + pch.length) hshort, pch.length) := by
  have hcopy : min (HEADER_SIZE - k) pch.length = pch.length := by omega
  have hsrc : pch = ((codec.write (m.header pchMessageStart Hash)).drop k).take pch.length := by
    have htake := take_of_prefix hpch (le_refl _)
    rw [List.take_length, Message.wire, List.drop_append_of_le_length (by simp; omega),
      List.append_assoc, List.take_append_of_le_length (by simp; omega)] at htake
    exact htake
  have hfill := memcpy_fill (codec.write (m.header pchMessageStart Hash)) pch (k := k)
    (by simp; omega) hsrc
  rw [codec_write_length] at hfill
  simp only [CNetMessage.absorb, Message.inHeader, ↓reduceDIte, CNetMessage.readHeader, hcopy,
    hshort, List.take_length, hfill]

theorem Message.inHeader_last {k : ℕ} (hk : k < HEADER_SIZE)
    (hlong : HEADER_SIZE ≤ k + pch.length)
    (hpch : pch <+: (m.wire pchMessageStart Hash).drop k ++ rest) :
    (m.inHeader pchMessageStart Hash k hk).absorb pch =
      some (m.inData pchMessageStart Hash 0 (Nat.zero_le _), HEADER_SIZE - k) := by
  have hcopy : min (HEADER_SIZE - k) pch.length = HEADER_SIZE - k := by omega
  have hpos : k + (HEADER_SIZE - k) = HEADER_SIZE := by omega
  have hlen : (pch.take (HEADER_SIZE - k)).length = HEADER_SIZE - k := by
    rw [List.length_take]
    omega
  have hsrc : pch.take (HEADER_SIZE - k) =
      ((codec.write (m.header pchMessageStart Hash)).drop k).take
        (pch.take (HEADER_SIZE - k)).length := by
    have htake := take_of_prefix hpch (show HEADER_SIZE - k ≤ pch.length by omega)
    rw [Message.wire, List.drop_append_of_le_length (by simp; omega), List.append_assoc,
      List.take_append_of_le_length (by simp)] at htake
    rw [hlen]
    exact htake
  have hfill := memcpy_fill (codec.write (m.header pchMessageStart Hash))
    (pch.take (HEADER_SIZE - k)) (k := k) (by simp; omega) hsrc
  have hall : (codec.write (m.header pchMessageStart Hash)).take HEADER_SIZE =
      codec.write (m.header pchMessageStart Hash) := List.take_of_length_le (by simp)
  rw [codec_write_length, hlen, hpos, Nat.sub_self, List.replicate_zero, List.append_nil,
    hall] at hfill
  have hread : codec.read (codec.write (m.header pchMessageStart Hash)) =
      some (m.header pchMessageStart Hash, []) := by
    have h := codec_read_write (m.header pchMessageStart Hash) []
    rwa [List.append_nil] at h
  have hsize : ¬ MAX_SIZE < (m.header pchMessageStart Hash).nMessageSize.toNat := by
    rw [m.size_toNat]
    exact Nat.not_lt.mpr m.fits
  simp only [CNetMessage.absorb, Message.inHeader, ↓reduceDIte, CNetMessage.readHeader, hcopy,
    hpos, Nat.lt_irrefl, hfill, hread, hsize, ↓reduceIte]
  simp [Message.inData, resize, m.size_toNat]

theorem Message.inData_absorb {j : ℕ} (hj : j ≤ m.payload.length)
    (hpch : pch <+: (m.wire pchMessageStart Hash).drop (HEADER_SIZE + j) ++ rest) :
    (m.inData pchMessageStart Hash j hj).absorb pch =
      some (m.inData pchMessageStart Hash (j + min (m.payload.length - j) pch.length) (by omega),
        min (m.payload.length - j) pch.length) := by
  have hlen : (pch.take (min (m.payload.length - j) pch.length)).length =
      min (m.payload.length - j) pch.length := by
    rw [List.length_take]
    omega
  have hsrc : pch.take (min (m.payload.length - j) pch.length) =
      (m.payload.drop j).take (pch.take (min (m.payload.length - j) pch.length)).length := by
    have htake := take_of_prefix hpch (Nat.min_le_right (m.payload.length - j) pch.length)
    rw [Message.wire, ← codec_write_length (m.header pchMessageStart Hash),
      List.drop_length_add_append, List.take_append_of_le_length (by simp)] at htake
    rw [hlen]
    exact htake
  have hfill := memcpy_fill m.payload _ (by rw [hlen]; omega) hsrc
  rw [hlen] at hfill
  simp only [CNetMessage.absorb, Message.inData, Bool.true_eq_false, ↓reduceDIte,
    CNetMessage.readData, m.size_toNat, hfill]

variable (m)

/-- The received message when `k` bytes of `m` have come in. -/
def Message.after (k : ℕ) : CNetMessage :=
  if hk : k < HEADER_SIZE then m.inHeader pchMessageStart Hash k hk
  else
    m.inData pchMessageStart Hash (min (k - HEADER_SIZE) m.payload.length) (Nat.min_le_right _ _)

/-- The received message when all of `m` has come in. -/
def Message.whole : CNetMessage :=
  m.after pchMessageStart Hash (m.wire pchMessageStart Hash).length

theorem Message.whole_eq : m.whole pchMessageStart Hash =
    m.inData pchMessageStart Hash m.payload.length (le_refl _) := by
  have hge : ¬ HEADER_SIZE + m.payload.length < HEADER_SIZE := by omega
  simp only [Message.whole, Message.wire_length, Message.after, dif_neg hge,
    Nat.add_sub_cancel_left, Nat.min_self]

theorem Message.whole_complete : (m.whole pchMessageStart Hash).complete = true := by
  rw [m.whole_eq, m.inData_complete, decide_eq_true rfl]

theorem Message.whole_hdr :
    (m.whole pchMessageStart Hash).hdr = m.header pchMessageStart Hash := by
  rw [m.whole_eq, Message.inData]

theorem Message.whole_vRecv : (m.whole pchMessageStart Hash).vRecv = m.payload := by
  rw [m.whole_eq]
  simp [Message.inData]

variable {m}

theorem Message.after_incomplete {k : ℕ} (hk : k < (m.wire pchMessageStart Hash).length) :
    (m.after pchMessageStart Hash k).complete = false := by
  rw [Message.wire_length] at hk
  by_cases hhdr : k < HEADER_SIZE
  · rw [Message.after, dif_pos hhdr, m.inHeader_complete]
  · rw [Message.after, dif_neg hhdr, m.inData_complete, decide_eq_false_iff_not]
    omega

/-- Bytes that continue `m` are absorbed into it. -/
theorem Message.after_absorb {k : ℕ} (hk : k < (m.wire pchMessageStart Hash).length)
    (hpch : pch <+: (m.wire pchMessageStart Hash).drop k ++ rest) :
    ∃ c, (m.after pchMessageStart Hash k).absorb pch =
        some (m.after pchMessageStart Hash (k + c), c) ∧
      c ≤ pch.length ∧ k + c ≤ (m.wire pchMessageStart Hash).length := by
  have hlen := m.wire_length pchMessageStart Hash
  by_cases hhdr : k < HEADER_SIZE
  · rw [Message.after, dif_pos hhdr]
    by_cases hshort : k + pch.length < HEADER_SIZE
    · refine ⟨pch.length, ?_, le_refl _, by omega⟩
      rw [m.inHeader_part pchMessageStart Hash hhdr hshort hpch, Message.after, dif_pos hshort]
    · have hlong : HEADER_SIZE ≤ k + pch.length := by omega
      have hat : k + (HEADER_SIZE - k) = HEADER_SIZE := by omega
      refine ⟨HEADER_SIZE - k, ?_, by omega, by omega⟩
      rw [m.inHeader_last pchMessageStart Hash hhdr hlong hpch, hat]
      simp only [Message.after, Nat.lt_irrefl, ↓reduceDIte, Nat.sub_self, Nat.zero_min]
  · have hat : min (k - HEADER_SIZE) m.payload.length = k - HEADER_SIZE := by omega
    have hpch' : pch <+: (m.wire pchMessageStart Hash).drop
        (HEADER_SIZE + min (k - HEADER_SIZE) m.payload.length) ++ rest := by
      have hk' : HEADER_SIZE + min (k - HEADER_SIZE) m.payload.length = k := by omega
      rwa [hk']
    have habsorb := m.inData_absorb pchMessageStart Hash (Nat.min_le_right _ _) hpch'
    rw [Message.after, dif_neg hhdr]
    refine ⟨_, ?_, Nat.min_le_right (m.payload.length - min (k - HEADER_SIZE) m.payload.length)
      pch.length, by omega⟩
    rw [habsorb, Message.after, dif_neg (by omega)]
    congr 3
    omega

end Received

/-- What the receiver has after a number of bytes of the messages: some of them in whole, and
a part of the next one unless the bytes end between two of them. -/
inductive Holds (ms : List Message) : ℕ → List CNetMessage → Prop where
  | between (sent post : List Message) (hms : ms = sent ++ post) :
      Holds ms (stream pchMessageStart Hash sent).length
        (sent.map (Message.whole pchMessageStart Hash))
  | inside (sent : List Message) (m : Message) (post : List Message) (k : ℕ)
      (hms : ms = sent ++ m :: post) (hpos : 0 < k)
      (hk : k < (m.wire pchMessageStart Hash).length) :
      Holds ms ((stream pchMessageStart Hash sent).length + k)
        (sent.map (Message.whole pchMessageStart Hash) ++ [m.after pchMessageStart Hash k])

section Loop

variable {pchMessageStart Hash} {ms : List Message} {n : ℕ} {v : List CNetMessage}

theorem stream_append (ms ms' : List Message) :
    stream pchMessageStart Hash (ms ++ ms') =
      stream pchMessageStart Hash ms ++ stream pchMessageStart Hash ms' := by
  simp [stream]

theorem stream_cons (m : Message) (ms : List Message) :
    stream pchMessageStart Hash (m :: ms) =
      m.wire pchMessageStart Hash ++ stream pchMessageStart Hash ms := rfl

theorem Holds.more (h : Holds pchMessageStart Hash ms n v) (ms' : List Message) :
    Holds pchMessageStart Hash (ms ++ ms') n v := by
  cases h with
  | between sent post hms =>
    exact .between sent (post ++ ms') (by rw [hms, List.append_assoc])
  | inside sent m post k hms hpos hk =>
    exact .inside sent m (post ++ ms') k (by rw [hms, List.append_assoc, List.cons_append])
      hpos hk

theorem current_of_complete (h : ∀ msg ∈ v, msg.complete = true) :
    current pchMessageStart v = (v, .new pchMessageStart) := by
  unfold current
  split
  · rfl
  · next msg hlast =>
    rw [if_pos (h msg (List.mem_of_getLast? hlast))]

theorem current_of_incomplete (v : List CNetMessage) {msg : CNetMessage}
    (h : msg.complete = false) : current pchMessageStart (v ++ [msg]) = (v, msg) := by
  simp [current, h]

theorem whole_complete_of_mem {sent : List Message} :
    ∀ msg ∈ sent.map (Message.whole pchMessageStart Hash), msg.complete = true := by
  intro msg hmsg
  obtain ⟨m, -, rfl⟩ := List.mem_map.mp hmsg
  exact m.whole_complete pchMessageStart Hash

/-- The message that the next byte belongs to is the first one not yet whole. -/
theorem Holds.current (h : Holds pchMessageStart Hash ms n v)
    (hn : n < (stream pchMessageStart Hash ms).length) :
    ∃ sent m post k, ms = sent ++ m :: post ∧
      n = (stream pchMessageStart Hash sent).length + k ∧
      k < (m.wire pchMessageStart Hash).length ∧
      Framing.current pchMessageStart v = (sent.map (Message.whole pchMessageStart Hash),
        m.after pchMessageStart Hash k) := by
  cases h with
  | between sent post hms =>
    cases post with
    | nil =>
      rw [hms, List.append_nil] at hn
      exact absurd hn (Nat.lt_irrefl _)
    | cons m post =>
      refine ⟨sent, m, post, 0, hms, rfl, by rw [m.wire_length]; exact Nat.lt_add_right _ (by decide),
        ?_⟩
      rw [current_of_complete whole_complete_of_mem, Message.after, dif_pos (by decide),
        m.inHeader_zero]
  | inside sent m post k hms hpos hk =>
    exact ⟨sent, m, post, k, hms, rfl, hk,
      current_of_incomplete _ (m.after_incomplete pchMessageStart Hash hk)⟩

/-- One round of the loop of ReceiveMsgBytes on bytes that continue the stream. -/
theorem Holds.absorb (h : Holds pchMessageStart Hash ms n v) {pch : List Byte} (hne : pch ≠ [])
    (hpch : pch <+: (stream pchMessageStart Hash ms).drop n) :
    ∃ msg c, (Framing.current pchMessageStart v).2.absorb pch = some (msg, c) ∧ c ≤ pch.length ∧
      Holds pchMessageStart Hash ms (n + c) ((Framing.current pchMessageStart v).1 ++ [msg]) := by
  have hn : n < (stream pchMessageStart Hash ms).length := by
    have hle := hpch.length_le
    have hpos := List.length_pos_iff.mpr hne
    rw [List.length_drop] at hle
    omega
  have hinc := current_incomplete pchMessageStart v
  obtain ⟨sent, m, post, k, hms, rfl, hk, hcur⟩ := h.current hn
  have hrest : pch <+: (m.wire pchMessageStart Hash).drop k ++
      stream pchMessageStart Hash post := by
    rw [hms, stream_append, stream_cons, List.drop_length_add_append,
      List.drop_append_of_le_length (Nat.le_of_lt hk)] at hpch
    exact hpch
  obtain ⟨c, habsorb, hc, hend⟩ := m.after_absorb pchMessageStart Hash hk hrest
  rw [hcur] at hinc
  have hpos := CNetMessage.absorb_pos hinc hne habsorb
  refine ⟨_, c, by rw [hcur]; exact habsorb, hc, ?_⟩
  rw [hcur, Nat.add_assoc]
  by_cases hlast : k + c = (m.wire pchMessageStart Hash).length
  · -- the last byte of `m`: it joins the whole ones
    have hb := @Holds.between pchMessageStart Hash ms (sent ++ [m]) post
      (show ms = sent ++ [m] ++ post by rw [hms, List.append_assoc, List.singleton_append])
    rw [stream_append, List.length_append, List.map_append] at hb
    rw [hlast]
    simpa [stream, Message.whole] using hb
  · exact .inside sent m post (k + c) hms (by omega) (by omega)

theorem receiveMsgBytes_nil (v : List CNetMessage) :
    receiveMsgBytes pchMessageStart v [] = some v := by
  rw [receiveMsgBytes, dif_pos rfl]

theorem receiveMsgBytes_step {pch : List Byte} (hne : pch ≠ []) {msg : CNetMessage} {c : ℕ}
    (h : (Framing.current pchMessageStart v).2.absorb pch = some (msg, c)) :
    receiveMsgBytes pchMessageStart v pch =
      receiveMsgBytes pchMessageStart ((Framing.current pchMessageStart v).1 ++ [msg])
        (pch.drop c) := by
  conv_lhs => rw [receiveMsgBytes, dif_neg hne]
  split
  · next hnone =>
    rw [h] at hnone
    cases hnone
  · next msg' c' hsome =>
    rw [h] at hsome
    cases hsome
    rfl

/-- ReceiveMsgBytes on any bytes that continue the stream. -/
theorem Holds.receive (pch : List Byte) (h : Holds pchMessageStart Hash ms n v)
    (hpch : pch <+: (stream pchMessageStart Hash ms).drop n) :
    ∃ v', receiveMsgBytes pchMessageStart v pch = some v' ∧
      Holds pchMessageStart Hash ms (n + pch.length) v' := by
  induction hl : pch.length using Nat.strongRecOn generalizing pch n v with
  | ind l ih =>
    subst hl
    by_cases hne : pch = []
    · subst hne
      exact ⟨v, receiveMsgBytes_nil v, h⟩
    obtain ⟨msg, c, habsorb, hc, hnext⟩ := h.absorb hne hpch
    have hpos := CNetMessage.absorb_pos (current_incomplete pchMessageStart v) hne habsorb
    have hlen : (pch.drop c).length = pch.length - c := List.length_drop
    have hdrop : pch.drop c <+: (stream pchMessageStart Hash ms).drop (n + c) := by
      rw [← List.drop_drop]
      exact hpch.drop c
    obtain ⟨v', hv', hholds⟩ := ih _ (by omega) _ hnext hdrop rfl
    refine ⟨v', ?_, ?_⟩
    · rw [receiveMsgBytes_step hne habsorb, hv']
    · rwa [hlen, show n + c + (pch.length - c) = n + pch.length by omega] at hholds

/-- A complete message in front of the others is not looked at. -/
theorem current_cons {msg : CNetMessage} (hmsg : msg.complete = true) (v : List CNetMessage) :
    Framing.current pchMessageStart (msg :: v) =
      (msg :: (Framing.current pchMessageStart v).1, (Framing.current pchMessageStart v).2) := by
  cases v with
  | nil => simp [Framing.current, hmsg]
  | cons msg' v =>
    simp only [Framing.current, List.getLast?_cons_cons, List.dropLast_cons_cons]
    split
    · rfl
    · split <;> rfl

theorem receiveMsgBytes_cons {msg : CNetMessage} (hmsg : msg.complete = true) (pch : List Byte)
    (v : List CNetMessage) :
    receiveMsgBytes pchMessageStart (msg :: v) pch =
      (receiveMsgBytes pchMessageStart v pch).map (msg :: ·) := by
  induction hl : pch.length using Nat.strongRecOn generalizing pch v with
  | ind l ih =>
    subst hl
    by_cases hne : pch = []
    · subst hne
      rw [receiveMsgBytes_nil, receiveMsgBytes_nil, Option.map_some]
    have hcur := @current_cons pchMessageStart _ hmsg v
    cases habsorb : (Framing.current pchMessageStart v).2.absorb pch with
    | none =>
      have hfail : ∀ w : List CNetMessage, (Framing.current pchMessageStart w).2.absorb pch = none →
          receiveMsgBytes pchMessageStart w pch = none := by
        intro w hw
        rw [receiveMsgBytes, dif_neg hne]
        split
        · rfl
        · next hsome =>
          rw [hw] at hsome
          cases hsome
      rw [hfail v habsorb, hfail (msg :: v) (by rw [hcur]; exact habsorb), Option.map_none]
    | some r =>
      obtain ⟨msg', c⟩ := r
      have hpos := CNetMessage.absorb_pos (current_incomplete pchMessageStart v) hne habsorb
      have hlen : 0 < pch.length := List.length_pos_iff.mpr hne
      have hdrop : (pch.drop c).length = pch.length - c := List.length_drop
      have habsorb' : (Framing.current pchMessageStart (msg :: v)).2.absorb pch =
          some (msg', c) := by
        rw [hcur]
        exact habsorb
      rw [receiveMsgBytes_step hne habsorb, receiveMsgBytes_step hne habsorb', hcur]
      exact ih _ (by omega) _ _ rfl

theorem receiveMsgBytes_append {front : List CNetMessage}
    (hfront : ∀ msg ∈ front, msg.complete = true) (v : List CNetMessage) (pch : List Byte) :
    receiveMsgBytes pchMessageStart (front ++ v) pch =
      (receiveMsgBytes pchMessageStart v pch).map (front ++ ·) := by
  induction front with
  | nil => simp
  | cons msg front ih =>
    rw [List.cons_append, receiveMsgBytes_cons (hfront msg (List.mem_cons_self ..)),
      ih fun msg' h => hfront msg' (List.mem_cons_of_mem _ h), Option.map_map]
    rfl

/-- The complete ones among the received messages. -/
theorem Holds.completed (h : Holds pchMessageStart Hash ms n v) :
    ∃ sent post, ms = sent ++ post ∧ v.filter (·.complete) =
        sent.map (Message.whole pchMessageStart Hash) ∧
      (stream pchMessageStart Hash sent).length ≤ n ∧
      ∀ m ∈ post.head?, n < (stream pchMessageStart Hash (sent ++ [m])).length := by
  have hlen : ∀ (sent : List Message) (m : Message),
      (stream pchMessageStart Hash (sent ++ [m])).length =
        (stream pchMessageStart Hash sent).length + (m.wire pchMessageStart Hash).length := by
    intro sent m
    simp [stream]
  cases h with
  | between sent post hms =>
    refine ⟨sent, post, hms, List.filter_eq_self.mpr whole_complete_of_mem, le_refl _, ?_⟩
    intro m hm
    rw [hlen, m.wire_length, HEADER_SIZE]
    omega
  | inside sent m post k hms hpos hk =>
    refine ⟨sent, m :: post, hms, ?_, Nat.le_add_right _ _, ?_⟩
    · rw [List.filter_append, List.filter_eq_self.mpr whole_complete_of_mem]
      simp [m.after_incomplete pchMessageStart Hash hk]
    · intro m' hm'
      obtain rfl : m = m' := by simpa using hm'
      rw [hlen]
      omega

end Loop

end UmbrellaLtc.Framing
