import UmbrellaLtc.FramingReceive

/-!
A connection from one node to another. Messages are queued on the near node, its socket takes
them in pieces, the far node is handed the bytes in other pieces, and the far node's complete
messages are taken away: nothing that happens loses, repeats or mixes a message, and no
assertion of the sender fails.
-/

namespace UmbrellaLtc.Framing

open Codec Transaction CMessageHeader

/-! The sender. -/

section Sender

variable (pchMessageStart : BitVec 32) (Hash : List Byte → Uint256)

/-- The node's queue is what its socket has not yet taken of the messages. -/
structure CNode.Queued (ms : List Message) (taken : List Byte) (node : CNode) : Prop where
  idle : node.ssSend = []
  pending : taken ++ node.vSendMsg.flatten.drop node.nSendOffset = stream pchMessageStart Hash ms
  nonempty : ∀ data ∈ node.vSendMsg, data ≠ []
  offset_lt : ∀ data ∈ node.vSendMsg.head?, node.nSendOffset < data.length
  offset_zero : node.vSendMsg = [] → node.nSendOffset = 0
  size : node.nSendSize = BitVec.ofNat 64 node.vSendMsg.flatten.length

variable {pchMessageStart Hash} {ms : List Message} {taken : List Byte} {node : CNode}

theorem CNode.send_wrote {len : ℕ} {r : SendReturn} {nBytes : ℕ}
    (h : node.send len r = .wrote nBytes) : nBytes ≤ len := by
  cases r with
  | wrote n =>
    simp only [CNode.send] at h
    split at h
    · cases h
      exact Nat.min_le_right n len
    · cases h
  | wouldBlock =>
    simp only [CNode.send] at h
    split at h <;> cases h
  | failed lockRecv => cases h

theorem CNode.Queued.close (h : node.Queued pchMessageStart Hash ms taken) (lockRecv : Bool) :
    (node.closeSocketDisconnect lockRecv).Queued pchMessageStart Hash ms taken :=
  ⟨h.idle, h.pending, h.nonempty, h.offset_lt, h.offset_zero, h.size⟩

/-- The first message is taken to its end. -/
theorem CNode.Queued.next {data : List Byte} {it : List (List Byte)}
    (h : { node with vSendMsg := data :: it }.Queued pchMessageStart Hash ms taken) :
    { node with
      nSendOffset := 0
      nSendSize := node.nSendSize - BitVec.ofNat 64 data.length
      vSendMsg := it }.Queued pchMessageStart Hash ms
        (taken ++ data.drop node.nSendOffset) := by
  have hoff : node.nSendOffset < data.length := h.offset_lt data rfl
  refine ⟨h.idle, ?_, fun d hd => h.nonempty d (List.mem_cons_of_mem _ hd), ?_, fun _ => rfl, ?_⟩
  · have hp : taken ++ (data ++ it.flatten).drop node.nSendOffset =
        stream pchMessageStart Hash ms := h.pending
    rw [List.drop_append_of_le_length (Nat.le_of_lt hoff)] at hp
    rw [List.append_assoc, List.drop_zero, hp]
  · intro d hd
    exact List.length_pos_iff.mpr (h.nonempty d (List.mem_cons_of_mem _ (List.mem_of_mem_head? hd)))
  · have hs : node.nSendSize = BitVec.ofNat 64 (data ++ it.flatten).length := h.size
    rw [hs, List.length_append, Nat.add_comm, BitVec.ofNat_add, BitVec.add_sub_cancel]

/-- A part of the first message is taken. -/
theorem CNode.Queued.part {data : List Byte} {it : List (List Byte)} {nBytes : ℕ}
    (h : { node with vSendMsg := data :: it }.Queued pchMessageStart Hash ms taken)
    (hn : node.nSendOffset + nBytes < data.length) :
    { node with
      nSendOffset := node.nSendOffset + nBytes
      vSendMsg := data :: it }.Queued pchMessageStart Hash ms
        (taken ++ (data.drop node.nSendOffset).take nBytes) := by
  refine ⟨h.idle, ?_, h.nonempty, ?_, fun hnil => ?_, h.size⟩
  · have hp : taken ++ (data ++ it.flatten).drop node.nSendOffset =
        stream pchMessageStart Hash ms := h.pending
    rw [List.drop_append_of_le_length (by omega)] at hp
    show taken ++ _ ++ (data ++ it.flatten).drop (node.nSendOffset + nBytes) = _
    rw [List.drop_append_of_le_length (by omega), ← List.drop_drop, List.append_assoc,
      ← List.append_assoc (List.take nBytes _), List.take_append_drop, hp]
  · intro d hd
    obtain rfl : data = d := by simpa using hd
    exact hn
  · cases hnil

theorem CNode.sendLoop_queued (it : List (List Byte)) (sends : List SendReturn)
    (h : { node with vSendMsg := it }.Queued pchMessageStart Hash ms taken) :
    ∃ node' out stop, node.sendLoop it sends = some (node', out, stop) ∧
      { node' with vSendMsg := stop }.Queued pchMessageStart Hash ms (taken ++ out) := by
  induction it generalizing node sends taken with
  | nil => exact ⟨node, [], [], rfl, by rwa [List.append_nil]⟩
  | cons data it ih =>
    have hoff : node.nSendOffset < data.length := h.offset_lt data rfl
    have hstay : ∃ node' out stop, some (node, [], data :: it) = some (node', out, stop) ∧
        { node' with vSendMsg := stop }.Queued pchMessageStart Hash ms (taken ++ out) :=
      ⟨node, [], _, rfl, by rwa [List.append_nil]⟩
    simp only [CNode.sendLoop, Nat.not_le.mpr hoff, ↓reduceIte]
    cases hsend : node.send (data.drop node.nSendOffset).length (sends.headD .wouldBlock) with
    | wouldBlock => exact hstay
    | failed lockRecv =>
      refine ⟨_, [], _, rfl, ?_⟩
      rw [List.append_nil]
      exact h.close lockRecv
    | wrote nBytes =>
      have hle := CNode.send_wrote hsend
      rw [List.length_drop] at hle
      by_cases hzero : nBytes = 0
      · simp only [hzero, ↓reduceIte]
        exact hstay
      simp only [hzero, ↓reduceIte]
      by_cases hlast : node.nSendOffset + nBytes = data.length
      · obtain ⟨node', out, stop, hloop, hq⟩ := @ih _
          { node with
            nSendOffset := 0
            nSendSize := node.nSendSize - BitVec.ofNat 64 data.length } sends.tail h.next
        have hall : (data.drop node.nSendOffset).take nBytes = data.drop node.nSendOffset :=
          List.take_of_length_le (by rw [List.length_drop]; omega)
        refine ⟨node', data.drop node.nSendOffset ++ out, stop, ?_, ?_⟩
        · simp only [hlast, ↓reduceIte, hall]
          rw [hloop, Option.map_some]
        · rwa [List.append_assoc] at hq
      · simp only [hlast, ↓reduceIte]
        exact ⟨_, _, _, rfl, h.part (by omega)⟩

theorem CNode.socketSendData_queued (h : node.Queued pchMessageStart Hash ms taken)
    (sends : List SendReturn) :
    ∃ node' out, node.socketSendData sends = some (node', out) ∧
      node'.Queued pchMessageStart Hash ms (taken ++ out) := by
  obtain ⟨node', out, stop, hloop, hq⟩ := CNode.sendLoop_queued node.vSendMsg sends h
  refine ⟨{ node' with vSendMsg := stop }, out, ?_, hq⟩
  have hassert : ¬(stop = [] ∧ ¬(node'.nSendOffset = 0 ∧ node'.nSendSize = 0)) := by
    rintro ⟨rfl, hno⟩
    exact hno ⟨hq.offset_zero rfl, hq.size⟩
  simp only [CNode.socketSendData, hloop, hassert, ↓reduceIte]

/-- What BeginMessage and the arguments leave in `ssSend`. -/
theorem started_eq (m : Message) :
    codec.write (make pchMessageStart m.pszCommand 0) ++ m.payload =
      (m.header pchMessageStart Hash).startBytes ++ leBytes 4 0 ++ (leBytes 4 0 ++ m.payload) := by
  rw [codec_write]
  simp [startBytes, Message.header, make]

/-- EndMessage writes the size and the checksum over their places. -/
theorem CNode.endMessage_data (m : Message) {ssSend : List Byte}
    (h : ssSend = codec.write (make pchMessageStart m.pszCommand 0) ++ m.payload) :
    ssSend ≠ [] ∧
    ∃ sized, memcpy ssSend MESSAGE_SIZE_OFFSET
        (leBytes 4 (BitVec.ofNat 32 ssSend.length - BitVec.ofNat 32 HEADER_SIZE).toNat) = sized ∧
      ¬ sized.length < CHECKSUM_OFFSET + 4 ∧
      memcpy sized CHECKSUM_OFFSET
          (leBytes 4 ((Hash (sized.drop HEADER_SIZE)).setWidth 32 : BitVec 32).toNat) =
        m.wire pchMessageStart Hash := by
  have hlen : ssSend.length = m.payload.length + HEADER_SIZE := by
    rw [h, List.length_append, codec_write_length, Nat.add_comm]
  have hsize : BitVec.ofNat 32 ssSend.length - BitVec.ofNat 32 HEADER_SIZE =
      (m.header pchMessageStart Hash).nMessageSize := by
    rw [hlen, BitVec.ofNat_add, BitVec.add_sub_cancel]
    rfl
  have hstart := (m.header pchMessageStart Hash).startBytes_length
  have hcopied := memcpy_append (m.header pchMessageStart Hash).startBytes (leBytes 4 0)
    (leBytes 4 0 ++ m.payload)
    (leBytes 4 (m.header pchMessageStart Hash).nMessageSize.toNat) (by simp)
  have hfront : ((m.header pchMessageStart Hash).startBytes ++
      leBytes 4 (m.header pchMessageStart Hash).nMessageSize.toNat).length = CHECKSUM_OFFSET := by
    rw [List.length_append, hstart, leBytes_length]
    rfl
  have hpos : ssSend ≠ [] := by
    intro hnil
    rw [hnil] at hlen
    simp [HEADER_SIZE] at hlen
  refine ⟨hpos, _, rfl, ?_⟩
  rw [hsize, h, @started_eq _ Hash, ← hstart, hcopied, ← List.append_assoc]
  constructor
  · rw [List.length_append, List.length_append, hfront, leBytes_length]
    omega
  · have hdrop : ((m.header pchMessageStart Hash).startBytes ++
        leBytes 4 (m.header pchMessageStart Hash).nMessageSize.toNat ++ leBytes 4 0 ++
          m.payload).drop HEADER_SIZE = m.payload := by
      refine List.drop_left' ?_
      rw [List.length_append, hfront, leBytes_length]
      rfl
    rw [hdrop, ← hfront, memcpy_append _ _ _ _ (by simp), Message.wire, codec_write]
    rfl

theorem CNode.Queued.queue (h : node.Queued pchMessageStart Hash ms taken) (m : Message) :
    { node with
      ssSend := []
      nSendSize := node.nSendSize + BitVec.ofNat 64 (m.wire pchMessageStart Hash).length
      vSendMsg := node.vSendMsg ++ [m.wire pchMessageStart Hash] }.Queued
        pchMessageStart Hash (ms ++ [m]) taken := by
  have hwire : m.wire pchMessageStart Hash ≠ [] := by
    rw [← List.length_pos_iff, m.wire_length, HEADER_SIZE]
    omega
  have hle : node.nSendOffset ≤ node.vSendMsg.flatten.length := by
    cases hv : node.vSendMsg with
    | nil => rw [h.offset_zero hv, List.flatten_nil, List.length_nil]
    | cons data it =>
      have hoff := h.offset_lt data (by rw [hv]; rfl)
      rw [List.flatten_cons, List.length_append]
      omega
  refine ⟨rfl, ?_, ?_, ?_, fun hnil => absurd hnil (by simp), ?_⟩
  · show taken ++ (node.vSendMsg ++ [m.wire pchMessageStart Hash]).flatten.drop node.nSendOffset = _
    rw [List.flatten_append, List.drop_append_of_le_length hle, ← List.append_assoc, h.pending,
      stream_append]
    rfl
  · intro data hdata
    rcases List.mem_append.mp hdata with hdata | hdata
    · exact h.nonempty data hdata
    · rwa [List.mem_singleton.mp hdata]
  · intro data hdata
    cases hv : node.vSendMsg with
    | nil =>
      obtain rfl : m.wire pchMessageStart Hash = data := by simpa [hv] using hdata
      show node.nSendOffset < _
      rw [h.offset_zero hv]
      exact List.length_pos_iff.mpr hwire
    | cons data' it =>
      obtain rfl : data' = data := by simpa [hv] using hdata
      exact h.offset_lt data' (by rw [hv]; rfl)
  · show node.nSendSize + _ = _
    rw [h.size, ← BitVec.ofNat_add]
    simp

theorem CNode.pushMessage_queued (h : node.Queued pchMessageStart Hash ms taken) (m : Message)
    (dropped : Bool) (sends : List SendReturn) :
    ∃ node' out, node.pushMessage pchMessageStart Hash m.pszCommand m.payload dropped sends =
        some (node', out) ∧
      node'.Queued pchMessageStart Hash (if dropped then ms else ms ++ [m]) (taken ++ out) := by
  have hbegin : node.beginMessage pchMessageStart m.pszCommand =
      some { node with ssSend := codec.write (make pchMessageStart m.pszCommand 0) } := by
    simp [CNode.beginMessage, h.idle]
  simp only [CNode.pushMessage, hbegin, CNode.endMessage]
  cases dropped with
  | true =>
    refine ⟨_, [], rfl, ?_⟩
    rw [List.append_nil]
    exact ⟨rfl, h.pending, h.nonempty, h.offset_lt, h.offset_zero, h.size⟩
  | false =>
    obtain ⟨hne, sized, hsized, hassert, hdata⟩ := @CNode.endMessage_data pchMessageStart Hash m _ rfl
    have hqueue := h.queue m
    simp only [Bool.false_eq_true, ↓reduceIte, hne, hsized, hassert, hdata]
    split
    · exact CNode.socketSendData_queued hqueue sends
    · exact ⟨_, [], rfl, by rwa [List.append_nil]⟩

end Sender

/-! The connection. -/

/-- Two nodes, the bytes that the near socket took, how many of them the far node was handed,
and the messages that the far node is done with. -/
structure Link where
  near : CNode
  far : CNode
  taken : List Byte
  arrived : ℕ
  handled : List CNetMessage

inductive Action where
  | pushMessage (m : Message) (dropped : Bool) (sends : List SendReturn)
  | socketSendData (sends : List SendReturn)
  | receiveMsgBytes (nBytes : ℕ)
  | processMessages (count : ℕ)

/-- The messages that were queued: not those that -dropmessagestest aborts. -/
def queued (acts : List Action) : List Message :=
  acts.filterMap fun
    | .pushMessage m false _ => some m
    | _ => none

namespace Link

def init : Link := ⟨.new, .new, [], 0, []⟩

/-- The far node's complete messages, the handled ones first. -/
def completed (l : Link) : List CNetMessage := (l.handled ++ l.far.vRecvMsg).filter (·.complete)

section Steps

variable (pchMessageStart : BitVec 32) (Hash : List Byte → Uint256)

/-- Nothing where an assertion fails. ThreadSocketHandler passes over closed sockets, and
ProcessMessages takes complete messages from the front, as many as it gets to. -/
def step (l : Link) : Action → Option Link
  | .pushMessage m dropped sends =>
    (l.near.pushMessage pchMessageStart Hash m.pszCommand m.payload dropped sends).map fun r =>
      { l with near := r.1, taken := l.taken ++ r.2 }
  | .socketSendData sends =>
    if l.near.hSocket then
      (l.near.socketSendData sends).map fun r => { l with near := r.1, taken := l.taken ++ r.2 }
    else some l
  | .receiveMsgBytes nBytes =>
    if l.far.hSocket then
      let pch := (l.taken.drop l.arrived).take nBytes
      match Framing.receiveMsgBytes pchMessageStart l.far.vRecvMsg pch with
      | none =>
        some { l with far := l.far.closeSocketDisconnect true, arrived := l.arrived + pch.length }
      | some vRecvMsg =>
        some { l with far := { l.far with vRecvMsg := vRecvMsg }, arrived := l.arrived + pch.length }
    else some l
  | .processMessages count =>
    let done := (l.far.vRecvMsg.takeWhile (·.complete)).take count
    some { l with
      far := { l.far with vRecvMsg := l.far.vRecvMsg.drop done.length }
      handled := l.handled ++ done }

def run : List Action → Link → Option Link
  | [], l => some l
  | act :: acts, l =>
    match l.step pchMessageStart Hash act with
    | none => none
    | some l => run acts l

/-- What every step keeps. -/
structure Kept (ms : List Message) (l : Link) : Prop where
  near : l.near.Queued pchMessageStart Hash ms l.taken
  arrived_le : l.arrived ≤ l.taken.length
  far_open : l.far.hSocket = true
  holds : Holds pchMessageStart Hash ms l.arrived (l.handled ++ l.far.vRecvMsg)
  handled_complete : ∀ msg ∈ l.handled, msg.complete = true

theorem init_kept : Kept pchMessageStart Hash [] init where
  near := ⟨rfl, rfl, by simp [init, CNode.new], by simp [init, CNode.new], fun _ => rfl, rfl⟩
  arrived_le := le_refl _
  far_open := rfl
  holds := .between [] [] rfl
  handled_complete := by simp [init]

variable {pchMessageStart Hash} {ms : List Message} {l : Link}

theorem Kept.taken_prefix (h : l.Kept pchMessageStart Hash ms) :
    l.taken <+: stream pchMessageStart Hash ms := ⟨_, h.near.pending⟩

theorem Kept.send (h : l.Kept pchMessageStart Hash ms) (ms' : List Message) {near : CNode}
    {out : List Byte} (hnear : near.Queued pchMessageStart Hash (ms ++ ms') (l.taken ++ out)) :
    { l with near := near, taken := l.taken ++ out }.Kept pchMessageStart Hash (ms ++ ms') where
  near := hnear
  arrived_le := by
    show l.arrived ≤ (l.taken ++ out).length
    rw [List.length_append]
    exact Nat.le_add_right_of_le h.arrived_le
  far_open := h.far_open
  holds := h.holds.more ms'
  handled_complete := h.handled_complete

theorem Kept.receive (h : l.Kept pchMessageStart Hash ms) (nBytes : ℕ) :
    ∃ l', l.step pchMessageStart Hash (.receiveMsgBytes nBytes) = some l' ∧
      l'.Kept pchMessageStart Hash ms := by
  have hpch : (l.taken.drop l.arrived).take nBytes <+:
      (stream pchMessageStart Hash ms).drop l.arrived :=
    (List.take_prefix _ _).trans (h.taken_prefix.drop _)
  obtain ⟨v', hreceive, hholds⟩ := h.holds.receive _ hpch
  rw [receiveMsgBytes_append h.handled_complete] at hreceive
  obtain ⟨v, hv, rfl⟩ := Option.map_eq_some_iff.mp hreceive
  refine ⟨{ l with
    far := { l.far with vRecvMsg := v }
    arrived := l.arrived + ((l.taken.drop l.arrived).take nBytes).length },
    by simp only [step, h.far_open, ↓reduceIte, hv], h.near, ?_, h.far_open, hholds,
    h.handled_complete⟩
  have hle := h.arrived_le
  simp only [List.length_take, List.length_drop]
  omega

theorem Kept.process (h : l.Kept pchMessageStart Hash ms) (count : ℕ) :
    ∃ l', l.step pchMessageStart Hash (.processMessages count) = some l' ∧
      l'.Kept pchMessageStart Hash ms := by
  have hfront : (l.far.vRecvMsg.takeWhile (·.complete)).take count <+: l.far.vRecvMsg :=
    (List.take_prefix _ _).trans (List.takeWhile_prefix _)
  refine ⟨_, rfl, h.near, h.arrived_le, h.far_open, ?_, ?_⟩
  · have hsplit := List.prefix_iff_eq_append.mp hfront
    simp only [List.append_assoc, hsplit]
    exact h.holds
  · intro msg hmsg
    rcases List.mem_append.mp hmsg with hmsg | hmsg
    · exact h.handled_complete msg hmsg
    · exact List.all_eq_true.mp List.all_takeWhile msg (List.mem_of_mem_take hmsg)

theorem Kept.step (h : l.Kept pchMessageStart Hash ms) (act : Action) :
    ∃ l', l.step pchMessageStart Hash act = some l' ∧
      l'.Kept pchMessageStart Hash (ms ++ queued [act]) := by
  cases act with
  | pushMessage m dropped sends =>
    obtain ⟨node, out, hpush, hq⟩ := CNode.pushMessage_queued h.near m dropped sends
    have hqueued : (if dropped then ms else ms ++ [m]) =
        ms ++ queued [.pushMessage m dropped sends] := by
      cases dropped <;> simp [queued]
    rw [hqueued] at hq
    exact ⟨_, by simp only [Link.step, hpush, Option.map_some], h.send _ hq⟩
  | socketSendData sends =>
    by_cases hopen : l.near.hSocket = true
    · obtain ⟨node, out, hsend, hq⟩ := CNode.socketSendData_queued h.near sends
      rw [← List.append_nil ms] at hq
      exact ⟨_, by simp only [Link.step, hopen, ↓reduceIte, hsend, Option.map_some], h.send _ hq⟩
    · refine ⟨l, by simp only [Link.step, hopen, Bool.false_eq_true, ↓reduceIte], ?_⟩
      rwa [queued, List.filterMap_cons_none rfl, List.filterMap_nil, List.append_nil]
  | receiveMsgBytes nBytes =>
    rw [queued, List.filterMap_cons_none rfl, List.filterMap_nil, List.append_nil]
    exact h.receive nBytes
  | processMessages count =>
    rw [queued, List.filterMap_cons_none rfl, List.filterMap_nil, List.append_nil]
    exact h.process count

theorem Kept.run (h : l.Kept pchMessageStart Hash ms) (acts : List Action) :
    ∃ l', run pchMessageStart Hash acts l = some l' ∧
      l'.Kept pchMessageStart Hash (ms ++ queued acts) := by
  induction acts generalizing l ms with
  | nil => exact ⟨l, rfl, by rwa [queued, List.filterMap_nil, List.append_nil]⟩
  | cons act acts ih =>
    obtain ⟨l', hstep, hkept⟩ := h.step act
    obtain ⟨l'', hrun, hkept'⟩ := ih hkept
    refine ⟨l'', by simp only [Link.run, hstep, hrun], ?_⟩
    rw [List.append_assoc] at hkept'
    simpa only [queued, ← List.filterMap_append, List.singleton_append] using hkept'

end Steps

/-- What is said of a connection over which `ms` was queued. -/
structure Framed (pchMessageStart : BitVec 32) (Hash : List Byte → Uint256) (ms : List Message)
    (l : Link) : Prop where
  taken_prefix : l.taken <+: stream pchMessageStart Hash ms
  offset_lt : ∀ data ∈ l.near.vSendMsg.head?, l.near.nSendOffset < data.length
  idle : l.near.vSendMsg = [] → l.near.nSendSize = 0 ∧ l.near.nSendOffset = 0
  /-- The complete messages are those of which all bytes have arrived. -/
  in_order : ∃ sent post, ms = sent ++ post ∧
    l.completed.map (fun msg => (msg.hdr, msg.vRecv)) =
      sent.map (fun m => (m.header pchMessageStart Hash, m.payload)) ∧
    (stream pchMessageStart Hash sent).length ≤ l.arrived ∧
    ∀ m ∈ post.head?, l.arrived < (stream pchMessageStart Hash (sent ++ [m])).length
  intact : ∀ msg ∈ l.completed,
    msg.hdr.nMessageSize.toNat = msg.vRecv.length ∧ msg.hdr.nChecksum = checksum Hash msg.vRecv
  all_of_all : l.arrived = (stream pchMessageStart Hash ms).length →
    l.completed.map (fun msg => (msg.hdr, msg.vRecv)) =
      ms.map (fun m => (m.header pchMessageStart Hash, m.payload))

variable {pchMessageStart : BitVec 32} {Hash : List Byte → Uint256} {ms : List Message} {l : Link}

theorem Kept.framed (h : l.Kept pchMessageStart Hash ms) : l.Framed pchMessageStart Hash ms := by
  obtain ⟨sent, post, hms, hcompleted, hle, hlt⟩ := h.holds.completed
  have hmap : l.completed.map (fun msg => (msg.hdr, msg.vRecv)) =
      sent.map (fun m => (m.header pchMessageStart Hash, m.payload)) := by
    rw [Link.completed, hcompleted, List.map_map]
    refine List.map_congr_left fun m _ => ?_
    rw [Function.comp_apply, m.whole_hdr, m.whole_vRecv]
  refine ⟨h.taken_prefix, h.near.offset_lt, ?_, ⟨sent, post, hms, hmap, hle, hlt⟩, ?_, ?_⟩
  · intro hnil
    refine ⟨?_, h.near.offset_zero hnil⟩
    rw [h.near.size, hnil]
    rfl
  · intro msg hmsg
    rw [Link.completed, hcompleted] at hmsg
    obtain ⟨m, -, rfl⟩ := List.mem_map.mp hmsg
    rw [m.whole_hdr, m.whole_vRecv]
    exact ⟨m.size_toNat pchMessageStart Hash, rfl⟩
  · intro hall
    cases post with
    | nil => rw [hmap, hms, List.append_nil]
    | cons m post =>
      have hm := hlt m rfl
      rw [hall, hms, ← List.singleton_append, ← List.append_assoc, stream_append,
        List.length_append] at hm
      omega

/-- However messages are queued, sent and received in pieces and taken away, no assertion
fails and the far node rebuilds the messages in their order. -/
theorem run_framed (pchMessageStart : BitVec 32) (Hash : List Byte → Uint256)
    (acts : List Action) :
    ∃ l, run pchMessageStart Hash acts init = some l ∧
      l.Framed pchMessageStart Hash (queued acts) := by
  obtain ⟨l, hrun, hkept⟩ := (init_kept pchMessageStart Hash).run acts
  exact ⟨l, hrun, hkept.framed⟩

end Link

end UmbrellaLtc.Framing
