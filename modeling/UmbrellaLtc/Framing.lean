import UmbrellaLtc.Transaction

/-!
How messages are put on a connection and taken off it, from net.h, net.cpp and protocol.cpp:
the header that stands before every payload, the send queue that a socket takes in pieces, and
the received message that is filled from whatever pieces arrive. The hash behind the checksum
and the start bytes of the network are parameters.
-/

namespace UmbrellaLtc.Framing

open Codec Transaction

def MAX_SIZE : ℕ := 0x02000000

/-- `memcpy(&buf[pos], src, size)` inside a buffer that is long enough. -/
def memcpy (buf : List Byte) (pos : ℕ) (src : List Byte) : List Byte :=
  buf.take pos ++ src ++ buf.drop (pos + src.length)

theorem memcpy_append (pre old post src : List Byte) (h : src.length = old.length) :
    memcpy (pre ++ old ++ post) pre.length src = pre ++ src ++ post := by
  have hlen : pre.length + src.length = (pre ++ old).length := by simp [h]
  rw [memcpy, hlen, List.drop_left, List.append_assoc pre old post, List.take_left]

/-- `strncpy(pch, psz, n)`: the string up to its end, filled up with zeros. -/
def strncpy (n : ℕ) (psz : List Byte) : List Byte :=
  let s := (psz.takeWhile (· ≠ 0)).take n
  s ++ List.replicate (n - s.length) 0

/-- `vch.resize(n)` of a stream that was not read from. -/
def resize (vch : List Byte) (n : ℕ) : List Byte :=
  vch.take n ++ List.replicate (n - vch.length) 0

/-! The message header. -/

/-- The character arrays are numbers whose lowest byte is the first character. -/
structure CMessageHeader where
  pchMessageStart : BitVec 32
  pchCommand : BitVec 96
  nMessageSize : BitVec 32
  nChecksum : BitVec 32
deriving DecidableEq

namespace CMessageHeader

def COMMAND_SIZE : ℕ := 12
def MESSAGE_SIZE_OFFSET : ℕ := 16
def CHECKSUM_OFFSET : ℕ := 20
def HEADER_SIZE : ℕ := 24

/-- The default constructor. -/
def empty (pchMessageStart : BitVec 32) : CMessageHeader where
  pchMessageStart := pchMessageStart
  pchCommand := 0x0100
  nMessageSize := -1
  nChecksum := 0

theorem empty_bound (pchMessageStart : BitVec 32) (h : false = true) :
    0 ≤ (empty pchMessageStart).nMessageSize.toNat := by cases h

/-- The constructor from a command and a size. -/
def make (pchMessageStart : BitVec 32) (pszCommand : List Byte) (nMessageSizeIn : BitVec 32) :
    CMessageHeader where
  pchMessageStart := pchMessageStart
  pchCommand := BitVec.ofNat 96 (ofLeBytes (strncpy COMMAND_SIZE pszCommand))
  nMessageSize := nMessageSizeIn
  nChecksum := 0

theorem four_bytes : 32 = 8 * 4 := rfl

theorem twelve_bytes : 96 = 8 * 12 := rfl

def codec : Codec CMessageHeader :=
  ((bits 4 32 four_bytes).pair ((bits 12 96 twelve_bytes).pair
    ((bits 4 32 four_bytes).pair (bits 4 32 four_bytes)))).iso
    (fun p => ⟨p.1, p.2.1, p.2.2.1, p.2.2.2⟩)
    (fun h => (h.pchMessageStart, h.pchCommand, h.nMessageSize, h.nChecksum))
    (fun _ => rfl) (fun _ => rfl)

@[simp] theorem codec_write_length (h : CMessageHeader) :
    (codec.write h).length = HEADER_SIZE := codec.write_length h

theorem codec_read_write (h : CMessageHeader) (rest : List Byte) :
    codec.read (codec.write h ++ rest) = some (h, rest) :=
  codec.read_write h rest ⟨trivial, trivial, trivial, trivial⟩

/-- The bytes before the size, which EndMessage leaves as BeginMessage wrote them. -/
def startBytes (h : CMessageHeader) : List Byte :=
  leBytes 4 h.pchMessageStart.toNat ++ leBytes 12 h.pchCommand.toNat

theorem startBytes_length (h : CMessageHeader) :
    h.startBytes.length = MESSAGE_SIZE_OFFSET := by
  simp [startBytes, MESSAGE_SIZE_OFFSET]

theorem codec_write (h : CMessageHeader) :
    codec.write h = h.startBytes ++ leBytes 4 h.nMessageSize.toNat ++
      leBytes 4 h.nChecksum.toNat := by
  simp [codec, iso, pair, bits, startBytes]

end CMessageHeader

open CMessageHeader

/-! The receiving half. -/

section Receiving

variable (pchMessageStart : BitVec 32)

/-- A message that is being received. While its header is open there is no data yet. -/
structure CNetMessage where
  in_data : Bool
  hdrbuf : List Byte
  hdr : CMessageHeader
  nHdrPos : ℕ
  vRecv : List Byte
  nDataPos : ℕ
  header_open : in_data = false → nHdrPos < HEADER_SIZE ∧ nDataPos = 0
  data_bound : in_data = true → nDataPos ≤ hdr.nMessageSize.toNat

namespace CNetMessage

/-- The constructor. -/
def new : CNetMessage where
  in_data := false
  hdrbuf := List.replicate HEADER_SIZE 0
  hdr := .empty pchMessageStart
  nHdrPos := 0
  vRecv := []
  nDataPos := 0
  header_open _ := ⟨by decide, rfl⟩
  data_bound := empty_bound pchMessageStart

def complete (msg : CNetMessage) : Bool :=
  msg.in_data && msg.hdr.nMessageSize.toNat == msg.nDataPos

/-- CNetMessage::readHeader: the message and the number of bytes handled, or nothing where
the source returns -1. -/
def readHeader (msg : CNetMessage) (hopen : msg.in_data = false) (pch : List Byte) :
    Option (CNetMessage × ℕ) :=
  let nRemaining := HEADER_SIZE - msg.nHdrPos
  let nCopy := min nRemaining pch.length
  let hdrbuf := memcpy msg.hdrbuf msg.nHdrPos (pch.take nCopy)
  let nHdrPos := msg.nHdrPos + nCopy
  if hexit : nHdrPos < HEADER_SIZE then
    some ({ msg with
      hdrbuf := hdrbuf
      nHdrPos := nHdrPos
      header_open := fun h => ⟨hexit, (msg.header_open h).2⟩ }, nCopy)
  else
    match CMessageHeader.codec.read hdrbuf with
    | none => none
    | some (hdr, hdrbuf) =>
      if MAX_SIZE < hdr.nMessageSize.toNat then none
      else
        some ({ in_data := true
                hdrbuf := hdrbuf
                hdr := hdr
                nHdrPos := nHdrPos
                vRecv := resize msg.vRecv hdr.nMessageSize.toNat
                nDataPos := msg.nDataPos
                header_open := fun h => by cases h
                data_bound := fun _ => by rw [(msg.header_open hopen).2]; exact Nat.zero_le _ },
              nCopy)

def readData (msg : CNetMessage) (hdata : msg.in_data = true) (pch : List Byte) :
    CNetMessage × ℕ :=
  let nRemaining := msg.hdr.nMessageSize.toNat - msg.nDataPos
  let nCopy := min nRemaining pch.length
  ({ msg with
      vRecv := memcpy msg.vRecv msg.nDataPos (pch.take nCopy)
      nDataPos := msg.nDataPos + nCopy
      header_open := fun h => by rw [hdata] at h; cases h
      data_bound := fun h => by
        have hle := msg.data_bound h
        show msg.nDataPos + min (msg.hdr.nMessageSize.toNat - msg.nDataPos) pch.length ≤ _
        omega }, nCopy)

/-- The call made by ReceiveMsgBytes, by the phase of the message. -/
def absorb (msg : CNetMessage) (pch : List Byte) : Option (CNetMessage × ℕ) :=
  if h : msg.in_data = false then msg.readHeader h pch
  else some (msg.readData (Bool.eq_true_of_not_eq_false h) pch)

/-- An incomplete message takes at least one byte, so that the loop gets on. -/
theorem absorb_pos {msg msg' : CNetMessage} {pch : List Byte} {handled : ℕ}
    (hmsg : msg.complete = false) (hpch : pch ≠ []) (h : msg.absorb pch = some (msg', handled)) :
    0 < handled := by
  have hlen : 0 < pch.length := List.length_pos_iff.mpr hpch
  unfold absorb at h
  split at h
  · next hopen =>
    have hpos := (msg.header_open hopen).1
    have hcopy : handled = min (HEADER_SIZE - msg.nHdrPos) pch.length := by
      simp only [readHeader] at h
      split at h
      · simp only [Option.some.injEq, Prod.mk.injEq] at h
        exact h.2.symm
      · split at h
        · cases h
        · split at h
          · cases h
          · simp only [Option.some.injEq, Prod.mk.injEq] at h
            exact h.2.symm
    omega
  · next hopen =>
    have hdata : msg.in_data = true := Bool.eq_true_of_not_eq_false hopen
    have hle := msg.data_bound hdata
    have hne : msg.hdr.nMessageSize.toNat ≠ msg.nDataPos := by
      intro heq
      simp [complete, hdata, heq] at hmsg
    simp only [readData, Option.some.injEq, Prod.mk.injEq] at h
    omega

end CNetMessage

/-- The message that the next byte belongs to, with those before it: the last one, or a new
one where there is none or the last is complete. -/
def current (vRecvMsg : List CNetMessage) : List CNetMessage × CNetMessage :=
  match vRecvMsg.getLast? with
  | none => (vRecvMsg, .new pchMessageStart)
  | some msg =>
    if msg.complete then (vRecvMsg, .new pchMessageStart) else (vRecvMsg.dropLast, msg)

theorem current_incomplete (vRecvMsg : List CNetMessage) :
    (current pchMessageStart vRecvMsg).2.complete = false := by
  unfold current
  split
  · rfl
  · split
    · rfl
    · next h => simpa using h

/-- CNode::ReceiveMsgBytes, on the received messages alone; nothing where it returns false. -/
def receiveMsgBytes (vRecvMsg : List CNetMessage) (pch : List Byte) :
    Option (List CNetMessage) :=
  if _hpch : pch = [] then some vRecvMsg
  else
    match _habsorb : (current pchMessageStart vRecvMsg).2.absorb pch with
    | none => none
    | some (msg, handled) =>
      receiveMsgBytes ((current pchMessageStart vRecvMsg).1 ++ [msg]) (pch.drop handled)
termination_by pch.length
decreasing_by
  have hpos := CNetMessage.absorb_pos (current_incomplete pchMessageStart vRecvMsg) _hpch
    _habsorb
  have hlen : 0 < pch.length := List.length_pos_iff.mpr _hpch
  rw [List.length_drop]
  omega

end Receiving

/-! The sending half. -/

/-- What a call of `send` comes back with: bytes taken, possibly none; an error that only says
to try later; any other error, and whether the lock on the received messages is free then. -/
inductive SendReturn where
  | wrote (nBytes : ℕ)
  | wouldBlock
  | failed (lockRecv : Bool)

/-- A node, as far as its queues and its socket go. `hSocket` says whether the socket is valid. -/
structure CNode where
  hSocket : Bool
  fDisconnect : Bool
  ssSend : List Byte
  nSendSize : BitVec 64
  nSendOffset : ℕ
  vSendMsg : List (List Byte)
  vRecvMsg : List CNetMessage

namespace CNode

def new : CNode where
  hSocket := true
  fDisconnect := false
  ssSend := []
  nSendSize := 0
  nSendOffset := 0
  vSendMsg := []
  vRecvMsg := []

def closeSocketDisconnect (node : CNode) (lockRecv : Bool) : CNode :=
  { node with
    hSocket := false
    fDisconnect := true
    vRecvMsg := if lockRecv then [] else node.vRecvMsg }

/-- `send` on the node's socket: it takes no more than it is given, and fails once the socket
is closed. -/
def send (node : CNode) (len : ℕ) : SendReturn → SendReturn
  | .wrote nBytes => if node.hSocket then .wrote (min nBytes len) else .failed true
  | .wouldBlock => if node.hSocket then .wouldBlock else .failed true
  | .failed lockRecv => .failed lockRecv

/-- The loop of SocketSendData from the messages `it` on: the node, the bytes that the socket
took, and the messages at which the loop stopped. Each call of `send` uses up one entry of
`sends`. Nothing where the assertion fails. -/
def sendLoop : List (List Byte) → List SendReturn → CNode →
    Option (CNode × List Byte × List (List Byte))
  | [], _, node => some (node, [], [])
  | data :: it, sends, node =>
    -- assert(data.size() > pnode->nSendOffset)
    if data.length ≤ node.nSendOffset then none
    else
      let rest := data.drop node.nSendOffset
      match node.send rest.length (sends.headD .wouldBlock) with
      | .wrote nBytes =>
        if nBytes = 0 then some (node, [], data :: it)
        else if node.nSendOffset + nBytes = data.length then
          (sendLoop it sends.tail
            { node with
              nSendOffset := 0
              nSendSize := node.nSendSize - BitVec.ofNat 64 data.length }).map
            fun r => (r.1, rest.take nBytes ++ r.2.1, r.2.2)
        else
          some ({ node with nSendOffset := node.nSendOffset + nBytes }, rest.take nBytes, data :: it)
      | .wouldBlock => some (node, [], data :: it)
      | .failed lockRecv => some (node.closeSocketDisconnect lockRecv, [], data :: it)

/-- SocketSendData: the node and the bytes that the socket took. -/
def socketSendData (node : CNode) (sends : List SendReturn) : Option (CNode × List Byte) :=
  match sendLoop node.vSendMsg sends node with
  | none => none
  | some (node, out, it) =>
    -- assert(pnode->nSendOffset == 0), assert(pnode->nSendSize == 0)
    if it = [] ∧ ¬(node.nSendOffset = 0 ∧ node.nSendSize = 0) then none
    else some ({ node with vSendMsg := it }, out)

section Messages

variable (pchMessageStart : BitVec 32) (Hash : List Byte → Uint256)

def beginMessage (node : CNode) (pszCommand : List Byte) : Option CNode :=
  -- assert(ssSend.size() == 0)
  if node.ssSend ≠ [] then none
  else some { node with ssSend := codec.write (.make pchMessageStart pszCommand 0) }

def abortMessage (node : CNode) : CNode := { node with ssSend := [] }

/-- EndMessage. `dropped` is the draw of -dropmessagestest. -/
def endMessage (node : CNode) (dropped : Bool) (sends : List SendReturn) :
    Option (CNode × List Byte) :=
  if dropped then some (node.abortMessage, [])
  else if node.ssSend = [] then some (node, [])
  else
    let nSize : BitVec 32 := BitVec.ofNat 32 node.ssSend.length - BitVec.ofNat 32 HEADER_SIZE
    let ssSend := memcpy node.ssSend MESSAGE_SIZE_OFFSET (leBytes 4 nSize.toNat)
    let hash := Hash (ssSend.drop HEADER_SIZE)
    let nChecksum : BitVec 32 := hash.setWidth 32
    -- assert(ssSend.size () >= CMessageHeader::CHECKSUM_OFFSET + sizeof(nChecksum))
    if ssSend.length < CHECKSUM_OFFSET + 4 then none
    else
      let data := memcpy ssSend CHECKSUM_OFFSET (leBytes 4 nChecksum.toNat)
      let queued := { node with
        ssSend := []
        nSendSize := node.nSendSize + BitVec.ofNat 64 data.length
        vSendMsg := node.vSendMsg ++ [data] }
      -- if the write queue was empty, an optimistic write
      if node.vSendMsg = [] then queued.socketSendData sends else some (queued, [])

/-- PushMessage, with the arguments as the bytes that they are written as. -/
def pushMessage (node : CNode) (pszCommand payload : List Byte) (dropped : Bool)
    (sends : List SendReturn) : Option (CNode × List Byte) :=
  match node.beginMessage pchMessageStart pszCommand with
  | none => none
  | some node => endMessage Hash { node with ssSend := node.ssSend ++ payload } dropped sends

end Messages

end CNode

end UmbrellaLtc.Framing
