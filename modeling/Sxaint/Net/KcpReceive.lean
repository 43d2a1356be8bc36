/-
# The receiving half of a stream

What the vendored KCP does with the segments of a datagram, as far as its receiving half goes:
`ikcp_input` with the segments that carry data, the window they must lie in, the buffer that
orders them, and `ikcp_recv`. The sending half and its timers are left out; nothing that is
received depends on them. What is not sent comes out of `send` as accepted.
-/

import Sxaint.Net.NetLoop

namespace Sxaint.Net

namespace Kcp

/-- The size of a segment's header. -/
def overhead : ℕ := 24

/-- The size of the buffer that a message is received into. -/
def recvBufSize : ℕ := 4 * 1024 * 1024

/-- The difference of two sequence numbers, as a signed number. -/
def itimediff (later earlier : UInt32) : ℤ :=
  toInt (later - earlier).toNat

/-- A segment that carries data. -/
structure Segment where
  frg : UInt8
  ts : UInt32
  sn : UInt32
  data : List UInt8
  deriving DecidableEq, Repr

/-- The members of a control block that its receiving half uses. -/
structure Receiving where
  conv : UInt32
  rcvNxt : UInt32 := 0
  rcvWnd : UInt32 := 4096
  updated : Bool := false
  /-- The segments ahead of the next one, in order. -/
  rcvBuf : List Segment := []
  rcvQueue : List Segment := []
  ackList : List (UInt32 × UInt32) := []
  deriving DecidableEq, Repr

namespace Receiving

/-- Put a segment in its place from the end of the buffer, unless it is there already. -/
def insert (segment : Segment) : List Segment → List Segment
  | [] => [segment]
  | last :: earlier =>
    if last.sn = segment.sn then last :: earlier
    else if itimediff segment.sn last.sn > 0 then segment :: last :: earlier
    else last :: insert segment earlier

/-- Move available segments from the buffer to the queue. -/
def deliver (kcp : Receiving) : List Segment → Receiving
  | [] => { kcp with rcvBuf := [] }
  | segment :: rest =>
    if segment.sn = kcp.rcvNxt ∧ kcp.rcvQueue.length < kcp.rcvWnd.toNat then
      deliver
        { kcp with rcvQueue := kcp.rcvQueue ++ [segment], rcvNxt := kcp.rcvNxt + 1 } rest
    else { kcp with rcvBuf := segment :: rest }

/-- `ikcp_parse_data` -/
def parseData (segment : Segment) (kcp : Receiving) : Receiving :=
  if itimediff segment.sn (kcp.rcvNxt + kcp.rcvWnd) ≥ 0 ∨ itimediff segment.sn kcp.rcvNxt < 0 then
    kcp
  else kcp.deliver (insert segment kcp.rcvBuf.reverse).reverse

/-- A segment with data was read from a datagram. -/
def push (segment : Segment) (kcp : Receiving) : Receiving :=
  if itimediff segment.sn (kcp.rcvNxt + kcp.rcvWnd) < 0 then
    let acked := { kcp with ackList := kcp.ackList ++ [(segment.sn, segment.ts)] }
    if itimediff segment.sn kcp.rcvNxt ≥ 0 then acked.parseData segment else acked
  else kcp

/-- The loop of `ikcp_input` over the segments of a datagram, for at most as many rounds as it
has bytes. -/
def inputLoop : ℕ → List UInt8 → Receiving → Receiving
  | 0, _, kcp => kcp
  | rounds + 1, data, kcp =>
    if data.length < overhead then kcp
    else if readU32 data 0 ≠ kcp.conv then kcp
    else
      let cmd := data.getD 4 0
      let len := readU32 data 20
      let rest := data.drop overhead
      if rest.length < len.toNat ∨ toInt len.toNat < 0 then kcp
      else if cmd ≠ 81 ∧ cmd ≠ 82 ∧ cmd ≠ 83 ∧ cmd ≠ 84 then kcp
      else
        let next :=
          if cmd = 81 then
            kcp.push ⟨data.getD 5 0, readU32 data 8, readU32 data 12, rest.take len.toNat⟩
          else kcp
        inputLoop rounds (rest.drop len.toNat) next

/-- `ikcp_input` -/
def input (data : List UInt8) (kcp : Receiving) : Receiving :=
  inputLoop data.length data kcp

/-- `ikcp_flush` forgets the acknowledgements that it sends. -/
def flush (kcp : Receiving) : Receiving :=
  if kcp.updated then { kcp with ackList := [] } else kcp

/-- `ikcp_update`, in a round in which it flushes. -/
def update (_now : UInt32) (kcp : Receiving) : Receiving :=
  flush { kcp with updated := true }

/-- The segments of the first message of the queue and what follows it. -/
def takeMessage : List Segment → List UInt8 × List Segment
  | [] => ([], [])
  | segment :: rest =>
    if segment.frg = 0 then (segment.data, rest)
    else
      let (bytes, left) := takeMessage rest
      (segment.data ++ bytes, left)

/-- `ikcp_recv` -/
def recv (kcp : Receiving) : List UInt8 × Receiving :=
  match kcp.rcvQueue with
  | [] => ([], kcp)
  | segment :: _ =>
    if segment.frg ≠ 0 ∧ kcp.rcvQueue.length < segment.frg.toNat + 1 then ([], kcp)
    else
      let (bytes, left) := takeMessage kcp.rcvQueue
      if bytes.length > recvBufSize then ([], kcp)
      else (bytes, deliver { kcp with rcvQueue := left } kcp.rcvBuf)

end Receiving

/-- The receiving half of KCP. -/
def receiving : Kcp Receiving where
  input := Receiving.input
  flush := Receiving.flush
  update := Receiving.update
  recv := Receiving.recv
  send _ kcp := (true, kcp)

end Kcp

end Sxaint.Net
