/-
# One stream between two transports

The calls of `sendChunk` on one stream and the network thread of the other side. A call puts
the size of its payload in front of it and hands both to the stream in pieces, under the
mutex of the stream. The network thread appends what it gets from the stream to a buffer and
takes frames off its front. In between, the stream delivers the bytes it was given in order
and once; how many of them it delivers at a time is open.
-/

import Sxaint.Bytes.Block
import Sxaint.Bytes.Framing
import Sxaint.Bytes.LittleEndian
import Sxaint.Machine.Mutex
import Sxaint.Machine.Pool
import Sxaint.Machine.Run

namespace Sxaint.Net

open Transition

/-- The number of bytes handed to the stream at once, at most. -/
def maxSendSize : ℤ :=
  128 * 1024

theorem toNat_maxSendSize : maxSendSize.toNat = 131072 := rfl

/-- A payload with its size in front. -/
def frame (rawPayload : List UInt8) : List UInt8 :=
  LittleEndian.encode 4 (UInt32.ofNat rawPayload.length).toNat ++ rawPayload

/-- A size as an `int`. -/
def toInt (size : ℕ) : ℤ :=
  Int.bmod size (2 ^ 32)

/-- The size of a payload and of its frame fit in an `int`. -/
def Sizable (rawPayload : List UInt8) : Prop :=
  rawPayload.length + 4 < 2 ^ 31

instance (rawPayload : List UInt8) : Decidable (Sizable rawPayload) :=
  inferInstanceAs (Decidable (_ < _))

theorem length_frame (rawPayload : List UInt8) :
    (frame rawPayload).length = rawPayload.length + 4 := by
  rw [frame, List.length_append, LittleEndian.length_encode, Nat.add_comm]

/-- A size below the sign bit is kept. -/
theorem toInt_of_lt {size : ℕ} (fits : size < 2 ^ 31) : toInt size = size := by
  unfold toInt
  apply Int.bmod_eq_of_le_mul_two
  · omega
  · omega

theorem toInt_length_frame {rawPayload : List UInt8} (sizable : Sizable rawPayload) :
    toInt (frame rawPayload).length = (frame rawPayload).length := by
  apply toInt_of_lt
  rw [length_frame]
  exact sizable

/-- What the loop over `stream_buffer` finds. -/
inductive Parsed
  | /-- The frame is not there as a whole. -/
    more
  | frame (finalData rest : List UInt8)
  | /-- The frame is copied from beyond the end of the buffer. -/
    overrun
  deriving DecidableEq, Repr

/-- One round of the loop over `stream_buffer`. The sum of the sizes is computed in 32
bits. -/
def parse (streamBuffer : List UInt8) : Parsed :=
  if streamBuffer.length ≥ 4 then
    let frameLength := UInt32.ofNat (LittleEndian.decode (streamBuffer.take 4))
    if streamBuffer.length ≥ (4 + frameLength).toNat then
      if streamBuffer.length < 4 + frameLength.toNat then .overrun
      else
        .frame (Buffer.block streamBuffer 4 frameLength.toNat)
          (streamBuffer.drop (4 + frameLength.toNat))
    else .more
  else .more

/-- Where a call of `sendChunk` is. -/
inductive SendChunkPc
  | /-- Before the mutex of the stream is locked. -/
    lock
  | /-- In the loop over the pieces. -/
    send (sent : ℕ)
  | /-- Before the stream is flushed and the mutex unlocked. -/
    flush
  | returned
  deriving DecidableEq, Repr

/-- A call of `sendChunk`. -/
structure SendChunkCall where
  rawPayload : List UInt8
  pc : SendChunkPc := .lock
  deriving DecidableEq, Repr

/-- Where the network thread of the other side is. -/
inductive ReadPc
  | /-- Before the next read from the stream. -/
    reading
  | /-- In the loop over the buffer. -/
    parsing
  deriving DecidableEq, Repr

/-- A stream with its two sides. -/
structure Link where
  /-- The calls of `sendChunk` in the order in which they were made. -/
  calls : List SendChunkCall := []
  kcpMutex : Option ℕ := none
  /-- The bytes that the stream has accepted so far. -/
  accepted : List UInt8 := []
  /-- The number of bytes that the stream has delivered so far. -/
  delivered : ℕ := 0
  streamBuffer : List UInt8 := []
  net : ReadPc := .reading
  /-- The payloads passed to `on_received_` so far. -/
  received : List (List UInt8) := []
  /-- The calls that have taken the mutex, in that order, with their payloads. -/
  order : List (ℕ × List UInt8) := []
  fault : Bool := false
  deriving DecidableEq, Repr

/-- A step of one of the threads. -/
inductive LinkEvent
  | /-- A thread calls `sendChunk`. -/
    call (rawPayload : List UInt8)
  | /-- A call takes its next step; `ok` tells whether the stream accepts the piece, if the
    step hands it one. -/
    sendChunk (call : ℕ) (ok : Bool)
  | /-- The network thread reads a number of bytes from the stream. -/
    recv (size : ℕ)
  | /-- The network thread goes round the loop over its buffer. -/
    parse
  deriving DecidableEq, Repr

namespace Link

/-- One step of a call of `sendChunk`. -/
def sendChunkStep (index : ℕ) (call : SendChunkCall) (ok : Bool) (s : Link) :
    Option (SendChunkPc × Link) :=
  let totalSize := toInt (frame call.rawPayload).length
  match call.pc with
  | .lock =>
    if s.kcpMutex = none then
      some (.send 0,
        { s with kcpMutex := some index, order := s.order ++ [(index, call.rawPayload)] })
    else none
  | .send sent =>
    if (sent : ℤ) < totalSize then
      let toSend := (min maxSendSize (totalSize - sent)).toNat
      if ok then
        some (.send (sent + toSend),
          { s with accepted := s.accepted ++ Buffer.block (frame call.rawPayload) sent toSend })
      else some (.flush, s)
    else some (.flush, s)
  | .flush => some (.returned, { s with kcpMutex := none })
  | .returned => none

/-- One round of the loop over the buffer. -/
def parseStep (s : Link) : Link :=
  match parse s.streamBuffer with
  | .more => { s with net := .reading }
  | .frame finalData rest =>
    { s with streamBuffer := rest, received := s.received ++ [finalData] }
  | .overrun => { s with fault := true }

/-- One step. -/
def step (event : LinkEvent) (s : Link) : Option Link :=
  if s.fault then none
  else
    match event with
    | .call rawPayload => some { s with calls := s.calls ++ [{ rawPayload := rawPayload }] }
    | .sendChunk index ok =>
      match s.calls[index]? with
      | none => none
      | some call =>
        (sendChunkStep index call ok s).map fun (next, s) =>
          { s with calls := s.calls.set index { call with pc := next } }
    | .recv size =>
      if s.net = .reading ∧ 0 < size ∧ s.delivered + size ≤ s.accepted.length then
        some
          { s with
            streamBuffer := s.streamBuffer ++ Buffer.block s.accepted s.delivered size
            delivered := s.delivered + size
            net := .parsing }
      else none
    | .parse => if s.net = .parsing then some s.parseStep else none

/-- The machine of a stream on which nothing was sent yet. -/
def machine : Machine Link LinkEvent where
  init := {}
  step := step

end Link

end Sxaint.Net
