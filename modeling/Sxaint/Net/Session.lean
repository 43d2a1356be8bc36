/-
# A session and its threads

The members of a `Session` together with the threads that use them: the network
thread, the thread that called `sendFile` or `recvFile`, and the tasks of the
pool. A task is its captured arguments and a program counter. Each counter value
is a point between two accesses to shared members, so that one step of a thread
is one such access and every interleaving of the program is an order of steps.

Memory is modelled as far as spans need it. A mapped view has a serial number
that is never used again, so that a span into a view that was unmapped is
recognizably dangling. An access outside its vector or through a dangling span
is recorded in `fault`. After a dangling span or a missing byte the model takes no
further step. A completion bit that does not exist is different: the thread goes on
with whatever it found there, and so does the model.
-/

import Sxaint.Core.Chunker
import Sxaint.Core.Compressor
import Sxaint.Core.Crypto
import Sxaint.Core.Manifest
import Sxaint.Core.Metrics
import Sxaint.Core.Path
import Sxaint.Net.Protocol

namespace Sxaint.Net

open Sxaint.Core

/-- What the program uses and does not contain. -/
structure Platform where
  ssl : OpenSSL
  codecs : CodecLibrary
  host : Host

/-- A span over a mapped view. -/
structure Span where
  mapping : ℕ := 0
  offset : ℕ := 0
  size : ℕ := 0
  deriving DecidableEq, Repr

/-- A mapped view and its current contents. -/
structure Mapping where
  serial : ℕ
  bytes : List UInt8
  deriving DecidableEq, Repr

/-- The bytes a span covers, if the view it points into is the mapped one. -/
def Span.read (span : Span) (fileMapper : Option Mapping) : Option (List UInt8) :=
  if span.size = 0 then some []
  else
    match fileMapper with
    | none => none
    | some view =>
      if view.serial = span.mapping ∧ span.offset + span.size ≤ view.bytes.length then
        some (Buffer.block view.bytes span.offset span.size)
      else none

/-- The view after new contents were written through a span. -/
def Span.write (span : Span) (contents : List UInt8) (fileMapper : Option Mapping) :
    Option Mapping :=
  if span.size = 0 then fileMapper
  else
    fileMapper.map fun view =>
      { view with bytes := Buffer.overwrite view.bytes span.offset contents }

/-- Where a task running `processHandshake` is. -/
inductive HandshakePc
  | /-- Before the section under the manifest lock. -/
    enter
  | /-- The lock is released and the handshake accepted. -/
    prepare
  | /-- Before the name is converted to a path. -/
    convert
  | /-- In the loop that looks for a free name. -/
    rename (stem ext : List UInt8) (counter : ℕ) (target : Path)
  | /-- Before the scalar fields of the manifest are assigned. -/
    describe (target : Path)
  | /-- Before the completion bits are assigned. -/
    allot (target : Path)
  | /-- Before the counter of received chunks is reset. -/
    resetCount (target : Path)
  | /-- Before the file is created. -/
    preallocate (target : Path)
  | /-- Before the file is mapped. -/
    mapWrite (target : Path)
  | /-- Mapped, before the view is stored in the session. -/
    publish (view : Span)
  | /-- Before the acknowledgement is packed and sent. -/
    acknowledge
  | /-- Returned from inside the locked section after an answer. -/
    answered
  | /-- Returned at the end, after the acknowledgement. -/
    accepted
  | /-- Left by an exception, which the task logs. -/
    threw
  deriving DecidableEq, Repr

/-- Where a task running `processChunk` is. -/
inductive ChunkPc
  | /-- Before the checks against the view. -/
    enter
  | /-- The target is fixed; before decryption. -/
    decrypt (target : Span)
  | /-- Before decompression writes into the target. -/
    decompress (target : Span) (decrypted : List UInt8)
  | /-- Before the checksum of the target is compared. -/
    check (target : Span)
  | /-- Before the completion bit is set under the lock. -/
    mark
  | /-- Before the bytes are counted. -/
    addBytes
  | /-- Before the chunk is counted. -/
    count
  | /-- Before the progress callback. -/
    report (received : UInt32)
  | /-- Before the count is compared with the expected one. -/
    compare (received : UInt32)
  | /-- Returned or left by an exception before the mark. -/
    dropped
  | /-- Returned at the end; `last` tells whether this task set `trans_complete_`. -/
    stored (received : UInt32) (last : Bool)
  deriving DecidableEq, Repr

/-- What the sender's loop captures for one chunk task. -/
structure SendJob where
  strategy : Strategy
  chunkId : UInt32
  size : UInt32
  crc32 : UInt32
  data : Span
  deriving DecidableEq, Repr

/-- Where a chunk task of the sender is. -/
inductive SendPc
  | compress
  | encrypt (compressed : List UInt8)
  | send (wireBuffer : List UInt8)
  | count
  | addBytes
  | sent
  | failed
  deriving DecidableEq, Repr

/-- A task of the thread pool, queued or running. -/
inductive Task
  | handshake (hs : Handshake) (pc : HandshakePc)
  | recvChunk (header : ChunkWireHeader) (payload : List UInt8) (pc : ChunkPc)
  | sendChunk (job : SendJob) (pc : SendPc)
  deriving DecidableEq, Repr

/-- Whether the network thread is between two messages or has still to publish
the answer it is handling. -/
inductive NetPc
  | idle
  | publishAcked
  deriving DecidableEq, Repr

/-- What `sendFile` works on once its file is mapped. -/
structure SendArgs where
  pin : UInt32
  fileName : List UInt8
  fileSize : UInt64
  fileView : Span
  deriving DecidableEq, Repr

/-- Where the thread that called `sendFile` or `recvFile` is. -/
inductive MainPc
  | deriveKey (args : SendArgs)
  | sendHandshake (args : SendArgs)
  | waitAck (args : SendArgs)
  | checkRejected (args : SendArgs)
  | slice (args : SendArgs)
  | submit (args : SendArgs) (strategy : Strategy) (total : UInt32) (rest : List Chunk)
  | drain (total : UInt32)
  | collect
  | receiving
  | returned
  deriving DecidableEq, Repr

/-- The arguments of one call of `Crypto::encrypt`, as AES-GCM sees them. -/
structure EncryptCall where
  key : List UInt8
  iv : List UInt8
  plaintext : List UInt8
  deriving DecidableEq, Repr

/-- Whether an access has had no defined result. -/
inductive Fault
  | none
  | /-- A completion bit outside of the vector was looked at; the thread went on. -/
    index
  | /-- The session takes no further step. -/
    crash
  deriving DecidableEq, Repr

/-- A session, its threads and what it has done to the outside. -/
structure Endpoint where
  aesKey : List UInt8 := []
  fileMapper : Option Mapping := none
  outputDir : Path := ⟨[]⟩
  currentFilename : List UInt8 := []
  writeView : Span := {}
  handshakeRejected : Bool := false
  expectedPin : UInt32 := 0
  chunksRecv : UInt32 := 0
  expectedChunks : UInt32 := 0
  transComplete : Bool := false
  chunksSent : UInt32 := 0
  handshakeAcked : Bool := false
  resumeBitfield : List Bool := []
  currentManifest : TransferManifest := {}
  metrics : Option TransferMetrics := none
  onProgress : Bool := false
  /-- The pool's tasks in the order of submission, finished ones included. -/
  tasks : List Task := []
  net : NetPc := .idle
  main : MainPc := .receiving
  /-- The files that exist. -/
  disk : List Path := []
  /-- The serial number of the next view or metrics object. -/
  nextSerial : ℕ := 1
  /-- The frames handed to the transport, with their streams. -/
  outbox : List (UInt32 × List UInt8) := []
  /-- The percentages passed to the progress callback. -/
  reports : List Int := []
  /-- The calls of `Crypto::encrypt` so far. -/
  encryptCalls : List EncryptCall := []
  fault : Fault := .none
  deriving DecidableEq, Repr

namespace Endpoint

/-- An access with no defined result, after which nothing follows. -/
def crash (w : Endpoint) : Endpoint :=
  { w with fault := .crash }

/-- An access to a completion bit that does not exist. The bits that exist stay as they are. -/
def stray (w : Endpoint) : Endpoint :=
  { w with fault := .index }

/-- Hand a frame to the transport. -/
def sendChunk (w : Endpoint) (payload : List UInt8) (stream : UInt32) : Endpoint :=
  { w with outbox := w.outbox ++ [(stream, payload)] }

/-- Queue a task in the pool. -/
def submit (w : Endpoint) (task : Task) : Endpoint :=
  { w with tasks := w.tasks ++ [task] }

/-- Call the progress callback, if there are metrics and a callback. -/
def reportProgress (w : Endpoint) : Endpoint :=
  match w.metrics with
  | some metrics =>
    if w.onProgress then { w with reports := w.reports ++ [metrics.getProgressPer] } else w
  | none => w

/-- Reporting progress changes the reports only. -/
theorem reportProgress_eq (w : Endpoint) :
    w.reportProgress = { w with reports := w.reportProgress.reports } := by
  rw [reportProgress]
  split
  · split <;> rfl
  · rfl

end Endpoint

end Sxaint.Net
