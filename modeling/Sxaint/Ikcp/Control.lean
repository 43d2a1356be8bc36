/-
# A control block

The control block of the vendored KCP with its queues, and the calls of the thread that uses it:
the set-up, `ikcp_send` and `ikcp_recv`. The pluggable congestion control is never installed and is
left out, as are logging and the failure of an allocation. What the callback was given so far is
recorded, and so are the items that were numbered and those that were put in order.
-/

import Sxaint.Ikcp.Wire

namespace Sxaint.Ikcp

open Sxaint.Net (toInt)
open Sxaint.Net.Kcp (overhead itimediff)

/-- `IKCP_WND_RCV` -/
def wndRcv : ℕ := 128

/-- `IKCP_RTO_MAX` -/
def rtoMax : UInt32 := 60000

/-- `IKCP_THRESH_MIN` -/
def threshMin : UInt32 := 2

/-- `IKCP_PROBE_INIT` -/
def probeInit : UInt32 := 5000

/-- `IKCP_PROBE_LIMIT` -/
def probeLimit : UInt32 := 120000

/-- `_imin_` -/
theorem toNat_min (a b : UInt32) : (min a b).toNat = min a.toNat b.toNat := by
  rw [show min a b = if a ≤ b then a else b from rfl, Nat.min_def]
  split <;> rename_i h <;> rw [UInt32.le_iff_toNat_le] at h
  · rw [if_pos h]
  · rw [if_neg h]

/-- `_imax_` -/
theorem toNat_max (a b : UInt32) : (max a b).toNat = max a.toNat b.toNat := by
  rw [show max a b = if a ≤ b then b else a from rfl, Nat.max_def]
  split <;> rename_i h <;> rw [UInt32.le_iff_toNat_le] at h
  · rw [if_pos h]
  · rw [if_neg h]

/-- `_ibound_` -/
def ibound (lower middle upper : UInt32) : UInt32 :=
  min (max lower middle) upper

/-- `IKCPSEG` -/
structure Seg where
  conv : UInt32 := 0
  cmd : UInt8 := 0
  frg : UInt8 := 0
  wnd : UInt32 := 0
  ts : UInt32 := 0
  sn : UInt32 := 0
  una : UInt32 := 0
  resendts : UInt32 := 0
  rto : UInt32 := 0
  fastack : UInt32 := 0
  xmit : UInt32 := 0
  data : List UInt8 := []
  deriving DecidableEq, Repr

/-- What a segment carries for the other side: the number of fragments behind it, and its data. -/
abbrev Item :=
  UInt8 × List UInt8

namespace Seg

def item (seg : Seg) : Item :=
  (seg.frg, seg.data)

/-- A segment without what is written to it when it is sent or skipped. -/
def untimed (seg : Seg) : Seg :=
  { seg with wnd := 0, ts := 0, una := 0, resendts := 0, rto := 0, fastack := 0, xmit := 0 }

/-- The segment in a datagram. The window is cut to 16 bits. -/
def packet (seg : Seg) : Packet where
  conv := seg.conv
  cmd := seg.cmd
  frg := seg.frg
  wnd := seg.wnd.toUInt16
  ts := seg.ts
  sn := seg.sn
  una := seg.una
  data := seg.data

end Seg

/-- `IKCPCB` -/
structure Ikcpcb where
  conv : UInt32
  mtu : UInt32 := 1400
  mss : UInt32 := 1376
  state : UInt32 := 0
  sndUna : UInt32 := 0
  sndNxt : UInt32 := 0
  rcvNxt : UInt32 := 0
  ssthresh : UInt32 := 2
  rxRttval : Int32 := 0
  rxSrtt : Int32 := 0
  rxRto : Int32 := 200
  rxMinrto : Int32 := 100
  sndWnd : UInt32 := 32
  rcvWnd : UInt32 := 128
  rmtWnd : UInt32 := 128
  cwnd : UInt32 := 0
  /-- The bit `IKCP_ASK_SEND` of `probe`. -/
  askSend : Bool := false
  /-- The bit `IKCP_ASK_TELL` of `probe`. -/
  askTell : Bool := false
  current : UInt32 := 0
  interval : UInt32 := 100
  tsFlush : UInt32 := 100
  xmit : UInt32 := 0
  nodelay : UInt32 := 0
  updated : Bool := false
  tsProbe : UInt32 := 0
  probeWait : UInt32 := 0
  deadLink : UInt32 := 20
  incr : UInt32 := 0
  sndQueue : List Seg := []
  rcvQueue : List Seg := []
  sndBuf : List Seg := []
  rcvBuf : List Seg := []
  /-- The sequence numbers and times to acknowledge. -/
  ackList : List (UInt32 × UInt32) := []
  fastresend : Int32 := 0
  fastlimit : Int32 := 5
  nocwnd : Bool := false
  stream : Bool := false
  /-- The datagrams that the callback was given so far. -/
  outputs : List (List UInt8) := []
  /-- The items that were given a number so far, in order. -/
  numbered : List Item := []
  /-- The items that were moved to `rcv_queue` so far, in order. -/
  ordered : List Item := []
  deriving DecidableEq, Repr

namespace Ikcpcb

/-- `ikcp_create` -/
def create (conv : UInt32) : Ikcpcb :=
  { conv := conv }

/-- `ikcp_setmtu` -/
def setmtu (mtu : Int32) (kcp : Ikcpcb) : ℤ × Ikcpcb :=
  if mtu < 50 ∨ mtu < Int32.ofNat overhead then (-1, kcp)
  else (0, { kcp with mtu := mtu.toUInt32, mss := mtu.toUInt32 - UInt32.ofNat overhead })

/-- `ikcp_nodelay`. What is negative is left as it is. -/
def setNodelay (nodelay interval resend nc : Int32) (kcp : Ikcpcb) : Ikcpcb :=
  { kcp with
    nodelay := if nodelay ≥ 0 then nodelay.toUInt32 else kcp.nodelay
    rxMinrto := if nodelay ≥ 0 then if nodelay ≠ 0 then 30 else 100 else kcp.rxMinrto
    interval :=
      if interval ≥ 0 then
        if interval > 5000 then 5000 else if interval < 10 then 10 else interval.toUInt32
      else kcp.interval
    fastresend := if resend ≥ 0 then resend else kcp.fastresend
    nocwnd := if nc ≥ 0 then decide (nc ≠ 0) else kcp.nocwnd }

/-- `ikcp_wndsize` -/
def wndsize (sndwnd rcvwnd : Int32) (kcp : Ikcpcb) : Ikcpcb :=
  { kcp with
    sndWnd := if sndwnd > 0 then sndwnd.toUInt32 else kcp.sndWnd
    rcvWnd := if rcvwnd > 0 then max rcvwnd.toUInt32 (UInt32.ofNat wndRcv) else kcp.rcvWnd }

/-- `ikcp_waitsnd` -/
def waitsnd (kcp : Ikcpcb) : ℕ :=
  kcp.sndBuf.length + kcp.sndQueue.length

/-! ## Sending -/

/-- The room in the last segment of the queue. Only a stream uses it. -/
def capacity (kcp : Ikcpcb) : ℕ :=
  match kcp.stream, kcp.sndQueue.getLast? with
  | true, some old => kcp.mss.toNat - old.data.length
  | _, _ => 0

/-- The last segment of the queue is replaced by a fuller one. -/
def extend (buffer : List UInt8) (kcp : Ikcpcb) : Ikcpcb :=
  match kcp.sndQueue.getLast? with
  | some old =>
    if kcp.stream = true ∧ old.data.length < kcp.mss.toNat then
      { kcp with
        sndQueue := kcp.sndQueue.dropLast ++ [{ data := old.data ++ buffer.take kcp.capacity }] }
    else kcp
  | none => kcp

/-- The loop that cuts what is left into a number of segments. -/
def fragments (stream : Bool) (mss : ℕ) : ℕ → List UInt8 → List Seg
  | 0, _ => []
  | count + 1, buffer =>
    { frg := if stream then 0 else UInt8.ofNat count, data := buffer.take mss } ::
      fragments stream mss count (buffer.drop mss)

/-- How many segments it takes, one at least. -/
def fragmentCount (mss size : ℕ) : ℕ :=
  if size ≤ mss then 1 else (size + mss - 1) / mss

/-- `ikcp_send` -/
def send (buffer : List UInt8) (kcp : Ikcpcb) : ℤ × Ikcpcb :=
  let extended := kcp.extend buffer
  let left := buffer.drop kcp.capacity
  let sent := buffer.length - left.length
  if kcp.stream = true ∧ left = [] then (sent, extended)
  else
    let mss := kcp.mss.toNat
    let count := fragmentCount mss left.length
    if count ≥ wndRcv then
      if kcp.stream = true ∧ 0 < sent then (sent, extended) else (-2, extended)
    else
      (buffer.length,
        { extended with sndQueue := extended.sndQueue ++ fragments kcp.stream mss count left })

/-- A control block without the queue of what is to be sent. -/
def unqueued (kcp : Ikcpcb) : Ikcpcb :=
  { kcp with sndQueue := [] }

/-- Sending only queues. -/
theorem unqueued_send (kcp : Ikcpcb) (buffer : List UInt8) :
    (kcp.send buffer).2.unqueued = kcp.unqueued := by
  have hextend : (kcp.extend buffer).unqueued = kcp.unqueued := by
    rw [extend]
    split
    · split <;> rfl
    · rfl
  simp only [send]
  split
  · exact hextend
  split
  · split
    · exact hextend
    · exact hextend
  · exact hextend

/-! ## Receiving -/

/-- Move available segments from `rcv_buf`, given as a list, to `rcv_queue`. -/
def deliver (kcp : Ikcpcb) : List Seg → Ikcpcb
  | [] => { kcp with rcvBuf := [] }
  | seg :: rest =>
    if seg.sn = kcp.rcvNxt ∧ kcp.rcvQueue.length < kcp.rcvWnd.toNat then
      deliver
        { kcp with
          rcvQueue := kcp.rcvQueue ++ [seg]
          rcvNxt := kcp.rcvNxt + 1
          ordered := kcp.ordered ++ [seg.item] } rest
    else { kcp with rcvBuf := seg :: rest }

/-- The first segment of `rcv_buf` is moved to `rcv_queue`. -/
def moveFirst (kcp : Ikcpcb) (seg : Seg) (rest : List Seg) : Ikcpcb :=
  { kcp with
    rcvQueue := kcp.rcvQueue ++ [seg]
    rcvBuf := rest
    rcvNxt := kcp.rcvNxt + 1
    ordered := kcp.ordered ++ [seg.item] }

/-- What holds before segments are moved, and is kept when one is moved, holds afterwards. -/
theorem deliver_induct {motive : Ikcpcb → Prop} {kcp : Ikcpcb} {segs : List Seg}
    (start : motive { kcp with rcvBuf := segs })
    (move : ∀ (k : Ikcpcb) (seg : Seg) (rest : List Seg), k.rcvBuf = seg :: rest →
      seg.sn = k.rcvNxt → k.rcvQueue.length < k.rcvWnd.toNat → motive k →
      motive (k.moveFirst seg rest)) : motive (kcp.deliver segs) := by
  induction segs generalizing kcp with
  | nil => exact start
  | cons seg rest ih =>
      rw [deliver]
      split
      · rename_i htake
        exact ih (move { kcp with rcvBuf := seg :: rest } seg rest rfl htake.1 htake.2 start)
      · exact start

/-- Where the moving ends: there is nothing more in order, or no room. -/
theorem deliver_stop (kcp : Ikcpcb) (segs : List Seg) :
    ∀ seg ∈ (kcp.deliver segs).rcvBuf.head?, seg.sn = (kcp.deliver segs).rcvNxt →
      (kcp.deliver segs).rcvWnd.toNat ≤ (kcp.deliver segs).rcvQueue.length := by
  induction segs generalizing kcp with
  | nil => nofun
  | cons first rest ih =>
      rw [deliver]
      split
      · exact ih _
      · rename_i hstay
        rintro seg ⟨⟩ hnext
        exact Nat.le_of_not_lt fun hroom => hstay ⟨hnext, hroom⟩

/-- A control block without what the moving of segments assigns. -/
def undelivered (kcp : Ikcpcb) : Ikcpcb :=
  { kcp with rcvQueue := [], rcvBuf := [], rcvNxt := 0, ordered := [] }

theorem undelivered_deliver (kcp : Ikcpcb) (segs : List Seg) :
    (kcp.deliver segs).undelivered = kcp.undelivered :=
  deliver_induct (motive := fun k => k.undelivered = kcp.undelivered) rfl
    fun _ _ _ _ _ _ same => same

/-- The data of the fragments of the first message of a queue, and what follows them. -/
def merge : List Seg → List UInt8 × List Seg
  | [] => ([], [])
  | seg :: rest =>
    if seg.frg = 0 then (seg.data, rest)
    else
      let (bytes, left) := merge rest
      (seg.data ++ bytes, left)

/-- `ikcp_peeksize` -/
def peeksize (kcp : Ikcpcb) : ℤ :=
  match kcp.rcvQueue with
  | [] => -1
  | seg :: _ =>
    if seg.frg = 0 then seg.data.length
    else if kcp.rcvQueue.length < seg.frg.toNat + 1 then -1
    else (merge kcp.rcvQueue).1.length

/-- `ikcp_recv`: what it returns, what it copied and the control block. With a negative size it only
looks. -/
def recv (len : ℤ) (kcp : Ikcpcb) : ℤ × List UInt8 × Ikcpcb :=
  if kcp.rcvQueue = [] then (-1, [], kcp)
  else if kcp.peeksize < 0 then (-2, [], kcp)
  else if kcp.peeksize > |len| then (-3, [], kcp)
  else
    let (bytes, left) := merge kcp.rcvQueue
    let recover := kcp.rcvWnd.toNat ≤ kcp.rcvQueue.length
    let taken := if len < 0 then kcp else { kcp with rcvQueue := left }
    let delivered := taken.deliver taken.rcvBuf
    let tell := decide (delivered.rcvQueue.length < kcp.rcvWnd.toNat ∧ recover)
    (bytes.length, bytes, { delivered with askTell := delivered.askTell || tell })

/-- What a call can do: fail, only look, or take the first message. In the last two cases segments
are moved. -/
theorem recv_cases (kcp : Ikcpcb) (len : ℤ) :
    ((kcp.recv len).1 < 0 ∧ (kcp.recv len).2.2 = kcp) ∨
    (len < 0 ∧ ∃ askTell,
      (kcp.recv len).2.2 = { kcp.deliver kcp.rcvBuf with askTell := askTell }) ∨
    (0 ≤ len ∧ kcp.rcvQueue ≠ [] ∧ 0 ≤ kcp.peeksize ∧
      (kcp.recv len).1 = (merge kcp.rcvQueue).1.length ∧
      (kcp.recv len).2.1 = (merge kcp.rcvQueue).1 ∧ ∃ askTell,
        (kcp.recv len).2.2 =
          { deliver { kcp with rcvQueue := (merge kcp.rcvQueue).2 } kcp.rcvBuf with
            askTell := askTell }) := by
  rw [recv]
  split
  · exact .inl ⟨Int.negSucc_lt_zero 0, rfl⟩
  rename_i hqueue
  split
  · exact .inl ⟨Int.negSucc_lt_zero 1, rfl⟩
  rename_i hpeek
  split
  · exact .inl ⟨Int.negSucc_lt_zero 2, rfl⟩
  dsimp only
  by_cases hlen : len < 0
  · rw [if_pos hlen]
    exact .inr (.inl ⟨hlen, _, rfl⟩)
  · rw [if_neg hlen]
    exact .inr (.inr ⟨not_lt.mp hlen, hqueue, not_lt.mp hpeek, rfl, rfl, _, rfl⟩)

/-- A control block without what receiving assigns. -/
def unreceived (kcp : Ikcpcb) : Ikcpcb :=
  { kcp.undelivered with askTell := false }

theorem unreceived_askTell (kcp : Ikcpcb) (askTell : Bool) :
    unreceived { kcp with askTell := askTell } = kcp.unreceived :=
  rfl

theorem unreceived_recv (kcp : Ikcpcb) (len : ℤ) :
    (kcp.recv len).2.2.unreceived = kcp.unreceived := by
  have hdeliver (k : Ikcpcb) (segs : List Seg) : (k.deliver segs).unreceived = k.unreceived :=
    congrArg (fun k : Ikcpcb => { k with askTell := false }) (k.undelivered_deliver segs)
  rcases kcp.recv_cases len with ⟨-, heq⟩ | ⟨-, askTell, heq⟩ | ⟨-, -, -, -, -, askTell, heq⟩
  · rw [heq]
  · rw [heq]
    exact (unreceived_askTell _ _).trans (hdeliver _ _)
  · rw [heq]
    exact (unreceived_askTell _ _).trans (hdeliver _ _)

end Ikcpcb

end Sxaint.Ikcp
