/-
# Flushing

`ikcp_flush` writes the acknowledgements that are due, the questions and answers about windows, and
the segments that are new, late or skipped by later acknowledgements, into datagrams that fit the
MTU. `ikcp_update` sets the clock and flushes when the interval has passed.
-/

import Sxaint.Ikcp.Control

namespace Sxaint.Ikcp

open Sxaint.Net.Kcp (itimediff)

/-- The buffer of a flush, and the datagrams that the callback was given so far. -/
structure Scratch where
  buffer : List UInt8 := []
  outputs : List (List UInt8)
  deriving DecidableEq, Repr

namespace Scratch

/-- `ikcp_output` with what the buffer has. It does nothing if there is nothing. -/
def output (scratch : Scratch) : Scratch :=
  if scratch.buffer = [] then scratch
  else { buffer := [], outputs := scratch.outputs ++ [scratch.buffer] }

/-- Write a segment to the buffer, which is passed on first if there is no room for it. -/
def put (mtu : UInt32) (seg : Seg) (scratch : Scratch) : Scratch :=
  let bytes := seg.packet.encode
  let room := if scratch.buffer.length + bytes.length > mtu.toNat then scratch.output else scratch
  { room with buffer := room.buffer ++ bytes }

end Scratch

/-- Why a segment is sent, if it is. -/
inductive Needsend
  | no
  | first
  | timeout
  | fast
  deriving DecidableEq, Repr

/-- What the loop over `snd_buf` changes: the datagrams, the number of segments that were skipped,
whether one was late, the number of late ones ever and the state of the link. -/
structure Writing where
  scratch : Scratch
  change : ℕ := 0
  lost : Bool := false
  xmit : UInt32
  state : UInt32
  deriving DecidableEq, Repr

namespace Ikcpcb

/-- `ikcp_wnd_unused` -/
def wndUnused (kcp : Ikcpcb) : UInt32 :=
  if kcp.rcvQueue.length < kcp.rcvWnd.toNat then
    kcp.rcvWnd - UInt32.ofNat kcp.rcvQueue.length
  else 0

/-! ## Acknowledgements and probes -/

/-- The header of the segments without data. -/
def header (kcp : Ikcpcb) (cmd : UInt8) (sn ts : UInt32) : Seg :=
  { conv := kcp.conv, cmd := cmd, wnd := kcp.wndUnused, una := kcp.rcvNxt, sn := sn, ts := ts }

/-- The loop over the acknowledgements. -/
def putAcks (kcp : Ikcpcb) : List (UInt32 × UInt32) → Scratch → Scratch
  | [], scratch => scratch
  | (sn, ts) :: rest, scratch =>
    kcp.putAcks rest (scratch.put kcp.mtu (kcp.header cmdAck sn ts))

/-- When to ask for the window of the other side. -/
def askWindow (kcp : Ikcpcb) : Ikcpcb :=
  if kcp.rmtWnd = 0 then
    if kcp.probeWait = 0 then
      { kcp with probeWait := probeInit, tsProbe := kcp.current + probeInit }
    else if itimediff kcp.current kcp.tsProbe ≥ 0 then
      let least := if kcp.probeWait < probeInit then probeInit else kcp.probeWait
      let longer := least + least / 2
      let wait := if longer > probeLimit then probeLimit else longer
      { kcp with
        probeWait := wait
        tsProbe := kcp.current + wait
        askSend := true }
    else kcp
  else { kcp with tsProbe := 0, probeWait := 0 }

/-- A segment about windows, if it is asked for. It has the number and the time of the last
acknowledgement. -/
def putProbe (kcp : Ikcpcb) (asked : Bool) (cmd : UInt8) (scratch : Scratch) : Scratch :=
  let last := kcp.ackList.getLast?.getD (0, 0)
  if asked then scratch.put kcp.mtu (kcp.header cmd last.1 last.2) else scratch

/-- All the segments without data. -/
def putAnswers (kcp : Ikcpcb) (scratch : Scratch) : Scratch :=
  kcp.putProbe kcp.askTell cmdWins
    (kcp.putProbe kcp.askSend cmdWask (kcp.putAcks kcp.ackList scratch))

/-! ## Data -/

/-- The window for new segments. -/
def window (kcp : Ikcpcb) : UInt32 :=
  let cwnd := min kcp.sndWnd kcp.rmtWnd
  if kcp.nocwnd then cwnd else min kcp.cwnd cwnd

/-- A segment with its number. -/
def stamp (kcp : Ikcpcb) (wnd : UInt32) (newseg : Seg) : Seg :=
  { newseg with
    conv := kcp.conv
    cmd := cmdPush
    wnd := wnd
    ts := kcp.current
    sn := kcp.sndNxt
    una := kcp.rcvNxt
    resendts := kcp.current
    rto := kcp.rxRto.toUInt32
    fastack := 0
    xmit := 0 }

/-- The first segment of `snd_queue` is given a number and moved to `snd_buf`. -/
def numberFirst (kcp : Ikcpcb) (wnd : UInt32) (newseg : Seg) (rest : List Seg) : Ikcpcb :=
  { kcp with
    sndQueue := rest
    sndBuf := kcp.sndBuf ++ [kcp.stamp wnd newseg]
    sndNxt := kcp.sndNxt + 1
    numbered := kcp.numbered ++ [newseg.item] }

/-- Move segments from `snd_queue`, given as a list, to `snd_buf` while the window is open. -/
def fill (cwnd wnd : UInt32) : List Seg → Ikcpcb → Ikcpcb
  | [], kcp => { kcp with sndQueue := [] }
  | newseg :: rest, kcp =>
    if itimediff kcp.sndNxt (kcp.sndUna + cwnd) < 0 then
      fill cwnd wnd rest (kcp.numberFirst wnd newseg rest)
    else { kcp with sndQueue := newseg :: rest }

/-- What holds before segments are given numbers, and is kept when one is, holds afterwards. -/
theorem fill_induct {motive : Ikcpcb → Prop} {cwnd wnd : UInt32} {queue : List Seg} {kcp : Ikcpcb}
    (start : motive { kcp with sndQueue := queue })
    (number : ∀ k newseg rest, k.sndQueue = newseg :: rest →
      itimediff k.sndNxt (k.sndUna + cwnd) < 0 → motive k →
      motive (k.numberFirst wnd newseg rest)) : motive (fill cwnd wnd queue kcp) := by
  induction queue generalizing kcp with
  | nil => exact start
  | cons newseg rest ih =>
      rw [fill]
      split
      · rename_i hopen
        exact ih (number { kcp with sndQueue := newseg :: rest } newseg rest rfl hopen start)
      · exact start

/-- The test of the loop over `snd_buf`. -/
def needsend (kcp : Ikcpcb) (resent : UInt32) (seg : Seg) : Needsend :=
  if seg.xmit = 0 then .first
  else if itimediff kcp.current seg.resendts ≥ 0 then .timeout
  else if seg.fastack ≥ resent then
    if seg.xmit.toInt32 ≤ kcp.fastlimit ∨ kcp.fastlimit ≤ 0 then .fast else .no
  else .no

/-- The timers of a segment, when it is sent. -/
def retime (kcp : Ikcpcb) (rtomin : UInt32) (seg : Seg) : Needsend → Seg
  | .no => seg
  | .first =>
    let rto := kcp.rxRto.toUInt32
    { seg with xmit := seg.xmit + 1, rto := rto, resendts := kcp.current + rto + rtomin }
  | .timeout =>
    let step := if kcp.nodelay < 2 then seg.rto.toInt32 else kcp.rxRto
    let rto :=
      if kcp.nodelay = 0 then seg.rto + max seg.rto kcp.rxRto.toUInt32
      else seg.rto + (step / 2).toUInt32
    { seg with xmit := seg.xmit + 1, rto := rto, resendts := kcp.current + rto }
  | .fast =>
    { seg with xmit := seg.xmit + 1, fastack := 0, resendts := kcp.current + seg.rto }

/-- One round of the loop over `snd_buf`. -/
def putSeg (kcp : Ikcpcb) (wnd resent rtomin : UInt32) (seg : Seg) (writing : Writing) :
    Seg × Writing :=
  let why := kcp.needsend resent seg
  if why = .no then (seg, writing)
  else
    let timed := kcp.retime rtomin seg why
    let segment := { timed with ts := kcp.current, wnd := wnd, una := kcp.rcvNxt }
    (segment,
      { scratch := writing.scratch.put kcp.mtu segment
        change := if why = .fast then writing.change + 1 else writing.change
        lost := writing.lost || decide (why = .timeout)
        xmit := if why = .timeout then writing.xmit + 1 else writing.xmit
        state := if segment.xmit ≥ kcp.deadLink then 0xffffffff else writing.state })

/-- The loop over `snd_buf`, given as a list. -/
def putSegs (kcp : Ikcpcb) (wnd resent rtomin : UInt32) :
    List Seg → Writing → List Seg × Writing
  | [], writing => ([], writing)
  | seg :: rest, writing =>
    let (segment, written) := kcp.putSeg wnd resent rtomin seg writing
    let (segments, last) := kcp.putSegs wnd resent rtomin rest written
    (segment :: segments, last)

/-- Sending a segment changes its timers and its header only. -/
theorem untimed_putSeg (kcp : Ikcpcb) (wnd resent rtomin : UInt32) (seg : Seg)
    (writing : Writing) : (kcp.putSeg wnd resent rtomin seg writing).1.untimed = seg.untimed := by
  simp only [putSeg]
  generalize kcp.needsend resent seg = why
  cases why with
  | no => rfl
  | first | timeout | fast => rfl

theorem untimed_putSegs (kcp : Ikcpcb) (wnd resent rtomin : UInt32) (segs : List Seg)
    (writing : Writing) :
    (kcp.putSegs wnd resent rtomin segs writing).1.map Seg.untimed = segs.map Seg.untimed := by
  induction segs generalizing writing with
  | nil => rfl
  | cons seg rest ih => exact congrArg₂ List.cons (untimed_putSeg kcp _ _ _ _ _) (ih _)

/-- The congestion window after a flush that began with another one and found losses. -/
def congest (priorCwnd resent : UInt32) (change : ℕ) (lost : Bool) (kcp : Ikcpcb) : Ikcpcb :=
  let changed :=
    if change ≠ 0 then
      let ssthresh := max ((kcp.sndNxt - kcp.sndUna) / 2) threshMin
      { kcp with
        ssthresh := ssthresh
        cwnd := ssthresh + resent
        incr := (ssthresh + resent) * kcp.mss }
    else kcp
  let late :=
    if lost then
      { changed with ssthresh := max (priorCwnd / 2) threshMin, cwnd := 1, incr := kcp.mss }
    else changed
  if late.cwnd < 1 then { late with cwnd := 1, incr := kcp.mss } else late

/-- The number of later acknowledgements after which a segment counts as skipped. -/
def resent (kcp : Ikcpcb) : UInt32 :=
  if kcp.fastresend > 0 then kcp.fastresend.toUInt32 else 0xffffffff

/-- What is added to the first timeout of a segment. -/
def rtomin (kcp : Ikcpcb) : UInt32 :=
  if kcp.nodelay = 0 then (kcp.rxRto >>> 3).toUInt32 else 0

/-- A control block in a flush, before the loop over `snd_buf`. Whether to ask for the window does
not depend on what was written before. -/
def filled (kcp : Ikcpcb) : Ikcpcb :=
  let asked := kcp.askWindow
  fill asked.window kcp.wndUnused kcp.sndQueue
    { asked with ackList := [], askSend := false, askTell := false }

/-- What the loop over `snd_buf` makes of it and of what was written before. -/
def written (kcp : Ikcpcb) : List Seg × Writing :=
  let answered := kcp.askWindow.putAnswers { outputs := kcp.outputs }
  kcp.filled.putSegs kcp.wndUnused kcp.resent kcp.rtomin kcp.filled.sndBuf
    { scratch := answered, xmit := kcp.xmit, state := kcp.state }

theorem untimed_written (kcp : Ikcpcb) :
    kcp.written.1.map Seg.untimed = kcp.filled.sndBuf.map Seg.untimed :=
  untimed_putSegs _ _ _ _ _ _

/-- `ikcp_flush` -/
def flush (kcp : Ikcpcb) : Ikcpcb :=
  if kcp.updated then
    let (sndBuf, writing) := kcp.written
    congest kcp.cwnd kcp.resent writing.change writing.lost
      { kcp.filled with
        sndBuf := sndBuf
        xmit := writing.xmit
        state := writing.state
        outputs := writing.scratch.output.outputs }
  else kcp

/-! ## The clock -/

/-- The time at which a flush is due. It starts with the first update, and again when the clock
has jumped. -/
def due (current : UInt32) (kcp : Ikcpcb) : UInt32 :=
  let started := if kcp.updated then kcp.tsFlush else current
  let slap := itimediff current started
  if slap ≥ 10000 ∨ slap < -10000 then current else started

/-- What an update assigns itself. -/
def clock (current tsFlush : UInt32) (kcp : Ikcpcb) : Ikcpcb :=
  { kcp with current := current, updated := true, tsFlush := tsFlush }

/-- `ikcp_update` -/
def update (current : UInt32) (kcp : Ikcpcb) : Ikcpcb :=
  let due := kcp.due current
  if itimediff current due ≥ 0 then
    let next := due + kcp.interval
    flush
      (kcp.clock current (if itimediff current next ≥ 0 then current + kcp.interval else next))
  else kcp.clock current due

/-- The clock is set, and there may be a flush. -/
theorem update_cases (kcp : Ikcpcb) (current : UInt32) :
    ∃ tsFlush, kcp.update current = kcp.clock current tsFlush ∨
      kcp.update current = (kcp.clock current tsFlush).flush := by
  simp only [update]
  split
  · exact ⟨_, .inr rfl⟩
  · exact ⟨_, .inl rfl⟩

/-- What holds before an update, whatever the clock says, and is kept by a flush, holds
afterwards. -/
theorem update_induct {motive : Ikcpcb → Prop} {kcp : Ikcpcb} {current : UInt32}
    (clock : ∀ tsFlush, motive (kcp.clock current tsFlush))
    (flush : ∀ k, motive k → motive k.flush) : motive (kcp.update current) := by
  obtain ⟨tsFlush, heq | heq⟩ := kcp.update_cases current
  · rw [heq]
    exact clock tsFlush
  · rw [heq]
    exact flush _ (clock tsFlush)

/-! ## What a flush leaves alone -/

/-- A control block without what a flush assigns. -/
def unflushed (kcp : Ikcpcb) : Ikcpcb :=
  { kcp with
    state := 0
    sndNxt := 0
    ssthresh := 0
    cwnd := 0
    askSend := false
    askTell := false
    xmit := 0
    tsProbe := 0
    probeWait := 0
    incr := 0
    sndQueue := []
    sndBuf := []
    ackList := []
    outputs := []
    numbered := [] }

/-- A control block without what is assigned when the other side is asked for its window. -/
def unasked (kcp : Ikcpcb) : Ikcpcb :=
  { kcp with askSend := false, tsProbe := 0, probeWait := 0 }

theorem unasked_askWindow (kcp : Ikcpcb) : kcp.askWindow.unasked = kcp.unasked := by
  unfold askWindow
  split
  · split
    · dsimp only [unasked]
    · split <;> dsimp only [unasked]
  · dsimp only [unasked]

theorem unflushed_fill (cwnd wnd : UInt32) (queue : List Seg) (kcp : Ikcpcb) :
    (fill cwnd wnd queue kcp).unflushed = kcp.unflushed :=
  fill_induct (motive := fun k => k.unflushed = kcp.unflushed) rfl
    fun _ _ _ _ _ same => same

/-- A control block without what is assigned when a flush is over. -/
def uncongested (kcp : Ikcpcb) : Ikcpcb :=
  { kcp with ssthresh := 0, cwnd := 0, incr := 0 }

theorem uncongested_congest (priorCwnd resent : UInt32) (change : ℕ) (lost : Bool)
    (kcp : Ikcpcb) : (kcp.congest priorCwnd resent change lost).uncongested = kcp.uncongested := by
  simp only [congest]
  split <;> split <;> split <;> rfl

/-- Apart from the congestion window, a flush leaves what the loop over `snd_buf` does. -/
theorem uncongested_flush {kcp : Ikcpcb} (updated : kcp.updated = true) :
    kcp.flush.uncongested =
      uncongested
        { kcp.filled with
          sndBuf := kcp.written.1
          xmit := kcp.written.2.xmit
          state := kcp.written.2.state
          outputs := kcp.written.2.scratch.output.outputs } := by
  rw [flush, if_pos updated]
  exact uncongested_congest _ _ _ _ _

theorem unflushed_filled (kcp : Ikcpcb) : kcp.filled.unflushed = kcp.unflushed := by
  have hasked := congrArg unflushed kcp.unasked_askWindow
  exact (unflushed_fill _ _ _ _).trans hasked

theorem ackList_filled (kcp : Ikcpcb) : kcp.filled.ackList = [] :=
  fill_induct (motive := fun k => k.ackList = []) rfl fun _ _ _ _ _ none => none

theorem unflushed_flush (kcp : Ikcpcb) : kcp.flush.unflushed = kcp.unflushed := by
  cases hupdated : kcp.updated with
  | false =>
      rw [flush, hupdated]
      rfl
  | true =>
      have hflush := congrArg unflushed (uncongested_flush hupdated)
      exact hflush.trans kcp.unflushed_filled

end Ikcpcb

end Sxaint.Ikcp
