/-
# Nothing to do

When a flush writes nothing and reading a datagram changes nothing. Both are conditions on the
control block before the call: for a flush that nothing is due, for a datagram that the segments it
consists of tell the control block what it knows, or cannot be used.
-/

import Sxaint.Ikcp.SendWindow

namespace Sxaint.Ikcp

open Sxaint.Net.Kcp (itimediff)

namespace Ikcpcb

/-- The question about the window of the other side need not be asked, or not yet. -/
def Unasking (kcp : Ikcpcb) : Prop :=
  (kcp.rmtWnd = 0 → kcp.probeWait ≠ 0 ∧ itimediff kcp.current kcp.tsProbe < 0) ∧
    (kcp.rmtWnd ≠ 0 → kcp.tsProbe = 0 ∧ kcp.probeWait = 0)

instance (kcp : Ikcpcb) : Decidable kcp.Unasking :=
  inferInstanceAs (Decidable ((_ → _) ∧ (_ → _)))

/-- Nothing is due: no acknowledgement, no question and no answer about windows, no number to give,
and no segment that is new, late or skipped. -/
structure Quiet (kcp : Ikcpcb) : Prop where
  acks : kcp.ackList = []
  askSend : kcp.askSend = false
  askTell : kcp.askTell = false
  unasking : kcp.Unasking
  queue : kcp.sndQueue = [] ∨ 0 ≤ itimediff kcp.sndNxt (kcp.sndUna + kcp.window)
  segments : ∀ seg ∈ kcp.sndBuf, kcp.needsend kcp.resent seg = .no
  cwnd : 1 ≤ kcp.cwnd

instance (kcp : Ikcpcb) : Decidable kcp.Quiet :=
  decidable_of_iff
    (kcp.ackList = [] ∧ kcp.askSend = false ∧ kcp.askTell = false ∧ kcp.Unasking ∧
      (kcp.sndQueue = [] ∨ 0 ≤ itimediff kcp.sndNxt (kcp.sndUna + kcp.window)) ∧
      (∀ seg ∈ kcp.sndBuf, kcp.needsend kcp.resent seg = .no) ∧ 1 ≤ kcp.cwnd)
    ⟨fun ⟨h₁, h₂, h₃, h₄, h₅, h₆, h₇⟩ => ⟨h₁, h₂, h₃, h₄, h₅, h₆, h₇⟩,
      fun ⟨h₁, h₂, h₃, h₄, h₅, h₆, h₇⟩ => ⟨h₁, h₂, h₃, h₄, h₅, h₆, h₇⟩⟩

/-- Before the first update a flush does nothing in any case. -/
def AtRest (kcp : Ikcpcb) : Prop :=
  kcp.updated = true → kcp.Quiet

instance (kcp : Ikcpcb) : Decidable kcp.AtRest :=
  inferInstanceAs (Decidable (_ → _))

/-- A segment is of no use: its window is the known one, it acknowledges nothing, and it is an
acknowledgement that is from the future and for no segment in flight, data beyond the window, or a
window that was told. -/
structure Ignores (kcp : Ikcpcb) (p : Packet) : Prop where
  wnd : p.wnd.toUInt32 = kcp.rmtWnd
  una : ∀ seg ∈ kcp.sndBuf.head?, itimediff p.una seg.sn ≤ 0
  ack : p.cmd = cmdAck → itimediff kcp.current p.ts < 0 ∧ ¬ kcp.inFlight p.sn
  push : p.cmd = cmdPush → 0 ≤ itimediff p.sn (kcp.rcvNxt + kcp.rcvWnd)
  wask : p.cmd ≠ cmdWask

instance (kcp : Ikcpcb) (p : Packet) : Decidable (kcp.Ignores p) :=
  have : Decidable (∀ seg ∈ kcp.sndBuf.head?, itimediff p.una seg.sn ≤ 0) :=
    Option.decidableForallMem kcp.sndBuf.head?
  decidable_of_iff
    (p.wnd.toUInt32 = kcp.rmtWnd ∧ (∀ seg ∈ kcp.sndBuf.head?, itimediff p.una seg.sn ≤ 0) ∧
      (p.cmd = cmdAck → itimediff kcp.current p.ts < 0 ∧ ¬ kcp.inFlight p.sn) ∧
      (p.cmd = cmdPush → 0 ≤ itimediff p.sn (kcp.rcvNxt + kcp.rcvWnd)) ∧ p.cmd ≠ cmdWask)
    ⟨fun ⟨h₁, h₂, h₃, h₄, h₅⟩ => ⟨h₁, h₂, h₃, h₄, h₅⟩,
      fun ⟨h₁, h₂, h₃, h₄, h₅⟩ => ⟨h₁, h₂, h₃, h₄, h₅⟩⟩

/-- A datagram does nothing to a control block at rest: `ikcp_input` finds no segment in it, as it
is too short or of another conversation, or ignores those it finds. -/
def Withstands (kcp : Ikcpcb) (data : List UInt8) : Prop :=
  kcp.AtRest ∧ ∀ p ∈ (segments kcp.conv data).1, kcp.Ignores p

instance (kcp : Ikcpcb) (data : List UInt8) : Decidable (kcp.Withstands data) :=
  inferInstanceAs (Decidable (_ ∧ _))

/-! ## A flush -/

section Flush

variable {kcp : Ikcpcb}

theorem askWindow_of_unasking (unasking : kcp.Unasking) : kcp.askWindow = kcp := by
  rw [askWindow]
  split
  · rename_i hclosed
    obtain ⟨hwait, htime⟩ := unasking.1 hclosed
    rw [if_neg hwait, if_neg (not_le.mpr htime)]
  · rename_i hopen
    obtain ⟨htime, hwait⟩ := unasking.2 hopen
    cases kcp
    dsimp only at htime hwait
    rw [htime, hwait]

theorem fill_of_closed {cwnd wnd : UInt32}
    (closed : kcp.sndQueue = [] ∨ 0 ≤ itimediff kcp.sndNxt (kcp.sndUna + cwnd)) :
    fill cwnd wnd kcp.sndQueue kcp = kcp := by
  cases hqueue : kcp.sndQueue with
  | nil =>
      rw [fill, ← hqueue]
  | cons newseg rest =>
      rw [hqueue] at closed
      rw [fill, if_neg (not_lt.mpr (closed.resolve_left (List.cons_ne_nil _ _))), ← hqueue]

theorem putSegs_of_no {wnd resent rtomin : UInt32} {segs : List Seg} (writing : Writing)
    (none : ∀ seg ∈ segs, kcp.needsend resent seg = .no) :
    kcp.putSegs wnd resent rtomin segs writing = (segs, writing) := by
  induction segs with
  | nil => rfl
  | cons seg rest ih =>
      obtain ⟨hseg, hrest⟩ := List.forall_mem_cons.mp none
      rw [putSegs, putSeg, if_pos hseg]
      dsimp only
      rw [ih hrest]

/-- There is nothing to clear. -/
theorem cleared_of_quiet (quiet : kcp.Quiet) :
    { kcp with ackList := [], askSend := false, askTell := false } = kcp := by
  obtain ⟨hacks, hsend, htell, -, -, -, -⟩ := quiet
  cases kcp
  dsimp only at hacks hsend htell
  rw [hacks, hsend, htell]

theorem filled_of_quiet (quiet : kcp.Quiet) : kcp.filled = kcp := by
  rw [filled, askWindow_of_unasking quiet.unasking, cleared_of_quiet quiet]
  exact fill_of_closed quiet.queue

theorem written_of_quiet (quiet : kcp.Quiet) :
    kcp.written =
      (kcp.sndBuf,
        { scratch := { outputs := kcp.outputs }, xmit := kcp.xmit, state := kcp.state }) := by
  have hanswers : kcp.putAnswers { outputs := kcp.outputs } = { outputs := kcp.outputs } := by
    rw [putAnswers, quiet.acks, quiet.askSend, quiet.askTell]
    rfl
  rw [written, askWindow_of_unasking quiet.unasking, filled_of_quiet quiet,
    hanswers, putSegs_of_no _ quiet.segments]

/-- A flush of a control block at rest changes nothing. -/
theorem flush_of_atRest (atRest : kcp.AtRest) : kcp.flush = kcp := by
  rw [flush]
  split
  swap
  · rfl
  rename_i hupdated
  have quiet := atRest hupdated
  have hcwnd : ¬ kcp.cwnd < 1 := UInt32.not_lt.mpr quiet.cwnd
  rw [written_of_quiet quiet, filled_of_quiet quiet]
  exact if_neg hcwnd

end Flush

/-! ## A datagram -/

section Input

variable {kcp : Ikcpcb} {p : Packet} {data : List UInt8}

/-- Nothing is taken out, so the window stays where it is. -/
theorem shrinkBuf_of_window (window : kcp.SendWindow) : kcp.shrinkBuf = kcp := by
  have hshrunk : kcp.shrinkBuf =
      { kcp with sndUna := (kcp.sndBuf.head?.map Seg.sn).getD kcp.sndNxt } := by
    rw [shrinkBuf]
    cases kcp.sndBuf <;> rfl
  rw [hshrunk, ← window.first]

theorem heed_of_ignores (window : kcp.SendWindow) (ignores : kcp.Ignores p) : kcp.heed p = kcp := by
  have hbuf :
      (kcp.sndBuf.dropWhile fun seg => decide (itimediff p.una seg.sn > 0)) = kcp.sndBuf := by
    have huna := ignores.una
    cases hsegs : kcp.sndBuf with
    | nil => rfl
    | cons seg rest =>
        rw [hsegs] at huna
        exact List.dropWhile_cons_of_neg (by simpa using huna seg rfl)
  have hsame : parseUna p.una { kcp with rmtWnd := p.wnd.toUInt32 } = kcp := by
    rw [parseUna, ignores.wnd]
    dsimp only
    rw [hbuf]
  rw [heed, hsame, shrinkBuf_of_window window]

theorem acknowledge_of_ignores (window : kcp.SendWindow) (ignores : kcp.Ignores p)
    (ack : p.cmd = cmdAck) : kcp.acknowledge p = kcp := by
  obtain ⟨hfuture, hother⟩ := ignores.ack ack
  rw [acknowledge, if_neg (not_le.mpr hfuture), parseAck, if_neg hother]
  exact shrinkBuf_of_window window

/-- An ignored segment is read and leaves a trace in `maxack` at most. -/
theorem receive_of_ignores (window : kcp.SendWindow) (ignores : kcp.Ignores p)
    (latest : Option (UInt32 × UInt32)) :
    kcp.receive p latest =
      (if p.cmd = cmdAck then some (later p.sn p.ts latest) else latest, kcp) := by
  simp only [receive, heed_of_ignores window ignores]
  split
  · rename_i hack
    rw [acknowledge_of_ignores window ignores hack]
  split
  · rename_i hpush
    rw [push, if_neg (not_lt.mpr (ignores.push hpush))]
  rw [if_neg ignores.wask]

/-- The number that later acknowledgements are counted from is of no segment in flight. -/
def Unskipping (kcp : Ikcpcb) (latest : Option (UInt32 × UInt32)) : Prop :=
  ∀ last ∈ latest, ¬ kcp.inFlight last.1

theorem foldl_of_ignores (window : kcp.SendWindow) {packets : List Packet}
    (ignores : ∀ p ∈ packets, kcp.Ignores p) (latest : Option (UInt32 × UInt32))
    (unskipping : kcp.Unskipping latest) :
    ∃ last, packets.foldl (fun read p => read.2.receive p read.1) (latest, kcp) = (last, kcp) ∧
      kcp.Unskipping last := by
  induction packets generalizing latest with
  | nil => exact ⟨latest, rfl, unskipping⟩
  | cons p rest ih =>
      obtain ⟨hp, hrest⟩ := List.forall_mem_cons.mp ignores
      rw [List.foldl_cons, receive_of_ignores window hp]
      refine ih hrest _ ?_
      split
      · rename_i hack
        have hother := (hp.ack hack).2
        rintro last ⟨⟩
        cases latest with
        | none => exact hother
        | some earlier =>
            rw [later]
            split
            · exact hother
            · exact unskipping earlier rfl
      · exact unskipping

theorem conclude_of_unskipping {latest : Option (UInt32 × UInt32)}
    (unskipping : kcp.Unskipping latest) : kcp.conclude kcp.sndUna latest = kcp := by
  have hcounted : kcp.counted latest = kcp := by
    cases latest with
    | none => rfl
    | some last => rw [counted, parseFastack, if_neg (unskipping last rfl)]
  have hself : ¬ itimediff kcp.sndUna kcp.sndUna > 0 := by
    rw [itimediff, UInt32.sub_self]
    decide
  rw [conclude, if_neg hself, hcounted]

/-- A datagram that a control block withstands is read without a trace. -/
theorem input_of_ignores (window : kcp.SendWindow)
    (ignores : ∀ p ∈ (segments kcp.conv data).1, kcp.Ignores p) : (kcp.input data).2 = kcp := by
  obtain ⟨last, hread, hlast⟩ := foldl_of_ignores window ignores none (by rintro _ ⟨⟩)
  rw [input]
  split
  · rfl
  · rw [inputLoop_eq]
    dsimp only
    rw [segments] at hread
    rw [hread]
    split
    · rfl
    · exact conclude_of_unskipping hlast

/-- After it there is nothing to flush. -/
theorem flush_input_of_withstands (window : kcp.SendWindow) (withstands : kcp.Withstands data) :
    (kcp.input data).2.flush = kcp := by
  rw [input_of_ignores window withstands.2]
  exact flush_of_atRest withstands.1

end Input

end Ikcpcb

end Sxaint.Ikcp
