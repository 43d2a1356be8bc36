/-
# What is sure to be done

A flush writes what it owes: every acknowledgement that is due, the question or the answer about a
window that was asked for, and each kept segment whose time has come. A datagram that is read has
the effect of each of its segments, whatever the others are.
-/

import Sxaint.Ikcp.Refinement

namespace Sxaint.Ikcp

open SelectiveRepeat Serial

open Sxaint.Net.Kcp (overhead itimediff)

/-! ## Writing -/

/-- A datagram with a segment, among others that were written. -/
def Contains (written : Packet → Prop) (p : Packet) (data : List UInt8) : Prop :=
  ∃ packets : List Packet, (∀ q ∈ packets, written q) ∧ p ∈ packets ∧
    data = packets.flatMap Packet.encode

namespace Scratch

variable {mtu : UInt32} {written : Packet → Prop} {before : List (List UInt8)}
  {scratch : Scratch} {p : Packet} {seg : Seg}

/-- A segment is in the buffer, or was passed on. -/
def Has (written : Packet → Prop) (p : Packet) (scratch : Scratch) : Prop :=
  Contains written p scratch.buffer ∨ ∃ data ∈ scratch.outputs, Contains written p data

/-- What is in the buffer is passed on with it. -/
theorem has_output (has : scratch.Has written p) :
    ∃ data ∈ scratch.output.outputs, Contains written p data := by
  rw [output]
  rcases has with hbuffer | hsent
  · split
    · rename_i hempty
      obtain ⟨packets, -, hp, hdata⟩ := hbuffer
      rw [hempty, eq_comm, List.flatMap_eq_nil_iff] at hdata
      exact (p.encode_ne_nil (hdata p hp)).elim
    · exact ⟨_, List.mem_append_right _ (List.mem_singleton_self _), hbuffer⟩
  · obtain ⟨data, hdata, hcontains⟩ := hsent
    split
    · exact ⟨data, hdata, hcontains⟩
    · exact ⟨data, List.mem_append_left _ hdata, hcontains⟩

/-- What was written stays when another segment is, and that one is there as well. -/
theorem has_put (writes : scratch.Writes mtu.toNat written before) (here : written seg.packet)
    (has : scratch.Has written p ∨ p = seg.packet) : (scratch.put mtu seg).Has written p := by
  have hconcat {data : List UInt8} (carries : Carries mtu.toNat written data)
      (found : Contains written p data ∨ p = seg.packet) :
      Contains written p (data ++ seg.packet.encode) := by
    rcases found with ⟨packets, hall, hp, rfl⟩ | rfl
    · refine ⟨packets ++ [seg.packet], ?_, List.mem_append_left _ hp, ?_⟩
      · exact List.forall_mem_append.mpr ⟨hall, List.forall_mem_singleton.mpr here⟩
      · rw [List.flatMap_append, List.flatMap_singleton]
    · obtain ⟨-, packets, hall, rfl⟩ := carries
      refine ⟨packets ++ [seg.packet], ?_, List.mem_append_right _ (List.mem_singleton_self _), ?_⟩
      · exact List.forall_mem_append.mpr ⟨hall, List.forall_mem_singleton.mpr here⟩
      · rw [List.flatMap_append, List.flatMap_singleton]
  rw [put]
  split
  · rcases has with hold | hnew
    · exact .inr (has_output hold)
    · exact .inl (hconcat (writes_output writes).buffer (.inr hnew))
  · rcases has with (hbuffer | hsent) | hnew
    · exact .inl (hconcat writes.buffer (.inl hbuffer))
    · exact .inr hsent
    · exact .inl (hconcat writes.buffer (.inr hnew))

end Scratch

namespace Ikcpcb

/-- The number and the time of the last acknowledgement that is due. -/
def lastAck (kcp : Ikcpcb) : UInt32 × UInt32 :=
  kcp.ackList.getLast?.getD (0, 0)

/-- A segment of `snd_buf` as a flush writes it. -/
def pushed (kcp : Ikcpcb) (seg : Seg) : Packet :=
  { seg.packet with wnd := kcp.wndUnused.toUInt16, ts := kcp.current, una := kcp.rcvNxt }

/-- The segments that a flush is sure to write. -/
inductive Owes (kcp : Ikcpcb) : Packet → Prop
  | ack {sn ts : UInt32} (due : (sn, ts) ∈ kcp.ackList) :
    Owes kcp (kcp.header cmdAck sn ts).packet
  | wask (asked : kcp.askWindow.askSend = true) :
    Owes kcp (kcp.header cmdWask kcp.lastAck.1 kcp.lastAck.2).packet
  | wins (asked : kcp.askTell = true) :
    Owes kcp (kcp.header cmdWins kcp.lastAck.1 kcp.lastAck.2).packet
  | push {seg : Seg} (kept : seg ∈ kcp.filled.sndBuf)
    (due : kcp.filled.needsend kcp.resent seg ≠ .no) : Owes kcp (kcp.pushed seg)

section Flush

variable {conv : UInt32} {kcp : Ikcpcb} {written : Packet → Prop} {before : List (List UInt8)}
  {scratch : Scratch} {p : Packet}

theorem has_putAcks (room : overhead ≤ kcp.mtu.toNat)
    (writes : scratch.Writes kcp.mtu.toNat written before) (acks : List (UInt32 × UInt32))
    (here : ∀ sn ts, (sn, ts) ∈ acks → written (kcp.header cmdAck sn ts).packet)
    (has : scratch.Has written p ∨
      ∃ sn ts, (sn, ts) ∈ acks ∧ p = (kcp.header cmdAck sn ts).packet) :
    (kcp.putAcks acks scratch).Has written p := by
  induction acks generalizing scratch with
  | nil =>
      rcases has with hold | ⟨sn, ts, hmem, -⟩
      · exact hold
      · cases hmem
  | cons ack rest ih =>
      have hfirst := here _ _ List.mem_cons_self
      refine ih (Scratch.writes_put writes hfirst room)
        (fun sn ts hmem => here sn ts (List.mem_cons_of_mem _ hmem)) ?_
      rcases has with hold | ⟨sn, ts, hmem, hp⟩
      · exact .inl (Scratch.has_put writes hfirst (.inl hold))
      rcases List.mem_cons.mp hmem with rfl | hmem
      · exact .inl (Scratch.has_put writes hfirst (.inr hp))
      · exact .inr ⟨sn, ts, hmem, hp⟩

theorem has_putProbe (writes : scratch.Writes kcp.mtu.toNat written before) {asked : Bool}
    {cmd : UInt8} (here : ∀ sn ts, written (kcp.header cmd sn ts).packet)
    (has : scratch.Has written p ∨
      asked = true ∧ p = (kcp.header cmd kcp.lastAck.1 kcp.lastAck.2).packet) :
    (kcp.putProbe asked cmd scratch).Has written p := by
  rw [putProbe]
  split
  · exact Scratch.has_put writes (here _ _) (has.imp_right fun h => h.2)
  · rename_i hnot
    exact has.resolve_right fun h => hnot h.1

theorem has_putSegs (wnd resent rtomin : UInt32) (segs : List Seg) (writing : Writing)
    (writes : writing.scratch.Writes kcp.mtu.toNat written before)
    (fits : ∀ seg ∈ segs, overhead + seg.data.length ≤ kcp.mtu.toNat)
    (here : ∀ seg ∈ segs, written
      { seg.packet with wnd := wnd.toUInt16, ts := kcp.current, una := kcp.rcvNxt })
    (has : writing.scratch.Has written p ∨ ∃ seg ∈ segs, kcp.needsend resent seg ≠ .no ∧
      p = { seg.packet with wnd := wnd.toUInt16, ts := kcp.current, una := kcp.rcvNxt }) :
    (kcp.putSegs wnd resent rtomin segs writing).2.scratch.Has written p := by
  induction segs generalizing writing with
  | nil =>
      rcases has with hold | ⟨seg, hmem, -⟩
      · exact hold
      · cases hmem
  | cons seg rest ih =>
      obtain ⟨hfits, hrest⟩ := List.forall_mem_cons.mp fits
      obtain ⟨hhere, hothers⟩ := List.forall_mem_cons.mp here
      have hwrites := writes_putSegs wnd resent rtomin [seg] writing writes
        (List.forall_mem_singleton.mpr hfits) (List.forall_mem_singleton.mpr hhere)
      have hkept : writing.scratch.Has written p ∨ kcp.needsend resent seg ≠ .no ∧
          p = { seg.packet with wnd := wnd.toUInt16, ts := kcp.current, una := kcp.rcvNxt } →
          (kcp.putSeg wnd resent rtomin seg writing).2.scratch.Has written p := by
        simp only [putSeg]
        generalize kcp.needsend resent seg = why
        intro hhas
        cases why with
        | no => exact hhas.resolve_right fun h => h.1 rfl
        | first | timeout | fast =>
            exact Scratch.has_put writes hhere (hhas.imp_right fun h => h.2)
      refine ih _ hwrites hrest hothers ?_
      rcases has with hold | ⟨other, hmem, hdue, hp⟩
      · exact .inl (hkept (.inl hold))
      rcases List.mem_cons.mp hmem with rfl | hmem
      · exact .inl (hkept (.inr ⟨hdue, hp⟩))
      · exact .inr ⟨other, hmem, hdue, hp⟩

/-- What a flush owes besides segments of `snd_buf` is written before the loop over it. -/
theorem has_putAnswers (room : overhead ≤ kcp.mtu.toNat)
    (due : (∃ sn ts, (sn, ts) ∈ kcp.ackList ∧ p = (kcp.header cmdAck sn ts).packet) ∨
      (kcp.askWindow.askSend = true ∧
        p = (kcp.header cmdWask kcp.lastAck.1 kcp.lastAck.2).packet) ∨
      (kcp.askTell = true ∧ p = (kcp.header cmdWins kcp.lastAck.1 kcp.lastAck.2).packet)) :
    (kcp.askWindow.putAnswers { outputs := kcp.outputs }).Has kcp.Emits p := by
  have hmtu : kcp.askWindow.mtu = kcp.mtu := (congrArg Ikcpcb.mtu kcp.unasked_askWindow :)
  have hacks : kcp.askWindow.ackList = kcp.ackList :=
    (congrArg Ikcpcb.ackList kcp.unasked_askWindow :)
  have htell : kcp.askWindow.askTell = kcp.askTell :=
    (congrArg Ikcpcb.askTell kcp.unasked_askWindow :)
  have hlast : kcp.askWindow.lastAck = kcp.lastAck := (congrArg lastAck kcp.unasked_askWindow :)
  have hheader (cmd : UInt8) (sn ts : UInt32) :
      kcp.askWindow.header cmd sn ts = kcp.header cmd sn ts :=
    (congrArg (fun k => header k cmd sn ts) kcp.unasked_askWindow :)
  have hack (sn ts : UInt32) (hmem : (sn, ts) ∈ kcp.askWindow.ackList) :
      kcp.Emits (kcp.askWindow.header cmdAck sn ts).packet := by
    rw [hacks] at hmem
    rw [hheader]
    exact .ack hmem
  have hwask (sn ts : UInt32) : kcp.Emits (kcp.askWindow.header cmdWask sn ts).packet := by
    rw [hheader]
    exact .wask sn ts
  have hwins (sn ts : UInt32) : kcp.Emits (kcp.askWindow.header cmdWins sn ts).packet := by
    rw [hheader]
    exact .wins sn ts
  have hstart : Scratch.Writes kcp.askWindow.mtu.toNat kcp.Emits kcp.outputs
      { outputs := kcp.outputs } :=
    ⟨carries_nil, List.prefix_refl _, fun data hdata => .inl hdata⟩
  rw [← hmtu] at room
  have hwritten := writes_putAcks room hstart kcp.askWindow.ackList hack
  have hprobed := writes_putProbe room hwritten kcp.askWindow.askSend cmdWask hwask
  rw [← hheader, ← hheader, ← hlast, ← htell] at due
  rcases due with ⟨sn, ts, hmem, hp⟩ | hdue | hdue
  · rw [← hacks] at hmem
    rw [← hheader] at hp
    have hput := has_putAcks room hstart _ hack (.inr ⟨sn, ts, hmem, hp⟩)
    exact has_putProbe hprobed hwins (.inl (has_putProbe hwritten hwask (.inl hput)))
  · exact has_putProbe hprobed hwins (.inl (has_putProbe hwritten hwask (.inr hdue)))
  · exact has_putProbe hprobed hwins (.inr hdue)

/-- What a flush owes is in a datagram that it passes on, which the other side reads to the end. -/
theorem exists_output (sized : kcp.Sized conv) (updated : kcp.updated = true) (owes : kcp.Owes p) :
    ∃ data ∈ kcp.flush.outputs, p ∈ (segments conv data).1 ∧
      ∀ q ∈ (segments conv data).1, kcp.Emits q := by
  have hmtu := sized.configured.mtu
  have hroom : overhead ≤ kcp.mtu.toNat := by omega
  have hcurrent : kcp.filled.current = kcp.current :=
    (congrArg Ikcpcb.current kcp.unflushed_filled :)
  have hrcvNxt : kcp.filled.rcvNxt = kcp.rcvNxt := (congrArg Ikcpcb.rcvNxt kcp.unflushed_filled :)
  have hfilled : kcp.filled.mtu = kcp.mtu := (congrArg Ikcpcb.mtu kcp.unflushed_filled :)
  have hmss : kcp.filled.mss = kcp.mss := (congrArg Ikcpcb.mss kcp.unflushed_filled :)
  have hfits : ∀ seg ∈ kcp.filled.sndBuf, overhead + seg.data.length ≤ kcp.filled.mtu.toNat := by
    intro seg hseg
    have hsize := ((sized_filled sized).buf seg hseg).2.2
    rw [hmss] at hsize
    rw [hfilled]
    omega
  have hhere : ∀ seg ∈ kcp.filled.sndBuf, kcp.Emits
      { seg.packet with
        wnd := kcp.wndUnused.toUInt16, ts := kcp.filled.current, una := kcp.filled.rcvNxt } := by
    intro seg hseg
    rw [hcurrent, hrcvNxt]
    exact .push hseg
  have hwrites := writes_putAnswers hroom
  rw [← hfilled] at hwrites
  have hhas : kcp.written.2.scratch.Has kcp.Emits p := by
    apply has_putSegs kcp.wndUnused kcp.resent kcp.rtomin kcp.filled.sndBuf
      { scratch := _, xmit := kcp.xmit, state := kcp.state } hwrites hfits hhere
    cases owes with
    | ack due => exact .inl (has_putAnswers hroom (.inl ⟨_, _, due, rfl⟩))
    | wask asked => exact .inl (has_putAnswers hroom (.inr (.inl ⟨asked, rfl⟩)))
    | wins asked => exact .inl (has_putAnswers hroom (.inr (.inr ⟨asked, rfl⟩)))
    | push kept due =>
        refine .inr ⟨_, kept, due, ?_⟩
        rw [hcurrent, hrcvNxt, pushed]
  have houtputs : kcp.flush.outputs = kcp.written.2.scratch.output.outputs :=
    (congrArg Ikcpcb.outputs (uncongested_flush updated) :)
  obtain ⟨data, hdata, packets, hall, hp, hwritten⟩ := Scratch.has_output hhas
  have hends : Ends conv [] 0 := .inl ⟨rfl, rfl⟩
  have hread : segments conv data = (packets, 0) :=
    (segmentsLoop_eq_iff (le_refl _)).mpr
      ⟨fun q hq => (fits_of_emits sized (hall q hq)).valid, [], by rw [hwritten, List.append_nil],
        hends⟩
  rw [houtputs]
  refine ⟨data, hdata, ?_⟩
  rw [hread]
  exact ⟨hp, hall⟩

end Flush

/-! ## Getting on -/

section Filled

variable {kcp : Ikcpcb}

/-- A flush numbers some of what waits, behind what is kept. -/
theorem sndBuf_filled (kcp : Ikcpcb) : ∃ more, kcp.filled.sndBuf = kcp.sndBuf ++ more := by
  refine fill_induct (motive := fun k => ∃ more, k.sndBuf = kcp.sndBuf ++ more) ?_ ?_
  · have hasked : kcp.askWindow.sndBuf = kcp.sndBuf :=
      (congrArg Ikcpcb.sndBuf kcp.unasked_askWindow :)
    exact ⟨[], by rw [List.append_nil, ← hasked]⟩
  · rintro k newseg rest - - ⟨more, hmore⟩
    refine ⟨more ++ [k.stamp kcp.wndUnused newseg], ?_⟩
    rw [← List.append_assoc, ← hmore]
    rfl

theorem waitsnd_filled (kcp : Ikcpcb) : kcp.filled.waitsnd = kcp.waitsnd := by
  refine fill_induct (motive := fun k => k.waitsnd = kcp.waitsnd) ?_ ?_
  · have hasked : kcp.askWindow.sndBuf = kcp.sndBuf :=
      (congrArg Ikcpcb.sndBuf kcp.unasked_askWindow :)
    dsimp only [waitsnd]
    rw [hasked]
  · intro k newseg rest hqueue _ same
    rw [← same, waitsnd, waitsnd, hqueue]
    dsimp only [numberFirst]
    rw [List.length_append, List.length_singleton, List.length_cons]
    omega

/-- A flush changes timers only of what is kept then. -/
theorem untimed_flush (updated : kcp.updated = true) :
    kcp.flush.sndBuf.map Seg.untimed = kcp.filled.sndBuf.map Seg.untimed := by
  have hbuf : kcp.flush.sndBuf = kcp.written.1 :=
    (congrArg Ikcpcb.sndBuf (uncongested_flush updated) :)
  rw [hbuf]
  exact kcp.untimed_written

theorem waitsnd_flush (kcp : Ikcpcb) : kcp.flush.waitsnd = kcp.waitsnd := by
  cases hupdated : kcp.updated with
  | false =>
      rw [flush, hupdated]
      rfl
  | true =>
      have hqueue : kcp.flush.sndQueue = kcp.filled.sndQueue :=
        (congrArg Ikcpcb.sndQueue (uncongested_flush hupdated) :)
      have hlength := congrArg List.length (untimed_flush hupdated)
      rw [List.length_map, List.length_map] at hlength
      rw [waitsnd, hqueue, hlength]
      exact kcp.waitsnd_filled

/-- A flush leaves the first segment of `snd_buf` where it is, and as it is if it is not sent. -/
theorem first_flush {first : Seg} {rest : List Seg} (updated : kcp.updated = true)
    (buf : kcp.sndBuf = first :: rest) :
    ∃ seg segs, kcp.flush.sndBuf = seg :: segs ∧ seg.sn = first.sn ∧
      (kcp.filled.needsend kcp.resent first = .no → seg = first) := by
  obtain ⟨more, hmore⟩ := kcp.sndBuf_filled
  have hbuf : kcp.flush.sndBuf = kcp.written.1 :=
    (congrArg Ikcpcb.sndBuf (uncongested_flush updated) :)
  rw [buf, List.cons_append] at hmore
  rw [hbuf, written, hmore, putSegs]
  refine ⟨_, _, rfl, (congrArg Seg.sn (untimed_putSeg _ _ _ _ _ _) :), fun hno => ?_⟩
  rw [putSeg, if_pos hno]

/-- After a flush the congestion window is open. -/
theorem cwnd_flush (updated : kcp.updated = true) : kcp.flush.cwnd ≠ 0 := by
  have hcongest (priorCwnd resent : UInt32) (change : ℕ) (lost : Bool) (k : Ikcpcb) :
      (k.congest priorCwnd resent change lost).cwnd ≠ 0 := by
    unfold congest
    extract_lets ssthresh changed late
    clear_value late
    by_cases hlow : late.cwnd < 1
    · rw [if_pos hlow]
      exact show (1 : UInt32) ≠ 0 by decide
    · rw [if_neg hlow]
      intro hzero
      rw [hzero] at hlow
      exact hlow (by decide)
  rw [flush, if_pos updated]
  exact hcongest _ _ _ _ _

theorem window_pos (own : 0 < kcp.sndWnd.toNat) (remote : kcp.rmtWnd ≠ 0) (open' : kcp.cwnd ≠ 0) :
    0 < kcp.window.toNat := by
  have hpos {n : UInt32} (ne : n ≠ 0) : 0 < n.toNat :=
    Nat.pos_of_ne_zero fun hzero => ne (UInt32.toNat_inj.mp hzero)
  have hremote := hpos remote
  have hopen := hpos open'
  simp only [window]
  split
  · rw [toNat_min]
    omega
  · rw [toNat_min, toNat_min]
    omega

/-- If nothing is kept and the window is open, something that waits is numbered. -/
theorem filled_ne_nil (window : kcp.SendWindow) (none : kcp.sndBuf = []) (waits : kcp.sndQueue ≠ [])
    (room : 0 < kcp.window.toNat) : kcp.filled.sndBuf ≠ [] := by
  have hlast : kcp.sndUna = kcp.sndNxt := by
    have hfirst := window.first
    rwa [none] at hfirst
  have hwindow : kcp.askWindow.window = kcp.window :=
    (congrArg Ikcpcb.window kcp.unasked_askWindow :)
  have hsmall : kcp.askWindow.window.toNat < 2 ^ 31 := by
    rw [hwindow]
    exact kcp.window_le.1.trans_lt window.small
  have hnxt : kcp.askWindow.sndNxt = kcp.sndNxt := (congrArg Ikcpcb.sndNxt kcp.unasked_askWindow :)
  have huna : kcp.askWindow.sndUna = kcp.sndUna := (congrArg Ikcpcb.sndUna kcp.unasked_askWindow :)
  have hopen :
      itimediff kcp.askWindow.sndNxt (kcp.askWindow.sndUna + kcp.askWindow.window) < 0 := by
    rw [hnxt, huna, hlast]
    refine (diff_add_neg_iff ?_ hsmall).mpr ?_
    · rw [offset_self]
      decide
    · rwa [offset_self, hwindow]
  cases hqueue : kcp.sndQueue with
  | nil => exact (waits hqueue).elim
  | cons newseg rest =>
      rw [filled, hqueue, fill, if_pos hopen]
      refine fill_induct (motive := fun k => k.sndBuf ≠ []) ?_ ?_
      · exact List.append_ne_nil_of_right_ne_nil _ (List.cons_ne_nil _ _)
      · exact fun k newseg rest _ _ _ =>
          List.append_ne_nil_of_right_ne_nil _ (List.cons_ne_nil _ _)

/-- When the other side is to be asked for its window. -/
def probing (kcp : Ikcpcb) : UInt32 × UInt32 :=
  (kcp.probeWait, kcp.tsProbe)

theorem probing_flush (updated : kcp.updated = true) :
    kcp.flush.probing = kcp.askWindow.probing := by
  have hfilled : kcp.filled.probing = kcp.askWindow.probing :=
    fill_induct (motive := fun k => k.probing = kcp.askWindow.probing) rfl
      fun _ _ _ _ _ same => same
  exact (congrArg probing (uncongested_flush updated) :).trans hfilled

/-- A closed window is asked for when its time has come; before that, nothing changes. -/
theorem askWindow_cases (closed : kcp.rmtWnd = 0) (waits : kcp.probeWait ≠ 0) :
    kcp.askWindow.askSend = true ∨
      kcp.askWindow.probing = kcp.probing ∧ itimediff kcp.current kcp.tsProbe < 0 := by
  rw [askWindow, if_pos closed, if_neg waits]
  split
  · exact .inl rfl
  · rename_i hearly
    exact .inr ⟨rfl, not_le.mp hearly⟩

/-- If it was not to be asked for before, it is from now on. -/
theorem probeWait_askWindow (closed : kcp.rmtWnd = 0) (none : kcp.probeWait = 0) :
    kcp.askWindow.probing.1 ≠ 0 := by
  rw [askWindow, if_pos closed, if_pos none]
  exact show probeInit ≠ 0 by decide

/-- A segment that was never sent, or whose time has come, is sent. -/
theorem needsend_ne_no {resent : UInt32} {seg : Seg}
    (due : seg.xmit = 0 ∨ 0 ≤ itimediff kcp.current seg.resendts) :
    kcp.needsend resent seg ≠ .no := by
  rw [needsend]
  split
  · exact nofun
  · rename_i hsent
    rw [if_pos (due.resolve_left hsent)]
    exact nofun

end Filled

/-! ## Reading -/

section Input

variable {conv : UInt32} {kcp : Ikcpcb} {data : List UInt8} {p : Packet}

/-- What a datagram tells of the other side, besides acknowledgements: its window, and whether it
asks for the window of this side. -/
def told (kcp : Ikcpcb) : UInt32 × Bool :=
  (kcp.rmtWnd, kcp.askTell)

theorem told_sndBuf (kcp : Ikcpcb) (segs : List Seg) :
    told { kcp with sndBuf := segs } = kcp.told := rfl

theorem told_times (kcp : Ikcpcb) (srtt rttval rto : Int32) :
    told { kcp with rxSrtt := srtt, rxRttval := rttval, rxRto := rto } = kcp.told :=
  rfl

theorem told_shrinkBuf (kcp : Ikcpcb) : kcp.shrinkBuf.told = kcp.told :=
  rfl

theorem told_acknowledge (kcp : Ikcpcb) (p : Packet) : (kcp.acknowledge p).told = kcp.told := by
  rw [acknowledge]
  split
  · exact (told_shrinkBuf _).trans ((told_sndBuf _ _).trans (told_times kcp _ _ _))
  · exact (told_shrinkBuf _).trans (told_sndBuf kcp _)

theorem told_unpushed (kcp : Ikcpcb) : kcp.unpushed.told = kcp.told :=
  rfl

theorem told_ungrown (kcp : Ikcpcb) : kcp.ungrown.told = kcp.told :=
  rfl

theorem told_conclude (kcp : Ikcpcb) (una : UInt32) (latest : Option (UInt32 × UInt32)) :
    (kcp.conclude una latest).told = kcp.told := by
  rw [← told_ungrown, ungrown_conclude, told_ungrown]
  cases latest with
  | none => rfl
  | some last => exact told_sndBuf kcp _

/-- Each segment tells the window, and a question sets the bit that nothing else in a datagram
clears. -/
theorem told_receive (kcp : Ikcpcb) (p : Packet) (latest : Option (UInt32 × UInt32)) :
    (kcp.receive p latest).2.told =
      (p.wnd.toUInt32, kcp.askTell || decide (p.cmd = cmdWask)) := by
  have hheed : (kcp.heed p).told = (p.wnd.toUInt32, kcp.askTell) := rfl
  simp only [receive]
  split
  · rename_i hack
    have hother : decide (p.cmd = cmdWask) = false := by
      rw [hack]
      rfl
    rw [told_acknowledge, hheed, hother, Bool.or_false]
  split
  · rename_i hpush
    have hother : decide (p.cmd = cmdWask) = false := by
      rw [hpush]
      rfl
    dsimp only
    rw [← told_unpushed, unpushed_push, told_unpushed, hheed, hother, Bool.or_false]
  split
  · rename_i hwask
    rw [decide_eq_true hwask, Bool.or_true]
    rfl
  · rename_i hother
    rw [decide_eq_false hother, Bool.or_false]
    exact hheed

/-- If a segment is a question, the answer is owed. -/
theorem askTell_input (asks : p ∈ (segments kcp.conv data).1) (cmd : p.cmd = cmdWask) :
    (kcp.input data).2.askTell = true := by
  have htold : (kcp.input data).2.told.2 = true := by
    apply @input_reach _ (fun _ => True) (fun k => k.told.2 = true) _ _ asks trivial
    · exact fun _ _ _ _ _ => trivial
    · intro k latest _
      rw [told_receive, decide_eq_true cmd, Bool.or_true]
    · intro k q _ latest htold
      rw [told_receive, show k.askTell = true from htold, Bool.true_or]
    · intro k una latest htold
      rw [told_conclude]
      exact htold
  exact htold

/-- If each segment tells a window that is open, it is known to be. -/
theorem rmtWnd_input (mem : p ∈ (segments kcp.conv data).1)
    (opens : ∀ q ∈ (segments kcp.conv data).1, q.wnd.toUInt32 ≠ 0) :
    (kcp.input data).2.rmtWnd ≠ 0 := by
  have htold : (kcp.input data).2.told.1 ≠ 0 := by
    apply @input_reach _ (fun _ => True) (fun k => k.told.1 ≠ 0) _ _ mem trivial
    · exact fun _ _ _ _ _ => trivial
    · intro k latest _
      rw [told_receive]
      exact opens p mem
    · intro k q hq latest _
      rw [told_receive]
      exact opens q hq
    · intro k una latest htold
      rw [told_conclude]
      exact htold
  exact htold

/-! ### What is let go of -/

theorem sndBuf_updateAck (kcp : Ikcpcb) (rtt : Int32) : (kcp.updateAck rtt).sndBuf = kcp.sndBuf :=
  rfl

theorem length_acknowledge_le (kcp : Ikcpcb) (p : Packet) :
    (kcp.acknowledge p).sndBuf.length ≤ kcp.sndBuf.length := by
  have hparse (k : Ikcpcb) : (k.parseAck p.sn).shrinkBuf.sndBuf.length ≤ k.sndBuf.length := by
    rw [sndBuf_parseAck]
    split
    · exact (removeAcked_sublist _ _).length_le
    · exact le_refl _
  rw [acknowledge]
  split
  · have htimed := hparse (kcp.updateAck (kcp.current - p.ts).toInt32)
    rwa [sndBuf_updateAck] at htimed
  · exact hparse kcp

theorem length_receive_le (kcp : Ikcpcb) (p : Packet) (latest : Option (UInt32 × UInt32)) :
    (kcp.receive p latest).2.sndBuf.length ≤ (kcp.heed p).sndBuf.length := by
  simp only [receive]
  split
  · exact length_acknowledge_le (kcp.heed p) p
  split
  · dsimp only
    rw [← sndBuf_unpushed, unpushed_push, sndBuf_unpushed]
  split
  · exact le_refl _
  · exact le_refl _

theorem length_heed_le (kcp : Ikcpcb) (p : Packet) :
    (kcp.heed p).sndBuf.length ≤ kcp.sndBuf.length :=
  (List.dropWhile_sublist _).length_le

theorem length_conclude (kcp : Ikcpcb) (una : UInt32) (latest : Option (UInt32 × UInt32)) :
    (kcp.conclude una latest).sndBuf.length = kcp.sndBuf.length := by
  rw [← sndBuf_ungrown, ungrown_conclude, sndBuf_ungrown]
  have hbuf := congrArg (fun o => o.2.2.2.length) (kcp.outbound_counted latest)
  simp only [outbound, List.length_map] at hbuf
  exact hbuf

/-- A datagram adds nothing to `snd_buf`. -/
theorem length_input_le (kcp : Ikcpcb) (data : List UInt8) :
    (kcp.input data).2.sndBuf.length ≤ kcp.sndBuf.length := by
  apply input_fold (motive := fun k => k.sndBuf.length ≤ kcp.sndBuf.length)
  · exact le_refl _
  · exact fun k q _ latest hk =>
      ((k.length_receive_le q latest).trans (k.length_heed_le q)).trans hk
  · intro k una latest hk
    rwa [length_conclude]

/-- If each segment says that the other side has the first segment of `snd_buf` in order, it is let
go of. -/
theorem length_input_lt {first : Seg} {rest : List Seg} (buf : kcp.sndBuf = first :: rest)
    (mem : p ∈ (segments kcp.conv data).1)
    (covers : ∀ q ∈ (segments kcp.conv data).1, itimediff q.una first.sn > 0) :
    (kcp.input data).2.sndBuf.length < kcp.sndBuf.length := by
  have hreceive (k : Ikcpcb) (q : Packet) (latest : Option (UInt32 × UInt32))
      (hq : q ∈ (segments kcp.conv data).1)
      (hk : k.sndBuf = first :: rest ∨ k.sndBuf.length ≤ rest.length) :
      (k.receive q latest).2.sndBuf.length ≤ rest.length := by
    have hheed : (k.heed q).sndBuf.length ≤ rest.length := by
      rcases hk with hbuf | hshort
      · have hdrop : (k.heed q).sndBuf =
            k.sndBuf.dropWhile fun seg => decide (itimediff q.una seg.sn > 0) := rfl
        rw [hdrop, hbuf,
          @List.dropWhile_cons_of_pos _ _ _ _ (by exact decide_eq_true (covers q hq))]
        exact (List.dropWhile_sublist _).length_le
      · exact (k.length_heed_le q).trans hshort
    exact (k.length_receive_le q latest).trans hheed
  have hshort : (kcp.input data).2.sndBuf.length ≤ rest.length := by
    apply @input_reach _ (fun k => k.sndBuf = first :: rest ∨ k.sndBuf.length ≤ rest.length)
      (fun k => k.sndBuf.length ≤ rest.length) _ _ mem (.inl buf)
    · exact fun k q hq latest hk => .inr (hreceive k q latest hq hk)
    · exact fun k latest hk => hreceive k p latest mem hk
    · exact fun k q hq latest hk => hreceive k q latest hq (.inr hk)
    · intro k una latest hk
      rwa [length_conclude]
  rw [buf]
  exact Nat.lt_succ_of_le hshort

/-! ### What is to be acknowledged -/

theorem ackList_receive (kcp : Ikcpcb) (p : Packet) (latest : Option (UInt32 × UInt32)) :
    (kcp.receive p latest).2.ackList =
      if p.cmd = cmdPush ∧ itimediff p.sn (kcp.rcvNxt + kcp.rcvWnd) < 0 then
        kcp.ackList ++ [(p.sn, p.ts)]
      else kcp.ackList := by
  have hheed : (kcp.heed p).ackList = kcp.ackList := rfl
  simp only [receive]
  by_cases hack : p.cmd = cmdAck
  · have hother : ¬(p.cmd = cmdPush ∧ itimediff p.sn (kcp.rcvNxt + kcp.rcvWnd) < 0) := by
      rw [hack]
      exact fun h => absurd h.1 (by decide)
    rw [if_pos hack, if_neg hother, ← ackList_unheard, unheard_acknowledge, ackList_unheard, hheed]
  rw [if_neg hack]
  by_cases hpush : p.cmd = cmdPush
  · rw [if_pos hpush]
    dsimp only
    rw [ackList_push, hheed]
    exact if_congr (and_iff_right hpush).symm rfl rfl
  · have hother : ¬(p.cmd = cmdPush ∧ itimediff p.sn (kcp.rcvNxt + kcp.rcvWnd) < 0) :=
      fun h => hpush h.1
    rw [if_neg hpush, if_neg hother]
    split
    · exact hheed
    · exact hheed

theorem rcvWnd_unread (kcp : Ikcpcb) : kcp.unread.rcvWnd = kcp.rcvWnd :=
  rfl

variable {out back : State Item}

/-- A segment with data that the other side has sent is noted, if it is not beyond the window at
whatever moment it is read. -/
theorem due_input (refines : kcp.Refines conv out back) (hout : out.Safe) (hback : back.Safe)
    (few : kcp.numbered.length < 2 ^ 31) (others : back.sent.length < 2 ^ 31)
    (authentic : ∀ q ∈ (segments kcp.conv data).1, Authentic back out q)
    (mem : p ∈ (segments kcp.conv data).1) (cmd : p.cmd = cmdPush)
    (inside : ∀ (k : Ikcpcb) (out' back' : State Item), k.Follows out back out' back' →
      itimediff p.sn (k.rcvNxt + kcp.rcvWnd) < 0) :
    (p.sn, p.ts) ∈ (kcp.input data).2.ackList := by
  have hrcvWnd (k : Ikcpcb) (q : Packet) (latest : Option (UInt32 × UInt32)) :
      (k.receive q latest).2.rcvWnd = k.rcvWnd := by
    rw [← rcvWnd_unread, unread_receive, rcvWnd_unread]
  apply @input_reach kcp
    (fun k => (∃ out' back', k.Follows out back out' back') ∧ k.rcvWnd = kcp.rcvWnd)
    (fun k => (p.sn, p.ts) ∈ k.ackList) data p mem
  · exact ⟨⟨out, back, .refl out, .refl back, few, refines.window, refines.transmits,
      refines.takes⟩, rfl⟩
  · rintro k q hq latest ⟨hfollows, hsame⟩
    exact ⟨follows_receive hfollows hout hback others (authentic q hq) latest,
      (hrcvWnd k q latest).trans hsame⟩
  · rintro k latest ⟨⟨out', back', hfollows⟩, hsame⟩
    have hinside := inside k out' back' hfollows
    rw [← hsame] at hinside
    rw [ackList_receive, if_pos ⟨cmd, hinside⟩]
    exact List.mem_append_right _ (List.mem_singleton_self _)
  · intro k q _ latest hnoted
    rw [ackList_receive]
    split
    · exact List.mem_append_left _ hnoted
    · exact hnoted
  · intro k una latest hnoted
    rw [← ackList_unheard, unheard_conclude, ackList_unheard]
    exact hnoted

end Input

theorem sndQueue_input (kcp : Ikcpcb) (data : List UInt8) :
    (kcp.input data).2.sndQueue = kcp.sndQueue :=
  (congrArg Ikcpcb.sndQueue (kcp.unread_input data) :)

/-- Without a call of `ikcp_send`, not more waits to be sent. -/
theorem waitsnd_apply_le (kcp : Ikcpcb) {call : Call} (other : ∀ buffer, call ≠ .send buffer) :
    (kcp.apply call).waitsnd ≤ kcp.waitsnd := by
  cases call with
  | send buffer => exact (other buffer rfl).elim
  | recv len => exact (congrArg waitsnd (kcp.unreceived_recv len) :).le
  | input data =>
      rw [apply, waitsnd, waitsnd, sndQueue_input]
      exact Nat.add_le_add_right (kcp.length_input_le data) _
  | update current =>
      rw [apply]
      exact update_induct (motive := fun k => k.waitsnd ≤ kcp.waitsnd) (fun _ => le_refl _)
        fun k hle => k.waitsnd_flush.le.trans hle
  | flush => exact kcp.waitsnd_flush.le

/-- Less does if each segment of a datagram says that the other side has the first one that is
kept. -/
theorem waitsnd_input_lt {kcp : Ikcpcb} {data : List UInt8} {p : Packet} {first : Seg}
    {rest : List Seg} (buf : kcp.sndBuf = first :: rest) (mem : p ∈ (segments kcp.conv data).1)
    (covers : ∀ q ∈ (segments kcp.conv data).1, itimediff q.una first.sn > 0) :
    (kcp.apply (.input data)).waitsnd < kcp.waitsnd := by
  rw [apply, waitsnd, waitsnd, sndQueue_input]
  exact Nat.add_lt_add_right (length_input_lt buf mem covers) _

end Ikcpcb

end Sxaint.Ikcp
