/-
# The datagrams that are sent

A flush writes segments to a buffer and passes it on when the next one does not fit. So whatever a
control block is called with, each datagram it sends is within the MTU, and is segments of its
conversation one after another, which the other side reads to the end. What the segments of one
flush are is said here once, for all that is proved of them later.
-/

import Sxaint.Ikcp.SendWindow

namespace Sxaint.Ikcp

open Transition

open Sxaint.Net.Kcp (overhead)

/-- Segments one after another, of a bounded number of bytes. -/
def Carries (mtu : ℕ) (written : Packet → Prop) (data : List UInt8) : Prop :=
  data.length ≤ mtu ∧
    ∃ packets : List Packet, (∀ p ∈ packets, written p) ∧ data = packets.flatMap Packet.encode

section Carries

variable {mtu : ℕ} {written : Packet → Prop} {data : List UInt8}

theorem carries_nil : Carries mtu written [] :=
  ⟨Nat.zero_le _, [], nofun, rfl⟩

theorem Carries.concat (carries : Carries mtu written data) {p : Packet} (here : written p)
    (fits : data.length + p.encode.length ≤ mtu) : Carries mtu written (data ++ p.encode) := by
  obtain ⟨-, packets, hall, rfl⟩ := carries
  refine ⟨by rwa [List.length_append], packets ++ [p], ?_, ?_⟩
  · intro q hq
    rcases List.mem_append.mp hq with hq | hq
    · exact hall q hq
    · obtain rfl := List.mem_singleton.mp hq
      exact here
  · rw [List.flatMap_append, List.flatMap_singleton]

theorem Carries.imp (carries : Carries mtu written data) {wanted : Packet → Prop}
    (sound : ∀ p, written p → wanted p) : Carries mtu wanted data := by
  obtain ⟨hlength, packets, hall, hdata⟩ := carries
  exact ⟨hlength, packets, fun p hp => sound p (hall p hp), hdata⟩

/-- The other side finds these segments in it, and nothing else. -/
theorem Carries.segments {conv : UInt32} (carries : Carries mtu written data)
    (valid : ∀ p, written p → p.Valid conv) :
    (segments conv data).2 = 0 ∧ data = (segments conv data).1.flatMap Packet.encode ∧
      ∀ p ∈ (segments conv data).1, written p := by
  obtain ⟨-, packets, hall, hdata⟩ := carries
  have hends : Ends conv [] 0 := .inl ⟨rfl, rfl⟩
  have hread : Ikcp.segments conv data = (packets, 0) :=
    (segmentsLoop_eq_iff (le_refl _)).mpr
      ⟨fun p hp => valid p (hall p hp), [], by rw [hdata, List.append_nil], hends⟩
  rw [hread]
  exact ⟨rfl, hdata, hall⟩

end Carries

namespace Scratch

/-- What is written to a buffer, and what was passed on since some datagrams were. -/
structure Writes (mtu : ℕ) (written : Packet → Prop) (before : List (List UInt8))
    (scratch : Scratch) : Prop where
  buffer : Carries mtu written scratch.buffer
  kept : before <+: scratch.outputs
  outputs : ∀ data ∈ scratch.outputs, data ∈ before ∨ data ≠ [] ∧ Carries mtu written data

section Writes

variable {mtu : UInt32} {written : Packet → Prop} {before : List (List UInt8)}
  {scratch : Scratch}

theorem writes_output (writes : scratch.Writes mtu.toNat written before) :
    scratch.output.Writes mtu.toNat written before := by
  rw [output]
  split
  · exact writes
  · rename_i hbuffer
    refine ⟨carries_nil, writes.kept.trans (List.prefix_append _ _), fun data hdata => ?_⟩
    rcases List.mem_append.mp hdata with hdata | hdata
    · exact writes.outputs data hdata
    · obtain rfl := List.mem_singleton.mp hdata
      exact .inr ⟨hbuffer, writes.buffer⟩

theorem writes_put (writes : scratch.Writes mtu.toNat written before) {seg : Seg}
    (here : written seg.packet) (fits : overhead + seg.data.length ≤ mtu.toNat) :
    (scratch.put mtu seg).Writes mtu.toNat written before := by
  have hlength : seg.packet.encode.length = overhead + seg.data.length :=
    seg.packet.length_encode
  rw [put]
  split
  · have hout := writes_output writes
    refine ⟨hout.buffer.concat here ?_, hout.kept, hout.outputs⟩
    rw [output]
    split
    · rename_i hbuffer
      rw [hbuffer, List.length_nil]
      omega
    · rw [List.length_nil]
      omega
  · exact ⟨writes.buffer.concat here (by omega), writes.kept, writes.outputs⟩

end Writes

end Scratch

namespace Ikcpcb

/-- The segments that a flush may write. -/
inductive Emits (kcp : Ikcpcb) : Packet → Prop
  | ack {sn ts : UInt32} (due : (sn, ts) ∈ kcp.ackList) :
    Emits kcp (kcp.header cmdAck sn ts).packet
  | wask (sn ts : UInt32) : Emits kcp (kcp.header cmdWask sn ts).packet
  | wins (sn ts : UInt32) : Emits kcp (kcp.header cmdWins sn ts).packet
  | push {seg : Seg} (kept : seg ∈ kcp.filled.sndBuf) :
    Emits kcp
      { seg.packet with wnd := kcp.wndUnused.toUInt16, ts := kcp.current, una := kcp.rcvNxt }

section Flush

variable {kcp : Ikcpcb} {mtu : UInt32} {written : Packet → Prop} {before : List (List UInt8)}
  {scratch : Scratch}

theorem writes_putAcks (room : overhead ≤ kcp.mtu.toNat)
    (writes : scratch.Writes kcp.mtu.toNat written before) (acks : List (UInt32 × UInt32))
    (here : ∀ sn ts, (sn, ts) ∈ acks → written (kcp.header cmdAck sn ts).packet) :
    (kcp.putAcks acks scratch).Writes kcp.mtu.toNat written before := by
  induction acks generalizing scratch with
  | nil => exact writes
  | cons ack rest ih =>
      apply ih
      · exact Scratch.writes_put writes (here _ _ List.mem_cons_self) room
      · exact fun sn ts hmem => here sn ts (List.mem_cons_of_mem _ hmem)

theorem writes_putProbe (room : overhead ≤ kcp.mtu.toNat)
    (writes : scratch.Writes kcp.mtu.toNat written before) (asked : Bool) (cmd : UInt8)
    (here : ∀ sn ts, written (kcp.header cmd sn ts).packet) :
    (kcp.putProbe asked cmd scratch).Writes kcp.mtu.toNat written before := by
  rw [putProbe]
  split
  · exact Scratch.writes_put writes (here _ _) room
  · exact writes

theorem writes_putSegs (wnd resent rtomin : UInt32) (segs : List Seg) (writing : Writing)
    (writes : writing.scratch.Writes kcp.mtu.toNat written before)
    (fits : ∀ seg ∈ segs, overhead + seg.data.length ≤ kcp.mtu.toNat)
    (here : ∀ seg ∈ segs, written
      { seg.packet with wnd := wnd.toUInt16, ts := kcp.current, una := kcp.rcvNxt }) :
    (kcp.putSegs wnd resent rtomin segs writing).2.scratch.Writes kcp.mtu.toNat written before := by
  induction segs generalizing writing with
  | nil => exact writes
  | cons seg rest ih =>
      obtain ⟨hfits, hrest⟩ := List.forall_mem_cons.mp fits
      obtain ⟨hhere, hothers⟩ := List.forall_mem_cons.mp here
      have hwritten : (kcp.putSeg wnd resent rtomin seg writing).2.scratch.Writes kcp.mtu.toNat
          written before := by
        simp only [putSeg]
        generalize kcp.needsend resent seg = why
        cases why with
        | no => exact writes
        | first | timeout | fast => exact Scratch.writes_put writes hhere hfits
      exact ih _ hwritten hrest hothers

/-- What a flush has written before the loop over `snd_buf`. -/
theorem writes_putAnswers (room : overhead ≤ kcp.mtu.toNat) :
    (kcp.askWindow.putAnswers { outputs := kcp.outputs }).Writes kcp.mtu.toNat kcp.Emits
      kcp.outputs := by
  have hmtu : kcp.askWindow.mtu = kcp.mtu := (congrArg Ikcpcb.mtu kcp.unasked_askWindow :)
  have hacks : kcp.askWindow.ackList = kcp.ackList :=
    (congrArg Ikcpcb.ackList kcp.unasked_askWindow :)
  have hheader (cmd : UInt8) (sn ts : UInt32) :
      kcp.askWindow.header cmd sn ts = kcp.header cmd sn ts :=
    (congrArg (fun k => header k cmd sn ts) kcp.unasked_askWindow :)
  rw [← hmtu] at room ⊢
  apply writes_putProbe room
  · apply writes_putProbe room
    · apply writes_putAcks room
      · exact ⟨carries_nil, List.prefix_refl _, fun data hdata => .inl hdata⟩
      · intro sn ts hmem
        rw [hacks] at hmem
        rw [hheader]
        exact .ack hmem
    · intro sn ts
      rw [hheader]
      exact .wask sn ts
  · intro sn ts
    rw [hheader]
    exact .wins sn ts

/-- What a flush passes on are datagrams within the MTU, of segments that it may write. -/
theorem outputs_flush (room : overhead ≤ kcp.mtu.toNat)
    (fits : ∀ seg ∈ kcp.filled.sndBuf, overhead + seg.data.length ≤ kcp.mtu.toNat) :
    kcp.outputs <+: kcp.flush.outputs ∧ ∀ data ∈ kcp.flush.outputs,
      data ∈ kcp.outputs ∨ data ≠ [] ∧ Carries kcp.mtu.toNat kcp.Emits data := by
  cases hupdated : kcp.updated with
  | false =>
      rw [flush, hupdated]
      exact ⟨List.prefix_refl _, fun data hdata => .inl hdata⟩
  | true =>
      have houtputs : kcp.flush.outputs = kcp.written.2.scratch.output.outputs :=
        (congrArg Ikcpcb.outputs (uncongested_flush hupdated) :)
      have hmtu : kcp.filled.mtu = kcp.mtu := (congrArg Ikcpcb.mtu kcp.unflushed_filled :)
      have hcurrent : kcp.filled.current = kcp.current :=
        (congrArg Ikcpcb.current kcp.unflushed_filled :)
      have hrcvNxt : kcp.filled.rcvNxt = kcp.rcvNxt :=
        (congrArg Ikcpcb.rcvNxt kcp.unflushed_filled :)
      have hanswers := writes_putAnswers room
      rw [← hmtu] at hanswers fits ⊢
      have hwritten := Scratch.writes_output (writes_putSegs kcp.wndUnused kcp.resent kcp.rtomin
        kcp.filled.sndBuf { scratch := _, xmit := kcp.xmit, state := kcp.state } hanswers fits (by
          intro seg hseg
          rw [hcurrent, hrcvNxt]
          exact .push hseg))
      rw [houtputs]
      exact ⟨hwritten.kept, hwritten.outputs⟩

end Flush

/-! ## Any calls -/

/-- Every segment that is kept for sending fits a datagram, and those with a number are ready to be
sent. -/
structure Sized (conv : UInt32) (kcp : Ikcpcb) : Prop where
  configured : kcp.Configured conv
  queue : ∀ seg ∈ kcp.sndQueue, seg.data.length ≤ kcp.mss.toNat
  buf : ∀ seg ∈ kcp.sndBuf,
    seg.conv = conv ∧ seg.cmd = cmdPush ∧ seg.data.length ≤ kcp.mss.toNat

/-- A segment that fits a datagram. Only those that carry data have any. -/
structure Fits (conv : UInt32) (mss : UInt32) (p : Packet) : Prop where
  valid : p.Valid conv
  size : p.data.length ≤ mss.toNat
  bare : p.cmd ≠ cmdPush → p.data = []

section Keeps

variable {conv : UInt32} {kcp : Ikcpcb}

theorem Sized.of_among {k : Ikcpcb} (sized : kcp.Sized conv)
    (configuration : k.configuration = kcp.configuration) (queue : k.sndQueue = kcp.sndQueue)
    (among : Among k.sndBuf kcp.sndBuf) : k.Sized conv := by
  have hmss : k.mss = kcp.mss := (congrArg (fun c => c.2.2.1) configuration :)
  refine ⟨sized.configured.of_configuration configuration, ?_, ?_⟩
  · rw [queue, hmss]
    exact sized.queue
  · rw [hmss]
    exact among.forall (fun _ => Iff.rfl) sized.buf

theorem length_fragments (stream : Bool) (mss count : ℕ) (buffer : List UInt8) :
    ∀ seg ∈ fragments stream mss count buffer, seg.data.length ≤ mss := by
  induction count generalizing buffer with
  | zero => nofun
  | succ count ih =>
      rw [fragments]
      exact List.forall_mem_cons.mpr ⟨List.length_take_le _ _, ih _⟩

theorem length_extend (buffer : List UInt8)
    (queue : ∀ seg ∈ kcp.sndQueue, seg.data.length ≤ kcp.mss.toNat) :
    ∀ seg ∈ (kcp.extend buffer).sndQueue, seg.data.length ≤ kcp.mss.toNat := by
  rw [extend]
  split
  · rename_i old hlast
    split
    · rename_i hroom
      intro seg hseg
      rcases List.mem_append.mp hseg with hseg | hseg
      · exact queue seg (List.mem_of_mem_dropLast hseg)
      · obtain rfl := List.mem_singleton.mp hseg
        have hcapacity : kcp.capacity = kcp.mss.toNat - old.data.length := by
          rw [capacity, hroom.1, hlast]
        have htaken := List.length_take_le kcp.capacity buffer
        dsimp only
        rw [List.length_append]
        omega
    · exact queue
  · exact queue

theorem sized_send (sized : kcp.Sized conv) (buffer : List UInt8) :
    (kcp.send buffer).2.Sized conv := by
  have hsame := kcp.unqueued_send buffer
  have hmss : (kcp.send buffer).2.mss = kcp.mss := (congrArg Ikcpcb.mss hsame :)
  have hbuf : (kcp.send buffer).2.sndBuf = kcp.sndBuf := (congrArg Ikcpcb.sndBuf hsame :)
  refine ⟨sized.configured.of_configuration (congrArg configuration hsame :), ?_, ?_⟩
  · have hextend := length_extend buffer sized.queue
    rw [hmss]
    simp only [send]
    split
    · exact hextend
    split
    · split
      · exact hextend
      · exact hextend
    · intro seg hseg
      rcases List.mem_append.mp hseg with hseg | hseg
      · exact hextend seg hseg
      · exact length_fragments _ _ _ _ seg hseg
  · rw [hbuf, hmss]
    exact sized.buf

theorem sized_filled (sized : kcp.Sized conv) : kcp.filled.Sized conv := by
  refine fill_induct (motive := Sized conv) ?_ ?_
  · have hasked := kcp.unasked_askWindow
    refine sized.of_among (congrArg configuration hasked :) rfl ?_
    have hbuf : kcp.askWindow.sndBuf = kcp.sndBuf := (congrArg Ikcpcb.sndBuf hasked :)
    rw [hbuf]
    exact List.Subset.refl _
  · rintro k newseg rest hqueue - sized
    obtain ⟨hnew, hrest⟩ := List.forall_mem_cons.mp (hqueue ▸ sized.queue)
    refine ⟨sized.configured.of_configuration rfl, hrest, fun seg hseg => ?_⟩
    rcases List.mem_append.mp hseg with hseg | hseg
    · exact sized.buf seg hseg
    · obtain rfl := List.mem_singleton.mp hseg
      exact ⟨sized.configured.conv, rfl, hnew⟩

theorem sized_flush (sized : kcp.Sized conv) : kcp.flush.Sized conv := by
  cases hupdated : kcp.updated with
  | false =>
      rw [flush, hupdated]
      exact sized
  | true =>
      have hflush := uncongested_flush hupdated
      have hqueue : kcp.flush.sndQueue = kcp.filled.sndQueue :=
        (congrArg Ikcpcb.sndQueue hflush :)
      have hbuf : kcp.flush.sndBuf = kcp.written.1 := (congrArg Ikcpcb.sndBuf hflush :)
      refine (sized_filled sized).of_among (congrArg configuration hflush :) hqueue ?_
      rw [hbuf, Among, untimed_written]
      exact List.Subset.refl _

theorem sized_apply (sized : kcp.Sized conv) (call : Call) : (kcp.apply call).Sized conv := by
  cases call with
  | send buffer => exact sized_send sized buffer
  | recv len =>
      have hsame := kcp.unreceived_recv len
      have hqueue : (kcp.recv len).2.2.sndQueue = kcp.sndQueue := (congrArg Ikcpcb.sndQueue hsame :)
      have hbuf : (kcp.recv len).2.2.sndBuf = kcp.sndBuf := (congrArg Ikcpcb.sndBuf hsame :)
      refine sized.of_among (kcp.configuration_apply (.recv len)) hqueue ?_
      rw [apply, hbuf]
      exact List.Subset.refl _
  | input data =>
      have hqueue : (kcp.input data).2.sndQueue = kcp.sndQueue :=
        (congrArg Ikcpcb.sndQueue (kcp.unread_input data) :)
      exact sized.of_among (kcp.configuration_apply (.input data)) hqueue (kcp.among_input data)
  | update current =>
      rw [apply]
      exact update_induct (motive := Sized conv)
        (fun _ => sized.of_among rfl rfl (List.Subset.refl _)) fun _ => sized_flush
  | flush => exact sized_flush sized

/-- What a control block may write is a segment of its conversation, and fits. -/
theorem fits_of_emits (sized : kcp.Sized conv) {p : Packet} (emits : kcp.Emits p) :
    Fits conv kcp.mss p := by
  have hconv := sized.configured.conv
  cases emits with
  | ack due => exact ⟨⟨hconv, .inr (.inl rfl), Nat.two_pow_pos 31⟩, Nat.zero_le _,
      fun _ => rfl⟩
  | wask sn ts => exact ⟨⟨hconv, .inr (.inr (.inl rfl)), Nat.two_pow_pos 31⟩, Nat.zero_le _,
      fun _ => rfl⟩
  | wins sn ts => exact ⟨⟨hconv, .inr (.inr (.inr rfl)), Nat.two_pow_pos 31⟩, Nat.zero_le _,
      fun _ => rfl⟩
  | @push seg kept =>
      obtain ⟨hseg, hcmd, hsize⟩ := (sized_filled sized).buf seg kept
      have hmss : kcp.filled.mss = kcp.mss := (congrArg Ikcpcb.mss kcp.unflushed_filled :)
      rw [hmss] at hsize
      exact ⟨⟨hseg, .inl hcmd, hsize.trans_lt sized.configured.mss.2⟩, hsize,
        fun hother => (hother hcmd).elim⟩

/-- What is passed on in a flush are datagrams within the MTU, of segments that may be written. -/
theorem Sized.outputs_flush (sized : kcp.Sized conv) :
    kcp.outputs <+: kcp.flush.outputs ∧ ∀ data ∈ kcp.flush.outputs,
      data ∈ kcp.outputs ∨ data ≠ [] ∧ Carries kcp.mtu.toNat kcp.Emits data := by
  have hmtu := sized.configured.mtu
  apply Ikcpcb.outputs_flush
  · omega
  · intro seg hseg
    have hsize := ((sized_filled sized).buf seg hseg).2.2
    have hmss : kcp.filled.mss = kcp.mss := (congrArg Ikcpcb.mss kcp.unflushed_filled :)
    rw [hmss] at hsize
    omega

/-- Every datagram that was sent is within the MTU, of segments of the conversation that fit. -/
structure Sent (conv : UInt32) (kcp : Ikcpcb) : Prop where
  sized : kcp.Sized conv
  outputs : ∀ data ∈ kcp.outputs, data ≠ [] ∧ Carries kcp.mtu.toNat (Fits conv kcp.mss) data

theorem sent_flush (sent : kcp.Sent conv) : kcp.flush.Sent conv := by
  have hconfiguration := kcp.configuration_flush
  have hmtu : kcp.flush.mtu = kcp.mtu := (congrArg (fun c => c.2.1) hconfiguration :)
  have hmss : kcp.flush.mss = kcp.mss := (congrArg (fun c => c.2.2.1) hconfiguration :)
  refine ⟨sized_flush sent.sized, fun data hdata => ?_⟩
  rw [hmtu, hmss]
  rcases sent.sized.outputs_flush.2 data hdata with hold | ⟨hne, hcarries⟩
  · exact sent.outputs data hold
  · exact ⟨hne, hcarries.imp fun _ => fits_of_emits sent.sized⟩

theorem Sent.of_outputs {k : Ikcpcb} (sent : kcp.Sent conv) (sized : k.Sized conv)
    (configuration : k.configuration = kcp.configuration) (outputs : k.outputs = kcp.outputs) :
    k.Sent conv := by
  have hmtu : k.mtu = kcp.mtu := (congrArg (fun c => c.2.1) configuration :)
  have hmss : k.mss = kcp.mss := (congrArg (fun c => c.2.2.1) configuration :)
  refine ⟨sized, ?_⟩
  rw [hmtu, hmss, outputs]
  exact sent.outputs

theorem sent_apply (sent : kcp.Sent conv) (call : Call) : (kcp.apply call).Sent conv := by
  have hsized := sized_apply sent.sized call
  have hconfiguration := kcp.configuration_apply call
  cases call with
  | send buffer =>
      exact sent.of_outputs hsized hconfiguration
        (congrArg Ikcpcb.outputs (kcp.unqueued_send buffer) :)
  | recv len =>
      exact sent.of_outputs hsized hconfiguration
        (congrArg Ikcpcb.outputs (kcp.unreceived_recv len) :)
  | input data =>
      exact sent.of_outputs hsized hconfiguration
        (congrArg Ikcpcb.outputs (kcp.unread_input data) :)
  | update current =>
      rw [apply]
      refine update_induct (motive := Sent conv) (fun _ => ?_) fun _ => sent_flush
      exact sent.of_outputs (sent.sized.of_among rfl rfl (List.Subset.refl _)) rfl rfl
  | flush => exact sent_flush sent

end Keeps

theorem sized_of_setUp {conv : UInt32} {start : Ikcpcb} (setUp : SetUp conv start) :
    start.Sized conv := by
  have hbare := bare_of_setUp setUp
  have hqueue : start.sndQueue = [] := (congrArg Ikcpcb.sndQueue hbare :)
  have hbuf : start.sndBuf = [] := (congrArg Ikcpcb.sndBuf hbare :)
  refine ⟨configured_of_setUp setUp, ?_, ?_⟩
  · rw [hqueue]
    nofun
  · rw [hbuf]
    nofun

theorem sent_of_setUp {conv : UInt32} {start : Ikcpcb} (setUp : SetUp conv start) :
    start.Sent conv := by
  have houtputs : start.outputs = [] := (congrArg Ikcpcb.outputs (bare_of_setUp setUp) :)
  refine ⟨sized_of_setUp setUp, ?_⟩
  rw [houtputs]
  nofun

/-- Whatever a control block is called with, each datagram it sends is within the MTU, and is some
segments one after another, which the other side reads to the end: each is of the conversation, has
not more data than a segment may have, and none at all if it is not one that carries data. -/
theorem outputs_of_run {conv : UInt32} {start : Ikcpcb} (setUp : SetUp conv start)
    {calls : List Call} {kcp : Ikcpcb} (run : (machine start).Run calls kcp) {data : List UInt8}
    (sent : data ∈ kcp.outputs) :
    data ≠ [] ∧ data.length ≤ kcp.mtu.toNat ∧ (segments conv data).2 = 0 ∧
      data = (segments conv data).1.flatMap Packet.encode ∧
      ∀ p ∈ (segments conv data).1,
        p.data.length ≤ kcp.mss.toNat ∧ (p.cmd ≠ cmdPush → p.data = []) := by
  have hsent : kcp.Sent conv := by
    refine run.invariant (sent_of_setUp setUp) ?_
    rintro state call next hsent - ⟨⟩
    exact sent_apply hsent call
  obtain ⟨hne, hcarries⟩ := hsent.outputs data sent
  obtain ⟨hcode, hdata, hfits⟩ := hcarries.segments fun p fits => fits.valid
  exact ⟨hne, hcarries.1, hcode, hdata, fun p hp => ⟨(hfits p hp).size, (hfits p hp).bare⟩⟩

/-- A segment is sent. -/
theorem outputs_of_transport :
    let M := machine (ofTransport 0x11223344 1 5 2 1)
    let kcp := M.reached [.update 0, .send [1, 2, 3], .flush]
    let data : List UInt8 :=
      [68, 51, 34, 17, 81, 0, 0, 16, 0, 0, 0, 0, 0, 0, 0, 0, 0, 0, 0, 0, 3, 0, 0, 0, 1, 2, 3]
    data ≠ [] ∧ data.length ≤ kcp.mtu.toNat ∧ (segments 0x11223344 data).2 = 0 ∧
      data = (segments 0x11223344 data).1.flatMap Packet.encode ∧
      ∀ p ∈ (segments 0x11223344 data).1,
        p.data.length ≤ kcp.mss.toNat ∧ (p.cmd ≠ cmdPush → p.data = []) :=
  outputs_of_run (setUp_ofTransport _ _ _ _ _) (Machine.run_reached rfl) (by decide +kernel)

end Ikcpcb

end Sxaint.Ikcp
