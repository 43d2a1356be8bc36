/-
# The streams of a transport

Each stream of a transport is a control block of the vendored KCP, set up by `connect` or `listen`.
What the network thread and `sendChunk` do to a stream is a few calls of its control block: which
ones, and which bytes they give and take, is said here for one stream at a time.
-/

import Sxaint.Ikcp.Delivery
import Sxaint.Net.Frames
import Sxaint.Net.NetLoop

namespace Sxaint.Net

open Transition

open Sxaint.Ikcp (Call Ikcpcb Pair Side)

/-- `KCPTransport::Config`. The windows and the MTU in it are not read. -/
structure Config where
  convId : UInt32 := 0x11223344
  nodelay : Int32 := 1
  interval : Int32 := 5
  resend : Int32 := 2
  nc : Int32 := 1
  deriving DecidableEq, Repr

/-- The streams that `connect` and `listen` create. -/
def Config.kcps (config : Config) (stream : Fin kNumStreams) : Ikcpcb :=
  .ofTransport (config.convId + UInt32.ofNat stream) config.nodelay config.interval config.resend
    config.nc

/-- The vendored KCP, as a transport calls it. -/
def Kcp.ikcpcb : Kcp Ikcpcb where
  input data kcp := (kcp.input data).2
  flush := Ikcpcb.flush
  update := Ikcpcb.update
  recv kcp := (kcp.recv recvBufSize).2
  send data kcp := (decide (0 ≤ (kcp.send data).1), (kcp.send data).2)

theorem Kcp.ikcpcb_update (current : UInt32) (kcp : Ikcpcb) :
    Kcp.ikcpcb.update current kcp = kcp.apply (.update current) := by
  rw [Ikcpcb.apply, ikcpcb]

/-! ## Sending -/

/-- What the set-up of a transport assigns for `ikcp_send`. -/
def Ample (kcp : Ikcpcb) : Prop :=
  kcp.stream = true ∧ kcp.mss = 16360

/-- A piece of a frame needs few segments, so none is refused. -/
theorem accepted_send {kcp : Ikcpcb} (ample : Ample kcp) {data : List UInt8}
    (small : data.length ≤ maxSendSize.toNat) :
    0 ≤ (kcp.send data).1 ∧ Pair.accepted kcp (.send data) = [data] := by
  obtain ⟨hstream, hmss⟩ := ample
  rw [toNat_maxSendSize] at small
  have hcode : (kcp.send data).1 = data.length := by
    simp only [Ikcpcb.send, hstream, true_and]
    split
    · rename_i hnothing
      rw [hnothing, List.length_nil, Nat.sub_zero]
    · have hcount : Ikcpcb.fragmentCount kcp.mss.toNat (data.drop kcp.capacity).length <
          Ikcp.wndRcv := by
        have hnat : (16360 : UInt32).toNat = 16360 := rfl
        rw [hmss, hnat, Ikcpcb.fragmentCount, List.length_drop, Ikcp.wndRcv]
        split <;> omega
      rw [if_neg (Nat.not_le_of_lt hcount)]
  have hnonneg : 0 ≤ (kcp.send data).1 := by
    rw [hcode]
    exact Int.natCast_nonneg _
  refine ⟨hnonneg, ?_⟩
  rw [Pair.accepted, if_pos hnonneg, hcode, Int.toNat_natCast, List.take_length]

theorem Ample.of_configuration {kcp k : Ikcpcb} (ample : Ample kcp)
    (same : k.configuration = kcp.configuration) : Ample k := by
  have hmss : k.mss = kcp.mss := (congrArg (fun c => c.2.2.1) same :)
  have hstream : k.stream = kcp.stream := (congrArg (fun c => c.2.2.2.2.2.2.2.2.2.2) same :)
  exact ⟨hstream.trans ample.1, hmss.trans ample.2⟩

theorem ample_kcps (config : Config) (stream : Fin kNumStreams) : Ample (config.kcps stream) :=
  ⟨rfl, rfl⟩

section Calls

variable {kcps : Side → Ikcpcb} {side : Side} {p : Pair}

/-- The loop of `sendChunk` over the rest of a frame. -/
theorem calls_sendLoop {rounds : ℕ} {rest : List UInt8} (enough : rest.length ≤ rounds)
    (ample : Ample (p.kcps side)) :
    ∃ next, next.kcps side = Kcp.ikcpcb.sendLoop rounds rest (p.kcps side) ∧
      Pair.Calls kcps side p next rest [] := by
  induction rounds generalizing rest p with
  | zero =>
      obtain rfl := List.length_eq_zero_iff.mp (Nat.le_zero.mp enough)
      exact ⟨p, rfl, .refl⟩
  | succ rounds ih =>
      by_cases hnil : rest = []
      · subst hnil
        exact ⟨p, rfl, .refl⟩
      · obtain ⟨hcode, haccepted⟩ := @accepted_send (p.kcps side) ample
          (rest.take maxSendSize.toNat) (List.length_take_le _ _)
        obtain ⟨first, hfirst, hcalls⟩ :=
          @Pair.calls_call side p kcps (.send (rest.take maxSendSize.toNat)) trivial
        have hample : Ample (first.kcps side) := by
          rw [hfirst]
          exact ample.of_configuration ((p.kcps side).configuration_apply _)
        have hleft : (rest.drop maxSendSize.toNat).length ≤ rounds := by
          have hpositive := List.length_pos_iff.mpr hnil
          rw [List.length_drop, toNat_maxSendSize]
          omega
        obtain ⟨next, hnext, hrest⟩ := ih hleft hample
        refine ⟨next, ?_, ?_⟩
        · rw [hnext, hfirst, Kcp.sendLoop, if_neg hnil]
          have hsend : Kcp.ikcpcb.send (rest.take maxSendSize.toNat) (p.kcps side) =
              (true, (p.kcps side).apply (.send (rest.take maxSendSize.toNat))) :=
            Prod.ext (decide_eq_true hcode) rfl
          rw [hsend]
        · have htrans := hcalls.trans hrest
          rw [haccepted, List.flatten_singleton, List.take_append_drop] at htrans
          exact htrans

/-- A call of `sendChunk` gives the frame of its payload to the stream. -/
theorem calls_sendChunk {rawPayload : List UInt8} (sizable : Sizable rawPayload)
    (ample : Ample (p.kcps side)) :
    ∃ next, next.kcps side = Kcp.ikcpcb.sendChunk rawPayload (p.kcps side) ∧
      Pair.Calls kcps side p next (frame rawPayload) [] := by
  have hsize : (toInt (frame rawPayload).length).toNat = (frame rawPayload).length := by
    rw [toInt_length_frame sizable, Int.toNat_natCast]
  obtain ⟨sent, hsent, hcalls⟩ := @calls_sendLoop kcps side p _ (frame rawPayload) (le_refl _) ample
  obtain ⟨next, hnext, hflush⟩ := @Pair.calls_call side sent kcps .flush trivial
  refine ⟨next, ?_, ?_⟩
  · rw [hnext, hsent, Kcp.sendChunk, hsize, List.take_length]
    rfl
  · have htrans := hcalls.trans hflush
    rw [Pair.accepted, Pair.returned, List.flatten_nil, List.append_nil, List.append_nil] at htrans
    exact htrans

/-! ## Receiving -/

/-- What is returned is what is copied. -/
theorem returned_recv (kcp : Ikcpcb) :
    (Pair.returned kcp (.recv Kcp.recvBufSize)).flatten = (Kcp.ikcpcb.recv kcp).1 := by
  have hnonneg : (0 : ℤ) ≤ Kcp.recvBufSize := Int.natCast_nonneg _
  have hnothing : (kcp.recv Kcp.recvBufSize).1 < 0 → (kcp.recv Kcp.recvBufSize).2.1 = [] := by
    rw [Ikcpcb.recv]
    split
    · exact fun _ => rfl
    split
    · exact fun _ => rfl
    split
    · exact fun _ => rfl
    · intro hneg
      exact absurd hneg (not_lt.mpr (Int.natCast_nonneg _))
  rw [Pair.returned]
  by_cases hcode : 0 ≤ (kcp.recv Kcp.recvBufSize).1
  · rw [if_pos ⟨hnonneg, hcode⟩, List.flatten_singleton]
    rfl
  · rw [if_neg fun h => hcode h.2]
    exact (hnothing (not_le.mp hcode)).symm

/-- A frame that is found in a buffer was at its front, and is found in front of anything else. -/
theorem frame_of_parse {streamBuffer finalData left : List UInt8}
    (found : parse streamBuffer = .frame finalData left) :
    streamBuffer = frame finalData ++ left ∧
      ∀ rest, parse (frame finalData ++ rest) = .frame finalData rest := by
  obtain ⟨hfour, hinside, hdata, hleft⟩ : 4 ≤ streamBuffer.length ∧
      4 + (UInt32.ofNat (LittleEndian.decode (streamBuffer.take 4))).toNat ≤ streamBuffer.length ∧
      finalData = Buffer.block streamBuffer 4
        (UInt32.ofNat (LittleEndian.decode (streamBuffer.take 4))).toNat ∧
      left = streamBuffer.drop
        (4 + (UInt32.ofNat (LittleEndian.decode (streamBuffer.take 4))).toNat) := by
    rw [parse] at found
    split at found
    swap
    · cases found
    rename_i hfour
    dsimp only at found
    split at found
    swap
    · cases found
    split at found
    · cases found
    · rename_i hinside
      cases found
      exact ⟨hfour, Nat.le_of_not_lt hinside, rfl, rfl⟩
  have htake : (streamBuffer.take 4).length = 4 := List.length_take_of_le hfour
  generalize hsize : UInt32.ofNat (LittleEndian.decode (streamBuffer.take 4)) = frameLength at *
  have hlength : finalData.length = frameLength.toNat := by
    rw [hdata]
    exact Buffer.length_block_of_le hinside
  have hnumber : LittleEndian.encode 4 (UInt32.ofNat finalData.length).toNat =
      streamBuffer.take 4 := by
    have hlt := LittleEndian.decode_lt (streamBuffer.take 4)
    have hround := LittleEndian.encode_decode (streamBuffer.take 4)
    have hrange : 256 ^ 4 = 2 ^ 32 := rfl
    rw [htake] at hlt hround
    rw [hrange] at hlt
    rw [hlength, UInt32.ofNat_toNat, ← hsize, UInt32.toNat_ofNat', Nat.mod_eq_of_lt hlt, hround]
  constructor
  · rw [frame, hnumber, hdata, hleft, List.append_assoc, Ikcp.block_append_drop,
      List.take_append_drop]
  · intro rest
    have hfront : (frame finalData ++ rest).take 4 = streamBuffer.take 4 := by
      rw [frame, hnumber, List.append_assoc]
      exact List.take_left' htake
    have hsum : (4 + frameLength).toNat ≤ 4 + frameLength.toNat := by
      rw [UInt32.toNat_add]
      exact Nat.mod_le _ _
    have hrest : (frame finalData ++ rest).length = 4 + frameLength.toNat + rest.length := by
      rw [List.length_append, length_frame, hlength, Nat.add_comm frameLength.toNat]
    rw [parse, hfront, hsize, if_pos (by omega)]
    dsimp only
    rw [if_pos (by omega), if_neg (by omega)]
    congr 1
    · have hprefix : (LittleEndian.encode 4 (UInt32.ofNat finalData.length).toNat).length = 4 :=
        LittleEndian.length_encode _ _
      rw [frame, List.append_assoc, Buffer.block_append_of_le hprefix.le, hprefix, Nat.sub_self,
        Buffer.block_append_front hlength]
    · rw [← hlength, Nat.add_comm, ← length_frame, List.drop_left]

/-- A datagram of another conversation is refused. -/
theorem input_of_foreign {kcp : Ikcpcb} {data : List UInt8} (long : Kcp.overhead ≤ data.length)
    (foreign : readU32 data 0 ≠ kcp.conv) : kcp.input data = (-1, kcp) := by
  have hfront : Ikcp.front kcp.conv data = .refused (-1) := by
    rw [Ikcp.front, if_neg (Nat.not_lt_of_le long), if_pos foreign]
  have hpositive : data.length ≠ 0 := by
    rw [Kcp.overhead] at long
    omega
  obtain ⟨rounds, hrounds⟩ := Nat.exists_eq_succ_of_ne_zero hpositive
  rw [Ikcpcb.input, if_neg (Nat.not_lt_of_le long), hrounds, Ikcpcb.inputLoop, hfront]
  rfl

/-- The conversation of a datagram is in its first bytes. -/
theorem conv_of_sent {conv : UInt32} {kcp : Ikcpcb} (sent : kcp.Sent conv) {data : List UInt8}
    (output : data ∈ kcp.outputs) : Kcp.overhead ≤ data.length ∧ readU32 data 0 = conv := by
  obtain ⟨hne, -, packets, hfits, hdata⟩ := sent.outputs data output
  cases packets with
  | nil => exact (hne hdata).elim
  | cons first packets =>
      rw [List.flatMap_cons] at hdata
      have hheader := (first.header_encode (packets.flatMap Ikcp.Packet.encode)).1
      rw [← hdata, (hfits first List.mem_cons_self).valid.conv] at hheader
      refine ⟨?_, hheader⟩
      rw [hdata, List.length_append, first.length_encode, Nat.add_assoc]
      exact Nat.le_add_right _ _

end Calls

/-! ## A step of the transport -/

/-- A payload with its stream. -/
abbrev Payload :=
  Fin kNumStreams × List UInt8

/-- The payloads on a stream. -/
def onStream (stream : Fin kNumStreams) (payloads : List Payload) : List (List UInt8) :=
  (payloads.filter fun payload => payload.1 = stream).map Prod.snd

theorem onStream_append (stream : Fin kNumStreams) (payloads others : List Payload) :
    onStream stream (payloads ++ others) = onStream stream payloads ++ onStream stream others := by
  rw [onStream, List.filter_append, List.map_append]
  rfl

theorem onStream_singleton (stream : Fin kNumStreams) (rawPayload : List UInt8) :
    onStream stream [(stream, rawPayload)] = [rawPayload] := by
  simp [onStream]

theorem onStream_singleton_of_ne {stream other : Fin kNumStreams} (ne : other ≠ stream)
    (rawPayload : List UInt8) : onStream stream [(other, rawPayload)] = [] := by
  simp [onStream, ne]

theorem mem_of_mem_onStream {stream : Fin kNumStreams} {payloads : List Payload}
    {rawPayload : List UInt8} (mem : rawPayload ∈ onStream stream payloads) :
    (stream, rawPayload) ∈ payloads := by
  obtain ⟨payload, hpayload, rfl⟩ := List.mem_map.mp mem
  obtain ⟨hmem, hstream⟩ := List.mem_filter.mp hpayload
  rw [← of_decide_eq_true hstream]
  exact hmem

namespace Listening

variable {α : Type}

/-- The payloads that are handed to `sendChunk` in a step. -/
def submitted : NetEvent α → List Payload
  | .sendChunk rawPayload streamId => [(streamFor streamId, rawPayload)]
  | .clock _ | .recvfrom _ | .advance => []

/-- The payloads that are passed on in a step. -/
def passed {κ : Type} (s : Listening α κ) : NetEvent α → List Payload
  | .advance =>
    match s.pc with
    | .parse stream _ =>
      match parse (s.streamBuffer stream) with
      | .frame finalData _ => [(stream, finalData)]
      | .more | .overrun => []
    | .begin | .burst _ | .update _ _ | .recv _ => []
  | .clock _ | .recvfrom _ | .sendChunk _ _ => []

theorem kcps_setKcp_self {κ : Type} (s : Listening α κ) (stream : Fin kNumStreams) (kcp : κ) :
    (s.setKcp stream kcp).kcps stream = kcp :=
  Function.update_self _ _ _

theorem kcps_setKcp_of_ne {κ : Type} {s : Listening α κ} {stream other : Fin kNumStreams}
    (ne : stream ≠ other) (kcp : κ) : (s.setKcp other kcp).kcps stream = s.kcps stream :=
  Function.update_of_ne ne _ _

theorem kcps_accept {κ : Type} (K : Kcp κ) (source : α) (data : List UInt8) (s : Listening α κ) :
    (s.accept K source data).kcps =
        Function.update s.kcps (streamOf data) (K.flush (K.input data (s.kcps (streamOf data)))) ∧
      (s.accept K source data).streamBuffer = s.streamBuffer := by
  unfold accept
  dsimp only
  split <;> exact ⟨rfl, rfl⟩

/-- What the calls of a stream keep, a step keeps. -/
theorem kcps_of_calls (holds : Fin kNumStreams → Ikcpcb → Prop)
    (apply : ∀ stream kcp call, holds stream kcp → holds stream (kcp.apply call))
    {event : NetEvent α} {s next : Listening α Ikcpcb} (taken : step Kcp.ikcpcb event s = some next)
    (before : ∀ stream, holds stream (s.kcps stream)) :
    ∀ stream, holds stream (next.kcps stream) := by
  refine kcps_of_step holds (fun stream data kcp => apply stream kcp (.input data))
    (fun stream kcp => apply stream kcp .flush) ?_
    (fun stream kcp => apply stream kcp (.recv Kcp.recvBufSize))
    (fun _ stream data kcp => apply stream kcp (.send data)) taken before
  intro stream now kcp h
  rw [Kcp.ikcpcb_update]
  exact apply stream kcp (.update now) h

/-- What becomes of a stream are some calls of its control block, in which some payloads are given
and, with what is left in the buffer, some are taken. -/
def AsCalls (kcps : Side → Ikcpcb) (side : Side) (p : Pair) (stream : Fin kNumStreams)
    (s next : Listening α Ikcpcb) (given taken : List Payload) : Prop :=
  ∃ after bytes, after.kcps side = next.kcps stream ∧
    Pair.Calls kcps side p after (frameFormat.stream (onStream stream given)) bytes ∧
    frameFormat.stream (onStream stream taken) ++ next.streamBuffer stream =
      s.streamBuffer stream ++ bytes

section Step

variable {kcps : Side → Ikcpcb} {side : Side} {p : Pair} {stream : Fin kNumStreams}
  {s next : Listening α Ikcpcb} {given taken : List Payload}

/-- Nothing happens to the stream. -/
theorem asCalls_none (here : p.kcps side = s.kcps stream)
    (kcp : next.kcps stream = s.kcps stream)
    (buffer : next.streamBuffer stream = s.streamBuffer stream)
    (none_given : onStream stream given = []) (none_taken : onStream stream taken = []) :
    AsCalls kcps side p stream s next given taken := by
  refine ⟨p, [], here.trans kcp.symm, ?_, ?_⟩
  · rw [none_given]
    exact .refl
  · rw [none_taken, buffer, List.append_nil]
    rfl

/-- A datagram is given to the stream, which is flushed. -/
theorem asCalls_accept {data : List UInt8} (here : p.kcps side = s.kcps stream) (source : α)
    (arrives : p.possible side (.input data) ∨
      Kcp.ikcpcb.input data (s.kcps stream) = s.kcps stream) :
    AsCalls kcps side p stream s (s.accept Kcp.ikcpcb source data) [] [] := by
  obtain ⟨hkcps, hbuffer⟩ := s.kcps_accept Kcp.ikcpcb source data
  by_cases hstream : stream = streamOf data
  swap
  · apply asCalls_none here ?_ (congrFun hbuffer stream) rfl rfl
    rw [hkcps, Function.update_of_ne hstream]
  subst hstream
  rw [AsCalls, hkcps, Function.update_self, hbuffer]
  rcases arrives with hpossible | hrefused
  · obtain ⟨read, hread, hinput⟩ := Pair.calls_call kcps (.input data) hpossible
    obtain ⟨after, hafter, hflush⟩ := @Pair.calls_call side read kcps .flush trivial
    refine ⟨after, [], ?_, hinput.trans hflush, (List.append_nil _).symm⟩
    rw [hafter, hread, here]
    rfl
  · obtain ⟨after, hafter, hflush⟩ := @Pair.calls_call side p kcps .flush trivial
    refine ⟨after, [], ?_, hflush, (List.append_nil _).symm⟩
    rw [hafter, here, hrefused]
    rfl

/-- A payload is handed to `sendChunk`. -/
theorem asCalls_sendChunk {rawPayload : List UInt8} (here : p.kcps side = s.kcps stream)
    (ample : Ample (s.kcps stream)) (sizable : Sizable rawPayload) (other : Fin kNumStreams) :
    AsCalls kcps side p stream s
      (s.setKcp other (Kcp.ikcpcb.sendChunk rawPayload (s.kcps other)))
      [(other, rawPayload)] [] := by
  by_cases hstream : stream = other
  swap
  · exact asCalls_none here (kcps_setKcp_of_ne hstream _) rfl
      (onStream_singleton_of_ne (Ne.symm hstream) _) rfl
  subst hstream
  rw [← here] at ample
  obtain ⟨after, hafter, hcalls⟩ := @calls_sendChunk kcps side p rawPayload sizable ample
  refine ⟨after, [], ?_, ?_, (List.append_nil _).symm⟩
  · rw [hafter, here, kcps_setKcp_self]
  · rw [onStream_singleton, Framing.Format.stream_cons, Framing.Format.stream_nil, List.append_nil]
    exact hcalls

/-- A stream is read, and what it returns is put behind its buffer. -/
theorem asCalls_recv {first : Fin kNumStreams} (here : p.kcps side = s.kcps stream)
    (kcps_eq : next.kcps = (s.setKcp first (Kcp.ikcpcb.recv (s.kcps first)).2).kcps)
    (buffer : next.streamBuffer = Function.update s.streamBuffer first
      (s.streamBuffer first ++ (Kcp.ikcpcb.recv (s.kcps first)).1)) :
    AsCalls kcps side p stream s next [] [] := by
  have hreturned := returned_recv (s.kcps first)
  generalize hread : Kcp.ikcpcb.recv (s.kcps first) = read at kcps_eq buffer hreturned
  by_cases hstream : stream = first
  swap
  · apply asCalls_none here ?_ ?_ rfl rfl
    · rw [kcps_eq, kcps_setKcp_of_ne hstream]
    · rw [buffer, Function.update_of_ne hstream]
  subst hstream
  obtain ⟨after, hafter, hcalls⟩ :=
    @Pair.calls_call side p kcps (.recv Kcp.recvBufSize) trivial
  rw [here, hreturned] at hcalls
  refine ⟨after, read.1, ?_, hcalls, ?_⟩
  · rw [hafter, here, kcps_eq, kcps_setKcp_self]
    exact congrArg Prod.snd hread
  · rw [buffer, Function.update_self]
    rfl

/-- The network thread takes a step outside the loop over the datagrams. -/
theorem asCalls_advance (here : p.kcps side = s.kcps stream)
    (advances : AdvancesTo Kcp.ikcpcb s next) :
    AsCalls kcps side p stream s next [] (s.passed .advance) := by
  cases advances with
  | allUpdated hpc | allRead hpc =>
      rw [passed, hpc]
      exact asCalls_none here rfl rfl rfl rfl
  | @update now first rest hpc =>
      rw [passed, hpc]
      generalize hkcp : Kcp.ikcpcb.update now (s.kcps first) = kcp
      by_cases hstream : stream = first
      swap
      · exact asCalls_none here (kcps_setKcp_of_ne hstream kcp) rfl rfl rfl
      subst hstream
      obtain ⟨after, hafter, hcalls⟩ := @Pair.calls_call side p kcps (.update now) trivial
      refine ⟨after, [], ?_, hcalls, (List.append_nil _).symm⟩
      rw [Kcp.ikcpcb_update] at hkcp
      rw [hafter, here, hkcp]
      exact (kcps_setKcp_self s stream kcp).symm
  | nothing hpc hnone =>
      rw [passed, hpc]
      apply asCalls_recv here rfl
      rw [hnone, List.append_nil, Function.update_eq_self]
      rfl
  | bytes hpc hsome =>
      rw [passed, hpc]
      exact asCalls_recv here rfl rfl
  | more hpc hmore =>
      rw [passed, hpc]
      dsimp only
      rw [hmore]
      exact asCalls_none here rfl rfl rfl rfl
  | @frame first rest finalData left hpc hframe =>
      rw [passed, hpc]
      dsimp only
      rw [hframe]
      by_cases hstream : stream = first
      swap
      · exact asCalls_none here rfl (Function.update_of_ne hstream _ _) rfl
          (onStream_singleton_of_ne (Ne.symm hstream) _)
      subst hstream
      refine ⟨p, [], here, .refl, ?_⟩
      dsimp only
      rw [onStream_singleton, Framing.Format.stream_cons, Framing.Format.stream_nil,
        List.append_nil, List.append_nil, Function.update_self]
      exact (frame_of_parse hframe).1.symm
  | overrun hpc hoverrun =>
      rw [passed, hpc]
      dsimp only
      rw [hoverrun]
      exact asCalls_none here rfl rfl rfl rfl

theorem asCalls_step {event : NetEvent α} (here : p.kcps side = s.kcps stream)
    (ample : Ample (s.kcps stream)) (sizable : ∀ payload ∈ submitted event, Sizable payload.2)
    (arrives : ∀ source data, event = .recvfrom (some (source, data)) →
      p.possible side (.input data) ∨ Kcp.ikcpcb.input data (s.kcps stream) = s.kcps stream)
    (taken : step Kcp.ikcpcb event s = some next) :
    AsCalls kcps side p stream s next (submitted event) (s.passed event) := by
  obtain ⟨-, hsteps⟩ := step_iff.mp taken
  cases hsteps with
  | clock now hpc => exact asCalls_none here rfl rfl rfl rfl
  | datagram source data hpc hlong => exact asCalls_accept here source (arrives source data rfl)
  | noDatagram datagram hpc hshort => exact asCalls_none here rfl rfl rfl rfl
  | advance advances => exact asCalls_advance here advances
  | sendChunk rawPayload streamId =>
      exact asCalls_sendChunk here ample (sizable _ (List.mem_singleton_self _)) _

/-- The payloads that were passed on, and the buffers of the streams. -/
structure Buffered {κ : Type} (got : List Payload) (s : Listening α κ) : Prop where
  received : s.received = got.map Prod.snd
  /-- Each payload that was passed on is found in front of anything. -/
  whole : ∀ payload ∈ got, ∀ rest, parse (frame payload.2 ++ rest) = .frame payload.2 rest
  fault : s.fault = true → ∃ stream, parse (s.streamBuffer stream) = .overrun
  /-- Outside the loop over a buffer there is no frame in it. -/
  between : ∀ stream, (∀ rest, s.pc ≠ .parse stream rest) →
    ∀ finalData left, parse (s.streamBuffer stream) ≠ .frame finalData left

section Buffered

variable {κ : Type} {K : Kcp κ} {got : List Payload} {s next : Listening α κ}

/-- The buffers stay, and a loop over one of them neither begins nor ends. -/
theorem Buffered.of_same (buffered : s.Buffered got) (received : next.received = s.received)
    (fault : next.fault = s.fault) (streamBuffer : next.streamBuffer = s.streamBuffer)
    (outside : ∀ stream rest, s.pc = .parse stream rest → next.pc = s.pc) : next.Buffered got := by
  refine ⟨received.trans buffered.received, buffered.whole, ?_, fun stream hpc => ?_⟩
  · rw [fault, streamBuffer]
    exact buffered.fault
  · rw [streamBuffer]
    apply buffered.between
    intro rest hparse
    exact hpc rest ((outside stream rest hparse).trans hparse)

theorem buffered_advance (buffered : s.Buffered got) (defined : s.fault = false)
    (advances : AdvancesTo K s next) : next.Buffered (got ++ s.passed .advance) := by
  cases advances with
  | allUpdated hpc | update hpc | allRead hpc =>
      rw [passed, hpc, List.append_nil]
      refine buffered.of_same rfl rfl rfl ?_
      rw [hpc]
      rintro stream rest ⟨⟩
  | nothing hpc hnone =>
      rw [passed, hpc, List.append_nil]
      refine buffered.of_same rfl rfl rfl ?_
      rw [hpc]
      rintro stream rest ⟨⟩
  | @bytes first rest hpc hsome =>
      rw [passed, hpc, List.append_nil]
      refine ⟨buffered.received, buffered.whole, fun hfault => ?_, fun stream hstay => ?_⟩
      · exact absurd (defined.symm.trans hfault) Bool.false_ne_true
      · have hne : stream ≠ first := by
          rintro rfl
          exact hstay rest rfl
        dsimp only
        rw [Function.update_of_ne hne]
        apply buffered.between stream
        rw [hpc]
        rintro rest' ⟨⟩
  | @more first rest hpc hmore =>
      rw [passed, hpc]
      dsimp only
      rw [hmore, List.append_nil]
      refine ⟨buffered.received, buffered.whole, buffered.fault, fun stream _ finalData left => ?_⟩
      by_cases hstream : stream = first
      · rw [hstream, hmore]
        rintro ⟨⟩
      · apply buffered.between stream
        rw [hpc]
        rintro rest' ⟨⟩
        exact hstream rfl
  | @frame first rest finalData left hpc hframe =>
      rw [passed, hpc]
      dsimp only
      rw [hframe]
      refine ⟨?_, fun payload hpayload => ?_, fun hfault => ?_, fun stream hstay => ?_⟩
      · rw [List.map_append, buffered.received]
        rfl
      · rcases List.mem_append.mp hpayload with hold | hnew
        · exact buffered.whole payload hold
        · obtain rfl := List.mem_singleton.mp hnew
          exact (frame_of_parse hframe).2
      · exact absurd (defined.symm.trans hfault) Bool.false_ne_true
      · have hne : stream ≠ first := by
          rintro rfl
          exact hstay rest rfl
        dsimp only
        rw [Function.update_of_ne hne]
        apply buffered.between stream
        rw [hpc]
        exact hstay
  | @overrun first rest hpc hoverrun =>
      rw [passed, hpc]
      dsimp only
      rw [hoverrun, List.append_nil, ← hpc]
      exact ⟨buffered.received, buffered.whole, fun _ => ⟨first, hoverrun⟩, buffered.between⟩

theorem buffered_step {event : NetEvent α} (buffered : s.Buffered got)
    (taken : step K event s = some next) : next.Buffered (got ++ s.passed event) := by
  obtain ⟨hdefined, hsteps⟩ := step_iff.mp taken
  cases hsteps with
  | clock now hpc | noDatagram datagram hpc hshort =>
      rw [passed, List.append_nil]
      refine buffered.of_same rfl rfl rfl ?_
      rw [hpc]
      rintro stream rest ⟨⟩
  | datagram source data hpc hlong =>
      rw [passed, List.append_nil]
      unfold accept
      dsimp only
      split <;> exact buffered.of_same rfl rfl rfl fun _ _ _ => rfl
  | advance advances => exact buffered_advance buffered hdefined advances
  | sendChunk rawPayload streamId =>
      rw [passed, List.append_nil]
      exact buffered.of_same rfl rfl rfl fun _ _ _ => rfl

end Buffered

end Step

end Listening

end Sxaint.Net
