/-
# Two transports and the network between them

Two transports of one configuration, with all their streams, over a network of datagrams that are
lost, repeated, reordered and late. Each side hands payloads to `sendChunk` and passes on the
payloads that it finds. On each stream, those that one side passes on are the first of those that
the other side was handed, and when a stream is drained they are all of them.
-/

import Sxaint.Net.Streams

namespace Sxaint.Net

open Transition

open Sxaint.Ikcp (Call Ikcpcb Pair SetUp Side)

/-- Two transports. -/
structure Channel (α : Type) where
  ends : Side → Listening α Ikcpcb
  /-- The payloads that were handed to `sendChunk` so far. -/
  sent : Side → List Payload := fun _ => []
  /-- The payloads that were passed on so far. -/
  got : Side → List Payload := fun _ => []

namespace Channel

variable {α : Type}

/-- The datagrams that can arrive are those that a stream of the other side has sent. -/
def possible (s : Channel α) (side : Side) : NetEvent α → Prop
  | .recvfrom (some (_, data)) => ∃ stream, data ∈ ((s.ends side.other).kcps stream).outputs
  | .recvfrom none | .clock _ | .advance | .sendChunk _ _ => True

instance (s : Channel α) (side : Side) (event : NetEvent α) : Decidable (s.possible side event) :=
  match event with
  | .recvfrom (some (_, data)) =>
    inferInstanceAs (Decidable (∃ stream, data ∈ ((s.ends side.other).kcps stream).outputs))
  | .recvfrom none | .clock _ | .advance | .sendChunk _ _ => inferInstanceAs (Decidable True)

/-- One step of one of the sides. -/
def step (event : Side × NetEvent α) (s : Channel α) : Option (Channel α) :=
  let (side, event) := event
  if s.possible side event then
    (Listening.step Kcp.ikcpcb event (s.ends side)).map fun next =>
      { ends := Function.update s.ends side next
        sent := Function.update s.sent side (s.sent side ++ Listening.submitted event)
        got := Function.update s.got side (s.got side ++ (s.ends side).passed event) }
  else none

/-- The machine of two transports. The one that connects knows the address of the other one. -/
def machine (configs : Side → Config) (remoteAddr : Side → Option α) :
    Machine (Channel α) (Side × NetEvent α) where
  init := { ends := fun side => { kcps := (configs side).kcps, remoteAddr := remoteAddr side } }
  step := step

/-- A step is a step of one side that is possible, and nothing on the other side. -/
theorem step_cases {s next : Channel α} {side : Side} {event : NetEvent α}
    (taken : step (side, event) s = some next) :
    s.possible side event ∧
      Listening.step Kcp.ikcpcb event (s.ends side) = some (next.ends side) ∧
      next.ends side.other = s.ends side.other ∧
      next.sent side = s.sent side ++ Listening.submitted event ∧
      next.sent side.other = s.sent side.other ∧
      next.got side = s.got side ++ (s.ends side).passed event ∧
      next.got side.other = s.got side.other := by
  rw [step] at taken
  split at taken
  · rename_i hpossible
    obtain ⟨after, hstep, rfl⟩ := Option.map_eq_some_iff.mp taken
    have hne := side.other_ne
    refine ⟨hpossible, ?_, Function.update_of_ne hne _ _, Function.update_self _ _ _,
      Function.update_of_ne hne _ _, Function.update_self _ _ _, Function.update_of_ne hne _ _⟩
    have hself : after = Function.update s.ends side after side :=
      (Function.update_self side after s.ends).symm
    exact hstep.trans (congrArg some hself)
  · cases taken

/-- What was handed to `sendChunk` before a step is sizable if all is after it. -/
theorem sizable_of_step {s next : Channel α} {side : Side} {event : NetEvent α}
    (taken : step (side, event) s = some next)
    (sizable : ∀ side, ∀ payload ∈ next.sent side, Sizable payload.2) :
    ∀ side, ∀ payload ∈ s.sent side, Sizable payload.2 := by
  obtain ⟨-, -, -, hsent, hsent', -⟩ := step_cases taken
  intro one payload hmem
  rcases side.eq_or_eq_other one with rfl | rfl
  · apply sizable one payload
    rw [hsent]
    exact List.mem_append_left _ hmem
  · apply sizable side.other payload
    rw [hsent']
    exact hmem

/-- A stream of the two transports is two control blocks, which give and take frames. -/
structure Conveys (s : Channel α) (stream : Fin kNumStreams) (p : Pair) : Prop where
  kcps : ∀ side, p.kcps side = (s.ends side).kcps stream
  given : ∀ side, (p.given side).flatten = frameFormat.stream (onStream stream (s.sent side))
  taken : ∀ side, (p.taken side).flatten =
    frameFormat.stream (onStream stream (s.got side)) ++ (s.ends side).streamBuffer stream

/-- The datagrams of one stream are refused by the other streams. -/
theorem input_of_other {convId : UInt32} {stream other : Fin kNumStreams} {kcp sender : Ikcpcb}
    (conv : kcp.conv = convId + UInt32.ofNat stream)
    (sent : sender.Sent (convId + UInt32.ofNat other)) (ne : other ≠ stream) {data : List UInt8}
    (output : data ∈ sender.outputs) : Kcp.ikcpcb.input data kcp = kcp := by
  obtain ⟨hlong, hconv⟩ := conv_of_sent sent output
  have hforeign : readU32 data 0 ≠ kcp.conv := by
    rw [hconv, conv]
    intro hsame
    have hnumbers : ∀ i j : Fin kNumStreams, UInt32.ofNat i = UInt32.ofNat j → i = j := by decide
    exact ne (hnumbers _ _ ((UInt32.add_right_inj _).mp hsame))
  exact congrArg Prod.snd (input_of_foreign hlong hforeign)

section Run

variable {convId : UInt32} {configs : Side → Config} {remoteAddr : Side → Option α}
  {events : List (Side × NetEvent α)} {s : Channel α}

theorem setUp_kcps (conv : ∀ side, (configs side).convId = convId) (stream : Fin kNumStreams)
    (side : Side) : SetUp (convId + UInt32.ofNat stream) ((configs side).kcps stream) := by
  rw [← conv side]
  exact Ikcpcb.setUp_ofTransport _ _ _ _ _

/-- A stream of the two transports is a run of two control blocks. -/
theorem conveys_of_run (conv : ∀ side, (configs side).convId = convId)
    (run : (machine configs remoteAddr).Run events s)
    (sizable : ∀ side, ∀ payload ∈ s.sent side, Sizable payload.2) (stream : Fin kNumStreams) :
    ∃ calls p, (Pair.machine fun side => (configs side).kcps stream).Run calls p ∧
      s.Conveys stream p := by
  refine run.induct (motive := fun _ s =>
    (∀ side, ∀ payload ∈ s.sent side, Sizable payload.2) → ∀ stream,
      ∃ calls p, (Pair.machine fun side => (configs side).kcps stream).Run calls p ∧
        s.Conveys stream p) ?_ ?_ sizable stream
  · exact fun _ stream => ⟨[], _, .start, fun _ => rfl, fun _ => rfl, fun _ => rfl⟩
  rintro events s ⟨side, event⟩ next run ih - taken sizable stream
  obtain ⟨hpossible, hstep, hends, hsent, hsent', hgot, hgot'⟩ := step_cases taken
  have hprior := ih (sizable_of_step taken sizable)
  obtain ⟨calls, p, hrun, hconveys⟩ := hprior stream
  have hconfiguration := Ikcp.configuration_of_run hrun side
  rw [hconveys.kcps] at hconfiguration
  have hconv : ((s.ends side).kcps stream).conv = convId + UInt32.ofNat stream := by
    have hsame := congrArg Prod.fst hconfiguration
    exact hsame.trans (Ikcpcb.configured_of_setUp (setUp_kcps conv stream side)).conv
  have hsubmitted : ∀ payload ∈ Listening.submitted event, Sizable payload.2 := by
    intro payload hmem
    apply sizable side payload
    rw [hsent]
    exact List.mem_append_right _ hmem
  have harrives : ∀ source data, event = .recvfrom (some (source, data)) →
      p.possible side (.input data) ∨
        Kcp.ikcpcb.input data ((s.ends side).kcps stream) = (s.ends side).kcps stream := by
    rintro source data rfl
    obtain ⟨other, houtput⟩ := hpossible
    by_cases hother : other = stream
    · left
      rw [Pair.possible, hconveys.kcps, ← hother]
      exact houtput
    · right
      obtain ⟨calls', q, hrun', hconveys'⟩ := hprior other
      have houtputs := Pair.of_run hrun' side.other
        (Ikcpcb.sent_of_setUp (setUp_kcps conv other side.other))
        fun _ call sent => Ikcpcb.sent_apply sent call
      rw [hconveys'.kcps] at houtputs
      exact input_of_other hconv houtputs hother houtput
  obtain ⟨after, bytes, hkcp, hcalls, hbytes⟩ :=
    @Listening.asCalls_step _ (fun side => (configs side).kcps stream) side p stream _ _ _
      (hconveys.kcps side) ((ample_kcps _ _).of_configuration hconfiguration) hsubmitted harrives
      hstep
  obtain ⟨more, hmore⟩ := hcalls.run calls hrun
  refine ⟨calls ++ more, after, hmore, fun one => ?_, fun one => ?_, fun one => ?_⟩
  · rcases side.eq_or_eq_other one with rfl | rfl
    · exact hkcp
    · rw [hcalls.kcps_other, hconveys.kcps, hends]
  · rcases side.eq_or_eq_other one with rfl | rfl
    · rw [hcalls.given, hconveys.given, hsent, onStream_append, Framing.Format.stream_append]
    · rw [hcalls.given_other, hconveys.given, hsent']
  · rcases side.eq_or_eq_other one with rfl | rfl
    · rw [hcalls.taken, hconveys.taken, hgot, onStream_append, Framing.Format.stream_append,
        List.append_assoc, List.append_assoc, hbytes]
    · rw [hcalls.taken_other, hconveys.taken, hgot', hends]

/-- The payloads that one side has passed on are in its buffers what its streams say. -/
theorem buffered_of_run (run : (machine configs remoteAddr).Run events s) (side : Side) :
    (s.ends side).Buffered (s.got side) := by
  refine run.induct (motive := fun _ s => (s.ends side).Buffered (s.got side)) ?_ ?_
  · exact ⟨rfl, nofun, nofun, fun _ _ _ _ => nofun⟩
  rintro events s ⟨one, event⟩ next - ih - taken
  obtain ⟨-, hstep, hends, -, -, hgot, hgot'⟩ := step_cases taken
  rcases one.eq_or_eq_other side with rfl | rfl
  · rw [hgot]
    exact Listening.buffered_step ih hstep
  · rw [hends, hgot']
    exact ih

/-- On each stream, one side takes the first bytes of the frames that the other side was handed. -/
theorem stream_prefix_of_run (conv : ∀ side, (configs side).convId = convId)
    (run : (machine configs remoteAddr).Run events s)
    (sizable : ∀ side, ∀ payload ∈ s.sent side, Sizable payload.2)
    (few : ∀ side stream, ((s.ends side).kcps stream).numbered.length < 2 ^ 31) (side : Side)
    (stream : Fin kNumStreams) :
    frameFormat.stream (onStream stream (s.got side.other)) ++
        (s.ends side.other).streamBuffer stream <+:
      frameFormat.stream (onStream stream (s.sent side)) := by
  obtain ⟨calls, p, hrun, hconveys⟩ := conveys_of_run conv run sizable stream
  have hfew : ∀ side, (p.kcps side).numbered.length < 2 ^ 31 := by
    intro side
    rw [hconveys.kcps]
    exact few side stream
  have hprefix := Ikcp.flatten_taken_prefix (setUp_kcps conv stream) hrun hfew side
  rwa [hconveys.taken, hconveys.given] at hprefix

/-- On each stream, what one side takes is a stream of the frames of payloads that the other side
was handed. -/
theorem reading_of_run (conv : ∀ side, (configs side).convId = convId)
    (run : (machine configs remoteAddr).Run events s)
    (sizable : ∀ side, ∀ payload ∈ s.sent side, Sizable payload.2)
    (few : ∀ side stream, ((s.ends side).kcps stream).numbered.length < 2 ^ 31) (side : Side)
    (stream : Fin kNumStreams) :
    frameFormat.Reading (onStream stream (s.sent side))
      (frameFormat.stream (onStream stream (s.got side.other)) ++
        (s.ends side.other).streamBuffer stream)
      (onStream stream (s.got side.other)) ((s.ends side.other).streamBuffer stream) := by
  apply frameFormat_lawful.reading_of_part ?_ ?_
    (stream_prefix_of_run conv run sizable few side stream)
  · exact fun rawPayload hmem => sizable side _ (mem_of_mem_onStream hmem)
  · intro rawPayload hmem rest
    have hwhole : parse (frameFormat.encode rawPayload ++ rest) = .frame rawPayload rest :=
      (buffered_of_run run side.other).whole _ (mem_of_mem_onStream hmem) rest
    rw [frameFormat_next, hwhole]

/-- Nothing is copied from beyond the end of a buffer. -/
theorem fault_eq_false (conv : ∀ side, (configs side).convId = convId)
    (run : (machine configs remoteAddr).Run events s)
    (sizable : ∀ side, ∀ payload ∈ s.sent side, Sizable payload.2)
    (few : ∀ side stream, ((s.ends side).kcps stream).numbered.length < 2 ^ 31) (side : Side) :
    (s.ends side).fault = false := by
  rw [← Bool.not_eq_true, ← side.other_other]
  intro hfault
  obtain ⟨stream, hoverrun⟩ := (buffered_of_run run _).fault hfault
  have hvalid : ∀ rawPayload ∈ onStream stream (s.sent side.other), Sizable rawPayload :=
    fun rawPayload hmem => sizable _ _ (mem_of_mem_onStream hmem)
  rcases (reading_of_run conv run sizable few side.other stream).next_cases frameFormat_lawful
      hvalid with ⟨-, rest, hrest, hincomplete⟩ | ⟨rawPayload, left, -, -, hnext, -⟩
  · rw [parse_of_incomplete (fun rawPayload hmem => hvalid rawPayload
      (hrest ▸ List.mem_append_right _ hmem)) hincomplete] at hoverrun
    cases hoverrun
  · rw [frameFormat_next, hoverrun] at hnext
    cases hnext

/-- A stream is drained: nothing waits to be sent on it, and the network thread of the other side
has read all that it has and is not in the loop over its buffer. -/
structure Drained (s : Channel α) (side : Side) (stream : Fin kNumStreams) : Prop where
  waitsnd : ((s.ends side).kcps stream).waitsnd = 0
  rcvQueue : ((s.ends side.other).kcps stream).rcvQueue = []
  pc : ∀ rest, (s.ends side.other).pc ≠ .parse stream rest

/-- What was handed to a drained stream was passed on. -/
theorem onStream_got_eq (conv : ∀ side, (configs side).convId = convId)
    (run : (machine configs remoteAddr).Run events s)
    (sizable : ∀ side, ∀ payload ∈ s.sent side, Sizable payload.2)
    (few : ∀ side stream, ((s.ends side).kcps stream).numbered.length < 2 ^ 31) {side : Side}
    {stream : Fin kNumStreams} (drained : s.Drained side stream) :
    onStream stream (s.got side.other) = onStream stream (s.sent side) := by
  have hreading := reading_of_run conv run sizable few side stream
  have hvalid : ∀ rawPayload ∈ onStream stream (s.sent side), Sizable rawPayload :=
    fun rawPayload hmem => sizable side _ (mem_of_mem_onStream hmem)
  obtain ⟨calls, p, hrun, hconveys⟩ := conveys_of_run conv run sizable stream
  have hfew : ∀ side, (p.kcps side).numbered.length < 2 ^ 31 := by
    intro side
    rw [hconveys.kcps]
    exact few side stream
  have hwait := drained.waitsnd
  have hqueue := drained.rcvQueue
  rw [← hconveys.kcps] at hwait hqueue
  have hconfigured := Ikcpcb.configured_of_setUp (setUp_kcps conv stream side.other)
  have hroom : 0 < (p.kcps side.other).rcvWnd.toNat := lt_of_lt_of_le (by decide)
    (hconfigured.of_configuration (Ikcp.configuration_of_run hrun side.other)).rcvWnd.1
  have hbuf := Ikcp.rcvBuf_eq_nil (setUp_kcps conv stream) hrun hfew
    (List.length_eq_zero_iff.mp (Nat.add_eq_zero_iff.mp hwait).1) (by rw [hqueue]; exact hroom)
  have hgiven := Ikcp.given_eq_append (setUp_kcps conv stream) hrun hfew hwait
  rw [hqueue, hbuf, hconveys.given, hconveys.taken, List.append_nil, List.flatMap_nil,
    List.append_nil] at hgiven
  refine (hreading.eq_of_whole frameFormat_lawful hvalid hgiven.symm ?_).1
  rcases hreading.next_cases frameFormat_lawful hvalid with
    ⟨-, hstuck⟩ | ⟨rawPayload, left, hsizable, hbuffer, -, -⟩
  · exact hstuck
  · have hframe : parse ((s.ends side.other).streamBuffer stream) = .frame rawPayload left := by
      rw [hbuffer]
      exact parse_frame hsizable left
    exact ((buffered_of_run run side.other).between stream drained.pc _ _ hframe).elim

/-- As long as no stream has used half of its numbers, nothing is read outside a buffer, the
payloads that a side has passed on are on each stream the first of those that the other side was
handed, and all of them once the stream is drained. -/
theorem received_of_run (conv : ∀ side, (configs side).convId = convId)
    (run : (machine configs remoteAddr).Run events s)
    (sizable : ∀ side, ∀ payload ∈ s.sent side, Sizable payload.2)
    (few : ∀ side stream, ((s.ends side).kcps stream).numbered.length < 2 ^ 31) (side : Side) :
    (s.ends side.other).fault = false ∧
      (s.ends side.other).received = (s.got side.other).map Prod.snd ∧
      ∀ stream, onStream stream (s.got side.other) <+: onStream stream (s.sent side) ∧
        (s.Drained side stream →
          onStream stream (s.got side.other) = onStream stream (s.sent side)) :=
  ⟨fault_eq_false conv run sizable few side.other, (buffered_of_run run side.other).received,
    fun stream => ⟨(reading_of_run conv run sizable few side stream).front,
      onStream_got_eq conv run sizable few⟩⟩

end Run

/-- The left side hands three bytes to one of its streams, which the right side takes off it and
acknowledges. -/
def exchange : List (Side × NetEvent ℕ) :=
  [(.left, .clock 0), (.left, .recvfrom none)] ++ List.replicate 10 (.left, .advance) ++
    [(.left, .sendChunk [1, 2, 3] 1), (.right, .clock 5),
      (.right, .recvfrom (some (0,
        [69, 51, 34, 17, 81, 0, 0, 16, 0, 0, 0, 0, 0, 0, 0, 0, 0, 0, 0, 0, 7, 0, 0, 0,
          3, 0, 0, 0, 1, 2, 3]))),
      (.right, .recvfrom none)] ++ List.replicate 13 (.right, .advance) ++
    [(.left, .clock 5),
      (.left, .recvfrom (some (1,
        [69, 51, 34, 17, 82, 0, 255, 15, 0, 0, 0, 0, 0, 0, 0, 0, 1, 0, 0, 0, 0, 0, 0, 0])))]

theorem received_of_exchange :
    let M := machine (fun _ => {}) fun side => if side = .left then some 1 else none
    let s := M.reached exchange
    (s.ends .right).fault = false ∧ (s.ends .right).received = (s.got .right).map Prod.snd ∧
      ∀ stream, onStream stream (s.got .right) <+: onStream stream (s.sent .left) ∧
        (s.Drained .left stream →
          onStream stream (s.got .right) = onStream stream (s.sent .left)) :=
  @received_of_run _ 0x11223344 _ _ _ _ (fun _ => rfl) (Machine.run_reached (by decide +kernel))
    (by rintro (_ | _) <;> decide +kernel) (by rintro (_ | _) <;> decide +kernel) .left

end Channel

end Sxaint.Net
