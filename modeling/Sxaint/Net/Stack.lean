/-
# Two sessions over their transports

The whole program at work: a session that sends a file and one that receives it, each over its own
transport, and between them a network that loses, repeats, reorders and delays datagrams. What a
session hands over goes into the streams of its transport, and what the network thread takes off a
stream goes into `handleRecv`. All that is asked of the network is that it forges nothing.
-/

import Sxaint.Net.Channel
import Sxaint.Net.Departure
import Sxaint.Net.Gating

namespace Sxaint.Net

open Sxaint.Core Transition

open Sxaint.Ikcp (Ikcpcb Side)

/-- Two sessions with their transports. -/
structure Stack (α : Type) where
  sessions : Side → Endpoint
  channel : Channel α

/-- A step of a session or of its network thread. -/
inductive StackEvent (α : Type)
  | session (event : Event)
  | network (event : NetEvent α)

/-- The step of the session that an event is. -/
def StackEvent.session? {α : Type} : StackEvent α → Option Event
  | .session event => some event
  | .network _ => none

namespace Stack

variable {α : Type}

/-- `get_wait_snd` -/
def getWaitSnd (s : Stack α) (side : Side) (streamId : UInt32) : Int :=
  ((s.channel.ends side).kcps (streamFor streamId)).waitsnd

/-- Hand frames to the streams of a side. -/
def handOver (side : Side) (frames : List (UInt32 × List UInt8)) (channel : Channel α) :
    Option (Channel α) :=
  frames.foldlM (fun channel frame => Channel.step (side, .sendChunk frame.2 frame.1) channel)
    channel

/-- A step of a session. What it hands over is in the streams when the step is done. -/
def sessionStep (P : Platform) (side : Side) (event : Event) (s : Stack α) : Option (Stack α) :=
  (Endpoint.step P (event.reading (s.getWaitSnd side)) (s.sessions side)).bind fun session =>
    (handOver side (session.outbox.drop (s.sessions side).outbox.length) s.channel).map
      fun channel => { sessions := Function.update s.sessions side session, channel := channel }

/-- A step of a network thread, which calls `handleRecv` with what it finds. -/
def networkStep (P : Platform) (side : Side) (event : NetEvent α) (s : Stack α) :
    Option (Stack α) :=
  (Channel.step (side, event) s.channel).bind fun channel =>
    ((s.channel.ends side).passed event).foldlM
      (fun s payload => s.sessionStep P side (.deliver payload.2)) { s with channel := channel }

/-- One step. -/
def step (P : Platform) (event : Side × StackEvent α) (s : Stack α) : Option (Stack α) :=
  match event with
  | (side, .session event) =>
    if event.delivered? = none then s.sessionStep P side event else none
  | (side, .network event) =>
    -- until an answer is published the network thread is inside `handleRecv`
    if event.isOwn ∧ (s.sessions side).net = .idle then s.networkStep P side event else none

/-- The machine of two sessions over transports with the default configuration. The one that
connects knows the address of the other one. -/
def machine (P : Platform) (start : Side → Endpoint) (remoteAddr : Side → Option α) :
    Machine (Stack α) (Side × StackEvent α) where
  init := { sessions := start, channel := (Channel.machine (fun _ => {}) remoteAddr).init }
  step := step P

/-- What picks a strategy in a session picks this one. -/
def Detects (strategy : Strategy) (_ : Stack α) (event : Side × StackEvent α) : Prop :=
  ∀ own ∈ event.2.session?, ∀ chosen ∈ own.strategy?, chosen = strategy

instance (strategy : Strategy) (s : Stack α) (event : Side × StackEvent α) :
    Decidable (Detects strategy s event) :=
  inferInstanceAs
    (Decidable (∀ own ∈ event.2.session?, ∀ chosen ∈ own.strategy?, chosen = strategy))

/-- The stream and the payload of a frame. -/
def payloadOf (frame : UInt32 × List UInt8) : Payload :=
  (streamFor frame.1, frame.2)

/-- No stream has used half of its numbers. -/
def Few (channel : Channel α) : Prop :=
  ∀ side stream, ((channel.ends side).kcps stream).numbered.length < 2 ^ 31

/-! ## The steps of the parts -/

section Parts

variable {P : Platform} {side : Side} {channel after : Channel α}

/-- The numbers that a stream has used stay used. -/
theorem Few.of_step {event : NetEvent α} (few : Few after)
    (taken : Channel.step (side, event) channel = some after) : Few channel := by
  obtain ⟨-, hstep, hends, -⟩ := Channel.step_cases taken
  intro one stream
  have hprefix : ((channel.ends one).kcps stream).numbered <+:
      ((after.ends one).kcps stream).numbered := by
    rcases side.eq_or_eq_other one with rfl | rfl
    · exact Listening.kcps_of_calls
        (fun i kcp => ((channel.ends one).kcps i).numbered <+: kcp.numbered)
        (fun i kcp call h => h.trans (kcp.numbered_apply call)) hstep
        (fun i => List.prefix_refl _) stream
    · rw [hends]
  exact hprefix.length_le.trans_lt (few one stream)

/-- What becomes of the channel when frames are handed over. -/
structure Handed (side : Side) (frames : List (UInt32 × List UInt8)) (channel after : Channel α) :
    Prop where
  run : ∀ (configs : Side → Config) (remoteAddr : Side → Option α) (events),
    (Channel.machine configs remoteAddr).Run events channel →
      ∃ more, (Channel.machine configs remoteAddr).Run more after
  sent : after.sent side = channel.sent side ++ frames.map payloadOf
  sent_other : after.sent side.other = channel.sent side.other
  got : after.got = channel.got
  few : Few after → Few channel

theorem handed_of_handOver {frames : List (UInt32 × List UInt8)}
    (handed : handOver side frames channel = some after) : Handed side frames channel after := by
  induction frames generalizing channel with
  | nil =>
      cases handed
      exact ⟨fun _ _ events run => ⟨events, run⟩, (List.append_nil _).symm, rfl, rfl, id⟩
  | cons frame frames ih =>
      rw [handOver, List.foldlM_cons] at handed
      obtain ⟨next, hstep, hrest⟩ := Option.bind_eq_some_iff.mp handed
      obtain ⟨-, -, -, hsent, hsent', hgot, hgot'⟩ := Channel.step_cases hstep
      have hlater := ih hrest
      refine ⟨fun configs remoteAddr events run => ?_, ?_, ?_, ?_, fun few => ?_⟩
      · have htaken : (Channel.machine configs remoteAddr).step
            (side, .sendChunk frame.2 frame.1) channel = some next := hstep
        exact hlater.run configs remoteAddr _ (run.snoc trivial htaken)
      · rw [hlater.sent, hsent, List.append_assoc]
        rfl
      · rw [hlater.sent_other, hsent']
      · rw [hlater.got]
        funext one
        rcases side.eq_or_eq_other one with rfl | rfl
        · rw [hgot]
          exact List.append_nil _
        · exact hgot'
      · exact (hlater.few few).of_step hstep

variable {s next : Stack α}

/-- A step of a session is one, and its frames are handed over. -/
theorem sessionStep_cases {event : Event} (taken : s.sessionStep P side event = some next) :
    Endpoint.step P (event.reading (s.getWaitSnd side)) (s.sessions side) =
        some (next.sessions side) ∧
      next.sessions side.other = s.sessions side.other ∧
      ∃ frames, (next.sessions side).outbox = (s.sessions side).outbox ++ frames ∧
        Handed side frames s.channel next.channel := by
  obtain ⟨session, hstep, hrest⟩ := Option.bind_eq_some_iff.mp taken
  obtain ⟨channel, hchannel, rfl⟩ := Option.map_eq_some_iff.mp hrest
  obtain ⟨frames, hframes⟩ := Departure.outbox_prefix_of_step (Endpoint.step_cases hstep).2
  rw [← hframes, List.drop_left] at hchannel
  dsimp only
  rw [Function.update_self]
  exact ⟨hstep, Function.update_of_ne side.other_ne _ _, frames, hframes.symm,
    handed_of_handOver hchannel⟩

/-- Messages that wait are handled one after another. -/
theorem few_of_foldlM {payloads : List Payload}
    (taken : payloads.foldlM (fun s payload => s.sessionStep P side (.deliver payload.2)) s =
      some next) (few : Few next.channel) : Few s.channel := by
  induction payloads generalizing s with
  | nil =>
      cases taken
      exact few
  | cons payload payloads ih =>
      rw [List.foldlM_cons] at taken
      obtain ⟨mid, hstep, hrest⟩ := Option.bind_eq_some_iff.mp taken
      obtain ⟨-, -, frames, -, hhanded⟩ := sessionStep_cases hstep
      exact hhanded.few (ih hrest)

end Parts

/-! ## The runs of the parts -/

/-- The sessions and the channel have had runs of their own, in which the sessions were given what
the channel passes on, but for what waits. -/
structure Composed (P : Platform) (start : Side → Endpoint) (remoteAddr : Side → Option α)
    (allowed : Side → Endpoint → Event → Prop) (waiting : Side → List Payload) (s : Stack α) :
    Prop where
  channel : ∃ events, (Channel.machine (fun _ => {}) remoteAddr).Run events s.channel
  sent : ∀ side, s.channel.sent side = (s.sessions side).outbox.map payloadOf
  sessions : ∀ side, ∃ events,
    (Endpoint.machine P (start side)).RunUnder (allowed side) events (s.sessions side) ∧
      (s.channel.got side).map Prod.snd = deliveries events ++ (waiting side).map Prod.snd

section Composed

variable {P : Platform} {start : Side → Endpoint} {remoteAddr : Side → Option α}
  {allowed : Side → Endpoint → Event → Prop} {waiting : Side → List Payload} {side : Side}
  {s next : Stack α}

theorem strategy?_reading (waitSnd : UInt32 → Int) (event : Event) :
    (event.reading waitSnd).strategy? = event.strategy? := by
  cases event <;> rfl

theorem Composed.sessionStep (event : Event) (rest : List Payload)
    (composed : Composed P start remoteAddr allowed waiting s)
    (waits : (waiting side).map Prod.snd = event.delivered?.toList ++ rest.map Prod.snd)
    (ok : allowed side (s.sessions side) (event.reading (s.getWaitSnd side)))
    (taken : s.sessionStep P side event = some next) :
    Composed P start remoteAddr allowed (Function.update waiting side rest) next := by
  obtain ⟨hstep, hother, frames, hframes, hhanded⟩ := sessionStep_cases taken
  obtain ⟨before, hchannel⟩ := composed.channel
  refine ⟨hhanded.run _ _ _ hchannel, fun one => ?_, fun one => ?_⟩
  · rcases side.eq_or_eq_other one with rfl | rfl
    · rw [hhanded.sent, composed.sent, hframes, List.map_append]
    · rw [hhanded.sent_other, composed.sent, hother]
  · obtain ⟨events, hrun, hgot⟩ := composed.sessions one
    rw [hhanded.got]
    rcases side.eq_or_eq_other one with rfl | rfl
    · refine ⟨_, hrun.snoc ok hstep, ?_⟩
      rw [hgot, waits, Endpoint.delivered_append, Departure.delivered?_reading,
        Function.update_self, List.append_assoc]
    · rw [hother, Function.update_of_ne side.other_ne]
      exact ⟨events, hrun, hgot⟩

/-- A network thread takes a step in its transport. -/
theorem Composed.networkStep {event : NetEvent α} {channel : Channel α}
    (composed : Composed P start remoteAddr allowed (fun _ => []) s) (own : event.isOwn = true)
    (taken : Channel.step (side, event) s.channel = some channel) :
    Composed P start remoteAddr allowed
      (Function.update (fun _ => []) side ((s.channel.ends side).passed event))
      { s with channel := channel } := by
  obtain ⟨before, hchannel⟩ := composed.channel
  obtain ⟨-, -, -, hsent, hsent', hgot, hgot'⟩ := Channel.step_cases taken
  have htaken : (Channel.machine (fun _ => {}) remoteAddr).step (side, event) s.channel =
      some channel := taken
  refine ⟨⟨_, hchannel.snoc trivial htaken⟩, fun one => ?_, fun one => ?_⟩
  · have hnothing : Listening.submitted event = [] := by
      cases event with
      | sendChunk _ _ => cases own
      | clock _ | recvfrom _ | advance => rfl
    rcases side.eq_or_eq_other one with rfl | rfl
    · rw [hsent, hnothing, List.append_nil]
      exact composed.sent _
    · rw [hsent']
      exact composed.sent _
  · obtain ⟨events, hrun, hdelivered⟩ := composed.sessions one
    refine ⟨events, hrun, ?_⟩
    rw [List.map_nil, List.append_nil] at hdelivered
    rcases side.eq_or_eq_other one with rfl | rfl
    · rw [hgot, List.map_append, hdelivered, Function.update_self]
    · rw [hgot', hdelivered, Function.update_of_ne side.other_ne, List.map_nil, List.append_nil]

/-- Each side relies on what the parts have done so far. If that is enough for the next event of a
side to be allowed, whatever is waiting, then all events are. -/
theorem composed_of_run {strategy : Strategy} {events : List (Side × StackEvent α)}
    (fresh : ∀ side, (start side).outbox = [])
    (sound : ∀ (waiting : Side → List Payload) (s : Stack α) (side : Side) (event : Event),
      Composed P start remoteAddr allowed waiting s → Few s.channel →
        (∀ data ∈ event.delivered?, data ∈ (waiting side).map Prod.snd) →
          (∀ chosen ∈ event.strategy?, chosen = strategy) → allowed side (s.sessions side) event)
    (run : (machine P start remoteAddr).RunUnder (Detects strategy) events s)
    (few : Few s.channel) : Composed P start remoteAddr allowed (fun _ => []) s := by
  have hhandled {payloads : List Payload} {side : Side} {s next : Stack α}
      (composed :
        Composed P start remoteAddr allowed (Function.update (fun _ => []) side payloads) s)
      (taken : payloads.foldlM (fun s payload => s.sessionStep P side (.deliver payload.2)) s =
        some next) (few : Few next.channel) :
      Composed P start remoteAddr allowed (fun _ => []) next := by
    induction payloads generalizing s with
    | nil =>
        cases taken
        rw [Function.update_eq_self] at composed
        exact composed
    | cons payload payloads ih =>
        rw [List.foldlM_cons] at taken
        obtain ⟨mid, hstep, hrest⟩ := Option.bind_eq_some_iff.mp taken
        obtain ⟨-, -, _, -, hhanded⟩ := sessionStep_cases hstep
        have hok := sound _ s side (.deliver payload.2) composed
          (hhanded.few (few_of_foldlM hrest few))
          (by
            rintro data ⟨⟩
            rw [Function.update_self]
            exact List.mem_cons_self)
          (by rintro _ ⟨⟩)
        have hmid := composed.sessionStep (.deliver payload.2) payloads
          (by rw [Function.update_self]; rfl) hok hstep
        rw [Function.update_idem] at hmid
        exact ih hmid hrest
  refine run.induct (motive := fun _ s => Few s.channel →
    Composed P start remoteAddr allowed (fun _ => []) s) ?_ ?_ few
  · intro _
    refine ⟨⟨[], .start⟩, fun side => ?_, fun side => ⟨[], .start, rfl⟩⟩
    show [] = (start side).outbox.map payloadOf
    rw [fresh, List.map_nil]
  rintro events s ⟨side, event⟩ next - ih hdetects taken few
  cases event with
  | session event =>
      have taken : step P (side, .session event) s = some next := taken
      rw [step] at taken
      split at taken
      swap
      · cases taken
      rename_i hnothing
      obtain ⟨-, -, _, -, hhanded⟩ := sessionStep_cases taken
      have hcomposed := ih (hhanded.few few)
      have hok := sound _ s side (event.reading (s.getWaitSnd side)) hcomposed (hhanded.few few)
        (by
          rw [Departure.delivered?_reading, hnothing]
          rintro _ ⟨⟩)
        (by
          rw [strategy?_reading]
          exact hdetects event rfl)
      have hnext := hcomposed.sessionStep event [] (by rw [hnothing]; rfl) hok taken
      rw [Function.update_eq_self] at hnext
      exact hnext
  | network event =>
      have taken : step P (side, .network event) s = some next := taken
      rw [step] at taken
      split at taken
      swap
      · cases taken
      rename_i hown
      obtain ⟨channel, hstep, hrest⟩ := Option.bind_eq_some_iff.mp taken
      have hmid : Few channel := few_of_foldlM hrest few
      exact hhandled ((ih (hmid.of_step hstep)).networkStep hown.1 hstep) hrest few

end Composed

end Stack

end Sxaint.Net
