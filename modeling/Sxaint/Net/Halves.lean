/-
# A transport over the halves of its streams

A transport whose streams are only their receiving halves goes through the same steps as the whole
one and passes on the same payloads. One whose streams are only their sending halves finds nothing
to read and goes through the other steps of the whole one, with the same segments pending.
-/

import Sxaint.Net.Isolation
import Sxaint.Net.ReceivingHalf
import Sxaint.Net.SendingHalf

namespace Sxaint.Net

open Transition

open Sxaint.Ikcp (Ikcpcb)

/-- A step of the network thread outside the loop over the datagrams. -/
def NetEvent.isAdvance {α : Type} : NetEvent α → Bool
  | .advance => true
  | _ => false

/-! ## What the streams start as -/

/-- The receiving halves of the streams that `connect` and `listen` create. -/
def Config.receivingKcps (config : Config) (stream : Fin kNumStreams) : Kcp.Receiving :=
  { conv := config.convId + UInt32.ofNat stream }

theorem hears_kcps (config : Config) (stream : Fin kNumStreams) :
    Hears (config.kcps stream) (config.receivingKcps stream) :=
  rfl

/-- The sending halves of the streams that `connect` and `listen` create. -/
def Config.sendingKcps (config : Config) (stream : Fin kNumStreams) : Kcp.Sending :=
  { conv := config.convId + UInt32.ofNat stream }

theorem sends_kcps (config : Config) (stream : Fin kNumStreams) :
    Sends (config.kcps stream) (config.sendingKcps stream) :=
  ⟨rfl, rfl, rfl, rfl, rfl, rfl, rfl, rfl, rfl, rfl⟩

/-- The shortest interval, and no congestion window. -/
structure Config.Usual (config : Config) : Prop where
  interval_nonneg : 0 ≤ config.interval
  interval_le : config.interval ≤ 10
  nc_pos : 0 < config.nc

theorem Config.Usual.plain {config : Config} (usual : config.Usual) (stream : Fin kNumStreams) :
    Plain (config.kcps stream) := by
  obtain ⟨hnonneg, hle, hpos⟩ := usual
  refine ⟨ample_kcps config stream, ?_, ?_⟩
  · have hnocwnd : (config.kcps stream).nocwnd =
        if config.nc ≥ 0 then decide (config.nc ≠ 0) else false := rfl
    have hne : config.nc ≠ 0 := fun hzero => by
      rw [hzero] at hpos
      exact absurd hpos (by decide)
    rw [hnocwnd, if_pos (Int32.le_of_lt hpos)]
    exact decide_eq_true hne
  · have hinterval : (config.kcps stream).interval =
        if config.interval ≥ 0 then
          if config.interval > 5000 then 5000
          else if config.interval < 10 then 10 else config.interval.toUInt32
        else 100 := rfl
    have hshort : ¬config.interval > 5000 := fun hlong =>
      absurd (Int32.lt_of_lt_of_le hlong hle) (by decide)
    rw [hinterval, if_pos hnonneg, if_neg hshort]
    split
    · rfl
    · rename_i hten
      have heq : config.interval = 10 := Int32.le_antisymm hle (Int32.not_lt.mp hten)
      rw [heq]
      rfl

/-! ## Steps over other streams -/

namespace Listening

variable {α κ κ' : Type}

/-- A transport with other streams. -/
def withKcps (kcps : Fin kNumStreams → κ') (s : Listening α κ) : Listening α κ' where
  remoteAddr := s.remoteAddr
  addressLocked := s.addressLocked
  kcps := kcps
  streamBuffer := s.streamBuffer
  pc := s.pc
  received := s.received
  fault := s.fault

/-- A relation between two streams that the functions of a stream keep. -/
structure Matches (R : κ → κ' → Prop) (K : Kcp κ) (L : Kcp κ') : Prop where
  input : ∀ {kcp k}, R kcp k → ∀ data, R (K.input data kcp) (L.input data k)
  flush : ∀ {kcp k}, R kcp k → R (K.flush kcp) (L.flush k)
  update : ∀ {kcp k}, R kcp k → ∀ now, R (K.update now kcp) (L.update now k)
  sendChunk : ∀ {kcp k}, R kcp k → ∀ rawPayload,
    R (K.sendChunk rawPayload kcp) (L.sendChunk rawPayload k)

/-- The same is read from both streams. -/
structure Simulates (R : κ → κ' → Prop) (K : Kcp κ) (L : Kcp κ') : Prop extends
    Matches R K L where
  recv : ∀ {kcp k}, R kcp k → (L.recv k).1 = (K.recv kcp).1 ∧ R (K.recv kcp).2 (L.recv k).2

/-- Nothing is read from the second stream. -/
structure Ignores (R : κ → κ' → Prop) (K : Kcp κ) (L : Kcp κ') : Prop extends
    Matches R K L where
  recv : ∀ {kcp k}, R kcp k → L.recv k = ([], k) ∧ R (K.recv kcp).2 k

section Over

variable {R : κ → κ' → Prop} {K : Kcp κ} {L : Kcp κ'} {s next : Listening α κ}
  {kcps : Fin kNumStreams → κ'}

/-- One stream is changed on both sides. -/
theorem related_update {others : Fin kNumStreams → κ}
    (related : ∀ stream, R (others stream) (kcps stream)) (stream : Fin kNumStreams) {kcp : κ}
    {k : κ'} (new : R kcp k) (i : Fin kNumStreams) :
    R (Function.update others stream kcp i) (Function.update kcps stream k i) := by
  by_cases heq : i = stream
  · subst heq
    rw [Function.update_self, Function.update_self]
    exact new
  · rw [Function.update_of_ne heq, Function.update_of_ne heq]
    exact related i

theorem withKcps_advance (simulates : Simulates R K L)
    (related : ∀ stream, R (s.kcps stream) (kcps stream)) (advances : AdvancesTo K s next) :
    ∃ kcps', AdvancesTo L (s.withKcps kcps) (next.withKcps kcps') ∧
      ∀ stream, R (next.kcps stream) (kcps' stream) := by
  cases advances with
  | allUpdated hpc => exact ⟨kcps, .allUpdated hpc, related⟩
  | @update now stream rest hpc =>
      exact ⟨_, .update hpc, related_update related stream (simulates.update (related stream) now)⟩
  | allRead hpc => exact ⟨kcps, .allRead hpc, related⟩
  | @nothing stream rest hpc hnone =>
      obtain ⟨hbytes, hread⟩ := simulates.recv (related stream)
      exact ⟨_, .nothing hpc (hbytes.trans hnone), related_update related stream hread⟩
  | @bytes stream rest hpc hsome =>
      obtain ⟨hbytes, hread⟩ := simulates.recv (related stream)
      refine ⟨Function.update kcps stream (L.recv (kcps stream)).2, ?_,
        related_update related stream hread⟩
      have hadvances := @AdvancesTo.bytes _ _ L (s.withKcps kcps) stream rest hpc
        (fun hnone => hsome (hbytes.symm.trans hnone))
      have hkcps : (s.withKcps kcps).kcps = kcps := rfl
      rw [hkcps, hbytes] at hadvances
      exact hadvances
  | more hpc hmore => exact ⟨kcps, .more hpc hmore, related⟩
  | frame hpc hframe => exact ⟨kcps, .frame hpc hframe, related⟩
  | overrun hpc hoverrun => exact ⟨kcps, .overrun hpc hoverrun, related⟩

/-- A datagram goes to the same stream. -/
theorem withKcps_accept (K : Kcp κ) (L : Kcp κ') (s : Listening α κ) (kcps : Fin kNumStreams → κ')
    (source : α) (data : List UInt8) :
    (s.withKcps kcps).accept L source data =
      (s.accept K source data).withKcps
        (Function.update kcps (streamOf data)
          (L.flush (L.input data (kcps (streamOf data))))) := by
  unfold accept
  dsimp only
  have hlocated : ((s.withKcps kcps).addressLocked = false ∧
      (s.withKcps kcps).remoteAddr.isNone = true) =
        (s.addressLocked = false ∧ s.remoteAddr.isNone = true) :=
    rfl
  by_cases hlocate : s.addressLocked = false ∧ s.remoteAddr.isNone = true
  · rw [if_pos hlocate, if_pos (hlocated.mpr hlocate)]
    rfl
  · rw [if_neg hlocate, if_neg (hlocated ▸ hlocate)]
    rfl

/-- Each step is possible on both sides, with the same effect. -/
theorem withKcps_step (simulates : Simulates R K L)
    (related : ∀ stream, R (s.kcps stream) (kcps stream)) {event : NetEvent α}
    (taken : step K event s = some next) :
    ∃ kcps', step L event (s.withKcps kcps) = some (next.withKcps kcps') ∧
      ∀ stream, R (next.kcps stream) (kcps' stream) := by
  obtain ⟨hdefined, hsteps⟩ := step_iff.mp taken
  cases hsteps with
  | clock now hpc => exact ⟨kcps, step_iff.mpr ⟨hdefined, .clock now hpc⟩, related⟩
  | datagram source data hpc hlong =>
      have hread := related_update related (streamOf data)
        (simulates.flush (simulates.input (related (streamOf data)) data))
      have hsteps := @StepsTo.datagram _ _ L (s.withKcps kcps) source data _ hpc hlong
      rw [withKcps_accept K L] at hsteps
      refine ⟨_, step_iff.mpr ⟨hdefined, hsteps⟩, ?_⟩
      rw [(s.kcps_accept K source data).1]
      exact hread
  | noDatagram datagram hpc hshort =>
      exact ⟨kcps, step_iff.mpr ⟨hdefined, .noDatagram datagram hpc hshort⟩, related⟩
  | advance advances =>
      obtain ⟨kcps', hadvances, hrelated⟩ := withKcps_advance simulates related advances
      exact ⟨kcps', step_iff.mpr ⟨hdefined, .advance hadvances⟩, hrelated⟩
  | sendChunk rawPayload streamId =>
      exact ⟨_, step_iff.mpr ⟨hdefined, .sendChunk rawPayload streamId⟩,
        related_update related _ (simulates.sendChunk (related _) rawPayload)⟩

/-- The machine of a transport that has connected to an address, or that listens. -/
def started (K : Kcp κ) (remoteAddr : Option α) (kcps : Fin kNumStreams → κ) :
    Machine (Listening α κ) (NetEvent α) where
  init := { remoteAddr := remoteAddr, kcps := kcps }
  step := step K

/-- A run is possible on both sides, with the same effect. -/
theorem withKcps_run (simulates : Simulates R K L) {start : Fin kNumStreams → κ}
    {start' : Fin kNumStreams → κ'} (fresh : ∀ stream, R (start stream) (start' stream))
    {remoteAddr : Option α} {events : List (NetEvent α)}
    (run : (started K remoteAddr start).Run events s) :
    ∃ kcps', (started L remoteAddr start').Run events (s.withKcps kcps') ∧
      ∀ stream, R (s.kcps stream) (kcps' stream) := by
  induction run with
  | start => exact ⟨start', .start, fresh⟩
  | snoc _ _ taken ih =>
      obtain ⟨kcps, hrun, hrelated⟩ := ih
      obtain ⟨kcps', htaken, hrelated'⟩ := withKcps_step simulates hrelated taken
      exact ⟨kcps', hrun.snoc trivial htaken, hrelated'⟩

/-! ## Streams from which nothing is read -/

/-- Some of the steps of the network thread are left out, and nothing else. -/
structure Thinned (events all : List (NetEvent α)) : Prop where
  sublist : events.Sublist all
  kept : events.filter (fun event => !event.isAdvance) = all.filter fun event => !event.isAdvance

namespace Thinned

variable {events all : List (NetEvent α)}

theorem nil : Thinned ([] : List (NetEvent α)) [] :=
  ⟨.slnil, rfl⟩

theorem keep (thinned : Thinned events all) (event : NetEvent α) :
    Thinned (events ++ [event]) (all ++ [event]) := by
  refine ⟨thinned.sublist.append_right _, ?_⟩
  rw [List.filter_append, List.filter_append, thinned.kept]

theorem skip (thinned : Thinned events all) {event : NetEvent α} (own : event.isAdvance = true) :
    Thinned events (all ++ [event]) := by
  refine ⟨thinned.sublist.trans (List.sublist_append_left _ _), ?_⟩
  have hnone : [event].filter (fun event => !event.isAdvance) = [] := by
    rw [List.filter_singleton, own]
    rfl
  rw [List.filter_append, hnone, List.append_nil, thinned.kept]

end Thinned

/-- Where the network thread is if it never gets into the loop over a buffer. -/
def unparsed : LoopPc → LoopPc
  | .begin => .begin
  | .burst now => .burst now
  | .update now rest => .update now rest
  | .recv rest => .recv rest
  | .parse stream rest => .recv (stream :: rest)

/-- A transport with other streams, which has read nothing. -/
def unread (kcps : Fin kNumStreams → κ') (s : Listening α κ) : Listening α κ' where
  remoteAddr := s.remoteAddr
  addressLocked := s.addressLocked
  kcps := kcps
  pc := unparsed s.pc

theorem pc_unread {pc : LoopPc} (here : s.pc = pc) : (s.unread kcps).pc = unparsed pc := by
  rw [unread, here]

theorem unread_advance (ignores : Ignores R K L)
    (related : ∀ stream, R (s.kcps stream) (kcps stream)) (advances : AdvancesTo K s next) :
    ∃ kcps', (next.unread kcps' = s.unread kcps ∨
        AdvancesTo L (s.unread kcps) (next.unread kcps')) ∧
      ∀ stream, R (next.kcps stream) (kcps' stream) := by
  cases advances with
  | allUpdated hpc => exact ⟨kcps, .inr (.allUpdated (pc_unread hpc)), related⟩
  | @update now stream rest hpc =>
      exact ⟨_, .inr (.update (pc_unread hpc)),
        related_update related stream (ignores.update (related stream) now)⟩
  | allRead hpc => exact ⟨kcps, .inr (.allRead (pc_unread hpc)), related⟩
  | @nothing stream rest hpc hnone =>
      obtain ⟨hnothing, hread⟩ := ignores.recv (related stream)
      have hbytes : (L.recv (kcps stream)).1 = [] := congrArg Prod.fst hnothing
      have hkcp : (L.recv (kcps stream)).2 = kcps stream := congrArg Prod.snd hnothing
      refine ⟨Function.update kcps stream (L.recv (kcps stream)).2,
        .inr (.nothing (pc_unread hpc) hbytes), related_update related stream ?_⟩
      rw [hkcp]
      exact hread
  | @bytes stream rest hpc hsome =>
      obtain ⟨-, hread⟩ := ignores.recv (related stream)
      refine ⟨Function.update kcps stream (kcps stream), .inl ?_,
        related_update related stream hread⟩
      rw [Function.update_eq_self, unread, unread, hpc]
      rfl
  | more hpc hmore =>
      refine ⟨kcps, .inl ?_, related⟩
      rw [unread, unread, hpc]
      rfl
  | frame hpc hframe => exact ⟨kcps, .inl rfl, related⟩
  | overrun hpc hoverrun => exact ⟨kcps, .inl rfl, related⟩

/-- A datagram goes to the same stream. -/
theorem unread_accept (K : Kcp κ) (L : Kcp κ') (s : Listening α κ) (kcps : Fin kNumStreams → κ')
    (source : α) (data : List UInt8) :
    (s.unread kcps).accept L source data =
      (s.accept K source data).unread
        (Function.update kcps (streamOf data)
          (L.flush (L.input data (kcps (streamOf data))))) := by
  unfold accept
  dsimp only
  have hlocated : ((s.unread kcps).addressLocked = false ∧
      (s.unread kcps).remoteAddr.isNone = true) =
        (s.addressLocked = false ∧ s.remoteAddr.isNone = true) :=
    rfl
  by_cases hlocate : s.addressLocked = false ∧ s.remoteAddr.isNone = true
  · rw [if_pos hlocate, if_pos (hlocated.mpr hlocate)]
    rfl
  · rw [if_neg hlocate, if_neg (hlocated ▸ hlocate)]
    rfl

/-- Each step is possible without what is read, unless it is only about that. -/
theorem unread_step (ignores : Ignores R K L)
    (related : ∀ stream, R (s.kcps stream) (kcps stream)) {event : NetEvent α}
    (taken : step K event s = some next) :
    ∃ kcps', (event.isAdvance = true ∧ next.unread kcps' = s.unread kcps ∨
        step L event (s.unread kcps) = some (next.unread kcps')) ∧
      ∀ stream, R (next.kcps stream) (kcps' stream) := by
  obtain ⟨-, hsteps⟩ := step_iff.mp taken
  have hdefined : (s.unread kcps).fault = false := rfl
  cases hsteps with
  | clock now hpc =>
      exact ⟨kcps, .inr (step_iff.mpr ⟨hdefined, .clock now (pc_unread hpc)⟩), related⟩
  | datagram source data hpc hlong =>
      have hread := related_update related (streamOf data)
        (ignores.flush (ignores.input (related (streamOf data)) data))
      have hsteps := @StepsTo.datagram _ _ L (s.unread kcps) source data _ (pc_unread hpc) hlong
      rw [unread_accept K L] at hsteps
      refine ⟨_, .inr (step_iff.mpr ⟨hdefined, hsteps⟩), ?_⟩
      rw [(s.kcps_accept K source data).1]
      exact hread
  | noDatagram datagram hpc hshort =>
      exact ⟨kcps, .inr (step_iff.mpr ⟨hdefined, .noDatagram datagram (pc_unread hpc) hshort⟩),
        related⟩
  | advance advances =>
      obtain ⟨kcps', hunread, hrelated⟩ := unread_advance ignores related advances
      refine ⟨kcps', ?_, hrelated⟩
      rcases hunread with hskipped | hadvances
      · exact .inl ⟨rfl, hskipped⟩
      · exact .inr (step_iff.mpr ⟨hdefined, .advance hadvances⟩)
  | sendChunk rawPayload streamId =>
      exact ⟨_, .inr (step_iff.mpr ⟨hdefined, .sendChunk rawPayload streamId⟩),
        related_update related _ (ignores.sendChunk (related _) rawPayload)⟩

/-- A run is possible without the steps that are about what is read. -/
theorem unread_run (ignores : Ignores R K L) {start : Fin kNumStreams → κ}
    {start' : Fin kNumStreams → κ'} (fresh : ∀ stream, R (start stream) (start' stream))
    {remoteAddr : Option α} {events : List (NetEvent α)}
    (run : (started K remoteAddr start).Run events s) :
    ∃ events' kcps', (started L remoteAddr start').Run events' (s.unread kcps') ∧
      Thinned events' events ∧ ∀ stream, R (s.kcps stream) (kcps' stream) := by
  induction run with
  | start => exact ⟨[], start', .start, .nil, fresh⟩
  | snoc _ _ taken ih =>
      obtain ⟨events', kcps, hrun, hthinned, hrelated⟩ := ih
      obtain ⟨kcps', ⟨hskip, hsame⟩ | htaken, hrelated'⟩ := unread_step ignores hrelated taken
      · refine ⟨events', kcps', ?_, hthinned.skip hskip, hrelated'⟩
        rw [hsame]
        exact hrun
      · exact ⟨_, kcps', hrun.snoc trivial htaken, hthinned.keep _, hrelated'⟩

end Over

/-! ## The halves of the streams -/

theorem simulates_receiving : Simulates Hears Kcp.ikcpcb Kcp.receiving where
  input hears data := hears.input data
  flush hears := hears.flush
  update := by
    intro kcp k hears now
    rw [Kcp.ikcpcb_update, Ikcpcb.apply]
    exact hears.update now
  sendChunk hears rawPayload := hears.sendChunk rawPayload
  recv hears := hears.recv

theorem ignores_sending :
    Ignores (fun kcp k => Plain kcp ∧ Sends kcp k) Kcp.ikcpcb Kcp.sending where
  input := by
    rintro kcp k ⟨plain, sends⟩ data
    exact ⟨plain.of_configuration (kcp.configuration_apply (.input data)), sends.input data⟩
  flush := by
    rintro kcp k ⟨plain, sends⟩
    exact ⟨plain.of_configuration kcp.configuration_flush, sends.flush plain⟩
  update := by
    rintro kcp k ⟨plain, sends⟩ now
    rw [Kcp.ikcpcb_update, Kcp.sending_update]
    refine ⟨plain.of_configuration (kcp.configuration_apply (.update now)), ?_⟩
    rw [Ikcpcb.apply]
    exact sends.update plain now
  sendChunk := by
    rintro kcp k ⟨plain, sends⟩ rawPayload
    exact ⟨plain.of_configuration (configuration_sendChunk rawPayload kcp),
      sends.sendChunk plain rawPayload⟩
  recv := by
    rintro kcp k ⟨plain, sends⟩
    exact ⟨rfl, plain.of_configuration (kcp.configuration_apply (.recv Kcp.recvBufSize)),
      sends.recv⟩

/-- A run over the streams is one over their receiving halves: the same is read, parsed and passed
on. -/
theorem receives_of_run {config : Config} {remoteAddr : Option α} {events : List (NetEvent α)}
    {s : Listening α Ikcpcb} (run : (started Kcp.ikcpcb remoteAddr config.kcps).Run events s) :
    ∃ kcps, (started Kcp.receiving remoteAddr config.receivingKcps).Run events (s.withKcps kcps) ∧
      ∀ stream, Hears (s.kcps stream) (kcps stream) :=
  withKcps_run simulates_receiving (hears_kcps config) run

/-- What the streams deliver to a transport that two senders reach. -/
theorem receives_of_intrusion :
    let events := intrusion ++ .recvfrom none :: List.replicate 16 .advance
    let s := (started Kcp.ikcpcb none ({} : Config).kcps).reached events
    s.received = [[65], [66]] ∧
      ∃ kcps,
        (started Kcp.receiving none ({} : Config).receivingKcps).Run events (s.withKcps kcps) ∧
          ∀ stream, Hears (s.kcps stream) (kcps stream) :=
  ⟨by decide +kernel, receives_of_run (Machine.run_reached (by decide +kernel))⟩

/-- A run over the streams is, but for what is read, one over their sending halves, with as many
segments pending at each. -/
theorem sends_of_run {config : Config} (usual : config.Usual) {remoteAddr : Option α}
    {events : List (NetEvent α)} {s : Listening α Ikcpcb}
    (run : (started Kcp.ikcpcb remoteAddr config.kcps).Run events s) :
    ∃ events' kcps, (started Kcp.sending remoteAddr config.sendingKcps).Run events'
        (s.unread kcps) ∧
      Thinned events' events ∧ ∀ stream, Sends (s.kcps stream) (kcps stream) ∧
        (kcps stream).waitSnd = (s.kcps stream).waitsnd := by
  have hfresh (stream : Fin kNumStreams) : Plain (config.kcps stream) ∧
      Sends (config.kcps stream) (config.sendingKcps stream) :=
    ⟨usual.plain stream, sends_kcps config stream⟩
  obtain ⟨events', kcps, hrun, hthinned, hrelated⟩ := unread_run ignores_sending hfresh run
  refine ⟨events', kcps, hrun, hthinned, fun stream => ?_⟩
  obtain ⟨-, hsends⟩ := hrelated stream
  exact ⟨hsends, hsends.waitSnd⟩

/-- A round of a transport that has sent a frame before. -/
def sentBefore (rawPayload : List UInt8) : List (NetEvent ℕ) :=
  [.sendChunk rawPayload 0, .clock 0, .recvfrom none] ++ List.replicate 10 .advance

theorem sends_of_sentBefore :
    let s := (started Kcp.ikcpcb (some 1) ({} : Config).kcps).reached (sentBefore [65])
    (s.kcps 0).waitsnd = 1 ∧
      ∃ events' kcps, (started Kcp.sending (some 1) ({} : Config).sendingKcps).Run events'
          (s.unread kcps) ∧
        Thinned events' (sentBefore [65]) ∧ ∀ stream, Sends (s.kcps stream) (kcps stream) ∧
          (kcps stream).waitSnd = (s.kcps stream).waitsnd :=
  ⟨by decide +kernel, sends_of_run ⟨by decide, by decide, by decide⟩
    (Machine.run_reached (by decide +kernel))⟩

end Listening

end Sxaint.Net
