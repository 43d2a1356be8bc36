/-
# Datagrams of others

The first datagram fixes the address that a listening transport answers to, but not the one
it reads from: whoever sends to its port reaches its streams. What it delivers and what its
streams hold are independent of the datagrams of others exactly as long as each of these
leaves its stream as it is. For the vendored KCP this is so if the stream has nothing to flush,
and the datagram has no segment of its conversation or only such as it ignores.
-/

import Sxaint.Ikcp.Rest
import Sxaint.Machine.Purge
import Sxaint.Net.Streams

namespace Sxaint.Net

open Transition

open Sxaint.Ikcp (Ikcpcb)

/-- A step without the datagrams of others than the peer. Where one of these ends the loop over
the datagrams because it is too short, there is none to read. -/
def NetEvent.fromPeer {α : Type} [DecidableEq α] (peer : α) (event : NetEvent α) :
    Option (NetEvent α) :=
  match event with
  | .recvfrom (some (source, data)) =>
    if source = peer then some event
    else if 4 < data.length then none
    else some (.recvfrom none)
  | _ => some event

namespace Listening

variable {α κ : Type} {K : Kcp κ} {kcps : Fin kNumStreams → κ} {peer : α}

/-- What the transport has delivered and the states of its streams. -/
def shown (s : Listening α κ) : List (List UInt8) × (Fin kNumStreams → κ) :=
  (s.received, s.kcps)

/-- The address is not fixed to another than the peer's. -/
def Locked (peer : α) (s : Listening α κ) : Prop :=
  ∀ source ∈ s.remoteAddr, source = peer

/-- A fixed address stays. -/
theorem remoteAddr_of_step {event : NetEvent α} {s s' : Listening α κ} {source : α}
    (taken : step K event s = some s') (fixed : s.remoteAddr = some source) :
    s'.remoteAddr = some source := by
  obtain ⟨-, hsteps⟩ := step_iff.mp taken
  cases hsteps with
  | clock now hpc | noDatagram datagram hpc hshort => exact fixed
  | datagram opener data hpc hlong =>
      rw [accept, if_neg (by simp [fixed])]
      exact fixed
  | advance advances => cases advances <;> exact fixed
  | sendChunk rawPayload streamId => exact fixed

theorem locked_of_step {event : NetEvent α} {s s' : Listening α κ}
    (taken : step K event s = some s') (locked : Locked peer s') : Locked peer s := by
  intro source hfixed
  exact locked source (remoteAddr_of_step taken hfixed)

/-- What is left of the datagrams of others does the same as before. -/
theorem step_fromPeer [DecidableEq α] {event kept : NetEvent α} (s : Listening α κ)
    (keeps : event.fromPeer peer = some kept) : step K kept s = step K event s := by
  unfold NetEvent.fromPeer at keeps
  split at keeps
  · rename_i source data
    split at keeps
    · cases keeps
      rfl
    · split at keeps
      · cases keeps
      · rename_i hshort
        cases keeps
        simp only [step, if_neg hshort]
  · cases keeps
    rfl

/-- Only datagrams of others are dropped. -/
theorem dropped_iff [DecidableEq α] {event : NetEvent α} : event.fromPeer peer = none ↔
    ∃ source data, event = .recvfrom (some (source, data)) ∧ source ≠ peer ∧ 4 < data.length := by
  constructor
  · intro dropped
    unfold NetEvent.fromPeer at dropped
    split at dropped
    · rename_i source data
      split at dropped
      · cases dropped
      · rename_i hforeign
        split at dropped
        · rename_i hlong
          exact ⟨source, data, rfl, hforeign, hlong⟩
        · cases dropped
    · cases dropped
  · rintro ⟨source, data, rfl, hforeign, hlong⟩
    unfold NetEvent.fromPeer
    dsimp only
    rw [if_neg hforeign, if_pos hlong]

/-- A datagram of another, once the address is fixed. -/
theorem step_of_foreign {source : α} {data : List UInt8} {s s' : Listening α κ}
    (foreign : source ≠ peer) (long : 4 < data.length) (locked : Locked peer s')
    (taken : step K (.recvfrom (some (source, data))) s = some s') :
    s' = s.setKcp (streamOf data) (K.flush (K.input data (s.kcps (streamOf data)))) := by
  obtain ⟨-, hsteps⟩ := step_iff.mp taken
  cases hsteps with
  | datagram source data hpc hlong =>
      unfold accept at locked ⊢
      by_cases hopen : s.addressLocked = false ∧ s.remoteAddr.isNone
      · rw [if_pos hopen] at locked
        exact (foreign (locked source rfl)).elim
      · rw [if_neg hopen]
  | noDatagram datagram hpc hshort => exact (hshort source data rfl long).elim

/-- A datagram of another that is read leaves its stream as it is. -/
def Spares (K : Kcp κ) (peer : α) (s : Listening α κ) : NetEvent α → Prop
  | .recvfrom (some (source, data)) => source ≠ peer → 4 < data.length →
      K.flush (K.input data (s.kcps (streamOf data))) = s.kcps (streamOf data)
  | _ => True

/-- At every point of a run, the run without the datagrams of others has delivered the same and
its streams are in the same states. -/
def Isolated [DecidableEq α] (K : Kcp κ) (kcps : Fin kNumStreams → κ) (peer : α)
    (events : List (NetEvent α)) : Prop :=
  ∀ prior later s, prior ++ later = events → (machine K kcps).Run prior s →
    ∃ t, (machine K kcps).Run (prior.filterMap (NetEvent.fromPeer peer)) t ∧
      t.received = s.received ∧ t.kcps = s.kcps

theorem shown_of_foreign {source : α} {data : List UInt8} {s s' : Listening α κ}
    (foreign : source ≠ peer) (long : 4 < data.length) (locked : Locked peer s')
    (taken : step K (.recvfrom (some (source, data))) s = some s') :
    s'.shown = s.shown ↔
      K.flush (K.input data (s.kcps (streamOf data))) = s.kcps (streamOf data) := by
  rw [step_of_foreign foreign long locked taken]
  constructor
  · intro hshown
    have hstream := congrFun (congrArg Prod.snd hshown) (streamOf data)
    exact (Function.update_self _ _ _).symm.trans hstream
  · intro hsame
    rw [hsame, setKcp, Function.update_eq_self]

/-- A run of a transport whose address is fixed to the peer's is the same without the datagrams
of others exactly if each of these spares its stream. -/
theorem isolated_iff [DecidableEq α] {events : List (NetEvent α)} {s : Listening α κ}
    (run : (machine K kcps).Run events s) (fixed : s.remoteAddr = some peer) :
    Isolated K kcps peer events ↔ (machine K kcps).RunUnder (Spares K peer) events s := by
  have hlocked : Locked peer s := by
    intro source hsource
    exact (Option.some.inj (fixed.symm.trans hsource)).symm
  have hback (state : Listening α κ) (event : NetEvent α) (next : Listening α κ)
      (taken : (machine K kcps).step event state = some next) (locked : Locked peer next) :
      Locked peer state := locked_of_step taken locked
  have hhidden (state : Listening α κ) (event : NetEvent α) (next : Listening α κ)
      (locked : Locked peer next) (dropped : event.fromPeer peer = none)
      (taken : (machine K kcps).step event state = some next)
      (same : next.shown = state.shown) : next = state := by
    obtain ⟨source, data, rfl, hforeign, hlong⟩ := dropped_iff.mp dropped
    rw [shown_of_foreign hforeign hlong locked taken] at same
    rw [step_of_foreign hforeign hlong locked taken, same, setKcp, Function.update_eq_self]
  have hpurge := Machine.unaffected_iff hback (fun _ _ state keeps => step_fromPeer state keeps)
    hhidden run hlocked
  have hunaffected : Isolated K kcps peer events ↔
      (machine K kcps).Unaffected (NetEvent.fromPeer peer) shown events := by
    simp only [Isolated, Machine.Unaffected, shown, Prod.mk.injEq]
  rw [hunaffected, hpurge]
  constructor
  · intro silent
    apply silent.restrict hback ?_ hlocked
    intro state event next locked taken hsilent
    rcases event with _ | ⟨_ | ⟨source, data⟩⟩ | _ | _
    · trivial
    · trivial
    · intro hforeign hlong
      rw [← shown_of_foreign hforeign hlong locked taken]
      exact hsilent (dropped_iff.mpr ⟨source, data, rfl, hforeign, hlong⟩) next taken
    · trivial
    · trivial
  · intro spared
    apply spared.restrict hback ?_ hlocked
    intro state event next locked taken hspares dropped t htaken
    obtain ⟨source, data, rfl, hforeign, hlong⟩ := dropped_iff.mp dropped
    obtain rfl := Option.some.inj (taken.symm.trans htaken)
    rw [shown_of_foreign hforeign hlong locked taken]
    exact hspares hforeign hlong

/-! ## Datagrams that the streams withstand -/

/-- A datagram of another that is read does nothing to the control block of its stream. -/
def Spared (peer : α) (s : Listening α Ikcpcb) : NetEvent α → Prop
  | .recvfrom (some (source, data)) => source ≠ peer → 4 < data.length →
      (s.kcps (streamOf data)).Withstands data
  | _ => True

instance [DecidableEq α] (peer : α) (s : Listening α Ikcpcb) :
    (event : NetEvent α) → Decidable (Spared peer s event)
  | .recvfrom (some (source, data)) =>
    inferInstanceAs (Decidable (source ≠ peer → 4 < data.length → _))
  | .recvfrom none | .clock _ | .advance | .sendChunk _ _ => isTrue trivial

theorem sendWindow_of_listening {config : Config} {allowed : Listening α Ikcpcb → NetEvent α → Prop}
    {events : List (NetEvent α)} {s : Listening α Ikcpcb}
    (run : (machine Kcp.ikcpcb config.kcps).RunUnder allowed events s) :
    ∀ stream, (s.kcps stream).SendWindow := by
  induction run with
  | start =>
      intro stream
      exact Ikcpcb.sendWindow_of_setUp (Ikcpcb.setUp_ofTransport _ _ _ _ _)
  | snoc _ _ taken ih =>
      exact kcps_of_calls (fun _ kcp => kcp.SendWindow)
        (fun _ _ call window => Ikcpcb.sendWindow_apply window call) taken ih

/-- A run in which the streams withstand the datagrams of others is the same without them. -/
theorem isolated_of_spared [DecidableEq α] {config : Config} {events : List (NetEvent α)}
    {s : Listening α Ikcpcb}
    (run : (machine Kcp.ikcpcb config.kcps).RunUnder (Spared peer) events s)
    (fixed : s.remoteAddr = some peer) : Isolated Kcp.ikcpcb config.kcps peer events := by
  rw [isolated_iff (run.mono fun _ _ _ => trivial) fixed]
  refine run.refine fun labels state event next prior spared taken => ?_
  rcases event with _ | ⟨_ | ⟨source, data⟩⟩ | _ | _
  · trivial
  · trivial
  · intro hforeign hlong
    exact Ikcpcb.flush_input_of_withstands (sendWindow_of_listening prior _) (spared hforeign hlong)
  · trivial
  · trivial

/-- A datagram with one segment of the first stream that carries the frame of one byte. -/
def datagram (sn : UInt32) (byte : UInt8) : List UInt8 :=
  LittleEndian.encode 4 0x11223344 ++ [81, 0, 128, 0, 0, 0, 0, 0] ++
    LittleEndian.encode 4 sn.toNat ++ [0, 0, 0, 0] ++ LittleEndian.encode 4 5 ++ frame [byte]

/-- A round in which some datagrams are read, with a number of further steps. -/
def round (datagrams : List (ℕ × List UInt8)) (count : ℕ) : List (NetEvent ℕ) :=
  [.clock 0] ++ datagrams.map (fun datagram => .recvfrom (some datagram)) ++ [.recvfrom none] ++
    List.replicate count .advance

/-- A second sender whose datagrams are of no conversation and beyond the window. -/
def stray : List (NetEvent ℕ) :=
  round [] 10 ++ round [(1, datagram 0 65), (2, List.replicate 24 0), (2, datagram 5000 66)] 13

theorem isolated_of_stray : Isolated Kcp.ikcpcb ({} : Config).kcps 1 stray :=
  isolated_of_spared (Machine.runUnder_reached (by decide +kernel)) (by decide +kernel)

/-- A second sender continues the stream of the first. -/
def intrusion : List (NetEvent ℕ) :=
  round [] 10 ++
    [.clock 0, .recvfrom (some (1, datagram 0 65)), .recvfrom (some (2, datagram 1 66))]

/-- Both frames are delivered; without the second sender there is one. -/
theorem not_isolated_of_intrusion :
    ∃ s t, (machine Kcp.ikcpcb ({} : Config).kcps).Run
        (intrusion ++ .recvfrom none :: List.replicate 16 .advance) s ∧
      s.remoteAddr = some 1 ∧ s.received = [[65], [66]] ∧
      (machine Kcp.ikcpcb ({} : Config).kcps).Run (intrusion.filterMap (NetEvent.fromPeer 1) ++
        .recvfrom none :: List.replicate 13 .advance) t ∧ t.received = [[65]] ∧
      ¬ Isolated Kcp.ikcpcb ({} : Config).kcps 1
        (intrusion ++ .recvfrom none :: List.replicate 16 .advance) := by
  refine ⟨_, _, Machine.run_reached (by decide +kernel), by decide +kernel, by decide +kernel,
    Machine.run_reached (by decide +kernel), by decide +kernel, ?_⟩
  intro isolated
  obtain ⟨t, ht, -, hkcps⟩ := isolated intrusion _
    ((machine Kcp.ikcpcb ({} : Config).kcps).reached intrusion) rfl
    (Machine.run_reached (by decide +kernel))
  have hpurged : (machine Kcp.ikcpcb ({} : Config).kcps).Run
      (intrusion.filterMap (NetEvent.fromPeer 1))
      ((machine Kcp.ikcpcb ({} : Config).kcps).reached
        (intrusion.filterMap (NetEvent.fromPeer 1))) :=
    Machine.run_reached (by decide +kernel)
  rw [ht.unique hpurged] at hkcps
  have hstream := congrFun hkcps 0
  revert hstream
  decide +kernel

end Listening

end Sxaint.Net
