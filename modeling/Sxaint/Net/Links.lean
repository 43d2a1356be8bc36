/-
# The streams between two transports

Framing is proved of a stream that delivers the bytes it was given in order and once. The streams
of two transports are such streams, although the network between them loses, repeats, reorders and
delays what they send: in each direction, a run of the two transports is a run of that model.
-/

import Sxaint.Machine.Progress
import Sxaint.Net.Reassembly
import Sxaint.Net.Stack

namespace Sxaint.Net

open Transition

open Sxaint.Ikcp (Side)

/-! ## What becomes of one stream -/

namespace Listening

variable {α κ : Type} {K : Kcp κ} {stream : Fin kNumStreams} {s next : Listening α κ}

/-- Where the network thread is, for one stream. -/
def net (stream : Fin kNumStreams) (s : Listening α κ) : ReadPc :=
  match s.pc with
  | .parse other _ => if other = stream then .parsing else .reading
  | .begin | .burst _ | .update _ _ | .recv _ => .reading

/-- What a step does to the buffer of a stream, with the payloads of the stream that it passes
on. -/
inductive Reads (stream : Fin kNumStreams) (s next : Listening α κ) : List (List UInt8) → Prop
  | keep (streamBuffer : next.streamBuffer stream = s.streamBuffer stream)
      (net : next.net stream = s.net stream) : Reads stream s next []
  | recv {bytes : List UInt8} (some : bytes ≠ []) (idle : s.net stream = .reading)
      (streamBuffer : next.streamBuffer stream = s.streamBuffer stream ++ bytes)
      (net : next.net stream = .parsing) : Reads stream s next []
  | more (looping : s.net stream = .parsing) (found : parse (s.streamBuffer stream) = .more)
      (streamBuffer : next.streamBuffer stream = s.streamBuffer stream)
      (net : next.net stream = .reading) : Reads stream s next []
  | frame {finalData left : List UInt8} (looping : s.net stream = .parsing)
      (found : parse (s.streamBuffer stream) = .frame finalData left)
      (streamBuffer : next.streamBuffer stream = left) (net : next.net stream = .parsing) :
      Reads stream s next [finalData]

theorem net_eq_parsing {rest : List (Fin kNumStreams)} (pc : s.pc = .parse stream rest) :
    s.net stream = .parsing := by
  rw [net, pc]
  exact if_pos rfl

theorem reads_advance (advances : AdvancesTo K s next) (defined : next.fault = false) :
    Reads stream s next (onStream stream (s.passed .advance)) := by
  cases advances with
  | allUpdated hpc | update hpc | allRead hpc =>
      rw [passed, hpc]
      refine .keep rfl ?_
      rw [net, net, hpc]
  | nothing hpc hnone =>
      rw [passed, hpc]
      refine .keep rfl ?_
      rw [net, net, hpc]
  | @bytes first rest hpc hsome =>
      rw [passed, hpc]
      have hidle : s.net stream = .reading := by
        rw [net, hpc]
      by_cases hstream : first = stream
      · subst hstream
        exact .recv hsome hidle (Function.update_self _ _ _) (net_eq_parsing rfl)
      · refine .keep (Function.update_of_ne (Ne.symm hstream) _ _) ?_
        rw [hidle, net]
        exact if_neg hstream
  | @more first rest hpc hmore =>
      rw [passed, hpc]
      dsimp only
      rw [hmore]
      by_cases hstream : first = stream
      · subst hstream
        exact .more (net_eq_parsing hpc) hmore rfl rfl
      · refine .keep rfl ?_
        rw [net, net, hpc]
        exact (if_neg hstream).symm
  | @frame first rest finalData left hpc hframe =>
      rw [passed, hpc]
      dsimp only
      rw [hframe]
      dsimp only
      by_cases hstream : first = stream
      · subst hstream
        rw [onStream_singleton]
        exact .frame (net_eq_parsing hpc) hframe (Function.update_self _ _ _) (net_eq_parsing rfl)
      · rw [onStream_singleton_of_ne hstream]
        refine .keep (Function.update_of_ne (Ne.symm hstream) _ _) ?_
        rw [net, net, hpc]
  | overrun hpc hoverrun => cases defined

/-- At most one payload is handed to a stream in a step. -/
theorem onStream_submitted (stream : Fin kNumStreams) (event : NetEvent α) :
    onStream stream (submitted event) = [] ∨
      ∃ rawPayload, onStream stream (submitted event) = [rawPayload] ∧
        (stream, rawPayload) ∈ submitted event := by
  cases event with
  | clock now => exact .inl rfl
  | recvfrom datagram => exact .inl rfl
  | advance => exact .inl rfl
  | sendChunk rawPayload streamId =>
      rw [submitted]
      by_cases hstream : streamFor streamId = stream
      · subst hstream
        exact .inr ⟨rawPayload, onStream_singleton _ _, List.mem_singleton_self _⟩
      · exact .inl (onStream_singleton_of_ne hstream _)

theorem reads_step {event : NetEvent α} (taken : step K event s = some next)
    (defined : next.fault = false) :
    Reads stream s next (onStream stream (s.passed event)) := by
  obtain ⟨-, hsteps⟩ := step_iff.mp taken
  cases hsteps with
  | clock now hpc | noDatagram datagram hpc hshort =>
      refine .keep rfl ?_
      rw [net, net, hpc]
  | datagram source data hpc hlong =>
      unfold accept
      dsimp only
      split <;> exact .keep rfl rfl
  | advance advances => exact reads_advance advances defined
  | sendChunk rawPayload streamId => exact .keep rfl rfl

end Listening

/-! ## A call of `sendChunk`, whole -/

namespace Link

/-- The steps in which the stream accepts what it is handed. -/
abbrev Goes (s t : Link) : Prop :=
  machine.Leads (fun _ event => Accepting event) s t

/-- A call is in the loop over its pieces. -/
def inLoop (rawPayload : List UInt8) (sent : ℕ) (s : Link) : Link :=
  { s with
    calls := s.calls ++ [{ rawPayload := rawPayload, pc := .send sent }]
    kcpMutex := some s.calls.length
    accepted := s.accepted ++ (frame rawPayload).take sent
    order := s.order ++ [(s.calls.length, rawPayload)] }

/-- A call has returned, and all of its frame was accepted. -/
def called (rawPayload : List UInt8) (s : Link) : Link :=
  { s with
    calls := s.calls ++ [{ rawPayload := rawPayload, pc := .returned }]
    accepted := s.accepted ++ frame rawPayload
    order := s.order ++ [(s.calls.length, rawPayload)] }

section Sends

variable {s : Link} {rawPayload : List UInt8}

/-- The call made last takes a step. -/
theorem goes_last {t after : Link} {call : SendChunkCall} {next : SendChunkPc}
    (calls : t.calls = s.calls ++ [call]) (defined : t.fault = false)
    (taken : sendChunkStep s.calls.length call true t = some (next, after)) :
    Goes t { after with calls := after.calls.set s.calls.length { call with pc := next } } := by
  have hread : t.calls[s.calls.length]? = some call := by
    rw [calls]
    exact List.getElem?_concat_length
  have hstep : step (.sendChunk s.calls.length true) t =
      some { after with calls := after.calls.set s.calls.length { call with pc := next } } := by
    rw [step, defined]
    dsimp only
    rw [if_neg Bool.false_ne_true, hread]
    dsimp only
    rw [taken]
    rfl
  exact Machine.leads_step (.sendChunk s.calls.length true) rfl hstep

theorem set_concat (calls : List SendChunkCall) (call next : SendChunkCall) :
    (calls ++ [call]).set calls.length next = calls ++ [next] := by
  rw [List.set_append_right _ _ (le_refl _), Nat.sub_self, List.set_cons_zero]

/-- A call is made and locks the mutex. -/
theorem goes_lock (free : s.kcpMutex = none) (defined : s.fault = false)
    (sizable : Sizable rawPayload) : Goes s (inLoop rawPayload 0 s) := by
  have hstep : step (.call rawPayload) s =
      some { s with calls := s.calls ++ [{ rawPayload := rawPayload }] } := by
    rw [step, defined]
    rfl
  have hcall : Goes s { s with calls := s.calls ++ [{ rawPayload := rawPayload }] } :=
    Machine.leads_step (.call rawPayload) sizable hstep
  refine hcall.trans ?_
  have hlock := goes_last (s := s)
    (t := { s with calls := s.calls ++ [{ rawPayload := rawPayload }] }) rfl defined (if_pos free)
  dsimp only at hlock
  rw [set_concat] at hlock
  have htake : s.accepted ++ (frame rawPayload).take 0 = s.accepted := by
    rw [List.take_zero, List.append_nil]
  rw [inLoop, htake]
  exact hlock

/-- One round of the loop over the pieces. -/
theorem goes_piece (defined : s.fault = false) (sizable : Sizable rawPayload) {sent : ℕ}
    (part : sent < (frame rawPayload).length) :
    Goes (inLoop rawPayload sent s)
      (inLoop rawPayload (sent + min maxSendSize.toNat ((frame rawPayload).length - sent)) s) := by
  have hsize := toInt_length_frame sizable
  have hpart : (sent : ℤ) < toInt (frame rawPayload).length := by
    rw [hsize]
    exact Int.ofNat_lt.mpr part
  have hpiece : (min maxSendSize (toInt (frame rawPayload).length - sent)).toNat =
      min maxSendSize.toNat ((frame rawPayload).length - sent) := by
    rw [hsize, maxSendSize]
    omega
  generalize min maxSendSize.toNat ((frame rawPayload).length - sent) = toSend at hpiece ⊢
  have htaken : sendChunkStep s.calls.length { rawPayload := rawPayload, pc := .send sent } true
      (inLoop rawPayload sent s) = some (.send (sent + toSend),
        { inLoop rawPayload sent s with
          accepted := s.accepted ++ (frame rawPayload).take (sent + toSend) }) := by
    rw [sendChunkStep]
    dsimp only
    rw [if_pos hpart, if_pos rfl, hpiece, List.take_add, ← List.append_assoc]
    rfl
  have hround := goes_last (s := s) (t := inLoop rawPayload sent s) rfl defined htaken
  dsimp only [inLoop] at hround
  rwa [set_concat] at hround

/-- The loop over the pieces goes on to the end of the frame. -/
theorem goes_loop (defined : s.fault = false) (sizable : Sizable rawPayload) {sent : ℕ}
    (part : sent ≤ (frame rawPayload).length) :
    Goes (inLoop rawPayload sent s) (inLoop rawPayload (frame rawPayload).length s) := by
  induction hleft : (frame rawPayload).length - sent using Nat.strong_induction_on
    generalizing sent with
  | _ left ih =>
      rcases part.eq_or_lt with rfl | hlt
      · exact .refl
      · have hpositive : 0 < maxSendSize.toNat := by decide
        have hround := goes_piece defined sizable hlt
        generalize maxSendSize.toNat = piece at hpositive hround
        exact hround.trans (ih _ (by omega) (by omega) rfl)

/-- A call of `sendChunk`, from its beginning to its end. -/
theorem goes_called (free : s.kcpMutex = none) (defined : s.fault = false)
    (sizable : Sizable rawPayload) : Goes s (called rawPayload s) := by
  refine (goes_lock free defined sizable).trans ?_
  refine (goes_loop defined sizable (Nat.zero_le _)).trans ?_
  have hall : ¬((frame rawPayload).length : ℤ) < toInt (frame rawPayload).length := by
    rw [toInt_length_frame sizable]
    exact lt_irrefl _
  have hdone : sendChunkStep s.calls.length
      { rawPayload := rawPayload, pc := .send (frame rawPayload).length } true
      (inLoop rawPayload (frame rawPayload).length s) =
        some (.flush, inLoop rawPayload (frame rawPayload).length s) := by
    rw [sendChunkStep]
    exact if_neg hall
  have hend :=
    goes_last (s := s) (t := inLoop rawPayload (frame rawPayload).length s) rfl defined hdone
  dsimp only [inLoop] at hend
  rw [set_concat, List.take_length] at hend
  rw [inLoop, List.take_length]
  refine hend.trans ?_
  have hflush := @goes_last s { s with
    calls := s.calls ++ [{ rawPayload := rawPayload, pc := .flush }]
    kcpMutex := some s.calls.length
    accepted := s.accepted ++ frame rawPayload
    order := s.order ++ [(s.calls.length, rawPayload)] } _ _ _ rfl defined rfl
  dsimp only at hflush
  rw [set_concat] at hflush
  rw [called, free]
  exact hflush

end Sends

/-! ## The network thread -/

/-- A read from the stream. -/
theorem goes_recv {s : Link} {front bytes : List UInt8} (defined : s.fault = false)
    (idle : s.net = .reading) (some : bytes ≠ []) (delivered : s.delivered = front.length)
    (comes : front ++ bytes <+: s.accepted) :
    Goes s { s with
      streamBuffer := s.streamBuffer ++ bytes
      delivered := s.delivered + bytes.length
      net := .parsing } := by
  obtain ⟨rest, hrest⟩ := comes
  have hinside : s.delivered + bytes.length ≤ s.accepted.length := by
    rw [← hrest, delivered, List.length_append, List.length_append]
    exact Nat.le_add_right _ _
  have hblock : Buffer.block s.accepted s.delivered bytes.length = bytes := by
    rw [← hrest, delivered, List.append_assoc, Buffer.block_append_of_le (le_refl _), Nat.sub_self,
      Buffer.block_append_front rfl]
  have hstep : step (.recv bytes.length) s = .some { s with
      streamBuffer := s.streamBuffer ++ bytes
      delivered := s.delivered + bytes.length
      net := .parsing } := by
    rw [step, defined, if_neg Bool.false_ne_true,
      if_pos ⟨idle, List.length_pos_iff.mpr some, hinside⟩, hblock]
  exact Machine.leads_step (.recv bytes.length) trivial hstep

/-- A round of the loop over the buffer. -/
theorem goes_parse {s : Link} (defined : s.fault = false) (looping : s.net = .parsing) :
    Goes s s.parseStep := by
  have hstep : step .parse s = some s.parseStep := by
    rw [step, defined, if_neg Bool.false_ne_true]
    exact if_pos looping
  exact Machine.leads_step .parse trivial hstep

end Link

/-! ## A stream of two transports -/

namespace Channel

variable {α : Type}

/-- One stream in one direction. -/
def link (side : Side) (stream : Fin kNumStreams) (s : Channel α) : Link where
  calls := (onStream stream (s.sent side)).map fun rawPayload =>
    { rawPayload := rawPayload, pc := .returned }
  accepted := frameFormat.stream (onStream stream (s.sent side))
  delivered := (frameFormat.stream (onStream stream (s.got side.other)) ++
    (s.ends side.other).streamBuffer stream).length
  streamBuffer := (s.ends side.other).streamBuffer stream
  net := (s.ends side.other).net stream
  received := onStream stream (s.got side.other)
  order := (onStream stream (s.sent side)).mapIdx Prod.mk
  fault := (s.ends side.other).fault

/-- What is handed to `sendChunk` on the stream is a call of it. -/
theorem link_of_submitted {side : Side} {stream : Fin kNumStreams} {s next : Channel α}
    {rawPayload : List UInt8}
    (sent : onStream stream (next.sent side) = onStream stream (s.sent side) ++ [rawPayload])
    (got : next.got side.other = s.got side.other)
    (ends : next.ends side.other = s.ends side.other) :
    next.link side stream = (s.link side stream).called rawPayload := by
  have horder : (onStream stream (s.sent side) ++ [rawPayload]).mapIdx Prod.mk =
      (onStream stream (s.sent side)).mapIdx Prod.mk ++
        [((onStream stream (s.sent side)).length, rawPayload)] :=
    List.mapIdx_concat
  have hframe : frameFormat.stream [rawPayload] = frame rawPayload := List.append_nil _
  rw [link, Link.called, link, sent, got, ends, List.map_append, Framing.Format.stream_append,
    horder, hframe]
  dsimp only
  rw [List.length_map]
  rfl

/-- A step that hands nothing to the stream keeps what is on the side of the sender. -/
theorem link_of_same {side : Side} {stream : Fin kNumStreams} {s next : Channel α}
    (sent : onStream stream (next.sent side) = onStream stream (s.sent side))
    (got : next.got side.other = s.got side.other)
    (ends : next.ends side.other = s.ends side.other) :
    next.link side stream = s.link side stream := by
  rw [link, link, sent, got, ends]

/-- A step of the receiver is at most one of the network thread. -/
theorem goes_of_reads {side : Side} {stream : Fin kNumStreams} {s next : Channel α}
    {passed : List (List UInt8)} (sent : next.sent side = s.sent side)
    (got : onStream stream (next.got side.other) = onStream stream (s.got side.other) ++ passed)
    (reads : Listening.Reads stream (s.ends side.other) (next.ends side.other) passed)
    (defined : (s.ends side.other).fault = false) (still : (next.ends side.other).fault = false)
    (front : frameFormat.stream (onStream stream (next.got side.other)) ++
        (next.ends side.other).streamBuffer stream <+:
      frameFormat.stream (onStream stream (next.sent side))) :
    Link.Goes (s.link side stream) (next.link side stream) := by
  cases reads with
  | keep streamBuffer net =>
      have hsame : next.link side stream = s.link side stream := by
        rw [link, link, sent, got, List.append_nil, streamBuffer, net, still, defined]
      rw [hsame]
  | @recv bytes some idle streamBuffer net =>
      rw [got, List.append_nil, sent, streamBuffer, ← List.append_assoc] at front
      have hrecv := @Link.goes_recv (s.link side stream) _ _ defined idle some rfl front
      have hsame : next.link side stream =
          { s.link side stream with
            streamBuffer := (s.link side stream).streamBuffer ++ bytes
            delivered := (s.link side stream).delivered + bytes.length
            net := .parsing } := by
        rw [link, link, sent, got, List.append_nil, streamBuffer, net, still, defined,
          ← List.append_assoc, List.length_append]
      rw [hsame]
      exact hrecv
  | more looping found streamBuffer net =>
      have hparse := @Link.goes_parse (s.link side stream) defined looping
      have hsame : next.link side stream = (s.link side stream).parseStep := by
        rw [Link.parseStep, link, link]
        dsimp only
        rw [found, sent, got, List.append_nil, streamBuffer, net, still, defined]
      rw [hsame]
      exact hparse
  | @frame finalData left looping found streamBuffer net =>
      have hparse := @Link.goes_parse (s.link side stream) defined looping
      have hframe : frameFormat.stream [finalData] = frame finalData := List.append_nil _
      have hsame : next.link side stream = (s.link side stream).parseStep := by
        rw [Link.parseStep, link, link]
        dsimp only
        rw [found, sent, got, streamBuffer, net, looping, still, defined,
          Framing.Format.stream_append, hframe, List.append_assoc,
          ← (frame_of_parse found).1]
      rw [hsame]
      exact hparse

/-- A step of one of the transports leads the model of each stream on. -/
theorem goes_of_step {one side : Side} {stream : Fin kNumStreams} {s next : Channel α}
    {event : NetEvent α} (taken : step (one, event) s = some next)
    (sizable : ∀ payload ∈ next.sent side, Sizable payload.2)
    (defined : (s.ends side.other).fault = false) (still : (next.ends side.other).fault = false)
    (front : frameFormat.stream (onStream stream (next.got side.other)) ++
        (next.ends side.other).streamBuffer stream <+:
      frameFormat.stream (onStream stream (next.sent side))) :
    Link.Goes (s.link side stream) (next.link side stream) := by
  obtain ⟨-, hstep, hends, hsent, hsent', hgot, hgot'⟩ := step_cases taken
  rcases side.eq_or_eq_other one with rfl | rfl
  · -- the sender takes the step
    have hadded : onStream stream (next.sent one) =
        onStream stream (s.sent one) ++ onStream stream (Listening.submitted event) := by
      rw [hsent, onStream_append]
    rcases Listening.onStream_submitted stream event with hnone | ⟨rawPayload, hone, hmem⟩
    · rw [hnone, List.append_nil] at hadded
      rw [link_of_same hadded hgot' hends]
    · rw [hone] at hadded
      rw [link_of_submitted hadded hgot' hends]
      apply Link.goes_called rfl defined
      apply sizable (stream, rawPayload)
      rw [hsent]
      exact List.mem_append_right _ hmem
  · -- the receiver takes it
    rw [Side.other_other] at hsent'
    apply goes_of_reads hsent' ?_ (Listening.reads_step hstep still) defined still front
    rw [hgot, onStream_append]

section Run

variable {convId : UInt32} {configs : Side → Config} {remoteAddr : Side → Option α}
  {events : List (Side × NetEvent α)} {s : Channel α}

/-- A stream of two transports is a run of the model of one stream, in each direction. -/
theorem links_of_run (conv : ∀ side, (configs side).convId = convId)
    (run : (machine configs remoteAddr).Run events s)
    (sizable : ∀ side, ∀ payload ∈ s.sent side, Sizable payload.2)
    (few : ∀ side stream, ((s.ends side).kcps stream).numbered.length < 2 ^ 31) (side : Side)
    (stream : Fin kNumStreams) :
    ∃ steps, Link.machine.RunUnder (fun _ event => Link.Accepting event) steps
      (s.link side stream) := by
  refine run.induct (motive := fun _ s => (∀ side, ∀ payload ∈ s.sent side, Sizable payload.2) →
    Stack.Few s → ∃ steps, Link.machine.RunUnder (fun _ event => Link.Accepting event) steps
      (s.link side stream)) ?_ ?_ sizable few
  · exact fun _ _ => ⟨[], .start⟩
  rintro events s ⟨one, event⟩ next prior ih - taken sizable few
  have hsizable := sizable_of_step taken sizable
  have hfew := few.of_step taken
  have hrun := prior.snoc trivial taken
  obtain ⟨steps, hsteps⟩ := ih hsizable hfew
  have hgoes := goes_of_step taken (sizable side)
    (fault_eq_false conv prior hsizable hfew side.other)
    (fault_eq_false conv hrun sizable few side.other)
    (stream_prefix_of_run conv hrun sizable few side stream)
  obtain ⟨more, hmore⟩ := hgoes.run (fun _ _ ok => ok) hsteps
  exact ⟨steps ++ more, hmore⟩

end Run

/-- The three bytes are one call, one read and one frame. -/
theorem links_of_exchange :
    let M := machine (fun _ => {}) fun side => if side = .left then some 1 else none
    ∃ steps, Link.machine.RunUnder (fun _ event => Link.Accepting event) steps
      ((M.reached exchange).link .left 1) :=
  @links_of_run _ 0x11223344 _ _ _ _ (fun _ => rfl) (Machine.run_reached (by decide +kernel))
    (by rintro (_ | _) <;> decide +kernel) (by rintro (_ | _) <;> decide +kernel) .left 1

end Channel

end Sxaint.Net
