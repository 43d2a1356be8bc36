/-
# A call that fails in the middle

`sendChunk` hands a frame to its stream in pieces and stops at the first one that the stream
does not take. Nothing is taken back, and the caller is not told: the chunk task counts its
chunk in either case. So what the end of a chunk task does is all or nothing exactly if the
stream takes all of its pieces, or the task throws before it hands over the first of them.
-/

import Sxaint.Net.Frames
import Sxaint.Net.KnownAnswers
import Sxaint.Net.NetLoop

namespace Sxaint.Net

open Transition

/-! ## Behind whole frames -/

namespace Link

/-- The machine of a stream that holds some bytes after calls with some payloads. -/
def carrying (queued : List UInt8) (payloads : List (List UInt8)) : Machine Link LinkEvent where
  init :=
    { calls := payloads.map fun rawPayload => { rawPayload := rawPayload, pc := .returned }
      accepted := queued
      order := payloads.zipIdx.map Prod.swap }
  step := step

theorem payloads_carrying (queued : List UInt8) (payloads : List (List UInt8)) :
    (carrying queued payloads).init.payloads = payloads := by
  rw [Link.payloads, carrying, List.map_map]
  exact List.zipIdx_map_fst _ _

/-- What is sent behind whole frames is taken off exactly, and so are the frames. -/
theorem exact_of_carrying {queued : List UInt8} {payloads : List (List UInt8)}
    (sizable : ∀ rawPayload ∈ payloads, Sizable rawPayload)
    (whole : queued = payloads.flatMap frame) {events : List LinkEvent} {s : Link}
    (run : (carrying queued payloads).RunUnder (fun _ event => Accepting event) events s) :
    Exact s := by
  apply exact_of_framed
  apply run.invariant (motive := Framed) ?_ fun _ _ _ inv ok taken => framed_step inv ok taken
  refine ⟨rfl, ?_, ?_, ?_, ?_, ?_, Nat.zero_le _, ?_, ?_⟩
  · intro call hmem
    obtain ⟨rawPayload, hpayload, rfl⟩ := List.mem_map.mp hmem
    exact sizable rawPayload hpayload
  · rintro ⟨index, rawPayload⟩
    simp [carrying, List.mem_zipIdx_iff_getElem?]
  · show ((payloads.zipIdx.map Prod.swap).map Prod.fst).Nodup
    rw [List.map_map, show Prod.fst ∘ Prod.swap = (Prod.snd : List UInt8 × ℕ → ℕ) from rfl,
      List.zipIdx_map_snd]
    exact List.nodup_range'
  · rintro index ⟨call, hread, -, hinside⟩
    obtain ⟨rawPayload, -, rfl⟩ := List.mem_map.mp (List.mem_of_getElem? hread)
    exact (hinside rfl).elim
  · show queued = frameFormat.stream _
    rw [payloads_carrying]
    exact whole
  · exact Framing.Format.reading_nil _ _
  · intro _
    rw [payloads_carrying]
    exact ⟨payloads, rfl, .inl rfl⟩

end Link

/-! ## What a call hands over -/

/-- What a call of `ikcp_send` does. -/
inductive SendResult
  | /-- The stream takes the piece. -/
    taken
  | /-- The result is negative; a part of the piece may be queued. -/
    failed (part : ℕ)
  deriving DecidableEq, Repr

/-- The queue of a stream, with the results of all calls of `ikcp_send` on it. -/
structure Scripted where
  script : ℕ → SendResult
  calls : ℕ := 0
  /-- The bytes queued so far. -/
  queued : List UInt8 := []

/-- A call that queues some bytes. -/
def Scripted.push (piece : List UInt8) (kcp : Scripted) : Scripted :=
  { kcp with calls := kcp.calls + 1, queued := kcp.queued ++ piece }

namespace Kcp

/-- A stream that goes by its script. A call that fails runs out of memory before the last
segment of its piece. -/
def scripted : Kcp Scripted where
  input _ kcp := kcp
  flush kcp := kcp
  update _ kcp := kcp
  recv kcp := ([], kcp)
  send piece kcp :=
    match kcp.script kcp.calls with
    | .taken => (true, kcp.push piece)
    | .failed part => (false, kcp.push (piece.dropLast.take part))

theorem send_of_taken {kcp : Scripted} (result : kcp.script kcp.calls = .taken)
    (piece : List UInt8) : scripted.send piece kcp = (true, kcp.push piece) := by
  simp only [scripted, result]

theorem send_of_failed {kcp : Scripted} {part : ℕ} (result : kcp.script kcp.calls = .failed part)
    (piece : List UInt8) :
    scripted.send piece kcp = (false, kcp.push (piece.dropLast.take part)) := by
  simp only [scripted, result]

end Kcp

/-- The number of pieces of so many bytes. -/
def pieces (size : ℕ) : ℕ :=
  (size + maxSendSize.toNat - 1) / maxSendSize.toNat

theorem pieces_succ {size : ℕ} (positive : 0 < size) :
    pieces size = pieces (size - maxSendSize.toNat) + 1 := by
  rw [pieces, pieces, toNat_maxSendSize]
  omega

namespace Scripted

/-- The stream takes the next calls, so many of them. -/
def Takes (kcp : Scripted) (count : ℕ) : Prop :=
  ∀ i < count, kcp.script (kcp.calls + i) = .taken

instance (kcp : Scripted) (count : ℕ) : Decidable (kcp.Takes count) :=
  inferInstanceAs (Decidable (∀ i < count, _))

theorem takes_succ {kcp : Scripted} {count : ℕ} (first : kcp.script kcp.calls = .taken)
    (piece : List UInt8) : kcp.Takes (count + 1) ↔ (kcp.push piece).Takes count := by
  rw [Takes, Takes]
  show _ ↔ ∀ i < count, kcp.script (kcp.calls + 1 + i) = .taken
  constructor
  · intro htakes i hi
    have hnext := htakes (i + 1) (Nat.succ_lt_succ hi)
    rwa [Nat.add_assoc, Nat.add_comm 1 i]
  · intro htakes i hi
    cases i with
    | zero => exact first
    | succ i =>
        have hnext := htakes i (Nat.lt_of_succ_lt_succ hi)
        rwa [Nat.add_assoc, Nat.add_comm 1 i] at hnext

end Scripted

section Loop

variable {kcp : Scripted} {rest : List UInt8}

/-- A call that fails has not queued the rest of the frame. -/
theorem part_ne_of_failed (nonempty : rest ≠ []) (part : ℕ) :
    (rest.take maxSendSize.toNat).dropLast.take part ≠ rest := by
  intro hwhole
  have hpositive := List.length_pos_iff.mpr nonempty
  have hlength := congrArg List.length hwhole
  simp only [List.length_take, List.length_dropLast] at hlength
  omega

/-- The loop queues a part of what it has to hand over, and all of it exactly if the stream
takes each piece. -/
theorem queued_sendLoop (rounds : ℕ) (enough : rest.length ≤ rounds) :
    ∃ part, part <+: rest ∧ (Kcp.scripted.sendLoop rounds rest kcp).queued = kcp.queued ++ part ∧
      (part = rest ↔ kcp.Takes (pieces rest.length)) := by
  induction rounds generalizing rest kcp with
  | zero =>
      obtain rfl := List.length_eq_zero_iff.mp (Nat.le_zero.mp enough)
      exact ⟨[], List.prefix_refl _, (List.append_nil _).symm,
        iff_of_true rfl fun i hi => (Nat.not_lt_zero i hi).elim⟩
  | succ rounds ih =>
      rw [Kcp.sendLoop]
      split
      · rename_i hnil
        subst hnil
        exact ⟨[], List.prefix_refl _, (List.append_nil _).symm,
          iff_of_true rfl fun i hi => (Nat.not_lt_zero i hi).elim⟩
      · rename_i hrest
        have hpositive := List.length_pos_iff.mpr hrest
        rw [pieces_succ hpositive]
        cases hresult : kcp.script kcp.calls with
        | taken =>
            have hpiece := toNat_maxSendSize
            have hleft : (rest.drop maxSendSize.toNat).length ≤ rounds := by
              rw [List.length_drop]
              omega
            obtain ⟨part, hpart, hqueued, hwhole⟩ :=
              @ih (kcp.push (rest.take maxSendSize.toNat)) _ hleft
            have hsplit := List.take_append_drop maxSendSize.toNat rest
            rw [Kcp.send_of_taken hresult]
            refine ⟨rest.take maxSendSize.toNat ++ part, ?_, ?_, ?_⟩
            · conv_rhs => rw [← hsplit]
              exact (List.prefix_append_right_inj _).mpr hpart
            · rw [← List.append_assoc]
              exact hqueued
            · rw [Scripted.takes_succ hresult (rest.take maxSendSize.toNat), ← List.length_drop,
                ← hwhole]
              constructor
              · intro hall
                exact List.append_cancel_left (hall.trans hsplit.symm)
              · rintro rfl
                exact hsplit
        | failed part =>
            rw [Kcp.send_of_failed hresult]
            refine ⟨(rest.take maxSendSize.toNat).dropLast.take part, ?_, rfl,
              iff_of_false (part_ne_of_failed hrest part) ?_⟩
            · exact (List.take_prefix _ _).trans
                ((List.dropLast_prefix _).trans (List.take_prefix _ _))
            · intro htakes
              have hfirst := htakes 0 (Nat.zero_lt_succ _)
              rw [Nat.add_zero, hresult] at hfirst
              cases hfirst

/-- An `int` holds no size from the sign bit on. -/
theorem toNat_toInt_lt (size : ℕ) : (toInt size).toNat < 2 ^ 31 := by
  have hlt : toInt size < (2 ^ 32 + 1) / 2 := Int.bmod_lt (by decide)
  omega

/-- A call queues a part of the frame, and all of it exactly if its size fits in an `int` and
the stream takes each piece. -/
theorem queued_sendChunk (rawPayload : List UInt8) (kcp : Scripted) :
    ∃ part, part <+: frame rawPayload ∧
      (Kcp.scripted.sendChunk rawPayload kcp).queued = kcp.queued ++ part ∧
      (part = frame rawPayload ↔
        Sizable rawPayload ∧ kcp.Takes (pieces (frame rawPayload).length)) := by
  have hlength := length_frame rawPayload
  have hbound := toNat_toInt_lt (frame rawPayload).length
  have hsizable : Sizable rawPayload → (toInt (frame rawPayload).length).toNat =
      (frame rawPayload).length := by
    intro sizable
    rw [toInt_length_frame sizable, Int.toNat_natCast]
  rw [Kcp.sendChunk]
  generalize (toInt (frame rawPayload).length).toNat = totalSize at hbound hsizable
  obtain ⟨part, hpart, hqueued, hwhole⟩ := @queued_sendLoop kcp
    ((frame rawPayload).take totalSize) totalSize (List.length_take_le _ _)
  refine ⟨part, hpart.trans (List.take_prefix _ _), hqueued, ?_⟩
  constructor
  · rintro rfl
    have hle := hpart.length_le
    rw [List.length_take] at hle
    have sizable : Sizable rawPayload := by
      rw [Sizable]
      omega
    rw [hsizable sizable, List.take_length] at hwhole
    exact ⟨sizable, hwhole.mp rfl⟩
  · rintro ⟨sizable, htakes⟩
    rw [hsizable sizable, List.take_length] at hwhole
    exact hwhole.mpr htakes

end Loop

/-! ## The end of a chunk task -/

/-- A session and one of its streams. -/
structure Outgoing where
  session : Endpoint
  stream : Scripted

namespace Outgoing

variable (P : Platform)

/-- The end of a chunk task: the call of `sendChunk`, unless it throws before it locks the
stream, and the count. -/
def finishTask (job : SendJob) (wireBuffer : List UInt8) (ok : Bool) (s : Outgoing) :
    Option Outgoing :=
  (Endpoint.sendChunkTask P job (.send wireBuffer) ok s.session).bind fun (pc, w) =>
    match pc with
    | .count =>
      (Endpoint.sendChunkTask P job .count ok w).map fun (_, w) =>
        ⟨w, Kcp.scripted.sendChunk wireBuffer s.stream⟩
    | _ => some ⟨w, s.stream⟩

/-- A call leaves whole frames behind it, so that what is sent later is taken off exactly, and
its chunk is counted only if its frame was queued. -/
structure AllOrNothing (earlier : List (List UInt8)) (wireBuffer : List UInt8)
    (s s' : Outgoing) : Prop where
  framed : ∃ payloads, (payloads = earlier ∨ payloads = earlier ++ [wireBuffer]) ∧
    s'.stream.queued = payloads.flatMap frame ∧
    ∀ events l, (Link.carrying s'.stream.queued payloads).RunUnder
      (fun _ event => Link.Accepting event) events l → Link.Exact l
  counted : s'.session.chunksSent ≠ s.session.chunksSent →
    s'.stream.queued = s.stream.queued ++ frame wireBuffer

variable {P}

/-- What the end of a chunk task does. -/
theorem finishTask_eq (job : SendJob) (wireBuffer : List UInt8) (ok : Bool) (s : Outgoing) :
    ∃ s', finishTask P job wireBuffer ok s = some s' ∧
      (if ok then
        s'.session.chunksSent = s.session.chunksSent + 1 ∧
          s'.stream = Kcp.scripted.sendChunk wireBuffer s.stream
      else s'.session.chunksSent = s.session.chunksSent ∧ s'.stream = s.stream) := by
  cases ok with
  | true =>
      have hfinish : finishTask P job wireBuffer true s =
          some ⟨{ s.session.sendChunk wireBuffer (job.chunkId % 4) with
              chunksSent := s.session.chunksSent + 1 },
            Kcp.scripted.sendChunk wireBuffer s.stream⟩ := by
        simp only [finishTask, Endpoint.sendChunkTask, if_true, Option.bind_some, Option.map_some,
          Endpoint.sendChunk]
      refine ⟨_, hfinish, ?_⟩
      rw [if_pos rfl]
      dsimp only
      exact ⟨rfl, rfl⟩
  | false =>
      refine ⟨_, rfl, ?_⟩
      rw [if_neg (by rintro ⟨⟩)]
      exact ⟨rfl, rfl⟩

/-- Whatever the payload and the results of `ikcp_send`, the end of a chunk task is all or
nothing if and only if it throws before it hands anything over, or the size of the frame fits
in an `int` and the stream takes each piece. -/
theorem allOrNothing_iff {earlier : List (List UInt8)} {s : Outgoing}
    (sizable : ∀ p ∈ earlier, Sizable p) (before : s.stream.queued = earlier.flatMap frame)
    (job : SendJob) (wireBuffer : List UInt8) (ok : Bool) :
    ∃ s', finishTask P job wireBuffer ok s = some s' ∧
      (AllOrNothing earlier wireBuffer s s' ↔
        (ok = true →
          Sizable wireBuffer ∧ s.stream.Takes (pieces (frame wireBuffer).length))) := by
  obtain ⟨s', hfinish, heffect⟩ := @finishTask_eq P job wireBuffer ok s
  refine ⟨s', hfinish, ?_⟩
  cases ok with
  | false =>
      obtain ⟨hsame, hstream⟩ := heffect
      refine iff_of_true ⟨⟨earlier, .inl rfl, by rw [hstream, before], ?_⟩, fun hne => ?_⟩
        (by rintro ⟨⟩)
      · intro events l run
        exact Link.exact_of_carrying sizable (by rw [hstream, before]) run
      · exact (hne hsame).elim
  | true =>
      obtain ⟨hcount, hstream⟩ := heffect
      obtain ⟨part, -, hqueued, hwhole⟩ := queued_sendChunk wireBuffer s.stream
      rw [forall_prop_of_true rfl, ← hwhole]
      constructor
      · intro hall
        have hmoved : s'.session.chunksSent ≠ s.session.chunksSent := by
          rw [hcount]
          simp
        have hframe := hall.counted hmoved
        rw [hstream, hqueued] at hframe
        exact List.append_cancel_left hframe
      · rintro rfl
        have hpayloads : s'.stream.queued = (earlier ++ [wireBuffer]).flatMap frame := by
          rw [hstream, hqueued, before, List.flatMap_append, List.flatMap_singleton]
        have hvalid : ∀ p ∈ earlier ++ [wireBuffer], Sizable p :=
          List.forall_mem_append.mpr ⟨sizable, List.forall_mem_singleton.mpr (hwhole.mp rfl).1⟩
        refine ⟨⟨_, .inr rfl, hpayloads, fun events l run => ?_⟩, fun _ => ?_⟩
        · exact Link.exact_of_carrying hvalid hpayloads run
        · rw [hstream, hqueued]

/-- The task of the one chunk of a file with the byte `A`, on a stream with some script. -/
def lastTask (script : ℕ → SendResult) : Outgoing :=
  ⟨KnownAnswers.sender 65, { script := script }⟩

/-- The job of that task. -/
def lastJob : SendJob :=
  (SourceFile.mk [65] .NONE).job 2 0

theorem allOrNothing_of_taken :
    ∃ s', finishTask KnownAnswers.platform lastJob KnownAnswers.chunkMessage true
        (lastTask fun _ => .taken) = some s' ∧
      AllOrNothing [] KnownAnswers.chunkMessage (lastTask fun _ => .taken) s' := by
  obtain ⟨s', hfinish, hiff⟩ := @allOrNothing_iff KnownAnswers.platform []
    (lastTask fun _ => .taken) (by rintro _ ⟨⟩) rfl lastJob KnownAnswers.chunkMessage true
  exact ⟨s', hfinish, hiff.mpr fun _ => ⟨by decide, fun _ _ => rfl⟩⟩

/-- The second of two pieces fails, and the chunk is counted. -/
theorem not_allOrNothing_of_secondPiece :
    ∃ s', finishTask KnownAnswers.platform lastJob (List.replicate 131069 0) true
        (lastTask fun i => if i = 1 then .failed 0 else .taken) = some s' ∧
      ¬ AllOrNothing [] (List.replicate 131069 0)
        (lastTask fun i => if i = 1 then .failed 0 else .taken) s' := by
  obtain ⟨s', hfinish, hcount, hstream⟩ := @finishTask_eq KnownAnswers.platform lastJob
    (List.replicate 131069 0) true (lastTask fun i => if i = 1 then .failed 0 else .taken)
  refine ⟨s', hfinish, fun hall => ?_⟩
  obtain ⟨part, -, hqueued, hwhole⟩ := queued_sendChunk (List.replicate 131069 0)
    (lastTask fun i => if i = 1 then .failed 0 else .taken).stream
  have hframe := hall.counted (by rw [hcount]; simp)
  rw [hstream, hqueued] at hframe
  obtain ⟨-, htakes⟩ := hwhole.mp (List.append_cancel_left hframe)
  rw [length_frame, List.length_replicate] at htakes
  have hsecond := htakes 1 (by decide)
  simp [lastTask] at hsecond

end Outgoing

end Sxaint.Net
