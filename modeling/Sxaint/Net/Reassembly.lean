/-
# Reassembly of any bytes

What the network thread takes off a stream that need not come from `sendChunk`. The size in
front of the buffer is whatever the other side wrote there. The comparison with the length of
the buffer adds four to it in 32 bits, the copy and the removal that follow do not, so a round
of the loop is right exactly if that sum does not wrap or the frame is there anyway. Then the
loop loses no byte and ends after every read.
-/

import Sxaint.Machine.Purge
import Sxaint.Net.Frames

namespace Sxaint.Net

open Transition

/-- The number in front of a buffer. -/
def announcedLength (streamBuffer : List UInt8) : ℕ :=
  LittleEndian.decode (streamBuffer.take 4)

/-- The buffer begins with a whole frame. -/
def HasFrame (streamBuffer : List UInt8) : Prop :=
  4 ≤ streamBuffer.length ∧ 4 + announcedLength streamBuffer ≤ streamBuffer.length

instance (streamBuffer : List UInt8) : Decidable (HasFrame streamBuffer) :=
  inferInstanceAs (Decidable (_ ∧ _))

/-- The size of the first frame fits in 32 bits, or the frame is there. -/
def Countable (streamBuffer : List UInt8) : Prop :=
  4 ≤ streamBuffer.length →
    4 + announcedLength streamBuffer < 2 ^ 32 ∨
      4 + announcedLength streamBuffer ≤ streamBuffer.length

instance (streamBuffer : List UInt8) : Decidable (Countable streamBuffer) :=
  inferInstanceAs (Decidable (_ → _ ∨ _))

theorem announcedLength_lt (streamBuffer : List UInt8) : announcedLength streamBuffer < 2 ^ 32 := by
  have hlt := LittleEndian.decode_lt (streamBuffer.take 4)
  have hpow : 256 ^ (streamBuffer.take 4).length ≤ 256 ^ 4 :=
    Nat.pow_le_pow_right (by decide) (List.length_take_le _ _)
  have hsame : 256 ^ 4 = 2 ^ 32 := by decide
  rw [announcedLength]
  omega

/-- The number is read as it was sent. -/
theorem toNat_announcedLength (streamBuffer : List UInt8) :
    (UInt32.ofNat (announcedLength streamBuffer)).toNat = announcedLength streamBuffer := by
  rw [UInt32.toNat_ofNat']
  exact Nat.mod_eq_of_lt (announcedLength_lt streamBuffer)

/-- One round of the loop, with the number as it was sent. -/
theorem parse_eq (streamBuffer : List UInt8) :
    parse streamBuffer =
      if 4 ≤ streamBuffer.length then
        if (4 + announcedLength streamBuffer) % 2 ^ 32 ≤ streamBuffer.length then
          if streamBuffer.length < 4 + announcedLength streamBuffer then .overrun
          else
            .frame (Buffer.block streamBuffer 4 (announcedLength streamBuffer))
              (streamBuffer.drop (4 + announcedLength streamBuffer))
        else .more
      else .more := by
  have hsum : (4 + UInt32.ofNat (announcedLength streamBuffer)).toNat =
      (4 + announcedLength streamBuffer) % 2 ^ 32 := by
    rw [UInt32.toNat_add, toNat_announcedLength]
    rfl
  rw [parse]
  dsimp only
  rw [← announcedLength, hsum, toNat_announcedLength]

/-- Without a wrap, a round takes the first frame exactly if it is there. -/
theorem parse_of_countable {streamBuffer : List UInt8} (countable : Countable streamBuffer) :
    parse streamBuffer =
      if HasFrame streamBuffer then
        .frame (Buffer.block streamBuffer 4 (announcedLength streamBuffer))
          (streamBuffer.drop (4 + announcedLength streamBuffer))
      else .more := by
  rw [parse_eq]
  by_cases hfour : 4 ≤ streamBuffer.length
  · rw [if_pos hfour]
    by_cases hwhole : 4 + announcedLength streamBuffer ≤ streamBuffer.length
    · rw [if_pos ((Nat.mod_le _ _).trans hwhole), if_neg hwhole.not_gt, if_pos ⟨hfour, hwhole⟩]
    · have hfits := (countable hfour).resolve_right hwhole
      have hnone : ¬ HasFrame streamBuffer := fun h => hwhole h.2
      rw [Nat.mod_eq_of_lt hfits, if_neg hwhole, if_neg hnone]
  · have hnone : ¬ HasFrame streamBuffer := fun h => hfour h.1
    rw [if_neg hfour, if_neg hnone]

/-- With a wrap, it copies from beyond the end of the buffer. -/
theorem parse_of_uncountable {streamBuffer : List UInt8}
    (uncountable : ¬ Countable streamBuffer) : parse streamBuffer = .overrun := by
  rw [Countable, Classical.not_imp, not_or] at uncountable
  obtain ⟨hfour, hwraps, hpart⟩ := uncountable
  have hlt := announcedLength_lt streamBuffer
  have hwrapped : (4 + announcedLength streamBuffer) % 2 ^ 32 ≤ streamBuffer.length := by omega
  rw [parse_eq, if_pos hfour, if_pos hwrapped, if_pos (not_le.mp hpart)]

namespace Link

/-- The machine of a stream that was given any bytes. -/
def hostile (bytes : List UInt8) : Machine Link LinkEvent where
  init := { accepted := bytes }
  step := step

/-- A round of the loop takes the first frame off the buffer if it is there, and leaves the
loop if it is not. -/
structure Round (s s' : Link) : Prop where
  inside : s'.fault = false
  emits : HasFrame s.streamBuffer →
    s'.received =
        s.received ++ [Buffer.block s.streamBuffer 4 (announcedLength s.streamBuffer)] ∧
      s'.streamBuffer = s.streamBuffer.drop (4 + announcedLength s.streamBuffer) ∧
      s'.net = .parsing
  leaves : ¬ HasFrame s.streamBuffer →
    s'.received = s.received ∧ s'.streamBuffer = s.streamBuffer ∧ s'.net = .reading

/-- What the threads that send leave as it is. -/
structure ReaderFrame (s v : Link) : Prop where
  fault : v.fault = s.fault
  delivered : v.delivered = s.delivered
  streamBuffer : v.streamBuffer = s.streamBuffer
  net : v.net = s.net
  received : v.received = s.received
  accepted : s.accepted <+: v.accepted

/-- The steps, by what they mean to the network thread. -/
inductive ReaderStep (s : Link) : LinkEvent → Link → Prop
  | other {event : LinkEvent} {v : Link} (frame : ReaderFrame s v)
      (unread : ∀ size, event ≠ .recv size) (unparsed : event ≠ .parse) : ReaderStep s event v
  | recv {size : ℕ} (idle : s.net = .reading) (inside : s.delivered + size ≤ s.accepted.length) :
      ReaderStep s (.recv size)
        { s with
          streamBuffer := s.streamBuffer ++ Buffer.block s.accepted s.delivered size
          delivered := s.delivered + size
          net := .parsing }
  | parse (looping : s.net = .parsing) : ReaderStep s .parse s.parseStep

theorem readerFrame_of_sendChunkStep {index : ℕ} {call : SendChunkCall} {ok : Bool} {s v : Link}
    {next : SendChunkPc} (taken : sendChunkStep index call ok s = some (next, v)) :
    ReaderFrame s v := by
  rw [sendChunkStep] at taken
  dsimp only at taken
  split at taken
  · split at taken
    · cases taken
      exact ⟨rfl, rfl, rfl, rfl, rfl, List.prefix_refl _⟩
    · cases taken
  · split at taken
    · split at taken
      · cases taken
        exact ⟨rfl, rfl, rfl, rfl, rfl, List.prefix_append _ _⟩
      · cases taken
        exact ⟨rfl, rfl, rfl, rfl, rfl, List.prefix_refl _⟩
    · cases taken
      exact ⟨rfl, rfl, rfl, rfl, rfl, List.prefix_refl _⟩
  · cases taken
    exact ⟨rfl, rfl, rfl, rfl, rfl, List.prefix_refl _⟩
  · cases taken

theorem readerStep_of_step {event : LinkEvent} {s s' : Link} (taken : step event s = some s') :
    s.fault = false ∧ ReaderStep s event s' := by
  unfold step at taken
  split at taken
  · cases taken
  · rename_i hlive
    refine ⟨Bool.eq_false_iff.mpr hlive, ?_⟩
    cases event with
    | call rawPayload =>
        cases taken
        exact .other ⟨rfl, rfl, rfl, rfl, rfl, List.prefix_refl _⟩ (by rintro _ ⟨⟩) (by rintro ⟨⟩)
    | sendChunk index ok =>
        dsimp only at taken
        split at taken
        · cases taken
        · obtain ⟨⟨next, v⟩, htaken, rfl⟩ := Option.map_eq_some_iff.mp taken
          have hframe := readerFrame_of_sendChunkStep htaken
          exact .other ⟨hframe.fault, hframe.delivered, hframe.streamBuffer, hframe.net,
            hframe.received, hframe.accepted⟩ (by rintro _ ⟨⟩) (by rintro ⟨⟩)
    | recv size =>
        rw [Option.ite_none_right_eq_some, Option.some_inj] at taken
        obtain ⟨⟨hidle, -, hinside⟩, rfl⟩ := taken
        exact .recv hidle hinside
    | parse =>
        rw [Option.ite_none_right_eq_some, Option.some_inj] at taken
        obtain ⟨hlooping, rfl⟩ := taken
        exact .parse hlooping

/-- A round is right exactly if the size of the frame does not wrap, or the frame is there. -/
theorem round_iff {s s' : Link} (taken : step .parse s = some s') :
    Round s s' ↔ Countable s.streamBuffer := by
  obtain ⟨hlive, hstep⟩ := readerStep_of_step taken
  cases hstep with
  | other _ _ unparsed => exact (unparsed rfl).elim
  | parse looping =>
      rw [parseStep]
      constructor
      · intro hround
        by_contra huncountable
        rw [parse_of_uncountable huncountable] at hround
        cases hround.inside
      · intro hcountable
        rw [parse_of_countable hcountable]
        by_cases hframe : HasFrame s.streamBuffer
        · rw [if_pos hframe]
          exact ⟨hlive, fun _ => ⟨rfl, rfl, looping⟩, fun hnone => (hnone hframe).elim⟩
        · rw [if_neg hframe]
          exact ⟨hlive, fun h => (hframe h).elim, fun _ => ⟨rfl, rfl, rfl⟩⟩

/-! ## In every run -/

section Runs

variable {bytes : List UInt8} {events before after : List LinkEvent} {s m : Link}

/-- What a step makes of the buffer, if it is a round of the loop. -/
def InRound (s : Link) (event : LinkEvent) (s' : Link) : Prop :=
  event = .parse → Round s s'

/-- The buffer is fit for the step, if it is a round of the loop. -/
def Counted (s : Link) (event : LinkEvent) : Prop :=
  event = .parse → Countable s.streamBuffer

instance (s : Link) (event : LinkEvent) : Decidable (Counted s event) :=
  inferInstanceAs (Decidable (_ → _))

/-- The bytes read are those of the frames taken, and those of the buffer. -/
structure Split (s : Link) : Prop where
  bound : s.delivered ≤ s.accepted.length
  whole : s.accepted.take s.delivered = s.received.flatMap frame ++ s.streamBuffer

/-- A payload that was taken off with its size in front is what was there. -/
theorem frame_block {streamBuffer : List UInt8} (whole : HasFrame streamBuffer) :
    frame (Buffer.block streamBuffer 4 (announcedLength streamBuffer)) =
      streamBuffer.take (4 + announcedLength streamBuffer) := by
  have hlength := Buffer.length_block_of_le whole.2
  have hfour : (streamBuffer.take 4).length = 4 := List.length_take_of_le whole.1
  have hfront : LittleEndian.encode 4 (announcedLength streamBuffer) = streamBuffer.take 4 := by
    have hencode := LittleEndian.encode_decode (streamBuffer.take 4)
    rwa [hfour] at hencode
  rw [frame, hlength, toNat_announcedLength, hfront, Buffer.block, ← List.take_add]

/-- A round leaves what was read as it is. -/
theorem parseStep_reads (s : Link) :
    s.parseStep.accepted = s.accepted ∧ s.parseStep.delivered = s.delivered := by
  rw [parseStep]
  split
  · exact ⟨rfl, rfl⟩
  · exact ⟨rfl, rfl⟩
  · exact ⟨rfl, rfl⟩

theorem split_step {event : LinkEvent} {s' : Link} (split : Split s)
    (taken : step event s = some s') (round : InRound s event s') : Split s' := by
  obtain ⟨-, hstep⟩ := readerStep_of_step taken
  cases hstep with
  | other frame _ _ =>
      have hbound := split.bound.trans frame.accepted.length_le
      obtain ⟨more, hmore⟩ := frame.accepted
      constructor
      · rw [frame.delivered]
        exact hbound
      · rw [frame.delivered, frame.received, frame.streamBuffer, ← hmore,
          List.take_append_of_le_length split.bound, split.whole]
  | recv idle inside =>
      refine ⟨inside, ?_⟩
      show s.accepted.take (s.delivered + _) = s.received.flatMap frame ++ (s.streamBuffer ++ _)
      rw [List.take_add, split.whole, List.append_assoc, Buffer.block]
  | parse looping =>
      have hround := round rfl
      obtain ⟨haccepted, hdelivered⟩ := parseStep_reads s
      refine ⟨by rw [haccepted, hdelivered]; exact split.bound, ?_⟩
      rw [haccepted, hdelivered, split.whole]
      by_cases hframe : HasFrame s.streamBuffer
      · obtain ⟨hreceived, hbuffer, -⟩ := hround.emits hframe
        rw [hreceived, hbuffer, List.flatMap_append, List.flatMap_singleton, frame_block hframe,
          List.append_assoc, List.take_append_drop]
      · obtain ⟨hreceived, hbuffer, -⟩ := hround.leaves hframe
        rw [hreceived, hbuffer]

/-- How far the loop is since a read: each round took four bytes at least, but for the one
that left the loop. -/
def Looped (m : Link) (rounds : ℕ) (s : Link) : Prop :=
  s.net = .parsing ∧ 4 * rounds + s.streamBuffer.length ≤ m.streamBuffer.length ∨
    s.net = .reading ∧ 4 * rounds + s.streamBuffer.length ≤ m.streamBuffer.length + 4

theorem looped_step {event : LinkEvent} {s' : Link} {rounds : ℕ} (looped : Looped m rounds s)
    (taken : step event s = some s') (round : InRound s event s')
    (unread : ∀ size, event ≠ .recv size) :
    Looped m (rounds + [event].count .parse) s' := by
  obtain ⟨-, hstep⟩ := readerStep_of_step taken
  cases hstep with
  | other frame _ unparsed =>
      rw [List.count_singleton, if_neg (by simpa using unparsed), Nat.add_zero, Looped,
        frame.net, frame.streamBuffer]
      exact looped
  | recv _ _ => exact (unread _ rfl).elim
  | parse looping =>
      have hround := round rfl
      rw [List.count_singleton_self]
      rcases looped with ⟨-, hbound⟩ | ⟨hreading, -⟩
      · by_cases hframe : HasFrame s.streamBuffer
        · obtain ⟨-, hbuffer, hnet⟩ := hround.emits hframe
          have hwhole := hframe.2
          refine .inl ⟨hnet, ?_⟩
          rw [hbuffer, List.length_drop]
          omega
        · obtain ⟨-, hbuffer, hnet⟩ := hround.leaves hframe
          refine .inr ⟨hnet, ?_⟩
          rw [hbuffer]
          omega
      · rw [hreading] at looping
        cases looping

/-- All rounds of a run are right. -/
abbrev Rounds (bytes : List UInt8) : List LinkEvent → Link → Prop :=
  (hostile bytes).RunUnder ((hostile bytes).Keeps InRound)

/-- Without a further read, the loop goes round once for every four bytes, and once more. -/
theorem looped_run (reached : (hostile bytes).Run before m)
    (rounds : Rounds bytes (before ++ after) s) (unread : ∀ size, .recv size ∉ after) :
    Looped m (after.count .parse) s := by
  induction after using List.reverseRecOn generalizing s with
  | nil =>
      rw [List.append_nil] at rounds
      obtain rfl := rounds.unique reached
      rw [Looped, List.count_nil]
      cases s.net with
      | parsing => exact .inl ⟨rfl, by omega⟩
      | reading => exact .inr ⟨rfl, by omega⟩
  | append_singleton after event ih =>
      rw [← List.append_assoc] at rounds
      obtain ⟨u, hprior, hround, htaken⟩ := Machine.runUnder_concat_iff.mp rounds
      have hlooped := ih hprior fun size hmem => unread size (List.mem_append_left _ hmem)
      rw [List.count_append]
      apply looped_step hlooped htaken (hround _ htaken)
      rintro size rfl
      exact unread size (List.mem_append_right _ List.mem_cons_self)

/-- A run in which the network thread takes exactly the frames off the stream. -/
structure Reassembled (bytes : List UInt8) (events : List LinkEvent) (s : Link) : Prop where
  rounds : Rounds bytes events s
  inside : s.fault = false
  split : Split s
  /-- The loop goes on until it ends, and it ends before the next read. -/
  goesOn : s.net = .parsing → (step .parse s).isSome
  ends : ∀ before after m, events = before ++ after → (hostile bytes).Run before m →
    (∀ size, .recv size ∉ after) → 4 * after.count .parse ≤ m.streamBuffer.length + 4

theorem reassembled_of_rounds (rounds : Rounds bytes events s) : Reassembled bytes events s := by
  have hinside : s.fault = false := by
    induction rounds with
    | start => rfl
    | snoc prior round taken ih =>
        obtain ⟨hlive, hstep⟩ := readerStep_of_step taken
        cases hstep with
        | other frame _ _ => exact frame.fault.trans hlive
        | recv _ _ => exact hlive
        | parse _ => exact (round _ taken rfl).inside
  have hsplit : Split s := by
    apply Machine.RunUnder.invariant _ _ rounds
    · exact ⟨Nat.zero_le _, rfl⟩
    · intro u event v hsplit round taken
      exact split_step hsplit taken (round _ taken)
  refine ⟨rounds, hinside, hsplit, fun hnet => ?_, ?_⟩
  · simp [step, hinside, hnet]
  · rintro before after m rfl hreached unread
    rcases looped_run hreached rounds unread with ⟨-, hbound⟩ | ⟨-, hbound⟩
    · omega
    · omega

/-- Whatever the bytes and however they are cut into reads, the network thread takes exactly
the frames off the stream if and only if, in each round, the size in front of the buffer does
not wrap when four is added to it, or the frame is there. -/
theorem reassembled_iff :
    Reassembled bytes events s ↔ (hostile bytes).RunUnder Counted events s := by
  constructor
  · intro reassembled
    apply reassembled.rounds.refine
    rintro labels u event v - hround htaken rfl
    exact (round_iff htaken).mp (hround _ htaken rfl)
  · intro counted
    apply reassembled_of_rounds
    apply counted.refine
    rintro labels u event v - hcounted htaken _ hnext rfl
    exact (round_iff hnext).mpr (hcounted rfl)

end Runs

/-- The size `2 ^ 32 - 4` arrives alone, and a frame is copied from behind it. -/
def wrapped : List LinkEvent :=
  [.recv 4, .parse]

theorem not_reassembled_of_wrapped :
    ¬ ∀ (bytes : List UInt8) (events : List LinkEvent) (s : Link),
      (hostile bytes).Run events s → Reassembled bytes events s := by
  intro reassembled
  have hrun : (hostile [252, 255, 255, 255]).Run wrapped
      ((hostile [252, 255, 255, 255]).reached wrapped) :=
    Machine.run_reached (by decide +kernel)
  have hfault : ((hostile [252, 255, 255, 255]).reached wrapped).fault = true := by
    decide +kernel
  rw [(reassembled _ _ _ hrun).inside] at hfault
  cases hfault

end Link

end Sxaint.Net
