/-
# Exact framing

What a transport takes off a stream are the payloads that were given to `sendChunk` on the
other side, in the order in which the calls took the mutex of the stream, however the calls
interleave and however the stream is cut into reads. The two sides meet in the stream of
frames: the calls extend it by one frame after another, and the network thread reads along
it.
-/

import Mathlib.Data.List.Nodup
import Sxaint.Net.Transport

namespace Sxaint.Net

open Transition

/-- The number in front of a frame is the size of its payload. -/
theorem decode_take_frame {rawPayload : List UInt8} (sizable : Sizable rawPayload)
    (rest : List UInt8) :
    (UInt32.ofNat (LittleEndian.decode ((frame rawPayload ++ rest).take 4))).toNat =
      rawPayload.length := by
  rw [Sizable] at sizable
  have hsize : (UInt32.ofNat rawPayload.length).toNat = rawPayload.length := by
    rw [UInt32.toNat_ofNat']
    exact Nat.mod_eq_of_lt (by omega)
  have htake : (frame rawPayload ++ rest).take 4 =
      LittleEndian.encode 4 (UInt32.ofNat rawPayload.length).toNat := by
    rw [frame, List.append_assoc]
    exact List.take_left' (LittleEndian.length_encode _ _)
  rw [htake, LittleEndian.ofNat_decode_encode_uint32, hsize]

/-- The size of a sizable frame does not wrap. -/
theorem toNat_four_add {frameLength : UInt32} (fits : frameLength.toNat + 4 < 2 ^ 31) :
    (4 + frameLength).toNat = 4 + frameLength.toNat := by
  rw [UInt32.toNat_add]
  exact Nat.mod_eq_of_lt (by simp; omega)

/-- A frame at the front of the buffer is taken as it is. -/
theorem parse_frame {rawPayload : List UInt8} (sizable : Sizable rawPayload)
    (rest : List UInt8) : parse (frame rawPayload ++ rest) = .frame rawPayload rest := by
  have hlength := decode_take_frame sizable rest
  rw [Sizable] at sizable
  have hsum := @toNat_four_add
    (UInt32.ofNat (LittleEndian.decode ((frame rawPayload ++ rest).take 4))) (by omega)
  have hsize : (frame rawPayload ++ rest).length = rawPayload.length + 4 + rest.length := by
    rw [List.length_append, length_frame]
  have hprefix : (LittleEndian.encode 4 (UInt32.ofNat rawPayload.length).toNat).length = 4 :=
    LittleEndian.length_encode _ _
  rw [parse, if_pos (by omega)]
  dsimp only
  rw [if_pos (by omega), if_neg (by omega), hlength]
  congr 1
  · rw [frame, List.append_assoc, Buffer.block_append_of_le hprefix.le, hprefix, Nat.sub_self,
      Buffer.block_append_front rfl]
  · rw [Nat.add_comm, ← length_frame, List.drop_left]

/-- A part of a frame is left in the buffer. -/
theorem parse_part {rawPayload front : List UInt8} (sizable : Sizable rawPayload)
    (part : front <+: frame rawPayload) (ne : front ≠ frame rawPayload) : parse front = .more := by
  have hlt : front.length < rawPayload.length + 4 := by
    rw [← length_frame]
    apply lt_of_le_of_ne part.length_le
    intro hlength
    exact ne (part.eq_of_length hlength)
  by_cases hfour : front.length ≥ 4
  · -- the four bytes are there, so the number is the size of the whole frame
    have htake : front.take 4 = (frame rawPayload ++ []).take 4 := by
      obtain ⟨back, hback⟩ := part
      rw [List.append_nil, ← hback, List.take_append_of_le_length hfour]
    have hlength := decode_take_frame sizable []
    rw [← htake] at hlength
    rw [Sizable] at sizable
    have hsum := @toNat_four_add (UInt32.ofNat (LittleEndian.decode (front.take 4))) (by omega)
    rw [parse, if_pos hfour]
    dsimp only
    rw [if_neg (by omega)]
  · rw [parse, if_neg hfour]

/-- Frames, as a format of streams. -/
def frameFormat : Framing.Format (List UInt8) UInt8 where
  encode := frame
  next streamBuffer :=
    match parse streamBuffer with
    | .frame finalData rest => some (finalData, rest)
    | _ => none

theorem frameFormat_next (streamBuffer : List UInt8) :
    frameFormat.next streamBuffer =
      match parse streamBuffer with
      | .frame finalData rest => some (finalData, rest)
      | _ => none := rfl

theorem frameFormat_lawful : frameFormat.Lawful Sizable where
  nonempty rawPayload _ := by
    intro hnil
    have hlength := length_frame rawPayload
    rw [show frame rawPayload = [] from hnil] at hlength
    cases hlength
  whole rawPayload sizable rest := by
    have hwhole : parse (frameFormat.encode rawPayload ++ rest) = .frame rawPayload rest :=
      parse_frame sizable rest
    rw [frameFormat_next, hwhole]
  empty := rfl
  short rawPayload sizable front part ne := by
    rw [frameFormat_next, parse_part sizable part ne]

/-- An incomplete frame is left in the buffer. -/
theorem parse_of_incomplete {streamBuffer : List UInt8} {payloads : List (List UInt8)}
    (sizable : ∀ rawPayload ∈ payloads, Sizable rawPayload)
    (incomplete : frameFormat.Incomplete streamBuffer payloads) :
    parse streamBuffer = .more := by
  rcases incomplete with rfl | ⟨rawPayload, rest, rfl, hpart, hne⟩
  · rfl
  · exact parse_part (sizable rawPayload List.mem_cons_self) hpart hne

namespace Link

/-- The payloads of the calls that have taken the mutex, in that order. -/
def payloads (s : Link) : List (List UInt8) :=
  s.order.map Prod.snd

/-- A call holds the mutex of the stream. -/
def Sending (s : Link) (index : ℕ) : Prop :=
  ∃ call, s.calls[index]? = some call ∧ call.pc ≠ .lock ∧ call.pc ≠ .returned

/-- What the stream has been given, by who holds its mutex: all frames, or all but the end
of the last one. -/
def Progress (s : Link) : Option ℕ → Prop
  | none => s.accepted = frameFormat.stream s.payloads
  | some index => ∃ call done, s.calls[index]? = some call ∧
      s.payloads = done ++ [call.rawPayload] ∧
      ((∃ sent, call.pc = .send sent ∧ sent ≤ (frame call.rawPayload).length ∧
          s.accepted = frameFormat.stream done ++ (frame call.rawPayload).take sent) ∨
        call.pc = .flush ∧ s.accepted = frameFormat.stream s.payloads)

/-- The invariant of a stream that accepts all it is given. -/
structure Framed (s : Link) : Prop where
  defined : s.fault = false
  sizable : ∀ call ∈ s.calls, Sizable call.rawPayload
  entered : ∀ entry, entry ∈ s.order ↔ ∃ call, s.calls[entry.1]? = some call ∧
    call.rawPayload = entry.2 ∧ call.pc ≠ .lock
  nodup : (s.order.map Prod.fst).Nodup
  exclusive : Mutex.Exclusive s.kcpMutex s.Sending
  progress : s.Progress s.kcpMutex
  bound : s.delivered ≤ s.accepted.length
  reading : frameFormat.Reading s.payloads (s.accepted.take s.delivered) s.received s.streamBuffer
  between : s.net = .reading →
    ∃ rest, s.payloads = s.received ++ rest ∧ frameFormat.Incomplete s.streamBuffer rest

theorem Framed.sizable_payloads {s : Link} (inv : Framed s) :
    ∀ rawPayload ∈ s.payloads, Sizable rawPayload := by
  intro rawPayload hmem
  obtain ⟨entry, hentry, rfl⟩ := List.mem_map.mp hmem
  obtain ⟨call, hread, hpayload, -⟩ := (inv.entered entry).mp hentry
  rw [← hpayload]
  exact inv.sizable call (List.mem_of_getElem? hread)

/-- The bytes given to the stream are the beginning of the stream of frames. -/
theorem Framed.accepted_prefix {s : Link} (inv : Framed s) :
    s.accepted <+: frameFormat.stream s.payloads := by
  have hprogress := inv.progress
  generalize s.kcpMutex = owner at hprogress
  cases owner with
  | none =>
      rw [show s.accepted = _ from hprogress]
  | some index =>
      obtain ⟨call, done, -, hpayloads, ⟨sent, -, -, haccepted⟩ | ⟨-, haccepted⟩⟩ := hprogress
      · rw [haccepted, hpayloads, Framing.Format.stream_append]
        apply (List.prefix_append_right_inj _).mpr
        rw [Framing.Format.stream_cons, Framing.Format.stream_nil, List.append_nil]
        exact List.take_prefix _ _
      · rw [haccepted]

/-- Who holds the mutex after a step of a call. -/
private theorem sending_set {s v : Link} {index : ℕ} {call : SendChunkCall} {next : SendChunkPc}
    (calls : v.calls = s.calls) {other : ℕ}
    (sending : Sending { v with calls := v.calls.set index { call with pc := next } } other) :
    other = index ∧ next ≠ .lock ∧ next ≠ .returned ∨ other ≠ index ∧ s.Sending other := by
  obtain ⟨found, hread, hpc⟩ := sending
  simp only [calls] at hread
  rcases Pool.getElem?_set_eq_some hread with ⟨rfl, rfl⟩ | ⟨hne, hold⟩
  · exact .inl ⟨rfl, hpc⟩
  · exact .inr ⟨hne, found, hold, hpc⟩

/-- A call takes a step in which it stays past the lock and gives nothing to the stream. -/
private theorem entered_set {s : Link} (inv : Framed s) {index : ℕ} {call : SendChunkCall}
    {next : SendChunkPc} (found : s.calls[index]? = some call) (entered : call.pc ≠ .lock)
    (stays : next ≠ .lock) (entry : ℕ × List UInt8) :
    entry ∈ s.order ↔ ∃ other, (s.calls.set index { call with pc := next })[entry.1]? = some other ∧
      other.rawPayload = entry.2 ∧ other.pc ≠ .lock := by
  obtain ⟨hlt, -⟩ := List.getElem?_eq_some_iff.mp found
  rw [inv.entered entry]
  constructor
  · rintro ⟨other, hread, hpayload, hpc⟩
    by_cases hsame : entry.1 = index
    · rw [hsame] at hread ⊢
      obtain rfl := Option.some.inj (hread.symm.trans found)
      exact ⟨_, List.getElem?_set_self hlt, hpayload, stays⟩
    · exact ⟨other, (List.getElem?_set_ne (Ne.symm hsame)).trans hread, hpayload, hpc⟩
  · rintro ⟨other, hread, hpayload, hpc⟩
    rcases Pool.getElem?_set_eq_some hread with ⟨hsame, rfl⟩ | ⟨-, hold⟩
    · exact ⟨call, hsame ▸ found, hpayload, entered⟩
    · exact ⟨other, hold, hpayload, hpc⟩

/-- A call that holds the mutex is where the progress of the stream says. -/
private theorem progress_of_sending {s : Link} (inv : Framed s) {index : ℕ}
    {call : SendChunkCall} (found : s.calls[index]? = some call) (entered : call.pc ≠ .lock)
    (inside : call.pc ≠ .returned) :
    s.kcpMutex = some index ∧ ∃ done, s.payloads = done ++ [call.rawPayload] ∧
      ((∃ sent, call.pc = .send sent ∧ sent ≤ (frame call.rawPayload).length ∧
          s.accepted = frameFormat.stream done ++ (frame call.rawPayload).take sent) ∨
        call.pc = .flush ∧ s.accepted = frameFormat.stream s.payloads) := by
  have howner := inv.exclusive index ⟨call, found, entered, inside⟩
  have hprogress := inv.progress
  rw [howner] at hprogress
  obtain ⟨holder, done, hread, hrest⟩ := hprogress
  obtain rfl := Option.some.inj (hread.symm.trans found)
  exact ⟨howner, done, hrest⟩

/-- The call of an index takes the free mutex. -/
private theorem framed_lock {s : Link} (inv : Framed s) {index : ℕ} {call : SendChunkCall}
    (found : s.calls[index]? = some call) (waiting : call.pc = .lock)
    (free : s.kcpMutex = none) :
    Framed
      { s with
        calls := s.calls.set index { call with pc := .send 0 }
        kcpMutex := some index
        order := s.order ++ [(index, call.rawPayload)] } := by
  obtain ⟨hlt, -⟩ := List.getElem?_eq_some_iff.mp found
  have hpayloads : Link.payloads
      { s with
        calls := s.calls.set index { call with pc := .send 0 }
        kcpMutex := some index
        order := s.order ++ [(index, call.rawPayload)] } = s.payloads ++ [call.rawPayload] := by
    rw [payloads, List.map_append, payloads, List.map_singleton]
  have hfresh : index ∉ s.order.map Prod.fst := by
    intro hmem
    obtain ⟨entry, hentry, rfl⟩ := List.mem_map.mp hmem
    obtain ⟨other, hread, -, hpc⟩ := (inv.entered entry).mp hentry
    obtain rfl := Option.some.inj (hread.symm.trans found)
    exact hpc waiting
  have hfree := inv.exclusive
  rw [free] at hfree
  have hprogress := inv.progress
  rw [free] at hprogress
  refine ⟨inv.defined, ?_, ?_, ?_, ?_, ?_, inv.bound, ?_, ?_⟩
  · exact Pool.forall_set inv.sizable index
      (show Sizable call.rawPayload from inv.sizable call (List.mem_of_getElem? found))
  · intro entry
    rw [List.mem_append, List.mem_singleton]
    constructor
    · rintro (hold | rfl)
      · obtain ⟨other, hread, hrest⟩ := (inv.entered entry).mp hold
        have hne : entry.1 ≠ index := by
          intro hsame
          exact hfresh (hsame ▸ List.mem_map_of_mem hold)
        exact ⟨other, (List.getElem?_set_ne (Ne.symm hne)).trans hread, hrest⟩
      · exact ⟨_, List.getElem?_set_self hlt, rfl, by rintro ⟨⟩⟩
    · rintro ⟨other, hread, hpayload, hpc⟩
      rcases Pool.getElem?_set_eq_some hread with ⟨hsame, rfl⟩ | ⟨-, hold⟩
      · exact .inr (Prod.ext hsame hpayload.symm)
      · exact .inl ((inv.entered entry).mpr ⟨other, hold, hpayload, hpc⟩)
  · rw [List.map_append]
    apply inv.nodup.append (List.nodup_singleton _)
    rw [List.disjoint_singleton]
    exact hfresh
  · exact Mutex.Moves.enter (fun _ => sending_set rfl) hfree
  · refine ⟨_, s.payloads, List.getElem?_set_self hlt, hpayloads, .inl ⟨0, rfl, Nat.zero_le _, ?_⟩⟩
    rw [List.take_zero, List.append_nil]
    exact hprogress
  · rw [hpayloads]
    exact inv.reading.grow _
  · intro hnet
    obtain ⟨rest, hrest, hincomplete⟩ := inv.between hnet
    rw [hpayloads, hrest, List.append_assoc]
    exact ⟨rest ++ [call.rawPayload], rfl, hincomplete.grow _⟩

/-- The owner of the mutex takes a step in which it may extend what the stream was given. -/
private theorem framed_owner {s : Link} (inv : Framed s) {index : ℕ} {call : SendChunkCall}
    {next : SendChunkPc} {kcpMutex : Option ℕ} {piece : List UInt8}
    (found : s.calls[index]? = some call) (entered : call.pc ≠ .lock) (stays : next ≠ .lock)
    (exclusive : Mutex.Exclusive kcpMutex
      (Sending { s with calls := s.calls.set index { call with pc := next } }))
    (progress : Progress
      { s with
        calls := s.calls.set index { call with pc := next }
        accepted := s.accepted ++ piece } kcpMutex) :
    Framed
      { s with
        calls := s.calls.set index { call with pc := next }
        kcpMutex := kcpMutex
        accepted := s.accepted ++ piece } := by
  refine ⟨inv.defined, ?_, entered_set inv found entered stays, inv.nodup, exclusive, progress, ?_,
    ?_, inv.between⟩
  · exact Pool.forall_set inv.sizable index
      (show Sizable call.rawPayload from inv.sizable call (List.mem_of_getElem? found))
  · rw [List.length_append]
    exact Nat.le_add_right_of_le inv.bound
  · rw [List.take_append_of_le_length inv.bound]
    exact inv.reading

/-- The step of a call, while the stream accepts what it is given. -/
theorem framed_sendChunk {s v : Link} (inv : Framed s) {index : ℕ} {call : SendChunkCall}
    {next : SendChunkPc} (found : s.calls[index]? = some call)
    (taken : sendChunkStep index call true s = some (next, v)) :
    Framed { v with calls := v.calls.set index { call with pc := next } } := by
  have hsizable := inv.sizable call (List.mem_of_getElem? found)
  obtain ⟨hlt, -⟩ := List.getElem?_eq_some_iff.mp found
  cases hpc : call.pc with
  | lock =>
      simp only [sendChunkStep, hpc] at taken
      split at taken
      · rename_i hfree
        cases taken
        exact framed_lock inv found hpc hfree
      · cases taken
  | send sent =>
      have hentered : call.pc ≠ .lock := by rw [hpc]; rintro ⟨⟩
      obtain ⟨howner, done, hpayloads, hwhere⟩ := progress_of_sending inv found hentered
        (by rw [hpc]; rintro ⟨⟩)
      obtain ⟨hsent, haccepted⟩ : sent ≤ (frame call.rawPayload).length ∧
          s.accepted = frameFormat.stream done ++ (frame call.rawPayload).take sent := by
        rcases hwhere with ⟨sent', hsame, hrest⟩ | ⟨hflush, -⟩
        · obtain rfl := SendChunkPc.send.inj (hpc.symm.trans hsame)
          exact hrest
        · rw [hpc] at hflush
          cases hflush
      have hexclusive {next : SendChunkPc} : Mutex.Exclusive s.kcpMutex
          (Sending { s with calls := s.calls.set index { call with pc := next } }) := by
        apply Mutex.Moves.stay (fun _ => sending_set rfl) inv.exclusive
        exact fun _ => ⟨call, found, hentered, by rw [hpc]; rintro ⟨⟩⟩
      simp only [sendChunkStep, hpc, toInt_length_frame hsizable, if_true] at taken
      split at taken
      · rename_i hmore
        cases taken
        have hpos : 0 < maxSendSize := by decide
        have hbound : sent + (min maxSendSize (((frame call.rawPayload).length : ℤ) - sent)).toNat ≤
            (frame call.rawPayload).length := by omega
        refine framed_owner inv found hentered (by rintro ⟨⟩) hexclusive ?_
        rw [howner]
        refine ⟨_, done, List.getElem?_set_self hlt, hpayloads, .inl ⟨_, rfl, hbound, ?_⟩⟩
        rw [haccepted, List.append_assoc, List.take_add, Buffer.block]
      · rename_i hall
        cases taken
        have hwhole : sent = (frame call.rawPayload).length := by omega
        have hsame := @framed_owner s inv index call .flush s.kcpMutex [] found hentered
          (by rintro ⟨⟩) hexclusive
        simp only [List.append_nil] at hsame
        apply hsame
        rw [howner]
        refine ⟨_, done, List.getElem?_set_self hlt, hpayloads, .inr ⟨rfl, ?_⟩⟩
        rw [haccepted, hwhole, List.take_length]
        show _ = frameFormat.stream s.payloads
        rw [hpayloads, Framing.Format.stream_append, Framing.Format.stream_cons,
          Framing.Format.stream_nil, List.append_nil]
        rfl
  | flush =>
      have hentered : call.pc ≠ .lock := by rw [hpc]; rintro ⟨⟩
      obtain ⟨howner, done, hpayloads, hwhere⟩ := progress_of_sending inv found hentered
        (by rw [hpc]; rintro ⟨⟩)
      have haccepted : s.accepted = frameFormat.stream s.payloads := by
        rcases hwhere with ⟨sent, hsend, -⟩ | ⟨-, haccepted⟩
        · rw [hpc] at hsend
          cases hsend
        · exact haccepted
      simp only [sendChunkStep, hpc] at taken
      cases taken
      have hsame := @framed_owner s inv index call .returned none [] found hentered (by rintro ⟨⟩)
      simp only [List.append_nil] at hsame
      apply hsame
      · apply Mutex.Moves.leave (fun _ => sending_set rfl) inv.exclusive
        · exact ⟨call, found, hentered, by rw [hpc]; rintro ⟨⟩⟩
        · exact fun hcritical => hcritical.2 rfl
      · exact haccepted
  | returned =>
      simp only [sendChunkStep, hpc] at taken
      cases taken

/-- A new call of `sendChunk`. -/
theorem framed_call {s : Link} (inv : Framed s) {rawPayload : List UInt8}
    (sizable : Sizable rawPayload) :
    Framed { s with calls := s.calls ++ [{ rawPayload := rawPayload }] } := by
  have hold {index : ℕ} {call : SendChunkCall} (hread : s.calls[index]? = some call) :
      (s.calls ++ [{ rawPayload := rawPayload }])[index]? = some call := by
    obtain ⟨hlt, -⟩ := List.getElem?_eq_some_iff.mp hread
    exact (List.getElem?_append_left hlt).trans hread
  refine ⟨inv.defined, Pool.forall_submit inv.sizable sizable, ?_, inv.nodup, ?_, ?_, inv.bound,
    inv.reading, inv.between⟩
  · intro entry
    rw [inv.entered entry]
    constructor
    · rintro ⟨call, hread, hrest⟩
      exact ⟨call, hold hread, hrest⟩
    · rintro ⟨call, hread, hpayload, hpc⟩
      rcases Pool.getElem?_submit_eq_some hread with hread | ⟨-, rfl⟩
      · exact ⟨call, hread, hpayload, hpc⟩
      · exact (hpc rfl).elim
  · apply inv.exclusive.stay
    rintro index ⟨call, hread, hentered, hinside⟩
    rcases Pool.getElem?_submit_eq_some hread with hread | ⟨-, rfl⟩
    · exact ⟨call, hread, hentered, hinside⟩
    · exact (hentered rfl).elim
  · have hprogress := inv.progress
    show Progress _ s.kcpMutex
    generalize s.kcpMutex = owner at hprogress ⊢
    cases owner with
    | none => exact hprogress
    | some index =>
        obtain ⟨call, done, hread, hrest⟩ := hprogress
        exact ⟨call, done, hold hread, hrest⟩

/-- The network thread reads a piece of the stream. -/
theorem framed_recv {s : Link} (inv : Framed s) {size : ℕ}
    (available : s.delivered + size ≤ s.accepted.length) :
    Framed
      { s with
        streamBuffer := s.streamBuffer ++ Buffer.block s.accepted s.delivered size
        delivered := s.delivered + size
        net := .parsing } := by
  refine ⟨inv.defined, inv.sizable, inv.entered, inv.nodup, inv.exclusive, inv.progress, available,
    ?_, nofun⟩
  have hpiece : s.accepted.take (s.delivered + size) =
      s.accepted.take s.delivered ++ Buffer.block s.accepted s.delivered size := by
    rw [List.take_add, Buffer.block]
  show frameFormat.Reading s.payloads (s.accepted.take (s.delivered + size)) _ _
  rw [hpiece]
  apply inv.reading.feed
  rw [← hpiece]
  exact (List.take_prefix _ _).trans inv.accepted_prefix

/-- What the network thread finds in its buffer: a part of the next frame, or this frame. -/
theorem Framed.parse_cases {s : Link} (inv : Framed s) :
    (parse s.streamBuffer = .more ∧
        ∃ rest, s.payloads = s.received ++ rest ∧ frameFormat.Incomplete s.streamBuffer rest) ∨
      ∃ rawPayload left, s.streamBuffer = frame rawPayload ++ left ∧
        parse s.streamBuffer = .frame rawPayload left ∧
        frameFormat.Reading s.payloads (s.accepted.take s.delivered)
          (s.received ++ [rawPayload]) left := by
  rcases inv.reading.next_cases frameFormat_lawful inv.sizable_payloads with
    ⟨-, rest, hrest, hincomplete⟩ | ⟨rawPayload, left, hsizable, hbuffer, -, hreading⟩
  · refine .inl ⟨?_, rest, hrest, hincomplete⟩
    exact parse_of_incomplete (fun rawPayload hmem => inv.sizable_payloads rawPayload
      (hrest ▸ List.mem_append_right _ hmem)) hincomplete
  · refine .inr ⟨rawPayload, left, hbuffer, ?_, hreading⟩
    rw [hbuffer]
    exact parse_frame hsizable left

/-- The network thread goes round the loop over its buffer: it takes the first frame, or
waits for more. -/
theorem framed_parse {s : Link} (inv : Framed s) : Framed s.parseStep := by
  rcases inv.parse_cases with
    ⟨hmore, rest, hrest, hincomplete⟩ | ⟨rawPayload, left, hbuffer, hframe, hreading⟩
  · rw [parseStep, hmore]
    exact { inv with between := fun _ => ⟨rest, hrest, hincomplete⟩ }
  · rw [parseStep, hframe]
    refine { inv with reading := hreading, between := ?_ }
    intro hnet
    -- between reads there is nothing to take
    obtain ⟨rest, hrest, hincomplete⟩ := inv.between hnet
    rw [parse_of_incomplete (fun rawPayload hmem => inv.sizable_payloads rawPayload
      (hrest ▸ List.mem_append_right _ hmem)) hincomplete] at hframe
    cases hframe

/-- Payloads are sizable and the stream accepts each piece of them. -/
def Accepting : LinkEvent → Prop
  | .call rawPayload => Sizable rawPayload
  | .sendChunk _ ok => ok = true
  | .recv _ => True
  | .parse => True

instance (event : LinkEvent) : Decidable (Accepting event) := by
  cases event <;> rw [Accepting] <;> infer_instance

theorem framed_step {event : LinkEvent} {s s' : Link} (inv : Framed s) (ok : Accepting event)
    (taken : step event s = some s') : Framed s' := by
  have hdefined : ¬s.fault = true := by
    rw [inv.defined]
    exact Bool.false_ne_true
  unfold step at taken
  rw [if_neg hdefined] at taken
  cases event with
  | call rawPayload =>
      cases taken
      exact framed_call inv ok
  | sendChunk index accepted =>
      obtain rfl : accepted = true := ok
      dsimp only at taken
      split at taken
      · cases taken
      · rename_i call hfound
        obtain ⟨⟨next, v⟩, hstep, rfl⟩ := Option.map_eq_some_iff.mp taken
        exact framed_sendChunk inv hfound hstep
  | recv size =>
      dsimp only at taken
      split at taken
      · rename_i hread
        cases taken
        exact framed_recv inv hread.2.2
      · cases taken
  | parse =>
      dsimp only at taken
      split at taken
      · cases taken
        exact framed_parse inv
      · cases taken

theorem framed_run {events : List LinkEvent} {s : Link}
    (run : machine.RunUnder (fun _ event => Accepting event) events s) : Framed s := by
  apply run.invariant (motive := Framed) ?_ fun _ _ _ inv ok taken => framed_step inv ok taken
  exact ⟨rfl, nofun, fun entry => by simp [machine], List.nodup_nil, nofun, rfl, Nat.le_refl _,
    Framing.Format.reading_nil _ _, fun _ => ⟨[], rfl, .inl rfl⟩⟩

/-- The rounds over the buffer, to the one that finds no whole frame in it. -/
inductive Parses : Link → Link → Prop
  | done {s : Link} (reading : s.net = .reading) : Parses s s
  | round {s next last : Link} (taken : step .parse s = some next) (rest : Parses next last) :
      Parses s last

/-- Each round takes a frame off the buffer, so that the rounds come to an end. -/
theorem exists_parses {s : Link} (inv : Framed s) : ∃ last, Parses s last := by
  induction hlength : s.streamBuffer.length using Nat.strong_induction_on generalizing s with
  | _ length ih =>
      subst hlength
      cases hnet : s.net with
      | reading => exact ⟨s, .done hnet⟩
      | parsing =>
          have htaken : step .parse s = some s.parseStep := by
            simp [step, inv.defined, hnet]
          have hnext := framed_parse inv
          rcases inv.parse_cases with ⟨hmore, -⟩ | ⟨rawPayload, left, hbuffer, hframe, -⟩
          · exact ⟨s.parseStep, .round htaken (.done (by rw [parseStep, hmore]))⟩
          · have hshorter : s.parseStep.streamBuffer.length < s.streamBuffer.length := by
              have hfour := length_frame rawPayload
              rw [parseStep, hframe, hbuffer, List.length_append]
              show left.length < (frame rawPayload).length + left.length
              omega
            obtain ⟨last, hlast⟩ := ih _ hshorter hnext rfl
            exact ⟨last, .round htaken hlast⟩

/-- What the rounds keep, and where they end. -/
theorem Parses.kept {s last : Link} (parses : Parses s last) (inv : Framed s) :
    Framed last ∧ last.net = .reading ∧ last.calls = s.calls ∧ last.payloads = s.payloads ∧
      last.accepted = s.accepted ∧ last.delivered = s.delivered := by
  induction parses with
  | done hreading => exact ⟨inv, hreading, rfl, rfl, rfl, rfl⟩
  | @round s next last taken rest ih =>
      obtain rfl : s.parseStep = next := by
        simp only [step, inv.defined, Bool.false_eq_true, if_false] at taken
        split at taken
        · exact Option.some.inj taken
        · cases taken
      obtain ⟨hframed, hreading, hcalls, hpayloads, haccepted, hdelivered⟩ := ih (framed_parse inv)
      have hsame : s.parseStep.calls = s.calls ∧ s.parseStep.payloads = s.payloads ∧
          s.parseStep.accepted = s.accepted ∧ s.parseStep.delivered = s.delivered := by
        rw [parseStep]
        split <;> exact ⟨rfl, rfl, rfl, rfl⟩
      exact ⟨hframed, hreading, hcalls.trans hsame.1, hpayloads.trans hsame.2.1,
        haccepted.trans hsame.2.2.1, hdelivered.trans hsame.2.2.2⟩

/-- The payloads are passed on exactly, in the order in which their calls took the mutex. -/
structure Exact (s : Link) : Prop where
  defined : s.fault = false
  /-- Each call that is past the lock has its place in the order, and one. -/
  order : ∀ index rawPayload, (index, rawPayload) ∈ s.order ↔
    ∃ call, s.calls[index]? = some call ∧ call.rawPayload = rawPayload ∧ call.pc ≠ .lock
  once : (s.order.map Prod.fst).Nodup
  /-- What was passed on so far are the first of the payloads. -/
  received : s.received <+: s.payloads
  /-- Between reads the buffer has what was read of the one payload that comes next. -/
  between : s.net = .reading →
    s.accepted.take s.delivered = s.received.flatMap frame ++ s.streamBuffer ∧
      (s.streamBuffer = [] ∨ ∃ rawPayload rest, s.payloads = s.received ++ rawPayload :: rest ∧
        s.streamBuffer <+: frame rawPayload ∧ s.streamBuffer ≠ frame rawPayload)
  /-- After a read the network thread gets through its buffer. -/
  ends : ∃ last, Parses s last
  /-- Once all calls have returned and all was read, every payload is passed on when it has. -/
  complete : (∀ call ∈ s.calls, call.pc = .returned) → s.delivered = s.accepted.length →
    ∀ last, Parses s last → last.received = s.payloads ∧ last.streamBuffer = []

/-- Between reads, once all calls have returned and all was read, every payload was passed on. -/
private theorem received_of_returned {s : Link} (inv : Framed s)
    (returned : ∀ call ∈ s.calls, call.pc = .returned) (delivered : s.delivered = s.accepted.length)
    (reading : s.net = .reading) : s.received = s.payloads ∧ s.streamBuffer = [] := by
  have hfree : s.kcpMutex = none := by
    have hprogress := inv.progress
    cases howner : s.kcpMutex with
    | none => rfl
    | some index =>
        rw [howner] at hprogress
        obtain ⟨call, done, hread, -, hwhere⟩ := hprogress
        have hpc := returned call (List.mem_of_getElem? hread)
        rcases hwhere with ⟨_, hsend, -⟩ | ⟨hflush, -⟩
        · rw [hpc] at hsend
          cases hsend
        · rw [hpc] at hflush
          cases hflush
  have hprogress := inv.progress
  rw [hfree] at hprogress
  apply inv.reading.eq_of_whole frameFormat_lawful inv.sizable_payloads ?_ (inv.between reading)
  rw [delivered, List.take_length]
  exact hprogress

theorem exact_of_framed {s : Link} (inv : Framed s) : Exact s := by
  refine ⟨inv.defined, fun index rawPayload => inv.entered (index, rawPayload), inv.nodup,
    inv.reading.front, fun hnet => ⟨inv.reading.split, ?_⟩, exists_parses inv, ?_⟩
  · obtain ⟨rest, hrest, hnil | ⟨rawPayload, tail, rfl, hpart, hne⟩⟩ := inv.between hnet
    · exact .inl hnil
    · exact .inr ⟨rawPayload, tail, hrest, hpart, hne⟩
  · intro hreturned hdelivered last hparses
    obtain ⟨hframed, hreading, hcalls, hpayloads, haccepted, hread⟩ := hparses.kept inv
    rw [← hpayloads]
    apply received_of_returned hframed _ _ hreading
    · rw [hcalls]
      exact hreturned
    · rw [hread, haccepted]
      exact hdelivered

/-- Whatever the calls, their interleaving and the sizes of the reads, framing is exact. -/
theorem exact_of_accepting {events : List LinkEvent} {s : Link}
    (run : machine.RunUnder (fun _ event => Accepting event) events s) : Exact s :=
  exact_of_framed (framed_run run)

/-- Two calls, the second of which takes the mutex first and has nothing to send; the
stream is cut inside the sizes and after the first byte of the payload. -/
def twoCalls : List LinkEvent :=
  [.call [7, 8, 9], .call []] ++ List.replicate 4 (.sendChunk 1 true) ++
    List.replicate 2 (.sendChunk 0 true) ++
    [.recv 3, .parse, .recv 3, .parse, .parse] ++ List.replicate 2 (.sendChunk 0 true) ++
    [.recv 3, .parse, .recv 2, .parse, .parse]

theorem exact_of_twoCalls : Exact (machine.reached twoCalls) :=
  exact_of_accepting (Machine.runUnder_reached (by decide +kernel))

example : (machine.reached twoCalls).received = [[], [7, 8, 9]] := by decide +kernel

end Link

end Sxaint.Net
