/-
# The sending half of a stream

What the vendored KCP does with the bytes it is given, as far as its sending half goes: `ikcp_send`
cuts them into segments, `ikcp_flush` numbers as many as the window of the other side allows, and
`ikcp_input` removes the segments that an acknowledgement covers. When a segment is sent once more
is left out, with its timers; it does not depend on that which segments are kept.
-/

import Mathlib.Data.List.Perm.Basic
import Mathlib.Data.List.TakeWhile
import Sxaint.Net.KcpReceive

namespace Sxaint.Net

namespace Kcp

/-- The size of the data of a segment, at most. -/
def mss : ℕ := 16384 - overhead

/-- The smallest receive window, and the first guess at the one of the other side. -/
def wndRcv : ℕ := 128

/-- The milliseconds between two flushes. -/
def interval : UInt32 := 10

/-- A segment that has a number. -/
structure Numbered where
  sn : UInt32
  data : List UInt8
  deriving DecidableEq, Repr

/-- The members of a control block that its sending half uses. -/
structure Sending where
  conv : UInt32
  sndUna : UInt32 := 0
  sndNxt : UInt32 := 0
  sndWnd : UInt32 := 4096
  rmtWnd : UInt32 := UInt32.ofNat wndRcv
  tsFlush : UInt32 := 100
  updated : Bool := false
  /-- The data of the segments that have no number yet. -/
  sndQueue : List (List UInt8) := []
  /-- The segments that are not acknowledged, in order. -/
  sndBuf : List Numbered := []
  /-- Every segment that was given a number so far. -/
  numbered : List Numbered := []
  /-- The segments that were removed by an acknowledgement. -/
  acknowledged : List Numbered := []
  deriving DecidableEq, Repr

namespace Sending

/-- `ikcp_waitsnd` -/
def waitSnd (kcp : Sending) : ℕ :=
  kcp.sndBuf.length + kcp.sndQueue.length

/-- Cut bytes into a number of segments. -/
def fragments : ℕ → List UInt8 → List (List UInt8)
  | 0, _ => []
  | count + 1, data => data.take mss :: fragments count (data.drop mss)

/-- The room in the last segment of the queue. -/
def capacity (kcp : Sending) : ℕ :=
  match kcp.sndQueue.getLast? with
  | some old => mss - old.length
  | none => 0

/-- Fill the last segment of the queue. -/
def extend (data : List UInt8) (kcp : Sending) : Sending :=
  match kcp.sndQueue.getLast? with
  | some old =>
    { kcp with sndQueue := kcp.sndQueue.dropLast ++ [old ++ data.take kcp.capacity] }
  | none => kcp

/-- `ikcp_send`, on a stream. What it returns is negative or not; the part that fills the last
segment counts as sent even if the rest is refused. -/
def send (data : List UInt8) (kcp : Sending) : Bool × Sending :=
  let extended := kcp.extend data
  let rest := data.drop kcp.capacity
  if rest = [] then (true, extended)
  else
    let count := if rest.length ≤ mss then 1 else (rest.length + mss - 1) / mss
    if count ≥ wndRcv then (decide (0 < kcp.capacity), extended)
    else (true, { extended with sndQueue := extended.sndQueue ++ fragments count rest })

/-- Number segments of the queue while the window is open. -/
def fill (cwnd : UInt32) : List (List UInt8) → Sending → Sending
  | [], kcp => { kcp with sndQueue := [] }
  | data :: rest, kcp =>
    if itimediff kcp.sndNxt (kcp.sndUna + cwnd) < 0 then
      fill cwnd rest
        { kcp with
          sndBuf := kcp.sndBuf ++ [⟨kcp.sndNxt, data⟩]
          numbered := kcp.numbered ++ [⟨kcp.sndNxt, data⟩]
          sndNxt := kcp.sndNxt + 1 }
    else { kcp with sndQueue := data :: rest }

/-- `ikcp_flush` -/
def flush (kcp : Sending) : Sending :=
  if kcp.updated then fill (min kcp.sndWnd kcp.rmtWnd) kcp.sndQueue kcp else kcp

/-- The time at which a flush is due. It starts with the first update, and again when the clock
has jumped. -/
def due (now : UInt32) (kcp : Sending) : UInt32 :=
  let started := if kcp.updated then kcp.tsFlush else now
  let slap := itimediff now started
  if slap ≥ 10000 ∨ slap < -10000 then now else started

/-- `ikcp_update` -/
def update (now : UInt32) (kcp : Sending) : Sending :=
  let due := kcp.due now
  if itimediff now due ≥ 0 then
    let next := if itimediff now (due + interval) ≥ 0 then now + interval else due + interval
    flush { kcp with updated := true, tsFlush := next }
  else { kcp with updated := true, tsFlush := due }

/-- `ikcp_shrink_buf` -/
def shrinkBuf (kcp : Sending) : Sending :=
  { kcp with
    sndUna :=
      match kcp.sndBuf with
      | segment :: _ => segment.sn
      | [] => kcp.sndNxt }

/-- `ikcp_parse_una` -/
def parseUna (una : UInt32) (kcp : Sending) : Sending :=
  let covered := fun segment : Numbered => decide (itimediff una segment.sn > 0)
  { kcp with
    sndBuf := kcp.sndBuf.dropWhile covered
    acknowledged := kcp.acknowledged ++ kcp.sndBuf.takeWhile covered }

/-- The loop of `ikcp_parse_ack`: the segment with a number, which may not be there, and the other
ones. -/
def removeAcked (sn : UInt32) : List Numbered → List Numbered × List Numbered
  | [] => ([], [])
  | segment :: rest =>
    if sn = segment.sn then ([segment], rest)
    else if itimediff sn segment.sn < 0 then ([], segment :: rest)
    else
      let (found, left) := removeAcked sn rest
      (found, segment :: left)

/-- `ikcp_parse_ack` -/
def parseAck (sn : UInt32) (kcp : Sending) : Sending :=
  if itimediff sn kcp.sndUna < 0 ∨ itimediff sn kcp.sndNxt ≥ 0 then kcp
  else
    let (found, left) := removeAcked sn kcp.sndBuf
    { kcp with sndBuf := left, acknowledged := kcp.acknowledged ++ found }

/-- A segment was read from a datagram. -/
def receive (cmd : UInt8) (wnd sn una : UInt32) (kcp : Sending) : Sending :=
  let shrunk := (parseUna una { kcp with rmtWnd := wnd }).shrinkBuf
  if cmd = 82 then (shrunk.parseAck sn).shrinkBuf else shrunk

/-- The loop of `ikcp_input` over the segments of a datagram, for at most as many rounds as it
has bytes. -/
def inputLoop : ℕ → List UInt8 → Sending → Sending
  | 0, _, kcp => kcp
  | rounds + 1, data, kcp =>
    if data.length < overhead then kcp
    else if readU32 data 0 ≠ kcp.conv then kcp
    else
      let cmd := data.getD 4 0
      let wnd := UInt32.ofNat (LittleEndian.decode (Buffer.block data 6 2))
      let len := readU32 data 20
      let rest := data.drop overhead
      if rest.length < len.toNat ∨ toInt len.toNat < 0 then kcp
      else if cmd ≠ 81 ∧ cmd ≠ 82 ∧ cmd ≠ 83 ∧ cmd ≠ 84 then kcp
      else
        inputLoop rounds (rest.drop len.toNat)
          (kcp.receive cmd wnd (readU32 data 12) (readU32 data 16))

/-- `ikcp_input` -/
def input (data : List UInt8) (kcp : Sending) : Sending :=
  inputLoop data.length data kcp

end Sending

/-- The sending half of KCP. -/
def sending : Kcp Sending where
  input := Sending.input
  flush := Sending.flush
  update := Sending.update
  recv kcp := ([], kcp)
  send := Sending.send

theorem sending_update : sending.update = Sending.update := by
  rw [sending]

namespace Sending

/-! ## What is kept -/

/-- The bytes that were given to a stream are in its segments, numbered or not, and a numbered
segment is kept until it is acknowledged. -/
structure Lossless (given : List UInt8) (kcp : Sending) : Prop where
  whole : kcp.numbered.flatMap Numbered.data ++ kcp.sndQueue.flatten = given
  kept : (kcp.acknowledged ++ kcp.sndBuf).Perm kcp.numbered

theorem lossless_create (conv : UInt32) : Lossless [] { conv := conv } :=
  ⟨rfl, .refl _⟩

/-- With nothing queued and nothing unacknowledged, all that was given is acknowledged. -/
theorem Lossless.settled {given : List UInt8} {kcp : Sending} (lossless : Lossless given kcp)
    (settled : kcp.waitSnd = 0) :
    kcp.acknowledged.Perm kcp.numbered ∧ kcp.numbered.flatMap Numbered.data = given := by
  obtain ⟨hbuf, hqueue⟩ := Nat.add_eq_zero_iff.mp settled
  have hwhole := lossless.whole
  have hkept := lossless.kept
  rw [List.length_eq_zero_iff.mp hqueue, List.flatten_nil, List.append_nil] at hwhole
  rw [List.length_eq_zero_iff.mp hbuf, List.append_nil] at hkept
  exact ⟨hkept, hwhole⟩

section Keeps

variable {given : List UInt8} {kcp : Sending}

theorem lossless_fill (cwnd : UInt32) (queue : List (List UInt8))
    (lossless : Lossless given { kcp with sndQueue := queue }) :
    Lossless given (fill cwnd queue kcp) := by
  induction queue generalizing kcp with
  | nil => exact lossless
  | cons data rest ih =>
      rw [fill]
      split
      · apply ih
        constructor
        · have hwhole := lossless.whole
          simp only [List.flatten_cons] at hwhole
          simp only [List.flatMap_append, List.flatMap_singleton, List.append_assoc]
          exact hwhole
        · have hkept := lossless.kept.append_right [(⟨kcp.sndNxt, data⟩ : Numbered)]
          rw [List.append_assoc] at hkept
          exact hkept
      · exact lossless

theorem lossless_flush (lossless : Lossless given kcp) : Lossless given kcp.flush := by
  rw [flush]
  split
  · exact lossless_fill _ _ lossless
  · exact lossless

theorem lossless_update (now : UInt32) (lossless : Lossless given kcp) :
    Lossless given (kcp.update now) := by
  rw [update]
  split
  · exact lossless_flush ⟨lossless.whole, lossless.kept⟩
  · exact ⟨lossless.whole, lossless.kept⟩

theorem lossless_shrinkBuf (lossless : Lossless given kcp) : Lossless given kcp.shrinkBuf :=
  ⟨lossless.whole, lossless.kept⟩

theorem lossless_parseUna (una : UInt32) (lossless : Lossless given kcp) :
    Lossless given (kcp.parseUna una) := by
  refine ⟨lossless.whole, ?_⟩
  rw [parseUna, List.append_assoc, List.takeWhile_append_dropWhile]
  exact lossless.kept

theorem removeAcked_perm (sn : UInt32) (segments : List Numbered) :
    ((removeAcked sn segments).1 ++ (removeAcked sn segments).2).Perm segments := by
  induction segments with
  | nil => exact .refl _
  | cons segment rest ih =>
      rw [removeAcked]
      split
      · exact .refl _
      split
      · exact .refl _
      · exact List.perm_middle.trans (ih.cons segment)

theorem lossless_parseAck (sn : UInt32) (lossless : Lossless given kcp) :
    Lossless given (kcp.parseAck sn) := by
  rw [parseAck]
  split
  · exact lossless
  · refine ⟨lossless.whole, ?_⟩
    rw [List.append_assoc]
    exact ((removeAcked_perm sn kcp.sndBuf).append_left _).trans lossless.kept

theorem lossless_receive (cmd : UInt8) (wnd sn una : UInt32) (lossless : Lossless given kcp) :
    Lossless given (kcp.receive cmd wnd sn una) := by
  have hshrunk : Lossless given (parseUna una { kcp with rmtWnd := wnd }).shrinkBuf := by
    apply lossless_shrinkBuf
    apply lossless_parseUna
    exact ⟨lossless.whole, lossless.kept⟩
  rw [receive]
  split
  · exact lossless_shrinkBuf (lossless_parseAck sn hshrunk)
  · exact hshrunk

theorem lossless_input (data : List UInt8) (lossless : Lossless given kcp) :
    Lossless given (kcp.input data) := by
  rw [input]
  generalize data.length = rounds
  induction rounds generalizing data kcp with
  | zero => exact lossless
  | succ rounds ih =>
      rw [inputLoop]
      split
      · exact lossless
      split
      · exact lossless
      dsimp only
      split
      · exact lossless
      split
      · exact lossless
      · exact ih _ (lossless_receive _ _ _ _ lossless)

theorem flatten_fragments (count : ℕ) (data : List UInt8) :
    (fragments count data).flatten = data.take (count * mss) := by
  induction count generalizing data with
  | zero => simp [fragments]
  | succ count ih =>
      rw [fragments, List.flatten_cons, ih, Nat.succ_mul, Nat.add_comm, List.take_add]

theorem lossless_extend (data : List UInt8) (lossless : Lossless given kcp) :
    Lossless (given ++ data.take kcp.capacity) (kcp.extend data) := by
  rw [extend]
  split
  · rename_i old hlast
    refine ⟨?_, lossless.kept⟩
    have hqueue := List.dropLast_append_getLast? old hlast
    rw [← lossless.whole, List.append_assoc, List.flatten_append]
    conv_rhs => rw [← hqueue]
    simp
  · rename_i hnone
    rw [capacity, hnone, List.take_zero, List.append_nil]
    exact lossless

/-- A piece of the size that `sendChunk` uses is accepted as a whole. -/
theorem lossless_send {data : List UInt8} (small : data.length ≤ maxSendSize.toNat)
    (lossless : Lossless given kcp) :
    (kcp.send data).1 = true ∧ Lossless (given ++ data) (kcp.send data).2 := by
  have hextended := lossless_extend data lossless
  have hsplit := List.take_append_drop kcp.capacity data
  rw [send]
  split
  · rename_i hall
    rw [hall, List.append_nil] at hsplit
    rw [hsplit] at hextended
    exact ⟨rfl, hextended⟩
  · have hmss : mss = 16360 := rfl
    have hpiece := toNat_maxSendSize
    have hrest : (data.drop kcp.capacity).length ≤ 131072 := by
      rw [List.length_drop]
      omega
    generalize hcount : (if (data.drop kcp.capacity).length ≤ mss then 1
      else ((data.drop kcp.capacity).length + mss - 1) / mss) = count
    have hbounds : (data.drop kcp.capacity).length ≤ count * mss ∧ count < wndRcv := by
      rw [← hcount, hmss, show wndRcv = 128 from rfl]
      split <;> omega
    rw [if_neg (Nat.not_le_of_lt hbounds.2)]
    refine ⟨rfl, ?_, hextended.kept⟩
    have hwhole := hextended.whole
    conv_rhs => rw [← hsplit, ← List.append_assoc, ← hwhole]
    rw [List.flatten_append, flatten_fragments, List.take_of_length_le hbounds.1,
      List.append_assoc]

/-- What `sendChunk` hands to its stream: the frame, as far as its size is positive as an `int`. -/
def handed (rawPayload : List UInt8) : List UInt8 :=
  (frame rawPayload).take (toInt (frame rawPayload).length).toNat

theorem lossless_sendLoop (rounds : ℕ) {rest : List UInt8} (enough : rest.length ≤ rounds)
    (lossless : Lossless given kcp) :
    Lossless (given ++ rest) (Kcp.sending.sendLoop rounds rest kcp) := by
  induction rounds generalizing rest given kcp with
  | zero =>
      rw [List.length_eq_zero_iff.mp (Nat.le_zero.mp enough), List.append_nil]
      exact lossless
  | succ rounds ih =>
      rw [sendLoop]
      split
      · rename_i hnil
        rw [hnil, List.append_nil]
        exact lossless
      · rename_i hrest
        have hpiece := toNat_maxSendSize
        have hpositive : 0 < rest.length := List.length_pos_iff.mpr hrest
        obtain ⟨haccepted, hsent⟩ := lossless_send
          (List.length_take_le maxSendSize.toNat rest) lossless
        have hleft : (rest.drop maxSendSize.toNat).length ≤ rounds := by
          rw [List.length_drop]
          omega
        have hlater := ih hleft hsent
        rw [List.append_assoc, List.take_append_drop] at hlater
        rw [show Kcp.sending.send = send from rfl]
        generalize kcp.send (rest.take maxSendSize.toNat) = result at haccepted hlater
        obtain ⟨accepted, after⟩ := result
        obtain rfl : accepted = true := haccepted
        exact hlater

theorem lossless_sendChunk (rawPayload : List UInt8) (lossless : Lossless given kcp) :
    Lossless (given ++ handed rawPayload) (Kcp.sending.sendChunk rawPayload kcp) := by
  rw [sendChunk, handed]
  generalize (toInt (frame rawPayload).length).toNat = totalSize
  exact lossless_flush (lossless_sendLoop totalSize (List.length_take_le _ _) lossless)

end Keeps

/-- Of a message whose frame has an `int` for its size, all of the frame is handed over. -/
theorem handed_eq_frame {rawPayload : List UInt8} (sizable : Sizable rawPayload) :
    handed rawPayload = frame rawPayload := by
  rw [handed, toInt_length_frame sizable, Int.toNat_natCast, List.take_length]

/-! ## A stream that holds nothing -/

/-- A datagram begins with a segment of a conversation, which `ikcp_input` takes. -/
def HasSegment (conv : UInt32) (data : List UInt8) : Prop :=
  overhead ≤ data.length ∧ readU32 data 0 = conv ∧
    ((readU32 data 20).toNat ≤ (data.drop overhead).length ∧ 0 ≤ toInt (readU32 data 20).toNat) ∧
    data.getD 4 0 ∈ [(81 : UInt8), 82, 83, 84]

/-- A datagram acknowledges all that a stream holds: no segment waits for a number, and the other
side expects a number beyond every segment that is not acknowledged. -/
def Acknowledges (data : List UInt8) (kcp : Sending) : Prop :=
  HasSegment kcp.conv data ∧ kcp.sndQueue = [] ∧
    ∀ segment ∈ kcp.sndBuf, itimediff (readU32 data 16) segment.sn > 0

instance (data : List UInt8) (kcp : Sending) : Decidable (Acknowledges data kcp) :=
  inferInstanceAs (Decidable ((_ ∧ _ ∧ _ ∧ _) ∧ _ ∧ _))

theorem Acknowledges.long {data : List UInt8} {kcp : Sending}
    (acknowledges : Acknowledges data kcp) : 4 < data.length :=
  Nat.lt_of_lt_of_le (by decide) acknowledges.1.1

/-- Numbering segments keeps how many wait. -/
theorem waitSnd_fill (cwnd : UInt32) (queue : List (List UInt8)) (kcp : Sending) :
    (fill cwnd queue kcp).waitSnd = kcp.sndBuf.length + queue.length := by
  induction queue generalizing kcp with
  | nil => rfl
  | cons data rest ih =>
      rw [fill]
      split
      · rw [ih, List.length_append, List.length_singleton, List.length_cons]
        omega
      · rfl

theorem waitSnd_flush (kcp : Sending) : kcp.flush.waitSnd = kcp.waitSnd := by
  rw [flush]
  split
  · exact waitSnd_fill _ _ _
  · rfl

theorem waitSnd_shrinkBuf (kcp : Sending) : kcp.shrinkBuf.waitSnd = kcp.waitSnd := rfl

theorem waitSnd_update (now : UInt32) (kcp : Sending) :
    (kcp.update now).waitSnd = kcp.waitSnd := by
  rw [update]
  dsimp only
  split
  · rw [waitSnd_flush, waitSnd, waitSnd]
  · rw [waitSnd, waitSnd]

section Nothing

variable {kcp : Sending}

theorem waitSnd_eq_zero_iff : kcp.waitSnd = 0 ↔ kcp.sndBuf = [] ∧ kcp.sndQueue = [] := by
  rw [waitSnd, Nat.add_eq_zero_iff, List.length_eq_zero_iff, List.length_eq_zero_iff]

theorem waitSnd_parseAck (sn : UInt32) (nothing : kcp.waitSnd = 0) :
    (kcp.parseAck sn).waitSnd = 0 := by
  rw [waitSnd_eq_zero_iff] at nothing ⊢
  rw [parseAck]
  split
  · exact nothing
  · rw [nothing.1]
    exact ⟨rfl, nothing.2⟩

/-- A segment leaves nothing where it acknowledges all. -/
theorem waitSnd_receive {cmd : UInt8} {wnd sn una : UInt32} (queue : kcp.sndQueue = [])
    (all : ∀ segment ∈ kcp.sndBuf, itimediff una segment.sn > 0) :
    (kcp.receive cmd wnd sn una).waitSnd = 0 := by
  have hshrunk : (parseUna una { kcp with rmtWnd := wnd }).shrinkBuf.waitSnd = 0 := by
    rw [waitSnd_eq_zero_iff]
    refine ⟨?_, queue⟩
    show kcp.sndBuf.dropWhile _ = []
    rw [List.dropWhile_eq_nil_iff]
    exact fun segment hmem => decide_eq_true (all segment hmem)
  rw [receive]
  generalize (parseUna una { kcp with rmtWnd := wnd }).shrinkBuf = shrunk at hshrunk
  split
  · rw [waitSnd_shrinkBuf]
    exact waitSnd_parseAck sn hshrunk
  · exact hshrunk

theorem waitSnd_inputLoop (rounds : ℕ) (data : List UInt8) (nothing : kcp.waitSnd = 0) :
    (inputLoop rounds data kcp).waitSnd = 0 := by
  induction rounds generalizing data kcp with
  | zero => exact nothing
  | succ rounds ih =>
      rw [inputLoop]
      split
      · exact nothing
      split
      · exact nothing
      dsimp only
      split
      · exact nothing
      split
      · exact nothing
      · rw [waitSnd_eq_zero_iff] at nothing
        refine ih _ (waitSnd_receive nothing.2 ?_)
        rw [nothing.1]
        rintro _ ⟨⟩

/-- After a datagram that acknowledges all there is nothing left. -/
theorem waitSnd_input {data : List UInt8} (acknowledges : Acknowledges data kcp) :
    (kcp.input data).waitSnd = 0 := by
  obtain ⟨⟨hlength, hconv, hfits, hkind⟩, hqueue, hall⟩ := acknowledges
  obtain ⟨rounds, hrounds⟩ : ∃ rounds, data.length = rounds + 1 :=
    Nat.exists_eq_add_one.mpr (Nat.lt_of_lt_of_le (by decide) hlength)
  have hknown : ¬ (data.getD 4 0 ≠ 81 ∧ data.getD 4 0 ≠ 82 ∧ data.getD 4 0 ≠ 83 ∧
      data.getD 4 0 ≠ 84) := by
    simp only [List.mem_cons, List.not_mem_nil, or_false] at hkind
    rintro ⟨hpush, hack, hask, htell⟩
    rcases hkind with h | h | h | h
    · exact hpush h
    · exact hack h
    · exact hask h
    · exact htell h
  rw [input, hrounds, inputLoop, if_neg (Nat.not_lt.mpr hlength), if_neg (not_not.mpr hconv)]
  dsimp only
  rw [if_neg (by omega), if_neg hknown]
  exact waitSnd_inputLoop _ _ (waitSnd_receive hqueue hall)

/-- A frame of which nothing is handed over changes nothing. -/
theorem waitSnd_sendChunk {rawPayload : List UInt8} (empty : handed rawPayload = [])
    (nothing : kcp.waitSnd = 0) : (Kcp.sending.sendChunk rawPayload kcp).waitSnd = 0 := by
  rw [handed] at empty
  rw [sendChunk, empty]
  generalize (toInt (frame rawPayload).length).toNat = rounds
  cases rounds <;> exact (waitSnd_flush kcp).trans nothing

end Nothing

end Sending

end Kcp

end Sxaint.Net
