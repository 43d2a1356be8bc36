/-
# The receiving half of a stream

What a control block receives does not depend on what it sends. Its receiving half, by itself,
orders the same segments and copies the same bytes as the whole. What is to be acknowledged is left
out.
-/

import Sxaint.Net.KcpReceive
import Sxaint.Net.Streams

namespace Sxaint.Net

open Sxaint.Ikcp (Ikcpcb Packet Seg cmdAck cmdPush cmdWask cmdWins)

/-- A datagram of fewer bytes than a header has no segments. -/
theorem segmentsLoop_of_short {conv : UInt32} {data : List UInt8}
    (short : data.length < Kcp.overhead) :
    (Ikcp.segmentsLoop conv data.length data).1 = [] := by
  cases data with
  | nil => rfl
  | cons first rest => rw [List.length_cons, Ikcp.segmentsLoop, Ikcp.front, if_pos short]

/-- The head of the loop of `ikcp_input`, as each half has it. -/
theorem front_eq {β : Type} (conv : UInt32) (data : List UInt8) (stop : β)
    (go : Packet → List UInt8 → β) :
    (if data.length < Kcp.overhead then stop
      else if readU32 data 0 ≠ conv then stop
      else if (data.drop Kcp.overhead).length < (readU32 data 20).toNat ∨
        toInt (readU32 data 20).toNat < 0 then stop
      else if data.getD 4 0 ≠ cmdPush ∧ data.getD 4 0 ≠ cmdAck ∧ data.getD 4 0 ≠ cmdWask ∧
        data.getD 4 0 ≠ cmdWins then stop
      else
        go
          { conv := readU32 data 0
            cmd := data.getD 4 0
            frg := data.getD 5 0
            wnd := UInt16.ofNat (LittleEndian.decode (Buffer.block data 6 2))
            ts := readU32 data 8
            sn := readU32 data 12
            una := readU32 data 16
            data := (data.drop Kcp.overhead).take (readU32 data 20).toNat }
          ((data.drop Kcp.overhead).drop (readU32 data 20).toNat)) =
      match Ikcp.front conv data with
      | .rest => stop
      | .refused _ => stop
      | .segment p left => go p left := by
  rw [Ikcp.front]
  split
  · rfl
  split
  · rfl
  dsimp only
  split
  · rfl
  split
  · rfl
  · rfl

/-- A loop with that head goes over the segments of the datagram. -/
theorem loop_eq {β : Type} {conv : β → UInt32} {receive : Packet → β → β}
    {loop : ℕ → List UInt8 → β → β} (same : ∀ p kcp, conv (receive p kcp) = conv kcp)
    (zero : ∀ data kcp, loop 0 data kcp = kcp)
    (succ : ∀ rounds data kcp, loop (rounds + 1) data kcp =
      match Ikcp.front (conv kcp) data with
      | .rest => kcp
      | .refused _ => kcp
      | .segment p left => loop rounds left (receive p kcp))
    (rounds : ℕ) (data : List UInt8) (kcp : β) :
    loop rounds data kcp =
      (Ikcp.segmentsLoop (conv kcp) rounds data).1.foldl (fun read p => receive p read) kcp := by
  induction rounds generalizing data kcp with
  | zero => exact zero data kcp
  | succ rounds ih =>
      rw [succ, Ikcp.segmentsLoop]
      cases Ikcp.front (conv kcp) data with
      | rest => rfl
      | refused code => rfl
      | segment p left =>
          dsimp only
          rw [ih, same]
          rfl

/-! ## The receiving half -/

/-- A segment, as the receiving half has it. -/
def toSegment (seg : Seg) : Kcp.Segment where
  frg := seg.frg
  ts := seg.ts
  sn := seg.sn
  data := seg.data

/-- The receiving half of a control block. What it is to acknowledge is left out. -/
def receivingHalf (kcp : Ikcpcb) : Kcp.Receiving where
  conv := kcp.conv
  rcvNxt := kcp.rcvNxt
  rcvWnd := kcp.rcvWnd
  updated := kcp.updated
  rcvBuf := kcp.rcvBuf.map toSegment
  rcvQueue := kcp.rcvQueue.map toSegment

namespace Kcp.Receiving

/-- A receiving half without what it is to acknowledge. -/
def unacked (kcp : Receiving) : Receiving :=
  { kcp with ackList := [] }

/-- What one segment of a datagram does. -/
def hear (p : Packet) (kcp : Receiving) : Receiving :=
  if p.cmd = cmdPush then kcp.push ⟨p.frg, p.ts, p.sn, p.data⟩ else kcp

theorem conv_deliver (kcp : Receiving) (segments : List Segment) :
    (kcp.deliver segments).conv = kcp.conv := by
  induction segments generalizing kcp with
  | nil => rfl
  | cons segment rest ih =>
      rw [deliver]
      split
      · exact ih _
      · rfl

theorem conv_parseData (kcp : Receiving) (segment : Segment) :
    (kcp.parseData segment).conv = kcp.conv := by
  rw [parseData]
  split
  · rfl
  · exact kcp.conv_deliver _

/-- A segment is beyond the window, was received before, or is put in its place. -/
theorem push_cases (kcp : Receiving) (segment : Segment) :
    kcp.push segment = kcp ∨ ∃ ackList, kcp.push segment = { kcp with ackList := ackList } ∨
      kcp.push segment = parseData segment { kcp with ackList := ackList } := by
  rw [push]
  split
  · refine .inr ⟨kcp.ackList ++ [(segment.sn, segment.ts)], ?_⟩
    dsimp only
    split
    · exact .inr rfl
    · exact .inl rfl
  · exact .inl rfl

theorem conv_push (kcp : Receiving) (segment : Segment) :
    (kcp.push segment).conv = kcp.conv := by
  obtain heq | ⟨ackList, heq | heq⟩ := kcp.push_cases segment
  · rw [heq]
  · rw [heq]
  · rw [heq, conv_parseData]

theorem conv_hear (kcp : Receiving) (p : Packet) : (kcp.hear p).conv = kcp.conv := by
  rw [hear]
  split
  · exact kcp.conv_push _
  · rfl

/-- The loop of `ikcp_input` goes over the segments of the datagram. -/
theorem inputLoop_eq (rounds : ℕ) (data : List UInt8) (kcp : Receiving) :
    inputLoop rounds data kcp =
      (Ikcp.segmentsLoop kcp.conv rounds data).1.foldl (fun read p => read.hear p) kcp :=
  loop_eq (fun p kcp => kcp.conv_hear p) (fun _ _ => rfl)
    (fun rounds data kcp => front_eq kcp.conv data kcp fun p left =>
      inputLoop rounds left (kcp.hear p)) rounds data kcp

theorem unacked_deliver (kcp : Receiving) (segments : List Segment) :
    (kcp.deliver segments).unacked = kcp.unacked.deliver segments := by
  induction segments generalizing kcp with
  | nil => rfl
  | cons segment rest ih =>
      rw [deliver, deliver]
      by_cases htake : segment.sn = kcp.rcvNxt ∧ kcp.rcvQueue.length < kcp.rcvWnd.toNat
      · rw [if_pos htake]
        exact (ih _).trans (if_pos htake).symm
      · rw [if_neg htake]
        exact (if_neg htake).symm

theorem unacked_parseData (kcp : Receiving) (segment : Segment) :
    (kcp.parseData segment).unacked = kcp.unacked.parseData segment := by
  rw [parseData, parseData]
  by_cases houtside : itimediff segment.sn (kcp.rcvNxt + kcp.rcvWnd) ≥ 0 ∨
      itimediff segment.sn kcp.rcvNxt < 0
  · rw [if_pos houtside]
    exact (if_pos houtside).symm
  · rw [if_neg houtside]
    exact (kcp.unacked_deliver _).trans (if_neg houtside).symm

/-- What is to be acknowledged makes no difference. -/
theorem unacked_push (kcp : Receiving) (segment : Segment) :
    (kcp.push segment).unacked =
      if itimediff segment.sn (kcp.rcvNxt + kcp.rcvWnd) < 0 ∧
          itimediff segment.sn kcp.rcvNxt ≥ 0 then kcp.unacked.parseData segment
      else kcp.unacked := by
  rw [push]
  by_cases hbefore : itimediff segment.sn (kcp.rcvNxt + kcp.rcvWnd) < 0
  · rw [if_pos hbefore]
    dsimp only
    by_cases hnew : itimediff segment.sn kcp.rcvNxt ≥ 0
    · rw [if_pos hnew, if_pos ⟨hbefore, hnew⟩]
      exact unacked_parseData _ _
    · rw [if_neg hnew, if_neg fun h => hnew h.2]
      rfl
  · rw [if_neg hbefore, if_neg fun h => hbefore h.1]

end Kcp.Receiving

/-- A control block and a receiving half that have received the same. -/
def Hears (kcp : Ikcpcb) (k : Kcp.Receiving) : Prop :=
  k.unacked = receivingHalf kcp

section Hears

variable {kcp : Ikcpcb} {k : Kcp.Receiving}

theorem receivingHalf_deliver (kcp : Ikcpcb) (segs : List Seg) :
    receivingHalf (kcp.deliver segs) = (receivingHalf kcp).deliver (segs.map toSegment) := by
  induction segs generalizing kcp with
  | nil => rfl
  | cons seg rest ih =>
      have hlength : (receivingHalf kcp).rcvQueue.length = kcp.rcvQueue.length :=
        List.length_map _
      have hsame : ((toSegment seg).sn = (receivingHalf kcp).rcvNxt ∧
          (receivingHalf kcp).rcvQueue.length < (receivingHalf kcp).rcvWnd.toNat) ↔
            (seg.sn = kcp.rcvNxt ∧ kcp.rcvQueue.length < kcp.rcvWnd.toNat) := by
        rw [hlength]
        exact Iff.rfl
      rw [Ikcpcb.deliver, List.map_cons, Kcp.Receiving.deliver]
      by_cases htake : seg.sn = kcp.rcvNxt ∧ kcp.rcvQueue.length < kcp.rcvWnd.toNat
      · rw [if_pos htake, if_pos (hsame.mpr htake), ih, receivingHalf, List.map_append]
        rfl
      · rw [if_neg htake, if_neg (mt hsame.mp htake)]
        rfl

theorem insert_toSegment (newseg : Seg) (segs : List Seg) :
    Kcp.Receiving.insert (toSegment newseg) (segs.map toSegment) =
      (Ikcpcb.insert newseg segs).map toSegment := by
  induction segs with
  | nil => rfl
  | cons seg earlier ih =>
      have hsn (seg : Seg) : (toSegment seg).sn = seg.sn := rfl
      rw [List.map_cons, Kcp.Receiving.insert, Ikcpcb.insert, hsn, hsn]
      split
      · rfl
      split
      · rfl
      · rw [ih]
        rfl

theorem receivingHalf_parseData (kcp : Ikcpcb) (newseg : Seg) :
    receivingHalf (kcp.parseData newseg) = (receivingHalf kcp).parseData (toSegment newseg) := by
  have hinsert : (Kcp.Receiving.insert (toSegment newseg)
      (receivingHalf kcp).rcvBuf.reverse).reverse =
        (Ikcpcb.insert newseg kcp.rcvBuf.reverse).reverse.map toSegment := by
    rw [receivingHalf, ← List.map_reverse, insert_toSegment, List.map_reverse]
  rw [Ikcpcb.parseData, Kcp.Receiving.parseData, hinsert]
  by_cases houtside : Kcp.itimediff newseg.sn (kcp.rcvNxt + kcp.rcvWnd) ≥ 0 ∨
      Kcp.itimediff newseg.sn kcp.rcvNxt < 0
  · rw [if_pos houtside]
    exact (if_pos houtside).symm
  · rw [if_neg houtside]
    exact (receivingHalf_deliver _ _).trans (if_neg houtside).symm

theorem receivingHalf_ackPush (kcp : Ikcpcb) (sn ts : UInt32) :
    receivingHalf (kcp.ackPush sn ts) = receivingHalf kcp :=
  rfl

theorem receivingHalf_push (kcp : Ikcpcb) (p : Packet) :
    receivingHalf (kcp.push p) =
      if Kcp.itimediff p.sn (kcp.rcvNxt + kcp.rcvWnd) < 0 ∧ Kcp.itimediff p.sn kcp.rcvNxt ≥ 0 then
        (receivingHalf kcp).parseData ⟨p.frg, p.ts, p.sn, p.data⟩
      else receivingHalf kcp := by
  by_cases hbefore : Kcp.itimediff p.sn (kcp.rcvNxt + kcp.rcvWnd) < 0
  · rw [Ikcpcb.push, if_pos hbefore]
    dsimp only
    by_cases hnew : Kcp.itimediff p.sn kcp.rcvNxt ≥ 0
    · rw [if_pos hnew, if_pos ⟨hbefore, hnew⟩, receivingHalf_parseData, receivingHalf_ackPush]
      rfl
    · rw [if_neg hnew, if_neg fun h => hnew h.2, receivingHalf_ackPush]
  · rw [Ikcpcb.push, if_neg hbefore, if_neg fun h => hbefore h.1]

theorem Hears.push (hears : Hears kcp k) (p : Packet) :
    Hears (kcp.push p) (k.push ⟨p.frg, p.ts, p.sn, p.data⟩) := by
  have hrcvNxt : k.rcvNxt = kcp.rcvNxt := congrArg Kcp.Receiving.rcvNxt hears
  have hrcvWnd : k.rcvWnd = kcp.rcvWnd := congrArg Kcp.Receiving.rcvWnd hears
  rw [Hears, Kcp.Receiving.unacked_push, receivingHalf_push, hears, hrcvNxt, hrcvWnd]

/-- What does not change the receiving half does not change what it has received. -/
theorem Hears.of_same {kcp' : Ikcpcb} (hears : Hears kcp k)
    (same : receivingHalf kcp' = receivingHalf kcp) : Hears kcp' k :=
  Eq.trans hears same.symm

theorem receivingHalf_unheard (kcp : Ikcpcb) : receivingHalf kcp.unheard = receivingHalf kcp :=
  rfl

theorem receivingHalf_askTell (kcp : Ikcpcb) (askTell : Bool) :
    receivingHalf { kcp with askTell := askTell } = receivingHalf kcp :=
  rfl

theorem Hears.receive (hears : Hears kcp k) (p : Packet) (latest : Option (UInt32 × UInt32)) :
    Hears (kcp.receive p latest).2 (k.hear p) := by
  have hheed : Hears (kcp.heed p) k := by
    apply hears.of_same
    rw [← receivingHalf_unheard, kcp.unheard_heed, receivingHalf_unheard]
  rw [Kcp.Receiving.hear]
  simp only [Ikcpcb.receive]
  by_cases hack : p.cmd = cmdAck
  · have hother : ¬p.cmd = cmdPush := by
      rw [hack]
      decide
    rw [if_pos hack, if_neg hother]
    apply hheed.of_same
    rw [← receivingHalf_unheard, Ikcpcb.unheard_acknowledge, receivingHalf_unheard]
  rw [if_neg hack]
  by_cases hpush : p.cmd = cmdPush
  · rw [if_pos hpush, if_pos hpush]
    dsimp only
    exact hheed.push p
  · rw [if_neg hpush, if_neg hpush]
    split
    · exact hheed.of_same (receivingHalf_askTell (kcp.heed p) true)
    · exact hheed

theorem Hears.input (hears : Hears kcp k) (data : List UInt8) :
    Hears (kcp.input data).2 (k.input data) := by
  have hconv : k.conv = kcp.conv := congrArg Kcp.Receiving.conv hears
  rw [Kcp.Receiving.input, Kcp.Receiving.inputLoop_eq, hconv, Ikcpcb.input]
  split
  · rename_i hshort
    rw [segmentsLoop_of_short hshort]
    exact hears
  · rw [Ikcpcb.inputLoop_eq]
    have hfold (packets : List Packet) (latest : Option (UInt32 × UInt32)) (kcp : Ikcpcb)
        (k : Kcp.Receiving) (hears : Hears kcp k) :
        Hears (packets.foldl (fun read p => read.2.receive p read.1) (latest, kcp)).2
          (packets.foldl (fun read p => read.hear p) k) := by
      induction packets generalizing latest kcp k with
      | nil => exact hears
      | cons p rest ih => exact ih _ _ _ (hears.receive p latest)
    have hread := hfold (Ikcp.segmentsLoop kcp.conv data.length data).1 none kcp k hears
    dsimp only
    split
    · exact hread
    · apply hread.of_same
      dsimp only
      rw [← receivingHalf_unheard, Ikcpcb.unheard_conclude, receivingHalf_unheard]

theorem receivingHalf_unflushed (kcp : Ikcpcb) :
    receivingHalf kcp.unflushed = receivingHalf kcp :=
  rfl

theorem Hears.flush (hears : Hears kcp k) : Hears kcp.flush k.flush := by
  have hsame : k.flush.unacked = k.unacked := by
    rw [Kcp.Receiving.flush]
    split <;> rfl
  rw [Hears, hsame, ← receivingHalf_unflushed, kcp.unflushed_flush, receivingHalf_unflushed]
  exact hears

theorem Hears.clock (hears : Hears kcp k) (current tsFlush : UInt32) :
    Hears (kcp.clock current tsFlush) { k with updated := true } := by
  have hboth : ({ k.unacked with updated := true } : Kcp.Receiving) =
      { receivingHalf kcp with updated := true } := by
    rw [hears]
  exact hboth

theorem Hears.update (hears : Hears kcp k) (current : UInt32) :
    Hears (kcp.update current) (k.update current) := by
  rw [Kcp.Receiving.update]
  obtain ⟨tsFlush, heq | heq⟩ := kcp.update_cases current
  · have hsame : ({ k with updated := true } : Kcp.Receiving).flush.unacked =
        ({ k with updated := true } : Kcp.Receiving).unacked :=
      rfl
    rw [heq, Hears, hsame]
    exact hears.clock current tsFlush
  · rw [heq]
    exact (hears.clock current tsFlush).flush

theorem takeMessage_map (segs : List Seg) :
    Kcp.Receiving.takeMessage (segs.map toSegment) =
      ((Ikcpcb.merge segs).1, (Ikcpcb.merge segs).2.map toSegment) := by
  induction segs with
  | nil => rfl
  | cons seg rest ih =>
      have hfrg : (toSegment seg).frg = seg.frg := rfl
      rw [List.map_cons, Kcp.Receiving.takeMessage, Ikcpcb.merge, hfrg]
      split
      · rfl
      · rw [ih]
        rfl

/-- The size of the first message, unless a fragment of it is still to come. -/
theorem peeksize_of_cons {seg : Seg} {rest : List Seg} (queue : kcp.rcvQueue = seg :: rest) :
    kcp.peeksize =
      if seg.frg ≠ 0 ∧ kcp.rcvQueue.length < seg.frg.toNat + 1 then -1
      else ((Ikcpcb.merge kcp.rcvQueue).1.length : ℤ) := by
  unfold Ikcpcb.peeksize
  rw [queue]
  dsimp only
  by_cases hfrg : seg.frg = 0
  · rw [if_pos hfrg, if_neg fun h => h.1 hfrg, Ikcpcb.merge, if_pos hfrg]
  · rw [if_neg hfrg]
    by_cases hshort : (seg :: rest).length < seg.frg.toNat + 1
    · rw [if_pos hshort, if_pos ⟨hfrg, hshort⟩]
    · rw [if_neg hshort, if_neg fun h => hshort h.2]

/-- What is copied is the first message, if it is whole and fits. -/
theorem recv_of_cons {seg : Seg} {rest : List Seg} (queue : kcp.rcvQueue = seg :: rest) :
    (kcp.recv Kcp.recvBufSize).2.1 =
        (if (seg.frg ≠ 0 ∧ kcp.rcvQueue.length < seg.frg.toNat + 1) ∨
          (Ikcpcb.merge kcp.rcvQueue).1.length > Kcp.recvBufSize then []
        else (Ikcpcb.merge kcp.rcvQueue).1) ∧
      receivingHalf (kcp.recv Kcp.recvBufSize).2.2 =
        if (seg.frg ≠ 0 ∧ kcp.rcvQueue.length < seg.frg.toNat + 1) ∨
          (Ikcpcb.merge kcp.rcvQueue).1.length > Kcp.recvBufSize then receivingHalf kcp
        else
          Kcp.Receiving.deliver
            { receivingHalf kcp with
              rcvQueue := (Ikcpcb.merge kcp.rcvQueue).2.map toSegment }
            (kcp.rcvBuf.map toSegment) := by
  have hpeek := peeksize_of_cons queue
  have hlen : |((Kcp.recvBufSize : ℕ) : ℤ)| = Kcp.recvBufSize :=
    abs_of_nonneg (Int.natCast_nonneg _)
  have hsome : kcp.rcvQueue ≠ [] := by
    rw [queue]
    exact List.cons_ne_nil _ _
  by_cases hshort : seg.frg ≠ 0 ∧ kcp.rcvQueue.length < seg.frg.toNat + 1
  · rw [if_pos hshort] at hpeek
    have hnegative : kcp.peeksize < 0 := by
      rw [hpeek]
      decide
    rw [if_pos (.inl hshort), if_pos (.inl hshort), Ikcpcb.recv, if_neg hsome, if_pos hnegative]
    exact ⟨rfl, rfl⟩
  · rw [if_neg hshort] at hpeek
    have hwhole : ¬kcp.peeksize < 0 := by
      rw [hpeek]
      exact not_lt.mpr (Int.natCast_nonneg _)
    by_cases hlarge : (Ikcpcb.merge kcp.rcvQueue).1.length > Kcp.recvBufSize
    · have hover : kcp.peeksize > |((Kcp.recvBufSize : ℕ) : ℤ)| := by
        rw [hpeek, hlen]
        exact Int.ofNat_lt.mpr hlarge
      rw [if_pos (.inr hlarge), if_pos (.inr hlarge), Ikcpcb.recv, if_neg hsome, if_neg hwhole,
        if_pos hover]
      exact ⟨rfl, rfl⟩
    · have hfits : ¬kcp.peeksize > |((Kcp.recvBufSize : ℕ) : ℤ)| := by
        rw [hpeek, hlen]
        exact fun h => hlarge (Int.ofNat_lt.mp h)
      have hnonneg : ¬((Kcp.recvBufSize : ℕ) : ℤ) < 0 := not_lt.mpr (Int.natCast_nonneg _)
      have hneither := not_or.mpr ⟨hshort, hlarge⟩
      rw [if_neg hneither, if_neg hneither, Ikcpcb.recv, if_neg hsome, if_neg hwhole,
        if_neg hfits]
      dsimp only
      rw [if_neg hnonneg, receivingHalf_askTell, receivingHalf_deliver]
      exact ⟨rfl, rfl⟩

theorem recv_of_segment {segment : Kcp.Segment} {rest : List Kcp.Segment}
    (queue : k.rcvQueue = segment :: rest) :
    k.recv =
      if (segment.frg ≠ 0 ∧ k.rcvQueue.length < segment.frg.toNat + 1) ∨
        (Kcp.Receiving.takeMessage k.rcvQueue).1.length > Kcp.recvBufSize then ([], k)
      else ((Kcp.Receiving.takeMessage k.rcvQueue).1,
        Kcp.Receiving.deliver
          { k with rcvQueue := (Kcp.Receiving.takeMessage k.rcvQueue).2 } k.rcvBuf) := by
  unfold Kcp.Receiving.recv
  rw [queue]
  dsimp only
  by_cases hshort : segment.frg ≠ 0 ∧ (segment :: rest).length < segment.frg.toNat + 1
  · rw [if_pos hshort, if_pos (.inl hshort)]
  rw [if_neg hshort]
  by_cases hlarge :
      (Kcp.Receiving.takeMessage (segment :: rest)).1.length > Kcp.recvBufSize
  · rw [if_pos hlarge, if_pos (.inr hlarge)]
  · rw [if_neg hlarge, if_neg (not_or.mpr ⟨hshort, hlarge⟩)]

/-- What a receiving half copies is what the control block copies. -/
theorem Hears.recv (hears : Hears kcp k) :
    k.recv.1 = (kcp.recv Kcp.recvBufSize).2.1 ∧
      Hears (kcp.recv Kcp.recvBufSize).2.2 k.recv.2 := by
  have hqueue : k.rcvQueue = kcp.rcvQueue.map toSegment := congrArg Kcp.Receiving.rcvQueue hears
  have hbuf : k.rcvBuf = kcp.rcvBuf.map toSegment := congrArg Kcp.Receiving.rcvBuf hears
  cases hcase : kcp.rcvQueue with
  | nil =>
      rw [hcase] at hqueue
      have hnothing : k.recv = ([], k) := by
        rw [Kcp.Receiving.recv, hqueue]
        rfl
      rw [hnothing, Ikcpcb.recv, if_pos hcase]
      exact ⟨rfl, hears⟩
  | cons seg rest =>
      obtain ⟨hbytes, hhalf⟩ := recv_of_cons hcase
      have hcons : k.rcvQueue = toSegment seg :: rest.map toSegment := by
        rw [hqueue, hcase, List.map_cons]
      have hlength : k.rcvQueue.length = kcp.rcvQueue.length := by
        rw [hqueue, List.length_map]
      have hmessage : Kcp.Receiving.takeMessage k.rcvQueue =
          ((Ikcpcb.merge kcp.rcvQueue).1, (Ikcpcb.merge kcp.rcvQueue).2.map toSegment) := by
        rw [hqueue, takeMessage_map]
      have hfrg : (toSegment seg).frg = seg.frg := rfl
      rw [Hears, hbytes, hhalf, recv_of_segment hcons, hmessage, hlength, hfrg]
      split
      · exact ⟨rfl, hears⟩
      · refine ⟨rfl, ?_⟩
        have hsame : Kcp.Receiving.unacked
            { k with rcvQueue := (Ikcpcb.merge kcp.rcvQueue).2.map toSegment } =
              { receivingHalf kcp with
                rcvQueue := (Ikcpcb.merge kcp.rcvQueue).2.map toSegment } := by
          rw [← hears]
          rfl
        rw [Kcp.Receiving.unacked_deliver, hsame, hbuf]

theorem receivingHalf_unqueued (kcp : Ikcpcb) : receivingHalf kcp.unqueued = receivingHalf kcp :=
  rfl

theorem receivingHalf_send (kcp : Ikcpcb) (data : List UInt8) :
    receivingHalf (Kcp.ikcpcb.send data kcp).2 = receivingHalf kcp := by
  have hsend : (Kcp.ikcpcb.send data kcp).2 = (kcp.send data).2 := rfl
  rw [hsend, ← receivingHalf_unqueued, kcp.unqueued_send, receivingHalf_unqueued]

theorem sendLoop_receiving (rounds : ℕ) (rest : List UInt8) (k : Kcp.Receiving) :
    Kcp.receiving.sendLoop rounds rest k = k := by
  induction rounds generalizing rest with
  | zero => rfl
  | succ rounds ih =>
      rw [Kcp.sendLoop]
      split
      · rfl
      · exact ih _

/-- Sending makes no difference. -/
theorem Hears.sendChunk (hears : Hears kcp k) (rawPayload : List UInt8) :
    Hears (Kcp.ikcpcb.sendChunk rawPayload kcp) (Kcp.receiving.sendChunk rawPayload k) := by
  rw [Kcp.sendChunk, Kcp.sendChunk, sendLoop_receiving]
  generalize (toInt (frame rawPayload).length).toNat = totalSize
  have hsent := Kcp.sendLoop_induct (K := Kcp.ikcpcb) (motive := fun kcp => Hears kcp k) hears
    (fun data kcp hears => hears.of_same (receivingHalf_send kcp data)) totalSize
    ((frame rawPayload).take totalSize)
  exact hsent.flush

end Hears

end Sxaint.Net
