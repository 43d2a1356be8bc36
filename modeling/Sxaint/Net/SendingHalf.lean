/-
# The sending half of a stream

What a control block sends depends on the segments it reads only through their windows and
acknowledgements. Its sending half, by itself, accepts the same bytes, numbers the same segments and
keeps the same of them as the whole, if the whole is set up as a transport does it.
-/

import Sxaint.Net.KcpSend
import Sxaint.Net.ReceivingHalf

namespace Sxaint.Net

open Sxaint.Ikcp (Ikcpcb Packet Seg cmdAck cmdPush)

namespace Kcp.Sending

theorem conv_parseAck (kcp : Sending) (sn : UInt32) : (kcp.parseAck sn).conv = kcp.conv := by
  rw [parseAck]
  split <;> rfl

theorem conv_shrinkBuf (kcp : Sending) : kcp.shrinkBuf.conv = kcp.conv :=
  rfl

theorem conv_receive (cmd : UInt8) (wnd sn una : UInt32) (kcp : Sending) :
    (kcp.receive cmd wnd sn una).conv = kcp.conv := by
  rw [receive]
  have hshrunk : (parseUna una { kcp with rmtWnd := wnd }).shrinkBuf.conv = kcp.conv := rfl
  generalize (parseUna una { kcp with rmtWnd := wnd }).shrinkBuf = shrunk at hshrunk ⊢
  split
  · rw [conv_shrinkBuf, conv_parseAck, hshrunk]
  · exact hshrunk

/-- A window in a datagram has 16 bits. -/
theorem wnd_eq {data : List UInt8} :
    UInt32.ofNat (LittleEndian.decode (Buffer.block data 6 2)) =
      (UInt16.ofNat (LittleEndian.decode (Buffer.block data 6 2))).toUInt32 := by
  have hlt := LittleEndian.decode_lt (Buffer.block data 6 2)
  have hsize : (Buffer.block data 6 2).length ≤ 2 := by
    rw [Buffer.length_block]
    exact Nat.min_le_left _ _
  have hpow : 256 ^ (Buffer.block data 6 2).length ≤ 256 ^ 2 :=
    Nat.pow_le_pow_right (by decide) hsize
  generalize LittleEndian.decode (Buffer.block data 6 2) = n at hlt ⊢
  apply UInt32.toNat_inj.mp
  rw [UInt16.toNat_toUInt32, UInt32.toNat_ofNat', UInt16.toNat_ofNat']
  omega

/-- The loop of `ikcp_input` goes over the segments of the datagram. -/
theorem inputLoop_eq (rounds : ℕ) (data : List UInt8) (kcp : Sending) :
    inputLoop rounds data kcp =
      (Ikcp.segmentsLoop kcp.conv rounds data).1.foldl
        (fun read p => read.receive p.cmd p.wnd.toUInt32 p.sn p.una) kcp := by
  apply loop_eq (fun p kcp => kcp.conv_receive p.cmd p.wnd.toUInt32 p.sn p.una) (fun _ _ => rfl)
  intro rounds data kcp
  rw [inputLoop, wnd_eq]
  exact front_eq kcp.conv data kcp fun p left =>
    inputLoop rounds left (kcp.receive p.cmd p.wnd.toUInt32 p.sn p.una)

end Kcp.Sending

/-- A numbered segment, as the sending half has it. -/
def toNumbered (seg : Seg) : Kcp.Numbered where
  sn := seg.sn
  data := seg.data

/-- What a control block has of its sending half. -/
def sendingHalf (kcp : Ikcpcb) : Kcp.Sending where
  conv := kcp.conv
  sndUna := kcp.sndUna
  sndNxt := kcp.sndNxt
  sndWnd := kcp.sndWnd
  rmtWnd := kcp.rmtWnd
  tsFlush := kcp.tsFlush
  updated := kcp.updated
  sndQueue := kcp.sndQueue.map Seg.data
  sndBuf := kcp.sndBuf.map toNumbered

/-- A control block and a sending half that have the same to send, and have numbered the same. -/
structure Sends (kcp : Ikcpcb) (k : Kcp.Sending) : Prop where
  conv : k.conv = kcp.conv
  sndUna : k.sndUna = kcp.sndUna
  sndNxt : k.sndNxt = kcp.sndNxt
  sndWnd : k.sndWnd = kcp.sndWnd
  rmtWnd : k.rmtWnd = kcp.rmtWnd
  tsFlush : k.tsFlush = kcp.tsFlush
  updated : k.updated = kcp.updated
  sndQueue : k.sndQueue = kcp.sndQueue.map Seg.data
  sndBuf : k.sndBuf = kcp.sndBuf.map toNumbered
  numbered : k.numbered.map Kcp.Numbered.data = kcp.numbered.map Prod.snd

/-- What the set-up of a transport assigns for the sending half: a stream of segments of one size,
without a congestion window, with the shortest interval. -/
structure Plain (kcp : Ikcpcb) : Prop where
  ample : Ample kcp
  nocwnd : kcp.nocwnd = true
  interval : kcp.interval = Kcp.interval

theorem Plain.of_configuration {kcp kcp' : Ikcpcb} (plain : Plain kcp)
    (same : kcp'.configuration = kcp.configuration) : Plain kcp' := by
  have hinterval : kcp'.interval = kcp.interval := (congrArg (fun c => c.2.2.2.2.2.2.1) same :)
  have hnocwnd : kcp'.nocwnd = kcp.nocwnd := (congrArg (fun c => c.2.2.2.2.2.2.2.2.2.1) same :)
  exact ⟨plain.ample.of_configuration same, hnocwnd.trans plain.nocwnd,
    hinterval.trans plain.interval⟩

section Sends

variable {kcp : Ikcpcb} {k : Kcp.Sending}

/-- What does not change the sending half does not change what is to be sent. -/
theorem Sends.of_same {kcp' : Ikcpcb} (sends : Sends kcp k)
    (same : sendingHalf kcp' = sendingHalf kcp) (numbered : kcp'.numbered = kcp.numbered) :
    Sends kcp' k where
  conv := sends.conv.trans (congrArg Kcp.Sending.conv same).symm
  sndUna := sends.sndUna.trans (congrArg Kcp.Sending.sndUna same).symm
  sndNxt := sends.sndNxt.trans (congrArg Kcp.Sending.sndNxt same).symm
  sndWnd := sends.sndWnd.trans (congrArg Kcp.Sending.sndWnd same).symm
  rmtWnd := sends.rmtWnd.trans (congrArg Kcp.Sending.rmtWnd same).symm
  tsFlush := sends.tsFlush.trans (congrArg Kcp.Sending.tsFlush same).symm
  updated := sends.updated.trans (congrArg Kcp.Sending.updated same).symm
  sndQueue := sends.sndQueue.trans (congrArg Kcp.Sending.sndQueue same).symm
  sndBuf := sends.sndBuf.trans (congrArg Kcp.Sending.sndBuf same).symm
  numbered := by
    rw [numbered]
    exact sends.numbered

/-- As many segments are pending. -/
theorem Sends.waitSnd (sends : Sends kcp k) : k.waitSnd = kcp.waitsnd := by
  rw [Kcp.Sending.waitSnd, Ikcpcb.waitsnd, sends.sndBuf, sends.sndQueue, List.length_map,
    List.length_map]

/-! ### Flushing -/

theorem Sends.fill {cwnd wnd : UInt32} {queue : List Seg}
    (sends : Sends { kcp with sndQueue := queue } { k with sndQueue := queue.map Seg.data }) :
    Sends (Ikcpcb.fill cwnd wnd queue kcp) (Kcp.Sending.fill cwnd (queue.map Seg.data) k) := by
  induction queue generalizing kcp k with
  | nil => exact sends
  | cons newseg rest ih =>
      have hsame : Kcp.itimediff k.sndNxt (k.sndUna + cwnd) < 0 ↔
          Kcp.itimediff kcp.sndNxt (kcp.sndUna + cwnd) < 0 := by
        rw [(sends.sndNxt : k.sndNxt = kcp.sndNxt), (sends.sndUna : k.sndUna = kcp.sndUna)]
      rw [Ikcpcb.fill, List.map_cons, Kcp.Sending.fill]
      by_cases hopen : Kcp.itimediff kcp.sndNxt (kcp.sndUna + cwnd) < 0
      · rw [if_pos hopen, if_pos (hsame.mpr hopen)]
        have hsndNxt : k.sndNxt = kcp.sndNxt := sends.sndNxt
        have hsndBuf : k.sndBuf = kcp.sndBuf.map toNumbered := sends.sndBuf
        have hnumbered : k.numbered.map Kcp.Numbered.data = kcp.numbered.map Prod.snd :=
          sends.numbered
        apply ih
        constructor
        · exact sends.conv
        · exact sends.sndUna
        · exact congrArg (· + 1) hsndNxt
        · exact sends.sndWnd
        · exact sends.rmtWnd
        · exact sends.tsFlush
        · exact sends.updated
        · rfl
        · dsimp only [Ikcpcb.numberFirst]
          rw [List.map_append, hsndBuf, hsndNxt]
          rfl
        · dsimp only [Ikcpcb.numberFirst]
          rw [List.map_append, List.map_append, hnumbered]
          rfl
      · rw [if_neg hopen, if_neg (mt hsame.mp hopen)]
        exact sends

theorem sendingHalf_askWindow (kcp : Ikcpcb) :
    sendingHalf kcp.askWindow = sendingHalf kcp := by
  have hunasked (kcp : Ikcpcb) : sendingHalf kcp.unasked = sendingHalf kcp := rfl
  rw [← hunasked, kcp.unasked_askWindow, hunasked]

theorem sendingHalf_answered (kcp : Ikcpcb) :
    sendingHalf { kcp with ackList := [], askSend := false, askTell := false } =
      sendingHalf kcp :=
  rfl

theorem Sends.filled (sends : Sends kcp k) (plain : Plain kcp) :
    Sends kcp.filled (Kcp.Sending.fill (min k.sndWnd k.rmtWnd) k.sndQueue k) := by
  have hasked : Sends { kcp.askWindow with ackList := [], askSend := false, askTell := false } k :=
    sends.of_same ((sendingHalf_answered _).trans (sendingHalf_askWindow kcp))
      (congrArg Ikcpcb.numbered kcp.unasked_askWindow :)
  have hwindow : kcp.askWindow.window = min k.sndWnd k.rmtWnd := by
    have hnocwnd : kcp.askWindow.nocwnd = true :=
      (congrArg Ikcpcb.nocwnd kcp.unasked_askWindow :).trans plain.nocwnd
    rw [Ikcpcb.window, if_pos hnocwnd, hasked.sndWnd, hasked.rmtWnd]
  rw [Ikcpcb.filled, hwindow, sends.sndQueue]
  apply Sends.fill
  exact ⟨hasked.conv, hasked.sndUna, hasked.sndNxt, hasked.sndWnd, hasked.rmtWnd, hasked.tsFlush,
    hasked.updated, rfl, hasked.sndBuf, hasked.numbered⟩

theorem sendingHalf_uncongested (kcp : Ikcpcb) :
    sendingHalf kcp.uncongested = sendingHalf kcp :=
  rfl

theorem sendingHalf_written (kcp : Ikcpcb) (sndBuf : List Seg) (xmit state : UInt32)
    (outputs : List (List UInt8)) (same : sndBuf.map toNumbered = kcp.sndBuf.map toNumbered) :
    sendingHalf { kcp with sndBuf := sndBuf, xmit := xmit, state := state, outputs := outputs } =
      sendingHalf kcp := by
  rw [sendingHalf, same, sendingHalf]

theorem Sends.flush (sends : Sends kcp k) (plain : Plain kcp) : Sends kcp.flush k.flush := by
  rw [Kcp.Sending.flush, sends.updated]
  cases hupdated : kcp.updated with
  | false =>
      rw [Ikcpcb.flush, hupdated]
      exact sends
  | true =>
      have hflush := Ikcpcb.uncongested_flush hupdated
      have hsame : kcp.written.1.map toNumbered = kcp.filled.sndBuf.map toNumbered := by
        have huntimed (segs : List Seg) :
            segs.map toNumbered = (segs.map Seg.untimed).map toNumbered := by
          rw [List.map_map]
          rfl
        rw [huntimed, kcp.untimed_written, ← huntimed]
      rw [if_pos rfl]
      apply (sends.filled plain).of_same
      · rw [← sendingHalf_uncongested, hflush, sendingHalf_uncongested]
        exact sendingHalf_written _ _ _ _ _ hsame
      · exact (congrArg Ikcpcb.numbered hflush :)

theorem Sends.clock (sends : Sends kcp k) (current tsFlush : UInt32) :
    Sends (kcp.clock current tsFlush) { k with updated := true, tsFlush := tsFlush } :=
  ⟨sends.conv, sends.sndUna, sends.sndNxt, sends.sndWnd, sends.rmtWnd, rfl, rfl, sends.sndQueue,
    sends.sndBuf, sends.numbered⟩

theorem Sends.update (sends : Sends kcp k) (plain : Plain kcp) (current : UInt32) :
    Sends (kcp.update current) (k.update current) := by
  have hdue : k.due current = kcp.due current := by
    rw [Kcp.Sending.due, Ikcpcb.due, sends.updated, sends.tsFlush]
  rw [Kcp.Sending.update, Ikcpcb.update, hdue]
  dsimp only
  rw [plain.interval]
  split
  · apply (sends.clock current _).flush
    exact plain.of_configuration rfl
  · exact sends.clock current _

/-! ### Reading -/

theorem Sends.shrinkBuf (sends : Sends kcp k) : Sends kcp.shrinkBuf k.shrinkBuf := by
  refine ⟨sends.conv, ?_, sends.sndNxt, sends.sndWnd, sends.rmtWnd, sends.tsFlush, sends.updated,
    sends.sndQueue, sends.sndBuf, sends.numbered⟩
  rw [Kcp.Sending.shrinkBuf, Ikcpcb.shrinkBuf, sends.sndBuf, sends.sndNxt]
  cases kcp.sndBuf with
  | nil => rfl
  | cons seg rest => rfl

theorem Sends.sndBuf_of (sends : Sends kcp k) {sndBuf : List Seg} {left : List Kcp.Numbered}
    (same : left = sndBuf.map toNumbered) (acknowledged : List Kcp.Numbered) :
    Sends { kcp with sndBuf := sndBuf }
      { k with sndBuf := left, acknowledged := acknowledged } :=
  ⟨sends.conv, sends.sndUna, sends.sndNxt, sends.sndWnd, sends.rmtWnd, sends.tsFlush,
    sends.updated, sends.sndQueue, same, sends.numbered⟩

theorem sendingHalf_sndBuf (kcp : Ikcpcb) {sndBuf : List Seg}
    (same : sndBuf.map toNumbered = kcp.sndBuf.map toNumbered) :
    sendingHalf { kcp with sndBuf := sndBuf } = sendingHalf kcp := by
  rw [sendingHalf, same, sendingHalf]

theorem Sends.parseUna (sends : Sends kcp k) (una : UInt32) :
    Sends (kcp.parseUna una) (k.parseUna una) := by
  have hcomp : (fun segment : Kcp.Numbered => decide (Kcp.itimediff una segment.sn > 0)) ∘
      toNumbered = fun seg => decide (Kcp.itimediff una seg.sn > 0) := by
    funext seg
    have hsn : (toNumbered seg).sn = seg.sn := rfl
    rw [Function.comp_apply, hsn]
  rw [Kcp.Sending.parseUna, Ikcpcb.parseUna]
  apply sends.sndBuf_of
  rw [sends.sndBuf, List.dropWhile_map, hcomp]

theorem Sends.rmtWnd_of (sends : Sends kcp k) (wnd : UInt32) :
    Sends { kcp with rmtWnd := wnd } { k with rmtWnd := wnd } :=
  ⟨sends.conv, sends.sndUna, sends.sndNxt, sends.sndWnd, rfl, sends.tsFlush, sends.updated,
    sends.sndQueue, sends.sndBuf, sends.numbered⟩

theorem Sends.heed (sends : Sends kcp k) (p : Packet) :
    Sends (kcp.heed p)
      (Kcp.Sending.parseUna p.una { k with rmtWnd := p.wnd.toUInt32 }).shrinkBuf :=
  ((sends.rmtWnd_of p.wnd.toUInt32).parseUna p.una).shrinkBuf

theorem removeAcked_map (sn : UInt32) (segs : List Seg) :
    (Kcp.Sending.removeAcked sn (segs.map toNumbered)).2 =
      (Ikcpcb.removeAcked sn segs).map toNumbered := by
  induction segs with
  | nil => rfl
  | cons seg rest ih =>
      have hsn : (toNumbered seg).sn = seg.sn := rfl
      rw [List.map_cons, Kcp.Sending.removeAcked, Ikcpcb.removeAcked, hsn]
      split
      · rfl
      split
      · rfl
      · exact congrArg (List.cons (toNumbered seg)) ih

theorem Sends.parseAck (sends : Sends kcp k) (sn : UInt32) :
    Sends (kcp.parseAck sn) (k.parseAck sn) := by
  have hflight : (Kcp.itimediff sn k.sndUna < 0 ∨ Kcp.itimediff sn k.sndNxt ≥ 0) ↔
      ¬kcp.inFlight sn := by
    rw [sends.sndUna, sends.sndNxt, Ikcpcb.inFlight, not_and_or, not_le, not_lt]
  rw [Kcp.Sending.parseAck, Ikcpcb.parseAck]
  by_cases hinside : kcp.inFlight sn
  · rw [if_neg fun h => hflight.mp h hinside, if_pos hinside]
    apply sends.sndBuf_of
    rw [sends.sndBuf]
    exact removeAcked_map sn kcp.sndBuf
  · rw [if_pos (hflight.mpr hinside), if_neg hinside]
    exact sends

theorem sendingHalf_times (kcp : Ikcpcb) (srtt rttval rto : Int32) :
    sendingHalf { kcp with rxSrtt := srtt, rxRttval := rttval, rxRto := rto } =
      sendingHalf kcp :=
  rfl

theorem Sends.acknowledge (sends : Sends kcp k) (p : Packet) :
    Sends (kcp.acknowledge p) (k.parseAck p.sn).shrinkBuf := by
  rw [Ikcpcb.acknowledge]
  split
  · apply Sends.shrinkBuf
    apply Sends.parseAck
    exact sends.of_same (sendingHalf_times kcp _ _ _) rfl
  · exact (sends.parseAck p.sn).shrinkBuf

theorem sendingHalf_unpushed (kcp : Ikcpcb) : sendingHalf kcp.unpushed = sendingHalf kcp :=
  rfl

theorem numbered_unpushed (kcp : Ikcpcb) : kcp.unpushed.numbered = kcp.numbered :=
  rfl

theorem Sends.push (sends : Sends kcp k) (p : Packet) : Sends (kcp.push p) k := by
  apply sends.of_same
  · rw [← sendingHalf_unpushed, kcp.unpushed_push, sendingHalf_unpushed]
  · rw [← numbered_unpushed, kcp.unpushed_push, numbered_unpushed]

theorem sendingHalf_askTell (kcp : Ikcpcb) (askTell : Bool) :
    sendingHalf { kcp with askTell := askTell } = sendingHalf kcp :=
  rfl

theorem Sends.receive (sends : Sends kcp k) (p : Packet) (latest : Option (UInt32 × UInt32)) :
    Sends (kcp.receive p latest).2 (k.receive p.cmd p.wnd.toUInt32 p.sn p.una) := by
  have hheed := sends.heed p
  rw [Kcp.Sending.receive]
  generalize (Kcp.Sending.parseUna p.una { k with rmtWnd := p.wnd.toUInt32 }).shrinkBuf = shrunk
    at hheed ⊢
  simp only [Ikcpcb.receive]
  by_cases hack : p.cmd = cmdAck
  · rw [if_pos hack]
    refine Eq.subst (motive := Sends _) (if_pos hack).symm ?_
    exact hheed.acknowledge p
  refine Eq.subst (motive := Sends _) (if_neg hack).symm ?_
  rw [if_neg hack]
  split
  · dsimp only
    exact hheed.push p
  split
  · exact hheed.of_same (sendingHalf_askTell (kcp.heed p) true) rfl
  · exact hheed

theorem sendingHalf_ungrown (kcp : Ikcpcb) : sendingHalf kcp.ungrown = sendingHalf kcp :=
  rfl

theorem numbered_ungrown (kcp : Ikcpcb) : kcp.ungrown.numbered = kcp.numbered :=
  rfl

theorem Sends.conclude (sends : Sends kcp k) (una : UInt32)
    (latest : Option (UInt32 × UInt32)) : Sends (kcp.conclude una latest) k := by
  have huntimed (segs : List Seg) :
      segs.map toNumbered = (segs.map Seg.untimed).map toNumbered := by
    rw [List.map_map]
    rfl
  have hcounted : Sends (kcp.counted latest) k := by
    cases latest with
    | none => exact sends
    | some last =>
        obtain ⟨maxack, latestTs⟩ := last
        rw [Ikcpcb.counted, Ikcpcb.parseFastack]
        refine sends.of_same (sendingHalf_sndBuf kcp ?_) rfl
        split
        · rw [huntimed, Ikcpcb.untimed_countFastack, ← huntimed]
        · rfl
  apply hcounted.of_same
  · rw [← sendingHalf_ungrown, Ikcpcb.ungrown_conclude, sendingHalf_ungrown]
  · rw [← numbered_ungrown, Ikcpcb.ungrown_conclude, numbered_ungrown]

theorem Sends.input (sends : Sends kcp k) (data : List UInt8) :
    Sends (kcp.input data).2 (k.input data) := by
  rw [Kcp.Sending.input, Kcp.Sending.inputLoop_eq, sends.conv, Ikcpcb.input]
  split
  · rename_i hshort
    rw [segmentsLoop_of_short hshort]
    exact sends
  · rw [Ikcpcb.inputLoop_eq]
    have hfold (packets : List Packet) (latest : Option (UInt32 × UInt32)) (kcp : Ikcpcb)
        (k : Kcp.Sending) (sends : Sends kcp k) :
        Sends (packets.foldl (fun read p => read.2.receive p read.1) (latest, kcp)).2
          (packets.foldl (fun read p => read.receive p.cmd p.wnd.toUInt32 p.sn p.una) k) := by
      induction packets generalizing latest kcp k with
      | nil => exact sends
      | cons p rest ih => exact ih _ _ _ (sends.receive p latest)
    have hread := hfold (Ikcp.segmentsLoop kcp.conv data.length data).1 none kcp k sends
    dsimp only
    split
    · exact hread
    · exact hread.conclude _ _

/-! ### Queueing -/

theorem sendingHalf_unreceived (kcp : Ikcpcb) :
    sendingHalf kcp.unreceived = sendingHalf kcp :=
  rfl

/-- What is read makes no difference. -/
theorem Sends.recv (sends : Sends kcp k) : Sends (Kcp.ikcpcb.recv kcp).2 k := by
  have hrecv := kcp.unreceived_recv Kcp.recvBufSize
  apply sends.of_same
  · have hhalf : sendingHalf (kcp.recv Kcp.recvBufSize).2.2 = sendingHalf kcp := by
      rw [← sendingHalf_unreceived, hrecv, sendingHalf_unreceived]
    exact hhalf
  · exact (congrArg Ikcpcb.numbered hrecv :)

theorem Sends.sndQueue_of (sends : Sends kcp k) {queue : List Seg} {rest : List (List UInt8)}
    (same : rest = queue.map Seg.data) :
    Sends { kcp with sndQueue := queue } { k with sndQueue := rest } :=
  ⟨sends.conv, sends.sndUna, sends.sndNxt, sends.sndWnd, sends.rmtWnd, sends.tsFlush,
    sends.updated, same, sends.sndBuf, sends.numbered⟩

theorem toNat_mss (ample : Ample kcp) : kcp.mss.toNat = Kcp.mss := by
  rw [ample.2]
  rfl

theorem Sends.capacity (sends : Sends kcp k) (ample : Ample kcp) :
    k.capacity = kcp.capacity := by
  unfold Kcp.Sending.capacity Ikcpcb.capacity
  rw [sends.sndQueue, List.getLast?_map, ample.1, toNat_mss ample]
  cases kcp.sndQueue.getLast? with
  | none => rfl
  | some old => rfl

theorem Sends.extend (sends : Sends kcp k) (ample : Ample kcp) (data : List UInt8) :
    Sends (kcp.extend data) (k.extend data) := by
  have hcapacity := sends.capacity ample
  unfold Kcp.Sending.extend Ikcpcb.extend
  rw [hcapacity]
  have hlast : k.sndQueue.getLast? = kcp.sndQueue.getLast?.map Seg.data := by
    rw [sends.sndQueue, List.getLast?_map]
  rw [hlast]
  cases hold : kcp.sndQueue.getLast? with
  | none => exact sends
  | some old =>
      dsimp only [Option.map_some]
      split
      · apply sends.sndQueue_of
        rw [sends.sndQueue, List.map_append, List.map_dropLast]
        rfl
      · rename_i hfull
        have hroom : kcp.capacity = 0 := by
          rw [Ikcpcb.capacity, ample.1, hold]
          exact Nat.sub_eq_zero_of_le (Nat.le_of_not_lt fun h => hfull ⟨ample.1, h⟩)
        have hsame : k.sndQueue.dropLast ++ [old.data ++ data.take kcp.capacity] =
            kcp.sndQueue.map Seg.data := by
          rw [hroom, List.take_zero, List.append_nil, ← sends.sndQueue]
          apply List.dropLast_append_getLast?
          rw [hlast, hold]
          rfl
        exact sends.sndQueue_of hsame

theorem fragments_map (count : ℕ) (data : List UInt8) :
    Kcp.Sending.fragments count data =
      (Ikcpcb.fragments true Kcp.mss count data).map Seg.data := by
  induction count generalizing data with
  | zero => rfl
  | succ count ih =>
      rw [Kcp.Sending.fragments, Ikcpcb.fragments, List.map_cons, ih]

/-- A sending half takes what the control block takes. -/
theorem Sends.send (sends : Sends kcp k) (ample : Ample kcp) (data : List UInt8) :
    (k.send data).1 = decide (0 ≤ (kcp.send data).1) ∧ Sends (kcp.send data).2 (k.send data).2 := by
  have hextend := sends.extend ample data
  have hlength : (data.drop kcp.capacity).length = data.length - kcp.capacity := List.length_drop
  rw [Kcp.Sending.send, Ikcpcb.send, sends.capacity ample, toNat_mss ample]
  generalize k.extend data = after at hextend
  generalize kcp.extend data = extended at hextend
  generalize data.drop kcp.capacity = left at hlength
  dsimp only
  by_cases hnil : left = []
  · rw [if_pos hnil, if_pos ⟨ample.1, hnil⟩]
    exact ⟨(decide_eq_true (Int.natCast_nonneg _)).symm, hextend⟩
  have hmore : ¬(kcp.stream = true ∧ left = []) := fun h => hnil h.2
  rw [if_neg hnil, if_neg hmore]
  have hcount : (if left.length ≤ Kcp.mss then 1 else (left.length + Kcp.mss - 1) / Kcp.mss) =
      Ikcpcb.fragmentCount Kcp.mss left.length :=
    rfl
  rw [hcount]
  generalize Ikcpcb.fragmentCount Kcp.mss left.length = count
  by_cases hmany : count ≥ Ikcp.wndRcv
  · have hmany' : count ≥ Kcp.wndRcv := hmany
    rw [if_pos hmany, if_pos hmany']
    -- what fills the last segment counts, even if the rest is refused
    have hsent : data.length - left.length = kcp.capacity := by
      have hpositive := List.length_pos_iff.mpr hnil
      omega
    rw [hsent]
    by_cases hroom : 0 < kcp.capacity
    · rw [if_pos ⟨ample.1, hroom⟩, decide_eq_true hroom]
      exact ⟨(decide_eq_true (Int.natCast_nonneg _)).symm, hextend⟩
    · have hnone : ¬(kcp.stream = true ∧ 0 < kcp.capacity) := fun h => hroom h.2
      rw [if_neg hnone, decide_eq_false hroom]
      exact ⟨rfl, hextend⟩
  · have hfew' : ¬count ≥ Kcp.wndRcv := hmany
    rw [if_neg hmany, if_neg hfew']
    refine ⟨(decide_eq_true (Int.natCast_nonneg _)).symm, hextend.sndQueue_of ?_⟩
    rw [List.map_append, hextend.sndQueue, fragments_map, ample.1]

theorem Sends.sendLoop (sends : Sends kcp k) (ample : Ample kcp) (rounds : ℕ)
    (rest : List UInt8) :
    Sends (Kcp.ikcpcb.sendLoop rounds rest kcp) (Kcp.sending.sendLoop rounds rest k) := by
  induction rounds generalizing kcp k rest with
  | zero => exact sends
  | succ rounds ih =>
      rw [Kcp.sendLoop, Kcp.sendLoop]
      split
      · exact sends
      obtain ⟨hcode, hsent⟩ := sends.send ample (rest.take maxSendSize.toNat)
      have hample : Ample (kcp.send (rest.take maxSendSize.toNat)).2 :=
        ample.of_configuration (kcp.configuration_apply (.send _))
      have hwhole : Kcp.ikcpcb.send (rest.take maxSendSize.toNat) kcp =
          (decide (0 ≤ (kcp.send (rest.take maxSendSize.toNat)).1),
            (kcp.send (rest.take maxSendSize.toNat)).2) :=
        rfl
      have hhalf : Kcp.sending.send = Kcp.Sending.send := rfl
      rw [hwhole, hhalf]
      generalize k.send (rest.take maxSendSize.toNat) = result at hcode hsent
      obtain ⟨accepted, after⟩ := result
      rw [← hcode]
      cases accepted with
      | true => exact ih hsent hample _
      | false => exact hsent

theorem configuration_sendLoop (rounds : ℕ) (rest : List UInt8) (kcp : Ikcpcb) :
    (Kcp.ikcpcb.sendLoop rounds rest kcp).configuration = kcp.configuration :=
  Kcp.sendLoop_induct (motive := fun k : Ikcpcb => k.configuration = kcp.configuration) rfl
    (fun data k same => (k.configuration_apply (.send data)).trans same) rounds rest

theorem configuration_sendChunk (rawPayload : List UInt8) (kcp : Ikcpcb) :
    (Kcp.ikcpcb.sendChunk rawPayload kcp).configuration = kcp.configuration := by
  rw [Kcp.sendChunk]
  generalize (toInt (frame rawPayload).length).toNat = totalSize
  have hloop := configuration_sendLoop totalSize ((frame rawPayload).take totalSize) kcp
  generalize Kcp.ikcpcb.sendLoop totalSize ((frame rawPayload).take totalSize) kcp = sent at hloop ⊢
  exact sent.configuration_flush.trans hloop

theorem Sends.sendChunk (sends : Sends kcp k) (plain : Plain kcp) (rawPayload : List UInt8) :
    Sends (Kcp.ikcpcb.sendChunk rawPayload kcp) (Kcp.sending.sendChunk rawPayload k) := by
  rw [Kcp.sendChunk, Kcp.sendChunk]
  generalize (toInt (frame rawPayload).length).toNat = totalSize
  have hsent := sends.sendLoop plain.ample totalSize ((frame rawPayload).take totalSize)
  apply Sends.flush hsent
  exact plain.of_configuration (configuration_sendLoop _ _ _)

end Sends

end Sxaint.Net
