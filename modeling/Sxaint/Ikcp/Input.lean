/-
# Reading a datagram

`ikcp_input`: each segment of a datagram tells the window of the other side and what it has, and
is an acknowledgement, data or a question about the window. Afterwards the congestion window grows
if something was acknowledged.
-/

import Sxaint.Ikcp.Control

namespace Sxaint.Ikcp

open Sxaint.Net (toInt)
open Sxaint.Net.Kcp (itimediff)

namespace Ikcpcb

/-! ## Acknowledgements -/

/-- `ikcp_update_ack`. A `long` has 32 bits as well, and sums wrap. -/
def updateAck (rtt : Int32) (kcp : Ikcpcb) : Ikcpcb :=
  let delta := if rtt - kcp.rxSrtt < 0 then -(rtt - kcp.rxSrtt) else rtt - kcp.rxSrtt
  let rttval := if kcp.rxSrtt = 0 then rtt / 2 else (3 * kcp.rxRttval + delta) / 4
  let smoothed := (7 * kcp.rxSrtt + rtt) / 8
  let srtt := if kcp.rxSrtt = 0 then rtt else if smoothed < 1 then 1 else smoothed
  let rto := srtt.toUInt32 + max kcp.interval (4 * rttval).toUInt32
  { kcp with
    rxSrtt := srtt
    rxRttval := rttval
    rxRto := (ibound kcp.rxMinrto.toUInt32 rto rtoMax).toInt32 }

/-- `ikcp_shrink_buf` -/
def shrinkBuf (kcp : Ikcpcb) : Ikcpcb :=
  { kcp with
    sndUna :=
      match kcp.sndBuf with
      | seg :: _ => seg.sn
      | [] => kcp.sndNxt }

/-- The loop of `ikcp_parse_ack`. -/
def removeAcked (sn : UInt32) : List Seg → List Seg
  | [] => []
  | seg :: rest =>
    if sn = seg.sn then rest
    else if itimediff sn seg.sn < 0 then seg :: rest
    else seg :: removeAcked sn rest

/-- A number between the first that is not acknowledged and the next to be used. -/
def inFlight (kcp : Ikcpcb) (sn : UInt32) : Prop :=
  0 ≤ itimediff sn kcp.sndUna ∧ itimediff sn kcp.sndNxt < 0

instance (kcp : Ikcpcb) (sn : UInt32) : Decidable (kcp.inFlight sn) :=
  inferInstanceAs (Decidable (_ ∧ _))

/-- `ikcp_parse_ack` -/
def parseAck (sn : UInt32) (kcp : Ikcpcb) : Ikcpcb :=
  { kcp with sndBuf := if kcp.inFlight sn then removeAcked sn kcp.sndBuf else kcp.sndBuf }

/-- `ikcp_parse_una` -/
def parseUna (una : UInt32) (kcp : Ikcpcb) : Ikcpcb :=
  { kcp with sndBuf := kcp.sndBuf.dropWhile fun seg => decide (itimediff una seg.sn > 0) }

/-- The loop of `ikcp_parse_fastack`. -/
def countFastack (sn ts : UInt32) : List Seg → List Seg
  | [] => []
  | seg :: rest =>
    if itimediff sn seg.sn < 0 then seg :: rest
    else if sn ≠ seg.sn ∧ itimediff ts seg.ts ≥ 0 then
      { seg with fastack := seg.fastack + 1 } :: countFastack sn ts rest
    else seg :: countFastack sn ts rest

theorem untimed_countFastack (sn ts : UInt32) (segs : List Seg) :
    (countFastack sn ts segs).map Seg.untimed = segs.map Seg.untimed := by
  induction segs with
  | nil => rfl
  | cons seg rest ih =>
      rw [countFastack]
      split
      · rfl
      split
      · exact congrArg (List.cons seg.untimed) ih
      · exact congrArg (List.cons seg.untimed) ih

/-- `ikcp_parse_fastack` -/
def parseFastack (sn ts : UInt32) (kcp : Ikcpcb) : Ikcpcb :=
  { kcp with sndBuf := if kcp.inFlight sn then countFastack sn ts kcp.sndBuf else kcp.sndBuf }

/-! ## Data -/

/-- Put a segment in its place from the end of the buffer, given backwards, unless it is there
already. -/
def insert (newseg : Seg) : List Seg → List Seg
  | [] => [newseg]
  | seg :: earlier =>
    if seg.sn = newseg.sn then seg :: earlier
    else if itimediff newseg.sn seg.sn > 0 then newseg :: seg :: earlier
    else seg :: insert newseg earlier

theorem mem_insert {newseg seg : Seg} {segs : List Seg} (mem : seg ∈ insert newseg segs) :
    seg ∈ segs ∨ seg = newseg := by
  induction segs with
  | nil => exact .inr (List.mem_singleton.mp mem)
  | cons first earlier ih =>
      rw [insert] at mem
      split at mem
      · exact .inl mem
      split at mem
      · exact (List.mem_cons.mp mem).symm
      · rcases List.mem_cons.mp mem with rfl | hmem
        · exact .inl List.mem_cons_self
        · exact (ih hmem).imp (List.mem_cons_of_mem _) id

/-- Afterwards there is a segment of that number. -/
theorem exists_mem_insert (newseg : Seg) (segs : List Seg) :
    ∃ seg ∈ insert newseg segs, seg.sn = newseg.sn := by
  induction segs with
  | nil => exact ⟨newseg, List.mem_singleton_self _, rfl⟩
  | cons first earlier ih =>
      rw [insert]
      split
      · rename_i hrepeat
        exact ⟨first, List.mem_cons_self, hrepeat⟩
      split
      · exact ⟨newseg, List.mem_cons_self, rfl⟩
      · obtain ⟨seg, hmem, hsn⟩ := ih
        exact ⟨seg, List.mem_cons_of_mem _ hmem, hsn⟩

/-- The segment is added, unless there is one of its number. -/
theorem insert_cases (newseg : Seg) (segs : List Seg) :
    insert newseg segs = segs ∨ ∀ seg, seg ∈ insert newseg segs ↔ seg = newseg ∨ seg ∈ segs := by
  induction segs with
  | nil => exact .inr fun seg => List.mem_cons
  | cons first earlier ih =>
      rw [insert]
      split
      · exact .inl rfl
      split
      · exact .inr fun seg => List.mem_cons
      · rcases ih with hsame | hadded
        · exact .inl (by rw [hsame])
        · refine .inr fun seg => ?_
          rw [List.mem_cons, List.mem_cons, hadded]
          exact or_left_comm

/-- `ikcp_parse_data` -/
def parseData (newseg : Seg) (kcp : Ikcpcb) : Ikcpcb :=
  if itimediff newseg.sn (kcp.rcvNxt + kcp.rcvWnd) ≥ 0 ∨ itimediff newseg.sn kcp.rcvNxt < 0 then
    kcp
  else kcp.deliver (insert newseg kcp.rcvBuf.reverse).reverse

/-- `ikcp_ack_push` -/
def ackPush (sn ts : UInt32) (kcp : Ikcpcb) : Ikcpcb :=
  { kcp with ackList := kcp.ackList ++ [(sn, ts)] }

/-- The segment that is made of one that was read. -/
def segOf (p : Packet) : Seg :=
  { conv := p.conv, cmd := p.cmd, frg := p.frg, wnd := p.wnd.toUInt32, ts := p.ts, sn := p.sn,
    una := p.una, data := p.data }

/-- A segment with data was read. -/
def push (p : Packet) (kcp : Ikcpcb) : Ikcpcb :=
  if itimediff p.sn (kcp.rcvNxt + kcp.rcvWnd) < 0 then
    let acked := kcp.ackPush p.sn p.ts
    if itimediff p.sn kcp.rcvNxt ≥ 0 then acked.parseData (segOf p) else acked
  else kcp

/-! ## The loop -/

/-- `maxack` and `latest_ts`, after an acknowledgement was read. -/
def later (sn ts : UInt32) : Option (UInt32 × UInt32) → UInt32 × UInt32
  | none => (sn, ts)
  | some (maxack, latestTs) =>
    if itimediff sn maxack > 0 ∧ itimediff ts latestTs > 0 then (sn, ts) else (maxack, latestTs)

/-- What every segment tells: the window of the other side, and what it has in order. -/
def heed (p : Packet) (kcp : Ikcpcb) : Ikcpcb :=
  (parseUna p.una { kcp with rmtWnd := p.wnd.toUInt32 }).shrinkBuf

/-- An acknowledgement was read. -/
def acknowledge (p : Packet) (kcp : Ikcpcb) : Ikcpcb :=
  let timed :=
    if itimediff kcp.current p.ts ≥ 0 then kcp.updateAck (kcp.current - p.ts).toInt32 else kcp
  (timed.parseAck p.sn).shrinkBuf

/-- A segment was read. -/
def receive (p : Packet) (latest : Option (UInt32 × UInt32)) (kcp : Ikcpcb) :
    Option (UInt32 × UInt32) × Ikcpcb :=
  let heard := kcp.heed p
  if p.cmd = cmdAck then (some (later p.sn p.ts latest), heard.acknowledge p)
  else if p.cmd = cmdPush then (latest, heard.push p)
  else if p.cmd = cmdWask then (latest, { heard with askTell := true })
  else (latest, heard)

/-- The loop of `ikcp_input`, for at most as many rounds as the datagram has bytes. -/
def inputLoop : ℕ → List UInt8 → Option (UInt32 × UInt32) → Ikcpcb →
    ℤ × Option (UInt32 × UInt32) × Ikcpcb
  | 0, _, latest, kcp => (0, latest, kcp)
  | rounds + 1, data, latest, kcp =>
    match front kcp.conv data with
    | .rest => (0, latest, kcp)
    | .refused code => (code, latest, kcp)
    | .segment p left =>
      let (latest, kcp) := kcp.receive p latest
      inputLoop rounds left latest kcp

/-- `cwnd` and `incr` after something was acknowledged. -/
def grown (kcp : Ikcpcb) : UInt32 × UInt32 :=
  if kcp.cwnd < kcp.rmtWnd then
    let mss := kcp.mss
    let least := max kcp.incr mss
    let sum := least + mss * mss / least + mss / 16
    let incr := if kcp.cwnd < kcp.ssthresh then kcp.incr + mss else sum
    let cwnd :=
      if kcp.cwnd < kcp.ssthresh then kcp.cwnd + 1
      else if (kcp.cwnd + 1) * mss ≤ sum then (sum + mss - 1) / (if mss > 0 then mss else 1)
      else kcp.cwnd
    if cwnd > kcp.rmtWnd then (kcp.rmtWnd, kcp.rmtWnd * mss) else (cwnd, incr)
  else (kcp.cwnd, kcp.incr)

/-- `ikcp_parse_fastack`, if an acknowledgement was read. -/
def counted (latest : Option (UInt32 × UInt32)) (kcp : Ikcpcb) : Ikcpcb :=
  match latest with
  | some (maxack, latestTs) => kcp.parseFastack maxack latestTs
  | none => kcp

/-- What is left to do when the end of a datagram is reached. -/
def conclude (prevUna : UInt32) (latest : Option (UInt32 × UInt32)) (kcp : Ikcpcb) : Ikcpcb :=
  let grown :=
    if itimediff kcp.sndUna prevUna > 0 then kcp.grown else (kcp.cwnd, kcp.incr)
  { kcp.counted latest with cwnd := grown.1, incr := grown.2 }

/-- `ikcp_input` -/
def input (data : List UInt8) (kcp : Ikcpcb) : ℤ × Ikcpcb :=
  if data.length < Net.Kcp.overhead then (-1, kcp)
  else
    let (code, latest, read) := inputLoop data.length data none kcp
    if code ≠ 0 then (code, read) else (0, read.conclude kcp.sndUna latest)

/-! ## What reading leaves alone -/

/-- A control block without what is assigned when it is told of the other side. -/
def unheard (kcp : Ikcpcb) : Ikcpcb :=
  { kcp with
    sndUna := 0
    rxRttval := 0
    rxSrtt := 0
    rxRto := 0
    rmtWnd := 0
    cwnd := 0
    askTell := false
    incr := 0
    sndBuf := [] }

theorem unheard_shrinkBuf (kcp : Ikcpcb) : kcp.shrinkBuf.unheard = kcp.unheard :=
  rfl

theorem unheard_sndBuf (kcp : Ikcpcb) (sndBuf : List Seg) :
    unheard { kcp with sndBuf := sndBuf } = kcp.unheard :=
  rfl

theorem unheard_times (kcp : Ikcpcb) (srtt rttval rto : Int32) :
    unheard { kcp with rxSrtt := srtt, rxRttval := rttval, rxRto := rto } = kcp.unheard :=
  rfl

theorem unheard_heed (kcp : Ikcpcb) (p : Packet) : (kcp.heed p).unheard = kcp.unheard :=
  rfl

theorem unheard_parseAck (kcp : Ikcpcb) (sn : UInt32) :
    (kcp.parseAck sn).shrinkBuf.unheard = kcp.unheard :=
  (unheard_shrinkBuf _).trans (unheard_sndBuf kcp _)

theorem unheard_acknowledge (kcp : Ikcpcb) (p : Packet) :
    (kcp.acknowledge p).unheard = kcp.unheard := by
  rw [acknowledge]
  split
  · exact (unheard_parseAck _ _).trans (unheard_times kcp _ _ _)
  · exact kcp.unheard_parseAck p.sn

/-- A control block without its congestion window. -/
def ungrown (kcp : Ikcpcb) : Ikcpcb :=
  { kcp with cwnd := 0, incr := 0 }

theorem ungrown_cwnd (kcp : Ikcpcb) (cwnd incr : UInt32) :
    ungrown { kcp with cwnd := cwnd, incr := incr } = kcp.ungrown :=
  rfl

theorem ungrown_conclude (kcp : Ikcpcb) (una : UInt32) (latest : Option (UInt32 × UInt32)) :
    (kcp.conclude una latest).ungrown = (kcp.counted latest).ungrown :=
  ungrown_cwnd (kcp.counted latest) _ _

theorem unheard_ungrown (kcp : Ikcpcb) : kcp.ungrown.unheard = kcp.unheard :=
  rfl

theorem unheard_conclude (kcp : Ikcpcb) (una : UInt32) (latest : Option (UInt32 × UInt32)) :
    (kcp.conclude una latest).unheard = kcp.unheard := by
  rw [← unheard_ungrown, ungrown_conclude, unheard_ungrown]
  cases latest with
  | none => rfl
  | some last => exact unheard_sndBuf kcp _

/-- A control block without what reading a segment with data assigns. -/
def unpushed (kcp : Ikcpcb) : Ikcpcb :=
  { kcp.undelivered with ackList := [] }

theorem unpushed_ackList (kcp : Ikcpcb) (ackList : List (UInt32 × UInt32)) :
    unpushed { kcp with ackList := ackList } = kcp.unpushed :=
  rfl

theorem unpushed_parseData (kcp : Ikcpcb) (newseg : Seg) :
    (kcp.parseData newseg).unpushed = kcp.unpushed := by
  rw [parseData]
  split
  · rfl
  · exact congrArg (fun k : Ikcpcb => { k with ackList := [] }) (kcp.undelivered_deliver _)

theorem unpushed_push (kcp : Ikcpcb) (p : Packet) : (kcp.push p).unpushed = kcp.unpushed := by
  rw [push]
  split
  · dsimp only
    split
    · exact (unpushed_parseData _ _).trans (unpushed_ackList kcp _)
    · exact unpushed_ackList kcp _
  · rfl

/-- A control block without what reading assigns. -/
def unread (kcp : Ikcpcb) : Ikcpcb :=
  kcp.unheard.unpushed

theorem unread_askTell (kcp : Ikcpcb) (askTell : Bool) :
    unread { kcp with askTell := askTell } = kcp.unread :=
  rfl

theorem unread_heed (kcp : Ikcpcb) (p : Packet) : (kcp.heed p).unread = kcp.unread :=
  congrArg unpushed (kcp.unheard_heed p)

theorem unread_acknowledge (kcp : Ikcpcb) (p : Packet) :
    (kcp.acknowledge p).unread = kcp.unread :=
  congrArg unpushed (kcp.unheard_acknowledge p)

theorem unpushed_unheard (kcp : Ikcpcb) : kcp.unheard.unpushed = kcp.unpushed.unheard :=
  rfl

theorem unread_push (kcp : Ikcpcb) (p : Packet) : (kcp.push p).unread = kcp.unread := by
  rw [unread, unread, unpushed_unheard, unpushed_unheard, unpushed_push]

theorem unread_conclude (kcp : Ikcpcb) (una : UInt32) (latest : Option (UInt32 × UInt32)) :
    (kcp.conclude una latest).unread = kcp.unread :=
  congrArg unpushed (kcp.unheard_conclude una latest)

theorem unread_receive (kcp : Ikcpcb) (p : Packet) (latest : Option (UInt32 × UInt32)) :
    (kcp.receive p latest).2.unread = kcp.unread := by
  simp only [receive]
  split
  · exact (unread_acknowledge (kcp.heed p) p).trans (kcp.unread_heed p)
  split
  · dsimp only
    exact (unread_push (kcp.heed p) p).trans (kcp.unread_heed p)
  split
  · exact (unread_askTell (kcp.heed p) true).trans (kcp.unread_heed p)
  · exact kcp.unread_heed p

theorem conv_receive (kcp : Ikcpcb) (p : Packet) (latest : Option (UInt32 × UInt32)) :
    (kcp.receive p latest).2.conv = kcp.conv :=
  (congrArg Ikcpcb.conv (kcp.unread_receive p latest) :)

/-! ## One segment after another -/

/-- The loop goes over the segments of the datagram. -/
theorem inputLoop_eq (rounds : ℕ) (data : List UInt8) (latest : Option (UInt32 × UInt32))
    (kcp : Ikcpcb) :
    inputLoop rounds data latest kcp =
      ((segmentsLoop kcp.conv rounds data).2,
        (segmentsLoop kcp.conv rounds data).1.foldl (fun read p => read.2.receive p read.1)
          (latest, kcp)) := by
  induction rounds generalizing data latest kcp with
  | zero => rfl
  | succ rounds ih =>
      rw [inputLoop, segmentsLoop]
      cases front kcp.conv data with
      | rest => rfl
      | refused code => rfl
      | segment p left =>
          dsimp only
          rw [ih, conv_receive]
          rfl

section Induct

variable {motive : Ikcpcb → Prop} {kcp : Ikcpcb}

/-- What holds before a segment is read, and is kept by each thing that reading one may do, holds
afterwards. -/
theorem receive_induct {p : Packet} {latest : Option (UInt32 × UInt32)} (start : motive kcp)
    (heed : motive kcp → motive (kcp.heed p))
    (acknowledge : ∀ k, p.cmd = cmdAck → motive k → motive (k.acknowledge p))
    (push : ∀ k, p.cmd = cmdPush → motive k → motive (k.push p))
    (ask : ∀ k, motive k → motive { k with askTell := true }) :
    motive (kcp.receive p latest).2 := by
  have hheed := heed start
  simp only [receive]
  split
  · rename_i hack
    exact acknowledge (kcp.heed p) hack hheed
  split
  · rename_i hpush
    dsimp only
    exact push (kcp.heed p) hpush hheed
  split
  · exact ask _ hheed
  · exact hheed

/-- What holds before some segments are read, and is kept when one of them is, holds afterwards. -/
theorem foldl_induct {packets : List Packet}
    (each : ∀ k, ∀ p ∈ packets, ∀ latest, motive k → motive (k.receive p latest).2)
    {read : Option (UInt32 × UInt32) × Ikcpcb} (start : motive read.2) :
    motive (packets.foldl (fun read p => read.2.receive p read.1) read).2 := by
  induction packets generalizing read with
  | nil => exact start
  | cons p rest ih =>
      obtain ⟨hp, hrest⟩ := List.forall_mem_cons.mp fun q hq => (each · q hq)
      exact ih (fun k q hq => hrest q hq k) (hp _ _ start)

/-- What holds before a datagram is read, and is kept when one of its segments is and at the end,
holds afterwards. -/
theorem input_fold {data : List UInt8} (start : motive kcp)
    (each : ∀ k, ∀ p ∈ (segments kcp.conv data).1, ∀ latest, motive k →
      motive (k.receive p latest).2)
    (conclude : ∀ k una latest, motive k → motive (k.conclude una latest)) :
    motive (kcp.input data).2 := by
  have hread : motive ((segments kcp.conv data).1.foldl (fun read p => read.2.receive p read.1)
      (none, kcp)).2 :=
    foldl_induct each start
  rw [input]
  split
  · exact start
  · rw [inputLoop_eq]
    dsimp only
    split
    · exact hread
    · exact conclude _ _ _ hread

/-- The same for each thing that reading a segment may do. -/
theorem input_induct {data : List UInt8} (start : motive kcp)
    (heed : ∀ k, ∀ p ∈ (segments kcp.conv data).1, motive k → motive (k.heed p))
    (acknowledge : ∀ k, ∀ p ∈ (segments kcp.conv data).1, p.cmd = cmdAck → motive k →
      motive (k.acknowledge p))
    (push : ∀ k, ∀ p ∈ (segments kcp.conv data).1, p.cmd = cmdPush → motive k →
      motive (k.push p))
    (ask : ∀ k, motive k → motive { k with askTell := true })
    (conclude : ∀ k una latest, motive k → motive (k.conclude una latest)) :
    motive (kcp.input data).2 :=
  input_fold start
    (fun k p hp _ hk => receive_induct hk (heed k p hp) (acknowledge · p hp) (push · p hp) ask)
    conclude

/-- What the reading of one segment of a datagram brings about, and that of the others and the end
leave alone, holds afterwards. -/
theorem input_reach {before after : Ikcpcb → Prop} {data : List UInt8} {p : Packet}
    (mem : p ∈ (segments kcp.conv data).1) (start : before kcp)
    (keep : ∀ k, ∀ q ∈ (segments kcp.conv data).1, ∀ latest,
      before k → before (k.receive q latest).2)
    (hit : ∀ k latest, before k → after (k.receive p latest).2)
    (stay : ∀ k, ∀ q ∈ (segments kcp.conv data).1, ∀ latest, after k → after (k.receive q latest).2)
    (conclude : ∀ k una latest, after k → after (k.conclude una latest)) :
    after (kcp.input data).2 := by
  obtain ⟨earlier, later, hpackets⟩ := List.append_of_mem mem
  have hread : after ((segments kcp.conv data).1.foldl (fun read p => read.2.receive p read.1)
      (none, kcp)).2 := by
    rw [hpackets] at keep stay ⊢
    rw [List.foldl_append, List.foldl_cons]
    have hearlier := @foldl_induct before earlier
      (fun k q hq => keep k q (List.mem_append_left _ hq)) (none, kcp) start
    exact foldl_induct
      (fun k q hq => stay k q (List.mem_append_right _ (List.mem_cons_of_mem _ hq)))
      (hit _ _ hearlier)
  rw [input]
  split
  · rename_i hshort
    have hnone : (segments kcp.conv data).1 = [] := by
      rw [segments]
      cases data.length with
      | zero => rfl
      | succ rounds => rw [segmentsLoop, front, if_pos hshort]
    rw [hnone] at mem
    cases mem
  · rw [inputLoop_eq]
    dsimp only
    split
    · exact hread
    · exact conclude _ _ _ hread

end Induct

theorem unread_input (kcp : Ikcpcb) (data : List UInt8) :
    (kcp.input data).2.unread = kcp.unread :=
  input_induct (motive := fun k => k.unread = kcp.unread) rfl
    (fun k p _ same => (k.unread_heed p).trans same)
    (fun k p _ _ same => (k.unread_acknowledge p).trans same)
    (fun k p _ _ same => (k.unread_push p).trans same)
    (fun k same => (k.unread_askTell true).trans same)
    (fun k una latest same => (k.unread_conclude una latest).trans same)

/-! ## What is kept for sending -/

theorem removeAcked_sublist (sn : UInt32) (segs : List Seg) :
    (removeAcked sn segs).Sublist segs := by
  induction segs with
  | nil => exact List.Sublist.slnil
  | cons seg rest ih =>
      rw [removeAcked]
      split
      · exact List.sublist_cons_self seg rest
      split
      · exact List.Sublist.refl _
      · exact ih.cons_cons seg

theorem sndBuf_parseAck (kcp : Ikcpcb) (sn : UInt32) :
    (kcp.parseAck sn).shrinkBuf.sndBuf =
      if kcp.inFlight sn then removeAcked sn kcp.sndBuf else kcp.sndBuf := by
  rw [shrinkBuf, parseAck]

/-- The segments that a list has are, apart from their timers, among those of another. -/
def Among (segs others : List Seg) : Prop :=
  segs.map Seg.untimed ⊆ others.map Seg.untimed

theorem Among.forall {segs others : List Seg} (among : Among segs others) {P : Seg → Prop}
    (bare : ∀ seg : Seg, P seg ↔ P seg.untimed) (all : ∀ seg ∈ others, P seg) :
    ∀ seg ∈ segs, P seg := by
  intro seg hseg
  obtain ⟨other, hother, hsame⟩ := List.mem_map.mp (among (List.mem_map_of_mem hseg))
  rw [bare, ← hsame, ← bare]
  exact all other hother

theorem among_of_sublist {segs others : List Seg} (sub : segs.Sublist others) :
    Among segs others :=
  (sub.map Seg.untimed).subset

theorem among_counted (kcp : Ikcpcb) (latest : Option (UInt32 × UInt32)) :
    Among (kcp.counted latest).sndBuf kcp.sndBuf := by
  cases latest with
  | none => exact List.Subset.refl _
  | some last =>
      rw [counted, parseFastack]
      split
      · rw [Among, untimed_countFastack]
        exact List.Subset.refl _
      · exact List.Subset.refl _

theorem sndBuf_unpushed (kcp : Ikcpcb) : kcp.unpushed.sndBuf = kcp.sndBuf :=
  rfl

theorem sndBuf_ungrown (kcp : Ikcpcb) : kcp.ungrown.sndBuf = kcp.sndBuf :=
  rfl

/-- Reading adds nothing to what is kept. -/
theorem among_input (kcp : Ikcpcb) (data : List UInt8) :
    Among (kcp.input data).2.sndBuf kcp.sndBuf := by
  apply input_induct (motive := fun k => Among k.sndBuf kcp.sndBuf)
  · exact List.Subset.refl _
  · intro k p _ among
    exact List.Subset.trans (among_of_sublist (List.dropWhile_sublist _)) among
  · intro k p _ _ among
    have hparse (k : Ikcpcb) : Among (k.parseAck p.sn).shrinkBuf.sndBuf k.sndBuf := by
      rw [sndBuf_parseAck]
      split
      · exact among_of_sublist (removeAcked_sublist _ _)
      · exact List.Subset.refl _
    rw [acknowledge]
    split
    · exact List.Subset.trans (hparse _) among
    · exact List.Subset.trans (hparse k) among
  · intro k p _ _ among
    rw [← sndBuf_unpushed, unpushed_push, sndBuf_unpushed]
    exact among
  · exact fun k among => among
  · intro k una latest among
    rw [← sndBuf_ungrown, ungrown_conclude, sndBuf_ungrown]
    exact List.Subset.trans (k.among_counted latest) among

/-! ### What is to be acknowledged -/

theorem ackList_deliver (kcp : Ikcpcb) (segs : List Seg) :
    (kcp.deliver segs).ackList = kcp.ackList :=
  deliver_induct (motive := fun k => k.ackList = kcp.ackList) rfl fun _ _ _ _ _ _ same => same

theorem ackList_unheard (kcp : Ikcpcb) : kcp.unheard.ackList = kcp.ackList :=
  rfl

theorem ackList_parseData (kcp : Ikcpcb) (newseg : Seg) :
    (kcp.parseData newseg).ackList = kcp.ackList := by
  rw [parseData]
  split
  · rfl
  · exact kcp.ackList_deliver _

theorem ackList_ackPush (kcp : Ikcpcb) (sn ts : UInt32) :
    (kcp.ackPush sn ts).ackList = kcp.ackList ++ [(sn, ts)] :=
  rfl

theorem push_cases (kcp : Ikcpcb) {p : Packet}
    (inside : itimediff p.sn (kcp.rcvNxt + kcp.rcvWnd) < 0) :
    kcp.push p = (kcp.ackPush p.sn p.ts).parseData (segOf p) ∨
      kcp.push p = kcp.ackPush p.sn p.ts := by
  rw [push, if_pos inside]
  dsimp only
  split
  · exact .inl rfl
  · exact .inr rfl

/-- The number of a segment with data that is not beyond the window is noted, and no other one is
removed. -/
theorem ackList_push (kcp : Ikcpcb) (p : Packet) :
    (kcp.push p).ackList =
      if itimediff p.sn (kcp.rcvNxt + kcp.rcvWnd) < 0 then kcp.ackList ++ [(p.sn, p.ts)]
      else kcp.ackList := by
  by_cases hinside : itimediff p.sn (kcp.rcvNxt + kcp.rcvWnd) < 0
  · rw [if_pos hinside]
    rcases kcp.push_cases hinside with heq | heq
    · rw [heq, ackList_parseData, ackList_ackPush]
    · rw [heq, ackList_ackPush]
  · rw [if_neg hinside, push, if_neg hinside]

end Ikcpcb

end Sxaint.Ikcp
