/-
# Nothing gets stuck

Two control blocks as transports set them up, in whatever state they got each other. What was lost
may be lost, windows may be closed and timers anywhere: without another call of `ikcp_send`, and
with clocks that go forward only, everything that was accepted can still be brought over. A segment
that is kept is sent again when its time has come, the other side notes it or has noted it before,
and its acknowledgement says that it has everything below. A closed window is asked for.
-/

import Sxaint.Ikcp.Delivery
import Sxaint.Ikcp.Owed
import Sxaint.Machine.Progress

namespace Sxaint.Ikcp

open SelectiveRepeat Serial Transition

open Sxaint.Net.Kcp (itimediff)

namespace Ikcpcb

/-! ## Streams -/

/-- A stream is not cut into fragments. -/
structure Streaming (kcp : Ikcpcb) : Prop where
  stream : kcp.stream = true
  whole : ∀ item ∈ kcp.offered, item.1 = 0

theorem frg_fragments (mss count : ℕ) (buffer : List UInt8) :
    ∀ seg ∈ fragments true mss count buffer, seg.frg = 0 := by
  induction count generalizing buffer with
  | zero => nofun
  | succ count ih =>
      rw [fragments]
      exact List.forall_mem_cons.mpr ⟨rfl, ih _⟩

theorem streaming_send {kcp : Ikcpcb} (streaming : kcp.Streaming) (buffer : List UInt8) :
    (kcp.send buffer).2.Streaming := by
  have hstream := streaming.stream
  have hsame := kcp.unqueued_send buffer
  have hnumbered : (kcp.send buffer).2.numbered = kcp.numbered :=
    (congrArg Ikcpcb.numbered hsame :)
  refine ⟨(congrArg Ikcpcb.stream hsame :).trans hstream, fun item hitem => ?_⟩
  rw [offered, hnumbered] at hitem
  rcases List.mem_append.mp hitem with hmem | hmem
  · exact streaming.whole item (List.mem_append_left _ hmem)
  have hqueue : ∀ seg ∈ kcp.sndQueue, seg.frg = 0 := fun seg hseg =>
    streaming.whole seg.item (List.mem_append_right _ (List.mem_map_of_mem hseg))
  have hextend : ∀ seg ∈ (kcp.extend buffer).sndQueue, seg.frg = 0 := by
    rw [extend]
    split
    · split
      · exact List.forall_mem_append.mpr
          ⟨fun seg hseg => hqueue seg (List.mem_of_mem_dropLast hseg),
            List.forall_mem_singleton.mpr rfl⟩
      · exact hqueue
    · exact hqueue
  have hsend : ∀ seg ∈ (kcp.send buffer).2.sndQueue, seg.frg = 0 := by
    simp only [send, hstream]
    split
    · exact hextend
    split
    · split
      · exact hextend
      · exact hextend
    · exact List.forall_mem_append.mpr ⟨hextend, frg_fragments _ _ _⟩
  obtain ⟨seg, hseg, rfl⟩ := List.mem_map.mp hmem
  exact hsend seg hseg

theorem streaming_apply {kcp : Ikcpcb} (streaming : kcp.Streaming) (call : Call) :
    (kcp.apply call).Streaming := by
  have hstream : (kcp.apply call).stream = kcp.stream :=
    (congrArg (fun c => c.2.2.2.2.2.2.2.2.2.2) (kcp.configuration_apply call) :)
  cases call with
  | send buffer => exact streaming_send streaming buffer
  | recv _ | input _ | update _ | flush =>
      refine ⟨hstream.trans streaming.stream, ?_⟩
      rw [offered_apply kcp (by rintro buffer ⟨⟩)]
      exact streaming.whole

/-! ## Taking what waits -/

/-- Moving segments keeps their number. -/
theorem length_deliver (kcp : Ikcpcb) (segs : List Seg) :
    (kcp.deliver segs).rcvQueue.length + (kcp.deliver segs).rcvBuf.length =
      kcp.rcvQueue.length + segs.length := by
  refine deliver_induct (motive := fun k => k.rcvQueue.length + k.rcvBuf.length =
    kcp.rcvQueue.length + segs.length) rfl ?_
  intro k seg rest hbuf _ _ same
  rw [hbuf, List.length_cons] at same
  dsimp only [moveFirst]
  rw [List.length_append, List.length_singleton]
  omega

/-- A message of one segment is taken by a call with enough room. -/
theorem recv_first {kcp : Ikcpcb} {seg : Seg} {rest : List Seg} (queue : kcp.rcvQueue = seg :: rest)
    (whole : seg.frg = 0) :
    ∃ askTell, (kcp.askTell = true → askTell = true) ∧ (kcp.recv seg.data.length).2.2 =
      { deliver { kcp with rcvQueue := rest } kcp.rcvBuf with askTell := askTell } := by
  have hpeek : kcp.peeksize = seg.data.length := by
    rw [peeksize, queue]
    dsimp only
    rw [if_pos whole]
  have hmerge : merge kcp.rcvQueue = (seg.data, rest) := by
    rw [queue, merge, if_pos whole]
  have htell : (deliver { kcp with rcvQueue := rest } kcp.rcvBuf).askTell = kcp.askTell :=
    deliver_induct (motive := fun k => k.askTell = kcp.askTell) rfl fun _ _ _ _ _ _ same => same
  have hnonneg := Int.natCast_nonneg seg.data.length
  rw [recv, if_neg (by rw [queue]; exact List.cons_ne_nil _ _), hpeek, if_neg (not_lt.mpr hnonneg),
    if_neg (by rw [abs_of_nonneg hnonneg]; exact lt_irrefl _), hmerge]
  dsimp only
  rw [if_neg (not_lt.mpr hnonneg)]
  refine ⟨_, fun htold => ?_, rfl⟩
  dsimp only
  rw [htell, htold, Bool.true_or]

/-- What waits to be taken, as long as something does. -/
def untaken (kcp : Ikcpcb) : ℕ :=
  if kcp.rcvQueue = [] then 0 else kcp.rcvQueue.length + kcp.rcvBuf.length

end Ikcpcb

namespace Pair

/-! ## Going on -/

/-- A call that gives nothing more, and does not set a clock back. -/
def Quiet (s : Pair) : Side × Call → Prop
  | (_, .send _) => False
  | (side, .update current) => 0 ≤ itimediff current (s.kcps side).current
  | (_, .recv _) | (_, .input _) | (_, .flush) => True

theorem Quiet.ne_send {s : Pair} {side : Side} {call : Call} (quiet : s.Quiet (side, call)) :
    ∀ buffer, call ≠ .send buffer := by
  rintro buffer rfl
  exact quiet

/-- A state that a run reaches, in which less than half of the numbers are needed. -/
structure Reached (start : Side → Ikcpcb) (s : Pair) : Prop where
  run : ∃ events, (machine start).Run events s
  few : ∀ side, (s.kcps side).offered.length < 2 ^ 31

section Leads

variable {start : Side → Ikcpcb} {s next : Pair} {side : Side}

/-- A quiet call that is possible leads on. -/
theorem leads_call {call : Call} (quiet : s.Quiet (side, call)) (possible : s.possible side call) :
    ∃ next, (machine start).Leads Quiet s next ∧ next.kcps side = (s.kcps side).apply call ∧
      next.kcps side.other = s.kcps side.other := by
  obtain ⟨next, hnext⟩ : ∃ next, step (side, call) s = some next := by
    rw [step]
    dsimp only
    rw [if_pos possible]
    exact ⟨_, rfl⟩
  obtain ⟨-, hone, hother, -⟩ := step_cases hnext
  exact ⟨next, Machine.leads_step (M := machine start) _ quiet hnext, hone, hother⟩

/-- Nothing is given on the way, and not more waits to be sent. -/
theorem kept_of_leads (leads : (machine start).Leads Quiet s next) :
    next.given = s.given ∧ ∀ side, (next.kcps side).offered = (s.kcps side).offered ∧
      (next.kcps side).waitsnd ≤ (s.kcps side).waitsnd := by
  apply leads.invariant (fun t => t.given = s.given ∧
    ∀ side, (t.kcps side).offered = (s.kcps side).offered ∧
      (t.kcps side).waitsnd ≤ (s.kcps side).waitsnd) ⟨rfl, fun side => ⟨rfl, le_refl _⟩⟩
  rintro t ⟨one, call⟩ u ⟨hgiven, hkept⟩ hquiet htaken
  obtain ⟨-, hone, hother, hgiven', hgivenOther, -⟩ := step_cases htaken
  have hnone := hquiet.ne_send
  constructor
  · funext side
    rw [← hgiven]
    rcases one.eq_or_eq_other side with rfl | rfl
    · rw [hgiven']
      cases call with
      | send buffer => exact (hnone buffer rfl).elim
      | recv _ | input _ | update _ | flush => exact List.append_nil _
    · exact hgivenOther
  · intro side
    obtain ⟨hoffered, hwaits⟩ := hkept side
    rcases one.eq_or_eq_other side with rfl | rfl
    · rw [hone]
      exact ⟨(Ikcpcb.offered_apply _ hnone).trans hoffered,
        (Ikcpcb.waitsnd_apply_le _ hnone).trans hwaits⟩
    · rw [hother]
      exact ⟨hoffered, hwaits⟩

theorem Reached.of_leads (reached : Reached start s) (leads : (machine start).Leads Quiet s next) :
    Reached start next := by
  obtain ⟨events, hrun⟩ := reached.run
  obtain ⟨more, hmore⟩ := leads.run (fun _ _ _ => trivial) hrun
  refine ⟨⟨_, hmore⟩, fun side => ?_⟩
  rw [((kept_of_leads leads).2 side).1]
  exact reached.few side

/-- A clock is set to a time that is not over, and there is a flush. -/
theorem exists_tick (s : Pair) (side : Side) {current : UInt32}
    (forward : 0 ≤ itimediff current (s.kcps side).current) :
    ∃ next tsFlush, (machine start).Leads Quiet s next ∧
      next.kcps side = ((s.kcps side).clock current tsFlush).flush ∧
      next.kcps side.other = s.kcps side.other := by
  obtain ⟨set, hset, hone, hother⟩ :=
    @leads_call start s side (.update current) forward trivial
  obtain ⟨tsFlush, hupdate | hupdate⟩ := (s.kcps side).update_cases current
  · obtain ⟨next, hnext, hflush, hsame⟩ := @leads_call start set side .flush trivial trivial
    refine ⟨next, tsFlush, hset.trans hnext, ?_, hsame.trans hother⟩
    rw [hflush, hone, Ikcpcb.apply, Ikcpcb.apply, hupdate]
  · exact ⟨set, tsFlush, hset, hone.trans hupdate, hother⟩

/-- What can be brought about at a time, or else waits for it, can be brought about. -/
theorem exists_in_time {Inv Goal : Pair → Prop} {due : UInt32}
    (attempt : ∀ t, Inv t → ∀ current, 0 ≤ itimediff current (t.kcps side).current →
      ∃ next, (machine start).Leads Quiet t next ∧
        (Goal next ∨ Inv next ∧ (next.kcps side).current = current ∧ itimediff current due < 0))
    (inv : Inv s) : ∃ next, (machine start).Leads Quiet s next ∧ Goal next := by
  have hself (time : UInt32) : 0 ≤ itimediff time time :=
    (diff_nonneg_iff _ _).mpr (by rw [offset_self]; decide)
  have hat (t : Pair) (inv : Inv t) (current : UInt32)
      (forward : 0 ≤ itimediff current (t.kcps side).current) (late : 0 ≤ itimediff current due) :
      ∃ next, (machine start).Leads Quiet t next ∧ Goal next := by
    obtain ⟨next, hleads, hgoal | ⟨-, -, hearly⟩⟩ := attempt t inv current forward
    · exact ⟨next, hleads, hgoal⟩
    · exact absurd hearly (not_lt.mpr late)
  rcases le_or_gt 0 (itimediff (s.kcps side).current due) with hlate | hbefore
  · exact hat s inv _ (hself _) hlate
  rcases le_or_gt 0 (itimediff due (s.kcps side).current) with hlater | hbefore'
  · exact hat s inv _ hlater (hself _)
  -- half of the range apart, neither is before the other
  obtain ⟨hnear, hforward⟩ := diff_succ_nonneg hbefore hbefore'
  obtain ⟨between, hleads, hgoal | ⟨hinv, hcurrent, -⟩⟩ := attempt s inv _ hforward
  · exact ⟨between, hleads, hgoal⟩
  · rw [← hcurrent] at hnear
    obtain ⟨next, hnext, hgoal⟩ := hat between hinv _ hnear (hself _)
    exact ⟨next, hleads.trans hnext, hgoal⟩

end Leads

/-! ## Where both sides are -/

/-- Two control blocks as transports set them up. -/
def OfTransports (conv : UInt32) (start : Side → Ikcpcb) : Prop :=
  ∀ side, ∃ nodelay interval resend nc,
    start side = Ikcpcb.ofTransport conv nodelay interval resend nc

section Reached

variable {conv : UInt32} {start : Side → Ikcpcb} {s : Pair} {side : Side}

theorem OfTransports.setUp (transports : OfTransports conv start) (side : Side) :
    SetUp conv (start side) := by
  obtain ⟨nodelay, interval, resend, nc, hstart⟩ := transports side
  rw [hstart]
  exact Ikcpcb.setUp_ofTransport _ _ _ _ _

theorem windows_of_reached (transports : OfTransports conv start) (reached : Reached start s)
    (side : Side) : (s.kcps side).sndWnd = 4096 ∧ (s.kcps side).rcvWnd = 4096 := by
  obtain ⟨events, hrun⟩ := reached.run
  have hsame := configuration_of_run hrun side
  obtain ⟨nodelay, interval, resend, nc, hstart⟩ := transports side
  rw [hstart] at hsame
  exact ⟨(congrArg (fun c => c.2.2.2.1) hsame :), (congrArg (fun c => c.2.2.2.2.1) hsame :)⟩

theorem streaming_of_reached (transports : OfTransports conv start) (reached : Reached start s)
    (side : Side) : (s.kcps side).Streaming := by
  obtain ⟨events, hrun⟩ := reached.run
  refine of_run hrun side ?_ fun kcp call streaming => Ikcpcb.streaming_apply streaming call
  have hbare := Ikcpcb.bare_of_setUp (transports.setUp side)
  have hnumbered : (start side).numbered = [] := (congrArg Ikcpcb.numbered hbare :)
  have hqueue : (start side).sndQueue = [] := (congrArg Ikcpcb.sndQueue hbare :)
  refine ⟨?_, ?_⟩
  · obtain ⟨nodelay, interval, resend, nc, hstart⟩ := transports side
    rw [hstart]
    rfl
  · rw [Ikcpcb.offered, hnumbered, hqueue]
    intro item hitem
    exact (List.not_mem_nil hitem).elim

theorem sendWindow_of_reached (transports : OfTransports conv start) (reached : Reached start s)
    (side : Side) : (s.kcps side).SendWindow := by
  obtain ⟨events, hrun⟩ := reached.run
  exact of_run hrun side (Ikcpcb.sendWindow_of_setUp (transports.setUp side))
    fun kcp call window => Ikcpcb.sendWindow_apply window call

theorem Reached.numbered (reached : Reached start s) (side : Side) :
    (s.kcps side).numbered.length < 2 ^ 31 := by
  refine lt_of_le_of_lt ?_ (reached.few side)
  rw [Ikcpcb.offered, List.length_append]
  exact Nat.le_add_right _ _

theorem flows_of_reached (transports : OfTransports conv start) (reached : Reached start s) :
    ∃ flows : Side → State Item, ∀ side, (flows side).Safe ∧
      (s.kcps side).Refines conv (flows side) (flows side.other) := by
  obtain ⟨events, hrun⟩ := reached.run
  obtain ⟨flows, hflows⟩ := flows_of_run transports.setUp hrun reached.numbered
  exact ⟨flows, fun side => ⟨safe_of_steps safe_init (hflows side).1, (hflows side).2⟩⟩

/-- What one side waits for, it does not have, if its queue is empty. -/
theorem not_received {flow : State Item} {kcp : Ikcpcb} (takes : kcp.Takes flow)
    (window : kcp.ReceiveWindow) (drained : kcp.rcvQueue = []) (positive : 0 < kcp.rcvWnd.toNat) :
    ¬flow.Received kcp.rcvNxt.toNat := by
  rintro (hlt | ⟨item, hitem⟩)
  · rw [takes.delivered, takes.next] at hlt
    exact lt_irrefl _ hlt
  · obtain ⟨seg, hseg, hsn, -⟩ := (takes.ahead _ _).mp hitem
    have hroom : kcp.rcvQueue.length < kcp.rcvWnd.toNat := by
      rw [drained]
      exact positive
    exact window.waiting hroom seg hseg (UInt32.toNat_inj.mp hsn)

/-- The numbers that are kept are not below that of the first segment. -/
theorem first_le {kcp : Ikcpcb} {first : Seg} {rest : List Seg} (window : kcp.SendWindow)
    (buf : kcp.sndBuf = first :: rest) (low : first.sn.toNat < 2 ^ 31) :
    ∀ seg ∈ kcp.sndBuf, first.sn.toNat ≤ seg.sn.toNat := by
  intro seg hseg
  have huna : kcp.sndUna = first.sn := by
    rw [window.first, buf]
    rfl
  have hinside := window.inside seg hseg
  have hbounded := window.bounded
  have hsmall := window.small
  have hmod := offset_eq_emod kcp.sndUna seg.sn
  have hlt := seg.sn.toNat_lt
  rw [huna] at hinside hbounded hmod
  omega

/-- What the other side has in order, with an empty queue: not less than what was let go of, and
what it has noted besides, but not more than was sent. -/
theorem le_rcvNxt (transports : OfTransports conv start) (reached : Reached start s) {first : Seg}
    {rest : List Seg} (buf : (s.kcps side).sndBuf = first :: rest)
    (drained : (s.kcps side.other).rcvQueue = []) :
    first.sn.toNat ≤ (s.kcps side.other).rcvNxt.toNat ∧
      (s.kcps side).numbered.length ≤ first.sn.toNat + 4096 ∧
      ∀ ts, (first.sn, ts) ∈ (s.kcps side.other).ackList →
        first.sn.toNat < (s.kcps side.other).rcvNxt.toNat := by
  obtain ⟨flows, hflows⟩ := flows_of_reached transports reached
  obtain ⟨hsafe, hrefines⟩ := hflows side
  have hother := (hflows side.other).2
  rw [Side.other_other] at hother
  have hwindow := sendWindow_of_reached transports reached side
  obtain ⟨hsndWnd, -⟩ := windows_of_reached transports reached side
  obtain ⟨-, hrcvWnd⟩ := windows_of_reached transports reached side.other
  have hnone := not_received hother.takes hother.window drained (by rw [hrcvWnd]; decide)
  have hfirst : first.sn.toNat < (flows side).sent.length :=
    hrefines.transmits.lt (by rw [buf]; exact List.mem_cons_self)
  have hfew := reached.numbered side
  rw [hrefines.transmits.sent] at hfirst
  have hkept := first_le hwindow buf (by omega)
  have hle : first.sn.toNat ≤ (s.kcps side.other).rcvNxt.toNat := by
    by_contra hless
    rw [Nat.not_le] at hless
    have hsent : (s.kcps side.other).rcvNxt.toNat < (flows side).sent.length := by
      rw [hrefines.transmits.sent]
      omega
    rcases hsafe.accounted _ hsent with hmem | hreceived
    · obtain ⟨seg, hseg, hsn⟩ := hrefines.transmits.kept _ hmem
      have hseg := hkept seg hseg
      omega
    · exact hnone hreceived
  refine ⟨hle, ?_, fun ts hdue => ?_⟩
  · have huna : (s.kcps side).sndUna = first.sn := by
      rw [hwindow.first, buf]
      rfl
    have hbounded := hwindow.bounded
    have hnext := hrefines.transmits.next
    have hsize : (4096 : UInt32).toNat = 4096 := rfl
    have hmod := offset_eq_emod (s.kcps side).sndUna (s.kcps side).sndNxt
    rw [hsndWnd, hsize] at hbounded
    rw [huna] at hbounded hmod
    omega
  · have hreceived := hother.takes.due _ ts hdue
    refine lt_of_le_of_ne hle fun hsame => ?_
    rw [hsame] at hreceived
    exact hnone hreceived

end Reached

/-! ## What one side can bring about -/

section Exchange

variable {conv : UInt32} {start : Side → Ikcpcb} {s : Pair} {side : Side}

theorem whole_of_reached (transports : OfTransports conv start) (reached : Reached start s)
    (side : Side) : ∀ seg ∈ (s.kcps side).rcvQueue, seg.frg = 0 := by
  intro seg hseg
  obtain ⟨events, hrun⟩ := reached.run
  obtain ⟨front, hsplits, -⟩ := (accounts_of_run transports.setUp hrun side).taken
  have hfront := ordered_prefix transports.setUp hrun reached.numbered side.other
  rw [Side.other_other] at hfront
  have hordered : seg.item ∈ (s.kcps side).ordered := by
    rw [hsplits]
    exact List.mem_append_right _ (List.mem_map_of_mem hseg)
  have hstreaming := streaming_of_reached transports reached side.other
  exact hstreaming.whole seg.item (List.mem_append_left _ (hfront.subset hordered))

/-- A queue can be emptied. -/
theorem exists_drained (transports : OfTransports conv start) (reached : Reached start s)
    (side : Side) :
    ∃ next, (machine start).Leads Quiet s next ∧ (next.kcps side).rcvQueue = [] ∧
      (next.kcps side).ackList = (s.kcps side).ackList ∧
      ((s.kcps side).askTell = true → (next.kcps side).askTell = true) ∧
      next.kcps side.other = s.kcps side.other := by
  have hprogress :=
    @Machine.exists_leads_of_progress Pair (Side × Call) (machine start) Quiet s
      (fun t => Reached start t ∧ (t.kcps side).ackList = (s.kcps side).ackList ∧
        ((s.kcps side).askTell = true → (t.kcps side).askTell = true) ∧
        t.kcps side.other = s.kcps side.other)
      (fun t => (t.kcps side).untaken) ?_ ⟨reached, rfl, id, rfl⟩
  · obtain ⟨next, hleads, ⟨-, hacks, htell, hother⟩, hzero⟩ := hprogress
    refine ⟨next, hleads, ?_, hacks, htell, hother⟩
    by_contra hsome
    rw [Ikcpcb.untaken, if_neg hsome] at hzero
    exact hsome (List.length_eq_zero_iff.mp (Nat.add_eq_zero_iff.mp hzero).1)
  rintro t ⟨hreached, hacks, htell, hother⟩ hpositive
  cases hqueue : (t.kcps side).rcvQueue with
  | nil =>
      rw [Ikcpcb.untaken, if_pos hqueue] at hpositive
      exact absurd hpositive (lt_irrefl _)
  | cons seg rest =>
      have hwhole := whole_of_reached transports hreached side seg (by
        rw [hqueue]
        exact List.mem_cons_self)
      obtain ⟨askTell, hstays, hrecv⟩ := Ikcpcb.recv_first hqueue hwhole
      obtain ⟨next, hnext, hone, hsame⟩ :=
        @leads_call start t side (.recv seg.data.length) trivial trivial
      rw [Ikcpcb.apply, hrecv] at hone
      refine ⟨next, hnext, ⟨hreached.of_leads hnext, ?_, ?_, hsame.trans hother⟩, ?_⟩
      · rw [hone]
        exact (Ikcpcb.ackList_deliver _ _).trans hacks
      · rw [hone]
        exact fun htold => hstays (htell htold)
      · have hlength := Ikcpcb.length_deliver { t.kcps side with rcvQueue := rest }
          (t.kcps side).rcvBuf
        have hle : (next.kcps side).untaken ≤
            (next.kcps side).rcvQueue.length + (next.kcps side).rcvBuf.length := by
          rw [Ikcpcb.untaken]
          split
          · exact Nat.zero_le _
          · exact le_refl _
        refine hle.trans_lt ?_
        rw [Ikcpcb.untaken, if_neg (by rw [hqueue]; exact List.cons_ne_nil _ _), hqueue, hone]
        dsimp only at hlength ⊢
        rw [hlength, List.length_cons]
        omega

theorem tells_of_emits {kcp : Ikcpcb} {p : Packet} (emits : kcp.Emits p) :
    p.una = kcp.rcvNxt ∧ p.wnd = kcp.wndUnused.toUInt16 := by
  cases emits with
  | ack | wask | wins | push => exact ⟨rfl, rfl⟩

/-- With an empty queue, an acknowledgement that is due or an answer that is owed tells the other
side what was put in order, and a window that is open. -/
theorem exists_answer (transports : OfTransports conv start) (reached : Reached start s)
    (drained : (s.kcps side).rcvQueue = [])
    (owes : (s.kcps side).ackList ≠ [] ∨ (s.kcps side).askTell = true) :
    ∃ next data p, (machine start).Leads Quiet s next ∧
      next.kcps side.other = s.kcps side.other ∧ data ∈ (next.kcps side).outputs ∧
      p ∈ (segments conv data).1 ∧ ∀ q ∈ (segments conv data).1,
        q.una = (s.kcps side).rcvNxt ∧ q.wnd.toUInt32 ≠ 0 := by
  have hnow : 0 ≤ itimediff (s.kcps side).current (s.kcps side).current :=
    (diff_nonneg_iff _ _).mpr (by rw [offset_self]; decide)
  obtain ⟨next, tsFlush, hleads, hone, hother⟩ := @exists_tick start s side _ hnow
  obtain ⟨flows, hflows⟩ := flows_of_reached transports reached
  have hsized := (hflows side).2.sized
  obtain ⟨-, hrcvWnd⟩ := windows_of_reached transports reached side
  let kcp := (s.kcps side).clock (s.kcps side).current tsFlush
  have hclock : kcp.Sized conv := hsized.of_among rfl rfl (List.Subset.refl _)
  obtain ⟨p, hp⟩ : ∃ p, kcp.Owes p := by
    rcases owes with hacks | htell
    · obtain ⟨ack, hack⟩ := List.exists_mem_of_ne_nil _ hacks
      exact ⟨_, .ack hack⟩
    · exact ⟨_, .wins htell⟩
  obtain ⟨data, hdata, hmem, hemits⟩ := Ikcpcb.exists_output hclock rfl hp
  refine ⟨next, data, p, hleads, hother, ?_, hmem, fun q hq => ?_⟩
  · rw [hone]
    exact hdata
  · obtain ⟨huna, hwnd⟩ := tells_of_emits (hemits q hq)
    have hunused : kcp.wndUnused = 4096 := by
      have hqueue : kcp.rcvQueue = [] := drained
      have hsize : kcp.rcvWnd = 4096 := hrcvWnd
      rw [Ikcpcb.wndUnused, hqueue, hsize]
      rfl
    rw [hwnd, hunused]
    exact ⟨huna, by decide⟩

/-- One side has sent a segment with data of a number. -/
def Offers (conv : UInt32) (kcp : Ikcpcb) (sn : UInt32) : Prop :=
  ∃ data ∈ kcp.outputs, ∃ p ∈ (segments conv data).1, p.cmd = cmdPush ∧ p.sn = sn

/-- At whatever time there is a flush, the first segment that is kept is sent, or it is left as it
is since its time has not come. -/
theorem exists_tick_first (transports : OfTransports conv start) (reached : Reached start s)
    {first : Seg} {rest : List Seg} (buf : (s.kcps side).sndBuf = first :: rest) {current : UInt32}
    (forward : 0 ≤ itimediff current (s.kcps side).current) :
    ∃ next seg segs, (machine start).Leads Quiet s next ∧
      next.kcps side.other = s.kcps side.other ∧ (next.kcps side).sndBuf = seg :: segs ∧
      seg.sn = first.sn ∧ (next.kcps side).current = current ∧
      (Offers conv (next.kcps side) first.sn ∨
        seg = first ∧ itimediff current first.resendts < 0) := by
  obtain ⟨next, tsFlush, hleads, hone, hother⟩ := @exists_tick start s side current forward
  obtain ⟨flows, hflows⟩ := flows_of_reached transports reached
  have hsized := (hflows side).2.sized
  let kcp := (s.kcps side).clock current tsFlush
  have hclock : kcp.Sized conv := hsized.of_among rfl rfl (List.Subset.refl _)
  have hcurrent : kcp.flush.current = current := (congrArg Ikcpcb.current kcp.unflushed_flush :)
  have hfilled : kcp.filled.current = current := (congrArg Ikcpcb.current kcp.unflushed_filled :)
  have hbuf : kcp.sndBuf = first :: rest := buf
  obtain ⟨seg, segs, hfirst, hsn, hleft⟩ := @Ikcpcb.first_flush kcp first rest rfl hbuf
  refine ⟨next, seg, segs, hleads, hother, ?_, hsn, ?_, ?_⟩
  · rw [hone]
    exact hfirst
  · rw [hone]
    exact hcurrent
  by_cases hno : kcp.filled.needsend kcp.resent first = .no
  · right
    refine ⟨hleft hno, ?_⟩
    by_contra hdue
    rw [not_lt, ← hfilled] at hdue
    exact Ikcpcb.needsend_ne_no (.inr hdue) hno
  · left
    obtain ⟨more, hmore⟩ := kcp.sndBuf_filled
    have hkept : first ∈ kcp.filled.sndBuf := by
      rw [hmore, hbuf]
      exact List.mem_append_left _ List.mem_cons_self
    obtain ⟨data, hdata, hmem, -⟩ := Ikcpcb.exists_output hclock rfl (.push hkept hno)
    refine ⟨data, ?_, _, hmem, ?_, rfl⟩
    · rw [hone]
      exact hdata
    · exact (hsized.buf first (by rw [buf]; exact List.mem_cons_self)).2.1

/-- The first segment that is kept can be sent. -/
theorem exists_offer (transports : OfTransports conv start) (reached : Reached start s)
    {first : Seg} {rest : List Seg} (buf : (s.kcps side).sndBuf = first :: rest) :
    ∃ next, (machine start).Leads Quiet s next ∧ next.kcps side.other = s.kcps side.other ∧
      Offers conv (next.kcps side) first.sn ∧
      ∃ seg segs, (next.kcps side).sndBuf = seg :: segs ∧ seg.sn = first.sn := by
  apply @exists_in_time start s side
    (fun t => Reached start t ∧ t.kcps side.other = s.kcps side.other ∧
      ∃ segs, (t.kcps side).sndBuf = first :: segs)
    (fun t => t.kcps side.other = s.kcps side.other ∧ Offers conv (t.kcps side) first.sn ∧
      ∃ seg segs, (t.kcps side).sndBuf = seg :: segs ∧ seg.sn = first.sn) first.resendts
  · rintro t ⟨hreached, hother, segs, hbuf⟩ current hforward
    obtain ⟨next, seg, segs, hleads, hsame, hbuf', hsn, hcurrent, hsent | ⟨rfl, hearly⟩⟩ :=
      exists_tick_first transports hreached hbuf hforward
    · exact ⟨next, hleads, .inl ⟨hsame.trans hother, hsent, seg, segs, hbuf', hsn⟩⟩
    · exact ⟨next, hleads, .inr ⟨⟨hreached.of_leads hleads, hsame.trans hother, segs, hbuf'⟩,
        hcurrent, hearly⟩⟩
  · exact ⟨reached, rfl, rest, buf⟩

/-- A number that is not ahead of another one, and close, is not beyond a window from that one. -/
theorem inside_window {n base : UInt32} (behind : n.toNat ≤ base.toNat)
    (close : base.toNat ≤ n.toNat + 4096) : itimediff n (base + 4096) < 0 := by
  have hsize : (4096 : UInt32).toNat = 4096 := rfl
  have hmod := offset_eq_emod n base
  have hlt := base.toNat_lt
  have hend : offset n (base + 4096) = offset n base + 4096 := by
    rw [offset_add]
    · rw [hsize]
    · rw [hsize]
      omega
  have hdiff : itimediff n (base + 4096) = (offset n n : ℤ) - offset n (base + 4096) := by
    apply diff_eq
    · rw [offset_self]
      omega
    · rw [offset_self]
      omega
  rw [hdiff, offset_self, hend]
  omega

/-- The other side, with an empty queue, notes it. -/
theorem exists_noted (transports : OfTransports conv start) (reached : Reached start s)
    {first : Seg} {rest : List Seg} (buf : (s.kcps side).sndBuf = first :: rest)
    (drained : (s.kcps side.other).rcvQueue = []) (offers : Offers conv (s.kcps side) first.sn) :
    ∃ next ts, (machine start).Leads Quiet s next ∧ next.kcps side = s.kcps side ∧
      (first.sn, ts) ∈ (next.kcps side.other).ackList := by
  obtain ⟨data, hdata, p, hmem, hcmd, hsn⟩ := offers
  obtain ⟨flows, hflows⟩ := flows_of_reached transports reached
  obtain ⟨hsafe, hrefines⟩ := hflows side
  obtain ⟨hsafe', hother⟩ := hflows side.other
  rw [Side.other_other] at hother
  have hconv : (s.kcps side.other).conv = conv := hother.sized.configured.conv
  have hsent : (flows side).sent.length = (s.kcps side).numbered.length := by
    rw [hrefines.transmits.sent]
  have hfew := reached.numbered side
  obtain ⟨hle, hspan, -⟩ := le_rcvNxt transports reached buf drained
  obtain ⟨-, hrcvWnd⟩ := windows_of_reached transports reached side.other
  have hpossible : s.possible side.other (.input data) := by
    rw [possible, Side.other_other]
    exact hdata
  obtain ⟨next, hnext, hone, hsame⟩ :=
    @leads_call start s side.other (.input data) trivial hpossible
  rw [Side.other_other] at hsame
  refine ⟨next, p.ts, hnext, hsame, ?_⟩
  rw [hone, Ikcpcb.apply, ← hsn]
  have hread := (hrefines.network data hdata).segments fun p hp => hp.1
  rw [← hconv] at hmem hread
  refine Ikcpcb.due_input hother hsafe' hsafe (reached.numbered side.other) (by omega)
    (fun q hq => (hread.2.2 q hq).2) hmem hcmd ?_
  intro k out' back' hfollows
  -- whatever was read before it, the other side is between this number and the last one
  have hbefore := hfollows.receives.steps.delivered.length_le
  have hafter := (safe_of_steps hsafe hfollows.receives.steps).ordered.length_le
  rw [hfollows.receives.sent] at hafter
  have hnext := hfollows.takes.next
  have hnow := hother.takes.next
  rw [hother.takes.delivered] at hbefore
  rw [hfollows.takes.delivered] at hbefore hafter
  rw [hrcvWnd, hsn]
  exact inside_window (by omega) (by omega)

/-- As long as a segment is kept, there is a way to fewer. -/
theorem exists_fewer_of_kept (transports : OfTransports conv start) (reached : Reached start s)
    {first : Seg} {rest : List Seg} (buf : (s.kcps side).sndBuf = first :: rest) :
    ∃ next, (machine start).Leads Quiet s next ∧
      (next.kcps side).waitsnd < (s.kcps side).waitsnd := by
  obtain ⟨ready, hready, hdrained, -, -, hsame⟩ :=
    exists_drained transports reached side.other
  rw [Side.other_other] at hsame
  rw [← hsame] at buf
  have hreached := reached.of_leads hready
  obtain ⟨sent, hsent, hother, hoffers, seg, segs, hbuf, hsn⟩ :=
    exists_offer transports hreached buf
  have hreached := hreached.of_leads hsent
  rw [← hother] at hdrained
  rw [← hsn] at hoffers
  obtain ⟨noted, ts, hnoted, hkept, hdue⟩ :=
    exists_noted transports hreached hbuf hdrained hoffers
  have hreached := hreached.of_leads hnoted
  obtain ⟨taken, htaken, hempty, hacks, -, hkept'⟩ :=
    exists_drained transports hreached side.other
  rw [Side.other_other, hkept] at hkept'
  have hreached := hreached.of_leads htaken
  rw [← hacks] at hdue
  rw [← hkept'] at hbuf
  obtain ⟨-, -, hbeyond⟩ := le_rcvNxt transports hreached hbuf hempty
  have hahead := hbeyond ts hdue
  obtain ⟨answered, data, p, hanswered, hkept'', hdata, hmem, htold⟩ :=
    exists_answer transports hreached hempty (.inl (List.ne_nil_of_mem hdue))
  rw [Side.other_other] at hkept''
  obtain ⟨next, hnext, hone, -⟩ :=
    @leads_call start answered side (.input data) trivial hdata
  obtain ⟨flows, hflows⟩ := flows_of_reached transports hreached
  have hconv : (answered.kcps side).conv = conv := by
    rw [hkept'']
    exact (hflows side).2.sized.configured.conv
  have hthere := (hflows side.other).2.takes.next
  have hfewer : ((answered.kcps side).apply (.input data)).waitsnd <
      (answered.kcps side).waitsnd := by
    rw [← hkept''] at hbuf
    rw [← hconv] at hmem htold
    refine Ikcpcb.waitsnd_input_lt hbuf hmem fun q hq => ?_
    obtain ⟨huna, -⟩ := htold q hq
    obtain ⟨events, hrun⟩ := hreached.run
    have hfront := ordered_prefix transports.setUp hrun hreached.numbered side
    have hlow := hfront.length_le
    have hfew := hreached.numbered side
    have hdiff : itimediff q.una seg.sn = (q.una.toNat : ℤ) - seg.sn.toNat := by
      rw [huna]
      exact diff_eq_sub (by omega) (by omega)
    rw [hdiff, huna]
    omega
  have hleads := (((hready.trans hsent).trans hnoted).trans htaken).trans hanswered
  refine ⟨next, hleads.trans hnext, ?_⟩
  rw [hone]
  exact hfewer.trans_le ((kept_of_leads hleads).2 side).2

/-- One side has asked for the window of the other. -/
def Asks (conv : UInt32) (kcp : Ikcpcb) : Prop :=
  ∃ data ∈ kcp.outputs, ∃ p ∈ (segments conv data).1, p.cmd = cmdWask

/-- At whatever time there is a flush, a closed window is asked for, or the time for it has not
come. -/
theorem exists_tick_probe (transports : OfTransports conv start) (reached : Reached start s)
    (closed : (s.kcps side).rmtWnd = 0) (waits : (s.kcps side).probeWait ≠ 0) {current : UInt32}
    (forward : 0 ≤ itimediff current (s.kcps side).current) :
    ∃ next, (machine start).Leads Quiet s next ∧ (next.kcps side).rmtWnd = 0 ∧
      (next.kcps side).current = current ∧
      (Asks conv (next.kcps side) ∨
        (next.kcps side).probing = (s.kcps side).probing ∧
          itimediff current (s.kcps side).tsProbe < 0) := by
  obtain ⟨next, tsFlush, hleads, hone, -⟩ := @exists_tick start s side current forward
  obtain ⟨flows, hflows⟩ := flows_of_reached transports reached
  have hsized := (hflows side).2.sized
  let kcp := (s.kcps side).clock current tsFlush
  have hclock : kcp.Sized conv := hsized.of_among rfl rfl (List.Subset.refl _)
  have hrmtWnd : kcp.flush.rmtWnd = (s.kcps side).rmtWnd :=
    (congrArg Ikcpcb.rmtWnd kcp.unflushed_flush :)
  have hcurrent : kcp.flush.current = current := (congrArg Ikcpcb.current kcp.unflushed_flush :)
  have hprobing : kcp.flush.probing = kcp.askWindow.probing := Ikcpcb.probing_flush rfl
  refine ⟨next, hleads, ?_, ?_, ?_⟩
  · rw [hone]
    exact hrmtWnd.trans closed
  · rw [hone]
    exact hcurrent
  rcases @Ikcpcb.askWindow_cases kcp closed waits with hasked | ⟨hsame, hearly⟩
  · left
    obtain ⟨data, hdata, hmem, -⟩ := Ikcpcb.exists_output hclock rfl (.wask hasked)
    refine ⟨data, ?_, _, hmem, rfl⟩
    rw [hone]
    exact hdata
  · right
    rw [hone]
    exact ⟨hprobing.trans hsame, hearly⟩

/-- A closed window can be asked for. -/
theorem exists_question (transports : OfTransports conv start) (reached : Reached start s)
    (closed : (s.kcps side).rmtWnd = 0) :
    ∃ next, (machine start).Leads Quiet s next ∧ Asks conv (next.kcps side) := by
  have hwaiting (t : Pair) (reached : Reached start t) (closed : (t.kcps side).rmtWnd = 0)
      (waits : (t.kcps side).probeWait ≠ 0) :
      ∃ next, (machine start).Leads Quiet t next ∧ Asks conv (next.kcps side) := by
    apply @exists_in_time start t side
      (fun u => Reached start u ∧ (u.kcps side).rmtWnd = 0 ∧
        (u.kcps side).probing = (t.kcps side).probing)
      (fun u => Asks conv (u.kcps side)) (t.kcps side).tsProbe
    · rintro u ⟨hreached, hclosed, hsame⟩ current hforward
      have hwait : (u.kcps side).probeWait = (t.kcps side).probeWait := congrArg Prod.fst hsame
      have hdue : (u.kcps side).tsProbe = (t.kcps side).tsProbe := congrArg Prod.snd hsame
      rw [← hwait] at waits
      obtain ⟨next, hleads, hclosed', hcurrent, hasks | ⟨hkept, hearly⟩⟩ :=
        exists_tick_probe transports hreached hclosed waits hforward
      · exact ⟨next, hleads, .inl hasks⟩
      · rw [hdue] at hearly
        exact ⟨next, hleads, .inr ⟨⟨hreached.of_leads hleads, hclosed', hkept.trans hsame⟩,
          hcurrent, hearly⟩⟩
    · exact ⟨reached, closed, rfl⟩
  by_cases hnone : (s.kcps side).probeWait = 0
  · -- a flush begins to wait
    have hnow : 0 ≤ itimediff (s.kcps side).current (s.kcps side).current :=
      (diff_nonneg_iff _ _).mpr (by rw [offset_self]; decide)
    obtain ⟨next, tsFlush, hleads, hone, -⟩ := @exists_tick start s side _ hnow
    let kcp := (s.kcps side).clock (s.kcps side).current tsFlush
    have hrmtWnd : kcp.flush.rmtWnd = (s.kcps side).rmtWnd :=
      (congrArg Ikcpcb.rmtWnd kcp.unflushed_flush :)
    have hprobing : kcp.flush.probing.1 = kcp.askWindow.probing.1 :=
      congrArg Prod.fst (Ikcpcb.probing_flush rfl)
    have hwaits : (next.kcps side).probeWait ≠ 0 := by
      rw [hone]
      exact hprobing.trans_ne (@Ikcpcb.probeWait_askWindow kcp closed hnone)
    have hclosed : (next.kcps side).rmtWnd = 0 := by
      rw [hone]
      exact hrmtWnd.trans closed
    obtain ⟨last, hlast, hasks⟩ := hwaiting next (reached.of_leads hleads) hclosed hwaits
    exact ⟨last, hleads.trans hlast, hasks⟩
  · exact hwaiting s reached closed hnone

/-- A window that is closed can be found open. -/
theorem exists_open (transports : OfTransports conv start) (reached : Reached start s)
    (closed : (s.kcps side).rmtWnd = 0) :
    ∃ next, (machine start).Leads Quiet s next ∧ (next.kcps side).rmtWnd ≠ 0 := by
  obtain ⟨asked, hasked, data, hdata, p, hmem, hcmd⟩ := exists_question transports reached closed
  have hreached := reached.of_leads hasked
  have hconv (t : Pair) (reached : Reached start t) (side : Side) : (t.kcps side).conv = conv := by
    obtain ⟨flows, hflows⟩ := flows_of_reached transports reached
    exact (hflows side).2.sized.configured.conv
  have hpossible : asked.possible side.other (.input data) := by
    rw [possible, Side.other_other]
    exact hdata
  obtain ⟨heard, hheard, hone, -⟩ :=
    @leads_call start asked side.other (.input data) trivial hpossible
  have htell : (heard.kcps side.other).askTell = true := by
    rw [← hconv asked hreached side.other] at hmem
    rw [hone]
    exact Ikcpcb.askTell_input hmem hcmd
  have hreached := hreached.of_leads hheard
  obtain ⟨taken, htaken, hempty, -, hstays, -⟩ := exists_drained transports hreached side.other
  have hreached := hreached.of_leads htaken
  obtain ⟨answered, data, p, hanswered, -, hdata, hmem, htold⟩ :=
    exists_answer transports hreached hempty (.inr (hstays htell))
  have hreached := hreached.of_leads hanswered
  obtain ⟨next, hnext, hone, -⟩ := @leads_call start answered side (.input data) trivial hdata
  rw [← hconv answered hreached side] at hmem htold
  refine ⟨next, (((hasked.trans hheard).trans htaken).trans hanswered).trans hnext, ?_⟩
  rw [hone]
  exact Ikcpcb.rmtWnd_input hmem fun q hq => (htold q hq).2

/-- If the window is open, what waits can be numbered. -/
theorem exists_kept (transports : OfTransports conv start) (reached : Reached start s)
    (opened : (s.kcps side).rmtWnd ≠ 0) (waits : 0 < (s.kcps side).waitsnd) :
    ∃ next, (machine start).Leads Quiet s next ∧ (next.kcps side).sndBuf ≠ [] := by
  have hself (time : UInt32) : 0 ≤ itimediff time time :=
    (diff_nonneg_iff _ _).mpr (by rw [offset_self]; decide)
  -- the first flush opens the congestion window
  obtain ⟨first, tsFlush, hfirst, hone, -⟩ := @exists_tick start s side _ (hself _)
  let kcp := (s.kcps side).clock (s.kcps side).current tsFlush
  have hcwnd : (first.kcps side).cwnd ≠ 0 := by
    rw [hone]
    exact @Ikcpcb.cwnd_flush kcp rfl
  have hrmtWnd : (first.kcps side).rmtWnd ≠ 0 := by
    have hflush : kcp.flush.rmtWnd = (s.kcps side).rmtWnd :=
      (congrArg Ikcpcb.rmtWnd kcp.unflushed_flush :)
    rw [hone]
    exact hflush.trans_ne opened
  have hwaits : (first.kcps side).waitsnd = (s.kcps side).waitsnd := by
    rw [hone]
    exact kcp.waitsnd_flush
  by_cases hnone : (first.kcps side).sndBuf = []
  · have hreached := reached.of_leads hfirst
    obtain ⟨next, tsFlush, hnext, hone, -⟩ := @exists_tick start first side _ (hself _)
    refine ⟨next, hfirst.trans hnext, ?_⟩
    let kcp := (first.kcps side).clock (first.kcps side).current tsFlush
    have hqueue : (first.kcps side).sndQueue ≠ [] := by
      intro hempty
      rw [Ikcpcb.waitsnd, hnone, hempty] at hwaits
      rw [← hwaits] at waits
      exact lt_irrefl _ waits
    obtain ⟨hsndWnd, -⟩ := windows_of_reached transports hreached side
    have hwindow : kcp.SendWindow :=
      (sendWindow_of_reached transports hreached side).of_outbound rfl
    have hroom : 0 < kcp.window.toNat :=
      @Ikcpcb.window_pos kcp (by rw [show kcp.sndWnd = 4096 from hsndWnd]; decide) hrmtWnd hcwnd
    have hsome := @Ikcpcb.filled_ne_nil kcp hwindow hnone hqueue hroom
    obtain ⟨seg, segs, hsegs⟩ := List.exists_cons_of_ne_nil hsome
    have hbuf := @Ikcpcb.untimed_flush kcp rfl
    rw [hone]
    intro hempty
    rw [show kcp.flush.sndBuf = [] from hempty, hsegs] at hbuf
    cases hbuf
  · exact ⟨first, hfirst, hnone⟩

/-- As long as something waits to be sent, there is a way to less. -/
theorem exists_fewer (transports : OfTransports conv start) (reached : Reached start s)
    (waits : 0 < (s.kcps side).waitsnd) :
    ∃ next, (machine start).Leads Quiet s next ∧
      (next.kcps side).waitsnd < (s.kcps side).waitsnd := by
  have hkept (t : Pair) (leads : (machine start).Leads Quiet s t)
      (some : (t.kcps side).sndBuf ≠ []) :
      ∃ next, (machine start).Leads Quiet s next ∧
        (next.kcps side).waitsnd < (s.kcps side).waitsnd := by
    obtain ⟨first, rest, hbuf⟩ := List.exists_cons_of_ne_nil some
    obtain ⟨next, hnext, hfewer⟩ := exists_fewer_of_kept transports (reached.of_leads leads) hbuf
    exact ⟨next, leads.trans hnext, hfewer.trans_le ((kept_of_leads leads).2 side).2⟩
  have hopen (t : Pair) (leads : (machine start).Leads Quiet s t)
      (opened : (t.kcps side).rmtWnd ≠ 0) (waits : 0 < (t.kcps side).waitsnd) :
      ∃ next, (machine start).Leads Quiet s next ∧
        (next.kcps side).waitsnd < (s.kcps side).waitsnd := by
    obtain ⟨next, hnext, hsome⟩ := exists_kept transports (reached.of_leads leads) opened waits
    exact hkept next (leads.trans hnext) hsome
  by_cases hclosed : (s.kcps side).rmtWnd = 0
  · obtain ⟨next, hnext, hopened⟩ := exists_open transports reached hclosed
    rcases ((kept_of_leads hnext).2 side).2.lt_or_eq with hless | hsame
    · exact ⟨next, hnext, hless⟩
    · exact hopen next hnext hopened (hsame ▸ waits)
  · exact hopen s .refl hclosed waits

end Exchange

/-! ## The way to the end -/

section End

variable {conv : UInt32} {start : Side → Ikcpcb} {s : Pair}

/-- Everything that waits to be sent can be sent and acknowledged. -/
theorem exists_settled (transports : OfTransports conv start) (reached : Reached start s) :
    ∃ next, (machine start).Leads Quiet s next ∧ ∀ side, (next.kcps side).waitsnd = 0 := by
  have hprogress := @Machine.exists_leads_of_progress Pair (Side × Call) (machine start) Quiet s
    (Reached start) (fun t => (t.kcps .left).waitsnd + (t.kcps .right).waitsnd) ?_ reached
  · obtain ⟨next, hnext, -, hzero⟩ := hprogress
    obtain ⟨hleft, hright⟩ := Nat.add_eq_zero_iff.mp hzero
    exact ⟨next, hnext, fun side => side.rec hleft hright⟩
  intro t hreached hwaits
  have hless (side : Side) (waits : 0 < (t.kcps side).waitsnd) :
      ∃ next, (machine start).Leads Quiet t next ∧ Reached start next ∧
        (next.kcps .left).waitsnd + (next.kcps .right).waitsnd <
          (t.kcps .left).waitsnd + (t.kcps .right).waitsnd := by
    obtain ⟨next, hnext, hfewer⟩ := exists_fewer transports hreached waits
    have hle := (kept_of_leads hnext).2 side.other
    refine ⟨next, hnext, hreached.of_leads hnext, ?_⟩
    cases side with
    | left => exact Nat.add_lt_add_of_lt_of_le hfewer hle.2
    | right => exact Nat.add_lt_add_of_le_of_lt hle.2 hfewer
  rcases Nat.eq_zero_or_pos (t.kcps .left).waitsnd with hzero | hpositive
  · exact hless .right (by omega)
  · exact hless .left hpositive

/-- And then everything can be taken. -/
theorem exists_taken (transports : OfTransports conv start) (reached : Reached start s) :
    ∃ next, (machine start).Leads Quiet s next ∧ ∀ side, (next.kcps side).waitsnd = 0 ∧
      (next.kcps side).rcvQueue = [] := by
  obtain ⟨settled, hsettled, hzero⟩ := exists_settled transports reached
  have hreached := reached.of_leads hsettled
  obtain ⟨left, hleft, hempty, -, -, -⟩ := exists_drained transports hreached .left
  have hreached := hreached.of_leads hleft
  obtain ⟨next, hright, hempty', -, -, hsame⟩ := exists_drained transports hreached .right
  have hleads := (hsettled.trans hleft).trans hright
  refine ⟨next, hleads, fun side => ⟨?_, ?_⟩⟩
  · have hle := ((kept_of_leads (hleft.trans hright)).2 side).2
    rw [hzero] at hle
    exact Nat.le_zero.mp hle
  · cases side with
    | left => exact (congrArg Ikcpcb.rcvQueue hsame :).trans hempty
    | right => exact hempty'

end End

end Pair

open Pair

/-- Two control blocks that transports set up never get stuck: from wherever a run got, and without
more being given, with clocks that go forward, both sides can acknowledge everything and take
everything that was given. -/
theorem exists_delivery_of_run {conv : UInt32} {start : Side → Ikcpcb}
    (transports : OfTransports conv start) {events : List (Side × Call)} {s : Pair}
    (run : (Pair.machine start).Run events s)
    (few : ∀ side, (s.kcps side).offered.length < 2 ^ 31) :
    ∃ next, (Pair.machine start).Leads Quiet s next ∧ ∀ side : Side,
      (next.kcps side).waitsnd = 0 ∧ (next.taken side.other).flatten = (s.given side).flatten := by
  have hreached : Reached start s := ⟨⟨events, run⟩, few⟩
  obtain ⟨next, hleads, hdone⟩ := exists_taken transports hreached
  refine ⟨next, hleads, fun side => ⟨(hdone side).1, ?_⟩⟩
  have hnext := hreached.of_leads hleads
  obtain ⟨events, hrun⟩ := hnext.run
  obtain ⟨hgiven, -⟩ := kept_of_leads hleads
  have hall := given_eq_append transports.setUp hrun hnext.numbered (hdone side).1
  have hnone := rcvBuf_eq_nil transports.setUp hrun hnext.numbered
    (List.length_eq_zero_iff.mp (Nat.add_eq_zero_iff.mp (hdone side).1).1) (by
      rw [(hdone side.other).2, (windows_of_reached transports hnext side.other).2]
      decide)
  rw [(hdone side.other).2, hnone, List.append_nil, List.flatMap_nil, List.append_nil,
    hgiven] at hall
  exact hall.symm

/-- Three bytes are sent, and did not arrive so far. -/
theorem exists_delivery_of_exchange :
    let M := Pair.machine fun _ => Ikcpcb.ofTransport 0x11223344 1 5 2 1
    let s := M.reached (Pair.exchange.take 3)
    ∃ next, M.Leads Quiet s next ∧ ∀ side : Side,
      (next.kcps side).waitsnd = 0 ∧ (next.taken side.other).flatten = (s.given side).flatten :=
  exists_delivery_of_run (fun _ => ⟨1, 5, 2, 1, rfl⟩) (Machine.run_reached (by decide +kernel))
    (by rintro (_ | _) <;> decide +kernel)

end Sxaint.Ikcp
