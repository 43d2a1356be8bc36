/-
# Acknowledgements

What a segment says is so: the item of a number never changes, a cumulative acknowledgement covers
what is in order, and a selective one names a segment that arrived. So nothing is let go of before
the other side has it. A selective acknowledgement also repeats the time of a segment that was sent,
and that time was read from the clock of the side that measures the round trip by it.
-/

import Sxaint.Ikcp.Delivery

namespace Sxaint.Ikcp

open SelectiveRepeat Transition

/-- What a segment says of the side that has sent it. -/
structure Truthful (kcp : Ikcpcb) (p : Packet) : Prop where
  push : p.cmd = cmdPush → kcp.numbered[p.sn.toNat]? = some p.item
  una : p.una.toNat ≤ kcp.ordered.length
  ack : p.cmd = cmdAck → p.sn.toNat < kcp.ordered.length ∨ ∃ seg ∈ kcp.rcvBuf, seg.sn = p.sn

section Run

variable {conv : UInt32} {start : Side → Ikcpcb} {events : List (Side × Call)} {s : Pair}

/-- Every segment that was sent is truthful, and as long as an item is not with the other side, it
is kept. -/
theorem truthful_of_run (setUp : ∀ side, SetUp conv (start side))
    (run : (Pair.machine start).Run events s)
    (few : ∀ side, (s.kcps side).numbered.length < 2 ^ 31) (side : Side) :
    (∀ data ∈ (s.kcps side).outputs, ∀ p ∈ (segments conv data).1, Truthful (s.kcps side) p) ∧
      ∀ n < (s.kcps side).numbered.length,
        (∃ seg ∈ (s.kcps side).sndBuf, seg.sn.toNat = n ∧
          (s.kcps side).numbered[n]? = some seg.item) ∨
        n < (s.kcps side.other).ordered.length ∨
        ∃ seg ∈ (s.kcps side.other).rcvBuf, seg.sn.toNat = n := by
  obtain ⟨flows, hflows⟩ := flows_of_run setUp run few
  obtain ⟨hsteps, hrefines⟩ := hflows side
  obtain ⟨hback, hother⟩ := hflows side.other
  rw [Side.other_other] at hother
  have hsafe := safe_of_steps safe_init hsteps
  have hsafe' := safe_of_steps safe_init hback
  have htransmits := hrefines.transmits
  have htakes := hrefines.takes
  constructor
  · intro data hdata p hp
    have hauthentic := (((hrefines.network data hdata).segments fun p hp => hp.1).2.2 p hp).2
    refine ⟨fun hpush => ?_, ?_, fun hack => ?_⟩
    · rw [← htransmits.sent]
      exact hsafe.carried _ _ (hauthentic.push hpush)
    · rw [← htakes.delivered]
      exact hsafe'.cumulative _ hauthentic.una
    · rcases hsafe'.selective _ (hauthentic.ack hack) with hlt | ⟨item, hitem⟩
      · rw [htakes.delivered] at hlt
        exact .inl hlt
      · obtain ⟨seg, hseg, hsn, -⟩ := (htakes.ahead _ _).mp hitem
        exact .inr ⟨seg, hseg, UInt32.toNat_inj.mp hsn⟩
  · intro n hn
    rw [← htransmits.sent] at hn
    rcases hsafe.accounted n hn with hkept | hlt | ⟨item, hitem⟩
    · obtain ⟨seg, hseg, rfl⟩ := htransmits.kept n hkept
      exact .inl ⟨seg, hseg, rfl, htransmits.own seg hseg⟩
    · rw [hother.takes.delivered] at hlt
      exact .inr (.inl hlt)
    · obtain ⟨seg, hseg, hsn, -⟩ := (hother.takes.ahead _ _).mp hitem
      exact .inr (.inr ⟨seg, hseg, hsn⟩)

/-- Three bytes are sent, taken and acknowledged. -/
theorem truthful_of_exchange :
    let M := Pair.machine fun _ => Ikcpcb.ofTransport 0x11223344 1 5 2 1
    let s := M.reached Pair.exchange
    (∀ data ∈ (s.kcps .left).outputs, ∀ p ∈ (segments 0x11223344 data).1,
      Truthful (s.kcps .left) p) ∧
      ∀ n < (s.kcps .left).numbered.length,
        (∃ seg ∈ (s.kcps .left).sndBuf, seg.sn.toNat = n ∧
          (s.kcps .left).numbered[n]? = some seg.item) ∨
        n < (s.kcps .right).ordered.length ∨
        ∃ seg ∈ (s.kcps .right).rcvBuf, seg.sn.toNat = n :=
  truthful_of_run (fun _ => Ikcpcb.setUp_ofTransport _ _ _ _ _)
    (Machine.run_reached (by decide +kernel)) (by rintro (_ | _) <;> decide +kernel) .left

end Run

/-! ## The time that is repeated -/

namespace Ikcpcb

/-- The segments that were sent. -/
def Wrote (conv : UInt32) (kcp : Ikcpcb) (p : Packet) : Prop :=
  ∃ data ∈ kcp.outputs, p ∈ (segments conv data).1

section Keeps

variable {conv : UInt32} {kcp : Ikcpcb}

/-- A segment that a flush has sent is one that was sent before, or one that it may write. -/
theorem wrote_flush (sized : kcp.Sized conv) {p : Packet} (wrote : kcp.flush.Wrote conv p) :
    kcp.Wrote conv p ∨ kcp.updated = true ∧ kcp.Emits p := by
  cases hupdated : kcp.updated with
  | false =>
      rw [flush, hupdated] at wrote
      exact .inl wrote
  | true =>
      obtain ⟨data, hdata, hp⟩ := wrote
      rcases sized.outputs_flush.2 data hdata with hold | ⟨-, hcarries⟩
      · exact .inl ⟨data, hold, hp⟩
      · have hemits := (hcarries.segments fun p hp => (fits_of_emits sized hp).valid).2.2 p hp
        exact .inr ⟨rfl, hemits⟩

/-- What is to be acknowledged after a datagram was read. -/
theorem ackList_input (data : List UInt8) {entry : UInt32 × UInt32}
    (due : entry ∈ (kcp.input data).2.ackList) :
    entry ∈ kcp.ackList ∨
      ∃ p ∈ (segments kcp.conv data).1, p.cmd = cmdPush ∧ entry = (p.sn, p.ts) := by
  have hsame {k after : Ikcpcb} (same : after.unheard = k.unheard) : after.ackList = k.ackList := by
    rw [← ackList_unheard, same, ackList_unheard]
  refine input_induct (motive := fun k => entry ∈ k.ackList → entry ∈ kcp.ackList ∨
    ∃ p ∈ (segments kcp.conv data).1, p.cmd = cmdPush ∧ entry = (p.sn, p.ts)) .inl ?_ ?_ ?_ ?_ ?_
    due
  · intro k p _ ih hdue
    rw [hsame (k.unheard_heed p)] at hdue
    exact ih hdue
  · intro k p _ _ ih hdue
    rw [hsame (k.unheard_acknowledge p)] at hdue
    exact ih hdue
  · intro k p hp hpush ih hdue
    rw [ackList_push] at hdue
    split at hdue
    · rcases List.mem_append.mp hdue with hold | hnew
      · exact ih hold
      · exact .inr ⟨p, hp, hpush, List.mem_singleton.mp hnew⟩
    · exact ih hdue
  · exact fun k ih => ih
  · intro k una latest ih hdue
    rw [hsame (k.unheard_conclude una latest)] at hdue
    exact ih hdue

/-- A call that is no flush sends nothing. -/
theorem outputs_apply (sized : kcp.Sized conv) (call : Call) :
    (kcp.apply call).outputs = kcp.outputs ∨
      ∃ k : Ikcpcb, k.Sized conv ∧ kcp.apply call = k.flush ∧ k.outputs = kcp.outputs ∧
        k.ackList = kcp.ackList ∧
        (k = kcp ∨ ∃ current tsFlush, call = .update current ∧ k = kcp.clock current tsFlush) := by
  cases call with
  | send buffer => exact .inl (congrArg Ikcpcb.outputs (kcp.unqueued_send buffer) :)
  | recv len => exact .inl (congrArg Ikcpcb.outputs (kcp.unreceived_recv len) :)
  | input data => exact .inl (congrArg Ikcpcb.outputs (kcp.unread_input data) :)
  | update current =>
      rw [apply]
      obtain ⟨tsFlush, heq | heq⟩ := kcp.update_cases current
      · rw [heq]
        exact .inl rfl
      · rw [heq]
        exact .inr ⟨kcp.clock current tsFlush, sized.of_among rfl rfl (List.Subset.refl _), rfl,
          rfl, rfl, .inr ⟨current, tsFlush, rfl, rfl⟩⟩
  | flush => exact .inr ⟨kcp, sized, rfl, rfl, rfl, .inl rfl⟩

/-- What was sent stays sent. -/
theorem Wrote.apply (sized : kcp.Sized conv) (call : Call) {p : Packet}
    (wrote : kcp.Wrote conv p) : (kcp.apply call).Wrote conv p := by
  obtain ⟨data, hdata, hp⟩ := wrote
  refine ⟨data, ?_, hp⟩
  rcases outputs_apply sized call with hsame | ⟨k, hsized, hflush, hsame, -⟩
  · rw [hsame]
    exact hdata
  · rw [hflush]
    rw [← hsame] at hdata
    exact hsized.outputs_flush.1.subset hdata

theorem current_unread (kcp : Ikcpcb) :
    kcp.unread.current = kcp.current ∧ kcp.unread.updated = kcp.updated :=
  ⟨rfl, rfl⟩

/-- The clock is set by an update only. -/
theorem current_apply (kcp : Ikcpcb) (call : Call) :
    (kcp.apply call).current = kcp.current ∧ (kcp.apply call).updated = kcp.updated ∨
      call = .update (kcp.apply call).current := by
  have hflush (k : Ikcpcb) : k.flush.current = k.current ∧ k.flush.updated = k.updated :=
    ⟨(congrArg Ikcpcb.current k.unflushed_flush :), (congrArg Ikcpcb.updated k.unflushed_flush :)⟩
  cases call with
  | send buffer =>
      exact .inl ⟨(congrArg Ikcpcb.current (kcp.unqueued_send buffer) :),
        (congrArg Ikcpcb.updated (kcp.unqueued_send buffer) :)⟩
  | recv len =>
      exact .inl ⟨(congrArg Ikcpcb.current (kcp.unreceived_recv len) :),
        (congrArg Ikcpcb.updated (kcp.unreceived_recv len) :)⟩
  | input data =>
      obtain ⟨hcurrent, hupdated⟩ := kcp.current_unread
      obtain ⟨hcurrent', hupdated'⟩ := (kcp.input data).2.current_unread
      rw [unread_input] at hcurrent' hupdated'
      exact .inl ⟨hcurrent'.symm.trans hcurrent, hupdated'.symm.trans hupdated⟩
  | update current =>
      right
      rw [apply]
      obtain ⟨tsFlush, heq | heq⟩ := kcp.update_cases current
      · rw [heq]
        rfl
      · rw [heq, (hflush _).1]
        rfl
  | flush => exact .inl (hflush kcp)

/-- What is to be acknowledged after a call. -/
theorem ackList_apply {call : Call} {entry : UInt32 × UInt32}
    (due : entry ∈ (kcp.apply call).ackList) :
    entry ∈ kcp.ackList ∨ ∃ data, call = .input data ∧
      ∃ p ∈ (segments kcp.conv data).1, p.cmd = cmdPush ∧ entry = (p.sn, p.ts) := by
  have hflush {k : Ikcpcb} (due : entry ∈ k.flush.ackList) : entry ∈ k.ackList := by
    cases hupdated : k.updated with
    | false =>
        rw [flush, hupdated] at due
        exact due
    | true =>
        have hnone : k.flush.ackList = [] :=
          (congrArg Ikcpcb.ackList (uncongested_flush hupdated) :).trans k.ackList_filled
        rw [hnone] at due
        cases due
  cases call with
  | send buffer =>
      have hsame : (kcp.apply (.send buffer)).ackList = kcp.ackList :=
        (congrArg Ikcpcb.ackList (kcp.unqueued_send buffer) :)
      rw [hsame] at due
      exact .inl due
  | recv len =>
      have hsame : (kcp.apply (.recv len)).ackList = kcp.ackList :=
        (congrArg Ikcpcb.ackList (kcp.unreceived_recv len) :)
      rw [hsame] at due
      exact .inl due
  | input data => exact (ackList_input data due).imp id fun hnew => ⟨data, rfl, hnew⟩
  | update current =>
      rw [apply] at due
      obtain ⟨tsFlush, heq | heq⟩ := kcp.update_cases current
      · rw [heq] at due
        exact .inl due
      · rw [heq] at due
        exact .inl (@hflush (kcp.clock current tsFlush) due)
  | flush => exact .inl (hflush due)

end Keeps

end Ikcpcb

/-- The times that one side has to do with, after the calls of a run. -/
structure Echoes (conv : UInt32) (events : List (Side × Call)) (s : Pair) (side : Side) :
    Prop where
  clock : (s.kcps side).updated = true → (side, .update (s.kcps side).current) ∈ events
  push : ∀ p, (s.kcps side).Wrote conv p → p.cmd = cmdPush → (side, .update p.ts) ∈ events
  due : ∀ sn ts, (sn, ts) ∈ (s.kcps side).ackList →
    ∃ p, (s.kcps side.other).Wrote conv p ∧ p.cmd = cmdPush ∧ p.sn = sn ∧ p.ts = ts
  ack : ∀ p, (s.kcps side).Wrote conv p → p.cmd = cmdAck →
    ∃ q, (s.kcps side.other).Wrote conv q ∧ q.cmd = cmdPush ∧ q.sn = p.sn ∧ q.ts = p.ts

section Run

variable {conv : UInt32} {start : Side → Ikcpcb} {events : List (Side × Call)} {s : Pair}

theorem sized_of_run (setUp : ∀ side, SetUp conv (start side))
    (run : (Pair.machine start).Run events s) (side : Side) : (s.kcps side).Sized conv :=
  Pair.of_run run side (Ikcpcb.sized_of_setUp (setUp side)) fun _ call sized =>
    Ikcpcb.sized_apply sized call

/-- The side that is called keeps its times. -/
theorem echoes_one {next : Pair} {side : Side} {call : Call} (sized : (s.kcps side).Sized conv)
    (taken : Pair.step (side, call) s = some next) (echoes : Echoes conv events s side) :
    Echoes conv (events ++ [(side, call)]) next side := by
  obtain ⟨hpossible, hone, hother, -⟩ := Pair.step_cases taken
  have hgrow {event : Side × Call} (old : event ∈ events) : event ∈ events ++ [(side, call)] :=
    List.mem_append_left _ old
  -- what was sent now was sent before, or by a flush at a time that was set
  have hwrote {p : Packet} (wrote : ((s.kcps side).apply call).Wrote conv p) :
      (s.kcps side).Wrote conv p ∨
        ∃ k : Ikcpcb, k.Sized conv ∧ k.Emits p ∧ k.ackList = (s.kcps side).ackList ∧
          (side, .update k.current) ∈ events ++ [(side, call)] := by
    rcases Ikcpcb.outputs_apply sized call with hsame | ⟨k, hsized, hflush, hsame, hacks, hk⟩
    · obtain ⟨data, hdata, hp⟩ := wrote
      rw [hsame] at hdata
      exact .inl ⟨data, hdata, hp⟩
    rw [hflush] at wrote
    rcases Ikcpcb.wrote_flush hsized wrote with ⟨data, hdata, hp⟩ | ⟨hupdated, hemits⟩
    · rw [hsame] at hdata
      exact .inl ⟨data, hdata, hp⟩
    · refine .inr ⟨k, hsized, hemits, hacks, ?_⟩
      rcases hk with rfl | ⟨current, tsFlush, rfl, rfl⟩
      · exact hgrow (echoes.clock hupdated)
      · exact List.mem_append_right _ (List.mem_singleton_self _)
  refine ⟨fun hupdated => ?_, fun p hp hpush => ?_, fun sn ts hdue => ?_, fun p hp hack => ?_⟩
  · rw [hone] at hupdated ⊢
    rcases (s.kcps side).current_apply call with ⟨hcurrent, hsame⟩ | hupdate
    · rw [hsame] at hupdated
      rw [hcurrent]
      exact hgrow (echoes.clock hupdated)
    · rw [← hupdate]
      exact List.mem_append_right _ (List.mem_singleton_self _)
  · rw [hone] at hp
    rcases hwrote hp with hold | ⟨k, -, hemits, -, hclock⟩
    · exact hgrow (echoes.push p hold hpush)
    · cases hemits with
      | push kept => exact hclock
      | ack due => exact absurd hpush nofun
      | wask sn ts => exact absurd hpush nofun
      | wins sn ts => exact absurd hpush nofun
  · rw [hone] at hdue
    rw [hother]
    rcases Ikcpcb.ackList_apply hdue with hold | ⟨data, rfl, p, hp, hpush, hentry⟩
    · exact echoes.due sn ts hold
    · obtain ⟨rfl, rfl⟩ := Prod.mk.inj hentry
      rw [sized.configured.conv] at hp
      exact ⟨p, ⟨data, hpossible, hp⟩, hpush, rfl, rfl⟩
  · rw [hone] at hp
    rw [hother]
    rcases hwrote hp with hold | ⟨k, hsized, hemits, hacks, -⟩
    · exact echoes.ack p hold hack
    · cases hemits with
      | @ack sn ts due =>
          rw [hacks] at due
          exact echoes.due sn ts due
      | wask sn ts => exact absurd hack nofun
      | wins sn ts => exact absurd hack nofun
      | @push seg kept =>
          have hcmd := ((Ikcpcb.sized_filled hsized).buf seg kept).2.1
          exact absurd (hcmd.symm.trans hack) (by decide)

/-- The side that is not called keeps its times. -/
theorem echoes_other {next : Pair} {side : Side} {call : Call} (sized : (s.kcps side).Sized conv)
    (taken : Pair.step (side, call) s = some next) (echoes : Echoes conv events s side.other) :
    Echoes conv (events ++ [(side, call)]) next side.other := by
  obtain ⟨-, hone, hother, -⟩ := Pair.step_cases taken
  have hgrow {event : Side × Call} (old : event ∈ events) : event ∈ events ++ [(side, call)] :=
    List.mem_append_left _ old
  refine ⟨fun hupdated => ?_, fun p hp hpush => ?_, fun sn ts hdue => ?_, fun p hp hack => ?_⟩
  · rw [hother] at hupdated ⊢
    exact hgrow (echoes.clock hupdated)
  · rw [hother] at hp
    exact hgrow (echoes.push p hp hpush)
  · rw [hother] at hdue
    obtain ⟨q, hq, hrest⟩ := echoes.due sn ts hdue
    rw [Side.other_other] at hq ⊢
    rw [hone]
    exact ⟨q, hq.apply sized call, hrest⟩
  · rw [hother] at hp
    obtain ⟨q, hq, hrest⟩ := echoes.ack p hp hack
    rw [Side.other_other] at hq ⊢
    rw [hone]
    exact ⟨q, hq.apply sized call, hrest⟩

/-- A selective acknowledgement repeats the number and the time of a segment that the other side
has sent, and that side has read the time from its clock. -/
theorem echo_of_run (setUp : ∀ side, SetUp conv (start side))
    (run : (Pair.machine start).Run events s) {side : Side} {p : Packet}
    (wrote : (s.kcps side.other).Wrote conv p) (ack : p.cmd = cmdAck) :
    (side, .update p.ts) ∈ events ∧
      ∃ q, (s.kcps side).Wrote conv q ∧ q.cmd = cmdPush ∧ q.sn = p.sn ∧ q.ts = p.ts := by
  have hechoes : ∀ side, Echoes conv events s side := by
    refine run.induct (motive := fun events s => ∀ side, Echoes conv events s side) ?_ ?_
    · intro side
      have hbare := Ikcpcb.bare_of_setUp (setUp side)
      have hupdated : (start side).updated = false := (congrArg Ikcpcb.updated hbare :)
      have hacks : (start side).ackList = [] := (congrArg Ikcpcb.ackList hbare :)
      have houtputs : (start side).outputs = [] := (congrArg Ikcpcb.outputs hbare :)
      have hnone {p : Packet} : ¬(start side).Wrote conv p := by
        rintro ⟨data, hdata, -⟩
        rw [houtputs] at hdata
        cases hdata
      refine ⟨fun h => ?_, fun p hp => (hnone hp).elim, fun sn ts hdue => ?_,
        fun p hp => (hnone hp).elim⟩
      · exact absurd (hupdated.symm.trans h) Bool.false_ne_true
      · rw [Pair.machine, hacks] at hdue
        cases hdue
    · rintro events s ⟨one, call⟩ next run ih - taken side
      have hsized := sized_of_run setUp run one
      rcases one.eq_or_eq_other side with rfl | rfl
      · exact echoes_one hsized taken (ih side)
      · exact echoes_other hsized taken (ih one.other)
  obtain ⟨q, hq, hpush, hsn, hts⟩ := (hechoes side.other).ack p wrote ack
  rw [Side.other_other] at hq
  refine ⟨?_, q, hq, hpush, hsn, hts⟩
  rw [← hts]
  exact (hechoes side).push q hq hpush

/-- The acknowledgement of three bytes repeats the time at which they were sent. -/
theorem echo_of_exchange :
    let M := Pair.machine fun _ => Ikcpcb.ofTransport 0x11223344 1 5 2 1
    let s := M.reached Pair.exchange
    (.left, .update 0) ∈ Pair.exchange ∧
      ∃ q, (s.kcps .left).Wrote 0x11223344 q ∧ q.cmd = cmdPush ∧ q.sn = 0 ∧ q.ts = 0 :=
  @echo_of_run 0x11223344 _ _ _ (fun _ => Ikcpcb.setUp_ofTransport _ _ _ _ _)
    (Machine.run_reached (by decide +kernel)) .left
    { conv := 0x11223344, cmd := cmdAck, frg := 0, wnd := 4095, ts := 0, sn := 0, una := 1,
      data := [] }
    ⟨[68, 51, 34, 17, 82, 0, 255, 15, 0, 0, 0, 0, 0, 0, 0, 0, 1, 0, 0, 0, 0, 0, 0, 0],
      by decide +kernel, by decide +kernel⟩ rfl

end Run

end Sxaint.Ikcp
