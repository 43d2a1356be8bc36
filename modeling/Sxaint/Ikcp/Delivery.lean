/-
# What arrives

Over a network that loses, repeats, reorders and delays, the bytes that one side takes are the first
of those that the other side gave, and if messages are kept apart, its messages are the first of the
other side's. When a side has nothing left to send, the other side has everything: taken, in its
queue or in its buffer.
-/

import Sxaint.Ikcp.Accounts

namespace Sxaint.Ikcp

open SelectiveRepeat Serial Transition

section Run

variable {conv : UInt32} {start : Side → Ikcpcb} {events : List (Side × Call)} {s : Pair}

/-- What the set-up assigned stays. -/
theorem configuration_of_run (run : (Pair.machine start).Run events s) (side : Side) :
    (s.kcps side).configuration = (start side).configuration :=
  Pair.of_run (motive := fun kcp => kcp.configuration = (start side).configuration) run side rfl
    fun kcp call same => (kcp.configuration_apply call).trans same

/-- The accounts of both sides are kept. -/
theorem accounts_of_run (setUp : ∀ side, SetUp conv (start side))
    (run : (Pair.machine start).Run events s) (side : Side) :
    (s.kcps side).Accounts (s.given side) (s.taken side) := by
  have hconfigured (side : Side) := Ikcpcb.configured_of_setUp (setUp side)
  refine run.induct
    (motive := fun _ s => (s.kcps side).Accounts (s.given side) (s.taken side)) ?_ ?_
  · have hbare := Ikcpcb.bare_of_setUp (setUp side)
    have hnumbered : (start side).numbered = [] := (congrArg Ikcpcb.numbered hbare :)
    have hqueue : (start side).sndQueue = [] := (congrArg Ikcpcb.sndQueue hbare :)
    have hordered : (start side).ordered = [] := (congrArg Ikcpcb.ordered hbare :)
    have hwaiting : (start side).rcvQueue = [] := (congrArg Ikcpcb.rcvQueue hbare :)
    refine ⟨?_, ?_⟩
    · dsimp only [Pair.machine]
      rw [Ikcpcb.offered, hnumbered, hqueue]
      rfl
    · refine ⟨[], ?_, rfl⟩
      dsimp only [Pair.machine]
      rw [Ikcpcb.Splits, Ikcpcb.waiting, hordered, hwaiting]
      rfl
  rintro events s ⟨one, call⟩ next run ih - taken
  obtain ⟨-, hone, hother, hgiven, hgiven', htaken, htaken'⟩ := Pair.step_cases taken
  rcases one.eq_or_eq_other side with rfl | rfl
  · have hmss := ((hconfigured side).of_configuration (configuration_of_run run side)).mss.1
    rw [hone, hgiven, htaken]
    exact Ikcpcb.accounts_apply hmss ih call
  · rw [hother, hgiven', htaken']
    exact ih

/-- What one side has put in order are the first of the items to which the other side gave a
number. -/
theorem ordered_prefix (setUp : ∀ side, SetUp conv (start side))
    (run : (Pair.machine start).Run events s)
    (few : ∀ side, (s.kcps side).numbered.length < 2 ^ 31) (side : Side) :
    (s.kcps side.other).ordered <+: (s.kcps side).numbered := by
  obtain ⟨flows, hflows⟩ := flows_of_run setUp run few
  obtain ⟨hsteps, hrefines⟩ := hflows side
  have htakes := (hflows side.other).2.takes
  rw [Side.other_other] at htakes
  have hordered := (safe_of_steps safe_init hsteps).ordered
  rw [hrefines.transmits.sent, htakes.delivered] at hordered
  exact hordered

/-- The bytes that one side took are the first of those that the other side gave. -/
theorem flatten_taken_prefix (setUp : ∀ side, SetUp conv (start side))
    (run : (Pair.machine start).Run events s)
    (few : ∀ side, (s.kcps side).numbered.length < 2 ^ 31) (side : Side) :
    (s.taken side.other).flatten <+: (s.given side).flatten := by
  have hgiven := (accounts_of_run setUp run side).given
  obtain ⟨front, hsplits, hfront⟩ := (accounts_of_run setUp run side.other).taken
  obtain ⟨rest, hrest⟩ := ordered_prefix setUp run few side
  rw [Ikcpcb.Splits] at hsplits
  rw [← hgiven, ← hfront, Ikcpcb.offered, ← hrest, hsplits, bytesOf_append, bytesOf_append,
    bytesOf_append, List.append_assoc, List.append_assoc]
  exact List.prefix_append _ _

/-- As long as neither side has used half of the numbers, the bytes that each side took are the
first of those that the other side gave, in whatever way datagrams are lost, repeated, reordered or
late. -/
theorem taken_prefix (setUp : ∀ side, SetUp conv (start side))
    (run : (Pair.machine start).Run events s)
    (few : ∀ side, (s.kcps side).numbered.length < 2 ^ 31) :
    ∀ side : Side, (s.taken side.other).flatten <+: (s.given side).flatten :=
  fun side => flatten_taken_prefix setUp run few side

/-- Three bytes are sent, taken and acknowledged. -/
theorem taken_prefix_exchange :
    let M := Pair.machine fun _ => Ikcpcb.ofTransport 0x11223344 1 5 2 1
    let s := M.reached Pair.exchange
    ∀ side : Side, (s.taken side.other).flatten <+: (s.given side).flatten :=
  taken_prefix (fun _ => Ikcpcb.setUp_ofTransport _ _ _ _ _)
    (Machine.run_reached (by decide +kernel)) (by rintro (_ | _) <;> decide +kernel)

/-- With nothing unacknowledged on one side, the other side has put in order or buffered each
number. -/
theorem received_of_sndBuf (setUp : ∀ side, SetUp conv (start side))
    (run : (Pair.machine start).Run events s)
    (few : ∀ side, (s.kcps side).numbered.length < 2 ^ 31) {side : Side}
    (none : (s.kcps side).sndBuf = []) :
    ∀ n < (s.kcps side).numbered.length, n < (s.kcps side.other).ordered.length ∨
      ∃ seg ∈ (s.kcps side.other).rcvBuf, seg.sn.toNat = n := by
  obtain ⟨flows, hflows⟩ := flows_of_run setUp run few
  obtain ⟨hsteps, hrefines⟩ := hflows side
  have htakes := (hflows side.other).2.takes
  rw [Side.other_other] at htakes
  intro n hn
  rw [← hrefines.transmits.sent] at hn
  rcases (safe_of_steps safe_init hsteps).accounted n hn with hkept | hlt | ⟨item, hitem⟩
  · obtain ⟨seg, hseg, -⟩ := hrefines.transmits.kept n hkept
    rw [none] at hseg
    cases hseg
  · rw [htakes.delivered] at hlt
    exact .inl hlt
  · obtain ⟨seg, hseg, hsn, -⟩ := (htakes.ahead n item).mp hitem
    exact .inr ⟨seg, hseg, hsn⟩

/-- Then the segments in the buffer of the other one are the rest of the items, in order. -/
theorem rcvBuf_eq_drop (setUp : ∀ side, SetUp conv (start side))
    (run : (Pair.machine start).Run events s)
    (few : ∀ side, (s.kcps side).numbered.length < 2 ^ 31) {side : Side}
    (none : (s.kcps side).sndBuf = []) :
    (s.kcps side.other).rcvBuf.map Seg.item =
      (s.kcps side).numbered.drop (s.kcps side.other).ordered.length := by
  have hreceived := received_of_sndBuf setUp run few none
  obtain ⟨flows, hflows⟩ := flows_of_run setUp run few
  obtain ⟨hsteps, hrefines⟩ := hflows side
  have hother := (hflows side.other).2
  rw [Side.other_other] at hother
  have hsafe := safe_of_steps safe_init hsteps
  have htakes := hother.takes
  have hahead : ∀ seg ∈ (s.kcps side.other).rcvBuf,
      (s.kcps side).numbered[seg.sn.toNat]? = some seg.item ∧
        (s.kcps side.other).ordered.length ≤ seg.sn.toNat := by
    intro seg hseg
    rw [← hrefines.transmits.sent, ← htakes.delivered]
    exact hsafe.ahead _ _ ((htakes.ahead _ _).mpr ⟨seg, hseg, rfl, rfl⟩)
  have hoffset : ∀ seg ∈ (s.kcps side.other).rcvBuf,
      offset (s.kcps side.other).rcvNxt seg.sn =
        seg.sn.toNat - (s.kcps side.other).ordered.length := by
    intro seg hseg
    have hle := (hahead seg hseg).2
    have hlt := seg.sn.toNat_lt
    have hnext := htakes.next
    have hmod := offset_eq_emod (s.kcps side.other).rcvNxt seg.sn
    omega
  have hdrop := @map_eq_drop _ ((s.kcps side.other).rcvBuf.map fun seg =>
    (seg.sn.toNat, seg.item)) (s.kcps side).numbered (s.kcps side.other).ordered.length ?_ ?_ ?_
  · rw [List.map_map] at hdrop
    exact hdrop
  · apply List.pairwise_map.mpr
    apply hother.window.holds.ascending.imp_of_mem
    intro a b ha hb hlt
    rw [hoffset a ha, hoffset b hb] at hlt
    dsimp only
    omega
  · intro entry hentry
    obtain ⟨seg, hseg, rfl⟩ := List.mem_map.mp hentry
    exact ⟨(hahead seg hseg).2, (hahead seg hseg).1⟩
  · intro n hn hless
    rcases hreceived n hless with hlt | ⟨seg, hseg, hsn⟩
    · omega
    · exact ⟨_, List.mem_map_of_mem hseg, hsn⟩

/-- When nothing waits to be sent on one side, the other side has all that was given. -/
theorem given_eq_append (setUp : ∀ side, SetUp conv (start side))
    (run : (Pair.machine start).Run events s)
    (few : ∀ side, (s.kcps side).numbered.length < 2 ^ 31) {side : Side}
    (settled : (s.kcps side).waitsnd = 0) :
    (s.given side).flatten = (s.taken side.other).flatten ++
      ((s.kcps side.other).rcvQueue ++ (s.kcps side.other).rcvBuf).flatMap Seg.data := by
  obtain ⟨hbuf, hqueue⟩ := Nat.add_eq_zero_iff.mp settled
  have hdrop := rcvBuf_eq_drop setUp run few (List.length_eq_zero_iff.mp hbuf)
  obtain ⟨rest, hrest⟩ := ordered_prefix setUp run few side
  rw [← hrest, List.drop_left] at hdrop
  have hdata (segs : List Seg) : segs.flatMap Seg.data = bytesOf (segs.map Seg.item) := by
    rw [bytesOf, List.flatMap_map]
    rfl
  have hgiven := (accounts_of_run setUp run side).given
  obtain ⟨front, hsplits, hfront⟩ := (accounts_of_run setUp run side.other).taken
  rw [← hgiven, ← hfront, Ikcpcb.offered, List.length_eq_zero_iff.mp hqueue, List.map_nil,
    List.append_nil, ← hrest, hsplits, bytesOf_append, bytesOf_append, List.flatMap_append, hdata,
    hdata, hdrop, List.append_assoc]
  rfl

/-- And as long as its queue has room, nothing is in its buffer. -/
theorem rcvBuf_eq_nil (setUp : ∀ side, SetUp conv (start side))
    (run : (Pair.machine start).Run events s)
    (few : ∀ side, (s.kcps side).numbered.length < 2 ^ 31) {side : Side}
    (none : (s.kcps side).sndBuf = [])
    (room : (s.kcps side.other).rcvQueue.length < (s.kcps side.other).rcvWnd.toNat) :
    (s.kcps side.other).rcvBuf = [] := by
  have hdrop := rcvBuf_eq_drop setUp run few none
  obtain ⟨rest, hrest⟩ := ordered_prefix setUp run few side
  rw [← hrest, List.drop_left] at hdrop
  obtain ⟨flows, hflows⟩ := flows_of_run setUp run few
  obtain ⟨-, hother⟩ := hflows side.other
  rw [List.eq_nil_iff_forall_not_mem]
  intro seg hseg
  have hwaiting := hother.window.waiting room
  have hmore : (s.kcps side.other).ordered.length < (s.kcps side).numbered.length := by
    have hlength := congrArg List.length hdrop
    have hpositive := List.length_pos_of_mem hseg
    rw [List.length_map] at hlength
    rw [← hrest, List.length_append]
    omega
  rcases received_of_sndBuf setUp run few none _ hmore with hlt | ⟨first, hfirst, hsn⟩
  · exact lt_irrefl _ hlt
  · refine hwaiting first hfirst (UInt32.toNat_inj.mp ?_)
    rw [hsn, hother.takes.next]

/-- When `ikcp_waitsnd` is 0 on one side, the other side has all that was given: it took it, or it
is in its queue or its buffer; and only if the queue is full is anything in the buffer. -/
theorem given_of_waitsnd (setUp : ∀ side, SetUp conv (start side))
    (run : (Pair.machine start).Run events s)
    (few : ∀ side, (s.kcps side).numbered.length < 2 ^ 31) {side : Side}
    (settled : (s.kcps side).waitsnd = 0) :
    (s.given side).flatten = (s.taken side.other).flatten ++
        ((s.kcps side.other).rcvQueue ++ (s.kcps side.other).rcvBuf).flatMap Seg.data ∧
      ((s.kcps side.other).rcvQueue.length < (s.kcps side.other).rcvWnd.toNat →
        (s.kcps side.other).rcvBuf = []) :=
  ⟨given_eq_append setUp run few settled, rcvBuf_eq_nil setUp run few
    (List.length_eq_zero_iff.mp (Nat.add_eq_zero_iff.mp settled).1)⟩

/-- The acknowledgement was read, so nothing waits to be sent. -/
theorem given_of_exchange :
    let M := Pair.machine fun _ => Ikcpcb.ofTransport 0x11223344 1 5 2 1
    let s := M.reached Pair.exchange
    (s.given .left).flatten = (s.taken .right).flatten ++
        ((s.kcps .right).rcvQueue ++ (s.kcps .right).rcvBuf).flatMap Seg.data ∧
      ((s.kcps .right).rcvQueue.length < (s.kcps .right).rcvWnd.toNat →
        (s.kcps .right).rcvBuf = []) :=
  @given_of_waitsnd _ _ _ _ (fun _ => Ikcpcb.setUp_ofTransport _ _ _ _ _)
    (Machine.run_reached (by decide +kernel)) (by rintro (_ | _) <;> decide +kernel) .left
    (by decide +kernel)

end Run

end Sxaint.Ikcp
