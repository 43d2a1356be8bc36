/-
# The receive window

Whatever datagrams arrive, a control block holds segments of its receive window only: those in the
buffer are ahead of the next one in order, by less than the size of the window, without repetition,
and those in the queue are not more than the size of the window. Nothing that could be handed on is
left in the buffer.
-/

import Mathlib.Data.List.Nodup
import Mathlib.Data.List.Perm.Subperm
import Sxaint.Ikcp.Calls
import Sxaint.Machine.Serial

namespace Sxaint.Ikcp

open Serial Transition

open Sxaint.Net.Kcp (itimediff)

/-- Numbers further and further ahead of a base. -/
def Ascending (base : UInt32) (segs : List Seg) : Prop :=
  segs.Pairwise fun a b => offset base a.sn < offset base b.sn

namespace Ikcpcb

/-- What was received. -/
def inbound (kcp : Ikcpcb) : UInt32 × UInt32 × List Seg × List Seg :=
  (kcp.rcvNxt, kcp.rcvWnd, kcp.rcvQueue, kcp.rcvBuf)

/-- The segments of a buffer, given as a list, are within the receive window and in order. -/
structure Holds (kcp : Ikcpcb) (segs : List Seg) : Prop where
  ascending : Ascending kcp.rcvNxt segs
  inside : ∀ seg ∈ segs, offset kcp.rcvNxt seg.sn < kcp.rcvWnd.toNat

/-- The receive window is kept. -/
structure ReceiveWindow (kcp : Ikcpcb) : Prop where
  small : kcp.rcvWnd.toNat < 2 ^ 31
  queue : kcp.rcvQueue.length ≤ kcp.rcvWnd.toNat
  holds : kcp.Holds kcp.rcvBuf
  /-- What is next in order is not in the buffer, unless the queue is full. -/
  waiting : kcp.rcvQueue.length < kcp.rcvWnd.toNat → ∀ seg ∈ kcp.rcvBuf, seg.sn ≠ kcp.rcvNxt

section Keeps

variable {kcp : Ikcpcb}

/-- A number within the window, seen from the end of the window. -/
theorem itimediff_eq {base a b : UInt32} (ha : offset base a < 2 ^ 31)
    (hb : offset base b < 2 ^ 31) :
    itimediff a b = (offset base a : ℤ) - offset base b :=
  diff_eq (by omega) (by omega)

/-- Of two numbers ahead of a base, the first one is removed and the base moves to its successor. -/
theorem offset_succ {base n : UInt32} (ahead : 0 < offset base n) :
    offset (base + 1) n + 1 = offset base n := by
  have hone : offset base (base + 1) = 1 := by
    rw [offset_add]
    · rw [offset_self]
      rfl
    · rw [offset_self]
      decide
  rw [offset_offset, hone]
  · omega
  · omega

/-- When the first segment is moved, the others are one number closer. -/
theorem holds_moveFirst {seg : Seg} {rest : List Seg} (holds : kcp.Holds (seg :: rest))
    (next : seg.sn = kcp.rcvNxt) : (kcp.moveFirst seg rest).Holds rest := by
  obtain ⟨hfirst, hrest⟩ := List.pairwise_cons.mp holds.ascending
  have hahead : ∀ other ∈ rest,
      offset (kcp.rcvNxt + 1) other.sn + 1 = offset kcp.rcvNxt other.sn := by
    intro other hmem
    have hlt := hfirst other hmem
    rw [next, offset_self] at hlt
    exact offset_succ hlt
  constructor
  · apply hrest.imp_of_mem
    intro a b ha hb hlt
    have ha' := hahead a ha
    have hb' := hahead b hb
    dsimp only [moveFirst]
    omega
  · intro other hmem
    have hlt := holds.inside other (List.mem_cons_of_mem _ hmem)
    have hother := hahead other hmem
    dsimp only [moveFirst]
    omega

/-- Moving segments to the queue keeps the window. -/
theorem receiveWindow_deliver {segs : List Seg} (small : kcp.rcvWnd.toNat < 2 ^ 31)
    (queue : kcp.rcvQueue.length ≤ kcp.rcvWnd.toNat) (holds : kcp.Holds segs) :
    (kcp.deliver segs).ReceiveWindow := by
  have hkept : (kcp.deliver segs).rcvWnd.toNat < 2 ^ 31 ∧
      (kcp.deliver segs).rcvQueue.length ≤ (kcp.deliver segs).rcvWnd.toNat ∧
      (kcp.deliver segs).Holds (kcp.deliver segs).rcvBuf := by
    apply deliver_induct (motive := fun k => k.rcvWnd.toNat < 2 ^ 31 ∧
      k.rcvQueue.length ≤ k.rcvWnd.toNat ∧ k.Holds k.rcvBuf)
    · exact ⟨small, queue, holds.ascending, holds.inside⟩
    · rintro k seg rest hbuf hnext hroom ⟨hsmall, -, hholds⟩
      rw [hbuf] at hholds
      refine ⟨hsmall, ?_, holds_moveFirst hholds hnext⟩
      dsimp only [moveFirst]
      rw [List.length_append]
      exact hroom
  obtain ⟨hsmall, hqueue, hholds⟩ := hkept
  refine ⟨hsmall, hqueue, hholds, fun hroom seg hmem hnext => ?_⟩
  have hstop := deliver_stop kcp segs
  have hascending := hholds.ascending
  cases hbuf : (kcp.deliver segs).rcvBuf with
  | nil =>
      rw [hbuf] at hmem
      cases hmem
  | cons first rest =>
      rw [hbuf] at hmem hascending hstop
      rcases List.mem_cons.mp hmem with rfl | hmem
      · exact Nat.not_le_of_lt hroom (hstop seg rfl hnext)
      · have hlt := (List.pairwise_cons.mp hascending).1 seg hmem
        rw [hnext, offset_self] at hlt
        exact Nat.not_lt_zero _ hlt

/-- A segment of the window is put in its place. -/
theorem holds_insert {segs : List Seg} {newseg : Seg} (small : kcp.rcvWnd.toNat < 2 ^ 31)
    (holds : kcp.Holds segs) (inside : offset kcp.rcvNxt newseg.sn < kcp.rcvWnd.toNat) :
    kcp.Holds (insert newseg segs.reverse).reverse := by
  constructor
  · rw [Ascending, List.pairwise_reverse]
    have hbackwards : segs.reverse.Pairwise
        fun a b => offset kcp.rcvNxt b.sn < offset kcp.rcvNxt a.sn :=
      List.pairwise_reverse.mpr (by exact holds.ascending)
    have hinside : ∀ seg ∈ segs.reverse, offset kcp.rcvNxt seg.sn < kcp.rcvWnd.toNat :=
      fun seg hmem => holds.inside seg (List.mem_reverse.mp hmem)
    generalize segs.reverse = backwards at hbackwards hinside
    induction backwards with
    | nil => exact List.pairwise_singleton _ _
    | cons seg earlier ih =>
        obtain ⟨hseg, hearlier⟩ := List.pairwise_cons.mp hbackwards
        have hbound := hinside seg List.mem_cons_self
        have hdiff := @itimediff_eq kcp.rcvNxt newseg.sn seg.sn (by omega) (by omega)
        rw [insert]
        split
        · exact hbackwards
        rename_i hother
        split
        · rename_i hafter
          apply List.pairwise_cons.mpr
          refine ⟨fun b hb => ?_, hbackwards⟩
          rcases List.mem_cons.mp hb with rfl | hb
          · omega
          · have hlt := hseg b hb
            omega
        · rename_i hbefore
          have hne : offset kcp.rcvNxt seg.sn ≠ offset kcp.rcvNxt newseg.sn :=
            fun hsame => hother (offset_injective hsame)
          apply List.pairwise_cons.mpr
          refine ⟨fun b hb => ?_, ih hearlier fun s hs => hinside s (List.mem_cons_of_mem _ hs)⟩
          rcases mem_insert hb with hb | rfl
          · exact hseg b hb
          · omega
  · intro seg hmem
    rcases mem_insert (List.mem_reverse.mp hmem) with hmem | rfl
    · exact holds.inside seg (List.mem_reverse.mp hmem)
    · exact inside

theorem receiveWindow_parseData {newseg : Seg} (window : kcp.ReceiveWindow) :
    (kcp.parseData newseg).ReceiveWindow := by
  rw [parseData]
  split
  · exact window
  · rename_i hoffered
    rw [not_or, not_le, not_lt] at hoffered
    have hahead := (diff_nonneg_iff kcp.rcvNxt newseg.sn).mp hoffered.2
    have hinside := (diff_add_neg_iff hahead window.small).mp hoffered.1
    exact receiveWindow_deliver window.small window.queue (holds_insert window.small window.holds
      hinside)

/-- Only what was received matters. -/
theorem ReceiveWindow.of_inbound {k : Ikcpcb} (window : kcp.ReceiveWindow)
    (same : k.inbound = kcp.inbound) : k.ReceiveWindow := by
  simp only [inbound, Prod.mk.injEq] at same
  obtain ⟨rcvNxt, rcvWnd, rcvQueue, rcvBuf⟩ := same
  refine ⟨?_, ?_, ⟨?_, ?_⟩, ?_⟩
  · rw [rcvWnd]
    exact window.small
  · rw [rcvWnd, rcvQueue]
    exact window.queue
  · rw [rcvNxt, rcvBuf]
    exact window.holds.ascending
  · rw [rcvNxt, rcvBuf, rcvWnd]
    exact window.holds.inside
  · rw [rcvNxt, rcvBuf, rcvWnd, rcvQueue]
    exact window.waiting

theorem receiveWindow_push (window : kcp.ReceiveWindow) (p : Packet) :
    (kcp.push p).ReceiveWindow := by
  rw [push]
  split
  · dsimp only
    split
    · exact receiveWindow_parseData (window.of_inbound rfl)
    · exact window.of_inbound rfl
  · exact window

/-- Whatever is read. -/
theorem receiveWindow_input (window : kcp.ReceiveWindow) (data : List UInt8) :
    (kcp.input data).2.ReceiveWindow := by
  have hunheard {a b : Ikcpcb} (same : a.unheard = b.unheard) (window : b.ReceiveWindow) :
      a.ReceiveWindow :=
    window.of_inbound (congrArg inbound same :)
  apply input_induct window
  · exact fun k p _ => hunheard (k.unheard_heed p)
  · exact fun k p _ _ => hunheard (k.unheard_acknowledge p)
  · exact fun k p _ _ window => receiveWindow_push window p
  · exact fun k window => window.of_inbound rfl
  · exact fun k una latest => hunheard (k.unheard_conclude una latest)

theorem length_merge_le (segs : List Seg) : (merge segs).2.length ≤ segs.length := by
  induction segs with
  | nil => exact le_refl _
  | cons seg rest ih =>
      rw [merge]
      split
      · exact Nat.le_succ _
      · exact ih.trans (Nat.le_succ _)

theorem receiveWindow_recv (window : kcp.ReceiveWindow) (len : ℤ) :
    (kcp.recv len).2.2.ReceiveWindow := by
  rcases kcp.recv_cases len with ⟨-, heq⟩ | ⟨-, askTell, heq⟩ | ⟨-, -, -, -, -, askTell, heq⟩
  · rw [heq]
    exact window
  · rw [heq]
    exact (receiveWindow_deliver window.small window.queue window.holds).of_inbound rfl
  · have hqueue := (length_merge_le kcp.rcvQueue).trans window.queue
    have hdelivered := @receiveWindow_deliver { kcp with rcvQueue := (merge kcp.rcvQueue).2 }
      kcp.rcvBuf window.small hqueue ⟨window.holds.ascending, window.holds.inside⟩
    rw [heq]
    exact hdelivered.of_inbound rfl

theorem receiveWindow_flush (window : kcp.ReceiveWindow) : kcp.flush.ReceiveWindow :=
  window.of_inbound (congrArg inbound kcp.unflushed_flush :)

/-- Each call keeps the receive window. -/
theorem receiveWindow_apply (window : kcp.ReceiveWindow) (call : Call) :
    (kcp.apply call).ReceiveWindow := by
  cases call with
  | send buffer => exact window.of_inbound (congrArg inbound (kcp.unqueued_send buffer) :)
  | recv len => exact receiveWindow_recv window len
  | input data => exact receiveWindow_input window data
  | update current =>
      rw [apply]
      exact update_induct (motive := ReceiveWindow) (fun _ => window.of_inbound rfl)
        fun _ => receiveWindow_flush
  | flush => exact receiveWindow_flush window

end Keeps

theorem receiveWindow_of_setUp {conv : UInt32} {start : Ikcpcb} (setUp : SetUp conv start) :
    start.ReceiveWindow := by
  have hbare := bare_of_setUp setUp
  have hbuf : start.rcvBuf = [] := (congrArg Ikcpcb.rcvBuf hbare :)
  have hqueue : start.rcvQueue = [] := (congrArg Ikcpcb.rcvQueue hbare :)
  refine ⟨(configured_of_setUp setUp).rcvWnd.2, ?_, ⟨?_, ?_⟩, ?_⟩
  · rw [hqueue]
    exact Nat.zero_le _
  · rw [hbuf]
    exact List.Pairwise.nil
  · rw [hbuf]
    nofun
  · rw [hbuf]
    nofun

/-- There are not more segments in the buffer than the window has numbers, and one less if there is
room in the queue. -/
theorem ReceiveWindow.length_rcvBuf {kcp : Ikcpcb} (window : kcp.ReceiveWindow) :
    kcp.rcvBuf.length ≤ kcp.rcvWnd.toNat ∧
      (kcp.rcvQueue.length < kcp.rcvWnd.toNat → kcp.rcvBuf.length < kcp.rcvWnd.toNat) := by
  have hnodup : (kcp.rcvBuf.map fun seg => offset kcp.rcvNxt seg.sn).Nodup :=
    List.pairwise_map.mpr (window.holds.ascending.imp fun h => h.ne)
  constructor
  · have hsub : (kcp.rcvBuf.map fun seg => offset kcp.rcvNxt seg.sn) ⊆
        List.range kcp.rcvWnd.toNat := by
      intro n hn
      obtain ⟨seg, hseg, rfl⟩ := List.mem_map.mp hn
      exact List.mem_range.mpr (window.holds.inside seg hseg)
    have hle := (List.subperm_of_subset hnodup hsub).length_le
    rwa [List.length_map, List.length_range] at hle
  · intro hroom
    have hsub : (kcp.rcvBuf.map fun seg => offset kcp.rcvNxt seg.sn) ⊆
        List.range' 1 (kcp.rcvWnd.toNat - 1) := by
      intro n hn
      obtain ⟨seg, hseg, rfl⟩ := List.mem_map.mp hn
      have hlt := window.holds.inside seg hseg
      have hpositive : offset kcp.rcvNxt seg.sn ≠ 0 := fun hzero =>
        window.waiting hroom seg hseg (offset_injective (hzero.trans (offset_self _).symm))
      exact List.mem_range'_1.mpr (by omega)
    have hle := (List.subperm_of_subset hnodup hsub).length_le
    rw [List.length_map, List.length_range'] at hle
    omega

/-- Whatever a control block is called with, it holds segments of its receive window only, in order
and none twice, and nothing that it could hand on waits in the buffer. -/
theorem receiveWindow_of_run {conv : UInt32} {start : Ikcpcb} (setUp : SetUp conv start)
    {calls : List Call} {kcp : Ikcpcb} (run : (machine start).Run calls kcp) :
    kcp.ReceiveWindow ∧ kcp.rcvBuf.length ≤ kcp.rcvWnd.toNat ∧
      (kcp.rcvQueue.length < kcp.rcvWnd.toNat → kcp.rcvBuf.length < kcp.rcvWnd.toNat) := by
  have hwindow : kcp.ReceiveWindow := by
    refine run.invariant (receiveWindow_of_setUp setUp) ?_
    rintro state call next hwindow - ⟨⟩
    exact receiveWindow_apply hwindow call
  exact ⟨hwindow, hwindow.length_rcvBuf⟩

/-- A segment that is ahead of its turn is kept. -/
theorem receiveWindow_of_transport :
    let M := machine (ofTransport 0x11223344 1 5 2 1)
    let kcp := M.reached
      [.input [68, 51, 34, 17, 81, 0, 0, 16, 0, 0, 0, 0, 1, 0, 0, 0, 0, 0, 0, 0, 1, 0, 0, 0, 7]]
    kcp.ReceiveWindow ∧ kcp.rcvBuf.length ≤ kcp.rcvWnd.toNat ∧
      (kcp.rcvQueue.length < kcp.rcvWnd.toNat → kcp.rcvBuf.length < kcp.rcvWnd.toNat) :=
  receiveWindow_of_run (setUp_ofTransport _ _ _ _ _) (Machine.run_reached rfl)

end Ikcpcb

end Sxaint.Ikcp
