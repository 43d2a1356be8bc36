/-
# The send window

Whatever datagrams arrive, the segments that a control block keeps for sending are within its send
window: their numbers go up, from the first one that is not acknowledged to below the next one to
be used, and these two are at most the size of the window apart. An acknowledgement can only take
segments out, a flush can only add the next number, and sending again changes no number.
-/

import Sxaint.Ikcp.ReceiveWindow

namespace Sxaint.Ikcp

open Serial Transition

open Sxaint.Net.Kcp (itimediff)

/-- Only the numbers matter. -/
theorem ascending_of_map {base : UInt32} {segs others : List Seg}
    (same : segs.map Seg.sn = others.map Seg.sn) (ascending : Ascending base others) :
    Ascending base segs := by
  have hnumbers : (others.map Seg.sn).Pairwise fun a b => offset base a < offset base b :=
    List.pairwise_map.mpr ascending
  rw [← same, List.pairwise_map] at hnumbers
  exact hnumbers

namespace Ikcpcb

/-- The send window is kept. -/
structure SendWindow (kcp : Ikcpcb) : Prop where
  small : kcp.sndWnd.toNat < 2 ^ 31
  bounded : offset kcp.sndUna kcp.sndNxt ≤ kcp.sndWnd.toNat
  ascending : Ascending kcp.sndUna kcp.sndBuf
  inside : ∀ seg ∈ kcp.sndBuf, offset kcp.sndUna seg.sn < offset kcp.sndUna kcp.sndNxt
  first : kcp.sndUna = (kcp.sndBuf.head?.map Seg.sn).getD kcp.sndNxt

/-- What is kept for sending. -/
def outbound (kcp : Ikcpcb) : UInt32 × UInt32 × UInt32 × List UInt32 :=
  (kcp.sndUna, kcp.sndNxt, kcp.sndWnd, kcp.sndBuf.map Seg.sn)

theorem outbound_unpushed (kcp : Ikcpcb) : kcp.unpushed.outbound = kcp.outbound :=
  rfl

theorem outbound_ungrown (kcp : Ikcpcb) : kcp.ungrown.outbound = kcp.outbound :=
  rfl

theorem outbound_times (kcp : Ikcpcb) (srtt rttval rto : Int32) :
    outbound { kcp with rxSrtt := srtt, rxRttval := rttval, rxRto := rto } = kcp.outbound :=
  rfl

section Keeps

variable {kcp : Ikcpcb}

theorem SendWindow.of_outbound {k : Ikcpcb} (window : kcp.SendWindow)
    (same : k.outbound = kcp.outbound) : k.SendWindow := by
  simp only [outbound, Prod.mk.injEq] at same
  obtain ⟨sndUna, sndNxt, sndWnd, numbers⟩ := same
  refine ⟨?_, ?_, ?_, ?_, ?_⟩
  · rw [sndWnd]
    exact window.small
  · rw [sndUna, sndNxt, sndWnd]
    exact window.bounded
  · rw [sndUna]
    exact ascending_of_map numbers window.ascending
  · intro seg hseg
    have hmem : seg.sn ∈ k.sndBuf.map Seg.sn := List.mem_map_of_mem hseg
    rw [numbers] at hmem
    obtain ⟨other, hother, hsn⟩ := List.mem_map.mp hmem
    rw [sndUna, sndNxt, ← hsn]
    exact window.inside other hother
  · rw [← List.head?_map, numbers, sndUna, sndNxt, List.head?_map]
    exact window.first

/-- When segments are taken out, the window moves to the first one that is left. -/
theorem sendWindow_shrinkBuf {segs : List Seg} (window : kcp.SendWindow)
    (sub : segs.Sublist kcp.sndBuf) : (shrinkBuf { kcp with sndBuf := segs }).SendWindow := by
  have hascending : Ascending kcp.sndUna segs := window.ascending.sublist sub
  have hinside : ∀ seg ∈ segs, offset kcp.sndUna seg.sn < offset kcp.sndUna kcp.sndNxt :=
    fun seg hseg => window.inside seg (sub.subset hseg)
  have hbounded := window.bounded
  cases segs with
  | nil =>
      have hself : offset kcp.sndNxt kcp.sndNxt ≤ kcp.sndWnd.toNat := by
        rw [offset_self]
        exact Nat.zero_le _
      exact ⟨window.small, hself, List.Pairwise.nil, nofun, rfl⟩
  | cons seg rest =>
      obtain ⟨hfirst, hrest⟩ := List.pairwise_cons.mp hascending
      have hseg := hinside seg List.mem_cons_self
      have hnext := @offset_offset kcp.sndUna seg.sn kcp.sndNxt hseg.le
      have hother : ∀ other ∈ seg :: rest, offset seg.sn other.sn =
          offset kcp.sndUna other.sn - offset kcp.sndUna seg.sn ∧
            offset kcp.sndUna seg.sn ≤ offset kcp.sndUna other.sn := by
        intro other hmem
        have hle : offset kcp.sndUna seg.sn ≤ offset kcp.sndUna other.sn := by
          rcases List.mem_cons.mp hmem with rfl | hmem
          · exact le_refl _
          · exact (hfirst other hmem).le
        exact ⟨offset_offset hle, hle⟩
      refine ⟨window.small, ?_, ?_, ?_, rfl⟩
      · dsimp only [shrinkBuf]
        omega
      · apply hascending.imp_of_mem
        intro a b ha hb hlt
        have ha' := hother a ha
        have hb' := hother b hb
        dsimp only [shrinkBuf]
        omega
      · intro other hmem
        have hlt := hinside other hmem
        have hother' := hother other hmem
        dsimp only [shrinkBuf]
        omega

/-- A segment is given the next number. -/
theorem sendWindow_numberFirst {cwnd : UInt32} (window : kcp.SendWindow)
    (small : cwnd.toNat ≤ kcp.sndWnd.toNat)
    (room : itimediff kcp.sndNxt (kcp.sndUna + cwnd) < 0) (wnd : UInt32) (newseg : Seg)
    (rest : List Seg) : (kcp.numberFirst wnd newseg rest).SendWindow := by
  have hsmall := window.small
  have hbounded := window.bounded
  have hroom : offset kcp.sndUna kcp.sndNxt < cwnd.toNat :=
    (diff_add_neg_iff (by omega) (by omega)).mp room
  have hnext : offset kcp.sndUna (kcp.sndNxt + 1) = offset kcp.sndUna kcp.sndNxt + 1 :=
    offset_add (by have hone : (1 : UInt32).toNat = 1 := rfl; omega)
  refine ⟨window.small, ?_, ?_, ?_, ?_⟩
  · dsimp only [numberFirst]
    omega
  · apply List.pairwise_append.mpr
    refine ⟨window.ascending, List.pairwise_singleton _ _, fun a ha b hb => ?_⟩
    obtain rfl := List.mem_singleton.mp hb
    exact window.inside a ha
  · intro seg hmem
    dsimp only [numberFirst]
    rcases List.mem_append.mp hmem with hmem | hmem
    · have hlt := window.inside seg hmem
      omega
    · obtain rfl := List.mem_singleton.mp hmem
      dsimp only [stamp]
      omega
  · have hfirst := window.first
    dsimp only [numberFirst]
    cases hbuf : kcp.sndBuf with
    | nil =>
        rw [hbuf] at hfirst
        exact hfirst
    | cons seg others =>
        rw [hbuf] at hfirst
        exact hfirst

theorem window_le (kcp : Ikcpcb) :
    kcp.window.toNat ≤ kcp.sndWnd.toNat ∧ kcp.window.toNat ≤ kcp.rmtWnd.toNat := by
  simp only [window]
  split
  · rw [toNat_min]
    omega
  · rw [toNat_min, toNat_min]
    omega

theorem sendWindow_flush (window : kcp.SendWindow) : kcp.flush.SendWindow := by
  have hfilled : kcp.filled.SendWindow := by
    have hasked : kcp.askWindow.outbound = kcp.outbound :=
      (congrArg outbound kcp.unasked_askWindow :)
    refine (fill_induct (motive := fun k => k.SendWindow ∧
      kcp.askWindow.window.toNat ≤ k.sndWnd.toNat) ⟨?_, ?_⟩ ?_).1
    · exact window.of_outbound hasked
    · exact kcp.askWindow.window_le.1
    · rintro k newseg rest - hroom ⟨hwindow, hsmall⟩
      exact ⟨sendWindow_numberFirst hwindow hsmall hroom _ newseg rest, hsmall⟩
  cases hupdated : kcp.updated with
  | false =>
      rw [flush, hupdated]
      exact window
  | true =>
      have hsent : kcp.written.1.map Seg.sn = kcp.filled.sndBuf.map Seg.sn := by
        have huntimed := congrArg (List.map Seg.sn) kcp.untimed_written
        rw [List.map_map, List.map_map] at huntimed
        exact huntimed
      apply hfilled.of_outbound
      calc kcp.flush.outbound
          = outbound { kcp.filled with sndBuf := kcp.written.1 } :=
            (congrArg outbound (uncongested_flush hupdated) :)
        _ = kcp.filled.outbound := by
            simp only [outbound, hsent]

theorem sn_countFastack (sn ts : UInt32) (segs : List Seg) :
    (countFastack sn ts segs).map Seg.sn = segs.map Seg.sn := by
  have huntimed := congrArg (List.map Seg.sn) (untimed_countFastack sn ts segs)
  rw [List.map_map, List.map_map] at huntimed
  exact huntimed

theorem outbound_sndBuf {segs : List Seg} (same : segs.map Seg.sn = kcp.sndBuf.map Seg.sn) :
    outbound { kcp with sndBuf := segs } = kcp.outbound := by
  simp only [outbound, same]

theorem outbound_counted (latest : Option (UInt32 × UInt32)) :
    (kcp.counted latest).outbound = kcp.outbound := by
  cases latest with
  | none => rfl
  | some last =>
      apply outbound_sndBuf
      split
      · exact sn_countFastack _ _ _
      · rfl

/-- Whatever is read. -/
theorem sendWindow_input (window : kcp.SendWindow) (data : List UInt8) :
    (kcp.input data).2.SendWindow := by
  apply input_induct window
  · intro k p _ window
    have hheard : SendWindow { k with rmtWnd := p.wnd.toUInt32 } := window.of_outbound rfl
    exact sendWindow_shrinkBuf hheard (List.dropWhile_sublist _)
  · intro k p _ _ window
    have hparse {k : Ikcpcb} (window : k.SendWindow) :
        ((k.parseAck p.sn).shrinkBuf).SendWindow := by
      apply sendWindow_shrinkBuf window
      split
      · exact removeAcked_sublist _ _
      · exact List.Sublist.refl _
    rw [acknowledge]
    split
    · exact hparse (window.of_outbound (outbound_times k _ _ _))
    · exact hparse window
  · intro k p _ _ window
    apply window.of_outbound
    rw [← outbound_unpushed, unpushed_push, outbound_unpushed]
  · exact fun k window => window.of_outbound rfl
  · intro k una latest window
    apply window.of_outbound
    rw [← outbound_ungrown, ungrown_conclude, outbound_ungrown, outbound_counted]

/-- Each call keeps the send window. -/
theorem sendWindow_apply (window : kcp.SendWindow) (call : Call) : (kcp.apply call).SendWindow := by
  cases call with
  | send buffer => exact window.of_outbound (congrArg outbound (kcp.unqueued_send buffer) :)
  | recv len => exact window.of_outbound (congrArg outbound (kcp.unreceived_recv len) :)
  | input data => exact sendWindow_input window data
  | update current =>
      rw [apply]
      exact update_induct (motive := SendWindow) (fun _ => window.of_outbound rfl)
        fun _ => sendWindow_flush
  | flush => exact sendWindow_flush window

end Keeps

theorem sendWindow_of_setUp {conv : UInt32} {start : Ikcpcb} (setUp : SetUp conv start) :
    start.SendWindow := by
  have hbare := bare_of_setUp setUp
  have hbuf : start.sndBuf = [] := (congrArg Ikcpcb.sndBuf hbare :)
  have huna : start.sndUna = 0 := (congrArg Ikcpcb.sndUna hbare :)
  have hnxt : start.sndNxt = 0 := (congrArg Ikcpcb.sndNxt hbare :)
  refine ⟨(configured_of_setUp setUp).sndWnd.2, ?_, ?_, ?_, ?_⟩
  · rw [huna, hnxt, offset_self]
    exact Nat.zero_le _
  · rw [hbuf]
    exact List.Pairwise.nil
  · rw [hbuf]
    nofun
  · rw [hbuf, huna, hnxt]
    rfl

/-- Not more segments are kept than the window has numbers. -/
theorem SendWindow.length_sndBuf {kcp : Ikcpcb} (window : kcp.SendWindow) :
    kcp.sndBuf.length ≤ offset kcp.sndUna kcp.sndNxt := by
  have hnodup : (kcp.sndBuf.map fun seg => offset kcp.sndUna seg.sn).Nodup :=
    List.pairwise_map.mpr (window.ascending.imp fun h => h.ne)
  have hsub : (kcp.sndBuf.map fun seg => offset kcp.sndUna seg.sn) ⊆
      List.range (offset kcp.sndUna kcp.sndNxt) := by
    intro n hn
    obtain ⟨seg, hseg, rfl⟩ := List.mem_map.mp hn
    exact List.mem_range.mpr (window.inside seg hseg)
  have hle := (List.subperm_of_subset hnodup hsub).length_le
  rwa [List.length_map, List.length_range] at hle

/-- Whatever a control block is called with, what it keeps for sending is within its send window,
and at most as many segments as the window has numbers. -/
theorem sendWindow_of_run {conv : UInt32} {start : Ikcpcb} (setUp : SetUp conv start)
    {calls : List Call} {kcp : Ikcpcb} (run : (machine start).Run calls kcp) :
    kcp.SendWindow ∧ kcp.sndBuf.length ≤ kcp.sndWnd.toNat := by
  have hwindow : kcp.SendWindow := by
    refine run.invariant (sendWindow_of_setUp setUp) ?_
    rintro state call next hwindow - ⟨⟩
    exact sendWindow_apply hwindow call
  exact ⟨hwindow, hwindow.length_sndBuf.trans hwindow.bounded⟩

/-- A segment is sent and kept. -/
theorem sendWindow_of_transport :
    let M := machine (ofTransport 0x11223344 1 5 2 1)
    let kcp := M.reached [.update 0, .send [1, 2, 3], .flush]
    kcp.SendWindow ∧ kcp.sndBuf.length ≤ kcp.sndWnd.toNat :=
  sendWindow_of_run (setUp_ofTransport _ _ _ _ _) (Machine.run_reached rfl)

end Ikcpcb

end Sxaint.Ikcp
