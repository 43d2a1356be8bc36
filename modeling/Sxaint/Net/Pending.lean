/-
# How many segments wait in a stream

The number that `ikcp_waitsnd` returns, against the bytes that a stream was given. As long as
nothing is acknowledged, all these bytes are in segments that wait, and a segment has no more of
them than fit into a datagram. Each segment has a byte of its own, so there are no more segments
than bytes.
-/

import Mathlib.Algebra.Order.BigOperators.Group.List
import Sxaint.Net.KcpSend

namespace Sxaint.Net

namespace Kcp

namespace Sending

theorem length_flatten_le {pieces : List (List UInt8)} {n : ℕ}
    (small : ∀ piece ∈ pieces, piece.length ≤ n) : pieces.flatten.length ≤ pieces.length * n := by
  have hsum := List.sum_le_card_nsmul (pieces.map List.length) n fun length hmem => by
    obtain ⟨piece, hpiece, rfl⟩ := List.mem_map.mp hmem
    exact small piece hpiece
  rwa [List.length_map, Nat.nsmul_eq_mul, ← List.length_flatten] at hsum

theorem length_fragments (count : ℕ) (data : List UInt8) :
    (fragments count data).length = count := by
  induction count generalizing data with
  | zero => rfl
  | succ count ih => rw [fragments, List.length_cons, ih]

theorem length_le_of_mem_fragments {count : ℕ} {data piece : List UInt8}
    (mem : piece ∈ fragments count data) : piece.length ≤ mss := by
  induction count generalizing data with
  | zero => cases mem
  | succ count ih =>
      rw [fragments, List.mem_cons] at mem
      rcases mem with rfl | hlater
      · exact List.length_take_le _ _
      · exact ih hlater

section

variable {given : List UInt8} {kcp : Sending}

/-! ## At least as many as the bytes need -/

/-- Nothing is acknowledged, and no segment is larger than a datagram allows. -/
structure Piled (kcp : Sending) : Prop where
  unacknowledged : kcp.acknowledged = []
  numbered : ∀ segment ∈ kcp.numbered, segment.data.length ≤ mss
  queued : ∀ data ∈ kcp.sndQueue, data.length ≤ mss

/-- The segments that wait have room for all that was given. -/
theorem Piled.length_le (piled : Piled kcp) (lossless : Lossless given kcp) :
    given.length ≤ kcp.waitSnd * mss := by
  have hbuf : kcp.sndBuf.length = (kcp.numbered.map Numbered.data).length := by
    have hkept := lossless.kept
    rw [piled.unacknowledged, List.nil_append] at hkept
    rw [List.length_map, hkept.length_eq]
  have hnumbered := @length_flatten_le (kcp.numbered.map Numbered.data) mss fun piece hmem => by
    obtain ⟨segment, hsegment, rfl⟩ := List.mem_map.mp hmem
    exact piled.numbered segment hsegment
  have hqueued := length_flatten_le piled.queued
  rw [← lossless.whole, List.length_append, waitSnd, Nat.add_mul, hbuf, List.flatMap_def]
  exact Nat.add_le_add hnumbered hqueued

theorem piled_fill (cwnd : UInt32) (queue : List (List UInt8))
    (piled : Piled { kcp with sndQueue := queue }) : Piled (fill cwnd queue kcp) := by
  induction queue generalizing kcp with
  | nil => exact piled
  | cons data rest ih =>
      obtain ⟨hdata, hrest⟩ := List.forall_mem_cons.mp piled.queued
      rw [fill]
      split
      · refine ih ⟨piled.unacknowledged, ?_, hrest⟩
        intro segment hmem
        rcases List.mem_append.mp hmem with hearlier | hnew
        · exact piled.numbered segment hearlier
        · obtain rfl := List.mem_singleton.mp hnew
          exact hdata
      · exact piled

theorem piled_flush (piled : Piled kcp) : Piled kcp.flush := by
  rw [flush]
  split
  · exact piled_fill _ _ piled
  · exact piled

theorem piled_extend (data : List UInt8) (piled : Piled kcp) : Piled (kcp.extend data) := by
  rw [extend]
  split
  · rename_i old hlast
    refine ⟨piled.unacknowledged, piled.numbered, ?_⟩
    intro piece hmem
    rcases List.mem_append.mp hmem with hearlier | hextended
    · exact piled.queued piece (List.mem_of_mem_dropLast hearlier)
    · obtain rfl := List.mem_singleton.mp hextended
      have hold := piled.queued old (List.mem_of_getLast? hlast)
      rw [capacity, hlast, List.length_append, List.length_take]
      dsimp only
      omega
  · exact piled

theorem piled_send (data : List UInt8) (piled : Piled kcp) : Piled (kcp.send data).2 := by
  have hextended := piled_extend data piled
  rw [send]
  generalize (if (data.drop kcp.capacity).length ≤ mss then 1
    else ((data.drop kcp.capacity).length + mss - 1) / mss) = count
  split
  · exact hextended
  · dsimp only
    split
    · exact hextended
    · refine ⟨hextended.unacknowledged, hextended.numbered, ?_⟩
      intro piece hmem
      rcases List.mem_append.mp hmem with hearlier | hfragment
      · exact hextended.queued piece hearlier
      · exact length_le_of_mem_fragments hfragment

theorem piled_sendChunk (rawPayload : List UInt8) (piled : Piled kcp) :
    Piled (Kcp.sending.sendChunk rawPayload kcp) := by
  exact sendChunk_induct piled (fun data _ => piled_send data) (fun _ => piled_flush) rawPayload

/-! ## At most as many as the bytes -/

theorem waitSnd_extend (data : List UInt8) (kcp : Sending) :
    (kcp.extend data).waitSnd = kcp.waitSnd := by
  rw [extend]
  split
  · rename_i old hlast
    have hqueue := congrArg List.length (List.dropLast_append_getLast? old hlast)
    rw [List.length_append] at hqueue
    rw [waitSnd, waitSnd, ← hqueue, List.length_append]
    rfl
  · rfl

theorem waitSnd_send_le (data : List UInt8) (kcp : Sending) :
    (kcp.send data).2.waitSnd ≤ kcp.waitSnd + data.length := by
  have hextended := waitSnd_extend data kcp
  rw [send]
  split
  · exact hextended.trans_le (Nat.le_add_right _ _)
  · rename_i hrest
    have hmss : mss = 16360 := rfl
    have hpositive := List.length_pos_iff.mpr hrest
    have hfewer : (data.drop kcp.capacity).length ≤ data.length := by
      rw [List.length_drop]
      exact Nat.sub_le _ _
    generalize hcount : (if (data.drop kcp.capacity).length ≤ mss then 1
      else ((data.drop kcp.capacity).length + mss - 1) / mss) = count
    have hbound : count ≤ data.length := by
      rw [← hcount, hmss]
      split <;> omega
    dsimp only
    split
    · exact hextended.trans_le (Nat.le_add_right _ _)
    · rw [waitSnd] at hextended
      rw [waitSnd, List.length_append, length_fragments]
      dsimp only
      omega

theorem waitSnd_sendLoop_le (rounds : ℕ) (rest : List UInt8) (kcp : Sending) :
    (Kcp.sending.sendLoop rounds rest kcp).waitSnd ≤ kcp.waitSnd + rest.length := by
  induction rounds generalizing rest kcp with
  | zero => exact Nat.le_add_right _ _
  | succ rounds ih =>
      have hsent := waitSnd_send_le (rest.take maxSendSize.toNat) kcp
      have hsplit := congrArg List.length (List.take_append_drop maxSendSize.toNat rest)
      rw [List.length_append] at hsplit
      rw [sendLoop]
      split
      · exact Nat.le_add_right _ _
      · rw [show Kcp.sending.send = send from rfl]
        generalize kcp.send (rest.take maxSendSize.toNat) = result at hsent
        obtain ⟨accepted, after⟩ := result
        dsimp only at hsent
        cases accepted with
        | true =>
            have hlater := ih (rest.drop maxSendSize.toNat) after
            dsimp only
            omega
        | false =>
            dsimp only
            omega

theorem waitSnd_sendChunk_le (rawPayload : List UInt8) (kcp : Sending) :
    (Kcp.sending.sendChunk rawPayload kcp).waitSnd ≤ kcp.waitSnd + (handed rawPayload).length := by
  rw [sendChunk, handed]
  generalize (toInt (frame rawPayload).length).toNat = totalSize
  exact (waitSnd_flush _).trans_le (waitSnd_sendLoop_le totalSize _ _)

end

end Sending

end Kcp

end Sxaint.Net
