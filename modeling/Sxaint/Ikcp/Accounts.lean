/-
# What becomes of the bytes

The bytes that a control block accepts are in its segments, with a number or without, and those of
the segments that it has put in order were returned or wait in its queue. This holds of each side
alone, whatever datagrams it reads.
-/

import Sxaint.Ikcp.Refinement

namespace Sxaint.Ikcp

open SelectiveRepeat Transition

/-- The bytes of some items. -/
def bytesOf (items : List Item) : List UInt8 :=
  items.flatMap Prod.snd

theorem bytesOf_append (items others : List Item) :
    bytesOf (items ++ others) = bytesOf items ++ bytesOf others :=
  List.flatMap_append

namespace Ikcpcb

/-- The items of the segments that were accepted: with a number, and without. -/
def offered (kcp : Ikcpcb) : List Item :=
  kcp.numbered ++ kcp.sndQueue.map Seg.item

/-- The items that wait to be returned. -/
def waiting (kcp : Ikcpcb) : List Item :=
  kcp.rcvQueue.map Seg.item

/-- The items that were put in order are some that were returned, and those that wait. -/
def Splits (front : List Item) (kcp : Ikcpcb) : Prop :=
  kcp.ordered = front ++ kcp.waiting

/-- The bytes that were accepted are in the segments, and those that were put in order were returned
or wait. -/
structure Accounts (given taken : List (List UInt8)) (kcp : Ikcpcb) : Prop where
  given : bytesOf kcp.offered = given.flatten
  taken : ∃ front, kcp.Splits front ∧ bytesOf front = taken.flatten

section Send

variable {kcp : Ikcpcb}

/-- The bytes that fill the last segment are added to it. -/
theorem bytes_extend (kcp : Ikcpcb) (buffer : List UInt8) :
    bytesOf (kcp.extend buffer).offered = bytesOf kcp.offered ++ buffer.take kcp.capacity := by
  have hnone (zero : kcp.capacity = 0) :
      bytesOf kcp.offered = bytesOf kcp.offered ++ buffer.take kcp.capacity := by
    rw [zero, List.take_zero, List.append_nil]
  rw [extend]
  split
  · rename_i old hlast
    split
    · have hqueue := List.dropLast_append_getLast? old hlast
      have hoffered : kcp.offered =
          kcp.numbered ++ (kcp.sndQueue.dropLast.map Seg.item ++ [old.item]) := by
        conv_lhs => rw [offered, ← hqueue, List.map_append, List.map_singleton]
      rw [hoffered, offered]
      simp only [List.map_append, List.map_singleton, bytesOf_append, List.append_assoc]
      congr 2
      simp [bytesOf, Seg.item]
    · rename_i hfull
      apply hnone
      rw [capacity, hlast]
      cases hstream : kcp.stream with
      | false => rfl
      | true =>
          have hle : ¬old.data.length < kcp.mss.toNat := fun hlt => hfull ⟨hstream, hlt⟩
          exact Nat.sub_eq_zero_of_le (Nat.le_of_not_lt hle)
  · rename_i hempty
    apply hnone
    rw [capacity, hempty]
    cases kcp.stream with
    | false => rfl
    | true => rfl

theorem bytes_fragments (stream : Bool) (mss count : ℕ) (buffer : List UInt8) :
    bytesOf ((fragments stream mss count buffer).map Seg.item) = buffer.take (count * mss) := by
  induction count generalizing buffer with
  | zero => simp [fragments, bytesOf]
  | succ count ih =>
      have hih := ih (buffer.drop mss)
      rw [bytesOf] at hih ⊢
      rw [fragments, List.map_cons, List.flatMap_cons, hih, Nat.succ_mul, Nat.add_comm,
        List.take_add]
      rfl

/-- The segments have room for all bytes. -/
theorem le_fragmentCount {mss : ℕ} (positive : 0 < mss) (size : ℕ) :
    size ≤ fragmentCount mss size * mss := by
  rw [fragmentCount]
  split
  · omega
  · have hlt : size + mss - 1 < (size + mss - 1) / mss * mss + mss := Nat.lt_div_mul_add positive
    omega

/-- A call of `ikcp_send` takes as many bytes from the front as it returns. -/
theorem bytes_send (positive : 0 < kcp.mss.toNat) (buffer : List UInt8) :
    bytesOf (kcp.send buffer).2.offered =
      bytesOf kcp.offered ++ (Pair.accepted kcp (.send buffer)).flatten := by
  have hextend := kcp.bytes_extend buffer
  have hsplit := List.take_append_drop kcp.capacity buffer
  have hlength : (buffer.drop kcp.capacity).length = buffer.length - kcp.capacity :=
    List.length_drop
  -- what fills the last segment is a part of the buffer of this length
  have htake : buffer.take (buffer.length - (buffer.drop kcp.capacity).length) =
      buffer.take kcp.capacity := by
    rw [List.take_eq_take_iff]
    omega
  rw [Pair.accepted, send]
  dsimp only
  split
  · rw [if_pos (Int.natCast_nonneg _), List.flatten_singleton, Int.toNat_natCast, htake]
    exact hextend
  split
  · split
    · rw [if_pos (Int.natCast_nonneg _), List.flatten_singleton, Int.toNat_natCast, htake]
      exact hextend
    · rename_i hnothing
      have hzero : buffer.take kcp.capacity = [] := by
        cases hstream : kcp.stream with
        | false =>
            rw [capacity, hstream]
            rfl
        | true =>
            have hsent : ¬0 < buffer.length - (buffer.drop kcp.capacity).length :=
              fun hpositive => hnothing ⟨hstream, hpositive⟩
            apply List.length_eq_zero_iff.mp
            rw [List.length_take]
            omega
      rw [hextend, hzero]
      rfl
  · have hroom := le_fragmentCount positive (buffer.drop kcp.capacity).length
    rw [if_pos (Int.natCast_nonneg _), List.flatten_singleton, Int.toNat_natCast, List.take_length,
      offered, List.map_append, ← List.append_assoc, bytesOf_append, bytes_fragments,
      List.take_of_length_le hroom]
    rw [offered] at hextend
    rw [hextend, List.append_assoc, hsplit]

end Send

section Receive

variable {front : List Item} {kcp k : Ikcpcb}

theorem Splits.of_same (splits : kcp.Splits front) (ordered : k.ordered = kcp.ordered)
    (rcvQueue : k.rcvQueue = kcp.rcvQueue) : k.Splits front := by
  rw [Splits, ordered, waiting, rcvQueue]
  exact splits

/-- Moving a segment from one place to the other. -/
theorem splits_deliver (splits : kcp.Splits front) (segs : List Seg) :
    (kcp.deliver segs).Splits front := by
  refine deliver_induct (motive := Splits front) (splits.of_same rfl rfl) ?_
  rintro k seg rest - - - splits
  rw [Splits, waiting]
  dsimp only [moveFirst]
  rw [List.map_append, List.map_singleton, ← List.append_assoc]
  exact congrArg (fun items => items ++ [seg.item]) splits

theorem splits_input (splits : kcp.Splits front) (data : List UInt8) :
    (kcp.input data).2.Splits front := by
  have hunheard {a b : Ikcpcb} (same : a.unheard = b.unheard) (splits : b.Splits front) :
      a.Splits front :=
    splits.of_same (congrArg Ikcpcb.ordered same :) (congrArg Ikcpcb.rcvQueue same :)
  apply input_induct (motive := Splits front) splits
  · exact fun k p _ => hunheard (k.unheard_heed p)
  · exact fun k p _ _ => hunheard (k.unheard_acknowledge p)
  · intro k p _ _ splits
    rw [push]
    split
    · dsimp only
      split
      · rw [parseData]
        split
        · exact splits.of_same rfl rfl
        · exact @splits_deliver _ (k.ackPush p.sn p.ts) (splits.of_same rfl rfl) _
      · exact splits.of_same rfl rfl
    · exact splits
  · exact fun k splits => splits.of_same rfl rfl
  · exact fun k una latest => hunheard (k.unheard_conclude una latest)

theorem splits_flush (splits : kcp.Splits front) : kcp.flush.Splits front :=
  splits.of_same (congrArg Ikcpcb.ordered kcp.unflushed_flush :)
    (congrArg Ikcpcb.rcvQueue kcp.unflushed_flush :)

/-- A call that returns nothing keeps what was returned before. -/
theorem splits_apply (splits : kcp.Splits front) {call : Call}
    (nothing : Pair.returned kcp call = []) : (kcp.apply call).Splits front := by
  cases call with
  | send buffer =>
      have hsame := kcp.unqueued_send buffer
      exact splits.of_same (congrArg Ikcpcb.ordered hsame :) (congrArg Ikcpcb.rcvQueue hsame :)
  | recv len =>
      rw [apply]
      rcases kcp.recv_cases len with ⟨-, heq⟩ | ⟨-, askTell, heq⟩ | ⟨hlen, -, -, hcode, -⟩
      · rw [heq]
        exact splits
      · rw [heq]
        exact (splits_deliver splits _).of_same rfl rfl
      · rw [Pair.returned, hcode, if_pos ⟨hlen, Int.natCast_nonneg _⟩] at nothing
        cases nothing
  | input data => exact splits_input splits data
  | update current =>
      rw [apply]
      exact update_induct (motive := Splits front) (fun _ => splits.of_same rfl rfl)
        fun _ => splits_flush
  | flush => exact splits_flush splits

/-- A call that returns something has merged the first segments of the queue. -/
theorem returned_cases (kcp : Ikcpcb) (call : Call) :
    Pair.returned kcp call = [] ∨
      kcp.rcvQueue ≠ [] ∧ 0 ≤ kcp.peeksize ∧
        Pair.returned kcp call = [(merge kcp.rcvQueue).1] ∧
        ∀ front, kcp.ordered = front ++ (merge kcp.rcvQueue).2.map Seg.item →
          (kcp.apply call).Splits front := by
  cases call with
  | recv len =>
      rcases kcp.recv_cases len with ⟨hcode, -⟩ | ⟨hlen, -⟩ |
        ⟨hlen, hqueue, hpeek, hcode, hbytes, askTell, heq⟩
      · exact .inl (if_neg fun h => not_le.mpr hcode h.2)
      · exact .inl (if_neg fun h => not_le.mpr hlen h.1)
      · refine .inr ⟨hqueue, hpeek, ?_, fun front hfront => ?_⟩
        · rw [Pair.returned, hcode, hbytes, if_pos ⟨hlen, Int.natCast_nonneg _⟩]
        · rw [apply, heq]
          have htaken : Splits front { kcp with rcvQueue := (merge kcp.rcvQueue).2 } := hfront
          exact (splits_deliver htaken _).of_same rfl rfl
  | send _ | input _ | update _ | flush => exact .inl rfl

/-- What is merged and what is left. -/
theorem merge_cases (segs : List Seg) :
    ∃ merged, segs.map Seg.item = merged ++ (merge segs).2.map Seg.item ∧
      bytesOf merged = (merge segs).1 := by
  induction segs with
  | nil => exact ⟨[], rfl, rfl⟩
  | cons seg rest ih =>
      rw [merge]
      split
      · exact ⟨[seg.item], rfl, List.append_nil _⟩
      · obtain ⟨merged, hitems, hbytes⟩ := ih
        refine ⟨seg.item :: merged, ?_, ?_⟩
        · rw [List.map_cons, hitems]
          rfl
        · exact congrArg (fun bytes => seg.data ++ bytes) hbytes

end Receive

section Keeps

variable {given taken : List (List UInt8)} {kcp k : Ikcpcb}

theorem offered_flush (kcp : Ikcpcb) : kcp.flush.offered = kcp.offered := by
  have hfilled : kcp.filled.offered = kcp.offered := by
    refine fill_induct (motive := fun k => k.offered = kcp.offered) ?_ ?_
    · have hasked : kcp.askWindow.numbered = kcp.numbered :=
        (congrArg Ikcpcb.numbered kcp.unasked_askWindow :)
      dsimp only [offered]
      rw [hasked]
    · rintro k newseg rest hqueue - same
      rw [← same, offered, offered, hqueue]
      dsimp only [numberFirst]
      rw [List.append_assoc]
      rfl
  cases hupdated : kcp.updated with
  | false =>
      rw [flush, hupdated]
      rfl
  | true =>
      have hflush : kcp.flush.offered = kcp.filled.offered :=
        (congrArg offered (uncongested_flush hupdated) :)
      exact hflush.trans hfilled

theorem offered_apply (kcp : Ikcpcb) {call : Call} (other : ∀ buffer, call ≠ .send buffer) :
    (kcp.apply call).offered = kcp.offered := by
  cases call with
  | send buffer => exact (other buffer rfl).elim
  | recv len => exact (congrArg offered (kcp.unreceived_recv len) :)
  | input data => exact (congrArg offered (kcp.unread_input data) :)
  | update current =>
      rw [apply]
      exact update_induct (motive := fun k => k.offered = kcp.offered) (fun _ => rfl)
        fun k same => k.offered_flush.trans same
  | flush => exact kcp.offered_flush

/-- Each call keeps the accounts. -/
theorem accounts_apply (positive : 0 < kcp.mss.toNat) (accounts : kcp.Accounts given taken)
    (call : Call) :
    (kcp.apply call).Accounts (given ++ Pair.accepted kcp call)
      (taken ++ Pair.returned kcp call) := by
  obtain ⟨front, hsplits, hfront⟩ := accounts.taken
  constructor
  · cases call with
    | send buffer => rw [apply, bytes_send positive, accounts.given, List.flatten_append]
    | recv _ | input _ | update _ | flush =>
        rw [offered_apply kcp (by rintro buffer ⟨⟩), Pair.accepted, List.append_nil]
        exact accounts.given
  · rcases kcp.returned_cases call with hnothing | ⟨-, -, hreturned, hkept⟩
    · rw [hnothing, List.append_nil]
      exact ⟨front, splits_apply hsplits hnothing, hfront⟩
    · obtain ⟨merged, hitems, hbytes⟩ := merge_cases kcp.rcvQueue
      refine ⟨front ++ merged, hkept _ ?_, ?_⟩
      · rw [List.append_assoc, ← hitems]
        exact hsplits
      · rw [bytesOf_append, hfront, hbytes, hreturned, List.flatten_append, List.flatten_singleton]

end Keeps

end Ikcpcb

end Sxaint.Ikcp
