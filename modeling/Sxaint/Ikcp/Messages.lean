/-
# Messages

If a control block is not a stream, each call of `ikcp_send` is a message of its own: its fragments
are counted down to 0, and the other side merges one message per call of `ikcp_recv`, and only when
all of it is there. So the messages that are taken are the first of those that were given, each of
them whole.
-/

import Sxaint.Ikcp.Delivery

namespace Sxaint.Ikcp

open SelectiveRepeat Transition

/-- The items that a message is cut into. -/
def cut (mss : ℕ) (message : List UInt8) : List Item :=
  (Ikcpcb.fragments false mss (Ikcpcb.fragmentCount mss message.length) message).map Seg.item

namespace Ikcpcb

theorem fragmentCount_pos (mss size : ℕ) (positive : 0 < mss) : 0 < fragmentCount mss size := by
  rw [fragmentCount]
  split
  · exact Nat.one_pos
  · exact Nat.div_pos (by omega) positive

theorem length_cut (mss : ℕ) (message : List UInt8) :
    (cut mss message).length = fragmentCount mss message.length := by
  rw [cut, List.length_map]
  generalize fragmentCount mss message.length = count
  induction count generalizing message with
  | zero => rfl
  | succ count ih => exact congrArg Nat.succ (ih _)

/-- A message that is accepted is cut into at most 127 items, which are queued. -/
theorem offered_send {kcp : Ikcpcb} (messages : kcp.stream = false) (buffer : List UInt8) :
    (kcp.send buffer).2.offered =
        kcp.offered ++ (Pair.accepted kcp (.send buffer)).flatMap (cut kcp.mss.toNat) ∧
      ∀ message ∈ Pair.accepted kcp (.send buffer),
        fragmentCount kcp.mss.toNat message.length < wndRcv := by
  have hextend : kcp.extend buffer = kcp := by
    rw [extend]
    split
    · rw [if_neg fun h => Bool.false_ne_true (messages.symm.trans h.1)]
    · rfl
  have hcapacity : kcp.capacity = 0 := by
    rw [capacity, messages]
  have hstream : ¬kcp.stream = true := by
    rw [messages]
    exact Bool.false_ne_true
  rw [Pair.accepted, send, hextend, hcapacity, List.drop_zero]
  dsimp only
  rw [if_neg fun h => hstream h.1]
  split
  · rw [if_neg fun h => hstream h.1, if_neg (by exact Int.not_le.mpr (Int.negSucc_lt_zero 1))]
    exact ⟨(List.append_nil _).symm, fun _ hmem => absurd hmem List.not_mem_nil⟩
  · rename_i hcount
    rw [if_pos (Int.natCast_nonneg _), Int.toNat_natCast, List.take_length]
    constructor
    · rw [offered, List.map_append, ← List.append_assoc, List.flatMap_singleton, messages]
      rfl
    · intro message hmem
      obtain rfl := List.mem_singleton.mp hmem
      exact Nat.lt_of_not_le hcount

/-- Merging stops at the last fragment of the first message. -/
theorem merge_fragments {mss count : ℕ} {message : List UInt8} {segs : List Seg} {rest : List Item}
    (positive : 0 < count) (few : count ≤ 256)
    (items : segs.map Seg.item = (fragments false mss count message).map Seg.item ++ rest) :
    (merge segs).1 = message.take (count * mss) ∧ (merge segs).2.map Seg.item = rest := by
  induction count generalizing message segs with
  | zero => omega
  | succ count ih =>
      cases segs with
      | nil => cases items
      | cons seg segs =>
          rw [fragments, List.map_cons, List.map_cons, List.cons_append] at items
          obtain ⟨hseg, hsegs⟩ := List.cons.inj items
          obtain ⟨hfrg, hdata⟩ := Prod.mk.inj hseg
          have hfrg' : seg.frg = UInt8.ofNat count := hfrg
          have hdata' : seg.data = message.take mss := hdata
          rw [merge]
          by_cases hlast : count = 0
          · subst hlast
            have hzero : seg.frg = 0 := hfrg'
            rw [if_pos hzero, Nat.zero_add, Nat.one_mul]
            exact ⟨hdata', hsegs⟩
          · have hmore : seg.frg ≠ 0 := by
              rw [hfrg']
              intro hzero
              have hnat := congrArg UInt8.toNat hzero
              rw [UInt8.toNat_ofNat'] at hnat
              rw [Nat.mod_eq_of_lt (by omega)] at hnat
              exact hlast hnat
            obtain ⟨hbytes, hleft⟩ := ih (Nat.pos_of_ne_zero hlast) (by omega) hsegs
            rw [if_neg hmore]
            refine ⟨?_, hleft⟩
            dsimp only
            rw [hbytes, hdata', Nat.succ_mul, Nat.add_comm, List.take_add]

/-- If a call returns anything, it is the whole first message of those whose items are in the
queue. -/
theorem merge_of_peeksize {kcp : Ikcpcb} {mss : ℕ} (positive : 0 < mss)
    {messages : List (List UInt8)}
    (small : ∀ message ∈ messages, fragmentCount mss message.length < wndRcv)
    (items : kcp.waiting <+: messages.flatMap (cut mss)) (queue : kcp.rcvQueue ≠ [])
    (peek : 0 ≤ kcp.peeksize) :
    ∃ message others, messages = message :: others ∧ (merge kcp.rcvQueue).1 = message ∧
      kcp.waiting = cut mss message ++ (merge kcp.rcvQueue).2.map Seg.item := by
  cases messages with
  | nil =>
      have hnil := List.prefix_nil.mp items
      exact (queue (List.map_eq_nil_iff.mp hnil)).elim
  | cons message others =>
      have hsmall := small message List.mem_cons_self
      have hpositive := fragmentCount_pos mss message.length positive
      have hwhole := le_fragmentCount positive message.length
      have hlength := length_cut mss message
      rw [wndRcv] at hsmall
      rw [List.flatMap_cons] at items
      have hthere : (cut mss message).length ≤ kcp.waiting.length := by
        rw [hlength, waiting, List.length_map]
        cases hqueue : kcp.rcvQueue with
        | nil => exact (queue hqueue).elim
        | cons seg segs =>
            obtain ⟨count, hcount⟩ := Nat.exists_eq_succ_of_ne_zero hpositive.ne'
            rw [hcount] at hsmall ⊢
            rw [waiting, hqueue, cut, hcount, fragments, List.map_cons, List.map_cons,
              List.cons_append, List.cons_prefix_cons] at items
            have hfrg : seg.frg = UInt8.ofNat count := congrArg Prod.fst items.1
            have hnat : seg.frg.toNat = count := by
              rw [hfrg, UInt8.toNat_ofNat']
              exact Nat.mod_eq_of_lt (by omega)
            rw [peeksize, hqueue] at peek
            dsimp only at peek
            split at peek
            · rename_i hzero
              have hlast : count = 0 := by
                rw [← hnat, hzero]
                rfl
              rw [hlast, List.length_cons]
              omega
            split at peek
            · exact absurd peek (by decide)
            · omega
      obtain ⟨rest, hrest⟩ := List.prefix_of_prefix_length_le (List.prefix_append _ _) items hthere
      obtain ⟨hbytes, hleft⟩ := merge_fragments hpositive (by omega) hrest.symm
      refine ⟨message, others, rfl, ?_, ?_⟩
      · rw [hbytes, List.take_of_length_le hwhole]
      · rw [hleft, hrest]

end Ikcpcb

/-- Messages that were given and taken: they are cut as they are, and the items that the other side
has put in order are those of the messages that were taken and some more. -/
structure Whole (mss : ℕ) (given taken : List (List UInt8)) (sender receiver : Ikcpcb) : Prop where
  offered : sender.offered = given.flatMap (cut mss)
  small : ∀ message ∈ given, Ikcpcb.fragmentCount mss message.length < wndRcv
  first : taken <+: given
  splits : receiver.Splits (taken.flatMap (cut mss))

section Run

variable {conv : UInt32} {start : Side → Ikcpcb} {events : List (Side × Call)} {s : Pair}

/-- A call on the side that gives. -/
theorem whole_send {mss : ℕ} {given taken : List (List UInt8)} {sender receiver : Ikcpcb}
    (whole : Whole mss given taken sender receiver) (messages : sender.stream = false)
    (size : sender.mss.toNat = mss) (call : Call) :
    Whole mss (given ++ Pair.accepted sender call) taken (sender.apply call) receiver := by
  have hfirst := whole.first.trans (List.prefix_append given (Pair.accepted sender call))
  have hcall : (sender.apply call).offered =
      sender.offered ++ (Pair.accepted sender call).flatMap (cut mss) ∧
        ∀ message ∈ Pair.accepted sender call,
          Ikcpcb.fragmentCount mss message.length < wndRcv := by
    rw [← size]
    cases call with
    | send buffer => exact Ikcpcb.offered_send messages buffer
    | recv _ | input _ | update _ | flush =>
        rw [sender.offered_apply (by nofun)]
        exact ⟨(List.append_nil _).symm, fun _ hmem => absurd hmem List.not_mem_nil⟩
  refine ⟨?_, ?_, hfirst, whole.splits⟩
  · rw [hcall.1, whole.offered, List.flatMap_append]
  · intro message hmem
    rcases List.mem_append.mp hmem with hmem | hmem
    · exact whole.small message hmem
    · exact hcall.2 message hmem

/-- A call on the side that takes. -/
theorem whole_recv {mss : ℕ} {given taken : List (List UInt8)} {sender receiver : Ikcpcb}
    (whole : Whole mss given taken sender receiver) (positive : 0 < mss)
    (ordered : receiver.ordered <+: sender.offered) (call : Call) :
    Whole mss given (taken ++ Pair.returned receiver call) sender (receiver.apply call) := by
  rcases receiver.returned_cases call with hnothing | ⟨hqueue, hpeek, hreturned, hkept⟩
  · rw [hnothing, List.append_nil]
    exact ⟨whole.offered, whole.small, whole.first,
      Ikcpcb.splits_apply whole.splits hnothing⟩
  · obtain ⟨rest, rfl⟩ := whole.first
    have hitems : receiver.waiting <+: rest.flatMap (cut mss) := by
      have hsplits : receiver.ordered = taken.flatMap (cut mss) ++ receiver.waiting := whole.splits
      rw [hsplits, whole.offered, List.flatMap_append] at ordered
      exact (List.prefix_append_right_inj _).mp ordered
    obtain ⟨message, others, rfl, hmessage, hwaiting⟩ := Ikcpcb.merge_of_peeksize positive
      (fun message hmem => whole.small message (List.mem_append_right _ hmem)) hitems hqueue hpeek
    rw [hreturned, hmessage]
    refine ⟨whole.offered, whole.small, ?_, hkept _ ?_⟩
    · exact ⟨others, by rw [List.append_assoc, List.singleton_append]⟩
    · rw [List.flatMap_append, List.flatMap_singleton, List.append_assoc, ← hwaiting]
      exact whole.splits

/-- Two control blocks that are not streams keep messages apart: those that one side took are the
first of those that the other side gave, each of them whole. -/
theorem taken_prefix_of_messages (setUp : ∀ side, SetUp conv (start side))
    (run : (Pair.machine start).Run events s)
    (few : ∀ side, (s.kcps side).numbered.length < 2 ^ 31) {side : Side}
    (messages : (start side).stream = false) : s.taken side.other <+: s.given side := by
  have hpositive := (Ikcpcb.configured_of_setUp (setUp side)).mss.1
  have hwhole : Whole (start side).mss.toNat (s.given side) (s.taken side.other) (s.kcps side)
      (s.kcps side.other) := by
    refine run.induct (motive := fun _ s => (∀ side, (s.kcps side).numbered.length < 2 ^ 31) →
      Whole (start side).mss.toNat (s.given side) (s.taken side.other) (s.kcps side)
        (s.kcps side.other)) ?_ ?_ few
    · intro _
      have hbare := Ikcpcb.bare_of_setUp (setUp side)
      have hbare' := Ikcpcb.bare_of_setUp (setUp side.other)
      have hnumbered : (start side).numbered = [] := (congrArg Ikcpcb.numbered hbare :)
      have hqueue : (start side).sndQueue = [] := (congrArg Ikcpcb.sndQueue hbare :)
      have hordered : (start side.other).ordered = [] := (congrArg Ikcpcb.ordered hbare' :)
      have hwaiting : (start side.other).rcvQueue = [] := (congrArg Ikcpcb.rcvQueue hbare' :)
      dsimp only [Pair.machine]
      refine ⟨?_, nofun, List.prefix_refl _, ?_⟩
      · rw [Ikcpcb.offered, hnumbered, hqueue]
        rfl
      · rw [Ikcpcb.Splits, Ikcpcb.waiting, hordered, hwaiting]
        rfl
    · rintro events s ⟨one, call⟩ next run ih - taken few
      have hprior := few_of_step taken few
      have hwhole := ih hprior
      have hconfiguration := configuration_of_run run side
      obtain ⟨-, hone, hother, hgiven, hgiven', htaken, htaken'⟩ := Pair.step_cases taken
      rcases one.eq_or_eq_other side with rfl | rfl
      · have hmss : (s.kcps side).mss = (start side).mss :=
          (congrArg (fun c => c.2.2.1) hconfiguration :)
        have hstream : (s.kcps side).stream = (start side).stream :=
          (congrArg (fun c => c.2.2.2.2.2.2.2.2.2.2) hconfiguration :)
        rw [hone, hother, hgiven, htaken']
        exact whole_send hwhole (hstream.trans messages) (by rw [hmss]) call
      · rw [Side.other_other] at hwhole ⊢
        have hordered := ordered_prefix setUp run hprior one.other
        rw [Side.other_other] at hordered
        rw [hone, hother, hgiven', htaken]
        exact whole_recv hwhole hpositive (hordered.trans (List.prefix_append _ _)) call
  exact hwhole.first

/-- Three bytes are one message. -/
theorem taken_prefix_of_exchange :
    let start := fun _ : Side => { Ikcpcb.ofTransport 0x11223344 1 5 2 1 with stream := false }
    let s := (Pair.machine start).reached Pair.exchange
    s.taken .right <+: s.given .left :=
  @taken_prefix_of_messages _ _ _ _
    (fun _ => (Ikcpcb.setUp_ofTransport 0x11223344 1 5 2 1).stream false)
    (Machine.run_reached (by decide +kernel)) (by rintro (_ | _) <;> decide +kernel) .left rfl

end Run

end Sxaint.Ikcp
