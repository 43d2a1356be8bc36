/-
# Two control blocks refine selective repeat

In each direction, what one control block sends and the other one makes of it is a run of the
abstract protocol: numbering, sending once more, letting go of what is acknowledged, putting in
order. This holds as long as the numbers do not come to half of their range, because then the
signed difference of two of them is the difference of the numbers, and a datagram that is late for
as long as may be is not mistaken for a new one.
-/

import Mathlib.Data.List.TakeWhile
import Sxaint.Ikcp.Pair
import Sxaint.Machine.SelectiveRepeat

namespace Sxaint.Ikcp

open SelectiveRepeat Serial Transition

open Sxaint.Net.Kcp (itimediff)

/-- What a segment carries for the other side. -/
def Packet.item (p : Packet) : Item :=
  (p.frg, p.data)

/-- A segment that was written by one side, with what that side sends and what it receives. -/
structure Authentic (out back : State Item) (p : Packet) : Prop where
  push : p.cmd = cmdPush → (p.sn.toNat, p.item) ∈ out.data
  una : p.una.toNat ∈ back.cumulative
  ack : p.cmd = cmdAck → p.sn.toNat ∈ back.selective

/-- What was written stays in the network. -/
theorem Authentic.of_steps {out out' back back' : State Item} {p : Packet}
    (authentic : Authentic out back p) (sends : Steps out out') (receives : Steps back back') :
    Authentic out' back' p :=
  ⟨fun hpush => sends.data (authentic.push hpush), receives.cumulative authentic.una,
    fun hack => receives.selective (authentic.ack hack)⟩

namespace Ikcpcb

/-- A control block is the sender. -/
structure Transmits (kcp : Ikcpcb) (s : State Item) : Prop where
  sent : s.sent = kcp.numbered
  next : kcp.sndNxt.toNat = kcp.numbered.length
  own : ∀ seg ∈ kcp.sndBuf, kcp.numbered[seg.sn.toNat]? = some seg.item
  kept : ∀ n ∈ s.kept, ∃ seg ∈ kcp.sndBuf, seg.sn.toNat = n

/-- A control block is the receiver. -/
structure Takes (kcp : Ikcpcb) (s : State Item) : Prop where
  delivered : s.delivered = kcp.ordered
  next : kcp.rcvNxt.toNat = kcp.ordered.length
  ahead : ∀ n item, (n, item) ∈ s.ahead ↔ ∃ seg ∈ kcp.rcvBuf, seg.sn.toNat = n ∧ seg.item = item
  due : ∀ sn ts, (sn, ts) ∈ kcp.ackList → s.Received sn.toNat

/-- What makes a control block a sender. -/
def transmitting (kcp : Ikcpcb) : List Seg × List Item × UInt32 :=
  (kcp.sndBuf.map Seg.untimed, kcp.numbered, kcp.sndNxt)

/-- What makes a control block a receiver. -/
def taking (kcp : Ikcpcb) : List Seg × List Item × UInt32 × List (UInt32 × UInt32) :=
  (kcp.rcvBuf, kcp.ordered, kcp.rcvNxt, kcp.ackList)

theorem transmitting_times (kcp : Ikcpcb) (srtt rttval rto : Int32) :
    transmitting { kcp with rxSrtt := srtt, rxRttval := rttval, rxRto := rto } =
      kcp.transmitting :=
  rfl

theorem transmitting_updateAck (kcp : Ikcpcb) (rtt : Int32) :
    (kcp.updateAck rtt).transmitting = kcp.transmitting :=
  transmitting_times kcp _ _ _

section Sender

variable {kcp k : Ikcpcb} {out : State Item}

theorem Transmits.of_same (transmits : kcp.Transmits out)
    (same : k.transmitting = kcp.transmitting) : k.Transmits out := by
  simp only [transmitting, Prod.mk.injEq] at same
  obtain ⟨hbuf, hnumbered, hnext⟩ := same
  refine ⟨?_, ?_, ?_, fun n hn => ?_⟩
  · rw [hnumbered]
    exact transmits.sent
  · rw [hnumbered, hnext]
    exact transmits.next
  · have hamong : Among k.sndBuf kcp.sndBuf := by
      rw [Among, hbuf]
      exact List.Subset.refl _
    rw [hnumbered]
    exact hamong.forall (fun _ => Iff.rfl) transmits.own
  · obtain ⟨seg, hseg, rfl⟩ := transmits.kept n hn
    have hmem : seg.untimed ∈ kcp.sndBuf.map Seg.untimed := List.mem_map_of_mem hseg
    rw [← hbuf] at hmem
    obtain ⟨other, hother, hsame⟩ := List.mem_map.mp hmem
    exact ⟨other, hother, (congrArg (fun seg : Seg => seg.sn.toNat) hsame :)⟩

/-- The number of a segment that is kept is one of those that were given. -/
theorem Transmits.lt (transmits : kcp.Transmits out) {seg : Seg} (kept : seg ∈ kcp.sndBuf) :
    seg.sn.toNat < out.sent.length := by
  rw [transmits.sent]
  exact (List.getElem?_eq_some_iff.mp (transmits.own seg kept)).1

/-- The sender lets go of segments that are acknowledged. -/
theorem Transmits.release (transmits : kcp.Transmits out) (sub : k.sndBuf ⊆ kcp.sndBuf)
    (same : k.unheard = kcp.unheard)
    (acknowledged : ∀ seg ∈ kcp.sndBuf, seg ∉ k.sndBuf → out.Acknowledged seg.sn.toNat) :
    ∃ out', Sends out out' ∧ k.Transmits out' := by
  have numbered : k.numbered = kcp.numbered := (congrArg Ikcpcb.numbered same :)
  have sndNxt : k.sndNxt = kcp.sndNxt := (congrArg Ikcpcb.sndNxt same :)
  refine ⟨_, sends_release out
    {n | out.Acknowledged n ∧ ∀ seg ∈ k.sndBuf, seg.sn.toNat ≠ n} (fun n hn => hn.1), ?_⟩
  refine ⟨?_, ?_, fun seg hseg => ?_, fun n hn => ?_⟩
  · rw [numbered]
    exact transmits.sent
  · rw [numbered, sndNxt]
    exact transmits.next
  · rw [numbered]
    exact transmits.own seg (sub hseg)
  · obtain ⟨hkept, hleft⟩ := hn
    obtain ⟨seg, hseg, rfl⟩ := transmits.kept n hkept
    by_cases hstays : seg ∈ k.sndBuf
    · exact ⟨seg, hstays, rfl⟩
    · by_contra hnone
      exact hleft ⟨acknowledged seg hseg hstays, fun other hother hsame =>
        hnone ⟨other, hother, hsame⟩⟩

theorem mem_removeAcked {sn : UInt32} {segs : List Seg} {seg : Seg} (mem : seg ∈ segs)
    (other : seg.sn ≠ sn) : seg ∈ removeAcked sn segs := by
  induction segs with
  | nil => cases mem
  | cons first rest ih =>
      rw [removeAcked]
      split
      · rename_i hfirst
        rcases List.mem_cons.mp mem with rfl | hmem
        · exact (other hfirst.symm).elim
        · exact hmem
      split
      · exact mem
      · rcases List.mem_cons.mp mem with rfl | hmem
        · exact List.mem_cons_self
        · exact List.mem_cons_of_mem _ (ih hmem)

theorem of_not_mem_dropWhile {P : Seg → Bool} {segs : List Seg} {seg : Seg} (mem : seg ∈ segs)
    (gone : seg ∉ segs.dropWhile P) : P seg = true := by
  rw [← @List.takeWhile_append_dropWhile _ P segs] at mem
  exact List.mem_takeWhile_imp ((List.mem_append.mp mem).resolve_right gone)

/-- Every segment that is read says what the other side has in order. -/
theorem transmits_heed (transmits : kcp.Transmits out) (safe : out.Safe)
    (few : out.sent.length < 2 ^ 31) {p : Packet} (una : p.una.toNat ∈ out.cumulative) :
    ∃ out', Sends out out' ∧ (kcp.heed p).Transmits out' := by
  apply transmits.release
  · exact (List.dropWhile_sublist _).subset
  · exact kcp.unheard_heed p
  · intro seg hseg hgone
    have hcovered : itimediff p.una seg.sn > 0 :=
      of_decide_eq_true (of_not_mem_dropWhile hseg hgone)
    have hlt := transmits.lt hseg
    have hbound := safe.cumulative _ una
    have hle := safe.ordered.length_le
    have hdiff : itimediff p.una seg.sn = (p.una.toNat : ℤ) - seg.sn.toNat :=
      diff_eq_sub (by omega) (by omega)
    exact .inl ⟨_, una, by omega⟩

theorem transmits_acknowledge (transmits : kcp.Transmits out) {p : Packet}
    (ack : p.sn.toNat ∈ out.selective) :
    ∃ out', Sends out out' ∧ (kcp.acknowledge p).Transmits out' := by
  have hparse {k : Ikcpcb} (transmits : k.Transmits out) :
      ∃ out', Sends out out' ∧ ((k.parseAck p.sn).shrinkBuf).Transmits out' := by
    have hbuf := k.sndBuf_parseAck p.sn
    apply transmits.release
    · rw [hbuf]
      split
      · exact (removeAcked_sublist _ _).subset
      · exact List.Subset.refl _
    · exact k.unheard_parseAck p.sn
    · intro seg hseg hgone
      rw [hbuf] at hgone
      split at hgone
      · have hsn : seg.sn = p.sn := by
          by_contra hother
          exact hgone (mem_removeAcked hseg hother)
        rw [hsn]
        exact .inr ack
      · exact (hgone hseg).elim
  rw [acknowledge]
  split
  · exact hparse (transmits.of_same (kcp.transmitting_updateAck _))
  · exact hparse transmits

end Sender

section Receiver

variable {kcp k : Ikcpcb} {back : State Item}

theorem Takes.of_same (takes : kcp.Takes back) (same : k.taking = kcp.taking) : k.Takes back := by
  simp only [taking, Prod.mk.injEq] at same
  obtain ⟨hbuf, hordered, hnext, hacks⟩ := same
  refine ⟨?_, ?_, ?_, ?_⟩
  · rw [hordered]
    exact takes.delivered
  · rw [hordered, hnext]
    exact takes.next
  · rw [hbuf]
    exact takes.ahead
  · rw [hacks]
    exact takes.due

/-- The segment whose turn it is is put in order. -/
theorem takes_moveFirst {seg : Seg} {rest : List Seg} (takes : kcp.Takes back) (safe : back.Safe)
    (few : back.sent.length < 2 ^ 31) (buf : kcp.rcvBuf = seg :: rest)
    (holds : kcp.Holds (seg :: rest)) (next : seg.sn = kcp.rcvNxt) :
    ∃ back', Receives back back' ∧ (kcp.moveFirst seg rest).Takes back' := by
  have hturn : back.delivered.length = kcp.rcvNxt.toNat := by
    rw [takes.delivered, takes.next]
  have hmem : (back.delivered.length, seg.item) ∈ back.ahead := by
    rw [takes.ahead, buf]
    exact ⟨seg, List.mem_cons_self, by rw [next, hturn], rfl⟩
  have hlt : back.delivered.length < back.sent.length :=
    (List.getElem?_eq_some_iff.mp (safe.ahead _ _ hmem).1).1
  have hadvance := receives_advance back seg.item hmem
  refine ⟨_, hadvance, ?_, ?_, fun n item => ?_, fun sn ts hdue => ?_⟩
  · dsimp only [moveFirst]
    rw [takes.delivered]
  · have hone : (1 : UInt32).toNat = 1 := rfl
    have hnext := takes.next
    dsimp only [moveFirst]
    rw [List.length_append, List.length_singleton, UInt32.toNat_add, hone, ← hnext]
    exact Nat.mod_eq_of_lt (by omega)
  · have hahead := takes.ahead n item
    rw [buf] at hahead
    constructor
    · rintro ⟨hold, hne⟩
      obtain ⟨other, hother, hsn, hitem⟩ := hahead.mp hold
      rcases List.mem_cons.mp hother with rfl | hother
      · exact (hne (by rw [← hsn, next, hturn])).elim
      · exact ⟨other, hother, hsn, hitem⟩
    · rintro ⟨other, hother, hsn, hitem⟩
      refine ⟨hahead.mpr ⟨other, List.mem_cons_of_mem _ hother, hsn, hitem⟩, fun hsame => ?_⟩
      have hafter := (List.pairwise_cons.mp holds.ascending).1 other hother
      have hequal : other.sn = seg.sn := by
        apply UInt32.toNat_inj.mp
        rw [hsn, next, ← hturn]
        exact hsame
      rw [hequal] at hafter
      exact lt_irrefl _ hafter
  · exact hadvance.steps.received (takes.due sn ts hdue)

/-- Segments are put in order while they are there and there is room. -/
theorem takes_deliver {segs : List Seg} (takes : Takes { kcp with rcvBuf := segs } back)
    (safe : back.Safe) (few : back.sent.length < 2 ^ 31) (holds : kcp.Holds segs) :
    ∃ back', Receives back back' ∧ (kcp.deliver segs).Takes back' := by
  refine (deliver_induct (motive := fun k => k.Holds k.rcvBuf ∧
    ∃ back', Receives back back' ∧ k.Takes back') ⟨⟨holds.ascending, holds.inside⟩, back,
      .refl back, takes⟩ ?_).2
  rintro k seg rest hbuf hnext - ⟨hholds, back', hreceives, htakes⟩
  rw [hbuf] at hholds
  have hsafe := safe_of_steps safe hreceives.steps
  have hfew : back'.sent.length < 2 ^ 31 := by rwa [hreceives.sent]
  obtain ⟨back'', hmoved, htakes'⟩ := takes_moveFirst htakes hsafe hfew hbuf hholds hnext
  exact ⟨holds_moveFirst hholds hnext, back'', hreceives.trans hmoved, htakes'⟩

/-- A segment that was sent is put in its place, if it is not there. -/
theorem takes_insert (takes : kcp.Takes back) (newseg : Seg)
    (carried : (newseg.sn.toNat, newseg.item) ∈ back.data)
    (ahead : back.delivered.length ≤ newseg.sn.toNat) :
    ∃ back', Receives back back' ∧ back'.Received newseg.sn.toNat ∧
      Takes { kcp with rcvBuf := (insert newseg kcp.rcvBuf.reverse).reverse } back' := by
  rcases insert_cases newseg kcp.rcvBuf.reverse with hsame | hadded
  · obtain ⟨seg, hseg, hsn⟩ := exists_mem_insert newseg kcp.rcvBuf.reverse
    rw [hsame, List.mem_reverse] at hseg
    refine ⟨back, .refl back, .inr ⟨seg.item, ?_⟩, ?_⟩
    · rw [takes.ahead]
      exact ⟨seg, hseg, by rw [hsn], rfl⟩
    · rw [hsame, List.reverse_reverse]
      exact takes
  · have harrive := receives_arrive back _ _ carried ahead
    refine ⟨_, harrive, .inr ⟨_, .inl rfl⟩, takes.delivered, takes.next, fun n item => ?_,
      fun sn ts hdue => harrive.steps.received (takes.due sn ts hdue)⟩
    have hold := takes.ahead n item
    constructor
    · rintro (hnew | hmem)
      · obtain ⟨rfl, rfl⟩ := Prod.mk.inj hnew
        exact ⟨newseg, List.mem_reverse.mpr ((hadded newseg).mpr (.inl rfl)), rfl, rfl⟩
      · obtain ⟨seg, hseg, hentry⟩ := hold.mp hmem
        exact ⟨seg, List.mem_reverse.mpr ((hadded seg).mpr (.inr (List.mem_reverse.mpr hseg))),
          hentry⟩
    · rintro ⟨seg, hseg, hsn, hitem⟩
      rcases (hadded seg).mp (List.mem_reverse.mp hseg) with rfl | hseg
      · exact .inl (by rw [← hsn, ← hitem])
      · exact .inr (hold.mpr ⟨seg, List.mem_reverse.mp hseg, hsn, hitem⟩)

/-- A segment that was received is to be acknowledged. -/
theorem takes_ackPush (takes : kcp.Takes back) {sn : UInt32} (received : back.Received sn.toNat)
    (ts : UInt32) : (kcp.ackPush sn ts).Takes back := by
  refine ⟨takes.delivered, takes.next, takes.ahead, fun sn' ts' hdue => ?_⟩
  rcases List.mem_append.mp hdue with hdue | hdue
  · exact takes.due sn' ts' hdue
  · obtain ⟨rfl, -⟩ := Prod.mk.inj (List.mem_singleton.mp hdue)
    exact received

/-- A segment that was sent arrives. -/
theorem takes_push (takes : kcp.Takes back) (safe : back.Safe) (few : back.sent.length < 2 ^ 31)
    (window : kcp.ReceiveWindow) {p : Packet} (carried : (p.sn.toNat, p.item) ∈ back.data) :
    ∃ back', Receives back back' ∧ (kcp.push p).Takes back' := by
  have hsent := safe.carried _ _ carried
  have hlt : p.sn.toNat < back.sent.length := (List.getElem?_eq_some_iff.mp hsent).1
  have hle := safe.ordered.length_le
  have hnext : kcp.rcvNxt.toNat = back.delivered.length := by rw [takes.next, takes.delivered]
  have hdiff : itimediff p.sn kcp.rcvNxt = (p.sn.toNat : ℤ) - kcp.rcvNxt.toNat :=
    diff_eq_sub (by omega) (by omega)
  by_cases hbefore : itimediff p.sn (kcp.rcvNxt + kcp.rcvWnd) < 0
  swap
  · rw [push, if_neg hbefore]
    exact ⟨back, .refl back, takes⟩
  by_cases hnew : itimediff p.sn kcp.rcvNxt ≥ 0
  · have hinside : offset kcp.rcvNxt (segOf p).sn < kcp.rcvWnd.toNat :=
      (diff_add_neg_iff ((diff_nonneg_iff _ _).mp hnew) window.small).mp hbefore
    have hholds := holds_insert window.small window.holds hinside
    have hpush : kcp.push p =
        (kcp.ackPush p.sn p.ts).deliver (insert (segOf p) kcp.rcvBuf.reverse).reverse := by
      rw [push, if_pos hbefore]
      dsimp only
      rw [if_pos hnew]
      exact if_neg (not_or.mpr ⟨not_le.mpr hbefore, not_lt.mpr hnew⟩)
    obtain ⟨back', hreceives, hreceived, htakes⟩ :=
      takes_insert takes (segOf p) carried (by dsimp only [segOf]; omega)
    have hsafe := safe_of_steps safe hreceives.steps
    have hfew : back'.sent.length < 2 ^ 31 := by rwa [hreceives.sent]
    have hacked := takes_ackPush htakes hreceived p.ts
    obtain ⟨back'', hmoved, htakes'⟩ := @takes_deliver (kcp.ackPush p.sn p.ts) back' _ hacked hsafe
      hfew ⟨hholds.ascending, hholds.inside⟩
    rw [hpush]
    exact ⟨back'', hreceives.trans hmoved, htakes'⟩
  · have hpush : kcp.push p = kcp.ackPush p.sn p.ts := by
      rw [push, if_pos hbefore]
      exact if_neg hnew
    rw [hpush]
    exact ⟨back, .refl back, takes_ackPush takes (.inl (by omega)) p.ts⟩

end Receiver

/-! ## A call -/

/-- A control block is the sender of one run of the protocol and the receiver of another, and what
it has sent belongs to them. -/
structure Refines (conv : UInt32) (kcp : Ikcpcb) (out back : State Item) : Prop where
  sized : kcp.Sized conv
  window : kcp.ReceiveWindow
  transmits : kcp.Transmits out
  takes : kcp.Takes back
  network : ∀ data ∈ kcp.outputs,
    Carries kcp.mtu.toNat (fun p => p.Valid conv ∧ Authentic out back p) data

section Calls

variable {conv : UInt32} {kcp : Ikcpcb} {out back : State Item}

/-- What the receiver on the other side does is not seen here, nor what the sender there does. -/
theorem Refines.of_other {out' back' : State Item} (refines : kcp.Refines conv out back)
    (receives : Receives out out') (sends : Sends back back') : kcp.Refines conv out' back' := by
  refine ⟨refines.sized, refines.window, ?_, ?_, ?_⟩
  · refine ⟨receives.sent.trans refines.transmits.sent, refines.transmits.next,
      refines.transmits.own, ?_⟩
    rw [receives.kept]
    exact refines.transmits.kept
  · refine ⟨sends.delivered.trans refines.takes.delivered, refines.takes.next, ?_,
      fun sn ts hdue => sends.received.mpr (refines.takes.due sn ts hdue)⟩
    rw [sends.ahead]
    exact refines.takes.ahead
  · intro data hdata
    refine (refines.network data hdata).imp fun p hp => ⟨hp.1, ?_⟩
    exact hp.2.of_steps receives.steps sends.steps

/-- A segment is given the next number. -/
theorem transmits_numberFirst (transmits : kcp.Transmits out)
    (few : kcp.numbered.length + 1 < 2 ^ 31) (wnd : UInt32) (newseg : Seg) (rest : List Seg) :
    ∃ out', Sends out out' ∧ (kcp.numberFirst wnd newseg rest).Transmits out' := by
  refine ⟨_, sends_number out newseg.item, ?_, ?_, fun seg hseg => ?_, fun n hn => ?_⟩
  · dsimp only [numberFirst]
    rw [transmits.sent]
  · have hone : (1 : UInt32).toNat = 1 := rfl
    have hnext := transmits.next
    dsimp only [numberFirst]
    rw [List.length_append, List.length_singleton, UInt32.toNat_add, hone, hnext]
    exact Nat.mod_eq_of_lt (by omega)
  · dsimp only [numberFirst]
    rcases List.mem_append.mp hseg with hseg | hseg
    · have hown := transmits.own seg hseg
      rw [List.getElem?_append_left (List.getElem?_eq_some_iff.mp hown).1]
      exact hown
    · obtain rfl := List.mem_singleton.mp hseg
      dsimp only [stamp, Seg.item]
      rw [transmits.next, List.getElem?_concat_length]
  · dsimp only [numberFirst]
    rcases hn with rfl | hn
    · refine ⟨kcp.stamp wnd newseg, List.mem_append_right _ (List.mem_singleton_self _), ?_⟩
      rw [transmits.sent]
      exact transmits.next
    · obtain ⟨seg, hseg, hsn⟩ := transmits.kept n hn
      exact ⟨seg, List.mem_append_left _ hseg, hsn⟩

theorem transmits_filled (transmits : kcp.Transmits out)
    (few : kcp.filled.numbered.length < 2 ^ 31) :
    ∃ out', Sends out out' ∧ kcp.filled.Transmits out' := by
  have hasked : kcp.askWindow.transmitting = kcp.transmitting :=
    (congrArg transmitting kcp.unasked_askWindow :)
  refine fill_induct (motive := fun k => k.numbered.length < 2 ^ 31 →
    ∃ out', Sends out out' ∧ k.Transmits out') (fun _ => ?_) ?_ few
  · exact ⟨out, .refl out, (transmits.of_same hasked).of_same rfl⟩
  · intro k newseg rest _ _ ih hfew
    have hlength : k.numbered.length + 1 < 2 ^ 31 := by
      dsimp only [numberFirst] at hfew
      rw [List.length_append] at hfew
      exact hfew
    obtain ⟨out', hsends, htransmits⟩ := ih (Nat.lt_of_succ_lt hlength)
    obtain ⟨out'', hnumber, htransmits'⟩ :=
      transmits_numberFirst htransmits hlength kcp.wndUnused newseg rest
    exact ⟨out'', hsends.trans hnumber, htransmits'⟩

/-- Whatever a flush writes is the sender's, is due or says what is in order. -/
theorem authentic_of_emits (sized : kcp.Sized conv) (transmits : kcp.filled.Transmits out)
    (takes : kcp.Takes back) {p : Packet} (emits : kcp.Emits p) :
    Authentic { out with data := out.data ∪ {entry | out.sent[entry.1]? = some entry.2} }
      { back with
        cumulative := back.cumulative ∪ {back.delivered.length}
        selective := back.selective ∪ {n | back.Received n} } p := by
  have huna : kcp.rcvNxt.toNat ∈ back.cumulative ∪ {back.delivered.length} := by
    rw [takes.next, takes.delivered]
    exact .inr rfl
  cases emits with
  | @ack sn ts due => exact ⟨nofun, huna, fun _ => .inr (takes.due sn ts due)⟩
  | wask sn ts => exact ⟨nofun, huna, nofun⟩
  | wins sn ts => exact ⟨nofun, huna, nofun⟩
  | @push seg kept =>
      have hown : out.sent[seg.sn.toNat]? = some seg.item := by
        rw [transmits.sent]
        exact transmits.own seg kept
      refine ⟨fun _ => .inr hown, huna, fun hack => ?_⟩
      exact absurd (((sized_filled sized).buf seg kept).2.1.symm.trans hack) (by decide)

theorem refines_flush (refines : kcp.Refines conv out back)
    (few : kcp.flush.numbered.length < 2 ^ 31) :
    ∃ out' back', Sends out out' ∧ Receives back back' ∧ kcp.flush.Refines conv out' back' := by
  cases hupdated : kcp.updated with
  | false =>
      have hflush : kcp.flush = kcp := by
        rw [flush, hupdated]
        rfl
      rw [hflush]
      exact ⟨out, back, .refl out, .refl back, refines⟩
  | true =>
      have hflush := uncongested_flush hupdated
      have hnumbered : kcp.flush.numbered = kcp.filled.numbered :=
        (congrArg Ikcpcb.numbered hflush :)
      have htransmitting : kcp.flush.transmitting = kcp.filled.transmitting := by
        refine (congrArg transmitting hflush :).trans ?_
        exact congrArg (fun segs => (segs, kcp.filled.numbered, kcp.filled.sndNxt))
          kcp.untimed_written
      have hacks : kcp.flush.ackList = [] :=
        (congrArg Ikcpcb.ackList hflush :).trans kcp.ackList_filled
      have hbuf : kcp.flush.rcvBuf = kcp.rcvBuf := (congrArg Ikcpcb.rcvBuf kcp.unflushed_flush :)
      have hordered : kcp.flush.ordered = kcp.ordered :=
        (congrArg Ikcpcb.ordered kcp.unflushed_flush :)
      have hnext : kcp.flush.rcvNxt = kcp.rcvNxt := (congrArg Ikcpcb.rcvNxt kcp.unflushed_flush :)
      have hmtu : kcp.flush.mtu = kcp.mtu := (congrArg Ikcpcb.mtu kcp.unflushed_flush :)
      rw [hnumbered] at few
      obtain ⟨out', hsends, htransmits⟩ := transmits_filled refines.transmits few
      have hwritten := hsends.trans (sends_transmit out'
        {entry | out'.sent[entry.1]? = some entry.2} fun n item hown => hown)
      have hanswered := receives_answer back {back.delivered.length} {n | back.Received n}
        (fun bound hbound => le_of_eq hbound) fun n hn => hn
      refine ⟨_, _, hwritten, hanswered, sized_flush refines.sized,
        receiveWindow_flush refines.window, ?_, ?_, fun data hdata => ?_⟩
      · have hflushed := htransmits.of_same htransmitting
        exact ⟨hflushed.sent, hflushed.next, hflushed.own, hflushed.kept⟩
      · refine ⟨?_, ?_, ?_, ?_⟩
        · rw [hordered]
          exact refines.takes.delivered
        · rw [hordered, hnext]
          exact refines.takes.next
        · rw [hbuf]
          exact refines.takes.ahead
        · rw [hacks]
          exact fun sn ts hdue => absurd hdue List.not_mem_nil
      · rw [hmtu]
        rcases refines.sized.outputs_flush.2 data hdata with hold | ⟨-, hnew⟩
        · exact (refines.network data hold).imp fun p hp =>
            ⟨hp.1, hp.2.of_steps hwritten.steps hanswered.steps⟩
        · exact hnew.imp fun p hp => ⟨(fits_of_emits refines.sized hp).valid,
            authentic_of_emits refines.sized htransmits refines.takes hp⟩

/-- What is kept while a datagram is read. -/
structure Follows (k : Ikcpcb) (out back out' back' : State Item) : Prop where
  sends : Sends out out'
  receives : Receives back back'
  few : k.numbered.length < 2 ^ 31
  window : k.ReceiveWindow
  transmits : k.Transmits out'
  takes : k.Takes back'

section Follows

variable {k after : Ikcpcb} {out' back' : State Item}

/-- What is heard concerns the sender only. -/
theorem Follows.of_unheard {out'' : State Item} (follows : k.Follows out back out' back')
    (same : after.unheard = k.unheard) (sends : Sends out' out'')
    (transmits : after.Transmits out'') : after.Follows out back out'' back' := by
  have hnumbered : after.numbered = k.numbered := (congrArg Ikcpcb.numbered same :)
  refine ⟨follows.sends.trans sends, follows.receives, ?_,
    follows.window.of_inbound (congrArg inbound same :), transmits,
    follows.takes.of_same (congrArg taking same :)⟩
  rw [hnumbered]
  exact follows.few

theorem follows_heed (follows : k.Follows out back out' back') (safe : out.Safe) {p : Packet}
    (una : p.una.toNat ∈ out.cumulative) :
    ∃ out'', (k.heed p).Follows out back out'' back' := by
  have hfew : out'.sent.length < 2 ^ 31 := by
    rw [follows.transmits.sent]
    exact follows.few
  obtain ⟨out'', hsends, htransmits⟩ := transmits_heed follows.transmits
    (safe_of_steps safe follows.sends.steps) hfew (follows.sends.steps.cumulative una)
  exact ⟨out'', follows.of_unheard (k.unheard_heed p) hsends htransmits⟩

theorem follows_acknowledge (follows : k.Follows out back out' back') {p : Packet}
    (ack : p.sn.toNat ∈ out.selective) :
    ∃ out'', (k.acknowledge p).Follows out back out'' back' := by
  obtain ⟨out'', hsends, htransmits⟩ := transmits_acknowledge follows.transmits
    (follows.sends.steps.selective ack)
  exact ⟨out'', follows.of_unheard (k.unheard_acknowledge p) hsends htransmits⟩

theorem numbered_unpushed (kcp : Ikcpcb) : kcp.unpushed.numbered = kcp.numbered :=
  rfl

theorem transmitting_unpushed (kcp : Ikcpcb) : kcp.unpushed.transmitting = kcp.transmitting :=
  rfl

theorem follows_push (follows : k.Follows out back out' back') (safe : back.Safe)
    (others : back.sent.length < 2 ^ 31) {p : Packet}
    (carried : (p.sn.toNat, p.item) ∈ back.data) :
    ∃ back'', (k.push p).Follows out back out' back'' := by
  have hsafe := safe_of_steps safe follows.receives.steps
  have hothers : back'.sent.length < 2 ^ 31 := by rwa [follows.receives.sent]
  obtain ⟨back'', hreceives, htakes⟩ := takes_push follows.takes hsafe hothers follows.window
    (follows.receives.steps.data carried)
  have hsame : (k.push p).transmitting = k.transmitting := by
    rw [← transmitting_unpushed, unpushed_push, transmitting_unpushed]
  have hnumbered : (k.push p).numbered = k.numbered := by
    rw [← numbered_unpushed, unpushed_push, numbered_unpushed]
  refine ⟨back'', follows.sends, follows.receives.trans hreceives, ?_,
    receiveWindow_push follows.window p, follows.transmits.of_same hsame, htakes⟩
  rw [hnumbered]
  exact follows.few

theorem transmitting_ungrown (kcp : Ikcpcb) : kcp.ungrown.transmitting = kcp.transmitting :=
  rfl

theorem transmitting_conclude (kcp : Ikcpcb) (una : UInt32) (latest : Option (UInt32 × UInt32)) :
    (kcp.conclude una latest).transmitting = kcp.transmitting := by
  rw [← transmitting_ungrown, ungrown_conclude, transmitting_ungrown]
  cases latest with
  | none => rfl
  | some last =>
      rw [counted, parseFastack, transmitting, transmitting]
      dsimp only
      split
      · rw [untimed_countFastack]
      · rfl

end Follows

/-- A segment that the other side has sent is read. -/
theorem follows_receive (follows : ∃ out' back', kcp.Follows out back out' back') (hout : out.Safe)
    (hback : back.Safe) (others : back.sent.length < 2 ^ 31) {p : Packet}
    (authentic : Authentic back out p) (latest : Option (UInt32 × UInt32)) :
    ∃ out' back', (kcp.receive p latest).2.Follows out back out' back' := by
  refine receive_induct (motive := fun k => ∃ out' back', k.Follows out back out' back')
    follows ?_ ?_ ?_ ?_
  · rintro ⟨out', back', follows⟩
    obtain ⟨out'', hheed⟩ := follows_heed follows hout authentic.una
    exact ⟨out'', back', hheed⟩
  · rintro k hack ⟨out', back', follows⟩
    obtain ⟨out'', hacked⟩ := follows_acknowledge follows (authentic.ack hack)
    exact ⟨out'', back', hacked⟩
  · rintro k hpush ⟨out', back', follows⟩
    obtain ⟨back'', hpushed⟩ := follows_push follows hback others (authentic.push hpush)
    exact ⟨out', back'', hpushed⟩
  · rintro k ⟨out', back', follows⟩
    exact ⟨out', back', follows.of_unheard rfl (.refl out') (follows.transmits.of_same rfl)⟩

theorem follows_conclude {k : Ikcpcb} (follows : ∃ out' back', k.Follows out back out' back')
    (una : UInt32) (latest : Option (UInt32 × UInt32)) :
    ∃ out' back', (k.conclude una latest).Follows out back out' back' := by
  obtain ⟨out', back', hfollows⟩ := follows
  exact ⟨out', back', hfollows.of_unheard (k.unheard_conclude una latest) (.refl out')
    (hfollows.transmits.of_same (k.transmitting_conclude una latest))⟩

/-- A datagram that the other side has sent is read. -/
theorem follows_input (refines : kcp.Refines conv out back) (hout : out.Safe) (hback : back.Safe)
    (few : kcp.numbered.length < 2 ^ 31) (others : back.sent.length < 2 ^ 31) {mtu : ℕ}
    {data : List UInt8}
    (arrives : Carries mtu (fun p => p.Valid conv ∧ Authentic back out p) data) :
    ∃ out' back', (kcp.input data).2.Follows out back out' back' := by
  have hauthentic : ∀ p ∈ (segments kcp.conv data).1, Authentic back out p := by
    intro p hp
    rw [refines.sized.configured.conv] at hp
    exact ((arrives.segments fun p hp => hp.1).2.2 p hp).2
  refine input_fold (motive := fun k => ∃ out' back', k.Follows out back out' back')
    ⟨out, back, .refl out, .refl back, few, refines.window, refines.transmits, refines.takes⟩ ?_ ?_
  · exact fun k p hp latest follows =>
      follows_receive follows hout hback others (hauthentic p hp) latest
  · exact fun k una latest follows => follows_conclude follows una latest

/-- What a call makes of the two runs, if it does not send. -/
theorem Refines.of_outputs {k : Ikcpcb} {out' back' : State Item}
    (refines : kcp.Refines conv out back) (sized : k.Sized conv) (window : k.ReceiveWindow)
    (configuration : k.configuration = kcp.configuration) (outputs : k.outputs = kcp.outputs)
    (sends : Sends out out') (receives : Receives back back') (transmits : k.Transmits out')
    (takes : k.Takes back') : k.Refines conv out' back' := by
  have hmtu : k.mtu = kcp.mtu := (congrArg (fun c => c.2.1) configuration :)
  refine ⟨sized, window, transmits, takes, fun data hdata => ?_⟩
  rw [outputs] at hdata
  rw [hmtu]
  exact (refines.network data hdata).imp fun p hp =>
    ⟨hp.1, hp.2.of_steps sends.steps receives.steps⟩

theorem takes_recv (refines : kcp.Refines conv out back) (safe : back.Safe)
    (others : back.sent.length < 2 ^ 31) (len : ℤ) :
    ∃ back', Receives back back' ∧ (kcp.recv len).2.2.Takes back' := by
  have htakes := refines.takes
  have hholds := refines.window.holds
  rcases kcp.recv_cases len with ⟨-, heq⟩ | ⟨-, askTell, heq⟩ | ⟨-, -, -, -, -, askTell, heq⟩
  · rw [heq]
    exact ⟨back, .refl back, htakes⟩
  · obtain ⟨back', hreceives, hdelivered⟩ := takes_deliver htakes safe others hholds
    rw [heq]
    exact ⟨back', hreceives, hdelivered.of_same rfl⟩
  · obtain ⟨back', hreceives, hdelivered⟩ :=
      @takes_deliver { kcp with rcvQueue := (merge kcp.rcvQueue).2 } back kcp.rcvBuf
        (htakes.of_same rfl) safe others ⟨hholds.ascending, hholds.inside⟩
    rw [heq]
    exact ⟨back', hreceives, hdelivered.of_same rfl⟩

/-- Each call of one side is steps of its two runs. -/
theorem refines_apply (refines : kcp.Refines conv out back) (hout : out.Safe) (hback : back.Safe)
    {call : Call} (few : (kcp.apply call).numbered.length < 2 ^ 31)
    (others : back.sent.length < 2 ^ 31)
    (arrives : ∀ data, call = .input data →
      ∃ mtu, Carries mtu (fun p => p.Valid conv ∧ Authentic back out p) data) :
    ∃ out' back', Sends out out' ∧ Receives back back' ∧
      (kcp.apply call).Refines conv out' back' := by
  have hsized := sized_apply refines.sized call
  have hwindow := receiveWindow_apply refines.window call
  have hconfiguration := kcp.configuration_apply call
  cases call with
  | send buffer =>
      have hsame := kcp.unqueued_send buffer
      exact ⟨out, back, .refl out, .refl back, refines.of_outputs hsized hwindow hconfiguration
        (congrArg Ikcpcb.outputs hsame :) (.refl out) (.refl back)
        (refines.transmits.of_same (congrArg transmitting hsame :))
        (refines.takes.of_same (congrArg taking hsame :))⟩
  | recv len =>
      have hsame := kcp.unreceived_recv len
      obtain ⟨back', hreceives, htakes⟩ := takes_recv refines hback others len
      exact ⟨out, back', .refl out, hreceives, refines.of_outputs hsized hwindow hconfiguration
        (congrArg Ikcpcb.outputs hsame :) (.refl out) hreceives
        (refines.transmits.of_same (congrArg transmitting hsame :)) htakes⟩
  | input data =>
      obtain ⟨mtu, hcarries⟩ := arrives data rfl
      have hread := kcp.unread_input data
      have hnumbered : (kcp.input data).2.numbered = kcp.numbered :=
        (congrArg Ikcpcb.numbered hread :)
      rw [apply, hnumbered] at few
      obtain ⟨out', back', follows⟩ := follows_input refines hout hback few others hcarries
      exact ⟨out', back', follows.sends, follows.receives, refines.of_outputs hsized hwindow
        hconfiguration (congrArg Ikcpcb.outputs hread :) follows.sends follows.receives
        follows.transmits follows.takes⟩
  | update current =>
      have hclock (tsFlush : UInt32) : (kcp.clock current tsFlush).Refines conv out back :=
        refines.of_outputs (refines.sized.of_among rfl rfl (List.Subset.refl _))
          (refines.window.of_inbound rfl) rfl rfl (.refl out) (.refl back)
          (refines.transmits.of_same rfl) (refines.takes.of_same rfl)
      rw [apply] at few ⊢
      obtain ⟨tsFlush, heq | heq⟩ := kcp.update_cases current
      · rw [heq]
        exact ⟨out, back, .refl out, .refl back, hclock tsFlush⟩
      · rw [heq] at few ⊢
        exact refines_flush (hclock tsFlush) few
  | flush => exact refines_flush refines few

end Calls

theorem prefix_of_eq {items others : List Item} (same : items = others) : items <+: others :=
  same ▸ List.prefix_refl _

theorem numbered_flush (kcp : Ikcpcb) : kcp.numbered <+: kcp.flush.numbered := by
  have hasked : kcp.askWindow.numbered = kcp.numbered :=
    (congrArg Ikcpcb.numbered kcp.unasked_askWindow :)
  have hfilled : kcp.numbered <+: kcp.filled.numbered := by
    refine fill_induct (motive := fun k => kcp.numbered <+: k.numbered) ?_ ?_
    · exact prefix_of_eq hasked.symm
    · exact fun k newseg rest _ _ hprefix => hprefix.trans (List.prefix_append _ _)
  cases hupdated : kcp.updated with
  | false =>
      rw [flush, hupdated]
      exact List.prefix_refl _
  | true =>
      have hflush : kcp.flush.numbered = kcp.filled.numbered :=
        (congrArg Ikcpcb.numbered (uncongested_flush hupdated) :)
      rw [hflush]
      exact hfilled

/-- What was given a number stays. -/
theorem numbered_apply (kcp : Ikcpcb) (call : Call) :
    kcp.numbered <+: (kcp.apply call).numbered := by
  cases call with
  | send buffer =>
      exact prefix_of_eq (congrArg Ikcpcb.numbered (kcp.unqueued_send buffer).symm :)
  | recv len =>
      exact prefix_of_eq (congrArg Ikcpcb.numbered (kcp.unreceived_recv len).symm :)
  | input data =>
      exact prefix_of_eq (congrArg Ikcpcb.numbered (kcp.unread_input data).symm :)
  | update current =>
      rw [apply]
      obtain ⟨tsFlush, heq | heq⟩ := kcp.update_cases current
      · rw [heq]
        exact List.prefix_refl _
      · rw [heq]
        exact numbered_flush (kcp.clock current tsFlush)
  | flush => exact kcp.numbered_flush

/-- A control block that was set up is the sender and the receiver of runs that have not begun. -/
theorem refines_of_setUp {conv : UInt32} {start : Ikcpcb} (setUp : SetUp conv start) :
    start.Refines conv {} {} := by
  have hbare := bare_of_setUp setUp
  have hsndNxt : start.sndNxt = 0 := (congrArg Ikcpcb.sndNxt hbare :)
  have hrcvNxt : start.rcvNxt = 0 := (congrArg Ikcpcb.rcvNxt hbare :)
  have hsndBuf : start.sndBuf = [] := (congrArg Ikcpcb.sndBuf hbare :)
  have hrcvBuf : start.rcvBuf = [] := (congrArg Ikcpcb.rcvBuf hbare :)
  have hackList : start.ackList = [] := (congrArg Ikcpcb.ackList hbare :)
  have hnumbered : start.numbered = [] := (congrArg Ikcpcb.numbered hbare :)
  have hordered : start.ordered = [] := (congrArg Ikcpcb.ordered hbare :)
  have houtputs : start.outputs = [] := (congrArg Ikcpcb.outputs hbare :)
  refine ⟨sized_of_setUp setUp, receiveWindow_of_setUp setUp, ⟨?_, ?_, ?_, nofun⟩,
    ⟨?_, ?_, fun n item => ?_, ?_⟩, ?_⟩
  · rw [hnumbered]
  · rw [hsndNxt, hnumbered]
    rfl
  · rw [hsndBuf]
    nofun
  · rw [hordered]
  · rw [hrcvNxt, hordered]
    rfl
  · rw [hrcvBuf]
    exact ⟨nofun, nofun⟩
  · rw [hackList]
    nofun
  · rw [houtputs]
    nofun

end Ikcpcb

/-- There were not more numbers before a step. -/
theorem few_of_step {s next : Pair} {one : Side} {call : Call}
    (taken : Pair.step (one, call) s = some next) {bound : ℕ}
    (few : ∀ side, (next.kcps side).numbered.length < bound) :
    ∀ side, (s.kcps side).numbered.length < bound := by
  intro side
  obtain ⟨-, hone, hother, -⟩ := Pair.step_cases taken
  rcases one.eq_or_eq_other side with rfl | rfl
  · refine ((s.kcps side).numbered_apply call).length_le.trans_lt ?_
    rw [← hone]
    exact few side
  · rw [← hother]
    exact few one.other

/-- In each direction, the two control blocks are the sender and the receiver of a run of selective
repeat. -/
theorem flows_of_run {conv : UInt32} {start : Side → Ikcpcb}
    (setUp : ∀ side, SetUp conv (start side)) {events : List (Side × Call)} {s : Pair}
    (run : (Pair.machine start).Run events s)
    (few : ∀ side, (s.kcps side).numbered.length < 2 ^ 31) :
    ∃ flows : Side → State Item, ∀ side, Steps {} (flows side) ∧
      (s.kcps side).Refines conv (flows side) (flows side.other) := by
  refine run.induct (motive := fun _ s => (∀ side, (s.kcps side).numbered.length < 2 ^ 31) →
    ∃ flows : Side → State Item, ∀ side, Steps {} (flows side) ∧
      (s.kcps side).Refines conv (flows side) (flows side.other)) ?_ ?_ few
  · exact fun _ => ⟨fun _ => {}, fun side => ⟨.refl, Ikcpcb.refines_of_setUp (setUp side)⟩⟩
  rintro events s ⟨side, call⟩ next run ih - taken few
  obtain ⟨hpossible, hside, hother, -⟩ := Pair.step_cases taken
  have hprior := few_of_step taken few
  obtain ⟨flows, hflows⟩ := ih hprior
  obtain ⟨hout, hrefines⟩ := hflows side
  obtain ⟨hback, hrefines'⟩ := hflows side.other
  rw [Side.other_other] at hrefines'
  have hothers : (flows side.other).sent.length < 2 ^ 31 := by
    rw [hrefines'.transmits.sent]
    exact hprior side.other
  have happly : ((s.kcps side).apply call).numbered.length < 2 ^ 31 := by
    rw [← hside]
    exact few side
  obtain ⟨out', back', hsends, hreceives, hnext⟩ := Ikcpcb.refines_apply hrefines
    (safe_of_steps safe_init hout) (safe_of_steps safe_init hback) happly hothers
    (by
      rintro data rfl
      exact ⟨_, hrefines'.network data hpossible⟩)
  have hne := side.other_ne
  refine ⟨fun one => if one = side then out' else back', fun one => ?_⟩
  rcases side.eq_or_eq_other one with rfl | rfl
  · dsimp only
    rw [if_pos rfl, if_neg hne, hside]
    exact ⟨hout.trans hsends.steps, hnext⟩
  · dsimp only
    rw [if_neg hne, Side.other_other, if_pos rfl, hother]
    exact ⟨hback.trans hreceives.steps, hrefines'.of_other hreceives hsends⟩

/-- In each direction, every run of two control blocks is a run of selective repeat: its items are
those that one side has numbered, it has delivered those that the other side has put in order, what
it keeps is in `snd_buf` and what is ahead is `rcv_buf`. -/
theorem refines_of_run {conv : UInt32} {start : Side → Ikcpcb}
    (setUp : ∀ side, SetUp conv (start side)) {events : List (Side × Call)} {s : Pair}
    (run : (Pair.machine start).Run events s)
    (few : ∀ side, (s.kcps side).numbered.length < 2 ^ 31) (side : Side) :
    ∃ flow : State Item, Steps {} flow ∧ flow.sent = (s.kcps side).numbered ∧
      flow.delivered = (s.kcps side.other).ordered ∧
      (∀ n ∈ flow.kept, ∃ seg ∈ (s.kcps side).sndBuf, seg.sn.toNat = n) ∧
      ∀ n item, (n, item) ∈ flow.ahead ↔
        ∃ seg ∈ (s.kcps side.other).rcvBuf, seg.sn.toNat = n ∧ seg.item = item := by
  obtain ⟨flows, hflows⟩ := flows_of_run setUp run few
  obtain ⟨hsteps, hrefines⟩ := hflows side
  have htakes := (hflows side.other).2.takes
  rw [Side.other_other] at htakes
  exact ⟨flows side, hsteps, hrefines.transmits.sent, htakes.delivered, hrefines.transmits.kept,
    htakes.ahead⟩

/-- Three bytes are sent, taken and acknowledged. -/
theorem refines_of_exchange :
    let M := Pair.machine fun _ => Ikcpcb.ofTransport 0x11223344 1 5 2 1
    let s := M.reached Pair.exchange
    ∃ flow : State Item, Steps {} flow ∧ flow.sent = (s.kcps .left).numbered ∧
      flow.delivered = (s.kcps .right).ordered ∧
      (∀ n ∈ flow.kept, ∃ seg ∈ (s.kcps .left).sndBuf, seg.sn.toNat = n) ∧
      ∀ n item, (n, item) ∈ flow.ahead ↔
        ∃ seg ∈ (s.kcps .right).rcvBuf, seg.sn.toNat = n ∧ seg.item = item :=
  refines_of_run (fun _ => Ikcpcb.setUp_ofTransport _ _ _ _ _)
    (Machine.run_reached (by decide +kernel)) (by rintro (_ | _) <;> decide +kernel) .left

end Sxaint.Ikcp
