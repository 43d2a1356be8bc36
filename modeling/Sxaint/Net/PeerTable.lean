/-
# The table of peers

The listener of `Discovery` over the datagrams that arrive. Its buffer is filled over and over, but
what is read of it ends at the zero byte behind the datagram, so each datagram counts by itself: it
is an announcement or it is not. The table has an entry for every address that has announced itself,
with the first name and the time of the last announcement, and the callback has heard of each of
them once.
-/

import Mathlib.Data.List.Induction
import Sxaint.Bytes.Decimal
import Sxaint.Bytes.TextStream
import Sxaint.Math.Registry
import Sxaint.Net.Discovery
import Sxaint.Net.Stun

namespace Sxaint.Net

/-! ## The text of an address -/

namespace StunClient

theorem toNat_octet (ip shift : UInt32) (small : shift.toNat < 32) :
    Decimal.value (octet ip shift) = ip.toNat / 2 ^ shift.toNat % 256 := by
  have hoctet : octet ip shift = Decimal.encode ((ip >>> shift) &&& 0xFF).toNat := rfl
  rw [hoctet, Decimal.value_encode, UInt32.toNat_and, UInt32.toNat_shiftRight,
    Nat.mod_eq_of_lt small, Nat.shiftRight_eq_div_pow]
  exact Nat.and_two_pow_sub_one_eq_mod _ 8

theorem dot_notMem_octet (ip shift : UInt32) : 0x2E ∉ octet ip shift := by
  intro hmem
  have hdigit : Decimal.isDigit 0x2E = true := Decimal.isDigit_of_mem_encode hmem
  revert hdigit
  decide

/-- Different addresses have different texts. -/
theorem dotted_injective : Function.Injective dotted := by
  intro a b heq
  rw [dotted, dotted] at heq
  simp only [List.append_assoc, List.cons_append] at heq
  obtain ⟨h24, heq⟩ := ByteStream.separated_inj (dot_notMem_octet a 24) (dot_notMem_octet b 24) heq
  obtain ⟨h16, heq⟩ := ByteStream.separated_inj (dot_notMem_octet a 16) (dot_notMem_octet b 16) heq
  obtain ⟨h8, h0⟩ := ByteStream.separated_inj (dot_notMem_octet a 8) (dot_notMem_octet b 8) heq
  have hvalue {shift : UInt32} (same : octet a shift = octet b shift)
      (small : shift.toNat < 32) :
      a.toNat / 2 ^ shift.toNat % 256 = b.toNat / 2 ^ shift.toNat % 256 := by
    rw [← toNat_octet a shift small, same, toNat_octet b shift small]
  have e24 := hvalue h24 (by decide)
  have e16 := hvalue h16 (by decide)
  have e8 := hvalue h8 (by decide)
  have e0 := hvalue h0 (by decide)
  have ha := a.toNat_lt
  have hb := b.toNat_lt
  apply UInt32.toNat_inj.mp
  simp only [UInt32.reduceToNat] at e24 e16 e8 e0
  omega

end StunClient

namespace Discovery

open StunClient Registry

/-! ## The loop -/

/-- A datagram with its source and the time at which it is received. -/
structure Arrival where
  source : UInt32
  time : ℕ
  datagram : List UInt8
  deriving DecidableEq, Repr

/-- `listen_loop` over the datagrams that arrive. -/
def listenLoop (arrivals : List Arrival) (d : Discovery) : Discovery :=
  arrivals.foldl (fun d arrival => listen (dotted arrival.source) arrival.time arrival.datagram d) d

theorem listenLoop_concat (arrivals : List Arrival) (arrival : Arrival) (d : Discovery) :
    listenLoop (arrivals ++ [arrival]) d =
      listen (dotted arrival.source) arrival.time arrival.datagram (listenLoop arrivals d) := by
  rw [listenLoop, List.foldl_append]
  rfl

/-! ## What an announcement is -/

/-- The name in a datagram: it fits into the buffer and begins with the prefix, and the name goes on
to the first zero byte. -/
def announcedName (datagram : List UInt8) : Option (List UInt8) :=
  if datagram.length < 1024 ∧ listenPrefix <+: datagram then
    some ((datagram.drop listenPrefix.length).takeWhile (· ≠ 0))
  else none

/-- The announcements among the datagrams. -/
def announcements (arrivals : List Arrival) : List (Record UInt32 (List UInt8) ℕ) :=
  arrivals.filterMap fun arrival =>
    (announcedName arrival.datagram).map fun hostname => ⟨arrival.source, hostname, arrival.time⟩

theorem hostnameIn_takeWhile (datagram : List UInt8) :
    hostnameIn (datagram.takeWhile (· ≠ 0)) =
      if listenPrefix <+: datagram then
        some ((datagram.drop listenPrefix.length).takeWhile (· ≠ 0))
      else none := by
  rw [hostnameIn]
  split
  · rename_i hstarts
    have hprefix := (List.isPrefixOf_iff_prefix.mp hstarts).trans (List.takeWhile_prefix _)
    obtain ⟨rest, rfl⟩ := hprefix
    rw [if_pos (List.prefix_append _ _), List.takeWhile_append_of_pos (by decide +kernel),
      List.drop_left]
    rfl
  · rename_i hnot
    rw [if_neg]
    rintro ⟨rest, rfl⟩
    rw [List.takeWhile_append_of_pos (by decide +kernel)] at hnot
    exact hnot (List.isPrefixOf_iff_prefix.mpr (List.prefix_append _ _))

/-- Whatever the buffer holds, the listener takes a datagram for an announcement exactly if it is
one. -/
theorem heard_eq {d : Discovery} (size : d.buffer.length = 1024) (datagram : List UInt8) :
    (d.receive datagram).1.bind hostnameIn = announcedName datagram := by
  rw [announcedName]
  by_cases hfits : datagram.length < 1024
  · by_cases hempty : datagram = []
    · subst hempty
      have hnothing : recvfrom [] d.buffer = (some 0, Buffer.overwrite d.buffer 0 []) :=
        if_pos (Nat.zero_le _)
      rw [receive, hnothing]
      rfl
    · rw [receive_of_fits (size ▸ hfits) hempty, Option.bind_some, hostnameIn_takeWhile]
      simp only [hfits, true_and]
  · rw [receive, recvfrom, if_neg (by omega), if_neg fun h => hfits h.1]
    rfl

theorem length_buffer_receive (datagram : List UInt8) (d : Discovery) :
    (d.receive datagram).2.buffer.length = d.buffer.length := by
  have hfilled : (recvfrom datagram d.buffer).2.length = d.buffer.length := by
    rw [recvfrom]
    split
    · exact Buffer.length_overwrite (by omega)
    · exact Buffer.length_overwrite (by rw [List.length_take]; omega)
  rw [receive]
  generalize recvfrom datagram d.buffer = result at hfilled
  obtain ⟨_ | _ | count, filled⟩ := result
  · exact hfilled
  · exact hfilled
  · exact (List.length_set ..).trans hfilled

/-! ## The table -/

/-- What a log of announcements makes of a listener. -/
structure PeerLaw (log : List (Record UInt32 (List UInt8) ℕ)) (d : Discovery) : Prop where
  /-- The callback was invoked once for each address with a record, with the first one. -/
  called : ∀ source, d.found.filter (·.ipAddress = dotted source) =
    ((recordsOf log source).head?.map fun first =>
      (⟨dotted source, first.value, first.time⟩ : Peer)).toList
  calledOnly : ∀ peer ∈ d.found, ∃ source, peer.ipAddress = dotted source
  /-- The table has the first name and the last time of each of them. -/
  table : ∀ source, d.peer? (dotted source) =
    (known log source).map fun seen => ⟨dotted source, seen.1, seen.2⟩
  tableOnly : ∀ entry ∈ d.activePeers, ∃ source, entry.1 = dotted source
  unique : (d.activePeers.map Prod.fst).Nodup

/-- A listener with a callback and its buffer, that a log has made. -/
structure Listening (log : List (Record UInt32 (List UInt8) ℕ)) (d : Discovery) : Prop
    extends PeerLaw log d where
  size : d.buffer.length = 1024
  callback : d.hasCallback = true

theorem listening_nil : Listening [] {} where
  called _ := rfl
  calledOnly := by simp
  table _ := rfl
  tableOnly := by simp
  unique := List.nodup_nil
  size := List.length_replicate
  callback := rfl

theorem lookup_cons_of_ne {table : List (List UInt8 × Peer)} {ip : List UInt8}
    {entry : List UInt8 × Peer} (other : ip ≠ entry.1) :
    (entry :: table).lookup ip = table.lookup ip := by
  rw [List.lookup_cons, beq_false_of_ne other]

theorem lookup_filter_of_ne {table : List (List UInt8 × Peer)} {ip removed : List UInt8}
    (other : ip ≠ removed) :
    (table.filter fun entry => entry.1 ≠ removed).lookup ip = table.lookup ip := by
  induction table with
  | nil => rfl
  | cons entry table ih =>
      by_cases hremoved : entry.1 = removed
      · rw [List.filter_cons_of_neg (by simpa using hremoved), ih,
          lookup_cons_of_ne (hremoved ▸ other)]
      · rw [List.filter_cons_of_pos (by simpa using hremoved), List.lookup_cons, List.lookup_cons,
          ih]

section

variable {log : List (Record UInt32 (List UInt8) ℕ)} {d : Discovery} {source : UInt32}

theorem key_notMem_of_unknown (unknown : d.peer? (dotted source) = none) :
    dotted source ∉ d.activePeers.map Prod.fst := by
  rintro hmem
  obtain ⟨entry, hentry, hkey⟩ := List.mem_map.mp hmem
  have hdiffers := List.lookup_eq_none_iff.mp unknown entry hentry
  rw [hkey] at hdiffers
  simp at hdiffers

/-- An address that was not heard before gets an entry, and the callback is told. -/
theorem listening_announced_of_new (inv : Listening log d) (hostname : List UInt8) (now : ℕ)
    (new : known log source = none) :
    Listening (log ++ [⟨source, hostname, now⟩]) (d.announced (dotted source) hostname now) ∧
      (d.announced (dotted source) hostname now).found =
        d.found ++ [⟨dotted source, hostname, now⟩] := by
  have hunknown : d.peer? (dotted source) = none := by rw [inv.table, new]; rfl
  have hannounced : d.announced (dotted source) hostname now =
      { d with
        activePeers := (dotted source, ⟨dotted source, hostname, now⟩) :: d.activePeers
        found := d.found ++ [⟨dotted source, hostname, now⟩] } := by
    rw [announced, hunknown]
    simp only [inv.callback, if_true]
  rw [hannounced]
  refine ⟨⟨⟨fun other => ?_, fun peer hpeer => ?_, fun other => ?_, fun entry hentry => ?_, ?_⟩,
    inv.size, inv.callback⟩, rfl⟩
  · rw [List.filter_append, inv.called]
    by_cases hsame : source = other
    · subst hsame
      rw [recordsOf_concat_self, known_eq_none_iff.mp new, List.filter_cons_of_pos (by simp)]
      rfl
    · have hdiffers : dotted source ≠ dotted other := fun h => hsame (dotted_injective h)
      rw [recordsOf_concat_of_ne hsame, List.filter_cons_of_neg (by simpa using hdiffers)]
      exact List.append_nil _
  · rcases List.mem_append.mp hpeer with hold | hnew
    · exact inv.calledOnly peer hold
    · exact ⟨source, by rw [List.mem_singleton.mp hnew]⟩
  · rw [peer?]
    by_cases hsame : source = other
    · subst hsame
      rw [List.lookup_cons_self, known_concat_of_new new]
      rfl
    · have hdiffers : dotted other ≠ dotted source := fun h => hsame (dotted_injective h).symm
      rw [lookup_cons_of_ne hdiffers, known_concat_of_ne hsame]
      exact inv.table other
  · rcases List.mem_cons.mp hentry with rfl | hold
    · exact ⟨source, rfl⟩
    · exact inv.tableOnly entry hold
  · exact List.nodup_cons.mpr ⟨key_notMem_of_unknown hunknown, inv.unique⟩

/-- An address that was heard before is only marked as seen. -/
theorem listening_announced_of_known (inv : Listening log d) (hostname : List UInt8) (now : ℕ)
    (heard : known log source ≠ none) :
    Listening (log ++ [⟨source, hostname, now⟩]) (d.announced (dotted source) hostname now) ∧
      (d.announced (dotted source) hostname now).found = d.found := by
  obtain ⟨⟨name, time⟩, hknown⟩ := Option.ne_none_iff_exists'.mp heard
  have hpeer : d.peer? (dotted source) = some ⟨dotted source, name, time⟩ := by
    rw [inv.table, hknown]
    rfl
  have hannounced : d.announced (dotted source) hostname now =
      { d with
        activePeers := (dotted source, ⟨dotted source, name, now⟩) ::
          d.activePeers.filter fun entry => entry.1 ≠ dotted source } := by
    rw [announced, hpeer]
  rw [hannounced]
  refine ⟨⟨⟨fun other => ?_, inv.calledOnly, fun other => ?_, fun entry hentry => ?_, ?_⟩,
    inv.size, inv.callback⟩, rfl⟩
  · refine (inv.called other).trans ?_
    by_cases hsame : source = other
    · subst hsame
      rw [head?_recordsOf_concat ⟨source, hostname, now⟩ heard]
    · rw [recordsOf_concat_of_ne hsame]
  · rw [peer?]
    by_cases hsame : source = other
    · subst hsame
      rw [List.lookup_cons_self,
        known_concat_of_known ⟨source, hostname, now⟩ hknown]
      rfl
    · have hdiffers : dotted other ≠ dotted source := fun h => hsame (dotted_injective h).symm
      rw [lookup_cons_of_ne hdiffers, lookup_filter_of_ne hdiffers, known_concat_of_ne hsame]
      exact inv.table other
  · rcases List.mem_cons.mp hentry with rfl | hold
    · exact ⟨source, rfl⟩
    · exact inv.tableOnly entry (List.mem_of_mem_filter hold)
  · refine List.nodup_cons.mpr ⟨?_, inv.unique.sublist (List.filter_sublist.map _)⟩
    rintro hmem
    obtain ⟨entry, hentry, hkey⟩ := List.mem_map.mp hmem
    simpa [hkey] using (List.mem_filter.mp hentry).2

end

/-! ## Every datagram -/

theorem listening_receive {log : List (Record UInt32 (List UInt8) ℕ)} {d : Discovery}
    (inv : Listening log d) (datagram : List UInt8) : Listening log (d.receive datagram).2 := by
  obtain ⟨hpeers, hfound⟩ := receive_activePeers datagram d
  have hcallback : (d.receive datagram).2.hasCallback = d.hasCallback := by
    rw [receive]
    rcases recvfrom datagram d.buffer with ⟨_ | _ | count, filled⟩ <;> rfl
  refine ⟨⟨?_, ?_, ?_, ?_, ?_⟩, ?_, ?_⟩
  · rw [hfound]
    exact inv.called
  · rw [hfound]
    exact inv.calledOnly
  · intro source
    rw [peer?, hpeers]
    exact inv.table source
  · rw [hpeers]
    exact inv.tableOnly
  · rw [hpeers]
    exact inv.unique
  · rw [length_buffer_receive, inv.size]
  · rw [hcallback, inv.callback]

/-- One datagram. -/
theorem listening_listen {log : List (Record UInt32 (List UInt8) ℕ)} {d : Discovery}
    (inv : Listening log d) (arrival : Arrival) :
    match announcedName arrival.datagram with
    | none =>
      listen (dotted arrival.source) arrival.time arrival.datagram d =
        (d.receive arrival.datagram).2
    | some hostname =>
      Listening (log ++ [⟨arrival.source, hostname, arrival.time⟩])
          (listen (dotted arrival.source) arrival.time arrival.datagram d) ∧
        (listen (dotted arrival.source) arrival.time arrival.datagram d).found =
          if known log arrival.source = none then
            d.found ++ [⟨dotted arrival.source, hostname, arrival.time⟩]
          else d.found := by
  have hheard := heard_eq inv.size arrival.datagram
  have hkept := listening_receive inv arrival.datagram
  have hfound := (receive_activePeers arrival.datagram d).2
  cases hname : announcedName arrival.datagram with
  | none => simp only [listen, hheard, hname]
  | some hostname =>
      have hlisten : listen (dotted arrival.source) arrival.time arrival.datagram d =
          (d.receive arrival.datagram).2.announced (dotted arrival.source) hostname
            arrival.time := by
        simp only [listen, hheard, hname]
      rw [hlisten]
      dsimp only
      split
      · rename_i hnew
        rw [← hfound]
        exact listening_announced_of_new hkept hostname arrival.time hnew
      · rename_i hheard
        rw [← hfound]
        exact listening_announced_of_known hkept hostname arrival.time hheard

theorem listening_listenLoop (arrivals : List Arrival) :
    Listening (announcements arrivals) (listenLoop arrivals {}) := by
  induction arrivals using List.reverseRecOn with
  | nil => exact listening_nil
  | append_singleton arrivals arrival ih =>
      have hstep := listening_listen ih arrival
      rw [listenLoop_concat, announcements, List.filterMap_append, ← announcements]
      cases hname : announcedName arrival.datagram with
      | none =>
          rw [hname] at hstep
          rw [hstep, List.filterMap_cons_none (by rw [hname]; rfl), List.filterMap_nil,
            List.append_nil]
          exact listening_receive ih arrival.datagram
      | some hostname =>
          rw [hname] at hstep
          rw [List.filterMap_cons_some (by rw [hname]; rfl)]
          exact hstep.1

/-- After any datagrams the callback has heard of every address that sent an announcement once, with
its first one, and the table has its first name and its last time and no other address. The callback
is invoked at the first announcement of an address, and a datagram that is no announcement changes
nothing. -/
theorem peerLaw_listenLoop (arrivals : List Arrival) (arrival : Arrival) :
    PeerLaw (announcements arrivals) (listenLoop arrivals {}) ∧
      match announcedName arrival.datagram with
      | none =>
        (listenLoop (arrivals ++ [arrival]) {}).activePeers = (listenLoop arrivals {}).activePeers ∧
          (listenLoop (arrivals ++ [arrival]) {}).found = (listenLoop arrivals {}).found
      | some hostname =>
        (listenLoop (arrivals ++ [arrival]) {}).found =
          if known (announcements arrivals) arrival.source = none then
            (listenLoop arrivals {}).found ++ [⟨dotted arrival.source, hostname, arrival.time⟩]
          else (listenLoop arrivals {}).found := by
  have inv := listening_listenLoop arrivals
  have hstep := listening_listen inv arrival
  refine ⟨inv.toPeerLaw, ?_⟩
  rw [listenLoop_concat]
  cases hname : announcedName arrival.datagram with
  | none =>
      rw [hname] at hstep
      rw [hstep]
      exact receive_activePeers arrival.datagram _
  | some hostname =>
      rw [hname] at hstep
      exact hstep.2

end Discovery

end Sxaint.Net
