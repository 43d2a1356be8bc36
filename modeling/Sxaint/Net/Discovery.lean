/-
# Local discovery

The two loops of `Discovery`. One broadcasts a payload made of a prefix and the device
name, the other takes datagrams apart and keeps a table of the peers it has heard of. They
spell the prefix in different ways: the payload begins with a capital letter, the test of
the listener with a small one, and so no broadcast is ever taken for an announcement.
-/

import Mathlib.Data.List.TakeWhile
import Sxaint.Bytes.Block

namespace Sxaint.Net

/-- A peer that was heard of. -/
structure Peer where
  ipAddress : List UInt8
  hostname : List UInt8
  lastSeen : ℕ
  deriving DecidableEq, Repr

/-- The members of a `Discovery` that its listener uses. -/
structure Discovery where
  /-- The receive buffer of 1024 bytes. -/
  buffer : List UInt8 := List.replicate 1024 0
  /-- The known peers by address, the last one first. -/
  activePeers : List (List UInt8 × Peer) := []
  hasCallback : Bool := true
  /-- The peers passed to the callback. -/
  found : List Peer := []
  deriving DecidableEq, Repr

namespace Discovery

/-- The text `Sxaint|`. -/
def broadcastPrefix : List UInt8 :=
  [83, 120, 97, 105, 110, 116, 124]

/-- The text `sxaint|`. -/
def listenPrefix : List UInt8 :=
  [115, 120, 97, 105, 110, 116, 124]

/-- The datagram that `broadcast_loop` sends. -/
def payload (deviceName : List UInt8) : List UInt8 :=
  broadcastPrefix ++ deviceName

/-- `recvfrom` with one byte of the buffer left free. A datagram that does not fit fills
the buffer and is an error. -/
def recvfrom (datagram buffer : List UInt8) : Option ℕ × List UInt8 :=
  if datagram.length ≤ buffer.length - 1 then
    (some datagram.length, Buffer.overwrite buffer 0 datagram)
  else (none, Buffer.overwrite buffer 0 (datagram.take (buffer.length - 1)))

/-- A string made of the bytes before the first zero byte of a buffer. -/
def cString (buffer : List UInt8) : List UInt8 :=
  buffer.takeWhile (· ≠ 0)

/-- The name in a message that starts like an announcement. -/
def hostnameIn (msg : List UInt8) : Option (List UInt8) :=
  if listenPrefix.isPrefixOf msg then some (msg.drop 7) else none

/-- The peer known under an address. -/
def peer? (d : Discovery) (ip : List UInt8) : Option Peer :=
  d.activePeers.lookup ip

/-- An announcement was heard. A known peer is only marked as seen. -/
def announced (d : Discovery) (ip hostname : List UInt8) (now : ℕ) : Discovery :=
  match d.peer? ip with
  | none =>
    let peer : Peer := ⟨ip, hostname, now⟩
    { d with
      activePeers := (ip, peer) :: d.activePeers
      found := if d.hasCallback then d.found ++ [peer] else d.found }
  | some peer =>
    { d with
      activePeers := (ip, { peer with lastSeen := now }) ::
        d.activePeers.filter fun entry => entry.1 ≠ ip }

/-- The message that the listener makes of a datagram, if there is anything in it. -/
def receive (datagram : List UInt8) (d : Discovery) : Option (List UInt8) × Discovery :=
  let (bytesRead, filled) := recvfrom datagram d.buffer
  match bytesRead with
  | none => (none, { d with buffer := filled })
  | some 0 => (none, { d with buffer := filled })
  | some (count + 1) =>
    let terminated := filled.set (count + 1) 0
    (some (cString terminated), { d with buffer := terminated })

/-- One round of `listen_loop`, for a datagram that has arrived from an address. -/
def listen (ip : List UInt8) (now : ℕ) (datagram : List UInt8) (d : Discovery) : Discovery :=
  let (msg, d) := d.receive datagram
  match msg.bind hostnameIn with
  | some hostname => d.announced ip hostname now
  | none => d

/-- What the listener reads from a datagram that fits is the datagram up to its first zero
byte. -/
theorem cString_of_fits {datagram buffer : List UInt8} (fits : datagram.length < buffer.length) :
    cString ((Buffer.overwrite buffer 0 datagram).set datagram.length 0) =
      datagram.takeWhile (· ≠ 0) := by
  have hrest : (Buffer.overwrite buffer 0 datagram).set datagram.length 0 =
      datagram ++ 0 :: buffer.drop (datagram.length + 1) := by
    rw [Buffer.overwrite, List.take_zero, List.nil_append, Nat.zero_add,
      List.set_append_right _ _ (Nat.le_refl _), Nat.sub_self, List.drop_eq_getElem_cons fits,
      List.set_cons_zero]
  rw [cString, hrest, List.takeWhile_append]
  split
  · rename_i hwhole
    rw [List.takeWhile_cons_of_neg (by simp), List.append_nil]
    exact ((List.takeWhile_prefix _).eq_of_length hwhole).symm
  · rfl

/-- A datagram that fits into the buffer is received as it is. -/
theorem receive_of_fits {datagram : List UInt8} {d : Discovery}
    (fits : datagram.length < d.buffer.length) (nonempty : datagram ≠ []) :
    (d.receive datagram).1 = some (datagram.takeWhile (· ≠ 0)) := by
  have hrecv : recvfrom datagram d.buffer =
      (some datagram.length, Buffer.overwrite d.buffer 0 datagram) := if_pos (by omega)
  have hstring := cString_of_fits fits
  rw [receive, hrecv]
  cases hlength : datagram.length with
  | zero => exact (nonempty (List.eq_nil_of_length_eq_zero hlength)).elim
  | succ count =>
      rw [hlength] at hstring
      exact congrArg some hstring

/-- Receiving changes the buffer only. -/
theorem receive_activePeers (datagram : List UInt8) (d : Discovery) :
    (d.receive datagram).2.activePeers = d.activePeers ∧
      (d.receive datagram).2.found = d.found := by
  rw [receive]
  rcases recvfrom datagram d.buffer with ⟨_ | _ | count, filled⟩
  · exact ⟨rfl, rfl⟩
  · exact ⟨rfl, rfl⟩
  · exact ⟨rfl, rfl⟩

/-- No message that starts like a broadcast is an announcement. -/
theorem hostnameIn_payload (deviceName : List UInt8) :
    hostnameIn ((payload deviceName).takeWhile (· ≠ 0)) = none := by
  rw [payload, broadcastPrefix, List.cons_append, List.takeWhile_cons_of_pos (by decide)]
  rfl

/-- A broadcast is recognized as an announcement of its device name, and the listener then
knows a peer of that name under its address. -/
def Discovers (ip : List UInt8) (now : ℕ) (deviceName : List UInt8) (d : Discovery) : Prop :=
  (d.receive (payload deviceName)).1.bind hostnameIn = some deviceName ∧
    ∃ peer, (listen ip now (payload deviceName) d).peer? ip = some peer ∧
      peer.hostname = deviceName

/-- No broadcast is recognized. -/
theorem receive_payload (deviceName : List UInt8) (d : Discovery) :
    (d.receive (payload deviceName)).1.bind hostnameIn = none := by
  by_cases hfits : (payload deviceName).length < d.buffer.length
  · rw [receive_of_fits hfits (List.cons_ne_nil _ _), Option.bind_some, hostnameIn_payload]
  · have hlength : (payload deviceName).length = deviceName.length + 7 := by
      simp [payload, broadcastPrefix]
    rw [receive, recvfrom, if_neg (by omega)]
    rfl

/-- Whatever its device name, no instance is discovered through its broadcasts: they change
neither the peers that a listener knows nor what it has reported. -/
theorem not_discovers (ip : List UInt8) (now : ℕ) (deviceName : List UInt8) (d : Discovery) :
    ¬ Discovers ip now deviceName d ∧
      (listen ip now (payload deviceName) d).activePeers = d.activePeers ∧
      (listen ip now (payload deviceName) d).found = d.found := by
  have hnone := receive_payload deviceName d
  constructor
  · rintro ⟨hheard, -⟩
    rw [hnone] at hheard
    cases hheard
  · have hlisten : listen ip now (payload deviceName) d = (d.receive (payload deviceName)).2 := by
      rw [listen]
      dsimp only
      rw [hnone]
    rw [hlisten]
    exact receive_activePeers _ _

/-- A new listener does not hear of an instance named `PC`. -/
theorem pc_not_discovered :
    0 ∉ ([80, 67] : List UInt8) ∧ ([80, 67] : List UInt8).length ≤ 1016 ∧
      ¬ Discovers [49] 0 [80, 67] {} := by
  refine ⟨by decide, by decide, ?_⟩
  rintro ⟨hheard, -⟩
  revert hheard
  decide +kernel

end Discovery

end Sxaint.Net
