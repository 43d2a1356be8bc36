/-
# The public address

`stunClient::getPublicEndpoint` asks a server for the address that this machine has on the outside
and walks over the attributes of the answer. The walk lays the attributes end to end, where the
format pads them, and looks at the first byte of an attribute only before it reads the header and
the value.
-/

import Sxaint.Bytes.Records
import Sxaint.Core.Crypto
import Mathlib.Logic.Function.Iterate

namespace Sxaint.Net

open Sxaint.Core Records

structure PublicEndpoint where
  ip : List UInt8 := []
  port : UInt16 := 0
  success : Bool := false
  deriving DecidableEq, Repr

namespace StunClient

/-! ## The code -/

/-- The size of `stunResp`. -/
def responseSize : ℕ :=
  1024

/-- A binding request with the magic cookie, no attributes and a transaction id of zeros. -/
def stunReq : List UInt8 :=
  [0x00, 0x01, 0, 0, 0x21, 0x12, 0xA4, 0x42] ++ List.replicate 12 0

/-- What `recvfrom` has stored. Longer datagrams are an error of the call. -/
structure Datagram where
  bytes : List UInt8
  fits : bytes.length ≤ responseSize

/-- The zeros of `stunResp` behind the datagram. -/
def Datagram.slack (datagram : Datagram) : List UInt8 :=
  List.replicate (responseSize - datagram.bytes.length) 0

def Datagram.stunResp (datagram : Datagram) : List UInt8 :=
  datagram.bytes ++ datagram.slack

/-- The types of `MAPPED-ADDRESS` and `XOR-MAPPED-ADDRESS`. -/
def IsAddress (attrType : UInt16) : Prop :=
  attrType = 0x0001 ∨ attrType = 0x0020

instance (attrType : UInt16) : Decidable (IsAddress attrType) :=
  inferInstanceAs (Decidable (_ ∨ _))

/-- One of the four numbers of an address, as text. -/
def octet (ip shift : UInt32) : List UInt8 :=
  Crypto.toDecimal ((ip >>> shift) &&& 0xFF).toNat

/-- The text of an address. -/
def dotted (ip : UInt32) : List UInt8 :=
  octet ip 24 ++ 0x2E :: octet ip 16 ++ 0x2E :: octet ip 8 ++ 0x2E :: octet ip 0

/-- The endpoint of an address attribute with these bytes in its value. -/
def endpointOf (attrType port : UInt16) (ip : UInt32) : PublicEndpoint :=
  let port := if attrType = 0x0020 then port ^^^ 0x2112 else port
  let ip := if attrType = 0x0020 then ip ^^^ 0x2112A442 else ip
  { ip := dotted ip, port := port, success := true }

/-- The loop over the attributes. -/
structure AttributeLoop where
  i : ℕ := 20
  endpoint : PublicEndpoint := {}
  /-- Left by `break`. -/
  broken : Bool := false
  /-- The indices at which `stunResp` was read. -/
  reads : List ℕ := []
  /-- Read outside of `stunResp`; nothing is known of what follows. -/
  fault : Bool := false
  deriving DecidableEq, Repr

/-- The loop has ended for a number of received bytes. -/
def AttributeLoop.Ended (loop : AttributeLoop) (bytes : ℕ) : Prop :=
  loop.broken = true ∨ loop.fault = true ∨ bytes ≤ loop.i

instance (loop : AttributeLoop) (bytes : ℕ) : Decidable (loop.Ended bytes) :=
  inferInstanceAs (Decidable (_ ∨ _))

/-- One round of the loop, if it has not ended. -/
def round (datagram : Datagram) (loop : AttributeLoop) : AttributeLoop :=
  if loop.Ended datagram.bytes.length then loop
  else
    let i := loop.i
    let loop := { loop with reads := loop.reads ++ [i, i + 1, i + 2, i + 3] }
    match datagram.stunResp.drop i with
    | t₁ :: t₀ :: l₁ :: l₀ :: value =>
      let attrType := word t₁ t₀
      let attrLen := word l₁ l₀
      if IsAddress attrType then
        -- the family in the second byte of the value is not looked at
        let loop :=
          { loop with reads := loop.reads ++ [i + 6, i + 7, i + 8, i + 9, i + 10, i + 11] }
        match value with
        | _ :: _ :: p₁ :: p₀ :: a :: b :: c :: d :: _ =>
          { loop with
            endpoint := endpointOf attrType (word p₁ p₀) (doubleWord a b c d)
            broken := true }
        | _ => { loop with fault := true }
      else { loop with i := i + (4 + attrLen.toNat) }
    | _ => { loop with fault := true }

/-- The loop after a number of rounds. -/
def after (datagram : Datagram) (rounds : ℕ) : AttributeLoop :=
  (round datagram)^[rounds] {}

/-- What the system answers to the calls. -/
structure Winsock where
  wsaStartup : Bool
  socket : Bool
  getaddrinfo : Bool
  recvfrom : List UInt8 → Option Datagram

/-- The endpoint that is made of a datagram; nothing after a read outside of `stunResp`. There are
no more rounds than bytes. -/
def parse (datagram : Datagram) : Option PublicEndpoint :=
  if 20 < datagram.bytes.length then
    let loop := after datagram datagram.bytes.length
    if loop.fault then none else some loop.endpoint
  else some {}

def getPublicEndpoint (system : Winsock) : Option PublicEndpoint :=
  if !system.wsaStartup then some {}
  else if !system.socket then some {}
  else if !system.getaddrinfo then some {}
  else
    match system.recvfrom stunReq with
    | none => some {}
    | some datagram => parse datagram

/-! ## The rounds -/

/-- The endpoint of an address attribute that stands in front. -/
def addressAt : List UInt8 → Option PublicEndpoint
  | t₁ :: t₀ :: _ :: _ :: _ :: _ :: p₁ :: p₀ :: a :: b :: c :: d :: _ =>
    if IsAddress (word t₁ t₀) then
      some (endpointOf (word t₁ t₀) (word p₁ p₀) (doubleWord a b c d))
    else none
  | _ => none

section Rounds

variable {datagram : Datagram} {loop : AttributeLoop}

/-- The bytes of the datagram that the loop has not passed. -/
def Datagram.rest (datagram : Datagram) (loop : AttributeLoop) : List UInt8 :=
  datagram.bytes.drop loop.i

/-- The loop has neither found an address nor read outside of the buffer. -/
structure AttributeLoop.Searching (loop : AttributeLoop) : Prop where
  broken : loop.broken = false
  fault : loop.fault = false
  endpoint : loop.endpoint = {}

/-- What a round does in front of the bytes that are left in the buffer. -/
inductive Round (loop : AttributeLoop) : List UInt8 → AttributeLoop → Prop
  | /-- No whole header is left. -/
    short {buffer : List UInt8} (short : buffer.length < 4) :
      Round loop buffer
        { loop with
          reads := loop.reads ++ [loop.i, loop.i + 1, loop.i + 2, loop.i + 3]
          fault := true }
  | /-- The header of an address, without eight bytes behind it. -/
    cut {t₁ t₀ l₁ l₀ : UInt8} {value : List UInt8} (address : IsAddress (word t₁ t₀))
      (short : value.length < 8) :
      Round loop (t₁ :: t₀ :: l₁ :: l₀ :: value)
        { loop with
          reads := loop.reads ++ [loop.i, loop.i + 1, loop.i + 2, loop.i + 3] ++
            [loop.i + 6, loop.i + 7, loop.i + 8, loop.i + 9, loop.i + 10, loop.i + 11]
          fault := true }
  | /-- An address. -/
    found {t₁ t₀ l₁ l₀ : UInt8} {value : List UInt8} {endpoint : PublicEndpoint}
      (address : IsAddress (word t₁ t₀))
      (decoded : addressAt (t₁ :: t₀ :: l₁ :: l₀ :: value) = some endpoint) :
      Round loop (t₁ :: t₀ :: l₁ :: l₀ :: value)
        { loop with
          reads := loop.reads ++ [loop.i, loop.i + 1, loop.i + 2, loop.i + 3] ++
            [loop.i + 6, loop.i + 7, loop.i + 8, loop.i + 9, loop.i + 10, loop.i + 11]
          endpoint := endpoint
          broken := true }
  | /-- Another attribute. -/
    passed {t₁ t₀ l₁ l₀ : UInt8} {value : List UInt8} (other : ¬ IsAddress (word t₁ t₀)) :
      Round loop (t₁ :: t₀ :: l₁ :: l₀ :: value)
        { loop with
          reads := loop.reads ++ [loop.i, loop.i + 1, loop.i + 2, loop.i + 3]
          i := loop.i + (4 + (word l₁ l₀).toNat) }

theorem round_of_ended (ended : loop.Ended datagram.bytes.length) : round datagram loop = loop :=
  if_pos ended

/-- What has ended stays as it is. -/
theorem iterate_of_ended (ended : loop.Ended datagram.bytes.length) (rounds : ℕ) :
    (round datagram)^[rounds] loop = loop :=
  Function.iterate_fixed (round_of_ended ended) rounds

theorem exists_four {bytes : List UInt8} (long : 4 ≤ bytes.length) :
    ∃ a b c d rest, bytes = a :: b :: c :: d :: rest := by
  rcases bytes with _ | ⟨_, _ | ⟨_, _ | ⟨_, _ | ⟨_, _⟩⟩⟩⟩
  · exact absurd long (by simp)
  · exact absurd long (by simp)
  · exact absurd long (by simp)
  · exact absurd long (by simp)
  · exact ⟨_, _, _, _, _, rfl⟩

theorem round_cases (running : ¬ loop.Ended datagram.bytes.length) :
    Round loop (datagram.rest loop ++ datagram.slack) (round datagram loop) := by
  have hinside : loop.i ≤ datagram.bytes.length :=
    Nat.le_of_not_le fun h => running (.inr (.inr h))
  have hbuffer : datagram.stunResp.drop loop.i = datagram.rest loop ++ datagram.slack :=
    List.drop_append_of_le_length hinside
  rw [round, if_neg running, ← hbuffer]
  simp only
  split
  · rename_i t₁ t₀ l₁ l₀ value heq
    rw [heq]
    split
    · rename_i haddress
      split
      · rename_i p₁ p₀ a b c d _
        exact .found haddress (by rw [addressAt, if_pos haddress])
      · rename_i hnone
        refine .cut haddress (Nat.lt_of_not_le fun hlong => ?_)
        obtain ⟨_, _, _, _, more, rfl⟩ := exists_four (Nat.le_trans (by decide) hlong)
        obtain ⟨_, _, _, _, _, rfl⟩ := @exists_four more (by simpa using hlong)
        exact hnone _ _ _ _ _ _ _ _ _ rfl
    · rename_i hother
      exact .passed hother
  · rename_i hnone
    refine .short (Nat.lt_of_not_le fun hlong => ?_)
    obtain ⟨_, _, _, _, _, hbytes⟩ := exists_four hlong
    exact hnone _ _ _ _ _ hbytes

/-- Each round goes on by a header at least, so there are no more of them than bytes. -/
theorem ended_iterate {rounds : ℕ} (enough : datagram.bytes.length ≤ loop.i + rounds) :
    ((round datagram)^[rounds] loop).Ended datagram.bytes.length := by
  induction rounds generalizing loop with
  | zero => exact .inr (.inr enough)
  | succ rounds ih =>
      by_cases hended : loop.Ended datagram.bytes.length
      · rwa [iterate_of_ended hended]
      rw [Function.iterate_succ_apply]
      have hround := round_cases hended
      generalize datagram.rest loop ++ datagram.slack = buffer at hround
      generalize round datagram loop = next at hround ⊢
      cases hround with
      | short _ | cut _ _ =>
          rw [iterate_of_ended (.inr (.inl rfl))]
          exact .inr (.inl rfl)
      | found _ _ =>
          rw [iterate_of_ended (.inl rfl)]
          exact .inl rfl
      | passed _ =>
          apply ih
          change _ ≤ loop.i + (4 + _) + rounds
          omega

/-- A header in the buffer begins with what is left of the datagram. -/
theorem rest_of_header {t₁ t₀ l₁ l₀ : UInt8} {rest slack value : List UInt8}
    (header : rest ++ slack = t₁ :: t₀ :: l₁ :: l₀ :: value) :
    rest.length < 4 ∨ ∃ left, rest = t₁ :: t₀ :: l₁ :: l₀ :: left ∧ left ++ slack = value := by
  rcases Nat.lt_or_ge rest.length 4 with hshort | hlong
  · exact .inl hshort
  · obtain ⟨_, _, _, _, left, rfl⟩ := exists_four hlong
    simp only [List.cons_append, List.cons.injEq] at header
    obtain ⟨rfl, rfl, rfl, rfl, rfl⟩ := header
    exact .inr ⟨left, rfl, rfl⟩

theorem length_rest : (datagram.rest loop).length = datagram.bytes.length - loop.i :=
  List.length_drop

/-- Behind an attribute that is not an address the loop is at the rest behind its value. -/
theorem rest_passed {t₁ t₀ l₁ l₀ : UInt8} {left : List UInt8} {next : AttributeLoop}
    (header : datagram.rest loop = t₁ :: t₀ :: l₁ :: l₀ :: left)
    (passed : next.i = loop.i + (4 + (word l₁ l₀).toNat)) :
    datagram.rest next = left.drop (word l₁ l₀).toNat := by
  rw [Datagram.rest, passed, ← List.drop_drop, ← Datagram.rest, header]
  simp [Nat.add_comm 4]

theorem AttributeLoop.Searching.running (searching : loop.Searching)
    (inside : loop.i < datagram.bytes.length) : ¬ loop.Ended datagram.bytes.length := by
  rintro (hbroken | hfault | hend)
  · exact absurd hbroken (by simp [searching.broken])
  · exact absurd hfault (by simp [searching.fault])
  · omega

theorem rest_ne_nil (inside : loop.i < datagram.bytes.length) : datagram.rest loop ≠ [] := by
  apply List.ne_nil_of_length_pos
  rw [length_rest]
  omega

variable (datagram) in
/-- The induction along the datagram: something holds in front of an attribute if it does wherever
the loop can be behind it. -/
theorem AttributeLoop.Searching.induct {motive : AttributeLoop → Prop}
    (done : ∀ loop, loop.Searching → datagram.bytes.length ≤ loop.i → motive loop)
    (step : ∀ loop, loop.Searching → loop.i < datagram.bytes.length →
      (∀ next, next.Searching → loop.i < next.i → motive next) → motive loop)
    (searching : loop.Searching) : motive loop := by
  induction hleft : datagram.bytes.length - loop.i using Nat.strong_induction_on
    generalizing loop with
  | _ left ih =>
      rcases Nat.lt_or_ge loop.i datagram.bytes.length with inside | ended
      · refine step loop searching inside fun next hnext hlt => ?_
        exact ih (datagram.bytes.length - next.i) (by omega) hnext rfl
      · exact done loop searching ended

end Rounds

/-- Success is reported from an answer to the request only. -/
theorem getPublicEndpoint_eq_some_iff {system : Winsock} {endpoint : PublicEndpoint}
    (success : endpoint.success = true) :
    getPublicEndpoint system = some endpoint ↔
      (system.wsaStartup = true ∧ system.socket = true ∧ system.getaddrinfo = true) ∧
        ∃ datagram, system.recvfrom stunReq = some datagram ∧ parse datagram = some endpoint := by
  have hnone : some ({} : PublicEndpoint) ≠ some endpoint := by
    rintro ⟨⟩
    cases success
  rw [getPublicEndpoint]
  split
  · rename_i hstartup
    exact iff_of_false hnone fun h => by simp [h.1.1] at hstartup
  split
  · rename_i hsocket
    exact iff_of_false hnone fun h => by simp [h.1.2.1] at hsocket
  split
  · rename_i hresolved
    exact iff_of_false hnone fun h => by simp [h.1.2.2] at hresolved
  rename_i hstartup hsocket hresolved
  have hcalls : system.wsaStartup = true ∧ system.socket = true ∧ system.getaddrinfo = true := by
    simpa using And.intro hstartup (And.intro hsocket hresolved)
  rw [and_iff_right hcalls]
  split
  · rename_i hreceived
    refine iff_of_false hnone ?_
    rintro ⟨datagram, hdatagram, -⟩
    rw [hreceived] at hdatagram
    cases hdatagram
  · rename_i datagram hreceived
    simp [hreceived]

/-! ## Reading inside the datagram -/

section Inside

variable {datagram : Datagram} {loop : AttributeLoop}

/-- Nothing was read behind the datagram, and no address was taken from there. -/
structure Sound (datagram : Datagram) (loop : AttributeLoop) : Prop where
  reads : ∀ index ∈ loop.reads, index < datagram.bytes.length
  success : loop.endpoint.success = true → loop.i + 11 < datagram.bytes.length

/-- The loop ends, and is sound all the time. -/
structure Safe (datagram : Datagram) : Prop where
  terminates : ∃ rounds, (after datagram rounds).Ended datagram.bytes.length
  sound : ∀ rounds, Sound datagram (after datagram rounds)

/-- Nothing is left, or a whole header, and eight bytes behind it if it is that of an address. -/
def Whole (bytes : List UInt8) : Prop :=
  bytes = [] ∨ ∃ t₁ t₀ l₁ l₀ value, bytes = t₁ :: t₀ :: l₁ :: l₀ :: value ∧
    (IsAddress (word t₁ t₀) → 8 ≤ value.length)

theorem whole_header_iff {t₁ t₀ l₁ l₀ : UInt8} {value : List UInt8} :
    Whole (t₁ :: t₀ :: l₁ :: l₀ :: value) ↔ (IsAddress (word t₁ t₀) → 8 ≤ value.length) := by
  constructor
  · rintro (hnil | ⟨_, _, _, _, _, heq, hvalue⟩)
    · cases hnil
    · cases heq
      exact hvalue
  · exact fun hvalue => .inr ⟨_, _, _, _, _, rfl, hvalue⟩

theorem four_le_of_whole {bytes : List UInt8} (whole : Whole bytes) (nonempty : bytes ≠ []) :
    4 ≤ bytes.length := by
  rcases whole with hnil | ⟨_, _, _, _, _, rfl, -⟩
  · exact (nonempty hnil).elim
  · simp

theorem whole_iff_of_header {t₁ t₀ l₁ l₀ : UInt8} {rest slack value : List UInt8}
    (header : rest ++ slack = t₁ :: t₀ :: l₁ :: l₀ :: value) (nonempty : rest ≠ []) :
    Whole rest ↔ 4 ≤ rest.length ∧ (IsAddress (word t₁ t₀) → 12 ≤ rest.length) := by
  rcases rest_of_header header with hshort | ⟨left, rfl, -⟩
  · refine iff_of_false (fun whole => ?_) (fun h => ?_)
    · exact Nat.not_le_of_lt hshort (four_le_of_whole whole nonempty)
    · exact Nat.not_le_of_lt hshort h.1
  · simp [whole_header_iff]

/-- A round is sound exactly if the attribute at which the loop is, is whole. -/
theorem sound_round_iff (searching : loop.Searching) (inside : loop.i < datagram.bytes.length)
    (sound : Sound datagram loop) :
    Sound datagram (round datagram loop) ↔ Whole (datagram.rest loop) := by
  have hlength := @length_rest datagram loop
  have hnonempty := rest_ne_nil inside
  have hround := round_cases (searching.running inside)
  generalize hbuffer : datagram.rest loop ++ datagram.slack = buffer at hround
  generalize round datagram loop = next at hround ⊢
  have hle : (datagram.rest loop).length ≤ buffer.length := by
    rw [← hbuffer, List.length_append]
    omega
  cases hround with
  | short hshort =>
      refine iff_of_false (fun sound => ?_) (fun whole => ?_)
      · have hread := sound.reads (loop.i + 3) (by simp)
        omega
      · have hfour := four_le_of_whole whole hnonempty
        omega
  | cut haddress hshort =>
      rw [whole_iff_of_header hbuffer hnonempty]
      simp only [List.length_cons] at hle
      refine iff_of_false (fun sound => ?_) (fun whole => ?_)
      · have hread := sound.reads (loop.i + 11) (by simp)
        omega
      · have htwelve := whole.2 haddress
        omega
  | found haddress _ =>
      rw [whole_iff_of_header hbuffer hnonempty]
      constructor
      · intro sound
        have hread := sound.reads (loop.i + 11) (by simp)
        omega
      · intro whole
        have htwelve := whole.2 haddress
        refine ⟨fun index hmem => ?_, fun _ => by simp only; omega⟩
        rcases List.mem_append.mp hmem with hmem | hvalue
        · rcases List.mem_append.mp hmem with hold | hheader
          · exact sound.reads index hold
          · simp at hheader
            omega
        · simp at hvalue
          omega
  | passed hother =>
      rw [whole_iff_of_header hbuffer hnonempty]
      constructor
      · intro sound
        have hread := sound.reads (loop.i + 3) (by simp)
        exact ⟨by omega, fun address => (hother address).elim⟩
      · intro whole
        have hfour := whole.1
        refine ⟨fun index hmem => ?_, fun hsuccess => ?_⟩
        · rcases List.mem_append.mp hmem with hold | hheader
          · exact sound.reads index hold
          · simp at hheader
            omega
        · rw [searching.endpoint] at hsuccess
          cases hsuccess

/-- From where the loop is, it stays sound exactly if it comes to whole attributes only. -/
theorem sound_iterate_iff (searching : loop.Searching) (sound : Sound datagram loop) :
    (∀ rounds, Sound datagram ((round datagram)^[rounds] loop)) ↔
      ∀ there, Reaches IsAddress (datagram.rest loop) there → Whole there := by
  revert sound
  refine AttributeLoop.Searching.induct datagram (motive := fun loop => Sound datagram loop →
    ((∀ rounds, Sound datagram ((round datagram)^[rounds] loop)) ↔
      ∀ there, Reaches IsAddress (datagram.rest loop) there → Whole there)) ?_ ?_ searching
  · intro loop _ done sound
    refine iff_of_true (fun rounds => ?_) fun there reaches => ?_
    · rwa [iterate_of_ended (.inr (.inr done))]
    · rw [Datagram.rest, List.drop_eq_nil_of_le done] at reaches
      exact .inl (reaches.eq_of_short (by simp))
  intro loop searching inside ih sound
  have hwhole := sound_round_iff searching inside sound
  by_cases whole : Whole (datagram.rest loop)
  swap
  · exact iff_of_false (fun h => whole (hwhole.mp (h 1))) (fun h => whole (h _ (.here _)))
  have hnext := hwhole.mpr whole
  have hfour := four_le_of_whole whole (rest_ne_nil inside)
  have hround := round_cases (searching.running inside)
  have hshift : (∀ rounds, Sound datagram ((round datagram)^[rounds] loop)) ↔
      ∀ rounds, Sound datagram ((round datagram)^[rounds] (round datagram loop)) := by
    constructor
    · exact fun h rounds => h (rounds + 1)
    · rintro h (_ | rounds)
      · exact sound
      · exact h rounds
  rw [hshift]
  generalize hbuffer : datagram.rest loop ++ datagram.slack = buffer at hround
  generalize round datagram loop = next at hround hnext ⊢
  have hle : (datagram.rest loop).length ≤ buffer.length := by
    rw [← hbuffer, List.length_append]
    omega
  cases hround with
  | short hshort => omega
  | cut haddress hshort =>
      have htwelve := ((whole_iff_of_header hbuffer (rest_ne_nil inside)).mp whole).2 haddress
      simp only [List.length_cons] at hle
      omega
  | found haddress _ =>
      obtain ⟨left, hrest, -⟩ := (rest_of_header hbuffer).resolve_left (by omega)
      refine iff_of_true (fun rounds => ?_) fun there reaches => ?_
      · rwa [iterate_of_ended (.inl rfl)]
      · rw [hrest, reaches_of_stop haddress, ← hrest] at reaches
        rwa [reaches]
  | passed hother =>
      obtain ⟨left, hrest, -⟩ := (rest_of_header hbuffer).resolve_left (by omega)
      refine (ih _ ?_ ?_ hnext).trans ?_
      · exact ⟨searching.broken, searching.fault, searching.endpoint⟩
      · simp only
        omega
      rw [rest_passed hrest rfl]
      constructor
      · intro h there reaches
        rw [hrest, reaches_of_other hother, ← hrest] at reaches
        rcases reaches with rfl | further
        · exact whole
        · exact h there further
      · intro h there further
        apply h
        rw [hrest]
        exact .past hother further

/-- The loop reads inside the datagram exactly if all attributes that it comes to are whole. -/
theorem safe_iff (datagram : Datagram) :
    Safe datagram ↔ ∀ there, Reaches IsAddress (datagram.bytes.drop 20) there → Whole there := by
  have hsound : Sound datagram {} := ⟨by rintro _ ⟨⟩, by rintro ⟨⟩⟩
  have hiff := sound_iterate_iff ⟨rfl, rfl, rfl⟩ hsound
  constructor
  · exact fun safe => hiff.mp safe.sound
  · exact fun h => ⟨⟨_, ended_iterate (Nat.le_add_left _ _)⟩, hiff.mpr h⟩

/-- The header of an answer, and the header of an address attribute with nothing behind it. -/
def headerOnly : Datagram where
  bytes := [0x01, 0x01, 0, 4, 0x21, 0x12, 0xA4, 0x42] ++ List.replicate 12 0 ++ [0, 1, 0, 8]
  fits := by decide

/-- The address `0.0.0.0` is taken from the zeros behind that datagram. -/
theorem not_safe_of_headerOnly :
    parse headerOnly = some { ip := "0.0.0.0".toUTF8.toList, port := 0, success := true } ∧
      ¬ ∀ datagram : Datagram, Safe datagram := by
  refine ⟨by decide +kernel, fun hall => ?_⟩
  have hsuccess := ((hall headerOnly).sound 1).success (by decide +kernel)
  revert hsuccess
  decide +kernel

end Inside

end StunClient

end Sxaint.Net
