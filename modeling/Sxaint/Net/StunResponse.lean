/-
# The public address in a well-formed answer

An answer is a header and attributes padded to multiples of four bytes. The loop of
`getPublicEndpoint` finds the first IPv4 address if no attribute in front of it is padded and none
has the type of an address. From the first one that is padded or has, it reads on as if there were
no padding and as if every address were one of IPv4, and comes to the right endpoint by chance only.
-/

import Sxaint.Net.Stun

namespace Sxaint.Net

open Sxaint.Core Records

namespace StunClient

/-! ## What the loop comes to -/

/-- Attributes laid end to end lead to the bytes of an address attribute, with some bytes behind
the last one. -/
def LeadsTo (slack bytes : List UInt8) (endpoint : PublicEndpoint) : Prop :=
  ∃ there, Reaches IsAddress bytes there ∧ there ≠ [] ∧ addressAt (there ++ slack) = some endpoint

section Leading

variable {slack : List UInt8} {endpoint : PublicEndpoint}

theorem not_leadsTo_nil : ¬ LeadsTo slack [] endpoint := by
  rintro ⟨there, reaches, nonempty, -⟩
  exact nonempty (reaches.eq_of_short (by simp))

/-- No header or one of an address is as far as it leads. -/
theorem leadsTo_iff_of_stop {bytes : List UInt8} (nonempty : bytes ≠ [])
    (stop : ∀ there, Reaches IsAddress bytes there → there = bytes) :
    LeadsTo slack bytes endpoint ↔ addressAt (bytes ++ slack) = some endpoint := by
  constructor
  · rintro ⟨there, reaches, -, found⟩
    rwa [stop there reaches] at found
  · exact fun found => ⟨bytes, .here _, nonempty, found⟩

theorem length_of_addressAt {bytes : List UInt8} (found : addressAt bytes = some endpoint) :
    12 ≤ bytes.length := by
  rw [addressAt.eq_def] at found
  split at found
  · simp
  · cases found

theorem addressAt_of_other {t₁ t₀ l₁ l₀ : UInt8} {value : List UInt8}
    (other : ¬ IsAddress (word t₁ t₀)) : addressAt (t₁ :: t₀ :: l₁ :: l₀ :: value) = none := by
  rw [addressAt.eq_def]
  split
  · rename_i heq
    cases heq
    exact if_neg other
  · rfl

theorem leadsTo_iff_of_other {t₁ t₀ l₁ l₀ : UInt8} {value : List UInt8}
    (other : ¬ IsAddress (word t₁ t₀)) :
    LeadsTo slack (t₁ :: t₀ :: l₁ :: l₀ :: value) endpoint ↔
      LeadsTo slack (value.drop (word l₁ l₀).toNat) endpoint := by
  constructor
  · rintro ⟨there, reaches, nonempty, found⟩
    rcases (reaches_of_other other).mp reaches with rfl | further
    · simp only [List.cons_append, addressAt_of_other other] at found
      cases found
    · exact ⟨there, further, nonempty, found⟩
  · rintro ⟨there, further, nonempty, found⟩
    exact ⟨there, .past other further, nonempty, found⟩

/-- Where an address attribute begins, nothing else is led to. -/
theorem eq_of_reaches_of_address {t₁ t₀ l₁ l₀ : UInt8} {rest value there : List UInt8}
    (header : rest ++ slack = t₁ :: t₀ :: l₁ :: l₀ :: value) (address : IsAddress (word t₁ t₀))
    (reaches : Reaches IsAddress rest there) : there = rest := by
  rcases rest_of_header header with hshort | ⟨left, rfl, -⟩
  · exact reaches.eq_of_short hshort
  · exact (reaches_of_stop address).mp reaches

end Leading

/-- The loop ends with an endpoint exactly if the attributes lead to it. -/
theorem endpoint_iterate_iff {datagram : Datagram} {loop : AttributeLoop}
    {endpoint : PublicEndpoint} {fuel : ℕ} (searching : loop.Searching)
    (success : endpoint.success = true) (enough : datagram.bytes.length ≤ loop.i + fuel) :
    (((round datagram)^[fuel] loop).fault = false ∧
        ((round datagram)^[fuel] loop).endpoint = endpoint) ↔
      LeadsTo datagram.slack (datagram.rest loop) endpoint := by
  revert fuel
  refine AttributeLoop.Searching.induct datagram (motive := fun loop => ∀ {fuel : ℕ},
    datagram.bytes.length ≤ loop.i + fuel →
    ((((round datagram)^[fuel] loop).fault = false ∧
        ((round datagram)^[fuel] loop).endpoint = endpoint) ↔
      LeadsTo datagram.slack (datagram.rest loop) endpoint)) ?_ ?_ searching
  · intro loop searching done fuel _
    rw [iterate_of_ended (.inr (.inr done)), Datagram.rest, List.drop_eq_nil_of_le done]
    refine iff_of_false (fun h => ?_) not_leadsTo_nil
    rw [← h.2, searching.endpoint] at success
    cases success
  intro loop searching inside ih fuel enough
  obtain ⟨fuel, rfl⟩ := Nat.exists_eq_add_one_of_ne_zero (show fuel ≠ 0 by omega)
  have hnonempty := rest_ne_nil inside
  have hround := round_cases (searching.running inside)
  rw [Function.iterate_succ_apply]
  generalize hbuffer : datagram.rest loop ++ datagram.slack = buffer at hround
  generalize round datagram loop = next at hround ⊢
  have hle : (datagram.rest loop).length ≤ buffer.length := by
    rw [← hbuffer, List.length_append]
    omega
  cases hround with
  | short hshort =>
      rw [iterate_of_ended (.inr (.inl rfl)), leadsTo_iff_of_stop hnonempty
        fun there reaches => reaches.eq_of_short (by omega), hbuffer]
      refine iff_of_false (fun h => by cases h.1) fun found => ?_
      have htwelve := length_of_addressAt found
      omega
  | cut haddress hshort =>
      rw [iterate_of_ended (.inr (.inl rfl)), leadsTo_iff_of_stop hnonempty
        fun there => eq_of_reaches_of_address hbuffer haddress, hbuffer]
      refine iff_of_false (fun h => by cases h.1) fun found => ?_
      have htwelve := length_of_addressAt found
      simp only [List.length_cons] at htwelve
      omega
  | found haddress hdecoded =>
      rw [iterate_of_ended (.inl rfl), leadsTo_iff_of_stop hnonempty
        fun there => eq_of_reaches_of_address hbuffer haddress, hbuffer, hdecoded]
      constructor
      · exact fun h => congrArg some h.2
      · exact fun h => ⟨searching.fault, Option.some.inj h⟩
  | passed hother =>
      refine (ih _ ?_ ?_ ?_).trans ?_
      · exact ⟨searching.broken, searching.fault, searching.endpoint⟩
      · simp only
        omega
      · simp only
        omega
      rcases rest_of_header hbuffer with hshort | ⟨left, hrest, -⟩
      · rw [leadsTo_iff_of_stop hnonempty fun there reaches => reaches.eq_of_short hshort,
          hbuffer, addressAt_of_other hother, Datagram.rest, List.drop_eq_nil_of_le]
        · exact iff_of_false not_leadsTo_nil (by rintro ⟨⟩)
        · rw [length_rest] at hshort
          simp only
          omega
      · rw [rest_passed hrest rfl, hrest, leadsTo_iff_of_other hother]

theorem parse_eq_some_iff {datagram : Datagram} {endpoint : PublicEndpoint}
    (success : endpoint.success = true) :
    parse datagram = some endpoint ↔
      LeadsTo datagram.slack (datagram.bytes.drop 20) endpoint := by
  have hiff := @endpoint_iterate_iff datagram {} endpoint datagram.bytes.length ⟨rfl, rfl, rfl⟩
    success (Nat.le_add_left _ _)
  refine Iff.trans ?_ hiff
  rw [parse]
  split
  · change (if (after datagram datagram.bytes.length).fault = true then none else _) = _ ↔ _
    rw [after]
    split
    · rename_i hfault
      exact iff_of_false (by rintro ⟨⟩) fun h => by simp [h.1] at hfault
    · rename_i hfault
      rw [Bool.not_eq_true] at hfault
      rw [Option.some.injEq, and_iff_right hfault]
  · rename_i hshort
    rw [iterate_of_ended (.inr (.inr (Nat.le_of_not_lt hshort)))]
    simp

/-! ## Well-formed answers -/

/-- An attribute encodes an IPv4 address and a port, as they are or under the cookie. The first
byte of the value is reserved and the second one is the family. -/
def Encodes (attr : PaddedRecord) (ip : UInt32) (port : UInt16) : Prop :=
  ∃ reserved : UInt8,
    attr.type = 0x0001 ∧
        attr.value = reserved :: 0x01 :: (wordBytes port ++ doubleWordBytes ip) ∨
      attr.type = 0x0020 ∧
        attr.value = reserved :: 0x01 ::
          (wordBytes (port ^^^ 0x2112) ++ doubleWordBytes (ip ^^^ 0x2112A442))

/-- A well-formed answer with an IPv4 address, cut at the first one. -/
structure Response where
  header : List UInt8
  before : List PaddedRecord
  address : PaddedRecord
  behind : List PaddedRecord
  ip : UInt32
  port : UInt16
  headed : header.length = 20
  encodes : Encodes address ip port
  first : ∀ attr ∈ before, ∀ ip port, ¬ Encodes attr ip port
  fits : (header ++ PaddedRecord.encodeAll (before ++ address :: behind)).length ≤ responseSize

namespace Response

def datagram (response : Response) : Datagram where
  bytes := response.header ++
    PaddedRecord.encodeAll (response.before ++ response.address :: response.behind)
  fits := response.fits

/-- The endpoint of the first address. -/
def endpoint (response : Response) : PublicEndpoint :=
  { ip := dotted response.ip, port := response.port, success := true }

end Response

/-- An attribute that is passed as the format has it: of another type, and with no padding. -/
def Regular (attr : PaddedRecord) : Prop :=
  ¬ IsAddress attr.type ∧ attr.value.length % 4 = 0

section Attributes

variable {slack rest : List UInt8} {attr : PaddedRecord} {endpoint : PublicEndpoint}

theorem leadsTo_encode_of_regular (regular : Regular attr) :
    LeadsTo slack (attr.encode ++ rest) endpoint ↔ LeadsTo slack rest endpoint := by
  rw [PaddedRecord.encode_append, leadsTo_iff_of_other (by rw [word_wordBytes]; exact regular.1),
    word_wordBytes, UInt16.toNat_ofNat', Nat.mod_eq_of_lt attr.fits, List.drop_left,
    attr.padding_eq_nil_iff.mpr regular.2, List.nil_append]

theorem leadsTo_encodeAll_of_regular {front : List PaddedRecord}
    (regular : ∀ attr ∈ front, Regular attr) :
    LeadsTo slack (PaddedRecord.encodeAll front ++ rest) endpoint ↔
      LeadsTo slack rest endpoint := by
  induction front with
  | nil => rfl
  | cons attr front ih =>
      rw [PaddedRecord.encodeAll, List.flatMap_cons, List.append_assoc,
        leadsTo_encode_of_regular (regular attr List.mem_cons_self)]
      exact ih fun other hmem => regular other (List.mem_cons_of_mem _ hmem)

/-- What is encoded is decoded. -/
theorem addressAt_encode {ip : UInt32} {port : UInt16} (encodes : Encodes attr ip port) :
    addressAt (attr.encode ++ rest) =
      some { ip := dotted ip, port := port, success := true } := by
  rw [PaddedRecord.encode_append]
  obtain ⟨reserved, ⟨htype, hvalue⟩ | ⟨htype, hvalue⟩⟩ := encodes
  · simp only [hvalue, wordBytes, doubleWordBytes, List.cons_append, List.nil_append, addressAt,
      word_wordBytes, doubleWord_doubleWordBytes, htype]
    rw [if_pos (.inl rfl)]
    rfl
  · simp only [hvalue, wordBytes, doubleWordBytes, List.cons_append, List.nil_append, addressAt,
      word_wordBytes, doubleWord_doubleWordBytes, htype]
    rw [if_pos (.inr rfl), endpointOf]
    simp only [reduceIte, UInt16.xor_assoc, UInt16.xor_self, UInt16.xor_zero, UInt32.xor_assoc,
      UInt32.xor_self, UInt32.xor_zero]

/-- An address that is come to in its place is found. -/
theorem leadsTo_encode_of_encodes {ip : UInt32} {port : UInt16}
    (encodes : Encodes attr ip port) :
    LeadsTo slack (attr.encode ++ rest) { ip := dotted ip, port := port, success := true } := by
  refine ⟨_, .here _, ?_, ?_⟩
  · rw [PaddedRecord.encode_append]
    exact List.cons_ne_nil _ _
  · rw [List.append_assoc, addressAt_encode encodes]

theorem exists_first_irregular {attrs : List PaddedRecord}
    (irregular : ¬ ∀ attr ∈ attrs, Regular attr) :
    ∃ front attr back, attrs = front ++ attr :: back ∧ (∀ other ∈ front, Regular other) ∧
      ¬ Regular attr := by
  induction attrs with
  | nil => exact (irregular (by rintro _ ⟨⟩)).elim
  | cons attr attrs ih =>
      by_cases hregular : Regular attr
      · obtain ⟨front, other, back, rfl, hfront, hother⟩ :=
          ih fun h => irregular (List.forall_mem_cons.mpr ⟨hregular, h⟩)
        exact ⟨attr :: front, other, back, rfl, List.forall_mem_cons.mpr ⟨hregular, hfront⟩, hother⟩
      · exact ⟨[], attr, attrs, rfl, by rintro _ ⟨⟩, hregular⟩

end Attributes

/-- The first IPv4 address of an answer is reported exactly if no attribute in front of it is padded
or of an address type, or if the first one that is leads to the same endpoint by chance, when it is
read on without padding. -/
theorem reports_iff (response : Response) :
    parse response.datagram = some response.endpoint ↔
      (∀ attr ∈ response.before, Regular attr) ∨
        ∃ front attr back, response.before = front ++ attr :: back ∧
          (∀ other ∈ front, Regular other) ∧ ¬ Regular attr ∧
          LeadsTo response.datagram.slack
            (PaddedRecord.encodeAll (attr :: back ++ response.address :: response.behind))
            response.endpoint := by
  have hbytes : response.datagram.bytes.drop 20 =
      PaddedRecord.encodeAll (response.before ++ response.address :: response.behind) := by
    rw [← response.headed]
    exact List.drop_left
  -- the attributes that are regular are passed
  have hpassed {front tail : List PaddedRecord} (hbefore : response.before = front ++ tail)
      (regular : ∀ attr ∈ front, Regular attr) :
      parse response.datagram = some response.endpoint ↔
        LeadsTo response.datagram.slack
          (PaddedRecord.encodeAll (tail ++ response.address :: response.behind))
          response.endpoint := by
    rw [parse_eq_some_iff rfl, hbytes, hbefore, List.append_assoc, PaddedRecord.encodeAll,
      List.flatMap_append]
    exact leadsTo_encodeAll_of_regular regular
  have hregular (regular : ∀ attr ∈ response.before, Regular attr) :
      parse response.datagram = some response.endpoint :=
    (hpassed (List.append_nil _).symm regular).mpr (leadsTo_encode_of_encodes response.encodes)
  constructor
  · intro hparse
    by_cases hall : ∀ attr ∈ response.before, Regular attr
    · exact .inl hall
    · obtain ⟨front, attr, back, hbefore, hfront, hattr⟩ := exists_first_irregular hall
      exact .inr ⟨front, attr, back, hbefore, hfront, hattr, (hpassed hbefore hfront).mp hparse⟩
  · rintro (hall | ⟨front, attr, back, hbefore, hfront, -, leads⟩)
    · exact hregular hall
    · exact (hpassed hbefore hfront).mpr leads

/-- An answer that names its software in five bytes in front of the address 203.0.113.5:40000. -/
def softwareFirst : Response where
  header := [0x01, 0x01, 0, 24, 0x21, 0x12, 0xA4, 0x42] ++ List.replicate 12 0
  before :=
    [{ type := 0x8022, value := [0x73, 0x74, 0x75, 0x6E, 0x64], padding := [0, 0, 0]
       fits := by decide, padded := by decide, short := by decide }]
  address :=
    { type := 0x0020, value := [0, 1, 0xBD, 0x52, 0xEA, 0x12, 0xD5, 0x47], padding := []
      fits := by decide, padded := by decide, short := by decide }
  behind := []
  ip := 0xCB007105
  port := 40000
  headed := by decide
  encodes := ⟨0, .inr ⟨rfl, by decide⟩⟩
  first := by
    rintro attr hmem ip port ⟨_, ⟨htype, -⟩ | ⟨htype, -⟩⟩
    · rw [List.mem_singleton.mp hmem] at htype
      revert htype
      decide
    · rw [List.mem_singleton.mp hmem] at htype
      revert htype
      decide
  fits := by decide

/-- No address is found in it. -/
theorem not_reports_of_softwareFirst :
    parse softwareFirst.datagram = some {} ∧
      ¬ ∀ response : Response, parse response.datagram = some response.endpoint := by
  have hparse : parse softwareFirst.datagram = some {} := by decide +kernel
  refine ⟨hparse, fun hall => ?_⟩
  have hsome := hall softwareFirst
  rw [hparse] at hsome
  revert hsome
  decide

end StunClient

end Sxaint.Net
