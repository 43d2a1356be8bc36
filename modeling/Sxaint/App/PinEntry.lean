/-
# The PIN that is entered

What `on_start_trans` does with the text of the window in the mode `Send`. The check of the PIN
counts the bytes of the text, the conversion reads a number at its beginning and takes blanks and a
sign before it and anything behind it; it throws if there is no digit. So what has six bytes goes on
with some number or throws, and what the check refuses is exactly what has another length.
-/

import Mathlib.Data.List.TakeWhile
import Sxaint.App.History
import Sxaint.Core.Unicode

namespace Sxaint.App

open ByteStream Sxaint.Core

/-! ## Strings -/

/-- `slint::SharedString`, which is text in UTF-8. -/
structure SharedString where
  bytes : List UInt8
  utf8 : (decodeUtf8 bytes).isSome = true

namespace SharedString

def ofText (text : List Char) : SharedString where
  bytes := encodeUtf8 text
  utf8 := by rw [decodeUtf8_encodeUtf8]; rfl

/-- The string made of what `data()` points to. It ends before the first zero byte. -/
def data (text : SharedString) : List UInt8 :=
  text.bytes.takeWhile (· ≠ 0)

theorem data_of_noZero {text : SharedString} (noZero : 0 ∉ text.bytes) :
    text.data = text.bytes := by
  simpa [data] using takeWhile_of_notMem noZero []

theorem utf8_data (text : SharedString) : (decodeUtf8 text.data).isSome = true := by
  by_cases hzero : 0 ∈ text.bytes
  · obtain ⟨front, back, hbytes, hfree⟩ := List.eq_append_cons_of_mem hzero
    have hdata : text.data = front := by
      rw [data, hbytes, takeWhile_of_notMem hfree, List.takeWhile_cons_of_neg (by simp),
        List.append_nil]
    have hutf8 := text.utf8
    rw [hbytes] at hutf8
    rw [hdata]
    exact (decodes_of_separated (by decide) hutf8).1
  · rw [data_of_noZero hzero]
    exact text.utf8

end SharedString

/-! ## Numbers -/

/-- The exceptions that can come up. -/
inductive Exception
  | systemError
  | invalidArgument
  | outOfRange
  deriving DecidableEq, Repr

/-- `isspace` -/
def isSpace (byte : UInt8) : Bool :=
  (decide (9 ≤ byte.toNat) && decide (byte.toNat ≤ 13)) || byte == 0x20

/-- A sign at the beginning of a text, and what follows it. -/
def takeSign (text : List UInt8) : Bool × List UInt8 :=
  match text with
  | [] => (false, [])
  | byte :: rest =>
    if byte = 0x2D then (true, rest)
    else if byte = 0x2B then (false, rest)
    else (false, text)

/-- `std::stoul`, for an `unsigned long` of 32 bits. -/
def stoul (text : List UInt8) : Except Exception UInt32 :=
  let (negative, body) := takeSign (text.dropWhile isSpace)
  let digits := body.takeWhile Decimal.isDigit
  let value := Decimal.value digits
  if digits = [] then .error .invalidArgument
  else if 2 ^ 32 ≤ value then .error .outOfRange
  else .ok (if negative then - UInt32.ofNat value else UInt32.ofNat value)

/-! ## The callback -/

/-- The properties of the window that are read and written. -/
structure AppWindow where
  mode : SharedString
  actFilepaths : SharedString
  filepath : SharedString
  pinCode : SharedString
  useInternet : Bool
  targetIp : SharedString
  isActive : Bool
  statusText : SharedString

/-- A machine sorts files by their sizes. -/
structure FileSort where
  fileSize : Path → ℕ
  sort : List Path → List Path
  perm : ∀ files, (sort files).Perm files
  sorted : ∀ files, (sort files).Pairwise fun a b => fileSize a ≤ fileSize b

/-- Merge sort is one way to do so. -/
def FileSort.merge (fileSize : Path → ℕ) : FileSort where
  fileSize := fileSize
  sort files := files.mergeSort fun a b => fileSize a ≤ fileSize b
  perm files := List.mergeSort_perm files _
  sorted files := by
    simpa using @List.pairwise_mergeSort _ (fun a b => decide (fileSize a ≤ fileSize b))
      (fun a b c => by simpa using Nat.le_trans) (fun a b => by simpa using Nat.le_total _ _) files

/-- What the thread that sends is started with. -/
structure SendRequest where
  fileQueue : List Path
  pin : UInt32
  useInternet : Bool
  targetGlobalIp : List UInt8
  deriving DecidableEq, Repr

/-- The arguments of a call of `sendFile`, but for the callback. -/
structure SendFileCall where
  path : Path
  targetIp : List UInt8
  port : UInt16
  pin : UInt32
  deriving DecidableEq, Repr

/-- The calls of that thread, one after another unless one throws. -/
def SendRequest.sendFileCalls (request : SendRequest) (targetIp : List UInt8) :
    List SendFileCall :=
  request.fileQueue.map fun path => ⟨path, targetIp, 9000, request.pin⟩

/-- How the callback ends. -/
inductive Outcome
  /-- It returns, and nothing is sent. -/
  | returned (window : AppWindow)
  /-- It starts a thread that sends, and returns. -/
  | sending (window : AppWindow) (request : SendRequest)
  /-- The mode is another one. -/
  | otherMode (window : AppWindow)
  /-- An exception leaves it. -/
  | threw (window : AppWindow) (exception : Exception)

/-- The path of one item. -/
def toPath (item : List UInt8) : Except Exception Path :=
  match decodeUtf8 item with
  | some native => .ok ⟨native⟩
  | none => .error .systemError

/-- The files of a text. -/
def fileQueue (rawPaths : List UInt8) : Except Exception (List Path) :=
  ((partsOf bar rawPaths).filter (· ≠ [])).mapM toPath

namespace AppWindow

def sendMode : List UInt8 :=
  encodeUtf8 ['S', 'e', 'n', 'd']

def pinError : SharedString :=
  .ofText "Error: PIN must be 6 digits".toList

def rawPaths (window : AppWindow) : List UInt8 :=
  if window.actFilepaths.data = [] then window.filepath.data else window.actFilepaths.data

/-- The branch of the mode `Send`. -/
def startSend (order : FileSort) (rawPaths : List UInt8) (window : AppWindow) : Outcome :=
  let pinStr := window.pinCode.data
  if pinStr.length ≠ 6 then
    .returned { window with statusText := pinError, isActive := false }
  else
    let window := { window with statusText := .ofText "Searching for Receiver...".toList }
    match fileQueue rawPaths with
    | .error exception => .threw window exception
    | .ok queue =>
      match stoul pinStr with
      | .error exception => .threw window exception
      | .ok pin =>
        if window.useInternet = true ∧ window.targetIp.data = [] then
          .returned
            { window with
              statusText := .ofText "Error : Enter the Receiver Global IP".toList
              isActive := false }
        else
          .sending
            { window with
              statusText :=
                if window.useInternet then .ofText "Connecting to the Internet".toList
                else .ofText "Scanning local network".toList }
            ⟨order.sort queue, pin, window.useInternet, window.targetIp.data⟩

/-- `on_start_trans` -/
def onStartTrans (order : FileSort) (window : AppWindow) : Outcome :=
  if window.rawPaths = [] then .returned window
  else
    let started := { window with isActive := true }
    if window.mode.data = sendMode then startSend order window.rawPaths started
    else .otherMode started

/-- The mode is `Send`, files are chosen and, in the mode for the Internet, a target is given. -/
structure Ready (window : AppWindow) : Prop where
  mode : window.mode.data = sendMode
  chosen : window.rawPaths ≠ []
  target : window.useInternet = true → window.targetIp.data ≠ []

/-- Six decimal digits. -/
def SixDigits (entry : List UInt8) : Prop :=
  entry.length = 6 ∧ ∀ byte ∈ entry, Decimal.isDigit byte = true

instance (entry : List UInt8) : Decidable (SixDigits entry) :=
  inferInstanceAs (Decidable (_ ∧ _))

/-- The callback goes on to send exactly for a PIN of six digits, and then with its value. Any other
PIN is refused. -/
structure AcceptsSixDigits (order : FileSort) (window : AppWindow) : Prop where
  goesOn : (∃ next request, onStartTrans order window = .sending next request) ↔
    SixDigits window.pinCode.bytes
  pin : ∀ next request, onStartTrans order window = .sending next request →
    request.pin.toNat = Decimal.value window.pinCode.bytes ∧
      ∀ ip, ∀ call ∈ request.sendFileCalls ip, call.pin = request.pin
  refused : ¬ SixDigits window.pinCode.bytes →
    onStartTrans order window =
      .returned { window with statusText := pinError, isActive := false }

/-! ## What is refused and what is read -/

theorem stoul_of_digits {text : List UInt8} (digits : ∀ byte ∈ text, Decimal.isDigit byte = true)
    (nonempty : text ≠ []) (small : Decimal.value text < 2 ^ 32) :
    stoul text = .ok (UInt32.ofNat (Decimal.value text)) := by
  obtain ⟨first, rest, rfl⟩ := List.exists_cons_of_ne_nil nonempty
  have hfirst := digits first List.mem_cons_self
  simp only [Decimal.isDigit, Bool.and_eq_true, decide_eq_true_eq] at hfirst
  have hspace : isSpace first = false := by
    have hblank : (first == 0x20) = false := by
      rw [beq_eq_false_iff_ne]
      rintro rfl
      exact absurd hfirst.1 (by decide)
    simp [isSpace, hblank]
    omega
  have hsign : takeSign (first :: rest) = (false, first :: rest) := by
    have hminus : first ≠ 0x2D := by
      rintro rfl
      exact absurd hfirst.1 (by decide)
    have hplus : first ≠ 0x2B := by
      rintro rfl
      exact absurd hfirst.1 (by decide)
    rw [takeSign, if_neg hminus, if_neg hplus]
  have htake : (first :: rest).takeWhile Decimal.isDigit = first :: rest :=
    List.takeWhile_eq_self_iff.mpr digits
  rw [stoul, List.dropWhile_cons_of_neg (by simp [hspace]), hsign]
  simp only [htake, if_neg (List.cons_ne_nil first rest), if_neg (Nat.not_le.mpr small)]
  rfl

/-- Any text of a window gives paths. -/
theorem fileQueue_isOk {rawPaths : List UInt8} (utf8 : (decodeUtf8 rawPaths).isSome = true) :
    ∃ queue, fileQueue rawPaths = .ok queue := by
  have hitems : ∀ item ∈ (partsOf bar rawPaths).filter (· ≠ []),
      (decodeUtf8 item).isSome = true := fun item hmem =>
    @Input.forall_mem_parts bar (fun part => (decodeUtf8 part).isSome = true) rfl
      (decodes_of_separated (by decide)) _ ⟨rawPaths, true⟩ utf8 item (List.mem_of_mem_filter hmem)
  rw [fileQueue]
  generalize (partsOf bar rawPaths).filter (· ≠ []) = items at hitems
  induction items with
  | nil => exact ⟨[], rfl⟩
  | cons item items ih =>
      obtain ⟨native, hnative⟩ := Option.isSome_iff_exists.mp (hitems item List.mem_cons_self)
      obtain ⟨queue, hqueue⟩ := ih fun other hmem => hitems other (List.mem_cons_of_mem item hmem)
      refine ⟨⟨native⟩ :: queue, ?_⟩
      rw [List.mapM_cons, hqueue, toPath, hnative]
      rfl

theorem data_of_sixDigits {text : SharedString} (six : SixDigits text.bytes) :
    text.data = text.bytes := by
  apply SharedString.data_of_noZero
  intro hzero
  exact absurd (six.2 0 hzero) (by decide)

theorem stoul_of_sixDigits {entry : List UInt8} (six : SixDigits entry) :
    stoul entry = .ok (UInt32.ofNat (Decimal.value entry)) ∧
      (UInt32.ofNat (Decimal.value entry)).toNat = Decimal.value entry := by
  obtain ⟨hlength, hdigits⟩ := six
  have hsmall : Decimal.value entry < 2 ^ 32 := by
    have hvalue := Decimal.value_lt hdigits
    rw [hlength] at hvalue
    omega
  refine ⟨stoul_of_digits hdigits ?_ hsmall, UInt32.toNat_ofNat_of_lt' hsmall⟩
  rintro rfl
  cases hlength

section

variable {order : FileSort} {window : AppWindow}

/-- A text of another length is refused. -/
theorem onStartTrans_of_length_ne (ready : Ready window) (wrong : window.pinCode.data.length ≠ 6) :
    onStartTrans order window =
      .returned { window with statusText := pinError, isActive := false } := by
  rw [onStartTrans, if_neg ready.chosen]
  simp only [if_pos ready.mode, startSend, if_pos wrong]

/-- A text of six bytes is converted, and nothing else is asked of it. -/
theorem onStartTrans_of_length_eq (ready : Ready window) (right : window.pinCode.data.length = 6) :
    (∃ exception next, stoul window.pinCode.data = .error exception ∧
        onStartTrans order window = .threw next exception) ∨
      ∃ pin next request, stoul window.pinCode.data = .ok pin ∧ request.pin = pin ∧
        onStartTrans order window = .sending next request := by
  have hutf8 : (decodeUtf8 window.rawPaths).isSome = true := by
    rw [rawPaths]
    split <;> exact SharedString.utf8_data _
  obtain ⟨queue, hqueue⟩ := fileQueue_isOk hutf8
  have htarget : ¬ (window.useInternet = true ∧ window.targetIp.data = []) := fun h =>
    ready.target h.1 h.2
  rw [onStartTrans, if_neg ready.chosen]
  simp only [if_pos ready.mode, startSend, if_neg (not_not.mpr right), hqueue, if_neg htarget]
  cases stoul window.pinCode.data with
  | error exception => exact .inl ⟨exception, _, rfl, rfl⟩
  | ok pin => exact .inr ⟨pin, _, _, rfl, rfl, rfl⟩

/-- It is never refused. -/
theorem onStartTrans_ne_returned (ready : Ready window) (right : window.pinCode.data.length = 6)
    (next : AppWindow) : onStartTrans order window ≠ .returned next := by
  intro hreturned
  rcases @onStartTrans_of_length_eq order window ready right with
    ⟨exception, other, -, houtcome⟩ | ⟨pin, other, request, -, -, houtcome⟩
  · rw [houtcome] at hreturned
    cases hreturned
  · rw [houtcome] at hreturned
    cases hreturned

/-- The callback takes six digits for a PIN and nothing else exactly if the text that it looks at
does not have six bytes or is made of six digits. -/
theorem acceptsSixDigits_iff (ready : Ready window) :
    AcceptsSixDigits order window ↔
      window.pinCode.data.length ≠ 6 ∨ SixDigits window.pinCode.bytes := by
  constructor
  · intro accepts
    by_contra hneither
    push Not at hneither
    obtain ⟨hlength, hother⟩ := hneither
    exact onStartTrans_ne_returned ready hlength _ (accepts.refused hother)
  · intro hentry
    by_cases hsix : SixDigits window.pinCode.bytes
    · have hdata := data_of_sixDigits hsix
      obtain ⟨hstoul, hvalue⟩ := stoul_of_sixDigits hsix
      rcases @onStartTrans_of_length_eq order window ready (hdata ▸ hsix.1) with
        ⟨exception, next, hthrown, -⟩ | ⟨pin, next, request, hread, hpin, houtcome⟩
      · rw [hdata, hstoul] at hthrown
        cases hthrown
      · refine ⟨iff_of_true ⟨next, request, houtcome⟩ hsix, ?_, fun hother => (hother hsix).elim⟩
        intro next' request' hsending
        rw [houtcome] at hsending
        cases hsending
        rw [hdata, hstoul] at hread
        cases hread
        refine ⟨by rw [hpin, hvalue], fun ip call hmem => ?_⟩
        obtain ⟨path, -, rfl⟩ := List.mem_map.mp hmem
        rfl
    · have hlength := hentry.resolve_right hsix
      have hreturned := @onStartTrans_of_length_ne order window ready hlength
      refine ⟨iff_of_false ?_ hsix, fun next request hsending => ?_, fun _ => hreturned⟩
      · rintro ⟨next, request, hsending⟩
        rw [hreturned] at hsending
        cases hsending
      · rw [hreturned] at hsending
        cases hsending

end

/-- A window for one file with a PIN, in the local network. -/
def withPin (pin : List Char) : AppWindow where
  mode := .ofText ['S', 'e', 'n', 'd']
  actFilepaths := .ofText ['a']
  filepath := .ofText []
  pinCode := .ofText pin
  useInternet := false
  targetIp := .ofText []
  isActive := false
  statusText := .ofText []

theorem ready_withPin (pin : List Char) : Ready (withPin pin) where
  mode := by
    have hmode : (SharedString.ofText ['S', 'e', 'n', 'd']).data = sendMode := by decide +kernel
    exact hmode
  chosen := by
    have hfiles : (SharedString.ofText ['a']).data ≠ [] := by decide +kernel
    rw [rawPaths, withPin, if_neg hfiles]
    exact hfiles
  target := nofun

/-- The entry `012345`. -/
theorem acceptsSixDigits_012345 :
    AcceptsSixDigits (.merge fun _ => 0) (withPin ['0', '1', '2', '3', '4', '5']) :=
  (acceptsSixDigits_iff (ready_withPin _)).mpr (.inr (by decide +kernel))

/-- The entry `12ab56` is sent with the PIN 12, and the entry `abcdef` throws. -/
theorem not_acceptsSixDigits_12ab56 :
    (∃ next request, onStartTrans (.merge fun _ => 0) (withPin ['1', '2', 'a', 'b', '5', '6']) =
        .sending next request ∧ request.pin = 12) ∧
      (∃ next, onStartTrans (.merge fun _ => 0) (withPin ['a', 'b', 'c', 'd', 'e', 'f']) =
        .threw next .invalidArgument) ∧
      ¬ ∀ (order : FileSort) (window : AppWindow),
        Ready window → AcceptsSixDigits order window := by
  have hjunk : stoul (withPin ['1', '2', 'a', 'b', '5', '6']).pinCode.data = .ok 12 := by
    decide +kernel
  have hletters : stoul (withPin ['a', 'b', 'c', 'd', 'e', 'f']).pinCode.data =
      .error .invalidArgument := by decide +kernel
  refine ⟨?_, ?_, fun hall => ?_⟩
  · rcases @onStartTrans_of_length_eq (.merge fun _ => 0) _
      (ready_withPin ['1', '2', 'a', 'b', '5', '6']) (by decide +kernel) with
      ⟨exception, next, hthrown, -⟩ | ⟨pin, next, request, hread, hpin, houtcome⟩
    · rw [hjunk] at hthrown
      cases hthrown
    · rw [hjunk] at hread
      cases hread
      exact ⟨next, request, houtcome, hpin⟩
  · rcases @onStartTrans_of_length_eq (.merge fun _ => 0) _
      (ready_withPin ['a', 'b', 'c', 'd', 'e', 'f']) (by decide +kernel) with
      ⟨exception, next, hthrown, houtcome⟩ | ⟨pin, next, request, hread, -, -⟩
    · rw [hletters] at hthrown
      cases hthrown
      exact ⟨next, houtcome⟩
    · rw [hletters] at hread
      cases hread
  · exact onStartTrans_ne_returned (ready_withPin ['1', '2', 'a', 'b', '5', '6'])
      (by decide +kernel) _ ((hall (.merge fun _ => 0) _ (ready_withPin _)).refused
        (by decide +kernel))

end AppWindow

end Sxaint.App
