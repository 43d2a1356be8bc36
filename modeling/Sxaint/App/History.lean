/-
# The history

The list of finished transfers, in memory and in a text file. A transfer is logged by one more line
at the end of the file and, later and in the thread of the interface, by one more row at the front
of the list. At the next start the lines are read and inserted at the front one by one, so the last
line is the first row. File and list stay in step as long as no name has a separator in it and no
line fails to be written: the rows that are still waiting are exactly what the file is ahead.
-/

import Sxaint.Bytes.Decimal
import Sxaint.Bytes.TextStream
import Sxaint.Machine.Run
import Sxaint.Net.KnownAnswers

namespace Sxaint.App

open ByteStream Transition Sxaint.Core Sxaint.Net

/-- A row of the list, made of the strings that the interface shows. -/
structure HistoryRecord (σ : Type) where
  filename : σ
  direction : σ
  status : σ
  timestamp : σ
  deriving DecidableEq, Repr

/-- The byte `|`. -/
def bar : UInt8 := 0x7C

/-! ## Loading -/

section

variable {σ : Type} (sharedString : List UInt8 → σ)

/-- The record of a line, if it has all four fields. -/
def parseLine (line : List UInt8) : Option (HistoryRecord σ) := do
  let (file, iss) ← Input.getline bar ⟨line, true⟩
  let (dir, iss) ← iss.getline bar
  let (status, iss) ← iss.getline bar
  let (time, _) ← iss.getline newline
  some ⟨sharedString file, sharedString dir, sharedString status, sharedString time⟩

/-- The record of a line goes to the front of those loaded before. -/
def loadLine (loadedRecords : List (HistoryRecord σ)) (line : List UInt8) :
    List (HistoryRecord σ) :=
  match parseLine sharedString line with
  | some rec => rec :: loadedRecords
  | none => loadedRecords

/-- The list at the start, by the text of the file. -/
def load (text : List UInt8) : List (HistoryRecord σ) :=
  (linesOf text).foldl (loadLine sharedString) []

end

/-! ## Logging -/

/-- A local time, down to the minute. -/
structure LocalTime where
  year : ℕ
  month : ℕ
  day : ℕ
  hour : ℕ
  minute : ℕ
  deriving DecidableEq, Repr

def twoDigits (number : ℕ) : List UInt8 :=
  if number < 10 then 0x30 :: Decimal.encode number else Decimal.encode number

/-- A time in the format `%Y-%m-%d %H:%M`. -/
def LocalTime.text (time : LocalTime) : List UInt8 :=
  Decimal.encode time.year ++ 0x2D :: twoDigits time.month ++ 0x2D :: twoDigits time.day ++
    0x20 :: twoDigits time.hour ++ 0x3A :: twoDigits time.minute

/-- The callers of `log_history`. -/
inductive Caller
  | sender
  | receiver
  deriving DecidableEq, Repr

/-- The texts `Sent` and `Received`. -/
def Caller.dir : Caller → List UInt8
  | .sender => [0x53, 0x65, 0x6E, 0x74]
  | .receiver => [0x52, 0x65, 0x63, 0x65, 0x69, 0x76, 0x65, 0x64]

/-- The text `Success`. -/
def success : List UInt8 :=
  [0x53, 0x75, 0x63, 0x63, 0x65, 0x73, 0x73]

/-- The name that is logged for a path; nothing if one of the conversions throws. -/
def historyName (host : Host) (filepath : List UInt8) : Option (List UInt8) :=
  (decodeUtf8 (filepath.takeWhile (· ≠ 0))).bind fun native =>
    host.toNarrow (Path.filename ⟨native⟩)

/-- What is written into the file, but for the end of the line. -/
def historyLine (filename dir status time : List UInt8) : List UInt8 :=
  filename ++ bar :: (dir ++ bar :: (status ++ bar :: time))

/-- The file and the list. -/
structure History (σ : Type) where
  /-- The text of the file. -/
  file : List UInt8
  /-- The rows that are shown. -/
  model : List (HistoryRecord σ)
  /-- The rows that the thread of the interface has still to insert, the oldest first. -/
  pending : List (HistoryRecord σ) := []
  deriving DecidableEq, Repr

section

variable {σ : Type} (sharedString : List UInt8 → σ)

/-- `log_history`, at a time, with the file opened or not; nothing if it throws. -/
def logHistory (host : Host) (filepath dir status : List UInt8) (now : LocalTime) (isOpen : Bool)
    (history : History σ) : Option (History σ) :=
  (historyName host filepath).map fun filename =>
    { history with
      file :=
        if isOpen then history.file ++ unlines [historyLine filename dir status now.text]
        else history.file
      pending := history.pending ++
        [⟨sharedString filename, sharedString dir, sharedString status, sharedString now.text⟩] }

/-- A call of `log_history`, or an insertion in the thread of the interface. -/
inductive HistoryEvent
  | log (caller : Caller) (filepath : List UInt8) (now : LocalTime) (isOpen : Bool)
  | insert
  deriving DecidableEq, Repr

def historyStep (host : Host) (event : HistoryEvent) (history : History σ) : Option (History σ) :=
  match event with
  | .log caller filepath now isOpen =>
    -- a call that throws has done nothing yet
    some
      ((logHistory sharedString host filepath caller.dir success now isOpen history).getD history)
  | .insert =>
    match history.pending with
    | [] => none
    | rec :: pending => some { history with model := rec :: history.model, pending := pending }

/-- The program after a start with a history file. -/
def historyMachine (host : Host) (text : List UInt8) : Machine (History σ) HistoryEvent where
  init := ⟨text, load sharedString text, []⟩
  step := historyStep sharedString host

end

/-- A line is written, and the name in it has neither a bar nor the end of a line in it. -/
def Recorded (host : Host) : HistoryEvent → Prop
  | .log _ filepath _ isOpen =>
    isOpen = true ∧ ∀ filename ∈ historyName host filepath, bar ∉ filename ∧ newline ∉ filename
  | .insert => True

instance (host : Host) (event : HistoryEvent) : Decidable (Recorded host event) :=
  match event with
  | .log _ filepath _ isOpen =>
    inferInstanceAs (Decidable (isOpen = true ∧
      ∀ filename ∈ historyName host filepath, bar ∉ filename ∧ newline ∉ filename))
  | .insert => inferInstanceAs (Decidable True)

/-! ## The line that is written is the record that is shown -/

theorem isDigit_of_mem_twoDigits {number : ℕ} {byte : UInt8} (mem : byte ∈ twoDigits number) :
    Decimal.isDigit byte = true := by
  rw [twoDigits] at mem
  split at mem
  · rcases List.mem_cons.mp mem with rfl | mem
    · rfl
    · exact Decimal.isDigit_of_mem_encode mem
  · exact Decimal.isDigit_of_mem_encode mem

theorem newline_notMem_text (time : LocalTime) : newline ∉ time.text := by
  have hdigit : Decimal.isDigit newline = false := rfl
  have hyear : newline ∉ Decimal.encode time.year := fun h =>
    absurd (Decimal.isDigit_of_mem_encode h) (by simp [hdigit])
  have htwo (number : ℕ) : newline ∉ twoDigits number := fun h =>
    absurd (isDigit_of_mem_twoDigits h) (by simp [hdigit])
  simp only [LocalTime.text, List.mem_append, List.mem_cons, hyear, htwo, or_false, false_or]
  decide

theorem text_ne_nil (time : LocalTime) : time.text ≠ [] := by
  simp [LocalTime.text]

theorem newline_notMem_historyLine {filename dir status time : List UInt8}
    (filename' : newline ∉ filename) (dir' : newline ∉ dir) (status' : newline ∉ status)
    (time' : newline ∉ time) : newline ∉ historyLine filename dir status time := by
  have hbar : newline ≠ bar := by decide
  simp only [historyLine, List.mem_append, List.mem_cons]
  tauto

section

variable {σ : Type} {sharedString : List UInt8 → σ}

theorem parseLine_historyLine {filename dir status time : List UInt8} (filename' : bar ∉ filename)
    (dir' : bar ∉ dir) (status' : bar ∉ status) (time' : newline ∉ time) (nonempty : time ≠ []) :
    parseLine sharedString (historyLine filename dir status time) =
      some ⟨sharedString filename, sharedString dir, sharedString status, sharedString time⟩ := by
  have hfile : Input.getline bar ⟨historyLine filename dir status time, true⟩ =
      some (filename, ⟨dir ++ bar :: (status ++ bar :: time), true⟩) :=
    Input.getline_field filename' _
  have hdir : Input.getline bar ⟨dir ++ bar :: (status ++ bar :: time), true⟩ =
      some (dir, ⟨status ++ bar :: time, true⟩) := Input.getline_field dir' _
  have hstatus : Input.getline bar ⟨status ++ bar :: time, true⟩ = some (status, ⟨time, true⟩) :=
    Input.getline_field status' _
  have htime : Input.getline newline ⟨time, true⟩ = some (time, ⟨[], false⟩) :=
    Input.getline_last time' nonempty
  simp only [parseLine, hfile, hdir, hstatus, htime, Option.bind_eq_bind, Option.bind_some]

/-- Loading one line more. -/
theorem load_unlines_concat {lines : List (List UInt8)} {line : List UInt8}
    (clean : ∀ l ∈ lines ++ [line], newline ∉ l) :
    load sharedString (unlines (lines ++ [line])) =
      loadLine sharedString (load sharedString (unlines lines)) line := by
  have hlines : ∀ l ∈ lines, newline ∉ l := fun l hl => clean l (List.mem_append_left _ hl)
  rw [load, linesOf_unlines clean, List.foldl_append, load, linesOf_unlines hlines]
  rfl

/-! ## Every run -/

/-- The file has whole lines only, and what it is ahead of the list is waiting. -/
def InStep (sharedString : List UInt8 → σ) (history : History σ) : Prop :=
  ∃ lines, (∀ line ∈ lines, newline ∉ line) ∧ history.file = unlines lines ∧
    load sharedString history.file = history.pending.reverse ++ history.model

theorem inStep_logHistory {host : Host} {caller : Caller} {filepath : List UInt8} {now : LocalTime}
    {history next : History σ} (inv : InStep sharedString history)
    (free : ∀ filename ∈ historyName host filepath, bar ∉ filename ∧ newline ∉ filename)
    (logged : logHistory sharedString host filepath caller.dir success now true history =
      some next) : InStep sharedString next := by
  obtain ⟨lines, hclean, hfile, hload⟩ := inv
  obtain ⟨filename, hname, rfl⟩ := Option.map_eq_some_iff.mp logged
  obtain ⟨hbar, hnewline⟩ := free filename hname
  have hdir : bar ∉ caller.dir ∧ newline ∉ caller.dir := by cases caller <;> decide
  have hclean' : ∀ line ∈ lines ++ [historyLine filename caller.dir success now.text],
      newline ∉ line := by
    intro line hline
    rcases List.mem_append.mp hline with hold | hnew
    · exact hclean line hold
    · rw [List.mem_singleton.mp hnew]
      exact newline_notMem_historyLine hnewline hdir.2 (by decide) (newline_notMem_text now)
  refine ⟨_, hclean', ?_, ?_⟩
  · rw [unlines_append, ← hfile]
    rfl
  · change load sharedString (history.file ++ _) = _
    rw [hfile, ← unlines_append, load_unlines_concat hclean', ← hfile, hload, loadLine,
      parseLine_historyLine hbar hdir.1 (by decide) (newline_notMem_text now) (text_ne_nil now)]
    simp

theorem inStep_historyStep {host : Host} {event : HistoryEvent} {history next : History σ}
    (inv : InStep sharedString history) (ok : Recorded host event)
    (taken : historyStep sharedString host event history = some next) :
    InStep sharedString next := by
  cases event with
  | log caller filepath now isOpen =>
      obtain ⟨rfl, hfree⟩ := ok
      obtain rfl := Option.some.inj taken
      cases hlogged : logHistory sharedString host filepath caller.dir success now true history with
      | none => exact inv
      | some next => exact inStep_logHistory inv hfree hlogged
  | insert =>
      rw [historyStep] at taken
      split at taken
      · cases taken
      · rename_i rec pending hpending
        obtain rfl := Option.some.inj taken
        obtain ⟨lines, hclean, hfile, hload⟩ := inv
        refine ⟨lines, hclean, hfile, hload.trans ?_⟩
        rw [hpending]
        simp

/-- However transfers are logged and rows inserted, when no row is waiting the list is the one that
the next start makes of the file. -/
theorem model_eq_load {host : Host} {lines : List (List UInt8)}
    (clean : ∀ line ∈ lines, newline ∉ line) {events : List HistoryEvent} {final : History σ}
    (run : (historyMachine sharedString host (unlines lines)).RunUnder
      (fun _ => Recorded host) events final) (settled : final.pending = []) :
    final.model = load sharedString final.file := by
  have hinit : InStep sharedString (historyMachine sharedString host (unlines lines)).init :=
    ⟨lines, clean, rfl, rfl⟩
  have hfinal : InStep sharedString final :=
    run.invariant hinit fun _ _ _ inv ok taken => inStep_historyStep inv ok taken
  obtain ⟨-, -, -, hload⟩ := hfinal
  rw [hload, settled]
  rfl

/-- A file with one line, to which two transfers are added, the first of them of a path without a
name. -/
theorem model_eq_load_two :
    let machine := historyMachine id KnownAnswers.host (unlines [historyLine [97] [98] [99] [100]])
    let events : List HistoryEvent :=
      [.log .receiver [] ⟨2026, 7, 6, 9, 5⟩ true, .log .sender [98] ⟨2026, 7, 6, 9, 30⟩ true,
        .insert, .insert]
    (machine.reached events).model.length = 3 ∧
      (machine.reached events).model = load id (machine.reached events).file := by
  intro machine events
  refine ⟨by decide +kernel, ?_⟩
  have run : machine.RunUnder (fun _ => Recorded KnownAnswers.host) events
      (machine.reached events) :=
    Machine.runUnder_reached (by decide +kernel)
  exact model_eq_load (by decide) run (by decide +kernel)

end

end Sxaint.App
