/-
# Where a received file is put

The path that is created and mapped for a handshake is the one its name leads to from the output
directory, unless that path exists; then it is numbered. A numbered path is always an entry of the
output directory, the one of the name only if the name leads there.
-/

import Sxaint.Core.Place
import Sxaint.Net.KnownAnswers
import Sxaint.Net.Receiver

namespace Sxaint.Core

/-- What the conversions between native and narrow text of a code page keep to. -/
structure Host.Converts (host : Host) : Prop where
  back : ∀ {text narrow}, host.toNarrow text = some narrow → host.ofNarrow narrow = some text
  append : ∀ {first second left right}, host.ofNarrow first = some left →
    host.ofNarrow second = some right → host.ofNarrow (first ++ second) = some (left ++ right)
  ascii : ∀ bytes : List UInt8, (∀ byte ∈ bytes, byte.toNat < 128) →
    host.ofNarrow bytes = some (bytes.map fun byte => Char.ofNat byte.toNat)

end Sxaint.Core

namespace Sxaint.Net

open Sxaint.Core Transition

namespace Endpoint

variable {P : Platform}

/-! ## Numbered names -/

/-- What is put between the stem and the extension. -/
def numbering (counter : ℕ) : List UInt8 :=
  [0x20, 0x28] ++ Crypto.toDecimal counter ++ [0x29]

theorem numberedName_eq (stem ext : List UInt8) (counter : ℕ) :
    numberedName stem ext counter = stem ++ numbering counter ++ ext := by
  simp [numberedName, numbering]

theorem toNat_of_mem_numbering {counter : ℕ} {byte : UInt8} (mem : byte ∈ numbering counter) :
    byte.toNat < 58 ∧ byte.toNat ≠ 47 := by
  rw [numbering, List.mem_append, List.mem_append] at mem
  rcases mem with (hopen | hdigit) | hclose
  · rcases List.mem_pair.mp hopen with rfl | rfl <;> decide
  · rw [Crypto.toDecimal, List.mem_map] at hdigit
    obtain ⟨c, hc, rfl⟩ := hdigit
    have hrange := Char.isDigit_iff_toNat.mp
      (Nat.isDigit_of_mem_toDigits (by decide) (by decide) hc)
    have hlow : '0'.toNat = 48 := rfl
    have hhigh : '9'.toNat = 57 := rfl
    rw [UInt8.toNat_ofNat', Nat.mod_eq_of_lt (by omega)]
    omega
  · rw [List.mem_singleton.mp hclose]
    decide

/-- A number is put in as it is. -/
theorem ofNarrow_numbering (converts : P.host.Converts) (counter : ℕ) :
    ∃ text, P.host.ofNarrow (numbering counter) = some text ∧ Path.Plain text ∧ '(' ∈ text := by
  refine ⟨_, converts.ascii _ ?_, ?_, ?_⟩
  · intro byte hbyte
    have hbound := (toNat_of_mem_numbering hbyte).1
    omega
  · have hplain : ∀ n < 58, n ≠ 47 →
        Path.isSlash (Char.ofNat n) = false ∧ Char.ofNat n ≠ ':' := by decide
    intro c hc
    obtain ⟨byte, hbyte, rfl⟩ := List.mem_map.mp hc
    obtain ⟨hbound, hother⟩ := toNat_of_mem_numbering hbyte
    exact hplain _ hbound hother
  · exact List.mem_map.mpr ⟨0x28, by simp [numbering], rfl⟩

/-- A path is the one of a name with a number put in. -/
def Numbered (P : Platform) (outputDir plain target : Path) : Prop :=
  ∃ stem ext counter native, P.host.toNarrow plain.stem = some stem ∧
    P.host.toNarrow plain.extension = some ext ∧
    P.host.ofNarrow (numberedName stem ext counter) = some native ∧
    target = outputDir.append ⟨native⟩

/-- A numbered path is an entry of the output directory. -/
theorem isEntryOf_of_numbered {outputDir plain target : Path} (converts : P.host.Converts)
    (anchored : outputDir.Anchored) (numbered : Numbered P outputDir plain target) :
    target.place.IsEntryOf outputDir.place := by
  obtain ⟨stem, ext, counter, native, hstem, hext, hnative, rfl⟩ := numbered
  obtain ⟨text, htext, hplain, hmem⟩ := ofNarrow_numbering converts counter
  have hback := converts.append (converts.append (converts.back hstem) htext) (converts.back hext)
  rw [← numberedName_eq, hnative] at hback
  obtain rfl := Option.some.inj hback
  have hmem' : '(' ∈ plain.stem ++ text ++ plain.extension :=
    List.mem_append_left _ (List.mem_append_right _ hmem)
  have hparent : plain.stem ++ text ++ plain.extension ≠ Place.parent := by
    intro heq
    rw [heq] at hmem'
    revert hmem'
    decide
  refine ⟨_, hparent, Path.place_append_of_plain anchored
    (((Path.plain_stem plain).append hplain).append (Path.plain_extension plain)) ?_ ?_ hparent⟩
  · exact List.ne_nil_of_mem hmem'
  · intro heq
    rw [heq] at hmem'
    revert hmem'
    decide

/-! ## The path of a task -/

/-- A handshake task of a receiver after a step is a new one, was left as it was, or took the
step. -/
theorem handshake_of_step {pin : UInt32} {outputDir : Path} {event : Event} {w w' : Endpoint}
    {index : ℕ} {hs : Handshake} {next : HandshakePc} (receiver : Receiver pin outputDir w)
    (taken : step P event w = some w') (found : w'.tasks[index]? = some (.handshake hs next)) :
    next = .enter ∨ w.tasks[index]? = some (.handshake hs next) ∨
      ∃ ok pc v, event = .task index ok ∧ w.tasks[index]? = some (.handshake hs pc) ∧
        processHandshake P hs pc ok w = some (next, v) := by
  have hstep := (step_cases taken).2
  cases event with
  | deliver data =>
      have hsubmit {task : Task} (hread : (w.tasks ++ [task])[index]? = some (.handshake hs next))
          (hnew : task = .handshake hs next → next = .enter) :
          next = .enter ∨ w.tasks[index]? = some (.handshake hs next) := by
        rcases Pool.getElem?_submit_eq_some hread with hold | ⟨-, rfl⟩
        · exact .inr hold
        · exact .inl (hnew rfl)
      cases hstep with
      | deliver _ received =>
          cases received with
          | handshake _ => exact (hsubmit found (by rintro ⟨⟩; rfl)).imp_right .inl
          | chunk _ _ => exact (hsubmit found (by rintro ⟨⟩)).imp_right .inl
          | _ => exact .inr (.inl found)
  | network =>
      cases hstep
      exact .inr (.inl found)
  | main strategy waitSnd =>
      cases hstep with
      | main taken =>
          obtain ⟨-, rfl⟩ := returned_of_mainStep receiver.main taken
          exact .inr (.inl found)
  | task i ok =>
      obtain ⟨task, new, v, hread, hrun, rfl⟩ := runTask_of_step taken
      simp only [(taskStep_of_runTask hrun).tasks] at found
      rcases Pool.getElem?_set_eq_some found with ⟨rfl, rfl⟩ | ⟨-, hold⟩
      · cases task with
        | handshake hs' pc =>
            obtain ⟨⟨pc', v'⟩, hprocess, heq⟩ := Option.map_eq_some_iff.mp hrun
            cases heq
            exact .inr (.inr ⟨ok, pc, _, rfl, hread, hprocess⟩)
        | recvChunk header payload pc =>
            obtain ⟨⟨pc', v'⟩, -, heq⟩ := Option.map_eq_some_iff.mp hrun
            cases heq
        | sendChunk job pc => exact (receiver.tasks _ (List.mem_of_getElem? hread)).elim
      · exact .inr (.inl hold)

/-- No other handshake was admitted. -/
def Alone (w : Endpoint) (index : ℕ) : Prop :=
  ∀ other hs pc, other ≠ index → w.tasks[other]? = some (.handshake hs pc) →
    pc = .enter ∨ pc = .answered

/-- Without another admitted handshake a task converts its own name. -/
def Own (w : Endpoint) : Prop :=
  ∀ index hs, w.tasks[index]? = some (.handshake hs .convert) → w.Alone index →
    hs.fileNameText = some w.currentFilename

theorem own_of_kept {w v : Endpoint} (own : w.Own)
    (name : v.currentFilename = w.currentFilename)
    (kept : ∀ (i : ℕ) hs pc, w.tasks[i]? = some (Task.handshake hs pc) →
      v.tasks[i]? = some (Task.handshake hs pc))
    (old : ∀ (i : ℕ) hs, v.tasks[i]? = some (Task.handshake hs .convert) →
      w.tasks[i]? = some (Task.handshake hs .convert)) : v.Own := by
  intro index hs found alone
  rw [name]
  apply own index hs (old index hs found)
  intro other hs' pc hne hread
  exact alone other hs' pc hne (kept other hs' pc hread)

theorem own_step {pin : UInt32} {outputDir : Path} {event : Event} {w w' : Endpoint}
    (receiver : Receiver pin outputDir w) (own : w.Own) (taken : Step P w event w') : w'.Own := by
  have hsubmit {task : Task} (hnew : ∀ hs, task ≠ .handshake hs .convert) :
      (w.submit task).Own := by
    refine own_of_kept own rfl ?_ ?_
    · intro i hs pc hread
      exact (List.getElem?_append_left (List.getElem?_eq_some_iff.mp hread).1).trans hread
    · intro i hs hread
      rcases Pool.getElem?_submit_eq_some hread with hold | ⟨-, heq⟩
      · exact hold
      · exact (hnew hs heq.symm).elim
  cases taken with
  | deliver _ received =>
      cases received with
      | handshake _ | chunk _ _ => exact hsubmit (by rintro _ ⟨⟩)
      | _ => exact own
  | network => exact own
  | @handshake i ok hs' pc next v hread hstep =>
      have hframe := taskFrame_of_handshakeStep hstep
      intro index hs found alone
      simp only [hframe.tasks] at found alone
      rcases Pool.getElem?_set_eq_some found with ⟨rfl, heq⟩ | ⟨hne, hold⟩
      · cases heq
        cases hstep with
        | prepared terminated => exact terminated
        | packFault packing _ => rcases packing with ⟨h, -⟩ | h <;> cases h
      · -- the other task is admitted after this step unless it is answered or crashes
        have hnext : next = .enter ∨ next = .answered := by
          apply alone i hs' next (Ne.symm hne)
          exact List.getElem?_set_self (List.getElem?_eq_some_iff.mp hread).1
        have hentered : pc = .enter ∧ v.currentFilename = w.currentFilename := by
          rcases hnext with rfl | rfl
          · cases hstep with
            | packFault packing _ =>
                rcases packing with ⟨h, -⟩ | h
                · exact ⟨rfl, rfl⟩
                · cases h
          · cases hstep with
            | resumed _ _ | rejected _ _ => exact ⟨rfl, rfl⟩
            | packFault packing _ => rcases packing with ⟨h, -⟩ | h <;> cases h
        show hs.fileNameText = some v.currentFilename
        rw [hentered.2]
        apply own index hs hold
        intro other hs'' pc' hother hread'
        by_cases hsame : other = i
        · subst hsame
          cases hread.symm.trans hread'
          exact .inl hentered.1
        · exact alone other hs'' pc' hother ((List.getElem?_set_ne (Ne.symm hsame)).trans hread')
  | @recvChunk i ok header payload pc next v hread hstep =>
      have hframe := chunkFrame_of_chunkStep hstep
      refine own_of_kept own hframe.currentFilename ?_ ?_
      · intro j hs pc' hother
        have hne : j ≠ i := by
          rintro rfl
          cases hread.symm.trans hother
        simp only [hframe.tasks]
        exact (List.getElem?_set_ne (Ne.symm hne)).trans hother
      · intro j hs hother
        simp only [hframe.tasks] at hother
        rcases Pool.getElem?_set_eq_some hother with ⟨-, heq⟩ | ⟨-, hold⟩
        · cases heq
        · exact hold
  | sendChunk hread _ => exact (receiver.tasks _ (List.mem_of_getElem? hread)).elim
  | main taken =>
      obtain ⟨-, rfl⟩ := returned_of_mainStep receiver.main taken
      exact own

theorem own_run {pin : UInt32} {outputDir : Path} {onProgress : Bool} {disk : List Path}
    {events : List Event} {w : Endpoint}
    (run : (machine P (recvFile outputDir pin onProgress disk)).Run events w) : w.Own := by
  induction run with
  | start =>
      intro index hs found
      cases found
  | snoc prior _ taken ih => exact own_step (receiver_run prior) ih (step_cases taken).2

section Targets

variable (P) (start : Endpoint) (events : List Event) (index : ℕ) (hs : Handshake)

/-- A task converts `current_filename_` to a name. -/
def Converts (name : List Char) : Prop :=
  ∃ v ok, (machine P start).Leaves events v (.task index ok) ∧
    v.tasks[index]? = some (.handshake hs .convert) ∧
    decodeUtf8 v.currentFilename = some name ∧
    (v.Alone index → hs.fileNameText = some v.currentFilename)

/-- A task asks in a state whether a path exists that has no number in it. -/
def Looks (plain : Path) (u : Endpoint) : Prop :=
  (machine P start).Leaves events u (.task index true) ∧
    ∃ stem ext, u.tasks[index]? = some (.handshake hs (.rename stem ext 1 plain))

/-- A task has taken the path of its name if that did not exist, and else a numbered one. -/
def Chosen (target : Path) : Prop :=
  ∃ name u, Converts P start events index hs name ∧
    Looks P start events index hs (start.outputDir.append ⟨name⟩) u ∧
    if fileExists P u (start.outputDir.append ⟨name⟩) then
      Numbered P start.outputDir (start.outputDir.append ⟨name⟩) target
    else target = start.outputDir.append ⟨name⟩

/-- How far a task is with its path. -/
def Choosing : HandshakePc → Prop
  | .rename stem ext counter target =>
    1 ≤ counter ∧ ∃ name, Converts P start events index hs name ∧
      P.host.toNarrow (start.outputDir.append ⟨name⟩).stem = some stem ∧
      P.host.toNarrow (start.outputDir.append ⟨name⟩).extension = some ext ∧
      if counter = 1 then target = start.outputDir.append ⟨name⟩
      else ∃ u, Looks P start events index hs (start.outputDir.append ⟨name⟩) u ∧
        fileExists P u (start.outputDir.append ⟨name⟩) = true ∧
        Numbered P start.outputDir (start.outputDir.append ⟨name⟩) target
  | .describe target | .allot target | .resetCount target | .preallocate target
  | .mapWrite target => Chosen P start events index hs target
  | _ => True

end Targets

section Targets

variable {start : Endpoint} {events : List Event} {index : ℕ} {hs : Handshake}

theorem Converts.snoc {name : List Char} (converts : Converts P start events index hs name)
    (event : Event) : Converts P start (events ++ [event]) index hs name := by
  obtain ⟨v, ok, leaves, rest⟩ := converts
  exact ⟨v, ok, leaves.snoc event, rest⟩

theorem Looks.snoc {plain : Path} {u : Endpoint} (looks : Looks P start events index hs plain u)
    (event : Event) : Looks P start (events ++ [event]) index hs plain u :=
  ⟨looks.1.snoc event, looks.2⟩

theorem Chosen.snoc {target : Path} (chosen : Chosen P start events index hs target)
    (event : Event) : Chosen P start (events ++ [event]) index hs target := by
  obtain ⟨name, u, converts, looks, rest⟩ := chosen
  exact ⟨name, u, converts.snoc event, looks.snoc event, rest⟩

theorem Choosing.snoc {pc : HandshakePc} (choosing : Choosing P start events index hs pc)
    (event : Event) : Choosing P start (events ++ [event]) index hs pc := by
  cases pc with
  | rename stem ext counter target =>
      obtain ⟨hcounter, name, converts, hstem, hext, rest⟩ := choosing
      refine ⟨hcounter, name, converts.snoc event, hstem, hext, ?_⟩
      split at rest
      · rename_i hfirst
        rw [if_pos hfirst]
        exact rest
      · rename_i hlater
        obtain ⟨u, looks, rest⟩ := rest
        rw [if_neg hlater]
        exact ⟨u, looks.snoc event, rest⟩
  | describe _ | allot _ | resetCount _ | preallocate _ | mapWrite _ =>
      exact Chosen.snoc choosing event
  | _ => trivial

/-- What a step of the task itself keeps. -/
theorem choosing_processHandshake {w v : Endpoint} {pc next : HandshakePc} {ok : Bool}
    (run : (machine P start).Run events w) (outputDir : w.outputDir = start.outputDir)
    (own : w.Own) (choosing : Choosing P start events index hs pc)
    (found : w.tasks[index]? = some (.handshake hs pc))
    (taken : processHandshake P hs pc ok w = some (next, v)) :
    Choosing P start (events ++ [.task index ok]) index hs next := by
  cases pc with
  | convert =>
      simp only [processHandshake] at taken
      split at taken
      · rename_i stem ext target hpath
        cases taken
        rw [targetPath] at hpath
        obtain ⟨name, hname, hpath⟩ := Option.bind_eq_some_iff.mp hpath
        obtain ⟨stem', hstem, hpath⟩ := Option.bind_eq_some_iff.mp hpath
        obtain ⟨ext', hext, hpath⟩ := Option.bind_eq_some_iff.mp hpath
        cases hpath
        rw [outputDir] at hstem hext ⊢
        refine ⟨Nat.le_refl _, name, ?_, hstem, hext, rfl⟩
        exact ⟨w, ok, Machine.leaves_last run _, found, hname, own index hs found⟩
      · cases taken
        trivial
  | rename stem ext counter target =>
      obtain ⟨hcounter, name, converts, hstem, hext, rest⟩ := choosing
      simp only [processHandshake] at taken
      split at taken
      · cases taken
        trivial
      · rename_i hok
        obtain rfl : ok = true := by simpa using hok
        have hlooks (first : counter = 1) (same : target = start.outputDir.append ⟨name⟩) :
            Looks P start (events ++ [.task index true]) index hs
              (start.outputDir.append ⟨name⟩) w := by
          subst first same
          exact ⟨Machine.leaves_last run _, stem, ext, found⟩
        split at taken
        · rename_i hexists
          split at taken
          · rename_i native hnative
            cases taken
            refine ⟨Nat.le_add_left 1 counter, name, converts.snoc _, hstem, hext, ?_⟩
            rw [if_neg (by omega), outputDir]
            have hnumbered : Numbered P start.outputDir (start.outputDir.append ⟨name⟩)
                (start.outputDir.append ⟨native⟩) :=
              ⟨stem, ext, counter, native, hstem, hext, hnative, rfl⟩
            split at rest
            · rename_i hfirst
              rw [rest] at hexists
              exact ⟨w, hlooks hfirst rest, hexists, hnumbered⟩
            · obtain ⟨u, looks, hfound, -⟩ := rest
              exact ⟨u, looks.snoc _, hfound, hnumbered⟩
          · cases taken
            trivial
        · rename_i hfree
          split at taken
          · cases taken
            split at rest
            · rename_i hfirst
              rw [rest] at hfree
              refine ⟨name, w, converts.snoc _, hlooks hfirst rest, ?_⟩
              rw [if_neg hfree]
              exact rest
            · obtain ⟨u, looks, hfound, hnumbered⟩ := rest
              refine ⟨name, u, converts.snoc _, looks.snoc _, ?_⟩
              rw [if_pos hfound]
              exact hnumbered
          · cases taken
            trivial
  | describe _ | allot _ | resetCount _ =>
      simp only [processHandshake] at taken
      cases taken
      exact choosing.snoc _
  | preallocate _ =>
      simp only [processHandshake] at taken
      split at taken
      · cases taken
        exact choosing.snoc _
      · cases taken
        trivial
  | mapWrite _ =>
      simp only [processHandshake] at taken
      split at taken <;> (cases taken; trivial)
  | _ =>
      cases handshakeStep_of_processHandshake taken with
      | searched searching => rcases searching with h | ⟨_, _, _, _, h⟩ <;> cases h
      | _ => trivial

end Targets

section Runs

variable {outputDir : Path} {pin : UInt32} {onProgress : Bool} {disk : List Path}
  {events : List Event} {w : Endpoint}

theorem choosing_run
    (run : (machine P (recvFile outputDir pin onProgress disk)).Run events w) :
    ∀ index hs pc, w.tasks[index]? = some (.handshake hs pc) →
      Choosing P (recvFile outputDir pin onProgress disk) events index hs pc := by
  induction run with
  | start =>
      intro index hs pc found
      cases found
  | @snoc events w w' event prior _ taken ih =>
      intro index hs pc found
      have receiver := receiver_run prior
      rcases handshake_of_step receiver taken found with
        rfl | hold | ⟨ok, pc', v, rfl, hread, hstep⟩
      · trivial
      · exact (ih index hs pc hold).snoc event
      · exact choosing_processHandshake prior receiver.outputDir (own_run prior)
          (ih index hs pc' hread) hread hstep

/-- The path that is passed to `preallocate_file` and `map_write` is an entry of the output
directory exactly if the path of the name existed when the task looked for it, or the name leads to
an entry. -/
theorem contained_iff {index : ℕ} {hs : Handshake} {pc : HandshakePc} {target : Path}
    (converts : P.host.Converts) (anchored : outputDir.Anchored)
    (run : (machine P (recvFile outputDir pin onProgress disk)).Run events w)
    (found : w.tasks[index]? = some (.handshake hs pc))
    (passing : pc = .preallocate target ∨ pc = .mapWrite target) :
    hs.pin = pin ∧ ∃ name u,
      Converts P (recvFile outputDir pin onProgress disk) events index hs name ∧
      Looks P (recvFile outputDir pin onProgress disk) events index hs
        (outputDir.append ⟨name⟩) u ∧
      (target.place.IsEntryOf outputDir.place ↔
        fileExists P u (outputDir.append ⟨name⟩) = true ∨
          (outputDir.destination ⟨name⟩).IsEntryOf outputDir.place) := by
  have hpin : hs.pin = pin := by
    apply (receiver_run run).tasks _ (List.mem_of_getElem? found)
    rcases passing with rfl | rfl <;> exact .inl rfl
  have hchosen : Chosen P (recvFile outputDir pin onProgress disk) events index hs target := by
    have hchoosing := choosing_run run index hs pc found
    rcases passing with rfl | rfl <;> exact hchoosing
  obtain ⟨name, u, hconverts, hlooks, htarget⟩ := hchosen
  refine ⟨hpin, name, u, hconverts, hlooks, ?_⟩
  split at htarget
  · rename_i hexists
    exact iff_of_true (isEntryOf_of_numbered converts anchored htarget) (.inl hexists)
  · rename_i hfree
    change ¬ fileExists P u (outputDir.append ⟨name⟩) = true at hfree
    change target = outputDir.append ⟨name⟩ at htarget
    rw [htarget, Path.place_append anchored, or_iff_right hfree]

end Runs

/-- A conversion of a text whose elements all pass a test goes part by part. -/
theorem convert_append {α β : Type} {test : α → Bool} {convert : α → β} {first second : List α}
    {left right : List β}
    (leftConverted : (if first.all test then some (first.map convert) else none) = some left)
    (rightConverted : (if second.all test then some (second.map convert) else none) = some right) :
    (if (first ++ second).all test then some ((first ++ second).map convert) else none) =
      some (left ++ right) := by
  split at leftConverted
  · split at rightConverted
    · rename_i hfirst hsecond
      rw [List.all_append, hfirst, hsecond, List.map_append, ← Option.some.inj leftConverted,
        ← Option.some.inj rightConverted]
      rfl
    · cases rightConverted
  · cases leftConverted

theorem host_converts : KnownAnswers.host.Converts where
  back := by
    intro text narrow hnarrow
    simp only [KnownAnswers.host] at hnarrow ⊢
    split at hnarrow
    · rename_i hascii
      obtain rfl := Option.some.inj hnarrow
      have hbound : ∀ c ∈ text, c.toNat < 128 := by simpa using hascii
      have hbyte : ∀ c ∈ text, (UInt8.ofNat c.toNat).toNat = c.toNat := by
        intro c hc
        have hlt := hbound c hc
        rw [UInt8.toNat_ofNat', Nat.mod_eq_of_lt (by omega)]
      rw [if_pos, List.map_map, Option.some.injEq]
      · conv_rhs => rw [← List.map_id text]
        apply List.map_congr_left
        intro c hc
        rw [Function.comp_apply, hbyte c hc, Char.ofNat_toNat, id]
      · simp only [List.all_map, List.all_eq_true, Function.comp_apply, decide_eq_true_eq]
        intro c hc
        rw [hbyte c hc]
        exact hbound c hc
    · cases hnarrow
  append := convert_append
  ascii bytes hascii := by
    simp only [KnownAnswers.host]
    rw [if_pos (by simpa using hascii)]

/-- A handshake for a name, with the right pin. -/
def announcing (name : List UInt8) : Handshake :=
  { pin := 123456
    fileSize := 1
    chunkSize := announcedChunkSize
    totalChunks := 1
    fileName := Handshake.nameField name }

/-- That handshake has come as far as the creation of its file. -/
def arrival (name : List UInt8) : List Event :=
  .deliver (announcing name).encode :: KnownAnswers.steps 0 7

theorem contained_iff_of_letter :
    ∃ name u, Looks KnownAnswers.platform KnownAnswers.receiver (arrival [97]) 0 (announcing [97])
        (Path.append ⟨['d']⟩ ⟨name⟩) u ∧
      ((⟨"d\\a".toList⟩ : Path).place.IsEntryOf (⟨['d']⟩ : Path).place ↔
        fileExists KnownAnswers.platform u (Path.append ⟨['d']⟩ ⟨name⟩) = true ∨
          (Path.destination ⟨['d']⟩ ⟨name⟩).IsEntryOf (⟨['d']⟩ : Path).place) := by
  have hfound : (KnownAnswers.session.reached (arrival [97])).tasks[0]? =
      some (.handshake (announcing [97]) (.preallocate ⟨"d\\a".toList⟩)) := by decide +kernel
  obtain ⟨-, name, u, -, hlooks, hiff⟩ := contained_iff host_converts
    (Path.anchored_of_head (by rintro _ ⟨⟩; rfl)) (Machine.run_reached (by decide +kernel)) hfound
    (.inl rfl)
  exact ⟨name, u, hlooks, hiff⟩

/-- The name `..\evil`. -/
def outsideName : List UInt8 :=
  [46, 46, 92, 101, 118, 105, 108]

/-- A handshake with that name and the right pin has a file created outside the output directory. -/
theorem created_outside :
    KnownAnswers.session.Run (arrival outsideName)
        (KnownAnswers.session.reached (arrival outsideName)) ∧
      (KnownAnswers.session.reached (arrival outsideName)).tasks =
        [.handshake (announcing outsideName) (.preallocate ⟨"d\\..\\evil".toList⟩)] ∧
      ¬ (⟨"d\\..\\evil".toList⟩ : Path).place.IsEntryOf (⟨['d']⟩ : Path).place := by
  refine ⟨Machine.run_reached (by decide +kernel), by decide +kernel, ?_⟩
  intro hentry
  have hlength := hentry.length_names
  revert hlength
  decide +kernel

end Endpoint

end Sxaint.Net
