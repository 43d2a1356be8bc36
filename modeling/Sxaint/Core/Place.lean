/-
# Where a path leads

A path leads through the names between its separators: `.` stays, `..` leaves the directory
entered last, every other name enters one. The place it leads to is its text made normal in this
way, as `lexically_normal` does. This is what containment in a directory is about; that
`operator/` looks a name up in a directory is a theorem about the texts.
-/

import Mathlib.Data.List.Induction
import Mathlib.Data.List.TakeWhile
import Mathlib.Tactic.SplitIfs
import Sxaint.Core.Path

namespace Sxaint.Core

/-! ## Places -/

/-- A directory or file, by the names that lead to it from the root or, without one, from
wherever a relative path starts. -/
structure Place where
  rootName : List Char := []
  rooted : Bool := false
  /-- The innermost name first. -/
  names : List (List Char) := []
  deriving DecidableEq, Repr

namespace Place

def here : List Char := ['.']

def parent : List Char := ['.', '.']

def child (place : Place) (name : List Char) : Place :=
  { place with names := name :: place.names }

/-- Follow one name. The root is its own parent; the parents of the start of a relative path
stay in its names. -/
def enter (place : Place) (name : List Char) : Place :=
  if name = here then place
  else if name = parent then
    match place.names with
    | [] => if place.rooted then place else place.child parent
    | last :: outer => if last = parent then place.child parent else { place with names := outer }
  else place.child name

def walk (place : Place) (names : List (List Char)) : Place :=
  names.foldl enter place

theorem walk_append (place : Place) (first second : List (List Char)) :
    place.walk (first ++ second) = (place.walk first).walk second :=
  List.foldl_append

theorem walk_child {place : Place} {name : List Char} (here : name ≠ here)
    (parent : name ≠ parent) : place.walk [name] = place.child name := by
  show place.enter name = place.child name
  rw [enter, if_neg here, if_neg parent]

/-- A place is an entry of a directory. -/
def IsEntryOf (place dir : Place) : Prop :=
  ∃ name, name ≠ parent ∧ place = dir.child name

/-- An entry is one name deeper than its directory. -/
theorem IsEntryOf.length_names {place dir : Place} (entry : place.IsEntryOf dir) :
    place.names.length = dir.names.length + 1 := by
  obtain ⟨name, -, rfl⟩ := entry
  rfl

end Place

namespace Path

/-! ## The names of a path -/

/-- The text between separators. -/
def names (text : List Char) : List (List Char) :=
  (text.splitOnP isSlash).filter (· ≠ [])

theorem names_join {slash : Char} (separates : isSlash slash = true) (first rest : List Char) :
    names (first ++ slash :: rest) = names first ++ names rest := by
  rw [names, List.splitOnP_append_cons first rest separates, List.filter_append]
  rfl

theorem names_of_plain {text : List Char} (nonempty : text ≠ [])
    (plain : ∀ c ∈ text, isSlash c = false) : names text = [text] := by
  rw [names, List.splitOnP_eq_singleton plain, List.filter_cons_of_pos (by simpa using nonempty)]
  rfl

/-- A separator at the end starts no name. -/
theorem names_append_of_slash {first : List Char} (ends : ∀ c ∈ first.getLast?, isSlash c = true)
    (rest : List Char) : names (first ++ rest) = names first ++ names rest := by
  induction first using List.reverseRecOn with
  | nil => rfl
  | append_singleton front last _ =>
      have hlast : isSlash last = true := ends last (by simp)
      rw [List.append_assoc, List.singleton_append, names_join hlast, names_join hlast]
      simp [names]

/-! ## The root of a path -/

def rootName (path : Path) : List Char :=
  path.native.take (rootNameLength path.native)

theorem rootNameLength_le (text : List Char) : rootNameLength text ≤ text.length := by
  rcases text with _ | ⟨a, _ | ⟨b, _ | ⟨c, tail⟩⟩⟩
  · exact Nat.zero_le _
  · exact Nat.zero_le _
  · rw [rootNameLength]
    split_ifs <;> simp
  · have htail := (@List.takeWhile_prefix _ tail (!isSlash ·)).length_le
    simp only [rootNameLength]
    split_ifs <;> simp only [List.length_cons] <;> omega

/-- A name with a server or a device before it starts at a root, and so does one that starts with a
separator. -/
def rooted (path : Path) : Bool :=
  path.hasRootDirectory || decide (3 ≤ rootNameLength path.native)

/-- The place that a path leads to. -/
def place (path : Path) : Place :=
  Place.walk { rootName := path.rootName, rooted := path.rooted } (names path.afterRootName)

/-! ## Looking a name up in a directory -/

/-- A name that `operator/` adds to a directory. -/
structure IsRelativeTo (name dir : Path) : Prop where
  isAbsolute : name.isAbsolute = false
  rootName : name.rootName = [] ∨ name.rootName = dir.rootName
  hasRootDirectory : name.hasRootDirectory = false

/-- No name that is added to the directory becomes a part of its root name. -/
def Anchored (dir : Path) : Prop :=
  ∀ name : Path, name.IsRelativeTo dir →
    rootNameLength (dir.append name).native = rootNameLength dir.native

/-- What stands between a directory and a name that is added to it. -/
inductive Joined (dir : Path) : List Char → Prop
  | /-- Nothing, after a separator. -/
    slash (ends : ∀ c ∈ dir.afterRootName.getLast?, isSlash c = true)
      (nonempty : dir.afterRootName ≠ []) : Joined dir []
  | /-- Nothing, after a drive or at the start. -/
    drive (bare : dir.afterRootName = []) (short : rootNameLength dir.native < 3) : Joined dir []
  | /-- A separator, after a name, a server or a device. -/
    name (deep : dir.afterRootName = [] → 3 ≤ rootNameLength dir.native)
      (unended : ∀ c ∈ dir.afterRootName.getLast?, isSlash c = false) : Joined dir ['\\']

theorem append_of_relative {dir name : Path} (relative : name.IsRelativeTo dir) :
    ∃ slash, Joined dir slash ∧
      (dir.append name).native = dir.native ++ (slash ++ name.afterRootName) := by
  have hroot : ¬ (name.native.take (rootNameLength name.native) ≠ [] ∧
      dir.native.take (rootNameLength dir.native) ≠
        name.native.take (rootNameLength name.native)) := by
    rintro ⟨hnonempty, hother⟩
    rcases relative.rootName with hnone | hsame
    · exact hnonempty hnone
    · exact hother hsame.symm
  have hlength := rootNameLength_le dir.native
  have hbare : dir.afterRootName = [] ↔ dir.native.length = rootNameLength dir.native := by
    rw [afterRootName, List.drop_eq_nil_iff]
    omega
  rw [append]
  simp only [relative.isAbsolute, relative.hasRootDirectory, hroot, Bool.false_eq_true, if_false]
  by_cases hwhole : dir.native.length = rootNameLength dir.native
  · by_cases hshort : rootNameLength dir.native < 3
    · exact ⟨[], .drive (hbare.mpr hwhole) hshort, by simp [hwhole, hshort]⟩
    · refine ⟨['\\'], .name (fun _ => Nat.le_of_not_lt hshort) ?_, by simp [hwhole, hshort]⟩
      rw [hbare.mpr hwhole]
      rintro _ ⟨⟩
  · rw [if_neg hwhole]
    have hnonempty : dir.afterRootName ≠ [] := fun hnil => hwhole (hbare.mp hnil)
    have hlast : dir.native.getLast? = dir.afterRootName.getLast? := by
      rw [afterRootName, List.getLast?_drop, if_neg (by omega)]
    obtain ⟨last, hfound⟩ := Option.ne_none_iff_exists'.mp
      (mt List.getLast?_eq_none_iff.mp hnonempty)
    rw [hlast, hfound, Option.map_some, Option.getD_some]
    have hends (b : Bool) (h : isSlash last = b) : ∀ c ∈ dir.afterRootName.getLast?,
        isSlash c = b := by
      intro c hc
      rw [hfound] at hc
      cases hc
      exact h
    cases hslash : isSlash last with
    | true => exact ⟨[], .slash (hends true hslash) hnonempty, rfl⟩
    | false =>
        exact ⟨['\\'], .name (fun hnil => (hnonempty hnil).elim) (hends false hslash), rfl⟩

theorem hasRootDirectory_of_afterRootName {first second : Path}
    (same : first.afterRootName.head? = second.afterRootName.head?) :
    first.hasRootDirectory = second.hasRootDirectory := by
  have hread (path : Path) :
      path.hasRootDirectory = (path.afterRootName.head?.map isSlash).getD false := by
    rw [hasRootDirectory]
    cases path.afterRootName <;> rfl
  rw [hread, hread, same]

/-- A name that is added to a directory is followed from there. -/
theorem place_append_of_relative {dir name : Path} (anchored : dir.Anchored)
    (relative : name.IsRelativeTo dir) :
    (dir.append name).place = dir.place.walk (names name.afterRootName) := by
  obtain ⟨slash, joined, hnative⟩ := append_of_relative relative
  have hlength := anchored name relative
  have hle := rootNameLength_le dir.native
  have hrootName : (dir.append name).rootName = dir.rootName := by
    rw [rootName, hlength, hnative, List.take_append_of_le_length hle, rootName]
  have hafter : (dir.append name).afterRootName =
      dir.afterRootName ++ (slash ++ name.afterRootName) := by
    rw [afterRootName, hlength, hnative, List.drop_append_of_le_length hle, ← afterRootName]
  have hrooted : (dir.append name).rooted = dir.rooted := by
    rw [rooted, rooted, hlength]
    by_cases hbare : dir.afterRootName = []
    · cases joined with
      | slash _ nonempty => exact (nonempty hbare).elim
      | drive _ _ =>
          have hhead : (dir.append name).hasRootDirectory = name.hasRootDirectory := by
            apply hasRootDirectory_of_afterRootName
            rw [hafter, hbare]
            rfl
          rw [hhead, relative.hasRootDirectory, hasRootDirectory, hbare]
      | name deep _ => simp [deep hbare]
    · have hhead : (dir.append name).hasRootDirectory = dir.hasRootDirectory := by
        apply hasRootDirectory_of_afterRootName
        rw [hafter, List.head?_append_of_ne_nil _ hbare]
      rw [hhead]
  have hnames : names (dir.append name).afterRootName =
      names dir.afterRootName ++ names name.afterRootName := by
    rw [hafter]
    cases joined with
    | slash ends _ => exact names_append_of_slash ends _
    | drive bare _ =>
        rw [bare]
        rfl
    | name _ _ => exact names_join rfl _ _
  rw [place, hrootName, hrooted, hnames, Place.walk_append, ← place]

/-- A directory that does not start with a separator is anchored. -/
theorem anchored_of_head {dir : Path} (head : ∀ c ∈ dir.native.head?, isSlash c = false) :
    dir.Anchored := by
  intro name relative
  obtain ⟨slash, joined, hnative⟩ := append_of_relative relative
  rw [hnative]
  rcases dir with ⟨_ | ⟨a, _ | ⟨b, rest⟩⟩⟩
  · have hroot : name.rootName = [] := relative.rootName.elim id id
    have hnone : rootNameLength name.native = 0 := by
      have hle := rootNameLength_le name.native
      rw [rootName, List.take_eq_nil_iff] at hroot
      rcases hroot with hzero | hnil
      · exact hzero
      · rw [hnil]
        rfl
    have hall : name.afterRootName = name.native := by
      rw [afterRootName, hnone, List.drop_zero]
    cases joined with
    | slash _ nonempty => exact (nonempty rfl).elim
    | drive _ _ =>
        rw [hall]
        exact hnone
    | name deep _ => exact (Nat.not_succ_le_zero _ (deep rfl)).elim
  · have ha : isSlash a = false := head a rfl
    cases joined with
    | slash ends _ =>
        have hslash : isSlash a = true := ends a rfl
        rw [ha] at hslash
        cases hslash
    | drive bare _ => cases bare
    | name _ _ => simp [rootNameLength, ha]
  · have ha : isSlash a = false := head a rfl
    simp [rootNameLength, ha]

/-- The text after a device prefix closes it. -/
def closes : List Char → Bool
  | [] => false
  | [d] => isSlash d
  | d :: e :: _ => isSlash d && !isSlash e

theorem isDriveLetter_of_slash {a : Char} (slash : isSlash a = true) :
    isDriveLetter a = false := by
  rw [isSlash, Bool.or_eq_true, beq_iff_eq, beq_iff_eq] at slash
  rcases slash with rfl | rfl <;> rfl

/-- The root name of a path that starts with a separator. -/
theorem rootNameLength_of_slash {a : Char} (slash : isSlash a = true) (b c : Char)
    (tail : List Char) :
    rootNameLength (a :: b :: c :: tail) =
      if (isSlash b && (c == '?' || c == '.') || b == '?' && c == '?') && closes tail then 3
      else if isSlash b && !isSlash c then 3 + (tail.takeWhile (!isSlash ·)).length
      else 0 := by
  have hletter := isDriveLetter_of_slash slash
  rcases tail with _ | ⟨d, _ | ⟨e, tail⟩⟩ <;> simp [rootNameLength, closes, hletter, slash]

/-- A name that is added is not a part of the name of a server. -/
theorem takeWhile_join {a b c : Char} {tail slash : List Char} (rest : List Char)
    (server : rootNameLength (a :: b :: c :: tail) = 3 + (tail.takeWhile (!isSlash ·)).length)
    (joined : Joined ⟨a :: b :: c :: tail⟩ slash) :
    (tail ++ (slash ++ rest)).takeWhile (!isSlash ·) = tail.takeWhile (!isSlash ·) := by
  rw [List.takeWhile_append]
  by_cases hwhole : (tail.takeWhile (!isSlash ·)).length = tail.length
  · have hbare : afterRootName ⟨a :: b :: c :: tail⟩ = [] := by
      rw [afterRootName, server, hwhole, List.drop_eq_nil_iff]
      simp only [List.length_cons]
      omega
    rw [if_pos hwhole]
    cases joined with
    | slash _ nonempty => exact (nonempty hbare).elim
    | drive _ short =>
        rw [server] at short
        omega
    | name _ _ =>
        rw [(List.takeWhile_prefix _).eq_of_length hwhole]
        simp [isSlash]
  · rw [if_neg hwhole]

/-- A name that is added does not change what closes a device prefix, nor the name of a server. -/
theorem rootNameLength_join {a b c : Char} {tail slash : List Char} {name : Path}
    (separator : isSlash a = true) (found : rootNameLength (a :: b :: c :: tail) ≠ 0)
    (joined : Joined ⟨a :: b :: c :: tail⟩ slash) (relative : name.hasRootDirectory = false) :
    rootNameLength (a :: b :: c :: tail ++ (slash ++ name.afterRootName)) =
      rootNameLength (a :: b :: c :: tail) := by
  have hstart : ∀ e rest, name.afterRootName = e :: rest → isSlash e = false := by
    intro e rest hrest
    rw [hasRootDirectory, hrest] at relative
    exact relative
  have hroot := rootNameLength_of_slash separator b c tail
  rw [hroot] at found
  rw [List.cons_append, List.cons_append, List.cons_append, rootNameLength_of_slash separator,
    hroot]
  generalize hdevice : (isSlash b && (c == '?' || c == '.') || b == '?' && c == '?') = device
    at found hroot ⊢
  have hbackslash : isSlash '\\' = true := rfl
  rcases tail with _ | ⟨d, _ | ⟨e, tail⟩⟩
  · -- the directory is a server or device and no more
    have hserver : (isSlash b && !isSlash c) = true := by
      by_contra hnot
      simp [closes, hnot] at found
    simp only [closes, Bool.and_false, Bool.false_eq_true, if_false, if_pos hserver,
      List.takeWhile_nil, List.length_nil, Nat.add_zero] at hroot
    cases joined with
    | slash _ nonempty =>
        rw [afterRootName, hroot] at nonempty
        exact (nonempty rfl).elim
    | drive _ short =>
        rw [hroot] at short
        exact (Nat.lt_irrefl _ short).elim
    | name _ _ => simp [hserver, hbackslash, closes]
  · cases hd : isSlash d with
    | true =>
        -- the separator at the end closes the device or ends the server
        simp only [closes, hd, Bool.and_true, List.takeWhile_cons, Bool.not_true,
          Bool.false_eq_true, if_false, List.length_nil, Nat.add_zero] at found hroot ⊢
        have hthree : rootNameLength [a, b, c, d] = 3 := by
          rw [hroot]
          split_ifs at found ⊢
          · rfl
          · rfl
          · exact (found rfl).elim
        have hslash : slash = [] := by
          cases joined with
          | slash _ _ | drive _ _ => rfl
          | name _ unended =>
              rw [afterRootName, hthree] at unended
              have hopen := unended d rfl
              rw [hd] at hopen
              cases hopen
        subst hslash
        rcases hrel : name.afterRootName with _ | ⟨e, rest⟩
        · simp [hd]
        · simp [hd, hstart e rest hrel]
    | false =>
        have hclosed (rest : List Char) : closes (d :: rest) = false := by
          cases rest <;> simp [closes, hd]
        have hserver : (isSlash b && !isSlash c) = true := by
          by_contra hnot
          simp [closes, hd, hnot] at found
        rw [hclosed, Bool.and_false, if_neg Bool.false_ne_true, if_pos hserver] at hroot
        rw [List.cons_append, List.nil_append, hclosed, hclosed, Bool.and_false,
          if_neg Bool.false_ne_true, if_neg Bool.false_ne_true, if_pos hserver, if_pos hserver,
          ← List.singleton_append, takeWhile_join _ hroot joined]
  · have hclosed (rest : List Char) : closes (d :: e :: tail ++ rest) = closes (d :: e :: tail) :=
      rfl
    rw [hclosed]
    split_ifs at hroot ⊢ with hdevice hserver
    · rfl
    · rw [takeWhile_join _ hroot joined]
    · rfl

/-- An absolute directory is anchored. -/
theorem anchored_of_isAbsolute {dir : Path} (absolute : dir.isAbsolute = true) :
    dir.Anchored := by
  by_cases hhead : ∀ c ∈ dir.native.head?, isSlash c = false
  · exact anchored_of_head hhead
  intro name relative
  obtain ⟨slash, joined, hnative⟩ := append_of_relative relative
  rw [hnative]
  rcases dir with ⟨_ | ⟨a, rest⟩⟩
  · exact (hhead (by rintro _ ⟨⟩)).elim
  · have ha : isSlash a = true := by
      by_contra hother
      apply hhead
      rintro c ⟨⟩
      exact Bool.not_eq_true _ ▸ hother
    have hletter : isDriveLetter a = false := isDriveLetter_of_slash ha
    have hfound : rootNameLength (a :: rest) ≠ 0 := by
      rw [isAbsolute] at absolute
      split at absolute
      · rename_i heq
        cases heq
        rw [hletter] at absolute
        simpa using absolute
      · simpa using absolute
    rcases rest with _ | ⟨b, _ | ⟨c, tail⟩⟩
    · exact (hfound rfl).elim
    · simp [rootNameLength, hletter, ha] at hfound
    · exact rootNameLength_join ha hfound joined relative.hasRootDirectory

/-- Where a name leads that is looked up in a directory: one that is absolute or on another drive
where it says, one with a root directory from the directory's root, any other from the directory. -/
def destination (dir name : Path) : Place :=
  if name.isAbsolute ∨ (name.rootName ≠ [] ∧ name.rootName ≠ dir.rootName) then name.place
  else if name.hasRootDirectory then place ⟨dir.rootName ++ name.afterRootName⟩
  else dir.place.walk (names name.afterRootName)

theorem place_append {dir : Path} (anchored : dir.Anchored) (name : Path) :
    (dir.append name).place = dir.destination name := by
  rw [destination]
  by_cases habsolute : name.isAbsolute = true
  · rw [if_pos (.inl habsolute), append, if_pos habsolute]
  by_cases hother : name.rootName ≠ [] ∧ name.rootName ≠ dir.rootName
  · rw [if_pos (.inr hother), append, if_neg habsolute, if_pos ⟨hother.1, hother.2.symm⟩]
  rw [if_neg (by tauto)]
  by_cases hroot : name.hasRootDirectory = true
  · rw [if_pos hroot, append, if_neg habsolute, if_neg ?_, if_pos hroot]
    · rfl
    · rintro ⟨hnonempty, hne⟩
      exact hother ⟨hnonempty, hne.symm⟩
  · rw [if_neg hroot]
    refine place_append_of_relative anchored ⟨Bool.not_eq_true _ ▸ habsolute, ?_,
      Bool.not_eq_true _ ▸ hroot⟩
    by_cases hnone : name.rootName = []
    · exact .inl hnone
    · exact .inr (not_not.mp fun hne => hother ⟨hnone, hne⟩)

/-! ## Plain names -/

/-- A text with no separator, drive or stream in it. -/
def Plain (text : List Char) : Prop :=
  ∀ c ∈ text, isSlash c = false ∧ c ≠ ':'

instance (text : List Char) : Decidable (Plain text) :=
  List.decidableBAll _ text

theorem Plain.append {first second : List Char} (left : Plain first) (right : Plain second) :
    Plain (first ++ second) := by
  intro c hc
  rcases List.mem_append.mp hc with hleft | hright
  · exact left c hleft
  · exact right c hright

theorem rootNameLength_of_plain {text : List Char} (plain : Plain text) :
    rootNameLength text = 0 := by
  rcases text with _ | ⟨a, _ | ⟨b, rest⟩⟩
  · rfl
  · rfl
  · have ha := (plain a List.mem_cons_self).1
    have hb := (plain b (List.mem_cons_of_mem _ List.mem_cons_self)).2
    simp [rootNameLength, ha, hb]

theorem afterRootName_of_plain {text : List Char} (plain : Plain text) :
    afterRootName ⟨text⟩ = text := by
  rw [afterRootName, rootNameLength_of_plain plain, List.drop_zero]

theorem isRelativeTo_of_plain {text : List Char} (plain : Plain text) (dir : Path) :
    IsRelativeTo ⟨text⟩ dir := by
  have hroot := rootNameLength_of_plain plain
  refine ⟨?_, .inl ?_, ?_⟩
  · rw [isAbsolute]
    split
    · rename_i a rest heq
      obtain rfl : text = a :: ':' :: rest := heq
      exact ((plain ':' (List.mem_cons_of_mem _ List.mem_cons_self)).2 rfl).elim
    · simp [hroot]
  · rw [rootName, hroot, List.take_zero]
  · rw [hasRootDirectory, afterRootName_of_plain plain]
    cases text with
    | nil => rfl
    | cons c _ => exact (plain c List.mem_cons_self).1

/-- A plain name leads to an entry of the directory it is looked up in. -/
theorem place_append_of_plain {dir : Path} {text : List Char} (anchored : dir.Anchored)
    (plain : Plain text) (nonempty : text ≠ []) (here : text ≠ Place.here)
    (parent : text ≠ Place.parent) : (dir.append ⟨text⟩).place = dir.place.child text := by
  rw [place_append_of_relative anchored (isRelativeTo_of_plain plain dir),
    afterRootName_of_plain plain, names_of_plain nonempty fun c hc => (plain c hc).1,
    Place.walk_child here parent]

/-- A plain name that is added to a directory is the file name of the path. -/
theorem filename_append_of_plain {dir : Path} {text : List Char} (anchored : dir.Anchored)
    (plain : Plain text) : (dir.append ⟨text⟩).filename = text := by
  have relative := isRelativeTo_of_plain plain dir
  obtain ⟨slash, joined, hnative⟩ := append_of_relative relative
  rw [afterRootName_of_plain plain] at hnative
  have hafter : (dir.append ⟨text⟩).afterRootName = (dir.afterRootName ++ slash) ++ text := by
    rw [afterRootName, anchored _ relative, hnative,
      List.drop_append_of_le_length (rootNameLength_le _), ← afterRootName, List.append_assoc]
  have hends : ∀ c ∈ (dir.afterRootName ++ slash).getLast?, isSlash c = true := by
    cases joined with
    | slash ends _ => simpa using ends
    | drive bare _ =>
        rw [bare]
        rintro _ ⟨⟩
    | name _ _ =>
        intro c hc
        rw [List.getLast?_concat] at hc
        cases hc
        rfl
  have hsingle : ∀ c ∈ text.reverse, (!isSlash c) = true := by
    intro c hc
    rw [(plain c (List.mem_reverse.mp hc)).1, Bool.not_false]
  rw [filename, hafter, List.dropWhile_append]
  split
  · have hnone : text.dropWhile isSlash = text := by
      cases text with
      | nil => rfl
      | cons c _ =>
          rw [List.dropWhile_cons, (plain c List.mem_cons_self).1, if_neg Bool.false_ne_true]
    rw [hnone, List.takeWhile_eq_self_iff.mpr hsingle, List.reverse_reverse]
  · rename_i hleft
    obtain ⟨slashes, hslashes⟩ := @List.dropWhile_suffix _ (dir.afterRootName ++ slash) isSlash
    rcases List.eq_nil_or_concat ((dir.afterRootName ++ slash).dropWhile isSlash) with
      hnil | ⟨front, c, hfront⟩
    · rw [hnil] at hleft
      exact (hleft rfl).elim
    · rw [List.concat_eq_append] at hfront
      have hc : isSlash c = true := by
        apply hends
        rw [← hslashes, hfront, ← List.append_assoc, List.getLast?_concat]
        rfl
      rw [hfront, List.reverse_append, List.takeWhile_append_of_pos hsingle, List.reverse_concat,
        List.takeWhile_cons_of_neg (by simp [hc]), List.append_nil, List.reverse_reverse]

/-- The stem of a plain name and its extension are the whole name. -/
theorem splitExtension_of_plain {text : List Char} (plain : Plain text) :
    (splitExtension text).1 ++ (splitExtension text).2 = text := by
  have hwhole : text.takeWhile (· != ':') = text := by
    apply List.takeWhile_eq_self_iff.mpr
    intro c hc
    simpa using (plain c hc).2
  rw [splitExtension, hwhole]
  split
  · exact List.take_append_drop _ _
  · exact List.append_nil _

theorem plain_splitExtension {name : List Char} (single : ∀ c ∈ name, isSlash c = false) :
    Plain (splitExtension name).1 ∧ Plain (splitExtension name).2 := by
  have hplain : Plain (name.takeWhile (· != ':')) := by
    intro c hc
    have hstream := List.mem_takeWhile_imp hc
    exact ⟨single c ((List.takeWhile_prefix _).subset hc), by simpa using hstream⟩
  rw [splitExtension]
  split
  · exact ⟨fun c hc => hplain c (List.mem_of_mem_take hc),
      fun c hc => hplain c (List.mem_of_mem_drop hc)⟩
  · exact ⟨hplain, by rintro _ ⟨⟩⟩

theorem not_isSlash_of_mem_filename {path : Path} : ∀ c ∈ path.filename, isSlash c = false := by
  intro c hc
  rw [filename, List.mem_reverse] at hc
  simpa using List.mem_takeWhile_imp hc

theorem plain_stem (path : Path) : Plain path.stem :=
  (plain_splitExtension not_isSlash_of_mem_filename).1

theorem plain_extension (path : Path) : Plain path.extension :=
  (plain_splitExtension not_isSlash_of_mem_filename).2

end Path

end Sxaint.Core
