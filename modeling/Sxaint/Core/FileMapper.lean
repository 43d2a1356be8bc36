/-
# Mapped files

`FileMapper` owns a file handle, a mapping handle and a mapped view, and releases them in
`cleanup`. Handles and views are addresses that the system gives out again once they are released.
The objects of a program are created, used, moved and destroyed in any order, and each of the three
acquisitions may fail. What the objects hold is an exact account of what is open, so that nothing is
released twice and nothing stays open.
-/

import Sxaint.Core.Path
import Sxaint.Machine.Ledger
import Sxaint.Machine.Run

namespace Sxaint.Core

open Transition

/-! ## The system -/

/-- `INVALID_HANDLE_VALUE`. -/
def invalidHandle : UInt64 := 0xFFFFFFFFFFFFFFFF

/-- What `map_read` and `map_write` pass to the system, and their error texts. -/
structure MapMode where
  desiredAccess : UInt32
  shareMode : UInt32
  creationDisposition : UInt32
  protect : UInt32
  viewAccess : UInt32
  openError : String
  mappingError : String
  viewError : String

/-- The answers of the system to the calls of one operation. A failed call answers with the invalid
handle or with a null pointer. -/
structure Windows where
  createFileW : Path → UInt32 → UInt32 → UInt32 → UInt64
  createFileMappingW : UInt64 → UInt32 → UInt64
  mapViewOfFile : UInt64 → UInt32 → UInt64 → ℕ → UInt64

/-- The open handles of the process, of files and of mappings, and its mapped views. -/
structure OpenResources where
  handles : Ledger UInt64 := {}
  views : Ledger UInt64 := {}

/-! ## The code -/

structure FileMapper where
  fileHandle : UInt64 := invalidHandle
  mappingHandle : UInt64 := 0
  mappedView : UInt64 := 0
  mappedLength : ℕ := 0
  deriving DecidableEq, Repr

namespace FileMapper

/-- `FlushViewOfFile` and `UnmapViewOfFile` of the view, if there is one. -/
def cleanupView (mapper : FileMapper) (system : OpenResources) : FileMapper × OpenResources :=
  if mapper.mappedView ≠ 0 then
    ({ mapper with mappedView := 0 },
      { system with
        views := (system.views.use mapper.mappedView).release mapper.mappedView })
  else (mapper, system)

/-- `CloseHandle` of the mapping, if there is one. -/
def cleanupMapping (mapper : FileMapper) (system : OpenResources) : FileMapper × OpenResources :=
  if mapper.mappingHandle ≠ 0 then
    ({ mapper with mappingHandle := 0 },
      { system with handles := system.handles.release mapper.mappingHandle })
  else (mapper, system)

/-- `CloseHandle` of the file, if there is one. -/
def cleanupFile (mapper : FileMapper) (system : OpenResources) : FileMapper × OpenResources :=
  if mapper.fileHandle ≠ invalidHandle then
    ({ mapper with fileHandle := invalidHandle },
      { system with handles := system.handles.release mapper.fileHandle })
  else (mapper, system)

def cleanup (mapper : FileMapper) (system : OpenResources) : FileMapper × OpenResources :=
  let (mapper, system) := mapper.cleanupView system
  let (mapper, system) := mapper.cleanupMapping system
  let (mapper, system) := mapper.cleanupFile system
  ({ mapper with mappedLength := 0 }, system)

/-- The common body of `map_read` and `map_write`: the text of the exception or the mapped span, and
what the object and the system are left with. There is no result if the system would answer with an
address that is in use. -/
def map (mode : MapMode) (win : Windows) (path : Path) (offset : UInt64) (length : ℕ)
    (mapper : FileMapper) (system : OpenResources) :
    Option (Except String (UInt64 × ℕ) × FileMapper × OpenResources) :=
  let (mapper, system) := mapper.cleanup system
  let file := win.createFileW path mode.desiredAccess mode.shareMode mode.creationDisposition
  let mapper := { mapper with fileHandle := file }
  if file = invalidHandle then some (.error mode.openError, mapper, system)
  else
    (system.handles.acquire file).bind fun handles =>
      let system := { system with handles := handles }
      let mapping := win.createFileMappingW file mode.protect
      let mapper := { mapper with mappingHandle := mapping }
      if mapping = 0 then some (.error mode.mappingError, mapper, system)
      else
        (system.handles.acquire mapping).bind fun handles =>
          let system := { system with handles := handles }
          let view := win.mapViewOfFile mapping mode.viewAccess offset length
          let mapper := { mapper with mappedView := view }
          if view = 0 then some (.error mode.viewError, mapper, system)
          else
            (system.views.acquire view).map fun views =>
              (.ok (view, length), { mapper with mappedLength := length },
                { system with views := views })

/-- `GENERIC_READ`, `FILE_SHARE_READ`, `OPEN_EXISTING`, `PAGE_READONLY` and `FILE_MAP_READ`. -/
def readMode : MapMode where
  desiredAccess := 0x80000000
  shareMode := 1
  creationDisposition := 3
  protect := 2
  viewAccess := 4
  openError := "Failed to open file for reading"
  mappingError := "failed to create file mapping"
  viewError := "Failed to map view of file"

/-- `GENERIC_READ | GENERIC_WRITE`, all of `FILE_SHARE`, `OPEN_ALWAYS`, `PAGE_READWRITE` and
`FILE_MAP_WRITE`. -/
def writeMode : MapMode where
  desiredAccess := 0xC0000000
  shareMode := 7
  creationDisposition := 4
  protect := 4
  viewAccess := 2
  openError := "failed to create file mapping"
  mappingError := "failed to create file mapping"
  viewError := "failed to map the view of file"

def mapRead (win : Windows) (path : Path) (offset : UInt64) (length : ℕ) :=
  map readMode win path offset length

def mapWrite (win : Windows) (path : Path) (offset : UInt64) (length : ℕ) :=
  map writeMode win path offset length

def unmap (mapper : FileMapper) (system : OpenResources) : FileMapper × OpenResources :=
  mapper.cleanup system

/-- Move assignment between different objects: the target, the source and the system afterwards. -/
def moveFrom (target source : FileMapper) (system : OpenResources) :
    FileMapper × FileMapper × OpenResources :=
  let (target, system) := target.cleanup system
  ({ target with
      fileHandle := source.fileHandle
      mappingHandle := source.mappingHandle
      mappedView := source.mappedView
      mappedLength := source.mappedLength },
    { source with
      fileHandle := invalidHandle
      mappingHandle := 0
      mappedView := 0
      mappedLength := 0 },
    system)

end FileMapper

/-! ## Programs with several objects -/

/-- The objects in the order of their construction, destroyed ones as nothing. -/
structure Mappers where
  objects : List (Option FileMapper) := []
  system : OpenResources := {}

/-- An operation on an object. -/
inductive MapperOperation
  | construct
  | mapRead (index : ℕ) (win : Windows) (path : Path) (offset : UInt64) (length : ℕ)
  | mapWrite (index : ℕ) (win : Windows) (path : Path) (offset : UInt64) (length : ℕ)
  | unmap (index : ℕ)
  | moveConstruct (source : ℕ)
  | moveAssign (target source : ℕ)
  | destroy (index : ℕ)

namespace Mappers

/-- An object that was constructed and not destroyed. -/
def get? (w : Mappers) (index : ℕ) : Option FileMapper :=
  (w.objects[index]?).join

/-- The objects and the system after an operation on one object. -/
def put (w : Mappers) (index : ℕ) (mapper : Option FileMapper) (system : OpenResources) :
    Mappers :=
  { objects := w.objects.set index mapper, system := system }

def step (operation : MapperOperation) (w : Mappers) : Option Mappers :=
  match operation with
  | .construct => some { w with objects := w.objects ++ [some {}] }
  | .mapRead index win path offset length =>
    (w.get? index).bind fun mapper =>
      (mapper.mapRead win path offset length w.system).map fun (_, mapper, system) =>
        w.put index (some mapper) system
  | .mapWrite index win path offset length =>
    (w.get? index).bind fun mapper =>
      (mapper.mapWrite win path offset length w.system).map fun (_, mapper, system) =>
        w.put index (some mapper) system
  | .unmap index =>
    (w.get? index).map fun mapper =>
      let (mapper, system) := mapper.unmap w.system
      w.put index (some mapper) system
  | .moveConstruct index =>
    -- the new object has its default members when it is assigned to
    (w.get? index).map fun source =>
      let (target, source, system) := FileMapper.moveFrom {} source w.system
      let w := w.put index (some source) system
      { w with objects := w.objects ++ [some target] }
  | .moveAssign target source =>
    if target = source then (w.get? target).map fun _ => w
    else
      (w.get? target).bind fun first => (w.get? source).map fun second =>
        let (first, second, system) := first.moveFrom second w.system
        (w.put target (some first) system).put source (some second) system
  | .destroy index =>
    (w.get? index).map fun mapper =>
      let (_, system) := mapper.cleanup w.system
      w.put index none system

/-- Programs start without objects. -/
def machine : Machine Mappers MapperOperation where
  init := {}
  step := step

end Mappers

namespace FileMapper

/-! ## What an object holds -/

/-- The handles that an object has to close, in the order in which it does. -/
def handles (mapper : FileMapper) : List UInt64 :=
  (if mapper.mappingHandle ≠ 0 then [mapper.mappingHandle] else []) ++
    if mapper.fileHandle ≠ invalidHandle then [mapper.fileHandle] else []

def views (mapper : FileMapper) : List UInt64 :=
  if mapper.mappedView ≠ 0 then [mapper.mappedView] else []

/-- A view has its mapping and its file in the same object. -/
def Nested (mapper : FileMapper) : Prop :=
  mapper.mappedView ≠ 0 → mapper.mappingHandle ≠ 0 ∧ mapper.fileHandle ≠ invalidHandle

theorem nested_default : Nested {} := fun h => (h rfl).elim

end FileMapper

/-- The open resources are those of the holders. -/
structure OpenResources.Held (system : OpenResources) (handles views : List UInt64) : Prop where
  handles : system.handles.Accounts handles
  views : system.views.Accounts views

namespace FileMapper

section Operations

variable {mapper : FileMapper} {system : OpenResources} {handles views : List UInt64}

/-! ## One operation -/

@[simp] theorem mappingHandle_cleanupView :
    (mapper.cleanupView system).1.mappingHandle = mapper.mappingHandle := by
  rw [cleanupView]
  split <;> rfl

@[simp] theorem fileHandle_cleanupView :
    (mapper.cleanupView system).1.fileHandle = mapper.fileHandle := by
  rw [cleanupView]
  split <;> rfl

@[simp] theorem fileHandle_cleanupMapping :
    (mapper.cleanupMapping system).1.fileHandle = mapper.fileHandle := by
  rw [cleanupMapping]
  split <;> rfl

theorem held_cleanupView (held : system.Held handles (mapper.views ++ views)) :
    (mapper.cleanupView system).2.Held handles views := by
  have hviews := held.views
  rw [FileMapper.views] at hviews
  rw [cleanupView]
  split
  · rename_i hmapped
    rw [if_pos hmapped] at hviews
    exact ⟨held.handles, hviews.use.release⟩
  · rename_i hnone
    rw [if_neg hnone] at hviews
    exact ⟨held.handles, hviews⟩

theorem held_cleanupMapping
    (held : system.Held
      ((if mapper.mappingHandle ≠ 0 then [mapper.mappingHandle] else []) ++ handles) views) :
    (mapper.cleanupMapping system).2.Held handles views := by
  have hhandles := held.handles
  rw [cleanupMapping]
  split
  · rename_i hmapping
    rw [if_pos hmapping] at hhandles
    exact ⟨hhandles.release, held.views⟩
  · rename_i hnone
    rw [if_neg hnone] at hhandles
    exact ⟨hhandles, held.views⟩

theorem held_cleanupFile
    (held : system.Held
      ((if mapper.fileHandle ≠ invalidHandle then [mapper.fileHandle] else []) ++ handles) views) :
    (mapper.cleanupFile system).2.Held handles views := by
  have hhandles := held.handles
  rw [cleanupFile]
  split
  · rename_i hfile
    rw [if_pos hfile] at hhandles
    exact ⟨hhandles.release, held.views⟩
  · rename_i hnone
    rw [if_neg hnone] at hhandles
    exact ⟨hhandles, held.views⟩

/-- Cleaning up releases what the object holds and nothing else. -/
theorem held_cleanup
    (held : system.Held (mapper.handles ++ handles) (mapper.views ++ views)) :
    (mapper.cleanup system).1 = {} ∧ (mapper.cleanup system).2.Held handles views := by
  constructor
  · simp only [cleanup, cleanupView, cleanupMapping, cleanupFile]
    grind
  · have hview := held_cleanupView held
    rw [FileMapper.handles, List.append_assoc, ← @mappingHandle_cleanupView mapper system,
      ← @fileHandle_cleanupView mapper system] at hview
    rw [cleanup]
    generalize mapper.cleanupView system = viewed at hview
    obtain ⟨viewless, system⟩ := viewed
    have hmapping := held_cleanupMapping hview
    rw [← @fileHandle_cleanupMapping viewless system] at hmapping
    dsimp only
    generalize viewless.cleanupMapping system = mapped at hmapping
    obtain ⟨unmapped, system⟩ := mapped
    have hfile := held_cleanupFile hmapping
    dsimp only
    generalize unmapped.cleanupFile system = closed at hfile
    exact hfile

/-- Mapping leaves the object with what the calls have obtained so far. -/
theorem held_map {mode : MapMode} {win : Windows} {path : Path} {offset : UInt64} {length : ℕ}
    {result : Except String (UInt64 × ℕ)} {mapper' : FileMapper} {system' : OpenResources}
    (held : system.Held (mapper.handles ++ handles) (mapper.views ++ views))
    (taken : map mode win path offset length mapper system = some (result, mapper', system')) :
    system'.Held (mapper'.handles ++ handles) (mapper'.views ++ views) ∧ mapper'.Nested := by
  obtain ⟨hclean, hheld⟩ := held_cleanup held
  rw [map] at taken
  simp only [hclean] at taken
  generalize (mapper.cleanup system).2 = system at hheld taken
  split at taken
  · rename_i hfailed
    cases taken
    simp only [hfailed]
    exact ⟨hheld, fun h => (h rfl).elim⟩
  rename_i hfile
  obtain ⟨opened, hopened, taken⟩ := Option.bind_eq_some_iff.mp taken
  have hfileHeld := hheld.handles.acquire hopened
  split at taken
  · rename_i hfailed
    cases taken
    refine ⟨⟨?_, hheld.views⟩, fun h => (h rfl).elim⟩
    simpa [FileMapper.handles, hfailed, hfile] using hfileHeld
  rename_i hmapping
  obtain ⟨mapped, hmapped, taken⟩ := Option.bind_eq_some_iff.mp taken
  have hmappingHeld := hfileHeld.acquire hmapped
  split at taken
  · rename_i hfailed
    cases taken
    refine ⟨⟨?_, ?_⟩, fun h => (h hfailed).elim⟩
    · simpa [FileMapper.handles, hmapping, hfile] using hmappingHeld
    · simpa [FileMapper.views, hfailed] using hheld.views
  rename_i hview
  obtain ⟨viewed, hviewed, taken⟩ := Option.map_eq_some_iff.mp taken
  cases taken
  refine ⟨⟨?_, ?_⟩, fun _ => ⟨hmapping, hfile⟩⟩
  · simpa [FileMapper.handles, hmapping, hfile] using hmappingHeld
  · simpa [FileMapper.views, hview] using hheld.views.acquire hviewed

end Operations

end FileMapper

namespace Mappers

/-! ## All objects -/

/-- What all objects together hold. -/
def holds (part : FileMapper → List UInt64) (objects : List (Option FileMapper)) : List UInt64 :=
  objects.flatMap fun object => object.elim [] part

/-- One object holds its part, and the others what they hold whatever becomes of that one. -/
theorem exists_rest {w : Mappers} {index : ℕ} {mapper : FileMapper}
    (found : w.get? index = some mapper) (part : FileMapper → List UInt64) :
    ∃ rest, (holds part w.objects).Perm (part mapper ++ rest) ∧
      ∀ object : Option FileMapper,
        (holds part (w.objects.set index object)).Perm (object.elim [] part ++ rest) := by
  have hobject : w.objects[index]? = some (some mapper) := Option.join_eq_some_iff.mp found
  obtain ⟨hinside, hget⟩ := List.getElem?_eq_some_iff.mp hobject
  have hsplit (object : Option FileMapper) :
      (holds part (w.objects.set index object)).Perm (object.elim [] part ++
        holds part (w.objects.take index ++ w.objects.drop (index + 1))) := by
    rw [List.set_eq_take_append_cons_drop, if_pos hinside]
    simp only [holds, List.flatMap_append, List.flatMap_cons]
    exact List.perm_append_comm_assoc _ _ _
  refine ⟨_, ?_, hsplit⟩
  have hself : w.objects.set index (some mapper) = w.objects := by
    rw [← hget, List.set_getElem_self]
  have hheld := hsplit (some mapper)
  rwa [hself] at hheld

/-- The objects hold exactly what is open. -/
structure Exact (w : Mappers) : Prop where
  held : w.system.Held (holds FileMapper.handles w.objects) (holds FileMapper.views w.objects)
  nested : ∀ mapper, some mapper ∈ w.objects → mapper.Nested

/-- An operation on one object keeps the account if it keeps that object's part of it. -/
theorem Exact.put {w : Mappers} {index : ℕ} {mapper : FileMapper} {object : Option FileMapper}
    {system : OpenResources} (account : w.Exact) (found : w.get? index = some mapper)
    (kept : ∀ {handles views}, w.system.Held (mapper.handles ++ handles) (mapper.views ++ views) →
      system.Held (object.elim [] FileMapper.handles ++ handles)
        (object.elim [] FileMapper.views ++ views))
    (nested : ∀ next, object = some next → next.Nested) : (w.put index object system).Exact := by
  obtain ⟨handles, hhandles, hhandles'⟩ := exists_rest found FileMapper.handles
  obtain ⟨views, hviews, hviews'⟩ := exists_rest found FileMapper.views
  have hkept := kept ⟨account.held.handles.perm hhandles, account.held.views.perm hviews⟩
  refine ⟨⟨hkept.handles.perm (hhandles' object).symm, hkept.views.perm (hviews' object).symm⟩, ?_⟩
  intro next hmem
  rcases List.mem_or_eq_of_mem_set hmem with hold | heq
  · exact account.nested next hold
  · exact nested next heq.symm

theorem holds_append (part : FileMapper → List UInt64) (objects : List (Option FileMapper))
    (mapper : FileMapper) :
    (holds part (objects ++ [some mapper])).Perm (part mapper ++ holds part objects) := by
  simp only [holds, List.flatMap_append, List.flatMap_singleton]
  exact List.perm_append_comm

/-- Objects among which what is held is distributed anew, with no use of the system. -/
theorem Exact.redistribute {w : Mappers} {objects : List (Option FileMapper)} (account : w.Exact)
    (same : ∀ part : FileMapper → List UInt64, part {} = [] →
      (holds part w.objects).Perm (holds part objects))
    (old : ∀ mapper, some mapper ∈ objects → mapper = {} ∨ some mapper ∈ w.objects) :
    Exact { objects := objects, system := w.system } := by
  refine ⟨⟨account.held.handles.perm (same _ rfl), account.held.views.perm (same _ rfl)⟩, ?_⟩
  intro mapper hmem
  rcases old mapper hmem with rfl | hold
  · exact FileMapper.nested_default
  · exact account.nested mapper hold

theorem mem_objects {w : Mappers} {index : ℕ} {mapper : FileMapper}
    (found : w.get? index = some mapper) : some mapper ∈ w.objects :=
  List.mem_of_getElem? (Option.join_eq_some_iff.mp found)

theorem Exact.construct {w : Mappers} (account : w.Exact) :
    Exact { objects := w.objects ++ [some ({} : FileMapper)], system := w.system } := by
  apply account.redistribute
  · intro part none
    have hheld := holds_append part w.objects {}
    rw [none, List.nil_append] at hheld
    exact hheld.symm
  · intro mapper hmem
    rcases List.mem_append.mp hmem with hold | hnew
    · exact .inr hold
    · cases List.mem_singleton.mp hnew
      exact .inl rfl

/-- A new object takes over what another one held. -/
theorem Exact.moveConstruct {w : Mappers} {index : ℕ} {source : FileMapper} (account : w.Exact)
    (found : w.get? index = some source) :
    Exact { objects := w.objects.set index (some ({} : FileMapper)) ++ [some source],
            system := w.system } := by
  apply account.redistribute
  · intro part none
    obtain ⟨rest, hrest, hrest'⟩ := exists_rest found part
    have hset := hrest' (some {})
    rw [Option.elim_some, none, List.nil_append] at hset
    exact hrest.trans ((hset.append_left _).symm.trans (holds_append part _ _).symm)
  · intro mapper hmem
    rcases List.mem_append.mp hmem with hset | hnew
    · rcases List.mem_or_eq_of_mem_set hset with hold | heq
      · exact .inr hold
      · cases heq
        exact .inl rfl
    · cases List.mem_singleton.mp hnew
      exact .inr (mem_objects found)

/-- An empty object takes over what another one held. -/
theorem Exact.moveAssign {w : Mappers} {target source : ℕ} {mapper : FileMapper}
    (account : w.Exact) (empty : w.get? target = some {}) (found : w.get? source = some mapper)
    (other : target ≠ source) :
    Exact { objects := (w.objects.set target (some mapper)).set source (some ({} : FileMapper)),
            system := w.system } := by
  apply account.redistribute
  · intro part none
    obtain ⟨rest, hrest, hrest'⟩ := exists_rest empty part
    have hfound : (w.put target (some mapper) w.system).get? source = some mapper := by
      rw [get?, Mappers.put, List.getElem?_set_ne other]
      exact found
    obtain ⟨others, hothers, hothers'⟩ := exists_rest hfound part
    have hset := hothers' (some {})
    rw [Option.elim_some, none, List.nil_append] at hset
    rw [none, List.nil_append] at hrest
    -- once the target has the part of the source, the rest besides each of them is the same
    have hsame : rest.Perm others :=
      (List.perm_append_left_iff (part mapper)).mp ((hrest' (some mapper)).symm.trans hothers)
    exact hrest.trans (hsame.trans hset.symm)
  · intro next hmem
    rcases List.mem_or_eq_of_mem_set hmem with hset | heq
    · rcases List.mem_or_eq_of_mem_set hset with hold | heq
      · exact .inr hold
      · cases heq
        exact .inr (mem_objects found)
    · cases heq
      exact .inl rfl

theorem Exact.cleanup {w : Mappers} {index : ℕ} {mapper : FileMapper} (account : w.Exact)
    (found : w.get? index = some mapper) :
    (mapper.cleanup w.system).1 = {} ∧
      (w.put index (some {}) (mapper.cleanup w.system).2).Exact ∧
        (w.put index none (mapper.cleanup w.system).2).Exact := by
  obtain ⟨handles, hhandles, -⟩ := exists_rest found FileMapper.handles
  obtain ⟨views, hviews, -⟩ := exists_rest found FileMapper.views
  refine ⟨(FileMapper.held_cleanup ⟨account.held.handles.perm hhandles,
    account.held.views.perm hviews⟩).1, account.put found ?_ ?_, account.put found ?_ ?_⟩
  · exact fun held => (FileMapper.held_cleanup held).2
  · intro next hnext
    cases hnext
    exact FileMapper.nested_default
  · exact fun held => (FileMapper.held_cleanup held).2
  · intro next hnext
    cases hnext

theorem Exact.map {w : Mappers} {index : ℕ} {mapper mapper' : FileMapper} {mode : MapMode}
    {win : Windows} {path : Path} {offset : UInt64} {length : ℕ}
    {result : Except String (UInt64 × ℕ)} {system : OpenResources} (account : w.Exact)
    (found : w.get? index = some mapper)
    (taken : FileMapper.map mode win path offset length mapper w.system =
      some (result, mapper', system)) : (w.put index (some mapper') system).Exact := by
  refine account.put found (fun held => (FileMapper.held_map held taken).1) fun next hnext => ?_
  obtain ⟨handles, hhandles, -⟩ := exists_rest found FileMapper.handles
  obtain ⟨views, hviews, -⟩ := exists_rest found FileMapper.views
  cases hnext
  exact (FileMapper.held_map ⟨account.held.handles.perm hhandles,
    account.held.views.perm hviews⟩ taken).2

/-! ## Runs -/

theorem exact_step {operation : MapperOperation} {w w' : Mappers} (account : w.Exact)
    (taken : step operation w = some w') : w'.Exact := by
  cases operation with
  | construct =>
      cases taken
      exact account.construct
  | mapRead index win path offset length | mapWrite index win path offset length =>
      obtain ⟨mapper, hfound, taken⟩ := Option.bind_eq_some_iff.mp taken
      obtain ⟨⟨result, mapper', system⟩, hmap, rfl⟩ := Option.map_eq_some_iff.mp taken
      exact account.map hfound hmap
  | unmap index =>
      obtain ⟨mapper, hfound, hput⟩ := Option.map_eq_some_iff.mp taken
      obtain ⟨hempty, hexact, -⟩ := account.cleanup hfound
      rw [FileMapper.unmap] at hput
      generalize mapper.cleanup w.system = cleaned at hempty hexact hput
      obtain ⟨emptied, system⟩ := cleaned
      obtain rfl : emptied = {} := hempty
      exact hput ▸ hexact
  | moveConstruct index =>
      obtain ⟨source, hfound, rfl⟩ := Option.map_eq_some_iff.mp taken
      exact account.moveConstruct hfound
  | moveAssign target source =>
      simp only [step] at taken
      split at taken
      · obtain ⟨mapper, -, rfl⟩ := Option.map_eq_some_iff.mp taken
        exact account
      · rename_i hother
        obtain ⟨first, hfirst, taken⟩ := Option.bind_eq_some_iff.mp taken
        obtain ⟨second, hsecond, rfl⟩ := Option.map_eq_some_iff.mp taken
        obtain ⟨-, hexact, -⟩ := account.cleanup hfirst
        -- the target is empty after its cleanup, the source as it was
        have hinside := (List.getElem?_eq_some_iff.mp (Option.join_eq_some_iff.mp hfirst)).1
        have hempty : (w.put target (some {}) (first.cleanup w.system).2).get? target =
            some {} := by
          rw [get?, put, List.getElem?_set_self hinside]
          rfl
        have hkept : (w.put target (some {}) (first.cleanup w.system).2).get? source =
            some second := by
          rw [get?, put, List.getElem?_set_ne hother]
          exact hsecond
        have hmoved := hexact.moveAssign hempty hkept hother
        rwa [put, List.set_set] at hmoved
  | destroy index =>
      obtain ⟨mapper, hfound, hput⟩ := Option.map_eq_some_iff.mp taken
      obtain ⟨-, -, hexact⟩ := account.cleanup hfound
      generalize mapper.cleanup w.system = cleaned at hexact hput
      obtain ⟨emptied, system⟩ := cleaned
      exact hput ▸ hexact

theorem exact_run {operations : List MapperOperation} {w : Mappers}
    (run : machine.Run operations w) : w.Exact := by
  have hinit : machine.init.Exact :=
    ⟨⟨Ledger.accounts_empty, Ledger.accounts_empty⟩, by rintro _ ⟨⟩⟩
  exact run.invariant hinit fun _ _ _ account _ taken => exact_step account taken

/-- What the objects of a program keep to. -/
structure Disciplined (w : Mappers) : Prop where
  /-- Nothing was closed, unmapped or flushed that was not open. -/
  sound : w.system.handles.fault = false ∧ w.system.views.fault = false
  /-- Of everything that was obtained, each is open or was released, and that once. -/
  once : (w.system.handles.serials ++ w.system.handles.released).Perm
      (List.range w.system.handles.next) ∧
    (w.system.views.serials ++ w.system.views.released).Perm (List.range w.system.views.next)
  /-- An address that is open is held by one object, in one of its members. -/
  owner : (w.system.handles.names.Perm (holds FileMapper.handles w.objects) ∧
      (holds FileMapper.handles w.objects).Nodup) ∧
    w.system.views.names.Perm (holds FileMapper.views w.objects) ∧
      (holds FileMapper.views w.objects).Nodup
  nested : ∀ mapper, some mapper ∈ w.objects → mapper.Nested
  /-- Without objects nothing is open, and everything was released. -/
  closed : (∀ object ∈ w.objects, object = none) →
    (w.system.handles.live = [] ∧
      w.system.handles.released.Perm (List.range w.system.handles.next)) ∧
    w.system.views.live = [] ∧ w.system.views.released.Perm (List.range w.system.views.next)

/-- After every sequence of operations, whatever calls have failed, the objects own what is open. -/
theorem disciplined_of_run {operations : List MapperOperation} {w : Mappers}
    (run : machine.Run operations w) : w.Disciplined := by
  have account := exact_run run
  refine ⟨⟨account.held.handles.sound, account.held.views.sound⟩,
    ⟨account.held.handles.serials, account.held.views.serials⟩,
    ⟨⟨account.held.handles.names, account.held.handles.nodup⟩,
      account.held.views.names, account.held.views.nodup⟩, account.nested, ?_⟩
  intro hdestroyed
  have hnone (part : FileMapper → List UInt64) : holds part w.objects = [] := by
    apply List.flatMap_eq_nil_iff.mpr
    intro object hmem
    rw [hdestroyed object hmem]
    rfl
  have hhandles := account.held.handles
  have hviews := account.held.views
  rw [hnone] at hhandles hviews
  exact ⟨hhandles.released_of_empty, hviews.released_of_empty⟩

/-- A mapped object is moved, the source is mapped again up to a view that fails, and takes the
mapping back; the addresses of what was released are given out again. -/
def exchange : List MapperOperation :=
  let win : Windows :=
    { createFileW := fun _ _ _ _ => 8, createFileMappingW := fun _ _ => 12,
      mapViewOfFile := fun _ _ _ _ => 65536 }
  let failing : Windows :=
    { createFileW := fun _ _ _ _ => 16, createFileMappingW := fun _ _ => 20,
      mapViewOfFile := fun _ _ _ _ => 0 }
  let path : Path := ⟨['a']⟩
  [.construct, .mapRead 0 win path 0 100, .moveConstruct 0, .mapWrite 0 failing path 0 100,
    .moveAssign 0 1, .moveAssign 0 0, .mapWrite 1 failing path 0 100, .moveAssign 0 1,
    .mapRead 1 win path 0 100, .unmap 0, .destroy 0, .destroy 1]

theorem disciplined_of_exchange :
    (machine.reached exchange).system.handles.next = 8 ∧
      (machine.reached exchange).system.handles.live = [] ∧
        (machine.reached exchange).system.handles.fault = false := by
  have hrun : machine.Run exchange (machine.reached exchange) :=
    Machine.run_reached (by decide +kernel)
  have hdisciplined := disciplined_of_run hrun
  exact ⟨by decide +kernel, (hdisciplined.closed (by decide +kernel)).1.1, hdisciplined.sound.1⟩

end Mappers

end Sxaint.Core
