import Bionic.Ba
import Bionic.StateExcept
import Mathlib.Logic.Function.Basic

/-! # The dynamic linker (`linker/linker.c`, `linker/dlfcn.c`)

The linker keeps one `soinfo` per loaded object: the static `libdl_info` and the entries of
`sopool`.  `find_library` loads an object and, through `link_image`, the objects that its
`DT_NEEDED` entries name; `unload_library` drops a reference and unloads what is no longer used.

* **Lists.**  `solist` and `freelist` are linked through the `next` field; here they are the lists
  of the entries met on the way, and `sonext` is the last entry of `solist`.
* **The outside.**  What the file system and the kernel answer is an oracle, `World.openLibrary`:
  the answers to the `tick`-th call of `load_library` with a given name.  They may differ from call
  to call, so every way in which a load can fail is covered.
* **Faults.**  A dereference of a bad pointer stops the program (`Fault`).  The recursions take a
  fuel argument; the proofs show that it does not run out.
* **Bookkeeping.**  `Soinfo.mapped`, `Soinfo.taken` and `State.log` are read by no function: they
  record which objects are mapped, on whose behalf `link_image` raised a `refcount`, and the calls
  made so far. -/

namespace Bionic.Linker

open StateExcept

/-- A C string, without its final NUL. -/
abbrev CStr := List Char

def SO_MAX : ℕ := 256

def SOINFO_NAME_LEN : ℕ := 128

/-- The part of a path behind its last `/`. -/
def basename (name : CStr) : CStr := (name.reverse.takeWhile (· ≠ '/')).reverse

/-! ### Data -/

/-- `&libdl_info` or `&sopool[i]`. -/
inductive Ptr where
  | libdl
  | pool (i : ℕ)
deriving DecidableEq, Repr

/-- What `link_image` and the constructor calls read of a dynamic section. -/
structure Dynamic where
  /-- `DT_PLTREL` is `DT_REL` or `DT_RELA`, and `DT_STRTAB` and `DT_SYMTAB` are there. -/
  tables : Bool
  /-- The strings of the `DT_NEEDED` entries. -/
  needed : List CStr
  /-- The calls of `reloc_library` succeed. -/
  relocates : Bool
  preinitArray : List ℕ := []
  initFunc : ℕ := 0
  initArray : List ℕ := []
  finiArray : List ℕ := []
  finiFunc : ℕ := 0
deriving DecidableEq, Repr

/-- The field `dynamic`: null, the mark `-1`, or the address of a section. -/
inductive DynPtr where
  | null
  | missing
  | present (d : Dynamic)
deriving DecidableEq, Repr

/-- `FLAG_LINKED`, `FLAG_ERROR`, `FLAG_EXE` and `FLAG_PRELINKED`. -/
structure Flags where
  linked : Bool := false
  error : Bool := false
  exe : Bool := false
  prelinked : Bool := false
deriving DecidableEq, Repr

structure Soinfo where
  name : CStr
  flags : Flags := {}
  base : ℕ := 0
  size : ℕ := 0
  dynamic : DynPtr := .null
  baIndex : Option ℕ := none
  refcount : BitVec 32 := 0
  mapped : Bool := false
  taken : List Ptr := []
deriving DecidableEq, Repr

/-- `libdl_info` as `dlfcn.c` initialises it: its zero `ba_index` is never read, since nothing
past the dereference of its null `dynamic` runs. -/
def libdlInfo : Soinfo :=
  { name := "libdl.so".toList, flags := { linked := true }, mapped := true }

inductive Stage where
  | preinit
  | init
  | initArray
  | finiArray
  | fini
deriving DecidableEq, Repr

inductive Event where
  /-- `call_constructors(si)`, followed by the functions it calls. -/
  | constructors (si : Ptr)
  /-- `call_destructors(si)`, followed by the functions it calls. -/
  | destructors (si : Ptr)
  | call (si : Ptr) (stage : Stage) (func : ℕ)
  | munmap (si : Ptr)
  /-- `free_info(si)`, where `prev` is the predecessor it found in `solist`. -/
  | freeInfo (si : Ptr) (prev : Option Ptr)
  | notifyLoad (si : Ptr)
  | notifyUnload (si : Ptr)
deriving DecidableEq, Repr

inductive Fault where
  /-- `*si->dynamic` with `si->dynamic` null or `-1`. -/
  | derefDynamic (si : Ptr)
  /-- `prev->next` in `free_info(si)` with `prev` null. -/
  | nullPrev (si : Ptr)
  | outOfFuel
deriving DecidableEq, Repr

/-- What one call of `load_library` meets once `open_library` has found the file. -/
structure Image where
  /-- `lseek` and `read` succeed. -/
  readable : Bool := true
  /-- `get_lib_extents`: the requested base (0 if not prelinked) and the size. -/
  extents : Option (ℕ × ℕ)
  /-- `mmap` reserves the region at the requested address. -/
  reserved : Bool := true
  /-- `load_segments` maps the segments and they fit the region. -/
  segments : Bool := true
  /-- The dynamic section, if there is a `PT_DYNAMIC` segment. -/
  dynamic : Option Dynamic

structure World where
  arch : Ba.Arch
  openLibrary : ℕ → CStr → Option Image

structure State where
  so : Ptr → Soinfo
  solist : List Ptr
  freelist : List Ptr
  socount : ℕ
  ba : Ba.State
  tick : ℕ
  log : List Event

abbrev LinkerM := StateT State (Except Fault)

/-- The linker before `__linker_init`. -/
def poweredOn (beyond : ℕ → Ba.BaBits) : State where
  so
    | .libdl => libdlInfo
    | .pool _ => { name := [] }
  solist := [.libdl]
  freelist := []
  socount := 0
  ba := Ba.zeroed beyond
  tick := 0
  log := []

namespace State

/-- Assign to fields of `*si`. -/
def update (s : State) (si : Ptr) (f : Soinfo → Soinfo) : State :=
  { s with so := Function.update s.so si (f (s.so si)) }

def record (s : State) (es : List Event) : State := { s with log := s.log ++ es }

/-- `lsi->refcount++`. -/
def raise (s : State) (lsi : Ptr) : State :=
  s.update lsi fun i => { i with refcount := i.refcount + 1 }

/-- `lsi->refcount++`, on behalf of `si`. -/
def retain (s : State) (si lsi : Ptr) : State :=
  (s.raise lsi).update si fun i => { i with taken := i.taken ++ [lsi] }

end State

/-! ### `alloc_info` and `free_info` -/

/-- The entry `si`, cleared and named, at the end of `solist`. -/
def State.install (s : State) (si : Ptr) (name : CStr) (freelist : List Ptr) (socount : ℕ) :
    State :=
  { s with
    so := Function.update s.so si { name := name }
    solist := s.solist ++ [si]
    freelist := freelist
    socount := socount }

/-- `alloc_info`. -/
def allocInfo (name : CStr) : LinkerM (Option Ptr) := fun s =>
  if SOINFO_NAME_LEN ≤ name.length then .ok (none, s)
  else
    match s.freelist with
    | si :: next => .ok (some si, s.install si name next s.socount)
    | [] =>
        if s.socount = SO_MAX then .ok (none, s)
        else .ok (some (.pool s.socount), s.install (.pool s.socount) name [] (s.socount + 1))

/-- The search of `free_info`: `none` when `si` is not in the list, else its predecessor. -/
def findPrev (si : Ptr) : List Ptr → Option Ptr → Option (Option Ptr)
  | [], _ => none
  | trav :: next, prev => if trav = si then some prev else findPrev si next (some trav)

/-- `free_info`. -/
def freeInfo (si : Ptr) : LinkerM Unit := fun s =>
  match findPrev si s.solist none with
  | none => .ok ((), s.record [.freeInfo si none])
  | some none => .error (.nullPrev si)
  | some (some prev) =>
      .ok ((), { s.record [.freeInfo si (some prev)] with
        solist := s.solist.erase si
        freelist := si :: s.freelist })

/-! ### `load_library` -/

/-- A call of the buddy allocator. -/
def callBa {α : Type} (x : Ba.BaM α) : LinkerM α := fun s =>
  .ok ((x s.ba).1, { s with ba := (x s.ba).2 })

def munmap (si : Ptr) : LinkerM Unit :=
  modify fun s => (s.record [.munmap si]).update si fun i => { i with mapped := false }

/-- `reserve_mem_region`. -/
def reserveMemRegion (img : Image) (si : Ptr) : LinkerM Bool := do
  modify fun s => s.update si fun i => { i with mapped := img.reserved }
  return img.reserved

/-- `alloc_mem_region`. -/
def allocMemRegion (arch : Ba.Arch) (img : Image) (si : Ptr) : LinkerM Bool := do
  let i := (← get).so si
  if i.base ≠ 0 then
    modify fun s => s.update si fun i => { i with baIndex := none }
    reserveMemRegion img si
  else
    match ← callBa (Ba.baAllocate i.size) with
    | none => return false
    | some index =>
        modify fun s => s.update si fun i =>
          { i with baIndex := some index, base := Ba.baStartAddr arch index }
        if ← reserveMemRegion img si then return true
        else
          callBa (Ba.baFree index)
          modify fun s => s.update si fun i => { i with baIndex := none, base := 0 }
          return false

/-- `load_segments`, as far as it changes the `soinfo`. -/
def loadSegments (img : Image) (si : Ptr) : LinkerM Bool := do
  if img.segments then
    modify fun s => s.update si fun i =>
      { i with dynamic := img.dynamic.elim .missing .present }
    return true
  else
    munmap si
    modify fun s => s.update si fun i => { i with flags := { i.flags with error := true } }
    return false

/-- `if (si->ba_index >= 0) ba_free(si->ba_index)`. -/
def releaseBlock (si : Ptr) : LinkerM Unit := do
  match ((← get).so si).baIndex with
  | none => return ()
  | some index => callBa (Ba.baFree index)

/-- The part of `load_library` behind `alloc_info`: whether the image could be mapped. -/
def mapImage (arch : Ba.Arch) (img : Image) (reqBase extSz : ℕ) (si : Ptr) : LinkerM Bool := do
  modify fun s => s.update si fun i =>
    { i with base := reqBase, size := extSz, flags := {}, dynamic := .missing }
  if ← allocMemRegion arch img si then
    if ← loadSegments img si then return true
    else
      releaseBlock si
      modify fun s => s.update si fun i => { i with baIndex := none }
      return false
  else return false

/-- `load_library`. -/
def loadLibrary (W : World) (name : CStr) : LinkerM (Option Ptr) := do
  let tick := (← get).tick
  modify fun s => { s with tick := s.tick + 1 }
  match W.openLibrary tick name with
  | none => return none
  | some img =>
      if img.readable then
        match img.extents with
        | none => return none
        | some (reqBase, extSz) =>
            match ← allocInfo (basename name) with
            | none => return none
            | some si =>
                if ← mapImage W.arch img reqBase extSz si then return some si
                else
                  freeInfo si
                  return none
      else return none

/-! ### Constructors and destructors -/

/-- `call_array`; it skips the entries `0` and `-1`. -/
def callArray (si : Ptr) (stage : Stage) (funcs : List ℕ) : List Event :=
  (funcs.filter fun f => f ≠ 0 ∧ f ≠ 0xffffffff).map (.call si stage)

/-- `if (func) func()`. -/
def callFunc (si : Ptr) (stage : Stage) (func : ℕ) : List Event :=
  if func = 0 then [] else [.call si stage func]

/-- The calls made by `call_constructors`; where `dynamic` was never read, the fields it uses are
null. -/
def constructorEvents (si : Ptr) (i : Soinfo) : List Event :=
  match i.dynamic with
  | .present d =>
      .constructors si :: ((if i.flags.exe then callArray si .preinit d.preinitArray else []) ++
        callFunc si .init d.initFunc ++ callArray si .initArray d.initArray)
  | _ => [.constructors si]

/-- `call_constructors`. -/
def callConstructors (si : Ptr) : LinkerM Unit :=
  modify fun s => s.record (constructorEvents si (s.so si))

/-- The calls made by `call_destructors`. -/
def destructorEvents (si : Ptr) (i : Soinfo) : List Event :=
  match i.dynamic with
  | .present d =>
      .destructors si :: (callArray si .finiArray d.finiArray.reverse ++
        callFunc si .fini d.finiFunc)
  | _ => [.destructors si]

/-- `call_destructors`. -/
def callDestructors (si : Ptr) : LinkerM Unit :=
  modify fun s => s.record (destructorEvents si (s.so si))

/-- `notify_gdb_of_load` or `notify_gdb_of_unload`. -/
def notifyGdb (event : Ptr → Event) (si : Ptr) : LinkerM Unit :=
  modify fun s => if (s.so si).flags.exe then s else s.record [event si]

/-! ### `link_image` and `find_library` -/

/-- The `DT_NEEDED` loop of `link_image`. -/
def linkNeeded (find : CStr → LinkerM (Option Ptr)) (si : Ptr) : List CStr → LinkerM Bool
  | [] => return true
  | name :: names => do
      match ← find name with
      | none => return false
      | some lsi =>
          modify fun s => s.retain si lsi
          linkNeeded find si names

/-- `link_image` up to the label `fail`: whether it gets as far as setting `FLAG_LINKED`. -/
def resolveImage (find : CStr → LinkerM (Option Ptr)) (si : Ptr) : LinkerM Bool := do
  match ((← get).so si).dynamic with
  | .null => throw (.derefDynamic si)
  | .missing => return false
  | .present d =>
      if d.tables then
        if ← linkNeeded find si d.needed then return d.relocates
        else return false
      else return false

/-- The end of `link_image` behind a successful relocation. -/
def finishImage (si : Ptr) : LinkerM Unit := do
  modify fun s => s.update si fun i => { i with flags := { i.flags with linked := true } }
  callConstructors si
  notifyGdb .notifyLoad si

/-- `link_image`; `true` is the result 0. -/
def linkImage (find : CStr → LinkerM (Option Ptr)) (si : Ptr) : LinkerM Bool := do
  if ← resolveImage find si then
    finishImage si
    return true
  else
    modify fun s => s.update si fun i => { i with flags := { i.flags with error := true } }
    return false

/-- `init_library`. -/
def initLibrary (arch : Ba.Arch) (find : CStr → LinkerM (Option Ptr)) (si : Ptr) :
    LinkerM (Option Ptr) := do
  modify fun s => s.update si fun i =>
    if i.base < Ba.LIBBASE arch ∨ Ba.LIBLAST arch ≤ i.base then
      { i with flags := { i.flags with prelinked := true } }
    else i
  if ← linkImage find si then return some si
  else
    munmap si
    return none

/-- The first entry of `solist` with the name that `find_library(name)` looks for. -/
def lookup (s : State) (name : CStr) : Option Ptr :=
  s.solist.find? fun si => (s.so si).name = basename name

/-- `find_library`. -/
def findLibrary (W : World) : ℕ → CStr → LinkerM (Option Ptr)
  | 0, _ => throw .outOfFuel
  | fuel + 1, name => do
      let s ← get
      match lookup s name with
      | some si =>
          if (s.so si).flags.error then return none
          else if (s.so si).flags.linked then return some si
          else return none
      | none =>
          match ← loadLibrary W name with
          | none => return none
          | some si => initLibrary W.arch (findLibrary W fuel) si

/-- Enough fuel for `find_library`: a nested call has one more entry in `solist`. -/
def loadDepth : ℕ := SO_MAX + 1

/-! ### `unload_library` -/

/-- The `DT_NEEDED` loop of `unload_library`. -/
def unloadNeeded (find : CStr → LinkerM (Option Ptr)) (unload : Ptr → LinkerM (BitVec 32)) :
    List CStr → LinkerM Unit
  | [] => return ()
  | name :: names => do
      match ← find name with
      | none => unloadNeeded find unload names
      | some lsi =>
          let _ ← unload lsi
          unloadNeeded find unload names

/-- The end of `unload_library` behind the `DT_NEEDED` loop. -/
def discard (si : Ptr) : LinkerM Unit := do
  munmap si
  releaseBlock si
  notifyGdb .notifyUnload si
  freeInfo si
  modify fun s => s.update si fun i => { i with refcount := 0 }

/-- `unload_library`. -/
def unloadLibrary (W : World) : ℕ → Ptr → LinkerM (BitVec 32)
  | 0, _ => throw .outOfFuel
  | fuel + 1, si => do
      let i := (← get).so si
      if i.refcount = 1 then
        callDestructors si
        match i.dynamic with
        | .present d =>
            unloadNeeded (findLibrary W loadDepth) (unloadLibrary W fuel) d.needed
            discard si
        | _ => throw (.derefDynamic si)
      else
        modify fun s => s.update si fun i => { i with refcount := i.refcount - 1 }
      return ((← get).so si).refcount

/-- Enough fuel for `unload_library`: a nested call has one more entry on its way out. -/
def unloadDepth : ℕ := SO_MAX + 2

/-! ### `dlopen`, `dlclose` and `__linker_init` -/

/-- `dlopen`. -/
def dlopen (W : World) (filename : CStr) : LinkerM (Option Ptr) := do
  match ← findLibrary W loadDepth filename with
  | none => return none
  | some ret =>
      modify fun s => s.raise ret
      return some ret

/-- `dlclose`. -/
def dlclose (W : World) (handle : Ptr) : LinkerM Unit := do
  let _ ← unloadLibrary W unloadDepth handle

/-- What the kernel passes to the linker about the executable; `dynamic` is its section when it
has exactly one `PT_DYNAMIC` segment. -/
structure Exe where
  argv0 : CStr
  size : ℕ
  dynamic : Option Dynamic

/-- `__linker_init`; `none` stands for `exit(-1)`. -/
def linkerInit (W : World) (exe : Exe) : LinkerM (Option Ptr) := do
  match ← allocInfo exe.argv0 with
  | none => return none
  | some si =>
      modify fun s => s.update si fun i =>
        { i with flags := { i.flags with exe := true }, base := 0, size := exe.size, mapped := true,
                 dynamic := exe.dynamic.elim .missing .present }
      callBa Ba.baInit
      if ← linkImage (findLibrary W loadDepth) si then return some si
      else return none

end Bionic.Linker
