import Glidix.Lib.Counter
import Glidix.Module.Insmod

/-!
# Loading a module

`insmod` behind the section checks: the area and the frames for the body, the symbols, the relocations, and the
list of modules.  The counter of the loops over symbols and relocations is an `Elf64_Half`.
-/

namespace Glidix.Module

open Exec (ExecFile OpenFile)
open Bytes ModuleResource Use

def MODULE_AREA_BASE : ℕ := 0xFFFF818000000000
def MODULE_BLOCK_SIZE : ℕ := 0x40000000
def MODULE_SECTOR_SIZE : ℕ := 0x200000

/-- How many sectors a page directory has room for. -/
def MAX_SECTORS : ℕ := 512

/-- Where the counter `i` wraps around. -/
def HALF_BOUND : ℕ := 2 ^ 16

/-! ## Modules -/

structure Module where
  name : List UInt8
  block : ℕ
  numSectors : ℕ
  /-- The numbers of the frames that `unmapModuleArea` frees. -/
  frames : List ℕ
  baseAddr : ℕ
  symtab : List UInt8
  numSymbols : ℕ
  strings : List UInt8
  fini : Option ℕ
  modfini : Option ℕ
  refcount : ℕ
  /-- The bytes of the module area, from `baseAddr` on. -/
  body : Bytes

/-- The list of modules, and which entries of `pdptModuleSpace` are present. -/
structure ModuleState where
  modules : List Module
  present : ℕ → Bool

/-- The first block that is not present, if one is left. -/
def ModuleState.allocModuleBlock (st : ModuleState) : Option ℕ := (List.range 512).find? fun i => !st.present i

/-! ## The module area -/

/-- The tables of a module area: the directory has the frames of the page tables, and each page table those of its
pages. -/
structure ModuleArea where
  pdPhysFrame : ℕ
  ptFrames : List ℕ
  pd : List ℕ
  pt : List (List ℕ)

/-- The frames are numbered as they are allocated: the directory, the page tables, then the pages. -/
def mapModuleArea (numSectors : ℕ) : ModuleArea where
  pdPhysFrame := 0
  ptFrames := (List.range (numSectors + 512 * numSectors)).map (· + 1)
  pd := (List.range numSectors).map fun i => i + 1
  pt := (List.range numSectors).map fun i => (List.range 512).map fun j => numSectors + 512 * i + j + 1

/-- What `mapModuleArea` takes. -/
def ModuleArea.taken (area : ModuleArea) : List (Use ModuleResource) :=
  take framesBlock :: take (frame area.pdPhysFrame) :: area.ptFrames.map fun n => take (frame n)

/-- What `unmapModuleArea` gives back. -/
def ModuleArea.unmapped (area : ModuleArea) : List (Use ModuleResource) :=
  (area.ptFrames.map fun n => give (frame n)) ++ [give framesBlock]

/-! ## Symbols -/

structure Sym where
  st_name : ℕ
  st_shndx : ℕ
  st_value : ℕ
  deriving DecidableEq

def SYM_SIZE : ℕ := 24

/-- The `i`-th symbol of a table. -/
def symAt (symtab : List UInt8) (i : ℕ) : Sym where
  st_name := leAt (SYM_SIZE * i) 4 symtab
  st_shndx := leAt (SYM_SIZE * i + 6) 2 symtab
  st_value := leAt (SYM_SIZE * i + 8) 8 symtab

/-- `_fini` -/
def FINI : List UInt8 := [0x5F, 0x66, 0x69, 0x6E, 0x69]

/-- `__module_init` -/
def MODULE_INIT : List UInt8 := [0x5F, 0x5F, 0x6D, 0x6F, 0x64, 0x75, 0x6C, 0x65, 0x5F, 0x69, 0x6E, 0x69, 0x74]

/-- `__module_fini` -/
def MODULE_FINI : List UInt8 := [0x5F, 0x5F, 0x6D, 0x6F, 0x64, 0x75, 0x6C, 0x65, 0x5F, 0x66, 0x69, 0x6E, 0x69]

/-- `__this_module` -/
def THIS_MODULE : List UInt8 := [0x5F, 0x5F, 0x74, 0x68, 0x69, 0x73, 0x5F, 0x6D, 0x6F, 0x64, 0x75, 0x6C, 0x65]

/-- `<noname>` with its terminator. -/
def NONAME : List UInt8 := [0x3C, 0x6E, 0x6F, 0x6E, 0x61, 0x6D, 0x65, 0x3E, 0]

/-- The address of a symbol of the kernel, 0 if there is none. -/
def getSymbol (name : List UInt8) : List (List UInt8 × ℕ) → Option ℕ
  | [] => some 0
  | (symbol, value) :: rest =>
    match strcmp name symbol with
    | none => none
    | some true => some value
    | some false => getSymbol name rest

/-- The image as it is read: the body, the tables, and where things are. -/
structure Tables where
  shModbody : ℕ
  baseAddr : ℕ
  /-- `modbodySection.sh_size` -/
  bodySize : ℕ
  /-- What could be read of the body. -/
  body : List UInt8
  strings : List UInt8
  symtab : List UInt8
  numSymbols : ℕ
  numRelocs : ℕ
  /-- The file at the relocations. -/
  fp : OpenFile

/-- The functions of the module that the loop over the symbols has found. -/
structure Entries where
  moduleInitEvent : Option ℕ := none
  fini : Option ℕ := none
  modfini : Option ℕ := none

/-- The number of sectors, rounded up. -/
def numSectors (size : ℕ) : ℕ :=
  size / MODULE_SECTOR_SIZE + if size % MODULE_SECTOR_SIZE = 0 then 0 else 1

namespace Tables

variable (t : Tables)

/-- The address in the module area of a symbol of the body. -/
def symbolAddress (s : Sym) : ℕ := (t.baseAddr + s.st_value) % 2 ^ 64

/-- The loop body for symbol `i`; a read behind the names is an error. -/
def symbolStep (i : ℕ) (e : Entries) : Except Unit Entries :=
  let symbol := symAt t.symtab i
  let symname := t.strings.drop symbol.st_name
  if symbol.st_shndx = t.shModbody then
    match strcmp symname MODULE_INIT with
    | none => .error ()
    | some true => .ok { e with moduleInitEvent := some (t.symbolAddress symbol) }
    | some false =>
      match strcmp symname FINI with
      | none => .error ()
      | some true => .ok { e with fini := some (t.symbolAddress symbol) }
      | some false =>
        match strcmp symname MODULE_FINI with
        | none => .error ()
        | some true => .ok { e with modfini := some (t.symbolAddress symbol) }
        | some false => .ok e
  else .ok e

end Tables

/-! ## Relocations -/

structure Rela where
  r_offset : ℕ
  r_info : ℕ
  r_addend : ℕ
  deriving DecidableEq

def RELA_SIZE : ℕ := 24

def R_X86_64_64 : ℕ := 1

def Rela.ofBytes (data : List UInt8) : Rela where
  r_offset := leAt 0 8 data
  r_info := leAt 8 8 data
  r_addend := leAt 16 8 data

def Rela.type (rela : Rela) : ℕ := rela.r_info % 2 ^ 32

def Rela.symidx (rela : Rela) : ℕ := rela.r_info / 2 ^ 32

/-- Why a relocation is refused. -/
inductive RelocError where
  | undefinedReference
  | nonLinkedSection
  | unknownType
  | outOfBounds
  deriving DecidableEq

namespace Tables

variable (t : Tables)

/-- The address of the symbol of a relocation.  An entry of the table that is not inside it is read out of
bounds. -/
def relaAddress (env : ModuleEnv) (rela : Rela) : Except RelocError ℕ :=
  if t.symtab.length < SYM_SIZE * rela.symidx + 8 then .error .outOfBounds
  else
    let symbol := symAt t.symtab rela.symidx
    let symname := if symbol.st_name = 0 then NONAME else t.strings.drop symbol.st_name
    if symbol.st_shndx = 0 then
      match strcmp symname THIS_MODULE with
      | none => .error .outOfBounds
      | some true => .ok env.thisModule
      | some false =>
        match getSymbol symname env.symbols with
        | none => .error .outOfBounds
        | some symaddr => if symaddr = 0 then .error .undefinedReference else .ok symaddr
    else if symbol.st_shndx = t.shModbody then
      if t.symtab.length < SYM_SIZE * rela.symidx + 16 then .error .outOfBounds
      else .ok (t.symbolAddress symbol)
    else .error .nonLinkedSection

/-- The size of the mapped area. -/
def areaSize : ℕ := numSectors t.bodySize * MODULE_SECTOR_SIZE

/-- A relocation is applied to the body. -/
def relocate (env : ModuleEnv) (rela : Rela) (body : Bytes) : Except RelocError Bytes :=
  match t.relaAddress env rela with
  | .error e => .error e
  | .ok symaddr =>
    if rela.type = R_X86_64_64 then
      if t.areaSize < rela.r_offset + 8 then .error .outOfBounds
      else .ok (setRange body rela.r_offset (leBytes 8 (symaddr + rela.r_addend)))
    else .error .unknownType

/-- What the loop over the relocations changes: the file, the buffer for an entry, and the body. -/
structure RelocState where
  fp : OpenFile
  rela : List UInt8
  body : Bytes

/-- The loop body: the next entry is read, and as much of the last one stays as cannot be read. -/
def relocStep (env : ModuleEnv) (_ : ℕ) (s : RelocState) : Except RelocError RelocState :=
  let (rela, fp) := readInto s.fp RELA_SIZE fun k => s.rela.getD k 0
  (t.relocate env (Rela.ofBytes rela) s.body).map fun body => ⟨fp, rela, body⟩

/-- The body before the relocations: what could be read of it, and zeros. -/
def zeroed : Bytes := fun k => t.body.getD k 0

end Tables

/-! ## Loading -/

/-- The header of a section. -/
def readShdr (env : ModuleEnv) (header : Ehdr) (i : ℕ) (buffer : Buffer) (fp : OpenFile) : Shdr × OpenFile :=
  let (data, fp) := readInto (fp.vfsSeek (header.e_shoff + i * SHDR_SIZE)) SHDR_SIZE (env.junk buffer)
  (Shdr.ofBytes data, fp)

/-- The names of the symbols. -/
def readStrings (env : ModuleEnv) (header : Ehdr) (s : Sections) (fp : OpenFile) : List UInt8 × OpenFile :=
  let (strtabSection, fp) := readShdr env header s.shStrtab .strtabSection fp
  readInto (fp.vfsSeek strtabSection.sh_offset) strtabSection.sh_size (env.junk .strings)

/-- All that is read for a module in a block, up to the relocations. -/
def readTables (env : ModuleEnv) (header : Ehdr) (s : Sections) (fp : OpenFile) (modblock : ℕ) : Tables :=
  let (strings, fp) := readStrings env header s fp
  let (modbodySection, fp) := readShdr env header s.shModbody .modbodySection fp
  let (body, fp) := (fp.vfsSeek modbodySection.sh_offset).vfsRead modbodySection.sh_size
  let (symtabSection, fp) := readShdr env header s.shSymtab .symtabSection fp
  let (symtab, fp) := readInto (fp.vfsSeek symtabSection.sh_offset) symtabSection.sh_size (env.junk .symtab)
  let (relaSection, fp) := readShdr env header s.shRela .relaSection fp
  { shModbody := s.shModbody
    baseAddr := MODULE_AREA_BASE + modblock * MODULE_BLOCK_SIZE
    bodySize := modbodySection.sh_size
    body := body
    strings := strings
    symtab := symtab
    numSymbols := symtabSection.sh_size / SYM_SIZE
    numRelocs := relaSection.sh_size / RELA_SIZE
    fp := fp.vfsSeek relaSection.sh_offset }

/-- How a call ends. -/
inductive InsmodEnd where
  /-- A module of this name was there, and its count goes up. -/
  | already
  | loaded (module : Module) (moduleInitEvent : Option ℕ)
  | error (e : ModuleErrno)
  | outOfBounds

structure InsmodOutcome where
  result : InsmodEnd
  uses : List (Use ModuleResource)
  state : ModuleState

/-- What is given back when a relocation is refused: only an unknown type frees the `Module`. -/
def RelocError.released (area : ModuleArea) : RelocError → List (Use ModuleResource)
  | .unknownType => [give file, give stringsBlock, give symtabBlock] ++ area.unmapped ++ [give moduleBlock]
  | _ => [give file, give stringsBlock, give symtabBlock] ++ area.unmapped

/-- `insmod` behind the section checks; `none` if its loops take more than `fuel` steps. -/
def loadModule (env : ModuleEnv) (st : ModuleState) (modname : List UInt8) (header : Ehdr) (s : Sections)
    (fp : OpenFile) (fuel : ℕ) : Option InsmodOutcome :=
  match st.allocModuleBlock with
  | none => some ⟨.error .EINVAL, [take stringsBlock, give file, give stringsBlock], st⟩
  | some modblock =>
    let t := readTables env header s fp modblock
    let n := numSectors t.bodySize
    let area := mapModuleArea n
    let uses := take stringsBlock :: take moduleBlock :: area.taken ++ [take symtabBlock]
    if MAX_SECTORS < n then some ⟨.outOfBounds, uses, st⟩
    else
      match Counter.loop HALF_BOUND t.numSymbols t.symbolStep fuel 0 {} with
      | none => none
      | some (.error _) => some ⟨.outOfBounds, uses, st⟩
      | some (.ok entries) =>
        match Counter.loop HALF_BOUND t.numRelocs (t.relocStep env) fuel 0
            ⟨t.fp, (List.range RELA_SIZE).map (env.junk .rela), t.zeroed⟩ with
        | none => none
        | some (.error .outOfBounds) => some ⟨.outOfBounds, uses, st⟩
        | some (.error e) => some ⟨.error .EINVAL, uses ++ e.released area, st⟩
        | some (.ok r) =>
          let module : Module :=
            { name := modname, block := modblock, numSectors := n, frames := area.ptFrames,
              baseAddr := t.baseAddr, symtab := t.symtab, numSymbols := t.numSymbols, strings := t.strings,
              fini := entries.fini, modfini := entries.modfini, refcount := 1, body := r.body }
          some ⟨.loaded module entries.moduleInitEvent, uses ++ [give file],
            { modules := st.modules ++ [module], present := fun i => i = modblock || st.present i }⟩

/-! ## The whole call -/

def INSMOD_EXCL : ℕ := 2

/-- The count of the first module with a name goes up. -/
def countUp (modname : List UInt8) : List Module → List Module
  | [] => []
  | m :: l => if m.name = modname then { m with refcount := m.refcount + 1 } :: l else m :: countUp modname l

def insmod (env : ModuleEnv) (st : ModuleState) (modname path : List UInt8) (flags fuel : ℕ) :
    Option InsmodOutcome :=
  if 127 ≤ modname.length then some ⟨.error .unset, [], st⟩
  else if st.modules.any fun m => m.name = modname then
    if flags &&& INSMOD_EXCL ≠ 0 then some ⟨.error .EEXIST, [], st⟩
    else some ⟨.already, [], { st with modules := countUp modname st.modules }⟩
  else
    match env.vfsOpen path with
    | .error e => some ⟨.error (.vfsOpen e), [], st⟩
    | .ok f =>
      if f.hasTree = false then some ⟨.error .ENODEV, [take file, give file], st⟩
      else
        match checkImage ⟨f, 0⟩ with
        | .error (.error e, uses) => some ⟨.error e, take file :: uses, st⟩
        | .error (.outOfBounds, uses) => some ⟨.outOfBounds, take file :: uses, st⟩
        | .ok (header, s, fp) =>
          (loadModule env st modname header s fp fuel).map fun o =>
            { o with uses := take file :: take sectionStrings :: give sectionStrings :: o.uses }

end Glidix.Module
