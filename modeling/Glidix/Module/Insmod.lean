import Glidix.Exec.ExecErrors
import Glidix.Lib.Packed

/-!
# The section checks of `insmod`

What `insmod` reads of a module image before it takes any memory for the module: the ELF header, the names of the
sections, and which sections the body, its relocations, the symbols and their names are.
-/

namespace Glidix.Module

open Exec (ExecFile OpenFile)
open Bytes

/-! ## Reading into buffers -/

/-- The buffers that `insmod` reads into. -/
inductive Buffer where
  | strings | strtabSection | modbodySection | symtabSection | symtab | relaSection | rela
  deriving DecidableEq

/-- A buffer of `size` bytes after some data was read into it; behind the data it holds what it held before. -/
def filled (size : ℕ) (before : Bytes) (data : List UInt8) : List UInt8 :=
  (List.range size).map fun k => data.getD k (before k)

/-- The whole size is asked for, and what is missing stays as it was. -/
def readInto (fp : OpenFile) (size : ℕ) (before : Bytes) : List UInt8 × OpenFile :=
  (filled size before (fp.vfsRead size).1, (fp.vfsRead size).2)

/-- What `insmod` uses of the rest of the kernel: the file behind a path, the symbols of the kernel, the address of
the new `Module`, and what the buffers hold before something is read into them. -/
structure ModuleEnv where
  vfsOpen : List UInt8 → Except Int32 ExecFile
  symbols : List (List UInt8 × ℕ)
  thisModule : ℕ
  junk : Buffer → Bytes

/-! ## Headers -/

structure Ehdr where
  e_ident : List UInt8
  e_type : ℕ
  e_shoff : ℕ
  e_shentsize : ℕ
  e_shnum : ℕ
  e_shstrndx : ℕ
  deriving DecidableEq

def EHDR_SIZE : ℕ := 64

def Ehdr.ofBytes (data : List UInt8) : Ehdr where
  e_ident := data.take 16
  e_type := leAt 16 2 data
  e_shoff := leAt 40 8 data
  e_shentsize := leAt 58 2 data
  e_shnum := leAt 60 2 data
  e_shstrndx := leAt 62 2 data

structure Shdr where
  sh_name : ℕ
  sh_type : ℕ
  sh_addr : ℕ
  sh_offset : ℕ
  sh_size : ℕ
  deriving DecidableEq

def SHDR_SIZE : ℕ := 64

def Shdr.ofBytes (data : List UInt8) : Shdr where
  sh_name := leAt 0 4 data
  sh_type := leAt 4 4 data
  sh_addr := leAt 16 8 data
  sh_offset := leAt 24 8 data
  sh_size := leAt 32 8 data

def ET_REL : ℕ := 1
def SHT_PROGBITS : ℕ := 1
def SHT_SYMTAB : ℕ := 2
def SHT_RELA : ℕ := 4

/-! ## Names -/

/-- `strcmp` of the string at the start of some bytes of a block with a given string: whether they are equal, or
`none` if it reads behind the block. -/
def strcmp : (p s : List UInt8) → Option Bool
  | [], _ => none
  | c :: _, [] => some (c = 0)
  | c :: p, d :: s => if c = d then strcmp p s else some false

/-- `.modbody` -/
def MODBODY : List UInt8 := [0x2E, 0x6D, 0x6F, 0x64, 0x62, 0x6F, 0x64, 0x79]

/-- `.rela.modbody` -/
def RELA_MODBODY : List UInt8 := [0x2E, 0x72, 0x65, 0x6C, 0x61] ++ MODBODY

/-- `.symtab` -/
def SYMTAB : List UInt8 := [0x2E, 0x73, 0x79, 0x6D, 0x74, 0x61, 0x62]

/-- `.strtab` -/
def STRTAB : List UInt8 := [0x2E, 0x73, 0x74, 0x72, 0x74, 0x61, 0x62]

/-! ## Resources and refusals -/

/-- The heap blocks are named for what they are for, and the frames are numbered as they are allocated. -/
inductive ModuleResource where
  | file
  | sectionStrings
  | stringsBlock
  | moduleBlock
  | framesBlock
  | symtabBlock
  | frame (n : ℕ)
  deriving DecidableEq

inductive ModuleErrno where
  | EINVAL
  | EEXIST
  | ENODEV
  /-- What `vfsOpen` returns. -/
  | vfsOpen (e : Int32)
  /-- `ERRNO` is not set. -/
  | unset
  deriving DecidableEq

/-- Why the checks refuse an image. -/
inductive Refusal where
  | error (e : ModuleErrno)
  /-- A read behind the end of a heap block. -/
  | outOfBounds
  deriving DecidableEq

open ModuleResource Use

/-- A refusal with what was given back after it. -/
abbrev Refused : Type := Refusal × List (Use ModuleResource)

/-- `vfsClose` and `kfree` of the names. -/
def refuse : Refused := (.error .EINVAL, [give file, give sectionStrings])

/-! ## The header -/

/-- The checks up to `e_shentsize`. -/
def Ehdr.valid (header : Ehdr) : Bool :=
  header.e_ident.take 4 = [0x7f, 0x45, 0x4c, 0x46] ∧ header.e_ident[4]? = some 2 ∧
    header.e_ident[5]? = some 1 ∧ header.e_ident[6]? = some 1 ∧ header.e_type = ET_REL ∧
    header.e_shentsize = SHDR_SIZE

/-- The ELF header and the names of the sections. -/
def checkHeader (fp : OpenFile) : Except Refused (Ehdr × List UInt8 × OpenFile) :=
  let (data, fp) := fp.vfsRead EHDR_SIZE
  let header := Ehdr.ofBytes data
  if data.length < EHDR_SIZE ∨ header.valid = false then .error (.error .EINVAL, [give file])
  else
    let (data, fp) := (fp.vfsSeek (header.e_shoff + header.e_shstrndx * SHDR_SIZE)).vfsRead SHDR_SIZE
    let shstr := Shdr.ofBytes data
    if data.length < SHDR_SIZE then .error (.error .EINVAL, [give file])
    else
      let (strings, fp) := (fp.vfsSeek shstr.sh_offset).vfsRead shstr.sh_size
      if strings.length < shstr.sh_size then
        .error (.error .EINVAL, [take sectionStrings, give file, give sectionStrings])
      else .ok (header, strings, fp)

/-! ## The sections -/

/-- The numbers of the sections; 0 is for one that was not found. -/
structure Sections where
  shModbody : ℕ := 0
  shRela : ℕ := 0
  shSymtab : ℕ := 0
  shStrtab : ℕ := 0
  deriving DecidableEq

/-- Whether a section has a name. -/
def hasName (strings : List UInt8) (section_ : Shdr) (name : List UInt8) : Except Refused Bool :=
  match strcmp (strings.drop section_.sh_name) name with
  | none => .error (.outOfBounds, [])
  | some b => .ok b

/-- The loop body for section `i`. -/
def checkSection (strings : List UInt8) (i : ℕ) (section_ : Shdr) (s : Sections) : Except Refused Sections := do
  let modbody ← hasName strings section_ MODBODY
  if modbody ∧ (section_.sh_addr ≠ 0 ∨ section_.sh_type ≠ SHT_PROGBITS) then throw refuse
  let rela ← hasName strings section_ RELA_MODBODY
  if rela ∧ section_.sh_type ≠ SHT_RELA then throw refuse
  let symtab ← hasName strings section_ SYMTAB
  if symtab ∧ section_.sh_type ≠ SHT_SYMTAB then throw refuse
  let strtab ← hasName strings section_ STRTAB
  return {
    shModbody := if modbody then i else s.shModbody
    shRela := if rela then i else s.shRela
    shSymtab := if symtab then i else s.shSymtab
    shStrtab := if strtab then i else s.shStrtab }

/-- The loop over the sections, of which `n` are left. -/
def sectionLoop (strings : List UInt8) : (n i : ℕ) → OpenFile → Sections → Except Refused (Sections × OpenFile)
  | 0, _, fp, s => .ok (s, fp)
  | n + 1, i, fp, s =>
    let (data, fp) := fp.vfsRead SHDR_SIZE
    if data.length < SHDR_SIZE then .error (.error .EINVAL, [give sectionStrings, give file])
    else
      match checkSection strings i (Shdr.ofBytes data) s with
      | .error e => .error e
      | .ok s => sectionLoop strings n (i + 1) fp s

/-- All the checks of an open file: its header, which sections are used, and the file. -/
def checkImage (fp : OpenFile) : Except Refused (Ehdr × Sections × OpenFile) :=
  match checkHeader fp with
  | .error e => .error e
  | .ok (header, strings, fp) =>
    match sectionLoop strings header.e_shnum 0 (fp.vfsSeek header.e_shoff) {} with
    | .error (why, uses) => .error (why, take sectionStrings :: uses)
    | .ok (s, fp) =>
      if s.shModbody = 0 ∨ s.shRela = 0 ∨ s.shSymtab = 0 ∨ s.shStrtab = 0 then
        .error (.error .EINVAL, [take sectionStrings, give sectionStrings, give file])
      else .ok (header, s, fp)

end Glidix.Module
