import Glidix.Exec.ElfImage
import Glidix.Exec.Script
import Glidix.Lib.Uses
import Glidix.Thread.ExecPerm
import Glidix.Thread.FileTable

/-!
# The error exits of `elfExec`

`elfExec` up to the point where the program is loaded: the checks of the file and of its program headers, the
loop over the headers of the interpreter, and the calls for scripts.  Each exit closes files and frees the
table of segments; what is opened and allocated has a number.
-/

namespace Glidix.Exec

open Use

/-! ## Files -/

/-- The inode of a file, as far as `elfExec` looks at it; `read` returns what can be read of some bytes at an
offset, which are fewer at the end of the file and if a page cannot be loaded. -/
structure ExecFile where
  /-- `inode->ft` is set. -/
  hasTree : Bool
  execAllowed : Bool
  read : (offset size : ℕ) → List UInt8
  read_le : ∀ offset size, (read offset size).length ≤ size
  inode : XPerm.Inode
  gid : ℕ
  setgid : Bool

/-- An open file with its offset. -/
structure OpenFile where
  file : ExecFile
  offset : ℕ

namespace OpenFile

variable (fp : OpenFile)

def vfsRead (size : ℕ) : List UInt8 × OpenFile :=
  let data := fp.file.read fp.offset size
  (data, { fp with offset := fp.offset + data.length })

/-- An offset that is negative as an `off_t` is refused. -/
def vfsSeek (off : ℕ) : OpenFile :=
  let off := off % 2 ^ 64
  if off < 2 ^ 63 then { fp with offset := off } else fp

end OpenFile

/-- What exists outside of the call: the files that can be opened, and what is on the stack where a script is
read. -/
structure ExecEnv where
  vfsOpen : (path : List UInt8) → Except Int32 ExecFile
  junk : (depth : ℕ) → Bytes

/-! ## Headers -/

/-- The number in some bytes of a structure. -/
def field (data : List UInt8) (offset size : ℕ) : ℕ :=
  Bytes.leNat size fun k => data.getD (offset + k) 0

def EHDR_SIZE : ℕ := 64
def PHDR_SIZE : ℕ := 56

structure Ehdr where
  e_ident : List UInt8
  e_type : ℕ
  e_machine : ℕ
  e_phoff : ℕ
  e_phentsize : ℕ
  e_phnum : ℕ
  deriving DecidableEq

def Ehdr.ofBytes (data : List UInt8) : Ehdr where
  e_ident := data.take 16
  e_type := field data 16 2
  e_machine := field data 18 2
  e_phoff := field data 32 8
  e_phentsize := field data 54 2
  e_phnum := field data 56 2

/-- `validateElfHeader` returns 0: the magic number, `ELFCLASS64`, `ELFDATA2LSB`, the version, `ET_EXEC`,
`EM_X86_64`, and large enough program headers. -/
def Ehdr.valid (header : Ehdr) : Bool :=
  header.e_ident.take 4 = [0x7f, 0x45, 0x4c, 0x46] ∧ header.e_ident[4]? = some 2 ∧
    header.e_ident[5]? = some 1 ∧ header.e_ident[6]? = some 1 ∧ header.e_type = 2 ∧
    header.e_machine = 62 ∧ PHDR_SIZE ≤ header.e_phentsize

def Phdr.ofBytes (data : List UInt8) : Phdr where
  p_type := field data 0 4
  p_flags := field data 4 4
  p_offset := field data 8 8
  p_vaddr := field data 16 8
  p_filesz := field data 32 8
  p_memsz := field data 40 8

/-- How a loop over program headers ends. -/
inductive PhdrEnd where
  | done
  /-- A header cannot be read. -/
  | short
  /-- The addresses of a segment are refused. -/
  | outOfRange
  /-- A header is of a type that is not accepted. -/
  | badType
  /-- A header of the type `PT_INTERP`. -/
  | interp (fp : OpenFile) (proghead : Phdr)

/-- The `i`-th program header, if it can be read. -/
def OpenFile.readPhdr (fp : OpenFile) (header : Ehdr) (i : ℕ) : Option Phdr × OpenFile :=
  let r := (fp.vfsSeek (header.e_phoff + i * header.e_phentsize)).vfsRead PHDR_SIZE
  (if r.1.length < PHDR_SIZE then none else some (Phdr.ofBytes r.1), r.2)

/-- The loop over the headers of a program, of which `n` are left. -/
def programLoop (header : Ehdr) : (n i : ℕ) → OpenFile → PhdrEnd
  | 0, _, _ => .done
  | n + 1, i, fp =>
    match fp.readPhdr header i with
    | (none, _) => .short
    | (some proghead, fp) =>
      if proghead.p_type = PT_PHDR ∨ proghead.p_type = PT_NULL then programLoop header n (i + 1) fp
      else if proghead.p_type = PT_LOAD then
        if proghead.accepted then programLoop header n (i + 1) fp else .outOfRange
      else if proghead.p_type = PT_INTERP then .interp fp proghead
      else if proghead.p_type = PT_DYNAMIC then programLoop header n (i + 1) fp
      else .badType

/-- The loop over the headers of an interpreter, of which `n` are left. -/
def interpLoop (header : Ehdr) : (n i : ℕ) → OpenFile → PhdrEnd
  | 0, _, _ => .done
  | n + 1, i, fp =>
    match fp.readPhdr header i with
    | (none, _) => .short
    | (some proghead, fp) =>
      if proghead.p_type = PT_LOAD then
        if proghead.accepted then interpLoop header n (i + 1) fp else .outOfRange
      else .badType

/-! ## The process -/

def SIG_DFL : ℕ := 1
def SIG_IGN : ℕ := 4
def SIG_CORE : ℕ := 5

/-- The calling process; `pm` is the number of its address space. -/
structure ExecProcess where
  name : List UInt8
  sigdisp : List ℕ
  pm : ℕ
  euid : ℕ
  egid : ℕ
  oxperm : XPerm.Perms
  dxperm : XPerm.Perms
  ftab : Thread.FileTable
  deriving DecidableEq

/-- `sigdispExec` -/
def sigdispExec (old : List ℕ) : List ℕ :=
  old.map fun handler => if handler = SIG_IGN ∨ handler = SIG_CORE then handler else SIG_DFL

/-- What the rest of `elfExec` changes of the process, once the program can be loaded. -/
def ExecProcess.start (p : ExecProcess) (path : List UInt8) (file : ExecFile) : ExecProcess :=
  { p with
    name := if path.length < 256 then path else [60, 84, 79, 79, 32, 76, 79, 78, 71, 62]
    sigdisp := sigdispExec p.sigdisp
    pm := p.pm + 1
    euid := if file.inode.setuid then file.inode.uid else p.euid
    egid := if file.setgid then file.gid else p.egid
    oxperm := (p.oxperm &&& (p.dxperm &&& file.inode.ixperm)) ||| file.inode.oxperm
    dxperm := file.inode.dxperm }

/-! ## The call -/

/-- A file or a heap block, by its number. -/
inductive ExecResource where
  | file (id : ℕ)
  | block (id : ℕ)
  deriving DecidableEq

/-- `vfsOpen`, `vfsClose`, `kmalloc` and `kfree`. -/
def opened (fp : ℕ) : Use ExecResource := .take (.file fp)
def closed (fp : ℕ) : Use ExecResource := .give (.file fp)
def kmalloc (block : ℕ) : Use ExecResource := .take (.block block)
def kfree (block : ℕ) : Use ExecResource := .give (.block block)

inductive ExecErrno where
  | EINVAL
  | EACCES
  | ENOEXEC
  | EMFILE
  /-- The error of `vfsOpen`. -/
  | open (error : Int32)
  deriving DecidableEq

inductive ExecEnd where
  | error (errno : ExecErrno)
  | started
  /-- An array has been left, or there is a panic. -/
  | outside
  deriving DecidableEq

/-- How a call ends, what it has taken and given back, and the process after it. -/
structure ExecOutcome where
  result : ExecEnd
  uses : List (Use ExecResource)
  process : ExecProcess
  deriving DecidableEq

/-- The rest of `elfExec` after `PT_INTERP`.  The file `execfp` of the program and its table of segments have
the number `n`, those of the interpreter `n + 1`. -/
def execInterp (env : ExecEnv) (p : ExecProcess) (path : List UInt8) (n : ℕ) (execfp : OpenFile)
    (proghead : Phdr) : ExecOutcome :=
  let fail (errno : ExecErrno) (uses : List (Use ExecResource)) : ExecOutcome := ⟨.error errno, uses, p⟩
  if proghead.p_filesz ≥ 256 then fail .ENOEXEC [closed n, kfree n]
  else
    let interpPath := ((execfp.vfsSeek proghead.p_offset).vfsRead proghead.p_filesz).1
    if interpPath.length ≠ proghead.p_filesz then fail .ENOEXEC [closed n, kfree n]
    else
      match env.vfsOpen (interpPath.takeWhile (· ≠ 0)) with
      | .error _ => fail .ENOEXEC [closed n, kfree n]
      | .ok file =>
        if ¬ file.hasTree then fail .ENOEXEC [opened (n + 1), closed n, closed (n + 1), kfree n]
        else
          let (data, fp) := OpenFile.vfsRead ⟨file, 0⟩ EHDR_SIZE
          let header := Ehdr.ofBytes data
          if data.length ≠ EHDR_SIZE then
            fail .ENOEXEC [opened (n + 1), closed n, closed (n + 1), kfree n]
          else if ¬ header.valid then
            fail .ENOEXEC [opened (n + 1), closed n, closed (n + 1), kfree n]
          else
            let uses := [opened (n + 1), kfree n, kmalloc (n + 1)]
            match interpLoop header header.e_phnum 0 fp with
            | .short => fail .ENOEXEC (uses ++ [kfree (n + 1), closed (n + 1), closed n])
            | .outOfRange => fail .ENOEXEC (uses ++ [closed (n + 1), kfree (n + 1)])
            | .badType | .interp _ _ =>
              fail .ENOEXEC (uses ++ [kfree (n + 1), closed (n + 1), closed n])
            | .done =>
              match Thread.ftabAlloc p.ftab with
              | (_, none) => fail .EMFILE (uses ++ [kfree (n + 1), closed (n + 1), closed n])
              | (ftab, some i) =>
                match Thread.ftabSet ftab i (.file n) 0 with
                | none => ⟨.outside, uses, p⟩
                | some ftab =>
                  ⟨.started, uses ++ [closed (n + 1)],
                    ({ p with ftab } : ExecProcess).start path execfp.file⟩

/-- `elfExec` for a file that is not a script. -/
def execProgram (env : ExecEnv) (p : ExecProcess) (path : List UInt8) (n : ℕ) (fp : OpenFile) :
    ExecOutcome :=
  let fail (errno : ExecErrno) (uses : List (Use ExecResource)) : ExecOutcome := ⟨.error errno, uses, p⟩
  let (data, fp) := (fp.vfsSeek 0).vfsRead EHDR_SIZE
  let header := Ehdr.ofBytes data
  if data.length < EHDR_SIZE then fail .ENOEXEC [closed n]
  else if ¬ header.valid then fail .ENOEXEC [closed n]
  else
    match programLoop header header.e_phnum 0 fp with
    | .short => fail .ENOEXEC [kmalloc n, kfree n, closed n]
    | .outOfRange => fail .ENOEXEC [kmalloc n, closed n, kfree n]
    | .badType => fail .ENOEXEC [kmalloc n, closed n, kfree n]
    | .interp execfp proghead =>
      let r := execInterp env p path n execfp proghead
      { r with uses := kmalloc n :: r.uses }
    | .done => ⟨.started, [kmalloc n, closed n], p.start path fp.file⟩

/-- `elfExec`, whose files and heap blocks get numbers from `n` on; the calls for scripts are bounded by
`fuel`. -/
def elfExecCall (env : ExecEnv) : (fuel n : ℕ) → ExecProcess → (path pars : List UInt8) →
    Option ExecOutcome
  | 0, _, _, _, _ => none
  | fuel + 1, n, p, path, pars =>
    let fail (errno : ExecErrno) (uses : List (Use ExecResource)) : Option ExecOutcome :=
      some ⟨.error errno, uses, p⟩
    let parsz := pars.length
    if parsz < 4 then fail .EINVAL []
    else if pars.getD (parsz - 1) 0 ≠ 0 ∨ pars.getD (parsz - 2) 0 ≠ 0 then fail .EINVAL []
    else
      match scanPars (uptrPars parsz) 0 false pars ⟨[], true, 0⟩ with
      | none => some ⟨.outside, [], p⟩
      | some _ =>
        match env.vfsOpen path with
        | .error error => fail (.open error) []
        | .ok file =>
          if ¬ file.hasTree then fail .EACCES [opened n, closed n]
          else if ¬ file.execAllowed then fail .EACCES [opened n, closed n]
          else
            let (shebang, fp) := OpenFile.vfsRead ⟨file, 0⟩ 2
            if shebang.length < 2 then fail .ENOEXEC [opened n, closed n]
            else if shebang = [35, 33] then
              match execScript (env.junk fuel) (file.read 0 1023) path pars with
              | .elfExec newPath newPars =>
                (elfExecCall env fuel (n + 2) p newPath newPars).map fun r =>
                  { r with uses := opened n :: closed n :: r.uses }
              | .outside => some ⟨.outside, [opened n], p⟩
              | _ => fail .ENOEXEC [opened n, closed n]
            else
              let r := execProgram env p path n fp
              some { r with uses := opened n :: r.uses }

end Glidix.Exec
