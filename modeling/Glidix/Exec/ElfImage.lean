import Glidix.Vm.Calls

/-!
# Loading the segments of a program

`elfExec` reads the program headers, those of the interpreter instead if one is named, and maps each segment:
memory that is zero, then the pages of the file over its beginning; at last it zeroes the rest of the last
page of the file, if the segment may be written.  The results of the mapping calls are ignored.
-/

namespace Glidix.Exec

open Vm

/-! ## Program headers -/

def PT_NULL : ℕ := 0
def PT_LOAD : ℕ := 1
def PT_DYNAMIC : ℕ := 2
def PT_INTERP : ℕ := 3
def PT_PHDR : ℕ := 6

def PF_X : ℕ := 1
def PF_W : ℕ := 2
def PF_R : ℕ := 4

/-- `Elf64_Phdr` -/
structure Phdr where
  p_type : ℕ
  p_flags : ℕ
  p_offset : ℕ
  p_vaddr : ℕ
  p_filesz : ℕ
  p_memsz : ℕ
  deriving DecidableEq

structure ProgramSegment where
  fileOffset : ℕ
  memorySize : ℕ
  fileSize : ℕ
  loadAddr : ℕ
  flags : ℕ
  deriving DecidableEq

/-- A segment that is not loaded. -/
def ProgramSegment.zero : ProgramSegment := ⟨0, 0, 0, 0, 0⟩

namespace Phdr

variable (ph : Phdr)

/-- The permissions of the segment. -/
def prot : ℕ :=
  (if has ph.p_flags PF_R then PROT_READ else 0) ||| (if has ph.p_flags PF_W then PROT_WRITE else 0) |||
    (if has ph.p_flags PF_X then PROT_EXEC else 0)

/-- The checks of the addresses of a segment. -/
def accepted : Bool :=
  ¬ ph.p_vaddr < 0x400000 ∧ ¬ (ph.p_vaddr + ph.p_memsz) % 2 ^ 64 > 0x8000000000

/-- A segment of the program. -/
def segment : ProgramSegment where
  fileOffset := ph.p_offset / 0x1000 * 0x1000
  memorySize := (ph.p_memsz + ph.p_offset % 0x1000) % 2 ^ 64
  fileSize := (ph.p_filesz + ph.p_offset % 0x1000) % 2 ^ 64
  loadAddr := ph.p_vaddr / 0x1000 * 0x1000
  flags := ph.prot

/-- A segment of the interpreter, whose bounds are not rounded. -/
def interpSegment : ProgramSegment where
  fileOffset := ph.p_offset
  memorySize := ph.p_memsz
  fileSize := ph.p_filesz
  loadAddr := ph.p_vaddr
  flags := ph.prot

end Phdr

/-- An executable file: the tree of its inode, its size and bytes, and the headers.  The bytes behind its
end are those that a page of the tree has there. -/
structure Elf where
  ft : ℕ
  size : ℕ
  content : ℕ → UInt8
  phdrs : List Phdr

/-- The loop over the headers of the interpreter. -/
def interpSegments : List Phdr → Option (List ProgramSegment)
  | [] => some []
  | ph :: phdrs =>
    if ph.p_type = PT_LOAD ∧ ph.accepted then
      (interpSegments phdrs).map fun segments => ph.interpSegment :: segments
    else none

/-- The loop over the headers; the file whose segments are to be loaded, and the segments. -/
def elfSegments (elf : Elf) (interp : Option Elf) :
    List Phdr → List ProgramSegment → Option (Elf × List ProgramSegment)
  | [], segments => some (elf, segments)
  | ph :: phdrs, segments =>
    if ph.p_type = PT_PHDR ∨ ph.p_type = PT_NULL ∨ ph.p_type = PT_DYNAMIC then
      elfSegments elf interp phdrs (segments ++ [.zero])
    else if ph.p_type = PT_LOAD then
      if ph.accepted then elfSegments elf interp phdrs (segments ++ [ph.segment]) else none
    else if ph.p_type = PT_INTERP then
      interp.bind fun i => (interpSegments i.phdrs).map fun segments => (i, segments)
    else none

/-! ## Loading -/

/-- The physical memory, the address space, and the bytes that were written to its pages. -/
structure Loader (W : Type) where
  w : W
  pm : ProcMem
  written : ℕ → Option UInt8

namespace Loader

variable {W : Type} (ops : PhysMem W) (ct : ℕ)

/-- `vmMap`, whose result is ignored; `none` if it does not return. -/
def vmMap (s : Loader W) (a : MapArgs) : Option (Loader W) :=
  (Vm.vmMap ops ct a s.w s.pm).map fun (_, w, pm) => { s with w, pm }

/-- `memcpy_k2u` of zeroes up to the end of a page, which is loaded by a fault. -/
def zeroPage (s : Loader W) (zeroPos toZero : ℕ) : Option (Loader W) :=
  if zeroPos < Vm.ADDR_MIN ∨ zeroPos + toZero ≥ Vm.ADDR_MAX then some s
  else
    (vmFault ops zeroPos PF_WRITE s.w s.pm).map fun (r, w, pm) =>
    match r with
    | .ok _ =>
      ⟨w, pm, fun a => if zeroPos ≤ a ∧ a < zeroPos + toZero then some 0 else s.written a⟩
    | .error _ => { s with w, pm }

/-- Map one segment. -/
def loadSegment (fp : File) (s : Loader W) (seg : ProgramSegment) : Option (Loader W) :=
  if seg.loadAddr > 0 then do
    let s ← s.vmMap ops ct
      ⟨seg.loadAddr, seg.memorySize, seg.flags, MAP_PRIVATE ||| MAP_ANON ||| MAP_FIXED, none, 0⟩
    let s ← s.vmMap ops ct
      ⟨seg.loadAddr, seg.fileSize, seg.flags, MAP_PRIVATE ||| MAP_FIXED, some fp, seg.fileOffset⟩
    let zeroPos := (seg.loadAddr + seg.fileSize) % 2 ^ 64
    let toZero := (0x1000 - zeroPos % 0x1000) % 0x1000
    if has seg.flags PROT_WRITE ∧ toZero ≠ 0 then s.zeroPage ops zeroPos toZero else some s
  else some s

/-- The byte that the program finds at an address; `none` if nothing is mapped there.  A page that is
loaded has the bytes of the file, or zeroes, except where it was written. -/
def read (content : ℕ → ℕ → UInt8) (s : Loader W) (a : ℕ) : Option UInt8 :=
  match s.pm.attr (a / 0x1000) with
  | none => none
  | some page =>
    if page.flags = 0 then none
    else
      let byte :=
        match page.ft with
        | none => 0
        | some ft => content ft (page.offset + a % 0x1000)
      if (s.pm.ptes (a / 0x1000)).gx_loaded then some ((s.written a).getD byte) else some byte

end Loader

/-- `elfExec` from the headers to the mapping of the stack; `none` if it refuses the program or does not
return. -/
def loadElf {W : Type} (ops : PhysMem W) (ct : ℕ) (junk : Vm.Segment) (w : W) (elf : Elf) (interp : Option Elf) :
    Option (Loader W) := do
  let (file, segments) ← elfSegments elf interp elf.phdrs []
  let s ← segments.foldlM (Loader.loadSegment ops ct ⟨some file.ft, 2⟩) ⟨w, vmNew junk, fun _ => none⟩
  s.vmMap ops ct ⟨0x200000, 0x200000, PROT_READ ||| PROT_WRITE, MAP_PRIVATE ||| MAP_ANON ||| MAP_FIXED, none, 0⟩

end Glidix.Exec
