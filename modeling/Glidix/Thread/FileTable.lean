import Mathlib.Data.Int.Notation
import Mathlib.Data.Nat.Notation
import Glidix.Lib.Runs
import Glidix.Thread.Semaphore

/-!
# File tables

A process has a table of open files, which all its threads share.  A slot of the table holds a file
description, nothing, or the placeholder of a descriptor that a thread has reserved and not set yet.
A section under the lock of a table is one step; the calls of `vfsClose` that follow a section are
steps of their own, so a thread has references in its hands between the two.
-/

namespace Glidix.Thread

/-- Maximum number of files that can be opened per file table. -/
def MAX_OPEN_FILES : ℕ := 256

def FD_CLOEXEC : Int32 := 2048

def EBADF : Int32 := 8
def EBUSY : Int32 := 10

/-- A pointer to a file description; `reserve` is `FILE_RESERVE`. -/
inductive FilePtr where
  | null
  | reserve
  | file (id : ℕ)
  deriving DecidableEq

/-- A file description.  The counts of references are of type `int`; the heap of the kernel is too
small for so many references that they would overflow. -/
structure File where
  refcount : ℤ
  /-- History: how many times the count has reached zero. -/
  destroyed : ℕ
  deriving DecidableEq

structure Slot where
  fp : FilePtr
  flags : Int32
  deriving DecidableEq

structure FileTable where
  /-- Number of threads using this table. -/
  refcount : ℤ
  list : List Slot
  deriving DecidableEq

/-! ## File descriptions -/

/-- `vfsDup`; `none` is a pointer that is not to a file description. -/
def vfsDup (files : List File) : FilePtr → Option (List File)
  | .file f => some (files.modify f fun x => { x with refcount := x.refcount + 1 })
  | _ => none

/-- `vfsClose`, as far as the count of references goes. -/
def vfsClose (files : List File) : FilePtr → Option (List File)
  | .file f => some (files.modify f fun x =>
      if x.refcount - 1 = 0 then ⟨x.refcount - 1, x.destroyed + 1⟩
      else { x with refcount := x.refcount - 1 })
  | _ => none

/-! ## The functions -/

/-- The index of a descriptor that is in range. -/
def fdIndex (fd : Int32) : Option ℕ :=
  if fd < 0 ∨ fd ≥ Int32.ofNat MAX_OPEN_FILES then none else some fd.toInt.toNat

def ftabCreate : FileTable := ⟨1, List.replicate MAX_OPEN_FILES ⟨.null, 0⟩⟩

namespace FileTable

variable (ftab : FileTable)

def fp (i : ℕ) : FilePtr := (ftab.list[i]?.map Slot.fp).getD .null

/-- Write a slot. -/
def put (i : ℕ) (fp : FilePtr) (flags : Int32) : FileTable :=
  { ftab with list := ftab.list.set i ⟨fp, flags⟩ }

/-- Write the pointer of a slot, leaving its flags. -/
def putFp (i : ℕ) (fp : FilePtr) : FileTable :=
  { ftab with list := ftab.list.modify i fun slot => { slot with fp := fp } }

end FileTable

def ftabUpref (ftab : FileTable) : FileTable := { ftab with refcount := ftab.refcount + 1 }

/-- The calls of `vfsClose` that `ftabDownref` makes for a table nobody uses any more. -/
def downrefSlots : List Slot → Option (List ℕ)
  | [] => some []
  | slot :: rest =>
    match slot.fp with
    | .null => downrefSlots rest
    | .reserve => none
    | .file f => (downrefSlots rest).map (f :: ·)

/-- `ftabDownref`: the table, and the files to close. -/
def ftabDownref (ftab : FileTable) : Option (FileTable × List ℕ) :=
  if ftab.refcount - 1 = 0 then
    (downrefSlots ftab.list).map fun files => (⟨ftab.refcount - 1, []⟩, files)
  else some ({ ftab with refcount := ftab.refcount - 1 }, [])

/-- The loop of `ftabDup`. -/
def dupSlots (files : List File) : List Slot → Option (List File × List Slot)
  | [] => some (files, [])
  | slot :: rest =>
    if slot.fp ≠ .null then do
      let files ← vfsDup files slot.fp
      let (files, list) ← dupSlots files rest
      some (files, slot :: list)
    else (dupSlots files rest).map fun (files, list) => (files, ⟨.null, 0⟩ :: list)

/-- `ftabDup`: the files and the new table. -/
def ftabDup (files : List File) (old : FileTable) : Option (List File × FileTable) :=
  (dupSlots files old.list).map fun (files, list) => (files, ⟨ftabCreate.refcount, list⟩)

/-- `ftabGet`: the files and the pointer it returns. -/
def ftabGet (files : List File) (ftab : FileTable) (fd : Int32) : Option (List File × FilePtr) :=
  match fdIndex fd with
  | none => some (files, .null)
  | some i =>
    if ftab.fp i = .null ∨ ftab.fp i = .reserve then some (files, .null)
    else (vfsDup files (ftab.fp i)).map (·, ftab.fp i)

/-- `ftabAlloc`: the descriptor, when there is one. -/
def ftabAlloc (ftab : FileTable) : FileTable × Option ℕ :=
  match ftab.list.findIdx? (·.fp = .null) with
  | some i => (ftab.putFp i .reserve, some i)
  | none => (ftab, none)

/-- `ftabSet`; `none` is the panic. -/
def ftabSet (ftab : FileTable) (i : ℕ) (fp : FilePtr) (flags : Int32) : Option FileTable :=
  if ftab.fp i ≠ .reserve then none else some (ftab.put i fp flags)

/-- `ftabClose`: the table, the pointer that was in the slot, and the result. -/
def ftabClose (ftab : FileTable) (fd : Int32) : FileTable × FilePtr × Int32 :=
  match fdIndex fd with
  | none => (ftab, .null, EBADF)
  | some i =>
    if ftab.fp i = .reserve then (ftab, .null, EBADF)
    else (ftab.putFp i .null, ftab.fp i, if ftab.fp i ≠ .null then 0 else EBADF)

/-- `ftabPut`: the table, the pointer that was in the slot, and the result. -/
def ftabPut (ftab : FileTable) (fd : Int32) (fp : FilePtr) (flags : Int32) :
    FileTable × FilePtr × Int32 :=
  match fdIndex fd with
  | none => (ftab, .null, EBADF)
  | some i =>
    if ftab.fp i = .reserve then (ftab, .null, EBUSY)
    else (ftab.put i fp flags, ftab.fp i, 0)

/-- The loop of `ftabCloseOnExec`. -/
def closeOnExecSlots (files : List File) : List Slot → Option (List File × List Slot)
  | [] => some (files, [])
  | slot :: rest =>
    if slot.fp ≠ .null ∧ slot.flags &&& FD_CLOEXEC ≠ 0 then do
      let files ← vfsClose files slot.fp
      let (files, list) ← closeOnExecSlots files rest
      some (files, { slot with fp := .null } :: list)
    else (closeOnExecSlots files rest).map fun (files, list) => (files, slot :: list)

def ftabCloseOnExec (files : List File) (ftab : FileTable) : Option (List File × FileTable) :=
  (closeOnExecSlots files ftab.list).map fun (files, list) => (files, { ftab with list := list })

def ftabSetFlags (ftab : FileTable) (fd : Int32) (flags : Int32) : FileTable × Int32 :=
  match fdIndex fd with
  | none => (ftab, EBADF)
  | some i =>
    ({ ftab with list := ftab.list.modify i fun slot => { slot with flags := flags } }, 0)

/-! ## Threads -/

/-- What a thread has to do with file tables. -/
structure FtabThread where
  /-- Its table; a thread that has exited has none. -/
  ftab : Option ℕ
  /-- The descriptors it has got from `ftabAlloc` and not set yet. -/
  reserved : List ℕ
  /-- The files it holds a reference to: results of `ftabGet` and of opening a file that it has
  neither closed nor put in a table, and files taken out of a table that are about to be closed. -/
  hand : List ℕ
  deriving DecidableEq

structure FtabState where
  files : List File
  tables : List FileTable
  threads : List FtabThread
  deriving DecidableEq

/-- A step: the thread that takes it, and what it does. -/
inductive FtabOp where
  /-- A thread is created with a table of its own. -/
  | ftabCreate
  /-- A file is opened. -/
  | vfsOpen (tid : ℕ)
  | ftabAlloc (tid : ℕ)
  | ftabSet (tid i : ℕ) (file : Option ℕ) (flags : Int32)
  | ftabGet (tid : ℕ) (fd : Int32)
  | ftabClose (tid : ℕ) (fd : Int32)
  | ftabPut (tid : ℕ) (fd : Int32) (file : ℕ) (flags : Int32)
  | ftabSetFlags (tid : ℕ) (fd flags : Int32)
  | ftabCloseOnExec (tid : ℕ)
  /-- A thread forks. -/
  | ftabDup (tid : ℕ)
  /-- A thread makes another that shares its table. -/
  | ftabUpref (tid : ℕ)
  /-- A thread exits. -/
  | ftabDownref (tid : ℕ)
  | vfsClose (tid file : ℕ)
  deriving DecidableEq

def FilePtr.ofOption : Option ℕ → FilePtr
  | none => .null
  | some f => .file f

/-- The file that a pointer is to. -/
def FilePtr.toList : FilePtr → List ℕ
  | .file f => [f]
  | _ => []

namespace FtabState

variable (s : FtabState)

/-- The table of a thread. -/
def table (tid : ℕ) : Option (FtabThread × ℕ × FileTable) := do
  let thread ← s.threads[tid]?
  let t ← thread.ftab
  let ftab ← s.tables[t]?
  some (thread, t, ftab)

/-- A thread has done something with its table. -/
def update (tid t : ℕ) (files : List File) (ftab : FileTable) (thread : FtabThread) : FtabState :=
  ⟨files, s.tables.set t ftab, s.threads.set tid thread⟩

/-- A thread may take a step: it sets descriptors it has reserved, gives away and closes references
that it holds, and exits when it has neither. -/
def Enabled : FtabOp → Prop
  | .ftabCreate => True
  | .ftabSet tid i file _ =>
    ∃ x ∈ s.table tid, i ∈ x.1.reserved ∧ ∀ f ∈ file, f ∈ x.1.hand
  | .ftabPut tid _ file _ => ∃ x ∈ s.table tid, file ∈ x.1.hand
  | .ftabDownref tid => ∃ x ∈ s.table tid, x.1.reserved = [] ∧ x.1.hand = []
  | .vfsClose tid file => ∃ thread ∈ s.threads[tid]?, file ∈ thread.hand
  | .vfsOpen tid | .ftabAlloc tid | .ftabGet tid _ | .ftabClose tid _ | .ftabSetFlags tid _ _
  | .ftabCloseOnExec tid | .ftabDup tid | .ftabUpref tid => (s.table tid).isSome

instance : DecidablePred s.Enabled
  | .ftabCreate => inferInstanceAs (Decidable True)
  | .ftabSet .. | .ftabPut .. | .ftabDownref .. | .vfsClose .. =>
    inferInstanceAs (Decidable (∃ x ∈ _, _))
  | .vfsOpen _ | .ftabAlloc _ | .ftabGet .. | .ftabClose .. | .ftabSetFlags ..
  | .ftabCloseOnExec _ | .ftabDup _ | .ftabUpref _ => inferInstanceAs (Decidable (_ = true))

/-- What a step does; `none` is a panic, or a pointer that is not to a file description where one is
used. -/
def exec : FtabOp → Option FtabState
  | .ftabCreate =>
    some ⟨s.files, s.tables ++ [Thread.ftabCreate], s.threads ++ [⟨some s.tables.length, [], []⟩]⟩
  | .vfsOpen tid => do
    let (thread, t, ftab) ← s.table tid
    some (s.update tid t (s.files ++ [⟨1, 0⟩]) ftab
      { thread with hand := s.files.length :: thread.hand })
  | .ftabAlloc tid => do
    let (thread, t, ftab) ← s.table tid
    let (ftab, fd) := Thread.ftabAlloc ftab
    some (s.update tid t s.files ftab { thread with reserved := fd.toList ++ thread.reserved })
  | .ftabSet tid i file flags => do
    let (thread, t, ftab) ← s.table tid
    let ftab ← Thread.ftabSet ftab i (.ofOption file) flags
    some (s.update tid t s.files ftab { thread with
      reserved := thread.reserved.erase i
      hand := file.elim thread.hand thread.hand.erase })
  | .ftabGet tid fd => do
    let (thread, t, ftab) ← s.table tid
    let (files, fp) ← Thread.ftabGet s.files ftab fd
    some (s.update tid t files ftab { thread with hand := fp.toList ++ thread.hand })
  | .ftabClose tid fd => do
    let (thread, t, ftab) ← s.table tid
    let (ftab, old, _) := Thread.ftabClose ftab fd
    some (s.update tid t s.files ftab { thread with hand := old.toList ++ thread.hand })
  | .ftabPut tid fd file flags => do
    let (thread, t, ftab) ← s.table tid
    let (ftab, old, error) := Thread.ftabPut ftab fd (.file file) flags
    some (s.update tid t s.files ftab { thread with
      hand := old.toList ++ if error = 0 then thread.hand.erase file else thread.hand })
  | .ftabSetFlags tid fd flags => do
    let (thread, t, ftab) ← s.table tid
    some (s.update tid t s.files (Thread.ftabSetFlags ftab fd flags).1 thread)
  | .ftabCloseOnExec tid => do
    let (thread, t, ftab) ← s.table tid
    let (files, ftab) ← Thread.ftabCloseOnExec s.files ftab
    some (s.update tid t files ftab thread)
  | .ftabDup tid => do
    let (_, _, ftab) ← s.table tid
    let (files, new) ← Thread.ftabDup s.files ftab
    some ⟨files, s.tables ++ [new], s.threads ++ [⟨some s.tables.length, [], []⟩]⟩
  | .ftabUpref tid => do
    let (_, t, ftab) ← s.table tid
    some ⟨s.files, s.tables.set t (Thread.ftabUpref ftab), s.threads ++ [⟨some t, [], []⟩]⟩
  | .ftabDownref tid => do
    let (thread, t, ftab) ← s.table tid
    let (ftab, files) ← Thread.ftabDownref ftab
    some (s.update tid t s.files ftab { thread with ftab := none, hand := files ++ thread.hand })
  | .vfsClose tid file => do
    let thread ← s.threads[tid]?
    let files ← Thread.vfsClose s.files (.file file)
    some { s with
      files := files
      threads := s.threads.set tid { thread with hand := thread.hand.erase file } }

end FtabState

/-- The steps of all threads, from a state without threads. -/
def ftabSystem : System FtabState FtabOp where
  init s := s = ⟨[], [], []⟩
  step s op t := s.Enabled op ∧ s.exec op = some t

end Glidix.Thread
