import Mathlib.Data.Int.Notation
import Mathlib.Data.List.Basic

/-!
# Inodes and directory entries

An inode holds its directory entries in a list, in the order of the links between them.  Entries and
inodes have addresses, which are numbers; an entry is named by the inode that contains it, which
never changes, together with its address.  The times other than `mtime` are left out.
-/

namespace Glidix.Fs

/-! ## Constants -/

def VFS_MODE_SETUID : ℕ := 0o4000
def VFS_MODE_STICKY : ℕ := 0o1000
def VFS_MODE_DIRECTORY : ℕ := 0x1000
def VFS_MODE_LINK : ℕ := 0x5000
def VFS_MODE_TYPEMASK : ℕ := 0xF000

def VFS_ACE_EXEC : ℕ := 1
def VFS_ACE_WRITE : ℕ := 2
def VFS_ACE_READ : ℕ := 4

/-- Error numbers. -/
inductive Errno where
  | EACCES
  | EBUSY
  | EEXIST
  | EINVAL
  | EIO
  | EISDIR
  | ELOOP
  | ENOENT
  | ENOTDIR
  | ENOTEMPTY
  | EOVERFLOW
  | EPERM
  | EROFS
  | EXDEV
  /-- What a driver answers. -/
  | driver (e : ℕ)
  deriving DecidableEq

/-! ## Data -/

/-- A component of a path. -/
abbrev Name := List Char

structure Dentry where
  addr : ℕ
  name : Name
  /-- The inode number of the target, or zero. -/
  ino : ℕ
  key : Int32
  /-- The target, if it is in memory. -/
  target : Option ℕ
  /-- `VFS_DENTRY_TEMP` -/
  temp : Bool
  /-- `VFS_DENTRY_MNTPOINT` -/
  mntpoint : Bool
  deriving DecidableEq

/-- Who an entry of an access control list is about (`VFS_ACE_USER`, `VFS_ACE_GROUP`). -/
inductive AceType where
  | unused
  | user
  | group
  deriving DecidableEq

structure AccessControlEntry where
  ace_id : ℕ
  ace_type : AceType
  ace_perms : ℕ
  deriving DecidableEq

/-- The contents of a file, with the flags of its tree. -/
structure FileData where
  size : ℕ
  data : ℕ → UInt8
  /-- `FT_READONLY` -/
  readonly : Bool
  /-- `FT_FIXED_SIZE` -/
  fixedSize : Bool

structure Inode where
  refcount : ℤ
  numOpens : ℤ
  /-- The filesystem it belongs to, if any. -/
  fs : Option ℕ
  /-- The entry that refers to it, in the directory that contains the entry. -/
  parent : Option (ℕ × ℕ)
  /-- The inode number, or zero if it has been dropped. -/
  ino : ℕ
  mode : ℕ
  links : ℤ
  uid : ℕ
  gid : ℕ
  mtime : ℕ
  ixperm : ℕ
  oxperm : ℕ
  dxperm : ℕ
  acl : List AccessControlEntry
  /-- `VFS_INODE_NOUNLINK` -/
  nounlink : Bool
  nextKey : Int32
  /-- The contents, if it is a random-access file. -/
  ft : Option FileData
  /-- The path that it stands for, if it is a symbolic link. -/
  target : Option (List Char)
  dents : List Dentry
  /-- Whether the driver has an `open`. -/
  opens : Bool
  dups : ℤ

/-- All fields are zero. -/
def Inode.zero : Inode where
  refcount := 0
  numOpens := 0
  fs := none
  parent := none
  ino := 0
  mode := 0
  links := 0
  uid := 0
  gid := 0
  mtime := 0
  ixperm := 0
  oxperm := 0
  dxperm := 0
  acl := []
  nounlink := false
  nextKey := 0
  ft := none
  target := none
  dents := []
  opens := false
  dups := 0

namespace Inode

variable (inode : Inode)

/-- The type of an inode, which is a part of its mode. -/
def type : ℕ := inode.mode &&& VFS_MODE_TYPEMASK

/-! ## Entries -/

/-- The entry with an address. -/
def dentry (addr : ℕ) : Option Dentry := inode.dents.find? fun d => d.addr = addr

/-- The entry with a name. -/
def lookup (name : Name) : Option Dentry := inode.dents.find? fun d => d.name = name

/-- A new entry at the end of the list: that of `vfsAppendDentry`, or the one that
`vfsGetChildDentry` makes (`ino` is zero and `temp` is set). -/
def appendDentry (addr : ℕ) (name : Name) (ino : ℕ) (temp : Bool) : Inode :=
  { inode with
    nextKey := inode.nextKey + 1
    dents := inode.dents ++
      [{ addr, name, ino, key := inode.nextKey, target := none, temp, mntpoint := false }] }

/-- Write to the entry with an address. -/
def modifyDentry (addr : ℕ) (f : Dentry → Dentry) : Inode :=
  { inode with dents := inode.dents.map fun d => if d.addr = addr then f d else d }

/-- Take the entry with an address off the list. -/
def eraseDentry (addr : ℕ) : Inode :=
  { inode with dents := inode.dents.filter fun d => d.addr ≠ addr }

/-! ## Reading a directory -/

/-- What `vfsReadDir` finds out about an entry. -/
structure KDirent where
  d_ino : ℕ
  d_name : Name
  deriving DecidableEq

/-- The size of a `struct kdirent` without the name. -/
def KDirent.fixedSize : ℕ := 72

/-- The loop of `vfsReadDir`: look for the key, and whether there are higher ones. -/
def readDirLoop (key : Int32) : (haveHigher : Bool) → List Dentry → Except Errno Dentry
  | haveHigher, [] => .error (if haveHigher then .ENOENT else .EOVERFLOW)
  | haveHigher, dent :: rest =>
    if dent.key = key then .ok dent else readDirLoop key (haveHigher || key < dent.key) rest

/-- The entry that `vfsReadDir` returns; the first two keys stand for the directory and the one that
contains it. -/
def readEntry (key : Int32) : Option Dentry :=
  if key = 0 ∨ key = 1 then none else (readDirLoop key false inode.dents).toOption

/-- `vfsReadDir`: the size of what is found, and the entry; `up` is the inode number of the directory
that contains the parent entry. -/
def vfsReadDir (up : Option ℕ) (key : Int32) : Except Errno (ℕ × KDirent) :=
  if inode.type ≠ VFS_MODE_DIRECTORY then .error .ENOTDIR
  else if key = 0 then .ok (KDirent.fixedSize + 3, ⟨inode.ino, ['.']⟩)
  else if key = 1 then .ok (KDirent.fixedSize + 3, ⟨up.getD inode.ino, ['.', '.']⟩)
  else
    (readDirLoop key false inode.dents).map fun dent =>
      (KDirent.fixedSize + dent.name.length + 1, ⟨dent.ino, dent.name⟩)

end Inode

end Glidix.Fs
