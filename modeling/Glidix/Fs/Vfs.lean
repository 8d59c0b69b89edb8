import Mathlib.Algebra.GroupWithZero.Nat
import Glidix.Fs.Inode
import Glidix.Lib.Heap

/-!
# Path resolution

The inodes in memory count the references to them; the functions below take references over from
their callers and hand them back as the source does.  A call is one step, as its locks are all
released when it returns.  The functions answer `none` where the code does not return: at a
dangling or null pointer, a failed assertion or a panic, and when `fuel` is used up, which bounds how
deep symbolic links are expanded within each other.
-/

namespace Glidix.Fs

open Errno

/-! ## Data -/

scoped instance neZero_umask : NeZero 0o1000 := ⟨by decide⟩

/-- A mountpoint that was traversed: its entry, and the root of what is mounted there. -/
structure MountPoint where
  dent : ℕ × ℕ
  root : ℕ
  deriving DecidableEq

/-- A reference to an inode, with the mountpoints that were traversed to reach it, the last one
first. -/
structure InodeRef where
  inode : ℕ
  top : List MountPoint
  deriving DecidableEq

/-- A reference to an entry, by way of the directory that contains it. -/
structure DentryRef where
  dent : ℕ × ℕ
  top : List MountPoint
  deriving DecidableEq

/-- What a driver finds on the disk about an inode. -/
structure DiskInode where
  mode : ℕ
  links : ℤ
  uid : ℕ
  gid : ℕ
  mtime : ℕ
  ixperm : ℕ
  oxperm : ℕ
  dxperm : ℕ
  acl : List AccessControlEntry
  ft : Option FileData
  target : Option (List Char)
  entries : List (Name × ℕ)
  opens : Bool

/-- The function of a filesystem that registers new inodes. -/
inductive RegInode where
  | null
  /-- `rootRegInode` -/
  | root
  | driver
  deriving DecidableEq

structure FileSystem where
  numMounts : ℤ
  /-- `VFS_ST_RDONLY` -/
  rdonly : Bool
  /-- The inodes in memory, the last one loaded first. -/
  imap : List ℕ
  unmounting : Bool
  /-- What there is on the disk, if the filesystem can load inodes. -/
  loadInode : Option (ℕ → Option DiskInode)
  regInode : RegInode
  /-- Whether the inodes have a `drop`. -/
  drop : Bool

/-- The root and the current directory of a process. -/
structure Process where
  rootdir : InodeRef
  cwd : InodeRef
  deriving DecidableEq

structure File where
  iref : InodeRef
  oflags : ℕ
  refcount : ℤ
  deriving DecidableEq

structure Vfs where
  inodes : Heap Inode
  /-- The address of the next entry. -/
  nextEntry : ℕ
  filesystems : Heap FileSystem
  /-- `kernelRootDentry`, unless it has been released; it is on no list. -/
  rootDentry : Option Dentry
  nextRootIno : ℕ
  procs : List Process
  files : List (Option File)
  /-- The inodes that `drop` was called for, the last one first. -/
  drops : List ℕ
  /-- The inodes that were flushed, the last one first. -/
  flushed : List ℕ

/-- The thread that makes a call: its process, which a kernel thread does not have, and what follows
from its credentials, which is zero for a kernel thread. -/
structure Caller where
  pid : Option ℕ
  euid : ℕ
  egid : ℕ
  groups : List ℕ
  umask : Fin 0o1000
  /-- `havePerm(XP_FSADMIN)` -/
  fsadmin : Bool
  /-- `havePerm(XP_MOUNT)` -/
  mount : Bool
  /-- `time()` -/
  now : ℕ

def kernelRootInode : ℕ := 1
def kernelRootFS : ℕ := 1
/-- Where `kernelRootDentry` is. -/
def kernelRootEntry : ℕ × ℕ := (kernelRootInode, 0)

/-- The links to symbolic links that are followed in a row: `VFS_MAX_LINK_DEPTH` less one. -/
def maxFollowed : ℕ := 7

/-! ## Permissions -/

/-- The permissions that the groups of the caller have by the access control list, if it mentions
any of them. -/
def groupPerms (c : Caller) (acl : List AccessControlEntry) : Option ℕ :=
  let mine := acl.filter fun e => e.ace_type = .group ∧ (e.ace_id = c.egid ∨ e.ace_id ∈ c.groups)
  if mine = [] then none else some (mine.foldl (fun perms e => perms ||| e.ace_perms) 0)

/-- The permissions by the mode of the inode. -/
def unixPerms (c : Caller) (inode : Inode) : ℕ :=
  if c.euid = inode.uid then (inode.mode >>> 6) &&& 7
  else if c.egid = inode.gid ∨ inode.gid ∈ c.groups then (inode.mode >>> 3) &&& 7
  else inode.mode &&& 7

def vfsIsAllowed (c : Caller) (inode : Inode) (perms : ℕ) : Bool :=
  if c.fsadmin then true
  else
    match inode.acl.find? fun e => e.ace_type = .user ∧ e.ace_id = c.euid with
    | some e => e.ace_perms &&& perms = perms
    | none => ((groupPerms c inode.acl).getD (unixPerms c inode)) &&& perms = perms

namespace Vfs

/-! ## Access -/

/-- The entry with an address, in the inode that contains it. -/
def dentry (s : Vfs) (p : ℕ × ℕ) : Option Dentry :=
  if p = kernelRootEntry then s.rootDentry
  else (s.inodes.get p.1).bind fun inode => inode.dentry p.2

def modifyInode (s : Vfs) (i : ℕ) (f : Inode → Inode) : Option Vfs :=
  (s.inodes.modify i f).map fun inodes => { s with inodes }

def modifyDentry (s : Vfs) (p : ℕ × ℕ) (f : Dentry → Dentry) : Option Vfs :=
  if p = kernelRootEntry then s.rootDentry.map fun d => { s with rootDentry := some (f d) }
  else (s.dentry p).bind fun _ => s.modifyInode p.1 fun inode => inode.modifyDentry p.2 f

def modifyFS (s : Vfs) (f : ℕ) (g : FileSystem → FileSystem) : Option Vfs :=
  (s.filesystems.modify f g).map fun filesystems => { s with filesystems }

/-! ## References -/

def vfsUprefInode (s : Vfs) (i : ℕ) : Option Vfs :=
  s.modifyInode i fun inode => { inode with refcount := inode.refcount + 1 }

/-- Take an inode off the map of its filesystem. -/
def removeFromMap (s : Vfs) (i : ℕ) : Option ℕ → Option Vfs
  | none => some s
  | some f => s.modifyFS f fun fs =>
    if fs.unmounting then fs else { fs with imap := fs.imap.erase i }

def vfsDownrefInode (s : Vfs) (i : ℕ) : Option Vfs :=
  (s.inodes.get i).bind fun inode =>
  if inode.refcount - 1 = 0 then
    (s.removeFromMap i inode.fs).bind fun s =>
    (s.inodes.release i).map fun inodes => { s with inodes }
  else s.modifyInode i fun inode => { inode with refcount := inode.refcount - 1 }

/-- Release some mountpoints. -/
def vfsUnrefTop (s : Vfs) : List MountPoint → Option Vfs
  | [] => some s
  | mnt :: top => do
    let s ← s.vfsDownrefInode mnt.root
    let _ ← s.dentry mnt.dent
    let s ← s.vfsDownrefInode mnt.dent.1
    s.vfsUnrefTop top

def vfsUnrefInode (s : Vfs) (iref : InodeRef) : Option Vfs :=
  (s.vfsDownrefInode iref.inode).bind fun s => s.vfsUnrefTop iref.top

def vfsUnrefDentry (s : Vfs) (dref : DentryRef) : Option Vfs := do
  let _ ← s.dentry dref.dent
  let s ← s.vfsDownrefInode dref.dent.1
  s.vfsUnrefTop dref.top

/-- Copy some mountpoints. -/
def copyTop (s : Vfs) : List MountPoint → Option Vfs
  | [] => some s
  | mnt :: top => do
    let _ ← s.dentry mnt.dent
    let s ← s.vfsUprefInode mnt.dent.1
    let s ← s.vfsUprefInode mnt.root
    s.copyTop top

def vfsCopyInodeRef (s : Vfs) (old : InodeRef) : Option (InodeRef × Vfs) := do
  let s ← s.vfsUprefInode old.inode
  let s ← s.copyTop old.top
  return (old, s)

def vfsGetRoot (s : Vfs) (c : Caller) : Option (InodeRef × Vfs) :=
  match c.pid with
  | none => (s.vfsUprefInode kernelRootInode).map fun s => (⟨kernelRootInode, []⟩, s)
  | some pid => (s.procs[pid]?).bind fun p => s.vfsCopyInodeRef p.rootdir

def vfsGetCurrentDir (s : Vfs) (c : Caller) : Option (InodeRef × Vfs) :=
  match c.pid with
  | none => s.vfsGetRoot c
  | some pid => (s.procs[pid]?).bind fun p => s.vfsCopyInodeRef p.cwd

/-- The entry that refers to an inode other than the root of what is mounted. -/
def parentDentry (s : Vfs) (iref : InodeRef) : Option (DentryRef × Vfs) := do
  let inode ← s.inodes.get iref.inode
  let p ← inode.parent
  let _ ← s.dentry p
  let s ← s.vfsUprefInode p.1
  let s ← s.vfsDownrefInode iref.inode
  return (⟨p, iref.top⟩, s)

def vfsGetParentDentry (s : Vfs) (iref : InodeRef) : Option (DentryRef × Vfs) :=
  match iref.top with
  | [] => s.parentDentry iref
  | mnt :: top =>
    if iref.inode = mnt.root then do
      -- leaving a mountpoint
      let s ← s.vfsDownrefInode iref.inode
      let s ← s.vfsDownrefInode mnt.root
      let _ ← s.dentry mnt.dent
      return (⟨mnt.dent, top⟩, s)
    else s.parentDentry iref

end Vfs

/-- `vfsGetDentryContainer` -/
def DentryRef.container (dref : DentryRef) : InodeRef := ⟨dref.dent.1, dref.top⟩

/-! ## Loading inodes -/

/-- An inode that was just loaded: `vfsCallInInode` sets some fields, and the driver the others, up to
the entries. -/
def DiskInode.inode (x : DiskInode) (ino : ℕ) (fs : ℕ) (parent : Option (ℕ × ℕ)) : Inode where
  refcount := 1
  numOpens := 0
  fs := some fs
  parent := parent
  ino := ino
  mode := x.mode
  links := x.links
  uid := x.uid
  gid := x.gid
  mtime := x.mtime
  ixperm := x.ixperm
  oxperm := x.oxperm
  dxperm := x.dxperm
  acl := x.acl
  nounlink := false
  nextKey := 2
  ft := x.ft
  target := x.target
  dents := []
  opens := x.opens
  dups := 1

/-- The driver appends the entries; each is a reference to the inode. -/
def Inode.loadEntries (inode : Inode) : (addr : ℕ) → List (Name × ℕ) → Inode
  | _, [] => inode
  | addr, e :: entries =>
    loadEntries { inode.appendDentry addr e.1 e.2 false with refcount := inode.refcount + 1 }
      (addr + 1) entries

namespace Vfs

/-- Put an inode that was loaded into memory, and on the map of its filesystem. -/
def addInode (s : Vfs) (f : ℕ) (inode : Inode) : Option (ℕ × Vfs) := do
  let s ← s.modifyFS f fun fs => { fs with imap := s.inodes.brk :: fs.imap }
  return (s.inodes.brk, { s with inodes := (s.inodes.new inode).2 })

/-- The inode on a map that has a number, and is in use. -/
def findInode (s : Vfs) (ino : ℕ) (imap : List ℕ) : Option ℕ :=
  imap.find? fun i =>
    ((s.inodes.get i).map fun x => decide (x.refcount ≠ 0 ∧ x.ino = ino)).getD false

/-- Have an entry refer to an inode that is in memory. -/
def callInFound (s : Vfs) (p : ℕ × ℕ) (i : ℕ) : Option Vfs := do
  let s ← s.modifyInode i fun x => { x with dups := x.dups + 1, refcount := x.refcount + 1 }
  s.modifyDentry p fun d => { d with target := some i }

/-- Have an entry refer to an inode that is loaded from the disk. -/
def callInLoaded (s : Vfs) (p : ℕ × ℕ) (ino f : ℕ) (x : DiskInode) : Option Vfs := do
  let (i, s) ← s.addInode f ((x.inode ino f (some p)).loadEntries s.nextEntry x.entries)
  { s with nextEntry := s.nextEntry + x.entries.length }.modifyDentry p fun d =>
    { d with target := some i }

def vfsCallInInode (s : Vfs) (p : ℕ × ℕ) : Option Vfs := do
  let dent ← s.dentry p
  match dent.target with
  | some _ => return s
  | none =>
    let dir ← s.inodes.get p.1
    let f ← dir.fs
    let fs ← s.filesystems.get f
    match s.findInode dent.ino fs.imap with
    | some i => s.callInFound p i
    | none =>
      let loadInode ← fs.loadInode
      match loadInode dent.ino with
      | none => return s
      | some x => s.callInLoaded p dent.ino f x

/-! ## Following entries and links -/

/-- The inode that an entry refers to; without one, the mountpoints are left to the caller. -/
def vfsGetDentryTarget (s : Vfs) (dref : DentryRef) :
    Option (Except (List MountPoint) InodeRef × Vfs) := do
  let s ← s.vfsCallInInode dref.dent
  let dent ← s.dentry dref.dent
  match dent.target with
  | none =>
    let s ← s.vfsDownrefInode dref.dent.1
    return (.error dref.top, s)
  | some target =>
    let s ← s.vfsUprefInode target
    if dent.mntpoint then
      let s ← s.vfsUprefInode target
      let s ← s.vfsUprefInode dref.dent.1
      let s ← s.vfsDownrefInode dref.dent.1
      return (.ok ⟨target, ⟨dref.dent, target⟩ :: dref.top⟩, s)
    else
      let s ← s.vfsDownrefInode dref.dent.1
      return (.ok ⟨target, dref.top⟩, s)

/-- The type of `vfsGetDentry` with `create` unset, which links are followed with. -/
abbrev GetDentry := Vfs → InodeRef → List Char → Option (Except Errno DentryRef × Vfs)

/-- What `vfsGetDentryTarget` answers, to the caller that follows links. -/
def targetOrFail (s : Vfs) (dref : DentryRef) : Option (Except Errno InodeRef × Vfs) := do
  match ← s.vfsGetDentryTarget dref with
  | (.ok iref, s) => return (.ok iref, s)
  | (.error top, s) =>
    let s ← s.vfsUnrefTop top
    return (.error EIO, s)

/-- The loop of `vfsGetInode`: follow links as long as there are any. -/
def followLinks (getDentry : GetDentry) :
    (remaining : ℕ) → Vfs → InodeRef → Option (Except Errno InodeRef × Vfs)
  | remaining, s, iref => do
    let inode ← s.inodes.get iref.inode
    if inode.type ≠ VFS_MODE_LINK then return (.ok iref, s)
    else
      match remaining with
      | 0 =>
        let s ← s.vfsUnrefInode iref
        return (.error ELOOP, s)
      | remaining + 1 =>
        match inode.target with
        | none =>
          let s ← s.vfsUnrefInode iref
          return (.error EIO, s)
        | some target =>
          let (dref, s) ← s.vfsGetParentDentry iref
          match ← getDentry s dref.container target with
          | (.error e, s) => return (.error e, s)
          | (.ok dref, s) =>
            match ← s.targetOrFail dref with
            | (.error e, s) => return (.error e, s)
            | (.ok iref, s) => followLinks getDentry remaining s iref

/-- `vfsGetInode` with `follow` set. -/
def vfsGetInode (getDentry : GetDentry) (s : Vfs) (dref : DentryRef) :
    Option (Except Errno InodeRef × Vfs) := do
  match ← s.targetOrFail dref with
  | (.error e, s) => return (.error e, s)
  | (.ok iref, s) => s.followLinks getDentry maxFollowed iref

/-! ## Walking down a path -/

/-- An entry without a target, for the caller to link. -/
def addPlaceholder (s : Vfs) (c : Caller) (dir : ℕ) (name : Name) : Option Vfs :=
  { s with nextEntry := s.nextEntry + 1 }.modifyInode dir fun inode =>
    { inode.appendDentry s.nextEntry name 0 true with
      refcount := inode.refcount + 1, mtime := c.now }

/-- `vfsGetChildDentry`; there may be no entry to return. -/
def vfsGetChildDentry (s : Vfs) (c : Caller) (diref : InodeRef) (entname : Name) (create : Bool) :
    Option (Option DentryRef × Vfs) := do
  if entname = ['.'] ∨ entname = [] then
    let (dref, s) ← s.vfsGetParentDentry diref
    return (some dref, s)
  else if entname = ['.', '.'] then
    let (root, s) ← s.vfsGetRoot c
    let s ← s.vfsUnrefInode root
    let (parent, s) ← s.vfsGetParentDentry diref
    if diref.inode = root.inode then return (some parent, s)
    else
      let (dref, s) ← s.vfsGetParentDentry parent.container
      return (some dref, s)
  else
    let inode ← s.inodes.get diref.inode
    match inode.lookup entname with
    | some dent => return (some ⟨(diref.inode, dent.addr), diref.top⟩, s)
    | none =>
      if create ∧ vfsIsAllowed c inode VFS_ACE_WRITE then
        let s' ← s.addPlaceholder c diref.inode entname
        return (some ⟨(diref.inode, s.nextEntry), diref.top⟩, s')
      else
        let s ← s.vfsUnrefInode diref
        return (none, s)

end Vfs

/-- The components of a path. -/
def splitPath : List Char → List Name
  | [] => [[]]
  | ch :: path =>
    if ch = '/' then [] :: splitPath path
    else
      match splitPath path with
      | [] => [[ch]]
      | token :: tokens => (ch :: token) :: tokens

namespace Vfs

/-- The loop of `vfsGetDentryRecur`, from an entry on. -/
def walk (getDentry : GetDentry) (c : Caller) (create : Bool) :
    List Name → Vfs → DentryRef → Option (Except Errno DentryRef × Vfs)
  | [], s, dref => some (.ok dref, s)
  | token :: tokens, s, dref => do
    match ← s.vfsGetInode getDentry dref with
    | (.error e, s) => return (.error e, s)
    | (.ok dir, s) =>
      let inode ← s.inodes.get dir.inode
      if inode.type ≠ VFS_MODE_DIRECTORY then
        let s ← s.vfsUnrefInode dir
        return (.error ENOTDIR, s)
      else if ¬ vfsIsAllowed c inode VFS_ACE_EXEC then
        let s ← s.vfsUnrefInode dir
        return (.error EACCES, s)
      else
        match ← s.vfsGetChildDentry c dir token (create && tokens.isEmpty) with
        | (none, s) => return (.error ENOENT, s)
        | (some dref, s) => walk getDentry c create tokens s dref

def vfsUnrefStart (s : Vfs) : Option InodeRef → Option Vfs
  | none => some s
  | some iref => s.vfsUnrefInode iref

/-- The directory where a path starts, whose first character is given. -/
def startDir (s : Vfs) (c : Caller) (startdir : Option InodeRef) (ch : Char) :
    Option (InodeRef × Vfs) :=
  if ch = '/' then (s.vfsUnrefStart startdir).bind fun s => s.vfsGetRoot c
  else
    match startdir with
    | none => s.vfsGetCurrentDir c
    | some iref => some (iref, s)

/-- The entry that a path leads to; no `startdir` stands for the current directory. -/
def vfsGetDentry (c : Caller) : (fuel : ℕ) → Vfs → (startdir : Option InodeRef) →
    (path : List Char) → (create : Bool) → Option (Except Errno DentryRef × Vfs)
  | 0, _, _, _, _ => none
  | _ + 1, s, startdir, [], _ => do
    let s ← s.vfsUnrefStart startdir
    return (.error ENOENT, s)
  | fuel + 1, s, startdir, ch :: path, create => do
    let (dir, s) ← s.startDir c startdir ch
    let (dref, s) ← s.vfsGetParentDentry dir
    walk (fun s diref target => vfsGetDentry c fuel s (some diref) target false) c create
      (splitPath (if ch = '/' then path else ch :: path)) s dref

end Vfs

end Glidix.Fs
