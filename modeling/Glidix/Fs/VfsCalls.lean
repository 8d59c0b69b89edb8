import Glidix.Fs.Vfs

/-!
# Calls of the filesystem

The calls that make, link, move and remove entries, open files and mount filesystems.  A call answers
with an error number or without one; what a driver answers is an argument.
-/

namespace Glidix.Fs

open Errno

/-! ## Constants -/

def O_WRONLY : ℕ := 1
def O_RDONLY : ℕ := 2
def O_CREAT : ℕ := 8
def O_EXCL : ℕ := 16
def O_TRUNC : ℕ := 64

def VFS_MKDIR_NOVALID : ℕ := 1
def VFS_AT_REMOVEDIR : ℕ := 1
def VFS_AT_SYMLINK_FOLLOW : ℕ := 2
def VFS_AT_NOVALID : ℕ := 0x10000
def VFS_MV_EXCL : ℕ := 1
def MNT_RDONLY : ℕ := 1

/-- Whether a flag is set. -/
def hasFlag (flags flag : ℕ) : Bool := flags &&& flag ≠ 0

/-- What a driver sets in an inode that it registers; numbers are not zero. -/
structure Registration where
  ino : ℕ
  ino_ne_zero : ino ≠ 0
  ft : Option FileData
  opens : Bool

/-- The tree of a new file is empty. -/
def FileData.empty : FileData := ⟨0, fun _ => 0, false, false⟩

/-- `ftTruncate` to size zero. -/
def FileData.truncate (ft : FileData) : FileData :=
  if ft.fixedSize ∨ ft.readonly then ft else { ft with size := 0, data := fun _ => 0 }

namespace Vfs

/-! ## Making inodes -/

/-- The inode that `vfsCreateInode` makes, up to the call of `regInode`. -/
def newInode (c : Caller) (f mode : ℕ) : Inode :=
  { Inode.zero with
    refcount := 1
    fs := some f
    mode := mode - (mode &&& c.umask)
    nextKey := 2
    uid := c.euid
    gid := c.egid
    mtime := c.now }

/-- `vfsCreateInode` on a filesystem; `reg` is what its driver answers. -/
def vfsCreateInode (s : Vfs) (c : Caller) (f mode : ℕ) (reg : Except Errno Registration) :
    Option (Except Errno ℕ × Vfs) := do
  let inode := newInode c f mode
  let fs ← s.filesystems.get f
  match fs.regInode with
  | .null => none
  | .root =>
    let ft := if inode.type = 0 then some FileData.empty else none
    let (i, s) ← s.addInode f { inode with ino := s.nextRootIno, ft }
    return (.ok i, { s with nextRootIno := s.nextRootIno + 1 })
  | .driver =>
    match reg with
    | .error e => return (.error e, s)
    | .ok r =>
      let (i, s) ← s.addInode f { inode with ino := r.ino, ft := r.ft, opens := r.opens }
      return (.ok i, s)

/-! ## Linking -/

/-- The directory of an entry, which must be on a filesystem. -/
def dirFS (s : Vfs) (p : ℕ × ℕ) : Option (ℕ × FileSystem) := do
  let dir ← s.inodes.get p.1
  let f ← dir.fs
  let fs ← s.filesystems.get f
  return (f, fs)

/-- Have an entry name an inode, which is then referred to by it; the first entry is the parent. -/
def setTarget (s : Vfs) (p : ℕ × ℕ) (target : ℕ) (temp : Bool) : Option Vfs := do
  let dent ← s.dentry p
  if dent.ino ≠ 0 then none
  else
    let s ← s.vfsUprefInode target
    let inode ← s.inodes.get target
    let s ← s.modifyDentry p fun d => { d with ino := inode.ino, target := some target, temp }
    s.modifyInode target fun x => { x with parent := x.parent.or (some p) }

/-- Count a link to an inode. -/
def linkUp (s : Vfs) (target : ℕ) : Option Vfs :=
  s.modifyInode target fun x => { x with links := x.links + 1, dups := x.dups + 1 }

def vfsLinkInode (s : Vfs) (dref : DentryRef) (target : ℕ) : Option Vfs := do
  let s ← s.setTarget dref.dent target false
  let s ← s.vfsUnrefDentry dref
  s.linkUp target

def vfsLinkAndGetInode (s : Vfs) (dref : DentryRef) (target : ℕ) :
    Option (Except (List MountPoint) InodeRef × Vfs) := do
  let s ← s.setTarget dref.dent target false
  let s ← s.linkUp target
  s.vfsGetDentryTarget dref

/-- Take a reference to the directory that an inode is given for a parent, if it has none. -/
def uprefParent (s : Vfs) (inode : Inode) (dir : ℕ) : Option Vfs :=
  if inode.parent = none then s.vfsUprefInode dir else some s

/-- `vfsBindInode`: the reference that a new parent is given is never released. -/
def vfsBindInode (s : Vfs) (dref : DentryRef) (target : ℕ) : Option Vfs := do
  let inode ← s.inodes.get target
  let s ← s.setTarget dref.dent target true
  let s ← s.uprefParent inode dref.dent.1
  let s ← s.vfsUnrefDentry dref
  s.modifyInode target fun x => { x with links := x.links + 1 }

/-! ## Removing entries -/

/-- Call the `drop` of an inode, if it has one. -/
def dropInode (s : Vfs) (i : ℕ) : Option ℕ → Option Vfs
  | none => some s
  | some f => do
    let fs ← s.filesystems.get f
    return if fs.drop then { s with drops := i :: s.drops } else s

/-- Count a link to an inode less, which is dropped if it was the last one. -/
def linkDown (s : Vfs) (i : ℕ) : Option Vfs := do
  let inode ← s.inodes.get i
  if inode.links - 1 = 0 then
    let s ← s.dropInode i inode.fs
    s.modifyInode i fun x => { x with links := 0, ft := none, ino := 0, dups := x.dups - 1 }
  else s.modifyInode i fun x => { x with links := x.links - 1, dups := x.dups - 1 }

def vfsLinkDown (s : Vfs) (i : ℕ) : Option Vfs := do
  let s ← s.linkDown i
  s.vfsDownrefInode i

/-- Take an entry off the list of its directory. -/
def eraseDentry (s : Vfs) (p : ℕ × ℕ) : Option Vfs :=
  if p = kernelRootEntry then some { s with rootDentry := none }
  else s.modifyInode p.1 fun inode => inode.eraseDentry p.2

def vfsRemoveDentry (s : Vfs) (dref : DentryRef) : Option Vfs := do
  let dent ← s.dentry dref.dent
  if dent.ino ≠ 0 then none
  else
    let s ← s.eraseDentry dref.dent
    let s ← s.vfsDownrefInode dref.dent.1
    let s ← s.vfsDownrefInode dref.dent.1
    s.vfsUnrefTop dref.top

/-- Whether the caller may remove an entry of a directory that refers to an inode. -/
def mayUnlink (c : Caller) (dir inode : Inode) : Bool :=
  c.fsadmin ||
    if hasFlag dir.mode VFS_MODE_STICKY then dir.uid = c.euid ∨ inode.uid = c.euid
    else vfsIsAllowed c dir VFS_ACE_WRITE

/-- The checks that `vfsUnlinkInode` makes once it has the inode. -/
def unlinkError (c : Caller) (flags : ℕ) (dir inode : Inode) : Option Errno :=
  if inode.nounlink then some EPERM
  else if hasFlag flags VFS_AT_REMOVEDIR ∧ inode.type ≠ VFS_MODE_DIRECTORY then some ENOTDIR
  else if hasFlag flags VFS_AT_REMOVEDIR ∧ inode.dents ≠ [] then some ENOTEMPTY
  else if hasFlag flags VFS_AT_REMOVEDIR ∧ inode.refcount ≠ 1 then some EBUSY
  else if ¬ hasFlag flags VFS_AT_REMOVEDIR ∧ inode.type = VFS_MODE_DIRECTORY then some EISDIR
  else if ¬ mayUnlink c dir inode then some EACCES
  else none

/-- Release an entry, and answer with an error. -/
def failDentry (s : Vfs) (dref : DentryRef) (e : Errno) : Option (Option Errno × Vfs) := do
  let s ← s.vfsUnrefDentry dref
  return (some e, s)

/-- Remove an entry without a target, and answer with an error. -/
def failRemove (s : Vfs) (dref : DentryRef) (e : Errno) : Option (Option Errno × Vfs) := do
  let s ← s.vfsRemoveDentry dref
  return (some e, s)

def vfsUnlinkInode (s : Vfs) (c : Caller) (dref : DentryRef) (flags : ℕ) :
    Option (Option Errno × Vfs) := do
  let (_, fs) ← s.dirFS dref.dent
  let dent ← s.dentry dref.dent
  if fs.rdonly ∧ ¬ hasFlag flags VFS_AT_NOVALID then s.failDentry dref EROFS
  else if dref.dent = kernelRootEntry ∨ dent.mntpoint then s.failDentry dref EBUSY
  else
    let s ← s.vfsCallInInode dref.dent
    let dent ← s.dentry dref.dent
    match dent.target with
    | none => s.failDentry dref EIO
    | some target =>
      let inode ← s.inodes.get target
      let dir ← s.inodes.get dref.dent.1
      match unlinkError c flags dir inode with
      | some e => s.failDentry dref e
      | none =>
        let s ← s.modifyInode dref.dent.1 fun x => { x with mtime := c.now }
        let s ← s.modifyDentry dref.dent fun d => { d with target := none, ino := 0 }
        let s ← s.vfsRemoveDentry dref
        let s ← s.vfsLinkDown target
        return (none, s)

/-! ## Calls that make entries -/

/-- The inode of a call that makes one, and the link to it. -/
def createAndLink (s : Vfs) (c : Caller) (dref : DentryRef) (mode : ℕ)
    (reg : Except Errno Registration) (target : Option (List Char)) :
    Option (Option Errno × Vfs) := do
  let (f, _) ← s.dirFS dref.dent
  match ← s.vfsCreateInode c f mode reg with
  | (.error e, s) => s.failRemove dref e
  | (.ok i, s) =>
    let s ← s.modifyInode i fun x => { x with target }
    let s ← s.vfsLinkInode dref i
    let s ← s.vfsDownrefInode i
    return (none, s)

/-- `vfsMakeDirEx` and `vfsCreateSymlinkEx`: make an entry and an inode for it. -/
def makeEntry (s : Vfs) (c : Caller) (fuel : ℕ) (startdir : Option InodeRef) (path : List Char)
    (novalid : Bool) (mode : ℕ) (reg : Except Errno Registration) (target : Option (List Char)) :
    Option (Option Errno × Vfs) := do
  match ← vfsGetDentry c fuel s startdir path true with
  | (.error e, s) => return (some e, s)
  | (.ok dref, s) =>
    let dent ← s.dentry dref.dent
    if dent.ino ≠ 0 then s.failDentry dref EEXIST
    else
      let (_, fs) ← s.dirFS dref.dent
      if fs.rdonly ∧ ¬ novalid then s.failRemove dref EROFS
      else s.createAndLink c dref mode reg target

def vfsMakeDirEx (s : Vfs) (c : Caller) (fuel : ℕ) (startdir : Option InodeRef) (path : List Char)
    (mode flags : ℕ) (reg : Except Errno Registration) : Option (Option Errno × Vfs) :=
  s.makeEntry c fuel startdir path (hasFlag flags VFS_MKDIR_NOVALID)
    (VFS_MODE_DIRECTORY ||| mode &&& 0xFFF) reg none

def vfsCreateSymlinkEx (s : Vfs) (c : Caller) (fuel : ℕ) (oldpath : List Char)
    (newstart : Option InodeRef) (newpath : List Char) (flags : ℕ)
    (reg : Except Errno Registration) : Option (Option Errno × Vfs) :=
  s.makeEntry c fuel newstart newpath (hasFlag flags VFS_AT_NOVALID) (VFS_MODE_LINK ||| 0o777) reg
    (some oldpath)

/-- The inode that a link is made to.  When an entry that is a link has no inode, the references to
the mountpoints are lost. -/
def linkSource (s : Vfs) (c : Caller) (fuel : ℕ) (dref : DentryRef) (flags : ℕ) :
    Option (Except Errno InodeRef × Vfs) := do
  if hasFlag flags VFS_AT_SYMLINK_FOLLOW then
    s.vfsGetInode (fun s diref target => vfsGetDentry c fuel s (some diref) target false) dref
  else
    match ← s.vfsGetDentryTarget dref with
    | (.error _, s) => return (.error EIO, s)
    | (.ok iref, s) => return (.ok iref, s)

def linkOrBind (s : Vfs) (temp : Bool) (dref : DentryRef) (target : ℕ) : Option Vfs :=
  if temp then s.vfsBindInode dref target else s.vfsLinkInode dref target

/-- The rest of `vfsCreateLink`, with a new entry. -/
def linkEntry (s : Vfs) (iref : InodeRef) (drefNew : DentryRef) (temp : Bool) (flags : ℕ) :
    Option (Option Errno × Vfs) := do
  let dent ← s.dentry drefNew.dent
  if dent.ino ≠ 0 then
    let s ← s.vfsUnrefInode iref
    s.failDentry drefNew EEXIST
  else
    let (f, fs) ← s.dirFS drefNew.dent
    let inode ← s.inodes.get iref.inode
    if fs.rdonly ∧ ¬ hasFlag flags VFS_AT_NOVALID then
      let s ← s.vfsUnrefInode iref
      s.failRemove drefNew EROFS
    else if inode.fs ≠ some f then
      let s ← s.vfsRemoveDentry drefNew
      let s ← s.vfsUnrefInode iref
      return (some EXDEV, s)
    else
      let s ← s.linkOrBind temp drefNew iref.inode
      let s ← s.vfsUnrefInode iref
      return (none, s)

/-- The inode that a link is made to, and whether the entry that leads to it is temporary. -/
def linkTarget (s : Vfs) (c : Caller) (fuel : ℕ) (oldstart : Option InodeRef)
    (oldpath : List Char) (flags : ℕ) : Option (Except Errno (InodeRef × Bool) × Vfs) := do
  match ← vfsGetDentry c fuel s oldstart oldpath false with
  | (.error e, s) => return (.error e, s)
  | (.ok dref, s) =>
    let dent ← s.dentry dref.dent
    match ← s.linkSource c fuel dref flags with
    | (.error e, s) => return (.error e, s)
    | (.ok iref, s) => return (.ok (iref, dent.temp), s)

def vfsCreateLink (s : Vfs) (c : Caller) (fuel : ℕ) (oldstart : Option InodeRef)
    (oldpath : List Char) (newstart : Option InodeRef) (newpath : List Char) (flags : ℕ) :
    Option (Option Errno × Vfs) := do
  if flags ≠ 0 ∧ flags ≠ VFS_AT_SYMLINK_FOLLOW then
    let s ← s.vfsUnrefStart oldstart
    let s ← s.vfsUnrefStart newstart
    return (some EINVAL, s)
  else
    match ← s.linkTarget c fuel oldstart oldpath flags with
    | (.error e, s) =>
      let s ← s.vfsUnrefStart newstart
      return (some e, s)
    | (.ok (iref, temp), s) =>
      let inode ← s.inodes.get iref.inode
      if inode.type = VFS_MODE_DIRECTORY then
        let s ← s.vfsUnrefStart newstart
        let s ← s.vfsUnrefInode iref
        return (some EPERM, s)
      else
        match ← vfsGetDentry c fuel s newstart newpath true with
        | (.error e, s) =>
          let s ← s.vfsUnrefInode iref
          return (some e, s)
        | (.ok drefNew, s) => s.linkEntry iref drefNew temp flags

/-! ## Files -/

/-- `vfsOpenInode`: the description that is opened; `refused` is the error of the driver's `open`. -/
def vfsOpenInode (s : Vfs) (c : Caller) (iref : InodeRef) (oflag : ℕ) (refused : Option Errno) :
    Option (Except Errno ℕ × Vfs) := do
  let s ← s.modifyInode iref.inode fun x => { x with numOpens := x.numOpens + 1 }
  let inode ← s.inodes.get iref.inode
  match if inode.opens then refused else none with
  | some e =>
    let s ← s.vfsUnrefInode iref
    return (.error e, s)
  | none =>
    let s ← s.modifyInode iref.inode fun x =>
      if hasFlag oflag O_TRUNC ∧ x.ft.isSome then
        { x with ft := x.ft.map FileData.truncate, mtime := c.now }
      else x
    return (.ok s.files.length, { s with files := s.files ++ [some ⟨iref, oflag, 1⟩] })

/-- The inode that `vfsOpen` opens, and whether it was just created. -/
def openTarget (s : Vfs) (c : Caller) (fuel : ℕ) (dref : DentryRef) (oflag mode : ℕ)
    (reg : Except Errno Registration) : Option (Except Errno (InodeRef × Bool) × Vfs) := do
  let dent ← s.dentry dref.dent
  if dent.ino ≠ 0 then
    if hasFlag oflag O_EXCL then
      let s ← s.vfsUnrefDentry dref
      return (.error EEXIST, s)
    else
      let (_, fs) ← s.dirFS dref.dent
      if fs.rdonly ∧ hasFlag oflag O_WRONLY then
        let s ← s.vfsUnrefDentry dref
        return (.error EROFS, s)
      else
        match ← s.vfsGetInode (fun s diref target => vfsGetDentry c fuel s (some diref) target false)
          dref with
        | (.error e, s) => return (.error e, s)
        | (.ok iref, s) => return (.ok (iref, false), s)
  else
    let (f, fs) ← s.dirFS dref.dent
    if fs.rdonly then
      let s ← s.vfsRemoveDentry dref
      return (.error EROFS, s)
    else
      match ← s.vfsCreateInode c f (mode &&& 0xFFF) reg with
      | (.error e, s) =>
        let s ← s.vfsRemoveDentry dref
        return (.error e, s)
      | (.ok i, s) =>
        match ← s.vfsLinkAndGetInode dref i with
        -- the entry has a target now
        | (.error _, _) => none
        | (.ok iref, s) =>
          let s ← s.vfsDownrefInode i
          return (.ok (iref, true), s)

/-- The permissions that the access mode asks for. -/
def permsNeeded (oflag : ℕ) : ℕ :=
  (if hasFlag oflag O_RDONLY then VFS_ACE_READ else 0) |||
    if hasFlag oflag O_WRONLY then VFS_ACE_WRITE else 0

/-- `vfsOpen`, up to the call of `vfsOpenInode`. -/
def openPath (s : Vfs) (c : Caller) (fuel : ℕ) (startdir : Option InodeRef) (path : List Char)
    (oflag mode : ℕ) (reg : Except Errno Registration) : Option (Except Errno InodeRef × Vfs) := do
  match ← vfsGetDentry c fuel s startdir path (hasFlag oflag O_CREAT) with
  | (.error e, s) => return (.error e, s)
  | (.ok dref, s) =>
    match ← s.openTarget c fuel dref oflag mode reg with
    | (.error e, s) => return (.error e, s)
    | (.ok (iref, justCreated), s) =>
      let inode ← s.inodes.get iref.inode
      if ¬ justCreated ∧ ¬ vfsIsAllowed c inode (permsNeeded oflag) then
        let s ← s.vfsUnrefInode iref
        return (.error EACCES, s)
      else return (.ok iref, s)

def vfsOpen (s : Vfs) (c : Caller) (fuel : ℕ) (startdir : Option InodeRef) (path : List Char)
    (oflag mode : ℕ) (reg : Except Errno Registration) (refused : Option Errno) :
    Option (Except Errno ℕ × Vfs) := do
  match ← s.openPath c fuel startdir path oflag mode reg with
  | (.error e, s) => return (.error e, s)
  | (.ok iref, s) => s.vfsOpenInode c iref oflag refused

/-- Release a description. -/
def vfsClose (s : Vfs) (fd : ℕ) : Option Vfs := do
  let fp ← (s.files[fd]?).join
  if fp.refcount - 1 = 0 then
    let s ← s.modifyInode fp.iref.inode fun x => { x with numOpens := x.numOpens - 1 }
    let s ← s.vfsUnrefInode fp.iref
    return { s with files := s.files.set fd none }
  else
    return { s with files := s.files.set fd (some { fp with refcount := fp.refcount - 1 }) }

/-! ## Moving entries -/

/-- Why an entry that exists may not be replaced. -/
def replaceError (inode : Inode) : Option Errno :=
  if inode.type = VFS_MODE_DIRECTORY ∧ inode.dents ≠ [] then some ENOTEMPTY
  else if inode.type = VFS_MODE_DIRECTORY ∧ inode.refcount ≠ 1 then some EBUSY
  else none

/-- Release both entries, and answer with an error or without one. -/
def failBoth (s : Vfs) (drefOld drefNew : DentryRef) (e : Option Errno) :
    Option (Option Errno × Vfs) := do
  let s ← s.vfsUnrefDentry drefOld
  let s ← s.vfsUnrefDentry drefNew
  return (e, s)

/-- Give an inode another parent. -/
def setParent (s : Vfs) (p : ℕ × ℕ) : Option ℕ → Option Vfs
  | none => some s
  | some i => s.modifyInode i fun x => { x with parent := some p }

/-- The end of `vfsMove`: the new entry takes over the target of the old one, which is removed. -/
def moveEntry (s : Vfs) (drefOld drefNew : DentryRef) : Option Vfs := do
  let dent ← s.dentry drefOld.dent
  let s ← s.modifyDentry drefNew.dent fun d =>
    { d with ino := dent.ino, target := dent.target, temp := false }
  let s ← s.setParent drefNew.dent dent.target
  let s ← s.modifyDentry drefOld.dent fun d => { d with ino := 0, target := none }
  let s ← s.vfsRemoveDentry drefOld
  s.vfsUnrefDentry drefNew

/-- `vfsMove`, once both entries are found. -/
def moveFound (s : Vfs) (c : Caller) (drefOld drefNew : DentryRef) (flags : ℕ) :
    Option (Option Errno × Vfs) := do
  let dirNew ← s.inodes.get drefNew.dent.1
  let dirOld ← s.inodes.get drefOld.dent.1
  if drefNew.dent = drefOld.dent then s.failBoth drefOld drefNew none
  else if ¬ vfsIsAllowed c dirNew VFS_ACE_WRITE then s.failBoth drefOld drefNew (some EACCES)
  else
    let dent ← s.dentry drefNew.dent
    if dirNew.fs ≠ dirOld.fs then
      let s ← s.vfsUnrefDentry drefOld
      if dent.ino ≠ 0 then s.failDentry drefNew EXDEV else s.failRemove drefNew EXDEV
    else if dent.ino = 0 then
      let s ← s.moveEntry drefOld drefNew
      return (none, s)
    else if hasFlag flags VFS_MV_EXCL then s.failBoth drefOld drefNew (some EEXIST)
    else
      let s ← s.vfsCallInInode drefNew.dent
      let dent ← s.dentry drefNew.dent
      match dent.target with
      | none => s.failBoth drefOld drefNew (some EIO)
      | some removing =>
        let inode ← s.inodes.get removing
        match replaceError inode with
        | some e => s.failBoth drefOld drefNew (some e)
        | none =>
          let s ← s.modifyDentry drefNew.dent fun d => { d with target := none }
          let s ← s.vfsLinkDown removing
          let s ← s.moveEntry drefOld drefNew
          return (none, s)

def vfsMove (s : Vfs) (c : Caller) (fuel : ℕ) (startold : Option InodeRef) (oldpath : List Char)
    (startnew : Option InodeRef) (newpath : List Char) (flags : ℕ) :
    Option (Option Errno × Vfs) := do
  if flags ≠ 0 ∧ flags ≠ VFS_MV_EXCL then
    let s ← s.vfsUnrefStart startold
    let s ← s.vfsUnrefStart startnew
    return (some EINVAL, s)
  else
    match ← vfsGetDentry c fuel s startold oldpath false with
    | (.error e, s) =>
      let s ← s.vfsUnrefStart startnew
      return (some e, s)
    | (.ok drefOld, s) =>
      let dent ← s.dentry drefOld.dent
      let dir ← s.inodes.get drefOld.dent.1
      if ¬ vfsIsAllowed c dir VFS_ACE_WRITE ∨ dent.temp then
        let s ← s.vfsUnrefDentry drefOld
        let s ← s.vfsUnrefStart startnew
        return (some (if ¬ vfsIsAllowed c dir VFS_ACE_WRITE then EACCES else EPERM), s)
      else
        match ← vfsGetDentry c fuel s startnew newpath true with
        | (.error e, s) => s.failDentry drefOld e
        | (.ok drefNew, s) => s.moveFound c drefOld drefNew flags

/-! ## Mounting -/

/-- The flags of a filesystem are set when it is mounted for the first time. -/
def applyFlags (s : Vfs) (flags : ℕ) : Option ℕ → Option Vfs
  | none => some s
  | some f => s.modifyFS f fun fs =>
    { fs with rdonly := fs.rdonly || fs.numMounts = 0 && hasFlag flags MNT_RDONLY }

/-- The counter of the inode that is covered; without one, it is as if there were no others. -/
def coveredCount (s : Vfs) : Option ℕ → Option ℤ
  | none => some 1
  | some old => (s.inodes.get old).map Inode.refcount

/-- Release the inode that is covered, if there is one. -/
def downrefCovered (s : Vfs) : Option ℕ → Option Vfs
  | none => some s
  | some old => s.vfsDownrefInode old

def vfsMount (s : Vfs) (c : Caller) (dref : DentryRef) (mntroot flags : ℕ) :
    Option (Option Errno × Vfs) := do
  if ¬ c.mount then s.failDentry dref EACCES
  else
    let root ← s.inodes.get mntroot
    let s ← s.applyFlags flags root.fs
    let dent ← s.dentry dref.dent
    let refcount ← s.coveredCount dent.target
    if dent.mntpoint ∨ refcount ≠ 1 then s.failDentry dref EBUSY
    else
      let s ← s.modifyDentry dref.dent fun d =>
        { d with
          target := some mntroot
          mntpoint := true
          ino := if d.ino = 0 then root.ino else d.ino }
      let s ← s.vfsUprefInode mntroot
      let f ← root.fs
      let s ← s.modifyFS f fun fs => { fs with numMounts := fs.numMounts + 1 }
      let s ← s.vfsUprefInode dref.dent.1
      let s ← s.vfsUnrefDentry dref
      let s ← s.downrefCovered dent.target
      return (none, s)

/-- Whether an inode is in use by others than the entries that refer to it and those it contains. -/
def anyBusy (s : Vfs) : List ℕ → Option Bool
  | [] => some false
  | i :: imap => do
    let inode ← s.inodes.get i
    if inode.refcount ≠ inode.dups + inode.dents.length then return true
    else s.anyBusy imap

/-- Release the target of an entry, if it is on another filesystem. -/
def downrefOther (s : Vfs) (f : ℕ) : Option ℕ → Option Vfs
  | none => some s
  | some target => do
    let inode ← s.inodes.get target
    if inode.fs ≠ some f then s.vfsDownrefInode target else return s

/-- Release the entries of an inode that is removed with its filesystem. -/
def freeDents (s : Vfs) (f i : ℕ) : List Dentry → Option Vfs
  | [] => some s
  | dent :: dents => do
    let s ← s.modifyInode i fun x => { x with dents }
    let s ← s.downrefOther f dent.target
    let s ← s.vfsDownrefInode i
    s.freeDents f i dents

/-- `vfsFlush` -/
def vfsFlush (s : Vfs) (i : ℕ) : Option Vfs := do
  let inode ← s.inodes.get i
  return if inode.ino = 0 then s else { s with flushed := i :: s.flushed }

/-- The loop of `vfsUnmount` over the inodes of a filesystem. -/
def freeInodes (s : Vfs) (f : ℕ) : List ℕ → Option Vfs
  | [] => some s
  | i :: imap => do
    let s ← s.modifyFS f fun fs => { fs with imap }
    let s ← s.vfsFlush i
    let inode ← s.inodes.get i
    let s ← s.freeDents f i inode.dents
    let s ← s.vfsDownrefInode i
    s.freeInodes f imap

/-- Remove a filesystem, whose inodes are not in use. -/
def freeFS (s : Vfs) (f : ℕ) : Option Vfs := do
  let s ← s.modifyFS f fun fs => { fs with unmounting := true }
  let fs ← s.filesystems.get f
  let s ← s.freeInodes f fs.imap
  let filesystems ← s.filesystems.release f
  return { s with filesystems }

/-- The end of `vfsUnmount`: the entry stops being a mountpoint. -/
def unmountDentry (s : Vfs) (dref : DentryRef) : Option Vfs := do
  let s ← s.vfsDownrefInode dref.dent.1
  let dent ← s.dentry dref.dent
  let s ← s.modifyDentry dref.dent fun d =>
    { d with target := none, mntpoint := false, ino := if d.temp then 0 else d.ino }
  if dent.temp then s.vfsRemoveDentry dref else s.vfsUnrefDentry dref

/-- `vfsUnmount`, once the entry is found. -/
def unmountFound (s : Vfs) (dref : DentryRef) : Option (Option Errno × Vfs) := do
  let dent ← s.dentry dref.dent
  if dref.dent = kernelRootEntry then s.failDentry dref EPERM
  else if ¬ dent.mntpoint then s.failDentry dref EINVAL
  else
    let target ← dent.target
    let root ← s.inodes.get target
    let f ← root.fs
    let fs ← s.filesystems.get f
    if fs.numMounts = 1 then
      if ← s.anyBusy fs.imap then s.failDentry dref EBUSY
      else
        let s ← s.freeFS f
        let s ← s.unmountDentry dref
        return (none, s)
    else
      let s ← s.modifyFS f fun fs => { fs with numMounts := fs.numMounts - 1 }
      let s ← s.unmountDentry dref
      return (none, s)

def vfsUnmount (s : Vfs) (c : Caller) (fuel : ℕ) (path : List Char) (flags : ℕ) :
    Option (Option Errno × Vfs) := do
  if flags ≠ 0 then return (some EINVAL, s)
  else if ¬ c.mount then return (some EACCES, s)
  else
    match ← vfsGetDentry c fuel s none path false with
    | (.error e, s) => return (some e, s)
    | (.ok dref, s) => s.unmountFound dref

end Vfs

/-! ## Calls of a process -/

/-- A call, with its arguments; paths start from the directory that is open as a file, or the current
one. -/
inductive Call where
  | makeDir (start : Option ℕ) (path : List Char) (mode flags : ℕ)
    (reg : Except Errno Registration)
  | openFile (start : Option ℕ) (path : List Char) (oflag mode : ℕ)
    (reg : Except Errno Registration) (refused : Option Errno)
  | createLink (oldstart : Option ℕ) (oldpath : List Char) (newstart : Option ℕ)
    (newpath : List Char) (flags : ℕ)
  | createSymlink (oldpath : List Char) (newstart : Option ℕ) (newpath : List Char) (flags : ℕ)
    (reg : Except Errno Registration)
  | unlink (start : Option ℕ) (path : List Char) (flags : ℕ)
  | move (oldstart : Option ℕ) (oldpath : List Char) (newstart : Option ℕ) (newpath : List Char)
    (flags : ℕ)
  | close (fd : ℕ)

namespace Vfs

/-- A reference to the directory that a path starts from. -/
def getStart (s : Vfs) : Option ℕ → Option (Option InodeRef × Vfs)
  | none => some (none, s)
  | some fd => do
    let fp ← (s.files[fd]?).join
    let (iref, s) ← s.vfsCopyInodeRef fp.iref
    return (some iref, s)

/-- `sys_unlink` and `sys_rmdir` -/
def unlinkPath (s : Vfs) (c : Caller) (fuel : ℕ) (startdir : Option InodeRef) (path : List Char)
    (flags : ℕ) : Option (Option Errno × Vfs) := do
  match ← vfsGetDentry c fuel s startdir path false with
  | (.error e, s) => return (some e, s)
  | (.ok dref, s) => s.vfsUnlinkInode c dref flags

/-- The error of a call that opens a file. -/
def openError (r : Except Errno ℕ × Vfs) : Option Errno × Vfs :=
  match r with
  | (.ok _, s) => (none, s)
  | (.error e, s) => (some e, s)

/-- Make a call: its error, if there is one, and the state after it. -/
def call (s : Vfs) (fuel : ℕ) (c : Caller) : Call → Option (Option Errno × Vfs)
  | .makeDir start path mode flags reg => do
    let (startdir, s) ← s.getStart start
    s.vfsMakeDirEx c fuel startdir path mode flags reg
  | .openFile start path oflag mode reg refused => do
    let (startdir, s) ← s.getStart start
    (s.vfsOpen c fuel startdir path oflag mode reg refused).map openError
  | .createLink oldstart oldpath newstart newpath flags => do
    let (old, s) ← s.getStart oldstart
    let (new, s) ← s.getStart newstart
    s.vfsCreateLink c fuel old oldpath new newpath flags
  | .createSymlink oldpath newstart newpath flags reg => do
    let (new, s) ← s.getStart newstart
    s.vfsCreateSymlinkEx c fuel oldpath new newpath flags reg
  | .unlink start path flags => do
    let (startdir, s) ← s.getStart start
    s.unlinkPath c fuel startdir path flags
  | .move oldstart oldpath newstart newpath flags => do
    let (old, s) ← s.getStart oldstart
    let (new, s) ← s.getStart newstart
    s.vfsMove c fuel old oldpath new newpath flags
  | .close fd => (s.vfsClose fd).map fun s => (none, s)

/-- The state after `vfsInit`. -/
def vfsInit : Vfs where
  inodes := (Heap.empty.new
    { Inode.zero with
      refcount := 3
      fs := some kernelRootFS
      parent := some kernelRootEntry
      ino := 2
      mode := VFS_MODE_DIRECTORY ||| 0o755
      nextKey := 2 }).2
  nextEntry := 1
  filesystems := (Heap.empty.new
    { numMounts := 1
      rdonly := false
      imap := [kernelRootInode]
      unmounting := false
      loadInode := none
      regInode := .root
      drop := false }).2
  rootDentry := some
    { addr := 0
      name := ['/']
      ino := 2
      key := 0
      target := some kernelRootInode
      temp := false
      mntpoint := false }
  nextRootIno := 3
  procs := []
  files := []
  drops := []
  flushed := []

end Vfs

end Glidix.Fs
