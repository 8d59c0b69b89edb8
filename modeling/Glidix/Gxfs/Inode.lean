import Mathlib.Data.List.TakeWhile
import Glidix.Gxfs.Volume
import Glidix.Lib.Packed

/-!
# GXFS inodes in memory and on the disk

An inode lies on the disk as a sequence of records (`ATTR`, `_ACL`, `LINK`, `DENT`, `TREE`), cut into
the 4088-byte payloads of a chain of blocks; the first quadword of a block is the number of the next
one (`ihNext`).  `gxfsFlushInode` writes the records over the old chain of the inode, and
`gxfsLoadInode` reads a chain back into an inode.
-/

namespace Glidix.Gxfs

open Bytes

/-! ## Inodes -/

/-- A string of the kernel; it lies in the heap, which has `2 ^ 30` bytes. -/
structure CString where
  chars : List UInt8
  nul_notMem : 0 ∉ chars
  length_lt : chars.length < 2 ^ 30
  deriving DecidableEq

/-- Copy the string at the start of a buffer, if there is room for it in the heap. -/
def strdup (buffer : List UInt8) : Option CString :=
  if h : (buffer.takeWhile (· ≠ 0)).length < 2 ^ 30 then
    some ⟨buffer.takeWhile (· ≠ 0), fun hm => by simpa using List.mem_takeWhile_imp hm, h⟩
  else none

def VFS_ACL_SIZE : ℕ := 128

structure AccessControlEntry where
  ace_id : UInt16
  ace_type : UInt8
  ace_perms : UInt8
  deriving DecidableEq, Inhabited

structure Dentry where
  name : CString
  ino : UInt64
  flags : UInt32
  deriving DecidableEq

/-- Do not commit to disk. -/
def VFS_DENTRY_TEMP : UInt32 := 1

def FT_READONLY : UInt32 := 2
def FT_FIXED_SIZE : UInt32 := 4

/-- A file tree, with the depth and the head block that the driver keeps for it. -/
structure FileTree where
  flags : UInt32
  size : UInt64
  depth : UInt64
  head : UInt64
  deriving DecidableEq

structure Inode where
  ino : UInt64
  mode : UInt64
  links : UInt64
  uid : UInt64
  gid : UInt64
  atime : Int64
  mtime : Int64
  ctime : Int64
  btime : Int64
  anano : UInt32
  mnano : UInt32
  cnano : UInt32
  bnano : UInt32
  ixperm : UInt64
  oxperm : UInt64
  dxperm : UInt64
  acl : Fin VFS_ACL_SIZE → AccessControlEntry
  ft : Option FileTree
  target : Option CString
  dents : List Dentry
  /-- `GXFS_Inode.blocks`, without the terminating `0`. -/
  blocks : List ℕ

/-- The cleared inode into which the VFS has the driver load inode `ino`. -/
def newInode (ino : UInt64) : Inode where
  ino := ino
  mode := 0
  links := 0
  uid := 0
  gid := 0
  atime := 0
  mtime := 0
  ctime := 0
  btime := 0
  anano := 0
  mnano := 0
  cnano := 0
  bnano := 0
  ixperm := 0
  oxperm := 0
  dxperm := 0
  acl := fun _ => ⟨0, 0, 0⟩
  ft := none
  target := none
  dents := []
  blocks := []

/-! ## Records -/

/-- A record type: its four characters as a 32-bit number. -/
def GXFS_RT (s : String) : UInt32 :=
  UInt32.ofNat (leAt 0 4 (s.toList.map fun c => UInt8.ofNat c.toNat))

def GXFS_INODE_FIXED_SIZE : UInt32 := 0x10000

/-- `sizeof(GXFS_AttrRecord)`, `sizeof(GXFS_AclRecord)` and so on. -/
def sizeofAttrRecord : ℕ := 104
def sizeofAclRecord : ℕ := 520
def sizeofDentRecord : ℕ := 24
def sizeofTreeRecord : ℕ := 24

/-- `(n + 7) & ~7`. -/
def align8 (n : ℕ) : ℕ := (n + 7) / 8 * 8

/-- `arFlags`: the low 16 bits are the mode, and the inode flags follow. -/
def arFlags (inode : Inode) : UInt32 :=
  match inode.ft with
  | none => inode.mode.toUInt32
  | some ft =>
    if ft.flags &&& FT_FIXED_SIZE ≠ 0 then inode.mode.toUInt32 ||| GXFS_INODE_FIXED_SIZE
    else inode.mode.toUInt32

def attrRecord (inode : Inode) : List UInt8 :=
  pack [(4, (GXFS_RT "ATTR").toNat), (4, sizeofAttrRecord), (8, inode.links.toNat),
    (4, (arFlags inode).toNat), (2, inode.uid.toUInt16.toNat), (2, inode.gid.toUInt16.toNat),
    (8, (inode.ft.elim 0 FileTree.size).toNat),
    (8, inode.atime.toUInt64.toNat), (8, inode.mtime.toUInt64.toNat),
    (8, inode.ctime.toUInt64.toNat), (8, inode.btime.toUInt64.toNat),
    (4, inode.anano.toNat), (4, inode.mnano.toNat), (4, inode.cnano.toNat),
    (4, inode.bnano.toNat), (8, inode.ixperm.toNat), (8, inode.oxperm.toNat),
    (8, inode.dxperm.toNat)]

def aceBytes (ace : AccessControlEntry) : List UInt8 :=
  pack [(2, ace.ace_id.toNat), (1, ace.ace_type.toNat), (1, ace.ace_perms.toNat)]

def aclRecord (inode : Inode) : List UInt8 :=
  pack [(4, (GXFS_RT "_ACL").toNat), (4, sizeofAclRecord)] ++
    (List.ofFn inode.acl).flatMap aceBytes

def linkRecord (target : CString) : List UInt8 :=
  let reclen := align8 (8 + target.chars.length)
  pack [(4, (GXFS_RT "LINK").toNat), (4, reclen)] ++
    (target.chars ++ List.replicate (reclen - 8 - target.chars.length) 0)

/-- `drInoType` is "unknown"; the name starts at offset 17 of the record. -/
def dentRecord (dent : Dentry) : List UInt8 :=
  let recsize := align8 (sizeofDentRecord + dent.name.chars.length)
  pack [(4, (GXFS_RT "DENT").toNat), (4, recsize), (8, dent.ino.toNat), (1, 0xFF)] ++
    (dent.name.chars ++ List.replicate (recsize - 17 - dent.name.chars.length) 0)

def treeRecord (tree : FileTree) : List UInt8 :=
  pack [(4, (GXFS_RT "TREE").toNat), (4, sizeofTreeRecord), (8, tree.depth.toNat),
    (8, tree.head.toNat)]

/-- The dentries that are committed to disk. -/
def Dentry.Saved (dent : Dentry) : Prop := dent.ino ≠ 0 ∧ dent.flags &&& VFS_DENTRY_TEMP = 0

instance (dent : Dentry) : Decidable dent.Saved := inferInstanceAs (Decidable (_ ∧ _))

/-- The records of an inode, in the order in which `gxfsFlushInode` writes them. -/
def inodeRecords (inode : Inode) : List (List UInt8) :=
  [attrRecord inode, aclRecord inode] ++ inode.target.toList.map linkRecord ++
    (inode.dents.filter (·.Saved)).map dentRecord ++ inode.ft.toList.map treeRecord

/-! ## Flushing -/

structure InodeWriter where
  vol : Volume
  /-- The original blocks that have not been used yet. -/
  blockScanner : List ℕ
  outBlocks : List ℕ
  blockbuf : Bytes
  writepos : ℕ
  blockno : ℕ

namespace InodeWriter

/-- The next original block, or a new one; `none` when the assertion fails that there is one. -/
def takeBlock (writer : InodeWriter) : Option (ℕ × InodeWriter) :=
  match writer.blockScanner with
  | nextblock :: blockScanner => some (nextblock, { writer with blockScanner })
  | [] =>
    let (nextblock, vol) := gxfsAllocBlock writer.vol
    if nextblock = 0 then none else some (nextblock, { writer with vol })

/-- Link the full block to the next one and write it; a failed write goes unnoticed. -/
def startBlock (writer : InodeWriter) (nextblock : ℕ) : InodeWriter :=
  { writer with
    outBlocks := writer.outBlocks ++ [nextblock]
    vol := (gxfsWriteBlock writer.vol writer.blockno (writer.blockbuf.setQuad 0 nextblock)).getD
      writer.vol
    blockbuf := fun _ => 0
    writepos := 8
    blockno := nextblock }

/-- Go on in another block when the buffer is full. -/
def makeRoom (writer : InodeWriter) : Option InodeWriter :=
  if writer.writepos = 4096 then writer.takeBlock.map fun r => r.2.startBlock r.1
  else some writer

/-- `memcpy` into the block buffer. -/
def put (writer : InodeWriter) (data : List UInt8) : InodeWriter :=
  { writer with
    blockbuf := writer.blockbuf.setRange writer.writepos data
    writepos := writer.writepos + data.length }

end InodeWriter

/-- The loop of `gxfsWriteInodeRecord`; a round writes at least one byte, so it takes at most `size`
rounds. -/
def writeInodeChunks : ℕ → InodeWriter → List UInt8 → Option InodeWriter
  | 0, writer, _ => some writer
  | rounds + 1, writer, scan =>
    if scan = [] then some writer
    else do
      let writer ← writer.makeRoom
      let writeNow := min scan.length (4096 - writer.writepos)
      writeInodeChunks rounds (writer.put (scan.take writeNow)) (scan.drop writeNow)

def gxfsWriteInodeRecord (writer : InodeWriter) (buffer : List UInt8) : Option InodeWriter :=
  writeInodeChunks buffer.length writer buffer

/-- `junk b` is what the uninitialised block buffer holds when block `b` is freed. -/
def gxfsFlushInode (v : Volume) (inode : Inode) (junk : ℕ → Bytes) : Option (Volume × Inode) :=
  if v.rdonly then some (v, inode)
  else do
    let writer ← (inodeRecords inode).foldlM gxfsWriteInodeRecord
      { vol := v
        blockScanner := inode.blocks.drop 1
        outBlocks := [inode.ino.toNat]
        blockbuf := fun _ => 0
        writepos := 8
        blockno := inode.ino.toNat }
    let v := writer.blockScanner.foldl (fun v b => gxfsFreeBlock v b (junk b)) writer.vol
    some ((gxfsWriteBlock v writer.blockno writer.blockbuf).getD v,
      { inode with blocks := writer.outBlocks })

/-! ## Loading -/

structure InodeReader where
  blockbuf : Bytes
  readpos : ℕ
  blocks : List ℕ

namespace InodeReader

def ihNext (reader : InodeReader) : ℕ := reader.blockbuf.getQuad 0

/-- Read the follow-up block. -/
def followUp (v : Volume) (reader : InodeReader) : Option InodeReader :=
  (gxfsReadBlock v reader.ihNext).map fun blockbuf =>
    ⟨blockbuf, 8, reader.blocks ++ [reader.ihNext]⟩

/-- Go on in the follow-up block at the end of a block; `none` when there is none. -/
def moveOn (v : Volume) (reader : InodeReader) : Option InodeReader :=
  if reader.readpos = 4096 then
    if reader.ihNext = 0 then none else reader.followUp v
  else some reader

def rhType (reader : InodeReader) : UInt32 :=
  UInt32.ofNat (leNat 4 fun k => reader.blockbuf (reader.readpos + k))

def rhSize (reader : InodeReader) : ℕ :=
  leNat 4 fun k => reader.blockbuf (reader.readpos + 4 + k)

end InodeReader

/-- The loop that reads the `sizeLeft` bytes of a record, in at most as many rounds. -/
def readInodeChunks (v : Volume) : ℕ → InodeReader → ℕ → Option (List UInt8 × InodeReader)
  | 0, reader, _ => some ([], reader)
  | rounds + 1, reader, sizeLeft =>
    if sizeLeft = 0 then some ([], reader)
    else do
      let reader ← reader.moveOn v
      let readNow := min sizeLeft (4096 - reader.readpos)
      let (rest, last) ← readInodeChunks v rounds { reader with readpos := reader.readpos + readNow }
        (sizeLeft - readNow)
      some (reader.blockbuf.slice reader.readpos readNow ++ rest, last)

/-- The state of `gxfsLoadInode` between two records. -/
structure InodeLoad where
  inode : Inode
  foundAttr : Bool
  fileSize : UInt64
  fileFlags : UInt32

def get64 (off : ℕ) (buffer : List UInt8) : UInt64 := UInt64.ofNat (leAt off 8 buffer)
def get32 (off : ℕ) (buffer : List UInt8) : UInt32 := UInt32.ofNat (leAt off 4 buffer)
def get16 (off : ℕ) (buffer : List UInt8) : UInt16 := UInt16.ofNat (leAt off 2 buffer)
def get8 (off : ℕ) (buffer : List UInt8) : UInt8 := UInt8.ofNat (leAt off 1 buffer)

def gxfsTree (rdonly : Bool) (depth head size : UInt64) (iflags : UInt32) : FileTree where
  flags := (if rdonly then FT_READONLY else 0) |||
    if iflags &&& GXFS_INODE_FIXED_SIZE ≠ 0 then FT_FIXED_SIZE else 0
  size := size
  depth := depth
  head := head

def vfsAppendDentry (inode : Inode) (name : List UInt8) (ino : UInt64) : Option Inode :=
  (strdup name).map fun name => { inode with dents := inode.dents ++ [⟨name, ino, 0⟩] }

/-- Set the attributes of the inode from an `ATTR` record. -/
def loadAttr (inode : Inode) (buffer : List UInt8) : Inode :=
  { inode with
    links := get64 8 buffer
    mode := (get32 16 buffer &&& 0xFFFF).toUInt64
    uid := (get16 20 buffer).toUInt64
    gid := (get16 22 buffer).toUInt64
    atime := (get64 32 buffer).toInt64
    mtime := (get64 40 buffer).toInt64
    ctime := (get64 48 buffer).toInt64
    btime := (get64 56 buffer).toInt64
    anano := get32 64 buffer
    mnano := get32 68 buffer
    cnano := get32 72 buffer
    bnano := get32 76 buffer
    ixperm := get64 80 buffer
    oxperm := get64 88 buffer
    dxperm := get64 96 buffer }

/-- Process one record; `none` when the inode is invalid.  A record of another type is skipped. -/
def loadRecord (rdonly : Bool) (load : InodeLoad) (buffer : List UInt8) : Option InodeLoad :=
  let rhType := get32 0 buffer
  let rhSize := leAt 4 4 buffer
  if rhType = GXFS_RT "ATTR" then
    if load.foundAttr then none
    else if rhSize ≠ sizeofAttrRecord then none
    else
      some { inode := loadAttr load.inode buffer
             foundAttr := true
             fileSize := get64 24 buffer
             fileFlags := get32 16 buffer }
  else if rhType = GXFS_RT "DENT" then
    if ¬ load.foundAttr then none
    else
      (vfsAppendDentry load.inode (buffer.drop 17) (get64 8 buffer)).map fun inode =>
        { load with inode }
  else if rhType = GXFS_RT "TREE" then
    if ¬ load.foundAttr then none
    else if rhSize ≠ sizeofTreeRecord then none
    else
      some { load with inode := { load.inode with
        ft := some (gxfsTree rdonly (get64 8 buffer) (get64 16 buffer) load.fileSize
          load.fileFlags) } }
  else if rhType = GXFS_RT "LINK" then
    if ¬ load.foundAttr then none
    else
      (strdup (buffer.drop 8)).map fun target =>
        { load with inode := { load.inode with target := some target } }
  else if rhType = GXFS_RT "_ACL" then
    if ¬ load.foundAttr then none
    else if rhSize ≠ sizeofAclRecord then none
    else
      some { load with inode := { load.inode with
        acl := fun i => ⟨get16 (8 + 4 * i) buffer, get8 (8 + 4 * i + 2) buffer,
          get8 (8 + 4 * i + 3) buffer⟩ } }
  else some load

/-- The loop over the records, which ends at a zero type or at the end of the last block; the
record buffer has one more byte than the record, which terminates strings. -/
def loadRecords (v : Volume) : ℕ → InodeReader → InodeLoad → Option (InodeLoad × List ℕ)
  | 0, _, _ => none
  | fuel + 1, reader, load =>
    if reader.readpos = 4096 ∧ reader.ihNext = 0 then some (load, reader.blocks)
    else do
      let reader ← reader.moveOn v
      if reader.rhType &&& 0xFF = 0 then some (load, reader.blocks)
      else if reader.rhSize < 8 ∨ reader.rhSize &&& 7 ≠ 0 then none
      else do
        let (buffer, reader) ← readInodeChunks v reader.rhSize reader reader.rhSize
        let load ← loadRecord v.rdonly load (buffer ++ [0])
        loadRecords v fuel reader load

def gxfsLoadInode (v : Volume) (fuel : ℕ) (inode : Inode) : Option Inode := do
  let blockbuf ← gxfsReadBlock v inode.ino.toNat
  let (load, blocks) ← loadRecords v fuel ⟨blockbuf, 8, [inode.ino.toNat]⟩ ⟨inode, false, 0, 0⟩
  if load.foundAttr then some { load.inode with blocks } else none

end Glidix.Gxfs
