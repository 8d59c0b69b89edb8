import Mathlib.Data.Nat.Bitwise
import Glidix.Lib.Bytes

/-!
# GXFS volumes: superblock, block I/O and the block allocator

A `Volume` is the driver's view of a mounted GXFS filesystem: the superblock body it keeps in
memory, the counters of the `FileSystem` object, and the blocks of the device.  Block numbers and
the superblock fields are unsigned 64-bit integers, kept as natural numbers with the reductions
written out where the code increments or decrements.
-/

namespace Glidix.Gxfs

open Bytes

/-- `x + 1` in 64 bits. -/
def inc64 (x : ℕ) : ℕ := (x + 1) % 2 ^ 64

/-- `x - 1` in 64 bits. -/
def dec64 (x : ℕ) : ℕ := (x + (2 ^ 64 - 1)) % 2 ^ 64

/-- The body of the superblock (`GXFS_SuperblockBody`). -/
structure SuperblockBody where
  sbbResvBlocks : ℕ
  sbbUsedBlocks : ℕ
  sbbTotalBlocks : ℕ
  sbbFreeHead : ℕ
  sbbLastMountTime : ℕ
  sbbLastCheckTime : ℕ
  sbbRuntimeFlags : ℕ
  deriving DecidableEq

/-- The fields in the order in which they lie on the disk. -/
def SuperblockBody.quads (b : SuperblockBody) : List ℕ :=
  [b.sbbResvBlocks, b.sbbUsedBlocks, b.sbbTotalBlocks, b.sbbFreeHead, b.sbbLastMountTime,
    b.sbbLastCheckTime, b.sbbRuntimeFlags]

/-- A mounted volume. -/
structure Volume where
  /-- The superblock body in memory. -/
  sbb : SuperblockBody
  /-- `fs->freeBlocks`. -/
  freeBlocks : ℕ
  /-- `fs->freeInodes`. -/
  freeInodes : ℕ
  /-- `VFS_ST_RDONLY` is set in `fs->flags`. -/
  rdonly : Bool
  /-- The 4096-byte blocks of the device, from offset `0x200000` on. -/
  disk : ℕ → Bytes
  /-- Whether the device serves reads and writes of a block. -/
  ioOk : ℕ → Bool

/-- Runtime flag of a volume that is in use. -/
def GXFS_RF_DIRTY : ℕ := 1

/-- The quadword of block 0 at which the superblock body starts: it follows the 80 bytes of the
superblock header. -/
def sbbQuad : ℕ := 10

def gxfsReadBlock (v : Volume) (blockno : ℕ) : Option Bytes :=
  if v.ioOk blockno then some (v.disk blockno) else none

def gxfsWriteBlock (v : Volume) (blockno : ℕ) (buffer : Bytes) : Option Volume :=
  if v.ioOk blockno then some { v with disk := Function.update v.disk blockno buffer } else none

/-- Write the superblock body back into block 0; a failure goes unnoticed. -/
def gxfsFlushSuperblock (v : Volume) : Volume :=
  if v.ioOk 0 then
    { v with
      disk := Function.update v.disk 0
        (v.sbb.quads.zipIdx.foldl (fun b q => b.setQuad (sbbQuad + q.2) q.1) (v.disk 0)) }
  else v

/-- Take a block from the free list, or the one at the watermark `sbbUsedBlocks` when the list is
empty; `0` when there is none or the free list cannot be read. -/
def gxfsAllocBlock (v : Volume) : ℕ × Volume :=
  if v.sbb.sbbFreeHead = 0 then
    if v.sbb.sbbUsedBlocks = v.sbb.sbbTotalBlocks then (0, v)
    else
      (v.sbb.sbbUsedBlocks, gxfsFlushSuperblock
        { v with
          sbb := { v.sbb with sbbUsedBlocks := inc64 v.sbb.sbbUsedBlocks }
          freeBlocks := dec64 v.freeBlocks
          freeInodes := dec64 v.freeInodes })
  else
    match gxfsReadBlock v v.sbb.sbbFreeHead with
    | none => (0, v)
    | some blockbuf =>
      (v.sbb.sbbFreeHead, gxfsFlushSuperblock
        { v with
          sbb := { v.sbb with
            sbbFreeHead := blockbuf.getQuad 0
            sbbUsedBlocks := inc64 v.sbb.sbbUsedBlocks }
          freeBlocks := dec64 v.freeBlocks
          freeInodes := dec64 v.freeInodes })

/-- Push a block on the free list.  `junk` is what the uninitialised block buffer on the stack
holds; a failed write goes unnoticed. -/
def gxfsFreeBlock (v : Volume) (block : ℕ) (junk : Bytes) : Volume :=
  let v := (gxfsWriteBlock v block (junk.setQuad 0 v.sbb.sbbFreeHead)).getD v
  let v := gxfsFlushSuperblock { v with sbb := { v.sbb with sbbFreeHead := block } }
  { v with freeBlocks := inc64 v.freeBlocks, freeInodes := inc64 v.freeInodes }

/-- Allocate a block and clear it; `junk` as for `gxfsFreeBlock`, which returns the block when it
cannot be written. -/
def gxfsAllocZeroBlock (v : Volume) (junk : Bytes) : ℕ × Volume :=
  let (block, v) := gxfsAllocBlock v
  if block = 0 then (0, v)
  else
    match gxfsWriteBlock v block fun _ => 0 with
    | none => (0, gxfsFreeBlock v block junk)
    | some v => (block, v)

/-- The superblock body that `mkgxfs` writes on a device of `st_size` bytes. -/
def mkgxfsBody (st_size formatTime : ℕ) : SuperblockBody where
  sbbResvBlocks := 8
  sbbUsedBlocks := 9
  sbbTotalBlocks := (st_size - 0x200000) >>> 12
  sbbFreeHead := 0
  sbbLastMountTime := formatTime
  sbbLastCheckTime := formatTime
  sbbRuntimeFlags := 0

/-- What `gxfsOpenRoot` makes of a superblock body when it mounts the volume for writing. -/
def gxfsOpenRoot (sbb : SuperblockBody) (now : ℕ) (disk : ℕ → Bytes) (ioOk : ℕ → Bool) : Volume :=
  gxfsFlushSuperblock
    { sbb := { sbb with
        sbbLastMountTime := now
        sbbRuntimeFlags := sbb.sbbRuntimeFlags ||| GXFS_RF_DIRTY }
      freeBlocks := (sbb.sbbTotalBlocks + 2 ^ 64 - sbb.sbbUsedBlocks) % 2 ^ 64
      freeInodes := (sbb.sbbTotalBlocks + 2 ^ 64 - sbb.sbbUsedBlocks) % 2 ^ 64
      rdonly := false
      disk, ioOk }

/-! ## What the operations leave alone -/

variable (v : Volume)

@[simp] theorem gxfsFlushSuperblock_sbb : (gxfsFlushSuperblock v).sbb = v.sbb := by
  unfold gxfsFlushSuperblock; split <;> rfl

@[simp] theorem gxfsFlushSuperblock_freeBlocks :
    (gxfsFlushSuperblock v).freeBlocks = v.freeBlocks := by
  unfold gxfsFlushSuperblock; split <;> rfl

@[simp] theorem gxfsFlushSuperblock_rdonly : (gxfsFlushSuperblock v).rdonly = v.rdonly := by
  unfold gxfsFlushSuperblock; split <;> rfl

@[simp] theorem gxfsFlushSuperblock_ioOk : (gxfsFlushSuperblock v).ioOk = v.ioOk := by
  unfold gxfsFlushSuperblock; split <;> rfl

theorem gxfsFlushSuperblock_disk {b : ℕ} (hb : b ≠ 0) :
    (gxfsFlushSuperblock v).disk b = v.disk b := by
  unfold gxfsFlushSuperblock
  split
  · exact Function.update_of_ne hb _ _
  · rfl

end Glidix.Gxfs
