import Glidix.Lib.Memory
import Glidix.Lib.Radix
import Glidix.Lib.Runs

/-!
# The cache of a storage device

A storage device is read and written in tracks of 32 KB.  Tracks are kept in a tree of seven levels,
indexed by groups of 7 bits of the position; an entry has a dirty flag and counts how often it was
used.  Positions and sizes are natural numbers, and a call stays below `2 ^ 64`.  Whether a frame can
be allocated is a parameter of each call.
-/

namespace Glidix.Storage

open Bytes Radix

def SD_TRACK_SIZE : ℕ := 0x8000

/-- Device hanged up. -/
def SD_HANGUP : UInt32 := 2

inductive Errno where
  | EAGAIN
  | ENOMEM
  | EIO
  | ENXIO
  deriving DecidableEq

open Errno

/-- What an entry of the tree has besides the address of the next level. -/
structure BlockEntry where
  dirty : Bool
  usage : ℕ

scoped instance neZero_slots : NeZero 128 := ⟨by decide⟩

/-- A node of the block tree, with `n` more levels below it; the data are tracks. -/
@[reducible] def BlockTreeNode : ℕ → Type := Node BlockEntry Bytes 128

/-- What the driver operates on. -/
structure Drive where
  blockSize : ℕ
  totalSize : ℕ
  disk : Bytes

structure StorageDevice where
  flags : UInt32
  drive : Drive
  cacheTop : BlockTreeNode 6

/-! ## The driver -/

/-- Read blocks; it is an error if they are out of range of the disk. -/
def Drive.readBlocks (d : Drive) (startBlock numBlocks : ℕ) : Except Errno Bytes :=
  if (startBlock + numBlocks) * d.blockSize ≤ d.totalSize then
    .ok fun o => d.disk (startBlock * d.blockSize + o)
  else .error EIO

/-- Write blocks; the status is never looked at. -/
def Drive.writeBlocks (d : Drive) (startBlock numBlocks : ℕ) (buffer : Bytes) : Drive :=
  if (startBlock + numBlocks) * d.blockSize ≤ d.totalSize then
    { d with disk := fun o =>
        if startBlock * d.blockSize ≤ o ∧ o < (startBlock + numBlocks) * d.blockSize then
          buffer (o - startBlock * d.blockSize)
        else d.disk o }
  else d

/-- The track of a position. -/
def Drive.readTrack (d : Drive) (pos : ℕ) : Except Errno Bytes :=
  d.readBlocks ((pos / SD_TRACK_SIZE * SD_TRACK_SIZE) / d.blockSize) (SD_TRACK_SIZE / d.blockSize)

/-- Write the track that starts at `bytepos`. -/
def Drive.writeTrack (d : Drive) (bytepos : ℕ) (buffer : Bytes) : Drive :=
  d.writeBlocks (bytepos / d.blockSize) (SD_TRACK_SIZE / d.blockSize) buffer

/-! ## The cache -/

/-- The index of a position in a node with `n` levels below it. -/
def sub (pos n : ℕ) : Fin 128 := Fin.ofNat 128 (pos >>> (15 + 7 * n))

/-- Find the track of a position, and with `make` put it into the cache.  `phmAllocFrame k` says
whether the frame `k` that is asked for is there. -/
def sdGetCache (d : Drive) (pos : ℕ) (make dirty : Bool) (phmAllocFrame : ℕ → Bool) :
    (n : ℕ) → BlockTreeNode n → BlockTreeNode n × Except Errno Bytes
  | 0, node =>
    match node (sub pos 0) with
    | none =>
      if make = false then (node, .error .EAGAIN)
      else if (List.range 8).all phmAllocFrame = false then (node, .error .ENOMEM)
      else
        match d.readTrack pos with
        | .error status => (node, .error status)
        | .ok track => (Function.update node (sub pos 0) (some (⟨dirty, 1⟩, track)), .ok track)
    | some (entry, track) =>
      (Function.update node (sub pos 0) (some ({ entry with dirty := entry.dirty || dirty }, track)),
        .ok track)
  | n + 1, node =>
    match node (sub pos (n + 1)) with
    | none =>
      if make = false then (node, .error .EAGAIN)
      else
        let (nextNode, result) := sdGetCache d pos make dirty phmAllocFrame n (empty n)
        (Function.update node (sub pos (n + 1)) (some (⟨dirty, 1⟩, nextNode)), result)
    | some (entry, child) =>
      let usage := if entry.usage ≠ 255 then entry.usage + 1 else entry.usage
      let (nextNode, result) := sdGetCache d pos make dirty phmAllocFrame n child
      (Function.update node (sub pos (n + 1)) (some (⟨entry.dirty || dirty, usage⟩, nextNode)),
        result)

/-- A store to a cached track, through the pointer that `sdGetCache` returned. -/
def storeTrack (pos : ℕ) (f : Bytes → Bytes) : (n : ℕ) → BlockTreeNode n → BlockTreeNode n
  | 0, node =>
    match node (sub pos 0) with
    | none => node
    | some (entry, track) => Function.update node (sub pos 0) (some (entry, f track))
  | n + 1, node =>
    match node (sub pos (n + 1)) with
    | none => node
    | some (entry, child) =>
      Function.update node (sub pos (n + 1)) (some (entry, storeTrack pos f n child))

/-- The entry `i` of a node is flushed by `flush`, when it is dirty. -/
def flushEntry {α : Type} (flush : Drive → α → ℕ → α × Drive) (pos : ℕ)
    (s : (Fin 128 → Option (BlockEntry × α)) × Drive) (i : Fin 128) :
    (Fin 128 → Option (BlockEntry × α)) × Drive :=
  match s.1 i with
  | none => s
  | some (entry, child) =>
    if entry.dirty = true then
      let (child, d) := flush s.2 child (pos * 128 + i)
      (Function.update s.1 i (some ({ entry with dirty := false }, child)), d)
    else s

/-- Write the dirty tracks below a node; `pos` is the index of the node at its level. -/
def sdFlushTree : (n : ℕ) → Drive → BlockTreeNode n → ℕ → BlockTreeNode n × Drive
  | 0, d, node, pos =>
    (List.finRange 128).foldl
      (flushEntry (fun d track i => (track, d.writeTrack (i * SD_TRACK_SIZE) track)) pos) (node, d)
  | n + 1, d, node, pos =>
    (List.finRange 128).foldl (flushEntry (fun d => sdFlushTree n d) pos) (node, d)

def sdFlush (sd : StorageDevice) : StorageDevice :=
  let (cacheTop, drive) := sdFlushTree 6 sd.drive sd.cacheTop 0
  { sd with drive := drive, cacheTop := cacheTop }

/-- The first entry that was used least. -/
def lowestUsage {α : Type} (node : Fin 128 → Option (BlockEntry × α)) : Option (Fin 128 × ℕ) :=
  (List.finRange 128).foldl (fun lowest i =>
    match node i, lowest with
    | none, _ => lowest
    | some e, none => some (i, e.1.usage)
    | some e, some (_, usage) => if e.1.usage < usage then some (i, e.1.usage) else lowest) none

/-- Free one track below the entries of a node; a child without any is removed, and the next one is
tried. -/
def tryFreeLoop {α : Type} (tryFree : Drive → α → ℕ → Option (α × Drive × Bool)) (addr : ℕ) :
    ℕ → Drive → (Fin 128 → Option (BlockEntry × α)) →
      Option ((Fin 128 → Option (BlockEntry × α)) × Drive × Bool)
  | 0, _, _ => none
  | rounds + 1, d, node =>
    match lowestUsage node with
    | none => some (node, d, false)
    | some (i, _) =>
      match node i with
      | none => none
      | some (entry, child) =>
        match tryFree d child (addr * 128 + i) with
        | none => none
        | some (child, d, true) => some (Function.update node i (some (entry, child)), d, true)
        | some (_, d, false) => tryFreeLoop tryFree addr rounds d (Function.update node i none)

/-- Take a track out of the cache, and write it if it is dirty.  The result is whether there was one;
`none` would mean that the loop does not end. -/
def sdTryFree : (n : ℕ) → Drive → BlockTreeNode n → ℕ → Option (BlockTreeNode n × Drive × Bool)
  | 0, d, node, addr =>
    match lowestUsage node with
    | none => some (node, d, false)
    | some (i, _) =>
      match node i with
      | none => none
      | some (entry, track) =>
        let d := if entry.dirty = true then d.writeTrack ((addr * 128 + i) * SD_TRACK_SIZE) track
          else d
        some (Function.update node i none, d, true)
  | n + 1, d, node, addr => tryFreeLoop (sdTryFree n) addr 129 d node

/-! ## Reading and writing -/

/-- The track that `sdRead` copies from. -/
def readTrack (sd : StorageDevice) (pos : ℕ) (allocFromCacheNow : Bool)
    (phmAllocFrame : ℕ → Bool) : StorageDevice × Except Errno Bytes :=
  let (cacheTop, result) :=
    sdGetCache sd.drive pos (!allocFromCacheNow) false phmAllocFrame 6 sd.cacheTop
  let sd := { sd with cacheTop := cacheTop }
  match result with
  | .ok track => (sd, .ok track)
  | .error error =>
    -- a cache miss, but allocations are banned
    if error = .EAGAIN ∨ error = .ENOMEM then (sd, sd.drive.readTrack pos) else (sd, .error error)

/-- What `sdWrite` does to the track of a position. -/
def writeTrack (sd : StorageDevice) (pos : ℕ) (data : List UInt8) (allocFromCacheNow : Bool)
    (phmAllocFrame : ℕ → Bool) : StorageDevice × Except Errno Unit :=
  let (cacheTop, result) :=
    sdGetCache sd.drive pos (!allocFromCacheNow) true phmAllocFrame 6 sd.cacheTop
  let sd := { sd with cacheTop := cacheTop }
  match result with
  | .ok _ =>
    ({ sd with cacheTop :=
        storeTrack pos (fun track => track.setRange (pos % SD_TRACK_SIZE) data) 6 sd.cacheTop },
      .ok ())
  | .error error =>
    if error = .EAGAIN ∨ error = .ENOMEM then
      match sd.drive.readTrack pos with
      | .error status => (sd, .error status)
      | .ok tmp =>
        -- the immediate flush reads the blocks into the buffer once more
        let _ := tmp.setRange (pos % SD_TRACK_SIZE) data
        let _ := sd.drive.readTrack pos
        (sd, .ok ())
    else (sd, .error error)

/-- Every round of a loop reads or writes something. -/
theorem round_lt {pos size : ℕ} (h : ¬ size = 0) :
    size - min (SD_TRACK_SIZE - pos % SD_TRACK_SIZE) size < size := by
  have hpos : pos % SD_TRACK_SIZE < SD_TRACK_SIZE := Nat.mod_lt _ (by decide)
  omega

/-- The loop of `sdRead`; `phmAllocFrame` is given for each position at which a track is asked for. -/
def readLoop (allocFromCacheNow : Bool) (phmAllocFrame : ℕ → ℕ → Bool) (sd : StorageDevice)
    (pos size : ℕ) (buf : List UInt8) : StorageDevice × Except Errno (List UInt8) :=
  if _h : size = 0 then (sd, .ok buf)
  else
    let offsetIntoPage := pos % SD_TRACK_SIZE
    let toRead := min (SD_TRACK_SIZE - offsetIntoPage) size
    have hlt : size - toRead < size := round_lt _h
    match readTrack sd pos allocFromCacheNow (phmAllocFrame pos) with
    | (sd, .error error) => (sd, if buf = [] then .error error else .ok buf)
    | (sd, .ok track) =>
      readLoop allocFromCacheNow phmAllocFrame sd (pos + toRead) (size - toRead)
        (buf ++ track.slice offsetIntoPage toRead)
termination_by size
decreasing_by exact hlt

def sdRead (sd : StorageDevice) (pos size : ℕ) (allocFromCacheNow : Bool)
    (phmAllocFrame : ℕ → ℕ → Bool) : StorageDevice × Except Errno (List UInt8) :=
  if sd.flags &&& SD_HANGUP ≠ 0 then (sd, .error ENXIO)
  else readLoop allocFromCacheNow phmAllocFrame sd pos size []

/-- The loop of `sdWrite`. -/
def writeLoop (allocFromCacheNow : Bool) (phmAllocFrame : ℕ → ℕ → Bool) (sd : StorageDevice)
    (pos : ℕ) (data : List UInt8) (sizeWritten : ℕ) : StorageDevice × Except Errno ℕ :=
  if _h : data.length = 0 then (sd, .ok sizeWritten)
  else
    let toWrite := min (SD_TRACK_SIZE - pos % SD_TRACK_SIZE) data.length
    have hlt : data.length - toWrite < data.length := round_lt _h
    match writeTrack sd pos (data.take toWrite) allocFromCacheNow (phmAllocFrame pos) with
    | (sd, .error error) => (sd, if sizeWritten = 0 then .error error else .ok sizeWritten)
    | (sd, .ok ()) =>
      writeLoop allocFromCacheNow phmAllocFrame sd (pos + toWrite) (data.drop toWrite)
        (sizeWritten + toWrite)
termination_by data.length
decreasing_by
  rw [List.length_drop]
  exact hlt

def sdWrite (sd : StorageDevice) (pos : ℕ) (data : List UInt8) (allocFromCacheNow : Bool)
    (phmAllocFrame : ℕ → ℕ → Bool) : StorageDevice × Except Errno ℕ :=
  if sd.flags &&& SD_HANGUP ≠ 0 then (sd, .error ENXIO)
  else writeLoop allocFromCacheNow phmAllocFrame sd pos data 0

end Glidix.Storage
