import Glidix.Hw.PhysMem
import Glidix.Lib.Runs

/-!
# Frames of the boot memory map

`initPhysMem` starts to hand out frames behind the end of the kernel; `phmAllocFrame` goes on to the next
usable entry of the map when the current one ends.  `initPhysMem2` marks the frames of the usable entries
as free in the bitmap, which `phmAllocFrame` searches from then on.
-/

namespace Glidix.PhysMem

structure MmapEntry where
  baseAddr : ℕ
  len : ℕ
  type : ℕ
  deriving DecidableEq

namespace MmapEntry

variable (e : MmapEntry)

/-- `isUseableMemory` -/
def isUseable : Bool := e.type = 1 ∧ e.baseAddr % 0x1000 = 0

/-- The end frame as `isFrameInArea` and `phmAllocFrame` compute it. -/
def endFrame : ℕ := e.baseAddr / 0x1000 + e.len / 0x1000

def isFrameInArea (frame : ℕ) : Bool := frame ≥ e.baseAddr / 0x1000 ∨ frame < e.endFrame

/-- The last frame that `initPhysMem2` frees for the entry. -/
def lastFrame : ℕ := (e.baseAddr + e.len) / 0x1000

/-- The frame lies completely inside the entry. -/
def covers (frame : ℕ) : Bool :=
  e.baseAddr ≤ frame * 0x1000 ∧ (frame + 1) * 0x1000 ≤ e.baseAddr + e.len

end MmapEntry

/-- A map from the bootloader: its entries ascend and do not overlap. -/
structure MemoryMap where
  entries : List MmapEntry
  bounded : ∀ e ∈ entries, e.baseAddr + e.len < 2 ^ 64
  ascending : entries.Pairwise fun a b => a.baseAddr + a.len ≤ b.baseAddr

namespace MemoryMap

variable (map : MemoryMap)

/-- The amount of memory that `kmain` computes, in frames. -/
def numSystemFrames : ℕ :=
  map.entries.foldl (fun memSize e => max memSize (e.baseAddr + e.len)) 0 / 0x1000

/-- The frame lies completely inside a usable entry. -/
def Inside (frame : ℕ) : Prop := ∃ e ∈ map.entries, e.isUseable = true ∧ e.covers frame = true

instance : DecidablePred map.Inside := fun _ => inferInstanceAs (Decidable (∃ e ∈ map.entries, _ ∧ _))

end MemoryMap

/-- The map and the variables of the frame allocator: the entries from the current one on, the next frame
to hand out, and the bitmap once it exists.  `early` and `later` list the frames that `phmAllocFrame` has
handed out before and after `initPhysMem2`. -/
structure BootState where
  map : MemoryMap
  kernelEnd : ℕ
  memoryMap : List MmapEntry
  placementFrame : ℕ
  frames : Option Frames
  early : List ℕ
  later : List ℕ

/-- `initPhysMem`; it panics without a usable entry. -/
def initPhysMem (map : MemoryMap) (endAddr : ℕ) : Option BootState :=
  let placementFrame := endAddr / 0x1000
  if map.entries.any fun e => e.isUseable && e.isFrameInArea placementFrame then
    some ⟨map, endAddr, map.entries, placementFrame, none, [], []⟩
  else none

/-- `loadNextMemory`: the entries from the next usable one on, and its first frame.  At the end of the map
it panics. -/
def loadNextMemory : List MmapEntry → Option (List MmapEntry × ℕ)
  | [] => none
  | [_] => none
  | _ :: e :: memoryMap =>
    if e.isUseable then some (e :: memoryMap, e.baseAddr / 0x1000) else loadNextMemory (e :: memoryMap)

namespace BootState

variable (s : BootState)

/-- The entries and the placement frame after `phmAllocFrame` has looked for the end of the entry. -/
def placement : Option (List MmapEntry × ℕ) :=
  match s.memoryMap with
  | [] => none
  | e :: _ =>
    if e.endFrame = s.placementFrame then loadNextMemory s.memoryMap
    else some (s.memoryMap, s.placementFrame)

/-- `phmAllocFrame` before the bitmap exists. -/
def allocEarly : Option BootState := do
  let (memoryMap, placementFrame) ← s.placement
  some { s with memoryMap, placementFrame := placementFrame + 1, early := placementFrame :: s.early }

/-- The bits that `initPhysMem2` clears. -/
def clears (frame : ℕ) : Bool :=
  s.map.entries.any fun e =>
    e.isUseable && decide (e.baseAddr / 0x1000 ≤ frame ∧ frame < e.lastFrame + 1 ∧
      s.placementFrame ≤ frame)

/-- The bitmap that `initPhysMem2` makes. -/
def initFrames : Frames :=
  let fr : Frames := ⟨fun f => !s.clears f, s.map.numSystemFrames, 0, 0⟩
  let lowestFreeFrame :=
    match findFrom 0 (fr.numSystemFrames / 8) fun i => !fr.groupUsed 8 i with
    | none => 0
    | some i => i * 8
  { fr with lowestFreeFrame }

/-- `phmAllocFrame` once the bitmap exists; `cached` is what the caches give if there is no free frame, a
frame that they were given. -/
def allocLater (cached : ℕ) : Option BootState := do
  let fr ← s.frames
  match fr.allocSingle with
  | some (f, fr) => some { s with frames := some fr, later := f :: s.later }
  | none => if cached ∈ s.later then some { s with later := cached :: s.later } else none

/-- `phmFreeFrame` for a frame of `phmAllocFrame`. -/
def free (frame : ℕ) : Option BootState := do
  let fr ← s.frames
  if frame ∈ s.later then
    let fr ← fr.phmFreeFrame frame
    some { s with frames := some fr }
  else none

end BootState

inductive BootOp where
  | alloc (cached : ℕ)
  | initPhysMem2
  | free (frame : ℕ)
  deriving DecidableEq

def BootState.step (s : BootState) : BootOp → Option BootState
  | .alloc cached => if s.frames.isNone then s.allocEarly else s.allocLater cached
  | .initPhysMem2 => if s.frames.isNone then some { s with frames := some s.initFrames } else none
  | .free frame => s.free frame

def bootSystem : System BootState BootOp where
  init s := ∃ map endAddr, initPhysMem map endAddr = some s
  step s op s' := s.step op = some s'

end Glidix.PhysMem
