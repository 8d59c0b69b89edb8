import Mathlib.Data.List.Perm.Basic
import Glidix.Hw.BootMap

/-!
# Allocating frames and taking them back from the caches

`phmAllocFrame` and `phmAllocFrameEx` search the bitmap.  If they find nothing there, they take a frame out
of the page cache with `ftGetFreePage`, or a track of eight frames out of the storage cache with
`sdFreeMemory`, which frees seven of them and returns the first.  A loop that tries again needs fuel, and
`none` also stands for a panic.
-/

namespace Glidix.PhysMem

/-- The frames of a track of the storage cache, which are not null. -/
structure Track where
  first : ℕ
  rest : List ℕ
  seven : rest.length = 7
  first_ne : first ≠ 0
  deriving DecidableEq

def Track.frames (t : Track) : List ℕ := t.first :: t.rest

/-- What the caches give back: a page that the page cache can do without, if there is one, and the place
of a track. -/
structure Choice where
  page : List ℕ → Option ℕ
  track : List Track → ℕ

/-- The frames, the bits after `initPhysMem2`, and who owns a frame: a caller of the allocator, the page
cache or the storage cache.  `stray` lists the frames that the allocator has freed without owning them. -/
structure PhmState where
  frames : Frames
  initial : ℕ → Bool
  owned : List ℕ
  pages : List ℕ
  tracks : List Track
  stray : List ℕ

namespace PhmState

variable (s : PhmState) (choice : Choice)

/-- `ftGetFreePage`; 0 if the cache gives no page. -/
def ftGetFreePage : ℕ × PhmState :=
  match choice.page s.pages with
  | none => (0, s)
  | some f => if f ≠ 0 ∧ f ∈ s.pages then (f, { s with pages := s.pages.erase f }) else (0, s)

/-- `sdFreeMemory`; 0 if the cache holds no track. -/
def sdFreeMemory : Option (ℕ × PhmState) :=
  let i := choice.track s.tracks % s.tracks.length
  match s.tracks[i]? with
  | none => some (0, s)
  | some t => do
    let frames ← t.rest.foldlM Frames.phmFreeFrame s.frames
    some (t.first, { s with frames, tracks := s.tracks.eraseIdx i })

def frameFromCache : Option (ℕ × PhmState) :=
  let (frame, s) := s.ftGetFreePage choice
  if frame = 0 then s.sdFreeMemory choice else some (frame, s)

/-- `tryFreeMemory`; the answer says whether a frame was freed. -/
def tryFreeMemory : Option (Bool × PhmState) := do
  let (frame, s) ← s.frameFromCache choice
  if frame = 0 then some (false, s)
  else
    let frames ← s.frames.phmFreeFrame frame
    some (true, { s with frames })

/-- A frame, or the first one of a group; the frames that the allocator owns then; and the state. -/
abbrev Found := ℕ × List ℕ × PhmState

/-- `phmAllocSingle` -/
def phmAllocSingle : Option Found :=
  match s.frames.allocSingle with
  | some (f, frames) => some (f, [f], { s with frames })
  | none => do
    let (result, s) ← s.frameFromCache choice
    if result = 0 then none else some (result, [result], s)

/-- `phmAlloc8` -/
def phmAlloc8 : (fuel : ℕ) → PhmState → Option Found
  | 0, _ => none
  | fuel + 1, s =>
    match s.frames.alloc8 with
    | some (base, frames) => some (base, List.range' base 8, { s with frames })
    | none => do
      let (result, s) ← s.sdFreeMemory choice
      if result = 0 then
        let (freed, s) ← s.tryFreeMemory choice
        if freed then phmAlloc8 fuel s else none
      -- a single frame is returned for eight
      else some (result, [result], s)

/-- `phmAlloc16`, `phmAlloc32` and `phmAlloc64` -/
def phmAllocGroup (size : ℕ) : (fuel : ℕ) → PhmState → Option Found
  | 0, _ => none
  | fuel + 1, s =>
    match s.frames.allocGroup size with
    | some (base, frames) => some (base, List.range' base size, { s with frames })
    | none => do
      let (freed, s) ← s.tryFreeMemory choice
      if freed then phmAllocGroup size fuel s else none

/-- The size of the group that `phmAllocFrameEx` takes its frames out of; it panics on more than 64. -/
def groupSize (count : ℕ) : Option ℕ :=
  if count > 64 then none
  else if count > 32 then some 64
  else if count > 16 then some 32
  else if count > 8 then some 16
  else some 8

def phmAllocSize (fuel size : ℕ) : Option Found :=
  if size = 8 then phmAlloc8 choice fuel s else phmAllocGroup choice size fuel s

/-- The caller gets `count` frames from `base` on. -/
def handOut (base count : ℕ) : PhmState := { s with owned := List.range' base count ++ s.owned }

/-- `phmAllocFrameEx` -/
def phmAllocFrameEx (fuel count : ℕ) : Option (ℕ × PhmState) :=
  if count = 0 then some (0, s)
  else if count = 1 then (s.phmAllocSingle choice).map fun r => (r.1, r.2.2.handOut r.1 1)
  else do
    let actuallyAllocated ← groupSize count
    let (base, claimed, s) ← s.phmAllocSize choice fuel actuallyAllocated
    -- `phmFreeFrameEx`
    let surplus := List.range' (base + count) (actuallyAllocated - count)
    let frames ← surplus.foldlM Frames.phmFreeFrame s.frames
    some (base, { s with frames, stray := surplus.filter (· ∉ claimed) ++ s.stray }.handOut base count)

/-- `phmFreeFrameEx` for frames that the caller owns. -/
def phmFreeFrameEx (start count : ℕ) : Option PhmState := do
  if ∀ f ∈ List.range' start count, f ∈ s.owned then
    let frames ← (List.range' start count).foldlM Frames.phmFreeFrame s.frames
    some { s with frames, owned := s.owned.diff (List.range' start count) }
  else none

end PhmState

inductive PhmOp where
  /-- `phmAllocFrameEx`, and `phmAllocFrame` for one frame. -/
  | alloc (choice : Choice) (fuel count : ℕ)
  /-- `phmFreeFrameEx`, and `phmFreeFrame` for one frame. -/
  | free (start count : ℕ)
  /-- A frame is put into the page cache. -/
  | cachePage (frame : ℕ)
  /-- The page cache gives a frame up. -/
  | uncachePage (frame : ℕ)
  /-- A track is put into the storage cache. -/
  | cacheTrack (track : Track)

def PhmState.step (s : PhmState) : PhmOp → Option PhmState
  | .alloc choice fuel count => (s.phmAllocFrameEx choice fuel count).map Prod.snd
  | .free start count => s.phmFreeFrameEx start count
  | .cachePage frame =>
    if frame ∈ s.owned then
      some { s with owned := s.owned.erase frame, pages := frame :: s.pages }
    else none
  | .uncachePage frame =>
    if frame ∈ s.pages then
      some { s with pages := s.pages.erase frame, owned := frame :: s.owned }
    else none
  | .cacheTrack track =>
    if track.frames.Nodup ∧ ∀ f ∈ track.frames, f ∈ s.owned then
      some { s with owned := s.owned.diff track.frames, tracks := track :: s.tracks }
    else none

/-- The state after `initPhysMem2`. -/
def BootState.phmInit (b : BootState) : PhmState :=
  ⟨b.initFrames, b.initFrames.used, [], [], [], []⟩

def phmSystem : System PhmState PhmOp where
  init s := ∃ b : BootState, bootSystem.Reachable b ∧ s = b.phmInit
  step s op s' := s.step op = some s'

end Glidix.PhysMem
