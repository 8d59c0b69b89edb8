import Mathlib.Algebra.Order.Ring.Int
import Mathlib.Data.List.Sort
import Mathlib.Logic.Function.Basic
import Glidix.Lib.Runs

/-!
# Page information

Every frame of physical memory has a word with its reference count and its flags.  References are held by
page tables and, for a while, by calls of the kernel; a file tree keeps frames without a reference,
with the flag `PI_CACHE`.  A frame goes back to the allocator when its last reference is released, when
it is uncached with no references left, or when it is evicted from its tree.  The frames of the disk
cache and device frames are not modelled.
-/

namespace Glidix.Pages

/-! ## The word of a frame -/

def PI_CACHE : ℕ := 2 ^ 32
def PI_DIRTY : ℕ := 2 ^ 33
def PI_ACCESSED : ℕ := 2 ^ 34

/-- The low 32 bits of a word. -/
def refcount (w : ℕ) : ℕ := w % 2 ^ 32

/-- A flag, which is a power of two, is set. -/
def isSet (flag w : ℕ) : Bool := w / flag % 2 = 1

/-- `w | flag` -/
def setFlag (flag w : ℕ) : ℕ := if isSet flag w then w else w + flag

/-- `w & ~flag` -/
def clearFlag (flag w : ℕ) : ℕ := if isSet flag w then w - flag else w

/-- `w + 1`, as 64 bits. -/
def incWord (w : ℕ) : ℕ := (w + 1) % 2 ^ 64

/-- `w - 1`, as 64 bits. -/
def decWord (w : ℕ) : ℕ := (w + (2 ^ 64 - 1)) % 2 ^ 64

/-! ## Physical memory -/

/-- Where `phmFreeFrame` is called. -/
inductive FreeSite where
  | piDecref
  | piUncache
  | deletePT
  | tryFreeMemory
  deriving DecidableEq

/-- A call of `phmFreeFrame`: the bit of the frame in the bitmap, and its word. -/
structure Freed where
  site : FreeSite
  frame : ℕ
  used : Bool
  info : ℕ
  deriving DecidableEq

/-- The allocator, the words of the frames and the number of cached frames; `freed` and `evicted`
record what was given back. -/
structure Phm where
  frameBitmap : ℕ → Bool
  phmUsedFrames : ℤ
  phmCachedFrames : ℤ
  entries : ℕ → ℕ
  freed : List Freed
  evicted : List (ℕ × ℕ)

namespace Phm

variable (m : Phm)

def setInfo (frame w : ℕ) : Phm := { m with entries := Function.update m.entries frame w }

def phmFreeFrame (site : FreeSite) (frame : ℕ) : Phm :=
  { m with
    phmUsedFrames := m.phmUsedFrames - 1
    frameBitmap := Function.update m.frameBitmap frame false
    freed := ⟨site, frame, m.frameBitmap frame, m.entries frame⟩ :: m.freed }

/-- `phmAllocSingle` finds a free frame. -/
def phmTryFrame (frame : ℕ) : Option Phm :=
  if frame = 0 ∨ m.frameBitmap frame = true then none
  else some { m with
    phmUsedFrames := m.phmUsedFrames + 1
    frameBitmap := Function.update m.frameBitmap frame true }

def piIncref (frame : ℕ) : Phm :=
  let newEnt := incWord (m.entries frame)
  let m := m.setInfo frame newEnt
  if refcount newEnt = 1 then { m with phmCachedFrames := m.phmCachedFrames - 1 } else m

def piDecref (frame : ℕ) : Phm :=
  let newEnt := decWord (m.entries frame)
  let m := m.setInfo frame newEnt
  if refcount newEnt = 0 then
    if isSet PI_CACHE newEnt then { m with phmCachedFrames := m.phmCachedFrames + 1 }
    else m.phmFreeFrame .piDecref frame
  else m

def piMarkDirty (frame : ℕ) : Phm := m.setInfo frame (setFlag PI_DIRTY (m.entries frame))

def piMarkAccessed (frame : ℕ) : Phm := m.setInfo frame (setFlag PI_ACCESSED (m.entries frame))

def piUncache (frame : ℕ) : Phm :=
  let newEnt := clearFlag PI_CACHE (m.entries frame)
  let m := m.setInfo frame newEnt
  if refcount newEnt = 0 then
    { m with phmCachedFrames := m.phmCachedFrames - 1 }.phmFreeFrame .piUncache frame
  else m

def piCheckFlush (frame : ℕ) : Bool × Phm :=
  (isSet PI_DIRTY (m.entries frame), m.setInfo frame (clearFlag PI_DIRTY (m.entries frame)))

/-- A reference is released after its marks were set. -/
def releaseMarked (frame : ℕ) (accessed dirty : Bool) : Phm :=
  let m := if accessed then m.piMarkAccessed frame else m
  let m := if dirty then m.piMarkDirty frame else m
  m.piDecref frame

end Phm

/-! ## Trees and tables -/

/-- An entry of a page table with `gx_loaded`. -/
structure LoadedPte where
  framePhysAddr : ℕ
  accessed : Bool
  dirty : Bool
  deriving DecidableEq

/-- A page table: its own frame and its entries. -/
structure PageTable where
  frame : ℕ
  entries : List (Option LoadedPte)
  deriving DecidableEq

/-- The frames that the entries of a page table refer to. -/
def PageTable.frames (table : PageTable) : List ℕ :=
  (table.entries.filterMap id).map LoadedPte.framePhysAddr

/-- The pages of a file tree with their frames, in the order in which the tree is walked. -/
abbrev TreePages := List (ℕ × ℕ)

/-- Physical memory with the file trees, the page tables, and the references that calls of the kernel
hold. -/
structure PageMem where
  mem : Phm
  trees : List TreePages
  tables : List PageTable
  held : List ℕ

/-- Where the allocator takes a frame: from the bitmap, or from a file tree when there are none. -/
inductive FrameSource where
  | bitmap (frame : ℕ)
  | cache (t : ℕ)
  deriving DecidableEq

namespace PageMem

variable (p : PageMem)

/-- `tryFreeFrame`: the first page of a tree without references. -/
def tryFreeFrame (t : ℕ) : Option (ℕ × PageMem) := do
  let tree ← p.trees[t]?
  let page ← tree.find? fun page => refcount (p.mem.entries page.2) = 0
  some (page.2, { p with
    trees := p.trees.set t (tree.erase page)
    mem := { p.mem with
      phmCachedFrames := p.mem.phmCachedFrames - 1
      evicted := (page.2, p.mem.entries page.2) :: p.mem.evicted } })

/-- `phmAllocSingle` -/
def phmAllocSingle : FrameSource → Option (ℕ × PageMem)
  | .bitmap frame => (p.mem.phmTryFrame frame).map fun mem => (frame, { p with mem })
  | .cache t => p.tryFreeFrame t

/-- `tryFreeMemory` -/
def tryFreeMemory (t : ℕ) : Option PageMem :=
  (p.tryFreeFrame t).map fun r => { r.2 with mem := r.2.mem.phmFreeFrame .tryFreeMemory r.1 }

/-- `piNew`; the new reference is held by the caller. -/
def piNew (flags : ℕ) (src : FrameSource) : Option (ℕ × PageMem) :=
  (p.phmAllocSingle src).map fun r =>
    (r.1, { r.2 with mem := r.2.mem.setInfo r.1 (1 + flags), held := r.1 :: p.held })

/-- `getPageUnlocked`; `src` is `none` if the page cannot be loaded. -/
def getPage (t page : ℕ) (src : Option FrameSource) : Option PageMem := do
  let tree ← p.trees[t]?
  match tree.lookup page, src with
  | some frame, _ => some { p with mem := p.mem.piIncref frame, held := frame :: p.held }
  | none, none => some p
  | none, some src => do
    let r ← p.piNew PI_CACHE src
    let tree ← r.2.trees[t]?
    some { r.2 with trees := r.2.trees.set t (tree.orderedInsert (·.1 ≤ ·.1) (page, r.1)) }

/-- `piIncref` on a frame that is held or mapped. -/
def retain (frame : ℕ) : Option PageMem :=
  if frame ∈ p.held ∨ frame ∈ p.tables.flatMap PageTable.frames then
    some { p with mem := p.mem.piIncref frame, held := frame :: p.held }
  else none

/-- A call gives a reference back. -/
def release (frame : ℕ) (accessed dirty : Bool) : Option PageMem :=
  if frame ∈ p.held then
    some { p with mem := p.mem.releaseMarked frame accessed dirty, held := p.held.erase frame }
  else none

/-- A new page table. -/
def newTable (src : FrameSource) : Option PageMem :=
  (p.phmAllocSingle src).map fun r =>
    { r.2 with tables := r.2.tables ++ [⟨r.1, List.replicate 512 none⟩] }

/-- Set an entry of a page table. -/
def setEntry (t i : ℕ) (table : PageTable) (e : Option LoadedPte) : PageMem :=
  { p with tables := p.tables.set t { table with entries := table.entries.set i e } }

/-- A reference that a call holds goes to an entry of a page table; the entry gives its own back. -/
def map (t i frame : ℕ) : Option PageMem := do
  let table ← p.tables[t]?
  let e ← table.entries[i]?
  if frame ∈ p.held then
    let q := { p with held := p.held.erase frame }.setEntry t i table (some ⟨frame, false, false⟩)
    some (match e with
      | none => q
      | some pte => { q with mem := p.mem.piDecref pte.framePhysAddr })
  else none

/-- The processor marks an entry of a page table. -/
def touch (t i : ℕ) (dirty : Bool) : Option PageMem := do
  let table ← p.tables[t]?
  let pte ← table.entries[i]?.join
  some (p.setEntry t i table (some ⟨pte.framePhysAddr, true, pte.dirty || dirty⟩))

/-- One turn of `unmapArea`. -/
def unmapPage (slot : ℕ × ℕ) : PageMem :=
  match p.tables[slot.1]? with
  | none => p
  | some table =>
    match table.entries[slot.2]? with
    | some (some pte) => { p.setEntry slot.1 slot.2 table none with
        mem := p.mem.releaseMarked pte.framePhysAddr pte.accessed pte.dirty }
    | _ => p

/-- `unmapArea`, given the entries that `getPage` finds for the pages of the area. -/
def unmapArea (slots : List (ℕ × ℕ)) : PageMem := slots.foldl unmapPage p

/-- `deletePT` -/
def deletePT (t : ℕ) : Option PageMem := do
  let table ← p.tables[t]?
  some { p with
    tables := p.tables.eraseIdx t
    mem := (table.entries.filterMap id).foldl
      (fun m pte => m.releaseMarked pte.framePhysAddr pte.accessed pte.dirty)
      (p.mem.phmFreeFrame .deletePT table.frame) }

/-- A page of a tree is cut off by `ftTruncate`. -/
def truncatePage (t page : ℕ) : Option PageMem := do
  let tree ← p.trees[t]?
  let frame ← tree.lookup page
  some { p with
    trees := p.trees.set t (tree.erase (page, frame))
    mem := p.mem.piUncache frame }

/-- `flushTree` -/
def flushTree (t : ℕ) : Option PageMem := do
  let tree ← p.trees[t]?
  some { p with mem := tree.foldl (fun m page => (m.piCheckFlush page.2).2) p.mem }

/-- `deleteTree` -/
def deleteTree (t : ℕ) : Option PageMem := do
  let tree ← p.trees[t]?
  some { p with
    trees := p.trees.eraseIdx t
    mem := tree.foldl (fun m page => m.piUncache page.2) p.mem }

end PageMem

inductive PageOp where
  | newTree
  | newTable (src : FrameSource)
  | piNew (src : FrameSource)
  | getPage (t page : ℕ) (src : Option FrameSource)
  | retain (frame : ℕ)
  | release (frame : ℕ) (accessed dirty : Bool)
  | map (t i frame : ℕ)
  | touch (t i : ℕ) (dirty : Bool)
  | unmapArea (slots : List (ℕ × ℕ))
  | deletePT (t : ℕ)
  | truncatePage (t page : ℕ)
  | flushTree (t : ℕ)
  | deleteTree (t : ℕ)
  | tryFreeMemory (t : ℕ)
  deriving DecidableEq

def PageMem.step (p : PageMem) : PageOp → Option PageMem
  | .newTree => some { p with trees := p.trees ++ [[]] }
  | .newTable src => p.newTable src
  | .piNew src => (p.piNew 0 src).map Prod.snd
  | .getPage t page src => p.getPage t page src
  | .retain frame => p.retain frame
  | .release frame accessed dirty => p.release frame accessed dirty
  | .map t i frame => p.map t i frame
  | .touch t i dirty => p.touch t i dirty
  | .unmapArea slots => some (p.unmapArea slots)
  | .deletePT t => p.deletePT t
  | .truncatePage t page => p.truncatePage t page
  | .flushTree t => p.flushTree t
  | .deleteTree t => p.deleteTree t
  | .tryFreeMemory t => p.tryFreeMemory t

/-- No frame is in use. -/
def pageInit : PageMem where
  mem := ⟨fun _ => false, 0, 0, fun _ => 0, [], []⟩
  trees := []
  tables := []
  held := []

def pageSystem : System PageMem PageOp where
  init p := p = pageInit
  step p op q := p.step op = some q

end Glidix.Pages
