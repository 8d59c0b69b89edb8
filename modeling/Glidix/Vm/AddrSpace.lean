import Mathlib.Data.Nat.Bitwise
import Glidix.Lib.Pieces

/-!
# Address spaces and `vmMap`

A `ProcMem` is the address space of a process: a list of segments, which cover all of the
`0x8000000` pages, and a page table.  The page table is a function from page numbers to entries; the
entries of a table that is not there are zero.  What the physical memory and the file trees do is a
parameter (`PhysMem`), whose state `w` is passed along.  The functions return `none` where the code
does not return: it blocks on the lock, an assertion fails, or the kernel itself faults.
-/

namespace Glidix.Vm

/-! ## Constants -/

def PROT_READ : ℕ := 1
def PROT_WRITE : ℕ := 2
def PROT_EXEC : ℕ := 4
def PROT_ALL : ℕ := 7

def MAP_PRIVATE : ℕ := 1
def MAP_SHARED : ℕ := 2
def MAP_ANON : ℕ := 4
def MAP_FIXED : ℕ := 8
def MAP_THREAD : ℕ := 16
def MAP_UN : ℕ := 32

def O_WRONLY : ℕ := 1
def O_RDWR : ℕ := 3

def ADDR_MIN : ℕ := 0x200000
def ADDR_MAX : ℕ := 0x8000000000

inductive Errno where
  | EACCES
  | EBADF
  | EINVAL
  | ENODEV
  | ENOMEM
  deriving DecidableEq

/-- Some bit of `mask` is set in `x`. -/
def has (x mask : ℕ) : Bool := x &&& mask != 0

/-! ## Data -/

/-- A segment of an address space; nothing is mapped there if the flags are zero.  The address of a
file tree or a thread is a number. -/
structure Segment where
  numPages : ℕ
  ft : Option ℕ
  offset : ℕ
  creator : Option ℕ
  flags : ℕ
  prot : ℕ
  access : ℕ
  deriving DecidableEq

/-- A page table entry. -/
structure PTe where
  present : Bool
  rw : Bool
  user : Bool
  accessed : Bool
  dirty : Bool
  framePhysAddr : ℕ
  gx_r : Bool
  gx_w : Bool
  gx_x : Bool
  gx_loaded : Bool
  gx_cow : Bool
  gx_shared : Bool
  gx_perm_ovr : Bool
  xd : Bool
  deriving DecidableEq

/-- The entry all of whose bits are zero. -/
def PTe.zero : PTe := ⟨false, false, false, false, false, 0, false, false, false, false, false, false,
  false, false⟩

structure ProcMem where
  /-- The semaphore is taken. -/
  lock : Bool
  segs : List Segment
  /-- The page table entry of each page. -/
  ptes : ℕ → PTe

/-- The operations on physical memory and file trees, which have the state `W`. -/
structure PhysMem (W : Type) where
  /-- `piNew(0)`: a new frame, or zero. -/
  piNew : W → ℕ × W
  piIncref : W → ℕ → W
  piDecref : W → ℕ → W
  piMarkAccessed : W → ℕ → W
  piMarkDirty : W → ℕ → W
  piNeedsCopyOnWrite : W → ℕ → Bool
  /-- Write the contents of the second frame to the first. -/
  frameWrite : W → ℕ → ℕ → W
  ftUp : W → ℕ → W
  ftDown : W → ℕ → W
  /-- `ftCreate(FT_ANON)`. -/
  ftCreate : W → ℕ × W
  /-- The frame of a file's page, or zero. -/
  ftGetPage : W → ℕ → ℕ → ℕ × W

/-- An open file, as far as `vmMap` reads it: the tree of its inode and the flags. -/
structure File where
  ft : Option ℕ
  oflags : ℕ
  deriving DecidableEq

/-! ## Pages -/

/-- What a segment says about one of its pages. -/
structure PageAttr where
  ft : Option ℕ
  /-- The offset of the page in the file. -/
  offset : ℕ
  creator : Option ℕ
  flags : ℕ
  prot : ℕ
  access : ℕ
  deriving DecidableEq

/-- The attributes of the `i`-th page of a segment. -/
def Segment.page (s : Segment) (i : ℕ) : PageAttr :=
  ⟨s.ft, (s.offset + i * 0x1000) % 2 ^ 64, s.creator, s.flags, s.prot, s.access⟩

/-- The attributes of all pages of a list of segments. -/
abbrev pages (segs : List Segment) : List PageAttr := cells Segment.numPages Segment.page segs

/-- The number of pages of a list of segments. -/
abbrev numPages (segs : List Segment) : ℕ := span Segment.numPages segs

/-- The attributes of a page. -/
def ProcMem.attr (pm : ProcMem) (page : ℕ) : Option PageAttr := (pages pm.segs)[page]?

/-- The segments are not empty and cover all pages. -/
structure WellFormed (segs : List Segment) : Prop where
  pos : ∀ s ∈ segs, 0 < s.numPages
  total : numPages segs = 0x8000000

/-- `vmNew`; the fields of the segment that are not set are as in `junk`. -/
def vmNew (junk : Segment) : ProcMem where
  lock := false
  segs := [{ junk with numPages := 0x8000000, ft := none, flags := 0, prot := 0 }]
  ptes := fun _ => .zero

/-! ## Unmapping an area -/

section

variable {W : Type} (ops : PhysMem W)

/-- Unmap the page at an address.  Behind `ADDR_MAX` the page tables are not mapped either: the
kernel faults. -/
def unmapPage (pos : ℕ) (w : W) (ptes : ℕ → PTe) : Option (W × (ℕ → PTe)) :=
  if pos ≥ ADDR_MAX then none
  else
    let pte := ptes (pos / 0x1000)
    if pte.gx_loaded then
      let w := if pte.accessed then ops.piMarkAccessed w pte.framePhysAddr else w
      let w := if pte.dirty then ops.piMarkDirty w pte.framePhysAddr else w
      some (ops.piDecref w pte.framePhysAddr, Function.update ptes (pos / 0x1000) .zero)
    else some (w, ptes)

/-- `unmapArea` for an area of `count` pages. -/
def unmapArea (pos : ℕ) : (count : ℕ) → W → (ℕ → PTe) → Option (W × (ℕ → PTe))
  | 0, w, ptes => some (w, ptes)
  | count + 1, w, ptes =>
    (unmapPage ops pos w ptes).bind fun (w, ptes) => unmapArea (pos + 0x1000) count w ptes

/-- `ftDown` on a pointer that may be null. -/
def ftDown? (w : W) (ft : Option ℕ) : W := ft.elim w (ops.ftDown w)

/-- `ftUp` on a pointer that may be null. -/
def ftUp? (w : W) (ft : Option ℕ) : W := ft.elim w (ops.ftUp w)

/-! ## Mapping -/

/-- The arguments of `vmMap`, 64-bit numbers and bit masks. -/
structure MapArgs where
  addr : ℕ
  len : ℕ
  prot : ℕ
  flags : ℕ
  fp : Option File
  off : ℕ
  deriving DecidableEq

/-- What is to be mapped, when the arguments are in order. -/
structure Mapping where
  numPages : ℕ
  prot : ℕ
  access : ℕ
  deriving DecidableEq

/-- Write and execute permission imply read permission. -/
def impliedProt (prot : ℕ) : ℕ :=
  let prot := if has prot PROT_WRITE then prot ||| PROT_READ else prot
  if has prot PROT_EXEC then prot ||| PROT_READ else prot

/-- The access that the file permits; the creator of an anonymous mapping may read and write it. -/
def mapAccess (a : MapArgs) : Except Errno ℕ :=
  match a.fp with
  | none => if has a.flags MAP_ANON then .ok O_RDWR else .error .EBADF
  | some fp => if fp.ft = none then .error .ENODEV else .ok (fp.oflags &&& O_RDWR)

/-- The checks at the start of `vmMap`. -/
def vmMapCheck (a : MapArgs) : Except Errno Mapping :=
  let prot := impliedProt a.prot
  if has a.flags MAP_UN ∧ a.fp ≠ none then .error .EINVAL
  else
    (mapAccess a).bind fun access =>
    if has a.flags MAP_ANON ∧ a.fp ≠ none then .error .EINVAL
    else
      let mappingType := a.flags &&& (MAP_PRIVATE ||| MAP_SHARED)
      if mappingType ≠ MAP_PRIVATE ∧ mappingType ≠ MAP_SHARED then .error .EINVAL
      else if mappingType = MAP_SHARED ∧ has prot PROT_WRITE ∧ ¬ has access O_WRONLY then
        .error .EACCES
      else if (a.addr ≠ 0 ∨ has a.flags MAP_FIXED) ∧ a.addr < 0x200000 then .error .EINVAL
      else if (a.addr ≠ 0 ∨ has a.flags MAP_FIXED) ∧ (a.addr + a.len) % 2 ^ 64 > 0x8000000000 then
        .error .EINVAL
      else if has a.off 0xFFF then .error .EINVAL
      else
        let numPages := (a.len + 0xFFF) % 2 ^ 64 / 0x1000
        if numPages = 0 then .error .EINVAL
        else .ok ⟨numPages, prot, access⟩

/-- The tree of a mapping: that of the file, a new one if it is anonymous and shared, or none. -/
def mapTree (a : MapArgs) (w : W) : Option ℕ × W :=
  if has a.flags MAP_SHARED ∧ has a.flags MAP_ANON then
    let (ft, w) := ops.ftCreate w
    (some ft, w)
  else
    match a.fp with
    | none => (none, w)
    | some fp => (fp.ft, ftUp? ops w fp.ft)

/-- The last free segment of at least `n` pages, with what lies before and behind it. -/
def findFree (n : ℕ) : List Segment → Option (List Segment × Segment × List Segment)
  | [] => none
  | seg :: rest =>
    match findFree n rest with
    | some (before, s, behind) => some (seg :: before, s, behind)
    | none => if seg.flags = 0 ∧ n ≤ seg.numPages then some ([], seg, rest) else none

/-- The segment of a mapping. -/
def newSegment (ct : ℕ) (a : MapArgs) (m : Mapping) (flags n : ℕ) (ft : Option ℕ) : Segment where
  numPages := n
  ft := ft
  offset := a.off
  creator := if has a.flags MAP_THREAD then some ct else none
  flags := flags
  prot := m.prot
  access := m.access

/-- `vmMap` where the address is left to it. -/
def vmMapAnywhere (ct : ℕ) (a : MapArgs) (m : Mapping) (w : W) (pm : ProcMem) :
    Except Errno ℕ × W × ProcMem :=
  match findFree m.numPages pm.segs with
  | none => (.error .ENOMEM, w, pm)
  | some (before, seg, behind) =>
    let pos := 0x8000000000 - (numPages behind + seg.numPages) * 0x1000
    let (ft, w') := mapTree ops a w
    if seg.numPages = m.numPages then
      if pos < ADDR_MIN then (.error .ENOMEM, w, pm)
      else
        (.ok pos, w',
          { pm with segs := before ++ newSegment ct a m a.flags seg.numPages ft :: behind })
    else
      let pos := pos + (seg.numPages - m.numPages) * 0x1000
      if pos < ADDR_MIN then (.error .ENOMEM, w, pm)
      else
        -- the new tree of a shared anonymous mapping is given to the segment that stays free
        let anonShared : Bool := has a.flags MAP_SHARED && has a.flags MAP_ANON
        let newSeg := newSegment ct a m a.flags m.numPages (if anonShared then none else ft)
        let seg := { seg with ft := if anonShared then ft else seg.ft,
                              numPages := seg.numPages - m.numPages }
        (.ok pos, w', { pm with segs := before ++ seg :: newSeg :: behind })

/-- The segment that contains an address, with what lies before and behind it and where it begins;
the search starts at `pos`. -/
def findSeg (addr : ℕ) : (pos : ℕ) → List Segment →
    Option (List Segment × Segment × List Segment × ℕ)
  | _, [] => none
  | pos, seg :: rest =>
    if pos + seg.numPages * 0x1000 ≤ addr then
      (findSeg addr (pos + seg.numPages * 0x1000) rest).map
        fun (before, s, behind, p) => (seg :: before, s, behind, p)
    else some ([], seg, rest, pos)

/-- Unmap an area, if the segment that is to give way was mapped. -/
def unmapOld (seg : Segment) (addr n : ℕ) (w : W) (ptes : ℕ → PTe) : Option (W × (ℕ → PTe)) :=
  if seg.flags ≠ 0 then unmapArea ops addr n w ptes else some (w, ptes)

/-- Extend `seg` to `n` pages at the expense of those behind it. -/
def swallow (addr n : ℕ) (seg : Segment) :
    List Segment → W → (ℕ → PTe) → Option (Segment × List Segment × W × (ℕ → PTe))
  | [], w, ptes => if seg.numPages < n then none else some (seg, [], w, ptes)
  | next :: rest, w, ptes =>
    if seg.numPages < n then
      let pagesNeeded := n - seg.numPages
      if next.numPages ≤ pagesNeeded then
        (unmapOld ops next (addr + seg.numPages * 0x1000) seg.numPages w ptes).bind
          fun (w, ptes) =>
        swallow addr n { seg with numPages := seg.numPages + next.numPages } rest
          (ftDown? ops w next.ft) ptes
      else
        -- the loop ends here, as `seg` is large enough
        some ({ seg with numPages := seg.numPages + pagesNeeded },
          { next with offset := (next.offset + pagesNeeded * 0x1000) % 2 ^ 64,
                      numPages := next.numPages - pagesNeeded } :: rest, w, ptes)
    else some (seg, next :: rest, w, ptes)

/-- Cut a segment in two: its first `offsetPages` pages, and the rest. -/
def cutFront (seg : Segment) (offsetPages : ℕ) : Segment × Segment :=
  ({ seg with numPages := offsetPages },
    { seg with numPages := seg.numPages - offsetPages,
               offset := (seg.offset + offsetPages * 0x1000) % 2 ^ 64 })

/-- Truncate the segment found at `pos` if it begins before `addr`, and rip off the end if what
remains is longer than `n` pages. -/
def cutToFit (addr n pos : ℕ) (before : List Segment) (seg : Segment) (behind : List Segment) (w : W) :
    List Segment × Segment × List Segment × W :=
  let (before, seg, w) :=
    if pos < addr then
      let cut := cutFront seg ((addr - pos) / 0x1000)
      (before ++ [cut.1], cut.2, ftUp? ops w seg.ft)
    else (before, seg, w)
  if seg.numPages > n then
    let cut := cutFront seg n
    (before, cut.1, cut.2 :: behind, ftUp? ops w seg.ft)
  else (before, seg, behind, w)

/-- The flags of a mapping at a given address; those of an unmapping are zero. -/
def MapArgs.fixedFlags (a : MapArgs) : ℕ := if has a.flags MAP_UN then 0 else a.flags

/-- Fill in the details of the segment at a given address. -/
def fillSegment (ct addr : ℕ) (a : MapArgs) (m : Mapping) (before : List Segment) (seg : Segment)
    (behind : List Segment) (w : W) (ptes : ℕ → PTe) (pm : ProcMem) :
    Except Errno ℕ × W × ProcMem :=
  let (ft, w) := mapTree ops a w
  (.ok addr, w,
    { pm with segs := before ++ newSegment ct a m a.fixedFlags seg.numPages ft :: behind, ptes })

/-- `vmMap` at a given address, which has been rounded down to a page. -/
def vmMapAt (ct addr : ℕ) (a : MapArgs) (m : Mapping) (w : W) (pm : ProcMem) :
    Option (Except Errno ℕ × W × ProcMem) :=
  match findSeg addr 0 pm.segs with
  | none => some (.error .ENOMEM, w, pm)
  | some (before, seg, behind, pos) =>
    if pos = addr ∧ seg.numPages = m.numPages then
      (unmapOld ops seg pos m.numPages (ftDown? ops w seg.ft) pm.ptes).map fun (w, ptes) =>
      fillSegment ops ct addr a m before seg behind w ptes pm
    else
      let (before, seg, behind, w) := cutToFit ops addr m.numPages pos before seg behind w
      (swallow ops addr m.numPages seg behind w pm.ptes).bind fun (seg, behind, w, ptes) =>
      (unmapOld ops seg addr m.numPages w ptes).map fun (w, ptes) =>
      fillSegment ops ct addr a m before seg behind (ftDown? ops w seg.ft) ptes pm

/-- `vmMap`, called by the thread `ct`. -/
def vmMap (ct : ℕ) (a : MapArgs) (w : W) (pm : ProcMem) : Option (Except Errno ℕ × W × ProcMem) :=
  match vmMapCheck a with
  | .error e => some (.error e, w, pm)
  | .ok m =>
    if a.addr = 0 ∧ ¬ has a.flags MAP_FIXED then
      if pm.lock then none else some (vmMapAnywhere ops ct a m w pm)
    else if has a.flags MAP_FIXED ∧ has a.addr 0xFFF then some (.error .EINVAL, w, pm)
    else if pm.lock then none
    else vmMapAt ops ct (a.addr / 0x1000 * 0x1000) a m w pm

end

end Glidix.Vm
