import Glidix.Lib.Runs
import Glidix.Vm.AddrSpace

/-!
# The other calls on an address space

`vmFault`, `vmGetPhys`, `vmProtect`, `vmUnmapThread` and `vmClone`, and the system of address spaces
that these calls and `vmMap` make: any number of them, which come from one another by `vmClone`.
-/

namespace Glidix.Vm

/-! ## Faults -/

def PF_WRITE : ℕ := 2
def PF_FETCH : ℕ := 16

/-- The signal that a fault ends in, with its code; a fault in the kernel is thrown instead, to the
same effect on the address space. -/
inductive Signal where
  | SEGV_MAPERR
  | SEGV_ACCERR
  | BUS_OBJERR
  deriving DecidableEq

/-- Set the permissions of a page to those of its segment if they are unset. -/
def PTe.setPerm (pte : PTe) (seg : Segment) : PTe :=
  if pte.gx_perm_ovr then pte
  else
    { pte with
      gx_perm_ovr := true
      gx_r := pte.gx_r || has seg.prot PROT_READ
      gx_w := pte.gx_w || has seg.prot PROT_WRITE
      gx_x := pte.gx_x || has seg.prot PROT_EXEC }

/-- The entry of a page that has been loaded to a frame. -/
def PTe.load (pte : PTe) (seg : Segment) (frame : ℕ) : PTe :=
  { pte with
    framePhysAddr := frame
    gx_shared := has seg.flags MAP_SHARED
    gx_cow := has seg.flags MAP_PRIVATE
    rw := if has seg.flags MAP_PRIVATE then false else pte.gx_w || pte.rw
    xd := !pte.gx_x || pte.xd
    present := pte.gx_r || pte.present
    user := true
    gx_loaded := true }

section

variable {W : Type} (ops : PhysMem W)

/-- Load a page that is not loaded; the answer says whether there was a frame. -/
def loadPage (seg : Segment) (pos faultAddr : ℕ) (w : W) (pte : PTe) : Bool × W × PTe :=
  if pte.gx_loaded then (true, w, pte)
  else
    let (frame, w) :=
      match seg.ft with
      | some ft => ops.ftGetPage w ft
          ((seg.offset + (faultAddr / 0x1000 * 0x1000 - pos)) % 2 ^ 64)
      | none => ops.piNew w
    if frame = 0 then (false, w, pte) else (true, w, pte.load seg frame)

/-- Give a page that is to be copied on write a frame of its own; the answer says whether there was
one.  The old frame is read through the mapping: if that is not present, the nested fault blocks on
the lock. -/
def copyOnWrite (w : W) (pte : PTe) : Option (Bool × W × PTe) :=
  if pte.gx_cow then
    if ops.piNeedsCopyOnWrite w pte.framePhysAddr then
      let (frame, w) := ops.piNew w
      if frame = 0 then some (false, w, pte)
      else if pte.present then
        let w := ops.piDecref (ops.frameWrite w frame pte.framePhysAddr) pte.framePhysAddr
        some (true, w, { pte with framePhysAddr := frame, gx_cow := false, rw := true })
      else none
    else some (true, w, { pte with gx_cow := false, rw := true })
  else some (true, w, pte)

/-- The common part of `vmFault` and `vmGetPhys`, for a page in the segment `seg`: set its permissions,
check them, load the page, and copy it if it is to be copied on write and `copy` says so. -/
def touchPage (write exec copy : Bool) (seg : Segment) (pos faultAddr : ℕ) (w : W) (pte : PTe) :
    Option (Except Signal Unit × W × PTe) :=
  let pte := pte.setPerm seg
  if write ∧ ¬ pte.gx_w ∨ ¬ pte.gx_r ∨ exec ∧ ¬ pte.gx_x then some (.error .SEGV_ACCERR, w, pte)
  else
    let (loaded, w, pte) := loadPage ops seg pos faultAddr w pte
    if loaded then
      if copy then
        (copyOnWrite ops w pte).map fun (copied, w, pte) =>
        (if copied then .ok () else .error .BUS_OBJERR, w, pte)
      else some (.ok (), w, pte)
    else some (.error .BUS_OBJERR, w, pte)

/-- Store the entry of the page that contains an address. -/
def ProcMem.setPte (pm : ProcMem) (addr : ℕ) (pte : PTe) : ProcMem :=
  { pm with ptes := Function.update pm.ptes (addr / 0x1000) pte }

/-- `vmFault`. -/
def vmFault (faultAddr flags : ℕ) (w : W) (pm : ProcMem) :
    Option (Except Signal Unit × W × ProcMem) :=
  if faultAddr < ADDR_MIN ∨ faultAddr ≥ ADDR_MAX then some (.error .SEGV_MAPERR, w, pm)
  else if pm.lock then none
  else
    (findSeg faultAddr 0 pm.segs).bind fun (_, seg, _, pos) =>
    if seg.flags = 0 then some (.error .SEGV_MAPERR, w, pm)
    else
      (touchPage ops (has flags PF_WRITE) (has flags PF_FETCH) (has flags PF_WRITE) seg pos faultAddr
        w (pm.ptes (faultAddr / 0x1000))).map fun (r, w, pte) =>
      (r, w, pm.setPte faultAddr pte)

/-- `vmGetPhys`: the frame of a page, or zero.  The page is copied whatever it is wanted for. -/
def vmGetPhys (faultAddr requiredPerms : ℕ) (w : W) (pm : ProcMem) : Option (ℕ × W × ProcMem) :=
  if faultAddr < ADDR_MIN ∨ faultAddr ≥ ADDR_MAX then some (0, w, pm)
  else if pm.lock then none
  else
    (findSeg faultAddr 0 pm.segs).bind fun (_, seg, _, pos) =>
    if seg.flags = 0 then some (0, w, pm)
    else
      (touchPage ops (has requiredPerms PROT_WRITE) (has requiredPerms PROT_EXEC) true seg pos
        faultAddr w (pm.ptes (faultAddr / 0x1000))).map fun (r, w, pte) =>
      match r with
      | .ok _ => (pte.framePhysAddr, ops.piIncref w pte.framePhysAddr, pm.setPte faultAddr pte)
      | .error _ => (0, w, pm.setPte faultAddr pte)

/-! ## Protection -/

/-- The entry of a page whose permissions are set. -/
def PTe.protect (pte : PTe) (prot : ℕ) : PTe :=
  { pte with
    gx_perm_ovr := true
    gx_r := has prot PROT_READ
    gx_w := has prot PROT_WRITE
    gx_x := has prot PROT_EXEC
    present := pte.present && (!pte.gx_loaded || has prot PROT_READ)
    rw := pte.rw && (!pte.gx_loaded || has prot PROT_WRITE)
    xd := pte.xd || (pte.gx_loaded && !has prot PROT_EXEC) }

/-- The loop of `vmProtect` over the pages that are left, from `addr` on; the segments from `pos` on
are left to be searched. -/
def protectPages (prot : ℕ) : (count : ℕ) → (addr pos : ℕ) → List Segment → (ℕ → PTe) →
    Option (Except Errno Unit × (ℕ → PTe))
  | 0, _, _, _, ptes => some (.ok (), ptes)
  | count + 1, addr, pos, segs, ptes =>
    (findSeg addr pos segs).bind fun (_, seg, behind, pos) =>
    if seg.flags = 0 then some (.error .ENOMEM, ptes)
    else if has prot PROT_WRITE ∧ has seg.flags MAP_SHARED ∧ ¬ has seg.access O_WRONLY then
      some (.error .EACCES, ptes)
    else
      protectPages prot count (addr + 0x1000) pos (seg :: behind)
        (Function.update ptes (addr / 0x1000) ((ptes (addr / 0x1000)).protect prot))

/-- `vmProtect`: it keeps the lock when it succeeds. -/
def vmProtect (base len prot : ℕ) (w : W) (pm : ProcMem) :
    Option (Except Errno Unit × W × ProcMem) :=
  if PROT_ALL < prot then some (.error .EINVAL, w, pm)
  else if has base 0xFFF then some (.error .EINVAL, w, pm)
  else if base < ADDR_MIN ∨ base ≥ ADDR_MAX then some (.error .EINVAL, w, pm)
  else
    if pm.lock then none
    else
      (protectPages (impliedProt prot) (((base + len) % 2 ^ 64 - base + 0xFFF) / 0x1000) base 0 pm.segs
        pm.ptes).map fun (r, ptes) =>
      (r, w, { pm with ptes, lock := r.isOk })

/-! ## Threads -/

/-- Join a segment that has become free with a free one in front of it. -/
def mergePrev (seg : Segment) : List Segment → Segment × List Segment
  | [] => (seg, [])
  | prev :: before =>
    if prev.flags = 0 then ({ prev with numPages := prev.numPages + seg.numPages }, before)
    else (seg, prev :: before)

/-- The loop of `vmUnmapThread`: the segments in front of `pos`, the last one first, and those that
are left.  After a segment was joined with the one in front, `pos` runs ahead. -/
def unmapThreadSegs (ct : ℕ) : (pos : ℕ) → (before : List Segment) → List Segment → W →
    (ℕ → PTe) → Option (List Segment × W × (ℕ → PTe))
  | _, before, [], w, ptes => some (before.reverse, w, ptes)
  | pos, before, [seg], w, ptes =>
    if has seg.flags MAP_THREAD ∧ seg.creator = some ct then
      (unmapArea ops pos seg.numPages w ptes).map fun (w, ptes) =>
      let w := ftDown? ops w seg.ft
      let (seg, before) := mergePrev { seg with ft := none, flags := 0, creator := none } before
      ((seg :: before).reverse, w, ptes)
    else some ((seg :: before).reverse, w, ptes)
  | pos, before, seg :: next :: rest, w, ptes =>
    if has seg.flags MAP_THREAD ∧ seg.creator = some ct then
      (unmapArea ops pos seg.numPages w ptes).bind fun (w, ptes) =>
      let w := ftDown? ops w seg.ft
      let (seg, before) := mergePrev { seg with ft := none, flags := 0, creator := none } before
      if next.flags = 0 then
        let seg := { seg with numPages := seg.numPages + next.numPages }
        unmapThreadSegs ct (pos + seg.numPages * 0x1000) (seg :: before) rest w ptes
      else
        unmapThreadSegs ct (pos + seg.numPages * 0x1000) (seg :: before) (next :: rest) w ptes
    else
      unmapThreadSegs ct (pos + seg.numPages * 0x1000) (seg :: before) (next :: rest) w ptes

/-- `vmUnmapThread`, called by the thread `ct`. -/
def vmUnmapThread (ct : ℕ) (w : W) (pm : ProcMem) : Option (W × ProcMem) :=
  if pm.lock then none
  else
    (unmapThreadSegs ops ct 0 [] pm.segs w pm.ptes).map fun (segs, w, ptes) =>
    (w, { pm with segs, ptes })

/-! ## Cloning -/

/-- The copy of a segment: a mapping of a thread becomes a normal one. -/
def Segment.clone (s : Segment) : Segment :=
  if has s.flags MAP_THREAD then
    { s with creator := none, flags := s.flags &&& (0xFFFFFFFF - MAP_THREAD) }
  else s

/-- A private page is to be copied on write in both address spaces. -/
def PTe.clone (pte : PTe) : PTe :=
  if pte.gx_loaded ∧ ¬ pte.gx_shared then { pte with rw := false, gx_cow := true } else pte

/-- `vmClone`: the new address space, and the old one. -/
def vmClone (w : W) (pm : ProcMem) : Option (ProcMem × W × ProcMem) :=
  if pm.lock then none
  else
    let w := pm.segs.foldl (fun w s => ftUp? ops w s.ft) w
    let w := (List.range 0x8000000).foldl
      (fun w p => if (pm.ptes p).gx_loaded then ops.piIncref w (pm.ptes p).framePhysAddr else w) w
    let ptes := fun p => (pm.ptes p).clone
    some ({ lock := false, segs := pm.segs.map Segment.clone, ptes }, w, { pm with ptes })

end

/-! ## Address spaces -/

/-- A call, with its arguments. -/
inductive Call where
  | map (a : MapArgs)
  | protect (base len prot : ℕ)
  | fault (faultAddr flags : ℕ)
  | getPhys (addr requiredPerms : ℕ)
  | unmapThread
  | clone
  deriving DecidableEq

/-- What the thread `ct` makes of an address space, and perhaps a new one, by a call. -/
def runCall {W : Type} (ops : PhysMem W) (ct : ℕ) (c : Call) (w : W) (pm : ProcMem) :
    Option (W × ProcMem × Option ProcMem) :=
  match c with
  | .map a => (vmMap ops ct a w pm).map fun (_, w, pm) => (w, pm, none)
  | .protect base len prot => (vmProtect base len prot w pm).map fun (_, w, pm) => (w, pm, none)
  | .fault addr flags => (vmFault ops addr flags w pm).map fun (_, w, pm) => (w, pm, none)
  | .getPhys addr perms => (vmGetPhys ops addr perms w pm).map fun (_, w, pm) => (w, pm, none)
  | .unmapThread => (vmUnmapThread ops ct w pm).map fun (w, pm) => (w, pm, none)
  | .clone => (vmClone ops w pm).map fun (new, w, pm) => (w, pm, some new)

/-- The physical memory and the address spaces. -/
structure Machine (W : Type) where
  world : W
  spaces : List ProcMem

inductive Event (W : Type) where
  /-- The thread `ct` makes a call in the `i`-th address space. -/
  | call (i ct : ℕ) (c : Call)
  /-- The processor marks a page as accessed, and as dirty if it is written. -/
  | touch (i page : ℕ) (write : Bool)
  /-- Somebody else uses the physical memory. -/
  | world (w : W)

def PTe.touch (pte : PTe) (write : Bool) : PTe :=
  { pte with accessed := true, dirty := pte.dirty || write }

/-- One step.  A call takes the lock as free: `vmProtect` keeps it, and no call would return after
that. -/
def Machine.Step {W : Type} (ops : PhysMem W) (s : Machine W) (e : Event W) (s' : Machine W) : Prop :=
  match e with
  | .call i ct c => ∃ pm w pm' new, s.spaces[i]? = some pm ∧
      runCall ops ct c s.world { pm with lock := false } = some (w, pm', new) ∧
        s' = ⟨w, s.spaces.set i pm' ++ new.toList⟩
  | .touch i page write => ∃ pm, s.spaces[i]? = some pm ∧ (pm.ptes page).present ∧
      s' = { s with spaces := s.spaces.set i
                      { pm with ptes := Function.update pm.ptes page ((pm.ptes page).touch write) } }
  | .world w => s' = { s with world := w }

/-- The address spaces that come from one made by `vmNew`. -/
def machine {W : Type} (ops : PhysMem W) : System (Machine W) (Event W) where
  init s := ∃ junk, s.spaces = [vmNew junk]
  step := Machine.Step ops

end Glidix.Vm
