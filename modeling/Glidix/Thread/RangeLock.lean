import Mathlib.Algebra.Order.Ring.Int
import Glidix.Lib.Heap
import Glidix.Lib.Linked
import Glidix.Lib.Runs

/-!
# Range locks

A `RangeLock` keeps the locked ranges as a doubly linked list of heap objects.  Each function below
runs under `rl->lock` from its `semWait` to its `semSignal`, so it is one step; it answers `none`
when it follows a dangling pointer or goes round a circular list.  Threads blocked in `rlSet` are
described by the request they queue and the call they will retry.
-/

namespace Glidix.Thread

/-- Types of locks (`RL_UNLOCK`, `RL_READ`, `RL_WRITE`). -/
inductive LockType where
  | unlock
  | read
  | write
  deriving DecidableEq

/-- An element of the list of locked ranges. -/
structure LockedRange where
  prev : ℕ
  next : ℕ
  type : LockType
  key : UInt64
  start : UInt64
  size : UInt64
  deriving DecidableEq

namespace LockedRange

/-- The first unit after the range, as the code computes it. -/
def stop (r : LockedRange) : UInt64 := r.start + r.size

end LockedRange

/-- A range lock: the list of locked ranges and the queue of pending requests, each named by the
thread that waits on it. -/
structure RangeLock where
  heap : Heap LockedRange
  ranges : ℕ
  requests : List ℕ

def rlInit : RangeLock := ⟨.empty, 0, []⟩

namespace RangeLock

/-- Read the object at `a`. -/
def get (rl : RangeLock) (a : ℕ) : Option LockedRange := rl.heap.get a

/-- Write to the object at `a`. -/
def modify (rl : RangeLock) (a : ℕ) (f : LockedRange → LockedRange) : Option RangeLock :=
  (rl.heap.modify a f).map fun heap => { rl with heap }

/-- Write to the object at `a` unless `a` is null. -/
def modifyNonNull (rl : RangeLock) (a : ℕ) (f : LockedRange → LockedRange) : Option RangeLock :=
  if a = 0 then some rl else rl.modify a f

def kfree (rl : RangeLock) (a : ℕ) : Option RangeLock :=
  (rl.heap.release a).map fun heap => { rl with heap }

def new (rl : RangeLock) (r : LockedRange) : ℕ × RangeLock :=
  ((rl.heap.new r).1, { rl with heap := (rl.heap.new r).2 })

end RangeLock

/-- Unlink the element `range`, whose contents are `r`, and release it. -/
def rlRemove (rl : RangeLock) (range : ℕ) (r : LockedRange) : Option RangeLock := do
  let rl ← rl.modifyNonNull r.prev fun p => { p with next := r.next }
  let rl ← rl.modifyNonNull r.next fun n => { n with prev := r.prev }
  let rl := if rl.ranges = range then { rl with ranges := r.next } else rl
  rl.kfree range

/-- Cut the units from `start` to `start + size` out of the element `range`: a new element after it
takes what is above them.  `prev` of the element after that one is left alone. -/
def rlSplit (rl : RangeLock) (range : ℕ) (r : LockedRange) (key start size : UInt64) :
    Option RangeLock :=
  let rightSize := r.stop - (start + size)
  let (right, rl) := rl.new
    { prev := range, next := r.next, type := r.type, key := key, start := start + size,
      size := rightSize }
  rl.modify range fun r => { r with size := start - r.start, next := right }

/-- The `while` loop of `rlUnlock`, from the element `range` on. -/
def rlUnlockLoop (key start size : UInt64) : ℕ → RangeLock → ℕ → Option RangeLock
  | 0, _, _ => none
  | fuel + 1, rl, range =>
    if range = 0 then some rl
    else do
      let r ← rl.get range
      if r.key ≠ key then rlUnlockLoop key start size fuel rl r.next
      else if start ≤ r.start ∧ r.stop ≤ start + size then
        -- engulfed
        rlUnlockLoop key start size fuel (← rlRemove rl range r) r.next
      else if start ≤ r.start ∧ start + size ≤ r.stop then
        -- taken to overlap its lower part: push it up
        let delta := start + size - r.start
        let rl ← rl.modify range fun r =>
          { r with start := r.start + delta, size := r.size - delta }
        rlUnlockLoop key start size fuel rl r.next
      else if r.start ≤ start ∧ r.stop ≤ start + size then
        -- taken to overlap its upper part: cut it off
        let delta := r.start + r.size - start
        let rl ← rl.modify range fun r => { r with size := r.size - delta }
        rlUnlockLoop key start size fuel rl r.next
      else if r.start < start ∧ start + size < r.stop then
        rlUnlockLoop key start size fuel (← rlSplit rl range r key start size) r.next
      else rlUnlockLoop key start size fuel rl r.next

/-- `rlUnlock`: walk the list, then release all pending requests to retry.  A list without a cycle
has fewer elements than there are addresses below `brk`. -/
def rlUnlock (rl : RangeLock) (key start size : UInt64) : Option RangeLock := do
  let rl ← rlUnlockLoop key start size rl.heap.brk rl rl.ranges
  return { rl with requests := [] }

def rlReleaseKey (rl : RangeLock) (key : UInt64) : Option RangeLock :=
  rlUnlock rl key 0 0xFFFFFFFFFFFFFFFF

/-- What the search for overlapping locks finds. -/
inductive SearchResult where
  /-- A lock of the same key overlaps. -/
  | deadlock
  /-- An incompatible lock of another key overlaps. -/
  | found
  /-- Nothing is in the way; the new range goes after the given element, or to the front. -/
  | place (placeAfter : ℕ)
  deriving DecidableEq

/-- The `for` loop of `rlSet`. -/
def rlSearch (type : LockType) (key start size : UInt64) (rl : RangeLock) :
    ℕ → ℕ → ℕ → Option SearchResult
  | 0, _, _ => none
  | fuel + 1, range, placeAfter =>
    if range = 0 then some (.place placeAfter)
    else do
      let r ← rl.get range
      let placeAfter := if r.start < start then range else placeAfter
      if start < r.stop ∧ r.start < start + size then
        if r.key = key then return .deadlock
        else if r.type = .write ∨ type = .write then return .found
      rlSearch type key start size rl fuel r.next placeAfter

/-- Put a new range on the list. -/
def rlInsert (rl : RangeLock) (type : LockType) (key start size : UInt64) (placeAfter : ℕ) :
    Option RangeLock :=
  if placeAfter = 0 then do
    let (range, rl) := rl.new { prev := 0, next := rl.ranges, type, key, start, size }
    let rl ← rl.modifyNonNull rl.ranges fun r => { r with prev := range }
    return { rl with ranges := range }
  else do
    let p ← rl.get placeAfter
    let (range, rl) := rl.new { prev := placeAfter, next := p.next, type, key, start, size }
    let rl ← rl.modify placeAfter fun p => { p with next := range }
    rl.modifyNonNull p.next fun n => { n with prev := range }

/-- Error numbers of `rlSet`. -/
inductive Errno where
  | EOVERFLOW
  | EDEADLK
  | EAGAIN
  | EINTR
  deriving DecidableEq

/-- How a turn of `rlSet` ends. -/
inductive SetResult where
  | done
  | error (e : Errno)
  /-- The thread waits on its request. -/
  | blocked
  deriving DecidableEq

/-- One turn of the `while` loop of `rlSet`, up to the wait on the request of thread `tid`. -/
def rlSetTurn (rl : RangeLock) (tid : ℕ) (type : LockType) (key start size : UInt64)
    (block : Bool) : Option (SetResult × RangeLock) := do
  match ← rlSearch type key start size rl rl.heap.brk rl.ranges 0 with
  | .deadlock => return (.error .EDEADLK, rl)
  | .place placeAfter => return (.done, ← rlInsert rl type key start size placeAfter)
  | .found =>
    if block then return (.blocked, { rl with requests := rl.requests ++ [tid] })
    else return (.error .EAGAIN, rl)

/-- `rlSet` up to the point where it returns or waits for the first time. -/
def rlSet (rl : RangeLock) (tid : ℕ) (type : LockType) (key start size : UInt64) (block : Bool) :
    Option (SetResult × RangeLock) :=
  if size > ~~~start then some (.error .EOVERFLOW, rl)
  else if type = .unlock then (rlUnlock rl key start size).map fun rl => (.done, rl)
  else rlSetTurn rl tid type key start size block

/-! ## Runs -/

/-- A call of `rlSet` that is blocked on its request. -/
structure PendingRangeRequest where
  type : LockType
  key : UInt64
  start : UInt64
  size : UInt64
  deriving DecidableEq

/-- A range lock and the threads blocked in it. -/
structure RangeLockState where
  rl : RangeLock
  blocked : ℕ → Option PendingRangeRequest

/-- The steps of the threads that use a range lock. -/
inductive RangeLockOp where
  /-- Thread `tid` calls `rlSet`. -/
  | set (tid : ℕ) (type : LockType) (key start size : UInt64) (block : Bool)
  /-- The request of thread `tid` was signalled, and it retries. -/
  | retry (tid : ℕ)
  /-- A signal ends the wait of thread `tid`. -/
  | interrupt (tid : ℕ)
  | releaseKey (key : UInt64)

/-- A call of `rlSet` by `tid`, or the next turn of one, has ended with `result`. -/
def RangeLockState.settle (s : RangeLockState) (tid : ℕ) (rq : PendingRangeRequest)
    (result : SetResult × RangeLock) : RangeLockState :=
  ⟨result.2, Function.update s.blocked tid (if result.1 = .blocked then some rq else none)⟩

/-- The state after an operation; `none` when it is not possible or does not return. -/
def RangeLockState.apply (s : RangeLockState) : RangeLockOp → Option RangeLockState
  | .set tid type key start size block =>
    if s.blocked tid = none then
      (rlSet s.rl tid type key start size block).map (s.settle tid ⟨type, key, start, size⟩)
    else none
  | .retry tid =>
    match s.blocked tid with
    | none => none
    | some rq =>
      -- `rlUnlock` signals a request when it takes it off the queue
      if tid ∈ s.rl.requests then none
      else (rlSetTurn s.rl tid rq.type rq.key rq.start rq.size true).map (s.settle tid rq)
  | .interrupt tid =>
    match s.blocked tid with
    | none => none
    | some _ => some ⟨{ s.rl with requests := s.rl.requests.erase tid },
        Function.update s.blocked tid none⟩
  | .releaseKey key => (rlReleaseKey s.rl key).map fun rl => { s with rl }

/-- Runs of a range lock, from `rlInit`. -/
def rangeLockSystem : System RangeLockState RangeLockOp where
  init s := s = ⟨rlInit, fun _ => none⟩
  step s op t := s.apply op = some t

end Glidix.Thread
