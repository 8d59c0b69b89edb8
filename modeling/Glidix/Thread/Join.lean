import Mathlib.Data.List.Basic
import Mathlib.Logic.Function.Basic
import Glidix.Lib.Runs

/-!
# Joining and detaching threads

A thread that exits posts a notification with its return value, unless it is detached, and is marked as
terminated later; the system manager takes it off the thread list after that.  `joinThread` takes the
notification, and `detachThread` deletes it.  A step is what a thread does from the first lock that it
acquires until it releases the last one; `none` means that a lock it needs is taken.
-/

namespace Glidix.Thread

inductive NotifType where
  | SHN_PROCESS_DEAD
  | SHN_THREAD_DEAD
  deriving DecidableEq

/-- A notification; `info` is a status or a return value. -/
structure SchedNotif where
  type : NotifType
  dest : ℕ
  source : ℕ
  info : ℕ
  deriving DecidableEq

namespace Join

/-- A thread of a process.  Once it has posted its notification, `exit` is its return value. -/
structure JoinThread where
  pid : ℕ
  detached : Bool
  exit : Option ℕ
  terminated : Bool
  /-- It is on the thread list. -/
  listed : Bool
  deriving DecidableEq

/-- The threads by their `thid`, which are taken from `nextPid`; whether interrupts are enabled while a
thread runs; the notifications, the first one first; and the locks.  `joins` and `detaches` list the calls
that succeeded, with the value that was returned. -/
structure JoinState where
  threads : ℕ → Option JoinThread
  nextPid : ℕ
  interrupts : ℕ → Bool
  notifs : List SchedNotif
  schedLock : Bool
  notifLock : Bool
  joins : List (ℕ × ℕ)
  detaches : List ℕ

/-- The notification of the end of a thread. -/
def isNotifOf (pid thid : ℕ) (notif : SchedNotif) : Bool :=
  notif.dest = pid ∧ notif.type = .SHN_THREAD_DEAD ∧ notif.source = thid

/-- What a turn of `joinThread` ends in: it returns 0 with a value, -1 for the caller itself, or -2 after
a signal; or the loop goes on. -/
inductive JoinResult where
  | joined (retval : ℕ)
  | itself
  | signalled
  | waits
  deriving DecidableEq

inductive DetachResult where
  | ok
  | EINVAL
  | ESRCH
  deriving DecidableEq

namespace JoinState

variable (s : JoinState)

def modify (thid : ℕ) (f : JoinThread → JoinThread) : JoinState :=
  { s with threads := Function.update s.threads thid ((s.threads thid).map f) }

/-- `spinlockAcquire(&notifLock)` -/
def acquireNotif : Option JoinState := if s.notifLock then none else some { s with notifLock := true }

/-- `spinlockRelease(&notifLock)` -/
def releaseNotif : JoinState := { s with notifLock := false }

def lockSched : Option JoinState := if s.schedLock then none else some { s with schedLock := true }

def unlockSched : JoinState := { s with schedLock := false }

def cli (thid : ℕ) : JoinState := { s with interrupts := Function.update s.interrupts thid false }

def sti (thid : ℕ) : JoinState := { s with interrupts := Function.update s.interrupts thid true }

/-- A thread that may call a function. -/
def running (thid : ℕ) : Option JoinThread :=
  (s.threads thid).filter fun t => t.listed && t.exit.isNone

/-- A thread of the process on the thread list. -/
def find (pid thid : ℕ) : Option JoinThread :=
  (s.threads thid).filter fun t => t.listed && t.pid == pid

/-- A thread creates another one. -/
def create (caller : ℕ) (detached : Bool) : Option JoinState := do
  let me ← s.running caller
  some { s with
    threads := Function.update s.threads s.nextPid (some ⟨me.pid, detached, none, false, true⟩)
    nextPid := s.nextPid + 1
    interrupts := Function.update s.interrupts s.nextPid true }

/-- The first part of `threadExitEx`. -/
def threadExitEx (caller retval : ℕ) : Option JoinState := do
  let me ← s.running caller
  let s ← s.acquireNotif
  let s := s.modify caller fun t => { t with exit := some retval }
  let notifs :=
    if me.detached then s.notifs else ⟨.SHN_THREAD_DEAD, me.pid, caller, retval⟩ :: s.notifs
  some { s with notifs }.releaseNotif

/-- The second part of `threadExitEx`: `switchTaskUnlocked` releases `schedLock`, and the thread does not
run again. -/
def terminate (caller : ℕ) : Option JoinState := do
  let me ← s.threads caller
  if me.exit.isSome ∧ me.terminated = false then
    let s ← (s.cli caller).lockSched
    some (s.modify caller fun t => { t with terminated := true }).unlockSched
  else none

/-- `sysManFunc` takes a terminated thread off the list. -/
def sysManFunc (thid : ℕ) : Option JoinState := do
  let t ← s.threads thid
  if t.terminated ∧ t.listed then
    let s ← s.lockSched
    some (s.modify thid fun t => { t with listed := false }).unlockSched
  else none

/-- A turn of `joinThread`; `signalled` is what `wasSignalled` finds after the wait. -/
def joinThread (caller thid : ℕ) (signalled : Bool) : Option (JoinResult × JoinState) := do
  let me ← s.running caller
  if thid = caller then some (.itself, s)
  else
    let s ← s.acquireNotif
    match s.notifs.find? (isNotifOf me.pid thid) with
    | some notif => some (.joined notif.info,
        { s with
          notifs := s.notifs.eraseP (isNotifOf me.pid thid)
          joins := (thid, notif.info) :: s.joins }.releaseNotif)
    | none =>
      let s ← (s.cli caller).lockSched
      let s := s.releaseNotif.unlockSched
      -- `wasSignalled` takes and releases `schedLock` once more, and enables interrupts
      let s ← (s.cli caller).lockSched
      some (if signalled then .signalled else .waits, s.unlockSched.sti caller)

/-- `detachThread` -/
def detachThread (caller thid : ℕ) : Option (DetachResult × JoinState) := do
  let me ← s.running caller
  let s ← s.acquireNotif
  let s ← (s.cli caller).lockSched
  match s.find me.pid thid with
  | none => some (.ESRCH, (s.unlockSched.sti caller).releaseNotif)
  | some t =>
    if t.detached then some (.EINVAL, (s.unlockSched.sti caller).releaseNotif)
    else
      let s := s.modify thid fun t => { t with detached := true }
      let s := { s with detaches := thid :: s.detaches }
      match s.notifs.find? (isNotifOf me.pid thid) with
      | some _ =>
        -- returns without `unlockSched` and `sti`
        some (.ok, { s with notifs := s.notifs.eraseP (isNotifOf me.pid thid) }.releaseNotif)
      | none => some (.ok, (s.unlockSched.sti caller).releaseNotif)

end JoinState

inductive JoinOp where
  | create (caller : ℕ) (detached : Bool)
  | exit (caller retval : ℕ)
  | terminate (caller : ℕ)
  | cleanup (thid : ℕ)
  | join (caller thid : ℕ) (signalled : Bool)
  | detach (caller thid : ℕ)
  deriving DecidableEq

def JoinState.step (s : JoinState) : JoinOp → Option JoinState
  | .create caller detached => s.create caller detached
  | .exit caller retval => s.threadExitEx caller retval
  | .terminate caller => s.terminate caller
  | .cleanup thid => s.sysManFunc thid
  | .join caller thid signalled => (s.joinThread caller thid signalled).map Prod.snd
  | .detach caller thid => (s.detachThread caller thid).map Prod.snd

/-- The first thread of each process; the `thid` of a first thread is the `pid`. -/
def firstThreads (pids : List ℕ) (thid : ℕ) : Option JoinThread :=
  if thid ∈ pids then some ⟨thid, false, none, false, true⟩ else none

/-- Some processes with one thread each. -/
def joinInit (pids : List ℕ) (nextPid : ℕ) : JoinState where
  threads := firstThreads pids
  nextPid := nextPid
  interrupts := fun _ => true
  notifs := []
  schedLock := false
  notifLock := false
  joins := []
  detaches := []

def joinSystem : System JoinState JoinOp where
  init s := ∃ pids nextPid, (∀ pid ∈ pids, pid < nextPid) ∧ s = joinInit pids nextPid
  step s op s' := s.step op = some s'

end Join

end Glidix.Thread
