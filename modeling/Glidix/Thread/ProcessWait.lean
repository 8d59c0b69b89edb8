import Glidix.Thread.KillDelivery

/-!
# The end of a process and waiting for it

When the system manager drops the last reference to the credentials of a process, `credsDownref` posts a
notification for the parent, sends `SIGCHLD` and wakes the parent up; `processWait` takes the notification.
Notifications of threads are in the same list.  `killOtherThreads`, which `elfExec` and `processExit` call,
deletes all that are directed at the process.
-/

namespace Glidix.Thread.Wait

open Kill

/-- A thread on the thread list, with its `thid`. -/
structure WaitThread where
  thid : ℕ+
  detached : Bool
  kill : KillThread

def WaitThread.of (t : WaitThread) (p : ℕ+) : Bool := t.kill.process = some p

def WaitThread.terminated (t : WaitThread) : Bool := t.kill.sig.terminated

/-- The thread with another state of its signals. -/
def WaitThread.withSig (t : WaitThread) (sig : SigThread) : WaitThread :=
  { t with kill := { t.kill with sig } }

/-- A process that died while its parent was alive. -/
structure Death where
  child : ℕ+
  parent : ℕ+
  status : ℕ
  deriving DecidableEq

/-- The threads on the thread list, the processes by their pids, and the notifications.  `exiting` are the
processes of which a thread has called `processExit`; `deaths` lists the processes that died under a living
parent, `reports` the notifications that `processWait` took, with the process that took them, and
`sigchlds` the processes for which the parent got a `SIGCHLD`. -/
structure WaitState where
  threads : List WaitThread
  creds : ℕ+ → Creds
  status : ℕ+ → ℕ
  nextPid : ℕ+
  notifs : List SchedNotif
  exiting : ℕ+ → Bool
  deaths : List Death
  reports : List (ℕ+ × SchedNotif)
  sigchlds : List ℕ+

/-- The thread of the system manager, of which only that it has no credentials matters. -/
def sysMan : KillThread :=
  ⟨none, false, ⟨false, true, false, 0, 0, 0, fun _ => { si_signo := 0 }, 0, fun _ => ⟨SIG_DFL, 0, 0, 0⟩⟩⟩

/-- The `SIGCHLD` for the death of a process. -/
def childInfo (pid : ℕ+) (ruid status : ℕ) : Siginfo :=
  let termsig := status &&& 0x7F
  { si_signo := SIGCHLD
    si_code := if termsig = 0 then 0x2001 else if status &&& 1 <<< 7 = 0 then 0x2002 else 0x2003
    si_status := if termsig = 0 then ((status >>> 8 &&& 0xFF : ℕ) : ℤ) else (termsig : ℤ)
    si_pid := pid
    si_uid := ruid }

/-- What a turn of `processWait` ends in: it returns a pid and the status, or -1 for the caller's own pid;
or it finds nothing, and returns -1 or waits. -/
inductive WaitResult where
  | reaped (pid status : ℕ)
  | itself
  | nothing
  deriving DecidableEq

namespace WaitState

variable (s : WaitState)

/-- A thread that may call a function, and its process. -/
def running (thid : ℕ+) : Option (WaitThread × ℕ+) := do
  let t ← s.threads.find? fun t => t.thid = thid && !t.terminated
  let p ← t.kill.process
  some (t, p)

/-- The process has a thread on the thread list. -/
def listed (p : ℕ+) : Bool := s.threads.any (·.of p)

/-- The process has a thread that runs and has not called `processExit`. -/
def alive (p : ℕ+) : Bool := !s.exiting p && s.threads.any fun t => t.of p && !t.terminated

/-- Delete all notifications directed at a process. -/
def purge (p : ℕ+) : List SchedNotif := s.notifs.filter fun notif => notif.dest ≠ p

/-- `killOtherThreads`; sending `SIGTHKILL` does not panic. -/
def killOtherThreads (currentTime : ℕ) (me : WaitThread) (p : ℕ+) : WaitState :=
  { s with
    threads := s.threads.map fun t =>
      if t.of p ∧ t.thid ≠ me.thid then
        t.withSig (((t.kill.sig.sendSignal currentTime { si_signo := SIGTHKILL }).map Prod.snd).getD
          t.kill.sig)
      else t
    notifs := s.purge p }

/-- `threadClone` without `CLONE_THREAD`: a new process. -/
def fork (caller : ℕ+) (detached : Bool) (sig : SigThread) : Option WaitState := do
  let (_, p) ← s.running caller
  let pid := s.nextPid
  some { s with
    threads :=
      ⟨pid + 1, detached, ⟨some pid, false, { sig with terminated := false }⟩⟩ :: s.threads
    creds := Function.update s.creds pid { s.creds p with ppid := p }
    status := Function.update s.status pid (s.status p)
    nextPid := pid + 2 }

/-- `threadClone` with `CLONE_THREAD`: a new thread of the process. -/
def clone (caller : ℕ+) (detached : Bool) (sig : SigThread) : Option WaitState := do
  let (_, p) ← s.running caller
  some { s with
    threads := ⟨s.nextPid, detached, ⟨some p, false, { sig with terminated := false }⟩⟩ :: s.threads
    nextPid := s.nextPid + 1 }

/-- What `elfExec` does about threads and notifications. -/
def exec (currentTime : ℕ) (caller : ℕ+) : Option WaitState := do
  let (me, p) ← s.running caller
  some (s.killOtherThreads currentTime me p)

/-- `processExit`, up to `threadExit`; it panics in the process 1. -/
def processExit (currentTime : ℕ) (caller : ℕ+) (status : ℕ) : Option WaitState := do
  let (me, p) ← s.running caller
  if p = 1 then none
  else some { s.killOtherThreads currentTime me p with
    status := Function.update s.status p status
    exiting := Function.update s.exiting p true }

/-- `threadExitEx` -/
def threadExitEx (caller : ℕ+) (retval : ℕ) : Option WaitState := do
  let (me, p) ← s.running caller
  some { s with
    threads := s.threads.map fun t =>
      if t.thid = caller then t.withSig { t.kill.sig with terminated := true } else t
    notifs := if me.detached then s.notifs else ⟨.SHN_THREAD_DEAD, p, caller, retval⟩ :: s.notifs }

/-- `wakeProcess`; waking up a thread does not panic. -/
def wakeProcess (currentTime : ℕ) (pid : ℕ+) : WaitState :=
  { s with threads := s.threads.map fun t =>
      if t.of pid then t.withSig ((t.kill.sig.signalThread currentTime).getD t.kill.sig) else t }

/-- The process that is told about the death of another one. -/
def parentPid (p : ℕ+) : ℕ+ := if s.listed (s.creds p).ppid then (s.creds p).ppid else 1

/-- `credsDownref` when it drops the last reference, up to the signal. -/
def buryProcess (p : ℕ+) : WaitState :=
  { s with
    creds := fun q =>
      if (s.creds q).ppid = p ∧ s.listed q then { s.creds q with ppid := 1 } else s.creds q
    notifs := ⟨.SHN_PROCESS_DEAD, s.parentPid p, p, s.status p⟩ :: s.purge p
    deaths :=
      if s.alive (s.creds p).ppid then ⟨p, (s.creds p).ppid, s.status p⟩ :: s.deaths else s.deaths }

/-- `signalPidEx` with `SIGCHLD` and the flag `SP_NOPERM`. -/
def sendChild (currentTime : ℕ) (p parentPid : ℕ+) : Option WaitState := do
  let info := childInfo p (s.creds p).ruid (s.status p)
  let kill : KillState := ⟨sysMan, s.threads.map (·.kill), s.creds, s.notifs⟩
  let a ← kill.signalPidEx currentTime parentPid (some info) true
  some { s with
    threads := List.zipWith (fun t kill => { t with kill }) s.threads a.threads.tail
    sigchlds :=
      if received info parentPid kill.threads a.threads = 0 then s.sigchlds else p :: s.sigchlds }

/-- `credsDownref` for a process that has lost a thread. -/
def credsDownref (currentTime : ℕ) (p : ℕ+) : Option WaitState :=
  if s.listed p then some s
  else do
    let s' ← (s.buryProcess p).sendChild currentTime p (s.parentPid p)
    some (s'.wakeProcess currentTime (s.parentPid p))

/-- `sysManFunc` cleans up a thread. -/
def sysManFunc (currentTime : ℕ) (thid : ℕ+) : Option WaitState := do
  let t ← s.threads.find? fun t => t.thid = thid && t.terminated
  let s := { s with threads := s.threads.eraseP fun t => t.thid = thid && t.terminated }
  match t.kill.process with
  | none => some s
  | some p => s.credsDownref currentTime p

/-- The notification is one that `processWait` looks for. -/
def isDeathFor (p : ℕ+) (pid : ℤ) (notif : SchedNotif) : Bool :=
  notif.dest = p ∧ ((notif.source : ℤ) = pid ∨ pid = -1) ∧ notif.type = .SHN_PROCESS_DEAD

/-- A turn of `processWait`. -/
def processWait (caller : ℕ+) (pid : ℤ) : Option (WaitResult × WaitState) := do
  let (_, p) ← s.running caller
  if (p : ℤ) = pid then some (.itself, s)
  else match s.notifs.find? (isDeathFor p pid) with
    | some notif => some (.reaped notif.source notif.info,
        { s with
          notifs := s.notifs.eraseP (isDeathFor p pid)
          reports := (p, notif) :: s.reports })
    | none => some (.nothing, s)

/-- `joinThread` or `detachThread` takes the notification of a thread. -/
def takeThread (caller : ℕ+) (thid : ℕ) : Option WaitState := do
  let (_, p) ← s.running caller
  some { s with notifs := s.notifs.eraseP (Join.isNotifOf p thid) }

end WaitState

inductive WaitOp where
  | fork (caller : ℕ+) (detached : Bool) (sig : SigThread)
  | clone (caller : ℕ+) (detached : Bool) (sig : SigThread)
  | exec (currentTime : ℕ) (caller : ℕ+)
  | exit (currentTime : ℕ) (caller : ℕ+) (status : ℕ)
  | threadExit (caller : ℕ+) (retval : ℕ)
  | cleanup (currentTime : ℕ) (thid : ℕ+)
  | wait (caller : ℕ+) (pid : ℤ)
  | takeThread (caller : ℕ+) (thid : ℕ)
  /-- The signals of a thread change in any other way. -/
  | signals (thid : ℕ+) (sig : SigThread)

def WaitState.step (s : WaitState) : WaitOp → Option WaitState
  | .fork caller detached sig => s.fork caller detached sig
  | .clone caller detached sig => s.clone caller detached sig
  | .exec currentTime caller => s.exec currentTime caller
  | .exit currentTime caller status => s.processExit currentTime caller status
  | .threadExit caller retval => s.threadExitEx caller retval
  | .cleanup currentTime thid => s.sysManFunc currentTime thid
  | .wait caller pid => (s.processWait caller pid).map Prod.snd
  | .takeThread caller thid => s.takeThread caller thid
  | .signals thid sig =>
    some { s with threads := s.threads.map fun t =>
      if t.thid = thid then t.withSig { sig with terminated := t.terminated } else t }

/-- The process 1 with its first thread. -/
structure WaitState.Starts (s : WaitState) : Prop where
  threads : ∃ t, s.threads = [t] ∧ t.kill.process = some 1
  nextPid : 1 < s.nextPid
  notifs : s.notifs = []
  deaths : s.deaths = []
  reports : s.reports = []
  sigchlds : s.sigchlds = []

def waitSystem : System WaitState WaitOp where
  init := WaitState.Starts
  step s op s' := s.step op = some s'

end Glidix.Thread.Wait
