import Mathlib.Data.PNat.Basic
import Glidix.Thread.Join
import Glidix.Thread.Signal

/-!
# Sending a signal to processes

`signalPid` goes over the threads, from the running one on, and sends the signal to those of the processes
that its argument selects, until one thread of a process has taken it.  It keeps a table of the processes
that have the signal.
-/

namespace Glidix.Thread

def SIGHUP : ℤ := 1
def SIGINT : ℤ := 2
def SIGQUIT : ℤ := 3
def SIGTERM : ℤ := 15
def SIGUSR1 : ℤ := 16
def SIGUSR2 : ℤ := 17
def SIGCHLD : ℤ := 18
def SIGTSTP : ℤ := 24
def SIGTRACE : ℤ := 37

namespace Kill

scoped instance neZero_one : NeZero (1 : ℕ) := ⟨Nat.one_ne_zero⟩

scoped instance neZero_two : NeZero (2 : ℕ) := ⟨two_ne_zero⟩

structure Creds where
  ppid : ℕ+
  pgid : ℕ+
  euid : ℕ
  ruid : ℕ
  deriving DecidableEq

/-- A thread on the thread list, with the process it belongs to unless it is a kernel thread; `rebel` is
the flag `THREAD_REBEL`. -/
structure KillThread where
  process : Option ℕ+
  rebel : Bool
  sig : SigThread

inductive KillErrno where
  | ESRCH
  | EPERM
  | ENOMEM
  deriving DecidableEq

/-- The signals that may be sent at all; 0 is not a signal. -/
def sendable (signo : ℤ) : Bool :=
  signo ∈ [SIGCONT, SIGHUP, SIGINT, SIGKILL, SIGQUIT, SIGSTOP, SIGTERM, SIGTSTP, SIGUSR1, SIGUSR2, 0]

section

variable (creds : ℕ+ → Creds)

/-- `canSendSignal`; `noperm` is the flag `SP_NOPERM`. -/
def canSendSignal (src dst : KillThread) (signo : ℤ) (noperm : Bool) : Bool :=
  if signo = SIGTRACE ∧ noperm then true
  else if ¬sendable signo then false
  else match dst.process, src.process with
    | none, _ => false
    | some _, none => true
    | some d, some s =>
      if noperm then true
      else if d = 1 ∧ (signo = SIGKILL ∨ signo = SIGSTOP) then false
      else if (creds s).euid = 0 ∨ (creds s).ruid = 0 then true
      else if (creds s).ruid = (creds d).euid ∨ (creds s).ruid = (creds d).ruid then true
      else (creds d).ppid = s ∧ (dst.rebel = false ∨ signo = SIGINT)

/-- The process group of a thread, 0 for a kernel thread. -/
def mypgid (me : KillThread) : ℤ :=
  match me.process with
  | none => 0
  | some p => ((creds p).pgid : ℤ)

/-- The argument `pid` of `signalPidUnlocked` selects the process. -/
def selects (mypgid pid : ℤ) (p : ℕ+) : Bool :=
  (p : ℤ) = pid ∨ ((creds p).pgid : ℤ) = -pid ∨ pid = -1 ∨ pid = 0 ∧ ((creds p).pgid : ℤ) = mypgid

/-- The variables of `signalPidUnlocked`. -/
structure KillLoop where
  pidsDelivered : List ℕ+
  result : ℤ
  errno : KillErrno
  deriving DecidableEq

/-- The loop of `signalPidUnlocked` over the threads from some thread on.  There is no result in case of a
panic; a null `si` is dereferenced before it is compared with null. -/
def signalLoop (currentTime : ℕ) (me : KillThread) (pid : ℤ) (si : Option Siginfo) (noperm : Bool) :
    List KillThread → KillLoop → Option (List KillThread × KillLoop)
  | [], loop => some ([], loop)
  | thread :: threads, loop =>
    match thread.process.filter fun p => selects creds (mypgid creds me) pid p && p ∉ loop.pidsDelivered with
    | none => do
      let (threads, loop) ← signalLoop currentTime me pid si noperm threads loop
      some (thread :: threads, loop)
    | some p => do
      let info ← si
      if canSendSignal creds me thread info.si_signo noperm = false then
        let (threads, loop) ←
          signalLoop currentTime me pid si noperm threads { loop with errno := .EPERM }
        some (thread :: threads, loop)
      else
        let (r, sig) ← thread.sig.sendSignalEx currentTime info true
        let thread := { thread with sig }
        if r = 0 ∧ loop.pidsDelivered.length = 100 then
          some (thread :: threads, { loop with errno := .ENOMEM })
        else
          let pidsDelivered :=
            if r = 0 then loop.pidsDelivered ++ [p] else loop.pidsDelivered
          let (threads, loop) ←
            signalLoop currentTime me pid si noperm threads { loop with pidsDelivered, result := 0 }
          some (thread :: threads, loop)

theorem signalLoop_nil {currentTime : ℕ} {me : KillThread} {pid : ℤ} {si : Option Siginfo} {noperm : Bool}
    {loop : KillLoop} : signalLoop creds currentTime me pid si noperm [] loop = some ([], loop) := by
  rw [signalLoop]

end

/-- The threads from the running one on, the processes and the notifications. -/
structure KillState where
  current : KillThread
  others : List KillThread
  creds : ℕ+ → Creds
  notifs : List SchedNotif

namespace KillState

variable (s : KillState)

def threads : List KillThread := s.current :: s.others

/-- What a call returns, `errno` and the threads after it. -/
structure Answer where
  result : ℤ
  errno : KillErrno
  threads : List KillThread

/-- `signalPidUnlocked` -/
def signalPidUnlocked (currentTime : ℕ) (pid : ℤ) (si : Option Siginfo) (noperm : Bool) :
    Option Answer := do
  let (threads, loop) ←
    signalLoop s.creds currentTime s.current pid si noperm s.threads ⟨[], -1, .ESRCH⟩
  some ⟨loop.result, loop.errno, threads⟩

/-- The process is a zombie. -/
def isZombie (pid : ℤ) : Bool :=
  s.notifs.any fun notif => notif.type = .SHN_PROCESS_DEAD ∧ (notif.source : ℤ) = pid

def signalPidEx (currentTime : ℕ) (pid : ℤ) (si : Option Siginfo) (noperm : Bool) : Option Answer := do
  let a ← s.signalPidUnlocked currentTime pid si noperm
  if a.result ≠ 0 ∧ s.isZombie pid then some { a with result := 0 } else some a

/-- What `signalPid` sends. -/
def killInfo (sig : ℤ) : Siginfo :=
  match s.current.process with
  | none => { si_signo := sig }
  | some p => { si_signo := sig, si_pid := p, si_uid := (s.creds p).ruid }

def signalPid (currentTime : ℕ) (pid sig : ℤ) : Option Answer :=
  if sig = 0 then s.signalPidEx currentTime pid none false
  else s.signalPidEx currentTime pid (some (s.killInfo sig)) false

end KillState

end Kill

end Glidix.Thread
