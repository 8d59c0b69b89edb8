import Mathlib.Logic.Function.Basic
import Mathlib.Data.Nat.Notation
import Glidix.Lib.Runs

/-!
# Semaphores

The state of one semaphore and of the threads that use it.  A step is what a thread does between
acquiring the spinlock of the semaphore and releasing it: a call up to the point where it returns or
goes to sleep, or the part of it that follows a wakeup.  A `SemWaitThread` lies on the stack of its
thread, so the queue is a list of threads and the `give` flag is part of the state of the thread.
-/

namespace Glidix.Thread

def EAGAIN : Int32 := 6
def EINTR : Int32 := 27
def ETIMEDOUT : Int32 := 80

/-- A semaphore; `terminated` is the flag `SEM_TERMINATED`. -/
structure Semaphore where
  count : Int32
  terminated : Bool
  queue : List ℕ
  deriving DecidableEq

def semInit2 (count : Int32) : Semaphore := ⟨count, false, []⟩

/-- The arguments of `semWaitGen`: the units wanted, the flags `SEM_W_INTR` and `SEM_W_NONBLOCK`, and
whether a timeout was given. -/
structure WaitArgs where
  count : Int32
  intr : Bool
  nonblock : Bool
  timed : Bool
  deriving DecidableEq

/-- What a thread is doing with the semaphore. -/
inductive SemThread where
  /-- Not in a call; `result` is what the last one returned. -/
  | running (result : Int32)
  /-- Asleep in `semWaitGen`. -/
  | waiting (args : WaitArgs) (give : Bool)
  /-- Asleep in `semPoll`. -/
  | polling (timed : Bool) (give : Bool)
  deriving DecidableEq

/-- The thread has been taken off the queue by a hand-off and has not run since. -/
def SemThread.given : SemThread → Bool
  | .running _ => false
  | .waiting _ give => give
  | .polling _ give => give

/-- The thread is in the queue. -/
def SemThread.queued : SemThread → Bool
  | .running _ => false
  | .waiting _ give => !give
  | .polling _ give => !give

/-- Set the `give` flag. -/
def SemThread.giveTo : SemThread → SemThread
  | .running result => .running result
  | .waiting args _ => .waiting args true
  | .polling timed _ => .polling timed true

structure SemState where
  sem : Semaphore
  threads : ℕ → SemThread

namespace SemState

variable (s : SemState)

def setThread (tid : ℕ) (x : SemThread) : SemState :=
  { s with threads := Function.update s.threads tid x }

def setCount (count : Int32) : SemState := { s with sem := { s.sem with count } }

/-- Add a thread to the end of the queue. -/
def enqueue (tid : ℕ) : SemState := { s with sem := { s.sem with queue := s.sem.queue ++ [tid] } }

/-- Unlink a thread from the queue. -/
def dequeue (tid : ℕ) : SemState := { s with sem := { s.sem with queue := s.sem.queue.erase tid } }

/-- Take the first thread off the queue, with `give` set, and signal it. -/
def wakeFirst : SemState :=
  match s.sem.queue with
  | [] => s
  | tid :: rest =>
    { sem := { s.sem with queue := rest }
      threads := Function.update s.threads tid (s.threads tid).giveTo }

end SemState

/-- What the environment shows a thread: whether its deadline has passed and whether it has ready
signals. -/
structure WaitEnv where
  expired : Bool
  sigs : Bool
  deriving DecidableEq

/-- What a thread that wants `count` units gets from a semaphore with `avail`, and what is left. -/
def semUnits (avail count : Int32) : Int32 × Int32 :=
  if avail = -1 then (0, -1)
  else if count ≤ avail then (count, avail - count)
  else (avail, 0)

/-- The end of `semWaitGen`: take up to `count` units, then wake the next thread if units are left, or
mark a terminated semaphore as empty. -/
def semTake (s : SemState) (tid : ℕ) (count : Int32) : SemState :=
  let (result, left) := semUnits s.sem.count count
  let s := (s.setThread tid (.running result)).setCount left
  if left ≠ 0 then s.wakeFirst
  else if s.sem.terminated then s.setCount (-1)
  else s

/-- The loop `while (!waiter.give)` of a thread in the queue, up to the next sleep. -/
def semSleep (s : SemState) (tid : ℕ) (args : WaitArgs) (env : WaitEnv) : SemState :=
  if args.timed && env.expired then (s.dequeue tid).setThread tid (.running (-ETIMEDOUT))
  else if args.intr && env.sigs then (s.dequeue tid).setThread tid (.running (-EINTR))
  else s.setThread tid (.waiting args false)

/-- The loop `while (sem->count == 0)`. -/
def semAcquire (s : SemState) (tid : ℕ) (args : WaitArgs) (env : WaitEnv) : SemState :=
  if s.sem.count = 0 then
    if args.nonblock then s.setThread tid (.running (-EAGAIN))
    else semSleep (s.enqueue tid) tid args env
  else semTake s tid args.count

/-- A call of `semWaitGen`. -/
def semWaitGen (s : SemState) (tid : ℕ) (args : WaitArgs) (env : WaitEnv) : SemState :=
  if args.count = 0 then s.setThread tid (.running (-EAGAIN))
  else if args.count = -1 then
    if s.sem.count = 0 then s.setThread tid (.running (-EAGAIN))
    else semAcquire s tid { args with count := s.sem.count } env
  else semAcquire s tid args env

/-- `semSignal2`; `none` is the panic. -/
def semSignal2 (s : SemState) (count : Int32) : Option SemState :=
  if count < 0 then none
  else if count = 0 then some s
  else if s.sem.terminated then some s
  else some (s.setCount (s.sem.count + count)).wakeFirst

/-- `semTerminate`; `none` is the panic. -/
def semTerminate (s : SemState) : Option SemState :=
  if s.sem.terminated then none
  else
    let s := { s with sem := { s.sem with terminated := true } }
    if s.sem.count = 0 then some (s.setCount (-1)).wakeFirst else some s

/-- The end of `semPoll`: leave the queue, or pass a hand-off on to the next thread. -/
def semPollLeave (s : SemState) (tid : ℕ) (give : Bool) (result : Int32) : SemState :=
  (if give then s.wakeFirst else s.dequeue tid).setThread tid (.running result)

/-- One turn of the `while (1)` loop of `semPoll`; `numFreeSems` semaphores were given. -/
def semPollTurn (s : SemState) (tid : ℕ) (timed give : Bool) (numFreeSems : ℕ) (env : WaitEnv) :
    SemState :=
  if 0 < numFreeSems then semPollLeave s tid give (.ofNat numFreeSems)
  else if env.sigs then semPollLeave s tid give (-EINTR)
  else if timed && env.expired then semPollLeave s tid give 0
  else s.setThread tid (.polling timed give)

/-- A call of `semPoll` on an array that holds the semaphore; `others` is the number of other
semaphores of the array that are free. -/
def semPoll (s : SemState) (tid : ℕ) (nonblock timed : Bool) (others : ℕ) (env : WaitEnv) :
    SemState :=
  let numFreeSems := (if s.sem.count ≠ 0 then 1 else 0) + others
  if numFreeSems ≠ 0 ∨ nonblock then s.setThread tid (.running (.ofNat numFreeSems))
  else semPollTurn (s.enqueue tid) tid timed false 0 env

/-- A sleeping thread runs again; `others` is the number of other semaphores of the array that a
polling thread was given. -/
def semResume (s : SemState) (tid : ℕ) (others : ℕ) (env : WaitEnv) : Option SemState :=
  match s.threads tid with
  | .running _ => none
  | .waiting args true => some (semAcquire s tid args env)
  | .waiting args false => some (semSleep s tid args env)
  | .polling timed give => some (semPollTurn s tid timed give ((if give then 1 else 0) + others) env)

/-! ## Runs -/

/-- The steps of the threads. -/
inductive SemOp where
  | wait (tid : ℕ) (args : WaitArgs) (env : WaitEnv)
  | poll (tid : ℕ) (nonblock timed : Bool) (others : ℕ) (env : WaitEnv)
  | resume (tid : ℕ) (others : ℕ) (env : WaitEnv)
  | signal (count : Int32)
  | terminate

/-- The thread is not in a call. -/
def SemState.Running (s : SemState) (tid : ℕ) : Prop := ∃ result, s.threads tid = .running result

/-- The state after an operation: the steps of the semaphore. -/
def SemState.Step (s : SemState) (op : SemOp) (t : SemState) : Prop :=
  match op with
  | .wait tid args env => s.Running tid ∧ t = semWaitGen s tid args env
  | .poll tid nonblock timed others env => s.Running tid ∧ t = semPoll s tid nonblock timed others env
  | .resume tid others env => semResume s tid others env = some t
  | .signal count => semSignal2 s count = some t
  | .terminate => semTerminate s = some t

/-- Runs of a semaphore, from `semInit2` with any count. -/
def semSystem : System SemState SemOp where
  init s := ∃ count, s = ⟨semInit2 count, fun _ => .running 0⟩
  step := SemState.Step

end Glidix.Thread
