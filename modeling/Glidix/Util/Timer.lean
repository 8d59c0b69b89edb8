import Mathlib.Data.List.Basic
import Mathlib.Algebra.Order.Ring.Int
import Glidix.Lib.Linked
import Glidix.Lib.Runs

/-!
# Timed events

The list of timed events, which is linked through a memory and sorted by time.  `timedPost` puts an event
into it, `timedCancel` takes one out, and `onTick` takes out those whose time is over and signals their
threads.  A loop that follows the links needs fuel; `none` means that there was not enough.
-/

namespace Glidix.Timer

structure TimedEvent where
  prev : ℕ
  next : ℕ
  nanotime : ℕ
  thread : ℕ
  deriving DecidableEq

/-- The events by their addresses. -/
abbrev Events := ℕ → TimedEvent

namespace Events

variable (event : Events)

def setNext (ev next : ℕ) : Events := Function.update event ev { event ev with next }

def setPrev (ev prev : ℕ) : Events := Function.update event ev { event ev with prev }

/-- Fill in the time and the thread. -/
def record (current ev nanotime : ℕ) : Events :=
  Function.update event ev { event ev with nanotime, thread := current }

/-- The loop of `timedPost`. -/
def scanPost (ev nanotime : ℕ) : (fuel scan : ℕ) → Events → Option Events
  | 0, _, _ => none
  | fuel + 1, scan, event =>
    let next := (event scan).next
    if next = 0 then some (((event.setPrev ev scan).setNext ev 0).setNext scan ev)
    else if (event scan).nanotime ≤ nanotime ∧ (event next).nanotime ≥ nanotime then
      some ((((event.setNext ev next).setPrev ev scan).setPrev next ev).setNext scan ev)
    else scanPost ev nanotime fuel next event

end Events

/-- The events, the first one in the list, and what `signalThread` reads of a thread.  `posted` is the time
of an event that was posted and is neither cancelled nor expired; `removed` lists the threads of the events
that `onTick` has removed, and `signalled` the threads that it has signalled. -/
structure Timers where
  event : Events
  timedEvents : ℕ
  niceVal : ℕ → ℤ
  alarmTime : ℕ → ℕ
  alarmTimer : ℕ → ℕ
  posted : ℕ → Option ℕ
  removed : List ℕ
  signalled : List ℕ

namespace Timers

variable (t : Timers)

/-- `timedPost`, called by the thread `current`. -/
def timedPost (fuel current ev nanotime : ℕ) : Option Timers :=
  let event := t.event.record current ev nanotime
  let t := { t with posted := Function.update t.posted ev (if nanotime = 0 then none else some nanotime) }
  if nanotime = 0 then some { t with event := (event.setPrev ev 0).setNext ev 0 }
  else if t.timedEvents = 0 then
    some { t with event := (event.setPrev ev 0).setNext ev 0, timedEvents := ev }
  else if nanotime ≤ (event t.timedEvents).nanotime then
    some { t with
      event := ((event.setPrev t.timedEvents ev).setPrev ev 0).setNext ev t.timedEvents
      timedEvents := ev }
  else (event.scanPost ev nanotime fuel t.timedEvents).map fun event => { t with event }

/-- `timedCancel` -/
def timedCancel (ev : ℕ) : Timers :=
  let event := t.event
  let event :=
    if (event ev).prev ≠ 0 then event.setNext (event ev).prev (event ev).next else event
  let event :=
    if (event ev).next ≠ 0 then event.setPrev (event ev).next (event ev).prev else event
  { t with
    timedEvents := if t.timedEvents = ev then (t.event ev).next else t.timedEvents
    event
    posted := Function.update t.posted ev none }

/-- `signalThread` on a CPU that runs `current`: cancel the alarm of the thread if its time has come.  The
answer says whether to reschedule. -/
def signalThread (now current thread : ℕ) : Bool × Timers :=
  let t :=
    if t.alarmTime thread ≠ 0 ∧ t.alarmTime thread ≤ now then
      { t.timedCancel (t.alarmTimer thread) with alarmTime := Function.update t.alarmTime thread 0 }
    else t
  (t.niceVal thread < t.niceVal current, t)

/-- Take the first event out of the list. -/
def dropFirst : Timers :=
  let ev := t.timedEvents
  let timedEvents := (t.event ev).next
  let event := if timedEvents ≠ 0 then t.event.setPrev timedEvents 0 else t.event
  { t with
    timedEvents
    event := (event.setNext ev 0).setPrev ev 0
    posted := Function.update t.posted ev none
    removed := (t.event ev).thread :: t.removed }

/-- The body of the loop of `onTick`: the first event has expired. -/
def expire (now current : ℕ) (doResched : Bool) : Bool × Timers :=
  let thread := (t.event t.timedEvents).thread
  -- `doResched || signalThread(thread)`
  if doResched then (true, t.dropFirst)
  else
    let r := t.dropFirst.signalThread now current thread
    (r.1, { r.2 with signalled := thread :: r.2.signalled })

/-- The loop of `onTick`. -/
def onTickLoop (now current : ℕ) : (fuel : ℕ) → (doResched : Bool) → Timers → Option (Bool × Timers)
  | 0, _, _ => none
  | fuel + 1, doResched, t =>
    if t.timedEvents = 0 then some (doResched, t)
    else if now ≤ (t.event t.timedEvents).nanotime then some (doResched, t)
    else
      let r := t.expire now current doResched
      onTickLoop now current fuel r.1 r.2

def onTick (fuel now current : ℕ) : Option (Bool × Timers) := onTickLoop now current fuel false t

end Timers

inductive TimerOp where
  | post (current ev nanotime : ℕ)
  | cancel (ev : ℕ)
  | tick (now current : ℕ)
  /-- `signalThread` is called by somebody else. -/
  | signal (now current thread : ℕ)
  | setAlarm (thread alarmTime : ℕ)
  | setNice (thread : ℕ) (niceVal : ℤ)
  deriving DecidableEq

/-- A step of a call that returns with some fuel. -/
def Timers.Step (t : Timers) (op : TimerOp) (t' : Timers) : Prop :=
  match op with
  | .post current ev nanotime => ∃ fuel, t.timedPost fuel current ev nanotime = some t'
  | .cancel ev => t' = t.timedCancel ev
  | .tick now current => ∃ fuel doResched, t.onTick fuel now current = some (doResched, t')
  | .signal now current thread => t' = (t.signalThread now current thread).2
  | .setAlarm thread alarmTime => t' = { t with alarmTime := Function.update t.alarmTime thread alarmTime }
  | .setNice thread niceVal => t' = { t with niceVal := Function.update t.niceVal thread niceVal }

/-- No event is posted.  Each thread has an alarm timer of its own. -/
structure Timers.Empty (t : Timers) : Prop where
  timedEvents : t.timedEvents = 0
  posted : ∀ ev, t.posted ev = none
  removed : t.removed = []
  signalled : t.signalled = []
  alarmTimer : Function.Injective t.alarmTimer

def timerSystem : System Timers TimerOp where
  init := Timers.Empty
  step := Timers.Step

end Glidix.Timer
