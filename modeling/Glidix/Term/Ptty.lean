import Glidix.Lib.Ring
import Glidix.Lib.Runs
import Glidix.Thread.SemaphoreUnits

/-!
# Pseudo-terminals

One pseudo-terminal with the reads and the write in progress.  What waits to be read on either side is
in a ring under the lock of the terminal, and a semaphore outside the lock counts it.  A step is a
section under the lock, or an access to a semaphore.  A write puts its bytes first and then signals
the semaphores, one by one, before it releases the lock.
-/

namespace Glidix.Term

open Glidix.Thread

def TERM_BUFFER_SIZE : ℕ := 4096

def ICRNL : UInt16 := 2

def ECHO : UInt16 := 1
def ECHOE : UInt16 := 2
def ECHOK : UInt16 := 4
def ECHONL : UInt16 := 8
def ICANON : UInt16 := 16
def ISIG : UInt16 := 64

def CC_VINTR : UInt8 := 0x83
def CC_VKILL : UInt8 := 0x84

def NCCS : ℕ := 11

/-- The character `'\b'`. -/
def BACKSPACE : UInt8 := 8

def SIGINT : ℤ := 2
def SIGKILL : ℤ := 9

def EBUSY : Int32 := 10
def ENOTTY : Int32 := 64
def EPERM : Int32 := 68

structure Termios where
  c_iflag : UInt16
  c_oflag : UInt16
  c_cflag : UInt16
  c_lflag : UInt16
  c_cc : List UInt8
  deriving DecidableEq

inductive Side where
  | master
  | slave
  deriving DecidableEq

instance {p : Side → Prop} [DecidablePred p] : Decidable (∀ side, p side) :=
  decidable_of_iff (p .master ∧ p .slave)
    ⟨fun h side => by cases side; exacts [h.1, h.2], fun h => ⟨h .master, h .slave⟩⟩

/-- What a step shows to its caller. -/
inductive TermResult where
  /-- The call goes on. -/
  | pending
  | ok
  | attr (tc : Termios)
  | pgid (pgid : ℤ)
  | bytes (l : List UInt8)
  | wrote (n : ℕ)
  /-- The call fails with this `ERRNO`. -/
  | fails (errno : Int32)
  deriving DecidableEq

/-! ## One side -/

/-- A read in progress, at the step that comes next. -/
inductive TermRead where
  /-- In `semWaitGen`. -/
  | wait (nonblock : Bool) (size : ℕ)
  /-- About to acquire the lock, with the number of bytes it takes. -/
  | copy (count : ℕ)
  deriving DecidableEq

/-- What waits to be read on one side; `got` are the bytes that reads have returned. -/
structure TermBuffer where
  buffer : ℕ → UInt8
  put : ℕ
  fetch : ℕ
  counter : SemUnits
  reads : List TermRead
  got : List UInt8

namespace TermBuffer

variable (b : TermBuffer)

def putChar (c : UInt8) : TermBuffer :=
  { b with
    buffer := Function.update b.buffer b.put c
    put := (b.put + 1) % TERM_BUFFER_SIZE }

/-- `semWaitGen` returns to `pts_read` or `ptm_read`; there is no timeout. -/
def readWait (i : ℕ) (giveUp : Option GiveUp) : Option (TermResult × TermBuffer) :=
  match b.reads[i]? with
  | some (.wait nonblock size) =>
    if giveUp = some .timedOut ∨ giveUp = some .again ∧ nonblock = false then none
    else (b.counter.waitGen (.ofNat size) giveUp).map fun r =>
      let b' := { b with counter := r.2 }
      if r.1 < 0 then (.fails (-r.1), { b' with reads := b.reads.eraseIdx i })
      else if r.1 = 0 then (.bytes [], { b' with reads := b.reads.eraseIdx i })
      else (.pending, { b' with reads := b.reads.set i (.copy r.1.toInt.toNat) })
  | _ => none

/-- The section of `pts_read` or `ptm_read` under the lock. -/
def readCopy (i : ℕ) : Option (TermResult × TermBuffer) :=
  match b.reads[i]? with
  | some (.copy count) =>
    let chars := Ring.get TERM_BUFFER_SIZE b.buffer b.fetch count
    some (.bytes chars.1, { b with
      fetch := chars.2
      reads := b.reads.eraseIdx i
      got := b.got ++ chars.1 })
  | _ => none

end TermBuffer

/-! ## The terminal -/

/-- What has been done to a terminal. -/
inductive TermEvent where
  /-- A byte was written to the master. -/
  | typed (c : UInt8)
  /-- Bytes were written to the slave. -/
  | printed (l : List UInt8)
  /-- The local modes were set. -/
  | modes (lflag : UInt16)
  deriving DecidableEq

/-- A write that holds the lock: the signals that it has still to give, and what it returns. -/
structure TermWrite where
  signals : List (Side × ℕ)
  out : ℕ
  deriving DecidableEq

/-- A pseudo-terminal; `sent` are the signals sent to processes and `events` what has been done, in the
order of the sections under the lock. -/
structure Ptty where
  writing : Option TermWrite
  state : Termios
  buf : Side → TermBuffer
  lineBuffer : ℕ → UInt8
  lineSize : ℕ
  sid : ℤ
  pgid : ℤ
  sent : List (ℤ × ℤ)
  events : List TermEvent

/-- `ptmx_open`, in memory that is not initialised. -/
def ptmx_open (buffer : Side → ℕ → UInt8) (lineBuffer : ℕ → UInt8) : Ptty where
  writing := none
  state :=
    { c_iflag := ICRNL
      c_oflag := 0
      c_cflag := 0
      c_lflag := ECHO ||| ECHOE ||| ECHOK ||| ECHONL ||| ICANON ||| ISIG
      c_cc := (List.range NCCS).map fun i => .ofNat (i + 0x80) }
  buf side :=
    { buffer := buffer side
      put := 0
      fetch := 0
      counter := ⟨0, false⟩
      reads := []
      got := [] }
  lineBuffer
  lineSize := 0
  sid := 0
  pgid := 0
  sent := []
  events := []

/-- `ptm_write` in its loop, with the numbers of bytes it has put on each side. -/
structure PtmLoop where
  ptty : Ptty
  numPut : Side → ℕ

namespace PtmLoop

variable (w : PtmLoop)

def has (flag : UInt16) : Bool := w.ptty.state.c_lflag &&& flag != 0

def put (side : Side) (c : UInt8) : PtmLoop where
  ptty := { w.ptty with buf := Function.update w.ptty.buf side ((w.ptty.buf side).putChar c) }
  numPut := Function.update w.numPut side (w.numPut side + 1)

def setLineSize (lineSize : ℕ) : PtmLoop := { w with ptty := { w.ptty with lineSize } }

/-- A character is added to the line. -/
def lineChar (c : UInt8) : PtmLoop :=
  { w with ptty := { w.ptty with
    lineBuffer := Function.update w.ptty.lineBuffer w.ptty.lineSize c
    lineSize := w.ptty.lineSize + 1 } }

/-- The line is put into the slave buffer. -/
def flushLine : PtmLoop :=
  (((List.range w.ptty.lineSize).map w.ptty.lineBuffer).foldl (put · .slave) w).setLineSize 0

/-- A signal for the foreground process group; the line is discarded. -/
def interrupt (signo : ℤ) : PtmLoop :=
  { w with ptty := { w.ptty with lineSize := 0, sent := w.ptty.sent ++ [(-w.ptty.pgid, signo)] } }

def echo (flag : UInt16) (c : UInt8) : PtmLoop := if w.has flag then w.put .master c else w

/-- The signal of a character, and the letter it is echoed with. -/
def sigChar (c : UInt8) : Option (ℤ × UInt8) :=
  if c = CC_VINTR then some (SIGINT, 'C'.toUInt8)
  else if c = CC_VKILL then some (SIGKILL, 'K'.toUInt8)
  else none

/-- The loop body for one character of the buffer. -/
def char (c : UInt8) : PtmLoop :=
  match if w.has ISIG then sigChar c else none with
  | some (signo, letter) => ((w.interrupt signo).echo ECHO '^'.toUInt8).echo ECHO letter
  | none =>
    if w.has ICANON then
      if c = BACKSPACE then
        if w.ptty.lineSize ≠ 0 then (w.setLineSize (w.ptty.lineSize - 1)).echo ECHO BACKSPACE else w
      else if c = '\n'.toUInt8 ∨ c = '\r'.toUInt8 then
        ((w.lineChar '\n'.toUInt8).flushLine).echo ECHONL '\n'.toUInt8
      else (if w.ptty.lineSize < TERM_BUFFER_SIZE - 1 then w.lineChar c else w).echo ECHO c
    else (w.put .slave c).echo (if c = '\n'.toUInt8 then ECHONL else ECHO) c

end PtmLoop

namespace Ptty

variable (p : Ptty)

/-- `pts_open` by a process with this session and group; `noctty` is the flag `O_NOCTTY`. -/
def ptsOpen (noctty : Bool) (sid pgid : ℤ) : Option (TermResult × Ptty) :=
  if noctty then some (.ok, p)
  else if p.writing.isSome then none
  else if p.sid ≠ 0 ∧ p.sid ≠ sid then some (.fails EBUSY, p)
  else some (.ok, { p with sid, pgid })

def getAttr : Option (TermResult × Ptty) :=
  if p.writing.isSome then none else some (.attr p.state, p)

/-- `IOCTL_TTY_SETATTR`; the control characters stay as they are. -/
def setAttr (tc : Termios) : Option (TermResult × Ptty) :=
  if p.writing.isSome then none
  else some (.ok, { p with
    state := { tc with c_cc := p.state.c_cc }
    events := p.events ++ [.modes tc.c_lflag] })

def getPgid : Option (TermResult × Ptty) :=
  if p.writing.isSome then none else some (.pgid p.pgid, p)

/-- `IOCTL_TTY_SETPGID` by a thread of session `sid`; `target` is the session of the first thread that is
found in the group. -/
def setPgid (sid pgid : ℤ) (target : Option ℤ) : Option (TermResult × Ptty) :=
  if p.writing.isSome then none
  else if sid ≠ p.sid then some (.fails ENOTTY, p)
  else if target = some p.sid then some (.ok, { p with pgid })
  else some (.fails EPERM, p)

def ptsWrite (buffer : List UInt8) : Option (TermResult × Ptty) :=
  if p.writing.isSome then none
  else some (.pending, { p with
    buf := Function.update p.buf .master (buffer.foldl TermBuffer.putChar (p.buf .master))
    writing := some ⟨[(.master, buffer.length)], buffer.length⟩
    events := p.events ++ [.printed buffer] })

def ptmWrite (buffer : List UInt8) : Option (TermResult × Ptty) :=
  if p.writing.isSome then none
  else if p.sid = 0 then some (.fails EAGAIN, p)
  else
    let w := buffer.foldl PtmLoop.char ⟨p, fun _ => 0⟩
    some (.pending, { w.ptty with
      writing := some ⟨[(.master, w.numPut .master), (.slave, w.numPut .slave)], buffer.length⟩
      events := p.events ++ buffer.map .typed })

/-- The write that holds the lock gives the next signal, or releases the lock.  There is no result in case
of a panic. -/
def goOn : Option (TermResult × Ptty) :=
  match p.writing with
  | none => none
  | some ⟨[], out⟩ => some (.wrote out, { p with writing := none })
  | some ⟨(side, n) :: signals, out⟩ =>
    ((p.buf side).counter.signal (.ofNat n)).map fun counter => (.pending, { p with
      buf := Function.update p.buf side { p.buf side with counter }
      writing := some ⟨signals, out⟩ })

/-- `ptm_read` or `pts_read`, up to `semWaitGen`. -/
def read (side : Side) (nonblock : Bool) (size : ℕ) : TermResult × Ptty :=
  (.pending, { p with buf := Function.update p.buf side { p.buf side with
    reads := .wait nonblock size :: (p.buf side).reads } })

def readWait (side : Side) (i : ℕ) (giveUp : Option GiveUp) : Option (TermResult × Ptty) :=
  ((p.buf side).readWait i giveUp).map fun r =>
    (r.1, { p with buf := Function.update p.buf side r.2 })

def readCopy (side : Side) (i : ℕ) : Option (TermResult × Ptty) :=
  if p.writing.isSome then none
  else ((p.buf side).readCopy i).map fun r =>
    (r.1, { p with buf := Function.update p.buf side r.2 })

end Ptty

/-- The steps; `i` is the position of a read in progress. -/
inductive PttyOp where
  | ptsOpen (noctty : Bool) (sid pgid : ℤ)
  | getAttr
  | setAttr (tc : Termios)
  | getPgid
  | setPgid (sid pgid : ℤ) (target : Option ℤ)
  | ptsWrite (buffer : List UInt8)
  | ptmWrite (buffer : List UInt8)
  | goOn
  | read (side : Side) (nonblock : Bool) (size : ℕ)
  | readWait (side : Side) (i : ℕ) (giveUp : Option GiveUp)
  | readCopy (side : Side) (i : ℕ)
  deriving DecidableEq

def Ptty.step (p : Ptty) : PttyOp → Option (TermResult × Ptty)
  | .ptsOpen noctty sid pgid => p.ptsOpen noctty sid pgid
  | .getAttr => p.getAttr
  | .setAttr tc => p.setAttr tc
  | .getPgid => p.getPgid
  | .setPgid sid pgid target => p.setPgid sid pgid target
  | .ptsWrite buffer => p.ptsWrite buffer
  | .ptmWrite buffer => p.ptmWrite buffer
  | .goOn => p.goOn
  | .read side nonblock size => some (p.read side nonblock size)
  | .readWait side i giveUp => p.readWait side i giveUp
  | .readCopy side i => p.readCopy side i

/-- The runs of a new pseudo-terminal. -/
def ptty : System Ptty PttyOp where
  init p := ∃ buffer lineBuffer, p = ptmx_open buffer lineBuffer
  step p op q := ∃ r, p.step op = some (r, q)

theorem ptty_step {p q : Ptty} {op : PttyOp} (h : (p.step op).map Prod.snd = some q) : ptty.step p op q := by
  obtain ⟨⟨r, u⟩, hr, rfl⟩ := Option.map_eq_some_iff.1 h
  exact ⟨r, hr⟩

end Glidix.Term
