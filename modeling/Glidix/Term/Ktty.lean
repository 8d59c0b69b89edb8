import Glidix.Term.Ptty

/-!
# The kernel terminal

The input of `/dev/tty0`: the keyboard puts characters into a ring with `termPutChar`, and `termRead`
takes them out.  The line that is being typed is the end of the ring, and a semaphore counts the
characters before it.  `termPutChar` is one step under its lock, but for the interrupt character: then
it goes on to take away, in several steps, what the semaphore counts.  Each turn of the loop of
`termRead` under its lock is a step.
-/

namespace Glidix.Term

open Glidix.Thread

def INPUT_BUFFER_SIZE : ℕ := 4096

def SIGTTIN : ℤ := 26

/-- A signal that is sent to a process group, or to the current thread. -/
inductive TermSignal where
  | group (pgid signo : ℤ)
  | self (signo : ℤ)
  deriving DecidableEq

/-- A `termRead` in progress, at the step that comes next. -/
inductive KttyRead where
  /-- In `semWaitGen`. -/
  | wait (size : ℕ)
  /-- About to acquire `semInput`. -/
  | copy (size : ℕ)
  /-- In the loop, with what is left to copy and what was copied. -/
  | loop (size : ℕ) (out : List UInt8)
  deriving DecidableEq

def KttyRead.looping : KttyRead → Bool
  | .loop _ _ => true
  | .wait _ | .copy _ => false

/-- What has been done to the terminal: a character is typed, the local modes are set, or bytes are
copied to a reader. -/
inductive KttyEvent where
  | typed (c : UInt8)
  | modes (lflag : UInt16)
  | took (n : ℕ)
  deriving DecidableEq

/-- The terminal.  `draining` says that `termPutChar` is at the loop for the interrupt character;
`touched` are the positions of `inputBuffer` that were accessed, `got` the bytes copied to readers. -/
structure Ktty where
  inputBuffer : ℕ → UInt8
  inputRead : ℕ
  inputWrite : ℕ
  semCount : SemUnits
  lineBufferSize : Int32
  termState : Termios
  termGroup : ℤ
  draining : Bool
  reads : List KttyRead
  sent : List TermSignal
  touched : List ℕ
  got : List UInt8
  events : List KttyEvent

def initTerminal : Ktty where
  inputBuffer _ := 0
  inputRead := 0
  inputWrite := 0
  semCount := ⟨0, false⟩
  lineBufferSize := 0
  termState :=
    { c_iflag := ICRNL
      c_oflag := 0
      c_cflag := 0
      c_lflag := ECHO ||| ECHOE ||| ECHOK ||| ECHONL ||| ICANON ||| ISIG
      c_cc := List.replicate NCCS 0 }
  termGroup := 1
  draining := false
  reads := []
  sent := []
  touched := []
  got := []
  events := []

namespace Ktty

variable (s : Ktty)

def canonical : Bool := s.termState.c_lflag &&& ICANON != 0

/-- A backspace takes the last character off the line. -/
def erase : Ktty :=
  if s.lineBufferSize ≠ 0 then
    { s with
      inputWrite := if s.inputWrite = 0 then INPUT_BUFFER_SIZE else s.inputWrite - 1
      lineBufferSize := s.lineBufferSize - 1 }
  else s

/-- A character is added to the line. -/
def store (c : UInt8) : Ktty :=
  { s with
    inputBuffer := Function.update s.inputBuffer s.inputWrite c
    touched := s.touched ++ [s.inputWrite]
    inputWrite := if s.inputWrite + 1 = INPUT_BUFFER_SIZE then 0 else s.inputWrite + 1
    lineBufferSize := s.lineBufferSize + 1 }

/-- The line is given to the readers.  There is no result in case of a panic. -/
def submit : Option Ktty :=
  (s.semCount.signal s.lineBufferSize).map fun semCount => { s with semCount, lineBufferSize := 0 }

def signalGroup : Ktty :=
  if s.termGroup ≠ 0 then { s with sent := s.sent ++ [.group (-s.termGroup) SIGINT] } else s

/-- What the interrupt character does. -/
def interrupt : Ktty :=
  if s.canonical then { s with inputWrite := s.inputRead, draining := true } else s.signalGroup

def log (event : KttyEvent) : Ktty := { s with events := s.events ++ [event] }

/-- `termPutChar`, up to the loop for the interrupt character; a `char` is signed. -/
def termPutChar (c : UInt8) : Option (TermResult × Ktty) :=
  if s.draining then none
  else if c = BACKSPACE ∧ s.canonical = true then some (.ok, s.erase.log (.typed c))
  else
    let t := if c.toInt8.toInt < 0x80 then s.store c else s
    (if s.canonical = false ∨ c = '\n'.toUInt8 then t.submit else some t).map fun t =>
      (.ok, (if c = CC_VINTR then t.interrupt else t).log (.typed c))

/-- One turn of the loop for the interrupt character, or the rest of `termPutChar`. -/
def drain : Option (TermResult × Ktty) :=
  if s.draining then
    (s.semCount.waitGen 1024 (if s.semCount.count = 0 then some .again else none)).map fun r =>
      let t := { s with semCount := r.2 }
      if 0 < r.1 then (.pending, t)
      else (.ok, { t with lineBufferSize := 0, draining := false }.signalGroup)
  else none

/-- `termRead` by a thread of the group `pgid`, up to `semWaitGen`. -/
def termRead (pgid : ℤ) (size : ℕ) : TermResult × Ktty :=
  if pgid ≠ s.termGroup then (.fails ENOTTY, { s with sent := s.sent ++ [.self SIGTTIN] })
  else (.pending, { s with reads := .wait size :: s.reads })

/-- `semWaitGen` returns to `termRead`; it may give up because of a signal only. -/
def readWait (i : ℕ) (giveUp : Option GiveUp) : Option (TermResult × Ktty) :=
  match s.reads[i]? with
  | some (.wait size) =>
    if giveUp = some .again ∨ giveUp = some .timedOut then none
    else (s.semCount.waitGen (.ofNat size) giveUp).map fun r =>
      let t := { s with semCount := r.2 }
      if r.1 < 0 then (.fails (-r.1), { t with reads := s.reads.eraseIdx i })
      else (.pending, { t with reads := s.reads.set i (.copy (min size r.1.toInt.toNat)) })
  | _ => none

/-- `termRead` acquires `semInput`. -/
def readLock (i : ℕ) : Option (TermResult × Ktty) :=
  match s.reads[i]? with
  | some (.copy size) =>
    if s.reads.any KttyRead.looping then none
    else some (.pending, { s with reads := s.reads.set i (.loop size []) })
  | _ => none

/-- One turn of the loop of `termRead`, or its end. -/
def readLoop (i : ℕ) : Option (TermResult × Ktty) :=
  match s.reads[i]? with
  | some (.loop size out) =>
    if size = 0 then some (.bytes out, { s with reads := s.reads.eraseIdx i })
    else
      let inputRead := if s.inputRead = INPUT_BUFFER_SIZE then 0 else s.inputRead
      let max := min (INPUT_BUFFER_SIZE - inputRead) size
      let chunk := (List.range' inputRead max).map s.inputBuffer
      some (.pending, { s with
        inputRead := inputRead + max
        touched := s.touched ++ List.range' inputRead max
        got := s.got ++ chunk
        events := s.events ++ [.took max]
        reads := s.reads.set i (.loop (size - max) (out ++ chunk)) })
  | _ => none

/-- `IOCTL_TTY_SETATTR`; the control characters stay as they are. -/
def setAttr (tc : Termios) : TermResult × Ktty :=
  (.ok, { s with
    termState := { tc with c_cc := s.termState.c_cc }
    events := s.events ++ [.modes tc.c_lflag] })

/-- `IOCTL_TTY_SETPGID` by a thread of session `sid`; `target` is the session of the first thread that is
found in the group. -/
def setPgid (sid pgid : ℤ) (target : Option ℤ) : TermResult × Ktty :=
  if sid ≠ 1 then (.fails ENOTTY, s)
  else if target = some 1 then (.ok, { s with termGroup := pgid })
  else (.fails EPERM, s)

end Ktty

/-- The steps; `i` is the position of a read in progress. -/
inductive KttyOp where
  | putChar (c : UInt8)
  | drain
  | read (pgid : ℤ) (size : ℕ)
  | readWait (i : ℕ) (giveUp : Option GiveUp)
  | readLock (i : ℕ)
  | readLoop (i : ℕ)
  | setAttr (tc : Termios)
  | setPgid (sid pgid : ℤ) (target : Option ℤ)
  deriving DecidableEq

def Ktty.step (s : Ktty) : KttyOp → Option (TermResult × Ktty)
  | .putChar c => s.termPutChar c
  | .drain => s.drain
  | .read pgid size => some (s.termRead pgid size)
  | .readWait i giveUp => s.readWait i giveUp
  | .readLock i => s.readLock i
  | .readLoop i => s.readLoop i
  | .setAttr tc => some (s.setAttr tc)
  | .setPgid sid pgid target => some (s.setPgid sid pgid target)

def ktty : System Ktty KttyOp where
  init s := s = initTerminal
  step s op t := ∃ r, s.step op = some (r, t)

theorem ktty_step {s t : Ktty} {op : KttyOp} (h : (s.step op).map Prod.snd = some t) :
    ktty.step s op t := by
  obtain ⟨⟨r, u⟩, hr, rfl⟩ := Option.map_eq_some_iff.1 h
  exact ⟨r, hr⟩

end Glidix.Term
