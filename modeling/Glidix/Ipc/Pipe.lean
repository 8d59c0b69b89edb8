import Glidix.Lib.Ring
import Glidix.Lib.Runs
import Glidix.Thread.SemaphoreUnits

/-!
# Pipes

One pipe, the descriptions that are open on it, and the calls in progress.  The bytes are in a ring
under a lock; two semaphores outside the lock count the bytes and the room, and the ends are counted
by two integers.  A step is a section under the lock, an access to a semaphore or to a counter.  A
description is closed when no call uses it any more.
-/

namespace Glidix.Ipc

open Glidix.Thread

def PIPE_BUFFER_SIZE : ℕ := 1024

def EINVAL : Int32 := 28
def ENXIO : Int32 := 65
def EPIPE : Int32 := 69

/-- What `pipe_open` returns: `PIPE_READ` or `PIPE_WRITE`. -/
inductive PipeEnd where
  | read
  | write
  deriving DecidableEq

/-- An open description. -/
structure PipeFile where
  filedata : PipeEnd
  nonblock : Bool
  deriving DecidableEq

/-- A call in progress, at the step that comes next. -/
inductive PipeCall where
  /-- `pipe_open` in `semPoll`. -/
  | poll (file : PipeFile)
  /-- `pipe_open` about to count the new end. -/
  | count (file : PipeFile)
  /-- `pipe_read` in `semWaitGen`. -/
  | read (fd : ℕ) (nonblock : Bool) (size : ℕ)
  /-- `pipe_read` with its units, about to acquire the lock. -/
  | readCopy (fd count : ℕ)
  /-- `pipe_write` in `semWaitGen`, with the bytes that are left and the number of those written. -/
  | write (fd : ℕ) (nonblock : Bool) (buffer : List UInt8) (out : ℕ)
  /-- `pipe_write` with its units, about to look at `cntRead`. -/
  | writeCheck (fd : ℕ) (nonblock : Bool) (buffer : List UInt8) (out count : ℕ)
  /-- `pipe_write` with its units, about to acquire the lock. -/
  | writeCopy (fd : ℕ) (nonblock : Bool) (buffer : List UInt8) (out count : ℕ)
  deriving DecidableEq

/-- The description that a call uses. -/
def PipeCall.fd : PipeCall → Option ℕ
  | .poll _ | .count _ => none
  | .read fd _ _ | .readCopy fd _ | .write fd _ _ _ | .writeCheck fd _ _ _ _
  | .writeCopy fd _ _ _ _ => some fd

/-- What a step shows to the caller. -/
inductive PipeResult where
  /-- The call goes on. -/
  | pending
  | opened (fd : ℕ)
  | closed
  /-- What `read` returns; no bytes at the end of the file. -/
  | bytes (l : List UInt8)
  | wrote (out : ℕ)
  /-- The call fails with this `ERRNO`. -/
  | fails (errno : Int32)
  | panic
  deriving DecidableEq

/-- A pipe with its descriptions and calls; `accepted` are the bytes that were put into the buffer and
`handed` those that were taken out of it. -/
structure Pipe where
  semReadOpen : SemUnits
  semWriteOpen : SemUnits
  semBufferRead : SemUnits
  semBufferFree : SemUnits
  semHangup : SemUnits
  buffer : ℕ → UInt8
  offRead : ℕ
  offWrite : ℕ
  cntRead : ℤ
  cntWrite : ℤ
  files : List (Option PipeFile)
  calls : List PipeCall
  accepted : List UInt8
  handed : List UInt8

/-- `pipeCreate`. -/
def pipeCreate : Pipe where
  semReadOpen := ⟨0, false⟩
  semWriteOpen := ⟨0, false⟩
  semBufferRead := ⟨0, false⟩
  semBufferFree := ⟨.ofNat PIPE_BUFFER_SIZE, false⟩
  semHangup := ⟨0, false⟩
  buffer _ := 0
  offRead := 0
  offWrite := 0
  cntRead := 0
  cntWrite := 0
  files := []
  calls := []
  accepted := []
  handed := []

namespace Pipe

variable (p : Pipe)

/-- A new description is open. -/
def addFile (file : PipeFile) : PipeResult × Pipe :=
  (.opened p.files.length, { p with files := p.files ++ [some file] })

/-- Add to the number of ends. -/
def addEnd (filedata : PipeEnd) (n : ℤ) : Pipe :=
  match filedata with
  | .read => { p with cntRead := p.cntRead + n }
  | .write => { p with cntWrite := p.cntWrite + n }

/-- `pipe_open`, up to `semPoll`; `rd` and `wr` are the bits `O_RDONLY` and `O_WRONLY`. -/
def pipeOpen (rd wr nonblock : Bool) : Option (PipeResult × Pipe) :=
  if rd && wr then some (.fails EINVAL, p)
  else if rd then
    (p.semReadOpen.signal 1).map fun sem =>
      let q := { p with semReadOpen := sem }
      if nonblock then q.addFile ⟨.read, nonblock⟩
      else (.pending, { q with calls := .poll ⟨.read, nonblock⟩ :: q.calls })
  else
    (p.semWriteOpen.signal 1).map fun sem =>
      let q := { p with semWriteOpen := sem }
      (.pending, { q with calls := .poll ⟨.write, nonblock⟩ :: q.calls })

/-- `semPoll` returns to `pipe_open`, because of a signal if `intr` is set. -/
def openPolled (i : ℕ) (intr : Bool) : Option (PipeResult × Pipe) :=
  match p.calls[i]? with
  | some (.poll file) =>
    let other : SemUnits := match file.filedata with
      | .read => p.semWriteOpen
      | .write => p.semReadOpen
    let rest := { p with calls := p.calls.eraseIdx i }
    if other.count ≠ 0 then some (.pending, { p with calls := p.calls.set i (.count file) })
    else if file.nonblock then some (.fails ENXIO, rest)
    else if intr then
      some (.fails (if file.filedata = .read then -EINTR else EINTR), rest)
    else none
  | _ => none

/-- The end is counted, and `pipe_open` returns. -/
def openCount (i : ℕ) : Option (PipeResult × Pipe) :=
  match p.calls[i]? with
  | some (.count file) =>
    some (({ p with calls := p.calls.eraseIdx i }.addEnd file.filedata 1).addFile file)
  | _ => none

/-- A description is gone, and its end is not counted any more. -/
def dropFile (fd : ℕ) (file : PipeFile) : Pipe :=
  { p with files := p.files.set fd none }.addEnd file.filedata (-1)

/-- `pipe_close`, when the last reference to a description is gone. -/
def pipeClose (fd : ℕ) : Option (PipeResult × Pipe) :=
  match p.files[fd]? with
  | some (some file) =>
    let q := p.dropFile fd file
    if p.calls.any fun c => c.fd = some fd then none
    else match file.filedata with
      | .read =>
        if q.cntRead = 0 then
          match q.semBufferFree.terminate with
          | none => some (.panic, q)
          | some sem => some (.closed, { q with semBufferFree := sem })
        else some (.closed, q)
      | .write =>
        if q.cntWrite = 0 then
          match q.semBufferRead.terminate with
          | none => some (.panic, q)
          | some sem =>
            (q.semHangup.signal 1).map fun semHangup =>
              (.closed, { q with semBufferRead := sem, semHangup })
        else some (.closed, q)
  | _ => none

/-- Why `semWaitGen` may give up, with the flags `SEM_W_FILE(oflags)` and no timeout. -/
def mayGiveUp (nonblock : Bool) : Option GiveUp → Bool
  | none => true
  | some .again => nonblock
  | some .intr => true
  | some .timedOut => false

def pipeRead (fd size : ℕ) : Option (PipeResult × Pipe) :=
  match p.files[fd]? with
  | some (some ⟨.read, nonblock⟩) =>
    some (.pending, { p with calls := .read fd nonblock size :: p.calls })
  | _ => none

/-- `semWaitGen` returns to `pipe_read`. -/
def readWait (i : ℕ) (giveUp : Option GiveUp) : Option (PipeResult × Pipe) :=
  match p.calls[i]? with
  | some (.read fd nonblock size) =>
    if mayGiveUp nonblock giveUp then
      (p.semBufferRead.waitGen (.ofNat size) giveUp).map fun r =>
        let q := { p with semBufferRead := r.2 }
        if r.1 < 0 then (.fails (-r.1), { q with calls := q.calls.eraseIdx i })
        else (.pending, { q with calls := q.calls.set i (.readCopy fd r.1.toInt.toNat) })
    else none
  | _ => none

/-- The section of `pipe_read` under the lock. -/
def readCopy (i : ℕ) : Option (PipeResult × Pipe) :=
  match p.calls[i]? with
  | some (.readCopy _ count) => do
    let sem ← p.semBufferFree.signal (.ofNat count)
    let got := Ring.get PIPE_BUFFER_SIZE p.buffer p.offRead count
    some (.bytes got.1, { p with
      semBufferFree := sem
      offRead := got.2
      handed := p.handed ++ got.1
      calls := p.calls.eraseIdx i })
  | _ => none

/-- `pipe_write` asks for room for the bytes that are left, or returns. -/
def writeNext (i fd : ℕ) (nonblock : Bool) (buffer : List UInt8) (out : ℕ) : PipeResult × Pipe :=
  if buffer = [] then (.wrote out, { p with calls := p.calls.eraseIdx i })
  else (.pending, { p with calls := p.calls.set i (.write fd nonblock buffer out) })

def pipeWrite (fd : ℕ) (buffer : List UInt8) : Option (PipeResult × Pipe) :=
  match p.files[fd]? with
  | some (some ⟨.write, nonblock⟩) =>
    some (if buffer = [] then (.wrote 0, p)
      else (.pending, { p with calls := .write fd nonblock buffer 0 :: p.calls }))
  | _ => none

/-- `semWaitGen` returns to `pipe_write`. -/
def writeWait (i : ℕ) (giveUp : Option GiveUp) : Option (PipeResult × Pipe) :=
  match p.calls[i]? with
  | some (.write fd nonblock buffer out) =>
    if mayGiveUp nonblock giveUp then
      (p.semBufferFree.waitGen (.ofNat buffer.length) giveUp).map fun r =>
        let q := { p with semBufferFree := r.2 }
        if r.1 < 0 then
          (if out = 0 then .fails (-r.1) else .wrote out, { q with calls := q.calls.eraseIdx i })
        else
          (.pending,
            { q with calls := q.calls.set i (.writeCheck fd nonblock buffer out r.1.toInt.toNat) })
    else none
  | _ => none

/-- `pipe_write` looks whether the read end is open. -/
def writeCheck (i : ℕ) : Option (PipeResult × Pipe) :=
  match p.calls[i]? with
  | some (.writeCheck fd nonblock buffer out count) =>
    if p.cntRead = 0 ∨ count = 0 then some (.fails EPIPE, { p with calls := p.calls.eraseIdx i })
    else some (.pending, { p with calls := p.calls.set i (.writeCopy fd nonblock buffer out count) })
  | _ => none

/-- The section of `pipe_write` under the lock. -/
def writeCopy (i : ℕ) : Option (PipeResult × Pipe) :=
  match p.calls[i]? with
  | some (.writeCopy fd nonblock buffer out count) => do
    let sem ← p.semBufferRead.signal (.ofNat count)
    let put := Ring.put PIPE_BUFFER_SIZE p.buffer p.offWrite (buffer.take count)
    let q := { p with
      semBufferRead := sem
      buffer := put.1
      offWrite := put.2
      accepted := p.accepted ++ buffer.take count }
    some (q.writeNext i fd nonblock (buffer.drop count) (out + count))
  | _ => none

end Pipe

/-- The steps; `i` is the position of a call in progress. -/
inductive PipeOp where
  | open (rd wr nonblock : Bool)
  | openPolled (i : ℕ) (intr : Bool)
  | openCount (i : ℕ)
  | close (fd : ℕ)
  | read (fd size : ℕ)
  | readWait (i : ℕ) (giveUp : Option GiveUp)
  | readCopy (i : ℕ)
  | write (fd : ℕ) (buffer : List UInt8)
  | writeWait (i : ℕ) (giveUp : Option GiveUp)
  | writeCheck (i : ℕ)
  | writeCopy (i : ℕ)
  deriving DecidableEq

def Pipe.step (p : Pipe) : PipeOp → Option (PipeResult × Pipe)
  | .open rd wr nonblock => p.pipeOpen rd wr nonblock
  | .openPolled i intr => p.openPolled i intr
  | .openCount i => p.openCount i
  | .close fd => p.pipeClose fd
  | .read fd size => p.pipeRead fd size
  | .readWait i giveUp => p.readWait i giveUp
  | .readCopy i => p.readCopy i
  | .write fd buffer => p.pipeWrite fd buffer
  | .writeWait i giveUp => p.writeWait i giveUp
  | .writeCheck i => p.writeCheck i
  | .writeCopy i => p.writeCopy i

/-- What `sys_pipe2` opens the two ends of: it signals both semaphores first. -/
def pipe2 : Pipe := { pipeCreate with semReadOpen := ⟨1, false⟩, semWriteOpen := ⟨1, false⟩ }

/-- The steps of `sys_pipe2` that open the ends. -/
def openBoth (nonblock : Bool) : List PipeOp :=
  .open true false nonblock :: (if nonblock then [] else [.openPolled 0 false, .openCount 0]) ++
    [.open false true nonblock, .openPolled 0 false, .openCount 0]

/-- The runs of a FIFO, and of the pipe of `sys_pipe2`. -/
def pipeSystem : System Pipe PipeOp where
  init p := p = pipeCreate ∨ p = pipe2
  step p op q := ∃ r, p.step op = some (r, q)

/-- A run whose steps all meet a condition; `none` if one of them does not, or is not possible. -/
def Pipe.exec (c : Pipe → PipeOp → Prop) [∀ p, DecidablePred (c p)] (p : Pipe) (ops : List PipeOp) :
    Option Pipe :=
  ops.foldlM (fun p op => if c p op then (p.step op).map Prod.snd else none) p

theorem Pipe.reachesBy_exec {c : Pipe → PipeOp → Prop} [∀ p, DecidablePred (c p)] {p q : Pipe}
    {ops : List PipeOp} (hp : pipeSystem.ReachesBy c p) (hq : p.exec c ops = some q) :
    pipeSystem.ReachesBy c q := by
  refine System.ReachesBy.foldlM (fun p op q h => ?_) hp hq
  obtain ⟨hc, h⟩ := Option.ite_none_right_eq_some.1 h
  obtain ⟨⟨r, q'⟩, hs, rfl⟩ := Option.map_eq_some_iff.1 h
  exact ⟨hc, r, hs⟩

/-! ## What each step does -/

namespace Pipe

variable {p q : Pipe} {r : PipeResult} {i fd : ℕ} {giveUp : Option GiveUp}

theorem pipeOpen_cases {rd wr nonblock : Bool} (h : p.pipeOpen rd wr nonblock = some (r, q)) :
    (r = .fails EINVAL ∧ q = p) ∨
    (rd = true ∧ wr = false ∧ nonblock = true ∧ ∃ sem, p.semReadOpen.signal 1 = some sem ∧
      (r, q) = { p with semReadOpen := sem }.addFile ⟨.read, true⟩) ∨
    ∃ file semReadOpen semWriteOpen, r = .pending ∧ q = { p with
      semReadOpen, semWriteOpen, calls := .poll file :: p.calls } := by
  unfold pipeOpen at h
  split_ifs at h with hboth hrd hnonblock
  · cases h
    exact .inl ⟨rfl, rfl⟩
  · obtain ⟨sem, hsem, h⟩ := Option.map_eq_some_iff.1 h
    subst hrd hnonblock
    exact .inr (.inl ⟨rfl, by simpa using hboth, rfl, sem, hsem, h.symm⟩)
  · obtain ⟨sem, -, h⟩ := Option.map_eq_some_iff.1 h
    cases h
    exact .inr (.inr ⟨_, sem, p.semWriteOpen, rfl, rfl⟩)
  · obtain ⟨sem, -, h⟩ := Option.map_eq_some_iff.1 h
    cases h
    exact .inr (.inr ⟨_, p.semReadOpen, sem, rfl, rfl⟩)

theorem openPolled_cases {intr : Bool} (h : p.openPolled i intr = some (r, q)) :
    ∃ file, p.calls[i]? = some (.poll file) ∧
      ((r = .pending ∧ q = { p with calls := p.calls.set i (.count file) }) ∨
        (∃ e, r = .fails e ∧ (e = ENXIO ∨ e = -EINTR ∨ e = EINTR)) ∧
          q = { p with calls := p.calls.eraseIdx i }) := by
  unfold openPolled at h
  split at h
  · next file hcall =>
    refine ⟨file, hcall, ?_⟩
    dsimp only at h
    split_ifs at h with hopen hnonblock hintr hread
    · cases h
      exact .inl ⟨rfl, rfl⟩
    · cases h
      exact .inr ⟨⟨_, rfl, .inl rfl⟩, rfl⟩
    · cases h
      exact .inr ⟨⟨_, rfl, .inr (.inl rfl)⟩, rfl⟩
    · cases h
      exact .inr ⟨⟨_, rfl, .inr (.inr rfl)⟩, rfl⟩
  · cases h

theorem openCount_cases (h : p.openCount i = some (r, q)) : ∃ file,
    p.calls[i]? = some (.count file) ∧
      (r, q) = ({ p with calls := p.calls.eraseIdx i }.addEnd file.filedata 1).addFile file := by
  unfold openCount at h
  split at h
  · next file hcall => exact ⟨file, hcall, (Option.some.inj h).symm⟩
  · cases h

theorem pipeClose_cases (h : p.pipeClose fd = some (r, q)) : ∃ file,
    p.files[fd]? = some (some file) ∧ (∀ c ∈ p.calls, c.fd ≠ some fd) ∧
      ((file.filedata = .read ∧ (p.dropFile fd file).cntRead = 0 ∧
          (p.semBufferFree.terminate = none ∧ r = .panic ∧ q = p.dropFile fd file ∨
            ∃ sem, p.semBufferFree.terminate = some sem ∧ r = .closed ∧
              q = { p.dropFile fd file with semBufferFree := sem })) ∨
        (file.filedata = .write ∧ (p.dropFile fd file).cntWrite = 0 ∧
          (p.semBufferRead.terminate = none ∧ r = .panic ∧ q = p.dropFile fd file ∨
            ∃ sem semHangup, p.semBufferRead.terminate = some sem ∧ r = .closed ∧
              q = { p.dropFile fd file with semBufferRead := sem, semHangup })) ∨
        (file.filedata = .read ∧ (p.dropFile fd file).cntRead ≠ 0 ∨
            file.filedata = .write ∧ (p.dropFile fd file).cntWrite ≠ 0) ∧
          r = .closed ∧ q = p.dropFile fd file) := by
  unfold pipeClose at h
  split at h
  · next file hfile =>
    dsimp only at h
    split at h
    · cases h
    · next hbusy =>
      refine ⟨file, hfile, fun c hc he => hbusy (List.any_eq_true.2 ⟨c, hc, by simpa using he⟩), ?_⟩
      obtain ⟨filedata, nonblock⟩ := file
      cases filedata with
      | read =>
        have hsem : (p.dropFile fd ⟨.read, nonblock⟩).semBufferFree = p.semBufferFree := rfl
        simp only [hsem] at h
        split at h
        · next hzero =>
          split at h <;> cases h
          · next hnone => exact .inl ⟨rfl, hzero, .inl ⟨hnone, rfl, rfl⟩⟩
          · next sem hsome => exact .inl ⟨rfl, hzero, .inr ⟨sem, hsome, rfl, rfl⟩⟩
        · next hne =>
          cases h
          exact .inr (.inr ⟨.inl ⟨rfl, hne⟩, rfl, rfl⟩)
      | write =>
        have hsem : (p.dropFile fd ⟨.write, nonblock⟩).semBufferRead = p.semBufferRead := rfl
        simp only [hsem] at h
        split at h
        · next hzero =>
          split at h
          · next hnone =>
            cases h
            exact .inr (.inl ⟨rfl, hzero, .inl ⟨hnone, rfl, rfl⟩⟩)
          · next sem hsome =>
            obtain ⟨semHangup, -, he⟩ := Option.map_eq_some_iff.1 h
            cases he
            exact .inr (.inl ⟨rfl, hzero, .inr ⟨sem, semHangup, hsome, rfl, rfl⟩⟩)
        · next hne =>
          cases h
          exact .inr (.inr ⟨.inr ⟨rfl, hne⟩, rfl, rfl⟩)
  · cases h

theorem pipeRead_cases {size : ℕ} (h : p.pipeRead fd size = some (r, q)) : ∃ nonblock,
    p.files[fd]? = some (some ⟨.read, nonblock⟩) ∧ r = .pending ∧
      q = { p with calls := .read fd nonblock size :: p.calls } := by
  unfold pipeRead at h
  split at h
  · next nonblock hfile =>
    cases h
    exact ⟨nonblock, hfile, rfl, rfl⟩
  · cases h

theorem readWait_cases (h : p.readWait i giveUp = some (r, q)) : ∃ fd nonblock size n units,
    p.calls[i]? = some (.read fd nonblock size) ∧
      p.semBufferRead.waitGen (.ofNat size) giveUp = some (n, units) ∧
      ((n < 0 ∧ r = .fails (-n) ∧
          q = { p with semBufferRead := units, calls := p.calls.eraseIdx i }) ∨
        ¬ n < 0 ∧ r = .pending ∧ q = { p with
          semBufferRead := units, calls := p.calls.set i (.readCopy fd n.toInt.toNat) }) := by
  unfold readWait at h
  split at h
  · next fd nonblock size hcall =>
    obtain ⟨-, h⟩ := Option.ite_none_right_eq_some.1 h
    obtain ⟨⟨n, units⟩, hwait, he⟩ := Option.map_eq_some_iff.1 h
    refine ⟨fd, nonblock, size, n, units, hcall, hwait, ?_⟩
    dsimp only at he
    split_ifs at he with hneg
    · cases he
      exact .inl ⟨hneg, rfl, rfl⟩
    · cases he
      exact .inr ⟨hneg, rfl, rfl⟩
  · cases h

theorem readCopy_cases (h : p.readCopy i = some (r, q)) : ∃ fd count sem,
    p.calls[i]? = some (.readCopy fd count) ∧
      p.semBufferFree.signal (.ofNat count) = some sem ∧
      r = .bytes (Ring.get PIPE_BUFFER_SIZE p.buffer p.offRead count).1 ∧ q = { p with
        semBufferFree := sem
        offRead := (Ring.get PIPE_BUFFER_SIZE p.buffer p.offRead count).2
        handed := p.handed ++ (Ring.get PIPE_BUFFER_SIZE p.buffer p.offRead count).1
        calls := p.calls.eraseIdx i } := by
  unfold readCopy at h
  split at h
  · next fd count hcall =>
    obtain ⟨sem, hsem, h⟩ := Option.bind_eq_some_iff.1 h
    cases h
    exact ⟨fd, count, sem, hcall, hsem, rfl, rfl⟩
  · cases h

theorem pipeWrite_cases {buffer : List UInt8} (h : p.pipeWrite fd buffer = some (r, q)) :
    (r = .wrote 0 ∧ q = p) ∨ ∃ nonblock, p.files[fd]? = some (some ⟨.write, nonblock⟩) ∧
      r = .pending ∧ q = { p with calls := .write fd nonblock buffer 0 :: p.calls } := by
  unfold pipeWrite at h
  split at h
  · next nonblock hfile =>
    split_ifs at h
    · cases h
      exact .inl ⟨rfl, rfl⟩
    · cases h
      exact .inr ⟨nonblock, hfile, rfl, rfl⟩
  · cases h

theorem writeWait_cases (h : p.writeWait i giveUp = some (r, q)) :
    ∃ fd nonblock buffer out n units, p.calls[i]? = some (.write fd nonblock buffer out) ∧
      p.semBufferFree.waitGen (.ofNat buffer.length) giveUp = some (n, units) ∧
      ((n < 0 ∧ r = (if out = 0 then .fails (-n) else .wrote out) ∧
          q = { p with semBufferFree := units, calls := p.calls.eraseIdx i }) ∨
        ¬ n < 0 ∧ r = .pending ∧ q = { p with
          semBufferFree := units
          calls := p.calls.set i (.writeCheck fd nonblock buffer out n.toInt.toNat) }) := by
  unfold writeWait at h
  split at h
  · next fd nonblock buffer out hcall =>
    obtain ⟨-, h⟩ := Option.ite_none_right_eq_some.1 h
    obtain ⟨⟨n, units⟩, hwait, he⟩ := Option.map_eq_some_iff.1 h
    refine ⟨fd, nonblock, buffer, out, n, units, hcall, hwait, ?_⟩
    dsimp only at he
    by_cases hneg : n < 0
    · rw [if_pos hneg] at he
      cases he
      exact .inl ⟨hneg, rfl, rfl⟩
    · rw [if_neg hneg] at he
      cases he
      exact .inr ⟨hneg, rfl, rfl⟩
  · cases h

theorem writeCheck_cases (h : p.writeCheck i = some (r, q)) : ∃ fd nonblock buffer out count,
    p.calls[i]? = some (.writeCheck fd nonblock buffer out count) ∧
      ((p.cntRead = 0 ∨ count = 0) ∧ r = .fails EPIPE ∧
          q = { p with calls := p.calls.eraseIdx i } ∨
        ¬(p.cntRead = 0 ∨ count = 0) ∧ r = .pending ∧
          q = { p with calls := p.calls.set i (.writeCopy fd nonblock buffer out count) }) := by
  unfold writeCheck at h
  split at h
  · next fd nonblock buffer out count hcall =>
    refine ⟨fd, nonblock, buffer, out, count, hcall, ?_⟩
    split_ifs at h with hnone
    · cases h
      exact .inl ⟨hnone, rfl, rfl⟩
    · cases h
      exact .inr ⟨hnone, rfl, rfl⟩
  · cases h

theorem writeCopy_cases (h : p.writeCopy i = some (r, q)) : ∃ fd nonblock buffer out count sem,
    p.calls[i]? = some (.writeCopy fd nonblock buffer out count) ∧
      p.semBufferRead.signal (.ofNat count) = some sem ∧
      (r, q) = { p with
        semBufferRead := sem
        buffer := (Ring.put PIPE_BUFFER_SIZE p.buffer p.offWrite (buffer.take count)).1
        offWrite := (Ring.put PIPE_BUFFER_SIZE p.buffer p.offWrite (buffer.take count)).2
        accepted := p.accepted ++ buffer.take count }.writeNext i fd nonblock
          (buffer.drop count) (out + count) := by
  unfold writeCopy at h
  split at h
  · next fd nonblock buffer out count hcall =>
    obtain ⟨sem, hsem, h⟩ := Option.bind_eq_some_iff.1 h
    exact ⟨fd, nonblock, buffer, out, count, sem, hcall, hsem, (Option.some.inj h).symm⟩
  · cases h

end Pipe

end Glidix.Ipc
