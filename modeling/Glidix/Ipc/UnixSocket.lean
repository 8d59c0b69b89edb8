import Mathlib.Logic.Function.Basic
import Glidix.Lib.Runs
import Glidix.Lib.Tally
import Glidix.Thread.SemaphoreUnits

/-!
# Sequenced-packet sockets

Two connected Unix sockets of the type `SOCK_SEQPACKET`.  Each has a queue of messages under its lock, and
a semaphore that counts them; `recvfrom` waits for a unit before it acquires the lock, and a peek gives
the unit back.  A step is a section under one lock or an access to a semaphore.  A socket is closed
when no call uses its description any more.
-/

namespace Glidix.Ipc

open Glidix.Thread

def ECONNRESET : Int32 := 15
def ENOTCONN : Int32 := 59

/-- One of the two sockets. -/
inductive Side where
  | left
  | right
  deriving DecidableEq

def Side.other : Side → Side
  | .left => .right
  | .right => .left

/-- `STATE_CLOSED`, `STATE_LISTENING` and `STATE_CONNECTED`. -/
inductive SeqState where
  | closed
  | listening
  | connected
  deriving DecidableEq

/-- `Message`: the address of the sender as the bytes of a `sockaddr_un`, and the payload. -/
structure Message where
  src : List UInt8
  payload : List UInt8
  deriving DecidableEq

/-- The description of a socket is open, or `unixsock_close` is about to acquire the lock of the peer,
or it has returned. -/
inductive SeqFile where
  | opened
  | closing
  | closed
  deriving DecidableEq

/-- A socket; `sent` are the messages that were put into its queue, and `received` those that were
taken out of it. -/
structure SeqSocket where
  file : SeqFile
  state : SeqState
  name : List UInt8
  semMsgIn : SemUnits
  messages : List Message
  sent : List Message
  received : List Message

/-- A call in progress, at the step that comes next. -/
inductive SeqCall where
  /-- `unixsock_sendto`, about to acquire the lock of the peer. -/
  | send (side : Side) (message : Message)
  /-- `unixsock_recvfrom` in `semWaitGen`. -/
  | wait (side : Side) (len : ℕ) (peek : Bool) (addrlen : Option ℕ)
  /-- `unixsock_recvfrom` with a unit, about to acquire the lock. -/
  | take (side : Side) (len : ℕ) (peek : Bool) (addrlen : Option ℕ)
  deriving DecidableEq

def SeqCall.side : SeqCall → Side
  | .send side _ | .wait side _ _ _ | .take side _ _ _ => side

/-- What a step shows to the caller. -/
inductive SeqResult where
  /-- The call goes on. -/
  | pending
  | sent (size : ℕ)
  /-- What `recvfrom` writes to the buffer and to the address. -/
  | message (bytes addr : List UInt8)
  | endOfFile
  | closed
  /-- The call fails with this `ERRNO`. -/
  | fails (errno : Int32)
  /-- There is no first message. -/
  | fault
  | panic
  deriving DecidableEq

/-- The two sockets, and the calls in progress. -/
structure SeqPair where
  ends : Side → SeqSocket
  calls : List SeqCall

/-- A socket as `unixsock_connect` leaves it, with its name. -/
def seqConnected (name : List UInt8) : SeqSocket where
  file := .opened
  state := .connected
  name
  semMsgIn := ⟨0, false⟩
  messages := []
  sent := []
  received := []

def seqPair (left right : List UInt8) : SeqPair where
  ends
    | .left => seqConnected left
    | .right => seqConnected right
  calls := []

/-- The number of bytes of the address that `recvfrom` writes. -/
def realAddrLen (src : List UInt8) : Option ℕ → ℕ
  | none => 0
  | some addrlen => min addrlen (3 + ((src.drop 2).takeWhile (· ≠ 0)).length)

namespace SeqPair

variable (p : SeqPair)

def setEnd (side : Side) (s : SeqSocket) : SeqPair :=
  { p with ends := Function.update p.ends side s }

/-- The section of `unixsock_sendto` under the lock of the socket. -/
def sendto (side : Side) (payload : List UInt8) : Option (SeqResult × SeqPair) :=
  let sock := p.ends side
  if sock.file ≠ .opened then none
  else if sock.state ≠ .connected then some (.fails ENOTCONN, p)
  else some (.pending, { p with calls := .send side ⟨sock.name, payload⟩ :: p.calls })

/-- The section of `unixsock_sendto` under the lock of the peer. -/
def sendPut (i : ℕ) : Option (SeqResult × SeqPair) :=
  match p.calls[i]? with
  | some (.send side message) =>
    let peer := p.ends side.other
    let q := { p with calls := p.calls.eraseIdx i }
    if peer.state ≠ .connected then some (.fails ECONNRESET, q)
    else (peer.semMsgIn.signal 1).map fun semMsgIn =>
      (.sent message.payload.length, q.setEnd side.other { peer with
        semMsgIn
        messages := peer.messages ++ [message]
        sent := peer.sent ++ [message] })
  | _ => none

/-- `unixsock_recvfrom` looks at the state. -/
def recvfrom (side : Side) (len : ℕ) (peek : Bool) (addrlen : Option ℕ) :
    Option (SeqResult × SeqPair) :=
  let sock := p.ends side
  if sock.file ≠ .opened then none
  else if sock.state ≠ .connected then some (.fails ENOTCONN, p)
  else some (.pending, { p with calls := .wait side len peek addrlen :: p.calls })

/-- `semWaitGen` returns to `unixsock_recvfrom`; the flags, the timeout and signals decide
whether it may give up. -/
def recvWait (i : ℕ) (giveUp : Option GiveUp) : Option (SeqResult × SeqPair) :=
  match p.calls[i]? with
  | some (.wait side len peek addrlen) =>
    let sock := p.ends side
    (sock.semMsgIn.waitGen 1 giveUp).map fun r =>
      let q := p.setEnd side { sock with semMsgIn := r.2 }
      if r.1 < 0 then (.fails (-r.1), { q with calls := p.calls.eraseIdx i })
      else if r.1 = 0 then (.endOfFile, { q with calls := p.calls.eraseIdx i })
      else (.pending, { q with calls := p.calls.set i (.take side len peek addrlen) })
  | _ => none

/-- The section of `unixsock_recvfrom` under the lock. -/
def recvTake (i : ℕ) : Option (SeqResult × SeqPair) :=
  match p.calls[i]? with
  | some (.take side len peek addrlen) =>
    let sock := p.ends side
    let q := { p with calls := p.calls.eraseIdx i }
    match sock.messages with
    | [] => some (.fault, p)
    | msg :: rest =>
      let result : SeqResult :=
        .message (msg.payload.take len) (msg.src.take (realAddrLen msg.src addrlen))
      if peek then
        (sock.semMsgIn.signal 1).map fun semMsgIn =>
          (result, q.setEnd side { sock with semMsgIn })
      else some (result, q.setEnd side { sock with
        messages := rest
        received := sock.received ++ [msg] })
  | _ => none

/-- `unixsock_close`, when the last reference to a description is gone: the section under the lock of
the socket. -/
def close (side : Side) : Option (SeqResult × SeqPair) :=
  let sock := p.ends side
  if sock.file ≠ .opened then none
  else if p.calls.any fun c => c.side = side then none
  else if sock.state = .connected then
    some (.pending, p.setEnd side { sock with state := .closed, file := .closing })
  else some (.closed, p.setEnd side { sock with file := .closed })

/-- The section of `unixsock_close` under the lock of the peer. -/
def closePeer (side : Side) : Option (SeqResult × SeqPair) :=
  let sock := p.ends side
  let peer := p.ends side.other
  if sock.file = .closing then
    match peer.semMsgIn.terminate with
    | none => some (.panic, p)
    | some semMsgIn => some (.closed,
      (p.setEnd side { sock with file := .closed }).setEnd side.other { peer with semMsgIn })
  else none

end SeqPair

/-- The steps; `i` is the position of a call in progress. -/
inductive SeqOp where
  | sendto (side : Side) (payload : List UInt8)
  | sendPut (i : ℕ)
  | recvfrom (side : Side) (len : ℕ) (peek : Bool) (addrlen : Option ℕ)
  | recvWait (i : ℕ) (giveUp : Option GiveUp)
  | recvTake (i : ℕ)
  | close (side : Side)
  | closePeer (side : Side)
  deriving DecidableEq

def SeqPair.step (p : SeqPair) : SeqOp → Option (SeqResult × SeqPair)
  | .sendto side payload => p.sendto side payload
  | .sendPut i => p.sendPut i
  | .recvfrom side len peek addrlen => p.recvfrom side len peek addrlen
  | .recvWait i giveUp => p.recvWait i giveUp
  | .recvTake i => p.recvTake i
  | .close side => p.close side
  | .closePeer side => p.closePeer side

/-- The runs of a pair that has just been connected. -/
def seqSystem : System SeqPair SeqOp where
  init p := ∃ left right, p = seqPair left right
  step p op q := ∃ r, p.step op = some (r, q)

/-- A run whose steps all meet a condition; `none` if one of them does not, or is not possible. -/
def SeqPair.exec (c : SeqPair → SeqOp → Prop) [∀ p, DecidablePred (c p)] (p : SeqPair)
    (ops : List SeqOp) : Option SeqPair :=
  ops.foldlM (fun p op => if c p op then (p.step op).map Prod.snd else none) p

theorem SeqPair.reachesBy_exec {c : SeqPair → SeqOp → Prop} [∀ p, DecidablePred (c p)]
    {p q : SeqPair} {ops : List SeqOp} (hp : seqSystem.ReachesBy c p) (hq : p.exec c ops = some q) :
    seqSystem.ReachesBy c q := by
  refine System.ReachesBy.foldlM (fun p op q h => ?_) hp hq
  obtain ⟨hc, h⟩ := Option.ite_none_right_eq_some.1 h
  obtain ⟨⟨r, q'⟩, hs, rfl⟩ := Option.map_eq_some_iff.1 h
  exact ⟨hc, r, hs⟩

/-! ## What each step does -/

namespace SeqPair

variable {p q : SeqPair} {r : SeqResult} {i : ℕ} {side : Side} {giveUp : Option GiveUp}

/-- A step that starts a call, or fails at once. -/
theorem sendto_cases {payload : List UInt8} (h : p.sendto side payload = some (r, q)) :
    (p.ends side).file = .opened ∧ (r = .fails ENOTCONN ∧ q = p ∨
      r = .pending ∧ q = { p with calls := .send side ⟨(p.ends side).name, payload⟩ :: p.calls }) := by
  simp only [sendto] at h
  split_ifs at h with hfile hstate
  · cases h
    exact ⟨not_not.1 hfile, .inl ⟨rfl, rfl⟩⟩
  · cases h
    exact ⟨not_not.1 hfile, .inr ⟨rfl, rfl⟩⟩

theorem recvfrom_cases {len : ℕ} {peek : Bool} {addrlen : Option ℕ}
    (h : p.recvfrom side len peek addrlen = some (r, q)) :
    (p.ends side).file = .opened ∧ (r = .fails ENOTCONN ∧ q = p ∨
      r = .pending ∧ q = { p with calls := .wait side len peek addrlen :: p.calls }) := by
  simp only [recvfrom] at h
  split_ifs at h with hfile hstate
  · cases h
    exact ⟨not_not.1 hfile, .inl ⟨rfl, rfl⟩⟩
  · cases h
    exact ⟨not_not.1 hfile, .inr ⟨rfl, rfl⟩⟩

theorem sendPut_cases (h : p.sendPut i = some (r, q)) : ∃ side message,
    p.calls[i]? = some (.send side message) ∧
      (r = .fails ECONNRESET ∧ q = { p with calls := p.calls.eraseIdx i } ∨
        ∃ semMsgIn, (p.ends side.other).semMsgIn.signal 1 = some semMsgIn ∧
          r = .sent message.payload.length ∧
          q = setEnd { p with calls := p.calls.eraseIdx i } side.other { p.ends side.other with
            semMsgIn
            messages := (p.ends side.other).messages ++ [message]
            sent := (p.ends side.other).sent ++ [message] }) := by
  unfold sendPut at h
  split at h
  · next side message hcall =>
    refine ⟨side, message, hcall, ?_⟩
    dsimp only at h
    split_ifs at h with hstate
    · cases h
      exact .inl ⟨rfl, rfl⟩
    · obtain ⟨semMsgIn, hsem, he⟩ := Option.map_eq_some_iff.1 h
      cases he
      exact .inr ⟨semMsgIn, hsem, rfl, rfl⟩
  · cases h

theorem recvWait_cases (h : p.recvWait i giveUp = some (r, q)) :
    ∃ side len peek addrlen n semMsgIn, p.calls[i]? = some (.wait side len peek addrlen) ∧
      (p.ends side).semMsgIn.waitGen 1 giveUp = some (n, semMsgIn) ∧
      ((n < 0 ∧ r = .fails (-n) ∨ n = 0 ∧ r = .endOfFile) ∧
          q = { p.setEnd side { p.ends side with semMsgIn } with calls := p.calls.eraseIdx i } ∨
        ¬ n < 0 ∧ n ≠ 0 ∧ r = .pending ∧ q = { p.setEnd side { p.ends side with semMsgIn } with
          calls := p.calls.set i (.take side len peek addrlen) }) := by
  unfold recvWait at h
  split at h
  · next side len peek addrlen hcall =>
    obtain ⟨⟨n, semMsgIn⟩, hwait, he⟩ := Option.map_eq_some_iff.1 h
    refine ⟨side, len, peek, addrlen, n, semMsgIn, hcall, hwait, ?_⟩
    dsimp only at he
    split_ifs at he with hneg hzero
    · cases he
      exact .inl ⟨.inl ⟨hneg, rfl⟩, rfl⟩
    · cases he
      exact .inl ⟨.inr ⟨hzero, rfl⟩, rfl⟩
    · cases he
      exact .inr ⟨hneg, hzero, rfl, rfl⟩
  · cases h

theorem recvTake_cases (h : p.recvTake i = some (r, q)) : ∃ side len peek addrlen,
    p.calls[i]? = some (.take side len peek addrlen) ∧
      ((p.ends side).messages = [] ∨ ∃ msg rest, (p.ends side).messages = msg :: rest ∧
        r = .message (msg.payload.take len) (msg.src.take (realAddrLen msg.src addrlen)) ∧
        (peek = true ∧ (∃ semMsgIn, (p.ends side).semMsgIn.signal 1 = some semMsgIn ∧
            q = setEnd { p with calls := p.calls.eraseIdx i } side
              { p.ends side with semMsgIn }) ∨
          peek = false ∧ q = setEnd { p with calls := p.calls.eraseIdx i } side { p.ends side with
            messages := rest
            received := (p.ends side).received ++ [msg] })) := by
  unfold recvTake at h
  split at h
  · next side len peek addrlen hcall =>
    refine ⟨side, len, peek, addrlen, hcall, ?_⟩
    dsimp only at h
    split at h
    · next hnil => exact .inl hnil
    · next msg rest hmessages =>
      refine .inr ⟨msg, rest, hmessages, ?_⟩
      split_ifs at h with hpeek
      · obtain ⟨semMsgIn, hsem, he⟩ := Option.map_eq_some_iff.1 h
        cases he
        exact ⟨rfl, .inl ⟨hpeek, semMsgIn, hsem, rfl⟩⟩
      · cases h
        exact ⟨rfl, .inr ⟨Bool.eq_false_iff.2 hpeek, rfl⟩⟩
  · cases h

theorem close_cases (h : p.close side = some (r, q)) :
    (p.ends side).file = .opened ∧ (∀ c ∈ p.calls, c.side ≠ side) ∧
      (r = .pending ∧ q = p.setEnd side { p.ends side with state := .closed, file := .closing } ∨
        (p.ends side).state ≠ .connected ∧
          r = .closed ∧ q = p.setEnd side { p.ends side with file := .closed }) := by
  simp only [close] at h
  split_ifs at h with hfile hbusy hstate
  · cases h
    exact ⟨not_not.1 hfile, fun c hc he => hbusy (List.any_eq_true.2 ⟨c, hc, by simpa using he⟩),
      .inl ⟨rfl, rfl⟩⟩
  · cases h
    exact ⟨not_not.1 hfile, fun c hc he => hbusy (List.any_eq_true.2 ⟨c, hc, by simpa using he⟩),
      .inr ⟨hstate, rfl, rfl⟩⟩

theorem closePeer_cases (h : p.closePeer side = some (r, q)) : (p.ends side).file = .closing ∧
    ((p.ends side.other).semMsgIn.terminate = none ∧ r = .panic ∧ q = p ∨
      ∃ semMsgIn, (p.ends side.other).semMsgIn.terminate = some semMsgIn ∧ r = .closed ∧
        q = (p.setEnd side { p.ends side with file := .closed }).setEnd side.other
          { p.ends side.other with semMsgIn }) := by
  simp only [closePeer] at h
  split at h
  · next hfile =>
    refine ⟨hfile, ?_⟩
    split at h <;> cases h
    · next hnone => exact .inl ⟨hnone, rfl, rfl⟩
    · next semMsgIn hsome => exact .inr ⟨semMsgIn, hsome, rfl, rfl⟩
  · cases h

end SeqPair

end Glidix.Ipc
