import Mathlib.Data.UInt
import Glidix.Lib.Ring
import Glidix.Net.IpHeader
import Glidix.Thread.SemaphoreUnits

/-!
# TCP sockets

The state of a connected TCP socket and what its users do with it: the calls of the application, the
handler thread, and the segments that arrive for it.  A step ends where another thread can first
see what was done: at a semaphore or at the end of a section under the lock.  A segment is passed to
`tcpsock_packet` under the lock of the list of sockets, so there is one at a time; the model
begins where the addresses, the ports and the checksum of the segment have been found right.
-/

namespace Glidix.Net

open Glidix.Thread

/-- Size of TCP buffers. -/
def TCP_BUFFER_SIZE : ℕ := 0xFFFF

def ECONNRESET : Int32 := 15
def EOPNOTSUPP : Int32 := 66

/-! ## Segments -/

def TCP_FIN : UInt8 := 1
def TCP_SYN : UInt8 := 2
def TCP_RST : UInt8 := 4
def TCP_PSH : UInt8 := 8
def TCP_ACK : UInt8 := 16

/-- The header of a segment, and the bytes behind it. -/
structure TCPSegment where
  srcport : UInt16
  dstport : UInt16
  seqno : UInt32
  ackno : UInt32
  dataOffsetNS : UInt8
  flags : UInt8
  winsz : UInt16
  checksum : UInt16
  urgptr : UInt16
  data : List UInt8
  deriving DecidableEq

def be32 (n : UInt32) : List UInt8 :=
  [(n >>> 24).toUInt8, (n >>> 16).toUInt8, (n >>> 8).toUInt8, n.toUInt8]

namespace TCPSegment

variable (seg : TCPSegment)

def has (flag : UInt8) : Bool := seg.flags &&& flag != 0

/-- The whole segment, as it is sent. -/
def bytes : List UInt8 :=
  be16 seg.srcport.toNat ++ be16 seg.dstport.toNat ++ be32 seg.seqno ++ be32 seg.ackno ++
    [seg.dataOffsetNS, seg.flags] ++ be16 seg.winsz.toNat ++ be16 seg.checksum.toNat ++
    be16 seg.urgptr.toNat ++ seg.data

def size : ℕ := seg.bytes.length

/-- The length of the header, which the sender of the segment chooses. -/
def headerSize : ℕ := (seg.dataOffsetNS >>> 4).toNat * 4

/-- `size - headerSize`, a `size_t`. -/
def payloadSize : ℕ := (seg.size + 2 ^ 64 - seg.headerSize) % 2 ^ 64

/-- The bytes behind the header. -/
def payload : List UInt8 := seg.bytes.drop seg.headerSize

end TCPSegment

/-! ## The socket -/

inductive TcpState where
  | closed
  | connecting
  | established
  | terminated
  deriving DecidableEq

/-- Where the handler thread is. -/
inductive TcpThread where
  /-- Not created. -/
  | none
  /-- At the head of the loop that sends `currentOut`. -/
  | sending (retransCount : ℕ)
  /-- In `semPoll`, after `currentOut` was sent. -/
  | polling (retransCount : ℕ)
  /-- Waiting for the connection. -/
  | connecting (wasFin : Bool)
  /-- Waiting for something to send. -/
  | idle
  /-- About to make a segment with this many bytes of the send buffer. -/
  | fetched (count : Int32)
  /-- In the four minutes after the last segment. -/
  | closing (wantExit : Bool)
  /-- Waiting for the application to close the socket. -/
  | draining
  /-- Returned, with the socket still there. -/
  | ended
  /-- Returned, with the socket freed. -/
  | freed
  deriving DecidableEq

/-- A call of `tcpsock_sendto`, with what is left of its buffer. -/
inductive SendCall where
  | wait (sizeWritten : ℕ) (buffer : List UInt8)
  | copy (sizeWritten : ℕ) (buffer : List UInt8) (status : ℕ)
  | post (sizeWritten : ℕ) (buffer : List UInt8) (gotCount : ℕ)
  deriving DecidableEq

/-- A call of `tcpsock_recvfrom`. -/
inductive RecvCall where
  | wait (len : ℕ)
  | copy (size : ℕ)
  deriving DecidableEq

structure TCPSocket where
  srcport : UInt16
  dstport : UInt16
  shutRd : Bool
  shutWr : Bool
  nextSeqNo : UInt32
  nextAckNo : UInt32
  state : TcpState
  semConnected : SemUnits
  sockErr : Int32
  semAck : SemUnits
  currentOut : TCPSegment
  expectedAck : UInt64
  semStop : SemUnits
  semAckOut : SemUnits
  bufSend : ℕ → UInt8
  semSendPut : SemUnits
  semSendFetch : SemUnits
  idxSendPut : ℕ
  idxSendFetch : ℕ
  bufRecv : ℕ → UInt8
  cntRecvPut : ℕ
  semRecvFetch : SemUnits
  idxRecvPut : ℕ
  idxRecvFetch : ℕ
  /-- The handler thread and its flag `connectDone`. -/
  thread : TcpThread
  connectDone : Bool
  /-- The segment that `tcpsock_packet` is handling. -/
  packet : Option TCPSegment
  /-- The calls in progress. -/
  sends : List SendCall
  recvs : List RecvCall
  /-- History: the bytes put into the send buffer, and what the calls of `tcpsock_sendto` returned. -/
  accepted : List UInt8
  sendResults : List (Except Int32 ℕ)
  /-- History: the bytes put into the receive buffer, and what the calls of `tcpsock_recvfrom`
  returned, in the order in which they took it out. -/
  received : List UInt8
  recvResults : List (Except Int32 (List UInt8))

/-- A header without data. -/
def emptySegment : TCPSegment := ⟨0, 0, 0, 0, 0, 0, 0, 0, 0, []⟩

/-- A semaphore made by `semInit2`. -/
def newUnits (count : Int32) : SemUnits := ⟨count, false⟩

/-- `CreateTCPSocket`, with the ports that the socket is given before it is connected. -/
def CreateTCPSocket (srcport dstport : UInt16) : TCPSocket where
  srcport := srcport
  dstport := dstport
  shutRd := false
  shutWr := false
  nextSeqNo := 0
  nextAckNo := 0
  state := .closed
  semConnected := newUnits 0
  sockErr := 0
  semAck := newUnits 0
  currentOut := emptySegment
  expectedAck := 0
  semStop := newUnits 0
  semAckOut := newUnits 0
  bufSend := fun _ => 0
  semSendPut := newUnits 0xFFFF
  semSendFetch := newUnits 0
  idxSendPut := 0
  idxSendFetch := 0
  bufRecv := fun _ => 0
  cntRecvPut := TCP_BUFFER_SIZE
  semRecvFetch := newUnits 0
  idxRecvPut := 0
  idxRecvFetch := 0
  thread := .none
  connectDone := false
  packet := none
  sends := []
  recvs := []
  accepted := []
  sendResults := []
  received := []
  recvResults := []

namespace TCPSocket

variable (k : TCPSocket)

/-- A segment of this socket with the header that all its segments have. -/
def makeSegment (seqno ackno : UInt32) (flags : UInt8) (data : List UInt8) : TCPSegment where
  srcport := k.srcport
  dstport := k.dstport
  seqno := seqno
  ackno := ackno
  dataOffsetNS := 0x50
  flags := flags
  winsz := 0xFFFF
  checksum := 0
  urgptr := 0
  data := data

/-- `tcpsock_connect`, with the random number it starts from. -/
def connect (random : UInt32) : Option TCPSocket :=
  if k.state ≠ .closed then none
  else some { k with
    state := .connecting
    nextSeqNo := random
    currentOut := k.makeSegment (random - 1) 0 TCP_SYN []
    expectedAck := random.toUInt64
    thread := .sending 16 }

/-- What `tcpsock_accept` makes of a new socket for a pending connection. -/
def accept (random pendAckno : UInt32) : Option TCPSocket :=
  if k.state ≠ .closed then none
  else (k.semConnected.signal 1).map fun semConnected =>
    { k with
      state := .established
      nextSeqNo := random
      nextAckNo := pendAckno
      currentOut := k.makeSegment (random - 1) pendAckno (TCP_SYN ||| TCP_ACK) []
      expectedAck := random.toUInt64
      semConnected := semConnected
      connectDone := true
      thread := .sending 16 }

/-! ## tcpsock_sendto -/

/-- The end of `tcpsock_sendto`. -/
def sendReturn (sizeWritten : ℕ) : TCPSocket :=
  if sizeWritten = 0 ∧ k.sockErr ≠ 0 then
    { k with sockErr := 0, sendResults := k.sendResults ++ [.error k.sockErr] }
  else { k with sendResults := k.sendResults ++ [.ok sizeWritten] }

/-- The head of the loop `while (size > 0)`. -/
def sendLoop (sizeWritten : ℕ) (buffer : List UInt8) : TCPSocket :=
  if buffer = [] then k.sendReturn sizeWritten
  else { k with sends := .wait sizeWritten buffer :: k.sends }

/-- The beginning of `tcpsock_sendto`; `giveUp` is what `semPoll` returns when the socket is not
connected, and `none` is a thread that waits for the connection. -/
def sendto (flags : Int32) (buffer : List UInt8) (giveUp : Option GiveUp) : Option TCPSocket :=
  if flags ≠ 0 then some { k with sendResults := k.sendResults ++ [.error EOPNOTSUPP] }
  else if k.sockErr ≠ 0 then
    some { k with sockErr := 0, sendResults := k.sendResults ++ [.error k.sockErr] }
  else if k.semConnected.count = 0 then
    giveUp.map fun e =>
      { k with sendResults := k.sendResults ++ [.error (if e = .intr then EINTR else EAGAIN)] }
  else some (k.sendLoop 0 buffer)

/-- The call of `semWaitGen` in `tcpsock_sendto`. -/
def sendWait (i : ℕ) (giveUp : Option GiveUp) : Option TCPSocket :=
  match k.sends[i]? with
  | some (.wait sizeWritten buffer) =>
    let count := Int32.ofNat (if buffer.length > TCP_BUFFER_SIZE then TCP_BUFFER_SIZE
      else buffer.length)
    (k.semSendPut.waitGen count giveUp).map fun (status, units) =>
      let k : TCPSocket := { k with semSendPut := units, sends := k.sends.eraseIdx i }
      if status < 0 then
        if sizeWritten = 0 then { k with sendResults := k.sendResults ++ [.error EAGAIN] }
        else k.sendReturn sizeWritten
      else if status = 0 then k.sendReturn sizeWritten
      else { k with sends := .copy sizeWritten buffer status.toInt.toNat :: k.sends }
  | _ => none

/-- The section of `tcpsock_sendto` under the lock. -/
def sendCopy (i : ℕ) : Option TCPSocket :=
  match k.sends[i]? with
  | some (.copy sizeWritten buffer status) =>
    let (bufSend, idxSendPut) :=
      Ring.put TCP_BUFFER_SIZE k.bufSend k.idxSendPut (buffer.take status)
    some { k with
      bufSend := bufSend
      idxSendPut := idxSendPut
      accepted := k.accepted ++ buffer.take status
      sends := .post (sizeWritten + status) (buffer.drop status) status :: k.sends.eraseIdx i }
  | _ => none

/-- `semSignal2(&tcpsock->semSendFetch, gotCount)`, and back to the head of the loop. -/
def sendPost (i : ℕ) : Option TCPSocket :=
  match k.sends[i]? with
  | some (.post sizeWritten buffer gotCount) =>
    (k.semSendFetch.signal (.ofNat gotCount)).map fun units =>
      { k with semSendFetch := units, sends := k.sends.eraseIdx i }.sendLoop sizeWritten buffer
  | _ => none

/-! ## tcpsock_recvfrom -/

def recvReturn (result : Except Int32 (List UInt8)) : TCPSocket :=
  { k with recvResults := k.recvResults ++ [result] }

/-- The beginning of `tcpsock_recvfrom`. -/
def recvfrom (flags : Int32) (len : ℕ) : TCPSocket :=
  if flags ≠ 0 then k.recvReturn (.error EOPNOTSUPP)
  else if k.sockErr ≠ 0 then recvReturn { k with sockErr := 0 } (.error k.sockErr)
  else { k with recvs := .wait len :: k.recvs }

/-- The call of `semWaitGen` in `tcpsock_recvfrom`. -/
def recvWait (i : ℕ) (giveUp : Option GiveUp) : Option TCPSocket :=
  match k.recvs[i]? with
  | some (.wait len) =>
    (k.semRecvFetch.waitGen (.ofNat len) giveUp).map fun (size, units) =>
      let k : TCPSocket := { k with semRecvFetch := units, recvs := k.recvs.eraseIdx i }
      if size < 0 then k.recvReturn (.error (if size = -ETIMEDOUT then EAGAIN else -size))
      else if size = 0 then
        if k.sockErr ≠ 0 then recvReturn { k with sockErr := 0 } (.error k.sockErr)
        else k.recvReturn (.ok [])
      else { k with recvs := .copy size.toInt.toNat :: k.recvs }
  | _ => none

/-- The section of `tcpsock_recvfrom` under the lock. -/
def recvCopy (i : ℕ) : Option TCPSocket :=
  match k.recvs[i]? with
  | some (.copy size) =>
    let (bytes, idxRecvFetch) := Ring.get TCP_BUFFER_SIZE k.bufRecv k.idxRecvFetch size
    some ({ k with
      idxRecvFetch := idxRecvFetch
      cntRecvPut := k.cntRecvPut + size
      recvs := k.recvs.eraseIdx i }.recvReturn (.ok bytes))
  | _ => none

/-! ## Closing -/

def shutdown (rd wr : Bool) : Option TCPSocket :=
  let k := if rd then { k with shutRd := true } else k
  if wr && !k.shutWr then
    k.semSendPut.terminate.map fun units => { k with shutWr := true, semSendPut := units }
  else some k

/-- `tcpsock_close` of a socket that has a thread. -/
def close : Option TCPSocket :=
  k.semSendFetch.terminate.map fun units => { k with semSendFetch := units }

/-! ## tcpsock_packet -/

/-- The beginning of `tcpsock_packet`: the number that the segment acknowledges. -/
def packetAck (seg : TCPSegment) : Option TCPSocket :=
  if k.state = .closed ∨ k.thread = .freed ∨ k.packet.isSome then none
  else if seg.has TCP_ACK && k.expectedAck == seg.ackno.toUInt64 then
    (k.semAck.signal 1).map fun units =>
      { k with semAck := units, expectedAck := 2 ^ 32, packet := some seg }
  else some { k with packet := some seg }

/-- A segment with `TCP_RST`. -/
def packetRst (seg : TCPSegment) : Option TCPSocket :=
  if seg.has TCP_RST && seg.seqno == k.nextAckNo then
    (k.semStop.signal 1).map fun units =>
      { k with
        sockErr := ECONNRESET, shutRd := true, shutWr := true, state := .terminated
        semStop := units }
  else some k

/-- `semSignal(&tcpsock->semAckOut)`. -/
def ackOut : Option TCPSocket :=
  (k.semAckOut.signal 1).map fun units => { k with semAckOut := units }

/-- A segment with `TCP_SYN`. -/
def packetSyn (seg : TCPSegment) : Option TCPSocket :=
  if k.semConnected.count = 0 then do
    let semConnected ← k.semConnected.signal 1
    { k with nextAckNo := seg.seqno + 1, semConnected := semConnected }.ackOut
  else k.ackOut

/-- A segment with `TCP_FIN`. -/
def packetFin (seg : TCPSegment) : Option TCPSocket :=
  if seg.seqno = k.nextAckNo then do
    let semRecvFetch ← k.semRecvFetch.terminate
    { k with
      shutRd := true, nextAckNo := seg.seqno + 1, semRecvFetch := semRecvFetch }.ackOut
  else some k

/-- A segment with data.  A `payloadSize` that wrapped around is more than the segment has: copying
it reads beyond the end of the segment, which is `none`. -/
def packetData (seg : TCPSegment) : Option TCPSocket :=
  if seg.seqno = k.nextAckNo then
    if k.cntRecvPut < seg.payloadSize then some k
    else if seg.payload.length < seg.payloadSize then none
    else do
      let (bufRecv, idxRecvPut) := Ring.put TCP_BUFFER_SIZE k.bufRecv k.idxRecvPut seg.payload
      let semRecvFetch ← k.semRecvFetch.signal (.ofNat seg.payloadSize)
      { k with
        cntRecvPut := k.cntRecvPut - seg.payloadSize
        bufRecv := bufRecv
        idxRecvPut := idxRecvPut
        semRecvFetch := semRecvFetch
        nextAckNo := k.nextAckNo + UInt32.ofNat seg.payloadSize
        received := k.received ++ seg.payload }.ackOut
  else k.ackOut

/-- The rest of `tcpsock_packet`; `none` is a panic or an invalid access. -/
def packetRest : Option TCPSocket :=
  match k.packet with
  | none => none
  | some seg => do
    let k ← packetRst { k with packet := none } seg
    if k.state = .terminated then k.ackOut
    else if seg.has TCP_SYN then k.packetSyn seg
    else if seg.has TCP_FIN then k.packetFin seg
    else if seg.has TCP_PSH ∨ seg.size > seg.headerSize then k.packetData seg
    else some k

/-! ## tcpThread -/

/-- What the handler thread sees: whether its deadline has passed, what `sendPacketEx` returns, and
the checksum of the segment, which depends on the addresses. -/
structure ThreadEnv where
  expired : Bool
  status : Int32
  checksum : UInt16
  deriving DecidableEq

/-- The connection fails: `tcpsock_connect` is told if it is still waiting. -/
def fail (error : Int32) (thread : TcpThread) : Option TCPSocket :=
  (if k.state = .connecting then k.semConnected.signal 1 else some k.semConnected).map fun units =>
    { k with sockErr := error, semConnected := units, state := .terminated, thread := thread }

/-- `semWaitGen(&tcpsock->semAckOut, -1, 0, 0)` when there are units. -/
def drainAckOut : TCPSocket :=
  if k.semAckOut.count ≠ 0 then { k with semAckOut := (k.semAckOut.take k.semAckOut.count).2 } else k

/-- What follows the last turn of the loop that sends `currentOut`. -/
def afterSend (wasFin : Bool) : TCPSocket :=
  { k with thread := if wasFin then .closing false else .idle }

/-- The segment with `count` bytes of the send buffer, or the FIN. -/
def makeOutbound (count : Int32) : Option TCPSocket :=
  let size := count.toInt.toNat
  let (bytes, idxSendFetch) := Ring.get TCP_BUFFER_SIZE k.bufSend k.idxSendFetch size
  let flags := if count = 0 then TCP_FIN ||| TCP_ACK else TCP_PSH ||| TCP_ACK
  let nextSeqNo := (if count = 0 then k.nextSeqNo + 1 else k.nextSeqNo) + .ofNat size
  (k.semSendPut.signal count).map fun units =>
    { k with
      idxSendFetch := idxSendFetch
      nextSeqNo := nextSeqNo
      expectedAck := nextSeqNo.toUInt64
      currentOut := k.makeSegment k.nextSeqNo 0 flags bytes
      semSendPut := units
      thread := .sending 16 }

/-- One step of the handler thread, with the segments it sends. -/
def tcpThread (env : ThreadEnv) : Option (TCPSocket × List TCPSegment) :=
  match k.thread with
  | .none | .ended | .freed => none
  | .sending retransCount =>
    if env.expired ∨ retransCount = 0 then
      (k.fail ETIMEDOUT .ended).map (·, [])
    else
      let seg := { k.currentOut with ackno := k.nextAckNo, checksum := env.checksum }
      if env.status ≠ 0 then (k.fail (-env.status) (.closing true)).map (·, [])
      else some ({ k with currentOut := seg, thread := .polling (retransCount - 1) }, [seg])
  | .polling retransCount =>
    if k.semStop.count ≠ 0 then
      some ({ k with state := .terminated, thread := .closing true }, [])
    else if k.semAck.count ≠ 0 then
      let k := { k with semAck := (k.semAck.take 1).2 }
      let wasFin := k.currentOut.has TCP_FIN
      some (if k.connectDone then k.afterSend wasFin else { k with thread := .connecting wasFin }, [])
    else some ({ k.drainAckOut with thread := .sending retransCount }, [])
  | .connecting wasFin =>
    if env.expired then
      (k.semConnected.signal 1).map fun units =>
        ({ k with
          sockErr := ETIMEDOUT, semConnected := units, state := .terminated, thread := .ended }, [])
    else if k.semStop.count ≠ 0 then some ({ k with state := .terminated, thread := .ended }, [])
    else if k.semConnected.count ≠ 0 then
      some ({ k with connectDone := true, state := .established }.afterSend wasFin, [])
    else none
  | .idle =>
    if k.semSendFetch.count ≠ 0 then
      (k.semSendFetch.waitGen 512 none).map fun (count, units) =>
        ({ k.drainAckOut with semSendFetch := units, thread := .fetched count }, [])
    else if k.semAckOut.count ≠ 0 then
      let seg := { k.makeSegment k.nextSeqNo k.nextAckNo TCP_ACK [] with checksum := env.checksum }
      let k := k.drainAckOut
      some (if k.semStop.count ≠ 0 then { k with state := .terminated, thread := .closing true } else k,
        [seg])
    else if k.semStop.count ≠ 0 then
      some ({ k with state := .terminated, thread := .closing true }, [])
    else none
  | .fetched count => (k.makeOutbound count).map (·, [])
  | .closing wantExit =>
    if env.expired then some ({ k with thread := .draining }, [])
    else
      let wantExit := wantExit || k.semStop.count != 0
      let k := { k with thread := .closing wantExit }
      if k.semAckOut.count ≠ 0 ∧ wantExit = false then
        let seg :=
          { k.makeSegment k.nextSeqNo k.nextAckNo (TCP_FIN ||| TCP_ACK) [] with
            checksum := env.checksum }
        some (k.drainAckOut, [seg])
      else some (k, [])
  | .draining =>
    (k.semSendFetch.waitGen 512 none).map fun (count, units) =>
      ({ k with semSendFetch := units, thread := if count = 0 then .freed else .draining }, [])

end TCPSocket

/-! ## Steps -/

/-- What is done with a socket. -/
inductive SockOp where
  | connect (random : UInt32)
  | accept (random pendAckno : UInt32)
  | sendto (flags : Int32) (buffer : List UInt8) (giveUp : Option GiveUp)
  | sendWait (i : ℕ) (giveUp : Option GiveUp)
  | sendCopy (i : ℕ)
  | sendPost (i : ℕ)
  | recvfrom (flags : Int32) (len : ℕ)
  | recvWait (i : ℕ) (giveUp : Option GiveUp)
  | recvCopy (i : ℕ)
  | shutdown (rd wr : Bool)
  | close
  | packetAck (seg : TCPSegment)
  | packetRest
  | thread (env : TCPSocket.ThreadEnv)

/-- A step of a socket, with the segments it sends. -/
def TCPSocket.step (k : TCPSocket) : SockOp → Option (TCPSocket × List TCPSegment)
  | .connect random => (k.connect random).map (·, [])
  | .accept random pendAckno => (k.accept random pendAckno).map (·, [])
  | .sendto flags buffer giveUp => (k.sendto flags buffer giveUp).map (·, [])
  | .sendWait i giveUp => (k.sendWait i giveUp).map (·, [])
  | .sendCopy i => (k.sendCopy i).map (·, [])
  | .sendPost i => (k.sendPost i).map (·, [])
  | .recvfrom flags len => some (k.recvfrom flags len, [])
  | .recvWait i giveUp => (k.recvWait i giveUp).map (·, [])
  | .recvCopy i => (k.recvCopy i).map (·, [])
  | .shutdown rd wr => (k.shutdown rd wr).map (·, [])
  | .close => k.close.map (·, [])
  | .packetAck seg => (k.packetAck seg).map (·, [])
  | .packetRest => k.packetRest.map (·, [])
  | .thread env => k.tcpThread env

end Glidix.Net
