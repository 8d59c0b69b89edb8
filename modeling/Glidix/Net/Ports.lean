import Mathlib.Data.List.Basic
import Mathlib.Logic.Function.Basic
import Glidix.Lib.Runs
import Glidix.Net.Reassembly

/-!
# Local addresses and ports

The UDP and TCP sockets with their local addresses.  `bind` claims an address by a look at all sockets,
and an implicit `bind` takes a port out of the bitmap of ephemeral ports and claims nothing.  A port is
given back when its socket is closed; for a TCP socket with a thread, when the thread ends.
-/

namespace Glidix.Net

def EACCES : Int32 := 2
def EADDRINUSE : Int32 := 3
def EAFNOSUPPORT : Int32 := 5
def EALREADY : Int32 := 7
def EDESTADDRREQ : Int32 := 17
def EINVAL : Int32 := 28
def EISCONN : Int32 := 30
def EMSGSIZE : Int32 := 35

def INET_SOCKADDR_LEN : ℕ := 28

/-- A `sockaddr_in` or `sockaddr_in6`, with the port in machine order. -/
structure InetName where
  family : Family
  addr : ℕ
  port : ℕ
  deriving DecidableEq

/-- The address is zero. -/
def InetName.isAny (name : InetName) : Bool := name.addr = 0

/-- `SOCK_DGRAM` and `SOCK_STREAM`. -/
inductive SocketType where
  | udp
  | tcp
  deriving DecidableEq

/-- The states of a TCP socket that matter for its name. -/
inductive NameState where
  | closed
  | connecting
  | listening
  deriving DecidableEq

/-- A socket; `sockname` and `peername` are `none` when the family is `AF_UNSPEC`.  A TCP socket with a
thread stays after `close`, until its thread ends. -/
structure NetSocket where
  domain : Family
  type : SocketType
  ifname : List UInt8
  sockname : Option InetName
  peername : Option InetName
  state : NameState
  thread : Bool
  closed : Bool
  deriving DecidableEq

/-- The sockets, and the bitmap of ephemeral ports: bit `portoff % 8` of byte `portoff / 8`. -/
structure NetState where
  sockets : List (Option NetSocket)
  ephports : ℕ → Bool

/-- The port of a socket; zero if it has no name. -/
def NetSocket.port (sock : NetSocket) : ℕ :=
  match sock.sockname with
  | none => 0
  | some name => name.port

/-- The address of another socket blocks a claim. -/
def NetSocket.blocks (sock : NetSocket) (addr : InetName) (ifname : List UInt8) : Bool :=
  match sock.sockname with
  | none => false
  | some other =>
    if ifname ≠ [] ∧ sock.ifname ≠ [] ∧ ifname ≠ sock.ifname then false
    else if addr.isAny then addr.port = other.port
    else if other.isAny then addr.port = other.port
    else if addr.family = other.family then addr.addr = other.addr ∧ addr.port = other.port
    else false

namespace NetState

variable (n : NetState)

def getSocket (fd : ℕ) : Option NetSocket := (n.sockets[fd]?).join

def setSocket (fd : ℕ) (sock : NetSocket) : NetState :=
  { n with sockets := n.sockets.set fd (some sock) }

/-- `ClaimSocketAddr` succeeds. -/
def claimSocketAddr (addr : InetName) (ifname : List UInt8) : Bool :=
  addr.port ≠ 0 ∧ ∀ o ∈ n.sockets, ∀ sock ∈ o, sock.blocks addr ifname = false

/-- `AllocPort`: the first free port, or zero. -/
@[irreducible] def allocPort : ℕ × NetState :=
  match (List.range 16384).find? fun portoff => !n.ephports portoff with
  | some portoff => (49152 + portoff, { n with ephports := Function.update n.ephports portoff true })
  | none => (0, n)

/-- `FreePort` -/
def freePort (port : ℕ) : NetState :=
  if 49152 ≤ port then { n with ephports := Function.update n.ephports (port - 49152) false } else n

/-- `CreateSocket`, with an interface that the socket is bound to. -/
def create (domain : Family) (type : SocketType) (ifname : List UInt8) : NetState :=
  { n with sockets := n.sockets ++ [some ⟨domain, type, ifname, none, none, .closed, false, false⟩] }

/-- What `udpsock_bind` and `tcpsock_bind` check; `addr` is `none` for a family of another kind. -/
def bindError (sock : NetSocket) (addr : Option InetName) (addrlen : ℕ) (root : Bool) : Option Int32 :=
  if addrlen < INET_SOCKADDR_LEN then some EAFNOSUPPORT
  else if sock.type = .tcp ∧ sock.state ≠ .closed then some EAFNOSUPPORT
  else if sock.sockname ≠ none then some EINVAL
  else match addr with
    | none => some EAFNOSUPPORT
    | some addr =>
      if addr.family ≠ sock.domain then some EAFNOSUPPORT
      else if addr.port < 1024 ∧ ¬(sock.type = .udp ∧ addr.port = 0) ∧ root = false then some EACCES
      else if 49152 ≤ addr.port then some EACCES
      else none

/-- The end of `bind`: claim the address. -/
def bindClaim (fd : ℕ) (sock : NetSocket) (addr : InetName) : Option Int32 × NetState :=
  if n.claimSocketAddr addr sock.ifname then (none, n.setSocket fd { sock with sockname := some addr })
  else (some EADDRINUSE, n)

/-- `udpsock_bind` and `tcpsock_bind` -/
def bind (fd : ℕ) (addr : Option InetName) (addrlen : ℕ) (root : Bool) :
    Option (Option Int32 × NetState) := do
  let sock ← n.getSocket fd
  if sock.closed then none
  else match bindError sock addr addrlen root with
    | some e => some (some e, n)
    | none => addr.map fun addr =>
      if sock.type = .udp ∧ addr.port = 0 then
        let r := n.allocPort
        r.2.bindClaim fd sock { addr with port := r.1 }
      else n.bindClaim fd sock addr

/-- The socket gets an ephemeral port if it has no name; `addr` is the address it gets then. -/
def bindImplicit (fd : ℕ) (sock : NetSocket) (addr : ℕ) : NetState :=
  match sock.sockname with
  | some _ => n.setSocket fd sock
  | none =>
    let r := n.allocPort
    r.2.setSocket fd { sock with sockname := some ⟨sock.domain, addr, r.1⟩ }

/-- What `udpsock_connect` and `tcpsock_connect` check. -/
def connectError (sock : NetSocket) (addr : Option InetName) (addrlen : ℕ) : Option Int32 :=
  match sock.type with
  | .udp =>
    if addrlen < INET_SOCKADDR_LEN then some EAFNOSUPPORT
    else if addr.map InetName.family ≠ some sock.domain then some EAFNOSUPPORT
    else none
  | .tcp =>
    if addr.map InetName.family ≠ some sock.domain then some EAFNOSUPPORT
    else if addrlen ≠ INET_SOCKADDR_LEN then some EAFNOSUPPORT
    else if sock.state = .connecting then some EALREADY
    else if sock.state ≠ .closed then some EISCONN
    else none

/-- `udpsock_connect` and `tcpsock_connect`, up to the wait for the connection; `default` is what
`getDefaultAddr4` or `getDefaultAddr6` gives. -/
def connect (fd : ℕ) (addr : Option InetName) (addrlen default : ℕ) :
    Option (Option Int32 × NetState) := do
  let sock ← n.getSocket fd
  if sock.closed then none
  else match connectError sock addr addrlen with
    | some e => some (some e, n)
    | none => some (none, match sock.type with
      | .udp => n.bindImplicit fd { sock with peername := addr } 0
      | .tcp => n.bindImplicit fd
        { sock with peername := addr, state := .connecting, thread := true } default)

/-- What `udpsock_sendto` checks. -/
def sendtoError (sock : NetSocket) (msgsize : ℕ) (addr : Option (Option InetName × ℕ)) :
    Option Int32 :=
  if msgsize > 65528 then some EMSGSIZE
  else match addr with
    | some (addr, addrlen) =>
      if addrlen < INET_SOCKADDR_LEN then some EAFNOSUPPORT
      else if addr.map InetName.family ≠ some sock.domain then some EAFNOSUPPORT
      else none
    | none => if sock.peername = none then some EDESTADDRREQ else none

/-- `udpsock_sendto`, up to the packet; `tcpsock_sendto` does not look at the name. -/
def sendto (fd msgsize : ℕ) (addr : Option (Option InetName × ℕ)) :
    Option (Option Int32 × NetState) := do
  let sock ← n.getSocket fd
  if sock.closed = true ∨ sock.type ≠ .udp then none
  else match sendtoError sock msgsize addr with
    | some e => some (some e, n)
    | none => some (none, n.bindImplicit fd sock 0)

/-- `tcpsock_listen` -/
def listen (fd : ℕ) : Option (Option Int32 × NetState) := do
  let sock ← n.getSocket fd
  if sock.closed = true ∨ sock.type ≠ .tcp then none
  else if sock.state ≠ .closed then some (some EALREADY, n)
  else some (none, n.bindImplicit fd { sock with state := .listening } 0)

/-- `FreeSocket` -/
def freeSocket (fd : ℕ) : NetState := { n with sockets := n.sockets.set fd none }

/-- `udpsock_close` and `tcpsock_close`. -/
def close (fd : ℕ) : Option NetState := do
  let sock ← n.getSocket fd
  if sock.closed then none
  else some (match sock.type with
    | .udp => (n.freePort sock.port).freeSocket fd
    | .tcp => if sock.thread then n.setSocket fd { sock with closed := true } else n.freeSocket fd)

/-- The end of `tcpThread`. -/
def threadEnd (fd : ℕ) : Option NetState := do
  let sock ← n.getSocket fd
  if sock.closed then some ((n.freePort sock.port).freeSocket fd) else none

end NetState

inductive NetOp where
  | create (domain : Family) (type : SocketType) (ifname : List UInt8)
  | bind (fd : ℕ) (addr : Option InetName) (addrlen : ℕ) (root : Bool)
  | connect (fd : ℕ) (addr : Option InetName) (addrlen default : ℕ)
  | sendto (fd msgsize : ℕ) (addr : Option (Option InetName × ℕ))
  | listen (fd : ℕ)
  | close (fd : ℕ)
  | threadEnd (fd : ℕ)
  deriving DecidableEq

def NetState.step (n : NetState) : NetOp → Option NetState
  | .create domain type ifname => some (n.create domain type ifname)
  | .bind fd addr addrlen root => (n.bind fd addr addrlen root).map Prod.snd
  | .connect fd addr addrlen default => (n.connect fd addr addrlen default).map Prod.snd
  | .sendto fd msgsize addr => (n.sendto fd msgsize addr).map Prod.snd
  | .listen fd => (n.listen fd).map Prod.snd
  | .close fd => n.close fd
  | .threadEnd fd => n.threadEnd fd

/-- The state after `initSocket`; `garbage` is what `kmalloc` returned. -/
def netInit (garbage : ℕ → Bool) : NetState := ⟨[], garbage⟩

def netSystem (garbage : ℕ → Bool) : System NetState NetOp where
  init n := n = netInit garbage
  step n op n' := n.step op = some n'

end Glidix.Net
