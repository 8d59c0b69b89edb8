import Glidix.Lib.Runs
import Glidix.Lib.Tally
import Glidix.Net.IpHeader
import Glidix.Net.Ports
import Glidix.Thread.SemaphoreUnits

/-!
# IPv6 UDP sockets

An open UDP socket of the domain `AF_INET6`: its multicast groups, the queue of the datagrams that have
arrived, and the semaphore that counts them.  A step is a section under the lock of the queue or an
access to the semaphore.  Packets come one at a time, since `onTransportPacket` holds the lock of
the list of sockets; calls of `recvfrom` overlap.
-/

namespace Glidix.Net

open Glidix.Thread

def E2BIG : Int32 := 1
def EPIPE : Int32 := 69

def AF_UNSPEC : UInt16 := 0
def AF_INET6 : UInt16 := 3
def IPPROTO_UDP : ℕ := 17
def MCAST_JOIN_GROUP : ℤ := 0
def MCAST_LEAVE_GROUP : ℤ := 1
def MCAST_MAX_GROUPS : ℕ := 256

/-! ## Addresses and datagrams -/

/-- The bytes of an `in6_addr`. -/
abbrev In6Addr := Vector UInt8 16

/-- A `sockaddr_in6`, with the port in network order. -/
structure SockaddrIn6 where
  sin6_family : UInt16
  sin6_port : UInt16
  sin6_flowinfo : UInt32
  sin6_addr : In6Addr
  sin6_scope_id : UInt32
  deriving DecidableEq

def SockaddrIn6.bytes (addr : SockaddrIn6) : List UInt8 :=
  le16 addr.sin6_family.toNat ++ le16 addr.sin6_port.toNat ++ le32 addr.sin6_flowinfo.toNat ++
    addr.sin6_addr.toList ++ le32 addr.sin6_scope_id.toNat

def SockaddrIn6.IsMulticast (addr : SockaddrIn6) : Prop := addr.sin6_addr[0] = 0xFF

instance (addr : SockaddrIn6) : Decidable addr.IsMulticast := inferInstanceAs (Decidable (_ = _))

/-- The addresses of a packet: of the family `AF_INET`, or `AF_INET6`. -/
inductive PacketAddrs where
  | inet (src dest : Vector UInt8 4)
  | inet6 (src dest : SockaddrIn6)
  deriving DecidableEq

def mappedNetwork46 : Vector UInt8 12 := #v[0, 0, 0, 0, 0, 0, 0, 0, 0, 0, 0xFF, 0xFF]

/-- `remapAddress46`; what it does not set stays as it is in `result`. -/
def remapAddress46 (addr : Vector UInt8 4) (result : SockaddrIn6) : SockaddrIn6 :=
  { result with
    sin6_family := AF_INET6
    sin6_addr := mappedNetwork46 ++ addr
    sin6_scope_id := 0 }

/-- The sender of a packet, remapped into `src6` if need be. -/
def PacketAddrs.src (src6 : SockaddrIn6) : PacketAddrs → SockaddrIn6
  | .inet src _ => remapAddress46 src src6
  | .inet6 src _ => src

/-- The destination of a packet, remapped into `dest6` if need be. -/
def PacketAddrs.dest (dest6 : SockaddrIn6) : PacketAddrs → SockaddrIn6
  | .inet _ dest => remapAddress46 dest dest6
  | .inet6 _ dest => dest

def PacketAddrs.havev4addr : PacketAddrs → Bool
  | .inet _ _ => true
  | .inet6 _ _ => false

/-- A datagram with a complete header; the ports are in network order and the length is not. -/
structure UDPPacket where
  srcport : UInt16
  dstport : UInt16
  len : UInt16
  checksum : UInt16
  payload : List UInt8
  deriving DecidableEq

def UDPPacket.size (udp : UDPPacket) : ℕ := 8 + udp.payload.length

/-- The name of a bound socket and a datagram have the same port, and the scope of the name admits it. -/
def SockaddrIn6.Admits (sockname indst : SockaddrIn6) (udp : UDPPacket) : Prop :=
  sockname.sin6_family ≠ AF_UNSPEC ∧
    (sockname.sin6_scope_id = 0 ∨ indst.sin6_scope_id = sockname.sin6_scope_id) ∧
    sockname.sin6_port = udp.dstport

instance (sockname indst : SockaddrIn6) (udp : UDPPacket) : Decidable (sockname.Admits indst udp) :=
  inferInstanceAs (Decidable (_ ∧ _))

/-- The address of a socket is that of the datagram, or any. -/
def SockaddrIn6.covers (sockname indst : SockaddrIn6) (havev4addr : Bool) : Bool :=
  sockname.sin6_addr = Vector.replicate 16 0 ∨ sockname.sin6_addr = indst.sin6_addr ∨ havev4addr

structure UDPGroup where
  addr : In6Addr
  scope : UInt32
  deriving DecidableEq

structure UDPInbound where
  srcaddr : SockaddrIn6
  payload : List UInt8
  deriving DecidableEq

/-- The entry of the queue for a datagram. -/
def inboundOf (src : SockaddrIn6) (udp : UDPPacket) : UDPInbound where
  srcaddr := { src with sin6_port := udp.srcport }
  payload := udp.payload.take (udp.len.toNat - 8)

/-! ## The socket -/

/-- A call of `udpsock_packet` that has accepted its datagram, at the step that comes next. -/
inductive PacketCall where
  | queue (inbound : UDPInbound)
  | signal
  deriving DecidableEq

/-- A call of `udpsock_recvfrom`, at the step that comes next: `semWaitGen`, the section under the lock, or
giving back the unit of a peek. -/
inductive RecvfromCall where
  | wait (len : ℕ) (peek : Bool) (addrlen : Option ℕ)
  | take (len : ℕ) (peek : Bool) (addrlen : Option ℕ)
  | giveBack
  deriving DecidableEq

/-- What happens to a socket from outside. -/
inductive UdpEvent where
  | bound (sockname : SockaddrIn6)
  | joined (group : UDPGroup)
  | left (group : UDPGroup)
  /-- A datagram arrives; `havev4addr` is set when its addresses were remapped. -/
  | arrived (src dest : SockaddrIn6) (havev4addr : Bool) (udp : UDPPacket)
  deriving DecidableEq

/-- The socket; `events` is what has happened, and `received` are the datagrams that were taken out of the
queue. -/
structure UDPSocket where
  sockname : SockaddrIn6
  /-- `SHUT_RD` -/
  shutRd : Bool
  /-- A call has returned without unlocking the queue. -/
  locked : Bool
  counter : SemUnits
  queue : List UDPInbound
  groups : List UDPGroup
  packetCall : Option PacketCall
  recvCalls : List RecvfromCall
  events : List UdpEvent
  received : List UDPInbound
  deriving DecidableEq

def unspecName : SockaddrIn6 := ⟨AF_UNSPEC, 0, 0, Vector.replicate 16 0, 0⟩

def CreateUDPSocket : UDPSocket where
  sockname := unspecName
  shutRd := false
  locked := false
  counter := ⟨0, false⟩
  queue := []
  groups := []
  packetCall := none
  recvCalls := []
  events := []
  received := []

/-- What a step shows. -/
inductive UdpResult where
  /-- The call goes on. -/
  | pending
  | success
  /-- `SOCK_CONT` -/
  | cont
  /-- What `recvfrom` writes to the buffer and to the address. -/
  | datagram (bytes addr : List UInt8)
  /-- The call fails with this `ERRNO`. -/
  | fails (errno : Int32)
  /-- The kernel copies more than there is. -/
  | fault
  deriving DecidableEq

/-- The number of bytes of the address that `recvfrom` writes. -/
def udpAddrLen : Option ℕ → ℕ
  | none => 0
  | some addrlen => min addrlen INET_SOCKADDR_LEN

namespace UDPSocket

variable (p : UDPSocket)

/-- What `bind`, `connect` and `sendto` do with the name of a socket without one. -/
def setName (sockname : SockaddrIn6) : Option (UdpResult × UDPSocket) :=
  if p.sockname.sin6_family ≠ AF_UNSPEC then some (.fails EINVAL, p)
  else some (.success, { p with
    sockname := { sockname with sin6_family := AF_INET6 }
    events := p.events ++ [.bound { sockname with sin6_family := AF_INET6 }] })

def shutdown : Option (UdpResult × UDPSocket) := some (.success, { p with shutRd := true })

def joinGroup (group : UDPGroup) : UdpResult × UDPSocket :=
  if group ∈ p.groups then (.success, { p with events := p.events ++ [.joined group] })
  else if p.groups.length = MCAST_MAX_GROUPS then (.fails E2BIG, p)
  else (.success, { p with groups := p.groups ++ [group], events := p.events ++ [.joined group] })

def leaveGroup (group : UDPGroup) : UdpResult × UDPSocket :=
  let i := p.groups.findIdx (· = group)
  (.success, { p with
    groups := if i = p.groups.length then p.groups else p.groups.take i ++ p.groups.drop (i + 1)
    events := p.events ++ [.left group] })

def udpsock_mcast (op : ℤ) (group : UDPGroup) : Option (UdpResult × UDPSocket) :=
  if p.locked then none
  else if p.shutRd then some (.fails EINVAL, p)
  else if op = MCAST_JOIN_GROUP then some (p.joinGroup group)
  else if op = MCAST_LEAVE_GROUP then some (p.leaveGroup group)
  else some (.fails EINVAL, p)

def sys_mcast (op : ℤ) (scope : UInt32) (addr : In6Addr) : Option (UdpResult × UDPSocket) :=
  if addr[0] ≠ 0xFF then some (.fails EINVAL, p)
  else if op ≠ MCAST_JOIN_GROUP ∧ op ≠ MCAST_LEAVE_GROUP then some (.fails EINVAL, p)
  else p.udpsock_mcast op ⟨addr, scope⟩

/-- The search in the groups; the bytes of a group's address are compared with those at `indst`. -/
def findGroup (indst : SockaddrIn6) : Bool :=
  p.groups.any fun group => group.addr.toList = indst.bytes.take 16 ∧
    (group.scope = indst.sin6_scope_id ∨ group.scope = 0)

/-- The checks of `udpsock_packet`. -/
def accepts (indst : SockaddrIn6) (havev4addr : Bool) (udp : UDPPacket) : Bool :=
  p.sockname.Admits indst udp ∧
    (if indst.IsMulticast then p.findGroup indst else p.sockname.covers indst havev4addr) ∧
    udp.len.toNat ≤ udp.size

/-- `udpsock_packet`, once the addresses are those of a datagram for the domain. -/
def packet6 (src indst : SockaddrIn6) (havev4addr : Bool) (udp : UDPPacket) : UdpResult × UDPSocket :=
  let q := { p with events := p.events ++ [.arrived src indst havev4addr udp] }
  if p.accepts indst havev4addr udp then
    if udp.len.toNat < 8 then (.fault, q)
    else (.pending, { q with packetCall := some (.queue (inboundOf src udp)) })
  else (.cont, q)

/-- `udpsock_packet` up to the allocation of the entry; `src6` and `dest6` are its local variables. -/
def udpsock_packet (addrs : PacketAddrs) (src6 dest6 : SockaddrIn6) (udp : UDPPacket) (proto : ℕ) :
    Option (UdpResult × UDPSocket) :=
  if p.locked ∨ p.packetCall.isSome then none
  else if proto ≠ IPPROTO_UDP then some (.cont, p)
  else if (addrs.dest dest6).sin6_family ≠ AF_INET6 then some (.cont, p)
  else some (p.packet6 (addrs.src src6) (addrs.dest dest6) addrs.havev4addr udp)

/-- `udpsock_packet` appends to the queue, and then signals. -/
def packetGo : Option (UdpResult × UDPSocket) :=
  match p.packetCall with
  | none => none
  | some (.queue inbound) =>
    if p.locked then none
    else some (.pending, { p with queue := p.queue ++ [inbound], packetCall := some .signal })
  | some .signal => (p.counter.signal 1).map fun counter =>
    (.cont, { p with counter, packetCall := none })

def udpsock_recvfrom (len : ℕ) (peek : Bool) (addrlen : Option ℕ) : Option (UdpResult × UDPSocket) :=
  some (.pending, { p with recvCalls := .wait len peek addrlen :: p.recvCalls })

/-- `semWaitGen` returns to `udpsock_recvfrom`; a count of zero comes from a semaphore that was
terminated. -/
def recvWait (i : ℕ) (giveUp : Option GiveUp) : Option (UdpResult × UDPSocket) :=
  match p.recvCalls[i]? with
  | some (.wait len peek addrlen) => (p.counter.waitGen 1 giveUp).map fun r =>
    if r.1 < 0 then (.fails (-r.1), { p with counter := r.2, recvCalls := p.recvCalls.eraseIdx i })
    else (.pending, { p with counter := r.2, recvCalls := p.recvCalls.set i (.take len peek addrlen) })
  | _ => none

/-- The section of `udpsock_recvfrom` under the lock, which stays locked when the queue is empty. -/
def recvTake (i : ℕ) : Option (UdpResult × UDPSocket) :=
  match p.recvCalls[i]? with
  | some (.take len peek addrlen) =>
    if p.locked then none
    else
      match p.queue with
      | [] => some (.fails EPIPE, { p with locked := true, recvCalls := p.recvCalls.eraseIdx i })
      | inbound :: rest =>
        let result : UdpResult :=
          .datagram (inbound.payload.take len) (inbound.srcaddr.bytes.take (udpAddrLen addrlen))
        if peek then some (result, { p with recvCalls := p.recvCalls.set i .giveBack })
        else some (result, { p with
          queue := rest
          recvCalls := p.recvCalls.eraseIdx i
          received := p.received ++ [inbound] })
  | _ => none

/-- A peek "returns" the packet. -/
def recvGiveBack (i : ℕ) : Option (UdpResult × UDPSocket) :=
  match p.recvCalls[i]? with
  | some .giveBack => (p.counter.signal 1).map fun counter =>
    (.success, { p with counter, recvCalls := p.recvCalls.eraseIdx i })
  | _ => none

end UDPSocket

/-- The steps; `i` is the position of a call in progress. -/
inductive UdpOp where
  | setName (sockname : SockaddrIn6)
  | shutdown
  | mcast (op : ℤ) (scope : UInt32) (addr : In6Addr)
  | packet (addrs : PacketAddrs) (src6 dest6 : SockaddrIn6) (udp : UDPPacket) (proto : ℕ)
  | packetGo
  | recvfrom (len : ℕ) (peek : Bool) (addrlen : Option ℕ)
  | recvWait (i : ℕ) (giveUp : Option GiveUp)
  | recvTake (i : ℕ)
  | recvGiveBack (i : ℕ)
  deriving DecidableEq

def UDPSocket.step (p : UDPSocket) : UdpOp → Option (UdpResult × UDPSocket)
  | .setName sockname => p.setName sockname
  | .shutdown => p.shutdown
  | .mcast op scope addr => p.sys_mcast op scope addr
  | .packet addrs src6 dest6 udp proto => p.udpsock_packet addrs src6 dest6 udp proto
  | .packetGo => p.packetGo
  | .recvfrom len peek addrlen => p.udpsock_recvfrom len peek addrlen
  | .recvWait i giveUp => p.recvWait i giveUp
  | .recvTake i => p.recvTake i
  | .recvGiveBack i => p.recvGiveBack i

/-- The runs of a socket that has just been created. -/
def udpSystem : System UDPSocket UdpOp where
  init p := p = CreateUDPSocket
  step p op q := ∃ r, p.step op = some (r, q)

theorem udp_step {p q : UDPSocket} {op : UdpOp} (h : (p.step op).map Prod.snd = some q) :
    udpSystem.step p op q := by
  obtain ⟨⟨r, q'⟩, hs, rfl⟩ := Option.map_eq_some_iff.1 h
  exact ⟨r, hs⟩

end Glidix.Net
