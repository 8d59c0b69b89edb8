import Glidix.Fs.SysMv
import Glidix.Lib.Packed
import Glidix.Net.Ports

/-!
# Copying results to the caller

Three system calls collect a result in a kernel buffer and copy as much of the buffer to the memory of
the process as the process asked for.  What a buffer holds before anything is stored in it is `Garbage`,
a parameter.  A call leaves the same memory whatever the garbage is exactly if each byte that it copies
out was produced (`leaks_nothing_iff`).
-/

namespace Glidix.Net.CopyOut

open Bytes Fs

/-! ## The memory of the process -/

def ADDR_MIN : UInt64 := 0x200000

structure User where
  bytes : UInt64 → UInt8
  readable : UInt64 → Bool
  writable : UInt64 → Bool

namespace User

/-- What is read, without a page fault. -/
def mapped (u : User) : Mapped := fun addr => if u.readable addr then some (u.bytes addr) else none

def put (u : User) (addr : UInt64) (c : UInt8) : User :=
  { u with bytes := Function.update u.bytes addr c }

/-- The check of the range in `memcpy_u2k` and in `memcpy_k2u`. -/
def InRange (start size : UInt64) : Prop :=
  ¬ (start < ADDR_MIN ∨ ADDR_MAX ≤ start) ∧ ¬ (start + size < ADDR_MIN ∨ ADDR_MAX ≤ start + size) ∧
    ¬ start + size < start

instance (start size : UInt64) : Decidable (InRange start size) := inferInstanceAs (Decidable (_ ∧ _))

/-- `rep movsb` from a buffer of the kernel, from byte `i` on; a buffer is `none` where reading it
faults. -/
def movsb (u : User) (dst : UInt64) (src : ℕ → Option UInt8) : (left i : ℕ) → ℤ × User
  | 0, _ => (0, u)
  | left + 1, i =>
    match src i with
    | none => (-1, u)
    | some c =>
      if u.writable (dst + UInt64.ofNat i) then
        movsb (u.put (dst + UInt64.ofNat i) c) dst src left (i + 1)
      else (-1, u)

def memcpy_k2u (u : User) (dst : UInt64) (src : ℕ → Option UInt8) (size : UInt64) : ℤ × User :=
  if size = 0 then (0, u)
  else if ¬ InRange dst size then (-1, u)
  else u.movsb dst src size.toNat 0

/-- The bytes that are copied, unless it returns -1. -/
def memcpy_u2k (u : User) (src size : UInt64) : Option (List UInt8) :=
  if size = 0 then some []
  else if ¬ InRange src size then none
  else if (List.range size.toNat).all fun i => u.readable (src + UInt64.ofNat i) then
    some ((List.range size.toNat).map fun i => u.bytes (src + UInt64.ofNat i))
  else none

end User

/-- The copy of `size` bytes to `dst` gets as far as the address `x`, from a buffer whose bytes are
mapped where `mapped` says. -/
def User.Copied (u : User) (dst : UInt64) (mapped : ℕ → Prop) (size x : UInt64) : Prop :=
  User.InRange dst size ∧ x - dst < size ∧
    ∀ j ≤ (x - dst).toNat, mapped j ∧ u.writable (dst + UInt64.ofNat j)

namespace User

variable {u : User} {dst size x : UInt64} {src : ℕ → Option UInt8} {left i : ℕ}

theorem put_bytes_self (u : User) (x : UInt64) (c : UInt8) : (u.put x c).bytes x = c := by
  simp [put]

theorem put_bytes_ne {a : UInt64} {c : UInt8} (h : x ≠ a) : (u.put a c).bytes x = u.bytes x := by
  simp [put, h]

theorem movsb_frame : (u.movsb dst src left i).2.readable = u.readable ∧
    (u.movsb dst src left i).2.writable = u.writable := by
  induction left generalizing u i with
  | zero => exact ⟨rfl, rfl⟩
  | succ left ih =>
    rw [movsb]
    cases src i with
    | none => exact ⟨rfl, rfl⟩
    | some c =>
      dsimp only
      split_ifs
      · exact ih
      · exact ⟨rfl, rfl⟩

/-- The loop does not come to the byte `x - dst`, or has passed it. -/
theorem movsb_other (hfit : i + left ≤ 2 ^ 64)
    (h : ¬ (i ≤ (x - dst).toNat ∧ (x - dst).toNat < i + left ∧
      ∀ j, i ≤ j → j ≤ (x - dst).toNat → (src j).isSome ∧ u.writable (dst + UInt64.ofNat j))) :
    (u.movsb dst src left i).2.bytes x = u.bytes x := by
  induction left generalizing u i with
  | zero => rfl
  | succ left ih =>
    rw [movsb]
    cases hc : src i with
    | none => rfl
    | some c =>
      dsimp only
      split_ifs with hw
      · have hne : x ≠ dst + UInt64.ofNat i := by
          intro hx
          have hk : (x - dst).toNat = i := by
            rw [hx, UInt64.add_comm, UInt64.add_sub_cancel,
              UInt64.toNat_ofNat_of_lt' (show i < 2 ^ 64 by omega)]
          rw [hk] at h
          refine h ⟨le_rfl, by omega, fun j hj hj' => ?_⟩
          obtain rfl : j = i := le_antisymm hj' hj
          exact ⟨by rw [hc]; rfl, hw⟩
        rw [ih (by omega), put_bytes_ne hne]
        rintro ⟨hi, hlt, hall⟩
        refine h ⟨by omega, by omega, fun j hj hj' => ?_⟩
        rcases Nat.eq_or_lt_of_le hj with rfl | hlt'
        · exact ⟨by rw [hc]; rfl, hw⟩
        · exact hall j hlt' hj'
      · rfl

theorem movsb_copied (hfit : i + left ≤ 2 ^ 64) (hi : i ≤ (x - dst).toNat)
    (hlt : (x - dst).toNat < i + left)
    (hall : ∀ j, i ≤ j → j ≤ (x - dst).toNat → (src j).isSome ∧ u.writable (dst + UInt64.ofNat j)) :
    some ((u.movsb dst src left i).2.bytes x) = src (x - dst).toNat := by
  induction left generalizing u i with
  | zero => omega
  | succ left ih =>
    obtain ⟨hsome, hw⟩ := hall i le_rfl hi
    obtain ⟨c, hc⟩ := Option.isSome_iff_exists.1 hsome
    rw [movsb, hc]
    dsimp only
    rw [if_pos hw]
    rcases Nat.eq_or_lt_of_le hi with heq | hnext
    · have hx : dst + UInt64.ofNat i = x := by
        rw [heq, UInt64.ofNat_toNat, UInt64.add_comm, UInt64.sub_add_cancel]
      rw [movsb_other (by omega) (by omega), ← heq, hc, hx, put_bytes_self]
    · exact ih (by omega) hnext (by omega) fun j hj hj' => hall j (by omega) hj'

theorem memcpy_k2u_frame : (u.memcpy_k2u dst src size).2.readable = u.readable ∧
    (u.memcpy_k2u dst src size).2.writable = u.writable := by
  unfold memcpy_k2u
  split_ifs
  · exact ⟨rfl, rfl⟩
  · exact movsb_frame
  · exact ⟨rfl, rfl⟩

variable {mapped : ℕ → Prop}

theorem memcpy_k2u_copied (hsrc : ∀ j, (src j).isSome ↔ mapped j) (h : u.Copied dst mapped size x) :
    some ((u.memcpy_k2u dst src size).2.bytes x) = src (x - dst).toNat := by
  obtain ⟨hrange, hlt, hall⟩ := h
  have hne : size ≠ 0 := by
    rintro rfl
    exact UInt64.not_lt_zero hlt
  have hsize := size.toNat_lt
  rw [UInt64.lt_iff_toNat_lt] at hlt
  rw [memcpy_k2u, if_neg hne, if_neg (not_not_intro hrange)]
  exact movsb_copied (by omega) (Nat.zero_le _) (by omega) fun j _ hj =>
    ⟨(hsrc j).2 (hall j hj).1, (hall j hj).2⟩

theorem memcpy_k2u_other (hsrc : ∀ j, (src j).isSome ↔ mapped j)
    (h : ¬ u.Copied dst mapped size x) :
    (u.memcpy_k2u dst src size).2.bytes x = u.bytes x := by
  have hsize := size.toNat_lt
  unfold memcpy_k2u
  split_ifs with hzero hrange
  · rfl
  · refine movsb_other (by omega) ?_
    rintro ⟨-, hlt, hall⟩
    refine h ⟨hrange, ?_, fun j hj => ?_⟩
    · rw [UInt64.lt_iff_toNat_lt]
      omega
    · exact ⟨(hsrc j).1 (hall j (Nat.zero_le j) hj).1, (hall j (Nat.zero_le j) hj).2⟩
  · rfl

end User

/-! ## Receiving -/

/-- What memory holds that was allocated or is on the stack, and was not written. -/
structure Garbage where
  message : Bytes
  behind : Bytes
  buf : Bytes
  res : Bytes
  netstat : Bytes

/-- A byte of the stack behind a variable. -/
inductive StackCell where
  | unmapped
  | known (c : UInt8)
  | unwritten
  deriving DecidableEq

/-- `sizeof(struct sockaddr)`. -/
def sizeofSockaddr : ℕ := 110

/-- A packet or message that waits in a socket, and where it came from. -/
structure Inbound where
  payload : List UInt8
  src : List UInt8
  deriving DecidableEq

/-- What a socket does when it is asked to receive: its result, what it stores in the buffer and in the
address, and the size of the address afterwards. -/
structure Received where
  result : ℤ
  message : List UInt8
  addr : List UInt8
  addrlen : Option UInt64
  deriving DecidableEq

def Received.failed (addrlen : Option UInt64) : Received := ⟨-1, [], [], addrlen⟩

/-- The end that all but stream sockets have in common. -/
def recvInbound (inbound : Inbound) (len : UInt64) (addrlen : Option UInt64) : Received :=
  let message := inbound.payload.take len.toNat
  match addrlen with
  | none => ⟨message.length, message, [], none⟩
  | some n =>
    if n.toNat < inbound.src.length then ⟨message.length, message, inbound.src.take n.toNat, some n⟩
    else ⟨message.length, message, inbound.src, some (UInt64.ofNat inbound.src.length)⟩

/-- The sockets, with what `semWaitGen` returns and what is then first in the queue; of a TCP socket,
with the bytes that are fetched, if it returns that many. -/
inductive Socket where
  | raw (status : ℤ) (first : Option Inbound)
  | udp (status : ℤ) (first : Option Inbound)
  | cap (status : ℤ) (first : Option Inbound)
  | unix (seqpacket connected : Bool) (status : ℤ) (msgFirst : Option Inbound)
  | tcp (peername : List UInt8) (sockErr : UInt32) (status : ℤ) (fetched : List UInt8)
  deriving DecidableEq

/-- A raw socket uses the first packet unchecked. -/
def rawsock_recvfrom (status : ℤ) (first : Option Inbound) (len : UInt64) (addrlen : Option UInt64) :
    Option Received :=
  if status < 0 then some (.failed addrlen) else first.map (recvInbound · len addrlen)

def udpsock_recvfrom (status : ℤ) (first : Option Inbound) (len : UInt64) (addrlen : Option UInt64) :
    Option Received :=
  if status < 0 then some (.failed addrlen)
  else
    match first with
    | none => some (.failed addrlen)
    | some inbound => some (recvInbound inbound len addrlen)

def capsock_recvfrom (status : ℤ) (first : Option Inbound) (len : UInt64) (addrlen : Option UInt64) :
    Option Received :=
  udpsock_recvfrom status first len addrlen

def unixsock_recvfrom (seqpacket connected : Bool) (status : ℤ) (msgFirst : Option Inbound)
    (len : UInt64) (addrlen : Option UInt64) : Option Received :=
  if ¬ seqpacket ∨ ¬ connected ∨ status < 0 then some (.failed addrlen)
  else if status = 0 then some ⟨0, [], [], addrlen⟩
  else msgFirst.map (recvInbound · len addrlen)

/-- A TCP socket stores the address of the peer before anything can fail. -/
def tcpsock_recvfrom (peername : List UInt8) (sockErr : UInt32) (status : ℤ) (fetched : List UInt8)
    (flags : ℤ) (addrlen : Option UInt64) : Received :=
  if flags ≠ 0 then .failed addrlen
  else
    let addrlen := addrlen.map fun _ => UInt64.ofNat INET_SOCKADDR_LEN
    if sockErr ≠ 0 ∨ status < 0 then ⟨-1, [], peername, addrlen⟩
    else if status = 0 then ⟨0, [], peername, addrlen⟩
    else ⟨fetched.length, fetched, peername, addrlen⟩

/-- What a file descriptor refers to. -/
inductive Target where
  | noFile
  | notSocket
  | noRecvfrom
  | socket (sock : Socket)
  deriving DecidableEq

/-- `RecvfromSocket`, and the lookup of the file; nothing if the kernel faults. -/
def recvfromSocket (target : Target) (len : UInt64) (flags : ℤ) (addrlen : Option UInt64) :
    Option Received :=
  match target with
  | .noFile => some (.failed addrlen)
  | .notSocket => some (.failed addrlen)
  | .noRecvfrom => some (.failed addrlen)
  | .socket (.raw status first) => rawsock_recvfrom status first len addrlen
  | .socket (.udp status first) => udpsock_recvfrom status first len addrlen
  | .socket (.cap status first) => capsock_recvfrom status first len addrlen
  | .socket (.unix seqpacket connected status msgFirst) =>
    unixsock_recvfrom seqpacket connected status msgFirst len addrlen
  | .socket (.tcp peername sockErr status fetched) =>
    some (tcpsock_recvfrom peername sockErr status fetched flags addrlen)

/-- A buffer can be allocated. -/
def Allocates (size : UInt64) : Prop := size ≠ 0 ∧ size < 0x40000000

instance (size : UInt64) : Decidable (Allocates size) := inferInstanceAs (Decidable (_ ∧ _))

/-- A buffer of this size after this was stored at its start; reading `NULL` faults. -/
def buffer (size : UInt64) (garbage : Bytes) (stored : List UInt8) : ℕ → Option UInt8 := fun k =>
  if Allocates size then some (setRange garbage 0 stored k) else none

/-- `kaddr` and what is behind it on the stack. -/
def kaddr (uaddr stored : List UInt8) (behind : ℕ → StackCell) (garbage : Bytes) : ℕ → Option UInt8 :=
  fun k =>
    if k < sizeofSockaddr then some (setRange (setRange garbage 0 uaddr) 0 stored k)
    else
      match behind k with
      | .unmapped => none
      | .known c => some c
      | .unwritten => some (garbage k)

/-- The arguments of `sys_recvfrom`, what the descriptor refers to, and what is behind `kaddr`. -/
structure RecvfromCall where
  target : Target
  umessage : UInt64
  len : UInt64
  flags : ℤ
  uaddr : UInt64
  uaddrlen : UInt64
  behind : ℕ → StackCell

namespace RecvfromCall

variable (c : RecvfromCall) (u : User)

/-- The address and its size as they are copied in; nothing if the call fails there. -/
def copiedIn : Option (List UInt8 × Option UInt64) :=
  match if c.uaddr ≠ 0 then u.memcpy_u2k c.uaddr 110 else some [] with
  | none => none
  | some addr =>
    if c.uaddrlen ≠ 0 then
      (u.memcpy_u2k c.uaddrlen 8).map fun l => (addr, some (UInt64.ofNat (leAt 0 8 l)))
    else some (addr, none)

/-- The message is copied out. -/
def copyMessage (r : Received) (g : Garbage) : User :=
  if c.umessage ≠ 0 then (u.memcpy_k2u c.umessage (buffer c.len g.message r.message) c.len).2 else u

/-- The address is copied out. -/
def copyAddr (addr : List UInt8) (r : Received) (g : Garbage) : User :=
  match r.addrlen with
  | none => u
  | some n =>
    if c.uaddr ≠ 0 then (u.memcpy_k2u c.uaddr (kaddr addr r.addr c.behind g.behind) n).2 else u

/-- The size of the address is copied out. -/
def copyAddrlen (r : Received) : User :=
  match r.addrlen with
  | none => u
  | some n => (u.memcpy_k2u c.uaddrlen (fun k => (leBytes 8 n.toNat)[k]?) 8).2

/-- `sys_recvfrom`; nothing if the kernel faults. -/
def run (g : Garbage) : Option (ℤ × User) :=
  match c.copiedIn u with
  | none => some (-1, u)
  | some (addr, addrlen) =>
    match recvfromSocket c.target c.len c.flags addrlen with
    | none => none
    | some r =>
      if r.message ≠ [] ∧ ¬ Allocates c.len then none
      else some (r.result, c.copyAddrlen (c.copyAddr (c.copyMessage u r g) addr r g) r)

end RecvfromCall

/-! ## Interfaces -/

/-- `sizeof(NetIfConfig)`. -/
def sizeofNetIfConfig : ℕ := 64

/-- `sizeof(NetStat)`. -/
def sizeofNetStat : ℕ := 1032

/-- `IPNetIfAddr4` or `IPNetIfAddr6`, with addresses of `n` bytes. -/
structure IPNetIfAddr (n : ℕ) where
  addr : Fin n → UInt8
  mask : Fin n → UInt8
  domain : UInt32

def IPNetIfAddr.toBytes {n : ℕ} (a : IPNetIfAddr n) : List UInt8 :=
  List.ofFn a.addr ++ List.ofFn a.mask ++ leBytes 4 a.domain.toNat

structure NetIf where
  name : List Char
  name_lt : name.length < 16
  numTrans : UInt32
  numRecv : UInt32
  numDropped : UInt32
  numErrors : UInt32
  ifconfig : Fin sizeofNetIfConfig → UInt8
  addrs4 : List (IPNetIfAddr 4)
  addrs6 : List (IPNetIfAddr 16)
  scopeID : UInt32

/-- The first interface of the list with this name. -/
def findNetIf (iflist : List NetIf) (ifname : List Char) : Option NetIf :=
  iflist.find? fun netif => netif.name = ifname

/-- The fields of a `NetStat` that are filled in, with their places. -/
def NetIf.statFields (netif : NetIf) : List (ℕ × List UInt8) :=
  [(0, netif.name.map (fun c => UInt8.ofNat c.toNat) ++ [0]),
    (16, pack [(4, netif.numTrans.toNat), (4, netif.numRecv.toNat), (4, netif.numDropped.toNat),
      (4, netif.numErrors.toNat), (4, netif.addrs4.length), (4, netif.addrs6.length)]),
    (40, List.ofFn netif.ifconfig), (1024, leBytes 4 netif.scopeID.toNat)]

/-- `netconf_stat`: the result, and what is stored in the buffer. -/
def netconf_stat (iflist : List NetIf) (ifname : List Char) (size : UInt64) (netstat : Bytes) :
    ℤ × List UInt8 :=
  match findNetIf iflist ifname with
  | none => (-1, [])
  | some netif =>
    let size := min size.toNat sizeofNetStat
    (size, slice (netif.statFields.foldl (fun b f => setRange b f.1 f.2) netstat) 0 size)

def AF_INET : ℤ := 2
def AF_INET6 : ℤ := 3

/-- `netconf_getaddrs`: the result, and what is stored in the buffer. -/
def netconf_getaddrs (iflist : List NetIf) (ifname : List Char) (family : ℤ) (bufsiz : UInt64) :
    ℤ × List UInt8 :=
  if family ≠ AF_INET ∧ family ≠ AF_INET6 then (-1, [])
  else
    match findNetIf iflist ifname with
    | none => (-1, [])
    | some netif =>
      let addrs := if family = AF_INET then netif.addrs4.flatMap (·.toBytes)
        else netif.addrs6.flatMap (·.toBytes)
      let stored := addrs.take bufsiz.toNat
      (stored.length, stored)

/-- The arguments of `sys_netconf_stat`. -/
structure StatCall where
  iflist : List NetIf
  ua : UInt64
  b : UInt64
  c : UInt64

/-- `c` after `sys_netconf_stat` has limited it. -/
def StatCall.size (call : StatCall) : UInt64 :=
  if UInt64.ofNat sizeofNetStat < call.c then UInt64.ofNat sizeofNetStat else call.c

/-- `sys_netconf_stat`. -/
def StatCall.run (call : StatCall) (u : User) (g : Garbage) : Option (ℤ × User) :=
  match strcpy_u2k u.mapped stringFuel call.ua with
  | none => some (-1, u)
  | some a =>
    let (result, stored) := netconf_stat call.iflist a call.size g.netstat
    let res := setRange g.res 0 stored
    some (result, (u.memcpy_k2u call.b (fun k => some (res k)) call.size).2)

/-- The arguments of `sys_netconf_getaddrs`. -/
structure GetaddrsCall where
  iflist : List NetIf
  ua : UInt64
  b : ℤ
  c : UInt64
  d : UInt64

/-- `sys_netconf_getaddrs`; nothing if the kernel faults. -/
def GetaddrsCall.run (call : GetaddrsCall) (u : User) (g : Garbage) : Option (ℤ × User) :=
  match strcpy_u2k u.mapped stringFuel call.ua with
  | none => some (-1, u)
  | some a =>
    let (result, stored) := netconf_getaddrs call.iflist a call.b call.d
    if stored ≠ [] ∧ ¬ Allocates call.d then none
    else some (result, (u.memcpy_k2u call.c (buffer call.d g.buf stored) call.d).2)

/-! ## Bytes that were produced -/

namespace RecvfromCall

variable (c : RecvfromCall) (u : User) (r : Received) (x : UInt64)

def MessageCopied : Prop :=
  c.umessage ≠ 0 ∧ u.Copied c.umessage (fun _ => Allocates c.len) c.len x

def AddrCopied : Prop :=
  ∃ n ∈ r.addrlen, c.uaddr ≠ 0 ∧
    u.Copied c.uaddr (fun k => k < sizeofSockaddr ∨ c.behind k ≠ .unmapped) n x

def AddrlenCopied : Prop := r.addrlen ≠ none ∧ u.Copied c.uaddrlen (· < 8) 8 x

/-- Unless the kernel faults, each byte of the process was produced when it is copied out for the last
time: it belongs to the size of the address, to the address, to bytes behind it that were written, or to
the message that was received. -/
def Clean : Prop :=
  ∀ addr addrlen r, c.copiedIn u = some (addr, addrlen) →
    recvfromSocket c.target c.len c.flags addrlen = some r → r.message = [] ∨ Allocates c.len →
    ∀ x, ¬ c.AddrlenCopied u r x →
      (c.AddrCopied u r x →
        (x - c.uaddr).toNat < sizeofSockaddr ∨ c.behind (x - c.uaddr).toNat ≠ .unwritten) ∧
      (¬ c.AddrCopied u r x → c.MessageCopied u x → (x - c.umessage).toNat < r.message.length)

end RecvfromCall

/-- If the name can be read, each byte that is copied out belongs to a field of an interface. -/
def StatCall.Clean (call : StatCall) (u : User) : Prop :=
  ∀ a, strcpy_u2k u.mapped stringFuel call.ua = some a →
    ∀ x, u.Copied call.b (fun _ => True) call.size x →
      ∃ netif ∈ findNetIf call.iflist a, ∃ f ∈ netif.statFields,
        f.1 ≤ (x - call.b).toNat ∧ (x - call.b).toNat < f.1 + f.2.length

/-- If the name can be read, each byte that is copied out belongs to an address of an interface. -/
def GetaddrsCall.Clean (call : GetaddrsCall) (u : User) : Prop :=
  ∀ a, strcpy_u2k u.mapped stringFuel call.ua = some a →
    ∀ x, u.Copied call.c (fun _ => Allocates call.d) call.d x → ∃ netif ∈ findNetIf call.iflist a,
      (call.b = AF_INET ∧ (x - call.c).toNat < 12 * netif.addrs4.length) ∨
        (call.b = AF_INET6 ∧ (x - call.c).toNat < 36 * netif.addrs6.length)

/-- One of the three calls. -/
inductive Call where
  | recvfrom (c : RecvfromCall)
  | netconf_stat (c : StatCall)
  | netconf_getaddrs (c : GetaddrsCall)

def Call.run : Call → User → Garbage → Option (ℤ × User)
  | .recvfrom c => c.run
  | .netconf_stat c => c.run
  | .netconf_getaddrs c => c.run

def Call.Clean : Call → User → Prop
  | .recvfrom c => c.Clean
  | .netconf_stat c => c.Clean
  | .netconf_getaddrs c => c.Clean

/-- What the call leaves does not depend on the garbage. -/
def Call.LeaksNothing (call : Call) (u : User) : Prop := ∀ g g', call.run u g = call.run u g'

/-- Garbage of one byte; for two bytes it agrees nowhere. -/
def filled (c : UInt8) : Garbage := ⟨fun _ => c, fun _ => c, fun _ => c, fun _ => c, fun _ => c⟩

/-- Each byte of the process is known or garbage: the memory is the same for all garbage exactly if all
bytes are known. -/
theorem same_iff {after : Garbage → User} {known : UInt64 → Prop}
    (hframe : ∀ g g', (after g).readable = (after g').readable ∧ (after g).writable = (after g').writable)
    (hknown : ∀ x, known x → ∀ g g', (after g).bytes x = (after g').bytes x)
    (hgarbage : ∀ x, ¬ known x → ∀ c, (after (filled c)).bytes x = c) :
    (∀ g g', after g = after g') ↔ ∀ x, known x := by
  constructor
  · intro h x
    by_contra hx
    have hzero := hgarbage x hx 0
    rw [h (filled 0) (filled 1), hgarbage x hx 1] at hzero
    exact absurd hzero (by decide)
  · intro h g g'
    obtain ⟨hreadable, hwritable⟩ := hframe g g'
    have hbytes : (after g).bytes = (after g').bytes := funext fun x => hknown x (h x) g g'
    calc after g = ⟨(after g).bytes, (after g).readable, (after g).writable⟩ := rfl
      _ = ⟨(after g').bytes, (after g').readable, (after g').writable⟩ := by
        rw [hbytes, hreadable, hwritable]

theorem isSome_buffer {size : UInt64} {garbage : Bytes} {stored : List UInt8} (k : ℕ) :
    (buffer size garbage stored k).isSome ↔ Allocates size := by
  unfold buffer
  split_ifs with h
  · exact ⟨fun _ => h, fun _ => rfl⟩
  · exact ⟨fun hsome => absurd hsome (by decide), fun hsize => absurd hsize h⟩

/-- What was stored in a buffer does not depend on the garbage; the rest is garbage. -/
theorem buffer_stored {size : UInt64} {garbage garbage' : Bytes} {stored : List UInt8} {k : ℕ}
    (hk : k < stored.length) : buffer size garbage stored k = buffer size garbage' stored k := by
  unfold buffer
  rw [setRange_of_mem (Nat.zero_le k) (by omega), setRange_of_mem (Nat.zero_le k) (by omega)]

theorem buffer_rest {size : UInt64} {garbage : Bytes} {stored : List UInt8} {k : ℕ}
    (hsize : Allocates size) (hk : ¬ k < stored.length) :
    buffer size garbage stored k = some (garbage k) := by
  rw [buffer, if_pos hsize, setRange_of_notMem (by omega)]

section Fields

variable {fields : List (ℕ × List UInt8)} {b b' : Bytes} {k : ℕ}

/-- A byte that no field covers is not changed when fields are filled in. -/
theorem foldl_setRange_other (h : ¬ ∃ f ∈ fields, f.1 ≤ k ∧ k < f.1 + f.2.length) :
    fields.foldl (fun b f => setRange b f.1 f.2) b k = b k := by
  induction fields generalizing b with
  | nil => rfl
  | cons f fields ih =>
    rw [List.exists_mem_cons_iff, not_or] at h
    rw [List.foldl_cons, ih h.2]
    exact setRange_of_notMem (by omega)

theorem foldl_setRange_covered (h : ∃ f ∈ fields, f.1 ≤ k ∧ k < f.1 + f.2.length) :
    fields.foldl (fun b f => setRange b f.1 f.2) b k =
      fields.foldl (fun b f => setRange b f.1 f.2) b' k := by
  induction fields generalizing b b' with
  | nil => simp at h
  | cons f fields ih =>
    rw [List.foldl_cons, List.foldl_cons]
    by_cases hlater : ∃ f ∈ fields, f.1 ≤ k ∧ k < f.1 + f.2.length
    · exact ih hlater
    · rw [List.exists_mem_cons_iff] at h
      obtain ⟨hlow, hhigh⟩ := h.resolve_right hlater
      rw [foldl_setRange_other hlater, foldl_setRange_other hlater, setRange_of_mem hlow (by omega),
        setRange_of_mem hlow (by omega)]

end Fields

namespace StatCall

variable {call : StatCall} {u : User} {a : List Char} {k : ℕ}

/-- The bytes of `res` after `netconf_stat`. -/
def resBytes (call : StatCall) (a : List Char) (g : Garbage) : Bytes :=
  setRange g.res 0 (netconf_stat call.iflist a call.size g.netstat).2

theorem size_le (call : StatCall) : call.size.toNat ≤ sizeofNetStat := by
  unfold size
  split_ifs with h
  · exact le_rfl
  · exact UInt64.le_iff_toNat_le.1 (UInt64.not_lt.1 h)

/-- A byte of `res` that may be copied out is a byte of `netstat`, or of `res` before if there is no such
interface. -/
theorem resBytes_eq (g : Garbage) (hk : k < call.size.toNat) : call.resBytes a g k =
    match findNetIf call.iflist a with
    | none => g.res k
    | some netif => netif.statFields.foldl (fun b f => setRange b f.1 f.2) g.netstat k := by
  unfold resBytes netconf_stat
  cases findNetIf call.iflist a with
  | none => exact setRange_of_notMem (by simp)
  | some netif =>
    have hmin : min call.size.toNat sizeofNetStat = call.size.toNat := min_eq_left call.size_le
    dsimp only
    rw [hmin, setRange_of_mem (Nat.zero_le k) (by rw [length_slice]; omega)]
    simp [slice]

theorem leaksNothing_iff : (∀ g g', call.run u g = call.run u g') ↔ call.Clean u := by
  unfold run Clean
  cases hname : strcpy_u2k u.mapped stringFuel call.ua with
  | none => simp
  | some a =>
    have hresult (g g' : Garbage) : (netconf_stat call.iflist a call.size g.netstat).1 =
        (netconf_stat call.iflist a call.size g'.netstat).1 := by
      unfold netconf_stat
      cases findNetIf call.iflist a <;> rfl
    have hmapped (g : Garbage) (j : ℕ) : (some (call.resBytes a g j)).isSome ↔ True := by simp
    have hiff : (∀ g g', (u.memcpy_k2u call.b (fun k => some (call.resBytes a g k)) call.size).2 =
        (u.memcpy_k2u call.b (fun k => some (call.resBytes a g' k)) call.size).2) ↔
        ∀ x, u.Copied call.b (fun _ => True) call.size x →
          ∃ netif ∈ findNetIf call.iflist a, ∃ f ∈ netif.statFields,
            f.1 ≤ (x - call.b).toNat ∧ (x - call.b).toNat < f.1 + f.2.length := by
      apply same_iff
      · intro g g'
        rw [User.memcpy_k2u_frame.1, User.memcpy_k2u_frame.1, User.memcpy_k2u_frame.2,
          User.memcpy_k2u_frame.2]
        exact ⟨rfl, rfl⟩
      · intro x hx g g'
        by_cases hcopied : u.Copied call.b (fun _ => True) call.size x
        · obtain ⟨netif, hfound, hfield⟩ := hx hcopied
          have hk := UInt64.lt_iff_toNat_lt.1 hcopied.2.1
          apply Option.some.inj
          rw [User.memcpy_k2u_copied (hmapped g) hcopied, User.memcpy_k2u_copied (hmapped g') hcopied,
            resBytes_eq g hk, resBytes_eq g' hk, Option.mem_def.1 hfound]
          exact congrArg some (foldl_setRange_covered hfield)
        · rw [User.memcpy_k2u_other (hmapped g) hcopied, User.memcpy_k2u_other (hmapped g') hcopied]
      · intro x hx c
        rw [Classical.not_imp] at hx
        obtain ⟨hcopied, hrest⟩ := hx
        apply Option.some.inj
        rw [User.memcpy_k2u_copied (hmapped _) hcopied,
          resBytes_eq _ (UInt64.lt_iff_toNat_lt.1 hcopied.2.1)]
        cases hfound : findNetIf call.iflist a with
        | none => rfl
        | some netif =>
          exact congrArg some (foldl_setRange_other fun hfield => hrest ⟨netif, hfound, hfield⟩)
    simp only [Option.some.injEq, forall_eq']
    rw [← hiff]
    refine forall_congr' fun g => forall_congr' fun g' => ?_
    rw [Prod.mk.injEq]
    exact and_iff_right (hresult g g')

end StatCall

namespace GetaddrsCall

theorem length_toBytes {n : ℕ} (a : IPNetIfAddr n) : a.toBytes.length = 2 * n + 4 := by
  simp [IPNetIfAddr.toBytes]
  omega

theorem length_addrs {n : ℕ} (addrs : List (IPNetIfAddr n)) :
    (addrs.flatMap (·.toBytes)).length = (2 * n + 4) * addrs.length := by
  induction addrs with
  | nil => rfl
  | cons a addrs ih =>
    rw [List.flatMap_cons, List.length_append, ih, length_toBytes, List.length_cons, Nat.mul_succ,
      Nat.add_comm]

variable {call : GetaddrsCall} {u : User}

/-- The bytes that are stored, among those that are copied out. -/
theorem stored_iff {a : List Char} {k : ℕ} (hk : k < call.d.toNat) :
    k < (netconf_getaddrs call.iflist a call.b call.d).2.length ↔
      ∃ netif ∈ findNetIf call.iflist a, (call.b = AF_INET ∧ k < 12 * netif.addrs4.length) ∨
        (call.b = AF_INET6 ∧ k < 36 * netif.addrs6.length) := by
  have hne : ¬ AF_INET6 = AF_INET := by decide
  unfold netconf_getaddrs
  cases findNetIf call.iflist a with
  | none => split_ifs <;> simp
  | some netif =>
    simp only [Option.mem_def, Option.some.injEq, exists_eq_left']
    split_ifs with hfamily hinet
    · simp [hfamily.1, hfamily.2]
    · rw [List.length_take, length_addrs]
      simp only [hinet, true_and, hne.imp Eq.symm, false_and, or_false]
      omega
    · have h6 : call.b = AF_INET6 := by
        by_contra h6
        exact hfamily ⟨hinet, h6⟩
      rw [List.length_take, length_addrs]
      simp only [h6, hne, true_and, false_and, false_or]
      omega

theorem leaksNothing_iff : (∀ g g', call.run u g = call.run u g') ↔ call.Clean u := by
  unfold run Clean
  cases hname : strcpy_u2k u.mapped stringFuel call.ua with
  | none => simp
  | some a =>
    simp only [Option.some.injEq, forall_eq']
    set stored := (netconf_getaddrs call.iflist a call.b call.d).2 with hstored
    by_cases hfault : stored ≠ [] ∧ ¬ Allocates call.d
    · simp only [if_pos hfault, implies_true, true_iff]
      intro x hx
      exact absurd (hx.2.2 0 (Nat.zero_le _)).1 hfault.2
    · simp only [if_neg hfault, Option.some.injEq, Prod.mk.injEq, true_and]
      apply same_iff
      · intro g g'
        rw [User.memcpy_k2u_frame.1, User.memcpy_k2u_frame.1, User.memcpy_k2u_frame.2,
          User.memcpy_k2u_frame.2]
        exact ⟨rfl, rfl⟩
      · intro x hx g g'
        by_cases hcopied : u.Copied call.c (fun _ => Allocates call.d) call.d x
        · apply Option.some.inj
          rw [User.memcpy_k2u_copied isSome_buffer hcopied, User.memcpy_k2u_copied isSome_buffer hcopied]
          exact buffer_stored ((stored_iff (UInt64.lt_iff_toNat_lt.1 hcopied.2.1)).2 (hx hcopied))
        · rw [User.memcpy_k2u_other isSome_buffer hcopied, User.memcpy_k2u_other isSome_buffer hcopied]
      · intro x hx c
        rw [Classical.not_imp] at hx
        obtain ⟨hcopied, hrest⟩ := hx
        apply Option.some.inj
        rw [User.memcpy_k2u_copied isSome_buffer hcopied]
        rw [← stored_iff (UInt64.lt_iff_toNat_lt.1 hcopied.2.1)] at hrest
        exact buffer_rest (hcopied.2.2 0 (Nat.zero_le _)).1 hrest

end GetaddrsCall

namespace RecvfromCall

variable {c : RecvfromCall} {u v : User} {addr : List UInt8} {r : Received} {g g' : Garbage} {x : UInt64}

theorem length_memcpy_u2k {src size : UInt64} {l : List UInt8} (h : u.memcpy_u2k src size = some l) :
    l.length = size.toNat := by
  unfold User.memcpy_u2k at h
  split_ifs at h with hzero hrange hreadable
  · obtain rfl := Option.some.inj h
    rw [hzero]
    rfl
  · obtain rfl := Option.some.inj h
    rw [List.length_map, List.length_range]

theorem copyMessage_frame : (c.copyMessage u r g).readable = u.readable ∧
    (c.copyMessage u r g).writable = u.writable := by
  unfold copyMessage
  split_ifs
  · exact User.memcpy_k2u_frame
  · exact ⟨rfl, rfl⟩

theorem copyAddr_frame : (c.copyAddr u addr r g).readable = u.readable ∧
    (c.copyAddr u addr r g).writable = u.writable := by
  unfold copyAddr
  split
  · exact ⟨rfl, rfl⟩
  · split_ifs
    · exact User.memcpy_k2u_frame
    · exact ⟨rfl, rfl⟩

theorem copyAddrlen_frame : (c.copyAddrlen u r).readable = u.readable ∧
    (c.copyAddrlen u r).writable = u.writable := by
  unfold copyAddrlen
  split
  · exact ⟨rfl, rfl⟩
  · exact User.memcpy_k2u_frame

theorem isSome_kaddr {behind : ℕ → StackCell} {garbage : Bytes} {stored : List UInt8} (k : ℕ) :
    (kaddr addr stored behind garbage k).isSome ↔ k < sizeofSockaddr ∨ behind k ≠ .unmapped := by
  unfold kaddr
  split_ifs with hk
  · simp [hk]
  · cases behind k <;> simp [hk]

/-- Where the process can be written does not change. -/
theorem copied_congr {dst size : UInt64} {mapped : ℕ → Prop} (h : v.writable = u.writable) :
    v.Copied dst mapped size x ↔ u.Copied dst mapped size x := by
  unfold User.Copied
  rw [h]

theorem copyMessage_copied (h : c.MessageCopied u x) : some ((c.copyMessage u r g).bytes x) =
    buffer c.len g.message r.message (x - c.umessage).toNat := by
  rw [copyMessage, if_pos h.1]
  exact User.memcpy_k2u_copied isSome_buffer h.2

theorem copyMessage_other (h : ¬ c.MessageCopied u x) : (c.copyMessage u r g).bytes x = u.bytes x := by
  unfold copyMessage
  split_ifs with hnull
  · exact User.memcpy_k2u_other isSome_buffer fun hcopied => h ⟨hnull, hcopied⟩
  · rfl

theorem copyAddr_copied (h : c.AddrCopied u r x) (hv : v.writable = u.writable) :
    some ((c.copyAddr v addr r g).bytes x) =
      kaddr addr r.addr c.behind g.behind (x - c.uaddr).toNat := by
  obtain ⟨n, hn, hnull, hcopied⟩ := h
  rw [copyAddr, Option.mem_def.1 hn]
  dsimp only
  rw [if_pos hnull]
  exact User.memcpy_k2u_copied isSome_kaddr ((copied_congr hv).2 hcopied)

theorem copyAddr_other (h : ¬ c.AddrCopied u r x) (hv : v.writable = u.writable) :
    (c.copyAddr v addr r g).bytes x = v.bytes x := by
  unfold copyAddr
  cases hn : r.addrlen with
  | none => rfl
  | some n =>
    dsimp only
    split_ifs with hnull
    · refine User.memcpy_k2u_other isSome_kaddr fun hcopied => h ⟨n, hn, hnull, ?_⟩
      exact (copied_congr hv).1 hcopied
    · rfl

theorem isSome_leBytes (v j : ℕ) : ((leBytes 8 v)[j]?).isSome ↔ j < 8 := by
  simp

theorem copyAddrlen_copied (h : c.AddrlenCopied u r x) (hv : v.writable = u.writable)
    {v' : User} (hv' : v'.writable = u.writable) :
    (c.copyAddrlen v r).bytes x = (c.copyAddrlen v' r).bytes x := by
  obtain ⟨hnone, hcopied⟩ := h
  obtain ⟨n, hn⟩ := Option.ne_none_iff_exists'.1 hnone
  unfold copyAddrlen
  rw [hn]
  apply Option.some.inj
  dsimp only
  rw [User.memcpy_k2u_copied (isSome_leBytes _) ((copied_congr hv).2 hcopied),
    User.memcpy_k2u_copied (isSome_leBytes _) ((copied_congr hv').2 hcopied)]

theorem copyAddrlen_other (h : ¬ c.AddrlenCopied u r x) (hv : v.writable = u.writable) :
    (c.copyAddrlen v r).bytes x = v.bytes x := by
  unfold copyAddrlen
  cases hn : r.addrlen with
  | none => rfl
  | some n =>
    refine User.memcpy_k2u_other (isSome_leBytes _) fun hcopied => h ⟨?_, (copied_congr hv).1 hcopied⟩
    rw [hn]
    exact Option.some_ne_none n

/-- What the call leaves, if it gets that far. -/
def after (c : RecvfromCall) (u : User) (addr : List UInt8) (r : Received) (g : Garbage) : User :=
  c.copyAddrlen (c.copyAddr (c.copyMessage u r g) addr r g) r

theorem after_frame : (c.after u addr r g).readable = u.readable ∧
    (c.after u addr r g).writable = u.writable := by
  rw [after, copyAddrlen_frame.1, copyAddr_frame.1, copyMessage_frame.1, copyAddrlen_frame.2,
    copyAddr_frame.2, copyMessage_frame.2]
  exact ⟨rfl, rfl⟩

/-- The address is copied in if it is copied out. -/
theorem length_addr {addrlen : Option UInt64} (h : c.copiedIn u = some (addr, addrlen))
    (hnull : c.uaddr ≠ 0) : addr.length = sizeofSockaddr := by
  rw [copiedIn, if_pos hnull] at h
  cases haddr : u.memcpy_u2k c.uaddr 110 with
  | none =>
    rw [haddr] at h
    contradiction
  | some l =>
    rw [haddr] at h
    dsimp only at h
    have hlength : l.length = sizeofSockaddr := length_memcpy_u2k haddr
    split_ifs at h
    · obtain ⟨n, -, hn⟩ := Option.map_eq_some_iff.1 h
      obtain ⟨rfl, -⟩ := Prod.mk.inj hn
      exact hlength
    · obtain ⟨rfl, -⟩ := Prod.mk.inj (Option.some.inj h)
      exact hlength

theorem kaddr_known {stored : List UInt8} {behind : ℕ → StackCell} {garbage garbage' : Bytes} {k : ℕ}
    (haddr : addr.length = sizeofSockaddr) (hk : k < sizeofSockaddr ∨ behind k ≠ .unwritten) :
    kaddr addr stored behind garbage k = kaddr addr stored behind garbage' k := by
  unfold kaddr
  split_ifs with hlt
  · congr 1
    by_cases hstored : k < stored.length
    · rw [setRange_of_mem (Nat.zero_le k) (by omega), setRange_of_mem (Nat.zero_le k) (by omega)]
    · have hrest : ¬ (0 ≤ k ∧ k - 0 < stored.length) := by omega
      rw [setRange_of_notMem hrest, setRange_of_notMem hrest, setRange_of_mem (Nat.zero_le k) (by omega),
        setRange_of_mem (Nat.zero_le k) (by omega)]
  · cases hbehind : behind k with
    | unmapped => rfl
    | known b => rfl
    | unwritten => exact absurd hbehind (hk.resolve_left hlt)

theorem kaddr_unwritten {stored : List UInt8} {behind : ℕ → StackCell} {garbage : Bytes} {k : ℕ}
    (hk : ¬ (k < sizeofSockaddr ∨ behind k ≠ .unwritten)) :
    kaddr addr stored behind garbage k = some (garbage k) := by
  rw [not_or, not_not] at hk
  rw [kaddr, if_neg hk.1, hk.2]

theorem after_same_iff (haddr : c.uaddr ≠ 0 → addr.length = sizeofSockaddr) :
    (∀ g g', c.after u addr r g = c.after u addr r g') ↔ ∀ x, ¬ c.AddrlenCopied u r x →
      (c.AddrCopied u r x →
        (x - c.uaddr).toNat < sizeofSockaddr ∨ c.behind (x - c.uaddr).toNat ≠ .unwritten) ∧
      (¬ c.AddrCopied u r x → c.MessageCopied u x →
        (x - c.umessage).toNat < r.message.length) := by
  have hmessage (g : Garbage) : (c.copyMessage u r g).writable = u.writable := copyMessage_frame.2
  have hboth (g : Garbage) : (c.copyAddr (c.copyMessage u r g) addr r g).writable = u.writable := by
    rw [copyAddr_frame.2, hmessage]
  apply same_iff
  · intro g g'
    rw [after_frame.1, after_frame.1, after_frame.2, after_frame.2]
    exact ⟨rfl, rfl⟩
  · intro x hx g g'
    by_cases hlen : c.AddrlenCopied u r x
    · exact copyAddrlen_copied hlen (hboth g) (hboth g')
    rw [after, after, copyAddrlen_other hlen (hboth g), copyAddrlen_other hlen (hboth g')]
    by_cases hcopied : c.AddrCopied u r x
    · apply Option.some.inj
      rw [copyAddr_copied hcopied (hmessage g), copyAddr_copied hcopied (hmessage g')]
      obtain ⟨n, -, hnull, -⟩ := id hcopied
      exact kaddr_known (haddr hnull) ((hx hlen).1 hcopied)
    rw [copyAddr_other hcopied (hmessage g), copyAddr_other hcopied (hmessage g')]
    by_cases hmsg : c.MessageCopied u x
    · apply Option.some.inj
      rw [copyMessage_copied hmsg, copyMessage_copied hmsg]
      exact buffer_stored ((hx hlen).2 hcopied hmsg)
    · rw [copyMessage_other hmsg, copyMessage_other hmsg]
  · intro x hx b
    rw [Classical.not_imp, not_and_or] at hx
    obtain ⟨hlen, hx⟩ := hx
    rw [after, copyAddrlen_other hlen (hboth _)]
    apply Option.some.inj
    rcases hx with hbehind | hrest
    · rw [Classical.not_imp] at hbehind
      rw [copyAddr_copied hbehind.1 (hmessage _)]
      exact kaddr_unwritten hbehind.2
    · rw [Classical.not_imp, Classical.not_imp] at hrest
      obtain ⟨hcopied, hmsg, hrest⟩ := hrest
      rw [copyAddr_other hcopied (hmessage _), copyMessage_copied hmsg]
      exact buffer_rest (hmsg.2.2.2 0 (Nat.zero_le _)).1 hrest

theorem leaksNothing_iff : (∀ g g', c.run u g = c.run u g') ↔ c.Clean u := by
  unfold run Clean
  cases hin : c.copiedIn u with
  | none => simp
  | some p =>
    obtain ⟨addr, addrlen⟩ := p
    simp only [Option.some.injEq, Prod.mk.injEq, and_imp]
    cases hrecv : recvfromSocket c.target c.len c.flags addrlen with
    | none =>
      refine ⟨fun _ => ?_, fun _ _ _ => rfl⟩
      rintro _ _ r rfl rfl hr
      rw [hrecv] at hr
      contradiction
    | some r =>
      by_cases hfault : r.message ≠ [] ∧ ¬ Allocates c.len
      · simp only [if_pos hfault, implies_true, true_iff]
        rintro _ _ r' rfl rfl hr hgoes
        rw [hrecv] at hr
        obtain rfl := Option.some.inj hr
        exact absurd hgoes (by rw [not_or]; exact hfault)
      · have hgoes : r.message = [] ∨ Allocates c.len := by
          by_contra hnot
          exact hfault (not_or.1 hnot)
        simp only [if_neg hfault, Option.some.injEq, Prod.mk.injEq, true_and]
        refine (after_same_iff (length_addr hin)).trans ⟨fun h => ?_, fun h => ?_⟩
        · rintro _ _ r' rfl rfl hr -
          rw [hrecv] at hr
          obtain rfl := Option.some.inj hr
          exact h
        · exact h addr addrlen r rfl rfl hrecv hgoes

end RecvfromCall

/-- A call leaks nothing exactly if each byte that it copies out, and does not overwrite, was
produced. -/
theorem leaks_nothing_iff (call : Call) (u : User) : call.LeaksNothing u ↔ call.Clean u := by
  cases call with
  | recvfrom c => exact RecvfromCall.leaksNothing_iff
  | netconf_stat c => exact StatCall.leaksNothing_iff
  | netconf_getaddrs c => exact GetaddrsCall.leaksNothing_iff

/-- A process with one page, and the name `a` at its start. -/
def pageUser : User where
  bytes addr := if addr = ADDR_MIN then 0x61 else 0
  readable addr := addr &&& ~~~0xFFF = ADDR_MIN
  writable addr := addr &&& ~~~0xFFF = ADDR_MIN

/-- The addresses of an interface that does not exist are asked for. -/
def noInterface : GetaddrsCall := ⟨[], ADDR_MIN, AF_INET, ADDR_MIN + 16, 1⟩

theorem pageUser_name : strcpy_u2k pageUser.mapped stringFuel ADDR_MIN = some ['a'] := by
  have hmax : ¬ ADDR_MAX ≤ ADDR_MIN ∧ ¬ ADDR_MAX ≤ ADDR_MIN + 1 := by decide
  have hfirst : pageUser.mapped ADDR_MIN = some 0x61 := by decide
  have hsecond : pageUser.mapped (ADDR_MIN + 1) = some 0 := by decide
  have hfuel : stringFuel = (2 ^ 64 - 2) + 1 + 1 := by decide
  rw [hfuel, strcpy_u2k, if_neg hmax.1, hfirst]
  dsimp only
  rw [if_neg (by decide), strcpy_u2k, if_neg hmax.2, hsecond]
  decide

/-- The process receives a byte of the heap. -/
theorem not_leaks_nothing : ¬ ∀ call u, Call.LeaksNothing call u := by
  intro h
  have hsame : ∀ g g', noInterface.run pageUser g = noInterface.run pageUser g' :=
    h (.netconf_getaddrs noInterface) pageUser
  have hclean := GetaddrsCall.leaksNothing_iff.1 hsame _ pageUser_name
  have hcopied : pageUser.Copied (ADDR_MIN + 16) (fun _ => Allocates 1) 1 (ADDR_MIN + 16) := by
    have hallocates : Allocates 1 := by decide
    refine ⟨by decide, by decide, fun j hj => ⟨hallocates, ?_⟩⟩
    obtain rfl : j = 0 := Nat.le_zero.1 hj
    decide
  obtain ⟨netif, hfound, -⟩ := hclean (ADDR_MIN + 16) hcopied
  cases hfound

end Glidix.Net.CopyOut
