import Glidix.Net.Reassembly

/-!
# Sending a packet

`sendPacketEx` adds an IP header to a packet, or cuts it into fragments with a header each, and calls
itself with `PKT_HDRINC` on the results, which are then routed.  The model starts after the
addresses have been validated and the source address has been chosen; it answers the packets that
are handed to the routing part.
-/

namespace Glidix.Net

/-- Length of an address. -/
def Family.addrLen : Family → ℕ
  | .inet => 4
  | .inet6 => 16

/-- Length of a header without extensions. -/
def Family.headerLen : Family → ℕ
  | .inet => 20
  | .inet6 => 40

/-- The path MTU that is assumed. -/
def Family.mtu : Family → ℕ
  | .inet => 576
  | .inet6 => 1280

/-- An internet socket address. -/
structure SockAddr (f : Family) where
  addr : List UInt8
  addr_length : addr.length = f.addrLen
  scope_id : ℕ

/-- The socket options `GSO_UNICAST_HOPS` and `GSO_MULTICAST_HOPS`, and the flags `PKT_HDRINC` and
`PKT_DONTFRAG` of `GSO_SNDFLAGS`. -/
structure SockOpts where
  unicastHops : ℕ
  multicastHops : ℕ
  hdrinc : Bool
  dontfrag : Bool

inductive SendError where
  | EINVAL
  | E2BIG
  deriving DecidableEq

def IPPROTO_RAW : ℕ := 255

/-- A hop limit of zero stands for the default. -/
def hopsOr (hops : ℕ) (default : UInt8) : UInt8 :=
  if UInt8.ofNat hops = 0 then default else .ofNat hops

/-- The hop limit; destinations with a link-local or multicast IPv6 address must have a scope. -/
def hopLimit {f : Family} (dest : SockAddr f) (opts : SockOpts) : Except SendError UInt8 :=
  match f with
  | .inet => .ok (hopsOr opts.unicastHops 64)
  | .inet6 =>
    if dest.addr.head? = some 0xFF then
      if dest.scope_id = 0 then .error .EINVAL else .ok (hopsOr opts.multicastHops 1)
    else if dest.addr.take 2 = [0xFE, 0x80] ∧ dest.scope_id = 0 then .error .EINVAL
    else .ok (hopsOr opts.unicastHops 64)

/-- The header of a packet or of a fragment. -/
def encapHeader {f : Family} (src dest : SockAddr f) (proto : ℕ) (hop : UInt8)
    (id size fragOff : ℕ) (moreFrags : Bool) : List UInt8 :=
  match f with
  | .inet => ipv4_info2header
      { saddr := src.addr, daddr := dest.addr, proto, dataOffset := 0, size, id, fragOff, hop,
        moreFrags }
  | .inet6 => ipv6_info2header
      { saddr := src.addr, daddr := dest.addr, flowinfo := 0, proto, dataOffset := 0, size, id,
        fragOff, hop, moreFrags }

/-- The recursive call, on a packet that has its header. -/
def sendWithHeader {f : Family} (dest : SockAddr f) (opts : SockOpts) (packet : List UInt8) :
    Except SendError (List (List UInt8)) :=
  if packet.length = 0 then .ok []
  else do
    let _ ← hopLimit dest opts
    if packet.length > f.mtu then .error .E2BIG else .ok [packet]

/-- How much of the packet a fragment takes: for IPv6 there is a fragment header too, and the offset
of a fragment must be divisible by 8. -/
def fragmentSize (f : Family) (mtu : ℕ) : ℕ :=
  match f with
  | .inet => mtu
  | .inet6 => (mtu - 8) >>> 3 <<< 3

/-- The `i`-th fragment of `numFullDatagrams`. -/
def encapFragment {f : Family} (src dest : SockAddr f) (proto : ℕ) (hop : UInt8) (packetID : ℕ)
    (packet : List UInt8) (mtu numFullDatagrams sizeLeft i : ℕ) : List UInt8 :=
  let moreFrags := i != numFullDatagrams - 1
  let size := if moreFrags then mtu else sizeLeft
  encapHeader src dest proto hop packetID size (i * mtu) moreFrags ++
    (packet.drop (i * mtu)).take size

/-- `sendPacketEx`; `packetID` is what `getNextPacketID` returns. -/
def sendPacketEx {f : Family} (src dest : SockAddr f) (packet : List UInt8) (proto : ℕ)
    (opts : SockOpts) (packetID : ℕ) : Except SendError (List (List UInt8)) :=
  if packet.length = 0 then .ok []
  else do
    let hdrinc := opts.hdrinc || proto == IPPROTO_RAW
    let dontfrag := opts.dontfrag || hdrinc
    let hop ← hopLimit dest opts
    let mtu := if hdrinc then f.mtu else f.mtu - f.headerLen
    if packet.length > mtu then
      if dontfrag then .error .E2BIG
      else do
        let mtu := fragmentSize f mtu
        let sizeLeft := packet.length % mtu
        let numFullDatagrams := packet.length / mtu + if sizeLeft > 0 then 1 else 0
        let sent ← (List.range numFullDatagrams).mapM fun i =>
          sendWithHeader dest opts
            (encapFragment src dest proto hop packetID packet mtu numFullDatagrams sizeLeft i)
        return sent.flatten
    else if hdrinc then .ok [packet]
    else
      sendWithHeader dest opts
        (encapHeader src dest proto hop packetID packet.length 0 false ++ packet)

/-! ## What is sent -/

theorem encapHeader_length {f : Family} (src dest : SockAddr f) (proto : ℕ) (hop : UInt8)
    (id size fragOff : ℕ) (moreFrags : Bool) :
    (encapHeader src dest proto hop id size fragOff moreFrags).length ≤
      f.headerLen + if f = .inet6 ∧ (0 < fragOff ∨ moreFrags = true) then 8 else 0 := by
  have hs := src.addr_length
  have hd := dest.addr_length
  cases f with
  | inet =>
    simp only [encapHeader, ipv4_info2header, be16, le16, List.length_append, hs, hd,
      Family.addrLen, List.length_cons, List.length_nil, Family.headerLen]
    omega
  | inet6 =>
    simp only [encapHeader, ipv6_info2header, true_and]
    split_ifs <;>
      simp [be16, le16, le32, hs, hd, Family.addrLen, Family.headerLen]

section Sent

variable {f : Family} {src dest : SockAddr f} {packet : List UInt8} {proto packetID : ℕ}
  {opts : SockOpts} {hop : UInt8}

theorem sendWithHeader_eq (hhop : hopLimit dest opts = .ok hop) {p : List UInt8} (h₀ : 0 < p.length)
    (h₁ : p.length ≤ f.mtu) : sendWithHeader dest opts p = .ok [p] := by
  rw [sendWithHeader, if_neg (Nat.ne_of_gt h₀), hhop]
  show (if p.length > f.mtu then _ else _) = _
  rw [if_neg (Nat.not_lt.2 h₁)]

/-- The payload of a fragment. -/
def fragmentPayload (f : Family) : ℕ := fragmentSize f (f.mtu - f.headerLen)

theorem fragmentPayload_inet : fragmentPayload .inet = 556 := rfl

theorem fragmentPayload_inet6 : fragmentPayload .inet6 = 1232 := rfl

theorem mapM_singletons {α β ε : Type} {l : List α} {g : α → β} {h : α → Except ε (List β)}
    (hl : ∀ x ∈ l, h x = .ok [g x]) : l.mapM h = .ok (l.map fun x => [g x]) := by
  induction l with
  | nil => rfl
  | cons x l ih =>
    rw [List.mapM_cons, hl x List.mem_cons_self, ih fun y hy => hl y (List.mem_cons_of_mem x hy)]
    rfl

/-- A packet that fits is sent whole. -/
theorem sendPacketEx_whole (hpos : 0 < packet.length) (hfit : packet.length ≤ f.mtu - f.headerLen)
    (hinc : opts.hdrinc = false) (hraw : proto ≠ IPPROTO_RAW)
    (hhop : hopLimit dest opts = .ok hop) :
    sendPacketEx src dest packet proto opts packetID =
      .ok [encapHeader src dest proto hop packetID packet.length 0 false ++ packet] := by
  have hflag : (opts.hdrinc || proto == IPPROTO_RAW) = false := by
    rw [hinc, Bool.false_or, beq_eq_false_iff_ne]
    exact hraw
  have hlen := encapHeader_length src dest proto hop packetID packet.length 0 false
  rw [if_neg (by simp)] at hlen
  have hhead : f.headerLen ≤ f.mtu := by cases f <;> decide
  rw [sendPacketEx, if_neg (Nat.ne_of_gt hpos), hhop]
  simp only [hflag, Bool.false_eq_true, if_false, if_neg (Nat.not_lt.2 hfit), bind, Except.bind]
  exact sendWithHeader_eq hhop (by rw [List.length_append]; omega)
    (by rw [List.length_append]; omega)

/-- A packet that does not fit is sent in fragments. -/
theorem sendPacketEx_fragments (src : SockAddr f) (packetID : ℕ)
    (hlong : f.mtu - f.headerLen < packet.length) (hinc : opts.hdrinc = false)
    (hdont : opts.dontfrag = false) (hraw : proto ≠ IPPROTO_RAW)
    (hhop : hopLimit dest opts = .ok hop) :
    let m := fragmentPayload f
    let n := packet.length / m + if packet.length % m > 0 then 1 else 0
    sendPacketEx src dest packet proto opts packetID =
      .ok ((List.range n).map fun i =>
        encapFragment src dest proto hop packetID packet m n (packet.length % m) i) := by
  intro m n
  have hflag : (opts.hdrinc || proto == IPPROTO_RAW) = false := by
    rw [hinc, Bool.false_or, beq_eq_false_iff_ne]
    exact hraw
  have hm : 0 < m ∧ m + f.headerLen + (if f = .inet6 then 8 else 0) ≤ f.mtu := by
    cases f <;> decide
  have hfit : ∀ i ∈ List.range n, sendWithHeader dest opts
      (encapFragment src dest proto hop packetID packet m n (packet.length % m) i) =
      .ok [encapFragment src dest proto hop packetID packet m n (packet.length % m) i] := by
    intro i _
    refine sendWithHeader_eq hhop ?_ ?_
    · cases f <;> simp [encapFragment, encapHeader, ipv4_info2header, ipv6_info2header, be16, le32,
        le16] <;> split_ifs <;> simp
    · have hmod := Nat.mod_lt packet.length hm.1
      have hlen := encapHeader_length src dest proto hop packetID
        (if (i != n - 1) = true then m else packet.length % m) (i * m) (i != n - 1)
      rw [encapFragment, List.length_append, List.length_take]
      have hsize : (if (i != n - 1) = true then m else packet.length % m) ≤ m := by
        split_ifs <;> omega
      have h8 : (if f = .inet6 ∧ (0 < i * m ∨ (i != n - 1) = true) then 8 else 0) ≤
          if f = .inet6 then 8 else 0 := by
        split_ifs <;> simp_all
      omega
  rw [sendPacketEx, if_neg (by omega), hhop]
  simp only [hflag, hdont, Bool.false_eq_true, if_false, if_pos (show packet.length >
    f.mtu - f.headerLen from hlong), bind, Except.bind, Bool.or_self]
  have hmap := mapM_singletons hfit
  simp only [m, n, fragmentPayload] at hmap ⊢
  rw [hmap]
  simp only [pure, Except.pure, Except.ok.injEq]
  rw [← List.flatMap_def, ← List.map_eq_flatMap]

end Sent

end Glidix.Net
