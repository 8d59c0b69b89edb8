import Glidix.Lib.Bytes
import Glidix.Net.IpHeader

/-!
# The IP reassembler

The lists of fragments that `ipreasmPass` keeps under `reasmLock`, and what the thread of the
reassembler does with them when it runs.  Packets reach it through `passPacketToSocket`.
-/

namespace Glidix.Net

open Bytes

/-- `AF_INET` and `AF_INET6`. -/
inductive Family where
  | inet
  | inet6
  deriving DecidableEq

structure IPFragment where
  lastFragment : Bool
  fragOffset : ℕ
  fragSize : ℕ
  data : List UInt8
  deriving DecidableEq

/-- The fragments of a datagram that have arrived, in the order of their offsets. -/
structure IPFragmentList where
  family : Family
  /-- An `int`. -/
  deadlineTicks : BitVec 32
  srcaddr : List UInt8
  dstaddr : List UInt8
  id : ℕ
  proto : ℕ
  fragList : List IPFragment
  deriving DecidableEq

/-- `deadlineTicks` as it is compared with `getTicks()`, a `uint64_t`: the sign is extended. -/
def readDeadline (deadlineTicks : BitVec 32) : ℕ := (deadlineTicks.signExtend 64).toNat

/-- What becomes of `getTicks() + 60000` in `deadlineTicks`. -/
def newDeadline (ticks : ℕ) : BitVec 32 := BitVec.ofNat 32 (ticks + 60000)

/-! ## Passing a fragment -/

/-- Where the `scan` loop of `ipreasmPass` puts a fragment that does not come first; `none` when the
fragment is rejected. -/
def scanFragments (frag : IPFragment) : List IPFragment → Option (List IPFragment)
  | [] => some []
  | [scan] =>
    if scan.fragOffset = frag.fragOffset then none
    else if scan.fragOffset < frag.fragOffset then
      if (scan.fragOffset + scan.fragSize) % 2 ^ 32 > frag.fragOffset then none
      else some [scan, frag]
    else some [scan]
  | scan :: next :: rest =>
    if scan.fragOffset = frag.fragOffset then none
    else if scan.fragOffset < frag.fragOffset ∧ frag.fragOffset < next.fragOffset then
      if (scan.fragOffset + scan.fragSize) % 2 ^ 32 > frag.fragOffset then none
      else if frag.fragOffset + frag.fragSize > next.fragOffset then none
      else some (scan :: frag :: next :: rest)
    else (scanFragments frag (next :: rest)).map (scan :: ·)

/-- Put a fragment into the list of a datagram, which is never empty. -/
def placeFragment (frag : IPFragment) (fragList : List IPFragment) : Option (List IPFragment) :=
  match fragList with
  | [] => none
  | first :: _ =>
    if first.fragOffset > frag.fragOffset then
      if frag.fragOffset + frag.fragSize > first.fragOffset then none
      else some (frag :: fragList)
    else scanFragments frag fragList

section Pass

variable (family : Family) (srcaddr dstaddr : List UInt8) (id : ℕ)

def isMatchingFragmentList (list : IPFragmentList) : Bool :=
  list.srcaddr == srcaddr && list.dstaddr == dstaddr && list.id == id && list.family == family

/-- The loop of `ipreasmPass` over the fragment lists: whether one matched, and the lists afterwards;
a rejected fragment ends the loop. -/
def passToLists (proto : ℕ) (frag : IPFragment) :
    List IPFragmentList → Bool × List IPFragmentList
  | [] => (false, [])
  | list :: rest =>
    if isMatchingFragmentList family srcaddr dstaddr id list then
      if list.proto ≠ proto then (true, list :: rest)
      else
        match placeFragment frag list.fragList with
        | none => (true, list :: rest)
        | some fragList =>
          (true, { list with fragList } :: (passToLists proto frag rest).2)
    else
      let (found, rest) := passToLists proto frag rest
      (found, list :: rest)

def ipreasmPass (lists : List IPFragmentList) (ticks proto fragOff : ℕ) (data : List UInt8)
    (fragSize : ℕ) (moreFrags : Bool) : List IPFragmentList :=
  let frag : IPFragment := ⟨!moreFrags, fragOff, fragSize, data.take fragSize⟩
  let (found, lists) := passToLists family srcaddr dstaddr id proto frag lists
  if found then lists
  else lists ++ [⟨family, newDeadline ticks, srcaddr, dstaddr, id, proto, [frag]⟩]

end Pass

/-! ## The thread -/

/-- What `isFragmentListComplete` finds. -/
inductive Completeness where
  | complete
  | incomplete
  /-- A fragment marked as the last one is followed by another. -/
  | invalid
  deriving DecidableEq

def isFragmentListComplete : ℕ → List IPFragment → Completeness
  | _, [] => .incomplete
  | nextOffset, frag :: rest =>
    if frag.fragOffset ≠ nextOffset then .incomplete
    else if frag.lastFragment then (if rest ≠ [] then .invalid else .complete)
    else isFragmentListComplete ((nextOffset + frag.fragSize) % 2 ^ 32) rest

def calculatePacketSize (fragList : List IPFragment) : ℕ := (fragList.map IPFragment.fragSize).sum

/-- The buffer after the fragments have been copied into it. -/
def copyFragments (buffer : Bytes) (fragList : List IPFragment) : Bytes :=
  fragList.foldl (fun b frag => b.setRange frag.fragOffset frag.data) buffer

/-- A datagram handed to `onTransportPacket`. -/
structure Delivery where
  family : Family
  src : List UInt8
  dest : List UInt8
  proto : ℕ
  packet : List UInt8
  deriving DecidableEq

/-- The datagram of a complete list.  The buffer is not cleared, but a complete list leaves nothing
of it as it was. -/
def reassemble (list : IPFragmentList) : Delivery where
  family := list.family
  src := if list.family = .inet then list.srcaddr.take 4 else list.srcaddr
  dest := if list.family = .inet then list.dstaddr.take 4 else list.dstaddr
  proto := list.proto
  packet := (List.range (calculatePacketSize list.fragList)).map
    (copyFragments (fun _ => 0) list.fragList)

/-- One turn of `ipreasmThread` over the lists. -/
def ipreasmThread (ticks : ℕ) : List IPFragmentList → List IPFragmentList × List Delivery
  | [] => ([], [])
  | list :: rest =>
    let (lists, deliveries) := ipreasmThread ticks rest
    if ticks ≥ readDeadline list.deadlineTicks then (lists, deliveries)
    else
      match isFragmentListComplete 0 list.fragList with
      | .complete => (lists, reassemble list :: deliveries)
      | .invalid => ({ list with deadlineTicks := 1 } :: lists, deliveries)
      | .incomplete => (list :: lists, deliveries)

/-! ## Packets from the network -/

/-- `passPacketToSocket` for a packet that is addressed to this host: a fragment goes to the
reassembler, a whole packet to its socket.  IPv4 addresses are padded to 16 bytes. -/
def passPacketToSocket (family : Family) (lists : List IPFragmentList) (ticks : ℕ)
    (packet : List UInt8) : List IPFragmentList × List Delivery :=
  match family with
  | .inet =>
    match ipv4_header2info packet with
    | none => (lists, [])
    | some info =>
      if info.size > packet.length then (lists, [])
      else if info.fragOff ≠ 0 ∨ info.moreFrags = true then
        (ipreasmPass .inet (info.saddr ++ List.replicate 12 0) (info.daddr ++ List.replicate 12 0)
          info.id lists ticks info.proto info.fragOff (packet.drop info.dataOffset) info.size
          info.moreFrags, [])
      else
        (lists, [⟨.inet, info.saddr, info.daddr, info.proto,
          (packet.drop info.dataOffset).take info.size⟩])
  | .inet6 =>
    match ipv6_header2info packet with
    | none => (lists, [])
    | some info =>
      if info.size > packet.length then (lists, [])
      else if info.fragOff ≠ 0 ∨ info.moreFrags = true then
        (ipreasmPass .inet6 info.saddr info.daddr info.id lists ticks info.proto info.fragOff
          (packet.drop info.dataOffset) info.size info.moreFrags, [])
      else
        (lists, [⟨.inet6, info.saddr, info.daddr, info.proto,
          (packet.drop info.dataOffset).take info.size⟩])

/-- Something that happens to the reassembler at a time: a packet arrives, or the thread runs. -/
structure ReasmEvent where
  ticks : ℕ
  packet : Option (List UInt8)
  deriving DecidableEq

/-- The lists and the datagrams delivered after some events. -/
def runEvents (family : Family) (lists : List IPFragmentList) :
    List ReasmEvent → List IPFragmentList × List Delivery
  | [] => (lists, [])
  | e :: events =>
    let (lists₁, deliveries₁) :=
      match e.packet with
      | some packet => passPacketToSocket family lists e.ticks packet
      | none => ipreasmThread e.ticks lists
    let (lists₂, deliveries₂) := runEvents family lists₁ events
    (lists₂, deliveries₁ ++ deliveries₂)

example (family : Family) (lists : List IPFragmentList) (e : ReasmEvent) (h : e.packet = none) :
    runEvents family lists [e] = ipreasmThread e.ticks lists := by
  simp only [runEvents, h, List.append_nil]

end Glidix.Net
