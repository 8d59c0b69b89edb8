import Glidix.Net.Fragment
import Glidix.Net.ReassemblyOrder
import Mathlib.Data.List.Pairwise

/-!
# Fragmentation and reassembly

The packets that `sendPacketEx` makes of a payload give the payload back (`GivesBack`) for some of
its lengths and not for others.  The size of the last fragment is `packetlen % mtu`, which is zero
when the length is a multiple of the fragment size; and IPv4 offsets are stored in bytes in a field
of 13 bits, so the offsets from 8192 on run over into the flags.
-/

namespace Glidix.Net

/-- What a header and the data behind it say. -/
structure FragInfo where
  fragOff : ℕ
  size : ℕ
  moreFrags : Bool
  data : List UInt8
  deriving DecidableEq

/-- `ipv4_header2info` and `ipv6_header2info`. -/
def header2info (f : Family) (packet : List UInt8) : Option FragInfo :=
  match f with
  | .inet => (ipv4_header2info packet).map fun info =>
      ⟨info.fragOff, info.size, info.moreFrags, (packet.drop info.dataOffset).take info.size⟩
  | .inet6 => (ipv6_header2info packet).map fun info =>
      ⟨info.fragOff, info.size, info.moreFrags, (packet.drop info.dataOffset).take info.size⟩

/-- The intervals have no number in common. -/
def FragInfo.Apart (d e : FragInfo) : Prop :=
  d.fragOff + d.size ≤ e.fragOff ∨ e.fragOff + e.size ≤ d.fragOff

instance : Std.Symm FragInfo.Apart := ⟨fun _ _ h => h.symm⟩

/-- The intervals partition the numbers below `len`, and exactly the one that ends there lacks the
more-fragments flag. -/
structure Partitions (infos : List FragInfo) (len : ℕ) : Prop where
  bound : ∀ d ∈ infos, 0 < d.size ∧ d.fragOff + d.size ≤ len
  disjoint : infos.Pairwise FragInfo.Apart
  cover : ∀ b < len, ∃ d ∈ infos, d.fragOff ≤ b ∧ b < d.fragOff + d.size
  last : ∀ d ∈ infos, d.moreFrags = false ↔ d.fragOff + d.size = len

/-- The packets carry a partition of the payload, and when they arrive in any order, with turns of
the reassembler in between and one at the end, all before a time `T` that is not later than the
deadlines it sets, the payload is delivered exactly once. -/
structure GivesBack (f : Family) (packets : List (List UInt8)) (payload : List UInt8) : Prop where
  partition : ∃ infos, packets.map (header2info f) = infos.map some ∧
    Partitions infos payload.length
  delivered : ∀ (events : List ReasmEvent) (T final : ℕ),
    (events.filterMap ReasmEvent.packet).Perm packets →
      (∀ e ∈ events, T ≤ readDeadline (newDeadline e.ticks) ∧ e.ticks < T) → final < T →
        (runEvents f [] (events ++ [⟨final, none⟩])).2.map Delivery.packet = [payload]

/-- What the header of one of the packets says is among what they all say. -/
theorem mem_infos {f : Family} {packets : List (List UInt8)} {infos : List FragInfo}
    (h : packets.map (header2info f) = infos.map some) {packet : List UInt8} (hp : packet ∈ packets)
    {info : FragInfo} (he : header2info f packet = some info) : info ∈ infos := by
  have hmem := List.mem_map_of_mem (f := header2info f) hp
  rw [h, he] at hmem
  simpa using hmem

/-! ## Reading a packet back -/

section Read

variable {f : Family} {src dest : SockAddr f} {proto id size fragOff : ℕ} {hop : UInt8}
  {moreFrags : Bool} {data : List UInt8}

/-- Addresses as the reassembler compares them. -/
def reasmAddr (f : Family) (addr : List UInt8) : List UInt8 :=
  match f with
  | .inet => addr ++ List.replicate 12 0
  | .inet6 => addr

/-- The datagram ID that the header has room for. -/
def headerId (f : Family) (id : ℕ) : ℕ :=
  match f with
  | .inet => id % 65536
  | .inet6 => id % 2 ^ 32

/-- Offset, size and flag fit in the fields of the header. -/
def HeaderFits (f : Family) (size fragOff : ℕ) (moreFrags : Bool) : Prop :=
  match f with
  | .inet => 20 + size < 65536 ∧ fragOff < 8192
  | .inet6 => size + 8 < 65536 ∧ 8 ∣ fragOff ∧ fragOff < 65536 ∧ (0 < fragOff ∨ moreFrags = true)

theorem ipv4_header_length (info : PacketInfo4) (hs : info.saddr.length = 4)
    (hd : info.daddr.length = 4) : (ipv4_info2header info).length = 20 := by
  simp [ipv4_info2header, be16, le16, hs, hd]

/-- What an IPv4 header made by `sendPacketEx` is read back as. -/
theorem inet_read (src dest : SockAddr .inet) (proto : ℕ) (hop : UInt8) (id fragOff : ℕ)
    (moreFrags : Bool) (data : List UInt8) (hsize : 20 + size < 65536) :
    let packet := encapHeader src dest proto hop id size fragOff moreFrags ++ data
    ∃ info, ipv4_header2info packet = some info ∧ info.size = size ∧
      info.fragOff = fragOff % 8192 ∧
      info.moreFrags = (moreFrags || (fragOff % 65536).testBit 13) ∧
      packet.drop info.dataOffset = data ∧ info.saddr = src.addr ∧ info.daddr = dest.addr ∧
      info.proto = proto % 256 ∧ info.id = id % 65536 := by
  have hread := ipv4_header2info_info2header
    { saddr := src.addr, daddr := dest.addr, proto, dataOffset := 0, size, id, fragOff, hop,
      moreFrags } data src.addr_length dest.addr_length
  refine ⟨_, hread, ?_, rfl, rfl, ?_, rfl, rfl, rfl, rfl⟩
  · show ((20 + size) % 65536 + (2 ^ 64 - 20)) % 2 ^ 64 = size
    rw [Nat.mod_eq_of_lt hsize]
    omega
  · exact List.drop_left' (ipv4_header_length _ src.addr_length dest.addr_length)

/-- What the IPv6 header of a fragment is read back as. -/
theorem inet6_read (src dest : SockAddr .inet6) (proto : ℕ) (hop : UInt8) (id : ℕ)
    (data : List UInt8) (hsize : size + 8 < 65536) (h₈ : 8 ∣ fragOff) (hlt : fragOff < 65536)
    (hfrag : 0 < fragOff ∨ moreFrags = true) :
    let packet := encapHeader src dest proto hop id size fragOff moreFrags ++ data
    ∃ info, ipv6_header2info packet = some info ∧ info.size = size ∧ info.fragOff = fragOff ∧
      info.moreFrags = moreFrags ∧ packet.drop info.dataOffset = data ∧ info.saddr = src.addr ∧
      info.daddr = dest.addr ∧ info.proto = proto % 256 ∧ info.id = id % 2 ^ 32 := by
  have hs := src.addr_length
  have hd := dest.addr_length
  have hread := ipv6_header2info_fragment
    { saddr := src.addr, daddr := dest.addr, flowinfo := 0, proto, dataOffset := 0, size, id,
      fragOff, hop, moreFrags } data hs hd rfl hfrag h₈ hlt
  refine ⟨_, hread, ?_, rfl, rfl, ?_, rfl, rfl, rfl, rfl⟩
  · show ((size + 8) % 65536 + (2 ^ 64 - 8)) % 2 ^ 64 = size
    rw [Nat.mod_eq_of_lt hsize]
    omega
  · refine List.drop_left' ?_
    simp only [encapHeader, ipv6_info2header, if_pos hfrag]
    simp [be16, le16, le32, hs, hd, Family.addrLen]

/-- A fragment whose header has room for it is read back, and goes to the reassembler. -/
theorem fragment_read (src dest : SockAddr f) (proto : ℕ) (hop : UInt8) (id : ℕ) (hfits : HeaderFits f size fragOff moreFrags)
    (hfrag : fragOff ≠ 0 ∨ moreFrags = true) (hdata : data.length = size) :
    let packet := encapHeader src dest proto hop id size fragOff moreFrags ++ data
    header2info f packet = some ⟨fragOff, size, moreFrags, data⟩ ∧
      ∀ lists ticks, passPacketToSocket f lists ticks packet =
        (ipreasmPass f (reasmAddr f src.addr) (reasmAddr f dest.addr) (headerId f id) lists ticks
          (proto % 256) fragOff data size moreFrags, []) := by
  intro packet
  have hlen : ¬ size > packet.length := by
    simp only [packet, List.length_append]
    omega
  have htake : data.take size = data := by rw [← hdata, List.take_length]
  cases f with
  | inet =>
    obtain ⟨info, e, rfl, hoff, hmore, hdrop, hsrc, hdst, hproto, hid⟩ :=
      inet_read src dest proto hop id fragOff moreFrags data hfits.1
    have hlow : fragOff % 8192 = fragOff := Nat.mod_eq_of_lt hfits.2
    have hbit : (fragOff % 65536).testBit 13 = false := by
      have hlt := hfits.2
      rw [Nat.mod_eq_of_lt (by omega)]
      exact Nat.testBit_lt_two_pow hlt
    rw [hbit, Bool.or_false] at hmore
    rw [hlow] at hoff
    refine ⟨?_, fun lists ticks => ?_⟩
    · simp only [header2info, packet, e, Option.map_some, hdrop, hoff, hmore, htake]
    · simp only [passPacketToSocket, packet, e]
      rw [if_neg hlen, if_pos (by rw [hoff, hmore]; exact hfrag), hdrop, hoff, hmore, hsrc, hdst,
        hproto, hid]
      rfl
  | inet6 =>
    obtain ⟨info, e, rfl, hoff, hmore, hdrop, hsrc, hdst, hproto, hid⟩ :=
      inet6_read src dest proto hop id data hfits.1 hfits.2.1 hfits.2.2.1 hfits.2.2.2
    refine ⟨?_, fun lists ticks => ?_⟩
    · simp only [header2info, packet, e, Option.map_some, hdrop, hoff, hmore, htake]
    · simp only [passPacketToSocket, packet, e]
      rw [if_neg hlen, if_pos (by rw [hoff, hmore]; exact hfrag), hdrop, hoff, hmore, hsrc, hdst,
        hproto, hid]
      rfl

end Read

/-! ## Fragments -/

section Fragments

variable {f : Family} {src dest : SockAddr f} {payload : List UInt8} {proto packetID : ℕ}
  {hop : UInt8}

/-- The number of fragments of a payload. -/
def numFragments (f : Family) (len : ℕ) : ℕ :=
  len / fragmentPayload f + if len % fragmentPayload f > 0 then 1 else 0

/-- The size of a fragment. -/
def sizeOfFragment (f : Family) (len i : ℕ) : ℕ :=
  if i != numFragments f len - 1 then fragmentPayload f else len % fragmentPayload f

/-- The `i`-th fragment, as the reassembler is to keep it. -/
def fragmentOf (f : Family) (payload : List UInt8) (i : ℕ) : IPFragment where
  lastFragment := !(i != numFragments f payload.length - 1)
  fragOffset := i * fragmentPayload f
  fragSize := sizeOfFragment f payload.length i
  data := (payload.drop (i * fragmentPayload f)).take (sizeOfFragment f payload.length i)

/-- The packet that carries it. -/
def packetOf (src dest : SockAddr f) (proto : ℕ) (hop : UInt8) (packetID : ℕ)
    (payload : List UInt8) (i : ℕ) : List UInt8 :=
  encapFragment src dest proto hop packetID payload (fragmentPayload f)
    (numFragments f payload.length) (payload.length % fragmentPayload f) i

theorem fragmentPayload_pos (f : Family) : 0 < fragmentPayload f := by cases f <;> decide

theorem numFragments_of_mod_pos {len : ℕ} (h : 0 < len % fragmentPayload f) :
    numFragments f len = len / fragmentPayload f + 1 := by
  rw [numFragments, if_pos h]

/-- The fragments tile the payload when its length is not a multiple of their size. -/
theorem fragments_fragmentOf (hmod : 0 < payload.length % fragmentPayload f)
    (hlen : payload.length < 2 ^ 32) :
    Fragments ((List.range (numFragments f payload.length)).map (fragmentOf f payload))
      payload.length := by
  have hn := numFragments_of_mod_pos hmod
  set m := fragmentPayload f with hm
  set q := payload.length / m with hq
  have hdiv : q * m + payload.length % m = payload.length := by
    rw [Nat.mul_comm]
    exact Nat.div_add_mod _ _
  have hsize : ∀ i, (fragmentOf f payload i).fragSize = if i = q then payload.length % m else m := by
    intro i
    simp only [fragmentOf, sizeOfFragment, hn, Nat.add_sub_cancel, bne_iff_ne, ← hm]
    by_cases hi : i = q <;> simp [hi]
  have htiles : Tiles IPFragment.fragOffset IPFragment.fragSize 0
      ((List.range (q + 1)).map (fragmentOf f payload)) payload.length := by
    rw [List.range_succ, List.map_append]
    refine (Tiles.range (fragmentPayload_pos f) fun i hi => ⟨rfl, ?_⟩).append ⟨rfl, ?_, ?_⟩
    · rw [hsize, if_neg (Nat.ne_of_lt hi)]
    · rwa [hsize, if_pos rfl]
    · show q * m + (fragmentOf f payload q).fragSize = payload.length
      rw [hsize, if_pos rfl, hdiv]
  rw [hn]
  refine ⟨htiles, fun x hx => ?_, hlen, by simp⟩
  obtain ⟨i, hi, rfl⟩ := List.mem_map.1 hx
  have hi' := List.mem_range.1 hi
  have hmark : (fragmentOf f payload i).lastFragment = true ↔ i = q := by
    simp [fragmentOf, hn]
  have hoff : (fragmentOf f payload i).fragOffset = i * m := rfl
  rw [hmark, hoff, hsize]
  by_cases hiq : i = q
  · rw [if_pos hiq, hiq]
    exact iff_of_true rfl hdiv
  · rw [if_neg hiq]
    refine iff_of_false hiq fun he => ?_
    have hmul : (i + 1) * m ≤ q * m := Nat.mul_le_mul_right m (by omega)
    rw [Nat.succ_mul] at hmul
    omega

/-- Whether the header has room for all fragments. -/
def AllFit (f : Family) (len : ℕ) : Prop :=
  match f with
  | .inet => len < 8340
  | .inet6 => len ≤ 65487

theorem headerFits_fragmentOf (hlong : f.mtu - f.headerLen < payload.length)
    (hmod : 0 < payload.length % fragmentPayload f) (hfit : AllFit f payload.length) {i : ℕ}
    (hi : i < numFragments f payload.length) :
    let more := i != numFragments f payload.length - 1
    HeaderFits f (sizeOfFragment f payload.length i) (i * fragmentPayload f) more ∧
      (i * fragmentPayload f ≠ 0 ∨ more = true) := by
  intro more
  have hn := numFragments_of_mod_pos hmod
  have hmore : more = true ↔ i ≠ numFragments f payload.length - 1 := bne_iff_ne
  have hsize : sizeOfFragment f payload.length i ≤ fragmentPayload f := by
    have := Nat.mod_lt payload.length (fragmentPayload_pos f)
    unfold sizeOfFragment
    split_ifs <;> omega
  have hfirst : i * fragmentPayload f ≠ 0 ∨ more = true := by
    rw [hmore]
    by_cases h0 : i = 0
    · right
      have hpos : 0 < payload.length / fragmentPayload f :=
        Nat.div_pos (by cases f <;> simp [fragmentPayload_inet, fragmentPayload_inet6, Family.mtu,
          Family.headerLen] at hlong ⊢ <;> omega) (fragmentPayload_pos f)
      omega
    · exact Or.inl (Nat.mul_ne_zero h0 (fragmentPayload_pos f).ne')
  refine ⟨?_, hfirst⟩
  have hle : i ≤ payload.length / fragmentPayload f := by omega
  cases f with
  | inet =>
    simp only [fragmentPayload_inet] at hsize hle hmod
    simp only [AllFit] at hfit
    refine ⟨by omega, ?_⟩
    simp only [fragmentPayload_inet]
    omega
  | inet6 =>
    simp only [fragmentPayload_inet6] at hsize hle hmod
    simp only [AllFit] at hfit
    refine ⟨by omega, ?_, ?_, hfirst.imp_left Nat.pos_of_ne_zero⟩
    · exact Dvd.dvd.mul_left (by decide) i
    · simp only [fragmentPayload_inet6]
      omega

/-- What the packet of a fragment is read back as. -/
theorem packetOf_read (src dest : SockAddr f) (proto : ℕ) (hop : UInt8) (packetID : ℕ)
    (hlong : f.mtu - f.headerLen < payload.length)
    (hmod : 0 < payload.length % fragmentPayload f) (hfit : AllFit f payload.length) {i : ℕ}
    (hi : i < numFragments f payload.length) :
    header2info f (packetOf src dest proto hop packetID payload i) =
        some ⟨(fragmentOf f payload i).fragOffset, (fragmentOf f payload i).fragSize,
          !(fragmentOf f payload i).lastFragment, (fragmentOf f payload i).data⟩ ∧
      ∀ lists ticks, passPacketToSocket f lists ticks
          (packetOf src dest proto hop packetID payload i) =
        (ipreasmPass f (reasmAddr f src.addr) (reasmAddr f dest.addr) (headerId f packetID) lists
          ticks (proto % 256) (fragmentOf f payload i).fragOffset (fragmentOf f payload i).data
          (fragmentOf f payload i).fragSize (!(fragmentOf f payload i).lastFragment), []) := by
  obtain ⟨hfits, hfrag⟩ := headerFits_fragmentOf hlong hmod hfit hi
  have hbound := ((fragments_fragmentOf hmod (by
    cases f <;> simp only [AllFit] at hfit <;> omega)).tiles.bounds
      (List.mem_map_of_mem (List.mem_range.2 hi))).2
  have hdata : ((payload.drop (i * fragmentPayload f)).take
      (sizeOfFragment f payload.length i)).length = sizeOfFragment f payload.length i := by
    simp only [fragmentOf] at hbound
    rw [List.length_take, List.length_drop]
    omega
  have hread := fragment_read src dest proto hop packetID hfits hfrag hdata
  simp only [fragmentOf, Bool.not_not]
  exact hread

/-- What the header of a fragment says. -/
def infoOf (x : IPFragment) : FragInfo := ⟨x.fragOffset, x.fragSize, !x.lastFragment, x.data⟩

theorem Fragments.partitions {ds : List IPFragment} {len : ℕ} (h : Fragments ds len) :
    Partitions (ds.map infoOf) len where
  bound := by
    simp only [List.forall_mem_map]
    exact fun x hx => ⟨h.tiles.size_pos hx, (h.tiles.bounds hx).2⟩
  disjoint := List.pairwise_map.2 (h.tiles.pairwise.imp Or.inl)
  cover := fun b hb => by
    obtain ⟨x, hx, hcover⟩ := h.tiles.covers (Nat.zero_le b) hb
    exact ⟨infoOf x, List.mem_map_of_mem hx, hcover⟩
  last := by
    simp only [List.forall_mem_map]
    exact fun x hx => by simpa [infoOf] using h.last x hx

/-- The fragments give the payload back when none is empty and their offsets fit. -/
theorem fragments_giveBack (hlong : f.mtu - f.headerLen < payload.length)
    (hmod : 0 < payload.length % fragmentPayload f) (hfit : AllFit f payload.length) :
    GivesBack f ((List.range (numFragments f payload.length)).map
      (packetOf src dest proto hop packetID payload)) payload := by
  have hds := fragments_fragmentOf (f := f) hmod (by
    cases f <;> simp only [AllFit] at hfit <;> omega)
  have hread := fun i (hi : i ∈ List.range (numFragments f payload.length)) =>
    packetOf_read src dest proto hop packetID hlong hmod hfit (List.mem_range.1 hi)
  refine ⟨⟨_, ?_, hds.partitions⟩, fun events T final hperm hticks hfinal => ?_⟩
  · simp only [List.map_map]
    exact List.map_congr_left fun i hi => (hread i hi).1
  · -- the packets are the images of the fragments
    obtain ⟨order, horder, hevents⟩ : ∃ order, (List.range (numFragments f payload.length)).Perm
        order ∧ events.filterMap ReasmEvent.packet =
          order.map (packetOf src dest proto hop packetID payload) := by
      have hcomp := congrFun₂ (List.eq_map_comp_perm (packetOf src dest proto hop packetID payload))
        (events.filterMap ReasmEvent.packet) (List.range (numFragments f payload.length))
      obtain ⟨order, he, hp⟩ := hcomp.mpr hperm
      exact ⟨order, hp.symm, he⟩
    have hindex : ∀ i, (fragmentOf f payload i).fragOffset / fragmentPayload f = i := fun i =>
      Nat.mul_div_cancel i (fragmentPayload_pos f)
    have hpass : ∀ x ∈ (List.range (numFragments f payload.length)).map (fragmentOf f payload),
        ∃ data : List UInt8, data.take x.fragSize = x.data ∧ ∀ lists ticks,
          passPacketToSocket f lists ticks
              (packetOf src dest proto hop packetID payload (x.fragOffset / fragmentPayload f)) =
            (ipreasmPass f (reasmAddr f src.addr) (reasmAddr f dest.addr) (headerId f packetID)
              lists ticks (proto % 256) x.fragOffset data x.fragSize (!x.lastFragment), []) := by
      simp only [List.forall_mem_map, hindex]
      intro i hi
      refine ⟨_, ?_, (hread i hi).2⟩
      simp [fragmentOf, List.take_take]
    have hpackets : events.filterMap ReasmEvent.packet = (order.map (fragmentOf f payload)).map
        fun x => packetOf src dest proto hop packetID payload
          (x.fragOffset / fragmentPayload f) := by
      rw [hevents, List.map_map]
      exact List.map_congr_left fun i _ => by simp only [Function.comp_apply, hindex]
    refine runEvents_delivers hds ?_ hpass hpackets (by simpa using (horder.map _).symm) hticks
      hfinal (Or.inl ⟨rfl, rfl⟩)
    simp only [List.forall_mem_map]
    exact fun i _ => rfl

/-- With a length that is a multiple of the fragment size, the last fragment is empty. -/
theorem not_giveBack_of_mod_zero (hlong : f.mtu - f.headerLen < payload.length)
    (hmax : payload.length ≤ 65515) (hmod : payload.length % fragmentPayload f = 0) :
    ¬ GivesBack f ((List.range (numFragments f payload.length)).map
      (packetOf src dest proto hop packetID payload)) payload := by
  rintro ⟨⟨infos, hinfos, hpart⟩, -⟩
  set m := fragmentPayload f with hm
  have hn : numFragments f payload.length = payload.length / m := by
    simp [numFragments, ← hm, hmod]
  have hmul : payload.length / m * m = payload.length :=
    Nat.div_mul_cancel (Nat.dvd_of_mod_eq_zero hmod)
  have hlong' : m < payload.length := by
    have : m ≤ f.mtu - f.headerLen := by cases f <;> decide
    omega
  have hq : 2 ≤ payload.length / m := by
    by_contra hlt
    have : payload.length / m * m ≤ 1 * m := Nat.mul_le_mul_right m (by omega)
    omega
  set i := payload.length / m - 1 with hi
  have hpacket : packetOf src dest proto hop packetID payload i =
      encapHeader src dest proto hop packetID 0 (i * m) false ++ [] := by
    simp [packetOf, encapFragment, hn, hmod, ← hm, ← hi]
  have hmem : packetOf src dest proto hop packetID payload i ∈
      (List.range (numFragments f payload.length)).map
        (packetOf src dest proto hop packetID payload) :=
    List.mem_map_of_mem (List.mem_range.2 (by omega))
  obtain ⟨info, he, hsize⟩ : ∃ info, header2info f
      (packetOf src dest proto hop packetID payload i) = some info ∧ info.size = 0 := by
    rw [hpacket]
    cases f with
    | inet =>
      obtain ⟨info, e, hsize, -⟩ :=
        @inet_read 0 src dest proto hop packetID (i * m) false [] (by decide)
      exact ⟨_, by simp only [header2info, e, Option.map_some]; rfl, hsize⟩
    | inet6 =>
      have hlt : i * m ≤ payload.length / m * m := Nat.mul_le_mul_right m (by omega)
      obtain ⟨info, e, hsize, -⟩ := @inet6_read 0 (i * m) false src dest proto hop packetID []
        (by decide) (Dvd.dvd.mul_left (by decide) i) (by omega)
        (Or.inl (Nat.mul_pos (by omega) (fragmentPayload_pos _)))
      exact ⟨_, by simp only [header2info, e, Option.map_some]; rfl, hsize⟩
  exact Nat.lt_irrefl 0 (hsize ▸ (hpart.bound info (mem_infos hinfos hmem he)).1)

/-- From 8340 bytes on there is an IPv4 fragment 15, whose offset is read as 148: it overlaps
fragment 0. -/
theorem not_giveBack_of_offset {src dest : SockAddr .inet} (hlong : 8340 ≤ payload.length)
    (hmod : 0 < payload.length % 556) :
    ¬ GivesBack .inet ((List.range (numFragments .inet payload.length)).map
      (packetOf src dest proto hop packetID payload)) payload := by
  rintro ⟨⟨infos, hinfos, hpart⟩, -⟩
  have hn : numFragments .inet payload.length = payload.length / 556 + 1 :=
    numFragments_of_mod_pos (f := .inet) hmod
  have hread : ∀ i, i < numFragments .inet payload.length → ∃ info ∈ infos,
      info.size = sizeOfFragment .inet payload.length i ∧ info.fragOff = i * 556 % 8192 := by
    intro i hi
    have hsize : sizeOfFragment .inet payload.length i ≤ 556 := by
      have := Nat.mod_lt payload.length (show 0 < 556 by decide)
      simp only [sizeOfFragment, fragmentPayload_inet]
      split_ifs <;> omega
    obtain ⟨info, e, hs, ho, -⟩ := @inet_read (sizeOfFragment .inet payload.length i) src dest proto
      hop packetID (i * 556) (i != numFragments .inet payload.length - 1)
      ((payload.drop (i * 556)).take (sizeOfFragment .inet payload.length i)) (by omega)
    exact ⟨⟨info.fragOff, info.size, info.moreFrags, _⟩, mem_infos hinfos
      (List.mem_map_of_mem (List.mem_range.2 hi)) (congrArg (Option.map _) e), hs, ho⟩
  obtain ⟨first, hfirst, hsize₀, hoff₀⟩ := hread 0 (by omega)
  obtain ⟨other, hother, -, hoff⟩ := hread 15 (by omega)
  have hsize : first.size = 556 := by
    rw [hsize₀, sizeOfFragment, if_pos]
    · rfl
    · rw [bne_iff_ne]
      omega
  have hpos := (hpart.bound other hother).1
  have hne : first ≠ other := fun e => by
    rw [e] at hoff₀
    omega
  rcases hpart.disjoint.forall hfirst hother hne with hsep | hsep <;> omega

end Fragments

/-! ## Whole packets -/

section Whole

variable {payload : List UInt8} {proto packetID : ℕ} {hop : UInt8}

theorem partitions_single {len : ℕ} {data : List UInt8} (hlen : 0 < len) :
    Partitions [⟨0, len, false, data⟩] len where
  bound := by simpa using hlen
  disjoint := List.pairwise_singleton _ _
  cover := fun b hb => ⟨_, List.mem_singleton_self _, Nat.zero_le b, by simpa using hb⟩
  last := by simp

theorem giveBack_single {f : Family} {packet : List UInt8} (info : FragInfo) {d : Delivery}
    (hlen : 0 < payload.length) (hinfo : header2info f packet = some info)
    (he : info = ⟨0, payload.length, false, payload⟩)
    (hpass : ∀ ticks, passPacketToSocket f [] ticks packet = ([], [d])) (hd : d.packet = payload) :
    GivesBack f [packet] payload := by
  subst he
  refine ⟨⟨_, by rw [List.map_singleton, hinfo]; rfl, partitions_single hlen⟩, ?_⟩
  intro events T final hperm _ _
  have hevents : (events ++ [(⟨final, none⟩ : ReasmEvent)]).filterMap ReasmEvent.packet =
      [packet] := by
    simpa using hperm.eq_singleton
  rw [runEvents_single hevents hpass, List.map_singleton, hd]

theorem whole_giveBack_inet {src dest : SockAddr .inet} (hpos : 0 < payload.length)
    (hlen : payload.length ≤ 65515) :
    GivesBack .inet [encapHeader src dest proto hop packetID payload.length 0 false ++ payload]
      payload := by
  obtain ⟨info, e, hsize, hoff, hmore, hdrop, -⟩ :=
    @inet_read payload.length src dest proto hop packetID 0 false payload (by omega)
  have hdata : (List.drop info.dataOffset (encapHeader src dest proto hop packetID payload.length 0
      false ++ payload)).take info.size = payload := by
    rw [hdrop, hsize, List.take_length]
  refine giveBack_single ⟨info.fragOff, info.size, info.moreFrags, payload⟩ hpos
    (d := ⟨.inet, info.saddr, info.daddr, info.proto, payload⟩) ?_ ?_ (fun ticks => ?_) rfl
  · simp only [header2info, e, Option.map_some, hdata]
  · rw [hoff, hsize, hmore]
    rfl
  · simp only [passPacketToSocket, e, hdata]
    rw [if_neg, if_neg]
    · rw [hoff, hmore]
      decide
    · rw [hsize, List.length_append]
      omega

theorem whole_giveBack_inet6_iff {src dest : SockAddr .inet6} (hpos : 0 < payload.length)
    (hlen : payload.length ≤ 65487) :
    GivesBack .inet6 [encapHeader src dest proto hop packetID payload.length 0 false ++ payload]
      payload ↔ proto % 256 ≠ fragmentHeader := by
  have hs := src.addr_length
  have hd := dest.addr_length
  constructor
  · -- the packet is read as a fragment with eight bytes less
    rintro ⟨⟨infos, hinfos, hpart⟩, -⟩ hproto
    obtain ⟨info, e, hsize⟩ := ipv6_header2info_fragmentHeader
      { saddr := src.addr, daddr := dest.addr, flowinfo := 0, proto, dataOffset := 0,
        size := payload.length, id := packetID, fragOff := 0, hop, moreFrags := false } payload hs hd
      rfl rfl rfl hproto
    obtain ⟨d, rfl, hde⟩ : ∃ d, infos = [d] ∧ d.size = info.size := by
      rw [List.map_singleton] at hinfos
      obtain ⟨d, l, rfl, he, hl⟩ := List.map_eq_cons_iff.1 hinfos.symm
      obtain rfl := List.map_eq_nil_iff.1 hl
      refine ⟨d, rfl, ?_⟩
      have heq := he.trans (congrArg (Option.map _) e)
      rw [Option.map_some, Option.some.injEq] at heq
      rw [heq]
    have hbound := hpart.bound d (List.mem_singleton_self d)
    obtain ⟨x, hx, hcover⟩ := hpart.cover 0 hpos
    obtain ⟨y, hy, hcover'⟩ := hpart.cover (payload.length - 1) (by omega)
    obtain rfl := List.mem_singleton.1 hx
    obtain rfl := List.mem_singleton.1 hy
    simp only [Nat.mod_eq_of_lt (show payload.length < 65536 by omega)] at hsize
    omega
  · intro hproto
    have e := ipv6_header2info_whole
      { saddr := src.addr, daddr := dest.addr, flowinfo := 0, proto, dataOffset := 0,
        size := payload.length, id := packetID, fragOff := 0, hop, moreFrags := false } payload hs hd
      rfl rfl rfl hproto
    set header := encapHeader src dest proto hop packetID payload.length 0 false with hheader
    have hhead : header.length = 40 := by
      simp [hheader, encapHeader, ipv6_info2header, be16, le16, le32, hs, hd, Family.addrLen]
    have hdata : ((header ++ payload).drop 40).take (payload.length % 65536) = payload := by
      rw [List.drop_left' hhead, Nat.mod_eq_of_lt (by omega), List.take_length]
    refine giveBack_single ⟨0, payload.length % 65536, false, payload⟩ hpos
      (d := ⟨.inet6, src.addr, dest.addr, proto % 256, payload⟩) ?_ ?_ (fun ticks => ?_) rfl
    · exact (congrArg (Option.map _) e).trans (by rw [Option.map_some]; simp only [hdata])
    · rw [Nat.mod_eq_of_lt (by omega)]
    · have hsize : ¬ payload.length % 65536 > (header ++ payload).length := by
        rw [List.length_append]
        omega
      simp only [passPacketToSocket, show ipv6_header2info (header ++ payload) = _ from e]
      rw [if_neg hsize, if_neg (by decide), hdata]

end Whole

/-! ## The round trip -/

section RoundTrip

variable {f : Family} {src dest : SockAddr f} {payload : List UInt8} {proto packetID : ℕ}
  {opts : SockOpts} {packets : List (List UInt8)}

/-- The largest payload of a packet. -/
def maxPayload : Family → ℕ
  | .inet => 65515
  | .inet6 => 65487

/-- The payload is sent whole, or in fragments of which none is empty and all have an offset that
fits; and it does not look like a fragment. -/
def RoundTrips (f : Family) (len proto : ℕ) : Prop :=
  match f with
  | .inet => len ≤ 556 ∨ len % 556 ≠ 0 ∧ len < 8340
  | .inet6 => len ≤ 1240 ∧ proto % 256 ≠ fragmentHeader ∨ 1240 < len ∧ len % 1232 ≠ 0

theorem hopLimit_of_sendPacketEx (hpos : 0 < payload.length)
    (h : sendPacketEx src dest payload proto opts packetID = .ok packets) :
    ∃ hop, hopLimit dest opts = .ok hop := by
  rcases hhop : hopLimit dest opts with e | hop
  · rw [sendPacketEx, if_neg hpos.ne', hhop] at h
    cases h
  · exact ⟨hop, rfl⟩

/-- The packets of a payload give it back exactly when it `RoundTrips`. -/
theorem sendPacketEx_givesBack_iff (hpos : 0 < payload.length)
    (hmax : payload.length ≤ maxPayload f) (hinc : opts.hdrinc = false)
    (hdont : opts.dontfrag = false) (hraw : proto ≠ IPPROTO_RAW)
    (hsend : sendPacketEx src dest payload proto opts packetID = .ok packets) :
    GivesBack f packets payload ↔ RoundTrips f payload.length proto := by
  obtain ⟨hop, hhop⟩ := hopLimit_of_sendPacketEx hpos hsend
  have hmax' : payload.length ≤ 65515 := hmax.trans (by cases f <;> decide)
  by_cases hfit : payload.length ≤ f.mtu - f.headerLen
  · rw [sendPacketEx_whole hpos hfit hinc hraw hhop, Except.ok.injEq] at hsend
    subst hsend
    cases f with
    | inet => exact iff_of_true (whole_giveBack_inet hpos hmax) (Or.inl hfit)
    | inet6 =>
      rw [whole_giveBack_inet6_iff hpos hmax]
      refine ⟨fun h => Or.inl ⟨hfit, h⟩, ?_⟩
      rintro (⟨-, h⟩ | ⟨hlong, -⟩)
      · exact h
      · exact absurd hfit (Nat.not_le.2 hlong)
  · have hlong := Nat.lt_of_not_le hfit
    have hsent := sendPacketEx_fragments src packetID hlong hinc hdont hraw hhop
    rw [hsent, Except.ok.injEq] at hsend
    subst hsend
    show GivesBack f ((List.range (numFragments f payload.length)).map
      (packetOf src dest proto hop packetID payload)) payload ↔ _
    rcases Nat.eq_zero_or_pos (payload.length % fragmentPayload f) with hmod | hmod
    · refine iff_of_false (not_giveBack_of_mod_zero hlong hmax' hmod) ?_
      cases f with
      | inet =>
        rintro (h | ⟨h, -⟩)
        · exact hfit h
        · exact h hmod
      | inet6 =>
        rintro (⟨h, -⟩ | ⟨-, h⟩)
        · exact hfit h
        · exact h hmod
    · cases f with
      | inet =>
        by_cases hlt : payload.length < 8340
        · exact iff_of_true (fragments_giveBack hlong hmod hlt) (Or.inr ⟨hmod.ne', hlt⟩)
        · refine iff_of_false (not_giveBack_of_offset (Nat.le_of_not_lt hlt) hmod) ?_
          rintro (h | ⟨-, h⟩)
          · exact hfit h
          · exact hlt h
      | inet6 =>
        exact iff_of_true (fragments_giveBack hlong hmod hmax) (Or.inr ⟨hlong, hmod.ne'⟩)

end RoundTrip

/-! ## Two fragments -/

/-- The address 127.0.0.1. -/
def loopback4 : SockAddr .inet := ⟨[127, 0, 0, 1], rfl, 0⟩

/-- Options of a new socket. -/
def defaultOpts : SockOpts := ⟨0, 0, false, false⟩

theorem sendPacketEx_loopback4 {payload : List UInt8} (h : 556 < payload.length) :
    sendPacketEx loopback4 loopback4 payload 17 defaultOpts 1 =
      .ok ((List.range (numFragments .inet payload.length)).map
        (packetOf loopback4 loopback4 17 64 1 payload)) :=
  sendPacketEx_fragments loopback4 1 h rfl rfl (by decide) rfl

/-- A UDP datagram of 600 bytes. -/
theorem sendPacketEx_givesBack_iff_udp :
    ∃ packets, sendPacketEx loopback4 loopback4 (List.replicate 600 7) 17 defaultOpts 1 =
      .ok packets ∧ GivesBack .inet packets (List.replicate 600 7) := by
  have hlen : (List.replicate 600 (7 : UInt8)).length = 600 := List.length_replicate
  have hsend := sendPacketEx_loopback4 (by rw [hlen]; decide)
  refine ⟨_, hsend, (sendPacketEx_givesBack_iff ?_ ?_ rfl rfl (by decide) hsend).2 ?_⟩
  · rw [hlen]
    decide
  · rw [hlen]
    decide
  · rw [hlen]
    exact Or.inr (by decide)

/-- A UDP datagram of 1112 bytes: the second fragment is sent without its data. -/
theorem sendPacketEx_not_givesBack :
    ∃ packets, sendPacketEx loopback4 loopback4 (List.replicate 1112 7) 17 defaultOpts 1 =
      .ok packets ∧ ¬ GivesBack .inet packets (List.replicate 1112 7) := by
  have hlen : (List.replicate 1112 (7 : UInt8)).length = 1112 := List.length_replicate
  refine ⟨_, sendPacketEx_loopback4 (by rw [hlen]; decide), not_giveBack_of_mod_zero ?_ ?_ ?_⟩
  · rw [hlen]
    decide
  · rw [hlen]
    decide
  · rw [hlen]
    decide

end Glidix.Net
