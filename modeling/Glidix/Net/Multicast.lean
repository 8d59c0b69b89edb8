import Glidix.Net.UdpSocket

/-!
# The datagrams that a UDP socket delivers

A mailbox is what a socket should be: it accepts the multicast datagrams for the groups that were joined and
not left since, and hands out what it has accepted in that order.  The code compares the address of a
group with the first bytes of the socket address, which begin with the family, so that the datagrams for
a group that was joined are lost.
-/

namespace Glidix.Net

open Glidix.Thread

/-- The units that a call of `udpsock_recvfrom` has taken and not given back. -/
def RecvfromCall.held : RecvfromCall → ℕ
  | .wait .. => 0
  | .take .. | .giveBack => 1

/-! ## The mailbox -/

/-- The name of a socket, the groups that were joined and not left since, and the datagrams that were
accepted. -/
structure Mailbox where
  sockname : SockaddrIn6
  joined : UDPGroup → Bool
  accepted : List UDPInbound

namespace Mailbox

/-- The destination was joined with the scope of the datagram or with scope 0. -/
def member (m : Mailbox) (dest : SockaddrIn6) : Bool :=
  m.joined ⟨dest.sin6_addr, dest.sin6_scope_id⟩ || m.joined ⟨dest.sin6_addr, 0⟩

/-- A datagram is for the socket. -/
def isFor (m : Mailbox) (dest : SockaddrIn6) (havev4addr : Bool) (udp : UDPPacket) : Bool :=
  m.sockname.Admits dest udp ∧
    if dest.IsMulticast then m.member dest
    else m.sockname.covers dest havev4addr ∧ udp.len.toNat ≤ udp.size

def step (m : Mailbox) : UdpEvent → Mailbox
  | .bound sockname => { m with sockname }
  | .joined group => { m with joined := Function.update m.joined group true }
  | .left group => { m with joined := Function.update m.joined group false }
  | .arrived src dest havev4addr udp =>
    if m.isFor dest havev4addr udp then { m with accepted := m.accepted ++ [inboundOf src udp] } else m

def empty : Mailbox := ⟨unspecName, fun _ => false, []⟩

end Mailbox

namespace UDPSocket

variable (p : UDPSocket)

/-- The mailbox after what has happened to the socket. -/
def mailbox : Mailbox := p.events.foldl Mailbox.step .empty

/-- The datagram that is about to be queued. -/
def coming : List UDPInbound :=
  match p.packetCall with
  | some (.queue inbound) => [inbound]
  | _ => []

/-- A group that is joined has the address of the datagram, and its scope or none. -/
def JoinedTo (dest : SockaddrIn6) : Prop :=
  ∃ group ∈ p.groups, group.addr = dest.sin6_addr ∧ (group.scope = dest.sin6_scope_id ∨ group.scope = 0)

/-- A datagram that arrives with the port of the socket and an admissible scope is not for a multicast
group that is joined, and has a valid length if its destination is the address of the socket. -/
def PacketFits (dest : SockaddrIn6) (havev4addr : Bool) (udp : UDPPacket) : Prop :=
  p.sockname.Admits dest udp →
    if dest.IsMulticast then ¬ p.JoinedTo dest
    else p.sockname.covers dest havev4addr → 8 ≤ udp.len.toNat

/-- The condition on a step; the queue has room for another datagram in the count of the
semaphore. -/
def Fits : UdpOp → Prop
  | .packet addrs _ dest6 udp proto =>
    proto = IPPROTO_UDP → p.PacketFits (addrs.dest dest6) addrs.havev4addr udp
  | .packetGo => p.queue.length + 1 < 2 ^ 31
  | _ => True

/-- What a step shows. -/
def Delivers (q : UDPSocket) (r : UdpResult) : UdpOp → Prop
  | .packet .. => r ≠ .fault
  | .recvTake i => ∀ len peek addrlen, p.recvCalls[i]? = some (.take len peek addrlen) →
    ∃ inbound, p.mailbox.accepted[p.received.length]? = some inbound ∧
      r = .datagram (inbound.payload.take len) (inbound.srcaddr.bytes.take (udpAddrLen addrlen)) ∧
      q.received = if peek then p.received else p.received ++ [inbound]
  | _ => True

variable {p} {q : UDPSocket} {r : UdpResult} {i : ℕ} {e : UdpEvent}

theorem mailbox_log (h : q.events = p.events ++ [e]) : q.mailbox = p.mailbox.step e := by
  rw [mailbox, mailbox, h, List.foldl_append]
  rfl

/-! ## The groups -/

/-- The groups in the socket are those of the mailbox. -/
structure Agrees (p : UDPSocket) (m : Mailbox) : Prop where
  name : m.sockname = p.sockname
  groups : ∀ group, m.joined group = true ↔ group ∈ p.groups
  nodup : p.groups.Nodup
  multicast : ∀ group ∈ p.groups, group.addr.toList.head? = some 0xFF

variable {m : Mailbox} {group : UDPGroup} {dest : SockaddrIn6} {udp : UDPPacket} {havev4addr : Bool}

theorem Agrees.congr {m' : Mailbox} (h : p.Agrees m) (hname : q.sockname = p.sockname)
    (hgroups : q.groups = p.groups) (hm : m'.sockname = m.sockname) (hjoined : m'.joined = m.joined) :
    q.Agrees m' where
  name := hm.trans (h.name.trans hname.symm)
  groups group := by rw [hjoined, hgroups, h.groups]
  nodup := hgroups ▸ h.nodup
  multicast := hgroups ▸ h.multicast

theorem Agrees.join (h : p.Agrees m) (haddr : group.addr.toList.head? = some 0xFF) {groups : List UDPGroup}
    (hmem : ∀ g, g ∈ groups ↔ g = group ∨ g ∈ p.groups) (hnodup : groups.Nodup)
    (hname : q.sockname = p.sockname) (hgroups : q.groups = groups) : q.Agrees (m.step (.joined group)) where
  name := h.name.trans hname.symm
  groups g := by
    rw [hgroups, hmem]
    by_cases hg : g = group
    · simp [Mailbox.step, hg]
    · simp [Mailbox.step, hg, h.groups]
  nodup := hgroups ▸ hnodup
  multicast g hg := by
    rw [hgroups, hmem] at hg
    obtain rfl | hg := hg
    · exact haddr
    · exact h.multicast g hg

theorem Agrees.joinGroup (h : p.Agrees m) (haddr : group.addr.toList.head? = some 0xFF)
    (hjoin : p.joinGroup group = (r, q)) :
    q.Agrees (m.step (.joined group)) ∧ q = { p with groups := q.groups, events := p.events ++ [.joined group] } ∨
      q = p := by
  unfold UDPSocket.joinGroup at hjoin
  split_ifs at hjoin with hmem hfull
  · cases hjoin
    refine .inl ⟨h.join haddr (fun g => ?_) h.nodup rfl rfl, rfl⟩
    exact ⟨.inr, fun hg => hg.elim (fun he => he ▸ hmem) id⟩
  · cases hjoin
    exact .inr rfl
  · cases hjoin
    refine .inl ⟨h.join haddr (fun g => ?_) ?_ rfl rfl, rfl⟩
    · rw [List.mem_append, List.mem_singleton, or_comm]
    · exact List.nodup_append.2 ⟨h.nodup, List.nodup_singleton _, fun a ha b hb hab =>
        hmem (List.mem_singleton.1 hb ▸ hab ▸ ha)⟩

/-- The list that a leave rebuilds. -/
theorem leaveGroup_groups : (p.leaveGroup group).2.groups = p.groups.erase group := by
  have hindex : p.groups.findIdx (· = group) = p.groups.idxOf group := rfl
  simp only [leaveGroup, hindex]
  split_ifs with hlast
  · exact (List.erase_of_not_mem (List.idxOf_eq_length_iff.1 hlast)).symm
  · rw [List.erase_eq_eraseIdx_of_idxOf rfl, List.eraseIdx_eq_take_drop_succ]

theorem Agrees.leaveGroup (h : p.Agrees m) : (p.leaveGroup group).2.Agrees (m.step (.left group)) where
  name := h.name
  groups g := by
    rw [leaveGroup_groups, h.nodup.mem_erase_iff]
    by_cases hg : g = group
    · simp [Mailbox.step, hg]
    · simp [Mailbox.step, hg, h.groups]
  nodup := by
    rw [leaveGroup_groups]
    exact h.nodup.erase group
  multicast g hg := by
    rw [leaveGroup_groups] at hg
    exact h.multicast g (List.mem_of_mem_erase hg)

/-- The search compares addresses with bytes that begin with the family, and finds nothing. -/
theorem Agrees.findGroup (h : p.Agrees m) (hfamily : dest.sin6_family = AF_INET6) :
    p.findGroup dest = false := by
  rw [UDPSocket.findGroup, List.any_eq_false]
  intro group hgroup hfound
  obtain ⟨haddr, -⟩ := of_decide_eq_true hfound
  have hfirst := h.multicast group hgroup
  have hbyte : (dest.bytes.take 16).head? = some 3 := by
    unfold SockaddrIn6.bytes
    rw [hfamily]
    rfl
  rw [haddr, hbyte] at hfirst
  revert hfirst
  decide

theorem Agrees.member_iff (h : p.Agrees m) : m.member dest = true ↔ p.JoinedTo dest := by
  unfold Mailbox.member JoinedTo
  rw [Bool.or_eq_true, h.groups, h.groups]
  constructor
  · rintro (hg | hg)
    · exact ⟨_, hg, rfl, .inl rfl⟩
    · exact ⟨_, hg, rfl, .inr rfl⟩
  · rintro ⟨⟨addr, scope⟩, hg, rfl, rfl | rfl⟩
    · exact .inl hg
    · exact .inr hg

/-- A multicast datagram with a valid length that the socket admits is treated as it should be exactly
if its group is not joined. -/
theorem Agrees.multicast_iff (h : p.Agrees m) (hfamily : dest.sin6_family = AF_INET6)
    (hmulticast : dest.IsMulticast) (hadmits : p.sockname.Admits dest udp) :
    p.accepts dest havev4addr udp = m.isFor dest havev4addr udp ↔ ¬ p.JoinedTo dest := by
  rw [← h.member_iff]
  simp [accepts, Mailbox.isFor, h.name, hadmits, hmulticast, h.findGroup hfamily]

/-- The socket accepts a datagram that meets the condition exactly if it should. -/
theorem Agrees.accepts (h : p.Agrees m) (hfamily : dest.sin6_family = AF_INET6)
    (hfits : p.PacketFits dest havev4addr udp) :
    p.accepts dest havev4addr udp = m.isFor dest havev4addr udp := by
  by_cases hadmits : p.sockname.Admits dest udp
  · have hfits := hfits hadmits
    by_cases hmulticast : dest.IsMulticast
    · rw [if_pos hmulticast] at hfits
      exact (h.multicast_iff hfamily hmulticast hadmits).2 hfits
    · simp [UDPSocket.accepts, Mailbox.isFor, h.name, hadmits, hmulticast]
  · simp [UDPSocket.accepts, Mailbox.isFor, h.name, hadmits]

/-! ## The counter -/

/-- A semaphore counts the `n` datagrams of the queue, but for the `k` units that calls have. -/
structure Counted (counter : SemUnits) (k n : ℕ) : Prop where
  sound : counter.Sound
  live : counter.terminated = false
  units : counter.left + k = n
  short : n < 2 ^ 31

variable {counter counter' : SemUnits} {k n : ℕ} {giveUp : Option GiveUp} {c : Int32}

theorem Counted.signal (h : Counted counter (k + 1) n) (hs : counter.signal 1 = some counter') :
    Counted counter' k n := by
  have hone : (1 : Int32).toInt.toNat = 1 := rfl
  have hunits := h.units
  have hshort := h.short
  obtain ⟨hsound, hterm, hleft⟩ := h.sound.signal (by decide) (by omega) hs
  rw [h.live] at hterm hleft
  rw [if_neg Bool.false_ne_true, hone] at hleft
  exact ⟨hsound, hterm, by omega, hshort⟩

theorem Counted.wait (h : Counted counter k n) (hs : counter.waitGen 1 giveUp = some (c, counter')) :
    Counted counter' (if c < 0 then k else k + 1) n := by
  obtain ⟨hsound, hsum, hterm, hle, hzero, -⟩ := h.sound.waitGen (fun _ => by decide) hs
  have hone : c.toInt ≤ 1 := hle (by decide)
  have hunits := h.units
  refine ⟨hsound, hterm.trans h.live, ?_, h.short⟩
  have hne : c.toInt ≠ 0 := fun he => by
    have := (hzero he).2
    rw [h.live] at this
    cases this
  split_ifs with hneg
  · rw [Int32.lt_iff_toInt_lt, Int32.toInt_zero] at hneg
    omega
  · rw [Int32.lt_iff_toInt_lt, Int32.toInt_zero] at hneg
    omega

theorem Counted.push (h : Counted counter k n) (hroom : n + 1 < 2 ^ 31) :
    Counted counter (k + 1) (n + 1) := by
  refine ⟨h.sound, h.live, ?_, hroom⟩
  rw [← Nat.add_assoc, h.units]

theorem Counted.pop (h : Counted counter (k + 1) (n + 1)) : Counted counter k n :=
  ⟨h.sound, h.live, Nat.succ.inj h.units, Nat.lt_of_succ_lt h.short⟩

/-- The units that the calls have: those of `udpsock_recvfrom` that were taken and not given back, and the one
that `udpsock_packet` has not signalled yet. -/
def held (p : UDPSocket) : ℕ :=
  tally RecvfromCall.held p.recvCalls + if p.packetCall = some .signal then 1 else 0

/-! ## The invariant -/

/-- The queue is counted and not locked, the groups are those of the mailbox, and what was accepted was
received, is queued, or is about to be. -/
structure Kept (p : UDPSocket) : Prop where
  unlocked : p.locked = false
  counted : Counted p.counter p.held p.queue.length
  agrees : p.Agrees p.mailbox
  order : p.received ++ p.queue ++ p.coming = p.mailbox.accepted

theorem Kept.setName {sockname : SockaddrIn6} (h : p.Kept) (hs : p.setName sockname = some (r, q)) :
    q.Kept := by
  unfold UDPSocket.setName at hs
  split_ifs at hs
  · cases hs
    exact h
  · cases hs
    have hmailbox := mailbox_log (p := p) (q := { p with
      sockname := { sockname with sin6_family := AF_INET6 }
      events := p.events ++ [.bound { sockname with sin6_family := AF_INET6 }] }) rfl
    refine ⟨h.unlocked, h.counted, ?_, ?_⟩
    · rw [hmailbox]
      exact ⟨rfl, h.agrees.groups, h.agrees.nodup, h.agrees.multicast⟩
    · rw [hmailbox]
      exact h.order

theorem Kept.mcast {op : ℤ} {scope : UInt32} {addr : In6Addr} (h : p.Kept)
    (hs : p.sys_mcast op scope addr = some (r, q)) : q.Kept := by
  unfold sys_mcast udpsock_mcast at hs
  split_ifs at hs with haddr _ _ _ hjoin
  · cases hs
    exact h
  · cases hs
    exact h
  · cases hs
    exact h
  · have hfirst : addr.toList.head? = some 0xFF := by
      rw [List.head?_eq_getElem?, List.getElem?_eq_getElem (by simp)]
      exact congrArg some (not_not.1 haddr)
    obtain ⟨hagrees, hq⟩ | rfl := h.agrees.joinGroup hfirst (Option.some.inj hs)
    · rw [hq] at hagrees ⊢
      have hmailbox := mailbox_log (p := p) (q := { p with
        groups := q.groups
        events := p.events ++ [.joined ⟨addr, scope⟩] }) rfl
      refine ⟨h.unlocked, h.counted, hmailbox ▸ hagrees, ?_⟩
      rw [hmailbox]
      exact h.order
    · exact h
  · obtain rfl : (p.leaveGroup ⟨addr, scope⟩).2 = q := congrArg Prod.snd (Option.some.inj hs)
    have hmailbox : (p.leaveGroup ⟨addr, scope⟩).2.mailbox = _ := mailbox_log rfl
    refine ⟨h.unlocked, h.counted, hmailbox ▸ h.agrees.leaveGroup, ?_⟩
    rw [hmailbox]
    exact h.order
  · cases hs
    exact h

/-- A datagram arrives. -/
theorem Kept.packet6 {src : SockaddrIn6} (h : p.Kept) (hfree : p.packetCall = none)
    (hfamily : dest.sin6_family = AF_INET6) (hfits : p.PacketFits dest havev4addr udp)
    (hs : p.packet6 src dest havev4addr udp = (r, q)) : q.Kept ∧ r ≠ .fault := by
  have hsame := h.agrees.accepts hfamily hfits
  have hcoming : p.coming = [] := by rw [coming, hfree]
  have horder := h.order
  rw [hcoming, List.append_nil] at horder
  have hmailbox : ∀ {call : Option PacketCall}, UDPSocket.mailbox { p with
      events := p.events ++ [.arrived src dest havev4addr udp]
      packetCall := call } = p.mailbox.step (.arrived src dest havev4addr udp) := mailbox_log rfl
  unfold UDPSocket.packet6 at hs
  dsimp only at hs
  split_ifs at hs with haccept hshort
  · exfalso
    rw [UDPSocket.accepts, decide_eq_true_eq] at haccept
    obtain ⟨hadmits, hfor, -⟩ := haccept
    have hlong := hfits hadmits
    split_ifs at hfor hlong with hmulticast
    · rw [h.agrees.findGroup hfamily] at hfor
      cases hfor
    · exact absurd (hlong hfor) (Nat.not_le.2 hshort)
  · cases hs
    have hnone : (none : Option PacketCall) ≠ some .signal := fun he => by cases he
    have hheld : p.held = tally RecvfromCall.held p.recvCalls := by
      rw [held, hfree, if_neg hnone]
      rfl
    refine ⟨⟨h.unlocked, ?_, ?_, ?_⟩, fun he => by cases he⟩
    · have hcounted := h.counted
      rw [hheld] at hcounted
      exact hcounted
    · rw [hmailbox, Mailbox.step]
      split_ifs <;> exact h.agrees.congr rfl rfl rfl rfl
    · rw [hmailbox, Mailbox.step, if_pos (hsame.symm.trans haccept), ← horder]
      rfl
  · cases hs
    have hlog : UDPSocket.mailbox { p with events := p.events ++ [.arrived src dest havev4addr udp] } =
        p.mailbox := by
      rw [mailbox_log (p := p) (e := .arrived src dest havev4addr udp) rfl, Mailbox.step,
        if_neg fun he => haccept (hsame.trans he)]
    refine ⟨⟨h.unlocked, h.counted, ?_, ?_⟩, fun he => by cases he⟩
    · rw [hlog]
      exact h.agrees.congr rfl rfl rfl rfl
    · rw [hlog]
      exact h.order

theorem Kept.packet {addrs : PacketAddrs} {src6 dest6 : SockaddrIn6} {proto : ℕ} (h : p.Kept)
    (hfits : p.Fits (.packet addrs src6 dest6 udp proto))
    (hs : p.udpsock_packet addrs src6 dest6 udp proto = some (r, q)) : q.Kept ∧ r ≠ .fault := by
  unfold udpsock_packet at hs
  split_ifs at hs with hbusy hproto hfamily
  · cases hs
    exact ⟨h, fun he => by cases he⟩
  · cases hs
    exact ⟨h, fun he => by cases he⟩
  · have hfree : p.packetCall = none := by
      rw [← Option.not_isSome_iff_eq_none]
      exact fun hsome => hbusy (.inr hsome)
    exact h.packet6 hfree (not_not.1 hfamily) (hfits (not_not.1 hproto)) (Option.some.inj hs)

theorem Kept.packetGo (h : p.Kept) (hroom : p.queue.length + 1 < 2 ^ 31)
    (hs : p.packetGo = some (r, q)) : q.Kept := by
  unfold UDPSocket.packetGo at hs
  have hcounted := h.counted
  have horder := h.order
  split at hs
  · cases hs
  · next inbound hcall =>
    split_ifs at hs
    cases hs
    have hne : some (PacketCall.queue inbound) ≠ some .signal := fun he => by cases he
    rw [held, hcall, if_neg hne] at hcounted
    rw [coming, hcall] at horder
    refine ⟨h.unlocked, ?_, h.agrees.congr rfl rfl rfl rfl, ?_⟩
    · simp only [held, if_true, List.length_append, List.length_singleton]
      exact hcounted.push hroom
    · simp only [coming, List.append_nil, ← List.append_assoc]
      exact horder
  · next hcall =>
    obtain ⟨counter, hsignal, he⟩ := Option.map_eq_some_iff.1 hs
    cases he
    rw [held, hcall, if_pos rfl] at hcounted
    rw [coming, hcall] at horder
    exact ⟨h.unlocked, hcounted.signal hsignal, h.agrees.congr rfl rfl rfl rfl, horder⟩

theorem Kept.recvWait (h : p.Kept) (hs : p.recvWait i giveUp = some (r, q)) : q.Kept := by
  unfold UDPSocket.recvWait at hs
  split at hs
  · next len peek addrlen hcall =>
    obtain ⟨⟨c, counter⟩, hwait, he⟩ := Option.map_eq_some_iff.1 hs
    have hcounted := h.counted.wait hwait
    dsimp only at he
    split_ifs at he hcounted with hneg
    · cases he
      have herase : tally RecvfromCall.held (p.recvCalls.eraseIdx i) + 0 =
        tally RecvfromCall.held p.recvCalls := tally_eraseIdx hcall
      refine ⟨h.unlocked, ?_, h.agrees.congr rfl rfl rfl rfl, h.order⟩
      rw [held, ← herase] at hcounted
      exact hcounted
    · cases he
      have hset : tally RecvfromCall.held (p.recvCalls.set i (.take len peek addrlen)) + 0 =
        tally RecvfromCall.held p.recvCalls + 1 := tally_set hcall
      refine ⟨h.unlocked, ?_, h.agrees.congr rfl rfl rfl rfl, h.order⟩
      rw [held, Nat.add_right_comm, ← hset] at hcounted
      exact hcounted
  · cases hs

/-- A call with a unit finds the next datagram of the mailbox in the queue. -/
theorem Kept.next {len : ℕ} {peek : Bool} {addrlen : Option ℕ} (h : p.Kept)
    (hcall : p.recvCalls[i]? = some (.take len peek addrlen)) :
    ∃ inbound rest, p.queue = inbound :: rest ∧
      p.mailbox.accepted[p.received.length]? = some inbound := by
  have hheld : 1 ≤ tally RecvfromCall.held p.recvCalls :=
    le_tally (p := RecvfromCall.held) (List.mem_of_getElem? hcall)
  have hunits := h.counted.units
  rw [held] at hunits
  obtain ⟨inbound, rest, hqueue⟩ := List.exists_cons_of_length_pos (l := p.queue) (by omega)
  refine ⟨inbound, rest, hqueue, ?_⟩
  rw [← h.order, hqueue, List.append_assoc, List.getElem?_append_right le_rfl, Nat.sub_self]
  rfl

theorem Kept.recvTake (h : p.Kept) (hs : p.recvTake i = some (r, q)) :
    q.Kept ∧ p.Delivers q r (.recvTake i) := by
  unfold UDPSocket.recvTake at hs
  split at hs
  · next len peek addrlen hcall =>
    rw [if_neg (by rw [h.unlocked]; exact Bool.false_ne_true)] at hs
    obtain ⟨inbound, rest, hqueue, hnext⟩ := h.next hcall
    have hcounted := h.counted
    have horder := h.order
    rw [hqueue] at hcounted horder
    simp only [hqueue] at hs
    split_ifs at hs with hpeek
    · cases hs
      have hset : tally RecvfromCall.held (p.recvCalls.set i .giveBack) =
        tally RecvfromCall.held p.recvCalls := tally_set_eq hcall rfl
      refine ⟨⟨h.unlocked, ?_, h.agrees.congr rfl rfl rfl rfl, horder⟩, fun len' peek' addrlen' hc => ?_⟩
      · rw [held, ← hset] at hcounted
        exact hcounted
      · cases hcall.symm.trans hc
        exact ⟨inbound, hnext, rfl, (if_pos hpeek).symm⟩
    · cases hs
      have herase : tally RecvfromCall.held (p.recvCalls.eraseIdx i) + 1 =
        tally RecvfromCall.held p.recvCalls := tally_eraseIdx hcall
      refine ⟨⟨h.unlocked, ?_, h.agrees.congr rfl rfl rfl rfl, ?_⟩, fun len' peek' addrlen' hc => ?_⟩
      · rw [held, ← herase, Nat.add_right_comm] at hcounted
        exact hcounted.pop
      · rw [List.append_cons] at horder
        exact horder
      · cases hcall.symm.trans hc
        exact ⟨inbound, hnext, rfl, (if_neg hpeek).symm⟩
  · cases hs

theorem Kept.recvGiveBack (h : p.Kept) (hs : p.recvGiveBack i = some (r, q)) : q.Kept := by
  unfold UDPSocket.recvGiveBack at hs
  split at hs
  · next hcall =>
    obtain ⟨counter, hsignal, he⟩ := Option.map_eq_some_iff.1 hs
    cases he
    have herase : tally RecvfromCall.held (p.recvCalls.eraseIdx i) + 1 =
      tally RecvfromCall.held p.recvCalls := tally_eraseIdx hcall
    have hcounted := h.counted
    rw [held, ← herase, Nat.add_right_comm] at hcounted
    exact ⟨h.unlocked, hcounted.signal hsignal, h.agrees.congr rfl rfl rfl rfl, h.order⟩
  · cases hs

/-- What a step that meets the condition keeps and shows. -/
theorem Kept.step {op : UdpOp} (h : p.Kept) (hfits : p.Fits op) (hs : p.step op = some (r, q)) :
    q.Kept ∧ p.Delivers q r op := by
  cases op with
  | setName sockname => exact ⟨h.setName hs, trivial⟩
  | shutdown =>
    cases hs
    exact ⟨⟨h.unlocked, h.counted, h.agrees.congr rfl rfl rfl rfl, h.order⟩, trivial⟩
  | mcast op scope addr => exact ⟨h.mcast hs, trivial⟩
  | packet addrs src6 dest6 udp proto => exact h.packet hfits hs
  | packetGo => exact ⟨h.packetGo hfits hs, trivial⟩
  | recvfrom len peek addrlen =>
    cases hs
    have hcounted := h.counted
    have hheld : tally RecvfromCall.held (.wait len peek addrlen :: p.recvCalls) =
      tally RecvfromCall.held p.recvCalls := tally_cons.trans (Nat.zero_add _)
    rw [held, ← hheld] at hcounted
    exact ⟨⟨h.unlocked, hcounted, h.agrees.congr rfl rfl rfl rfl, h.order⟩, trivial⟩
  | recvWait i giveUp => exact ⟨h.recvWait hs, trivial⟩
  | recvTake i => exact h.recvTake hs
  | recvGiveBack i => exact ⟨h.recvGiveBack hs, trivial⟩

theorem kept_create : CreateUDPSocket.Kept where
  unlocked := rfl
  counted := ⟨⟨SemUnits.valid_of_nonneg (by decide), by decide⟩, rfl, rfl, by decide⟩
  agrees := ⟨rfl, fun _ => by simp [mailbox, CreateUDPSocket, Mailbox.empty], List.nodup_nil, fun _ hg =>
    absurd hg List.not_mem_nil⟩
  order := rfl

theorem kept_of_run (h : udpSystem.ReachesBy Fits p) : p.Kept := by
  refine h.invariant (fun p hp => ?_) fun p op q hp hfits hs => ?_
  · obtain rfl : p = CreateUDPSocket := hp
    exact kept_create
  · obtain ⟨r, hs⟩ := hs
    exact (hp.step hfits hs).1

/-- In a run whose steps meet the condition, what a mailbox accepts was received, is queued, or is about to be,
in the order of arrival; `recvfrom` returns the next of it, and the queue is never left locked. -/
theorem delivered_of_run (h : udpSystem.ReachesBy Fits p) :
    p.received ++ p.queue ++ p.coming = p.mailbox.accepted ∧ p.locked = false ∧
      ∀ op r q, p.Fits op → p.step op = some (r, q) → p.Delivers q r op := by
  have hkept := kept_of_run h
  exact ⟨hkept.order, hkept.unlocked, fun op r q hfits hs => (hkept.step hfits hs).2⟩

/-! ## Runs -/

instance (p : UDPSocket) (dest : SockaddrIn6) : Decidable (p.JoinedTo dest) :=
  inferInstanceAs (Decidable (∃ group ∈ p.groups, _))

instance (p : UDPSocket) (dest : SockaddrIn6) (havev4addr : Bool) (udp : UDPPacket) :
    Decidable (p.PacketFits dest havev4addr udp) :=
  inferInstanceAs (Decidable (p.sockname.Admits dest udp → ite _ _ _))

instance (p : UDPSocket) : DecidablePred p.Fits
  | .packet _ _ _ _ proto => inferInstanceAs (Decidable (proto = IPPROTO_UDP → _))
  | .packetGo => inferInstanceAs (Decidable (_ < _))
  | .setName _ | .shutdown | .mcast .. | .recvfrom .. | .recvWait .. | .recvTake _ | .recvGiveBack _ =>
    .isTrue trivial

/-- A host of the local network, and its socket address. -/
def neighbour : SockaddrIn6 :=
  ⟨AF_INET6, 0, 0, #v[0xFE, 0x80, 0, 0, 0, 0, 0, 0, 0, 0, 0, 0, 0, 0, 0, 1], 2⟩

def allNodes : In6Addr := #v[0xFF, 2, 0, 0, 0, 0, 0, 0, 0, 0, 0, 0, 0, 0, 0, 1]

/-- A datagram of one byte for port 5353. -/
def greeting : UDPPacket := ⟨0xE914, 0xE914, 9, 0, [7]⟩

theorem delivered_greeting : ∃ p : UDPSocket, p.received.length = 1 ∧ p.groups ≠ [] ∧
    p.received ++ p.queue ++ p.coming = p.mailbox.accepted := by
  have hrun : (System.execBy Fits (fun p op => (UDPSocket.step p op).map Prod.snd) CreateUDPSocket
      [.setName { unspecName with sin6_port := 0xE914 }, .mcast MCAST_JOIN_GROUP 2 allNodes,
        .packet (.inet6 neighbour neighbour) unspecName unspecName greeting IPPROTO_UDP, .packetGo,
        .packetGo, .recvfrom 10 false (some 28), .recvWait 0 none, .recvTake 0]).any
      (fun p => p.received.length = 1 ∧ p.groups ≠ []) = true := by
    decide
  obtain ⟨p, hp, hgot⟩ := (Option.any_eq_true ..).1 hrun
  have hreach := System.ReachesBy.execBy (fun _ _ _ => udp_step) (.init rfl) hp
  exact ⟨p, (of_decide_eq_true hgot).1, (of_decide_eq_true hgot).2, (delivered_of_run hreach).1⟩

/-- A datagram for a group that was joined with its scope is neither received nor queued. -/
theorem joined_datagram_lost : ∃ p : UDPSocket, udpSystem.Reachable p ∧
    p.received ++ p.queue ++ p.coming = [] ∧ p.mailbox.accepted = [inboundOf neighbour greeting] := by
  have hrun : (System.execBy (fun _ _ => True) (fun p op => (UDPSocket.step p op).map Prod.snd)
      CreateUDPSocket
      [.setName { unspecName with sin6_port := 0xE914 }, .mcast MCAST_JOIN_GROUP 2 allNodes,
        .packet (.inet6 neighbour { neighbour with sin6_addr := allNodes }) unspecName unspecName
          greeting IPPROTO_UDP]).any
      (fun p => p.received ++ p.queue ++ p.coming = [] ∧
        p.mailbox.accepted = [inboundOf neighbour greeting]) = true := by
    decide
  obtain ⟨p, hp, hgot⟩ := (Option.any_eq_true ..).1 hrun
  have hreach := System.ReachesBy.execBy (fun _ _ _ => udp_step) (.init rfl) hp
  exact ⟨p, hreach, (of_decide_eq_true hgot).1, (of_decide_eq_true hgot).2⟩

end UDPSocket

end Glidix.Net
