import Mathlib.Data.Finset.Card
import Mathlib.Data.Finset.Range
import Glidix.Net.Ports

/-!
# The owners of local addresses

A bit of the bitmap is set exactly while a socket has the port, and two sockets with one port have
addresses that were claimed and do not conflict.  This needs the bitmap to be clear at the start, a free
port for every implicit `bind` (`AllocPort` returns zero otherwise, and nobody looks), and no `listen`
on a socket without a name, whose port is never given back.
-/

namespace Glidix.Net

/-- The same port, and equal addresses or one of them the any-address. -/
def InetName.Conflicts (a b : InetName) : Prop :=
  a.port = b.port ∧ (a.family = b.family ∧ a.addr = b.addr ∨ a.isAny = true ∨ b.isAny = true)

instance (a b : InetName) : Decidable (a.Conflicts b) := inferInstanceAs (Decidable (_ ∧ _))

theorem InetName.Conflicts.symm {a b : InetName} (h : a.Conflicts b) : b.Conflicts a :=
  ⟨h.1.symm, h.2.imp (fun he => ⟨he.1.symm, he.2.symm⟩) Or.symm⟩

/-- Both sockets are bound to an interface, and not to the same. -/
def NetSocket.OtherIf (s s' : NetSocket) : Prop :=
  s.ifname ≠ [] ∧ s'.ifname ≠ [] ∧ s.ifname ≠ s'.ifname

theorem NetSocket.OtherIf.symm {s s' : NetSocket} (h : s.OtherIf s') : s'.OtherIf s :=
  ⟨h.2.1, h.1, h.2.2.symm⟩

/-- Two sockets do not conflict, and have one port only if it is not ephemeral. -/
def NetSocket.Apart (s s' : NetSocket) : Prop :=
  ∀ a ∈ s.sockname, ∀ b ∈ s'.sockname, a.port = b.port →
    a.port < 49152 ∧ (s.OtherIf s' ∨ ¬ a.Conflicts b)

theorem NetSocket.Apart.symm {s s' : NetSocket} (h : s.Apart s') : s'.Apart s := fun b hb a ha he =>
  ⟨he ▸ (h a ha b hb he.symm).1, (h a ha b hb he.symm).2.imp NetSocket.OtherIf.symm
    fun hn hc => hn hc.symm⟩

theorem NetSocket.port_of_name {s : NetSocket} {a : InetName} (h : s.sockname = some a) :
    s.port = a.port := by rw [NetSocket.port, h]

theorem NetSocket.port_of_none {s : NetSocket} (h : s.sockname = none) : s.port = 0 := by
  rw [NetSocket.port, h]

/-- What the code sees before it claims an address. -/
theorem NetSocket.not_conflicts {s s' : NetSocket} {a b : InetName}
    (hblocks : s'.blocks a s.ifname = false) (hb : s'.sockname = some b) :
    s.OtherIf s' ∨ ¬ a.Conflicts b := by
  simp only [NetSocket.blocks, hb] at hblocks
  split_ifs at hblocks with hif hany hother hfamily
  · exact .inl hif
  · exact .inr fun hc => of_decide_eq_false hblocks hc.1
  · exact .inr fun hc => of_decide_eq_false hblocks hc.1
  · refine .inr fun hc => of_decide_eq_false hblocks ⟨?_, hc.1⟩
    obtain ⟨-, haddr⟩ | hc | hc := hc.2
    · exact haddr
    · exact absurd hc hany
    · exact absurd hc hother
  · refine .inr fun hc => ?_
    obtain ⟨he, -⟩ | hc | hc := hc.2
    · exact hfamily he
    · exact hany hc
    · exact hother hc

/-- An address with another port is never in the way. -/
theorem NetSocket.not_blocks {s : NetSocket} {a : InetName} {ifname : List UInt8}
    (h : ∀ b, s.sockname = some b → a.port ≠ b.port) : s.blocks a ifname = false := by
  unfold NetSocket.blocks
  split
  · rfl
  · next b hb =>
    have hne := h b hb
    split_ifs <;> simp [hne]

/-! ## The invariant -/

/-- `fd` is a socket with this port. -/
def Owns (g : ℕ → Option NetSocket) (port fd : ℕ) : Prop := ∃ s, g fd = some s ∧ s.port = port

/-- The bitmap and the names are right, for sockets given by their numbers. -/
structure PortsKept (g : ℕ → Option NetSocket) (e : ℕ → Bool) : Prop where
  bits : ∀ i < 16384, e i = true ↔ ∃ fd, Owns g (49152 + i) fd
  bound : ∀ fd s, g fd = some s → s.port < 49152 + 16384
  thread : ∀ fd s, g fd = some s → s.type = .tcp → 49152 ≤ s.port → s.thread = true
  apart : ∀ fd fd' s s', fd ≠ fd' → g fd = some s → g fd' = some s' → s.Apart s'

variable {g : ℕ → Option NetSocket} {e e' : ℕ → Bool} {fd fd' i : ℕ} {old new s s' : NetSocket}
  {name : InetName}

theorem owns_update {o : Option NetSocket} {port : ℕ} :
    (∃ fd', Owns (Function.update g fd o) port fd') ↔
      (∃ s ∈ o, s.port = port) ∨ ∃ fd' ≠ fd, Owns g port fd' := by
  constructor
  · rintro ⟨fd', s, hs, hp⟩
    obtain rfl | hne := eq_or_ne fd' fd
    · rw [Function.update_self] at hs
      exact .inl ⟨s, hs, hp⟩
    · rw [Function.update_of_ne hne] at hs
      exact .inr ⟨fd', hne, s, hs, hp⟩
  · rintro (⟨s, hs, hp⟩ | ⟨fd', hne, s, hs, hp⟩)
    · exact ⟨fd, s, by rw [Function.update_self]; exact hs, hp⟩
    · exact ⟨fd', s, by rw [Function.update_of_ne hne]; exact hs, hp⟩

/-- One socket changes, and the bitmap with it. -/
theorem PortsKept.update {o : Option NetSocket} (h : PortsKept g e)
    (hbits : ∀ i < 16384, e' i = true ↔
      (∃ s ∈ o, s.port = 49152 + i) ∨ ∃ fd' ≠ fd, Owns g (49152 + i) fd')
    (hbound : ∀ s ∈ o, s.port < 49152 + 16384)
    (hthread : ∀ s ∈ o, s.type = .tcp → 49152 ≤ s.port → s.thread = true)
    (hapart : ∀ s ∈ o, ∀ fd' s', fd' ≠ fd → g fd' = some s' → s.Apart s') :
    PortsKept (Function.update g fd o) e' := by
  refine ⟨fun i hi => (hbits i hi).trans owns_update.symm, fun fd' s hs => ?_, fun fd' s hs => ?_,
    fun fd₁ fd₂ s s' hne hs hs' => ?_⟩
  · obtain rfl | hne := eq_or_ne fd' fd
    · rw [Function.update_self] at hs
      exact hbound s hs
    · rw [Function.update_of_ne hne] at hs
      exact h.bound fd' s hs
  · obtain rfl | hne := eq_or_ne fd' fd
    · rw [Function.update_self] at hs
      exact hthread s hs
    · rw [Function.update_of_ne hne] at hs
      exact h.thread fd' s hs
  · obtain rfl | hne₁ := eq_or_ne fd₁ fd
    · rw [Function.update_self] at hs
      rw [Function.update_of_ne hne.symm] at hs'
      exact hapart s hs fd₂ s' hne.symm hs'
    · rw [Function.update_of_ne hne₁] at hs
      obtain rfl | hne₂ := eq_or_ne fd₂ fd
      · rw [Function.update_self] at hs'
        exact (hapart s' hs' fd₁ s hne₁ hs).symm
      · rw [Function.update_of_ne hne₂] at hs'
        exact h.apart fd₁ fd₂ s s' hne hs hs'

/-- Who has a port, if one socket is looked at apart from the others. -/
theorem owns_split (hfd : g fd = some old) {port : ℕ} :
    (∃ fd', Owns g port fd') ↔ old.port = port ∨ ∃ fd' ≠ fd, Owns g port fd' := by
  have hsame : Function.update g fd (some old) = g := by rw [← hfd, Function.update_eq_self]
  rw [← hsame, owns_update]
  simp [hsame]

/-- The name, the type and the interface of a socket stay as they are. -/
theorem PortsKept.same (h : PortsKept g e) (hfd : g fd = some old) (hname : new.sockname = old.sockname)
    (hif : new.ifname = old.ifname) (htype : new.type = old.type)
    (hthread : old.thread = true → new.thread = true) :
    PortsKept (Function.update g fd (some new)) e := by
  have hport : new.port = old.port := by rw [NetSocket.port, hname, NetSocket.port]
  refine h.update (fun i hi => ?_) ?_ ?_ ?_
  · rw [h.bits i hi, owns_split hfd]
    simp [hport]
  · rintro s ⟨rfl⟩
    exact hport ▸ h.bound fd old hfd
  · rintro s ⟨rfl⟩ ht hp
    exact hthread (h.thread fd old hfd (htype ▸ ht) (hport ▸ hp))
  · rintro s ⟨rfl⟩ fd' s' hne hs' a ha b hb he
    obtain ⟨hlt, hc⟩ := h.apart fd fd' old s' hne.symm hfd hs' a (hname ▸ ha) b hb he
    exact ⟨hlt, hc.imp_left fun ho => ⟨hif ▸ ho.1, ho.2.1, hif ▸ ho.2.2⟩⟩

/-- A socket without a name gets an address that was claimed. -/
theorem PortsKept.claimed (h : PortsKept g e) (hfd : g fd = some old) (hnone : old.sockname = none)
    (hname : new.sockname = some name) (hlt : name.port < 49152) (hif : new.ifname = old.ifname)
    (hclaim : ∀ fd' s', g fd' = some s' → s'.blocks name old.ifname = false) :
    PortsKept (Function.update g fd (some new)) e := by
  have hport := NetSocket.port_of_name hname
  have hold := NetSocket.port_of_none hnone
  refine h.update (fun i hi => ?_) ?_ ?_ ?_
  · rw [h.bits i hi, owns_split hfd]
    simp only [hold, Option.mem_some_iff, exists_eq_left', hport]
    exact or_congr ⟨fun he => by omega, fun he => by omega⟩ Iff.rfl
  · rintro s ⟨rfl⟩
    omega
  · rintro s ⟨rfl⟩ - hp
    omega
  · rintro s ⟨rfl⟩ fd' s' hne hs' a ha b hb he
    obtain rfl := Option.some.inj (ha.symm.trans hname)
    exact ⟨hlt, NetSocket.not_conflicts (hif ▸ hclaim fd' s' hs') hb⟩

/-- A socket without a name gets a free ephemeral port. -/
theorem PortsKept.ephemeral (h : PortsKept g e) (hfd : g fd = some old) (hnone : old.sockname = none)
    (hi : i < 16384) (hfree : e i = false) (hname : new.sockname = some name)
    (hport : name.port = 49152 + i) (hthread : new.type = .tcp → new.thread = true) :
    PortsKept (Function.update g fd (some new)) (Function.update e i true) := by
  have hnew := (NetSocket.port_of_name hname).trans hport
  have hold := NetSocket.port_of_none hnone
  have hnobody : ¬∃ fd', Owns g (49152 + i) fd' := fun ho => by
    rw [(h.bits i hi).2 ho] at hfree
    cases hfree
  refine h.update (fun j hj => ?_) ?_ ?_ ?_
  · simp only [Option.mem_some_iff, exists_eq_left', hnew]
    obtain rfl | hne := eq_or_ne j i
    · simp
    · rw [Function.update_of_ne hne, h.bits j hj, owns_split hfd, hold]
      exact or_congr ⟨fun he => by omega, fun he => by omega⟩ Iff.rfl
  · rintro s ⟨rfl⟩
    omega
  · rintro s ⟨rfl⟩ ht -
    exact hthread ht
  · rintro s ⟨rfl⟩ fd' s' hne hs' a ha b hb he
    obtain rfl := Option.some.inj (ha.symm.trans hname)
    exact absurd ⟨fd', s', hs', (NetSocket.port_of_name hb).trans (he.symm.trans hport)⟩ hnobody

/-- A new socket has no name. -/
theorem PortsKept.create (h : PortsKept g e) (hfd : g fd = none) (hname : new.sockname = none) :
    PortsKept (Function.update g fd (some new)) e := by
  have hport := NetSocket.port_of_none hname
  refine h.update (fun i hi => ?_) ?_ ?_ ?_
  · rw [h.bits i hi]
    simp only [Option.mem_some_iff, exists_eq_left', hport]
    constructor
    · rintro ⟨fd', s, hs, hp⟩
      refine .inr ⟨fd', fun he => ?_, s, hs, hp⟩
      rw [he, hfd] at hs
      cases hs
    · rintro (he | ⟨fd', -, ho⟩)
      · omega
      · exact ⟨fd', ho⟩
  · rintro s ⟨rfl⟩
    omega
  · rintro s ⟨rfl⟩ - hp
    omega
  · rintro s ⟨rfl⟩ fd' s' - - a ha
    rw [hname] at ha
    cases ha

/-- A socket is gone, and its port is free. -/
theorem PortsKept.freed (h : PortsKept g e) (hfd : g fd = some old)
    (he : e' = if 49152 ≤ old.port then Function.update e (old.port - 49152) false else e) :
    PortsKept (Function.update g fd none) e' := by
  refine h.update (fun i hi => ?_) (fun _ hs => nomatch hs) (fun _ hs => nomatch hs)
    fun _ hs => nomatch hs
  have hnone : ¬∃ s ∈ (none : Option NetSocket), s.port = 49152 + i := fun ⟨_, hs, _⟩ => nomatch hs
  rw [or_iff_right hnone]
  have hsplit := (h.bits i hi).trans (owns_split hfd)
  by_cases hp : old.port = 49152 + i
  · -- nobody else has the port
    have hfree : e' i = false := by
      rw [he, if_pos (by omega), hp, Nat.add_sub_cancel_left, Function.update_self]
    rw [hfree]
    refine ⟨nofun, fun ⟨fd', hne, s, hs, hport⟩ => ?_⟩
    cases ha : old.sockname with
    | none =>
      have := NetSocket.port_of_none ha
      omega
    | some a =>
      cases hb : s.sockname with
      | none =>
        have := NetSocket.port_of_none hb
        omega
      | some b =>
        rw [NetSocket.port_of_name ha] at hp
        rw [NetSocket.port_of_name hb] at hport
        have := (h.apart fd fd' old s hne.symm hfd hs a ha b hb (hp.trans hport.symm)).1
        omega
  · have hsame : e' i = e i := by
      rw [he]
      split_ifs
      · rw [Function.update_of_ne (by omega)]
      · rfl
    rw [hsame, hsplit, or_iff_right hp]

/-! ## The calls -/

namespace NetState

variable {n n' : NetState} {sock : NetSocket} {r : Option Int32}

theorem getSocket_lt (h : n.getSocket fd = some sock) : fd < n.sockets.length :=
  (List.getElem?_eq_some_iff.1 (Option.join_eq_some_iff.1 h)).1

theorem getSocket_setSocket (h : n.getSocket fd = some old) :
    (n.setSocket fd new).getSocket = Function.update n.getSocket fd (some new) := by
  funext fd'
  obtain rfl | hne := eq_or_ne fd' fd
  · rw [Function.update_self, getSocket, setSocket, List.getElem?_set_self (getSocket_lt h)]
    rfl
  · rw [Function.update_of_ne hne, getSocket, setSocket, List.getElem?_set_ne hne.symm]
    rfl

theorem getSocket_freeSocket : (n.freeSocket fd).getSocket = Function.update n.getSocket fd none := by
  funext fd'
  obtain rfl | hne := eq_or_ne fd' fd
  · rw [Function.update_self, getSocket, freeSocket, List.getElem?_set]
    simp only [if_true]
    split_ifs <;> rfl
  · rw [Function.update_of_ne hne, getSocket, freeSocket, List.getElem?_set_ne hne.symm]
    rfl

theorem getSocket_create {domain : Family} {type : SocketType} {ifname : List UInt8} :
    (n.create domain type ifname).getSocket = Function.update n.getSocket n.sockets.length
      (some ⟨domain, type, ifname, none, none, .closed, false, false⟩) := by
  funext fd'
  obtain rfl | hne := eq_or_ne fd' n.sockets.length
  · rw [Function.update_self, getSocket, create, List.getElem?_concat_length]
    rfl
  · rw [Function.update_of_ne hne, getSocket, create, List.getElem?_append]
    split_ifs with hlt
    · rfl
    · obtain ⟨k, hk⟩ : ∃ k, fd' - n.sockets.length = k + 1 := ⟨fd' - n.sockets.length - 1, by omega⟩
      rw [hk, getSocket, List.getElem?_eq_none (Nat.le_of_not_lt hlt)]
      rfl

theorem getSocket_length : n.getSocket n.sockets.length = none := by
  rw [getSocket, List.getElem?_eq_none le_rfl]
  rfl

theorem allocPort_none (h : (List.range 16384).find? (fun portoff => !n.ephports portoff) = none) :
    n.allocPort = (0, n) := by
  unfold allocPort
  rw [h]

theorem allocPort_some {i : ℕ}
    (h : (List.range 16384).find? (fun portoff => !n.ephports portoff) = some i) :
    n.allocPort = (49152 + i, { n with ephports := Function.update n.ephports i true }) := by
  unfold allocPort
  rw [h]

theorem allocPort_first (h : n.ephports 0 = false) :
    n.allocPort = (49152, { n with ephports := Function.update n.ephports 0 true }) :=
  allocPort_some (List.find?_range_eq_some.2 ⟨by rw [h]; rfl, List.mem_range.2 (by decide),
    fun j hj => absurd hj (Nat.not_lt_zero j)⟩)

theorem allocPort_spec : n.allocPort.1 = 0 ∧ n.allocPort.2 = n ∨ ∃ i < 16384, n.ephports i = false ∧
    n.allocPort.1 = 49152 + i ∧
    n.allocPort.2 = { n with ephports := Function.update n.ephports i true } := by
  cases hfind : (List.range 16384).find? fun portoff => !n.ephports portoff with
  | none =>
    rw [allocPort_none hfind]
    exact .inl ⟨rfl, rfl⟩
  | some i =>
    rw [allocPort_some hfind]
    refine .inr ⟨i, List.mem_range.1 (List.mem_of_find?_eq_some hfind), ?_, rfl, rfl⟩
    simpa using List.find?_some hfind

/-- `AllocPort` fails only if no port is free. -/
theorem allocPort_zero (h : n.allocPort.1 = 0) : ∀ i < 16384, n.ephports i = true := by
  cases hfind : (List.range 16384).find? fun portoff => !n.ephports portoff with
  | none =>
    intro i hi
    simpa using List.find?_eq_none.1 hfind i (List.mem_range.2 hi)
  | some i =>
    rw [allocPort_some hfind] at h
    exact absurd h (Nat.ne_of_gt (Nat.add_pos_left (by decide) i))

/-- The bitmap and the names are right. -/
def Kept (n : NetState) : Prop := PortsKept n.getSocket n.ephports

theorem Kept.setSame (h : n.Kept) (hfd : n.getSocket fd = some old) (hname : new.sockname = old.sockname)
    (hif : new.ifname = old.ifname) (htype : new.type = old.type)
    (hthread : old.thread = true → new.thread = true) : (n.setSocket fd new).Kept := by
  unfold Kept
  rw [getSocket_setSocket hfd]
  exact PortsKept.same h hfd hname hif htype hthread

/-- A socket without a name gets the port that `AllocPort` gave. -/
theorem Kept.setEphemeral {family : Family} {addr : ℕ} (h : n.Kept) (hfd : n.getSocket fd = some old)
    (hnone : old.sockname = none) (hport : n.allocPort.1 ≠ 0)
    (hname : new.sockname = some ⟨family, addr, n.allocPort.1⟩)
    (hthread : new.type = .tcp → new.thread = true) : (n.allocPort.2.setSocket fd new).Kept := by
  obtain ⟨hzero, -⟩ | ⟨i, hi, hfree, hi', halloc⟩ := allocPort_spec (n := n)
  · exact absurd hzero hport
  · rw [hi'] at hname
    have hget : (n.allocPort.2.setSocket fd new).getSocket =
        Function.update n.getSocket fd (some new) := by
      rw [halloc]
      exact getSocket_setSocket (n := n) hfd
    have heph : (n.allocPort.2.setSocket fd new).ephports = Function.update n.ephports i true := by
      rw [halloc]
      rfl
    unfold Kept
    rw [hget, heph]
    exact PortsKept.ephemeral h hfd hnone hi hfree hname rfl hthread

theorem Kept.bindImplicit {addr : ℕ} (h : n.Kept) (hfd : n.getSocket fd = some old)
    (hname : new.sockname = old.sockname) (hif : new.ifname = old.ifname) (htype : new.type = old.type)
    (hthread : old.thread = true → new.thread = true)
    (hport : old.sockname = none → n.allocPort.1 ≠ 0 ∧ (new.type = .tcp → new.thread = true)) :
    (n.bindImplicit fd new addr).Kept := by
  unfold NetState.bindImplicit
  split
  · exact h.setSame hfd hname hif htype hthread
  · next hnone =>
    have hold := hname.symm.trans hnone
    exact h.setEphemeral hfd hold (hport hold).1 rfl (hport hold).2

theorem Kept.bindClaim (addr : InetName) (h : n.Kept) (hfd : n.getSocket fd = some sock)
    (hnone : sock.sockname = none) (hlt : addr.port < 49152) : (n.bindClaim fd sock addr).2.Kept := by
  unfold NetState.bindClaim
  split_ifs with hclaim
  · unfold Kept
    rw [getSocket_setSocket hfd]
    obtain ⟨-, hclaim⟩ := of_decide_eq_true hclaim
    refine PortsKept.claimed h hfd hnone rfl hlt rfl fun fd' s' hs' => ?_
    have hmem := List.mem_of_getElem? (Option.join_eq_some_iff.1 hs')
    exact hclaim _ hmem s' rfl
  · exact h

/-- An ephemeral port that was free can be claimed by `bind`: nobody else has it. -/
theorem Kept.bindEphemeral (addr : InetName) (h : n.Kept) (hfd : n.getSocket fd = some sock)
    (hnone : sock.sockname = none) (htype : sock.type = .udp) :
    (n.allocPort.2.bindClaim fd sock { addr with port := n.allocPort.1 }).2.Kept := by
  obtain ⟨hzero, hsame⟩ | ⟨i, hi, hfree, hi', halloc⟩ := allocPort_spec (n := n)
  · rw [hzero, hsame]
    exact h.bindClaim _ hfd hnone (Nat.zero_lt_succ _)
  · have hclaim : n.allocPort.2.claimSocketAddr { addr with port := n.allocPort.1 } sock.ifname =
        true := by
      rw [hi', halloc]
      refine decide_eq_true ⟨Nat.ne_of_gt (Nat.add_pos_left (by decide) i), fun o ho s hs => ?_⟩
      obtain ⟨fd', hfd'⟩ := List.getElem?_of_mem ho
      have hget : n.getSocket fd' = some s := Option.join_eq_some_iff.2 (hfd'.trans (congrArg some hs))
      refine NetSocket.not_blocks fun b hb he => ?_
      have howns : ∃ fd', Owns n.getSocket (49152 + i) fd' :=
        ⟨fd', s, hget, (NetSocket.port_of_name hb).trans he.symm⟩
      rw [(h.bits i hi).2 howns] at hfree
      cases hfree
    unfold NetState.bindClaim
    rw [if_pos hclaim]
    exact h.setEphemeral hfd hnone (by rw [hi']; omega) rfl
      fun ht => by rw [htype] at ht; cases ht

/-! ## Runs -/

/-- A port is free for every implicit `bind`, and only sockets with a name listen. -/
def PortFits (n : NetState) : NetOp → Prop
  | .connect fd addr addrlen _ => ∀ sock ∈ n.getSocket fd, connectError sock addr addrlen = none →
      sock.sockname = none → n.allocPort.1 ≠ 0
  | .sendto fd msgsize addr => ∀ sock ∈ n.getSocket fd, sendtoError sock msgsize addr = none →
      sock.sockname = none → n.allocPort.1 ≠ 0
  | .listen fd => ∀ sock ∈ n.getSocket fd, sock.state = .closed → sock.sockname ≠ none
  | _ => True

instance (n : NetState) : DecidablePred n.PortFits
  | .connect .. | .sendto .. => inferInstanceAs (Decidable (∀ sock ∈ n.getSocket _, _ → _ → _))
  | .listen .. => inferInstanceAs (Decidable (∀ sock ∈ n.getSocket _, _ → _))
  | .create .. | .bind .. | .close .. | .threadEnd .. => inferInstanceAs (Decidable True)

theorem of_ite_some {α : Type} {p : Prop} [Decidable p] {e : α} {o : Option α}
    (h : (if p then some e else o) = none) : ¬p ∧ o = none := by
  by_cases hp : p
  · rw [if_pos hp] at h
    cases h
  · rw [if_neg hp] at h
    exact ⟨hp, h⟩

/-- `bind` claims an address for a socket that has none, and never an ephemeral port. -/
theorem bindError_none {a : InetName} {addrlen : ℕ} {root : Bool}
    (h : bindError sock (some a) addrlen root = none) :
    sock.sockname = none ∧ a.port < 49152 := by
  obtain ⟨-, h⟩ := of_ite_some h
  obtain ⟨-, h⟩ := of_ite_some h
  obtain ⟨hname, h⟩ := of_ite_some h
  obtain ⟨-, h⟩ := of_ite_some h
  obtain ⟨-, h⟩ := of_ite_some h
  obtain ⟨hport, -⟩ := of_ite_some h
  exact ⟨not_not.1 hname, Nat.lt_of_not_le hport⟩

theorem Kept.bind {addr : Option InetName} {addrlen : ℕ} {root : Bool} (h : n.Kept)
    (hs : n.bind fd addr addrlen root = some (r, n')) : n'.Kept := by
  unfold NetState.bind at hs
  obtain ⟨sock, hfd, hs⟩ := Option.bind_eq_some_iff.1 hs
  obtain ⟨-, hs⟩ := Option.ite_none_left_eq_some.1 hs
  split at hs
  · cases hs
    exact h
  · next herror =>
    obtain ⟨a, ha, he⟩ := Option.map_eq_some_iff.1 hs
    subst ha
    obtain ⟨hnone, hport⟩ := bindError_none herror
    by_cases hudp : sock.type = .udp ∧ a.port = 0
    · rw [if_pos hudp] at he
      have hclaim : n.allocPort.2.bindClaim fd sock { a with port := n.allocPort.1 } = (r, n') := he
      have hkept := h.bindEphemeral a hfd hnone hudp.1
      rwa [hclaim] at hkept
    · rw [if_neg hudp] at he
      have hkept := h.bindClaim a hfd hnone hport
      rwa [he] at hkept

theorem Kept.connect {addr : Option InetName} {addrlen default : ℕ} (h : n.Kept)
    (hfit : n.PortFits (.connect fd addr addrlen default))
    (hs : n.connect fd addr addrlen default = some (r, n')) : n'.Kept := by
  unfold NetState.connect at hs
  obtain ⟨sock, hfd, hs⟩ := Option.bind_eq_some_iff.1 hs
  obtain ⟨-, hs⟩ := Option.ite_none_left_eq_some.1 hs
  split at hs
  · cases hs
    exact h
  · next herror =>
    have hport := hfit sock hfd herror
    cases htype : sock.type with
    | udp =>
      simp only [htype] at hs
      cases hs
      exact h.bindImplicit hfd rfl rfl htype.symm id fun hnone =>
        ⟨hport hnone, fun ht => by cases ht⟩
    | tcp =>
      simp only [htype] at hs
      cases hs
      exact h.bindImplicit hfd rfl rfl htype.symm (fun _ => rfl) fun hnone => ⟨hport hnone, fun _ => rfl⟩

theorem Kept.sendto {msgsize : ℕ} {addr : Option (Option InetName × ℕ)} (h : n.Kept)
    (hfit : n.PortFits (.sendto fd msgsize addr))
    (hs : n.sendto fd msgsize addr = some (r, n')) : n'.Kept := by
  unfold NetState.sendto at hs
  obtain ⟨sock, hfd, hs⟩ := Option.bind_eq_some_iff.1 hs
  obtain ⟨hopen, hs⟩ := Option.ite_none_left_eq_some.1 hs
  split at hs
  · cases hs
    exact h
  · next herror =>
    cases hs
    refine h.bindImplicit hfd rfl rfl rfl id fun hnone => ⟨hfit sock hfd herror hnone, fun ht => ?_⟩
    exact absurd (.inr (by rw [ht]; nofun)) hopen

theorem Kept.listen (h : n.Kept) (hfit : n.PortFits (.listen fd))
    (hs : n.listen fd = some (r, n')) : n'.Kept := by
  unfold NetState.listen at hs
  obtain ⟨sock, hfd, hs⟩ := Option.bind_eq_some_iff.1 hs
  obtain ⟨-, hs⟩ := Option.ite_none_left_eq_some.1 hs
  split_ifs at hs with hstate
  · cases hs
    exact h
  · cases hs
    exact h.bindImplicit hfd rfl rfl rfl id fun hnone =>
      absurd hnone (hfit sock hfd (not_not.1 hstate))

/-- A socket is gone, and its port is free. -/
theorem Kept.freed (h : n.Kept) (hfd : n.getSocket fd = some sock) :
    ((n.freePort sock.port).freeSocket fd).Kept := by
  unfold Kept
  rw [getSocket_freeSocket]
  have hget : (n.freePort sock.port).getSocket = n.getSocket := by
    unfold NetState.freePort
    split_ifs <;> rfl
  rw [hget]
  refine PortsKept.freed h hfd ?_
  show (n.freePort sock.port).ephports = _
  unfold NetState.freePort
  split_ifs <;> rfl

theorem Kept.close (h : n.Kept) (hs : n.close fd = some n') : n'.Kept := by
  unfold NetState.close at hs
  obtain ⟨sock, hfd, hs⟩ := Option.bind_eq_some_iff.1 hs
  obtain ⟨-, hs⟩ := Option.ite_none_left_eq_some.1 hs
  cases htype : sock.type with
  | udp =>
    simp only [htype] at hs
    cases hs
    exact h.freed hfd
  | tcp =>
    simp only [htype] at hs
    obtain rfl := Option.some.inj hs
    split_ifs with hthread
    · exact h.setSame hfd rfl rfl htype.symm id
    · -- a socket without a thread has no ephemeral port
      have hlow : ¬49152 ≤ sock.port := fun hp => hthread (h.thread fd sock hfd htype hp)
      have hkept := h.freed hfd
      rwa [NetState.freePort, if_neg hlow] at hkept

theorem Kept.threadEnd (h : n.Kept) (hs : n.threadEnd fd = some n') : n'.Kept := by
  unfold NetState.threadEnd at hs
  obtain ⟨sock, hfd, hs⟩ := Option.bind_eq_some_iff.1 hs
  obtain ⟨-, hs⟩ := Option.ite_none_right_eq_some.1 hs
  cases hs
  exact h.freed hfd

theorem Kept.step {op : NetOp} (h : n.Kept) (hfit : n.PortFits op) (hs : n.step op = some n') :
    n'.Kept := by
  cases op with
  | create domain type ifname =>
    obtain rfl := Option.some.inj hs
    unfold Kept
    rw [getSocket_create]
    exact PortsKept.create h getSocket_length rfl
  | bind fd addr addrlen root =>
    obtain ⟨⟨r, n''⟩, hcall, rfl⟩ := Option.map_eq_some_iff.1 hs
    exact h.bind hcall
  | connect fd addr addrlen default =>
    obtain ⟨⟨r, n''⟩, hcall, rfl⟩ := Option.map_eq_some_iff.1 hs
    exact h.connect hfit hcall
  | sendto fd msgsize addr =>
    obtain ⟨⟨r, n''⟩, hcall, rfl⟩ := Option.map_eq_some_iff.1 hs
    exact h.sendto hfit hcall
  | listen fd =>
    obtain ⟨⟨r, n''⟩, hcall, rfl⟩ := Option.map_eq_some_iff.1 hs
    exact h.listen hfit hcall
  | close fd => exact h.close hs
  | threadEnd fd => exact h.threadEnd hs

end NetState

/-! ## Main result -/

/-- No two addresses conflict, no ephemeral port has two owners, and without sockets all are free. -/
structure NetState.PortsRight (n : NetState) : Prop where
  apart : ∀ fd fd' s s', fd ≠ fd' → n.getSocket fd = some s → n.getSocket fd' = some s' →
    ¬ s.OtherIf s' → ∀ a ∈ s.sockname, ∀ b ∈ s'.sockname, ¬ a.Conflicts b
  once : ∀ port, 49152 ≤ port → ∀ fd fd', Owns n.getSocket port fd → Owns n.getSocket port fd' → fd = fd'
  free : (∀ fd, n.getSocket fd = none) → ∀ i < 16384, n.ephports i = false

theorem NetState.Kept.right {n : NetState} (h : n.Kept) : n.PortsRight where
  apart fd fd' s s' hne hs hs' hif a ha b hb hc :=
    (h.apart fd fd' s s' hne hs hs' a ha b hb hc.1).2.elim hif fun hn => hn hc
  once port hp fd fd' := by
    rintro ⟨s, hs, rfl⟩ ⟨s', hs', he⟩
    by_contra hne
    cases ha : s.sockname with
    | none =>
      have := NetSocket.port_of_none ha
      omega
    | some a =>
      cases hb : s'.sockname with
      | none =>
        have := NetSocket.port_of_none hb
        omega
      | some b =>
        rw [NetSocket.port_of_name ha] at hp he
        rw [NetSocket.port_of_name hb] at he
        have := (h.apart fd fd' s s' hne hs hs' a ha b hb he.symm).1
        omega
  free hnone i hi := by
    refine Bool.eq_false_iff.2 fun hset => ?_
    obtain ⟨fd, s, hs, -⟩ := (h.bits i hi).1 hset
    rw [hnone fd] at hs
    cases hs

theorem netInit_kept {garbage : ℕ → Bool} (hzero : ∀ i < 16384, garbage i = false) :
    (netInit garbage).Kept := by
  refine ⟨fun i hi => ?_, fun fd s hs => ?_, fun fd s hs => ?_, fun fd fd' s s' _ hs => ?_⟩
  · show garbage i = true ↔ _
    rw [hzero i hi]
    exact ⟨nofun, fun ⟨fd, s, hs, _⟩ => by cases hs⟩
  all_goals cases hs

def freshSocket : NetSocket := ⟨.inet, .udp, [], none, none, .closed, false, false⟩

/-- A packet to port 53. -/
def sendFrom (fd : ℕ) : NetOp := .sendto fd 0 (some (some ⟨.inet, 1, 53⟩, 28))

theorem getSocket_fresh {n : NetState} : (n.create .inet .udp []).getSocket n.sockets.length = some freshSocket := by
  rw [NetState.getSocket_create, Function.update_self]
  rfl

theorem step_sendFrom {n : NetState} {fd : ℕ} (h : n.getSocket fd = some freshSocket) : n.step (sendFrom fd) =
    some (n.allocPort.2.setSocket fd
      { freshSocket with sockname := some ⟨.inet, 0, n.allocPort.1⟩ }) := by
  have herror : NetState.sendtoError freshSocket 0 (some (some ⟨.inet, 1, 53⟩, 28)) = none := by decide
  simp only [NetState.step, sendFrom, NetState.sendto, h, Option.bind_eq_bind, Option.bind_some, herror]
  rfl

section Exhausted

variable {n : NetState}

/-- The ports that are free. -/
def NetState.freePorts (n : NetState) : Finset ℕ :=
  (Finset.range 16384).filter fun i => n.ephports i = false

theorem NetState.mem_freePorts : i ∈ n.freePorts ↔ i < 16384 ∧ n.ephports i = false := by
  rw [freePorts, Finset.mem_filter, Finset.mem_range]

/-- UDP sockets that send can take all ports. -/
theorem reach_exhausted {garbage : ℕ → Bool} (hn : (netSystem garbage).Reachable n) :
    ∃ n', (netSystem garbage).Reachable n' ∧ n'.freePorts = ∅ := by
  induction hk : n.freePorts.card using Nat.strong_induction_on generalizing n with
  | _ k ih =>
    by_cases hempty : n.freePorts = ∅
    · exact ⟨n, hn, hempty⟩
    subst hk
    have hcreate : (netSystem garbage).Reachable (n.create .inet .udp []) :=
      hn.step (a := .create .inet .udp []) trivial rfl
    have hsend := hcreate.step (a := sendFrom n.sockets.length) trivial (step_sendFrom getSocket_fresh)
    obtain ⟨hzero, -⟩ | ⟨j, hj, hfree, -, halloc⟩ :=
      NetState.allocPort_spec (n := n.create .inet .udp [])
    · refine absurd (Finset.eq_empty_of_forall_notMem fun i hi => ?_) hempty
      obtain ⟨hlt, hfree⟩ := NetState.mem_freePorts.1 hi
      have := NetState.allocPort_zero hzero i hlt
      exact absurd (this.symm.trans hfree) nofun
    · refine ih _ (Finset.card_lt_card ⟨fun m hm => ?_, fun hsub => ?_⟩) hsend rfl
      · obtain ⟨hlt, hm⟩ := NetState.mem_freePorts.1 hm
        rw [halloc] at hm
        refine NetState.mem_freePorts.2 ⟨hlt, ?_⟩
        obtain rfl | hne := eq_or_ne m j
        · exact hfree
        · exact (Function.update_of_ne hne ..).symm.trans hm
      · obtain ⟨-, hm⟩ := NetState.mem_freePorts.1 (hsub (NetState.mem_freePorts.2 ⟨hj, hfree⟩))
        rw [halloc] at hm
        exact absurd ((Function.update_self ..).symm.trans hm) nofun

/-- Without a free port, a new socket that sends gets the port zero. -/
theorem send_exhausted {garbage : ℕ → Bool} (hn : (netSystem garbage).Reachable n)
    (hnone : n.freePorts = ∅) : ∃ n', (netSystem garbage).Reachable n' ∧ n'.freePorts = ∅ ∧
      n'.sockets.length = n.sockets.length + 1 ∧ n'.getSocket = Function.update n.getSocket
        n.sockets.length (some { freshSocket with sockname := some ⟨.inet, 0, 0⟩ }) := by
  have hcreate : (netSystem garbage).Reachable (n.create .inet .udp []) :=
    hn.step (a := .create .inet .udp []) trivial rfl
  have hsend := hcreate.step (a := sendFrom n.sockets.length) trivial (step_sendFrom getSocket_fresh)
  obtain ⟨hzero, hsame⟩ | ⟨j, hj, hfree, -, -⟩ := NetState.allocPort_spec (n := n.create .inet .udp [])
  · rw [hzero, hsame] at hsend
    refine ⟨_, hsend, hnone, ?_, ?_⟩
    · rw [NetState.setSocket, List.length_set, NetState.create, List.length_append]
      rfl
    · rw [NetState.getSocket_setSocket getSocket_fresh, NetState.getSocket_create,
        Function.update_idem]
  · have hmem : j ∈ n.freePorts := NetState.mem_freePorts.2 ⟨hj, hfree⟩
    rw [hnone] at hmem
    cases hmem

end Exhausted

end Glidix.Net
